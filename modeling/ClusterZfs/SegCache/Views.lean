import ClusterZfs.SegCache.Dirty

/-! The block by its contents: what the dbuf has, and what each dirty record will write. Which
buffers are shared comes down to one fact: a change of `db_data` in place is a change of the newest
record as well, if that one has the buffer of the dbuf, and of no other. -/
namespace ClusterZfs

/- A dirty record with what it will write. -/
structure RecordView where
  txg : Nat
  mirrorIo : List BlockWrite
  image : Image

namespace MirrorDb

variable (s : MirrorDb)

def view (dr : DirtyRecord) : RecordView := ⟨dr.txg, dr.mirrorIo, s.bufs dr.data⟩

def records : List RecordView := s.dirty.map s.view

/- The block with its segments. -/
def current : Image := s.base.merged s.segs

def Shared : Prop := ∃ dr, s.dirty.head? = some dr ∧ s.dbBuf = some dr.data

end MirrorDb

/- Buffers are allocated, records after the newest have their own, and the newest has that of the
dbuf unless it is the one being written. -/
structure BufInv (s : MirrorDb) : Prop where
  dbFresh : ∀ b, s.dbBuf = some b → b < s.nextBuf
  drFresh : ∀ dr ∈ s.dirty, dr.data < s.nextBuf
  alone : ∀ dr ∈ s.dirty.tail, s.dbBuf ≠ some dr.data
  cached : s.dirty ≠ [] → s.dbBuf.isSome
  newest : ∀ dr, s.dirty.head? = some dr →
    s.dbBuf = some dr.data ∨ s.pending ∧ s.dirty.length = 1

namespace BufInv

variable {dr : DirtyRecord}

open MirrorDb

variable {s : MirrorDb} {image : Image}

theorem alloc_bufs {i : Nat} (hi : i ≠ s.nextBuf) : (s.alloc image).bufs i = s.bufs i :=
  Function.update_of_ne hi ..

theorem alloc_bufs_new : (s.alloc image).bufs s.nextBuf = image := Function.update_self ..

section

variable (h : BufInv s)
include h

theorem not_next : s.dbBuf ≠ some s.nextBuf :=
  fun hb => Nat.lt_irrefl _ (h.dbFresh _ hb)

theorem alloc_view (hdr : dr ∈ s.dirty) :
    (s.alloc image).view dr = s.view dr := by
  rw [view, alloc_bufs (Nat.ne_of_lt (h.drFresh dr hdr))]
  rfl

theorem alloc_records : (s.alloc image).records = s.records :=
  List.map_congr_left fun _ hdr => h.alloc_view hdr

theorem alloc_base : (s.alloc image).base = s.base := by
  cases hb : s.dbBuf with
  | none => simp [base, MirrorDb.alloc, hb]
  | some b =>
    have hne : b ≠ s.nextBuf := Nat.ne_of_lt (h.dbFresh b hb)
    simp [base, MirrorDb.alloc, hb, Function.update_of_ne hne]

theorem newBuf (hdirty : s.dirty = [] ∨ s.pending ∧ s.dirty.length = 1) :
    BufInv { s.alloc image with dbBuf := some s.nextBuf } where
  dbFresh b hb := by
    cases hb
    exact Nat.lt_succ_self s.nextBuf
  drFresh dr hdr := Nat.lt_succ_of_lt (h.drFresh dr hdr)
  alone dr hdr hb := by
    have hfresh := h.drFresh dr (List.mem_of_mem_tail hdr)
    rw [← Option.some.inj hb] at hfresh
    exact Nat.lt_irrefl _ hfresh
  cached _ := rfl
  newest dr hdr := by
    rcases hdirty with hnil | hpending
    · simp [MirrorDb.alloc, hnil] at hdr
    · exact .inr hpending

theorem head_of_shared (hdr : dr ∈ s.dirty)
    (hshared : s.dbBuf = some dr.data) : s.dirty.head? = some dr := by
  rcases hdirty : s.dirty with _ | ⟨x, rest⟩ <;> rw [hdirty] at hdr
  · cases hdr
  · rcases List.mem_cons.mp hdr with hx | hx
    · rw [hx, List.head?_cons]
    · exact absurd hshared (h.alone dr (by rwa [hdirty]))

theorem only_of_last_shared (hlast : s.dirty.getLast? = some dr)
    (hshared : s.dbBuf = some dr.data) : s.dirty = [dr] := by
  have hhead := h.head_of_shared (List.mem_of_getLast? hlast) hshared
  rcases hdirty : s.dirty with _ | ⟨x, _ | ⟨y, rest⟩⟩
  · simp [hdirty] at hhead
  · rw [hdirty, List.head?_cons] at hhead
    rw [Option.some.inj hhead]
  · have htail : dr ∈ s.dirty.tail := by
      rw [hdirty, List.getLast?_cons_cons] at hlast
      rw [hdirty]
      exact List.mem_of_getLast? hlast
    exact absurd hshared (h.alone dr htail)

end

end BufInv

/- What no operation on the buffers changes. -/
structure SameRest (s s' : MirrorDb) : Prop where
  segs : s'.segs = s.segs
  mirrorIo : s'.mirrorIo = s.mirrorIo
  pending : s'.pending = s.pending
  disk : s'.disk = s.disk

/- Another state of the buffers with the same contents. -/
structure SameView (s s' : MirrorDb) : Prop extends SameRest s s' where
  records : s'.records = s.records
  base : s'.base = s.base

section Same

variable {s s' s'' : MirrorDb}

theorem SameRest.refl (s : MirrorDb) : SameRest s s := ⟨rfl, rfl, rfl, rfl⟩

theorem SameRest.trans (h : SameRest s s') (h' : SameRest s' s'') : SameRest s s'' where
  segs := h'.segs.trans h.segs
  mirrorIo := h'.mirrorIo.trans h.mirrorIo
  pending := h'.pending.trans h.pending
  disk := h'.disk.trans h.disk

theorem SameView.refl (s : MirrorDb) : SameView s s := ⟨.refl s, rfl, rfl⟩

theorem SameView.trans (h : SameView s s') (h' : SameView s' s'') : SameView s s'' where
  toSameRest := h.toSameRest.trans h'.toSameRest
  records := h'.records.trans h.records
  base := h'.base.trans h.base

theorem SameView.current (h : SameView s s') : s'.current = s.current := by
  rw [MirrorDb.current, MirrorDb.current, h.base, h.segs]

end Same

namespace BufInv

open MirrorDb

variable {s : MirrorDb} {image : Image}

theorem newBuf_records (h : BufInv s) :
    MirrorDb.records { s.alloc image with dbBuf := some s.nextBuf } = s.records := h.alloc_records

theorem newBuf_base : MirrorDb.base { s.alloc image with dbBuf := some s.nextBuf } = image :=
  alloc_bufs_new

section

variable (h : BufInv s)
include h

theorem hold : BufInv s.hold ∧ SameView s s.hold := by
  unfold MirrorDb.hold
  split
  · exact ⟨h, .refl s⟩
  · rename_i dr hlast
    split
    · rename_i hwritten
      have hone : s.dirty.length = 1 := by
        rw [h.only_of_last_shared hlast hwritten.2, List.length_singleton]
      refine ⟨h.newBuf (.inr ⟨hwritten.1, hone⟩), ⟨rfl, rfl, rfl, rfl⟩, h.newBuf_records, ?_⟩
      rw [newBuf_base, base, hwritten.2]
      rfl
    · exact ⟨h, .refl s⟩

theorem dirty_nil (hnone : s.dbBuf = none) : s.dirty = [] := by
  by_contra hdirty
  simpa [hnone] using h.cached hdirty

theorem load (image : Image) :
    BufInv (s.load image) ∧ (s.load image).dbBuf.isSome ∧
    SameRest s (s.load image) ∧ (s.load image).records = s.records ∧
    (s.load image).base = (s.dbBuf.map s.bufs).getD image := by
  unfold MirrorDb.load
  split
  · rename_i b hb
    exact ⟨h, by simp [hb], .refl s, rfl, by simp [base, hb]⟩
  · rename_i hnone
    refine ⟨h.newBuf (.inl (h.dirty_nil hnone)), rfl, ⟨rfl, rfl, rfl, rfl⟩, h.newBuf_records, ?_⟩
    rw [newBuf_base, hnone]
    rfl

theorem dbufRead :
    BufInv s.dbufRead ∧ s.dbufRead.dbBuf.isSome ∧ SameView s s.dbufRead := by
  obtain ⟨hbuf, hsome, hrest, hrecords, hbase⟩ := h.load s.disk
  exact ⟨hbuf, hsome, hrest, hrecords, hbase⟩

theorem fixOldData :
    (∀ dr ∈ s.fixOldData.dirty, s.fixOldData.dbBuf ≠ some dr.data) ∧
    (∀ dr ∈ s.fixOldData.dirty, dr.data < s.fixOldData.nextBuf) ∧
    s.nextBuf ≤ s.fixOldData.nextBuf ∧ s.fixOldData.dbBuf = s.dbBuf ∧
    SameView s s.fixOldData := by
  unfold MirrorDb.fixOldData
  split
  · rename_i hdirty
    refine ⟨?_, h.drFresh, le_rfl, rfl, .refl s⟩
    rw [hdirty]
    exact List.forall_mem_nil _
  · rename_i dr rest hdirty
    have hrest : ∀ x ∈ rest, x ∈ s.dirty ∧ s.dbBuf ≠ some x.data := by
      intro x hx
      have hx' : x ∈ s.dirty.tail := by rwa [hdirty]
      exact ⟨List.mem_of_mem_tail hx', h.alone x hx'⟩
    split
    · refine ⟨?_, ?_, Nat.le_succ _, rfl, ⟨rfl, rfl, rfl, rfl⟩, ?_, h.alloc_base⟩
      · exact List.forall_mem_cons.mpr ⟨h.not_next, fun x hx => (hrest x hx).2⟩
      · refine List.forall_mem_cons.mpr ⟨Nat.lt_succ_self s.nextBuf, ?_⟩
        exact fun x hx => Nat.lt_succ_of_lt (h.drFresh x (hrest x hx).1)
      · rw [records, records, hdirty, List.map_cons, List.map_cons]
        refine congrArg₂ List.cons ?_ ?_
        · exact congrArg (RecordView.mk dr.txg dr.mirrorIo) alloc_bufs_new
        · exact List.map_congr_left fun x hx => h.alloc_view (hrest x hx).1
    · rename_i hshared
      refine ⟨?_, h.drFresh, le_rfl, rfl, .refl s⟩
      rw [hdirty]
      exact List.forall_mem_cons.mpr ⟨hshared, fun x hx => (hrest x hx).2⟩

end

end BufInv

/- The newest record of the block will be this one, with this group: it is there already, or it is
new. -/
def MirrorDb.HeadAt (s : MirrorDb) (txg : Nat) (io : List BlockWrite) (rest : List RecordView) :
    Prop :=
  s.records = ⟨txg, io, s.base⟩ :: rest ∨
    io = [] ∧ rest = s.records ∧ ∀ r, s.records.head? = some r → r.txg ≠ txg

namespace MirrorDb

variable {s : MirrorDb} {b txg : Nat} {f : Image → Image}

section

variable (hb : s.dbBuf = some b)
include hb

theorem addRecord_eq :
    s.addRecord txg = { s with dirty := ⟨txg, b, []⟩ :: s.dirty } := by
  simp only [addRecord, hb]

theorem setData_eq :
    s.setData f = { s with bufs := Function.update s.bufs b (f (s.bufs b)) } := by
  simp only [setData, hb]

theorem base_eq : s.base = s.bufs b := by
  rw [base, hb]
  rfl

theorem setData_base : (s.setData f).base = f s.base := by
  simp [setData_eq hb, base, hb]

end

end MirrorDb

namespace BufInv

open MirrorDb

variable {s : MirrorDb} {txg : Nat} {f : Image → Image}

section

variable (h : BufInv s)
include h

theorem addRecord (txg : Nat) {b : Nat} (hb : s.dbBuf = some b) :
    BufInv (s.fixOldData.addRecord txg) ∧ (s.fixOldData.addRecord txg).Shared ∧
    SameRest s (s.fixOldData.addRecord txg) ∧ (s.fixOldData.addRecord txg).base = s.base ∧
    (s.fixOldData.addRecord txg).records = ⟨txg, [], s.base⟩ :: s.records := by
  obtain ⟨hnone, hfresh, hle, hbuf, hview⟩ := h.fixOldData
  have hb' : s.fixOldData.dbBuf = some b := hbuf.trans hb
  have hbufs : s.fixOldData.bufs b = s.base := by
    rw [← hview.base, base_eq hb']
  rw [addRecord_eq hb']
  refine ⟨⟨?_, ?_, hnone, ?_, ?_⟩, ?_, ?_, hview.base, ?_⟩
  · intro x hx
    exact (h.dbFresh x (hbuf.symm.trans hx)).trans_le hle
  · exact List.forall_mem_cons.mpr ⟨(h.dbFresh b hb).trans_le hle, hfresh⟩
  · intro _
    exact Option.isSome_of_eq_some hb'
  · intro dr hdr
    cases hdr
    exact .inl hb'
  · exact ⟨_, rfl, hb'⟩
  · exact { hview.toSameRest with }
  · rw [← hview.records, ← hbufs]
    rfl

theorem dbufDirty {b : Nat} (hb : s.dbBuf = some b)
    (hown : ∀ dr, s.dirty.head? = some dr → dr.txg = txg → s.dbBuf = some dr.data) :
    BufInv (s.dbufDirty txg) ∧ (s.dbufDirty txg).Shared ∧ SameRest s (s.dbufDirty txg) ∧
    (s.dbufDirty txg).base = s.base ∧
    ∃ io rest, s.HeadAt txg io rest ∧ (s.dbufDirty txg).records = ⟨txg, io, s.base⟩ :: rest := by
  unfold MirrorDb.dbufDirty
  split
  · rename_i hhead
    obtain ⟨dr, hdr, htxg⟩ := Option.map_eq_some_iff.mp hhead
    have hshared := hown dr hdr htxg
    have hrecords : s.records = ⟨txg, dr.mirrorIo, s.base⟩ :: s.dirty.tail.map s.view := by
      rw [records, List.eq_cons_of_mem_head? hdr, base_eq hshared, ← htxg]
      rfl
    exact ⟨h, ⟨dr, hdr, hshared⟩, .refl s, rfl, _, _, .inl hrecords, hrecords⟩
  · rename_i hhead
    obtain ⟨hbuf, hshared, hrest, hbase, hrecords⟩ := h.addRecord txg hb
    refine ⟨hbuf, hshared, hrest, hbase, [], s.records, .inr ⟨rfl, rfl, ?_⟩, hrecords⟩
    intro r hr htxg
    rw [records, List.head?_map] at hr
    obtain ⟨dr, hdr, hview⟩ := Option.map_eq_some_iff.mp hr
    apply hhead
    rw [hdr, ← htxg, ← hview]
    rfl

theorem dirtyMirrorIo (mirrored : Bool) {io : List BlockWrite} {image : Image}
    {rest : List RecordView} (hshared : s.Shared)
    (hrecords : s.records = ⟨txg, io, image⟩ :: rest) :
    BufInv (s.dirtyMirrorIo mirrored) ∧ (s.dirtyMirrorIo mirrored).Shared ∧
    (s.dirtyMirrorIo mirrored).base = s.base ∧ (s.dirtyMirrorIo mirrored).segs = s.segs ∧
    (s.dirtyMirrorIo mirrored).pending = s.pending ∧ (s.dirtyMirrorIo mirrored).disk = s.disk ∧
    (s.dirtyMirrorIo mirrored).mirrorIo = [] ∧
    (s.dirtyMirrorIo mirrored).records =
      ⟨txg, io ++ (if mirrored then s.mirrorIo else []), image⟩ :: rest := by
  obtain ⟨dr, hdr, hdata⟩ := hshared
  cases hdirty : s.dirty with
  | nil => simp [hdirty] at hdr
  | cons x tail =>
    rw [hdirty, List.head?_cons] at hdr
    cases Option.some.inj hdr
    rw [records, hdirty, List.map_cons] at hrecords
    obtain ⟨hview, hrest⟩ := List.cons.inj hrecords
    have hmem : ∀ y ∈ tail, y ∈ s.dirty.tail := by
      rw [hdirty]
      exact fun _ hy => hy
    rw [MirrorDb.dirtyMirrorIo, hdirty]
    refine ⟨⟨h.dbFresh, ?_, ?_, ?_, ?_⟩, ⟨_, rfl, hdata⟩, rfl, rfl, rfl, rfl, rfl, ?_⟩
    · refine List.forall_mem_cons.mpr ⟨h.dbFresh _ hdata, ?_⟩
      exact fun y hy => h.drFresh y (List.mem_of_mem_tail (hmem y hy))
    · exact fun y hy => h.alone y (hmem y hy)
    · exact fun _ => Option.isSome_of_eq_some hdata
    · intro y hy
      cases hy
      exact .inl hdata
    · cases hview
      rw [← hrest]
      rfl

/- A change in place of a dbuf whose buffer the newest record has. -/
theorem setData_shared (f : Image → Image) {io : List BlockWrite} {image : Image}
    {rest : List RecordView} (hshared : s.Shared)
    (hrecords : s.records = ⟨txg, io, image⟩ :: rest) :
    BufInv (s.setData f) ∧ (s.setData f).Shared ∧ SameRest s (s.setData f) ∧
    (s.setData f).base = f s.base ∧ (s.setData f).records = ⟨txg, io, f s.base⟩ :: rest := by
  obtain ⟨dr, hdr, hdata⟩ := hshared
  have hbase := base_eq hdata
  have hnew : (s.setData f).base = f s.base := setData_base hdata
  rw [setData_eq hdata] at hnew ⊢
  refine ⟨{ h with }, ⟨dr, hdr, hdata⟩, ⟨rfl, rfl, rfl, rfl⟩, hnew, ?_⟩
  · rw [records, List.eq_cons_of_mem_head? hdr, List.map_cons] at hrecords ⊢
    obtain ⟨hview, hrest⟩ := List.cons.inj hrecords
    cases hview
    refine congrArg₂ List.cons ?_ ?_
    · rw [hbase]
      exact congrArg (RecordView.mk dr.txg dr.mirrorIo) (Function.update_self ..)
    · rw [← hrest]
      apply List.map_congr_left
      intro x hx
      have hne : x.data ≠ dr.data := by
        intro heq
        exact h.alone x hx (by rw [hdata, heq])
      exact congrArg (RecordView.mk x.txg x.mirrorIo) (Function.update_of_ne hne ..)

theorem setData_unshared (f : Image → Image) (hsome : s.dbBuf.isSome)
    (hshared : ¬ s.Shared) :
    BufInv (s.setData f) ∧ SameRest s (s.setData f) ∧ (s.setData f).base = f s.base ∧
    (s.setData f).records = s.records := by
  obtain ⟨b, hb⟩ := Option.isSome_iff_exists.mp hsome
  have hnew : (s.setData f).base = f s.base := setData_base hb
  rw [setData_eq hb] at hnew ⊢
  refine ⟨{ h with }, ⟨rfl, rfl, rfl, rfl⟩, hnew, ?_⟩
  · apply List.map_congr_left
    intro x hx
    have hne : x.data ≠ b := by
      intro heq
      have hx' : s.dbBuf = some x.data := by rw [hb, heq]
      exact hshared ⟨x, h.head_of_shared hx hx', hx'⟩
    exact congrArg (RecordView.mk x.txg x.mirrorIo) (Function.update_of_ne hne ..)

end

end BufInv

/- The block is dirtied in a group: its newest record is of that group, takes the queued mirror
records along and will write what the dbuf has. -/
structure Dirtied (s : MirrorDb) (txg : Nat) (mirrored : Bool) (s' : MirrorDb) (image : Image) :
    Prop where
  buf : BufInv s'
  shared : s'.Shared
  records : ∃ io rest, s.HeadAt txg io rest ∧
    s'.records = ⟨txg, io ++ (if mirrored then s.mirrorIo else []), image⟩ :: rest
  base : s'.base = image
  mirrorIo : s'.mirrorIo = []
  pending : s'.pending = s.pending
  disk : s'.disk = s.disk

/- What is being written is of another group. -/
def MirrorDb.NotWriting (s : MirrorDb) (txg : Nat) : Prop :=
  s.pending → ∀ r, s.records.getLast? = some r → r.txg ≠ txg

theorem MirrorDb.NotWriting.same {s s' : MirrorDb} {txg : Nat} (h : s.NotWriting txg)
    (hrest : SameRest s s') (hrecords : s'.records = s.records) : s'.NotWriting txg := by
  rw [NotWriting, hrest.pending, hrecords]
  exact h

namespace BufInv

open MirrorDb

variable {s : MirrorDb} {txg : Nat}

theorem owned (h : BufInv s) (hwriting : s.NotWriting txg) (dr : DirtyRecord)
    (hdr : s.dirty.head? = some dr) (htxg : dr.txg = txg) : s.dbBuf = some dr.data := by
  cases h.newest dr hdr with
  | inl hshared => exact hshared
  | inr hone =>
    have hlast : s.records.getLast? = some (s.view dr) := by
      obtain ⟨x, hx⟩ := List.length_eq_one_iff.mp hone.2
      rw [hx, List.head?_cons] at hdr
      cases Option.some.inj hdr
      rw [records, hx]
      rfl
    exact absurd htxg (hwriting hone.1 _ hlast)

/- `dbuf_dirty` with `dbuf_dirty_mirror_io` on a dbuf in memory. -/
theorem dirtyTake (h : BufInv s) (hsome : s.dbBuf.isSome) (hwriting : s.NotWriting txg)
    (mirrored : Bool) :
    Dirtied s txg mirrored ((s.dbufDirty txg).dirtyMirrorIo mirrored) s.base ∧
    ((s.dbufDirty txg).dirtyMirrorIo mirrored).segs = s.segs := by
  obtain ⟨b, hb⟩ := Option.isSome_iff_exists.mp hsome
  obtain ⟨hbuf, hshared, hrest, hbase, io, rest, hhead, hrecords⟩ :=
    h.dbufDirty hb (h.owned hwriting)
  obtain ⟨hbuf', hshared', hbase', hsegs, hpending, hdisk, hio, hrecords'⟩ :=
    hbuf.dirtyMirrorIo mirrored hshared hrecords
  rw [hrest.mirrorIo] at hrecords'
  exact ⟨⟨hbuf', hshared', ⟨io, rest, hhead, hrecords'⟩, hbase'.trans hbase, hio,
    hpending.trans hrest.pending, hdisk.trans hrest.disk⟩, hsegs.trans hrest.segs⟩

end BufInv

namespace Dirtied

open MirrorDb

variable {s s' s₁ : MirrorDb} {txg : Nat} {mirrored : Bool} {image : Image}

/- Loading the block first makes no difference to what is there to be dirtied. -/
theorem of_load (h : Dirtied s₁ txg mirrored s' image) (hrest : SameRest s s₁)
    (hrecords : s₁.records = s.records) (hbase : s₁.base = s.base ∨ s.records = []) :
    Dirtied s txg mirrored s' image := by
  obtain ⟨io, rest, hhead, hr⟩ := h.records
  refine ⟨h.buf, h.shared, ⟨io, rest, ?_, ?_⟩, h.base, h.mirrorIo, h.pending.trans hrest.pending,
    h.disk.trans hrest.disk⟩
  · rw [HeadAt, hrecords] at hhead
    refine hhead.imp_left fun hfound => ?_
    rcases hbase with hbase | hnil
    · rwa [hbase] at hfound
    · rw [hnil] at hfound
      cases hfound
  · rw [hr, hrest.mirrorIo]

theorem of_view (h : Dirtied s₁ txg mirrored s' image) (hview : SameView s s₁) :
    Dirtied s txg mirrored s' image :=
  h.of_load hview.toSameRest hview.records (.inl hview.base)

section

variable (h : Dirtied s txg mirrored s' image)
include h

theorem setData (f : Image → Image) :
    Dirtied s txg mirrored (s'.setData f) (f image) ∧ (s'.setData f).segs = s'.segs := by
  obtain ⟨io, rest, hhead, hrecords⟩ := h.records
  obtain ⟨hbuf, hshared, hrest, hbase, hrecords'⟩ := h.buf.setData_shared f h.shared hrecords
  rw [h.base] at hbase hrecords'
  exact ⟨⟨hbuf, hshared, ⟨io, rest, hhead, hrecords'⟩, hbase, hrest.mirrorIo.trans h.mirrorIo,
    hrest.pending.trans h.pending, hrest.disk.trans h.disk⟩, hrest.segs⟩

theorem dropSegs : Dirtied s txg mirrored s'.dropSegs image :=
  { h with buf := { h.buf with } }

theorem mergeSegs :
    Dirtied s txg mirrored s'.mergeSegs (image.merged s'.segs) :=
  (h.setData fun image => image.merged s'.segs).1.dropSegs

end

end Dirtied

namespace MirrorDb

/- What `dbuf_noread` leaves in the dbuf. -/
def filled (s : MirrorDb) : Image := (s.dbBuf.map s.bufs).getD blank

end MirrorDb

namespace BufInv

open MirrorDb

variable {s : MirrorDb} {txg size : Nat} {w : BlockWrite}

section

variable (h : BufInv s)
include h

theorem willDirty (hwriting : s.NotWriting txg) (mirrored : Bool) :
    Dirtied s txg mirrored (s.willDirty txg mirrored) s.base ∧
    (s.willDirty txg mirrored).segs = s.segs := by
  obtain ⟨hbuf, hsome, hview⟩ := h.dbufRead
  obtain ⟨hdirtied, hsegs⟩ :=
    hbuf.dirtyTake hsome (hwriting.same hview.toSameRest hview.records) mirrored
  rw [hview.base] at hdirtied
  exact ⟨hdirtied.of_view hview, hsegs.trans hview.segs⟩

theorem willFill (hwriting : s.NotWriting txg) (mirrored : Bool) :
    Dirtied s txg mirrored (s.willFill txg mirrored) s.filled ∧
    (s.willFill txg mirrored).segs = s.segs := by
  obtain ⟨hbuf, hsome, hrest, hrecords, hbase⟩ := h.load blank
  have hsame : s.dbufNoread.base = s.base ∨ s.records = [] := by
    cases hb : s.dbBuf with
    | none => exact .inr (by rw [records, h.dirty_nil hb, List.map_nil])
    | some b => exact .inl (hbase.trans (by simp [base, hb]))
  obtain ⟨hdirtied, hsegs⟩ := hbuf.dirtyTake hsome (hwriting.same hrest hrecords) mirrored
  rw [hbase] at hdirtied
  exact ⟨hdirtied.of_load hrest hrecords hsame, hsegs.trans hrest.segs⟩

theorem fill (hwriting : s.NotWriting txg) (mirrored : Bool) (f : Image → Image) :
    Dirtied s txg mirrored (s.fill txg mirrored f) (f s.filled) ∧
    (s.fill txg mirrored f).segs = [] := by
  obtain ⟨hdirtied, _⟩ := h.willFill hwriting mirrored
  exact hdirtied.dropSegs.setData f

theorem writePartial (hwriting : s.NotWriting w.txg) (mirrored : Bool) :
    Dirtied s w.txg mirrored (s.writePartial w mirrored) (w.onto s.current) ∧
    (s.writePartial w mirrored).segs = [] := by
  obtain ⟨hdirtied, hsegs⟩ := h.willDirty hwriting mirrored
  obtain ⟨hdone, hnil⟩ := hdirtied.mergeSegs.setData w.onto
  rw [hsegs] at hdone
  exact ⟨hdone, hnil⟩

theorem addSeg : BufInv { s with segs := s.segs ++ [w] } := { h with }

theorem writeSegs (hwriting : s.NotWriting w.txg) (mirrored : Bool) :
    Dirtied s w.txg mirrored
      (MirrorDb.willFill { s with segs := s.segs ++ [w] } w.txg mirrored).mergeSegs
      (s.filled.merged (s.segs ++ [w])) := by
  obtain ⟨hdirtied, hsegs⟩ := (h.addSeg).willFill hwriting mirrored
  have hmerged := hdirtied.mergeSegs
  rw [hsegs] at hmerged
  exact { hmerged with }

theorem mergeSegs (hsome : s.dbBuf.isSome) :
    BufInv s.mergeSegs ∧ s.mergeSegs.base = s.current ∧ s.mergeSegs.mirrorIo = s.mirrorIo ∧
    s.mergeSegs.pending = s.pending ∧ s.mergeSegs.disk = s.disk ∧
    (s.mergeSegs.records = s.records ∨ s.Shared ∧ ∃ txg io rest,
      s.records = ⟨txg, io, s.base⟩ :: rest ∧
      s.mergeSegs.records = ⟨txg, io, s.current⟩ :: rest) := by
  by_cases hshared : s.Shared
  · obtain ⟨dr, hdr, hdata⟩ := hshared
    have hrecords : s.records = ⟨dr.txg, dr.mirrorIo, s.base⟩ :: s.dirty.tail.map s.view := by
      rw [records, List.eq_cons_of_mem_head? hdr, base_eq hdata]
      rfl
    obtain ⟨hbuf, _, hrest, hbase, hrecords'⟩ :=
      h.setData_shared (fun image => image.merged s.segs) ⟨dr, hdr, hdata⟩ hrecords
    exact ⟨{ hbuf with }, hbase, hrest.mirrorIo, hrest.pending, hrest.disk,
      .inr ⟨⟨dr, hdr, hdata⟩, _, _, _, hrecords, hrecords'⟩⟩
  · obtain ⟨hbuf, hrest, hbase, hrecords⟩ :=
      h.setData_unshared (fun image => image.merged s.segs) hsome hshared
    exact ⟨{ hbuf with }, hbase, hrest.mirrorIo, hrest.pending, hrest.disk, .inl hrecords⟩

/- A dbuf that gets another buffer shares it with no dirty record. -/
theorem not_shared_next {dr : DirtyRecord} (hdr : s.dirty.head? = some dr) :
    s.nextBuf ≠ dr.data := Nat.ne_of_gt (h.drFresh dr (List.mem_of_head? hdr))

theorem shared_of_hold (hshared : s.hold.Shared) : s.Shared := by
  unfold MirrorDb.hold at hshared
  split at hshared
  · exact hshared
  · split at hshared
    · obtain ⟨dr, hdr, hdata⟩ := hshared
      exact absurd (Option.some.inj hdata) (h.not_shared_next hdr)
    · exact hshared

theorem shared_of_dbufRead (hshared : s.dbufRead.Shared) : s.Shared := by
  unfold MirrorDb.dbufRead MirrorDb.load at hshared
  split at hshared
  · exact hshared
  · obtain ⟨dr, hdr, hdata⟩ := hshared
    exact absurd (Option.some.inj hdata) (h.not_shared_next hdr)

theorem read :
    BufInv s.read ∧ s.read.base = s.current ∧ s.read.mirrorIo = s.mirrorIo ∧
    s.read.pending = s.pending ∧ s.read.disk = s.disk ∧
    (s.read.records = s.records ∨ s.Shared ∧ ∃ txg io rest,
      s.records = ⟨txg, io, s.base⟩ :: rest ∧ s.read.records = ⟨txg, io, s.current⟩ :: rest) := by
  obtain ⟨hheld, hview⟩ := h.hold
  obtain ⟨hread, hsome, hview'⟩ := hheld.dbufRead
  have hsame := hview.trans hview'
  obtain ⟨hbuf, hbase, hio, hpending, hdisk, hrecords⟩ := hread.mergeSegs hsome
  rw [hsame.current, hsame.records, hsame.base] at hrecords
  refine ⟨hbuf, hbase.trans hsame.current, hio.trans hsame.mirrorIo, hpending.trans hsame.pending,
    hdisk.trans hsame.disk, hrecords.imp_right ?_⟩
  rintro ⟨hshared, hchanged⟩
  exact ⟨h.shared_of_hold (hheld.shared_of_dbufRead hshared), hchanged⟩

theorem syncLeaf {dr : DirtyRecord} (hlast : s.dirty.getLast? = some dr)
    (held : Bool) :
    BufInv (s.syncLeaf dr held) ∧ (s.syncLeaf dr held).records = s.records ∧
    (s.syncLeaf dr held).base = s.base ∧ (s.syncLeaf dr held).pending ∧
    (s.syncLeaf dr held).segs = s.segs ∧ (s.syncLeaf dr held).mirrorIo = s.mirrorIo ∧
    (s.syncLeaf dr held).disk = s.disk := by
  unfold MirrorDb.syncLeaf
  split
  · rename_i hinUse
    have hone := h.only_of_last_shared hlast hinUse.2
    have hrecords : s.records = [s.view dr] := by rw [records, hone, List.map_singleton]
    rw [hone, hrecords]
    refine ⟨⟨?_, ?_, ?_, ?_, ?_⟩, ?_, h.alloc_base, rfl, rfl, rfl, rfl⟩
    · exact fun b hb => Nat.lt_succ_of_lt (h.dbFresh b hb)
    · exact List.forall_mem_singleton.mpr (Nat.lt_succ_self s.nextBuf)
    · exact List.forall_mem_nil _
    · exact fun _ => Option.isSome_of_eq_some hinUse.2
    · exact fun _ _ => .inr ⟨rfl, rfl⟩
    · exact congrArg (fun image => [RecordView.mk dr.txg dr.mirrorIo image]) alloc_bufs_new
  · refine ⟨{ h with newest := fun x hx => ?_ }, rfl, rfl, rfl, rfl, rfl, rfl⟩
    exact (h.newest x hx).imp_right fun hone => ⟨rfl, hone.2⟩

theorem writeDone {dr : DirtyRecord} (hlast : s.dirty.getLast? = some dr) :
    BufInv (s.writeDone dr) ∧ (s.writeDone dr).records = s.records.dropLast ∧
    (s.writeDone dr).base = s.base := by
  refine ⟨⟨h.dbFresh, ?_, ?_, ?_, ?_⟩, ?_, ?_⟩
  · exact fun x hx => h.drFresh x (List.mem_of_mem_dropLast hx)
  · intro x hx
    apply h.alone x
    rw [MirrorDb.writeDone, List.tail_dropLast] at hx
    exact List.mem_of_mem_dropLast hx
  · intro hnil
    apply h.cached
    intro hdirty
    apply hnil
    rw [MirrorDb.writeDone, hdirty, List.dropLast_nil]
  · intro x hx
    rw [MirrorDb.writeDone, List.head?_dropLast] at hx
    split at hx
    · exact (h.newest x hx).imp_right fun hone => absurd hone.2 (by omega)
    · cases hx
  · exact List.map_dropLast ..
  · have hsome := h.cached (List.ne_nil_of_mem (List.mem_of_getLast? hlast))
    obtain ⟨b, hb⟩ := Option.isSome_iff_exists.mp hsome
    rw [base_eq hb]
    exact base_eq hb

end

end BufInv

/- What `dmu_write` can do to the block. -/
inductive WriteOutcome (size : Nat) (s : MirrorDb) (w : BlockWrite) (kept mirrored : Bool)
    (s' : MirrorDb) : Prop
  | whole (filled : Image) (hfilled : filled = s.base ∨ filled = blank) (hlen : w.seg.len = size)
      (hdirtied : Dirtied s w.txg mirrored s' (w.onto filled)) (hsegs : s'.segs = [])
  | merged (hdirtied : Dirtied s w.txg mirrored s' (w.onto s.current)) (hsegs : s'.segs = [])
  | segsFull (filled : Image) (hfilled : filled = s.base ∨ filled = blank)
      (hfull : MirrorDb.checkSegsFull size (s.segs ++ [w]))
      (hdirtied : Dirtied s w.txg mirrored s' (filled.merged (s.segs ++ [w])))
      (hsegs : s'.segs = [])
  | added (hkept : kept) (hopen : ¬ MirrorDb.checkSegsFull size (s.segs ++ [w])) (hbuf : BufInv s')
      (hrecords : s'.records = s.records) (hbase : s'.base = s.base)
      (hsegs : s'.segs = s.segs ++ [w]) (hio : s'.mirrorIo = s.mirrorIo)
      (hpending : s'.pending = s.pending) (hdisk : s'.disk = s.disk)

namespace MirrorDb

theorem filled_cases (s : MirrorDb) : s.filled = s.base ∨ s.filled = blank := by
  cases hb : s.dbBuf with
  | none => exact .inr (by simp [filled, hb])
  | some b => exact .inl (by simp [filled, base, hb])

end MirrorDb

theorem BufInv.rewrite {s : MirrorDb} {txg : Nat} (h : BufInv s) (hwriting : s.NotWriting txg)
    (mirrored : Bool) (copy : Image) :
    Dirtied s txg mirrored (s.hold.fill txg mirrored fun _ => copy) copy ∧
    (s.hold.fill txg mirrored fun _ => copy).segs = [] := by
  obtain ⟨hheld, hview⟩ := h.hold
  obtain ⟨hdirtied, hsegs⟩ :=
    hheld.fill (hwriting.same hview.toSameRest hview.records) mirrored fun _ => copy
  exact ⟨hdirtied.of_view hview, hsegs⟩

theorem BufInv.dmuWrite {s : MirrorDb} {w : BlockWrite} (h : BufInv s) (size : Nat)
    (hwriting : s.NotWriting w.txg) (kept mirrored : Bool) :
    WriteOutcome size s w kept mirrored (s.dmuWrite size w kept mirrored) := by
  obtain ⟨hheld, hview⟩ := h.hold
  have hwriting' := hwriting.same hview.toSameRest hview.records
  have hfilled := s.hold.filled_cases
  rw [hview.base] at hfilled
  unfold MirrorDb.dmuWrite
  split
  · rename_i hlen
    obtain ⟨hdirtied, hsegs⟩ := hheld.fill hwriting' mirrored w.onto
    exact .whole _ hfilled hlen (hdirtied.of_view hview) hsegs
  · split
    · rename_i hkept
      unfold MirrorDb.handleWriteOptimize
      dsimp only
      split
      · rename_i hfull
        have hdirtied := hheld.writeSegs hwriting' mirrored
        rw [hview.segs] at hfull hdirtied ⊢
        exact .segsFull _ hfilled hfull (hdirtied.of_view hview) rfl
      · rename_i hopen
        rw [hview.segs] at hopen
        exact .added hkept hopen hheld.addSeg hview.records hview.base
          (congrArg (· ++ [w]) hview.segs) hview.mirrorIo hview.pending hview.disk
    · obtain ⟨hdirtied, hsegs⟩ := hheld.writePartial hwriting' mirrored
      rw [hview.current] at hdirtied
      exact .merged (hdirtied.of_view hview) hsegs

end ClusterZfs

import ClusterZfs.SegCache.Groups

/-! What a dirty record will write. Only the newest one changes, and only with the dbuf; so its
image stays free of later transaction groups as long as what goes into the dbuf belongs to its own
group. `dbuf_dirty` sees to that, a read does not. -/
namespace ClusterZfs

/- A change of an image that brings in nothing from after this group. -/
def KeepsTo (t : Nat) (f : Image → Image) : Prop :=
  ∀ image : Image, (∀ k, (image k).txg ≤ t) → ∀ k, (f image k).txg ≤ t

section KeepsTo

variable {t : Nat} {w : BlockWrite} {segs : List BlockWrite}

theorem BlockWrite.onto_keepsTo (h : w.txg ≤ t) : KeepsTo t w.onto := by
  intro image himage k
  unfold BlockWrite.onto
  split
  · exact h
  · exact himage k

theorem Image.merged_keepsTo (h : ∀ w ∈ segs, w.txg ≤ t) :
    KeepsTo t fun image => image.merged segs := by
  induction segs with
  | nil => exact fun _ himage => himage
  | cons w segs ih =>
    intro image himage
    apply ih fun v hv => h v (List.mem_cons_of_mem w hv)
    exact BlockWrite.onto_keepsTo (h w List.mem_cons_self) image himage

end KeepsTo

/- `t` is a group that no write so far is newer than. -/
structure ImageInv (t : Nat) (db : MirrorDb) : Prop where
  images : ∀ r ∈ db.records, ∀ k, (r.image k).txg ≤ r.txg
  base : ∀ k, (db.base k).txg ≤ t
  segs : ∀ w ∈ db.segs, w.txg ≤ t

namespace MirrorDb

/- The segments are of no later group than the newest dirty record, if it has the buffer of the
dbuf. -/
def MergesOwn (s : MirrorDb) : Prop :=
  match s.dirty.head? with
  | none => True
  | some dr => s.dbBuf = some dr.data → ∀ w ∈ s.segs, w.txg ≤ dr.txg

instance (s : MirrorDb) : Decidable s.MergesOwn := by
  unfold MergesOwn
  split <;> infer_instance

theorem MergesOwn.of_shared {s : MirrorDb} (h : s.MergesOwn) (hshared : s.Shared) {r : RecordView}
    {rest : List RecordView} (hrecords : s.records = r :: rest) : ∀ w ∈ s.segs, w.txg ≤ r.txg := by
  obtain ⟨dr, hdr, hdata⟩ := hshared
  have hr : r.txg = dr.txg := by
    have hhead : s.records.head? = some (s.view dr) := by
      rw [records, List.head?_map, hdr]
      rfl
    rw [hrecords, List.head?_cons] at hhead
    exact congrArg RecordView.txg (Option.some.inj hhead)
  rw [MergesOwn, hdr] at h
  rw [hr]
  exact h hdata

end MirrorDb

namespace ImageInv

variable {size t : Nat} {db db' : MirrorDb} {w : BlockWrite}

section

variable (h : ImageInv t db)
include h

theorem mono {u : Nat} (htu : t ≤ u) : ImageInv u db where
  images := h.images
  base k := (h.base k).trans htu
  segs w hw := (h.segs w hw).trans htu

theorem current (k : Nat) : (db.current k).txg ≤ t :=
  Image.merged_keepsTo h.segs db.base h.base k

theorem filled {image : Image} (himage : image = db.base ∨ image = blank)
    (k : Nat) : (image k).txg ≤ t := by
  rcases himage with rfl | rfl
  · exact h.base k
  · exact Nat.zero_le t

theorem dirtied {mirrored : Bool} {image : Image}
    (hd : Dirtied db t mirrored db' image) (hsegs : db'.segs = [])
    (himage : ∀ k, (image k).txg ≤ t) : ImageInv t db' := by
  obtain ⟨io, rest, hhead, hrecords⟩ := hd.records
  constructor
  · rw [hrecords]
    exact List.forall_mem_cons.mpr ⟨himage, fun r hr => h.images r (hhead.mem hr)⟩
  · rw [hd.base]
    exact himage
  · rw [hsegs]
    exact List.forall_mem_nil _

end

theorem dmuWrite (h : ImageInv w.txg db) (hbuf : BufInv db) (hwriting : db.NotWriting w.txg)
    (kept mirrored : Bool) : ImageInv w.txg (db.dmuWrite size w kept mirrored) := by
  have hover : KeepsTo w.txg w.onto := BlockWrite.onto_keepsTo le_rfl
  have hsegs : ∀ v ∈ db.segs ++ [w], v.txg ≤ w.txg :=
    List.forall_mem_append.mpr ⟨h.segs, List.forall_mem_singleton.mpr le_rfl⟩
  cases hbuf.dmuWrite size hwriting kept mirrored with
  | whole image hfilled _ hdirtied hnil =>
    exact h.dirtied hdirtied hnil (hover image (h.filled hfilled))
  | merged hdirtied hnil => exact h.dirtied hdirtied hnil (hover db.current h.current)
  | segsFull image hfilled _ hdirtied hnil =>
    exact h.dirtied hdirtied hnil (Image.merged_keepsTo hsegs image (h.filled hfilled))
  | added _ _ _ hrecords hbase hadded =>
    exact ⟨hrecords ▸ h.images, hbase ▸ h.base, hadded ▸ hsegs⟩

theorem read (h : ImageInv t db) (hbuf : BufInv db) (hown : db.MergesOwn) : ImageInv t db.read := by
  obtain ⟨_, hbase, _, _, _, hrecords⟩ := hbuf.read
  refine ⟨?_, ?_, List.forall_mem_nil _⟩
  · rcases hrecords with hsame | ⟨hshared, txg, io, rest, hold, hnew⟩
    · rw [hsame]
      exact h.images
    · have himages := h.images
      rw [hold] at himages
      obtain ⟨hfirst, hrest⟩ := List.forall_mem_cons.mp himages
      rw [hnew]
      refine List.forall_mem_cons.mpr ⟨?_, hrest⟩
      exact Image.merged_keepsTo (hown.of_shared hshared hold) db.base hfirst
  · rw [hbase]
    exact h.current

end ImageInv

namespace MirrorSys

variable {size : Nat} {s s' : MirrorSys}

structure ImagesInv (s : MirrorSys) : Prop where
  groups : s.GroupInv
  block : ImageInv s.level s.db
  copies : ∀ copy ∈ s.copies, ∀ k, (copy k).txg ≤ s.level

/- What every dirty record will write comes from its own group or from before it. -/
def Unaltered (s : MirrorSys) : Prop :=
  ∀ dr ∈ s.db.dirty, ∀ k, (s.db.bufs dr.data k).txg ≤ dr.txg

/- What a read has to meet. -/
def ReadsOwn (s : MirrorSys) (a : MirrorAction) : Prop :=
  match a with
  | .read => s.db.MergesOwn
  | _ => True

instance (s : MirrorSys) (a : MirrorAction) : Decidable (s.ReadsOwn a) := by
  unfold ReadsOwn
  split <;> infer_instance

theorem imagesInv_start : ImagesInv start where
  groups := groupInv_start
  block := ⟨List.forall_mem_nil _, fun _ => Nat.zero_le _, List.forall_mem_nil _⟩
  copies := List.forall_mem_nil _

theorem ImagesInv.step (h : s.ImagesInv) {a : MirrorAction} (hok : s.ReadsOwn a)
    (hstep : s.step size a = some s') : s'.ImagesInv := by
  have hgroups := h.groups.step hstep
  cases a with
  | openNext =>
    obtain ⟨hguard, ⟨⟩⟩ := Option.ite_none_right_eq_some.mp hstep
    have hle := (h.groups.level_openNext hguard.1).1
    exact ⟨hgroups, h.block.mono hle, fun copy hcopy k => (h.copies copy hcopy k).trans hle⟩
  | begin seg mirrored =>
    obtain ⟨_, ⟨⟩⟩ := Option.ite_none_right_eq_some.mp hstep
    obtain ⟨_, hview⟩ := h.groups.block.buf.hold
    refine ⟨hgroups, ?_, List.forall_mem_nil _⟩
    rw [GroupInv.level_begin]
    exact ⟨hview.records ▸ h.block.images, hview.base ▸ h.block.base, hview.segs ▸ h.block.segs⟩
  | write i optimize mirrored =>
    obtain ⟨w, sent, hi, rfl⟩ := write_cases size hstep
    obtain ⟨hw, hrecords⟩ := h.groups.block_at hi
    have hblock := h.block
    rw [← hw] at hblock
    have hnew : ImageInv w.txg (s.db.dmuWrite size w (sent && optimize) mirrored) :=
      hblock.dmuWrite hrecords.buf hrecords.notWriting (sent && optimize) mirrored
    rw [hw] at hnew
    have hle := (h.groups.level_erase i (s.db.dmuWrite size w (sent && optimize) mirrored)).1
    exact ⟨hgroups, hnew.mono hle, fun copy hcopy k => (h.copies copy hcopy k).trans hle⟩
  | read =>
    cases hstep
    have hread := h.block.read h.groups.block.buf hok
    refine ⟨hgroups, hread, ?_⟩
    simp only [MirrorSys.read]
    split
    · exact h.copies
    · exact List.forall_mem_append.mpr ⟨h.copies, List.forall_mem_singleton.mpr hread.base⟩
  | rewrite mirrored =>
    obtain ⟨copy, rest, hcopies, hhand, rfl⟩ := rewrite_cases hstep
    have hlevel : s.level = s.openTxg := by simp only [level, hhand]
    have hblock := h.block
    have hwriting := h.groups.block.notWriting
    have hcopy := h.copies copy (by rw [hcopies]; exact List.mem_cons_self)
    rw [hlevel] at hblock hwriting hcopy
    obtain ⟨hdirtied, hsegs⟩ := h.groups.block.buf.rewrite hwriting mirrored copy
    exact ⟨hgroups, (hblock.dirtied hdirtied hsegs hcopy).mono hlevel.ge, List.forall_mem_nil _⟩
  | syncLeaf held =>
    obtain ⟨dr, hlast, _, rfl⟩ := syncLeaf_cases hstep
    obtain ⟨_, hrecords, hbase, _, hsegs, _⟩ :=
      h.groups.block.buf.syncLeaf hlast (held || !s.hand.isEmpty)
    exact ⟨hgroups, ⟨hrecords ▸ h.block.images, hbase ▸ h.block.base, hsegs ▸ h.block.segs⟩,
      h.copies⟩
  | writeDone mirrored =>
    obtain ⟨dr, hlast, _, rfl⟩ := writeDone_cases hstep
    obtain ⟨_, hrecords, hbase⟩ := h.groups.block.buf.writeDone hlast
    refine ⟨hgroups, ⟨?_, ?_, h.block.segs⟩, h.copies⟩
    · rw [hrecords]
      exact fun r hr => h.block.images r (List.mem_of_mem_dropLast hr)
    · exact hbase ▸ h.block.base
  | poolSyncDone =>
    obtain ⟨_, ⟨⟩⟩ := Option.ite_none_right_eq_some.mp hstep
    exact ⟨hgroups, h.block, h.copies⟩

end MirrorSys

/-- In every run in which a read merges segments into the buffer of a dirty record only if they are
of no later group, no dirty record will write a byte of a later group. -/
theorem images_unaltered {size : Nat} {s : MirrorSys}
    (h : Reach (MirrorSys.step size) MirrorSys.ReadsOwn MirrorSys.start s) : s.Unaltered := by
  have hinv : s.ImagesInv :=
    h.invariant MirrorSys.imagesInv_start
      fun _ _ _ hs hok hstep => hs.step hok hstep
  intro dr hdr
  exact hinv.block.images (s.db.view dr) (List.mem_map_of_mem hdr)

namespace MirrorSys

/- A write of the first of two bytes. -/
def firstByte : Seg := ⟨0, 1, fun _ => 7⟩

end MirrorSys

/-- The block is dirty in group 1, which is closed; a write of group 2 is kept as a segment, and a
read brings it into what group 1 will write. -/
theorem images_unaltered_read :
    ∃ s, Reach (MirrorSys.step 2) (fun _ _ => True) MirrorSys.start s ∧
      ∃ dr ∈ s.db.dirty, dr.txg < s.openTxg ∧ ∃ k, dr.txg < (s.db.bufs dr.data k).txg := by
  obtain ⟨s, hs, hdr⟩ := exists_reach (MirrorSys.step 2) (fun _ _ => True) MirrorSys.start
    [.begin MirrorSys.firstByte false, .write 0 false false, .openNext,
      .begin MirrorSys.firstByte true, .write 0 true true, .read]
    (fun s => ∃ dr ∈ s.db.dirty, dr.txg < s.openTxg ∧ dr.txg < (s.db.bufs dr.data 0).txg)
    (by decide)
  obtain ⟨dr, hmem, hclosed, haltered⟩ := hdr
  exact ⟨s, hs, dr, hmem, hclosed, 0, haltered⟩

/-- The same with a write of group 2 that dirties the block before the read. -/
theorem images_unaltered_dirtied :
    ∃ s, Reach (MirrorSys.step 2) MirrorSys.ReadsOwn MirrorSys.start s ∧
      s.db.dirty.map DirtyRecord.txg = [2, 1] ∧ s.Unaltered := by
  obtain ⟨s, hs, hdirty⟩ := exists_reach (MirrorSys.step 2) MirrorSys.ReadsOwn MirrorSys.start
    [.begin MirrorSys.firstByte false, .write 0 false false, .openNext,
      .begin MirrorSys.firstByte false, .write 0 false false,
      .begin MirrorSys.firstByte true, .write 0 true true, .read]
    (fun s => s.db.dirty.map DirtyRecord.txg = [2, 1]) (by decide)
  exact ⟨s, hs, hdirty, images_unaltered hs⟩

end ClusterZfs

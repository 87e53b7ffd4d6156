import ClusterZfs.SegCache.Sched
import ClusterZfs.SegCache.Segments

/-! What the block holds. Its latest bytes are in the segments over the dbuf, or only in the dbuf
and in a copy that is queued for writing, or they are stored. A copy that is queued must have the
latest bytes, since it is written without looking; so it must not outlive a write or free of the
block. -/
namespace ClusterZfs

/- Two contents of a block of `n` bytes. -/
def Agree (n : Nat) (c c' : Content) : Prop := ∀ k < n, c k = c' k

theorem Agree.refl (n : Nat) (c : Content) : Agree n c c := fun _ _ => rfl

theorem Agree.trans {n : Nat} {c c' c'' : Content} (h : Agree n c c') (h' : Agree n c' c'') :
    Agree n c c'' := fun k hk => (h k hk).trans (h' k hk)

section Writes

variable {n : Nat} {c c' : Content} {seg : Seg} {segs : List Seg}

theorem Agree.apply (h : Agree n c c') (seg : Seg) :
    Agree n (seg.write.apply c) (seg.write.apply c') :=
  fun k hk => Overlay.applyAll_congr [seg.write] (h k hk)

theorem Seg.write_of_covers {k : Nat} (h : seg.Covers k) : seg.write k ≠ none := by
  have hsome : seg.write k = some (seg.data (k - seg.roffset)) := if_pos h
  rw [hsome]
  exact Option.some_ne_none _

theorem agree_of_covered (h : ∀ k < n, ∃ seg ∈ segs, seg.Covers k) :
    Agree n (Overlay.applyAll (segs.map Seg.write) c)
      (Overlay.applyAll (segs.map Seg.write) c') := by
  intro k hk
  obtain ⟨seg, hseg, hcovers⟩ := h k hk
  exact Overlay.applyAll_of_covered
    ⟨seg.write, List.mem_map_of_mem hseg, Seg.write_of_covers hcovers⟩ c c'

theorem agree_of_whole (hlen : seg.len = n) (hfits : seg.roffset + seg.len ≤ n) :
    Agree n (seg.write.apply c) (seg.write.apply c') := by
  intro k hk
  have hcovers : seg.Covers k := ⟨by omega, by omega⟩
  exact Overlay.applyAll_of_covered
    ⟨seg.write, List.mem_singleton.mpr rfl, Seg.write_of_covers hcovers⟩ c c'

end Writes

namespace SegDbuf

variable (d : SegDbuf)

/- What the block holds without its segments, and with them. -/
def base : Content := d.data.getD d.stored

def current : Content := Overlay.applyAll (d.segments.map Seg.write) d.base

end SegDbuf

/- The dbuf of a block whose content should be `truth`. -/
structure DbufInv (n : Nat) (truth : Content) (d : SegDbuf) : Prop where
  flag : d.hasSegments = true ↔ d.segments ≠ []
  order : d.segmentsOrder ⊆ d.segments
  fits : ∀ seg ∈ d.segments, seg.roffset + seg.len ≤ n
  current : Agree n d.current truth

theorem DbufInv.segments_nil {n : Nat} {truth : Content} {d : SegDbuf} (h : DbufInv n truth d)
    (hflag : d.hasSegments ≠ true) :
    d.segments = [] ∧ d.segmentsOrder = [] := by
  have hnil : d.segments = [] := by
    by_contra hne
    exact hflag (h.flag.mpr hne)
  have horder := h.order
  rw [hnil] at horder
  exact ⟨hnil, List.subset_nil.mp horder⟩

theorem DbufInv.added {n : Nat} {truth : Content} {d d' : SegDbuf} {seg : Seg}
    (h : DbufInv n truth d) (hfits : seg.roffset + seg.len ≤ n) (hflag : d'.hasSegments = true)
    (hsegs : d'.segments = d.segments ++ [seg])
    (horder : d'.segmentsOrder = segInsertBySort seg d.segmentsOrder) (hbase : d'.base = d.base) :
    DbufInv n (seg.write.apply truth) d' := by
  constructor
  · simp [hflag, hsegs]
  · rw [horder, hsegs]
    intro x hx
    cases List.mem_cons.mp ((segInsertBySort_perm seg d.segmentsOrder).mem_iff.mp hx) with
    | inl heq => exact List.mem_append_right _ (heq ▸ List.mem_cons_self)
    | inr hmem => exact List.mem_append_left _ (h.order hmem)
  · rw [hsegs]
    exact List.forall_mem_append.mpr ⟨h.fits, List.forall_mem_singleton.mpr hfits⟩
  · rw [SegDbuf.current, hsegs, hbase, List.map_append, Overlay.applyAll_append]
    exact h.current.apply seg

namespace SegCache

variable {size : Nat → UInt64} {s s' : SegCache} {b n : Nat} {truth : Content}

/- The worker has a copy of the block in hand that it failed to write. -/
def FailedFor (s : SegCache) (b : Nat) : Prop :=
  ∃ c, s.rewrites.taken = some (c, .failed) ∧ (s.copies c).db = b

structure BlockInv (n : Nat) (truth : Content) (s : SegCache) (b : Nat) : Prop where
  dbuf : DbufInv n truth (s.dbs b)
  linked : ∀ c ∈ (s.dbs b).segList, (s.dbs b).segments = [] ∧ Agree n (s.copies c).data truth
  failed : ∀ c, s.rewrites.taken = some (c, .failed) → (s.copies c).db = b →
    (s.dbs b).segments = [] ∧ Agree n (s.copies c).data truth
  kept : Agree n (s.dbs b).stored truth ∨ (s.dbs b).segments ≠ [] ∨ (s.dbs b).segList ≠ [] ∨
    s.FailedFor b

/- An operation on one block. -/
structure Local (b : Nat) (s s' : SegCache) : Prop where
  others : ∀ x, x ≠ b → s'.dbs x = s.dbs x
  taken : s'.rewrites.taken = s.rewrites.taken
  nextCopy : s.nextCopy ≤ s'.nextCopy
  copies : ∀ c, c < s.nextCopy → s'.copies c = s.copies c

theorem Local.refl (s : SegCache) : Local b s s := ⟨fun _ _ => rfl, rfl, le_rfl, fun _ _ => rfl⟩

theorem Local.trans {s'' : SegCache} (h : Local b s s') (h' : Local b s' s'') : Local b s s'' where
  others x hx := (h'.others x hx).trans (h.others x hx)
  taken := h'.taken.trans h.taken
  nextCopy := h.nextCopy.trans h'.nextCopy
  copies c hc := (h'.copies c (hc.trans_le h.nextCopy)).trans (h.copies c hc)

theorem Local.failed_iff (h : Local b s s') (hd : s.DataInv size) (c x : Nat) :
    s'.rewrites.taken = some (c, .failed) ∧ (s'.copies c).db = x ↔
      s.rewrites.taken = some (c, .failed) ∧ (s.copies c).db = x := by
  rw [h.taken]
  exact and_congr_right fun hc => by rw [h.copies c (hd.fresh c (hd.hand c _ hc).1)]

theorem Local.failedFor (h : Local b s s') (hd : s.DataInv size) (x : Nat) :
    s'.FailedFor x ↔ s.FailedFor x :=
  exists_congr fun c => h.failed_iff hd c x

theorem BlockInv.congr {x : Nat} (h : BlockInv n truth s x) (hdb : s'.dbs x = s.dbs x)
    (hlinked : ∀ c ∈ (s.dbs x).segList, s'.copies c = s.copies c)
    (hfailed : ∀ c, s'.rewrites.taken = some (c, .failed) ∧ (s'.copies c).db = x ↔
      s.rewrites.taken = some (c, .failed) ∧ (s.copies c).db = x)
    (hcopy : ∀ c, s.rewrites.taken = some (c, .failed) → s'.copies c = s.copies c) :
    BlockInv n truth s' x := by
  constructor
  · rw [hdb]
    exact h.dbuf
  · rw [hdb]
    intro c hc
    rw [hlinked c hc]
    exact h.linked c hc
  · rw [hdb]
    intro c hc hdbc
    obtain ⟨hc', hdbc'⟩ := (hfailed c).mp ⟨hc, hdbc⟩
    rw [hcopy c hc']
    exact h.failed c hc' hdbc'
  · rw [hdb]
    refine h.kept.imp_right (Or.imp_right (Or.imp_right ?_))
    rintro ⟨c, hc⟩
    exact ⟨c, (hfailed c).mpr hc⟩

theorem BlockInv.frame {x : Nat} (h : BlockInv n truth s x) (hd : s.DataInv size)
    (hl : Local b s s') (hx : x ≠ b) : BlockInv n truth s' x := by
  apply h.congr (hl.others x hx) _ (hl.failed_iff hd · x)
  · exact fun c hc => hl.copies c (hd.fresh c (hd.hand c _ hc).1)
  · exact fun c hc => hl.copies c (hd.fresh c (hd.linked x c hc).2)

theorem BlockInv.of_agree {truth' : Content} (h : BlockInv n truth s b)
    (hagree : Agree n truth truth') : BlockInv n truth' s b where
  dbuf := { h.dbuf with current := h.dbuf.current.trans hagree }
  linked c hc := ⟨(h.linked c hc).1, (h.linked c hc).2.trans hagree⟩
  failed c hc hdb := ⟨(h.failed c hc hdb).1, (h.failed c hc hdb).2.trans hagree⟩
  kept := h.kept.imp_left fun hstored => hstored.trans hagree

section Dbuf

variable {d : SegDbuf} {seg : Seg} {txg : Nat} {junk content : Content} (bWrite : Bool)

theorem local_setDb {d : SegDbuf} : Local b s (s.setDb b d) :=
  ⟨fun _ hx => setDb_dbs_of_ne _ _ hx _, rfl, le_rfl, fun _ _ => rfl⟩

theorem local_handleSegs : Local b s (s.handleSegs size b bWrite) :=
  ⟨fun _ hx => setDb_dbs_of_ne _ _ hx _, rfl, le_rfl, fun _ _ => rfl⟩

theorem local_handleSegsIf : Local b s (s.handleSegsIf size b bWrite) := by
  unfold handleSegsIf
  split
  · exact local_handleSegs bWrite
  · exact .refl s

theorem local_handleSeg : Local b s (s.handleSeg size b seg txg).1 :=
  ⟨fun _ hx => setDb_dbs_of_ne _ _ hx _, rfl, le_rfl, fun _ _ => rfl⟩

theorem local_dropCopy (size : Nat → UInt64) (s : SegCache) (b c : Nat) :
    Local b s (s.dropCopy size b c) ∧
    (s.dropCopy size b c).dbs b = { s.dbs b with segList := (s.dbs b).segList.erase c } := by
  unfold dropCopy
  split
  · exact ⟨⟨fun _ hx => setDb_dbs_of_ne _ _ hx _, rfl, le_rfl, fun _ _ => rfl⟩, setDb_dbs_self ..⟩
  · exact ⟨local_setDb, setDb_dbs_self ..⟩

theorem local_removeSegCache (size : Nat → UInt64) (s : SegCache) (b : Nat) :
    Local b s (s.removeSegCache size b) ∧
    (s.removeSegCache size b).dbs b = { s.dbs b with segList := [] } := by
  have hloop : ∀ (cs : List Nat) (s : SegCache), (s.dbs b).segList = cs →
      Local b s (cs.foldl (fun s c => s.dropCopy size b c) s) ∧
      (cs.foldl (fun s c => s.dropCopy size b c) s).dbs b = { s.dbs b with segList := [] } := by
    intro cs
    induction cs with
    | nil =>
      intro s hs
      refine ⟨.refl s, ?_⟩
      calc s.dbs b = { s.dbs b with segList := (s.dbs b).segList } := rfl
        _ = { s.dbs b with segList := [] } := by rw [hs]
    | cons c cs ih =>
      intro s hs
      obtain ⟨hlocal, hdb⟩ := local_dropCopy size s b c
      obtain ⟨hrest, hdb'⟩ := ih (s.dropCopy size b c) (by rw [hdb, hs, List.erase_cons_head])
      refine ⟨hlocal.trans hrest, ?_⟩
      rw [List.foldl_cons, hdb', hdb]
  exact hloop _ s rfl

@[simp] theorem load_db :
    (s.load b content).dbs b = { s.dbs b with data := some ((s.dbs b).data.getD content) } :=
  setDb_dbs_self ..

@[simp] theorem dirtied_db : (s.dirtied b).dbs b =
    { s.dbs b with stored := (s.dbs b).data.getD (s.dbs b).stored, dirty := true } :=
  setDb_dbs_self ..

@[simp] theorem bcopy_db : (s.bcopy b seg).dbs b =
    { s.dbs b with data := (s.dbs b).data.map seg.write.apply } :=
  setDb_dbs_self ..

@[simp] theorem handleSegs_db : (s.handleSegs size b bWrite).dbs b =
    { s.dbs b with
      data := if bWrite then
        (s.dbs b).data.map (Overlay.applyAll ((s.dbs b).segments.map Seg.write)) else (s.dbs b).data
      hasSegments := false
      firstSegmentTxg := 0
      segsLen := 0
      segments := []
      segmentsOrder := [] } :=
  setDb_dbs_self ..

@[simp] theorem handleSeg_db : (s.handleSeg size b seg txg).1.dbs b =
    { s.dbs b with
      hasSegments := true
      firstSegmentTxg := if (s.dbs b).hasSegments then (s.dbs b).firstSegmentTxg else txg
      segsLen := (s.dbs b).segsLen + seg.len
      segments := (s.dbs b).segments ++ [seg]
      segmentsOrder := segInsertBySort seg (s.dbs b).segmentsOrder } :=
  setDb_dbs_self ..

/- A dbuf without segments and copies. -/
structure Bare (d : SegDbuf) : Prop where
  flag : d.hasSegments = false
  segments : d.segments = []
  order : d.segmentsOrder = []
  segList : d.segList = []

/- Its content is stored. -/
structure Clean (d : SegDbuf) (content : Content) : Prop extends Bare d where
  data : d.data = some content
  stored : d.stored = content

theorem Bare.blockInv (h : Bare (s.dbs b)) (hstored : Agree n (s.dbs b).stored truth)
    (hbase : Agree n (s.dbs b).base truth) (hfailed : ¬ s.FailedFor b) : BlockInv n truth s b := by
  refine ⟨⟨?_, ?_, ?_, ?_⟩, ?_, fun c hc hdb => absurd ⟨c, hc, hdb⟩ hfailed, .inl hstored⟩
  · simp [h.flag, h.segments]
  · simp [h.order]
  · simp [h.segments]
  · rw [SegDbuf.current, h.segments]
    exact hbase
  · simp [h.segList]

theorem Clean.blockInv (h : Clean (s.dbs b) content) (hagree : Agree n content truth)
    (hfailed : ¬ s.FailedFor b) : BlockInv n truth s b := by
  apply h.toBare.blockInv _ _ hfailed
  · rw [h.stored]
    exact hagree
  · rw [SegDbuf.base, h.data]
    exact hagree

/- Only what the segments are put over is new, and it is as good. -/
theorem BlockInv.setDb (h : BlockInv n truth s b) {d : SegDbuf}
    (hd : d = { s.dbs b with data := d.data, dirty := d.dirty }) (hbase : d.base = (s.dbs b).base) :
    BlockInv n truth (s.setDb b d) b := by
  have hcurrent : d.current = (s.dbs b).current := by
    rw [SegDbuf.current, hbase, hd]
    rfl
  refine ⟨?_, ?_, ?_, ?_⟩ <;> rw [setDb_dbs_self]
  · refine ⟨?_, ?_, ?_, hcurrent ▸ h.dbuf.current⟩ <;> rw [hd]
    exacts [h.dbuf.flag, h.dbuf.order, h.dbuf.fits]
  all_goals rw [hd]
  exacts [h.linked, h.failed, h.kept]

/- `dbuf_handle_segs` on a block in memory: the segments are in it, or dropped. -/
theorem handleSegsIf_db (size : Nat → UInt64) (hdata : (s.dbs b).data = some content)
    (hnone : (s.dbs b).hasSegments ≠ true →
      (s.dbs b).segments = [] ∧ (s.dbs b).segmentsOrder = []) (bWrite : Bool) :
    ((s.handleSegsIf size b bWrite).dbs b).data =
      some (if bWrite then (s.dbs b).current else content) ∧
    ((s.handleSegsIf size b bWrite).dbs b).hasSegments = false ∧
    ((s.handleSegsIf size b bWrite).dbs b).segments = [] ∧
    ((s.handleSegsIf size b bWrite).dbs b).segmentsOrder = [] ∧
    ((s.handleSegsIf size b bWrite).dbs b).segList = (s.dbs b).segList := by
  unfold handleSegsIf
  split
  · cases bWrite with
    | true => simp [SegDbuf.current, SegDbuf.base, hdata]
    | false => simp [hdata]
  · rename_i hflag
    obtain ⟨hnil, horder⟩ := hnone hflag
    simp [SegDbuf.current, SegDbuf.base, hdata, hnil, horder, hflag]

theorem local_handleWriteOptimize :
    Local b s (s.handleWriteOptimize size b seg txg junk) := by
  unfold handleWriteOptimize
  dsimp only
  split
  · exact local_handleSeg.trans ((local_setDb.trans (local_handleSegs true)).trans local_setDb)
  · exact local_handleSeg

theorem local_dmuWrite (kept : Bool) : Local b s (s.dmuWrite size b seg kept txg junk) := by
  have hremove := (local_removeSegCache size s b).1
  unfold dmuWrite
  split
  · exact hremove.trans
      (((local_setDb.trans (local_handleSegsIf false)).trans local_setDb).trans local_setDb)
  · split
    · exact hremove.trans local_handleWriteOptimize
    · exact hremove.trans
        (((local_setDb.trans (local_handleSegsIf true)).trans local_setDb).trans local_setDb)

/- The block in memory is filled, and what is in it goes to the dirty record. -/
theorem clean_of_bcopy (hdata : (s.dbs b).data = some content) (h : Bare (s.dbs b)) :
    Clean (((s.bcopy b seg).dirtied b).dbs b) (seg.write.apply content) := by
  refine ⟨⟨?_, ?_, ?_, ?_⟩, ?_, ?_⟩
  all_goals simp [hdata, h.flag, h.segments, h.order, h.segList]

theorem clean_whole (h : DbufInv n truth (s.dbs b)) (hlist : (s.dbs b).segList = []) :
    Clean (((((s.dbufNoread b junk).handleSegsIf size b false).bcopy b seg).dirtied b).dbs b)
      (seg.write.apply ((s.dbs b).data.getD junk)) := by
  have hdb : (s.dbufNoread b junk).dbs b =
      { s.dbs b with data := some ((s.dbs b).data.getD junk) } := load_db
  obtain ⟨hdata, hflag, hsegs, horder, hsame⟩ := handleSegsIf_db size
    (congrArg SegDbuf.data hdb) (by rw [hdb]; exact h.segments_nil) false
  exact clean_of_bcopy hdata ⟨hflag, hsegs, horder, by rw [hsame, hdb, hlist]⟩

theorem clean_merged (h : DbufInv n truth (s.dbs b)) (hlist : (s.dbs b).segList = []) :
    Clean (((((s.dbufRead b).handleSegsIf size b true).bcopy b seg).dirtied b).dbs b)
      (seg.write.apply (s.dbs b).current) := by
  have hdb : (s.dbufRead b).dbs b = { s.dbs b with data := some (s.dbs b).base } := load_db
  obtain ⟨hdata, hflag, hsegs, horder, hsame⟩ := handleSegsIf_db size
    (congrArg SegDbuf.data hdb) (by rw [hdb]; exact h.segments_nil) true
  have hcurrent : ((s.dbufRead b).dbs b).current = (s.dbs b).current := by
    rw [hdb]
    rfl
  rw [if_pos rfl, hcurrent] at hdata
  exact clean_of_bcopy hdata ⟨hflag, hsegs, horder, by rw [hsame, hdb, hlist]⟩

theorem clean_filled (hlist : (s.dbs b).segList = []) :
    Clean ((((s.dbufNoread b junk).handleSegs size b true).dirtied b).dbs b)
      (Overlay.applyAll ((s.dbs b).segments.map Seg.write) ((s.dbs b).data.getD junk)) := by
  refine ⟨⟨?_, ?_, ?_, ?_⟩, ?_, ?_⟩
  all_goals simp [dbufNoread, hlist]

end Dbuf

section Operations

variable {seg : Seg} {txg : Nat} {junk : Content} {kept : Bool} (older : Bool)

theorem BlockInv.handleWriteOptimize (h : DbufInv n truth (s.dbs b)) (hn : (size b).toNat = n)
    (hlist : (s.dbs b).segList = []) (hfits : seg.roffset + seg.len ≤ n)
    (hfailed : ¬ (s.handleWriteOptimize size b seg txg junk).FailedFor b) :
    BlockInv n (seg.write.apply truth) (s.handleWriteOptimize size b seg txg junk) b := by
  have hdb : (s.handleSeg size b seg txg).1.dbs b = _ := handleSeg_db
  have hadded : DbufInv n (seg.write.apply truth) ((s.handleSeg size b seg txg).1.dbs b) := by
    rw [hdb]
    exact h.added hfits rfl rfl rfl rfl
  have hlist' : ((s.handleSeg size b seg txg).1.dbs b).segList = [] := by rw [hdb, hlist]
  unfold SegCache.handleWriteOptimize at hfailed ⊢
  dsimp only at hfailed ⊢
  split
  · rename_i hfull
    rw [if_pos hfull] at hfailed
    refine (clean_filled hlist').blockInv ?_ hfailed
    refine Agree.trans (agree_of_covered ?_) hadded.current
    intro k hk
    have hfits' : ∀ x ∈ segInsertBySort seg (s.dbs b).segmentsOrder, x.roffset + x.len ≤ n := by
      intro x hx
      apply hadded.fits x
      apply hadded.order
      rw [hdb]
      exact hx
    obtain ⟨x, hx, hcovers⟩ := covers_of_segsTotal hfits' ((of_decide_eq_true hfull).trans hn) hk
    refine ⟨x, hadded.order ?_, hcovers⟩
    rw [hdb]
    exact hx
  · rename_i hopen
    rw [if_neg hopen] at hfailed
    refine ⟨hadded, ?_, ?_, .inr (.inl ?_)⟩
    · rw [hlist']
      exact List.forall_mem_nil _
    · exact fun c hc hdbc => absurd ⟨c, hc, hdbc⟩ hfailed
    · rw [hdb]
      exact List.append_ne_nil_of_right_ne_nil _ (List.cons_ne_nil seg [])

theorem BlockInv.dmuWrite (h : DbufInv n truth (s.dbs b)) (hd : s.DataInv size)
    (hn : (size b).toNat = n) (hfits : seg.roffset + seg.len ≤ n) (hfailed : ¬ s.FailedFor b) :
    BlockInv n (seg.write.apply truth) (s.dmuWrite size b seg kept txg junk) b := by
  have hfailed' : ¬ (s.dmuWrite size b seg kept txg junk).FailedFor b :=
    fun hf => hfailed (((local_dmuWrite kept).failedFor hd b).mp hf)
  obtain ⟨_, hdb⟩ := local_removeSegCache size s b
  have hdbuf : DbufInv n truth ((s.removeSegCache size b).dbs b) := by
    rw [hdb]
    exact { h with }
  have hlist : ((s.removeSegCache size b).dbs b).segList = [] := by rw [hdb]
  unfold SegCache.dmuWrite at hfailed' ⊢
  split
  · rename_i hlen
    rw [if_pos hlen] at hfailed'
    exact (clean_whole hdbuf hlist).blockInv (agree_of_whole (hlen.trans hn) hfits) hfailed'
  · rename_i hlen
    rw [if_neg hlen] at hfailed'
    split
    · rename_i hkept
      rw [if_pos hkept] at hfailed'
      exact BlockInv.handleWriteOptimize hdbuf hn hlist hfits hfailed'
    · rename_i hkept
      rw [if_neg hkept] at hfailed'
      exact (clean_merged hdbuf hlist).blockInv (hdbuf.current.apply seg) hfailed'

theorem local_dataReload : Local b s (s.dataReload size b) where
  others _ hx := setDb_dbs_of_ne _ _ hx _
  taken := rfl
  nextCopy := Nat.le_succ _
  copies _ hc := Function.update_of_ne (Nat.ne_of_lt hc) ..

theorem local_read : Local b s (s.read size b) := by
  unfold SegCache.read
  dsimp only
  split
  · exact (local_setDb.trans (local_handleSegs true)).trans local_dataReload
  · exact local_setDb

theorem dbufRead_db : (s.dbufRead b).dbs b = { s.dbs b with data := some (s.dbs b).base } := load_db

@[simp] theorem dataReload_db : (s.dataReload size b).dbs b =
    { s.dbs b with segList := (s.dbs b).segList ++ [s.nextCopy] } :=
  setDb_dbs_self ..

@[simp] theorem dataReload_copy :
    (s.dataReload size b).copies s.nextCopy = ⟨b, (s.dbs b).base⟩ :=
  Function.update_self ..

/- The segments are in the dbuf, and a copy of the block is queued. -/
theorem read_segments (size : Nat → UInt64) (hflag : (s.dbs b).hasSegments = true) :
    (s.read size b).dbs b =
      { s.dbs b with
        data := some (s.dbs b).current
        hasSegments := false
        firstSegmentTxg := 0
        segsLen := 0
        segments := []
        segmentsOrder := []
        segList := (s.dbs b).segList ++ [s.nextCopy] } ∧
    (s.read size b).copies s.nextCopy = ⟨b, (s.dbs b).current⟩ := by
  have hflag' : ((s.dbufRead b).dbs b).hasSegments = true := by rw [dbufRead_db, hflag]
  have hread : s.read size b = ((s.dbufRead b).handleSegs size b true).dataReload size b := by
    unfold SegCache.read
    rw [if_pos hflag']
  have hdb : ((s.dbufRead b).handleSegs size b true).dbs b =
      { s.dbs b with
        data := some (s.dbs b).current
        hasSegments := false
        firstSegmentTxg := 0
        segsLen := 0
        segments := []
        segmentsOrder := [] } := by
    rw [handleSegs_db, dbufRead_db]
    rfl
  rw [hread]
  constructor
  · rw [dataReload_db, hdb]
    rfl
  · exact dataReload_copy.trans (by rw [hdb]; rfl)

theorem read_plain (hflag : (s.dbs b).hasSegments ≠ true) : s.read size b = s.dbufRead b := by
  have hflag' : ((s.dbufRead b).dbs b).hasSegments ≠ true := by rwa [dbufRead_db]
  unfold SegCache.read
  rw [if_neg hflag']

theorem BlockInv.read_data (h : BlockInv n truth s b) :
    ∃ content, ((s.read size b).dbs b).data = some content ∧ Agree n content truth := by
  by_cases hflag : (s.dbs b).hasSegments = true
  · rw [(read_segments size hflag).1]
    exact ⟨_, rfl, h.dbuf.current⟩
  · have hcurrent := h.dbuf.current
    rw [SegDbuf.current, (h.dbuf.segments_nil hflag).1] at hcurrent
    rw [read_plain hflag, dbufRead_db]
    exact ⟨_, rfl, hcurrent⟩

theorem BlockInv.read (h : BlockInv n truth s b) (hd : s.DataInv size) :
    BlockInv n truth (s.read size b) b := by
  by_cases hflag : (s.dbs b).hasSegments = true
  · obtain ⟨hdb, hcopy⟩ := read_segments size hflag
    have hsegs := h.dbuf.flag.mp hflag
    -- a block with segments has no copies
    have hlist : (s.dbs b).segList = [] := by
      apply List.eq_nil_iff_forall_not_mem.mpr
      exact fun c hc => hsegs (h.linked c hc).1
    have hfailed : ¬ (s.read size b).FailedFor b := by
      intro hf
      obtain ⟨c, hc, hdbc⟩ := (local_read.failedFor hd b).mp hf
      exact hsegs (h.failed c hc hdbc).1
    refine ⟨?_, ?_, ?_, .inr (.inr (.inl ?_))⟩
    · rw [hdb]
      exact ⟨by simp, List.nil_subset _, List.forall_mem_nil _, h.dbuf.current⟩
    · rw [hdb, hlist]
      refine List.forall_mem_singleton.mpr ⟨rfl, ?_⟩
      rw [hcopy]
      exact h.dbuf.current
    · exact fun c hc hdbc => absurd ⟨c, hc, hdbc⟩ hfailed
    · rw [hdb]
      exact List.append_ne_nil_of_right_ne_nil _ (List.cons_ne_nil s.nextCopy [])
  · rw [read_plain hflag]
    exact h.setDb rfl rfl

theorem Bare.zeros (h : Bare (s.dbs b)) (hstored : (s.dbs b).stored = fun _ => 0)
    (hdata : (s.dbs b).data = none ∨ (s.dbs b).data = some fun _ => 0) (hfailed : ¬ s.FailedFor b) :
    BlockInv n (fun _ => 0) s b := by
  have hbase : (s.dbs b).base = fun _ => 0 := by
    rcases hdata with hnone | hsome
    · rw [SegDbuf.base, hnone, hstored, Option.getD_none]
    · rw [SegDbuf.base, hsome, Option.getD_some]
  exact h.blockInv (hstored ▸ Agree.refl n _) (hbase ▸ Agree.refl n _) hfailed

@[simp] theorem freeStored_db : (s.freeStored b).dbs b = { s.dbs b with stored := fun _ => 0 } :=
  setDb_dbs_self ..

@[simp] theorem undirty_db : (s.undirty b older).dbs b =
    { s.dbs b with dirty := (s.dbs b).dirty && older } :=
  setDb_dbs_self ..

@[simp] theorem clearData_db : (s.clearData b).dbs b =
    { s.dbs b with data := if s.held b then (s.dbs b).data.map fun _ => fun _ => 0 else none } :=
  setDb_dbs_self ..

theorem cleared_data (held : Bool) (data : Option Content) :
    (if held then data.map fun _ => fun _ => 0 else none : Option Content) = none ∨
    (if held then data.map fun _ => fun _ => 0 else none : Option Content) = some fun _ => 0 := by
  cases held <;> cases data <;> simp

/- What a free has to meet: no copy of the block is queued or in hand, and if the segments have the
only holds on the dbuf, the block is not in memory. -/
def Freeable (s : SegCache) (b : Nat) : Prop :=
  ¬ s.FailedFor b ∧ (s.dbs b).segList = [] ∧
    ((s.dbs b).hasSegments = true → s.held b = true ∨ (s.dbs b).data = none)

theorem local_freeRange : Local b s (s.freeRange size b older) := by
  unfold freeRange
  split
  · dsimp only
    split
    · exact ((local_handleSegs false).trans local_setDb).trans local_setDb
    · exact local_handleSegs false
  · exact local_setDb.trans local_setDb

theorem BlockInv.freeRange (h : DbufInv n truth (s.dbs b)) (hlist : (s.dbs b).segList = [])
    (hstored : (s.dbs b).stored = fun _ => 0)
    (hheld : (s.dbs b).hasSegments = true → s.held b = true ∨ (s.dbs b).data = none) (older : Bool)
    (hfailed : ¬ (s.freeRange size b older).FailedFor b) :
    BlockInv n (fun _ => 0) (s.freeRange size b older) b := by
  unfold SegCache.freeRange at hfailed ⊢
  split
  · rename_i hflag
    rw [if_pos hflag] at hfailed
    dsimp only at hfailed ⊢
    split
    · rename_i hin
      rw [if_pos hin] at hfailed
      refine Bare.zeros ⟨by simp, by simp, by simp, by simp [hlist]⟩ (by simp [hstored]) ?_ hfailed
      rw [clearData_db]
      exact cleared_data ..
    · rename_i hin
      rw [if_neg hin] at hfailed
      have hsame : (s.handleSegs size b false).held b = s.held b := by
        rw [SegCache.held, handleSegs_db]
        rfl
      have hnone : (s.dbs b).data = none := by
        rw [hsame] at hin
        exact (hheld hflag).resolve_left hin
      exact Bare.zeros ⟨by simp, by simp, by simp, by simp [hlist]⟩ (by simp [hstored])
        (by simp [hnone]) hfailed
  · rename_i hflag
    rw [if_neg hflag] at hfailed
    obtain ⟨hnil, horder⟩ := h.segments_nil hflag
    refine Bare.zeros ⟨by simpa using hflag, by simp [hnil], by simp [horder], by simp [hlist]⟩
      (by simp [hstored]) ?_ hfailed
    rw [clearData_db]
    exact cleared_data ..

theorem local_free : Local b s (s.free size b older) :=
  local_setDb.trans (local_freeRange older)

theorem BlockInv.free (h : BlockInv n truth s b) (hd : s.DataInv size) (hfree : s.Freeable b)
    (older : Bool) : BlockInv n (fun _ => 0) (s.free size b older) b := by
  obtain ⟨hfailed, hlist, hheld⟩ := hfree
  have hdbuf : ∃ truth', DbufInv n truth' ((s.freeStored b).dbs b) := by
    refine ⟨((s.freeStored b).dbs b).current, ?_, ?_, ?_, Agree.refl n _⟩
    · simpa using h.dbuf.flag
    · simpa using h.dbuf.order
    · simpa using h.dbuf.fits
  obtain ⟨truth', hdbuf⟩ := hdbuf
  have hsame : (s.freeStored b).held b = s.held b := by
    rw [SegCache.held, freeStored_db]
    rfl
  apply BlockInv.freeRange hdbuf
  · simpa using hlist
  · simp
  · rw [hsame]
    simpa using hheld
  · exact fun hf => hfailed (((local_free older).failedFor hd b).mp hf)

theorem BlockInv.evict (h : BlockInv n truth s b) (hd : s.DataInv size)
    (hflag : ¬ (s.dbs b).hasSegments = true) (hheld : ¬ s.held b = true) :
    BlockInv n truth (s.setDb b { s.dbs b with data := none }) b := by
  have hlive : ∀ c ∈ s.live, (s.copies c).db ≠ b := by
    intro c hc hdb
    apply hheld
    rw [SegCache.held, Bool.or_eq_true]
    exact .inr (List.any_eq_true.mpr ⟨c, hc, beq_iff_eq.mpr hdb⟩)
  obtain ⟨hnil, horder⟩ := h.dbuf.segments_nil hflag
  have hlist : (s.dbs b).segList = [] := by
    apply List.eq_nil_iff_forall_not_mem.mpr
    exact fun c hc => hlive c (hd.linked b c hc).2 (hd.linked b c hc).1
  have hfailed : ¬ s.FailedFor b := by
    rintro ⟨c, hc, hdb⟩
    exact hlive c (hd.hand c _ hc).1 hdb
  have hstored : Agree n (s.dbs b).stored truth := by
    refine h.kept.resolve_right ?_
    rintro (hne | hne | hf)
    · exact hne hnil
    · exact hne hlist
    · exact hfailed hf
  have hbare : Bare (s.dbs b) := ⟨Bool.eq_false_iff.mpr hflag, hnil, horder, hlist⟩
  refine Bare.blockInv ?_ ?_ ?_ (fun hf => hfailed hf) <;> rw [setDb_dbs_self]
  · exact { hbare with }
  · exact hstored
  · exact hstored

/- The worker gets on without a failed copy in hand before or after. -/
theorem BlockInv.hand {x : Nat} (h : BlockInv n truth s x) (hdbs : s'.dbs = s.dbs)
    (hcopies : s'.copies = s.copies) (hbefore : ∀ c, s.rewrites.taken ≠ some (c, .failed))
    (hafter : ∀ c, s'.rewrites.taken ≠ some (c, .failed)) : BlockInv n truth s' x := by
  apply h.congr (by rw [hdbs])
  · exact fun c _ => by rw [hcopies]
  · exact fun c => ⟨fun hc => absurd hc.1 (hafter c), fun hc => absurd hc.1 (hbefore c)⟩
  · exact fun c hc => absurd hc (hbefore c)

theorem BlockInv.setPhase_other {c x : Nat} {phase phase' : Phase} {d : SegDbuf}
    (h : BlockInv n truth s x) (htaken : s.rewrites.taken = some (c, phase))
    (hx : x ≠ (s.copies c).db) :
    BlockInv n truth ((s.setDb (s.copies c).db d).setPhase c phase') x := by
  refine h.congr ?_ ?_ ?_ ?_
  · exact setDb_dbs_of_ne _ _ hx _
  · exact fun _ _ => rfl
  · intro y
    constructor
    · rintro ⟨hy, hdby⟩
      cases hy
      exact absurd hdby.symm hx
    · rintro ⟨hy, hdby⟩
      rw [htaken] at hy
      cases hy
      exact absurd hdby.symm hx
  · exact fun _ _ => rfl

/- The list of the dbuf and the copy in hand change. -/
theorem BlockInv.setPhase {c x : Nat} {phase phase' : Phase} {segList : List Nat}
    (h : BlockInv n truth s x) (htaken : s.rewrites.taken = some (c, phase))
    (hlinked : (s.copies c).db = x → ∀ y ∈ segList,
      (s.dbs x).segments = [] ∧ Agree n (s.copies y).data truth)
    (hfailed : (s.copies c).db = x → phase' = .failed →
      (s.dbs x).segments = [] ∧ Agree n (s.copies c).data truth)
    (hkept : segList ≠ [] ∨ phase' = .failed) : BlockInv n truth ((s.setDb (s.copies c).db
      { s.dbs (s.copies c).db with segList := segList }).setPhase c phase') x := by
  obtain rfl | hx := eq_or_ne x (s.copies c).db
  · refine ⟨?_, ?_, fun y hy _ => ?_, .inr (.inr ?_)⟩ <;>
      simp only [SegCache.setPhase, setDb_dbs_self]
    · exact { h.dbuf with }
    · exact hlinked rfl
    · cases hy
      exact hfailed rfl rfl
    · refine hkept.imp_right fun hphase => ⟨c, ?_, rfl⟩
      rw [hphase]
  · exact h.setPhase_other htaken hx

/- A copy that cannot be written leaves the list of its dbuf and is in hand. -/
theorem BlockInv.failedCopy {c x : Nat} (h : BlockInv n truth s x)
    (htaken : s.rewrites.taken = some (c, .taken)) (hc : c ∈ (s.dbs (s.copies c).db).segList) :
    BlockInv n truth ((s.setDb (s.copies c).db
      { s.dbs (s.copies c).db with
        segList := (s.dbs (s.copies c).db).segList.erase c }).setPhase c .failed) x := by
  refine h.setPhase htaken ?_ ?_ (.inr rfl) <;> rintro rfl
  · exact fun y hy => h.linked y (List.mem_of_mem_erase hy)
  · exact fun _ => h.linked c hc

theorem BlockInv.relink {c x : Nat} (h : BlockInv n truth s x)
    (htaken : s.rewrites.taken = some (c, .failed)) :
    BlockInv n truth ((s.setDb (s.copies c).db
      { s.dbs (s.copies c).db with
        segList := (s.dbs (s.copies c).db).segList ++ [c] }).setPhase c .relinked) x := by
  refine h.setPhase htaken ?_ nofun (.inl (by simp))
  rintro rfl
  exact List.forall_mem_append.mpr
    ⟨h.linked, List.forall_mem_singleton.mpr (h.failed c htaken rfl)⟩

end Operations

/- Every block has its content, and the workers' lists are right. -/
structure ContentInv (size : Nat → UInt64) (truth : Nat → Content) (s : SegCache) : Prop where
  inv : s.Inv size
  block : ∀ b, BlockInv (size b).toNat (truth b) s b

namespace ContentInv

variable {truth : Nat → Content} {seg : Seg} {txg : Nat} {junk : Content}

section

variable (h : s.ContentInv size truth)
include h

theorem update (hl : Local b s s') {content : Content}
    (hb : BlockInv (size b).toNat content s' b) (x : Nat) :
    BlockInv (size x).toNat (Function.update truth b content x) s' x := by
  by_cases hx : x = b
  · rw [hx, Function.update_self]
    exact hb
  · rw [Function.update_of_ne hx]
    exact (h.block x).frame h.inv.data hl hx

theorem same (hl : Local b s s')
    (hb : BlockInv (size b).toNat (truth b) s' b) (x : Nat) :
    BlockInv (size x).toNat (truth x) s' x := by
  have hx := h.update hl hb x
  rwa [Function.update_eq_self] at hx

/- A copy that has the content of the block is written over it. -/
theorem writeCopy {c : Nat}
    (hc : s.rewrites.taken = some (c, .taken)) (hb : (s.copies c).db = b)
    (hmem : c ∈ (s.dbs b).segList) (x : Nat) :
    BlockInv (size x).toNat (truth x)
      ((s.dropCopy size b c).dmuWrite size b ⟨0, (size b).toNat, (s.copies c).data⟩ false txg junk)
      x := by
  have hblock := h.block b
  obtain ⟨hlocal, hdb⟩ := local_dropCopy size s b c
  have hdata : (s.dropCopy size b c).DataInv size := h.inv.data.dropCopy hb
  have hdbuf : DbufInv (size b).toNat (truth b) ((s.dropCopy size b c).dbs b) := by
    rw [hdb]
    exact { hblock.dbuf with }
  have hfailed : ¬ (s.dropCopy size b c).FailedFor b := by
    rintro ⟨y, hy, _⟩
    rw [hlocal.taken, hc] at hy
    cases hy
  have hsame : Agree (size b).toNat
      (Seg.write ⟨0, (size b).toNat, (s.copies c).data⟩ |>.apply (truth b)) (truth b) := by
    intro k hk
    have hsome : Seg.write ⟨0, (size b).toNat, (s.copies c).data⟩ k = some ((s.copies c).data k) :=
      if_pos ⟨Nat.zero_le k, by rwa [Nat.zero_add]⟩
    rw [Overlay.apply_of_some hsome]
    exact (hblock.linked c hmem).2 k hk
  refine h.same (hlocal.trans (local_dmuWrite false)) (BlockInv.of_agree ?_ hsame) x
  exact BlockInv.dmuWrite hdbuf hdata rfl (Nat.zero_add _).le hfailed

theorem rewrite {c : Nat} (hc : s.rewrites.taken = some (c, .taken))
    (assigned : Bool) (x : Nat) :
    BlockInv (size x).toNat (truth x) (s.rewrite size c assigned txg junk) x := by
  have hnone : ∀ y, s.rewrites.taken ≠ some (y, .failed) := by simp [hc]
  unfold SegCache.rewrite
  dsimp only
  split
  · exact (h.block x).hand rfl rfl hnone fun y hy => by cases hy
  · rename_i hlinked
    have hmem := not_not.mp hlinked
    cases assigned with
    | false => exact (h.block x).failedCopy hc hmem
    | true =>
      rw [← dropCopy_of_not_queued size (h.inv.data.hand c .taken hc).2]
      refine (h.writeCopy hc rfl hmem x).hand rfl rfl ?_ fun y hy => by cases hy
      intro y hy
      obtain ⟨hlocal, _⟩ := local_dropCopy size s (s.copies c).db c
      have htaken := (hlocal.trans (local_dmuWrite false)).taken.symm.trans hy
      exact hnone y htaken

theorem takeData (hstep : s.takeData size = some s') (x : Nat) :
    BlockInv (size x).toNat (truth x) s' x := by
  unfold SegCache.takeData at hstep
  split at hstep
  · rename_i c rest htaken _
    cases hstep
    exact (h.block x).hand rfl rfl (by simp [htaken]) fun y hy => by cases hy
  · cases hstep

theorem relink (hstep : s.relink = some s') (x : Nat) :
    BlockInv (size x).toNat (truth x) s' x := by
  unfold SegCache.relink at hstep
  split at hstep
  · rename_i c htaken
    cases hstep
    exact (h.block x).relink htaken
  · cases hstep

theorem requeue (hstep : s.requeue = some s') (x : Nat) :
    BlockInv (size x).toNat (truth x) s' x := by
  unfold SegCache.requeue at hstep
  split at hstep
  · rename_i c htaken
    cases hstep
    exact (h.block x).hand rfl rfl (by simp [htaken]) fun y hy => by cases hy
  · cases hstep

theorem takeRecord (hstep : s.takeRecord size = some s') (x : Nat) :
    BlockInv (size x).toNat (truth x) s' x := by
  unfold SegCache.takeRecord at hstep
  split at hstep
  · cases hstep
    exact (h.block x).congr rfl (fun _ _ => rfl) (fun _ => Iff.rfl) fun _ _ => rfl
  · cases hstep

theorem reread {ok : Bool} (hstep : s.reread size ok = some s')
    (x : Nat) : BlockInv (size x).toNat (truth x) s' x := by
  obtain ⟨b, _, hs⟩ := Option.map_eq_some_iff.mp hstep
  have hblock : ∀ y, BlockInv (size y).toNat (truth y)
      { s with records := { s.records with taken := none } } y :=
    fun y => (h.block y).congr rfl (fun _ _ => rfl) (fun _ => Iff.rfl) fun _ _ => rfl
  have hdata : DataInv size { s with records := { s.records with taken := none } } :=
    h.inv.data.same (withRecords_same _)
  cases ok with
  | false =>
    cases hs
    exact hblock x
  | true =>
    rw [← hs]
    by_cases hx : x = b
    · rw [hx]
      exact (hblock b).read hdata
    · exact (hblock x).frame hdata local_read hx

end

end ContentInv

/- What every step has to meet. -/
def Careful (s : SegCache) : SegAction → Prop
  | .write b _ _ _ _ => ¬ s.FailedFor b
  | .free b _ => s.Freeable b
  | a => s.ReadsBack a

/- The content that the writes and frees of a step ask for. -/
def wanted (truth : Nat → Content) : SegAction → Nat → Content
  | .write b seg _ _ _ => Function.update truth b (seg.write.apply (truth b))
  | .free b _ => Function.update truth b fun _ => 0
  | _ => truth

theorem Careful.readsBack {a : SegAction} (h : s.Careful a) : s.ReadsBack a := by
  cases a with
  | write | free => trivial
  | _ => exact h

theorem ContentInv.step {truth : Nat → Content} (h : s.ContentInv size truth) {a : SegAction}
    (hok : s.Careful a) (hstep : s.step size a = some s') :
    s'.ContentInv size (wanted truth a) := by
  refine ⟨h.inv.step hok.readsBack hstep, ?_⟩
  cases a with
  | write b seg kept txg junk =>
    obtain ⟨hguard, hs⟩ := (Option.ite_none_right_eq_some).mp hstep
    cases hs
    exact h.update (local_dmuWrite kept)
      (BlockInv.dmuWrite (h.block b).dbuf h.inv.data rfl hguard.2 hok)
  | read b =>
    cases hstep
    exact h.same local_read ((h.block b).read h.inv.data)
  | free b older =>
    cases hstep
    exact h.update (local_free older) ((h.block b).free h.inv.data hok older)
  | sync b =>
    cases hstep
    exact h.same local_setDb ((h.block b).setDb rfl rfl)
  | evict b =>
    simp only [SegCache.step] at hstep
    split at hstep
    · cases hstep
    · rename_i hguard
      cases hstep
      obtain ⟨hflag, hheld⟩ := not_or.mp hguard
      exact h.same local_setDb ((h.block b).evict h.inv.data hflag hheld)
  | takeRecord => exact h.takeRecord hstep
  | reread ok => exact h.reread hstep
  | takeData => exact h.takeData hstep
  | rewrite assigned txg junk =>
    simp only [SegCache.step] at hstep
    split at hstep
    · rename_i c hc
      cases hstep
      exact h.rewrite hc assigned
    · cases hstep
  | relink => exact h.relink hstep
  | requeue => exact h.requeue hstep

end SegCache

/- The cache together with the content that each block should have. -/
structure TrueCache where
  cache : SegCache
  truth : Nat → Content

namespace TrueCache

def step (size : Nat → UInt64) (s : TrueCache) (a : SegAction) : Option TrueCache :=
  (s.cache.step size a).map fun cache => ⟨cache, SegCache.wanted s.truth a⟩

def start (disk : Nat → Content) : TrueCache := ⟨SegCache.start disk, disk⟩

def Careful (s : TrueCache) (a : SegAction) : Prop := s.cache.Careful a

/- A read of any block gives its content, and when the lists are empty and the workers idle, every
block is stored. -/
structure Invisible (size : Nat → UInt64) (s : TrueCache) : Prop where
  reads : ∀ b, ∃ content, ((s.cache.read size b).dbs b).data = some content ∧
    Agree (size b).toNat content (s.truth b)
  stored : s.cache.Idle → s.cache.records.list = [] → s.cache.rewrites.list = [] →
    ∀ b, Agree (size b).toNat (s.cache.dbs b).stored (s.truth b)

end TrueCache

namespace SegCache

variable {size : Nat → UInt64} {truth : Nat → Content} {s : SegCache}

theorem ContentInv.stored (h : s.ContentInv size truth) (hidle : s.Idle)
    (hrecords : s.records.list = []) (hrewrites : s.rewrites.list = []) (b : Nat) :
    Agree (size b).toNat (s.dbs b).stored (truth b) := by
  have hscheduled := h.inv.scheduled hidle
  refine (h.block b).kept.resolve_right ?_
  rintro (hsegs | hlist | ⟨c, hc, _⟩)
  · have hmem := hscheduled.segments b ((h.block b).dbuf.flag.mpr hsegs)
    rw [hrecords] at hmem
    cases hmem
  · obtain ⟨c, hc⟩ := List.exists_mem_of_ne_nil _ hlist
    have hmem := (hscheduled.copies c (h.inv.data.linked b c hc).2).1
    rw [hrewrites] at hmem
    cases hmem
  · rw [hidle.2] at hc
    cases hc

theorem start_contentInv (disk : Nat → Content) : (start disk).ContentInv size disk := by
  refine ⟨start_inv disk, fun b => ?_⟩
  apply Bare.blockInv ⟨rfl, rfl, rfl, rfl⟩ (Agree.refl _ (disk b)) (Agree.refl _ (disk b))
  rintro ⟨c, hc, _⟩
  cases hc

end SegCache

/-- In every run in which a block is written or freed only while no copy of it that could not be
written is in hand, freed only while no copy of it is queued and not while it is in memory with
holds of its segments only, and in which the record worker's reads succeed, the cache does not
show. -/
theorem segcache_invisible {size : Nat → UInt64} {disk : Nat → Content} {s : TrueCache}
    (h : Reach (TrueCache.step size) TrueCache.Careful (TrueCache.start disk) s) :
    s.Invisible size := by
  have hinv : s.cache.ContentInv size s.truth := by
    refine h.invariant (P := fun s => s.cache.ContentInv size s.truth)
      (SegCache.start_contentInv disk) ?_
    intro t u a ht hok hstep
    obtain ⟨cache, hcache, rfl⟩ := Option.map_eq_some_iff.mp hstep
    exact ht.step hok hcache
  exact ⟨fun b => (hinv.block b).read_data, hinv.stored⟩

/-- A partial write is kept, a read merges it and queues a copy, the block is freed, and the worker
writes the copy: the block reads as it did before the free. -/
theorem segcache_invisible_freed : ∃ s, Reach (TrueCache.step SegCache.fourBytes) (fun _ _ => True)
    (TrueCache.start fun _ _ => 0) s ∧ ¬ s.Invisible SegCache.fourBytes := by
  have hrun : Reach (TrueCache.step SegCache.fourBytes) (fun _ _ => True)
      (TrueCache.start fun _ _ => 0) _ :=
    .next (a := .rewrite true 7 fun _ => 0)
      (.next (a := .takeData)
        (.next (a := .free 0 false)
          (.next (a := .read 0)
            (.next (a := .write 0 SegCache.firstTwo true 5 fun _ => 0) .start trivial rfl)
            trivial rfl)
          trivial rfl)
        trivial rfl)
      trivial rfl
  refine ⟨_, hrun, ?_⟩
  intro h
  obtain ⟨content, hcontent, hagree⟩ := h.reads 0
  have hzero := hagree 0 (by decide)
  cases hcontent
  exact absurd hzero (by decide)

/-- The same without the free: the worker stores what the write asked for. -/
theorem segcache_invisible_rewritten : ∃ s,
    Reach (TrueCache.step SegCache.fourBytes) TrueCache.Careful (TrueCache.start fun _ _ => 0) s ∧
      s.cache.rewrites.list = [] ∧ (s.cache.dbs 0).stored 0 = 7 ∧
      s.Invisible SegCache.fourBytes := by
  have hrun : Reach (TrueCache.step SegCache.fourBytes) TrueCache.Careful
      (TrueCache.start fun _ _ => 0) _ :=
    .next (a := .rewrite true 7 fun _ => 0)
      (.next (a := .takeData)
        (.next (a := .read 0)
          (.next (a := .write 0 SegCache.firstTwo true 5 fun _ => 0) .start
            (fun ⟨_, hc, _⟩ => by cases hc) rfl)
          trivial rfl)
        trivial rfl)
      trivial rfl
  exact ⟨_, hrun, rfl, by decide, segcache_invisible hrun⟩

end ClusterZfs

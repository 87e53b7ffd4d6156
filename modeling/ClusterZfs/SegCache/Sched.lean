import ClusterZfs.SegCache.Code
import ClusterZfs.Lib.Runs

/-! Every cached write stays scheduled: the lists of the two workers against the segments and the
copies that there are. -/
namespace ClusterZfs

/- The record worker. `out` is the dbuf that may be missing on the list. -/
structure RecordInv (size : Nat → UInt64) (has : Nat → Bool) (list : List Nat) (data : UInt64)
    (out : Option Nat) : Prop where
  nodup : list.Nodup
  segments : ∀ b ∈ list, has b
  listed : ∀ b, has b → b ∈ list ∨ out = some b
  sum : data = (list.map size).sum

section Record

variable {size : Nat → UInt64} {has : Nat → Bool} {w : RecordWorker} {out : Option Nat} {b : Nat}
  {list : List Nat}

theorem sum_erase (size : Nat → UInt64) (h : b ∈ list) :
    ((list.erase b).map size).sum = (list.map size).sum - size b := by
  rw [← List.sum_map_erase size h]
  exact (add_sub_cancel_left _ _).symm

theorem sum_concat (size : Nat → UInt64) (list : List Nat) :
    ((list ++ [b]).map size).sum = (list.map size).sum + size b := by
  rw [List.map_append, List.sum_append, List.map_singleton, List.sum_singleton]

theorem nodup_concat (h : list.Nodup) (hb : b ∉ list) : (list ++ [b]).Nodup :=
  h.append (List.nodup_singleton b) (by simpa using hb)

theorem update_true {x : Nat} : Function.update has b true x ↔ x = b ∨ has x := by
  by_cases hx : x = b <;> simp [hx]

theorem update_false {x : Nat} : Function.update has b false x ↔ x ≠ b ∧ has x := by
  by_cases hx : x = b <;> simp [hx]

theorem RecordInv.insert (h : RecordInv size has w.list w.data out) (hb : has b = false) :
    RecordInv size (Function.update has b true) (w.insert size b).list (w.insert size b).data
      out := by
  have hnot : b ∉ w.list := fun hmem => by simpa [hb] using h.segments b hmem
  have hlist : (w.insert size b).list = w.list ++ [b] := if_neg hnot
  rw [hlist]
  constructor
  · exact nodup_concat h.nodup hnot
  · intro x hx
    rw [update_true]
    rcases List.mem_append.mp hx with hx | hx
    · exact .inr (h.segments x hx)
    · exact .inl (List.mem_singleton.mp hx)
  · intro x hx
    rcases update_true.mp hx with hxb | hx
    · exact .inl (List.mem_append_right _ (List.mem_singleton.mpr hxb))
    · exact (h.listed x hx).imp_left (List.mem_append_left _)
  · rw [sum_concat, ← h.sum]
    rfl

theorem RecordInv.remove (h : RecordInv size has w.list w.data out) :
    RecordInv size (Function.update has b false) (w.remove size b).list (w.remove size b).data
      (if out = some b then none else out) := by
  have hlisted : ∀ x, x ≠ b → has x →
      x ∈ w.list ∨ (if out = some b then none else out) = some x := by
    intro x hxb hx
    refine (h.listed x hx).imp_right fun hout => ?_
    rw [hout, if_neg fun heq => hxb (Option.some.inj heq)]
  unfold RecordWorker.remove
  split
  · rename_i hmem
    refine ⟨h.nodup.erase b, ?_, ?_, ?_⟩
    · intro x hx
      have hx' := (h.nodup.mem_erase_iff).mp hx
      exact update_false.mpr ⟨hx'.1, h.segments x hx'.2⟩
    · intro x hx
      obtain ⟨hxb, hx⟩ := update_false.mp hx
      exact (hlisted x hxb hx).imp_left fun hmem => (h.nodup.mem_erase_iff).mpr ⟨hxb, hmem⟩
    · rw [sum_erase size hmem, ← h.sum]
  · rename_i hmem
    refine ⟨h.nodup, ?_, ?_, h.sum⟩
    · intro x hx
      exact update_false.mpr ⟨fun heq => hmem (heq ▸ hx), h.segments x hx⟩
    · intro x hx
      obtain ⟨hxb, hx⟩ := update_false.mp hx
      exact hlisted x hxb hx

theorem RecordInv.weaken {data : UInt64}
    (h : RecordInv size has list data (if out = some b then none else out)) :
    RecordInv size has list data out := by
  refine { h with listed := fun x hx => (h.listed x hx).imp_right fun heq => ?_ }
  split at heq
  · cases heq
  · exact heq

theorem RecordInv.take (h : RecordInv size has w.list w.data none) (hb : b ∈ w.list) :
    RecordInv size has (w.remove size b).list (w.remove size b).data (some b) := by
  unfold RecordWorker.remove
  rw [if_pos hb]
  refine ⟨h.nodup.erase b, ?_, ?_, ?_⟩
  · intro x hx
    exact h.segments x (List.mem_of_mem_erase hx)
  · intro x hx
    by_cases hxb : x = b
    · exact .inr (by rw [hxb])
    · cases h.listed x hx with
      | inl hmem => exact .inl ((h.nodup.mem_erase_iff).mpr ⟨hxb, hmem⟩)
      | inr hout => cases hout
  · rw [sum_erase size hb, ← h.sum]

end Record

namespace SegCache

variable {size : Nat → UInt64} {s s' : SegCache} {b : Nat} {s'' : SegCache} {d : SegDbuf}

def has (s : SegCache) : Nat → Bool := fun b => (s.dbs b).hasSegments

/- The data worker: a copy is on both lists or in hand. -/
structure DataInv (size : Nat → UInt64) (s : SegCache) : Prop where
  listNodup : s.rewrites.list.Nodup
  segNodup : ∀ b, (s.dbs b).segList.Nodup
  liveNodup : s.live.Nodup
  fresh : ∀ c ∈ s.live, c < s.nextCopy
  linked : ∀ b, ∀ c ∈ (s.dbs b).segList, (s.copies c).db = b ∧ c ∈ s.live
  queued : ∀ c ∈ s.live,
    (c ∈ s.rewrites.list ∧ c ∈ (s.dbs (s.copies c).db).segList) ∨
      ∃ phase, s.rewrites.taken = some (c, phase)
  listed : ∀ c ∈ s.rewrites.list, c ∈ s.live
  hand : ∀ c phase, s.rewrites.taken = some (c, phase) → c ∈ s.live ∧ c ∉ s.rewrites.list
  failed : ∀ c, s.rewrites.taken = some (c, .failed) → c ∉ (s.dbs (s.copies c).db).segList
  sum : s.rewrites.data = (s.rewrites.list.map fun c => size (s.copies c).db).sum

/- Nothing that the data worker sees has changed. -/
structure SameData (s s' : SegCache) : Prop where
  rewrites : s'.rewrites = s.rewrites
  copies : s'.copies = s.copies
  live : s'.live = s.live
  nextCopy : s'.nextCopy = s.nextCopy
  segList : ∀ b, (s'.dbs b).segList = (s.dbs b).segList

theorem SameData.refl (s : SegCache) : s.SameData s := ⟨rfl, rfl, rfl, rfl, fun _ => rfl⟩

theorem SameData.trans (h : s.SameData s') (h' : s'.SameData s'') :
    s.SameData s'' :=
  ⟨h'.rewrites.trans h.rewrites, h'.copies.trans h.copies, h'.live.trans h.live,
    h'.nextCopy.trans h.nextCopy, fun b => (h'.segList b).trans (h.segList b)⟩

theorem DataInv.same (h : s.DataInv size) (hs : s.SameData s') : s'.DataInv size := by
  obtain ⟨hrewrites, hcopies, hlive, hnext, hseg⟩ := hs
  constructor <;> simp only [hrewrites, hcopies, hlive, hnext, hseg]
  exacts [h.listNodup, h.segNodup, h.liveNodup, h.fresh, h.linked, h.queued, h.listed, h.hand,
    h.failed, h.sum]

theorem setDb_segList (d : SegDbuf) (x : Nat) :
    ((s.setDb b d).dbs x).segList = if x = b then d.segList else (s.dbs x).segList := by
  by_cases hx : x = b
  · rw [if_pos hx, hx, setDb_dbs_self]
  · rw [if_neg hx, setDb_dbs_of_ne _ _ hx]

/- A copy is linked behind the others of its dbuf. -/
theorem setDb_mem_concat {c : Nat} (hd : d.segList = (s.dbs b).segList ++ [c])
    (x y : Nat) : y ∈ ((s.setDb b d).dbs x).segList ↔ y ∈ (s.dbs x).segList ∨ (x = b ∧ y = c) := by
  rw [setDb_segList]
  split <;> simp [*]

theorem setDb_same (h : d.segList = (s.dbs b).segList) :
    s.SameData (s.setDb b d) := by
  refine ⟨rfl, rfl, rfl, rfl, ?_⟩
  intro x
  rw [setDb_segList]
  split
  · rename_i hx
    rw [hx, h]
  · rfl

theorem setDb_has (d : SegDbuf) : (s.setDb b d).has = Function.update s.has b d.hasSegments := by
  funext x
  by_cases hx : x = b
  · rw [hx, Function.update_self, has, setDb_dbs_self]
  · rw [Function.update_of_ne hx, has, setDb_dbs_of_ne _ _ hx, has]

def RecInv (size : Nat → UInt64) (s : SegCache) (out : Option Nat) : Prop :=
  RecordInv size s.has s.records.list s.records.data out

/- What the record worker relies on is kept. -/
structure KeepsRecords (size : Nat → UInt64) (s s' : SegCache) : Prop where
  taken : s'.records.taken = s.records.taken
  inv : ∀ out, s.RecInv size out → s'.RecInv size out

theorem KeepsRecords.trans (h : s.KeepsRecords size s')
    (h' : s'.KeepsRecords size s'') : s.KeepsRecords size s'' :=
  ⟨h'.taken.trans h.taken, fun out hs => h'.inv out (h.inv out hs)⟩

theorem keepsRecords_of_eq (hrecords : s'.records = s.records) (hhas : s'.has = s.has) :
    s.KeepsRecords size s' := by
  refine ⟨by rw [hrecords], ?_⟩
  intro out hs
  rw [RecInv, hrecords, hhas]
  exact hs

theorem setDb_keepsRecords (h : d.hasSegments = (s.dbs b).hasSegments) :
    s.KeepsRecords size (s.setDb b d) := by
  refine keepsRecords_of_eq rfl ?_
  rw [setDb_has, h]
  exact Function.update_eq_self b s.has

/- A step that neither worker notices. -/
structure Kept (size : Nat → UInt64) (s s' : SegCache) : Prop where
  data : s.SameData s'
  records : s.KeepsRecords size s'

theorem Kept.refl (s : SegCache) : s.Kept size s := ⟨.refl s, keepsRecords_of_eq rfl rfl⟩

theorem Kept.trans (h : s.Kept size s') (h' : s'.Kept size s'') :
    s.Kept size s'' :=
  ⟨h.data.trans h'.data, h.records.trans h'.records⟩

theorem setDb_kept (hseg : d.segList = (s.dbs b).segList)
    (hhas : d.hasSegments = (s.dbs b).hasSegments) : s.Kept size (s.setDb b d) :=
  ⟨setDb_same hseg, setDb_keepsRecords hhas⟩

section Drop

variable {c : Nat}

theorem dropCopy_segList (x : Nat) : ((s.dropCopy size b c).dbs x).segList =
    if x = b then (s.dbs b).segList.erase c else (s.dbs x).segList := by
  unfold SegCache.dropCopy
  split <;> exact setDb_segList _ x

theorem dropCopy_taken : (s.dropCopy size b c).rewrites.taken = s.rewrites.taken := by
  unfold SegCache.dropCopy
  split <;> rfl

theorem dropCopy_copies : (s.dropCopy size b c).copies = s.copies := by
  unfold SegCache.dropCopy
  split <;> rfl

theorem dropCopy_nextCopy : (s.dropCopy size b c).nextCopy = s.nextCopy := by
  unfold SegCache.dropCopy
  split <;> rfl

/- A copy that is not queued is only taken off its dbuf's list. -/
theorem dropCopy_list : (s.dropCopy size b c).rewrites.list = s.rewrites.list.erase c := by
  unfold SegCache.dropCopy
  split
  · rfl
  · rename_i hlist
    exact (List.erase_of_not_mem hlist).symm

theorem dropCopy_of_not_queued (size : Nat → UInt64) (h : c ∉ s.rewrites.list) :
    s.dropCopy size b c = s.setDb b { s.dbs b with segList := (s.dbs b).segList.erase c } :=
  if_neg h

theorem dropCopy_live : (s.dropCopy size b c).live =
    if c ∈ s.rewrites.list then s.live.erase c else s.live := by
  unfold SegCache.dropCopy
  split <;> rfl

theorem DataInv.dropCopy (h : s.DataInv size) (hc : (s.copies c).db = b) :
    (s.dropCopy size b c).DataInv size := by
  have hmem : ∀ x y, y ∈ ((s.dropCopy size b c).dbs x).segList ↔
      y ≠ c ∧ y ∈ (s.dbs x).segList := by
    intro x y
    rw [dropCopy_segList]
    split
    · rename_i hx
      rw [(h.segNodup b).mem_erase_iff, hx]
    · rename_i hx
      refine ⟨fun hy => ⟨?_, hy⟩, fun hy => hy.2⟩
      rintro rfl
      exact hx ((h.linked x y hy).1.symm.trans hc)
  have hlist : ∀ x, x ∈ (s.dropCopy size b c).rewrites.list ↔ x ≠ c ∧ x ∈ s.rewrites.list := by
    intro x
    rw [dropCopy_list, h.listNodup.mem_erase_iff]
  have hlive : ∀ x, x ∈ (s.dropCopy size b c).live ↔
      x ∈ s.live ∧ (x = c → c ∉ s.rewrites.list) := by
    intro x
    rw [dropCopy_live]
    split
    · rename_i hin
      rw [h.liveNodup.mem_erase_iff, and_comm]
      exact and_congr_right fun _ => ⟨fun hne heq => absurd heq hne, fun hne heq => hne heq hin⟩
    · rename_i hin
      exact ⟨fun hx => ⟨hx, fun _ => hin⟩, And.left⟩
  constructor
  · rw [dropCopy_list]
    exact h.listNodup.erase c
  · intro x
    rw [dropCopy_segList]
    split
    · exact (h.segNodup b).erase c
    · exact h.segNodup x
  · rw [dropCopy_live]
    split
    · exact h.liveNodup.erase c
    · exact h.liveNodup
  · intro x hx
    rw [dropCopy_nextCopy]
    exact h.fresh x ((hlive x).mp hx).1
  · intro x y hy
    obtain ⟨hyc, hy⟩ := (hmem x y).mp hy
    obtain ⟨howner, hin⟩ := h.linked x y hy
    rw [dropCopy_copies]
    exact ⟨howner, (hlive y).mpr ⟨hin, fun heq => absurd heq hyc⟩⟩
  · intro x hx
    obtain ⟨hx, hxc⟩ := (hlive x).mp hx
    rw [dropCopy_taken, dropCopy_copies, hmem, hlist]
    refine (h.queued x hx).imp_left fun hq => ?_
    have hne : x ≠ c := fun heq => hxc heq (heq ▸ hq.1)
    exact ⟨⟨hne, hq.1⟩, hne, hq.2⟩
  · intro x hx
    obtain ⟨hxc, hx⟩ := (hlist x).mp hx
    exact (hlive x).mpr ⟨h.listed x hx, fun heq => absurd heq hxc⟩
  · intro x phase hx
    rw [dropCopy_taken] at hx
    obtain ⟨hin, hnot⟩ := h.hand x phase hx
    exact ⟨(hlive x).mpr ⟨hin, fun heq => heq ▸ hnot⟩, fun hm => hnot ((hlist x).mp hm).2⟩
  · intro x hx hin
    rw [dropCopy_taken] at hx
    rw [dropCopy_copies] at hin
    exact h.failed x hx ((hmem _ x).mp hin).2
  · rw [dropCopy_copies]
    unfold SegCache.dropCopy
    split
    · rename_i hin
      rw [sum_erase (fun c => size (s.copies c).db) hin, ← h.sum, hc]
    · exact h.sum

theorem DataInv.removeSegCache (h : s.DataInv size) (b : Nat) :
    (s.removeSegCache size b).DataInv size := by
  have hloop : ∀ (cs : List Nat) (s : SegCache), s.DataInv size →
      (∀ c ∈ cs, (s.copies c).db = b) →
      (cs.foldl (fun s c => s.dropCopy size b c) s).DataInv size := by
    intro cs
    induction cs with
    | nil =>
      intro s hs _
      exact hs
    | cons c cs ih =>
      intro s hs hcs
      refine ih _ (hs.dropCopy (hcs c List.mem_cons_self)) ?_
      intro x hx
      rw [dropCopy_copies]
      exact hcs x (List.mem_cons_of_mem c hx)
  exact hloop _ s h fun c hc => (h.linked b c hc).1

theorem DataInv.dataReload (h : s.DataInv size) (b : Nat) : (s.dataReload size b).DataInv size := by
  have hnew : s.nextCopy ∉ s.live := fun hmem => Nat.lt_irrefl _ (h.fresh _ hmem)
  have howner : ∀ c, c ≠ s.nextCopy → ((s.dataReload size b).copies c) = s.copies c := by
    intro c hc
    exact Function.update_of_ne hc ..
  have howner_new : ((s.dataReload size b).copies s.nextCopy).db = b := by
    have hcopy : (s.dataReload size b).copies s.nextCopy = _ := Function.update_self ..
    rw [hcopy]
  have hold : ∀ c ∈ s.live, c ≠ s.nextCopy := fun c hc heq => hnew (heq ▸ hc)
  have hseg : ∀ x, ((s.dataReload size b).dbs x).segList =
      if x = b then (s.dbs b).segList ++ [s.nextCopy] else (s.dbs x).segList :=
    fun x => setDb_segList _ x
  have hmem : ∀ x y, y ∈ ((s.dataReload size b).dbs x).segList ↔
      y ∈ (s.dbs x).segList ∨ (x = b ∧ y = s.nextCopy) := setDb_mem_concat rfl
  have hlist : (s.dataReload size b).rewrites.list = s.rewrites.list ++ [s.nextCopy] := rfl
  have htaken : (s.dataReload size b).rewrites.taken = s.rewrites.taken := rfl
  have hnewList : s.nextCopy ∉ s.rewrites.list := fun hmem => hnew (h.listed _ hmem)
  refine ⟨nodup_concat h.listNodup hnewList, ?_, nodup_concat h.liveNodup hnew, ?_, ?_, ?_, ?_, ?_,
    ?_, ?_⟩
  · intro x
    rw [hseg]
    split
    · exact nodup_concat (h.segNodup b) fun hmem => hnew (h.linked b _ hmem).2
    · exact h.segNodup x
  · intro c hc
    have hnext : (s.dataReload size b).nextCopy = s.nextCopy + 1 := rfl
    rcases List.mem_append.mp hc with hc | hc
    · exact Nat.lt_succ_of_lt (h.fresh c hc)
    · rw [List.mem_singleton.mp hc]
      exact Nat.lt_succ_self _
  · intro x c hc
    rcases (hmem x c).mp hc with hc | hc
    · obtain ⟨hdb, hin⟩ := h.linked x c hc
      rw [howner c (hold c hin)]
      exact ⟨hdb, List.mem_append_left _ hin⟩
    · rw [hc.2, howner_new]
      exact ⟨hc.1.symm, List.mem_append_right _ (List.mem_singleton_self _)⟩
  · intro c hc
    rw [htaken, hlist, hmem]
    rcases List.mem_append.mp hc with hc | hc
    · rw [howner c (hold c hc)]
      exact (h.queued c hc).imp_left fun hq => ⟨List.mem_append_left _ hq.1, .inl hq.2⟩
    · rw [List.mem_singleton.mp hc, howner_new]
      exact .inl ⟨List.mem_append_right _ (List.mem_singleton_self _), .inr ⟨rfl, rfl⟩⟩
  · intro c hc
    exact List.mem_append.mpr ((List.mem_append.mp hc).imp_left (h.listed c))
  · intro c phase hc
    obtain ⟨hin, hnot⟩ := h.hand c phase hc
    refine ⟨List.mem_append_left _ hin, fun hc => ?_⟩
    rcases List.mem_append.mp hc with hc | hc
    · exact hnot hc
    · exact hold c hin (List.mem_singleton.mp hc)
  · intro c hc
    have hin := (h.hand c _ hc).1
    rw [howner c (hold c hin), hmem]
    rintro (hlinked | ⟨-, heq⟩)
    · exact h.failed c hc hlinked
    · exact hold c hin heq
  · have hdata : (s.dataReload size b).rewrites.data = s.rewrites.data + size b := rfl
    rw [hdata, hlist, sum_concat, howner_new, h.sum]
    congr 2
    refine List.map_congr_left ?_
    intro c hc
    rw [howner c (hold c (h.listed c hc))]

end Drop

section Operations

variable (seg : Seg) (older : Bool) (bWrite : Bool) (kept : Bool) (txg : Nat) (junk : Content)

theorem withRecords_same (records : RecordWorker) : s.SameData { s with records } :=
  ⟨rfl, rfl, rfl, rfl, fun _ => rfl⟩

theorem handleSegs_recInv {out : Option Nat} (h : s.RecInv size out) (bWrite : Bool) :
    (s.handleSegs size b bWrite).RecInv size (if out = some b then none else out) := by
  have hhas : (s.handleSegs size b bWrite).has = Function.update s.has b false := setDb_has _
  rw [RecInv, hhas]
  exact RecordInv.remove h

theorem handleSegs_kept : s.Kept size (s.handleSegs size b bWrite) := by
  refine ⟨(withRecords_same (s.records.remove size b)).trans (setDb_same rfl), ?_, ?_⟩
  · have hrecords : (s.handleSegs size b bWrite).records = s.records.remove size b := rfl
    rw [hrecords, RecordWorker.remove]
    split <;> rfl
  · intro out h
    exact RecordInv.weaken (handleSegs_recInv h bWrite)

theorem handleSegsIf_kept : s.Kept size (s.handleSegsIf size b bWrite) := by
  unfold handleSegsIf
  split
  · exact handleSegs_kept bWrite
  · exact .refl s

theorem handleSeg_kept : s.Kept size (s.handleSeg size b seg txg).1 := by
  have hhas : (s.handleSeg size b seg txg).1.has = Function.update s.has b true := setDb_has _
  have hrecords : (s.handleSeg size b seg txg).1.records =
    if (s.dbs b).hasSegments then s.records else s.records.insert size b := rfl
  refine ⟨(withRecords_same (if (s.dbs b).hasSegments then s.records
    else s.records.insert size b)).trans (setDb_same rfl), ?_⟩
  by_cases hb : (s.dbs b).hasSegments
  · refine keepsRecords_of_eq (by rw [hrecords, if_pos hb]) ?_
    rw [hhas]
    exact Function.update_eq_iff.mpr ⟨hb.symm, fun _ _ => rfl⟩
  · rw [if_neg hb] at hrecords
    refine ⟨by rw [hrecords]; rfl, ?_⟩
    intro out h
    rw [RecInv, hhas, hrecords]
    exact RecordInv.insert h (Bool.eq_false_iff.mpr hb)

theorem load_kept (content : Content) : s.Kept size (s.load b content) := setDb_kept rfl rfl
theorem dirtied_kept : s.Kept size (s.dirtied b) := setDb_kept rfl rfl
theorem bcopy_kept : s.Kept size (s.bcopy b seg) := setDb_kept rfl rfl
theorem freeStored_kept : s.Kept size (s.freeStored b) := setDb_kept rfl rfl
theorem undirty_kept : s.Kept size (s.undirty b older) := setDb_kept rfl rfl
theorem clearData_kept : s.Kept size (s.clearData b) := setDb_kept rfl rfl

theorem handleWriteOptimize_kept :
    s.Kept size (s.handleWriteOptimize size b seg txg junk) := by
  unfold handleWriteOptimize
  dsimp only
  split
  · exact (handleSeg_kept seg txg).trans
      ((load_kept junk).trans ((handleSegs_kept true).trans dirtied_kept))
  · exact handleSeg_kept seg txg

theorem freeRange_kept : s.Kept size (s.freeRange size b older) := by
  unfold freeRange
  dsimp only
  split
  · split
    · exact (handleSegs_kept false).trans ((undirty_kept older).trans clearData_kept)
    · exact handleSegs_kept false
  · exact (undirty_kept older).trans clearData_kept

theorem free_kept : s.Kept size (s.free size b older) :=
  freeStored_kept.trans (freeRange_kept older)

/- A write links no copy once those of the block are gone. -/
theorem dmuWrite_kept :
    (s.removeSegCache size b).Kept size (s.dmuWrite size b seg kept txg junk) := by
  unfold dmuWrite
  split
  · exact (load_kept junk).trans
      ((handleSegsIf_kept false).trans ((bcopy_kept seg).trans dirtied_kept))
  · split
    · exact handleWriteOptimize_kept seg txg junk
    · exact (load_kept _).trans
        ((handleSegsIf_kept true).trans ((bcopy_kept seg).trans dirtied_kept))

theorem dropCopy_keeps (c : Nat) : s.KeepsRecords size (s.dropCopy size b c) := by
  have hset : s.KeepsRecords size
      (s.setDb b { s.dbs b with segList := (s.dbs b).segList.erase c }) := setDb_keepsRecords rfl
  unfold dropCopy
  split
  · exact hset.trans (keepsRecords_of_eq rfl rfl)
  · exact hset

/- What `dmu_objset_remove_seg_cache` leaves to both workers. -/
theorem removeSegCache_frame (b : Nat) : s.KeepsRecords size (s.removeSegCache size b) ∧
    (s.removeSegCache size b).rewrites.taken = s.rewrites.taken ∧
    ∀ x y, y ∈ ((s.removeSegCache size b).dbs x).segList → y ∈ (s.dbs x).segList := by
  have hloop : ∀ (cs : List Nat) (s : SegCache) (s' : SegCache),
      cs.foldl (fun s c => s.dropCopy size b c) s = s' → s.KeepsRecords size s' ∧
      s'.rewrites.taken = s.rewrites.taken ∧
      ∀ x y, y ∈ (s'.dbs x).segList → y ∈ (s.dbs x).segList := by
    intro cs
    induction cs with
    | nil =>
      rintro s _ rfl
      exact ⟨keepsRecords_of_eq rfl rfl, rfl, fun _ _ hy => hy⟩
    | cons c cs ih =>
      intro s s' hs'
      obtain ⟨hkeeps, htaken, hlinked⟩ := ih _ s' hs'
      refine ⟨(dropCopy_keeps c).trans hkeeps, htaken.trans dropCopy_taken, fun x y hy => ?_⟩
      have hdrop := hlinked x y hy
      rw [dropCopy_segList] at hdrop
      split at hdrop
      · rename_i hx
        rw [hx]
        exact List.mem_of_mem_erase hdrop
      · exact hdrop
  exact hloop _ s _ rfl

theorem dmuWrite_keeps :
    s.KeepsRecords size (s.dmuWrite size b seg kept txg junk) :=
  (removeSegCache_frame b).1.trans (dmuWrite_kept seg kept txg junk).records

theorem DataInv.dmuWrite (h : s.DataInv size) (seg : Seg) (kept : Bool) (txg : Nat)
    (junk : Content) : (s.dmuWrite size b seg kept txg junk).DataInv size :=
  (h.removeSegCache b).same (dmuWrite_kept seg kept txg junk).data

theorem dataReload_keeps : s.KeepsRecords size (s.dataReload size b) := by
  refine keepsRecords_of_eq rfl ?_
  have hhas : (s.dataReload size b).has =
      Function.update s.has b (s.dbs b).hasSegments := setDb_has _
  rw [hhas]
  exact Function.update_eq_self b s.has

theorem read_recInv {out : Option Nat} (h : s.RecInv size out) (b : Nat) :
    (s.read size b).RecInv size (if out = some b then none else out) := by
  have hload := (load_kept (b := b) (s.dbs b).stored).records.inv out h
  unfold SegCache.read
  dsimp only
  split
  · exact dataReload_keeps.inv _ (handleSegs_recInv hload true)
  · rename_i hno
    refine { hload with listed := fun x hx => (hload.listed x hx).imp_right fun hout => ?_ }
    rw [hout, if_neg]
    rintro ⟨⟩
    exact hno hx

theorem read_keeps : s.KeepsRecords size (s.read size b) := by
  refine ⟨?_, fun _ h => RecordInv.weaken (read_recInv h b)⟩
  unfold SegCache.read
  dsimp only
  split
  · have hkeeps : (s.dbufRead b).KeepsRecords size
        (((s.dbufRead b).handleSegs size b true).dataReload size b) :=
      (handleSegs_kept true).records.trans dataReload_keeps
    exact hkeeps.taken
  · rfl

theorem DataInv.read (h : s.DataInv size) (b : Nat) : (s.read size b).DataInv size := by
  have hkept : s.Kept size (s.dbufRead b) := load_kept _
  have hload := h.same hkept.data
  unfold SegCache.read
  dsimp only
  split
  · exact (hload.same (handleSegs_kept true).data).dataReload b
  · exact hload

end Operations

section Workers

variable {c : Nat} {phase : Phase}

/- The worker frees the copy it has in hand. -/
section

variable (h : s.DataInv size)
include h

section

variable (hc : s.rewrites.taken = some (c, phase))
include hc

/-- Every copy but the one in hand is on both lists. -/
theorem DataInv.queued_or_hand
    {x : Nat} (hx : x ∈ s.live) :
    (x ∈ s.rewrites.list ∧ x ∈ (s.dbs (s.copies x).db).segList) ∨ x = c := by
  refine (h.queued x hx).imp_right ?_
  rintro ⟨phase', hq⟩
  cases hc.symm.trans hq
  rfl

omit hc in
theorem DataInv.queued_of_idle (hidle : s.rewrites.taken = none) {x : Nat}
    (hx : x ∈ s.live) : x ∈ s.rewrites.list ∧ x ∈ (s.dbs (s.copies x).db).segList := by
  exact (h.queued x hx).resolve_right (by simp [hidle])

theorem DataInv.release
    (hnot : ∀ b, c ∉ (s.dbs b).segList) : (s.release c).DataInv size := by
  have hlist := (h.hand c phase hc).2
  have hmem : ∀ {x}, x ∈ s.live.erase c ↔ x ≠ c ∧ x ∈ s.live := h.liveNodup.mem_erase_iff
  refine ⟨h.listNodup, h.segNodup, h.liveNodup.erase c, ?_, ?_, ?_, ?_, nofun, nofun, h.sum⟩
  · intro x hx
    exact h.fresh x (hmem.mp hx).2
  · intro b x hx
    obtain ⟨howner, hin⟩ := h.linked b x hx
    exact ⟨howner, hmem.mpr ⟨fun heq => hnot b (heq ▸ hx), hin⟩⟩
  · intro x hx
    obtain ⟨hxc, hx⟩ := hmem.mp hx
    exact .inl ((h.queued_or_hand hc hx).resolve_right hxc)
  · intro x hx
    exact hmem.mpr ⟨fun heq => hlist (heq ▸ hx), h.listed x hx⟩

theorem DataInv.setPhase
    {phase' : Phase} (hfailed : phase' = .failed → c ∉ (s.dbs (s.copies c).db).segList) :
    (s.setPhase c phase').DataInv size := by
  refine { h with queued := ?_, hand := ?_, failed := ?_ }
  · intro x hx
    refine (h.queued_or_hand hc hx).imp_right fun heq => ?_
    exact ⟨phase', by rw [heq]; rfl⟩
  · intro x phase₀ hx
    cases hx
    exact h.hand c phase hc
  · intro x hx
    cases hx
    exact hfailed rfl

end

theorem DataInv.takeData (hstep : s.takeData size = some s') :
    s'.DataInv size ∧ s.KeepsRecords size s' := by
  unfold SegCache.takeData at hstep
  split at hstep
  · rename_i c rest htaken hlist
    cases hstep
    have hnodup := h.listNodup
    rw [hlist] at hnodup
    obtain ⟨hnot, hrest⟩ := List.nodup_cons.mp hnodup
    have hsub : ∀ {x}, x ∈ rest → x ∈ s.rewrites.list := fun hx =>
      hlist ▸ List.mem_cons_of_mem c hx
    refine ⟨⟨hrest, h.segNodup, h.liveNodup, h.fresh, h.linked, ?_,
      fun x hx => h.listed x (hsub hx), ?_, nofun, ?_⟩, keepsRecords_of_eq rfl rfl⟩
    · intro x hx
      by_cases hxc : x = c
      · exact .inr ⟨.taken, by rw [hxc]⟩
      · have hq := h.queued_of_idle htaken hx
        rw [hlist] at hq
        exact .inl ⟨(List.mem_cons.mp hq.1).resolve_left hxc, hq.2⟩
    · intro x phase hx
      cases hx
      exact ⟨h.listed c (by simp [hlist]), hnot⟩
    · have hsum := h.sum
      rw [hlist, List.map_cons, List.sum_cons] at hsum
      rw [hsum]
      exact add_sub_cancel_left _ _
  · cases hstep

theorem DataInv.relink (hstep : s.relink = some s') :
    s'.DataInv size ∧ s.KeepsRecords size s' := by
  unfold SegCache.relink at hstep
  split at hstep
  · rename_i c hc
    cases hstep
    have hnot := h.failed c hc
    obtain ⟨hlive, hlist⟩ := h.hand c .failed hc
    have hmem := setDb_mem_concat (b := (s.copies c).db) (d := { s.dbs (s.copies c).db with
      segList := (s.dbs (s.copies c).db).segList ++ [c] }) rfl
    refine ⟨{ h with segNodup := ?_, linked := ?_, queued := ?_, hand := ?_, failed := nofun }, ?_⟩
    · intro x
      simp only [SegCache.setPhase, setDb_segList]
      split
      · exact nodup_concat (h.segNodup _) hnot
      · exact h.segNodup x
    · intro x y hy
      rcases (hmem x y).mp hy with hy | ⟨rfl, rfl⟩
      · exact h.linked x y hy
      · exact ⟨rfl, hlive⟩
    · intro y hy
      rcases h.queued_or_hand hc hy with hq | rfl
      · exact .inl ⟨hq.1, (hmem _ y).mpr (.inl hq.2)⟩
      · exact .inr ⟨.relinked, rfl⟩
    · intro y phase hy
      cases hy
      exact ⟨hlive, hlist⟩
    · refine (setDb_keepsRecords ?_).trans (keepsRecords_of_eq rfl rfl)
      rfl
  · cases hstep

theorem DataInv.requeue (hstep : s.requeue = some s') :
    s'.DataInv size ∧ s.KeepsRecords size s' := by
  unfold SegCache.requeue at hstep
  split at hstep
  · rename_i c hc
    cases hstep
    exact ⟨h.setPhase hc nofun, keepsRecords_of_eq rfl rfl⟩
  · cases hstep

theorem DataInv.rewrite (hc : s.rewrites.taken = some (c, .taken))
    (assigned : Bool) (txg : Nat) (junk : Content) :
    (s.rewrite size c assigned txg junk).DataInv size := by
  unfold SegCache.rewrite
  dsimp only
  rw [← dropCopy_of_not_queued size (h.hand c .taken hc).2]
  split
  · rename_i hno
    refine h.release hc fun b hmem => ?_
    have howner := (h.linked b c hmem).1
    exact hno (howner ▸ hmem)
  · have hinv : (s.dropCopy size (s.copies c).db c).DataInv size := h.dropCopy rfl
    have htaken : (s.dropCopy size (s.copies c).db c).rewrites.taken = some (c, .taken) :=
      dropCopy_taken.trans hc
    have hgone : ∀ x, c ∉ ((s.dropCopy size (s.copies c).db c).dbs x).segList := by
      intro x hmem
      have howner := (hinv.linked x c hmem).1
      rw [dropCopy_copies] at howner
      rw [dropCopy_segList, if_pos howner.symm] at hmem
      exact ((h.segNodup _).mem_erase_iff.mp hmem).1 rfl
    cases assigned with
    | true =>
      have htaken' : ∀ seg, ((s.dropCopy size (s.copies c).db c).dmuWrite size (s.copies c).db seg
          false txg junk).rewrites.taken = some (c, .taken) := by
        intro seg
        rw [(dmuWrite_kept seg false txg junk).data.rewrites, (removeSegCache_frame _).2.1, htaken]
      refine (hinv.dmuWrite _ false txg junk).release (htaken' _) fun x hmem => ?_
      rw [(dmuWrite_kept _ false txg junk).data.segList] at hmem
      exact hgone x ((removeSegCache_frame _).2.2 x c hmem)
    | false =>
      refine hinv.setPhase htaken fun _ => ?_
      exact hgone _

end

end Workers

theorem rewrite_keeps (c : Nat) (assigned : Bool) (txg : Nat) (junk : Content) :
    s.KeepsRecords size (s.rewrite size c assigned txg junk) := by
  have hunlink : s.KeepsRecords size (s.setDb (s.copies c).db { s.dbs (s.copies c).db with
      segList := (s.dbs (s.copies c).db).segList.erase c }) := setDb_keepsRecords rfl
  unfold SegCache.rewrite
  dsimp only
  split
  · exact keepsRecords_of_eq rfl rfl
  · cases assigned with
    | true =>
      exact hunlink.trans ((dmuWrite_keeps _ false txg junk).trans (keepsRecords_of_eq rfl rfl))
    | false => exact hunlink.trans (keepsRecords_of_eq rfl rfl)

structure Inv (size : Nat → UInt64) (s : SegCache) : Prop where
  records : s.RecInv size s.records.taken
  data : s.DataInv size

theorem Inv.keeps (h : s.Inv size) (hd : s'.DataInv size) (hr : s.KeepsRecords size s') :
    s'.Inv size := by
  refine ⟨?_, hd⟩
  rw [hr.taken]
  exact hr.inv _ h.records

theorem Inv.takeRecord (h : s.Inv size) (hstep : s.takeRecord size = some s') : s'.Inv size := by
  unfold SegCache.takeRecord at hstep
  split at hstep
  · rename_i b rest htaken hlist
    cases hstep
    have hrecords := h.records
    rw [htaken] at hrecords
    exact ⟨RecordInv.take hrecords (by simp [hlist]), h.data.same (withRecords_same _)⟩
  · cases hstep

/- The read of the record worker: a dbuf that still has segments must not be left behind. -/
theorem Inv.reread (h : s.Inv size) {ok : Bool}
    (hok : ok = true ∨ ∀ b, s.records.taken = some b → s.has b → b ∈ s.records.list)
    (hstep : s.reread size ok = some s') : s'.Inv size := by
  obtain ⟨b, hb, hs'⟩ := Option.map_eq_some_iff.mp hstep
  have hrecords := h.records
  rw [hb] at hrecords
  have hdata : ({ s with records := { s.records with taken := none } } : SegCache).DataInv size :=
    h.data.same (withRecords_same _)
  cases ok with
  | true =>
    rw [if_pos rfl] at hs'
    subst hs'
    refine ⟨?_, hdata.read b⟩
    rw [read_keeps.taken]
    have hread := read_recInv (s := { s with records := { s.records with taken := none } })
      hrecords b
    rw [if_pos rfl] at hread
    exact hread
  | false =>
    subst hs'
    have hok := hok.resolve_left Bool.false_ne_true
    exact ⟨{ hrecords with listed := fun x hx => .inl ((hrecords.listed x hx).elim id fun heq =>
      hok x (hb.trans heq) hx) }, hdata⟩

/- A read error of the record worker finds no segments that only this read would have taken. -/
def ReadsBack (s : SegCache) : SegAction → Prop
  | .reread ok => ok = true ∨ ∀ b, s.records.taken = some b → s.has b → b ∈ s.records.list
  | _ => True

theorem Inv.step (h : s.Inv size) {a : SegAction} (hok : s.ReadsBack a)
    (hstep : s.step size a = some s') : s'.Inv size := by
  cases a with
  | write b seg kept txg junk =>
    simp only [SegCache.step] at hstep
    split at hstep
    · cases hstep
      exact h.keeps (h.data.dmuWrite seg kept txg junk) (dmuWrite_keeps seg kept txg junk)
    · cases hstep
  | read b =>
    cases hstep
    exact h.keeps (h.data.read b) read_keeps
  | free b older =>
    cases hstep
    exact h.keeps (h.data.same (free_kept older).data) (free_kept older).records
  | sync b =>
    cases hstep
    exact h.keeps (h.data.same (setDb_same rfl)) (setDb_keepsRecords rfl)
  | evict b =>
    simp only [SegCache.step] at hstep
    split at hstep
    · cases hstep
    · cases hstep
      exact h.keeps (h.data.same (setDb_same rfl)) (setDb_keepsRecords rfl)
  | takeRecord => exact h.takeRecord hstep
  | reread ok => exact h.reread hok hstep
  | takeData => exact h.keeps (h.data.takeData hstep).1 (h.data.takeData hstep).2
  | rewrite assigned txg junk =>
    simp only [SegCache.step] at hstep
    split at hstep
    · rename_i c hc
      cases hstep
      exact h.keeps (h.data.rewrite hc assigned txg junk) (rewrite_keeps c assigned txg junk)
    · cases hstep
  | relink => exact h.keeps (h.data.relink hstep).1 (h.data.relink hstep).2
  | requeue => exact h.keeps (h.data.requeue hstep).1 (h.data.requeue hstep).2

theorem start_inv (disk : Nat → Content) : (start disk).Inv size := by
  exact ⟨⟨List.nodup_nil, nofun, nofun, rfl⟩, ⟨List.nodup_nil, fun _ => List.nodup_nil,
    List.nodup_nil, nofun, nofun, nofun, nofun, nofun, nofun, rfl⟩⟩

/- Neither worker has anything in hand. -/
def Idle (s : SegCache) : Prop := s.records.taken = none ∧ s.rewrites.taken = none

structure Scheduled (size : Nat → UInt64) (s : SegCache) : Prop where
  segments : ∀ b, (s.dbs b).hasSegments → b ∈ s.records.list
  copies : ∀ c ∈ s.live, c ∈ s.rewrites.list ∧ c ∈ (s.dbs (s.copies c).db).segList
  recordData : s.records.data = (s.records.list.map size).sum
  rewriteData : s.rewrites.data = (s.rewrites.list.map fun c => size (s.copies c).db).sum

theorem Inv.scheduled (h : s.Inv size) (hidle : s.Idle) : s.Scheduled size := by
  refine ⟨fun b hb => (h.records.listed b hb).resolve_right ?_,
    fun c hc => h.data.queued_of_idle hidle.2 hc, h.records.sum, h.data.sum⟩
  simp [hidle.1]

end SegCache

/-- While no worker has anything in hand, all segments and copies are on the lists that lead to
their writing, and the sizes of the lists are right. -/
theorem segcache_scheduled (size : Nat → UInt64) (disk : Nat → Content) (s : SegCache)
    (h : Reach (SegCache.step size) SegCache.ReadsBack (SegCache.start disk) s)
    (hidle : s.Idle) : s.Scheduled size := by
  have hinv := Reach.invariant (SegCache.start_inv disk)
    (fun _ _ _ hs hok hstep => hs.step hok hstep) h
  exact hinv.scheduled hidle

namespace SegCache

/- Blocks of four bytes, and a write of the first two. -/
def fourBytes : Nat → UInt64 := fun _ => 4
def firstTwo : Seg := ⟨0, 2, fun _ => 7⟩

end SegCache

/-- A partial write is kept, the record worker takes the block and cannot read it: the segment
stays, and no list has the block. -/
theorem segcache_read_error : ∃ s, Reach (SegCache.step SegCache.fourBytes) (fun _ _ => True)
    (SegCache.start fun _ _ => 0) s ∧ s.Idle ∧ ¬ s.Scheduled SegCache.fourBytes := by
  have hrun : Reach (SegCache.step SegCache.fourBytes) (fun _ _ => True)
      (SegCache.start fun _ _ => 0) _ :=
    .next (a := .reread false)
      (.next (a := .takeRecord)
        (.next (a := .write 0 SegCache.firstTwo true 5 fun _ => 0) .start trivial rfl)
        trivial rfl)
      trivial rfl
  refine ⟨_, hrun, ⟨rfl, rfl⟩, ?_⟩
  intro h
  have hlisted := h.segments 0 rfl
  cases hlisted

/-- The same with a read that succeeds: a copy of the block is queued. -/
theorem segcache_scheduled_read : ∃ s, Reach (SegCache.step SegCache.fourBytes) SegCache.ReadsBack
    (SegCache.start fun _ _ => 0) s ∧ s.live = [0] ∧ s.Scheduled SegCache.fourBytes := by
  have hrun : Reach (SegCache.step SegCache.fourBytes) SegCache.ReadsBack
      (SegCache.start fun _ _ => 0) _ :=
    .next (a := .reread true)
      (.next (a := .takeRecord)
        (.next (a := .write 0 SegCache.firstTwo true 5 fun _ => 0) .start trivial rfl)
        trivial rfl)
      (.inl rfl) rfl
  exact ⟨_, hrun, rfl, segcache_scheduled SegCache.fourBytes _ _ hrun ⟨rfl, rfl⟩⟩

end ClusterZfs

import ClusterZfs.SpaceMap.RoundTrip
import Mathlib.Order.Lattice.Nat

/-! Walks over a range tree, and the trees that a space map logs. -/
namespace ClusterZfs

namespace RangeSet

/- The segments of offsets in increasing order. -/
def segsOfList : List Nat → List RangeSeg
  | [] => []
  | x :: xs =>
    match segsOfList xs with
    | [] => [⟨x, x + 1⟩]
    | s :: rest =>
      if s.rsStart = x + 1 then ⟨x, s.rsEnd⟩ :: rest else ⟨x, x + 1⟩ :: s :: rest

/- The offsets of a tree in increasing order; a segment ends inside the 64-bit space. -/
def offsets (c : RangeSet) : List Nat :=
  (List.range (min (c.sup (· + 1)) (2 ^ 64 - 1))).filter (· ∈ c)

def segs (c : RangeSet) : List RangeSeg := segsOfList c.offsets

/- `range_tree_walk`, and `range_tree_vacate` with a callback: there the segments come in the order
of `avl_destroy_nodes`, on which the sets below do not depend. -/
def walk (c : RangeSet) (func : RangeSet → Nat → Nat → Option RangeSet) (arg : RangeSet) :
    Option RangeSet :=
  c.segs.foldlM (fun arg s => func arg s.rsStart s.size) arg

end RangeSet

section Segs

variable {l : List Nat}

theorem segsOfList_head {x : Nat} {xs : List Nat} :
    ∃ s rest, RangeSet.segsOfList (x :: xs) = s :: rest ∧ s.rsStart = x := by
  rw [RangeSet.segsOfList]
  split
  · exact ⟨_, _, rfl, rfl⟩
  · split <;> exact ⟨_, _, rfl, rfl⟩

/-- The segments have gaps between them and cover the offsets. -/
theorem segsOfList_spec (hl : l.Pairwise (· < ·)) (hbound : ∀ x ∈ l, x + 1 < 2 ^ 64) :
    Gapped (RangeSet.segsOfList l) ∧ ∀ x, Covers (RangeSet.segsOfList l) x ↔ x ∈ l := by
  induction l with
  | nil =>
    exact ⟨⟨List.forall_mem_nil _, List.Pairwise.nil⟩, fun x => by simp [RangeSet.segsOfList]⟩
  | cons x xs ih =>
    obtain ⟨hfirst, hxs⟩ := List.pairwise_cons.mp hl
    obtain ⟨hgapped, hcov⟩ := ih hxs fun y hy => hbound y (List.mem_cons_of_mem x hy)
    have hx := hbound x List.mem_cons_self
    cases xs with
    | nil =>
      have hone : RangeSet.segsOfList [x] = [⟨x, x + 1⟩] := rfl
      rw [hone]
      refine ⟨⟨List.forall_mem_singleton.mpr ⟨Nat.lt_succ_self x, hx⟩,
        List.pairwise_singleton ..⟩, fun y => ?_⟩
      simp [RangeSeg.Mem]
      omega
    | cons y ys =>
      obtain ⟨s, rest, hsegs, hstart⟩ := @segsOfList_head y ys
      have hxy := hfirst y List.mem_cons_self
      rw [hsegs] at hgapped hcov
      have hcons : RangeSet.segsOfList (x :: y :: ys) =
          if s.rsStart = x + 1 then ⟨x, s.rsEnd⟩ :: rest else ⟨x, x + 1⟩ :: s :: rest := by
        rw [RangeSet.segsOfList, hsegs]
      obtain ⟨hafter, hgaps⟩ := List.pairwise_cons.mp hgapped.gaps
      have hs := hgapped.bounds s List.mem_cons_self
      rw [hcons]
      split
      · -- the offset joins the segment that starts right after it
        refine ⟨⟨List.forall_mem_cons.mpr ⟨⟨by dsimp only; omega, hs.2⟩, hgapped.tail.bounds⟩,
          List.pairwise_cons.mpr ⟨hafter, hgaps⟩⟩, fun z => ?_⟩
        rw [List.mem_cons, ← hcov z, Covers_cons, Covers_cons, ← or_assoc]
        refine or_congr_left ?_
        simp only [RangeSeg.Mem]
        omega
      · refine ⟨⟨List.forall_mem_cons.mpr ⟨⟨Nat.lt_succ_self x, hx⟩, hgapped.bounds⟩,
          List.pairwise_cons.mpr ⟨List.forall_mem_cons.mpr ⟨?_, fun t ht => ?_⟩, hgapped.gaps⟩⟩,
          fun z => ?_⟩
        · dsimp only
          omega
        · have := hafter t ht
          dsimp only
          omega
        · rw [List.mem_cons, ← hcov z, Covers_cons]
          refine or_congr_left ?_
          simp only [RangeSeg.Mem]
          omega

variable {c : RangeSet}

theorem offsets_sorted (c : RangeSet) : c.offsets.Pairwise (· < ·) :=
  List.Pairwise.filter _ List.pairwise_lt_range

theorem mem_offsets {x : Nat} : x ∈ c.offsets ↔ x ∈ c ∧ x + 1 < 2 ^ 64 := by
  rw [RangeSet.offsets, List.mem_filter, List.mem_range, lt_min_iff, decide_eq_true_eq]
  constructor
  · rintro ⟨⟨-, hx⟩, hc⟩
    exact ⟨hc, by omega⟩
  · rintro ⟨hc, hx⟩
    have hle : x + 1 ≤ c.sup (· + 1) := Finset.le_sup (f := (· + 1)) hc
    exact ⟨⟨by omega, by omega⟩, hc⟩

theorem segs_spec (c : RangeSet) :
    Gapped c.segs ∧ ∀ x, Covers c.segs x ↔ x ∈ c ∧ x + 1 < 2 ^ 64 := by
  obtain ⟨hgapped, hcov⟩ := segsOfList_spec (offsets_sorted c) fun x hx => (mem_offsets.mp hx).2
  exact ⟨hgapped, fun x => (hcov x).trans mem_offsets⟩

end Segs

/- The segments of a tree for `space_map_write`. -/
def RangeSet.segList (c : RangeSet) : SegList := ⟨c.segs, (segs_spec c).1⟩

section Walks

variable {c rt : RangeSet} {r : MapRegion} {l : List RangeSeg}

theorem MapRegion.segSet_segs (h : c ⊆ r.range) : segSet c.segs = c := by
  ext x
  rw [← mem_segSet, (segs_spec c).2]
  refine ⟨And.left, fun hx => ?_⟩
  have hr := Finset.mem_Ico.mp (h hx)
  have hbound := r.bound
  exact ⟨hx, by omega⟩

theorem foldlM_op (mt : Maptype) (hl : Gapped l) (h : mt.Fits rt (segSet l)) :
    l.foldlM (fun arg s => mt.op arg s.rsStart s.size) rt = some (mt.apply rt (segSet l)) := by
  induction l generalizing rt with
  | nil => cases mt <;> simp [segSet, Maptype.apply]
  | cons s l ih =>
    have hs := (hl.bounds s List.mem_cons_self).1
    have hcons : segSet (s :: l) = Finset.Ico s.rsStart (s.rsStart + s.size) ∪ segSet l := by
      rw [RangeSeg.size, Nat.add_sub_cancel' hs.le]
      rfl
    have hdisj : Disjoint (Finset.Ico s.rsStart (s.rsStart + s.size)) (segSet l) := by
      rw [RangeSeg.size, Nat.add_sub_cancel' hs.le]
      exact segSet_cons_disjoint hl
    rw [hcons] at h ⊢
    obtain ⟨hfirst, hlast⟩ := Maptype.fits_union hdisj h
    have hsize : 0 < s.size := Nat.sub_pos_of_lt hs
    rw [List.foldlM_cons, mt.op_eq hsize hfirst, Maptype.apply_union]
    exact ih hl.tail hlast

theorem walk_op (mt : Maptype) (hc : c ⊆ r.range) (h : mt.Fits rt c) :
    c.walk mt.op rt = some (mt.apply rt c) := by
  have hset := MapRegion.segSet_segs hc
  have hrun := foldlM_op mt (segs_spec c).1 (hset.symm ▸ h)
  rwa [hset] at hrun

theorem walk_remove (hc : c ⊆ r.range) (h : c ⊆ rt) : c.walk RangeSet.remove rt = some (rt \ c) :=
  walk_op .free hc h

theorem walk_add (hc : c ⊆ r.range) (h : Disjoint rt c) :
    c.walk RangeSet.add rt = some (rt ∪ c) :=
  walk_op .alloc hc h

theorem foldlM_walk_remove {trees : List RangeSet} (hr : ∀ c ∈ trees, c ⊆ r.range)
    (hsub : ∀ c ∈ trees, c ⊆ rt) (hdisj : trees.Pairwise Disjoint) :
    ∃ rt', trees.foldlM (fun rt c => RangeSet.walk c RangeSet.remove rt) rt = some rt' ∧
      ∀ x, x ∈ rt' ↔ x ∈ rt ∧ ∀ c ∈ trees, x ∉ c := by
  induction trees generalizing rt with
  | nil => exact ⟨rt, rfl, fun x => by simp⟩
  | cons c trees ih =>
    obtain ⟨hfirst, hrest⟩ := List.pairwise_cons.mp hdisj
    have hwalk := walk_remove (hr c List.mem_cons_self) (hsub c List.mem_cons_self)
    have hsub' : ∀ d ∈ trees, d ⊆ rt \ c := fun d hd x hx => Finset.mem_sdiff.mpr
      ⟨hsub d (List.mem_cons_of_mem c hd) hx,
        fun hc => Finset.disjoint_left.mp (hfirst d hd) hc hx⟩
    obtain ⟨rt', hrun, hmem⟩ := ih (fun d hd => hr d (List.mem_cons_of_mem c hd)) hsub' hrest
    refine ⟨rt', ?_, fun x => ?_⟩
    · rw [List.foldlM_cons, hwalk]
      exact hrun
    · rw [hmem, Finset.mem_sdiff, List.forall_mem_cons, and_assoc]

theorem div_pred {k n : Nat} (h : ¬ k ∣ n) : (n - 1) / k = n / k := by
  obtain ⟨m, rfl⟩ := Nat.exists_eq_succ_of_ne_zero fun h0 : n = 0 => h (h0 ▸ dvd_zero k)
  exact (Nat.succ_div_of_not_dvd h).symm

theorem segs_loggable (hc : c ⊆ r.range)
    (hunit : ∀ x y, x ∈ c → y / 2 ^ r.smShift = x / 2 ^ r.smShift → y ∈ c) :
    r.Loggable c.segs := by
  have hset := MapRegion.segSet_segs hc
  have hmem : ∀ x, x ∈ c ↔ Covers c.segs x := fun x => by rw [mem_segSet, hset]
  intro s hs
  obtain ⟨B, A, hsplit⟩ := List.append_of_mem hs
  rw [List.append_cons] at hsplit
  have hgapped := (segs_spec c).1
  rw [hsplit] at hgapped
  obtain ⟨hne, -⟩ := hgapped.bounds s (by simp)
  have hin : ∀ x, s.rsStart ≤ x → x < s.rsEnd → x ∈ c := fun x h1 h2 =>
    (hmem x).mpr ⟨s, hs, h1, h2⟩
  -- a segment that touches this one is this one
  have hout : ∀ x, x ∈ c → x + 1 = s.rsStart ∨ x = s.rsEnd → False := by
    intro x hx htouch
    obtain ⟨t, ht, hlo, hhi⟩ := (hmem x).mp hx
    rw [hsplit] at ht
    have heq := hgapped.unique rfl ht (by omega)
    subst heq
    omega
  have hlast := Finset.mem_Ico.mp (hc (hin (s.rsEnd - 1) (by omega) (by omega)))
  have hfirst := Finset.mem_Ico.mp (hc (hin s.rsStart le_rfl hne))
  refine ⟨?_, ?_, hfirst.1, by omega⟩
  · by_contra hno
    have h0 : s.rsStart ≠ 0 := fun h0 => hno (h0 ▸ dvd_zero _)
    exact hout (s.rsStart - 1) (hunit _ _ (hin s.rsStart le_rfl hne) (div_pred hno))
      (.inl (by omega))
  · by_contra hno
    exact hout s.rsEnd (hunit _ _ (hin (s.rsEnd - 1) (by omega) (by omega)) (div_pred hno).symm)
      (.inr rfl)

end Walks

section Units

variable {r : MapRegion} {c c' : RangeSet} {mt : Maptype} {k : Nat}

/- The set is made of whole units. -/
def RangeSet.Whole (k : Nat) (c : RangeSet) : Prop := ∀ x y, y / k = x / k → (y ∈ c ↔ x ∈ c)

theorem mem_Ico_units {k a b x y : Nat} (hk : 0 < k) (h : y / k = x / k) :
    y ∈ Finset.Ico (k * a) (k * b) ↔ x ∈ Finset.Ico (k * a) (k * b) := by
  rw [Finset.mem_Ico, Finset.mem_Ico, Nat.mul_comm k a, Nat.mul_comm k b,
    ← Nat.le_div_iff_mul_le hk, ← Nat.le_div_iff_mul_le hk, ← Nat.div_lt_iff_lt_mul hk,
    ← Nat.div_lt_iff_lt_mul hk, h]

theorem RangeSet.Whole.of_phased {offset size : Nat} (hk : 0 < k) (hoffset : offset % k = 0)
    (hsize : size % k = 0) : RangeSet.Whole k (Finset.Ico offset (offset + size)) := by
  obtain ⟨a, ha⟩ := Nat.dvd_of_mod_eq_zero hoffset
  obtain ⟨b, hb⟩ := Nat.dvd_of_mod_eq_zero hsize
  intro x y h
  rw [ha, hb, ← Nat.mul_add]
  exact mem_Ico_units hk h

theorem loadEntry_whole {e : Nat} (h : c.Whole (2 ^ r.smShift))
    (hstep : spaceMapLoadEntry r mt c e = some c') : c'.Whole (2 ^ r.smShift) := by
  simp only [spaceMapLoadEntry] at hstep
  split at hstep
  · cases hstep
    exact h
  · split at hstep
    · cases hstep
    · rename_i hchecks
      obtain ⟨hoffset, hsize, -⟩ := not_or.mp hchecks |>.imp_right not_or.mp
      have hrange := RangeSet.Whole.of_phased (Nat.two_pow_pos _) (not_not.mp hoffset)
        (not_not.mp hsize)
      split at hstep
      · split at hstep
        · cases hstep
        · rw [RangeSet.add] at hstep
          obtain ⟨-, heq⟩ := Option.ite_none_left_eq_some.mp hstep
          cases heq
          intro x y hxy
          rw [Finset.mem_union, Finset.mem_union, h x y hxy, hrange x y hxy]
      · rw [RangeSet.remove] at hstep
        obtain ⟨-, heq⟩ := Option.ite_none_left_eq_some.mp hstep
        cases heq
        intro x y hxy
        rw [Finset.mem_sdiff, Finset.mem_sdiff, h x y hxy, hrange x y hxy]

theorem SpaceMap.Records.whole {sm : SpaceMap} {A : RangeSet} (h : sm.Records A) :
    A.Whole (2 ^ sm.region.smShift) := by
  obtain ⟨log, -, hrep⟩ := h.log
  have hload := hrep.load .alloc
  have hfold : ∀ (log : List Nat) (c c' : RangeSet), c.Whole (2 ^ sm.region.smShift) →
      log.foldlM (spaceMapLoadEntry sm.region .alloc) c = some c' →
        c'.Whole (2 ^ sm.region.smShift) := by
    intro log
    induction log with
    | nil =>
      intro c c' hc hrun
      cases hrun
      exact hc
    | cons e log ih =>
      intro c c' hc hrun
      rw [List.foldlM_cons] at hrun
      obtain ⟨c₁, hstep, hrest⟩ := Option.bind_eq_some_iff.mp hrun
      exact ih c₁ c' (loadEntry_whole hc hstep) hrest
  exact hfold log _ _ (fun x y _ => by simp [MapRegion.view]) hload

end Units

/- The part of the log that a load reads: what was written before the last `space_map_update`. -/
def SpaceMap.inCore (sm : SpaceMap) : SpaceMap :=
  { sm with smpObjsize := sm.smLength, smpAlloc := sm.smAlloc }

/- What a write does to the map it is given: words are appended, and the part that a load reads
stays. -/
structure SpaceMap.Extends (sm sm' : SpaceMap) : Prop where
  region : sm'.region = sm.region
  length : sm'.smLength = sm.smLength
  alloc : sm'.smAlloc = sm.smAlloc
  objsize : sm.smpObjsize ≤ sm'.smpObjsize
  words : ∀ i, 8 * i + 8 ≤ sm.smpObjsize → sm'.object i = sm.object i

section InCore

variable {sm sm' sm'' : SpaceMap} {S : RangeSet} {mt : Maptype} (w : EntryMap)

theorem SpaceMap.Extends.refl (sm : SpaceMap) : sm.Extends sm :=
  ⟨rfl, rfl, rfl, le_rfl, fun _ _ => rfl⟩

theorem SpaceMap.Extends.trans (h : sm.Extends sm') (h' : sm'.Extends sm'') : sm.Extends sm'' where
  region := h'.region.trans h.region
  length := h'.length.trans h.length
  alloc := h'.alloc.trans h.alloc
  objsize := h.objsize.trans h'.objsize
  words i hi := (h'.words i (hi.trans h.objsize)).trans (h.words i hi)

theorem EntryMap.flush_extends (size : Nat) : w.sm.Extends (w.flush size).sm where
  region := rfl
  length := rfl
  alloc := rfl
  objsize := Nat.le_add_right _ _
  words i hi := by
    rw [EntryMap.flush]
    dsimp only
    rw [dmuWrite, if_neg (by omega)]

theorem EntryMap.put_extends (entry : Nat) : w.sm.Extends (w.put entry).sm := by
  rw [EntryMap.put]
  split
  · exact w.flush_extends _
  · exact .refl _

theorem EntryMap.putRuns_extends {fuel start size : Nat} {w w' : EntryMap}
    (h : EntryMap.putRuns mt fuel w start size = some w') : w.sm.Extends w'.sm := by
  induction fuel generalizing w start size with
  | zero =>
    obtain ⟨-, heq⟩ := Option.ite_none_right_eq_some.mp h
    cases heq
    exact .refl _
  | succ fuel ih =>
    rw [EntryMap.putRuns] at h
    split at h
    · cases h
      exact .refl _
    · exact (w.put_extends _).trans (ih h)

theorem EntryMap.putSegs_extends {l : List RangeSeg} {w w' : EntryMap} {total total' : Nat}
    (h : EntryMap.putSegs mt l w total = some (w', total')) : w.sm.Extends w'.sm := by
  induction l generalizing w total with
  | nil =>
    cases h
    exact .refl _
  | cons s l ih =>
    rw [EntryMap.putSegs] at h
    obtain ⟨w₁, hput, hrest⟩ := Option.bind_eq_some_iff.mp h
    exact (EntryMap.putRuns_extends hput).trans (ih hrest)

theorem spaceMapWrite_extends {rt : SegList} {syncpass txg : Nat}
    (h : spaceMapWrite sm rt mt syncpass txg = some sm') : sm.Extends sm' := by
  rw [spaceMapWrite] at h
  split at h
  · cases h
    exact .refl _
  · obtain ⟨⟨w, total⟩, hput, hlast⟩ := Option.bind_eq_some_iff.mp h
    have hext := EntryMap.putSegs_extends hput
    have haccount : sm.Extends (sm.account mt (spaceOf rt.segs)) :=
      ⟨rfl, rfl, rfl, le_rfl, fun _ _ => rfl⟩
    obtain ⟨-, heq⟩ := Option.ite_none_right_eq_some.mp hlast
    cases heq
    split
    · exact (haccount.trans hext).trans (w.flush_extends _)
    · exact haccount.trans hext

theorem SpaceMap.Extends.inCore_records (h : sm.Extends sm') (hle : sm.smLength ≤ sm.smpObjsize)
    (hrec : sm.inCore.Records S) : sm'.inCore.Records S := by
  obtain ⟨⟨log, hlogged, hrep⟩, halloc⟩ := hrec
  have hlen : sm.smLength = 8 * log.length := hlogged.length
  refine ⟨⟨log, ⟨h.length.trans hlen, fun i hi => ?_⟩, ?_⟩, h.alloc.trans halloc⟩
  · exact (h.words i (by omega)).trans (hlogged.words i hi)
  · have hregion : sm'.inCore.region = sm.inCore.region := h.region
    rw [hregion]
    exact hrep

theorem SpaceMap.Records.update (h : sm.Records S) :
    (spaceMapUpdate sm).Records S ∧ (spaceMapUpdate sm).inCore.Records S := by
  obtain ⟨⟨log, hlogged, hrep⟩, halloc⟩ := h
  exact ⟨⟨⟨log, ⟨hlogged.length, hlogged.words⟩, hrep⟩, halloc⟩,
    ⟨⟨log, ⟨hlogged.length, hlogged.words⟩, hrep⟩, halloc⟩⟩

theorem loadLoop_inCore (sm : SpaceMap) (mt : Maptype) (dmuError : Nat → Nat) (fuel offset : Nat)
    (rt : RangeSet) : spaceMapLoadLoop (spaceMapUpdate sm.inCore) mt dmuError fuel offset rt =
      spaceMapLoadLoop sm mt dmuError fuel offset rt := by
  induction fuel generalizing offset rt with
  | zero => rfl
  | succ fuel ih =>
    rw [spaceMapLoadLoop, spaceMapLoadLoop]
    have hnext := funext fun rt => ih (offset + max sm.region.smBlksz 512) rt
    change (if offset < sm.smLength then _ else _) = _
    dsimp only [spaceMapUpdate, SpaceMap.inCore] at hnext ⊢
    rw [hnext]

theorem spaceMapLoad_inCore (sm : SpaceMap) (rt : RangeSet) (mt : Maptype) (dmuError : Nat → Nat) :
    spaceMapLoad (spaceMapUpdate sm.inCore) rt mt dmuError = spaceMapLoad sm rt mt dmuError := by
  rw [spaceMapLoad, spaceMapLoad]
  simp only [loadLoop_inCore]
  rfl

theorem loadLoop_error (sm : SpaceMap) (mt : Maptype) (dmuError : Nat → Nat) (fuel offset : Nat)
    (rt : RangeSet) : spaceMapLoadLoop sm mt dmuError fuel offset rt =
        spaceMapLoadLoop sm mt (fun _ => 0) fuel offset rt ∨
      ∃ error rt', error ≠ 0 ∧
        spaceMapLoadLoop sm mt dmuError fuel offset rt = some (error, rt') := by
  induction fuel generalizing offset rt with
  | zero => exact .inl rfl
  | succ fuel ih =>
    simp only [spaceMapLoadLoop]
    split
    · split
      · exact .inl rfl
      · by_cases herror : dmuError offset = 0
        · simp only [herror, ne_eq, not_true_eq_false, if_false]
          cases (dmuRead sm.object offset
              (min (sm.smLength - offset) (max sm.region.smBlksz 512))).foldlM
            (spaceMapLoadEntry sm.region mt) rt with
          | none => exact .inl rfl
          | some rt₁ => exact ih (offset + max sm.region.smBlksz 512) rt₁
        · rw [if_pos herror]
          exact .inr ⟨_, _, herror, rfl⟩
    · exact .inl rfl

/-- A load of a map in use: what was written before the last update, or an error of a read. -/
theorem spaceMapLoad_cases (h : sm.inCore.Records S) (mt : Maptype) (dmuError : Nat → Nat) :
    spaceMapLoad sm ∅ mt dmuError = some (0, sm.region.view mt S) ∨
      ∃ error, error ≠ 0 ∧ spaceMapLoad sm ∅ mt dmuError = some (error, ∅) := by
  have hclean := spaceMapLoad_records h mt
  rw [spaceMapLoad_inCore] at hclean
  have hstart := sm.region.view_start mt
  rcases loadLoop_error sm mt dmuError (sm.smLength + 1) 0 (sm.region.view mt ∅) with
    hsame | ⟨error, rt, herror, hrun⟩
  · left
    rw [spaceMapLoad, if_neg (by simp)] at hclean ⊢
    simp only [hstart, Option.bind_some, hsame] at hclean ⊢
    exact hclean
  · right
    refine ⟨error, herror, ?_⟩
    rw [spaceMapLoad, if_neg (by simp)]
    simp [hstart, hrun, if_neg herror]

end InCore

end ClusterZfs

import ClusterZfs.RangeTree.Ops
import ClusterZfs.Lib.Runs
import Mathlib.Order.Interval.Finset.Nat

/-! Range trees as sets over whole runs of their callers. -/
namespace ClusterZfs

open AvlTree

section Clear

variable {rt : RangeTree} {t : AvlTree Addr} {start size : Nat}

theorem RangeTree.Holds.unique (h : rt.Holds t) {a b : Addr} (ha : a ∈ t.toList)
    (hb : b ∈ t.toList) {x : Nat} (hax : (rt.segs a).Mem x) (hbx : (rt.segs b).Mem x) :
    rt.segs b = rt.segs a := by
  obtain ⟨bs, as, hcut⟩ := List.append_of_mem ha
  have hmap : t.toList.map rt.segs = bs.map rt.segs ++ [rt.segs a] ++ as.map rt.segs := by
    simp [hcut]
  have hgapped := h.gapped
  have hmem : rt.segs b ∈ t.toList.map rt.segs := List.mem_map_of_mem hb
  rw [hmap] at hgapped hmem
  obtain ⟨h1, h2⟩ := hax
  obtain ⟨h3, h4⟩ := hbx
  exact hgapped.unique rfl hmem ⟨by omega, by omega⟩

/-- The loop of `range_tree_clear`: each turn takes a part of the range away, and the last one that
needs a new segment leaves nothing of it. -/
theorem rangeTreeClearLoop_holds {new tmp : Addr} {fuel : Nat} {content : Finset Nat}
    (h : rt.Holds t) (hsize : 0 < size) (hstop : start + size < 2 ^ 64)
    (hcontent : ∀ x, Covers (t.toList.map rt.segs) x ↔ x ∈ content)
    (hunused : Unused t new ∧ Unused t tmp ∨ Disjoint content (Finset.Ico start (start + size)))
    (hfuel : (content ∩ Finset.Ico start (start + size)).card < fuel) :
    ∃ rt' t', rangeTreeClearLoop new tmp start size fuel rt = some rt' ∧ rt'.Holds t' ∧
      ∀ x, Covers (t'.toList.map rt'.segs) x ↔ x ∈ content \ Finset.Ico start (start + size) := by
  induction fuel generalizing rt t content with
  | zero => omega
  | succ fuel ih =>
    have hmod : uint64 (start + size) = start + size := Nat.mod_eq_of_lt hstop
    have hne : start < start + size := Nat.lt_add_of_pos_right hsize
    rw [rangeTreeClearLoop, rangeTreeFindImpl, if_neg hsize.ne', hmod]
    rcases h.search hne with ⟨bs, a, as, hcut, hfind, hlt, hgt⟩ | ⟨ctx, rfl, hfind, hbefore, hafter⟩
    · have hmem : a ∈ t.toList := by simp [hcut]
      have hb := h.seg_bounds hmem
      have hmin : (rt.segs a).Mem (max (rt.segs a).rsStart start) := ⟨by omega, by omega⟩
      -- the part of the segment that is in the range
      set lo := max (rt.segs a).rsStart start with hlo
      set hi := min (rt.segs a).rsEnd (start + size) with hhi
      have hlohi : lo < hi := by omega
      have hsum : lo + (hi - lo) = hi := by omega
      have hin : lo ∈ content ∩ Finset.Ico start (start + size) := by
        rw [Finset.mem_inter, Finset.mem_Ico, ← hcontent]
        exact ⟨⟨rt.segs a, List.mem_map_of_mem hmem, hmin⟩, by omega, by omega⟩
      obtain ⟨hnew, htmp⟩ := hunused.resolve_right fun hdisj =>
        Finset.disjoint_left.mp hdisj (Finset.mem_inter.mp hin).1 (Finset.mem_inter.mp hin).2
      obtain ⟨rt₁, t₁, hrun, hholds, hcovers, hnodes⟩ := rangeTreeRemove_holds lo (hi - lo) h
        hnew htmp (by omega) (by omega) fun x hx1 hx2 =>
          ⟨rt.segs a, List.mem_map_of_mem hmem, ⟨by omega, by omega⟩⟩
      rw [hsum] at hcovers hnodes
      have hcontent₁ : ∀ x, Covers (t₁.toList.map rt₁.segs) x ↔ x ∈ content \ Finset.Ico lo hi := by
        intro x
        rw [hcovers, hcontent, Finset.mem_sdiff, Finset.mem_Ico]
      have hunused₁ : Unused t₁ new ∧ Unused t₁ tmp ∨
          Disjoint (content \ Finset.Ico lo hi) (Finset.Ico start (start + size)) := by
        rcases hnodes with hsub | ⟨c, hc, hcin⟩
        · exact .inl ⟨hnew.mono hsub, htmp.mono hsub⟩
        · -- the segment goes beyond the range on both sides
          have hseg := h.unique hmem hc hmin ⟨by omega, by omega⟩
          rw [hseg] at hcin
          have hwhole : Finset.Ico lo hi = Finset.Ico start (start + size) := by
            congr 1 <;> omega
          rw [hwhole]
          exact .inr Finset.sdiff_disjoint
      have hless :
          ((content \ Finset.Ico lo hi) ∩ Finset.Ico start (start + size)).card < fuel := by
        have hcard : ((content \ Finset.Ico lo hi) ∩ Finset.Ico start (start + size)).card <
            (content ∩ Finset.Ico start (start + size)).card := by
          refine Finset.card_lt_card (Finset.ssubset_iff_of_subset ?_ |>.mpr ⟨lo, hin, ?_⟩)
          · exact Finset.inter_subset_inter_right Finset.sdiff_subset
          · intro hlomem
            have := (Finset.mem_sdiff.mp (Finset.mem_inter.mp hlomem).1).2
            exact this (Finset.mem_Ico.mpr ⟨le_rfl, hlohi⟩)
        omega
      obtain ⟨rt', t', hloop, hholds', hcovers'⟩ := ih hholds hcontent₁ hunused₁ hless
      refine ⟨rt', t', ?_, hholds', fun x => ?_⟩
      · rw [hfind, Option.bind_some]
        dsimp only
        rw [← hhi, ← hlo, hrun, Option.bind_some, hloop]
      · rw [hcovers']
        simp only [Finset.mem_sdiff, Finset.mem_Ico]
        exact ⟨fun ⟨⟨hx, _⟩, hout⟩ => ⟨hx, hout⟩, fun ⟨hx, hout⟩ => ⟨⟨hx, by omega⟩, hout⟩⟩
    · refine ⟨rt, plug ctx nil, by rw [hfind]; rfl, h, fun x => ?_⟩
      rw [hcontent, Finset.mem_sdiff, Finset.mem_Ico]
      refine ⟨fun hx => ⟨hx, fun hrange => ?_⟩, And.left⟩
      exact not_covers_between hbefore hafter hrange ((hcontent x).mpr hx)

end Clear

/- The trees a caller holds, each next to the set it stands for. -/
structure RangeTrees (ι : Type) where
  tree : ι → RangeTree
  content : ι → Finset Nat

inductive RangeCall (ι : Type) where
  | add (i : ι) (new tmp : Addr) (start size : Nat)
  | remove (i : ι) (new tmp : Addr) (start size : Nat)
  | clear (i : ι) (new tmp : Addr) (start size : Nat)
  | swap (i j : ι)
  | vacate (i : ι)

section Runs

variable {ι : Type}

/- `a` comes from an allocator: it is not in use. -/
def RangeTree.Fresh (rt : RangeTree) (a : Addr) : Prop :=
  a ≠ 0#64 ∧ Aligned a ∧ ∀ t, rt.rtRoot.Holds t → a ∉ t.toList

def RangeCall.Allowed (s : RangeTrees ι) : RangeCall ι → Prop
  | add i new tmp start size =>
    0 < size ∧ start + size < 2 ^ 64 ∧ (s.tree i).Fresh new ∧ (s.tree i).Fresh tmp ∧
      Disjoint (s.content i) (Finset.Ico start (start + size))
  | remove i new tmp start size =>
    0 < size ∧ start + size < 2 ^ 64 ∧ (s.tree i).Fresh new ∧ (s.tree i).Fresh tmp ∧
      Finset.Ico start (start + size) ⊆ s.content i
  | clear i new tmp start size =>
    0 < size ∧ start + size < 2 ^ 64 ∧ (s.tree i).Fresh new ∧ (s.tree i).Fresh tmp
  | swap _ _ => True
  | vacate _ => True

variable [DecidableEq ι]

def RangeTrees.set (s : RangeTrees ι) (i : ι) (rt : RangeTree) (content : Finset Nat) :
    RangeTrees ι :=
  ⟨Function.update s.tree i rt, Function.update s.content i content⟩

def rangeStep (s : RangeTrees ι) : RangeCall ι → Option (RangeTrees ι)
  | .add i new tmp start size =>
    (rangeTreeAdd (s.tree i) new tmp start size).map fun rt =>
      s.set i rt (s.content i ∪ Finset.Ico start (start + size))
  | .remove i new tmp start size =>
    (rangeTreeRemove (s.tree i) new tmp start size).map fun rt =>
      s.set i rt (s.content i \ Finset.Ico start (start + size))
  | .clear i new tmp start size =>
    (rangeTreeClear (s.tree i) new tmp start size).map fun rt =>
      s.set i rt (s.content i \ Finset.Ico start (start + size))
  | .swap i j =>
    some ((s.set i (s.tree j) (s.content j)).set j (s.tree i) (s.content i))
  | .vacate i => (rangeTreeVacate (s.tree i)).map fun done => s.set i done.2 ∅

/- The tree stands for the set. -/
def RangeTree.Denotes (rt : RangeTree) (content : Finset Nat) : Prop :=
  ∃ t, rt.Holds t ∧ ∀ x, Covers (t.toList.map rt.segs) x ↔ x ∈ content

theorem rangeTreeCreate_denotes (heap : Addr → AvlNode) (segs : Addr → RangeSeg) :
    (rangeTreeCreate heap segs).Denotes ∅ :=
  ⟨nil, ⟨⟨⟨rfl, List.nodup_nil, rfl⟩, trivial⟩, ⟨nofun, .nil⟩, rfl, fun _ => rfl⟩,
    by simp [toList]⟩

theorem RangeTrees.denotes_set {s : RangeTrees ι} (h : ∀ i, (s.tree i).Denotes (s.content i))
    {i : ι} {rt : RangeTree} {content : Finset Nat} (hrt : rt.Denotes content) (j : ι) :
    ((s.set i rt content).tree j).Denotes ((s.set i rt content).content j) := by
  obtain rfl | hj := eq_or_ne j i
  · simpa [RangeTrees.set] using hrt
  · simpa [RangeTrees.set, hj] using h j

theorem RangeTree.Holds.unused {rt : RangeTree} {t : AvlTree Addr} (h : rt.Holds t) {a : Addr}
    (ha : rt.Fresh a) : Unused t a :=
  ⟨ha.1, ha.2.1, ha.2.2 t h.balanced.toHolds⟩

section Calls

variable {rt : RangeTree} {content : Finset Nat} {new tmp : Addr} {start size : Nat}
  (h : rt.Denotes content) (hnew : rt.Fresh new) (htmp : rt.Fresh tmp) (hsize : 0 < size)
  (hstop : start + size < 2 ^ 64)
include h hnew htmp hsize hstop

theorem RangeTree.Denotes.add (hdisj : Disjoint content (Finset.Ico start (start + size))) :
    ∃ rt', rangeTreeAdd rt new tmp start size = some rt' ∧
      rt'.Denotes (content ∪ Finset.Ico start (start + size)) := by
  obtain ⟨t, hholds, hcov⟩ := h
  obtain ⟨rt', t', hrun, hholds', hcov'⟩ := rangeTreeAdd_holds start size hholds
    (hholds.unused hnew) (hholds.unused htmp) hsize hstop fun x hx1 hx2 hx =>
      Finset.disjoint_left.mp hdisj ((hcov x).mp hx) (Finset.mem_Ico.mpr ⟨hx1, hx2⟩)
  refine ⟨rt', hrun, t', hholds', fun x => ?_⟩
  rw [hcov', hcov, Finset.mem_union, Finset.mem_Ico]

theorem RangeTree.Denotes.remove (hsub : Finset.Ico start (start + size) ⊆ content) :
    ∃ rt', rangeTreeRemove rt new tmp start size = some rt' ∧
      rt'.Denotes (content \ Finset.Ico start (start + size)) := by
  obtain ⟨t, hholds, hcov⟩ := h
  obtain ⟨rt', t', hrun, hholds', hcov', -⟩ := rangeTreeRemove_holds start size hholds
    (hholds.unused hnew) (hholds.unused htmp) hsize hstop fun x hx1 hx2 =>
      (hcov x).mpr (hsub (Finset.mem_Ico.mpr ⟨hx1, hx2⟩))
  refine ⟨rt', hrun, t', hholds', fun x => ?_⟩
  rw [hcov', hcov, Finset.mem_sdiff, Finset.mem_Ico]

end Calls

theorem rangeStep_denotes {s : RangeTrees ι} (h : ∀ i, (s.tree i).Denotes (s.content i))
    {call : RangeCall ι} (hok : call.Allowed s) :
    ∃ s', rangeStep s call = some s' ∧ ∀ i, (s'.tree i).Denotes (s'.content i) := by
  cases call with
  | add i new tmp start size =>
    obtain ⟨hsize, hstop, hnew, htmp, hdisj⟩ := hok
    obtain ⟨rt', hrun, hdenotes⟩ := (h i).add hnew htmp hsize hstop hdisj
    rw [rangeStep, hrun]
    exact ⟨_, rfl, RangeTrees.denotes_set h hdenotes⟩
  | remove i new tmp start size =>
    obtain ⟨hsize, hstop, hnew, htmp, hsub⟩ := hok
    obtain ⟨rt', hrun, hdenotes⟩ := (h i).remove hnew htmp hsize hstop hsub
    rw [rangeStep, hrun]
    exact ⟨_, rfl, RangeTrees.denotes_set h hdenotes⟩
  | clear i new tmp start size =>
    obtain ⟨hsize, hstop, hnew, htmp⟩ := hok
    obtain ⟨t, hholds, hcov⟩ := h i
    have hfuel : (s.content i ∩ Finset.Ico start (start + size)).card < size + 1 := by
      have hle := Finset.card_le_card (@Finset.inter_subset_right _ _ (s.content i)
        (Finset.Ico start (start + size)))
      rw [Nat.card_Ico] at hle
      omega
    obtain ⟨rt', t', hrun, hholds', hcov'⟩ := rangeTreeClearLoop_holds hholds hsize hstop hcov
      (.inl ⟨hholds.unused hnew, hholds.unused htmp⟩) hfuel
    rw [rangeStep, rangeTreeClear, hrun]
    exact ⟨_, rfl, RangeTrees.denotes_set h ⟨t', hholds', hcov'⟩⟩
  | swap i j =>
    exact ⟨_, rfl, RangeTrees.denotes_set (RangeTrees.denotes_set h (h j)) (h i)⟩
  | vacate i =>
    obtain ⟨t, hholds, -⟩ := h i
    obtain ⟨rt', hrun, hholds'⟩ := rangeTreeVacate_holds hholds
    rw [rangeStep, hrun]
    exact ⟨_, rfl, RangeTrees.denotes_set h ⟨nil, hholds', by simp [toList]⟩⟩

theorem reach_denotes {heap : ι → Addr → AvlNode} {segs : ι → Addr → RangeSeg} {s : RangeTrees ι}
    (h : Reach rangeStep (fun s (call : RangeCall ι) => call.Allowed s)
      ⟨fun i => rangeTreeCreate (heap i) (segs i), fun _ => ∅⟩ s) (i : ι) :
    (s.tree i).Denotes (s.content i) := by
  refine Reach.invariant (P := fun s => ∀ i, (s.tree i).Denotes (s.content i))
    (fun i => rangeTreeCreate_denotes (heap i) (segs i)) (fun s s' call hs hok hstep => ?_) h i
  obtain ⟨s₁, hstep₁, hs₁⟩ := rangeStep_denotes hs hok
  rw [hstep] at hstep₁
  cases hstep₁
  exact hs₁

/-- Over every run of calls each tree stands for the set that unions and differences of the ranges
give: its segments are in order with gaps between them, the space is their total size and each
bucket of the histogram counts those of its sizes. Every allowed call returns. -/
theorem range_tree_set {heap : ι → Addr → AvlNode} {segs : ι → Addr → RangeSeg} {s : RangeTrees ι}
    (h : Reach rangeStep (fun s (call : RangeCall ι) => call.Allowed s)
      ⟨fun i => rangeTreeCreate (heap i) (segs i), fun _ => ∅⟩ s) :
    (∀ i, ∃ t : AvlTree Addr, (s.tree i).rtRoot.Balanced t ∧
      (∀ x, Covers (t.toList.map (s.tree i).segs) x ↔ x ∈ s.content i) ∧
      Gapped (t.toList.map (s.tree i).segs) ∧
      (s.tree i).rtSpace = spaceOf (t.toList.map (s.tree i).segs) ∧
      ∀ b, (s.tree i).rtHistogram b = bucketOf (t.toList.map (s.tree i).segs) b) ∧
    ∀ call : RangeCall ι, call.Allowed s → ∃ s', rangeStep s call = some s' := by
  have hinv := reach_denotes h
  refine ⟨fun i => ?_, fun call hok => ?_⟩
  · obtain ⟨t, hholds, hcov⟩ := hinv i
    exact ⟨t, hholds.balanced, hcov, hholds.gapped, hholds.space, hholds.histogram⟩
  · obtain ⟨s', hstep, -⟩ := rangeStep_denotes hinv hok
    exact ⟨s', hstep⟩

/- The nodes under a pointer, as far as `fuel` levels. -/
def nodesUnder (heap : Addr → AvlNode) : Nat → Addr → List Addr
  | 0, _ => []
  | fuel + 1, a =>
    if a = 0#64 then []
    else nodesUnder heap fuel ((heap a).avlChild false) ++
      a :: nodesUnder heap fuel ((heap a).avlChild true)

theorem Rep.nodesUnder {heap : Addr → AvlNode} {p root : Addr} {d : Bool} {t : AvlTree Addr}
    {fuel : Nat} (h : Rep heap p d root t) (hfuel : t.height ≤ fuel) :
    nodesUnder heap fuel root = t.toList := by
  induction fuel generalizing p d root t with
  | zero => cases t <;> simp_all [height, toList, ClusterZfs.nodesUnder]
  | succ fuel ih =>
    cases t with
    | nil => exact if_pos h
    | node l a b r =>
      obtain ⟨rfl, hne, -, -, -, -, hl, hr⟩ := h
      rw [height] at hfuel
      have hleft := ih hl (by omega)
      have hright := ih hr (by omega)
      rw [ClusterZfs.nodesUnder, if_neg hne, hleft, hright]
      rfl

/- A test for addresses that are not in use. -/
def RangeTree.Unlinked (rt : RangeTree) (a : Addr) : Prop :=
  a ≠ 0#64 ∧ Aligned a ∧ a ∉ nodesUnder rt.rtRoot.heap rt.rtRoot.avlNumnodes rt.rtRoot.avlRoot

instance (rt : RangeTree) (a : Addr) : Decidable (rt.Unlinked a) :=
  inferInstanceAs (Decidable (_ ∧ _ ∧ _))

theorem RangeTree.Unlinked.fresh {rt : RangeTree} {a : Addr} (h : rt.Unlinked a) : rt.Fresh a := by
  refine ⟨h.1, h.2.1, fun t ht => ?_⟩
  rw [← ht.rep.nodesUnder (ht.count ▸ height_le_size t)]
  exact h.2.2

def RangeCall.Checked (s : RangeTrees ι) : RangeCall ι → Prop
  | add i new tmp start size =>
    0 < size ∧ start + size < 2 ^ 64 ∧ (s.tree i).Unlinked new ∧ (s.tree i).Unlinked tmp ∧
      Disjoint (s.content i) (Finset.Ico start (start + size))
  | remove i new tmp start size =>
    0 < size ∧ start + size < 2 ^ 64 ∧ (s.tree i).Unlinked new ∧ (s.tree i).Unlinked tmp ∧
      Finset.Ico start (start + size) ⊆ s.content i
  | _ => False

instance (s : RangeTrees ι) (call : RangeCall ι) : Decidable (call.Checked s) :=
  match call with
  | .add .. | .remove .. => inferInstanceAs (Decidable (_ ∧ _ ∧ _ ∧ _ ∧ _))
  | .clear .. | .swap .. | .vacate .. => inferInstanceAs (Decidable False)

omit [DecidableEq ι] in
theorem RangeCall.Checked.allowed {s : RangeTrees ι} {call : RangeCall ι} (h : call.Checked s) :
    call.Allowed s := by
  cases call with
  | add | remove => exact ⟨h.1, h.2.1, h.2.2.1.fresh, h.2.2.2.1.fresh, h.2.2.2.2⟩
  | clear | swap | vacate => exact h.elim

def emptyTree : RangeTree :=
  rangeTreeCreate (fun _ => ⟨fun _ => 0#64, 0#64⟩) fun _ => ⟨0, 0⟩

/- The last state of a run on one tree that can be evaluated. -/
theorem exists_checked (calls : List (RangeCall Unit)) (P : RangeTrees Unit → Prop)
    [DecidablePred P]
    (h : (runSteps (guardStep (fun s call => RangeCall.Checked s call) rangeStep) calls
      ⟨fun _ => emptyTree, fun _ => ∅⟩).any (fun s => decide (P s)) = true) :
    ∃ s : RangeTrees Unit, Reach rangeStep (fun s (call : RangeCall Unit) => call.Allowed s)
      ⟨fun _ => emptyTree, fun _ => ∅⟩ s ∧ P s := by
  obtain ⟨s, hs, hP⟩ := exists_reach rangeStep (fun s (call : RangeCall Unit) => call.Checked s)
    ⟨fun _ => emptyTree, fun _ => ∅⟩ calls P h
  exact ⟨s, hs.mono fun _ _ => RangeCall.Checked.allowed, hP⟩

/- Two ranges with a gap, and a third that closes it. -/
def merging : List (RangeCall Unit) :=
  [.add () 8#64 4096#64 10 5, .add () 16#64 4096#64 20 5, .add () 24#64 4096#64 15 5]

/- Then a range out of the middle of the one segment. -/
def splitting : List (RangeCall Unit) := merging ++ [.remove () 32#64 4096#64 12 6]

/-- Ranges are merged to one segment, which is then split. -/
theorem range_tree_set_split :
    ∃ s : RangeTrees Unit, Reach rangeStep (fun s (call : RangeCall Unit) => call.Allowed s)
        ⟨fun _ => emptyTree, fun _ => ∅⟩ s ∧
      s.content () = {10, 11, 18, 19, 20, 21, 22, 23, 24} ∧
      ∃ t : AvlTree Addr, (s.tree ()).rtRoot.Balanced t ∧
        (∀ x, Covers (t.toList.map (s.tree ()).segs) x ↔ x ∈ s.content ()) ∧
        Gapped (t.toList.map (s.tree ()).segs) ∧
        (s.tree ()).rtSpace = spaceOf (t.toList.map (s.tree ()).segs) ∧
        ∀ b, (s.tree ()).rtHistogram b = bucketOf (t.toList.map (s.tree ()).segs) b := by
  obtain ⟨s, hs, hcontent⟩ := exists_checked splitting
    (fun s => s.content () = {10, 11, 18, 19, 20, 21, 22, 23, 24}) (by decide +kernel)
  exact ⟨s, hs, hcontent, (range_tree_set hs).1 ()⟩

end Runs

end ClusterZfs

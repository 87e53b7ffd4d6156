import ClusterZfs.Metaslab.Code

/-! The functions of `range_tree.c` that only look at a tree, and the sets they are used as. -/
namespace ClusterZfs

open AvlTree

def rangeTreeFind (rt : RangeTree) (start size : Nat) : Option Addr :=
  (rangeTreeFindImpl rt start size).map fun
    | .missing _ => 0#64
    | .found rs =>
      if (rt.segs rs).rsStart ≤ start ∧ (rt.segs rs).rsEnd ≥ uint64 (start + size) then rs else 0#64

def rangeTreeContains (rt : RangeTree) (start size : Nat) : Option Bool :=
  (rangeTreeFind rt start size).map (· ≠ 0#64)

/- The loop of `range_tree_walk` from `rs` on: the calls of `func`. -/
def rangeTreeWalkFrom (rt : RangeTree) : Nat → Addr → Option (List (Nat × Nat))
  | 0, _ => none
  | fuel + 1, rs =>
    if rs = 0#64 then some []
    else (avlWalk rt.rtRoot rs true).bind fun next =>
      (rangeTreeWalkFrom rt fuel next).map (((rt.segs rs).rsStart, (rt.segs rs).size) :: ·)

def rangeTreeWalk (rt : RangeTree) : Option (List (Nat × Nat)) :=
  (avlFirst rt.rtRoot).bind (rangeTreeWalkFrom rt (rt.rtRoot.avlNumnodes + 1))

section Lookup

variable {rt : RangeTree} {c : RangeSet} {t : AvlTree Addr} {start size : Nat}

/-- `range_tree_contains` says whether the range lies in the set. -/
theorem range_tree_contains_iff (h : rt.Denotes c) (hstop : start + size < 2 ^ 64) :
    rangeTreeContains rt start size = c.contains start size := by
  obtain ⟨t, hholds, hcov⟩ := h
  unfold rangeTreeContains rangeTreeFind rangeTreeFindImpl RangeSet.contains
  by_cases h0 : size = 0
  · rw [if_pos h0, if_pos h0]
    rfl
  · have hne : start < start + size := Nat.lt_add_of_pos_right (Nat.pos_of_ne_zero h0)
    rw [if_neg h0, if_neg h0, uint64, Nat.mod_eq_of_lt hstop]
    rcases hholds.search hne with ⟨bs, a, as, hcut, hfind, htouch⟩ | ⟨ctx, rfl, hfind, hout⟩
    · have hmem : a ∈ t.toList := by simp [hcut]
      have ha : a ≠ 0#64 := mem_ne_zero hholds.balanced.rep hmem
      rw [hfind, Option.map_some, Option.map_some, Option.some_inj, decide_eq_decide]
      dsimp only
      constructor
      · intro hfound x hx
        have hin := (ite_ne_right_iff.mp hfound).1
        rw [Finset.mem_Ico] at hx
        exact (hcov x).mp ⟨rt.segs a, List.mem_map_of_mem hmem, by omega, by omega⟩
      · intro hsub
        have hgapped := hholds.gapped
        have hall : ∀ y, start ≤ y → y < start + size → Covers (t.toList.map rt.segs) y :=
          fun y h1 h2 => (hcov y).mpr (hsub (Finset.mem_Ico.mpr ⟨h1, h2⟩))
        rw [hcut, List.map_append, List.map_cons, List.append_cons] at hgapped hall
        rw [if_pos (hgapped.contains hall htouch)]
        exact ha
    · rw [hfind, Option.map_some, Option.map_some, Option.some_inj, decide_eq_decide]
      refine iff_of_false (not_not.mpr rfl) fun hsub => ?_
      have hstart := hsub (Finset.left_mem_Ico.mpr hne)
      exact not_covers_between hout.1 hout.2 ⟨le_rfl, hne⟩ ((hcov start).mpr hstart)

/-- The middle of a segment, and a range that reaches beyond it. -/
theorem range_tree_contains_merged :
    ∃ s : RangeTrees Unit, s.content () = Finset.Ico 10 25 ∧
      rangeTreeContains (s.tree ()) 12 8 = some true ∧
      rangeTreeContains (s.tree ()) 20 8 = some false := by
  obtain ⟨s, hs, hcontent⟩ := exists_checked merging
    (fun s => s.content () = Finset.Ico 10 25) (by decide +kernel)
  have hrt := reach_denotes hs ()
  rw [hcontent] at hrt
  refine ⟨s, hcontent, ?_, ?_⟩
  · rw [range_tree_contains_iff hrt (by decide)]
    decide
  · rw [range_tree_contains_iff hrt (by decide)]
    decide

theorem avlFirst_rep {m : AvlMem} (h : m.Holds t) :
    avlFirst m = some (t.toList.head?.getD 0#64) := by
  unfold avlFirst
  by_cases h0 : m.avlRoot = 0#64
  · rw [if_pos h0, h.rep.root_eq_zero.mp h0]
    rfl
  · have hfuel : t.height < m.avlNumnodes + 1 := by
      have := height_le_size t
      have := h.count
      omega
    obtain ⟨ctx, n, y, hdesc, hdown⟩ := avlDown_rep false hfuel h0 h.rep []
    obtain ⟨rest, hfrom⟩ := head_fromSide (d := true) hdesc
    have hlist : t.toList = n :: rest := hfrom
    rw [if_neg h0, hdown, hlist]
    rfl

theorem RangeTree.Holds.walkFrom (h : rt.Holds t) {bs as : List Addr} {fuel : Nat}
    (hcut : t.toList = bs ++ as) (hfuel : as.length < fuel) :
    rangeTreeWalkFrom rt fuel (as.head?.getD 0#64) =
      some (as.map fun a => ((rt.segs a).rsStart, (rt.segs a).size)) := by
  induction as generalizing bs fuel with
  | nil =>
    cases fuel with
    | zero => cases hfuel
    | succ fuel => rfl
  | cons a as ih =>
    cases fuel with
    | zero => cases hfuel
    | succ fuel =>
      have hmem : a ∈ t.toList := by simp [hcut]
      obtain ⟨ctx, l, b, r, rfl⟩ := exists_position hmem
      have hrest := (position_unique h.balanced.nodup hcut).2
      have hnext : avlWalk rt.rtRoot a true = some (as.head?.getD 0#64) := by
        rw [← hrest]
        have hholds : rt.rtRoot.Holds (plug ctx (join true r a b l)) := h.balanced.toHolds
        exact avlWalk_rep hholds
      rw [List.append_cons] at hcut
      have hlen : as.length < fuel := Nat.lt_of_succ_lt_succ hfuel
      rw [List.head?_cons, Option.getD_some, rangeTreeWalkFrom,
        if_neg (mem_ne_zero h.balanced.rep hmem), hnext, Option.bind_some, ih hcut hlen]
      rfl

/-- `range_tree_walk` calls back for the maximal runs of the set, in order. -/
theorem range_tree_walk_runs (h : rt.Denotes c) : ∃ l : List RangeSeg,
    rangeTreeWalk rt = some (l.map fun s => (s.rsStart, s.size)) ∧ Gapped l ∧
      ∀ x, Covers l x ↔ x ∈ c := by
  obtain ⟨t, hholds, hcov⟩ := h
  refine ⟨t.toList.map rt.segs, ?_, hholds.gapped, hcov⟩
  have hcount : t.toList.length = rt.rtRoot.avlNumnodes := hholds.balanced.count.symm
  rw [rangeTreeWalk, avlFirst_rep hholds.balanced.toHolds, Option.bind_some,
    hholds.walkFrom (List.nil_append _).symm (by omega), List.map_map]
  rfl

/-- The walk over two segments. -/
theorem range_tree_walk_runs_two :
    ∃ s : RangeTrees Unit, s.content () = {10, 11, 18, 19, 20, 21, 22, 23, 24} ∧
      rangeTreeWalk (s.tree ()) = some [(10, 2), (18, 7)] ∧
      ∃ l : List RangeSeg, (l.map fun s => (s.rsStart, s.size)) = [(10, 2), (18, 7)] ∧
        Gapped l ∧ ∀ x, Covers l x ↔ x ∈ s.content () := by
  obtain ⟨s, hs, hcontent, hwalk⟩ := exists_checked splitting
    (fun s => s.content () = {10, 11, 18, 19, 20, 21, 22, 23, 24} ∧
      rangeTreeWalk (s.tree ()) = some [(10, 2), (18, 7)]) (by decide +kernel)
  obtain ⟨l, hl, hgapped, hcov⟩ := range_tree_walk_runs (reach_denotes hs ())
  exact ⟨s, hcontent, hwalk, l, Option.some.inj (hl.symm.trans hwalk), hgapped, hcov⟩

end Lookup

end ClusterZfs

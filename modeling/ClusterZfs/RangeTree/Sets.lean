import ClusterZfs.RangeTree.Runs

/-! A range tree as its callers see it: a set of offsets, with operations that stop the system where
the code does. -/
namespace ClusterZfs

open AvlTree

abbrev RangeSet := Finset Nat

namespace RangeSet

/- `range_tree_add`: the range must not be empty and must be free of the set. -/
def add (c : RangeSet) (start size : Nat) : Option RangeSet :=
  if size = 0 ∨ ¬ Disjoint c (Finset.Ico start (start + size)) then none
  else some (c ∪ Finset.Ico start (start + size))

/- `range_tree_remove`: the range must not be empty and must lie in the set. -/
def remove (c : RangeSet) (start size : Nat) : Option RangeSet :=
  if size = 0 ∨ ¬ Finset.Ico start (start + size) ⊆ c then none
  else some (c \ Finset.Ico start (start + size))

end RangeSet

section Space

variable {l : List RangeSeg} {c : RangeSet}

theorem spaceOf_eq_card (h : Gapped l) (hc : ∀ x, Covers l x ↔ x ∈ c) : spaceOf l = c.card := by
  induction l generalizing c with
  | nil =>
    have hempty : c = ∅ := Finset.eq_empty_of_forall_notMem fun x hx => by
      exact Covers_nil ((hc x).mpr hx)
    rw [hempty]
    rfl
  | cons s l ih =>
    obtain ⟨hfirst, hgaps⟩ := List.pairwise_cons.mp h.gaps
    have hout : ∀ x, Covers l x → s.rsEnd ≤ x := by
      rintro x ⟨t, ht, hx⟩
      exact ((hfirst t ht).le.trans hx.1)
    have hsplit : ∀ x, Covers l x ↔ x ∈ c \ Finset.Ico s.rsStart s.rsEnd := by
      intro x
      rw [Finset.mem_sdiff, Finset.mem_Ico, ← hc, Covers_cons]
      refine ⟨fun hx => ⟨.inr hx, ?_⟩, fun ⟨hx, hno⟩ => hx.resolve_left hno⟩
      have := hout x hx
      omega
    have hsub : Finset.Ico s.rsStart s.rsEnd ⊆ c := by
      intro x hx
      rw [← hc, Covers_cons]
      exact .inl (Finset.mem_Ico.mp hx)
    have hcard := Finset.card_sdiff_add_card_eq_card hsub
    rw [Nat.card_Ico] at hcard
    rw [spaceOf_cons, ih h.tail hsplit, RangeSeg.size]
    omega

end Space

section Refines

variable {rt : RangeTree} {c : RangeSet} {new tmp : Addr} {start size : Nat}

theorem RangeTree.Denotes.space (h : rt.Denotes c) : rt.rtSpace = c.card := by
  obtain ⟨t, hholds, hcov⟩ := h
  rw [hholds.space]
  exact spaceOf_eq_card hholds.gapped hcov

/-- `range_tree_add` does to the tree what `RangeSet.add` does to the set, and stops when it
does. -/
theorem rangeTreeAdd_refines (h : rt.Denotes c) (hnew : rt.Fresh new) (htmp : rt.Fresh tmp)
    (hstop : start + size < 2 ^ 64) :
    match c.add start size with
    | none => rangeTreeAdd rt new tmp start size = none
    | some c' => ∃ rt', rangeTreeAdd rt new tmp start size = some rt' ∧ rt'.Denotes c' := by
  unfold RangeSet.add
  by_cases h0 : size = 0
  · rw [if_pos (.inl h0)]
    simp [rangeTreeAdd, h0]
  · have hsize := Nat.pos_of_ne_zero h0
    by_cases hdisj : Disjoint c (Finset.Ico start (start + size))
    · rw [if_neg (by simp [h0, hdisj])]
      exact h.add hnew htmp hsize hstop hdisj
    · rw [if_pos (.inr hdisj)]
      obtain ⟨t, hholds, hcov⟩ := h
      obtain ⟨x, hx, hrange⟩ := Finset.not_disjoint_iff.mp hdisj
      have hmod : uint64 (start + size) = start + size := Nat.mod_eq_of_lt hstop
      have hne : start < start + size := Nat.lt_add_of_pos_right hsize
      rw [rangeTreeAdd, hmod]
      simp only [if_neg h0]
      rcases hholds.search hne with ⟨bs, a, as, hcut, hfind, -⟩ | ⟨ctx, rfl, -, hbefore, hafter⟩
      · rw [hfind, Option.bind_some]
      · exact absurd ((hcov x).mpr hx)
          (not_covers_between hbefore hafter (Finset.mem_Ico.mp hrange))

/-- Two segments with a gap, and the range between them. -/
theorem rangeTreeAdd_refines_between :
    ∃ s : RangeTrees Unit, s.content () = Finset.Ico 10 15 ∪ Finset.Ico 20 25 ∧
      ∃ rt, rangeTreeAdd (s.tree ()) 24#64 4096#64 15 5 = some rt ∧
        rt.Denotes (s.content () ∪ Finset.Ico 15 20) := by
  obtain ⟨s, hs, hcontent, hnew, htmp⟩ := exists_checked (merging.take 2)
    (fun s => s.content () = Finset.Ico 10 15 ∪ Finset.Ico 20 25 ∧
      (s.tree ()).Unlinked 24#64 ∧ (s.tree ()).Unlinked 4096#64) (by decide +kernel)
  have hadd := rangeTreeAdd_refines (reach_denotes hs ()) hnew.fresh htmp.fresh
    (by decide : 15 + 5 < 2 ^ 64)
  rw [RangeSet.add, if_neg (by rw [hcontent]; decide)] at hadd
  exact ⟨s, hcontent, hadd⟩

/-- The same for `range_tree_remove`. -/
theorem rangeTreeRemove_refines (h : rt.Denotes c) (hnew : rt.Fresh new) (htmp : rt.Fresh tmp)
    (hstop : start + size < 2 ^ 64) :
    match c.remove start size with
    | none => rangeTreeRemove rt new tmp start size = none
    | some c' => ∃ rt', rangeTreeRemove rt new tmp start size = some rt' ∧ rt'.Denotes c' := by
  unfold RangeSet.remove
  by_cases h0 : size = 0
  · rw [if_pos (.inl h0)]
    simp [rangeTreeRemove, h0]
  · have hsize := Nat.pos_of_ne_zero h0
    by_cases hsub : Finset.Ico start (start + size) ⊆ c
    · rw [if_neg (by simp [h0, hsub])]
      exact h.remove hnew htmp hsize hstop hsub
    · rw [if_pos (.inr hsub)]
      obtain ⟨t, hholds, hcov⟩ := h
      have hmod : uint64 (start + size) = start + size := Nat.mod_eq_of_lt hstop
      have hne : start < start + size := Nat.lt_add_of_pos_right hsize
      rw [rangeTreeRemove, hmod]
      by_cases hspace : size ≤ rt.rtSpace
      · simp only [h0, hspace, not_true, or_false, if_false]
        rcases hholds.search hne with ⟨bs, a, as, hcut, hfind, -⟩ | ⟨ctx, -, hfind, -⟩
        · rw [hfind, Option.bind_some]
          dsimp only
          rw [if_pos]
          rintro ⟨hlo, hhi⟩
          refine hsub fun x hx => (hcov x).mp ⟨rt.segs a, ?_, ?_⟩
          · exact List.mem_map_of_mem (by simp [hcut])
          · obtain ⟨hx1, hx2⟩ := Finset.mem_Ico.mp hx
            exact ⟨by omega, by omega⟩
        · rw [hfind, Option.bind_some]
      · simp only [hspace, not_false_eq_true, or_true, if_true]

/-- One segment, and a range out of its middle. -/
theorem rangeTreeRemove_refines_middle :
    ∃ s : RangeTrees Unit, s.content () = Finset.Ico 10 25 ∧
      ∃ rt, rangeTreeRemove (s.tree ()) 32#64 4096#64 12 6 = some rt ∧
        rt.Denotes (s.content () \ Finset.Ico 12 18) := by
  obtain ⟨s, hs, hcontent, hnew, htmp⟩ := exists_checked merging
    (fun s => s.content () = Finset.Ico 10 25 ∧
      (s.tree ()).Unlinked 32#64 ∧ (s.tree ()).Unlinked 4096#64) (by decide +kernel)
  have hremove := rangeTreeRemove_refines (reach_denotes hs ()) hnew.fresh htmp.fresh
    (by decide : 12 + 6 < 2 ^ 64)
  rw [RangeSet.remove, if_neg (by rw [hcontent]; decide)] at hremove
  exact ⟨s, hcontent, hremove⟩

end Refines

end ClusterZfs

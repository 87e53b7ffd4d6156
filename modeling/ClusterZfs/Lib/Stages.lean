import Mathlib.Data.Finset.Basic

/-! Items that pass through stages. Every item of a universe is in one stage; a container holds the
items whose stage meets the container's predicate. Containers whose predicates exclude each other
are then disjoint, and a step that moves some items to another stage says for each container
whether they enter it, leave it or stay. -/
namespace ClusterZfs

/-- The container `c` holds the items of `U` whose stage meets `P`. -/
def Tracks {α L : Type} (U : Finset α) (stage : α → L) (P : L → Prop) (c : Finset α) : Prop :=
  ∀ x, x ∈ c ↔ x ∈ U ∧ P (stage x)

namespace Tracks

section Stages

variable {α L : Type} {U c d I : Finset α} {f g : α → L} {P Q : L → Prop}

section

variable (h : Tracks U f P c)
include h

theorem subset : c ⊆ U := fun x hx => ((h x).mp hx).1

theorem stage {x : α} (hx : x ∈ c) : P (f x) := ((h x).mp hx).2

theorem mem {x : α} (hx : x ∈ U) (hP : P (f x)) : x ∈ c := (h x).mpr ⟨hx, hP⟩

theorem unique (h' : Tracks U f P d) : c = d := by
  ext x
  exact (h x).trans (h' x).symm

theorem disjoint (h' : Tracks U f Q d)
    (hPQ : ∀ x ∈ U, P (f x) → ¬ Q (f x)) : Disjoint c d := by
  apply Finset.disjoint_left.mpr
  intro x hc hd
  exact hPQ x (h.subset hc) (h.stage hc) (h'.stage hd)

/-- The stages change, and with them the predicate of a container that stays as it is. -/
theorem congr (hPQ : ∀ x ∈ U, (Q (g x) ↔ P (f x))) : Tracks U g Q c := by
  intro x
  constructor
  · intro hx
    obtain ⟨hU, hP⟩ := (h x).mp hx
    exact ⟨hU, (hPQ x hU).mpr hP⟩
  · rintro ⟨hU, hQ⟩
    exact h.mem hU ((hPQ x hU).mp hQ)

end

theorem of_none (hP : ∀ x ∈ U, ¬ P (f x)) : Tracks U f P ∅ := by
  intro x
  constructor
  · intro hx
    cases hx
  · rintro ⟨hU, hx⟩
    exact absurd hx (hP x hU)

theorem none_of_empty (h : Tracks U f P ∅) : ∀ x ∈ U, ¬ P (f x) := by
  intro x hU hP
  cases h.mem hU hP

variable [DecidableEq α]

section

variable (h : Tracks U f P c)
include h

theorem union (h' : Tracks U f Q d) :
    Tracks U f (fun l => P l ∨ Q l) (c ∪ d) := by
  intro x
  rw [Finset.mem_union, h x, h' x, and_or_left]

theorem sdiff (h' : Tracks U f Q d) :
    Tracks U f (fun l => P l ∧ ¬ Q l) (c \ d) := by
  intro x
  rw [Finset.mem_sdiff, h x, h' x]
  tauto

theorem gain (hI : I ⊆ U) (hmove : ∀ x, x ∉ I → g x = f x)
    (hP : ∀ x ∈ I, P (g x)) : Tracks U g P (c ∪ I) := by
  intro x
  rw [Finset.mem_union]
  by_cases hx : x ∈ I
  · exact ⟨fun _ => ⟨hI hx, hP x hx⟩, fun _ => .inr hx⟩
  · rw [hmove x hx, h x, or_iff_left hx]

theorem lose (hmove : ∀ x, x ∉ I → g x = f x) (hP : ∀ x ∈ I, ¬ P (g x)) :
    Tracks U g P (c \ I) := by
  intro x
  rw [Finset.mem_sdiff]
  by_cases hx : x ∈ I
  · exact ⟨fun h => absurd hx h.2, fun h => absurd h.2 (hP x hx)⟩
  · rw [hmove x hx, h x, and_iff_left hx]

theorem avoid (hmove : ∀ x, x ∉ I → g x = f x) (hf : ∀ x ∈ I, ¬ P (f x))
    (hg : ∀ x ∈ I, ¬ P (g x)) : Tracks U g P c := by
  apply h.congr
  intro x _
  by_cases hx : x ∈ I
  · exact iff_of_false (hg x hx) (hf x hx)
  · rw [hmove x hx]

end

end Stages

section Homes

variable {α L : Type} {cs : List (Finset α)} {f : α → L} {home : L → Nat}

theorem pairwise_disjoint
    (h : ∀ i (hi : i < cs.length), ∀ x ∈ cs[i], home (f x) = i) : cs.Pairwise Disjoint := by
  apply List.pairwise_iff_getElem.mpr
  intro i j hi hj hlt
  apply Finset.disjoint_left.mpr
  intro x hx hx'
  have h₁ := h i hi x hx
  have h₂ := h j hj x hx'
  omega

end Homes

end Tracks

end ClusterZfs

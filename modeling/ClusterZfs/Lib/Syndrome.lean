import Mathlib.Algebra.BigOperators.Ring.Finset
import Mathlib.Algebra.Field.Basic
import Mathlib.Algebra.BigOperators.Intervals
import Mathlib.Tactic.Ring

/-! Weighted sums as an erasure code computes them. The syndrome of a sequence `D` of length
`n` at `a` is the value of the polynomial whose leading coefficient is `D 0`; it is what
Horner's scheme accumulates column by column. -/
namespace ClusterZfs

open Finset

variable {F : Type*} [Field F]

def syndrome (a : F) (n : Nat) (D : Nat → F) : F :=
  ∑ j ∈ range n, a ^ (n - 1 - j) * D j

@[simp] theorem syndrome_zero (a : F) (D : Nat → F) : syndrome a 0 D = 0 := by
  simp [syndrome]

theorem syndrome_succ (a : F) (n : Nat) (D : Nat → F) :
    syndrome a (n + 1) D = a * syndrome a n D + D n := by
  have hstep : ∀ j ∈ range n, a ^ (n + 1 - 1 - j) * D j = a * (a ^ (n - 1 - j) * D j) := by
    intro j hj
    have hexp : n + 1 - 1 - j = (n - 1 - j) + 1 := by
      have := mem_range.mp hj
      omega
    rw [hexp, pow_succ]
    ring
  unfold syndrome
  rw [sum_range_succ, sum_congr rfl hstep, ← mul_sum]
  simp

theorem syndrome_congr (a : F) (n : Nat) {D E : Nat → F} (h : ∀ j, j < n → D j = E j) :
    syndrome a n D = syndrome a n E := by
  refine sum_congr rfl ?_
  intro j hj
  rw [h j (mem_range.mp hj)]

/-- The sequence with one entry replaced by zero. -/
def erase (x : Nat) (D : Nat → F) : Nat → F := fun j => if j = x then 0 else D j

@[simp] theorem erase_same (x : Nat) (D : Nat → F) : erase x D x = 0 := by
  simp [erase]

theorem erase_other {x j : Nat} (D : Nat → F) (h : j ≠ x) : erase x D j = D j := by
  simp [erase, h]

theorem syndrome_erase (a : F) (n : Nat) (D : Nat → F) (x : Nat) (hx : x < n) :
    syndrome a n D = syndrome a n (erase x D) + a ^ (n - 1 - x) * D x := by
  have hmem : x ∈ range n := mem_range.mpr hx
  have hrest : ∑ j ∈ (range n).erase x, a ^ (n - 1 - j) * erase x D j =
      ∑ j ∈ (range n).erase x, a ^ (n - 1 - j) * D j := by
    refine sum_congr rfl ?_
    intro j hj
    rw [erase_other D (ne_of_mem_erase hj)]
  unfold syndrome
  rw [← sum_erase_add _ _ hmem, ← sum_erase_add (range n) (fun j => _ * erase x D j) hmem, hrest,
    erase_same]
  ring

end ClusterZfs

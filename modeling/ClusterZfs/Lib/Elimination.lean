import Mathlib.Algebra.BigOperators.Field
import Mathlib.Algebra.BigOperators.Ring.Finset
import Mathlib.Algebra.Field.Basic
import Mathlib.Algebra.BigOperators.Intervals
import Mathlib.Tactic.FieldSimp
import Mathlib.Tactic.LinearCombination
import Mathlib.Tactic.Ring

/-! Gauss-Jordan elimination without row exchanges, seen from the columns. Every column of
the augmented matrix goes through the same steps, so one column is a vector and a step is a
linear map on vectors. Pivot columns are given as a sequence `a`. -/
namespace ClusterZfs

open Finset

variable {F : Type*} [Field F]

/-- Divide row `k` by its pivot and clear the pivot column in the other rows. -/
def pivotStep (p : Nat → F) (k : Nat) (w : Nat → F) : Nat → F := fun i =>
  if i = k then w k / p k else w i - p i * (w k / p k)

def eliminate (a : Nat → Nat → F) : Nat → (Nat → F) → Nat → F
  | 0, w => w
  | k + 1, w => pivotStep (eliminate a k (a k)) k (eliminate a k w)

/-- No pivot among the first `m` is zero. -/
def Regular (a : Nat → Nat → F) (m : Nat) : Prop := ∀ k, k < m → eliminate a k (a k) k ≠ 0

theorem pivotStep_sum {ι : Type*} (s : Finset ι) (p : Nat → F) (k : Nat) (c : ι → F)
    (w : ι → Nat → F) (i : Nat) :
    pivotStep p k (fun i => ∑ l ∈ s, c l * w l i) i = ∑ l ∈ s, c l * pivotStep p k (w l) i := by
  unfold pivotStep
  split
  · rw [sum_div]
    exact sum_congr rfl (fun l _ => mul_div_assoc _ _ _)
  · rw [sum_div, mul_sum, ← sum_sub_distrib]
    refine sum_congr rfl ?_
    intro l _
    ring

theorem eliminate_sum {ι : Type*} (s : Finset ι) (a : Nat → Nat → F) (k : Nat) (c : ι → F)
    (w : ι → Nat → F) (i : Nat) :
    eliminate a k (fun i => ∑ l ∈ s, c l * w l i) i = ∑ l ∈ s, c l * eliminate a k (w l) i := by
  induction k generalizing i with
  | zero => rfl
  | succ k ih =>
    have hw : eliminate a k (fun i => ∑ l ∈ s, c l * w l i) =
        fun i => ∑ l ∈ s, c l * eliminate a k (w l) i := funext ih
    simp only [eliminate, hw]
    exact pivotStep_sum s _ k c _ i

theorem eliminate_congr (a : Nat → Nat → F) {k m : Nat} (hk : k ≤ m) {v w : Nat → F}
    (h : ∀ i, i < m → v i = w i) (i : Nat) (hi : i < m) :
    eliminate a k v i = eliminate a k w i := by
  induction k generalizing i with
  | zero => exact h i hi
  | succ k ih =>
    have hrow := ih (Nat.le_of_succ_le hk) k hk
    simp only [eliminate, pivotStep]
    rw [hrow, ih (Nat.le_of_succ_le hk) i hi]

theorem eliminate_unit {a : Nat → Nat → F} {m k j : Nat} (regular : Regular a m) (hk : k ≤ m)
    (hj : j < k) (i : Nat) : eliminate a k (a j) i = if i = j then 1 else 0 := by
  induction k generalizing i with
  | zero => omega
  | succ k ih =>
    have hpivot := regular k hk
    simp only [eliminate, pivotStep]
    by_cases hjk : j = k
    · subst hjk
      by_cases hi : i = j
      · rw [if_pos hi, if_pos hi, div_self hpivot]
      · rw [if_neg hi, if_neg hi, div_self hpivot, mul_one, sub_self]
    · have hunit := fun i => ih (Nat.le_of_succ_le hk) (by omega) i
      rw [hunit k, hunit i, if_neg (Ne.symm hjk), zero_div, mul_zero, sub_zero]
      by_cases hi : i = k
      · rw [if_pos hi, if_neg (by omega)]
      · rw [if_neg hi]

/-- Elimination solves a system of equations: the eliminated columns of the right-hand side
give each unknown as a combination of the known values. -/
theorem eliminate_solves {ι : Type*} (s : Finset ι) {a : Nat → Nat → F} {m : Nat}
    (regular : Regular a m) {x : Nat → F} {y : ι → F} {w : ι → Nat → F}
    (system : ∀ i, i < m → ∑ j ∈ range m, x j * a j i = ∑ l ∈ s, y l * w l i)
    (i : Nat) (hi : i < m) : x i = ∑ l ∈ s, y l * eliminate a m (w l) i := by
  have hunit : ∀ j ∈ range m, x j * eliminate a m (a j) i = if i = j then x j else 0 := by
    intro j hj
    rw [eliminate_unit regular (Nat.le_refl m) (mem_range.mp hj)]
    split
    · rw [mul_one]
    · rw [mul_zero]
  calc x i
    _ = ∑ j ∈ range m, x j * eliminate a m (a j) i := by
      rw [sum_congr rfl hunit, sum_ite_eq, if_pos (mem_range.mpr hi)]
    _ = eliminate a m (fun i => ∑ j ∈ range m, x j * a j i) i := (eliminate_sum _ a m x a i).symm
    _ = eliminate a m (fun i => ∑ l ∈ s, y l * w l i) i :=
      eliminate_congr a (Nat.le_refl m) system i hi
    _ = ∑ l ∈ s, y l * eliminate a m (w l) i := eliminate_sum s a m y w i

/-- A vector is recovered from its eliminated form: the finished rows are its coordinates
along the pivot columns, the other rows are still its own. -/
theorem eliminate_combination {a : Nat → Nat → F} {k : Nat} (regular : Regular a k)
    (w : Nat → F) (i : Nat) :
    w i = ∑ j ∈ range k, eliminate a k w j * a j i + if i < k then 0 else eliminate a k w i := by
  induction k generalizing w i with
  | zero => simp [eliminate]
  | succ k ih =>
    have hreg : Regular a k := fun j hj => regular j (Nat.lt_succ_of_lt hj)
    have hpivot := regular k (Nat.lt_succ_self k)
    have hw := ih hreg w i
    have hcol := ih hreg (a k) i
    -- below row k the step subtracts a multiple of the pivot column
    have hsum : ∑ j ∈ range k, eliminate a (k + 1) w j * a j i =
        ∑ j ∈ range k, eliminate a k w j * a j i -
          eliminate a k w k / eliminate a k (a k) k *
            ∑ j ∈ range k, eliminate a k (a k) j * a j i := by
      rw [mul_sum, ← sum_sub_distrib]
      refine sum_congr rfl ?_
      intro j hj
      have hne : j ≠ k := Nat.ne_of_lt (mem_range.mp hj)
      simp only [eliminate, pivotStep, if_neg hne]
      ring
    have hk : eliminate a (k + 1) w k = eliminate a k w k / eliminate a k (a k) k := by
      simp [eliminate, pivotStep]
    rw [sum_range_succ, hsum, hk]
    obtain hlt | rfl | hgt := Nat.lt_trichotomy i k
    · rw [if_pos hlt] at hw hcol
      rw [if_pos (by omega)]
      linear_combination hw - eliminate a k w k / eliminate a k (a k) k * hcol
    · rw [if_neg (Nat.lt_irrefl i)] at hw hcol
      rw [if_pos (Nat.lt_succ_self i)]
      have hcancel := div_mul_cancel₀ (eliminate a i w i) hpivot
      linear_combination hw - eliminate a i w i / eliminate a i (a i) i * hcol - hcancel
    · have hnew : eliminate a (k + 1) w i = eliminate a k w i -
          eliminate a k (a k) i * (eliminate a k w k / eliminate a k (a k) k) := by
        simp [eliminate, pivotStep, if_neg (Nat.ne_of_gt hgt)]
      rw [if_neg (by omega)] at hw hcol
      rw [if_neg (by omega), hnew]
      linear_combination hw - eliminate a k w k / eliminate a k (a k) k * hcol

/-- A functional on the first `m` rows. -/
def functional (m : Nat) (c : Nat → F) (w : Nat → F) : F := ∑ i ∈ range m, c i * w i

variable {a : Nat → Nat → F} {k m t : Nat} (regular : Regular a k) (ht : t < m) (c : Nat → F)
  (columns : ∀ j, j < k → j ≠ t → functional m c (a j) = 0)
  (rows : ∀ i, k ≤ i → i < m → i ≠ t → c i = 0)
include regular ht columns rows

/-- A functional that vanishes on every other coordinate reads off one coordinate. -/
theorem eliminate_dual (w : Nat → F) :
    eliminate a k w t * (if t < k then functional m c (a t) else c t) = functional m c w := by
  have hexpand : functional m c w = ∑ j ∈ range k, eliminate a k w j * functional m c (a j) +
      ∑ i ∈ range m, if i < k then 0 else c i * eliminate a k w i := by
    unfold functional
    simp only [mul_sum]
    rw [sum_comm, ← sum_add_distrib]
    refine sum_congr rfl ?_
    intro i _
    conv_lhs => rw [eliminate_combination regular w i, mul_add, mul_sum]
    congr 1
    · refine sum_congr rfl ?_
      intro j _
      ring
    · split
      · rw [mul_zero]
      · rfl
  rw [hexpand]
  by_cases htk : t < k
  · rw [if_pos htk, sum_eq_single_of_mem t (mem_range.mpr htk), sum_eq_zero, add_zero]
    · intro i hi
      split
      · rfl
      · rw [rows i (by omega) (mem_range.mp hi) (by omega), zero_mul]
    · intro j hj hne
      rw [columns j (mem_range.mp hj) hne, mul_zero]
  · rw [if_neg htk, sum_eq_zero, zero_add, sum_eq_single_of_mem t (mem_range.mpr ht), if_neg htk,
      mul_comm]
    · intro i hi hne
      split
      · rfl
      · rw [rows i (by omega) (mem_range.mp hi) hne, zero_mul]
    · intro j hj
      have hlt := mem_range.mp hj
      rw [columns j hlt (by omega), mul_zero]

theorem eliminate_ne_zero {w : Nat → F} (hw : functional m c w ≠ 0) :
    eliminate a k w t ≠ 0 := by
  intro hzero
  rw [← eliminate_dual regular ht c columns rows w, hzero, zero_mul] at hw
  exact hw rfl

end ClusterZfs

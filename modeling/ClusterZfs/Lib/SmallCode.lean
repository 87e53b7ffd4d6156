import ClusterZfs.Lib.Elimination

/-! Codes with at most three check rows whose entries are powers of distinct nodes. The
elimination of up to three lost columns meets no zero at all: neither in a pivot column, nor
in the coefficients that it ends with. Each case is a functional that vanishes on the other
pivot columns and not on the vector in question. -/
namespace ClusterZfs

open Finset

variable {F : Type*} [Field F]

/-- The column of a node: its powers at the exponents of the check rows. -/
def column (e : Nat → Nat) (u : F) : Nat → F := fun i => u ^ e i

def unitColumn (l : Nat) : Nat → F := fun i => if i = l then 1 else 0

structure SmallCode (e : Nat → Nat) (m : Nat) (node : F → Prop) : Prop where
  rows_le : m ≤ 3
  full : m = 3 → ∀ i, i < 3 → e i = i
  nonzero : ∀ u, node u → u ≠ 0
  separated : ∀ u v, node u → node v → u ≠ v → ∀ i j, i < m → j < m → i ≠ j →
    u ^ e i * v ^ e j - u ^ e j * v ^ e i ≠ 0
  sum_ne : ∀ u v, node u → node v → u ≠ v → u + v ≠ 0

/- The functionals: one row, two rows vanishing at a node, three rows vanishing at two. -/
def rowFunctional (t : Nat) : Nat → F := fun i => if i = t then 1 else 0

def pairFunctional (e : Nat → Nat) (s t : Nat) (u : F) : Nat → F := fun i =>
  if i = t then u ^ e s else if i = s then - u ^ e t else 0

def quadFunctional (u v : F) : Nat → F := fun i =>
  if i = 0 then u * v else if i = 1 then - (u + v) else 1

theorem functional_row {m t : Nat} (ht : t < m) (w : Nat → F) :
    functional m (rowFunctional t) w = w t := by
  simp [functional, rowFunctional, ht]

theorem functional_pair {m s t : Nat} (e : Nat → Nat) (hs : s < m) (ht : t < m) (hst : s ≠ t)
    (u : F) (w : Nat → F) :
    functional m (pairFunctional e s t u) w = u ^ e s * w t - u ^ e t * w s := by
  have hsplit : ∀ i ∈ range m, pairFunctional e s t u i * w i =
      (if i = t then u ^ e s * w t else 0) + (if i = s then - u ^ e t * w s else 0) := by
    intro i _
    unfold pairFunctional
    by_cases hit : i = t
    · rw [if_pos hit, if_pos hit, if_neg (by omega), hit, add_zero]
    · rw [if_neg hit, if_neg hit, zero_add]
      split
      · rename_i his
        rw [his]
      · rw [zero_mul]
  rw [functional, sum_congr rfl hsplit, sum_add_distrib, sum_ite_eq', sum_ite_eq',
    if_pos (mem_range.mpr ht), if_pos (mem_range.mpr hs)]
  ring

theorem functional_quad (u v : F) (w : Nat → F) :
    functional 3 (quadFunctional u v) w = w 2 - (u + v) * w 1 + u * v * w 0 := by
  simp only [functional, quadFunctional, sum_range_succ, range_zero]
  simp
  ring

section Code

variable {e : Nat → Nat} {m : Nat} {node : F → Prop}

theorem pair_vanishes {s t : Nat} (hs : s < m) (ht : t < m) (hst : s ≠ t) (u : F) :
    functional m (pairFunctional e s t u) (column e u) = 0 := by
  rw [functional_pair e hs ht hst]
  unfold column
  ring

theorem pair_ne_zero (code : SmallCode e m node) {s t : Nat} (hs : s < m) (ht : t < m)
    (hst : s ≠ t) {u v : F} (hu : node u) (hv : node v) (huv : u ≠ v) :
    functional m (pairFunctional e s t u) (column e v) ≠ 0 := by
  rw [functional_pair e hs ht hst]
  exact code.separated u v hu hv huv s t hs ht hst

theorem column_full (code : SmallCode e 3 node) (u : F) :
    column e u 0 = 1 ∧ column e u 1 = u ∧ column e u 2 = u ^ 2 := by
  have hfull := code.full rfl
  unfold column
  rw [hfull 0 (by decide), hfull 1 (by decide), hfull 2 (by decide)]
  simp

theorem functional_quad_column (code : SmallCode e 3 node) (u v z : F) :
    functional 3 (quadFunctional u v) (column e z) = (z - u) * (z - v) := by
  obtain ⟨h0, h1, h2⟩ := column_full code z
  rw [functional_quad, h0, h1, h2]
  ring

variable {x : Nat → F}

section

variable (code : SmallCode e m node)
include code

/-- Which functional reads row `t` after `k` steps: it depends on how many of the first `k`
pivot columns are not column `t`. -/
theorem eliminated_ne_zero {k t : Nat} (hk : k ≤ m) (ht : t < m)
    (regular : Regular (fun j => column e (x j)) k) {w : Nat → F}
    (row : k = 0 ∨ k = 1 ∧ t = 0 → w t ≠ 0)
    (pair : ∀ s, s < k → s ≠ t → (∀ j, j < k → j ≠ t → j = s) →
      functional m (pairFunctional e s t (x s)) w ≠ 0)
    (quad : m = 3 → ∀ r s, r < k → s < k → r ≠ t → s ≠ t → r ≠ s →
      functional 3 (quadFunctional (x r) (x s)) w ≠ 0) :
    eliminate (fun j => column e (x j)) k w t ≠ 0 := by
  have hm := code.rows_le
  have byRow : (k = 0 ∨ k = 1 ∧ t = 0) → eliminate (fun j => column e (x j)) k w t ≠ 0 := by
    intro hcase
    refine eliminate_ne_zero regular ht (rowFunctional t) ?_ ?_ ?_
    · intro j hj hjt
      omega
    · intro i _ _ hit
      simp [rowFunctional, hit]
    · rw [functional_row ht]
      exact row hcase
  have byPair : ∀ s, s < k → s ≠ t → (∀ j, j < k → j ≠ t → j = s) →
      eliminate (fun j => column e (x j)) k w t ≠ 0 := by
    intro s hs hst only
    refine eliminate_ne_zero regular ht (pairFunctional e s t (x s)) ?_ ?_ (pair s hs hst only)
    · intro j hj hjt
      rw [only j hj hjt]
      exact pair_vanishes (by omega) ht hst (x s)
    · intro i hi _ hit
      simp [pairFunctional, hit, show i ≠ s by omega]
  have byQuad : m = 3 → ∀ r s, r < k → s < k → r ≠ t → s ≠ t → r ≠ s →
      (∀ j, j < k → j ≠ t → j = r ∨ j = s) → (∀ i, k ≤ i → i < m → i = t) →
      eliminate (fun j => column e (x j)) k w t ≠ 0 := by
    rintro rfl r s hr hs hrt hst hrs only last
    refine eliminate_ne_zero regular ht (quadFunctional (x r) (x s)) ?_ ?_
      (quad rfl r s hr hs hrt hst hrs)
    · intro j hj hjt
      rw [functional_quad_column code]
      rcases only j hj hjt with h | h
      · rw [h, sub_self, zero_mul]
      · rw [h, sub_self, mul_zero]
    · intro i hi him hit
      exact absurd (last i hi him) hit
  obtain rfl | rfl | rfl | rfl : k = 0 ∨ k = 1 ∨ k = 2 ∨ k = 3 := by omega
  · exact byRow (Or.inl rfl)
  · by_cases h0 : t = 0
    · exact byRow (Or.inr ⟨rfl, h0⟩)
    · exact byPair 0 (by decide) (Ne.symm h0) (fun j hj _ => by omega)
  · obtain rfl | rfl | rfl : t = 0 ∨ t = 1 ∨ t = 2 := by omega
    · exact byPair 1 (by decide) (by decide) (fun j hj hjt => by omega)
    · exact byPair 0 (by decide) (by decide) (fun j hj hjt => by omega)
    · exact byQuad (by omega) 0 1 (by decide) (by decide) (by decide) (by decide) (by decide)
        (fun j hj _ => by omega) (fun i hi him => by omega)
  · obtain rfl | rfl | rfl : t = 0 ∨ t = 1 ∨ t = 2 := by omega
    · exact byQuad (by omega) 1 2 (by decide) (by decide) (by decide) (by decide) (by decide)
        (fun j hj hjt => by omega) (fun i hi him => by omega)
    · exact byQuad (by omega) 0 2 (by decide) (by decide) (by decide) (by decide) (by decide)
        (fun j hj hjt => by omega) (fun i hi him => by omega)
    · exact byQuad (by omega) 0 1 (by decide) (by decide) (by decide) (by decide) (by decide)
        (fun j hj hjt => by omega) (fun i hi him => by omega)

theorem eliminated_column_ne_zero {k t : Nat} (hk : k ≤ m) (ht : t < m)
    (nodes : ∀ j, j < m → node (x j)) (regular : Regular (fun j => column e (x j)) k) {u : F}
    (hu : node u) (fresh : ∀ j, j < k → x j ≠ u) :
    eliminate (fun j => column e (x j)) k (column e u) t ≠ 0 := by
  refine eliminated_ne_zero code hk ht regular ?_ ?_ ?_
  · intro _
    exact pow_ne_zero _ (code.nonzero u hu)
  · intro s hs hst _
    exact pair_ne_zero code (by omega) ht hst (nodes s (by omega)) hu (fresh s hs)
  · rintro rfl r s hr hs _ _ _
    rw [functional_quad_column code]
    exact mul_ne_zero (sub_ne_zero.mpr (fresh r hr).symm) (sub_ne_zero.mpr (fresh s hs).symm)

theorem smallCode_regular (nodes : ∀ j, j < m → node (x j))
    (distinct : ∀ i j, i < m → j < m → i ≠ j → x i ≠ x j) {k : Nat} (hk : k ≤ m) :
    Regular (fun j => column e (x j)) k := by
  induction k with
  | zero => exact fun j hj => absurd hj (Nat.not_lt_zero j)
  | succ k ih =>
    intro j hj
    have hreg := ih (by omega)
    by_cases hjk : j = k
    · subst hjk
      refine eliminated_column_ne_zero code (by omega) hk nodes hreg (nodes j hk) ?_
      intro i hi
      exact distinct i j (by omega) hk (by omega)
    · exact hreg j (by omega)

theorem eliminated_unit_ne_zero {t l : Nat} (ht : t < m) (hl : l < m)
    (nodes : ∀ j, j < m → node (x j))
    (distinct : ∀ i j, i < m → j < m → i ≠ j → x i ≠ x j) :
    eliminate (fun j => column e (x j)) m (unitColumn l) t ≠ 0 := by
  have hne : ∀ j, j < m → x j ≠ 0 := fun j hj => code.nonzero _ (nodes j hj)
  refine eliminated_ne_zero code (Nat.le_refl m) ht
    (smallCode_regular code nodes distinct (Nat.le_refl m)) ?_ ?_ ?_
  · intro _
    simp [unitColumn, show t = l by omega]
  · intro s hs hst only
    -- here m is 2, so the unit vector is one of the two rows of the functional
    rw [functional_pair e hs ht hst]
    by_cases hlt : l = t
    · simpa [unitColumn, hlt, hst] using pow_ne_zero (e s) (hne s hs)
    · have hls : l = s := only l hl hlt
      have hts : t ≠ s := Ne.symm hst
      simpa [unitColumn, hls, hts] using pow_ne_zero (e t) (hne s hs)
  · rintro rfl r s hr hs _ _ hrs
    rw [functional_quad]
    obtain rfl | rfl | rfl : l = 0 ∨ l = 1 ∨ l = 2 := by omega
    · simpa [unitColumn] using ⟨hne r hr, hne s hs⟩
    · have hsum := code.sum_ne (x r) (x s) (nodes r hr) (nodes s hs) (distinct r s hr hs hrs)
      have hvalue : (unitColumn 1 2 : F) - (x r + x s) * unitColumn 1 1 +
          x r * x s * unitColumn 1 0 = - (x r + x s) := by
        simp [unitColumn]
      rw [hvalue]
      exact neg_ne_zero.mpr hsum
    · simp [unitColumn]

end

end Code

end ClusterZfs

import Mathlib.Algebra.BigOperators.Intervals
import Mathlib.Data.Nat.ModEq
import Mathlib.Data.Set.Function
import Mathlib.Tactic.Ring

/-! Striping: linear sectors dealt out in turn to `d` devices. Sector `L` is row `L / d` of
device `L % d`; a run of sectors from `b` on is a set of columns, column `c` taking the sectors
`b + c`, `b + c + d`, `b + c + 2 * d`, ... -/
namespace ClusterZfs

def stripe (d L : Nat) : Nat × Nat := (L % d, L / d)

variable {d : Nat}

theorem stripe_injective : Function.Injective (stripe d) := by
  intro L L' h
  have hdev : L % d = L' % d := congrArg Prod.fst h
  have hrow : L / d = L' / d := congrArg Prod.snd h
  rw [← Nat.div_add_mod L d, ← Nat.div_add_mod L' d, hdev, hrow]

/-- The devices come round once: a column that would leave the last device is on the next row of
an earlier one. -/
theorem stripe_column {b c : Nat} (hc : c < d) (k : Nat) :
    stripe d (b + (c + k * d)) =
      if b % d + c ≥ d then (b % d + c - d, b / d + 1 + k) else (b % d + c, b / d + k) := by
  have hd : 0 < d := by omega
  have hb : b % d < d := Nat.mod_lt b hd
  have hsplit : b + (c + k * d) = (b % d + c) + (b / d + k) * d := by
    have hdm := Nat.div_add_mod' b d
    rw [Nat.add_mul]
    omega
  rw [stripe, hsplit, Nat.add_mul_mod_self_right, Nat.add_mul_div_right _ _ hd]
  split
  · rename_i hwrap
    have hmod : (b % d + c) % d = b % d + c - d := by
      rw [Nat.mod_eq_sub_mod hwrap, Nat.mod_eq_of_lt (by omega)]
    have hdiv : (b % d + c) / d = 1 := Nat.div_eq_of_lt_le (by omega) (by omega)
    rw [hmod, hdiv]
    congr 1
    omega
  · rw [Nat.mod_eq_of_lt (by omega), Nat.div_eq_of_lt (by omega), Nat.zero_add]

/-- Distinct columns of a run are on distinct devices. -/
theorem stripe_column_device {b c c' : Nat} (hc : c < d) (hc' : c' < d)
    (h : (stripe d (b + c)).1 = (stripe d (b + c')).1) : c = c' := by
  have hmod : Nat.ModEq d c c' := Nat.ModEq.add_left_cancel' b h
  exact hmod.eq_of_lt_of_lt hc hc'

theorem bijOn_add_left (b n : Nat) : Set.BijOn (b + ·) (Set.Iio n) (Set.Ico b (b + n)) := by
  refine ⟨?_, ?_, ?_⟩
  · intro L hL
    simp only [Set.mem_Iio] at hL
    simp only [Set.mem_Ico]
    omega
  · intro L _ L' _ heq
    exact Nat.add_left_cancel heq
  · intro L hL
    simp only [Set.mem_Ico] at hL
    refine ⟨L - b, ?_, ?_⟩
    · simp only [Set.mem_Iio]
      omega
    · exact Nat.add_sub_cancel' hL.1

/- How many rows column `c` has when `q` whole rows and `bc` sectors of one more are dealt out. -/
def columnRows (q bc c : Nat) : Nat := if c < bc then q + 1 else q

theorem columns_bijOn {q bc : Nat} (hbc : bc < d) :
    Set.BijOn (fun p : Nat × Nat => p.1 + p.2 * d)
      {p | p.1 < d ∧ p.2 < columnRows q bc p.1} (Set.Iio (q * d + bc)) := by
  refine ⟨?_, ?_, ?_⟩
  · rintro ⟨c, k⟩ ⟨hc, hk⟩
    simp only [columnRows] at hc hk
    simp only [Set.mem_Iio]
    split at hk
    · have hkd : k * d ≤ q * d := Nat.mul_le_mul_right d (by omega)
      omega
    · have hkd : (k + 1) * d ≤ q * d := Nat.mul_le_mul_right d (by omega)
      rw [Nat.add_mul] at hkd
      omega
  · rintro ⟨c, k⟩ ⟨hc, -⟩ ⟨c', k'⟩ ⟨hc', -⟩ h
    simp only at hc hc' h
    have hd : 0 < d := by omega
    have hcc : c = c' := by
      have := congrArg (· % d) h
      simpa only [Nat.add_mul_mod_self_right, Nat.mod_eq_of_lt hc, Nat.mod_eq_of_lt hc'] using this
    have hkk : k = k' := by
      have := congrArg (· / d) h
      simpa only [Nat.add_mul_div_right _ _ hd, Nat.div_eq_of_lt hc, Nat.div_eq_of_lt hc',
        Nat.zero_add] using this
    rw [hcc, hkk]
  · intro L hL
    simp only [Set.mem_Iio] at hL
    have hd : 0 < d := by omega
    have hsplit := Nat.mod_add_div' L d
    refine ⟨(L % d, L / d), ⟨Nat.mod_lt L hd, ?_⟩, hsplit⟩
    simp only [columnRows]
    have hrow : L / d ≤ q := by
      rw [← Nat.lt_succ_iff, Nat.div_lt_iff_lt_mul hd, Nat.succ_mul]
      omega
    split
    · omega
    · by_contra hq
      have heq : L / d = q := by omega
      rw [heq] at hsplit
      omega

theorem sum_columnRows (q bc lo : Nat) {hi : Nat} (h : lo ≤ hi) :
    ∑ c ∈ Finset.Ico lo hi, columnRows q bc c = q * (hi - lo) + (min bc hi - lo) := by
  induction hi, h using Nat.le_induction with
  | base => simp
  | succ hi h ih =>
    rw [Finset.sum_Ico_succ_top h, ih, columnRows, Nat.succ_sub h, Nat.mul_succ]
    split <;> omega

end ClusterZfs

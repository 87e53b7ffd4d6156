import ClusterZfs.Lib.Striping
import ClusterZfs.Raidz.Map
import Mathlib.Algebra.BigOperators.Ring.Finset
import Mathlib.Order.CompletePartialOrder

/-! Where the columns of a RAID-Z block lie: the block takes a run of linear sectors, and its
columns and skipped sectors are that run dealt out to the devices. -/
namespace ClusterZfs

variable {y : Nat} (x : Nat) (unitShift : Nat)

/- The space `vdev_raidz_asize` asks for, in bytes. -/
def vdevRaidzAsize (ashift cols nparity psize : Nat) : Nat :=
  let data := (psize - 1) >>> ashift + 1
  let all := data + nparity * ((data + cols - nparity - 1) / (cols - nparity))
  roundup all (nparity + 1) <<< ashift

/- The device of a linear sector and the byte where it begins there. -/
def deviceSector (unitShift dcols L : Nat) : Nat × Nat :=
  ((stripe dcols L).1, (stripe dcols L).2 <<< unitShift)

/- A sector that a block accounts for: row `k` of a column, or the `i`-th skipped one. -/
inductive RaidzSlot where
  | column (c k : Nat)
  | skip (i : Nat)

namespace RaidzMap

variable (rm : RaidzMap)

/- The loop of `vdev_raidz_io_start` over the skipped sectors: the column the `i`-th one is in. -/
def skipCol : Nat → Nat
  | 0 => if rm.rmSkipstart = rm.rmScols then 0 else rm.rmSkipstart
  | i + 1 => if skipCol i + 1 = rm.rmScols then 0 else skipCol i + 1

def slotPlace (unitShift : Nat) : RaidzSlot → Nat × Nat
  | .column c k => ((rm.rmCol c).rcDevidx, (rm.rmCol c).rcOffset + k <<< unitShift)
  | .skip i =>
    let rc := rm.rmCol (rm.skipCol i)
    (rc.rcDevidx, rc.rcOffset + rc.rcSize)

def slots (unitShift : Nat) : Set RaidzSlot :=
  fun
  | .column c k => c < rm.rmCols ∧ k <<< unitShift < (rm.rmCol c).rcSize
  | .skip i => i < rm.rmNskip

end RaidzMap

theorem roundup_ge (hy : 0 < y) : x ≤ roundup x y := by
  have hdiv := Nat.lt_div_mul_add (a := x + (y - 1)) hy
  unfold roundup
  omega

theorem roundup_lt (hy : 0 < y) : roundup x y < x + y := by
  have hdiv := Nat.div_mul_le_self (x + (y - 1)) y
  unfold roundup
  omega

theorem roundup_mul (m : Nat) (hy : 0 < y) (hm : 0 < m) :
    roundup (x * m) (y * m) = roundup x y * m := by
  have hnum : (x * m + (y * m - 1)) / (y * m) = (x + (y - 1)) / y := by
    have hsplit : x * m + (y * m - 1) = (m - 1) + (x + (y - 1)) * m := by
      have hym : 1 * m ≤ y * m := Nat.mul_le_mul_right m hy
      rw [Nat.add_mul, Nat.sub_mul]
      omega
    have hzero : (m - 1) / m = 0 := Nat.div_eq_of_lt (by omega)
    rw [hsplit, Nat.mul_comm y m, ← Nat.div_div_eq_div_mul, Nat.add_mul_div_right _ _ hm, hzero,
      Nat.zero_add]
  rw [roundup, roundup, hnum, Nat.mul_assoc]

theorem deviceSector_injective (dcols : Nat) :
    Function.Injective (deviceSector unitShift dcols) := by
  intro L L' h
  simp only [deviceSector, Prod.mk.injEq] at h
  obtain ⟨hdev, hrow⟩ := h
  rw [Nat.shiftLeft_eq, Nat.shiftLeft_eq] at hrow
  exact stripe_injective
    (Prod.ext hdev (Nat.eq_of_mul_eq_mul_right (Nat.two_pow_pos unitShift) hrow))

theorem deviceSector_column (b : Nat) {c dcols : Nat} (hc : c < dcols) :
    deviceSector unitShift dcols (b + c) =
      (if b % dcols + c ≥ dcols then b % dcols + c - dcols else b % dcols + c,
        if b % dcols + c ≥ dcols then (b / dcols) <<< unitShift + 1 <<< unitShift
        else (b / dcols) <<< unitShift) := by
  have hcol := stripe_column (b := b) hc 0
  simp only [Nat.zero_mul, Nat.add_zero] at hcol
  rw [deviceSector, hcol]
  by_cases hwrap : b % dcols + c ≥ dcols
  · simp [if_pos hwrap, Nat.shiftLeft_eq, Nat.add_mul]
  · simp [if_neg hwrap]

/-- Rows further down a column are whole sectors further on its device. -/
theorem deviceSector_row (L k : Nat) {dcols : Nat} (hd : 0 < dcols) :
    deviceSector unitShift dcols (L + k * dcols) =
      ((deviceSector unitShift dcols L).1,
        (deviceSector unitShift dcols L).2 + k <<< unitShift) := by
  simp [deviceSector, stripe, Nat.add_mul_div_right _ _ hd, Nat.shiftLeft_eq, Nat.add_mul]

namespace RaidzLayout

variable {l : RaidzLayout} {c : Nat}

/- The numbers of the layout when the block is a non-empty run of whole sectors. -/
structure Whole (l : RaidzLayout) : Prop where
  nparity_pos : 0 < l.nparity
  nparity_lt : l.nparity < l.dcols
  size : 2 ^ l.unitShift ∣ l.ioSize
  size_pos : 0 < l.ioSize

theorem s_eq (l : RaidzLayout) : l.s = l.q * (l.dcols - l.nparity) + l.r := by
  have hle : l.q * (l.dcols - l.nparity) ≤ l.s := Nat.div_mul_le_self _ _
  unfold r
  omega

section

variable (h : l.Whole)
include h

theorem Whole.r_lt : l.r < l.dcols - l.nparity := by
  have hd : 0 < l.dcols - l.nparity := Nat.sub_pos_of_lt h.nparity_lt
  have hlt := Nat.lt_div_mul_add (a := l.s) hd
  unfold r q
  omega

theorem Whole.ioSize_eq : l.ioSize = l.s <<< l.unitShift := by
  rw [s, Nat.shiftRight_eq_div_pow, Nat.shiftLeft_eq, Nat.div_mul_cancel h.size]

theorem Whole.s_pos : 0 < l.s := by
  rw [s, Nat.shiftRight_eq_div_pow]
  exact Nat.div_pos (Nat.le_of_dvd h.size_pos h.size) (Nat.two_pow_pos _)

theorem Whole.bc_lt : l.bc < l.dcols := by
  have hr := h.r_lt
  unfold bc
  split <;> omega

theorem Whole.tot_eq : l.tot = l.q * l.dcols + l.bc := by
  have hs := l.s_eq
  have hd : l.dcols = (l.dcols - l.nparity) + l.nparity := by
    have hp := h.nparity_lt
    omega
  have hqd : l.q * l.dcols = l.q * (l.dcols - l.nparity) + l.nparity * l.q := by
    conv_lhs => rw [hd]
    rw [Nat.mul_add, Nat.mul_comm l.q l.nparity]
  unfold tot bc
  rw [Nat.mul_add]
  split <;> omega

end

/- A column past the accessed ones is empty, and so is the part of it that `q` and `bc` give. -/
theorem rcSize_eq (hc : c < l.dcols) :
    l.rcSize c = columnRows l.q l.bc c <<< l.unitShift := by
  unfold rcSize columnRows
  by_cases hacc : c ≥ l.acols
  · have hq : l.q = 0 ∧ ¬ c < l.bc := by
      unfold acols at hacc
      split at hacc <;> omega
    rw [if_pos hacc, if_neg hq.2, hq.1, Nat.zero_shiftLeft]
  · rw [if_neg hacc]
    split <;> rfl

theorem acols_le_dcols (h : l.Whole) : l.acols ≤ l.dcols := by
  have hbc := h.bc_lt
  unfold acols
  split <;> omega

theorem scols_le_dcols : l.scols ≤ l.dcols := by
  unfold scols
  split <;> omega

theorem Whole.data_sum (h : l.Whole) :
    ∑ c ∈ Finset.Ico l.nparity l.acols, l.rcSize c = l.ioSize := by
  have hr := h.r_lt
  have hs := l.s_eq
  have hpos := h.s_pos
  have hle : l.nparity ≤ l.acols := by
    unfold acols bc
    split
    · rename_i hq
      rw [hq, Nat.zero_mul] at hs
      rw [if_neg (by omega)]
      omega
    · omega
  have hrows : ∑ c ∈ Finset.Ico l.nparity l.acols, l.rcSize c =
      (∑ c ∈ Finset.Ico l.nparity l.acols, columnRows l.q l.bc c) * 2 ^ l.unitShift := by
    rw [Finset.sum_mul]
    refine Finset.sum_congr rfl fun c hc => ?_
    have hlt := (Finset.mem_Ico.mp hc).2
    rw [rcSize_eq (Nat.lt_of_lt_of_le hlt (acols_le_dcols h)), Nat.shiftLeft_eq]
  have hrem : min l.bc l.acols - l.nparity = l.r := by
    unfold acols bc
    split <;> split <;> omega
  have hwhole : l.q * (l.acols - l.nparity) = l.q * (l.dcols - l.nparity) := by
    unfold acols
    split <;> simp [*]
  rw [hrows, sum_columnRows _ _ _ hle, hrem, hwhole, ← hs, h.ioSize_eq, Nat.shiftLeft_eq]

theorem Whole.bc_le_scols (h : l.Whole) : l.bc ≤ l.scols := by
  have hbc := h.bc_lt
  have hup := roundup_ge l.bc (Nat.succ_pos l.nparity)
  unfold scols
  split
  · exact le_min (Nat.le_of_lt hbc) hup
  · omega

theorem Whole.asize_eq (h : l.Whole) : l.asize = l.tot <<< l.unitShift := by
  have hsum : l.asize = (∑ c ∈ Finset.Ico 0 l.scols, columnRows l.q l.bc c) * 2 ^ l.unitShift := by
    refine forRange_invariant
      (fun i a => a = (∑ c ∈ Finset.Ico 0 i, columnRows l.q l.bc c) * 2 ^ l.unitShift)
      (Nat.zero_le _) (by simp) ?_
    intro i a _ hi ha
    rw [ha, rcSize_eq (Nat.lt_of_lt_of_le hi scols_le_dcols),
      Finset.sum_Ico_succ_top (Nat.zero_le i), Nat.add_mul, Nat.shiftLeft_eq]
  have hwhole : l.q * l.scols = l.q * l.dcols := by
    unfold scols
    split <;> simp [*]
  rw [hsum, sum_columnRows _ _ _ (Nat.zero_le _), Nat.sub_zero, Nat.sub_zero, hwhole,
    Nat.min_eq_left h.bc_le_scols, ← h.tot_eq, Nat.shiftLeft_eq]

/- The sectors the block is charged for. -/
def sectors (l : RaidzLayout) : Nat := roundup l.tot (l.nparity + 1)

/-- `vdev_raidz_asize` and `vdev_raidz_map_alloc` charge the same. -/
theorem Whole.vdevRaidzAsize_eq (h : l.Whole) :
    vdevRaidzAsize l.unitShift l.dcols l.nparity l.ioSize = l.sectors <<< l.unitShift := by
  have hd : 0 < l.dcols - l.nparity := Nat.sub_pos_of_lt h.nparity_lt
  have hpos := h.s_pos
  have hdata : (l.ioSize - 1) >>> l.unitShift + 1 = l.s := by
    have hunit := Nat.two_pow_pos l.unitShift
    have hdiv : (l.s * 2 ^ l.unitShift - 1) / 2 ^ l.unitShift = l.s - 1 := by
      refine Nat.div_eq_of_lt_le ?_ ?_
      · rw [Nat.sub_mul]
        omega
      · rw [Nat.sub_add_cancel hpos]
        have hle : 1 * 2 ^ l.unitShift ≤ l.s * 2 ^ l.unitShift := Nat.mul_le_mul_right _ hpos
        omega
    rw [h.ioSize_eq, Nat.shiftLeft_eq, Nat.shiftRight_eq_div_pow, hdiv]
    omega
  have hrows : (l.s + l.dcols - l.nparity - 1) / (l.dcols - l.nparity) =
      l.q + if l.r = 0 then 0 else 1 := by
    have hr := h.r_lt
    have hs := l.s_eq
    have hsplit : l.s + l.dcols - l.nparity - 1 =
        (l.r + (l.dcols - l.nparity - 1)) + l.q * (l.dcols - l.nparity) := by
      omega
    rw [hsplit, Nat.add_mul_div_right _ _ hd, Nat.add_comm]
    congr 1
    split
    · exact Nat.div_eq_of_lt (by omega)
    · exact Nat.div_eq_of_lt_le (by omega) (by omega)
  rw [vdevRaidzAsize, hdata, hrows]
  rfl

theorem Whole.rmAsize_eq (h : l.Whole) :
    roundup l.asize ((l.nparity + 1) <<< l.unitShift) = l.sectors <<< l.unitShift := by
  rw [h.asize_eq, Nat.shiftLeft_eq, Nat.shiftLeft_eq, Nat.shiftLeft_eq,
    roundup_mul _ _ (Nat.succ_pos _) (Nat.two_pow_pos _)]
  rfl

/- Single parity exchanges the places of the first two columns in every other megabyte. -/
def swapped (l : RaidzLayout) : Bool := l.nparity = 1 && l.ioOffset.testBit 20

/- The place in the run that column `c` begins at. -/
def turn (l : RaidzLayout) (c : Nat) : Nat :=
  if l.swapped then (if c = 0 then 1 else if c = 1 then 0 else c) else c

theorem turn_turn (c : Nat) : l.turn (l.turn c) = c := by
  unfold turn
  split
  · grind
  · rfl

theorem turn_one (h : l.swapped = true) : l.turn 1 = 0 := if_pos h

theorem turn_of_two_le (hc : 2 ≤ c) : l.turn c = c := by
  unfold turn
  split_ifs <;> omega

theorem turn_of_not_swapped (h : l.swapped = false) (c : Nat) : l.turn c = c := by
  unfold turn
  rw [h]
  rfl

theorem Whole.turn_lt (h : l.Whole) (hc : c < l.dcols) : l.turn c < l.dcols := by
  have hp := h.nparity_pos
  have hd := h.nparity_lt
  unfold turn
  split_ifs <;> omega

/- Single parity has no big column or at least two. -/
theorem swapped_bc (h : l.swapped = true) : l.nparity = 1 ∧ (l.bc = 0 ∨ 2 ≤ l.bc) := by
  simp only [swapped, Bool.and_eq_true, decide_eq_true_eq] at h
  refine ⟨h.1, ?_⟩
  unfold bc
  split <;> omega

theorem rows_turn (c : Nat) : columnRows l.q l.bc (l.turn c) = columnRows l.q l.bc c := by
  unfold turn
  split
  · rename_i hswap
    obtain ⟨-, hbc⟩ := swapped_bc hswap
    unfold columnRows
    split_ifs <;> omega
  · rfl

end RaidzLayout

section Places

variable {l : RaidzLayout} (env : RaidzEnv) (ioData : Buf) {c i : Nat}

theorem mapAlloc_place (h : l.Whole) (hc : c < l.dcols) :
    (((vdevRaidzMapAlloc env l ioData).rmCol c).rcDevidx,
      ((vdevRaidzMapAlloc env l ioData).rmCol c).rcOffset) =
      deviceSector l.unitShift l.dcols (l.b + l.turn c) := by
  rw [deviceSector_column _ _ (h.turn_lt hc)]
  simp only [vdevRaidzMapAlloc, RaidzLayout.turn, RaidzLayout.swapped, RaidzLayout.f,
    RaidzLayout.o]
  by_cases hswap : (l.nparity = 1 && l.ioOffset.testBit 20 : Bool)
  · obtain rfl | h0 := eq_or_ne c 0
    · simp [hswap]
    · obtain rfl | h1 := eq_or_ne c 1 <;> simp [*]
  · simp [hswap]

theorem mapAlloc_column (h : l.Whole) (hc : c < l.dcols) (k : Nat) :
    (vdevRaidzMapAlloc env l ioData).slotPlace l.unitShift (.column c k) =
      deviceSector l.unitShift l.dcols (l.b + (l.turn c + k * l.dcols)) := by
  have hplace := mapAlloc_place env ioData h hc
  rw [← Nat.add_assoc, deviceSector_row _ _ _ (by omega), ← hplace]
  rfl

theorem RaidzLayout.Whole.nparity_lt_scols (h : l.Whole) : l.nparity < l.scols := by
  have hle := h.bc_le_scols
  have hp := h.nparity_lt
  have hs := l.s_eq
  have hpos := h.s_pos
  by_cases hq : l.q = 0
  · rw [hq, Nat.zero_mul] at hs
    have hbc : l.bc = l.r + l.nparity := if_neg (by omega)
    omega
  · have hall : l.scols = l.dcols := if_neg hq
    omega

/-- The skipped sectors stay inside the columns unless these are all the devices. -/
theorem RaidzLayout.Whole.skip_lt_scols (h : l.Whole) (hi : i < l.sectors - l.tot) :
    l.bc + i < l.scols ∨ l.scols = l.dcols := by
  by_cases hq : l.q = 0
  · have htot : l.tot = l.bc := by rw [h.tot_eq, hq, Nat.zero_mul, Nat.zero_add]
    rw [RaidzLayout.sectors, htot] at hi
    rw [RaidzLayout.scols, if_pos hq]
    omega
  · exact .inr (if_neg hq)

theorem RaidzLayout.skip_le_nparity (l : RaidzLayout) : l.sectors - l.tot ≤ l.nparity := by
  have hlt : roundup l.tot (l.nparity + 1) < l.tot + (l.nparity + 1) :=
    roundup_lt l.tot (Nat.succ_pos l.nparity)
  unfold RaidzLayout.sectors
  omega

theorem skipCol_eq {rm : RaidzMap} (hstart : rm.rmSkipstart ≤ rm.rmScols)
    (hi : i < rm.rmScols) :
    rm.skipCol i = if rm.rmSkipstart + i < rm.rmScols then rm.rmSkipstart + i
      else rm.rmSkipstart + i - rm.rmScols := by
  induction i with
  | zero =>
    unfold RaidzMap.skipCol
    split <;> split <;> omega
  | succ i ih =>
    have hstep := ih (by omega)
    unfold RaidzMap.skipCol
    rw [hstep]
    split <;> split <;> split <;> omega

theorem mapAlloc_skipstart :
    (vdevRaidzMapAlloc env l ioData).rmSkipstart = if l.swapped && l.bc == 0 then 1 else l.bc := rfl

theorem mapAlloc_scols : (vdevRaidzMapAlloc env l ioData).rmScols = l.scols := rfl

/-- Where the loop over the skipped sectors stands: it starts behind the big columns and comes
round to the first column only when the columns are all the devices. -/
theorem mapAlloc_skipCol (h : l.Whole) (hi : i < l.sectors - l.tot) :
    l.turn ((vdevRaidzMapAlloc env l ioData).skipCol i) =
      if l.bc + i < l.dcols then l.bc + i else l.bc + i - l.dcols := by
  have hscols := h.skip_lt_scols hi
  have hnp := l.skip_le_nparity
  have hlt := h.nparity_lt_scols
  have hbc := h.bc_lt
  have hsd := RaidzLayout.scols_le_dcols (l := l)
  have hstart : (vdevRaidzMapAlloc env l ioData).rmSkipstart ≤ l.scols := by
    rw [mapAlloc_skipstart]
    split <;> omega
  have hlast : i < (vdevRaidzMapAlloc env l ioData).rmScols := by
    rw [mapAlloc_scols]
    omega
  have hskip := skipCol_eq hstart hlast
  rw [hskip, mapAlloc_scols, mapAlloc_skipstart]
  cases hswap : l.swapped with
  | true =>
    -- single parity skips one sector at most
    obtain ⟨hone, hbig⟩ := RaidzLayout.swapped_bc hswap
    have hi0 : i = 0 := by omega
    rw [hi0]
    rcases hbig with hz | hbig
    · rw [hz]
      have hcol : (if 1 + 0 < l.scols then 1 + 0 else 1 + 0 - l.scols) = 1 := if_pos (by omega)
      exact (congrArg l.turn hcol).trans ((l.turn_one hswap).trans (if_pos (by omega)).symm)
    · have hne : (l.bc == 0) = false := by
        simp only [beq_eq_false_iff_ne]
        omega
      have hcol : (if l.bc + 0 < l.scols then l.bc + 0 else l.bc + 0 - l.scols) = l.bc :=
        if_pos (by omega)
      rw [hne, Bool.and_false, if_neg Bool.false_ne_true, hcol, l.turn_of_two_le hbig]
      exact (if_pos (by omega)).symm
  | false =>
    rw [l.turn_of_not_swapped hswap, Bool.false_and, if_neg Bool.false_ne_true]
    split <;> split <;> omega

theorem mapAlloc_skip (h : l.Whole) (hi : i < l.sectors - l.tot) :
    (vdevRaidzMapAlloc env l ioData).slotPlace l.unitShift (.skip i) =
      deviceSector l.unitShift l.dcols (l.b + (l.tot + i)) := by
  have hcol := mapAlloc_skipCol env ioData h hi
  have hnp := l.skip_le_nparity
  have hbc := h.bc_lt
  have hp := h.nparity_lt
  generalize hc : (vdevRaidzMapAlloc env l ioData).skipCol i = c at hcol
  have hclt : c < l.dcols := by
    rw [← l.turn_turn c, hcol]
    exact h.turn_lt (by split <;> omega)
  have hrows : columnRows l.q l.bc c * l.dcols + l.turn c = l.tot + i := by
    rw [← RaidzLayout.rows_turn, hcol, h.tot_eq, columnRows]
    split
    · rw [if_neg (by omega)]
      omega
    · rw [if_pos (by omega), Nat.add_mul]
      omega
  have hplace := mapAlloc_column env ioData h hclt (columnRows l.q l.bc c)
  rw [← hrows, Nat.add_comm (_ * _), ← hplace]
  simp [RaidzMap.slotPlace, hc, mapAlloc_rcSize, RaidzLayout.rcSize_eq hclt]

/- The place of a slot in the run. -/
def RaidzLayout.slotIndex (l : RaidzLayout) : RaidzSlot → Nat
  | .column c k => l.turn c + k * l.dcols
  | .skip i => l.tot + i

theorem mapAlloc_column_slot (h : l.Whole) {k : Nat} :
    RaidzSlot.column c k ∈ (vdevRaidzMapAlloc env l ioData).slots l.unitShift ↔
      c < l.dcols ∧ k < columnRows l.q l.bc c := by
  have hcols := RaidzLayout.acols_le_dcols h
  have hunit := Nat.two_pow_pos l.unitShift
  have hmem : RaidzSlot.column c k ∈ (vdevRaidzMapAlloc env l ioData).slots l.unitShift ↔
      c < l.acols ∧ k <<< l.unitShift < l.rcSize c := by
    rw [← mapAlloc_rcSize env l ioData c]
    exact Iff.rfl
  rw [hmem]
  constructor
  · rintro ⟨hc, hk⟩
    have hlt : c < l.dcols := by omega
    rw [RaidzLayout.rcSize_eq hlt, Nat.shiftLeft_eq, Nat.shiftLeft_eq] at hk
    exact ⟨hlt, Nat.lt_of_mul_lt_mul_right hk⟩
  · rintro ⟨hc, hk⟩
    have hsize : k <<< l.unitShift < l.rcSize c := by
      rw [RaidzLayout.rcSize_eq hc, Nat.shiftLeft_eq, Nat.shiftLeft_eq]
      exact Nat.mul_lt_mul_of_pos_right hk hunit
    have hacc : c < l.acols := by
      by_contra hge
      have hz : l.rcSize c = 0 := if_pos (by omega)
      rw [hz] at hsize
      exact Nat.not_lt_zero _ hsize
    exact ⟨hacc, hsize⟩

/-- The columns and the skipped sectors are the run, each sector of it once. -/
theorem slotIndex_bijOn (h : l.Whole) :
    Set.BijOn l.slotIndex ((vdevRaidzMapAlloc env l ioData).slots l.unitShift)
      (Set.Iio l.sectors) := by
  have hcols := columns_bijOn (q := l.q) h.bc_lt
  rw [← h.tot_eq] at hcols
  have hup : l.tot ≤ l.sectors := roundup_ge l.tot (Nat.succ_pos l.nparity)
  have hturn : ∀ {c k}, RaidzSlot.column c k ∈ (vdevRaidzMapAlloc env l ioData).slots l.unitShift →
      (l.turn c, k) ∈ {p : Nat × Nat | p.1 < l.dcols ∧ p.2 < columnRows l.q l.bc p.1} := by
    intro c k hmem
    obtain ⟨hc, hk⟩ := (mapAlloc_column_slot env ioData h).mp hmem
    exact ⟨h.turn_lt hc, (RaidzLayout.rows_turn c).symm ▸ hk⟩
  have hskip : ∀ {i}, RaidzSlot.skip i ∈ (vdevRaidzMapAlloc env l ioData).slots l.unitShift ↔
      i < l.sectors - l.tot := Iff.rfl
  have hbelow : ∀ {c k}, RaidzSlot.column c k ∈
      (vdevRaidzMapAlloc env l ioData).slots l.unitShift → l.turn c + k * l.dcols < l.tot :=
    fun hmem => hcols.mapsTo (hturn hmem)
  refine ⟨?_, ?_, ?_⟩
  · rintro (⟨c, k⟩ | i) hmem
    · exact Nat.lt_of_lt_of_le (hbelow hmem) hup
    · have hi := hskip.mp hmem
      simp only [RaidzLayout.slotIndex, Set.mem_Iio]
      omega
  · rintro (⟨c, k⟩ | i) hmem (⟨c', k'⟩ | i') hmem' heq
    · have hpair := hcols.injOn (hturn hmem) (hturn hmem') heq
      simp only [Prod.mk.injEq] at hpair
      have hc : c = c' := by rw [← l.turn_turn c, hpair.1, l.turn_turn]
      rw [hc, hpair.2]
    · have hlt := hbelow hmem
      simp only [RaidzLayout.slotIndex] at heq
      omega
    · have hlt := hbelow hmem'
      simp only [RaidzLayout.slotIndex] at heq
      omega
    · exact congrArg RaidzSlot.skip (Nat.add_left_cancel heq)
  · intro L hL
    simp only [Set.mem_Iio] at hL
    by_cases hin : L < l.tot
    · obtain ⟨⟨c, k⟩, ⟨hc, hk⟩, hidx⟩ := hcols.surjOn hin
      refine ⟨.column (l.turn c) k, (mapAlloc_column_slot env ioData h).mpr ⟨h.turn_lt hc, ?_⟩, ?_⟩
      · rwa [RaidzLayout.rows_turn]
      · simp only [RaidzLayout.slotIndex, l.turn_turn]
        exact hidx
    · refine ⟨.skip (L - l.tot), hskip.mpr (by omega), ?_⟩
      simp only [RaidzLayout.slotIndex]
      omega

theorem slotPlace_eq (h : l.Whole) {slot : RaidzSlot}
    (hmem : slot ∈ (vdevRaidzMapAlloc env l ioData).slots l.unitShift) :
    (vdevRaidzMapAlloc env l ioData).slotPlace l.unitShift slot =
      deviceSector l.unitShift l.dcols (l.b + l.slotIndex slot) := by
  cases slot with
  | column c k =>
    exact mapAlloc_column env ioData h ((mapAlloc_column_slot env ioData h).mp hmem).1 k
  | skip i => exact mapAlloc_skip env ioData h hmem

end Places

/- The linear sectors a block of this layout is charged for. -/
def RaidzLayout.run (l : RaidzLayout) : Set Nat :=
  Set.Ico l.b
    (l.b + vdevRaidzAsize l.unitShift l.dcols l.nparity l.ioSize >>> l.unitShift)

/-- What the map of a block must look like on the devices. -/
structure RaidzGeometry (l : RaidzLayout) (rm : RaidzMap) : Prop where
  data : ∑ c ∈ Finset.Ico rm.rmFirstdatacol rm.rmCols, (rm.rmCol c).rcSize = l.ioSize
  devices : ∀ c c', c < rm.rmCols → c' < rm.rmCols →
    (rm.rmCol c).rcDevidx = (rm.rmCol c').rcDevidx → c = c'
  inside : ∀ c, c < rm.rmCols → (rm.rmCol c).rcDevidx < l.dcols
  whole : ∀ c, c < rm.rmCols → 2 ^ l.unitShift ∣ (rm.rmCol c).rcSize
  asize : rm.rmAsize = vdevRaidzAsize l.unitShift l.dcols l.nparity l.ioSize
  occupied : Set.BijOn (rm.slotPlace l.unitShift) (rm.slots l.unitShift)
    (deviceSector l.unitShift l.dcols '' l.run)

theorem RaidzLayout.Whole.run_eq {l : RaidzLayout} (h : l.Whole) :
    l.run = Set.Ico l.b (l.b + l.sectors) := by
  rw [RaidzLayout.run, h.vdevRaidzAsize_eq, Nat.shiftLeft_shiftRight]

theorem RaidzLayout.Whole.geometry {l : RaidzLayout} (h : l.Whole) (env : RaidzEnv) (ioData : Buf) :
    RaidzGeometry l (vdevRaidzMapAlloc env l ioData) := by
  have hcols := RaidzLayout.acols_le_dcols h
  have hdev : ∀ c, c < l.dcols → ((vdevRaidzMapAlloc env l ioData).rmCol c).rcDevidx =
      (stripe l.dcols (l.b + l.turn c)).1 :=
    fun c hc => congrArg Prod.fst (mapAlloc_place env ioData h hc)
  constructor
  · have hsum := h.data_sum
    simp only [mapAlloc_rcSize]
    exact hsum
  · intro c c' hc hc' heq
    have hlt : c < l.dcols := Nat.lt_of_lt_of_le hc hcols
    have hlt' : c' < l.dcols := Nat.lt_of_lt_of_le hc' hcols
    rw [hdev c hlt, hdev c' hlt'] at heq
    have hturn := stripe_column_device (h.turn_lt hlt) (h.turn_lt hlt') heq
    rw [← l.turn_turn c, hturn, l.turn_turn]
  · intro c hc
    have hlt : c < l.dcols := Nat.lt_of_lt_of_le hc hcols
    rw [hdev c hlt]
    exact Nat.mod_lt _ (by omega)
  · intro c hc
    rw [mapAlloc_rcSize, RaidzLayout.rcSize_eq (Nat.lt_of_lt_of_le hc hcols), Nat.shiftLeft_eq]
    exact Nat.dvd_mul_left _ _
  · exact h.rmAsize_eq.trans h.vdevRaidzAsize_eq.symm
  · have hshift : Set.BijOn (l.b + ·) (Set.Iio l.sectors) l.run := by
      rw [h.run_eq]
      exact bijOn_add_left _ _
    have hdevs : Set.BijOn (deviceSector l.unitShift l.dcols) l.run
        (deviceSector l.unitShift l.dcols '' l.run) :=
      (deviceSector_injective l.unitShift l.dcols).injOn.bijOn_image
    refine (hdevs.comp (hshift.comp (slotIndex_bijOn env ioData h))).congr ?_
    intro slot hmem
    exact (slotPlace_eq env ioData h hmem).symm

/-- The columns of every RAID-Z block: their data is the block, they are on distinct devices, and
with the skipped sectors they are the run that `vdev_raidz_asize` charges for. Blocks of one vdev
with disjoint runs share no sector. -/
theorem raidz_geometry (env : RaidzEnv) (l : RaidzLayout) (ioData : Buf)
    (parity_pos : 1 ≤ l.nparity) (parity_lt : l.nparity < l.dcols)
    (size : 2 ^ l.unitShift ∣ l.ioSize) (size_pos : 0 < l.ioSize) :
    RaidzGeometry l (vdevRaidzMapAlloc env l ioData) ∧
    ∀ (l' : RaidzLayout) (ioData' : Buf), l'.unitShift = l.unitShift → l'.dcols = l.dcols →
      l'.nparity = l.nparity → 2 ^ l.unitShift ∣ l'.ioSize → 0 < l'.ioSize →
      Disjoint l.run l'.run →
      ∀ slot ∈ (vdevRaidzMapAlloc env l ioData).slots l.unitShift,
      ∀ slot' ∈ (vdevRaidzMapAlloc env l' ioData').slots l.unitShift,
        (vdevRaidzMapAlloc env l ioData).slotPlace l.unitShift slot ≠
          (vdevRaidzMapAlloc env l' ioData').slotPlace l.unitShift slot' := by
  have hg := RaidzLayout.Whole.geometry ⟨parity_pos, parity_lt, size, size_pos⟩ env ioData
  refine ⟨hg, ?_⟩
  intro l' ioData' hu hd hp hsize' hpos' hdisj slot hmem slot' hmem' heq
  have hg' : RaidzGeometry l' (vdevRaidzMapAlloc env l' ioData') := by
    refine RaidzLayout.Whole.geometry ⟨?_, ?_, ?_, hpos'⟩ env ioData'
    · rwa [hp]
    · rwa [hp, hd]
    · rwa [hu]
  obtain ⟨L, hL, hplace⟩ := hg.occupied.mapsTo hmem
  have hocc' := hg'.occupied
  rw [hu, hd] at hocc'
  obtain ⟨L', hL', hplace'⟩ := hocc'.mapsTo hmem'
  have hLL : L = L' := deviceSector_injective l.unitShift l.dcols (by rw [hplace, hplace', heq])
  exact Set.disjoint_left.mp hdisj hL (hLL ▸ hL')

/-- Three devices, single parity, in a megabyte where the first two columns are exchanged: one
sector is skipped. -/
theorem raidz_geometry_exchanged :
    RaidzGeometry ⟨9, 3, 1, 2 ^ 20, 1024⟩
        (vdevRaidzMapAlloc ⟨fun _ _ => 0, false⟩ ⟨9, 3, 1, 2 ^ 20, 1024⟩ fun _ => 0) ∧
      (vdevRaidzMapAlloc ⟨fun _ _ => 0, false⟩ ⟨9, 3, 1, 2 ^ 20, 1024⟩ fun _ => 0).rmNskip = 1 :=
  ⟨(raidz_geometry ⟨fun _ _ => 0, false⟩ ⟨9, 3, 1, 2 ^ 20, 1024⟩ (fun _ => 0) (by decide)
    (by decide) ⟨2, rfl⟩ (by decide)).1, by decide⟩

end ClusterZfs

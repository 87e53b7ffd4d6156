import ClusterZfs.Lib.SmallCode
import ClusterZfs.Raidz.Galois
import ClusterZfs.Lib.Loop

/-! The matrix of the general reconstruction: `vdev_raidz_matrix_init` fills the rows of the
parity columns in use, `vdev_raidz_matrix_invert` solves for the missing data columns. The
byte operations are those of Gauss-Jordan elimination as long as no entry that the code takes
a logarithm of is zero. -/
namespace ClusterZfs

abbrev ByteMatrix := Nat → Nat → BitVec 8

def setEntry (m : ByteMatrix) (i j : Nat) (b : BitVec 8) : ByteMatrix :=
  Function.update m i (Function.update (m i) j b)

/- The row of the parity column with weight base `2 ^ e`; the exponent runs down. -/
def matrixInitStep (i e j : Nat) (st : Int × ByteMatrix) : Int × ByteMatrix :=
  let pow := st.1 - e
  let pow := if pow < 0 then pow + 255 else pow
  (pow, setEntry st.2 i j (vdevRaidzPow2 pow.toNat))

def matrixInitRow (n i e : Nat) (rows : ByteMatrix) : ByteMatrix :=
  let pow : Int := e * n
  let pow := if pow > 255 then pow - 255 else pow
  (forRange 0 n (matrixInitStep i e) (pow, rows)).2

def vdevRaidzMatrixInit (n nmap : Nat) (map : Nat → Nat) (rows : ByteMatrix) : ByteMatrix :=
  forRange 0 nmap (fun i rows => matrixInitRow n i (map i) rows) rows

/- The two inner loops of the inversion, each over one row. -/
def scaleRow (n i log : Nat) (m : ByteMatrix) : ByteMatrix :=
  forRange 0 n (fun j m => setEntry m i j (vdevRaidzExp2 (m i j) log)) m

def addRow (n i ii log : Nat) (m : ByteMatrix) : ByteMatrix :=
  forRange 0 n (fun j m => setEntry m ii j (m ii j ^^^ vdevRaidzExp2 (m i j) log)) m

/- Rows of the identity, with the columns of the surviving data moved over. -/
def subtractTrivialRow (firstdatacol n nmissing : Nat) (used : Nat → Nat) (i : Nat)
    (st : ByteMatrix × ByteMatrix) : ByteMatrix × ByteMatrix :=
  forRange nmissing n (fun j (st : ByteMatrix × ByteMatrix) =>
    let jj := used j - firstdatacol
    (setEntry st.1 i jj 0, setEntry st.2 i j (st.1 i jj))) st

def subtractTrivial (firstdatacol n nmissing : Nat) (rows : ByteMatrix) (used : Nat → Nat) :
    ByteMatrix × ByteMatrix :=
  forRange 0 nmissing (subtractTrivialRow firstdatacol n nmissing used)
    (rows, fun i j => if i = j then 1 else 0)

def eliminateRow (n nmissing : Nat) (missing : Nat → Nat) (i : Nat)
    (st : ByteMatrix × ByteMatrix) : ByteMatrix × ByteMatrix :=
  let log := 255 - vdevRaidzLog2 (st.1 i (missing i))
  let st := (scaleRow n i log st.1, scaleRow n i log st.2)
  forRange 0 nmissing (fun ii (st : ByteMatrix × ByteMatrix) =>
    if i = ii then st
    else
      let log := vdevRaidzLog2 (st.1 ii (missing i))
      (addRow n i ii log st.1, addRow n i ii log st.2)) st

def vdevRaidzMatrixInvert (firstdatacol n nmissing : Nat) (missing : Nat → Nat)
    (rows : ByteMatrix) (used : Nat → Nat) : ByteMatrix × ByteMatrix :=
  forRange 0 nmissing (eliminateRow n nmissing missing)
    (subtractTrivial firstdatacol n nmissing rows used)

theorem setEntry_apply (m : ByteMatrix) (i j : Nat) (b : BitVec 8) (i' j' : Nat) :
    setEntry m i j b i' j' = if i' = i ∧ j' = j then b else m i' j' := by
  unfold setEntry
  obtain rfl | hi := eq_or_ne i' i
  · obtain rfl | hj := eq_or_ne j' j <;> simp [*]
  · simp [hi]

/-- A loop that fills one row, each entry from its old value and from other rows. -/
theorem fillRow_apply (n i : Nat) (f : Nat → ByteMatrix → BitVec 8) (m : ByteMatrix)
    (reads : ∀ j t, (∀ i' j', i' ≠ i ∨ j ≤ j' → t i' j' = m i' j') → f j t = f j m)
    (i' j' : Nat) :
    forRange 0 n (fun j t => setEntry t i j (f j t)) m i' j' =
      if i' = i ∧ j' < n then f j' m else m i' j' := by
  refine forRange_invariant (fun n (t : ByteMatrix) => ∀ i' j', t i' j' =
    if i' = i ∧ j' < n then f j' m else m i' j') (Nat.zero_le n) ?_ ?_ i' j'
  · intro i' j'
    rw [if_neg (by omega)]
  · intro j t _ _ ih i' j'
    have hread : f j t = f j m := by
      refine reads j t fun i' j' hout => ?_
      rw [ih i' j', if_neg (by omega)]
    rw [setEntry_apply, hread, ih i' j']
    by_cases hnew : i' = i ∧ j' = j
    · rw [if_pos hnew, if_pos (by omega), hnew.2]
    · rw [if_neg hnew]
      by_cases hold : i' = i ∧ j' < j
      · rw [if_pos hold, if_pos (by omega)]
      · rw [if_neg hold, if_neg (by omega)]

theorem scaleRow_apply (n i log : Nat) (m : ByteMatrix) (i' j' : Nat) :
    scaleRow n i log m i' j' =
      if i' = i ∧ j' < n then vdevRaidzExp2 (m i j') log else m i' j' := by
  refine fillRow_apply n i (fun j t => vdevRaidzExp2 (t i j) log) m ?_ i' j'
  intro j t h
  rw [h i j (Or.inr (Nat.le_refl j))]

theorem addRow_apply (n i ii log : Nat) (hne : i ≠ ii) (m : ByteMatrix) (i' j' : Nat) :
    addRow n i ii log m i' j' =
      if i' = ii ∧ j' < n then m ii j' ^^^ vdevRaidzExp2 (m i j') log else m i' j' := by
  refine fillRow_apply n ii (fun j t => t ii j ^^^ vdevRaidzExp2 (t i j) log) m ?_ i' j'
  intro j t h
  rw [h ii j (Or.inr (Nat.le_refl j)), h i j (Or.inl hne)]

/- The rows after the loop over `ii`: the pivot row is scaled, the others have lost a
multiple of it. Both matrices take their factors from the first one. -/
theorem eliminateRow_apply {n nmissing i : Nat} {missing : Nat → Nat}
    (st : ByteMatrix × ByteMatrix) (hmissing : missing i < n) {r j : Nat}
    (hr : r < nmissing) (hj : j < n) :
    let log := 255 - vdevRaidzLog2 (st.1 i (missing i))
    let factor := vdevRaidzLog2 (st.1 r (missing i))
    (eliminateRow n nmissing missing i st).1 r j =
        (if r = i then vdevRaidzExp2 (st.1 i j) log
          else st.1 r j ^^^ vdevRaidzExp2 (vdevRaidzExp2 (st.1 i j) log) factor) ∧
      (eliminateRow n nmissing missing i st).2 r j =
        (if r = i then vdevRaidzExp2 (st.2 i j) log
          else st.2 r j ^^^ vdevRaidzExp2 (vdevRaidzExp2 (st.2 i j) log) factor) := by
  intro log factor
  let value (m : ByteMatrix) (ii r j : Nat) : BitVec 8 :=
    if r = i then vdevRaidzExp2 (m i j) log
    else if r < ii then
      m r j ^^^ vdevRaidzExp2 (vdevRaidzExp2 (m i j) log) (vdevRaidzLog2 (st.1 r (missing i)))
    else m r j
  have hinv : ∀ r j, j < n →
      (eliminateRow n nmissing missing i st).1 r j = value st.1 nmissing r j ∧
        (eliminateRow n nmissing missing i st).2 r j = value st.2 nmissing r j := by
    refine forRange_invariant (fun ii (t : ByteMatrix × ByteMatrix) => ∀ r j, j < n →
      t.1 r j = value st.1 ii r j ∧ t.2 r j = value st.2 ii r j) (Nat.zero_le nmissing) ?_ ?_
    · intro r j hj
      simp only [scaleRow_apply, value, Nat.not_lt_zero, if_false]
      by_cases hri : r = i
      · simp [hri, hj, log]
      · simp [hri]
    · intro ii t _ _ ih r j hj
      by_cases hii : i = ii
      · rw [if_pos hii, (ih r j hj).1, (ih r j hj).2]
        simp only [value]
        by_cases hri : r = i
        · simp [hri]
        · have hlt : r < ii + 1 ↔ r < ii := by omega
          simp [hri, hlt]
      · have hlog : t.1 ii (missing i) = st.1 ii (missing i) := by
          rw [(ih ii (missing i) hmissing).1]
          simp [value, Ne.symm hii]
        simp only [if_neg hii, addRow_apply _ _ _ _ hii, hlog, (ih _ j hj).1, (ih _ j hj).2]
        by_cases hrii : r = ii
        · have hri : ¬ ii = i := Ne.symm hii
          simp [value, hrii, hj, hri]
        · have hlt : r < ii + 1 ↔ r < ii := by omega
          simp [value, hrii, hlt]
  obtain ⟨hrows, hinvrows⟩ := hinv r j hj
  rw [hrows, hinvrows]
  simp only [value, if_pos hr]
  exact ⟨rfl, rfl⟩

/- Scaling and adding with the table operations, as field operations. -/
theorem mk_exp2_div (entry : BitVec 8) {pivot : BitVec 8} (hpivot : Gf.mk pivot ≠ 0) :
    Gf.mk (vdevRaidzExp2 entry (255 - vdevRaidzLog2 pivot)) = Gf.mk entry / Gf.mk pivot := by
  rw [Gf.mk_exp2 _ _ (Nat.sub_le _ _), Gf.gen_pow_complement _ (Nat.le_of_lt (log2_lt pivot)),
    ← Gf.mk_eq_gen_pow pivot (fun h => hpivot (Gf.mk_eq_zero.mpr h)), div_eq_inv_mul]

theorem mk_exp2_mul (entry : BitVec 8) {factor : BitVec 8} (hfactor : Gf.mk factor ≠ 0) :
    Gf.mk (vdevRaidzExp2 entry (vdevRaidzLog2 factor)) = Gf.mk factor * Gf.mk entry := by
  rw [Gf.mk_exp2 _ _ (Nat.le_of_lt (log2_lt factor)),
    ← Gf.mk_eq_gen_pow factor (fun h => hfactor (Gf.mk_eq_zero.mpr h))]

/-- One step of the inversion is one pivot step on every column of both matrices. The
logarithms are meaningful because the pivot column has no zero. -/
theorem eliminateRow_column {n nmissing i : Nat} {missing : Nat → Nat}
    {st : ByteMatrix × ByteMatrix} (hi : i < nmissing) (hmissing : missing i < n)
    (pivots : ∀ r, r < nmissing → Gf.mk (st.1 r (missing i)) ≠ 0) {r j : Nat}
    (hr : r < nmissing) (hj : j < n) :
    Gf.mk ((eliminateRow n nmissing missing i st).1 r j) =
        pivotStep (fun r => Gf.mk (st.1 r (missing i))) i (fun r => Gf.mk (st.1 r j)) r ∧
      Gf.mk ((eliminateRow n nmissing missing i st).2 r j) =
        pivotStep (fun r => Gf.mk (st.1 r (missing i))) i (fun r => Gf.mk (st.2 r j)) r := by
  obtain ⟨hrows, hinvrows⟩ := eliminateRow_apply st hmissing hr hj
  rw [hrows, hinvrows]
  unfold pivotStep
  by_cases hri : r = i
  · simp [if_pos hri, mk_exp2_div _ (pivots i hi)]
  · simp [if_neg hri, Gf.mk_xor, mk_exp2_mul _ (pivots r hr), mk_exp2_div _ (pivots i hi),
      Gf.sub_eq_add]

/- The exponent is kept in range modulo 255, so each entry is the power it should be. -/
structure InitInv (n i e : Nat) (rows : ByteMatrix) (j : Nat) (st : Int × ByteMatrix) : Prop where
  pow_nonneg : 0 ≤ st.1
  pow_le : st.1 ≤ 255
  pow_eq : Gf.gen ^ (st.1.toNat + e * j) = Gf.gen ^ (e * n)
  other : ∀ i' j', i' ≠ i → st.2 i' j' = rows i' j'
  row : ∀ j', j' < j → Gf.mk (st.2 i j') = (Gf.gen ^ (n - 1 - j')) ^ e

theorem initInv_step {n i e j : Nat} {rows : ByteMatrix} {st : Int × ByteMatrix} (he : e ≤ 2)
    (hj : j < n) (inv : InitInv n i e rows j st) :
    InitInv n i e rows (j + 1) (matrixInitStep i e j st) := by
  have hnonneg := inv.pow_nonneg
  have hle := inv.pow_le
  have hpow : ∃ k : Nat, (matrixInitStep i e j st).1 = k ∧ k ≤ 255 ∧
      (k + e = st.1.toNat ∨ k + e = st.1.toNat + 255) := by
    simp only [matrixInitStep]
    refine ⟨(if st.1 - e < 0 then st.1 - e + 255 else st.1 - e).toNat, ?_, ?_, ?_⟩ <;>
      split <;> omega
  obtain ⟨k, hk, hk255, hcase⟩ := hpow
  have hgen : Gf.gen ^ (k + e) = Gf.gen ^ st.1.toNat := by
    rcases hcase with h | h
    · rw [h]
    · rw [h, pow_add, Gf.gen_pow_order, mul_one]
  have hnext : Gf.gen ^ (k + e * (j + 1)) = Gf.gen ^ (e * n) := by
    rw [← inv.pow_eq, pow_add _ st.1.toNat, ← hgen, ← pow_add]
    congr 1
    ring
  have hentry : Gf.gen ^ k = (Gf.gen ^ (n - 1 - j)) ^ e := by
    have hsum : e * n = (n - 1 - j) * e + e * (j + 1) := by
      obtain ⟨d, rfl⟩ : ∃ d, n = d + (j + 1) := ⟨n - (j + 1), by omega⟩
      rw [show d + (j + 1) - 1 - j = d by omega]
      ring
    rw [hsum, pow_add, pow_add, mul_left_inj' (Gf.gen_pow_ne_zero _)] at hnext
    rw [hnext, pow_mul]
  constructor
  · rw [hk]
    exact Int.natCast_nonneg k
  · rw [hk]
    exact_mod_cast hk255
  · rw [hk, Int.toNat_natCast]
    exact hnext
  · intro i' j' hi'
    simp only [matrixInitStep, setEntry_apply, hi', false_and, if_false]
    exact inv.other i' j' hi'
  · intro j' hj'
    have hstored : (matrixInitStep i e j st).2 =
        setEntry st.2 i j (vdevRaidzPow2 (matrixInitStep i e j st).1.toNat) := rfl
    rw [hstored, setEntry_apply, hk, Int.toNat_natCast]
    by_cases hjj : j' = j
    · rw [if_pos ⟨rfl, hjj⟩, Gf.mk_pow2 _ hk255, hentry, hjj]
    · rw [if_neg (by omega)]
      exact inv.row j' (by omega)

theorem matrixInitRow_spec {n e : Nat} (i : Nat) (rows : ByteMatrix) (hn : n ≤ 255) (he : e ≤ 2) :
    (∀ i' j', i' ≠ i → matrixInitRow n i e rows i' j' = rows i' j') ∧
      ∀ j, j < n → Gf.mk (matrixInitRow n i e rows i j) = (Gf.gen ^ (n - 1 - j)) ^ e := by
  have hbound : e * n ≤ 510 := Nat.mul_le_mul he hn
  have hinv : InitInv n i e rows n (forRange 0 n (matrixInitStep i e)
      ((if (e * n : Int) > 255 then (e * n : Int) - 255 else e * n), rows)) := by
    refine forRange_invariant (InitInv n i e rows) (Nat.zero_le n) ?_
      (fun j st _ hj inv => initInv_step he hj inv)
    refine ⟨?_, ?_, ?_, fun _ _ _ => rfl, nofun⟩
    · simp only
      split <;> omega
    · simp only
      split <;> omega
    · simp only [Nat.mul_zero, Nat.add_zero]
      split
      · have hcast : ((e * n : Int) - 255).toNat = e * n - 255 := by omega
        rw [hcast]
        exact Gf.gen_pow_reduce _ (by omega)
      · have hcast : (e * n : Int).toNat = e * n := by omega
        rw [hcast]
  exact ⟨hinv.other, hinv.row⟩

theorem matrixInit_entry {n nmap : Nat} {map : Nat → Nat} (rows : ByteMatrix) (hn : n ≤ 255)
    (hmap : ∀ r, r < nmap → map r ≤ 2) {r j : Nat} (hr : r < nmap) (hj : j < n) :
    Gf.mk (vdevRaidzMatrixInit n nmap map rows r j) = (Gf.gen ^ (n - 1 - j)) ^ map r := by
  refine forRange_invariant (fun k (t : ByteMatrix) => ∀ r j, r < k → j < n →
    Gf.mk (t r j) = (Gf.gen ^ (n - 1 - j)) ^ map r) (Nat.zero_le nmap) nofun ?_ r j hr hj
  intro i t _ hi ih r j hr hj
  obtain ⟨hother, hrow⟩ := matrixInitRow_spec i t hn (hmap i hi)
  obtain rfl | hri := eq_or_ne r i
  · exact hrow j hj
  · rw [hother r j hri]
    exact ih r j (by omega) hj

section Trivial

variable {firstdatacol n nmissing : Nat} {used : Nat → Nat}

/- Row `i` once its trivial entries before `j` are moved. -/
structure RowMoved (firstdatacol nmissing : Nat) (used : Nat → Nat) (i : Nat)
    (before : ByteMatrix × ByteMatrix) (j : Nat) (st : ByteMatrix × ByteMatrix) : Prop where
  cleared : ∀ l, nmissing ≤ l → l < j → st.1 i (used l - firstdatacol) = 0
  kept : ∀ c, (∀ l, nmissing ≤ l → l < j → used l - firstdatacol ≠ c) → st.1 i c = before.1 i c
  moved : ∀ l, nmissing ≤ l → l < j → st.2 i l = before.1 i (used l - firstdatacol)
  identity : ∀ l, l < nmissing → st.2 i l = before.2 i l

/- The surviving columns have places of their own. -/
def DistinctPlaces (firstdatacol n nmissing : Nat) (used : Nat → Nat) : Prop :=
  ∀ l l', nmissing ≤ l → l < n → nmissing ≤ l' → l' < n → l ≠ l' →
    used l - firstdatacol ≠ used l' - firstdatacol

theorem rowMoved_step {i j : Nat} {before st : ByteMatrix × ByteMatrix}
    (distinct : DistinctPlaces firstdatacol n nmissing used) (hj : nmissing ≤ j) (hlt : j < n)
    (inv : RowMoved firstdatacol nmissing used i before j st) :
    RowMoved firstdatacol nmissing used i before (j + 1)
      (setEntry st.1 i (used j - firstdatacol) 0,
        setEntry st.2 i j (st.1 i (used j - firstdatacol))) := by
  have hread : st.1 i (used j - firstdatacol) = before.1 i (used j - firstdatacol) := by
    exact inv.kept _ fun l hl hlj => distinct l j hl (by omega) hj hlt (by omega)
  constructor
  · intro l hl hlj
    simp only [setEntry_apply, true_and]
    split
    · rfl
    · rename_i hne
      have hlj' : l ≠ j := fun h => hne (by rw [h])
      exact inv.cleared l hl (by omega)
  · intro c hc
    have hcj : c ≠ used j - firstdatacol := Ne.symm (hc j hj (Nat.lt_succ_self j))
    simp only [setEntry_apply, true_and, if_neg hcj]
    exact inv.kept c (fun l hl hlj => hc l hl (Nat.lt_succ_of_lt hlj))
  · intro l hl hlj
    simp only [setEntry_apply, true_and]
    by_cases hlj' : l = j
    · rw [if_pos hlj', hread, hlj']
    · rw [if_neg hlj']
      exact inv.moved l hl (by omega)
  · intro l hl
    have hlj : l ≠ j := by omega
    simp only [setEntry_apply, true_and, if_neg hlj]
    exact inv.identity l hl

theorem subtractTrivialRow_spec (hn : nmissing ≤ n)
    (distinct : DistinctPlaces firstdatacol n nmissing used) (i : Nat)
    (st : ByteMatrix × ByteMatrix) :
    (∀ r c, r ≠ i → (subtractTrivialRow firstdatacol n nmissing used i st).1 r c = st.1 r c ∧
        (subtractTrivialRow firstdatacol n nmissing used i st).2 r c = st.2 r c) ∧
      RowMoved firstdatacol nmissing used i st n
        (subtractTrivialRow firstdatacol n nmissing used i st) := by
  constructor
  · intro r c hr
    refine forRange_preserves (fun t : ByteMatrix × ByteMatrix =>
      t.1 r c = st.1 r c ∧ t.2 r c = st.2 r c) ⟨rfl, rfl⟩ ?_
    intro j t _ _ ht
    simpa only [setEntry_apply, hr, false_and, if_false] using ht
  · refine forRange_invariant (RowMoved firstdatacol nmissing used i st) hn ?_
      (fun j t hj hlt inv => rowMoved_step distinct hj hlt inv)
    exact ⟨fun l hl hlt => by omega, fun _ _ => rfl, fun l hl hlt => by omega, fun _ _ => rfl⟩

theorem subtractTrivial_spec (rows : ByteMatrix) (hn : nmissing ≤ n)
    (distinct : DistinctPlaces firstdatacol n nmissing used) {r : Nat} (hr : r < nmissing) :
    RowMoved firstdatacol nmissing used r (rows, fun i j => if i = j then 1 else 0) n
      (subtractTrivial firstdatacol n nmissing rows used) := by
  let start : ByteMatrix × ByteMatrix := (rows, fun i j => if i = j then 1 else 0)
  refine (forRange_invariant (fun i (t : ByteMatrix × ByteMatrix) => ∀ r,
    (i ≤ r → ∀ c, t.1 r c = start.1 r c ∧ t.2 r c = start.2 r c) ∧
      (r < i → RowMoved firstdatacol nmissing used r start n t)) (Nat.zero_le nmissing)
    (fun r => ⟨fun _ _ => ⟨rfl, rfl⟩, nofun⟩) ?_ r).2 hr
  intro i t _ _ ih r
  obtain ⟨hother, hrow⟩ := subtractTrivialRow_spec hn distinct i t
  constructor
  · intro hir c
    rw [(hother r c (by omega)).1, (hother r c (by omega)).2]
    exact (ih r).1 (by omega) c
  · intro hri
    obtain rfl | hr := eq_or_ne r i
    · -- row i was untouched until now
      have hclean := (ih r).1 (Nat.le_refl r)
      exact ⟨hrow.cleared, fun c hc => (hrow.kept c hc).trans (hclean c).1,
        fun l hl hlt => (hrow.moved l hl hlt).trans (hclean _).1,
        fun l hl => (hrow.identity l hl).trans (hclean l).2⟩
    · have hdone := (ih r).2 (by omega)
      have hsame := fun c => hother r c hr
      exact ⟨fun l hl hlt => (hsame _).1.trans (hdone.cleared l hl hlt),
        fun c hc => (hsame c).1.trans (hdone.kept c hc),
        fun l hl hlt => (hsame l).2.trans (hdone.moved l hl hlt),
        fun l hl => (hsame l).2.trans (hdone.identity l hl)⟩

/-- The elimination as a whole, column by column: `a` lists the pivot columns, `w` the
columns of the first matrix and `v` those of the second at the start. -/
theorem matrixInvert_columns {missing : Nat → Nat} {rows : ByteMatrix} {a w v : Nat → Nat → Gf}
    (hmissing : ∀ i, i < nmissing → missing i < n)
    (hrows : ∀ r j, r < nmissing → j < n →
      Gf.mk ((subtractTrivial firstdatacol n nmissing rows used).1 r j) = w j r)
    (hinvrows : ∀ r j, r < nmissing → j < n →
      Gf.mk ((subtractTrivial firstdatacol n nmissing rows used).2 r j) = v j r)
    (pivotColumn : ∀ i, i < nmissing → ∀ r, r < nmissing → w (missing i) r = a i r)
    (pivots : ∀ i, i < nmissing → ∀ r, r < nmissing → eliminate a i (a i) r ≠ 0)
    {r j : Nat} (hr : r < nmissing) (hj : j < n) :
    Gf.mk ((vdevRaidzMatrixInvert firstdatacol n nmissing missing rows used).2 r j) =
      eliminate a nmissing (v j) r := by
  refine (forRange_invariant (fun i (t : ByteMatrix × ByteMatrix) => ∀ r j, r < nmissing →
    j < n → Gf.mk (t.1 r j) = eliminate a i (w j) r ∧ Gf.mk (t.2 r j) = eliminate a i (v j) r)
    (Nat.zero_le nmissing) (fun r j hr hj => ⟨hrows r j hr hj, hinvrows r j hr hj⟩) ?_ r j hr hj).2
  intro i t _ hi ih r j hr hj
  have hpivot : ∀ r, r < nmissing → Gf.mk (t.1 r (missing i)) = eliminate a i (a i) r := by
    intro r hr
    rw [(ih r (missing i) hr (hmissing i hi)).1]
    exact eliminate_congr a (Nat.le_of_lt hi) (pivotColumn i hi) r hr
  obtain ⟨h1, h2⟩ := eliminateRow_column hi (hmissing i hi)
    (fun r hr => (hpivot r hr).symm ▸ pivots i hi r hr) hr hj
  rw [h1, h2]
  simp [eliminate, pivotStep, hpivot i hi, hpivot r hr, (ih r j hr hj).1, (ih r j hr hj).2,
    (ih i j hi hj).1, (ih i j hi hj).2]

end Trivial

end ClusterZfs

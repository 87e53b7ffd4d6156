import ClusterZfs.Raidz.Matrix
import ClusterZfs.Raidz.Select
import ClusterZfs.Raidz.Special

/-! The general reconstruction: pick parity columns, build and invert the matrix, and add up
the surviving columns with the coefficients found. -/
namespace ClusterZfs

variable {nmissing : Nat}

/- The product of a source byte and a coefficient, through their logarithms. -/
def scaledByte (src coeff : BitVec 8) : BitVec 8 :=
  if src = 0 then 0
  else
    let ll := vdevRaidzLog2 src + vdevRaidzLog2 coeff
    vdevRaidzPow2 (if ll ≥ 255 then ll - 255 else ll)

/- One source column added to all missing columns; the first one overwrites them. -/
def addColumn (nmissing : Nat) (dcount : Nat → Nat) (invrows : ByteMatrix) (i : Nat)
    (col : RaidzCol) (dst : Nat → Buf) : Nat → Buf :=
  forRange 0 col.rcSize (fun x dst =>
    forRange 0 nmissing (fun cc (dst : Nat → Buf) =>
      if x ≥ dcount cc then dst
      else
        let val := scaledByte (col.rcData x) (invrows cc i)
        Function.update dst cc
          (storeByte (dst cc) x (if i = 0 then val else dst cc x ^^^ val))) dst) dst

def vdevRaidzMatrixReconstruct (rm : RaidzMap) (n nmissing : Nat) (missing : Nat → Nat)
    (invrows : ByteMatrix) (used : Nat → Nat) : RaidzMap :=
  let dcount := fun j => (rm.rmCol (missing j + rm.rmFirstdatacol)).rcSize
  let dst := forRange 0 n (fun i dst =>
    addColumn nmissing dcount invrows i (rm.rmCol (used i)) dst)
    (fun j => (rm.rmCol (missing j + rm.rmFirstdatacol)).rcData)
  forRange 0 nmissing (fun j rm => rm.setData (missing j + rm.rmFirstdatacol) (dst j)) rm

def missingRows (rm : RaidzMap) (tgts : List Nat) : List Nat :=
  (tgts.filter (fun t => t ≥ rm.rmFirstdatacol)).map (fun t => t - rm.rmFirstdatacol)

def vdevRaidzReconstructGeneral (rm : RaidzMap) (tgts : List Nat) : RaidzMap × Nat :=
  let n := rm.rmCols - rm.rmFirstdatacol
  let missing := missingRows rm tgts
  let nmissing := missing.length
  let parity := parityMap (nmissing + tgts.length) tgts 0 nmissing
  let code := parity.foldl (fun code c => code ||| 1 <<< c) 0
  let used := parity ++ usedData rm missing
  let rows := vdevRaidzMatrixInit n nmissing (parity.getD · 0) (fun _ _ => 0)
  let inverted := vdevRaidzMatrixInvert rm.rmFirstdatacol n nmissing (missing.getD · 0) rows
    (used.getD · 0)
  (vdevRaidzMatrixReconstruct rm n nmissing (missing.getD · 0) inverted.2 (used.getD · 0), code)

theorem mk_scaledByte (src : BitVec 8) {coeff : BitVec 8} (h : Gf.mk coeff ≠ 0) :
    Gf.mk (scaledByte src coeff) = Gf.mk coeff * Gf.mk src := by
  have hsrc := log2_lt src
  have hcoeff := log2_lt coeff
  unfold scaledByte
  split
  · rename_i hz
    rw [hz, Gf.mk_zero, mul_zero]
  · rename_i hne
    rw [Gf.mk_eq_gen_pow src hne, Gf.mk_eq_gen_pow coeff (fun hz => h (Gf.mk_eq_zero.mpr hz)),
      ← pow_add, Nat.add_comm (vdevRaidzLog2 coeff)]
    simp only
    split
    · rw [Gf.mk_pow2 _ (by omega), Gf.gen_pow_reduce _ (by omega)]
    · rw [Gf.mk_pow2 _ (by omega)]

theorem addColumn_byte {cc x : Nat} (i : Nat) (dcount : Nat → Nat)
    (invrows : ByteMatrix) (col : RaidzCol) (dst : Nat → Buf) (hcc : cc < nmissing)
    (hx : x < dcount cc) :
    addColumn nmissing dcount invrows i col dst cc x =
      if x < col.rcSize then
        if i = 0 then scaledByte (col.rcData x) (invrows cc i)
        else dst cc x ^^^ scaledByte (col.rcData x) (invrows cc i)
      else dst cc x := by
  let put (cc x : Nat) (b : BitVec 8) : BitVec 8 :=
    if x ≥ dcount cc then b
    else if i = 0 then scaledByte (col.rcData x) (invrows cc i)
    else b ^^^ scaledByte (col.rcData x) (invrows cc i)
  -- the buffer of one missing column, on its own
  have hview : addColumn nmissing dcount invrows i col dst cc =
      forRange 0 col.rcSize (fun x buf => Function.update buf x (put cc x (buf x))) (dst cc) := by
    refine forRange_map (fun dst : Nat → Buf => dst cc) _ ?_
    intro x t
    rw [forRange_congr (g := fun cc (t : Nat → Buf) => Function.update t cc
      (Function.update (t cc) x (put cc x (t cc x))))]
    · rw [forRange_cells_zero (fun cc (buf : Buf) => Function.update buf x (put cc x (buf x))),
        if_pos ⟨Nat.zero_le cc, hcc⟩]
    · intro cc' t' _ _
      by_cases hskip : x ≥ dcount cc'
      · simp [put, if_pos hskip]
      · simp [put, if_neg hskip, storeByte]
  rw [hview, forRange_cells_zero (fun x b => put cc x b)]
  have hskip : ¬ x ≥ dcount cc := by omega
  by_cases hsize : x < col.rcSize
  · simp only [put, hsize, Nat.zero_le, and_self, if_true, if_neg hskip]
  · simp only [hsize, and_false, if_false]

theorem addColumns_byte {n cc x : Nat} {dcount : Nat → Nat} {invrows : ByteMatrix}
    {cols : Nat → RaidzCol} (dst : Nat → Buf) (hn : 0 < n) (hcc : cc < nmissing)
    (hx : x < dcount cc) (first : dcount cc ≤ (cols 0).rcSize)
    (nonzero : ∀ i, i < n → Gf.mk (invrows cc i) ≠ 0) :
    Gf.mk (forRange 0 n (fun i dst => addColumn nmissing dcount invrows i (cols i) dst) dst cc x) =
      ∑ i ∈ Finset.range n, (cols i).padByte x * Gf.mk (invrows cc i) := by
  refine forRange_invariant (fun k (t : Nat → Buf) => 0 < k → Gf.mk (t cc x) =
    ∑ i ∈ Finset.range k, (cols i).padByte x * Gf.mk (invrows cc i)) (Nat.zero_le n) nofun ?_ hn
  intro i t _ hi ih _
  rw [addColumn_byte i dcount invrows (cols i) t hcc hx, Finset.sum_range_succ]
  obtain rfl | hzero := eq_or_ne i 0
  · rw [if_pos (by omega), if_pos rfl, mk_scaledByte _ (nonzero 0 hi), Finset.sum_range_zero,
      zero_add, padByte_lt (by omega), mul_comm]
  · rw [← ih (by omega)]
    by_cases hsize : x < (cols i).rcSize
    · rw [if_pos hsize, if_neg hzero, Gf.mk_xor, mk_scaledByte _ (nonzero i hi),
        padByte_lt hsize, mul_comm]
    · rw [if_neg hsize, padByte_past (by omega), zero_mul, add_zero]

theorem setMissing_spec (rm : RaidzMap) {missing : Nat → Nat} (dst : Nat → Buf)
    (distinct : ∀ i j, i < nmissing → j < nmissing → i ≠ j → missing i ≠ missing j) :
    ∃ d, forRange 0 nmissing
        (fun j (rm : RaidzMap) => rm.setData (missing j + rm.rmFirstdatacol) (dst j)) rm =
          rm.withData d ∧
      (∀ j, j < nmissing → d (missing j + rm.rmFirstdatacol) = dst j) ∧
      ∀ c, (∀ j, j < nmissing → c ≠ missing j + rm.rmFirstdatacol) → d c = rm.data c := by
  refine forRange_invariant (fun k (t : RaidzMap) => ∃ d, t = rm.withData d ∧
    (∀ j, j < k → d (missing j + rm.rmFirstdatacol) = dst j) ∧
    ∀ c, (∀ j, j < k → c ≠ missing j + rm.rmFirstdatacol) → d c = rm.data c)
    (Nat.zero_le nmissing) ?_ ?_
  · exact ⟨rm.data, rfl, nofun, fun _ _ => rfl⟩
  · rintro k _ _ hk ⟨d, rfl, hset, hkeep⟩
    refine ⟨Function.update d (missing k + rm.rmFirstdatacol) (dst k), ?_, ?_, ?_⟩
    · rw [setData_eq_withData, withData_withData]
      rfl
    · intro j hj
      by_cases hjk : j = k
      · rw [hjk, Function.update_self]
      · have hne : missing j + rm.rmFirstdatacol ≠ missing k + rm.rmFirstdatacol := by
          have := distinct j k (by omega) hk hjk
          omega
        rw [Function.update_of_ne hne]
        exact hset j (by omega)
    · intro c hc
      rw [Function.update_of_ne (hc k (Nat.lt_succ_self k))]
      exact hkeep c (fun j hj => hc j (Nat.lt_succ_of_lt hj))

end ClusterZfs

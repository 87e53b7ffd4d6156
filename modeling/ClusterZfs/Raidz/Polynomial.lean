import ClusterZfs.Raidz.Parity
import Mathlib.Algebra.CharP.Two
import Mathlib.Algebra.Field.ZMod
import Mathlib.RingTheory.AdjoinRoot

/-! The field of the parity arithmetic as polynomials over the field of two elements, modulo
x^8 + x^4 + x^3 + x^2 + 1: bit `i` of a byte is the coefficient of x^i. The word loops compute, at
every byte offset, the weighted sums of the data columns in this ring. -/
namespace ClusterZfs

open Polynomial

noncomputable section

variable (b : BitVec 8)

def raidzPolynomial : (ZMod 2)[X] := X ^ 8 + X ^ 4 + X ^ 3 + X ^ 2 + 1

def bitCoeff (b : Bool) : ZMod 2 := if b then 1 else 0

def bytePolynomial (b : BitVec 8) : (ZMod 2)[X] :=
  ∑ i ∈ Finset.range 8, C (bitCoeff (b.getLsbD i)) * X ^ i

/-- The residue class of a byte. -/
def byteClass (b : BitVec 8) : AdjoinRoot raidzPolynomial :=
  AdjoinRoot.mk raidzPolynomial (bytePolynomial b)

theorem bitCoeff_xor (a b : Bool) : bitCoeff (a ^^ b) = bitCoeff a + bitCoeff b := by
  cases a <;> cases b <;> decide

theorem bytePolynomial_xor (a b : BitVec 8) :
    bytePolynomial (a ^^^ b) = bytePolynomial a + bytePolynomial b := by
  unfold bytePolynomial
  rw [← Finset.sum_add_distrib]
  refine Finset.sum_congr rfl fun i _ => ?_
  rw [BitVec.getLsbD_xor, bitCoeff_xor, C_add, add_mul]

theorem degree_bytePolynomial_lt : (bytePolynomial b).degree < 8 := by
  refine (degree_sum_le _ _).trans_lt ((Finset.sup_lt_iff (by decide)).mpr fun i hi => ?_)
  refine (degree_C_mul_X_pow_le i _).trans_lt ?_
  exact_mod_cast Finset.mem_range.mp hi

theorem degree_raidzPolynomial : raidzPolynomial.degree = 8 := by
  unfold raidzPolynomial
  compute_degree!

/-- Different bytes are in different classes. -/
theorem byteClass_injective : Function.Injective byteClass := by
  intro a b h
  have hzero : AdjoinRoot.mk raidzPolynomial (bytePolynomial (a ^^^ b)) = 0 := by
    have hself : byteClass b + byteClass b = 0 := by
      rw [byteClass, ← map_add, ← bytePolynomial_xor, BitVec.xor_self]
      simp [bytePolynomial, bitCoeff]
    rw [bytePolynomial_xor, map_add]
    exact (congrArg (· + byteClass b) h).trans hself
  have hpoly : bytePolynomial (a ^^^ b) = 0 := by
    refine eq_zero_of_dvd_of_degree_lt (AdjoinRoot.mk_eq_zero.mp hzero) ?_
    rw [degree_raidzPolynomial]
    exact degree_bytePolynomial_lt _
  apply BitVec.eq_of_getLsbD_eq
  intro i hi
  have hcoeff : (bytePolynomial (a ^^^ b)).coeff i = bitCoeff ((a ^^^ b).getLsbD i) := by
    simp only [bytePolynomial, finsetSum_coeff, coeff_C_mul_X_pow]
    rw [Finset.sum_ite_eq, if_pos (Finset.mem_range.mpr hi)]
  rw [hpoly, coeff_zero, BitVec.getLsbD_xor] at hcoeff
  generalize a.getLsbD i = p at hcoeff ⊢
  generalize b.getLsbD i = q at hcoeff ⊢
  cases p <;> cases q
  · rfl
  · exact absurd hcoeff (by decide)
  · exact absurd hcoeff (by decide)
  · rfl

/-- One doubling: multiplication by x, with the modulus added once when the top bit was set. -/
theorem bytePolynomial_mul2 :
    bytePolynomial (vdevRaidzMul2 b) =
      X * bytePolynomial b + C (bitCoeff (b.getLsbD 7)) * raidzPolynomial := by
  have hbit : ∀ i, i < 8 → bitCoeff ((vdevRaidzMul2 b).getLsbD i) =
      bitCoeff (decide (0 < i) && b.getLsbD (i - 1)) +
        bitCoeff (b.getLsbD 7 && (0x1d#8).getLsbD i) := by
    intro i hi
    rw [mul2_getLsbD b i hi, bitCoeff_xor]
  have hmask : (0x1d#8).getLsbD 0 = true ∧ (0x1d#8).getLsbD 1 = false ∧
      (0x1d#8).getLsbD 2 = true ∧ (0x1d#8).getLsbD 3 = true ∧ (0x1d#8).getLsbD 4 = true ∧
      (0x1d#8).getLsbD 5 = false ∧ (0x1d#8).getLsbD 6 = false ∧ (0x1d#8).getLsbD 7 = false := by
    decide
  obtain ⟨h0, h1, h2, h3, h4, h5, h6, h7⟩ := hmask
  have hfalse : bitCoeff false = 0 := rfl
  unfold bytePolynomial raidzPolynomial
  simp only [Finset.sum_range_succ, Finset.sum_range_zero]
  rw [hbit 0 (by decide), hbit 1 (by decide), hbit 2 (by decide), hbit 3 (by decide),
    hbit 4 (by decide), hbit 5 (by decide), hbit 6 (by decide), hbit 7 (by decide),
    h0, h1, h2, h3, h4, h5, h6, h7]
  simp only [Nat.lt_irrefl, decide_false, Bool.false_and, Nat.zero_lt_succ, decide_true,
    Bool.true_and, Bool.and_true, Bool.and_false, hfalse, C_add, C_0]
  -- the two terms in x^8 cancel
  have htwo : (X : (ZMod 2)[X]) ^ 8 + X ^ 8 = 0 := CharTwo.add_self_eq_zero _
  linear_combination -(C (bitCoeff (b.getLsbD 7))) * htwo

/-- The class of x. -/
def rootClass : AdjoinRoot raidzPolynomial := AdjoinRoot.root raidzPolynomial

theorem byteClass_xor (a b : BitVec 8) : byteClass (a ^^^ b) = byteClass a + byteClass b := by
  unfold byteClass
  rw [bytePolynomial_xor, map_add]

theorem byteClass_mul2 :
    byteClass (vdevRaidzMul2 b) = rootClass * byteClass b := by
  unfold byteClass rootClass
  rw [bytePolynomial_mul2, map_add, map_mul, map_mul, AdjoinRoot.mk_X, AdjoinRoot.mk_self,
    mul_zero, add_zero]

/-- The bytes with the multiplication of the tables, as residue classes. -/
def gfClass : Gf →+ AdjoinRoot raidzPolynomial where
  toFun a := byteClass a.byte
  map_zero' := by
    have hself := byteClass_xor 0 0
    rw [BitVec.xor_self] at hself
    exact left_eq_add.mp hself
  map_add' a b := byteClass_xor a.byte b.byte

theorem gfClass_gen_pow_mul (k : Nat) (a : Gf) :
    gfClass (Gf.gen ^ k * a) = rootClass ^ k * gfClass a := by
  induction k with
  | zero => rw [pow_zero, pow_zero, one_mul, one_mul]
  | succ k ih =>
    have hdouble : gfClass (Gf.gen * (Gf.gen ^ k * a)) = rootClass * gfClass (Gf.gen ^ k * a) := by
      rw [show Gf.gen * (Gf.gen ^ k * a) = Gf.mk (vdevRaidzMul2 (Gf.gen ^ k * a).byte) from
        (Gf.mk_mul2 _).symm]
      exact byteClass_mul2 _
    rw [pow_succ', mul_assoc, hdouble, ih, pow_succ', mul_assoc]

theorem gfClass_syndrome (e n : Nat) (D : Nat → Gf) :
    gfClass (syndrome (parityBase e) n D) =
      ∑ j ∈ Finset.range n, (rootClass ^ e) ^ (n - 1 - j) * gfClass (D j) := by
  unfold syndrome parityBase
  rw [map_sum]
  refine Finset.sum_congr rfl fun j _ => ?_
  rw [← pow_mul, gfClass_gen_pow_mul, pow_mul]

end

/-- Data columns of whole words, none longer than the one before, and parity columns as long as
the first of them. -/
structure RaidzMap.Profile (rm : RaidzMap) : Prop where
  parity_pos : 0 < rm.rmFirstdatacol
  parity_le : rm.rmFirstdatacol ≤ 3
  words : ∀ c, rm.rmFirstdatacol ≤ c → c < rm.rmCols → 8 ∣ (rm.rmCol c).rcSize
  size_anti : ∀ c c', rm.rmFirstdatacol ≤ c → c ≤ c' → c' < rm.rmCols →
    (rm.rmCol c').rcSize ≤ (rm.rmCol c).rcSize
  parity_size : ∀ e, e < rm.rmFirstdatacol → (rm.rmCol e).rcSize =
    if rm.rmFirstdatacol < rm.rmCols then (rm.rmCol rm.rmFirstdatacol).rcSize else 0

/-- The byte of a data column at an offset, zero past its end. -/
def RaidzMap.columnByte (rm : RaidzMap) (j k : Nat) : BitVec 8 :=
  if k < (rm.rmCol (rm.rmFirstdatacol + j)).rcSize then
    (rm.rmCol (rm.rmFirstdatacol + j)).rcData k
  else 0

theorem generateParity_isSome {rm : RaidzMap} (h : rm.Profile) :
    ∃ written, vdevRaidzGenerateParity rm = some written := by
  have hpos := h.parity_pos
  have hle := h.parity_le
  obtain hn | hn | hn : rm.rmFirstdatacol = 1 ∨ rm.rmFirstdatacol = 2 ∨
      rm.rmFirstdatacol = 3 := by omega
  all_goals
    simp only [vdevRaidzGenerateParity, hn]
    exact ⟨_, rfl⟩

theorem parityData_syndrome {rm : RaidzMap} (h : rm.Profile)
    (data : rm.rmFirstdatacol < rm.rmCols) {e k : Nat} (he : e < rm.rmFirstdatacol)
    (hk : k < (rm.rmCol e).rcSize) :
    Gf.mk (rm.parityData rm.rmFirstdatacol e k) =
      syndrome (parityBase e) rm.ndata (rm.dataBytes k) := by
  have hhead := h.parity_size vdevRaidzP h.parity_pos
  have hsize := h.parity_size e he
  rw [if_pos data] at hhead hsize
  have hwords := Nat.mul_div_cancel' (h.words _ (Nat.le_refl _) data)
  have hle := h.parity_le
  rw [RaidzMap.parityData, if_pos he]
  exact parityColumns_syndrome (scales_parityMul e (by omega)) h.words data _ _ _ (by omega)

/-- The word loops leave in parity column `e` the sum of the data columns with the weights
2^(e*(n-1-i)), at every offset and as polynomials. -/
theorem generateParity_polynomial (rm : RaidzMap) (h : rm.Profile) :
    ∃ written, vdevRaidzGenerateParity rm = some written ∧
      ∀ e k, e < rm.rmFirstdatacol → k < (rm.rmCol e).rcSize →
        byteClass ((written.rmCol e).rcData k) =
          ∑ j ∈ Finset.range rm.ndata,
            (rootClass ^ e) ^ (rm.ndata - 1 - j) * byteClass (rm.columnByte j k) := by
  by_cases data : rm.rmFirstdatacol < rm.rmCols
  · have head := h.parity_size vdevRaidzP h.parity_pos
    rw [if_pos data] at head
    refine ⟨_, generateParity_withData h.parity_pos h.parity_le head.symm, fun e k he hk => ?_⟩
    rw [withData_rcData]
    exact (congrArg gfClass (parityData_syndrome h data he hk)).trans (gfClass_syndrome e _ _)
  · obtain ⟨written, hwritten⟩ := generateParity_isSome h
    refine ⟨written, hwritten, fun e k he hk => ?_⟩
    have hsize := h.parity_size e he
    rw [if_neg data] at hsize
    omega

/- Double parity over a column of two words and one of a single word. -/
def shortColumnMap (data : Nat → Buf) : RaidzMap :=
  ⟨4, 4, 0, 0, 0, 0, 2, 0, 0, false, fun c => ⟨c, 0, if c < 3 then 16 else 8, data c, 0, false,
    false, false⟩⟩

theorem generateParity_polynomial_short :
    ∃ written, vdevRaidzGenerateParity (shortColumnMap fun c k => BitVec.ofNat 8 (c + k)) =
        some written ∧
      byteClass ((written.rmCol 1).rcData 9) =
        ∑ j ∈ Finset.range 2, (rootClass ^ 1) ^ (2 - 1 - j) *
          byteClass ((shortColumnMap fun c k => BitVec.ofNat 8 (c + k)).columnByte j 9) := by
  have hprofile : (shortColumnMap fun c k => BitVec.ofNat 8 (c + k)).Profile := by
    refine ⟨by decide, by decide, fun c _ _ => ?_, fun c c' _ hcc _ => ?_, fun e he => ?_⟩
    · show 8 ∣ if c < 3 then 16 else 8
      split <;> decide
    · show (if c' < 3 then 16 else 8) ≤ if c < 3 then 16 else 8
      split <;> split <;> omega
    · have he : e < 2 := he
      show (if e < 3 then 16 else 8) = 16
      rw [if_pos (by omega)]
  obtain ⟨written, hwritten, hbytes⟩ := generateParity_polynomial _ hprofile
  exact ⟨written, hwritten, hbytes 1 9 (by decide) (by decide)⟩

end ClusterZfs

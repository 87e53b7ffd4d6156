import ClusterZfs.Raidz.Parity
import Mathlib.Tactic.FieldSimp
import Mathlib.Tactic.LinearCombination

/-! The three special reconstruction routines: one data column from P, one from Q, and two
from P and Q. Each returns the new map and the mask of the parity columns it used. -/
namespace ClusterZfs

def vdevRaidzReconstructP (rm : RaidzMap) (tgts : List Nat) : RaidzMap × Nat :=
  let x := tgts.getD 0 0
  let xcount := (rm.rmCol x).rcSize / 8
  let src := (rm.rmCol vdevRaidzP).rcData
  let dst := forRange 0 xcount (fun i dst => storeWord dst i (loadWord src i)) (rm.rmCol x).rcData
  let dst := forRange rm.rmFirstdatacol rm.rmCols (fun c dst =>
    let src := (rm.rmCol c).rcData
    if c = x then dst
    else
      let ccount := (rm.rmCol c).rcSize / 8
      let count := min ccount xcount
      forRange 0 count (fun i dst => storeWord dst i (loadWord dst i ^^^ loadWord src i)) dst) dst
  (rm.setData x dst, 1 <<< vdevRaidzP)

/- The first loop of the Q routine: Q of the other columns, built in the buffer of `x`. -/
def qWithoutColumn (rm : RaidzMap) (x : Nat) : Buf :=
  let xcount := (rm.rmCol x).rcSize / 8
  forRange rm.rmFirstdatacol rm.rmCols (fun c dst =>
    let src := (rm.rmCol c).rcData
    let ccount := if c = x then 0 else (rm.rmCol c).rcSize / 8
    let count := min ccount xcount
    if c = rm.rmFirstdatacol then
      let dst := forRange 0 count (fun i dst => storeWord dst i (loadWord src i)) dst
      forRange count xcount (fun i dst => storeWord dst i 0) dst
    else
      let dst := forRange 0 count (fun i dst =>
        storeWord dst i (vdevRaidz64Mul2 (loadWord dst i) ^^^ loadWord src i)) dst
      forRange count xcount (fun i dst => storeWord dst i (vdevRaidz64Mul2 (loadWord dst i))) dst)
    (rm.rmCol x).rcData

def vdevRaidzReconstructQ (rm : RaidzMap) (tgts : List Nat) : RaidzMap × Nat :=
  let x := tgts.getD 0 0
  let xcount := (rm.rmCol x).rcSize / 8
  let src := (rm.rmCol vdevRaidzQ).rcData
  let exp := 255 - (rm.rmCols - 1 - x)
  let dst := forRange 0 xcount (fun i dst =>
    let dst := storeWord dst i (loadWord dst i ^^^ loadWord src i)
    forRange 0 8 (fun j dst =>
      storeByte dst (8 * i + j) (vdevRaidzExp2 (dst (8 * i + j)) exp)) dst) (qWithoutColumn rm x)
  (rm.setData x dst, 1 <<< vdevRaidzQ)

/- The map while the two-column routine generates parity: fresh parity buffers, and x and y
full of zeros because their lengths are set to zero. -/
def pqWithoutColumns (env : RaidzEnv) (rm : RaidzMap) (x y : Nat) : RaidzMap :=
  let rm := rm.setData vdevRaidzP (env.zioBufAlloc (rm.rmCol vdevRaidzP).rcSize)
  let rm := rm.setData vdevRaidzQ (env.zioBufAlloc (rm.rmCol vdevRaidzQ).rcSize)
  (rm.setSize x 0).setSize y 0

/- The logarithms of the factors A and B with D_x = A * (P + Pxy) + B * (Q + Qxy). -/
def pqExponents (cols x y : Nat) : Nat × Nat :=
  let a := vdevRaidzPow2 (255 + x - y)
  let b := vdevRaidzPow2 (255 - (cols - 1 - x))
  let tmp := 255 - vdevRaidzLog2 (a ^^^ 1)
  (vdevRaidzLog2 (vdevRaidzExp2 a tmp), vdevRaidzLog2 (vdevRaidzExp2 b tmp))

/- The loop over the bytes of x and y; a byte of y is taken from the new byte of x. -/
def pqSolve (p q pxy qxy : Buf) (exps : Nat × Nat) (xsize ysize : Nat) (xy : Buf × Buf) :
    Buf × Buf :=
  forRange 0 xsize (fun i (xy : Buf × Buf) =>
    let xd := storeByte xy.1 i (vdevRaidzExp2 (p i ^^^ pxy i) exps.1 ^^^
      vdevRaidzExp2 (q i ^^^ qxy i) exps.2)
    (xd, if i < ysize then storeByte xy.2 i (p i ^^^ pxy i ^^^ xd i) else xy.2)) xy

def vdevRaidzReconstructPq (env : RaidzEnv) (rm : RaidzMap) (tgts : List Nat) : RaidzMap × Nat :=
  let x := tgts.getD 0 0
  let y := tgts.getD 1 0
  let pdata := (rm.rmCol vdevRaidzP).rcData
  let qdata := (rm.rmCol vdevRaidzQ).rcData
  let xsize := (rm.rmCol x).rcSize
  let ysize := (rm.rmCol y).rcSize
  let rm := vdevRaidzGenerateParityPq (pqWithoutColumns env rm x y)
  let rm := (rm.setSize x xsize).setSize y ysize
  let xy := pqSolve pdata qdata (rm.rmCol vdevRaidzP).rcData (rm.rmCol vdevRaidzQ).rcData
    (pqExponents rm.rmCols x y) xsize ysize ((rm.rmCol x).rcData, (rm.rmCol y).rcData)
  let rm := (rm.setData x xy.1).setData y xy.2
  -- the saved parity comes back
  let rm := (rm.setData vdevRaidzP pdata).setData vdevRaidzQ qdata
  (rm, (1 <<< vdevRaidzP) ||| (1 <<< vdevRaidzQ))

/-- The map holds the code word of the data `D` in every column that is not lost: data
columns hold `D`, padded by zeros, and parity columns hold its syndromes. -/
structure RaidzMap.Encodes (rm : RaidzMap) (D : Nat → Nat → Gf) (lost : Nat → Prop) : Prop where
  short : ∀ j k, (rm.rmCol (rm.rmFirstdatacol + j)).rcSize ≤ k → D k j = 0
  data : ∀ j k, j < rm.ndata → ¬ lost (rm.rmFirstdatacol + j) → rm.dataBytes k j = D k j
  parity : ∀ e k, e < rm.rmFirstdatacol → ¬ lost e → k < (rm.rmCol vdevRaidzP).rcSize →
    Gf.mk (rm.data e k) = syndrome (parityBase e) rm.ndata (D k)

/-- A data column that holds the bytes of `D` up to its size. -/
def RaidzMap.Holds (rm : RaidzMap) (D : Nat → Nat → Gf) (buf : Buf) (c : Nat) : Prop :=
  ∀ k, k < (rm.rmCol c).rcSize → Gf.mk (buf k) = D k (c - rm.rmFirstdatacol)

/- One data column is to be rebuilt. -/
structure RaidzMap.LosesOne (rm : RaidzMap) (D : Nat → Nat → Gf) (lost : Nat → Prop)
    (x : Nat) : Prop where
  wf : rm.WellFormed
  enc : rm.Encodes D lost
  first : rm.rmFirstdatacol ≤ x
  cols : x < rm.rmCols
  only : ∀ c, rm.rmFirstdatacol ≤ c → lost c → c = x

/- Two data columns are to be rebuilt, with P and Q at least. -/
structure RaidzMap.LosesTwo (rm : RaidzMap) (D : Nat → Nat → Gf) (lost : Nat → Prop)
    (x y : Nat) : Prop where
  wf : rm.WellFormed
  enc : rm.Encodes D lost
  two : 1 < rm.rmFirstdatacol
  first : rm.rmFirstdatacol ≤ x
  lt : x < y
  cols : y < rm.rmCols
  only : ∀ c, rm.rmFirstdatacol ≤ c → lost c → c = x ∨ c = y

section Special

variable {e y : Nat}

variable {rm : RaidzMap} {D : Nat → Nat → Gf} {lost : Nat → Prop} {x k : Nat} (env : RaidzEnv)

theorem erased_column (h : rm.LosesOne D lost x) {c : Nat} (hc : rm.rmFirstdatacol ≤ c)
    (hcols : c < rm.rmCols) (hne : c ≠ x) : (rm.rmCol c).padByte k =
      erase (x - rm.rmFirstdatacol) (D k) (c - rm.rmFirstdatacol) := by
  have hx := h.first
  have hcol : rm.rmFirstdatacol + (c - rm.rmFirstdatacol) = c := Nat.add_sub_cancel' hc
  have hd := h.enc.data (c - rm.rmFirstdatacol) k (Nat.sub_lt_sub_right hc hcols)
    (by rw [hcol]; exact fun hlost => hne (h.only c hc hlost))
  rw [erase_other _ (by omega), ← hd, RaidzMap.dataBytes, hcol]

theorem padByte_lt {col : RaidzCol} (hk : k < col.rcSize) :
    col.padByte k = Gf.mk (col.rcData k) := by
  rw [RaidzCol.padByte, if_pos hk]

theorem padByte_past {col : RaidzCol} (hk : col.rcSize ≤ k) : col.padByte k = 0 := by
  rw [RaidzCol.padByte, if_neg (by omega)]
  rfl

/-- A parity byte without the contribution of `x` gives back the byte of `x`. -/
theorem parity_byte_split (enc : rm.Encodes D lost) (hx : rm.rmFirstdatacol ≤ x)
    (hcols : x < rm.rmCols) (he : e < rm.rmFirstdatacol) (usable : ¬ lost e)
    (hk : k < (rm.rmCol vdevRaidzP).rcSize) :
    Gf.mk (rm.data e k) =
      syndrome (parityBase e) rm.ndata (erase (x - rm.rmFirstdatacol) (D k)) +
        parityBase e ^ (rm.rmCols - 1 - x) * D k (x - rm.rmFirstdatacol) := by
  have hlt : x - rm.rmFirstdatacol < rm.ndata := Nat.sub_lt_sub_right hx hcols
  have hexp : rm.ndata - 1 - (x - rm.rmFirstdatacol) = rm.rmCols - 1 - x := by
    unfold RaidzMap.ndata
    omega
  rw [enc.parity e k he usable hk, syndrome_erase _ _ _ _ hlt, hexp]

theorem reconstructP_holds (h : rm.LosesOne D lost x) (usable : ¬ lost vdevRaidzP) :
    ∃ dst, vdevRaidzReconstructP rm [x] = (rm.setData x dst, 1) ∧ rm.Holds D dst x := by
  refine ⟨_, rfl, fun k hk => ?_⟩
  have hwords := Nat.mul_div_cancel' (h.wf.words x)
  -- the columns below `c` other than `x` are already added to the copy of P
  refine Eq.trans (forRange_invariant (fun c (dst : Buf) => Gf.mk (dst k) =
    Gf.mk (rm.data vdevRaidzP k) + syndrome (parityBase 0) (c - rm.rmFirstdatacol)
      (erase (x - rm.rmFirstdatacol) (D k))) (h.first.trans h.cols.le) ?_ ?_) ?_
  · rw [forRange_copy, if_pos (by simp only [List.getD_cons_zero]; omega), Nat.sub_self,
      syndrome_zero, add_zero]
    rfl
  · intro c dst hc hlt ih
    have hsub : c + 1 - rm.rmFirstdatacol = (c - rm.rmFirstdatacol) + 1 := by omega
    rw [hsub, syndrome_succ]
    simp only [List.getD_cons_zero]
    by_cases hcx : c = x
    · rw [if_pos hcx, ih, hcx, erase_same]
      simp [parityBase]
    · rw [if_neg hcx, forRange_xor, ← erased_column h hc hlt hcx,
        padByte_words _ k (h.wf.words c)]
      by_cases hkc : k < 8 * ((rm.rmCol c).rcSize / 8)
      · rw [if_pos (by omega), if_pos hkc, Gf.mk_xor, ih, parityBase, pow_zero, one_mul]
        ring
      · rw [if_neg (by omega), if_neg hkc, ih, Gf.mk_zero, parityBase, pow_zero, one_mul, add_zero]
  · have hsplit : Gf.mk (rm.data vdevRaidzP k) = _ :=
      parity_byte_split h.enc h.first h.cols h.wf.parity_pos usable (h.wf.lt_parity hk)
    have hcancel := Gf.add_self (syndrome (parityBase 0) (rm.rmCols - rm.rmFirstdatacol)
      (erase (x - rm.rmFirstdatacol) (D k)))
    simp only [RaidzMap.ndata, parityBase, vdevRaidzP, pow_zero, one_pow, one_mul]
      at hsplit hcancel ⊢
    linear_combination hsplit + hcancel

/-- The last loop of the Q routine: add the parity word, then scale its bytes one by one. -/
theorem scaleWords_byte (src dst : Buf) (exp count k : Nat) :
    forRange 0 count (fun i dst =>
      forRange 0 8 (fun j dst =>
        storeByte dst (8 * i + j) (vdevRaidzExp2 (dst (8 * i + j)) exp))
        (storeWord dst i (loadWord dst i ^^^ loadWord src i))) dst k =
      if k < 8 * count then vdevRaidzExp2 (dst k ^^^ src k) exp else dst k := by
  induction count with
  | zero => rw [forRange_empty _ _ (Nat.le_refl 0), if_neg (by omega)]
  | succ count ih =>
    rw [forRange_succ _ _ (Nat.zero_le count)]
    refine Eq.trans (forRange_cells (8 * count) (fun _ b => vdevRaidzExp2 b exp) _ k) ?_
    rw [storeWord_apply]
    by_cases hw : k / 8 = count
    · rw [if_pos (by omega), if_pos hw, if_pos (by omega), ← hw, wordByte_xor, loadWord_byte,
        loadWord_byte, hw, ih, if_neg (by omega)]
    · rw [if_neg (by omega), if_neg hw, ih]
      by_cases hk : k < 8 * count
      · rw [if_pos hk, if_pos (by omega)]
      · rw [if_neg hk, if_neg (by omega)]

theorem erased_byte (h : rm.LosesOne D lost x) {c : Nat} (hc : rm.rmFirstdatacol ≤ c)
    (hcols : c < rm.rmCols) (hk : k < (rm.rmCol x).rcSize) :
    Gf.mk (if k < 8 * min (if c = x then 0 else (rm.rmCol c).rcSize / 8) ((rm.rmCol x).rcSize / 8)
      then rm.data c k else 0) = erase (x - rm.rmFirstdatacol) (D k) (c - rm.rmFirstdatacol) := by
  have hxw := Nat.mul_div_cancel' (h.wf.words x)
  by_cases hcx : c = x
  · rw [if_neg (by simp [hcx]), hcx, erase_same, Gf.mk_zero]
  · rw [← erased_column h hc hcols hcx, padByte_words _ k (h.wf.words c)]
    by_cases hkc : k < 8 * ((rm.rmCol c).rcSize / 8)
    · rw [if_pos (by rw [if_neg hcx]; omega), if_pos hkc]
      rfl
    · rw [if_neg (by rw [if_neg hcx]; omega), if_neg hkc]

/-- Horner's scheme over the other columns, with the target counted as empty. -/
theorem qWithoutColumn_byte (h : rm.LosesOne D lost x) (hk : k < (rm.rmCol x).rcSize) :
    Gf.mk (qWithoutColumn rm x k) =
      syndrome (parityBase 1) rm.ndata (erase (x - rm.rmFirstdatacol) (D k)) := by
  have hwords := Nat.mul_div_cancel' (h.wf.words x)
  exact hornerColumns_byte scales_mul2 rm.data (fun c => min
    (if c = x then 0 else (rm.rmCol c).rcSize / 8) ((rm.rmCol x).rcSize / 8))
    (Nat.lt_of_le_of_lt h.first h.cols) (by omega)
    (fun c hc hcols => erased_byte h hc hcols hk) (rm.rmCol x).rcData

theorem reconstructQ_holds (h : rm.LosesOne D lost x) (two : 1 < rm.rmFirstdatacol)
    (usable : ¬ lost vdevRaidzQ) :
    ∃ dst, vdevRaidzReconstructQ rm [x] = (rm.setData x dst, 2) ∧ rm.Holds D dst x := by
  refine ⟨_, rfl, fun k hk => ?_⟩
  have hwords := Nat.mul_div_cancel' (h.wf.words x)
  have hexp : rm.rmCols - 1 - x ≤ 255 := by
    have := h.wf.cols_le
    omega
  have hsplit : Gf.mk (rm.data vdevRaidzQ k) = _ :=
    parity_byte_split h.enc h.first h.cols two usable (h.wf.lt_parity hk)
  have hq : Gf.mk (qWithoutColumn rm x k) = _ := qWithoutColumn_byte h hk
  have hcancel := Gf.add_self (syndrome (parityBase 1) rm.ndata
    (erase (x - rm.rmFirstdatacol) (D k)))
  have hne := Gf.gen_pow_ne_zero (rm.rmCols - 1 - x)
  simp only [List.getD_cons_zero]
  rw [scaleWords_byte, if_pos (by omega), Gf.mk_exp2 _ _ (by omega), Gf.mk_xor,
    Gf.gen_pow_complement _ hexp, inv_mul_eq_iff_eq_mul₀ hne, hq]
  refine Eq.trans (congrArg _ hsplit) ?_
  simp only [vdevRaidzQ, parityBase, pow_one] at hcancel ⊢
  linear_combination hcancel

theorem pqWithoutColumns_cols : (pqWithoutColumns env rm x y).rmCols = rm.rmCols ∧
    (pqWithoutColumns env rm x y).rmFirstdatacol = rm.rmFirstdatacol := by
  simp [pqWithoutColumns]

theorem pqWithoutColumns_rcSize (c : Nat) : ((pqWithoutColumns env rm x y).rmCol c).rcSize =
    if c = x ∨ c = y then 0 else (rm.rmCol c).rcSize := by
  by_cases hx : c = x <;> by_cases hy : c = y <;> simp [pqWithoutColumns, *]

theorem pqWithoutColumns_rcData {c : Nat} (hc : 1 < c) :
    ((pqWithoutColumns env rm x y).rmCol c).rcData = rm.data c := by
  have hp : c ≠ vdevRaidzP := by unfold vdevRaidzP; omega
  have hq : c ≠ vdevRaidzQ := by unfold vdevRaidzQ; omega
  simp [pqWithoutColumns, RaidzMap.data, setData_other _ _ _ hp, setData_other _ _ _ hq]

theorem pqWithoutColumns_bytes (h : rm.LosesTwo D lost x y) {j : Nat} (hj : j < rm.ndata) :
    (pqWithoutColumns env rm x y).dataBytes k j =
      erase (x - rm.rmFirstdatacol) (erase (y - rm.rmFirstdatacol) (D k)) j := by
  obtain ⟨two, hx, hxy⟩ : _ ∧ _ ∧ _ := ⟨h.two, h.first, h.lt⟩
  have hempty : rm.rmFirstdatacol + j = x ∨ rm.rmFirstdatacol + j = y →
      ((pqWithoutColumns env rm x y).rmCol (rm.rmFirstdatacol + j)).rcSize ≤ k :=
    fun hj => by simp [pqWithoutColumns_rcSize, hj]
  have hsize := @pqWithoutColumns_rcSize y rm x env (rm.rmFirstdatacol + j)
  rw [RaidzMap.dataBytes, (pqWithoutColumns_cols env).2]
  by_cases hjy : rm.rmFirstdatacol + j = y
  · rw [padByte_past (hempty (.inr hjy)), show j = y - rm.rmFirstdatacol by omega,
      erase_other _ (by omega), erase_same]
  by_cases hjx : rm.rmFirstdatacol + j = x
  · rw [padByte_past (hempty (.inl hjx)), show j = x - rm.rmFirstdatacol by omega, erase_same]
  · rw [erase_other _ (by omega), erase_other _ (by omega), ← h.enc.data j k hj]
    · simp [RaidzMap.dataBytes, RaidzCol.padByte, hsize, hjx, hjy, RaidzMap.data,
        pqWithoutColumns_rcData env (show 1 < rm.rmFirstdatacol + j by omega)]
    · exact fun hlost => (h.only _ (Nat.le_add_right _ _) hlost).elim hjx hjy

theorem solve_two {u v dx dy p q : Gf} (hu : u ≠ 0) (huv : u ≠ v) (hp : p = dx + dy)
    (hq : q = u * dx + v * dy) :
    (v * u⁻¹) * (v * u⁻¹ + 1)⁻¹ * p + u⁻¹ * (v * u⁻¹ + 1)⁻¹ * q = dx := by
  have hne : v + u ≠ 0 := fun h => huv (Gf.add_eq_zero.mp h).symm
  have hcancel := Gf.add_self (v * dy)
  subst hp hq
  field_simp
  linear_combination hcancel

theorem solveTwo_bytes (f g : Nat → BitVec 8) (xsize ysize k : Nat) (xd yd : Buf) :
    let xy := forRange 0 xsize (fun i (xy : Buf × Buf) =>
      (storeByte xy.1 i (f i),
        if i < ysize then storeByte xy.2 i (g i ^^^ storeByte xy.1 i (f i) i) else xy.2)) (xd, yd)
    (k < xsize → xy.1 k = f k) ∧ (k < xsize → k < ysize → xy.2 k = g k ^^^ f k) := by
  intro xy
  have hx : xy.1 = forRange 0 xsize (fun i t => if True then Function.update t i (f i) else t) xd :=
    forRange_map Prod.fst _ (fun _ _ => (if_pos trivial).symm)
  have hy : xy.2 = forRange 0 xsize (fun i t =>
      if i < ysize then Function.update t i (g i ^^^ f i) else t) yd := by
    refine forRange_map Prod.snd _ ?_
    intro i t
    simp [storeByte]
  constructor
  · intro hk
    rw [hx, forRange_fill (fun _ => True) f, if_pos ⟨⟨Nat.zero_le k, hk⟩, trivial⟩]
  · intro hk hky
    rw [hy, forRange_fill (fun i => i < ysize) (fun i => g i ^^^ f i),
      if_pos ⟨⟨Nat.zero_le k, hk⟩, hky⟩]

/- The sizes are put back after the parity of the other columns has been generated. -/
theorem pqWithoutColumns_restored (hxy : x ≠ y) (d : Nat → Buf) :
    (((pqWithoutColumns env rm x y).withData d).setSize x (rm.rmCol x).rcSize).setSize y
      (rm.rmCol y).rcSize = rm.withData d := by
  have hrestored := setSize_restored ((rm.setData vdevRaidzP
    (env.zioBufAlloc (rm.rmCol vdevRaidzP).rcSize)).setData vdevRaidzQ
    (env.zioBufAlloc (rm.rmCol vdevRaidzQ).rcSize)) d hxy 0 0
  simpa [pqWithoutColumns] using hrestored

/- Parity generation for the routine leaves the data buffers alone. -/
theorem pqWithoutColumns_data {c : Nat} (hc : 1 < c) :
    (pqWithoutColumns env rm x y).parityData 2 c = rm.data c := by
  rw [parityData_data hc]
  exact pqWithoutColumns_rcData env hc

/-- With the sizes and the parity buffers put back, only the buffers of x and y are new. -/
theorem reconstructPq_eq (hx : 1 < x) (hxy : x < y) :
    vdevRaidzReconstructPq env rm [x, y] =
      let xy := pqSolve (rm.rmCol vdevRaidzP).rcData (rm.rmCol vdevRaidzQ).rcData
        ((pqWithoutColumns env rm x y).parityData 2 vdevRaidzP)
        ((pqWithoutColumns env rm x y).parityData 2 vdevRaidzQ) (pqExponents rm.rmCols x y)
        (rm.rmCol x).rcSize (rm.rmCol y).rcSize (rm.data x, rm.data y)
      ((rm.setData x xy.1).setData y xy.2, 3) := by
  have hrestored := @pqWithoutColumns_restored y rm x env (Nat.ne_of_lt hxy)
    ((pqWithoutColumns env rm x y).parityData 2)
  simp only [vdevRaidzReconstructPq, generateParityPq_eq, List.getD_cons_zero,
    List.getD_cons_succ, hrestored, withData_rcData, withData_cols, pqWithoutColumns_data env hx,
    pqWithoutColumns_data env (hx.trans hxy)]
  refine Prod.ext ?_ rfl
  generalize pqSolve _ _ _ _ _ _ _ _ = xy
  simp only [setData_eq_withData, withData_withData, withData_data]
  refine congrArg rm.withData (funext fun c => ?_)
  match c with
  | 0 => simp [vdevRaidzP, vdevRaidzQ, RaidzMap.data, show 0 ≠ x by omega, show 0 ≠ y by omega]
  | 1 => simp [vdevRaidzP, vdevRaidzQ, RaidzMap.data, show 1 ≠ x by omega, show 1 ≠ y by omega]
  | c + 2 =>
    simp [vdevRaidzP, vdevRaidzQ, Function.update_apply, pqWithoutColumns_data env]

theorem pqWithoutColumns_parity (h : rm.LosesTwo D lost x y) (he : e < 2)
    (hk : k < (rm.rmCol vdevRaidzP).rcSize) :
    Gf.mk ((pqWithoutColumns env rm x y).parityData 2 e k) = syndrome (parityBase e) rm.ndata
      (erase (x - rm.rmFirstdatacol) (erase (y - rm.rmFirstdatacol) (D k))) := by
  obtain ⟨two, hx, hxy⟩ : _ ∧ _ ∧ _ := ⟨h.two, h.first, h.lt⟩
  have hsize : ((pqWithoutColumns env rm x y).rmCol vdevRaidzP).rcSize =
      (rm.rmCol vdevRaidzP).rcSize := by
    rw [pqWithoutColumns_rcSize, if_neg (by unfold vdevRaidzP; omega)]
  have hwords : ∀ c, 8 ∣ ((pqWithoutColumns env rm x y).rmCol c).rcSize := by
    intro c
    rw [pqWithoutColumns_rcSize]
    split
    · exact dvd_zero 8
    · exact h.wf.words c
  obtain ⟨hcols, hfirst⟩ := @pqWithoutColumns_cols y rm x env
  have hndata : (pqWithoutColumns env rm x y).ndata = rm.ndata := by
    rw [RaidzMap.ndata, RaidzMap.ndata, hcols, hfirst]
  rw [parityData_byte hwords (by have := h.cols; omega) he (by omega)
    (Nat.lt_of_lt_of_eq hk hsize.symm), hndata]
  exact syndrome_congr _ _ fun j hj => pqWithoutColumns_bytes env h hj

/-- The two weights of the closed form, as the routine reads them from the tables. -/
theorem pq_weights {n : Nat} (hxy : x < y) (hy : y < n) (hn : n ≤ 255) :
    let u := Gf.gen ^ (n - 1 - x)
    let v := Gf.gen ^ (n - 1 - y)
    u ≠ v ∧ Gf.gen ^ (pqExponents n x y).1 = (v * u⁻¹) * (v * u⁻¹ + 1)⁻¹ ∧
      Gf.gen ^ (pqExponents n x y).2 = u⁻¹ * (v * u⁻¹ + 1)⁻¹ := by
  intro u v
  let a := vdevRaidzPow2 (255 + x - y)
  let b := vdevRaidzPow2 (255 - (n - 1 - x))
  let tmp := 255 - vdevRaidzLog2 (a ^^^ 1)
  have hu : u ≠ 0 := Gf.gen_pow_ne_zero _
  have hv : v ≠ 0 := Gf.gen_pow_ne_zero _
  have huv : u ≠ v := by
    intro h
    have := Gf.gen_pow_injective (by omega) (by omega) h
    omega
  have ha : Gf.mk a = v * u⁻¹ := by
    rw [Gf.mk_pow2 _ (by omega), eq_mul_inv_iff_mul_eq₀ hu, ← pow_add,
      ← Gf.gen_pow_reduce _ (by omega)]
    exact congrArg (Gf.gen ^ ·) (by omega)
  have hb : Gf.mk b = u⁻¹ := by
    rw [Gf.mk_pow2 _ (by omega), Gf.gen_pow_complement _ (by omega)]
  have hone : Gf.mk (a ^^^ 1) = v * u⁻¹ + 1 := by
    rw [Gf.mk_xor, ha, Gf.mk_one]
  have hne : v * u⁻¹ + 1 ≠ 0 := by
    intro h
    rw [Gf.add_eq_zero, mul_inv_eq_one₀ hu] at h
    exact huv h.symm
  have htmp : Gf.gen ^ tmp = (v * u⁻¹ + 1)⁻¹ := by
    rw [Gf.gen_pow_complement _ (Nat.le_of_lt (log2_lt _)), ← Gf.mk_eq_gen_pow, hone]
    exact fun h => hne (hone ▸ Gf.mk_eq_zero.mpr h)
  -- a nonzero byte is the power of its logarithm
  have hlog : ∀ w : BitVec 8, Gf.mk w ≠ 0 →
      Gf.gen ^ vdevRaidzLog2 (vdevRaidzExp2 w tmp) = Gf.mk w * (v * u⁻¹ + 1)⁻¹ := by
    intro w hw
    have hexp : Gf.mk (vdevRaidzExp2 w tmp) = Gf.mk w * (v * u⁻¹ + 1)⁻¹ := by
      rw [Gf.mk_exp2 _ _ (Nat.sub_le _ _), htmp, mul_comm]
    rw [← Gf.mk_eq_gen_pow, hexp]
    intro h
    exact mul_ne_zero hw (inv_ne_zero hne) (hexp ▸ Gf.mk_eq_zero.mpr h)
  refine ⟨huv, ?_, ?_⟩
  · have hexp : (pqExponents n x y).1 = vdevRaidzLog2 (vdevRaidzExp2 a tmp) := rfl
    rw [hexp, hlog a (ha ▸ mul_ne_zero hv (inv_ne_zero hu)), ha]
  · have hexp : (pqExponents n x y).2 = vdevRaidzLog2 (vdevRaidzExp2 b tmp) := rfl
    rw [hexp, hlog b (hb ▸ inv_ne_zero hu), hb]

/-- What is left of a parity byte when the other columns are cancelled. -/
theorem parity_byte_pair (h : rm.LosesTwo D lost x y) (he : e < 2) (usable : ¬ lost e)
    (hk : k < (rm.rmCol vdevRaidzP).rcSize) :
    Gf.mk (rm.data e k ^^^ (pqWithoutColumns env rm x y).parityData 2 e k) =
      parityBase e ^ (rm.rmCols - 1 - x) * D k (x - rm.rmFirstdatacol) +
        parityBase e ^ (rm.rmCols - 1 - y) * D k (y - rm.rmFirstdatacol) := by
  obtain ⟨hx, hxy⟩ : _ ∧ _ := ⟨h.first, h.lt⟩
  have hx' : x - rm.rmFirstdatacol < rm.ndata := Nat.sub_lt_sub_right hx (hxy.trans h.cols)
  have hexp : rm.ndata - 1 - (x - rm.rmFirstdatacol) = rm.rmCols - 1 - x := by
    unfold RaidzMap.ndata
    omega
  have hsplit := parity_byte_split h.enc (hx.trans hxy.le) h.cols (he.trans_le h.two) usable hk
  rw [syndrome_erase _ _ _ _ hx', hexp, erase_other _ (by omega)] at hsplit
  rw [Gf.mk_xor, hsplit, pqWithoutColumns_parity env h he hk]
  have hcancel := Gf.add_self (syndrome (parityBase e) rm.ndata
    (erase (x - rm.rmFirstdatacol) (erase (y - rm.rmFirstdatacol) (D k))))
  linear_combination hcancel

theorem reconstructPq_holds (h : rm.LosesTwo D lost x y) (usableP : ¬ lost vdevRaidzP)
    (usableQ : ¬ lost vdevRaidzQ) :
    ∃ xd yd, vdevRaidzReconstructPq env rm [x, y] = ((rm.setData x xd).setData y yd, 3) ∧
      rm.Holds D xd x ∧ rm.Holds D yd y := by
  let sum (k : Nat) : BitVec 8 := rm.data 0 k ^^^ (pqWithoutColumns env rm x y).parityData 2 0 k
  let xval (k : Nat) : BitVec 8 := vdevRaidzExp2 (sum k) (pqExponents rm.rmCols x y).1 ^^^
    vdevRaidzExp2 (rm.data 1 k ^^^ (pqWithoutColumns env rm x y).parityData 2 1 k)
      (pqExponents rm.rmCols x y).2
  have hsum : ∀ k, k < (rm.rmCol x).rcSize → Gf.mk (sum k) =
      D k (x - rm.rmFirstdatacol) + D k (y - rm.rmFirstdatacol) := by
    intro k hk
    have hp := parity_byte_pair env h (by decide : 0 < 2) usableP (h.wf.lt_parity hk)
    simpa [parityBase] using hp
  have hxval : ∀ k, k < (rm.rmCol x).rcSize → Gf.mk (xval k) = D k (x - rm.rmFirstdatacol) := by
    intro k hk
    obtain ⟨huv, haexp, hbexp⟩ := pq_weights h.lt h.cols h.wf.cols_le
    have hq := parity_byte_pair env h (by decide : 1 < 2) usableQ (h.wf.lt_parity hk)
    simp only [parityBase, pow_one] at hq
    have ha : (pqExponents rm.rmCols x y).1 ≤ 255 := Nat.le_of_lt (log2_lt _)
    have hb : (pqExponents rm.rmCols x y).2 ≤ 255 := Nat.le_of_lt (log2_lt _)
    rw [Gf.mk_xor, Gf.mk_exp2 _ _ ha, Gf.mk_exp2 _ _ hb, haexp, hbexp]
    exact solve_two (Gf.gen_pow_ne_zero _) huv (hsum k hk) hq
  have hbytes := fun k => solveTwo_bytes xval sum (rm.rmCol x).rcSize (rm.rmCol y).rcSize k
    (rm.data x) (rm.data y)
  refine ⟨_, _, reconstructPq_eq env (h.two.trans_le h.first) h.lt, fun k hk => ?_,
    fun k hk => ?_⟩
  · exact (congrArg Gf.mk ((hbytes k).1 hk)).trans (hxval k hk)
  · have hkx := hk.trans_le (h.wf.size_anti x y h.lt.le)
    refine (congrArg Gf.mk ((hbytes k).2 hkx hk)).trans ?_
    rw [Gf.mk_xor, hsum k hkx, hxval k hkx]
    have hcancel := Gf.add_self (D k (x - rm.rmFirstdatacol))
    linear_combination hcancel

end Special

end ClusterZfs

import ClusterZfs.Lib.Syndrome
import ClusterZfs.Raidz.Doubling
import ClusterZfs.Raidz.Map

/-! Parity generation. The three routines walk over the data columns in words; at each byte
offset they run Horner's scheme at 1, 2 and 4, with short columns padded by zeros. -/
namespace ClusterZfs

variable {mul : BitVec 64 → BitVec 64} {a : Gf} {rm : RaidzMap}

def vdevRaidzGenerateParityP (rm : RaidzMap) : RaidzMap :=
  rm.setData vdevRaidzP <|
    forRange rm.rmFirstdatacol rm.rmCols (fun c p =>
      let src := (rm.rmCol c).rcData
      let ccount := (rm.rmCol c).rcSize / 8
      if c = rm.rmFirstdatacol then
        forRange 0 ccount (fun i p => storeWord p i (loadWord src i)) p
      else
        forRange 0 ccount (fun i p => storeWord p i (loadWord p i ^^^ loadWord src i)) p)
      (rm.rmCol vdevRaidzP).rcData

def vdevRaidzGenerateParityPq (rm : RaidzMap) : RaidzMap :=
  let pcnt := (rm.rmCol vdevRaidzP).rcSize / 8
  let pq := forRange rm.rmFirstdatacol rm.rmCols (fun c (pq : Buf × Buf) =>
    let src := (rm.rmCol c).rcData
    let ccnt := (rm.rmCol c).rcSize / 8
    if c = rm.rmFirstdatacol then
      let pq := forRange 0 ccnt (fun i (pq : Buf × Buf) =>
        (storeWord pq.1 i (loadWord src i), storeWord pq.2 i (loadWord src i))) pq
      forRange ccnt pcnt (fun i (pq : Buf × Buf) =>
        (storeWord pq.1 i 0, storeWord pq.2 i 0)) pq
    else
      let pq := forRange 0 ccnt (fun i (pq : Buf × Buf) =>
        (storeWord pq.1 i (loadWord pq.1 i ^^^ loadWord src i),
          storeWord pq.2 i (vdevRaidz64Mul2 (loadWord pq.2 i) ^^^ loadWord src i))) pq
      -- a short column counts as full of zeros, so P needs nothing here
      forRange ccnt pcnt (fun i (pq : Buf × Buf) =>
        (pq.1, storeWord pq.2 i (vdevRaidz64Mul2 (loadWord pq.2 i)))) pq)
    ((rm.rmCol vdevRaidzP).rcData, (rm.rmCol vdevRaidzQ).rcData)
  (rm.setData vdevRaidzP pq.1).setData vdevRaidzQ pq.2

def vdevRaidzGenerateParityPqr (rm : RaidzMap) : RaidzMap :=
  let pcnt := (rm.rmCol vdevRaidzP).rcSize / 8
  let pqr := forRange rm.rmFirstdatacol rm.rmCols (fun c (pqr : Buf × Buf × Buf) =>
    let src := (rm.rmCol c).rcData
    let ccnt := (rm.rmCol c).rcSize / 8
    if c = rm.rmFirstdatacol then
      let pqr := forRange 0 ccnt (fun i (pqr : Buf × Buf × Buf) =>
        (storeWord pqr.1 i (loadWord src i), storeWord pqr.2.1 i (loadWord src i),
          storeWord pqr.2.2 i (loadWord src i))) pqr
      forRange ccnt pcnt (fun i (pqr : Buf × Buf × Buf) =>
        (storeWord pqr.1 i 0, storeWord pqr.2.1 i 0, storeWord pqr.2.2 i 0)) pqr
    else
      let pqr := forRange 0 ccnt (fun i (pqr : Buf × Buf × Buf) =>
        (storeWord pqr.1 i (loadWord pqr.1 i ^^^ loadWord src i),
          storeWord pqr.2.1 i (vdevRaidz64Mul2 (loadWord pqr.2.1 i) ^^^ loadWord src i),
          storeWord pqr.2.2 i (vdevRaidz64Mul4 (loadWord pqr.2.2 i) ^^^ loadWord src i))) pqr
      forRange ccnt pcnt (fun i (pqr : Buf × Buf × Buf) =>
        (pqr.1, storeWord pqr.2.1 i (vdevRaidz64Mul2 (loadWord pqr.2.1 i)),
          storeWord pqr.2.2 i (vdevRaidz64Mul4 (loadWord pqr.2.2 i)))) pqr)
    ((rm.rmCol vdevRaidzP).rcData, (rm.rmCol vdevRaidzQ).rcData, (rm.rmCol vdevRaidzR).rcData)
  ((rm.setData vdevRaidzP pqr.1).setData vdevRaidzQ pqr.2.1).setData vdevRaidzR pqr.2.2

/- No result stands for the panic on an invalid parity count. -/
def vdevRaidzGenerateParity (rm : RaidzMap) : Option RaidzMap :=
  match rm.rmFirstdatacol with
  | 1 => some (vdevRaidzGenerateParityP rm)
  | 2 => some (vdevRaidzGenerateParityPq rm)
  | 3 => some (vdevRaidzGenerateParityPqr rm)
  | _ => none

/-- A byte of a column, zero past its end. -/
def RaidzCol.padByte (col : RaidzCol) (k : Nat) : Gf :=
  ⟨if k < col.rcSize then col.rcData k else 0⟩

/-- The bytes at offset `k` of the data columns, first column first. -/
def RaidzMap.dataBytes (rm : RaidzMap) (k : Nat) : Nat → Gf :=
  fun j => (rm.rmCol (rm.rmFirstdatacol + j)).padByte k

def RaidzMap.ndata (rm : RaidzMap) : Nat := rm.rmCols - rm.rmFirstdatacol

/-- The weight base of a parity column: 1, 2 and 4 for P, Q and R. -/
def parityBase (e : Nat) : Gf := Gf.gen ^ e

/- One parity buffer on its own. `mul` is the word operation that multiplies by the weight. -/
def firstColumn (src : Buf) (ccnt pcnt : Nat) (p : Buf) : Buf :=
  forRange ccnt pcnt (fun i p => storeWord p i 0)
    (forRange 0 ccnt (fun i p => storeWord p i (loadWord src i)) p)

def nextColumn (mul : BitVec 64 → BitVec 64) (src : Buf) (ccnt pcnt : Nat) (p : Buf) : Buf :=
  forRange ccnt pcnt (fun i p => storeWord p i (mul (loadWord p i)))
    (forRange 0 ccnt (fun i p => storeWord p i (mul (loadWord p i) ^^^ loadWord src i)) p)

theorem firstColumn_byte (src p : Buf) (ccnt pcnt k : Nat) (hk : k < 8 * pcnt) :
    firstColumn src ccnt pcnt p k = if k < 8 * ccnt then src k else 0 := by
  rw [firstColumn, forRange_clear, forRange_copy]
  by_cases hc : k < 8 * ccnt
  · rw [if_neg (by omega), if_pos (by omega), if_pos hc]
  · rw [if_pos (by omega), if_neg hc]

/-- A word operation that multiplies every byte by `a`. -/
def ScalesBytes (mul : BitVec 64 → BitVec 64) (a : Gf) : Prop :=
  ∀ w j, j < 8 → Gf.mk (wordByte (mul w) j) = a * Gf.mk (wordByte w j)

theorem scales_id : ScalesBytes id (parityBase 0) := by
  intro w j _
  simp [parityBase]

theorem scales_mul2 : ScalesBytes vdevRaidz64Mul2 (parityBase 1) := by
  intro w j hj
  rw [wordByte_64Mul2 w j hj, Gf.mk_mul2, parityBase, pow_one]

theorem scales_mul4 : ScalesBytes vdevRaidz64Mul4 (parityBase 2) := by
  intro w j hj
  rw [vdevRaidz64Mul4, wordByte_64Mul2 _ j hj, wordByte_64Mul2 _ j hj, Gf.mk_mul2, Gf.mk_mul2,
    parityBase, pow_two, mul_assoc]

theorem nextColumn_byte (scales : ScalesBytes mul a)
    (src p : Buf) (ccnt pcnt k : Nat) (hk : k < 8 * pcnt) :
    Gf.mk (nextColumn mul src ccnt pcnt p k) =
      a * Gf.mk (p k) + Gf.mk (if k < 8 * ccnt then src k else 0) := by
  have hbyte : ∀ (k : Nat) (w : BitVec 64),
      wordByte (mul w) (k % 8) = (a * Gf.mk (wordByte w (k % 8))).byte := by
    intro k w
    rw [← scales w (k % 8) (Nat.mod_lt k (by decide))]
  have hxor : ∀ (k : Nat) (w : BitVec 64), wordByte (mul w ^^^ loadWord src (k / 8)) (k % 8) =
      (a * Gf.mk (wordByte w (k % 8))).byte ^^^ src k := by
    intro k w
    rw [wordByte_xor, loadWord_byte, hbyte]
  rw [nextColumn, forRange_words _ (fun _ w => mul w) (fun _ b => (a * Gf.mk b).byte) hbyte,
    forRange_words p (fun i w => mul w ^^^ loadWord src i)
      (fun k b => (a * Gf.mk b).byte ^^^ src k) hxor]
  by_cases hc : k < 8 * ccnt
  · rw [if_neg (by omega), if_pos (by omega), if_pos hc, Gf.mk_xor]
  · rw [if_pos (by omega), if_neg (by omega), if_neg hc, Gf.mk_zero, add_zero]

theorem nextColumn_id (src p : Buf) (ccnt pcnt : Nat) :
    nextColumn id src ccnt pcnt p =
      forRange 0 ccnt (fun i p => storeWord p i (loadWord p i ^^^ loadWord src i)) p := by
  funext k
  rw [nextColumn, forRange_words _ (fun _ w => id w) (fun _ b => b) (fun _ _ => rfl), ite_self]
  rfl

/- All data columns, for one parity buffer. -/
def parityColumns (rm : RaidzMap) (mul : BitVec 64 → BitVec 64) (pcnt : Nat) (p : Buf) : Buf :=
  forRange rm.rmFirstdatacol rm.rmCols (fun c p =>
    if c = rm.rmFirstdatacol then
      firstColumn (rm.rmCol c).rcData ((rm.rmCol c).rcSize / 8) pcnt p
    else nextColumn mul (rm.rmCol c).rcData ((rm.rmCol c).rcSize / 8) pcnt p) p

theorem padByte_words (col : RaidzCol) (k : Nat) (words : 8 ∣ col.rcSize) :
    col.padByte k = Gf.mk (if k < 8 * (col.rcSize / 8) then col.rcData k else 0) := by
  rw [Nat.mul_div_cancel' words]
  rfl

/-- Horner's scheme: after the columns below `c`, the buffer holds their syndrome. -/
theorem hornerColumns_byte {first cols pcnt k : Nat} {v : Nat → Gf} (scales : ScalesBytes mul a)
    (src : Nat → Buf) (ccnt : Nat → Nat) (data : first < cols) (hk : k < 8 * pcnt)
    (hv : ∀ c, first ≤ c → c < cols →
      Gf.mk (if k < 8 * ccnt c then src c k else 0) = v (c - first)) (p : Buf) :
    Gf.mk (forRange first cols (fun c p =>
      if c = first then firstColumn (src c) (ccnt c) pcnt p
      else nextColumn mul (src c) (ccnt c) pcnt p) p k) = syndrome a (cols - first) v := by
  refine forRange_invariant (fun c (p : Buf) => first < c → Gf.mk (p k) =
    syndrome a (c - first) v) (Nat.le_of_lt data) (fun h => absurd h (Nat.lt_irrefl _)) ?_ data
  intro c p hc hcols ih _
  have hsub : c + 1 - first = (c - first) + 1 := by omega
  rw [hsub, syndrome_succ, ← hv c hc hcols]
  by_cases hfirst : c = first
  · rw [if_pos hfirst, firstColumn_byte _ _ _ _ _ hk, hfirst, Nat.sub_self, syndrome_zero,
      mul_zero, zero_add]
  · rw [if_neg hfirst, nextColumn_byte scales _ _ _ _ _ hk, ih (by omega)]

theorem parityColumns_syndrome (scales : ScalesBytes mul a)
    (words : ∀ c, rm.rmFirstdatacol ≤ c → c < rm.rmCols → 8 ∣ (rm.rmCol c).rcSize)
    (data : rm.rmFirstdatacol < rm.rmCols) (p : Buf) (pcnt k : Nat) (hk : k < 8 * pcnt) :
    Gf.mk (parityColumns rm mul pcnt p k) = syndrome a rm.ndata (rm.dataBytes k) := by
  refine hornerColumns_byte scales rm.data (fun c => (rm.rmCol c).rcSize / 8) data hk ?_ p
  intro c hc hcols
  rw [RaidzMap.dataBytes, Nat.add_sub_cancel' hc, padByte_words _ k (words c hc hcols)]
  rfl

/- The word operation of each parity column. -/
def parityMul : Nat → BitVec 64 → BitVec 64
  | 0 => id
  | 1 => vdevRaidz64Mul2
  | _ => vdevRaidz64Mul4

theorem scales_parityMul (e : Nat) (he : e < 3) : ScalesBytes (parityMul e) (parityBase e) := by
  match e, he with
  | 0, _ => exact scales_id
  | 1, _ => exact scales_mul2
  | 2, _ => exact scales_mul4

/- The buffers after the first `n` parity columns are generated. -/
def RaidzMap.parityData (rm : RaidzMap) (n : Nat) : Nat → Buf := fun c =>
  if c < n then
    parityColumns rm (parityMul c) ((rm.rmCol vdevRaidzP).rcSize / 8) (rm.data c)
  else rm.data c

/-- A routine that keeps several parity buffers in its state works on each of them alone. -/
theorem columns_view {σ : Type} (rm : RaidzMap) (view : σ → Buf) (mul : BitVec 64 → BitVec 64)
    (pcnt : Nat) (copy next : Nat → Nat → σ → σ) (clear short : Nat → σ → σ) (s : σ)
    (hcopy : ∀ c i s, view (copy c i s) = storeWord (view s) i (loadWord (rm.data c) i))
    (hclear : ∀ i s, view (clear i s) = storeWord (view s) i 0)
    (hnext : ∀ c i s, view (next c i s) =
      storeWord (view s) i (mul (loadWord (view s) i) ^^^ loadWord (rm.data c) i))
    (hshort : ∀ i s, view (short i s) = storeWord (view s) i (mul (loadWord (view s) i))) :
    view (forRange rm.rmFirstdatacol rm.rmCols (fun c s =>
      if c = rm.rmFirstdatacol then
        forRange ((rm.rmCol c).rcSize / 8) pcnt clear
          (forRange 0 ((rm.rmCol c).rcSize / 8) (copy c) s)
      else
        forRange ((rm.rmCol c).rcSize / 8) pcnt short
          (forRange 0 ((rm.rmCol c).rcSize / 8) (next c) s)) s) =
      parityColumns rm mul pcnt (view s) := by
  refine forRange_map view _ ?_
  intro c t
  split
  · rw [forRange_map view (fun i p => storeWord p i 0) hclear,
      forRange_map view (fun i p => storeWord p i (loadWord (rm.data c) i)) (hcopy c)]
    rfl
  · rw [forRange_map view (fun i p => storeWord p i (mul (loadWord p i))) hshort,
      forRange_map view (fun i p => storeWord p i (mul (loadWord p i) ^^^ loadWord (rm.data c) i))
        (hnext c)]
    rfl

theorem generateParityP_eq (rm : RaidzMap)
    (head : (rm.rmCol rm.rmFirstdatacol).rcSize = (rm.rmCol vdevRaidzP).rcSize) :
    vdevRaidzGenerateParityP rm = rm.withData (rm.parityData 1) := by
  unfold vdevRaidzGenerateParityP
  rw [setData_eq_withData]
  refine congrArg rm.withData (funext fun c => ?_)
  match c with
  | 0 =>
    refine forRange_congr _ ?_
    intro c p _ _
    by_cases hc : c = rm.rmFirstdatacol
    · -- the first data column is as long as the parity, so nothing is left to clear
      simp only [hc, if_true, firstColumn, head]
      rw [forRange_empty _ _ (Nat.le_refl _)]
    · simp only [hc, if_false, parityMul, nextColumn_id]
  | c + 1 => simp [RaidzMap.parityData, vdevRaidzP]

theorem generateParityPq_eq (rm : RaidzMap) :
    vdevRaidzGenerateParityPq rm = rm.withData (rm.parityData 2) := by
  unfold vdevRaidzGenerateParityPq
  rw [setData_eq_withData, setData_eq_withData, withData_withData]
  refine congrArg rm.withData (funext fun c => ?_)
  match c with
  | 0 =>
    refine columns_view rm Prod.fst id _ _ _ _ _ _ ?_ ?_ ?_ ?_
    rotate_right
    · exact fun i pq => (storeWord_loadWord pq.1 i).symm
    all_goals intros; rfl
  | 1 =>
    refine columns_view rm Prod.snd vdevRaidz64Mul2 _ _ _ _ _ _ ?_ ?_ ?_ ?_
    all_goals intros; rfl
  | c + 2 => simp [RaidzMap.parityData, vdevRaidzP, vdevRaidzQ]

theorem generateParityPqr_eq (rm : RaidzMap) :
    vdevRaidzGenerateParityPqr rm = rm.withData (rm.parityData 3) := by
  unfold vdevRaidzGenerateParityPqr
  rw [setData_eq_withData, setData_eq_withData, withData_withData, setData_eq_withData,
    withData_withData]
  refine congrArg rm.withData (funext fun c => ?_)
  match c with
  | 0 =>
    refine columns_view rm Prod.fst id _ _ _ _ _ _ ?_ ?_ ?_ ?_
    rotate_right
    · exact fun i pqr => (storeWord_loadWord pqr.1 i).symm
    all_goals intros; rfl
  | 1 =>
    refine columns_view rm (fun pqr : Buf × Buf × Buf => pqr.2.1) vdevRaidz64Mul2 _ _ _ _ _ _
      ?_ ?_ ?_ ?_
    all_goals intros; rfl
  | 2 =>
    refine columns_view rm (fun pqr : Buf × Buf × Buf => pqr.2.2) vdevRaidz64Mul4 _ _ _ _ _ _
      ?_ ?_ ?_ ?_
    all_goals intros; rfl
  | c + 3 => simp [RaidzMap.parityData, vdevRaidzP, vdevRaidzQ, vdevRaidzR]

theorem parityData_data {n c : Nat} (h : n ≤ c) :
    rm.parityData n c = rm.data c := by
  rw [RaidzMap.parityData, if_neg (by omega)]

theorem parityData_byte (words : ∀ c, 8 ∣ (rm.rmCol c).rcSize)
    (data : rm.rmFirstdatacol < rm.rmCols) {n e k : Nat} (he : e < n) (hn : n ≤ 3)
    (hk : k < (rm.rmCol vdevRaidzP).rcSize) :
    Gf.mk (rm.parityData n e k) = syndrome (parityBase e) rm.ndata (rm.dataBytes k) := by
  have hword := Nat.mul_div_cancel' (words vdevRaidzP)
  rw [RaidzMap.parityData, if_pos he]
  exact parityColumns_syndrome (scales_parityMul e (by omega)) (fun c _ _ => words c) data _ _ _
    (by omega)

theorem generateParity_withData (hpos : 0 < rm.rmFirstdatacol)
    (hle : rm.rmFirstdatacol ≤ 3)
    (head : (rm.rmCol rm.rmFirstdatacol).rcSize = (rm.rmCol vdevRaidzP).rcSize) :
    vdevRaidzGenerateParity rm = some (rm.withData (rm.parityData rm.rmFirstdatacol)) := by
  obtain hn | hn | hn : rm.rmFirstdatacol = 1 ∨ rm.rmFirstdatacol = 2 ∨
      rm.rmFirstdatacol = 3 := by omega
  · simp only [vdevRaidzGenerateParity, hn, generateParityP_eq rm head]
  · simp only [vdevRaidzGenerateParity, hn, generateParityPq_eq]
  · simp only [vdevRaidzGenerateParity, hn, generateParityPqr_eq]

theorem generateParity_eq (h : rm.WellFormed)
    (data : rm.rmFirstdatacol < rm.rmCols) :
    vdevRaidzGenerateParity rm = some (rm.withData (rm.parityData rm.rmFirstdatacol)) :=
  generateParity_withData h.parity_pos h.parity_le
    (h.head_size rm.rmFirstdatacol (Nat.le_refl _) data)

end ClusterZfs

import ClusterZfs.Lib.Buffer
import ClusterZfs.Raidz.Galois

/-! The 64-bit doubling macros and the fact that they double each byte of the word. -/
namespace ClusterZfs

variable (w : BitVec 64) (t : BitVec 8) (j : Nat)

/- All eight bytes at once: `mask` turns the top bit of each byte into a byte of ones. -/
def vdevRaidz64Mul2 (x : BitVec 64) : BitVec 64 :=
  let mask := x &&& 0x8080808080808080#64
  let mask := (mask <<< 1) - (mask >>> 7)
  ((x <<< 1) &&& 0xfefefefefefefefe#64) ^^^ (mask &&& 0x1d1d1d1d1d1d1d1d#64)

def vdevRaidz64Mul4 (x : BitVec 64) : BitVec 64 := vdevRaidz64Mul2 (vdevRaidz64Mul2 x)

/- The only carries are those of the subtraction that builds the mask, and they stay inside
a byte: eight top bits become eight full bytes, which is a check over 256 cases. -/
def topBits (t : BitVec 8) : BitVec 64 :=
  (List.range 8).foldl (fun w j => w ||| if t.getLsbD j then 0x80#64 <<< (8 * j) else 0) 0

def fullBytes (t : BitVec 8) : BitVec 64 :=
  (List.range 8).foldl (fun w j => w ||| if t.getLsbD j then 0xff#64 <<< (8 * j) else 0) 0

theorem topBits_fill : (topBits t <<< 1) - (topBits t >>> 7) = fullBytes t := by
  have h : ∀ t : BitVec 8, (topBits t <<< 1) - (topBits t >>> 7) = fullBytes t := by
    decide +kernel
  exact h t

theorem wordByte_fullBytes (hj : j < 8) :
    wordByte (fullBytes t) j = if t.getLsbD j then 0xff#8 else 0 := by
  have h : ∀ (t : BitVec 8) (j : Fin 8),
      wordByte (fullBytes t) j = if t.getLsbD j then 0xff#8 else 0 := by
    decide +kernel
  exact h t ⟨j, hj⟩

/-- The top bits of the eight bytes of a word. -/
def signs (w : BitVec 64) : BitVec 8 :=
  BitVec.ofBool (w.getLsbD 63) ++ BitVec.ofBool (w.getLsbD 55) ++ BitVec.ofBool (w.getLsbD 47) ++
    BitVec.ofBool (w.getLsbD 39) ++ BitVec.ofBool (w.getLsbD 31) ++ BitVec.ofBool (w.getLsbD 23) ++
    BitVec.ofBool (w.getLsbD 15) ++ BitVec.ofBool (w.getLsbD 7)

theorem signs_getLsbD (hj : j < 8) :
    (signs w).getLsbD j = w.getLsbD (8 * j + 7) := by
  interval_cases j <;> simp only [signs, BitVec.getLsbD_append, BitVec.getLsbD_ofBool] <;> rfl

theorem wordByte_topBits (hj : j < 8) :
    wordByte (topBits t) j = if t.getLsbD j then 0x80#8 else 0 := by
  have h : ∀ (t : BitVec 8) (j : Fin 8),
      wordByte (topBits t) j = if t.getLsbD j then 0x80#8 else 0 := by
    decide +kernel
  exact h t ⟨j, hj⟩

theorem wordByte_sign :
    (wordByte w j).getLsbD 7 = w.getLsbD (8 * j + 7) := by
  simp [wordByte]

theorem byte_and_top (b : BitVec 8) : b &&& 0x80 = if b.getLsbD 7 then 0x80#8 else 0 := by
  have h : ∀ b : BitVec 8, b &&& 0x80 = if b.getLsbD 7 then 0x80#8 else 0 := by decide +kernel
  exact h b

theorem and_top_bits : w &&& 0x8080808080808080#64 = topBits (signs w) := by
  apply word_ext
  intro j hj
  have hc : wordByte 0x8080808080808080#64 j = 0x80 := by
    interval_cases j <;> rfl
  rw [wordByte_and, hc, byte_and_top, wordByte_sign, wordByte_topBits _ j hj, signs_getLsbD w j hj]

theorem wordByte_shift (hj : j < 8) :
    wordByte ((w <<< 1) &&& 0xfefefefefefefefe#64) j = wordByte w j <<< 1 := by
  have hc : wordByte 0xfefefefefefefefe#64 j = 0xfe := by
    interval_cases j <;> rfl
  rw [wordByte_and, hc]
  apply BitVec.eq_of_getLsbD_eq
  intro b hb
  interval_cases b <;> simp [wordByte] <;> omega

theorem wordByte_64Mul2 (hj : j < 8) :
    wordByte (vdevRaidz64Mul2 w) j = vdevRaidzMul2 (wordByte w j) := by
  have hc : wordByte 0x1d1d1d1d1d1d1d1d#64 j = 0x1d := by
    interval_cases j <;> rfl
  unfold vdevRaidz64Mul2 vdevRaidzMul2
  simp only [and_top_bits, topBits_fill]
  rw [wordByte_xor, wordByte_shift w j hj, wordByte_and, hc, wordByte_fullBytes _ j hj,
    signs_getLsbD w j hj, byte_and_top, wordByte_sign]
  cases w.getLsbD (8 * j + 7) <;> rfl

end ClusterZfs

import ClusterZfs.Lib.Loop
import Mathlib.Tactic.IntervalCases

/-! Byte buffers that are read and written either a byte or a 64-bit word at a time.
A buffer is a total map from byte offsets to bytes; the length of the valid part is kept
by its owner. Word `i` covers the bytes `8 * i .. 8 * i + 7`, lowest byte first. -/
namespace ClusterZfs

variable (buf : Buf) (i : Nat) (j : Nat) (k : Nat)

abbrev Buf := Nat → BitVec 8

def wordByte (w : BitVec 64) (j : Nat) : BitVec 8 := w.extractLsb' (8 * j) 8

def loadWord (buf : Buf) (i : Nat) : BitVec 64 :=
  buf (8 * i + 7) ++ buf (8 * i + 6) ++ buf (8 * i + 5) ++ buf (8 * i + 4) ++
    buf (8 * i + 3) ++ buf (8 * i + 2) ++ buf (8 * i + 1) ++ buf (8 * i)

def storeWord (buf : Buf) (i : Nat) (w : BitVec 64) : Buf :=
  fun k => if k / 8 = i then wordByte w (k % 8) else buf k

def storeByte (buf : Buf) (k : Nat) (b : BitVec 8) : Buf := Function.update buf k b

theorem wordByte_loadWord (hj : j < 8) :
    wordByte (loadWord buf i) j = buf (8 * i + j) := by
  interval_cases j <;>
    · ext b hb
      simp only [wordByte, loadWord, BitVec.getElem_extractLsb', BitVec.getLsbD_append]
      interval_cases b <;> simp

theorem storeWord_apply (w : BitVec 64) (k : Nat) :
    storeWord buf i w k = if k / 8 = i then wordByte w (k % 8) else buf k := rfl

theorem wordByte_xor (v w : BitVec 64) (j : Nat) :
    wordByte (v ^^^ w) j = wordByte v j ^^^ wordByte w j := by
  ext b hb
  simp [wordByte]

theorem wordByte_and (v w : BitVec 64) (j : Nat) :
    wordByte (v &&& w) j = wordByte v j &&& wordByte w j := by
  ext b hb
  simp [wordByte]

theorem wordByte_zero : wordByte 0#64 j = 0#8 := by
  ext b hb
  simp [wordByte]

theorem word_ext {v w : BitVec 64} (h : ∀ j, j < 8 → wordByte v j = wordByte w j) : v = w := by
  apply BitVec.eq_of_getLsbD_eq
  intro i hi
  have hb := congrArg (fun b => b.getLsbD (i % 8)) (h (i / 8) (by omega))
  have hm : i % 8 < 8 := Nat.mod_lt i (by decide)
  simpa only [wordByte, BitVec.getLsbD_extractLsb', hm, decide_true, Bool.true_and,
    Nat.div_add_mod] using hb

theorem loadWord_byte : wordByte (loadWord buf (k / 8)) (k % 8) = buf k := by
  rw [wordByte_loadWord buf _ _ (Nat.mod_lt k (by decide)), Nat.div_add_mod]

theorem storeWord_loadWord : storeWord buf i (loadWord buf i) = buf := by
  funext k
  rw [storeWord_apply]
  split
  · rename_i h
    rw [← h, loadWord_byte]
  · rfl

/-- A word loop whose word operation acts byte by byte acts byte by byte on the buffer. -/
theorem forRange_words {lo hi : Nat} (op : Nat → BitVec 64 → BitVec 64)
    (byteOp : Nat → BitVec 8 → BitVec 8)
    (bytewise : ∀ k w, wordByte (op (k / 8) w) (k % 8) = byteOp k (wordByte w (k % 8))) (k : Nat) :
    forRange lo hi (fun i b => storeWord b i (op i (loadWord b i))) buf k =
      if 8 * lo ≤ k ∧ k < 8 * hi then byteOp k (buf k) else buf k := by
  rcases Nat.le_total lo hi with h | h
  · induction hi, h using Nat.le_induction with
    | base => rw [forRange_empty _ _ (Nat.le_refl lo), if_neg (by omega)]
    | succ hi h ih =>
      rw [forRange_succ _ buf h, storeWord_apply]
      by_cases hk : k / 8 = hi
      · subst hk
        rw [if_pos rfl, bytewise, loadWord_byte, ih, if_neg (by omega), if_pos (by omega)]
      · rw [if_neg hk, ih]
        by_cases hr : 8 * lo ≤ k ∧ k < 8 * hi
        · rw [if_pos hr, if_pos (by omega)]
        · rw [if_neg hr, if_neg (by omega)]
  · rw [forRange_empty _ buf h, if_neg (by omega)]

theorem forRange_copy {lo hi : Nat} (src buf : Buf) (k : Nat) :
    forRange lo hi (fun i b => storeWord b i (loadWord src i)) buf k =
      if 8 * lo ≤ k ∧ k < 8 * hi then src k else buf k :=
  forRange_words buf (fun i _ => loadWord src i) (fun k _ => src k)
    (fun k _ => loadWord_byte src k) k

theorem forRange_clear {lo hi : Nat} :
    forRange lo hi (fun i b => storeWord b i 0) buf k =
      if 8 * lo ≤ k ∧ k < 8 * hi then 0 else buf k :=
  forRange_words buf (fun _ _ => 0) (fun _ _ => 0) (fun _ _ => wordByte_zero _) k

theorem forRange_xor {lo hi : Nat} (src buf : Buf) (k : Nat) :
    forRange lo hi (fun i b => storeWord b i (loadWord b i ^^^ loadWord src i)) buf k =
      if 8 * lo ≤ k ∧ k < 8 * hi then buf k ^^^ src k else buf k := by
  refine forRange_words buf (fun i w => w ^^^ loadWord src i) (fun k b => b ^^^ src k) ?_ k
  intro k w
  rw [wordByte_xor, loadWord_byte]

end ClusterZfs

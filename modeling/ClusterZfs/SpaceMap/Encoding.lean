import Mathlib.Data.Nat.Bitwise
import Mathlib.Tactic.NormNum

/-! The bit fields of the entries of a space map. -/
namespace ClusterZfs

def bf64Decode (x low len : Nat) : Nat := (x >>> low) % 2 ^ len
def bf64Encode (x low len : Nat) : Nat := (x % 2 ^ len) <<< low

def smRunDecode (x : Nat) : Nat := bf64Decode x 0 15 + 1
def smRunEncode (x : Nat) : Nat := bf64Encode (x - 1) 0 15
def smTypeDecode (x : Nat) : Nat := bf64Decode x 15 1
def smTypeEncode (x : Nat) : Nat := bf64Encode x 15 1
def smOffsetDecode (x : Nat) : Nat := bf64Decode x 16 47
def smOffsetEncode (x : Nat) : Nat := bf64Encode x 16 47
def smDebugDecode (x : Nat) : Nat := bf64Decode x 63 1
def smDebugEncode (x : Nat) : Nat := bf64Encode x 63 1
def smDebugActionEncode (x : Nat) : Nat := bf64Encode x 60 3
def smDebugSyncpassEncode (x : Nat) : Nat := bf64Encode x 50 10
def smDebugTxgEncode (x : Nat) : Nat := bf64Encode x 0 50

def smRunMax : Nat := smRunDecode (2 ^ 64 - 1)

inductive Maptype where
  | alloc
  | free
  deriving DecidableEq, Repr

def Maptype.code : Maptype → Nat
  | alloc => 0
  | free => 1

def smEntry (offset : Nat) (maptype : Maptype) (runLen : Nat) : Nat :=
  smOffsetEncode offset ||| smTypeEncode maptype.code ||| smRunEncode runLen

def smDebugEntry (maptype : Maptype) (syncpass txg : Nat) : Nat :=
  smDebugEncode 1 ||| smDebugActionEncode maptype.code ||| smDebugSyncpassEncode syncpass |||
    smDebugTxgEncode txg

section Fields

variable {offset runLen : Nat} {maptype : Maptype}

theorem smRunMax_eq : smRunMax = 2 ^ 15 := by
  norm_num [smRunMax, smRunDecode, bf64Decode]

theorem Maptype.code_lt (maptype : Maptype) : maptype.code < 2 := by
  cases maptype <;> decide

theorem smEntry_eq (hoff : offset < 2 ^ 47) (hrun : 0 < runLen) (hmax : runLen ≤ 2 ^ 15) :
    smEntry offset maptype runLen = offset * 2 ^ 16 + maptype.code * 2 ^ 15 + (runLen - 1) := by
  have hcode := maptype.code_lt
  have hlow : runLen - 1 < 2 ^ 15 := by omega
  have htype : maptype.code <<< 15 ||| (runLen - 1) = maptype.code <<< 15 + (runLen - 1) :=
    (Nat.shiftLeft_add_eq_or_of_lt hlow _).symm
  have hrest : maptype.code <<< 15 + (runLen - 1) < 2 ^ 16 := by
    rw [Nat.shiftLeft_eq]
    omega
  have hcode' : maptype.code % 2 ^ 1 = maptype.code := Nat.mod_eq_of_lt hcode
  rw [smEntry, smOffsetEncode, smTypeEncode, smRunEncode, bf64Encode, bf64Encode, bf64Encode,
    Nat.mod_eq_of_lt hoff, Nat.mod_eq_of_lt hlow, hcode', Nat.shiftLeft_zero, Nat.or_assoc, htype,
    ← Nat.shiftLeft_add_eq_or_of_lt hrest, Nat.shiftLeft_eq, Nat.shiftLeft_eq]
  omega

theorem smEntry_decode (maptype : Maptype) (hoff : offset < 2 ^ 47) (hrun : 0 < runLen)
    (hmax : runLen ≤ 2 ^ 15) :
    smDebugDecode (smEntry offset maptype runLen) = 0 ∧
      smOffsetDecode (smEntry offset maptype runLen) = offset ∧
      smTypeDecode (smEntry offset maptype runLen) = maptype.code ∧
      smRunDecode (smEntry offset maptype runLen) = runLen := by
  have hcode := maptype.code_lt
  rw [smEntry_eq hoff hrun hmax]
  simp only [smDebugDecode, smOffsetDecode, smTypeDecode, smRunDecode, bf64Decode,
    Nat.shiftRight_eq_div_pow]
  refine ⟨?_, ?_, ?_, ?_⟩ <;> omega

theorem smDebugEntry_decode (maptype : Maptype) (syncpass txg : Nat) :
    smDebugDecode (smDebugEntry maptype syncpass txg) = 1 := by
  have hbit : ∀ x low len, low + len ≤ 63 → (bf64Encode x low len).testBit 63 = false := by
    intro x low len hle
    rw [bf64Encode, Nat.testBit_shiftLeft, Nat.testBit_mod_two_pow]
    have hno : ¬ 63 - low < len := by omega
    simp [hno]
  have hset : (smDebugEntry maptype syncpass txg).testBit 63 = true := by
    simp only [smDebugEntry, Nat.testBit_or, smDebugActionEncode, smDebugSyncpassEncode,
      smDebugTxgEncode, hbit _ 60 3 (by decide), hbit _ 50 10 (by decide), hbit _ 0 50 (by decide)]
    decide
  rw [Nat.testBit_eq_decide_div_mod_eq, decide_eq_true_eq] at hset
  rw [smDebugDecode, bf64Decode, Nat.shiftRight_eq_div_pow]
  exact hset

end Fields

end ClusterZfs

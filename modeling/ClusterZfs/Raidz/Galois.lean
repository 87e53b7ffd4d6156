import ClusterZfs.Lib.CyclicField
import Mathlib.Data.List.GetD
import Mathlib.Data.List.Iterate

/-! Galois field arithmetic of RAID-Z: the doubling macro, the tables of powers and
logarithms of 2 and `vdev_raidz_exp2`. The bytes with XOR and doubling form an instance of
the cyclic field construction; all later algebra happens in that field. -/
namespace ClusterZfs

def vdevRaidzMul2 (x : BitVec 8) : BitVec 8 :=
  (x <<< 1) ^^^ (if x &&& 0x80 ≠ 0 then 0x1d else 0)

def vdevRaidzPow2Table : List Nat := [
  0x01, 0x02, 0x04, 0x08, 0x10, 0x20, 0x40, 0x80, 0x1d, 0x3a, 0x74, 0xe8, 0xcd, 0x87, 0x13, 0x26,
  0x4c, 0x98, 0x2d, 0x5a, 0xb4, 0x75, 0xea, 0xc9, 0x8f, 0x03, 0x06, 0x0c, 0x18, 0x30, 0x60, 0xc0,
  0x9d, 0x27, 0x4e, 0x9c, 0x25, 0x4a, 0x94, 0x35, 0x6a, 0xd4, 0xb5, 0x77, 0xee, 0xc1, 0x9f, 0x23,
  0x46, 0x8c, 0x05, 0x0a, 0x14, 0x28, 0x50, 0xa0, 0x5d, 0xba, 0x69, 0xd2, 0xb9, 0x6f, 0xde, 0xa1,
  0x5f, 0xbe, 0x61, 0xc2, 0x99, 0x2f, 0x5e, 0xbc, 0x65, 0xca, 0x89, 0x0f, 0x1e, 0x3c, 0x78, 0xf0,
  0xfd, 0xe7, 0xd3, 0xbb, 0x6b, 0xd6, 0xb1, 0x7f, 0xfe, 0xe1, 0xdf, 0xa3, 0x5b, 0xb6, 0x71, 0xe2,
  0xd9, 0xaf, 0x43, 0x86, 0x11, 0x22, 0x44, 0x88, 0x0d, 0x1a, 0x34, 0x68, 0xd0, 0xbd, 0x67, 0xce,
  0x81, 0x1f, 0x3e, 0x7c, 0xf8, 0xed, 0xc7, 0x93, 0x3b, 0x76, 0xec, 0xc5, 0x97, 0x33, 0x66, 0xcc,
  0x85, 0x17, 0x2e, 0x5c, 0xb8, 0x6d, 0xda, 0xa9, 0x4f, 0x9e, 0x21, 0x42, 0x84, 0x15, 0x2a, 0x54,
  0xa8, 0x4d, 0x9a, 0x29, 0x52, 0xa4, 0x55, 0xaa, 0x49, 0x92, 0x39, 0x72, 0xe4, 0xd5, 0xb7, 0x73,
  0xe6, 0xd1, 0xbf, 0x63, 0xc6, 0x91, 0x3f, 0x7e, 0xfc, 0xe5, 0xd7, 0xb3, 0x7b, 0xf6, 0xf1, 0xff,
  0xe3, 0xdb, 0xab, 0x4b, 0x96, 0x31, 0x62, 0xc4, 0x95, 0x37, 0x6e, 0xdc, 0xa5, 0x57, 0xae, 0x41,
  0x82, 0x19, 0x32, 0x64, 0xc8, 0x8d, 0x07, 0x0e, 0x1c, 0x38, 0x70, 0xe0, 0xdd, 0xa7, 0x53, 0xa6,
  0x51, 0xa2, 0x59, 0xb2, 0x79, 0xf2, 0xf9, 0xef, 0xc3, 0x9b, 0x2b, 0x56, 0xac, 0x45, 0x8a, 0x09,
  0x12, 0x24, 0x48, 0x90, 0x3d, 0x7a, 0xf4, 0xf5, 0xf7, 0xf3, 0xfb, 0xeb, 0xcb, 0x8b, 0x0b, 0x16,
  0x2c, 0x58, 0xb0, 0x7d, 0xfa, 0xe9, 0xcf, 0x83, 0x1b, 0x36, 0x6c, 0xd8, 0xad, 0x47, 0x8e, 0x01]

def vdevRaidzLog2Table : List Nat := [
  0x00, 0x00, 0x01, 0x19, 0x02, 0x32, 0x1a, 0xc6, 0x03, 0xdf, 0x33, 0xee, 0x1b, 0x68, 0xc7, 0x4b,
  0x04, 0x64, 0xe0, 0x0e, 0x34, 0x8d, 0xef, 0x81, 0x1c, 0xc1, 0x69, 0xf8, 0xc8, 0x08, 0x4c, 0x71,
  0x05, 0x8a, 0x65, 0x2f, 0xe1, 0x24, 0x0f, 0x21, 0x35, 0x93, 0x8e, 0xda, 0xf0, 0x12, 0x82, 0x45,
  0x1d, 0xb5, 0xc2, 0x7d, 0x6a, 0x27, 0xf9, 0xb9, 0xc9, 0x9a, 0x09, 0x78, 0x4d, 0xe4, 0x72, 0xa6,
  0x06, 0xbf, 0x8b, 0x62, 0x66, 0xdd, 0x30, 0xfd, 0xe2, 0x98, 0x25, 0xb3, 0x10, 0x91, 0x22, 0x88,
  0x36, 0xd0, 0x94, 0xce, 0x8f, 0x96, 0xdb, 0xbd, 0xf1, 0xd2, 0x13, 0x5c, 0x83, 0x38, 0x46, 0x40,
  0x1e, 0x42, 0xb6, 0xa3, 0xc3, 0x48, 0x7e, 0x6e, 0x6b, 0x3a, 0x28, 0x54, 0xfa, 0x85, 0xba, 0x3d,
  0xca, 0x5e, 0x9b, 0x9f, 0x0a, 0x15, 0x79, 0x2b, 0x4e, 0xd4, 0xe5, 0xac, 0x73, 0xf3, 0xa7, 0x57,
  0x07, 0x70, 0xc0, 0xf7, 0x8c, 0x80, 0x63, 0x0d, 0x67, 0x4a, 0xde, 0xed, 0x31, 0xc5, 0xfe, 0x18,
  0xe3, 0xa5, 0x99, 0x77, 0x26, 0xb8, 0xb4, 0x7c, 0x11, 0x44, 0x92, 0xd9, 0x23, 0x20, 0x89, 0x2e,
  0x37, 0x3f, 0xd1, 0x5b, 0x95, 0xbc, 0xcf, 0xcd, 0x90, 0x87, 0x97, 0xb2, 0xdc, 0xfc, 0xbe, 0x61,
  0xf2, 0x56, 0xd3, 0xab, 0x14, 0x2a, 0x5d, 0x9e, 0x84, 0x3c, 0x39, 0x53, 0x47, 0x6d, 0x41, 0xa2,
  0x1f, 0x2d, 0x43, 0xd8, 0xb7, 0x7b, 0xa4, 0x76, 0xc4, 0x17, 0x49, 0xec, 0x7f, 0x0c, 0x6f, 0xf6,
  0x6c, 0xa1, 0x3b, 0x52, 0x29, 0x9d, 0x55, 0xaa, 0xfb, 0x60, 0x86, 0xb1, 0xbb, 0xcc, 0x3e, 0x5a,
  0xcb, 0x59, 0x5f, 0xb0, 0x9c, 0xa9, 0xa0, 0x51, 0x0b, 0xf5, 0x16, 0xeb, 0x7a, 0x75, 0x2c, 0xd7,
  0x4f, 0xae, 0xd5, 0xe9, 0xe6, 0xe7, 0xad, 0xe8, 0x74, 0xd6, 0xf4, 0xea, 0xa8, 0x50, 0x58, 0xaf]

def vdevRaidzPow2 (i : Nat) : BitVec 8 := BitVec.ofNat 8 (vdevRaidzPow2Table.getD i 0)

def vdevRaidzLog2 (a : BitVec 8) : Nat := vdevRaidzLog2Table.getD a.toNat 0

/- Multiply a byte by 2 raised to the given power. -/
def vdevRaidzExp2 (a : BitVec 8) (exp : Nat) : BitVec 8 :=
  if a = 0 then 0
  else
    let exp := exp + vdevRaidzLog2 a
    vdevRaidzPow2 (if exp > 255 then exp - 255 else exp)

/- The facts about the tables that the algebra rests on, checked on the tables themselves:
the powers are the iterates of doubling, and the two tables invert each other. -/
theorem pow2_table_iterate :
    vdevRaidzPow2Table.map (BitVec.ofNat 8) = List.iterate vdevRaidzMul2 1 256 := by
  decide +kernel

theorem log2_table_lt : vdevRaidzLog2Table.all (fun k => Nat.blt k 255) = true := by
  decide +kernel

theorem pow2_log2_table : (List.range 256).all (fun a =>
    a = 0 ∨ vdevRaidzPow2Table.getD (vdevRaidzLog2Table.getD a 0) 0 = a) = true := by
  decide +kernel

theorem log2_pow2_table : (List.range 255).all (fun k =>
    vdevRaidzLog2Table.getD (vdevRaidzPow2Table.getD k 0) 0 = k) = true := by
  decide +kernel

theorem pow2_table_length : vdevRaidzPow2Table.length = 256 := by decide +kernel

theorem log2_table_length : vdevRaidzLog2Table.length = 256 := by decide +kernel

theorem pow2_table_lt : vdevRaidzPow2Table.all (fun a => Nat.blt a 256) = true := by
  decide +kernel

theorem pow2_eq_iterate (k : Nat) (hk : k ≤ 255) : vdevRaidzPow2 k = vdevRaidzMul2^[k] 1 := by
  have h := congrArg (fun l => l[k]?) pow2_table_iterate
  have hl : k < vdevRaidzPow2Table.length := by
    rw [pow2_table_length]
    omega
  have hi : k < (List.iterate vdevRaidzMul2 1 256).length := by
    rw [List.length_iterate]
    omega
  simp only [List.getElem?_map, List.getElem?_eq_getElem hl, List.getElem?_eq_getElem hi,
    List.getElem_iterate, Option.map_some, Option.some.injEq] at h
  rw [← h, vdevRaidzPow2, List.getD_eq_getElem _ _ hl]

theorem pow2_log2 (a : BitVec 8) (ha : a ≠ 0) : vdevRaidzPow2 (vdevRaidzLog2 a) = a := by
  have h := List.all_eq_true.mp pow2_log2_table a.toNat (List.mem_range.mpr a.isLt)
  have hz : a.toNat ≠ 0 := fun h0 => ha (BitVec.eq_of_toNat_eq h0)
  simp only [hz, false_or, decide_eq_true_eq] at h
  rw [vdevRaidzPow2, vdevRaidzLog2, h, BitVec.ofNat_toNat, BitVec.setWidth_eq]

theorem log2_lt (a : BitVec 8) : vdevRaidzLog2 a < 255 := by
  have hl : a.toNat < vdevRaidzLog2Table.length := log2_table_length ▸ a.isLt
  have h := List.all_eq_true.mp log2_table_lt _ (List.getElem_mem hl)
  rw [vdevRaidzLog2, List.getD_eq_getElem _ _ hl]
  exact Nat.le_of_ble_eq_true h

theorem log2_pow2 (k : Nat) (hk : k < 255) : vdevRaidzLog2 (vdevRaidzPow2 k) = k := by
  have hl : k < vdevRaidzPow2Table.length := by
    rw [pow2_table_length]
    omega
  have h := List.all_eq_true.mp log2_pow2_table k (List.mem_range.mpr hk)
  have hb := List.all_eq_true.mp pow2_table_lt _ (List.getElem_mem hl)
  have hm : vdevRaidzPow2Table.getD k 0 < 256 := by
    rw [List.getD_eq_getElem _ _ hl]
    exact Nat.le_of_ble_eq_true hb
  rw [vdevRaidzLog2, vdevRaidzPow2, BitVec.toNat_ofNat, Nat.mod_eq_of_lt hm]
  exact of_decide_eq_true h

theorem mul2_getLsbD (x : BitVec 8) (b : Nat) (hb : b < 8) :
    (vdevRaidzMul2 x).getLsbD b =
      ((decide (0 < b) && x.getLsbD (b - 1)) ^^ (x.getLsbD 7 && (0x1d#8).getLsbD b)) := by
  have h : ∀ (x : BitVec 8) (b : Fin 8), (vdevRaidzMul2 x).getLsbD b =
      ((decide (0 < b.val) && x.getLsbD (b - 1)) ^^ (x.getLsbD 7 && (0x1d#8).getLsbD b)) := by
    decide +kernel
  exact h x ⟨b, hb⟩

theorem mul2_xor (x y : BitVec 8) :
    vdevRaidzMul2 (x ^^^ y) = vdevRaidzMul2 x ^^^ vdevRaidzMul2 y := by
  apply BitVec.eq_of_getLsbD_eq
  intro b hb
  simp only [BitVec.getLsbD_xor, mul2_getLsbD _ b hb]
  cases decide (0 < b) <;> cases x.getLsbD 7 <;> cases y.getLsbD 7 <;>
    cases x.getLsbD (b - 1) <;> cases y.getLsbD (b - 1) <;> cases (0x1d#8).getLsbD b <;> rfl

theorem mul2_zero : vdevRaidzMul2 0 = 0 := by decide

/-- The bytes as field elements: addition is XOR, multiplication goes through the tables. -/
@[ext] structure Gf where
  byte : BitVec 8
deriving DecidableEq

namespace Gf

variable (k : Nat) (b : BitVec 8) (a : Gf)

instance : Zero Gf := ⟨⟨0⟩⟩
instance : Add Gf := ⟨fun a b => ⟨a.byte ^^^ b.byte⟩⟩
instance : Neg Gf := ⟨fun a => a⟩
instance : Sub Gf := ⟨fun a b => ⟨a.byte ^^^ b.byte⟩⟩

instance : AddCommGroup Gf where
  add_assoc a b c := congrArg mk (BitVec.xor_assoc a.byte b.byte c.byte)
  add_comm a b := congrArg mk (BitVec.xor_comm a.byte b.byte)
  zero_add a := congrArg mk (BitVec.zero_xor)
  add_zero a := congrArg mk (BitVec.xor_zero)
  neg_add_cancel a := congrArg mk (BitVec.xor_self)
  nsmul := nsmulRec
  zsmul := zsmulRec

theorem mk_zero : mk 0 = 0 := rfl

theorem mk_xor (a b : BitVec 8) : mk (a ^^^ b) = mk a + mk b := rfl

def double : Gf →+ Gf where
  toFun a := ⟨vdevRaidzMul2 a.byte⟩
  map_zero' := congrArg mk mul2_zero
  map_add' a b := congrArg mk (mul2_xor a.byte b.byte)

theorem double_iterate (hk : k ≤ 255) : double^[k] ⟨1⟩ = ⟨vdevRaidzPow2 k⟩ := by
  have h : ∀ n, double^[n] ⟨1⟩ = ⟨vdevRaidzMul2^[n] 1⟩ := by
    intro n
    induction n with
    | zero => rfl
    | succ n ih =>
      rw [Function.iterate_succ_apply', ih, Function.iterate_succ_apply']
      rfl
  rw [h, pow2_eq_iterate k hk]

theorem double_log (ha : a ≠ 0) : double^[vdevRaidzLog2 a.byte] ⟨1⟩ = a := by
  have hb : a.byte ≠ 0 := fun h => ha (Gf.ext h)
  rw [double_iterate _ (Nat.le_of_lt (log2_lt a.byte)), pow2_log2 a.byte hb]

theorem double_order : double^[255] a = a := by
  by_cases ha : a = 0
  · rw [ha, iterate_map_zero]
  · -- every nonzero byte is a power of 2, and 2^255 = 1 by the last entry of the table
    have hone : double^[255] (⟨1⟩ : Gf) = ⟨1⟩ := by
      rw [double_iterate 255 (Nat.le_refl _)]
      exact congrArg mk (by decide)
    rw [← double_log a ha, ← Function.iterate_add_apply, Nat.add_comm,
      Function.iterate_add_apply, hone]

def generator : Generator Gf where
  one := ⟨1⟩
  step := double
  log a := vdevRaidzLog2 a.byte
  order := 255
  order_pos := by decide
  one_ne_zero := by decide
  step_log := double_log
  step_order := double_order
  log_step k hk := by rw [double_iterate k (Nat.le_of_lt hk), log2_pow2 k hk]

instance : Field Gf := generator.field

/-- The generator, the byte 2; the numeral `2` of the field is zero. -/
def gen : Gf := ⟨2⟩

theorem mk_one : mk 1 = 1 := rfl

theorem add_self : a + a = 0 := congrArg mk BitVec.xor_self

theorem sub_eq_add (b : Gf) : a - b = a + b := rfl

theorem add_eq_zero {a b : Gf} : a + b = 0 ↔ a = b := by
  rw [← sub_eq_add, sub_eq_zero]

theorem mk_eq_zero {b : BitVec 8} : mk b = 0 ↔ b = 0 :=
  ⟨fun h => congrArg byte h, fun h => congrArg mk h⟩

theorem mk_mul2 : mk (vdevRaidzMul2 b) = gen * mk b := by
  have h := generator.step_eq_mul (mk b)
  rw [show generator.step generator.one = gen from congrArg mk (by decide)] at h
  exact h

theorem gen_pow : gen ^ k = double^[k] 1 := by
  induction k with
  | zero => rfl
  | succ k ih =>
    rw [pow_succ', ih, Function.iterate_succ_apply']
    exact (mk_mul2 _).symm

theorem mk_pow2 (hk : k ≤ 255) : mk (vdevRaidzPow2 k) = gen ^ k := by
  rw [gen_pow]
  exact (double_iterate k hk).symm

theorem gen_ne_zero : gen ≠ 0 := by decide

theorem gen_pow_ne_zero : gen ^ k ≠ 0 := pow_ne_zero k gen_ne_zero

theorem gen_pow_order : gen ^ 255 = 1 := by
  rw [gen_pow]
  exact double_order 1

theorem gen_pow_injective {i j : Nat} (hi : i < 255) (hj : j < 255) (h : gen ^ i = gen ^ j) :
    i = j := by
  rw [gen_pow, gen_pow] at h
  exact generator.step_one_injective hi hj h

theorem mk_eq_gen_pow (hb : b ≠ 0) : mk b = gen ^ vdevRaidzLog2 b := by
  rw [← mk_pow2 _ (Nat.le_of_lt (log2_lt b)), pow2_log2 b hb]

/-- An exponent up to 510 may be lowered once by 255, as every table access does. -/
theorem gen_pow_reduce (hk : 255 ≤ k) : gen ^ (k - 255) = gen ^ k := by
  conv_rhs => rw [← Nat.sub_add_cancel hk, pow_add, gen_pow_order, mul_one]

theorem gen_pow_complement (hk : k ≤ 255) : gen ^ (255 - k) = (gen ^ k)⁻¹ := by
  apply eq_inv_of_mul_eq_one_left
  rw [← pow_add, Nat.sub_add_cancel hk, gen_pow_order]

theorem mk_exp2 (exp : Nat) (bound : exp ≤ 255) :
    mk (vdevRaidzExp2 b exp) = gen ^ exp * mk b := by
  have hlog := log2_lt b
  unfold vdevRaidzExp2
  split
  · rename_i hb
    rw [hb, mk_zero, mul_zero]
  · rename_i hb
    rw [mk_eq_gen_pow b hb, ← pow_add]
    simp only
    split
    · rw [mk_pow2 _ (by omega), gen_pow_reduce _ (by omega)]
    · rw [mk_pow2 _ (by omega)]

end Gf

end ClusterZfs

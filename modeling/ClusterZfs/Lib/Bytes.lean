import Mathlib.Data.List.Basic
import Mathlib.Data.Nat.Basic
import Mathlib.Tactic.Ring

/-! Numbers as strings of bytes, low byte first and high byte first, and padding to a boundary. -/
namespace ClusterZfs

abbrev Bytes := List UInt8

/- The lowest `w` bytes of a number, the low one first. -/
def leBytes : Nat → Nat → Bytes
  | 0, _ => []
  | w + 1, v => UInt8.ofNat v :: leBytes w (v / 256)

def ofLe : Bytes → Nat
  | [] => 0
  | b :: bs => b.toNat + 256 * ofLe bs

def ofBe (bs : Bytes) : Nat := ofLe bs.reverse

@[simp] theorem leBytes_length (w v : Nat) : (leBytes w v).length = w := by
  induction w generalizing v with
  | zero => rfl
  | succ w ih => rw [leBytes, List.length_cons, ih]

theorem ofLe_leBytes_mod (w v : Nat) : ofLe (leBytes w v) = v % 256 ^ w := by
  induction w generalizing v with
  | zero => rw [leBytes, ofLe, pow_zero, Nat.mod_one]
  | succ w ih =>
    have hlow : (UInt8.ofNat v).toNat = v % 256 := UInt8.toNat_ofNat'
    rw [leBytes, ofLe, ih, hlow, Nat.pow_succ', Nat.mod_mul]

theorem ofLe_leBytes {w v : Nat} (h : v < 256 ^ w) : ofLe (leBytes w v) = v := by
  rw [ofLe_leBytes_mod, Nat.mod_eq_of_lt h]

theorem ofLe_lt (bs : Bytes) : ofLe bs < 256 ^ bs.length := by
  induction bs with
  | nil => exact Nat.one_pos
  | cons b bs ih =>
    have hb : b.toNat < 256 := b.toNat_lt
    rw [ofLe, List.length_cons, Nat.pow_succ']
    omega

/- The next multiple of eight, as `(n + 7) & ~7` computes it. -/
def align8 (n : Nat) : Nat := (n + 7) / 8 * 8

theorem le_align8 (n : Nat) : n ≤ align8 n := by
  unfold align8
  omega

theorem drop_append_of_length {as bs : Bytes} {n : Nat} (h : as.length = n) :
    (as ++ bs).drop n = bs := by
  rw [← h, List.drop_left]

theorem take_append_of_length {as bs : Bytes} {n : Nat} (h : as.length = n) :
    (as ++ bs).take n = as := by
  rw [← h, List.take_left]

end ClusterZfs

import Mathlib.Algebra.Field.Basic
import Mathlib.Algebra.Group.Hom.Basic
import Mathlib.Algebra.Ring.Hom.Defs
import Mathlib.Algebra.Order.Ring.Nat
import Mathlib.Logic.Function.Iterate
import Mathlib.Tactic.Common

/-! A finite field from a table of logarithms. An additive group with an additive
operator `step`, whose iterates on `one` reach every nonzero element and come back after
`order` steps, carries a field structure in which `step` is multiplication by a generator.
This is how a byte-oriented implementation computes: products go through `log`. -/
namespace ClusterZfs

structure Generator (A : Type*) [AddCommGroup A] where
  one : A
  step : A →+ A
  log : A → Nat
  order : Nat
  order_pos : 0 < order
  one_ne_zero : one ≠ 0
  step_log : ∀ a, a ≠ 0 → step^[log a] one = a
  step_order : ∀ a, step^[order] a = a
  log_step : ∀ k, k < order → log (step^[k] one) = k

namespace Generator

variable {A : Type*} [AddCommGroup A] (G : Generator A) (n : Nat)

theorem step_zero : G.step^[n] (0 : A) = 0 := by
  induction n with
  | zero => rfl
  | succ n ih => rw [Function.iterate_succ_apply', ih, map_zero]

theorem step_comm (m n : Nat) (a : A) :
    G.step^[m] (G.step^[n] a) = G.step^[n] (G.step^[m] a) := by
  rw [← Function.iterate_add_apply, ← Function.iterate_add_apply, Nat.add_comm]

theorem step_multiple (m : Nat) (a : A) : G.step^[G.order * m] a = a := by
  induction m with
  | zero => rfl
  | succ m ih => rw [Nat.mul_succ, Function.iterate_add_apply, G.step_order, ih]

theorem step_one_injective {i j : Nat} (hi : i < G.order) (hj : j < G.order)
    (h : G.step^[i] G.one = G.step^[j] G.one) : i = j := by
  rw [← G.log_step i hi, ← G.log_step j hj, h]

variable [DecidableEq A]

def mul (a b : A) : A := if b = 0 then 0 else G.step^[G.log b] a

def inv (a : A) : A := if a = 0 then 0 else G.step^[G.order - G.log a % G.order] G.one

theorem mul_zero (a : A) : G.mul a 0 = 0 := by simp [mul]

theorem zero_mul (a : A) : G.mul 0 a = 0 := by
  unfold mul
  split
  · rfl
  · exact G.step_zero _

theorem mul_of_ne {b : A} (a : A) (hb : b ≠ 0) : G.mul a b = G.step^[G.log b] a := by
  simp [mul, hb]

theorem one_mul (a : A) : G.mul G.one a = a := by
  by_cases ha : a = 0
  · rw [ha, G.mul_zero]
  · rw [G.mul_of_ne _ ha, G.step_log a ha]

theorem mul_comm (a b : A) : G.mul a b = G.mul b a := by
  by_cases ha : a = 0
  · rw [ha, G.mul_zero, G.zero_mul]
  by_cases hb : b = 0
  · rw [hb, G.mul_zero, G.zero_mul]
  calc G.mul a b
    _ = G.step^[G.log b] (G.step^[G.log a] G.one) := by rw [G.mul_of_ne a hb, G.step_log a ha]
    _ = G.step^[G.log a] (G.step^[G.log b] G.one) := G.step_comm _ _ _
    _ = G.mul b a := by rw [G.step_log b hb, G.mul_of_ne b ha]

theorem mul_one (a : A) : G.mul a G.one = a := by rw [G.mul_comm, G.one_mul]

theorem add_mul (a b c : A) : G.mul (a + b) c = G.mul a c + G.mul b c := by
  by_cases hc : c = 0
  · simp [hc, G.mul_zero]
  · simp [G.mul_of_ne _ hc]

theorem mul_add (a b c : A) : G.mul a (b + c) = G.mul a b + G.mul a c := by
  rw [G.mul_comm a, G.add_mul, G.mul_comm b, G.mul_comm c]

theorem mul_assoc (a b c : A) : G.mul (G.mul a b) c = G.mul a (G.mul b c) := by
  by_cases ha : a = 0
  · simp [ha, G.zero_mul]
  by_cases hc : c = 0
  · simp [hc, G.mul_zero]
  rw [G.mul_comm a b, G.mul_comm a (G.mul b c)]
  simp only [G.mul_of_ne _ ha, G.mul_of_ne _ hc]
  exact G.step_comm _ _ _

theorem mul_inv_cancel (a : A) (ha : a ≠ 0) : G.mul a (G.inv a) = G.one := by
  have hlt := Nat.mod_lt (G.log a) G.order_pos
  have hsum : G.log a + (G.order - G.log a % G.order) =
      G.order * (G.log a / G.order + 1) := by
    have hdiv := Nat.div_add_mod (G.log a) G.order
    rw [Nat.mul_add, Nat.mul_one]
    omega
  rw [G.mul_comm, G.mul_of_ne _ ha, inv, if_neg ha, ← Function.iterate_add_apply, hsum]
  exact G.step_multiple _ _

/-- The field whose multiplication goes through the logarithm. -/
@[reducible] def field : Field A where
  mul := G.mul
  one := G.one
  mul_assoc := G.mul_assoc
  one_mul := G.one_mul
  mul_one := G.mul_one
  left_distrib := G.mul_add
  right_distrib := G.add_mul
  zero_mul := G.zero_mul
  mul_zero := G.mul_zero
  mul_comm := G.mul_comm
  inv := G.inv
  exists_pair_ne := ⟨0, G.one, G.one_ne_zero.symm⟩
  mul_inv_cancel := G.mul_inv_cancel
  inv_zero := by simp [inv]
  nnqsmul := _
  nnqsmul_def := fun _ _ => rfl
  qsmul := _
  qsmul_def := fun _ _ => rfl

theorem step_eq_mul (a : A) : G.step a = G.mul (G.step G.one) a := by
  by_cases ha : a = 0
  · rw [ha, G.mul_zero, map_zero]
  · rw [G.mul_of_ne _ ha, ← Function.iterate_succ_apply, Function.iterate_succ_apply',
      G.step_log a ha]

end Generator
end ClusterZfs

import ClusterZfs.Lib.Bytes

/-! Memory of which only a part may be read. A function of the C library that reads a byte outside
that part has no result. -/
namespace ClusterZfs

abbrev Mem := Nat → Option UInt8

namespace Mem

def span (m : Mem) (off : Nat) : Nat → Option Bytes
  | 0 => some []
  | n + 1 => (m off).bind fun b => (span m (off + 1) n).map fun bs => b :: bs

def be16 (m : Mem) (off : Nat) : Option Nat := (m.span off 2).map ofBe

/- `strnlen`: the bytes in front of the first NUL, `n` if there is none among the first `n`. -/
def strnlen (m : Mem) (off : Nat) : Nat → Option Nat
  | 0 => some 0
  | n + 1 => (m off).bind fun b =>
    if b = 0 then some 0 else (strnlen m (off + 1) n).map fun k => k + 1

/- Whether `memcmp` gives 0; it may read all `n` bytes of both sides. -/
def memcmpZero (m : Mem) (off : Nat) (m' : Mem) (off' n : Nat) : Option Bool :=
  (m.span off n).bind fun bs => (m'.span off' n).map fun bs' => bs = bs'

end Mem

/- The memory that has the bytes of a string, from address 0 on, and no others. -/
def memOf (l : Bytes) : Mem := fun i => l[i]?

/- The memory that goes on behind the string. -/
def memZeros (l : Bytes) : Mem := fun i => some (l.getD i 0)

section Strings

variable {l : Bytes} {off n : Nat}

theorem memOf_eq_some {i : Nat} {b : UInt8} : memOf l i = some b → i < l.length :=
  fun h => (List.getElem?_eq_some_iff.mp h).1

theorem span_length {m : Mem} {bs : Bytes} (h : m.span off n = some bs) : bs.length = n := by
  induction n generalizing off bs with
  | zero =>
    cases h
    rfl
  | succ n ih =>
    obtain ⟨b, _, h⟩ := Option.bind_eq_some_iff.mp h
    obtain ⟨bs', hbs', rfl⟩ := Option.map_eq_some_iff.mp h
    rw [List.length_cons, ih hbs']

/-- What can be read of a string is what lies inside it. -/
theorem span_memOf_isSome : ((memOf l).span off n).isSome ↔ n = 0 ∨ off + n ≤ l.length := by
  induction n generalizing off with
  | zero => simp [Mem.span]
  | succ n ih =>
    rw [Mem.span]
    cases hb : memOf l off with
    | none =>
      have hout : l.length ≤ off := List.getElem?_eq_none_iff.mp hb
      simp only [Option.bind_none, Option.isSome_none, Bool.false_eq_true, false_iff]
      omega
    | some b =>
      have hin := memOf_eq_some hb
      rw [Option.bind_some, Option.isSome_map, ih]
      omega

theorem span_memOf (h : off + n ≤ l.length) :
    (memOf l).span off n = some ((l.drop off).take n) := by
  induction n generalizing off with
  | zero => rfl
  | succ n ih =>
    have hoff : off < l.length := by omega
    have hb : memOf l off = some l[off] := List.getElem?_eq_getElem hoff
    rw [Mem.span, hb, Option.bind_some, ih (by omega), Option.map_some,
      List.drop_eq_getElem_cons hoff, List.take_succ_cons]

theorem span_memZeros_isSome : ((memZeros l).span off n).isSome := by
  induction n generalizing off with
  | zero => rfl
  | succ n ih =>
    rw [Mem.span, memZeros, Option.bind_some, Option.isSome_map]
    exact ih

theorem be16_memOf_isSome : ((memOf l).be16 off).isSome ↔ off + 2 ≤ l.length := by
  rw [Mem.be16, Option.isSome_map, span_memOf_isSome]
  omega

theorem be16_lt {m : Mem} {v : Nat} (h : m.be16 off = some v) : v < 2 ^ 16 := by
  obtain ⟨bs, hbs, rfl⟩ := Option.map_eq_some_iff.mp h
  have hlt := ofLe_lt bs.reverse
  rw [List.length_reverse, span_length hbs] at hlt
  exact hlt

/- A string of `k` bytes ends at this place with a NUL. -/
def Terminated (l : Bytes) (off k : Nat) : Prop :=
  l[off + k]? = some 0 ∧ ∀ i < k, ∃ b, l[off + i]? = some b ∧ b ≠ 0

/- No NUL among `n` bytes that are all there. -/
def Unterminated (l : Bytes) (off n : Nat) : Prop :=
  ∀ i < n, ∃ b, l[off + i]? = some b ∧ b ≠ 0

theorem unterminated_succ : Unterminated l off (n + 1) ↔
    (∃ b, l[off]? = some b ∧ b ≠ 0) ∧ Unterminated l (off + 1) n := by
  constructor
  · intro h
    refine ⟨h 0 (Nat.succ_pos n), ?_⟩
    intro i hi
    have hb := h (i + 1) (Nat.succ_lt_succ hi)
    rwa [show off + (i + 1) = off + 1 + i by omega] at hb
  · intro h i hi
    cases i with
    | zero => exact h.1
    | succ i =>
      rw [show off + (i + 1) = off + 1 + i by omega]
      exact h.2 i (Nat.lt_of_succ_lt_succ hi)

theorem terminated_succ {k : Nat} : Terminated l off (k + 1) ↔
    (∃ b, l[off]? = some b ∧ b ≠ 0) ∧ Terminated l (off + 1) k := by
  have hbytes : Unterminated l off (k + 1) ↔
      (∃ b, l[off]? = some b ∧ b ≠ 0) ∧ Unterminated l (off + 1) k := unterminated_succ
  have hend : off + (k + 1) = off + 1 + k := by omega
  constructor
  · intro h
    obtain ⟨hfirst, hrest⟩ := hbytes.mp h.2
    refine ⟨hfirst, ?_, hrest⟩
    rw [← hend]
    exact h.1
  · intro h
    refine ⟨?_, hbytes.mpr ⟨h.1, h.2.2⟩⟩
    rw [hend]
    exact h.2.1

/-- The two ways in which `strnlen` stays inside the string. -/
theorem strnlen_memOf {k : Nat} : (memOf l).strnlen off n = some k ↔
    (k < n ∧ Terminated l off k) ∨ (k = n ∧ Unterminated l off n) := by
  induction n generalizing off k with
  | zero =>
    rw [Mem.strnlen, Option.some.injEq]
    constructor
    · intro h
      exact .inr ⟨h.symm, fun i hi => absurd hi (Nat.not_lt_zero i)⟩
    · intro h
      cases h with
      | inl h => exact absurd h.1 (Nat.not_lt_zero k)
      | inr h => exact h.1.symm
  | succ n ih =>
    rw [Mem.strnlen]
    cases hb : memOf l off with
    | none =>
      have hnone : ¬ ∃ b, l[off]? = some b ∧ b ≠ 0 := by
        intro h
        obtain ⟨b, hb', _⟩ := h
        exact absurd (hb.symm.trans hb') (by simp)
      rw [Option.bind_none]
      constructor
      · intro h
        cases h
      · intro h
        cases h with
        | inl h =>
          cases k with
          | zero => exact absurd (hb.symm.trans h.2.1) (by simp)
          | succ k => exact absurd (terminated_succ.mp h.2).1 hnone
        | inr h => exact absurd (unterminated_succ.mp h.2).1 hnone
    | some b =>
      rw [Option.bind_some]
      by_cases hzero : b = 0
      · subst hzero
        have hnone : ¬ ∃ b, l[off]? = some b ∧ b ≠ 0 := by
          intro h
          obtain ⟨b, hb', hne⟩ := h
          exact hne (Option.some.inj (hb'.symm.trans hb))
        rw [if_pos rfl, Option.some.injEq]
        constructor
        · intro h
          subst h
          exact .inl ⟨Nat.succ_pos n, hb, fun i hi => absurd hi (Nat.not_lt_zero i)⟩
        · intro h
          cases h with
          | inl h =>
            cases k with
            | zero => rfl
            | succ k => exact absurd (terminated_succ.mp h.2).1 hnone
          | inr h => exact absurd (unterminated_succ.mp h.2).1 hnone
      · have hfirst : ∃ b, l[off]? = some b ∧ b ≠ 0 := ⟨b, hb, hzero⟩
        rw [if_neg hzero]
        cases k with
        | zero =>
          constructor
          · intro h
            obtain ⟨k, _, hk⟩ := Option.map_eq_some_iff.mp h
            cases hk
          · intro h
            cases h with
            | inl h => exact absurd (Option.some.inj (hb.symm.trans h.2.1)) hzero
            | inr h => exact absurd h.1 (Nat.succ_ne_zero n).symm
        | succ k =>
          rw [terminated_succ, unterminated_succ, Option.map_eq_some_iff]
          simp only [Nat.add_right_cancel_iff, exists_eq_right, ih, Nat.add_lt_add_iff_right,
            hfirst, true_and]

end Strings

end ClusterZfs

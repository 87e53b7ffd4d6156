import Mathlib.Data.Nat.Log
import Mathlib.Algebra.BigOperators.Group.List.Basic
import Mathlib.Data.Finset.Basic
import Mathlib.Algebra.GroupWithZero.Nat

/-! Segments of a 64-bit space, in order and with gaps between them. -/
namespace ClusterZfs

structure RangeSeg where
  rsStart : Nat
  rsEnd : Nat
  deriving DecidableEq, Repr

def highbit64 (n : Nat) : Nat := if n = 0 then 0 else Nat.log2 n + 1

namespace RangeSeg

def size (s : RangeSeg) : Nat := s.rsEnd - s.rsStart

def Mem (x : Nat) (s : RangeSeg) : Prop := s.rsStart ≤ x ∧ x < s.rsEnd

instance (x : Nat) (s : RangeSeg) : Decidable (s.Mem x) := inferInstanceAs (Decidable (_ ∧ _))

end RangeSeg

def Covers (l : List RangeSeg) (x : Nat) : Prop := ∃ s ∈ l, s.Mem x

/- Not empty, inside the space, increasing, and never adjacent. -/
structure Gapped (l : List RangeSeg) : Prop where
  bounds : ∀ s ∈ l, s.rsStart < s.rsEnd ∧ s.rsEnd < 2 ^ 64
  gaps : l.Pairwise fun a b => a.rsEnd < b.rsStart

theorem Gapped.tail {s : RangeSeg} {l : List RangeSeg} (h : Gapped (s :: l)) : Gapped l :=
  ⟨fun t ht => h.bounds t (List.mem_cons_of_mem s ht), (List.pairwise_cons.mp h.gaps).2⟩

def spaceOf (l : List RangeSeg) : Nat := (l.map RangeSeg.size).sum

/- How many segments have their highest set bit at `i`. -/
def bucketOf (l : List RangeSeg) (i : Nat) : Nat :=
  l.countP fun s => decide (Nat.log2 s.size = i)

section Segments

variable {l B M M' A : List RangeSeg} {x : Nat} {s : RangeSeg} {i : Nat}

@[simp] theorem Covers_append : Covers (B ++ A) x ↔ Covers B x ∨ Covers A x := by
  simp only [Covers, List.mem_append]
  constructor
  · rintro ⟨s, hs | hs, hx⟩
    · exact .inl ⟨s, hs, hx⟩
    · exact .inr ⟨s, hs, hx⟩
  · rintro (⟨s, hs, hx⟩ | ⟨s, hs, hx⟩)
    · exact ⟨s, .inl hs, hx⟩
    · exact ⟨s, .inr hs, hx⟩

@[simp] theorem Covers_cons : Covers (s :: l) x ↔ s.Mem x ∨ Covers l x := by
  simp [Covers]

@[simp] theorem Covers_nil : ¬ Covers [] x := by simp [Covers]

@[simp] theorem spaceOf_append : spaceOf (B ++ A) = spaceOf B + spaceOf A := by simp [spaceOf]
@[simp] theorem spaceOf_cons : spaceOf (s :: l) = s.size + spaceOf l := by
  simp [spaceOf]
@[simp] theorem spaceOf_nil : spaceOf [] = 0 := rfl

@[simp] theorem bucketOf_append : bucketOf (B ++ A) i = bucketOf B i + bucketOf A i := by
  simp [bucketOf]
@[simp] theorem bucketOf_cons :
    bucketOf (s :: l) i = (if Nat.log2 s.size = i then 1 else 0) + bucketOf l i := by
  simp only [bucketOf, List.countP_cons, decide_eq_true_eq]
  omega
@[simp] theorem bucketOf_nil : bucketOf [] i = 0 := rfl

theorem Gapped.splice (h : Gapped (B ++ M ++ A)) (hM : Gapped M')
    (hB : ∀ b ∈ B, ∀ s ∈ M', b.rsEnd < s.rsStart) (hA : ∀ s ∈ M', ∀ a ∈ A, s.rsEnd < a.rsStart) :
    Gapped (B ++ M' ++ A) := by
  obtain ⟨hfront, hback, hcross⟩ := List.pairwise_append.mp h.gaps
  obtain ⟨hfront, -, -⟩ := List.pairwise_append.mp hfront
  refine ⟨fun s hs => ?_, ?_⟩
  · rcases List.mem_append.mp hs with hs | hs
    · rcases List.mem_append.mp hs with hs | hs
      · exact h.bounds s (by simp [hs])
      · exact hM.bounds s hs
    · exact h.bounds s (by simp [hs])
  · refine List.pairwise_append.mpr ⟨List.pairwise_append.mpr ⟨hfront, hM.gaps, hB⟩, hback, ?_⟩
    intro s hs a ha
    rcases List.mem_append.mp hs with hs | hs
    · exact hcross s (List.mem_append_left _ hs) a ha
    · exact hA s hs a ha

theorem spaceOf_add_lt (h : Gapped l) {lo : Nat} (hlo : lo < 2 ^ 64)
    (hstart : ∀ s ∈ l, lo ≤ s.rsStart) : spaceOf l + lo < 2 ^ 64 := by
  induction l generalizing lo with
  | nil => simpa using hlo
  | cons s l ih =>
    obtain ⟨hfirst, hgaps⟩ := List.pairwise_cons.mp h.gaps
    obtain ⟨hne, hend⟩ := h.bounds s List.mem_cons_self
    have hsum := ih h.tail hend fun t ht => (hfirst t ht).le
    have hs := hstart s List.mem_cons_self
    rw [spaceOf_cons, RangeSeg.size]
    omega

theorem spaceOf_lt (h : Gapped l) : spaceOf l < 2 ^ 64 :=
  spaceOf_add_lt h (Nat.two_pow_pos 64) fun _ _ => Nat.zero_le _

theorem Gapped.unique (h : Gapped (B ++ M' ++ A)) {t : RangeSeg} (hM : M' = [s])
    (ht : t ∈ B ++ M' ++ A) (htouch : t.rsStart ≤ s.rsEnd ∧ s.rsStart ≤ t.rsEnd) : t = s := by
  subst hM
  obtain ⟨hfront, -, hcross⟩ := List.pairwise_append.mp h.gaps
  obtain ⟨-, -, hbefore⟩ := List.pairwise_append.mp hfront
  rcases List.mem_append.mp ht with ht | ht
  · rcases List.mem_append.mp ht with ht | ht
    · have hgap := hbefore t ht s List.mem_cons_self
      omega
    · exact List.mem_singleton.mp ht
  · have hgap := hcross s (by simp) t ht
    omega

/-- A range that is covered lies in the one segment it touches. -/
theorem Gapped.contains (h : Gapped (B ++ [s] ++ A)) {start stop : Nat}
    (hcov : ∀ y, start ≤ y → y < stop → Covers (B ++ [s] ++ A) y)
    (htouch : start < s.rsEnd ∧ s.rsStart < stop) : s.rsStart ≤ start ∧ stop ≤ s.rsEnd := by
  constructor
  · by_contra hlt
    obtain ⟨t, ht, hmem⟩ := hcov (s.rsStart - 1) (by omega) (by omega)
    have heq := h.unique rfl ht ⟨by have := hmem.1; have := (h.bounds s (by simp)).1; omega,
      by have := hmem.2; omega⟩
    subst heq
    have := hmem.1
    omega
  · by_contra hlt
    obtain ⟨t, ht, hmem⟩ := hcov s.rsEnd (by omega) (by omega)
    have heq := h.unique rfl ht ⟨hmem.1, by have := hmem.2; have := (h.bounds s (by simp)).1; omega⟩
    subst heq
    exact absurd hmem.2 (lt_irrefl _)

end Segments

end ClusterZfs

import ClusterZfs.Lib.PartialMemory

/-! A loop that reads one buffer and writes another, each at its own place. A store outside the
buffer has no result. -/
namespace ClusterZfs

structure Copier where
  src : Nat
  dst : Nat
  out : Bytes

namespace Copier

variable {b : UInt8}

/- `*dst++ = b` -/
def put (c : Copier) (b : UInt8) : Option Copier :=
  if c.dst < c.out.length then some { c with dst := c.dst + 1, out := c.out.set c.dst b } else none

/- `*at = b` for a place that has been passed. -/
def patch (c : Copier) (i : Nat) (b : UInt8) : Option Copier :=
  if i < c.out.length then some { c with out := c.out.set i b } else none

/- `*dst++ = *src++` -/
def copy (m : Mem) (c : Copier) : Option Copier :=
  (m c.src).bind fun b => (c.put b).map fun c => { c with src := c.src + 1 }

def copies (m : Mem) : Nat → Copier → Option Copier
  | 0, c => some c
  | k + 1, c => (c.copy m).bind (copies m k)

def fill (b : UInt8) : Nat → Copier → Option Copier
  | 0, c => some c
  | k + 1, c => (c.put b).bind (fill b k)

/- From `c` to `c'`, `m` bytes were read past and `bs` were written. -/
structure Wrote (c c' : Copier) (m : Nat) (bs : Bytes) : Prop where
  src : c'.src = c.src + m
  dst : c'.dst = c.dst + bs.length
  out : c'.out.take c'.dst = c.out.take c.dst ++ bs
  length : c'.out.length = c.out.length

variable {c c' c'' : Copier} {m m' : Nat} {bs bs' : Bytes}

theorem Wrote.refl (c : Copier) : Wrote c c 0 [] := ⟨rfl, rfl, (List.append_nil _).symm, rfl⟩

theorem Wrote.trans (h : Wrote c c' m bs) (h' : Wrote c' c'' m' bs') :
    Wrote c c'' (m + m') (bs ++ bs') where
  src := by rw [h'.src, h.src, Nat.add_assoc]
  dst := by rw [h'.dst, h.dst, List.length_append, Nat.add_assoc]
  out := by rw [h'.out, h.out, List.append_assoc]
  length := h'.length.trans h.length

theorem put_wrote (h : c.dst < c.out.length) :
    ∃ c', c.put b = some c' ∧ Wrote c c' 0 [b] := by
  refine ⟨_, if_pos h, rfl, rfl, ?_, List.length_set⟩
  rw [List.take_add_one, List.take_set_of_le (Nat.le_refl _), List.getElem?_set_self h]
  rfl

theorem copy_wrote {s : Bytes} (hb : s[c.src]? = some b) (h : c.dst < c.out.length) :
    ∃ c', c.copy (memOf s) = some c' ∧ Wrote c c' 1 [b] := by
  obtain ⟨c', hput, hwrote⟩ := put_wrote h
  refine ⟨{ c' with src := c'.src + 1 }, ?_, ?_, hwrote.dst, hwrote.out, hwrote.length⟩
  · have hread : memOf s c.src = some b := hb
    simp [copy, hread, hput]
  · simp [hwrote.src]

theorem copies_wrote {s : Bytes} {k : Nat} (hs : c.src + k ≤ s.length)
    (h : c.dst + k ≤ c.out.length) :
    ∃ c', copies (memOf s) k c = some c' ∧ Wrote c c' k ((s.drop c.src).take k) := by
  induction k generalizing c with
  | zero => exact ⟨c, rfl, .refl c⟩
  | succ k ih =>
    have hsrc : c.src < s.length := by omega
    obtain ⟨c₁, hcopy, hfirst⟩ :=
      copy_wrote (List.getElem?_eq_getElem hsrc) (by omega : c.dst < c.out.length)
    have hdst := hfirst.dst
    have hlength := hfirst.length
    rw [List.length_singleton] at hdst
    obtain ⟨c₂, hrest, hthen⟩ := ih (by rw [hfirst.src]; omega) (by omega)
    refine ⟨c₂, by simp [copies, hcopy, hrest], ?_⟩
    have hboth := hfirst.trans hthen
    rw [hfirst.src, List.singleton_append, ← List.take_succ_cons,
      ← List.drop_eq_getElem_cons hsrc, Nat.add_comm 1 k] at hboth
    exact hboth

theorem fill_wrote {k : Nat} (h : c.dst + k ≤ c.out.length) :
    ∃ c', fill b k c = some c' ∧ Wrote c c' 0 (List.replicate k b) := by
  induction k generalizing c with
  | zero => exact ⟨c, rfl, .refl c⟩
  | succ k ih =>
    obtain ⟨c₁, hput, hfirst⟩ := put_wrote (by omega : c.dst < c.out.length)
    have hdst := hfirst.dst
    have hlength := hfirst.length
    rw [List.length_singleton] at hdst
    obtain ⟨c₂, hrest, hthen⟩ := ih (c := c₁) (by omega)
    exact ⟨c₂, by simp [fill, hput, hrest], hfirst.trans hthen⟩

theorem patch_wrote {x : UInt8} (h : Wrote c c' m (x :: bs)) (hin : c'.dst ≤ c'.out.length) :
    ∃ c'', c'.patch c.dst b = some c'' ∧ Wrote c c'' m (b :: bs) := by
  have hdst := h.dst
  rw [List.length_cons] at hdst
  have hlt : c.dst < c'.out.length := by omega
  refine ⟨_, if_pos hlt, h.src, h.dst, ?_, List.length_set.trans h.length⟩
  have hbefore : (c.out.take c.dst).length = c.dst := by
    have hlength := h.length
    rw [List.length_take]
    omega
  rw [List.take_set, h.out, List.set_append_right _ _ hbefore.le, hbefore, Nat.sub_self,
    List.set_cons_zero]

end Copier

end ClusterZfs

import Mathlib.Data.List.TakeWhile
import Mathlib.Data.List.Basic

/-! Lists in the strict order of a key, split at the place of a key. -/
namespace ClusterZfs

section SortedKeys

variable {α : Type} {f : α → Nat} {l : List α} {k : Nat} {a : α}

theorem lt_of_mem_takeWhile_key (h : a ∈ l.takeWhile fun a => f a < k) : f a < k := by
  simpa using List.mem_takeWhile_imp h

theorem le_of_mem_dropWhile_key (hsorted : l.Pairwise fun a b => f a < f b)
    (h : a ∈ l.dropWhile fun a => f a < k) : k ≤ f a := by
  induction l with
  | nil => cases h
  | cons b l ih =>
    obtain ⟨hhead, htail⟩ := List.pairwise_cons.mp hsorted
    by_cases hb : f b < k
    · rw [List.dropWhile_cons_of_pos (by simpa using hb)] at h
      exact ih htail h
    · rw [List.dropWhile_cons_of_neg (by simpa using hb)] at h
      rcases List.mem_cons.mp h with rfl | h
      · exact Nat.le_of_not_lt hb
      · exact le_trans (Nat.le_of_not_lt hb) (hhead a h).le

theorem dropWhile_key_of_mem (hsorted : l.Pairwise fun a b => f a < f b) (h : a ∈ l) :
    ∃ rest, (l.dropWhile fun b => f b < f a) = a :: rest := by
  induction l with
  | nil => cases h
  | cons b l ih =>
    obtain ⟨hhead, htail⟩ := List.pairwise_cons.mp hsorted
    rcases List.mem_cons.mp h with rfl | h
    · exact ⟨l, List.dropWhile_cons_of_neg (by simp)⟩
    · rw [List.dropWhile_cons_of_pos (by simpa using hhead a h)]
      exact ih htail h

theorem eq_of_key_eq (hsorted : l.Pairwise fun a b => f a < f b) {b : α} (ha : a ∈ l)
    (hb : b ∈ l) (hkey : f a = f b) : a = b := by
  obtain ⟨rest, hrest⟩ := dropWhile_key_of_mem hsorted ha
  obtain ⟨rest', hrest'⟩ := dropWhile_key_of_mem hsorted hb
  rw [hkey, hrest'] at hrest
  exact (List.cons.inj hrest).1.symm

end SortedKeys

end ClusterZfs

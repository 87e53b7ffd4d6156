import Mathlib.Logic.Function.Iterate
import Mathlib.Data.Nat.Init
import Mathlib.Tactic.Common

/-! Counted loops. `forRange lo hi body s` runs `body lo`, `body (lo + 1)`, ...,
`body (hi - 1)` on a state, in this order; it is the identity when `hi ≤ lo`. -/
namespace ClusterZfs

def loopFrom {σ : Type*} (lo : Nat) (body : Nat → σ → σ) : Nat → σ → σ
  | 0, s => s
  | n + 1, s => body (lo + n) (loopFrom lo body n s)

def forRange {σ : Type*} (lo hi : Nat) (body : Nat → σ → σ) (s : σ) : σ :=
  loopFrom lo body (hi - lo) s

variable {σ τ α : Type*} {lo hi : Nat} {body : Nat → σ → σ} {s : σ}

theorem forRange_empty (body : Nat → σ → σ) (s : σ) (h : hi ≤ lo) :
    forRange lo hi body s = s := by
  have hz : hi - lo = 0 := by omega
  simp [forRange, hz, loopFrom]

theorem forRange_succ (body : Nat → σ → σ) (s : σ) (h : lo ≤ hi) :
    forRange lo (hi + 1) body s = body hi (forRange lo hi body s) := by
  have hs : hi + 1 - lo = (hi - lo) + 1 := by omega
  have hl : lo + (hi - lo) = hi := by omega
  simp [forRange, hs, loopFrom, hl]

/-- The rule for a loop invariant: it may mention the next index of the loop. -/
theorem forRange_invariant (P : Nat → σ → Prop)
    (h : lo ≤ hi) (start : P lo s)
    (step : ∀ i t, lo ≤ i → i < hi → P i t → P (i + 1) (body i t)) :
    P hi (forRange lo hi body s) := by
  induction hi, h using Nat.le_induction with
  | base => simpa [forRange_empty body s (Nat.le_refl lo)] using start
  | succ hi h ih =>
    rw [forRange_succ body s h]
    refine step hi _ h (Nat.lt_succ_self hi) (ih ?_)
    intro i t hlo hi' ht
    exact step i t hlo (Nat.lt_succ_of_lt hi') ht

theorem forRange_preserves (P : σ → Prop)
    (start : P s) (step : ∀ i t, lo ≤ i → i < hi → P t → P (body i t)) :
    P (forRange lo hi body s) := by
  rcases Nat.le_total lo hi with h | h
  · exact forRange_invariant (fun _ t => P t) h start step
  · rwa [forRange_empty body s h]

/-- Two loops over the same range, related by every pass, are related at the end. -/
theorem forRange_related {f : Nat → σ → σ} {g : Nat → τ → τ} {t : τ}
    (R : σ → τ → Prop) (start : R s t)
    (step : ∀ i a b, lo ≤ i → i < hi → R a b → R (f i a) (g i b)) :
    R (forRange lo hi f s) (forRange lo hi g t) := by
  rcases Nat.le_total lo hi with h | h
  · induction hi, h using Nat.le_induction with
    | base => simpa [forRange_empty _ _ (Nat.le_refl lo)] using start
    | succ hi h ih =>
      rw [forRange_succ f s h, forRange_succ g t h]
      refine step hi _ _ h (Nat.lt_succ_self hi) (ih ?_)
      intro i a b hlo hi' hab
      exact step i a b hlo (Nat.lt_succ_of_lt hi') hab
  · rwa [forRange_empty f s h, forRange_empty g t h]

theorem forRange_congr {f g : Nat → σ → σ} (s : σ)
    (h : ∀ i t, lo ≤ i → i < hi → f i t = g i t) :
    forRange lo hi f s = forRange lo hi g s := by
  refine forRange_related (fun a b => a = b) rfl ?_
  rintro i a _ hlo hhi rfl
  exact h i a hlo hhi

/-- A view of the state that every pass updates on its own can be run on its own. -/
theorem forRange_map (view : σ → τ)
    (f : Nat → τ → τ) (step : ∀ i t, view (body i t) = f i (view t)) :
    view (forRange lo hi body s) = forRange lo hi f (view s) := by
  refine forRange_related (fun a b => view a = b) rfl ?_
  rintro i a _ _ _ rfl
  exact step i a

/-- A loop that updates one cell of a table in each pass, from the old content of that cell,
changes exactly the cells of its range. -/
theorem forRange_cells (base : Nat) (f : Nat → α → α) (s : Nat → α)
    (k : Nat) :
    forRange lo hi (fun i t => Function.update t (base + i) (f (base + i) (t (base + i)))) s k =
      if base + lo ≤ k ∧ k < base + hi then f k (s k) else s k := by
  rcases Nat.le_total lo hi with h | h
  · induction hi, h using Nat.le_induction with
    | base =>
      have hr : ¬ (base + lo ≤ k ∧ k < base + lo) := by omega
      rw [forRange_empty _ _ (Nat.le_refl lo), if_neg hr]
    | succ hi h ih =>
      rw [forRange_succ _ s h]
      by_cases hk : k = base + hi
      · subst hk
        rw [Function.update_self, ih, if_neg (by omega), if_pos (by omega)]
      · rw [Function.update_of_ne hk, ih]
        by_cases hr : base + lo ≤ k ∧ k < base + hi
        · rw [if_pos hr, if_pos (by omega)]
        · rw [if_neg hr, if_neg (by omega)]
  · rw [forRange_empty _ s h, if_neg (by omega)]

theorem forRange_cells_zero (f : Nat → α → α) (s : Nat → α) (k : Nat) :
    forRange lo hi (fun i t => Function.update t i (f i (t i))) s k =
      if lo ≤ k ∧ k < hi then f k (s k) else s k := by
  have h := @forRange_cells α lo hi 0 f s k
  simpa only [Nat.zero_add] using h

theorem forRange_fill (p : Nat → Prop) [DecidablePred p] (v : Nat → α)
    (s : Nat → α) (k : Nat) :
    forRange lo hi (fun i t => if p i then Function.update t i (v i) else t) s k =
      if (lo ≤ k ∧ k < hi) ∧ p k then v k else s k := by
  have hcells := @forRange_cells_zero α lo hi (fun i a => if p i then v i else a) s k
  rw [forRange_congr (g := fun i (t : Nat → α) => Function.update t i (if p i then v i else t i)),
    hcells]
  · by_cases hr : lo ≤ k ∧ k < hi
    · simp only [hr, if_true, true_and]
    · simp only [hr, if_false, false_and]
  · intro i t _ _
    split
    · rfl
    · rw [Function.update_eq_self]

end ClusterZfs

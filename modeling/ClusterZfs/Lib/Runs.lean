import Mathlib.Logic.Basic

/-! Runs of a system whose steps are chosen from outside: a schedule picks one choice after the
other, and a choice that is not enabled gives no next state. -/
namespace ClusterZfs

section Runs

variable {σ α : Type}

/-- The states reached from `s` by choices that each meet `ok` in the state they are made in. -/
inductive Reach (step : σ → α → Option σ) (ok : σ → α → Prop) (s : σ) : σ → Prop
  | start : Reach step ok s s
  | next {t u : σ} {a : α} :
      Reach step ok s t → ok t a → step t a = some u → Reach step ok s u

def runSteps (step : σ → α → Option σ) : List α → σ → Option σ
  | [], s => some s
  | a :: as, s => (step s a).bind (runSteps step as)

/-- The steps of a system with the choices that do not meet `ok` taken away. -/
def guardStep (ok : σ → α → Prop) [∀ s a, Decidable (ok s a)] (step : σ → α → Option σ) :
    σ → α → Option σ :=
  fun s a => if ok s a then step s a else none

variable {step : σ → α → Option σ} {ok : σ → α → Prop} {s t : σ}

/-- The invariant rule: what holds at the start and is kept by every step holds in every
reached state. -/
theorem Reach.invariant {P : σ → Prop} (start : P s)
    (kept : ∀ t u a, P t → ok t a → step t a = some u → P u) (h : Reach step ok s t) : P t := by
  induction h with
  | start => exact start
  | next _ hok hstep ih => exact kept _ _ _ ih hok hstep

theorem Reach.mono {ok' : σ → α → Prop} (weaker : ∀ s a, ok s a → ok' s a)
    (h : Reach step ok s t) : Reach step ok' s t := by
  induction h with
  | start => exact .start
  | next _ hok hstep ih => exact .next ih (weaker _ _ hok) hstep

theorem Reach.trans {u : σ} (h : Reach step ok s t) (h' : Reach step ok t u) :
    Reach step ok s u := by
  induction h' with
  | start => exact h
  | next _ hok hstep ih => exact .next ih hok hstep

/-- A schedule that runs through under the guard reaches its last state. -/
theorem reach_of_run [∀ s a, Decidable (ok s a)] {as : List α}
    (h : runSteps (guardStep ok step) as s = some t) : Reach step ok s t := by
  induction as generalizing s with
  | nil =>
    cases h
    exact .start
  | cons a as ih =>
    obtain ⟨u, hu, hrest⟩ := Option.bind_eq_some_iff.mp h
    unfold guardStep at hu
    split at hu
    · rename_i hok
      exact (Reach.next .start hok hu).trans (ih hrest)
    · cases hu

/-- A schedule whose last state can be evaluated. -/
theorem exists_reach (step : σ → α → Option σ) (ok : σ → α → Prop)
    [∀ s a, Decidable (ok s a)] (s : σ) (as : List α) (P : σ → Prop) [DecidablePred P]
    (h : (runSteps (guardStep ok step) as s).any (fun t => decide (P t)) = true) :
    ∃ t, Reach step ok s t ∧ P t := by
  obtain ⟨t, ht, hP⟩ := (Option.any_eq_true ..).mp h
  exact ⟨t, reach_of_run ht, of_decide_eq_true hP⟩

end Runs

end ClusterZfs

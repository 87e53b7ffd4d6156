import Mathlib.Data.List.Basic

/-! Writes as partial contents: a write gives a value to some keys and leaves the others. -/
namespace ClusterZfs

abbrev Overlay (κ β : Type*) := κ → Option β

namespace Overlay

variable {κ β : Type*} {m : κ → β} {k : κ}

def apply (w : Overlay κ β) (m : κ → β) : κ → β := fun k => (w k).getD (m k)

/- The writes of a list, the first one first. -/
def applyAll (ws : List (Overlay κ β)) (m : κ → β) : κ → β := ws.foldl (fun m w => w.apply m) m

@[simp] theorem apply_of_none {w : Overlay κ β} (h : w k = none) :
    w.apply m k = m k := by
  simp [apply, h]

@[simp] theorem apply_of_some {w : Overlay κ β} {v : β} (h : w k = some v) :
    w.apply m k = v := by
  simp [apply, h]

@[simp] theorem applyAll_nil (m : κ → β) : applyAll [] m = m := rfl

@[simp] theorem applyAll_cons (w : Overlay κ β) (ws : List (Overlay κ β)) (m : κ → β) :
    applyAll (w :: ws) m = applyAll ws (w.apply m) := rfl

theorem applyAll_append (ws ws' : List (Overlay κ β)) (m : κ → β) :
    applyAll (ws ++ ws') m = applyAll ws' (applyAll ws m) :=
  List.foldl_append

theorem applyAll_of_none {ws : List (Overlay κ β)} (h : ∀ w ∈ ws, w k = none)
    (m : κ → β) : applyAll ws m k = m k := by
  induction ws generalizing m with
  | nil => rfl
  | cons w ws ih =>
    rw [applyAll_cons, ih (fun w' hw' => h w' (List.mem_cons_of_mem w hw'))]
    exact apply_of_none (h w List.mem_cons_self)

theorem applyAll_congr (ws : List (Overlay κ β)) {m' : κ → β} (h : m k = m' k) :
    applyAll ws m k = applyAll ws m' k := by
  induction ws generalizing m m' with
  | nil => exact h
  | cons w ws ih =>
    rw [applyAll_cons, applyAll_cons]
    refine ih ?_
    simp [apply, h]

theorem applyAll_of_covered {ws : List (Overlay κ β)} (h : ∃ w ∈ ws, w k ≠ none)
    (m m' : κ → β) : applyAll ws m k = applyAll ws m' k := by
  induction ws generalizing m m' with
  | nil => simp at h
  | cons w ws ih =>
    cases hw : w k with
    | none =>
      obtain ⟨w', hmem, hw'⟩ := h
      have hmem : w' ∈ ws := by
        rcases List.mem_cons.mp hmem with rfl | hmem
        · exact absurd hw hw'
        · exact hmem
      exact ih ⟨w', hmem, hw'⟩ _ _
    | some v =>
      rw [applyAll_cons, applyAll_cons]
      refine applyAll_congr ws ?_
      rw [apply_of_some hw, apply_of_some hw]

end Overlay

end ClusterZfs

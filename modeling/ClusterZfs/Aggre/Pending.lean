import ClusterZfs.Aggre.Records
import Mathlib.Algebra.Order.Group.Multiset
import Mathlib.Data.Multiset.MapFold
import Mathlib.Tactic.Abel

/-! The records that reclaim can still come to: those of the map that is being filled, those of
the other map that were not handled, and those on the lists of the txgs. -/
namespace ClusterZfs

section Lists

variable {ε : Type} {handled : Nat → List ElemState} (f : Nat → List ε) (txg : Nat)

/- The four lists of the txg slots together. -/
def slotLists (f : Nat → List ε) : Multiset ε := ↑(f 0) + ↑(f 1) + ↑(f 2) + ↑(f 3)

theorem slotLists_update (l : List ε) :
    slotLists (Function.update f (txg % 4) l) + ↑(f (txg % 4)) = slotLists f + ↑l := by
  obtain h | h | h | h : txg % 4 = 0 ∨ txg % 4 = 1 ∨ txg % 4 = 2 ∨ txg % 4 = 3 := by omega
  all_goals
    rw [h]
    simp [-Multiset.coe_add, slotLists, Function.update_of_ne]
    abel

theorem slotLists_append (e : ε) :
    slotLists (Function.update f (txg % 4) (f (txg % 4) ++ [e])) = slotLists f + {e} := by
  have hupdate := slotLists_update f txg (f (txg % 4) ++ [e])
  rw [← Multiset.coe_add, add_comm (↑(f (txg % 4)) : Multiset ε), ← add_assoc] at hupdate
  exact add_right_cancel hupdate

theorem slotLists_clear :
    slotLists f = slotLists (Function.update f (txg % 4) []) + ↑(f (txg % 4)) := by
  rw [slotLists_update, Multiset.coe_nil, add_zero]

theorem mem_slotLists_of {f : Nat → List ε} {e : ε} {j : Nat} (hj : j < 4) (h : e ∈ f j) :
    e ∈ slotLists f := by
  simp only [slotLists, Multiset.mem_add, Multiset.mem_coe]
  obtain rfl | rfl | rfl | rfl : j = 0 ∨ j = 1 ∨ j = 2 ∨ j = 3 := by omega
  · exact Or.inl (Or.inl (Or.inl h))
  · exact Or.inl (Or.inl (Or.inr h))
  · exact Or.inl (Or.inr h)
  · exact Or.inr h

/- The records from position `k` on that were not handled. -/
def unhandledFrom (handled : Nat → List ElemState) : Nat → List ε → List ε
  | _, [] => []
  | k, e :: es =>
    if handled k = [] then e :: unhandledFrom handled (k + 1) es
    else unhandledFrom handled (k + 1) es

theorem unhandledFrom_all (h : ∀ k, handled k = []) (k : Nat)
    (es : List ε) : unhandledFrom handled k es = es := by
  induction es generalizing k with
  | nil => rfl
  | cons e es ih => rw [unhandledFrom, if_pos (h k), ih]

theorem unhandledFrom_none (k : Nat) (es : List ε)
    (h : ∀ i, i < es.length → handled (k + i) ≠ []) : unhandledFrom handled k es = [] := by
  induction es generalizing k with
  | nil => rfl
  | cons e es ih =>
    have hfirst : handled k ≠ [] := h 0 (Nat.succ_pos _)
    rw [unhandledFrom, if_neg hfirst]
    refine ih (k + 1) ?_
    intro i hi
    rw [Nat.add_assoc, Nat.add_comm 1 i]
    exact h (i + 1) (Nat.succ_lt_succ hi)

theorem unhandledFrom_congr {handled' : Nat → List ElemState} (k : Nat) (es : List ε)
    (h : ∀ i, k ≤ i → handled i = handled' i) :
    unhandledFrom handled k es = unhandledFrom handled' k es := by
  induction es generalizing k with
  | nil => rfl
  | cons e es ih =>
    rw [unhandledFrom, unhandledFrom, h k (Nat.le_refl k), ih (k + 1) (fun i hi => h i (by omega))]

theorem unhandledFrom_handle [Inhabited ε] (k i : Nat)
    (es : List ε) (hi : i < es.length) (fresh : handled (k + i) = []) {states : List ElemState}
    (hs : states ≠ []) :
    (↑(unhandledFrom handled k es) : Multiset ε) =
      ↑(unhandledFrom (Function.update handled (k + i) states) k es) + {es.getD i default} := by
  induction es generalizing k i with
  | nil => cases hi
  | cons e es ih =>
    cases i with
    | zero =>
      rw [Nat.add_zero] at fresh ⊢
      have hrest : unhandledFrom handled (k + 1) es =
          unhandledFrom (Function.update handled k states) (k + 1) es :=
        unhandledFrom_congr _ _ (fun j hj => (Function.update_of_ne (by omega) _ _).symm)
      have hnow : Function.update handled k states k = states := Function.update_self ..
      rw [unhandledFrom, unhandledFrom, if_pos fresh, hnow, if_neg hs, ← hrest]
      simp [← Multiset.cons_coe, ← Multiset.singleton_add, add_comm]
    | succ i =>
      have hkey : k + (i + 1) = k + 1 + i := by omega
      rw [hkey] at fresh ⊢
      have hstep := ih (k + 1) i (Nat.lt_of_succ_lt_succ hi) fresh
      have hnow : Function.update handled (k + 1 + i) states k = handled k :=
        Function.update_of_ne (by omega) _ _
      rw [unhandledFrom, unhandledFrom, hnow, List.getD_cons_succ]
      split
      · rw [← Multiset.cons_coe, ← Multiset.cons_coe, hstep, Multiset.cons_add]
      · exact hstep

end Lists

namespace Reclaim

variable {ε : Type}

def pending (st : Reclaim ε) : Multiset ε :=
  ↑(st.maps st.active).elems +
    ↑(unhandledFrom st.handled 0 (st.maps st.reclaimObj).elems) + slotLists st.maplist

/-- The records whose stripes are on a list of frees. -/
def freeing (st : Reclaim ε) : Multiset ε := slotLists st.freeBplist

end Reclaim

section Pending

variable {ε : Type} {st st' : Reclaim ε} {pos : Nat} (txg : Nat) (now : UInt64)

theorem pending_congr (maps : st'.maps = st.maps) (active : st'.active = st.active)
    (handled : st'.handled = st.handled) (maplist : st'.maplist = st.maplist) :
    st'.pending = st.pending := by
  simp [Reclaim.pending, Reclaim.reclaimObj, maps, active, handled, maplist]

theorem pending_stripe (e : ε) (txg : Nat) :
    (appendMaplist e txg st).pending = st.pending + {e} := by
  have hlists := slotLists_append st.maplist txg e
  change _ + _ + slotLists (Function.update st.maplist (txg % 4) _) = _
  rw [hlists, ← add_assoc]
  rfl

theorem pending_handle [Inhabited ε] (st' : Reclaim ε) {states : List ElemState}
    (inside : pos < st.total) (fresh : st.handled pos = []) (hs : states ≠ [])
    (maps : st'.maps = st.maps) (active : st'.active = st.active)
    (handled : st'.handled = Function.update st.handled pos states) :
    ↑(st.maps st.active).elems +
        ↑(unhandledFrom st.handled 0 (st.maps st.reclaimObj).elems) + slotLists st'.maplist =
      st'.pending + {(st.maps st.reclaimObj).elems.getD pos default} := by
  have hfresh : st.handled (0 + pos) = [] := (congrArg st.handled (Nat.zero_add pos)).trans fresh
  have hstep := unhandledFrom_handle 0 pos (st.maps st.reclaimObj).elems inside hfresh hs
  rw [Nat.zero_add] at hstep
  rw [hstep]
  simp only [Reclaim.pending, Reclaim.reclaimObj, maps, active, handled]
  abel

/-- A record without enough changes is pending as before, now on the list of its txg. -/
theorem pending_noChange [Inhabited ε] (inside : pos < st.total)
    (fresh : st.handled pos = []) (txg : Nat) :
    (st.processElem st.reclaimObj pos .noChange txg).pending = st.pending := by
  have hmove := pending_handle (st.processElem st.reclaimObj pos .noChange txg) inside fresh
    (List.append_ne_nil_of_right_ne_nil _ (List.cons_ne_nil .noChange [])) rfl rfl rfl
  have hlist : slotLists (st.processElem st.reclaimObj pos .noChange txg).maplist =
      slotLists st.maplist + {(st.maps st.reclaimObj).elems.getD pos default} :=
    slotLists_append st.maplist txg _
  rw [hlist, ← add_assoc] at hmove
  exact (add_right_cancel hmove).symm

theorem pending_freed [Inhabited ε] (inside : pos < st.total)
    (fresh : st.handled pos = []) {state : ElemState} (freed : state = .free ∨ state = .rewrite)
    (txg : Nat) : st.pending = (st.processElem st.reclaimObj pos state txg).pending +
      {(st.maps st.reclaimObj).elems.getD pos default} := by
  have hne : st.handled pos ++ [state] ≠ [] :=
    List.append_ne_nil_of_right_ne_nil _ (List.cons_ne_nil state [])
  rcases freed with rfl | rfl
  · exact pending_handle (st.processElem st.reclaimObj pos .free txg) inside fresh hne rfl rfl rfl
  · exact pending_handle (st.processElem st.reclaimObj pos .rewrite txg) inside fresh hne
      rfl rfl rfl

theorem pending_enqueue : (enqueueMaplist txg st).pending = st.pending := by
  have hlists := slotLists_clear st.maplist txg
  have hactive : ((enqueueMaplist txg st).maps st.active).elems =
      (st.maps st.active).elems ++ st.maplist (txg % 4) := by
    simp [enqueueMaplist, Reclaim.setMap]
  unfold Reclaim.pending
  rw [enqueue_reclaimMap, hlists]
  change (↑((enqueueMaplist txg st).maps st.active).elems : Multiset ε) +
    ↑(unhandledFrom st.handled 0 (st.maps st.reclaimObj).elems) +
    slotLists (Function.update st.maplist (txg % 4) []) = _
  rw [hactive, ← Multiset.coe_add]
  abel

theorem applied_elems {time : UInt64} : ((st.applied txg time).maps st.reclaimObj).elems =
    (st.maps st.reclaimObj).elems := by
  simp [Reclaim.applied]

theorem pending_apply {time : UInt64} : (st.applied txg time).pending = st.pending := by
  change ↑((st.applied txg time).maps st.active).elems +
    ↑(unhandledFrom st.handled 0 ((st.applied txg time).maps st.reclaimObj).elems) +
    slotLists st.maplist = _
  rw [applied_maps_active, applied_elems]
  rfl

/-- The records that were not handled are gone with their map. -/
theorem pending_clear (st : Reclaim ε) (txg : Nat) :
    st.pending = (reclaimMapFreeRange now txg st.reclaimObj st).pending +
      ↑(unhandledFrom st.handled 0 (st.maps st.reclaimObj).elems) := by
  have hactive := freeRange_maps_active txg st now
  have hrec := freeRange_maps_reclaimObj txg st now
  unfold Reclaim.pending
  rw [hrec]
  change _ = (↑((reclaimMapFreeRange now txg st.reclaimObj st).maps st.active).elems : Multiset ε) +
    0 + slotLists st.maplist + _
  rw [hactive]
  abel

theorem pending_switch (empty : (st.maps st.reclaimObj).elems = []) :
    (switchMaps now st).pending = st.pending := by
  have hne : st.reclaimObj ≠ st.active := otherObj_ne st.active
  have hactive : ((switchMaps now st).maps st.reclaimObj).elems = [] := by
    rw [← empty]
    simp [switchMaps, Reclaim.setMap, Function.update_of_ne hne]
  have hrec : ((switchMaps now st).maps st.active).elems = (st.maps st.active).elems := by
    simp [switchMaps, Reclaim.setMap]
  unfold Reclaim.pending
  rw [switchMaps_reclaimObj, hrec, empty]
  change (↑((switchMaps now st).maps st.reclaimObj).elems : Multiset ε) +
    ↑(unhandledFrom (fun _ => []) 0 (st.maps st.active).elems) + slotLists st.maplist = _
  rw [hactive, unhandledFrom_all (fun _ => rfl)]
  simp [-Multiset.coe_add, unhandledFrom]

/- The map that is CLEAR has no records. -/
def Reclaim.ClearEmpty (st : Reclaim ε) : Prop :=
  st.reclaimState = .clear → (st.maps st.reclaimObj).elems = []

theorem ClearEmpty.congr (h : st.ClearEmpty) (maps : st'.maps = st.maps)
    (active : st'.active = st.active) : st'.ClearEmpty := by
  have hobj : st'.reclaimObj = st.reclaimObj := congrArg otherObj active
  intro hclear
  unfold Reclaim.reclaimState at hclear
  rw [maps, hobj] at hclear ⊢
  exact h hclear

theorem ClearEmpty.apply {time : UInt64} (h : st.ClearEmpty) :
    (st.applied txg time).ClearEmpty := by
  intro hclear
  rw [applied_reclaimState] at hclear
  exact (applied_elems txg).trans (h (newState_clear hclear))

theorem ClearEmpty.clear : (reclaimMapFreeRange now txg st.reclaimObj st).ClearEmpty :=
  fun _ => congrArg AggreMap.elems (freeRange_maps_reclaimObj txg st now)

theorem ClearEmpty.switch : (switchMaps now st).ClearEmpty := by
  intro hclear
  rw [switchMaps_reclaimState] at hclear
  cases hclear

theorem ClearEmpty.enqueue (h : st.ClearEmpty) : (enqueueMaplist txg st).ClearEmpty := by
  have hrec := enqueue_reclaimMap txg st
  intro hclear
  rw [hrec]
  exact h ((congrArg AggreMap.state hrec).symm.trans hclear)

/-- A sync pass loses records of the map that it clears, and nothing else. -/
theorem pending_syncPass (empty : st.ClearEmpty) (tun : AggreTunables) (now : UInt64)
    (reclaimStart : Bool) :
    (syncPass tun now reclaimStart st).ClearEmpty ∧
      (syncPass tun now reclaimStart st).pending ≤ st.pending := by
  refine syncPass_rule 0 (I := fun _ u => u.ClearEmpty ∧ u.pending ≤ st.pending)
    (fun _ _ h => h) (fun _ _ h _ => h) ?_ ?_ ?_ ?_ ⟨empty, le_refl _⟩ tun reclaimStart
  · rintro lo u time ⟨hempty, hle⟩
    exact ⟨ClearEmpty.apply _ hempty, by rwa [pending_apply]⟩
  · rintro lo u txg ⟨_, hle⟩ _
    refine ⟨ClearEmpty.clear txg now, le_trans ?_ hle⟩
    exact Multiset.le_iff_exists_add.mpr ⟨_, pending_clear now u txg⟩
  · rintro lo u ⟨hempty, hle⟩ state
    exact ⟨ClearEmpty.switch now, by rwa [pending_switch now (hempty state)]⟩
  · rintro lo u txg ⟨hempty, hle⟩
    exact ⟨ClearEmpty.enqueue txg hempty, by rwa [pending_enqueue]⟩

theorem quiet_step [Inhabited ε] {tun : AggreTunables} {a : ReclaimAction ε}
    (hstep : st.step tun a = some st') (process : ∀ state txg, a ≠ .process state txg)
    (stripe : ∀ e, a ≠ .stripe e) (sync : ∀ now start, a ≠ .syncPass now start) :
    st'.maps = st.maps ∧ st'.active = st.active ∧ st'.handled = st.handled ∧
      st'.maplist = st.maplist ∧ st'.freeBplist = st.freeBplist ∧
      ∀ j, (st'.slots j).posFlag = (st.slots j).posFlag := by
  have hmark : ∀ (i : Fin 2) mark cur txg j,
      ((setReclaimState i mark cur txg st).slots j).posFlag = (st.slots j).posFlag := by
    intro i mark cur txg j
    by_cases hj : j = txg % 4
    · subst hj
      simp [setReclaimState, Reclaim.setSlot]
    · simp [setReclaimState, Reclaim.setSlot, hj]
  cases Reclaim.step_cases hstep with
  | enter _ =>
    simp only [Reclaim.enter]
    split <;> exact ⟨rfl, rfl, rfl, rfl, rfl, fun _ => rfl⟩
  | process | processFails => exact absurd rfl (process _ _)
  | stripe => exact absurd rfl (stripe _)
  | syncPass => exact absurd rfl (sync _ _)
  | start | finish => exact ⟨rfl, rfl, rfl, rfl, rfl, hmark _ _ _ _⟩
  | _ => exact ⟨rfl, rfl, rfl, rfl, rfl, fun _ => rfl⟩

/- What the requests and the switch of the maps leave alone. -/
def Reclaim.SameLists (st st' : Reclaim ε) (txg : Nat) : Prop :=
  st'.freeBplist = st.freeBplist ∧ st'.maplist = st.maplist ∧ st'.syncingTxg = st.syncingTxg ∧
    ∀ j, j ≠ txg % 4 → st'.slots j = st.slots j

theorem updateReclaimMap_lists (tun : AggreTunables) (txg : Nat) (st : Reclaim ε) (now : UInt64) :
    st.SameLists (updateReclaimMap tun now txg st) txg := by
  have hfree : ∀ u, st.SameLists u txg → st.SameLists (freeRange tun now txg u) txg := by
    intro u hu
    simp only [freeRange]
    split <;> exact hu
  unfold updateReclaimMap
  split
  · exact hfree st ⟨rfl, rfl, rfl, fun _ _ => rfl⟩
  · obtain ⟨_, heq⟩ := applyRequests_eq txg st
    rw [heq]
    exact hfree _ ⟨rfl, rfl, rfl, fun j hj => Function.update_of_ne hj _ _⟩

/-- A sync pass takes the lists of its txg, and looks at the requests of no other. -/
theorem syncPass_lists (tun : AggreTunables) (st : Reclaim ε) (now : UInt64)
    (reclaimStart : Bool) :
    (syncPass tun now reclaimStart st).freeBplist =
        Function.update st.freeBplist (st.syncingTxg % 4) [] ∧
      (syncPass tun now reclaimStart st).maplist =
        (if reclaimStart then Function.update st.maplist (st.syncingTxg % 4) [] else st.maplist) ∧
      ∀ j, j ≠ st.syncingTxg % 4 → (syncPass tun now reclaimStart st).slots j = st.slots j := by
  have hupdate := updateReclaimMap_lists tun
    (spaSyncFrees st.syncingTxg { st with pass := st.pass + 1 }).syncingTxg
    (spaSyncFrees st.syncingTxg { st with pass := st.pass + 1 }) now
  have hcur : ∀ (u : Reclaim ε) txg, u.SameLists (raidzAggreMapCurrent tun now txg u) txg := by
    intro u txg
    unfold raidzAggreMapCurrent
    split
    · exact ⟨rfl, rfl, rfl, fun _ _ => rfl⟩
    split <;> exact ⟨rfl, rfl, rfl, fun _ _ => rfl⟩
  unfold syncPass
  dsimp only
  generalize updateReclaimMap tun now _ _ = u at hupdate ⊢
  obtain ⟨hfrees, hmaplist, hsync, hslots⟩ := hupdate
  obtain ⟨hfrees', hmaplist', _, hslots'⟩ := hcur u u.syncingTxg
  have htxg : u.syncingTxg = st.syncingTxg := hsync
  split
  · refine ⟨hfrees'.trans hfrees, ?_, fun j hj => (hslots' j (htxg ▸ hj)).trans (hslots j hj)⟩
    change Function.update (raidzAggreMapCurrent tun now u.syncingTxg u).maplist _ [] = _
    rw [hmaplist', hmaplist, htxg]
    rfl
  · exact ⟨hfrees, hmaplist, hslots⟩

end Pending

end ClusterZfs

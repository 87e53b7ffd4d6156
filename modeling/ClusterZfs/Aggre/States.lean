import ClusterZfs.Aggre.Settled

/-! The life of a map object: CLEAR, FILLING, FILLED, RECLAIMING, RECLAIMED and CLEAR again. A
pass that ends inside the txg of its START, or one that enters while an END is parked, leaves
this path; every run without such passes keeps to it. -/
namespace ClusterZfs

def MapObjState.next : MapObjState → MapObjState → Bool
  | .clear, .filling => true
  | .filling, .filled => true
  | .filled, .reclaiming => true
  | .reclaiming, .reclaiming => true
  | .reclaiming, .reclaimed => true
  | .reclaimed, .clear => true
  | _, _ => false

/-- A state moves along the path, and a request reaches the map it was recorded for while that
map is being reclaimed. -/
def MapEvent.Orderly : MapEvent → Prop
  | .moved _ old new => old.next new = true
  | .applied recorded map state => recorded = map ∧ state ≠ .clear ∧ state ≠ .filling

/-- The active map is the one that is FILLING, and nothing that happened left the path. -/
structure Reclaim.Orderly {ε : Type} (st : Reclaim ε) : Prop where
  filling : ∀ i, (st.maps i).state = .filling ↔ i = st.active
  log : ∀ e ∈ st.log, e.Orderly

/-- A START request is parked in slot `j`. -/
def Reclaim.Starting {ε : Type} (st : Reclaim ε) (j : Nat) : Prop :=
  (st.slots j).stateFlag = true ∧ (st.slots j).state = .start

instance {ε : Type} (st : Reclaim ε) (j : Nat) : Decidable (st.Starting j) := by
  unfold Reclaim.Starting
  infer_instance

/-- An END is recorded for a map that is RECLAIMING, or will be before the txg of the END. -/
def EndsAfterStart {ε : Type} (st : Reclaim ε) : ReclaimAction ε → Prop
  | .endTx _ (some txg) => st.reclaimState = .reclaiming ∨
      ∃ t, t < txg ∧ st.first ≤ t ∧ st.Starting (t % 4)
  | _ => True

/- The invariant of such runs. -/
structure Lawful {ε : Type} (lo : Nat) (st : Reclaim ε) : Prop where
  settled : Settled lo st
  started : ∀ j, st.Ending j → st.reclaimState = .reclaiming ∨
    ∃ t, t < st.threadTxg ∧ lo ≤ t ∧ st.Starting (t % 4)
  log : ∀ e ∈ st.log, e.Orderly

section Lawful

variable {ε : Type} {lo : Nat} {st st' : Reclaim ε}

theorem Lawful.unended {lo' : Nat} (h : Lawful lo st) (settled : Settled lo' st')
    (unended : ∀ j, ¬ st'.Ending j) (log : st'.log = st.log) : Lawful lo' st' := by
  refine ⟨settled, fun j hj => absurd hj (unended j), ?_⟩
  rw [log]
  exact h.log

theorem newState_busy {slot : ReclaimSlot} {old : MapObjState}
    (h : old = .filled ∨ old = .reclaiming) :
    slot.newState old ≠ .clear ∧ slot.newState old ≠ .filling := by
  unfold ReclaimSlot.newState
  split
  · cases slot.state <;> decide
  · rcases h with rfl | rfl <;> decide

section

variable (h : Lawful lo st) (now : UInt64) (txg : Nat)
include h

theorem Lawful.end_reclaiming (ending : st.Ending (st.syncingTxg % 4)) :
    st.reclaimState = .reclaiming := by
  rcases h.started _ ending with hstate | ⟨t, h1, h2, _⟩
  · exact hstate
  · obtain ⟨hlast, _⟩ := h.settled.last _ ending
    have := h.settled.thread_le
    have := h.settled.open_le
    have := h.settled.lo_ge
    omega

theorem Lawful.events :
    ∀ e ∈ (st.slots (st.syncingTxg % 4)).events st.reclaimObj st.reclaimState, e.Orderly := by
  intro e he
  rcases List.mem_append.mp he with he | he
  · split at he
    · rename_i hflag
      have hstate := h.settled.flagged _ (Or.inl hflag)
      simp only [List.mem_cons, List.not_mem_nil, or_false] at he
      rcases he with rfl | rfl
      · refine ⟨h.settled.stateOwner _ hflag, ?_⟩
        rcases hstate with hs | hs <;> rw [hs] <;> decide
      · unfold MapEvent.Orderly ReclaimSlot.newState
        rw [if_pos hflag]
        cases hm : (st.slots (st.syncingTxg % 4)).state with
        | start => rcases hstate with hs | hs <;> rw [hs] <;> rfl
        | finish =>
          rw [h.end_reclaiming ⟨hflag, hm⟩]
          rfl
    · cases he
  · split at he
    · rename_i hflag
      rw [List.mem_singleton.mp he]
      exact ⟨h.settled.posOwner _ hflag, newState_busy (h.settled.flagged _ (Or.inr hflag))⟩
    · cases he

theorem Lawful.apply (time : UInt64) :
    Lawful (st.syncingTxg + 1) (st.applied st.syncingTxg time) := by
  refine ⟨h.settled.apply time, ?_, ?_⟩
  · intro j hj
    obtain ⟨hne, hslot⟩ := applied_slot (Or.inl hj.1)
    have hbefore : st.Ending j := by
      unfold Reclaim.Ending at hj ⊢
      rwa [hslot] at hj
    have hsync : ¬ st.Ending (st.syncingTxg % 4) := fun hend =>
      hne ((h.settled.alone hend).2 j (Or.inl hbefore.1))
    have hreclaiming : st.reclaimState = .reclaiming →
        (st.applied st.syncingTxg time).reclaimState = .reclaiming := by
      intro hstate
      rw [applied_reclaimState, ReclaimSlot.newState, hstate]
      split
      · rename_i hflag
        cases hm : (st.slots (st.syncingTxg % 4)).state with
        | start => rfl
        | finish => exact absurd ⟨hflag, hm⟩ hsync
      · rfl
    rcases h.started j hbefore with hstate | ⟨t, h1, h2, h3⟩
    · exact Or.inl (hreclaiming hstate)
    · by_cases ht : t = st.syncingTxg
      · left
        rw [applied_reclaimState, ReclaimSlot.newState, ← ht, if_pos h3.1, h3.2]
        rfl
      · right
        have h4 := h.settled.thread_le
        have h5 := h.settled.open_le
        have h6 := h.settled.lo_ge
        have hkept : (st.applied st.syncingTxg time).slots (t % 4) = st.slots (t % 4) :=
          Function.update_of_ne (by omega) _ _
        refine ⟨t, h1, by omega, ?_⟩
        unfold Reclaim.Starting
        rw [hkept]
        exact h3
  · intro e he
    rcases List.mem_append.mp he with he | he
    · exact h.log e he
    · exact h.events e he

theorem Lawful.skip (state : st.reclaimState = .reclaimed) :
    Lawful (st.syncingTxg + 1) st := by
  have hnone := (h.settled.quiet (by rw [state]; decide)).1
  exact ⟨h.settled.skip state, fun j hj => absurd (Or.inl hj.1) (hnone j), h.log⟩

theorem Lawful.clear
    (state : st.reclaimState = .reclaimed) :
    Lawful lo (reclaimMapFreeRange now txg st.reclaimObj st) := by
  have hnone := (h.settled.quiet (by rw [state]; decide)).1
  refine ⟨h.settled.clear now txg state, fun j hj => absurd (Or.inl hj.1) (hnone j), ?_⟩
  intro e he
  simp only [reclaimMapFreeRange, Reclaim.setMap, Reclaim.logged, List.mem_append,
    List.mem_singleton] at he
  rcases he with he | rfl
  · exact h.log e he
  · exact congrArg (MapObjState.next · .clear) state

theorem Lawful.switch (state : st.reclaimState = .clear) :
    Lawful lo (switchMaps now st) := by
  have hnone := (h.settled.quiet (by rw [state]; decide)).1
  refine ⟨h.settled.switch now state, fun j hj => absurd (Or.inl hj.1) (hnone j), ?_⟩
  intro e he
  simp only [switchMaps, Reclaim.setMap, Reclaim.logged, List.mem_append,
    List.mem_singleton] at he
  rcases he with (he | rfl) | rfl
  · exact h.log e he
  · exact congrArg (MapObjState.next · .filling) state
  · exact congrArg (MapObjState.next · .filled) h.settled.filling

theorem Lawful.enqueue : Lawful lo (enqueueMaplist txg st) := by
  have hstate : (enqueueMaplist txg st).reclaimState = st.reclaimState :=
    enqueue_reclaimState txg st
  refine ⟨h.settled.enqueue txg, ?_, h.log⟩
  intro j hj
  rw [hstate]
  exact h.started j hj

theorem Lawful.syncPass (tun : AggreTunables) (now : UInt64)
    (reclaimStart : Bool) : Lawful (st.syncingTxg + 1) (syncPass tun now reclaimStart st) :=
  syncPass_rule lo (fun _ _ h => ⟨h.settled.frees, h.started, h.log⟩) (fun _ _ => Lawful.skip)
    (fun _ _ time h => h.apply time) (fun _ _ txg h => h.clear now txg) (fun _ _ h => h.switch now)
    (fun _ _ txg h => h.enqueue txg) h tun reclaimStart

theorem Lawful.orderly : st.Orderly := by
  refine ⟨?_, h.log⟩
  intro i
  constructor
  · intro hi
    by_contra hne
    have hobj : i = st.reclaimObj := eq_otherObj hne
    rw [hobj] at hi
    exact h.settled.inactive hi
  · rintro rfl
    exact h.settled.filling

end

theorem Reclaim.Initial.lawful (h : st.Initial) : Lawful st.first st := by
  refine ⟨h.settled, fun j hj => absurd (Or.inl hj.1) (h.slots j), ?_⟩
  rw [h.log]
  exact fun e he => absurd he List.not_mem_nil

end Lawful

section Log

variable {ε : Type} {lo : Nat} {start : Fin 2 → MapObjState} {st st' : Reclaim ε}

/- A map's state after an event, which has to start from it. -/
def MapEvent.follow (i : Fin 2) : Option MapObjState → MapEvent → Option MapObjState
  | some state, .moved map old new =>
    if map = i then (if old = state then some new else none) else some state
  | state, _ => state

/- The log takes the states `start` to those of the maps. -/
def Replayed (start : Fin 2 → MapObjState) (st : Reclaim ε) : Prop :=
  ∀ i, st.log.foldl (MapEvent.follow i) (some (start i)) = some (st.maps i).state

theorem update_state {i : Fin 2} {m : AggreMap ε} (state : m.state = (st.maps i).state)
    (j : Fin 2) : (Function.update st.maps i m j).state = (st.maps j).state := by
  by_cases hj : j = i
  · subst hj
    rw [Function.update_self, state]
  · rw [Function.update_of_ne hj]

section

variable (h : Replayed start st)
include h

theorem Replayed.same (log : st'.log = st.log)
    (state : ∀ i, (st'.maps i).state = (st.maps i).state) : Replayed start st' := by
  intro i
  rw [log, state]
  exact h i

theorem Replayed.move (i : Fin 2) (m : AggreMap ε) :
    Replayed start ((st.logged (.moved i (st.maps i).state m.state)).setMap i m) := by
  intro j
  simp only [Reclaim.setMap, Reclaim.logged, List.foldl_append, h j, List.foldl_cons,
    List.foldl_nil, MapEvent.follow]
  by_cases hj : i = j
  · subst hj
    rw [if_pos rfl, if_pos rfl, Function.update_self]
  · rw [if_neg hj, Function.update_of_ne (Ne.symm hj)]

theorem Replayed.apply (txg : Nat) (time : UInt64) : Replayed start (st.applied txg time) := by
  intro i
  simp only [Reclaim.applied, List.foldl_append, h i, ReclaimSlot.events]
  by_cases hi : i = st.reclaimObj
  · subst hi
    rw [Function.update_self, Reclaim.reclaimState]
    cases hs : (st.slots (txg % 4)).stateFlag <;> cases (st.slots (txg % 4)).posFlag <;>
      simp [MapEvent.follow, ReclaimSlot.newState, hs]
  · rw [Function.update_of_ne hi]
    cases (st.slots (txg % 4)).stateFlag <;> cases (st.slots (txg % 4)).posFlag <;>
      simp [MapEvent.follow, Ne.symm hi]

theorem Replayed.switch (now : UInt64) : Replayed start (switchMaps now st) := by
  have hfirst := h.move st.reclaimObj
    { st.maps st.reclaimObj with state := .filling, time := now, freeTxg := 0 }
  have hsecond := hfirst.move st.active { st.maps st.active with state := .filled, time := now }
  refine hsecond.same ?_ fun _ => rfl
  simp [switchMaps, Reclaim.setMap, Reclaim.logged, Reclaim.reclaimObj,
    Function.update_of_ne (otherObj_ne st.active).symm]

theorem Replayed.syncPass (tun : AggreTunables) (now : UInt64) (reclaimStart : Bool) :
    Replayed start (syncPass tun now reclaimStart st) :=
  syncPass_rule 0 (I := fun _ st => Replayed start st)
    (fun _ _ h => h.same rfl fun _ => rfl) (fun _ _ h _ => h) (fun _ _ time h => h.apply _ time)
    (fun _ _ _ h _ => (h.move _ _).same rfl fun _ => rfl) (fun _ _ h _ => h.switch now)
    (fun _ _ _ h => h.same rfl (update_state rfl)) h tun reclaimStart

end

end Log

section Step

variable {ε : Type} [Inhabited ε] {tun : AggreTunables} {st st' : Reclaim ε}

theorem Lawful.step {a : ReclaimAction ε} (h : Lawful st.first st) (enters : EntersAfterEnd st a)
    (ends : EndsAfterStart st a) (hstep : st.step tun a = some st') : Lawful st'.first st' := by
  have hsettled := h.settled.step enters hstep
  cases Reclaim.step_cases hstep with
  | enter _ =>
    refine h.unended hsettled ?_ ?_
    · intro j hj
      have hslots : ∀ now, (st.enter now).slots = st.slots := by
        intro now
        simp only [Reclaim.enter]
        split <;> rfl
      unfold Reclaim.Ending at hj
      rw [hslots] at hj
      obtain ⟨t, ht, _⟩ := h.settled.window j (Or.inl hj.1)
      exact enters j (by omega) hj
    · simp only [Reclaim.enter]
      split <;> rfl
  | startFails | stop | processFails | endFails | openTxg | stripe =>
    exact ⟨hsettled, h.started, h.log⟩
  | start hth assign => exact h.unended hsettled (hsettled.not_ending rfl) rfl
  | process hth _ assign =>
    exact h.unended hsettled (hsettled.not_ending rfl) (processElem_log _ _ _ _)
  | @finish map pos i avail txg now hth _ assign =>
    refine ⟨hsettled, ?_, h.log⟩
    intro j hj
    rcases ends with hstate | ⟨t, h1, h2, h3⟩
    · exact Or.inl hstate
    · refine Or.inr ⟨t, h1, h2, ?_⟩
      have hopen := h.settled.open_le
      have hge := h.settled.lo_ge
      have hslot : t % 4 ≠ txg % 4 := by
        have := assign.2.2
        omega
      unfold Reclaim.Starting setReclaimState Reclaim.setSlot
      dsimp only
      rw [Function.update_of_ne hslot]
      exact h3
  | beginSync passed closed =>
    rw [first_passed passed] at h
    exact ⟨hsettled, h.started, h.log⟩
  | syncPass =>
    rw [syncPass_first]
    exact h.syncPass tun _ _

/-- In every run the log has every change of a map's state. -/
theorem states_replayed {ok : Reclaim ε → ReclaimAction ε → Prop} {st₀ : Reclaim ε}
    (log : st₀.log = []) (run : Reach (Reclaim.step tun) ok st₀ st) :
    Replayed (fun i => (st₀.maps i).state) st := by
  refine run.invariant (P := Replayed _) (fun i => by rw [log]; rfl) ?_
  intro t u a h _ hstep
  cases Reclaim.step_cases hstep with
  | enter _ =>
    simp only [Reclaim.enter]
    split <;> exact h
  | @process _ _ _ _ _ state _ _ _ =>
    refine h.same (processElem_log ..) fun _ => ?_
    cases state <;> rfl
  | syncPass => exact h.syncPass tun _ _
  | _ => exact h

/-- In every run in which no pass enters while an END is parked and no END is recorded before
the START of its map can have been applied, both maps keep to the path. -/
theorem map_states_orderly (tun : AggreTunables) {st₀ st : Reclaim ε} (init : st₀.Initial)
    (run : Reach (Reclaim.step tun) (fun st a => EntersAfterEnd st a ∧ EndsAfterStart st a)
      st₀ st) : st.Orderly := by
  have hlawful : Lawful st.first st := by
    refine Reach.invariant (P := fun st => Lawful st.first st) ?_ ?_ run
    · exact init.lawful
    · exact fun t u a ht hok hstep => ht.step hok.1 hok.2 hstep
  exact hlawful.orderly

end Step

instance (e : MapEvent) : Decidable e.Orderly := by
  cases e <;> unfold MapEvent.Orderly <;> infer_instance

instance {ε : Type} (st : Reclaim ε) (a : ReclaimAction ε) :
    Decidable (EntersAfterEnd st a ∧ EndsAfterStart st a) :=
  match a with
  | .enter _ => inferInstanceAs (Decidable ((∀ j < 4, ¬ st.Ending j) ∧ True))
  | .endTx _ (some txg) => inferInstanceAs (Decidable (True ∧ (st.reclaimState = .reclaiming ∨
      ∃ t, t < txg ∧ st.first ≤ t ∧ st.Starting (t % 4))))
  | .endTx _ none | .startTx _ | .stop | .process .. | .openTxg | .beginSync | .stripe _
  | .syncPass .. => isTrue ⟨trivial, trivial⟩

/- A pass that takes two txgs, and the syncs of both. -/
def longPass : List (ReclaimAction Nat) :=
  [.enter 1000, .startTx (some 4), .process .free (some 4), .openTxg, .endTx 1000 (some 5),
    .beginSync, .syncPass 1001 true, .openTxg, .beginSync, .syncPass 1002 true,
    .syncPass 1200 true]

/-- A whole cycle of the first map. -/
theorem map_states_orderly_cycle : ∃ st, Reach (Reclaim.step smallMaps)
      (fun st a => EntersAfterEnd st a ∧ EndsAfterStart st a) (Reclaim.fresh Nat) st ∧
    st.Orderly ∧ (st.maps 0).state = .clear ∧ st.log.length = 8 := by
  obtain ⟨st, hreach, hlast⟩ := exists_reach (Reclaim.step smallMaps)
    (fun st a => EntersAfterEnd st a ∧ EndsAfterStart st a) (Reclaim.fresh Nat)
    (fillFirstMap ++ longPass)
    (fun st : Reclaim Nat => (st.maps 0).state = .clear ∧ st.log.length = 8) (by decide +kernel)
  exact ⟨st, hreach, map_states_orderly smallMaps (Reclaim.fresh_initial Nat) hreach, hlast⟩

/-- A pass that ends in the txg of its START takes the map from FILLED to RECLAIMED. A pass that
enters while an END is parked leaves a START that is applied to the map when it is CLEAR. -/
theorem map_states_stray :
    (∃ st, Reach (Reclaim.step smallMaps) (fun _ _ => True) (Reclaim.fresh Nat) st ∧
      ¬ st.Orderly) ∧
    ∃ st, Reach (Reclaim.step smallMaps) (fun _ _ => True) (Reclaim.fresh Nat) st ∧
      ¬ st.Orderly ∧ (st.maps 0).state = .reclaiming ∧ (st.maps 0).elems = [] := by
  constructor
  · obtain ⟨st, hreach, hlast⟩ := exists_reach (Reclaim.step smallMaps) (fun _ _ => True)
      (Reclaim.fresh Nat) (fillFirstMap ++ [.enter 1000, .startTx (some 4), .process .free (some 4),
        .endTx 1000 (some 4), .openTxg, .beginSync, .syncPass 1001 true])
      (fun st : Reclaim Nat => ¬ ∀ e ∈ st.log, e.Orderly) (by decide +kernel)
    exact ⟨st, hreach, fun h => hlast h.log⟩
  · obtain ⟨st, hreach, hstray, hlast⟩ := exists_reach (Reclaim.step smallMaps) (fun _ _ => True)
      (Reclaim.fresh Nat) (fillFirstMap ++ [.enter 1000, .startTx (some 4), .process .free (some 4),
        .openTxg, .endTx 1000 (some 5), .beginSync, .syncPass 1001 true, .openTxg, .enter 1001,
        .startTx (some 6), .beginSync, .syncPass 1002 true, .openTxg, .beginSync,
        .syncPass 1200 true, .syncPass 1200 true])
      (fun st : Reclaim Nat => (¬ ∀ e ∈ st.log, e.Orderly) ∧ (st.maps 0).state = .reclaiming ∧
        (st.maps 0).elems = []) (by decide +kernel)
    exact ⟨st, hreach, fun h => hstray h.log, hlast⟩

end ClusterZfs

import ClusterZfs.Aggre.Maps
import Mathlib.Tactic.Common

/-! What holds of the parked requests and the two maps in every run in which a pass of the
reclaim thread enters only when no END request is parked. -/
namespace ClusterZfs

namespace Reclaim

variable {ε : Type}

def Flagged (st : Reclaim ε) (j : Nat) : Prop :=
  (st.slots j).stateFlag = true ∨ (st.slots j).posFlag = true

/-- An END request is parked in slot `j`. -/
def Ending (st : Reclaim ε) (j : Nat) : Prop :=
  (st.slots j).stateFlag = true ∧ (st.slots j).state = .finish

instance (st : Reclaim ε) (j : Nat) : Decidable (st.Ending j) := by
  unfold Ending
  infer_instance

/-- The first txg whose requests the sync did not look at yet. -/
def first (st : Reclaim ε) : Nat := if st.pass = 0 then st.syncingTxg else st.syncingTxg + 1

def reclaimState (st : Reclaim ε) : MapObjState := (st.maps st.reclaimObj).state

end Reclaim

/- The state and the position that a slot leaves in a map. -/
def ReclaimSlot.newState (slot : ReclaimSlot) (old : MapObjState) : MapObjState :=
  if slot.stateFlag then
    slot.state.mapState
  else old

def ReclaimSlot.newIndex (slot : ReclaimSlot) (old : Nat) : Nat :=
  if slot.posFlag then slot.pos + 1 else old

def ReclaimSlot.events (slot : ReclaimSlot) (i : Fin 2) (old : MapObjState) : List MapEvent :=
  (if slot.stateFlag then
    [.applied slot.mapIndex i old, .moved i old (slot.newState old)] else []) ++
    if slot.posFlag then [.applied slot.posMap i (slot.newState old)] else []

def ReclaimThread.map : ReclaimThread → Option (Fin 2)
  | .idle => none
  | .entered i _ _ _ => some i
  | .looping i _ _ _ => some i

/- The requests parked in the slots are those of txgs from `lo` on, they are for the inactive
map, and an END is the last request of all. -/
structure Settled {ε : Type} (lo : Nat) (st : Reclaim ε) : Prop where
  syncing_lt : st.syncingTxg < st.openTxg
  open_le : st.openTxg ≤ st.syncingTxg + 2
  thread_le : st.threadTxg ≤ st.openTxg
  lo_ge : st.syncingTxg ≤ lo
  lo_le : lo ≤ st.syncingTxg + 1
  filling : (st.maps st.active).state = .filling
  inactive : st.reclaimState ≠ .filling
  window : ∀ j, st.Flagged j → ∃ txg, txg % 4 = j ∧ lo ≤ txg ∧ txg ≤ st.threadTxg
  stateOwner : ∀ j, (st.slots j).stateFlag = true → (st.slots j).mapIndex = st.reclaimObj
  posOwner : ∀ j, (st.slots j).posFlag = true → (st.slots j).posMap = st.reclaimObj
  flagged : ∀ j, st.Flagged j → st.reclaimState = .filled ∨ st.reclaimState = .reclaiming
  running : ∀ i, st.thread.map = some i →
    i = st.reclaimObj ∧ (st.reclaimState = .filled ∨ st.reclaimState = .reclaiming)
  last : ∀ j, st.Ending j → st.threadTxg % 4 = j ∧ st.thread = .idle

theorem otherObj_ne (i : Fin 2) : otherObj i ≠ i := by
  revert i
  decide

theorem otherObj_other (i : Fin 2) : otherObj (otherObj i) = i := by
  revert i
  decide

theorem eq_otherObj {i k : Fin 2} (h : i ≠ k) : i = otherObj k := by
  revert i k
  decide

namespace Reclaim

variable {ε : Type}

/- The state after what the slot of `txg` holds was applied to the inactive map. -/
def applied (st : Reclaim ε) (txg : Nat) (time : UInt64) : Reclaim ε :=
  { st with
    maps := Function.update st.maps st.reclaimObj
      { st.maps st.reclaimObj with
        state := (st.slots (txg % 4)).newState st.reclaimState
        time := time
        processIndex := (st.slots (txg % 4)).newIndex (st.maps st.reclaimObj).processIndex }
    slots := Function.update st.slots (txg % 4)
      { st.slots (txg % 4) with stateFlag := false, posFlag := false }
    log := st.log ++ (st.slots (txg % 4)).events st.reclaimObj st.reclaimState }

/- The state after a transaction of the thread in `txg` that left `slot`. -/
def parked (st : Reclaim ε) (txg : Nat) (slot : ReclaimSlot) (thread : ReclaimThread)
    (handled : Nat → List ElemState) (maplist freeBplist : Nat → List ε) : Reclaim ε :=
  { st with
    slots := Function.update st.slots (txg % 4) slot
    threadTxg := txg
    thread, handled, maplist, freeBplist }

end Reclaim

section Requests

variable {ε : Type}

theorem applyRequests_eq (txg : Nat) (st : Reclaim ε) :
    ∃ time, applyRequests txg st = st.applied txg time := by
  have hslot : ∀ s : ReclaimSlot, s.stateFlag = false → s.posFlag = false →
      { s with stateFlag := false, posFlag := false } = s := by
    intro s h1 h2
    cases s
    cases h1
    cases h2
    rfl
  have hnew : ∀ (s : ReclaimSlot) old, s.newState old =
      if s.stateFlag then s.state.mapState else old := fun _ _ => rfl
  cases hs : (st.slots (txg % 4)).stateFlag <;> cases hp : (st.slots (txg % 4)).posFlag
  · refine ⟨(st.maps st.reclaimObj).time, ?_⟩
    simp [applyRequests, applyState, applyPos, hs, hp, hnew, ReclaimSlot.newIndex,
      ReclaimSlot.events, Reclaim.applied, Reclaim.reclaimState, hslot, Function.update_eq_self]
  · refine ⟨(st.maps st.reclaimObj).time, ?_⟩
    simp [applyRequests, applyState, applyPos, hs, hp, hnew, ReclaimSlot.newIndex,
      ReclaimSlot.events, Reclaim.applied, Reclaim.reclaimState, Reclaim.setMap, Reclaim.setSlot,
      Reclaim.logged]
  all_goals
    refine ⟨(st.slots (txg % 4)).curTime, ?_⟩
    simp [applyRequests, applyState, applyPos, hs, hp, hnew, ReclaimSlot.newIndex,
      ReclaimSlot.events, Reclaim.applied, Reclaim.reclaimState, Reclaim.setMap, Reclaim.setSlot,
      Reclaim.logged, Reclaim.reclaimObj]

variable {txg : Nat} {st : Reclaim ε} {time : UInt64}

theorem applied_reclaimState :
    (st.applied txg time).reclaimState = (st.slots (txg % 4)).newState st.reclaimState :=
  congrArg AggreMap.state (Function.update_self st.reclaimObj _ st.maps)

theorem applied_maps_active : (st.applied txg time).maps st.active = st.maps st.active :=
  Function.update_of_ne (otherObj_ne st.active).symm _ _

/- The slot is empty afterwards, and the others are as they were. -/
theorem applied_slot {j : Nat} (hj : (st.applied txg time).Flagged j) :
    j ≠ txg % 4 ∧ (st.applied txg time).slots j = st.slots j := by
  have hne : j ≠ txg % 4 := by
    rintro rfl
    simp [Reclaim.Flagged, Reclaim.applied] at hj
  exact ⟨hne, Function.update_of_ne hne _ _⟩

variable (txg st)

section

variable (now : UInt64)
include now

theorem freeRange_maps_reclaimObj :
    (reclaimMapFreeRange now txg st.reclaimObj st).maps
      (reclaimMapFreeRange now txg st.reclaimObj st).reclaimObj = ⟨.clear, [], 0, 0, now, txg⟩ :=
  Function.update_self st.reclaimObj _ st.maps

@[simp] theorem freeRange_reclaimState :
    (reclaimMapFreeRange now txg st.reclaimObj st).reclaimState = .clear :=
  congrArg AggreMap.state (freeRange_maps_reclaimObj txg st now)

theorem freeRange_maps_active :
    (reclaimMapFreeRange now txg st.reclaimObj st).maps st.active = st.maps st.active :=
  Function.update_of_ne (otherObj_ne st.active).symm _ _

@[simp] theorem switchMaps_reclaimObj :
    (switchMaps now st).reclaimObj = st.active := otherObj_other st.active

theorem switchMaps_active_map :
    ((switchMaps now st).maps (switchMaps now st).active).state = .filling := by
  have hne : st.reclaimObj ≠ st.active := otherObj_ne st.active
  simp [switchMaps, Reclaim.setMap, Function.update_of_ne hne]

theorem switchMaps_reclaimState :
    (switchMaps now st).reclaimState = .filled := by
  rw [Reclaim.reclaimState, switchMaps_reclaimObj]
  simp [switchMaps, Reclaim.setMap]

end

theorem enqueue_reclaimMap :
    (enqueueMaplist txg st).maps (enqueueMaplist txg st).reclaimObj = st.maps st.reclaimObj :=
  Function.update_of_ne (otherObj_ne st.active) _ _

theorem enqueue_reclaimState : (enqueueMaplist txg st).reclaimState = st.reclaimState :=
  congrArg AggreMap.state (enqueue_reclaimMap txg st)

end Requests

section Settled

variable {ε : Type} {lo : Nat} {st st' : Reclaim ε}

section

variable (h : Settled lo st)
include h

theorem Settled.not_ending {i : Fin 2} (hi : st.thread.map = some i) (j : Nat) :
    ¬ st.Ending j := by
  intro hj
  rw [(h.last j hj).2] at hi
  cases hi

theorem Settled.park {i : Fin 2} (hi : st.thread.map = some i) {txg : Nat}
    (assign : st.Assignable txg) {slot : ReclaimSlot} {thread : ReclaimThread}
    {handled : Nat → List ElemState} {maplist freeBplist : Nat → List ε}
    (stateOwner : slot.stateFlag = true → slot.mapIndex = i)
    (posOwner : slot.posFlag = true → slot.posMap = i)
    (running : thread.map = some i ∨ thread = .idle)
    (last : slot.stateFlag = true → slot.state = .finish → thread = .idle) :
    Settled lo (st.parked txg slot thread handled maplist freeBplist) := by
  obtain ⟨hmap, hstate⟩ := h.running i hi
  obtain ⟨hlow, hthread, hopen⟩ := assign
  have hlo := h.lo_le
  refine { h with thread_le := hopen, window := ?_, stateOwner := ?_, posOwner := ?_,
                  flagged := fun _ _ => hstate, running := ?_, last := ?_ }
  · refine (Function.forall_update_iff st.slots (p := fun j (s : ReclaimSlot) =>
      s.stateFlag = true ∨ s.posFlag = true → ∃ t, t % 4 = j ∧ lo ≤ t ∧ t ≤ txg)).mpr
      ⟨fun _ => ⟨txg, rfl, by omega, Nat.le_refl _⟩, fun j _ hj => ?_⟩
    obtain ⟨t, h1, h2, h3⟩ := h.window j hj
    exact ⟨t, h1, h2, Nat.le_trans h3 hthread⟩
  · exact (Function.forall_update_iff st.slots (p := fun _ (s : ReclaimSlot) =>
      s.stateFlag = true → s.mapIndex = st.reclaimObj)).mpr
      ⟨fun hj => (stateOwner hj).trans hmap, fun j _ => h.stateOwner j⟩
  · exact (Function.forall_update_iff st.slots (p := fun _ (s : ReclaimSlot) =>
      s.posFlag = true → s.posMap = st.reclaimObj)).mpr
      ⟨fun hj => (posOwner hj).trans hmap, fun j _ => h.posOwner j⟩
  · intro i' hi'
    have hthread' : thread.map = some i' := hi'
    rcases running with ht | ht <;> rw [ht] at hthread' <;> cases hthread'
    exact ⟨hmap, hstate⟩
  · exact (Function.forall_update_iff st.slots (p := fun j (s : ReclaimSlot) =>
      s.stateFlag = true ∧ s.state = .finish → txg % 4 = j ∧ thread = .idle)).mpr
      ⟨fun hj => ⟨rfl, last hj.1 hj.2⟩, fun j _ hj => absurd hj (h.not_ending hi j)⟩

theorem Settled.move {th : ReclaimThread}
    (running : ∀ i, th.map = some i →
      i = st.reclaimObj ∧ (st.reclaimState = .filled ∨ st.reclaimState = .reclaiming))
    (last : ∀ j, st.Ending j → th = .idle) : Settled lo { st with thread := th } :=
  { h with
    running := running
    last := fun j hj => ⟨(h.last j hj).1, last j hj⟩ }

theorem Settled.quiet
    (state : ¬ (st.reclaimState = .filled ∨ st.reclaimState = .reclaiming)) :
    (∀ j, ¬ st.Flagged j) ∧ st.thread = .idle := by
  refine ⟨fun j hj => state (h.flagged j hj), ?_⟩
  cases hth : st.thread with
  | idle => rfl
  | entered i | looping i => exact absurd (h.running i (by rw [hth]; rfl)).2 state

/-- The slot of the syncing txg holds requests only before the sync looked at it, and an END
in it is alone. -/
theorem Settled.alone (ending : st.Ending (st.syncingTxg % 4)) :
    st.thread = .idle ∧ ∀ j, st.Flagged j → j = st.syncingTxg % 4 := by
  obtain ⟨hlast, hidle⟩ := h.last _ ending
  refine ⟨hidle, ?_⟩
  intro j hj
  obtain ⟨t, h1, h2, h3⟩ := h.window j hj
  have := h.thread_le
  have := h.open_le
  have := h.lo_ge
  omega

theorem Settled.skip (state : st.reclaimState = .reclaimed) :
    Settled (st.syncingTxg + 1) st :=
  { h with
    lo_ge := Nat.le_succ _
    lo_le := Nat.le_refl _
    window := fun j hj => absurd hj ((h.quiet (by rw [state]; decide)).1 j) }

end

theorem newState_ne_filling {slot : ReclaimSlot} {old : MapObjState} (h : old ≠ .filling) :
    slot.newState old ≠ .filling := by
  unfold ReclaimSlot.newState
  split
  · cases slot.state <;> decide
  · exact h

section

variable (h : Settled lo st)
include h

theorem Settled.apply (time : UInt64) :
    Settled (st.syncingTxg + 1) (st.applied st.syncingTxg time) := by
  have hkept : ∀ j, (st.applied st.syncingTxg time).Flagged j → st.Flagged j := by
    intro j hj
    have hslot := (applied_slot hj).2
    unfold Reclaim.Flagged at hj ⊢
    rwa [hslot] at hj
  -- a map that goes on being reclaimed is RECLAIMING after any request but END
  have hgoing : ¬ st.Ending (st.syncingTxg % 4) →
      st.reclaimState = .filled ∨ st.reclaimState = .reclaiming →
      (st.applied st.syncingTxg time).reclaimState = .filled ∨
        (st.applied st.syncingTxg time).reclaimState = .reclaiming := by
    intro hend hstate
    rw [applied_reclaimState]
    unfold ReclaimSlot.newState
    split
    · rename_i hflag
      cases hm : (st.slots (st.syncingTxg % 4)).state with
      | start => exact Or.inr rfl
      | finish => exact absurd ⟨hflag, hm⟩ hend
    · exact hstate
  refine { h with lo_ge := Nat.le_succ _, lo_le := Nat.le_refl _, filling := ?_, inactive := ?_,
                  window := ?_, stateOwner := ?_, posOwner := ?_, flagged := ?_, running := ?_,
                  last := ?_ }
  · exact (congrArg AggreMap.state applied_maps_active).trans h.filling
  · rw [applied_reclaimState]
    exact newState_ne_filling h.inactive
  · intro j hj
    obtain ⟨t, h1, h2, h3⟩ := h.window j (hkept j hj)
    have hne := (applied_slot hj).1
    have hge := h.lo_ge
    exact ⟨t, h1, by omega, h3⟩
  · intro j hj
    have hslot := (applied_slot (Or.inl hj)).2
    rw [hslot] at hj ⊢
    exact h.stateOwner j hj
  · intro j hj
    have hslot := (applied_slot (Or.inr hj)).2
    rw [hslot] at hj ⊢
    exact h.posOwner j hj
  · intro j hj
    refine hgoing ?_ (h.flagged j (hkept j hj))
    exact fun hend => (applied_slot hj).1 ((h.alone hend).2 j (hkept j hj))
  · intro i hi
    exact ⟨(h.running i hi).1, hgoing (h.not_ending hi _) (h.running i hi).2⟩
  · intro j hj
    unfold Reclaim.Ending at hj
    rw [(applied_slot (Or.inl hj.1)).2] at hj
    exact h.last j hj

theorem Settled.clear (now : UInt64) (txg : Nat)
    (state : st.reclaimState = .reclaimed) :
    Settled lo (reclaimMapFreeRange now txg st.reclaimObj st) := by
  have hnone := (h.quiet (by rw [state]; decide)).1
  refine { h with filling := ?_, inactive := ?_, flagged := fun j hj => absurd hj (hnone j),
                  running := fun i hi => absurd (h.running i hi).2 (by rw [state]; decide) }
  · exact (congrArg AggreMap.state (freeRange_maps_active txg st now)).trans h.filling
  · rw [freeRange_reclaimState]
    decide

omit h in
theorem needSwitch_clear {tun : AggreTunables} {now : UInt64} {txg : Nat}
    (h : needSwitch tun now txg st = true) : st.reclaimState = .clear := by
  simp only [needSwitch, Bool.and_eq_true, beq_iff_eq] at h
  exact h.1.1.1.2

theorem Settled.switch (now : UInt64) (state : st.reclaimState = .clear) :
    Settled lo (switchMaps now st) := by
  have hnone := (h.quiet (by rw [state]; decide)).1
  refine { h with filling := switchMaps_active_map st now, inactive := ?_,
                  stateOwner := fun j hj => absurd (Or.inl hj) (hnone j),
                  posOwner := fun j hj => absurd (Or.inr hj) (hnone j),
                  flagged := fun j hj => absurd hj (hnone j),
                  running := fun i hi => absurd (h.running i hi).2 (by rw [state]; decide) }
  rw [switchMaps_reclaimState]
  decide

theorem Settled.enqueue (txg : Nat) : Settled lo (enqueueMaplist txg st) := by
  have hstate := enqueue_reclaimState txg st
  refine { h with filling := ?_, inactive := ?_, flagged := ?_, running := ?_ }
  · rw [← h.filling]
    change ((enqueueMaplist txg st).maps st.active).state = _
    simp [enqueueMaplist, Reclaim.setMap]
  · rw [hstate]
    exact h.inactive
  · rw [hstate]
    exact h.flagged
  · rw [hstate]
    exact h.running

omit h in
/-- A rule for the invariants of sync passes: each of the changes a pass can make keeps `I`, and
the pass is done with the requests of its txg. -/
theorem syncPass_rule (lo : Nat) {I : Nat → Reclaim ε → Prop} {now : UInt64}
    (frees : ∀ lo st, I lo st → I lo (spaSyncFrees st.syncingTxg { st with pass := st.pass + 1 }))
    (skip : ∀ lo st, I lo st → st.reclaimState = .reclaimed → I (st.syncingTxg + 1) st)
    (apply : ∀ lo st time, I lo st → I (st.syncingTxg + 1) (st.applied st.syncingTxg time))
    (clear : ∀ lo st txg, I lo st → st.reclaimState = .reclaimed →
      I lo (reclaimMapFreeRange now txg st.reclaimObj st))
    (switch : ∀ lo st, I lo st → st.reclaimState = .clear → I lo (switchMaps now st))
    (enqueue : ∀ lo st txg, I lo st → I lo (enqueueMaplist txg st))
    (h : I lo st) (tun : AggreTunables) (reclaimStart : Bool) :
    I (st.syncingTxg + 1) (syncPass tun now reclaimStart st) := by
  have hfree : ∀ lo st txg, I lo st → I lo (freeRange tun now txg st) := by
    intro lo st txg h
    simp only [freeRange]
    split
    · rename_i hcase
      exact clear lo st txg h hcase.1
    · exact h
  have hcurrent : ∀ lo st txg, I lo st → I lo (raidzAggreMapCurrent tun now txg st) := by
    intro lo st txg h
    unfold raidzAggreMapCurrent
    split
    · exact h
    split
    · rename_i _ hswitch
      exact switch lo st h (needSwitch_clear hswitch)
    · exact h
  have hupdate : ∀ st, I lo st →
      I (st.syncingTxg + 1) (updateReclaimMap tun now st.syncingTxg st) := by
    intro st h
    unfold updateReclaimMap
    split
    · rename_i hstate
      exact hfree _ _ _ (skip lo st h hstate)
    · obtain ⟨time, heq⟩ := applyRequests_eq st.syncingTxg st
      rw [heq]
      exact hfree _ _ _ (apply lo st time h)
  have hpass := hupdate _ (frees lo st h)
  unfold syncPass
  split
  · exact enqueue _ _ _ (hcurrent _ _ _ hpass)
  · exact hpass

theorem Settled.frees :
    Settled lo (spaSyncFrees st.syncingTxg { st with pass := st.pass + 1 }) := { h with }

theorem Settled.syncPass (tun : AggreTunables) (now : UInt64) (reclaimStart : Bool) :
    Settled (st.syncingTxg + 1) (syncPass tun now reclaimStart st) :=
  syncPass_rule lo (fun _ _ => Settled.frees) (fun _ _ => Settled.skip)
    (fun _ _ time h => h.apply time) (fun _ _ txg h => h.clear now txg)
    (fun _ _ h => h.switch now) (fun _ _ txg h => h.enqueue txg) h tun reclaimStart

end

end Settled

/-- A pool at the start of a run: one map is FILLING, the other CLEAR, and the thread did not
do anything yet. -/
structure Reclaim.Initial {ε : Type} (st : Reclaim ε) : Prop where
  syncing_lt : st.syncingTxg < st.openTxg
  open_le : st.openTxg ≤ st.syncingTxg + 2
  thread_le : st.threadTxg ≤ st.openTxg
  filling : (st.maps st.active).state = .filling
  clear : st.reclaimState = .clear
  slots : ∀ j, ¬ st.Flagged j
  thread : st.thread = .idle
  processIndex : ∀ i, (st.maps i).processIndex = 0
  handled : ∀ k, st.handled k = []
  log : st.log = []

theorem Reclaim.Initial.settled {ε : Type} {st : Reclaim ε} (h : st.Initial) :
    Settled st.first st where
  syncing_lt := h.syncing_lt
  open_le := h.open_le
  thread_le := h.thread_le
  lo_ge := by
    unfold Reclaim.first
    split <;> omega
  lo_le := by
    unfold Reclaim.first
    split <;> omega
  filling := h.filling
  inactive := by
    rw [h.clear]
    decide
  window j hj := absurd hj (h.slots j)
  stateOwner j hj := absurd (Or.inl hj) (h.slots j)
  posOwner j hj := absurd (Or.inr hj) (h.slots j)
  flagged j hj := absurd hj (h.slots j)
  running i hi := by
    rw [h.thread] at hi
    cases hi
  last j hj := absurd (Or.inl hj.1) (h.slots j)

/-- The maps as `raidz_aggre_create_map_obj` leaves them. -/
def Reclaim.fresh (ε : Type) : Reclaim ε where
  maps i := ⟨if i = 0 then .filling else .clear, [], 0, 0, 0, 0⟩
  active := 0
  slots _ := .empty
  maplist _ := []
  freeBplist _ := []
  thread := .idle
  threadTxg := 0
  openTxg := 2
  syncingTxg := 1
  pass := 1
  handled _ := []
  log := []

theorem Reclaim.fresh_initial (ε : Type) : (Reclaim.fresh ε).Initial where
  syncing_lt := Nat.lt_succ_self 1
  open_le := Nat.le_succ 2
  thread_le := Nat.zero_le 2
  filling := rfl
  clear := rfl
  slots j hj := by
    rcases hj with hj | hj <;> cases hj
  thread := rfl
  processIndex _ := rfl
  handled _ := rfl
  log := rfl

/- One record is enough to fill a map, and the timeouts are the default ones. -/
def smallMaps : AggreTunables := ⟨1, 300, 120⟩

/- A stripe is written in txg 2 and its map is FILLED in txg 3. -/
def fillFirstMap : List (ReclaimAction Nat) :=
  [.openTxg, .beginSync, .stripe 7, .syncPass 1000 true, .openTxg, .beginSync,
    .syncPass 1000 true]

/-- A pass enters only when no END request is parked. -/
def EntersAfterEnd {ε : Type} (st : Reclaim ε) : ReclaimAction ε → Prop
  | .enter _ => ∀ j, j < 4 → ¬ st.Ending j
  | _ => True

section Step

variable {ε : Type} {tun : AggreTunables} {lo : Nat} {st st' : Reclaim ε} (now : UInt64) (txg : Nat)
  (map : Fin 2) (pos : Nat) (state : ElemState)

theorem Settled.enter (h : Settled lo st) (now : UInt64) (ok : ∀ j, j < 4 → ¬ st.Ending j) :
    Settled lo (st.enter now) := by
  simp only [Reclaim.enter]
  split
  · rename_i hstate
    refine h.move ?_ ?_
    · rintro i hi
      cases hi
      exact ⟨rfl, hstate⟩
    · intro j hj
      obtain ⟨t, ht, _⟩ := h.window j (Or.inl hj.1)
      exact absurd hj (ok j (by omega))
  · exact h

theorem first_passed (h : 0 < st.pass) : st.first = st.syncingTxg + 1 :=
  if_neg (Nat.pos_iff_ne_zero.mp h)

theorem enter_first : (st.enter now).first = st.first := by
  simp only [Reclaim.enter]
  split <;> rfl

theorem freeRange_first :
    (freeRange tun now txg st).first = st.first := by
  simp only [freeRange]
  split <;> rfl

theorem updateReclaimMap_first :
    (updateReclaimMap tun now txg st).first = st.first := by
  obtain ⟨_, heq⟩ := applyRequests_eq txg st
  unfold updateReclaimMap
  split
  · exact freeRange_first now txg
  · rw [freeRange_first, heq]
    rfl

theorem mapCurrent_first :
    (raidzAggreMapCurrent tun now txg st).first = st.first := by
  unfold raidzAggreMapCurrent
  split
  · rfl
  split <;> rfl

theorem syncPass_first (reclaimStart : Bool) :
    (syncPass tun now reclaimStart st).first = st.syncingTxg + 1 := by
  have hpass : (spaSyncFrees st.syncingTxg { st with pass := st.pass + 1 }).first =
      st.syncingTxg + 1 := first_passed (Nat.succ_pos _)
  unfold syncPass
  split
  · have hcur : ∀ (u : Reclaim ε) txg, (enqueueMaplist txg u).first = u.first := fun _ _ => rfl
    rw [hcur, mapCurrent_first, updateReclaimMap_first, hpass]
  · rw [updateReclaimMap_first, hpass]

theorem Settled.openTxg (h : Settled lo st) (room : st.openTxg < st.syncingTxg + 2) :
    Settled lo { st with openTxg := st.openTxg + 1 } :=
  { h with
    syncing_lt := Nat.lt_succ_of_lt h.syncing_lt
    open_le := room
    thread_le := Nat.le_succ_of_le h.thread_le }

theorem Settled.beginSync (h : Settled (st.syncingTxg + 1) st)
    (closed : st.syncingTxg + 1 < st.openTxg) :
    Settled (st.syncingTxg + 1) { st with syncingTxg := st.syncingTxg + 1, pass := 0 } :=
  { h with
    syncing_lt := closed
    open_le := Nat.le_succ_of_le h.open_le
    lo_ge := Nat.le_refl _
    lo_le := Nat.le_succ _ }

variable [Inhabited ε]

/- A record whose outcome is not an error is parked with its position. -/
theorem processElem_parked (st : Reclaim ε) (succeeds : state ≠ .err) (thread : ReclaimThread) :
    ∃ maplist freeBplist, { st.processElem map pos state txg with thread } =
      st.parked txg { st.slots (txg % 4) with pos := pos, posFlag := true, posMap := map } thread
        (Function.update st.handled pos (st.handled pos ++ [state])) maplist freeBplist := by
  cases state with
  | err => exact absurd rfl succeeds
  | free | noChange | rewrite => exact ⟨_, _, rfl⟩

theorem Settled.processElem (h : Settled lo st) {map : Fin 2} {pos i avail : Nat}
    (hth : st.thread = .looping map pos i avail) (state : ElemState) {txg : Nat}
    (assign : st.Assignable txg) (th : ReclaimThread) (hmap : th.map = some map) :
    Settled lo { st.processElem map pos state txg with thread := th } := by
  have hi : st.thread.map = some map := congrArg ReclaimThread.map hth
  have hrun := h.running map hi
  by_cases herr : state = .err
  · subst herr
    refine h.move ?_ (fun j hj => absurd hj (h.not_ending hi j))
    intro i' hi'
    rw [hmap] at hi'
    cases hi'
    exact hrun
  · obtain ⟨_, _, heq⟩ := processElem_parked txg map pos state st herr th
    rw [heq]
    refine h.park hi assign ?_ (fun _ => rfl) (Or.inl hmap) ?_
    · exact fun hflag => (h.stateOwner _ hflag).trans hrun.1.symm
    · exact fun h1 h2 => absurd ⟨h1, h2⟩ (h.not_ending hi (txg % 4))

theorem processElem_first (txg : Nat) :
    (st.processElem map pos state txg).first = st.first := by
  cases state <;> rfl

theorem processElem_first_thread (txg : Nat)
    (thread : ReclaimThread) :
    Reclaim.first { st.processElem map pos state txg with thread } = st.first :=
  processElem_first map pos state txg

theorem processElem_log (txg : Nat) :
    (st.processElem map pos state txg).log = st.log := by
  cases state <;> rfl

theorem Settled.step {a : ReclaimAction ε} (h : Settled st.first st) (ok : EntersAfterEnd st a)
    (hstep : st.step tun a = some st') : Settled st'.first st' := by
  cases Reclaim.step_cases hstep with
  | enter _ =>
    rw [enter_first]
    exact h.enter _ ok
  | startFails | stop | endFails => exact h.move (by simp [ReclaimThread.map]) (fun _ _ => rfl)
  | start hth assign =>
    have hi : st.thread.map = some _ := congrArg ReclaimThread.map hth
    refine h.park hi assign (fun _ => rfl) ?_ (Or.inl rfl) (fun _ hfin => by cases hfin)
    exact fun hflag => (h.posOwner _ hflag).trans (h.running _ hi).1.symm
  | processFails hth _ =>
    refine h.move ?_ (fun j hj => absurd hj (h.not_ending (congrArg ReclaimThread.map hth) j))
    intro i hi
    cases hi
    exact h.running _ (congrArg ReclaimThread.map hth)
  | @process map pos i avail txg state hth _ assign =>
    have hnext := h.processElem hth state assign (.looping map (pos + 1) (i + 1) avail) rfl
    rwa [← processElem_first map pos state txg] at hnext
  | finish hth _ assign =>
    have hi : st.thread.map = some _ := congrArg ReclaimThread.map hth
    refine h.park hi assign (fun _ => rfl) ?_ (Or.inr rfl) (fun _ _ => rfl)
    exact fun hflag => (h.posOwner _ hflag).trans (h.running _ hi).1.symm
  | openTxg room => exact h.openTxg room
  | beginSync passed closed =>
    rw [first_passed passed] at h
    exact h.beginSync closed
  | stripe => exact { h with }
  | syncPass =>
    rw [syncPass_first]
    exact h.syncPass tun _ _

end Step

end ClusterZfs

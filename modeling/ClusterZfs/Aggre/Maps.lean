import ClusterZfs.Lib.Runs
import Mathlib.Algebra.GroupWithZero.Nat
import Mathlib.Logic.Function.Basic

/-! The two aggregation map objects of a pool, the requests that the reclaim thread parks for
them in transaction groups, and the sync passes that apply the requests. `ε` is the type of
the map's records. -/
namespace ClusterZfs

/- `AGGRE_MAP_OBJ_CLEAR` to `AGGRE_MAP_OBJ_RECLAIMED`. -/
inductive MapObjState where
  | clear
  | filling
  | filled
  | reclaiming
  | reclaimed
  deriving DecidableEq, Repr

/- `MAP_RECLAIM_START` and `MAP_RECLAIM_END`. -/
inductive ReclaimMark where
  | start
  | finish
  deriving DecidableEq, Repr

/- The state that a request puts a map in. -/
def ReclaimMark.mapState : ReclaimMark → MapObjState
  | .start => .reclaiming
  | .finish => .reclaimed

/- `ELEM_STATE_*`, what `raidz_aggre_process_elem` finds for one record. -/
inductive ElemState where
  | err
  | free
  | noChange
  | rewrite
  deriving DecidableEq, Repr

/- A map object with its header. `total_count` is the length of `elems`. -/
structure AggreMap (ε : Type) where
  state : MapObjState
  elems : List ε
  availCount : Nat
  processIndex : Nat
  time : UInt64
  freeTxg : Nat

/- One entry of `spa_aggre_reclaim_state`. The source keeps no map index for a position:
`posMap` is the map of the pass that recorded it, and no function below reads it. -/
structure ReclaimSlot where
  mapIndex : Fin 2
  state : ReclaimMark
  curTime : UInt64
  stateFlag : Bool
  pos : Nat
  posFlag : Bool
  posMap : Fin 2

instance neZeroTwo : NeZero 2 := ⟨nofun⟩

def ReclaimSlot.empty : ReclaimSlot := ⟨0, .start, 0, false, 0, false, 0⟩

structure AggreTunables where
  reclaimCount : Nat
  filledTimeout : UInt64
  clearedTimeout : UInt64

/- Where the reclaim thread stands in `raidz_check_and_reclaim_space`. -/
inductive ReclaimThread where
  | idle
  | entered (map : Fin 2) (pos avail : Nat) (begun : UInt64)
  | looping (map : Fin 2) (pos i avail : Nat)
  deriving DecidableEq

/- What happened to a map, for the statements about runs. -/
inductive MapEvent where
  | moved (map : Fin 2) (old new : MapObjState)
  | applied (recorded map : Fin 2) (state : MapObjState)

/- The pool's part in reclaim. `openTxg` is the open txg, `syncingTxg` the last one that began
to sync, `pass` its sync passes so far, `threadTxg` the last txg the thread was assigned.
`handled` (per position of the map that is not active) and `log` only record history. -/
structure Reclaim (ε : Type) where
  maps : Fin 2 → AggreMap ε
  active : Fin 2
  slots : Nat → ReclaimSlot
  maplist : Nat → List ε
  freeBplist : Nat → List ε
  thread : ReclaimThread
  threadTxg : Nat
  openTxg : Nat
  syncingTxg : Nat
  pass : Nat
  handled : Nat → List ElemState
  log : List MapEvent

def otherObj (i : Fin 2) : Fin 2 := if i = 0 then 1 else 0

namespace Reclaim

variable {ε : Type}

def reclaimObj (st : Reclaim ε) : Fin 2 := otherObj st.active

def setMap (st : Reclaim ε) (i : Fin 2) (m : AggreMap ε) : Reclaim ε :=
  { st with maps := Function.update st.maps i m }

def setSlot (st : Reclaim ε) (txg : Nat) (slot : ReclaimSlot) : Reclaim ε :=
  { st with slots := Function.update st.slots (txg % 4) slot }

def logged (st : Reclaim ε) (e : MapEvent) : Reclaim ε := { st with log := st.log ++ [e] }

end Reclaim

section Source

variable {ε : Type}

def setReclaimState (mapIndex : Fin 2) (state : ReclaimMark) (curTime : UInt64) (txg : Nat)
    (st : Reclaim ε) : Reclaim ε :=
  st.setSlot txg
    { st.slots (txg % 4) with mapIndex := mapIndex, state := state, curTime := curTime,
                              stateFlag := true }

def setReclaimPos (map : Fin 2) (pos txg : Nat) (st : Reclaim ε) : Reclaim ε :=
  st.setSlot txg { st.slots (txg % 4) with pos := pos, posFlag := true, posMap := map }

def raidzAggreFreeBp (elem : ε) (txg : Nat) (st : Reclaim ε) : Reclaim ε :=
  { st with
    freeBplist := Function.update st.freeBplist (txg % 4) (st.freeBplist (txg % 4) ++ [elem]) }

def appendMaplist (elem : ε) (txg : Nat) (st : Reclaim ε) : Reclaim ε :=
  { st with maplist := Function.update st.maplist (txg % 4) (st.maplist (txg % 4) ++ [elem]) }

def reclaimMapFreeRange (now : UInt64) (txg : Nat) (i : Fin 2) (st : Reclaim ε) : Reclaim ε :=
  { (st.logged (.moved i (st.maps i).state .clear)).setMap i
      { state := .clear, elems := [], availCount := 0, processIndex := 0, time := now,
        freeTxg := txg } with
    handled := fun _ => [] }

/- The two halves of the locked section of `update_reclaim_map`. -/
def applyState (txg : Nat) (st : Reclaim ε) : Reclaim ε :=
  let i := st.reclaimObj
  let slot := st.slots (txg % 4)
  let map := st.maps i
  if slot.stateFlag then
    let new := slot.state.mapState
    (((st.logged (.applied slot.mapIndex i map.state)).logged (.moved i map.state new)).setMap i
      { map with state := new, time := slot.curTime }).setSlot txg { slot with stateFlag := false }
  else st

def applyPos (txg : Nat) (st : Reclaim ε) : Reclaim ε :=
  let i := st.reclaimObj
  let slot := st.slots (txg % 4)
  let map := st.maps i
  if slot.posFlag then
    ((st.logged (.applied slot.posMap i map.state)).setMap i
      { map with processIndex := slot.pos + 1 }).setSlot txg { slot with posFlag := false }
  else st

def applyRequests (txg : Nat) (st : Reclaim ε) : Reclaim ε := applyPos txg (applyState txg st)

def freeRange (tun : AggreTunables) (now : UInt64) (txg : Nat) (st : Reclaim ε) : Reclaim ε :=
  let map := st.maps st.reclaimObj
  if map.state = .reclaimed ∧ now - map.time > tun.clearedTimeout then
    reclaimMapFreeRange now txg st.reclaimObj st
  else st

def updateReclaimMap (tun : AggreTunables) (now : UInt64) (txg : Nat) (st : Reclaim ε) :
    Reclaim ε :=
  -- a map that is RECLAIMED skips the requests, and leaves them in their slot
  if (st.maps st.reclaimObj).state = .reclaimed then freeRange tun now txg st
  else freeRange tun now txg (applyRequests txg st)

def needSwitch (tun : AggreTunables) (now : UInt64) (txg : Nat) (st : Reclaim ε) : Bool :=
  let mapfilling := st.maps st.active
  let mapreclaimed := st.maps st.reclaimObj
  !(decide (mapfilling.availCount < tun.reclaimCount)) && mapreclaimed.state == .clear &&
    mapreclaimed.freeTxg != txg && !(decide (now - mapfilling.time < tun.filledTimeout)) &&
    !(decide (now - mapreclaimed.time < tun.clearedTimeout))

def switchMaps (now : UInt64) (st : Reclaim ε) : Reclaim ε :=
  let filling := st.active
  let reclaimed := st.reclaimObj
  let moved := (st.logged (.moved reclaimed (st.maps reclaimed).state .filling)).logged
    (.moved filling (st.maps filling).state .filled)
  { (moved.setMap reclaimed { st.maps reclaimed with state := .filling, time := now,
                                                     freeTxg := 0 }).setMap filling
      { st.maps filling with state := .filled, time := now } with
    active := reclaimed
    handled := fun _ => [] }

/- `raidz_aggre_map_current` in a pool with `SPACE_RECLAIM_START`; the map to fill is the active
one afterwards. -/
def raidzAggreMapCurrent (tun : AggreTunables) (now : UInt64) (txg : Nat) (st : Reclaim ε) :
    Reclaim ε :=
  if st.pass > 1 then st
  else if needSwitch tun now txg st then switchMaps now st
  else st

/- `raidz_aggre_elem_enqueue_cb` over the list of a txg. -/
def enqueueMaplist (txg : Nat) (st : Reclaim ε) : Reclaim ε :=
  let map := st.maps st.active
  { st.setMap st.active
      { map with elems := map.elems ++ st.maplist (txg % 4)
                 availCount := map.availCount + (st.maplist (txg % 4)).length } with
    maplist := Function.update st.maplist (txg % 4) [] }

/- `spa_sync_frees` on the list of a txg. -/
def spaSyncFrees (txg : Nat) (st : Reclaim ε) : Reclaim ε :=
  { st with freeBplist := Function.update st.freeBplist (txg % 4) [] }

/- The aggregation part of one pass of `spa_sync`. -/
def syncPass (tun : AggreTunables) (now : UInt64) (reclaimStart : Bool) (st : Reclaim ε) :
    Reclaim ε :=
  let st := spaSyncFrees st.syncingTxg { st with pass := st.pass + 1 }
  let st := updateReclaimMap tun now st.syncingTxg st
  if reclaimStart then enqueueMaplist st.syncingTxg (raidzAggreMapCurrent tun now st.syncingTxg st)
  else st

end Source

/- The choices of a run. A transaction is assigned a txg, or its assignment fails (`none`). `stop`
leaves the loop early: the thread is stopped or paused, or a block of the map cannot be held. -/
inductive ReclaimAction (ε : Type) where
  | enter (now : UInt64)
  | startTx (txg : Option Nat)
  | stop
  | process (state : ElemState) (txg : Option Nat)
  | endTx (now : UInt64) (txg : Option Nat)
  | openTxg
  | beginSync
  | stripe (elem : ε)
  | syncPass (now : UInt64) (reclaimStart : Bool)

namespace Reclaim

variable {ε : Type}

/- A transaction of the thread can be in a txg that did not begin to sync, and not before the
thread's earlier ones. -/
def Assignable (st : Reclaim ε) (txg : Nat) : Prop :=
  st.syncingTxg < txg ∧ st.threadTxg ≤ txg ∧ txg ≤ st.openTxg

instance (st : Reclaim ε) (txg : Nat) : Decidable (st.Assignable txg) := by
  unfold Assignable
  infer_instance

def recordHandled (st : Reclaim ε) (pos : Nat) (state : ElemState) : Reclaim ε :=
  { st with handled := Function.update st.handled pos (st.handled pos ++ [state]) }

/- The part of `raidz_aggre_process_elem` behind the classification of the record. -/
def processElem [Inhabited ε] (st : Reclaim ε) (map : Fin 2) (pos : Nat) (state : ElemState)
    (txg : Nat) : Reclaim ε :=
  let elem := (st.maps map).elems.getD pos default
  match state with
  | .err => st
  | .noChange =>
    { setReclaimPos map pos txg (appendMaplist elem txg (st.recordHandled pos state)) with
      threadTxg := txg }
  | _ =>
    { setReclaimPos map pos txg (raidzAggreFreeBp elem txg (st.recordHandled pos state)) with
      threadTxg := txg }

def enter (st : Reclaim ε) (now : UInt64) : Reclaim ε :=
  let i := st.reclaimObj
  let map := st.maps i
  if map.state = .filled ∨ map.state = .reclaiming then
    { st with thread := .entered i map.processIndex (map.elems.length - map.processIndex) now }
  else st

def step [Inhabited ε] (tun : AggreTunables) (st : Reclaim ε) :
    ReclaimAction ε → Option (Reclaim ε)
  | .enter now => if st.thread = .idle then some (st.enter now) else none
  | .startTx txg =>
    match st.thread, txg with
    | .entered _ _ _ _, none => some { st with thread := .idle }
    | .entered i pos avail begun, some txg =>
      if st.Assignable txg then
        some { setReclaimState i .start begun txg st with
               thread := .looping i pos 0 avail, threadTxg := txg }
      else none
    | _, _ => none
  | .stop =>
    match st.thread with
    | .looping _ _ i avail => if i < avail then some { st with thread := .idle } else none
    | _ => none
  | .process state txg =>
    match st.thread with
    | .looping map pos i avail =>
      let next := ReclaimThread.looping map (pos + 1) (i + 1) avail
      if i < avail then
        match txg with
        | none => some { st with thread := next }
        | some txg =>
          if st.Assignable txg then
            some { st.processElem map pos state txg with thread := next }
          else none
      else none
    | _ => none
  | .endTx now txg =>
    match st.thread with
    | .looping map _ i avail =>
      if i ≥ avail then
        match txg with
        | none => some { st with thread := .idle }
        | some txg =>
          if st.Assignable txg then
            some { setReclaimState map .finish now txg st with thread := .idle, threadTxg := txg }
          else none
      else none
    | _ => none
  -- at most one txg is open, one quiescing and one syncing
  | .openTxg =>
    if st.openTxg < st.syncingTxg + 2 then some { st with openTxg := st.openTxg + 1 } else none
  | .beginSync =>
    if 0 < st.pass ∧ st.syncingTxg + 1 < st.openTxg then
      some { st with syncingTxg := st.syncingTxg + 1, pass := 0 }
    else none
  | .stripe elem => some (appendMaplist elem st.syncingTxg st)
  | .syncPass now reclaimStart => some (ClusterZfs.syncPass tun now reclaimStart st)

end Reclaim

/-- What a step can do: one case for each way through the source. -/
inductive ReclaimStep {ε : Type} [Inhabited ε] (tun : AggreTunables) (st : Reclaim ε) :
    ReclaimAction ε → Reclaim ε → Prop
  | enter {now : UInt64} (thread : st.thread = .idle) :
      ReclaimStep tun st (.enter now) (st.enter now)
  | startFails {i : Fin 2} {pos avail : Nat} {begun : UInt64}
      (thread : st.thread = .entered i pos avail begun) :
      ReclaimStep tun st (.startTx none) { st with thread := .idle }
  | start {i : Fin 2} {pos avail txg : Nat} {begun : UInt64}
      (thread : st.thread = .entered i pos avail begun) (assign : st.Assignable txg) :
      ReclaimStep tun st (.startTx (some txg))
        { setReclaimState i .start begun txg st with
          thread := .looping i pos 0 avail, threadTxg := txg }
  | stop {map : Fin 2} {pos i avail : Nat} (thread : st.thread = .looping map pos i avail)
      (more : i < avail) : ReclaimStep tun st .stop { st with thread := .idle }
  | processFails {map : Fin 2} {pos i avail : Nat} {state : ElemState}
      (thread : st.thread = .looping map pos i avail) (more : i < avail) :
      ReclaimStep tun st (.process state none)
        { st with thread := .looping map (pos + 1) (i + 1) avail }
  | process {map : Fin 2} {pos i avail txg : Nat} {state : ElemState}
      (thread : st.thread = .looping map pos i avail) (more : i < avail)
      (assign : st.Assignable txg) :
      ReclaimStep tun st (.process state (some txg))
        { st.processElem map pos state txg with
          thread := .looping map (pos + 1) (i + 1) avail }
  | endFails {map : Fin 2} {pos i avail : Nat} {now : UInt64}
      (thread : st.thread = .looping map pos i avail) (done : i ≥ avail) :
      ReclaimStep tun st (.endTx now none) { st with thread := .idle }
  | finish {map : Fin 2} {pos i avail txg : Nat} {now : UInt64}
      (thread : st.thread = .looping map pos i avail) (done : i ≥ avail)
      (assign : st.Assignable txg) :
      ReclaimStep tun st (.endTx now (some txg))
        { setReclaimState map .finish now txg st with thread := .idle, threadTxg := txg }
  | openTxg (room : st.openTxg < st.syncingTxg + 2) :
      ReclaimStep tun st .openTxg { st with openTxg := st.openTxg + 1 }
  | beginSync (passed : 0 < st.pass) (closed : st.syncingTxg + 1 < st.openTxg) :
      ReclaimStep tun st .beginSync { st with syncingTxg := st.syncingTxg + 1, pass := 0 }
  | stripe {elem : ε} : ReclaimStep tun st (.stripe elem) (appendMaplist elem st.syncingTxg st)
  | syncPass {now : UInt64} {reclaimStart : Bool} :
      ReclaimStep tun st (.syncPass now reclaimStart) (syncPass tun now reclaimStart st)

theorem Reclaim.step_cases {ε : Type} [Inhabited ε] {tun : AggreTunables} {st st' : Reclaim ε}
    {a : ReclaimAction ε} (h : st.step tun a = some st') : ReclaimStep tun st a st' := by
  cases a with
  | enter now =>
    simp only [Reclaim.step, Option.ite_none_right_eq_some, Option.some.injEq] at h
    obtain ⟨hth, rfl⟩ := h
    exact .enter hth
  | startTx txg =>
    cases hth : st.thread with
    | entered i pos avail begun =>
      cases txg with
      | none =>
        simp only [Reclaim.step, hth, Option.some.injEq] at h
        exact h ▸ .startFails hth
      | some txg =>
        simp only [Reclaim.step, hth, Option.ite_none_right_eq_some, Option.some.injEq] at h
        obtain ⟨hassign, rfl⟩ := h
        exact .start hth hassign
    | idle => cases txg <;> simp [Reclaim.step, hth] at h
    | looping map pos i avail => cases txg <;> simp [Reclaim.step, hth] at h
  | stop =>
    cases hth : st.thread with
    | looping map pos i avail =>
      simp only [Reclaim.step, hth, Option.ite_none_right_eq_some, Option.some.injEq] at h
      obtain ⟨hmore, rfl⟩ := h
      exact .stop hth hmore
    | idle => simp [Reclaim.step, hth] at h
    | entered i pos avail begun => simp [Reclaim.step, hth] at h
  | process state txg =>
    cases hth : st.thread with
    | looping map pos i avail =>
      cases txg with
      | none =>
        simp only [Reclaim.step, hth, Option.ite_none_right_eq_some, Option.some.injEq] at h
        obtain ⟨hmore, rfl⟩ := h
        exact .processFails hth hmore
      | some txg =>
        simp only [Reclaim.step, hth, Option.ite_none_right_eq_some, Option.some.injEq] at h
        obtain ⟨hmore, hassign, rfl⟩ := h
        exact .process hth hmore hassign
    | idle => simp [Reclaim.step, hth] at h
    | entered i pos avail begun => simp [Reclaim.step, hth] at h
  | endTx now txg =>
    cases hth : st.thread with
    | looping map pos i avail =>
      cases txg with
      | none =>
        simp only [Reclaim.step, hth, Option.ite_none_right_eq_some, Option.some.injEq] at h
        obtain ⟨hdone, rfl⟩ := h
        exact .endFails hth hdone
      | some txg =>
        simp only [Reclaim.step, hth, Option.ite_none_right_eq_some, Option.some.injEq] at h
        obtain ⟨hdone, hassign, rfl⟩ := h
        exact .finish hth hdone hassign
    | idle => simp [Reclaim.step, hth] at h
    | entered i pos avail begun => simp [Reclaim.step, hth] at h
  | openTxg =>
    simp only [Reclaim.step, Option.ite_none_right_eq_some, Option.some.injEq] at h
    obtain ⟨hroom, rfl⟩ := h
    exact .openTxg hroom
  | beginSync =>
    simp only [Reclaim.step, Option.ite_none_right_eq_some, Option.some.injEq] at h
    obtain ⟨⟨hpass, hclosed⟩, rfl⟩ := h
    exact .beginSync hpass hclosed
  | stripe elem =>
    cases h
    exact .stripe
  | syncPass now reclaimStart =>
    cases h
    exact .syncPass

end ClusterZfs

import ClusterZfs.Aggre.Pending

/-! Where the records of the stripes are. If no record fails, then a map that is CLEAR has left
each of its records in one place: its stripe is freed, or the record is in the map that is being
filled. -/
namespace ClusterZfs

/-- No record fails: its outcome is not an error, and its transaction is assigned. A sync pass of
a txg in which records were handled finds `SPACE_RECLAIM_START`. -/
def RecordsSucceed {ε : Type} (st : Reclaim ε) : ReclaimAction ε → Prop
  | .process state txg => state ≠ .err ∧ txg ≠ none
  | .syncPass _ reclaimStart =>
    reclaimStart = true ∨ (st.slots (st.syncingTxg % 4)).posFlag = false
  | _ => True

/-- The thread did not pass over a record. -/
def ReclaimThread.Exact (q : Nat) : ReclaimThread → Prop
  | .idle => True
  | .entered _ pos _ _ => pos ≤ q
  | .looping _ pos _ _ => pos ≤ q

structure CompleteAt {ε : Type} (lo q : Nat) (st : Reclaim ε) : Prop where
  once : OnceAt lo q st
  full : ∀ k, k < q → st.handled k ≠ []
  exact : st.thread.Exact q
  ended : ∀ j, st.Ending j → q = st.total
  reclaimed : st.reclaimState = .reclaimed → q = st.total

section Complete

variable {ε : Type} {lo q : Nat} {st st' : Reclaim ε}

theorem CompleteAt.start (once : OnceAt lo 0 st) (slots : ∀ j, ¬ st.Flagged j)
    (thread : st.thread = .idle) (state : st.reclaimState ≠ .reclaimed) : CompleteAt lo 0 st where
  once := once
  full k hk := absurd hk (Nat.not_lt_zero k)
  exact := by
    rw [thread]
    trivial
  ended j hj := absurd (Or.inl hj.1) (slots j)
  reclaimed hstate := absurd hstate state

theorem Reclaim.Initial.complete (h : st.Initial) : CompleteAt st.first 0 st :=
  .start h.once h.slots h.thread (by rw [h.clear]; decide)

section

variable (h : CompleteAt lo q st) (now : UInt64) (txg : Nat)
include h

theorem CompleteAt.apply (time : UInt64) :
    CompleteAt (st.syncingTxg + 1) q (st.applied st.syncingTxg time) := by
  refine { h with once := h.once.apply time, ended := ?_, reclaimed := ?_ }
  · intro j hj
    obtain ⟨-, hslot⟩ := applied_slot (Or.inl hj.1)
    unfold Reclaim.Ending at hj
    rw [hslot] at hj
    rw [applied_total]
    exact h.ended j hj
  · rw [applied_total, applied_reclaimState]
    intro hstate
    unfold ReclaimSlot.newState at hstate
    split at hstate
    · rename_i hflag
      cases hm : (st.slots (st.syncingTxg % 4)).state with
      | start =>
        rw [hm] at hstate
        cases hstate
      | finish => exact h.ended _ ⟨hflag, hm⟩
    · exact h.reclaimed hstate

theorem CompleteAt.skip (state : st.reclaimState = .reclaimed) :
    CompleteAt (st.syncingTxg + 1) q st := { h with once := h.once.skip state }

theorem CompleteAt.clear (state : st.reclaimState = .reclaimed) :
    CompleteAt lo 0 (reclaimMapFreeRange now txg st.reclaimObj st) := by
  obtain ⟨hnone, hidle⟩ := h.once.settled.quiet (by rw [state]; decide)
  refine .start (h.once.clear now txg state) hnone hidle ?_
  rw [freeRange_reclaimState]
  decide

theorem CompleteAt.switch (state : st.reclaimState = .clear) :
    CompleteAt lo 0 (switchMaps now st) := by
  obtain ⟨hnone, hidle⟩ := h.once.settled.quiet (by rw [state]; decide)
  refine .start (h.once.switch now state) hnone hidle ?_
  rw [switchMaps_reclaimState]
  decide

theorem CompleteAt.enqueue : CompleteAt lo q (enqueueMaplist txg st) := by
  refine { h with once := h.once.enqueue txg, ended := ?_, reclaimed := ?_ }
  · rw [enqueue_total]
    exact h.ended
  · rw [enqueue_reclaimState, enqueue_total]
    exact h.reclaimed

theorem CompleteAt.unhandled (state : st.reclaimState = .reclaimed) :
    unhandledFrom st.handled 0 (st.maps st.reclaimObj).elems = [] := by
  refine unhandledFrom_none 0 _ ?_
  intro k hk
  rw [Nat.zero_add]
  exact h.full k (h.reclaimed state ▸ hk)

/-- A sync pass loses no record. -/
theorem CompleteAt.syncPass (empty : st.ClearEmpty) (tun : AggreTunables) (now : UInt64)
    (reclaimStart : Bool) :
    (∃ q, CompleteAt (st.syncingTxg + 1) q (syncPass tun now reclaimStart st)) ∧
      (syncPass tun now reclaimStart st).ClearEmpty ∧
      (syncPass tun now reclaimStart st).pending = st.pending := by
  refine syncPass_rule lo
    (I := fun lo u => (∃ q, CompleteAt lo q u) ∧ u.ClearEmpty ∧ u.pending = st.pending)
    (fun _ _ h => ?_) (fun _ _ h state => ?_) ?_ ?_ ?_ ?_ ⟨⟨q, h⟩, empty, rfl⟩ tun reclaimStart
  · obtain ⟨⟨q, h⟩, hrest⟩ := h
    exact ⟨⟨q, { h with once := h.once.frees }⟩, hrest⟩
  · obtain ⟨⟨q, h⟩, hrest⟩ := h
    exact ⟨⟨q, h.skip state⟩, hrest⟩
  · rintro lo u time ⟨⟨q, h⟩, hempty, heq⟩
    exact ⟨⟨q, h.apply time⟩, ClearEmpty.apply _ hempty, by rwa [pending_apply]⟩
  · rintro lo u txg ⟨⟨q, h⟩, hempty, heq⟩ state
    refine ⟨⟨0, h.clear now txg state⟩, ClearEmpty.clear txg now, ?_⟩
    have hlost := pending_clear now u txg
    rw [h.unhandled state, heq] at hlost
    simpa using hlost.symm
  · rintro lo u ⟨⟨q, h⟩, hempty, heq⟩ state
    exact ⟨⟨0, h.switch now state⟩, ClearEmpty.switch now,
      by rwa [pending_switch now (hempty state)]⟩
  · rintro lo u txg ⟨⟨q, h⟩, hempty, heq⟩
    exact ⟨⟨q, h.enqueue txg⟩, ClearEmpty.enqueue txg hempty, by rwa [pending_enqueue]⟩

theorem CompleteAt.enter
    (ok : ∀ j, j < 4 → ¬ st.Ending j ∧ (st.slots j).posFlag = false) :
    CompleteAt lo q (st.enter now) := by
  obtain ⟨honce, heq | heq⟩ := h.once.enter now ok
  · rw [heq]
    exact h
  · rw [heq] at honce ⊢
    exact { h with once := honce, exact := Nat.le_refl q }

end

theorem CompleteAt.at {map : Fin 2} {pos i avail : Nat} (h : CompleteAt lo q st)
    (hth : st.thread = .looping map pos i avail) : pos ≤ q := by
  have hexact := h.exact
  rwa [hth] at hexact

variable [Inhabited ε] {tun : AggreTunables}

theorem CompleteAt.processElem {map : Fin 2} {pos i avail txg : Nat} {state : ElemState}
    (h : CompleteAt lo q st) (hth : st.thread = .looping map pos i avail) (more : i < avail)
    (succeeds : state ≠ .err)
    (settled : Settled lo { st.processElem map pos state txg with
      thread := .looping map (pos + 1) (i + 1) avail }) :
    CompleteAt lo (pos + 1) { st.processElem map pos state txg with
      thread := .looping map (pos + 1) (i + 1) avail } := by
  have honce := h.once.processElem hth more settled
  rw [if_neg succeeds] at honce
  have hpos := h.at hth
  have hstate : st.reclaimState ≠ .reclaimed := by
    rcases (h.once.settled.running _ (congrArg ReclaimThread.map hth)).2 with hs | hs <;>
      rw [hs] <;> decide
  obtain ⟨_, _, heq⟩ := processElem_parked txg map pos state st succeeds
    (.looping map (pos + 1) (i + 1) avail)
  rw [heq] at honce ⊢
  refine ⟨honce, ?_, Nat.le_refl _, fun j hj => absurd hj (honce.settled.not_ending rfl j),
    fun hrecl => absurd hrecl hstate⟩
  refine (Function.forall_update_iff st.handled
    (p := fun k (states : List ElemState) => k < pos + 1 → states ≠ [])).mpr ⟨fun _ => ?_, ?_⟩
  · exact List.append_ne_nil_of_right_ne_nil _ (List.cons_ne_nil _ _)
  · exact fun k hne hk => h.full k (by omega)

theorem CompleteAt.step {a : ReclaimAction ε} (h : CompleteAt st.first q st)
    (ok : EntersAfterSync st a) (succeeds : RecordsSucceed st a)
    (empty : st.ClearEmpty) (hstep : st.step tun a = some st') :
    ∃ q, CompleteAt st'.first q st' := by
  have hsettled := h.once.settled.step ok.afterEnd hstep
  cases Reclaim.step_cases hstep with
  | enter _ =>
    rw [enter_first]
    exact ⟨q, h.enter _ ok⟩
  | startFails | stop | endFails =>
    exact ⟨q, { h with once := { h.once with settled := hsettled, thread := trivial },
                       exact := trivial }⟩
  | start hth assign =>
    have hwithin := h.once.thread
    have hexact := h.exact
    rw [hth] at hwithin hexact
    have honce := h.once.mark assign hsettled rfl rfl ⟨hwithin.1, Nat.zero_le _, hwithin.2⟩
    exact ⟨q, honce, h.full, hexact, fun j hj => absurd hj (hsettled.not_ending rfl j),
      h.reclaimed⟩
  | processFails => exact absurd rfl succeeds.2
  | @process map pos i avail txg state hth more assign =>
    rw [processElem_first_thread] at hsettled ⊢
    exact ⟨_, h.processElem hth more succeeds.1 hsettled⟩
  | finish hth done assign =>
    obtain ⟨hpos, hi, hleft⟩ := h.once.within hth
    have hexact := h.at hth
    have honce := h.once.mark assign hsettled rfl rfl trivial
    have hq : q = st.total := by omega
    exact ⟨q, honce, h.full, trivial, fun _ _ => hq, h.reclaimed⟩
  | openTxg | stripe => exact ⟨q, { h with once := { h.once with settled := hsettled } }⟩
  | beginSync passed _ =>
    rw [first_passed passed] at h
    exact ⟨q, { h with once := { h.once with settled := hsettled } }⟩
  | syncPass =>
    rw [syncPass_first]
    exact (h.syncPass empty tun _ _).1

end Complete

/- A pool with three histories that no function reads: the records of all stripes, those whose
stripes were freed, and by txg slot those that were not enqueued since their stripe was written. -/
structure Ledger (ε : Type) where
  rc : Reclaim ε
  born : List ε
  freed : List ε
  fresh : Nat → List ε

namespace Ledger

variable {ε : Type}

def slot (l : Ledger ε) : Nat := l.rc.syncingTxg % 4

def step [Inhabited ε] (tun : AggreTunables) (l : Ledger ε) (a : ReclaimAction ε) :
    Option (Ledger ε) :=
  (l.rc.step tun a).map fun rc =>
    match a with
    | .stripe e => ⟨rc, l.born ++ [e], l.freed,
        Function.update l.fresh l.slot (l.fresh l.slot ++ [e])⟩
    | .syncPass _ reclaimStart => ⟨rc, l.born, l.freed ++ l.rc.freeBplist l.slot,
        if reclaimStart then Function.update l.fresh l.slot [] else l.fresh⟩
    | _ => { l with rc }

/- A record is in one place: with the frees that were done, on a list of frees, or pending. Only a
txg that also has a position has frees or clones. -/
structure Balanced (l : Ledger ε) : Prop where
  complete : ∃ q, CompleteAt l.rc.first q l.rc
  clearEmpty : l.rc.ClearEmpty
  balance : (↑l.born : Multiset ε) = ↑l.freed + l.rc.freeing + l.rc.pending
  frees : ∀ j, (l.rc.slots j).posFlag = false → l.rc.freeBplist j = []
  lists : ∀ j, (l.rc.slots j).posFlag = false → l.rc.maplist j = l.fresh j

variable {l l' : Ledger ε} {tun : AggreTunables} {a : ReclaimAction ε}

theorem Balanced.quiet [Inhabited ε] {rc : Reclaim ε} (h : l.Balanced)
    (complete : ∃ q, CompleteAt rc.first q rc) (hstep : l.rc.step tun a = some rc)
    (process : ∀ state txg, a ≠ .process state txg) (stripe : ∀ e, a ≠ .stripe e)
    (sync : ∀ now start, a ≠ .syncPass now start) :
    ({ l with rc } : Ledger ε).Balanced := by
  obtain ⟨hmaps, hactive, hhandled, hmaplist, hfrees, hflags⟩ :=
    quiet_step hstep process stripe sync
  refine ⟨complete, ClearEmpty.congr h.clearEmpty hmaps hactive, ?_, ?_, ?_⟩
  · rw [pending_congr hmaps hactive hhandled hmaplist, Reclaim.freeing, hfrees]
    exact h.balance
  · intro j hj
    rw [hfrees]
    exact h.frees j ((hflags j).symm.trans hj)
  · intro j hj
    rw [hmaplist]
    exact h.lists j ((hflags j).symm.trans hj)

theorem Balanced.stripe (h : l.Balanced) {e : ε}
    (complete : ∃ q, CompleteAt l.rc.first q (appendMaplist e l.rc.syncingTxg l.rc)) :
    Balanced ⟨appendMaplist e l.rc.syncingTxg l.rc, l.born ++ [e], l.freed,
      Function.update l.fresh l.slot (l.fresh l.slot ++ [e])⟩ := by
  refine ⟨complete, h.clearEmpty, ?_, h.frees, ?_⟩
  · rw [pending_stripe, ← add_assoc, ← Multiset.coe_add, h.balance]
    rfl
  · intro j hj
    have hold : l.rc.maplist j = l.fresh j := h.lists j hj
    change Function.update l.rc.maplist l.slot _ j = Function.update l.fresh l.slot _ j
    by_cases heq : j = l.slot
    · subst heq
      rw [Function.update_self, Function.update_self, ← hold]
      rfl
    · rw [Function.update_of_ne heq, Function.update_of_ne heq, hold]

theorem Balanced.process [Inhabited ε] (h : l.Balanced) {map : Fin 2} {pos i avail txg : Nat}
    {state : ElemState} (hth : l.rc.thread = .looping map pos i avail) (more : i < avail)
    (succeeds : state ≠ .err)
    (complete : ∃ q, CompleteAt l.rc.first q { l.rc.processElem map pos state txg with
      thread := .looping map (pos + 1) (i + 1) avail }) :
    ({ l with rc := { l.rc.processElem map pos state txg with
      thread := .looping map (pos + 1) (i + 1) avail } } : Ledger ε).Balanced := by
  obtain ⟨q, hcomplete⟩ := h.complete
  obtain ⟨hpos, -, hleft⟩ := hcomplete.once.within hth
  have hfresh : l.rc.handled pos = [] := hcomplete.once.entered_unhandled hpos
  have hin : pos < l.rc.total := by omega
  obtain ⟨rfl, hbusy⟩ := hcomplete.once.settled.running map (congrArg ReclaimThread.map hth)
  -- the lists of the other txgs stay, and this txg gets a position
  have hrest := (Function.forall_update_iff l.rc.slots (a := txg % 4)
    (b := { l.rc.slots (txg % 4) with pos := pos, posFlag := true, posMap := l.rc.reclaimObj })
    (p := fun j (s : ReclaimSlot) => s.posFlag = false →
      j ≠ txg % 4 ∧ (l.rc.slots j).posFlag = false)).mpr
    ⟨nofun, fun j hne hj => ⟨hne, hj⟩⟩
  have hfreed : ∀ state, state = .free ∨ state = .rewrite →
      (↑l.born : Multiset ε) = ↑l.freed + slotLists (Function.update l.rc.freeBplist (txg % 4)
        (l.rc.freeBplist (txg % 4) ++ [(l.rc.maps l.rc.reclaimObj).elems.getD pos default])) +
        (l.rc.processElem l.rc.reclaimObj pos state txg).pending := by
    intro state hs
    rw [slotLists_append, h.balance, pending_freed hin hfresh hs txg, Reclaim.freeing]
    abel
  cases state with
  | err => exact absurd rfl succeeds
  | noChange =>
    refine ⟨complete, h.clearEmpty, ?_, fun j hj => h.frees j (hrest j hj).2, ?_⟩
    · exact h.balance.trans (congrArg _ (pending_noChange hin hfresh txg).symm)
    · intro j hj
      obtain ⟨hne, hflag⟩ := hrest j hj
      exact (Function.update_of_ne hne _ _).trans (h.lists j hflag)
  | free | rewrite =>
    refine ⟨complete, h.clearEmpty, hfreed _ (by simp), ?_,
      fun j hj => h.lists j (hrest j hj).2⟩
    intro j hj
    obtain ⟨hne, hflag⟩ := hrest j hj
    exact (Function.update_of_ne hne _ _).trans (h.frees j hflag)

theorem Balanced.syncPass (h : l.Balanced) (now : UInt64) {reclaimStart : Bool}
    (started : RecordsSucceed l.rc (.syncPass now reclaimStart)) :
    Balanced ⟨syncPass tun now reclaimStart l.rc, l.born, l.freed ++ l.rc.freeBplist l.slot,
      if reclaimStart then Function.update l.fresh l.slot [] else l.fresh⟩ := by
  obtain ⟨q, hcomplete⟩ := h.complete
  obtain ⟨hnext, hempty, hpending⟩ := hcomplete.syncPass h.clearEmpty tun now reclaimStart
  obtain ⟨hfrees, hmaplist, hslots⟩ := syncPass_lists tun l.rc now reclaimStart
  refine ⟨?_, hempty, ?_, ?_, ?_⟩
  · rw [syncPass_first]
    exact hnext
  · have hsplit := slotLists_clear l.rc.freeBplist l.rc.syncingTxg
    rw [hpending, Reclaim.freeing, hfrees, h.balance, Reclaim.freeing, hsplit, ← Multiset.coe_add]
    change _ = _ + (↑(l.rc.freeBplist (l.rc.syncingTxg % 4)) : Multiset ε) + _ + _
    abel
  · intro j hj
    change (ClusterZfs.syncPass tun now reclaimStart l.rc).freeBplist j = []
    rw [hfrees]
    by_cases heq : j = l.rc.syncingTxg % 4
    · rw [heq, Function.update_self]
    · rw [Function.update_of_ne heq]
      exact h.frees j ((congrArg ReclaimSlot.posFlag (hslots j heq)).symm.trans hj)
  · intro j hj
    have hold : j ≠ l.slot → l.rc.maplist j = l.fresh j := fun hne =>
      h.lists j ((congrArg ReclaimSlot.posFlag (hslots j hne)).symm.trans hj)
    refine (congrFun hmaplist j).trans ?_
    cases reclaimStart with
    | false =>
      by_cases heq : j = l.slot
      · subst heq
        exact h.lists _ (started.resolve_left (by decide))
      · exact hold heq
    | true =>
      change Function.update l.rc.maplist l.slot [] j = Function.update l.fresh l.slot [] j
      by_cases heq : j = l.slot
      · rw [heq, Function.update_self, Function.update_self]
      · rw [Function.update_of_ne heq, Function.update_of_ne heq, hold heq]

theorem Balanced.step [Inhabited ε] (h : l.Balanced) (enters : EntersAfterSync l.rc a)
    (succeeds : RecordsSucceed l.rc a) (hstep : l.step tun a = some l') : l'.Balanced := by
  obtain ⟨rc, hrc, rfl⟩ := Option.map_eq_some_iff.mp hstep
  obtain ⟨q, hcomplete⟩ := h.complete
  have hnext := hcomplete.step enters succeeds h.clearEmpty hrc
  cases a with
  | stripe e =>
    cases hrc
    exact h.stripe hnext
  | syncPass now reclaimStart =>
    cases hrc
    exact h.syncPass now succeeds
  | process state txg =>
    cases Reclaim.step_cases hrc with
    | processFails => exact absurd rfl succeeds.2
    | process hth more _ =>
      rw [processElem_first_thread] at hnext
      exact h.process hth more succeeds.1 hnext
  | _ => exact h.quiet hnext hrc (by simp) (by simp) (by simp)

/-- A pool at the start of a run, with the records it has. -/
structure Initial (l : Ledger ε) : Prop where
  rc : l.rc.Initial
  clearEmpty : (l.rc.maps l.rc.reclaimObj).elems = []
  freeBplist : ∀ j, l.rc.freeBplist j = []
  born : (↑l.born : Multiset ε) = ↑(l.rc.maps l.rc.active).elems + slotLists l.rc.maplist
  freed : l.freed = []
  fresh : l.fresh = l.rc.maplist

theorem Initial.balanced (h : l.Initial) : l.Balanced where
  complete := ⟨0, h.rc.complete⟩
  clearEmpty _ := h.clearEmpty
  balance := by
    rw [h.born, h.freed, Reclaim.freeing, Reclaim.pending, h.clearEmpty]
    simp [slotLists, h.freeBplist, unhandledFrom]
  frees j _ := h.freeBplist j
  lists j _ := by rw [h.fresh]

def Runs (l : Ledger ε) (a : ReclaimAction ε) : Prop :=
  EntersAfterSync l.rc a ∧ RecordsSucceed l.rc a

instance (l : Ledger ε) (a : ReclaimAction ε) : Decidable (l.Runs a) := by
  have h1 : Decidable (EntersAfterSync l.rc a) := by
    cases a <;> unfold EntersAfterSync <;> infer_instance
  have h2 : Decidable (RecordsSucceed l.rc a) := by
    cases a <;> unfold RecordsSucceed <;> infer_instance
  unfold Runs
  infer_instance

end Ledger

/-- In every run in which a pass enters only after the requests of the earlier passes were applied
and no record fails, when the map that is not active is CLEAR no free is left to do, no clone is
left to enqueue, and every record ever written is in one place, once: its stripe was freed, it is
in the map that is being filled, or it is that of a new stripe on the list of its txg. -/
theorem cleared_records_handled_once {ε : Type} [Inhabited ε] (tun : AggreTunables)
    {l₀ l : Ledger ε} (init : l₀.Initial) (run : Reach (Ledger.step tun) Ledger.Runs l₀ l)
    (clear : l.rc.reclaimState = .clear) :
    (∀ j, l.rc.freeBplist j = []) ∧ (∀ j, l.rc.maplist j = l.fresh j) ∧
      (↑l.born : Multiset ε) =
        ↑l.freed + ↑(l.rc.maps l.rc.active).elems + slotLists l.fresh := by
  have h : l.Balanced := by
    refine Reach.invariant (P := Ledger.Balanced) init.balanced ?_ run
    exact fun t u a ht hok hstep => ht.step hok.1 hok.2 hstep
  obtain ⟨q, hcomplete⟩ := h.complete
  have hflags := hcomplete.once.settled.no_pos (by rw [clear]; decide)
  have hfrees : ∀ j, l.rc.freeBplist j = [] := fun j => h.frees j (hflags j)
  have hlists : l.rc.maplist = l.fresh := funext fun j => h.lists j (hflags j)
  refine ⟨hfrees, congrFun hlists, ?_⟩
  rw [h.balance, Reclaim.freeing, Reclaim.pending, h.clearEmpty clear, hlists]
  simp [-Multiset.coe_add, slotLists, hfrees, unhandledFrom]
  abel

def Ledger.new (ε : Type) : Ledger ε := ⟨Reclaim.fresh ε, [], [], fun _ => []⟩

theorem Ledger.new_initial (ε : Type) : (Ledger.new ε).Initial :=
  ⟨Reclaim.fresh_initial ε, rfl, fun _ => rfl, rfl, rfl, rfl⟩

/- Two stripes are written in txg 2, and their map is FILLED in txg 3. -/
def fillTwo : List (ReclaimAction Nat) :=
  [.openTxg, .beginSync, .stripe 7, .stripe 8, .syncPass 1000 true, .openTxg, .beginSync,
    .syncPass 1000 true, .enter 1000, .startTx (some 4)]

/- The map is RECLAIMED in txg 5 and cleared when its timeout is over. -/
def clearFirstMap (reclaimStart : Bool) : List (ReclaimAction Nat) :=
  [.openTxg, .endTx 1000 (some 5), .beginSync, .syncPass 1001 reclaimStart, .openTxg, .beginSync,
    .syncPass 1002 true, .syncPass 1200 true]

theorem cleared_records_handled_once_cycle :
    ∃ l, Reach (Ledger.step smallMaps) Ledger.Runs (Ledger.new Nat) l ∧
      l.rc.reclaimState = .clear ∧ l.freed = [7] ∧ (l.rc.maps l.rc.active).elems = [8] ∧
      (↑l.born : Multiset Nat) =
        ↑l.freed + ↑(l.rc.maps l.rc.active).elems + slotLists l.fresh := by
  obtain ⟨l, hreach, hclear, hfreed, helems⟩ := exists_reach (Ledger.step smallMaps) Ledger.Runs
    (Ledger.new Nat)
    (fillTwo ++ [.process .rewrite (some 4), .process .noChange (some 4)] ++ clearFirstMap true)
    (fun l : Ledger Nat => l.rc.reclaimState = .clear ∧ l.freed = [7] ∧
      (l.rc.maps l.rc.active).elems = [8]) (by decide +kernel)
  exact ⟨l, hreach, hclear, hfreed, helems,
    (cleared_records_handled_once smallMaps (Ledger.new_initial Nat) hreach hclear).2.2⟩

/-- A record whose outcome is an error is passed over and gone with its map. A clone of a txg whose
sync finds no `SPACE_RECLAIM_START` is in no map when its own is cleared. A pass that enters while
a position is parked frees the stripe of a record a second time. -/
theorem cleared_records_lost :
    (∃ l, Reach (Ledger.step smallMaps) (fun _ _ => True) (Ledger.new Nat) l ∧
      l.rc.reclaimState = .clear ∧ 8 ∈ l.born ∧ 8 ∉ l.freed ∧
      8 ∉ (l.rc.maps l.rc.active).elems ∧ ∀ j < 4, 8 ∉ l.rc.maplist j) ∧
    (∃ l, Reach (Ledger.step smallMaps) (fun _ _ => True) (Ledger.new Nat) l ∧
      l.rc.reclaimState = .clear ∧ 8 ∈ l.rc.maplist 0 ∧ 8 ∉ l.fresh 0 ∧
      ∀ i, 8 ∉ (l.rc.maps i).elems) ∧
    ∃ l, Reach (Ledger.step smallMaps) (fun _ _ => True) (Ledger.new Nat) l ∧
      l.born = [7, 8] ∧ l.freed = [7, 7] := by
  refine ⟨?_, ?_, ?_⟩
  · exact exists_reach (Ledger.step smallMaps) (fun _ _ => True) (Ledger.new Nat)
      (fillTwo ++ [.process .free (some 4), .process .err none] ++ clearFirstMap true)
      (fun l : Ledger Nat => l.rc.reclaimState = .clear ∧ 8 ∈ l.born ∧ 8 ∉ l.freed ∧
        8 ∉ (l.rc.maps l.rc.active).elems ∧ ∀ j < 4, 8 ∉ l.rc.maplist j) (by decide +kernel)
  · exact exists_reach (Ledger.step smallMaps) (fun _ _ => True) (Ledger.new Nat)
      (fillTwo ++ [.process .free (some 4), .process .noChange (some 4)] ++ clearFirstMap false)
      (fun l : Ledger Nat => l.rc.reclaimState = .clear ∧ 8 ∈ l.rc.maplist 0 ∧ 8 ∉ l.fresh 0 ∧
        ∀ i, 8 ∉ (l.rc.maps i).elems) (by decide +kernel)
  · exact exists_reach (Ledger.step smallMaps) (fun _ _ => True) (Ledger.new Nat)
      (fillTwo ++ [.process .free (some 4), .stop, .enter 1120, .startTx (some 4),
        .process .free (some 4), .openTxg, .beginSync, .syncPass 1001 true])
      (fun l : Ledger Nat => l.born = [7, 8] ∧ l.freed = [7, 7]) (by decide +kernel)

end ClusterZfs

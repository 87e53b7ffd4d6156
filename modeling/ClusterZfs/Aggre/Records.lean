import ClusterZfs.Aggre.Settled

/-! The records of a map under reclaim. The persisted `process_index` lags behind the thread,
but as long as a pass enters only when no END and no position is parked, no record is handled
twice. -/
namespace ClusterZfs

/-- A pass enters only when every END and every position of earlier passes is applied. -/
def EntersAfterSync {ε : Type} (st : Reclaim ε) : ReclaimAction ε → Prop
  | .enter _ => ∀ j, j < 4 → ¬ st.Ending j ∧ (st.slots j).posFlag = false
  | _ => True

theorem EntersAfterSync.afterEnd {ε : Type} {st : Reclaim ε} {a : ReclaimAction ε}
    (h : EntersAfterSync st a) : EntersAfterEnd st a := by
  cases a with
  | enter now => exact fun j hj => (h j hj).1
  | _ => trivial

/-- `q` is the position behind the last one that is parked in the txgs from `lo` to `hi`. -/
def LastParked (lo hi : Nat) (slots : Nat → ReclaimSlot) (q : Nat) : Prop :=
  ∀ t, lo ≤ t → t ≤ hi → (slots (t % 4)).posFlag = true →
    (∀ t', t < t' → t' ≤ hi → (slots (t' % 4)).posFlag = false) → (slots (t % 4)).pos + 1 = q

/-- `total_count` of the map that is not active. -/
def Reclaim.total {ε : Type} (st : Reclaim ε) : Nat := (st.maps st.reclaimObj).elems.length

/-- The thread works on positions from `q` on, and its loop ends at the last record. -/
def ReclaimThread.Within (q total : Nat) : ReclaimThread → Prop
  | .idle => True
  | .entered _ pos avail _ => q ≤ pos ∧ pos + avail = total
  | .looping _ pos i avail => q ≤ pos ∧ i ≤ avail ∧ pos + (avail - i) = total

/- `q` is the index that the map will have once everything that is parked is applied. -/
structure OnceAt {ε : Type} (lo q : Nat) (st : Reclaim ε) : Prop where
  settled : Settled lo st
  parked : LastParked lo st.threadTxg st.slots q
  synced : (∀ j, (st.slots j).posFlag = false) → (st.maps st.reclaimObj).processIndex = q
  unused : (st.maps st.active).processIndex = 0
  empty : st.reclaimState = .clear → q = 0
  below : ∀ k, st.handled k ≠ [] → k < q
  bound : st.reclaimState ≠ .clear → q ≤ st.total
  thread : st.thread.Within q st.total

section Once

variable {ε : Type} {lo q : Nat} {st st' : Reclaim ε} {txg : Nat} {slot : ReclaimSlot} {pos : Nat}
  {th : ReclaimThread} {maplist freeBplist : Nat → List ε}

theorem LastParked.extend {slots slots' : Nat → ReclaimSlot} {hi hi' : Nat}
    (h : LastParked lo hi slots q) (later : hi ≤ hi')
    (window : ∀ t, lo ≤ t → t ≤ hi' → (slots (t % 4)).posFlag = true → t ≤ hi)
    (same : ∀ j, (slots' j).posFlag = (slots j).posFlag ∧ (slots' j).pos = (slots j).pos) :
    LastParked lo hi' slots' q := by
  intro t h1 h2 h3 h4
  rw [(same _).1] at h3
  rw [(same _).2]
  refine h t h1 (window t h1 h2 h3) h3 ?_
  intro t' h5 h6
  rw [← (same _).1]
  exact h4 t' h5 (Nat.le_trans h6 later)

/-- Inside the window a txg is determined by its slot. -/
theorem Settled.window_txg (h : Settled lo st) {t : Nat} (h1 : lo ≤ t) (h2 : t ≤ st.openTxg)
    (h3 : st.Flagged (t % 4)) : t ≤ st.threadTxg := by
  obtain ⟨t', h4, h5, h6⟩ := h.window _ h3
  have := h.open_le
  have := h.lo_ge
  have := h.thread_le
  omega

theorem OnceAt.entered_unhandled (h : OnceAt lo q st) {k : Nat} (hk : q ≤ k) :
    st.handled k = [] := by
  by_contra hne
  exact absurd (h.below k hne) (Nat.not_lt.mpr hk)

theorem OnceAt.mark (h : OnceAt lo q st) (assign : st.Assignable txg)
    (settled : Settled lo (st.parked txg slot th st.handled maplist freeBplist))
    (posFlag : slot.posFlag = (st.slots (txg % 4)).posFlag)
    (pos : slot.pos = (st.slots (txg % 4)).pos) (thread : th.Within q st.total) :
    OnceAt lo q (st.parked txg slot th st.handled maplist freeBplist) := by
  have hsame := (Function.forall_update_iff st.slots (p := fun j (s : ReclaimSlot) =>
    s.posFlag = (st.slots j).posFlag ∧ s.pos = (st.slots j).pos)).mpr
    ⟨⟨posFlag, pos⟩, fun _ _ => ⟨rfl, rfl⟩⟩
  refine { h with settled, parked := ?_, synced := ?_, thread }
  · refine h.parked.extend assign.2.1 ?_ hsame
    intro t h1 h2 h3
    exact h.settled.window_txg h1 (Nat.le_trans h2 assign.2.2) (Or.inr h3)
  · exact fun hnone => h.synced (fun j => (hsame j).1.symm.trans (hnone j))

theorem OnceAt.handle (h : OnceAt lo q st) {state : ElemState} (fresh : q ≤ pos)
    (busy : st.reclaimState ≠ .clear) (inside : pos < st.total)
    (settled : Settled lo (st.parked txg slot th
      (Function.update st.handled pos (st.handled pos ++ [state])) maplist freeBplist))
    (posFlag : slot.posFlag = true) (parked : slot.pos = pos)
    (thread : th.Within (pos + 1) st.total) :
    OnceAt lo (pos + 1) (st.parked txg slot th
      (Function.update st.handled pos (st.handled pos ++ [state])) maplist freeBplist) := by
  have hsame : Function.update st.slots (txg % 4) slot (txg % 4) = slot := Function.update_self ..
  have hflag : (Function.update st.slots (txg % 4) slot (txg % 4)).posFlag ≠ false := by
    rw [hsame, posFlag]
    decide
  refine { h with settled, parked := ?_, synced := fun hnone => absurd (hnone _) hflag,
                  empty := fun hclear => absurd hclear busy, below := ?_,
                  bound := fun _ => inside, thread }
  · intro t h1 h2 _ h4
    rcases Nat.lt_or_eq_of_le h2 with hlt | rfl
    · exact absurd (h4 txg hlt (Nat.le_refl _)) hflag
    · exact (congrArg (·.pos + 1) hsame).trans (congrArg (· + 1) parked)
  · intro k hne
    by_cases hk : k = pos
    · omega
    · have hold : st.handled k ≠ [] := fun hnil => hne ((Function.update_of_ne hk _ _).trans hnil)
      have := h.below k hold
      omega

theorem applied_total {time : UInt64} : (st.applied txg time).total = st.total :=
  congrArg (·.elems.length) (Function.update_self st.reclaimObj _ st.maps)

theorem newState_clear {old : MapObjState} (h : slot.newState old = .clear) :
    old = .clear := by
  unfold ReclaimSlot.newState at h
  split at h
  · exact absurd h (by cases slot.state <;> decide)
  · exact h

theorem OnceAt.apply (h : OnceAt lo q st) (time : UInt64) :
    OnceAt (st.syncingTxg + 1) q (st.applied st.syncingTxg time) := by
  have hge := h.settled.lo_ge
  have hle := h.settled.lo_le
  have hopen := h.settled.open_le
  have hthread := h.settled.thread_le
  have hslot : ∀ {j}, j ≠ st.syncingTxg % 4 →
      (st.applied st.syncingTxg time).slots j = st.slots j := fun hj => Function.update_of_ne hj ..
  refine { h with settled := h.settled.apply time, parked := ?_, synced := ?_, unused := ?_,
                  empty := ?_, bound := ?_, thread := ?_ }
  · intro t h1 h2 h3 h4
    obtain ⟨-, hold⟩ := applied_slot (Or.inr h3)
    rw [hold] at h3 ⊢
    refine h.parked t (by omega) h2 h3 ?_
    intro t' h5 h6
    have hthread' : t' ≤ st.threadTxg := h6
    rw [← hslot (j := t' % 4) (by omega)]
    exact h4 t' h5 h6
  · intro hnone
    have hindex : ((st.applied st.syncingTxg time).maps st.reclaimObj).processIndex =
        (st.slots (st.syncingTxg % 4)).newIndex (st.maps st.reclaimObj).processIndex :=
      congrArg AggreMap.processIndex (Function.update_self st.reclaimObj _ st.maps)
    refine hindex.trans ?_
    have hother : ∀ j, j ≠ st.syncingTxg % 4 → (st.slots j).posFlag = false := fun j hj =>
      (congrArg ReclaimSlot.posFlag (hslot hj)).symm.trans (hnone j)
    rw [ReclaimSlot.newIndex]
    split
    · rename_i hpos
      obtain ⟨t, h1, h2, h3⟩ := h.settled.window _ (Or.inr hpos)
      have ht : t = st.syncingTxg := by omega
      rw [← ht] at hpos hother ⊢
      exact h.parked t h2 h3 hpos (fun t' h5 h6 => hother _ (by omega))
    · rename_i hpos
      refine h.synced ?_
      intro j
      by_cases hj : j = st.syncingTxg % 4
      · rw [hj]
        exact Bool.eq_false_iff.mpr hpos
      · exact hother j hj
  · exact (congrArg AggreMap.processIndex applied_maps_active).trans h.unused
  · rw [applied_reclaimState]
    exact fun hclear => h.empty (newState_clear hclear)
  · rw [applied_total]
    intro _
    by_cases hclear : st.reclaimState = .clear
    · rw [h.empty hclear]
      exact Nat.zero_le _
    · exact h.bound hclear
  · rw [applied_total]
    exact h.thread

theorem LastParked.none {hi : Nat} {slots : Nat → ReclaimSlot}
    (none : ∀ j, (slots j).posFlag = false) : LastParked lo hi slots q := by
  intro t _ _ h3
  rw [none] at h3
  cases h3

theorem Settled.no_pos (h : Settled lo st)
    (state : ¬ (st.reclaimState = .filled ∨ st.reclaimState = .reclaiming)) :
    ∀ j, (st.slots j).posFlag = false := by
  intro j
  exact Bool.eq_false_iff.mpr (fun hj => (h.quiet state).1 j (Or.inr hj))

theorem OnceAt.skip (h : OnceAt lo q st) (state : st.reclaimState = .reclaimed) :
    OnceAt (st.syncingTxg + 1) q st := by
  have hnone := h.settled.no_pos (by rw [state]; decide)
  exact { h with settled := h.settled.skip state, parked := .none hnone }

theorem OnceAt.clear (h : OnceAt lo q st) (now : UInt64) (txg : Nat)
    (state : st.reclaimState = .reclaimed) :
    OnceAt lo 0 (reclaimMapFreeRange now txg st.reclaimObj st) := by
  have hnone := h.settled.no_pos (by rw [state]; decide)
  have hidle := (h.settled.quiet (by rw [state]; decide)).2
  refine ⟨h.settled.clear now txg state, .none hnone, ?_, ?_, fun _ => rfl,
    fun k hk => absurd rfl hk, fun _ => Nat.zero_le _, ?_⟩
  · intro _
    exact congrArg AggreMap.processIndex (freeRange_maps_reclaimObj txg st now)
  · exact (congrArg AggreMap.processIndex (freeRange_maps_active txg st now)).trans h.unused
  · change ReclaimThread.Within 0 _ st.thread
    rw [hidle]
    trivial

theorem OnceAt.switch (h : OnceAt lo q st) (now : UInt64) (state : st.reclaimState = .clear) :
    OnceAt lo 0 (switchMaps now st) := by
  have hnone := h.settled.no_pos (by rw [state]; decide)
  have hidle := (h.settled.quiet (by rw [state]; decide)).2
  refine ⟨h.settled.switch now state, .none hnone, ?_, ?_, fun _ => rfl,
    fun k hk => absurd rfl hk, fun _ => Nat.zero_le _, ?_⟩
  · intro _
    rw [switchMaps_reclaimObj]
    refine Eq.trans ?_ h.unused
    simp [switchMaps, Reclaim.setMap]
  · have hne : st.reclaimObj ≠ st.active := otherObj_ne st.active
    have hindex := h.synced hnone
    rw [h.empty state] at hindex
    rw [← hindex]
    simp [switchMaps, Reclaim.setMap, Function.update_of_ne hne]
  · change ReclaimThread.Within 0 _ st.thread
    rw [hidle]
    trivial

theorem enqueue_total (txg : Nat) (st : Reclaim ε) : (enqueueMaplist txg st).total = st.total :=
  congrArg (fun m => m.elems.length) (enqueue_reclaimMap txg st)

section

variable (h : OnceAt lo q st)
include h

theorem OnceAt.enqueue (txg : Nat) : OnceAt lo q (enqueueMaplist txg st) := by
  refine { h with settled := h.settled.enqueue txg, synced := ?_, unused := ?_, empty := ?_,
                  bound := ?_, thread := ?_ }
  · intro hnone
    exact (congrArg AggreMap.processIndex (enqueue_reclaimMap txg st)).trans (h.synced hnone)
  · rw [← h.unused]
    change ((enqueueMaplist txg st).maps st.active).processIndex = _
    simp [enqueueMaplist, Reclaim.setMap]
  · rw [enqueue_reclaimState]
    exact h.empty
  · rw [enqueue_reclaimState, enqueue_total]
    exact h.bound
  · rw [enqueue_total]
    exact h.thread

theorem OnceAt.frees :
    OnceAt lo q (spaSyncFrees st.syncingTxg { st with pass := st.pass + 1 }) :=
  { h with settled := h.settled.frees }

theorem OnceAt.syncPass (tun : AggreTunables) (now : UInt64)
    (reclaimStart : Bool) : ∃ q, OnceAt (st.syncingTxg + 1) q (syncPass tun now reclaimStart st) :=
  syncPass_rule lo (I := fun lo st => ∃ q, OnceAt lo q st) (fun _ _ ⟨q, h⟩ => ⟨q, h.frees⟩)
    (fun _ _ ⟨q, h⟩ state => ⟨q, h.skip state⟩) (fun _ _ time ⟨q, h⟩ => ⟨q, h.apply time⟩)
    (fun _ _ txg ⟨_, h⟩ state => ⟨0, h.clear now txg state⟩)
    (fun _ _ ⟨_, h⟩ state => ⟨0, h.switch now state⟩) (fun _ _ txg ⟨q, h⟩ => ⟨q, h.enqueue txg⟩)
    ⟨q, h⟩ tun reclaimStart

omit h in
theorem Settled.running_busy (h : Settled lo st) {i : Fin 2} (hi : st.thread.map = some i) :
    st.reclaimState ≠ .clear := by
  rcases (h.running i hi).2 with hs | hs <;> rw [hs] <;> decide

/-- A pass that enters starts at the first record that was not handled. -/
theorem OnceAt.enter (now : UInt64)
    (ok : ∀ j, j < 4 → ¬ st.Ending j ∧ (st.slots j).posFlag = false) :
    OnceAt lo q (st.enter now) ∧ (st.enter now = st ∨ st.enter now =
      { st with thread := .entered st.reclaimObj q (st.total - q) now }) := by
  have hsettled := h.settled.enter now (fun j hj => (ok j hj).1)
  have hindex : (st.maps st.reclaimObj).processIndex = q := by
    refine h.synced ?_
    intro j
    refine Bool.eq_false_iff.mpr (fun hj => ?_)
    obtain ⟨t, ht, _⟩ := h.settled.window j (Or.inr hj)
    have hfree := (ok j (by omega)).2
    rw [hj] at hfree
    cases hfree
  revert hsettled
  simp only [Reclaim.enter, hindex]
  split
  · rename_i hstate
    intro hsettled
    have hbusy : st.reclaimState ≠ .clear := by
      unfold Reclaim.reclaimState
      rcases hstate with hs | hs <;> rw [hs] <;> decide
    have hthread : q ≤ q ∧ q + (st.total - q) = st.total :=
      ⟨Nat.le_refl q, Nat.add_sub_cancel' (h.bound hbusy)⟩
    exact ⟨{ h with settled := hsettled, thread := hthread }, Or.inr rfl⟩
  · exact fun _ => ⟨h, Or.inl rfl⟩

theorem OnceAt.within {map : Fin 2} {i avail : Nat}
    (hth : st.thread = .looping map pos i avail) :
    q ≤ pos ∧ i ≤ avail ∧ pos + (avail - i) = st.total := by
  have hwithin := h.thread
  rwa [hth] at hwithin

end

theorem Reclaim.Initial.once (h : st.Initial) : OnceAt st.first 0 st := by
  have hnone : ∀ j, (st.slots j).posFlag = false := fun j =>
    Bool.eq_false_iff.mpr (fun hj => h.slots j (Or.inr hj))
  refine ⟨h.settled, .none hnone, fun _ => h.processIndex _, h.processIndex _, fun _ => rfl,
    fun k hk => absurd (h.handled k) hk, fun _ => Nat.zero_le _, ?_⟩
  rw [h.thread]
  trivial

variable [Inhabited ε] {tun : AggreTunables}

theorem OnceAt.processElem {map : Fin 2} {i avail : Nat} {state : ElemState}
    (h : OnceAt lo q st) (hth : st.thread = .looping map pos i avail) (more : i < avail)
    (settled : Settled lo { st.processElem map pos state txg with
      thread := .looping map (pos + 1) (i + 1) avail }) :
    OnceAt lo (if state = .err then q else pos + 1) { st.processElem map pos state txg with
      thread := .looping map (pos + 1) (i + 1) avail } := by
  obtain ⟨hpos, hi, hleft⟩ := h.within hth
  have hbusy := h.settled.running_busy (congrArg ReclaimThread.map hth)
  have hin : pos < st.total := by omega
  have hnext : pos + 1 ≤ pos + 1 ∧ i + 1 ≤ avail ∧ pos + 1 + (avail - (i + 1)) = st.total :=
    ⟨Nat.le_refl _, more, by omega⟩
  by_cases herr : state = .err
  · subst herr
    exact { h with settled := settled, thread := ⟨Nat.le_succ_of_le hpos, hnext.2⟩ }
  · obtain ⟨_, _, heq⟩ := processElem_parked txg map pos state st herr
      (.looping map (pos + 1) (i + 1) avail)
    rw [heq] at settled ⊢
    rw [if_neg herr]
    exact h.handle hpos hbusy hin settled rfl rfl hnext

theorem OnceAt.step {a : ReclaimAction ε} (h : OnceAt st.first q st) (ok : EntersAfterSync st a)
    (hstep : st.step tun a = some st') : ∃ q, OnceAt st'.first q st' := by
  have hsettled := h.settled.step ok.afterEnd hstep
  cases Reclaim.step_cases hstep with
  | enter _ =>
    rw [enter_first]
    exact ⟨q, (h.enter _ ok).1⟩
  | startFails | stop | endFails => exact ⟨q, { h with settled := hsettled, thread := trivial }⟩
  | start hth assign =>
    have hwithin := h.thread
    rw [hth] at hwithin
    exact ⟨q, h.mark assign hsettled rfl rfl ⟨hwithin.1, Nat.zero_le _, hwithin.2⟩⟩
  | @processFails map pos i avail state hth more =>
    obtain ⟨hpos, hi, hleft⟩ := h.within hth
    have hnext : q ≤ pos + 1 ∧ i + 1 ≤ avail ∧ pos + 1 + (avail - (i + 1)) = st.total :=
      ⟨Nat.le_succ_of_le hpos, more, by omega⟩
    exact ⟨q, { h with settled := hsettled, thread := hnext }⟩
  | @process map pos i avail txg state hth more assign =>
    rw [processElem_first_thread] at hsettled ⊢
    exact ⟨_, h.processElem hth more hsettled⟩
  | finish hth _ assign => exact ⟨q, h.mark assign hsettled rfl rfl trivial⟩
  | openTxg | stripe => exact ⟨q, { h with settled := hsettled }⟩
  | beginSync passed closed =>
    rw [first_passed passed] at h
    exact ⟨q, { h with settled := hsettled }⟩
  | syncPass =>
    rw [syncPass_first]
    exact h.syncPass tun _ _

end Once

end ClusterZfs

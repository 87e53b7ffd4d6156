import ClusterZfs.Aggre.Stripes

/-! A stripe is freed only when no block pointer into it is left, in every run in which stripes
are not captured by snapshots, holds of live members succeed, rewrites of members are not
dropped, and passes enter after the requests of the earlier ones were applied. -/
namespace ClusterZfs

namespace Pool

/-- The steps that keep the free of stripes safe. -/
def SafeStep (p : Pool) : PoolAction → Prop
  | .reclaim a => EntersAfterSync p.rc a
  | .process (.found unheld) _ => ∀ e, p.currentElem = some e →
      ∀ k ∈ unheld, (p.heads (e.block k)).bornIn e.txg = false
  | .nopWrite b => ∀ dva birth, p.heads b ≠ .member dva birth
  | .snapshot d => ∀ o k dva birth, p.heads ⟨d, o, k⟩ ≠ .member dva birth
  | _ => True

/- Every stripe has at most one record that reclaim can come to, and a block pointer into a
stripe whose record is pending is one of the record's members. -/
structure Sound (p : Pool) : Prop where
  once : ∃ q, OnceAt p.rc.first q p.rc
  clearEmpty : p.rc.ClearEmpty
  unique : ((p.rc.pending + p.rc.freeing).map AggreElem.dva).Nodup
  held : ∀ e ∈ p.rc.pending + p.rc.freeing, p.allocated e.dva = true
  alloc : ∀ b dva birth, p.heads b = .member dva birth → p.allocated dva = true
  owned : ∀ b dva birth, p.heads b = .member dva birth → ∀ e ∈ p.rc.pending, e.dva = dva →
    e.txg = birth ∧ b ∈ e.blkid.map e.block
  dirtied : ∀ b dva birth, p.heads b = .member dva birth → ∀ j, j < 4 →
    ∀ e ∈ p.rc.freeBplist j, e.dva = dva → b ∈ p.dirty j
  frozen : ∀ s ∈ p.snaps, ∀ o k dva birth, s.ptrs o k ≠ .member dva birth
  frozenAbsent : ∀ s ∈ p.snaps, ∀ o k, s.objects o = false → s.ptrs o k = .hole
  absent : ∀ b, (p.datasets b.objset && p.objects b.objset b.object) = false → p.heads b = .hole

section Current

variable {p : Pool} {tun : AggreTunables} {e : AggreElem} {unheld : List Nat}

section

variable (h : p.Sound)
include h

/-- The record the thread is at was not handled, and is one of the inactive map. -/
theorem Sound.current {map : Fin 2} {pos i avail : Nat}
    (hth : p.rc.thread = .looping map pos i avail) (more : i < avail) :
    pos < p.rc.total ∧ p.rc.handled pos = [] ∧
      p.currentElem = some ((p.rc.maps p.rc.reclaimObj).elems.getD pos default) := by
  obtain ⟨q, honce⟩ := h.once
  obtain ⟨hpos, hi, hleft⟩ := honce.within hth
  have hmap := (honce.settled.running map (congrArg ReclaimThread.map hth)).1
  refine ⟨by omega, honce.entered_unhandled hpos, ?_⟩
  unfold currentElem
  rw [hth, hmap]

theorem Sound.current_pending {map : Fin 2} {pos i avail : Nat}
    (hth : p.rc.thread = .looping map pos i avail) (more : i < avail) :
    (p.rc.maps p.rc.reclaimObj).elems.getD pos default ∈ p.rc.pending := by
  obtain ⟨hin, hfresh, _⟩ := h.current hth more
  have hstep := pending_handle
    { p.rc with handled := Function.update p.rc.handled pos [.free] } hin hfresh
    (List.cons_ne_nil _ _) rfl rfl rfl
  have hpending : p.rc.pending = _ := hstep
  rw [hpending]
  exact Multiset.mem_add.mpr (Or.inr (Multiset.mem_singleton_self _))

theorem Sound.unchanged (pending : e ∈ p.rc.pending)
    (safe : ∀ k ∈ unheld, (p.heads (e.block k)).bornIn e.txg = false) {b : BlockId} {birth : Nat}
    (hb : p.heads b = .member e.dva birth) :
    ∃ k ∈ e.blkid, b = e.block k ∧ p.changed e unheld k = false := by
  obtain ⟨hbirth, hmem⟩ := h.owned b _ birth hb e pending rfl
  obtain ⟨k, hk, hblock⟩ := List.mem_map.mp hmem
  refine ⟨k, hk, hblock.symm, ?_⟩
  have hborn : (p.heads (e.block k)).bornIn e.txg = true := by
    rw [hblock, hb, hbirth]
    exact beq_self_eq_true birth
  have hheld : k ∉ unheld := fun hin => by
    rw [safe k hin] at hborn
    cases hborn
  simp [changed, hheld, hborn]

theorem Sound.free_unreferenced (pending : e ∈ p.rc.pending)
    {holeAdjust : Int}
    (safe : ∀ k ∈ unheld, (p.heads (e.block k)).bornIn e.txg = false)
    (free : p.elemState holeAdjust e (.found unheld) = .free) (b : BlockId) (birth : Nat) :
    p.heads b ≠ .member e.dva birth := by
  intro hb
  obtain ⟨k, hk, rfl, hkept⟩ := h.unchanged pending safe hb
  by_cases hthere : (p.datasets e.objsetid && p.objects e.objsetid e.objectid) = true
  · have hmissing : (!p.datasets e.objsetid || !p.objects e.objsetid e.objectid) = false := by
      rw [← Bool.not_and, hthere]
      rfl
    have hcount : p.changeNum e unheld = e.blkid.length := by
      by_contra hne
      simp only [elemState, hmissing, Bool.false_eq_true, if_false, if_neg hne] at free
      split at free
      · cases free
      · split at free <;> cases free
    have hall := List.length_filter_eq_length_iff.mp hcount k hk
    rw [hkept] at hall
    cases hall
  · have hhole := h.absent (e.block k) (Bool.eq_false_iff.mpr hthere)
    rw [hhole] at hb
    cases hb

theorem Sound.rewrite_redirtied (pending : e ∈ p.rc.pending)
    (safe : ∀ k ∈ unheld, (p.heads (e.block k)).bornIn e.txg = false) {b : BlockId} {birth : Nat}
    (hb : p.heads b = .member e.dva birth) : b ∈ p.redirtied e (.found unheld) := by
  obtain ⟨k, hk, rfl, hkept⟩ := h.unchanged pending safe hb
  refine List.mem_map.mpr ⟨k, List.mem_filter.mpr ⟨hk, ?_⟩, rfl⟩
  rw [hkept]
  rfl

end

end Current

section Step

variable {p p' : Pool} {tun : AggreTunables} {holeAdjust : Int} {rc : Reclaim AggreElem}
  {dirty : Nat → List BlockId} {e : AggreElem}

theorem Sound.records (h : p.Sound)
    (once : ∃ q, OnceAt rc.first q rc) (clearEmpty : rc.ClearEmpty)
    (pending : rc.pending ≤ p.rc.pending)
    (records : rc.pending + rc.freeing ≤ p.rc.pending + p.rc.freeing)
    (dirtied : ∀ b dva birth, p.heads b = .member dva birth → ∀ j, j < 4 →
      ∀ e ∈ rc.freeBplist j, e.dva = dva → b ∈ dirty j) :
    ({ p with rc := rc, dirty := dirty } : Pool).Sound where
  once := once
  clearEmpty := clearEmpty
  unique := Multiset.nodup_of_le (Multiset.map_le_map records) h.unique
  held e he := h.held e (Multiset.mem_of_le records he)
  alloc := h.alloc
  owned b dva birth hb e he := h.owned b dva birth hb e (Multiset.mem_of_le pending he)
  dirtied := dirtied
  frozen := h.frozen
  frozenAbsent := h.frozenAbsent
  absent := h.absent

section

variable (h : p.Sound)
include h

theorem Sound.quiet {a : ReclaimAction AggreElem}
    (safe : EntersAfterSync p.rc a) (hstep : p.rc.step tun a = some rc)
    (process : ∀ state txg, a ≠ .process state txg) (stripe : ∀ e, a ≠ .stripe e)
    (sync : ∀ now start, a ≠ .syncPass now start) : ({ p with rc := rc } : Pool).Sound := by
  obtain ⟨hmaps, hactive, hhandled, hmaplist, hfrees, -⟩ := quiet_step hstep process stripe sync
  obtain ⟨q, honce⟩ := h.once
  have hpending : rc.pending = p.rc.pending := pending_congr hmaps hactive hhandled hmaplist
  have hfreeing : rc.freeing = p.rc.freeing := congrArg slotLists hfrees
  refine h.records (honce.step safe hstep) (ClearEmpty.congr h.clearEmpty hmaps hactive)
    (le_of_eq hpending) ?_ ?_
  · rw [hpending, hfreeing]
  · rw [hfrees]
    exact h.dirtied

/-- A record that is freed, with the members that are left dirtied, goes from the pending records
to a list of frees. -/
theorem Sound.freed {txg : Nat} (once : ∃ q, OnceAt rc.first q rc)
    (clearEmpty : rc.ClearEmpty)
    (pending : p.rc.pending = rc.pending + {e})
    (frees : rc.freeBplist =
      Function.update p.rc.freeBplist (txg % 4) (p.rc.freeBplist (txg % 4) ++ [e]))
    (kept : ∀ j b, b ∈ p.dirty j → b ∈ dirty j)
    (left : ∀ b birth, p.heads b = .member e.dva birth → b ∈ dirty (txg % 4)) :
    ({ p with rc := rc, dirty := dirty } : Pool).Sound := by
  have hfreeing : rc.freeing = p.rc.freeing + {e} := by
    unfold Reclaim.freeing
    rw [frees]
    exact slotLists_append p.rc.freeBplist txg e
  refine h.records once clearEmpty ?_ ?_ ?_
  · rw [pending]
    exact Multiset.le_add_right _ _
  · rw [pending, hfreeing, add_right_comm, add_assoc]
  · intro b dva birth hb j hj e' he' hdva
    rw [frees] at he'
    by_cases hslot : j = txg % 4
    · rw [hslot, Function.update_self, List.mem_append, List.mem_singleton] at he'
      rcases he' with he' | rfl
      · exact kept j b (h.dirtied b dva birth hb j hj e' (hslot ▸ he') hdva)
      · rw [hslot]
        exact left b birth (hdva ▸ hb)
    · rw [Function.update_of_ne hslot] at he'
      exact kept j b (h.dirtied b dva birth hb j hj e' he' hdva)

theorem Sound.process {lookup : ElemLookup} {txg : Option Nat}
    (he : p.currentElem = some e) (safe : p.SafeStep (.process lookup txg))
    (hstep : p.rc.step tun (.process (p.elemState holeAdjust e lookup) txg) = some rc) :
    (p.afterProcess (p.redirtied e lookup) (p.elemState holeAdjust e lookup) txg rc).Sound := by
  obtain ⟨q, honce⟩ := h.once
  have hok : EntersAfterSync p.rc (.process (p.elemState holeAdjust e lookup) txg) := trivial
  have hnext := honce.step hok hstep
  generalize hs : p.elemState holeAdjust e lookup = state at hstep hnext ⊢
  cases Reclaim.step_cases hstep with
  | processFails hth more =>
    have hdirty : p.dirtyAfter (p.redirtied e lookup) state none = p.dirty := by
      cases state <;> rfl
    unfold afterProcess
    rw [hdirty]
    exact h.records hnext h.clearEmpty (le_refl _) (le_refl _) h.dirtied
  | @process map pos i avail txg _ hth more assign =>
    obtain ⟨hin, hfresh, hcur⟩ := h.current hth more
    have helem : (p.rc.maps p.rc.reclaimObj).elems.getD pos default = e :=
      Option.some.inj (hcur.symm.trans he)
    have hpend := h.current_pending hth more
    rw [helem] at hpend
    obtain rfl := (honce.settled.running map (congrArg ReclaimThread.map hth)).1
    cases state with
    | err => exact h.records hnext h.clearEmpty (le_refl _) (le_refl _) h.dirtied
    | noChange =>
      have hsame := pending_noChange hin hfresh txg
      refine h.records hnext h.clearEmpty (le_of_eq hsame) (le_of_eq ?_) h.dirtied
      exact congrArg (· + p.rc.freeing) hsame
    | free =>
      have hfreed := pending_freed hin hfresh (Or.inl rfl : ElemState.free = .free ∨ _) txg
      rw [helem] at hfreed
      have hnone : ∀ b birth, p.heads b = .member e.dva birth → b ∈ p.dirty (txg % 4) := by
        intro b birth hb
        cases lookup with
        | failed => cases hs
        | found unheld =>
          exact absurd hb (h.free_unreferenced hpend (safe _ he) hs b birth)
      exact h.freed hnext h.clearEmpty hfreed (by rw [← helem]; rfl) (fun _ _ hb => hb) hnone
    | rewrite =>
      have hfreed := pending_freed hin hfresh (Or.inr rfl : ElemState.rewrite = .free ∨ _) txg
      rw [helem] at hfreed
      have hkept : ∀ j b, b ∈ p.dirty j →
          b ∈ p.dirtyAfter (p.redirtied e lookup) .rewrite (some txg) j := by
        intro j b hb
        dsimp only [dirtyAfter]
        by_cases hj : j = txg % 4
        · rw [hj, Function.update_self]
          exact List.mem_append_left _ (hj ▸ hb)
        · rwa [Function.update_of_ne hj]
      refine h.freed hnext h.clearEmpty hfreed (by rw [← helem]; rfl) hkept ?_
      intro b birth hb
      dsimp only [dirtyAfter]
      rw [Function.update_self]
      refine List.mem_append_right _ ?_
      cases lookup with
      | failed => cases hs
      | found unheld => exact h.rewrite_redirtied hpend (safe _ he) hb

theorem Sound.shrink {heads : BlockId → BlockPtr}
    {datasets : Nat → Bool} {objects : Nat → Nat → Bool}
    (members : ∀ b dva birth, heads b = .member dva birth → p.heads b = .member dva birth ∧
      ∀ j, b ∈ p.dirty j → b ∈ dirty j)
    (absent : ∀ b, (datasets b.objset && objects b.objset b.object) = false → heads b = .hole) :
    ({ p with heads := heads, dirty := dirty, datasets := datasets,
              objects := objects } : Pool).Sound where
  once := h.once
  clearEmpty := h.clearEmpty
  unique := h.unique
  held := h.held
  alloc b dva birth hb := h.alloc b dva birth (members b dva birth hb).1
  owned b dva birth hb := h.owned b dva birth (members b dva birth hb).1
  dirtied b dva birth hb j hj e he hdva :=
    (members b dva birth hb).2 j (h.dirtied b dva birth (members b dva birth hb).1 j hj e he hdva)
  frozen := h.frozen
  frozenAbsent := h.frozenAbsent
  absent := absent

theorem Sound.setHead {b : BlockId} {ptr : BlockPtr}
    (plain : ∀ dva birth, ptr ≠ .member dva birth) (there : p.untouched b = true) :
    (p.setHead b ptr).Sound := by
  refine h.shrink ?_ ?_
  · intro b' dva birth hb
    have hne : b' ≠ b := by
      rintro rfl
      rw [Function.update_self] at hb
      exact plain dva birth hb
    rw [Function.update_of_ne hne] at hb
    exact ⟨hb, fun j hj => List.mem_filter.mpr ⟨hj, decide_eq_true hne⟩⟩
  · intro b' hgone
    have hne : b' ≠ b := by
      rintro rfl
      unfold untouched at there
      rw [hgone] at there
      cases there
    rw [Function.update_of_ne hne]
    exact h.absent b' hgone

theorem Sound.drop {gone : BlockId → Bool} {datasets : Nat → Bool}
    {objects : Nat → Nat → Bool}
    (absent : ∀ b, (datasets b.objset && objects b.objset b.object) = false →
      gone b = true ∨ (p.datasets b.objset && p.objects b.objset b.object) = false) :
    ({ p.drop gone with datasets := datasets, objects := objects } : Pool).Sound := by
  refine h.shrink ?_ ?_
  · intro b dva birth hb
    simp only [Pool.drop] at hb ⊢
    split at hb
    · cases hb
    · rename_i hg
      exact ⟨hb, fun j hj => List.mem_filter.mpr ⟨hj, by simpa using hg⟩⟩
  · intro b hb
    simp only [Pool.drop]
    split
    · rfl
    · rename_i hg
      exact h.absent b ((absent b hb).resolve_left hg)

theorem Sound.stripe (free : p.allocated e.dva = false)
    (txg : e.txg = p.rc.syncingTxg)
    (there : ∀ k ∈ e.blkid, p.untouched (e.block k) = true) : (p.writeStripe e).Sound := by
  obtain ⟨q, honce⟩ := h.once
  have hnew : ∀ e' ∈ p.rc.pending + p.rc.freeing, e'.dva ≠ e.dva := by
    intro e' he' hdva
    have := h.held e' he'
    rw [hdva, free] at this
    cases this
  have hpending : (appendMaplist e p.rc.syncingTxg p.rc).pending = p.rc.pending + {e} :=
    pending_stripe e _
  have hstep : p.rc.step ⟨0, 0, 0⟩ (.stripe e) = some (appendMaplist e p.rc.syncingTxg p.rc) := rfl
  have hother : ∀ b dva birth, b ∉ e.blkid.map e.block → p.heads b = .member dva birth →
      dva ≠ e.dva := by
    intro b dva birth _ hb hdva
    have := h.alloc b dva birth hb
    rw [hdva, free] at this
    cases this
  have hheads : ∀ b dva birth, (p.writeStripe e).heads b = .member dva birth →
      (b ∈ e.blkid.map e.block ∧ dva = e.dva ∧ birth = e.txg) ∨
      (b ∉ e.blkid.map e.block ∧ p.heads b = .member dva birth) := by
    intro b dva birth hb
    simp only [writeStripe] at hb
    split at hb
    · rename_i hmem
      cases hb
      exact Or.inl ⟨hmem, rfl, txg.symm⟩
    · rename_i hmem
      exact Or.inr ⟨hmem, hb⟩
  have hrecords : (appendMaplist e p.rc.syncingTxg p.rc).pending + p.rc.freeing =
      e ::ₘ (p.rc.pending + p.rc.freeing) := by
    rw [hpending, ← Multiset.singleton_add]
    abel
  have hok : EntersAfterSync p.rc (.stripe e) := trivial
  refine ⟨honce.step hok hstep, h.clearEmpty, ?_, ?_, ?_, ?_, ?_, h.frozen,
    h.frozenAbsent, ?_⟩
  · change (((appendMaplist e p.rc.syncingTxg p.rc).pending + p.rc.freeing).map _).Nodup
    rw [hrecords, Multiset.map_cons, Multiset.nodup_cons]
    refine ⟨?_, h.unique⟩
    intro hmem
    obtain ⟨e', he', hdva⟩ := Multiset.mem_map.mp hmem
    exact hnew e' he' hdva
  · intro e' he'
    have hmem : e' ∈ e ::ₘ (p.rc.pending + p.rc.freeing) := hrecords ▸ he'
    rcases Multiset.mem_cons.mp hmem with rfl | hold
    · exact Function.update_self ..
    · exact (Function.update_of_ne (hnew e' hold) _ _).trans (h.held e' hold)
  · intro b dva birth hb
    rcases hheads b dva birth hb with ⟨_, rfl, _⟩ | ⟨hmem, hold⟩
    · exact Function.update_self ..
    · exact (Function.update_of_ne (hother b dva birth hmem hold) _ _).trans
        (h.alloc b dva birth hold)
  · intro b dva birth hb e' he' hdva
    have hcase : e' ∈ p.rc.pending + {e} := hpending ▸ he'
    rw [Multiset.mem_add, Multiset.mem_singleton] at hcase
    rcases hheads b dva birth hb with ⟨hmem, hd, hbirth⟩ | ⟨hmem, hold⟩
    · rcases hcase with hold | rfl
      · exact absurd (hdva.trans hd) (hnew e' (Multiset.mem_add.mpr (Or.inl hold)))
      · exact ⟨hbirth.symm, hmem⟩
    · rcases hcase with hpend | rfl
      · exact h.owned b dva birth hold e' hpend hdva
      · exact absurd hdva.symm (hother b dva birth hmem hold)
  · intro b dva birth hb j hj e' he' hdva
    rcases hheads b dva birth hb with ⟨_, hd, _⟩ | ⟨hmem, hold⟩
    · exact absurd (hdva.trans hd)
        (hnew e' (Multiset.mem_add.mpr (Or.inr (mem_slotLists_of hj he'))))
    · exact List.mem_filter.mpr ⟨h.dirtied b dva birth hold j hj e' he' hdva, by simpa using hmem⟩
  · intro b hgone
    simp only [writeStripe]
    split
    · rename_i hmem
      obtain ⟨k, hk, rfl⟩ := List.mem_map.mp hmem
      have hthere := there k hk
      have hmissing : (p.datasets (e.block k).objset &&
        p.objects (e.block k).objset (e.block k).object) = false := hgone
      unfold untouched at hthere
      rw [hmissing] at hthere
      cases hthere
    · exact h.absent b hgone

end

section

variable (h : p.Sound)
include h

theorem Sound.syncPass (written : p.dirty (p.rc.syncingTxg % 4) = [])
    (now : UInt64) (reclaimStart : Bool) :
    ({ p.releaseFreed with rc := syncPass tun now reclaimStart p.rc } : Pool).Sound := by
  obtain ⟨q, honce⟩ := h.once
  obtain ⟨hclear, hpending⟩ := pending_syncPass h.clearEmpty tun now reclaimStart
  have hfrees := (syncPass_lists tun p.rc now reclaimStart).1
  have hstep : p.rc.step tun (.syncPass now reclaimStart) =
    some (ClusterZfs.syncPass tun now reclaimStart p.rc) := rfl
  have hok : EntersAfterSync p.rc (.syncPass now reclaimStart) := trivial
  generalize ClusterZfs.syncPass tun now reclaimStart p.rc = rc at *
  have hsplit : p.rc.freeing = rc.freeing + ↑(p.rc.freeBplist (p.rc.syncingTxg % 4)) := by
    unfold Reclaim.freeing
    rw [hfrees]
    exact slotLists_clear _ _
  have hdisjoint : ∀ e ∈ rc.pending + rc.freeing,
      ∀ e' ∈ p.rc.freeBplist (p.rc.syncingTxg % 4), e'.dva ≠ e.dva := by
    intro e he e' he' hdva
    have hnodup := h.unique
    rw [hsplit, ← add_assoc, Multiset.map_add, Multiset.nodup_add] at hnodup
    have hmem : e ∈ p.rc.pending + rc.freeing :=
      Multiset.mem_of_le (add_le_add_left hpending _) he
    exact Multiset.disjoint_left.mp hnodup.2.2 (Multiset.mem_map_of_mem _ hmem)
      (hdva ▸ Multiset.mem_map_of_mem _ (Multiset.mem_coe.mpr he'))
  have hrecords : rc.pending + rc.freeing ≤ p.rc.pending + p.rc.freeing := by
    rw [hsplit, ← add_assoc]
    exact (add_le_add_left hpending _).trans (Multiset.le_add_right _ _)
  have hkept : ∀ dva, p.allocated dva = true →
      (∀ e ∈ p.rc.freeBplist (p.rc.syncingTxg % 4), e.dva ≠ dva) →
      p.releaseFreed.allocated dva = true := by
    intro dva halloc hnot
    simp only [releaseFreed, halloc, Bool.true_and, Bool.not_eq_true', List.contains_eq_mem,
      decide_eq_false_iff_not, List.mem_map, not_exists, not_and]
    exact hnot
  refine ⟨honce.step hok hstep, hclear,
    Multiset.nodup_of_le (Multiset.map_le_map hrecords) h.unique, ?_, ?_, ?_, ?_, h.frozen,
    h.frozenAbsent, h.absent⟩
  · intro e he
    exact hkept _ (h.held e (Multiset.mem_of_le hrecords he)) (hdisjoint e he)
  · intro b dva birth hb
    refine hkept dva (h.alloc b dva birth hb) ?_
    intro e he hdva
    have hdirty := h.dirtied b dva birth hb _ (Nat.mod_lt _ (by decide)) e he hdva
    rw [written] at hdirty
    cases hdirty
  · intro b dva birth hb e he
    exact h.owned b dva birth hb e (Multiset.mem_of_le hpending he)
  · intro b dva birth hb j hj e he
    have hold : e ∈ p.rc.freeBplist j := by
      have he' : e ∈ rc.freeBplist j := he
      rw [hfrees] at he'
      by_cases hslot : j = p.rc.syncingTxg % 4
      · rw [hslot, Function.update_self] at he'
        cases he'
      · rwa [Function.update_of_ne hslot] at he'
    exact h.dirtied b dva birth hb j hj e hold

theorem Sound.clone {s : Snapshot} (mem : s ∈ p.snaps) (d : Nat) :
    ({ p with
       heads := fun b => if b.objset = d then s.ptrs b.object b.blkid else p.heads b
       datasets := Function.update p.datasets d true
       objects := Function.update p.objects d s.objects } : Pool).Sound := by
  refine h.shrink ?_ ?_
  · intro b dva birth hb
    split at hb
    · exact absurd hb (h.frozen s mem _ _ dva birth)
    · exact ⟨hb, fun _ hj => hj⟩
  · intro b hgone
    split
    · rename_i hd
      rw [hd, Function.update_self, Function.update_self, Bool.true_and] at hgone
      exact h.frozenAbsent s mem _ _ hgone
    · rename_i hd
      rw [Function.update_of_ne hd, Function.update_of_ne hd] at hgone
      exact h.absent b hgone

theorem Sound.create (d o : Nat) :
    ({ p with
       datasets := Function.update p.datasets d true
       objects := Function.update p.objects d (Function.update (p.objects d) o true) } :
      Pool).Sound := by
  refine h.shrink (fun _ _ _ hb => ⟨hb, fun _ hj => hj⟩) ?_
  intro b hgone
  refine h.absent b ?_
  by_cases hd : b.objset = d
  · rw [hd, Function.update_self, Function.update_self, Bool.true_and] at hgone
    by_cases ho : b.object = o
    · rw [ho, Function.update_self] at hgone
      cases hgone
    · rw [Function.update_of_ne ho] at hgone
      rw [hd, hgone, Bool.and_false]
  · rwa [Function.update_of_ne hd, Function.update_of_ne hd] at hgone

theorem Sound.snapshot {d : Nat}
    (safe : ∀ o k dva birth, p.heads ⟨d, o, k⟩ ≠ .member dva birth) :
    ({ p with snaps := p.snaps ++ [⟨fun o k => p.heads ⟨d, o, k⟩, p.objects d⟩] } :
      Pool).Sound := by
  refine { h with frozen := ?_, frozenAbsent := ?_ }
  · intro s hs
    rcases List.mem_append.mp hs with hs | hs
    · exact h.frozen s hs
    · rw [List.mem_singleton.mp hs]
      exact safe
  · intro s hs
    rcases List.mem_append.mp hs with hs | hs
    · exact h.frozenAbsent s hs
    · rw [List.mem_singleton.mp hs]
      intro o k hgone
      refine h.absent ⟨d, o, k⟩ ?_
      dsimp only at hgone ⊢
      rw [hgone, Bool.and_false]

theorem Sound.step {a : PoolAction} (safe : p.SafeStep a)
    (hstep : p.step tun holeAdjust a = some p') : p'.Sound := by
  cases a with
  | reclaim a =>
    have hquiet : ∀ {a : ReclaimAction AggreElem}, EntersAfterSync p.rc a →
        (∀ state txg, a ≠ .process state txg) → (∀ e, a ≠ .stripe e) →
        (∀ now start, a ≠ .syncPass now start) →
        (p.rc.step tun a).map (fun rc => { p with rc := rc }) = some p' → p'.Sound := by
      intro a hok h1 h2 h3 hmap
      obtain ⟨rc, hrc, rfl⟩ := Option.map_eq_some_iff.mp hmap
      exact h.quiet hok hrc h1 h2 h3
    have hok : EntersAfterSync p.rc a := safe
    cases a with
    | process | stripe | syncPass => cases hstep
    | _ => exact hquiet hok (by simp) (by simp) (by simp) hstep
  | process lookup txg =>
    simp only [Pool.step] at hstep
    split at hstep
    · cases hstep
    · rename_i e he
      obtain ⟨rc, hrc, rfl⟩ := Option.map_eq_some_iff.mp hstep
      exact h.process he safe hrc
  | stripe objset object blkid dva =>
    simp only [Pool.step, Option.ite_none_right_eq_some, Option.some.injEq] at hstep
    obtain ⟨⟨hfree, hthere⟩, rfl⟩ := hstep
    exact h.stripe hfree rfl hthere
  | overwrite b | punch b =>
    simp only [Pool.step, Option.ite_none_right_eq_some, Option.some.injEq] at hstep
    obtain ⟨hthere, rfl⟩ := hstep
    exact h.setHead (fun _ _ hb => by cases hb) hthere
  | nopWrite b =>
    simp only [Pool.step, Option.ite_none_right_eq_some, Option.some.injEq] at hstep
    obtain ⟨_, rfl⟩ := hstep
    refine h.shrink ?_ h.absent
    intro b' dva birth hb
    refine ⟨hb, fun j hj => ?_⟩
    have hne : b' ≠ b := by
      rintro rfl
      exact safe dva birth hb
    by_cases hslot : j = p.rc.syncingTxg % 4
    · rw [hslot, Function.update_self]
      exact List.mem_filter.mpr ⟨hslot ▸ hj, decide_eq_true hne⟩
    · rwa [Function.update_of_ne hslot]
  | snapshot d =>
    cases hstep
    exact h.snapshot safe
  | clone i d =>
    simp only [Pool.step] at hstep
    split at hstep
    · cases hstep
    · rename_i s hs
      simp only [Option.ite_none_right_eq_some, Option.some.injEq] at hstep
      obtain ⟨_, rfl⟩ := hstep
      exact h.clone (List.mem_of_getElem? hs) d
  | create d o =>
    cases hstep
    exact h.create d o
  | destroy d =>
    cases hstep
    refine h.drop ?_
    intro b hgone
    by_cases hd : b.objset = d
    · exact Or.inl (beq_iff_eq.mpr hd)
    · rw [Function.update_of_ne hd] at hgone
      exact Or.inr hgone
  | freeObject d o =>
    cases hstep
    refine h.drop ?_
    intro b hgone
    by_cases hd : b.objset = d
    · by_cases ho : b.object = o
      · exact Or.inl (Bool.and_eq_true_iff.mpr ⟨beq_iff_eq.mpr hd, beq_iff_eq.mpr ho⟩)
      · rw [hd, Function.update_self, Function.update_of_ne ho] at hgone
        exact Or.inr (hd ▸ hgone)
    · rw [Function.update_of_ne hd] at hgone
      exact Or.inr hgone
  | syncPass now reclaimStart =>
    simp only [Pool.step, Option.ite_none_right_eq_some, Option.some.injEq] at hstep
    obtain ⟨hwritten, rfl⟩ := hstep
    exact h.syncPass hwritten now reclaimStart

theorem Sound.freeCall_unreferenced {a : PoolAction} (safe : p.SafeStep a)
    (hstep : p.step tun holeAdjust a = some p') {dva : Nat} {redirtied : List BlockId}
    (call : p.freeCall holeAdjust a = some (dva, redirtied)) : ¬ p.Referenced dva redirtied := by
  have hsnaps : ¬ ∃ s ∈ p.snaps, ∃ o k birth, s.ptrs o k = .member dva birth := by
    rintro ⟨s, hs, o, k, birth, hptr⟩
    exact h.frozen s hs o k dva birth hptr
  suffices hheads : ∀ b birth, p.heads b = .member dva birth → b ∈ redirtied by
    rintro (⟨b, birth, hnot, hb⟩ | hsnap)
    · exact hnot (hheads b birth hb)
    · exact hsnaps hsnap
  cases a with
  | process lookup txg =>
    cases txg with
    | none => cases call
    | some txg =>
      simp only [Pool.step] at hstep
      simp only [freeCall] at call
      cases he : p.currentElem with
      | none => simp [he] at call
      | some e =>
        simp only [he] at hstep call
        obtain ⟨rc, hrc, _⟩ := Option.map_eq_some_iff.mp hstep
        have hpend : e ∈ p.rc.pending := by
          cases Reclaim.step_cases hrc with
          | process hth more _ =>
            have hcur := (h.current hth more).2.2
            have hmem := h.current_pending hth more
            rwa [Option.some.inj (hcur.symm.trans he)] at hmem
        intro b birth hb
        cases lookup with
        | failed => cases call
        | found unheld =>
          cases hs : p.elemState holeAdjust e (.found unheld) with
          | free =>
            rw [hs] at call
            cases call
            exact absurd hb (h.free_unreferenced hpend (safe e he) hs b birth)
          | rewrite =>
            rw [hs] at call
            cases call
            exact h.rewrite_redirtied hpend (safe e he) hb
          | err | noChange =>
            rw [hs] at call
            cases call
  | _ => cases call

end

end Step

/-- A pool without stripes and snapshots. -/
structure Initial (p : Pool) : Prop where
  rc : p.rc.Initial
  clearEmpty : p.rc.ClearEmpty
  pending : p.rc.pending = 0
  freeBplist : ∀ j, p.rc.freeBplist j = []
  heads : ∀ b dva birth, p.heads b ≠ .member dva birth
  snaps : p.snaps = []
  absent : ∀ b, (p.datasets b.objset && p.objects b.objset b.object) = false → p.heads b = .hole

theorem Initial.sound {p : Pool} (h : p.Initial) : p.Sound := by
  have hfreeing : p.rc.freeing = 0 := by
    simp [Reclaim.freeing, slotLists, h.freeBplist]
  refine ⟨⟨0, h.rc.once⟩, h.clearEmpty, ?_, ?_, ?_, ?_, ?_, ?_, ?_, h.absent⟩
  · rw [h.pending, hfreeing]
    exact Multiset.nodup_zero
  · rw [h.pending, hfreeing]
    exact fun e he => absurd he (Multiset.notMem_zero e)
  · exact fun b dva birth hb => absurd hb (h.heads b dva birth)
  · exact fun b dva birth hb => absurd hb (h.heads b dva birth)
  · exact fun b dva birth hb => absurd hb (h.heads b dva birth)
  · rw [h.snaps]
    exact fun s hs => absurd hs List.not_mem_nil
  · rw [h.snaps]
    exact fun s hs => absurd hs List.not_mem_nil

/- A pool with one object, and no stripe. -/
def fresh : Pool where
  rc := Reclaim.fresh AggreElem
  heads _ := .hole
  snaps := []
  datasets d := d == 1
  objects d o := d == 1 && o == 1
  allocated _ := false
  dirty _ := []

theorem fresh_initial : fresh.Initial where
  rc := Reclaim.fresh_initial AggreElem
  clearEmpty _ := rfl
  pending := rfl
  freeBplist _ := rfl
  heads _ _ _ hb := by cases hb
  snaps := rfl
  absent _ _ := rfl

/- The safe steps that can be told without looking at all blocks. -/
def plainlySafe (p : Pool) : PoolAction → Bool
  | .reclaim (.enter _) =>
    (List.range 4).all (fun j => !decide (p.rc.Ending j) && !(p.rc.slots j).posFlag)
  | .process (.found unheld) _ => unheld.isEmpty
  | .nopWrite _ => false
  | .snapshot _ => false
  | _ => true

theorem plainlySafe_safe {p : Pool} {a : PoolAction} (h : p.plainlySafe a = true) :
    p.SafeStep a := by
  cases a with
  | reclaim a =>
    cases a with
    | enter now =>
      intro j hj
      have hall := List.all_eq_true.mp h j (List.mem_range.mpr hj)
      simpa using hall
    | _ => trivial
  | process lookup txg =>
    cases lookup with
    | failed => trivial
    | found unheld =>
      intro e _ k hk
      rw [List.isEmpty_iff.mp h] at hk
      cases hk
  | nopWrite | snapshot => cases h
  | _ => trivial

/- A stripe of two blocks is written in txg 2, `between` happens in txg 3, the map is FILLED and a
pass starts. -/
def passAfter (between : List PoolAction) : List PoolAction :=
  [.reclaim .openTxg, .reclaim .beginSync, .stripe 1 1 [0, 1] 5, .syncPass 1000 true,
    .reclaim .openTxg, .reclaim .beginSync] ++ between ++
  [.syncPass 1000 true, .reclaim (.enter 1000), .reclaim (.startTx (some 4))]

end Pool

end ClusterZfs

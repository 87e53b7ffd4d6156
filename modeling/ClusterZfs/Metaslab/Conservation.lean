import ClusterZfs.Metaslab.Condense

/-! No byte of a metaslab is lost or in use twice, and no check fails, in every run whose claims go
to the txg that syncs next and that gives no block back while it is being condensed. -/
namespace ClusterZfs

/- The bytes that the space map says are allocated, and the trees. -/
def MetaslabSys.containers (s : MetaslabSys) (A : RangeSet) : List RangeSet :=
  [A, s.ms.msTree, s.ms.alloctree s.syncingTxg, s.ms.alloctree (s.syncingTxg + 1),
    s.ms.alloctree (s.syncingTxg + 2), s.ms.freetree (txgClean s.syncingTxg),
    s.ms.msDefertree 0, s.ms.msDefertree 1]

/- The containers share nothing, and when the metaslab is loaded they make up all of it. A byte that
is to be freed is still allocated, and it is freed once. -/
structure MetaslabSys.Partitioned (s : MetaslabSys) (A : RangeSet) : Prop where
  disjoint : (s.containers A).Pairwise Disjoint
  inside : ∀ c ∈ s.containers A, c ⊆ s.ms.region.range
  cover : s.ms.msLoaded = true → ∀ x ∈ s.ms.region.range, ∃ c ∈ s.containers A, x ∈ c
  frees : ∀ t, s.syncingTxg ≤ t → t ≤ s.syncingTxg + 2 → s.ms.freetree t ⊆
    A ∪ (s.ms.alloctree s.syncingTxg ∪ s.ms.alloctree (s.syncingTxg + 1) ∪
      s.ms.alloctree (s.syncingTxg + 2))
  once : ∀ t u, s.syncingTxg ≤ t → t < u → u ≤ s.syncingTxg + 2 →
    Disjoint (s.ms.freetree t) (s.ms.freetree u)

/- The place in `containers` of a byte in each stage. -/
def Life.home (syncing : Nat) : Life → Nat
  | .held none _ => 0
  | .free => 1
  | .held (some t) _ => 2 + (t - syncing)
  | .dead => 5
  | .deferred slot => 6 + slot

section Partition

variable {T : Nat} {l : Life}

variable {s : MetaslabSys} {life : Nat → Life} {A : RangeSet}

theorem Life.home_bornIn {t : Nat} (h : l.bornIn t) : l.home T = 2 + (t - T) := by
  obtain ⟨_, rfl⟩ := h.eq
  rfl

theorem Life.home_isFree (h : l.isFree) : l.home T = 1 := by
  rw [h.eq]
  rfl

theorem Life.home_onDisk (h : l.onDisk) : l.home T = 0 := by
  rcases l with _ | ⟨_ | u, dying⟩ | _ | slot <;> cases h
  rfl

theorem Life.home_isDead (h : l.isDead) : l.home T = 5 := by
  rw [h.eq]
  rfl

theorem Life.home_deferredIn {i : Nat} (h : l.deferredIn i) : l.home T = 6 + i := by
  rw [h.eq]
  rfl

theorem Conserved.born_live (h : Conserved s life) {x u : Nat} {dying : Option Nat}
    (hlife : life x = .held (some u) dying) :
    u = s.syncingTxg ∨ u = s.syncingTxg + 1 ∨ u = s.syncingTxg + 2 := by
  have hu : _ ≤ u ∧ u ≤ _ := (h.within x).born (by rw [hlife]; rfl)
  have hopen := h.txgs.2.2
  omega

theorem Conserved.partitioned (h : Conserved s life)
    (hA : Tracks s.ms.region.range life Life.onDisk A) : s.Partitioned A := by
  have ha₀ := h.alloc s.syncingTxg le_rfl (Nat.le_add_right _ _)
  have ha₁ := h.alloc (s.syncingTxg + 1) (Nat.le_add_right _ _) (by omega)
  have ha₂ := h.alloc (s.syncingTxg + 2) (Nat.le_add_right _ _) (by omega)
  have hd₀ := h.defer 0 (by decide)
  have hd₁ := h.defer 1 (by decide)
  have htree : s.ms.msTree ⊆ s.ms.region.range ∧ ∀ x ∈ s.ms.msTree, (life x).isFree := by
    cases hl : s.ms.msLoaded with
    | true => exact ⟨(h.tree hl).subset, fun x hx => (h.tree hl).stage hx⟩
    | false =>
      rw [(h.unloaded hl).1]
      exact ⟨Finset.empty_subset _, fun x hx => by cases hx⟩
  refine ⟨@Tracks.pairwise_disjoint _ _ (s.containers A) life (Life.home s.syncingTxg) ?_, ?_,
    fun hl x hx => ?_, fun t h1 h2 x hx => ?_, fun t u h1 h2 h3 => ?_⟩
  · intro i hi x hx
    match i, hi with
    | 0, _ => exact Life.home_onDisk (hA.stage hx)
    | 1, _ => exact Life.home_isFree (htree.2 x hx)
    | 2, _ => exact (Life.home_bornIn (ha₀.stage hx)).trans (by omega)
    | 3, _ => exact (Life.home_bornIn (ha₁.stage hx)).trans (by omega)
    | 4, _ => exact (Life.home_bornIn (ha₂.stage hx)).trans (by omega)
    | 5, _ => exact Life.home_isDead (h.freed.stage hx)
    | 6, _ => exact Life.home_deferredIn (hd₀.stage hx)
    | 7, _ => exact Life.home_deferredIn (hd₁.stage hx)
  · simp only [MetaslabSys.containers, List.forall_mem_cons]
    exact ⟨hA.subset, htree.1, ha₀.subset, ha₁.subset, ha₂.subset, h.freed.subset, hd₀.subset,
      hd₁.subset, by simp⟩
  · have hin := h.within x
    simp only [MetaslabSys.containers, List.exists_mem_cons_iff, hA x, h.tree hl x, ha₀ x, ha₁ x,
      ha₂ x, h.freed x, hd₀ x, hd₁ x, hx, true_and]
    cases hlife : life x with
    | free => simp [Life.isFree]
    | dead => simp [Life.isDead]
    | deferred slot =>
      have hslot : slot < 2 := by simpa [hlife, Life.Within, txgDeferSize] using hin
      have hone : slot = 0 ∨ slot = 1 := by omega
      simp only [Life.deferredIn]
      tauto
    | held born dying =>
      cases born with
      | none => simp [Life.onDisk]
      | some u =>
        have hlive := h.born_live hlife
        simp only [Life.bornIn]
        tauto
  · have hdying := (h.free t h1 h2).stage hx
    have hrange := (h.free t h1 h2).subset hx
    simp only [Finset.mem_union, hA x, ha₀ x, ha₁ x, ha₂ x, hrange, true_and]
    obtain ⟨_ | u, hlife⟩ := hdying.eq
    · simp [hlife, Life.onDisk]
    · have hlive := h.born_live hlife
      simp only [hlife, Life.bornIn]
      tauto
  · refine (h.free t h1 (by omega)).disjoint (h.free u (by omega) h3) fun x _ h₁ h₂ => ?_
    exact absurd (h₁.unique h₂) (by omega)

end Partition

/- A claim is for whole sectors and in the txg that syncs next, and no block is given back at once
while its metaslab is condensing. -/
def MetaslabCall.Careful (s : MetaslabSys) : MetaslabCall → Prop
  | .claim txg offset size _ => txg = s.syncingTxg ∧ 0 < size ∧ s.ms.Phased offset size
  | .freeNow .. => s.ms.msCondensing = none
  | _ => True

instance (s : MetaslabSys) (call : MetaslabCall) : Decidable (call.Careful s) :=
  match call with
  | .claim .. => inferInstanceAs (Decidable (_ ∧ _))
  | .freeNow .. => inferInstanceAs (Decidable (_ = _))
  | .openNext | .nextPass | .activate _ | .preload _ | .alloc .. | .free .. | .sync .. | .condense
  | .syncDone _ | .skip => inferInstanceAs (Decidable True)

/- A metaslab with allocations in later txgs was used in them. -/
def MetaslabSys.Accessed (s : MetaslabSys) : Prop :=
  ∀ t, s.syncingTxg < t → t ≤ s.syncingTxg + 2 → s.ms.alloctree t ≠ ∅ → t ≤ s.ms.msAccessTxg

section Accessed

variable {s s' : MetaslabSys} {life : Nat → Life} {ms ms' : Metaslab} {txg : Nat}

theorem MetaslabSys.Accessed.shrink (h : s.Accessed) (hsync : s'.syncingTxg = s.syncingTxg)
    (haccess : s'.ms.msAccessTxg = s.ms.msAccessTxg)
    (halloc : ∀ t, s.syncingTxg < t → t ≤ s.syncingTxg + 2 →
      s'.ms.alloctree t ⊆ s.ms.alloctree t) : s'.Accessed := by
  intro t h1 h2 hne
  rw [hsync] at h1 h2
  rw [haccess]
  refine h t h1 h2 fun hempty => hne ?_
  exact Finset.subset_empty.mp (hempty ▸ halloc t h1 h2)

theorem metaslabSyncEnd_frame {syncPass : Nat} (h : metaslabSyncEnd ms txg syncPass = some ms') :
    ms'.msAccessTxg = ms.msAccessTxg ∧
      ∀ t, txgSlot t ≠ txgSlot txg → ms'.alloctree t = ms.alloctree t := by
  obtain ⟨⟨freed, rest⟩, -, rfl⟩ := Option.map_eq_some_iff.mp h
  exact ⟨rfl, fun t ht => alloctree_setAlloctree_ne ht⟩

theorem metaslabSync_frame {syncPass : Nat} {wanted should : Bool}
    (h : metaslabSync ms txg syncPass wanted should = some ms') :
    ms'.msAccessTxg = ms.msAccessTxg ∧
      ∀ t, txgSlot t ≠ txgSlot txg → ms'.alloctree t = ms.alloctree t := by
  rw [metaslabSync] at h
  split at h
  · cases h
    exact ⟨rfl, fun _ _ => rfl⟩
  · split at h
    · obtain ⟨tree, -, rfl⟩ := Option.map_eq_some_iff.mp h
      exact ⟨rfl, fun _ _ => rfl⟩
    · obtain ⟨sm, -, hend⟩ := Option.bind_eq_some_iff.mp h
      obtain ⟨haccess, halloc⟩ := metaslabSyncEnd_frame hend
      exact ⟨haccess, halloc⟩

theorem MetaslabSys.Accessed.step (h : s.Accessed) (hcons : Conserved s life)
    {call : MetaslabCall} (hok : call.Allowed s) (hcare : call.Careful s)
    (hstep : metaslabStep s call = some s') : s'.Accessed := by
  have hlater : ∀ t, s.syncingTxg < t → t ≤ s.syncingTxg + 2 →
      txgSlot t ≠ txgSlot s.syncingTxg := fun t h1 h2 =>
    txgSlot_ne ⟨h1.le, Nat.le_succ_of_le h2⟩ ⟨le_rfl, Nat.le_add_right _ _⟩
      (by omega)
  -- the next txg: the one after the three that were live has no allocation yet
  have hnext : ∀ s' : MetaslabSys, s'.syncingTxg = s.syncingTxg + 1 →
      s'.ms.msAccessTxg = s.ms.msAccessTxg → s'.ms.msAlloctree = s.ms.msAlloctree →
      s'.Accessed := by
    intro s' hsync haccess halloc t h1 h2 hne
    rw [hsync] at h1 h2
    rw [haccess]
    have hsame : s'.ms.alloctree t = s.ms.alloctree t := congrFun halloc _
    rw [hsame] at hne
    by_cases ht : t = s.syncingTxg + 3
    · refine absurd ?_ hne
      exact (hcons.alloc t (by omega) (by omega)).unique
        (Tracks.of_none fun x _ => hcons.not_born_later (by omega) x)
    · exact h t (by omega) (by omega) hne
  cases call with
  | openNext | nextPass =>
    cases hstep
    exact h
  | activate dmuError =>
    obtain ⟨error, ms, hactivate, -, -, -, -, halloc, haccess⟩ := hcons.activate dmuError
    rw [metaslabStep, hactivate] at hstep
    cases hstep
    exact h.shrink rfl haccess fun t _ _ => (congrFun halloc _).subset
  | preload dmuError =>
    obtain ⟨error, ms, hactivate, -, -, -, -, halloc, haccess⟩ := hcons.activate dmuError
    rw [metaslabStep, metaslabPreload, hactivate] at hstep
    cases hstep
    intro t h1 h2 _
    have h2 : t ≤ s.syncingTxg + 2 := h2
    change t ≤ s.spaSyncingTxg + metaslabUnloadDelay + 1
    unfold MetaslabSys.spaSyncingTxg metaslabUnloadDelay txgSize
    split <;> omega
  | alloc txg offset size =>
    obtain ⟨ms₁, hgroup, rfl⟩ := Option.map_eq_some_iff.mp hstep
    obtain ⟨ms₂, -, hlast⟩ := Option.bind_eq_some_iff.mp hgroup
    obtain ⟨rt, -, rfl⟩ := Option.map_eq_some_iff.mp hlast
    intro t h1 h2 _
    have h2 : t ≤ s.syncingTxg + 2 := h2
    have hlo := hok.2.1.1
    change t ≤ txg + metaslabUnloadDelay
    unfold metaslabUnloadDelay txgSize
    omega
  | claim txg offset size dmuError =>
    rcases hcons.claim hok.1 hok.2 dmuError with
      ⟨-, hnone⟩ | ⟨s₁, hstep₁, -, haccess, hsync, -, hslot⟩
    · exact absurd (hstep.symm.trans hnone) (by simp)
    · rw [hstep] at hstep₁
      cases hstep₁
      refine h.shrink hsync haccess fun t h1 h2 => (hslot t ?_).subset
      rw [hcare.1]
      exact hlater t h1 h2
  | free txg offset size =>
    obtain ⟨ms₁, hfree, rfl⟩ := Option.map_eq_some_iff.mp hstep
    obtain ⟨rt, -, rfl⟩ := Option.map_eq_some_iff.mp hfree
    exact h
  | freeNow txg offset size =>
    rcases hcons.freeAtOnce hok with ⟨-, hnone⟩ | ⟨s₁, hstep₁, -, haccess, hsync, -, hsub⟩
    · exact absurd (hstep.symm.trans hnone) (by simp)
    · rw [hstep] at hstep₁
      cases hstep₁
      exact h.shrink hsync haccess fun t _ _ => hsub t
  | sync wanted should =>
    obtain ⟨ms₁, hsync, rfl⟩ := Option.map_eq_some_iff.mp hstep
    obtain ⟨haccess, hslot⟩ := metaslabSync_frame hsync
    exact h.shrink rfl haccess fun t h1 h2 => (hslot t (hlater t h1 h2)).subset
  | condense =>
    obtain ⟨tree, -, hrest⟩ := Option.bind_eq_some_iff.mp hstep
    obtain ⟨ms₁, hcondense, rfl⟩ := Option.map_eq_some_iff.mp hrest
    obtain ⟨sm, -, hend⟩ := Option.bind_eq_some_iff.mp hcondense
    obtain ⟨haccess, hslot⟩ := metaslabSyncEnd_frame hend
    exact h.shrink rfl haccess fun t h1 h2 => (hslot t (hlater t h1 h2)).subset
  | syncDone evict =>
    rcases hcons.syncDone evict hok with
      ⟨-, hnone⟩ | ⟨s₁, hstep₁, -, haccess, hsync, -, halloc⟩
    · exact absurd (hstep.symm.trans hnone) (by simp)
    · rw [hstep] at hstep₁
      cases hstep₁
      exact hnext _ hsync haccess halloc
  | skip =>
    cases hstep
    exact hnext _ rfl rfl rfl

end Accessed

/- What every user of a metaslab relies on. -/
structure MetaslabSys.Sound (s : MetaslabSys) : Prop where
  partitioned : ∃ A, spaceMapLoad (spaceMapUpdate s.ms.smOrNew) ∅ .alloc (fun _ => 0) =
    some (0, A) ∧ s.Partitioned A
  fresh : ∀ txg offset size s', metaslabStep s (.alloc txg offset size) = some s' →
    ∀ x ∈ Finset.Ico offset (offset + size), x ∉ s.allocatedAsOf s.openTxg ∧
      ∀ t, s.FreedIn t x → t + txgDeferSize < s.syncingTxg
  returns : ∀ call : MetaslabCall, call.Allowed s → call.Careful s →
    ∃ s', metaslabStep s call = some s'
  synced : ∀ evict s', (MetaslabCall.syncDone evict).Allowed s →
    metaslabStep s (.syncDone evict) = some s' →
    spaceMapLoad s'.ms.smOrNew ∅ .alloc (fun _ => 0) = some (0, s'.allocatedAsOf s.syncingTxg)

section Sound

variable {s₀ s s' : MetaslabSys} {life : Nat → Life} {ms ms' : Metaslab}

theorem metaslabSyncDone_map {txg : Nat} {evict : Bool}
    (h : metaslabSyncDone ms txg evict = some ms') : ms'.smOrNew = spaceMapUpdate ms.smOrNew := by
  obtain ⟨tree, -, hlast⟩ := Option.bind_eq_some_iff.mp h
  dsimp only at hlast
  rw [← ms.smOrNew_update]
  split at hlast
  · obtain ⟨-, heq⟩ := Option.ite_none_left_eq_some.mp hlast
    cases heq
    cases evict <;> rfl
  · cases hlast
    rfl

theorem alloc_from_tree {txg offset size : Nat}
    (h : metaslabStep s (.alloc txg offset size) = some s') :
    Finset.Ico offset (offset + size) ⊆ s.ms.msTree := by
  obtain ⟨ms₁, hgroup, -⟩ := Option.map_eq_some_iff.mp h
  obtain ⟨ms₂, hblock, -⟩ := Option.bind_eq_some_iff.mp hgroup
  rw [metaslabBlockAlloc] at hblock
  obtain ⟨-, hremove⟩ := Option.ite_none_left_eq_some.mp hblock
  obtain ⟨tree, hremove, -⟩ := Option.map_eq_some_iff.mp hremove
  rw [RangeSet.remove] at hremove
  obtain ⟨hno, -⟩ := Option.ite_none_left_eq_some.mp hremove
  exact not_not.mp (not_or.mp hno).2

section

variable (h : Conserved s life)
include h

theorem Conserved.fresh {x : Nat} (hx : x ∈ s.ms.msTree) :
    x ∉ s.allocatedAsOf s.openTxg ∧ ∀ t, s.FreedIn t x → t + txgDeferSize < s.syncingTxg := by
  have hfree : life x = .free := by
    cases hl : s.ms.msLoaded with
    | true => exact ((h.tree hl).stage hx).eq
    | false =>
      rw [(h.unloaded hl).1] at hx
      cases hx
  refine ⟨fun halloc => ?_, fun t ht => ?_⟩
  · have halive := (h.asOf s.openTxg h.txgs.2.1).stage halloc
    rw [hfree] at halive
    exact halive
  · have hrecent := h.recent x t ht
    rw [hfree] at hrecent
    have hold := hrecent.resolve_right id
    unfold txgDeferSize
    omega

/-- When the trees of the txg are written, what is on disk is what is allocated as of it. -/
theorem Conserved.disk_asOf (halloc : s.ms.alloctree s.syncingTxg = ∅)
    (hfree : s.ms.freetree s.syncingTxg = ∅) :
    s.ms.smOrNew.Records (s.allocatedAsOf s.syncingTxg) := by
  obtain ⟨A, hA, hrec⟩ := h.disk
  have hsame : Tracks s.ms.region.range life Life.onDisk (s.allocatedAsOf s.syncingTxg) := by
    refine (h.asOf s.syncingTxg le_rfl).congr fun x _ => ?_
    have hin := h.within_next halloc hfree x
    cases hlife : life x with
    | held born dying =>
      rw [hlife] at hin
      cases born with
      | none =>
        exact iff_of_true trivial ⟨nofun, fun u hu => (hin.2.1 u hu).1⟩
      | some u =>
        have hu := (hin.1 u rfl).1
        refine iff_of_false id fun halive => ?_
        have hle := halive.1 u rfl
        omega
    | _ => rfl
  exact hA.unique hsame ▸ hrec

theorem Conserved.returns (haccess : s.Accessed) {call : MetaslabCall}
    (hok : call.Allowed s) (hcare : call.Careful s) : ∃ s', metaslabStep s call = some s' := by
  cases call with
  | openNext | nextPass | skip => exact ⟨_, rfl⟩
  | activate dmuError =>
    obtain ⟨error, ms, hactivate, -⟩ := h.activate dmuError
    exact ⟨_, by rw [metaslabStep, hactivate]; rfl⟩
  | preload dmuError =>
    obtain ⟨error, ms, hactivate, -⟩ := h.activate dmuError
    exact ⟨_, by rw [metaslabStep, metaslabPreload, hactivate]; rfl⟩
  | alloc txg offset size =>
    obtain ⟨hidle, hlive, hloaded, hsize, hp, hfree⟩ := hok
    exact (h.groupAlloc hidle hlive hloaded hsize hp hfree).imp fun _ => And.left
  | claim txg offset size dmuError =>
    rcases h.claim hok.1 hok.2 dmuError with ⟨hbad, -⟩ | ⟨s', hstep, -⟩
    · exact hbad.elim (absurd · hcare.2.1.ne') (absurd hcare.2.2)
    · exact ⟨s', hstep⟩
  | free txg offset size => exact (h.freeLater hok).imp fun _ => And.left
  | freeNow txg offset size =>
    rcases h.freeAtOnce hok with ⟨hbad, -⟩ | ⟨s', hstep, -⟩
    · exact absurd hcare hbad
    · exact ⟨s', hstep⟩
  | sync wanted should => exact (h.sync wanted should hok).imp fun _ => And.left
  | condense => exact (h.condensed hok).imp fun _ => And.left
  | syncDone evict =>
    rcases h.syncDone evict hok with ⟨⟨-, hold, hlater⟩, -⟩ | ⟨s', hstep, -⟩
    · -- a metaslab with later allocations has been used since
      rcases hlater with hne | hne
      · have hle := haccess _ (Nat.lt_succ_self _) (Nat.le_succ _) hne
        omega
      · have hle := haccess _ (by omega) le_rfl hne
        omega
    · exact ⟨s', hstep⟩

theorem Conserved.sound (haccess : s.Accessed) : s.Sound where
  partitioned := by
    obtain ⟨A, hA, hrec⟩ := h.disk
    exact ⟨A, spaceMapLoad_records hrec .alloc, h.partitioned hA⟩
  fresh txg offset size s' hstep x hx := h.fresh (alloc_from_tree hstep hx)
  returns call hok hcare := h.returns haccess hok hcare
  synced evict s' hok hstep := by
    obtain ⟨-, -, halloc, hfree⟩ := hok
    obtain ⟨ms', hdone, rfl⟩ := Option.map_eq_some_iff.mp hstep
    have hmap : (s.synced ms').ms.smOrNew = spaceMapUpdate s.ms.smOrNew :=
      metaslabSyncDone_map hdone
    rw [hmap]
    exact spaceMapLoad_records (h.disk_asOf halloc hfree) .alloc

end

/-- In every run of careful calls the metaslab is sound in every reached state: its bytes are
partitioned, an allocation gives none that is allocated or was freed less than two synced txgs ago,
no check fails, and after `metaslab_sync_done` the space map replays to what is allocated as of the
txg. -/
theorem metaslab_conservation (hinit : s₀.Initial)
    (h : Reach metaslabStep (fun s call => MetaslabCall.Allowed s call ∧ call.Careful s) s₀ s) :
    s.Sound := by
  have hinv : (∃ life, Conserved s life) ∧ s.Accessed := by
    refine Reach.invariant (P := fun s => (∃ life, Conserved s life) ∧ s.Accessed)
      ⟨hinit.conserved, fun t _ _ hne => absurd (hinit.alloc _) hne⟩ ?_ h
    rintro s s' call ⟨⟨life, hcons⟩, haccess⟩ hok hstep
    exact ⟨hcons.step hok.1 hstep, haccess.step hcons hok.1 hok.2 hstep⟩
  obtain ⟨⟨life, hcons⟩, haccess⟩ := hinv
  exact hcons.sound haccess

/-- A block is claimed, freed and synced. -/
theorem metaslab_conservation_claimed : ∃ s : MetaslabSys, s.syncingTxg = 5 ∧
    s.ms.msDefertree 0 = Finset.Ico 0 2 ∧ s.Sound := by
  obtain ⟨s, hreach, htxg, hdefer⟩ := exists_reach metaslabStep
    (fun s call => MetaslabCall.Allowed s call ∧ call.Careful s) smallMetaslab
    [.claim 4 0 2 fun _ => 0, .free 4 0 2, .openNext, .nextPass, .sync false false, .syncDone true]
    (fun s => s.syncingTxg = 5 ∧ s.ms.msDefertree 0 = Finset.Ico 0 2) (by decide)
  exact ⟨s, htxg, hdefer, metaslab_conservation smallMetaslab_initial hreach⟩

/-- A block that is given back while the metaslab is condensing stops the system, and so does the
end of a txg after a claim in the next one. -/
theorem metaslab_conservation_stops :
    (∃ s, Reach metaslabStep (fun s call => MetaslabCall.Allowed s call) smallMetaslab s ∧
      (MetaslabCall.freeNow 5 2 1).Allowed s ∧ metaslabStep s (.freeNow 5 2 1) = none) ∧
    ∃ s, Reach metaslabStep (fun s call => MetaslabCall.Allowed s call) smallMetaslab s ∧
      (MetaslabCall.syncDone true).Allowed s ∧ metaslabStep s (.syncDone true) = none := by
  constructor
  · obtain ⟨s, hreach, hok, hnone⟩ := exists_reach metaslabStep
      (fun s call => MetaslabCall.Allowed s call) smallMetaslab
      [.activate fun _ => 0, .alloc 4 0 2, .openNext, .alloc 5 2 1, .nextPass, .sync true true]
      (fun s => (MetaslabCall.freeNow 5 2 1).Allowed s ∧
        (metaslabStep s (.freeNow 5 2 1)).isNone = true) (by decide)
    exact ⟨s, hreach, hok, Option.isNone_iff_eq_none.mp hnone⟩
  · obtain ⟨s, hreach, hok, hnone⟩ := exists_reach metaslabStep
      (fun s call => MetaslabCall.Allowed s call) smallMetaslab
      [.claim 4 0 2 fun _ => 0, .openNext, .claim 5 2 2 fun _ => 0, .nextPass, .sync false false]
      (fun s => (MetaslabCall.syncDone true).Allowed s ∧
        (metaslabStep s (.syncDone true)).isNone = true) (by decide)
    exact ⟨s, hreach, hok, Option.isNone_iff_eq_none.mp hnone⟩

end Sound

end ClusterZfs

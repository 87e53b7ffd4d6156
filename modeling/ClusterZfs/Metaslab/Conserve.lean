import ClusterZfs.Metaslab.Life

/-! The calls on a metaslab move bytes from one stage of their lives to the next. -/
namespace ClusterZfs

namespace Life

variable {l : Life} {t u lo hi : Nat}

theorem isFree.eq (h : l.isFree) : l = .free := by
  cases l <;> cases h
  rfl

theorem isDead.eq (h : l.isDead) : l = .dead := by
  cases l <;> cases h
  rfl

theorem deferredIn.eq (h : l.deferredIn t) : l = .deferred t := by
  cases l <;> cases h
  rfl

theorem bornIn.eq (h : l.bornIn t) : ∃ dying, l = .held (some t) dying := by
  rcases l with _ | ⟨_ | _, dying⟩ | _ | _ <;> cases h
  exact ⟨dying, rfl⟩

theorem dyingIn.eq (h : l.dyingIn t) : ∃ born, l = .held born (some t) := by
  rcases l with _ | ⟨born, _ | _⟩ | _ | _ <;> cases h
  exact ⟨born, rfl⟩

theorem bornIn.unique (h : l.bornIn t) (h' : l.bornIn u) : t = u := by
  obtain ⟨_, rfl⟩ := h.eq
  exact h'

theorem dyingIn.unique (h : l.dyingIn t) (h' : l.dyingIn u) : t = u := by
  obtain ⟨_, rfl⟩ := h.eq
  exact h'

section

variable (h : l.Within lo hi)
include h

theorem Within.born (hborn : l.bornIn t) : lo ≤ t ∧ t ≤ hi := by
  obtain ⟨_, rfl⟩ := hborn.eq
  exact h.1 t rfl

theorem Within.dying (hdying : l.dyingIn t) : lo ≤ t ∧ t ≤ hi := by
  obtain ⟨_, rfl⟩ := hdying.eq
  exact h.2.1 t rfl

theorem Within.order (hborn : l.bornIn t) (hdying : l.dyingIn u) : t ≤ u := by
  obtain ⟨_, rfl⟩ := hborn.eq
  obtain ⟨_, ⟨⟩⟩ := hdying.eq
  exact h.2.2 t u rfl rfl

end

end Life

section Slots

variable {ms : Metaslab} {rt : RangeSet} {T t u : Nat}

/-- Four consecutive txgs have four slots. -/
theorem txgSlot_ne (ht : T ≤ t ∧ t ≤ T + 3) (hu : T ≤ u ∧ u ≤ T + 3) (hne : t ≠ u) :
    txgSlot t ≠ txgSlot u := by
  unfold txgSlot txgSize
  omega

@[simp] theorem alloctree_setAlloctree : (ms.setAlloctree t rt).alloctree t = rt :=
  Function.update_self ..

theorem alloctree_setAlloctree_ne (h : txgSlot u ≠ txgSlot t) :
    (ms.setAlloctree t rt).alloctree u = ms.alloctree u :=
  Function.update_of_ne h ..

@[simp] theorem freetree_setFreetree : (ms.setFreetree t rt).freetree t = rt :=
  Function.update_self ..

theorem freetree_setFreetree_ne (h : txgSlot u ≠ txgSlot t) :
    (ms.setFreetree t rt).freetree u = ms.freetree u :=
  Function.update_of_ne h ..

end Slots

section Units

variable {ms : Metaslab} {x y offset size : Nat}

theorem Metaslab.Phased.mem_iff (hp : ms.Phased offset size)
    (h : y / 2 ^ ms.region.smShift = x / 2 ^ ms.region.smShift) :
    y ∈ Finset.Ico offset (offset + size) ↔ x ∈ Finset.Ico offset (offset + size) :=
  RangeSet.Whole.of_phased (Nat.two_pow_pos _) hp.1 hp.2 x y h

theorem Metaslab.range_units (hx : x ∈ ms.region.range)
    (h : y / 2 ^ ms.region.smShift = x / 2 ^ ms.region.smShift) : y ∈ ms.region.range :=
  (Metaslab.Phased.mem_iff ⟨Nat.mod_eq_zero_of_dvd ms.region.start_aligned,
    Nat.mod_eq_zero_of_dvd ms.whole⟩ h).mpr hx

end Units

section Moves

variable {life : Nat → Life} {I : RangeSet} {next : Life → Life} {x : Nat}

theorem Life.move_mem (hx : x ∈ I) : Life.move life I next x = next (life x) := if_pos hx

theorem Life.move_notMem (hx : x ∉ I) : Life.move life I next x = life x := if_neg hx

variable {s : MetaslabSys} {offset size txg : Nat}

theorem Conserved.move_units (h : Conserved s life) (hp : s.ms.Phased offset size) (x y : Nat)
    (hxy : y / 2 ^ s.ms.region.smShift = x / 2 ^ s.ms.region.smShift) :
    Life.move life (Finset.Ico offset (offset + size)) next y =
      Life.move life (Finset.Ico offset (offset + size)) next x := by
  by_cases hx : x ∈ Finset.Ico offset (offset + size)
  · rw [Life.move_mem hx, Life.move_mem ((hp.mem_iff hxy).mpr hx), h.units x y hxy]
  · rw [Life.move_notMem hx, Life.move_notMem (mt (hp.mem_iff hxy).mp hx), h.units x y hxy]

/- The stages on both sides of an allocation in `txg`: no container but the free tree and the tree
of the allocations of `txg` can tell them apart. -/
def Life.Fresh (txg : Nat) (l : Life) : Prop := l = .free ∨ l = .held (some txg) none

theorem Life.Fresh.elim {P : Life → Prop} {l : Life} (h : l.Fresh txg) (hfree : P .free)
    (hheld : P (.held (some txg) none)) : P l := by
  rcases h with rfl | rfl
  · exact hfree
  · exact hheld

section

variable (h : Conserved s life)
include h

theorem Conserved.turned (hidle : s.ms.msCondensing = none)
    (hlive : s.Live txg) (hloaded : s.ms.msLoaded = true) (hp : s.ms.Phased offset size)
    (hI : Finset.Ico offset (offset + size) = I) (hsub : I ⊆ s.ms.region.range) {l : Life}
    (hfrom : ∀ x ∈ I, (life x).Fresh txg) (hl : l.Fresh txg) {s' : MetaslabSys}
    {tree allocs : RangeSet} {access : Nat} {history : List SpaceEvent}
    (hs' : s' = { s with
      ms := { (s.ms.setAlloctree txg allocs) with msTree := tree, msAccessTxg := access }
      history := history })
    (htree : Tracks s.ms.region.range (Life.move life I fun _ => l) Life.isFree tree)
    (hallocs : Tracks s.ms.region.range (Life.move life I fun _ => l) (Life.bornIn txg) allocs)
    (hasOf : ∀ t, s.syncingTxg ≤ t →
      Tracks s.ms.region.range (Life.move life I fun _ => l) (Life.aliveAt t) (s'.allocatedAsOf t))
    (hfreed : ∀ x t, s'.FreedIn t x → s.FreedIn t x) :
    Conserved s' (Life.move life I fun _ => l) := by
  subst hs'
  have hmove : ∀ x, x ∉ I → Life.move life I (fun _ => l) x = life x :=
    fun x hx => Life.move_notMem hx
  have hmoved : ∀ x ∈ I, (Life.move life I (fun _ => l) x).Fresh txg := fun x hx => by
    rw [Life.move_mem hx]
    exact hl
  -- a container that has neither stage
  have havoid : ∀ {P : Life → Prop} {c : RangeSet}, ¬ P .free → ¬ P (.held (some txg) none) →
      Tracks s.ms.region.range life P c →
      Tracks s.ms.region.range (Life.move life I fun _ => l) P c := fun hfree hheld hc =>
    hc.avoid hmove (fun x hx => (hfrom x hx).elim (P := fun l => ¬ _) hfree hheld)
      fun x hx => (hmoved x hx).elim (P := fun l => ¬ _) hfree hheld
  obtain ⟨hlo, hhi⟩ := hlive
  have hopen := h.txgs.2.2
  refine
    { units := fun x y hxy => hI ▸ h.move_units hp x y hxy,
      outside := fun x hx => (hmove x (mt (@hsub x) hx)).trans (h.outside x hx),
      within := fun x => ?_,
      dead := fun x hx => ?_, tree := fun _ => htree, unloaded := fun hun => ?_,
      alloc := fun t h1 h2 => ?_, free := fun t h1 h2 => ?_, freed := ?_, defer := fun i hi => ?_,
      region := h.region, disk := ?_, inCore := fun hun => ?_, condensing := fun tree ht => ?_,
      asOf := hasOf, recent := fun x t hx => ?_, txgs := h.txgs, passes := h.passes }
  · by_cases hx : x ∈ I
    · refine (hmoved x hx).elim trivial ⟨fun u hu => ?_, nofun, nofun⟩
      cases hu
      exact ⟨hlo, hhi⟩
    · rw [hmove x hx]
      exact h.within x
  · by_cases hI : x ∈ I
    · exact absurd hx ((hmoved x hI).elim (P := fun l => ¬ l.isDead) id id)
    · rw [hmove x hI] at hx
      exact h.dead x hx
  · exact absurd (hloaded.symm.trans hun) (by decide)
  · obtain rfl | hne := eq_or_ne t txg
    · exact alloctree_setAlloctree.symm ▸ hallocs
    · have hslot := txgSlot_ne (T := s.syncingTxg) ⟨h1, h2⟩ ⟨hlo, by omega⟩ hne
      exact (alloctree_setAlloctree_ne hslot).symm ▸ havoid id (Ne.symm hne) (h.alloc t h1 h2)
  · exact havoid id id (h.free t h1 h2)
  · exact havoid id id h.freed
  · exact havoid id id (h.defer i hi)
  · obtain ⟨A, hA, hrec⟩ := h.disk
    exact ⟨A, havoid id id hA, hrec⟩
  · exact absurd (hloaded.symm.trans hun) (by decide)
  · exact absurd (hidle.symm.trans ht) (by simp)
  · have hrecent := h.recent x t (hfreed x t hx)
    by_cases hx : x ∈ I
    · exact .inl (hrecent.resolve_right ((hfrom x hx).elim
        (P := fun l => ¬ l.RecentlyFreed s.syncingTxg t) id fun hno => (nomatch hno)))
    · rw [hmove x hx]
      exact hrecent

theorem Conserved.born (hidle : s.ms.msCondensing = none)
    (hlive : s.Live txg) (hloaded : s.ms.msLoaded = true) (hp : s.ms.Phased offset size)
    (hfree : Finset.Ico offset (offset + size) ⊆ s.ms.msTree) (access : Nat) :
    Conserved
      { s with
        ms := { (s.ms.setAlloctree txg
            (s.ms.alloctree txg ∪ Finset.Ico offset (offset + size))) with
          msTree := s.ms.msTree \ Finset.Ico offset (offset + size)
          msAccessTxg := access }
        history := .alloc txg (Finset.Ico offset (offset + size)) :: s.history }
      (Life.move life (Finset.Ico offset (offset + size)) fun _ => .held (some txg) none) := by
  generalize hI : Finset.Ico offset (offset + size) = I at hfree ⊢
  have htree := h.tree hloaded
  have hstage : ∀ x ∈ I, life x = .free := fun x hx => (htree.stage (hfree hx)).eq
  have hsub : I ⊆ s.ms.region.range := hfree.trans htree.subset
  have hmove : ∀ x, x ∉ I → Life.move life I (fun _ => .held (some txg) none) x = life x :=
    fun x hx => Life.move_notMem hx
  have hwin := h.txgs.2.2
  refine h.turned hidle hlive hloaded hp hI hsub (fun x hx => .inl (hstage x hx)) (.inr rfl) rfl
    ?_ ?_ (fun t ht => ?_) fun x t hx => ?_
  · exact htree.lose hmove fun x hx => by simp [Life.move_mem hx, Life.isFree]
  · exact (h.alloc txg hlive.1 (by have := hlive.2; omega)).gain hsub hmove fun x hx => by
      simp [Life.move_mem hx, Life.bornIn]
  · change Tracks _ _ _ (if txg ≤ t then s.allocatedAsOf t ∪ I else s.allocatedAsOf t)
    split
    · exact (h.asOf t ht).gain hsub hmove fun x hx => by simpa [Life.move_mem hx, Life.aliveAt]
    · rename_i hlate
      exact (h.asOf t ht).avoid hmove (fun x hx => by simp [hstage x hx, Life.aliveAt])
        (fun x hx => by simpa [Life.move_mem hx, Life.aliveAt] using hlate)
  · simpa [MetaslabSys.FreedIn] using hx

theorem Conserved.dying
    (hidle : s.ms.msCondensing = none ∨ txg ≠ s.syncingTxg) (hlive : s.Live txg)
    (hp : s.ms.Phased offset size)
    (hasOf : Finset.Ico offset (offset + size) ⊆ s.allocatedAsOf txg)
    (hopen : Finset.Ico offset (offset + size) ⊆ s.allocatedAsOf s.openTxg) :
    Disjoint (s.ms.freetree txg) (Finset.Ico offset (offset + size)) ∧
    ∃ life', Conserved
      { s with
        ms := s.ms.setFreetree txg (s.ms.freetree txg ∪ Finset.Ico offset (offset + size))
        history := .free txg (Finset.Ico offset (offset + size)) :: s.history } life' := by
  generalize hI : Finset.Ico offset (offset + size) = I at hasOf hopen ⊢
  obtain ⟨hlo, hhi⟩ := hlive
  have hwin := h.txgs.2.2
  have hstage : ∀ x ∈ I, ∃ born, life x = .held born none ∧ ∀ u, born = some u → u ≤ txg := by
    intro x hx
    have hnow := (h.asOf txg hlo).stage (hasOf hx)
    have hlast := (h.asOf s.openTxg (by omega)).stage (hopen hx)
    have hin := h.within x
    cases hl : life x with
    | held born dying =>
      rw [hl] at hnow hlast hin
      cases dying with
      | none => exact ⟨born, rfl, hnow.1⟩
      | some u =>
        have hlater := hlast.2 u rfl
        have hin := (hin.2.1 u rfl).2
        omega
    | _ => simp [hl, Life.aliveAt] at hnow
  let next := Life.dieIn txg
  have hsub : I ⊆ s.ms.region.range := hasOf.trans (h.asOf txg hlo).subset
  have hmove : ∀ x, x ∉ I → Life.move life I next x = life x := fun x hx => Life.move_notMem hx
  have hnext : ∀ x ∈ I, ∃ born, life x = .held born none ∧
      Life.move life I next x = .held born (some txg) ∧ ∀ u, born = some u → u ≤ txg := by
    intro x hx
    obtain ⟨born, hl, hborn⟩ := hstage x hx
    exact ⟨born, hl, by rw [Life.move_mem hx, hl]; rfl, hborn⟩
  -- a predicate that does not look at the txg of the free
  have hkeep : ∀ P : Life → Prop, (∀ born, P (.held born (some txg)) ↔ P (.held born none)) →
      ∀ x, P (Life.move life I next x) ↔ P (life x) := by
    intro P hP x
    by_cases hx : x ∈ I
    · obtain ⟨born, hl, hm, -⟩ := hnext x hx
      rw [hl, hm]
      exact hP born
    · rw [hmove x hx]
  refine ⟨?_, Life.move life I next,
    { units := fun x y hxy => hI ▸ h.move_units hp x y hxy,
      outside := fun x hx => (hmove x (mt (@hsub x) hx)).trans (h.outside x hx),
      within := fun x => ?_,
      dead := fun x hx => ?_, tree := fun hloaded => ?_, unloaded := fun hun => ?_,
      alloc := fun t h1 h2 => ?_, free := fun t h1 h2 => ?_, freed := ?_, defer := fun i hi => ?_,
      region := h.region, disk := ?_, inCore := fun hun => ?_, condensing := fun tree ht => ?_,
      asOf := fun t ht => ?_, recent := fun x t hx => ?_, txgs := h.txgs, passes := h.passes }⟩
  · apply Finset.disjoint_left.mpr
    intro x hfree hx
    obtain ⟨born, hl, -⟩ := hstage x hx
    have hdying := (h.free txg hlo (by omega)).stage hfree
    rw [hl] at hdying
    cases hdying
  · by_cases hx : x ∈ I
    · obtain ⟨born, hl, hm, hborn⟩ := hnext x hx
      have hin := h.within x
      rw [hl] at hin
      rw [hm]
      refine ⟨hin.1, fun u hu => ?_, fun u v hu hv => ?_⟩
      · cases hu
        exact ⟨hlo, hhi⟩
      · cases hv
        exact hborn u hu
    · rw [hmove x hx]
      exact h.within x
  · exact h.dead x ((hkeep Life.isDead (fun _ => Iff.rfl) x).mp hx)
  · exact (h.tree hloaded).congr fun x _ => hkeep _ (fun _ => Iff.rfl) x
  · refine ⟨(h.unloaded hun).1, fun x t hx => (h.unloaded hun).2 x t ?_⟩
    exact (hkeep (Life.bornIn t) (fun born => by cases born <;> rfl) x).mp hx
  · exact (h.alloc t h1 h2).congr fun x _ => hkeep _ (fun born => by cases born <;> rfl) x
  · obtain rfl | hne := eq_or_ne t txg
    · have htracks := (h.free t h1 h2).gain hsub hmove fun x hx => by
        obtain ⟨born, -, hm, -⟩ := hnext x hx
        simp [hm, Life.dyingIn]
      exact freetree_setFreetree.symm ▸ htracks
    · have hslot := txgSlot_ne (T := s.syncingTxg) ⟨h1, Nat.le_succ_of_le h2⟩ ⟨hlo, by omega⟩ hne
      have htracks := (h.free t h1 h2).avoid hmove
        (fun x hx => by
          obtain ⟨born, hl, -⟩ := hnext x hx
          simp [hl, Life.dyingIn])
        (fun x hx => by
          obtain ⟨born, -, hm, -⟩ := hnext x hx
          simp [hm, Life.dyingIn, Ne.symm hne])
      exact (freetree_setFreetree_ne hslot).symm ▸ htracks
  · have hslot : txgSlot (txgClean s.syncingTxg) ≠ txgSlot txg :=
      txgSlot_ne ⟨Nat.le_add_right _ _, le_rfl⟩ ⟨hlo, by omega⟩
        (by unfold txgClean txgSize; omega)
    have htracks := h.freed.congr fun x _ => hkeep _ (fun _ => Iff.rfl) x
    exact (freetree_setFreetree_ne hslot).symm ▸ htracks
  · exact (h.defer i hi).congr fun x _ => hkeep _ (fun _ => Iff.rfl) x
  · obtain ⟨A, hA, hrec⟩ := h.disk
    exact ⟨A, hA.congr fun x _ => hkeep _ (fun born => by cases born <;> rfl) x, hrec⟩
  · obtain ⟨hle, S, hS, hrec⟩ := h.inCore hun
    exact ⟨hle, S, hS.congr fun x _ => hkeep _ (fun born => by cases born <;> rfl) x, hrec⟩
  · obtain ⟨hloaded, hpass, hsynced, hdead, htree⟩ := h.condensing tree ht
    have hother : txg ≠ s.syncingTxg := hidle.resolve_left fun hnone =>
      absurd (hnone.symm.trans ht) (by simp)
    refine ⟨hloaded, hpass, hsynced, fun x hx => ?_,
      htree.congr fun x _ => hkeep _ (fun born => ?_) x⟩
    · exact hdead x ((hkeep Life.isDead (fun _ => Iff.rfl) x).mp hx)
    · cases born <;> simp [Life.condensed, Life.dyingIn, Life.deferredIn, Life.bornIn, hother]
  · change Tracks _ _ _ (if txg ≤ t then s.allocatedAsOf t \ I else s.allocatedAsOf t)
    split
    · refine (h.asOf t ht).lose hmove fun x hx => ?_
      obtain ⟨born, -, hm, -⟩ := hnext x hx
      rw [hm]
      rintro ⟨-, hlater⟩
      have := hlater txg rfl
      omega
    · refine (h.asOf t ht).congr fun x _ => hkeep _ (fun born => ?_) x
      simp only [Life.aliveAt]
      grind
  · obtain ⟨range, hmem, hin⟩ := hx
    rcases List.mem_cons.mp hmem with heq | hmem
    · cases heq
      obtain ⟨born, -, hm, -⟩ := hnext x hin
      rw [hm]
      exact .inr rfl
    · have hrecent := h.recent x t ⟨range, hmem, hin⟩
      by_cases hx : x ∈ I
      · obtain ⟨born, hl, -⟩ := hnext x hx
        rw [hl] at hrecent
        exact .inl (hrecent.resolve_right nofun)
      · rw [hmove x hx]
        exact hrecent

theorem Conserved.undone (hidle : s.ms.msCondensing = none)
    (hlive : s.Live txg) (hp : s.ms.Phased offset size) (hsize : 0 < size)
    (halloc : Finset.Ico offset (offset + size) ⊆ s.ms.alloctree txg)
    (hopen : Finset.Ico offset (offset + size) ⊆ s.allocatedAsOf s.openTxg) :
    s.ms.msLoaded = true ∧ Disjoint s.ms.msTree (Finset.Ico offset (offset + size)) ∧
    Conserved
      { s with
        ms := { (s.ms.setAlloctree txg
            (s.ms.alloctree txg \ Finset.Ico offset (offset + size))) with
          msTree := s.ms.msTree ∪ Finset.Ico offset (offset + size) }
        history := .undo txg (Finset.Ico offset (offset + size)) :: s.history }
      (Life.move life (Finset.Ico offset (offset + size)) fun _ => .free) := by
  have hfirst : offset ∈ Finset.Ico offset (offset + size) := by simp; omega
  generalize hI : Finset.Ico offset (offset + size) = I at hfirst halloc hopen ⊢
  obtain ⟨hlo, hhi⟩ := hlive
  have hwin := h.txgs.2.2
  have htracks := h.alloc txg hlo (by omega)
  have hstage : ∀ x ∈ I, life x = .held (some txg) none := by
    intro x hx
    have hborn := htracks.stage (halloc hx)
    have hlast := (h.asOf s.openTxg (by omega)).stage (hopen hx)
    have hin := h.within x
    cases hl : life x with
    | held born dying =>
      rw [hl] at hborn hlast hin
      cases born with
      | none => cases hborn
      | some u =>
        have hu : u = txg := hborn
        cases dying with
        | none => rw [hu]
        | some v =>
          have hlater := hlast.2 v rfl
          have hin := (hin.2.1 v rfl).2
          omega
    | _ => simp [hl, Life.bornIn] at hborn
  have hloaded : s.ms.msLoaded = true := by
    by_contra hun
    refine (h.unloaded (Bool.eq_false_of_not_eq_true hun)).2 offset txg ?_
    rw [hstage offset hfirst]
    rfl
  have htree := h.tree hloaded
  have hsub : I ⊆ s.ms.region.range := halloc.trans htracks.subset
  have hmove : ∀ x, x ∉ I → Life.move life I (fun _ => .free) x = life x :=
    fun x hx => Life.move_notMem hx
  refine ⟨hloaded, ?_, h.turned hidle ⟨hlo, hhi⟩ hloaded hp hI hsub
    (fun x hx => .inr (hstage x hx)) (.inl rfl) rfl ?_ ?_ (fun t ht => ?_) fun x t hx => ?_⟩
  · apply Finset.disjoint_left.mpr
    intro x hfree hx
    have hno := htree.stage hfree
    rw [hstage x hx] at hno
    cases hno
  · exact htree.gain hsub hmove fun x hx => by simp [Life.move_mem hx, Life.isFree]
  · exact htracks.lose hmove fun x hx => by simp [Life.move_mem hx, Life.bornIn]
  · change Tracks _ _ _ (if txg ≤ t then s.allocatedAsOf t \ I else s.allocatedAsOf t)
    split
    · exact (h.asOf t ht).lose hmove fun x hx => by simp [Life.move_mem hx, Life.aliveAt]
    · rename_i hlate
      exact (h.asOf t ht).avoid hmove
        (fun x hx => by simpa [hstage x hx, Life.aliveAt] using hlate)
        (fun x hx => by simp [Life.move_mem hx, Life.aliveAt])
  · simpa [MetaslabSys.FreedIn] using hx

end

end Moves

section Load

theorem Life.deferredIn_exclusive {i j : Nat} {l : Life} (hne : i ≠ j) (h : l.deferredIn i) :
    ¬ l.deferredIn j := by
  rw [h.eq]
  exact hne

theorem Life.deferredIn_not_shown {i : Nat} {l : Life} (h : l.deferredIn i) : ¬ l.shown := by
  rw [h.eq]
  exact id

variable {s : MetaslabSys} {life : Nat → Life}

section

variable (h : Conserved s life)
include h

section

variable (hun : s.ms.msLoaded = false)
include hun

theorem Conserved.idle_of_unloaded :
    s.ms.msCondensing = none := by
  cases hc : s.ms.msCondensing with
  | none => rfl
  | some tree => exact absurd ((h.condensing tree hc).1.symm.trans hun) (by decide)

theorem Conserved.load_map
    (dmuError : Nat → Nat) : ∃ S, Tracks s.ms.region.range life Life.shown S ∧
    (metaslabLoad s.ms dmuError = ((List.range txgDeferSize).foldlM
        (fun tree t => (s.ms.msDefertree t).walk RangeSet.remove tree)
          (s.ms.region.range \ S)).map
        (fun tree => (0, { s.ms with msTree := tree, msLoaded := true })) ∨
      ∃ error, error ≠ 0 ∧ metaslabLoad s.ms dmuError = some (error, s.ms)) := by
  obtain ⟨-, S, hS, hrec⟩ := h.inCore hun
  have hempty := (h.unloaded hun).1
  have hregion := h.region
  refine ⟨S, hS, ?_⟩
  rw [metaslabLoad, hempty]
  rw [Metaslab.smOrNew] at hrec hregion
  cases hsm : s.ms.msSm with
  | none =>
    rw [hsm] at hrec
    have hnone : S = ∅ := Finset.card_eq_zero.mp hrec.alloc.symm
    have hpos := s.ms.region.size_pos
    have hadd : RangeSet.add ∅ s.ms.region.smStart s.ms.region.smSize =
        some (s.ms.region.range \ S) := by
      rw [RangeSet.add, if_neg (by simp; omega), hnone]
      simp [MapRegion.range]
    left
    simp only [hadd, hsm, Option.map_some, Option.bind_some, if_true]
  | some sm =>
    rw [hsm] at hrec hregion
    simp only [Option.getD_some] at hrec hregion
    rcases spaceMapLoad_cases hrec .free dmuError with hload | ⟨error, herror, hload⟩
    · left
      simp only [hload, hsm, hregion, Option.bind_some, if_true]
      rfl
    · right
      refine ⟨error, herror, ?_⟩
      simp only [hload, Option.bind_some, if_neg herror]
      rw [← hempty, ← hsm]

theorem Conserved.load
    (dmuError : Nat → Nat) :
    (∃ tree, metaslabLoad s.ms dmuError =
        some (0, { s.ms with msTree := tree, msLoaded := true }) ∧
      Conserved { s with ms := { s.ms with msTree := tree, msLoaded := true } } life) ∨
    ∃ error, error ≠ 0 ∧ metaslabLoad s.ms dmuError = some (error, s.ms) := by
  obtain ⟨S, hS, hrun | herror⟩ := h.load_map hun dmuError
  · left
    have hd₀ := h.defer 0 (by decide)
    have hd₁ := h.defer 1 (by decide)
    have hrange : Tracks s.ms.region.range life (fun _ => True) s.ms.region.range :=
      fun x => ⟨fun hx => ⟨hx, trivial⟩, And.left⟩
    have hleft := hrange.sdiff hS
    have hin : ∀ i c, Tracks s.ms.region.range life (Life.deferredIn i) c →
        c ⊆ s.ms.region.range \ S := by
      intro i c hc x hx
      refine hleft.mem (hc.subset hx) ⟨trivial, fun hshown => ?_⟩
      exact Life.deferredIn_not_shown (hc.stage hx) hshown
    have hboth : ∀ C : RangeSet → Prop, C (s.ms.msDefertree 0) → C (s.ms.msDefertree 1) →
        ∀ c ∈ [s.ms.msDefertree 0, s.ms.msDefertree 1], C c := fun C h₀ h₁ =>
      List.forall_mem_cons.mpr ⟨h₀, List.forall_mem_singleton.mpr h₁⟩
    obtain ⟨tree, hfold, hmem⟩ := foldlM_walk_remove
      (hboth _ hd₀.subset hd₁.subset) (hboth _ (hin 0 _ hd₀) (hin 1 _ hd₁))
      (List.pairwise_pair.mpr (hd₀.disjoint hd₁ fun x _ => Life.deferredIn_exclusive (by decide)))
    refine ⟨tree, by rw [hrun]; exact congrArg _ hfold, ?_⟩
    -- what is neither shown by the map nor deferred is free
    have htree : Tracks s.ms.region.range life Life.isFree tree := by
      intro x
      rw [hmem, hleft x, List.forall_mem_cons, List.forall_mem_singleton, hd₀ x, hd₁ x]
      have hin := h.within x
      have hborn := (h.unloaded hun).2 x
      cases hl : life x with
      | held born dying =>
        cases born with
        | none => simp [Life.isFree, Life.shown]
        | some u => exact absurd rfl (hl ▸ hborn u)
      | deferred slot =>
        have hslot : slot < 2 := by simpa [hl, Life.Within, txgDeferSize] using hin
        have hone : slot = 0 ∨ slot = 1 := by omega
        simp only [Life.isFree, Life.deferredIn]
        tauto
      | _ => simp [Life.isFree, Life.shown, Life.deferredIn]
    exact { h with
      tree := fun _ => htree
      unloaded := fun hno => Bool.noConfusion hno
      inCore := fun hno => Bool.noConfusion hno
      condensing := fun tree hc => absurd ((h.idle_of_unloaded hun).symm.trans hc) (by simp) }
  · exact .inr herror

end

end

end Load

end ClusterZfs

import ClusterZfs.Metaslab.Synced

/-! Runs of a metaslab: every call that returns keeps the lives of the bytes in order. -/
namespace ClusterZfs

section Calls

variable {c : RangeSet} {offset size : Nat}

theorem RangeSet.remove_of_subset (hsize : 0 < size) (h : Finset.Ico offset (offset + size) ⊆ c) :
    c.remove offset size = some (c \ Finset.Ico offset (offset + size)) := by
  rw [RangeSet.remove, if_neg (not_or.mpr ⟨hsize.ne', not_not.mpr h⟩)]

theorem RangeSet.add_of_disjoint (hsize : 0 < size)
    (h : Disjoint c (Finset.Ico offset (offset + size))) :
    c.add offset size = some (c ∪ Finset.Ico offset (offset + size)) := by
  rw [RangeSet.add, if_neg (not_or.mpr ⟨hsize.ne', not_not.mpr h⟩)]

variable {s s' : MetaslabSys} {life : Nat → Life} {txg : Nat}

theorem space_after (h : Finset.Ico offset (offset + size) ⊆ c) (r : MapRegion)
    (hc : c ⊆ r.range) : uint64 (c.card + (2 ^ 64 - size)) ≤ r.smSize := by
  have hle := Finset.card_le_card h
  have hcard := Finset.card_le_card hc
  rw [Nat.card_Ico] at hle
  rw [r.card_range] at hcard
  have hbound := r.bound
  have heq : uint64 (c.card + (2 ^ 64 - size)) = c.card - size := by
    unfold uint64
    omega
  omega

section

variable (h : Conserved s life)
include h

theorem Conserved.alloc_disjoint (hlive : s.Live txg)
    (hloaded : s.ms.msLoaded = true) (hfree : Finset.Ico offset (offset + size) ⊆ s.ms.msTree) :
    Disjoint (s.ms.alloctree txg) (Finset.Ico offset (offset + size)) := by
  have hopen := h.txgs.2.2
  obtain ⟨hlo, hhi⟩ := hlive
  refine Finset.disjoint_of_subset_right hfree ?_
  refine (h.alloc txg hlo (by omega)).disjoint (h.tree hloaded) fun x _ h₁ h₂ => ?_
  rw [h₂.eq] at h₁
  exact h₁

theorem Conserved.groupAlloc (hidle : s.ms.msCondensing = none)
    (hlive : s.Live txg) (hloaded : s.ms.msLoaded = true) (hsize : 0 < size)
    (hp : s.ms.Phased offset size) (hfree : Finset.Ico offset (offset + size) ⊆ s.ms.msTree) :
    ∃ s', metaslabStep s (.alloc txg offset size) = some s' ∧ ∃ life', Conserved s' life' := by
  have hblock : metaslabBlockAlloc s.ms offset size =
      some { s.ms with msTree := s.ms.msTree \ Finset.Ico offset (offset + size) } := by
    have hspace := space_after hfree s.ms.region (h.tree hloaded).subset
    rw [metaslabBlockAlloc, if_neg (by simpa [hidle, hp] using hspace),
      RangeSet.remove_of_subset hsize hfree]
    rfl
  have hadd := RangeSet.add_of_disjoint hsize (h.alloc_disjoint hlive hloaded hfree)
  refine ⟨_, ?_, _, h.born hidle hlive hloaded hp hfree (txg + metaslabUnloadDelay)⟩
  simp only [metaslabStep, metaslabGroupAlloc, hblock, Option.bind_some]
  change ((RangeSet.add (s.ms.alloctree txg) offset size).map _).map _ = _
  rw [hadd]
  rfl

theorem Conserved.activate (dmuError : Nat → Nat) :
    ∃ error ms, metaslabActivate s.ms dmuError = some (error, ms) ∧
      Conserved { s with ms } life ∧ (error = 0 → ms.msLoaded = true) ∧
      ms.msCondensing = s.ms.msCondensing ∧ ms.region = s.ms.region ∧
      ms.msAlloctree = s.ms.msAlloctree ∧ ms.msAccessTxg = s.ms.msAccessTxg := by
  cases hl : s.ms.msLoaded with
  | true =>
    refine ⟨0, s.ms, ?_, h, fun _ => hl, rfl, rfl, rfl, rfl⟩
    rw [metaslabActivate, if_pos hl]
  | false =>
    have hactivate : metaslabActivate s.ms dmuError = metaslabLoad s.ms dmuError := by
      rw [metaslabActivate, if_neg (by simp [hl])]
    rw [hactivate]
    rcases h.load hl dmuError with ⟨tree, hload, hcons⟩ | ⟨error, herror, hload⟩
    · exact ⟨0, _, hload, hcons, fun _ => rfl, rfl, rfl, rfl, rfl⟩
    · exact ⟨error, _, hload, h, fun h0 => absurd h0 herror, rfl, rfl, rfl, rfl⟩

/-- `metaslab_claim_dva` stops the system on a range that is empty or not of whole sectors, and else
returns. -/
theorem Conserved.claim (hidle : s.ms.msCondensing = none)
    (hlive : s.Live txg) (dmuError : Nat → Nat) :
    (size = 0 ∨ ¬ s.ms.Phased offset size) ∧
        metaslabStep s (.claim txg offset size dmuError) = none ∨
      ∃ s', metaslabStep s (.claim txg offset size dmuError) = some s' ∧
        (∃ life', Conserved s' life') ∧ s'.ms.msAccessTxg = s.ms.msAccessTxg ∧
        s'.syncingTxg = s.syncingTxg ∧ s'.openTxg = s.openTxg ∧
        ∀ t, txgSlot t ≠ txgSlot txg → s'.ms.alloctree t = s.ms.alloctree t := by
  obtain ⟨error, ms, hactivate, hcons, hloaded, hcond, hregion, halloc, haccess⟩ :=
    h.activate dmuError
  have htxg : txg ≠ 0 := by
    have hpos := h.txgs.1
    have hlo := hlive.1
    omega
  have hstep : metaslabStep s (.claim txg offset size dmuError) =
      ((if error = 0 then (ms.msTree.contains offset size).map fun held =>
          if held then 0 else ENOENT else some error).bind fun error =>
        if error ≠ 0 then some (error, ms)
        else if ms.msCondensing.isSome ∨ ¬ ms.Phased offset size ∨
          ¬ uint64 (ms.msTree.card + (2 ^ 64 - size)) ≤ ms.region.smSize then none
        else (ms.msTree.remove offset size).bind fun tree =>
          ((ms.alloctree txg).add offset size).map fun rt =>
            (0, { ms.setAlloctree txg rt with msTree := tree })).map fun p =>
        if p.1 = 0 then
          { s with
            ms := p.2
            history := .alloc txg (Finset.Ico offset (offset + size)) :: s.history }
        else { s with ms := p.2 } := by
    simp only [metaslabStep, metaslabClaimDva, htxg, ne_eq, not_false_eq_true, and_self, true_or,
      if_true, hactivate, Option.bind_some, or_false]
    rfl
  rw [hstep]
  have hsame : ∀ t, ms.alloctree t = s.ms.alloctree t := fun t => congrFun halloc _
  by_cases herror : error = 0
  · have hloaded := hloaded herror
    have hcond : ms.msCondensing = none := hcond.trans hidle
    simp only [if_pos herror, RangeSet.contains]
    by_cases hsize : size = 0
    · left
      simp only [if_pos hsize]
      exact ⟨.inl hsize, rfl⟩
    · simp only [if_neg hsize, Option.map_some, Option.bind_some, decide_eq_true_eq]
      by_cases hheld : Finset.Ico offset (offset + size) ⊆ ms.msTree
      · simp only [if_pos hheld, ne_eq, not_true_eq_false, if_false]
        have hspace := space_after hheld ms.region (hcons.tree hloaded).subset
        by_cases hp : ms.Phased offset size
        · right
          have hpos := Nat.pos_of_ne_zero hsize
          have hadd : (ms.alloctree txg).add offset size =
              some (ms.alloctree txg ∪ Finset.Ico offset (offset + size)) :=
            RangeSet.add_of_disjoint hpos (hcons.alloc_disjoint hlive hloaded hheld)
          refine ⟨_, ?_, ⟨_, hcons.born hcond hlive hloaded hp hheld ms.msAccessTxg⟩, haccess, rfl,
            rfl, fun t ht => (alloctree_setAlloctree_ne ht).trans (hsame t)⟩
          rw [if_neg (by simpa [hcond, hp] using hspace), RangeSet.remove_of_subset hpos hheld,
            Option.bind_some, hadd]
          rfl
        · left
          rw [if_pos (.inr (.inl hp))]
          refine ⟨.inr fun hno => hp ?_, rfl⟩
          unfold Metaslab.Phased at hno ⊢
          rw [hregion]
          exact hno
      · right
        refine ⟨{ s with ms }, ?_, ⟨life, hcons⟩, haccess, rfl, rfl, fun t _ => hsame t⟩
        rw [if_neg hheld]
        rfl
  · right
    refine ⟨{ s with ms }, ?_, ⟨life, hcons⟩, haccess, rfl, rfl, fun t _ => hsame t⟩
    simp [herror]

theorem Conserved.freeLater
    (hok : (MetaslabCall.free txg offset size).Allowed s) :
    ∃ s', metaslabStep s (.free txg offset size) = some s' ∧ ∃ life', Conserved s' life' := by
  obtain ⟨hidle, hlive, hsize, hp, hasOf, hopen⟩ := hok
  obtain ⟨hdisj, hcons⟩ := h.dying hidle hlive hp hasOf hopen
  refine ⟨_, ?_, hcons⟩
  simp only [metaslabStep, metaslabFreeDva, Bool.false_eq_true, if_false,
    RangeSet.add_of_disjoint hsize hdisj, Option.map_some]

/-- `metaslab_free_dva` at once stops the system while the metaslab is condensing, and else
returns. -/
theorem Conserved.freeAtOnce
    (hok : (MetaslabCall.freeNow txg offset size).Allowed s) :
    s.ms.msCondensing ≠ none ∧ metaslabStep s (.freeNow txg offset size) = none ∨
      ∃ s', metaslabStep s (.freeNow txg offset size) = some s' ∧
        (∃ life', Conserved s' life') ∧ s'.ms.msAccessTxg = s.ms.msAccessTxg ∧
        s'.syncingTxg = s.syncingTxg ∧ s'.openTxg = s.openTxg ∧
        ∀ t, s'.ms.alloctree t ⊆ s.ms.alloctree t := by
  obtain ⟨-, hlive, hsize, hp, halloc, hopen⟩ := hok
  have hremove := RangeSet.remove_of_subset hsize halloc
  cases hcond : s.ms.msCondensing with
  | some tree =>
    left
    refine ⟨by simp, ?_⟩
    simp only [metaslabStep, metaslabFreeDva, if_true, hremove, Option.bind_some]
    rw [if_pos (.inl (by simp [Metaslab.setAlloctree, hcond]))]
    rfl
  | none =>
    right
    obtain ⟨hloaded, hdisj, hcons⟩ := h.undone hcond hlive hp hsize halloc hopen
    have hlo := hlive.1
    have hwin := h.txgs.2.2
    have hhi := hlive.2
    have hsub := halloc.trans (h.alloc txg hlo (by omega)).subset
    have hfirst := Finset.mem_Ico.mp (hsub (Finset.mem_Ico.mpr ⟨le_rfl, by omega⟩))
    have hlast : offset + size - 1 ∈ s.ms.region.range :=
      hsub (Finset.mem_Ico.mpr ⟨by omega, by omega⟩)
    have hlast := Finset.mem_Ico.mp hlast
    have hcard := Finset.card_le_card (Finset.union_subset (h.tree hloaded).subset hsub)
    rw [Finset.card_union_of_disjoint hdisj, Nat.card_Ico, s.ms.region.card_range] at hcard
    have hstop : uint64 (offset + size) ≤ s.ms.region.smStart + s.ms.region.smSize :=
      (Nat.mod_le _ _).trans (by omega)
    have hspace : uint64 (s.ms.msTree.card + size) ≤ s.ms.region.smSize :=
      (Nat.mod_le _ _).trans (by omega)
    refine ⟨_, ?_, ⟨_, hcons⟩, rfl, rfl, rfl, fun t => ?_⟩
    · simp only [metaslabStep, metaslabFreeDva, if_true, hremove, Option.bind_some]
      rw [if_neg]
      · change ((RangeSet.add s.ms.msTree offset size).map _).map _ = _
        rw [RangeSet.add_of_disjoint hsize hdisj]
        rfl
      · have hphased : (s.ms.setAlloctree txg (s.ms.alloctree txg \
            Finset.Ico offset (offset + size))).Phased offset size := hp
        simp only [not_or, not_not]
        exact ⟨by simp [Metaslab.setAlloctree, hcond], hfirst.1, hstop, hspace, hphased⟩
    · change (s.ms.setAlloctree txg _).alloctree t ⊆ _
      by_cases hslot : txgSlot t = txgSlot txg
      · have hsame : ∀ ms : Metaslab, ms.alloctree t = ms.alloctree txg :=
          fun ms => congrArg ms.msAlloctree hslot
        rw [hsame, hsame, alloctree_setAlloctree]
        exact Finset.sdiff_subset
      · rw [alloctree_setAlloctree_ne hslot]

/-- `metaslab_sync` returns, with the metaslab written or about to be condensed. -/
theorem Conserved.sync (wanted should : Bool)
    (hok : (MetaslabCall.sync wanted should).Allowed s) :
    ∃ s', metaslabStep s (.sync wanted should) = some s' ∧ ∃ life', Conserved s' life' := by
  obtain ⟨hidle, hpass⟩ := hok
  have hpos : 0 < s.syncPass := Nat.zero_lt_of_lt hpass
  have hdead : s.syncPass = 1 → ∀ x, ¬ (life x).isDead := by
    intro h1 x hx
    have hsynced := h.dead x hx
    omega
  simp only [metaslabStep, metaslabSync]
  split
  · exact ⟨_, rfl, life, { h with
      dead := fun _ _ => hpos
      condensing := fun tree hc => absurd (hidle.symm.trans hc) (by simp)
      passes := ⟨le_rfl, h.passes.2⟩ }⟩
  · split
    · rename_i hcond
      obtain ⟨hloaded, h1, -⟩ := hcond
      obtain ⟨tree, hrun, htree⟩ := h.condense_tree
      rw [hrun]
      refine ⟨_, rfl, life, { h with
        dead := fun _ _ => hpos
        inCore := fun hun => absurd (hloaded.symm.trans hun) (by decide)
        condensing := fun tree' hc => ?_
        passes := ⟨le_rfl, h.passes.2⟩ }⟩
      cases hc
      exact ⟨hloaded, h1, h1, hdead h1, htree⟩
    · obtain ⟨sm, B, hrun, hregion, hrec, hext, hB⟩ := h.append s.syncPass
      obtain ⟨ms, hend, hcons⟩ := h.syncEnd hregion hrec hB (fun _ => hext) hdead hpos
      have hidle' : ({ s.ms with msSm := some sm } : Metaslab) =
          { s.ms with msSm := some sm, msCondensing := none } := by
        dsimp only
        rw [hidle]
      rw [hrun, Option.bind_some, hidle', hend]
      exact ⟨_, rfl, _, hcons⟩

theorem Conserved.condensed (hok : MetaslabCall.condense.Allowed s) :
    ∃ s', metaslabStep s .condense = some s' ∧ ∃ life', Conserved s' life' := by
  obtain ⟨tree, hc⟩ := Option.isSome_iff_exists.mp hok
  obtain ⟨hloaded, hpass, hsynced, hdead, -⟩ := h.condensing tree hc
  obtain ⟨sm, B, hrun, hregion, hrec, hB⟩ := h.condense hc s.syncPass
  obtain ⟨ms, hend, hcons⟩ := h.syncEnd hregion hrec hB
    (fun hun => absurd (hloaded.symm.trans hun) (by decide)) (fun _ => hdead) (by omega)
  simp only [metaslabStep, hc, Option.bind_some, metaslabCondense, hrun, hend, Option.map_some]
  have hsame : ({ s with ms, syncedPass := s.syncPass } : MetaslabSys) = { s with ms } := by
    rw [hpass, hsynced]
  exact ⟨_, rfl, _, hsame ▸ hcons⟩

/-- `metaslab_sync_done` returns when no later txg holds an allocation in a metaslab that is to be
unloaded. -/
theorem Conserved.syncDone (evict : Bool)
    (hok : (MetaslabCall.syncDone evict).Allowed s) :
    (s.ms.msLoaded = true ∧ s.ms.msAccessTxg < s.syncingTxg ∧
        (s.ms.alloctree (s.syncingTxg + 1) ≠ ∅ ∨ s.ms.alloctree (s.syncingTxg + 2) ≠ ∅)) ∧
        metaslabStep s (.syncDone evict) = none ∨
      ∃ s', metaslabStep s (.syncDone evict) = some s' ∧
        (∃ life', Conserved s' life') ∧ s'.ms.msAccessTxg = s.ms.msAccessTxg ∧
        s'.syncingTxg = s.syncingTxg + 1 ∧ s'.openTxg = s.openTxg ∧
        s'.ms.msAlloctree = s.ms.msAlloctree := by
  obtain ⟨hidle, hpass, halloc, hfree⟩ := hok
  obtain ⟨tree, hrun, hcons, hincore⟩ := h.settled hidle hpass halloc hfree
  have hstep : metaslabStep s (.syncDone evict) =
      (if s.ms.msLoaded ∧ s.ms.msAccessTxg < s.syncingTxg then
        if (s.ms.alloctree (s.syncingTxg + 1)).card ≠ 0 ∨
          (s.ms.alloctree (s.syncingTxg + 2)).card ≠ 0 then none
        else some (if evict then metaslabUnload (s.ms.settled s.syncingTxg tree)
          else s.ms.settled s.syncingTxg tree)
      else some (s.ms.settled s.syncingTxg tree)).map fun ms => s.synced ms := by
    simp only [metaslabStep, metaslabSyncDone]
    rw [hrun]
    rfl
  rw [hstep]
  by_cases hold : s.ms.msLoaded = true ∧ s.ms.msAccessTxg < s.syncingTxg
  · rw [if_pos hold]
    by_cases hlater : s.ms.alloctree (s.syncingTxg + 1) = ∅ ∧ s.ms.alloctree (s.syncingTxg + 2) = ∅
    · right
      rw [if_neg (by simp [hlater])]
      cases evict with
      | false => exact ⟨_, rfl, ⟨_, hcons⟩, rfl, rfl, rfl, rfl⟩
      | true =>
        refine ⟨_, rfl, ⟨_, hcons.unload hidle hincore fun t h1 h2 => ?_⟩, rfl, rfl, rfl, rfl⟩
        have h1 : s.syncingTxg + 1 ≤ t := h1
        have h2 : t ≤ s.syncingTxg + 1 + 2 := h2
        change s.ms.alloctree t = ∅
        obtain rfl | ht₁ := eq_or_ne t (s.syncingTxg + 1)
        · exact hlater.1
        · obtain rfl | ht₂ := eq_or_ne t (s.syncingTxg + 2)
          · exact hlater.2
          · exact (h.alloc t (by omega) (by omega)).unique
              (Tracks.of_none fun x _ => h.not_born_later (by omega) x)
    · left
      rw [if_pos (by simpa using not_and_or.mp hlater)]
      exact ⟨⟨hold.1, hold.2, not_and_or.mp hlater⟩, rfl⟩
  · right
    rw [if_neg hold]
    exact ⟨_, rfl, ⟨_, hcons⟩, rfl, rfl, rfl, rfl⟩

end

theorem Life.Within.mono {lo hi hi' : Nat} {l : Life} (h : l.Within lo hi) (hle : hi ≤ hi') :
    l.Within lo hi' := by
  cases l with
  | held born dying =>
    exact ⟨fun u hu => (h.1 u hu).imp_right (·.trans hle),
      fun u hu => (h.2.1 u hu).imp_right (·.trans hle), h.2.2⟩
  | _ => exact h

theorem MetaslabSys.Initial.records (h : s.Initial) : s.ms.smOrNew.region = s.ms.region ∧
    s.ms.smOrNew.smLength = s.ms.smOrNew.smpObjsize ∧ s.ms.smOrNew.Records s.initial ∧
    s.ms.smOrNew.inCore.Records s.initial := by
  unfold Metaslab.smOrNew
  cases hsm : s.ms.msSm with
  | none =>
    have hnew := newMap_records s.ms.region fun _ => 0
    rw [h.new hsm]
    exact ⟨rfl, rfl, hnew, hnew⟩
  | some sm =>
    obtain ⟨hregion, hlength, halloc, hrec⟩ := h.map sm hsm
    obtain ⟨⟨log, hlogged, hrep⟩, hcount⟩ := id hrec
    exact ⟨hregion, hlength, hrec, ⟨⟨log, ⟨hlength.trans hlogged.length, hlogged.words⟩, hrep⟩,
      halloc.trans hcount⟩⟩

theorem MetaslabSys.Initial.conserved (h : s.Initial) : ∃ life, Conserved s life := by
  obtain ⟨hregion, hlength, hrec, hcore⟩ := h.records
  have hsub : s.initial ⊆ s.ms.region.range := hregion ▸ hrec.inside
  let life : Nat → Life := fun x => if x ∈ s.initial then .held none none else .free
  have hin : ∀ x ∈ s.initial, life x = .held none none := fun x hx => if_pos hx
  have hout : ∀ x, x ∉ s.initial → life x = .free := fun x hx => if_neg hx
  -- a stage of the free bytes and of those on disk
  have hcase : ∀ P : Life → Prop, P (.held none none) → P .free → ∀ x, P (life x) := by
    intro P h₁ h₂ x
    dsimp only [life]
    split <;> assumption
  have hinit : ∀ P : Life → Prop, P (.held none none) → ¬ P .free →
      Tracks s.ms.region.range life P s.initial := by
    intro P h₁ h₂ x
    constructor
    · intro hx
      rw [hin x hx]
      exact ⟨hsub hx, h₁⟩
    · rintro ⟨-, hP⟩
      by_contra hx
      rw [hout x hx] at hP
      exact h₂ hP
  have hasOf : ∀ t, s.allocatedAsOf t = s.initial := by
    intro t
    rw [MetaslabSys.allocatedAsOf, h.history]
    rfl
  refine ⟨life,
    { units := fun x y hxy => ?_, outside := fun x hx => hout x (mt (@hsub x) hx),
      within := hcase _ (by simp [Life.Within]) trivial,
      dead := fun x hx => absurd hx (hcase (fun l => ¬ l.isDead) id id x),
      tree := fun hl => absurd (h.loaded.symm.trans hl) (by decide),
      unloaded := fun _ => ⟨h.tree, fun x t => hcase (fun l => ¬ l.bornIn t) id id x⟩,
      alloc := fun t _ _ => ?_, free := fun t _ _ => ?_, freed := ?_, defer := fun i _ => ?_,
      region := hregion, disk := ⟨s.initial, hinit _ trivial id, hrec⟩,
      inCore := fun _ => ⟨hlength.le, s.initial, hinit _ trivial id, hcore⟩,
      condensing := fun tree hc => absurd (h.condensing.symm.trans hc) (by simp),
      asOf := fun t _ => hasOf t ▸ hinit _ (by simp [Life.aliveAt]) id,
      recent := fun x t hx => ?_, txgs := ⟨h.txg, h.opened.ge, ?_⟩,
      passes := ⟨by rw [h.synced, h.pass], fun h0 => absurd h.pass (by omega)⟩ }⟩
  · have hwhole := (hregion ▸ hrec.whole) x y hxy
    by_cases hx : x ∈ s.initial
    · rw [hin x hx, hin y (hwhole.mpr hx)]
    · rw [hout x hx, hout y (mt hwhole.mp hx)]
  · rw [Metaslab.alloctree, h.alloc]
    exact Tracks.of_none fun x _ => hcase (fun l => ¬ l.bornIn t) id id x
  · rw [Metaslab.freetree, h.free]
    exact Tracks.of_none fun x _ => hcase (fun l => ¬ l.dyingIn t) id id x
  · rw [Metaslab.freetree, h.free]
    exact Tracks.of_none fun x _ => hcase (fun l => ¬ l.isDead) id id x
  · rw [h.defer]
    exact Tracks.of_none fun x _ => hcase (fun l => ¬ l.deferredIn i) id id x
  · obtain ⟨range, hmem, -⟩ := hx
    rw [h.history] at hmem
    cases hmem
  · rw [h.opened]
    exact Nat.le_add_right _ _

theorem Conserved.step (h : Conserved s life) {call : MetaslabCall} (hok : call.Allowed s)
    (hstep : metaslabStep s call = some s') : ∃ life', Conserved s' life' := by
  have hgiven : (∃ s', metaslabStep s call = some s' ∧ ∃ life', Conserved s' life') →
      ∃ life', Conserved s' life' := by
    rintro ⟨s₁, hstep₁, hcons⟩
    rw [hstep] at hstep₁
    cases hstep₁
    exact hcons
  cases call with
  | openNext =>
    cases hstep
    exact ⟨life, { h with
      within := fun x => (h.within x).mono (Nat.le_succ _)
      txgs := ⟨h.txgs.1, Nat.le_succ_of_le h.txgs.2.1, hok⟩
      passes := ⟨h.passes.1, fun hp => Nat.lt_succ_of_lt (h.passes.2 hp)⟩ }⟩
  | nextPass =>
    cases hstep
    exact ⟨life, { h with
      condensing := fun tree hc => absurd (hok.1.symm.trans hc) (by simp)
      passes := ⟨Nat.le_succ_of_le h.passes.1, fun _ => hok.2⟩ }⟩
  | activate dmuError =>
    obtain ⟨error, ms, hactivate, hcons, -⟩ := h.activate dmuError
    exact hgiven ⟨{ s with ms }, by rw [metaslabStep, hactivate]; rfl, life, hcons⟩
  | preload dmuError =>
    obtain ⟨error, ms, hactivate, hcons, -⟩ := h.activate dmuError
    refine hgiven ⟨_, by rw [metaslabStep, metaslabPreload, hactivate]; rfl, life, ?_⟩
    exact { hcons with }
  | alloc txg offset size =>
    obtain ⟨hidle, hlive, hloaded, hsize, hp, hfree⟩ := hok
    exact hgiven (h.groupAlloc hidle hlive hloaded hsize hp hfree)
  | claim txg offset size dmuError =>
    rcases h.claim hok.1 hok.2 dmuError with ⟨-, hnone⟩ | ⟨s₁, hstep₁, hcons, -⟩
    · exact absurd (hstep.symm.trans hnone) (by simp)
    · exact hgiven ⟨s₁, hstep₁, hcons⟩
  | free txg offset size => exact hgiven (h.freeLater hok)
  | freeNow txg offset size =>
    rcases h.freeAtOnce hok with ⟨-, hnone⟩ | ⟨s₁, hstep₁, hcons, -⟩
    · exact absurd (hstep.symm.trans hnone) (by simp)
    · exact hgiven ⟨s₁, hstep₁, hcons⟩
  | sync wanted should => exact hgiven (h.sync wanted should hok)
  | condense => exact hgiven (h.condensed hok)
  | syncDone evict =>
    rcases h.syncDone evict hok with ⟨-, hnone⟩ | ⟨s₁, hstep₁, hcons, -⟩
    · exact absurd (hstep.symm.trans hnone) (by simp)
    · exact hgiven ⟨s₁, hstep₁, hcons⟩
  | skip =>
    obtain ⟨hidle, hnext, hpass, halloc, hfree, hd₀, hd₁⟩ := hok
    cases hstep
    exact ⟨life, h.skip hidle hnext hpass halloc hfree hd₀ hd₁⟩

end Calls

end ClusterZfs

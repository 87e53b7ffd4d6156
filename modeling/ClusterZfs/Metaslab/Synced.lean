import ClusterZfs.Metaslab.Conserve

/-! `metaslab_sync`, by appending and by condensing, and `metaslab_sync_done`. -/
namespace ClusterZfs

section Write

variable {s : MetaslabSys} {life : Nat → Life} {sm : SpaceMap} {A c : RangeSet} {P : Life → Prop}
  {maptype : Maptype} {syncPass txg : Nat}

section

variable (h : Conserved s life)
include h

theorem Conserved.write (hc : Tracks s.ms.region.range life P c)
    (hregion : sm.region = s.ms.region) (hrec : sm.Records A) (hfits : maptype.Fits A c) :
    ∃ sm', spaceMapWrite sm c.segList maptype syncPass txg = some sm' ∧
      sm'.region = s.ms.region ∧ sm'.Records (maptype.apply A c) ∧ sm.Extends sm' := by
  have hset : segSet c.segList.segs = c := MapRegion.segSet_segs hc.subset
  have hlog : sm.region.Loggable c.segList.segs := by
    rw [hregion]
    refine segs_loggable hc.subset fun x y hx hxy => ?_
    refine hc.mem (Metaslab.range_units (hc.subset hx) hxy) ?_
    rw [h.units x y hxy]
    exact hc.stage hx
  obtain ⟨sm', hwrite, hregion', hrec'⟩ :=
    @spaceMapWrite_records sm A maptype c.segList syncPass txg hrec hlog (hset.symm ▸ hfits)
  rw [hset] at hrec'
  exact ⟨sm', hwrite, hregion'.trans hregion, hrec', spaceMapWrite_extends hwrite⟩

theorem Conserved.append (syncPass : Nat) :
    ∃ sm B, appendWrite s.ms.smOrNew (s.ms.alloctree s.syncingTxg) (s.ms.freetree s.syncingTxg)
        syncPass s.syncingTxg = some sm ∧ sm.region = s.ms.region ∧ sm.Records B ∧
      s.ms.smOrNew.Extends sm ∧
      Tracks s.ms.region.range life
        (fun l => (l.onDisk ∨ l.bornIn s.syncingTxg) ∧ ¬ l.dyingIn s.syncingTxg) B := by
  obtain ⟨A, hA, hrec⟩ := h.disk
  have halloc := h.alloc s.syncingTxg le_rfl (Nat.le_add_right _ _)
  have hfree := h.free s.syncingTxg le_rfl (Nat.le_add_right _ _)
  have hnew : Maptype.alloc.Fits A (s.ms.alloctree s.syncingTxg) := by
    refine hA.disjoint halloc fun x _ hdisk hborn => ?_
    obtain ⟨_, hl⟩ := hborn.eq
    rw [hl] at hdisk
    exact hdisk
  have hboth := hA.union halloc
  obtain ⟨sm₁, hwrite₁, hregion₁, hrec₁, hext₁⟩ := h.write halloc h.region hrec hnew
  have hgone : Maptype.free.Fits (A ∪ s.ms.alloctree s.syncingTxg)
      (s.ms.freetree s.syncingTxg) := by
    intro x hx
    refine hboth.mem (hfree.subset hx) ?_
    have hdying := hfree.stage hx
    have hin := h.within x
    obtain ⟨_ | u, hl⟩ := hdying.eq
    · rw [hl]
      exact .inl trivial
    · -- a block is not freed before the txg of its allocation
      have hborn : (life x).bornIn u := by rw [hl]; rfl
      have huv := hin.order hborn hdying
      have hu := (hin.born hborn).1
      exact .inr ((show u = s.syncingTxg by omega) ▸ hborn)
  obtain ⟨sm₂, hwrite₂, hregion₂, hrec₂, hext₂⟩ := h.write hfree hregion₁ hrec₁ hgone
  refine ⟨sm₂, _, ?_, hregion₂, hrec₂, hext₁.trans hext₂, hboth.sdiff hfree⟩
  rw [appendWrite, hwrite₁]
  exact hwrite₂

theorem Conserved.condense_tree :
    ∃ tree, condenseTree s.ms s.syncingTxg = some tree ∧
      Tracks s.ms.region.range life (Life.condensed s.syncingTxg) tree := by
  have hfree := h.free s.syncingTxg le_rfl (Nat.le_add_right _ _)
  have hd₀ := h.defer 0 (by decide)
  have hd₁ := h.defer 1 (by decide)
  have ha₁ := h.alloc (s.syncingTxg + 1) (Nat.le_add_right _ _) (by omega)
  have ha₂ := h.alloc (s.syncingTxg + 2) (Nat.le_add_right _ _) (by omega)
  have hall : ∀ c ∈ condenseTrees s.ms s.syncingTxg, c ⊆ s.ms.region.range := by
    simp [condenseTrees, hfree.subset, hd₀.subset, hd₁.subset, ha₁.subset, ha₂.subset]
  have hdisj : (condenseTrees s.ms s.syncingTxg).Pairwise Disjoint := by
    have hlate : ∀ t, s.syncingTxg < t → ∀ x ∈ s.ms.region.range,
        (life x).dyingIn s.syncingTxg → ¬ (life x).bornIn t := by
      intro t ht x _ hdying hborn
      have horder := (h.within x).order hborn hdying
      omega
    have hdef : ∀ i, ∀ x ∈ s.ms.region.range, (life x).deferredIn i →
        ∀ t, ¬ (life x).dyingIn t ∧ ¬ (life x).bornIn t := by
      intro i x _ hx t
      rw [hx.eq]
      exact ⟨id, id⟩
    have hborn : ∀ x ∈ s.ms.region.range, (life x).bornIn (s.syncingTxg + 1) →
        ¬ (life x).bornIn (s.syncingTxg + 2) := by
      intro x _ h₁ h₂
      have hsame := h₁.unique h₂
      omega
    simp only [condenseTrees, List.pairwise_cons, List.forall_mem_cons]
    refine ⟨⟨hfree.disjoint hd₀ ?_, hfree.disjoint hd₁ ?_, hfree.disjoint ha₁ (hlate _ (by omega)),
      hfree.disjoint ha₂ (hlate _ (by omega)), by simp⟩, ⟨hd₀.disjoint hd₁ ?_, hd₀.disjoint ha₁ ?_,
      hd₀.disjoint ha₂ ?_, by simp⟩, ⟨hd₁.disjoint ha₁ ?_, hd₁.disjoint ha₂ ?_, by simp⟩,
      ⟨ha₁.disjoint ha₂ hborn, by simp⟩, by simp, List.Pairwise.nil⟩
    · exact fun x hx h₁ h₂ => (hdef 0 x hx h₂ _).1 h₁
    · exact fun x hx h₁ h₂ => (hdef 1 x hx h₂ _).1 h₁
    · exact fun x _ => Life.deferredIn_exclusive (by decide)
    · exact fun x hx h₁ => (hdef 0 x hx h₁ _).2
    · exact fun x hx h₁ => (hdef 0 x hx h₁ _).2
    · exact fun x hx h₁ => (hdef 1 x hx h₁ _).2
    · exact fun x hx h₁ => (hdef 1 x hx h₁ _).2
  obtain ⟨tree, hfold, hmem⟩ := foldlM_walk_remove hall hall hdisj
  refine ⟨tree, ?_, fun x => ?_⟩
  · have hpos := s.ms.region.size_pos
    rw [condenseTree, RangeSet.add, if_neg (by simp; omega), Option.bind_some,
      Finset.empty_union]
    exact hfold
  · rw [hmem]
    simp only [condenseTrees, List.forall_mem_cons, hfree x, hd₀ x, hd₁ x, ha₁ x, ha₂ x,
      Life.condensed]
    tauto

end

theorem spaceMapTruncate_records (sm : SpaceMap) : (spaceMapTruncate sm).Records ∅ :=
  ⟨⟨[], ⟨rfl, nofun⟩, Finset.empty_subset _, fun _ => rfl⟩, rfl⟩

theorem Conserved.condense (h : Conserved s life) {tree : RangeSet}
    (hc : s.ms.msCondensing = some tree) (syncPass : Nat) :
    ∃ sm B, condenseWrite s.ms.smOrNew tree s.ms.msTree syncPass s.syncingTxg = some sm ∧
      sm.region = s.ms.region ∧ sm.Records B ∧
      Tracks s.ms.region.range life
        (fun l => (l.onDisk ∨ l.bornIn s.syncingTxg) ∧ ¬ l.dyingIn s.syncingTxg) B := by
  obtain ⟨hloaded, -, -, hdead, htree⟩ := h.condensing tree hc
  have hfree := h.tree hloaded
  have hregion : (spaceMapTruncate s.ms.smOrNew).region = s.ms.region := h.region
  have hnew : Maptype.alloc.Fits ∅ tree := Finset.disjoint_empty_left _
  obtain ⟨sm₁, hwrite₁, hregion₁, hrec₁, -⟩ := h.write htree hregion
    (spaceMapTruncate_records s.ms.smOrNew) hnew
  have hrec₁ : sm₁.Records tree := by simpa [Maptype.apply] using hrec₁
  have hsub : Maptype.free.Fits tree s.ms.msTree := by
    intro x hx
    refine htree.mem (hfree.subset hx) ?_
    rw [(hfree.stage hx).eq]
    exact ⟨id, id, id, id, id⟩
  obtain ⟨sm₂, hwrite₂, hregion₂, hrec₂, -⟩ := h.write hfree hregion₁ hrec₁ hsub
  refine ⟨sm₂, _, ?_, hregion₂, hrec₂, (htree.sdiff hfree).congr fun x _ => ?_⟩
  · rw [condenseWrite, hwrite₁]
    exact hwrite₂
  · have hin := h.within x
    have hno := hdead x
    have hopen := h.txgs.2.2
    cases hl : life x with
    | held born dying =>
      rw [hl] at hin
      cases born with
      | none => simp [Life.condensed, Life.onDisk, Life.deferredIn, Life.bornIn, Life.isFree]
      | some u =>
        have hu := hin.1 u rfl
        have hlive : u = s.syncingTxg ↔ u ≠ s.syncingTxg + 1 ∧ u ≠ s.syncingTxg + 2 := by omega
        simp only [Life.condensed, Life.onDisk, Life.deferredIn, Life.bornIn, Life.isFree, hlive]
        tauto
    | dead =>
      rw [hl] at hno
      exact absurd trivial hno
    | deferred slot =>
      have hslot : slot < 2 := by simpa [hl, Life.Within, txgDeferSize] using hin
      have hone : slot = 0 ∨ slot = 1 := by omega
      simp only [Life.condensed, Life.onDisk, Life.deferredIn, Life.bornIn, Life.dyingIn]
      tauto
    | free => simp [Life.onDisk, Life.bornIn, Life.isFree]

end Write

section SyncEnd

variable {u : Nat}

variable {s : MetaslabSys} {life : Nat → Life} {sm : SpaceMap} {B : RangeSet} {t : Nat} {l : Life}

theorem Life.onDisk_syncIn (l : Life) :
    (l.syncIn t).onDisk ↔ (l.onDisk ∨ l.bornIn t) ∧ ¬ l.dyingIn t := by
  rcases l with _ | ⟨_ | _, _ | _⟩ | _ | _ <;> grind [syncIn, onDisk, bornIn, dyingIn]

theorem Life.isDead_syncIn (l : Life) : (l.syncIn t).isDead ↔ l.isDead ∨ l.dyingIn t := by
  rcases l with _ | ⟨_, _ | _⟩ | _ | _ <;> grind [syncIn, isDead, dyingIn]

theorem Life.isFree_syncIn (l : Life) : (l.syncIn t).isFree ↔ l.isFree := by
  cases l <;> grind [syncIn, isFree]

theorem Life.deferredIn_syncIn {i : Nat} (l : Life) :
    (l.syncIn t).deferredIn i ↔ l.deferredIn i := by
  cases l <;> grind [syncIn, deferredIn]

theorem Life.dyingIn_syncIn (l : Life) : (l.syncIn t).dyingIn u ↔ l.dyingIn u ∧ u ≠ t := by
  rcases l with _ | ⟨_, _ | _⟩ | _ | _ <;> grind [syncIn, dyingIn]

theorem Life.bornIn_syncIn {hi : Nat} (h : l.Within t hi) :
    (l.syncIn t).bornIn u ↔ l.bornIn u ∧ u ≠ t := by
  cases l with
  | held born dying =>
    obtain ⟨hborn, -, horder⟩ := h
    cases born with
    | none => by_cases hd : dying = some t <;> simp [Life.syncIn, hd, Life.bornIn]
    | some v =>
      have hlo := (hborn v rfl).1
      have hiff : (Life.held (some v) dying).bornIn u ↔ v = u := Iff.rfl
      by_cases hd : dying = some t
      · -- a block that is freed in `t` was allocated in it
        have hle := horder v t rfl hd
        rw [hiff, Life.syncIn, if_pos hd]
        exact iff_of_false id (by omega)
      · rw [hiff, Life.syncIn, if_neg hd]
        by_cases hvt : v = t
        · rw [if_pos (congrArg some hvt)]
          exact iff_of_false id (by omega)
        · rw [if_neg (by simpa using hvt)]
          exact ⟨fun hu => ⟨hu, by have : v = u := hu; omega⟩, And.left⟩
  | _ => simp [Life.syncIn, Life.bornIn]

theorem Life.aliveAt_syncIn (htu : t ≤ u) (l : Life) : (l.syncIn t).aliveAt u ↔ l.aliveAt u := by
  cases l <;> grind [syncIn, aliveAt]

theorem Life.within_syncIn {hi : Nat} (h : l.Within t hi) : (l.syncIn t).Within t hi := by
  cases l <;> grind [syncIn, Within]

theorem Life.recentlyFreed_syncIn (h : l.RecentlyFreed t u) : (l.syncIn t).RecentlyFreed t u := by
  cases l <;> grind [syncIn, RecentlyFreed]

theorem Life.shown_syncIn (h : ∀ u, ¬ l.bornIn u) :
    (l.syncIn t).shown ↔ l.shown := by
  cases l with
  | held born dying =>
    cases born with
    | none => by_cases hd : dying = some t <;> simp [Life.syncIn, hd, Life.shown]
    | some u => exact absurd rfl (h u)
  | _ => rfl

/-- The end of `metaslab_sync`: the space map that was written takes the place of the old one. -/
theorem Conserved.syncEnd (h : Conserved s life) (hregion : sm.region = s.ms.region)
    (hrec : sm.Records B)
    (hB : Tracks s.ms.region.range life
      (fun l => (l.onDisk ∨ l.bornIn s.syncingTxg) ∧ ¬ l.dyingIn s.syncingTxg) B)
    (hext : s.ms.msLoaded = false → s.ms.smOrNew.Extends sm)
    (hfirst : s.syncPass = 1 → ∀ x, ¬ (life x).isDead) (hpass : 0 < s.syncPass) :
    ∃ ms, metaslabSyncEnd { s.ms with msSm := some sm, msCondensing := none } s.syncingTxg
        s.syncPass = some ms ∧
      Conserved { s with ms, syncedPass := s.syncPass } fun x => (life x).syncIn s.syncingTxg := by
  have hfree := h.free s.syncingTxg le_rfl (Nat.le_add_right _ _)
  -- the freed tree and what is left in the tree of this txg
  obtain ⟨freed, hend, htracks⟩ : ∃ freed, metaslabSyncEnd
      { s.ms with msSm := some sm, msCondensing := none } s.syncingTxg s.syncPass =
        some ((({ s.ms with msSm := some sm, msCondensing := none } : Metaslab).setFreetree
          (txgClean s.syncingTxg) freed).setFreetree s.syncingTxg ∅ |>.setAlloctree
            s.syncingTxg ∅) ∧
      Tracks s.ms.region.range life (fun l => l.isDead ∨ l.dyingIn s.syncingTxg) freed := by
    by_cases hp : s.syncPass = 1
    · have hempty : s.ms.freetree (txgClean s.syncingTxg) = ∅ :=
        h.freed.unique (Tracks.of_none fun x _ => hfirst hp x)
      refine ⟨s.ms.freetree s.syncingTxg, ?_, hfree.congr fun x _ => ?_⟩
      · rw [metaslabSyncEnd, if_pos hp]
        simp only [Option.map_some]
        rw [← hempty]
        rfl
      · exact or_iff_right (hfirst hp x)
    · have hwalk : (s.ms.freetree s.syncingTxg).walk RangeSet.add
          (s.ms.freetree (txgClean s.syncingTxg)) =
            some (s.ms.freetree (txgClean s.syncingTxg) ∪ s.ms.freetree s.syncingTxg) := by
        refine walk_add hfree.subset (h.freed.disjoint hfree fun x _ hdead hdying => ?_)
        rw [hdead.eq] at hdying
        exact hdying
      refine ⟨_, ?_, h.freed.union hfree⟩
      rw [metaslabSyncEnd, if_neg hp]
      change ((RangeSet.walk (s.ms.freetree s.syncingTxg) RangeSet.add
        (s.ms.freetree (txgClean s.syncingTxg))).map _).map _ = _
      rw [hwalk]
      rfl
  have hclean : txgSlot (txgClean s.syncingTxg) ≠ txgSlot s.syncingTxg :=
    txgSlot_ne ⟨Nat.le_add_right _ _, le_rfl⟩ ⟨le_rfl, Nat.le_add_right _ _⟩
      (by unfold txgClean txgSize; omega)
  refine ⟨_, hend,
    { units := fun x y hxy => congrArg _ (h.units x y hxy),
      outside := fun x hx => by rw [h.outside x hx]; rfl
      within := fun x => Life.within_syncIn (h.within x), dead := fun _ _ => hpass,
      tree := fun hl => (h.tree hl).congr fun x _ => Life.isFree_syncIn _,
      unloaded := fun hun => ⟨(h.unloaded hun).1, fun x t hx => ?_⟩, alloc := fun t h1 h2 => ?_,
      free := fun t h1 h2 => ?_, freed := ?_,
      defer := fun i hi => (h.defer i hi).congr fun x _ => Life.deferredIn_syncIn _,
      region := hregion, disk := ⟨B, hB.congr fun x _ => Life.onDisk_syncIn _, hrec⟩,
      inCore := fun hun => ?_, condensing := fun tree ht => (by cases ht),
      asOf := fun t ht => (h.asOf t ht).congr fun x _ => Life.aliveAt_syncIn ht _,
      recent := fun x t hx => (h.recent x t hx).imp_right Life.recentlyFreed_syncIn,
      txgs := h.txgs, passes := ⟨le_rfl, h.passes.2⟩ }⟩
  · exact (h.unloaded hun).2 x t ((Life.bornIn_syncIn (h.within x)).mp hx).1
  · by_cases hne : t = s.syncingTxg
    · rw [hne]
      refine alloctree_setAlloctree.symm ▸ Tracks.of_none fun x _ hx => ?_
      exact ((Life.bornIn_syncIn (h.within x)).mp hx).2 rfl
    · have hslot := txgSlot_ne ⟨h1, h2⟩ ⟨le_rfl, Nat.le_add_right _ _⟩ hne
      refine (alloctree_setAlloctree_ne hslot).symm ▸ (h.alloc t h1 h2).congr fun x _ => ?_
      rw [Life.bornIn_syncIn (h.within x)]
      exact and_iff_left hne
  · by_cases hne : t = s.syncingTxg
    · rw [hne]
      change Tracks _ _ _ ((Metaslab.setFreetree _ s.syncingTxg ∅).freetree s.syncingTxg)
      rw [freetree_setFreetree]
      exact Tracks.of_none fun x _ hx => ((Life.dyingIn_syncIn _).mp hx).2 rfl
    · have hslot := txgSlot_ne ⟨h1, Nat.le_succ_of_le h2⟩
        ⟨le_rfl, Nat.le_add_right _ _⟩ hne
      have hother := txgSlot_ne (u := txgClean s.syncingTxg)
        ⟨h1, Nat.le_succ_of_le h2⟩ ⟨Nat.le_add_right _ _, le_rfl⟩
        (by have : t ≤ s.syncingTxg + 2 := h2; unfold txgClean txgSize; omega)
      change Tracks _ _ _ ((Metaslab.setFreetree _ s.syncingTxg ∅).freetree t)
      rw [freetree_setFreetree_ne hslot, freetree_setFreetree_ne hother]
      refine (h.free t h1 h2).congr fun x _ => ?_
      rw [Life.dyingIn_syncIn]
      exact and_iff_left hne
  · change Tracks _ _ _ ((Metaslab.setFreetree _ s.syncingTxg ∅).freetree
      (txgClean s.syncingTxg))
    rw [freetree_setFreetree_ne hclean, freetree_setFreetree]
    exact htracks.congr fun x _ => Life.isDead_syncIn _
  · obtain ⟨hle, S, hS, hrecS⟩ := h.inCore hun
    have hext := hext hun
    refine ⟨?_, S, hS.congr fun x _ => Life.shown_syncIn ((h.unloaded hun).2 x),
      hext.inCore_records hle hrecS⟩
    change sm.smLength ≤ sm.smpObjsize
    rw [hext.length]
    exact hle.trans hext.objsize

end SyncEnd

section SyncDone

variable {t : Nat} (l : Life)

theorem Life.isFree_syncDoneIn :
    (l.syncDoneIn t).isFree ↔ l.isFree ∨ l.deferredIn (t % txgDeferSize) := by
  cases l <;> grind [syncDoneIn, isFree, deferredIn]

theorem Life.deferredIn_syncDoneIn {i : Nat} : (l.syncDoneIn t).deferredIn i ↔
    if i = t % txgDeferSize then l.isDead else l.deferredIn i := by
  cases l <;> grind [syncDoneIn, isDead, deferredIn]

theorem Life.not_isDead_syncDoneIn : ¬ (l.syncDoneIn t).isDead := by
  cases l <;> grind [syncDoneIn, isDead]

theorem Life.shown_syncDoneIn : (l.syncDoneIn t).shown ↔ l.onDisk := by
  rcases l with _ | ⟨_ | _, _⟩ | _ | _ <;> grind [syncDoneIn, shown, onDisk]

theorem Life.held_syncDoneIn {P : Life → Prop} (hfree : ¬ P .free) (hdead : ¬ P .dead)
    (hdefer : ∀ slot, ¬ P (.deferred slot)) (l : Life) : P (l.syncDoneIn t) ↔ P l := by
  cases l with
  | deferred slot =>
    refine iff_of_false ?_ (hdefer slot)
    simp only [Life.syncDoneIn]
    split
    · exact hfree
    · exact hdefer slot
  | dead => exact iff_of_false (hdefer _) hdead
  | _ => rfl

theorem Life.recentlyFreed_syncDoneIn {u : Nat} {l : Life} (h : l.RecentlyFreed t u) :
    u + 3 ≤ t + 1 ∨ (l.syncDoneIn t).RecentlyFreed (t + 1) u := by
  cases l with
  | free => cases h
  | held born dying => exact .inr h
  | dead =>
    have hu : u = t := h
    exact .inr ⟨by omega, by rw [hu]⟩
  | deferred slot =>
    obtain ⟨hlt, hslot⟩ := h
    simp only [Life.syncDoneIn]
    split
    · rename_i heq
      unfold txgDeferSize at hslot heq
      left
      omega
    · exact .inr ⟨by omega, hslot⟩

variable {s : MetaslabSys} {life : Nat → Life}

section

variable (h : Conserved s life)
include h

theorem Conserved.within_next (halloc : s.ms.alloctree s.syncingTxg = ∅)
    (hfree : s.ms.freetree s.syncingTxg = ∅) (x : Nat) :
    (life x).Within (s.syncingTxg + 1) s.openTxg := by
  by_cases hx : x ∈ s.ms.region.range
  · have hborn := (h.alloc s.syncingTxg le_rfl (Nat.le_add_right _ _))
    have hdying := (h.free s.syncingTxg le_rfl (Nat.le_add_right _ _))
    rw [halloc] at hborn
    rw [hfree] at hdying
    have hborn := hborn.none_of_empty x hx
    have hdying := hdying.none_of_empty x hx
    have hin := h.within x
    generalize life x = l at hborn hdying hin
    cases l with
    | held born dying =>
      refine ⟨fun u hu => ?_, fun u hu => ?_, hin.2.2⟩
      · subst hu
        have hu := hin.1 u rfl
        have hne : u ≠ s.syncingTxg := hborn
        omega
      · subst hu
        have hu := hin.2.1 u rfl
        have hne : u ≠ s.syncingTxg := hdying
        omega
    | _ => exact hin
  · rw [h.outside x hx]
    trivial

theorem Conserved.not_born_later (ht : s.syncingTxg + 2 < t)
    (x : Nat) : ¬ (life x).bornIn t := by
  intro hborn
  have hlast := (h.within x).born hborn
  have hopen := h.txgs.2.2
  omega

theorem Conserved.alloc_next (halloc : s.ms.alloctree s.syncingTxg = ∅)
    (t : Nat) (hlo : s.syncingTxg + 1 ≤ t) (hhi : t ≤ s.syncingTxg + 1 + 3) :
    Tracks s.ms.region.range life (Life.bornIn t) (s.ms.alloctree t) := by
  by_cases ht : t = s.syncingTxg + 4
  · have hslot : s.ms.alloctree t = s.ms.alloctree s.syncingTxg := by
      unfold Metaslab.alloctree txgSlot txgSize
      rw [ht, Nat.add_mod_right]
    rw [hslot, halloc]
    exact Tracks.of_none fun x _ => h.not_born_later (by omega) x
  · exact h.alloc t (by omega) (by omega)

theorem Conserved.not_dying_next (x : Nat) :
    ¬ (life x).dyingIn (s.syncingTxg + 3) := by
  intro hdying
  have hlast := (h.within x).dying hdying
  have hopen := h.txgs.2.2
  omega

end

theorem Metaslab.smOrNew_update (ms : Metaslab) :
    (ms.msSm.map spaceMapUpdate).getD (newMap ms.region fun _ => 0).sm =
      spaceMapUpdate ms.smOrNew := by
  unfold Metaslab.smOrNew
  cases ms.msSm <;> rfl

/- The metaslab after `metaslab_sync_done`, before it may be unloaded. -/
def Metaslab.settled (ms : Metaslab) (txg : Nat) (tree : RangeSet) : Metaslab :=
  { ms.setFreetree (txgClean txg) ∅ with
    msTree := tree
    msDefertree := Function.update ms.msDefertree (txg % txgDeferSize) (ms.freetree (txgClean txg))
    msSm := ms.msSm.map spaceMapUpdate }

section

variable (h : Conserved s life)
include h

section

variable (hidle : s.ms.msCondensing = none)
include hidle

theorem Conserved.settled
    (hpass : 0 < s.syncPass) (halloc : s.ms.alloctree s.syncingTxg = ∅)
    (hfree : s.ms.freetree s.syncingTxg = ∅) :
    ∃ tree, (if s.ms.msLoaded then (s.ms.msDefertree (s.syncingTxg % txgDeferSize)).walk
        RangeSet.add s.ms.msTree else some s.ms.msTree) = some tree ∧
      Conserved (s.synced (s.ms.settled s.syncingTxg tree))
        (fun x => (life x).syncDoneIn s.syncingTxg) ∧
      (s.ms.settled s.syncingTxg tree).InCore fun x => (life x).syncDoneIn s.syncingTxg := by
  have hmod : s.syncingTxg % txgDeferSize < txgDeferSize := Nat.mod_lt _ (by decide)
  have hdefer := h.defer _ hmod
  obtain ⟨tree, hrun, htree, hsame⟩ : ∃ tree, (if s.ms.msLoaded then
      (s.ms.msDefertree (s.syncingTxg % txgDeferSize)).walk RangeSet.add s.ms.msTree
        else some s.ms.msTree) = some tree ∧
      (s.ms.msLoaded = true → Tracks s.ms.region.range life
        (fun l => l.isFree ∨ l.deferredIn (s.syncingTxg % txgDeferSize)) tree) ∧
      (s.ms.msLoaded = false → tree = s.ms.msTree) := by
    cases hl : s.ms.msLoaded with
    | true =>
      have hfree := h.tree hl
      refine ⟨_, ?_, fun _ => hfree.union hdefer, fun hno => Bool.noConfusion hno⟩
      refine (if_pos rfl).trans (walk_add hdefer.subset ?_)
      refine hfree.disjoint hdefer fun x _ h₁ h₂ => ?_
      rw [h₁.eq] at h₂
      exact h₂
    | false => exact ⟨_, rfl, fun hno => Bool.noConfusion hno, fun _ => rfl⟩
  have hheld : ∀ P : Life → Prop, ¬ P .free → ¬ P .dead → (∀ slot, ¬ P (.deferred slot)) →
      ∀ x, P ((life x).syncDoneIn s.syncingTxg) ↔ P (life x) :=
    fun P h₁ h₂ h₃ x => Life.held_syncDoneIn h₁ h₂ h₃ (life x)
  have hborn : ∀ t x, ((life x).syncDoneIn s.syncingTxg).bornIn t ↔ (life x).bornIn t :=
    fun t => hheld _ id id fun _ => id
  have hdying : ∀ t x, ((life x).syncDoneIn s.syncingTxg).dyingIn t ↔ (life x).dyingIn t :=
    fun t => hheld _ id id fun _ => id
  have hdead : ∀ x, ¬ ((life x).syncDoneIn s.syncingTxg).isDead :=
    fun x => (life x).not_isDead_syncDoneIn
  obtain ⟨A, hA, hrec⟩ := h.disk
  have hdisk : Tracks s.ms.region.range (fun x => (life x).syncDoneIn s.syncingTxg) Life.onDisk A :=
    hA.congr fun x _ => hheld _ id id (fun _ => id) x
  have hmap : (s.synced (s.ms.settled s.syncingTxg tree)).ms.smOrNew =
      spaceMapUpdate s.ms.smOrNew := s.ms.smOrNew_update
  have hincore : (s.ms.settled s.syncingTxg tree).InCore
      fun x => (life x).syncDoneIn s.syncingTxg := by
    have hmap : (s.ms.settled s.syncingTxg tree).smOrNew = spaceMapUpdate s.ms.smOrNew := hmap
    rw [Metaslab.InCore, hmap]
    exact ⟨le_rfl, A, hA.congr fun x _ => (life x).shown_syncDoneIn, hrec.update.2⟩
  have hopen := h.txgs
  have hnext := h.passes.2 hpass
  refine ⟨tree, hrun,
    { units := fun x y hxy => congrArg _ (h.units x y hxy),
      outside := fun x hx => by rw [h.outside x hx]; rfl
      within := fun x => ?_, dead := fun x hx => absurd hx (hdead x),
      tree := fun hl => (htree hl).congr fun x _ => Life.isFree_syncDoneIn _,
      unloaded := fun hun => ⟨(hsame hun).trans (h.unloaded hun).1,
        fun x t hx => (h.unloaded hun).2 x t ((hborn t x).mp hx)⟩,
      alloc := fun t h1 h2 => (h.alloc_next halloc t h1 h2).congr fun x _ => hborn t x,
      free := fun t h1 h2 => ?_, freed := ?_, defer := fun i hi => ?_,
      region := hmap ▸ h.region, disk := ⟨A, hdisk, hmap ▸ hrec.update.1⟩,
      inCore := fun _ => hincore,
      condensing := fun tree ht => absurd (hidle.symm.trans ht) (by simp),
      asOf := fun t ht => ?_, recent := fun x t hx => ?_, txgs := ?_, passes := ?_ }, hincore⟩
  · have hin := h.within_next halloc hfree x
    generalize life x = l at hin
    cases l with
    | deferred slot =>
      simp only [Life.syncDoneIn]
      split
      · trivial
      · exact hin
    | dead => exact hmod
    | _ => exact hin
  · have htop : t = s.syncingTxg + 3 ∨ t ≤ s.syncingTxg + 2 := by
      have : t ≤ s.syncingTxg + 1 + 2 := h2
      omega
    rcases htop with rfl | hle
    · change Tracks _ _ _ ((s.ms.setFreetree (txgClean s.syncingTxg) ∅).freetree
        (txgClean s.syncingTxg))
      rw [freetree_setFreetree]
      exact Tracks.of_none fun x _ hx => h.not_dying_next x ((hdying _ x).mp hx)
    · have hlo : s.syncingTxg ≤ t := Nat.le_of_succ_le h1
      have hslot := txgSlot_ne (u := txgClean s.syncingTxg)
        ⟨hlo, Nat.le_succ_of_le hle⟩ ⟨Nat.le_add_right _ _, le_rfl⟩
        (by unfold txgClean txgSize; omega)
      change Tracks _ _ _ ((s.ms.setFreetree (txgClean s.syncingTxg) ∅).freetree t)
      rw [freetree_setFreetree_ne hslot]
      exact (h.free t hlo hle).congr fun x _ => hdying t x
  · have hclean : txgSlot (txgClean (s.syncingTxg + 1)) = txgSlot s.syncingTxg := by
      unfold txgClean txgSlot txgSize
      omega
    have hslot : txgSlot s.syncingTxg ≠ txgSlot (txgClean s.syncingTxg) :=
      txgSlot_ne ⟨le_rfl, Nat.le_add_right _ _⟩
        ⟨Nat.le_add_right _ _, le_rfl⟩ (by unfold txgClean txgSize; omega)
    have hempty : (s.ms.setFreetree (txgClean s.syncingTxg) ∅).freetree
        (txgClean (s.syncingTxg + 1)) = ∅ := by
      rw [Metaslab.freetree, hclean]
      exact (freetree_setFreetree_ne hslot).trans hfree
    change Tracks _ _ _ ((s.ms.setFreetree (txgClean s.syncingTxg) ∅).freetree
      (txgClean (s.syncingTxg + 1)))
    rw [hempty]
    exact Tracks.of_none fun x _ hx => hdead x hx
  · change Tracks _ _ _ (Function.update s.ms.msDefertree (s.syncingTxg % txgDeferSize)
      (s.ms.freetree (txgClean s.syncingTxg)) i)
    by_cases hne : i = s.syncingTxg % txgDeferSize
    · rw [hne, Function.update_self]
      refine h.freed.congr fun x _ => ?_
      rw [Life.deferredIn_syncDoneIn, if_pos rfl]
    · rw [Function.update_of_ne hne]
      refine (h.defer i hi).congr fun x _ => ?_
      rw [Life.deferredIn_syncDoneIn, if_neg hne]
  · exact (h.asOf t (Nat.le_of_succ_le ht)).congr fun x _ => hheld _ id id (fun _ => id) x
  · rcases h.recent x t hx with hold | hrecent
    · exact .inl (Nat.le_succ_of_le hold)
    · exact Life.recentlyFreed_syncDoneIn hrecent
  · exact ⟨Nat.succ_pos _, hnext, by have := hopen.2.2; exact Nat.le_succ_of_le this⟩
  · exact ⟨le_rfl, fun h0 => absurd h0 (lt_irrefl _)⟩

theorem Conserved.unload
    (hincore : s.ms.InCore life)
    (hnone : ∀ t, s.syncingTxg ≤ t → t ≤ s.syncingTxg + 2 → s.ms.alloctree t = ∅) :
    Conserved { s with ms := metaslabUnload s.ms } life :=
  { h with
    tree := fun hl => Bool.noConfusion hl
    unloaded := fun _ => ⟨rfl, fun x t hborn => by
      by_cases hx : x ∈ s.ms.region.range
      · have hopen := h.txgs.2.2
        have hlive := (h.within x).born hborn
        have htracks := h.alloc t (by omega) (by omega)
        rw [hnone t (by omega) (by omega)] at htracks
        exact htracks.none_of_empty x hx hborn
      · rw [h.outside x hx] at hborn
        exact hborn⟩
    inCore := fun _ => hincore
    condensing := fun tree hc => absurd (hidle.symm.trans hc) (by simp) }

theorem Conserved.skip
    (hnext : s.syncingTxg < s.openTxg) (hpass : s.syncedPass = 0)
    (halloc : s.ms.alloctree s.syncingTxg = ∅) (hfree : s.ms.freetree s.syncingTxg = ∅)
    (hd₀ : s.ms.msDefertree 0 = ∅) (hd₁ : s.ms.msDefertree 1 = ∅) :
    Conserved (s.synced s.ms) life := by
  have hdead : ∀ x, ¬ (life x).isDead := fun x hx => by
    have hsynced := h.dead x hx
    omega
  have hfreed : s.ms.freetree (txgClean s.syncingTxg) = ∅ :=
    h.freed.unique (Tracks.of_none fun x _ => hdead x)
  have hdefer : ∀ x slot, life x ≠ .deferred slot := by
    intro x slot hl
    have hin := h.within x
    have hslot : slot < 2 := by simpa [hl, Life.Within, txgDeferSize] using hin
    have htracks := h.defer slot hslot
    have hempty : s.ms.msDefertree slot = ∅ := by
      have hone : slot = 0 ∨ slot = 1 := by omega
      rcases hone with rfl | rfl <;> assumption
    rw [hempty] at htracks
    by_cases hx : x ∈ s.ms.region.range
    · exact htracks.none_of_empty x hx (by rw [hl]; rfl)
    · exact absurd ((h.outside x hx).symm.trans hl) (by simp)
  refine { h with
    within := fun x => h.within_next halloc hfree x
    dead := fun x hx => absurd hx (hdead x)
    alloc := fun t h1 h2 => h.alloc_next halloc t h1 h2
    free := fun t h1 h2 => ?_
    freed := ?_
    condensing := fun tree hc => absurd (hidle.symm.trans hc) (by simp)
    asOf := fun t ht => h.asOf t (Nat.le_of_succ_le ht)
    recent := fun x t hx => ?_
    txgs := ?_
    passes := ⟨le_rfl, fun h0 => absurd h0 (lt_irrefl _)⟩ }
  · have htop : t = s.syncingTxg + 3 ∨ t ≤ s.syncingTxg + 2 := by
      have : t ≤ s.syncingTxg + 1 + 2 := h2
      omega
    rcases htop with rfl | hle
    · have hempty : s.ms.freetree (s.syncingTxg + 3) = ∅ := hfreed
      change Tracks _ _ _ (s.ms.freetree (s.syncingTxg + 3))
      rw [hempty]
      exact Tracks.of_none fun x _ => h.not_dying_next x
    · exact h.free t (Nat.le_of_succ_le h1) hle
  · have hempty : s.ms.freetree (txgClean (s.syncingTxg + 1)) = ∅ := by
      have hslot : txgSlot (txgClean (s.syncingTxg + 1)) = txgSlot s.syncingTxg := by
        unfold txgClean txgSlot txgSize
        omega
      rw [Metaslab.freetree, hslot]
      exact hfree
    change Tracks _ _ _ (s.ms.freetree (txgClean (s.syncingTxg + 1)))
    rw [hempty]
    exact Tracks.of_none fun x _ => hdead x
  · rcases h.recent x t hx with hold | hrecent
    · exact .inl (Nat.le_succ_of_le hold)
    · right
      have hno := hdead x
      have hdefer := hdefer x
      generalize life x = l at hrecent hno hdefer
      cases l with
      | held born dying => exact hrecent
      | dead => exact absurd trivial hno
      | free => cases hrecent
      | deferred slot => exact absurd rfl (hdefer slot)
  · exact ⟨Nat.succ_pos _, hnext, Nat.le_succ_of_le h.txgs.2.2⟩

end

end

end SyncDone

end ClusterZfs

import ClusterZfs.SpaceMap.Replay

/-! A space map written in any number of passes and read back. -/
namespace ClusterZfs

/- The offsets of a list of segments. -/
def segSet (l : List RangeSeg) : RangeSet :=
  l.foldr (fun s rest => Finset.Ico s.rsStart s.rsEnd ∪ rest) ∅

/- Segments that a map of the region can log. -/
def MapRegion.Loggable (r : MapRegion) (l : List RangeSeg) : Prop :=
  ∀ s ∈ l, 2 ^ r.smShift ∣ s.rsStart ∧ 2 ^ r.smShift ∣ s.rsEnd ∧ r.smStart ≤ s.rsStart ∧
    s.rsEnd ≤ r.smStart + r.smSize

section Segs

variable {r : MapRegion} {l : List RangeSeg} {A : RangeSet} {mt : Maptype}

theorem mem_segSet {x : Nat} : Covers l x ↔ x ∈ segSet l := by
  induction l with
  | nil => simp [segSet]
  | cons s l ih =>
    rw [Covers_cons, ih]
    simp [segSet, RangeSeg.Mem]

theorem segSet_subset (h : r.Loggable l) : segSet l ⊆ r.range := by
  intro x hx
  obtain ⟨s, hs, hlo, hhi⟩ := mem_segSet.mpr hx
  obtain ⟨-, -, h1, h2⟩ := h s hs
  exact Finset.mem_Ico.mpr ⟨by omega, by omega⟩

theorem segSet_card (h : Gapped l) : (segSet l).card = spaceOf l :=
  (spaceOf_eq_card h fun _ => mem_segSet).symm

theorem run_of_seg {s : RangeSeg} (hne : s.rsStart < s.rsEnd)
    (h : 2 ^ r.smShift ∣ s.rsStart ∧ 2 ^ r.smShift ∣ s.rsEnd ∧ r.smStart ≤ s.rsStart ∧
      s.rsEnd ≤ r.smStart + r.smSize) :
    r.run ((s.rsStart - r.smStart) >>> r.smShift) ((s.rsEnd - s.rsStart) >>> r.smShift) =
        Finset.Ico s.rsStart s.rsEnd ∧
      ((s.rsEnd - s.rsStart) >>> r.smShift) <<< r.smShift = s.size := by
  obtain ⟨hstart, hend, hlo, hhi⟩ := h
  have hfirst := Nat.div_mul_cancel (Nat.dvd_sub hstart r.start_aligned)
  have hlen := Nat.div_mul_cancel (Nat.dvd_sub hend hstart)
  rw [MapRegion.run, Nat.shiftRight_eq_div_pow, Nat.shiftRight_eq_div_pow, Nat.shiftLeft_eq,
    Nat.add_mul, hfirst, hlen]
  refine ⟨?_, rfl⟩
  congr 1 <;> omega

theorem segSet_cons_disjoint {s : RangeSeg} (h : Gapped (s :: l)) :
    Disjoint (Finset.Ico s.rsStart s.rsEnd) (segSet l) := by
  refine Finset.disjoint_left.mpr fun x hx hl => ?_
  obtain ⟨t, ht, hmem⟩ := mem_segSet.mpr hl
  have hgap := (List.pairwise_cons.mp h.gaps).1 t ht
  have h1 := (Finset.mem_Ico.mp hx).2
  have h2 := hmem.1
  omega

theorem putSegs_logs (total : Nat) {w : EntryMap} {log : List Nat} (h : w.Logs log)
    (hr : w.sm.region = r) (hrep : r.Replays log A) (hl : Gapped l) (hin : r.Loggable l)
    (hfits : mt.Fits A (segSet l)) (htotal : total + spaceOf l < 2 ^ 64) :
    ∃ w' log', EntryMap.putSegs mt l w total = some (w', total + spaceOf l) ∧ w'.Logs log' ∧
      w.Same w' ∧ r.Replays log' (mt.apply A (segSet l)) := by
  induction l generalizing w log A total with
  | nil =>
    refine ⟨w, log, rfl, h, ⟨rfl, rfl⟩, ?_⟩
    cases mt <;> simpa [segSet, Maptype.apply] using hrep
  | cons s l ih =>
    have hs := hl.bounds s List.mem_cons_self
    obtain ⟨hrun, hsize⟩ := run_of_seg hs.1 (hin s List.mem_cons_self)
    have hcons : segSet (s :: l) = Finset.Ico s.rsStart s.rsEnd ∪ segSet l := rfl
    have hsub := segSet_subset hin
    rw [hcons] at hfits hsub ⊢
    obtain ⟨hfits₁, hfits₂⟩ := Maptype.fits_union (segSet_cons_disjoint hl) hfits
    rw [spaceOf_cons] at htotal
    obtain ⟨w₁, log₁, hput, hlogs₁, hsame₁, hrep₁⟩ := putRuns_logs mt h hr hrep le_rfl
      (by rw [hrun]; exact (Finset.union_subset_iff.mp hsub).1) (by rw [hrun]; exact hfits₁)
    rw [hrun] at hrep₁
    have htot : uint64 (total + s.size) = total + s.size := Nat.mod_eq_of_lt (by omega)
    obtain ⟨w', log', hputs, hlogs, hsame, hrep'⟩ := ih (total + s.size) hlogs₁
      (hsame₁.1.trans hr) hrep₁ hl.tail (fun t ht => hin t (List.mem_cons_of_mem s ht)) hfits₂
      (by omega)
    refine ⟨w', log', ?_, hlogs, hsame₁.trans hsame, ?_⟩
    · rw [EntryMap.putSegs, hr]
      simp only [hput, Option.bind_some, hsize, htot, hputs, spaceOf_cons]
      rw [Nat.add_assoc]
    · rw [Maptype.apply_union]
      exact hrep'

end Segs

/- The log and the header say that `A` is allocated. -/
structure SpaceMap.Records (sm : SpaceMap) (A : RangeSet) : Prop where
  log : ∃ log, sm.Logged log ∧ sm.region.Replays log A
  alloc : sm.smpAlloc = A.card

section Write

variable {sm : SpaceMap} {A : RangeSet} {mt : Maptype} {rt : SegList} {syncpass txg : Nat}

theorem SpaceMap.Records.inside (h : sm.Records A) : A ⊆ sm.region.range := by
  obtain ⟨log, -, hrep⟩ := h.log
  exact hrep.inside

theorem spaceOf_eq_zero {l : List RangeSeg} (h : Gapped l) (h0 : spaceOf l = 0) : l = [] := by
  cases l with
  | nil => rfl
  | cons s l =>
    have hs := (h.bounds s List.mem_cons_self).1
    rw [spaceOf_cons, RangeSeg.size] at h0
    omega

theorem account_smpAlloc (hA : A ⊆ sm.region.range) {S : RangeSet} (hS : S ⊆ sm.region.range)
    (hfits : mt.Fits A S) (halloc : sm.smpAlloc = A.card) :
    (sm.account mt S.card).smpAlloc = (mt.apply A S).card := by
  rw [SpaceMap.account, halloc]
  dsimp only
  have hbound := sm.region.bound
  have hAcard := Finset.card_le_card hA
  have hunion := Finset.card_le_card (Finset.union_subset hA hS)
  rw [sm.region.card_range] at hAcard hunion
  cases mt with
  | alloc =>
    rw [if_pos rfl, Maptype.apply]
    rw [Finset.card_union_of_disjoint hfits] at hunion ⊢
    exact Nat.mod_eq_of_lt (by omega)
  | free =>
    have hle := Finset.card_le_card hfits
    rw [if_neg (by decide), Maptype.apply, Finset.card_sdiff_of_subset hfits, uint64]
    omega

theorem spaceMapWrite_records (h : sm.Records A) (hin : sm.region.Loggable rt.segs)
    (hfits : mt.Fits A (segSet rt.segs)) :
    ∃ sm', spaceMapWrite sm rt mt syncpass txg = some sm' ∧ sm'.region = sm.region ∧
      sm'.Records (mt.apply A (segSet rt.segs)) := by
  obtain ⟨log, hlogged, hrep⟩ := h.log
  rw [spaceMapWrite]
  by_cases h0 : spaceOf rt.segs = 0
  · simp only [if_pos h0]
    refine ⟨sm, rfl, rfl, ?_⟩
    have hempty : segSet rt.segs = ∅ := by rw [spaceOf_eq_zero rt.gapped h0]; rfl
    rw [hempty]
    cases mt <;> simpa [Maptype.apply] using h
  · simp only [if_neg h0]
    have halloc := account_smpAlloc h.inside (segSet_subset hin) hfits h.alloc
    rw [segSet_card rt.gapped] at halloc
    have hlogs : (⟨sm.account mt (spaceOf rt.segs), [smDebugEntry mt syncpass txg]⟩ : EntryMap).Logs
        (log ++ [smDebugEntry mt syncpass txg]) := by
      refine ⟨⟨log, ⟨hlogged.length, hlogged.words⟩, rfl⟩, ?_⟩
      have hpos := sm.region.blksz_pos
      obtain ⟨k, hk⟩ := sm.region.blksz_words
      simp only [List.length_singleton]
      change 1 ≤ sm.region.smBlksz / 8
      omega
    have hlt := spaceOf_lt rt.gapped
    obtain ⟨w, log', hputs, hlogs', hsame, hrep'⟩ := putSegs_logs 0 hlogs
      rfl (hrep.debug syncpass txg) rt.gapped hin hfits (by omega)
    rw [hputs, Option.bind_some]
    simp only [Nat.zero_add, if_true]
    obtain ⟨written, hwritten, rfl⟩ := hlogs'.logged
    by_cases hempty : w.entries = []
    · rw [if_neg (not_not.mpr hempty)]
      rw [hempty, List.append_nil] at hrep'
      exact ⟨w.sm, rfl, hsame.1, ⟨written, hwritten, hsame.1 ▸ hrep'⟩, hsame.2.trans halloc⟩
    · rw [if_pos hempty]
      refine ⟨_, rfl, hsame.1, ⟨_, hwritten.write w.entries, ?_⟩, hsame.2.trans halloc⟩
      change w.sm.region.Replays _ _
      rw [hsame.1]
      exact hrep'

end Write

section Load

variable {sm : SpaceMap} {A : RangeSet} {log : List Nat}

theorem dmuRead_log (h : sm.Logged log) {k n : Nat} (hn : k + n ≤ log.length) :
    dmuRead sm.object (8 * k) (8 * n) = (log.drop k).take n := by
  have hk : 8 * k / 8 = k := by omega
  have hn8 : 8 * n / 8 = n := by omega
  rw [dmuRead, hk, hn8]
  refine List.ext_getElem (by simp; omega) fun i hi hi' => ?_
  simp only [List.length_map, List.length_range] at hi
  have hlt : k + i < log.length := by omega
  rw [List.getElem_map, List.getElem_range, List.getElem_take, List.getElem_drop,
    h.words _ hlt, List.getD_eq_getElem _ _ hlt]

theorem loadLoop_log (h : sm.Logged log) (hsync : sm.smLength = sm.smpObjsize) (mt : Maptype)
    {fuel k : Nat} (hfuel : log.length - k < fuel) (rt : RangeSet) :
    spaceMapLoadLoop sm mt (fun _ => 0) fuel (8 * k) rt =
      ((log.drop k).foldlM (spaceMapLoadEntry sm.region mt) rt).map fun rt => (0, rt) := by
  have hlen : sm.smLength = 8 * log.length := hsync.trans h.length
  obtain ⟨b, hb⟩ : 8 ∣ max sm.region.smBlksz 512 := by
    obtain ⟨c, hc⟩ := sm.region.blksz_words
    omega
  induction fuel generalizing k rt with
  | zero => omega
  | succ fuel ih =>
    rw [spaceMapLoadLoop, hlen, hb]
    by_cases hlt : k < log.length
    · have hsize : min (8 * log.length - 8 * k) (8 * b) = 8 * min (log.length - k) b := by omega
      have hphase : ¬ 8 * min (log.length - k) b % 8 ≠ 0 := by omega
      have hnext : 8 * k + 8 * b = 8 * (k + b) := by omega
      have hmin : (log.drop k).take (min (log.length - k) b) = (log.drop k).take b := by
        rw [Nat.min_comm, ← List.length_drop]
        exact List.take_eq_take_min.symm
      have hsplit : log.drop k = (log.drop k).take b ++ log.drop (k + b) := by
        rw [← List.drop_drop, List.take_append_drop]
      rw [if_pos (by omega), hsize]
      simp only [if_neg hphase, ne_eq, not_true_eq_false, if_false]
      rw [dmuRead_log h (by omega), hmin, hnext]
      conv_rhs => rw [hsplit, List.foldlM_append]
      cases hfold : ((log.drop k).take b).foldlM (spaceMapLoadEntry sm.region mt) rt with
      | none => rfl
      | some rt' => exact ih (by omega) rt'
    · rw [if_neg (by omega), List.drop_eq_nil_of_le (by omega)]
      rfl

theorem MapRegion.view_start (r : MapRegion) (mt : Maptype) :
    (if mt = .free then RangeSet.add ∅ r.smStart r.smSize else some ∅) = some (r.view mt ∅) := by
  cases mt with
  | alloc => rfl
  | free =>
    have hpos := r.size_pos
    rw [if_pos rfl, RangeSet.add, if_neg (by simp; omega)]
    simp [MapRegion.view, MapRegion.range]

/-- A load after `space_map_update` shows the allocated set. -/
theorem spaceMapLoad_records (h : sm.Records A) (mt : Maptype) :
    spaceMapLoad (spaceMapUpdate sm) ∅ mt (fun _ => 0) = some (0, sm.region.view mt A) := by
  obtain ⟨log, hlogged, hrep⟩ := h.log
  have hlogged' : (spaceMapUpdate sm).Logged log := ⟨hlogged.length, hlogged.words⟩
  have hlen : (spaceMapUpdate sm).smLength = 8 * log.length := hlogged.length
  have hfuel : log.length - 0 < (spaceMapUpdate sm).smLength + 1 := by omega
  have hloop := loadLoop_log hlogged' rfl mt hfuel (sm.region.view mt ∅)
  rw [List.drop_zero, Nat.mul_zero] at hloop
  have hregion : (spaceMapUpdate sm).region = sm.region := rfl
  rw [hregion, hrep.load mt] at hloop
  have hbound := sm.region.bound
  have hcard := Finset.card_le_card h.inside
  rw [sm.region.card_range] at hcard
  have hspace : (sm.region.view mt A).card =
      if mt = .free then uint64 (sm.region.smSize + (2 ^ 64 - A.card)) else A.card := by
    cases mt with
    | alloc => rfl
    | free =>
      rw [if_pos rfl, MapRegion.view, Finset.card_sdiff_of_subset h.inside, sm.region.card_range,
        uint64]
      omega
  have hstart := sm.region.view_start mt
  have halloc : (spaceMapUpdate sm).smAlloc = A.card := h.alloc
  rw [spaceMapLoad, if_neg (by simp)]
  simp only [hregion, hstart, halloc, Option.bind_some, hloop, Option.map_some]
  rw [if_pos hspace]
  rfl

end Load

/- A map in use, next to the set its writers have allocated. -/
structure MapHistory where
  sm : SpaceMap
  allocated : RangeSet

structure MapWrite where
  rt : SegList
  maptype : Maptype
  syncpass : Nat
  txg : Nat

def MapWrite.Allowed (h : MapHistory) (w : MapWrite) : Prop :=
  h.sm.region.Loggable w.rt.segs ∧ w.maptype.Fits h.allocated (segSet w.rt.segs)

def mapStep (h : MapHistory) (w : MapWrite) : Option MapHistory :=
  (spaceMapWrite h.sm w.rt w.maptype w.syncpass w.txg).map fun sm =>
    ⟨sm, w.maptype.apply h.allocated (segSet w.rt.segs)⟩

/- A new map: its object may hold anything, but none of it belongs to the log. -/
def newMap (r : MapRegion) (object : Nat → Nat) : MapHistory := ⟨⟨r, 0, 0, 0, 0, object⟩, ∅⟩

section History

variable {r : MapRegion} {object : Nat → Nat} {h : MapHistory}

theorem newMap_records (r : MapRegion) (object : Nat → Nat) : (newMap r object).sm.Records ∅ :=
  ⟨⟨[], ⟨rfl, fun i hi => by cases hi⟩, Finset.empty_subset _, fun _ => rfl⟩, rfl⟩

theorem mapStep_records (hrec : h.sm.Records h.allocated) {w : MapWrite} (hok : w.Allowed h) :
    ∃ h', mapStep h w = some h' ∧ h'.sm.region = h.sm.region ∧ h'.sm.Records h'.allocated := by
  obtain ⟨sm', hwrite, hregion, hrec'⟩ := spaceMapWrite_records hrec hok.1 hok.2
  rw [mapStep, hwrite]
  exact ⟨_, rfl, hregion, hrec'⟩

/-- After any history of writes a load of the map gives the allocated set, or all the rest of the
region, no check on the way fails, and the header counts the allocated set. -/
theorem space_map_round_trip
    (hreach : Reach mapStep (fun h w => MapWrite.Allowed h w) (newMap r object) h) :
    spaceMapLoad (spaceMapUpdate h.sm) ∅ .alloc (fun _ => 0) = some (0, h.allocated) ∧
      spaceMapLoad (spaceMapUpdate h.sm) ∅ .free (fun _ => 0) =
        some (0, Finset.Ico r.smStart (r.smStart + r.smSize) \ h.allocated) ∧
      h.sm.smpAlloc = h.allocated.card ∧
      ∀ w : MapWrite, w.Allowed h → ∃ h', mapStep h w = some h' := by
  obtain ⟨hregion, hrec⟩ : h.sm.region = r ∧ h.sm.Records h.allocated := by
    refine Reach.invariant (P := fun h => h.sm.region = r ∧ h.sm.Records h.allocated)
      ⟨rfl, newMap_records r object⟩ (fun h h' w hinv hok hstep => ?_) hreach
    obtain ⟨h₁, hstep₁, hregion₁, hrec₁⟩ := mapStep_records hinv.2 hok
    cases hstep.symm.trans hstep₁
    exact ⟨hregion₁.trans hinv.1, hrec₁⟩
  have hfree := spaceMapLoad_records hrec .free
  rw [hregion] at hfree
  refine ⟨spaceMapLoad_records hrec .alloc, hfree, hrec.alloc, fun w hok => ?_⟩
  obtain ⟨h', hstep, -⟩ := mapStep_records hrec hok
  exact ⟨h', hstep⟩

/-- A run of 65536 units, twice what one entry can hold, is allocated and two units of it are freed
again. -/
theorem space_map_round_trip_freed :
    ∃ h : MapHistory, h.allocated = Finset.Ico 0 (2 ^ 25) \ Finset.Ico 512 1536 ∧
      spaceMapLoad (spaceMapUpdate h.sm) ∅ .alloc (fun _ => 0) = some (0, h.allocated) ∧
      spaceMapLoad (spaceMapUpdate h.sm) ∅ .free (fun _ => 0) =
        some (0, Finset.Ico 0 (0 + 2 ^ 26) \ h.allocated) := by
  let r : MapRegion := ⟨0, 2 ^ 26, 9, 4096, by decide, by decide, by decide, by decide, by decide,
    by decide⟩
  let w : MapWrite := ⟨⟨[⟨0, 2 ^ 25⟩], by simp, by simp⟩, .alloc, 1, 5⟩
  let w' : MapWrite := ⟨⟨[⟨512, 1536⟩], by simp, by simp⟩, .free, 1, 6⟩
  have hok : w.Allowed (newMap r fun _ => 0) := by
    exact ⟨List.forall_mem_singleton.mpr (by decide), Finset.disjoint_empty_left _⟩
  obtain ⟨h, hstep, hregion, hrec⟩ := mapStep_records (newMap_records r _) hok
  have halloc : h.allocated = Finset.Ico 0 (2 ^ 25) := by
    obtain ⟨sm, -, rfl⟩ := Option.map_eq_some_iff.mp hstep
    simp [w, newMap, Maptype.apply, segSet]
  have hset : segSet w'.rt.segs = Finset.Ico 512 1536 := by simp [w', segSet]
  have hok' : w'.Allowed h := by
    refine ⟨List.forall_mem_singleton.mpr ?_, ?_⟩
    · rw [hregion]
      decide
    · rw [hset, halloc]
      exact Finset.Ico_subset_Ico (by decide) (by decide)
  obtain ⟨h', hstep', -⟩ := mapStep_records hrec hok'
  have htrip := space_map_round_trip (.next (.next .start hok hstep) hok' hstep')
  refine ⟨h', ?_, htrip.1, htrip.2.1⟩
  obtain ⟨sm, -, rfl⟩ := Option.map_eq_some_iff.mp hstep'
  change h.allocated \ segSet w'.rt.segs = _
  rw [hset, halloc]

end History

end ClusterZfs

import ClusterZfs.SpaceMap.Code

/-! What the log of a space map says, and that the writer logs what it is told. -/
namespace ClusterZfs

def MapRegion.range (r : MapRegion) : RangeSet := Finset.Ico r.smStart (r.smStart + r.smSize)

/- The effect of a logged range on the allocated set, and when it may be logged. -/
def Maptype.apply (maptype : Maptype) (A I : RangeSet) : RangeSet :=
  match maptype with
  | alloc => A ∪ I
  | free => A \ I

def Maptype.Fits (maptype : Maptype) (A I : RangeSet) : Prop :=
  match maptype with
  | alloc => Disjoint A I
  | free => I ⊆ A

/- What a load of the given type shows of the allocated set. -/
def MapRegion.view (r : MapRegion) (maptype : Maptype) (A : RangeSet) : RangeSet :=
  match maptype with
  | .alloc => A
  | .free => r.range \ A

/- The log leads from an empty map to the allocated set `A`, for both types of load. -/
structure MapRegion.Replays (r : MapRegion) (log : List Nat) (A : RangeSet) : Prop where
  inside : A ⊆ r.range
  load : ∀ maptype, log.foldlM (spaceMapLoadEntry r maptype) (r.view maptype ∅) =
    some (r.view maptype A)

section Entry

variable {start runLen : Nat}

variable {r : MapRegion} {A I J : RangeSet} {mt : Maptype} {log : List Nat}

theorem Maptype.apply_union : mt.apply A (I ∪ J) = mt.apply (mt.apply A I) J := by
  cases mt with
  | alloc => exact (Finset.union_assoc A I J).symm
  | free => exact sdiff_sdiff_left.symm

theorem Maptype.fits_union (hdisj : Disjoint I J) (h : mt.Fits A (I ∪ J)) :
    mt.Fits A I ∧ mt.Fits (mt.apply A I) J := by
  cases mt with
  | alloc =>
    obtain ⟨hI, hJ⟩ := Finset.disjoint_union_right.mp h
    exact ⟨hI, Finset.disjoint_union_left.mpr ⟨hJ, hdisj⟩⟩
  | free =>
    obtain ⟨hI, hJ⟩ := Finset.union_subset_iff.mp h
    exact ⟨hI, Finset.subset_sdiff.mpr ⟨hJ, hdisj.symm⟩⟩

theorem Maptype.apply_subset (hA : A ⊆ r.range) (hI : I ⊆ r.range) : mt.apply A I ⊆ r.range := by
  cases mt with
  | alloc => exact Finset.union_subset hA hI
  | free => exact Finset.sdiff_subset.trans hA

theorem MapRegion.card_range (r : MapRegion) : r.range.card = r.smSize := by
  rw [MapRegion.range, Nat.card_Ico]
  omega

theorem card_add_le {C : RangeSet} {offset size : Nat}
    (hdisj : Disjoint C (Finset.Ico offset (offset + size)))
    (hin : C ∪ Finset.Ico offset (offset + size) ⊆ r.range) : C.card + size ≤ r.smSize := by
  have hcard := Finset.card_le_card hin
  rw [Finset.card_union_of_disjoint hdisj, Nat.card_Ico, r.card_range] at hcard
  omega

/- The operation of a range tree that applies a range. -/
def Maptype.op : Maptype → RangeSet → Nat → Nat → Option RangeSet
  | alloc => RangeSet.add
  | free => RangeSet.remove

theorem Maptype.op_eq (mt : Maptype) {C : RangeSet} {offset size : Nat} (hsize : 0 < size)
    (h : mt.Fits C (Finset.Ico offset (offset + size))) :
    mt.op C offset size = some (mt.apply C (Finset.Ico offset (offset + size))) := by
  cases mt with
  | alloc | free =>
    refine if_neg ?_
    rintro (h0 | hno)
    · omega
    · exact hno h

/- The range of an entry, in bytes. -/
def MapRegion.run (r : MapRegion) (start runLen : Nat) : RangeSet :=
  Finset.Ico (r.smStart + start * 2 ^ r.smShift) (r.smStart + (start + runLen) * 2 ^ r.smShift)

/-- What an entry says, once it is decoded and checked. -/
theorem loadEntry_eq (mt lt : Maptype) (C : RangeSet) (hrun : 0 < runLen)
    (hmax : runLen ≤ 2 ^ 15) (hin : r.run start runLen ⊆ r.range) :
    ∃ offset size, 0 < size ∧ Finset.Ico offset (offset + size) = r.run start runLen ∧
      spaceMapLoadEntry r lt C (smEntry start mt runLen) =
        if mt.code = lt.code then
          if ¬ C.card + size ≤ r.smSize then none else C.add offset size
        else C.remove offset size := by
  have hunit : 0 < 2 ^ r.smShift := Nat.two_pow_pos _
  have hlen : (start + runLen) * 2 ^ r.smShift = start * 2 ^ r.smShift + runLen * 2 ^ r.smShift :=
    Nat.add_mul _ _ _
  have hpos : 0 < runLen * 2 ^ r.smShift := Nat.mul_pos hrun hunit
  have hbound := r.bound
  -- the run ends inside the region
  have hend : (start + runLen) * 2 ^ r.smShift ≤ r.smSize := by
    have hlast : r.smStart + (start + runLen) * 2 ^ r.smShift - 1 ∈ r.range :=
      hin (Finset.mem_Ico.mpr ⟨by omega, by omega⟩)
    have := (Finset.mem_Ico.mp hlast).2
    omega
  have hoff : start < 2 ^ 47 := by
    have hle : (start + runLen) * 2 ^ r.smShift ≤ 2 ^ 47 * 2 ^ r.smShift := hend.trans r.offsets
    have := Nat.le_of_mul_le_mul_right hle hunit
    omega
  obtain ⟨hdebug, hoffset, htype, hrunlen⟩ := smEntry_decode mt hoff hrun hmax
  have hoff64 : uint64 (uint64 (start <<< r.smShift) + r.smStart) =
      r.smStart + start * 2 ^ r.smShift := by
    rw [Nat.shiftLeft_eq, uint64, uint64, Nat.mod_eq_of_lt (by omega), Nat.mod_eq_of_lt (by omega),
      Nat.add_comm]
  have hsize64 : uint64 (runLen <<< r.smShift) = runLen * 2 ^ r.smShift := by
    rw [Nat.shiftLeft_eq, uint64, Nat.mod_eq_of_lt (by omega)]
  have hsum64 : uint64 (r.smStart + start * 2 ^ r.smShift + runLen * 2 ^ r.smShift) =
      r.smStart + start * 2 ^ r.smShift + runLen * 2 ^ r.smShift :=
    Nat.mod_eq_of_lt (by omega)
  have hreg64 : uint64 (r.smStart + r.smSize) = r.smStart + r.smSize := Nat.mod_eq_of_lt hbound
  have hphase : (r.smStart + start * 2 ^ r.smShift) % 2 ^ r.smShift = 0 :=
    Nat.mod_eq_zero_of_dvd (Nat.dvd_add r.start_aligned (Nat.dvd_mul_left _ _))
  have hphase' : runLen * 2 ^ r.smShift % 2 ^ r.smShift = 0 := Nat.mul_mod_left _ _
  refine ⟨r.smStart + start * 2 ^ r.smShift, runLen * 2 ^ r.smShift, hpos, ?_, ?_⟩
  · rw [MapRegion.run, hlen, Nat.add_assoc]
  · rw [spaceMapLoadEntry, if_neg (by rw [hdebug]; decide)]
    simp only [hoffset, hrunlen, htype, hoff64, hsize64, hsum64, hreg64]
    rw [if_neg (by
      rw [hphase, hphase']
      simp only [ne_eq, not_true_eq_false, false_or]
      omega)]

theorem loadEntry_view (lt : Maptype) (hrun : 0 < runLen)
    (hmax : runLen ≤ 2 ^ 15) (hA : A ⊆ r.range) (hin : r.run start runLen ⊆ r.range)
    (hfits : mt.Fits A (r.run start runLen)) :
    spaceMapLoadEntry r lt (r.view lt A) (smEntry start mt runLen) =
      some (r.view lt (mt.apply A (r.run start runLen))) := by
  obtain ⟨offset, size, hpos, hI, heq⟩ := loadEntry_eq mt lt (r.view lt A) hrun hmax hin
  rw [heq, ← hI]
  rw [← hI] at hin hfits
  cases mt with
  | alloc =>
    cases lt with
    | alloc =>
      have hspace := card_add_le hfits (Finset.union_subset hA hin)
      rw [if_pos rfl]
      exact (if_neg (not_not.mpr hspace)).trans (Maptype.op_eq .alloc hpos hfits)
    | free =>
      have hsub : Finset.Ico offset (offset + size) ⊆ r.range \ A :=
        Finset.subset_sdiff.mpr ⟨hin, Disjoint.symm hfits⟩
      rw [if_neg (by decide)]
      exact (Maptype.op_eq .free hpos hsub).trans (congrArg some sdiff_sdiff_left)
  | free =>
    cases lt with
    | alloc =>
      rw [if_neg (by decide)]
      exact Maptype.op_eq .free hpos hfits
    | free =>
      have hdisj : Disjoint (r.range \ A) (Finset.Ico offset (offset + size)) :=
        Finset.disjoint_of_subset_right hfits Finset.sdiff_disjoint
      have hspace := card_add_le hdisj (Finset.union_subset Finset.sdiff_subset hin)
      rw [if_pos rfl]
      refine (if_neg (not_not.mpr hspace)).trans
        ((Maptype.op_eq .alloc hpos hdisj).trans (congrArg some ?_))
      ext x
      simp only [Maptype.apply, MapRegion.view, Finset.mem_union, Finset.mem_sdiff]
      tauto

theorem MapRegion.Replays.entry (h : r.Replays log A) (hrun : 0 < runLen)
    (hmax : runLen ≤ 2 ^ 15) (hin : r.run start runLen ⊆ r.range)
    (hfits : mt.Fits A (r.run start runLen)) :
    r.Replays (log ++ [smEntry start mt runLen]) (mt.apply A (r.run start runLen)) := by
  refine ⟨Maptype.apply_subset h.inside hin, fun lt => ?_⟩
  rw [List.foldlM_append, h.load lt]
  simp only [Option.bind_eq_bind, Option.bind_some, List.foldlM_cons, List.foldlM_nil,
    loadEntry_view lt hrun hmax h.inside hin hfits]
  rfl

theorem MapRegion.Replays.run_zero (h : r.Replays log A) :
    r.Replays log (mt.apply A (r.run start 0)) := by
  cases mt <;> simpa [MapRegion.run, Maptype.apply] using h

theorem MapRegion.Replays.debug (h : r.Replays log A) (syncpass txg : Nat) :
    r.Replays (log ++ [smDebugEntry mt syncpass txg]) A := by
  refine ⟨h.inside, fun lt => ?_⟩
  rw [List.foldlM_append, h.load lt]
  have hskip : spaceMapLoadEntry r lt (r.view lt A) (smDebugEntry mt syncpass txg) =
      some (r.view lt A) := by
    rw [spaceMapLoadEntry, if_pos (by rw [smDebugEntry_decode]; decide)]
  simp only [Option.bind_eq_bind, Option.bind_some, List.foldlM_cons, List.foldlM_nil, hskip]
  rfl

end Entry

section Write

variable {mt : Maptype} {A : RangeSet} {w w' : EntryMap} {log log' : List Nat}

/- The object holds the log, as far as the header says. -/
structure SpaceMap.Logged (sm : SpaceMap) (log : List Nat) : Prop where
  length : sm.smpObjsize = 8 * log.length
  words : ∀ i, i < log.length → sm.object i = log.getD i 0

/- The log with the entries that are not written out yet. -/
structure EntryMap.Logs (w : EntryMap) (log : List Nat) : Prop where
  logged : ∃ written, w.sm.Logged written ∧ log = written ++ w.entries
  room : w.entries.length ≤ w.sm.region.smBlksz / 8

/- What writing does not change. -/
def EntryMap.Same (w w' : EntryMap) : Prop :=
  w'.sm.region = w.sm.region ∧ w'.sm.smpAlloc = w.sm.smpAlloc

theorem SpaceMap.Logged.write {sm : SpaceMap} (h : sm.Logged log) (entries : List Nat) :
    SpaceMap.Logged { sm with
      object := dmuWrite sm.object sm.smpObjsize entries
      smpObjsize := sm.smpObjsize + entries.length * 8 } (log ++ entries) := by
  have hdiv : sm.smpObjsize / 8 = log.length := by rw [h.length]; omega
  refine ⟨?_, fun i hi => ?_⟩
  · have hlen := h.length
    rw [List.length_append]
    dsimp only
    omega
  · rw [List.length_append] at hi
    simp only [dmuWrite, hdiv]
    by_cases hlt : i < log.length
    · rw [if_neg (by omega), h.words i hlt, List.getD_append _ _ _ _ hlt]
    · rw [if_pos (by omega), List.getD_append_right _ _ _ _ (by omega)]

theorem EntryMap.Logs.put (h : w.Logs log) (entry : Nat) :
    (w.put entry).Logs (log ++ [entry]) ∧ w.Same (w.put entry) := by
  obtain ⟨written, hlogged, rfl⟩ := h.logged
  obtain ⟨k, hk⟩ := w.sm.region.blksz_words
  have hpos := w.sm.region.blksz_pos
  unfold EntryMap.put
  by_cases hfull : w.entries.length = w.sm.region.smBlksz / 8
  · simp only [if_pos hfull]
    have hsize : w.sm.region.smBlksz = w.entries.length * 8 := by omega
    have hwritten := hlogged.write w.entries
    rw [← hsize] at hwritten
    refine ⟨⟨⟨_, hwritten, by simp [EntryMap.flush]⟩, ?_⟩, rfl, rfl⟩
    simp only [EntryMap.flush, List.nil_append, List.length_singleton]
    omega
  · simp only [if_neg hfull]
    have hroom := h.room
    refine ⟨⟨⟨written, hlogged, by simp⟩, ?_⟩, rfl, rfl⟩
    rw [List.length_append, List.length_singleton]
    dsimp only
    omega

theorem EntryMap.Same.trans {w'' : EntryMap} (h : w.Same w') (h' : w'.Same w'') : w.Same w'' :=
  ⟨h'.1.trans h.1, h'.2.trans h.2⟩

theorem MapRegion.run_split (r : MapRegion) (start m n : Nat) :
    r.run start (m + n) = r.run start m ∪ r.run (start + m) n ∧
      Disjoint (r.run start m) (r.run (start + m) n) := by
  unfold MapRegion.run
  have h1 : r.smStart + start * 2 ^ r.smShift ≤ r.smStart + (start + m) * 2 ^ r.smShift :=
    Nat.add_le_add_left (Nat.mul_le_mul_right _ (Nat.le_add_right _ _)) _
  have h2 : r.smStart + (start + m) * 2 ^ r.smShift ≤
      r.smStart + (start + m + n) * 2 ^ r.smShift :=
    Nat.add_le_add_left (Nat.mul_le_mul_right _ (Nat.le_add_right _ _)) _
  constructor
  · rw [Finset.Ico_union_Ico_eq_Ico h1 h2, Nat.add_assoc]
  · exact Finset.Ico_disjoint_Ico_consecutive _ _ _

theorem putRuns_logs (mt : Maptype) {r : MapRegion} {fuel start size : Nat} (h : w.Logs log)
    (hr : w.sm.region = r) (hrep : r.Replays log A) (hfuel : size ≤ fuel)
    (hin : r.run start size ⊆ r.range) (hfits : mt.Fits A (r.run start size)) :
    ∃ w' log', EntryMap.putRuns mt fuel w start size = some w' ∧ w'.Logs log' ∧ w.Same w' ∧
      r.Replays log' (mt.apply A (r.run start size)) := by
  induction fuel generalizing w log A start size with
  | zero =>
    obtain rfl : size = 0 := by omega
    exact ⟨w, log, rfl, h, ⟨rfl, rfl⟩, hrep.run_zero⟩
  | succ fuel ih =>
    rw [EntryMap.putRuns]
    by_cases h0 : size = 0
    · subst h0
      exact ⟨w, log, rfl, h, ⟨rfl, rfl⟩, hrep.run_zero⟩
    · rw [if_neg h0]
      have hmax := smRunMax_eq
      have hlen : min size smRunMax + (size - min size smRunMax) = size := by omega
      obtain ⟨hsplit, hdisj⟩ :=
        r.run_split start (min size smRunMax) (size - min size smRunMax)
      rw [hlen] at hsplit
      rw [hsplit] at hin hfits ⊢
      obtain ⟨hfits₁, hfits₂⟩ := Maptype.fits_union hdisj hfits
      obtain ⟨hin₁, hin₂⟩ := Finset.union_subset_iff.mp hin
      have hput := h.put (smEntry start mt (min size smRunMax))
      have hrep₁ := hrep.entry (by omega) (by omega) hin₁ hfits₁
      obtain ⟨w', log', hrun, hlogs, hsame, hrep'⟩ :=
        ih hput.1 (hput.2.1.trans hr) hrep₁ (by omega) hin₂ hfits₂
      refine ⟨w', log', hrun, hlogs, hput.2.trans hsame, ?_⟩
      rw [Maptype.apply_union]
      exact hrep'

end Write

end ClusterZfs

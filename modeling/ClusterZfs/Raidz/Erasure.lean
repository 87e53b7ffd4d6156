import ClusterZfs.Raidz.Reconstruct
import ClusterZfs.Raidz.Geometry

/-! Erasure correctness: data written with its parity survives the loss of any columns, data
or parity, as long as there are no more of them than parity columns. -/
namespace ClusterZfs

/-- Damage after the parity was generated: the buffers of the columns `lost` become `junk`,
and each column carries the error `err`. -/
def RaidzMap.damage (rm : RaidzMap) (lost : Nat → Bool) (junk : Nat → Buf) (err : Nat → Nat) :
    RaidzMap :=
  { rm with
    rmCol := fun c =>
      { rm.rmCol c with
        rcData := if lost c then junk c else (rm.rmCol c).rcData
        rcError := err c } }

/-- The damaged data columns, in the order in which a caller lists its targets. -/
def RaidzMap.damagedData (rm : RaidzMap) (lost : Nat → Bool) : List Nat :=
  (List.range rm.rmCols).filter (fun c => decide (rm.rmFirstdatacol ≤ c) && lost c)

section Damage

variable {rm : RaidzMap} {lost : Nat → Bool} {junk : Nat → Buf} {err : Nat → Nat}

theorem RaidzMap.Encodes.mono {D : Nat → Nat → Gf} {lost lost' : Nat → Prop}
    (enc : rm.Encodes D lost)
    (data : rm.rmFirstdatacol < rm.rmCols) (sub : ∀ c, c < rm.rmCols → lost c → lost' c) :
    rm.Encodes D lost' where
  short := enc.short
  data j k hj h := by
    refine enc.data j k hj (mt (sub _ ?_) h)
    unfold RaidzMap.ndata at hj
    omega
  parity e k he h hk := enc.parity e k he (mt (sub _ (by omega)) h) hk

/-- The columns with freshly generated parity encode the data they were generated from. -/
theorem generated_encodes (wf : rm.WellFormed) (data : rm.rmFirstdatacol < rm.rmCols)
    (lost : Nat → Bool) (junk : Nat → Buf) (err : Nat → Nat) :
    ((rm.withData (rm.parityData rm.rmFirstdatacol)).damage lost junk err).Encodes rm.dataBytes
      (fun c => lost c = true) where
  short j k hk := by
    have hsize : (rm.rmCol (rm.rmFirstdatacol + j)).rcSize ≤ k := hk
    exact padByte_past hsize
  data j k _ h := by
    have hkept : ¬ lost (rm.rmFirstdatacol + j) = true := h
    have hbuf : rm.parityData rm.rmFirstdatacol (rm.rmFirstdatacol + j) =
        rm.data (rm.rmFirstdatacol + j) := parityData_data (Nat.le_add_right _ _)
    simp only [RaidzMap.dataBytes, RaidzCol.padByte, RaidzMap.damage, withData_firstdatacol,
      withData_rcSize, withData_rcData, if_neg hkept, hbuf]
    rfl
  parity e k he h hk := by
    have hbuf : ((rm.withData (rm.parityData rm.rmFirstdatacol)).damage lost junk err).data e =
        rm.parityData rm.rmFirstdatacol e := by
      simp [RaidzMap.data, RaidzMap.damage, if_neg h]
    rw [hbuf]
    exact parityData_byte wf.words data he wf.parity_le hk

theorem damage_wellFormed (wf : rm.WellFormed) (d : Nat → Buf) :
    ((rm.withData d).damage lost junk err).WellFormed :=
  { wf with }

theorem damagedData_sorted : (rm.damagedData lost).Pairwise (· < ·) :=
  List.pairwise_lt_range.filter _

/-- With the damaged parity columns marked in error, the targets are the damaged columns. -/
theorem damage_target (parity : ∀ c, c < rm.rmFirstdatacol → (err c ≠ 0 ↔ lost c = true))
    (marked : ∀ c, rm.rmFirstdatacol ≤ c → c < rm.rmCols → err c ≠ 0 → lost c = true)
    (d junk : Nat → Buf) {c : Nat} (hc : c < rm.rmCols) :
    ((rm.withData d).damage lost junk err).Target (rm.damagedData lost) c ↔ lost c = true := by
  have herr : (((rm.withData d).damage lost junk err).rmCol c).rcError = err c := rfl
  rw [RaidzMap.Target, herr, RaidzMap.damagedData, List.mem_filter, List.mem_range,
    Bool.and_eq_true, decide_eq_true_eq]
  by_cases hfirst : rm.rmFirstdatacol ≤ c
  · simpa [hc, hfirst] using marked c hfirst hc
  · simp [hfirst, ← parity c (by omega)]

theorem classify_length_le {t : List Nat}
    (sorted : t.Pairwise (· < ·)) (sub : ∀ c, c < rm.rmCols → rm.Target t c → lost c = true) :
    (classifyColumns rm t).tgts.length ≤ ((List.range rm.rmCols).filter lost).length := by
  have hst : Classified rm t rm.rmCols (classifyColumns rm t) := classifyColumns_spec sorted
  refine (List.Nodup.subperm (hst.sorted.imp Nat.ne_of_lt) ?_).length_le
  intro c hc
  obtain ⟨hcols, htarget⟩ := (hst.mem c).mp hc
  exact List.mem_filter.mpr ⟨List.mem_range.mpr hcols, sub c hcols htarget⟩

/-- A well formed map whose parity was generated and that then lost at most as many columns as
it has parity gets every data column back. -/
theorem reconstruct_damaged (env : RaidzEnv) (wf : rm.WellFormed)
    (data : rm.rmFirstdatacol < rm.rmCols) (junk : Nat → Buf)
    (few : ((List.range rm.rmCols).filter lost).length ≤ rm.rmFirstdatacol)
    (parity : ∀ c, c < rm.rmFirstdatacol → (err c ≠ 0 ↔ lost c = true))
    (marked : ∀ c, rm.rmFirstdatacol ≤ c → c < rm.rmCols → err c ≠ 0 → lost c = true)
    {c k : Nat} (hfirst : rm.rmFirstdatacol ≤ c) (hc : c < rm.rmCols)
    (hk : k < (rm.rmCol c).rcSize) :
    (vdevRaidzReconstruct env ((rm.withData (rm.parityData rm.rmFirstdatacol)).damage lost junk
      err) (rm.damagedData lost)).1.data c k = rm.data c k := by
  have htarget := fun c (hc : c < rm.rmCols) => damage_target parity marked
    (rm.parityData rm.rmFirstdatacol) junk hc
  have henc := (generated_encodes wf data lost junk err).mono data
    (fun c hc h => And.intro hc ((htarget c hc).mpr h))
  have hfew : (classifyColumns ((rm.withData (rm.parityData rm.rmFirstdatacol)).damage lost junk
      err) (rm.damagedData lost)).tgts.length ≤ rm.rmFirstdatacol :=
    Nat.le_trans (classify_length_le damagedData_sorted (fun c hc => (htarget c hc).mp)) few
  obtain ⟨d, hmap, hkept, hheld⟩ := reconstruct_restores env
    (damage_wellFormed wf _) henc data damagedData_sorted hfew
  rw [hmap, withData_data]
  by_cases hlost : lost c = true
  · have hbyte := hheld c hc hfirst ((htarget c hc).mpr hlost) k hk
    have hsub : rm.dataBytes k (c - rm.rmFirstdatacol) = Gf.mk (rm.data c k) := by
      rw [RaidzMap.dataBytes, Nat.add_sub_cancel' hfirst, padByte_lt hk, RaidzMap.data]
    exact congrArg Gf.byte (hbyte.trans hsub)
  · rw [hkept c (Or.inr (mt (htarget c hc).mp hlost))]
    have hbuf : ((rm.withData (rm.parityData rm.rmFirstdatacol)).damage lost junk err).data c =
        rm.parityData rm.rmFirstdatacol c := by
      simp [RaidzMap.data, RaidzMap.damage, if_neg hlost]
    rw [hbuf, parityData_data hfirst]

end Damage

theorem RaidzLayout.acols_data {l : RaidzLayout} (h : l.Valid) :
    l.acols = 0 ∨ l.nparity < l.acols := by
  have hlt := h.nparity_lt
  unfold acols bc
  split
  · split <;> omega
  · omega

theorem mapAlloc_data (env : RaidzEnv) (l : RaidzLayout) (ioData : Buf) {c : Nat}
    (hc : l.nparity ≤ c) (k : Nat) :
    (vdevRaidzMapAlloc env l ioData).data c k = ioData (l.dataStart c + k) := by
  have hn : ¬ c < l.nparity := by omega
  simp only [RaidzMap.data, vdevRaidzMapAlloc]
  split
  · simp_all
  · split
    · simp_all
    · rfl

/-- Parity generation on the columns of any block, then arbitrary damage of at most `nparity`
columns, then reconstruction: every data column has its bytes of the block again. -/
theorem reconstruct_undoes_damage (env : RaidzEnv) (l : RaidzLayout) (hl : l.Valid) (ioData : Buf)
    (lost : Nat → Bool) (junk : Nat → Buf) (err : Nat → Nat)
    (few : ((List.range l.acols).filter lost).length ≤ l.nparity)
    (parity : ∀ c, c < l.nparity → (err c ≠ 0 ↔ lost c = true))
    (marked : ∀ c, l.nparity ≤ c → c < l.acols → err c ≠ 0 → lost c = true) :
    ∃ written, vdevRaidzGenerateParity (vdevRaidzMapAlloc env l ioData) = some written ∧
      ∀ c k, l.nparity ≤ c → c < l.acols → k < l.rcSize c →
        (vdevRaidzReconstruct env (written.damage lost junk err)
          (written.damagedData lost)).1.data c k = ioData (l.dataStart c + k) := by
  have hwf := mapAlloc_wellFormed env l ioData hl
  rcases RaidzLayout.acols_data hl with hnone | hdata
  · obtain ⟨written, hgen⟩ : ∃ w, vdevRaidzGenerateParity (vdevRaidzMapAlloc env l ioData) =
        some w := by
      have h1 := hl.nparity_pos
      have h2 := hl.nparity_le
      have hfirst : (vdevRaidzMapAlloc env l ioData).rmFirstdatacol = l.nparity := rfl
      obtain hn | hn | hn : l.nparity = 1 ∨ l.nparity = 2 ∨ l.nparity = 3 := by omega
      all_goals
        simp only [vdevRaidzGenerateParity, hfirst, hn]
        exact ⟨_, rfl⟩
    exact ⟨written, hgen, fun c k _ hc => by omega⟩
  · refine ⟨_, generateParity_eq hwf hdata, fun c k hfirst hc hk => ?_⟩
    rw [← mapAlloc_data env l ioData hfirst k]
    refine reconstruct_damaged env hwf hdata junk few parity marked hfirst hc ?_
    rwa [mapAlloc_rcSize]

/-- Two 512-byte sectors on three devices with single parity: a data column is lost. -/
theorem reconstruct_undoes_damage_single :
    ∃ written, vdevRaidzGenerateParity
        (vdevRaidzMapAlloc ⟨fun _ _ => 0, false⟩ ⟨9, 3, 1, 0, 1024⟩ (fun k => BitVec.ofNat 8 k)) =
        some written ∧
      ∀ c k, 1 ≤ c → c < 3 → k < 512 →
        (vdevRaidzReconstruct ⟨fun _ _ => 0, false⟩
          (written.damage (fun c => c == 2) (fun _ _ => 0xff) (fun _ => 0))
          (written.damagedData (fun c => c == 2))).1.data c k =
        BitVec.ofNat 8 (RaidzLayout.dataStart ⟨9, 3, 1, 0, 1024⟩ c + k) := by
  obtain ⟨written, hgen, hdata⟩ := reconstruct_undoes_damage ⟨fun _ _ => 0, false⟩
    ⟨9, 3, 1, 0, 1024⟩ ⟨by decide, by decide, by decide, by decide, by decide⟩
    (fun k => BitVec.ofNat 8 k) (fun c => c == 2) (fun _ _ => 0xff) (fun _ => 0) (by decide)
    (by decide) (by intro c _ _ h; exact absurd rfl h)
  refine ⟨written, hgen, fun c k h1 h2 hk => hdata c k h1 h2 ?_⟩
  obtain rfl | rfl : c = 1 ∨ c = 2 := by omega
  all_goals exact hk

/- The columns that are on failed devices. -/
def RaidzMap.lostOn (rm : RaidzMap) (failed : Finset Nat) (c : Nat) : Bool :=
  (rm.rmCol c).rcDevidx ∈ failed

/-- A block has at most one column on a device, so it loses no more columns than devices fail. -/
theorem RaidzLayout.Whole.lost_le {l : RaidzLayout} (h : l.Whole) (env : RaidzEnv) (ioData : Buf)
    (failed : Finset Nat) :
    ((List.range l.acols).filter ((vdevRaidzMapAlloc env l ioData).lostOn failed)).length ≤
      failed.card := by
  rw [← List.toFinset_card_of_nodup (List.nodup_range.filter _)]
  refine Finset.card_le_card_of_injOn
    (fun c => ((vdevRaidzMapAlloc env l ioData).rmCol c).rcDevidx) (fun c hc => ?_) ?_
  · exact of_decide_eq_true (List.mem_filter.mp (List.mem_toFinset.mp hc)).2
  · intro c hc c' hc' heq
    have hcols := (List.mem_filter.mp (List.mem_toFinset.mp hc)).1
    have hcols' := (List.mem_filter.mp (List.mem_toFinset.mp hc')).1
    exact (h.geometry env ioData).devices c c' (List.mem_range.mp hcols)
      (List.mem_range.mp hcols') heq

/-- Whichever devices of the vdev fail, as long as they are no more than its parity, a block of
whole sectors that was written with its parity gives its data back. -/
theorem raidz_survives_devices (env : RaidzEnv) (l : RaidzLayout) (hl : l.Valid)
    (size : 2 ^ l.unitShift ∣ l.ioSize) (size_pos : 0 < l.ioSize) (ioData : Buf)
    (failed : Finset Nat) (few : failed.card ≤ l.nparity) (junk : Nat → Buf) (err : Nat → Nat)
    (reported : ∀ c, err c ≠ 0 ↔ (vdevRaidzMapAlloc env l ioData).lostOn failed c = true) :
    ∃ written, vdevRaidzGenerateParity (vdevRaidzMapAlloc env l ioData) = some written ∧
      ∀ c k, l.nparity ≤ c → c < l.acols → k < l.rcSize c →
        (vdevRaidzReconstruct env (written.damage (written.lostOn failed) junk err)
          (written.damagedData (written.lostOn failed))).1.data c k =
        ioData (l.dataStart c + k) := by
  have hwhole : l.Whole := ⟨hl.nparity_pos, hl.nparity_lt, size, size_pos⟩
  have hwf := mapAlloc_wellFormed env l ioData hl
  have hdata : l.nparity < l.acols := by
    refine (RaidzLayout.acols_data hl).resolve_left fun hnone => ?_
    have hsum : ∑ c ∈ Finset.Ico l.nparity l.acols, _ = l.ioSize :=
      (hwhole.geometry env ioData).data
    rw [hnone, Finset.Ico_eq_empty_of_le (Nat.zero_le _), Finset.sum_empty] at hsum
    exact size_pos.ne hsum
  refine ⟨_, generateParity_eq hwf hdata, fun c k hfirst hc hk => ?_⟩
  rw [← mapAlloc_data env l ioData hfirst k]
  exact reconstruct_damaged env hwf hdata junk ((hwhole.lost_le env ioData failed).trans few)
    (fun c _ => reported c) (fun c _ _ => (reported c).mp) hfirst hc
    ((mapAlloc_rcSize ..).symm ▸ hk)

/-- Two sectors on three devices with single parity: the last device fails. -/
theorem raidz_survives_devices_last :
    let rm := vdevRaidzMapAlloc ⟨fun _ _ => 0, false⟩ ⟨9, 3, 1, 0, 1024⟩ fun k => BitVec.ofNat 8 k
    ∃ written, vdevRaidzGenerateParity rm = some written ∧
      (vdevRaidzReconstruct ⟨fun _ _ => 0, false⟩ (written.damage (written.lostOn {2})
          (fun _ _ => 0) fun c => (rm.lostOn {2} c).toNat)
        (written.damagedData (written.lostOn {2}))).1.data 2 7 = 7 := by
  intro rm
  have reported (c : Nat) : (rm.lostOn {2} c).toNat ≠ 0 ↔ rm.lostOn {2} c = true := by
    cases rm.lostOn {2} c <;> decide
  obtain ⟨written, hgen, hdata⟩ := raidz_survives_devices ⟨fun _ _ => 0, false⟩
    ⟨9, 3, 1, 0, 1024⟩ ⟨by decide, by decide, by decide, by decide, by decide⟩ ⟨2, rfl⟩ (by decide)
    (fun k => BitVec.ofNat 8 k) {2} (by decide) (fun _ _ => 0) _ reported
  exact ⟨written, hgen, hdata 2 7 (by decide) (by decide) (by decide)⟩

end ClusterZfs

import ClusterZfs.Raidz.Erasure

/-! The special reconstruction routines against the general one: whenever the dispatch picks one of
them, the general routine would have left the same bytes, and nothing else has changed. -/
namespace ClusterZfs

/-- The dispatch picks one of the special routines: one data column with P or Q intact, or two
with both. -/
def Special (rm : RaidzMap) (t : List Nat) : Prop :=
  (classifyColumns rm t).nbaddata = 1 ∧
      ((classifyColumns rm t).parityValid vdevRaidzP = true ∨
        (classifyColumns rm t).parityValid vdevRaidzQ = true) ∨
    (classifyColumns rm t).nbaddata = 2 ∧ (classifyColumns rm t).parityValid vdevRaidzP = true ∧
      (classifyColumns rm t).parityValid vdevRaidzQ = true

/-- The map after parity generation, with anything in the columns that are to be rebuilt. -/
def RaidzMap.damagedTargets (rm : RaidzMap) (t : List Nat) (junk : Nat → Buf)
    (err : Nat → Nat) : RaidzMap :=
  rm.damage (fun c => decide (c ∈ t) || decide (err c ≠ 0)) junk err

section Equivalence

variable {rm : RaidzMap} {t : List Nat}

theorem Classified.length_tgts {st : Targets} (h : Classified rm t rm.rmCols st) :
    st.tgts.length = (st.tgts.filter fun e => e < rm.rmFirstdatacol).length + st.nbaddata := by
  have hbad := h.nbaddata_eq
  have hcount := List.length_eq_length_filter_add (l := st.tgts)
    fun e => decide (e < rm.rmFirstdatacol)
  have hrest : (st.tgts.filter fun e => !decide (e < rm.rmFirstdatacol)) =
      st.tgts.filter fun e => decide (rm.rmFirstdatacol ≤ e) := by
    refine List.filter_congr fun e _ => ?_
    rw [← decide_not]
    exact decide_eq_decide.mpr Nat.not_lt
  rw [hrest] at hcount
  omega

/-- Intact parity columns are no targets, so there are fewer bad ones by their number. -/
theorem Classified.badparity_le {st : Targets} (h : Classified rm t rm.rmCols st)
    (valid : List Nat) (hnodup : valid.Nodup) (hvalid : ∀ e ∈ valid, st.parityValid e = true) :
    (st.tgts.filter fun e => e < rm.rmFirstdatacol).length + valid.length ≤
      rm.rmFirstdatacol := by
  have hall : ((st.tgts.filter fun e => e < rm.rmFirstdatacol) ++ valid).Nodup := by
    refine (List.Nodup.filter _ (nodup_of_sorted h.sorted)).append hnodup fun e he hev => ?_
    exact ((h.valid e).mp (hvalid e hev)).2.2 ((h.mem e).mp (List.mem_of_mem_filter he)).2
  have hsub : ((st.tgts.filter fun e => e < rm.rmFirstdatacol) ++ valid) ⊆
      List.range rm.rmFirstdatacol := by
    intro e he
    rcases List.mem_append.mp he with he | he
    · exact List.mem_range.mpr (of_decide_eq_true (List.mem_filter.mp he).2)
    · exact List.mem_range.mpr ((h.valid e).mp (hvalid e he)).2.1
  have hle := (List.Nodup.subperm hall hsub).length_le
  rwa [List.length_append, List.length_range] at hle

theorem special_few (sorted : t.Pairwise (· < ·)) (special : Special rm t) :
    (classifyColumns rm t).tgts.length ≤ rm.rmFirstdatacol := by
  have hst : Classified rm t rm.rmCols (classifyColumns rm t) := classifyColumns_spec sorted
  have hlength := hst.length_tgts
  rcases special with ⟨hbad, hp | hq⟩ | ⟨hbad, hp, hq⟩
  · have hle := hst.badparity_le [vdevRaidzP] (List.nodup_singleton _) (by simpa using hp)
    simp only [List.length_singleton] at hle
    omega
  · have hle := hst.badparity_le [vdevRaidzQ] (List.nodup_singleton _) (by simpa using hq)
    simp only [List.length_singleton] at hle
    omega
  · have hle := hst.badparity_le [vdevRaidzP, vdevRaidzQ] (by decide)
      (by simpa using ⟨hp, hq⟩)
    simp only [List.length_cons, List.length_nil] at hle
    omega

theorem special_data (sorted : t.Pairwise (· < ·)) (special : Special rm t) :
    rm.rmFirstdatacol < rm.rmCols := by
  refine (classifyColumns_spec sorted).data_lt ?_
  rcases special with ⟨hbad, -⟩ | ⟨hbad, -⟩ <;> omega

theorem damagedTargets_target (junk : Nat → Buf) (err : Nat → Nat) (c : Nat) :
    (rm.damagedTargets t junk err).Target t c ↔
      (decide (c ∈ t) || decide (err c ≠ 0)) = true := by
  have herr : ((rm.damagedTargets t junk err).rmCol c).rcError = err c := rfl
  rw [RaidzMap.Target, herr, Bool.or_eq_true, decide_eq_true_eq, decide_eq_true_eq]

theorem Restores.data_eq {D : Nat → Nat → Gf} {after after' : RaidzMap} {d d' : Nat → Buf}
    (h : Restores rm t D after d) (h' : Restores rm t D after' d') {c k : Nat}
    (hfirst : rm.rmFirstdatacol ≤ c) (hc : c < rm.rmCols) (hk : k < (rm.rmCol c).rcSize) :
    after.data c k = after'.data c k := by
  rw [h.map, h'.map, withData_data, withData_data]
  by_cases htarget : rm.Target t c
  · have hbyte := h.held c hc hfirst htarget k hk
    have hbyte' := h'.held c hc hfirst htarget k hk
    exact congrArg Gf.byte (hbyte.trans hbyte'.symm)
  · rw [h.kept c (.inr htarget), h'.kept c (.inr htarget)]

theorem generated_cols {written : RaidzMap}
    (generated : vdevRaidzGenerateParity rm = some written) :
    written.rmCols = rm.rmCols ∧ written.rmFirstdatacol = rm.rmFirstdatacol := by
  unfold vdevRaidzGenerateParity at generated
  split at generated <;> cases generated <;> exact ⟨rfl, rfl⟩

end Equivalence

/-- Whatever the rebuilt columns held, a special routine leaves in every data column the bytes that
the general routine leaves, the parity columns and the other data columns as they were, and of the
map nothing but buffers is new. -/
theorem special_eq_general (env : RaidzEnv) (rm written : RaidzMap) (wf : rm.WellFormed)
    (generated : vdevRaidzGenerateParity rm = some written) (t : List Nat)
    (sorted : t.Pairwise (· < ·)) (junk : Nat → Buf) (err : Nat → Nat)
    (special : Special (written.damagedTargets t junk err) t) :
    (∀ c k, rm.rmFirstdatacol ≤ c → c < rm.rmCols → k < (rm.rmCol c).rcSize →
      (vdevRaidzReconstruct env (written.damagedTargets t junk err) t).1.data c k =
        (vdevRaidzReconstructGeneral (written.damagedTargets t junk err)
          (classifyColumns (written.damagedTargets t junk err) t).tgts).1.data c k) ∧
      (∀ c, c < rm.rmFirstdatacol ∨ ¬ (written.damagedTargets t junk err).Target t c →
        (vdevRaidzReconstruct env (written.damagedTargets t junk err) t).1.rmCol c =
          (written.damagedTargets t junk err).rmCol c) ∧
      ∃ d, (vdevRaidzReconstruct env (written.damagedTargets t junk err) t).1 =
        (written.damagedTargets t junk err).withData d := by
  obtain ⟨hcols, hfirst⟩ := generated_cols generated
  have hdata : rm.rmFirstdatacol < rm.rmCols := by
    have hlt := special_data sorted special
    change written.rmFirstdatacol < written.rmCols at hlt
    rwa [hcols, hfirst] at hlt
  obtain rfl : rm.withData (rm.parityData rm.rmFirstdatacol) = written :=
    Option.some.inj ((generateParity_eq wf hdata).symm.trans generated)
  have henc : ((rm.withData (rm.parityData rm.rmFirstdatacol)).damagedTargets t junk err).Encodes
      rm.dataBytes (fun c => c < rm.rmCols ∧ ((rm.withData
        (rm.parityData rm.rmFirstdatacol)).damagedTargets t junk err).Target t c) :=
    (generated_encodes wf hdata (fun c => decide (c ∈ t) || decide (err c ≠ 0)) junk err).mono
      hdata (fun c hc h => ⟨hc, (damagedTargets_target junk err c).mpr h⟩)
  have hwf : ((rm.withData (rm.parityData rm.rmFirstdatacol)).damagedTargets t junk
      err).WellFormed := damage_wellFormed wf _
  have hfew := special_few sorted special
  obtain ⟨d, hfast⟩ := reconstruct_restores env hwf henc hdata sorted hfew
  obtain ⟨d', hslow⟩ := general_restores hwf henc hdata sorted hfew
  refine ⟨fun c k hc hlt hk => Restores.data_eq hfast hslow hc hlt hk, fun c hc => ?_,
    d, hfast.map⟩
  have hmap : (vdevRaidzReconstruct env ((rm.withData
      (rm.parityData rm.rmFirstdatacol)).damagedTargets t junk err) t).1 = _ := hfast.map
  rw [hmap]
  have hkept := hfast.kept c hc
  unfold RaidzMap.withData
  dsimp only
  rw [hkept]
  rfl

/-- Three 512-byte sectors on five devices with double parity: the first and the last data column
are rebuilt from P and Q as the general routine rebuilds them, and the parity is still there. -/
theorem special_eq_general_pair :
    ∃ written, vdevRaidzGenerateParity
        (vdevRaidzMapAlloc ⟨fun _ _ => 7, false⟩ ⟨9, 5, 2, 0, 1536⟩ (fun k => BitVec.ofNat 8 k)) =
        some written ∧
      (∀ c ∈ [2, 4], ∀ k, k < 512 →
        (vdevRaidzReconstruct ⟨fun _ _ => 7, false⟩
          (written.damagedTargets [2, 4] (fun _ _ => 0xff) (fun _ => 0)) [2, 4]).1.data c k =
        (vdevRaidzReconstructGeneral
          (written.damagedTargets [2, 4] (fun _ _ => 0xff) (fun _ => 0))
          (classifyColumns (written.damagedTargets [2, 4] (fun _ _ => 0xff) (fun _ => 0))
            [2, 4]).tgts).1.data c k) ∧
      ∀ c ∈ [0, 1, 3],
        (vdevRaidzReconstruct ⟨fun _ _ => 7, false⟩
          (written.damagedTargets [2, 4] (fun _ _ => 0xff) (fun _ => 0)) [2, 4]).1.rmCol c =
        (written.damagedTargets [2, 4] (fun _ _ => 0xff) (fun _ => 0)).rmCol c := by
  have hwf := mapAlloc_wellFormed ⟨fun _ _ => 7, false⟩ ⟨9, 5, 2, 0, 1536⟩
    (fun k => BitVec.ofNat 8 k) ⟨by decide, by decide, by decide, by decide, by decide⟩
  have hgen := generateParity_eq hwf (by decide)
  obtain ⟨hbytes, hkept, -⟩ := special_eq_general ⟨fun _ _ => 7, false⟩ _ _ hwf hgen [2, 4]
    (by decide) (fun _ _ => 0xff) (fun _ => 0) (.inr ⟨by decide, by decide, by decide⟩)
  refine ⟨_, hgen, fun c hc k hk => ?_, fun c hc => hkept c ?_⟩
  · have hrange : 2 ≤ c ∧ c < 5 ∧ RaidzLayout.rcSize ⟨9, 5, 2, 0, 1536⟩ c = 512 := by
      revert c
      decide
    refine hbytes c k hrange.1 hrange.2.1 ?_
    rw [mapAlloc_rcSize, hrange.2.2]
    exact hk
  · rw [damagedTargets_target]
    revert c
    decide

end ClusterZfs

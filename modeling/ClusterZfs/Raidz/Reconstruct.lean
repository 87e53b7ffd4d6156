import ClusterZfs.Raidz.Recover

/-! `vdev_raidz_reconstruct`: collect the columns to rebuild, pick a routine, and the main
result: any damage of at most as many columns as there is parity is undone. -/
namespace ClusterZfs

/- The state of the loop that sorts the columns into good ones and targets. -/
structure Targets where
  next : Nat
  tgts : List Nat
  nbadparity : Nat
  nbaddata : Nat
  parityValid : Nat → Bool

def classifyColumn (rm : RaidzMap) (t : List Nat) (c : Nat) (st : Targets) : Targets :=
  if st.next < t.length ∧ c = t.getD st.next 0 then
    { st with tgts := st.tgts ++ [c], next := st.next + 1 }
  else if (rm.rmCol c).rcError ≠ 0 then { st with tgts := st.tgts ++ [c] }
  else if c ≥ rm.rmFirstdatacol then { st with nbaddata := st.nbaddata - 1 }
  else
    { st with
      parityValid := Function.update st.parityValid c true
      nbadparity := st.nbadparity - 1 }

def classifyColumns (rm : RaidzMap) (t : List Nat) : Targets :=
  forRange 0 rm.rmCols (classifyColumn rm t)
    { next := 0
      tgts := []
      nbadparity := rm.rmFirstdatacol
      nbaddata := rm.rmCols - rm.rmFirstdatacol
      parityValid := fun _ => false }

def vdevRaidzReconstruct (env : RaidzEnv) (rm : RaidzMap) (t : List Nat) : RaidzMap × Nat :=
  let st := classifyColumns rm t
  let dt := st.tgts.drop st.nbadparity
  if !env.defaultToGeneral && st.nbaddata == 1 && st.parityValid vdevRaidzP then
    vdevRaidzReconstructP rm dt
  else if !env.defaultToGeneral && st.nbaddata == 1 && st.parityValid vdevRaidzQ then
    vdevRaidzReconstructQ rm dt
  else if !env.defaultToGeneral && st.nbaddata == 2 && st.parityValid vdevRaidzP &&
      st.parityValid vdevRaidzQ then
    vdevRaidzReconstructPq env rm dt
  else vdevRaidzReconstructGeneral rm st.tgts

/-- A column that the call rebuilds: passed as a target or marked in error. -/
def RaidzMap.Target (rm : RaidzMap) (t : List Nat) (c : Nat) : Prop :=
  c ∈ t ∨ (rm.rmCol c).rcError ≠ 0

/- The loop after the columns below `c`. -/
structure Classified (rm : RaidzMap) (t : List Nat) (c : Nat) (st : Targets) : Prop where
  cursor : Cursor (t.getD · 0) t.length c st.next
  sorted : st.tgts.Pairwise (· < ·)
  mem : ∀ e, e ∈ st.tgts ↔ e < c ∧ rm.Target t e
  badparity : st.nbadparity + min c rm.rmFirstdatacol =
    rm.rmFirstdatacol + (st.tgts.filter (fun e => e < rm.rmFirstdatacol)).length
  baddata : st.nbaddata + (c - rm.rmFirstdatacol) =
    rm.ndata + (st.tgts.filter (fun e => rm.rmFirstdatacol ≤ e)).length
  valid : ∀ e, st.parityValid e = true ↔ e < c ∧ e < rm.rmFirstdatacol ∧ ¬ rm.Target t e

section Classify

variable {rm : RaidzMap} {t : List Nat} {c : Nat} {st : Targets}

theorem Classified.append (h : Classified rm t c st) (target : rm.Target t c) {next : Nat}
    (cursor : Cursor (t.getD · 0) t.length (c + 1) next) :
    Classified rm t (c + 1) { st with tgts := st.tgts ++ [c], next := next } := by
  refine ⟨cursor, ?_, ?_, ?_, ?_, ?_⟩
  · refine List.pairwise_append.mpr ⟨h.sorted, List.pairwise_singleton _ _, ?_⟩
    intro e he e' he'
    rw [List.mem_singleton.mp he']
    exact ((h.mem e).mp he).1
  · intro e
    rw [List.mem_append, List.mem_singleton, h.mem e]
    grind
  · have hb := h.badparity
    by_cases hc : c < rm.rmFirstdatacol <;> simp [List.filter_append, hc] <;> omega
  · have hb := h.baddata
    by_cases hc : rm.rmFirstdatacol ≤ c <;> simp [List.filter_append, hc] <;> omega
  · intro e
    rw [h.valid e]
    grind

theorem classified_step (sorted : t.Pairwise (· < ·)) (h : Classified rm t c st)
    (hc : c < rm.rmCols) : Classified rm t (c + 1) (classifyColumn rm t c st) := by
  have hincreasing : ∀ i j, i < j → j < t.length → t.getD i 0 < t.getD j 0 :=
    fun i j hij hj => getD_lt_of_sorted sorted hij hj
  unfold classifyColumn
  by_cases hhit : st.next < t.length ∧ c = t.getD st.next 0
  · rw [if_pos hhit]
    refine h.append (Or.inl ?_) (h.cursor.hit hincreasing hhit.2)
    rw [hhit.2]
    exact getD_mem hhit.1
  rw [if_neg hhit]
  obtain ⟨hfree, hcursor⟩ := h.cursor.miss hincreasing hhit
  by_cases herr : (rm.rmCol c).rcError ≠ 0
  · rw [if_pos herr]
    exact h.append (Or.inr herr) hcursor
  rw [if_neg herr]
  have hgood : ¬ rm.Target t c := by
    rintro (hmem | h)
    · obtain ⟨i, hi, hval⟩ := exists_getD_of_mem hmem
      exact hfree i hi hval
    · exact herr h
  have hmem : ∀ e, e ∈ st.tgts ↔ e < c + 1 ∧ rm.Target t e := by
    intro e
    rw [h.mem e]
    grind
  have hbp := h.badparity
  have hbd := h.baddata
  by_cases hdata : c ≥ rm.rmFirstdatacol
  · rw [if_pos hdata]
    refine ⟨hcursor, h.sorted, hmem, ?_, ?_, ?_⟩
    · simp only
      omega
    · simp only [RaidzMap.ndata] at hbd ⊢
      omega
    · intro e
      rw [h.valid e]
      grind
  · rw [if_neg hdata]
    refine ⟨hcursor, h.sorted, hmem, ?_, ?_, ?_⟩
    · simp only
      omega
    · simp only
      omega
    · intro e
      obtain rfl | hec := eq_or_ne e c
      · simp only [Function.update_self, true_iff]
        exact ⟨Nat.lt_succ_self e, by omega, hgood⟩
      · simp only [Function.update_of_ne hec, h.valid e]
        grind

theorem classifyColumns_spec (sorted : t.Pairwise (· < ·)) :
    Classified rm t rm.rmCols (classifyColumns rm t) := by
  refine forRange_invariant (Classified rm t) (Nat.zero_le _) ?_
    (fun c st _ hc h => classified_step sorted h hc)
  refine ⟨⟨nofun, fun i _ _ => Nat.zero_le _⟩, .nil, ?_, ?_, ?_, ?_⟩ <;> simp [RaidzMap.ndata]

end Classify

theorem drop_below {l : List Nat} (sorted : l.Pairwise (· < ·)) (bound : Nat) :
    l.drop (l.filter (fun e => e < bound)).length = l.filter (fun e => bound ≤ e) := by
  induction l with
  | nil => rfl
  | cons a l ih =>
    obtain ⟨hhead, htail⟩ := List.pairwise_cons.mp sorted
    by_cases ha : a < bound
    · rw [List.filter_cons_of_pos (by simpa using ha), List.length_cons, List.drop_succ_cons,
        ih htail, List.filter_cons_of_neg (by simpa using ha)]
    · have hge : ∀ e ∈ a :: l, bound ≤ e := List.forall_mem_cons.mpr
        ⟨Nat.not_lt.mp ha, fun e he => (Nat.not_lt.mp ha).trans (hhead e he).le⟩
      rw [List.filter_eq_nil_iff.mpr (by simpa using hge),
        List.filter_eq_self.mpr (by simpa using hge)]
      rfl

/-- What a reconstruction leaves: the targeted data columns hold the data, the others are
as they were. -/
structure Restores (rm : RaidzMap) (t : List Nat) (D : Nat → Nat → Gf) (after : RaidzMap)
    (d : Nat → Buf) : Prop where
  map : after = rm.withData d
  kept : ∀ c, c < rm.rmFirstdatacol ∨ ¬ rm.Target t c → d c = rm.data c
  held : ∀ c, c < rm.rmCols → rm.rmFirstdatacol ≤ c → rm.Target t c → rm.Holds D (d c) c

section Restore

variable {rm : RaidzMap} {t : List Nat} {D : Nat → Nat → Gf} (env : RaidzEnv)

theorem restores_one {x : Nat} {dst : Buf} (hx : rm.rmFirstdatacol ≤ x) (target : rm.Target t x)
    (only : ∀ c, c < rm.rmCols → rm.rmFirstdatacol ≤ c → rm.Target t c → c = x)
    (holds : rm.Holds D dst x) :
    Restores rm t D (rm.setData x dst) (Function.update rm.data x dst) := by
  refine ⟨setData_eq_withData rm x dst, ?_, ?_⟩
  · refine fun c hc => Function.update_of_ne ?_ _ _
    rintro rfl
    exact hc.elim (Nat.not_lt.mpr hx) (· target)
  · intro c hcols hfirst hc
    obtain rfl := only c hcols hfirst hc
    rw [Function.update_self]
    exact holds

theorem restores_two {x y : Nat} {xd yd : Buf} (hxy : x < y) (hx : rm.rmFirstdatacol ≤ x)
    (targets : rm.Target t x ∧ rm.Target t y)
    (only : ∀ c, c < rm.rmCols → rm.rmFirstdatacol ≤ c → rm.Target t c → c = x ∨ c = y)
    (holds : rm.Holds D xd x ∧ rm.Holds D yd y) :
    Restores rm t D ((rm.setData x xd).setData y yd)
      (Function.update (Function.update rm.data x xd) y yd) := by
  constructor
  · rw [setData_eq_withData, setData_eq_withData, withData_withData, withData_data]
  · intro c hc
    rw [Function.update_of_ne, Function.update_of_ne]
    · rintro rfl
      exact hc.elim (Nat.not_lt.mpr hx) (· targets.1)
    · rintro rfl
      exact hc.elim (Nat.not_lt.mpr (hx.trans hxy.le)) (· targets.2)
  · intro c hcols hfirst hc
    rcases only c hcols hfirst hc with rfl | rfl
    · rw [Function.update_of_ne (Nat.ne_of_lt hxy), Function.update_self]
      exact holds.1
    · rw [Function.update_self]
      exact holds.2

/-- The data columns among the targets. -/
structure DataTargets (rm : RaidzMap) (t xs : List Nat) : Prop where
  sorted : xs.Pairwise (· < ·)
  mem : ∀ c, c ∈ xs ↔ (c < rm.rmCols ∧ rm.Target t c) ∧ rm.rmFirstdatacol ≤ c

/- A parity column that the call can read. -/
def RaidzMap.ValidParity (rm : RaidzMap) (t : List Nat) (e : Nat) : Prop :=
  e < rm.rmFirstdatacol ∧ ¬ (e < rm.rmCols ∧ rm.Target t e)

/-- The routines that a call can come to. -/
inductive Dispatch (env : RaidzEnv) (rm : RaidzMap) (t : List Nat) : RaidzMap × Nat → Prop
  | p {x : Nat} (only : DataTargets rm t [x]) (valid : rm.ValidParity t vdevRaidzP) :
      Dispatch env rm t (vdevRaidzReconstructP rm [x])
  | q {x : Nat} (only : DataTargets rm t [x]) (valid : rm.ValidParity t vdevRaidzQ) :
      Dispatch env rm t (vdevRaidzReconstructQ rm [x])
  | pq {x y : Nat} (only : DataTargets rm t [x, y]) (validP : rm.ValidParity t vdevRaidzP)
      (validQ : rm.ValidParity t vdevRaidzQ) :
      Dispatch env rm t (vdevRaidzReconstructPq env rm [x, y])
  | general : Dispatch env rm t (vdevRaidzReconstructGeneral rm (classifyColumns rm t).tgts)

namespace Classified

variable {st : Targets} (h : Classified rm t rm.rmCols st)
include h

theorem nbaddata_eq :
    st.nbaddata = (st.tgts.filter (fun e => rm.rmFirstdatacol ≤ e)).length := by
  have hbad := h.baddata
  unfold RaidzMap.ndata at hbad
  omega

theorem dataTargets : DataTargets rm t (st.tgts.filter (fun e => rm.rmFirstdatacol ≤ e)) := by
  refine ⟨h.sorted.filter _, fun c => ?_⟩
  rw [List.mem_filter, h.mem, decide_eq_true_eq]

theorem data_lt (hsome : st.nbaddata ≠ 0) : rm.rmFirstdatacol < rm.rmCols := by
  obtain ⟨c, hc⟩ := List.exists_mem_of_length_pos
    (Nat.pos_of_ne_zero fun hzero => hsome (h.nbaddata_eq.trans hzero))
  obtain ⟨⟨hcols, -⟩, hfirst⟩ := (h.dataTargets.mem c).mp hc
  exact Nat.lt_of_le_of_lt hfirst hcols

/- With a bad data column there are data columns, and the bad parity columns come first. -/
theorem drop_badparity (hsome : st.nbaddata ≠ 0) :
    st.tgts.drop st.nbadparity = st.tgts.filter (fun e => rm.rmFirstdatacol ≤ e) := by
  have hdata := h.data_lt hsome
  have hparity := h.badparity
  rw [← drop_below h.sorted]
  exact congrArg st.tgts.drop (by omega)

theorem validParity {e : Nat} (he : st.parityValid e = true) : rm.ValidParity t e := by
  obtain ⟨_, hfirst, hgood⟩ := (h.valid e).mp he
  exact ⟨hfirst, fun h => hgood h.2⟩

end Classified

theorem reconstruct_dispatch (sorted : t.Pairwise (· < ·)) :
    Dispatch env rm t (vdevRaidzReconstruct env rm t) := by
  have hst : Classified rm t rm.rmCols (classifyColumns rm t) := classifyColumns_spec sorted
  have htargets := hst.dataTargets
  unfold vdevRaidzReconstruct
  dsimp only
  split
  · rename_i hcase
    simp only [Bool.and_eq_true, beq_iff_eq] at hcase
    obtain ⟨x, hx⟩ := List.length_eq_one_iff.mp (hst.nbaddata_eq.symm.trans hcase.1.2)
    rw [hx] at htargets
    rw [hst.drop_badparity (by omega), hx]
    exact .p htargets (hst.validParity hcase.2)
  split
  · rename_i hcase
    simp only [Bool.and_eq_true, beq_iff_eq] at hcase
    obtain ⟨x, hx⟩ := List.length_eq_one_iff.mp (hst.nbaddata_eq.symm.trans hcase.1.2)
    rw [hx] at htargets
    rw [hst.drop_badparity (by omega), hx]
    exact .q htargets (hst.validParity hcase.2)
  split
  · rename_i hcase
    simp only [Bool.and_eq_true, beq_iff_eq] at hcase
    obtain ⟨x, y, hxy⟩ := List.length_eq_two.mp (hst.nbaddata_eq.symm.trans hcase.1.1.2)
    rw [hxy] at htargets
    rw [hst.drop_badparity (by omega), hxy]
    exact .pq htargets (hst.validParity hcase.1.2) (hst.validParity hcase.2)
  · exact .general

namespace DataTargets

variable {x y : Nat}

theorem head {xs : List Nat} (h : DataTargets rm t (x :: xs)) :
    x < rm.rmCols ∧ rm.rmFirstdatacol ≤ x ∧ rm.Target t x := by
  obtain ⟨⟨hcols, htarget⟩, hfirst⟩ := (h.mem x).mp List.mem_cons_self
  exact ⟨hcols, hfirst, htarget⟩

theorem only (h : DataTargets rm t [x]) {c : Nat} (hc : c < rm.rmCols)
    (hfirst : rm.rmFirstdatacol ≤ c) (htarget : rm.Target t c) : c = x :=
  List.mem_singleton.mp ((h.mem c).mpr ⟨⟨hc, htarget⟩, hfirst⟩)

theorem second (h : DataTargets rm t [x, y]) : x < y ∧ y < rm.rmCols ∧ rm.Target t y := by
  obtain ⟨⟨hcols, htarget⟩, -⟩ := (h.mem y).mp (.tail _ List.mem_cons_self)
  exact ⟨(List.pairwise_cons.mp h.sorted).1 y List.mem_cons_self, hcols, htarget⟩

theorem only_two (h : DataTargets rm t [x, y]) {c : Nat} (hc : c < rm.rmCols)
    (hfirst : rm.rmFirstdatacol ≤ c) (htarget : rm.Target t c) : c = x ∨ c = y := by
  simpa using (h.mem c).mpr ⟨⟨hc, htarget⟩, hfirst⟩

end DataTargets

theorem general_restores (wf : rm.WellFormed)
    (enc : rm.Encodes D (fun c => c < rm.rmCols ∧ rm.Target t c))
    (hdata : rm.rmFirstdatacol < rm.rmCols) (sorted : t.Pairwise (· < ·))
    (few : (classifyColumns rm t).tgts.length ≤ rm.rmFirstdatacol) :
    ∃ d, Restores rm t D
      (vdevRaidzReconstructGeneral rm (classifyColumns rm t).tgts).1 d := by
  have hst : Classified rm t rm.rmCols (classifyColumns rm t) := classifyColumns_spec sorted
  obtain ⟨d, heq, hkept, hheld⟩ := reconstructGeneral_holds wf enc hdata hst.sorted
    (fun e he => ((hst.mem e).mp he).1) few (fun c _ h => (hst.mem c).mpr h)
  refine ⟨d, heq, ?_, ?_⟩
  · intro c hc
    refine hkept c (hc.imp_right ?_)
    exact fun h hmem => h ((hst.mem c).mp hmem).2
  · intro c hcols hfirst hc
    exact hheld c ((hst.mem c).mpr ⟨hcols, hc⟩) hfirst

/-- Each routine that the dispatch can pick rebuilds the targets. -/
theorem reconstruct_restores (wf : rm.WellFormed)
    (enc : rm.Encodes D (fun c => c < rm.rmCols ∧ rm.Target t c))
    (hdata : rm.rmFirstdatacol < rm.rmCols) (sorted : t.Pairwise (· < ·))
    (few : (classifyColumns rm t).tgts.length ≤ rm.rmFirstdatacol) :
    ∃ d, Restores rm t D (vdevRaidzReconstruct env rm t).1 d := by
  have hdispatch : Dispatch env rm t (vdevRaidzReconstruct env rm t) :=
    reconstruct_dispatch env sorted
  generalize vdevRaidzReconstruct env rm t = result at hdispatch ⊢
  cases hdispatch with
  | p only valid =>
    obtain ⟨hcols, hfirst, htarget⟩ := only.head
    obtain ⟨dst, heq, holds⟩ := reconstructP_holds
      ⟨wf, enc, hfirst, hcols, fun c h1 h2 => only.only h2.1 h1 h2.2⟩ valid.2
    rw [heq]
    exact ⟨_, restores_one hfirst htarget (fun c => only.only) holds⟩
  | q only valid =>
    obtain ⟨hcols, hfirst, htarget⟩ := only.head
    obtain ⟨dst, heq, holds⟩ := reconstructQ_holds
      ⟨wf, enc, hfirst, hcols, fun c h1 h2 => only.only h2.1 h1 h2.2⟩ valid.1 valid.2
    rw [heq]
    exact ⟨_, restores_one hfirst htarget (fun c => only.only) holds⟩
  | pq only validP validQ =>
    obtain ⟨-, hfirst, htargetx⟩ := only.head
    obtain ⟨hlt, hcols, htargety⟩ := only.second
    obtain ⟨xd, yd, heq, holds⟩ := reconstructPq_holds env ⟨wf, enc, validQ.1, hfirst, hlt, hcols,
      fun c h1 h2 => only.only_two h2.1 h1 h2.2⟩ validP.2 validQ.2
    rw [heq]
    exact ⟨_, restores_two hlt hfirst ⟨htargetx, htargety⟩ (fun c => only.only_two) holds⟩
  | general => exact general_restores wf enc hdata sorted few

end Restore

end ClusterZfs

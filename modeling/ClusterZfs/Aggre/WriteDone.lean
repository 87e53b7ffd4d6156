import ClusterZfs.Aggre.Layout
import Mathlib.Algebra.Order.BigOperators.Group.List

/-! The completion of the member writes of an aggregated stripe. Each member adds its failed
columns to the count of the stripe and compares the count so far with the parity. -/
namespace ClusterZfs

def vdevRaidzChildDone (rc : RaidzCol) (ioError : Nat) : RaidzCol :=
  { rc with rcError := ioError, rcTried := true, rcSkipped := false }

/- The member writes of one stripe, each with the map that it was given. -/
structure StripeWrite where
  env : RaidzEnv
  unitShift : Nat
  nparity : Nat
  ndata : Nat
  member : Nat → AggreZio
  map : Nat → RaidzMap
  parity : 0 < nparity
  write : ∀ i < ndata, (member i).isWrite = true
  blkid : ∀ i < ndata, (member i).blkid = i
  alloc : ∀ i < ndata,
    raidzAggreMapAlloc env (member i) unitShift (ndata + nparity) nparity = .ok (map i)

namespace StripeWrite

variable (s : StripeWrite) (error : Nat → Nat) {i : Nat}

/- The column of the stripe that is column `c` of member `i`. -/
def column (i c : Nat) : Nat := if (s.map i).rmCols = 1 then s.nparity + i else c

/- The map of member `i` when all its writes are done; `error` is the result of the write of each
column of the stripe. -/
def doneMap (i : Nat) : RaidzMap :=
  { s.map i with
    rmCol := fun c => vdevRaidzChildDone ((s.map i).rmCol c) (error (s.column i c)) }

/- The members finish one after the other. The result is the `io_error` of each. -/
def finish : List Nat → Nat → List (Nat × Nat)
  | [], _ => []
  | i :: rest, aiWtoterr =>
    let done := vdevRaidzIoDoneWrite (s.doneMap error i) true aiWtoterr s.nparity
    (i, done.2) :: finish rest done.1

def failedColumns : Nat := Nat.count (fun c => error c ≠ 0) (s.ndata + s.nparity)

def failedParity : Nat := Nat.count (fun c => error c ≠ 0) s.nparity

/- The failed columns that member `i` sees. -/
def failedOf (i : Nat) : Nat :=
  (if i = 0 then s.failedParity error else 0) + if error (s.nparity + i) ≠ 0 then 1 else 0

theorem totalErrors_doneMap (hi : i < s.ndata) :
    (countColumns (s.doneMap error i)).totalErrors = s.failedOf error i := by
  have hcols : (s.map i).rmCols = if i = 0 then 1 + s.nparity else 1 := by
    simp [aggreMapAlloc_eq (s.alloc i hi), aggreMap, s.write i hi, s.blkid i hi]
  have hparity := s.parity
  rw [countColumns_eq]
  change Nat.count (fun c => error (s.column i c) ≠ 0) (s.map i).rmCols = _
  by_cases hzero : i = 0
  · have hcolumn : ∀ c, s.column i c = c := fun c => if_neg (by rw [hcols, if_pos hzero]; omega)
    simp only [hcolumn]
    rw [hcols, if_pos hzero, Nat.add_comm, Nat.count_succ]
    simp [failedOf, failedParity, hzero]
  · have hcolumn : ∀ c, s.column i c = s.nparity + i :=
      fun c => if_pos (by rw [hcols, if_neg hzero])
    simp only [hcolumn]
    rw [hcols, if_neg hzero, Nat.count_succ]
    simp [failedOf, hzero]

/-- A member is acknowledged when it saw no failure or the count so far is covered by the
parity. -/
theorem ioDoneWrite_acknowledged (hi : i < s.ndata) (aiWtoterr : Nat) :
    (vdevRaidzIoDoneWrite (s.doneMap error i) true aiWtoterr s.nparity).2 = 0 ↔
      s.failedOf error i = 0 ∨ aiWtoterr + s.failedOf error i ≤ s.nparity := by
  have htotal := s.totalErrors_doneMap error hi
  have hworst := worstError_eq_zero (s.doneMap error i)
  rw [htotal] at hworst
  simp only [vdevRaidzIoDoneWrite, htotal]
  split_ifs with hany hmany hmany <;> simp_all

theorem ioDoneWrite_count (hi : i < s.ndata) (aiWtoterr : Nat) :
    (vdevRaidzIoDoneWrite (s.doneMap error i) true aiWtoterr s.nparity).1 =
      aiWtoterr + s.failedOf error i := by
  simp only [vdevRaidzIoDoneWrite, s.totalErrors_doneMap error hi]
  by_cases hany : s.failedOf error i = 0
  · simp [hany]
  · simp [Nat.pos_of_ne_zero hany]

theorem mem_finish (i : Nat) (order : List Nat) (hlt : ∀ j ∈ order, j < s.ndata) (w : Nat) :
    (i, 0) ∈ s.finish error order w ↔ ∃ before after, order = before ++ i :: after ∧
      (s.failedOf error i = 0 ∨
        w + (before.map (s.failedOf error)).sum + s.failedOf error i ≤ s.nparity) := by
  induction order generalizing w with
  | nil => simp [finish]
  | cons j rest ih =>
    have hj : j < s.ndata := hlt j List.mem_cons_self
    have hhead := s.ioDoneWrite_acknowledged error hj w
    simp only [finish, s.ioDoneWrite_count error hj, List.mem_cons, Prod.mk.injEq]
    rw [ih fun k hk => hlt k (List.mem_cons_of_mem j hk)]
    constructor
    · rintro (⟨rfl, hack⟩ | ⟨before, after, rfl, hack⟩)
      · exact ⟨[], rest, rfl, by simpa using hhead.mp hack.symm⟩
      · refine ⟨j :: before, after, rfl, ?_⟩
        rw [List.map_cons, List.sum_cons]
        omega
    · rintro ⟨before, after, heq, hack⟩
      cases before with
      | nil =>
        cases heq
        exact .inl ⟨rfl, (hhead.mpr (by simpa using hack)).symm⟩
      | cons k before =>
        cases heq
        rw [List.map_cons, List.sum_cons] at hack
        exact .inr ⟨before, after, rfl, by omega⟩

/- The block of member `i` can be rebuilt from the columns that were written. -/
def Recoverable (i : Nat) : Prop :=
  error (s.nparity + i) = 0 ∨ s.failedColumns error ≤ s.nparity

/- The failures for which the running count is enough: they are covered by the parity, no member
lost its own column, or all the parity failed and is counted before any other failure. -/
def CountedInTime (order : List Nat) : Prop :=
  s.failedColumns error ≤ s.nparity ∨ (∀ i < s.ndata, error (s.nparity + i) = 0) ∨
    ((∀ c < s.nparity, error c ≠ 0) ∧
      ∀ i ∈ order.takeWhile (· ≠ 0), error (s.nparity + i) = 0)

section Order

variable {s error} {i : Nat} {before : List Nat}

theorem failedOf_pos (hbad : error (s.nparity + i) ≠ 0) : 0 < s.failedOf error i := by
  unfold failedOf
  rw [if_pos hbad]
  omega

theorem failedParity_eq (h : ∀ c < s.nparity, error c ≠ 0) :
    s.failedParity error = s.nparity :=
  Nat.count_iff_forall.mpr h

/-- As long as no member lost its own column, the count is at most the failed parity. -/
theorem sum_failedOf_le (nodup : before.Nodup)
    (hgood : ∀ j ∈ before, error (s.nparity + j) = 0) :
    (before.map (s.failedOf error)).sum ≤ if 0 ∈ before then s.failedParity error else 0 := by
  induction before with
  | nil => simp
  | cons j rest ih =>
    obtain ⟨hj, nodup⟩ := List.nodup_cons.mp nodup
    have hrest := ih nodup fun k hk => hgood k (List.mem_cons_of_mem j hk)
    have hhead := hgood j List.mem_cons_self
    rw [List.map_cons, List.sum_cons]
    by_cases hzero : j = 0
    · subst hzero
      rw [if_neg hj] at hrest
      rw [if_pos List.mem_cons_self]
      simp only [failedOf, hhead, if_true, ne_eq, not_true, if_false]
      omega
    · have hmem : (0 ∈ j :: rest) ↔ 0 ∈ rest := by simp [Ne.symm hzero]
      simp only [hmem, failedOf, hzero, hhead]
      simpa using hrest

theorem failedParity_le_sum (hzero : 0 ∈ before) :
    s.failedParity error ≤ (before.map (s.failedOf error)).sum := by
  have hle := List.single_le_sum (l := before.map (s.failedOf error)) (by simp)
    (s.failedOf error 0) (List.mem_map_of_mem hzero)
  refine Nat.le_trans ?_ hle
  simp [failedOf]

/-- A member that lost its own column is not acknowledged after all the failed parity. -/
theorem unacknowledged_after_parity {after : List Nat}
    (hall : ∀ c < s.nparity, error c ≠ 0)
    (hfirst : ∀ j ∈ (before ++ i :: after).takeWhile (· ≠ 0), error (s.nparity + j) = 0)
    (hbad : error (s.nparity + i) ≠ 0) :
    s.nparity < (before.map (s.failedOf error)).sum + s.failedOf error i := by
  have hparity := failedParity_eq hall
  have hpos := failedOf_pos hbad
  by_cases hzero : i = 0
  · subst hzero
    unfold failedOf at hpos ⊢
    rw [if_pos rfl, if_pos hbad, hparity]
    omega
  · by_cases hmem : 0 ∈ before
    · have hle : s.failedParity error ≤ _ := failedParity_le_sum hmem
      omega
    · -- nothing before `i` is the first member, so `i` is counted before the parity
      have hbefore : ∀ j ∈ before, decide (j ≠ 0) = true :=
        fun j hj => decide_eq_true fun h => hmem (h ▸ hj)
      rw [List.takeWhile_append_of_pos hbefore] at hfirst
      exact absurd (hfirst i (by simp [hzero])) hbad

theorem exists_first_bad {order : List Nat} (hi : i ∈ order)
    (hbad : error (s.nparity + i) ≠ 0) :
    ∃ before j after, order = before ++ j :: after ∧ error (s.nparity + j) ≠ 0 ∧
      ∀ k ∈ before, error (s.nparity + k) = 0 := by
  have hsome : (order.find? fun j => error (s.nparity + j) ≠ 0).isSome :=
    List.find?_isSome.mpr ⟨i, hi, decide_eq_true hbad⟩
  obtain ⟨j, hj⟩ := Option.isSome_iff_exists.mp hsome
  obtain ⟨hjbad, before, after, heq, hbefore⟩ := List.find?_eq_some_iff_append.mp hj
  exact ⟨before, j, after, heq, of_decide_eq_true hjbad, fun k hk => by simpa using hbefore k hk⟩

theorem mem_before_of_takeWhile {after : List Nat} {j k : Nat} (hzero : 0 ∈ before ++ [j])
    (hk : k ∈ (before ++ j :: after).takeWhile (· ≠ 0)) : k ∈ before := by
  induction before with
  | nil =>
    have hj : 0 = j := by simpa using hzero
    simp [← hj] at hk
  | cons b rest ih =>
    by_cases hb : b = 0
    · simp [hb] at hk
    · simp only [List.cons_append, List.mem_cons, Ne.symm hb, false_or] at hzero
      simp only [List.cons_append, ne_eq, hb, not_false_eq_true, decide_true,
        List.takeWhile_cons_of_pos, List.mem_cons] at hk ⊢
      exact hk.imp_right (ih hzero)

/-- The first member that lost its own column is acknowledged if part of the parity is left, or if
it comes before the first member of the stripe. -/
theorem acknowledged_first_bad (nodup : (before ++ [i]).Nodup)
    (hgood : ∀ k ∈ before, error (s.nparity + k) = 0)
    (hcase : (∃ c < s.nparity, error c = 0) ∨ 0 ∉ before ++ [i]) :
    (before.map (s.failedOf error)).sum + s.failedOf error i ≤ s.nparity := by
  have hparity := s.parity
  have hsum := sum_failedOf_le (nodup.sublist (List.sublist_append_left before [i])) hgood
  have hown : (if error (s.nparity + i) ≠ 0 then 1 else 0) ≤ 1 := by split <;> omega
  unfold failedOf at hsum ⊢
  rcases hcase with ⟨c, hc, hok⟩ | hnone
  · have hless : s.failedParity error < s.nparity := by
      refine Nat.lt_of_le_of_ne (Nat.count_le _) fun heq => ?_
      exact Nat.count_iff_forall.mp heq c hc hok
    by_cases hzero : i = 0
    · subst hzero
      have hnot : 0 ∉ before := fun h => by
        simp [List.nodup_append] at nodup
        exact nodup.2 0 h rfl
      rw [if_neg hnot] at hsum
      rw [if_pos rfl]
      omega
    · rw [if_neg hzero]
      split at hsum <;> omega
  · rw [List.mem_append, List.mem_singleton, not_or] at hnone
    rw [if_neg hnone.1] at hsum
    rw [if_neg (Ne.symm hnone.2)]
    omega

end Order


/-- A member write of a stripe is acknowledged only if its block can be rebuilt, exactly when the
failures are counted in time. -/
theorem acknowledged_recoverable_iff (order : List Nat) (horder : order.Perm (List.range s.ndata)) :
    (∀ i, (i, 0) ∈ s.finish error order 0 → s.Recoverable error i) ↔
      s.CountedInTime error order := by
  have hlt : ∀ j ∈ order, j < s.ndata := fun j hj => List.mem_range.mp (horder.mem_iff.mp hj)
  have hnodup : order.Nodup := horder.nodup_iff.mpr List.nodup_range
  constructor
  · intro hall
    by_contra hnot
    simp only [CountedInTime, not_or, not_and, not_forall] at hnot
    obtain ⟨hmany, ⟨i, hi, hbad⟩, hparity⟩ := hnot
    obtain ⟨before, j, after, rfl, hjbad, hgood⟩ :=
      exists_first_bad (horder.mem_iff.mpr (List.mem_range.mpr hi)) hbad
    have hpre : (before ++ [j]).Nodup := by
      refine hnodup.sublist ?_
      rw [List.append_cons before j after]
      exact List.sublist_append_left _ _
    have hcase : (∃ c < s.nparity, error c = 0) ∨ 0 ∉ before ++ [j] := by
      by_contra hnone
      rw [not_or, not_not] at hnone
      obtain ⟨k, hk, hkbad⟩ := hparity fun c hc hok => hnone.1 ⟨c, hc, hok⟩
      exact hkbad (hgood k (mem_before_of_takeWhile hnone.2 hk))
    have hack := acknowledged_first_bad hpre hgood hcase
    rcases hall j ((s.mem_finish error j _ hlt 0).mpr
      ⟨before, after, rfl, .inr (by omega)⟩) with hown | hfew
    · exact hjbad hown
    · exact hmany hfew
  · rintro hcounted i hack
    obtain ⟨before, after, rfl, hack⟩ := (s.mem_finish error i order hlt 0).mp hack
    by_contra hnot
    rw [Recoverable, not_or] at hnot
    rcases hcounted with hfew | hnone | ⟨hall, hfirst⟩
    · exact hnot.2 hfew
    · exact hnot.1 (hnone i (hlt i (by simp)))
    · have hpos := failedOf_pos hnot.1
      have hlate := unacknowledged_after_parity hall hfirst hnot.1
      omega

/- The write of a block of one sector in a stripe of four. -/
def sectorWrite (i : Nat) : AggreZio where
  isWrite := true
  typeOk := true
  reportsParity := false
  ioOffset := 0
  ioSize := 512
  ioData := fun _ => 0
  blkid := i
  dvaAsize := 2048

/- Two blocks of one sector on three devices with single parity. -/
def twoBlocks : StripeWrite where
  env := ⟨fun _ _ => 0, false⟩
  unitShift := 9
  nparity := 1
  ndata := 2
  member := sectorWrite
  map := fun i => aggreMap ⟨fun _ _ => 0, false⟩ (sectorWrite i) 9 3 1
  parity := by decide
  write := fun _ _ => rfl
  blkid := fun _ _ => rfl
  alloc := fun i _ => by simp [raidzAggreMapAlloc, sectorWrite]

/- Every column whose number is below `n` fails. -/
def failsBelow (n : Nat) (c : Nat) : Nat := if c < n then eio else 0

/-- The parity and the first block fail: the second block is acknowledged, the first is not. -/
theorem acknowledged_recoverable_iff_twoBlocks :
    [1, 0].Perm (List.range twoBlocks.ndata) ∧
      twoBlocks.finish (failsBelow 2) [1, 0] 0 = [(1, 0), (0, eio)] ∧
      ∀ i, (i, 0) ∈ twoBlocks.finish (failsBelow 2) [1, 0] 0 →
        twoBlocks.Recoverable (failsBelow 2) i := by
  have horder : [1, 0].Perm (List.range twoBlocks.ndata) := by decide
  refine ⟨horder, by decide, ?_⟩
  refine (acknowledged_recoverable_iff twoBlocks (failsBelow 2) [1, 0] horder).mpr ?_
  exact .inr (.inr ⟨by decide, by decide⟩)

/-- Both blocks fail and the parity is written: the first member to finish is acknowledged although
its block is lost. -/
theorem acknowledged_unrecoverable :
    [0, 1].Perm (List.range twoBlocks.ndata) ∧
      (0, 0) ∈ twoBlocks.finish (fun c => if c = 0 then 0 else eio) [0, 1] 0 ∧
      ¬ twoBlocks.Recoverable (fun c => if c = 0 then 0 else eio) 0 := by
  refine ⟨by decide, by decide, ?_⟩
  unfold Recoverable
  decide

end StripeWrite

end ClusterZfs

import ClusterZfs.Raidz.Map
import Mathlib.Data.Nat.Count

/-! The start of `vdev_raidz_io_done`: the count of the columns in error, and what it means for a
write. -/
namespace ClusterZfs

def eio : Nat := 5
def enxio : Nat := 6
def ecksum : Nat := 52
def estale : Nat := 116

/- The rank of an error in `zio_worst_error`; an error that is not in the table ranks last. -/
def zioErrorRank (e : Nat) : Nat :=
  if e = 0 then 0 else if e = enxio then 1 else if e = ecksum then 2 else if e = eio then 3 else 4

def zioWorstError (e1 e2 : Nat) : Nat := if zioErrorRank e1 > zioErrorRank e2 then e1 else e2

def vdevRaidzWorstError (rm : RaidzMap) : Nat :=
  forRange 0 rm.rmCols (fun c error => zioWorstError error (rm.rmCol c).rcError) 0

structure ColumnCounts where
  unexpectedErrors : Nat
  parityErrors : Nat
  parityUntried : Nat
  dataErrors : Nat
  totalErrors : Nat

def countColumn (rm : RaidzMap) (c : Nat) (n : ColumnCounts) : ColumnCounts :=
  let rc := rm.rmCol c
  if rc.rcError ≠ 0 then
    { n with
      parityErrors := if c < rm.rmFirstdatacol then n.parityErrors + 1 else n.parityErrors
      dataErrors := if c < rm.rmFirstdatacol then n.dataErrors else n.dataErrors + 1
      unexpectedErrors := if rc.rcSkipped then n.unexpectedErrors else n.unexpectedErrors + 1
      totalErrors := n.totalErrors + 1 }
  else if c < rm.rmFirstdatacol ∧ rc.rcTried = false then
    { n with parityUntried := n.parityUntried + 1 }
  else n

def countColumns (rm : RaidzMap) : ColumnCounts :=
  forRange 0 rm.rmCols (countColumn rm) ⟨0, 0, 0, 0, 0⟩

/- The write branch. The result is the error count of the stripe and the error of the zio. -/
def vdevRaidzIoDoneWrite (rm : RaidzMap) (together : Bool) (aiWtoterr nparity : Nat) : Nat × Nat :=
  let total := (countColumns rm).totalErrors
  if together ∧ total > 0 then
    (aiWtoterr + total,
      if aiWtoterr + total > nparity then vdevRaidzWorstError rm else 0)
  else (aiWtoterr, if total > rm.rmFirstdatacol then vdevRaidzWorstError rm else 0)

section Counts

variable (rm : RaidzMap)

/-- The counters after the columns below `n`. -/
def countsBelow (n : Nat) : ColumnCounts where
  unexpectedErrors := Nat.count
    (fun c => (rm.rmCol c).rcError ≠ 0 ∧ (rm.rmCol c).rcSkipped = false) n
  parityErrors := Nat.count (fun c => (rm.rmCol c).rcError ≠ 0 ∧ c < rm.rmFirstdatacol) n
  parityUntried := Nat.count
    (fun c => (rm.rmCol c).rcError = 0 ∧ c < rm.rmFirstdatacol ∧ (rm.rmCol c).rcTried = false) n
  dataErrors := Nat.count (fun c => (rm.rmCol c).rcError ≠ 0 ∧ rm.rmFirstdatacol ≤ c) n
  totalErrors := Nat.count (fun c => (rm.rmCol c).rcError ≠ 0) n

theorem countColumn_countsBelow (c : Nat) :
    countColumn rm c (countsBelow rm c) = countsBelow rm (c + 1) := by
  simp only [countColumn, countsBelow, Nat.count_succ]
  by_cases herr : (rm.rmCol c).rcError = 0
  · by_cases hfirst : c < rm.rmFirstdatacol
    · cases (rm.rmCol c).rcTried <;> simp [herr, hfirst]
    · simp [herr, hfirst]
  · by_cases hfirst : c < rm.rmFirstdatacol
    · cases (rm.rmCol c).rcSkipped <;> simp [herr, hfirst, Nat.not_le.mpr hfirst]
    · cases (rm.rmCol c).rcSkipped <;> simp [herr, hfirst, Nat.not_lt.mp hfirst]

theorem countColumns_eq : countColumns rm = countsBelow rm rm.rmCols := by
  refine forRange_invariant (fun n st => st = countsBelow rm n) (Nat.zero_le _) ?_ ?_
  · simp [countsBelow]
  · rintro c st _ _ rfl
    exact countColumn_countsBelow rm c

theorem zioErrorRank_eq_zero {e : Nat} : zioErrorRank e = 0 ↔ e = 0 := by
  unfold zioErrorRank
  constructor
  · intro h
    by_contra hne
    rw [if_neg hne] at h
    split at h
    · cases h
    split at h
    · cases h
    split at h <;> cases h
  · intro h
    rw [if_pos h]

theorem zioWorstError_eq_zero {e1 e2 : Nat} : zioWorstError e1 e2 = 0 ↔ e1 = 0 ∧ e2 = 0 := by
  have h1 : zioErrorRank e1 = 0 ↔ e1 = 0 := zioErrorRank_eq_zero
  have h2 : zioErrorRank e2 = 0 ↔ e2 = 0 := zioErrorRank_eq_zero
  unfold zioWorstError
  split <;> omega

theorem worstError_eq_zero :
    vdevRaidzWorstError rm = 0 ↔ (countColumns rm).totalErrors = 0 := by
  rw [countColumns_eq]
  refine forRange_invariant (fun n (error : Nat) => error = 0 ↔ (countsBelow rm n).totalErrors = 0)
    (Nat.zero_le _) ?_ ?_
  · simp [countsBelow]
  · intro c error _ _ ih
    rw [zioWorstError_eq_zero, ih]
    simp only [countsBelow, Nat.count_succ]
    by_cases herr : (rm.rmCol c).rcError = 0 <;> simp [herr]

end Counts

end ClusterZfs

import ClusterZfs.Lib.Runs
import Mathlib.Algebra.Group.Int.Defs
import Mathlib.Algebra.Group.Nat.Defs
import Mathlib.Logic.Function.Basic
import Mathlib.Order.Lattice.Nat

/-! The slots of shared memory in which the commands of tasks leave how they have ended, over the
life of a process that has created the memory. -/
namespace ClusterZfs

/- `CM_TASK_MAX_TASK_NUM`, and the size of `cm_task_cmt_echo_t`. -/
def maxTaskNum : Nat := 64
def echoSize : Nat := 24

/- `task_pid` by the offset of its slot, `g_mmapshm_next_index`, and the offsets that the commands
still running were given. -/
structure TaskSlots where
  taskPid : Nat → Nat
  nextIndex : Nat
  running : List Nat

/- A command is to be executed, it ends and leaves its pid, and its end is asked for. -/
inductive TaskAction where
  | exec (forked : Bool)
  | finish (offset pid : Nat)
  | state (pid : Nat)

def TaskAction.isExec : TaskAction → Bool
  | .exec _ => true
  | _ => false

namespace TaskSlots

variable (s : TaskSlots)

/- The slot is the one that the call before has found; this call looks for the next. -/
def getMmapshmOffset : Int × TaskSlots :=
  let later := List.range' (s.nextIndex + 1) (maxTaskNum - (s.nextIndex + 1))
  match later.find? fun i => s.taskPid (echoSize * i) = 0 with
  | some i => ((echoSize * s.nextIndex : Nat), { s with nextIndex := i })
  | none => (-1, s)

/- `cm_task_cbk_cmt_exec` from the allocation on, with the offset of a command that is started.
`tmp` is a `uint32`. -/
def cbkCmtExec (forked : Bool) : Option Nat × TaskSlots :=
  let got := s.getMmapshmOffset
  let tmp := (got.1 % 2 ^ 32).toNat
  if tmp < 0 then (none, got.2)
  else if forked then (some tmp, { got.2 with running := tmp :: s.running })
  else (none, got.2)

/- `cm_task_trav_mmapshm`. -/
def travMmapshm (pid : Nat) : TaskSlots :=
  match (List.range maxTaskNum).find? fun i => s.taskPid (echoSize * i) = pid with
  | some i => { s with taskPid := Function.update s.taskPid (echoSize * i) 0 }
  | none => s

def step : TaskAction → Option TaskSlots
  | .exec forked => some (s.cbkCmtExec forked).2
  | .finish offset pid =>
    if offset ∈ s.running then
      some ⟨Function.update s.taskPid offset pid, s.nextIndex, s.running.erase offset⟩
    else none
  | .state pid => some (s.travMmapshm pid)

def empty : TaskSlots := ⟨fun _ => 0, 0, []⟩

/- What the execution with the number `n` is given; the last is the error code of the search. -/
def offsetOf (n : Nat) : Nat := if n < 63 then echoSize * n else 2 ^ 32 - 1

/- After `n` executions. The slots from the next one on look free as no command was given them. -/
structure Inv (n : Nat) (s : TaskSlots) : Prop where
  next : s.nextIndex = min n 63
  unused : ∀ i, s.nextIndex ≤ i → i < maxTaskNum → s.taskPid (echoSize * i) = 0
  given : ∀ o ∈ s.running, ∃ i < n, o = offsetOf i

variable {s} {n : Nat} (h : Inv n s)
include h

theorem Inv.cbkCmtExec (forked : Bool) : s.cbkCmtExec forked =
    if forked then (some (offsetOf n), ⟨s.taskPid, min (n + 1) 63, offsetOf n :: s.running⟩)
    else (none, ⟨s.taskPid, min (n + 1) 63, s.running⟩) := by
  obtain ⟨pids, index, running⟩ := s
  obtain ⟨rfl, hunused, -⟩ := h
  unfold TaskSlots.cbkCmtExec getMmapshmOffset offsetOf
  by_cases hn : n < 63
  · have hlen : maxTaskNum - (n + 1) = (62 - n) + 1 := by simp only [maxTaskNum]; omega
    have hfree : pids (echoSize * (n + 1)) = 0 :=
      hunused _ (by dsimp only; omega) (by simp only [maxTaskNum]; omega)
    have hmod : ((echoSize * n : Nat) : Int) % 2 ^ 32 = (echoSize * n : Nat) := by
      simp only [echoSize]
      omega
    have hmin : min n 63 = n := by omega
    have hmin' : min (n + 1) 63 = n + 1 := by omega
    simp only [hmin, hmin', hlen, List.range'_succ, List.find?_cons, hfree, decide_true, hmod,
      Int.toNat_natCast, if_pos hn, Nat.not_lt_zero, if_false]
  · have hmin : min n 63 = 63 := by omega
    have hmin' : min (n + 1) 63 = 63 := by omega
    simp only [hmin, hmin', if_neg hn]
    rfl

theorem Inv.step {s' : TaskSlots} {a : TaskAction} (hstep : s.step a = some s') :
    Inv (n + [a].countP TaskAction.isExec) s' := by
  cases a with
  | exec forked =>
    cases hstep
    have hunused : ∀ i, min (n + 1) 63 ≤ i → i < maxTaskNum → s.taskPid (echoSize * i) = 0 :=
      fun i hi => h.unused i (by have := h.next; omega)
    have hgiven : ∀ o ∈ s.running, ∃ i < n + 1, o = offsetOf i := by
      intro o ho
      obtain ⟨i, hi, heq⟩ := h.given o ho
      exact ⟨i, by omega, heq⟩
    rw [h.cbkCmtExec]
    cases forked with
    | false => exact ⟨rfl, hunused, hgiven⟩
    | true => exact ⟨rfl, hunused, List.forall_mem_cons.mpr ⟨⟨n, Nat.lt_succ_self n, rfl⟩, hgiven⟩⟩
  | finish offset pid =>
    obtain ⟨hin, ⟨⟩⟩ := Option.ite_none_right_eq_some.mp hstep
    refine ⟨h.next, fun i hi hlt => ?_, fun o ho => h.given o (List.mem_of_mem_erase ho)⟩
    have hne : echoSize * i ≠ offset := by
      obtain ⟨j, hj, rfl⟩ := h.given offset hin
      have hi : min n 63 ≤ i := h.next ▸ hi
      simp only [offsetOf, echoSize, maxTaskNum] at hlt ⊢
      split
      · omega
      · omega
    exact (Function.update_of_ne hne _ _).trans (h.unused i hi hlt)
  | state pid =>
    cases hstep
    unfold travMmapshm
    split
    · refine ⟨h.next, fun i hi hlt => ?_, h.given⟩
      simp only [Function.update_apply, h.unused i hi hlt, ite_self]
    · exact h

theorem Inv.run {s' : TaskSlots} {as : List TaskAction}
    (hrun : runSteps TaskSlots.step as s = some s') :
    Inv (n + as.countP TaskAction.isExec) s' := by
  induction as generalizing s n with
  | nil =>
    cases hrun
    exact h
  | cons a as ih =>
    obtain ⟨t, ht, hrest⟩ := Option.bind_eq_some_iff.mp hrun
    have hlast := ih (h.step ht) hrest
    rwa [Nat.add_assoc, ← List.countP_append] at hlast

end TaskSlots

/-- Slots are not used again: whatever has ended, the execution with the number `n` is given slot
`n`, which is free, and from 63 on every execution is given the error code as its offset. -/
theorem task_slots_once {s : TaskSlots} {as : List TaskAction} {n : Nat}
    (h : runSteps TaskSlots.step as .empty = some s) (hn : as.countP TaskAction.isExec = n) :
    (s.cbkCmtExec true).1 = some (if n < 63 then echoSize * n else 2 ^ 32 - 1) ∧
      (n < 63 → echoSize * n ∉ s.running ∧ s.taskPid (echoSize * n) = 0) := by
  have hinv : TaskSlots.Inv n s := by
    have hstart : TaskSlots.Inv 0 .empty := ⟨rfl, fun _ _ _ => rfl, List.forall_mem_nil _⟩
    rw [← hn, ← Nat.zero_add (as.countP _)]
    exact hstart.run h
  refine ⟨by rw [hinv.cbkCmtExec]; rfl, fun hlt => ⟨fun hin => ?_, ?_⟩⟩
  · obtain ⟨i, hi, heq⟩ := hinv.given _ hin
    rw [TaskSlots.offsetOf, if_pos (Nat.lt_trans hi hlt), echoSize] at heq
    omega
  · refine hinv.unused n ?_ (by simp only [maxTaskNum]; omega)
    rw [hinv.next]
    omega

/-- The first command has ended and was asked for; the next one is given the second slot. -/
theorem task_slots_once_second :
    ∃ as s, runSteps TaskSlots.step as .empty = some s ∧ s.running = [] ∧
      (s.cbkCmtExec true).1 = some 24 := by
  have hrun : runSteps TaskSlots.step [.exec true, .finish 0 7, .state 7] .empty = some _ := rfl
  exact ⟨_, _, hrun, rfl, (task_slots_once hrun rfl).1⟩

end ClusterZfs

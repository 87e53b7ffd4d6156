import ClusterZfs.Lib.Runs
import ClusterZfs.Pgr.Sessions
import ClusterZfs.Pgr.WellFormed
import Mathlib.Algebra.Order.BigOperators.Group.List
import Mathlib.Algebra.Order.Monoid.Canonical.Basic

/-! The unit over whole runs: nexuses come and go, send tasks and PERSISTENT RESERVE OUT commands,
and the unit is reset. -/
namespace ClusterZfs

/- With a command come the memory its keys are given and what happens to its write. -/
inductive PgrStep where
  | login (it : ItPtr) (lport : Devid) (rport : Tptid)
  | logout (it : ItPtr)
  | newTask (it : ItPtr)
  | prOut (it : ItPtr) (cmd : ProutCmd) (kmem : Kmem) (io : MetaIo)
  | reset

/- A handle is used for one nexus at a time. -/
def pgrStep (s : SbdLu) : PgrStep → Option SbdLu
  | .login it lport rport =>
    if it ≠ 0 ∧ it ∉ s.itList then some (s.login it lport rport) else none
  | .logout it => if it ∈ s.itList then some (s.removeItHandle it) else none
  | .newTask it => if it ∈ s.itList then some (s.newTask it) else none
  | .prOut it cmd kmem io =>
    if it ∈ s.itList then some (s.handlePgrOutData kmem io it cmd).2 else none
  | .reset => some s.pgrReset

/- A unit without keys and without a section on disk. -/
def pgrStart : SbdLu where
  keys := fun _ => ⟨0, [], [], false, false, 0⟩
  list := ⟨0, fun _ => 0, fun _ => 0⟩
  alive := []
  rsvholder := 0
  prGeneration := 0
  aptpl := false
  rsvdOne := false
  rsvdAll := false
  allKeysHasIt := false
  rsvType := 0
  rsvScope := 0
  its := fun _ => ⟨⟨0, 0, [], 0, by decide⟩, ⟨List.replicate 24 0, by decide⟩, 0, false⟩
  itList := []
  disk := none
  granted := none

namespace SbdLu

variable {s s' : SbdLu} {l : List KeyPtr} {it : ItPtr}

theorem Inv.attended (h : s.Inv l) (ha : Attended s s') (hb : s'.Base l) : s'.Inv l := by
  refine ⟨hb, h.rsv.congr ?_ ?_ ?_ h.rsv.holder h.rsv.all, ?_⟩ <;> rw [ha.rest]
  exact h.disk

theorem Inv.pgrReset (h : s.Inv l) : ∃ l', s.pgrReset.Inv l' := by
  have hbase := h.base.pgrReset
  by_cases haptpl : s.aptpl = true
  · rw [SbdLu.pgrReset, if_pos haptpl]
    exact ⟨l, h⟩
  · rw [SbdLu.pgrReset, if_neg haptpl] at hbase ⊢
    rw [if_neg haptpl] at hbase
    exact ⟨[], hbase, .of_quiet ⟨rfl, rfl⟩ rfl, h.disk⟩

theorem inv_pgrStart : pgrStart.Inv [] :=
  ⟨⟨Dll.isList_nil _ _, by simp, by simp [pgrStart], by simp, by simp [pgrStart], by simp⟩,
    .of_quiet ⟨rfl, rfl⟩ rfl, by simp [pgrStart]⟩

end SbdLu

/- The steps after which the state is well formed again: what is registered can be read back, and
a failed write is harmless. -/
def PgrStep.WriteOk (s : SbdLu) : PgrStep → Prop
  | .prOut it cmd _ io => s.IdsReadable it cmd ∧ s.WriteOk cmd io
  | _ => True

theorem inv_pgrStep {s s' : SbdLu} {l : List KeyPtr} {a : PgrStep} (h : s.Inv l)
    (hok : a.WriteOk s) (hstep : pgrStep s a = some s') : ∃ l', s'.Inv l' := by
  cases a with
  | login it lport rport =>
    obtain ⟨hit, ⟨⟩⟩ := Option.ite_none_right_eq_some.mp hstep
    exact ⟨l, h.attended (s.attended_login it lport rport) (h.base.login hit.1 lport rport)⟩
  | logout it =>
    obtain ⟨-, ⟨⟩⟩ := Option.ite_none_right_eq_some.mp hstep
    exact ⟨l, h.attended (s.attended_removeItHandle it) h.base.removeItHandle⟩
  | newTask it =>
    obtain ⟨-, ⟨⟩⟩ := Option.ite_none_right_eq_some.mp hstep
    exact ⟨l, h.attended (s.attended_newTask it) h.base.newTask⟩
  | prOut it cmd kmem io =>
    obtain ⟨hit, ⟨⟩⟩ := Option.ite_none_right_eq_some.mp hstep
    exact h.handlePgrOutData hit hok.1 kmem hok.2
  | reset =>
    cases hstep
    exact h.pgrReset

/-- A step is one of the nexuses, a command or a reset. -/
theorem pgrStep_cases {s s' : SbdLu} {a : PgrStep} (hstep : pgrStep s a = some s') :
    s.Attended s' ∨ (∃ it cmd kmem io, a = .prOut it cmd kmem io ∧ it ∈ s.itList ∧
      s' = (s.handlePgrOutData kmem io it cmd).2) ∨ (a = .reset ∧ s' = s.pgrReset) := by
  cases a with
  | login it lport rport =>
    obtain ⟨-, ⟨⟩⟩ := Option.ite_none_right_eq_some.mp hstep
    exact .inl (s.attended_login it lport rport)
  | logout it =>
    obtain ⟨-, ⟨⟩⟩ := Option.ite_none_right_eq_some.mp hstep
    exact .inl (s.attended_removeItHandle it)
  | newTask it =>
    obtain ⟨-, ⟨⟩⟩ := Option.ite_none_right_eq_some.mp hstep
    exact .inl (s.attended_newTask it)
  | prOut it cmd kmem io =>
    obtain ⟨hit, ⟨⟩⟩ := Option.ite_none_right_eq_some.mp hstep
    exact .inr (.inl ⟨it, cmd, kmem, io, rfl, hit, rfl⟩)
  | reset =>
    cases hstep
    exact .inr (.inr ⟨rfl, rfl⟩)

theorem reach_inv {s : SbdLu} (h : Reach pgrStep (fun s a => a.WriteOk s) pgrStart s) :
    ∃ l, s.Inv l :=
  h.invariant (P := fun s => ∃ l, s.Inv l) ⟨[], SbdLu.inv_pgrStart⟩
    fun _ _ _ ⟨_, hinv⟩ hok hstep => inv_pgrStep hinv hok hstep

/- What the state is to be: one kind of reservation, a holder in the list exactly for that of one
holder, registrants for that of all of them, and pointers into a list that hangs together. -/
structure PgrWellFormed (s : SbdLu) (l : List KeyPtr) : Prop where
  linked : s.list.IsList l
  notBoth : ¬ (s.rsvdOne = true ∧ s.rsvdAll = true)
  holder : s.rsvdOne = true ↔ s.rsvholder ∈ l
  noHolder : s.rsvdOne = false → s.rsvholder = 0
  registrants : s.rsvdAll = true → l ≠ []
  ptrs : ∀ it ∈ s.itList, (s.its it).keyPtr = 0 ∨ (s.its it).keyPtr ∈ l

theorem SbdLu.Inv.wellFormed {s : SbdLu} {l : List KeyPtr} (h : s.Inv l) : PgrWellFormed s l := by
  refine ⟨h.base.isList, fun hboth => ?_, ⟨h.rsv.holder, fun hmem => ?_⟩, h.rsv.noHolder,
    h.rsv.all, h.base.ptrs⟩
  · rw [h.rsv.notBoth hboth.1] at hboth
    exact absurd hboth.2 (by decide)
  · by_contra hone
    exact h.base.ne_zero _ hmem (h.rsv.noHolder (Bool.eq_false_iff.mpr hone))

/-- In a run whose failed writes are all harmless every state is well formed. -/
theorem pgr_wellFormed (s : SbdLu)
    (h : Reach pgrStep (fun s a => a.WriteOk s) pgrStart s) : ∃ l, PgrWellFormed s l := by
  obtain ⟨l, hinv⟩ := reach_inv h
  exact ⟨l, hinv.wellFormed⟩

/- Memory that is taken in order. -/
def bumpKmem : Kmem where
  alloc := fun l => l.sum + 1
  fresh := fun _ hmem => absurd (List.le_sum_of_mem hmem) (Nat.not_succ_le_self _)
  nonNull := fun _ => Nat.succ_ne_zero _

def targetPort (name : UInt8) : Devid := ⟨1, 3, [name], 0, by simp⟩

def initiatorPort : Tptid := ⟨List.replicate 24 0, by decide⟩

def prOutCmd (action : PrOut) (type : Fin 16) (rsvKey svcKey : UInt64) (aptpl allTgPt : Bool) :
    ProutCmd :=
  ⟨action, type, 0, 24, rsvKey, svcKey, aptpl, allTgPt, false, false, true, [], none, none⟩

/- The command names no transport ID, so the one of its nexus counts. -/
theorem idsReadable_prOutCmd {s : SbdLu} {it : ItPtr} {action : PrOut} {type : Fin 16}
    {rsvKey svcKey : UInt64} {aptpl allTgPt : Bool} (h : (s.its it).rport.Readable) :
    s.IdsReadable it (prOutCmd action type rsvKey svcKey aptpl allTgPt) :=
  ⟨fun _ => h, fun _ _ htpd => (by cases htpd), fun _ _ hrpt => (by cases hrpt)⟩

/-- A reservation whose write fails, with the section from before read back, leaves its holder
behind. -/
theorem pgr_wellFormed_stale_holder : ∃ s, Reach pgrStep (fun _ _ => True) pgrStart s ∧
    ¬ ∃ l, PgrWellFormed s l := by
  have hrun : Reach pgrStep (fun _ _ => True) pgrStart _ :=
    .next (a := .prOut 1 (prOutCmd .reserve 1 7 0 false false) bumpKmem (.failed .old true))
      (.next (a := .prOut 1 (prOutCmd .register 0 0 7 true false) bumpKmem .ok)
        (.next (a := .login 1 (targetPort 1) initiatorPort) .start trivial rfl) trivial rfl)
      trivial rfl
  refine ⟨_, hrun, fun ⟨l, hwf⟩ => ?_⟩
  exact absurd (hwf.noHolder (by decide)) (by decide)

theorem pgr_wellFormed_failed_clear : ∃ s, Reach pgrStep (fun s a => a.WriteOk s) pgrStart s ∧
    ∃ l, PgrWellFormed s l := by
  have hrun : Reach pgrStep (fun s a => a.WriteOk s) pgrStart _ :=
    .next (a := .prOut 1 (prOutCmd .clear 0 7 0 false false) bumpKmem (.failed .old true))
      (.next (a := .prOut 1 (prOutCmd .reserve 1 7 0 false false) bumpKmem .ok)
        (.next (a := .prOut 1 (prOutCmd .register 0 0 7 true false) bumpKmem .ok)
          (.next (a := .login 1 (targetPort 1) initiatorPort) .start trivial rfl)
          ⟨idsReadable_prOutCmd (by decide), trivial⟩ rfl)
        ⟨idsReadable_prOutCmd (by decide), trivial⟩ rfl)
      ⟨idsReadable_prOutCmd (by decide), .inr (.inl rfl)⟩ rfl
  exact ⟨_, hrun, pgr_wellFormed _ hrun⟩

end ClusterZfs

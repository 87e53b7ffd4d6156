import ClusterZfs.Htbt.Coherent

/-! Runs of one node: received heartbeats, rounds of the send thread, and nodes added and deleted.
A section under the mutex is one step; `cm_htbt_add` for the node itself calls
`cm_htbt_state_enter_lonely` after it has given the mutex back, and there every statement is a step
of its own. -/
namespace ClusterZfs

/- `outside` has a number for each thread that is in `cm_htbt_state_enter_lonely` without the
mutex: the next statement it comes to. -/
structure HtbtSys where
  g : Htbt
  outside : List Nat

/- The nodes of a subdomain. `cm_htbt_init_nodes` writes the table without a check, so they must
fit. -/
structure SubdomainNodes where
  ids : List Nat
  fits : ids.length ≤ cmHtbtSubdomainNodeMax

/- `info` is the id that the node module has for the node, if it knows it. -/
inductive HtbtAction where
  | recv (env : Htbt.RecvEnv) (data : HtbtLocalInfo)
  | tick
  | add (subdomain nid : Nat) (info : Option Nat) (now : Int) (nodes : SubdomainNodes)
  | statement (k : Nat)
  | delete (subdomain nid : Nat) (info : Option Nat)

namespace HtbtSys

/- No next state where a null master would be followed. -/
def step (s : HtbtSys) : HtbtAction → Option HtbtSys
  | .recv env data => (s.g.recvLocal env data).map fun g => { s with g }
  | .tick => some { s with g := s.g.tick.1 }
  | .add subdomain nid info now nodes =>
    if nid = s.g.localInfo.id then
      some { g := s.g.addSelf subdomain now nodes.ids, outside := s.outside ++ [0] }
    else if subdomain = s.g.localInfo.subDomainId then
      match info with
      | none => some s
      | some nodeId => some { s with g := s.g.addOther nodeId }
    else some s
  | .statement k =>
    match s.outside[k]? with
    | none => none
    | some pc =>
      match Htbt.lonelyStatements[pc]? with
      | none => some { s with outside := s.outside.eraseIdx k }
      | some f => some { g := f s.g, outside := s.outside.set k (pc + 1) }
  | .delete subdomain nid info =>
    if nid = s.g.localInfo.id then some { s with g := s.g.deleteSelf subdomain }
    else if subdomain = s.g.localInfo.subDomainId then
      match info with
      | none => some s
      | some nodeId => some { s with g := s.g.deleteOther nodeId }
    else some s

def start (id subdomain : Nat) (now : Int) (nodes : SubdomainNodes) : HtbtSys :=
  ⟨Htbt.init id subdomain now nodes.ids, []⟩

/- Heartbeats carry the id of a node; while the node has a master it hears something in every
three rounds; and it is not added to a subdomain itself. -/
def Heard (s : HtbtSys) : HtbtAction → Prop
  | .recv _ data => data.id ≠ cmNodeIdNone
  | .tick => s.g.localInfo.state ≠ .lonely → inc32 s.g.lostCnt < cmHtbtLonelyNum
  | .add _ nid _ _ _ => nid ≠ s.g.localInfo.id
  | .statement _ => True
  | .delete _ _ _ => True

theorem initNodes_subMaster (self : Nat) (ids : List Nat) (sd : HtbtSubDomain) :
    (HtbtSubDomain.initNodes self ids sd).subMasterId = sd.subMasterId := by
  induction ids generalizing sd with
  | nil => rfl
  | cons id ids ih =>
    rw [HtbtSubDomain.initNodes, ih]
    rfl

theorem start_inv {id : Nat} (hid : id ≠ cmNodeIdNone) (subdomain : Nat) (now : Int)
    (nodes : SubdomainNodes) : (start id subdomain now nodes).g.Inv := by
  refine Htbt.Base.enterLonely ⟨hid, ?_, ?_⟩ ?_
  · intro _ _ h
    cases h
  · intro _ _ _ h
    cases h
  · exact initNodes_subMaster _ _ _

theorem step_inv {s s' : HtbtSys} {a : HtbtAction} (h : s.g.Inv ∧ s.outside = [])
    (hok : s.Heard a) (hstep : s.step a = some s') : s'.g.Inv ∧ s'.outside = [] := by
  obtain ⟨hinv, hout⟩ := h
  cases a with
  | recv env data =>
    obtain ⟨g', hrecv, hinv'⟩ := hinv.recvLocal env hok
    simp only [step, hrecv] at hstep
    cases hstep
    exact ⟨hinv', hout⟩
  | tick =>
    simp only [step, Option.some.injEq] at hstep
    simp only [Heard] at hok
    rw [← hstep]
    dsimp only
    exact ⟨hinv.tick hok, hout⟩
  | add subdomain nid info now nodes =>
    unfold step at hstep
    dsimp only at hstep
    rw [if_neg hok] at hstep
    split at hstep
    · split at hstep
      · cases hstep
        exact ⟨hinv, hout⟩
      · cases hstep
        exact ⟨hinv.addOther _, hout⟩
    · cases hstep
      exact ⟨hinv, hout⟩
  | statement k =>
    simp only [step, hout] at hstep
    cases hstep
  | delete subdomain nid info =>
    unfold step at hstep
    dsimp only at hstep
    split at hstep
    · cases hstep
      exact ⟨hinv.deleteSelf subdomain, hout⟩
    · split at hstep
      · split at hstep
        · cases hstep
          exact ⟨hinv, hout⟩
        · cases hstep
          exact ⟨hinv.deleteOther _, hout⟩
      · cases hstep
        exact ⟨hinv, hout⟩

end HtbtSys

/-- In every run of a node that hears something in time and is not added itself, the election state
is coherent whenever the mutex is free. -/
theorem htbt_coherent {id : Nat} (hid : id ≠ cmNodeIdNone) (subdomain : Nat) (now : Int)
    (nodes : SubdomainNodes) (s : HtbtSys)
    (h : Reach HtbtSys.step HtbtSys.Heard (HtbtSys.start id subdomain now nodes) s) :
    s.g.Coherent := by
  have hinv := Reach.invariant
    ⟨HtbtSys.start_inv hid subdomain now nodes, rfl⟩
    (fun _ _ _ hs hok hstep => HtbtSys.step_inv hs hok hstep) h
  exact hinv.1.coherent

namespace HtbtSys

/- A heartbeat of node 2, which has no master. -/
def fromTwo : HtbtLocalInfo := ⟨2, 7, 0, .lonely, 50, 0, 0⟩

instance (s : HtbtSys) (a : HtbtAction) : Decidable (s.Heard a) :=
  match a with
  | .recv _ data => inferInstanceAs (Decidable (data.id ≠ cmNodeIdNone))
  | .tick => inferInstanceAs
      (Decidable (s.g.localInfo.state ≠ .lonely → inc32 s.g.lostCnt < cmHtbtLonelyNum))
  | .add _ nid _ _ _ => inferInstanceAs (Decidable (nid ≠ s.g.localInfo.id))
  | .statement _ => inferInstanceAs (Decidable True)
  | .delete _ _ _ => inferInstanceAs (Decidable True)

def plenty : Htbt.RecvEnv := ⟨true, true, fromTwo⟩

/- Node 1 of a subdomain of two nodes. -/
def nodeOne : HtbtSys := start 1 7 40 ⟨[1, 2], by decide⟩

end HtbtSys

/-- Two heartbeats bring node 1 into an election and three quiet rounds out of it again: its own
info then has no master, the subdomain still has node 1. -/
theorem htbt_coherent_lonely_again :
    ∃ s, Reach HtbtSys.step (fun _ _ => True) HtbtSys.nodeOne s ∧ ¬ s.g.Coherent := by
  obtain ⟨s, hs, hids⟩ := exists_reach HtbtSys.step (fun _ _ => True) HtbtSys.nodeOne
    [.recv HtbtSys.plenty HtbtSys.fromTwo, .recv HtbtSys.plenty HtbtSys.fromTwo,
      .tick, .tick, .tick]
    (fun s => s.g.localInfo.subMasterId = 0 ∧ s.g.subdomain.subMasterId = 1)
    (by decide +kernel)
  refine ⟨s, hs, ?_⟩
  intro hc
  have hmasters := hc.masters
  omega

/-- Two heartbeats and one round: node 1 is in an election. -/
theorem htbt_coherent_select :
    ∃ s, Reach HtbtSys.step HtbtSys.Heard HtbtSys.nodeOne s ∧ s.g.localInfo.state = .select ∧
      s.g.Coherent := by
  obtain ⟨s, hs, hstate⟩ := exists_reach HtbtSys.step HtbtSys.Heard HtbtSys.nodeOne
    [.recv HtbtSys.plenty HtbtSys.fromTwo, .recv HtbtSys.plenty HtbtSys.fromTwo, .tick]
    (fun s => s.g.localInfo.state = .select) (by decide +kernel)
  exact ⟨s, hs, hstate, htbt_coherent (by decide) 7 40 ⟨[1, 2], by decide⟩ s hs⟩

end ClusterZfs

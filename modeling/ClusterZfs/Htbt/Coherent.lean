import ClusterZfs.Htbt.Code
import ClusterZfs.Lib.Runs

/-! The election state of one node: the master is kept in two ids, a pointer and two function
pointers, and these have to fit together whenever the mutex is free. -/
namespace ClusterZfs

namespace Htbt

variable {g : Htbt}

/- `pmaster` points to the record of this node. -/
def PointsTo (g : Htbt) (id : Nat) : Prop :=
  match g.pmaster with
  | none => False
  | some .localInfo => g.localInfo.id = id
  | some (.record p) => g.pnodeList id = some p ∧ (g.records p).id = id

structure Coherent (g : Htbt) : Prop where
  masters : g.localInfo.subMasterId = g.subdomain.subMasterId
  funcs : g.recvFunc = g.localInfo.state ∧ g.checkFunc = g.localInfo.state
  lonely : g.localInfo.state = .lonely →
    g.localInfo.subMasterId = cmNodeIdNone ∧ g.pmaster = none
  elected : g.localInfo.state ≠ .lonely →
    g.localInfo.subMasterId ≠ cmNodeIdNone ∧ g.PointsTo g.localInfo.subMasterId

/- What holds of the records and the node's own id in any state. -/
structure Base (g : Htbt) : Prop where
  id_ne : g.localInfo.id ≠ cmNodeIdNone
  older : ∀ id p, g.pnodeList id = some p → p < g.nextRecord
  one : ∀ id id' p, g.pnodeList id = some p → g.pnodeList id' = some p → id = id'

/- Another node as master: it is in the node table, and `pmaster` is its record. -/
structure Follows (g : Htbt) (id p : Nat) : Prop where
  id_ne : id ≠ cmNodeIdNone
  pmaster : g.pmaster = some (.record p)
  listed : g.pnodeList id = some p
  record : (g.records p).id = id
  member : ∃ i < cmHtbtSubdomainNodeMax, (g.subdomain.node i).id = id

structure Elected (g : Htbt) : Prop where
  masters : g.localInfo.subMasterId = g.subdomain.subMasterId
  master : (g.localInfo.subMasterId = g.localInfo.id ∧ g.pmaster = some .localInfo) ∨
    ∃ p, g.Follows g.localInfo.subMasterId p

structure Inv (g : Htbt) : Prop where
  base : g.Base
  funcs : g.recvFunc = g.localInfo.state ∧ g.checkFunc = g.localInfo.state
  lonely : g.localInfo.state = .lonely → g.localInfo.subMasterId = cmNodeIdNone ∧
    g.subdomain.subMasterId = cmNodeIdNone ∧ g.pmaster = none
  elected : g.localInfo.state ≠ .lonely → g.Elected

theorem Inv.coherent (h : g.Inv) : g.Coherent where
  masters := by
    by_cases hs : g.localInfo.state = .lonely
    · obtain ⟨hlocal, hsub, -⟩ := h.lonely hs
      rw [hlocal, hsub]
    · exact (h.elected hs).masters
  funcs := h.funcs
  lonely hs := ⟨(h.lonely hs).1, (h.lonely hs).2.2⟩
  elected hs := by
    unfold PointsTo
    rcases (h.elected hs).master with ⟨hid, hptr⟩ | ⟨p, hf⟩
    · rw [hptr, hid]
      exact ⟨h.base.id_ne, rfl⟩
    · rw [hf.pmaster]
      exact ⟨hf.id_ne, hf.listed, hf.record⟩

theorem masterUpdate_elected {nid : Nat}
    (hnid : nid ≠ g.localInfo.id → nid ≠ cmNodeIdNone ∧
      ∃ p, g.pnodeList nid = some p ∧ (g.records p).id = nid ∧
        ∃ i < cmHtbtSubdomainNodeMax, (g.subdomain.node i).id = nid) :
    (g.masterUpdate nid).Elected := by
  refine ⟨rfl, ?_⟩
  by_cases hself : nid = g.localInfo.id
  · refine .inl ⟨hself, ?_⟩
    simp [masterUpdate, if_pos hself]
  · obtain ⟨hne, p, hlist, hrec, hmem⟩ := hnid hself
    refine .inr ⟨p, hne, ?_, hlist, hrec, hmem⟩
    simp [masterUpdate, if_neg hself, hlist]

/-- A new election leaves a coherent state, whatever it started from. -/
theorem Base.enterSelect (h : g.Base) : g.enterSelect.Inv where
  base := { h with }
  funcs := ⟨rfl, rfl⟩
  lonely hs := by cases hs
  elected _ := masterUpdate_elected fun hne => (hne rfl).elim

theorem Elected.enterStable (hb : g.Base) (h : g.Elected) : g.enterStable.Inv where
  base := { hb with }
  funcs := ⟨rfl, rfl⟩
  lonely hs := by cases hs
  elected _ := by
    exact ⟨h.masters, h.master.imp_right fun ⟨p, hf⟩ => ⟨p, { hf with }⟩⟩

/- A change that keeps the master where it is: the same ids and pointers, the records that are
listed keep the id they are for, and the nodes of the table stay in it. -/
structure Keeps (g g' : Htbt) : Prop where
  id : g'.localInfo.id = g.localInfo.id
  state : g'.localInfo.state = g.localInfo.state
  subMaster : g'.localInfo.subMasterId = g.localInfo.subMasterId
  subdomain : g'.subdomain.subMasterId = g.subdomain.subMasterId
  pmaster : g'.pmaster = g.pmaster
  recv : g'.recvFunc = g.recvFunc
  check : g'.checkFunc = g.checkFunc
  master : ∀ id p, g.Follows id p → g'.Follows id p

theorem Keeps.inv {g' : Htbt} (hk : g.Keeps g') (h : g.Inv) (hb : g'.Base) : g'.Inv where
  base := hb
  funcs := by
    rw [hk.recv, hk.check, hk.state]
    exact h.funcs
  lonely hs := by
    rw [hk.state] at hs
    rw [hk.subMaster, hk.subdomain, hk.pmaster]
    exact h.lonely hs
  elected hs := by
    rw [hk.state] at hs
    have he := h.elected hs
    constructor
    · rw [hk.subMaster, hk.subdomain]
      exact he.masters
    · rw [hk.subMaster, hk.id, hk.pmaster]
      exact he.master.imp_right fun ⟨p, hf⟩ => ⟨p, hk.master _ _ hf⟩

theorem keeps_subdomain {sd : HtbtSubDomain} (hsub : sd.subMasterId = g.subdomain.subMasterId)
    (hmem : ∀ id, id ≠ cmNodeIdNone → (∃ p, g.Follows id p) →
      ∃ i < cmHtbtSubdomainNodeMax, (sd.node i).id = id) :
    g.Keeps { g with subdomain := sd } :=
  ⟨rfl, rfl, rfl, hsub, rfl, rfl, rfl,
    fun id p hf => { hf with member := hmem id hf.id_ne ⟨p, hf⟩ }⟩

theorem base_subdomain (h : g.Base) (sd : HtbtSubDomain) : Base { g with subdomain := sd } :=
  { h with }

end Htbt

namespace HtbtSubDomain

variable {sd : HtbtSubDomain}

theorem getinfo_some {id i : Nat} (h : sd.getinfo id = some i) :
    i < cmHtbtSubdomainNodeMax ∧ (sd.node i).id = id := by
  exact ⟨List.mem_range.mp (List.mem_of_find?_eq_some h), by simpa using List.find?_some h⟩

theorem getinfo_none {id i : Nat} (h : sd.getinfo id = none) (hi : i < cmHtbtSubdomainNodeMax) :
    (sd.node i).id ≠ id := by
  simpa using List.find?_eq_none.mp h i (List.mem_range.mpr hi)

theorem setNode_member {i j id : Nat} {nd : HtbtNode} (hj : (sd.node j).id = id)
    (hne : (sd.node i).id ≠ id ∨ nd.id = id) : ((sd.setNode i nd).node j).id = id := by
  rcases eq_or_ne j i with rfl | hji
  · simp [setNode, hne.resolve_left (not_not_intro hj)]
  · simpa only [setNode, Function.update_of_ne hji] using hj

end HtbtSubDomain

namespace Htbt

variable {p : Nat}

variable {g : Htbt}

/-- Overwriting an entry that is free, or that keeps its id, leaves the master in the table. -/
theorem keeps_setNode {sd : HtbtSubDomain} {i : Nat} {nd : HtbtNode}
    (hnode : sd.node = Function.update g.subdomain.node i nd)
    (hsub : sd.subMasterId = g.subdomain.subMasterId)
    (hid : (g.subdomain.node i).id = cmNodeIdNone ∨ nd.id = (g.subdomain.node i).id) :
    g.Keeps { g with subdomain := sd } := by
  refine keeps_subdomain hsub fun id hne ⟨p, hf⟩ => ?_
  obtain ⟨j, hj, hjid⟩ := hf.member
  refine ⟨j, hj, ?_⟩
  rw [hnode]
  refine HtbtSubDomain.setNode_member hjid ?_
  rcases hid with hfree | hsame
  · exact .inl (hfree ▸ hne.symm)
  · exact (ne_or_eq _ id).imp_right hsame.trans

theorem keeps_addFree (nd : HtbtNode) : g.Keeps { g with subdomain := g.subdomain.addFree nd } := by
  cases hfree : g.subdomain.getinfo cmNodeIdNone with
  | none =>
    have hsame : g.subdomain.addFree nd = g.subdomain := by
      rw [HtbtSubDomain.addFree, hfree]
    rw [hsame]
    exact ⟨rfl, rfl, rfl, rfl, rfl, rfl, rfl, fun _ _ hf => hf⟩
  | some i =>
    have hset : g.subdomain.addFree nd =
        { g.subdomain.setNode i nd with nodeCnt := g.subdomain.nodeCnt + 1 } := by
      rw [HtbtSubDomain.addFree, hfree]
    rw [hset]
    exact keeps_setNode rfl rfl (.inl (HtbtSubDomain.getinfo_some hfree).2)

theorem keeps_addNewnodeToList (hb : g.Base) (env : RecvEnv) {nid : Nat}
    (hne : ∀ p, ¬ g.Follows nid p) :
    g.Keeps (g.addNewnodeToList env nid) ∧ (g.addNewnodeToList env nid).Base := by
  unfold addNewnodeToList
  split
  · refine ⟨⟨rfl, rfl, rfl, rfl, rfl, rfl, rfl, ?_⟩, ⟨hb.id_ne, ?_, ?_⟩⟩
    · intro id p hf
      have hid : id ≠ nid := by
        rintro rfl
        exact hne p hf
      have hp : p ≠ g.nextRecord := Nat.ne_of_lt (hb.older id p hf.listed)
      exact { hf with
        listed := (Function.update_of_ne hid _ _).trans hf.listed
        record := (congrArg _ (Function.update_of_ne hp _ _)).trans hf.record }
    -- the new record has a number that no listed one has
    · intro id p (hlist : Function.update g.pnodeList nid _ id = some p)
      change p < g.nextRecord + 1
      have := hb.older id p
      grind [Function.update_apply]
    · intro id id' p (hlist : Function.update g.pnodeList nid _ id = some p)
        (hlist' : Function.update g.pnodeList nid _ id' = some p)
      have := hb.older id p
      have := hb.older id' p
      have := hb.one id id' p
      grind [Function.update_apply]
  · exact ⟨⟨rfl, rfl, rfl, rfl, rfl, rfl, rfl, fun _ _ hf => hf⟩, hb⟩

theorem Inv.master_of_record (h : g.Inv) (hptr : g.pmaster = some (.record p)) :
    g.Follows g.localInfo.subMasterId p := by
  have hstate : g.localInfo.state ≠ .lonely := by
    intro hs
    cases (h.lonely hs).2.2.symm.trans hptr
  rcases (h.elected hstate).master with ⟨-, hself⟩ | ⟨q, hf⟩
  · cases hself.symm.trans hptr
  · cases hf.pmaster.symm.trans hptr
    exact hf

theorem Inv.master_eq (h : g.Inv) {id : Nat} (hf : g.Follows id p) :
    id = g.localInfo.subMasterId :=
  h.base.one _ _ p hf.listed (h.master_of_record hf.pmaster).listed

theorem Inv.addNewnode (h : g.Inv) (env : RecvEnv) {nid : Nat}
    (hnone : g.subdomain.getinfo nid = none) : (g.addNewnode env nid).Inv := by
  unfold Htbt.addNewnode
  split
  · exact h
  · have hfirst := (keeps_addFree ⟨nid, .online, 0⟩).inv h (base_subdomain h.base _)
    -- before this message the sender was not in the table, so it is not the master
    have hother : ∀ p, ¬ Follows { g with subdomain := g.subdomain.addFree ⟨nid, .online, 0⟩ }
        nid p := by
      intro p hf
      have hmaster := h.master_of_record hf.pmaster
      have hid := h.base.one _ _ p hf.listed hmaster.listed
      obtain ⟨j, hj, hjid⟩ := hmaster.member
      exact HtbtSubDomain.getinfo_none hnone hj (hjid.trans hid.symm)
    have hadd := keeps_addNewnodeToList hfirst.base env hother
    exact hadd.1.inv hfirst hadd.2

theorem keeps_record (hb : g.Base) {data : HtbtLocalInfo}
    (hlist : g.pnodeList data.id = some p) :
    g.Keeps { g with records := Function.update g.records p data } := by
  refine ⟨rfl, rfl, rfl, rfl, rfl, rfl, rfl, fun id q hf => { hf with record := ?_ }⟩
  change (Function.update g.records p data q).id = id
  rcases eq_or_ne q p with rfl | hq
  · rw [Function.update_self]
    exact hb.one _ _ q hlist hf.listed
  · rw [Function.update_of_ne hq]
    exact hf.record

theorem keeps_counters (g : Htbt) (lostCnt checkCnt : Nat) :
    g.Keeps { g with lostCnt, checkCnt } :=
  ⟨rfl, rfl, rfl, rfl, rfl, rfl, rfl, fun _ _ hf => { hf with }⟩

theorem Inv.counters (h : g.Inv) (lostCnt checkCnt : Nat) :
    Inv { g with lostCnt, checkCnt } :=
  (keeps_counters g lostCnt checkCnt).inv h { h.base with }

theorem Inv.setNode (h : g.Inv) {i : Nat} {nd : HtbtNode}
    (hid : nd.id = (g.subdomain.node i).id) :
    Inv { g with subdomain := g.subdomain.setNode i nd } := by
  refine Keeps.inv ?_ h (base_subdomain h.base _)
  exact keeps_setNode rfl rfl (.inr hid)

/- The sender of a heartbeat as the node knows it when the heartbeat is handed on. -/
structure Known (g : Htbt) (other : HtbtLocalInfo) : Prop where
  id_ne : other.id ≠ cmNodeIdNone
  record : ∃ p, g.pnodeList other.id = some p ∧ (g.records p).id = other.id
  member : ∃ i < cmHtbtSubdomainNodeMax, (g.subdomain.node i).id = other.id

theorem Known.masterUpdate {other : HtbtLocalInfo} (hk : g.Known other) :
    (g.masterUpdate other.id).Elected := by
  refine masterUpdate_elected fun _ => ⟨hk.id_ne, ?_⟩
  obtain ⟨p, hlist, hrec⟩ := hk.record
  exact ⟨p, hlist, hrec, hk.member⟩

theorem Base.masterUpdate (hb : g.Base) (nid : Nat) : (g.masterUpdate nid).Base :=
  { hb with }

theorem Elected.masterPk (h : g.Elected) (other : HtbtLocalInfo) :
    ∃ wins, g.masterPk other = some wins := by
  unfold Htbt.masterPk
  rcases h.master with ⟨-, hptr⟩ | ⟨p, hf⟩
  · exact ⟨_, by rw [hptr]; rfl⟩
  · exact ⟨_, by rw [hf.pmaster]; rfl⟩

/- What `recv_func` makes of a heartbeat; there is nothing to compare with where `pmaster` is
null. -/
inductive Answers (g : Htbt) (other : HtbtLocalInfo) : Option Htbt → Prop
  | null (hmaster : g.pmaster = none) (hfunc : g.recvFunc ≠ .lonely) : Answers g other none
  | heard : Answers g other (some { g with lostCnt := 0 })
  | select : Answers g other (some (enterSelect { g with lostCnt := 0 }))
  | elect (hfunc : g.recvFunc = .select) (hself : other.id = other.subMasterId)
      (hwins : g.masterPk other = some true) :
      Answers g other (some (masterUpdate { g with lostCnt := 0 } other.id).enterStable)
  | change (hfunc : g.recvFunc = .stable) (hself : other.id = other.subMasterId)
      (hwins : g.masterPk other = some true) :
      Answers g other (some (masterUpdate { g with lostCnt := 0 } other.id))

theorem recv_answers (g : Htbt) (other : HtbtLocalInfo) : g.Answers other (g.recv other) := by
  have hpk : ∀ won : Htbt, g.recvFunc ≠ .lonely →
      (g.masterPk other = some true → g.Answers other (some won)) → g.Answers other
        ((g.masterPk other).map fun wins => if wins then won else { g with lostCnt := 0 }) := by
    intro won hfunc hwon
    cases hwins : g.masterPk other with
    | none => exact .null (Option.map_eq_none_iff.mp hwins) hfunc
    | some wins =>
      cases wins with
      | true => exact hwon hwins
      | false => exact .heard
  unfold recv
  cases hs : g.recvFunc with
  | lonely => exact .select
  | select =>
    simp only [recvSelect]
    split
    · exact .heard
    · rename_i hself
      exact hpk _ (by simp [hs]) (.elect hs (not_not.mp hself))
  | stable =>
    simp only [recvStable]
    split
    · split
      · exact .select
      · split
        · exact .heard
        · exact .select
    · split
      · exact .heard
      · rename_i hclaims
        exact hpk _ (by simp [hs]) (.change hs (not_not.mp fun hne => hclaims (.inr hne)))

theorem Inv.recv (h : g.Inv) {other : HtbtLocalInfo} (hk : g.Known other) :
    ∃ g', g.recv other = some g' ∧ g'.Inv := by
  have hzero := h.counters 0 g.checkCnt
  have hknown : Known { g with lostCnt := 0 } other := ⟨hk.id_ne, hk.record, hk.member⟩
  have hanswer := g.recv_answers other
  generalize g.recv other = answer at hanswer ⊢
  cases hanswer with
  | null hmaster hfunc =>
    rw [h.funcs.1] at hfunc
    obtain ⟨wins, hwins⟩ := (h.elected hfunc).masterPk other
    rw [Htbt.masterPk, hmaster] at hwins
    cases hwins
  | heard => exact ⟨_, rfl, hzero⟩
  | select => exact ⟨_, rfl, hzero.base.enterSelect⟩
  | elect =>
    exact ⟨_, rfl, Elected.enterStable (hzero.base.masterUpdate _) hknown.masterUpdate⟩
  | change hfunc =>
    refine ⟨_, rfl, hzero.base.masterUpdate _, h.funcs, fun hlonely => ?_,
      fun _ => hknown.masterUpdate⟩
    cases hfunc.symm.trans (h.funcs.1.trans hlonely)

/- What a heartbeat meets: a sender that is ignored, that is not in the node table, that has no
record yet, or that is known. -/
inductive Arrives (g : Htbt) (env : RecvEnv) (data : HtbtLocalInfo) : Option Htbt → Prop
  | ignored : Arrives g env data (some g)
  | entered (hnone : g.subdomain.getinfo data.id = none) :
      Arrives g env data (some (g.addNewnode env data.id))
  | listed (i : Nat) (hfound : g.subdomain.getinfo data.id = some i)
      (hlist : g.pnodeList data.id = none) : Arrives g env data (some (addNewnodeToList
        { g with subdomain := g.subdomain.setNode i (g.subdomain.node i).heard } env data.id))
  | handed (i p : Nat) (hfound : g.subdomain.getinfo data.id = some i)
      (hlist : g.pnodeList data.id = some p) : Arrives g env data (recv
        { g with
          subdomain := g.subdomain.setNode i (g.subdomain.node i).heard
          records := Function.update g.records p data } data)

theorem recvLocal_arrives (g : Htbt) (env : RecvEnv) (data : HtbtLocalInfo) :
    g.Arrives env data (g.recvLocal env data) := by
  unfold recvLocal
  split
  · exact .ignored
  split
  · rename_i hnone
    split
    · exact .entered hnone
    · exact .ignored
  · rename_i i hfound
    dsimp only
    split
    · rename_i hlist
      exact .listed i hfound hlist
    · rename_i p hlist
      exact .handed i p hfound hlist

section

variable (h : g.Inv) (nodeId : Nat)
include h

/-- A received heartbeat keeps the state coherent and never meets a null master. -/
theorem Inv.recvLocal (env : RecvEnv) {data : HtbtLocalInfo}
    (hid : data.id ≠ cmNodeIdNone) : ∃ g', g.recvLocal env data = some g' ∧ g'.Inv := by
  have hheard : ∀ i, Inv
      { g with subdomain := g.subdomain.setNode i (g.subdomain.node i).heard } :=
    fun i => h.setNode rfl
  have harrives := g.recvLocal_arrives env data
  generalize g.recvLocal env data = out at harrives ⊢
  cases harrives with
  | ignored => exact ⟨g, rfl, h⟩
  | entered hnone => exact ⟨_, rfl, h.addNewnode env hnone⟩
  | listed i hfound hlist =>
    have hadd := keeps_addNewnodeToList (hheard i).base env fun p hf => by
      cases hlist.symm.trans hf.listed
    exact ⟨_, rfl, hadd.1.inv (hheard i) hadd.2⟩
  | handed i p hfound hlist =>
    obtain ⟨hi, hiid⟩ := HtbtSubDomain.getinfo_some hfound
    have hrec := (keeps_record (hheard i).base hlist).inv (hheard i)
      { h.base with }
    refine hrec.recv ⟨hid, ⟨p, hlist, ?_⟩, ⟨i, hi, ?_⟩⟩
    · exact congrArg HtbtLocalInfo.id (Function.update_self p data g.records)
    · change (Function.update g.subdomain.node i _ i).id = data.id
      rw [Function.update_self]
      exact hiid

theorem Inv.check
    (hheard : g.localInfo.state ≠ .lonely → inc32 g.lostCnt < cmHtbtLonelyNum) : g.check.Inv := by
  have hcount := h.counters (inc32 g.lostCnt) (inc32 g.checkCnt)
  have hne : g.checkFunc ≠ .lonely → g.localInfo.state ≠ .lonely := h.funcs.2 ▸ id
  unfold Htbt.check
  cases hs : g.checkFunc with
  | lonely => exact hcount
  | select =>
    have hstate := hne (by simp [hs])
    simp only [checkSelect]
    rw [if_neg (Nat.not_le_of_lt (hheard hstate))]
    split
    · exact Elected.enterStable hcount.base (hcount.elected hstate)
    · exact hcount
  | stable =>
    have hstate := hne (by simp [hs])
    have hduration : ∀ d, Inv { g with
        checkCnt := inc32 g.checkCnt
        lostCnt := inc32 g.lostCnt
        localInfo := { g.localInfo with duration := d } } := by
      exact fun d => Keeps.inv
        (g := { g with checkCnt := inc32 g.checkCnt, lostCnt := inc32 g.lostCnt })
        ⟨rfl, rfl, rfl, rfl, rfl, rfl, rfl, fun _ _ hf => { hf with }⟩ hcount { h.base with }
    simp only [checkStable]
    rw [if_neg (Nat.not_le_of_lt (hheard hstate))]
    split <;> exact hduration _

theorem Inv.localCheck (i : Nat) : (g.localCheck i).Inv := by
  have hlost : Inv { g with
      subdomain := g.subdomain.setNode i (g.subdomain.node i).missed } := h.setNode rfl
  simp only [Htbt.localCheck]
  split
  · exact hlost
  · split
    · exact hlost.base.enterSelect
    · split
      · exact hlost
      · have hagain : (g.subdomain.setNode i (g.subdomain.node i).missed).setNode i
            (g.subdomain.node i).missed.gone =
            g.subdomain.setNode i (g.subdomain.node i).missed.gone := by
          simp [HtbtSubDomain.setNode]
        rw [hagain]
        exact h.setNode rfl

theorem Inv.localSend : g.localSend.1.Inv := by
  refine forRange_invariant (fun _ (st : Htbt × List (Nat × HtbtLocalInfo)) => Inv st.1)
    (Nat.zero_le _) h ?_
  intro i st _ _ hst
  unfold sendTo
  dsimp only
  split
  · exact hst
  · exact hst.localCheck i

theorem Inv.tick
    (hheard : g.localInfo.state ≠ .lonely → inc32 g.lostCnt < cmHtbtLonelyNum) :
    g.tick.1.Inv :=
  (h.check hheard).localSend

theorem Inv.addOther : (g.addOther nodeId).Inv := by
  have hfirst := (keeps_addFree ⟨nodeId, .unknow, 0⟩).inv h (base_subdomain h.base _)
  unfold Htbt.addOther
  dsimp only
  split
  · exact hfirst
  · exact (keeps_addFree ⟨g.localInfo.id, .online, 0⟩).inv hfirst (base_subdomain h.base _)

theorem Inv.deleteOther : (g.deleteOther nodeId).Inv := by
  unfold Htbt.deleteOther
  split
  · exact h
  · rename_i i hfound
    obtain ⟨-, hiid⟩ := HtbtSubDomain.getinfo_some hfound
    dsimp only
    split
    · exact (base_subdomain h.base _).enterSelect
    · rename_i hother
      have hk : g.Keeps { g with subdomain :=
          { g.subdomain.setNode i ⟨cmNodeIdNone, .unknow, 0⟩ with
            nodeCnt := dec32 (g.subdomain.setNode i ⟨cmNodeIdNone, .unknow, 0⟩).nodeCnt } } := by
        refine keeps_subdomain rfl fun id _ ⟨p, hf⟩ => ?_
        obtain ⟨j, hj, hjid⟩ := hf.member
        -- the master is not the one that goes
        have hgoes : (g.subdomain.node i).id ≠ id := by
          rw [hiid, h.master_eq hf, h.coherent.masters]
          exact hother
        have hstays : ((g.subdomain.setNode i ⟨cmNodeIdNone, .unknow, 0⟩).node j).id = id :=
          HtbtSubDomain.setNode_member hjid (.inl hgoes)
        exact ⟨j, hj, hstays⟩
      exact hk.inv h (base_subdomain h.base _)

end

theorem Base.enterLonely (hb : g.Base) (hsub : g.subdomain.subMasterId = cmNodeIdNone) :
    g.enterLonely.Inv where
  base := { hb with }
  funcs := ⟨rfl, rfl⟩
  lonely _ := ⟨rfl, hsub, rfl⟩
  elected hs := (hs rfl).elim

theorem Inv.deleteSelf (h : g.Inv) (subdomain : Nat) : (g.deleteSelf subdomain).Inv :=
  Base.enterLonely { h.base with } rfl

end Htbt

end ClusterZfs

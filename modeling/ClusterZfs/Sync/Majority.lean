import ClusterZfs.Sync.Code
import Mathlib.Data.List.Perm.Subperm

/-! An update that the master acknowledges: the nodes of its sub-domain are asked one after the
other, and more than half of them have to answer with success. -/
namespace ClusterZfs

/- A request to another node may not arrive, and its answer may not. -/
structure SyncSend where
  sent : Bool
  answered : Bool
  env : SyncEnv

/- The nodes while they are asked, with `query->max` and `query->index`. -/
structure SyncQuery where
  nodes : Nat → SyncNode
  max : Nat
  index : Nat

/- The master `self`, and which nodes take themselves for the sub-master. -/
structure SyncDomain where
  cfg : Nat → Option SyncConfig
  self : Nat
  believes : Nat → Bool

namespace SyncDomain

variable (d : SyncDomain) (send : Nat → SyncSend) (req : SyncReq) (q : SyncQuery)

/- What a node makes of the request, and the answer that the master gets. -/
def ask (n : Nat) : SyncRet × SyncNode :=
  if n = d.self then (q.nodes n).requestLocal d.cfg (send n).env req
  else if (send n).sent then
    let out := (q.nodes n).cbkCmtRequest d.cfg (send n).env req (d.believes n) true
    (if (send n).answered then out.1 else .fail, out.2)
  else (.fail, q.nodes n)

def requestEachNode (n : Nat) : SyncQuery :=
  { nodes := Function.update q.nodes n (d.ask send req q n).2
    max := q.max + 1
    index := if (d.ask send req q n).1 = .ok then q.index + 1 else q.index }

/- `cm_sync_request_master`; `total` and `online` are what the heartbeat counts, `ids` the nodes of
the master sub-domain. An acknowledged request is queued for the other sub-domains, whatever comes
of that. -/
def requestMaster (malloc : Bool) (total online : Nat) (ids : List Nat) (objId dataId : Nat)
    (data : List UInt8) (nodes : Nat → SyncNode) : SyncRet × (Nat → SyncNode) :=
  match d.cfg objId with
  | none => (.fail, nodes)
  | some c =>
    if online ≤ total / 2 ∧ ¬ c.realTimeOnly ∧ ¬ c.always then (.fail, nodes)
    else if ¬ malloc then (.fail, nodes)
    else
      let step := ((nodes d.self).steps objId + 1) % 2 ^ 64
      let req := ⟨objId, dataId, step, decide (data = []), data⟩
      let q := ids.foldl (d.requestEachNode send req) ⟨nodes, 0, 0⟩
      if q.index ≤ q.max / 2 ∧ ¬ c.realTimeOnly ∧ ¬ c.always then (.fail, q.nodes)
      else (.ok, q.nodes)

end SyncDomain

/- More than half of the nodes hold the update under its step. -/
def HeldByMajority (ids : List Nat) (nodes : Nat → SyncNode) (req : SyncReq) : Prop :=
  ids.length < 2 * ids.countP fun n => decide ((nodes n).Holds req)

/- The nodes of the master sub-domain. -/
structure MasterSubdomain where
  ids : List Nat
  nodup : ids.Nodup

namespace SyncDomain

variable {d : SyncDomain} {n : Nat} (send : Nat → SyncSend) (req : SyncReq) (q : SyncQuery)
  (ids : List Nat)

section Held

variable (hcfg : ∀ c, d.cfg req.objId = some c → c.realTimeOnly = false)
include hcfg

theorem holds_ask (h : (q.nodes n).Holds req) : (d.ask send req q n).2.Holds req := by
  unfold ask
  split
  · exact h.requestLocal _ _ _ hcfg
  · split
    · dsimp only [SyncNode.cbkCmtRequest]
      split
      · exact h
      · split
        · exact h.requestLocal _ _ _ hcfg
        · exact h
    · exact h

/-- Only a node that takes itself for the sub-master answers with success for nothing. -/
theorem ask_holds (hself : n ≠ d.self → d.believes n = false)
    (h : (d.ask send req q n).1 = .ok) : (d.ask send req q n).2.Holds req := by
  unfold ask at h ⊢
  split at h
  · rw [if_pos (by assumption)]
    exact SyncNode.requestLocal_holds _ _ _ _ hcfg h
  · rename_i hne
    rw [if_neg hne]
    split at h
    · rw [if_pos (by assumption)]
      dsimp only [SyncNode.cbkCmtRequest] at h ⊢
      rw [hself hne] at h ⊢
      split at h
      · split at h
        · cases h
        · rw [if_neg (by assumption)]
          exact SyncNode.requestLocal_holds _ _ _ _ hcfg h
      · cases h
    · cases h

theorem holds_foldl (m : Nat) (h : (q.nodes m).Holds req) :
    ((ids.foldl (d.requestEachNode send req) q).nodes m).Holds req := by
  induction ids generalizing q with
  | nil => exact h
  | cons n ids ih =>
    apply ih
    by_cases hm : m = n
    · subst hm
      simpa [requestEachNode] using holds_ask send req q hcfg h
    · simpa [requestEachNode, hm] using h

theorem requestEachNode_index (hself : n ≠ d.self → d.believes n = false) :
    (d.requestEachNode send req q n).index ≤ q.index +
      if ((d.requestEachNode send req q n).nodes n).Holds req then 1 else 0 := by
  simp only [requestEachNode, Function.update_self]
  by_cases hok : (d.ask send req q n).1 = .ok
  · simp [hok, ask_holds send req q hcfg hself hok]
  · simp [hok]

/-- Where nobody else takes itself for the sub-master, every success counted is an update
held. -/
theorem index_le (hself : ∀ n ∈ ids, n ≠ d.self → d.believes n = false) :
    (ids.foldl (d.requestEachNode send req) q).index ≤ q.index + ids.countP fun n =>
      decide (((ids.foldl (d.requestEachNode send req) q).nodes n).Holds req) := by
  induction ids generalizing q with
  | nil => exact Nat.le_refl _
  | cons n ids ih =>
    rw [List.foldl_cons, List.countP_cons]
    have hrest := ih (d.requestEachNode send req q n) fun m hm =>
      hself m (List.mem_cons_of_mem _ hm)
    have hfirst := requestEachNode_index send req q hcfg (hself n List.mem_cons_self)
    have hlast := holds_foldl send req (d.requestEachNode send req q n) ids hcfg n
    by_cases hholds : ((d.requestEachNode send req q n).nodes n).Holds req
    · rw [if_pos hholds] at hfirst
      rw [if_pos (decide_eq_true (hlast hholds))]
      omega
    · rw [if_neg hholds] at hfirst
      omega

end Held

theorem foldl_max :
    (ids.foldl (d.requestEachNode send req) q).max = q.max + ids.length := by
  induction ids generalizing q with
  | nil => rfl
  | cons n ids ih =>
    rw [List.foldl_cons, ih]
    simp only [requestEachNode, List.length_cons]
    omega

/- Everything that `cm_sync_request_master` acknowledges for an object without the flags
REAL_TIME_ONLY and ALWAYS is held by a majority. -/
def AckHeld (self : Nat) (believes : Nat → Bool) (ids : List Nat) : Prop :=
  ∀ cfg send malloc total online objId dataId data nodes c, cfg objId = some c →
    c.realTimeOnly = false → c.always = false →
    (requestMaster ⟨cfg, self, believes⟩ send malloc total online ids objId dataId data nodes).1 =
      .ok →
    HeldByMajority ids
      (requestMaster ⟨cfg, self, believes⟩ send malloc total online ids objId dataId data nodes).2
      ⟨objId, dataId, ((nodes self).steps objId + 1) % 2 ^ 64, decide (data = []), data⟩

theorem ackHeld {self : Nat} {believes : Nat → Bool} {ids : List Nat}
    (hself : ∀ n ∈ ids, n ≠ self → believes n = false) : AckHeld self believes ids := by
  intro cfg send malloc total online objId dataId data nodes c hc hreal halways hok
  have hcfg : ∀ c', cfg objId = some c' → c'.realTimeOnly = false := by
    intro c' hc'
    cases hc.symm.trans hc'
    exact hreal
  have hle := index_le (d := ⟨cfg, self, believes⟩) send
    ⟨objId, dataId, ((nodes self).steps objId + 1) % 2 ^ 64, decide (data = []), data⟩
    ⟨nodes, 0, 0⟩ ids hcfg hself
  simp only [requestMaster, hc, hreal, halways, Bool.false_eq_true, not_false_eq_true, and_true]
    at hok ⊢
  split at hok
  · cases hok
  rw [if_neg (by assumption)]
  split at hok
  · cases hok
  rw [if_neg (by assumption)]
  split at hok
  · cases hok
  · rename_i hmany
    rw [if_neg hmany]
    rw [foldl_max] at hmany
    unfold HeldByMajority
    dsimp only at hmany hle ⊢
    omega

/- Every object has both callbacks and no flags, and every request to the nodes of `reached` and its
callback succeed. -/
def plainConfig : Nat → Option SyncConfig := fun _ => some ⟨false, false, true, true⟩

def reaching (reached : List Nat) (n : Nat) : SyncSend :=
  ⟨decide (n ∈ reached), true, true, true, decide (n ∈ reached)⟩

def emptyNode : SyncNode := ⟨fun _ => 0, fun _ _ => none, []⟩

section Reaching

variable {self b : Nat} {believes : Nat → Bool} {reached : List Nat}

theorem ask_reaching (self : Nat) (believes : Nat → Bool) (reached : List Nat) (n : Nat) :
    ((ask ⟨plainConfig, self, believes⟩ (reaching reached) req q n).1 = .ok ↔ n ∈ reached) ∧
      (n ∉ reached ∨ n ≠ self ∧ believes n = true →
        (ask ⟨plainConfig, self, believes⟩ (reaching reached) req q n).2 = q.nodes n) := by
  by_cases hn : n ∈ reached
  · by_cases hself : n = self
    · simp [ask, hself, reaching, plainConfig, SyncNode.requestLocal, hself ▸ hn]
    · cases hb : believes n with
      | false => simp [ask, hself, reaching, plainConfig, SyncNode.requestLocal,
          SyncNode.cbkCmtRequest, hn, hb]
      | true => simp [ask, hself, reaching, SyncNode.cbkCmtRequest, hn, hb]
  · by_cases hself : n = self
    · simp [ask, hself, reaching, plainConfig, SyncNode.requestLocal, hself ▸ hn]
    · simp [ask, hself, reaching, hn]

/-- The successes counted are the nodes reached, and one that takes itself for the sub-master stays
as it was. -/
theorem foldl_reaching :
    (ids.foldl (requestEachNode ⟨plainConfig, self, believes⟩ (reaching reached) req) q).index =
        q.index + ids.countP (fun n => decide (n ∈ reached)) ∧
      ∀ n, n ∉ reached ∨ n ≠ self ∧ believes n = true →
        (ids.foldl (requestEachNode ⟨plainConfig, self, believes⟩ (reaching reached) req) q).nodes
          n = q.nodes n := by
  induction ids generalizing q with
  | nil => exact ⟨rfl, fun _ _ => rfl⟩
  | cons m ids ih =>
    obtain ⟨hindex, hnodes⟩ := ih (requestEachNode ⟨plainConfig, self, believes⟩
      (reaching reached) req q m)
    obtain ⟨hok, hkept⟩ := ask_reaching req q self believes reached m
    refine ⟨?_, fun n hn => ?_⟩
    · rw [List.foldl_cons, hindex, List.countP_cons]
      simp only [requestEachNode, hok, decide_eq_true_eq]
      split <;> omega
    · rw [List.foldl_cons, hnodes n hn]
      by_cases hm : n = m
      · subst hm
        simpa [requestEachNode] using hkept hn
      · simp [requestEachNode, hm]

/-- Half of the other nodes apply the update, and the answer of `b` makes it a majority. -/
theorem not_ackHeld (sub : MasterSubdomain) (hb : b ∈ sub.ids) (hself : b ≠ self)
    (hbelieves : believes b = true) : ¬ AckHeld self believes sub.ids := by
  intro hack
  let half := (sub.ids.erase b).take (sub.ids.length / 2)
  let req : SyncReq := ⟨0, 0, 1, true, []⟩
  have hhalf : half.length = sub.ids.length / 2 := by
    have hlen : (sub.ids.erase b).length = sub.ids.length - 1 := List.length_erase_of_mem hb
    have hpos : 0 < sub.ids.length := List.length_pos_of_mem hb
    rw [List.length_take]
    omega
  have hreached : half.length + 1 ≤ sub.ids.countP fun n => decide (n ∈ b :: half) := by
    have hsub : (b :: half).Subperm sub.ids :=
      ((List.take_sublist _ _).cons_cons b).subperm.trans (List.perm_cons_erase hb).symm.subperm
    have hall : (b :: half).countP (fun n => decide (n ∈ b :: half)) = (b :: half).length :=
      List.countP_eq_length.mpr fun n hn => decide_eq_true hn
    rw [List.length_cons] at hall
    exact hall ▸ hsub.countP_le _
  let q := sub.ids.foldl (requestEachNode ⟨plainConfig, self, believes⟩ (reaching (b :: half)) req)
    ⟨fun _ => emptyNode, 0, 0⟩
  have hindex : q.index = 0 + _ := (foldl_reaching req _ sub.ids).1
  have hmax : q.max = 0 + _ := foldl_max _ req _ sub.ids
  have hheld : sub.ids.countP (fun n => decide ((q.nodes n).Holds req)) ≤ half.length := by
    rw [List.countP_eq_length_filter]
    refine (List.Nodup.subperm (sub.nodup.filter _) fun n hn => ?_).length_le
    have hholds := of_decide_eq_true (List.mem_filter.mp hn).2
    by_contra hout
    have hquiet : n ∉ b :: half ∨ n ≠ self ∧ believes n = true := by
      by_cases hnb : n = b
      · exact .inr (hnb ▸ ⟨hself, hbelieves⟩)
      · exact .inl (List.not_mem_cons_of_ne_of_not_mem hnb hout)
    have hkept : q.nodes n = emptyNode := (foldl_reaching req _ sub.ids).2 n hquiet
    rw [hkept] at hholds
    cases hholds.applied
  have hrun : requestMaster ⟨plainConfig, self, believes⟩ (reaching (b :: half)) true 1 1 sub.ids
      0 0 [] (fun _ => emptyNode) = (.ok, q.nodes) := by
    refine if_neg fun hfew => ?_
    have hle : q.index ≤ q.max / 2 := hfew.1
    omega
  have hmajority := hack plainConfig (reaching (b :: half)) true 1 1 0 0 [] (fun _ => emptyNode) _
    rfl rfl rfl (by rw [hrun])
  rw [hrun] at hmajority
  have hlt : sub.ids.length < 2 * sub.ids.countP fun n => decide ((q.nodes n).Holds req) :=
    hmajority
  omega

end Reaching

end SyncDomain

end ClusterZfs

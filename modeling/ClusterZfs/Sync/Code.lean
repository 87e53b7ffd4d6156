import Mathlib.Algebra.Group.Nat.Defs
import Mathlib.Logic.Function.Basic

/-! The object store that the nodes of a cluster keep in step: the master gives every update of an
object the next step of that object and hands it to the nodes of its sub-domain. -/
namespace ClusterZfs

/- `cm_sync_obj_info_t`. -/
structure SyncReq where
  objId : Nat
  dataId : Nat
  step : Nat
  isDelete : Bool
  data : List UInt8
  deriving DecidableEq

/- `cm_sync_config_t`: the bits of `mask` that are read here, and which callbacks there are. -/
structure SyncConfig where
  realTimeOnly : Bool
  always : Bool
  hasRequest : Bool
  hasDelete : Bool

/- A row of `record_t` is the step of a data id of an object and whether it was deleted; `applied`
are the updates that the callbacks of their objects have carried out. -/
structure SyncNode where
  steps : Nat → Nat
  record : Nat → Nat → Option (Nat × Bool)
  applied : List SyncReq

inductive SyncRet where
  | ok
  | fail
  deriving DecidableEq

/- Whether there is memory and room in the queue, and whether the callback succeeds. -/
structure SyncEnv where
  malloc : Bool
  queue : Bool
  cbk : Bool

namespace SyncNode

variable (cfg : Nat → Option SyncConfig) (env : SyncEnv) (req : SyncReq) (s : SyncNode)

/- The row and the step that `cm_sync_request_local` leaves for an update that was applied. -/
def written (c : SyncConfig) : SyncNode :=
  if c.realTimeOnly then { s with applied := req :: s.applied }
  else
    { applied := req :: s.applied
      record := Function.update s.record req.objId
        (Function.update (s.record req.objId) req.dataId (some (req.step, req.isDelete)))
      steps := Function.update s.steps req.objId req.step }

/- `cm_sync_request_local`. -/
def requestLocal : SyncRet × SyncNode :=
  match cfg req.objId with
  | none => (.fail, s)
  | some c =>
    if (if req.isDelete then c.hasDelete else c.hasRequest) ∧ env.cbk then (.ok, s.written req c)
    else (.fail, s)

/- `cm_sync_cbk_cmt_request`, at a node that may take itself for the sub-master. -/
def cbkCmtRequest (isSubmaster inMasterSubdomain : Bool) : SyncRet × SyncNode :=
  if ¬ env.malloc then (.fail, s)
  else if ¬ isSubmaster then s.requestLocal cfg env req
  else if inMasterSubdomain then (.ok, s)
  else if env.queue then (.ok, s)
  else (.fail, s)

theorem requestLocal_cases : s.requestLocal cfg env req = (.fail, s) ∨
    ∃ c, cfg req.objId = some c ∧ s.requestLocal cfg env req = (.ok, s.written req c) := by
  unfold requestLocal
  cases hc : cfg req.objId with
  | none => exact .inl rfl
  | some c =>
    by_cases hok : (if req.isDelete then c.hasDelete else c.hasRequest) ∧ env.cbk
    · exact .inr ⟨c, rfl, if_pos hok⟩
    · exact .inl (if_neg hok)

/- The node has carried the update out, and its row and its step say so. -/
structure Holds : Prop where
  applied : req ∈ s.applied
  row : s.record req.objId req.dataId = some (req.step, req.isDelete)
  step : s.steps req.objId = req.step

instance : Decidable (s.Holds req) :=
  decidable_of_iff (req ∈ s.applied ∧
      s.record req.objId req.dataId = some (req.step, req.isDelete) ∧ s.steps req.objId = req.step)
    ⟨fun h => ⟨h.1, h.2.1, h.2.2⟩, fun h => ⟨h.applied, h.row, h.step⟩⟩

theorem written_holds {c : SyncConfig} (h : c.realTimeOnly = false) :
    (s.written req c).Holds req := by
  rw [written, h, if_neg Bool.false_ne_true]
  exact ⟨List.mem_cons_self, by simp, by simp⟩

section

variable (hcfg : ∀ c, cfg req.objId = some c → c.realTimeOnly = false)
include hcfg

theorem requestLocal_holds (h : (s.requestLocal cfg env req).1 = .ok) :
    (s.requestLocal cfg env req).2.Holds req := by
  rcases s.requestLocal_cases cfg env req with hfail | ⟨c, hc, hok⟩
  · rw [hfail] at h
    cases h
  · rw [hok]
    exact s.written_holds req (hcfg c hc)

theorem Holds.requestLocal {s : SyncNode} (h : s.Holds req) :
    (s.requestLocal cfg env req).2.Holds req := by
  rcases s.requestLocal_cases cfg env req with hfail | ⟨c, hc, hok⟩
  · rw [hfail]
    exact h
  · rw [hok]
    exact s.written_holds req (hcfg c hc)

end

end SyncNode

end ClusterZfs

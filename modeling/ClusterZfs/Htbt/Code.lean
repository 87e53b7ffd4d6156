import ClusterZfs.Lib.Loop
import Mathlib.Algebra.Group.Nat.Defs

/-! The heartbeat of the cluster manager: a node of a subdomain elects a master among the nodes it
hears of. Alarms and the node states kept by the node module are left out. -/
namespace ClusterZfs

def cmNodeIdNone : Nat := 0
def cmHtbtSubdomainNodeMax : Nat := 32
def cmHtbtStableNum : Nat := 5
def cmHtbtLonelyNum : Nat := 3
def cmHtbtOfflineNum : Nat := 20

inductive HtbtState where
  | lonely
  | select
  | stable
  deriving DecidableEq, Repr

inductive HtbtNodeState where
  | unknow
  | online
  | offline
  deriving DecidableEq, Repr

/- `cm_htbt_local_info_t`, which is also the heartbeat message. -/
structure HtbtLocalInfo where
  id : Nat
  subDomainId : Nat
  subMasterId : Nat
  state : HtbtState
  upTime : Int
  healthIndex : Nat
  duration : Nat
  deriving DecidableEq

structure HtbtNode where
  id : Nat
  state : HtbtNodeState
  lostCnt : Nat
  deriving DecidableEq

structure HtbtSubDomain where
  id : Nat
  subMasterId : Nat
  nodeCnt : Nat
  node : Nat → HtbtNode

/- What `pmaster` points to: the node's own info or a record of the node list. -/
inductive HtbtPtr where
  | localInfo
  | record (p : Nat)
  deriving DecidableEq

/- `pnodeList` gives the record that the list has for a node id; records are never freed. The
functions `recv_func` and `check_func` are named by the state they are for. -/
structure Htbt where
  localInfo : HtbtLocalInfo
  subdomain : HtbtSubDomain
  pnodeList : Nat → Option Nat
  records : Nat → HtbtLocalInfo
  nextRecord : Nat
  pmaster : Option HtbtPtr
  recvFunc : HtbtState
  checkFunc : HtbtState
  lostCnt : Nat
  checkCnt : Nat

def inc32 (x : Nat) : Nat := (x + 1) % 2 ^ 32
def dec32 (x : Nat) : Nat := (x + 2 ^ 32 - 1) % 2 ^ 32

namespace HtbtNode

def heard (nd : HtbtNode) : HtbtNode := { nd with lostCnt := 0, state := .online }
def missed (nd : HtbtNode) : HtbtNode := { nd with lostCnt := inc32 nd.lostCnt }
def gone (nd : HtbtNode) : HtbtNode := { nd with state := .offline }

end HtbtNode

namespace HtbtSubDomain

def zero : HtbtSubDomain := ⟨0, 0, 0, fun _ => ⟨0, .unknow, 0⟩⟩

/- The first entry with this id; the id `NONE` finds a free one. -/
def getinfo (sd : HtbtSubDomain) (id : Nat) : Option Nat :=
  (List.range cmHtbtSubdomainNodeMax).find? fun i => (sd.node i).id == id

def setNode (sd : HtbtSubDomain) (i : Nat) (nd : HtbtNode) : HtbtSubDomain :=
  { sd with node := Function.update sd.node i nd }

/- A node in the first free entry, if there is one. -/
def addFree (sd : HtbtSubDomain) (nd : HtbtNode) : HtbtSubDomain :=
  match sd.getinfo cmNodeIdNone with
  | none => sd
  | some i => { sd.setNode i nd with nodeCnt := sd.nodeCnt + 1 }

/- `cm_htbt_init_nodes` for each node of the subdomain. -/
def initNodes (self : Nat) : List Nat → HtbtSubDomain → HtbtSubDomain
  | [], sd => sd
  | id :: ids, sd =>
    let sd := sd.setNode sd.nodeCnt ⟨id, if id = self then .online else .unknow, 0⟩
    initNodes self ids { sd with nodeCnt := sd.nodeCnt + 1 }

end HtbtSubDomain

namespace Htbt

variable (g : Htbt)

def deref : HtbtPtr → HtbtLocalInfo
  | .localInfo => g.localInfo
  | .record p => g.records p

def masterUpdate (masterNid : Nat) : Htbt :=
  { g with
    checkCnt := 0
    localInfo := { g.localInfo with subMasterId := masterNid }
    subdomain := { g.subdomain with subMasterId := masterNid }
    pmaster := some (
      if masterNid = g.localInfo.id then .localInfo
      else match g.pnodeList masterNid with
        | some p => .record p
        | none => .localInfo) }

/- The statements of `cm_htbt_state_enter_lonely`, one after the other. -/
def lonelyStatements : List (Htbt → Htbt) :=
  [fun g => { g with recvFunc := .lonely },
   fun g => { g with checkFunc := .lonely },
   fun g => { g with lostCnt := 0 },
   fun g => { g with checkCnt := 0 },
   fun g => { g with localInfo := { g.localInfo with state := .lonely } },
   fun g => { g with localInfo := { g.localInfo with subMasterId := cmNodeIdNone } },
   fun g => { g with localInfo := { g.localInfo with duration := 0 } },
   fun g => { g with pmaster := none }]

def enterLonely : Htbt := lonelyStatements.foldl (fun g f => f g) g

def enterSelect : Htbt :=
  masterUpdate
    { g with
      recvFunc := .select
      checkFunc := .select
      lostCnt := 0
      checkCnt := 0
      localInfo := { g.localInfo with state := .select } }
    g.localInfo.id

def enterStable : Htbt :=
  { g with
    recvFunc := .stable
    checkFunc := .stable
    lostCnt := 0
    checkCnt := 0
    localInfo := { g.localInfo with state := .stable } }

end Htbt

/- Whether the new one wins: the longer master, then the healthier, then the older, then the one
with the lower id. -/
def cmHtbtMasterPk (old new : HtbtLocalInfo) : Bool :=
  if old.duration > new.duration then false
  else if old.duration < new.duration then true
  else if old.healthIndex > new.healthIndex then false
  else if old.healthIndex < new.healthIndex then true
  else if old.upTime < new.upTime then false
  else if old.upTime > new.upTime then true
  else if old.id < new.id then false
  else true

namespace Htbt

variable (g : Htbt)

/- `cm_htbt_master_pk` against what `pmaster` points to; without a master there is nothing to
compare with, and the pointer would be followed to nowhere. -/
def masterPk (other : HtbtLocalInfo) : Option Bool :=
  g.pmaster.map fun p => cmHtbtMasterPk (g.deref p) other

def recvSelect (other : HtbtLocalInfo) : Option Htbt :=
  let g := { g with lostCnt := 0 }
  if other.id ≠ other.subMasterId then some g
  else (g.masterPk other).map fun wins =>
    if wins then (g.masterUpdate other.id).enterStable else g

def recvStable (other : HtbtLocalInfo) : Option Htbt :=
  let g := { g with lostCnt := 0 }
  if g.localInfo.subMasterId = other.id then
    if other.subMasterId ≠ other.id then some g.enterSelect
    else if other.state = .stable then some g
    else some g.enterSelect
  else if other.state ≠ .stable ∨ other.id ≠ other.subMasterId then some g
  else (g.masterPk other).map fun wins => if wins then g.masterUpdate other.id else g

def recv (other : HtbtLocalInfo) : Option Htbt :=
  match g.recvFunc with
  | .lonely => some (enterSelect { g with lostCnt := 0 })
  | .select => g.recvSelect other
  | .stable => g.recvStable other

/- What a receive depends on besides the message: whether the node module knows the sender, and
whether there is memory for a record, which is then not written. -/
structure RecvEnv where
  known : Bool
  malloc : Bool
  junk : HtbtLocalInfo

def addNewnodeToList (env : RecvEnv) (id : Nat) : Htbt :=
  if env.malloc then
    { g with
      pnodeList := Function.update g.pnodeList id (some g.nextRecord)
      records := Function.update g.records g.nextRecord env.junk
      nextRecord := g.nextRecord + 1 }
  else g

def addNewnode (env : RecvEnv) (id : Nat) : Htbt :=
  match g.subdomain.getinfo cmNodeIdNone with
  | none => g
  | some _ =>
    addNewnodeToList { g with subdomain := g.subdomain.addFree ⟨id, .online, 0⟩ } env id

/- `cm_htbt_recv_local`; the result is empty where a null master would be compared with. -/
def recvLocal (env : RecvEnv) (data : HtbtLocalInfo) : Option Htbt :=
  if data.subDomainId ≠ g.localInfo.subDomainId then some g
  else match g.subdomain.getinfo data.id with
  | none => if env.known then some (g.addNewnode env data.id) else some g
  | some i =>
    let g := { g with subdomain := g.subdomain.setNode i (g.subdomain.node i).heard }
    match g.pnodeList data.id with
    | none => some (g.addNewnodeToList env data.id)
    | some p => recv { g with records := Function.update g.records p data } data

def checkLonely : Htbt := { g with checkCnt := inc32 g.checkCnt, lostCnt := inc32 g.lostCnt }

def checkSelect : Htbt :=
  let g := { g with checkCnt := inc32 g.checkCnt, lostCnt := inc32 g.lostCnt }
  if cmHtbtLonelyNum ≤ g.lostCnt then g.enterLonely
  else if cmHtbtStableNum ≤ g.checkCnt then g.enterStable
  else g

def checkStable : Htbt :=
  let g := { g with checkCnt := inc32 g.checkCnt, lostCnt := inc32 g.lostCnt }
  if cmHtbtLonelyNum ≤ g.lostCnt then g.enterLonely
  else if g.localInfo.id = g.localInfo.subMasterId then
    { g with localInfo := { g.localInfo with duration := inc32 g.localInfo.duration } }
  else { g with localInfo := { g.localInfo with duration := 0 } }

def check : Htbt :=
  match g.checkFunc with
  | .lonely => g.checkLonely
  | .select => g.checkSelect
  | .stable => g.checkStable

/- `cm_htbt_local_check` for the node in entry `i`. -/
def localCheck (i : Nat) : Htbt :=
  let nd := (g.subdomain.node i).missed
  let g := { g with subdomain := g.subdomain.setNode i nd }
  if nd.lostCnt < cmHtbtStableNum then g
  else if nd.id = g.localInfo.subMasterId then g.enterSelect
  else if nd.lostCnt < cmHtbtOfflineNum then g
  else { g with subdomain := g.subdomain.setNode i nd.gone }

/- One turn of the loop of `cm_htbt_local_send`: the heartbeat to the node in entry `i`, if there
is one, and its check. The second part of the state are the heartbeats sent, with their
receivers. -/
def sendTo (i : Nat) (st : Htbt × List (Nat × HtbtLocalInfo)) :
    Htbt × List (Nat × HtbtLocalInfo) :=
  let id := (st.1.subdomain.node i).id
  if id = cmNodeIdNone ∨ id = st.1.localInfo.id then st
  else (st.1.localCheck i, st.2 ++ [(id, st.1.localInfo)])

def localSend : Htbt × List (Nat × HtbtLocalInfo) :=
  forRange 0 cmHtbtSubdomainNodeMax sendTo (g, [])

/- One round of `cm_htbt_thread_send`. -/
def tick : Htbt × List (Nat × HtbtLocalInfo) := g.check.localSend

/- The part of `cm_htbt_add` for the node itself that is under the mutex; `ids` are the nodes of
the subdomain. -/
def addSelf (subdomain : Nat) (now : Int) (ids : List Nat) : Htbt :=
  { g with
    localInfo := { g.localInfo with
      subDomainId := subdomain
      state := .lonely
      subMasterId := cmNodeIdNone
      upTime := now }
    subdomain := HtbtSubDomain.initNodes g.localInfo.id ids
      { HtbtSubDomain.zero with id := subdomain, subMasterId := cmNodeIdNone } }

/- Another node of the same subdomain; `nodeId` is the id that the node module has for it. -/
def addOther (nodeId : Nat) : Htbt :=
  let sd := g.subdomain.addFree ⟨nodeId, .unknow, 0⟩
  let sd := match sd.getinfo g.localInfo.id with
    | some _ => sd
    | none => sd.addFree ⟨g.localInfo.id, .online, 0⟩
  { g with subdomain := sd }

def deleteSelf (subdomain : Nat) : Htbt :=
  enterLonely
    { g with
      localInfo := { g.localInfo with
        subDomainId := subdomain
        state := .lonely
        subMasterId := cmNodeIdNone }
      subdomain := HtbtSubDomain.zero }

def deleteOther (nodeId : Nat) : Htbt :=
  match g.subdomain.getinfo nodeId with
  | none => g
  | some i =>
    let sd := g.subdomain.setNode i ⟨cmNodeIdNone, .unknow, 0⟩
    let g := { g with subdomain := { sd with nodeCnt := dec32 sd.nodeCnt } }
    if nodeId = g.subdomain.subMasterId then g.enterSelect else g

/- The state after `cm_htbt_init`. -/
def init (id subdomain : Nat) (now : Int) (ids : List Nat) : Htbt :=
  enterLonely
    { localInfo := ⟨id, subdomain, cmNodeIdNone, .lonely, now, 0, 0⟩
      subdomain := HtbtSubDomain.initNodes id ids { HtbtSubDomain.zero with id := subdomain }
      pnodeList := fun _ => none
      records := fun _ => ⟨0, 0, 0, .lonely, 0, 0, 0⟩
      nextRecord := 0
      pmaster := none
      recvFunc := .lonely
      checkFunc := .lonely
      lostCnt := 0
      checkCnt := 0 }

end Htbt

end ClusterZfs

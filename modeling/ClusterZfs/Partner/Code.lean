import ClusterZfs.Lib.ChainHash
import ClusterZfs.Lib.Runs
import Mathlib.Algebra.Group.Nat.Defs

/-! The mirror cache of a node: what the partner has mirrored to it and not cleared yet. A dataset
has an aligned cache, with a list of records for each txg, and an unaligned cache, with a list of
records for each block. Datasets and blocks are reached through hashes of truncated keys. The
handlers each hold the lock of the cache they work on, so a handler is one step. -/
namespace ClusterZfs

structure Dataset where
  spaId : Nat
  osId : Nat
deriving DecidableEq

structure Located where
  objectId : Nat
  blkId : Nat
  offset : Nat
deriving DecidableEq

@[irreducible] def locatedKeygen (l : Located) : Nat :=
  ((l.objectId &&& 0xf) <<< 60) ||| ((l.blkId &&& 0xffffffffff) <<< 20) |||
    (l.offset &&& 0xfffff)

@[irreducible] def spaOsKeygen (d : Dataset) : Nat :=
  ((d.spaId &&& 0xffffffffffff) <<< 16) ||| (d.osId &&& 0xffff)

structure MirrorHeader where
  dataset : Dataset
  located : Located
  txg : Nat
  index : Nat
deriving DecidableEq

/- `zfs_mirror_cache_data_t`: a received message, at an address of its own. -/
structure CacheData where
  addr : Nat
  header : MirrorHeader
deriving DecidableEq

structure MirrorTunables where
  aliThreshold : Nat := 30
  aliTimeout : Nat := 240
  unaliThreshold : Nat := 60
  unaliTimeout : Nat := 300
  unaliCheckTimes : Nat := 1
  spaOsTimeout : Nat := 120

/- The difference of two `uint64_t` times. -/
def deltaTime (cur active : Nat) : Nat := (cur + 2 ^ 64 - active) % 2 ^ 64

/- `mirror_cache_txg_list_t`. -/
structure TxgList where
  dataset : Dataset
  txg : Nat
  activeTime : Nat
  records : List CacheData

structure AlignedCache where
  objs : Nat → TxgList
  next : Nat
  listTxg : List Nat
  listTime : List Nat

namespace AlignedCache

def create : AlignedCache := ⟨fun _ => ⟨⟨0, 0⟩, 0, 0, []⟩, 0, [], []⟩

def modify (c : AlignedCache) (p : Nat) (f : TxgList → TxgList) : AlignedCache :=
  { c with objs := fun q => if q = p then f (c.objs q) else c.objs q }

/- The list is given from its tail on. -/
def insertTxgSortFromTail (txg : Nat → Nat) (p : Nat) : List Nat → List Nat
  | [] => [p]
  | cur :: before =>
    if txg cur ≤ txg p then p :: cur :: before
    else cur :: insertTxgSortFromTail txg p before

/- `mirror_cache_list_insert_txg_sort`. -/
def insertTxgSort (txg : Nat → Nat) (l : List Nat) (p : Nat) : List Nat :=
  (insertTxgSortFromTail txg p l.reverse).reverse

/- The entry leaves both lists. -/
def remove (c : AlignedCache) (p : Nat) : AlignedCache :=
  { c with listTxg := c.listTxg.erase p, listTime := c.listTime.erase p }

def toTail (c : AlignedCache) (p : Nat) : AlignedCache :=
  { c with listTime := c.listTime.erase p ++ [p] }

def alloc (c : AlignedCache) (e : TxgList) : Nat → TxgList :=
  fun q => if q = c.next then e else c.objs q

/- A new entry is the last one of the time list. -/
def insert (c : AlignedCache) (e : TxgList) : AlignedCache :=
  { objs := c.alloc e
    next := c.next + 1
    listTime := c.listTime ++ [c.next]
    listTxg := insertTxgSort (fun q => (c.alloc e q).txg) c.listTxg c.next }

/- `zfs_mirror_aligned_handle` on the held cache. -/
def handle (c : AlignedCache) (now : Nat) (r : CacheData) : AlignedCache :=
  match c.listTxg.find? fun p => decide ((c.objs p).txg = r.header.txg) with
  | none => c.insert ⟨r.header.dataset, r.header.txg, now, [r]⟩
  | some p =>
    (c.modify p fun e => { e with activeTime := now, records := e.records ++ [r] }).toTail p

/- The loop of `zfs_mirror_clean_cache_list`. -/
def cleanLoop (t : Nat) : List Nat → AlignedCache → AlignedCache
  | [], c => c
  | p :: rest, c => if t < (c.objs p).txg then c else cleanLoop t rest (c.remove p)

def clean (c : AlignedCache) (t : Nat) : AlignedCache := cleanLoop t c.listTxg c

/- The loop of `zfs_mirror_clean_aligned_cb` on one cache. The entries it puts back at the tail
carry the present time, so the walk ends there at the latest. -/
def cleanSyncedLoop (tun : MirrorTunables) (now t : Nat) : List Nat → AlignedCache → AlignedCache
  | [], c => c
  | p :: rest, c =>
    if now ≤ (c.objs p).activeTime ∨ deltaTime now (c.objs p).activeTime < tun.aliThreshold then c
    else if t < (c.objs p).txg then
      cleanSyncedLoop tun now t rest
        ((c.modify p fun e => { e with activeTime := now }).toTail p)
    else cleanSyncedLoop tun now t rest (c.remove p)

def cleanSynced (c : AlignedCache) (tun : MirrorTunables) (now t : Nat) : AlignedCache :=
  cleanSyncedLoop tun now t c.listTime c

/- The loop of `zfs_mirror_aligned_expired_cb` on one cache, with the pool that its host is to be
asked about. -/
def expireLoop (tun : MirrorTunables) (now : Nat) :
    List Nat → AlignedCache → AlignedCache × Option Nat
  | [], c => (c, none)
  | p :: rest, c =>
    if now < (c.objs p).activeTime then (c, none)
    else if deltaTime now (c.objs p).activeTime < tun.aliThreshold then (c, none)
    else if tun.aliTimeout < deltaTime now (c.objs p).activeTime then
      expireLoop tun now rest (c.remove p)
    else (c, some (c.objs p).dataset.spaId)

def expire (c : AlignedCache) (tun : MirrorTunables) (now : Nat) : AlignedCache × Option Nat :=
  expireLoop tun now c.listTime c

end AlignedCache

/- `zfs_mirror_nonali_hash_t`. Its hash key is computed once from the located block, which never
changes. -/
structure NonaliHash where
  dataset : Dataset
  located : Located
  activeTime : Nat
  checkTimes : Nat
  records : List CacheData
deriving DecidableEq

/- Only the first record with the index leaves the block. -/
def NonaliHash.eraseIndex (b : NonaliHash) (index : Nat) : NonaliHash :=
  { b with records := b.records.eraseP fun r => decide (r.header.index = index) }

structure UnalignedCache where
  hash : ChainHash NonaliHash
  listTime : List Nat

/- `os_mirror_blkptr_node_t`: its pool and dataset are asserted to be those of the message. -/
structure BlkptrNode where
  located : Located
  index : Nat
deriving DecidableEq

inductive NonaliState where
  | none
  | active
deriving DecidableEq

structure UnaliState where
  dataset : Dataset
  located : Located
  state : NonaliState
deriving DecidableEq

def wdCheckNonaliN : Nat := 10000

namespace UnalignedCache

def create : UnalignedCache := ⟨.empty ⟨⟨0, 0⟩, ⟨0, 0, 0⟩, 0, 0, []⟩, []⟩

/- The first block of the chain with that location. -/
def search (c : UnalignedCache) (l : Located) : Option Nat :=
  c.hash.find NonaliHash.located locatedKeygen l

def modify (c : UnalignedCache) (p : Nat) (f : NonaliHash → NonaliHash) : UnalignedCache :=
  { c with hash := c.hash.modify p f }

def toTail (c : UnalignedCache) (p : Nat) : UnalignedCache :=
  { c with listTime := c.listTime.erase p ++ [p] }

def findHash (c : UnalignedCache) (l : Located) : UnalignedCache × Option Nat :=
  ({ c with hash := c.hash.dropIfEmpty (locatedKeygen l) }, c.search l)

def createHashMember (r : CacheData) : NonaliHash :=
  ⟨r.header.dataset, r.header.located, 0, 0, [r]⟩

def insertHash (c : UnalignedCache) (now : Nat) (b : NonaliHash) : UnalignedCache :=
  { hash := c.hash.insert (locatedKeygen b.located) { b with activeTime := now }
    listTime := c.listTime ++ [c.hash.next] }

/- `zfs_mirror_unaligned_handle` on the held cache. -/
def handle (c : UnalignedCache) (now : Nat) (r : CacheData) : UnalignedCache :=
  match c.findHash r.header.located with
  | (c, none) => c.insertHash now (createHashMember r)
  | (c, some p) =>
    (c.modify p fun b => { b with records := b.records ++ [r], activeTime := now }).toTail p

/- The block leaves the time list and the chain of `k`, and an empty chain leaves the hash. -/
def unlink (c : UnalignedCache) (k p : Nat) : UnalignedCache :=
  { hash := c.hash.unlink k p, listTime := c.listTime.erase p }

def cleanHashBlk (c : UnalignedCache) (n : BlkptrNode) : UnalignedCache :=
  let k := locatedKeygen n.located
  match c.search n.located with
  | none => { c with hash := c.hash.dropIfEmpty k }
  | some p =>
    let c := c.modify p fun b => b.eraseIndex n.index
    if (c.hash.objs p).records = [] then c.unlink k p
    else { c with hash := c.hash.dropIfEmpty k }

/- `zfs_mirror_clean_unaligned_cache_list`. -/
def clean (c : UnalignedCache) (nodes : List BlkptrNode) : UnalignedCache :=
  nodes.foldl cleanHashBlk c

/- Only a block that is in the chain of its key leaves. -/
def removeUnaligned (c : UnalignedCache) (p : Nat) : UnalignedCache :=
  let k := locatedKeygen (c.hash.objs p).located
  match c.hash.chains k with
  | none => c
  | some l => if p ∈ l then c.unlink k p else { c with hash := c.hash.dropIfEmpty k }

/- The loop of `zfs_mirror_unaligned_expired_handle` on one cache; `cnt` blocks are asked about so
far. -/
def expireLoop (tun : MirrorTunables) (now : Nat) :
    List Nat → Nat → UnalignedCache → UnalignedCache
  | [], _, c => c
  | p :: rest, cnt, c =>
    let delta := deltaTime now (c.hash.objs p).activeTime
    if delta < tun.unaliThreshold then c
    else if tun.unaliTimeout < delta ∧ tun.unaliCheckTimes ≤ (c.hash.objs p).checkTimes then
      expireLoop tun now rest cnt (c.removeUnaligned p)
    else if tun.unaliThreshold < delta then
      let c := c.modify p fun b => { b with checkTimes := b.checkTimes + 1 }
      if wdCheckNonaliN ≤ cnt + 1 then c else expireLoop tun now rest (cnt + 1) c
    else expireLoop tun now rest cnt c

def expire (c : UnalignedCache) (tun : MirrorTunables) (now : Nat) : UnalignedCache :=
  expireLoop tun now c.listTime 0 c

/- One entry of `zfs_mirror_handle_unaligned_actived`. -/
def activedOne (tun : MirrorTunables) (now : Nat) (c : UnalignedCache) (e : UnaliState) :
    UnalignedCache :=
  match c.search e.located with
  | none => c
  | some p =>
    let c := c.modify p fun b => { b with checkTimes := 0 }
    let active := (c.hash.objs p).activeTime
    if now ≤ active ∨ deltaTime now active ≤ tun.unaliThreshold then c
    else
      match e.state with
      | .active => (c.modify p fun b => { b with activeTime := now }).toTail p
      | .none => c.unlink (locatedKeygen e.located) p

def actived (c : UnalignedCache) (tun : MirrorTunables) (now : Nat) (es : List UnaliState) :
    UnalignedCache :=
  es.foldl (activedOne tun now) c

end UnalignedCache

structure SpaOs where
  dataset : Dataset
  remoteHostid : Nat
  activeTime : Nat
  aligned : Option AlignedCache
  unaligned : Option UnalignedCache

structure SpaHost where
  spaHostid : Nat
  spaGuids : List Nat

structure ReplySyncedTxg where
  spaGuid : Nat
  txg : Nat

def wdCheckGuidN : Nat := 64
def spsOsCntMax : Nat := 1024

/- `arrivals` counts the messages received, and gives the next record its address. -/
structure PartnerCache where
  spaOs : ChainHash SpaOs
  arrivals : Nat

namespace PartnerCache

def start : PartnerCache := ⟨.empty ⟨⟨0, 0⟩, 0, 0, none, none⟩, 0⟩

/- `zfs_mirror_get_spa_os` without ZFS_MIRROR_HOLD_CREATE. -/
def getSpaOs (s : PartnerCache) (d : Dataset) : Option Nat :=
  s.spaOs.find SpaOs.dataset spaOsKeygen d

/- `zfs_mirror_get_spa_os` with ZFS_MIRROR_HOLD_CREATE. -/
def createSpaOs (s : PartnerCache) (d : Dataset) (now hostid : Nat) : PartnerCache × Nat :=
  match s.getSpaOs d with
  | none =>
    ({ s with spaOs := s.spaOs.insert (spaOsKeygen d) ⟨d, hostid, now, none, none⟩ },
      s.spaOs.next)
  | some p =>
    ({ s with spaOs := s.spaOs.modify p fun o =>
        { o with activeTime := now, remoteHostid := hostid } }, p)

def holdAlignedCache (s : PartnerCache) (d : Dataset) : Option AlignedCache :=
  (s.getSpaOs d).bind fun p => (s.spaOs.objs p).aligned

def holdUnalignedCache (s : PartnerCache) (d : Dataset) : Option UnalignedCache :=
  (s.getSpaOs d).bind fun p => (s.spaOs.objs p).unaligned

def modifyAligned (s : PartnerCache) (p : Nat) (f : AlignedCache → AlignedCache) : PartnerCache :=
  { s with spaOs := s.spaOs.modify p fun o => { o with aligned := o.aligned.map f } }

def modifyUnaligned (s : PartnerCache) (p : Nat) (f : UnalignedCache → UnalignedCache) :
    PartnerCache :=
  { s with spaOs := s.spaOs.modify p fun o => { o with unaligned := o.unaligned.map f } }

def alignedHandle (s : PartnerCache) (now hostid : Nat) (h : MirrorHeader) : PartnerCache :=
  match s.createSpaOs h.dataset now hostid with
  | (s, p) =>
    { spaOs := s.spaOs.modify p fun o =>
        { o with aligned := some ((o.aligned.getD .create).handle now ⟨s.arrivals, h⟩) }
      arrivals := s.arrivals + 1 }

def unalignedHandle (s : PartnerCache) (now hostid : Nat) (h : MirrorHeader) : PartnerCache :=
  match s.createSpaOs h.dataset now hostid with
  | (s, p) =>
    { spaOs := s.spaOs.modify p fun o =>
        { o with unaligned := some ((o.unaligned.getD .create).handle now ⟨s.arrivals, h⟩) }
      arrivals := s.arrivals + 1 }

def cleanCacheList (s : PartnerCache) (d : Dataset) (t : Nat) : PartnerCache :=
  match s.getSpaOs d with
  | none => s
  | some p => s.modifyAligned p fun c => c.clean t

def cleanUnalignedCacheList (s : PartnerCache) (d : Dataset) (nodes : List BlkptrNode) :
    PartnerCache :=
  match s.getSpaOs d with
  | none => s
  | some p => s.modifyUnaligned p fun c => c.clean nodes

/- The entries that `mod_hash_walk` comes to. The hash decides the order of the chains; here it is
given. -/
def walk (s : PartnerCache) (order : List Nat) : List Nat :=
  order.flatMap fun k => (s.spaOs.chains k).getD []

/- `zfs_mirror_clean_aligned_cb` for one dataset. -/
def cleanAlignedOne (tun : MirrorTunables) (now : Nat) (reply : List ReplySyncedTxg)
    (s : PartnerCache) (p : Nat) : PartnerCache :=
  match reply.find? fun e => decide ((s.spaOs.objs p).dataset.spaId = e.spaGuid) with
  | none => s
  | some e => s.modifyAligned p fun c => c.cleanSynced tun now e.txg

def cleanSpaAligned (s : PartnerCache) (tun : MirrorTunables) (now : Nat) (order : List Nat)
    (reply : List ReplySyncedTxg) : PartnerCache :=
  (s.walk order).foldl (cleanAlignedOne tun now reply) s

/- `zfs_mirror_handle_unaligned_actived`: the first entry gives the dataset of all. -/
def handleUnalignedActived (s : PartnerCache) (tun : MirrorTunables) (now : Nat) :
    List UnaliState → PartnerCache
  | [] => s
  | e :: es =>
    match s.getSpaOs e.dataset with
    | none => s
    | some p => s.modifyUnaligned p fun c => c.actived tun now (e :: es)

/- The pool is added to those that its host is asked about, and the table of a host may be full. -/
def askHost (hostid guid : Nat) : List SpaHost → List SpaHost × Bool
  | [] => ([⟨hostid, [guid]⟩], decide (wdCheckGuidN = 1))
  | h :: hosts =>
    if h.spaHostid = hostid then
      if guid ∈ h.spaGuids then (h :: hosts, false)
      else (⟨hostid, h.spaGuids ++ [guid]⟩ :: hosts,
        decide (h.spaGuids.length + 1 = wdCheckGuidN))
    else
      match askHost hostid guid hosts with
      | (hosts, full) => (h :: hosts, full)

/- `zfs_mirror_aligned_expired_cb` over the datasets of the walk. -/
def alignedExpiredLoop (tun : MirrorTunables) (now : Nat) :
    List Nat → List SpaHost → PartnerCache → PartnerCache
  | [], _, s => s
  | p :: rest, hosts, s =>
    match (s.spaOs.objs p).aligned with
    | none => alignedExpiredLoop tun now rest hosts s
    | some c =>
      let s' := s.modifyAligned p fun c => (c.expire tun now).1
      match (c.expire tun now).2 with
      | none => alignedExpiredLoop tun now rest hosts s'
      | some guid =>
        match askHost (s.spaOs.objs p).remoteHostid guid hosts with
        | (hosts, full) => if full then s' else alignedExpiredLoop tun now rest hosts s'

def alignedExpiredHandle (s : PartnerCache) (tun : MirrorTunables) (now : Nat)
    (order : List Nat) : PartnerCache :=
  alignedExpiredLoop tun now (s.walk order) [] s

def unalignedExpiredOne (tun : MirrorTunables) (now : Nat) (s : PartnerCache) (d : Dataset) :
    PartnerCache :=
  match s.getSpaOs d with
  | none => s
  | some p => s.modifyUnaligned p fun c => c.expire tun now

/- The walk collects at most `spsOsCntMax` datasets. -/
def unalignedExpiredHandle (s : PartnerCache) (tun : MirrorTunables) (now : Nat)
    (order : List Nat) : PartnerCache :=
  (((s.walk order).take spsOsCntMax).map fun p => (s.spaOs.objs p).dataset).foldl
    (unalignedExpiredOne tun now) s

def isSpaOsEmpty (o : SpaOs) : Bool :=
  (o.aligned.all fun c => c.listTime.isEmpty) && (o.unaligned.all fun c => c.listTime.isEmpty)

def dropSpaOs (s : PartnerCache) (p : Nat) : PartnerCache :=
  { s with spaOs := s.spaOs.unlink (spaOsKeygen (s.spaOs.objs p).dataset) p }

def spaOsExpiredOne (tun : MirrorTunables) (now : Nat) (s : PartnerCache) (p : Nat) :
    PartnerCache :=
  let o := s.spaOs.objs p
  if o.activeTime < now ∧ tun.spaOsTimeout < now - o.activeTime ∧ isSpaOsEmpty o = true then
    s.dropSpaOs p
  else s

def spaOsExpiredHandle (s : PartnerCache) (tun : MirrorTunables) (now : Nat)
    (order : List Nat) : PartnerCache :=
  (s.walk order).foldl (spaOsExpiredOne tun now) s

end PartnerCache

inductive PartnerAction where
  | data (now hostid : Nat) (h : MirrorHeader)
  | dataUnaligned (now hostid : Nat) (h : MirrorHeader)
  | clearAligned (d : Dataset) (txg : Nat)
  | clearNonaligned (d : Dataset) (nodes : List BlkptrNode)
  | replyLastSyncedTxg (now : Nat) (order : List Nat) (reply : List ReplySyncedTxg)
  | replyNonalignedActive (now : Nat) (states : List UnaliState)
  | alignedExpired (now : Nat) (order : List Nat)
  | unalignedExpired (now : Nat) (order : List Nat)
  | spaOsExpired (now : Nat) (order : List Nat)

namespace PartnerCache

def step (tun : MirrorTunables) (s : PartnerCache) : PartnerAction → Option PartnerCache
  | .data now hostid h => some (s.alignedHandle now hostid h)
  | .dataUnaligned now hostid h => some (s.unalignedHandle now hostid h)
  | .clearAligned d txg => some (s.cleanCacheList d txg)
  | .clearNonaligned d nodes => some (s.cleanUnalignedCacheList d nodes)
  | .replyLastSyncedTxg now order reply => some (s.cleanSpaAligned tun now order reply)
  | .replyNonalignedActive now states => some (s.handleUnalignedActived tun now states)
  | .alignedExpired now order => some (s.alignedExpiredHandle tun now order)
  | .unalignedExpired now order => some (s.unalignedExpiredHandle tun now order)
  | .spaOsExpired now order => some (s.spaOsExpiredHandle tun now order)

end PartnerCache

end ClusterZfs

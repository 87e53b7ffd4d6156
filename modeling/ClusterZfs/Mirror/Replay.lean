import ClusterZfs.Lib.Overlay
import Mathlib.Data.List.Sort

/-! The replay of the mirror caches after a failover: the records are taken from the caches, sorted
by txg and send time, and written unless the block on disk is newer. -/
namespace ClusterZfs

/- A mirrored write: the header of `zfs_mirror_cache_data_t` and its data. `aligned` is the kind of
cache the message went to. -/
structure MirrorData where
  objectId : Nat
  blkOffset : Nat
  data : List (BitVec 8)
  txg : Nat
  txTime : Nat
  aligned : Bool
  deriving DecidableEq

namespace MirrorData

/- The bytes of the object that the write covers. -/
def overlay (d : MirrorData) : Overlay (Nat × Nat) (BitVec 8) := fun k =>
  if k.1 = d.objectId ∧ d.blkOffset ≤ k.2 then d.data[k.2 - d.blkOffset]? else none

/- The block that `dmu_buf_hold` finds for the offset. -/
def block (blksz : Nat → Nat) (d : MirrorData) : Nat × Nat :=
  (d.objectId, d.blkOffset / blksz d.objectId)

/- `a` is put behind `b` in the list of records. -/
def Behind (a b : MirrorData) : Prop :=
  a.txg > b.txg ∨ (a.txg = b.txg ∧ a.txTime ≥ b.txTime)

instance : DecidableRel Behind := fun a b => by unfold Behind; infer_instance

instance : IsTrans MirrorData Behind where
  trans a b c hab hbc := by
    unfold Behind at *
    omega

instance : Std.Total Behind where
  total a b := by
    unfold Behind
    omega

end MirrorData

/- The walk of `zil_insert_data_record_list_by_sort` starts at the tail. -/
def zilInsertDataRecordListBySort (osZilList : List MirrorData) (d : MirrorData) :
    List MirrorData :=
  (osZilList.reverse.orderedInsert MirrorData.Behind d).reverse

/- The caches of the partner: the aligned lists by txg, the unaligned ones by block. -/
structure MirrorCaches where
  alignedListTxg : List (Nat × List MirrorData)
  unalignedListTime : List (List MirrorData)

def zfsMirrorGetAlignBuf (firstTxg : Nat) (c : MirrorCaches) (osZilList : List MirrorData) :
    List MirrorData :=
  c.alignedListTxg.foldl (fun list txgList =>
    if txgList.1 < firstTxg then list
    else txgList.2.foldl zilInsertDataRecordListBySort list) osZilList

def zfsMirrorGetAllUnalignBuf (c : MirrorCaches) (osZilList : List MirrorData) : List MirrorData :=
  c.unalignedListTime.foldl (fun list hashBlk =>
    hashBlk.foldl zilInsertDataRecordListBySort list) osZilList

def zfsMirrorGetAllBuf (firstTxg : Nat) (c : MirrorCaches) : List MirrorData :=
  zfsMirrorGetAllUnalignBuf c (zfsMirrorGetAlignBuf firstTxg c [])

/- `none` stands for an error of `dmu_buf_hold`, `some none` for a buffer without a block
pointer. -/
def dmuDataNewer (hold : Option (Option Nat)) (firstTxg dataTxg : Nat) : Bool :=
  match hold with
  | none => true
  | some none => true
  | some (some birthTxg) =>
    if dataTxg < birthTxg then decide (birthTxg > firstTxg) else true

/- The dataset during the replay: its bytes as a reader sees them, the birth of each block on
disk, the blocks that are dirty in a txg, the open txg and the next one to sync. -/
structure ReplayOs where
  bytes : Nat × Nat → BitVec 8
  birth : Nat × Nat → Option Nat
  dirty : Nat → Nat × Nat → Bool
  openTxg : Nat
  syncTxg : Nat

inductive TxgAction where
  | openNext
  | syncNext

def ReplayOs.txgStep (os : ReplayOs) : TxgAction → ReplayOs
  | .openNext => { os with openTxg := os.openTxg + 1 }
  | .syncNext =>
    if os.syncTxg < os.openTxg then
      { os with
        birth := fun blk => if os.dirty os.syncTxg blk then some os.syncTxg else os.birth blk
        syncTxg := os.syncTxg + 1 }
    else os

def ReplayOs.txgSteps (os : ReplayOs) (as : List TxgAction) : ReplayOs := as.foldl txgStep os

/- What happens around the replay of one record: txgs open and sync before the birth is read and
again before the transaction is assigned, and both calls can fail. -/
structure Turn where
  before : List TxgAction
  holdError : Bool
  between : List TxgAction
  assignError : Bool

def zvolReplayRawdata (blksz : Nat → Nat) (os : ReplayOs) (d : MirrorData) (assignError : Bool) :
    ReplayOs :=
  if assignError ∨ d.data = [] then os
  else
    { os with
      bytes := d.overlay.apply os.bytes
      dirty := fun t blk => (t == os.openTxg && blk == d.block blksz) || os.dirty t blk }

def zfsReplayCacheData (blksz : Nat → Nat) (firstTxg : Nat) (turn : Turn) (os : ReplayOs)
    (d : MirrorData) : ReplayOs :=
  let held := os.txgSteps turn.before
  let newer := dmuDataNewer (if turn.holdError then none else some (held.birth (d.block blksz)))
    firstTxg d.txg
  let os := held.txgSteps turn.between
  if newer then zvolReplayRawdata blksz os d turn.assignError else os

def zilReplayAllData (blksz : Nat → Nat) (firstTxg : Nat) (turns : Nat → Turn) :
    List MirrorData → ReplayOs → ReplayOs
  | [], os => os
  | d :: rest, os =>
    zilReplayAllData blksz firstTxg (fun k => turns (k + 1)) rest
      (zfsReplayCacheData blksz firstTxg (turns 0) os d)

end ClusterZfs

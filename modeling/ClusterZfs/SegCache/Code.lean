import ClusterZfs.Lib.Overlay
import Mathlib.Data.UInt
import Mathlib.Algebra.BigOperators.Group.List.Basic

/-! Partial writes that are kept beside their block. A mirrored partial write hangs on its dbuf as a
segment, and the dbuf on the list of the record worker. A read merges the segments into the dbuf
and queues a copy of the whole block for the data worker, which writes it back. Operations under
the range lock of the block are one step; the steps of the workers on their lists are their own. -/
namespace ClusterZfs

abbrev Content := Nat → UInt8

/- `dbuf_segs_record_t`: a partial write of the block. -/
structure Seg where
  roffset : Nat
  len : Nat
  data : Content

def Seg.write (seg : Seg) : Overlay Nat UInt8 := fun k =>
  if seg.roffset ≤ k ∧ k < seg.roffset + seg.len then some (seg.data (k - seg.roffset)) else none

/- `stored` is what the dirty records and the disk have, `data` is `db_data` if it is there;
`dirty` stands for the holds of dirty records. -/
structure SegDbuf where
  data : Option Content
  stored : Content
  dirty : Bool
  hasSegments : Bool
  firstSegmentTxg : Nat
  segsLen : Nat
  segments : List Seg
  segmentsOrder : List Seg
  segList : List Nat

/- `dbuf_segs_data_t`: a copy of a whole block. -/
structure SegCopy where
  db : Nat
  data : Content

/- `taken` is the dbuf that the worker has unlinked and not read yet. -/
structure RecordWorker where
  list : List Nat
  data : UInt64
  taken : Option Nat

/- How far the data worker is with the copy it has unlinked: not tried yet, or `dbuf_rewrite` has
failed, or it is back on the list of its dbuf. -/
inductive Phase where
  | taken
  | failed
  | relinked
  deriving DecidableEq

structure DataWorker where
  list : List Nat
  data : UInt64
  taken : Option (Nat × Phase)

/- `live` are the copies that are allocated. -/
structure SegCache where
  dbs : Nat → SegDbuf
  records : RecordWorker
  rewrites : DataWorker
  copies : Nat → SegCopy
  live : List Nat
  nextCopy : Nat

section Segments

/- `dbuf_seg_insert_by_sort`. -/
def segInsertBySort (seg : Seg) : List Seg → List Seg
  | [] => [seg]
  | head :: rest =>
    if head.roffset > seg.roffset then seg :: head :: rest else head :: segInsertBySort seg rest

/- The loop of `dbuf_check_segs_full`: how much the segments cover from the first one on without a
gap. -/
def segsTotal : List Seg → Nat → Nat
  | [], total => total
  | [seg], total => total + seg.len
  | seg :: next :: rest, total =>
    if next.roffset ≠ seg.roffset + seg.len then total
    else segsTotal (next :: rest) (total + seg.len)

end Segments

namespace RecordWorker

variable (size : Nat → UInt64) (w : RecordWorker) (b : Nat)

/- `dmu_objset_insert_record`. -/
def insert : RecordWorker :=
  { w with
    list := if b ∈ w.list then w.list else w.list ++ [b]
    data := w.data + size b }

/- `dmu_objset_remove_record`. -/
def remove : RecordWorker :=
  if b ∈ w.list then { w with list := w.list.erase b, data := w.data - size b } else w

end RecordWorker

namespace SegCache

variable (size : Nat → UInt64) (s : SegCache) (b : Nat)

def setDb (d : SegDbuf) : SegCache := { s with dbs := Function.update s.dbs b d }

@[simp] theorem setDb_dbs_self (d : SegDbuf) : (s.setDb b d).dbs b = d := Function.update_self ..

theorem setDb_dbs_of_ne {x : Nat} (h : x ≠ b) (d : SegDbuf) : (s.setDb b d).dbs x = s.dbs x :=
  Function.update_of_ne h ..

/- `dbuf_handle_seg`; the result says whether the segments fill the block. -/
def handleSeg (seg : Seg) (txg : Nat) : SegCache × Bool :=
  let d := s.dbs b
  let order := segInsertBySort seg d.segmentsOrder
  let d' := { d with
    hasSegments := true
    firstSegmentTxg := if d.hasSegments then d.firstSegmentTxg else txg
    segsLen := d.segsLen + seg.len
    segments := d.segments ++ [seg]
    segmentsOrder := order }
  let records := if d.hasSegments then s.records else s.records.insert size b
  (setDb { s with records } b d', segsTotal order 0 = (size b).toNat)

/- The segments go into the block, in the order they came in, or are dropped. -/
def handleSegs (bWrite : Bool) : SegCache :=
  let d := s.dbs b
  setDb { s with records := s.records.remove size b } b { d with
    data := if bWrite then d.data.map (Overlay.applyAll (d.segments.map Seg.write)) else d.data
    hasSegments := false
    firstSegmentTxg := 0
    segsLen := 0
    segments := []
    segmentsOrder := [] }

def handleSegsIf (bWrite : Bool) : SegCache :=
  if (s.dbs b).hasSegments then s.handleSegs size b bWrite else s

/- `dmu_objset_insert_data` for a new copy of the block. -/
def dataReload : SegCache :=
  let d := s.dbs b
  let c := s.nextCopy
  setDb
    { s with
      rewrites := { s.rewrites with
        list := s.rewrites.list ++ [c]
        data := s.rewrites.data + size b }
      copies := Function.update s.copies c ⟨b, d.data.getD d.stored⟩
      live := s.live ++ [c]
      nextCopy := c + 1 }
    b { d with segList := d.segList ++ [c] }

/- One turn of `dmu_objset_remove_seg_cache`. A copy that the worker has in hand is left to it. -/
def dropCopy (c : Nat) : SegCache :=
  let d := s.dbs b
  let s' := s.setDb b { d with segList := d.segList.erase c }
  if c ∈ s.rewrites.list then
    { s' with
      rewrites := { s.rewrites with
        list := s.rewrites.list.erase c
        data := s.rewrites.data - size b }
      live := s.live.erase c }
  else s'

def removeSegCache : SegCache :=
  (s.dbs b).segList.foldl (fun s c => s.dropCopy size b c) s

/- The block is in memory afterwards, with what is stored or, before it is filled, with anything. -/
def load (content : Content) : SegCache :=
  let d := s.dbs b
  s.setDb b { d with data := some (d.data.getD content) }

def dbufRead : SegCache := s.load b (s.dbs b).stored

def dbufNoread (junk : Content) : SegCache := s.load b junk

/- `dbuf_dirty`, put behind the changes: `db_data` belongs to the dirty record. -/
def dirtied : SegCache :=
  let d := s.dbs b
  s.setDb b { d with stored := d.data.getD d.stored, dirty := true }

def bcopy (seg : Seg) : SegCache :=
  let d := s.dbs b
  s.setDb b { d with data := d.data.map seg.write.apply }

def handleWriteOptimize (seg : Seg) (txg : Nat) (junk : Content) : SegCache :=
  let out := s.handleSeg size b seg txg
  if out.2 then ((out.1.dbufNoread b junk).handleSegs size b true).dirtied b else out.1

/- `dmu_write` for one block; `kept` says that the write was mirrored and may be kept. -/
def dmuWrite (seg : Seg) (kept : Bool) (txg : Nat) (junk : Content) : SegCache :=
  let s := s.removeSegCache size b
  if seg.len = (size b).toNat then
    (((s.dbufNoread b junk).handleSegsIf size b false).bcopy b seg).dirtied b
  else if kept then s.handleWriteOptimize size b seg txg junk
  else (((s.dbufRead b).handleSegsIf size b true).bcopy b seg).dirtied b

/- A read of the block by `dmu_buf_hold_array_by_dnode` without an error. -/
def read : SegCache :=
  let s := s.dbufRead b
  if (s.dbs b).hasSegments then (s.handleSegs size b true).dataReload size b else s

/- Holds other than those of the segments. -/
def held : Bool := (s.dbs b).dirty || s.live.any fun c => (s.copies c).db == b

/- `dnode_free_range`: the block reads as zeros once it is not in memory. -/
def freeStored : SegCache := s.setDb b { s.dbs b with stored := fun _ => 0 }

/- `dbuf_undirty`; `older` says that an older transaction has dirtied the block too. -/
def undirty (older : Bool) : SegCache :=
  s.setDb b { s.dbs b with dirty := (s.dbs b).dirty && older }

def clearData : SegCache :=
  let d := s.dbs b
  s.setDb b { d with data := if s.held b then d.data.map fun _ => fun _ => 0 else none }

/- What `dbuf_free_range` does to a dbuf. One whose segments had the only holds is skipped. -/
def freeRange (older : Bool) : SegCache :=
  if (s.dbs b).hasSegments then
    let s' := s.handleSegs size b false
    if s'.held b then (s'.undirty b older).clearData b else s'
  else (s.undirty b older).clearData b

def free (older : Bool) : SegCache := (s.freeStored b).freeRange size b older

/- The end of a copy that the worker has in hand. -/
def release (c : Nat) : SegCache :=
  { s with live := s.live.erase c, rewrites := { s.rewrites with taken := none } }

def setPhase (c : Nat) (phase : Phase) : SegCache :=
  { s with rewrites := { s.rewrites with taken := some (c, phase) } }

/- `zvol_obj_rewrite`; `assigned` says whether `dmu_tx_assign` succeeds. -/
def rewrite (c : Nat) (assigned : Bool) (txg : Nat) (junk : Content) : SegCache :=
  let copy := s.copies c
  let d := s.dbs copy.db
  if c ∉ d.segList then s.release c
  else
    let s := s.setDb copy.db { d with segList := d.segList.erase c }
    if assigned then
      (s.dmuWrite size copy.db ⟨0, (size copy.db).toNat, copy.data⟩ false txg junk).release c
    else s.setPhase c .failed

end SegCache

inductive SegAction where
  | write (b : Nat) (seg : Seg) (kept : Bool) (txg : Nat) (junk : Content)
  | read (b : Nat)
  | free (b : Nat) (older : Bool)
  | sync (b : Nat)
  | evict (b : Nat)
  | takeRecord
  | reread (ok : Bool)
  | takeData
  | rewrite (assigned : Bool) (txg : Nat) (junk : Content)
  | relink
  | requeue

namespace SegCache

variable (size : Nat → UInt64) (s : SegCache)

/- The steps of `dmu_objset_clean_record`. -/
def takeRecord : Option SegCache :=
  match s.records.taken, s.records.list with
  | none, b :: _ => some { s with records := { s.records.remove size b with taken := some b } }
  | _, _ => none

def reread (ok : Bool) : Option SegCache :=
  s.records.taken.map fun b =>
    let s := { s with records := { s.records with taken := none } }
    if ok then s.read size b else s

/- The steps of `dmu_objset_clean_seg_data`. A copy that is put back is unlinked again before the
mutex is given up. -/
def takeData : Option SegCache :=
  match s.rewrites.taken, s.rewrites.list with
  | none, c :: rest => some { s with rewrites :=
      ⟨rest, s.rewrites.data - size (s.copies c).db, some (c, .taken)⟩ }
  | _, _ => none

def relink : Option SegCache :=
  match s.rewrites.taken with
  | some (c, .failed) =>
    let b := (s.copies c).db
    let d := s.dbs b
    some ((s.setDb b { d with segList := d.segList ++ [c] }).setPhase c .relinked)
  | _ => none

def requeue : Option SegCache :=
  match s.rewrites.taken with
  | some (c, .relinked) => some (s.setPhase c .taken)
  | _ => none

def step (s : SegCache) : SegAction → Option SegCache
  | .write b seg kept txg junk =>
    if 0 < seg.len ∧ seg.roffset + seg.len ≤ (size b).toNat then
      some (s.dmuWrite size b seg kept txg junk)
    else none
  | .read b => some (s.read size b)
  | .free b older => some (s.free size b older)
  | .sync b => some (s.setDb b { s.dbs b with dirty := false })
  | .evict b =>
    if (s.dbs b).hasSegments ∨ s.held b then none
    else some (s.setDb b { s.dbs b with data := none })
  | .takeRecord => s.takeRecord size
  | .reread ok => s.reread size ok
  | .takeData => s.takeData size
  | .rewrite assigned txg junk =>
    match s.rewrites.taken with
    | some (c, .taken) => some (s.rewrite size c assigned txg junk)
    | _ => none
  | .relink => s.relink
  | .requeue => s.requeue

/- A volume before its first write, with what is on disk. -/
def start (disk : Nat → Content) : SegCache where
  dbs b := ⟨none, disk b, false, false, 0, 0, [], [], []⟩
  records := ⟨[], 0, none⟩
  rewrites := ⟨[], 0, none⟩
  copies _ := ⟨0, fun _ => 0⟩
  live := []
  nextCopy := 0

end SegCache

end ClusterZfs

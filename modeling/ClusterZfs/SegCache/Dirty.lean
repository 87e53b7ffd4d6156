import ClusterZfs.SegCache.Segments
import ClusterZfs.Lib.Runs

/-! One block with its buffers, its dirty records and its segments, over the transaction groups.
What matters of a byte is the write it comes from. A write assigns its transaction and mirrors its
data in one step, and puts the data into the block in another; in between it has its range lock and
keeps its transaction group from syncing. The dbuf is not evicted. -/
namespace ClusterZfs

structure Origin where
  txg : Nat
  issue : Nat
  deriving DecidableEq

/- For each byte of a buffer the write that it comes from. -/
abbrev Image := Nat → Origin

/- What was there before the first write. -/
def blank : Image := fun _ => ⟨0, 0⟩

/- `issue` counts the writes; for a mirrored one it is the `mirror_io_index`. -/
structure BlockWrite where
  issue : Nat
  txg : Nat
  seg : Seg

namespace BlockWrite

def onto (w : BlockWrite) (image : Image) : Image := fun k =>
  if w.seg.Covers k then ⟨w.txg, w.issue⟩ else image k

end BlockWrite

def Image.merged (image : Image) (segs : List BlockWrite) : Image :=
  segs.foldl (fun image w => w.onto image) image

structure DirtyRecord where
  txg : Nat
  data : Nat
  mirrorIo : List BlockWrite

/- `dirty` has the newest record first, `pending` says that the last one is being written. -/
structure MirrorDb where
  bufs : Nat → Image
  nextBuf : Nat
  dbBuf : Option Nat
  disk : Image
  dirty : List DirtyRecord
  pending : Bool
  segs : List BlockWrite
  mirrorIo : List BlockWrite

namespace MirrorDb

variable (size : Nat) (s : MirrorDb)

/- `arc_buf_alloc` with the content it is filled with. -/
def alloc (image : Image) : MirrorDb :=
  { s with bufs := Function.update s.bufs s.nextBuf image, nextBuf := s.nextBuf + 1 }

/- What `dbuf_hold` does to a block that is being written from the buffer of the dbuf: the dbuf
gets a copy. -/
def hold : MirrorDb :=
  match s.dirty.getLast? with
  | none => s
  | some dr =>
    if s.pending ∧ s.dbBuf = some dr.data then
      { s.alloc (s.bufs dr.data) with dbBuf := some s.nextBuf }
    else s

def load (image : Image) : MirrorDb :=
  match s.dbBuf with
  | some _ => s
  | none => { s.alloc image with dbBuf := some s.nextBuf }

def dbufRead : MirrorDb := s.load s.disk

def dbufNoread : MirrorDb := s.load blank

/- The newest dirty record gets a buffer of its own if it has that of the dbuf. -/
def fixOldData : MirrorDb :=
  match s.dirty with
  | [] => s
  | dr :: rest =>
    if s.dbBuf = some dr.data then
      { s.alloc (s.bufs dr.data) with dirty := { dr with data := s.nextBuf } :: rest }
    else s

/- A new dirty record has the buffer of the dbuf. -/
def addRecord (txg : Nat) : MirrorDb :=
  match s.dbBuf with
  | none => s
  | some buf => { s with dirty := ⟨txg, buf, []⟩ :: s.dirty }

/- No dirty record is newer than the transaction, an `ASSERT` of the source. -/
def dbufDirty (txg : Nat) : MirrorDb :=
  if s.dirty.head?.map DirtyRecord.txg = some txg then s else s.fixOldData.addRecord txg

/- `mirrored` says whether `zfs_mirror_hold_to_tx` succeeds. -/
def dirtyMirrorIo (mirrored : Bool) : MirrorDb :=
  match s.dirty with
  | [] => s
  | dr :: rest =>
    { s with
      dirty := { dr with mirrorIo := dr.mirrorIo ++ if mirrored then s.mirrorIo else [] } :: rest
      mirrorIo := [] }

def willDirty (txg : Nat) (mirrored : Bool) : MirrorDb :=
  (s.dbufRead.dbufDirty txg).dirtyMirrorIo mirrored

def willFill (txg : Nat) (mirrored : Bool) : MirrorDb :=
  (s.dbufNoread.dbufDirty txg).dirtyMirrorIo mirrored

/- A change of `db_data` in place. -/
def setData (f : Image → Image) : MirrorDb :=
  match s.dbBuf with
  | none => s
  | some buf => { s with bufs := Function.update s.bufs buf (f (s.bufs buf)) }

def mergeSegs : MirrorDb := { s.setData fun image => image.merged s.segs with segs := [] }

def dropSegs : MirrorDb := { s with segs := [] }

/- `dbuf_check_segs_full` on the segments sorted as `dbuf_seg_insert_by_sort` does. -/
def checkSegsFull (segs : List BlockWrite) : Bool :=
  segsTotal (segs.foldl (fun order w => segInsertBySort w.seg order) []) 0 = size

def handleWriteOptimize (w : BlockWrite) (mirrored : Bool) : MirrorDb :=
  let s := { s with segs := s.segs ++ [w] }
  if checkSegsFull size s.segs then (s.willFill w.txg mirrored).mergeSegs else s

/- The branch of `dmu_write` for a whole block. -/
def fill (txg : Nat) (mirrored : Bool) (f : Image → Image) : MirrorDb :=
  (s.willFill txg mirrored).dropSegs.setData f

def writeFull (w : BlockWrite) (mirrored : Bool) : MirrorDb := s.fill w.txg mirrored w.onto

def writePartial (w : BlockWrite) (mirrored : Bool) : MirrorDb :=
  (s.willDirty w.txg mirrored).mergeSegs.setData w.onto

def dmuWrite (w : BlockWrite) (kept mirrored : Bool) : MirrorDb :=
  if w.seg.len = size then s.hold.writeFull w mirrored
  else if kept then s.hold.handleWriteOptimize size w mirrored
  else s.hold.writePartial w mirrored

/- The segments of a block that is read go into `db_data`, which is not dirtied. -/
def read : MirrorDb := s.hold.dbufRead.mergeSegs

/- What the dbuf has, or is filled with when it is read. -/
def base : Image := (s.dbBuf.map s.bufs).getD s.disk

/- `dbuf_sync_leaf`: a buffer in use is copied before it is written; `held` stands for holds other
than those of segments and dirty records. -/
def syncLeaf (dr : DirtyRecord) (held : Bool) : MirrorDb :=
  if (held ∨ s.segs ≠ [] ∨ 1 < s.dirty.length) ∧ s.dbBuf = some dr.data then
    { s.alloc (s.bufs dr.data) with
      dirty := s.dirty.dropLast ++ [{ dr with data := s.nextBuf }]
      pending := true }
  else { s with pending := true }

def writeDone (dr : DirtyRecord) : MirrorDb :=
  { s with dirty := s.dirty.dropLast, pending := false, disk := s.bufs dr.data }

end MirrorDb

/- `hand` are the writes that have not put their data into the block, with whether they are
mirrored. `copies` is `db_seg_list`, the copies of the block that are to be written back.
`osMirrorIo` has a list for each `txg & TXG_MASK`. `synced` and `cleared` collect what was written
and what was told to the partner. -/
structure MirrorSys where
  db : MirrorDb
  openTxg : Nat
  syncedTxg : Nat
  nextIssue : Nat
  hand : List (BlockWrite × Bool)
  copies : List Image
  osMirrorIo : Nat → List BlockWrite
  synced : List (Nat × Image)
  cleared : List (Nat × BlockWrite)

namespace MirrorSys

variable (size : Nat) (s : MirrorSys)

/- Every transaction in `hand` is of the open group: a dnode is assigned to one group at a time,
and a group opens when the one before the last is quiet. -/
def Quiet : Prop := ∀ w ∈ s.hand, w.1.txg = s.openTxg

instance : Decidable s.Quiet := inferInstanceAs (Decidable (∀ w ∈ s.hand, _))

/- The range lock. -/
def Free (seg : Seg) : Prop :=
  ∀ w ∈ s.hand, seg.roffset + seg.len ≤ w.1.seg.roffset ∨
    w.1.seg.roffset + w.1.seg.len ≤ seg.roffset

instance (seg : Seg) : Decidable (s.Free seg) := inferInstanceAs (Decidable (∀ w ∈ s.hand, _))

/- Nobody can write in this group any more. -/
def Closed (txg : Nat) : Prop := txg < s.openTxg ∧ ∀ w ∈ s.hand, w.1.txg ≠ txg

instance (txg : Nat) : Decidable (s.Closed txg) := inferInstanceAs (Decidable (_ ∧ _))

/- `dmu_tx_assign`, `dmu_objset_remove_seg_cache` and `dmu_mirror_write_data`. -/
def begin (seg : Seg) (mirrored : Bool) : MirrorSys :=
  let w : BlockWrite := ⟨s.nextIssue, s.openTxg, seg⟩
  let db := s.db.hold
  { s with
    db := { db with mirrorIo := if mirrored then db.mirrorIo ++ [w] else db.mirrorIo }
    nextIssue := s.nextIssue + 1
    hand := s.hand ++ [(w, mirrored)]
    copies := [] }

def write (i : Nat) (optimize mirrored : Bool) : Option MirrorSys :=
  match s.hand[i]? with
  | none => none
  | some (w, sent) => some { s with
      db := s.db.dmuWrite size w (sent && optimize) mirrored
      hand := s.hand.eraseIdx i }

/- A read that merges segments leaves a copy of the block, `dbuf_data_reload`. -/
def read : MirrorSys :=
  { s with
    db := s.db.read
    copies := if s.db.segs = [] then s.copies else s.copies ++ [s.db.read.base] }

/- `zvol_obj_rewrite`. It has the range lock of the whole block from before its transaction is
assigned, so that no other write is in hand. -/
def rewrite (mirrored : Bool) : Option MirrorSys :=
  match s.copies with
  | [] => none
  | copy :: _ =>
    if s.hand = [] then some { s with
        db := s.db.hold.fill s.openTxg mirrored fun _ => copy
        nextIssue := s.nextIssue + 1
        copies := [] }
    else none

/- `dbuf_sync_leaf` for the oldest dirty record. -/
def syncLeaf (held : Bool) : Option MirrorSys :=
  match s.db.dirty.getLast? with
  | none => none
  | some dr =>
    if dr.txg = s.syncedTxg + 1 ∧ s.Closed dr.txg ∧ ¬ s.db.pending then
      some { s with db := s.db.syncLeaf dr (held || !s.hand.isEmpty) }
    else none

/- `dbuf_write_done`, with `dbuf_clear_mirror_io`. -/
def writeDone (mirrored : Bool) : Option MirrorSys :=
  match s.db.dirty.getLast? with
  | none => none
  | some dr =>
    let io := s.osMirrorIo (dr.txg % 4) ++ if mirrored then dr.mirrorIo else []
    if s.db.pending then
      some { s with
        db := s.db.writeDone dr
        synced := s.synced ++ [(dr.txg, s.db.bufs dr.data)]
        osMirrorIo := Function.update s.osMirrorIo (dr.txg % 4) io }
    else none

/- `dsl_pool_sync_done`, with `dmu_objset_clear_mirror_io`. -/
def poolSyncDone : Option MirrorSys :=
  let txg := s.syncedTxg + 1
  if s.Closed txg ∧ ∀ dr ∈ s.db.dirty, dr.txg ≠ txg then
    some { s with
      syncedTxg := txg
      cleared := s.cleared ++ (s.osMirrorIo (txg % 4)).map fun w => (txg, w)
      osMirrorIo := Function.update s.osMirrorIo (txg % 4) [] }
  else none

variable {s} {s' : MirrorSys}

theorem write_cases {i : Nat} {optimize mirrored : Bool}
    (h : s.write size i optimize mirrored = some s') :
    ∃ w sent, s.hand[i]? = some (w, sent) ∧ s' = { s with
      db := s.db.dmuWrite size w (sent && optimize) mirrored
      hand := s.hand.eraseIdx i } := by
  unfold write at h
  split at h
  · cases h
  · rename_i w sent hi
    exact ⟨w, sent, hi, (Option.some.inj h).symm⟩

theorem rewrite_cases {mirrored : Bool} (h : s.rewrite mirrored = some s') :
    ∃ copy rest, s.copies = copy :: rest ∧ s.hand = [] ∧ s' = { s with
      db := s.db.hold.fill s.openTxg mirrored fun _ => copy
      nextIssue := s.nextIssue + 1
      copies := [] } := by
  unfold rewrite at h
  split at h
  · cases h
  · rename_i copy rest hcopies
    obtain ⟨hhand, hs⟩ := (Option.ite_none_right_eq_some).mp h
    exact ⟨copy, rest, hcopies, hhand, (Option.some.inj hs).symm⟩

theorem syncLeaf_cases {held : Bool} (h : s.syncLeaf held = some s') :
    ∃ dr, s.db.dirty.getLast? = some dr ∧
      (dr.txg = s.syncedTxg + 1 ∧ s.Closed dr.txg ∧ ¬ s.db.pending) ∧
      s' = { s with db := s.db.syncLeaf dr (held || !s.hand.isEmpty) } := by
  unfold syncLeaf at h
  split at h
  · cases h
  · rename_i dr hlast
    obtain ⟨hguard, hs⟩ := (Option.ite_none_right_eq_some).mp h
    exact ⟨dr, hlast, hguard, (Option.some.inj hs).symm⟩

theorem writeDone_cases {mirrored : Bool} (h : s.writeDone mirrored = some s') :
    ∃ dr, s.db.dirty.getLast? = some dr ∧ s.db.pending ∧ s' = { s with
      db := s.db.writeDone dr
      synced := s.synced ++ [(dr.txg, s.db.bufs dr.data)]
      osMirrorIo := Function.update s.osMirrorIo (dr.txg % 4)
        (s.osMirrorIo (dr.txg % 4) ++ if mirrored then dr.mirrorIo else []) } := by
  unfold writeDone at h
  split at h
  · cases h
  · rename_i dr hlast
    obtain ⟨hpending, hs⟩ := (Option.ite_none_right_eq_some).mp h
    exact ⟨dr, hlast, hpending, (Option.some.inj hs).symm⟩

end MirrorSys

inductive MirrorAction where
  | openNext
  | begin (seg : Seg) (mirrored : Bool)
  | write (i : Nat) (optimize mirrored : Bool)
  | read
  | rewrite (mirrored : Bool)
  | syncLeaf (held : Bool)
  | writeDone (mirrored : Bool)
  | poolSyncDone

namespace MirrorSys

variable (size : Nat)

def step (s : MirrorSys) : MirrorAction → Option MirrorSys
  | .openNext =>
    if s.Quiet ∧ s.openTxg < s.syncedTxg + 3 then some { s with openTxg := s.openTxg + 1 } else none
  | .begin seg mirrored =>
    if s.Quiet ∧ s.Free seg ∧ 0 < seg.len ∧ seg.roffset + seg.len ≤ size then
      some (s.begin seg mirrored)
    else none
  | .write i optimize mirrored => s.write size i optimize mirrored
  | .read => some s.read
  | .rewrite mirrored => s.rewrite mirrored
  | .syncLeaf held => s.syncLeaf held
  | .writeDone mirrored => s.writeDone mirrored
  | .poolSyncDone => s.poolSyncDone

def start : MirrorSys where
  db := ⟨fun _ => blank, 0, none, blank, [], false, [], []⟩
  openTxg := 1
  syncedTxg := 0
  nextIssue := 1
  hand := []
  copies := []
  osMirrorIo _ := []
  synced := []
  cleared := []

end MirrorSys

end ClusterZfs

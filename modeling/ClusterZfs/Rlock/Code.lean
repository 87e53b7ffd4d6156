import ClusterZfs.RangeTree.Code

/-! Range locks of a file. Readers that overlap share counted proxy entries, so an entry of the
tree is either the lock a thread holds or a proxy that stands for a part of several. -/
namespace ClusterZfs

inductive RlType where
  | reader
  | writer
  | append
  deriving DecidableEq, Repr

/- `rId` tells the locks of the threads apart; a proxy belongs to no thread. Offsets and lengths
are the machine's, and no sum of the two wraps for the ranges that are stored. -/
structure Rl where
  rId : Nat
  rOff : Nat
  rLen : Nat
  rCnt : Nat
  rType : RlType
  rProxy : Bool
  rWriteWanted : Bool
  rReadWanted : Bool
  deriving DecidableEq, Repr

namespace Rl

def rEnd (rl : Rl) : Nat := rl.rOff + rl.rLen

def new (id off len : Nat) (type : RlType) : Rl := ⟨id, off, len, 1, type, false, false, false⟩

end Rl

/- The size of the file and its block size, and the largest block size it may grow to. A volume
has none of them. -/
structure ZrFile where
  zrSize : Nat
  zrBlksz : Nat
  zrMaxBlksz : Nat
  deriving DecidableEq, Repr

def uint64Max : Nat := 2 ^ 64 - 1

def isp2 (x : Nat) : Bool := x &&& (x - 1) = 0

section Tree

/- The entries are in the order of their offsets; these are the two sides of the place where
`avl_find` ends. -/
def rlBefore (tree : List Rl) (off : Nat) : List Rl := tree.takeWhile fun rl => rl.rOff < off

def rlAfter (tree : List Rl) (off : Nat) : List Rl := tree.dropWhile fun rl => rl.rOff < off

def setWriteWanted (tree : List Rl) (rl : Rl) : List Rl :=
  tree.map fun e => if e.rOff = rl.rOff then { e with rWriteWanted := true } else e

def setReadWanted (tree : List Rl) (rl : Rl) : List Rl :=
  tree.map fun e => if e.rOff = rl.rOff then { e with rReadWanted := true } else e

end Tree

/- What one pass of a lock function does: the lock is granted and some locks that stood in the
tree are replaced by proxies there, or the thread waits on an entry. -/
inductive Attempt where
  | granted (tree : List Rl) (replaced : List Rl) (lock : Rl)
  | wait (tree : List Rl)

/- The range a writer asks for in this pass: an append starts at the end of the file, and a write
that makes the block size grow takes the whole file. -/
def writerRange (file : Option ZrFile) (new : Rl) : Rl :=
  match file with
  | none => new
  | some f =>
    let off := if new.rType = .append then f.zrSize else new.rOff
    let endSize := max f.zrSize (off + new.rLen)
    if endSize > f.zrBlksz ∧ (¬ isp2 f.zrBlksz ∨ f.zrBlksz < f.zrMaxBlksz) then
      { new with rOff := 0, rLen := uint64Max }
    else { new with rOff := off }

/- The lock when it is granted: an append becomes a write. -/
def writerLock (file : Option ZrFile) (new : Rl) : Rl :=
  { writerRange file new with rType := .writer }

/- The entry a writer has to wait for. -/
def writerConflict (tree : List Rl) (new : Rl) : Option Rl :=
  let before := rlBefore tree new.rOff
  match rlAfter tree new.rOff with
  | rl :: _ =>
    if rl.rOff = new.rOff then some rl
    else if rl.rOff < new.rEnd then some rl
    else before.getLast?.filter fun rl => rl.rEnd > new.rOff
  | [] => before.getLast?.filter fun rl => rl.rEnd > new.rOff

def zfsRangeLockWriter (file : Option ZrFile) (tree : List Rl) (new : Rl) : Attempt :=
  let lock := writerLock file new
  if tree = [] then .granted [lock] [] lock
  else
    match writerConflict tree lock with
    | some rl => .wait (setWriteWanted tree rl)
    | none => .granted (rlBefore tree lock.rOff ++ lock :: rlAfter tree lock.rOff) [] lock

/- The functions below fail where an assertion of the source fails or a null pointer is followed.
They return the entry that now stands in the tree and the locks it replaced. -/
def zfsRangeProxify (rl : Rl) : Option (Rl × List Rl) :=
  if rl.rProxy then some (rl, [])
  else if rl.rCnt = 1 ∧ ¬ rl.rWriteWanted ∧ ¬ rl.rReadWanted then
    some (⟨0, rl.rOff, rl.rLen, 1, .reader, true, false, false⟩, [{ rl with rCnt := 0 }])
  else none

def zfsRangeSplit (rl : Rl) (off : Nat) : Option (Rl × Rl × List Rl) :=
  if rl.rLen > 1 ∧ off > rl.rOff ∧ off < rl.rEnd ∧ ¬ rl.rWriteWanted ∧ ¬ rl.rReadWanted then
    let rear : Rl := ⟨0, off, rl.rEnd - off, rl.rCnt, .reader, true, false, false⟩
    (zfsRangeProxify rl).map fun r => ({ r.1 with rLen := off - rl.rOff }, rear, r.2)
  else none

def zfsRangeNewProxy (off len : Nat) : Option Rl :=
  if len ≠ 0 then some ⟨0, off, len, 1, .reader, true, false, false⟩ else none

def bump (rl : Rl) : Rl := { rl with rCnt := rl.rCnt + 1 }

/- A proxy for the gap between the end of the entry before and the next one. -/
def gapProxy (prev : Option Nat) (next : Rl) : Option (List Rl) :=
  match prev with
  | some p =>
    if p < next.rOff then (zfsRangeNewProxy p (next.rOff - p)).map fun rl => [rl] else some []
  | none => some []

/- The walk over the entries up to `fin`, the end of the new range; `prev` is the end of the entry
before. -/
def addReaderLoop (fin : Nat) : Option Nat → List Rl → Option (List Rl × List Rl)
  | prev, [] => prev.bind fun p => (zfsRangeNewProxy p (fin - p)).map fun rl => ([rl], [])
  | prev, next :: rest =>
    if fin ≤ next.rOff then
      prev.bind fun p => (zfsRangeNewProxy p (fin - p)).map fun rl => (rl :: next :: rest, [])
    else
      (gapProxy prev next).bind fun gap =>
        if fin = next.rEnd then
          (zfsRangeProxify next).map fun r => (gap ++ bump r.1 :: rest, r.2)
        else if fin < next.rEnd then
          (zfsRangeSplit next fin).map fun r => (gap ++ bump r.1 :: r.2.1 :: rest, r.2.2)
        else
          (zfsRangeProxify next).bind fun r =>
            (addReaderLoop fin (some r.1.rEnd) rest).map fun s =>
              (gap ++ bump r.1 :: s.1, r.2 ++ s.2)

/- The part after the entry before the range is out of the way. -/
def addReaderFrom (left right : List Rl) (replaced : List Rl) (new : Rl) : Option Attempt :=
  match right with
  | [] => some (.granted (left ++ [new]) replaced new)
  | next :: _ =>
    if new.rEnd ≤ next.rOff then some (.granted (left ++ new :: right) replaced new)
    else
      let first :=
        if new.rOff < next.rOff then
          (zfsRangeNewProxy new.rOff (next.rOff - new.rOff)).map fun rl => [rl]
        else some []
      first.bind fun first =>
        (addReaderLoop new.rEnd none right).map fun r =>
          .granted (left ++ first ++ r.1) (replaced ++ { new with rCnt := 0 } :: r.2) new

def zfsRangeAddReader (tree : List Rl) (new : Rl) : Option Attempt :=
  let before := rlBefore tree new.rOff
  let after := rlAfter tree new.rOff
  match after.head?.filter fun rl => rl.rOff = new.rOff with
  | some prev =>
    -- `where` is not set when the offset was found
    if prev.rEnd ≤ new.rOff then none else addReaderFrom before after [] new
  | none =>
    match before.getLast? with
    | none => addReaderFrom before after [] new
    | some prev =>
      if prev.rEnd ≤ new.rOff then addReaderFrom before after [] new
      else
        (zfsRangeSplit prev new.rOff).bind fun r =>
          addReaderFrom (before.dropLast ++ [r.1]) (r.2.1 :: after) r.2.2 new

def rlBlocks (rl : Rl) : Bool := rl.rType = .writer ∨ rl.rWriteWanted

/- The entries from the first one after the start of the range: the one a reader waits for. -/
def readerScan (fin : Nat) : List Rl → Option Rl
  | [] => none
  | next :: rest =>
    if fin ≤ next.rOff then none
    else if rlBlocks next then some next
    else if fin ≤ next.rEnd then none
    else readerScan fin rest

/- The check of the entry before the range, or at its start, and then of the entries after it. -/
def readerCheck (new : Rl) (prev : Option Rl) (rest : List Rl) : Option Rl :=
  match prev with
  | some p =>
    if new.rOff < p.rEnd then
      if rlBlocks p then some p
      else if new.rEnd < p.rEnd then none
      else readerScan new.rEnd rest
    else readerScan new.rEnd rest
  | none => readerScan new.rEnd rest

def readerConflict (tree : List Rl) (new : Rl) : Option Rl :=
  let after := rlAfter tree new.rOff
  match after.head?.filter fun rl => rl.rOff = new.rOff with
  | some found => readerCheck new (some found) after.tail
  | none => readerCheck new (rlBefore tree new.rOff).getLast? after

def zfsRangeLockReader (tree : List Rl) (new : Rl) : Option Attempt :=
  match readerConflict tree new with
  | some rl => some (.wait (setReadWanted tree rl))
  | none => zfsRangeAddReader tree new

def zfsRangeLock (file : Option ZrFile) (tree : List Rl) (new : Rl) : Option Attempt :=
  if new.rType = .reader then
    if tree = [] then some (.granted [new] [] new) else zfsRangeLockReader tree new
  else some (zfsRangeLockWriter file tree new)

/- The pass a thread makes after it was woken. -/
def zfsRangeRetry (file : Option ZrFile) (tree : List Rl) (new : Rl) : Option Attempt :=
  if new.rType = .reader then zfsRangeLockReader tree new
  else some (zfsRangeLockWriter file tree new)

def lower (rl : Rl) : Rl := { rl with rCnt := rl.rCnt - 1 }

/- A proxy loses one count and leaves the tree with the last one. -/
def dropOne (rl : Rl) : List Rl := if (lower rl).rCnt = 0 then [] else [lower rl]

/- The walk over the proxies of a reader from its first one. -/
def unlockReaderLoop : Nat → List Rl → Option (List Rl)
  | _, [] => none
  | len, rl :: rest =>
    let len := uint64 (len + (2 ^ 64 - rl.rLen))
    if len = 0 then some (dropOne rl ++ rest)
    else
      match rest with
      | [] => none
      | next :: _ =>
        if rl.rEnd = next.rOff ∧ next.rCnt ≠ 0 ∧ next.rType = .reader then
          (unlockReaderLoop len rest).map fun rest => dropOne rl ++ rest
        else none

/- The lock is an entry of the tree when its count is one, and was replaced by proxies when it is
zero. -/
def zfsRangeUnlockReader (tree : List Rl) (remove : Rl) : Option (List Rl) :=
  if remove.rCnt = 1 then some (tree.erase remove)
  else if remove.rCnt = 0 ∧ ¬ remove.rWriteWanted ∧ ¬ remove.rReadWanted then
    match rlAfter tree remove.rOff with
    | [] => none
    | rl :: rest =>
      if rl.rOff = remove.rOff ∧ rl.rCnt ≠ 0 ∧ rl.rType = .reader then
        (unlockReaderLoop remove.rLen (rl :: rest)).map fun rest =>
          rlBefore tree remove.rOff ++ rest
      else none
  else none

def zfsRangeUnlock (tree : List Rl) (rl : Rl) : Option (List Rl) :=
  if (rl.rType = .writer ∨ rl.rType = .reader) ∧ (rl.rCnt = 1 ∨ rl.rCnt = 0) ∧ ¬ rl.rProxy then
    if rl.rType = .writer then some (tree.erase rl) else zfsRangeUnlockReader tree rl
  else none

def zfsRangeReduce (tree : List Rl) (rl : Rl) (off len : Nat) : Option (List Rl) :=
  if tree = [rl] ∧ rl.rOff = 0 ∧ rl.rType = .writer ∧ ¬ rl.rProxy ∧ rl.rLen = uint64Max ∧
      rl.rCnt = 1 then
    some [{ rl with rOff := off, rLen := len }]
  else none

end ClusterZfs

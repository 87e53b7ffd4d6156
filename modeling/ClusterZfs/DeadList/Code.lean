import ClusterZfs.DeadList.Bpobj

/-! The dead list of a dataset: the blocks that died since the last snapshot, in one object for
each interval between the snapshots they were born in. -/
namespace ClusterZfs

structure DleEntry where
  dleMintxg : Nat
  dleBpobj : Option Bpobj

/- The tree in memory and the table on disk hold the same keys with the same objects; here they
are one list in the order of the keys. -/
structure Deadlist where
  dlSpace : BpSpace
  dlTree : List DleEntry

def dslDeadlistAlloc : Deadlist := ⟨0, []⟩

namespace Deadlist

/- The two sides of the place where `avl_find` ends. -/
def before (dl : Deadlist) (txg : Nat) : List DleEntry :=
  dl.dlTree.takeWhile fun dle => dle.dleMintxg < txg

def after (dl : Deadlist) (txg : Nat) : List DleEntry :=
  dl.dlTree.dropWhile fun dle => dle.dleMintxg < txg

end Deadlist

/- An update of the last entry of a list, through a null pointer when there is none. -/
def updateLast (f : DleEntry → DleEntry) (dles : List DleEntry) : Option (List DleEntry) :=
  dles.getLast?.map fun dle => dles.dropLast ++ [f dle]

def dleEnqueue (spa : SpaSizes) (bp : BlkPtr) (dle : DleEntry) : DleEntry :=
  { dle with dleBpobj := some (bpobjEnqueue spa (dle.dleBpobj.getD bpobjAlloc) bp) }

def dleEnqueueSubobj (obj : Option Bpobj) (dle : DleEntry) : DleEntry :=
  match dle.dleBpobj with
  | some bpo => { dle with dleBpobj := some (bpobjEnqueueSubobj bpo obj) }
  | none => { dle with dleBpobj := obj }

/- The entry before the one with the key of the birth, or the nearest one before the place of the
birth: in both cases the last entry of a smaller key. -/
def dslDeadlistInsert (spa : SpaSizes) (dl : Deadlist) (bp : BlkPtr) : Option Deadlist :=
  (updateLast (dleEnqueue spa bp) (dl.before bp.blkBirth)).map fun dles =>
    ⟨dl.dlSpace + bpSpace spa bp, dles ++ dl.after bp.blkBirth⟩

/- `emptyBpobj` says whether the pool shares one empty object. A key that exists already fails
the check on the table. -/
def dslDeadlistAddKey (dl : Deadlist) (mintxg : Nat) (emptyBpobj : Bool) : Option Deadlist :=
  if dl.dlTree.any fun dle => dle.dleMintxg = mintxg then none
  else
    let obj := if emptyBpobj then none else some bpobjAlloc
    some { dl with dlTree := dl.before mintxg ++ ⟨mintxg, obj⟩ :: dl.after mintxg }

def dslDeadlistRemoveKey (dl : Deadlist) (mintxg : Nat) : Option Deadlist :=
  match dl.after mintxg with
  | [] => none
  | dle :: dles =>
    if dle.dleMintxg = mintxg then
      (updateLast (dleEnqueueSubobj dle.dleBpobj) (dl.before mintxg)).map fun prevs =>
        { dl with dlTree := prevs ++ dles }
    else none

def dslDeadlistSpaceRange (dl : Deadlist) (mintxg maxtxg : Nat) : BpSpace :=
  match dl.after mintxg with
  | [] => 0
  | dle :: dles =>
    if dle.dleMintxg = mintxg then
      ((dle :: dles).takeWhile fun dle => dle.dleMintxg < maxtxg).foldl
        (fun space dle => space + bpobjSpace dle.dleBpobj) 0
    else 0

def dslDeadlistInsertBpobj (dl : Deadlist) (obj : Option Bpobj) (birth : Nat) : Option Deadlist :=
  let space := dl.dlSpace + bpobjSpace obj
  match dl.after birth with
  | [] => (updateLast (dleEnqueueSubobj obj) (dl.before birth)).map fun dles => ⟨space, dles⟩
  | dle :: dles =>
    if dle.dleMintxg = birth then
      some ⟨space, dl.before birth ++ dleEnqueueSubobj obj dle :: dles⟩
    else
      (updateLast (dleEnqueueSubobj obj) (dl.before birth)).map fun prevs =>
        ⟨space, prevs ++ dle :: dles⟩

/- The other list of a merge. In the old format it is one object of block pointers; in the new one
the cursor gives the entries of its table in some order. -/
inductive DeadlistObj where
  | bpobj (blkptrs : List BlkPtr)
  | zap (cursor : List DleEntry)

/- The other list is left without entries. -/
def dslDeadlistMerge (spa : SpaSizes) (dl : Deadlist) :
    DeadlistObj → Option (Deadlist × DeadlistObj)
  | .bpobj blkptrs =>
    (blkptrs.reverse.foldlM (dslDeadlistInsert spa) dl).map fun dl => (dl, .bpobj [])
  | .zap cursor =>
    (cursor.foldlM (fun dl dle => dslDeadlistInsertBpobj dl dle.dleBpobj dle.dleMintxg) dl).map
      fun dl => (dl, .zap [])

def dslDeadlistMoveBpobj (dl : Deadlist) (bpo : Bpobj) (mintxg : Nat) : Deadlist × Bpobj :=
  let moved := dl.after mintxg
  (⟨moved.foldl (fun space dle => space - bpobjSpace dle.dleBpobj) dl.dlSpace, dl.before mintxg⟩,
    moved.foldl (fun bpo dle => bpobjEnqueueSubobj bpo dle.dleBpobj) bpo)

end ClusterZfs

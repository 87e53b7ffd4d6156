import ClusterZfs.Aggre.Pending

/-! Stripes and the block pointers into them. A member block of a stripe is not freed on its own:
the stripe is freed as a whole by a reclaim pass, which looks at the blocks of the head dataset
only. -/
namespace ClusterZfs

/- A level-0 block of an object of a dataset. -/
structure BlockId where
  objset : Nat
  object : Nat
  blkid : Nat
  deriving DecidableEq

/- A block pointer with the stripe it points into, if any, and its birth txg. -/
inductive BlockPtr where
  | hole
  | plain (birth : Nat)
  | member (dva birth : Nat)
  deriving DecidableEq

def BlockPtr.bornIn (txg : Nat) : BlockPtr → Bool
  | .hole => false
  | .plain birth => birth == txg
  | .member _ birth => birth == txg

/- `aggre_map_elem_t`; `valid_num` is the length of `blkid`. -/
structure AggreElem where
  objsetid : Nat
  objectid : Nat
  blkid : List Nat
  dva : Nat
  txg : Nat
  deriving DecidableEq, Inhabited

def AggreElem.block (e : AggreElem) (k : Nat) : BlockId := ⟨e.objsetid, e.objectid, k⟩

structure Snapshot where
  ptrs : Nat → Nat → BlockPtr
  objects : Nat → Bool

/- The pool: reclaim, the block pointers of the datasets (`heads`) and of the snapshots, the DVAs
of stripes that are allocated, and the blocks that reclaim dirtied in each txg slot. -/
structure Pool where
  rc : Reclaim AggreElem
  heads : BlockId → BlockPtr
  snaps : List Snapshot
  datasets : Nat → Bool
  objects : Nat → Nat → Bool
  allocated : Nat → Bool
  dirty : Nat → List BlockId

/- What the holds of `raidz_aggre_process_elem` return: an error other than ENOENT on the way to
the dnode, or the dnode and the blocks whose `dbuf_hold` gives NULL. -/
inductive ElemLookup where
  | failed
  | found (unheld : List Nat)

namespace Pool

variable (p : Pool)

def changed (e : AggreElem) (unheld : List Nat) (k : Nat) : Bool :=
  unheld.contains k || !(p.heads (e.block k)).bornIn e.txg

def changeNum (e : AggreElem) (unheld : List Nat) : Nat :=
  (e.blkid.filter (p.changed e unheld)).length

/- The classification in `raidz_aggre_process_elem`. -/
def elemState (holeAdjust : Int) (e : AggreElem) : ElemLookup → ElemState
  | .failed => .err
  | .found unheld =>
    if !p.datasets e.objsetid || !p.objects e.objsetid e.objectid then .free
    else if p.changeNum e unheld = e.blkid.length then .free
    else if p.changeNum e unheld = 0 then .noChange
    else if (p.changeNum e unheld : Int) < (e.blkid.length / 2 : Nat) + holeAdjust then .noChange
    else .rewrite

/- The members that a rewrite dirties. -/
def redirtied (e : AggreElem) : ElemLookup → List BlockId
  | .failed => []
  | .found unheld => (e.blkid.filter (fun k => !p.changed e unheld k)).map e.block

/- The record the thread is at. -/
def currentElem : Option AggreElem :=
  match p.rc.thread with
  | .looping map pos _ _ => some ((p.rc.maps map).elems.getD pos default)
  | _ => none

def setHead (b : BlockId) (ptr : BlockPtr) : Pool :=
  { p with
    heads := Function.update p.heads b ptr
    dirty := fun j => (p.dirty j).filter (· ≠ b) }

/- Everything below `gone` is freed. -/
def drop (gone : BlockId → Bool) : Pool :=
  { p with
    heads := fun b => if gone b then .hole else p.heads b
    dirty := fun j => (p.dirty j).filter (fun b => !gone b) }

end Pool

/- The choices of a run. Writes and frees of blocks happen in the syncing txg. -/
inductive PoolAction where
  | reclaim (a : ReclaimAction AggreElem)
  | process (lookup : ElemLookup) (txg : Option Nat)
  | stripe (objset object : Nat) (blkid : List Nat) (dva : Nat)
  | overwrite (b : BlockId)
  | punch (b : BlockId)
  | nopWrite (b : BlockId)
  | snapshot (objset : Nat)
  | clone (index objset : Nat)
  | create (objset object : Nat)
  | destroy (objset : Nat)
  | freeObject (objset object : Nat)
  | syncPass (now : UInt64) (reclaimStart : Bool)

namespace Pool

/- The members of a new stripe. -/
def newElem (p : Pool) (objset object : Nat) (blkid : List Nat) (dva : Nat) : AggreElem :=
  ⟨objset, object, blkid, dva, p.rc.syncingTxg⟩

/- A block is written or freed at most once in a txg. -/
def untouched (p : Pool) (b : BlockId) : Bool :=
  p.datasets b.objset && p.objects b.objset b.object &&
    !(p.heads b).bornIn p.rc.syncingTxg

def writeStripe (p : Pool) (e : AggreElem) : Pool :=
  { p with
    rc := appendMaplist e p.rc.syncingTxg p.rc
    heads := fun b =>
      if b ∈ e.blkid.map e.block then .member e.dva p.rc.syncingTxg else p.heads b
    allocated := Function.update p.allocated e.dva true
    dirty := fun j => (p.dirty j).filter (fun b => !decide (b ∈ e.blkid.map e.block)) }

/- The blocks dirtied for a record: those that a rewrite finds unchanged, in its txg. -/
def dirtyAfter (p : Pool) (blocks : List BlockId) : ElemState → Option Nat → Nat → List BlockId
  | .rewrite, some txg => Function.update p.dirty (txg % 4) (p.dirty (txg % 4) ++ blocks)
  | _, _ => p.dirty

def afterProcess (p : Pool) (blocks : List BlockId) (state : ElemState) (txg : Option Nat)
    (rc : Reclaim AggreElem) : Pool :=
  { p with rc := rc, dirty := p.dirtyAfter blocks state txg }

def releaseFreed (p : Pool) : Pool :=
  { p with
    allocated := fun v =>
      p.allocated v && !((p.rc.freeBplist (p.rc.syncingTxg % 4)).map AggreElem.dva).contains v }

def step (tun : AggreTunables) (holeAdjust : Int) (p : Pool) : PoolAction → Option Pool
  | .reclaim a =>
    match a with
    | .process _ _ => none
    | .stripe _ => none
    | .syncPass _ _ => none
    | a => (p.rc.step tun a).map (fun rc => { p with rc := rc })
  | .process lookup txg =>
    match p.currentElem with
    | none => none
    | some e =>
      let state := p.elemState holeAdjust e lookup
      (p.rc.step tun (.process state txg)).map (p.afterProcess (p.redirtied e lookup) state txg)
  | .stripe objset object blkid dva =>
    if p.allocated dva = false ∧ ∀ k ∈ blkid, p.untouched ⟨objset, object, k⟩ = true then
      some (p.writeStripe (p.newElem objset object blkid dva))
    else none
  | .overwrite b => if p.untouched b then some (p.setHead b (.plain p.rc.syncingTxg)) else none
  | .punch b => if p.untouched b then some (p.setHead b .hole) else none
  -- the write of a dirty block finds the same checksum and keeps the block pointer
  | .nopWrite b =>
    if b ∈ p.dirty (p.rc.syncingTxg % 4) then
      some { p with dirty := Function.update p.dirty (p.rc.syncingTxg % 4)
                      ((p.dirty (p.rc.syncingTxg % 4)).filter (· ≠ b)) }
    else none
  | .snapshot d => some { p with snaps := p.snaps ++ [⟨fun o k => p.heads ⟨d, o, k⟩, p.objects d⟩] }
  | .clone i d =>
    match p.snaps[i]? with
    | none => none
    | some s =>
      if p.datasets d = false then
        some { p with
               heads := fun b => if b.objset = d then s.ptrs b.object b.blkid else p.heads b
               datasets := Function.update p.datasets d true
               objects := Function.update p.objects d s.objects }
      else none
  | .create d o =>
    some { p with
           datasets := Function.update p.datasets d true
           objects := Function.update p.objects d (Function.update (p.objects d) o true) }
  | .destroy d =>
    some { p.drop (fun b => b.objset == d) with datasets := Function.update p.datasets d false }
  | .freeObject d o =>
    some { p.drop (fun b => b.objset == d && b.object == o) with
           objects := Function.update p.objects d (Function.update (p.objects d) o false) }
  -- the dirty blocks of the txg are written before its frees are processed
  | .syncPass now reclaimStart =>
    if p.dirty (p.rc.syncingTxg % 4) = [] then
      some { p.releaseFreed with rc := ClusterZfs.syncPass tun now reclaimStart p.rc }
    else none

/-- The stripe that a step passes to `raidz_aggre_free_bp`, with the blocks that its transaction
dirties. -/
def freeCall (holeAdjust : Int) (p : Pool) : PoolAction → Option (Nat × List BlockId)
  | .process lookup (some _) =>
    match p.currentElem with
    | none => none
    | some e =>
      match p.elemState holeAdjust e lookup with
      | .free => some (e.dva, [])
      | .rewrite => some (e.dva, p.redirtied e lookup)
      | _ => none
  | _ => none

/-- A block pointer into the stripe that is not about to be replaced. -/
def Referenced (p : Pool) (dva : Nat) (except : List BlockId) : Prop :=
  (∃ b birth, b ∉ except ∧ p.heads b = .member dva birth) ∨
    ∃ s ∈ p.snaps, ∃ o k birth, s.ptrs o k = .member dva birth

end Pool

end ClusterZfs

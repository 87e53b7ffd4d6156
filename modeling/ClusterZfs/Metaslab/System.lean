import ClusterZfs.Metaslab.Code

/-! One metaslab in the pipeline of transaction groups: at most three are live, and they are synced
in order, each in several passes. `history` remembers what was allocated and freed in which txg,
the latest first, and `initial` what was allocated before. -/
namespace ClusterZfs

inductive SpaceEvent
  | alloc (txg : Nat) (range : RangeSet)
  | free (txg : Nat) (range : RangeSet)
  | undo (txg : Nat) (range : RangeSet)

/- What an event does to the bytes allocated as of `t`. -/
def SpaceEvent.apply (t : Nat) : SpaceEvent → RangeSet → RangeSet
  | .alloc txg range, A => if txg ≤ t then A ∪ range else A
  | .free txg range, A => if txg ≤ t then A \ range else A
  | .undo txg range, A => if txg ≤ t then A \ range else A

structure MetaslabSys where
  ms : Metaslab
  syncingTxg : Nat
  openTxg : Nat
  syncPass : Nat
  syncedPass : Nat
  initial : RangeSet
  history : List SpaceEvent

namespace MetaslabSys

def allocatedAsOf (s : MetaslabSys) (t : Nat) : RangeSet :=
  s.history.foldr (SpaceEvent.apply t) s.initial

/- Some call freed the byte in txg `t`, other than to undo its allocation. -/
def FreedIn (s : MetaslabSys) (t x : Nat) : Prop := ∃ range, .free t range ∈ s.history ∧ x ∈ range

def Live (s : MetaslabSys) (txg : Nat) : Prop := s.syncingTxg ≤ txg ∧ txg ≤ s.openTxg

instance (s : MetaslabSys) (txg : Nat) : Decidable (s.Live txg) :=
  inferInstanceAs (Decidable (_ ∧ _))

/- `spa_syncing_txg`. -/
def spaSyncingTxg (s : MetaslabSys) : Nat :=
  if s.syncPass = 0 then s.syncingTxg - 1 else s.syncingTxg

end MetaslabSys

inductive MetaslabCall
  | openNext
  | nextPass
  | activate (dmuError : Nat → Nat)
  | preload (dmuError : Nat → Nat)
  | alloc (txg offset size : Nat)
  | claim (txg offset size : Nat) (dmuError : Nat → Nat)
  | free (txg offset size : Nat)
  | freeNow (txg offset size : Nat)
  | sync (wanted should : Bool)
  | condense
  | syncDone (evict : Bool)
  | skip

/- The next txg begins to sync. -/
def MetaslabSys.synced (s : MetaslabSys) (ms : Metaslab) : MetaslabSys :=
  { s with ms, syncingTxg := s.syncingTxg + 1, syncPass := 0, syncedPass := 0 }

def metaslabStep (s : MetaslabSys) : MetaslabCall → Option MetaslabSys
  | .openNext => some { s with openTxg := s.openTxg + 1 }
  | .nextPass => some { s with syncPass := s.syncPass + 1 }
  | .activate dmuError => (metaslabActivate s.ms dmuError).map fun (_, ms) => { s with ms }
  | .preload dmuError =>
    (metaslabPreload s.ms dmuError s.spaSyncingTxg).map fun ms => { s with ms }
  | .alloc txg offset size =>
    (metaslabGroupAlloc s.ms offset size txg).map fun ms =>
      { s with ms, history := .alloc txg (Finset.Ico offset (offset + size)) :: s.history }
  | .claim txg offset size dmuError =>
    (metaslabClaimDva s.ms true offset size txg dmuError).map fun (error, ms) =>
      if error = 0 then
        { s with ms, history := .alloc txg (Finset.Ico offset (offset + size)) :: s.history }
      else { s with ms }
  | .free txg offset size =>
    (metaslabFreeDva s.ms offset size txg false).map fun ms =>
      { s with ms, history := .free txg (Finset.Ico offset (offset + size)) :: s.history }
  | .freeNow txg offset size =>
    (metaslabFreeDva s.ms offset size txg true).map fun ms =>
      { s with ms, history := .undo txg (Finset.Ico offset (offset + size)) :: s.history }
  | .sync wanted should =>
    (metaslabSync s.ms s.syncingTxg s.syncPass wanted should).map fun ms =>
      { s with ms, syncedPass := s.syncPass }
  | .condense =>
    s.ms.msCondensing.bind fun tree =>
      (metaslabCondense s.ms s.syncingTxg s.syncPass tree).map fun ms => { s with ms }
  | .syncDone evict => (metaslabSyncDone s.ms s.syncingTxg evict).map fun ms => s.synced ms
  | .skip => some (s.synced s.ms)

/- Which calls the pipeline makes. `ms_sync_lock` keeps the callers that take it out of a
`metaslab_condense`, and nobody else touches the trees of the txg that is syncing meanwhile. A block
is freed once, in the txg of its allocation or a later one, and a block is given back at once only
from the `alloctree` it is in. A metaslab is passed over when it is not dirty. -/
def MetaslabCall.Allowed (s : MetaslabSys) : MetaslabCall → Prop
  | .openNext => s.openTxg < s.syncingTxg + 2
  | .nextPass => s.ms.msCondensing = none ∧ s.syncingTxg < s.openTxg
  | .activate _ => s.ms.msCondensing = none
  | .preload _ => s.ms.msCondensing = none
  | .alloc txg offset size =>
    s.ms.msCondensing = none ∧ s.Live txg ∧ s.ms.msLoaded ∧ 0 < size ∧ s.ms.Phased offset size ∧
      Finset.Ico offset (offset + size) ⊆ s.ms.msTree
  | .claim txg _ _ _ => s.ms.msCondensing = none ∧ s.Live txg
  | .free txg offset size =>
    (s.ms.msCondensing = none ∨ txg ≠ s.syncingTxg) ∧ s.Live txg ∧ 0 < size ∧
      s.ms.Phased offset size ∧ Finset.Ico offset (offset + size) ⊆ s.allocatedAsOf txg ∧
      Finset.Ico offset (offset + size) ⊆ s.allocatedAsOf s.openTxg
  | .freeNow txg offset size =>
    (s.ms.msCondensing = none ∨ txg ≠ s.syncingTxg) ∧ s.Live txg ∧ 0 < size ∧
      s.ms.Phased offset size ∧ Finset.Ico offset (offset + size) ⊆ s.ms.alloctree txg ∧
      Finset.Ico offset (offset + size) ⊆ s.allocatedAsOf s.openTxg
  | .sync _ _ => s.ms.msCondensing = none ∧ s.syncedPass < s.syncPass
  | .condense => s.ms.msCondensing.isSome
  | .syncDone _ =>
    s.ms.msCondensing = none ∧ 0 < s.syncPass ∧ s.ms.alloctree s.syncingTxg = ∅ ∧
      s.ms.freetree s.syncingTxg = ∅
  | .skip =>
    s.ms.msCondensing = none ∧ s.syncingTxg < s.openTxg ∧ s.syncedPass = 0 ∧
      s.ms.alloctree s.syncingTxg = ∅ ∧ s.ms.freetree s.syncingTxg = ∅ ∧
      s.ms.msDefertree 0 = ∅ ∧ s.ms.msDefertree 1 = ∅

instance (s : MetaslabSys) (call : MetaslabCall) : Decidable (call.Allowed s) :=
  match call with
  | .openNext => inferInstanceAs (Decidable (_ < _))
  | .activate _ | .preload _ | .condense => inferInstanceAs (Decidable (_ = _))
  | .nextPass | .alloc .. | .claim .. | .free .. | .freeNow .. | .sync .. | .syncDone _ | .skip =>
    inferInstanceAs (Decidable (_ ∧ _))

/- A metaslab as `metaslab_init` leaves it: nothing is loaded, and the space map, if it has one, was
opened from disk. -/
structure MetaslabSys.Initial (s : MetaslabSys) : Prop where
  tree : s.ms.msTree = ∅
  loaded : s.ms.msLoaded = false
  condensing : s.ms.msCondensing = none
  alloc : ∀ i, s.ms.msAlloctree i = ∅
  free : ∀ i, s.ms.msFreetree i = ∅
  defer : ∀ i, s.ms.msDefertree i = ∅
  map : ∀ sm, s.ms.msSm = some sm → sm.region = s.ms.region ∧ sm.smLength = sm.smpObjsize ∧
    sm.smAlloc = sm.smpAlloc ∧ sm.Records s.initial
  new : s.ms.msSm = none → s.initial = ∅
  txg : 0 < s.syncingTxg
  opened : s.openTxg = s.syncingTxg
  pass : s.syncPass = 0
  synced : s.syncedPass = 0
  history : s.history = []

end ClusterZfs

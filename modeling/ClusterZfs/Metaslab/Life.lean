import ClusterZfs.Lib.Stages
import ClusterZfs.Metaslab.System

/-! What a metaslab is for: every byte of it lives through one cycle, from free to allocated in an
open txg, to disk, to freed, and through the deferred frees of two txgs back to free. The trees are
the containers of the stages. -/
namespace ClusterZfs

/- `held born dying` is an allocated byte: `born` is the txg of its allocation until that is synced,
`dying` the live txg that frees it. A `dead` byte was freed in the txg that is syncing. -/
inductive Life
  | free
  | held (born dying : Option Nat)
  | dead
  | deferred (slot : Nat)

namespace Life

def isFree : Life → Prop
  | .free => True
  | _ => False

def bornIn (t : Nat) : Life → Prop
  | .held (some u) _ => u = t
  | _ => False

def dyingIn (t : Nat) : Life → Prop
  | .held _ (some u) => u = t
  | _ => False

def onDisk : Life → Prop
  | .held none _ => True
  | _ => False

def isDead : Life → Prop
  | .dead => True
  | _ => False

def deferredIn (i : Nat) : Life → Prop
  | .deferred j => j = i
  | _ => False

/- What a load sees of the txgs before the one that is syncing. -/
def shown : Life → Prop
  | .held none _ => True
  | .dead => True
  | _ => False

def aliveAt (t : Nat) : Life → Prop
  | .held born dying => (∀ u, born = some u → u ≤ t) ∧ ∀ u, dying = some u → t < u
  | _ => False

/- What is left in the tree of a `metaslab_condense` in txg `t`. -/
def condensed (t : Nat) (l : Life) : Prop :=
  ¬ l.dyingIn t ∧ ¬ l.deferredIn 0 ∧ ¬ l.deferredIn 1 ∧ ¬ l.bornIn (t + 1) ∧ ¬ l.bornIn (t + 2)

/- The stages that txgs from `lo` to `hi` can give. -/
def Within (lo hi : Nat) : Life → Prop
  | .held born dying => (∀ u, born = some u → lo ≤ u ∧ u ≤ hi) ∧
    (∀ u, dying = some u → lo ≤ u ∧ u ≤ hi) ∧
    ∀ u v, born = some u → dying = some v → u ≤ v
  | .deferred slot => slot < txgDeferSize
  | _ => True

/- The txgs that can have freed a byte less than two synced txgs ago. -/
def RecentlyFreed (syncing t : Nat) : Life → Prop
  | .held _ dying => dying = some t
  | .dead => t = syncing
  | .deferred slot => t < syncing ∧ t % txgDeferSize = slot
  | .free => False

/- The bytes of `I` go to another stage. -/
def move (life : Nat → Life) (I : RangeSet) (next : Life → Life) (x : Nat) : Life :=
  if x ∈ I then next (life x) else life x

def dieIn (t : Nat) : Life → Life
  | .held born _ => .held born (some t)
  | l => l

/- `metaslab_sync` of txg `t`. -/
def syncIn (t : Nat) : Life → Life
  | .held born dying =>
    if dying = some t then .dead else .held (if born = some t then none else born) dying
  | l => l

/- `metaslab_sync_done` of txg `t`. -/
def syncDoneIn (t : Nat) : Life → Life
  | .dead => .deferred (t % txgDeferSize)
  | .deferred slot => if slot = t % txgDeferSize then .free else .deferred slot
  | l => l

end Life

/- A load would show the bytes allocated before the txg that is syncing. -/
def Metaslab.InCore (ms : Metaslab) (life : Nat → Life) : Prop :=
  ms.smOrNew.smLength ≤ ms.smOrNew.smpObjsize ∧
    ∃ S, Tracks ms.region.range life Life.shown S ∧ ms.smOrNew.inCore.Records S

/- How the state of a metaslab shows the lives of its bytes. -/
structure Conserved (s : MetaslabSys) (life : Nat → Life) : Prop where
  units : ∀ x y, y / 2 ^ s.ms.region.smShift = x / 2 ^ s.ms.region.smShift → life y = life x
  outside : ∀ x, x ∉ s.ms.region.range → life x = .free
  within : ∀ x, (life x).Within s.syncingTxg s.openTxg
  dead : ∀ x, (life x).isDead → 0 < s.syncedPass
  tree : s.ms.msLoaded = true → Tracks s.ms.region.range life Life.isFree s.ms.msTree
  unloaded : s.ms.msLoaded = false → s.ms.msTree = ∅ ∧ ∀ x t, ¬ (life x).bornIn t
  alloc : ∀ t, s.syncingTxg ≤ t → t ≤ s.syncingTxg + 3 →
    Tracks s.ms.region.range life (Life.bornIn t) (s.ms.alloctree t)
  free : ∀ t, s.syncingTxg ≤ t → t ≤ s.syncingTxg + 2 →
    Tracks s.ms.region.range life (Life.dyingIn t) (s.ms.freetree t)
  freed : Tracks s.ms.region.range life Life.isDead (s.ms.freetree (txgClean s.syncingTxg))
  defer : ∀ i, i < txgDeferSize →
    Tracks s.ms.region.range life (Life.deferredIn i) (s.ms.msDefertree i)
  region : s.ms.smOrNew.region = s.ms.region
  disk : ∃ A, Tracks s.ms.region.range life Life.onDisk A ∧ s.ms.smOrNew.Records A
  inCore : s.ms.msLoaded = false → s.ms.InCore life
  condensing : ∀ tree, s.ms.msCondensing = some tree → s.ms.msLoaded = true ∧ s.syncPass = 1 ∧
    s.syncedPass = 1 ∧ (∀ x, ¬ (life x).isDead) ∧
    Tracks s.ms.region.range life (Life.condensed s.syncingTxg) tree
  asOf : ∀ t, s.syncingTxg ≤ t →
    Tracks s.ms.region.range life (Life.aliveAt t) (s.allocatedAsOf t)
  recent : ∀ x t, s.FreedIn t x →
    t + 3 ≤ s.syncingTxg ∨ (life x).RecentlyFreed s.syncingTxg t
  txgs : 0 < s.syncingTxg ∧ s.syncingTxg ≤ s.openTxg ∧ s.openTxg ≤ s.syncingTxg + 2
  passes : s.syncedPass ≤ s.syncPass ∧ (0 < s.syncPass → s.syncingTxg < s.openTxg)

end ClusterZfs

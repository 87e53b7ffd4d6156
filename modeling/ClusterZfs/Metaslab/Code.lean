import ClusterZfs.SpaceMap.Trees

/-! `metaslab.c`: the trees of one metaslab and their way to disk. A failed `VERIFY` stops the
system: `none`. Weights and histograms only steer the choice of a metaslab and are left out: a
metaslab is marked active only when it is loaded. -/
namespace ClusterZfs

def txgSize : Nat := 4

/- `txg & TXG_MASK`. -/
def txgSlot (txg : Nat) : Nat := txg % txgSize

/- A txg in the slot of `TXG_CLEAN(txg)`, the one before `txg`. -/
def txgClean (txg : Nat) : Nat := txg + (txgSize - 1)

def txgDeferSize : Nat := 2

def metaslabUnloadDelay : Nat := txgSize * 2

def ENOENT : Nat := 2

/- `msCondensing` is the flag `ms_condensing` and, while it is set, the `condense_tree` of the
thread that set it. -/
structure Metaslab where
  region : MapRegion
  whole : 2 ^ region.smShift ∣ region.smSize
  msTree : RangeSet
  msLoaded : Bool
  msCondensing : Option RangeSet
  msAlloctree : Nat → RangeSet
  msFreetree : Nat → RangeSet
  msDefertree : Nat → RangeSet
  msSm : Option SpaceMap
  msAccessTxg : Nat

namespace Metaslab

def alloctree (ms : Metaslab) (txg : Nat) : RangeSet := ms.msAlloctree (txgSlot txg)

def freetree (ms : Metaslab) (txg : Nat) : RangeSet := ms.msFreetree (txgSlot txg)

def setAlloctree (ms : Metaslab) (txg : Nat) (rt : RangeSet) : Metaslab :=
  { ms with msAlloctree := Function.update ms.msAlloctree (txgSlot txg) rt }

def setFreetree (ms : Metaslab) (txg : Nat) (rt : RangeSet) : Metaslab :=
  { ms with msFreetree := Function.update ms.msFreetree (txgSlot txg) rt }

/- `P2PHASE` of both by the sector size is zero. -/
def Phased (ms : Metaslab) (offset size : Nat) : Prop :=
  offset % 2 ^ ms.region.smShift = 0 ∧ size % 2 ^ ms.region.smShift = 0

instance (ms : Metaslab) (offset size : Nat) : Decidable (ms.Phased offset size) :=
  inferInstanceAs (Decidable (_ ∧ _))

end Metaslab

/- `range_tree_contains`: `range_tree_find_impl` refuses an empty range. -/
def RangeSet.contains (c : RangeSet) (start size : Nat) : Option Bool :=
  if size = 0 then none else some (decide (Finset.Ico start (start + size) ⊆ c))

/- `metaslab_load`; `dmuError` is what reads of the space map return. -/
def metaslabLoad (ms : Metaslab) (dmuError : Nat → Nat) : Option (Nat × Metaslab) :=
  let loaded := match ms.msSm with
    | some sm => spaceMapLoad sm ms.msTree .free dmuError
    | none => (ms.msTree.add ms.region.smStart ms.region.smSize).map fun tree => (0, tree)
  loaded.bind fun (error, tree) =>
    if error = 0 then
      ((List.range txgDeferSize).foldlM
          (fun tree t => (ms.msDefertree t).walk RangeSet.remove tree) tree).map
        fun tree => (0, { ms with msTree := tree, msLoaded := true })
    else some (error, { ms with msTree := tree })

def metaslabUnload (ms : Metaslab) : Metaslab := { ms with msTree := ∅, msLoaded := false }

def metaslabActivate (ms : Metaslab) (dmuError : Nat → Nat) : Option (Nat × Metaslab) :=
  if ms.msLoaded then some (0, ms) else metaslabLoad ms dmuError

def metaslabPreload (ms : Metaslab) (dmuError : Nat → Nat) (syncingTxg : Nat) : Option Metaslab :=
  (metaslabActivate ms dmuError).map fun (_, ms) =>
    { ms with msAccessTxg := syncingTxg + metaslabUnloadDelay + 1 }

/- `metaslab_block_alloc` with the `start` that the allocator returned. -/
def metaslabBlockAlloc (ms : Metaslab) (start size : Nat) : Option Metaslab :=
  if ms.msCondensing.isSome ∨ ¬ ms.Phased start size ∨
    ¬ uint64 (ms.msTree.card + (2 ^ 64 - size)) ≤ ms.region.smSize then none
  else (ms.msTree.remove start size).map fun tree => { ms with msTree := tree }

/- `metaslab_group_alloc` from the metaslab it has chosen and activated. -/
def metaslabGroupAlloc (ms : Metaslab) (offset asize txg : Nat) : Option Metaslab :=
  (metaslabBlockAlloc ms offset asize).bind fun ms =>
    ((ms.alloctree txg).add offset asize).map fun rt =>
      { ms.setAlloctree txg rt with msAccessTxg := txg + metaslabUnloadDelay }

def metaslabFreeDva (ms : Metaslab) (offset size txg : Nat) (now : Bool) : Option Metaslab :=
  if now then
    ((ms.alloctree txg).remove offset size).bind fun rt =>
      let ms := ms.setAlloctree txg rt
      if ms.msCondensing.isSome ∨ ¬ offset ≥ ms.region.smStart ∨
        ¬ uint64 (offset + size) ≤ ms.region.smStart + ms.region.smSize ∨
        ¬ uint64 (ms.msTree.card + size) ≤ ms.region.smSize ∨ ¬ ms.Phased offset size then none
      else (ms.msTree.add offset size).map fun tree => { ms with msTree := tree }
  else
    ((ms.freetree txg).add offset size).map fun rt => ms.setFreetree txg rt

/- `metaslab_claim_dva` from the metaslab of the DVA on; `txg` is zero in a dry run. -/
def metaslabClaimDva (ms : Metaslab) (writeable : Bool) (offset size txg : Nat)
    (dmuError : Nat → Nat) : Option (Nat × Metaslab) :=
  let activated := if (txg ≠ 0 ∧ writeable) ∨ ¬ ms.msLoaded then metaslabActivate ms dmuError
    else some (0, ms)
  activated.bind fun (error, ms) =>
    let checked := if error = 0 then
        (ms.msTree.contains offset size).map fun held => if held then 0 else ENOENT
      else some error
    checked.bind fun error =>
      if error ≠ 0 ∨ txg = 0 then some (error, ms)
      else if ms.msCondensing.isSome ∨ ¬ ms.Phased offset size ∨
        ¬ uint64 (ms.msTree.card + (2 ^ 64 - size)) ≤ ms.region.smSize then none
      else
        (ms.msTree.remove offset size).bind fun tree =>
          let ms := { ms with msTree := tree }
          if writeable then
            ((ms.alloctree txg).add offset size).map fun rt => (0, ms.setAlloctree txg rt)
          else some (0, ms)

/- The trees that `metaslab_condense` takes out of its `condense_tree`. -/
def condenseTrees (ms : Metaslab) (txg : Nat) : List RangeSet :=
  [ms.freetree txg, ms.msDefertree 0, ms.msDefertree 1, ms.alloctree (txg + 1),
    ms.alloctree (txg + 2)]

def condenseTree (ms : Metaslab) (txg : Nat) : Option RangeSet :=
  (RangeSet.add ∅ ms.region.smStart ms.region.smSize).bind fun whole =>
    (condenseTrees ms txg).foldlM (fun tree rt => rt.walk RangeSet.remove tree) whole

def spaceMapTruncate (sm : SpaceMap) : SpaceMap :=
  { sm with object := fun _ => 0, smpObjsize := 0, smpAlloc := 0 }

/- The rest of `metaslab_condense`, with the lock held again. -/
def condenseWrite (sm : SpaceMap) (tree msTree : RangeSet) (syncPass txg : Nat) :
    Option SpaceMap :=
  (spaceMapWrite (spaceMapTruncate sm) tree.segList .alloc syncPass txg).bind fun sm =>
    spaceMapWrite sm msTree.segList .free syncPass txg

/- What `metaslab_sync` writes when it does not condense. -/
def appendWrite (sm : SpaceMap) (alloctree freetree : RangeSet) (syncPass txg : Nat) :
    Option SpaceMap :=
  (spaceMapWrite sm alloctree.segList .alloc syncPass txg).bind fun sm =>
    spaceMapWrite sm freetree.segList .free syncPass txg

/- The end of `metaslab_sync`. -/
def metaslabSyncEnd (ms : Metaslab) (txg syncPass : Nat) : Option Metaslab :=
  let freed := if syncPass = 1 then some (ms.freetree txg, ms.freetree (txgClean txg))
    else ((ms.freetree txg).walk RangeSet.add (ms.freetree (txgClean txg))).map fun rt => (rt, ∅)
  freed.map fun (freed, rest) =>
    ((ms.setFreetree (txgClean txg) freed).setFreetree txg rest).setAlloctree txg ∅

/- The space map that `metaslab_sync` writes to; it is made when there is none. -/
def Metaslab.smOrNew (ms : Metaslab) : SpaceMap := ms.msSm.getD (newMap ms.region fun _ => 0).sm

/- `metaslab_sync` up to its end, or up to where `metaslab_condense` drops the lock. `wanted` is
`ms_condense_wanted` and `should` what `metaslab_should_condense` returns. -/
def metaslabSync (ms : Metaslab) (txg syncPass : Nat) (wanted should : Bool) : Option Metaslab :=
  if (ms.alloctree txg).card = 0 ∧ (ms.freetree txg).card = 0 ∧ ¬ wanted then some ms
  else if ms.msLoaded ∧ syncPass = 1 ∧ should then
    (condenseTree ms txg).map fun tree =>
      { ms with msSm := some ms.smOrNew, msCondensing := some tree }
  else
    (appendWrite ms.smOrNew (ms.alloctree txg) (ms.freetree txg) syncPass txg).bind fun sm =>
      metaslabSyncEnd { ms with msSm := some sm } txg syncPass

/- `metaslab_condense` and `metaslab_sync` from where the lock is taken again. -/
def metaslabCondense (ms : Metaslab) (txg syncPass : Nat) (tree : RangeSet) : Option Metaslab :=
  (condenseWrite ms.smOrNew tree ms.msTree syncPass txg).bind fun sm =>
    metaslabSyncEnd { ms with msSm := some sm, msCondensing := none } txg syncPass

/- `evict` is `!metaslab_debug_unload && metaslab_evict_enable`. -/
def metaslabSyncDone (ms : Metaslab) (txg : Nat) (evict : Bool) : Option Metaslab :=
  let tree := if ms.msLoaded then (ms.msDefertree (txg % txgDeferSize)).walk RangeSet.add ms.msTree
    else some ms.msTree
  tree.bind fun tree =>
    let ms : Metaslab := { ms.setFreetree (txgClean txg) ∅ with
      msTree := tree
      msDefertree := Function.update ms.msDefertree (txg % txgDeferSize)
        (ms.freetree (txgClean txg))
      msSm := ms.msSm.map spaceMapUpdate }
    if ms.msLoaded ∧ ms.msAccessTxg < txg then
      if (ms.alloctree (txg + 1)).card ≠ 0 ∨ (ms.alloctree (txg + 2)).card ≠ 0 then none
      else some (if evict then metaslabUnload ms else ms)
    else some ms

end ClusterZfs

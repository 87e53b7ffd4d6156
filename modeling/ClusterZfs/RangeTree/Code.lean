import ClusterZfs.Avl.Code
import ClusterZfs.RangeTree.Segments

/-! `range_tree.c`: segments in an AVL tree that is searched by overlap. `segs` holds the data of
the nodes; `new` is what `kmem_cache_alloc` returns and `tmp` a variable of `avl_remove`. A failed
`VERIFY` and `zfs_panic_recover` stop the system: `none`. The callbacks in `rt_ops` only look at the
segments they are told about and are left out. -/
namespace ClusterZfs

structure RangeTree where
  rtRoot : AvlMem
  segs : Addr → RangeSeg
  rtSpace : Nat
  rtHistogram : Nat → Nat

def uint64 (n : Nat) : Nat := n % 2 ^ 64

def rangeTreeSegCompare (r₁ r₂ : RangeSeg) : Ordering :=
  if r₁.rsStart < r₂.rsStart then
    if r₁.rsEnd > r₂.rsStart then .eq else .lt
  else if r₁.rsStart > r₂.rsStart then
    if r₁.rsStart < r₂.rsEnd then .eq else .gt
  else .eq

def rangeTreeCreate (heap : Addr → AvlNode) (segs : Addr → RangeSeg) : RangeTree :=
  ⟨⟨heap, 0#64, 0⟩, segs, 0, fun _ => 0⟩

namespace RangeTree

def setSeg (rt : RangeTree) (a : Addr) (s : RangeSeg) : RangeTree :=
  { rt with segs := Function.update rt.segs a s }

def statIncr (rt : RangeTree) (rs : Addr) : RangeTree :=
  let idx := highbit64 (rt.segs rs).size - 1
  { rt with rtHistogram := Function.update rt.rtHistogram idx (rt.rtHistogram idx + 1) }

def statDecr (rt : RangeTree) (rs : Addr) : RangeTree :=
  let idx := highbit64 (rt.segs rs).size - 1
  { rt with rtHistogram := Function.update rt.rtHistogram idx (rt.rtHistogram idx - 1) }

/- `avl_find` with the range as the value. -/
def search (rt : RangeTree) (start stop : Nat) : Option AvlFound :=
  avlFind rt.rtRoot fun a => rangeTreeSegCompare ⟨start, stop⟩ (rt.segs a)

end RangeTree

/- The end of `range_tree_add`. -/
def rangeTreeAddDone (rt : RangeTree) (rs : Addr) (size : Nat) : RangeTree :=
  let rt := rt.statIncr rs
  { rt with rtSpace := uint64 (rt.rtSpace + size) }

def rangeTreeAdd (rt : RangeTree) (new tmp : Addr) (start size : Nat) : Option RangeTree :=
  let stop := uint64 (start + size)
  if size = 0 then none
  else (rt.search start stop).bind fun
    | .found _ => none
    | .missing where_ =>
      (avlNearest rt.rtRoot where_ false).bind fun rsBefore =>
      (avlNearest rt.rtRoot where_ true).bind fun rsAfter =>
        let mergeBefore := rsBefore ≠ 0#64 ∧ (rt.segs rsBefore).rsEnd = start
        let mergeAfter := rsAfter ≠ 0#64 ∧ (rt.segs rsAfter).rsStart = stop
        if mergeBefore ∧ mergeAfter then
          (avlRemove rt.rtRoot tmp rsBefore).map fun root =>
            let rt := ({ rt with rtRoot := root }.statDecr rsBefore).statDecr rsAfter
            let rt := rt.setSeg rsAfter
              { rt.segs rsAfter with rsStart := (rt.segs rsBefore).rsStart }
            rangeTreeAddDone rt rsAfter size
        else if mergeBefore then
          let rt := rt.statDecr rsBefore
          let rt := rt.setSeg rsBefore { rt.segs rsBefore with rsEnd := stop }
          some (rangeTreeAddDone rt rsBefore size)
        else if mergeAfter then
          let rt := rt.statDecr rsAfter
          let rt := rt.setSeg rsAfter { rt.segs rsAfter with rsStart := start }
          some (rangeTreeAddDone rt rsAfter size)
        else
          let rt := rt.setSeg new ⟨start, stop⟩
          (avlInsert rt.rtRoot new where_).map fun root =>
            rangeTreeAddDone { rt with rtRoot := root } new size

def rangeTreeRemove (rt : RangeTree) (new tmp : Addr) (start size : Nat) : Option RangeTree :=
  let stop := uint64 (start + size)
  if size = 0 ∨ ¬ size ≤ rt.rtSpace then none
  else (rt.search start stop).bind fun
    | .missing _ => none
    | .found rs =>
      if ¬ ((rt.segs rs).rsStart ≤ start ∧ (rt.segs rs).rsEnd ≥ stop) then none
      else
        let leftOver := (rt.segs rs).rsStart ≠ start
        let rightOver := (rt.segs rs).rsEnd ≠ stop
        let rt := rt.statDecr rs
        let done (rt : RangeTree) : RangeTree := { rt with rtSpace := rt.rtSpace - size }
        if leftOver ∧ rightOver then
          let rt := (rt.setSeg new ⟨stop, (rt.segs rs).rsEnd⟩).statIncr new
          let rt := rt.setSeg rs { rt.segs rs with rsEnd := start }
          (avlInsertHere rt.rtRoot new rs true).map fun root =>
            done (RangeTree.statIncr { rt with rtRoot := root } rs)
        else if leftOver then
          some (done ((rt.setSeg rs { rt.segs rs with rsEnd := start }).statIncr rs))
        else if rightOver then
          some (done ((rt.setSeg rs { rt.segs rs with rsStart := stop }).statIncr rs))
        else
          (avlRemove rt.rtRoot tmp rs).map fun root => done { rt with rtRoot := root }

def rangeTreeFindImpl (rt : RangeTree) (start size : Nat) : Option AvlFound :=
  if size = 0 then none else rt.search start (uint64 (start + size))

def rangeTreeClearLoop (new tmp : Addr) (start size : Nat) : Nat → RangeTree → Option RangeTree
  | 0, _ => none
  | fuel + 1, rt =>
    (rangeTreeFindImpl rt start size).bind fun
      | .missing _ => some rt
      | .found rs =>
        let freeStart := max (rt.segs rs).rsStart start
        let freeEnd := min (rt.segs rs).rsEnd (uint64 (start + size))
        (rangeTreeRemove rt new tmp freeStart (freeEnd - freeStart)).bind
          (rangeTreeClearLoop new tmp start size fuel)

def rangeTreeClear (rt : RangeTree) (new tmp : Addr) (start size : Nat) : Option RangeTree :=
  rangeTreeClearLoop new tmp start size (size + 1) rt

/- The segments that `func` is called with, in order, and the tree afterwards. -/
def rangeTreeVacate (rt : RangeTree) : Option (List (Nat × Nat) × RangeTree) :=
  (avlDestroyAll (rt.rtRoot.avlNumnodes + 2) rt.rtRoot 0#64).map fun (nodes, root) =>
    (nodes.map fun rs => ((rt.segs rs).rsStart, (rt.segs rs).size),
      { rt with rtRoot := root, rtSpace := 0, rtHistogram := fun _ => 0 })

end ClusterZfs

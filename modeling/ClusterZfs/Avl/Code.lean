import ClusterZfs.Avl.Node
import Mathlib.Data.Int.Bitwise

/-! `avl.c` on a memory of nodes. A node stands for the data it is embedded in, `0#64` for `NULL`.
The loops take a bound on their rounds and give `none` when it is used up. -/
namespace ClusterZfs

structure AvlMem where
  heap : Addr → AvlNode
  avlRoot : Addr
  avlNumnodes : Nat

namespace AvlMem

def modify (m : AvlMem) (a : Addr) (f : AvlNode → AvlNode) : AvlMem :=
  { m with heap := Function.update m.heap a (f (m.heap a)) }

def setChild (m : AvlMem) (a : Addr) (i : Bool) (p : Addr) : AvlMem :=
  m.modify a fun n => n.setChild i p

def setParent (m : AvlMem) (a p : Addr) : AvlMem := m.modify a fun n => n.setParent p

def setChildIndex (m : AvlMem) (a : Addr) (c : Bool) : AvlMem :=
  m.modify a fun n => n.setChildIndex c

def setBalance (m : AvlMem) (a : Addr) (b : Int) : AvlMem := m.modify a fun n => n.setBalance b

/- The pointer into a subtree: a child of `parent`, or the root of the tree. -/
def link (m : AvlMem) (parent : Addr) (whichChild : Bool) (a : Addr) : AvlMem :=
  if parent ≠ 0#64 then m.setChild parent whichChild a else { m with avlRoot := a }

/- A subtree moves under another node, if there is one. -/
def reparent (m : AvlMem) (a p : Addr) (c : Bool) : AvlMem :=
  if a ≠ 0#64 then (m.setParent a p).setChildIndex a c else m

end AvlMem

def avlChild2balance (child : Bool) : Int := if child then 1 else -1

def avlBalance2child (balance : Int) : Bool := decide (balance = 1)

def avlIndex2node (x : BitVec 64) : Addr := x &&& ~~~1#64
def avlIndex2child (x : BitVec 64) : Bool := x &&& 1#64 == 1#64
def avlMkindex (n : Addr) (c : Bool) : BitVec 64 := n ||| if c then 1#64 else 0#64

def avlRotation (m : AvlMem) (node : Addr) (balance : Int) : AvlMem × Bool :=
  let left := !decide (balance < 0)
  let right := !left
  let leftHeavy := balance >>> 1
  let rightHeavy := -leftHeavy
  let parent := (m.heap node).xparent
  let child := (m.heap node).avlChild left
  let whichChild := (m.heap node).xchild
  let childBal := (m.heap child).xbalance
  if childBal ≠ rightHeavy then
    let childBal := childBal + rightHeavy
    let cright := (m.heap child).avlChild right
    let m := (m.setChild node left cright).reparent cright node left
    let m := m.setChild child right node
    let m := ((m.setBalance node (-childBal)).setChildIndex node right).setParent node child
    let m := ((m.setBalance child childBal).setChildIndex child whichChild).setParent child parent
    (m.link parent whichChild child, decide (childBal = 0))
  else
    let gchild := (m.heap child).avlChild right
    let gleft := (m.heap gchild).avlChild left
    let gright := (m.heap gchild).avlChild right
    let m := (m.setChild node left gright).reparent gright node left
    let m := (m.setChild child right gleft).reparent gleft child right
    let balance := (m.heap gchild).xbalance
    let m := m.setChild gchild left child
    let m := m.setBalance child (if balance = rightHeavy then leftHeavy else 0)
    let m := (m.setParent child gchild).setChildIndex child left
    let m := m.setChild gchild right node
    let m := m.setBalance node (if balance = leftHeavy then rightHeavy else 0)
    let m := (m.setParent node gchild).setChildIndex node right
    let m := ((m.setBalance gchild 0).setParent gchild parent).setChildIndex gchild whichChild
    (m.link parent whichChild gchild, true)

/- The climb after an insertion. -/
def avlInsertLoop : Nat → AvlMem → Addr → Bool → Option AvlMem
  | 0, _, _, _ => none
  | fuel + 1, m, node, whichChild =>
    if node = 0#64 then some m
    else
      let oldBalance := (m.heap node).xbalance
      let newBalance := oldBalance + avlChild2balance whichChild
      if newBalance = 0 then some (m.setBalance node 0)
      else if oldBalance ≠ 0 then some (avlRotation m node newBalance).1
      else
        let m := m.setBalance node newBalance
        avlInsertLoop fuel m (m.heap node).xparent (m.heap node).xchild

def avlInsert (m : AvlMem) (node : Addr) (index : BitVec 64) : Option AvlMem :=
  let parent := avlIndex2node index
  let whichChild := avlIndex2child index
  let m := { m with avlNumnodes := m.avlNumnodes + 1 }
  let m := (m.setChild node false 0#64).setChild node true 0#64
  let m := ((m.setChildIndex node whichChild).setBalance node 0).setParent node parent
  let m := m.link parent whichChild node
  avlInsertLoop (m.avlNumnodes + 1) m parent whichChild

/- As far as possible down the children on one side. -/
def avlDown : Nat → AvlMem → Bool → Addr → Option Addr
  | 0, _, _, _ => none
  | fuel + 1, m, side, node =>
    if (m.heap node).avlChild side ≠ 0#64 then avlDown fuel m side ((m.heap node).avlChild side)
    else some node

def avlInsertHere (m : AvlMem) (new here : Addr) (direction : Bool) : Option AvlMem :=
  if (m.heap here).avlChild direction ≠ 0#64 then
    (avlDown (m.avlNumnodes + 1) m (!direction) ((m.heap here).avlChild direction)).bind
      fun node => avlInsert m new (avlMkindex node (!direction))
  else avlInsert m new (avlMkindex here direction)

/- A search ends at a node or at the place where the value would be inserted. -/
inductive AvlFound where
  | found (node : Addr)
  | missing (index : BitVec 64)

def avlFindLoop (m : AvlMem) (compar : Addr → Ordering) :
    Nat → Addr → Addr → Bool → Option AvlFound
  | 0, _, _, _ => none
  | fuel + 1, node, prev, child =>
    if node = 0#64 then some (.missing (avlMkindex prev child))
    else
      match compar node with
      | .eq => some (.found node)
      | .lt => avlFindLoop m compar fuel ((m.heap node).avlChild false) node false
      | .gt => avlFindLoop m compar fuel ((m.heap node).avlChild true) node true

def avlFind (m : AvlMem) (compar : Addr → Ordering) : Option AvlFound :=
  avlFindLoop m compar (m.avlNumnodes + 1) m.avlRoot 0#64 false

/- `avl_add` panics when the value is found. -/
def avlAdd (m : AvlMem) (compar : Addr → Ordering) (new : Addr) : Option AvlMem :=
  (avlFind m compar).bind fun
    | .found _ => none
    | .missing w => avlInsert m new w

/- The way back through the parents until the walk comes from the side `right`. -/
def avlUp : Nat → AvlMem → Bool → Addr → Option Addr
  | 0, _, _, _ => none
  | fuel + 1, m, right, node =>
    let wasChild := (m.heap node).xchild
    let node := (m.heap node).xparent
    if node = 0#64 then some 0#64
    else if wasChild = right then some node
    else avlUp fuel m right node

def avlWalk (m : AvlMem) (node : Addr) (left : Bool) : Option Addr :=
  if node = 0#64 then some 0#64
  else if (m.heap node).avlChild left ≠ 0#64 then
    avlDown (m.avlNumnodes + 1) m (!left) ((m.heap node).avlChild left)
  else avlUp (m.avlNumnodes + 1) m (!left) node

def avlNearest (m : AvlMem) (index : BitVec 64) (direction : Bool) : Option Addr :=
  let node := avlIndex2node index
  if node = 0#64 then some 0#64
  else if avlIndex2child index ≠ direction then some node
  else avlWalk m node direction

/- The climb after a removal. -/
def avlRemoveLoop : Nat → AvlMem → Addr → Bool → Option AvlMem
  | 0, _, _, _ => none
  | fuel + 1, m, node, whichChild =>
    if node = 0#64 then some m
    else
      let oldBalance := (m.heap node).xbalance
      let newBalance := oldBalance - avlChild2balance whichChild
      let parent := (m.heap node).xparent
      let whichChild := (m.heap node).xchild
      if oldBalance = 0 then some (m.setBalance node newBalance)
      else if newBalance = 0 then
        avlRemoveLoop fuel (m.setBalance node newBalance) parent whichChild
      else
        let rotated := avlRotation m node newBalance
        if rotated.2 then avlRemoveLoop fuel rotated.1 parent whichChild else some rotated.1

/- The common end of a removal: `delete` has at most one child. -/
def avlUnlink (m : AvlMem) (delete : Addr) : Option AvlMem :=
  let m := { m with avlNumnodes := m.avlNumnodes - 1 }
  let parent := (m.heap delete).xparent
  let whichChild := (m.heap delete).xchild
  let node := if (m.heap delete).avlChild false ≠ 0#64 then (m.heap delete).avlChild false
    else (m.heap delete).avlChild true
  let m := (m.reparent node parent whichChild).link parent whichChild node
  avlRemoveLoop (m.avlNumnodes + 1) m parent whichChild

/- The neighbour `node` takes the place of `delete`, and `tmp`, a variable of the function, the
place of `node`. -/
def avlSwap (m : AvlMem) (tmp delete node : Addr) (left : Bool) : AvlMem :=
  let m := m.modify tmp fun _ => m.heap node
  let m := m.modify node fun _ => m.heap delete
  let m := if (m.heap node).avlChild left = node then m.setChild node left tmp else m
  let m := m.link (m.heap node).xparent (m.heap node).xchild node
  let m := m.setParent ((m.heap node).avlChild left) node
  let m := m.setParent ((m.heap node).avlChild (!left)) node
  let m := m.setChild (m.heap tmp).xparent (m.heap tmp).xchild tmp
  let whichChild := decide ((m.heap tmp).avlChild true ≠ 0#64)
  if (m.heap tmp).avlChild whichChild ≠ 0#64
  then m.setParent ((m.heap tmp).avlChild whichChild) tmp else m

def avlRemove (m : AvlMem) (tmp delete : Addr) : Option AvlMem :=
  if (m.heap delete).avlChild false ≠ 0#64 ∧ (m.heap delete).avlChild true ≠ 0#64 then
    let left := avlBalance2child (m.heap delete).xbalance
    (avlDown (m.avlNumnodes + 1) m (!left) ((m.heap delete).avlChild left)).bind fun node =>
      avlUnlink (avlSwap m tmp delete node left) tmp
  else avlUnlink m delete

def avlFirst (m : AvlMem) : Option Addr :=
  if m.avlRoot = 0#64 then some 0#64 else avlDown (m.avlNumnodes + 1) m false m.avlRoot

/- The leftmost descendant, and the node above it. -/
def avlLeftmost : Nat → AvlMem → Addr → Addr → Option (Addr × Addr)
  | 0, _, _, _ => none
  | fuel + 1, m, parent, node =>
    if (m.heap node).avlChild false ≠ 0#64
    then avlLeftmost fuel m node ((m.heap node).avlChild false)
    else some (parent, node)

/- The label `done`: the cookie for the next call, and the node to give back. -/
def avlDestroyDone (m : AvlMem) (parent node : Addr) : BitVec 64 × Addr :=
  if parent = 0#64 then (1#64, node)
  else (parent ||| (if (m.heap node).xchild then 1#64 else 0#64), node)

/- The label `check_right_side`. -/
def avlCheckRightSide (m : AvlMem) (parent node : Addr) : BitVec 64 × Addr :=
  if (m.heap node).avlChild true ≠ 0#64 then avlDestroyDone m node ((m.heap node).avlChild true)
  else avlDestroyDone m parent node

def avlDestroyNodes (m : AvlMem) (cookie : BitVec 64) : Option (AvlMem × BitVec 64 × Addr) :=
  if cookie = 0#64 then
    (avlFirst m).map fun first =>
      if first = 0#64 then (m, 1#64, 0#64)
      else (m, avlCheckRightSide m (m.heap first).xparent first)
  else
    let parent := avlIndex2node cookie
    if parent = 0#64 then
      some (if m.avlRoot ≠ 0#64 then { m with avlRoot := 0#64, avlNumnodes := 0 } else m,
        cookie, 0#64)
    else
      let child := avlIndex2child cookie
      let m := { m.setChild parent child 0#64 with avlNumnodes := m.avlNumnodes - 1 }
      if child || (m.heap parent).avlChild true = 0#64 then
        some (m, avlDestroyDone m (m.heap parent).xparent parent)
      else
        (avlLeftmost (m.avlNumnodes + 1) m parent ((m.heap parent).avlChild true)).map
          fun below => (m, avlCheckRightSide m below.1 below.2)

/- The caller's loop: the nodes in the order they are given back. -/
def avlDestroyAll : Nat → AvlMem → BitVec 64 → Option (List Addr × AvlMem)
  | 0, _, _ => none
  | fuel + 1, m, cookie =>
    (avlDestroyNodes m cookie).bind fun (m, cookie, node) =>
      if node = 0#64 then some ([], m)
      else (avlDestroyAll fuel m cookie).map fun (rest, m) => (node :: rest, m)

end ClusterZfs

import Mathlib.Data.BitVec

/-! `avl_node_t`: two child pointers and one word that holds the parent, the side of the parent the
node is on, and the balance. -/
namespace ClusterZfs

abbrev Addr := BitVec 64

/- Nodes are aligned to eight bytes, so the low bits of their addresses are free. -/
def Aligned (p : Addr) : Prop := p &&& 7#64 = 0#64

instance (p : Addr) : Decidable (Aligned p) := inferInstanceAs (Decidable (_ = _))

structure AvlNode where
  avlChild : Bool → Addr
  avlPcb : BitVec 64

namespace AvlNode

def xparent (n : AvlNode) : Addr := n.avlPcb &&& ~~~7#64

def setParent (n : AvlNode) (p : Addr) : AvlNode := { n with avlPcb := (n.avlPcb &&& 7#64) ||| p }

def xchild (n : AvlNode) : Bool := (n.avlPcb >>> 2) &&& 1#64 == 1#64

def setChildIndex (n : AvlNode) (c : Bool) : AvlNode :=
  { n with avlPcb := (n.avlPcb &&& ~~~4#64) ||| ((if c then 1#64 else 0#64) <<< 2) }

def xbalance (n : AvlNode) : Int := (n.avlPcb &&& 3#64).toNat - 1

def setBalance (n : AvlNode) (b : Int) : AvlNode :=
  { n with avlPcb := (n.avlPcb &&& ~~~3#64) ||| BitVec.ofInt 64 (b + 1) }

def setChild (n : AvlNode) (i : Bool) (p : Addr) : AvlNode :=
  { n with avlChild := Function.update n.avlChild i p }

end AvlNode

section Bits

variable (i : Nat)

theorem seven_bit (hi : i < 64) : (7#64)[i] = decide (i < 3) := by
  revert i
  decide

theorem four_bit (hi : i < 64) : (4#64)[i] = decide (i = 2) := by
  revert i
  decide

theorem three_bit (hi : i < 64) : (3#64)[i] = decide (i < 2) := by
  revert i
  decide

theorem Aligned.bit {p : Addr} (h : Aligned p) {i : Nat} (hi : i < 64) (hlow : i < 3) :
    p[i] = false := by
  have hbit := congrArg (fun v : Addr => v[i]) h
  simp only [BitVec.getElem_and, seven_bit] at hbit
  simpa [hlow] using hbit

theorem xchild_eq (n : AvlNode) : n.xchild = n.avlPcb[2] := by
  have hbit : (n.avlPcb >>> 2) &&& 1#64 = if n.avlPcb[2] then 1#64 else 0#64 := by
    ext i hi
    simp only [BitVec.getElem_and]
    by_cases h : i = 0
    · subst h
      cases h2 : n.avlPcb[2] <;> simp [h2]
    · cases h2 : n.avlPcb[2] <;> simp [h]
  rw [AvlNode.xchild, hbit]
  cases n.avlPcb[2] <;> rfl

theorem index_bit (c : Bool) (i : Nat) (hi : i < 64) :
    ((if c then 1#64 else 0#64) <<< 2)[i] = (c && decide (i = 2)) := by
  cases c
  · simp
  · revert i
    decide

theorem balance_bit {b : Int} (hlo : -1 ≤ b) (hhi : b ≤ 1) {i : Nat} (hi : i < 64)
    (hhigh : 2 ≤ i) : (BitVec.ofInt 64 (b + 1))[i] = false := by
  obtain rfl | rfl | rfl : b = -1 ∨ b = 0 ∨ b = 1 := by omega
  all_goals
    revert i
    decide

theorem balance_toNat {b : Int} (hlo : -1 ≤ b) (hhi : b ≤ 1) :
    ((BitVec.ofInt 64 (b + 1)).toNat : Int) - 1 = b := by
  obtain rfl | rfl | rfl : b = -1 ∨ b = 0 ∨ b = 1 := by omega
  all_goals decide

end Bits

namespace AvlNode

variable (n : AvlNode) {p : Addr} {b : Int} (i : Bool) (c : Bool)

@[simp] theorem setChild_child (p : Addr) : (n.setChild i p).avlChild i = p := by
  simp [setChild]

@[simp] theorem setChild_child_of_ne {i j : Bool} (h : j ≠ i) (p : Addr) :
    (n.setChild i p).avlChild j = n.avlChild j := by
  simp [setChild, h]

@[simp] theorem setChild_xparent (p : Addr) : (n.setChild i p).xparent = n.xparent := rfl
@[simp] theorem setChild_xchild (p : Addr) : (n.setChild i p).xchild = n.xchild := rfl
@[simp] theorem setChild_xbalance (p : Addr) : (n.setChild i p).xbalance = n.xbalance := rfl
@[simp] theorem setParent_child (p : Addr) : (n.setParent p).avlChild = n.avlChild := rfl
@[simp] theorem setChildIndex_child : (n.setChildIndex c).avlChild = n.avlChild := rfl
@[simp] theorem setBalance_child (b : Int) : (n.setBalance b).avlChild = n.avlChild := rfl

theorem setParent_xparent (h : Aligned p) : (n.setParent p).xparent = p := by
  unfold xparent setParent
  ext i hi
  simp only [BitVec.getElem_and, BitVec.getElem_or, BitVec.getElem_not, seven_bit]
  by_cases hlow : i < 3
  · simp [h.bit hi hlow]
  · simp [hlow]

theorem setParent_xchild (h : Aligned p) : (n.setParent p).xchild = n.xchild := by
  rw [xchild_eq, xchild_eq]
  simp only [setParent, BitVec.getElem_or, BitVec.getElem_and,
    h.bit (by decide : 2 < 64) (by decide)]
  simp

theorem setParent_xbalance (h : Aligned p) : (n.setParent p).xbalance = n.xbalance := by
  have hword : ((n.avlPcb &&& 7#64) ||| p) &&& 3#64 = n.avlPcb &&& 3#64 := by
    ext i hi
    simp only [BitVec.getElem_and, BitVec.getElem_or, seven_bit, three_bit]
    by_cases hlow : i < 2
    · have hlow3 : i < 3 := by omega
      simp [hlow3, h.bit hi hlow3]
    · simp [hlow]
  simp [xbalance, setParent, hword]

@[simp] theorem setChildIndex_xparent : (n.setChildIndex c).xparent = n.xparent := by
  unfold xparent setChildIndex
  ext i hi
  simp only [BitVec.getElem_and, BitVec.getElem_or, BitVec.getElem_not, seven_bit, four_bit,
    index_bit]
  by_cases hlow : i < 3
  · simp [hlow]
  · have hne : i ≠ 2 := by omega
    simp [hne]

@[simp] theorem setChildIndex_xchild : (n.setChildIndex c).xchild = c := by
  rw [xchild_eq]
  simp only [setChildIndex, BitVec.getElem_or, BitVec.getElem_and, BitVec.getElem_not,
    index_bit]
  simp

@[simp] theorem setChildIndex_xbalance : (n.setChildIndex c).xbalance = n.xbalance := by
  have hword : ((n.avlPcb &&& ~~~4#64) ||| ((if c then 1#64 else 0#64) <<< 2)) &&& 3#64 =
      n.avlPcb &&& 3#64 := by
    ext i hi
    simp only [BitVec.getElem_and, BitVec.getElem_or, BitVec.getElem_not, three_bit, four_bit]
    by_cases hlow : i < 2
    · have hne : i ≠ 2 := by omega
      simp [hlow, hne]
    · simp [hlow]
  simp only [xbalance, setChildIndex, hword]

section

variable (hlo : -1 ≤ b)
include hlo

section

variable (hhi : b ≤ 1)
include hhi

theorem setBalance_xparent : (n.setBalance b).xparent = n.xparent := by
  unfold xparent setBalance
  ext i hi
  simp only [BitVec.getElem_and, BitVec.getElem_or, BitVec.getElem_not, seven_bit, three_bit]
  by_cases hlow : i < 3
  · simp [hlow]
  · have hhigh : ¬ i < 2 := by omega
    simp [hhigh, balance_bit hlo hhi hi (by omega)]

theorem setBalance_xchild : (n.setBalance b).xchild = n.xchild := by
  rw [xchild_eq, xchild_eq]
  simp only [setBalance, BitVec.getElem_or, BitVec.getElem_and, BitVec.getElem_not,
    balance_bit hlo hhi (by decide : 2 < 64) (by decide)]
  simp

theorem setBalance_xbalance : (n.setBalance b).xbalance = b := by
  have hword : ((n.avlPcb &&& ~~~3#64) ||| BitVec.ofInt 64 (b + 1)) &&& 3#64 =
      BitVec.ofInt 64 (b + 1) := by
    ext i hi
    simp only [BitVec.getElem_and, BitVec.getElem_or, BitVec.getElem_not, three_bit]
    by_cases hlow : i < 2
    · simp [hlow]
    · simp [balance_bit hlo hhi hi (by omega)]
  simp only [xbalance, setBalance, hword]
  exact balance_toNat hlo hhi

variable {n' : AvlNode} {c : Bool} (hp : Aligned p)
include hp

theorem placed (hn : n' = ((n.setBalance b).setChildIndex c).setParent p) :
    n'.xparent = p ∧ n'.xchild = c ∧ n'.xbalance = b ∧ n'.avlChild = n.avlChild := by
  rw [hn, setParent_xchild _ hp, setChildIndex_xchild, setParent_xbalance _ hp,
    setChildIndex_xbalance, setBalance_xbalance _ hlo hhi]
  exact ⟨setParent_xparent _ hp, rfl, rfl, rfl⟩

theorem placed_index (hn : n' = ((n.setBalance b).setParent p).setChildIndex c) :
    n'.xparent = p ∧ n'.xchild = c ∧ n'.xbalance = b ∧ n'.avlChild = n.avlChild := by
  rw [hn, setChildIndex_xchild, setChildIndex_xparent, setParent_xparent _ hp,
    setChildIndex_xbalance, setParent_xbalance _ hp, setBalance_xbalance _ hlo hhi]
  exact ⟨rfl, rfl, rfl, rfl⟩

end

end

end AvlNode

end ClusterZfs

import ClusterZfs.SpaceMap.Encoding
import Mathlib.Algebra.BigOperators.Group.Multiset.Basic
import Mathlib.Algebra.Order.Group.Multiset
import Mathlib.Data.BitVec

/-! Block pointer objects: lists of block pointers that take over whole other lists as
sub-objects, with the space of everything below counted in the header. -/
namespace ClusterZfs

structure Dva where
  dvaWord0 : Nat
  dvaWord1 : Nat
  deriving DecidableEq

structure BlkPtr where
  blkDva0 : Dva
  blkDva1 : Dva
  blkDva2 : Dva
  blkProp : Nat
  blkPad0 : Nat
  blkPad1 : Nat
  blkPhysBirth : Nat
  blkBirth : Nat
  blkFill : Nat
  blkCksum : Nat
  deriving DecidableEq

/- What the sizes of a block pointer depend on besides its own words: the deflate ratios of the
pool's top-level devices and the table of object types. -/
structure SpaSizes where
  spaDeflate : Bool
  vdevDeflateRatio : Nat → Option Nat
  dmuOtIsMetadata : Nat → Bool

def Dva.asize (dva : Dva) : Nat := bf64Decode dva.dvaWord0 0 24 <<< 9
def Dva.vdev (dva : Dva) : Nat := bf64Decode dva.dvaWord0 32 32

namespace BlkPtr

def isEmbedded (bp : BlkPtr) : Bool := bf64Decode bp.blkProp 39 1 ≠ 0
def level (bp : BlkPtr) : Nat := bf64Decode bp.blkProp 56 5
def type (bp : BlkPtr) : Nat := bf64Decode bp.blkProp 48 8
def dedup (bp : BlkPtr) : Bool := bf64Decode bp.blkProp 62 1 ≠ 0
def isTogther (bp : BlkPtr) : Bool := bf64Decode bp.blkPad1 15 1 ≠ 0
def aggrenum (bp : BlkPtr) : Nat := bf64Decode bp.blkPad1 8 6

def lsize (bp : BlkPtr) : Nat :=
  if bp.isEmbedded then
    if bf64Decode bp.blkProp 40 8 = 0 then bf64Decode bp.blkProp 0 25 + 1 else 0
  else (bf64Decode bp.blkProp 0 16 + 1) <<< 9

def psize (bp : BlkPtr) : Nat :=
  if bp.isEmbedded then 0 else (bf64Decode bp.blkProp 16 16 + 1) <<< 9

def ucsize (spa : SpaSizes) (bp : BlkPtr) : Nat :=
  if bp.level > 0 ∨ spa.dmuOtIsMetadata bp.type then bp.psize else bp.lsize

def ndvas (bp : BlkPtr) : Nat :=
  if bp.isEmbedded then 0
  else (if bp.blkDva0.asize ≠ 0 then 1 else 0) + (if bp.blkDva1.asize ≠ 0 then 1 else 0) +
    (if bp.blkDva2.asize ≠ 0 then 1 else 0)

end BlkPtr

def dvaGetDsizeSync (spa : SpaSizes) (dva : Dva) : BitVec 64 :=
  if dva.asize ≠ 0 ∧ spa.spaDeflate then
    match spa.vdevDeflateRatio dva.vdev with
    | some ratio => BitVec.ofNat 64 (dva.asize >>> 9) * BitVec.ofNat 64 ratio
    | none => BitVec.ofNat 64 dva.asize
  else BitVec.ofNat 64 dva.asize

def bpGetDsizeSync (spa : SpaSizes) (bp : BlkPtr) : BitVec 64 :=
  let dvas := [bp.blkDva0, bp.blkDva1, bp.blkDva2].take bp.ndvas
  let dsize := dvas.foldl (fun dsize dva => dsize + dvaGetDsizeSync spa dva) 0
  if bp.isTogther ∧ bp.aggrenum ≠ 0 then dsize / BitVec.ofNat 64 bp.aggrenum else dsize

/- The three counters that are kept together everywhere: used, compressed and uncompressed. -/
abbrev BpSpace := BitVec 64 × BitVec 64 × BitVec 64

def bpSpace (spa : SpaSizes) (bp : BlkPtr) : BpSpace :=
  (bpGetDsizeSync spa bp, BitVec.ofNat 64 bp.psize, BitVec.ofNat 64 (bp.ucsize spa))

/- What `bpobj_enqueue` stores of a block pointer: nothing of an embedded payload, no checksum
unless the block may be shared by deduplication, no fill count. -/
def storedBp (bp : BlkPtr) : BlkPtr :=
  if bp.isEmbedded then
    ⟨⟨0, 0⟩, ⟨0, 0⟩, ⟨0, 0⟩, bp.blkProp, 0, 0, 0, bp.blkBirth, 0, 0⟩
  else if bp.dedup then { bp with blkFill := 0 }
  else { bp with blkCksum := 0, blkFill := 0 }

theorem storedBp_birth (bp : BlkPtr) : (storedBp bp).blkBirth = bp.blkBirth := by
  unfold storedBp
  split_ifs <;> rfl

/-- An embedded block pointer uses no space of its own, whatever its payload is. -/
theorem bpGetDsizeSync_embedded (spa : SpaSizes) {bp : BlkPtr} (h : bp.isEmbedded = true) :
    bpGetDsizeSync spa bp = 0 := by
  have hndvas : bp.ndvas = 0 := by rw [BlkPtr.ndvas, if_pos h]
  simp only [bpGetDsizeSync, hndvas, List.take_zero, List.foldl_nil]
  split
  · exact BitVec.zero_udiv
  · rfl

theorem sizes_of_prop (spa : SpaSizes) {bp bp' : BlkPtr} (h : bp.blkProp = bp'.blkProp) :
    bp.isEmbedded = bp'.isEmbedded ∧ bp.psize = bp'.psize ∧ bp.ucsize spa = bp'.ucsize spa := by
  cases bp
  cases h
  exact ⟨rfl, rfl, rfl⟩

theorem bpSpace_storedBp (spa : SpaSizes) (bp : BlkPtr) :
    bpSpace spa (storedBp bp) = bpSpace spa bp := by
  by_cases hemb : bp.isEmbedded = true
  · have hprop : (storedBp bp).blkProp = bp.blkProp := by rw [storedBp, if_pos hemb]
    obtain ⟨hemb', hpsize, hucsize⟩ := sizes_of_prop spa hprop
    rw [bpSpace, bpSpace, bpGetDsizeSync_embedded spa hemb,
      bpGetDsizeSync_embedded spa (hemb'.trans hemb), hpsize, hucsize]
  · rw [storedBp, if_neg hemb]
    split <;> rfl

/- The objects are held by value: a sub-object belongs to the object it was enqueued on and to
nothing else. `subobjs` is empty as long as `bpo_subobjs` is zero. -/
inductive Bpobj where
  | mk (blkptrs : List BlkPtr) (subobjs : List Bpobj) (numSubobjs : Nat) (space : BpSpace)

namespace Bpobj

def blkptrs : Bpobj → List BlkPtr | mk blkptrs _ _ _ => blkptrs
def subobjs : Bpobj → List Bpobj | mk _ subobjs _ _ => subobjs
def numSubobjs : Bpobj → Nat | mk _ _ numSubobjs _ => numSubobjs
def space : Bpobj → BpSpace | mk _ _ _ space => space

/- The block pointers an iteration over the object visits. -/
mutual

def blocks : Bpobj → Multiset BlkPtr
  | mk blkptrs subobjs _ _ => (blkptrs : Multiset BlkPtr) + blocksAll subobjs

def blocksAll : List Bpobj → Multiset BlkPtr
  | [] => 0
  | bpo :: bpos => blocks bpo + blocksAll bpos

end

theorem blocks_eq (bpo : Bpobj) :
    bpo.blocks = (bpo.blkptrs : Multiset BlkPtr) + blocksAll bpo.subobjs := by
  cases bpo with
  | mk blkptrs subobjs numSubobjs space => rw [blocks]; rfl

theorem blocks_mk (blkptrs : List BlkPtr) (subobjs : List Bpobj) (n : Nat) (space : BpSpace) :
    (mk blkptrs subobjs n space).blocks = blocksAll subobjs + (blkptrs : Multiset BlkPtr) := by
  rw [blocks, add_comm]

@[simp] theorem blocksAll_append (as bs : List Bpobj) :
    blocksAll (as ++ bs) = blocksAll as + blocksAll bs := by
  induction as with
  | nil => simp [blocksAll]
  | cons a as ih => simp [blocksAll, ih, add_assoc]

end Bpobj

def bpobjAlloc : Bpobj := .mk [] [] 0 0

def bpobjHasentries (bpo : Bpobj) : Bool := bpo.blkptrs.length ≠ 0 ∨ bpo.numSubobjs ≠ 0

def bpobjEnqueue (spa : SpaSizes) (bpo : Bpobj) (bp : BlkPtr) : Bpobj :=
  .mk (bpo.blkptrs ++ [storedBp bp]) bpo.subobjs bpo.numSubobjs (bpo.space + bpSpace spa bp)

/- The sub-objects of an object fit into one block of `SPA_OLD_MAXBLOCKSIZE`. -/
def oneSubobjBlock (bpo : Bpobj) : Bool := bpo.subobjs.length ≤ 2 ^ 17 / 8

/- The empty object that the lists of a pool share is `none`. A sub-object with one block of
sub-objects hands them to the new owner; its own count and its header stay as they were. -/
def bpobjEnqueueSubobj (bpo : Bpobj) : Option Bpobj → Bpobj
  | none => bpo
  | some sub =>
    if ¬ bpobjHasentries sub then bpo
    else if sub.subobjs ≠ [] ∧ oneSubobjBlock sub then
      .mk bpo.blkptrs
        (bpo.subobjs ++ .mk sub.blkptrs [] sub.numSubobjs sub.space :: sub.subobjs)
        (bpo.numSubobjs + 1 + sub.numSubobjs) (bpo.space + sub.space)
    else
      .mk bpo.blkptrs (bpo.subobjs ++ [sub]) (bpo.numSubobjs + 1) (bpo.space + sub.space)

/- The same with the answer of `dmu_object_info` left open: `dn_maxblkid` of a list of sub-objects
stays where it was when an iteration frees the end of the list, so one block is no longer a
matter of how many there are. -/
def bpobjEnqueueSubobjInfo (oneBlock : Bool) (bpo : Bpobj) : Option Bpobj → Bpobj
  | none => bpo
  | some sub =>
    if ¬ bpobjHasentries sub then bpo
    else if sub.subobjs ≠ [] ∧ oneBlock then
      .mk bpo.blkptrs
        (bpo.subobjs ++ .mk sub.blkptrs [] sub.numSubobjs sub.space :: sub.subobjs)
        (bpo.numSubobjs + 1 + sub.numSubobjs) (bpo.space + sub.space)
    else
      .mk bpo.blkptrs (bpo.subobjs ++ [sub]) (bpo.numSubobjs + 1) (bpo.space + sub.space)

theorem bpobjEnqueueSubobj_eq (bpo : Bpobj) (obj : Option Bpobj) :
    bpobjEnqueueSubobj bpo obj = bpobjEnqueueSubobjInfo (obj.all oneSubobjBlock) bpo obj := by
  cases obj <;> rfl

/- The header of an object that nothing owns yet: it counts what the object holds. -/
structure Bpobj.Counted (spa : SpaSizes) (bpo : Bpobj) : Prop where
  subobjs : bpo.numSubobjs = bpo.subobjs.length
  space : bpo.space = (bpo.blocks.map (bpSpace spa)).sum

section Counted

variable {spa : SpaSizes} {bpo : Bpobj} {obj : Option Bpobj}

theorem bpobjAlloc_counted (spa : SpaSizes) : bpobjAlloc.Counted spa :=
  ⟨rfl, by simp [bpobjAlloc, Bpobj.space, Bpobj.blocks, Bpobj.blocksAll]⟩

theorem bpobjEnqueue_blocks (bp : BlkPtr) :
    (bpobjEnqueue spa bpo bp).blocks = bpo.blocks + {storedBp bp} := by
  rw [Bpobj.blocks_eq, Bpobj.blocks_eq bpo, bpobjEnqueue, Bpobj.blkptrs, Bpobj.subobjs,
    ← Multiset.coe_add, Multiset.coe_singleton, add_right_comm]

theorem Bpobj.Counted.enqueue (h : bpo.Counted spa) (bp : BlkPtr) :
    (bpobjEnqueue spa bpo bp).Counted spa := by
  refine ⟨h.subobjs, ?_⟩
  rw [bpobjEnqueue_blocks, Multiset.map_add, Multiset.sum_add, ← h.space, Multiset.map_singleton,
    Multiset.sum_singleton, bpSpace_storedBp]
  rfl

/- The block pointers and the space of an object that may be the shared empty one. -/
def objBlocks : Option Bpobj → Multiset BlkPtr
  | none => 0
  | some bpo => bpo.blocks

def bpobjSpace : Option Bpobj → BpSpace
  | none => 0
  | some bpo => bpo.space

def ObjCounted (spa : SpaSizes) (obj : Option Bpobj) : Prop := ∀ bpo ∈ obj, bpo.Counted spa

theorem Bpobj.Counted.objCounted (h : bpo.Counted spa) : ObjCounted spa (some bpo) := by
  rintro _ ⟨⟩
  exact h

theorem ObjCounted.space (h : ObjCounted spa obj) :
    bpobjSpace obj = ((objBlocks obj).map (bpSpace spa)).sum := by
  cases obj with
  | none => rfl
  | some bpo => exact (h bpo rfl).space

theorem bpobjHasentries_blocks {sub : Bpobj} (h : sub.Counted spa)
    (hno : bpobjHasentries sub = false) : sub.blocks = 0 := by
  simp only [bpobjHasentries, ne_eq, decide_eq_false_iff_not, not_or, not_not] at hno
  have hsubs : sub.subobjs = [] := List.length_eq_zero_iff.mp (h.subobjs ▸ hno.2)
  rw [Bpobj.blocks_eq, List.length_eq_zero_iff.mp hno.1, hsubs]
  rfl

theorem Bpobj.Counted.add {bpo' : Bpobj} (h : bpo.Counted spa) {blocks : Multiset BlkPtr}
    (hblocks : bpo'.blocks = bpo.blocks + blocks) (hnum : bpo'.numSubobjs = bpo'.subobjs.length)
    (hspace : bpo'.space = bpo.space + (blocks.map (bpSpace spa)).sum) : bpo'.Counted spa :=
  ⟨hnum, by rw [hspace, hblocks, Multiset.map_add, Multiset.sum_add, h.space]⟩

theorem bpobjEnqueueSubobjInfo_spec (oneBlock : Bool) (h : bpo.Counted spa)
    (hobj : ObjCounted spa obj) :
    (bpobjEnqueueSubobjInfo oneBlock bpo obj).blocks = bpo.blocks + objBlocks obj ∧
      (bpobjEnqueueSubobjInfo oneBlock bpo obj).Counted spa := by
  cases obj with
  | none => exact ⟨(add_zero _).symm, h⟩
  | some sub =>
    have hsub : sub.Counted spa := hobj sub rfl
    by_cases hhas : bpobjHasentries sub = true
    · -- The two ways to take the object over differ in where its own sub-objects hang.
      have htaken :
          (bpobjEnqueueSubobjInfo oneBlock bpo (some sub)).blocks = bpo.blocks + sub.blocks ∧
          (bpobjEnqueueSubobjInfo oneBlock bpo (some sub)).numSubobjs =
            (bpobjEnqueueSubobjInfo oneBlock bpo (some sub)).subobjs.length ∧
          (bpobjEnqueueSubobjInfo oneBlock bpo (some sub)).space = bpo.space + sub.space := by
        rw [bpobjEnqueueSubobjInfo, if_neg (not_not.mpr hhas)]
        split
        · refine ⟨?_, ?_, rfl⟩
          · rw [Bpobj.blocks_eq, Bpobj.blocks_eq bpo, Bpobj.blocks_eq sub]
            simp [Bpobj.blkptrs, Bpobj.subobjs, Bpobj.blocksAll, Bpobj.blocks, add_assoc]
          · have hnum := h.subobjs
            have hnum' := hsub.subobjs
            simp only [Bpobj.numSubobjs, Bpobj.subobjs, List.length_append, List.length_cons]
              at hnum hnum' ⊢
            omega
        · refine ⟨?_, ?_, rfl⟩
          · rw [Bpobj.blocks_eq, Bpobj.blocks_eq bpo]
            simp [Bpobj.blkptrs, Bpobj.subobjs, Bpobj.blocksAll, add_assoc]
          · rw [Bpobj.numSubobjs, h.subobjs, Bpobj.subobjs, List.length_append,
              List.length_singleton]
      obtain ⟨hblocks, hnum, hspace⟩ := htaken
      exact ⟨hblocks, h.add hblocks hnum (by rw [hspace, hsub.space])⟩
    · rw [bpobjEnqueueSubobjInfo, if_pos hhas, objBlocks,
        bpobjHasentries_blocks hsub (Bool.eq_false_iff.mpr hhas), add_zero]
      exact ⟨rfl, h⟩

theorem bpobjEnqueueSubobj_spec (h : bpo.Counted spa) (hobj : ObjCounted spa obj) :
    (bpobjEnqueueSubobj bpo obj).blocks = bpo.blocks + objBlocks obj ∧
      (bpobjEnqueueSubobj bpo obj).Counted spa := by
  rw [bpobjEnqueueSubobj_eq]
  exact bpobjEnqueueSubobjInfo_spec _ h hobj

end Counted

end ClusterZfs

import ClusterZfs.DeadList.Iterate
import ClusterZfs.DeadList.Runs
import Mathlib.Logic.Function.Basic

/-! Any calls on the block pointer objects of a pool. An object is held by its number until it is
enqueued on another one, which owns it from then on. -/
namespace ClusterZfs

/- `oneBlock` is what `dmu_object_info` says about the list of sub-objects of the child. -/
inductive BpobjCall (σ : Type) where
  | alloc (obj : Nat)
  | enqueue (obj : Nat) (bp : BlkPtr)
  | enqueueSubobj (obj : Nat) (sub : Nat) (oneBlock : Bool)
  | enqueueEmpty (obj : Nat)
  | iterate (obj : Nat) (itor : BpobjItor σ) (arg : σ)

abbrev BpobjPool := Nat → Option Bpobj

def bpobjPoolEmpty : BpobjPool := fun _ => none

section Calls

variable {σ : Type} {pool : BpobjPool}

/- The objects after a call; none when the call names an object that is not there. A child that is
flattened has its sub-objects in one block, which the code verifies. -/
def bpobjCall (spa : SpaSizes) (pool : BpobjPool) : BpobjCall σ → Option BpobjPool
  | .alloc obj =>
    if (pool obj).isSome then none else some (Function.update pool obj (some bpobjAlloc))
  | .enqueue obj bp =>
    (pool obj).map fun bpo => Function.update pool obj (some (bpobjEnqueue spa bpo bp))
  | .enqueueSubobj obj sub oneBlock =>
    match pool obj, pool sub with
    | some bpo, some child =>
      if obj = sub ∨ (oneBlock ∧ 2 ^ 17 < child.numSubobjs * 8) then none
      else
        some (Function.update (Function.update pool sub none) obj
          (some (bpobjEnqueueSubobjInfo oneBlock bpo (some child))))
    | _, _ => none
  | .enqueueEmpty obj =>
    (pool obj).map fun bpo =>
      Function.update pool obj (some (bpobjEnqueueSubobjInfo false bpo none))
  | .iterate obj itor arg =>
    (pool obj).map fun bpo =>
      Function.update pool obj (some (bpobjIterate spa itor bpo arg).2)

variable {spa : SpaSizes} {bpo : Bpobj}

theorem bpobjAlloc_good (spa : SpaSizes) : bpobjAlloc.Good spa :=
  ⟨bpobjAlloc_counted spa, trivial⟩

theorem Bpobj.Good.enqueue (h : bpo.Good spa) (bp : BlkPtr) : (bpobjEnqueue spa bpo bp).Good spa :=
  ⟨h.counted.enqueue bp, h.owned⟩

/-- The child is owned in both forms: whole, or without the sub-objects it had. -/
theorem Bpobj.Good.enqueueSubobj {sub : Bpobj} (h : bpo.Good spa) (hsub : sub.Good spa)
    (oneBlock : Bool) : (bpobjEnqueueSubobjInfo oneBlock bpo (some sub)).Good spa := by
  refine ⟨(bpobjEnqueueSubobjInfo_spec oneBlock h.counted hsub.counted.objCounted).2, ?_⟩
  rw [bpobjEnqueueSubobjInfo]
  split
  · exact h.owned
  · split
    · rename_i hflat
      have hnum : 0 < sub.numSubobjs := by
        rw [hsub.counted.subobjs]
        exact List.length_pos_iff.mpr hflat.1
      have hbare : Bpobj.Owned spa (.mk sub.blkptrs [] sub.numSubobjs sub.space) :=
        ⟨.inr ⟨rfl, hnum⟩, trivial⟩
      exact (Bpobj.ownedAll_append _ _).mpr ⟨h.owned, hbare, hsub.owned⟩
    · exact (Bpobj.ownedAll_append _ _).mpr ⟨h.owned, hsub.owned_self, trivial⟩

def BpobjPool.Good (spa : SpaSizes) (pool : BpobjPool) : Prop :=
  ∀ obj bpo, pool obj = some bpo → bpo.Good spa

theorem BpobjPool.Good.update (h : pool.Good spa) (obj : Nat) {new : Option Bpobj}
    (hnew : ∀ bpo ∈ new, bpo.Good spa) : BpobjPool.Good spa (Function.update pool obj new) := by
  intro obj' bpo' hobj'
  rw [Function.update_apply] at hobj'
  split at hobj'
  · exact hnew bpo' hobj'
  · exact h obj' bpo' hobj'

theorem bpobjCall_good {pool' : BpobjPool} {call : BpobjCall σ} (h : pool.Good spa)
    (hcall : bpobjCall spa pool call = some pool') : pool'.Good spa := by
  cases call with
  | alloc obj =>
    simp only [bpobjCall] at hcall
    split at hcall <;> cases hcall
    exact h.update obj (by rintro _ ⟨⟩; exact bpobjAlloc_good spa)
  | enqueue obj bp =>
    obtain ⟨bpo, hbpo, rfl⟩ := Option.map_eq_some_iff.mp hcall
    exact h.update obj (by rintro _ ⟨⟩; exact (h obj bpo hbpo).enqueue bp)
  | enqueueSubobj obj sub oneBlock =>
    simp only [bpobjCall] at hcall
    split at hcall
    · rename_i bpo child hbpo hchild
      split at hcall <;> cases hcall
      have hgood := (h obj bpo hbpo).enqueueSubobj (h sub child hchild) oneBlock
      exact (h.update sub fun _ hnone => by cases hnone).update obj (by rintro _ ⟨⟩; exact hgood)
    · cases hcall
  | enqueueEmpty obj =>
    obtain ⟨bpo, hbpo, rfl⟩ := Option.map_eq_some_iff.mp hcall
    exact h.update obj (by rintro _ ⟨⟩; exact h obj bpo hbpo)
  | iterate obj itor arg =>
    obtain ⟨bpo, hbpo, rfl⟩ := Option.map_eq_some_iff.mp hcall
    exact h.update obj (by rintro _ ⟨⟩; exact (h obj bpo hbpo).iterate _)

theorem bpobj_reach_good
    (h : Reach (bpobjCall (σ := σ) spa) (fun _ _ => True) bpobjPoolEmpty pool) :
    pool.Good spa := by
  refine Reach.invariant (fun obj bpo hobj => ?_)
    (fun _ _ _ hgood _ hcall => bpobjCall_good hgood hcall) h
  cases hobj

theorem bpobjIterate_left (itor : BpobjItor σ) (bpo : Bpobj) (arg : σ) :
    let out := bpobjIterate spa itor bpo arg
    out.2.blocks + doneBps out.1.calls = bpo.blocks ∧ calledBps out.1.calls ≤ bpo.blocks := by
  obtain ⟨-, calls, hwalk⟩ := bpobjIterateImpl_walked spa itor true bpo ⟨0, arg, 0, []⟩
  have hcalls : (bpobjIterate spa itor bpo arg).1.calls = calls := hwalk.calls_eq
  dsimp only
  rw [hcalls]
  exact ⟨hwalk.kept, hwalk.called⟩

theorem bpobjIterate_complete (itor : BpobjItor σ) (h : bpo.Counted spa) (arg : σ)
    (herr : (bpobjIterate spa itor bpo arg).1.err = 0) :
    let out := bpobjIterate spa itor bpo arg
    calledBps out.1.calls = bpo.blocks ∧ bpobjHasentries out.2 = false ∧ out.2.space = 0 := by
  obtain ⟨-, calls, hwalk⟩ := bpobjIterateImpl_walked spa itor true bpo ⟨0, arg, 0, []⟩
  have hcalls : (bpobjIterate spa itor bpo arg).1.calls = calls := hwalk.calls_eq
  have hcounted : (bpobjIterate spa itor bpo arg).2.Counted spa := h.iterate _
  have hblocks : (bpobjIterate spa itor bpo arg).2.blocks = 0 := hwalk.left_eq_zero herr
  have hbps : (bpobjIterate spa itor bpo arg).2.blkptrs = [] := by
    rw [Bpobj.blocks_eq] at hblocks
    exact (Multiset.coe_eq_zero _).mp (Multiset.le_zero.mp
      ((Multiset.le_add_right _ _).trans hblocks.le))
  have hsubs : (bpobjIterate spa itor bpo arg).2.subobjs = [] := by
    rcases bpobjIterateImpl_subobjs spa itor true bpo ⟨0, arg, 0, []⟩ with
      ⟨hsame, -, hnone⟩ | ⟨w', hout, hleft, -⟩
    · exact hsame.trans (hnone herr)
    · exact hleft.trans (iterateSubobjs_complete spa itor bpo.subobjs w' (hout ▸ herr))
  refine ⟨hcalls ▸ (hwalk.complete herr).1, ?_, ?_⟩
  · simp [bpobjHasentries, hbps, hcounted.subobjs, hsubs]
  · rw [hcounted.space, hblocks]
    rfl

/-- Whatever was called before, the header of an object that is held counts the block pointers
below it, an iteration that ends calls back once for each of them and leaves the object empty,
and one that is stopped leaves those that the callback did not return 0 for. -/
theorem bpobj_accounting {pool : BpobjPool}
    (h : Reach (bpobjCall (σ := σ) spa) (fun _ _ => True) bpobjPoolEmpty pool) (obj : Nat)
    (hobj : pool obj = some bpo) :
    bpo.space = (bpo.blocks.map (bpSpace spa)).sum ∧
      ∀ (itor : BpobjItor σ) (arg : σ),
        let out := bpobjIterate spa itor bpo arg
        (out.1.err = 0 → calledBps out.1.calls = bpo.blocks ∧ bpobjHasentries out.2 = false ∧
          out.2.space = 0) ∧
        out.2.blocks + doneBps out.1.calls = bpo.blocks ∧
        calledBps out.1.calls ≤ bpo.blocks := by
  have hcounted : bpo.Counted spa := (bpobj_reach_good h obj bpo hobj).counted
  refine ⟨hcounted.space, fun itor arg => ⟨?_, bpobjIterate_left itor bpo arg⟩⟩
  exact bpobjIterate_complete itor hcounted arg

end Calls

/- A callback that counts what it is given and refuses the second one. -/
def refuseSecond : BpobjItor Nat where
  func := fun _ n => (if n = 1 then 5 else 0, n + 1)
  io := fun n => (0, n)

/-- A child that owns a child is flattened into its parent; the callback stops at the second of
the three block pointers, and the two that it is not done with stay. -/
theorem bpobj_accounting_stopped :
    ∃ (pool : BpobjPool) (bpo : Bpobj),
      Reach (bpobjCall (σ := Nat) plainSpa) (fun _ _ => True) bpobjPoolEmpty pool ∧
      pool 0 = some bpo ∧ bpo.subobjs.length = 2 ∧
      bpo.space = (bpo.blocks.map (bpSpace plainSpa)).sum ∧
      (bpobjIterate plainSpa refuseSecond bpo 0).1.calls =
        [(storedBp (sectorBorn 4), 0), (storedBp (sectorBorn 6), 5)] ∧
      (bpobjIterate plainSpa refuseSecond bpo 0).2.blocks + {storedBp (sectorBorn 4)} =
      bpo.blocks := by
  have hrun : Reach (bpobjCall (σ := Nat) plainSpa) (fun _ _ => True) bpobjPoolEmpty _ :=
    .next (a := .enqueueSubobj 0 1 true) (.next (a := .enqueue 0 (sectorBorn 4))
      (.next (a := .enqueueSubobj 1 2 true) (.next (a := .enqueue 1 (sectorBorn 5))
        (.next (a := .enqueue 2 (sectorBorn 6)) (.next (a := .alloc 2) (.next (a := .alloc 1)
          (.next (a := .alloc 0) .start trivial rfl) trivial rfl) trivial rfl) trivial rfl)
        trivial rfl) trivial rfl) trivial rfl) trivial rfl
  exact ⟨_, _, hrun, rfl, rfl, (bpobj_accounting hrun 0 rfl).1, rfl,
    ((bpobj_accounting hrun 0 rfl).2 refuseSecond 0).2.1⟩

section Nofree

variable {σ : Type} (spa : SpaSizes) (itor : BpobjItor σ)

theorem Walked.nofree {spa : SpaSizes} {calls : List (BlkPtr × Nat)} {w w' : BpobjWalk σ}
    {had left : Multiset BlkPtr} (h : Walked spa false calls w w' had left) : w'.space = w.space :=
  h.space_eq.trans (sub_zero _)

theorem iterateBlkptrs_nofree (bps : List BlkPtr) (w : BpobjWalk σ) :
    (iterateBlkptrs spa itor false bps w).2 = bps := by
  induction bps with
  | nil => rfl
  | cons bp bps ih =>
    simp only [iterateBlkptrs, Bool.false_eq_true, not_false_eq_true, or_true, if_true, ih]
    split_ifs
    all_goals rfl

mutual

theorem bpobjIterateImpl_nofree :
    ∀ (bpo : Bpobj) (w : BpobjWalk σ), (bpobjIterateImpl spa itor false bpo w).2 = bpo
  | .mk blkptrs subobjs numSubobjs space, w => by
    obtain ⟨_, hbps⟩ := iterateBlkptrs_walked spa itor false blkptrs { w with space := space }
    have hspace := hbps.nofree
    simp only [bpobjIterateImpl, iterateBlkptrs_nofree]
    split
    · rw [hspace]
    · split
      · exact congrArg _ hspace
      · obtain ⟨_, hsubs⟩ := iterateSubobjs_walked spa itor false subobjs
          ((iterateBlkptrs spa itor false blkptrs { w with space := space }).1.io itor)
        rw [iterateSubobjs_nofree, Nat.sub_self, Nat.sub_zero, hsubs.nofree]
        exact congrArg _ hspace

theorem iterateSubobjs_nofree :
    ∀ (subs : List Bpobj) (w : BpobjWalk σ), (iterateSubobjs spa itor false subs w).2 = subs
  | [], _ => rfl
  | sub :: subs, w => by
    simp only [iterateSubobjs, Bool.false_eq_true, not_false_eq_true, or_true, if_true,
      iterateSubobjs_nofree subs, bpobjIterateImpl_nofree sub]
    split_ifs
    all_goals rfl

end

/-- `bpobj_iterate_nofree` changes nothing in the object and below it, however it ends, and meets
every block pointer once if nothing stops it. -/
theorem bpobj_nofree_keeps (bpo : Bpobj) (arg : σ) :
    let out := bpobjIterateNofree spa itor bpo arg
    out.2 = bpo ∧ calledBps out.1.calls ≤ bpo.blocks ∧
      (out.1.err = 0 → calledBps out.1.calls = bpo.blocks) := by
  obtain ⟨-, calls, hwalk⟩ := bpobjIterateImpl_walked spa itor false bpo ⟨0, arg, 0, []⟩
  have hcalls : (bpobjIterateNofree spa itor bpo arg).1.calls = calls := hwalk.calls_eq
  dsimp only
  rw [hcalls]
  exact ⟨bpobjIterateImpl_nofree spa itor bpo _, hwalk.called, fun herr => (hwalk.complete herr).1⟩

end Nofree

end ClusterZfs

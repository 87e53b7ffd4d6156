import ClusterZfs.DeadList.Partition

/-! Runs of a dead list next to the pool's list of blocks to free. -/
namespace ClusterZfs

/- `given` collects the block pointers the callers have handed over. -/
structure DeadlistPool where
  dl : Deadlist
  freeBpobj : Bpobj
  given : Multiset BlkPtr

inductive DeadlistCall where
  | insert (bp : BlkPtr)
  | addKey (mintxg : Nat) (emptyBpobj : Bool)
  | removeKey (mintxg : Nat)
  | merge (obj : DeadlistObj)
  | moveBpobj (mintxg : Nat)

def deadlistStep (spa : SpaSizes) (s : DeadlistPool) : DeadlistCall → Option DeadlistPool
  | .insert bp =>
    (dslDeadlistInsert spa s.dl bp).map fun dl =>
      { s with dl := dl, given := s.given + {storedBp bp} }
  | .addKey mintxg emptyBpobj =>
    (dslDeadlistAddKey s.dl mintxg emptyBpobj).map fun dl => { s with dl := dl }
  | .removeKey mintxg => (dslDeadlistRemoveKey s.dl mintxg).map fun dl => { s with dl := dl }
  | .merge obj =>
    (dslDeadlistMerge spa s.dl obj).map fun r =>
      { s with dl := r.1, given := s.given + Deadlist.objItems obj }
  | .moveBpobj mintxg =>
    let r := dslDeadlistMoveBpobj s.dl s.freeBpobj mintxg
    some { s with dl := r.1, freeBpobj := r.2 }

/- The other list of a merge, as its cursor shows it. -/
def IsDeadlist (spa : SpaSizes) : DeadlistObj → Prop
  | .bpobj _ => True
  | .zap cursor => ∃ other : Deadlist, other.WellFormed spa ∧ cursor.Perm other.dlTree

/- The lowest key is below the births, or below the keys, of what is merged. -/
def AboveFirst (keys : List Nat) : DeadlistObj → Prop
  | .bpobj blkptrs => ∀ bp ∈ blkptrs, ∃ k ∈ keys, k < bp.blkBirth
  | .zap cursor => ∀ dle ∈ cursor, ∃ k ∈ keys, k ≤ dle.dleMintxg

/- No key lies inside the interval of a piece that is merged. -/
def Uncut (keys : List Nat) : DeadlistObj → Prop
  | .bpobj _ => True
  | .zap cursor => ∀ dle ∈ cursor, ∀ bp ∈ dle.blocks, ∀ k ∈ keys,
      k ≤ dle.dleMintxg ∨ bp.blkBirth ≤ k

/- What the comments on the operations ask of the callers. -/
def DeadlistCall.Stated (spa : SpaSizes) (s : DeadlistPool) : DeadlistCall → Prop
  | .insert bp => ∃ k ∈ s.dl.keys, k < bp.blkBirth
  | .addKey mintxg _ => ∀ k ∈ s.dl.keys, k < mintxg
  | .removeKey mintxg => mintxg ∈ s.dl.keys.tail
  | .merge obj => IsDeadlist spa obj ∧ AboveFirst s.dl.keys obj
  | .moveBpobj _ => True

/- What the callers keep to besides: a new key is not earlier than any birth in the list, and
the intervals of a merged list lie between the keys. -/
def DeadlistCall.Aligned (spa : SpaSizes) (s : DeadlistPool) (call : DeadlistCall) : Prop :=
  call.Stated spa s ∧
    match call with
    | .addKey mintxg _ => ∀ bp ∈ s.dl.blocks, bp.blkBirth ≤ mintxg
    | .merge obj => Uncut s.dl.keys obj
    | _ => True

structure DeadlistPool.WellFormed (spa : SpaSizes) (s : DeadlistPool) : Prop where
  dl : s.dl.WellFormed spa
  freeBpobj : s.freeBpobj.Counted spa
  given : s.dl.blocks + s.freeBpobj.blocks = s.given

section Step

variable {spa : SpaSizes} {s : DeadlistPool}

theorem mergeable_of_aligned {obj : DeadlistObj} (hobj : IsDeadlist spa obj)
    (hfirst : AboveFirst s.dl.keys obj) (huncut : Uncut s.dl.keys obj) :
    Deadlist.Mergeable spa s.dl obj := by
  cases obj with
  | bpobj blkptrs => exact hfirst
  | zap cursor =>
    obtain ⟨other, hother, hperm⟩ := hobj
    intro dle hdle
    have hmem : dle ∈ other.dlTree := hperm.mem_iff.mp hdle
    exact ⟨hother.counted dle hmem, hfirst dle hdle, fun bp hbp =>
      ⟨hother.partitioned.above dle.bucket (List.mem_map_of_mem hmem) bp hbp,
        huncut dle hdle bp hbp⟩⟩

theorem deadlistStep_wellFormed (h : s.WellFormed spa) {call : DeadlistCall}
    (hcall : call.Aligned spa s) :
    ∃ s', deadlistStep spa s call = some s' ∧ s'.WellFormed spa := by
  cases call with
  | insert bp =>
    obtain ⟨dl', hstep, hgains⟩ := Deadlist.insert_gains h.dl bp hcall.1
    exact ⟨_, congrArg (Option.map _) hstep, hgains.wellFormed, h.freeBpobj,
      by rw [hgains.blocks, ← h.given, add_right_comm]⟩
  | addKey mintxg emptyBpobj =>
    have hlast : ∀ dle ∈ s.dl.dlTree, dle.dleMintxg < mintxg ∧
        ∀ bp ∈ dle.blocks, bp.blkBirth ≤ mintxg := by
      intro dle hdle
      refine ⟨hcall.1 _ (List.mem_map_of_mem hdle), fun bp hbp => hcall.2 bp ?_⟩
      exact mem_bucketItems.mpr ⟨dle.bucket, List.mem_map_of_mem hdle, hbp⟩
    obtain ⟨dl', hstep, hdl', hblocks⟩ := Deadlist.addKey_spec h.dl mintxg emptyBpobj hlast
    exact ⟨_, congrArg (Option.map _) hstep, hdl', h.freeBpobj,
      hblocks ▸ h.given⟩
  | removeKey mintxg =>
    obtain ⟨dl', hstep, hdl', hblocks⟩ := Deadlist.removeKey_spec h.dl hcall.1
    exact ⟨_, congrArg (Option.map _) hstep, hdl', h.freeBpobj,
      hblocks ▸ h.given⟩
  | merge obj =>
    obtain ⟨dl', obj', hstep, -, hgains⟩ := Deadlist.merge_gains h.dl
      (mergeable_of_aligned hcall.1.1 hcall.1.2 hcall.2)
    exact ⟨_, congrArg (Option.map _) hstep, hgains.wellFormed, h.freeBpobj,
      by rw [hgains.blocks, ← h.given, add_right_comm]⟩
  | moveBpobj mintxg =>
    obtain ⟨hdl, hbpo, hblocks⟩ := Deadlist.moveBpobj_spec h.dl h.freeBpobj mintxg
    exact ⟨_, rfl, hdl, hbpo, hblocks.trans h.given⟩

end Step

section Runs

variable {spa : SpaSizes} {s₀ s : DeadlistPool}

/-- After any run of aligned calls the list is partitioned by birth, no block pointer is lost or
there twice, the counters are the sums, a range between two keys counts the births in it, and
every further aligned call goes through. -/
theorem dead_list_partition (h₀ : s₀.WellFormed spa)
    (hreach : Reach (deadlistStep spa) (fun s call => DeadlistCall.Aligned spa s call) s₀ s) :
    s.dl.Partitioned ∧
      s.dl.blocks + s.freeBpobj.blocks = s.given ∧
      s.dl.dlSpace = (s.dl.blocks.map (bpSpace spa)).sum ∧
      (∀ mintxg ∈ s.dl.keys, ∀ maxtxg ∈ s.dl.keys, dslDeadlistSpaceRange s.dl mintxg maxtxg =
        ((s.dl.blocks.filter fun bp => mintxg < bp.blkBirth ∧ bp.blkBirth ≤ maxtxg).map
          (bpSpace spa)).sum) ∧
      ∀ call : DeadlistCall, call.Aligned spa s → ∃ s', deadlistStep spa s call = some s' := by
  have h : s.WellFormed spa := by
    refine Reach.invariant h₀ (fun t u call ht hok hstep => ?_) hreach
    obtain ⟨u', hstep', hu'⟩ := deadlistStep_wellFormed ht hok
    cases hstep.symm.trans hstep'
    exact hu'
  refine ⟨h.dl.partitioned, h.given, h.dl.space, fun mintxg hmin maxtxg hmax =>
    Deadlist.spaceRange_eq h.dl hmin hmax, fun call hcall => ?_⟩
  obtain ⟨s', hstep, -⟩ := deadlistStep_wellFormed h hcall
  exact ⟨s', hstep⟩

end Runs

def newDeadlistPool : DeadlistPool := ⟨dslDeadlistAlloc, bpobjAlloc, 0⟩

theorem newDeadlistPool_wellFormed (spa : SpaSizes) : newDeadlistPool.WellFormed spa := by
  exact ⟨⟨BucketPartition.nil, nofun, rfl⟩, bpobjAlloc_counted spa, rfl⟩

section Sector

/- One sector on a device that is not deflated, born in the given group. -/
def plainSpa : SpaSizes := ⟨false, fun _ => none, fun _ => false⟩

def sectorBorn (txg : Nat) : BlkPtr := ⟨⟨1, 0⟩, ⟨0, 0⟩, ⟨0, 0⟩, 0, 0, 0, 0, txg, 0, 0⟩

/- The keys 0 and 5, with an object under the first. -/
def twoKeys (obj : Option Bpobj) (given : Multiset BlkPtr) (space : BpSpace) : DeadlistPool :=
  ⟨⟨space, [⟨0, obj⟩, ⟨5, none⟩]⟩, bpobjAlloc, given⟩

theorem reach_twoKeys (spa : SpaSizes) :
    Reach (deadlistStep spa) (fun s call => DeadlistCall.Aligned spa s call) newDeadlistPool
      (twoKeys none 0 0) := by
  have hfirst : DeadlistCall.Aligned spa newDeadlistPool (.addKey 0 true) :=
    ⟨show ∀ k ∈ ([] : List Nat), k < 0 by decide,
      show ∀ bp ∈ (0 : Multiset BlkPtr), bp.blkBirth ≤ 0 by decide⟩
  have hsecond : DeadlistCall.Aligned spa ⟨⟨0, [⟨0, none⟩]⟩, bpobjAlloc, 0⟩ (.addKey 5 true) :=
    ⟨show ∀ k ∈ [0], k < 5 by decide,
      show ∀ bp ∈ Deadlist.blocks ⟨0, [⟨0, none⟩]⟩, bp.blkBirth ≤ 5 by decide⟩
  exact .next (.next .start hfirst rfl) hsecond rfl

/- A list of its own with the key 0 and one block. -/
theorem oneKey_wellFormed {txg : Nat} (h : 0 < txg) :
    Deadlist.WellFormed plainSpa ⟨0 + bpSpace plainSpa (sectorBorn txg),
      [⟨0, some (bpobjEnqueue plainSpa bpobjAlloc (sectorBorn txg))⟩]⟩ := by
  have hkey : Deadlist.WellFormed plainSpa ⟨0, [⟨0, none⟩]⟩ := by
    obtain ⟨dl', hstep, hdl', -⟩ := Deadlist.addKey_spec
      (newDeadlistPool_wellFormed plainSpa).dl 0 true (fun dle hdle => by cases hdle)
    cases hstep
    exact hdl'
  obtain ⟨dl', hstep, hgains⟩ := Deadlist.insert_gains hkey (sectorBorn txg)
    ⟨0, List.mem_singleton_self 0, h⟩
  have hbefore : Deadlist.before ⟨0, [⟨0, none⟩]⟩ txg = [⟨0, none⟩] := by
    simp [Deadlist.before, h]
  have hafter : Deadlist.after ⟨0, [⟨0, none⟩]⟩ txg = [] := by simp [Deadlist.after, h]
  rw [dslDeadlistInsert, show (sectorBorn txg).blkBirth = txg from rfl, hbefore, hafter] at hstep
  cases hstep
  exact hgains.wellFormed

theorem twoKeys_under {obj : Option Bpobj} {given : Multiset BlkPtr}
    {space : BpSpace} (h : (twoKeys obj given space).dl.Partitioned) (bp : BlkPtr)
    (hbp : bp ∈ objBlocks obj) : bp.blkBirth ≤ 5 :=
  ((List.pairwise_cons.mp h.ordered).1 _ (List.mem_singleton_self _)).2 bp hbp

/-- One block is inserted and one comes with a merge under key 0, a third is born under key 5, which
is then removed; the last one, under key 12, moves to the list of blocks to free. -/
theorem dead_list_partition_calls :
    ∃ s : DeadlistPool, s.dl.keys = [0, 9] ∧
      s.dl.blocks = {sectorBorn 3, sectorBorn 4, sectorBorn 7} ∧
      s.freeBpobj.blocks = {sectorBorn 14} ∧
      s.dl.Partitioned ∧ s.dl.blocks + s.freeBpobj.blocks = s.given ∧
      dslDeadlistSpaceRange s.dl 0 9 =
        ((s.dl.blocks.filter fun bp => 0 < bp.blkBirth ∧ bp.blkBirth ≤ 9).map
          (bpSpace plainSpa)).sum := by
  have hrun : ∃ s, Reach (deadlistStep plainSpa)
      (fun s call => DeadlistCall.Aligned plainSpa s call) newDeadlistPool s ∧ s.dl.keys = [0, 9] ∧
      s.dl.blocks = {sectorBorn 3, sectorBorn 4, sectorBorn 7} ∧
      s.freeBpobj.blocks = {sectorBorn 14} := by
    refine ⟨_, .next (a := .moveBpobj 12) (.next (a := .insert (sectorBorn 14))
      (.next (a := .addKey 12 true) (.next (a := .removeKey 5) (.next (a := .insert (sectorBorn 7))
      (.next (a := .addKey 9 true) (.next (a := .merge (.zap
        [⟨0, some (bpobjEnqueue plainSpa bpobjAlloc (sectorBorn 4))⟩]))
      (.next (a := .insert (sectorBorn 3)) (reach_twoKeys plainSpa) ?_ rfl) ?_ rfl) ?_ rfl) ?_ rfl)
      ?_ rfl) ?_ rfl) ?_ rfl) ?_ rfl, ?_, ?_, ?_⟩
    · exact ⟨show ∃ k ∈ [0, 5], k < 3 by decide, trivial⟩
    · refine ⟨⟨⟨_, oneKey_wellFormed (by decide), .refl _⟩,
        fun dle _ => ⟨0, List.mem_cons_self, Nat.zero_le _⟩⟩, List.forall_mem_singleton.mpr ?_⟩
      change ∀ bp ∈ (_ : Multiset BlkPtr), ∀ k ∈ [0, 5], k ≤ 0 ∨ bp.blkBirth ≤ k
      decide +kernel
    · exact ⟨show ∀ k ∈ [0, 5], k < 9 by decide,
        show ∀ bp ∈ (_ : Multiset BlkPtr), bp.blkBirth ≤ 9 by decide +kernel⟩
    · exact ⟨show ∃ k ∈ [0, 5, 9], k < 7 by decide, trivial⟩
    · exact ⟨show 5 ∈ [5, 9] by decide, trivial⟩
    · exact ⟨show ∀ k ∈ [0, 9], k < 12 by decide,
        show ∀ bp ∈ (_ : Multiset BlkPtr), bp.blkBirth ≤ 12 by decide +kernel⟩
    · exact ⟨show ∃ k ∈ [0, 9, 12], k < 14 by decide, trivial⟩
    · exact ⟨trivial, trivial⟩
    · rfl
    · decide +kernel
    · decide +kernel
  obtain ⟨s, hs, hkeys, hblocks, hfree⟩ := hrun
  obtain ⟨hpart, hgiven, -, hrange, -⟩ :=
    dead_list_partition (newDeadlistPool_wellFormed plainSpa) hs
  refine ⟨s, hkeys, hblocks, hfree, hpart, hgiven, hrange 0 ?_ 9 ?_⟩ <;>
    simp [hkeys]

/-- A list with the single key 0 holds a block born in group 7 and is merged into a list with the
keys 0 and 5: the block goes under key 0, above the next key, and the range from 0 to 5 counts
it. -/
theorem dead_list_merge_cut :
    ∃ s : DeadlistPool,
      Reach (deadlistStep plainSpa) (fun s call => DeadlistCall.Stated plainSpa s call)
        newDeadlistPool s ∧
      ¬ s.dl.Partitioned ∧ 0 ∈ s.dl.keys ∧ 5 ∈ s.dl.keys ∧
      dslDeadlistSpaceRange s.dl 0 5 ≠
        ((s.dl.blocks.filter fun bp => 0 < bp.blkBirth ∧ bp.blkBirth ≤ 5).map
          (bpSpace plainSpa)).sum := by
  let bpo := bpobjEnqueue plainSpa bpobjAlloc (sectorBorn 7)
  have hmerge :
      DeadlistCall.Stated plainSpa (twoKeys none 0 0) (.merge (.zap [⟨0, some bpo⟩])) := by
    exact ⟨⟨_, oneKey_wellFormed (by decide), .refl _⟩,
      fun dle _ => ⟨0, List.mem_cons_self, Nat.zero_le _⟩⟩
  have hrun := Reach.next (u := twoKeys (some bpo) (0 + {storedBp (sectorBorn 7)} + 0)
    (0 + bpo.space))
    ((reach_twoKeys plainSpa).mono fun s call hcall => hcall.1) hmerge rfl
  refine ⟨_, hrun, fun hpart => ?_, by decide, by decide, by decide⟩
  exact absurd (twoKeys_under hpart (storedBp (sectorBorn 7)) (by decide)) (by decide)

/-- The same block is in the list before the key 5 is added. -/
theorem dead_list_key_cut :
    ∃ s : DeadlistPool,
      Reach (deadlistStep plainSpa) (fun s call => DeadlistCall.Stated plainSpa s call)
        newDeadlistPool s ∧
      ¬ s.dl.Partitioned ∧ 0 ∈ s.dl.keys ∧ 5 ∈ s.dl.keys ∧
      dslDeadlistSpaceRange s.dl 0 5 ≠
        ((s.dl.blocks.filter fun bp => 0 < bp.blkBirth ∧ bp.blkBirth ≤ 5).map
          (bpSpace plainSpa)).sum := by
  have hrun : Reach (deadlistStep plainSpa) (fun s call => DeadlistCall.Stated plainSpa s call)
      newDeadlistPool (twoKeys (some (bpobjEnqueue plainSpa bpobjAlloc (sectorBorn 7)))
        (0 + {storedBp (sectorBorn 7)}) (0 + bpSpace plainSpa (sectorBorn 7))) := by
    refine .next (a := .addKey 5 true) (.next (a := .insert (sectorBorn 7))
      (.next (a := .addKey 0 true) .start ?_ rfl) ?_ rfl) ?_ rfl
    · exact show ∀ k ∈ ([] : List Nat), k < 0 by decide
    · exact show ∃ k ∈ [0], k < 7 by decide
    · exact show ∀ k ∈ [0], k < 5 by decide
  refine ⟨_, hrun, fun hpart => ?_, by decide, by decide, by decide⟩
  exact absurd (twoKeys_under hpart (storedBp (sectorBorn 7)) (by decide)) (by decide)

end Sector

end ClusterZfs

import ClusterZfs.DeadList.Bpobj
import ClusterZfs.Lib.Runs
import Mathlib.Tactic.Abel

/-! `bpobj_iterate`: a walk over everything below an object, from the last entry to the first,
that takes out what its callback is done with. The `ASSERT`s are left out; what they check is
proved of every object the calls below build. -/
namespace ClusterZfs

/- What a walk meets outside of the objects: the callback with its argument, and the reads and
frees of the DMU, each of which may fail. -/
structure BpobjItor (σ : Type) where
  func : BlkPtr → σ → Nat × σ
  io : σ → Nat × σ

/- Where a walk stands: `space` belongs to the object whose entries are being walked, `calls` holds
the calls of the callback so far with what they returned. -/
structure BpobjWalk (σ : Type) where
  err : Nat
  arg : σ
  space : BpSpace
  calls : List (BlkPtr × Nat)

section Code

variable {σ : Type} (spa : SpaSizes) (itor : BpobjItor σ) (free : Bool)

/- A call into the DMU. -/
def BpobjWalk.io (w : BpobjWalk σ) : BpobjWalk σ :=
  { w with err := (itor.io w.arg).1, arg := (itor.io w.arg).2 }

def BpobjWalk.call (bp : BlkPtr) (w : BpobjWalk σ) : BpobjWalk σ :=
  { err := (itor.func bp w.arg).1
    arg := (itor.func bp w.arg).2
    space :=
      if (itor.func bp w.arg).1 = 0 ∧ free then w.space - bpSpace spa bp else w.space
    calls := w.calls ++ [(bp, (itor.func bp w.arg).1)] }

/- Back from a sub-object: the space it lost is taken from the object that owns it, also when the
walk below was stopped. -/
def BpobjWalk.back (w below : BpobjWalk σ) (before after : BpSpace) : BpobjWalk σ :=
  { below with space := if free then w.space - (before - after) else w.space }

/- The first loop, from the last entry on, with what `dmu_free_range` leaves of the list. -/
def iterateBlkptrs : List BlkPtr → BpobjWalk σ → BpobjWalk σ × List BlkPtr
  | [], w => (w, [])
  | bp :: bps, w =>
    let (w, left) := iterateBlkptrs bps w
    if w.err ≠ 0 then (w, bp :: left)
    else
      let held := w.io itor
      if held.err ≠ 0 then (held, bp :: left)
      else
        let w := held.call spa itor free bp
        if w.err ≠ 0 ∨ ¬ free then (w, bp :: left) else (w, left)

mutual

def bpobjIterateImpl : Bpobj → BpobjWalk σ → BpobjWalk σ × Bpobj
  | .mk blkptrs subobjs numSubobjs space, w =>
    let (w, left) := iterateBlkptrs spa itor free blkptrs { w with space := space }
    if w.err ≠ 0 ∨ subobjs.isEmpty then (w, .mk left subobjs numSubobjs w.space)
    else
      let info := w.io itor
      if info.err ≠ 0 then (info, .mk left subobjs numSubobjs info.space)
      else
        let (w, leftSubobjs) := iterateSubobjs subobjs info
        (w, .mk left leftSubobjs (numSubobjs - (subobjs.length - leftSubobjs.length)) w.space)

/- The second loop, from the last sub-object on. -/
def iterateSubobjs : List Bpobj → BpobjWalk σ → BpobjWalk σ × List Bpobj
  | [], w => (w, [])
  | sub :: subs, w =>
    let (w, left) := iterateSubobjs subs w
    if w.err ≠ 0 then (w, sub :: left)
    else
      let opened := w.io itor
      if opened.err ≠ 0 then (opened, sub :: left)
      else
        let (below, sub') := bpobjIterateImpl sub opened
        let after := w.back free below sub.space sub'.space
        if after.err ≠ 0 ∨ ¬ free then (after, sub' :: left)
        else
          let freed := after.io itor
          if freed.err ≠ 0 then (freed, sub' :: left) else (freed, left)

end

def bpobjIterate (bpo : Bpobj) (arg : σ) : BpobjWalk σ × Bpobj :=
  bpobjIterateImpl spa itor true bpo ⟨0, arg, 0, []⟩

def bpobjIterateNofree (bpo : Bpobj) (arg : σ) : BpobjWalk σ × Bpobj :=
  bpobjIterateImpl spa itor false bpo ⟨0, arg, 0, []⟩

end Code

/- The block pointers of some calls, and of those that returned 0. -/
def calledBps (calls : List (BlkPtr × Nat)) : Multiset BlkPtr := calls.map Prod.fst
def doneBps (calls : List (BlkPtr × Nat)) : Multiset BlkPtr :=
  calledBps (calls.filter fun c => c.2 = 0)

@[simp] theorem calledBps_append (as bs : List (BlkPtr × Nat)) :
    calledBps (as ++ bs) = calledBps as + calledBps bs := by
  simp [calledBps]

@[simp] theorem doneBps_append (as bs : List (BlkPtr × Nat)) :
    doneBps (as ++ bs) = doneBps as + doneBps bs := by
  simp [doneBps]

section Walked

variable {σ : Type} {spa : SpaSizes} {itor : BpobjItor σ} {free : Bool}
  {w w' w'' : BpobjWalk σ} {calls calls' : List (BlkPtr × Nat)}
  {had left had' left' : Multiset BlkPtr} (subs : List Bpobj)

/- The block pointers that a part of a walk takes out. -/
def takenBps (free : Bool) (calls : List (BlkPtr × Nat)) : Multiset BlkPtr :=
  if free then doneBps calls else 0

theorem takenBps_append (free : Bool) (as bs : List (BlkPtr × Nat)) :
    takenBps free (as ++ bs) = takenBps free as + takenBps free bs := by
  cases free <;> simp [takenBps]

/- A part of a walk from `w` to `w'` that met the block pointers `had` and left `left` of them. -/
structure Walked (spa : SpaSizes) (free : Bool) (calls : List (BlkPtr × Nat))
    (w w' : BpobjWalk σ) (had left : Multiset BlkPtr) : Prop where
  calls_eq : w'.calls = w.calls ++ calls
  kept : left + takenBps free calls = had
  called : calledBps calls ≤ had
  complete : w'.err = 0 → calledBps calls = had ∧ doneBps calls = had
  space_eq : w'.space = w.space - ((takenBps free calls).map (bpSpace spa)).sum

theorem Walked.stay (hcalls : w'.calls = w.calls) (hspace : w'.space = w.space)
    (hstop : w'.err = 0 → had = 0) : Walked spa free [] w w' had had := by
  have htaken : takenBps free [] = 0 := by cases free <;> rfl
  refine ⟨by rw [hcalls, List.append_nil], by rw [htaken, add_zero], Multiset.zero_le _,
    fun herr => hstop herr ▸ ⟨rfl, rfl⟩, ?_⟩
  rw [htaken, hspace, Multiset.map_zero, Multiset.sum_zero, sub_zero]

section

variable (h : Walked spa free calls w w' had left)
include h

theorem Walked.trans (herr : w'.err = 0)
    (h' : Walked spa free calls' w' w'' had' left') :
    Walked spa free (calls ++ calls') w w'' (had' + had) (left' + left) := by
  obtain ⟨hcalled, hdone⟩ := h.complete herr
  constructor
  · rw [h'.calls_eq, h.calls_eq, List.append_assoc]
  · rw [takenBps_append, ← h.kept, ← h'.kept]
    abel
  · rw [calledBps_append, add_comm had']
    exact add_le_add h.called h'.called
  · intro herr'
    obtain ⟨hcalled', hdone'⟩ := h'.complete herr'
    rw [calledBps_append, doneBps_append, hcalled, hdone, hcalled', hdone', add_comm had]
    exact ⟨rfl, rfl⟩
  · rw [h'.space_eq, h.space_eq, takenBps_append, Multiset.map_add, Multiset.sum_add, sub_sub]

theorem Walked.stopped (herr : w'.err ≠ 0)
    (more : Multiset BlkPtr) : Walked spa free calls w w' (more + had) (more + left) := by
  refine ⟨h.calls_eq, by rw [add_assoc, h.kept], ?_, fun h0 => absurd h0 herr, h.space_eq⟩
  exact h.called.trans (Multiset.le_add_left had more)

omit h in
/-- A call into the DMU before a walk or after it changes nothing the walk is about. -/
theorem Walked.io_before (h : Walked spa free calls (w.io itor) w' had left) :
    Walked spa free calls w w' had left :=
  { h with }

theorem Walked.io_after (herr : (w'.io itor).err = 0 → w'.err = 0) :
    Walked spa free calls w (w'.io itor) had left :=
  { h with complete := fun h0 => h.complete (herr h0) }

theorem Walked.failed (herr : (w'.io itor).err ≠ 0)
    (more : Multiset BlkPtr) : Walked spa free calls w (w'.io itor) (more + had) (more + left) :=
  (h.io_after fun h0 => absurd h0 herr).stopped herr more

end

theorem Walked.left_eq_zero (h : Walked spa true calls w w' had left) (herr : w'.err = 0) :
    left = 0 := by
  have hkept : left + doneBps calls = had := h.kept
  rw [(h.complete herr).2] at hkept
  exact add_eq_right.mp hkept

theorem walked_call (spa : SpaSizes) (itor : BpobjItor σ) (free : Bool) (w : BpobjWalk σ)
    (bp : BlkPtr) :
    Walked spa free [(bp, (itor.func bp w.arg).1)] w (w.call spa itor free bp) {bp}
      (if ¬ (w.call spa itor free bp).err = 0 ∨ ¬ free then {bp} else 0) := by
  by_cases herr : (itor.func bp w.arg).1 = 0
  · cases free <;> refine ⟨rfl, ?_, ?_, fun _ => ?_, ?_⟩ <;>
      simp [takenBps, calledBps, doneBps, BpobjWalk.call, herr]
  · have htaken : takenBps free [(bp, (itor.func bp w.arg).1)] = 0 := by
      cases free <;> simp [takenBps, doneBps, calledBps, herr]
    refine ⟨rfl, ?_, le_rfl, fun h0 => absurd h0 herr, ?_⟩
    · rw [if_pos (.inl herr), htaken, add_zero]
    · simp [htaken, BpobjWalk.call, herr]

/-- Taking from the counters of the owner what a sub-object lost. -/
theorem Walked.below {below : BpobjWalk σ} {space : BpSpace}
    (h : Walked spa free calls { w with space := space } below had left) (w₀ : BpobjWalk σ)
    (hcalls : w.calls = w₀.calls) :
    Walked spa free calls w₀ (w₀.back free below space below.space) had left := by
  refine ⟨hcalls ▸ h.calls_eq, h.kept, h.called, h.complete, ?_⟩
  cases free with
  | false => simp [takenBps, BpobjWalk.back]
  | true => rw [BpobjWalk.back, if_pos rfl, h.space_eq, sub_sub_cancel]

variable (spa itor free)

theorem iterateBlkptrs_walked (bps : List BlkPtr) (w : BpobjWalk σ) :
    ∃ calls, Walked spa free calls w (iterateBlkptrs spa itor free bps w).1 bps
      (iterateBlkptrs spa itor free bps w).2 := by
  induction bps with
  | nil => exact ⟨[], .stay rfl rfl fun _ => rfl⟩
  | cons bp bps ih =>
    obtain ⟨calls, ih⟩ := ih
    rw [iterateBlkptrs]
    rcases hbps : iterateBlkptrs spa itor free bps w with ⟨w', left⟩
    rw [hbps] at ih
    simp only [ne_eq, ite_not]
    -- Everything behind the entry comes first; the entry itself is met only if that did not stop.
    by_cases herr : w'.err = 0
    · rw [if_pos herr]
      by_cases hheld : (w'.io itor).err = 0
      · have hcall := (walked_call spa itor free (w'.io itor) bp).io_before
        have hnext := ih.trans herr hcall
        rw [if_pos hheld]
        split <;> rename_i hstop
        · rw [if_pos hstop] at hnext
          exact ⟨_, hnext⟩
        · rw [if_neg hstop, zero_add] at hnext
          exact ⟨_, hnext⟩
      · rw [if_neg hheld]
        exact ⟨calls, ih.failed hheld {bp}⟩
    · rw [if_neg herr]
      exact ⟨calls, ih.stopped herr {bp}⟩

mutual

theorem bpobjIterateImpl_walked :
    ∀ (bpo : Bpobj) (w : BpobjWalk σ),
      (bpobjIterateImpl spa itor free bpo w).1.space =
        (bpobjIterateImpl spa itor free bpo w).2.space ∧
      ∃ calls, Walked spa free calls { w with space := bpo.space }
        (bpobjIterateImpl spa itor free bpo w).1 bpo.blocks
        (bpobjIterateImpl spa itor free bpo w).2.blocks
  | .mk blkptrs subobjs numSubobjs space, w => by
    obtain ⟨calls, hbps⟩ : ∃ calls, Walked spa free calls { w with space := space }
        (iterateBlkptrs spa itor free blkptrs { w with space := space }).1 blkptrs
        (iterateBlkptrs spa itor free blkptrs { w with space := space }).2 :=
      iterateBlkptrs_walked spa itor free blkptrs { w with space := space }
    rw [bpobjIterateImpl]
    rcases hout : iterateBlkptrs spa itor free blkptrs { w with space := space } with ⟨w', left⟩
    rw [hout] at hbps
    simp only [Bpobj.blocks_mk]
    split
    · rename_i hstop
      refine ⟨rfl, calls, ?_⟩
      rw [Bpobj.blocks_mk]
      rcases hstop with herr | hempty
      · exact hbps.stopped herr (Bpobj.blocksAll subobjs)
      · rw [List.isEmpty_iff.mp hempty, Bpobj.blocksAll, zero_add, zero_add]
        exact hbps
    · rename_i hgo
      have herr : w'.err = 0 := not_not.mp fun herr => hgo (.inl herr)
      by_cases hinfo : (w'.io itor).err = 0
      · obtain ⟨calls', hsubs⟩ := iterateSubobjs_walked subobjs (w'.io itor)
        rw [if_neg (not_not.mpr hinfo)]
        refine ⟨rfl, calls ++ calls', ?_⟩
        rw [Bpobj.blocks_mk]
        exact hbps.trans herr hsubs.io_before
      · rw [if_pos hinfo]
        refine ⟨rfl, calls, ?_⟩
        rw [Bpobj.blocks_mk]
        exact hbps.failed hinfo (Bpobj.blocksAll subobjs)

theorem iterateSubobjs_walked :
    ∀ (subs : List Bpobj) (w : BpobjWalk σ),
      ∃ calls, Walked spa free calls w (iterateSubobjs spa itor free subs w).1
        (Bpobj.blocksAll subs) (Bpobj.blocksAll (iterateSubobjs spa itor free subs w).2)
  | [], w => ⟨[], .stay rfl rfl fun _ => rfl⟩
  | sub :: subs, w => by
    obtain ⟨calls, hsubs⟩ := iterateSubobjs_walked subs w
    rw [iterateSubobjs]
    rcases hout : iterateSubobjs spa itor free subs w with ⟨w', left⟩
    rw [hout] at hsubs
    simp only [ne_eq, ite_not]
    by_cases herr : w'.err = 0
    · rw [if_pos herr]
      by_cases hopened : (w'.io itor).err = 0
      · rw [if_pos hopened]
        obtain ⟨hspace, calls', hsub⟩ := bpobjIterateImpl_walked sub (w'.io itor)
        rcases hrec : bpobjIterateImpl spa itor free sub (w'.io itor) with ⟨below, sub'⟩
        rw [hrec] at hspace hsub
        have hbelow := hsub.below w' rfl
        have hnext := hsubs.trans herr hbelow
        rw [hspace] at hbelow hnext
        split
        · exact ⟨_, hnext⟩
        · rename_i hgo
          rw [not_or, not_not, not_not] at hgo
          split
          · -- The object is freed once nothing is left of it.
            obtain ⟨hdone, rfl⟩ := hgo
            rw [hbelow.left_eq_zero hdone, zero_add] at hnext
            exact ⟨_, hnext.io_after fun _ => hdone⟩
          · rename_i hfail
            exact ⟨_, hnext.io_after fun h0 => absurd h0 hfail⟩
      · rw [if_neg hopened]
        exact ⟨calls, hsubs.failed hopened sub.blocks⟩
    · rw [if_neg herr]
      exact ⟨calls, hsubs.stopped herr sub.blocks⟩

end

theorem bpobjIterateImpl_subobjs (bpo : Bpobj) (w : BpobjWalk σ) :
    let out := bpobjIterateImpl spa itor free bpo w
    (out.2.subobjs = bpo.subobjs ∧ out.2.numSubobjs = bpo.numSubobjs ∧
        (out.1.err = 0 → bpo.subobjs = [])) ∨
      ∃ w', out.1 = (iterateSubobjs spa itor free bpo.subobjs w').1 ∧
        out.2.subobjs = (iterateSubobjs spa itor free bpo.subobjs w').2 ∧
        out.2.numSubobjs = bpo.numSubobjs - (bpo.subobjs.length - out.2.subobjs.length) := by
  cases bpo with
  | mk blkptrs subobjs numSubobjs space =>
    simp only [bpobjIterateImpl]
    rcases iterateBlkptrs spa itor free blkptrs { w with space := space } with ⟨w', left⟩
    simp only [ne_eq, ite_not]
    split
    · rename_i hstop
      refine .inl ⟨rfl, rfl, fun herr => ?_⟩
      exact hstop.elim (fun hne => absurd herr hne) List.isEmpty_iff.mp
    · split
      · exact .inr ⟨_, rfl, rfl, rfl⟩
      · rename_i hinfo
        exact .inl ⟨rfl, rfl, fun herr => absurd herr hinfo⟩

theorem iterateSubobjs_length (w : BpobjWalk σ) :
    (iterateSubobjs spa itor free subs w).2.length ≤ subs.length := by
  induction subs with
  | nil => exact Nat.le_refl 0
  | cons sub subs ih =>
    simp only [iterateSubobjs]
    rcases hout : iterateSubobjs spa itor free subs w with ⟨w', left⟩
    rw [hout] at ih
    have hlonger : ∀ sub' : Bpobj, (sub' :: left).length ≤ (sub :: subs).length :=
      fun _ => Nat.succ_le_succ ih
    have hshorter : left.length ≤ (sub :: subs).length := Nat.le_succ_of_le ih
    split_ifs
    all_goals first | exact hlonger _ | exact hshorter

theorem iterateSubobjs_complete (w : BpobjWalk σ)
    (herr : (iterateSubobjs spa itor true subs w).1.err = 0) :
    (iterateSubobjs spa itor true subs w).2 = [] := by
  induction subs with
  | nil => rfl
  | cons sub subs ih =>
    simp only [iterateSubobjs, not_true_eq_false, or_false] at herr ⊢
    rcases hout : iterateSubobjs spa itor true subs w with ⟨w', left⟩
    rw [hout] at ih herr
    split_ifs at herr ⊢ with hstop
    all_goals first | contradiction | exact ih (not_not.mp hstop)

end Walked

/- An object that another one owns: its header counts what it holds, unless its sub-objects have
gone to the owner. -/
mutual

def Bpobj.Owned (spa : SpaSizes) : Bpobj → Prop
  | .mk blkptrs subobjs numSubobjs space =>
    ((Bpobj.mk blkptrs subobjs numSubobjs space).Counted spa ∨ subobjs = [] ∧ 0 < numSubobjs) ∧
      Bpobj.OwnedAll spa subobjs

def Bpobj.OwnedAll (spa : SpaSizes) : List Bpobj → Prop
  | [] => True
  | bpo :: bpos => Bpobj.Owned spa bpo ∧ Bpobj.OwnedAll spa bpos

end

/- An object that the callers of the functions hold. -/
structure Bpobj.Good (spa : SpaSizes) (bpo : Bpobj) : Prop where
  counted : bpo.Counted spa
  owned : Bpobj.OwnedAll spa bpo.subobjs

section Kept

variable {σ : Type} {spa : SpaSizes} {itor : BpobjItor σ} {free : Bool} {bpo : Bpobj}

theorem Bpobj.owned_iff :
    bpo.Owned spa ↔ (bpo.Counted spa ∨ bpo.subobjs = [] ∧ 0 < bpo.numSubobjs) ∧
      Bpobj.OwnedAll spa bpo.subobjs := by
  cases bpo with
  | mk => rw [Bpobj.Owned, Bpobj.numSubobjs, Bpobj.subobjs]

theorem Bpobj.ownedAll_append (as bs : List Bpobj) :
    Bpobj.OwnedAll spa (as ++ bs) ↔ Bpobj.OwnedAll spa as ∧ Bpobj.OwnedAll spa bs := by
  induction as with
  | nil => simp [Bpobj.OwnedAll]
  | cons a as ih => simp [Bpobj.OwnedAll, ih, and_assoc]

theorem Bpobj.Good.owned_self (h : bpo.Good spa) : bpo.Owned spa :=
  Bpobj.owned_iff.mpr ⟨.inl h.counted, h.owned⟩

theorem Bpobj.Counted.iterate (h : bpo.Counted spa) (w : BpobjWalk σ) :
    (bpobjIterateImpl spa itor free bpo w).2.Counted spa := by
  obtain ⟨hspace, calls, hwalk⟩ := bpobjIterateImpl_walked spa itor free bpo w
  constructor
  · have hnum := h.subobjs
    rcases bpobjIterateImpl_subobjs spa itor free bpo w with
      ⟨hsame, hkeep, -⟩ | ⟨w', -, hleft, hcount⟩
    · rw [hsame, hkeep, hnum]
    · have hlen := iterateSubobjs_length spa itor free bpo.subobjs w'
      rw [← hleft] at hlen
      omega
  · have htotal := h.space
    rw [← hwalk.kept, Multiset.map_add, Multiset.sum_add] at htotal
    rw [← hspace, hwalk.space_eq, htotal, add_sub_cancel_right]

mutual

theorem Bpobj.Owned.iterate : ∀ (bpo : Bpobj) (w : BpobjWalk σ), bpo.Owned spa →
    (bpobjIterateImpl spa itor free bpo w).2.Owned spa
  | .mk blkptrs subobjs numSubobjs space, w, h => by
    obtain ⟨hheader, hsubs⟩ := Bpobj.owned_iff.mp h
    have hinv := bpobjIterateImpl_subobjs spa itor free (.mk blkptrs subobjs numSubobjs space) w
    rw [Bpobj.owned_iff]
    constructor
    · rcases hheader with hcounted | ⟨hnone, hnum⟩
      · exact .inl (hcounted.iterate w)
      · -- Nothing below is walked when the sub-objects have gone.
        rcases hinv with ⟨hsame, hkeep, -⟩ | ⟨w', -, hleft, hcount⟩
        · exact .inr ⟨hsame.trans hnone, hkeep ▸ hnum⟩
        · rw [hnone] at hleft hcount
          exact .inr ⟨hleft, by rw [hcount]; simpa using hnum⟩
    · rcases hinv with ⟨hsame, -, -⟩ | ⟨w', -, hleft, -⟩
      · rwa [hsame]
      · rw [hleft]
        exact Bpobj.OwnedAll.iterate subobjs w' hsubs

theorem Bpobj.OwnedAll.iterate : ∀ (subs : List Bpobj) (w : BpobjWalk σ),
    Bpobj.OwnedAll spa subs → Bpobj.OwnedAll spa (iterateSubobjs spa itor free subs w).2
  | [], _, _ => trivial
  | sub :: subs, w, h => by
    have hsubs := Bpobj.OwnedAll.iterate subs w h.2
    simp only [iterateSubobjs]
    rcases hout : iterateSubobjs spa itor free subs w with ⟨w', left⟩
    rw [hout] at hsubs
    have hsub := Bpobj.Owned.iterate sub (w'.io itor) h.1
    split_ifs
    all_goals first | exact ⟨h.1, hsubs⟩ | exact ⟨hsub, hsubs⟩ | exact hsubs

end

theorem Bpobj.Good.iterate (h : bpo.Good spa) (w : BpobjWalk σ) :
    (bpobjIterateImpl spa itor free bpo w).2.Good spa :=
  ⟨h.counted.iterate w, (Bpobj.owned_iff.mp (Bpobj.Owned.iterate bpo w h.owned_self)).2⟩

/-- What the code asserts at the end of every walk: no entries, no bytes. -/
theorem Bpobj.Owned.no_bytes (h : bpo.Owned spa) (hno : bpobjHasentries bpo = false) :
    bpo.space = 0 := by
  rcases (Bpobj.owned_iff.mp h).1 with hcounted | ⟨-, hnum⟩
  · rw [hcounted.space, bpobjHasentries_blocks hcounted hno]
    rfl
  · simp only [bpobjHasentries, ne_eq, decide_eq_false_iff_not, not_or, not_not] at hno
    exact absurd hno.2 hnum.ne'

end Kept

end ClusterZfs

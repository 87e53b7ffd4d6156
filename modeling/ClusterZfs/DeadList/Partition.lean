import ClusterZfs.DeadList.Code
import ClusterZfs.Lib.Buckets
import ClusterZfs.Lib.Runs
import Mathlib.Data.List.TakeWhile
import Mathlib.Tactic.Abel

/-! Every operation on a dead list keeps the partition by birth and the counters, as long as the
key of a new interval is not earlier than what is stored and no key of the list cuts through a
piece that is merged into it. -/
namespace ClusterZfs

def DleEntry.blocks (dle : DleEntry) : Multiset BlkPtr := objBlocks dle.dleBpobj

/- The bucket an entry stands for. -/
def DleEntry.bucket (dle : DleEntry) : Nat × Multiset BlkPtr := (dle.dleMintxg, dle.blocks)

def entriesBlocks (dles : List DleEntry) : Multiset BlkPtr :=
  bucketItems (dles.map DleEntry.bucket)

@[simp] theorem entriesBlocks_nil : entriesBlocks [] = 0 := rfl

@[simp] theorem entriesBlocks_cons (dle : DleEntry) (dles : List DleEntry) :
    entriesBlocks (dle :: dles) = dle.blocks + entriesBlocks dles := by
  rw [entriesBlocks, List.map_cons, bucketItems_cons]
  rfl

@[simp] theorem entriesBlocks_append (as bs : List DleEntry) :
    entriesBlocks (as ++ bs) = entriesBlocks as + entriesBlocks bs := by
  rw [entriesBlocks, List.map_append, bucketItems_append]
  rfl

namespace Deadlist

def blocks (dl : Deadlist) : Multiset BlkPtr := entriesBlocks dl.dlTree

def Partitioned (dl : Deadlist) : Prop :=
  BucketPartition BlkPtr.blkBirth (dl.dlTree.map DleEntry.bucket)

structure WellFormed (spa : SpaSizes) (dl : Deadlist) : Prop where
  partitioned : dl.Partitioned
  counted : ∀ dle ∈ dl.dlTree, ObjCounted spa dle.dleBpobj
  space : dl.dlSpace = (dl.blocks.map (bpSpace spa)).sum

end Deadlist

section Entries

variable {spa : SpaSizes} {dle : DleEntry}

theorem dleEnqueue_spec (h : ObjCounted spa dle.dleBpobj) (bp : BlkPtr) :
    (dleEnqueue spa bp dle).blocks = dle.blocks + {storedBp bp} ∧
      ObjCounted spa (dleEnqueue spa bp dle).dleBpobj := by
  have hspec : ∀ bpo : Bpobj, bpo.Counted spa → bpo.blocks = dle.blocks →
      objBlocks (some (bpobjEnqueue spa bpo bp)) = dle.blocks + {storedBp bp} ∧
        ObjCounted spa (some (bpobjEnqueue spa bpo bp)) := by
    intro bpo hbpo hblocks
    exact ⟨by rw [objBlocks, bpobjEnqueue_blocks, hblocks], (hbpo.enqueue bp).objCounted⟩
  cases dle with
  | mk mintxg obj =>
    cases obj with
    | none => exact hspec bpobjAlloc (bpobjAlloc_counted spa) rfl
    | some bpo => exact hspec bpo (h bpo rfl) rfl

theorem dleEnqueueSubobj_spec {obj : Option Bpobj} (h : ObjCounted spa dle.dleBpobj)
    (hobj : ObjCounted spa obj) :
    (dleEnqueueSubobj obj dle).blocks = dle.blocks + objBlocks obj ∧
      ObjCounted spa (dleEnqueueSubobj obj dle).dleBpobj := by
  cases dle with
  | mk mintxg own =>
    cases own with
    | none => exact ⟨(zero_add _).symm, hobj⟩
    | some bpo =>
      obtain ⟨hblocks, hcounted⟩ := bpobjEnqueueSubobj_spec (h bpo rfl) hobj
      exact ⟨hblocks, hcounted.objCounted⟩

@[simp] theorem dleEnqueue_mintxg (bp : BlkPtr) :
    (dleEnqueue spa bp dle).dleMintxg = dle.dleMintxg := rfl

@[simp] theorem dleEnqueueSubobj_mintxg (obj : Option Bpobj) :
    (dleEnqueueSubobj obj dle).dleMintxg = dle.dleMintxg := by
  unfold dleEnqueueSubobj
  split <;> rfl

end Entries

namespace Deadlist

def keys (dl : Deadlist) : List Nat := dl.dlTree.map DleEntry.dleMintxg

section Search

variable {spa : SpaSizes} {dl : Deadlist} {txg : Nat} {dle : DleEntry}

theorem before_append_after (dl : Deadlist) (txg : Nat) :
    dl.before txg ++ dl.after txg = dl.dlTree :=
  List.takeWhile_append_dropWhile

theorem lt_of_mem_before (h : dle ∈ dl.before txg) : dle.dleMintxg < txg := by
  simpa using List.mem_takeWhile_imp h

section

variable (h : dl.Partitioned)
include h

theorem Partitioned.sorted :
    dl.dlTree.Pairwise fun a b => a.dleMintxg < b.dleMintxg :=
  (List.pairwise_map.mp h.ordered).imp fun hab => hab.1

theorem Partitioned.after_sorted (txg : Nat) :
    (dl.after txg).Pairwise fun a b => a.dleMintxg < b.dleMintxg :=
  h.sorted.sublist (List.dropWhile_sublist _)

theorem Partitioned.le_of_mem_after (hmem : dle ∈ dl.after txg) : txg ≤ dle.dleMintxg := by
  have hafter := h.after_sorted txg
  have hhead : ∀ d ∈ (dl.after txg).head?, txg ≤ d.dleMintxg := by
    intro d hd
    have := List.head?_dropWhile_not (fun dle : DleEntry => decide (dle.dleMintxg < txg)) dl.dlTree
    rw [after] at hd
    simp_all
  cases hcase : dl.after txg with
  | nil => simp [hcase] at hmem
  | cons d ds =>
    rw [hcase] at hmem hafter hhead
    have hd := hhead d rfl
    rcases List.mem_cons.mp hmem with rfl | hmem
    · exact hd
    · exact hd.trans ((List.pairwise_cons.mp hafter).1 dle hmem).le

theorem mem_before_of_lt (hmem : dle ∈ dl.dlTree)
    (hlt : dle.dleMintxg < txg) : dle ∈ dl.before txg := by
  rw [← before_append_after dl txg] at hmem
  exact (List.mem_append.mp hmem).resolve_right fun hmem => (h.le_of_mem_after hmem).not_gt hlt

theorem exists_last_before (hlow : ∃ k ∈ dl.keys, k < txg) :
    ∃ as dle, dle.dleMintxg < txg ∧ dl.dlTree = as ++ dle :: dl.after txg ∧
      ∀ f, updateLast f (dl.before txg) = some (as ++ [f dle]) := by
  obtain ⟨k, hk, hlt⟩ := hlow
  obtain ⟨e, he, rfl⟩ := List.mem_map.mp hk
  have hne : dl.before txg ≠ [] := List.ne_nil_of_mem (mem_before_of_lt h he hlt)
  obtain ⟨as, dle, hsplit⟩ := (dl.before txg).eq_nil_or_concat'.resolve_left hne
  have hlast : dle ∈ dl.before txg := by simp [hsplit]
  refine ⟨as, dle, lt_of_mem_before hlast, ?_, fun f => ?_⟩
  · rw [← before_append_after dl txg, hsplit, List.append_assoc]
    rfl
  · simp [updateLast, hsplit]

end

end Search

section Put

variable {spa : SpaSizes} {dl : Deadlist} {as bs : List DleEntry} {dle dle' : DleEntry}
  {items : Multiset BlkPtr}

/- The effect of an insertion: some block pointers more under the same keys. -/
structure Gains (spa : SpaSizes) (dl : Deadlist) (items : Multiset BlkPtr) (dl' : Deadlist) :
    Prop where
  wellFormed : dl'.WellFormed spa
  blocks : dl'.blocks = dl.blocks + items
  keys : dl'.keys = dl.keys

theorem WellFormed.gains (h : dl.WellFormed spa) (htree : dl.dlTree = as ++ dle :: bs)
    (hkey : dle'.dleMintxg = dle.dleMintxg) (hblocks : dle'.blocks = dle.blocks + items)
    (hcounted : ObjCounted spa dle'.dleBpobj)
    (hitems : ∀ bp ∈ items, dle.dleMintxg < bp.blkBirth ∧
      ∀ b ∈ bs, bp.blkBirth ≤ b.dleMintxg) :
    Gains spa dl items ⟨dl.dlSpace + (items.map (bpSpace spa)).sum, as ++ dle' :: bs⟩ := by
  have hall : entriesBlocks (as ++ dle' :: bs) = dl.blocks + items := by
    rw [Deadlist.blocks, htree]
    simp only [entriesBlocks_append, entriesBlocks_cons, hblocks]
    abel
  refine ⟨⟨?_, ?_, ?_⟩, hall, by simp [Deadlist.keys, htree, hkey]⟩
  · have hpart := h.partitioned
    rw [Partitioned, htree, List.map_append, List.map_cons] at hpart
    rw [Partitioned, List.map_append, List.map_cons, DleEntry.bucket, hkey, hblocks]
    exact hpart.put fun bp hbp => ⟨(hitems bp hbp).1, List.forall_mem_map.mpr (hitems bp hbp).2⟩
  · have hold := h.counted
    simp only [htree, List.forall_mem_append, List.forall_mem_cons] at hold ⊢
    exact ⟨hold.1, hcounted, hold.2.2⟩
  · rw [Deadlist.blocks, hall, Multiset.map_add, Multiset.sum_add, ← h.space]

end Put

section Insert

variable {spa : SpaSizes} {dl : Deadlist} {obj : Option Bpobj} {birth : Nat}

theorem insert_gains (h : dl.WellFormed spa) (bp : BlkPtr)
    (hlow : ∃ k ∈ dl.keys, k < bp.blkBirth) :
    ∃ dl', dslDeadlistInsert spa dl bp = some dl' ∧ Gains spa dl {storedBp bp} dl' := by
  obtain ⟨as, dle, hlt, htree, hupdate⟩ := exists_last_before h.partitioned hlow
  obtain ⟨hblocks, hcounted⟩ := dleEnqueue_spec (h.counted dle (by simp [htree])) bp
  have hgains := h.gains htree (dleEnqueue_mintxg bp) hblocks hcounted fun b hb => by
    rw [Multiset.mem_singleton.mp hb, storedBp_birth]
    exact ⟨hlt, fun e => h.partitioned.le_of_mem_after⟩
  rw [Multiset.map_singleton, Multiset.sum_singleton, bpSpace_storedBp] at hgains
  refine ⟨_, ?_, hgains⟩
  rw [dslDeadlistInsert, hupdate, Option.map_some, List.append_assoc]
  rfl

/- A piece fits when some key is not above its own and none lies inside its interval. -/
def Fits (keys : List Nat) (obj : Option Bpobj) (birth : Nat) : Prop :=
  (∃ k ∈ keys, k ≤ birth) ∧
    ∀ bp ∈ objBlocks obj, birth < bp.blkBirth ∧ ∀ k ∈ keys, k ≤ birth ∨ bp.blkBirth ≤ k

theorem Fits.le_key (hfits : Fits dl.keys obj birth)
    {dle : DleEntry} (hmem : dle ∈ dl.dlTree) (hgt : birth < dle.dleMintxg) {bp : BlkPtr}
    (hbp : bp ∈ objBlocks obj) : bp.blkBirth ≤ dle.dleMintxg := by
  have := (hfits.2 bp hbp).2 dle.dleMintxg (List.mem_map.mpr ⟨dle, hmem, rfl⟩)
  omega

theorem insertBpobj_missing
    (hafter : ∀ dle ∈ dl.after birth, dle.dleMintxg ≠ birth) :
    dslDeadlistInsertBpobj dl obj birth =
      (updateLast (dleEnqueueSubobj obj) (dl.before birth)).map fun dles =>
        ⟨dl.dlSpace + bpobjSpace obj, dles ++ dl.after birth⟩ := by
  unfold dslDeadlistInsertBpobj
  cases hcase : dl.after birth with
  | nil => simp
  | cons dle dles =>
    have hne : dle.dleMintxg ≠ birth := hafter dle (by simp [hcase])
    simp [hne]

theorem insertBpobj_found {dle : DleEntry}
    {dles : List DleEntry} (hafter : dl.after birth = dle :: dles)
    (hkey : dle.dleMintxg = birth) :
    dslDeadlistInsertBpobj dl obj birth =
      some ⟨dl.dlSpace + bpobjSpace obj, dl.before birth ++ dleEnqueueSubobj obj dle :: dles⟩ := by
  simp [dslDeadlistInsertBpobj, hafter, hkey]

/- The piece goes to the entry with the last key that is not above its own. -/
theorem subobj_gains (h : dl.WellFormed spa) (hobj : ObjCounted spa obj)
    (hfits : Fits dl.keys obj birth) {as bs : List DleEntry} {dle : DleEntry}
    (htree : dl.dlTree = as ++ dle :: bs) (hle : dle.dleMintxg ≤ birth)
    (hlater : ∀ e ∈ bs, birth < e.dleMintxg) :
    Gains spa dl (objBlocks obj)
      ⟨dl.dlSpace + bpobjSpace obj, as ++ dleEnqueueSubobj obj dle :: bs⟩ := by
  obtain ⟨hblocks, hcounted⟩ := dleEnqueueSubobj_spec (h.counted dle (by simp [htree])) hobj
  rw [hobj.space]
  exact h.gains htree (dleEnqueueSubobj_mintxg obj) hblocks hcounted fun bp hbp =>
    ⟨hle.trans_lt (hfits.2 bp hbp).1, fun e he =>
      hfits.le_key (by simp [htree, he]) (hlater e he) hbp⟩

/-- The key of the piece is not in the list: the piece goes to the last smaller key. -/
theorem insertBpobj_gains_missing (h : dl.WellFormed spa)
    (hobj : ObjCounted spa obj) (hfits : Fits dl.keys obj birth)
    (hafter : ∀ dle ∈ dl.after birth, birth < dle.dleMintxg) :
    ∃ dl', dslDeadlistInsertBpobj dl obj birth = some dl' ∧
      Gains spa dl (objBlocks obj) dl' := by
  obtain ⟨k, hk, hle⟩ := hfits.1
  have hlt : k < birth := by
    obtain ⟨e, he, rfl⟩ := List.mem_map.mp hk
    rw [← before_append_after dl birth] at he
    exact lt_of_mem_before ((List.mem_append.mp he).resolve_right
      fun he => (hafter e he).not_ge hle)
  obtain ⟨as, dle, hdle, htree, hupdate⟩ := exists_last_before h.partitioned ⟨k, hk, hlt⟩
  refine ⟨_, ?_, subobj_gains h hobj hfits htree hdle.le hafter⟩
  rw [insertBpobj_missing fun e he => (hafter e he).ne', hupdate, Option.map_some,
    List.append_assoc]
  rfl

theorem insertBpobj_gains (h : dl.WellFormed spa)
    (hobj : ObjCounted spa obj) (hfits : Fits dl.keys obj birth) :
    ∃ dl', dslDeadlistInsertBpobj dl obj birth = some dl' ∧
      Gains spa dl (objBlocks obj) dl' := by
  cases hafter : dl.after birth with
  | nil => exact insertBpobj_gains_missing h hobj hfits (by simp [hafter])
  | cons dle dles =>
    have htree : dl.dlTree = dl.before birth ++ dle :: dles := by
      rw [← hafter, before_append_after]
    have hsorted := h.partitioned.after_sorted birth
    rw [hafter] at hsorted
    have hlater := (List.pairwise_cons.mp hsorted).1
    have hle : birth ≤ dle.dleMintxg := h.partitioned.le_of_mem_after (by simp [hafter])
    rcases hle.eq_or_lt with rfl | hlt
    · exact ⟨_, insertBpobj_found hafter rfl, subobj_gains h hobj hfits htree le_rfl hlater⟩
    · refine insertBpobj_gains_missing h hobj hfits ?_
      rw [hafter]
      exact List.forall_mem_cons.mpr ⟨hlt, fun e he => hlt.trans (hlater e he)⟩

theorem foldlM_gains {β : Type} {step : Deadlist → β → Option Deadlist}
    (items : β → Multiset BlkPtr) (ok : List Nat → β → Prop)
    (hstep : ∀ dl b, dl.WellFormed spa → ok dl.keys b →
      ∃ dl', step dl b = some dl' ∧ Gains spa dl (items b) dl') (bs : List β)
    (h : dl.WellFormed spa) (hok : ∀ b ∈ bs, ok dl.keys b) :
    ∃ dl', bs.foldlM step dl = some dl' ∧ Gains spa dl (bs.map items).sum dl' := by
  induction bs generalizing dl with
  | nil => exact ⟨dl, rfl, h, by simp, rfl⟩
  | cons b bs ih =>
    obtain ⟨dl₁, hfirst, hgains₁⟩ := hstep dl b h (hok b List.mem_cons_self)
    obtain ⟨dl₂, hrest, hgains₂⟩ := ih hgains₁.wellFormed fun b' hb' =>
      hgains₁.keys ▸ hok b' (List.mem_cons_of_mem _ hb')
    refine ⟨dl₂, ?_, hgains₂.wellFormed, ?_, hgains₂.keys.trans hgains₁.keys⟩
    · rw [List.foldlM_cons, hfirst]
      exact hrest
    · rw [hgains₂.blocks, hgains₁.blocks, List.map_cons, List.sum_cons, add_assoc]

end Insert

/- The block pointers of the list that is merged. -/
def objItems : DeadlistObj → Multiset BlkPtr
  | .bpobj blkptrs => (blkptrs : Multiset BlkPtr).map storedBp
  | .zap cursor => entriesBlocks cursor

/- What a merge needs: every block of an old list is born after some key, and every piece of a new
one fits between the keys. -/
def Mergeable (spa : SpaSizes) (dl : Deadlist) : DeadlistObj → Prop
  | .bpobj blkptrs => ∀ bp ∈ blkptrs, ∃ k ∈ dl.keys, k < bp.blkBirth
  | .zap cursor => ∀ dle ∈ cursor,
      ObjCounted spa dle.dleBpobj ∧ Fits dl.keys dle.dleBpobj dle.dleMintxg

section Operations

variable {spa : SpaSizes} {dl : Deadlist} {dles : List DleEntry}

theorem merge_gains (h : dl.WellFormed spa) {obj : DeadlistObj} (hok : Mergeable spa dl obj) :
    ∃ dl' obj', dslDeadlistMerge spa dl obj = some (dl', obj') ∧ objItems obj' = 0 ∧
      Gains spa dl (objItems obj) dl' := by
  cases obj with
  | bpobj blkptrs =>
    obtain ⟨dl', hfold, hgains⟩ := foldlM_gains (fun bp => {storedBp bp})
      (fun keys bp => ∃ k ∈ keys, k < bp.blkBirth)
      (fun dl bp h hlow => insert_gains h bp hlow) blkptrs.reverse h
      fun bp hbp => hok bp (List.mem_reverse.mp hbp)
    refine ⟨dl', .bpobj [], by rw [dslDeadlistMerge, hfold]; rfl, rfl, ?_⟩
    have hitems : (blkptrs.reverse.map fun bp => ({storedBp bp} : Multiset BlkPtr)).sum =
        objItems (.bpobj blkptrs) := by
      rw [List.map_reverse, List.sum_reverse, objItems, ← Multiset.sum_map_singleton
        (Multiset.map storedBp blkptrs), Multiset.map_map]
      rfl
    exact hitems ▸ hgains
  | zap cursor =>
    obtain ⟨dl', hfold, hgains⟩ := foldlM_gains DleEntry.blocks
      (fun keys dle => ObjCounted spa dle.dleBpobj ∧ Fits keys dle.dleBpobj dle.dleMintxg)
      (fun dl dle h hfits => insertBpobj_gains h hfits.1 hfits.2) cursor h hok
    refine ⟨dl', .zap [], by rw [dslDeadlistMerge, hfold]; rfl, rfl, ?_⟩
    have hitems : (cursor.map DleEntry.blocks).sum = objItems (.zap cursor) := by
      rw [objItems, entriesBlocks, bucketItems, List.map_map]
      rfl
    exact hitems ▸ hgains

theorem addKey_spec (h : dl.WellFormed spa) (mintxg : Nat) (emptyBpobj : Bool)
    (hlast : ∀ dle ∈ dl.dlTree, dle.dleMintxg < mintxg ∧
      ∀ bp ∈ dle.blocks, bp.blkBirth ≤ mintxg) :
    ∃ dl', dslDeadlistAddKey dl mintxg emptyBpobj = some dl' ∧ dl'.WellFormed spa ∧
      dl'.blocks = dl.blocks := by
  have hbefore : dl.before mintxg = dl.dlTree :=
    List.takeWhile_eq_self_iff.mpr fun dle hdle => by simpa using (hlast dle hdle).1
  have hafter : dl.after mintxg = [] :=
    List.dropWhile_eq_nil_iff.mpr fun dle hdle => by simpa using (hlast dle hdle).1
  have hnew : ¬ (dl.dlTree.any fun dle => dle.dleMintxg = mintxg) := by
    simpa using fun dle hdle => (hlast dle hdle).1.ne
  obtain ⟨obj, hobj, hempty, hcounted⟩ : ∃ obj : Option Bpobj,
      (if emptyBpobj then none else some bpobjAlloc) = obj ∧ objBlocks obj = 0 ∧
        ObjCounted spa obj := by
    cases emptyBpobj with
    | true => exact ⟨none, rfl, rfl, nofun⟩
    | false => exact ⟨some bpobjAlloc, rfl, rfl, (bpobjAlloc_counted spa).objCounted⟩
  have hblocks : entriesBlocks (dl.dlTree ++ [⟨mintxg, obj⟩]) = dl.blocks := by
    rw [entriesBlocks_append, entriesBlocks_cons, DleEntry.blocks, hempty, entriesBlocks_nil,
      zero_add, add_zero]
    rfl
  refine ⟨⟨dl.dlSpace, dl.dlTree ++ [⟨mintxg, obj⟩]⟩, ?_, ⟨?_, ?_, ?_⟩, ?_⟩
  · simp only [dslDeadlistAddKey, if_neg hnew, hbefore, hafter, hobj]
  · have hbucket : DleEntry.bucket ⟨mintxg, obj⟩ = (mintxg, 0) := by
      rw [DleEntry.bucket, DleEntry.blocks, hempty]
    rw [Partitioned, List.map_append, List.map_singleton, hbucket]
    exact h.partitioned.snoc (List.forall_mem_map.mpr hlast)
  · exact List.forall_mem_append.mpr ⟨h.counted, List.forall_mem_singleton.mpr hcounted⟩
  · rw [Deadlist.blocks, hblocks, ← h.space]
  · exact hblocks

theorem Partitioned.after_of_key (h : dl.Partitioned) {txg : Nat} (hkey : txg ∈ dl.keys) :
    ∃ dle dles, dl.after txg = dle :: dles ∧ dle.dleMintxg = txg := by
  obtain ⟨e, he, rfl⟩ := List.mem_map.mp hkey
  have hmem : e ∈ dl.after e.dleMintxg := by
    rw [← before_append_after dl e.dleMintxg] at he
    exact (List.mem_append.mp he).resolve_left fun he => lt_irrefl _ (lt_of_mem_before he)
  have hright := h.after_sorted e.dleMintxg
  cases hafter : dl.after e.dleMintxg with
  | nil => simp [hafter] at hmem
  | cons dle dles =>
    refine ⟨dle, dles, rfl, ?_⟩
    have hle : e.dleMintxg ≤ dle.dleMintxg := h.le_of_mem_after (by simp [hafter])
    rw [hafter] at hmem hright
    rcases List.mem_cons.mp hmem with rfl | hmem
    · rfl
    · have := (List.pairwise_cons.mp hright).1 e hmem
      omega

theorem removeKey_spec (h : dl.WellFormed spa) {mintxg : Nat} (hkey : mintxg ∈ dl.keys.tail) :
    ∃ dl', dslDeadlistRemoveKey dl mintxg = some dl' ∧ dl'.WellFormed spa ∧
      dl'.blocks = dl.blocks := by
  have hlow : ∃ k ∈ dl.keys, k < mintxg := by
    have hsorted := List.pairwise_map.mpr h.partitioned.sorted
    cases hkeys : dl.keys with
    | nil => simp [hkeys] at hkey
    | cons k ks =>
      change dl.keys.Pairwise (· < ·) at hsorted
      rw [hkeys] at hsorted hkey
      exact ⟨k, List.mem_cons_self, (List.pairwise_cons.mp hsorted).1 mintxg hkey⟩
  obtain ⟨dle, dles, hafter, hdle⟩ := h.partitioned.after_of_key (List.mem_of_mem_tail hkey)
  obtain ⟨as, prev, -, htree, hupdate⟩ := exists_last_before h.partitioned hlow
  rw [hafter] at htree
  obtain ⟨hblocks, hcounted⟩ := dleEnqueueSubobj_spec (h.counted prev (by simp [htree]))
    (h.counted dle (by simp [htree]))
  rw [← DleEntry.blocks] at hblocks
  have hall : entriesBlocks (as ++ dleEnqueueSubobj dle.dleBpobj prev :: dles) = dl.blocks := by
    rw [Deadlist.blocks, htree]
    simp [hblocks, add_assoc]
  refine ⟨⟨dl.dlSpace, as ++ dleEnqueueSubobj dle.dleBpobj prev :: dles⟩, ?_, ⟨?_, ?_, ?_⟩, hall⟩
  · simp only [dslDeadlistRemoveKey, hafter, if_pos hdle, hupdate, Option.map_some,
      List.append_assoc, List.singleton_append]
  · have hpart := h.partitioned
    rw [Partitioned, htree, List.map_append, List.map_cons, List.map_cons] at hpart
    rw [Partitioned, List.map_append, List.map_cons, DleEntry.bucket, dleEnqueueSubobj_mintxg,
      hblocks]
    exact hpart.join
  · have hold := h.counted
    simp only [htree, List.forall_mem_append, List.forall_mem_cons] at hold ⊢
    exact ⟨hold.1, hcounted, hold.2.2.2⟩
  · rw [Deadlist.blocks, hall, ← h.space]

theorem foldl_space {op : BpSpace → BpSpace → BpSpace} (hzero : ∀ a, op a 0 = a)
    (hadd : ∀ a b c, op (op a b) c = op a (b + c))
    (h : ∀ dle ∈ dles, ObjCounted spa dle.dleBpobj) (space : BpSpace) :
    dles.foldl (fun space dle => op space (bpobjSpace dle.dleBpobj)) space =
      op space ((entriesBlocks dles).map (bpSpace spa)).sum := by
  induction dles generalizing space with
  | nil => simp [hzero]
  | cons dle dles ih =>
    have hdle : bpobjSpace dle.dleBpobj = (dle.blocks.map (bpSpace spa)).sum :=
      (h dle List.mem_cons_self).space
    rw [List.foldl_cons, ih (List.forall_mem_cons.mp h).2, hdle,
      entriesBlocks_cons, Multiset.map_add, Multiset.sum_add, hadd]

theorem foldl_enqueueSubobj
    (h : ∀ dle ∈ dles, ObjCounted spa dle.dleBpobj) {bpo : Bpobj} (hbpo : bpo.Counted spa) :
    (dles.foldl (fun bpo dle => bpobjEnqueueSubobj bpo dle.dleBpobj) bpo).Counted spa ∧
      (dles.foldl (fun bpo dle => bpobjEnqueueSubobj bpo dle.dleBpobj) bpo).blocks =
        bpo.blocks + entriesBlocks dles := by
  induction dles generalizing bpo with
  | nil => exact ⟨hbpo, by simp⟩
  | cons dle dles ih =>
    obtain ⟨hblocks, hcounted⟩ := bpobjEnqueueSubobj_spec hbpo (h dle List.mem_cons_self)
    obtain ⟨hcounted', hblocks'⟩ := ih (List.forall_mem_cons.mp h).2 hcounted
    refine ⟨hcounted', hblocks'.trans ?_⟩
    rw [hblocks, entriesBlocks_cons, add_assoc]
    rfl

theorem moveBpobj_spec (h : dl.WellFormed spa) {bpo : Bpobj} (hbpo : bpo.Counted spa)
    (mintxg : Nat) :
    (dslDeadlistMoveBpobj dl bpo mintxg).1.WellFormed spa ∧
      (dslDeadlistMoveBpobj dl bpo mintxg).2.Counted spa ∧
      (dslDeadlistMoveBpobj dl bpo mintxg).1.blocks +
        (dslDeadlistMoveBpobj dl bpo mintxg).2.blocks = dl.blocks + bpo.blocks := by
  have htree := before_append_after dl mintxg
  have hcounted : ∀ dle ∈ dl.before mintxg ++ dl.after mintxg, ObjCounted spa dle.dleBpobj :=
    htree.symm ▸ h.counted
  have hafter : ∀ dle ∈ dl.after mintxg, ObjCounted spa dle.dleBpobj :=
    fun dle hdle => hcounted dle (List.mem_append_right _ hdle)
  have hblocks : dl.blocks =
      entriesBlocks (dl.before mintxg) + entriesBlocks (dl.after mintxg) := by
    rw [Deadlist.blocks, ← htree, entriesBlocks_append]
  obtain ⟨hmoved, hmovedBlocks⟩ := foldl_enqueueSubobj hafter hbpo
  refine ⟨⟨?_, fun dle hdle => hcounted dle (List.mem_append_left _ hdle), ?_⟩, hmoved, ?_⟩
  · have hpart := h.partitioned
    rw [Partitioned, ← htree, List.map_append] at hpart
    exact hpart.left
  · rw [dslDeadlistMoveBpobj, foldl_space sub_zero sub_sub hafter, h.space, hblocks,
      Multiset.map_add, Multiset.sum_add, add_sub_cancel_right]
    rfl
  · rw [dslDeadlistMoveBpobj, hmovedBlocks, hblocks, Deadlist.blocks]
    abel

theorem takeWhile_eq_filter {maxtxg : Nat}
    (h : dles.Pairwise fun a b => a.dleMintxg < b.dleMintxg) :
    (dles.takeWhile fun dle => dle.dleMintxg < maxtxg) =
      dles.filter fun dle => dle.dleMintxg < maxtxg := by
  induction dles with
  | nil => rfl
  | cons dle dles ih =>
    obtain ⟨hhead, htail⟩ := List.pairwise_cons.mp h
    by_cases hlt : dle.dleMintxg < maxtxg
    · simp [hlt, ih htail]
    · have hnone : ∀ e ∈ dles, ¬ e.dleMintxg < maxtxg := by
        intro e he
        have := hhead e he
        omega
      rw [List.takeWhile_cons_of_neg (by simpa using hlt),
        List.filter_cons_of_neg (by simpa using hlt)]
      exact (List.filter_eq_nil_iff.mpr fun e he => by simpa using hnone e he).symm

theorem spaceRange_eq (h : dl.WellFormed spa) {mintxg maxtxg : Nat} (hmin : mintxg ∈ dl.keys)
    (hmax : maxtxg ∈ dl.keys) :
    dslDeadlistSpaceRange dl mintxg maxtxg =
      ((dl.blocks.filter fun bp => mintxg < bp.blkBirth ∧ bp.blkBirth ≤ maxtxg).map
        (bpSpace spa)).sum := by
  have htree := before_append_after dl mintxg
  obtain ⟨dle, dles, hafter, hdle⟩ := h.partitioned.after_of_key hmin
  have hwalk : dslDeadlistSpaceRange dl mintxg maxtxg =
      ((dl.after mintxg).filter fun dle => dle.dleMintxg < maxtxg).foldl
        (fun space dle => space + bpobjSpace dle.dleBpobj) 0 := by
    rw [← takeWhile_eq_filter (h.partitioned.after_sorted _)]
    simp [dslDeadlistSpaceRange, hafter, if_pos hdle]
  -- The entries the walk visits are the buckets between the two keys.
  have hvisited : (dl.after mintxg).filter (fun dle => dle.dleMintxg < maxtxg) =
      dl.dlTree.filter fun dle => mintxg ≤ dle.dleMintxg ∧ dle.dleMintxg < maxtxg := by
    have hleft : (dl.before mintxg).filter
        (fun dle => mintxg ≤ dle.dleMintxg ∧ dle.dleMintxg < maxtxg) = [] := by
      refine List.filter_eq_nil_iff.mpr fun e he => ?_
      have := lt_of_mem_before he
      simp only [decide_eq_true_eq]
      omega
    rw [← htree, List.filter_append, hleft, List.nil_append]
    refine List.filter_congr fun e he => ?_
    have := h.partitioned.le_of_mem_after he
    simp [this]
  have hcounted : ∀ e ∈ (dl.after mintxg).filter (fun dle => dle.dleMintxg < maxtxg),
      ObjCounted spa e.dleBpobj := fun e he =>
    h.counted e (htree ▸ List.mem_append_right _ (List.mem_of_mem_filter he))
  obtain ⟨lo, hlo, rfl⟩ := List.mem_map.mp hmin
  obtain ⟨hi, hhi, rfl⟩ := List.mem_map.mp hmax
  have hrange := BucketPartition.range h.partitioned (List.mem_map_of_mem hlo)
    (List.mem_map_of_mem hhi)
  rw [hwalk, foldl_space add_zero add_assoc hcounted, zero_add, hvisited, Deadlist.blocks,
    entriesBlocks, entriesBlocks]
  rw [List.filter_map] at hrange
  exact congrArg (fun items => (items.map (bpSpace spa)).sum) hrange.symm

end Operations

end Deadlist

end ClusterZfs

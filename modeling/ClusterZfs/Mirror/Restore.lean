import ClusterZfs.Mirror.Replay
import Mathlib.Data.List.Flatten

/-! What the replay restores, given the writes of the failed owner and the part of them that is
still in the caches. -/
namespace ClusterZfs

section Sorting

open MirrorData
open scoped List

/- The records that leave the caches: the aligned lists of synced txgs are dropped. -/
def MirrorCaches.taken (c : MirrorCaches) (firstTxg : Nat) : List MirrorData :=
  (c.alignedListTxg.filter fun txgList => firstTxg ≤ txgList.1).flatMap Prod.snd ++
    c.unalignedListTime.flatten

/- The list is sorted and holds the records `ds`. -/
def SortedOf (list ds : List MirrorData) : Prop :=
  list.Pairwise (fun a b => b.Behind a) ∧ list.Perm ds

theorem SortedOf.insert {list ds : List MirrorData} (h : SortedOf list ds) (d : MirrorData) :
    SortedOf (zilInsertDataRecordListBySort list d) (ds ++ [d]) := by
  constructor
  · have hrev : list.reverse.Pairwise Behind := List.pairwise_reverse.mpr h.1
    exact List.pairwise_reverse.mp (by
      rw [zilInsertDataRecordListBySort, List.reverse_reverse]
      exact hrev.orderedInsert d list.reverse)
  · calc zilInsertDataRecordListBySort list d
      _ ~ list.reverse.orderedInsert Behind d := List.reverse_perm _
      _ ~ d :: list.reverse := List.perm_orderedInsert _ _ _
      _ ~ d :: ds := ((List.reverse_perm list).trans h.2).cons d
      _ ~ ds ++ [d] := (List.perm_append_singleton d ds).symm

theorem SortedOf.insertAll {list ds : List MirrorData} (h : SortedOf list ds)
    (es : List MirrorData) :
    SortedOf (es.foldl zilInsertDataRecordListBySort list) (ds ++ es) := by
  induction es generalizing list ds with
  | nil => simpa using h
  | cons e es ih =>
    rw [List.foldl_cons, List.append_cons]
    exact ih (h.insert e)

theorem SortedOf.align {list ds : List MirrorData} (h : SortedOf list ds) (firstTxg : Nat)
    (lists : List (Nat × List MirrorData)) :
    SortedOf (lists.foldl (fun list txgList => if txgList.1 < firstTxg then list
        else txgList.2.foldl zilInsertDataRecordListBySort list) list)
      (ds ++ (lists.filter fun txgList => firstTxg ≤ txgList.1).flatMap Prod.snd) := by
  induction lists generalizing list ds with
  | nil => simpa using h
  | cons l lists ih =>
    rw [List.foldl_cons]
    by_cases hold : l.1 < firstTxg
    · rw [if_pos hold, List.filter_cons_of_neg (by simpa using hold)]
      exact ih h
    · rw [if_neg hold, List.filter_cons_of_pos (by simpa using hold), List.flatMap_cons,
        ← List.append_assoc]
      exact ih (h.insertAll l.2)

theorem SortedOf.unalign {list ds : List MirrorData} (h : SortedOf list ds)
    (lists : List (List MirrorData)) :
    SortedOf (lists.foldl (fun list hashBlk =>
        hashBlk.foldl zilInsertDataRecordListBySort list) list) (ds ++ lists.flatten) := by
  induction lists generalizing list ds with
  | nil => simpa using h
  | cons l lists ih =>
    rw [List.foldl_cons, List.flatten_cons, ← List.append_assoc]
    exact ih (h.insertAll l)

theorem getAllBuf_sortedOf (firstTxg : Nat) (c : MirrorCaches) :
    SortedOf (zfsMirrorGetAllBuf firstTxg c) (c.taken firstTxg) := by
  have hempty : SortedOf [] [] := ⟨List.Pairwise.nil, List.Perm.refl _⟩
  exact (hempty.align firstTxg c.alignedListTxg).unalign c.unalignedListTime

end Sorting

/- The writes of the failed owner in the order they were sent, and what the blocks held before
them. The txgs below `firstTxg` are synced. -/
structure FailedOwner where
  blksz : Nat → Nat
  firstTxg : Nat
  history : List MirrorData
  base : Nat × Nat → BitVec 8
  baseBirth : Nat × Nat → Option Nat
  ordered : history.Pairwise fun a b => a.txg ≤ b.txg ∧ a.txTime < b.txTime
  single : ∀ w ∈ history, ∀ k, w.overlay k ≠ none → (k.1, k.2 / blksz k.1) = w.block blksz
  baseBirth_lt : ∀ blk t, baseBirth blk = some t → t < firstTxg

namespace FailedOwner

variable (o : FailedOwner)

def synced : List MirrorData := o.history.filter fun w => w.txg < o.firstTxg

def unsynced : List MirrorData := o.history.filter fun w => ¬ w.txg < o.firstTxg

/- Every byte holds the value of the last write to it. -/
def lastContents : Nat × Nat → BitVec 8 :=
  Overlay.applyAll (o.history.map MirrorData.overlay) o.base

def diskContents : Nat × Nat → BitVec 8 :=
  Overlay.applyAll (o.synced.map MirrorData.overlay) o.base

/- The birth of a block is the last synced txg that touched it. -/
def diskBirth (blk : Nat × Nat) : Option Nat :=
  ((o.synced.filter fun w => w.block o.blksz = blk).getLast?.map MirrorData.txg).or
    (o.baseBirth blk)

def imported : ReplayOs where
  bytes := o.diskContents
  birth := o.diskBirth
  dirty := fun _ _ => false
  openTxg := o.firstTxg
  syncTxg := o.firstTxg

/- What the partner holds: all the unsynced writes and any of the synced ones, each in the cache of
its kind. -/
structure Caches extends MirrorCaches where
  nodup : (alignedListTxg.flatMap Prod.snd ++ unalignedListTime.flatten).Nodup
  aligned : ∀ l ∈ alignedListTxg, ∀ d ∈ l.2, d ∈ o.history ∧ d.aligned = true ∧ d.txg = l.1
  unaligned : ∀ l ∈ unalignedListTime, ∀ d ∈ l, d ∈ o.history ∧ d.aligned = false
  complete : ∀ w ∈ o.history, o.firstTxg ≤ w.txg →
    w ∈ alignedListTxg.flatMap Prod.snd ++ unalignedListTime.flatten

def replayed (c : o.Caches) (turns : Nat → Turn) : ReplayOs :=
  zilReplayAllData o.blksz o.firstTxg turns (zfsMirrorGetAllBuf o.firstTxg c.toMirrorCaches)
    o.imported

section History

variable {o}

theorem history_behind : o.history.Pairwise fun a b => b.Behind a := by
  refine o.ordered.imp ?_
  intro a b hab
  unfold MirrorData.Behind
  omega

theorem eq_of_behind {a b : MirrorData} (ha : a ∈ o.history) (hb : b ∈ o.history)
    (hab : b.Behind a) (hba : a.Behind b) : a = b := by
  have htimes : (o.history.map MirrorData.txTime).Nodup :=
    List.pairwise_map.mpr (o.ordered.imp fun h => Nat.ne_of_lt h.2)
  refine List.inj_on_of_nodup_map htimes ha hb ?_
  unfold MirrorData.Behind at hab hba
  omega

theorem history_nodup : o.history.Nodup := o.ordered.imp fun h heq => by
  subst heq
  omega

theorem synced_append_unsynced : o.synced ++ o.unsynced = o.history := by
  have hperm : (o.synced ++ o.unsynced).Perm o.history := by
    simpa only [synced, unsynced, decide_not] using
      List.filter_append_perm (fun w => decide (w.txg < o.firstTxg)) o.history
  refine List.Perm.eq_of_pairwise ?_ ?_ history_behind hperm
  · intro a b ha hb hab hba
    exact eq_of_behind (hperm.mem_iff.mp ha) hb hab hba
  · refine List.pairwise_append.mpr ⟨history_behind.filter _, history_behind.filter _, ?_⟩
    intro a ha b hb
    have ha := of_decide_eq_true (List.mem_filter.mp ha).2
    have hb := of_decide_eq_true (List.mem_filter.mp hb).2
    exact .inl (by omega)

theorem lastContents_eq : o.lastContents =
    Overlay.applyAll (o.unsynced.map MirrorData.overlay) o.diskContents := by
  unfold lastContents diskContents
  rw [← Overlay.applyAll_append, ← List.map_append, synced_append_unsynced]

end History

section Taken

variable {o} (c : o.Caches) {d : MirrorData}

theorem mem_of_taken (h : d ∈ c.taken o.firstTxg) : d ∈ o.history := by
  rcases List.mem_append.mp h with h | h
  · obtain ⟨l, hl, hd⟩ := List.mem_flatMap.mp h
    exact (c.aligned l (List.mem_filter.mp hl).1 d hd).1
  · obtain ⟨l, hl, hd⟩ := List.mem_flatten.mp h
    exact (c.unaligned l hl d hd).1

theorem taken_nodup : (c.taken o.firstTxg).Nodup := by
  refine c.nodup.sublist (List.Sublist.append ?_ (List.Sublist.refl _))
  exact List.filter_sublist.flatMap Prod.snd

theorem taken_of_unsynced (h : d ∈ o.unsynced) : d ∈ c.taken o.firstTxg := by
  obtain ⟨hmem, htxg⟩ := List.mem_filter.mp h
  have htxg : o.firstTxg ≤ d.txg := Nat.not_lt.mp (of_decide_eq_true htxg)
  refine List.mem_append.mpr ?_
  rcases List.mem_append.mp (c.complete d hmem htxg) with hal | hun
  · obtain ⟨l, hl, hd⟩ := List.mem_flatMap.mp hal
    have htxgs := (c.aligned l hl d hd).2.2
    refine .inl (List.mem_flatMap.mpr ⟨l, ?_, hd⟩)
    exact List.mem_filter.mpr ⟨hl, decide_eq_true (htxgs ▸ htxg)⟩
  · exact .inr hun

/- The synced writes that are replayed. -/
def stale : List MirrorData := o.synced.filter fun d => d ∈ c.taken o.firstTxg

/-- Of the synced writes only the unaligned ones are replayed. -/
theorem mem_stale :
    d ∈ stale c ↔ d.txg < o.firstTxg ∧ d ∈ c.unalignedListTime.flatten := by
  constructor
  · intro h
    obtain ⟨hsynced, htaken⟩ := List.mem_filter.mp h
    have htxg := of_decide_eq_true (List.mem_filter.mp hsynced).2
    refine ⟨htxg, ?_⟩
    rcases List.mem_append.mp (of_decide_eq_true htaken) with hal | hun
    · obtain ⟨l, hl, hd⟩ := List.mem_flatMap.mp hal
      obtain ⟨hl, hnew⟩ := List.mem_filter.mp hl
      have htxgs := (c.aligned l hl d hd).2.2
      have hnew := of_decide_eq_true hnew
      omega
    · exact hun
  · rintro ⟨htxg, hun⟩
    have htaken : d ∈ c.taken o.firstTxg := List.mem_append.mpr (.inr hun)
    refine List.mem_filter.mpr ⟨?_, decide_eq_true htaken⟩
    exact List.mem_filter.mpr ⟨mem_of_taken c htaken, decide_eq_true htxg⟩

theorem getAllBuf_eq :
    zfsMirrorGetAllBuf o.firstTxg c.toMirrorCaches = stale c ++ o.unsynced := by
  obtain ⟨hsorted, hperm⟩ := getAllBuf_sortedOf o.firstTxg c.toMirrorCaches
  have hunsynced : o.unsynced.filter (fun d => d ∈ c.taken o.firstTxg) = o.unsynced :=
    List.filter_eq_self.mpr fun d hd => decide_eq_true (taken_of_unsynced c hd)
  have hfilter : stale c ++ o.unsynced =
      o.history.filter fun d => d ∈ c.taken o.firstTxg := by
    rw [← synced_append_unsynced, List.filter_append, hunsynced]
    rfl
  rw [hfilter]
  have hsame : (zfsMirrorGetAllBuf o.firstTxg c.toMirrorCaches).Perm
      (o.history.filter fun d => d ∈ c.taken o.firstTxg) := by
    refine hperm.trans ((List.perm_ext_iff_of_nodup (taken_nodup c)
      (history_nodup.filter _)).mpr fun d => ?_)
    rw [List.mem_filter, decide_eq_true_iff]
    exact ⟨fun h => ⟨mem_of_taken c h, h⟩, fun h => h.2⟩
  refine List.Perm.eq_of_pairwise ?_ hsorted (history_behind.filter _) hsame
  intro a b ha hb hab hba
  exact eq_of_behind (mem_of_taken c (hperm.mem_iff.mp ha)) (List.mem_filter.mp hb).1 hab hba

end Taken

end FailedOwner

end ClusterZfs

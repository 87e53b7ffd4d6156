import ClusterZfs.Partner.Code
import Mathlib.Data.List.Perm.Basic
import Mathlib.Data.List.Pairwise

/-! The aligned cache of a dataset. Its txg list is in the order of the txgs with one entry each,
and the time list has the same entries. What a handler takes out is stated with `Loses`: which
records of which entries may be missing afterwards. -/
namespace ClusterZfs

section Loses

variable {β : Type} {records : β → List CacheData} {leaves : β → CacheData → Prop}
  {live live' live'' : List Nat} {objs objs' objs'' : Nat → β}

/-- The entries `live'` come from the entries `live`, and a record is missing only where it may
leave. -/
structure Loses (records : β → List CacheData) (leaves : β → CacheData → Prop)
    (live : List Nat) (objs : Nat → β) (live' : List Nat) (objs' : Nat → β) : Prop where
  old : ∀ p ∈ live', p ∈ live
  sub : ∀ p ∈ live', ∀ r ∈ records (objs' p), r ∈ records (objs p)
  back : ∀ p ∈ live', ∀ r ∈ records (objs' p), leaves (objs' p) r → leaves (objs p) r
  gone : ∀ p ∈ live, ∀ r ∈ records (objs p),
    p ∈ live' ∧ r ∈ records (objs' p) ∨ leaves (objs p) r

theorem Loses.refl : Loses records leaves live objs live objs where
  old := fun _ hp => hp
  sub := fun _ _ _ hr => hr
  back := fun _ _ _ _ hleave => hleave
  gone := fun _ hp _ hr => .inl ⟨hp, hr⟩

theorem Loses.trans (h : Loses records leaves live objs live' objs')
    (h' : Loses records leaves live' objs' live'' objs'') :
    Loses records leaves live objs live'' objs'' where
  old := fun p hp => h.old p (h'.old p hp)
  sub := fun p hp r hr => h.sub p (h'.old p hp) r (h'.sub p hp r hr)
  back := fun p hp r hr hleave =>
    h.back p (h'.old p hp) r (h'.sub p hp r hr) (h'.back p hp r hr hleave)
  gone := fun p hp r hr => (h.gone p hp r hr).elim
    (fun ⟨hp', hr'⟩ => (h'.gone p hp' r hr').imp_right (h.back p hp' r hr')) .inr

theorem Loses.of_nil (h : live = []) (h' : live' = []) :
    Loses records leaves live objs live' objs' := by
  rw [h, h']
  exact ⟨nofun, nofun, nofun, nofun⟩

theorem Loses.imp {may may' : CacheData → Prop} (h : Loses records (fun _ r => may r) live objs
    live' objs') (himp : ∀ r, may r → may' r) :
    Loses records (fun _ r => may' r) live objs live' objs' :=
  { h with
    back := fun _ _ _ _ hleave => hleave
    gone := fun p hp r hr => (h.gone p hp r hr).imp_right (himp r) }

theorem Loses.erase {p : Nat} (hp : ∀ r ∈ records (objs p), leaves (objs p) r) :
    Loses records leaves live objs (live.erase p) objs where
  old := fun _ hq => List.mem_of_mem_erase hq
  sub := fun _ _ _ hr => hr
  back := fun _ _ _ _ hleave => hleave
  gone := fun q hq r hr => by
    obtain rfl | hqp := eq_or_ne q p
    · exact .inr (hp r hr)
    · exact .inl ⟨(List.mem_erase_of_ne hqp).mpr hq, hr⟩

theorem Loses.modify {p : Nat} {f : β → β} (hrecords : records (f (objs p)) = records (objs p))
    (hback : ∀ r, leaves (f (objs p)) r → leaves (objs p) r) :
    Loses records leaves live objs live (fun q => if q = p then f (objs q) else objs q) := by
  have hsame : ∀ q, records (if q = p then f (objs q) else objs q) = records (objs q) := by
    intro q
    split <;> simp [*]
  refine ⟨fun _ hq => hq, fun q _ r hr => ?_, fun q _ r _ hleave => ?_, fun q hq r hr => ?_⟩
  · rwa [hsame q] at hr
  · obtain rfl | hq := eq_or_ne q p
    · exact hback r (by simpa using hleave)
    · simpa [hq] using hleave
  · exact .inl ⟨hq, by rwa [hsame q]⟩

section

variable (h : Loses records leaves live objs live' objs')
include h

theorem Loses.congr {l l' : List Nat}
    (hl : ∀ p, p ∈ l ↔ p ∈ live) (hl' : ∀ p, p ∈ l' ↔ p ∈ live') :
    Loses records leaves l objs l' objs' where
  old := fun p hp => (hl p).mpr (h.old p ((hl' p).mp hp))
  sub := fun p hp => h.sub p ((hl' p).mp hp)
  back := fun p hp => h.back p ((hl' p).mp hp)
  gone := fun p hp r hr => (h.gone p ((hl p).mp hp) r hr).imp_left (.imp_left (hl' p).mpr)

theorem Loses.holds {b : β} {r : CacheData}
    (hr : ∃ p ∈ live, objs p = b ∧ r ∈ records b) :
    (∃ b', ∃ p ∈ live', objs' p = b' ∧ r ∈ records b') ∨ leaves b r := by
  obtain ⟨p, hp, rfl, hr⟩ := hr
  exact (h.gone p hp r hr).imp_left fun hstay => ⟨_, p, hstay.1, rfl, hstay.2⟩

end

theorem exists_held {r : CacheData} : (∃ b, ∃ p ∈ live, objs p = b ∧ r ∈ records b) ↔
    ∃ p ∈ live, r ∈ records (objs p) :=
  ⟨fun ⟨_, p, hp, hb, hr⟩ => ⟨p, hp, hb ▸ hr⟩, fun ⟨p, hp, hr⟩ => ⟨_, p, hp, rfl, hr⟩⟩

end Loses

theorem perm_erase_concat {l l' : List Nat} {p : Nat} (h : l.Perm l') (hp : p ∈ l) :
    l.Perm (l'.erase p ++ [p]) := by
  have hp' : p ∈ l' := h.mem_iff.mp hp
  calc l.Perm l' := h
    _ |>.Perm (p :: l'.erase p) := List.perm_cons_erase hp'
    _ |>.Perm (l'.erase p ++ [p]) := (List.perm_append_singleton p _).symm

theorem mem_erase_of_nodup {l rest : List Nat} {p q : Nat} (hnodup : (p :: rest).Nodup)
    (hin : ∀ q ∈ p :: rest, q ∈ l) (hq : q ∈ rest) : q ∈ l.erase p := by
  have hne : q ≠ p := ne_of_mem_of_not_mem hq (List.nodup_cons.mp hnodup).1
  exact (List.mem_erase_of_ne hne).mpr (hin q (List.mem_cons_of_mem _ hq))

theorem deltaTime_le {cur active : Nat} (h : active ≤ cur) :
    deltaTime cur active ≤ cur - active := by
  unfold deltaTime
  have hsub : cur + 2 ^ 64 - active = cur - active + 2 ^ 64 := by omega
  rw [hsub, Nat.add_mod_right]
  exact Nat.mod_le _ _

namespace AlignedCache

variable {c : AlignedCache} {p t now : Nat} {tun : MirrorTunables} {e : TxgList} {r : CacheData}
  (txg : Nat → Nat)

/-- The txg list is sorted with one entry for each txg, and the time list has the same entries. -/
structure Ordered (c : AlignedCache) : Prop where
  sorted : c.listTxg.Pairwise fun p q => (c.objs p).txg < (c.objs q).txg
  perm : c.listTxg.Perm c.listTime

structure Wf (c : AlignedCache) : Prop extends Ordered c where
  fresh : ∀ p ∈ c.listTxg, p < c.next
  txg : ∀ p ∈ c.listTxg, ∀ r ∈ (c.objs p).records, r.header.txg = (c.objs p).txg

abbrev Lost (leaves : TxgList → CacheData → Prop) (c c' : AlignedCache) : Prop :=
  Loses TxgList.records leaves c.listTxg c.objs c'.listTxg c'.objs

theorem Ordered.nodup (h : c.Ordered) : c.listTxg.Nodup :=
  h.sorted.imp fun hlt heq => by
    rw [heq] at hlt
    exact Nat.lt_irrefl _ hlt

theorem wf_create : create.Wf := ⟨⟨.nil, .refl _⟩, by simp [create], by simp [create]⟩

theorem Wf.remove (h : c.Wf) (p : Nat) : (c.remove p).Wf where
  sorted := h.sorted.sublist List.erase_sublist
  perm := h.perm.erase p
  fresh := fun q hq => h.fresh q (List.mem_of_mem_erase hq)
  txg := fun q hq => h.txg q (List.mem_of_mem_erase hq)

/- What is changed of an entry on its way to the tail: not its txg. -/
theorem Wf.modify_toTail (h : c.Wf) (hp : p ∈ c.listTxg) {f : TxgList → TxgList}
    (htxg : (f (c.objs p)).txg = (c.objs p).txg)
    (hrecords : ∀ r ∈ (f (c.objs p)).records, r.header.txg = (c.objs p).txg) :
    ((c.modify p f).toTail p).Wf := by
  have hsame : ∀ q, ((c.modify p f).objs q).txg = (c.objs q).txg := by
    intro q
    unfold modify
    dsimp only
    split <;> simp [*]
  refine ⟨⟨?_, perm_erase_concat h.perm hp⟩, h.fresh, ?_⟩
  · refine h.sorted.imp fun {a b} hlt => ?_
    show ((c.modify p f).objs a).txg < ((c.modify p f).objs b).txg
    rw [hsame, hsame]
    exact hlt
  · intro q hq r hr
    show r.header.txg = ((c.modify p f).objs q).txg
    rw [hsame]
    obtain rfl | hqp := eq_or_ne q p
    · exact hrecords r (by rwa [← show (c.modify q f).objs q = f (c.objs q) from if_pos rfl])
    · exact h.txg q hq r (by rwa [← show (c.modify p f).objs q = c.objs q from if_neg hqp])

theorem Wf.touch (h : c.Wf) (hp : p ∈ c.listTxg) :
    ((c.modify p fun e => { e with activeTime := now }).toTail p).Wf :=
  h.modify_toTail hp rfl (h.txg p hp)

/- The sorted list keeps its order. -/

theorem insertTxgSortFromTail_perm (p : Nat) (l : List Nat) :
    (insertTxgSortFromTail txg p l).Perm (p :: l) := by
  induction l with
  | nil => exact .refl _
  | cons cur before ih =>
    unfold insertTxgSortFromTail
    split
    · exact .refl _
    · exact (ih.cons cur).trans (.swap p cur before)

theorem insertTxgSortFromTail_sorted {txg : Nat → Nat} {p : Nat} {l : List Nat}
    (hsorted : l.Pairwise fun a b => txg b < txg a) (hnew : ∀ q ∈ l, txg q ≠ txg p) :
    (insertTxgSortFromTail txg p l).Pairwise fun a b => txg b < txg a := by
  induction l with
  | nil => exact List.pairwise_singleton _ _
  | cons cur before ih =>
    obtain ⟨hhead, htail⟩ := List.pairwise_cons.mp hsorted
    unfold insertTxgSortFromTail
    split
    · rename_i hle
      have hlt : txg cur < txg p := Nat.lt_of_le_of_ne hle (hnew cur List.mem_cons_self)
      exact List.pairwise_cons.mpr
        ⟨List.forall_mem_cons.mpr ⟨hlt, fun q hq => Nat.lt_trans (hhead q hq) hlt⟩, hsorted⟩
    · rename_i hgt
      refine List.pairwise_cons.mpr
        ⟨fun q hq => ?_, ih htail fun q hq => hnew q (List.mem_cons_of_mem _ hq)⟩
      have hq' := (insertTxgSortFromTail_perm txg p before).mem_iff.mp hq
      rcases List.mem_cons.mp hq' with rfl | hq
      · exact Nat.lt_of_not_le hgt
      · exact hhead q hq

theorem insertTxgSort_perm (l : List Nat) (p : Nat) :
    (insertTxgSort txg l p).Perm (p :: l) :=
  (List.reverse_perm _).trans
    ((insertTxgSortFromTail_perm txg p l.reverse).trans ((List.reverse_perm l).cons p))

theorem insertTxgSort_sorted {txg : Nat → Nat} {p : Nat} {l : List Nat}
    (hsorted : l.Pairwise fun a b => txg a < txg b) (hnew : ∀ q ∈ l, txg q ≠ txg p) :
    (insertTxgSort txg l p).Pairwise fun a b => txg a < txg b := by
  exact List.pairwise_reverse.mpr (insertTxgSortFromTail_sorted (List.pairwise_reverse.mpr hsorted)
    fun q hq => hnew q (List.mem_reverse.mp hq))

theorem alloc_self (e : TxgList) : c.alloc e c.next = e := if_pos rfl

theorem Wf.alloc_of_mem (h : c.Wf) (e : TxgList) (hp : p ∈ c.listTxg) :
    c.alloc e p = c.objs p := if_neg (Nat.ne_of_lt (h.fresh p hp))

theorem mem_insert : p ∈ (c.insert e).listTxg ↔ p = c.next ∨ p ∈ c.listTxg :=
  (insertTxgSort_perm _ c.listTxg c.next).mem_iff.trans List.mem_cons

theorem Wf.insert (h : c.Wf) (hnew : ∀ q ∈ c.listTxg, (c.objs q).txg ≠ e.txg)
    (hrecords : ∀ r ∈ e.records, r.header.txg = e.txg) : (c.insert e).Wf := by
  refine ⟨⟨insertTxgSort_sorted ?_ ?_, ?_⟩, ?_, ?_⟩
  · refine h.sorted.imp_of_mem fun {a b} ha hb hlt => ?_
    show (c.alloc e a).txg < (c.alloc e b).txg
    rw [h.alloc_of_mem e ha, h.alloc_of_mem e hb]
    exact hlt
  · intro q hq
    show (c.alloc e q).txg ≠ (c.alloc e c.next).txg
    rw [h.alloc_of_mem e hq, alloc_self]
    exact hnew q hq
  · exact (insertTxgSort_perm _ c.listTxg c.next).trans
      ((List.perm_append_singleton c.next _).symm.trans (h.perm.append_right [c.next]))
  · intro q hq
    rcases mem_insert.mp hq with rfl | hq
    · exact Nat.lt_succ_self _
    · exact Nat.lt_succ_of_lt (h.fresh q hq)
  · intro q hq
    show ∀ r ∈ (c.alloc e q).records, r.header.txg = (c.alloc e q).txg
    rcases mem_insert.mp hq with rfl | hq
    · rw [alloc_self]
      exact hrecords
    · rw [h.alloc_of_mem e hq]
      exact h.txg q hq

theorem Wf.handle (h : c.Wf) (now : Nat) (r : CacheData) : (c.handle now r).Wf := by
  unfold AlignedCache.handle
  cases hfind : c.listTxg.find? fun p => decide ((c.objs p).txg = r.header.txg) with
  | none =>
    exact h.insert (by simpa using List.find?_eq_none.mp hfind) (by simp)
  | some p =>
    have hp := List.mem_of_find?_eq_some hfind
    have htxg : (c.objs p).txg = r.header.txg := by simpa using List.find?_some hfind
    exact h.modify_toTail hp rfl (List.forall_mem_append.mpr ⟨h.txg p hp, by simp [htxg]⟩)

/-- The entry `e` of the cache holds the record. -/
def Holds (c : AlignedCache) (e : TxgList) (r : CacheData) : Prop :=
  ∃ p ∈ c.listTxg, c.objs p = e ∧ r ∈ e.records

theorem exists_holds :
    (∃ e, c.Holds e r) ↔ ∃ p ∈ c.listTxg, r ∈ (c.objs p).records := exists_held

theorem Wf.holds_insert (h : c.Wf) :
    (∃ e', (c.insert e).Holds e' r) ↔ (∃ e', c.Holds e' r) ∨ r ∈ e.records := by
  rw [exists_holds, exists_holds]
  constructor
  · rintro ⟨p, hp, hr⟩
    change r ∈ (c.alloc e p).records at hr
    rcases mem_insert.mp hp with rfl | hp
    · rw [alloc_self] at hr
      exact .inr hr
    · rw [h.alloc_of_mem e hp] at hr
      exact .inl ⟨p, hp, hr⟩
  · rintro (⟨p, hp, hr⟩ | hr)
    · refine ⟨p, mem_insert.mpr (.inr hp), ?_⟩
      show r ∈ (c.alloc e p).records
      rwa [h.alloc_of_mem e hp]
    · refine ⟨c.next, mem_insert.mpr (.inl rfl), ?_⟩
      show r ∈ (c.alloc e c.next).records
      rwa [alloc_self]

theorem mem_records_append {q : Nat} {r' : CacheData} :
    r' ∈ ((c.modify p fun e => { e with activeTime := now, records := e.records ++ [r] }).objs
        q).records ↔ r' ∈ (c.objs q).records ∨ q = p ∧ r' = r := by
  unfold modify
  dsimp only
  split <;> simp [*]

theorem Wf.holds_handle (h : c.Wf) (now : Nat) (r r' : CacheData) :
    (∃ e, (c.handle now r).Holds e r') ↔ (∃ e, c.Holds e r') ∨ r' = r := by
  unfold AlignedCache.handle
  cases hfind : c.listTxg.find? fun p => decide ((c.objs p).txg = r.header.txg) with
  | none => exact h.holds_insert.trans (or_congr_right List.mem_singleton)
  | some p =>
    rw [exists_holds, exists_holds]
    constructor
    · rintro ⟨q, hq, hr'⟩
      exact (mem_records_append.mp hr').imp (⟨q, hq, ·⟩) And.right
    · rintro (⟨q, hq, hr'⟩ | rfl)
      · exact ⟨q, hq, mem_records_append.mpr (.inl hr')⟩
      · exact ⟨p, List.mem_of_find?_eq_some hfind, mem_records_append.mpr (.inr ⟨rfl, rfl⟩)⟩

/- CLEAR_ALIGNED. -/

theorem cleanLoop_spec (h : c.Wf) (l : List Nat) (hl : c.listTxg = l) :
    (cleanLoop t l c).Wf ∧ Lost (fun _ r => r.header.txg ≤ t) c (cleanLoop t l c) ∧
      ∀ p ∈ (cleanLoop t l c).listTxg, t < ((cleanLoop t l c).objs p).txg := by
  induction l generalizing c with
  | nil => exact ⟨h, .refl, by simp [cleanLoop, hl]⟩
  | cons p rest ih =>
    unfold cleanLoop
    split
    · rename_i hlt
      refine ⟨h, .refl, fun q hq => ?_⟩
      have hsorted := h.sorted
      rw [hl] at hq hsorted
      rcases List.mem_cons.mp hq with rfl | hq
      · exact hlt
      · exact Nat.lt_trans hlt ((List.pairwise_cons.mp hsorted).1 q hq)
    · rename_i hle
      have hrest : (c.remove p).listTxg = rest := by
        show c.listTxg.erase p = rest
        rw [hl, List.erase_cons_head]
      obtain ⟨hwf, hlost, hafter⟩ := ih (h.remove p) hrest
      have hone : Lost (fun _ r => r.header.txg ≤ t) c (c.remove p) := .erase fun r hr => by
        rw [h.txg p (hl ▸ List.mem_cons_self) r hr]
        exact Nat.le_of_not_lt hle
      exact ⟨hwf, hone.trans hlost, hafter⟩

theorem Wf.clean (h : c.Wf) (t : Nat) : (c.clean t).Wf := (cleanLoop_spec h c.listTxg rfl).1

theorem Wf.lost_clean (h : c.Wf) (t : Nat) : Lost (fun _ r => r.header.txg ≤ t) c (c.clean t) :=
  (cleanLoop_spec h c.listTxg rfl).2.1

theorem Wf.lt_of_clean (h : c.Wf) (hp : p ∈ (c.clean t).listTxg) : t < ((c.clean t).objs p).txg :=
  (cleanLoop_spec h c.listTxg rfl).2.2 p hp

/- The walks over the time list take an entry out or put it back at the tail, so those still to be
visited stay in the cache. -/

section

variable (h : c.Wf)
include h

theorem cleanSyncedLoop_spec (l : List Nat) (hnodup : l.Nodup)
    (hin : ∀ p ∈ l, p ∈ c.listTxg) :
    (cleanSyncedLoop tun now t l c).Wf ∧
      Lost (fun _ r => r.header.txg ≤ t) c (cleanSyncedLoop tun now t l c) := by
  induction l generalizing c with
  | nil => exact ⟨h, .refl⟩
  | cons p rest ih =>
    have hrest := (List.nodup_cons.mp hnodup).2
    unfold cleanSyncedLoop
    split
    · exact ⟨h, .refl⟩
    · split
      · obtain ⟨hwf, hlost⟩ := ih (h.touch (hin p List.mem_cons_self)) hrest
          fun q hq => hin q (List.mem_cons_of_mem _ hq)
        have hone : Lost (fun _ r => r.header.txg ≤ t) c
            ((c.modify p fun e => { e with activeTime := now }).toTail p) :=
          Loses.modify (f := fun e : TxgList => { e with activeTime := now }) rfl
            fun _ hle => hle
        exact ⟨hwf, hone.trans hlost⟩
      · rename_i hle
        obtain ⟨hwf, hlost⟩ := ih (h.remove p) hrest
          fun q hq => mem_erase_of_nodup hnodup hin hq
        refine ⟨hwf, Loses.trans (.erase fun r hr => ?_) hlost⟩
        rw [h.txg p (hin p List.mem_cons_self) r hr]
        exact Nat.le_of_not_lt hle

theorem expireLoop_spec (l : List Nat) (hnodup : l.Nodup)
    (hin : ∀ p ∈ l, p ∈ c.listTxg) :
    (expireLoop tun now l c).1.Wf ∧
      Lost (fun e _ => e.activeTime + tun.aliTimeout < now) c (expireLoop tun now l c).1 := by
  induction l generalizing c with
  | nil => exact ⟨h, .refl⟩
  | cons p rest ih =>
    unfold expireLoop
    split
    · exact ⟨h, .refl⟩
    · rename_i hpast
      split
      · exact ⟨h, .refl⟩
      · split
        · obtain ⟨hwf, hlost⟩ := ih (h.remove p) (List.nodup_cons.mp hnodup).2
            fun q hq => mem_erase_of_nodup hnodup hin hq
          refine ⟨hwf, Loses.trans ?_ hlost⟩
          refine .erase fun _ _ => ?_
          have hdelta := deltaTime_le (Nat.le_of_not_lt hpast)
          omega
        · exact ⟨h, .refl⟩

theorem Wf.time_nodup : c.listTime.Nodup := h.perm.nodup_iff.mp h.nodup

theorem Wf.cleanSynced (tun : MirrorTunables) (now t : Nat) :
    (c.cleanSynced tun now t).Wf ∧ Lost (fun _ r => r.header.txg ≤ t) c (c.cleanSynced tun now t) :=
  cleanSyncedLoop_spec h c.listTime h.time_nodup fun _ hp => h.perm.mem_iff.mpr hp

theorem Wf.expire (tun : MirrorTunables) (now : Nat) :
    (c.expire tun now).1.Wf ∧
      Lost (fun e _ => e.activeTime + tun.aliTimeout < now) c (c.expire tun now).1 :=
  expireLoop_spec h c.listTime h.time_nodup fun _ hp => h.perm.mem_iff.mpr hp

end

end AlignedCache

end ClusterZfs

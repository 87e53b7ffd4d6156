import ClusterZfs.Partner.Aligned

/-! The unaligned cache of a dataset: its time list has the blocks that the hash reaches, each once
and each with a record. -/
namespace ClusterZfs

theorem ne_of_mem_eraseP {α : Type} {f : α → Nat} {l : List α} {k : Nat} {a : α}
    (hnodup : (l.map f).Nodup) (ha : a ∈ l.eraseP fun b => decide (f b = k)) : f a ≠ k := by
  induction l with
  | nil => cases ha
  | cons b l ih =>
    obtain ⟨hhead, htail⟩ := List.nodup_cons.mp hnodup
    by_cases hb : f b = k
    · rw [List.eraseP_cons_of_pos (by simpa using hb)] at ha
      exact fun hak => hhead (List.mem_map.mpr ⟨a, ha, by rw [hak, hb]⟩)
    · rw [List.eraseP_cons_of_neg (by simpa using hb)] at ha
      rcases List.mem_cons.mp ha with rfl | ha
      · exact hb
      · exact ih htail ha

namespace UnalignedCache

variable {c : UnalignedCache} {p q now : Nat} {tun : MirrorTunables} {f : NonaliHash → NonaliHash}
  {leaves : NonaliHash → CacheData → Prop} {b : NonaliHash} {r : CacheData}

/-- The time list has exactly the blocks that the hash reaches, each once and with a record. -/
structure Exact (c : UnalignedCache) : Prop where
  reached : ∀ p, p ∈ c.listTime ↔ ∃ l, c.search l = some p
  nodup : c.listTime.Nodup
  records : ∀ p ∈ c.listTime, (c.hash.objs p).records ≠ []

/-- The records of a block are for its place, with an index each. -/
structure NonaliHash.Wf (b : NonaliHash) : Prop where
  records : b.records ≠ []
  located : ∀ r ∈ b.records, r.header.located = b.located
  index : (b.records.map fun r => r.header.index).Nodup

structure Wf (c : UnalignedCache) : Prop where
  hash : c.hash.Inv NonaliHash.located locatedKeygen
  time : ∀ p, p ∈ c.listTime ↔ c.hash.Has NonaliHash.located locatedKeygen p
  nodup : c.listTime.Nodup
  block : ∀ p ∈ c.listTime, NonaliHash.Wf (c.hash.objs p)

abbrev Lost (leaves : NonaliHash → CacheData → Prop) (c c' : UnalignedCache) : Prop :=
  Loses NonaliHash.records leaves c.listTime c.hash.objs c'.listTime c'.hash.objs

theorem Wf.exact (h : c.Wf) : c.Exact where
  reached := fun p => by
    rw [h.time]
    exact ⟨fun hp => ⟨_, h.hash.find_self hp⟩, fun ⟨_, hl⟩ => (h.hash.find_eq_some.mp hl).1⟩
  nodup := h.nodup
  records := fun p hp => (h.block p hp).records

theorem wf_create : create.Wf where
  hash := .empty _
  time := fun _ => ⟨nofun, fun hp => absurd hp List.not_mem_nil⟩
  nodup := .nil
  block := nofun

theorem Wf.search_eq_some (h : c.Wf) {l : Located} :
    c.search l = some p ↔ p ∈ c.listTime ∧ (c.hash.objs p).located = l := by
  rw [h.time]
  exact h.hash.find_eq_some

theorem Wf.search_eq_none (h : c.Wf) {l : Located} :
    c.search l = none ↔ ∀ p ∈ c.listTime, (c.hash.objs p).located ≠ l := by
  refine h.hash.find_eq_none.trans (forall_congr' fun p => ?_)
  rw [h.time]

/- The ways in which the handlers change a cache. -/

theorem Wf.modify (h : c.Wf) (hlocated : (f (c.hash.objs p)).located = (c.hash.objs p).located)
    (hblock : p ∈ c.listTime → NonaliHash.Wf (f (c.hash.objs p))) : (c.modify p f).Wf where
  hash := h.hash.modify hlocated
  time := fun q => (h.time q).trans (ChainHash.has_modify hlocated).symm
  nodup := h.nodup
  block := fun q hq => by
    show NonaliHash.Wf ((c.hash.modify p f).objs q)
    obtain rfl | hqp := eq_or_ne q p
    · rw [ChainHash.modify_objs_self]
      exact hblock hq
    · rw [ChainHash.modify_objs_of_ne hqp]
      exact h.block q hq

theorem Wf.modify_times (h : c.Wf) (hlocated : ∀ b, (f b).located = b.located)
    (hrecords : ∀ b, (f b).records = b.records) : (c.modify p f).Wf := by
  refine h.modify (hlocated _) fun hp => ?_
  obtain ⟨hne, hloc, hindex⟩ := h.block p hp
  constructor
  · rwa [hrecords]
  · rwa [hrecords, hlocated]
  · rwa [hrecords]

theorem Wf.toTail (h : c.Wf) (hp : p ∈ c.listTime) : (c.toTail p).Wf := by
  have hperm := perm_erase_concat (.refl c.listTime) hp
  exact ⟨h.hash, fun q => hperm.mem_iff.symm.trans (h.time q), hperm.nodup_iff.mp h.nodup,
    fun q hq => h.block q (hperm.mem_iff.mpr hq)⟩

theorem Wf.modify_unlink (h : c.Wf) (hp : p ∈ c.listTime)
    (hlocated : (f (c.hash.objs p)).located = (c.hash.objs p).located) :
    ((c.modify p f).unlink (locatedKeygen (c.hash.objs p).located) p).Wf := by
  have hinv := h.hash.modify hlocated
  have hhas : (c.hash.modify p f).Has NonaliHash.located locatedKeygen p :=
    (ChainHash.has_modify hlocated).mpr ((h.time p).mp hp)
  have hkey : locatedKeygen (c.hash.objs p).located =
      locatedKeygen ((c.hash.modify p f).objs p).located := by
    rw [ChainHash.modify_objs_self, hlocated]
  rw [hkey]
  refine ⟨hinv.unlink hhas, fun q => ?_, h.nodup.erase p, fun q hq => ?_⟩
  · refine h.nodup.mem_erase_iff.trans ?_
    refine Iff.trans ?_ (hinv.has_unlink hhas).symm
    rw [ChainHash.has_modify hlocated, h.time q]
    exact and_comm
  · obtain ⟨hqp, hq⟩ := h.nodup.mem_erase_iff.mp hq
    show NonaliHash.Wf (((c.hash.modify p f).unlink _ p).objs q)
    rw [ChainHash.unlink_objs, ChainHash.modify_objs_of_ne hqp]
    exact h.block q hq

theorem modify_id : c.modify p (fun b => b) = c := by
  unfold modify ChainHash.modify
  simp

theorem Wf.unlink (h : c.Wf) (hp : p ∈ c.listTime) :
    (c.unlink (locatedKeygen (c.hash.objs p).located) p).Wf := by
  have hmodify := h.modify_unlink (f := fun b => b) hp rfl
  rwa [modify_id] at hmodify

theorem lost_unlink {k : Nat}
    (hp : ∀ r ∈ (c.hash.objs p).records, leaves (c.hash.objs p) r) :
    Lost leaves c (c.unlink k p) := by
  unfold Lost UnalignedCache.unlink
  rw [ChainHash.unlink_objs]
  exact .erase hp

theorem lost_modify
    (hrecords : (f (c.hash.objs p)).records = (c.hash.objs p).records)
    (hback : ∀ r, leaves (f (c.hash.objs p)) r → leaves (c.hash.objs p) r) :
    Lost leaves c (c.modify p f) := .modify hrecords hback

theorem lost_toTail (hp : p ∈ c.listTime) :
    Lost leaves c (c.toTail p) := by
  have hperm := perm_erase_concat (.refl c.listTime) hp
  exact Loses.refl.congr (fun _ => Iff.rfl) fun q => hperm.mem_iff.symm

/- Data messages. -/

section

variable (h : c.Wf)
include h

theorem Wf.findHash (l : Located) : c.findHash l = (c, c.search l) := by
  unfold UnalignedCache.findHash
  rw [h.hash.dropIfEmpty_eq]

theorem Wf.mem_of_time (hp : p ∈ c.listTime) : p ≠ c.hash.next :=
  Nat.ne_of_lt (h.hash.fresh p ((h.time p).mp hp))

theorem Wf.insert (hb : NonaliHash.Wf b)
    (hnew : c.search b.located = none) :
    UnalignedCache.Wf ⟨c.hash.insert (locatedKeygen b.located) b, c.listTime ++ [c.hash.next]⟩ := by
  have hout : c.hash.next ∉ c.listTime := fun hp => h.mem_of_time hp rfl
  refine ⟨h.hash.insert hnew, fun q => ?_, ?_, fun q hq => ?_⟩
  · rw [ChainHash.has_insert, ← h.time q]
    exact List.mem_append.trans (or_congr_right List.mem_singleton)
  · exact h.nodup.append (List.nodup_singleton _) (by simpa using hout)
  · rcases List.mem_append.mp hq with hq | hq
    · rw [ChainHash.insert_objs_of_ne (h.mem_of_time hq)]
      exact h.block q hq
    · rw [List.mem_singleton.mp hq, ChainHash.insert_objs_self]
      exact hb

theorem Wf.insertHash (hb : NonaliHash.Wf b)
    (hnew : c.search b.located = none) : (c.insertHash now b).Wf := by
  have hactive : NonaliHash.Wf { b with activeTime := now } := ⟨hb.records, hb.located, hb.index⟩
  exact h.insert hactive hnew

theorem Wf.handle (now : Nat) (r : CacheData)
    (hindex : ∀ p ∈ c.listTime, (c.hash.objs p).located = r.header.located →
      ∀ r' ∈ (c.hash.objs p).records, r'.header.index ≠ r.header.index) :
    (c.handle now r).Wf := by
  unfold UnalignedCache.handle
  rw [h.findHash]
  cases hsearch : c.search r.header.located with
  | none =>
    refine h.insertHash ⟨List.cons_ne_nil _ _, fun r' hr' => ?_, List.nodup_singleton _⟩ hsearch
    rw [List.mem_singleton.mp hr']
    rfl
  | some p =>
    obtain ⟨hp, hlocated⟩ := h.search_eq_some.mp hsearch
    obtain ⟨-, hloc, hnodup⟩ := h.block p hp
    refine Wf.toTail (h.modify rfl fun _ => ⟨by simp,
      List.forall_mem_append.mpr ⟨hloc, by simp [hlocated]⟩, ?_⟩) hp
    rw [List.map_append]
    exact hnodup.append (List.nodup_singleton _) (by simpa using hindex p hp hlocated)

end

def Holds (c : UnalignedCache) (b : NonaliHash) (r : CacheData) : Prop :=
  ∃ p ∈ c.listTime, c.hash.objs p = b ∧ r ∈ b.records

theorem exists_holds :
    (∃ b, c.Holds b r) ↔ ∃ p ∈ c.listTime, r ∈ (c.hash.objs p).records := exists_held

theorem Wf.holds_insertHash (h : c.Wf) :
    (∃ b', (c.insertHash now b).Holds b' r) ↔ (∃ b', c.Holds b' r) ∨ r ∈ b.records := by
  rw [exists_holds, exists_holds]
  constructor
  · rintro ⟨p, hp, hr⟩
    change r ∈ ((c.hash.insert _ _).objs p).records at hr
    rcases List.mem_append.mp hp with hp | hp
    · rw [ChainHash.insert_objs_of_ne (h.mem_of_time hp)] at hr
      exact .inl ⟨p, hp, hr⟩
    · rw [List.mem_singleton.mp hp, ChainHash.insert_objs_self] at hr
      exact .inr hr
  · rintro (⟨p, hp, hr⟩ | hr)
    · refine ⟨p, List.mem_append_left _ hp, ?_⟩
      show r ∈ ((c.hash.insert _ _).objs p).records
      rwa [ChainHash.insert_objs_of_ne (h.mem_of_time hp)]
    · refine ⟨c.hash.next, List.mem_append_right _ (List.mem_singleton.mpr rfl), ?_⟩
      show r ∈ ((c.hash.insert _ _).objs c.hash.next).records
      rwa [ChainHash.insert_objs_self]

theorem mem_records_append {r' : CacheData} :
    r' ∈ ((c.modify p fun b =>
        { b with records := b.records ++ [r], activeTime := now }).hash.objs q).records ↔
      r' ∈ (c.hash.objs q).records ∨ q = p ∧ r' = r := by
  unfold UnalignedCache.modify ChainHash.modify
  dsimp only
  split <;> simp [*]

theorem Wf.holds_handle (h : c.Wf) (now : Nat) (r r' : CacheData) :
    (∃ b, (c.handle now r).Holds b r') ↔ (∃ b, c.Holds b r') ∨ r' = r := by
  unfold UnalignedCache.handle
  rw [h.findHash]
  cases hsearch : c.search r.header.located with
  | none => exact h.holds_insertHash.trans (or_congr_right List.mem_singleton)
  | some p =>
    have hp := (h.search_eq_some.mp hsearch).1
    have hperm := perm_erase_concat (.refl c.listTime) hp
    rw [exists_holds, exists_holds]
    constructor
    · rintro ⟨q, hq, hr'⟩
      exact (mem_records_append.mp hr').imp (⟨q, hperm.mem_iff.mpr hq, ·⟩) And.right
    · rintro (⟨q, hq, hr'⟩ | rfl)
      · exact ⟨q, hperm.mem_iff.mp hq, mem_records_append.mpr (.inl hr')⟩
      · exact ⟨p, hperm.mem_iff.mp hp, mem_records_append.mpr (.inr ⟨rfl, rfl⟩)⟩

/- CLEAR_NONALIGNED. -/

def Names (n : BlkptrNode) (r : CacheData) : Prop :=
  n.located = r.header.located ∧ n.index = r.header.index

theorem modify_objs_self : (c.modify p f).hash.objs p = f (c.hash.objs p) :=
  ChainHash.modify_objs_self

theorem modify_objs_of_ne (hne : q ≠ p) : (c.modify p f).hash.objs q = c.hash.objs q :=
  ChainHash.modify_objs_of_ne hne

theorem lost_eraseIndex {n : BlkptrNode} (h : c.Wf)
    (hlocated : (c.hash.objs p).located = n.located) (hp : p ∈ c.listTime) :
    Lost (fun _ r => Names n r) c (c.modify p fun b => b.eraseIndex n.index) := by
  refine ⟨fun _ hq => hq, fun q _ r hr => ?_, fun _ _ _ _ hname => hname, fun q hq r hr => ?_⟩
  · obtain rfl | hqp := eq_or_ne q p
    · rw [modify_objs_self] at hr
      exact List.mem_of_mem_eraseP hr
    · rwa [modify_objs_of_ne hqp] at hr
  · obtain rfl | hqp := eq_or_ne q p
    · by_cases hindex : r.header.index = n.index
      · exact .inr ⟨by rw [(h.block q hp).located r hr, hlocated], hindex.symm⟩
      · refine .inl ⟨hq, ?_⟩
        rw [modify_objs_self]
        exact (List.mem_eraseP_of_neg (by simpa using hindex)).mpr hr
    · refine .inl ⟨hq, ?_⟩
      rwa [modify_objs_of_ne hqp]

/- A record that is named belongs to the block at that place, where it is the only one with its
index. -/
theorem not_names_of_eraseIndex {n : BlkptrNode} (h : c.Wf)
    (hlocated : (c.hash.objs p).located = n.located) (hp : p ∈ c.listTime) (hq : q ∈ c.listTime)
    (hr : r ∈ ((c.modify p fun b => b.eraseIndex n.index).hash.objs q).records) :
    ¬ Names n r := by
  intro hname
  obtain rfl | hqp := eq_or_ne q p
  · rw [modify_objs_self] at hr
    exact ne_of_mem_eraseP (h.block q hp).index hr hname.2.symm
  · rw [modify_objs_of_ne hqp] at hr
    have hsame : (c.hash.objs q).located = (c.hash.objs p).located := by
      rw [← (h.block q hq).located r hr, ← hname.1, hlocated]
    exact hqp (h.hash.distinct q p ((h.time q).mp hq) ((h.time p).mp hp) hsame)

theorem cleanHashBlk_spec (h : c.Wf) (n : BlkptrNode) :
    (c.cleanHashBlk n).Wf ∧ Lost (fun _ r => Names n r) c (c.cleanHashBlk n) ∧
      ∀ p ∈ (c.cleanHashBlk n).listTime, ∀ r ∈ ((c.cleanHashBlk n).hash.objs p).records,
        ¬ Names n r := by
  unfold cleanHashBlk
  cases hsearch : c.search n.located with
  | none =>
    dsimp only
    rw [h.hash.dropIfEmpty_eq]
    refine ⟨h, .refl, fun p hp r hr hname => ?_⟩
    have hlocated := (h.block p hp).located r hr
    exact h.search_eq_none.mp hsearch p hp (by rw [← hlocated, hname.1])
  | some p =>
    obtain ⟨hp, hlocated⟩ := h.search_eq_some.mp hsearch
    obtain ⟨-, hloc, hnodup⟩ := h.block p hp
    have hlost := lost_eraseIndex h hlocated hp
    dsimp only
    split
    · rename_i hempty
      rw [← hlocated]
      refine ⟨h.modify_unlink hp rfl, hlost.trans (lost_unlink ?_), fun q hq r hr => ?_⟩
      · rw [hempty]
        exact nofun
      · unfold UnalignedCache.unlink at hq hr
        rw [ChainHash.unlink_objs] at hr
        exact not_names_of_eraseIndex h hlocated hp (List.mem_of_mem_erase hq) hr
    · rename_i hsome
      rw [modify_objs_self] at hsome
      have hwf : (c.modify p fun b => b.eraseIndex n.index).Wf := h.modify rfl fun _ =>
        ⟨hsome, fun r hr => hloc r (List.mem_of_mem_eraseP hr),
          hnodup.sublist (List.Sublist.map _ List.eraseP_sublist)⟩
      rw [hwf.hash.dropIfEmpty_eq]
      exact ⟨hwf, hlost, fun q hq r hr => not_names_of_eraseIndex h hlocated hp hq hr⟩

theorem Wf.clean (h : c.Wf) (nodes : List BlkptrNode) :
    (c.clean nodes).Wf ∧ Lost (fun _ r => ∃ n ∈ nodes, Names n r) c (c.clean nodes) ∧
      ∀ p ∈ (c.clean nodes).listTime, ∀ r ∈ ((c.clean nodes).hash.objs p).records,
        ¬ ∃ n ∈ nodes, Names n r := by
  induction nodes generalizing c with
  | nil => exact ⟨h, .refl, by simp⟩
  | cons n nodes ih =>
    obtain ⟨hwf, hlost, hafter⟩ := cleanHashBlk_spec h n
    obtain ⟨hwf', hlost', hafter'⟩ := ih hwf
    refine ⟨hwf', Loses.trans (hlost.imp fun _ hname => ⟨n, List.mem_cons_self, hname⟩)
      (hlost'.imp fun _ ⟨n', hn', hname⟩ => ⟨n', List.mem_cons_of_mem _ hn', hname⟩), ?_⟩
    rintro p hp r hr ⟨n', hn', hname⟩
    rcases List.mem_cons.mp hn' with rfl | hn'
    · exact hafter p (hlost'.old p hp) r (hlost'.sub p hp r hr) hname
    · exact hafter' p hp r hr ⟨n', hn', hname⟩

/- Expiry: an active time is not in the future, so the difference is how long ago it was. -/

theorem Wf.removeUnaligned (h : c.Wf) (hp : p ∈ c.listTime) :
    c.removeUnaligned p = c.unlink (locatedKeygen (c.hash.objs p).located) p := by
  obtain ⟨l, hl, hmem⟩ := ((h.time p).mp hp).exists_chain
  unfold UnalignedCache.removeUnaligned
  dsimp only
  rw [hl]
  exact if_pos hmem

theorem expireLoop_spec (h : c.Wf) (l : List Nat) (cnt : Nat) (hnodup : l.Nodup)
    (hin : ∀ p ∈ l, p ∈ c.listTime) (hpast : ∀ p ∈ l, (c.hash.objs p).activeTime ≤ now) :
    (expireLoop tun now l cnt c).Wf ∧
      Lost (fun b _ => b.activeTime + tun.unaliTimeout < now) c (expireLoop tun now l cnt c) ∧
      ∀ q, ((expireLoop tun now l cnt c).hash.objs q).activeTime = (c.hash.objs q).activeTime := by
  induction l generalizing c cnt with
  | nil => exact ⟨h, .refl, fun _ => rfl⟩
  | cons p rest ih =>
    have hp := hin p List.mem_cons_self
    have hrest := (List.nodup_cons.mp hnodup).2
    have hin' : ∀ q ∈ rest, q ∈ c.listTime := fun q hq => hin q (List.mem_cons_of_mem _ hq)
    have hpast' : ∀ q ∈ rest, (c.hash.objs q).activeTime ≤ now := fun q hq =>
      hpast q (List.mem_cons_of_mem _ hq)
    unfold expireLoop
    dsimp only
    split
    · exact ⟨h, .refl, fun _ => rfl⟩
    · split
      · rename_i htimeout
        rw [h.removeUnaligned hp]
        have hobjs : (c.unlink (locatedKeygen (c.hash.objs p).located) p).hash.objs =
            c.hash.objs := ChainHash.unlink_objs
        obtain ⟨hwf, hlost, htime⟩ := ih (h.unlink hp) cnt hrest
          (fun q hq => mem_erase_of_nodup hnodup hin hq)
          (by rwa [hobjs])
        rw [hobjs] at htime
        refine ⟨hwf, Loses.trans (lost_unlink fun _ _ => ?_) hlost, htime⟩
        have hdelta := deltaTime_le (hpast p List.mem_cons_self)
        omega
      · split
        · have hwf : (c.modify p fun b => { b with checkTimes := b.checkTimes + 1 }).Wf :=
            h.modify_times (fun _ => rfl) fun _ => rfl
          have hone : Lost (fun b _ => b.activeTime + tun.unaliTimeout < now) c
              (c.modify p fun b => { b with checkTimes := b.checkTimes + 1 }) :=
            lost_modify rfl fun _ hlate => hlate
          have hsame : ∀ q, ((c.modify p fun b =>
              { b with checkTimes := b.checkTimes + 1 }).hash.objs q).activeTime =
                (c.hash.objs q).activeTime := by
            intro q
            obtain rfl | hqp := eq_or_ne q p
            · rw [modify_objs_self]
            · rw [modify_objs_of_ne hqp]
          split
          · exact ⟨hwf, hone, hsame⟩
          · obtain ⟨hwf', hlost, htime⟩ := ih hwf (cnt + 1) hrest hin' (by simpa only [hsame])
            exact ⟨hwf', hone.trans hlost, fun q => (htime q).trans (hsame q)⟩
        · exact ih h cnt hrest hin' hpast'

theorem Wf.expire (h : c.Wf) (tun : MirrorTunables)
    (hpast : ∀ p ∈ c.listTime, (c.hash.objs p).activeTime ≤ now) :
    (c.expire tun now).Wf ∧
      Lost (fun b _ => b.activeTime + tun.unaliTimeout < now) c (c.expire tun now) ∧
      ∀ q, ((c.expire tun now).hash.objs q).activeTime = (c.hash.objs q).activeTime :=
  expireLoop_spec h c.listTime 0 h.nodup (fun _ hp => hp) hpast

/- Activity replies. -/

def Inactive (e : UnaliState) (r : CacheData) : Prop :=
  e.located = r.header.located ∧ e.state = .none

theorem activedOne_spec (h : c.Wf) (tun : MirrorTunables) (now : Nat) (e : UnaliState) :
    (activedOne tun now c e).Wf ∧ Lost (fun _ r => Inactive e r) c (activedOne tun now c e) := by
  unfold activedOne
  cases hsearch : c.search e.located with
  | none => exact ⟨h, .refl⟩
  | some p =>
    obtain ⟨hp, hlocated⟩ := h.search_eq_some.mp hsearch
    have hwf : (c.modify p fun b => { b with checkTimes := 0 }).Wf :=
      h.modify_times (fun _ => rfl) fun _ => rfl
    have hone : Lost (fun _ r => Inactive e r) c (c.modify p fun b => { b with checkTimes := 0 }) :=
      lost_modify rfl fun _ hidle => hidle
    dsimp only
    split
    · exact ⟨hwf, hone⟩
    · cases hstate : e.state with
      | active =>
        refine ⟨Wf.toTail (hwf.modify_times (fun _ => rfl) fun _ => rfl) hp, hone.trans ?_⟩
        exact Loses.trans (lost_modify rfl fun _ hidle => hidle) (lost_toTail hp)
      | none =>
        rw [← hlocated]
        refine ⟨h.modify_unlink hp rfl, hone.trans (lost_unlink fun r hr => ?_)⟩
        rw [modify_objs_self] at hr
        exact ⟨by rw [(h.block p hp).located r hr, hlocated], hstate⟩

theorem Wf.actived (h : c.Wf) (tun : MirrorTunables) (now : Nat) (es : List UnaliState) :
    (c.actived tun now es).Wf ∧
      Lost (fun _ r => ∃ e ∈ es, Inactive e r) c (c.actived tun now es) := by
  induction es generalizing c with
  | nil => exact ⟨h, .refl⟩
  | cons e es ih =>
    obtain ⟨hwf, hlost⟩ := activedOne_spec h tun now e
    obtain ⟨hwf', hlost'⟩ := ih hwf
    exact ⟨hwf', Loses.trans (hlost.imp fun _ hidle => ⟨e, List.mem_cons_self, hidle⟩)
      (hlost'.imp fun _ ⟨e', he', hidle⟩ => ⟨e', List.mem_cons_of_mem _ he', hidle⟩)⟩

end UnalignedCache

end ClusterZfs

import ClusterZfs.Pgr.Base

/-! A write of the section that fails: the state is made anew out of the section that is stored. -/
namespace ClusterZfs

/- A section with the records of some keys. -/
structure PgrSection.Stores (spi : PgrSection) (ks : List PgrKey) : Prop where
  storable : ∀ k ∈ ks, k.Storable
  records : spi.records = ks.flatMap keyRecord
  numkeys : spi.numkeys = ks.length

theorem stores_metaInit : SbdLu.metaInit.Stores [] := ⟨by simp, rfl, rfl⟩

namespace SbdLu

variable {s s' : SbdLu} {l new : List KeyPtr} {spi : PgrSection} {ks : List PgrKey}

theorem metaSection_eq (s : SbdLu) :
    s.metaSection = ⟨holderIndx s.rsvholder (if s.aptpl then s.keyList else []) 0 0,
      (if s.aptpl then s.keyList else []).length, s.aptpl, s.rsvdOne, s.rsvdAll, s.rsvType,
      s.rsvScope, ((if s.aptpl then s.keyList else []).map s.keys).flatMap keyRecord⟩ := by
  rw [metaSection, writeKeys_eq]
  simp

theorem stores_metaSection (h : s.Base l) :
    s.metaSection.Stores (if s.aptpl then l.map s.keys else []) := by
  rw [metaSection_eq, h.keyList_eq]
  split
  · refine ⟨fun k hk => ?_, rfl, by simp⟩
    obtain ⟨key, hkey, rfl⟩ := List.mem_map.mp hk
    exact h.storable key hkey
  · exact ⟨by simp, rfl, rfl⟩

theorem metaLoad_stores (kmem : Kmem) (hdisk : s.disk = some spi) (hspi : spi.Stores ks)
    (hhead : s.list.head = 0) :
    ∃ s' new, s.metaLoad kmem true = (true, s') ∧
      Loaded (s.loadHeader spi) s' ks [] new 1 spi.rsvholderIndx := by
  have hnil : (s.loadHeader spi).list.IsList [] := ⟨hhead, List.nodup_nil⟩
  obtain ⟨s', new, hrun, hloaded⟩ :=
    loadKeys_loaded kmem spi.rsvholderIndx ks hspi.storable hnil (by simp) 1
  refine ⟨s', new, ?_, hloaded⟩
  rw [← hspi.records, ← hspi.numkeys] at hrun
  simp only [metaLoad, hdisk, not_true_eq_false, if_false]
  rw [show (0 : KeyPtr) = ([] : List KeyPtr).getLastD 0 from rfl, hrun]

/- The state after a failed write whose section could be read back: new keys, none of which has a
nexus yet. `hd` is the state with what the section says in front of its keys. -/
structure Restored (hd s' : SbdLu) (ks : List PgrKey) (indx : Nat) (new : List KeyPtr) : Prop where
  base : s'.Base new
  keys : new.map s'.keys = ks.map PgrKey.reloaded
  holder : s'.rsvholder =
    if hd.rsvdOne = true ∧ 1 ≤ indx ∧ indx < 1 + ks.length then new.getD (indx - 1) 0
    else hd.rsvholder
  ptrs : ∀ it ∈ hd.itList, (s'.its it).keyPtr = 0
  rest : s' = { hd with
    keys := s'.keys, list := s'.list, alive := s'.alive, its := s'.its,
    rsvholder := s'.rsvholder, allKeysHasIt := false }

/- The last lines of `sbd_pgr_meta_write`: the keys from before are freed. -/
def dropOld (s : SbdLu) (tmpList : KeyPtr) : SbdLu :=
  (((s.setHead tmpList).setPgrCheckFlag true).keylistDealloc).setHead s.list.head

theorem Loaded.restored {hd s₁ : SbdLu} {indx : Nat} (hl : Loaded hd s₁ ks [] new 1 indx)
    (h : s.Base l) (hspi : ∀ k ∈ ks, k.Storable) (hlist : hd.list = { s.list with head := 0 })
    (halive : hd.alive = s.alive) (hitList : hd.itList = s.itList) :
    Restored hd (s₁.dropOld s.list.head) ks indx new := by
  have hits : s₁.itList = hd.itList := by rw [hl.rest]
  -- The old list still hangs together behind its old head, so all of it is freed.
  have hold : ((s₁.setHead s.list.head).setPgrCheckFlag true).keyList = l := by
    have hlinked : (s₁.setHead s.list.head).list.Linked 0 s.list.head l 0 := by
      refine h.isList.linked.congr (fun key hkey => ?_) fun key hkey => ?_
      · exact (hl.next_old key (halive ▸ h.alive key hkey) (by simp)).trans (by rw [hlist])
      · exact (hl.prev_old key (halive ▸ h.alive key hkey)).trans (by rw [hlist])
    have hlen : l.length ≤ s₁.alive.length := by
      have hle := h.length_le
      rw [hl.alive, List.length_append, halive]
      omega
    exact hlinked.walkFrom_eq hlen
  have hptrs : ∀ it ∈ hd.itList, ((s₁.dropOld s.list.head).its it).keyPtr = 0 := by
    intro it hit
    have hnull : (s₁.dropOld s.list.head).its it =
        { ((s₁.setHead s.list.head).setPgrCheckFlag true).its it with keyPtr := 0 } :=
      if_pos (hits ▸ hit)
    rw [hnull]
  have hitList' : (s₁.dropOld s.list.head).itList = hd.itList := hits
  refine ⟨⟨hl.isList, fun key hkey => ?_, fun it hit => ?_, fun it hit hmem => ?_, ?_, ?_⟩,
    hl.keys_new, hl.holder, hptrs, ?_⟩
  · have halive' : (s₁.dropOld s.list.head).alive = s₁.alive.filter (· ∉ l) := by
      rw [← hold]
      rfl
    have hnotin : key ∉ l := fun hmem => hl.fresh key hkey (halive ▸ h.alive key hmem)
    rw [halive', hl.alive]
    simp [hkey, hnotin]
  · exact .inl (hptrs it (hitList' ▸ hit))
  · rw [hptrs it (hitList' ▸ hit)] at hmem
    exact absurd rfl (hl.isList.linked.ne_zero 0 hmem)
  · rw [hitList', hitList]
    exact h.nexus
  · intro key hkey
    have hmem : s₁.keys key ∈ ks.map PgrKey.reloaded :=
      hl.keys_new ▸ List.mem_map_of_mem hkey
    obtain ⟨k, hk, heq⟩ := List.mem_map.mp hmem
    have hkeys : (s₁.dropOld s.list.head).keys key = k.reloaded := heq.symm
    rw [hkeys]
    exact (hspi k hk).reloaded
  · rw [dropOld, hl.rest]
    rfl

theorem metaWrite_unread (s : SbdLu) (kmem : Kmem) (kept : SectionKept) :
    s.metaWrite kmem (.failed kept false) = (false, { s with disk := s.keptSection kept }) := rfl

theorem metaWrite_restored (h : s.Base l) (kmem : Kmem) {kept : SectionKept}
    (hkept : s.keptSection kept = some spi) (hspi : spi.Stores ks) :
    ∃ s' new, s.metaWrite kmem (.failed kept true) = (false, s') ∧
      Restored ({ s with disk := some spi }.loadHeader spi) s' ks spi.rsvholderIndx new := by
  obtain ⟨s₁, new, hrun, hloaded⟩ := metaLoad_stores kmem
    (s := { s with disk := s.keptSection kept }.setHead 0) hkept hspi rfl
  refine ⟨s₁.dropOld s.list.head, new, ?_, ?_⟩
  · simp only [metaWrite, hrun]
    rfl
  · have hres := hloaded.restored h hspi.storable rfl rfl rfl
    rw [hkept] at hres
    exact { hres with }

/-- Without a section the unit goes on with no keys and the flags it has. -/
theorem metaWrite_lost (h : s.Base l) (kmem : Kmem) {kept : SectionKept}
    (hkept : s.keptSection kept = none) :
    ∃ s', s.metaWrite kmem (.failed kept true) = (false, s') ∧
      Restored { s with disk := some metaInit } s' [] 0 [] := by
  have hloaded : Loaded ({ s with disk := some metaInit }.setHead 0)
      ({ s with disk := some metaInit }.setHead 0) [] [] [] 1 0 :=
    ⟨⟨rfl, List.nodup_nil⟩, rfl, fun _ _ => rfl, fun _ _ _ => rfl, fun _ _ => rfl, by simp, rfl,
      by simp, rfl⟩
  refine ⟨({ s with disk := some metaInit }.setHead 0).dropOld s.list.head, ?_, ?_⟩
  · simp only [metaWrite, metaLoad, hkept, setHead]
    rfl
  · exact { hloaded.restored h (by simp) rfl rfl rfl with }

end SbdLu

end ClusterZfs

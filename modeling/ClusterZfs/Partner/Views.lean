import ClusterZfs.Partner.Unaligned

/-! The caches of all datasets, as the lookups find them. Every handler changes the caches of the
datasets it visits and no others; datasets with the same key do not disturb each other. -/
namespace ClusterZfs

namespace PartnerCache

variable {s s' s'' : PartnerCache} {d : Dataset} {p q now hostid : Nat} {tun : MirrorTunables}
  {L : Dataset → TxgList → CacheData → Prop} {M : Dataset → NonaliHash → CacheData → Prop}

/-- The aligned cache of a dataset, empty where there is none. -/
def aligned (s : PartnerCache) (d : Dataset) : AlignedCache := (s.holdAlignedCache d).getD .create

def unaligned (s : PartnerCache) (d : Dataset) : UnalignedCache :=
  (s.holdUnalignedCache d).getD .create

structure Inv (s : PartnerCache) : Prop where
  hash : s.spaOs.Inv SpaOs.dataset spaOsKeygen
  aligned : ∀ d, (s.aligned d).Wf
  unaligned : ∀ d, (s.unaligned d).Wf

/-- From `s` to `s'` no record arrives, and one leaves only where it may. -/
structure Moves (L : Dataset → TxgList → CacheData → Prop)
    (M : Dataset → NonaliHash → CacheData → Prop) (s s' : PartnerCache) : Prop where
  inv : s'.Inv
  aligned : ∀ d, AlignedCache.Lost (L d) (s.aligned d) (s'.aligned d)
  unaligned : ∀ d, UnalignedCache.Lost (M d) (s.unaligned d) (s'.unaligned d)

theorem Inv.moves_refl (h : s.Inv) : Moves L M s s := ⟨h, fun _ => .refl, fun _ => .refl⟩

theorem Moves.trans (h : Moves L M s s') (h' : Moves L M s' s'') : Moves L M s s'' :=
  ⟨h'.inv, fun d => (h.aligned d).trans (h'.aligned d),
    fun d => (h.unaligned d).trans (h'.unaligned d)⟩

theorem moves_foldl {β : Type} {f : PartnerCache → β → PartnerCache}
    (hf : ∀ s b, s.Inv → Moves L M s (f s b)) (l : List β) (h : s.Inv) :
    Moves L M s (l.foldl f s) := by
  induction l generalizing s with
  | nil => exact h.moves_refl
  | cons b l ih =>
    have hone := hf s b h
    exact hone.trans (ih hone.inv)

theorem start_inv : start.Inv where
  hash := .empty _
  aligned := fun _ => AlignedCache.wf_create
  unaligned := fun _ => UnalignedCache.wf_create

theorem Inv.dataset_of_get (h : s.Inv) (hget : s.getSpaOs d = some p) :
    (s.spaOs.objs p).dataset = d := (h.hash.find_eq_some.mp hget).2

/- A dataset entry is changed in place. What holds of the one cache of an entry holds of the other:
`cache` says which of them is looked at. -/

section CacheOf

variable {γ : Type} {cache : SpaOs → Option γ} {e : γ} {f : γ → γ} {g : SpaOs → SpaOs}

def cacheOf (s : PartnerCache) (cache : SpaOs → Option γ) (e : γ) (d : Dataset) : γ :=
  ((s.getSpaOs d).bind fun p => cache (s.spaOs.objs p)).getD e

theorem cacheOf_of_get (hget : s.getSpaOs d = some p) :
    s.cacheOf cache e d = (cache (s.spaOs.objs p)).getD e := by
  rw [cacheOf, hget]
  rfl

theorem cacheOf_of_none (hget : s.getSpaOs d = none) : s.cacheOf cache e d = e := by
  rw [cacheOf, hget]
  rfl

section

variable (hg : ∀ o, (g o).dataset = o.dataset) (n : Nat)
include hg

theorem getSpaOs_modify :
    getSpaOs ⟨s.spaOs.modify p g, n⟩ d = s.getSpaOs d := ChainHash.find_modify (hg _)

theorem cacheOf_modify :
    cacheOf ⟨s.spaOs.modify p g, n⟩ cache e d =
      if s.getSpaOs d = some p then (cache (g (s.spaOs.objs p))).getD e
      else s.cacheOf cache e d := by
  cases hget : s.getSpaOs d with
  | none => rw [if_neg (by simp), cacheOf_of_none hget,
      cacheOf_of_none ((getSpaOs_modify hg n).trans hget)]
  | some q =>
    rw [cacheOf_of_get hget, cacheOf_of_get ((getSpaOs_modify hg n).trans hget)]
    obtain rfl | hqp := eq_or_ne q p
    · rw [if_pos rfl, ChainHash.modify_objs_self]
    · rw [if_neg (by simpa using hqp), ChainHash.modify_objs_of_ne hqp]

theorem cacheOf_modify_same
    (hsame : ∀ o, cache (g o) = cache o) (n : Nat) :
    cacheOf ⟨s.spaOs.modify p g, n⟩ cache e d = s.cacheOf cache e d := by
  rw [cacheOf_modify hg, hsame]
  split
  · rename_i hget
    exact (cacheOf_of_get hget).symm
  · rfl

/-- What is done to the cache of an entry is done to the cache of its dataset, if it has one. -/
theorem cacheOf_map
    (hmap : ∀ o, cache (g o) = (cache o).map f) (n : Nat) :
    s.getSpaOs d = some p ∧
        cacheOf ⟨s.spaOs.modify p g, n⟩ cache e d = f (s.cacheOf cache e d) ∨
      cacheOf ⟨s.spaOs.modify p g, n⟩ cache e d = s.cacheOf cache e d ∧
        (s.getSpaOs d = some p → s.cacheOf cache e d = e) := by
  rw [cacheOf_modify hg, hmap]
  by_cases hget : s.getSpaOs d = some p
  · rw [if_pos hget, cacheOf_of_get hget]
    cases cache (s.spaOs.objs p) with
    | none => exact .inr ⟨rfl, fun _ => rfl⟩
    | some c => exact .inl ⟨hget, rfl⟩
  · rw [if_neg hget]
    exact .inr ⟨rfl, fun hsome => absurd hsome hget⟩

end

theorem Inv.cacheOf_insert (h : s.Inv) {o : SpaOs} (hget : s.getSpaOs o.dataset = none)
    (hempty : cache o = none) (n : Nat) :
    cacheOf ⟨s.spaOs.insert (spaOsKeygen o.dataset) o, n⟩ cache e d = s.cacheOf cache e d := by
  by_cases hd : d = o.dataset
  · have hself : getSpaOs ⟨s.spaOs.insert (spaOsKeygen o.dataset) o, n⟩ d = some s.spaOs.next := by
      rw [hd]
      exact h.hash.find_insert_self hget
    rw [cacheOf_of_get hself, ChainHash.insert_objs_self, hempty, hd, cacheOf_of_none hget]
    rfl
  · have hother : getSpaOs ⟨s.spaOs.insert (spaOsKeygen o.dataset) o, n⟩ d = s.getSpaOs d :=
      h.hash.find_insert_of_ne hget hd
    cases hq : s.getSpaOs d with
    | none => rw [cacheOf_of_none hq, cacheOf_of_none (hother.trans hq)]
    | some q =>
      have hfresh := h.hash.fresh q (h.hash.find_eq_some.mp hq).1
      rw [cacheOf_of_get hq, cacheOf_of_get (hother.trans hq),
        ChainHash.insert_objs_of_ne (Nat.ne_of_lt hfresh)]

theorem Inv.cacheOf_dropSpaOs (h : s.Inv) (hp : s.spaOs.Has SpaOs.dataset spaOsKeygen p) :
    (s.dropSpaOs p).cacheOf cache e d =
      if d = (s.spaOs.objs p).dataset then e else s.cacheOf cache e d := by
  have hget : (s.dropSpaOs p).getSpaOs d =
      if d = (s.spaOs.objs p).dataset then none else s.getSpaOs d := h.hash.find_unlink hp
  have hobjs : (s.dropSpaOs p).spaOs.objs = s.spaOs.objs := ChainHash.unlink_objs
  rw [cacheOf, hget, hobjs]
  split <;> rfl

end CacheOf

theorem aligned_modifyAligned (f : AlignedCache → AlignedCache) :
    s.getSpaOs d = some p ∧ (s.modifyAligned p f).aligned d = f (s.aligned d) ∨
      (s.modifyAligned p f).aligned d = s.aligned d ∧
        (s.getSpaOs d = some p → s.aligned d = .create) :=
  cacheOf_map (by exact fun _ => rfl) (by exact fun _ => rfl) s.arrivals

theorem unaligned_modifyUnaligned (f : UnalignedCache → UnalignedCache) :
    s.getSpaOs d = some p ∧ (s.modifyUnaligned p f).unaligned d = f (s.unaligned d) ∨
      (s.modifyUnaligned p f).unaligned d = s.unaligned d ∧
        (s.getSpaOs d = some p → s.unaligned d = .create) :=
  cacheOf_map (by exact fun _ => rfl) (by exact fun _ => rfl) s.arrivals

theorem Inv.moves_modifyAligned (h : s.Inv) {f : AlignedCache → AlignedCache}
    (hf : ∀ d, s.getSpaOs d = some p → (f (s.aligned d)).Wf ∧
      AlignedCache.Lost (L d) (s.aligned d) (f (s.aligned d))) :
    Moves L M s (s.modifyAligned p f) := by
  have hboth : ∀ d, ((s.modifyAligned p f).aligned d).Wf ∧
      AlignedCache.Lost (L d) (s.aligned d) ((s.modifyAligned p f).aligned d) := by
    intro d
    rcases aligned_modifyAligned f with ⟨hget, hnew⟩ | ⟨hsame, -⟩
    · exact hnew ▸ hf d hget
    · rw [hsame]
      exact ⟨h.aligned d, .refl⟩
  have hother : ∀ d, (s.modifyAligned p f).unaligned d = s.unaligned d := fun d =>
    cacheOf_modify_same (by exact fun _ => rfl) (by exact fun _ => rfl) s.arrivals
  have hhash : (s.modifyAligned p f).spaOs.Inv SpaOs.dataset spaOsKeygen :=
    h.hash.modify (f := fun o : SpaOs => { o with aligned := o.aligned.map f }) rfl
  exact ⟨⟨hhash, fun d => (hboth d).1, fun d => hother d ▸ h.unaligned d⟩, fun d => (hboth d).2,
    fun d => hother d ▸ .refl⟩

theorem Inv.moves_modifyUnaligned (h : s.Inv) {f : UnalignedCache → UnalignedCache}
    (hf : ∀ d, s.getSpaOs d = some p → (f (s.unaligned d)).Wf ∧
      UnalignedCache.Lost (M d) (s.unaligned d) (f (s.unaligned d))) :
    Moves L M s (s.modifyUnaligned p f) := by
  have hboth : ∀ d, ((s.modifyUnaligned p f).unaligned d).Wf ∧
      UnalignedCache.Lost (M d) (s.unaligned d) ((s.modifyUnaligned p f).unaligned d) := by
    intro d
    rcases unaligned_modifyUnaligned f with ⟨hget, hnew⟩ | ⟨hsame, -⟩
    · exact hnew ▸ hf d hget
    · rw [hsame]
      exact ⟨h.unaligned d, .refl⟩
  have hother : ∀ d, (s.modifyUnaligned p f).aligned d = s.aligned d := fun d =>
    cacheOf_modify_same (by exact fun _ => rfl) (by exact fun _ => rfl) s.arrivals
  have hhash : (s.modifyUnaligned p f).spaOs.Inv SpaOs.dataset spaOsKeygen :=
    h.hash.modify (f := fun o : SpaOs => { o with unaligned := o.unaligned.map f }) rfl
  exact ⟨⟨hhash, fun d => hother d ▸ h.aligned d, fun d => (hboth d).1⟩,
    fun d => hother d ▸ .refl, fun d => (hboth d).2⟩

/- An entry is found or created, and no cache is changed by that. -/

/-- The entries of `s'` are those of `s` with the same caches, and one for `d` at `p`. -/
structure Created (s s' : PartnerCache) (d : Dataset) (p : Nat) : Prop where
  inv : s'.Inv
  arrivals : s'.arrivals = s.arrivals
  get : s'.getSpaOs d = some p
  aligned : ∀ d', s'.aligned d' = s.aligned d'
  unaligned : ∀ d', s'.unaligned d' = s.unaligned d'

/- The caches are those of `s`, so their invariants need no proof. -/
theorem Inv.created (h : s.Inv) (hhash : s'.spaOs.Inv SpaOs.dataset spaOsKeygen)
    (harrivals : s'.arrivals = s.arrivals) (hget : s'.getSpaOs d = some p)
    (haligned : ∀ d', s'.aligned d' = s.aligned d')
    (hunaligned : ∀ d', s'.unaligned d' = s.unaligned d') : Created s s' d p := by
  exact ⟨⟨hhash, fun d' => haligned d' ▸ h.aligned d', fun d' => hunaligned d' ▸ h.unaligned d'⟩,
    harrivals, hget, haligned, hunaligned⟩

theorem Inv.createSpaOs (h : s.Inv) (d : Dataset) (now hostid : Nat) :
    Created s (s.createSpaOs d now hostid).1 d (s.createSpaOs d now hostid).2 := by
  unfold PartnerCache.createSpaOs
  cases hget : s.getSpaOs d with
  | none =>
    have hfree : s.getSpaOs (SpaOs.dataset ⟨d, hostid, now, none, none⟩) = none := hget
    exact h.created (h.hash.insert hfree) rfl (h.hash.find_insert_self hfree)
      (fun _ => h.cacheOf_insert hfree rfl _) (fun _ => h.cacheOf_insert hfree rfl _)
  | some p =>
    have hhash := h.hash.modify (p := p) (f := fun o : SpaOs =>
      { o with activeTime := now, remoteHostid := hostid }) rfl
    exact h.created hhash rfl ((getSpaOs_modify (by exact fun _ => rfl) _).trans hget)
      (fun _ => cacheOf_modify_same (by exact fun _ => rfl) (by exact fun _ => rfl) _)
      (fun _ => cacheOf_modify_same (by exact fun _ => rfl) (by exact fun _ => rfl) _)

/- The cache of the entry that was found or created is changed, or created with its first record. -/
theorem Created.put {γ : Type} {cache : SpaOs → Option γ} {e : γ} {f : γ → γ} {g : SpaOs → SpaOs}
    (h : Created s s' d p) (hg : ∀ o, (g o).dataset = o.dataset)
    (hput : ∀ o, cache (g o) = some (f ((cache o).getD e)))
    (hsame : ∀ d', s'.cacheOf cache e d' = s.cacheOf cache e d') (n : Nat) (d' : Dataset) :
    cacheOf ⟨s'.spaOs.modify p g, n⟩ cache e d' =
      if d' = d then f (s.cacheOf cache e d') else s.cacheOf cache e d' := by
  have hget : s'.getSpaOs d' = some p ↔ d' = d :=
    ⟨fun hd => by rw [← h.inv.dataset_of_get hd, h.inv.dataset_of_get h.get],
      fun hd => hd ▸ h.get⟩
  rw [cacheOf_modify hg, if_congr hget rfl rfl, hput, ← hsame]
  split
  · rename_i hd
    rw [cacheOf_of_get (hget.mpr hd)]
    rfl
  · rfl

/- Data messages: the cache of the dataset takes the record, all others stay as they are. -/

theorem Inv.alignedHandle (h : s.Inv) (now hostid : Nat) (m : MirrorHeader) :
    (s.alignedHandle now hostid m).Inv ∧
      (∀ d, (s.alignedHandle now hostid m).aligned d =
        if d = m.dataset then (s.aligned d).handle now ⟨s.arrivals, m⟩ else s.aligned d) ∧
      ∀ d, (s.alignedHandle now hostid m).unaligned d = s.unaligned d := by
  have hcreated := h.createSpaOs m.dataset now hostid
  have hnew : ∀ d, (s.alignedHandle now hostid m).aligned d =
      if d = m.dataset then (s.aligned d).handle now ⟨s.arrivals, m⟩ else s.aligned d := by
    intro d
    rw [← hcreated.arrivals]
    let take := fun c : AlignedCache =>
      c.handle now ⟨(s.createSpaOs m.dataset now hostid).1.arrivals, m⟩
    exact hcreated.put
      (g := fun o => { o with aligned := some (take (o.aligned.getD .create)) })
      (fun _ => rfl) (fun _ => rfl) hcreated.aligned _ d
  have hkept : ∀ d, (s.alignedHandle now hostid m).unaligned d = s.unaligned d := fun d =>
    (cacheOf_modify_same (by exact fun _ => rfl) (by exact fun _ => rfl) _).trans
      (hcreated.unaligned d)
  have hhash : (s.alignedHandle now hostid m).spaOs.Inv SpaOs.dataset spaOsKeygen :=
    hcreated.inv.hash.modify (f := fun o : SpaOs => { o with
      aligned := some ((o.aligned.getD .create).handle now ⟨_, m⟩) }) rfl
  refine ⟨⟨hhash, fun d => ?_, fun d => ?_⟩, hnew, hkept⟩
  · rw [hnew]
    split
    · exact (h.aligned d).handle now _
    · exact h.aligned d
  · exact hkept d ▸ h.unaligned d

theorem Inv.unalignedHandle (h : s.Inv) (now hostid : Nat) (m : MirrorHeader)
    (hindex : ∀ b r, (s.unaligned m.dataset).Holds b r → r.header.located = m.located →
      r.header.index ≠ m.index) :
    (s.unalignedHandle now hostid m).Inv ∧
      (∀ d, (s.unalignedHandle now hostid m).unaligned d =
        if d = m.dataset then (s.unaligned d).handle now ⟨s.arrivals, m⟩ else s.unaligned d) ∧
      ∀ d, (s.unalignedHandle now hostid m).aligned d = s.aligned d := by
  have hcreated := h.createSpaOs m.dataset now hostid
  have hnew : ∀ d, (s.unalignedHandle now hostid m).unaligned d =
      if d = m.dataset then (s.unaligned d).handle now ⟨s.arrivals, m⟩ else s.unaligned d := by
    intro d
    rw [← hcreated.arrivals]
    let take := fun c : UnalignedCache =>
      c.handle now ⟨(s.createSpaOs m.dataset now hostid).1.arrivals, m⟩
    exact hcreated.put
      (g := fun o => { o with unaligned := some (take (o.unaligned.getD .create)) })
      (fun _ => rfl) (fun _ => rfl) hcreated.unaligned _ d
  have hkept : ∀ d, (s.unalignedHandle now hostid m).aligned d = s.aligned d := fun d =>
    (cacheOf_modify_same (by exact fun _ => rfl) (by exact fun _ => rfl) _).trans
      (hcreated.aligned d)
  have hhash : (s.unalignedHandle now hostid m).spaOs.Inv SpaOs.dataset spaOsKeygen :=
    hcreated.inv.hash.modify (f := fun o : SpaOs => { o with
      unaligned := some ((o.unaligned.getD .create).handle now ⟨_, m⟩) }) rfl
  refine ⟨⟨hhash, fun d => ?_, fun d => ?_⟩, hnew, hkept⟩
  · exact hkept d ▸ h.aligned d
  · rw [hnew]
    split
    · rename_i hd
      refine (h.unaligned d).handle now _ fun q hq hlocated r' hr' => ?_
      subst hd
      refine hindex _ r' ⟨q, hq, rfl, hr'⟩ ?_
      rw [((h.unaligned m.dataset).block q hq).located r' hr', hlocated]
    · exact h.unaligned d

end PartnerCache

end ClusterZfs

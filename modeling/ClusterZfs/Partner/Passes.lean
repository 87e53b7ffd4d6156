import ClusterZfs.Partner.Views

/-! The handlers that take records out of the mirror cache: clears, replies and expiry passes. Each
is a walk of visits to datasets, and says which records may leave. -/
namespace ClusterZfs

namespace PartnerCache

variable {s s' : PartnerCache} {d : Dataset} {p now : Nat} {tun : MirrorTunables}
  {L : Dataset → TxgList → CacheData → Prop} {M : Dataset → NonaliHash → CacheData → Prop}

section

variable (h : s.Inv)
include h

theorem Inv.cleanCacheList (d : Dataset) (t : Nat) :
    Moves (fun d' _ r => d' = d ∧ r.header.txg ≤ t) M s (s.cleanCacheList d t) := by
  unfold PartnerCache.cleanCacheList
  cases hget : s.getSpaOs d with
  | none => exact h.moves_refl
  | some p =>
    refine h.moves_modifyAligned fun d' hget' => ⟨(h.aligned d').clean t, ?_⟩
    have hd : d' = d := by rw [← h.dataset_of_get hget', h.dataset_of_get hget]
    exact ((h.aligned d').lost_clean t).imp fun _ hle => ⟨hd, hle⟩

theorem Inv.cleanUnalignedCacheList (d : Dataset) (nodes : List BlkptrNode) :
    Moves L (fun d' _ r => d' = d ∧ ∃ n ∈ nodes, UnalignedCache.Names n r) s
      (s.cleanUnalignedCacheList d nodes) := by
  unfold PartnerCache.cleanUnalignedCacheList
  cases hget : s.getSpaOs d with
  | none => exact h.moves_refl
  | some p =>
    refine h.moves_modifyUnaligned fun d' hget' => ?_
    have hd : d' = d := by rw [← h.dataset_of_get hget', h.dataset_of_get hget]
    obtain ⟨hwf, hlost, -⟩ := (h.unaligned d').clean nodes
    exact ⟨hwf, hlost.imp fun _ hname => ⟨hd, hname⟩⟩

theorem Inv.cleanSpaAligned (tun : MirrorTunables) (now : Nat) (order : List Nat)
    (reply : List ReplySyncedTxg) :
    Moves (fun d _ r => ∃ x ∈ reply, x.spaGuid = d.spaId ∧ r.header.txg ≤ x.txg) M s
      (s.cleanSpaAligned tun now order reply) := by
  refine moves_foldl (fun s p h => ?_) _ h
  unfold cleanAlignedOne
  cases hfind : reply.find? fun e => decide ((s.spaOs.objs p).dataset.spaId = e.spaGuid) with
  | none => exact h.moves_refl
  | some x =>
    refine h.moves_modifyAligned fun d hget => ?_
    have hguid : (s.spaOs.objs p).dataset.spaId = x.spaGuid := by simpa using List.find?_some hfind
    have hx : x.spaGuid = d.spaId := by rw [← hguid, h.dataset_of_get hget]
    obtain ⟨hwf, hlost⟩ := (h.aligned d).cleanSynced tun now x.txg
    exact ⟨hwf, hlost.imp fun _ hle => ⟨x, List.mem_of_find?_eq_some hfind, hx, hle⟩⟩

theorem Inv.handleUnalignedActived (tun : MirrorTunables) (now : Nat)
    (states : List UnaliState) (hone : ∀ e ∈ states, ∀ e' ∈ states, e.dataset = e'.dataset) :
    Moves L (fun d _ r => ∃ e ∈ states, e.dataset = d ∧ UnalignedCache.Inactive e r) s
      (s.handleUnalignedActived tun now states) := by
  cases states with
  | nil => exact h.moves_refl
  | cons e es =>
    unfold PartnerCache.handleUnalignedActived
    dsimp only
    cases hget : s.getSpaOs e.dataset with
    | none => exact h.moves_refl
    | some p =>
      refine h.moves_modifyUnaligned fun d hget' => ?_
      have hd : e.dataset = d := by rw [← h.dataset_of_get hget', h.dataset_of_get hget]
      obtain ⟨hwf, hlost⟩ := (h.unaligned d).actived tun now (e :: es)
      refine ⟨hwf, hlost.imp ?_⟩
      rintro r ⟨e', he', hidle⟩
      exact ⟨e', he', by rw [hone e' he' e List.mem_cons_self, hd], hidle⟩

theorem Inv.alignedExpiredLoop (tun : MirrorTunables) (now : Nat) (l : List Nat)
    (hosts : List SpaHost) :
    Moves (fun _ e _ => e.activeTime + tun.aliTimeout < now) M s
      (alignedExpiredLoop tun now l hosts s) := by
  induction l generalizing s hosts with
  | nil => exact h.moves_refl
  | cons p rest ih =>
    have hone : Moves (fun _ e _ => e.activeTime + tun.aliTimeout < now) M s
        (s.modifyAligned p fun c => (c.expire tun now).1) :=
      h.moves_modifyAligned fun d _ => (h.aligned d).expire tun now
    unfold PartnerCache.alignedExpiredLoop
    cases (s.spaOs.objs p).aligned with
    | none => exact ih h hosts
    | some c =>
      dsimp only
      cases (c.expire tun now).2 with
      | none => exact hone.trans (ih hone.inv hosts)
      | some guid =>
        dsimp only
        split
        · exact hone
        · exact hone.trans (ih hone.inv _)

end

/- No block was active later than now, also not after blocks of the same dataset have left. -/
def Past (now : Nat) (s : PartnerCache) : Prop :=
  ∀ d, ∀ p ∈ (s.unaligned d).listTime, ((s.unaligned d).hash.objs p).activeTime ≤ now

theorem Inv.unalignedExpiredOne (h : s.Inv) (hpast : Past now s) (tun : MirrorTunables)
    (d : Dataset) :
    Moves L (fun _ b _ => b.activeTime + tun.unaliTimeout < now) s
        (unalignedExpiredOne tun now s d) ∧
      Past now (PartnerCache.unalignedExpiredOne tun now s d) := by
  unfold PartnerCache.unalignedExpiredOne
  cases s.getSpaOs d with
  | none => exact ⟨h.moves_refl, hpast⟩
  | some p =>
    constructor
    · refine h.moves_modifyUnaligned fun d' _ => ?_
      obtain ⟨hwf, hlost, -⟩ := (h.unaligned d').expire tun (hpast d')
      exact ⟨hwf, hlost⟩
    · intro d'
      rcases unaligned_modifyUnaligned fun c => c.expire tun now with
        ⟨-, hnew⟩ | ⟨hsame, -⟩
      · obtain ⟨-, hlost, htime⟩ := (h.unaligned d').expire tun (hpast d')
        rw [hnew]
        intro q hq
        rw [htime]
        exact hpast d' q (hlost.old q hq)
      · rw [hsame]
        exact hpast d'

theorem Inv.unalignedExpired (h : s.Inv) (hpast : Past now s) (tun : MirrorTunables)
    (l : List Dataset) :
    Moves L (fun _ b _ => b.activeTime + tun.unaliTimeout < now) s
      (l.foldl (PartnerCache.unalignedExpiredOne tun now) s) := by
  induction l generalizing s with
  | nil => exact h.moves_refl
  | cons d l ih =>
    obtain ⟨hmoves, hpast'⟩ := h.unalignedExpiredOne hpast tun d
    exact hmoves.trans (ih hmoves.inv hpast')

/- A dataset entry is taken out. -/

theorem Inv.lists_of_isSpaOsEmpty (h : s.Inv)
    (hp : s.spaOs.Has SpaOs.dataset spaOsKeygen p)
    (hempty : isSpaOsEmpty (s.spaOs.objs p) = true) :
    (s.aligned (s.spaOs.objs p).dataset).listTxg = [] ∧
      (s.unaligned (s.spaOs.objs p).dataset).listTime = [] := by
  have hself : s.getSpaOs (s.spaOs.objs p).dataset = some p := h.hash.find_self hp
  unfold isSpaOsEmpty at hempty
  rw [Bool.and_eq_true] at hempty
  constructor
  · have htime : (s.aligned (s.spaOs.objs p).dataset).listTime = [] := by
      rw [show s.aligned _ = _ from cacheOf_of_get hself]
      cases hc : (s.spaOs.objs p).aligned with
      | none => rfl
      | some c => simpa [hc] using hempty.1
    exact List.perm_nil.mp (htime ▸ (h.aligned (s.spaOs.objs p).dataset).perm)
  · rw [show s.unaligned _ = _ from cacheOf_of_get hself]
    cases hc : (s.spaOs.objs p).unaligned with
    | none => rfl
    | some c => simpa [hc] using hempty.2

theorem Inv.dropSpaOs (h : s.Inv) (hempty : isSpaOsEmpty (s.spaOs.objs p) = true) :
    Moves L M s (s.dropSpaOs p) := by
  by_cases hp : s.spaOs.Has SpaOs.dataset spaOsKeygen p
  · obtain ⟨hnone, hnone'⟩ := h.lists_of_isSpaOsEmpty hp hempty
    have haligned : ∀ d, (s.dropSpaOs p).aligned d = _ := fun d => h.cacheOf_dropSpaOs hp
    have hunaligned : ∀ d, (s.dropSpaOs p).unaligned d = _ := fun d => h.cacheOf_dropSpaOs hp
    refine ⟨⟨h.hash.unlink hp, fun d => ?_, fun d => ?_⟩, fun d => ?_, fun d => ?_⟩
    · rw [haligned]
      split
      exacts [AlignedCache.wf_create, h.aligned d]
    · rw [hunaligned]
      split
      exacts [UnalignedCache.wf_create, h.unaligned d]
    · rw [haligned]
      split_ifs with hd
      exacts [hd ▸ Loses.of_nil hnone rfl, .refl]
    · rw [hunaligned]
      split_ifs with hd
      exacts [hd ▸ Loses.of_nil hnone' rfl, .refl]
  · unfold PartnerCache.dropSpaOs
    rw [h.hash.unlink_of_not_has hp]
    exact h.moves_refl

theorem Inv.spaOsExpiredOne (h : s.Inv) (tun : MirrorTunables) (now p : Nat) :
    Moves L M s (spaOsExpiredOne tun now s p) := by
  unfold PartnerCache.spaOsExpiredOne
  dsimp only
  split
  · rename_i hcond
    exact h.dropSpaOs hcond.2.2
  · exact h.moves_refl

end PartnerCache

end ClusterZfs

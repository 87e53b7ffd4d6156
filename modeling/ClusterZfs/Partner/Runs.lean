import ClusterZfs.Partner.Passes

/-! Runs of data messages, clears, replies and expiry passes for any datasets: the lists and the
hash of every cache agree, a record leaves only for a reason, and a clear leaves nothing behind
that it covers or names. -/
namespace ClusterZfs

namespace PartnerCache

variable {r : CacheData}

/-- Why a record of an entry of an aligned cache may leave. -/
def LeavesAligned (tun : MirrorTunables) :
    PartnerAction → Dataset → TxgList → CacheData → Prop
  | .clearAligned d' t, d, _, r => d = d' ∧ r.header.txg ≤ t
  | .replyLastSyncedTxg _ _ reply, d, _, r =>
    ∃ x ∈ reply, x.spaGuid = d.spaId ∧ r.header.txg ≤ x.txg
  | .alignedExpired now _, _, e, _ => e.activeTime + tun.aliTimeout < now
  | _, _, _, _ => False

/-- Why a record of a block of an unaligned cache may leave. -/
def LeavesUnaligned (tun : MirrorTunables) :
    PartnerAction → Dataset → NonaliHash → CacheData → Prop
  | .clearNonaligned d' nodes, d, _, r => d = d' ∧ ∃ n ∈ nodes, UnalignedCache.Names n r
  | .replyNonalignedActive _ states, d, _, r =>
    ∃ e ∈ states, e.dataset = d ∧ UnalignedCache.Inactive e r
  | .unalignedExpired now _, _, b, _ => b.activeTime + tun.unaliTimeout < now
  | _, _, _, _ => False

def ArrivesAligned (s : PartnerCache) : PartnerAction → Dataset → CacheData → Prop
  | .data _ _ m, d, r => d = m.dataset ∧ r = ⟨s.arrivals, m⟩
  | _, _, _ => False

def ArrivesUnaligned (s : PartnerCache) : PartnerAction → Dataset → CacheData → Prop
  | .dataUnaligned _ _ m, d, r => d = m.dataset ∧ r = ⟨s.arrivals, m⟩
  | _, _, _ => False

/-- After the step the caches hold the records they held, but those that had a reason to leave,
and the record that came; and nothing that a clear covers or names. -/
structure Kept (tun : MirrorTunables) (s : PartnerCache) (a : PartnerAction)
    (s' : PartnerCache) : Prop where
  aligned : ∀ d e r, (s.aligned d).Holds e r →
    (∃ e', (s'.aligned d).Holds e' r) ∨ LeavesAligned tun a d e r
  unaligned : ∀ d b r, (s.unaligned d).Holds b r →
    (∃ b', (s'.unaligned d).Holds b' r) ∨ LeavesUnaligned tun a d b r
  onlyAligned : ∀ d r, (∃ e, (s'.aligned d).Holds e r) →
    (∃ e, (s.aligned d).Holds e r) ∨ ArrivesAligned s a d r
  onlyUnaligned : ∀ d r, (∃ b, (s'.unaligned d).Holds b r) →
    (∃ b, (s.unaligned d).Holds b r) ∨ ArrivesUnaligned s a d r
  arrivesAligned : ∀ d r, ArrivesAligned s a d r → ∃ e, (s'.aligned d).Holds e r
  arrivesUnaligned : ∀ d r, ArrivesUnaligned s a d r → ∃ b, (s'.unaligned d).Holds b r
  cleared : ∀ d t, a = .clearAligned d t → ∀ e r, (s'.aligned d).Holds e r → t < r.header.txg
  clearedNamed : ∀ d nodes, a = .clearNonaligned d nodes → ∀ b r, (s'.unaligned d).Holds b r →
    ¬ ∃ n ∈ nodes, UnalignedCache.Names n r

/-- The lists of every aligned cache agree and are in order, and those of every unaligned cache
agree with its hash. -/
def WellKept (s : PartnerCache) : Prop := ∀ d, (s.aligned d).Ordered ∧ (s.unaligned d).Exact

/- An unaligned message does not bring the index of a record that its block already has; a reply is
about one dataset; and no block was active later than the time of an expiry pass. -/
def Careful (s : PartnerCache) : PartnerAction → Prop
  | .dataUnaligned _ _ m => ∀ b r, (s.unaligned m.dataset).Holds b r →
    r.header.located = m.located → r.header.index ≠ m.index
  | .replyNonalignedActive _ states => ∀ e ∈ states, ∀ e' ∈ states, e.dataset = e'.dataset
  | .unalignedExpired now _ => ∀ d b r, (s.unaligned d).Holds b r → b.activeTime ≤ now
  | _ => True

variable {s s' : PartnerCache} {tun : MirrorTunables} {a : PartnerAction}

theorem Inv.wellKept (h : s.Inv) : s.WellKept := fun d =>
  ⟨(h.aligned d).toOrdered, (h.unaligned d).exact⟩

section

variable (h : Moves (LeavesAligned tun a) (LeavesUnaligned tun a) s s')
include h

section

variable (hnone : ∀ d r, ¬ ArrivesAligned s a d r ∧ ¬ ArrivesUnaligned s a d r)
include hnone

theorem Moves.kept
    (hcleared : ∀ d t, a = .clearAligned d t → ∀ e r, (s'.aligned d).Holds e r → t < r.header.txg)
    (hnamed : ∀ d nodes, a = .clearNonaligned d nodes → ∀ b r, (s'.unaligned d).Holds b r →
      ¬ ∃ n ∈ nodes, UnalignedCache.Names n r) : Kept tun s a s' where
  aligned := fun d _ _ hr => (h.aligned d).holds hr
  unaligned := fun d _ _ hr => (h.unaligned d).holds hr
  onlyAligned := fun d r hr => by
    obtain ⟨p, hp, hr⟩ := AlignedCache.exists_holds.mp hr
    exact .inl (AlignedCache.exists_holds.mpr
      ⟨p, (h.aligned d).old p hp, (h.aligned d).sub p hp r hr⟩)
  onlyUnaligned := fun d r hr => by
    obtain ⟨p, hp, hr⟩ := UnalignedCache.exists_holds.mp hr
    exact .inl (UnalignedCache.exists_holds.mpr
      ⟨p, (h.unaligned d).old p hp, (h.unaligned d).sub p hp r hr⟩)
  arrivesAligned := fun d r harrives => absurd harrives (hnone d r).1
  arrivesUnaligned := fun d r harrives => absurd harrives (hnone d r).2
  cleared := hcleared
  clearedNamed := hnamed

theorem Moves.kept_pass
    (hclear : ∀ d t, a ≠ .clearAligned d t) (hnamed : ∀ d nodes, a ≠ .clearNonaligned d nodes) :
    s'.Inv ∧ Kept tun s a s' :=
  ⟨h.inv, h.kept hnone (fun d t ha => absurd ha (hclear d t))
    fun d nodes ha => absurd ha (hnamed d nodes)⟩

end

end

theorem not_holds_create {e : TxgList} : ¬ AlignedCache.create.Holds e r := nofun

theorem not_holds_create_unaligned {b : NonaliHash} : ¬ UnalignedCache.create.Holds b r := nofun

section

variable (h : s.Inv)
include h

theorem Inv.lt_of_cleanCacheList {d : Dataset} {t : Nat} {e : TxgList}
    (hr : ((s.cleanCacheList d t).aligned d).Holds e r) : t < r.header.txg := by
  unfold PartnerCache.cleanCacheList at hr
  cases hget : s.getSpaOs d with
  | none =>
    have hempty : s.aligned d = .create := cacheOf_of_none hget
    rw [hget] at hr
    exact absurd (hempty ▸ hr) not_holds_create
  | some p =>
    rw [hget] at hr
    rcases aligned_modifyAligned fun c => c.clean t with
      ⟨-, hnew⟩ | ⟨hsame, hempty⟩
    · rw [hnew] at hr
      obtain ⟨q, hq, rfl, hr⟩ := hr
      rw [((h.aligned d).clean t).txg q hq r hr]
      exact (h.aligned d).lt_of_clean hq
    · rw [hsame, hempty hget] at hr
      exact absurd hr not_holds_create

theorem Inv.not_named_of_clean {d : Dataset} {nodes : List BlkptrNode}
    {b : NonaliHash}
    (hr : ((s.cleanUnalignedCacheList d nodes).unaligned d).Holds b r) :
    ¬ ∃ n ∈ nodes, UnalignedCache.Names n r := by
  unfold PartnerCache.cleanUnalignedCacheList at hr
  cases hget : s.getSpaOs d with
  | none =>
    have hempty : s.unaligned d = .create := cacheOf_of_none hget
    rw [hget] at hr
    exact absurd (hempty ▸ hr) not_holds_create_unaligned
  | some p =>
    rw [hget] at hr
    rcases unaligned_modifyUnaligned fun c => c.clean nodes with
      ⟨-, hnew⟩ | ⟨hsame, hempty⟩
    · rw [hnew] at hr
      obtain ⟨q, hq, rfl, hr⟩ := hr
      exact ((h.unaligned d).clean nodes).2.2 q hq r hr
    · rw [hsame, hempty hget] at hr
      exact absurd hr not_holds_create_unaligned

theorem Inv.past_of_careful {now : Nat} {order : List Nat}
    (hok : s.Careful (.unalignedExpired now order)) : Past now s := by
  intro d p hp
  obtain ⟨r, hr⟩ := List.exists_mem_of_ne_nil _ ((h.unaligned d).block p hp).records
  exact hok d _ r ⟨p, hp, rfl, hr⟩

theorem Inv.kept_data (now hostid : Nat) (m : MirrorHeader) :
    Kept tun s (.data now hostid m) (s.alignedHandle now hostid m) := by
  obtain ⟨-, haligned, hunaligned⟩ := h.alignedHandle now hostid m
  have hholds : ∀ d r, (∃ e, ((s.alignedHandle now hostid m).aligned d).Holds e r) ↔
      (∃ e, (s.aligned d).Holds e r) ∨ d = m.dataset ∧ r = ⟨s.arrivals, m⟩ := by
    intro d r
    rw [haligned]
    by_cases hd : d = m.dataset <;> simp [hd, (h.aligned m.dataset).holds_handle]
  refine ⟨fun d e r hr => .inl ((hholds d r).mpr (.inl ⟨e, hr⟩)), fun d b r hr => .inl ⟨b, ?_⟩,
    fun d r hr => (hholds d r).mp hr, fun d r hr => .inl ?_,
    fun d r hr => (hholds d r).mpr (.inr hr), fun _ _ hr => hr.elim,
    nofun, nofun⟩
  · rwa [hunaligned]
  · rwa [hunaligned] at hr

theorem Inv.kept_dataUnaligned (now hostid : Nat) (m : MirrorHeader)
    (hok : s.Careful (.dataUnaligned now hostid m)) :
    Kept tun s (.dataUnaligned now hostid m) (s.unalignedHandle now hostid m) := by
  obtain ⟨-, hunaligned, haligned⟩ := h.unalignedHandle now hostid m hok
  have hholds : ∀ d r, (∃ b, ((s.unalignedHandle now hostid m).unaligned d).Holds b r) ↔
      (∃ b, (s.unaligned d).Holds b r) ∨ d = m.dataset ∧ r = ⟨s.arrivals, m⟩ := by
    intro d r
    rw [hunaligned]
    by_cases hd : d = m.dataset <;> simp [hd, (h.unaligned m.dataset).holds_handle]
  refine ⟨fun d e r hr => .inl ⟨e, ?_⟩, fun d b r hr => .inl ((hholds d r).mpr (.inl ⟨b, hr⟩)),
    fun d r hr => .inl ?_, fun d r hr => (hholds d r).mp hr, fun _ _ hr => hr.elim,
    fun d r hr => (hholds d r).mpr (.inr hr),
    nofun, nofun⟩
  · rwa [haligned]
  · rwa [haligned] at hr

/-- One step: every handler keeps the invariant and takes out only what may leave. -/
theorem step_kept (hok : s.Careful a) (hstep : step tun s a = some s') :
    s'.Inv ∧ Kept tun s a s' := by
  cases a with
  | data now hostid m =>
    cases hstep
    exact ⟨(h.alignedHandle now hostid m).1, h.kept_data now hostid m⟩
  | dataUnaligned now hostid m =>
    cases hstep
    exact ⟨(h.unalignedHandle now hostid m hok).1, h.kept_dataUnaligned now hostid m hok⟩
  | clearAligned d t =>
    cases hstep
    have hmoves := h.cleanCacheList (M := LeavesUnaligned tun (.clearAligned d t)) d t
    refine ⟨hmoves.inv, Moves.kept hmoves (fun _ _ => ⟨id, id⟩) ?_ nofun⟩
    rintro d' t' ⟨rfl⟩ e r hr
    exact h.lt_of_cleanCacheList hr
  | clearNonaligned d nodes =>
    cases hstep
    have hmoves := h.cleanUnalignedCacheList (L := LeavesAligned tun (.clearNonaligned d nodes))
      d nodes
    refine ⟨hmoves.inv, Moves.kept hmoves (fun _ _ => ⟨id, id⟩) nofun ?_⟩
    rintro d' nodes' ⟨rfl⟩ b r hr
    exact h.not_named_of_clean hr
  | replyLastSyncedTxg now order reply =>
    cases hstep
    exact Moves.kept_pass (h.cleanSpaAligned tun now order reply) (fun _ _ => ⟨id, id⟩) (by simp)
      (by simp)
  | replyNonalignedActive now states =>
    cases hstep
    exact Moves.kept_pass (h.handleUnalignedActived tun now states hok) (fun _ _ => ⟨id, id⟩)
      (by simp) (by simp)
  | alignedExpired now order =>
    cases hstep
    exact Moves.kept_pass (h.alignedExpiredLoop tun now (s.walk order) []) (fun _ _ => ⟨id, id⟩)
      (by simp) (by simp)
  | unalignedExpired now order =>
    cases hstep
    exact Moves.kept_pass (h.unalignedExpired (h.past_of_careful hok) tun _)
      (fun _ _ => ⟨id, id⟩) (by simp) (by simp)
  | spaOsExpired now order =>
    cases hstep
    exact Moves.kept_pass (moves_foldl (fun s p h => h.spaOsExpiredOne tun now p) _ h)
      (fun _ _ => ⟨id, id⟩) (by simp) (by simp)

end

end PartnerCache

/-- In every run in which no block gets a second record with an index, every activity reply is
about one dataset and the clock does not go back behind an active time, the caches are well kept,
and every such step keeps all records that have no reason to leave. -/
theorem partner_cache_exact (tun : MirrorTunables) (s : PartnerCache)
    (h : Reach (PartnerCache.step tun) PartnerCache.Careful .start s) :
    s.WellKept ∧ ∀ a s', s.Careful a → PartnerCache.step tun s a = some s' →
      PartnerCache.Kept tun s a s' := by
  have hinv := Reach.invariant PartnerCache.start_inv
    (fun _ _ _ hs hok hstep => (PartnerCache.step_kept hs hok hstep).1) h
  exact ⟨hinv.wellKept, fun a s' hok hstep => (PartnerCache.step_kept hinv hok hstep).2⟩

namespace PartnerCache

/- A write to block 0 of object 7, with index 5. -/
def write5 : MirrorHeader := ⟨⟨1, 1⟩, ⟨7, 0, 0⟩, 10, 5⟩

/- The block is received at 1000 and asked about at 1100. -/
def asked : PartnerCache :=
  (start.unalignedHandle 1000 9 write5).unalignedExpiredHandle {} 1100 [spaOsKeygen ⟨1, 1⟩]

theorem asked_reached : Reach (step {}) (fun _ _ => True) start asked :=
  .next (a := .unalignedExpired 1100 [spaOsKeygen ⟨1, 1⟩])
    (.next (a := .dataUnaligned 1000 9 write5) .start trivial rfl) trivial rfl

theorem asked_holds : (asked.unaligned ⟨1, 1⟩).Holds ⟨⟨1, 1⟩, ⟨7, 0, 0⟩, 1000, 1, [⟨0, write5⟩]⟩
    ⟨0, write5⟩ :=
  ⟨0, by decide +kernel, by decide +kernel, List.mem_singleton.mpr rfl⟩

end PartnerCache

section Witnesses

open PartnerCache

/-- A second record with the index survives the clear; a block leaves in a pass whose time is
before its active time; and a block leaves because of an entry for another dataset. -/
theorem partner_cache_exact_broken :
    (∃ s s', Reach (step {}) (fun _ _ => True) .start s ∧
      step {} s (.clearNonaligned ⟨1, 1⟩ [⟨⟨7, 0, 0⟩, 5⟩]) = some s' ∧
      ¬ Kept {} s (.clearNonaligned ⟨1, 1⟩ [⟨⟨7, 0, 0⟩, 5⟩]) s') ∧
    (∃ s s', Reach (step {}) (fun _ _ => True) .start s ∧
      step {} s (.unalignedExpired 900 [spaOsKeygen ⟨1, 1⟩]) = some s' ∧
      ¬ Kept {} s (.unalignedExpired 900 [spaOsKeygen ⟨1, 1⟩]) s') ∧
    ∃ s s', Reach (step {}) (fun _ _ => True) .start s ∧
      step {} s (.replyNonalignedActive 1100
        [⟨⟨1, 1⟩, ⟨8, 0, 0⟩, .active⟩, ⟨⟨2, 2⟩, ⟨7, 0, 0⟩, .none⟩]) = some s' ∧
      ¬ Kept {} s (.replyNonalignedActive 1100
        [⟨⟨1, 1⟩, ⟨8, 0, 0⟩, .active⟩, ⟨⟨2, 2⟩, ⟨7, 0, 0⟩, .none⟩]) s' := by
  refine ⟨⟨_, _, .next (a := .dataUnaligned 1000 9 write5)
    (.next (a := .dataUnaligned 1000 9 write5) .start trivial rfl) trivial rfl, rfl, ?_⟩,
    ⟨_, _, asked_reached, rfl, ?_⟩, ⟨_, _, asked_reached, rfl, ?_⟩⟩
  · intro hkept
    refine hkept.clearedNamed ⟨1, 1⟩ _ rfl _ ⟨1, write5⟩ ⟨0, ?_, rfl, ?_⟩
      ⟨⟨⟨7, 0, 0⟩, 5⟩, List.mem_singleton.mpr rfl, rfl, rfl⟩
    · decide +kernel
    · decide +kernel
  · intro hkept
    rcases hkept.unaligned ⟨1, 1⟩ _ _ asked_holds with hheld | hlate
    · obtain ⟨p, hp, -⟩ := UnalignedCache.exists_holds.mp hheld
      have hempty : ((asked.unalignedExpiredHandle {} 900 [spaOsKeygen ⟨1, 1⟩]).unaligned
          ⟨1, 1⟩).listTime = [] := by decide +kernel
      rw [hempty] at hp
      cases hp
    · have hafter : 1000 + 300 < 900 := hlate
      omega
  · intro hkept
    rcases hkept.unaligned ⟨1, 1⟩ _ _ asked_holds with hheld | hidle
    · obtain ⟨p, hp, -⟩ := UnalignedCache.exists_holds.mp hheld
      have hempty : ((asked.handleUnalignedActived {} 1100
          [⟨⟨1, 1⟩, ⟨8, 0, 0⟩, .active⟩, ⟨⟨2, 2⟩, ⟨7, 0, 0⟩, .none⟩]).unaligned
            ⟨1, 1⟩).listTime = [] := by decide +kernel
      rw [hempty] at hp
      cases hp
    · obtain ⟨e, he, hdataset, hlocated, hstate⟩ := hidle
      rcases List.mem_cons.mp he with rfl | he
      · cases hstate
      · rw [List.mem_singleton.mp he] at hdataset
        cases hdataset

/-- The clear of a block that came once leaves nothing of it. -/
theorem partner_cache_exact_cleared :
    ∃ s, Reach (step {}) Careful .start s ∧ s.WellKept ∧
      Kept {} s (.clearNonaligned ⟨1, 1⟩ [⟨⟨7, 0, 0⟩, 5⟩])
        (s.cleanUnalignedCacheList ⟨1, 1⟩ [⟨⟨7, 0, 0⟩, 5⟩]) := by
  have hreach : Reach (step {}) Careful .start (start.unalignedHandle 1000 9 write5) :=
    .next (a := .dataUnaligned 1000 9 write5) .start
      (fun b r hr => absurd hr not_holds_create_unaligned) rfl
  obtain ⟨hwell, hkept⟩ := partner_cache_exact {} _ hreach
  exact ⟨_, hreach, hwell, hkept _ _ trivial rfl⟩

end Witnesses

end ClusterZfs

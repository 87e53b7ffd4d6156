import ClusterZfs.Pgr.Outcome
import ClusterZfs.Pgr.Restore

/-! The keys and the reservation belong together after every change. -/
namespace ClusterZfs

namespace SbdLu

variable {s s' s₁ : SbdLu} {l l₁ : List KeyPtr} {key : KeyPtr} {it : ItPtr} {kmem : Kmem}
  {io : MetaIo} {cmd : ProutCmd}

/- No reservation of either kind. -/
def Quiet (s : SbdLu) : Prop := s.rsvdOne = false ∧ s.rsvdAll = false

theorem Rsv.of_quiet (hq : s.Quiet) (hholder : s.rsvholder = 0) : s.Rsv l :=
  ⟨fun _ => hq.2, fun h => absurd h (by simp [hq.1]), fun _ => hholder,
    fun h => absurd h (by simp [hq.2])⟩

theorem Rsv.congr (h : s.Rsv l) (hone : s'.rsvdOne = s.rsvdOne) (hall : s'.rsvdAll = s.rsvdAll)
    (hholder : s'.rsvholder = s.rsvholder) (hmem : s.rsvdOne = true → s.rsvholder ∈ l₁)
    (hne : s.rsvdAll = true → l₁ ≠ []) : s'.Rsv l₁ := by
  constructor <;> simp only [hone, hall, hholder]
  exacts [h.notBoth, hmem, h.noHolder, hne]

theorem kept_doRelease (s : SbdLu) : Kept s s.doRelease := { Kept.refl s with }

theorem quiet_doRelease (s : SbdLu) : s.doRelease.Quiet := ⟨rfl, rfl⟩

section Reserve

theorem doReserve_kept (s : SbdLu) (key : KeyPtr) (it : ItPtr) (cmd : ProutCmd) :
    Kept s (s.doReserve key it cmd) := by
  simp only [doReserve]
  split
  · exact { Kept.refl s with }
  split
  · rename_i hall
    have hk := kept_setKey s key
      (k := { s.keys key with lptId := (s.its it).lport.bytes, keyIt := it }) rfl
      (fun hone => absurd (hall.symm.trans hone) (by decide)) fun hstore =>
        ⟨hstore.valid, hstore.tptId, hstore.rptShort, by
          have hlen := (s.its it).lport.bytes_length
          have hshort := (s.its it).lport.short
          simp only
          omega, fun _ => hall⟩
    exact { hk with }
  · exact { Kept.refl s with }

theorem Rsv.doReserve (hq : s.Quiet) (hholder : s.rsvholder = 0) (hkey : key ∈ l) :
    (s.doReserve key it cmd).Rsv l := by
  simp only [SbdLu.doReserve]
  split
  · refine ⟨fun h => absurd h (by simp [hq.1]), fun h => absurd h (by simp [hq.1]),
      fun _ => hholder, fun _ => List.ne_nil_of_mem hkey⟩
  split
  · exact ⟨fun _ => hq.2, fun _ => hkey, fun h => absurd h (by simp),
      fun h => absurd h (by simp [hq.2, setKey])⟩
  · exact ⟨fun _ => hq.2, fun _ => hkey, fun h => absurd h (by simp),
      fun h => absurd h (by simp [hq.2])⟩

theorem doReserve_disk (s : SbdLu) (key : KeyPtr) (it : ItPtr) (cmd : ProutCmd) :
    (s.doReserve key it cmd).disk = s.disk := by
  simp only [SbdLu.doReserve]
  split
  · rfl
  split <;> rfl

end Reserve

/- The state that a service action leaves to the write. -/
structure Prepared (s s₁ : SbdLu) (cmd : ProutCmd) (l₁ : List KeyPtr) : Prop where
  base : s₁.Base l₁
  rsv : s₁.Rsv l₁
  disk : s₁.disk = s.disk
  itList : s₁.itList = s.itList
  quiet : cmd.action = .clear ∨ (s.Quiet ∧ cmd.action ≠ .reserve) → s₁.Quiet

/- The reservation goes with the key that holds it. -/
def released (s : SbdLu) (key : KeyPtr) : SbdLu := if s.rsvholder = key then s.doRelease else s

theorem kept_released (s : SbdLu) (key : KeyPtr) : Kept s (s.released key) := by
  rw [released]
  split
  · exact kept_doRelease s
  · exact .refl s

theorem Cut.quiet (h : Cut s s') (hq : s.Quiet) : s'.Quiet := by
  rw [h.rest]
  exact hq

/-- A key leaves the list. What is reserved for all registrants goes with the last of them. -/
theorem doUnregister_eq (s : SbdLu) (key : KeyPtr) :
    s.doUnregister key = if ((s.released key).removeKey key).list.head = 0 then
      ((s.released key).removeKey key).clearRsvFlags else (s.released key).removeKey key := rfl

theorem released_rsv (h : s.Rsv l) (hmem : s.rsvholder ∈ l → s.rsvholder ≠ key →
    s.rsvholder ∈ l₁) : ((s.released key).rsvdOne = true → (s.released key).rsvdAll = false) ∧
    ((s.released key).rsvdOne = true → (s.released key).rsvholder ∈ l₁) ∧
    ((s.released key).rsvdOne = false → (s.released key).rsvholder = 0) := by
  by_cases hkey : s.rsvholder = key
  · rw [released, if_pos hkey]
    exact ⟨fun _ => rfl, fun hone => absurd hone Bool.false_ne_true, fun _ => rfl⟩
  · rw [released, if_neg hkey]
    exact ⟨h.notBoth, fun hone => hmem (h.holder hone) hkey, h.noHolder⟩

theorem doUnregister_wellFormed (h : s.Base l) (hr : s.Rsv l) (hkey : key ∈ l) :
    ∃ l₁, (s.doUnregister key).Base l₁ ∧ (s.doUnregister key).Rsv l₁ ∧
      ∀ k ∈ l, k ≠ key → k ∈ l₁ := by
  obtain ⟨xs, ys, rfl⟩ := List.append_of_mem hkey
  have hmem : ∀ k ∈ xs ++ key :: ys, k ≠ key → k ∈ xs ++ ys := by
    intro k hk hne
    simpa [hne] using hk
  have hbase := (h.kept (kept_released s key)).removeKey
  have hrest := (cut_removeKey (s.released key) key).rest
  obtain ⟨hboth, hholder, hnone⟩ := released_rsv hr (hmem s.rsvholder)
  have hone' : ((s.released key).removeKey key).rsvdOne = (s.released key).rsvdOne := by rw [hrest]
  have hall' : ((s.released key).removeKey key).rsvdAll = (s.released key).rsvdAll := by rw [hrest]
  have hrsv' : ((s.released key).removeKey key).rsvholder = (s.released key).rsvholder := by
    rw [hrest]
  refine ⟨xs ++ ys, ?_, ?_, hmem⟩
  · rw [doUnregister_eq]
    split
    · exact { hbase with }
    · exact hbase
  · rw [doUnregister_eq]
    split
    · rename_i hhead
      -- The list is empty, so nobody holds the reservation that is taken away here.
      have hnil : xs ++ ys = [] := by
        cases hl : xs ++ ys with
        | nil => rfl
        | cons k rest =>
          rw [hl] at hbase
          exact absurd (hbase.isList.linked.1.symm.trans hhead) hbase.isList.linked.2.1
      refine Rsv.of_quiet ⟨rfl, rfl⟩ (hrsv'.trans (hnone ?_))
      by_contra hone
      have hin := hholder (Bool.eq_true_of_not_eq_false hone)
      rw [hnil] at hin
      exact absurd hin (by simp)
    · rename_i hhead
      refine ⟨by rw [hone', hall']; exact hboth, by rw [hone', hrsv']; exact hholder,
        by rw [hone', hrsv']; exact hnone, fun _ hnil => hhead ?_⟩
      rw [hnil] at hbase
      exact hbase.isList.linked

theorem doUnregister_rest (s : SbdLu) (key : KeyPtr) :
    (s.doUnregister key).disk = s.disk ∧ (s.doUnregister key).itList = s.itList ∧
      (s.Quiet → (s.doUnregister key).Quiet) := by
  have hrest := (cut_removeKey (s.released key) key).rest
  have hsame : ((s.released key).removeKey key).disk = s.disk ∧
      ((s.released key).removeKey key).itList = s.itList := by
    rw [hrest, released]
    split <;> exact ⟨rfl, rfl⟩
  rw [doUnregister_eq]
  split
  · exact ⟨hsame.1, hsame.2, fun _ => ⟨rfl, rfl⟩⟩
  · refine ⟨hsame.1, hsame.2, fun hq => (cut_removeKey _ key).quiet ?_⟩
    rw [released]
    split
    · exact quiet_doRelease s
    · exact hq

theorem Registers.not_clear (h : Registers cmd) : cmd.action ≠ .clear := by
  rcases h with h | h <;> simp [h]

theorem Preempts.not_clear (h : Preempts cmd) : cmd.action ≠ .clear := by
  rcases h with h | h <;> simp [h]

theorem Prepared.added (hr : s.Rsv l) (hb : s₁.Base l₁) (hone : s₁.rsvdOne = s.rsvdOne)
    (hall : s₁.rsvdAll = s.rsvdAll) (hholder : s₁.rsvholder = s.rsvholder)
    (hdisk : s₁.disk = s.disk) (hits : s₁.itList = s.itList) (hmem : ∀ k ∈ l, k ∈ l₁)
    (haction : cmd.action ≠ .clear) : Prepared s s₁ cmd l₁ := by
  refine ⟨hb, hr.congr hone hall hholder (fun h => hmem _ (hr.holder h)) fun h hnil => ?_, hdisk,
    hits, ?_⟩
  · obtain ⟨k, hk⟩ := List.exists_mem_of_ne_nil _ (hr.all h)
    exact List.ne_nil_of_mem (hmem k hk) hnil
  · rintro (hclear | ⟨hq, -⟩)
    · exact absurd hclear haction
    · exact ⟨hone.trans hq.1, hall.trans hq.2⟩

theorem Prepared.reserved {s₀ : SbdLu} (hb : s₀.Base l₁) (hq : s₀.Quiet)
    (hholder : s₀.rsvholder = 0) (hkey : key ∈ l₁) (hdisk : s₀.disk = s.disk)
    (hits : s₀.itList = s.itList)
    (hloud : ¬ (cmd.action = .clear ∨ (s.Quiet ∧ cmd.action ≠ .reserve))) :
    Prepared s (s₀.doReserve key it cmd) cmd l₁ :=
  ⟨hb.kept (doReserve_kept s₀ key it cmd), Rsv.doReserve hq hholder hkey,
    (doReserve_disk s₀ key it cmd).trans hdisk, (doReserve_kept s₀ key it cmd).itList.trans hits,
    fun h => absurd h hloud⟩

theorem removeKeys_keeps (h : s.Base l) (hkey : key ∈ l) (it : ItPtr) (svcKey : UInt64)
    (mtch : Bool) : ∃ l₁, (s.removeKeys it key svcKey mtch).2.Base l₁ ∧ key ∈ l₁ ∧
      ∀ k ∈ l, ¬ Matched s.keys svcKey mtch k → k ∈ l₁ := by
  refine ⟨_, (removeKeys_removed h it key svcKey mtch).base, ?_, fun k hk hnot => ?_⟩
  · simp [hkey]
  · simp [hk, hnot]

theorem registerTpds_rest (s : SbdLu) (kmem : Kmem) (lpt : Option Devid) (allTgPt : Bool)
    (svcKey : UInt64) (tpds : List Tptid) :
    s.registerTpds kmem lpt allTgPt svcKey tpds = { s with
      keys := (s.registerTpds kmem lpt allTgPt svcKey tpds).keys
      list := (s.registerTpds kmem lpt allTgPt svcKey tpds).list
      alive := (s.registerTpds kmem lpt allTgPt svcKey tpds).alive
      its := (s.registerTpds kmem lpt allTgPt svcKey tpds).its
      allKeysHasIt := (s.registerTpds kmem lpt allTgPt svcKey tpds).allKeysHasIt } := by
  induction tpds generalizing s with
  | nil => rfl
  | cons tpd rest ih =>
    have hone := (doRegister_registered s kmem 0 lpt tpd allTgPt svcKey).rest
    rw [registerTpds, ih, hone]

theorem Prepared.preempted (h : s.Base l) (hkey : key ∈ l) (svcKey : UInt64) (mtch : Bool)
    (hloud : ¬ (cmd.action = .clear ∨ (s.Quiet ∧ cmd.action ≠ .reserve))) :
    ∃ l₁, Prepared s ((s.doRelease.removeKeys it key svcKey mtch).2.doReserve key it cmd) cmd
      l₁ := by
  have hbase := h.kept (kept_doRelease s)
  obtain ⟨l₁, hb, hmine, -⟩ := removeKeys_keeps hbase hkey it svcKey mtch
  have hcut := (removeKeys_removed hbase it key svcKey mtch).cut
  refine ⟨l₁, .reserved hb (hcut.quiet (quiet_doRelease s)) ?_ hmine ?_ hcut.itList hloud⟩ <;>
    (rw [hcut.rest]; rfl)

theorem kept_moveToFound (s : SbdLu) (newkey : KeyPtr) (lpt : Devid) (svcKey : UInt64) :
    Kept s (s.moveToFound newkey lpt svcKey) := by
  have hset : Kept s (s.setKey newkey
      (if (s.keys newkey).allTgPt then
        { s.keys newkey with
          pgrKey := svcKey, lptId := lpt.bytes.take (lpt.bytes.length % 256) }
      else { s.keys newkey with pgrKey := svcKey })) := by
    split
    · rename_i hall
      refine kept_setKey s _ rfl (fun _ => rfl) fun hs => { hs with
        lptShort := ?_, ports := fun _ => hall }
      simp only [List.length_take]
      omega
    · exact kept_setKey s _ rfl (fun _ => rfl) fun hs => { hs with }
  exact { hset with ptr := fun i => ((kept_setPgrCheckFlag _ true).ptr i).trans (hset.ptr i) }

theorem keyRegistered_spec (h : s.Base l) {lpt : Option Bytes} {rpt : Bytes}
    (hfound : s.keyRegistered lpt rpt ≠ 0) : s.keyRegistered lpt rpt ∈ l ∧
      pgrKeyCompare (s.keys (s.keyRegistered lpt rpt)) lpt rpt = true := by
  rw [keyRegistered, h.keyList_eq] at hfound ⊢
  cases hfind : l.find? fun key => pgrKeyCompare (s.keys key) lpt rpt with
  | none => simp [hfind] at hfound
  | some key => exact ⟨List.mem_of_find?_eq_some hfind, by simpa using List.find?_some hfind⟩

/- The key that a reservation moves to: one that is there, or a new one. -/
def moveTarget (s : SbdLu) (kmem : Kmem) (lpt : Devid) (rpt : Tptid) (svcKey : UInt64) :
    KeyPtr × SbdLu :=
  if s.keyRegistered (some lpt.bytes) rpt.bytes ≠ 0 then
    (s.keyRegistered (some lpt.bytes) rpt.bytes,
      s.moveToFound (s.keyRegistered (some lpt.bytes) rpt.bytes) lpt svcKey)
  else s.doRegister kmem 0 (some lpt) rpt false svcKey

/- The state once the key is there. -/
structure MovedTo (s s₁ : SbdLu) (l₁ : List KeyPtr) (key newkey : KeyPtr) : Prop where
  base : s₁.Base l₁
  mem : newkey ∈ l₁
  ne : newkey ≠ key
  old : key ∈ l₁
  one : s₁.rsvdOne = s.rsvdOne
  all : s₁.rsvdAll = s.rsvdAll
  disk : s₁.disk = s.disk
  itList : s₁.itList = s.itList

theorem movedTo (h : s.Base l) (hkey : key ∈ l) (kmem : Kmem) (lpt : Devid) {rpt : Tptid}
    (hrpt : rpt.Readable) (svcKey : UInt64)
    (hself : pgrKeyCompare (s.keys key) (some lpt.bytes) rpt.bytes = false) {newkey : KeyPtr}
    (hnew : (newkey, s₁) = s.moveTarget kmem lpt rpt svcKey) :
    ∃ l₁, MovedTo s s₁ l₁ key newkey := by
  rw [moveTarget] at hnew
  split at hnew
  · rename_i hfound
    obtain ⟨hmem, hcompare⟩ := keyRegistered_spec h hfound
    obtain ⟨rfl, rfl⟩ := Prod.mk.inj hnew
    have hk := kept_moveToFound s (s.keyRegistered (some lpt.bytes) rpt.bytes) lpt svcKey
    refine ⟨l, h.kept hk, hmem, ?_, hkey, rfl, rfl, rfl, rfl⟩
    rintro rfl
    exact absurd (hcompare.symm.trans hself) (by decide)
  · have hreg := doRegister_registered s kmem 0 (some lpt) rpt false svcKey
    have hbase := h.doRegister hrpt kmem 0 (some lpt) false svcKey (by simp)
    rw [← hnew] at hreg hbase
    refine ⟨newkey :: l, hbase, List.mem_cons_self, ?_, List.mem_cons_of_mem _ hkey, ?_, ?_, ?_,
      hreg.itList⟩
    · rintro rfl
      exact hreg.fresh (h.alive _ hkey)
    · exact (congrArg SbdLu.rsvdOne hreg.rest).trans rfl
    · exact (congrArg SbdLu.rsvdAll hreg.rest).trans rfl
    · exact (congrArg SbdLu.disk hreg.rest).trans rfl

theorem Base.moveHolder (h : s.Base l) (newkey : KeyPtr) (n : NexusName) :
    (s.moveHolder newkey n).Base l :=
  { h with }

theorem MovedTo.rsv {newkey : KeyPtr} (hm : MovedTo s s₁ l₁ key newkey) (hr : s.Rsv l)
    (hone : s.rsvdOne = true) (n : NexusName) : (s₁.moveHolder newkey n).Rsv l₁ :=
  ⟨fun _ => hm.all.trans (hr.notBoth hone), fun _ => hm.mem,
    fun hnone => absurd ((hm.one.symm.trans hnone).symm.trans hone) (by decide),
    fun _ => List.ne_nil_of_mem hm.mem⟩

theorem kept_rekey (s : SbdLu) (key : KeyPtr) (svcKey : UInt64) :
    Kept s (s.setKey key { s.keys key with pgrKey := svcKey }) :=
  kept_setKey s key rfl (fun _ => rfl) fun hs => { hs with }

theorem registeredPort_none (s : SbdLu) (it : ItPtr) (cmd : ProutCmd) :
    s.registeredPort it cmd = none ↔ cmd.allTgPt = true := by simp [registeredPort]

theorem Rsv.one_of_holder (hr : s.Rsv l) (hptr : key ≠ 0) (hholder : s.rsvholder = key) :
    s.rsvdOne = true := by
  by_contra hone
  exact hptr (hholder.symm.trans (hr.noHolder (Bool.eq_false_iff.mpr hone)))

theorem Changed.prepared (h : s.Base l) (hr : s.Rsv l) (hit : it ∈ s.itList)
    (hc : Changed s kmem it cmd s₁) : ∃ l₁, Prepared s s₁ cmd l₁ := by
  induction hc with
  | rekey haction hptr =>
    exact ⟨l, .added hr (h.kept (kept_rekey s _ cmd.svcKey)) rfl rfl rfl rfl rfl (fun _ hk => hk)
      haction.not_clear⟩
  | unregister haction hptr hsvc =>
    obtain ⟨l₁, hb, hrsv, -⟩ := doUnregister_wellFormed h hr (h.mem_of_ptr hit hptr)
    obtain ⟨hdisk, hits, hquiet⟩ := doUnregister_rest s (s.its it).keyPtr
    refine ⟨l₁, hb, hrsv, hdisk, hits, ?_⟩
    rintro (hclear | ⟨hq, -⟩)
    · exact absurd hclear haction.not_clear
    · exact hquiet hq
  | register tpds haction hptr hsvc hcheck hown htpds =>
    have hports := (s.registeredPort_none it cmd).mp
    obtain ⟨new, hnew⟩ := h.registerTpds kmem (s.registeredPort it cmd) cmd.allTgPt cmd.svcKey
      hports htpds
    have hlast := hnew.doRegister hown kmem it (s.registeredPort it cmd) cmd.allTgPt cmd.svcKey
      hports
    refine ⟨_, .added hr hlast ?_ ?_ ?_ ?_ ?_ (fun k hk => List.mem_cons_of_mem _
      (List.mem_append_right _ hk)) haction.not_clear⟩ <;>
      rw [(doRegister_registered ..).rest, registerTpds_rest]
  | reserve haction hptr hone hall =>
    refine ⟨l, .reserved h ⟨hone, hall⟩ (hr.noHolder hone) (h.mem_of_ptr hit hptr) rfl rfl ?_⟩
    simp [haction]
  | clear haction hptr =>
    exact ⟨[], (h.kept (kept_doRelease s)).keylistDealloc, .of_quiet ⟨rfl, rfl⟩ rfl, rfl, rfl,
      fun _ => ⟨rfl, rfl⟩⟩
  | preemptKeys haction hsvc hptr hother =>
    obtain ⟨l₁, hb, hmine, hkeep⟩ :=
      removeKeys_keeps h (h.mem_of_ptr hit hptr) it cmd.svcKey true
    have hcut := (removeKeys_removed h it (s.its it).keyPtr cmd.svcKey true).cut
    refine ⟨l₁, hb, hr.congr (by rw [hcut.rest]) (by rw [hcut.rest]) (by rw [hcut.rest])
      (fun h => ?_) fun _ => ?_, by rw [hcut.rest], hcut.itList, ?_⟩
    · exact hkeep _ (hr.holder h) (by simp [Matched, hother h])
    · exact List.ne_nil_of_mem hmine
    · rintro (hclear | ⟨hq, -⟩)
      · exact absurd hclear haction.not_clear
      · exact hcut.quiet hq
  | preemptHolder haction hone hptr hother hsvc =>
    exact Prepared.preempted h (h.mem_of_ptr hit hptr) cmd.svcKey true
      (by simp [haction.not_clear, Quiet, hone])
  | preemptSelf haction hone hptr hholder hsvc =>
    refine ⟨l, .reserved (h.kept (kept_doRelease s)) ⟨rfl, rfl⟩ rfl (h.mem_of_ptr hit hptr) rfl
      rfl ?_⟩
    simp [haction.not_clear, Quiet, hone]
  | preemptSame haction =>
    exact ⟨l, .added hr h rfl rfl rfl rfl rfl (fun _ hk => hk) haction.not_clear⟩
  | preemptAll haction hall hptr =>
    exact Prepared.preempted h (h.mem_of_ptr hit hptr) 0 false
      (by simp [haction.not_clear, Quiet, hall])
  | move lpt rpt newkey s₁ haction hport hid hptr hholder hself hnew hrpt =>
    have hone := hr.one_of_holder hptr hholder
    have hloud : ¬ (cmd.action = .clear ∨ (s.Quiet ∧ cmd.action ≠ .reserve)) := by
      simp [haction, Quiet, hone]
    obtain ⟨l₁, hm⟩ := movedTo h (h.mem_of_ptr hit hptr) kmem lpt hrpt cmd.svcKey hself hnew
    have hbase := hm.base.moveHolder newkey (nexusName lpt rpt)
    have hrsv := hm.rsv hr hone (nexusName lpt rpt)
    split
    · obtain ⟨l₂, hb, hr₂, -⟩ := doUnregister_wellFormed hbase hrsv hm.old
      obtain ⟨hdisk, hits, -⟩ :=
        doUnregister_rest (s₁.moveHolder newkey (nexusName lpt rpt)) (s.its it).keyPtr
      exact ⟨l₂, hb, hr₂, hdisk.trans hm.disk, hits.trans hm.itList, fun h => absurd h hloud⟩
    · exact ⟨l₁, hbase, hrsv, hm.disk, hm.itList, fun h => absurd h hloud⟩
  | aptpl _ _ _ ih =>
    obtain ⟨l₁, hp⟩ := ih
    exact ⟨l₁, { hp.base with }, { hp.rsv with }, hp.disk, hp.itList, hp.quiet⟩

section Sections

/- A section that gives a well formed state when it is read. -/
structure Sound (spi : PgrSection) : Prop where
  stores : ∃ ks, spi.Stores ks
  notBoth : spi.rsvdOne = true → spi.rsvdAll = false
  holder : spi.aptpl = true → spi.rsvdOne = true →
    1 ≤ spi.rsvholderIndx ∧ spi.rsvholderIndx < 1 + spi.numkeys
  all : spi.aptpl = true → spi.rsvdAll = true → spi.numkeys ≠ 0
  none : spi.aptpl = false → spi.numkeys = 0

theorem sound_metaInit : Sound metaInit :=
  ⟨⟨[], stores_metaInit⟩, by simp [metaInit], by simp [metaInit], by simp [metaInit], fun _ => rfl⟩

theorem holderIndx_mem {holder : KeyPtr} {l : List KeyPtr} (hmem : holder ∈ l) (hnd : l.Nodup) :
    1 ≤ holderIndx holder l 0 0 ∧ holderIndx holder l 0 0 < 1 + l.length ∧
      l.getD (holderIndx holder l 0 0 - 1) 0 = holder := by
  obtain ⟨xs, ys, rfl⟩ := List.append_of_mem hmem
  have hnot : holder ∉ ys := by
    have hnd' := List.nodup_cons.mp (List.nodup_middle.mp hnd)
    exact fun hin => hnd'.1 (List.mem_append_right _ hin)
  rw [holderIndx_append xs ys hnot]
  refine ⟨by omega, ?_, ?_⟩
  · simp only [List.length_append, List.length_cons]
    omega
  · have hidx : 0 + xs.length + 1 - 1 = xs.length := by omega
    rw [hidx, List.getD_eq_getElem?_getD]
    simp

/-- The section names the holder by its place among the keys. -/
theorem metaSection_indx (h : s.Base l) (hr : s.Rsv l) (haptpl : s.aptpl = true)
    (hone : s.rsvdOne = true) : 1 ≤ s.metaSection.rsvholderIndx ∧
      s.metaSection.rsvholderIndx < 1 + s.metaSection.numkeys := by
  obtain ⟨hlow, hhigh, -⟩ := holderIndx_mem (hr.holder hone) h.isList.nodup
  rw [metaSection_eq, h.keyList_eq]
  simp only [haptpl, if_true]
  exact ⟨hlow, hhigh⟩

theorem sound_metaSection (h : s.Base l) (hr : s.Rsv l) : Sound s.metaSection := by
  have haptpl : s.metaSection.aptpl = s.aptpl := by rw [metaSection_eq]
  have hone : s.metaSection.rsvdOne = s.rsvdOne := by rw [metaSection_eq]
  have hall : s.metaSection.rsvdAll = s.rsvdAll := by rw [metaSection_eq]
  have hnum : s.metaSection.numkeys = (if s.aptpl then l else []).length := by
    rw [metaSection_eq, h.keyList_eq]
  refine ⟨⟨_, stores_metaSection h⟩, ?_, ?_, ?_, ?_⟩
  · rw [hone, hall]
    exact hr.notBoth
  · rw [haptpl, hone]
    exact metaSection_indx h hr
  · rw [haptpl, hall, hnum]
    intro hset hall
    rw [if_pos hset, ne_eq, List.length_eq_zero_iff]
    exact hr.all hall
  · rw [haptpl, hnum]
    intro hset
    rw [hset]
    rfl

end Sections

/- The invariant of the unit: the keys, the reservation and the section on disk. -/
structure Inv (s : SbdLu) (l : List KeyPtr) : Prop where
  base : s.Base l
  rsv : s.Rsv l
  disk : ∀ spi ∈ s.disk, Sound spi

/- When the state that is made anew after a failed write is well formed: `s` is the state with
the change. -/
def RestoreOk (s : SbdLu) : MetaIo → Prop
  | .failed kept true => kept = .new ∨ s.Quiet ∨
      (kept = .old ∧ ∃ spi, s.disk = some spi ∧ spi.aptpl = true ∧ spi.rsvdOne = true)
  | _ => True

theorem getD_mem {new : List KeyPtr} {n : Nat} (hn : n < new.length) : new.getD n 0 ∈ new := by
  rw [List.getD_eq_getElem?_getD, List.getElem?_eq_getElem hn, Option.getD_some]
  exact List.getElem_mem hn

/-- A state read from a sound section, when the holder of the state before does not stay. -/
theorem Restored.inv {spi : PgrSection} {new : List KeyPtr} {ks : List PgrKey}
    (hres : Restored ({ s with disk := some spi }.loadHeader spi) s' ks spi.rsvholderIndx new)
    (hsound : Sound spi) (hspi : spi.Stores ks)
    (hstale : s.rsvholder = 0 ∨ (spi.aptpl = true ∧ spi.rsvdOne = true)) : s'.Inv new := by
  have hlen : new.length = spi.numkeys := by
    have hmap := congrArg List.length hres.keys
    rw [List.length_map, List.length_map] at hmap
    exact hmap.trans hspi.numkeys.symm
  have hone' : s'.rsvdOne = (spi.aptpl && spi.rsvdOne) := by rw [hres.rest]; rfl
  have hall' : s'.rsvdAll = (spi.aptpl && spi.rsvdAll) := by rw [hres.rest]; rfl
  have hdisk' : s'.disk = some spi := by rw [hres.rest]; rfl
  have hholder := hres.holder
  rw [← hspi.numkeys] at hholder
  refine ⟨hres.base, ⟨?_, ?_, ?_, ?_⟩, ?_⟩
  · rw [hone', hall']
    intro hone
    rw [Bool.and_eq_true] at hone
    rw [hsound.notBoth hone.2, Bool.and_false]
  · rw [hone']
    intro hone
    have hone'' := hone
    rw [Bool.and_eq_true] at hone''
    obtain ⟨hlow, hhigh⟩ := hsound.holder hone''.1 hone''.2
    rw [hholder, if_pos ⟨hone, hlow, hhigh⟩]
    exact getD_mem (by omega)
  · rw [hone']
    intro hnone
    have hnot : ¬ ((spi.aptpl && spi.rsvdOne) = true ∧ 1 ≤ spi.rsvholderIndx ∧
        spi.rsvholderIndx < 1 + spi.numkeys) := by simp [hnone]
    rw [hholder]
    refine (if_neg hnot).trans ?_
    rcases hstale with hzero | hone
    · exact hzero
    · rw [hone.1, hone.2] at hnone
      cases hnone
  · rw [hall']
    intro hall'' hnil
    rw [Bool.and_eq_true] at hall''
    rw [hnil, List.length_nil] at hlen
    exact hsound.all hall''.1 hall''.2 hlen.symm
  · rw [hdisk']
    intro spi' hspi'
    cases hspi'
    exact hsound

theorem Inv.keptSection (h : s.Inv l) {kept : SectionKept} {spi : PgrSection}
    (hspi : s.keptSection kept = some spi) : Sound spi := by
  cases kept with
  | old => exact h.disk spi hspi
  | new =>
    cases hspi
    exact sound_metaSection h.base h.rsv
  | lost => cases hspi

theorem Inv.metaWrite (h : s.Inv l) (haptpl : s.aptpl = true) (kmem : Kmem) (hio : RestoreOk s io) :
    ∃ l', (s.metaWrite kmem io).2.Inv l' := by
  have hsame : ∀ disk : Option PgrSection, (∀ spi ∈ disk, Sound spi) →
      { s with disk := disk : SbdLu }.Inv l := fun disk hdisk =>
    ⟨{ h.base with }, { h.rsv with }, hdisk⟩
  cases io with
  | ok =>
    refine ⟨l, hsame _ fun spi hspi => ?_⟩
    cases hspi
    exact sound_metaSection h.base h.rsv
  | failed kept reload =>
    cases reload with
    | false => exact ⟨l, hsame _ fun _ => h.keptSection⟩
    | true =>
      cases hdisk : s.keptSection kept with
      | none =>
        obtain ⟨s', hrun, hres⟩ := metaWrite_lost h.base kmem hdisk
        have hq : s.Quiet := by
          rcases hio with rfl | hq | ⟨rfl, spi, hspi, -⟩
          · cases hdisk
          · exact hq
          · exact absurd (hspi.symm.trans hdisk) (by simp)
        have hholder := hres.holder
        have hquiet : s'.Quiet := by
          rw [hres.rest]
          exact hq
        have hdisk' : s'.disk = some metaInit := by rw [hres.rest]
        simp only [hq.1, Bool.false_eq_true, false_and, if_false] at hholder
        refine ⟨[], hrun ▸ ⟨hres.base, .of_quiet hquiet (hholder.trans (h.rsv.noHolder hq.1)),
          fun spi hspi => ?_⟩⟩
        rw [hdisk'] at hspi
        cases hspi
        exact sound_metaInit
      | some spi =>
        have hsound := h.keptSection hdisk
        obtain ⟨ks, hspi⟩ := hsound.stores
        obtain ⟨s', new, hrun, hres⟩ := metaWrite_restored h.base kmem hdisk hspi
        refine ⟨new, hrun ▸ hres.inv hsound hspi ?_⟩
        rcases hio with rfl | hq | ⟨rfl, spi', hspi', haptpl', hone'⟩
        · cases hdisk
          by_cases hone : s.rsvdOne = true
          · exact .inr ⟨by rw [metaSection_eq]; exact haptpl, by rw [metaSection_eq]; exact hone⟩
          · exact .inl (h.rsv.noHolder (Bool.eq_false_iff.mpr hone))
        · exact .inl (h.rsv.noHolder hq.1)
        · have heq : spi' = spi := Option.some.inj (hspi'.symm.trans hdisk)
          exact .inr (heq ▸ ⟨haptpl', hone'⟩)

theorem Inv.finish (h : s.Inv l) (kmem : Kmem) (counts : Bool) (hio : RestoreOk s io) :
    ∃ l', (s.finish kmem io counts).2.Inv l' := by
  have hcommit : ∃ l', (s.commit kmem io).2.Inv l' := by
    rw [commit]
    split
    · rename_i haptpl
      exact h.metaWrite haptpl kmem hio
    · exact ⟨l, h⟩
  obtain ⟨l', hinv⟩ := hcommit
  refine ⟨l', ?_⟩
  rw [SbdLu.finish]
  cases hout : s.commit kmem io with
  | mk ok s' =>
    rw [hout] at hinv
    cases ok with
    | false => exact hinv
    | true =>
      simp only
      split
      · exact ⟨{ hinv.base with }, { hinv.rsv with }, hinv.disk⟩
      · exact hinv

/- When a failed write is harmless, by the state and the command before it: the new section is
stored after all, the command is CLEAR, there is no reservation and the command makes none, or the
section from before names a holder. -/
def WriteOk (s : SbdLu) (cmd : ProutCmd) : MetaIo → Prop
  | .failed kept true => kept = .new ∨ cmd.action = .clear ∨
      (s.rsvdOne = false ∧ s.rsvdAll = false ∧ cmd.action ≠ .reserve) ∨
      (kept = .old ∧ ∃ spi, s.disk = some spi ∧ spi.aptpl = true ∧ spi.rsvdOne = true)
  | _ => True

theorem Prepared.restoreOk (hp : Prepared s s₁ cmd l₁) (hio : WriteOk s cmd io) :
    RestoreOk s₁ io := by
  cases io with
  | ok => trivial
  | failed kept reload =>
    cases reload with
    | false => trivial
    | true =>
      rcases hio with hnew | hclear | ⟨hone, hall, haction⟩ | ⟨hold, hspi⟩
      · exact .inl hnew
      · exact .inr (.inl (hp.quiet (.inl hclear)))
      · exact .inr (.inl (hp.quiet (.inr ⟨⟨hone, hall⟩, haction⟩)))
      · exact .inr (.inr ⟨hold, hp.disk ▸ hspi⟩)

theorem Inv.handlePgrOutData (h : s.Inv l) (hit : it ∈ s.itList) (hids : s.IdsReadable it cmd)
    (kmem : Kmem) (hio : WriteOk s cmd io) :
    ∃ l', (s.handlePgrOutData kmem io it cmd).2.Inv l' := by
  have hout := outcome_handlePgrOutData h.base h.rsv hids kmem io
  generalize s.handlePgrOutData kmem io it cmd = out at hout
  generalize s.handlePgrOutData kmem .ok it cmd = outOk at hout
  cases hout with
  | refused => exact ⟨l, h⟩
  | counted =>
    exact ⟨l, { h.base with }, { h.rsv with }, h.disk⟩
  | released =>
    exact ⟨l, h.base.kept (kept_doRelease s), .of_quiet (quiet_doRelease s) rfl, h.disk⟩
  | written hc =>
    obtain ⟨l₁, hp⟩ := hc.prepared h.base h.rsv hit
    have hinv : Inv _ l₁ := ⟨hp.base, hp.rsv, hp.disk ▸ h.disk⟩
    exact hinv.finish kmem _ (hp.restoreOk hio)

end SbdLu

end ClusterZfs

import ClusterZfs.Pgr.System

/-! Reservations that are to survive power loss: what is on disk is what is in memory. -/
namespace ClusterZfs

namespace SbdLu

variable {s s' s₁ : SbdLu} {l : List KeyPtr} {key : KeyPtr} {it : ItPtr} {cmd : ProutCmd}

/- What others see of the unit: the registrations in their order, with none of the nexuses that
are there by chance, and the reservation. -/
structure View where
  registrations : List PgrKey
  holder : Option Nat
  rsvdOne : Bool
  rsvdAll : Bool
  rsvType : Fin 16
  rsvScope : Fin 16
  aptpl : Bool

def registration (k : PgrKey) : PgrKey := { k with keyIt := 0 }

def viewOf (s : SbdLu) (l : List KeyPtr) : View where
  registrations := l.map fun key => registration (s.keys key)
  holder := if s.rsvdOne then some (l.idxOf s.rsvholder) else none
  rsvdOne := s.rsvdOne
  rsvdAll := s.rsvdAll
  rsvType := s.rsvType
  rsvScope := s.rsvScope
  aptpl := s.aptpl

def view (s : SbdLu) : View := s.viewOf s.keyList

/- A descriptor of a target port that is read back as it is. -/
def Whole (k : PgrKey) : Prop := k.lptId = [] ∨ 5 ≤ k.lptId.length

def WholeKeys (s : SbdLu) : Prop := ∀ key, Whole (s.keys key)

theorem reloaded_of_whole {k : PgrKey} (h : Whole k) : k.reloaded = registration k := by
  simp only [PgrKey.reloaded, registration]
  rcases h with h | h
  · simp [h]
  · rw [if_pos h]

theorem holderIndx_eq_idxOf {holder : KeyPtr} {l : List KeyPtr} (hmem : holder ∈ l)
    (hnd : l.Nodup) : holderIndx holder l 0 0 = l.idxOf holder + 1 := by
  obtain ⟨xs, ys, rfl⟩ := List.append_of_mem hmem
  have hnd' := List.nodup_cons.mp (List.nodup_middle.mp hnd)
  rw [List.mem_append, not_or] at hnd'
  rw [holderIndx_append xs ys hnd'.1.2, List.idxOf_append_of_notMem hnd'.1.1, List.idxOf_cons_self]
  omega

/- What a section with some keys says, read into a unit with the type and scope of `s`. -/
def sectionView (s : SbdLu) (spi : PgrSection) (ks : List PgrKey) : View where
  registrations := ks.map PgrKey.reloaded
  holder := if spi.aptpl && spi.rsvdOne then some (spi.rsvholderIndx - 1) else none
  rsvdOne := spi.aptpl && spi.rsvdOne
  rsvdAll := spi.aptpl && spi.rsvdAll
  rsvType := if spi.aptpl then spi.rsvType else s.rsvType
  rsvScope := if spi.aptpl then spi.rsvScope else s.rsvScope
  aptpl := spi.aptpl

theorem viewOf_read {spi : PgrSection} {ks : List PgrKey} {new : List KeyPtr} (hnd : new.Nodup)
    (hkeys : new.map s'.keys = ks.map PgrKey.reloaded)
    (hspi : spi.Stores ks) (hsound : Sound spi) (hholder : s'.rsvholder =
      if (s.loadHeader spi).rsvdOne = true ∧ 1 ≤ spi.rsvholderIndx ∧
        spi.rsvholderIndx < 1 + ks.length then new.getD (spi.rsvholderIndx - 1) 0
      else (s.loadHeader spi).rsvholder)
    (hrest : s' = { s.loadHeader spi with
      keys := s'.keys, list := s'.list, alive := s'.alive, its := s'.its,
      rsvholder := s'.rsvholder, allKeysHasIt := s'.allKeysHasIt, disk := s'.disk }) :
    s'.viewOf new = s.sectionView spi ks := by
  have hlen : new.length = ks.length := by
    have hmap := congrArg List.length hkeys
    simpa only [List.length_map] using hmap
  have hregs : (new.map fun key => registration (s'.keys key)) = ks.map PgrKey.reloaded := by
    have hmap := congrArg (List.map registration) hkeys
    rw [List.map_map, List.map_map] at hmap
    exact hmap
  have hone : s'.rsvdOne = (spi.aptpl && spi.rsvdOne) := by rw [hrest]; rfl
  have hplace : (if s'.rsvdOne then some (new.idxOf s'.rsvholder) else none) =
      if spi.aptpl && spi.rsvdOne then some (spi.rsvholderIndx - 1) else none := by
    rw [hone]
    split
    · rename_i hset
      have hset' := hset
      rw [Bool.and_eq_true] at hset'
      obtain ⟨hlow, hhigh⟩ := hsound.holder hset'.1 hset'.2
      rw [hspi.numkeys] at hhigh
      have hlt : spi.rsvholderIndx - 1 < new.length := by omega
      rw [hholder, if_pos ⟨hset, hlow, hhigh⟩, List.getD_eq_getElem?_getD,
        List.getElem?_eq_getElem hlt, Option.getD_some, hnd.idxOf_getElem]
    · rfl
  rw [viewOf, hregs, hplace, hrest]
  rfl

theorem sectionView_metaSection (s₀ : SbdLu) (h : s.Base l) (hr : s.Rsv l)
    (haptpl : s.aptpl = true) (hwhole : ∀ key ∈ l, Whole (s.keys key)) :
    s₀.sectionView s.metaSection (l.map s.keys) = s.viewOf l := by
  have hregs : (l.map s.keys).map PgrKey.reloaded = l.map fun key => registration (s.keys key) := by
    rw [List.map_map]
    exact List.map_congr_left fun key hkey => reloaded_of_whole (hwhole key hkey)
  have hplace : (if s.rsvdOne then some (holderIndx s.rsvholder l 0 0 - 1) else none) =
      if s.rsvdOne then some (l.idxOf s.rsvholder) else none := by
    split
    · rename_i hone
      rw [holderIndx_eq_idxOf (hr.holder hone) h.isList.nodup, Nat.add_sub_cancel]
    · rfl
  simp only [sectionView, viewOf, metaSection_eq, h.keyList_eq, haptpl, if_true, Bool.true_and,
    hregs, hplace]

/- The unit after power loss: only the section is left, and it is loaded. -/
def powerOn (s : SbdLu) (kmem : Kmem) : Bool × SbdLu :=
  { pgrStart with disk := s.disk }.metaLoad kmem true

/- What is on disk is the section of the state in memory. -/
def Synced (s : SbdLu) : Prop := s.aptpl = true → s.disk = some s.metaSection

theorem powerOn_view (h : s.Base l) (hr : s.Rsv l) (haptpl : s.aptpl = true)
    (hwhole : ∀ key ∈ l, Whole (s.keys key)) (hsync : Synced s) (kmem : Kmem) :
    ∃ s', s.powerOn kmem = (true, s') ∧ s'.view = s.view := by
  have hstores := stores_metaSection h
  rw [if_pos haptpl] at hstores
  obtain ⟨s', new, hrun, hloaded⟩ := metaLoad_stores kmem
    (s := { pgrStart with disk := s.disk }) (hsync haptpl) hstores rfl
  refine ⟨s', hrun, ?_⟩
  have hlist := hloaded.isList
  rw [List.nil_append] at hlist
  have hkeyList : s'.keyList = new := by
    refine hlist.linked.walkFrom_eq ?_
    rw [hloaded.alive, List.length_append, List.length_reverse]
    exact Nat.le_add_right ..
  have hrest := hloaded.rest
  rw [view, view, hkeyList, h.keyList_eq, ← sectionView_metaSection pgrStart h hr haptpl hwhole]
  exact viewOf_read hlist.nodup hloaded.keys_new hstores
    (sound_metaSection h hr) hloaded.holder (by rw [hrest]; rfl)

section Sync

theorem Attended.metaSection_eq (h : Attended s s') : s'.metaSection = s.metaSection := by
  have hkeyList : s'.keyList = s.keyList := by rw [h.rest]; rfl
  have hrecords : ∀ l : List KeyPtr,
      (l.map s'.keys).flatMap keyRecord = (l.map s.keys).flatMap keyRecord := by
    intro l
    rw [List.flatMap_map, List.flatMap_map]
    refine List.flatMap_congr fun key _ => ?_
    rw [h.keys key]
    rfl
  rw [SbdLu.metaSection_eq, SbdLu.metaSection_eq s, hkeyList, hrecords, h.rest]

theorem Attended.synced (h : Attended s s') (hs : Synced s) : Synced s' := by
  intro haptpl
  have haptpl' : s'.aptpl = s.aptpl := by rw [h.rest]
  have hdisk : s'.disk = s.disk := by rw [h.rest]
  rw [h.metaSection_eq, hdisk]
  exact hs (haptpl' ▸ haptpl)

theorem Attended.whole (h : Attended s s') (hw : WholeKeys s) : WholeKeys s' := by
  intro key
  rw [h.keys key]
  exact hw key

theorem whole_setKey {k : PgrKey} (hw : WholeKeys s) (hk : Whole k) :
    WholeKeys (s.setKey key k) := by
  intro key'
  by_cases hkey : key' = key
  · subst hkey
    rw [setKey_self]
    exact hk
  · rw [setKey_of_ne s k hkey]
    exact hw key'

theorem Cut.whole (h : Cut s s') (hw : WholeKeys s) : WholeKeys s' := fun key => by
  rw [h.keys]
  exact hw key

theorem whole_bytes (lpt : Devid) : 5 ≤ lpt.bytes.length := by
  have hlen := lpt.bytes_length
  omega

theorem Registered.whole {k : PgrKey} (h : Registered s s' key k it)
    (hw : WholeKeys s) (hk : Whole k) : WholeKeys s' := by
  have hset : WholeKeys (s.setKey key k) := whole_setKey hw hk
  intro key'
  rw [h.keys]
  exact hset key'

theorem whole_registeredKey (it : ItPtr) (lpt : Option Devid) (rpt : Tptid) (allTgPt : Bool)
    (svcKey : UInt64) : Whole (registeredKey it lpt rpt allTgPt svcKey) := by
  cases lpt with
  | none => exact .inl rfl
  | some lpt => exact .inr (whole_bytes lpt)

section

variable (hw : WholeKeys s)
include hw

theorem whole_registerTpds (kmem : Kmem) (lpt : Option Devid)
    (allTgPt : Bool) (svcKey : UInt64) (tpds : List Tptid) :
    WholeKeys (s.registerTpds kmem lpt allTgPt svcKey tpds) := by
  induction tpds generalizing s with
  | nil => exact hw
  | cons tpd rest ih =>
    exact ih ((doRegister_registered s kmem 0 lpt tpd allTgPt svcKey).whole hw
      (whole_registeredKey ..))

theorem whole_doReserve (key : KeyPtr) (it : ItPtr)
    (cmd : ProutCmd) : WholeKeys (s.doReserve key it cmd) := by
  simp only [doReserve]
  split
  · exact hw
  split
  · exact whole_setKey hw (.inr (whole_bytes _))
  · exact hw

theorem whole_doUnregister (key : KeyPtr) :
    WholeKeys (s.doUnregister key) := by
  have hkeys : ((s.released key).removeKey key).keys = s.keys := by
    rw [(cut_removeKey _ key).keys, released]
    split <;> rfl
  rw [doUnregister_eq]
  split <;> exact fun key' => hkeys ▸ hw key'

theorem whole_moveToFound (newkey : KeyPtr) (lpt : Devid)
    (svcKey : UInt64) (hlpt : lpt.bytes.length ≤ 256) :
    WholeKeys (s.moveToFound newkey lpt svcKey) := by
  have hlen := whole_bytes lpt
  simp only [moveToFound]
  refine whole_setKey hw ?_
  split
  · rcases Nat.lt_or_ge lpt.bytes.length 256 with hlt | hge
    · rw [Nat.mod_eq_of_lt hlt, List.take_length]
      exact .inr hlen
    · rw [Nat.le_antisymm hlpt hge]
      exact .inl rfl
  · exact hw newkey

end

/- The target ports that REGISTER AND MOVE may name. -/
def ShortPort (cmd : ProutCmd) : Prop :=
  cmd.action = .registerMove → ∀ lpt ∈ cmd.relTgtPort, lpt.bytes.length ≤ 256

theorem Changed.whole {kmem : Kmem} (hc : Changed s kmem it cmd s₁)
    (hw : WholeKeys s) (hport : ShortPort cmd) (hbase : s.Base l) :
    WholeKeys s₁ := by
  induction hc with
  | rekey haction hptr => exact whole_setKey hw (hw _)
  | unregister haction hptr hsvc => exact whole_doUnregister hw _
  | register tpds haction hptr hsvc hcheck hown htpds =>
    exact (doRegister_registered _ kmem it _ _ _ _).whole (whole_registerTpds hw _ _ _ _ _)
      (whole_registeredKey ..)
  | reserve haction hptr hone hall => exact whole_doReserve hw _ _ _
  | clear haction hptr => exact hw
  | preemptKeys haction hsvc hptr hother => exact (removeKeys_removed hbase ..).cut.whole hw
  | preemptSelf haction hone hptr hholder hsvc => exact whole_doReserve (s := s.doRelease) hw _ _ _
  | preemptSame haction => exact hw
  | preemptHolder | preemptAll =>
    exact whole_doReserve
      ((removeKeys_removed (hbase.kept (kept_doRelease s)) ..).cut.whole hw) _ _ _
  | move lpt rpt newkey s₁ haction hrel hid hptr hholder hself hnew hrpt =>
    have hw₁ : WholeKeys s₁ := by
      split at hnew
      · obtain ⟨rfl, rfl⟩ := Prod.mk.inj hnew
        exact whole_moveToFound hw _ lpt _ (hport haction lpt hrel)
      · have hreg := doRegister_registered s kmem 0 (some lpt) rpt false cmd.svcKey
        rw [← hnew] at hreg
        exact hreg.whole hw (whole_registeredKey ..)
    split
    · exact whole_doUnregister (s := s₁.moveHolder newkey (nexusName lpt rpt)) hw₁ _
    · exact hw₁
  | aptpl _ _ _ ih => exact ih

theorem finish_ok (s : SbdLu) (kmem : Kmem) (counts : Bool) :
    s.finish kmem .ok counts = (.good, { s with
      disk := if s.aptpl then some s.metaSection else s.disk
      prGeneration := if counts then (s.prGeneration + 1) % 2 ^ 32 else s.prGeneration }) := by
  by_cases haptpl : s.aptpl = true
  · have hcommit : s.commit kmem .ok = (true, { s with disk := some s.metaSection }) :=
      if_pos haptpl
    rw [finish, hcommit, if_pos haptpl]
    cases counts <;> rfl
  · have hcommit : s.commit kmem .ok = (true, s) := if_neg haptpl
    rw [finish, hcommit, if_neg haptpl]
    cases counts <;> rfl

theorem metaSection_counted (s : SbdLu) (disk : Option PgrSection) (generation : Nat) :
    { s with disk := disk, prGeneration := generation : SbdLu }.metaSection = s.metaSection := by
  rw [SbdLu.metaSection_eq, SbdLu.metaSection_eq s]
  rfl

theorem synced_finish (s : SbdLu) (kmem : Kmem) (counts : Bool) :
    Synced (s.finish kmem .ok counts).2 := by
  rw [finish_ok]
  intro haptpl
  exact (if_pos haptpl).trans (congrArg some (s.metaSection_counted _ _).symm)

theorem whole_finish (hw : WholeKeys s) (kmem : Kmem) (counts : Bool) :
    WholeKeys (s.finish kmem .ok counts).2 := by
  rw [finish_ok]
  exact hw

theorem handlePgrOutData_kept (h : s.Inv l) (hids : s.IdsReadable it cmd) (hs : Synced s)
    (hw : WholeKeys s) (kmem : Kmem) (hkeep : ¬ (s.aptpl = true ∧ s.Releases it cmd))
    (hport : ShortPort cmd) : Synced (s.handlePgrOutData kmem .ok it cmd).2 ∧
      WholeKeys (s.handlePgrOutData kmem .ok it cmd).2 := by
  have hout := outcome_handlePgrOutData h.base h.rsv hids kmem .ok
  generalize s.handlePgrOutData kmem .ok it cmd = out at hout
  cases hout with
  | refused => exact ⟨hs, hw⟩
  | counted =>
    exact ⟨fun haptpl =>
      (hs haptpl).trans (congrArg some (s.metaSection_counted s.disk _).symm), hw⟩
  | released hrel => exact ⟨fun haptpl => absurd ⟨haptpl, hrel⟩ hkeep, hw⟩
  | written hc =>
    exact ⟨synced_finish _ kmem _, whole_finish (hc.whole hw hport h.base) kmem _⟩

end Sync

end SbdLu

/- A step whose write succeeds, with transport IDs that can be read back. -/
def PgrStep.Written (s : SbdLu) : PgrStep → Prop
  | .prOut it cmd _ io => s.IdsReadable it cmd ∧ io = .ok
  | _ => True

theorem PgrStep.Written.writeOk {s : SbdLu} {a : PgrStep} (h : a.Written s) : a.WriteOk s := by
  cases a with
  | prOut it cmd kmem io =>
    obtain ⟨hids, rfl⟩ := h
    exact ⟨hids, trivial⟩
  | _ => trivial

/- No RELEASE ends a reservation that is to survive, and REGISTER AND MOVE names no target port
whose descriptor is too long. -/
def PgrStep.Persists (s : SbdLu) : PgrStep → Prop
  | .prOut it cmd _ _ => ¬ (s.aptpl = true ∧ s.Releases it cmd) ∧ SbdLu.ShortPort cmd
  | _ => True

structure SbdLu.Persistent (s : SbdLu) : Prop where
  inv : ∃ l, s.Inv l
  synced : s.Synced
  whole : s.WholeKeys

theorem persistent_pgrStep {s s' : SbdLu} {a : PgrStep} (h : s.Persistent) (hwritten : a.Written s)
    (hok : a.Persists s) (hstep : pgrStep s a = some s') : s'.Persistent := by
  obtain ⟨l, hinv⟩ := h.inv
  suffices hkept : s'.Synced ∧ s'.WholeKeys from
    ⟨inv_pgrStep hinv hwritten.writeOk hstep, hkept.1, hkept.2⟩
  rcases pgrStep_cases hstep with hatt | ⟨it, cmd, kmem, io, rfl, -, rfl⟩ | ⟨rfl, rfl⟩
  · exact ⟨hatt.synced h.synced, hatt.whole h.whole⟩
  · obtain ⟨hids, rfl⟩ := hwritten
    exact SbdLu.handlePgrOutData_kept hinv hids h.synced h.whole kmem hok.1 hok.2
  · rw [SbdLu.pgrReset]
    split
    · exact ⟨h.synced, h.whole⟩
    · exact ⟨fun haptpl => absurd haptpl Bool.false_ne_true, h.whole⟩

theorem persistent_pgrStart : pgrStart.Persistent :=
  ⟨⟨[], SbdLu.inv_pgrStart⟩, fun haptpl => absurd haptpl Bool.false_ne_true, fun _ => .inl rfl⟩

theorem reach_persistent {s : SbdLu}
    (h : Reach pgrStep (fun s a => a.Written s ∧ a.Persists s) pgrStart s) : s.Persistent :=
  h.invariant persistent_pgrStart
    fun _ _ _ hp hok hstep => persistent_pgrStep hp hok.1 hok.2 hstep

/-- While APTPL is set, the unit that is loaded after power loss looks like the one before. -/
theorem pgr_survives_power_loss (s : SbdLu)
    (h : Reach pgrStep (fun s a => a.Written s ∧ a.Persists s) pgrStart s) (haptpl : s.aptpl = true)
    (kmem : Kmem) : ∃ s', s.powerOn kmem = (true, s') ∧ s'.view = s.view := by
  have hp := reach_persistent h
  obtain ⟨l, hinv⟩ := hp.inv
  exact SbdLu.powerOn_view hinv.base hinv.rsv haptpl (fun key _ => hp.whole key) hp.synced kmem

theorem pgr_survives_power_loss_reserved : ∃ s,
    Reach pgrStep (fun s a => a.Written s ∧ a.Persists s) pgrStart s ∧ s.rsvdOne = true ∧
      s.aptpl = true ∧ ∃ s', s.powerOn bumpKmem = (true, s') ∧ s'.view = s.view := by
  have hrun : Reach pgrStep (fun s a => a.Written s ∧ a.Persists s) pgrStart _ :=
    .next (a := .prOut 1 (prOutCmd .reserve 1 7 0 false false) bumpKmem .ok)
      (.next (a := .prOut 1 (prOutCmd .register 0 0 7 true false) bumpKmem .ok)
        (.next (a := .login 1 (targetPort 1) initiatorPort) .start ⟨trivial, trivial⟩ rfl)
        ⟨⟨idsReadable_prOutCmd (by decide), rfl⟩, fun h => absurd h.2.1 (by decide),
          fun h => absurd h (by decide)⟩ rfl)
      ⟨⟨idsReadable_prOutCmd (by decide), rfl⟩, fun h => absurd h.2.1 (by decide),
          fun h => absurd h (by decide)⟩ rfl
  exact ⟨_, hrun, by decide, by decide,
    pgr_survives_power_loss _ hrun (by decide) bumpKmem⟩

/-- A release is answered but not written: after power loss the reservation is back. -/
theorem pgr_survives_power_loss_not_release : ∃ s cmd s',
    Reach pgrStep (fun s a => a.Written s) pgrStart s ∧ 1 ∈ s.itList ∧
      (s.handlePgrOutData bumpKmem .ok 1 cmd).1 = .good ∧
      (s.handlePgrOutData bumpKmem .ok 1 cmd).2.aptpl = true ∧
      (s.handlePgrOutData bumpKmem .ok 1 cmd).2.powerOn bumpKmem = (true, s') ∧
      s'.view ≠ (s.handlePgrOutData bumpKmem .ok 1 cmd).2.view := by
  have hrun : Reach pgrStep (fun s a => a.Written s) pgrStart _ :=
    .next (a := .prOut 1 (prOutCmd .reserve 1 7 0 false false) bumpKmem .ok)
      (.next (a := .prOut 1 (prOutCmd .register 0 0 7 true false) bumpKmem .ok)
        (.next (a := .login 1 (targetPort 1) initiatorPort) .start trivial rfl)
        ⟨idsReadable_prOutCmd (by decide), rfl⟩ rfl)
      ⟨idsReadable_prOutCmd (by decide), rfl⟩ rfl
  refine ⟨_, prOutCmd .release 1 7 0 false false, _, hrun, by decide, by decide,
    by decide, rfl, fun heq => ?_⟩
  exact absurd (congrArg SbdLu.View.rsvdOne heq) (by decide)

/-- A transport ID of four bytes is accepted with another one behind it, registered and written, but
the section is then refused as a whole. -/
theorem powerOn_four_byte_id : ∃ s, Reach pgrStep (fun _ a => ∀ it cmd kmem io,
      a = .prOut it cmd kmem io → io = .ok) pgrStart s ∧
    s.aptpl = true ∧ s.keyList.length = 3 ∧ (s.powerOn bumpKmem).1 = false := by
  have hrun : Reach pgrStep (fun _ a => ∀ it cmd kmem io, a = .prOut it cmd kmem io → io = .ok)
      pgrStart _ :=
    .next (a := .prOut 1 { prOutCmd .register 0 0 7 true false with
        buflen := 40
        specIPt := true
        tpds := [some ⟨[6, 0, 0, 0], by decide⟩, some ⟨[6, 0, 0, 4, 1, 2, 3, 4], by decide⟩] }
        bumpKmem .ok)
      (.next (a := .login 1 (targetPort 1) initiatorPort) .start (by simp) rfl)
      (by rintro _ _ _ _ ⟨⟩; rfl) rfl
  exact ⟨_, hrun, by decide, by decide +kernel, by decide +kernel⟩

end ClusterZfs

import ClusterZfs.Pgr.Base

/-! What a service action may do, said once: it refuses, it answers without a change that counts,
it releases, or it changes the keys and the reservation and ends with the write. -/
namespace ClusterZfs

namespace SbdLu

variable {s : SbdLu} {l : List KeyPtr} {kmem : Kmem} {io : MetaIo} {it : ItPtr} {cmd : ProutCmd}

/- The reservation and the list of keys belong together. -/
structure Rsv (s : SbdLu) (l : List KeyPtr) : Prop where
  notBoth : s.rsvdOne = true → s.rsvdAll = false
  holder : s.rsvdOne = true → s.rsvholder ∈ l
  noHolder : s.rsvdOne = false → s.rsvholder = 0
  all : s.rsvdAll = true → l ≠ []

def Registers (cmd : ProutCmd) : Prop :=
  cmd.action = .register ∨ cmd.action = .registerAndIgnoreExistingKey

def Preempts (cmd : ProutCmd) : Prop := cmd.action = .preempt ∨ cmd.action = .preemptAbort

/- A RELEASE that ends the reservation. -/
def Releases (s : SbdLu) (it : ItPtr) (cmd : ProutCmd) : Prop :=
  cmd.action = .release ∧ (s.rsvdOne = true ∨ s.rsvdAll = true) ∧
    (s.rsvdAll = true ∨ s.rsvholder = (s.its it).keyPtr) ∧ s.rsvType = cmd.type ∧
    s.rsvScope = cmd.scope

/- The transport IDs that pass are different and none has a key yet. -/
theorem checkTpds_spec {lpt : Option Bytes} {rest : List (Option Tptid)} {seen tpds : List Tptid}
    (h : s.checkTpds lpt seen rest = some tpds) :
    ∃ new, tpds = seen ++ new ∧
      new.Pairwise (fun t t' => tptidName t.bytes ≠ tptidName t'.bytes) ∧
      (∀ t ∈ seen, ∀ t' ∈ new, tptidName t.bytes ≠ tptidName t'.bytes) ∧
      ∀ t ∈ new, some t ∈ rest ∧ s.keyRegistered lpt t.bytes = 0 := by
  induction rest generalizing seen with
  | nil =>
    cases h
    exact ⟨[], by simp⟩
  | cons tpd rest ih =>
    cases tpd with
    | none => cases h
    | some tpd =>
      rw [checkTpds] at h
      split at h
      · cases h
      · rename_i hok
        rw [not_or, not_exists, not_not] at hok
        obtain ⟨new, rfl, hpair, hseen, hnew⟩ := ih h
        refine ⟨tpd :: new, by simp, ?_, ?_, ?_⟩
        · refine List.pairwise_cons.mpr ⟨fun t ht => ?_, hpair⟩
          exact hseen tpd (by simp) t ht
        · intro t ht t' ht'
          rcases List.mem_cons.mp ht' with rfl | ht'
          · exact fun heq => hok.1 t ⟨ht, heq⟩
          · exact hseen t (List.mem_append_left _ ht) t' ht'
        · intro t ht
          rcases List.mem_cons.mp ht with rfl | ht
          · exact ⟨List.mem_cons_self, hok.2⟩
          · exact ⟨List.mem_cons_of_mem _ (hnew t ht).1, (hnew t ht).2⟩

/- The transport IDs that a command registers, its own and those it names, can be read back. -/
structure IdsReadable (s : SbdLu) (it : ItPtr) (cmd : ProutCmd) : Prop where
  own : Registers cmd → (s.its it).rport.Readable
  tpds : Registers cmd → ∀ tpd, some tpd ∈ cmd.tpds → tpd.Readable
  moved : cmd.action = .registerMove → ∀ rpt ∈ cmd.tptid, rpt.Readable

/- The changes made in memory, each with what the code has tested before it. -/
inductive Changed (s : SbdLu) (kmem : Kmem) (it : ItPtr) (cmd : ProutCmd) : SbdLu → Prop
  | rekey : Registers cmd → (s.its it).keyPtr ≠ 0 →
      Changed s kmem it cmd (s.setKey (s.its it).keyPtr
        { s.keys (s.its it).keyPtr with pgrKey := cmd.svcKey })
  | unregister : Registers cmd → (s.its it).keyPtr ≠ 0 → cmd.svcKey = 0 →
      Changed s kmem it cmd (s.doUnregister (s.its it).keyPtr)
  | register (tpds : List Tptid) : Registers cmd → (s.its it).keyPtr = 0 → cmd.svcKey ≠ 0 →
      (tpds = [] ∨
        s.checkTpds ((s.registeredPort it cmd).map Devid.bytes) [] cmd.tpds = some tpds) →
      (s.its it).rport.Readable → (∀ tpd ∈ tpds, tpd.Readable) →
      Changed s kmem it cmd ((s.registerTpds kmem (s.registeredPort it cmd) cmd.allTgPt cmd.svcKey
        tpds).doRegister kmem it (s.registeredPort it cmd) (s.its it).rport cmd.allTgPt
        cmd.svcKey).2
  | reserve : cmd.action = .reserve → (s.its it).keyPtr ≠ 0 → s.rsvdOne = false →
      s.rsvdAll = false → Changed s kmem it cmd (s.doReserve (s.its it).keyPtr it cmd)
  | clear : cmd.action = .clear → (s.its it).keyPtr ≠ 0 →
      Changed s kmem it cmd s.doRelease.keylistDealloc
  | preemptKeys : Preempts cmd → cmd.svcKey ≠ 0 → (s.its it).keyPtr ≠ 0 →
      (s.rsvdOne = true → (s.keys s.rsvholder).pgrKey ≠ cmd.svcKey) →
      Changed s kmem it cmd (s.removeKeys it (s.its it).keyPtr cmd.svcKey true).2
  | preemptHolder : Preempts cmd → s.rsvdOne = true → (s.its it).keyPtr ≠ 0 →
      s.rsvholder ≠ (s.its it).keyPtr → (s.keys s.rsvholder).pgrKey = cmd.svcKey →
      Changed s kmem it cmd
        ((s.doRelease.removeKeys it (s.its it).keyPtr cmd.svcKey true).2.doReserve
          (s.its it).keyPtr it cmd)
  | preemptSelf : Preempts cmd → s.rsvdOne = true → (s.its it).keyPtr ≠ 0 →
      s.rsvholder = (s.its it).keyPtr → (s.keys s.rsvholder).pgrKey = cmd.svcKey →
      Changed s kmem it cmd (s.doRelease.doReserve (s.its it).keyPtr it cmd)
  | preemptSame : Preempts cmd → Changed s kmem it cmd s
  | preemptAll : Preempts cmd → s.rsvdAll = true → (s.its it).keyPtr ≠ 0 →
      Changed s kmem it cmd ((s.doRelease.removeKeys it (s.its it).keyPtr 0 false).2.doReserve
        (s.its it).keyPtr it cmd)
  | move (lpt : Devid) (rpt : Tptid) (newkey : KeyPtr) (s₁ : SbdLu) :
      cmd.action = .registerMove → cmd.relTgtPort = some lpt → cmd.tptid = some rpt →
      (s.its it).keyPtr ≠ 0 → s.rsvholder = (s.its it).keyPtr →
      pgrKeyCompare (s.keys (s.its it).keyPtr) (some lpt.bytes) rpt.bytes = false →
      (newkey, s₁) =
        (if s.keyRegistered (some lpt.bytes) rpt.bytes ≠ 0 then
          (s.keyRegistered (some lpt.bytes) rpt.bytes,
            s.moveToFound (s.keyRegistered (some lpt.bytes) rpt.bytes) lpt cmd.svcKey)
        else s.doRegister kmem 0 (some lpt) rpt false cmd.svcKey) → rpt.Readable →
      Changed s kmem it cmd
        (if cmd.unreg then
          (s₁.moveHolder newkey (nexusName lpt rpt)).doUnregister (s.its it).keyPtr
        else s₁.moveHolder newkey (nexusName lpt rpt))
  | aptpl {s₁ : SbdLu} : Registers cmd ∨ cmd.action = .registerMove → cmd.aptpl = true →
      Changed s kmem it cmd s₁ → Changed s kmem it cmd { s₁ with aptpl := true }

/- The answer of a service action and the state it leaves, beside what they are when the write
succeeds. -/
inductive Outcome (s : SbdLu) (kmem : Kmem) (io : MetaIo) (it : ItPtr) (cmd : ProutCmd) :
    ScsiStatus × SbdLu → ScsiStatus × SbdLu → Prop
  | refused {status : ScsiStatus} : Outcome s kmem io it cmd (status, s) (status, s)
  | counted : Outcome s kmem io it cmd
      (.good, { s with prGeneration := (s.prGeneration + 1) % 2 ^ 32 })
      (.good, { s with prGeneration := (s.prGeneration + 1) % 2 ^ 32 })
  | released : Releases s it cmd →
      Outcome s kmem io it cmd (.good, s.doRelease) (.good, s.doRelease)
  | written {s₁ : SbdLu} {counts : Bool} : Changed s kmem it cmd s₁ →
      Outcome s kmem io it cmd (s₁.finish kmem io counts) (s₁.finish kmem .ok counts)

theorem outcome_regDone {s₁ : SbdLu} (haction : Registers cmd ∨ cmd.action = .registerMove)
    (h : Changed s kmem it cmd s₁) : Outcome s kmem io it cmd (s₁.regDone kmem io cmd)
      (s₁.regDone kmem .ok cmd) := by
  simp only [regDone]
  split
  · rename_i hset
    exact .written (.aptpl haction hset h)
  · exact .written h

theorem outcome_outRegister (hids : s.IdsReadable it cmd) (haction : Registers cmd) :
    Outcome s kmem io it cmd (s.outRegister kmem io it cmd)
      (s.outRegister kmem .ok it cmd) := by
  simp only [outRegister]
  split
  · rename_i hkey
    simp only [outRegisterAgain]
    split_ifs
    iterate 3 exact .refused
    · rename_i hsvc
      exact outcome_regDone (.inl haction) (.unregister haction hkey hsvc)
    · exact outcome_regDone (.inl haction) (.rekey haction hkey)
  · rename_i hkey
    rw [not_not] at hkey
    simp only [outRegisterNew]
    split
    · exact .refused
    split
    · exact .counted
    rename_i hsvc
    split
    · exact outcome_regDone (.inl haction) (.register [] haction hkey hsvc (.inl rfl)
        (hids.own haction) (by simp))
    split
    · exact .refused
    split
    · exact .refused
    · cases hcheck : s.checkTpds ((s.registeredPort it cmd).map Devid.bytes) [] cmd.tpds with
      | none => exact .refused
      | some tpds =>
        obtain ⟨new, rfl, -, -, hnew⟩ := checkTpds_spec hcheck
        exact outcome_regDone (.inl haction) (.register _ haction hkey hsvc (.inr hcheck)
          (hids.own haction) fun tpd htpd => hids.tpds haction tpd (hnew tpd htpd).1)

theorem outcome_outReserve (haction : cmd.action = .reserve) (hkey : (s.its it).keyPtr ≠ 0) :
    Outcome s kmem io it cmd (s.outReserve kmem io it cmd)
      (s.outReserve kmem .ok it cmd) := by
  simp only [outReserve]
  split
  · exact .refused
  split
  · split <;> exact .refused
  · rename_i hrsv
    rw [not_or] at hrsv
    exact .written (.reserve haction hkey (Bool.eq_false_iff.mpr hrsv.1)
      (Bool.eq_false_iff.mpr hrsv.2))

theorem outcome_outRelease (haction : cmd.action = .release) :
    Outcome s kmem io it cmd (s.outRelease it cmd)
      (s.outRelease it cmd) := by
  simp only [outRelease]
  split_ifs with hrsv hbad
  · exact .refused
  · rw [not_or, not_not, not_not] at hbad
    exact .released ⟨haction, hrsv.1, hrsv.2, hbad.1, hbad.2⟩
  · exact .refused

/-- Keys that match are there to be removed when one of them holds the reservation. -/
theorem removeKeys_count_pos (h : s.Base l) (myKey : KeyPtr) {holder : KeyPtr} {svcKey : UInt64}
    (hmem : holder ∈ l) (hkey : (s.keys holder).pgrKey = svcKey) :
    (s.removeKeys it myKey svcKey true).1 ≠ 0 := by
  rw [(removeKeys_removed h it myKey svcKey true).count]
  have hin : holder ∈ l.filter (Matched s.keys svcKey true) := by
    simp [hmem, Matched, hkey]
  exact Nat.pos_iff_ne_zero.mp (List.length_pos_of_mem hin)

theorem outcome_orConflict {svcKey : UInt64} {counts : Bool}
    (h : Changed s kmem it cmd (s.removeKeys it (s.its it).keyPtr svcKey true).2) :
    Outcome s kmem io it cmd
      (orConflict (s.removeKeys it (s.its it).keyPtr svcKey true) fun s => s.finish kmem io counts)
      (orConflict (s.removeKeys it (s.its it).keyPtr svcKey true) fun s =>
        s.finish kmem .ok counts) := by
  simp only [orConflict]
  split
  · rename_i hzero
    rw [show (s.removeKeys it (s.its it).keyPtr svcKey true).2 = s from removeKeysLoop_zero hzero]
    exact .refused
  · exact .written h

theorem outcome_outPreempt (h : s.Base l) (hr : s.Rsv l) (haction : Preempts cmd)
    (hkey : (s.its it).keyPtr ≠ 0) :
    Outcome s kmem io it cmd (s.outPreempt kmem io it cmd)
      (s.outPreempt kmem .ok it cmd) := by
  simp only [outPreempt]
  by_cases hone : s.rsvdOne = true
  · have hsome : ¬ (¬ s.rsvdOne = true ∧ ¬ s.rsvdAll = true) := by simp [hone]
    simp only [if_neg hsome, if_pos hone]
    split
    · exact .refused
    rename_i hsvc
    split
    · exact .refused
    split
    · rename_i hother
      have hbase : s.doRelease.Base l := { h with }
      have hcount : (s.doRelease.removeKeys it (s.its it).keyPtr cmd.svcKey true).1 ≠ 0 :=
        removeKeys_count_pos hbase _ (hr.holder hone) hother.2
      simp only [orConflict, if_neg hcount]
      exact .written (.preemptHolder haction hone hkey hother.1 hother.2)
    split
    · rename_i hself
      split
      · exact .written (.preemptSelf haction hone hkey hself.1 hself.2)
      · exact .written (.preemptSame haction)
    · rename_i hother hself
      refine outcome_orConflict (.preemptKeys haction hsvc hkey fun _ heq => ?_)
      by_cases hmine : s.rsvholder = (s.its it).keyPtr
      · exact hself ⟨hmine, heq⟩
      · exact hother ⟨hmine, heq⟩
  · simp only [if_neg hone]
    split
    · split
      · exact .refused
      · rename_i hsvc
        exact outcome_orConflict (.preemptKeys haction hsvc hkey (absurd · hone))
    · rename_i hnone
      have hall : s.rsvdAll = true := by_contra fun hall => hnone ⟨hone, hall⟩
      split
      · split
        · exact .refused
        · exact .written (.preemptAll haction hall hkey)
      · rename_i hsvc
        exact outcome_orConflict (.preemptKeys haction hsvc hkey (absurd · hone))

theorem outcome_outRegisterAndMove (hids : s.IdsReadable it cmd)
    (haction : cmd.action = .registerMove) (hkey : (s.its it).keyPtr ≠ 0) :
    Outcome s kmem io it cmd (s.outRegisterAndMove kmem io it cmd)
      (s.outRegisterAndMove kmem .ok it cmd) := by
  simp only [outRegisterAndMove]
  split
  · exact .refused
  rename_i hholder
  rw [not_not] at hholder
  split
  · exact .refused
  cases hport : cmd.relTgtPort with
  | none => exact .refused
  | some lpt =>
    cases hid : cmd.tptid with
    | none => exact .refused
    | some rpt =>
      simp only
      split
      · exact .refused
      · rename_i hself
        exact outcome_regDone (.inr haction) (.move lpt rpt _ _ haction hport hid hkey hholder
          (Bool.eq_false_iff.mpr hself) rfl (hids.moved haction rpt hid))

theorem outcome_handlePgrOutData (h : s.Base l) (hr : s.Rsv l) (hids : s.IdsReadable it cmd)
    (kmem : Kmem) (io : MetaIo) :
    Outcome s kmem io it cmd (s.handlePgrOutData kmem io it cmd)
      (s.handlePgrOutData kmem .ok it cmd) := by
  simp only [handlePgrOutData]
  split
  · exact .refused
  split
  · exact .refused
  split
  · split <;> exact .refused
  rename_i hreg
  split
  · exact .refused
  have hkey : ¬ (cmd.action = .register ∨ cmd.action = .registerAndIgnoreExistingKey) →
      (s.its it).keyPtr ≠ 0 := fun hnot hzero => hreg ⟨hnot, hzero⟩
  cases haction : cmd.action with
  | register => exact outcome_outRegister hids (.inl haction)
  | registerAndIgnoreExistingKey => exact outcome_outRegister hids (.inr haction)
  | registerMove => exact outcome_outRegisterAndMove hids haction (hkey (by simp [haction]))
  | reserve => exact outcome_outReserve haction (hkey (by simp [haction]))
  | release => exact outcome_outRelease haction
  | clear => exact .written (.clear haction (hkey (by simp [haction])))
  | preempt => exact outcome_outPreempt h hr (.inl haction) (hkey (by simp [haction]))
  | preemptAbort => exact outcome_outPreempt h hr (.inr haction) (hkey (by simp [haction]))

end SbdLu

end ClusterZfs

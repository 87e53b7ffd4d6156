import ClusterZfs.Pgr.Persist

/-! A reservation of one holder stays as it was given until a command or a reset ends it. -/
namespace ClusterZfs

namespace SbdLu

variable {s s' s₁ : SbdLu} {l : List KeyPtr} {key : KeyPtr} {it : ItPtr} {cmd : ProutCmd}
  {kmem : Kmem}

/- What a reservation of one holder is: to whom it was given, whether it is there, and its type. -/
def note (s : SbdLu) : Option (NexusName × Fin 16) × Bool × Fin 16 :=
  (s.granted, s.rsvdOne, s.rsvType)

/- What was given is there. -/
def Noted (s : SbdLu) : Prop := ∀ n t, s.granted = some (n, t) → s.rsvdOne = true ∧ s.rsvType = t

/- The commands that may end the reservation of one holder: it is released, cleared, preempted by
the key of its holder, or the holder's key is unregistered or moves it. -/
def Ends (s : SbdLu) (it : ItPtr) (cmd : ProutCmd) : Prop :=
  s.Releases it cmd ∨ cmd.action = .clear ∨
    (Preempts cmd ∧ cmd.svcKey = (s.keys s.rsvholder).pgrKey) ∨
    ((s.its it).keyPtr = s.rsvholder ∧
      ((Registers cmd ∧ cmd.svcKey = 0) ∨ cmd.action = .registerMove))

theorem Noted.of_note (h : s.Noted) (heq : s'.note = s.note) : s'.Noted := by
  intro n t hn
  obtain ⟨hgranted, hone, htype⟩ :
      s'.granted = s.granted ∧ s'.rsvdOne = s.rsvdOne ∧ s'.rsvType = s.rsvType := by
    simpa only [note, Prod.mk.injEq] using heq
  rw [hone, htype]
  exact h n t (hgranted ▸ hn)

theorem noted_of_none (h : s.granted = none) : s.Noted := by
  intro n t hn
  rw [h] at hn
  cases hn

theorem Noted.none (h : s.Noted) (hone : s.rsvdOne = false) : s.granted = none := by
  cases hg : s.granted with
  | none => rfl
  | some g => exact absurd (hone.symm.trans (h g.1 g.2 hg).1) (by decide)

theorem noted_doReserve (h : s.granted = none) : (s.doReserve key it cmd).Noted := by
  simp only [doReserve]
  split
  · exact noted_of_none h
  · intro n t hn
    cases hn
    split <;> exact ⟨rfl, rfl⟩

theorem doUnregister_holder (hholder : s.rsvholder = key) :
    (s.doUnregister key).granted = none := by
  have hnone : ((s.released key).removeKey key).granted = none := by
    rw [(cut_removeKey _ key).rest, released, if_pos hholder]
    rfl
  rw [doUnregister_eq]
  split <;> exact hnone

/-- The holder stays in the list, so the flags stay too. -/
theorem doUnregister_note (h : s.Base l) (hr : s.Rsv l) (hkey : key ∈ l)
    (hholder : s.rsvholder ≠ key) : (s.doUnregister key).note = s.note := by
  obtain ⟨l₁, hb, -, hmem⟩ := doUnregister_wellFormed h hr hkey
  have hsame : s.released key = s := if_neg hholder
  have hnote : (s.removeKey key).note = s.note := by
    rw [note, (cut_removeKey s key).rest]
    rfl
  rw [doUnregister_eq, hsame] at hb ⊢
  by_cases hone : s.rsvdOne = true
  · have hin := hmem _ (hr.holder hone) hholder
    rw [if_neg]
    · exact hnote
    · intro hhead
      rw [if_pos hhead] at hb
      cases l₁ with
      | nil => exact absurd hin (by simp)
      | cons k rest => exact hb.isList.linked.2.1 (hb.isList.linked.1.symm.trans hhead)
  · split
    · rw [← hnote, note, note]
      simp only [clearRsvFlags, Prod.mk.injEq, true_and, and_true]
      rw [(cut_removeKey s key).rest]
      exact (Bool.eq_false_iff.mpr hone).symm
    · exact hnote

theorem Changed.note (h : s.Base l) (hr : s.Rsv l) (hn : s.Noted) (hit : it ∈ s.itList)
    (hc : Changed s kmem it cmd s₁) :
    s₁.note = s.note ∨ (s₁.Noted ∧ (s.rsvdOne = true → s.Ends it cmd)) := by
  -- The nexus takes a reservation, with none left from before.
  have htaken : ∀ svcKey mtch, ((s.doRelease.removeKeys it (s.its it).keyPtr svcKey
      mtch).2.doReserve (s.its it).keyPtr it cmd).Noted := by
    intro svcKey mtch
    refine noted_doReserve ?_
    rw [(removeKeys_removed (h.kept (kept_doRelease s)) ..).cut.rest]
    rfl
  induction hc with
  | rekey haction hptr => exact .inl rfl
  | unregister haction hptr hsvc =>
    by_cases hholder : s.rsvholder = (s.its it).keyPtr
    · exact .inr ⟨noted_of_none (doUnregister_holder hholder),
        fun _ => .inr (.inr (.inr ⟨hholder.symm, .inl ⟨haction, hsvc⟩⟩))⟩
    · exact .inl (doUnregister_note h hr (h.mem_of_ptr hit hptr) hholder)
  | register tpds haction hptr hsvc hcheck hown htpds =>
    left
    rw [SbdLu.note, (doRegister_registered ..).rest, registerTpds_rest]
    rfl
  | reserve haction hptr hone hall =>
    exact .inr ⟨noted_doReserve (hn.none hone),
      fun hset => absurd (hone.symm.trans hset) (by decide)⟩
  | clear haction hptr => exact .inr ⟨noted_of_none rfl, fun _ => .inr (.inl haction)⟩
  | preemptKeys haction hsvc hptr hother =>
    left
    rw [SbdLu.note, (removeKeys_removed h ..).cut.rest]
    rfl
  | preemptHolder haction hone hptr hother hsvc =>
    exact .inr ⟨htaken _ _, fun _ => .inr (.inr (.inl ⟨haction, hsvc.symm⟩))⟩
  | preemptSelf haction hone hptr hholder hsvc =>
    exact .inr ⟨noted_doReserve rfl, fun _ => .inr (.inr (.inl ⟨haction, hsvc.symm⟩))⟩
  | preemptSame haction => exact .inl rfl
  | preemptAll haction hall hptr =>
    exact .inr ⟨htaken _ _, fun hone => absurd ((hr.notBoth hone).symm.trans hall) (by decide)⟩
  | move lpt rpt newkey s₁ haction hport hid hptr hholder hself hnew hrpt =>
    have hone := hr.one_of_holder hptr hholder
    obtain ⟨l₁, hm⟩ := movedTo h (h.mem_of_ptr hit hptr) kmem lpt hrpt cmd.svcKey hself hnew
    have hmoved : (s₁.moveHolder newkey (nexusName lpt rpt)).Noted := by
      intro n t hn
      cases hn
      exact ⟨hm.one.trans hone, rfl⟩
    refine .inr ⟨?_, fun _ => .inr (.inr (.inr ⟨hholder.symm, .inr haction⟩))⟩
    split
    · exact hmoved.of_note (doUnregister_note (hm.base.moveHolder _ _) (hm.rsv hr hone _) hm.old
        hm.ne)
    · exact hmoved
  | aptpl _ _ _ ih => exact ih

theorem handlePgrOutData_note (h : s.Inv l) (hn : s.Noted) (hids : s.IdsReadable it cmd)
    (hit : it ∈ s.itList) :
    (s.handlePgrOutData kmem .ok it cmd).2.note = s.note ∨
      ((s.handlePgrOutData kmem .ok it cmd).2.Noted ∧ (s.rsvdOne = true → s.Ends it cmd)) := by
  have hout := outcome_handlePgrOutData h.base h.rsv hids kmem .ok
  generalize s.handlePgrOutData kmem .ok it cmd = out at hout
  cases hout with
  | refused | counted => exact .inl rfl
  | released hrel => exact .inr ⟨noted_of_none rfl, fun _ => .inl hrel⟩
  | written hc =>
    rw [finish_ok]
    have hnote := hc.note h.base h.rsv hn hit
    exact hnote

theorem Attended.note (h : Attended s s') : s'.note = s.note := by
  rw [SbdLu.note, h.rest]
  rfl

end SbdLu

/- The steps that may end the reservation of one holder. -/
def PgrStep.Ends (s : SbdLu) : PgrStep → Prop
  | .prOut it cmd _ _ => s.Ends it cmd
  | .reset => s.aptpl = false
  | _ => False

theorem note_pgrStep {s s' : SbdLu} {l : List KeyPtr} {a : PgrStep} (h : s.Inv l) (hn : s.Noted)
    (hwritten : a.Written s) (hstep : pgrStep s a = some s') :
    s'.note = s.note ∨ (s'.Noted ∧ (s.rsvdOne = true → a.Ends s)) := by
  rcases pgrStep_cases hstep with hatt | ⟨it, cmd, kmem, io, rfl, hit, rfl⟩ | ⟨rfl, rfl⟩
  · exact .inl hatt.note
  · obtain ⟨hids, rfl⟩ := hwritten
    exact SbdLu.handlePgrOutData_note h hn hids hit
  · rw [SbdLu.pgrReset]
    split
    · exact .inl rfl
    · rename_i haptpl
      exact .inr ⟨SbdLu.noted_of_none rfl, fun _ => Bool.eq_false_iff.mpr haptpl⟩

end ClusterZfs

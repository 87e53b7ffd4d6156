import ClusterZfs.Pgr.Persist

/-! Commands that are refused, and those whose write fails: what others see of the unit after
them. -/
namespace ClusterZfs

namespace SbdLu

variable {s s' s₁ : SbdLu} {l l₁ : List KeyPtr} {key : KeyPtr} {it : ItPtr} {cmd : ProutCmd}
  {kmem : Kmem} {spi : PgrSection} {ks : List PgrKey}

section Write

theorem metaWrite_failed (s : SbdLu) (kmem : Kmem) (kept : SectionKept) (reload : Bool) :
    (s.metaWrite kmem (.failed kept reload)).1 = false := by
  simp only [metaWrite]
  split <;> rfl

theorem finish_failed (haptpl : s.aptpl = true) (kmem : Kmem) (kept : SectionKept) (reload : Bool)
    (counts : Bool) : s.finish kmem (.failed kept reload) counts =
      (.check .insufficientRegResources, (s.metaWrite kmem (.failed kept reload)).2) := by
  have hcommit : s.commit kmem (.failed kept reload) =
      (false, (s.metaWrite kmem (.failed kept reload)).2) :=
    (if_pos haptpl).trans (Prod.ext (s.metaWrite_failed kmem kept reload) rfl)
  rw [finish, hcommit]

theorem finish_unwritten (haptpl : s.aptpl = false) (kmem : Kmem) (io : MetaIo) (counts : Bool) :
    (s.finish kmem io counts).1 = .good := by
  have hcommit : s.commit kmem io = (true, s) := if_neg (by simp [haptpl])
  rw [finish, hcommit]

/-- After a failed write the unit looks like the section that was read back. -/
theorem metaWrite_view (h : s.Base l) (kmem : Kmem) {kept : SectionKept}
    (hkept : s.keptSection kept = some spi) (hspi : spi.Stores ks) (hsound : Sound spi) :
    (s.metaWrite kmem (.failed kept true)).2.view = s.sectionView spi ks := by
  obtain ⟨s', new, hrun, hres⟩ := metaWrite_restored h kmem hkept hspi
  rw [hrun, view, hres.base.keyList_eq]
  exact viewOf_read (s := { s with disk := some spi }) hres.base.isList.nodup hres.keys hspi hsound
    hres.holder (by rw [hres.rest])

theorem metaWrite_view_lost (h : s.Base l) (kmem : Kmem) {kept : SectionKept}
    (hkept : s.keptSection kept = none) :
    (s.metaWrite kmem (.failed kept true)).2.view =
      { s.viewOf [] with holder := if s.rsvdOne then some 0 else none } := by
  obtain ⟨s', hrun, hres⟩ := metaWrite_lost h kmem hkept
  rw [hrun, view, hres.base.keyList_eq]
  simp only [viewOf]
  rw [hres.rest]
  simp

end Write

/- The section says what is in memory. -/
def Shows (s : SbdLu) (spi : PgrSection) : Prop :=
  ∃ ks, spi.Stores ks ∧ s.sectionView spi ks = s.view

/- When a failed write leaves what others see, by the state before the command and the one that the
command leaves when its write succeeds: it changes nothing that is seen and stays in memory, or the
section that is kept is read back and says what was in memory. -/
def WriteKept (s written : SbdLu) : MetaIo → Prop
  | .ok => True
  | .failed _ false => written.view = s.view
  | .failed kept true =>
    match { written with disk := s.disk }.keptSection kept with
    | some spi => s.Shows spi
    | none => s.aptpl = true ∧ s.keyList = []

section Kept

theorem Changed.of_empty (h : s.Base []) (hit : it ∈ s.itList) (hc : Changed s kmem it cmd s₁) :
    s₁.rsvdOne = s.rsvdOne ∧ s₁.rsvdAll = s.rsvdAll ∧ s₁.rsvType = s.rsvType ∧
      s₁.rsvScope = s.rsvScope := by
  have hnone : (s.its it).keyPtr = 0 := (h.ptrs it hit).resolve_right (by simp)
  induction hc with
  | register tpds haction hptr hsvc hcheck hown htpds =>
    rw [(doRegister_registered ..).rest, registerTpds_rest]
    exact ⟨rfl, rfl, rfl, rfl⟩
  | preemptSame haction => exact ⟨rfl, rfl, rfl, rfl⟩
  | aptpl _ _ _ ih => exact ih
  | rekey _ hptr | unregister _ hptr | reserve _ hptr | clear _ hptr | preemptKeys _ _ hptr
  | preemptHolder _ _ hptr | preemptSelf _ _ hptr | preemptAll _ _ hptr
  | move _ _ _ _ _ _ _ hptr => exact absurd hnone hptr

theorem view_registrations (h : s.Base l) :
    s.view.registrations = l.map fun key => registration (s.keys key) := by
  rw [view, h.keyList_eq, viewOf]

/-- A section without APTPL has no keys, so that only a unit without keys looks like it. -/
theorem aptpl_of_shown {s₀ : SbdLu} (h : s.Base l) (hsound : Sound spi) (hspi : spi.Stores ks)
    (hshown : s₀.sectionView spi ks = s.view) : spi.aptpl = true ∨ l = [] := by
  by_cases haptpl : spi.aptpl = true
  · exact .inl haptpl
  · have hnum := hsound.none (Bool.eq_false_iff.mpr haptpl)
    have hks : ks = [] := List.length_eq_zero_iff.mp (hspi.numkeys.symm.trans hnum)
    have hregs := congrArg View.registrations hshown
    rw [view_registrations h, hks] at hregs
    exact .inr (List.map_eq_nil_iff.mp hregs.symm)

/-- What the section says decides, but for the type and scope of a unit without APTPL. -/
theorem Changed.sectionView_eq (h : s.Base l) (hit : it ∈ s.itList)
    (hc : Changed s kmem it cmd s₁) (hcase : spi.aptpl = true ∨ l = []) :
    s₁.sectionView spi ks = s.sectionView spi ks := by
  rcases hcase with haptpl | rfl
  · simp only [sectionView, haptpl, if_true]
  · obtain ⟨-, -, htype, hscope⟩ := hc.of_empty h hit
    rw [sectionView, sectionView, htype, hscope]

theorem Changed.view_lost (h : s.Inv []) (hit : it ∈ s.itList) (hc : Changed s kmem it cmd s₁)
    (haptpl : s.aptpl = true) (haptpl₁ : s₁.aptpl = true) :
    { s₁.viewOf [] with holder := if s₁.rsvdOne then some 0 else none } = s.view := by
  obtain ⟨hone, hall, htype, hscope⟩ := hc.of_empty h.base hit
  have hquiet : s.rsvdOne = false := by
    by_contra hset
    exact absurd (h.rsv.holder (Bool.eq_true_of_not_eq_false hset)) (by simp)
  rw [view, h.base.keyList_eq]
  simp only [viewOf, hone, hall, htype, hscope, haptpl, haptpl₁, hquiet, List.map_nil,
    Bool.false_eq_true, if_false]

/-- The view after a failed write that was read back, for a command that had changed the state to
`s₁`. -/
theorem Changed.metaWrite_view_iff (h : s.Inv l) (hit : it ∈ s.itList)
    (hc : Changed s kmem it cmd s₁) (haptpl : s₁.aptpl = true) (kept : SectionKept) :
    (s₁.metaWrite kmem (.failed kept true)).2.view = s.view ↔
      match s₁.keptSection kept with
      | some spi => s.Shows spi
      | none => s.aptpl = true ∧ s.keyList = [] := by
  obtain ⟨l₁, hp⟩ := hc.prepared h.base h.rsv hit
  have hinv : s₁.Inv l₁ := ⟨hp.base, hp.rsv, hp.disk ▸ h.disk⟩
  cases hkept : s₁.keptSection kept with
  | none =>
    rw [metaWrite_view_lost hp.base kmem hkept]
    constructor
    · intro hview
      have hregs := congrArg View.registrations hview
      rw [view_registrations h.base] at hregs
      rw [h.base.keyList_eq]
      exact ⟨(congrArg View.aptpl hview).symm.trans haptpl, List.map_eq_nil_iff.mp hregs.symm⟩
    · rintro ⟨hset, hempty⟩
      rw [h.base.keyList_eq] at hempty
      subst hempty
      exact hc.view_lost h hit hset haptpl
  | some spi =>
    have hsound := hinv.keptSection hkept
    constructor
    · intro hview
      obtain ⟨ks, hspi⟩ := hsound.stores
      rw [metaWrite_view hp.base kmem hkept hspi hsound] at hview
      have hcase := aptpl_of_shown h.base hsound hspi hview
      exact ⟨ks, hspi, (hc.sectionView_eq h.base hit hcase).symm.trans hview⟩
    · rintro ⟨ks, hspi, hshown⟩
      rw [metaWrite_view hp.base kmem hkept hspi hsound]
      have hcase := aptpl_of_shown h.base hsound hspi hshown
      exact (hc.sectionView_eq h.base hit hcase).trans hshown

theorem Prepared.keptSection (hp : Prepared s s₁ cmd l₁) (generation : Nat)
    (kept : SectionKept) :
    { s₁ with disk := s.disk, prGeneration := generation : SbdLu }.keptSection kept =
      s₁.keptSection kept := by
  cases kept with
  | old => exact hp.disk.symm
  | new => exact congrArg some (s₁.metaSection_counted s.disk generation)
  | lost => rfl

theorem failed_unchanged_iff {io : MetaIo} (h : s.Inv l) (hit : it ∈ s.itList)
    (hids : s.IdsReadable it cmd) (hfail : (s.handlePgrOutData kmem io it cmd).1 ≠ .good) :
    (s.handlePgrOutData kmem io it cmd).2.view = s.view ↔
      (s.handlePgrOutData kmem .ok it cmd).1 ≠ .good ∨
        s.WriteKept (s.handlePgrOutData kmem .ok it cmd).2 io := by
  have hout := outcome_handlePgrOutData h.base h.rsv hids kmem io
  generalize s.handlePgrOutData kmem io it cmd = out at hout hfail
  generalize s.handlePgrOutData kmem .ok it cmd = outOk at hout
  cases hout with
  | refused => exact ⟨fun _ => .inl hfail, fun _ => rfl⟩
  | counted | released => exact absurd rfl hfail
  | @written s₁ counts hc =>
    obtain ⟨l₁, hp⟩ := hc.prepared h.base h.rsv hit
    by_cases haptpl : s₁.aptpl = true
    · cases io with
      | ok =>
        rw [finish_ok] at hfail
        exact absurd rfl hfail
      | failed kept reload =>
        rw [finish_failed haptpl, finish_ok]
        simp only [ne_eq, not_true_eq_false, false_or]
        cases reload with
        | false =>
          rw [metaWrite_unread]
          rfl
        | true => rw [hc.metaWrite_view_iff h hit haptpl kept, WriteKept, hp.keptSection]
    · exact absurd (finish_unwritten (Bool.eq_false_iff.mpr haptpl) kmem io counts) hfail

end Kept

/-- With APTPL, and the section of the state on disk, a failed write changes nothing. -/
theorem Persistent.writeKept (h : s.Persistent) (haptpl : s.aptpl = true) (written : SbdLu) :
    s.WriteKept written (.failed .old true) := by
  obtain ⟨l, hinv⟩ := h.inv
  have hstores := stores_metaSection hinv.base
  rw [if_pos haptpl] at hstores
  have hkept : { written with disk := s.disk : SbdLu }.keptSection .old = some s.metaSection :=
    h.synced haptpl
  rw [WriteKept, hkept]
  refine ⟨_, hstores, ?_⟩
  rw [sectionView_metaSection s hinv.base hinv.rsv haptpl fun key _ => h.whole key, view,
    hinv.base.keyList_eq]

end SbdLu

end ClusterZfs

import ClusterZfs.Pgr.Base

/-! Nexuses that come, look for their key and go, and resets of the unit. -/
namespace ClusterZfs

namespace SbdLu

variable {s : SbdLu} {l : List KeyPtr} {key : KeyPtr} {it : ItPtr}

/- The nexus is given the key that `sbd_pgr_initialize_it` has found for it. -/
def attach (s : SbdLu) (it : ItPtr) (key : KeyPtr) : SbdLu :=
  let k := s.keys key
  let mine := ¬ k.allTgPt ∨
    (s.rsvholder = key ∧ devidIdent (s.its it).lport.bytes = devidIdent k.lptId)
  (if mine then s.setKey key { k with keyIt := it } else s).setKeyPtr it key

/- A key that a nexus may still be given. -/
def Open (s : SbdLu) (key : KeyPtr) : Prop := (s.keys key).allTgPt = true ∨ (s.keys key).keyIt = 0

instance (s : SbdLu) : DecidablePred s.Open := fun key =>
  inferInstanceAs (Decidable ((s.keys key).allTgPt = true ∨ (s.keys key).keyIt = 0))

def Matches (s : SbdLu) (it : ItPtr) (key : KeyPtr) : Bool :=
  pgrKeyCompare (s.keys key) (some (s.its it).lport.bytes) (s.its it).rport.bytes

/- The first open key of the list that the nexus matches. -/
def openKeyFor (s : SbdLu) (it : ItPtr) (l : List KeyPtr) : Option KeyPtr :=
  l.find? fun key => s.Open key ∧ s.Matches it key

theorem initializeItLoop_eq (s : SbdLu) (it : ItPtr) (l : List KeyPtr) (hasIt : Bool) :
    initializeItLoop it l { s with allKeysHasIt := hasIt } =
      match s.openKeyFor it l with
      | some key => { s with allKeysHasIt := false }.attach it key
      | none => { s with allKeysHasIt := hasIt && !l.any fun key => s.Open key } := by
  induction l generalizing hasIt with
  | nil => simp [initializeItLoop, openKeyFor]
  | cons key rest ih =>
    by_cases hopen : s.Open key
    · have hskip : ¬ (¬ (s.keys key).allTgPt = true ∧ (s.keys key).keyIt ≠ 0) := by
        rintro ⟨hone, hown⟩
        rcases hopen with hall | hnone
        · exact hone hall
        · exact hown hnone
      rw [initializeItLoop]
      simp only [if_neg hskip]
      by_cases hmatch : s.Matches it key = true
      · rw [openKeyFor, List.find?_cons_of_pos (by simp [hopen, hmatch])]
        exact if_neg (not_not.mpr hmatch)
      · rw [openKeyFor, List.find?_cons_of_neg (by simp [hmatch])]
        refine (if_pos hmatch).trans ((ih false).trans ?_)
        simp only [List.any_cons, decide_eq_true hopen, Bool.true_or, Bool.not_true,
          Bool.and_false, Bool.false_and]
        rfl
    · have hskip : ¬ (s.keys key).allTgPt = true ∧ (s.keys key).keyIt ≠ 0 := not_or.mp hopen
      rw [initializeItLoop]
      simp only [if_pos hskip]
      rw [openKeyFor, List.find?_cons_of_neg (by simp [hopen]), ih, openKeyFor]
      simp [decide_eq_false hopen]

/- Whether the key remembers the nexus that is given it. -/
def Mine (s : SbdLu) (it : ItPtr) (key : KeyPtr) : Prop :=
  ¬ (s.keys key).allTgPt ∨
    (s.rsvholder = key ∧ devidIdent (s.its it).lport.bytes = devidIdent (s.keys key).lptId)

instance (s : SbdLu) (it : ItPtr) (key : KeyPtr) : Decidable (s.Mine it key) :=
  inferInstanceAs (Decidable (¬ (s.keys key).allTgPt ∨
    (s.rsvholder = key ∧ devidIdent (s.its it).lport.bytes = devidIdent (s.keys key).lptId)))

theorem attach_eq (s : SbdLu) (it : ItPtr) (key : KeyPtr) :
    s.attach it key = { s with
      keys := Function.update s.keys key
        { s.keys key with keyIt := if s.Mine it key then it else (s.keys key).keyIt }
      its := Function.update s.its it { s.its it with keyPtr := key } } := by
  by_cases hmine : s.Mine it key
  · rw [if_pos hmine]
    exact congrArg (setKeyPtr · it key) (if_pos hmine)
  · rw [if_neg hmine, Function.update_eq_self]
    exact congrArg (setKeyPtr · it key) (if_neg hmine)

theorem attach_owner (s : SbdLu) (it : ItPtr) (key key' : KeyPtr) :
    ((s.attach it key).keys key').keyIt =
      if key' = key ∧ s.Mine it key then it else (s.keys key').keyIt := by
  rw [attach_eq]
  obtain rfl | hkey := eq_or_ne key' key <;> simp [*]

theorem attach_key (s : SbdLu) (it : ItPtr) (key key' : KeyPtr) :
    (s.attach it key).keys key' =
      { s.keys key' with keyIt := ((s.attach it key).keys key').keyIt } := by
  rw [attach_eq]
  obtain rfl | hkey := eq_or_ne key' key <;> simp [*]

theorem attach_ptr (s : SbdLu) (it i : ItPtr) (key : KeyPtr) :
    ((s.attach it key).its i).keyPtr = if i = it then key else (s.its i).keyPtr := by
  rw [attach_eq]
  obtain rfl | hit := eq_or_ne i it <;> simp [*]

theorem Base.attach (h : s.Base l) (hkey : key ∈ l) (hopen : s.Open key) :
    (s.attach it key).Base l := by
  have hitList : (s.attach it key).itList = s.itList := by rw [attach_eq]
  refine ⟨by rw [attach_eq]; exact h.isList, by rw [attach_eq]; exact h.alive, fun i hi => ?_,
    fun i hi hmem hone => ?_, hitList ▸ h.nexus, fun key' hkey' => ?_⟩
  · rw [attach_ptr]
    split
    · exact .inr hkey
    · exact h.ptrs i (hitList ▸ hi)
  · rw [hitList] at hi
    rw [attach_ptr] at hmem hone ⊢
    rw [attach_key] at hone
    rw [attach_owner]
    by_cases hi' : i = it
    · rw [if_pos hi'] at hone ⊢
      rw [if_pos ⟨rfl, .inl (Bool.eq_false_iff.mp hone)⟩, hi']
    · rw [if_neg hi'] at hmem hone ⊢
      have hown := h.owner i hi hmem hone
      -- A single key that is still open has no owner, so nobody else points at it.
      have hne : (s.its i).keyPtr ≠ key := by
        intro heq
        rw [heq] at hown hone
        rcases hopen with hall | hnone
        · exact absurd (hall.symm.trans hone) (by decide)
        · exact h.nexus i hi (hown.symm.trans hnone)
      rw [if_neg fun hcase => hne hcase.1, hown]
  · rw [attach_key]
    exact (h.storable key' hkey').owner _

theorem Base.initializeIt (h : s.Base l) : (s.initializeIt it).Base l := by
  rw [SbdLu.initializeIt]
  split
  · exact h
  · rw [initializeItLoop_eq, h.keyList_eq]
    cases hfind : s.openKeyFor it l with
    | none => exact { h with }
    | some key =>
      have hkey := List.mem_of_find?_eq_some hfind
      have hopen := List.find?_some hfind
      simp only [Bool.decide_and, Bool.and_eq_true, decide_eq_true_eq] at hopen
      exact Base.attach { h with } hkey hopen.1

/- The nexus looks for its key again. -/
def unchecked (s : SbdLu) (it : ItPtr) : SbdLu :=
  { s with its := Function.update s.its it { s.its it with pgrCheck := false } }

theorem unchecked_its (s : SbdLu) (it i : ItPtr) : (s.unchecked it).its i =
    { s.its i with pgrCheck := ((s.unchecked it).its i).pgrCheck } := by
  obtain rfl | hi := eq_or_ne i it <;> simp [unchecked, *]

theorem kept_unchecked (s : SbdLu) (it : ItPtr) : Kept s (s.unchecked it) :=
  { Kept.refl s with ptr := fun i => by rw [unchecked_its] }

theorem Base.newTask (h : s.Base l) : (s.newTask it).Base l := by
  rw [SbdLu.newTask]
  split
  · exact (h.kept (kept_unchecked s it)).initializeIt
  · exact h

/- A nexus that has come in and has not looked for its key yet. -/
def joined (s : SbdLu) (it : ItPtr) (lport : Devid) (rport : Tptid) : SbdLu :=
  { s with
    its := Function.update s.its it ⟨lport, rport, 0, false⟩
    itList := it :: s.itList }

theorem joined_self (s : SbdLu) (it : ItPtr) (lport : Devid) (rport : Tptid) :
    (s.joined it lport rport).its it = ⟨lport, rport, 0, false⟩ := Function.update_self ..

theorem joined_of_ne (s : SbdLu) (lport : Devid) (rport : Tptid) {i : ItPtr} (h : i ≠ it) :
    (s.joined it lport rport).its i = s.its i := Function.update_of_ne h ..

theorem Base.joined (h : s.Base l) (hnull : it ≠ 0) (lport : Devid) (rport : Tptid) :
    (s.joined it lport rport).Base l := by
  refine ⟨h.isList, h.alive, fun i hi => ?_, fun i hi hmem hone => ?_, fun i hi => ?_, h.storable⟩
  · obtain rfl | heq := eq_or_ne i it
    · exact .inl (by rw [joined_self])
    · rw [joined_of_ne s lport rport heq]
      exact h.ptrs i (List.mem_of_ne_of_mem heq hi)
  · obtain rfl | heq := eq_or_ne i it
    · rw [joined_self] at hmem
      exact absurd rfl (h.ne_zero 0 hmem)
    · rw [joined_of_ne s lport rport heq] at hmem hone ⊢
      exact h.owner i (List.mem_of_ne_of_mem heq hi) hmem hone
  · rcases List.mem_cons.mp hi with rfl | hi
    · exact hnull
    · exact h.nexus i hi

theorem Base.login (h : s.Base l) (hnull : it ≠ 0) (lport : Devid) (rport : Tptid) :
    (s.login it lport rport).Base l := (h.joined hnull lport rport).initializeIt

theorem removeItHandle_key (s : SbdLu) (it : ItPtr) (key : KeyPtr) :
    (s.removeItHandle it).keys key = { s.keys key with
      keyIt := if key = (s.its it).keyPtr ∧ key ≠ 0 ∧ (s.keys key).keyIt = it then 0
        else (s.keys key).keyIt } := by
  simp only [SbdLu.removeItHandle]
  by_cases hmine : (s.its it).keyPtr ≠ 0 ∧ (s.keys (s.its it).keyPtr).keyIt = it
  · simp only [if_pos hmine, setKey]
    by_cases hkey : key = (s.its it).keyPtr
    · subst hkey
      rw [Function.update_self, if_pos ⟨rfl, hmine⟩]
    · rw [Function.update_of_ne hkey, if_neg fun h => hkey h.1]
  · rw [if_neg hmine, if_neg]
    rintro ⟨rfl, hown⟩
    exact hmine hown

theorem removeItHandle_rest (s : SbdLu) (it : ItPtr) :
    s.removeItHandle it = { s with
      keys := (s.removeItHandle it).keys
      itList := s.itList.filter (· ≠ it)
      allKeysHasIt := (s.removeItHandle it).allKeysHasIt } := by
  simp only [SbdLu.removeItHandle]
  split <;> rfl

theorem Base.removeItHandle (h : s.Base l) : (s.removeItHandle it).Base l := by
  have hits : (s.removeItHandle it).its = s.its := by rw [removeItHandle_rest]
  have hmem : ∀ i ∈ (s.removeItHandle it).itList, i ∈ s.itList ∧ i ≠ it := by
    intro i hi
    rw [removeItHandle_rest] at hi
    simpa using hi
  refine ⟨?_, ?_, fun i hi => ?_, fun i hi hptr hone => ?_, fun i hi => ?_, fun key hkey => ?_⟩
  · rw [removeItHandle_rest]
    exact h.isList
  · rw [removeItHandle_rest]
    exact h.alive
  · rw [hits]
    exact h.ptrs i (hmem i hi).1
  · rw [hits] at hptr hone ⊢
    rw [removeItHandle_key] at hone ⊢
    have hown := h.owner i (hmem i hi).1 hptr hone
    rw [if_neg, hown]
    rintro ⟨-, -, hgone⟩
    exact (hmem i hi).2 (hown.symm.trans hgone)
  · exact h.nexus i (hmem i hi).1
  · rw [removeItHandle_key]
    exact (h.storable key hkey).owner _

theorem Base.pgrReset (h : s.Base l) : s.pgrReset.Base (if s.aptpl then l else []) := by
  rw [SbdLu.pgrReset]
  split
  · exact h
  · exact { h.keylistDealloc with }

section Attended

/- A step of the nexuses: keys only change in who owns them. -/
structure Attended (s s' : SbdLu) : Prop where
  keys : ∀ key, s'.keys key = { s.keys key with keyIt := (s'.keys key).keyIt }
  rest : s' = { s with
    keys := s'.keys, its := s'.its, itList := s'.itList, allKeysHasIt := s'.allKeysHasIt }

theorem attended_initializeIt (s : SbdLu) (it : ItPtr) : Attended s (s.initializeIt it) := by
  rw [initializeIt]
  split
  · exact ⟨fun _ => rfl, rfl⟩
  · rw [initializeItLoop_eq]
    cases s.openKeyFor it s.keyList with
    | none => exact ⟨fun _ => rfl, rfl⟩
    | some key =>
      exact ⟨attach_key { s with allKeysHasIt := false } it key, by simp only [attach_eq]⟩

theorem attended_newTask (s : SbdLu) (it : ItPtr) : Attended s (s.newTask it) := by
  rw [newTask]
  split
  · exact { attended_initializeIt (s.unchecked it) it with }
  · exact ⟨fun _ => rfl, rfl⟩

theorem attended_login (s : SbdLu) (it : ItPtr) (lport : Devid) (rport : Tptid) :
    Attended s (s.login it lport rport) :=
  { attended_initializeIt (s.joined it lport rport) it with }

theorem attended_removeItHandle (s : SbdLu) (it : ItPtr) : Attended s (s.removeItHandle it) :=
  ⟨fun key => by rw [removeItHandle_key], by rw [removeItHandle_rest]⟩

end Attended

end SbdLu

end ClusterZfs

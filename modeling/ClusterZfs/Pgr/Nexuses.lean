import ClusterZfs.Pgr.System

/-! Which nexus a key is for. Keys that are for one nexus each, and the nexuses that point at
them. -/
namespace ClusterZfs

namespace SbdLu

variable {s s' s₁ : SbdLu} {l l' : List KeyPtr} {key : KeyPtr} {it : ItPtr} {cmd : ProutCmd}
  {kmem : Kmem} {n : NexusName}

def name (s : SbdLu) (it : ItPtr) : NexusName := nexusName (s.its it).lport (s.its it).rport

/- The nexuses that a key is for: those of its initiator port with its target port, or with any. -/
def Covers (k : PgrKey) (n : NexusName) : Prop :=
  tptidName k.rptId = n.2 ∧ (k.allTgPt = true ∨ devidIdent k.lptId = n.1)

theorem pgrKeyCompare_iff (k : PgrKey) (lpt : Devid) (rpt : Tptid) :
    pgrKeyCompare k (some lpt.bytes) rpt.bytes = true ↔ Covers k (nexusName lpt rpt) := by
  simp only [pgrKeyCompare, Covers, nexusName, decide_eq_true_eq, Option.mem_def,
    Option.some.injEq, forall_eq']
  exact and_congr eq_comm (or_congr_right eq_comm)

theorem matches_iff (s : SbdLu) (it : ItPtr) (key : KeyPtr) :
    s.Matches it key = true ↔ Covers (s.keys key) (s.name it) :=
  pgrKeyCompare_iff ..

theorem Covers.single {k : PgrKey} (h : Covers k n) (hone : k.allTgPt = false) :
    n = (devidIdent k.lptId, tptidName k.rptId) := by
  obtain ⟨hrpt, hall | hlpt⟩ := h
  · exact absurd (hall.symm.trans hone) (by decide)
  · exact Prod.ext hlpt.symm hrpt.symm

/- No two sessions of one nexus, no nexus with two keys; a key for one target port that has a
nexus is the one this nexus points at, and a nexus that is not yet with its key is to look for it,
but for `skip`, which is about to. -/
structure PlacedBut (s : SbdLu) (l : List KeyPtr) (skip : ItPtr) : Prop where
  names : ∀ i ∈ s.itList, ∀ j ∈ s.itList, s.name i = s.name j → i = j
  disjoint : ∀ k ∈ l, ∀ k' ∈ l, ∀ n, Covers (s.keys k) n → Covers (s.keys k') n → k = k'
  covered : ∀ i ∈ s.itList, (s.its i).keyPtr ≠ 0 → Covers (s.keys (s.its i).keyPtr) (s.name i)
  owned : ∀ k ∈ l, (s.keys k).allTgPt = false → (s.keys k).keyIt ≠ 0 →
    (s.keys k).keyIt ∈ s.itList ∧ (s.its (s.keys k).keyIt).keyPtr = k
  pending : ∀ k ∈ l, (s.keys k).allTgPt = false → (s.keys k).keyIt = 0 →
    ∀ i ∈ s.itList, i ≠ skip → Covers (s.keys k) (s.name i) → (s.its i).pgrCheck = true
  hasIt : s.allKeysHasIt = true → ∀ k ∈ l, ¬ s.Open k

/- The reservation of one holder is with the nexus it was given to. -/
structure HeldBy (s : SbdLu) (n : NexusName) (skip : ItPtr) : Prop where
  covers : Covers (s.keys s.rsvholder) n
  port : devidIdent (s.keys s.rsvholder).lptId = n.1
  owner : (s.keys s.rsvholder).keyIt ≠ 0 → (s.keys s.rsvholder).keyIt ∈ s.itList ∧
    s.name (s.keys s.rsvholder).keyIt = n ∧
    (s.its (s.keys s.rsvholder).keyIt).keyPtr = s.rsvholder
  pending : (s.keys s.rsvholder).keyIt = 0 →
    ∀ i ∈ s.itList, i ≠ skip → s.name i = n → (s.its i).pgrCheck = true

def HeldBut (s : SbdLu) (skip : ItPtr) : Prop :=
  s.rsvdOne = true → ∃ n t, s.granted = some (n, t) ∧ s.HeldBy n skip

theorem HeldBut.map {skip skip' : ItPtr} (h : s.HeldBut skip) (hone : s'.rsvdOne = s.rsvdOne)
    (hgranted : s'.granted = s.granted)
    (hby : s.rsvdOne = true → ∀ n, s.HeldBy n skip → s'.HeldBy n skip') : s'.HeldBut skip' := by
  intro hset
  rw [hone] at hset
  obtain ⟨n, t, hn, hheld⟩ := h hset
  exact ⟨n, t, hgranted.trans hn, hby hset n hheld⟩

/- No nexus has the handle 0. -/
abbrev Placed (s : SbdLu) (l : List KeyPtr) : Prop := s.PlacedBut l 0
abbrev Held (s : SbdLu) : Prop := s.HeldBut 0

/- A change that leaves the data of the keys in `l'` but for their values, and the nexuses but for
pointers that are taken away. -/
structure Steady (s s' : SbdLu) (l' : List KeyPtr) : Prop where
  itList : s'.itList = s.itList
  name : ∀ i, s'.name i = s.name i
  key : ∀ k ∈ l', s'.keys k = { s.keys k with pgrKey := (s'.keys k).pgrKey }
  ptr : ∀ i ∈ s.itList, (s'.its i).keyPtr = (s.its i).keyPtr ∨ (s'.its i).keyPtr = 0
  check : ∀ i, (s.its i).pgrCheck = true → (s'.its i).pgrCheck = true
  hasIt : s'.allKeysHasIt = true → s.allKeysHasIt = true

theorem covers_congr {k k' : PgrKey} (h : k' = { k with pgrKey := k'.pgrKey }) :
    Covers k' n ↔ Covers k n := by
  rw [h]
  rfl

theorem Placed.steady (h : s.Placed l) (hs : Steady s s' l') (hsub : ∀ k ∈ l', k ∈ l)
    (hb : s'.Base l') (hown : ∀ k ∈ l', (s.keys k).allTgPt = false → (s.keys k).keyIt ≠ 0 →
      (s'.its (s.keys k).keyIt).keyPtr = k) : s'.Placed l' := by
  constructor
  · simpa only [hs.itList, hs.name] using h.names
  · intro k hk k' hk' n hc hc'
    rw [covers_congr (hs.key k hk)] at hc
    rw [covers_congr (hs.key k' hk')] at hc'
    exact h.disjoint k (hsub k hk) k' (hsub k' hk') n hc hc'
  · intro i hi hne
    have hmem : (s'.its i).keyPtr ∈ l' := hb.mem_of_ptr hi hne
    rw [hs.itList] at hi
    rw [covers_congr (hs.key _ hmem), hs.name]
    rcases hs.ptr i hi with hptr | hzero
    · rw [hptr] at hne ⊢
      exact h.covered i hi hne
    · exact absurd hzero hne
  · intro k hk hone hne
    rw [hs.key k hk] at hone hne ⊢
    rw [hs.itList]
    exact ⟨(h.owned k (hsub k hk) hone hne).1, hown k hk hone hne⟩
  · intro k hk hone hzero i hi hskip hc
    rw [hs.key k hk] at hone hzero
    rw [covers_congr (hs.key k hk), hs.name] at hc
    rw [hs.itList] at hi
    exact hs.check i (h.pending k (hsub k hk) hone hzero i hi hskip hc)
  · intro hset k hk hopen
    refine h.hasIt (hs.hasIt hset) k (hsub k hk) ?_
    rw [Open, hs.key k hk] at hopen
    exact hopen

theorem Held.steady (h : s.Held) (hs : Steady s s' l') (hone : s'.rsvdOne = true →
      s.rsvdOne = true ∧ s'.rsvholder = s.rsvholder ∧ s'.granted = s.granted ∧ s.rsvholder ∈ l' ∧
      ∀ i ∈ s.itList, (s.its i).keyPtr = s.rsvholder → (s'.its i).keyPtr = s.rsvholder) :
    s'.Held := by
  intro hset
  obtain ⟨hset, hholder, hgranted, hmem, hptr⟩ := hone hset
  obtain ⟨n, t, hn, hheld⟩ := h hset
  refine ⟨n, t, hgranted.trans hn, ?_⟩
  have hkey := hs.key s.rsvholder hmem
  constructor
  · rw [hholder, covers_congr hkey]
    exact hheld.covers
  · rw [hholder, hkey]
    exact hheld.port
  · rw [hholder, hkey, hs.itList, hs.name]
    intro hne
    obtain ⟨hin, hname, hp⟩ := hheld.owner hne
    exact ⟨hin, hname, hptr _ hin hp⟩
  · rw [hholder, hkey, hs.itList]
    intro hzero i hi hskip hname
    rw [hs.name] at hname
    exact hs.check i (hheld.pending hzero i hi hskip hname)

section Sessions

theorem attach_its (s : SbdLu) (it i : ItPtr) (key : KeyPtr) :
    (s.attach it key).its i =
      { s.its i with keyPtr := ((s.attach it key).its i).keyPtr } := by
  rw [attach_eq]
  obtain rfl | hit := eq_or_ne i it <;> simp [*]

theorem attach_name (s : SbdLu) (it i : ItPtr) (key : KeyPtr) :
    (s.attach it key).name i = s.name i := by
  rw [name, attach_its]
  rfl

theorem attach_itList (s : SbdLu) (it : ItPtr) (key : KeyPtr) :
    (s.attach it key).itList = s.itList := by rw [attach_eq]

theorem attach_covers (s : SbdLu) (it : ItPtr) (key k : KeyPtr) :
    Covers ((s.attach it key).keys k) n ↔ Covers (s.keys k) n := by
  rw [attach_key]
  rfl

theorem attach_allTgPt (s : SbdLu) (it : ItPtr) (key k : KeyPtr) :
    ((s.attach it key).keys k).allTgPt = (s.keys k).allTgPt := by rw [attach_key]

/-- A nexus that points at a key which is not the one it is given points at a key that is not for
it. -/
theorem PlacedBut.ptr_ne {k : KeyPtr} (h : s.PlacedBut l it) (hit : it ∈ s.itList) (hkey : key ∈ l)
    (hcov : Covers (s.keys key) (s.name it)) (hk : k ∈ l) (hne : k ≠ key)
    (hzero : k ≠ 0) : (s.its it).keyPtr ≠ k := by
  intro hptr
  have hcov' := h.covered it hit (hptr ▸ hzero)
  rw [hptr] at hcov'
  exact hne (h.disjoint k hk key hkey _ hcov' hcov)

theorem PlacedBut.attach (h : s.PlacedBut l it) (hb : s.Base l) (hit : it ∈ s.itList)
    (hkey : key ∈ l) (hcov : Covers (s.keys key) (s.name it)) (hasIt : s.allKeysHasIt = false) :
    (s.attach it key).Placed l := by
  have hmine : (s.keys key).allTgPt = false → s.Mine it key :=
    fun hone => .inl (Bool.eq_false_iff.mp hone)
  constructor
  · simpa only [attach_itList, attach_name] using h.names
  · simpa only [attach_covers] using h.disjoint
  · intro i hi hne
    rw [attach_itList] at hi
    rw [attach_covers, attach_name]
    rw [attach_ptr] at hne ⊢
    split
    · rename_i heq
      rw [heq]
      exact hcov
    · rename_i heq
      rw [if_neg heq] at hne
      exact h.covered i hi hne
  · intro k hk hone hne
    rw [attach_allTgPt] at hone
    rw [attach_owner] at hne ⊢
    rw [attach_itList, attach_ptr]
    by_cases heq : k = key
    · subst heq
      rw [if_pos ⟨rfl, hmine hone⟩, if_pos rfl]
      exact ⟨hit, rfl⟩
    · rw [if_neg fun hcase => heq hcase.1] at hne ⊢
      obtain ⟨hin, hptr⟩ := h.owned k hk hone hne
      refine ⟨hin, ?_⟩
      rw [if_neg, hptr]
      intro hself
      rw [hself] at hptr
      exact h.ptr_ne hit hkey hcov hk heq (hb.ne_zero k hk) hptr
  · intro k hk hone hzero i hi hskip hc
    rw [attach_allTgPt] at hone
    rw [attach_owner] at hzero
    rw [attach_itList] at hi
    rw [attach_covers, attach_name] at hc
    rw [attach_its]
    have hne : k ≠ key := by
      intro heq
      subst heq
      rw [if_pos ⟨rfl, hmine hone⟩] at hzero
      exact hb.nexus it hit hzero
    rw [if_neg fun hcase => hne hcase.1] at hzero
    refine h.pending k hk hone hzero i hi ?_ hc
    intro hself
    rw [hself] at hc
    exact hne (h.disjoint k hk key hkey _ hc hcov)
  · intro hset
    rw [attach_eq] at hset
    exact absurd (hasIt.symm.trans hset) (by decide)

theorem HeldBut.attach (h : s.HeldBut it) (hp : s.PlacedBut l it) (hb : s.Base l) (hr : s.Rsv l)
    (hit : it ∈ s.itList) (hkey : key ∈ l) (hcov : Covers (s.keys key) (s.name it)) :
    (s.attach it key).Held := by
  have hholder : (s.attach it key).rsvholder = s.rsvholder := by rw [attach_eq]
  refine h.map (by rw [attach_eq]) (by rw [attach_eq]) fun hone n hheld => ?_
  have hmem := hr.holder hone
  -- The nexus that a holder's key takes up is the one the reservation was given to.
  have hname : s.rsvholder = key → s.Mine it key → s.name it = n := by
    rintro rfl hmine
    rcases hmine with hsingle | ⟨-, hport⟩
    · have hone := Bool.eq_false_iff.mpr hsingle
      rw [hcov.single hone, ← hheld.covers.single hone]
    · exact Prod.ext (hport.trans hheld.port) (hcov.1.symm.trans hheld.covers.1)
  constructor
  · rw [hholder, attach_covers]
    exact hheld.covers
  · rw [hholder, attach_key]
    exact hheld.port
  · rw [hholder, attach_owner, attach_itList, attach_name, attach_ptr]
    intro hne
    by_cases hmine : s.rsvholder = key ∧ s.Mine it key
    · rw [if_pos hmine, if_pos rfl]
      exact ⟨hit, hname hmine.1 hmine.2, hmine.1.symm⟩
    · rw [if_neg hmine] at hne ⊢
      obtain ⟨hin, hn', hptr⟩ := hheld.owner hne
      refine ⟨hin, hn', ?_⟩
      split
      · rename_i hself
        rw [hself] at hptr
        by_contra hother
        exact hp.ptr_ne hit hkey hcov hmem (Ne.symm hother) (hb.ne_zero _ hmem) hptr
      · exact hptr
  · rw [hholder, attach_owner, attach_itList]
    intro hzero i hi hskip hname'
    rw [attach_name] at hname'
    rw [attach_its]
    have hmine : ¬ (s.rsvholder = key ∧ s.Mine it key) := by
      intro hmine
      rw [if_pos hmine] at hzero
      exact hb.nexus it hit hzero
    rw [if_neg hmine] at hzero
    refine hheld.pending hzero i hi ?_ hname'
    rintro rfl
    have hcov' := hheld.covers
    rw [← hname'] at hcov'
    have heq := hp.disjoint _ hmem key hkey _ hcov' hcov
    refine hmine ⟨heq, .inr ⟨heq, ?_⟩⟩
    rw [← heq, hheld.port, ← hname']
    rfl

/- Both parts, for the nexus that looks for its key. -/
structure Seated (s : SbdLu) (l : List KeyPtr) (skip : ItPtr) : Prop where
  placed : s.PlacedBut l skip
  held : s.HeldBut skip

/-- With its flag taken down, or just logged in, the nexus is the one that may be without its
key; afterwards none is. -/
theorem Seated.initializeIt (h : s.Seated l it) (hb : s.Base l) (hr : s.Rsv l)
    (hit : it ∈ s.itList) : (s.initializeIt it).Seated l 0 := by
  -- Without an open key for the nexus there is nothing it could be without.
  have hnone : (∀ k ∈ l, s.Open k → ¬ Covers (s.keys k) (s.name it)) →
      ∀ hasIt, (hasIt = true → ∀ k ∈ l, ¬ s.Open k) →
      { s with allKeysHasIt := hasIt : SbdLu }.Seated l 0 := by
    intro hopen hasIt hset
    refine ⟨{ h.placed with pending := ?_, hasIt := hset }, h.held.map rfl rfl
      fun hone n hheld => { hheld with pending := ?_ }⟩
    · intro k hk hone hzero i hi _ hc
      refine h.placed.pending k hk hone hzero i hi ?_ hc
      rintro rfl
      exact hopen k hk (.inr hzero) hc
    · intro hzero i hi _ hname
      refine hheld.pending hzero i hi ?_ hname
      rintro rfl
      refine hopen _ (hr.holder hone) (.inr hzero) ?_
      have hname' : s.name i = n := hname
      rw [hname']
      exact hheld.covers
  rw [SbdLu.initializeIt]
  split
  · rename_i hset
    exact hnone (fun k hk hopen => absurd hopen (h.placed.hasIt hset k hk)) s.allKeysHasIt
      h.placed.hasIt
  · rw [initializeItLoop_eq, hb.keyList_eq]
    cases hfind : s.openKeyFor it l with
    | none =>
      have hfree := List.find?_eq_none.mp hfind
      refine hnone (fun k hk hopen hc => ?_) _ fun hset k hk hopen => ?_
      · have hmatch := (s.matches_iff it k).mpr hc
        exact hfree k hk (by simp [hopen, hmatch])
      · simp only [Bool.true_and, Bool.not_eq_true', List.any_eq_false, decide_eq_true_eq] at hset
        exact hset k hk hopen
    | some key =>
      have hkey := List.mem_of_find?_eq_some hfind
      have hfound := List.find?_some hfind
      simp only [Bool.decide_and, Bool.and_eq_true, decide_eq_true_eq] at hfound
      have hcov := (s.matches_iff it key).mp hfound.2
      have hp : { s with allKeysHasIt := false : SbdLu }.PlacedBut l it :=
        { h.placed with hasIt := (absurd · Bool.false_ne_true) }
      have hh : { s with allKeysHasIt := false : SbdLu }.HeldBut it :=
        h.held.map rfl rfl fun _ _ hheld => { hheld with }
      exact ⟨hp.attach { hb with } hit hkey hcov rfl,
        hh.attach hp { hb with } { hr with } hit hkey hcov⟩

theorem Seated.uncheck (h : s.Seated l 0) (hb : s.Base l) (it : ItPtr) :
    (s.unchecked it).Seated l it := by
  have hname : ∀ i, (s.unchecked it).name i = s.name i := fun i => by
    rw [name, unchecked_its]
    rfl
  have hptr := (kept_unchecked s it).ptr
  have hcheck : ∀ {i}, i ≠ it → ((s.unchecked it).its i).pgrCheck = (s.its i).pgrCheck :=
    fun hi => by simp [unchecked, hi]
  have hp := h.placed
  refine ⟨{ hp with names := ?_, covered := ?_, owned := ?_, pending := ?_ },
    h.held.map rfl rfl fun _ n hheld => { hheld with owner := ?_, pending := ?_ }⟩
  · simp only [hname]
    exact hp.names
  · simp only [hptr, hname]
    exact hp.covered
  · simp only [hptr]
    exact hp.owned
  · intro k hk hone hzero i hi hskip hc
    rw [hname] at hc
    rw [hcheck hskip]
    exact hp.pending k hk hone hzero i hi (hb.nexus i hi) hc
  · simp only [hname, hptr]
    exact hheld.owner
  · intro hzero i hi hskip hname'
    rw [hname] at hname'
    rw [hcheck hskip]
    exact hheld.pending hzero i hi (hb.nexus i hi) hname'

theorem Seated.newTask (h : s.Seated l 0) (hb : s.Base l) (hr : s.Rsv l) (hit : it ∈ s.itList) :
    (s.newTask it).Seated l 0 := by
  rw [SbdLu.newTask]
  split
  · exact (h.uncheck hb it).initializeIt (hb.kept (kept_unchecked s it)) { hr with } hit
  · exact h

theorem Seated.login (h : s.Seated l 0) (hb : s.Base l) (hr : s.Rsv l) (hnull : it ≠ 0)
    (hout : it ∉ s.itList) (lport : Devid) (rport : Tptid)
    (hnew : ∀ i ∈ s.itList, s.name i ≠ nexusName lport rport) :
    (s.login it lport rport).Seated l 0 := by
  have hne : ∀ i ∈ s.itList, i ≠ it := fun i hi => ne_of_mem_of_not_mem hi hout
  have hold : ∀ i ∈ s.itList, (s.joined it lport rport).its i = s.its i :=
    fun i hi => joined_of_ne s lport rport (hne i hi)
  have hname : ∀ i ∈ s.itList, (s.joined it lport rport).name i = s.name i := by
    intro i hi
    rw [SbdLu.name, hold i hi]
    rfl
  have hself : (s.joined it lport rport).name it = nexusName lport rport := by
    rw [SbdLu.name, joined_self]
  have hp := h.placed
  refine Seated.initializeIt (s := s.joined it lport rport) ⟨{ hp with
      names := ?_, covered := ?_, owned := ?_, pending := ?_ }, h.held.map rfl rfl
      fun _ n hheld => { hheld with owner := ?_, pending := ?_ }⟩
    (hb.joined hnull lport rport) { hr with } List.mem_cons_self
  · intro i hi j hj heq
    by_cases hi' : i = it <;> by_cases hj' : j = it
    · exact hi'.trans hj'.symm
    · have hj := List.mem_of_ne_of_mem hj' hj
      rw [hi', hself, hname j hj] at heq
      exact absurd heq.symm (hnew j hj)
    · have hi := List.mem_of_ne_of_mem hi' hi
      rw [hj', hself, hname i hi] at heq
      exact absurd heq (hnew i hi)
    · have hi := List.mem_of_ne_of_mem hi' hi
      have hj := List.mem_of_ne_of_mem hj' hj
      rw [hname i hi, hname j hj] at heq
      exact hp.names i hi j hj heq
  · intro i hi hptr
    rcases List.mem_cons.mp hi with rfl | hi
    · rw [joined_self] at hptr
      exact absurd rfl hptr
    · rw [hold i hi] at hptr ⊢
      rw [hname i hi]
      exact hp.covered i hi hptr
  · intro k hk hone hzero
    obtain ⟨hin, hptr⟩ := hp.owned k hk hone hzero
    exact ⟨List.mem_cons_of_mem _ hin, (congrArg ItData.keyPtr (hold _ hin)).trans hptr⟩
  · intro k hk hone hzero i hi hskip hc
    have hi' := List.mem_of_ne_of_mem hskip hi
    rw [hname i hi'] at hc
    rw [hold i hi']
    exact hp.pending k hk hone hzero i hi' (hb.nexus i hi') hc
  · intro hzero
    obtain ⟨hin, hn', hptr⟩ := hheld.owner hzero
    exact ⟨List.mem_cons_of_mem _ hin, (hname _ hin).trans hn',
      (congrArg ItData.keyPtr (hold _ hin)).trans hptr⟩
  · intro hzero i hi hskip hn'
    have hi' := List.mem_of_ne_of_mem hskip hi
    rw [hname i hi'] at hn'
    rw [hold i hi']
    exact hheld.pending hzero i hi' (hb.nexus i hi') hn'

theorem removeItHandle_hasIt (h : (s.removeItHandle it).allKeysHasIt = true) :
    s.allKeysHasIt = true ∧
      ¬ ((s.its it).keyPtr ≠ 0 ∧ (s.keys (s.its it).keyPtr).keyIt = it) := by
  simp only [SbdLu.removeItHandle] at h
  split at h
  · cases h
  · rename_i hkeep
    exact ⟨h, hkeep⟩

theorem Seated.removeItHandle (h : s.Seated l 0) (hb : s.Base l) (hr : s.Rsv l)
    (hit : it ∈ s.itList) : (s.removeItHandle it).Seated l 0 := by
  have hits : (s.removeItHandle it).its = s.its := by rw [removeItHandle_rest]
  have hname : ∀ i, (s.removeItHandle it).name i = s.name i := fun i => by
    rw [SbdLu.name, hits]
    rfl
  have hmem : ∀ i, i ∈ (s.removeItHandle it).itList ↔ i ∈ s.itList ∧ i ≠ it := by
    intro i
    rw [removeItHandle_rest]
    simp
  have hcov : ∀ k n, Covers ((s.removeItHandle it).keys k) n ↔ Covers (s.keys k) n := by
    intro k n
    rw [removeItHandle_key]
    rfl
  have hall : ∀ k, ((s.removeItHandle it).keys k).allTgPt = (s.keys k).allTgPt := fun k => by
    rw [removeItHandle_key]
  have hown : ∀ k, ((s.removeItHandle it).keys k).keyIt =
      if k = (s.its it).keyPtr ∧ k ≠ 0 ∧ (s.keys k).keyIt = it then 0 else (s.keys k).keyIt :=
    fun k => by rw [removeItHandle_key]
  have hp := h.placed
  refine ⟨⟨?_, ?_, ?_, ?_, ?_, ?_⟩, ?_⟩
  · intro i hi j hj heq
    rw [hname, hname] at heq
    exact hp.names i ((hmem i).mp hi).1 j ((hmem j).mp hj).1 heq
  · simpa only [hcov] using hp.disjoint
  · intro i hi hne
    rw [hits] at hne ⊢
    rw [hcov, hname]
    exact hp.covered i ((hmem i).mp hi).1 hne
  · intro k hk hone hne
    rw [hall] at hone
    rw [hown] at hne ⊢
    split at hne
    · exact absurd rfl hne
    · rename_i hkeep
      rw [if_neg hkeep, hits, hmem]
      obtain ⟨hin, hptr⟩ := hp.owned k hk hone hne
      refine ⟨⟨hin, fun hself => hkeep ⟨?_, hb.ne_zero k hk, hself⟩⟩, hptr⟩
      rw [← hself, hptr]
  · intro k hk hone hzero i hi hskip hc
    obtain ⟨hin, hne⟩ := (hmem i).mp hi
    rw [hall] at hone
    rw [hown] at hzero
    rw [hcov, hname] at hc
    rw [hits]
    split at hzero
    · -- The key was that of the nexus which leaves, and it is for no other.
      rename_i hmine
      have hc' := hp.covered it hit (hmine.1 ▸ hmine.2.1)
      rw [← hmine.1] at hc'
      refine absurd (hp.names i hin it hit ?_) hne
      rw [hc.single hone, hc'.single hone]
    · exact hp.pending k hk hone hzero i hin hskip hc
  · intro hset k hk hopen
    obtain ⟨hset, hkeep⟩ := removeItHandle_hasIt hset
    refine hp.hasIt hset k hk ?_
    rw [Open, hall, hown, if_neg] at hopen
    · exact hopen
    · rintro ⟨rfl, hmine⟩
      exact hkeep hmine
  · have hholder : (s.removeItHandle it).rsvholder = s.rsvholder := by rw [removeItHandle_rest]
    refine h.held.map (by rw [removeItHandle_rest]) (by rw [removeItHandle_rest])
      fun hone n hheld => ⟨?_, ?_, ?_, ?_⟩
    · rw [hholder, hcov]
      exact hheld.covers
    · rw [hholder, removeItHandle_key]
      exact hheld.port
    · rw [hholder, hown, hits, hname, hmem]
      intro hne
      split at hne
      · exact absurd rfl hne
      · rename_i hkeep
        rw [if_neg hkeep]
        obtain ⟨hin, hn', hptr⟩ := hheld.owner hne
        refine ⟨⟨hin, fun hself => hkeep ⟨?_, hb.ne_zero _ (hr.holder hone), hself⟩⟩, hn', hptr⟩
        rw [← hself, hptr]
    · rw [hholder, hown, hits]
      intro hzero i hi hskip hn'
      obtain ⟨hin, hne⟩ := (hmem i).mp hi
      rw [hname] at hn'
      split at hzero
      · rename_i hmine
        have howner := (hheld.owner (hmine.2.2 ▸ hb.nexus it hit)).2.1
        rw [hmine.2.2] at howner
        exact absurd (hp.names i hin it hit (hn'.trans howner.symm)) hne
      · exact hheld.pending hzero i hin hskip hn'

end Sessions

end SbdLu

end ClusterZfs

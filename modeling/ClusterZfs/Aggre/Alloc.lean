import ClusterZfs.DeadList.Bpobj
import ClusterZfs.Lib.Runs
import Mathlib.Data.Finset.Card

/-! The members of one `aggre_io` share an allocation: the first one that comes to
`zio_dva_allocate` allocates for the stripe, the others take its result, and the one that drops the
last reference in `raidz_aggre_zio_done` writes the record of the stripe. A member may also go past
the allocator, and one that fails drops its reference in `zio_done` and is re-executed alone. -/
namespace ClusterZfs

def enospc : Nat := 28

def Dva.zero : Dva := ⟨0, 0⟩

inductive MetaslabClass where
  | metas
  | normal
  | low
  deriving DecidableEq, Repr

/- What `zio_dva_allocate` reads of the pool and of the write's properties, and what
`metaslab_alloc` answers in each class at this moment: an error number or the first DVA. -/
structure AllocRequest where
  hasMetas : Bool
  hasLows : Bool
  userData : Bool
  zpLevel : Nat
  zpAppMeta : Bool
  zpAppLow : Bool
  metaslabAlloc : MetaslabClass → Except Nat Dva
  error_ne : ∀ mc, metaslabAlloc mc ≠ .error 0

namespace AllocRequest

variable (r : AllocRequest)

def firstClass : MetaslabClass :=
  if r.hasMetas && (!r.userData || (decide (r.zpLevel > 0) || r.zpAppMeta)) then .metas
  else if r.hasLows && r.zpAppLow then .low
  else .normal

/- Only a class without space hands the request on to the next one. -/
def orNext (result next : Except Nat Dva) : Except Nat Dva :=
  match result with
  | .ok dva => .ok dva
  | .error e => if e = enospc then next else .error e

/- The loop at `space_alloc`: metadata falls back to the normal class, and that to the low one. -/
def spaceAlloc : MetaslabClass → Except Nat Dva
  | .low => r.metaslabAlloc .low
  | .normal => orNext (r.metaslabAlloc .normal) (r.metaslabAlloc .low)
  | .metas => orNext (r.metaslabAlloc .metas)
      (orNext (r.metaslabAlloc .normal) (r.metaslabAlloc .low))

variable {r} in
theorem orNext_ne {result next : Except Nat Dva} (h : result ≠ .error 0)
    (hnext : next ≠ .error 0) : orNext result next ≠ .error 0 := by
  cases result with
  | ok dva => exact h
  | error e =>
    simp only [orNext]
    split
    · exact hnext
    · exact h

theorem spaceAlloc_ne (mc : MetaslabClass) : r.spaceAlloc mc ≠ .error 0 := by
  have hnormal := orNext_ne (r.error_ne .normal) (r.error_ne .low)
  cases mc with
  | low => exact r.error_ne .low
  | normal => exact hnormal
  | metas => exact orNext_ne (r.error_ne .metas) hnormal

end AllocRequest

inductive TgdvaAllocStat where
  | waitstart
  | fail
  | succ
  deriving DecidableEq, Repr

structure AggreIo where
  aiRef : Nat
  aiDvaallocStat : TgdvaAllocStat
  aiIoerror : Nat
  aiDva : Dva
  aiTogether : Nat
  tgmObjsetid : Nat
  tgmDnodeid : Nat
  tgmBlockid : Nat → Nat

/- `dbuf_aggre_leaf` with `TGM_INIT_MAP`. -/
def AggreIo.init (ntogether objset object : Nat) (blkid : Nat → Nat) : AggreIo :=
  ⟨ntogether, .waitstart, 0, Dva.zero, ntogether, objset, object, blkid⟩

/- How a member came by its block pointer: without the allocator (a hole, an embedded pointer or a
nop write), from the allocation of the stripe, or alone. -/
inductive DvaFrom where
  | skipped
  | stripe
  | alone
  deriving DecidableEq, Repr

/- The first DVA of a member's block pointer and its `io_error`. `io_aggre_root` is set unless the
member is alone. -/
structure MemberZio where
  source : DvaFrom
  dva : Dva
  ioError : Nat
  deriving DecidableEq

/- The result is the shared record, the member, and what was taken from the allocator. -/
def zioDvaAllocate (r : AllocRequest) (ai : AggreIo) : AggreIo × MemberZio × Option Dva :=
  match ai.aiDvaallocStat with
  | .succ => (ai, ⟨.stripe, ai.aiDva, 0⟩, none)
  | .fail => (ai, ⟨.stripe, Dva.zero, ai.aiIoerror⟩, none)
  | .waitstart =>
    match r.spaceAlloc r.firstClass with
    | .ok dva => ({ ai with aiDvaallocStat := .succ, aiDva := dva }, ⟨.stripe, dva, 0⟩, some dva)
    | .error e =>
      ({ ai with aiDvaallocStat := .fail, aiIoerror := e }, ⟨.stripe, Dva.zero, e⟩, none)

/- `zio_dva_allocate` without `io_aggre_io`. The loop ends in the low class, where no gang block is
tried. -/
def zioDvaAllocateAlone (r : AllocRequest) : MemberZio :=
  match r.spaceAlloc r.firstClass with
  | .ok dva => ⟨.alone, dva, 0⟩
  | .error e => ⟨.alone, Dva.zero, e⟩

structure AggreMapElem where
  txg : Nat
  timestamp : Nat
  objsetid : Nat
  objectid : Nat
  dva : Dva
  validNum : Nat
  blkid : Nat → Nat

def raidzAggreElemInit (ai : AggreIo) (syncingTxg now : Nat) : AggreMapElem :=
  ⟨syncingTxg, now, ai.tgmObjsetid, ai.tgmDnodeid, ai.aiDva, ai.aiTogether, ai.tgmBlockid⟩

/- The last reference writes the record, whatever became of the allocation, and frees the shared
record. -/
def raidzAggreZioDone (storeMap : Bool) (ai : AggreIo) (syncingTxg now : Nat) :
    Option AggreIo × List AggreMapElem :=
  if ai.aiRef - 1 ≠ 0 then (some { ai with aiRef := ai.aiRef - 1 }, [])
  else (none, if storeMap then [raidzAggreElemInit ai syncingTxg now] else [])

/- How far a member is: before `DVA_ALLOCATE`, on the way to `zio_done`, or finished. -/
inductive MemberState where
  | ready (alone : Bool)
  | issued (zio : MemberZio)
  | done (zio : MemberZio)
  deriving DecidableEq

def MemberState.zio? : MemberState → Option MemberZio
  | .ready _ => none
  | .issued zio => some zio
  | .done zio => some zio

/- The member has a reference to the shared record. -/
def MemberState.holds : MemberState → Bool
  | .ready alone => !alone
  | .issued zio => zio.source != .alone
  | .done _ => false

/- A stripe of `n` members. `taken` are the allocations that succeeded for it. -/
structure StripeAlloc (n : Nat) where
  storeMap : Bool
  ai : Option AggreIo
  members : Fin n → MemberState
  taken : List Dva
  maplist : List AggreMapElem

inductive StripeAction (n : Nat) where
  /- `zio_write_bp_init` or `zio_nop_write` leaves the allocator out of the pipeline. The first
  DVA is that of a hole, of the block written before, or part of the embedded data. -/
  | skip (m : Fin n) (dva : Dva)
  | allocate (m : Fin n) (r : AllocRequest)
  /- The write of an allocated block fails. -/
  | fail (m : Fin n) (e : Nat)
  | done (m : Fin n) (syncingTxg now : Nat)

namespace StripeAlloc

variable {n objset object : Nat} {storeMap : Bool} {blkid : Nat → Nat} {m : Fin n}

def set (s : StripeAlloc n) (m : Fin n) (st : MemberState) : StripeAlloc n :=
  { s with members := Function.update s.members m st }

/- The part of `zio_done` about the stripe: without an error the member is finished, and with one
it is re-executed, alone from then on. Either way its reference is dropped. -/
def zioDone (s : StripeAlloc n) (m : Fin n) (zio : MemberZio) (syncingTxg now : Nat) :
    Option (StripeAlloc n) :=
  let next := if zio.ioError = 0 then .done zio else .ready true
  if zio.source = .alone then some (s.set m next)
  else s.ai.map fun ai =>
    let out := raidzAggreZioDone s.storeMap ai syncingTxg now
    { s.set m next with ai := out.1, maplist := s.maplist ++ out.2 }

/- The shared record of a member with a reference must still be there: otherwise there is no next
state. -/
def step (s : StripeAlloc n) : StripeAction n → Option (StripeAlloc n)
  | .skip m dva =>
    match s.members m with
    | .ready false => some (s.set m (.issued ⟨.skipped, dva, 0⟩))
    | _ => none
  | .allocate m r =>
    match s.members m with
    | .ready false => s.ai.map fun ai =>
        let out := zioDvaAllocate r ai
        { s.set m (.issued out.2.1) with
          ai := some out.1
          taken := s.taken ++ out.2.2.toList }
    | .ready true => some (s.set m (.issued (zioDvaAllocateAlone r)))
    | _ => none
  | .fail m e =>
    match s.members m with
    | .issued zio =>
      if zio.source ≠ .skipped ∧ zio.ioError = 0 ∧ e ≠ 0 then
        some (s.set m (.issued { zio with ioError := e }))
      else none
    | _ => none
  | .done m syncingTxg now =>
    match s.members m with
    | .issued zio => s.zioDone m zio syncingTxg now
    | _ => none

def start (n : Nat) (storeMap : Bool) (objset object : Nat) (blkid : Nat → Nat) : StripeAlloc n :=
  ⟨storeMap, some (AggreIo.init n objset object blkid), fun _ => .ready false, [], []⟩

/- What the stripe was given: nothing yet, a DVA or an error. -/
abbrev Outcome := Option (Except Nat Dva)

/- The shared record shows the outcome. -/
def Told (ai : AggreIo) : Outcome → Prop
  | none => ai.aiDvaallocStat = .waitstart ∧ ai.aiDva = Dva.zero
  | some (.ok dva) => ai.aiDvaallocStat = .succ ∧ ai.aiDva = dva
  | some (.error e) => ai.aiDvaallocStat = .fail ∧ ai.aiIoerror = e ∧ e ≠ 0 ∧ ai.aiDva = Dva.zero

/- The member shows the outcome. -/
def Given (zio : MemberZio) : Outcome → Prop
  | none => False
  | some (.ok dva) => zio.dva = dva
  | some (.error e) => zio.dva = Dva.zero ∧ zio.ioError = e ∧ e ≠ 0

def takenOf : Outcome → List Dva
  | some (.ok dva) => [dva]
  | _ => []

def waiting (s : StripeAlloc n) : Finset (Fin n) :=
  Finset.univ.filter fun m => (s.members m).holds = true

structure Inv (s : StripeAlloc n) (out : Outcome) : Prop where
  told : ∀ ai, s.ai = some ai → Told ai out
  given : ∀ m zio, (s.members m).zio? = some zio → zio.source = .stripe → Given zio out
  taken : s.taken = takenOf out
  ref : ∀ ai, s.ai = some ai → ai.aiRef = s.waiting.card
  freed : s.ai = none → s.waiting = ∅

/- Every member shares the allocation, and so does every record. -/
structure Shared (s : StripeAlloc n) (out : Outcome) : Prop where
  open_ : ∀ e, out ≠ some (.error e)
  none_alone : ∀ m, s.members m ≠ .ready true
  members : ∀ m zio, (s.members m).zio? = some zio → zio.source = .stripe ∧ zio.ioError = 0
  records : ∀ e ∈ s.maplist, e.dva ∈ s.taken

/- No member leaves out the allocator or fails, and the one that allocates for the stripe finds a
class that serves it. -/
def Served (s : StripeAlloc n) : StripeAction n → Prop
  | .skip _ _ => False
  | .allocate _ r => ∀ ai, s.ai = some ai → ai.aiDvaallocStat = .waitstart →
      ∃ dva, r.spaceAlloc r.firstClass = .ok dva
  | .fail _ _ => False
  | .done _ _ _ => True

/- What one call of `zio_dva_allocate` does to the outcome. -/
theorem zioDvaAllocate_told {ai : AggreIo} {out : Outcome} (h : Told ai out) (r : AllocRequest) :
    ∃ out', (∀ o, out = some o → out' = some o) ∧
      (out = none → out' = some (r.spaceAlloc r.firstClass)) ∧
      Told (zioDvaAllocate r ai).1 out' ∧ Given (zioDvaAllocate r ai).2.1 out' ∧
      (zioDvaAllocate r ai).2.1.source = .stripe ∧
      ((∀ e, out' ≠ some (.error e)) → (zioDvaAllocate r ai).2.1.ioError = 0) ∧
      takenOf out' = takenOf out ++ (zioDvaAllocate r ai).2.2.toList ∧
      (zioDvaAllocate r ai).1.aiRef = ai.aiRef := by
  rcases out with _ | e | dva
  · refine ⟨some (r.spaceAlloc r.firstClass), by simp, fun _ => rfl, ?_⟩
    obtain ⟨hstat, hdva⟩ := h
    have hne := r.spaceAlloc_ne r.firstClass
    rw [zioDvaAllocate, hstat]
    cases hres : r.spaceAlloc r.firstClass with
    | ok dva => exact ⟨⟨rfl, rfl⟩, rfl, rfl, fun _ => rfl, rfl, rfl⟩
    | error e =>
      have he : e ≠ 0 := by
        rintro rfl
        exact hne hres
      exact ⟨⟨rfl, rfl, he, hdva⟩, ⟨rfl, rfl, he⟩, rfl, fun ho => (ho e rfl).elim, rfl, rfl⟩
  · obtain ⟨hstat, herr, he, hdva⟩ := h
    refine ⟨some (.error e), fun _ ho => ho, by simp, ?_⟩
    rw [zioDvaAllocate, hstat]
    exact ⟨⟨hstat, herr, he, hdva⟩, ⟨rfl, herr, he⟩, rfl, fun ho => (ho e rfl).elim,
      by simp [takenOf], rfl⟩
  · refine ⟨some (.ok dva), fun _ ho => ho, by simp, ?_⟩
    rw [zioDvaAllocate, h.1]
    exact ⟨h, h.2, rfl, fun _ => rfl, by simp [takenOf], rfl⟩

variable {s s' : StripeAlloc n} {out : Outcome}

theorem mem_waiting : m ∈ s.waiting ↔ (s.members m).holds = true := by
  simp [waiting]

theorem waiting_set_eq {st : MemberState} (h : st.holds = (s.members m).holds) :
    (s.set m st).waiting = s.waiting := by
  ext m'
  rw [mem_waiting, mem_waiting, set]
  by_cases hm : m' = m
  · subst hm
    simp [h]
  · simp [hm]

theorem waiting_set_dropped {st : MemberState} (h : st.holds = false) :
    (s.set m st).waiting = s.waiting.erase m := by
  ext m'
  rw [Finset.mem_erase, mem_waiting, mem_waiting, set]
  by_cases hm : m' = m
  · subst hm
    simp [h]
  · simp [hm]

/- What holds of the others and of the new state holds of all members. -/
theorem forall_set {P : MemberState → Prop} {st : MemberState} (h : ∀ m, P (s.members m))
    (hst : P st) (m' : Fin n) : P ((s.set m st).members m') :=
  (Function.forall_update_iff s.members (p := fun _ st => P st)).mpr ⟨hst, fun m' _ => h m'⟩ m'

theorem forall_zio_set {P : MemberZio → Prop} {st : MemberState}
    (h : ∀ m zio, (s.members m).zio? = some zio → P zio) (hst : ∀ zio, st.zio? = some zio → P zio) :
    ∀ m' zio, ((s.set m st).members m').zio? = some zio → P zio :=
  forall_set (P := fun st => ∀ zio, st.zio? = some zio → P zio) h hst

theorem start_inv : (start n storeMap objset object blkid).Inv none where
  told ai h := by
    cases h
    exact ⟨rfl, rfl⟩
  given m zio h := by cases h
  taken := rfl
  ref ai h := by
    cases h
    simp [waiting, start, MemberState.holds, AggreIo.init]
  freed h := by cases h

theorem start_shared : (start n storeMap objset object blkid).Shared none where
  open_ e h := by cases h
  none_alone m h := by cases h
  members m zio h := by cases h
  records e h := by cases h

/- A member changes, and the stripe does not. -/
theorem Inv.set (h : s.Inv out) {st : MemberState} (hholds : st.holds = (s.members m).holds)
    (hst : ∀ zio, st.zio? = some zio → zio.source = .stripe → Given zio out) :
    (s.set m st).Inv out where
  told := h.told
  given := forall_zio_set h.given hst
  taken := h.taken
  ref := by
    rw [waiting_set_eq hholds]
    exact h.ref
  freed := by
    rw [waiting_set_eq hholds]
    exact h.freed

theorem Shared.set (h : s.Shared out) {st : MemberState} (hst : st ≠ .ready true)
    (hzio : ∀ zio, st.zio? = some zio → zio.source = .stripe ∧ zio.ioError = 0) :
    (s.set m st).Shared out where
  open_ := h.open_
  none_alone := forall_set (P := (· ≠ .ready true)) h.none_alone hst
  members := forall_zio_set h.members hzio
  records := h.records

/- What a step gives: the invariant for the stripe's outcome, and the sharing where the step is
served. -/
def Kept (s : StripeAlloc n) (out : Outcome) (a : StripeAction n) (s' : StripeAlloc n) : Prop :=
  ∃ out', s'.Inv out' ∧ (s.Served a → s.Shared out → s'.Shared out')

theorem Inv.allocate (h : s.Inv out) {ai : AggreIo} (hai : s.ai = some ai)
    (hready : s.members m = .ready false) (r : AllocRequest) :
    s.Kept out (.allocate m r) { s.set m (.issued (zioDvaAllocate r ai).2.1) with
      ai := some (zioDvaAllocate r ai).1
      taken := s.taken ++ (zioDvaAllocate r ai).2.2.toList } := by
  obtain ⟨out', hold, hnew, htold, hgiven, hsrc, herr, htaken, href⟩ :=
    zioDvaAllocate_told (h.told ai hai) r
  have hwaiting : (s.set m (.issued (zioDvaAllocate r ai).2.1)).waiting = s.waiting := by
    refine waiting_set_eq ?_
    rw [hready]
    simp [MemberState.holds, hsrc]
  refine ⟨out', ⟨?_, ?_, ?_, ?_, ?_⟩, ?_⟩
  · intro ai' hai'
    cases hai'
    exact htold
  · refine forall_zio_set (fun m' zio hzio hstripe => ?_) (fun zio hzio _ => ?_)
    · have hbefore := h.given m' zio hzio hstripe
      cases out with
      | none => exact hbefore.elim
      | some o =>
        rw [hold o rfl]
        exact hbefore
    · cases hzio
      exact hgiven
  · change s.taken ++ _ = _
    rw [htaken, h.taken]
  · intro ai' hai'
    cases hai'
    exact (href.trans (h.ref ai hai)).trans (congrArg Finset.card hwaiting.symm)
  · intro hnone
    cases hnone
  · intro hserved hshared
    have hopen : ∀ e, out' ≠ some (.error e) := by
      intro e
      cases out with
      | none =>
        obtain ⟨dva, hdva⟩ := hserved ai hai (h.told ai hai).1
        rw [hnew rfl, hdva]
        simp
      | some o =>
        rw [hold o rfl]
        exact hshared.open_ e
    have hset : (s.set m (.issued (zioDvaAllocate r ai).2.1)).Shared out := by
      refine hshared.set (by simp) ?_
      intro zio hzio
      cases hzio
      exact ⟨hsrc, herr hopen⟩
    exact ⟨hopen, hset.none_alone, hset.members,
      fun e he => List.mem_append_left _ (hset.records e he)⟩

/- The record names what the shared record does. -/
theorem raidzAggreZioDone_cases (storeMap : Bool) (ai : AggreIo) (syncingTxg now : Nat) :
    (ai.aiRef - 1 ≠ 0 ∧
      raidzAggreZioDone storeMap ai syncingTxg now = (some { ai with aiRef := ai.aiRef - 1 }, [])) ∨
    ai.aiRef - 1 = 0 ∧ (raidzAggreZioDone storeMap ai syncingTxg now).1 = none ∧
      ∀ e ∈ (raidzAggreZioDone storeMap ai syncingTxg now).2, e.dva = ai.aiDva := by
  unfold raidzAggreZioDone
  by_cases href : ai.aiRef - 1 = 0
  · refine .inr ⟨href, by rw [if_neg (not_not.mpr href)], ?_⟩
    rw [if_neg (not_not.mpr href)]
    intro e he
    cases storeMap with
    | false => cases he
    | true =>
      rw [List.mem_singleton.mp he]
      rfl
  · exact .inl ⟨href, if_pos href⟩

theorem Told.drop {ai : AggreIo} (h : Told ai out) (ref : Nat) :
    Told { ai with aiRef := ref } out := by
  rcases out with _ | _ | _ <;> exact h

/- A member of the stripe drops its reference. -/
theorem Inv.drop (h : s.Inv out) {ai : AggreIo} {st : MemberState} (hai : s.ai = some ai)
    (hheld : (s.members m).holds = true) (hst : st.holds = false)
    (hgiven : ∀ zio, st.zio? = some zio → zio.source = .stripe → Given zio out)
    (syncingTxg now : Nat) :
    Inv { s.set m st with
      ai := (raidzAggreZioDone s.storeMap ai syncingTxg now).1
      maplist := s.maplist ++ (raidzAggreZioDone s.storeMap ai syncingTxg now).2 } out := by
  have hcard : (s.set m st).waiting.card = ai.aiRef - 1 := by
    rw [waiting_set_dropped hst, Finset.card_erase_of_mem (mem_waiting.mpr hheld), h.ref ai hai]
  refine ⟨?_, forall_zio_set h.given hgiven, h.taken, ?_, ?_⟩ <;>
    rcases raidzAggreZioDone_cases s.storeMap ai syncingTxg now with ⟨_, heq⟩ | ⟨hlast, hnone, _⟩
  · rw [heq]
    rintro _ ⟨⟩
    exact (h.told ai hai).drop _
  · rw [hnone]
    nofun
  · rw [heq]
    rintro _ ⟨⟩
    exact hcard.symm
  · rw [hnone]
    nofun
  · rw [heq]
    nofun
  · exact fun _ => Finset.card_eq_zero.mp (hcard.trans hlast)

theorem Inv.zioDone (h : s.Inv out) {zio : MemberZio} {syncingTxg now : Nat}
    (hmem : s.members m = .issued zio) (hstep : s.zioDone m zio syncingTxg now = some s') :
    s.Kept out (.done m syncingTxg now) s' := by
  have hgiven : zio.source = .stripe → Given zio out := h.given m zio (by rw [hmem]; rfl)
  have hnext : ∀ z, MemberState.zio? (if zio.ioError = 0 then .done zio else .ready true) =
      some z → z.source = .stripe → Given z out := by
    intro z hz
    split at hz <;> cases hz
    exact hgiven
  have hdropped : MemberState.holds (if zio.ioError = 0 then .done zio else .ready true) =
      false := by
    split <;> rfl
  simp only [StripeAlloc.zioDone] at hstep
  by_cases halone : zio.source = .alone
  · rw [if_pos halone] at hstep
    cases hstep
    refine ⟨out, h.set ?_ hnext, fun _ hshared => ?_⟩
    · rw [hdropped, hmem]
      simp [MemberState.holds, halone]
    · have hsrc := (hshared.members m zio (by rw [hmem]; rfl)).1
      rw [halone] at hsrc
      cases hsrc
  · rw [if_neg halone] at hstep
    obtain ⟨ai, hai, rfl⟩ := Option.map_eq_some_iff.mp hstep
    have hheld : (s.members m).holds = true := by
      rw [hmem]
      simpa [MemberState.holds] using halone
    refine ⟨out, h.drop hai hheld hdropped hnext syncingTxg now, fun _ hshared => ?_⟩
    obtain ⟨hsrc, herr⟩ := hshared.members m zio (by rw [hmem]; rfl)
    have hset : (s.set m (.done zio)).Shared out := by
      refine hshared.set (by simp) ?_
      rintro z ⟨⟩
      exact ⟨hsrc, herr⟩
    rw [if_pos herr]
    refine { hset with records := fun e he => ?_ }
    rcases List.mem_append.mp he with hold | hnew
    · exact hshared.records e hold
    · have hdva : e.dva = ai.aiDva := by
        rcases raidzAggreZioDone_cases s.storeMap ai syncingTxg now with ⟨_, heq⟩ | ⟨_, _, hdva⟩
        · rw [heq] at hnew
          cases hnew
        · exact hdva e hnew
      have htold := h.told ai hai
      -- the member took the allocation of the stripe, so there is one
      rcases out with _ | err | dva
      · exact (hgiven hsrc).elim
      · exact (hshared.open_ err rfl).elim
      · change e.dva ∈ s.taken
        rw [h.taken, hdva, htold.2]
        exact List.mem_singleton_self _

theorem Inv.step (h : s.Inv out) {a : StripeAction n} (hstep : s.step a = some s') :
    s.Kept out a s' := by
  cases a with
  | skip m dva =>
    simp only [StripeAlloc.step] at hstep
    split at hstep
    · rename_i hready
      cases hstep
      refine ⟨out, h.set (by rw [hready]; rfl) ?_, fun hserved => hserved.elim⟩
      rintro zio ⟨⟩ ⟨⟩
    · cases hstep
  | allocate m r =>
    simp only [StripeAlloc.step] at hstep
    split at hstep
    · rename_i hready
      obtain ⟨ai, hai, rfl⟩ := Option.map_eq_some_iff.mp hstep
      exact h.allocate hai hready r
    · rename_i hready
      cases hstep
      have halone : (zioDvaAllocateAlone r).source = .alone := by
        unfold zioDvaAllocateAlone
        split <;> rfl
      refine ⟨out, h.set (by rw [hready]; simp [MemberState.holds, halone]) ?_, ?_⟩
      · rintro zio ⟨⟩ hsrc
        rw [halone] at hsrc
        cases hsrc
      · exact fun _ hshared => (hshared.none_alone m hready).elim
    · cases hstep
  | fail m e =>
    simp only [StripeAlloc.step] at hstep
    split at hstep
    · rename_i zio hmem
      split at hstep
      · rename_i hok
        cases hstep
        refine ⟨out, h.set (by rw [hmem]; rfl) ?_, fun hserved => hserved.elim⟩
        rintro z ⟨⟩ hsrc
        have hgiven := h.given m zio (by rw [hmem]; rfl) hsrc
        rcases out with _ | err | dva
        · exact hgiven
        · exact (hgiven.2.2 (hgiven.2.1.symm.trans hok.2.1)).elim
        · exact hgiven
      · cases hstep
    · cases hstep
  | done m syncingTxg now =>
    simp only [StripeAlloc.step] at hstep
    split at hstep
    · rename_i zio hmem
      exact h.zioDone hmem hstep
    · cases hstep

theorem reach_inv
    (h : Reach step (fun _ _ => True) (start n storeMap objset object blkid) s) :
    ∃ out, s.Inv out := by
  refine Reach.invariant (P := fun s => ∃ out, s.Inv out) ⟨none, start_inv⟩ ?_ h
  intro t u a ht _ hstep
  obtain ⟨out, hinv⟩ := ht
  obtain ⟨out', hinv', -⟩ := hinv.step hstep
  exact ⟨out', hinv'⟩

theorem reach_shared
    (h : Reach step Served (start n storeMap objset object blkid) s) :
    ∃ out, s.Inv out ∧ s.Shared out := by
  refine Reach.invariant (P := fun s => ∃ out, s.Inv out ∧ s.Shared out)
    ⟨none, start_inv, start_shared⟩ ?_ h
  intro t u a ht hok hstep
  obtain ⟨out, hinv, hshared⟩ := ht
  obtain ⟨out', hinv', hkeep⟩ := hinv.step hstep
  exact ⟨out', hinv', hkeep hok hshared⟩

end StripeAlloc

/- A pool whose classes have their next free space at `offset`. -/
def AllocRequest.space (offset : Nat) : AllocRequest where
  hasMetas := false
  hasLows := false
  userData := true
  zpLevel := 0
  zpAppMeta := false
  zpAppLow := false
  metaslabAlloc _ := .ok ⟨24, offset⟩
  error_ne mc h := by cases h

/-- A member whose write fails is re-executed alone and ends elsewhere than the record says. -/
theorem aggre_alloc_reexecuted :
    ∃ s, Reach StripeAlloc.step (fun _ _ => True) (StripeAlloc.start 2 true 54 9 fun m => m) s ∧
      (s.maplist.map fun e => (e.dva, e.validNum)) = [(⟨24, 4096⟩, 2)] ∧
      List.ofFn s.members = [.done ⟨.stripe, ⟨24, 4096⟩, 0⟩, .done ⟨.alone, ⟨24, 8192⟩, 0⟩] := by
  have hrun : Reach StripeAlloc.step (fun _ _ => True)
      (StripeAlloc.start 2 true 54 9 fun m => m) _ :=
    .next (a := .done 1 7 0) (.next (a := .allocate 1 (.space 8192)) (.next (a := .done 0 7 0)
      (.next (a := .done 1 7 0) (.next (a := .fail 1 5) (.next (a := .allocate 1 (.space 8192))
        (.next (a := .allocate 0 (.space 4096)) .start trivial rfl) trivial rfl) trivial rfl)
        trivial rfl) trivial rfl) trivial rfl) trivial rfl
  exact ⟨_, hrun, rfl, rfl⟩

end ClusterZfs

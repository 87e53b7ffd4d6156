import ClusterZfs.Pgr.Bounds

/-! The loop over the transport IDs of a REGISTER and the one ID of a REGISTER AND MOVE: when no
byte outside the received list is read, the sizes stay in the space that is left, and the loop
ends. -/
namespace ClusterZfs

namespace Plist

variable {l : Bytes} {off n : Nat}

/- Two IDs whose first bytes are there and whose names are compared. -/
def Like (m : Mem) (off : Nat) (m' : Mem) (off' : Nat) : Prop :=
  ∃ b b', m off = some b ∧ m' off' = some b' ∧ LooksLike m off b m' off' b'

/- How far a comparison looks into an ID. -/
def compared (l : Bytes) (off : Nat) : Nat :=
  match protocolOf (l.getD off 0) with
  | .fibreChannel => 16
  | .srp => 24
  | .iscsi => 4 + lenAt l off
  | .other => 4 + lenAt l off

/- What holds of one turn of the loop; `maxTpdnum` is the size of `rpt_ary`. -/
structure TurnSafe (l : Bytes) (lpt : Option Bytes) (keys : List PgrKey) (maxTpdnum : Nat)
    (st : Tpds) : Prop where
  inside : (tpdTurn (memOf l) lpt keys st).isSome
  size : ∀ sz, tptidValidate (memOf l) st.adnDat st.adnLen = some (some sz) →
    2 ≤ sz ∧ sz ≤ st.adnLen
  index : st.rptAry.length < maxTpdnum
  next : ∀ st', tpdTurn (memOf l) lpt keys st = some (some st') → st'.adnLen < st.adnLen

/- The states at the head of the loop. -/
def Visits (l : Bytes) (lpt : Option Bytes) (keys : List PgrKey) : Tpds → Tpds → Prop :=
  Reach (tpdStep (memOf l) lpt keys) fun _ _ => True

structure RegisterSafe (l : Bytes) (lpt : Option Bytes) (keys : List PgrKey) (start : Tpds) :
    Prop where
  turns : ∀ st, Visits l lpt keys start st → st.adnLen ≠ 0 →
    TurnSafe l lpt keys (start.adnLen / 2) st
  registers : ∀ st, Visits l lpt keys start st → st.adnLen = 0 →
    ∀ r ∈ st.rptAry, (keyAlloc (memOf l) r).isSome
  ends : ∃ st, Visits l lpt keys start st ∧
    (st.adnLen = 0 ∨ tpdTurn (memOf l) lpt keys st = some none)

structure MoveSafe (l : Bytes) (env : Env) (key : PgrKey) (lpt : Bytes) (n : Nat) : Prop where
  inside : (moveTo (memOf l) env key lpt n).isSome
  size : ∀ sz, tptidValidate (memOf l) 24 n = some (some sz) → 2 ≤ sz ∧ sz ≤ n

/- An ID of the list that the loop comes to. -/
structure IdFits (l : Bytes) (keys : List PgrKey) (st : Tpds) : Prop
    extends TptidFits l st.adnDat st.adnLen where
  compares : ∀ sz, Accepted l st.adnDat st.adnLen sz → sz ≠ 0 → sz % 4 = 0 →
    ((∃ r ∈ st.rptAry, Like (memOf l) st.adnDat (memOf l) r.rportTptid) ∨
      ∃ key ∈ keys, Like (memOf l) st.adnDat (memZeros key.rptId) 0) →
    st.adnDat + compared l st.adnDat ≤ l.length

/- An ID that is copied. -/
def Held (l : Bytes) (r : RemotePort) : Prop :=
  r.rportTptidSz < 2 ^ 15 ∧ r.rportTptid + r.rportTptidSz ≤ l.length

/- The IDs of a list one after the other, each with the space left from it on and the IDs before
it; nothing is left at the end of the last one. -/
def chain (l : Bytes) (lpt : Option Bytes) (keys : List PgrKey) : Nat → Tpds → List Tpds
  | 0, st => [st]
  | fuel + 1, st => st :: ((tpdStep (memOf l) lpt keys st ()).map (chain l lpt keys fuel)).getD []

structure RegisterFits (l : Bytes) (lpt : Option Bytes) (keys : List PgrKey) (start : Tpds) :
    Prop where
  ids : ∀ st ∈ chain l lpt keys start.adnLen start, st.adnLen ≠ 0 → IdFits l keys st
  held : ∀ st ∈ chain l lpt keys start.adnLen start, st.adnLen = 0 → ∀ r ∈ st.rptAry, Held l r

structure MoveFits (l : Bytes) (env : Env) (key : PgrKey) (lpt : Bytes) (n : Nat) : Prop
    extends TptidFits l 24 n where
  compares : ∀ sz, Accepted l 24 n sz →
    (∃ k ∈ key :: env.keys, Like (memOf l) 24 (memZeros k.rptId) 0) →
    24 + compared l 24 ≤ l.length
  held : ∀ sz, Accepted l 24 n sz →
    keyRegistered (memOf l) 24 (some lpt) (key :: env.keys) ≠ some true → Held l ⟨24, sz⟩

section AnyEqual

variable {α : Type} {compare : α → Option Bool} {looks : α → Prop} {whole : Prop} {xs : List α}

theorem anyEqual_true (h : anyEqual compare xs = some true) : ∃ x ∈ xs, compare x = some true := by
  induction xs with
  | nil => cases h
  | cons x xs ih =>
    rw [anyEqual] at h
    obtain ⟨same, hx, h⟩ := Option.bind_eq_some_iff.mp h
    cases same with
    | true => exact ⟨x, List.mem_cons_self, hx⟩
    | false =>
      obtain ⟨y, hy, heq⟩ := ih h
      exact ⟨y, List.mem_cons_of_mem x hy, heq⟩

/-- A loop that compares one ID with others reads past the end of that ID as soon as one of them
looks like it. -/
theorem anyEqual_isSome (hsome : ∀ x ∈ xs, (compare x).isSome ↔ (looks x → whole))
    (htrue : ∀ x ∈ xs, compare x = some true → looks x) :
    (anyEqual compare xs).isSome ↔ ((∃ x ∈ xs, looks x) → whole) := by
  induction xs with
  | nil => simp [anyEqual]
  | cons x xs ih =>
    have hx := hsome x List.mem_cons_self
    have hxs := ih (fun y hy => hsome y (List.mem_cons_of_mem x hy))
      (fun y hy => htrue y (List.mem_cons_of_mem x hy))
    rw [anyEqual]
    cases hcompare : compare x with
    | none =>
      rw [hcompare] at hx
      have hno : ¬ (looks x → whole) := fun h => by simpa using hx.mpr h
      simp only [Option.bind_none, Option.isSome_none, Bool.false_eq_true, false_iff]
      intro h
      exact hno fun hlooks => h ⟨x, List.mem_cons_self, hlooks⟩
    | some same =>
      have hwhole := hx.mp (by rw [hcompare]; rfl)
      rw [Option.bind_some]
      cases same with
      | true =>
        refine iff_of_true rfl fun _ => ?_
        exact hwhole (htrue x List.mem_cons_self hcompare)
      | false =>
        rw [if_neg (by simp), hxs, List.exists_mem_cons_iff, or_imp]
        exact ⟨fun h => ⟨hwhole, h⟩, And.right⟩

end AnyEqual

section OneId

variable {b : UInt8} {sz : Nat} {r : RemotePort} (lpt : Option Bytes) (k : Bytes)

theorem getD_of_first (hfirst : l[off]? = some b) : l.getD off 0 = b := by
  rw [List.getD_eq_getElem?_getD, hfirst, Option.getD_some]

theorem whole_memOf (hfirst : l[off]? = some b) (hlong : Long b → off + 4 ≤ l.length) :
    Whole (memOf l) off b ↔ off + compared l off ≤ l.length := by
  have hb := getD_of_first hfirst
  have hname : Long b → compared l off = 4 + lenAt l off → (Whole (memOf l) off b ↔
      off + compared l off ≤ l.length) := by
    intro hb hcompared
    have hin := hlong hb
    rw [whole_long hb (be16_memOf.mpr ⟨hin, rfl⟩), span_memOf_isSome, hcompared]
    omega
  cases hp : protocolOf b with
  | fibreChannel =>
    simp only [whole_fibreChannel hp, span_memOf_isSome, compared, hb, hp]
    omega
  | srp =>
    simp only [whole_srp hp, span_memOf_isSome, compared, hb, hp]
    omega
  | iscsi => exact hname (.inl hp) (by rw [compared, hb, hp])
  | other => exact hname (.inr hp) (by rw [compared, hb, hp])

theorem Accepted.headed (h : Accepted l off n sz) :
    ∃ b, l[off]? = some b ∧ Headed (memOf l) off b ∧ (Long b → off + 4 ≤ l.length) := by
  have hheaded : ∀ {b : UInt8}, l[off]? = some b → (Long b → off + 4 ≤ l.length) →
      Headed (memOf l) off b := by
    intro b hfirst hlong
    exact ⟨hfirst, fun hb => be16_memOf_isSome.mpr (hlong hb)⟩
  cases h with
  | @fixed b hfirst hp =>
    have hlong : Long b → off + 4 ≤ l.length := by
      rintro (hb | hb) <;> simp [hb] at hp
    exact ⟨b, hfirst, hheaded hfirst hlong, hlong⟩
  | @iscsi b k hfirst _ head _ =>
    exact ⟨b, hfirst, hheaded hfirst fun _ => head.received, fun _ => head.received⟩
  | @other b hfirst _ hreceived =>
    exact ⟨b, hfirst, hheaded hfirst fun _ => hreceived, fun _ => hreceived⟩

theorem headed_memZeros : Headed (memZeros k) 0 (k.getD 0 0) := by
  refine ⟨rfl, fun _ => ?_⟩
  rw [Mem.be16, Option.isSome_map]
  exact span_memZeros_isSome

theorem whole_memZeros (b : UInt8) : Whole (memZeros k) 0 b :=
  ⟨fun _ => span_memZeros_isSome, fun _ => span_memZeros_isSome,
    fun _ _ _ => span_memZeros_isSome⟩

theorem like_iff {m m' : Mem} {off' : Nat} {b' : UInt8} (h : m off = some b)
    (h' : m' off' = some b') : Like m off m' off' ↔ LooksLike m off b m' off' b' := by
  refine ⟨?_, fun hlooks => ⟨b, b', h, h', hlooks⟩⟩
  rintro ⟨c, c', hc, hc', hlooks⟩
  rwa [← Option.some.inj (h.symm.trans hc), ← Option.some.inj (h'.symm.trans hc')] at hlooks

theorem LooksLike.symm {m m' : Mem} {off' : Nat} {b' : UInt8} (h : LooksLike m off b m' off' b') :
    LooksLike m' off' b' m off b := by
  refine ⟨h.protocol.symm, h.format.symm, fun hb' => (h.length ?_).symm⟩
  rw [Long, h.protocolOf_eq]
  exact hb'

theorem keyCompare_isSome (key : PgrKey) (h : Accepted l off n sz) :
    (keyCompare (memOf l) off lpt key).isSome ↔
      (Like (memOf l) off (memZeros key.rptId) 0 → off + compared l off ≤ l.length) := by
  obtain ⟨b, hfirst, hheaded, hlong⟩ := h.headed
  rw [keyCompare, Option.isSome_map, tptidCompare_isSome hheaded (headed_memZeros key.rptId),
    like_iff hheaded.first (headed_memZeros key.rptId).first, ← whole_memOf hfirst hlong]
  simp [whole_memZeros]

theorem keyCompare_true {lpt : Option Bytes} {key : PgrKey} (h : Accepted l off n sz)
    (heq : keyCompare (memOf l) off lpt key = some true) :
    Like (memOf l) off (memZeros key.rptId) 0 := by
  obtain ⟨b, hfirst, hheaded, hlong⟩ := h.headed
  have hkey := headed_memZeros key.rptId
  obtain ⟨same, hsame, hand⟩ := Option.map_eq_some_iff.mp heq
  have htrue : same = true := (Bool.and_eq_true_iff.mp hand).1
  rw [htrue] at hsame
  exact (like_iff hheaded.first hkey.first).mpr (tptidCompare_true hheaded hkey hsame)

theorem keyRegistered_isSome (keys : List PgrKey) (h : Accepted l off n sz) :
    (keyRegistered (memOf l) off lpt keys).isSome ↔
      ((∃ key ∈ keys, Like (memOf l) off (memZeros key.rptId) 0) →
        off + compared l off ≤ l.length) :=
  anyEqual_isSome (fun key _ => keyCompare_isSome lpt key h) fun _ _ heq => keyCompare_true h heq

/- An ID that the loop has put into `rpt_ary`; it ends in front of `bound`. -/
structure Entry (l : Bytes) (bound : Nat) (r : RemotePort) : Prop where
  accepted : ∃ n, Accepted l r.rportTptid n r.rportTptidSz
  long : 4 ≤ r.rportTptidSz
  compared : compared l r.rportTptid ≤ r.rportTptidSz
  ends : r.rportTptid + r.rportTptidSz ≤ bound

theorem Entry.whole {bound : Nat} (h : Entry l bound r) (hb : bound ≤ l.length) :
    ∃ b, Headed (memOf l) r.rportTptid b ∧ Whole (memOf l) r.rportTptid b := by
  obtain ⟨n, hacc⟩ := h.accepted
  obtain ⟨b, hfirst, hheaded, hlong⟩ := hacc.headed
  refine ⟨b, hheaded, (whole_memOf hfirst hlong).mpr ?_⟩
  have hends := h.ends
  have hcompared := h.compared
  omega

section

variable (h : Accepted l off n sz)
include h

theorem entryCompare_isSome (hr : Entry l off r) :
    (tptidCompare (memOf l) r.rportTptid (memOf l) off).isSome ↔
      (Like (memOf l) off (memOf l) r.rportTptid → off + compared l off ≤ l.length) := by
  obtain ⟨b, hfirst, hheaded, hlong⟩ := h.headed
  have hoff : off < l.length := memOf_eq_some hheaded.first
  obtain ⟨b', hheaded', hwhole'⟩ := hr.whole (Nat.le_of_lt hoff)
  rw [tptidCompare_isSome hheaded' hheaded, like_iff hheaded.first hheaded'.first,
    ← whole_memOf hfirst hlong]
  exact ⟨fun hw hlooks => (hw hlooks.symm).2, fun hw hlooks => ⟨hwhole', hw hlooks.symm⟩⟩

theorem entryCompare_true (hr : Entry l off r)
    (heq : tptidCompare (memOf l) r.rportTptid (memOf l) off = some true) :
    Like (memOf l) off (memOf l) r.rportTptid := by
  obtain ⟨b, hfirst, hheaded, hlong⟩ := h.headed
  have hoff : off < l.length := memOf_eq_some hheaded.first
  obtain ⟨b', hheaded', _⟩ := hr.whole (Nat.le_of_lt hoff)
  exact (like_iff hheaded.first hheaded'.first).mpr (tptidCompare_true hheaded' hheaded heq).symm

theorem entries_isSome {rs : List RemotePort}
    (hrs : ∀ r ∈ rs, Entry l off r) :
    (anyEqual (fun r => tptidCompare (memOf l) r.rportTptid (memOf l) off) rs).isSome ↔
      ((∃ r ∈ rs, Like (memOf l) off (memOf l) r.rportTptid) →
        off + compared l off ≤ l.length) :=
  anyEqual_isSome (fun r hr => entryCompare_isSome h (hrs r hr)) fun r hr heq =>
    entryCompare_true h (hrs r hr) heq

/- An accepted ID of a size that the loop goes on with is as long as what a comparison reads. -/
theorem Accepted.compared_le (hpos : sz ≠ 0) (hmod : sz % 4 = 0) :
    compared l off ≤ sz := by
  cases h with
  | fixed hfirst hp => rcases hp with hp | hp <;> simp [compared, hfirst, hp]
  | iscsi hfirst hp head =>
    have hlt := lenAt_lt head.received
    simp only [compared, getD_of_first hfirst, hp]
    omega
  | other hfirst hp hreceived =>
    have hlt := lenAt_lt hreceived
    simp only [compared, getD_of_first hfirst, hp]
    omega

end

theorem keyAlloc_isSome (hshort : l.length < 2 ^ 32)
    (hsz : 2 ≤ r.rportTptidSz) (hlt : r.rportTptidSz < 2 ^ 16) :
    (keyAlloc (memOf l) r).isSome ↔ Held l r := by
  have hlen : ¬ copyLen r.rportTptidSz < 2 := by
    unfold copyLen
    split <;> omega
  rw [keyAlloc, if_neg hlen, span_memOf_isSome, Held, copyLen]
  split <;> omega

theorem Accepted.lt (h : Accepted l off n sz) : sz < 2 ^ 16 := by
  cases h with
  | fixed => decide
  | iscsi | other => exact Nat.mod_lt _ (by decide)

end OneId

/- What holds at the head of the loop as long as every size was in range. -/
structure Tpds.Inv (l : Bytes) (adnLen₀ : Nat) (st : Tpds) : Prop where
  aligned : st.adnLen % 4 = 0
  small : st.adnLen < 2 ^ 32
  count : 4 * st.rptAry.length + st.adnLen ≤ adnLen₀
  entries : ∀ r ∈ st.rptAry, Entry l st.adnDat r

section Loop

variable {lpt : Option Bytes} {keys : List PgrKey} {st st' : Tpds} {adnLen₀ : Nat}

theorem tpdTurn_next (h : tpdTurn (memOf l) lpt keys st = some (some st')) :
    ∃ sz, Accepted l st.adnDat st.adnLen sz ∧ sz ≠ 0 ∧ sz % 4 = 0 ∧
      st' = ⟨(st.adnLen + 2 ^ 32 - sz) % 2 ^ 32, st.adnDat + sz,
        st.rptAry ++ [⟨st.adnDat, sz⟩]⟩ := by
  rw [tpdTurn] at h
  obtain ⟨verdict, hverdict, h⟩ := Option.bind_eq_some_iff.mp h
  cases verdict with
  | none => cases h
  | some sz =>
    dsimp only at h
    split at h
    · cases h
    · obtain ⟨again, _, h⟩ := Option.bind_eq_some_iff.mp h
      cases again with
      | true => cases h
      | false =>
        obtain ⟨registered, _, h⟩ := Option.map_eq_some_iff.mp h
        cases registered with
        | true => cases h
        | false =>
          refine ⟨sz, tptidValidate_accepts.mp hverdict, by omega, by omega, ?_⟩
          exact (Option.some.inj h).symm

/- A turn with an accepted ID of a good size reads what it compares. -/
theorem tpdTurn_isSome {sz : Nat} (hacc : Accepted l st.adnDat st.adnLen sz) (hpos : sz ≠ 0)
    (hmod : sz % 4 = 0) (hentries : ∀ r ∈ st.rptAry, Entry l st.adnDat r) :
    (tpdTurn (memOf l) lpt keys st).isSome ↔
      (((∃ r ∈ st.rptAry, Like (memOf l) st.adnDat (memOf l) r.rportTptid) ∨
        ∃ key ∈ keys, Like (memOf l) st.adnDat (memZeros key.rptId) 0) →
      st.adnDat + compared l st.adnDat ≤ l.length) := by
  have hagain := entries_isSome hacc hentries
  have hregistered := keyRegistered_isSome lpt keys hacc
  have hsize : ¬ (sz = 0 ∨ sz % 4 ≠ 0) := by omega
  rw [tpdTurn, tptidValidate_accepts.mpr hacc, Option.bind_some]
  dsimp only
  rw [if_neg hsize]
  generalize hout : anyEqual (fun r => tptidCompare (memOf l) r.rportTptid (memOf l) st.adnDat)
    st.rptAry = out at hagain
  cases out with
  | none =>
    have hno := hagain.not.mp (by simp)
    simp only [Option.bind_none, Option.isSome_none, Bool.false_eq_true, false_iff]
    intro h
    exact hno fun hex => h (.inl hex)
  | some again =>
    have hin := hagain.mp rfl
    rw [Option.bind_some]
    cases again with
    | true =>
      obtain ⟨r, hr, heq⟩ := anyEqual_true hout
      refine iff_of_true rfl fun _ => ?_
      exact hin ⟨r, hr, entryCompare_true hacc (hentries r hr) heq⟩
    | false =>
      rw [if_neg (by simp), Option.isSome_map, hregistered, or_imp]
      exact ⟨fun h => ⟨hin, h⟩, And.right⟩

theorem Tpds.Inv.next (h : st.Inv l adnLen₀)
    (hsize : ∀ sz, tptidValidate (memOf l) st.adnDat st.adnLen = some (some sz) →
      2 ≤ sz ∧ sz ≤ st.adnLen)
    (hnext : tpdTurn (memOf l) lpt keys st = some (some st')) :
    st'.Inv l adnLen₀ ∧ st'.adnLen < st.adnLen := by
  obtain ⟨sz, hacc, hpos, hmod, rfl⟩ := tpdTurn_next hnext
  have hsz := hsize sz (tptidValidate_accepts.mpr hacc)
  have haligned := h.aligned
  have hsmall := h.small
  have hcount := h.count
  have hlen : (st.adnLen + 2 ^ 32 - sz) % 2 ^ 32 = st.adnLen - sz := by omega
  rw [hlen]
  refine ⟨⟨?_, ?_, ?_, ?_⟩, ?_⟩
  · dsimp only
    omega
  · exact lt_of_le_of_lt (Nat.sub_le ..) hsmall
  · simp only [List.length_append, List.length_singleton]
    omega
  · intro r hr
    rcases List.mem_append.mp hr with hold | hnew
    · have hentry := h.entries r hold
      exact { hentry with ends := Nat.le_trans hentry.ends (Nat.le_add_right ..) }
    · rw [List.mem_singleton.mp hnew]
      exact ⟨⟨_, hacc⟩, by dsimp only; omega, hacc.compared_le hpos hmod, Nat.le_refl _⟩
  · dsimp only
    omega

/- One turn: what must not happen, and what the list must be like for it not to happen. -/
theorem idFits_iff (lpt : Option Bytes) (h : st.Inv l adnLen₀) : IdFits l keys st ↔
    (tpdTurn (memOf l) lpt keys st).isSome ∧
      ∀ sz, tptidValidate (memOf l) st.adnDat st.adnLen = some (some sz) →
        2 ≤ sz ∧ sz ≤ st.adnLen := by
  constructor
  · intro hfits
    obtain ⟨hread, hsize⟩ := tptidFits_iff.mp hfits.toTptidFits
    refine ⟨?_, hsize⟩
    obtain ⟨verdict, hverdict⟩ := Option.isSome_iff_exists.mp hread
    cases verdict with
    | none =>
      rw [tpdTurn, hverdict]
      rfl
    | some sz =>
      have hacc := tptidValidate_accepts.mp hverdict
      by_cases hgood : sz = 0 ∨ sz % 4 ≠ 0
      · rw [tpdTurn, hverdict, Option.bind_some]
        dsimp only
        rw [if_pos hgood]
        rfl
      · rw [tpdTurn_isSome hacc (by omega) (by omega) h.entries]
        exact hfits.compares sz hacc (by omega) (by omega)
  · rintro ⟨hinside, hsize⟩
    have hread : (tptidValidate (memOf l) st.adnDat st.adnLen).isSome := by
      by_contra hnone
      rw [Option.not_isSome_iff_eq_none] at hnone
      rw [tpdTurn, hnone] at hinside
      cases hinside
    refine ⟨tptidFits_iff.mpr ⟨hread, hsize⟩, ?_⟩
    intro sz hacc hpos hmod
    exact (tpdTurn_isSome hacc hpos hmod h.entries).mp hinside

end Loop

section Register

variable {lpt : Option Bytes} {keys : List PgrKey} {start st : Tpds}

theorem tpdStep_some {st' : Tpds} (h : tpdStep (memOf l) lpt keys st () = some st') :
    st.adnLen ≠ 0 ∧ tpdTurn (memOf l) lpt keys st = some (some st') := by
  rw [tpdStep] at h
  split at h
  · cases h
  · rename_i hlen
    exact ⟨hlen, Option.join_eq_some_iff.mp h⟩

theorem visits_of_mem_chain {fuel : Nat} {st' : Tpds} (hvisit : Visits l lpt keys start st)
    (h : st' ∈ chain l lpt keys fuel st) : Visits l lpt keys start st' := by
  induction fuel generalizing st with
  | zero => exact List.mem_singleton.mp h ▸ hvisit
  | succ fuel ih =>
    rw [chain] at h
    cases List.mem_cons.mp h with
    | inl h => exact h ▸ hvisit
    | inr h =>
      cases hstep : tpdStep (memOf l) lpt keys st () with
      | none =>
        rw [hstep] at h
        cases h
      | some next =>
        rw [hstep] at h
        exact ih (hvisit.next trivial hstep) h

theorem mem_chain_self (fuel : Nat) (st : Tpds) : st ∈ chain l lpt keys fuel st := by
  cases fuel with
  | zero => exact List.mem_singleton_self st
  | succ fuel => exact List.mem_cons_self

/- While the IDs fit, less is left at each turn, so that the chain has all the turns. -/
theorem chain_of_visits (hstart : start.Inv l start.adnLen)
    (hids : ∀ st ∈ chain l lpt keys start.adnLen start, st.adnLen ≠ 0 → IdFits l keys st)
    (h : Visits l lpt keys start st) : st.Inv l start.adnLen ∧ ∃ fuel, st.adnLen ≤ fuel ∧
      chain l lpt keys fuel st ⊆ chain l lpt keys start.adnLen start := by
  induction h with
  | start => exact ⟨hstart, _, Nat.le_refl _, List.Subset.refl _⟩
  | @next st st' _ _ _ hstep ih =>
    obtain ⟨hinv, fuel, hfuel, hsub⟩ := ih
    obtain ⟨hlen, hturn⟩ := tpdStep_some hstep
    cases fuel with
    | zero => exact absurd (Nat.le_zero.mp hfuel) hlen
    | succ fuel =>
      have hfits := hids st (hsub (mem_chain_self _ st)) hlen
      obtain ⟨hinv', hless⟩ := hinv.next (tptidFits_iff.mp hfits.toTptidFits).2 hturn
      refine ⟨hinv', fuel, by omega, fun u hu => hsub (List.mem_cons_of_mem _ ?_)⟩
      rw [hstep]
      exact hu

theorem visits_inv (hstart : start.Inv l start.adnLen)
    (hsafe : ∀ st, Visits l lpt keys start st → st.adnLen ≠ 0 →
      TurnSafe l lpt keys (start.adnLen / 2) st)
    (h : Visits l lpt keys start st) : st.Inv l start.adnLen := by
  induction h with
  | start => exact hstart
  | next hvisit hok hstep ih =>
    obtain ⟨hlen, hturn⟩ := tpdStep_some hstep
    exact (ih.next (hsafe _ hvisit hlen).size hturn).1

/- A turn that can be made either ends the loop or leaves less to do. -/
theorem visits_ends
    (hfits : ∀ st, Visits l lpt keys start st → st.adnLen ≠ 0 → IdFits l keys st)
    (hinv : ∀ st, Visits l lpt keys start st → st.Inv l start.adnLen) (k : Nat) :
    ∀ st, Visits l lpt keys start st → st.adnLen ≤ k →
      ∃ st', Visits l lpt keys start st' ∧
        (st'.adnLen = 0 ∨ tpdTurn (memOf l) lpt keys st' = some none) := by
  induction k with
  | zero =>
    intro st hvisit hk
    exact ⟨st, hvisit, .inl (by omega)⟩
  | succ k ih =>
    intro st hvisit hk
    by_cases hlen : st.adnLen = 0
    · exact ⟨st, hvisit, .inl hlen⟩
    · obtain ⟨hinside, hsize⟩ := (idFits_iff lpt (hinv st hvisit)).mp (hfits st hvisit hlen)
      obtain ⟨out, hout⟩ := Option.isSome_iff_exists.mp hinside
      cases out with
      | none => exact ⟨st, hvisit, .inr hout⟩
      | some st' =>
        have hless := ((hinv st hvisit).next hsize hout).2
        refine ih st' (hvisit.next trivial (a := ()) ?_) (by omega)
        rw [tpdStep, if_neg hlen, hout]
        rfl

theorem keyAlloc_entry (hshort : l.length < 2 ^ 32) (h : st.Inv l start.adnLen) {r : RemotePort}
    (hr : r ∈ st.rptAry) : (keyAlloc (memOf l) r).isSome ↔ Held l r := by
  have hentry := h.entries r hr
  obtain ⟨n, hacc⟩ := hentry.accepted
  have hlong := hentry.long
  exact keyAlloc_isSome hshort (by omega) hacc.lt

theorem registerSafe_iff (hshort : l.length < 2 ^ 32) (hstart : start.Inv l start.adnLen) :
    RegisterSafe l lpt keys start ↔ RegisterFits l lpt keys start := by
  constructor
  · intro h
    have hinv : ∀ st, Visits l lpt keys start st → st.Inv l start.adnLen :=
      fun st hvisit => visits_inv hstart h.turns hvisit
    constructor
    · intro st hst hlen
      have hvisit := visits_of_mem_chain .start hst
      have hturn := h.turns st hvisit hlen
      exact (idFits_iff lpt (hinv st hvisit)).mpr ⟨hturn.inside, hturn.size⟩
    · intro st hst hlen r hr
      have hvisit := visits_of_mem_chain .start hst
      exact (keyAlloc_entry hshort (hinv st hvisit) hr).mp (h.registers st hvisit hlen r hr)
  · intro h
    have hinv : ∀ st, Visits l lpt keys start st → st.Inv l start.adnLen := fun st hvisit =>
      (chain_of_visits hstart h.ids hvisit).1
    have hchain : ∀ st, Visits l lpt keys start st →
        st ∈ chain l lpt keys start.adnLen start := by
      intro st hvisit
      obtain ⟨-, fuel, -, hsub⟩ := chain_of_visits hstart h.ids hvisit
      exact hsub (mem_chain_self fuel st)
    have hids : ∀ st, Visits l lpt keys start st → st.adnLen ≠ 0 → IdFits l keys st :=
      fun st hvisit => h.ids st (hchain st hvisit)
    constructor
    · intro st hvisit hlen
      obtain ⟨hinside, hsize⟩ := (idFits_iff lpt (hinv st hvisit)).mp (hids st hvisit hlen)
      refine ⟨hinside, hsize, ?_, ?_⟩
      · have hcount := (hinv st hvisit).count
        have haligned := (hinv st hvisit).aligned
        omega
      · exact fun st' hturn => ((hinv st hvisit).next hsize hturn).2
    · intro st hvisit hlen r hr
      exact (keyAlloc_entry hshort (hinv st hvisit) hr).mpr
        (h.held st (hchain st hvisit) hlen r hr)
    · exact visits_ends hids hinv start.adnLen start .start (Nat.le_refl _)

end Register

theorem moveTo_eq (env : Env) (key : PgrKey) (lpt : Bytes) :
    moveTo (memOf l) env key lpt n = (tptidValidate (memOf l) 24 n).bind fun
      | none => some ()
      | some tpdLen =>
        (keyRegistered (memOf l) 24 (some lpt) (key :: env.keys)).bind fun registered =>
          if registered then some () else (keyAlloc (memOf l) ⟨24, tpdLen⟩).map fun _ => () := by
  rw [moveTo]
  congr 1
  funext verdict
  cases verdict with
  | none => rfl
  | some sz =>
    simp only [keyRegistered, anyEqual]
    rcases keyCompare (memOf l) 24 (some lpt) key with _ | _ | _ <;> rfl

theorem moveSafe_iff (hshort : l.length < 2 ^ 32) (env : Env) (key : PgrKey) (lpt : Bytes) :
    MoveSafe l env key lpt n ↔ MoveFits l env key lpt n := by
  have haccepted : ∀ sz, Accepted l 24 n sz → 2 ≤ sz →
      ((moveTo (memOf l) env key lpt n).isSome ↔
        ((∃ k ∈ key :: env.keys, Like (memOf l) 24 (memZeros k.rptId) 0) →
          24 + compared l 24 ≤ l.length) ∧
        (keyRegistered (memOf l) 24 (some lpt) (key :: env.keys) ≠ some true →
          Held l ⟨24, sz⟩)) := by
    intro sz hacc hsz
    have hregistered := keyRegistered_isSome (some lpt) (key :: env.keys) hacc
    have halloc := keyAlloc_isSome (r := ⟨24, sz⟩) hshort hsz hacc.lt
    rw [moveTo_eq, tptidValidate_accepts.mpr hacc, Option.bind_some, ← hregistered]
    rcases keyRegistered (memOf l) 24 (some lpt) (key :: env.keys) with _ | _ | _ <;>
      simp [halloc]
  constructor
  · intro h
    have hread : (tptidValidate (memOf l) 24 n).isSome := by
      by_contra hnone
      have hinside := h.inside
      rw [Option.not_isSome_iff_eq_none] at hnone
      rw [moveTo, hnone] at hinside
      cases hinside
    have hfits := tptidFits_iff.mpr ⟨hread, h.size⟩
    have hboth : ∀ sz, Accepted l 24 n sz → _ := fun sz hacc =>
      (haccepted sz hacc (h.size sz (tptidValidate_accepts.mpr hacc)).1).mp h.inside
    exact ⟨hfits, fun sz hacc => (hboth sz hacc).1, fun sz hacc => (hboth sz hacc).2⟩
  · intro h
    obtain ⟨hread, hsize⟩ := tptidFits_iff.mp h.toTptidFits
    refine ⟨?_, hsize⟩
    obtain ⟨verdict, hverdict⟩ := Option.isSome_iff_exists.mp hread
    cases verdict with
    | none =>
      rw [moveTo, hverdict]
      rfl
    | some sz =>
      have hacc := tptidValidate_accepts.mp hverdict
      exact (haccepted sz hacc (hsize sz hverdict).1).mpr ⟨h.compares sz hacc, h.held sz hacc⟩

/- The two commands, each if it gets to the transport IDs at all. -/
structure Safe (env : Env) (l : Bytes) : Prop where
  register : ∀ start, outRegister env l = some start →
    RegisterSafe l (registerPort env l) env.keys start
  move : ∀ key lpt n, outRegisterAndMove env l = some (key, lpt, n) → MoveSafe l env key lpt n

structure Fits (env : Env) (l : Bytes) : Prop where
  register : ∀ start, outRegister env l = some start →
    RegisterFits l (registerPort env l) env.keys start
  move : ∀ key lpt n, outRegisterAndMove env l = some (key, lpt, n) → MoveFits l env key lpt n

theorem outRegister_inv {env : Env} {start : Tpds} (hshort : l.length < 2 ^ 32)
    (h : outRegister env l = some start) : start.Inv l start.adnLen := by
  unfold outRegister at h
  split at h
  · cases h
  · dsimp only at h
    generalize (if 24 + 4 ≤ l.length then field l 24 4 else 0) = adnLen at h
    split at h
    · cases h
    · cases h
      exact ⟨by dsimp only; omega, by dsimp only; omega, by simp, nofun⟩

end Plist

/-- The transport IDs of a parameter list are read within bounds exactly when each one that is
reached fits the space that is left, and those that are compared or copied were received whole. -/
theorem plist_safe_iff_fits (env : Plist.Env) (l : Bytes) (hshort : l.length < 2 ^ 32) :
    Plist.Safe env l ↔ Plist.Fits env l := by
  have hregister := fun start (hstart : Plist.outRegister env l = some start) =>
    @Plist.registerSafe_iff l (Plist.registerPort env l) env.keys start hshort
      (Plist.outRegister_inv hshort hstart)
  have hmove := @Plist.moveSafe_iff l
  constructor
  · intro h
    exact ⟨fun start hstart => (hregister start hstart).mp (h.register start hstart),
      fun key lpt n hn => (hmove hshort env key lpt).mp (h.move key lpt n hn)⟩
  · intro h
    exact ⟨fun start hstart => (hregister start hstart).mpr (h.register start hstart),
      fun key lpt n hn => (hmove hshort env key lpt).mpr (h.move key lpt n hn)⟩

namespace Plist

/- A unit without registrations. -/
def noKeys : Env := ⟨none, [], [], fun _ => none, false⟩

/- The fixed part of a REGISTER with SPEC_I_PT and key 1, and the length of what follows. -/
def registerHead (adnLen : UInt8) : Bytes :=
  [0, 0, 0, 0, 0, 0, 0, 0, 0, 0, 0, 0, 0, 0, 0, 1, 0, 0, 0, 0, 8, 0, 0, 0, 0, 0, 0, adnLen]

/- An iSCSI ID for which 24 bytes are left; its length field says 28 more. -/
def longIscsi : Bytes := registerHead 24 ++ [5, 0, 0, 28, 97] ++ List.replicate 19 0

/- Two Fibre Channel IDs. -/
def twoFc : Bytes := registerHead 48 ++ List.replicate 32 0 ++ List.replicate 16 1

end Plist

/-- The validation accepts 32 bytes where 24 are left. -/
theorem plist_iscsi_underflow : ¬ Plist.Safe Plist.noKeys Plist.longIscsi := by
  intro h
  have hstart : Plist.outRegister Plist.noKeys Plist.longIscsi = some ⟨24, 28, []⟩ := by decide
  have hturn := (h.register _ hstart).turns _ .start (by decide)
  have hsize := hturn.size 32 (by decide)
  exact absurd hsize.2 (by decide)

namespace Plist

theorem idFits_of_validate {keys : List PgrKey} {st : Tpds} {sz : Nat}
    (hvalidate : tptidValidate (memOf l) st.adnDat st.adnLen = some (some sz))
    (hsz : 2 ≤ sz ∧ sz ≤ st.adnLen) (hcompared : st.adnDat + compared l st.adnDat ≤ l.length) :
    IdFits l keys st := by
  refine ⟨tptidFits_iff.mpr ⟨?_, ?_⟩, fun _ _ _ _ _ => hcompared⟩
  · rw [hvalidate]
    rfl
  · intro sz' hsz'
    obtain rfl := Option.some.inj (Option.some.inj (hvalidate.symm.trans hsz'))
    exact hsz

theorem fits_twoFc : Fits noKeys twoFc := by
  have hstart : outRegister noKeys twoFc = some ⟨48, 28, []⟩ := by decide
  have hchain : chain twoFc (registerPort noKeys twoFc) noKeys.keys 48 ⟨48, 28, []⟩ =
      [⟨48, 28, []⟩, ⟨24, 52, [⟨28, 24⟩]⟩, ⟨0, 76, [⟨28, 24⟩, ⟨52, 24⟩]⟩] := by decide
  constructor
  · intro start h
    obtain rfl := Option.some.inj (hstart.symm.trans h)
    constructor
    · intro st hst hlen
      simp only [hchain, List.mem_cons, List.not_mem_nil, or_false] at hst
      rcases hst with rfl | rfl | rfl
      iterate 2 exact idFits_of_validate (by decide : _ = some (some 24)) (by decide) (by decide)
      · exact absurd rfl hlen
    · intro st hst hlen r hr
      simp only [hchain, List.mem_cons, List.not_mem_nil, or_false] at hst
      rcases hst with rfl | rfl | rfl
      · cases hlen
      · cases hlen
      · simp only [List.mem_cons, List.not_mem_nil, or_false] at hr
        rcases hr with rfl | rfl <;> exact ⟨by decide, by decide⟩
  · intro key lpt n hmove
    cases hmove

end Plist

/-- A list with two Fibre Channel IDs, the second compared with the first. -/
theorem plist_safe_iff_fits_fc :
    Plist.twoFc.length < 2 ^ 32 ∧ Plist.Safe Plist.noKeys Plist.twoFc :=
  ⟨by decide, (plist_safe_iff_fits Plist.noKeys Plist.twoFc (by decide)).mpr Plist.fits_twoFc⟩

end ClusterZfs

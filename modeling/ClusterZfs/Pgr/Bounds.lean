import ClusterZfs.Pgr.Plist
import Mathlib.Tactic.Common

/-! Which parameter lists are read within their bounds. -/
namespace ClusterZfs

namespace Plist

variable {l : Bytes} {off n : Nat}

/- The length in front of the name of an ID. -/
def lenAt (l : Bytes) (off : Nat) : Nat := field l (off + 2) 2

/- The name of an iSCSI ID with a NUL behind it. -/
structure Named (l : Bytes) (off : Nat) (b : UInt8) (k : Nat) : Prop where
  pos : 0 < k
  short : k < lenAt l off
  terminated : Terminated l (off + 4) k
  seperator : formatCode b = 1 → isidSeperator <:+: (l.drop (off + 4)).take k

/- The iSCSI IDs whose name is looked at. -/
structure IscsiHead (l : Bytes) (off n : Nat) (b : UInt8) : Prop where
  room : 24 ≤ n
  format : formatCode b ≤ 1
  received : off + 4 ≤ l.length
  long : 20 ≤ lenAt l off
  aligned : lenAt l off % 4 = 0

/- The IDs that the validation accepts, with the size it reports. -/
inductive Accepted (l : Bytes) (off n : Nat) : Nat → Prop
  | fixed {b : UInt8} (first : l[off]? = some b)
      (protocol : protocolOf b = .fibreChannel ∨ protocolOf b = .srp)
      (room : 24 ≤ n) (format : formatCode b = 0) : Accepted l off n 24
  | iscsi {b : UInt8} {k : Nat} (first : l[off]? = some b) (protocol : protocolOf b = .iscsi)
      (head : IscsiHead l off n b) (named : Named l off b k) :
      Accepted l off n ((4 + lenAt l off) % 2 ^ 16)
  | other {b : UInt8} (first : l[off]? = some b) (protocol : protocolOf b = .other)
      (received : off + 4 ≤ l.length) (room : 5 ≤ n) (fits : (4 + lenAt l off) % 2 ^ 16 ≤ n) :
      Accepted l off n ((4 + lenAt l off) % 2 ^ 16)

theorem be16_memOf {v : Nat} :
    (memOf l).be16 (off + 2) = some v ↔ off + 4 ≤ l.length ∧ lenAt l off = v := by
  constructor
  · intro h
    have hin : off + 2 + 2 ≤ l.length := be16_memOf_isSome.mp (Option.isSome_of_eq_some h)
    rw [Mem.be16, span_memOf hin, Option.map_some] at h
    exact ⟨hin, Option.some.inj h⟩
  · intro h
    rw [Mem.be16, span_memOf (by omega), Option.map_some, ← h.2]
    rfl

theorem be16_memOf_none (h : l.length < off + 4) : (memOf l).be16 (off + 2) = none := by
  rw [← Option.not_isSome_iff_eq_none, be16_memOf_isSome]
  omega

theorem lenAt_lt (h : off + 4 ≤ l.length) : lenAt l off < 2 ^ 16 :=
  be16_lt (be16_memOf.mpr ⟨h, rfl⟩)

theorem terminated_le {k : Nat} (h : Terminated l off k) : off + k < l.length :=
  (List.getElem?_eq_some_iff.mp h.1).1

theorem terminated_unique {k k' : Nat} (h : Terminated l off k) (h' : Terminated l off k') :
    k = k' := by
  obtain hlt | heq | hlt := Nat.lt_trichotomy k k'
  · obtain ⟨b, hb, hne⟩ := h'.2 k hlt
    exact absurd (Option.some.inj (hb.symm.trans h.1)) hne
  · exact heq
  · obtain ⟨b, hb, hne⟩ := h.2 k' hlt
    exact absurd (Option.some.inj (hb.symm.trans h'.1)) hne

/- The name can be looked at without leaving the list. -/
def NameReceived (l : Bytes) (off : Nat) : Prop :=
  (∃ k < lenAt l off, Terminated l (off + 4) k) ∨ Unterminated l (off + 4) (lenAt l off)

/- What a validation can come to: a byte it needs is not there, or it refuses the ID, or it accepts
it with this one size. -/
inductive Verdict (received : Prop) (accepted : Nat → Prop) : Option (Option Nat) → Prop
  | unread (h : ¬ received) : Verdict received accepted none
  | refused (h : received) (hno : ∀ sz, ¬ accepted sz) : Verdict received accepted (some none)
  | accepts {sz : Nat} (h : received) (hsz : ∀ sz', accepted sz' ↔ sz' = sz) :
      Verdict received accepted (some (some sz))

theorem Verdict.congr {received received' : Prop} {accepted accepted' : Nat → Prop}
    {o : Option (Option Nat)} (h : Verdict received accepted o) (hr : received' ↔ received)
    (ha : ∀ sz, accepted' sz ↔ accepted sz) : Verdict received' accepted' o := by
  cases h with
  | unread h => exact .unread (mt hr.mp h)
  | refused h hno => exact .refused (hr.mpr h) fun sz => mt (ha sz).mp (hno sz)
  | accepts h hsz => exact .accepts (hr.mpr h) fun sz => (ha sz).trans (hsz sz)

section Iscsi

variable {b : UInt8}

theorem validateIscsi_head (h : IscsiHead l off n b) : validateIscsi (memOf l) off b n =
    ((memOf l).strnlen (off + 4) (lenAt l off)).bind fun nameLen =>
      if nameLen = 0 ∨ lenAt l off ≤ nameLen then some none
      else ((memOf l).span (off + 4) nameLen).map fun name =>
        if formatCode b = 1 ∧ ¬ isidSeperator <:+: name then none
        else some ((5 + lenAt l off - 1) % 2 ^ 16) := by
  have hformat := h.format
  have hlong := h.long
  have haligned := h.aligned
  have hroom := h.room
  rw [validateIscsi, if_neg (by omega), be16_memOf.mpr ⟨h.received, rfl⟩, Option.bind_some,
    if_neg (by omega)]

theorem validateIscsi_no_head (h : ¬ IscsiHead l off n b) :
    (validateIscsi (memOf l) off b n = some none ∧
        (24 ≤ n → formatCode b ≤ 1 → off + 4 ≤ l.length)) ∨
      (validateIscsi (memOf l) off b n = none ∧ 24 ≤ n ∧ formatCode b ≤ 1 ∧
        l.length < off + 4) := by
  rw [validateIscsi]
  by_cases hrefused : n < 24 ∨ (formatCode b ≠ 0 ∧ formatCode b ≠ 1)
  · refine .inl ⟨if_pos hrefused, ?_⟩
    omega
  · rw [if_neg hrefused]
    by_cases hreceived : off + 4 ≤ l.length
    · rw [be16_memOf.mpr ⟨hreceived, rfl⟩, Option.bind_some]
      refine .inl ⟨if_pos ?_, fun _ _ => hreceived⟩
      by_contra hlen
      exact h ⟨by omega, by omega, hreceived, by omega, by omega⟩
    · rw [be16_memOf_none (by omega), Option.bind_none]
      exact .inr ⟨rfl, by omega, by omega, by omega⟩

/- The bytes of an iSCSI ID that the validation needs. -/
structure IscsiReceived (l : Bytes) (off n : Nat) (b : UInt8) : Prop where
  head : 24 ≤ n → formatCode b ≤ 1 → off + 4 ≤ l.length
  name : IscsiHead l off n b → NameReceived l off

theorem validateIscsi_verdict : Verdict (IscsiReceived l off n b)
    (fun sz => IscsiHead l off n b ∧ (∃ k, Named l off b k) ∧ sz = (4 + lenAt l off) % 2 ^ 16)
    (validateIscsi (memOf l) off b n) := by
  by_cases hhead : IscsiHead l off n b
  · rw [validateIscsi_head hhead]
    have hreceived : NameReceived l off → IscsiReceived l off n b :=
      fun h => ⟨fun _ _ => hhead.received, fun _ => h⟩
    cases hk : (memOf l).strnlen (off + 4) (lenAt l off) with
    | none =>
      refine .unread fun h => ?_
      rcases h.name hhead with ⟨k, hterm⟩ | h
      · rw [strnlen_memOf.mpr (.inl hterm)] at hk
        cases hk
      · rw [strnlen_memOf.mpr (.inr ⟨rfl, h⟩)] at hk
        cases hk
    | some k =>
      rw [Option.bind_some]
      cases strnlen_memOf.mp hk with
      | inr h =>
        rw [if_pos (.inr h.1.ge)]
        refine .refused (hreceived (.inr h.2)) ?_
        rintro sz ⟨_, ⟨k', hnamed⟩, _⟩
        obtain ⟨c, hc, hne⟩ := h.2 k' hnamed.short
        exact hne (Option.some.inj (hc.symm.trans hnamed.terminated.1))
      | inl h =>
        have hread := hreceived (.inl ⟨k, h⟩)
        by_cases hempty : k = 0
        · rw [if_pos (.inl hempty)]
          refine .refused hread ?_
          rintro sz ⟨_, ⟨k', hnamed⟩, _⟩
          have hsame := terminated_unique hnamed.terminated h.2
          have hpos := hnamed.pos
          omega
        · have hlt := h.1
          have hin := terminated_le h.2
          rw [if_neg (by omega), span_memOf (by omega), Option.map_some]
          by_cases hsep : formatCode b = 1 ∧ ¬ isidSeperator <:+: (l.drop (off + 4)).take k
          · rw [if_pos hsep]
            refine .refused hread ?_
            rintro sz ⟨_, ⟨k', hnamed⟩, _⟩
            obtain rfl := terminated_unique hnamed.terminated h.2
            exact hsep.2 (hnamed.seperator hsep.1)
          · rw [if_neg hsep]
            have hsize : 5 + lenAt l off - 1 = 4 + lenAt l off := by omega
            rw [hsize]
            refine .accepts hread fun sz => ⟨fun hacc => hacc.2.2, fun hsz => ⟨hhead, ⟨k,
              Nat.pos_of_ne_zero hempty, hlt, h.2, fun hformat => ?_⟩, hsz⟩⟩
            exact Decidable.of_not_not fun hno => hsep ⟨hformat, hno⟩
  · cases validateIscsi_no_head hhead with
    | inl h =>
      rw [h.1]
      exact .refused ⟨h.2, fun hh => absurd hh hhead⟩ fun sz hacc => hhead hacc.1
    | inr h =>
      rw [h.1]
      refine .unread fun hread => ?_
      have hin := hread.head h.2.1 h.2.2.1
      omega

end Iscsi

theorem validateFixed_verdict (b : UInt8) :
    Verdict True (fun sz => 24 ≤ n ∧ formatCode b = 0 ∧ sz = 24) (some (validateFixed b n)) := by
  rw [validateFixed]
  split
  · refine .refused trivial ?_
    rintro sz ⟨hroom, hformat, _⟩
    omega
  · exact .accepts trivial fun sz => ⟨fun h => h.2.2, fun h => ⟨by omega, by omega, h⟩⟩

theorem validateOther_verdict :
    Verdict (5 ≤ n → off + 4 ≤ l.length)
      (fun sz => off + 4 ≤ l.length ∧ 5 ≤ n ∧ (4 + lenAt l off) % 2 ^ 16 ≤ n ∧
        sz = (4 + lenAt l off) % 2 ^ 16)
      (validateOther (memOf l) off n) := by
  rw [validateOther]
  split
  · refine .refused (by omega) ?_
    rintro sz ⟨_, hroom, _⟩
    omega
  · have hsize : 5 + lenAt l off - 1 = 4 + lenAt l off := by omega
    by_cases hreceived : off + 4 ≤ l.length
    · rw [be16_memOf.mpr ⟨hreceived, rfl⟩, Option.map_some, hsize]
      split
      · refine .refused (fun _ => hreceived) ?_
        rintro sz ⟨_, _, hfits, _⟩
        omega
      · exact .accepts (fun _ => hreceived) fun sz => ⟨fun h => h.2.2.2,
          fun h => ⟨hreceived, by omega, by omega, h⟩⟩
    · rw [be16_memOf_none (by omega), Option.map_none]
      exact .unread fun h => hreceived (h (by omega))

/- The bytes that the validation of an ID needs. -/
structure TptidReceived (l : Bytes) (off n : Nat) : Prop where
  first : 2 ≤ n → off < l.length
  iscsi : ∀ b, l[off]? = some b → protocolOf b = .iscsi → IscsiReceived l off n b
  other : ∀ b, l[off]? = some b → protocolOf b = .other → 5 ≤ n → off + 4 ≤ l.length

theorem first_eq {b b' : UInt8} (h : l[off]? = some b) (h' : l[off]? = some b') : b' = b :=
  Option.some.inj (h'.symm.trans h)

theorem received_of_first {b : UInt8} (hfirst : l[off]? = some b)
    (hiscsi : protocolOf b = .iscsi → IscsiReceived l off n b)
    (hother : protocolOf b = .other → 5 ≤ n → off + 4 ≤ l.length) : TptidReceived l off n := by
  refine ⟨fun _ => (List.getElem?_eq_some_iff.mp hfirst).1, ?_, ?_⟩ <;> intro b' hb' <;>
    rw [first_eq hfirst hb']
  · exact hiscsi
  · exact hother

theorem validateFixed_tptid {b : UInt8} (hfirst : l[off]? = some b)
    (hp : protocolOf b = .fibreChannel ∨ protocolOf b = .srp) :
    Verdict (TptidReceived l off n) (Accepted l off n) (some (validateFixed b n)) := by
  refine (validateFixed_verdict b).congr ?_ ?_
  · refine iff_true_intro (received_of_first hfirst ?_ ?_) <;> intro hp' <;> simp [hp'] at hp
  · intro sz
    constructor
    · intro hacc
      cases hacc with
      | fixed hb' _ hroom hformat =>
        rw [first_eq hfirst hb'] at hformat
        exact ⟨hroom, hformat, rfl⟩
      | iscsi hb' hp' | other hb' hp' =>
        rw [first_eq hfirst hb'] at hp'
        simp [hp'] at hp
    · rintro ⟨hroom, hformat, rfl⟩
      exact .fixed hfirst hp hroom hformat

theorem tptidValidate_verdict :
    Verdict (TptidReceived l off n) (Accepted l off n) (tptidValidate (memOf l) off n) := by
  rw [tptidValidate]
  by_cases hsmall : n < 2
  · rw [if_pos hsmall]
    refine .refused ⟨by omega, fun b _ _ => ⟨by omega, ?_⟩, by omega⟩ ?_
    · intro head
      have hroom := head.room
      omega
    · intro sz hacc
      cases hacc with
      | fixed _ _ hroom _ => omega
      | iscsi _ _ head _ =>
        have hroom := head.room
        omega
      | other _ _ _ hroom _ => omega
  rw [if_neg hsmall]
  cases hb : memOf l off with
  | none =>
    have hout : l.length ≤ off := List.getElem?_eq_none_iff.mp hb
    refine .unread fun h => ?_
    have hin := h.first (by omega)
    omega
  | some b =>
    have hfirst : l[off]? = some b := hb
    rw [Option.bind_some]
    cases hp : protocolOf b with
    | fibreChannel => exact validateFixed_tptid hfirst (.inl hp)
    | srp => exact validateFixed_tptid hfirst (.inr hp)
    | iscsi =>
      refine validateIscsi_verdict.congr ?_ ?_
      · refine ⟨fun h => h.iscsi b hfirst hp, fun h => received_of_first hfirst (fun _ => h) ?_⟩
        simp [hp]
      · intro sz
        constructor
        · intro hacc
          cases hacc with
          | iscsi hb' _ head named =>
            obtain rfl := first_eq hfirst hb'
            exact ⟨head, ⟨_, named⟩, rfl⟩
          | fixed hb' hp' | other hb' hp' => simp [first_eq hfirst hb', hp] at hp'
        · rintro ⟨head, ⟨k, named⟩, rfl⟩
          exact .iscsi hfirst hp head named
    | other =>
      refine validateOther_verdict.congr ?_ ?_
      · refine ⟨fun h => h.other b hfirst hp, fun h => received_of_first hfirst ?_ fun _ => h⟩
        simp [hp]
      · intro sz
        constructor
        · intro hacc
          cases hacc with
          | fixed hb' hp' | iscsi hb' hp' => simp [first_eq hfirst hb', hp] at hp'
          | other _ _ hreceived hroom hfits => exact ⟨hreceived, hroom, hfits, rfl⟩
        · rintro ⟨hreceived, hroom, hfits, rfl⟩
          exact .other hfirst hp hreceived hroom hfits

theorem Accepted.received {sz : Nat} (h : Accepted l off n sz) : TptidReceived l off n := by
  cases h with
  | fixed hfirst hp =>
    refine received_of_first hfirst ?_ ?_ <;> intro hp' <;> simp [hp'] at hp
  | iscsi hfirst hp head named =>
    refine received_of_first hfirst ?_ fun _ _ => head.received
    intro _
    exact ⟨fun _ _ => head.received, fun _ => .inl ⟨_, named.short, named.terminated⟩⟩
  | other hfirst hp hreceived =>
    exact received_of_first hfirst (by simp [hp]) fun _ _ => hreceived

theorem tptidValidate_isSome :
    (tptidValidate (memOf l) off n).isSome ↔ TptidReceived l off n := by
  have hverdict := @tptidValidate_verdict l off n
  generalize tptidValidate (memOf l) off n = out at hverdict ⊢
  cases hverdict with
  | unread h | refused h | accepts h => simp [h]

theorem tptidValidate_accepts {sz : Nat} :
    tptidValidate (memOf l) off n = some (some sz) ↔ Accepted l off n sz := by
  have hverdict := @tptidValidate_verdict l off n
  generalize hout : tptidValidate (memOf l) off n = out at hverdict
  cases hverdict with
  | unread h => exact ⟨nofun, fun hacc => absurd hacc.received h⟩
  | refused _ hno => simp [hno sz]
  | accepts _ hsz =>
    rw [hsz sz, Option.some.injEq, Option.some.injEq]
    exact eq_comm

/- The ID ends in the space it is given, and its length does not run over in 16 bits. -/
structure TptidFits (l : Bytes) (off n : Nat) : Prop extends TptidReceived l off n where
  iscsiLen : ∀ b k, l[off]? = some b → protocolOf b = .iscsi → IscsiHead l off n b →
    Named l off b k → 4 + lenAt l off ≤ n ∧ lenAt l off ≠ 65532
  otherLen : ∀ b, l[off]? = some b → protocolOf b = .other → 5 ≤ n →
    lenAt l off ≠ 65532 ∧ lenAt l off ≠ 65533

theorem tptidFits_iff : TptidFits l off n ↔ (tptidValidate (memOf l) off n).isSome ∧
    ∀ sz, tptidValidate (memOf l) off n = some (some sz) → 2 ≤ sz ∧ sz ≤ n := by
  rw [tptidValidate_isSome]
  constructor
  · intro h
    refine ⟨h.toTptidReceived, fun sz hsz => ?_⟩
    cases tptidValidate_accepts.mp hsz with
    | fixed _ _ hroom _ => omega
    | iscsi hfirst hp head named =>
      have hlen := h.iscsiLen _ _ hfirst hp head named
      have hlt := lenAt_lt head.received
      have haligned := head.aligned
      omega
    | other hfirst hp hreceived hroom hfits =>
      have hlen := h.otherLen _ hfirst hp hroom
      have hlt := lenAt_lt hreceived
      omega
  · intro h
    refine ⟨h.1, ?_, ?_⟩
    · intro b k hfirst hp head named
      have hsz := h.2 _ (tptidValidate_accepts.mpr (.iscsi hfirst hp head named))
      have hlt := lenAt_lt head.received
      have haligned := head.aligned
      omega
    · intro b hfirst hp hroom
      have hreceived := h.1.other b hfirst hp hroom
      by_cases hfits : (4 + lenAt l off) % 2 ^ 16 ≤ n
      · have hsz := h.2 _ (tptidValidate_accepts.mpr (.other hfirst hp hreceived hroom hfits))
        omega
      · omega

def Long (b : UInt8) : Prop := protocolOf b = .iscsi ∨ protocolOf b = .other

section Compare

variable {m m' : Mem} {off' : Nat} {b b' : UInt8}

/- The bytes of an ID that say what there is to compare. -/
structure Headed (m : Mem) (off : Nat) (b : UInt8) : Prop where
  first : m off = some b
  length : Long b → (m.be16 (off + 2)).isSome

/- The bytes that are compared. -/
structure Whole (m : Mem) (off : Nat) (b : UInt8) : Prop where
  fibreChannel : protocolOf b = .fibreChannel → (m.span (off + 8) 8).isSome
  srp : protocolOf b = .srp → (m.span (off + 8) 16).isSome
  long : Long b → ∀ len, m.be16 (off + 2) = some len → (m.span (off + 4) len).isSome

/- Two IDs whose names are compared. -/
structure LooksLike (m : Mem) (off : Nat) (b : UInt8) (m' : Mem) (off' : Nat) (b' : UInt8) :
    Prop where
  protocol : protocolId b = protocolId b'
  format : formatCode b = formatCode b'
  length : Long b → m.span (off + 2) 2 = m'.span (off' + 2) 2

theorem memcmpZero_isSome {n : Nat} : (m.memcmpZero off m' off' n).isSome ↔
    (m.span off n).isSome ∧ (m'.span off' n).isSome := by
  rw [Mem.memcmpZero]
  cases m.span off n <;> simp

theorem LooksLike.protocolOf_eq (h : LooksLike m off b m' off' b') :
    protocolOf b = protocolOf b' := by
  rw [protocolOf, protocolOf, h.protocol]

theorem whole_long {len : Nat} (hb : Long b) (hlen : m.be16 (off + 2) = some len) :
    Whole m off b ↔ (m.span (off + 4) len).isSome := by
  refine ⟨fun h => h.long hb len hlen, fun h => ⟨?_, ?_, fun _ len' hlen' => ?_⟩⟩
  · intro hp
    simp [Long, hp] at hb
  · intro hp
    simp [Long, hp] at hb
  · rwa [← Option.some.inj (hlen.symm.trans hlen')]

theorem whole_fibreChannel (hb : protocolOf b = .fibreChannel) :
    Whole m off b ↔ (m.span (off + 8) 8).isSome :=
  ⟨fun h => h.fibreChannel hb,
    fun h => ⟨fun _ => h, by simp [hb], by simp [Long, hb]⟩⟩

theorem whole_srp (hb : protocolOf b = .srp) :
    Whole m off b ↔ (m.span (off + 8) 16).isSome :=
  ⟨fun h => h.srp hb, fun h => ⟨by simp [hb], fun _ => h, by simp [Long, hb]⟩⟩

/- The lengths are compared first, then the names if they are the same. -/
theorem compareLong_eq {bs bs' : Bytes} (h : m.span (off + 2) 2 = some bs)
    (h' : m'.span (off' + 2) 2 = some bs') : compareLong m off m' off' =
      if bs = bs' then m.memcmpZero (off + 4) m' (off' + 4) (ofBe bs) else some false := by
  simp [compareLong, Mem.be16, Mem.memcmpZero, h, h']

section

variable (h : Headed m off b)
include h

theorem Headed.span (hb : Long b) : ∃ bs, m.span (off + 2) 2 = some bs := by
  have hlen := h.length hb
  rw [Mem.be16, Option.isSome_map] at hlen
  exact Option.isSome_iff_exists.mp hlen

section

variable (h' : Headed m' off' b')
include h'

theorem compareLong_isSome (hb : Long b)
    (hb' : Long b') : (compareLong m off m' off').isSome ↔
      (m.span (off + 2) 2 = m'.span (off' + 2) 2 → Whole m off b ∧ Whole m' off' b') := by
  obtain ⟨bs, hbs⟩ := h.span hb
  obtain ⟨bs', hbs'⟩ := h'.span hb'
  have hlen : m.be16 (off + 2) = some (ofBe bs) := by rw [Mem.be16, hbs, Option.map_some]
  have hlen' : m'.be16 (off' + 2) = some (ofBe bs') := by rw [Mem.be16, hbs', Option.map_some]
  rw [compareLong_eq hbs hbs', hbs, hbs', Option.some.injEq, whole_long hb hlen,
    whole_long hb' hlen']
  by_cases heq : bs = bs'
  · subst heq
    simp [memcmpZero_isSome]
  · simp [heq]

theorem tptidCompare_same
    (hp : protocolId b = protocolId b') (hf : formatCode b = formatCode b') :
    tptidCompare m off m' off' = match protocolOf b with
      | .iscsi => compareLong m off m' off'
      | .srp => m.memcmpZero (off + 8) m' (off' + 8) 16
      | .fibreChannel => m.memcmpZero (off + 8) m' (off' + 8) 8
      | .other => compareLong m off m' off' := by
  have hsame : ¬ (protocolId b ≠ protocolId b' ∨ formatCode b ≠ formatCode b') := by
    simp [hp, hf]
  rw [tptidCompare, h.first, Option.bind_some, h'.first, Option.bind_some]
  exact if_neg hsame

theorem tptidCompare_apart
    (hne : protocolId b ≠ protocolId b' ∨ formatCode b ≠ formatCode b') :
    tptidCompare m off m' off' = some false := by
  rw [tptidCompare, h.first, Option.bind_some, h'.first, Option.bind_some, if_pos hne]

theorem tptidCompare_isSome :
    (tptidCompare m off m' off').isSome ↔
      (LooksLike m off b m' off' b' → Whole m off b ∧ Whole m' off' b') := by
  by_cases hsame : protocolId b = protocolId b' ∧ formatCode b = formatCode b'
  · obtain ⟨hp, hf⟩ := hsame
    have hprot : protocolOf b = protocolOf b' := by rw [protocolOf, protocolOf, hp]
    rw [tptidCompare_same h h' hp hf]
    have hlong : Long b → ((compareLong m off m' off').isSome ↔
        (LooksLike m off b m' off' b' → Whole m off b ∧ Whole m' off' b')) := by
      intro hb
      have hb' : Long b' := by rwa [Long, ← hprot]
      rw [compareLong_isSome h h' hb hb']
      exact ⟨fun hw hl => hw (hl.length hb), fun hw heq => hw ⟨hp, hf, fun _ => heq⟩⟩
    cases hb : protocolOf b with
    | iscsi => exact hlong (.inl hb)
    | other => exact hlong (.inr hb)
    | srp =>
      have hl : LooksLike m off b m' off' b' := ⟨hp, hf, by simp [Long, hb]⟩
      rw [whole_srp hb, whole_srp (hprot.symm.trans hb)]
      simp [memcmpZero_isSome, hl]
    | fibreChannel =>
      have hl : LooksLike m off b m' off' b' := ⟨hp, hf, by simp [Long, hb]⟩
      rw [whole_fibreChannel hb, whole_fibreChannel (hprot.symm.trans hb)]
      simp [memcmpZero_isSome, hl]
  · rw [tptidCompare_apart h h' (by tauto)]
    exact iff_of_true rfl fun hl => absurd ⟨hl.protocol, hl.format⟩ hsame

theorem tptidCompare_true
    (heq : tptidCompare m off m' off' = some true) : LooksLike m off b m' off' b' := by
  by_cases hsame : protocolId b = protocolId b' ∧ formatCode b = formatCode b'
  · obtain ⟨hp, hf⟩ := hsame
    have hprot : protocolOf b = protocolOf b' := by rw [protocolOf, protocolOf, hp]
    refine ⟨hp, hf, ?_⟩
    intro hb
    have hcompare : compareLong m off m' off' = some true := by
      rw [tptidCompare_same h h' hp hf] at heq
      rcases hb with hb | hb <;> simpa only [hb] using heq
    obtain ⟨bs, hbs⟩ := h.span hb
    obtain ⟨bs', hbs'⟩ := h'.span (by rwa [Long, ← hprot])
    rw [compareLong_eq hbs hbs'] at hcompare
    split at hcompare
    · rename_i hsame
      rw [hbs, hbs', hsame]
    · cases hcompare
  · rw [tptidCompare_apart h h' (by tauto)] at heq
    cases heq

end

end

end Compare

end Plist

end ClusterZfs

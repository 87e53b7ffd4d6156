import ClusterZfs.Rlock.Code
import Mathlib.Algebra.BigOperators.Group.Multiset.Basic
import Mathlib.Algebra.Order.Group.Multiset

/-! What the entries of the tree say point by point, and how a new reader spreads over them: every
point of its range is counted once more, and an entry is only ever cut or replaced by a proxy. -/
namespace ClusterZfs

/- A range as the thread that asked for it knows it. -/
structure Held where
  id : Nat
  off : Nat
  len : Nat
  type : RlType
  deriving DecidableEq

def Held.Has (g : Held) (x : Nat) : Prop := g.off ≤ x ∧ x < g.off + g.len

instance (g : Held) (x : Nat) : Decidable (g.Has x) := inferInstanceAs (Decidable (_ ∧ _))

namespace Rl

def Has (rl : Rl) (x : Nat) : Prop := rl.rOff ≤ x ∧ x < rl.rEnd

instance (rl : Rl) (x : Nat) : Decidable (rl.Has x) := inferInstanceAs (Decidable (_ ∧ _))

def held (rl : Rl) : Held := ⟨rl.rId, rl.rOff, rl.rLen, rl.rType⟩

/- What holds of every entry of the tree. -/
structure Valid (rl : Rl) : Prop where
  pos : 0 < rl.rLen
  bound : rl.rEnd < 2 ^ 64
  cnt : 0 < rl.rCnt
  proxy : rl.rProxy = true → rl.rType = .reader
  plain : rl.rProxy = false → rl.rCnt = 1
  type : rl.rType ≠ .append
  wanted : rl.rType = .reader → rl.rReadWanted = true → rl.rWriteWanted = true

/- What holds of a reader's lock that proxies stand for. -/
structure Replaced (rl : Rl) : Prop where
  cnt : rl.rCnt = 0
  type : rl.rType = .reader
  plain : rl.rProxy = false
  writeWanted : rl.rWriteWanted = false
  readWanted : rl.rReadWanted = false

theorem Valid.has_off {rl : Rl} (h : rl.Valid) : rl.Has rl.rOff := by
  have := h.pos
  exact ⟨le_refl _, by unfold rEnd; omega⟩

theorem Valid.off_lt_end {rl : Rl} (h : rl.Valid) : rl.rOff < rl.rEnd := h.has_off.2

end Rl

def RlApart (l : List Rl) : Prop := l.Pairwise fun a b => a.rEnd ≤ b.rOff

/- The readers an entry counts at a point. -/
def Rl.readersAt (rl : Rl) (x : Nat) : Nat :=
  if rl.rType = .reader ∧ rl.Has x then rl.rCnt else 0

def readersAt (l : List Rl) (x : Nat) : Nat := (l.map fun rl => rl.readersAt x).sum

def heldOf (l : List Rl) : Multiset Held := (l.map Rl.held : List Held)

def plainHeld (l : List Rl) : Multiset Held := heldOf (l.filter fun rl => !rl.rProxy)

section Additive

variable {x : Nat} (rl : Rl) (l : List Rl) (m : List Rl)

@[simp] theorem readersAt_nil : readersAt [] x = 0 := rfl

@[simp] theorem readersAt_cons :
    readersAt (rl :: l) x = rl.readersAt x + readersAt l x := by
  simp [readersAt]

@[simp] theorem readersAt_append :
    readersAt (l ++ m) x = readersAt l x + readersAt m x := by
  simp [readersAt]

@[simp] theorem heldOf_cons : heldOf (rl :: l) = rl.held ::ₘ heldOf l := rfl

@[simp] theorem heldOf_append : heldOf (l ++ m) = heldOf l + heldOf m := by
  simp [heldOf]

@[simp] theorem plainHeld_nil : plainHeld [] = 0 := rfl

@[simp] theorem plainHeld_append :
    plainHeld (l ++ m) = plainHeld l + plainHeld m := by
  simp [plainHeld]

theorem plainHeld_proxy (h : rl.rProxy = true) (l : List Rl) :
    plainHeld (rl :: l) = plainHeld l := by
  simp [plainHeld, h]

theorem plainHeld_plain (h : rl.rProxy = false) (l : List Rl) :
    plainHeld (rl :: l) = rl.held ::ₘ plainHeld l := by
  simp [plainHeld, h]

end Additive

/- `l'` is `l` with one reader more from `s` to `fin`. `replaced` are the locks of `l` that are
now proxies, `own` is what stands in `l'` for a thread and did not in `l`. -/
structure Spread (s fin : Nat) (own : Multiset Held) (l l' replaced : List Rl) : Prop where
  valid : ∀ e ∈ l', e.Valid
  apart : RlApart l'
  count : ∀ x, readersAt l' x = readersAt l x + if s ≤ x ∧ x < fin then 1 else 0
  held : plainHeld l' + heldOf replaced = plainHeld l + own
  replaced : ∀ g ∈ replaced, g.Replaced
  refined : ∀ e' ∈ l', (∃ e ∈ l, e.rOff ≤ e'.rOff ∧ e'.rEnd ≤ e.rEnd) ∨
    (s ≤ e'.rOff ∧ e'.rEnd ≤ fin ∧ ∀ e ∈ l, e'.rEnd ≤ e.rOff ∨ e.rEnd ≤ e'.rOff)
  within : ∀ e' ∈ l', e'.rEnd ≤ s ∨ (s ≤ e'.rOff ∧ e'.rEnd ≤ fin) ∨ fin ≤ e'.rOff
  covers : ∀ e ∈ l, ∀ x, e.Has x → ∃ e' ∈ l', e'.Has x

namespace Spread

variable {s m fin : Nat} {own own₁ own₂ : Multiset Held} {l l' l₁ l₁' l₂ l₂' d d₁ d₂ : List Rl}

/-- Nothing is spread over entries on both sides of a point. -/
theorem rest (hvalid : ∀ e ∈ l, e.Valid) (hapart : RlApart l)
    (hside : ∀ e ∈ l, e.rEnd ≤ s ∨ s ≤ e.rOff) : Spread s s 0 l l [] where
  valid := hvalid
  apart := hapart
  count x := by
    have : ¬ (s ≤ x ∧ x < s) := by omega
    simp [this]
  held := rfl
  replaced := by simp
  refined e he := .inl ⟨e, he, le_refl _, le_refl _⟩
  within e he := (hside e he).imp_right .inr
  covers e he x hx := ⟨e, he, hx⟩

/-- One piece after the other: the first leaves what is behind it alone, unless nothing is spread
there, and so does the second with what is before it. -/
theorem join (h₁ : Spread s m own₁ l₁ l₁' d₁) (h₂ : Spread m fin own₂ l₂ l₂' d₂)
    (hsm : s ≤ m) (hmf : m ≤ fin) (hcross : ∀ a ∈ l₁, ∀ b ∈ l₂, a.rEnd ≤ b.rOff)
    (hl₁ : m < fin → ∀ e ∈ l₁, e.rEnd ≤ m) (hl₂ : s < m → ∀ e ∈ l₂, m ≤ e.rOff) :
    Spread s fin (own₁ + own₂) (l₁ ++ l₂) (l₁' ++ l₂') (d₁ ++ d₂) := by
  have hpos₁ := fun e he => (h₁.valid e he).off_lt_end
  have hpos₂ := fun e he => (h₂.valid e he).off_lt_end
  have hrefined₁ := h₁.refined
  have hrefined₂ := h₂.refined
  refine ⟨List.forall_mem_append.mpr ⟨h₁.valid, h₂.valid⟩, ?_, fun x => ?_, ?_,
    List.forall_mem_append.mpr ⟨h₁.replaced, h₂.replaced⟩, fun e' he' => ?_, fun e' he' => ?_, ?_⟩
  · refine List.pairwise_append.mpr ⟨h₁.apart, h₂.apart, fun a ha b hb => ?_⟩
    rcases hrefined₁ a ha with ⟨e, he, -, hle⟩ | ⟨hlo, hhi, -⟩
    · rcases hrefined₂ b hb with ⟨e', he', hge, -⟩ | ⟨hge, hup, -⟩
      · exact hle.trans ((hcross e he e' he').trans hge)
      · have hpos := hpos₂ b hb
        exact hle.trans ((hl₁ (by omega) e he).trans hge)
    · have hpos := hpos₁ a ha
      rcases hrefined₂ b hb with ⟨e', he', hge, -⟩ | ⟨hge, -, -⟩
      · exact hhi.trans ((hl₂ (by omega) e' he').trans hge)
      · exact hhi.trans hge
  · have hsum : (if s ≤ x ∧ x < fin then 1 else 0) =
        (if s ≤ x ∧ x < m then 1 else 0) + (if m ≤ x ∧ x < fin then 1 else 0) := by
      split_ifs <;> omega
    rw [readersAt_append, readersAt_append, h₁.count, h₂.count, hsum]
    omega
  · rw [plainHeld_append, plainHeld_append, heldOf_append, add_add_add_comm, h₁.held, h₂.held,
      add_add_add_comm]
  · rcases List.mem_append.mp he' with he' | he'
    · have hpos := hpos₁ e' he'
      rcases hrefined₁ e' he' with ⟨e, he, hin⟩ | ⟨hs, hm, hno⟩
      · exact .inl ⟨e, List.mem_append_left _ he, hin⟩
      · refine .inr ⟨hs, hm.trans hmf, List.forall_mem_append.mpr ⟨hno, fun e he => ?_⟩⟩
        exact .inl (hm.trans (hl₂ (by omega) e he))
    · have hpos := hpos₂ e' he'
      rcases hrefined₂ e' he' with ⟨e, he, hin⟩ | ⟨hm, hf, hno⟩
      · exact .inl ⟨e, List.mem_append_right _ he, hin⟩
      · refine .inr ⟨hsm.trans hm, hf, List.forall_mem_append.mpr ⟨fun e he => ?_, hno⟩⟩
        exact .inr ((hl₁ (by omega) e he).trans hm)
  · rcases List.mem_append.mp he' with he' | he'
    · rcases h₁.within e' he' with hbefore | hinside | hbehind
      · exact .inl hbefore
      · exact .inr (.inl ⟨hinside.1, hinside.2.trans hmf⟩)
      · -- Behind the first piece: where something is spread there, no entry of it comes from there.
        by_cases hmore : m < fin
        · rcases hrefined₁ e' he' with ⟨e, he, -, hle⟩ | ⟨-, hle, -⟩
          · have hend := hl₁ hmore e he
            omega
          · omega
        · exact .inr (.inr (by omega))
    · rcases h₂.within e' he' with hbefore | hinside | hbehind
      · by_cases hmore : s < m
        · rcases hrefined₂ e' he' with ⟨e, he, hge, -⟩ | ⟨hge, -, -⟩
          · have hoff := hl₂ hmore e he
            omega
          · omega
        · exact .inl (by omega)
      · exact .inr (.inl ⟨hsm.trans hinside.1, hinside.2⟩)
      · exact .inr (.inr hbehind)
  · intro e he x hx
    rcases List.mem_append.mp he with he | he
    · obtain ⟨e', he', hx'⟩ := h₁.covers e he x hx
      exact ⟨e', List.mem_append_left _ he', hx'⟩
    · obtain ⟨e', he', hx'⟩ := h₂.covers e he x hx
      exact ⟨e', List.mem_append_right _ he', hx'⟩

theorem append (h₁ : Spread s m own₁ l₁ l₁' d₁) (h₂ : Spread m fin own₂ l₂ l₂' d₂)
    (hsm : s ≤ m) (hmf : m ≤ fin) (hl₁ : ∀ e ∈ l₁, e.rEnd ≤ m) (hl₂ : ∀ e ∈ l₂, m ≤ e.rOff) :
    Spread s fin (own₁ + own₂) (l₁ ++ l₂) (l₁' ++ l₂') (d₁ ++ d₂) :=
  h₁.join h₂ hsm hmf (fun a ha b hb => (hl₁ a ha).trans (hl₂ b hb)) (fun _ => hl₁) fun _ => hl₂

theorem append_rest (h : Spread s fin own l l' d) (hs : s ≤ fin) {rest : List Rl}
    (hvalid : ∀ e ∈ rest, e.Valid) (hapart : RlApart (l ++ rest))
    (hfin : ∀ e ∈ rest, fin ≤ e.rOff) : Spread s fin own (l ++ rest) (l' ++ rest) d := by
  obtain ⟨-, hrest, hcross⟩ := List.pairwise_append.mp hapart
  simpa using h.join (.rest hvalid hrest fun e he => .inr (hfin e he)) hs le_rfl hcross
    (fun hlt => absurd hlt (lt_irrefl _)) fun _ => hfin

theorem rest_append (h : Spread s fin own l l' d) (hfin : s ≤ fin) {left : List Rl}
    (hvalid : ∀ e ∈ left, e.Valid) (hapart : RlApart (left ++ l)) (hs : ∀ e ∈ left, e.rEnd ≤ s) :
    Spread s fin own (left ++ l) (left ++ l') d := by
  obtain ⟨hleft, -, hcross⟩ := List.pairwise_append.mp hapart
  have hjoin := (Spread.rest hvalid hleft fun e he => .inl (hs e he)).join h le_rfl hfin hcross
    (fun _ => hs) fun hlt => absurd hlt (lt_irrefl _)
  simpa using hjoin

/-- A cut, and then the spread over what was cut. -/
theorem trans (hvalid : ∀ e ∈ l, e.Valid) (h₁ : Spread s s own₁ l l₁ d₁)
    (h₂ : Spread s fin own₂ l₁ l₂ d₂) :
    Spread s fin (own₁ + own₂) l l₂ (d₁ ++ d₂) := by
  refine ⟨h₂.valid, h₂.apart, fun x => ?_, ?_, ?_, ?_, h₂.within, ?_⟩
  · have hnone : ¬ (s ≤ x ∧ x < s) := by omega
    rw [h₂.count, h₁.count, if_neg hnone, add_zero]
  · rw [heldOf_append, add_left_comm, h₂.held, ← add_assoc, add_comm (heldOf d₁), h₁.held,
      add_assoc]
  · exact List.forall_mem_append.mpr ⟨h₁.replaced, h₂.replaced⟩
  · intro e'' he''
    rcases h₂.refined e'' he'' with ⟨e', he', hlo, hhi⟩ | ⟨hs, hf, hno⟩
    · rcases h₁.refined e' he' with ⟨e, he, hlo', hhi'⟩ | ⟨hs', hf', hno'⟩
      · exact .inl ⟨e, he, le_trans hlo' hlo, le_trans hhi hhi'⟩
      · have := (h₁.valid e' he').off_lt_end
        omega
    · -- What was cut still covers its points, so a gap of the pieces is a gap of the entry.
      refine .inr ⟨hs, hf, fun e he => ?_⟩
      by_contra hcon
      have hpos := (hvalid e he).off_lt_end
      have hlt := (h₂.valid e'' he'').off_lt_end
      obtain ⟨e', he', hx⟩ := h₁.covers e he (max e.rOff e''.rOff)
        ⟨le_max_left _ _, max_lt hpos (by omega)⟩
      have hlow := hx.1
      have hhigh := hx.2
      have := hno e' he'
      omega
  · intro e he x hx
    obtain ⟨e', he', hx'⟩ := h₁.covers e he x hx
    exact h₂.covers e' he' x hx'

end Spread

section Pieces

variable {rl : Rl} {s fin : Nat} {off : Nat}

theorem readersAt_reader (rl : Rl) (hreader : rl.rType = .reader) (x : Nat) :
    readersAt [rl] x = if rl.rOff ≤ x ∧ x < rl.rEnd then rl.rCnt else 0 := by
  simp [Rl.readersAt, Rl.Has, hreader]

/- A proxy from `s` to `fin` for `cnt` readers. -/
structure Rl.Proxy (p : Rl) (s fin cnt : Nat) : Prop where
  off : p.rOff = s
  stop : p.rEnd = fin
  cnt : p.rCnt = cnt
  type : p.rType = .reader
  proxy : p.rProxy = true
  writeWanted : p.rWriteWanted = false
  readWanted : p.rReadWanted = false

section

variable {p : Rl} {cnt : Nat} (h : p.Proxy s fin cnt)
include h

theorem Rl.Proxy.bump : (ClusterZfs.bump p).Proxy s fin (cnt + 1) :=
  { h with cnt := congrArg (· + 1) h.cnt }

theorem Rl.Proxy.valid (hlt : s < fin) (hbound : fin < 2 ^ 64) (hcnt : 0 < cnt) : p.Valid := by
  obtain ⟨rfl, rfl, rfl, htype, hproxy, -, hread⟩ := h
  refine ⟨?_, hbound, hcnt, fun _ => htype, by simp [hproxy], by simp [htype], by simp [hread]⟩
  unfold Rl.rEnd at hlt
  omega

theorem Rl.Proxy.readersAt (x : Nat) :
    ClusterZfs.readersAt [p] x = if s ≤ x ∧ x < fin then cnt else 0 := by
  rw [readersAt_reader _ h.type, h.off, h.stop, h.cnt]

end

/-- One entry where nothing was. -/
theorem Spread.single {own : Multiset Held} (h : rl.Valid) (hlo : rl.rOff = s) (hhi : rl.rEnd = fin)
    (hcount : ∀ x, readersAt [rl] x = if s ≤ x ∧ x < fin then 1 else 0)
    (hheld : plainHeld [rl] = own) : Spread s fin own [] [rl] [] where
  valid := List.forall_mem_singleton.mpr h
  apart := List.pairwise_singleton _ _
  count x := by rw [hcount, readersAt_nil, zero_add]
  held := by rw [hheld]; exact add_comm _ _
  replaced := nofun
  refined := List.forall_mem_singleton.mpr (.inr ⟨hlo.ge, hhi.le, nofun⟩)
  within := List.forall_mem_singleton.mpr (.inr (.inl ⟨hlo.ge, hhi.le⟩))
  covers := nofun

theorem Spread.gap (hlt : s < fin) (hbound : fin < 2 ^ 64) :
    ∃ p, zfsRangeNewProxy s (fin - s) = some p ∧ Spread s fin 0 [] [p] [] := by
  have hne : fin - s ≠ 0 := by omega
  have hp : Rl.Proxy ⟨0, s, fin - s, 1, .reader, true, false, false⟩ s fin 1 :=
    ⟨rfl, by simp only [Rl.rEnd]; omega, rfl, rfl, rfl, rfl, rfl⟩
  exact ⟨_, by simp [zfsRangeNewProxy, hne],
    .single (hp.valid hlt hbound one_pos) hp.off hp.stop hp.readersAt rfl⟩

section

variable (h : rl.Valid) (hreader : rl.rType = .reader)
include h hreader

section

variable (hfree : rl.rWriteWanted = false)
include hfree

theorem Rl.Valid.readWanted_eq : rl.rReadWanted = false := by
  by_contra hne
  have := h.wanted hreader (by simpa using hne)
  simp [hfree] at this

theorem zfsRangeProxify_spec :
    ∃ p d, zfsRangeProxify rl = some (p, d) ∧ p.Proxy rl.rOff rl.rEnd rl.rCnt ∧
      (∀ g ∈ d, g.Replaced) ∧ heldOf d = plainHeld [rl] := by
  have hread := h.readWanted_eq hreader hfree
  cases hproxy : rl.rProxy with
  | true =>
    refine ⟨rl, [], by simp [zfsRangeProxify, hproxy],
      ⟨rfl, rfl, rfl, hreader, hproxy, hfree, hread⟩, nofun, ?_⟩
    rw [plainHeld_proxy _ hproxy]
    rfl
  | false =>
    have hcnt := h.plain hproxy
    refine ⟨⟨0, rl.rOff, rl.rLen, 1, .reader, true, false, false⟩, [{ rl with rCnt := 0 }],
      by simp [zfsRangeProxify, hproxy, hcnt, hfree, hread],
      ⟨rfl, rfl, hcnt.symm, rfl, rfl, rfl, rfl⟩,
      List.forall_mem_singleton.mpr ⟨rfl, hreader, hproxy, hfree, hread⟩, ?_⟩
    rw [plainHeld_plain _ hproxy]
    rfl

theorem Spread.whole :
    ∃ p d, zfsRangeProxify rl = some (p, d) ∧ p.rEnd = rl.rEnd ∧
      Spread rl.rOff rl.rEnd 0 [rl] [bump p] d := by
  obtain ⟨p, d, hproxify, hp, hreplaced, hheld⟩ := zfsRangeProxify_spec h hreader hfree
  have hb := hp.bump
  refine ⟨p, d, hproxify, hp.stop,
    List.forall_mem_singleton.mpr (hb.valid h.off_lt_end h.bound (Nat.succ_pos _)),
    List.pairwise_singleton _ _, fun x => ?_, ?_, hreplaced,
    List.forall_mem_singleton.mpr (.inl ⟨rl, List.mem_singleton_self _, hb.off.ge, hb.stop.le⟩),
    List.forall_mem_singleton.mpr (.inr (.inl ⟨hb.off.ge, hb.stop.le⟩)),
    List.forall_mem_singleton.mpr fun x hx => ⟨bump p, List.mem_singleton_self _,
      hb.off.trans_le hx.1, hx.2.trans_eq hb.stop.symm⟩⟩
  · rw [hb.readersAt, readersAt_reader _ hreader]
    split_ifs <;> rfl
  · rw [plainHeld_proxy (bump p) hb.proxy, hheld, plainHeld_nil, zero_add, add_zero]

theorem zfsRangeSplit_spec (hlow : rl.rOff < off) (hhigh : off < rl.rEnd) :
    ∃ front rear d, zfsRangeSplit rl off = some (front, rear, d) ∧
      front.Proxy rl.rOff off rl.rCnt ∧ rear.Proxy off rl.rEnd rl.rCnt ∧
      (∀ g ∈ d, g.Replaced) ∧ heldOf d = plainHeld [rl] := by
  obtain ⟨p, d, hproxify, hp, hreplaced, hheld⟩ := zfsRangeProxify_spec h hreader hfree
  have hread := h.readWanted_eq hreader hfree
  have hlong : rl.rLen > 1 := by
    unfold Rl.rEnd at hhigh
    omega
  refine ⟨{ p with rLen := off - rl.rOff },
    ⟨0, off, rl.rEnd - off, rl.rCnt, .reader, true, false, false⟩, d, ?_, { hp with stop := ?_ },
    ⟨rfl, ?_, rfl, rfl, rfl, rfl, rfl⟩, hreplaced, hheld⟩
  · rw [zfsRangeSplit, if_pos ⟨hlong, hlow, hhigh, by simp [hfree], by simp [hread]⟩, hproxify]
    rfl
  · simp only [Rl.rEnd, hp.off]
    omega
  · simp only [Rl.rEnd] at hhigh ⊢
    omega

end

theorem Spread.parts
    (hlow : rl.rOff < off) (hhigh : off < rl.rEnd) {front rear : Rl} {cnt : Nat} {d : List Rl}
    (hfront : front.Proxy rl.rOff off cnt) (hrear : rear.Proxy off rl.rEnd rl.rCnt)
    (hpos : 0 < cnt) (hreplaced : ∀ g ∈ d, g.Replaced) (hheld : heldOf d = plainHeld [rl])
    (hcount : ∀ x, (if rl.rOff ≤ x ∧ x < off then cnt else 0) =
      (if rl.rOff ≤ x ∧ x < off then rl.rCnt else 0) + if s ≤ x ∧ x < fin then 1 else 0)
    (hin : off ≤ s ∨ (s ≤ rl.rOff ∧ off ≤ fin)) (hfin : fin ≤ off) :
    Spread s fin 0 [rl] [front, rear] d := by
  have hbound := h.bound
  refine ⟨List.forall_mem_cons.mpr ⟨hfront.valid hlow (hhigh.trans hbound) hpos,
    List.forall_mem_singleton.mpr (hrear.valid hhigh hbound h.cnt)⟩,
    List.pairwise_pair.mpr (hfront.stop.trans hrear.off.symm).le, fun x => ?_, ?_, hreplaced,
    fun e he => .inl ⟨rl, List.mem_singleton_self _, ?_⟩, ?_, List.forall_mem_singleton.mpr ?_⟩
  · have hsplit : readersAt [front, rear] x = readersAt [front] x + readersAt [rear] x := by simp
    have hrest : (if rl.rOff ≤ x ∧ x < rl.rEnd then rl.rCnt else 0) =
        (if rl.rOff ≤ x ∧ x < off then rl.rCnt else 0) +
          (if off ≤ x ∧ x < rl.rEnd then rl.rCnt else 0) := by
      split_ifs <;> omega
    rw [hsplit, hfront.readersAt, hrear.readersAt, readersAt_reader _ hreader, hcount, hrest]
    exact Nat.add_right_comm _ _ _
  · rw [plainHeld_proxy _ hfront.proxy, plainHeld_proxy _ hrear.proxy, hheld, plainHeld_nil,
      zero_add, add_zero]
  · rcases List.mem_pair.mp he with rfl | rfl
    · exact ⟨hfront.off.ge, hfront.stop.trans_le hhigh.le⟩
    · exact ⟨hrear.off.symm ▸ hlow.le, hrear.stop.le⟩
  · refine List.forall_mem_cons.mpr ⟨?_, List.forall_mem_singleton.mpr (.inr (.inr ?_))⟩
    · rw [hfront.off, hfront.stop]
      exact hin.imp_right .inl
    · exact hrear.off.symm ▸ hfin
  · intro x hx
    by_cases hx' : x < off
    · exact ⟨front, by simp, hfront.off.trans_le hx.1, hfront.stop.symm ▸ hx'⟩
    · exact ⟨rear, by simp, hrear.off.trans_le (Nat.le_of_not_lt hx'), hrear.stop.symm ▸ hx.2⟩

variable (hfree : rl.rWriteWanted = false)
include hfree

theorem Spread.cut (hlow : rl.rOff < off) (hhigh : off < rl.rEnd) :
    ∃ front rear d, zfsRangeSplit rl off = some (front, rear, d) ∧ front.rEnd = off ∧
      rear.rOff = off ∧ rear.rType = .reader ∧ rear.rWriteWanted = false ∧
      Spread off off 0 [rl] [front, rear] d := by
  obtain ⟨front, rear, d, hsplit, hfront, hrear, hreplaced, hheld⟩ :=
    zfsRangeSplit_spec h hreader hfree hlow hhigh
  refine ⟨front, rear, d, hsplit, hfront.stop, hrear.off, hrear.type, hrear.writeWanted,
    Spread.parts h hreader hlow hhigh hfront hrear h.cnt hreplaced hheld (fun x => ?_)
      (.inl le_rfl) le_rfl⟩
  split_ifs <;> omega

/-- The range ends inside an entry: the front of it is counted once more. -/
theorem Spread.front (hlow : rl.rOff < fin) (hhigh : fin < rl.rEnd) :
    ∃ front rear d, zfsRangeSplit rl fin = some (front, rear, d) ∧
      Spread rl.rOff fin 0 [rl] [bump front, rear] d := by
  obtain ⟨front, rear, d, hsplit, hfront, hrear, hreplaced, hheld⟩ :=
    zfsRangeSplit_spec h hreader hfree hlow hhigh
  refine ⟨front, rear, d, hsplit, Spread.parts h hreader hlow hhigh hfront.bump hrear
    (Nat.succ_pos _) hreplaced hheld (fun x => ?_) (.inr ⟨le_rfl, le_rfl⟩) le_rfl⟩
  split_ifs <;> rfl

end

end Pieces

end ClusterZfs

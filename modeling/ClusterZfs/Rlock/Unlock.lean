import ClusterZfs.Rlock.Consistent

/-! Unlocking: an entry that is the lock goes away, and the proxies of a reader lose one count
each. -/
namespace ClusterZfs

/- `l'` is `l` with one reader less from `s` to `fin`, and no lock touched. -/
structure Shrink (s fin : Nat) (l l' : List Rl) : Prop where
  valid : ∀ e ∈ l', e.Valid
  apart : RlApart l'
  count : ∀ x, readersAt l x = readersAt l' x + if s ≤ x ∧ x < fin then 1 else 0
  held : plainHeld l' = plainHeld l
  kept : ∀ e' ∈ l', ∃ e ∈ l, e'.rOff = e.rOff ∧ e'.rEnd = e.rEnd

section Loop

theorem dropOne_shrink {rl : Rl} (h : rl.Valid) (hproxy : rl.rProxy = true) :
    Shrink rl.rOff rl.rEnd [rl] (dropOne rl) := by
  have hreader := h.proxy hproxy
  have hcnt : (lower rl).rCnt + 1 = rl.rCnt := Nat.sub_add_cancel h.cnt
  unfold dropOne
  by_cases hlast : (lower rl).rCnt = 0
  · rw [if_pos hlast]
    refine ⟨by simp, .nil, fun x => ?_, by rw [plainHeld_proxy _ hproxy], by simp⟩
    rw [readersAt_reader _ hreader, ← hcnt, hlast, readersAt_nil, zero_add, zero_add]
  · rw [if_neg hlast]
    refine ⟨List.forall_mem_singleton.mpr { h with
        cnt := Nat.pos_of_ne_zero hlast
        plain := by simp [lower, hproxy] }, List.pairwise_singleton _ _, fun x => ?_, ?_,
      List.forall_mem_singleton.mpr ⟨rl, List.mem_singleton_self _, rfl, rfl⟩⟩
    · rw [readersAt_reader _ hreader, readersAt_reader (lower rl) hreader, ← hcnt]
      change _ = (if rl.rOff ≤ x ∧ x < rl.rEnd then (lower rl).rCnt else 0) + _
      split_ifs <;> rfl
    · rw [plainHeld_proxy _ hproxy, plainHeld_proxy (lower rl) hproxy]

variable {s m fin : Nat} {l l' l₁ l₁' l₂ l₂' : List Rl}

theorem Shrink.append (h₁ : Shrink s m l₁ l₁') (h₂ : Shrink m fin l₂ l₂') (hsm : s ≤ m)
    (hmf : m ≤ fin) (hapart : RlApart (l₁ ++ l₂)) : Shrink s fin (l₁ ++ l₂) (l₁' ++ l₂') := by
  refine ⟨List.forall_mem_append.mpr ⟨h₁.valid, h₂.valid⟩, ?_, fun x => ?_, ?_, ?_⟩
  · refine List.pairwise_append.mpr ⟨h₁.apart, h₂.apart, fun a' ha' b' hb' => ?_⟩
    obtain ⟨a, ha, -, hend⟩ := h₁.kept a' ha'
    obtain ⟨b, hb, hoff, -⟩ := h₂.kept b' hb'
    rw [hend, hoff]
    exact (List.pairwise_append.mp hapart).2.2 a ha b hb
  · have hsum : (if s ≤ x ∧ x < fin then 1 else 0) =
        (if s ≤ x ∧ x < m then 1 else 0) + (if m ≤ x ∧ x < fin then 1 else 0) := by
      split_ifs <;> omega
    rw [readersAt_append, readersAt_append, h₁.count, h₂.count, hsum]
    omega
  · rw [plainHeld_append, plainHeld_append, h₁.held, h₂.held]
  · intro e' he'
    rcases List.mem_append.mp he' with he' | he'
    · obtain ⟨e, he, hsame⟩ := h₁.kept e' he'
      exact ⟨e, List.mem_append_left _ he, hsame⟩
    · obtain ⟨e, he, hsame⟩ := h₂.kept e' he'
      exact ⟨e, List.mem_append_right _ he, hsame⟩

theorem Shrink.rest (hvalid : ∀ e ∈ l, e.Valid) (hapart : RlApart l) : Shrink s s l l := by
  refine ⟨hvalid, hapart, fun x => ?_, rfl, fun e he => ⟨e, he, rfl, rfl⟩⟩
  have : ¬ (s ≤ x ∧ x < s) := by omega
  rw [if_neg this, add_zero]

theorem next_of_covered {rl : Rl} {rest : List Rl} {p : Nat} (hapart : RlApart (rl :: rest))
    (hvalid : ∀ e ∈ rl :: rest, e.Valid) (hp : rl.rEnd = p)
    (hcover : ∃ e ∈ rl :: rest, e.Has p) :
    ∃ next rest', rest = next :: rest' ∧ next.rOff = p := by
  obtain ⟨hlater, hrest⟩ := List.pairwise_cons.mp hapart
  obtain ⟨e, he, hlo, hhi⟩ := hcover
  have hmem : e ∈ rest := (List.mem_cons.mp he).resolve_left (by rintro rfl; omega)
  cases rest with
  | nil => cases hmem
  | cons next rest' =>
    refine ⟨next, rest', rfl, ?_⟩
    have h1 := hlater next List.mem_cons_self
    rcases List.mem_cons.mp hmem with rfl | hmem
    · omega
    · have h2 := (List.pairwise_cons.mp hrest).1 e hmem
      have h3 := (hvalid next (by simp)).off_lt_end
      omega

theorem unlockReaderLoop_last {len : Nat} {rl : Rl} {rest : List Rl}
    (hvalid : ∀ e ∈ rl :: rest, e.Valid) (hapart : RlApart (rl :: rest))
    (hproxy : rl.rProxy = true) (hend : rl.rEnd = rl.rOff + len) (hbound : len < 2 ^ 64) :
    ∃ l', unlockReaderLoop len (rl :: rest) = some l' ∧
      Shrink rl.rOff (rl.rOff + len) (rl :: rest) l' := by
  have hrl := hvalid rl List.mem_cons_self
  have hlen : rl.rLen = len := Nat.add_left_cancel hend
  have hzero : uint64 (len + (2 ^ 64 - rl.rLen)) = 0 := by
    unfold uint64
    omega
  have hrest : Shrink rl.rEnd rl.rEnd rest rest :=
    Shrink.rest (fun e he => hvalid e (List.mem_cons_of_mem _ he)) (List.pairwise_cons.mp hapart).2
  have hshrink := (dropOne_shrink hrl hproxy).append hrest hrl.off_lt_end.le (le_refl _) hapart
  rw [hend] at hshrink
  refine ⟨dropOne rl ++ rest, ?_, hshrink⟩
  unfold unlockReaderLoop
  rw [if_pos hzero]

theorem unlockReaderLoop_spec {len : Nat} {rl : Rl} {rest : List Rl}
    (hvalid : ∀ e ∈ rl :: rest, e.Valid) (hapart : RlApart (rl :: rest)) (hpos : 0 < len)
    (hbound : rl.rOff + len < 2 ^ 64)
    (hproxy : ∀ e ∈ rl :: rest, e.rOff < rl.rOff + len →
      e.rProxy = true ∧ e.rEnd ≤ rl.rOff + len)
    (hcover : ∀ x, rl.rOff ≤ x → x < rl.rOff + len → ∃ e ∈ rl :: rest, e.Has x) :
    ∃ l', unlockReaderLoop len (rl :: rest) = some l' ∧
      Shrink rl.rOff (rl.rOff + len) (rl :: rest) l' := by
  induction rest generalizing rl len with
  | nil =>
    have hend : rl.rEnd = rl.rOff + len := by
      obtain ⟨-, hin⟩ := hproxy rl List.mem_cons_self (by omega)
      obtain ⟨e, he, -, hhi⟩ := hcover (rl.rOff + len - 1) (by omega) (by omega)
      rw [List.mem_singleton.mp he] at hhi
      omega
    exact unlockReaderLoop_last hvalid hapart
      (hproxy rl List.mem_cons_self (by omega)).1 hend (by omega)
  | cons next rest ih =>
    obtain ⟨hp, hin⟩ := hproxy rl List.mem_cons_self (by omega)
    by_cases hend : rl.rEnd = rl.rOff + len
    · exact unlockReaderLoop_last hvalid hapart hp hend (by omega)
    · have hrl := hvalid rl List.mem_cons_self
      have hpast : rl.rEnd < rl.rOff + len := lt_of_le_of_ne hin hend
      have hlow := hrl.off_lt_end
      have hrlend : rl.rEnd = rl.rOff + rl.rLen := rfl
      obtain ⟨next', rest', heq, hoff⟩ := next_of_covered hapart hvalid rfl
        (hcover rl.rEnd hlow.le hpast)
      cases heq
      have htail : ∀ e ∈ next :: rest, e.Valid := fun e he =>
        hvalid e (List.mem_cons_of_mem _ he)
      have hlen : uint64 (len + (2 ^ 64 - rl.rLen)) = len - rl.rLen := by
        unfold uint64
        omega
      have hsame : next.rOff + (len - rl.rLen) = rl.rOff + len := by omega
      have hproxy' : ∀ e ∈ next :: rest, e.rOff < next.rOff + (len - rl.rLen) →
          e.rProxy = true ∧ e.rEnd ≤ next.rOff + (len - rl.rLen) := by
        rw [hsame]
        exact fun e he => hproxy e (List.mem_cons_of_mem _ he)
      have hcover' : ∀ x, next.rOff ≤ x → x < next.rOff + (len - rl.rLen) →
          ∃ e ∈ next :: rest, e.Has x := by
        rw [hsame]
        intro x hlo hhi
        obtain ⟨e, he, hx⟩ := hcover x (by omega) hhi
        refine ⟨e, (List.mem_cons.mp he).resolve_left ?_, hx⟩
        rintro rfl
        exact absurd hx.2 (by omega)
      obtain ⟨l', hloop, hshrink⟩ := ih htail (List.pairwise_cons.mp hapart).2 (by omega)
        (by omega) hproxy' hcover'
      obtain ⟨hpn, -⟩ := hproxy next (by simp) (by omega)
      have hnext := hvalid next (by simp)
      refine ⟨dropOne rl ++ l', ?_, ?_⟩
      · unfold unlockReaderLoop
        have hne : len - rl.rLen ≠ 0 := by omega
        simp only [hlen, if_neg hne]
        rw [if_pos ⟨hoff.symm, hnext.cnt.ne', hnext.proxy hpn⟩, hloop]
        rfl
      · rw [hsame, hoff] at hshrink
        exact (dropOne_shrink hrl hp).append hshrink hlow.le hpast.le hapart

end Loop

section Unlock

variable {tree away : List Rl} {held : Multiset Held} (h : Consistent tree away held)
include h

theorem Consistent.held_cases {g : Held} (hg : g ∈ held) :
    (∃ rl ∈ tree, rl.rProxy = false ∧ rl.held = g) ∨ ∃ rl ∈ away, rl.held = g := by
  rw [← h.locks] at hg
  rcases Multiset.mem_add.mp hg with hmem | hmem
  · obtain ⟨rl, hrl, hkey⟩ := List.mem_map.mp (Multiset.mem_coe.mp hmem)
    obtain ⟨hmem, hplain⟩ := List.mem_filter.mp hrl
    exact .inl ⟨rl, hmem, by simpa using hplain, hkey⟩
  · exact .inr (List.mem_map.mp (Multiset.mem_coe.mp hmem))

theorem Consistent.mem_held {rl : Rl} (hmem : rl ∈ tree) (hplain : rl.rProxy = false) :
    rl.held ∈ held := by
  rw [← h.locks]
  refine Multiset.mem_add.mpr (.inl (Multiset.mem_coe.mpr (List.mem_map_of_mem ?_)))
  exact List.mem_filter.mpr ⟨hmem, by simp [hplain]⟩

theorem Consistent.mem_held_away {rl : Rl} (hmem : rl ∈ away) : rl.held ∈ held := by
  rw [← h.locks]
  exact Multiset.mem_add.mpr (.inr (Multiset.mem_coe.mpr (List.mem_map_of_mem hmem)))

theorem Consistent.removeEntry {rl : Rl} (hmem : rl ∈ tree) (hplain : rl.rProxy = false) :
    Consistent (tree.erase rl) away (held.erase rl.held) := by
  obtain ⟨as, bs, hnot, htree, herase⟩ := List.exists_erase_eq hmem
  have hsub : ∀ e ∈ tree.erase rl, e ∈ tree := fun e he => List.mem_of_mem_erase he
  have hheld : held = rl.held ::ₘ held.erase rl.held :=
    (Multiset.cons_erase (h.mem_held hmem hplain)).symm
  have hlocks : plainHeld tree = rl.held ::ₘ plainHeld (tree.erase rl) := by
    rw [herase, htree, plainHeld_append, plainHeld_plain _ hplain, Multiset.add_cons,
      plainHeld_append]
  refine ⟨fun e he => h.valid e (hsub e he), h.apart.sublist List.erase_sublist, h.replaced, ?_,
    fun g hg => h.ranges g (Multiset.mem_of_mem_erase hg), fun x => ?_,
    fun e he g hg => h.uniform e (hsub e he) g (Multiset.mem_of_mem_erase hg)⟩
  · have hall := h.locks
    rw [hlocks, Multiset.cons_add, hheld] at hall
    exact Multiset.cons_inj_right _ |>.mp hall
  · have hcount := h.count x
    have hown : rl.readersAt x = if rl.held.type = .reader ∧ rl.held.Has x then 1 else 0 :=
      if_congr Iff.rfl ((h.valid rl hmem).plain hplain) rfl
    rw [hheld, Multiset.countP_cons, htree, readersAt_append, readersAt_cons, hown] at hcount
    rw [herase, readersAt_append]
    omega

/-- Every entry in the range of a lock that proxies stand for is one of its proxies. -/
theorem Consistent.proxy_of_away {g e : Rl} (hg : g ∈ away) (he : e ∈ tree)
    (hx : g.held.Has e.rOff) : e.rProxy = true ∧ e.rEnd ≤ g.rEnd := by
  have htype := (h.replaced g hg).type
  have hself := (h.valid e he).has_off
  have hin := h.inside he (h.mem_held_away hg) htype hx hself
  refine ⟨?_, hin.2⟩
  by_contra hplain
  have hplain : e.rProxy = false := by simpa using hplain
  have hcount := h.count e.rOff
  have haway : 0 < (heldOf away).countP fun g => g.type = .reader ∧ g.Has e.rOff :=
    Multiset.countP_pos.mpr ⟨g.held, Multiset.mem_coe.mpr (List.mem_map_of_mem hg), htype, hx⟩
  rw [readersAt_of_has h.apart he hself, ← h.locks, Multiset.countP_add] at hcount
  by_cases hreader : e.rType = .reader
  · -- The entry would be counted for itself and for the lock.
    have hown : 0 < (plainHeld tree).countP fun g => g.type = .reader ∧ g.Has e.rOff := by
      refine Multiset.countP_pos.mpr ⟨e.held, ?_, hreader, hself⟩
      exact Multiset.mem_coe.mpr (List.mem_map_of_mem
        (List.mem_filter.mpr ⟨he, by simp [hplain]⟩))
    rw [Rl.readersAt, if_pos ⟨hreader, hself⟩, (h.valid e he).plain hplain] at hcount
    omega
  · rw [Rl.readersAt, if_neg fun hx => hreader hx.1] at hcount
    omega

theorem Consistent.shrink {g : Rl} (hg : g ∈ away) {left right right' : List Rl}
    (hsplit : left ++ right = tree) (hshrink : Shrink g.rOff (g.rOff + g.rLen) right right') :
    Consistent (left ++ right') (away.erase g) (held.erase g.held) := by
  have hmem := h.mem_held_away hg
  have hheld : held = g.held ::ₘ held.erase g.held := (Multiset.cons_erase hmem).symm
  obtain ⟨hleft, hright, hcross⟩ :=
    List.pairwise_append.mp (hsplit.symm ▸ h.apart : RlApart (_ ++ _))
  -- Every entry that is left has the range of one that was there.
  have hkept : ∀ e' ∈ left ++ right', ∃ e ∈ tree, e'.rOff = e.rOff ∧ e'.rEnd = e.rEnd := by
    intro e' he'
    rcases List.mem_append.mp he' with he' | he'
    · exact ⟨e', hsplit ▸ List.mem_append_left _ he', rfl, rfl⟩
    · obtain ⟨e, he, hsame⟩ := hshrink.kept e' he'
      exact ⟨e, hsplit ▸ List.mem_append_right _ he, hsame⟩
  refine ⟨List.forall_mem_append.mpr
      ⟨fun e he => h.valid e (hsplit ▸ List.mem_append_left _ he), hshrink.valid⟩, ?_,
    fun g' hg' => h.replaced g' (List.mem_of_mem_erase hg'), ?_,
    fun g' hg' => h.ranges g' (Multiset.mem_of_mem_erase hg'), fun x => ?_, ?_⟩
  · refine List.pairwise_append.mpr ⟨hleft, hshrink.apart, fun a ha b' hb' => ?_⟩
    obtain ⟨b, hb, hoff, -⟩ := hshrink.kept b' hb'
    rw [hoff]
    exact hcross a ha b hb
  · have hlocks := h.locks
    have haway : heldOf away = g.held ::ₘ heldOf (away.erase g) := by
      obtain ⟨as, bs, -, haway, herase⟩ := List.exists_erase_eq hg
      rw [herase, haway, heldOf_append, heldOf_cons, Multiset.add_cons, heldOf_append]
    rw [haway, Multiset.add_cons, hheld, ← hsplit, plainHeld_append] at hlocks
    rw [plainHeld_append, hshrink.held]
    exact (Multiset.cons_inj_right _).mp hlocks
  · have hcount := h.count x
    have hown : (if g.held.type = .reader ∧ g.held.Has x then 1 else 0) =
        if g.rOff ≤ x ∧ x < g.rOff + g.rLen then 1 else 0 :=
      if_congr ⟨fun hx => hx.2, fun hx => ⟨(h.replaced g hg).type, hx⟩⟩ rfl rfl
    rw [hheld, Multiset.countP_cons, hown, ← hsplit, readersAt_append, hshrink.count] at hcount
    rw [readersAt_append]
    omega
  · intro e' he' g' hg' hreader
    obtain ⟨e, he, hoff, hend⟩ := hkept e' he'
    rw [hoff, hend]
    exact h.uniform e he g' (Multiset.mem_of_mem_erase hg') hreader

theorem Consistent.removeReplaced {g : Rl} (hg : g ∈ away) :
    ∃ tree', zfsRangeUnlockReader tree g = some tree' ∧
      Consistent tree' (away.erase g) (held.erase g.held) := by
  have hreplaced := h.replaced g hg
  have hmem := h.mem_held_away hg
  obtain ⟨hpos, hbound⟩ := h.ranges g.held hmem
  change 0 < g.rLen at hpos
  change g.rOff + g.rLen < 2 ^ 64 at hbound
  -- The first entry starts where the lock starts.
  have hfirst : g.held.Has g.rOff := ⟨le_refl _, Nat.lt_add_of_pos_right hpos⟩
  obtain ⟨e, he, hex, hreader⟩ := h.exists_entry hmem hreplaced.type hfirst
  have hoff : e.rOff = g.rOff :=
    le_antisymm hex.1 (h.inside he hmem hreplaced.type hfirst hex).1
  obtain ⟨rest, hafter⟩ := dropWhile_key_of_mem (h.apart.sorted h.valid) he
  rw [hoff] at hafter
  change rlAfter tree g.rOff = e :: rest at hafter
  have hsplit := rlBefore_append_rlAfter tree g.rOff
  rw [hafter] at hsplit
  have hafterTree : ∀ a ∈ e :: rest, a ∈ tree := fun a ha =>
    hsplit ▸ List.mem_append_right _ ha
  have hapart : RlApart (e :: rest) :=
    (List.pairwise_append.mp (hsplit.symm ▸ h.apart : RlApart (_ ++ _))).2.1
  have hfrom : ∀ a ∈ e :: rest, g.rOff ≤ a.rOff := by
    rw [← hafter]
    exact fun a => h.apart.le_of_mem_rlAfter h.valid
  have hproxy : ∀ a ∈ e :: rest, a.rOff < e.rOff + g.rLen →
      a.rProxy = true ∧ a.rEnd ≤ e.rOff + g.rLen := by
    rw [hoff]
    intro a ha hlt
    exact h.proxy_of_away hg (hafterTree a ha) ⟨hfrom a ha, hlt⟩
  have hcover : ∀ x, e.rOff ≤ x → x < e.rOff + g.rLen → ∃ a ∈ e :: rest, a.Has x := by
    rw [hoff]
    intro x hlo hhi
    obtain ⟨a, ha, hax, -⟩ := h.exists_entry hmem hreplaced.type (⟨hlo, hhi⟩ : g.held.Has x)
    have hin := h.inside ha hmem hreplaced.type (⟨hlo, hhi⟩ : g.held.Has x) hax
    rw [← hsplit] at ha
    rcases List.mem_append.mp ha with ha | ha
    · exact absurd (lt_of_mem_rlBefore ha) (Nat.not_lt.mpr hin.1)
    · exact ⟨a, ha, hax⟩
  obtain ⟨l', hloop, hshrink⟩ := unlockReaderLoop_spec
    (fun a ha => h.valid a (hafterTree a ha)) hapart hpos (hoff.symm ▸ hbound) hproxy hcover
  refine ⟨rlBefore tree g.rOff ++ l', ?_, ?_⟩
  · have hcnt := (h.valid e he).cnt.ne'
    simp [zfsRangeUnlockReader, hreplaced.cnt, hreplaced.writeWanted, hreplaced.readWanted, hafter,
      hoff, hcnt, hreader, hloop]
  · rw [hoff] at hshrink
    exact h.shrink hg hsplit hshrink

end Unlock

end ClusterZfs

import ClusterZfs.Rlock.AddReader

/-! The tree against the ranges the threads hold. -/
namespace ClusterZfs

/- `away` are the locks of readers that only proxies stand for. -/
structure Consistent (tree away : List Rl) (held : Multiset Held) : Prop where
  valid : ∀ e ∈ tree, e.Valid
  apart : RlApart tree
  replaced : ∀ g ∈ away, g.Replaced
  locks : plainHeld tree + heldOf away = held
  ranges : ∀ g ∈ held, 0 < g.len ∧ g.off + g.len < 2 ^ 64
  count : ∀ x, readersAt tree x = held.countP fun g => g.type = .reader ∧ g.Has x
  uniform : ∀ e ∈ tree, ∀ g ∈ held, g.type = .reader →
    (g.off ≤ e.rOff ∧ e.rEnd ≤ g.off + g.len) ∨ e.rEnd ≤ g.off ∨ g.off + g.len ≤ e.rOff

theorem consistent_nil : Consistent [] [] 0 :=
  ⟨nofun, .nil, nofun, rfl, by simp, by simp, nofun⟩

section Points

variable {tree : List Rl} {x : Nat}

theorem readersAt_eq_zero (h : ∀ e ∈ tree, ¬ e.Has x) : readersAt tree x = 0 := by
  induction tree with
  | nil => rfl
  | cons e l ih =>
    have he : ¬ e.Has x := h e List.mem_cons_self
    rw [readersAt_cons, ih fun e' he' => h e' (List.mem_cons_of_mem _ he'), Rl.readersAt,
      if_neg fun hx => he hx.2]

theorem readersAt_of_has (hapart : RlApart tree) {e : Rl} (he : e ∈ tree) (hx : e.Has x) :
    readersAt tree x = e.readersAt x := by
  obtain ⟨as, bs, rfl⟩ := List.append_of_mem he
  obtain ⟨-, hright, hcross⟩ := List.pairwise_append.mp hapart
  have hhead := (List.pairwise_cons.mp hright).1
  have has : readersAt as x = 0 := by
    refine readersAt_eq_zero fun a ha hax => ?_
    have := hcross a ha e List.mem_cons_self
    have := hax.2
    have := hx.1
    omega
  have hbs : readersAt bs x = 0 := by
    refine readersAt_eq_zero fun b hb hbx => ?_
    have := hhead b hb
    have := hbx.1
    have := hx.2
    omega
  rw [readersAt_append, readersAt_cons, has, hbs, zero_add, add_zero]

theorem exists_of_readersAt_pos (h : 0 < readersAt tree x) :
    ∃ e ∈ tree, e.Has x ∧ e.rType = .reader := by
  by_contra hno
  have hzero : readersAt tree x = 0 := by
    refine List.sum_eq_zero fun n hn => ?_
    obtain ⟨e, he, rfl⟩ := List.mem_map.mp hn
    exact if_neg fun hx => hno ⟨e, he, hx.2, hx.1⟩
  omega

end Points

section Invariant

variable {tree away : List Rl} {held : Multiset Held} (h : Consistent tree away held) {g : Held}
include h

theorem Consistent.exists_entry (hg : g ∈ held) (hreader : g.type = .reader) {x : Nat}
    (hx : g.Has x) : ∃ e ∈ tree, e.Has x ∧ e.rType = .reader := by
  refine exists_of_readersAt_pos ?_
  rw [h.count]
  exact Multiset.countP_pos.mpr ⟨g, hg, hreader, hx⟩

theorem Consistent.inside {e : Rl} (he : e ∈ tree) (hg : g ∈ held)
    (hreader : g.type = .reader) {x : Nat} (hx : g.Has x) (hx' : e.Has x) :
    g.off ≤ e.rOff ∧ e.rEnd ≤ g.off + g.len := by
  have huniform := h.uniform e he g hg hreader
  obtain ⟨h1, h2⟩ := hx
  obtain ⟨h3, h4⟩ := hx'
  omega

theorem Consistent.cnt_eq {e : Rl} (he : e ∈ tree) (hreader : e.rType = .reader) :
    e.rCnt = held.countP fun g =>
      g.type = .reader ∧ g.off ≤ e.rOff ∧ e.rEnd ≤ g.off + g.len := by
  have hself := (h.valid e he).has_off
  have hat : readersAt tree e.rOff = e.rCnt := by
    rw [readersAt_of_has h.apart he hself, Rl.readersAt, if_pos ⟨hreader, hself⟩]
  rw [← hat, h.count]
  refine Multiset.countP_congr rfl fun g hg => ?_
  have hlt := (h.valid e he).off_lt_end
  exact propext (and_congr_right fun htype => ⟨fun hx => h.inside he hg htype hx hself,
    fun hin => ⟨hin.1, hlt.trans_le hin.2⟩⟩)

theorem Consistent.reader_apart {lo hi : Nat} (hlt : lo < hi)
    (hno : ∀ e ∈ tree, e.rEnd ≤ lo ∨ hi ≤ e.rOff) (hg : g ∈ held)
    (hreader : g.type = .reader) : hi ≤ g.off ∨ g.off + g.len ≤ lo := by
  by_contra hcon
  have hpos := (h.ranges g hg).1
  have hx : g.Has (max g.off lo) := ⟨le_max_left _ _, max_lt (by omega) (by omega)⟩
  obtain ⟨e, he, hex, -⟩ := h.exists_entry hg hreader hx
  have h1 := hno e he
  have h2 := hex.1
  have h3 := hex.2
  omega

theorem Consistent.addReader {new : Rl} (hnew : FreshReader new) {tree' d : List Rl}
    (hspread : Spread new.rOff new.rEnd {new.held} tree tree' d) :
    Consistent tree' (away ++ d) (new.held ::ₘ held) := by
  refine ⟨hspread.valid, hspread.apart,
    List.forall_mem_append.mpr ⟨h.replaced, hspread.replaced⟩, ?_, ?_, fun x => ?_, ?_⟩
  · rw [heldOf_append, add_left_comm, hspread.held, ← Multiset.singleton_add, ← h.locks,
      ← add_assoc, add_comm, add_comm (heldOf away)]
  · exact Multiset.forall_mem_cons.mpr ⟨⟨hnew.valid.pos, hnew.valid.bound⟩, h.ranges⟩
  · rw [hspread.count, h.count, Multiset.countP_cons]
    exact congrArg _ (if_congr ⟨fun hx => ⟨hnew.type, hx⟩, fun hx => hx.2⟩ rfl rfl)
  · intro e' he' g hg hreader
    have hpos := (hspread.valid e' he').off_lt_end
    rcases Multiset.mem_cons.mp hg with rfl | hg
    · have hwithin := hspread.within e' he'
      change (new.rOff ≤ e'.rOff ∧ e'.rEnd ≤ new.rEnd) ∨ e'.rEnd ≤ new.rOff ∨
        new.rEnd ≤ e'.rOff
      omega
    · rcases hspread.refined e' he' with ⟨e, he, hlo, hhi⟩ | ⟨-, -, hgap⟩
      · have := h.uniform e he g hg hreader
        omega
      · have := h.reader_apart hpos (fun e he => by have := hgap e he; omega) hg hreader
        omega

theorem Consistent.addWriter {lock : Rl} (hlock : lock.Valid) (hwriter : lock.rType = .writer)
    (hplain : lock.rProxy = false) (hno : ∀ e ∈ tree, e.rEnd ≤ lock.rOff ∨ lock.rEnd ≤ e.rOff) :
    Consistent (rlBefore tree lock.rOff ++ lock :: rlAfter tree lock.rOff) away
      (lock.held ::ₘ held) := by
  have hlt := hlock.off_lt_end
  have hsplit := rlBefore_append_rlAfter tree lock.rOff
  have hafter : ∀ e ∈ rlAfter tree lock.rOff, lock.rOff ≤ e.rOff := fun e he =>
    h.apart.le_of_mem_rlAfter h.valid he
  have hbefore : ∀ e ∈ rlBefore tree lock.rOff, e.rOff < lock.rOff := fun e he =>
    lt_of_mem_rlBefore he
  obtain ⟨hleft, hright, hcross⟩ :=
    List.pairwise_append.mp (hsplit.symm ▸ h.apart : RlApart (_ ++ _))
  have hmem : ∀ e, e ∈ rlBefore tree lock.rOff ++ lock :: rlAfter tree lock.rOff →
      e = lock ∨ e ∈ tree := by
    intro e he
    rcases List.mem_append.mp he with he | he
    · exact .inr (mem_of_mem_rlBefore he)
    · exact (List.mem_cons.mp he).imp_right mem_of_mem_rlAfter
  have hnone : ∀ x, lock.readersAt x = 0 := fun x => by simp [Rl.readersAt, hwriter]
  refine ⟨?_, ?_, h.replaced, ?_, ?_, fun x => ?_, ?_⟩
  · intro e he
    rcases hmem e he with rfl | he
    · exact hlock
    · exact h.valid e he
  · refine List.pairwise_append.mpr ⟨hleft, List.pairwise_cons.mpr ⟨?_, hright⟩, ?_⟩
    · intro e he
      have := hno e (mem_of_mem_rlAfter he)
      have := (h.valid e (mem_of_mem_rlAfter he)).off_lt_end
      have := hafter e he
      omega
    · intro a ha b hb
      rcases List.mem_cons.mp hb with rfl | hb
      · have := hno a (mem_of_mem_rlBefore ha)
        have := hbefore a ha
        omega
      · exact hcross a ha b hb
  · rw [plainHeld_append, plainHeld_plain _ hplain, Multiset.add_cons, ← plainHeld_append, hsplit,
      Multiset.cons_add, h.locks]
  · exact Multiset.forall_mem_cons.mpr ⟨⟨hlock.pos, hlock.bound⟩, h.ranges⟩
  · have hcount := h.count x
    rw [← hsplit, readersAt_append] at hcount
    have hskip : ¬ (lock.held.type = .reader ∧ lock.held.Has x) := by simp [Rl.held, hwriter]
    rw [readersAt_append, readersAt_cons, hnone, zero_add, hcount, Multiset.countP_cons,
      if_neg hskip, add_zero]
  · intro e he g hg hreader
    rcases Multiset.mem_cons.mp hg with rfl | hold
    · exact absurd hreader (by simp [Rl.held, hwriter])
    · rcases hmem e he with rfl | he
      · have := h.reader_apart hlt hno hold hreader
        omega
      · exact h.uniform e he g hold hreader

theorem Consistent.mapFlags {f : Rl → Rl}
    (hf : ∀ e, (f e).rId = e.rId ∧ (f e).rOff = e.rOff ∧ (f e).rLen = e.rLen ∧
      (f e).rCnt = e.rCnt ∧ (f e).rType = e.rType ∧ (f e).rProxy = e.rProxy)
    (hwanted : ∀ e ∈ tree, (f e).rType = .reader → (f e).rReadWanted = true →
      (f e).rWriteWanted = true) :
    Consistent (tree.map f) away held := by
  have hend : ∀ e, (f e).rEnd = e.rEnd := fun e => by
    rw [Rl.rEnd, Rl.rEnd, (hf e).2.1, (hf e).2.2.1]
  have hreaders : ∀ e x, (f e).readersAt x = e.readersAt x := by
    intro e x
    obtain ⟨-, hoff, -, hcnt, htype, -⟩ := hf e
    exact if_congr (by rw [htype, Rl.Has, Rl.Has, hoff, hend]) hcnt rfl
  have hheld : ∀ e, (f e).held = e.held := by
    intro e
    obtain ⟨hid, hoff, hlen, -, htype, -⟩ := hf e
    simp [Rl.held, hid, hoff, hlen, htype]
  have hplain : ∀ l : List Rl, plainHeld (l.map f) = plainHeld l := by
    intro l
    induction l with
    | nil => rfl
    | cons e l ih =>
      have hproxy := (hf e).2.2.2.2.2
      cases he : e.rProxy with
      | true => rw [List.map_cons, plainHeld_proxy _ (hproxy.trans he), plainHeld_proxy _ he, ih]
      | false =>
        rw [List.map_cons, plainHeld_plain _ (hproxy.trans he), plainHeld_plain _ he, ih, hheld]
  refine ⟨?_, ?_, h.replaced, by rw [hplain, h.locks], h.ranges, fun x => ?_, ?_⟩
  · intro e' he'
    obtain ⟨e, he, rfl⟩ := List.mem_map.mp he'
    obtain ⟨-, hoff, hlen, hcnt, htype, hproxy⟩ := hf e
    have hv := h.valid e he
    exact ⟨hlen ▸ hv.pos, (hend e) ▸ hv.bound, hcnt ▸ hv.cnt, fun hp => htype.trans
      (hv.proxy (hproxy ▸ hp)), fun hp => hcnt.trans (hv.plain (hproxy ▸ hp)), htype ▸ hv.type,
      hwanted e he⟩
  · refine List.pairwise_map.mpr (h.apart.imp fun {a b} hab => ?_)
    rw [hend, (hf b).2.1]
    exact hab
  · rw [← h.count, readersAt, readersAt, List.map_map]
    exact congrArg List.sum (List.map_congr_left fun e _ => hreaders e x)
  · intro e' he'
    obtain ⟨e, he, rfl⟩ := List.mem_map.mp he'
    rw [(hf e).2.1, hend]
    exact h.uniform e he

end Invariant

end ClusterZfs

import ClusterZfs.Rlock.Unlock

/-! One pass of a lock function: the thread gets its range, or an entry in its way is marked as
wanted. -/
namespace ClusterZfs

section Conflicts

variable {tree : List Rl} {new : Rl} {l rest : List Rl} {p rl : Rl}

theorem ends_of_last (hvalid : ∀ e ∈ l, e.Valid) (hapart : RlApart l)
    (hlast : l.getLast? = some p) {c : Nat} (hp : p.rEnd ≤ c) : ∀ e ∈ l, e.rEnd ≤ c := by
  obtain ⟨init, rfl⟩ := List.getLast?_eq_some_iff.mp hlast
  refine List.forall_mem_append.mpr ⟨fun e he => ?_, List.forall_mem_singleton.mpr hp⟩
  have := (List.pairwise_append.mp hapart).2.2 e he p (List.mem_singleton_self _)
  have := (hvalid p (by simp)).off_lt_end
  omega

theorem starts_of_head (hvalid : ∀ e ∈ l, e.Valid)
    (hapart : RlApart l) (hl : l = p :: rest) {c : Nat} (hp : c ≤ p.rOff) :
    ∀ e ∈ l, c ≤ e.rOff := by
  subst hl
  refine List.forall_mem_cons.mpr ⟨hp, fun e he => ?_⟩
  have := (List.pairwise_cons.mp hapart).1 e he
  have := (hvalid p List.mem_cons_self).off_lt_end
  omega

theorem RlApart.parts (h : RlApart tree) (off : Nat) :
    RlApart (rlBefore tree off) ∧ RlApart (rlAfter tree off) ∧
      ∀ a ∈ rlBefore tree off, ∀ b ∈ rlAfter tree off, a.rEnd ≤ b.rOff :=
  List.pairwise_append.mp ((rlBefore_append_rlAfter tree off).symm ▸ h)

theorem mem_rlBefore_or_rlAfter {e : Rl} (he : e ∈ tree) (off : Nat) :
    e ∈ rlBefore tree off ∨ e ∈ rlAfter tree off := by
  rw [← rlBefore_append_rlAfter tree off] at he
  exact List.mem_append.mp he

theorem writerConflict_none (hvalid : ∀ e ∈ tree, e.Valid) (hapart : RlApart tree)
    (h : writerConflict tree new = none) :
    ∀ e ∈ tree, e.rEnd ≤ new.rOff ∨ new.rEnd ≤ e.rOff := by
  obtain ⟨hleft, hright, -⟩ := hapart.parts new.rOff
  have hbefore (hfilter : (rlBefore tree new.rOff).getLast?.filter
      (fun rl => rl.rEnd > new.rOff) = none) :
      ∀ e ∈ rlBefore tree new.rOff, e.rEnd ≤ new.rOff := by
    cases hlast : (rlBefore tree new.rOff).getLast? with
    | none => simp [List.getLast?_eq_none_iff.mp hlast]
    | some p =>
      rw [hlast] at hfilter
      refine ends_of_last (fun e he => hvalid e (mem_of_mem_rlBefore he)) hleft hlast ?_
      simpa [Option.filter] using hfilter
  intro e he
  unfold writerConflict at h
  cases hafter : rlAfter tree new.rOff with
  | nil =>
    rw [hafter] at h
    rcases mem_rlBefore_or_rlAfter he new.rOff with he | he
    · exact .inl (hbefore h e he)
    · simp [hafter] at he
  | cons rl rest =>
    rw [hafter] at h
    dsimp only at h
    split at h
    · cases h
    · split at h
      · cases h
      · rename_i hbehind
        rcases mem_rlBefore_or_rlAfter he new.rOff with he | he
        · exact .inl (hbefore h e he)
        · exact .inr (starts_of_head (fun e he => hvalid e (mem_of_mem_rlAfter he)) hright hafter
            (Nat.le_of_not_lt hbehind) e he)

theorem readerScan_none {fin : Nat} (hvalid : ∀ e ∈ l, e.Valid) (hapart : RlApart l)
    (h : readerScan fin l = none) : ∀ e ∈ l, e.rOff < fin → rlBlocks e = false := by
  induction l with
  | nil => simp
  | cons next rest ih =>
    obtain ⟨hlater, hrest⟩ := List.pairwise_cons.mp hapart
    have hlt := (hvalid next List.mem_cons_self).off_lt_end
    intro e he hfin
    unfold readerScan at h
    split at h
    · rcases List.mem_cons.mp he with rfl | he
      · omega
      · have := hlater e he
        omega
    · split at h
      · cases h
      · rename_i hclear
        rcases List.mem_cons.mp he with rfl | he
        · simpa using hclear
        · split at h
          · have := hlater e he
            omega
          · exact ih (fun e he => hvalid e (List.mem_cons_of_mem _ he)) hrest h e he hfin

theorem readerScan_some {fin : Nat} (h : readerScan fin l = some rl) :
    rl ∈ l ∧ rlBlocks rl = true := by
  induction l with
  | nil => cases h
  | cons next rest ih =>
    unfold readerScan at h
    split at h
    · cases h
    · split at h
      · cases h
        exact ⟨List.mem_cons_self, by assumption⟩
      · split at h
        · cases h
        · exact ⟨List.mem_cons_of_mem _ (ih h).1, (ih h).2⟩

theorem readerCheck_some {prev : Option Rl}
    (h : readerCheck new prev rest = some rl) : (rl ∈ prev ∨ rl ∈ rest) ∧ rlBlocks rl = true := by
  have hscan (h : readerScan new.rEnd rest = some rl) :
      (rl ∈ prev ∨ rl ∈ rest) ∧ rlBlocks rl = true :=
    ⟨.inr (readerScan_some h).1, (readerScan_some h).2⟩
  cases prev with
  | none => exact hscan h
  | some p =>
    unfold readerCheck at h
    dsimp only at h
    split at h
    · split at h
      · cases h
        exact ⟨.inl rfl, by assumption⟩
      · split at h
        · cases h
        · exact hscan h
    · exact hscan h

/-- The entries a check without a conflict has seen: those before the range end before it, and the
others follow the one at the start of the check. -/
theorem readerCheck_none {left : List Rl} (hvalid : ∀ e ∈ left ++ p :: rest, e.Valid)
    (hapart : RlApart (left ++ p :: rest)) (hp : p.rOff ≤ new.rOff)
    (h : readerCheck new (some p) rest = none) :
    ∀ e ∈ left ++ p :: rest, e.rOff < new.rEnd → new.rOff < e.rEnd → rlBlocks e = false := by
  obtain ⟨-, hright, hcross⟩ := List.pairwise_append.mp hapart
  obtain ⟨hlater, hrest⟩ := List.pairwise_cons.mp hright
  have hvalidRest : ∀ e ∈ rest, e.Valid := fun e he => hvalid e (by simp [he])
  have hbefore : ∀ e ∈ left, e.rEnd ≤ new.rOff := fun e he =>
    le_trans (hcross e he p List.mem_cons_self) hp
  intro e he hlo hhi
  unfold readerCheck at h
  dsimp only at h
  rcases List.mem_append.mp he with he | he
  · have := hbefore e he
    omega
  · rcases List.mem_cons.mp he with rfl | he
    · rw [if_pos hhi] at h
      split at h
      · cases h
      · rename_i hno
        simpa using hno
    · split at h
      · split at h
        · cases h
        · split at h
          · have := hlater e he
            omega
          · exact readerScan_none hvalidRest hrest h e he hlo
      · exact readerScan_none hvalidRest hrest h e he hlo

/-- Without a conflict no entry that meets the range of a reader is a writer's or wanted by
one. -/
theorem readerConflict_none (hvalid : ∀ e ∈ tree, e.Valid) (hapart : RlApart tree)
    (h : readerConflict tree new = none) :
    ∀ e ∈ tree, e.rOff < new.rEnd → new.rOff < e.rEnd →
      e.rType = .reader ∧ e.rWriteWanted = false := by
  have hsplit := rlBefore_append_rlAfter tree new.rOff
  have hclear : ∀ e ∈ tree, e.rOff < new.rEnd → new.rOff < e.rEnd → rlBlocks e = false := by
    unfold readerConflict at h
    dsimp only at h
    split at h
    · rename_i found hfound
      obtain ⟨hhead, hoff⟩ := Option.filter_eq_some_iff.mp hfound
      have hoff : found.rOff = new.rOff := by simpa using hoff
      obtain ⟨rest, hafter⟩ := List.head?_eq_some_iff.mp hhead
      rw [hafter] at h hsplit
      rw [List.tail_cons] at h
      have := readerCheck_none (hsplit.symm ▸ hvalid) (hsplit.symm ▸ hapart) hoff.le h
      rwa [hsplit] at this
    · cases hlast : (rlBefore tree new.rOff).getLast? with
      | none =>
        rw [hlast] at h
        have hnil := List.getLast?_eq_none_iff.mp hlast
        rw [hnil, List.nil_append] at hsplit
        intro e he hlo _
        rw [hsplit] at h
        exact readerScan_none hvalid hapart h e he hlo
      | some p =>
        rw [hlast] at h
        obtain ⟨init, hinit⟩ := List.getLast?_eq_some_iff.mp hlast
        have hmem : p ∈ rlBefore tree new.rOff := by simp [hinit]
        have hlt := lt_of_mem_rlBefore hmem
        rw [hinit, List.append_assoc] at hsplit
        have := readerCheck_none (hsplit.symm ▸ hvalid) (hsplit.symm ▸ hapart) hlt.le h
        change ∀ e ∈ init ++ ([p] ++ rlAfter tree new.rOff), _ at this
        rwa [hsplit] at this
  intro e he hlo hhi
  have hno := hclear e he hlo hhi
  have htype := (hvalid e he).type
  simp only [rlBlocks, decide_eq_false_iff_not, not_or] at hno
  refine ⟨?_, by simpa using hno.2⟩
  cases hcase : e.rType with
  | reader => rfl
  | writer => exact absurd hcase hno.1
  | append => exact absurd hcase htype

theorem readerConflict_some (h : readerConflict tree new = some rl) :
    rl ∈ tree ∧ rlBlocks rl = true := by
  unfold readerConflict at h
  dsimp only at h
  split at h
  · rename_i found hfound
    obtain ⟨hmem, hblocks⟩ := readerCheck_some h
    refine ⟨?_, hblocks⟩
    rcases hmem with hmem | hmem
    · cases hmem
      exact mem_of_mem_rlAfter (List.mem_of_mem_head? (Option.filter_eq_some_iff.mp hfound).1)
    · exact mem_of_mem_rlAfter (List.mem_of_mem_tail hmem)
  · obtain ⟨hmem, hblocks⟩ := readerCheck_some h
    exact ⟨hmem.elim (fun hmem => mem_of_mem_rlBefore (List.mem_of_mem_getLast? hmem))
      mem_of_mem_rlAfter, hblocks⟩

end Conflicts

/- What a pass of a lock function leaves behind. -/
def Attempt.Kept (away : List Rl) (held : Multiset Held) : Attempt → Prop
  | .granted tree replaced lock => Consistent tree (away ++ replaced) (lock.held ::ₘ held)
  | .wait tree => Consistent tree away held

section Pass

variable {tree away : List Rl} {held : Multiset Held} {new : Rl}
  (h : Consistent tree away held)
include h

theorem Consistent.setWriteWanted (rl : Rl) :
    Consistent (ClusterZfs.setWriteWanted tree rl) away held := by
  refine h.mapFlags (fun e => ?_) fun e he => ?_
  · split <;> simp
  · split
    · simp
    · exact (h.valid e he).wanted

/-- A reader only waits for an entry that is a writer's or wanted by one. -/
theorem Consistent.setReadWanted {rl : Rl} (hmem : rl ∈ tree) (hblocks : rlBlocks rl = true) :
    Consistent (ClusterZfs.setReadWanted tree rl) away held := by
  refine h.mapFlags (fun e => ?_) fun e he => ?_
  · split <;> simp
  · split
    · rename_i hoff
      have hsame : e = rl :=
        eq_of_key_eq (h.apart.sorted h.valid) he hmem hoff
      intro htype _
      rw [hsame] at htype ⊢
      change rl.rType = .reader at htype
      simpa [rlBlocks, htype] using hblocks
    · exact (h.valid e he).wanted

theorem Consistent.lockReader (hnew : FreshReader new) :
    ∃ a, zfsRangeLockReader tree new = some a ∧ a.Kept away held := by
  unfold zfsRangeLockReader
  cases hconflict : readerConflict tree new with
  | some rl =>
    obtain ⟨hmem, hblocks⟩ := readerConflict_some hconflict
    exact ⟨_, rfl, h.setReadWanted hmem hblocks⟩
  | none =>
    obtain ⟨tree', d, hadd, hspread⟩ := zfsRangeAddReader_spec hnew h.valid h.apart
      (readerConflict_none h.valid h.apart hconflict)
    exact ⟨_, hadd, h.addReader hnew hspread⟩

theorem Consistent.lockWriter {file : Option ZrFile} (hvalid : (writerLock file new).Valid)
    (hplain : (writerLock file new).rProxy = false) :
    (zfsRangeLockWriter file tree new).Kept away held := by
  unfold zfsRangeLockWriter
  by_cases hnil : tree = []
  · subst hnil
    have := h.addWriter hvalid rfl hplain (by simp)
    simpa [Attempt.Kept, rlBefore, rlAfter] using this
  · simp only [if_neg hnil]
    cases hconflict : writerConflict tree (writerLock file new) with
    | some rl => exact h.setWriteWanted rl
    | none =>
      have hno := writerConflict_none h.valid h.apart hconflict
      simpa [Attempt.Kept] using h.addWriter hvalid rfl hplain hno

end Pass

/- The locks `zfs_range_lock` is called for: the range is not empty and its end is a machine
word, where an append starts at the end of the file. -/
structure Requested (file : Option ZrFile) (new : Rl) : Prop where
  fresh : new = Rl.new new.rId new.rOff new.rLen new.rType
  pos : 0 < new.rLen
  bound : new.rEnd < 2 ^ 64
  append : new.rType = .append → ∀ f ∈ file, f.zrSize + new.rLen < 2 ^ 64

section Requests

variable {file : Option ZrFile} {new : Rl}

theorem Requested.reader (h : Requested file new) (htype : new.rType = .reader) :
    FreshReader new := by
  have hfresh := h.fresh
  refine ⟨⟨h.pos, h.bound, ?_, ?_, ?_, ?_, ?_⟩, htype, ?_, ?_, ?_⟩ <;> rw [hfresh] <;>
    simp [Rl.new, htype]

/-- The range a writer asks for: an append starts at the end of the file or the range is the whole
file. -/
theorem writerRange_cases (file : Option ZrFile) (new : Rl) :
    (writerRange file new = { new with rOff := 0, rLen := uint64Max } ∧ file.isSome) ∨
      (writerRange file new = new ∧ (file = none ∨ new.rType ≠ .append)) ∨
      ∃ f, file = some f ∧ new.rType = .append ∧
        writerRange file new = { new with rOff := f.zrSize } := by
  cases file with
  | none => exact .inr (.inl ⟨rfl, .inl rfl⟩)
  | some f =>
    by_cases happend : new.rType = .append
    · simp only [writerRange, if_pos happend]
      split
      · exact .inl ⟨rfl, rfl⟩
      · exact .inr (.inr ⟨f, rfl, happend, rfl⟩)
    · simp only [writerRange, if_neg happend]
      split
      · exact .inl ⟨rfl, rfl⟩
      · exact .inr (.inl ⟨rfl, .inr happend⟩)

theorem Requested.writer (h : Requested file new) :
    (writerLock file new).Valid ∧ (writerLock file new).rProxy = false := by
  have hplain : new.rProxy = false := by rw [h.fresh]; rfl
  have hcnt : new.rCnt = 1 := by rw [h.fresh]; rfl
  have hmake : ∀ off len, 0 < len → off + len < 2 ^ 64 →
      Rl.Valid { new with rOff := off, rLen := len, rType := .writer } := by
    intro off len hpos hbound
    exact ⟨hpos, hbound, by simp [hcnt], by simp [hplain], fun _ => hcnt, by simp, by simp⟩
  rcases writerRange_cases file new with ⟨heq, -⟩ | ⟨heq, -⟩ | ⟨f, hf, happend, heq⟩ <;>
    rw [writerLock, heq]
  · exact ⟨hmake 0 uint64Max (by decide) (by decide), hplain⟩
  · exact ⟨hmake new.rOff new.rLen h.pos h.bound, hplain⟩
  · exact ⟨hmake f.zrSize new.rLen h.pos (h.append happend f hf), hplain⟩

end Requests

end ClusterZfs

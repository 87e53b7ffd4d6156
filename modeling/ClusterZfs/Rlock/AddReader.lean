import ClusterZfs.Rlock.Spread
import ClusterZfs.Lib.SortedKeys

/-! A new reader in the tree. -/
namespace ClusterZfs

section Loop

variable {fin : Nat}

theorem gapProxy_spread {s : Nat} {next : Rl} (hle : s ≤ next.rOff) (hbound : next.rOff < 2 ^ 64) :
    ∃ gap, gapProxy (some s) next = some gap ∧ Spread s next.rOff 0 [] gap [] := by
  by_cases hlt : s < next.rOff
  · obtain ⟨p, hproxy, hspread⟩ := Spread.gap hlt hbound
    exact ⟨[p], by simp [gapProxy, hlt, hproxy], hspread⟩
  · have heq : s = next.rOff := by omega
    refine ⟨[], by simp [gapProxy, hlt], ?_⟩
    rw [heq]
    exact Spread.rest (by simp) .nil (by simp)

theorem addReaderLoop_spec {s : Nat} {l : List Rl} (hvalid : ∀ e ∈ l, e.Valid) (hapart : RlApart l)
    (hs : s < fin) (hfin : fin < 2 ^ 64) (habove : ∀ e ∈ l, s ≤ e.rOff)
    (hfree : ∀ e ∈ l, e.rOff < fin → e.rType = .reader ∧ e.rWriteWanted = false) :
    ∃ l' d, addReaderLoop fin (some s) l = some (l', d) ∧ Spread s fin 0 l l' d := by
  induction l generalizing s with
  | nil =>
    obtain ⟨p, hproxy, hspread⟩ := Spread.gap hs hfin
    exact ⟨[p], [], by simp [addReaderLoop, hproxy], hspread⟩
  | cons next rest ih =>
    have hnext : next.Valid := hvalid next List.mem_cons_self
    have hrest : ∀ e ∈ rest, e.Valid := fun e he => hvalid e (List.mem_cons_of_mem _ he)
    obtain ⟨hlater, hapart'⟩ := List.pairwise_cons.mp hapart
    have hlt := hnext.off_lt_end
    by_cases hbreak : fin ≤ next.rOff
    · obtain ⟨p, hproxy, hspread⟩ := Spread.gap hs hfin
      refine ⟨p :: next :: rest, [], by simp [addReaderLoop, hbreak, hproxy], ?_⟩
      exact hspread.append_rest hs.le hvalid hapart (List.forall_mem_cons.mpr
        ⟨hbreak, fun e he => hbreak.trans (hlt.le.trans (hlater e he))⟩)
    · obtain ⟨hreader, hno⟩ := hfree next List.mem_cons_self (by omega)
      obtain ⟨gap, hgap, hspreadGap⟩ := gapProxy_spread (habove next List.mem_cons_self)
        (by omega : next.rOff < 2 ^ 64)
      have hsingle : ∀ e ∈ [next], next.rOff ≤ e.rOff := by simp
      have hempty : ∀ e ∈ ([] : List Rl), e.rEnd ≤ next.rOff := by simp
      have hsn := habove next List.mem_cons_self
      rcases lt_trichotomy fin next.rEnd with hmid | hexact | hpast
      · -- The range ends inside this entry.
        obtain ⟨front, rear, d, hsplit, hspread⟩ :=
          Spread.front hnext hreader hno (by omega : next.rOff < fin) hmid
        have hpiece := hspreadGap.append hspread hsn (by omega) hempty hsingle
        refine ⟨gap ++ bump front :: rear :: rest, d, ?_, ?_⟩
        · simp [addReaderLoop, hbreak, hgap, hmid.ne, hmid, hsplit]
        · have := hpiece.append_rest hs.le hrest hapart fun e he => by
            have := hlater e he
            omega
          simpa using this
      · -- The range ends with this entry.
        obtain ⟨p, d, hproxify, hend, hspread⟩ := Spread.whole hnext hreader hno
        rw [← hexact] at hspread
        have hpiece := hspreadGap.append hspread hsn (by omega) hempty hsingle
        refine ⟨gap ++ bump p :: rest, d, ?_, ?_⟩
        · have hnot : ¬ next.rEnd ≤ next.rOff := by omega
          simp [addReaderLoop, hgap, hexact, hnot, hproxify]
        · have := hpiece.append_rest hs.le hrest hapart fun e he => by
            have := hlater e he
            omega
          simpa using this
      · obtain ⟨p, d, hproxify, hend, hspread⟩ := Spread.whole hnext hreader hno
        obtain ⟨l', d', hloop, hspread'⟩ := ih hrest hapart' hpast (fun e he => hlater e he)
          fun e he => hfree e (List.mem_cons_of_mem _ he)
        have hpiece := hspreadGap.append hspread hsn (by omega) hempty hsingle
        refine ⟨gap ++ bump p :: l', d ++ d', ?_, ?_⟩
        · have hne : fin ≠ next.rEnd := by omega
          have hnot : ¬ fin < next.rEnd := by omega
          simp [addReaderLoop, hbreak, hgap, hne, hnot, hproxify, hend, hloop]
        · have := hpiece.append hspread' (by omega) (by omega) (by simp) (fun e he => hlater e he)
          simpa using this

theorem addReaderLoop_none {next : Rl} {rest : List Rl} (hlt : next.rOff < fin) :
    addReaderLoop fin none (next :: rest) = addReaderLoop fin (some next.rOff) (next :: rest) := by
  have hnot : ¬ fin ≤ next.rOff := by omega
  simp [addReaderLoop, hnot, gapProxy]

end Loop

section Tree

variable {tree : List Rl} {off : Nat} {e : Rl}

theorem rlBefore_append_rlAfter (tree : List Rl) (off : Nat) :
    rlBefore tree off ++ rlAfter tree off = tree :=
  List.takeWhile_append_dropWhile

theorem RlApart.sorted (hvalid : ∀ e ∈ tree, e.Valid) (h : RlApart tree) :
    tree.Pairwise fun a b => a.rOff < b.rOff :=
  List.Pairwise.imp_of_mem (fun ha _ hab => lt_of_lt_of_le (hvalid _ ha).off_lt_end hab) h

theorem mem_of_mem_rlBefore (h : e ∈ rlBefore tree off) : e ∈ tree := by
  rw [← rlBefore_append_rlAfter tree off]
  exact List.mem_append_left _ h

theorem mem_of_mem_rlAfter (h : e ∈ rlAfter tree off) : e ∈ tree := by
  rw [← rlBefore_append_rlAfter tree off]
  exact List.mem_append_right _ h

theorem lt_of_mem_rlBefore (h : e ∈ rlBefore tree off) : e.rOff < off :=
  lt_of_mem_takeWhile_key h

theorem RlApart.le_of_mem_rlAfter (h : RlApart tree) (hvalid : ∀ e ∈ tree, e.Valid)
    (he : e ∈ rlAfter tree off) : off ≤ e.rOff :=
  le_of_mem_dropWhile_key (h.sorted hvalid) he

/- A reader as `zfs_range_lock` makes it. -/
structure FreshReader (new : Rl) : Prop where
  valid : new.Valid
  type : new.rType = .reader
  plain : new.rProxy = false
  writeWanted : new.rWriteWanted = false
  readWanted : new.rReadWanted = false

variable {new : Rl}

theorem FreshReader.alone (h : FreshReader new) :
    Spread new.rOff new.rEnd {new.held} [] [new] [] := by
  refine .single h.valid rfl rfl (fun x => ?_) ?_
  · rw [readersAt_reader _ h.type, h.valid.plain h.plain]
  · rw [plainHeld_plain _ h.plain]
    rfl

theorem Spread.replace {s fin : Nat} {l l' d : List Rl} (h : Spread s fin 0 l l' d)
    (hnew : FreshReader new) :
    Spread s fin {new.held} l l' ({ new with rCnt := 0 } :: d) := by
  have hself : Rl.Replaced { new with rCnt := 0 } :=
    ⟨rfl, hnew.type, hnew.plain, hnew.writeWanted, hnew.readWanted⟩
  refine { h with held := ?_, replaced := List.forall_mem_cons.mpr ⟨hself, h.replaced⟩ }
  rw [heldOf_cons, ← Multiset.singleton_add, add_left_comm, h.held, add_zero, add_comm]
  rfl

/-- The part of the insertion after the entry before the range: everything on the left ends where
the range starts. -/
theorem addReaderFrom_spec {left right : List Rl} (replaced : List Rl) (hnew : FreshReader new)
    (hvalid : ∀ e ∈ left ++ right, e.Valid) (hapart : RlApart (left ++ right))
    (hleft : ∀ e ∈ left, e.rEnd ≤ new.rOff) (hright : ∀ e ∈ right, new.rOff ≤ e.rOff)
    (hfree : ∀ e ∈ right, e.rOff < new.rEnd → e.rType = .reader ∧ e.rWriteWanted = false) :
    ∃ tree' d, addReaderFrom left right replaced new =
        some (.granted tree' (replaced ++ d) new) ∧
      Spread new.rOff new.rEnd {new.held} (left ++ right) tree' d := by
  have hapartRight := (List.pairwise_append.mp hapart).2.1
  have hvalidLeft : ∀ e ∈ left, e.Valid := fun e he => hvalid e (List.mem_append_left _ he)
  have hvalidRight : ∀ e ∈ right, e.Valid := fun e he => hvalid e (List.mem_append_right _ he)
  -- It is enough to spread over the right part.
  have hjoin {right' d : List Rl} {own : Multiset Held}
      (h : Spread new.rOff new.rEnd own right right' d) :
      Spread new.rOff new.rEnd own (left ++ right) (left ++ right') d :=
    h.rest_append hnew.valid.off_lt_end.le hvalidLeft hapart hleft
  cases right with
  | nil =>
    refine ⟨left ++ [new], [], by simp [addReaderFrom], ?_⟩
    exact hjoin hnew.alone
  | cons next rest =>
    have hsorted : ∀ e ∈ next :: rest, next.rOff ≤ e.rOff := List.forall_mem_cons.mpr
      ⟨le_rfl, fun e he => (hvalidRight next List.mem_cons_self).off_lt_end.le.trans
        ((List.pairwise_cons.mp hapartRight).1 e he)⟩
    by_cases hbehind : new.rEnd ≤ next.rOff
    · refine ⟨left ++ new :: next :: rest, [], by simp [addReaderFrom, hbehind], ?_⟩
      exact hjoin (hnew.alone.append_rest hnew.valid.off_lt_end.le hvalidRight hapartRight
        fun e he => hbehind.trans (hsorted e he))
    · have hinside : next.rOff < new.rEnd := Nat.lt_of_not_le hbehind
      have hlow : new.rOff ≤ next.rOff := hright next List.mem_cons_self
      have hfin : new.rEnd < 2 ^ 64 := hnew.valid.bound
      obtain ⟨first, hfirst, hspreadFirst⟩ :=
        gapProxy_spread hlow (by omega : next.rOff < 2 ^ 64)
      obtain ⟨l', d, hloop, hspread⟩ :=
        addReaderLoop_spec hvalidRight hapartRight hinside hfin hsorted hfree
      have hpiece := hspreadFirst.append hspread hlow hinside.le (by simp) hsorted
      refine ⟨left ++ first ++ l', { new with rCnt := 0 } :: d, ?_, ?_⟩
      · rw [← addReaderLoop_none hinside] at hloop
        simp only [gapProxy] at hfirst
        simp [addReaderFrom, if_neg hbehind, hfirst, hloop]
      · rw [List.append_assoc]
        exact hjoin (Spread.replace (by simpa using hpiece) hnew)

/-- A reader that no writer is in the way of is granted, and the tree counts it. -/
theorem zfsRangeAddReader_spec (hnew : FreshReader new) (hvalid : ∀ e ∈ tree, e.Valid)
    (hapart : RlApart tree)
    (hfree : ∀ e ∈ tree, e.rOff < new.rEnd → new.rOff < e.rEnd →
      e.rType = .reader ∧ e.rWriteWanted = false) :
    ∃ tree' d, zfsRangeAddReader tree new = some (.granted tree' d new) ∧
      Spread new.rOff new.rEnd {new.held} tree tree' d := by
  have hsplit := rlBefore_append_rlAfter tree new.rOff
  have hafter : ∀ e ∈ rlAfter tree new.rOff, new.rOff ≤ e.rOff := fun e he =>
    hapart.le_of_mem_rlAfter hvalid he
  have hfreeAfter : ∀ e ∈ rlAfter tree new.rOff, e.rOff < new.rEnd →
      e.rType = .reader ∧ e.rWriteWanted = false := by
    intro e he hlt
    have hmem := mem_of_mem_rlAfter he
    exact hfree e hmem hlt (lt_of_le_of_lt (hafter e he) (hvalid e hmem).off_lt_end)
  have hstart (hbefore : ∀ e ∈ rlBefore tree new.rOff, e.rEnd ≤ new.rOff) :
      ∃ tree' d, addReaderFrom (rlBefore tree new.rOff) (rlAfter tree new.rOff) [] new =
          some (.granted tree' d new) ∧ Spread new.rOff new.rEnd {new.held} tree tree' d := by
    have := addReaderFrom_spec [] hnew (hsplit.symm ▸ hvalid) (hsplit.symm ▸ hapart)
      hbefore hafter hfreeAfter
    rwa [hsplit] at this
  have hsep := (List.pairwise_append.mp (hsplit.symm ▸ hapart : RlApart _)).2.2
  cases hfound : (rlAfter tree new.rOff).head?.filter fun rl => rl.rOff = new.rOff with
  | some prev =>
    -- An entry starts where the range starts.
    obtain ⟨hhead, hoff⟩ := Option.filter_eq_some_iff.mp hfound
    have hmem : prev ∈ rlAfter tree new.rOff := List.mem_of_mem_head? hhead
    have hoff : prev.rOff = new.rOff := by simpa using hoff
    have hlt := (hvalid prev (mem_of_mem_rlAfter hmem)).off_lt_end
    have hnot : ¬ prev.rEnd ≤ new.rOff := by omega
    simp only [zfsRangeAddReader, hfound, if_neg hnot]
    exact hstart fun e he => hoff ▸ hsep e he prev hmem
  | none =>
    cases hlast : (rlBefore tree new.rOff).getLast? with
    | none =>
      have hnil : rlBefore tree new.rOff = [] := List.getLast?_eq_none_iff.mp hlast
      simp only [zfsRangeAddReader, hfound, hlast]
      exact hstart (by simp [hnil])
    | some prev =>
      obtain ⟨init, hinit⟩ := List.getLast?_eq_some_iff.mp hlast
      have hmem : prev ∈ rlBefore tree new.rOff := by simp [hinit]
      have hprev := hvalid prev (mem_of_mem_rlBefore hmem)
      have hlow : prev.rOff < new.rOff := lt_of_mem_rlBefore hmem
      have htree : tree = init ++ ([prev] ++ rlAfter tree new.rOff) := by
        conv_lhs => rw [← hsplit, hinit, List.append_assoc]
      rw [htree] at hapart
      obtain ⟨-, hapartPrev, hsepInit⟩ := List.pairwise_append.mp hapart
      have hends : ∀ e ∈ init, e.rEnd ≤ prev.rOff := fun e he =>
        hsepInit e he prev (by simp)
      by_cases hends' : prev.rEnd ≤ new.rOff
      · simp only [zfsRangeAddReader, hfound, hlast, if_pos hends']
        refine hstart ?_
        rw [hinit]
        exact List.forall_mem_append.mpr
          ⟨fun e he => (hends e he).trans hlow.le, List.forall_mem_singleton.mpr hends'⟩
      · -- The entry before reaches into the range and is cut there.
        have hover : new.rOff < prev.rEnd := Nat.lt_of_not_le hends'
        obtain ⟨hreader, hno⟩ := hfree prev (mem_of_mem_rlBefore hmem)
          (lt_trans hlow hnew.valid.off_lt_end) hover
        obtain ⟨front, rear, d, hcut, hfront, hrear, htype, hwanted, hspread⟩ :=
          Spread.cut hprev hreader hno hlow hover
        have hinitValid : ∀ e ∈ init, e.Valid := fun e he => hvalid e (htree ▸ by simp [he])
        have hafterValid : ∀ e ∈ rlAfter tree new.rOff, e.Valid := fun e he =>
          hvalid e (mem_of_mem_rlAfter he)
        have hcutTree := (hspread.append_rest le_rfl hafterValid hapartPrev hafter).rest_append
          le_rfl hinitValid hapart fun e he => le_trans (hends e he) hlow.le
        have hlist : init ++ ([front, rear] ++ rlAfter tree new.rOff) =
            (init ++ [front]) ++ (rear :: rlAfter tree new.rOff) := by simp
        rw [hlist] at hcutTree
        obtain ⟨tree', d', hfrom, hspread'⟩ := addReaderFrom_spec d hnew hcutTree.valid
          hcutTree.apart
          (List.forall_mem_append.mpr ⟨fun e he => (hends e he).trans hlow.le,
            List.forall_mem_singleton.mpr hfront.le⟩)
          (List.forall_mem_cons.mpr ⟨hrear.ge, hafter⟩)
          (List.forall_mem_cons.mpr ⟨fun _ => ⟨htype, hwanted⟩, hfreeAfter⟩)
        refine ⟨tree', d ++ d', ?_, ?_⟩
        · simp only [zfsRangeAddReader, hfound, hlast, if_neg hends', hcut, Option.bind_some]
          rw [hinit, List.dropLast_concat]
          exact hfrom
        · rw [← htree] at hcutTree
          simpa using hcutTree.trans hvalid hspread'

end Tree

end ClusterZfs

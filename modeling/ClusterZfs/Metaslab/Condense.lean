import ClusterZfs.Metaslab.Runs

/-! A condensed space map says what the appended one would. -/
namespace ClusterZfs

/- The map written from the working tree of a `metaslab_condense` and the one that the trees of the
txg are appended to replay to the same allocated set. -/
def CondenseAgrees (s : MetaslabSys) (tree : RangeSet) : Prop :=
  ∃ condensed appended A,
    condenseWrite s.ms.smOrNew tree s.ms.msTree s.syncPass s.syncingTxg = some condensed ∧
    appendWrite s.ms.smOrNew (s.ms.alloctree s.syncingTxg) (s.ms.freetree s.syncingTxg) s.syncPass
      s.syncingTxg = some appended ∧
    spaceMapLoad (spaceMapUpdate condensed) ∅ .alloc (fun _ => 0) = some (0, A) ∧
    spaceMapLoad (spaceMapUpdate appended) ∅ .alloc (fun _ => 0) = some (0, A)

section Condense

variable {s₀ s : MetaslabSys}

theorem Conserved.of_reach (hinit : s₀.Initial)
    (h : Reach metaslabStep (fun s call => MetaslabCall.Allowed s call) s₀ s) :
    ∃ life, Conserved s life :=
  Reach.invariant (P := fun s => ∃ life, Conserved s life) hinit.conserved
    (fun _ _ _ hcons hok hstep => hcons.choose_spec.step hok hstep) h

theorem Conserved.agrees {life : Nat → Life} (h : Conserved s life) {tree : RangeSet}
    (hc : s.ms.msCondensing = some tree) : CondenseAgrees s tree := by
  obtain ⟨condensed, B, hwrite, -, hrec, hB⟩ := h.condense hc s.syncPass
  obtain ⟨appended, B', hwrite', -, hrec', -, hB'⟩ := h.append s.syncPass
  cases hB.unique hB'
  exact ⟨condensed, appended, B, hwrite, hwrite', spaceMapLoad_records hrec .alloc,
    spaceMapLoad_records hrec' .alloc⟩

/-- In every reached state in which `metaslab_sync` may condense, each tree that is taken out of the
working tree lies in it, and the space map written from it replays to the set that appending the
trees of the txg gives. The same holds at the end of a `metaslab_condense`, whatever was freed while
it had dropped the lock. -/
theorem metaslab_condense_replay (hinit : s₀.Initial)
    (h : Reach metaslabStep (fun s call => MetaslabCall.Allowed s call) s₀ s) :
    (∀ wanted should, (MetaslabCall.sync wanted should).Allowed s → s.ms.msLoaded = true →
      s.syncPass = 1 → ∃ tree, condenseTree s.ms s.syncingTxg = some tree ∧
        CondenseAgrees s tree) ∧
    ∀ tree, s.ms.msCondensing = some tree → CondenseAgrees s tree := by
  obtain ⟨life, hcons⟩ := Conserved.of_reach hinit h
  refine ⟨fun wanted should hok hloaded hpass => ?_, fun tree hc => hcons.agrees hc⟩
  obtain ⟨tree, hrun, -⟩ := hcons.condense_tree
  have hstep : metaslabStep s (.sync true true) =
      some { s with
        ms := { s.ms with msSm := some s.ms.smOrNew, msCondensing := some tree }
        syncedPass := s.syncPass } := by
    simp only [metaslabStep, metaslabSync, not_true_eq_false, and_false, if_false]
    rw [if_pos ⟨hloaded, hpass, trivial⟩, hrun]
    rfl
  have hallowed : (MetaslabCall.sync true true).Allowed s := hok
  obtain ⟨life', hcons'⟩ := hcons.step hallowed hstep
  exact ⟨tree, hrun, hcons'.agrees rfl⟩

end Condense

/- A metaslab of eight bytes without a space map. -/
def smallMetaslab : MetaslabSys where
  ms :=
    { region := ⟨0, 8, 0, 4096, by decide, by decide, by decide, by decide, by decide, by decide⟩
      whole := by decide
      msTree := ∅
      msLoaded := false
      msCondensing := none
      msAlloctree := fun _ => ∅
      msFreetree := fun _ => ∅
      msDefertree := fun _ => ∅
      msSm := none
      msAccessTxg := 0 }
  syncingTxg := 4
  openTxg := 4
  syncPass := 0
  syncedPass := 0
  initial := ∅
  history := []

theorem smallMetaslab_initial : smallMetaslab.Initial where
  tree := rfl
  loaded := rfl
  condensing := rfl
  alloc _ := rfl
  free _ := rfl
  defer _ := rfl
  map _ h := by cases h
  new _ := rfl
  txg := by decide
  opened := rfl
  pass := rfl
  synced := rfl
  history := rfl

/-- Two txgs have allocated, and the first one is condensed. -/
theorem metaslab_condense_replay_small : ∃ s tree, s.ms.msCondensing = some tree ∧
    s.ms.alloctree 4 = Finset.Ico 0 2 ∧ s.ms.alloctree 5 = Finset.Ico 2 3 ∧
    CondenseAgrees s tree := by
  obtain ⟨s, hreach, hsome, hfour, hfive⟩ := exists_reach metaslabStep
    (fun s call => MetaslabCall.Allowed s call) smallMetaslab
    [.activate fun _ => 0, .alloc 4 0 2, .openNext, .alloc 5 2 1, .nextPass, .sync true true]
    (fun s => s.ms.msCondensing.isSome = true ∧ s.ms.alloctree 4 = Finset.Ico 0 2 ∧
      s.ms.alloctree 5 = Finset.Ico 2 3) (by decide)
  obtain ⟨tree, htree⟩ := Option.isSome_iff_exists.mp hsome
  exact ⟨s, tree, htree, hfour, hfive,
    (metaslab_condense_replay smallMetaslab_initial hreach).2 tree htree⟩

end ClusterZfs

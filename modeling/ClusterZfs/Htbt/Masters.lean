import ClusterZfs.Htbt.Coherent

/-! Two nodes that each are their own master. A heartbeat that a node has sent can arrive at the
other one late, often, in any order or never. -/
namespace ClusterZfs

namespace HtbtLocalInfo

/- What `cm_htbt_state_recv_stable` asks of a heartbeat before it compares. -/
def Claims (m : HtbtLocalInfo) : Prop := m.state = .stable ∧ m.id = m.subMasterId

/- An earlier state of the same master. -/
structure NoMore (m info : HtbtLocalInfo) : Prop where
  id : m.id = info.id
  healthIndex : m.healthIndex = info.healthIndex
  upTime : m.upTime = info.upTime
  duration : m.duration ≤ info.duration

end HtbtLocalInfo

/- `old` beaten by an earlier `new`: nothing that `old` said so far beats `new` as it is now. -/
theorem masterPk_chain {old new said now : HtbtLocalInfo} (hwins : cmHtbtMasterPk old new = true)
    (hsaid : said.NoMore old) (hnow : new.NoMore now) (hne : old.id ≠ new.id) :
    cmHtbtMasterPk now said = false := by
  obtain ⟨hid, hhealth, hup, hdur⟩ := hsaid
  obtain ⟨hid', hhealth', hup', hdur'⟩ := hnow
  simp only [cmHtbtMasterPk] at hwins ⊢
  grind

theorem masterPk_grow {old said now : HtbtLocalInfo} (hloses : cmHtbtMasterPk old said = false)
    (hnow : old.NoMore now) : cmHtbtMasterPk now said = false := by
  obtain ⟨hid, hhealth, hup, hdur⟩ := hnow
  simp only [cmHtbtMasterPk] at hloses ⊢
  grind

namespace Htbt

variable {g g' : Htbt} {env : RecvEnv} {m : HtbtLocalInfo}

structure Stable (g : Htbt) : Prop where
  state : g.localInfo.state = .stable
  recvFunc : g.recvFunc = .stable
  checkFunc : g.checkFunc = .stable

structure Own (g : Htbt) : Prop where
  stable : g.Stable
  master : g.localInfo.subMasterId = g.localInfo.id
  pmaster : g.pmaster = some .localInfo

/- The election is as before: only the node table, the records and the counters may differ. -/
structure Steady (g g' : Htbt) : Prop where
  localInfo : g'.localInfo = g.localInfo
  recvFunc : g'.recvFunc = g.recvFunc
  checkFunc : g'.checkFunc = g.checkFunc
  pmaster : g'.pmaster = g.pmaster

theorem Steady.trans {g'' : Htbt} (h : g.Steady g') (h' : g'.Steady g'') : g.Steady g'' :=
  ⟨h'.localInfo.trans h.localInfo, h'.recvFunc.trans h.recvFunc,
    h'.checkFunc.trans h.checkFunc, h'.pmaster.trans h.pmaster⟩

theorem Steady.stable (h : g.Steady g') (hs : g.Stable) : g'.Stable :=
  ⟨by rw [h.localInfo, hs.state], by rw [h.recvFunc, hs.recvFunc],
    by rw [h.checkFunc, hs.checkFunc]⟩

theorem Steady.own (h : g.Steady g') (ho : g.Own) : g'.Own :=
  ⟨h.stable ho.stable, by rw [h.localInfo, ho.master], by rw [h.pmaster, ho.pmaster]⟩

theorem localCheck_steady (i : Nat) :
    (g.localCheck i).localInfo.state = .select ∨ g.Steady (g.localCheck i) := by
  unfold localCheck
  dsimp only
  split
  · exact .inr ⟨rfl, rfl, rfl, rfl⟩
  · split
    · exact .inl rfl
    · split <;> exact .inr ⟨rfl, rfl, rfl, rfl⟩

/- A node that is in STABLE after the loop was so in every turn of it. -/
theorem localSend_stable (h : g.localSend.1.localInfo.state = .stable) :
    g.Steady g.localSend.1 ∧ ∀ m ∈ g.localSend.2, m.2 = g.localInfo := by
  have hloop : g.localSend.1.localInfo.state ≠ .stable ∨
      (g.Steady g.localSend.1 ∧ ∀ m ∈ g.localSend.2, m.2 = g.localInfo) := by
    unfold localSend
    refine forRange_invariant
      (fun _ (st : Htbt × List (Nat × HtbtLocalInfo)) => st.1.localInfo.state ≠ .stable ∨
        (g.Steady st.1 ∧ ∀ m ∈ st.2, m.2 = g.localInfo))
      (Nat.zero_le _) (.inr ⟨⟨rfl, rfl, rfl, rfl⟩, by simp⟩) ?_
    intro i st _ _ hst
    unfold sendTo
    dsimp only
    split
    · exact hst
    · cases localCheck_steady i with
      | inl hselect => exact .inl (by rw [hselect]; decide)
      | inr hsteady =>
        exact hst.imp (hsteady.localInfo ▸ id) fun hst => ⟨hst.1.trans hsteady,
          List.forall_mem_append.mpr
            ⟨hst.2, List.forall_mem_singleton.mpr hst.1.localInfo⟩⟩
  exact hloop.resolve_left (not_not_intro h)

/- A round in STABLE: the master grows older, another node has no duration. -/
structure Aged (g g' : Htbt) : Prop where
  localInfo : g'.localInfo = { g.localInfo with
    duration := if g.localInfo.id = g.localInfo.subMasterId then inc32 g.localInfo.duration else 0 }
  recvFunc : g'.recvFunc = g.recvFunc
  checkFunc : g'.checkFunc = g.checkFunc
  pmaster : g'.pmaster = g.pmaster

theorem checkStable_aged : g.checkStable.localInfo.state = .lonely ∨ g.Aged g.checkStable := by
  unfold checkStable
  dsimp only
  split
  · exact .inl rfl
  · split
    · rename_i hself
      exact .inr ⟨by rw [if_pos hself], rfl, rfl, rfl⟩
    · rename_i hother
      exact .inr ⟨by rw [if_neg hother], rfl, rfl, rfl⟩

theorem tick_stable (hs : g.Stable) (h : g.tick.1.localInfo.state = .stable) :
    g.Aged g.tick.1 ∧ ∀ m ∈ g.tick.2, m.2 = g.tick.1.localInfo := by
  have hcheck : g.check = g.checkStable := by
    unfold check
    rw [hs.checkFunc]
  unfold tick at h ⊢
  rw [hcheck] at h ⊢
  obtain ⟨hsteady, hsent⟩ := localSend_stable h
  cases checkStable_aged with
  | inl hlonely =>
    rw [hsteady.localInfo, hlonely] at h
    cases h
  | inr haged =>
    refine ⟨⟨hsteady.localInfo.trans haged.localInfo, hsteady.recvFunc.trans haged.recvFunc,
      hsteady.checkFunc.trans haged.checkFunc, hsteady.pmaster.trans haged.pmaster⟩, ?_⟩
    intro m hm
    rw [hsent m hm, hsteady.localInfo]

/- The node has accepted the sender as its master. -/
structure StepsDown (g : Htbt) (m : HtbtLocalInfo) (g' : Htbt) : Prop where
  claims : m.Claims
  wins : cmHtbtMasterPk g.localInfo m = true
  stable : g'.Stable
  localInfo : g'.localInfo = { g.localInfo with subMasterId := m.id }

theorem recv_of_stable (hs : g.Stable) (m : HtbtLocalInfo) : g.recv m = g.recvStable m := by
  unfold recv
  rw [hs.recvFunc]

theorem Steady.addNewnodeToList (h : g.Steady g') (env : RecvEnv) (id : Nat) :
    g.Steady (g'.addNewnodeToList env id) := by
  unfold Htbt.addNewnodeToList
  split
  · exact h.trans ⟨rfl, rfl, rfl, rfl⟩
  · exact h

/- A heartbeat as `recv_func` sees it, if it is called at all. -/
theorem recvLocal_steady (hs : g.Stable) (h : g.recvLocal env m = some g') :
    g.Steady g' ∨ ∃ g₁, g.Steady g₁ ∧ g₁.recvStable m = some g' := by
  have harrives := g.recvLocal_arrives env m
  generalize g.recvLocal env m = out at harrives h
  cases harrives with
  | ignored =>
    cases h
    exact .inl ⟨rfl, rfl, rfl, rfl⟩
  | entered =>
    cases h
    unfold addNewnode
    split
    · exact .inl ⟨rfl, rfl, rfl, rfl⟩
    · refine .inl (Steady.addNewnodeToList ?_ env _)
      exact ⟨rfl, rfl, rfl, rfl⟩
  | listed =>
    cases h
    refine .inl (Steady.addNewnodeToList ?_ env _)
    exact ⟨rfl, rfl, rfl, rfl⟩
  | handed =>
    refine .inr ⟨_, ?_, (recv_of_stable ?_ m).symm.trans h⟩
    exacts [⟨rfl, rfl, rfl, rfl⟩, { hs with }]

theorem recvStable_own (ho : g.Own) (hne : m.id ≠ g.localInfo.id)
    (h : g.recvStable m = some g') : g.Steady g' ∨ g.StepsDown m g' := by
  unfold recvStable at h
  rw [if_neg (by rw [ho.master]; exact hne.symm)] at h
  split at h
  · cases h
    exact .inl ⟨rfl, rfl, rfl, rfl⟩
  · rename_i hclaims
    unfold masterPk at h
    rw [ho.pmaster] at h
    simp only [Option.map_some, Option.some.injEq] at h
    split at h
    · rename_i hwins
      subst h
      refine .inr ⟨?_, hwins, { ho.stable with }, rfl⟩
      exact ⟨Decidable.of_not_not fun hst => hclaims (.inl hst),
        Decidable.of_not_not fun hid => hclaims (.inr hid)⟩
    · subst h
      exact .inl ⟨rfl, rfl, rfl, ho.pmaster.symm⟩

theorem recvStable_follower (hm : g.localInfo.subMasterId = m.id)
    (h : g.recvStable m = some g') (hst : g'.localInfo.state = .stable) : g.Steady g' := by
  unfold recvStable at h
  rw [if_pos hm] at h
  split at h
  · cases h
    cases hst
  · split at h <;> cases h
    · exact ⟨rfl, rfl, rfl, rfl⟩
    · cases hst

theorem recvLocal_own (ho : g.Own) (hne : m.id ≠ g.localInfo.id)
    (h : g.recvLocal env m = some g') : g.Steady g' ∨ g.StepsDown m g' := by
  cases recvLocal_steady ho.stable h with
  | inl hsteady => exact .inl hsteady
  | inr hrecv =>
    obtain ⟨g₁, hsteady, hrecv⟩ := hrecv
    cases recvStable_own (hsteady.own ho) (by rw [hsteady.localInfo]; exact hne) hrecv with
    | inl hkept => exact .inl (hsteady.trans hkept)
    | inr hdown =>
      exact .inr ⟨hdown.claims, hsteady.localInfo ▸ hdown.wins, hdown.stable,
        hsteady.localInfo ▸ hdown.localInfo⟩

theorem recvLocal_follower (hs : g.Stable)
    (hm : g.localInfo.subMasterId = m.id) (h : g.recvLocal env m = some g')
    (hst : g'.localInfo.state = .stable) : g.Steady g' := by
  cases recvLocal_steady hs h with
  | inl hsteady => exact hsteady
  | inr hrecv =>
    obtain ⟨g₁, hsteady, hrecv⟩ := hrecv
    exact hsteady.trans (recvStable_follower (by rw [hsteady.localInfo]; exact hm) hrecv hst)

end Htbt

/- `sent x` are all heartbeats that node `x` has sent to the other one so far. -/
structure Masters where
  node : Bool → Htbt
  sent : Bool → List HtbtLocalInfo

/- A round of node `x`, or the arrival at node `x` of any heartbeat ever sent to it. -/
inductive MastersAction where
  | tick (x : Bool)
  | deliver (x : Bool) (env : Htbt.RecvEnv) (k : Nat)

namespace Masters

variable {s s' : Masters} {x : Bool}

/- The heartbeats of a round that go to the other node. -/
def posted (s : Masters) (x : Bool) : List HtbtLocalInfo :=
  ((s.node x).tick.2.filter fun m => m.1 == (s.node !x).localInfo.id).map fun m => m.2

def step (s : Masters) : MastersAction → Option Masters
  | .tick x => some
    { node := Function.update s.node x (s.node x).tick.1
      sent := Function.update s.sent x (s.sent x ++ s.posted x) }
  | .deliver x env k =>
    match (s.sent !x)[k]? with
    | none => none
    | some m =>
      ((s.node x).recvLocal env m).map fun g => { s with node := Function.update s.node x g }

/- Neither node leaves STABLE, and the duration stays below 2^32. -/
def StayStable (s : Masters) (a : MastersAction) : Prop :=
  (∀ s' ∈ s.step a, ∀ x, (s'.node x).localInfo.state = .stable) ∧
    ∀ x, (s.node x).localInfo.duration + 1 < 2 ^ 32

instance (s : Masters) (a : MastersAction) : Decidable (s.StayStable a) :=
  inferInstanceAs (Decidable (_ ∧ _))

/- Node `x` is the master of both, and no old heartbeat of the other node can change that. -/
structure Rules (s : Masters) (x : Bool) : Prop where
  own : (s.node x).Own
  follower : (s.node !x).localInfo.subMasterId = (s.node x).localInfo.id
  loses : ∀ m ∈ s.sent !x, m.Claims → cmHtbtMasterPk (s.node x).localInfo m = false

/- Both are masters, and what they have said of themselves is no more than they are. -/
def Rivals (s : Masters) : Prop :=
  ∀ x, (s.node x).Own ∧ ∀ m ∈ s.sent x, m.Claims → m.NoMore (s.node x).localInfo

structure Inv (s : Masters) : Prop where
  stable : ∀ x, (s.node x).Stable
  ids : ∀ x, (s.node x).localInfo.id ≠ (s.node !x).localInfo.id
  said : ∀ x, ∀ m ∈ s.sent x, m.id = (s.node x).localInfo.id
  masters : s.Rivals ∨ ∃ x, s.Rules x

/- One node changes, and what it has sent. -/
structure Changes (s : Masters) (x : Bool) (s' : Masters) : Prop where
  node : s'.node (!x) = s.node (!x)
  sent : s'.sent (!x) = s.sent (!x)
  id : (s'.node x).localInfo.id = (s.node x).localInfo.id
  stable : (s'.node x).Stable
  said : ∀ m ∈ s'.sent x, m.id = (s.node x).localInfo.id

theorem not_ne (x : Bool) : (!x) ≠ x := by
  cases x <;> decide

theorem forall_node {P : Bool → Prop} (x : Bool) (hx : P x) (hother : P !x) : ∀ y, P y := by
  intro y
  cases x <;> cases y <;> assumption

theorem Inv.changes (h : s.Inv) (hc : s.Changes x s') (hm : s'.Rivals ∨ ∃ y, s'.Rules y) :
    s'.Inv where
  stable := forall_node x hc.stable (by rw [hc.node]; exact h.stable !x)
  ids := by
    refine forall_node x ?_ ?_
    · rw [hc.id, hc.node]
      exact h.ids x
    · rw [Bool.not_not, hc.id, hc.node]
      exact (h.ids x).symm
  said := by
    refine forall_node x ?_ ?_
    · rw [hc.id]
      exact hc.said
    · rw [hc.node, hc.sent]
      exact h.said !x
  masters := hm

theorem Inv.rules (h : s.Inv) (x : Bool) : s.Rivals ∨ s.Rules x ∨ s.Rules !x := by
  refine h.masters.imp_right fun ⟨y, hy⟩ => ?_
  cases x <;> cases y <;> simp [hy]

/- The rule of the other node, as this one sees it. -/
theorem Rules.other (h : s.Rules !x) :
    (s.node x).localInfo.subMasterId = (s.node !x).localInfo.id ∧
      ∀ m ∈ s.sent x, m.Claims → cmHtbtMasterPk (s.node !x).localInfo m = false :=
  ⟨by simpa using h.follower, by simpa using h.loses⟩

theorem Rivals.changes (h : s.Rivals) (hc : s.Changes x s') (hown : (s'.node x).Own)
    (hsaid : ∀ m ∈ s'.sent x, m.Claims → m.NoMore (s'.node x).localInfo) : s'.Rivals := by
  refine forall_node x ⟨hown, hsaid⟩ ?_
  rw [hc.node, hc.sent]
  exact h !x

/- The master itself changes, and is not less than before. -/
theorem Rules.changes_master (h : s.Rules x) (hc : s.Changes x s') (hown : (s'.node x).Own)
    (hgrow : (s.node x).localInfo.NoMore (s'.node x).localInfo) : s'.Rules x where
  own := hown
  follower := by
    rw [hc.node, hc.id]
    exact h.follower
  loses := by
    rw [hc.sent]
    exact fun m hm hclaims => masterPk_grow (h.loses m hm hclaims) hgrow

/- The other node changes, and makes no new claim. -/
theorem Rules.changes_other (h : s.Rules !x) (hc : s.Changes x s')
    (hmaster : (s'.node x).localInfo.subMasterId = (s.node x).localInfo.subMasterId)
    (hsent : ∀ m ∈ s'.sent x, m.Claims → m ∈ s.sent x) : s'.Rules !x where
  own := by
    rw [hc.node]
    exact h.own
  follower := by
    rw [Bool.not_not, hmaster, hc.node]
    exact h.other.1
  loses := by
    rw [Bool.not_not, hc.node]
    exact fun m hm hclaims => h.other.2 m (hsent m hm hclaims) hclaims

section

variable (h : s.Inv)
include h

theorem Inv.tick (hdur : (s.node x).localInfo.duration + 1 < 2 ^ 32)
    (hstep : s.step (.tick x) = some s')
    (hst : (s'.node x).localInfo.state = .stable) : s'.Inv := by
  simp only [step, Option.some.injEq] at hstep
  have hnode : s'.node x = (s.node x).tick.1 := by
    rw [← hstep]
    exact Function.update_self ..
  have hsent : s'.sent x = s.sent x ++ s.posted x := by
    rw [← hstep]
    exact Function.update_self ..
  rw [hnode] at hst
  obtain ⟨haged, hposted⟩ := Htbt.tick_stable (h.stable x) hst
  have hnew : ∀ m ∈ s.posted x, m = (s'.node x).localInfo := by
    intro m hm
    obtain ⟨p, hp, rfl⟩ := List.mem_map.mp hm
    rw [hnode]
    exact hposted p (List.mem_filter.mp hp).1
  have hid : (s'.node x).localInfo.id = (s.node x).localInfo.id := by
    rw [hnode, haged.localInfo]
  have hmaster : (s'.node x).localInfo.subMasterId = (s.node x).localInfo.subMasterId := by
    rw [hnode, haged.localInfo]
  have hstable : (s'.node x).Stable := by
    rw [hnode]
    exact ⟨hst, haged.recvFunc.trans (h.stable x).recvFunc,
      haged.checkFunc.trans (h.stable x).checkFunc⟩
  have hc : s.Changes x s' := by
    refine ⟨?_, ?_, hid, hstable, ?_⟩
    · rw [← hstep]
      exact Function.update_of_ne (not_ne x) ..
    · rw [← hstep]
      exact Function.update_of_ne (not_ne x) ..
    · rw [hsent]
      exact List.forall_mem_append.mpr ⟨h.said x, fun m hm => by rw [hnew m hm, hid]⟩
  have hgrow : (s.node x).Own →
      (s'.node x).Own ∧ (s.node x).localInfo.NoMore (s'.node x).localInfo := by
    intro hown
    refine ⟨⟨hstable, by rw [hmaster, hid, hown.master], ?_⟩, ?_⟩
    · rw [hnode, haged.pmaster, hown.pmaster]
    · rw [hnode, haged.localInfo, if_pos hown.master.symm]
      refine ⟨rfl, rfl, rfl, ?_⟩
      simp only [inc32]
      omega
  refine h.changes hc ?_
  rcases h.rules x with hrivals | hrules | hrules
  · obtain ⟨hown, hmore⟩ := hgrow (hrivals x).1
    refine .inl (hrivals.changes hc hown ?_)
    rw [hsent]
    refine List.forall_mem_append.mpr ⟨fun m hold hclaims => ?_, fun m hm _ => ?_⟩
    · have hsaid := (hrivals x).2 m hold hclaims
      exact ⟨hsaid.id.trans hmore.id, hsaid.healthIndex.trans hmore.healthIndex,
        hsaid.upTime.trans hmore.upTime, Nat.le_trans hsaid.duration hmore.duration⟩
    · rw [hnew m hm]
      exact ⟨rfl, rfl, rfl, Nat.le_refl _⟩
  · obtain ⟨hown, hmore⟩ := hgrow hrules.own
    exact .inr ⟨x, hrules.changes_master hc hown hmore⟩
  · refine .inr ⟨!x, hrules.changes_other hc hmaster ?_⟩
    rw [hsent]
    refine List.forall_mem_append.mpr ⟨fun m hold _ => hold, fun m hm hclaims => ?_⟩
    -- the heartbeat names the other node as master
    have hself := hclaims.2
    rw [hnew m hm, hid, hmaster, hrules.other.1] at hself
    exact absurd hself (h.ids x)

/- The election of node `x` is as before. -/
theorem Inv.steady (hc : s.Changes x s') (hk : (s.node x).Steady (s'.node x))
    (hsent : s'.sent x = s.sent x) : s'.Inv := by
  refine h.changes hc ?_
  rcases h.rules x with hrivals | hrules | hrules
  · refine .inl (hrivals.changes hc (hk.own (hrivals x).1) ?_)
    rw [hsent, hk.localInfo]
    exact (hrivals x).2
  · refine .inr ⟨x, hrules.changes_master hc (hk.own hrules.own) ?_⟩
    rw [hk.localInfo]
    exact ⟨rfl, rfl, rfl, Nat.le_refl _⟩
  · exact .inr ⟨!x, hrules.changes_other hc (by rw [hk.localInfo]) fun m hm _ => hsent ▸ hm⟩

theorem Inv.outcome {env : Htbt.RecvEnv} {m : HtbtLocalInfo} {g : Htbt}
    (hmem : m ∈ s.sent !x) (hrecv : (s.node x).recvLocal env m = some g)
    (hst : g.localInfo.state = .stable) :
    (s.node x).Steady g ∨ (s.Rivals ∧ (s.node x).StepsDown m g) := by
  have hid := h.said (!x) m hmem
  have hne : m.id ≠ (s.node x).localInfo.id := by
    rw [hid]
    exact (h.ids x).symm
  rcases h.rules x with hrivals | hrules | hrules
  · exact (Htbt.recvLocal_own (hrivals x).1 hne hrecv).imp_right fun hdown => ⟨hrivals, hdown⟩
  · refine .inl ((Htbt.recvLocal_own hrules.own hne hrecv).resolve_right fun hdown => ?_)
    cases hdown.wins.symm.trans (hrules.loses m hmem hdown.claims)
  · exact .inl (Htbt.recvLocal_follower (h.stable x) (hrules.other.1.trans hid.symm) hrecv hst)

theorem Inv.deliver {env : Htbt.RecvEnv} {k : Nat}
    (hstep : s.step (.deliver x env k) = some s')
    (hst : (s'.node x).localInfo.state = .stable) : s'.Inv := by
  simp only [step] at hstep
  split at hstep
  · cases hstep
  · rename_i m hm
    obtain ⟨g, hrecv, hs'⟩ := Option.map_eq_some_iff.mp hstep
    have hmem : m ∈ s.sent !x := List.mem_of_getElem? hm
    have hnode : s'.node x = g := by
      rw [← hs']
      exact Function.update_self ..
    have hsent : s'.sent = s.sent := by rw [← hs']
    have hc : (s'.node x).localInfo.id = (s.node x).localInfo.id → (s'.node x).Stable →
        s.Changes x s' := by
      intro hid hstable
      refine ⟨?_, by rw [hsent], hid, hstable, ?_⟩
      · rw [← hs']
        exact Function.update_of_ne (not_ne x) ..
      · rw [hsent]
        exact h.said x
    rw [hnode] at hst hc
    cases h.outcome hmem hrecv hst with
    | inl hsteady =>
      refine h.steady (hc (by rw [hsteady.localInfo]) (hsteady.stable (h.stable x))) ?_ ?_
      · rw [hnode]
        exact hsteady
      · rw [hsent]
    | inr hdown =>
      obtain ⟨hrivals, hdown⟩ := hdown
      have hchanges := hc (by rw [hdown.localInfo]) hdown.stable
      refine h.changes hchanges (.inr ⟨!x, ?_, ?_, ?_⟩)
      · rw [hchanges.node]
        exact (hrivals !x).1
      · rw [Bool.not_not, hnode, hdown.localInfo, hchanges.node]
        exact h.said (!x) m hmem
      · intro m' hm' hclaims
        rw [Bool.not_not, hsent] at hm'
        rw [hchanges.node]
        apply masterPk_chain hdown.wins ((hrivals x).2 m' hm' hclaims)
          ((hrivals !x).2 m hmem hdown.claims)
        rw [h.said (!x) m hmem]
        exact h.ids x

theorem Inv.step {a : MastersAction} (hok : s.StayStable a)
    (hstep : s.step a = some s') : s'.Inv := by
  cases a with
  | tick x => exact h.tick (hok.2 x) hstep (hok.1 s' hstep x)
  | deliver x env k => exact h.deliver hstep (hok.1 s' hstep x)

theorem Inv.exists_own : ∃ x, (s.node x).Own :=
  h.masters.elim (fun hrivals => ⟨true, (hrivals true).1⟩) fun ⟨x, hrules⟩ => ⟨x, hrules.own⟩

end

end Masters

/-- Two masters never both step down: as long as both stay in STABLE, one of them is its own
master. Heartbeats may be on the way at the start; no claim in one is ahead of its
sender. -/
theorem masters_one_stays {s₀ s : Masters}
    (hids : (s₀.node true).localInfo.id ≠ (s₀.node false).localInfo.id)
    (hown : ∀ x, (s₀.node x).Own)
    (hsent : ∀ x, ∀ m ∈ s₀.sent x, m.id = (s₀.node x).localInfo.id ∧
      (m.Claims → m.NoMore (s₀.node x).localInfo))
    (h : Reach Masters.step Masters.StayStable s₀ s) :
    ∃ x, (s.node x).localInfo.state = .stable ∧
      (s.node x).localInfo.subMasterId = (s.node x).localInfo.id := by
  have hstart : s₀.Inv := ⟨fun x => (hown x).stable, Masters.forall_node true hids hids.symm,
    fun x m hm => (hsent x m hm).1, .inl fun x => ⟨hown x, fun m hm => (hsent x m hm).2⟩⟩
  have hinv := Reach.invariant hstart (fun _ _ _ hs hok hstep => hs.step hok hstep) h
  obtain ⟨x, hx⟩ := hinv.exists_own
  exact ⟨x, hx.stable.state, hx.master⟩

namespace Masters

/- A master with a record of the one other node. -/
def ruling (id other duration : Nat) : Htbt where
  localInfo := ⟨id, 7, id, .stable, 40, 100, duration⟩
  subdomain := HtbtSubDomain.initNodes id [id, other] { HtbtSubDomain.zero with id := 7 }
  pnodeList := fun nid => if nid = other then some 0 else none
  records := fun _ => ⟨other, 7, other, .stable, 40, 100, 0⟩
  nextRecord := 1
  pmaster := some .localInfo
  recvFunc := .stable
  checkFunc := .stable
  lostCnt := 0
  checkCnt := 0

theorem ruling_own (id other duration : Nat) : (ruling id other duration).Own :=
  ⟨⟨rfl, rfl, rfl⟩, rfl, rfl⟩

/- Node 1 is a master for longer than node 2. -/
def rivals : Masters :=
  ⟨fun x => if x then ruling 1 2 6 else ruling 2 1 3, fun _ => []⟩

/- Node 2 is a master for longer, and a heartbeat from an earlier mastership of node 1 is still on
its way: `cm_htbt_state_enter_lonely` has since set the duration of node 1 to 0. -/
def returned : Masters :=
  ⟨fun x => if x then ruling 1 2 2 else ruling 2 1 50,
    fun x => if x then [(ruling 1 2 100).localInfo] else []⟩

end Masters

/-- Two masters that both step down: node 2 for the old heartbeat of node 1, node 1 for the new
one of node 2. -/
theorem masters_both_step_down :
    (∀ x, (Masters.returned.node x).Own) ∧
    (∀ x, ∀ m ∈ Masters.returned.sent x, m.id = (Masters.returned.node x).localInfo.id) ∧
    ∃ s, Reach Masters.step Masters.StayStable Masters.returned s ∧
      ∀ x, (s.node x).localInfo.state = .stable ∧
        (s.node x).localInfo.subMasterId ≠ (s.node x).localInfo.id := by
  refine ⟨?_, by decide, ?_⟩
  · exact Masters.forall_node true (Masters.ruling_own 1 2 2) (Masters.ruling_own 2 1 50)
  · exact exists_reach Masters.step Masters.StayStable Masters.returned
      [.tick false, .deliver false ⟨true, true, (Masters.ruling 1 2 2).localInfo⟩ 0,
        .deliver true ⟨true, true, (Masters.ruling 2 1 50).localInfo⟩ 0]
      (fun s => ∀ x, (s.node x).localInfo.state = .stable ∧
        (s.node x).localInfo.subMasterId ≠ (s.node x).localInfo.id) (by decide +kernel)

/-- Both nodes have a round and hear of each other, node 2 first. -/
theorem masters_one_stays_of_two :
    ∃ s, Reach Masters.step Masters.StayStable Masters.rivals s ∧
      (s.node false).localInfo.subMasterId = 1 ∧
      ∃ x, (s.node x).localInfo.state = .stable ∧
        (s.node x).localInfo.subMasterId = (s.node x).localInfo.id := by
  obtain ⟨s, hs, hdown⟩ := exists_reach Masters.step Masters.StayStable Masters.rivals
    [.tick false, .tick true, .deliver false ⟨true, true, (Masters.ruling 1 2 6).localInfo⟩ 0,
      .deliver true ⟨true, true, (Masters.ruling 2 1 3).localInfo⟩ 0]
    (fun s => (s.node false).localInfo.subMasterId = 1) (by decide +kernel)
  refine ⟨s, hs, hdown, masters_one_stays (by decide) ?_ ?_ hs⟩
  · exact Masters.forall_node true (Masters.ruling_own 1 2 6) (Masters.ruling_own 2 1 3)
  · intro x m hm
    cases hm

end ClusterZfs

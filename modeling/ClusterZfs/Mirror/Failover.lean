import ClusterZfs.Mirror.Restore

/-! Failover: when the replay leaves every byte with the last value written to it. -/
namespace ClusterZfs

section Steps

variable {blksz : Nat → Nat} {firstTxg : Nat} {os : ReplayOs} {d : MirrorData}

/- What txgs that open and sync leave alone: they change the birth of dirty blocks only. -/
structure OnlyTxgs (os os' : ReplayOs) : Prop where
  bytes : os'.bytes = os.bytes
  dirty : os'.dirty = os.dirty
  birth : ∀ blk, (∀ t, os.dirty t blk = false) → os'.birth blk = os.birth blk

theorem OnlyTxgs.trans {os' os'' : ReplayOs} (h : OnlyTxgs os os') (h' : OnlyTxgs os' os'') :
    OnlyTxgs os os'' where
  bytes := h'.bytes.trans h.bytes
  dirty := h'.dirty.trans h.dirty
  birth := fun blk hclean => (h'.birth blk (by rwa [h.dirty])).trans (h.birth blk hclean)

theorem txgStep_only (os : ReplayOs) (a : TxgAction) : OnlyTxgs os (os.txgStep a) := by
  cases a with
  | openNext => exact ⟨rfl, rfl, fun _ _ => rfl⟩
  | syncNext =>
    dsimp only [ReplayOs.txgStep]
    split
    · exact ⟨rfl, rfl, fun blk hclean => by simp [hclean]⟩
    · exact ⟨rfl, rfl, fun _ _ => rfl⟩

theorem txgSteps_only (os : ReplayOs) (as : List TxgAction) : OnlyTxgs os (os.txgSteps as) := by
  induction as generalizing os with
  | nil => exact ⟨rfl, rfl, fun _ _ => rfl⟩
  | cons a as ih => exact (txgStep_only os a).trans (ih (os.txgStep a))

theorem overlay_nil (h : d.data = []) (k : Nat × Nat) : d.overlay k = none := by
  simp [MirrorData.overlay, h]

theorem dataNewer_unsynced {hold : Option (Option Nat)} {dataTxg : Nat}
    (h : firstTxg ≤ dataTxg) : dmuDataNewer hold firstTxg dataTxg = true := by
  unfold dmuDataNewer
  split
  · rfl
  · rfl
  · split
    · exact decide_eq_true (by omega)
    · rfl

theorem zvolReplayRawdata_bytes :
    (zvolReplayRawdata blksz os d false).bytes = d.overlay.apply os.bytes := by
  unfold zvolReplayRawdata
  split
  · next h =>
    funext k
    exact (Overlay.apply_of_none (overlay_nil (by simpa using h) k)).symm
  · rfl

theorem zvolReplayRawdata_dirty {blk : Nat × Nat} (hne : blk ≠ d.block blksz) (t : Nat)
    (assignError : Bool) :
    (zvolReplayRawdata blksz os d assignError).dirty t blk = os.dirty t blk := by
  unfold zvolReplayRawdata
  split
  · rfl
  · simp [hne]

theorem zvolReplayRawdata_birth (assignError : Bool) :
    (zvolReplayRawdata blksz os d assignError).birth = os.birth := by
  unfold zvolReplayRawdata
  split <;> rfl

/- Neither `dmu_buf_hold` nor `dmu_tx_assign` fails. -/
def FaultFree (turns : Nat → Turn) : Prop :=
  ∀ k, (turns k).holdError = false ∧ (turns k).assignError = false

theorem replayCacheData_eq {turn : Turn} (hhold : turn.holdError = false)
    (hassign : turn.assignError = false) (os : ReplayOs) :
    ∃ held os', OnlyTxgs os held ∧ OnlyTxgs os os' ∧
      zfsReplayCacheData blksz firstTxg turn os d =
        if dmuDataNewer (some (held.birth (d.block blksz))) firstTxg d.txg
        then zvolReplayRawdata blksz os' d false else os' := by
  have hheld := txgSteps_only os turn.before
  refine ⟨_, _, hheld, hheld.trans (txgSteps_only _ turn.between), ?_⟩
  simp only [zfsReplayCacheData, hhold, hassign]
  rfl

theorem replayCacheData_unsynced {turn : Turn} (hhold : turn.holdError = false)
    (hassign : turn.assignError = false) (h : firstTxg ≤ d.txg) :
    (zfsReplayCacheData blksz firstTxg turn os d).bytes = d.overlay.apply os.bytes := by
  obtain ⟨held, os', -, honly, heq⟩ := replayCacheData_eq hhold hassign os
  rw [heq, dataNewer_unsynced h, if_pos rfl, zvolReplayRawdata_bytes, honly.bytes]

theorem replayAllData_unsynced {list : List MirrorData} (h : ∀ d ∈ list, firstTxg ≤ d.txg)
    {turns : Nat → Turn} (hfree : FaultFree turns) (os : ReplayOs) :
    (zilReplayAllData blksz firstTxg turns list os).bytes =
      Overlay.applyAll (list.map MirrorData.overlay) os.bytes := by
  induction list generalizing turns os with
  | nil => rfl
  | cons d rest ih =>
    rw [zilReplayAllData, ih (fun e he => h e (List.mem_cons_of_mem d he)) fun k => hfree (k + 1),
      replayCacheData_unsynced (hfree 0).1 (hfree 0).2 (h d List.mem_cons_self)]
    rfl

theorem replayAllData_append (list list' : List MirrorData) (turns : Nat → Turn) (os : ReplayOs) :
    zilReplayAllData blksz firstTxg turns (list ++ list') os =
      zilReplayAllData blksz firstTxg (fun k => turns (k + list.length)) list'
        (zilReplayAllData blksz firstTxg turns list os) := by
  induction list generalizing turns os with
  | nil => rfl
  | cons d rest ih =>
    rw [List.cons_append, zilReplayAllData, ih, zilReplayAllData]
    simp [Nat.add_assoc]

end Steps

namespace FailedOwner

variable {o : FailedOwner} (c : o.Caches)

/- Every unaligned write that is still cached and belongs to the txg in which its block was last
synced holds the last value of each of its bytes, unless an unsynced write covers the byte. -/
def CachedCurrent : Prop :=
  ∀ d ∈ c.unalignedListTime.flatten, d.txg < o.firstTxg →
    o.diskBirth (d.block o.blksz) = some d.txg → ∀ k v, d.overlay k = some v →
      (∀ w ∈ o.unsynced, w.overlay k = none) → v = o.lastContents k

section Birth

theorem lastContents_uncovered {k : Nat × Nat} (h : ∀ w ∈ o.unsynced, w.overlay k = none) :
    o.lastContents k = o.diskContents k := by
  rw [lastContents_eq]
  refine Overlay.applyAll_of_none ?_ _
  intro w hw
  obtain ⟨d, hd, rfl⟩ := List.mem_map.mp hw
  exact h d hd

/-- The birth of a block is the txg of a synced write, and no synced write of the block is
younger. -/
theorem diskBirth_of_synced {d : MirrorData} (hd : d ∈ o.synced) :
    ∃ t, o.diskBirth (d.block o.blksz) = some t ∧ d.txg ≤ t ∧ t < o.firstTxg := by
  have hmem : d ∈ o.synced.filter fun w => w.block o.blksz = d.block o.blksz :=
    List.mem_filter.mpr ⟨hd, by simp⟩
  obtain ⟨l, hl⟩ := Option.isSome_iff_exists.mp
    (List.getLast?_isSome.mpr (List.ne_nil_of_mem hmem))
  refine ⟨l.txg, by simp [diskBirth, hl], ?_, ?_⟩
  · obtain ⟨init, heq⟩ := List.getLast?_eq_some_iff.mp hl
    have hpair : (init ++ [l]).Pairwise fun a b => a.txg ≤ b.txg ∧ a.txTime < b.txTime :=
      heq ▸ (o.ordered.filter _).filter _
    rw [heq] at hmem
    rcases List.mem_append.mp hmem with hinit | hlast
    · exact ((List.pairwise_append.mp hpair).2.2 d hinit l List.mem_cons_self).1
    · rw [List.mem_singleton.mp hlast]
  · have hsynced := (List.mem_filter.mp (List.mem_of_getLast? hl)).1
    exact of_decide_eq_true (List.mem_filter.mp hsynced).2

end Birth

section Sufficient

variable {os : ReplayOs}

variable {c}

/- The state while the stale records are replayed: the bytes that no unsynced write covers are as
on disk, and a block that was written again has no older records left. -/
structure StalePhase (o : FailedOwner) (rest : List MirrorData) (os : ReplayOs) : Prop where
  bytes : ∀ k, (∀ w ∈ o.unsynced, w.overlay k = none) → os.bytes k = o.diskContents k
  births : ∀ blk, (os.birth blk = o.diskBirth blk ∧ ∀ t, os.dirty t blk = false) ∨
    ∀ d ∈ rest, ∀ t, o.diskBirth blk = some t → t ≤ d.txg

theorem StalePhase.birth_of_newer {d : MirrorData} {rest : List MirrorData} {held : ReplayOs}
    (h : StalePhase o (d :: rest) os) (hd : d ∈ o.synced) (hheld : OnlyTxgs os held)
    (hnewer : dmuDataNewer (some (held.birth (d.block o.blksz))) o.firstTxg d.txg = true) :
    o.diskBirth (d.block o.blksz) = some d.txg := by
  obtain ⟨t, hbirth, hle, hlt⟩ := diskBirth_of_synced hd
  suffices hge : t ≤ d.txg by rw [hbirth, Nat.le_antisymm hge hle]
  rcases h.births (d.block o.blksz) with ⟨hsame, hclean⟩ | hlate
  · rw [hheld.birth _ hclean, hsame, hbirth] at hnewer
    by_contra hlt'
    simp only [dmuDataNewer, Nat.not_le.mp hlt', if_true, decide_eq_true_eq] at hnewer
    omega
  · exact hlate d List.mem_cons_self t hbirth

theorem StalePhase.step {d : MirrorData} {rest : List MirrorData}
    (hcur : CachedCurrent c) (hd : d ∈ stale c) (hlater : ∀ e ∈ rest, d.txg ≤ e.txg)
    {turn : Turn} (hhold : turn.holdError = false) (hassign : turn.assignError = false)
    (h : StalePhase o (d :: rest) os) :
    StalePhase o rest (zfsReplayCacheData o.blksz o.firstTxg turn os d) := by
  obtain ⟨held, os', hheld, honly, heq⟩ := replayCacheData_eq hhold hassign os
  have htail : ∀ blk, (os'.birth blk = o.diskBirth blk ∧ ∀ t, os'.dirty t blk = false) ∨
      ∀ e ∈ rest, ∀ t, o.diskBirth blk = some t → t ≤ e.txg := by
    intro blk
    rcases h.births blk with ⟨hsame, hclean⟩ | hlate
    · exact .inl ⟨(honly.birth blk hclean).trans hsame, by rwa [honly.dirty]⟩
    · exact .inr fun e he => hlate e (List.mem_cons_of_mem d he)
  rw [heq]
  split
  · next hnewer =>
    have hsynced := (List.mem_filter.mp hd).1
    have hbirth := h.birth_of_newer hsynced hheld hnewer
    refine ⟨fun k hk => ?_, fun blk => ?_⟩
    · rw [zvolReplayRawdata_bytes, honly.bytes]
      cases hv : d.overlay k with
      | none => rw [Overlay.apply_of_none hv, h.bytes k hk]
      | some v =>
        obtain ⟨htxg, hun⟩ := (mem_stale c).mp hd
        rw [Overlay.apply_of_some hv, hcur d hun htxg hbirth k v hv hk, lastContents_uncovered hk]
    · by_cases hblk : blk = d.block o.blksz
      · right
        intro e he t ht
        rw [hblk, hbirth] at ht
        cases ht
        exact hlater e he
      · refine (htail blk).imp_left fun hsame => ⟨?_, fun t => ?_⟩
        · rw [zvolReplayRawdata_birth]
          exact hsame.1
        · rw [zvolReplayRawdata_dirty hblk]
          exact hsame.2 t
  · exact ⟨fun k hk => by rw [honly.bytes, h.bytes k hk], htail⟩

theorem StalePhase.run (hcur : CachedCurrent c) {list : List MirrorData}
    (hstale : ∀ d ∈ list, d ∈ stale c) (hsorted : list.Pairwise fun a b => a.txg ≤ b.txg)
    {turns : Nat → Turn} (hfree : FaultFree turns) (h : StalePhase o list os) :
    StalePhase o [] (zilReplayAllData o.blksz o.firstTxg turns list os) := by
  induction list generalizing turns os with
  | nil => exact h
  | cons d rest ih =>
    obtain ⟨hhead, htail⟩ := List.pairwise_cons.mp hsorted
    rw [zilReplayAllData]
    exact ih (fun e he => hstale e (List.mem_cons_of_mem d he)) htail (fun k => hfree (k + 1))
      (h.step hcur (hstale d List.mem_cons_self) hhead (hfree 0).1 (hfree 0).2)

theorem stale_sorted : (stale c).Pairwise fun a b => a.txg ≤ b.txg :=
  ((o.ordered.imp And.left).filter _).filter _

/-- With current caches the replay restores the last contents, whatever syncs meanwhile. -/
theorem replayed_of_current (hcur : CachedCurrent c) {turns : Nat → Turn}
    (hfree : FaultFree turns) : (o.replayed c turns).bytes = o.lastContents := by
  have hstart : StalePhase o (stale c) o.imported :=
    ⟨fun _ _ => rfl, fun _ => .inl ⟨rfl, fun _ => rfl⟩⟩
  have hphase := hstart.run hcur (fun _ hd => hd) stale_sorted hfree
  have hnew : ∀ d ∈ o.unsynced, o.firstTxg ≤ d.txg := fun d hd =>
    Nat.not_lt.mp (of_decide_eq_true (List.mem_filter.mp hd).2)
  rw [replayed, getAllBuf_eq, replayAllData_append,
    replayAllData_unsynced hnew fun k => hfree (k + (stale c).length), lastContents_eq]
  funext k
  by_cases hcovered : ∃ w ∈ o.unsynced.map MirrorData.overlay, w k ≠ none
  · exact Overlay.applyAll_of_covered hcovered _ _
  · refine Overlay.applyAll_congr _ (hphase.bytes k fun w hw => ?_)
    by_contra hne
    exact hcovered ⟨w.overlay, List.mem_map_of_mem hw, hne⟩

end Sufficient

section Necessary

variable {blksz : Nat → Nat} {firstTxg : Nat} (os : ReplayOs)

def idleTurn : Turn := ⟨[], false, [], false⟩

/- The open txg is closed and synced before the record with number `n`. -/
def syncBefore (n k : Nat) : Turn :=
  if k = n then ⟨[.openNext, .syncNext], false, [], false⟩ else idleTurn

theorem syncBefore_faultFree (n : Nat) : FaultFree (syncBefore n) := by
  intro k
  unfold syncBefore
  split <;> exact ⟨rfl, rfl⟩

theorem replayCacheData_idle (d : MirrorData) :
    zfsReplayCacheData blksz firstTxg idleTurn os d =
      if dmuDataNewer (some (os.birth (d.block blksz))) firstTxg d.txg
      then zvolReplayRawdata blksz os d false else os := rfl

theorem replayAllData_idle {list : List MirrorData} {turns : Nat → Turn}
    (hidle : ∀ k < list.length, turns k = idleTurn) (os : ReplayOs) :
    (zilReplayAllData blksz firstTxg turns list os).birth = os.birth ∧
      (zilReplayAllData blksz firstTxg turns list os).openTxg = os.openTxg ∧
      (zilReplayAllData blksz firstTxg turns list os).syncTxg = os.syncTxg := by
  induction list generalizing turns os with
  | nil => exact ⟨rfl, rfl, rfl⟩
  | cons d rest ih =>
    have hturns : ∀ k < rest.length, turns (k + 1) = idleTurn :=
      fun k hk => hidle (k + 1) (Nat.succ_lt_succ hk)
    obtain ⟨hbirth, hopen, hsync⟩ := ih hturns (zfsReplayCacheData blksz firstTxg (turns 0) os d)
    rw [zilReplayAllData, hbirth, hopen, hsync, hidle 0 (Nat.zero_lt_succ _), replayCacheData_idle]
    unfold zvolReplayRawdata
    split
    · split <;> exact ⟨rfl, rfl, rfl⟩
    · exact ⟨rfl, rfl, rfl⟩

/- A byte keeps its value when its block was just synced in the first txg: the older records of
the block are dropped and no other record covers the byte. -/
theorem replayAllData_kept {list : List MirrorData} {turns : Nat → Turn}
    (hidle : ∀ k, turns k = idleTurn) {os : ReplayOs} {blk k : Nat × Nat}
    (hbirth : os.birth blk = some firstTxg)
    (hlist : ∀ e ∈ list, e.overlay k = none ∨ (e.txg < firstTxg ∧ e.block blksz = blk)) :
    (zilReplayAllData blksz firstTxg turns list os).bytes k = os.bytes k := by
  induction list generalizing turns os with
  | nil => rfl
  | cons e rest ih =>
    rw [zilReplayAllData, hidle 0, replayCacheData_idle]
    have hrest := fun e' he' => hlist e' (List.mem_cons_of_mem e he')
    have hturns : ∀ k, turns (k + 1) = idleTurn := fun k => hidle (k + 1)
    rcases hlist e List.mem_cons_self with hnone | ⟨htxg, hblk⟩
    · split
      · rw [ih hturns (by rwa [zvolReplayRawdata_birth]) hrest, zvolReplayRawdata_bytes,
          Overlay.apply_of_none hnone]
      · exact ih hturns hbirth hrest
    · have hstale : dmuDataNewer (some (os.birth (e.block blksz))) firstTxg e.txg = false := by
        rw [hblk, hbirth]
        simp [dmuDataNewer, htxg]
      rw [hstale, if_neg Bool.false_ne_true]
      exact ih hturns hbirth hrest

theorem replayAllData_syncBefore (list : List MirrorData) (os : ReplayOs) :
    (zilReplayAllData blksz firstTxg (syncBefore 0) list os).bytes =
      (zilReplayAllData blksz firstTxg (fun _ => idleTurn) list
        (os.txgSteps [.openNext, .syncNext])).bytes := by
  cases list with
  | nil => exact (txgSteps_only os _).bytes.symm
  | cons e rest => rfl

theorem replayAllData_sync {pre post : List MirrorData} {d : MirrorData}
    {k : Nat × Nat} {v : BitVec 8} (hopen : os.openTxg = firstTxg) (hsync : os.syncTxg = firstTxg)
    (hbirth : os.birth (d.block blksz) = some d.txg) (hv : d.overlay k = some v)
    (hpost : ∀ e ∈ post, e.overlay k = none ∨
      (e.txg < firstTxg ∧ e.block blksz = d.block blksz)) :
    (zilReplayAllData blksz firstTxg (syncBefore (pre.length + 1)) (pre ++ d :: post) os).bytes k =
      v := by
  have hpre : ∀ j < pre.length, syncBefore (pre.length + 1) j = idleTurn :=
    fun j hj => if_neg (by omega)
  have hown : syncBefore (pre.length + 1) (0 + pre.length) = idleTurn := if_neg (by omega)
  have hrest : (fun j => syncBefore (pre.length + 1) (j + 1 + pre.length)) = syncBefore 0 := by
    funext j
    exact if_congr (by omega) rfl rfl
  have hdata : d.data ≠ [] := fun h => by simp [overlay_nil h k] at hv
  obtain ⟨hbirth', hopen', hsync'⟩ := replayAllData_idle hpre os
  rw [replayAllData_append, zilReplayAllData, hown, hrest, replayAllData_syncBefore]
  generalize zilReplayAllData blksz firstTxg _ pre os = mid at hbirth' hopen' hsync' ⊢
  have hnewer : dmuDataNewer (some (mid.birth (d.block blksz))) firstTxg d.txg = true := by
    rw [hbirth', hbirth]
    simp [dmuDataNewer]
  rw [replayCacheData_idle, hnewer, if_pos rfl, replayAllData_kept (fun _ => rfl) ?_ hpost,
    (txgSteps_only _ _).bytes, zvolReplayRawdata_bytes, Overlay.apply_of_some hv]
  simp [ReplayOs.txgSteps, ReplayOs.txgStep, zvolReplayRawdata, hdata, hopen', hsync', hopen, hsync]

end Necessary

/-- The replay restores the last value of every byte in every run without failures exactly when
the cached writes are current. -/
theorem replay_restores_iff (o : FailedOwner) (c : o.Caches) :
    (∀ turns, FaultFree turns → (o.replayed c turns).bytes = o.lastContents) ↔
      CachedCurrent c := by
  constructor
  · intro hall d hun htxg hbirth k v hv hk
    have hd : d ∈ stale c := (mem_stale c).mpr ⟨htxg, hun⟩
    obtain ⟨pre, post, heq⟩ := List.append_of_mem hd
    have hrun := hall _ (syncBefore_faultFree (pre.length + 1))
    rw [← hrun, replayed, getAllBuf_eq, heq, List.append_assoc, List.cons_append]
    refine (replayAllData_sync o.imported rfl rfl hbirth hv ?_).symm
    intro e he
    rcases List.mem_append.mp he with hold | hnew
    · have hstale : e ∈ stale c := heq ▸ List.mem_append_right pre (List.mem_cons_of_mem d hold)
      have hhist := (List.mem_filter.mp (List.mem_filter.mp hstale).1).1
      have hdhist := (List.mem_filter.mp (List.mem_filter.mp hd).1).1
      cases hcov : e.overlay k with
      | none => exact .inl rfl
      | some u =>
        refine .inr ⟨((mem_stale c).mp hstale).1, ?_⟩
        rw [← o.single e hhist k (by simp [hcov]), ← o.single d hdhist k (by simp [hv])]
    · exact .inl (hk e hnew)
  · intro hcur turns hfree
    exact replayed_of_current hcur hfree

theorem overlay_range {d : MirrorData} {k : Nat × Nat} (h : d.overlay k ≠ none) :
    k.1 = d.objectId ∧ d.blkOffset ≤ k.2 ∧ k.2 < d.blkOffset + d.data.length := by
  unfold MirrorData.overlay at h
  split at h
  · next hin =>
    rw [ne_eq, List.getElem?_eq_none_iff] at h
    omega
  · exact absurd rfl h

/- Writes to a block of four bytes that was last synced in txg 5. -/
def oneBlock (history : List MirrorData)
    (ordered : history.Pairwise fun a b => a.txg ≤ b.txg ∧ a.txTime < b.txTime)
    (inside : ∀ w ∈ history, w.objectId = 1 ∧ w.blkOffset + w.data.length ≤ 4 ∧ w.blkOffset < 4) :
    FailedOwner where
  blksz := fun _ => 4
  firstTxg := 6
  history := history
  base := fun _ => 0
  baseBirth := fun _ => none
  ordered := ordered
  single := by
    intro w hw k hk
    obtain ⟨hobject, -, hlt⟩ := overlay_range hk
    obtain ⟨hone, hend, hstart⟩ := inside w hw
    rw [MirrorData.block, hobject, Prod.mk.injEq]
    exact ⟨rfl, by omega⟩
  baseBirth_lt := by simp

/- A write of the first byte, then one of the whole block in the same txg. -/
def firstByte : MirrorData := ⟨1, 0, [1], 5, 1, false⟩
def wholeBlock : MirrorData := ⟨1, 0, [2, 2, 2, 2], 5, 2, true⟩

def overwritten : FailedOwner := oneBlock [firstByte, wholeBlock] (by decide) (by decide)

def firstByteCached : overwritten.Caches where
  alignedListTxg := []
  unalignedListTime := [[firstByte]]
  nodup := by decide
  aligned := by decide
  unaligned := by decide
  complete := by decide

/- Then one of the last byte, and in the next txg, which was not synced, one of two bytes. -/
def lastByte : MirrorData := ⟨1, 3, [3], 5, 3, false⟩
def twoBytes : MirrorData := ⟨1, 1, [4, 4], 6, 4, false⟩

def continued : FailedOwner :=
  oneBlock [firstByte, wholeBlock, lastByte, twoBytes] (by decide) (by decide)

def bothCached : continued.Caches where
  alignedListTxg := [(5, [wholeBlock])]
  unalignedListTime := [[lastByte, twoBytes]]
  nodup := by decide
  aligned := by decide
  unaligned := by decide
  complete := by decide

/-- The cached write of the birth txg is replayed over what it wrote itself, and the one of the
next txg over that. -/
theorem replay_restores_iff_both_cached : ∀ turns, FaultFree turns →
    (continued.replayed bothCached turns).bytes = continued.lastContents := by
  refine (replay_restores_iff continued bothCached).mpr fun d hd htxg _ k v hv _ => ?_
  obtain rfl : d = lastByte := (List.mem_pair.mp hd).resolve_right fun h => by
    rw [h] at htxg
    exact absurd htxg (by decide)
  obtain ⟨hobject, hle, hlt⟩ := overlay_range (d := lastByte) (k := k) (by simp [hv])
  obtain rfl : k = (1, 3) := Prod.ext hobject (by simp [lastByte] at hle hlt; omega)
  exact Option.some.inj (hv.symm.trans (by decide))

/-- The cached write of the first byte is replayed over the whole-block write that followed it. -/
theorem replay_overwrites : ∃ turns, FaultFree turns ∧
    (overwritten.replayed firstByteCached turns).bytes (1, 0) = 1 ∧
    overwritten.lastContents (1, 0) = 2 :=
  ⟨fun _ => idleTurn, fun _ => ⟨rfl, rfl⟩, by decide, by decide⟩

end FailedOwner

end ClusterZfs

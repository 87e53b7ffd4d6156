import ClusterZfs.SegCache.Views

/-! The transaction groups of the block. All writes in hand are of one group; no dirty record is
newer, each is of a group of its own, and the one being written is of an older group. -/
namespace ClusterZfs

namespace MirrorDb

variable {s : MirrorDb} {txg : Nat} {io io' : List BlockWrite} {image : Image}
  {rest : List RecordView}

theorem records_getLast {dr : DirtyRecord} (hlast : s.dirty.getLast? = some dr) :
    s.records.getLast? = some (s.view dr) := by
  rw [records, List.getLast?_map, hlast]
  rfl

section

variable (h : s.HeadAt txg io rest)
include h

theorem HeadAt.mem {r : RecordView} (hr : r ∈ rest) : r ∈ s.records := by
  rcases h with hfound | hnew
  · rw [hfound]
    exact List.mem_cons_of_mem _ hr
  · rwa [← hnew.2.1]

/- The records that were there are there, the newest one with a new image perhaps. -/
theorem HeadAt.getLast {r : RecordView}
    (hr : s.records.getLast? = some r) (hne : r.txg ≠ txg) :
    (⟨txg, io', image⟩ :: rest : List RecordView).getLast? = some r := by
  have hlast : rest.getLast? = some r := by
    rcases h with hfound | hnew
    · cases rest with
      | nil =>
        rw [hfound, List.getLast?_singleton] at hr
        exact absurd (congrArg RecordView.txg (Option.some.inj hr)).symm hne
      | cons x rest => rwa [hfound, List.getLast?_cons_cons] at hr
    · rw [hnew.2.1, hr]
  rw [List.getLast?_cons, hlast]
  rfl

theorem HeadAt.older
    (horder : s.records.Pairwise fun r r' => r'.txg < r.txg)
    (hbound : ∀ r ∈ s.records, r.txg ≤ txg) :
    rest.Pairwise (fun r r' => r'.txg < r.txg) ∧ ∀ r ∈ rest, r ∈ s.records ∧ r.txg < txg := by
  have hmem := fun r hr => h.mem (r := r) hr
  rcases h with hfound | ⟨_, hrest, hhead⟩
  · rw [hfound, List.pairwise_cons] at horder
    exact ⟨horder.2, fun r hr => ⟨hmem r hr, horder.1 r hr⟩⟩
  · rw [hrest]
    refine ⟨horder, fun r hr => ⟨hr, ?_⟩⟩
    rcases hrecords : s.records with _ | ⟨x, tail⟩
    · simp [hrecords] at hr
    · have hx : x.txg < txg :=
        lt_of_le_of_ne (hbound x (by simp [hrecords])) (hhead x (by simp [hrecords]))
      rw [hrecords] at horder hr
      rcases List.mem_cons.mp hr with rfl | htail
      · exact hx
      · exact ((List.pairwise_cons.mp horder).1 r htail).trans hx

end

end MirrorDb

namespace MirrorSys

variable {size : Nat} {s s' : MirrorSys}

/- The group of the writes in hand; the open one if there are none. -/
def level (s : MirrorSys) : Nat :=
  match s.hand with
  | [] => s.openTxg
  | w :: _ => w.1.txg

theorem level_of_quiet (h : s.Quiet) : s.level = s.openTxg := by
  unfold level
  split
  · rfl
  · rename_i w rest hhand
    exact h w (by rw [hhand]; exact List.mem_cons_self)

/- The dirty records of the block. -/
structure RecordsInv (t synced : Nat) (db : MirrorDb) : Prop where
  buf : BufInv db
  order : db.records.Pairwise fun r r' => r'.txg < r.txg
  bound : ∀ r ∈ db.records, r.txg ≤ t
  pending : db.pending → ∃ r, db.records.getLast? = some r ∧ r.txg = synced + 1 ∧ r.txg < t

structure GroupInv (s : MirrorSys) : Prop where
  block : RecordsInv s.level s.syncedTxg s.db
  hand : ∀ w ∈ s.hand, w.1.txg = s.level
  opened : s.level ≤ s.openTxg

namespace RecordsInv

variable {t synced : Nat} {db db' : MirrorDb} {w : BlockWrite}

section

variable (h : RecordsInv t synced db)
include h

theorem mono {u : Nat} (htu : t ≤ u) : RecordsInv u synced db where
  __ := h
  bound r hr := (h.bound r hr).trans htu
  pending hp := by
    obtain ⟨r, hr, hsynced, hlt⟩ := h.pending hp
    exact ⟨r, hr, hsynced, hlt.trans_le htu⟩

theorem notWriting : db.NotWriting t := by
  intro hp r hr
  obtain ⟨r', hr', _, hlt⟩ := h.pending hp
  cases Option.some.inj (hr.symm.trans hr')
  exact Nat.ne_of_lt hlt

theorem of_same (hbuf : BufInv db')
    (hrecords : db'.records.map RecordView.txg = db.records.map RecordView.txg)
    (hpending : db'.pending = db.pending) : RecordsInv t synced db' where
  buf := hbuf
  order := by
    have horder : (db.records.map RecordView.txg).Pairwise fun a b => b < a :=
      List.pairwise_map.mpr h.order
    rw [← hrecords] at horder
    exact List.pairwise_map.mp horder
  bound r hr := by
    have hmem : r.txg ∈ db.records.map RecordView.txg :=
      hrecords ▸ List.mem_map_of_mem hr
    obtain ⟨r', hr', htxg⟩ := List.mem_map.mp hmem
    exact htxg ▸ h.bound r' hr'
  pending hp := by
    obtain ⟨r, hr, hsynced, hlt⟩ := h.pending (hpending ▸ hp)
    have hlast : (db'.records.map RecordView.txg).getLast? = some r.txg := by
      rw [hrecords, List.getLast?_map, hr]
      rfl
    rw [List.getLast?_map] at hlast
    obtain ⟨r', hr', htxg⟩ := Option.map_eq_some_iff.mp hlast
    exact ⟨r', hr', htxg.trans hsynced, htxg ▸ hlt⟩

theorem dirtied {mirrored : Bool} {image : Image}
    (hd : Dirtied db t mirrored db' image) : RecordsInv t synced db' := by
  obtain ⟨io, rest, hhead, hrecords⟩ := hd.records
  obtain ⟨horder, holder⟩ := hhead.older h.order h.bound
  refine ⟨hd.buf, ?_, ?_, ?_⟩
  · rw [hrecords]
    exact List.pairwise_cons.mpr ⟨fun r hr => (holder r hr).2, horder⟩
  · rw [hrecords]
    exact List.forall_mem_cons.mpr ⟨le_rfl, fun r hr => (holder r hr).2.le⟩
  · intro hp
    obtain ⟨r, hr, hsynced, hlt⟩ := h.pending (hd.pending ▸ hp)
    rw [hrecords]
    exact ⟨r, hhead.getLast hr (Nat.ne_of_lt hlt), hsynced, hlt⟩

end

theorem dmuWrite (h : RecordsInv w.txg synced db) (size : Nat) (kept mirrored : Bool) :
    RecordsInv w.txg synced (db.dmuWrite size w kept mirrored) := by
  cases h.buf.dmuWrite size h.notWriting kept mirrored with
  | whole _ _ _ hdirtied | merged hdirtied | segsFull _ _ _ hdirtied => exact h.dirtied hdirtied
  | added _ _ hbuf hrecords _ _ _ hpending =>
    exact h.of_same hbuf (congrArg (List.map RecordView.txg) hrecords) hpending

theorem read (h : RecordsInv t synced db) : RecordsInv t synced db.read := by
  obtain ⟨hbuf, _, _, hpending, _, hrecords⟩ := h.buf.read
  apply h.of_same hbuf _ hpending
  rcases hrecords with hsame | ⟨_, txg, io, rest, hold, hnew⟩
  · rw [hsame]
  · rw [hold, hnew]
    rfl

end RecordsInv

theorem groupInv_start : GroupInv start where
  block := ⟨⟨nofun, nofun, nofun, absurd rfl, nofun⟩, .nil, nofun, nofun⟩
  hand := List.forall_mem_nil _
  opened := le_rfl

namespace GroupInv

/- The group of the writes in hand only grows. -/
theorem level_openNext (h : s.GroupInv) (hquiet : s.Quiet) :
    s.level ≤ level { s with openTxg := s.openTxg + 1 } ∧
    (∀ w ∈ s.hand, w.1.txg = level { s with openTxg := s.openTxg + 1 }) ∧
    level { s with openTxg := s.openTxg + 1 } ≤ s.openTxg + 1 := by
  have hlevel := level_of_quiet hquiet
  have hhand := h.hand
  cases hs : s.hand with
  | nil =>
    refine ⟨?_, List.forall_mem_nil _, le_rfl⟩
    rw [hlevel]
    exact Nat.le_succ _
  | cons w rest =>
    rw [hs] at hhand
    have hw : w.1.txg = s.level := hhand w List.mem_cons_self
    dsimp only [level]
    rw [hw]
    exact ⟨le_rfl, hhand, h.opened.trans (Nat.le_succ _)⟩

theorem level_begin (seg : Seg) (mirrored : Bool) :
    (s.begin seg mirrored).level = s.level := by
  cases hs : s.hand with
  | nil | cons w rest => simp [level, MirrorSys.begin, hs]

theorem level_erase (h : s.GroupInv) (i : Nat) (db : MirrorDb) :
    s.level ≤ level { s with db := db, hand := s.hand.eraseIdx i } ∧
    (∀ w ∈ s.hand.eraseIdx i, w.1.txg = level { s with db := db, hand := s.hand.eraseIdx i }) ∧
    level { s with db := db, hand := s.hand.eraseIdx i } ≤ s.openTxg := by
  have hrest : ∀ w ∈ s.hand.eraseIdx i, w.1.txg = s.level :=
    fun w hw => h.hand w (List.mem_of_mem_eraseIdx hw)
  cases hs : s.hand.eraseIdx i with
  | nil => exact ⟨h.opened, List.forall_mem_nil _, le_rfl⟩
  | cons w rest =>
    rw [hs] at hrest
    have hw : w.1.txg = s.level := hrest w List.mem_cons_self
    dsimp only [level]
    rw [hw]
    exact ⟨le_rfl, hrest, h.opened⟩

theorem block_at (h : s.GroupInv) {i : Nat} {w : BlockWrite} {sent : Bool}
    (hi : s.hand[i]? = some (w, sent)) :
    w.txg = s.level ∧ RecordsInv w.txg s.syncedTxg s.db := by
  have hw : w.txg = s.level := h.hand (w, sent) (List.mem_of_getElem? hi)
  exact ⟨hw, hw ▸ h.block⟩

theorem closed_lt (h : s.GroupInv) {txg : Nat} (hle : txg ≤ s.level) (hclosed : s.Closed txg) :
    txg < s.level := by
  apply lt_of_le_of_ne hle
  intro heq
  cases hs : s.hand with
  | nil =>
    have hlevel : s.level = s.openTxg := by simp only [level, hs]
    exact absurd hclosed.1 (by omega)
  | cons w rest =>
    have hw : w ∈ s.hand := by rw [hs]; exact List.mem_cons_self
    exact hclosed.2 w hw ((h.hand w hw).trans heq.symm)

theorem step (h : s.GroupInv) {a : MirrorAction} (hstep : s.step size a = some s') :
    s'.GroupInv := by
  cases a with
  | openNext =>
    obtain ⟨hguard, ⟨⟩⟩ := Option.ite_none_right_eq_some.mp hstep
    obtain ⟨hle, hhand, hopened⟩ := h.level_openNext hguard.1
    exact ⟨h.block.mono hle, hhand, hopened⟩
  | begin seg mirrored =>
    obtain ⟨hguard, ⟨⟩⟩ := Option.ite_none_right_eq_some.mp hstep
    have hlevel := level_begin (s := s) seg mirrored
    obtain ⟨hbuf, hview⟩ := h.block.buf.hold
    constructor
    · rw [hlevel]
      have hheld := h.block.of_same hbuf (congrArg (List.map RecordView.txg) hview.records)
        hview.pending
      exact { hheld with buf := { hbuf with } }
    · rw [hlevel]
      refine List.forall_mem_append.mpr ⟨h.hand, List.forall_mem_singleton.mpr ?_⟩
      exact (level_of_quiet hguard.1).symm
    · rw [hlevel]
      exact h.opened
  | write i optimize mirrored =>
    obtain ⟨w, sent, hi, rfl⟩ := write_cases size hstep
    obtain ⟨hw, hblock⟩ := h.block_at hi
    have hnew := hblock.dmuWrite size (sent && optimize) mirrored
    rw [hw] at hnew
    obtain ⟨hle, hhand, hopened⟩ := h.level_erase i
      (s.db.dmuWrite size w (sent && optimize) mirrored)
    exact ⟨hnew.mono hle, hhand, hopened⟩
  | read =>
    cases hstep
    exact ⟨h.block.read, h.hand, h.opened⟩
  | rewrite mirrored =>
    obtain ⟨copy, rest, hcopies, hhand, rfl⟩ := rewrite_cases hstep
    have hlevel : s.level = s.openTxg := by simp only [level, hhand]
    have hblock := h.block
    rw [hlevel] at hblock
    have hnew := hblock.dirtied (h.block.buf.rewrite hblock.notWriting mirrored copy).1
    exact ⟨hnew.mono hlevel.ge, h.hand, h.opened⟩
  | syncLeaf held =>
    obtain ⟨dr, hlast, hguard, rfl⟩ := syncLeaf_cases hstep
    obtain ⟨hbuf, hrecords, _⟩ := h.block.buf.syncLeaf hlast (held || !s.hand.isEmpty)
    have hview := MirrorDb.records_getLast hlast
    refine ⟨⟨hbuf, hrecords ▸ h.block.order, hrecords ▸ h.block.bound, fun _ => ?_⟩, h.hand,
      h.opened⟩
    · have hle : dr.txg ≤ s.level := h.block.bound _ (List.mem_of_getLast? hview)
      rw [hrecords]
      exact ⟨_, hview, hguard.1, h.closed_lt hle hguard.2.1⟩
  | writeDone mirrored =>
    obtain ⟨dr, hlast, _, rfl⟩ := writeDone_cases hstep
    obtain ⟨hbuf, hrecords, _⟩ := h.block.buf.writeDone hlast
    refine ⟨⟨hbuf, ?_, ?_, nofun⟩, h.hand, h.opened⟩
    · rw [hrecords]
      exact h.block.order.sublist (List.dropLast_sublist _)
    · rw [hrecords]
      exact fun r hr => h.block.bound r (List.mem_of_mem_dropLast hr)
  | poolSyncDone =>
    obtain ⟨hguard, ⟨⟩⟩ := Option.ite_none_right_eq_some.mp hstep
    refine ⟨{ h.block with pending := fun hp => ?_ }, h.hand, h.opened⟩
    obtain ⟨r, hr, hsynced, _⟩ := h.block.pending hp
    obtain ⟨dr, hdr, hview⟩ := List.mem_map.mp (List.mem_of_getLast? hr)
    exact absurd ((congrArg RecordView.txg hview).trans hsynced) (hguard.2 dr hdr)

end GroupInv

end MirrorSys

end ClusterZfs

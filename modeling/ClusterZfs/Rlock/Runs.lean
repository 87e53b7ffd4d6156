import ClusterZfs.Rlock.Attempt
import ClusterZfs.Lib.Runs

/-! Threads that lock and unlock ranges of one file. Each step is a section under the mutex of the
file, and a waiting thread may be woken at any time. -/
namespace ClusterZfs

/- `away` are the locks that proxies stand for, `waiting` those that threads wait for, and `held`
the ranges the threads have been granted. -/
structure ZrState where
  file : Option ZrFile
  tree : List Rl
  away : List Rl
  waiting : List Rl
  held : Multiset Held

inductive ZrOp where
  | lock (id off len : Nat) (type : RlType)
  | retry (id : Nat)
  | unlock (id : Nat)
  | reduce (id off len : Nat)
  | setFile (f : ZrFile)

def ZrState.after (s : ZrState) (new : Rl) : Attempt → ZrState
  | .granted tree replaced lock =>
    { s with tree := tree, away := s.away ++ replaced, waiting := s.waiting.erase new,
             held := lock.held ::ₘ s.held }
  | .wait tree => { s with tree := tree, waiting := new :: s.waiting.erase new }

/- The lock as it is allocated; a length that would wrap is cut. -/
def zfsRangeNew (id off len : Nat) (type : RlType) : Rl :=
  Rl.new id off (if uint64 (len + off) < off then uint64Max - off else len) type

def isLock (id : Nat) (rl : Rl) : Bool := !rl.rProxy && rl.rId = id

def zrStep (s : ZrState) : ZrOp → Option ZrState
  | .lock id off len type =>
    (zfsRangeLock s.file s.tree (zfsRangeNew id off len type)).map
      (s.after (zfsRangeNew id off len type))
  | .retry id =>
    (s.waiting.find? fun new => new.rId = id).bind fun new =>
      (zfsRangeRetry s.file s.tree new).map (s.after new)
  | .unlock id =>
    ((s.tree ++ s.away).find? (isLock id)).bind fun rl =>
      (zfsRangeUnlock s.tree rl).map fun tree =>
        { s with tree := tree, away := s.away.erase rl, held := s.held.erase rl.held }
  | .reduce id off len =>
    (s.tree.find? (isLock id)).bind fun rl =>
      (zfsRangeReduce s.tree rl off len).map fun tree =>
        { s with tree := tree, held := ⟨id, off, len, .writer⟩ ::ₘ s.held.erase rl.held }
  | .setFile f => some { s with file := some f }

/- What the callers keep to: ranges are not empty and do not wrap, each lock is unlocked by its
owner, and only a lock on the whole file is reduced. -/
def ZrOp.Allowed (s : ZrState) : ZrOp → Prop
  | .lock _ off len type => 0 < len ∧ off + len < 2 ^ 64 ∧
      (type = .append → ∀ f ∈ s.file, f.zrSize + len < 2 ^ 64)
  | .retry id => (∃ new ∈ s.waiting, new.rId = id) ∧
      ∀ new ∈ s.waiting, new.rType = .append → ∀ f ∈ s.file, f.zrSize + new.rLen < 2 ^ 64
  | .unlock id => ∃ g ∈ s.held, g.id = id
  | .reduce id off len => ⟨id, 0, uint64Max, .writer⟩ ∈ s.held ∧ 0 < len ∧ off + len < 2 ^ 64
  | .setFile _ => s.file.isSome

structure ZrState.Good (s : ZrState) : Prop where
  consistent : Consistent s.tree s.away s.held
  waiting : ∀ new ∈ s.waiting, new = Rl.new new.rId new.rOff new.rLen new.rType ∧
    0 < new.rLen ∧ new.rEnd < 2 ^ 64

def zrStart (file : Option ZrFile) : ZrState := ⟨file, [], [], [], 0⟩

theorem zrStart_good (file : Option ZrFile) : (zrStart file).Good :=
  ⟨consistent_nil, by simp [zrStart]⟩

section Steps

variable {s : ZrState} (h : s.Good) {new : Rl}
include h

section

variable (hnew : Requested s.file new)
include hnew

theorem ZrState.Good.after {a : Attempt} (ha : a.Kept s.away s.held) : (s.after new a).Good := by
  cases a with
  | granted tree replaced lock =>
    exact ⟨ha, fun w hw => h.waiting w (List.mem_of_mem_erase hw)⟩
  | wait tree =>
    exact ⟨ha, List.forall_mem_cons.mpr ⟨⟨hnew.fresh, hnew.pos, hnew.bound⟩,
      fun w hw => h.waiting w (List.mem_of_mem_erase hw)⟩⟩

theorem ZrState.Good.retry :
    ∃ a, zfsRangeRetry s.file s.tree new = some a ∧ a.Kept s.away s.held := by
  unfold zfsRangeRetry
  by_cases htype : new.rType = .reader
  · rw [if_pos htype]
    exact h.consistent.lockReader (hnew.reader htype)
  · rw [if_neg htype]
    exact ⟨_, rfl, h.consistent.lockWriter hnew.writer.1 hnew.writer.2⟩

theorem ZrState.Good.lock :
    ∃ a, zfsRangeLock s.file s.tree new = some a ∧ a.Kept s.away s.held := by
  unfold zfsRangeLock
  by_cases htype : new.rType = .reader
  · rw [if_pos htype]
    by_cases hnil : s.tree = []
    · have hc := h.consistent
      rw [hnil] at hc
      refine ⟨_, by rw [if_pos hnil], ?_⟩
      exact hc.addReader (hnew.reader htype) (hnew.reader htype).alone
    · rw [if_neg hnil]
      exact h.consistent.lockReader (hnew.reader htype)
  · rw [if_neg htype]
    exact ⟨_, rfl, h.consistent.lockWriter hnew.writer.1 hnew.writer.2⟩

end

theorem ZrState.Good.find_lock {id : Nat} (hheld : ∃ g ∈ s.held, g.id = id) :
    ∃ rl, (s.tree ++ s.away).find? (isLock id) = some rl ∧ rl.rProxy = false ∧
      (rl ∈ s.tree ∨ rl ∈ s.away) := by
  have hsome : ((s.tree ++ s.away).find? (isLock id)).isSome := by
    obtain ⟨g, hg, hid⟩ := hheld
    refine List.find?_isSome.mpr ?_
    rcases h.consistent.held_cases hg with ⟨rl, hrl, hplain, rfl⟩ | ⟨rl, hrl, rfl⟩
    · exact ⟨rl, List.mem_append_left _ hrl, by simpa [isLock, hplain, Rl.held] using hid⟩
    · have hplain := (h.consistent.replaced rl hrl).plain
      exact ⟨rl, List.mem_append_right _ hrl, by simpa [isLock, hplain, Rl.held] using hid⟩
  obtain ⟨rl, hfind⟩ := Option.isSome_iff_exists.mp hsome
  have hlock := List.find?_some hfind
  simp only [isLock, Bool.and_eq_true, Bool.not_eq_true'] at hlock
  exact ⟨rl, hfind, hlock.1, List.mem_append.mp (List.mem_of_find?_eq_some hfind)⟩

theorem ZrState.Good.unlock {rl : Rl} (hplain : rl.rProxy = false)
    (hmem : rl ∈ s.tree ∨ rl ∈ s.away) :
    ∃ tree, zfsRangeUnlock s.tree rl = some tree ∧
      Consistent tree (s.away.erase rl) (s.held.erase rl.held) := by
  rcases hmem with hmem | hmem
  · have hv := h.consistent.valid rl hmem
    have hcnt := hv.plain hplain
    have haway : s.away.erase rl = s.away := by
      refine List.erase_of_not_mem fun hin => ?_
      have := (h.consistent.replaced rl hin).cnt
      omega
    refine ⟨s.tree.erase rl, ?_, haway.symm ▸ h.consistent.removeEntry hmem hplain⟩
    cases htype : rl.rType with
    | reader => simp [zfsRangeUnlock, zfsRangeUnlockReader, htype, hcnt, hplain]
    | writer => simp [zfsRangeUnlock, htype, hcnt, hplain]
    | append => exact absurd htype hv.type
  · have hr := h.consistent.replaced rl hmem
    obtain ⟨tree', hunlock, hc⟩ := h.consistent.removeReplaced hmem
    refine ⟨tree', ?_, hc⟩
    simp [zfsRangeUnlock, hr.type, hr.cnt, hr.plain, hunlock]

theorem ZrState.Good.whole {id : Nat} (hheld : ⟨id, 0, uint64Max, .writer⟩ ∈ s.held) :
    ∃ rl, s.tree = [rl] ∧ rl.rProxy = false ∧ rl.held = ⟨id, 0, uint64Max, .writer⟩ := by
  rcases h.consistent.held_cases hheld with ⟨rl, hmem, hplain, hkey⟩ | ⟨rl, hrl, hkey⟩
  · have hoff : rl.rOff = 0 := congrArg Held.off hkey
    have hlen : rl.rLen = uint64Max := congrArg Held.len hkey
    refine ⟨rl, ?_, hplain, hkey⟩
    obtain ⟨as, bs, htree⟩ := List.append_of_mem hmem
    have hapart := h.consistent.apart
    have hvalid := h.consistent.valid
    rw [htree] at hapart hvalid
    obtain ⟨-, hright, hcross⟩ := List.pairwise_append.mp hapart
    have has : as = [] := by
      refine List.eq_nil_iff_forall_not_mem.mpr fun a ha => ?_
      have := hcross a ha rl List.mem_cons_self
      have := (hvalid a (by simp [ha])).off_lt_end
      omega
    have hbs : bs = [] := by
      refine List.eq_nil_iff_forall_not_mem.mpr fun b hb => ?_
      have h1 := (List.pairwise_cons.mp hright).1 b hb
      have h2 := (hvalid b (by simp [hb])).off_lt_end
      have h3 := (hvalid b (by simp [hb])).bound
      rw [Rl.rEnd, hoff, hlen, uint64Max] at h1
      omega
    rw [htree, has, hbs]
    rfl
  · have htype : rl.rType = .writer := congrArg Held.type hkey
    rw [(h.consistent.replaced rl hrl).type] at htype
    cases htype

theorem ZrState.Good.reduce {rl : Rl} {off len : Nat} (htree : s.tree = [rl])
    (hplain : rl.rProxy = false) (hwriter : rl.rType = .writer) (hpos : 0 < len)
    (hbound : off + len < 2 ^ 64) :
    Consistent [{ rl with rOff := off, rLen := len }] s.away
      (⟨rl.rId, off, len, .writer⟩ ::ₘ s.held.erase rl.held) := by
  have hmem : rl ∈ s.tree := by simp [htree]
  have hv := h.consistent.valid rl hmem
  have hout := h.consistent.removeEntry hmem hplain
  rw [show s.tree.erase rl = [] by simp [htree]] at hout
  have hnew : Rl.Valid { rl with rOff := off, rLen := len } :=
    { hv with pos := hpos, bound := hbound }
  have hin := hout.addWriter hnew hwriter hplain (by simp)
  have hheld : Rl.held { rl with rOff := off, rLen := len } = ⟨rl.rId, off, len, .writer⟩ := by
    simp [Rl.held, hwriter]
  rwa [hheld] at hin

theorem zrStep_good {op : ZrOp} (hop : op.Allowed s) : ∃ s', zrStep s op = some s' ∧ s'.Good := by
  cases op with
  | lock id off len type =>
    obtain ⟨hpos, hbound, happend⟩ := hop
    have hlen : ¬ uint64 (len + off) < off := by
      unfold uint64
      omega
    have hreq : Requested s.file (zfsRangeNew id off len type) := by
      rw [zfsRangeNew, if_neg hlen]
      exact ⟨rfl, hpos, hbound, happend⟩
    obtain ⟨a, hlock, hkept⟩ := h.lock hreq
    exact ⟨_, by rw [zrStep, hlock]; rfl, h.after hreq hkept⟩
  | retry id =>
    obtain ⟨⟨w, hw, hid⟩, happend⟩ := hop
    have hsome : (s.waiting.find? fun new => new.rId = id).isSome :=
      List.find?_isSome.mpr ⟨w, hw, by simpa using hid⟩
    obtain ⟨new, hfind⟩ := Option.isSome_iff_exists.mp hsome
    have hmem := List.mem_of_find?_eq_some hfind
    obtain ⟨hfresh, hpos, hbound⟩ := h.waiting new hmem
    have hreq : Requested s.file new := ⟨hfresh, hpos, hbound, happend new hmem⟩
    obtain ⟨a, hretry, hkept⟩ := h.retry hreq
    refine ⟨s.after new a, ?_, h.after hreq hkept⟩
    simp [zrStep, hfind, hretry]
  | unlock id =>
    obtain ⟨rl, hfind, hplain, hmem⟩ := h.find_lock hop
    obtain ⟨tree, hunlock, hc⟩ := h.unlock hplain hmem
    refine ⟨{ s with tree := tree, away := s.away.erase rl, held := s.held.erase rl.held }, ?_, hc,
      h.waiting⟩
    simp [zrStep, hfind, hunlock]
  | reduce id off len =>
    obtain ⟨hheld, hpos, hbound⟩ := hop
    obtain ⟨rl, htree, hplain, hkey⟩ := h.whole hheld
    have hid : rl.rId = id := congrArg Held.id hkey
    have hoff : rl.rOff = 0 := congrArg Held.off hkey
    have hlen : rl.rLen = uint64Max := congrArg Held.len hkey
    have htype : rl.rType = .writer := congrArg Held.type hkey
    have hcnt := (h.consistent.valid rl (by simp [htree])).plain hplain
    refine ⟨{ s with tree := [{ rl with rOff := off, rLen := len }],
                     held := ⟨id, off, len, .writer⟩ ::ₘ s.held.erase rl.held }, ?_, ?_, h.waiting⟩
    · simp [zrStep, htree, isLock, hplain, hid, zfsRangeReduce, hoff, htype, hlen, hcnt]
    · exact hid ▸ h.reduce htree hplain htype hpos hbound
  | setFile f => exact ⟨_, rfl, h.consistent, h.waiting⟩

end Steps

section Exclusion

variable {tree away : List Rl} {held : Multiset Held} (h : Consistent tree away held)
include h

theorem Consistent.writer_entry {w : Held} (hw : w ∈ held) (hwriter : w.type = .writer) :
    ∃ rl ∈ tree, rl.rProxy = false ∧ rl.held = w := by
  refine (h.held_cases hw).resolve_right ?_
  rintro ⟨rl, hrl, rfl⟩
  exact absurd ((h.replaced rl hrl).type.symm.trans hwriter) (by decide)

theorem Consistent.held_type {g : Held} (hg : g ∈ held) : g.type ≠ .append := by
  rcases h.held_cases hg with ⟨rl, hrl, -, rfl⟩ | ⟨rl, hrl, rfl⟩
  · exact (h.valid rl hrl).type
  · change rl.rType ≠ .append
    rw [(h.replaced rl hrl).type]
    decide

theorem Consistent.exclusive {w : Held} (hw : w ∈ held) (hwriter : w.type = .writer) {g : Held}
    (hg : g ∈ held.erase w) : g.off + g.len ≤ w.off ∨ w.off + w.len ≤ g.off := by
  obtain ⟨rl, hrl, hplain, rfl⟩ := h.writer_entry hw hwriter
  have hout := h.removeEntry hrl hplain
  have hlt := (h.valid rl hrl).off_lt_end
  have hapart : ∀ e ∈ tree.erase rl, e.rEnd ≤ rl.rOff ∨ rl.rEnd ≤ e.rOff := by
    obtain ⟨as, bs, -, htree, herase⟩ := List.exists_erase_eq hrl
    have hall := h.apart
    rw [htree] at hall
    obtain ⟨-, hright, hcross⟩ := List.pairwise_append.mp hall
    intro e he
    rw [herase] at he
    exact (List.mem_append.mp he).imp (hcross e · rl List.mem_cons_self)
      ((List.pairwise_cons.mp hright).1 e)
  cases htype : g.type with
  | reader => exact (hout.reader_apart hlt hapart hg htype).symm
  | writer =>
    obtain ⟨e, he, -, rfl⟩ := hout.writer_entry hg htype
    exact hapart e he
  | append => exact absurd htype (hout.held_type hg)

end Exclusion

theorem zfsRangeLockWriter_append {f : ZrFile} {tree tree' d : List Rl} {new lock : Rl}
    (happend : new.rType = .append)
    (hgrant : zfsRangeLockWriter (some f) tree new = .granted tree' d lock) :
    (lock.rOff = f.zrSize ∧ lock.rLen = new.rLen) ∨ (lock.rOff = 0 ∧ lock.rLen = uint64Max) := by
  have hlock : lock = writerLock (some f) new := by
    unfold zfsRangeLockWriter at hgrant
    dsimp only at hgrant
    split at hgrant
    · cases hgrant
      rfl
    · split at hgrant
      · cases hgrant
      · cases hgrant
        rfl
  rw [hlock, writerLock]
  rcases writerRange_cases (some f) new with ⟨heq, -⟩ | ⟨-, hno⟩ | ⟨f', hf, -, heq⟩
  · rw [heq]
    exact .inr ⟨rfl, rfl⟩
  · exact absurd happend (hno.resolve_left (by simp))
  · cases hf
    rw [heq]
    exact .inl ⟨rfl, rfl⟩

section Runs

variable {file : Option ZrFile} {s : ZrState}

theorem good_of_reach (hreach : Reach zrStep (fun s op => ZrOp.Allowed s op) (zrStart file) s) :
    s.Good := by
  refine Reach.invariant (zrStart_good file) (fun t u op ht hop hstep => ?_) hreach
  obtain ⟨u', hstep', hu'⟩ := zrStep_good ht hop
  cases hstep.symm.trans hstep'
  exact hu'

/-- In every state the threads can reach, writers exclude all others, the entries are disjoint,
readers are covered by entries that count them, an append is granted at the end of the file or for
all of it, and no step fails. -/
theorem range_locks_exclude
    (hreach : Reach zrStep (fun s op => ZrOp.Allowed s op) (zrStart file) s) :
    (∀ w ∈ s.held, w.type = .writer → ∀ g ∈ s.held.erase w,
        g.off + g.len ≤ w.off ∨ w.off + w.len ≤ g.off) ∧
      s.tree.Pairwise (fun a b => a.rEnd ≤ b.rOff) ∧
      (∀ g ∈ s.held, g.type = .reader → ∀ x, g.Has x → ∃ e ∈ s.tree,
        e.rType = .reader ∧ e.Has x ∧ g.off ≤ e.rOff ∧ e.rEnd ≤ g.off + g.len) ∧
      (∀ e ∈ s.tree, e.rType = .reader → e.rCnt = s.held.countP fun g =>
        g.type = .reader ∧ g.off ≤ e.rOff ∧ e.rEnd ≤ g.off + g.len) ∧
      (∀ f ∈ s.file, ∀ new tree d lock, new.rType = .append →
        (zfsRangeLock s.file s.tree new = some (.granted tree d lock) ∨
          zfsRangeRetry s.file s.tree new = some (.granted tree d lock)) →
        (lock.rOff = f.zrSize ∧ lock.rLen = new.rLen) ∨
          (lock.rOff = 0 ∧ lock.rLen = uint64Max)) ∧
      ∀ op : ZrOp, op.Allowed s → ∃ s', zrStep s op = some s' := by
  have h := good_of_reach hreach
  have hc := h.consistent
  refine ⟨fun w hw hwriter g hg => hc.exclusive hw hwriter hg, hc.apart, ?_,
    fun e he hreader => hc.cnt_eq he hreader, ?_, fun op hop => ?_⟩
  · intro g hg hreader x hx
    obtain ⟨e, he, hex, htype⟩ := hc.exists_entry hg hreader hx
    exact ⟨e, he, htype, hex, hc.inside he hg hreader hx hex⟩
  · intro f hf new tree d lock happend hgrant
    have hfile : s.file = some f := hf
    have hno : ¬ new.rType = .reader := by rw [happend]; decide
    rw [zfsRangeLock, zfsRangeRetry, if_neg hno, if_neg hno, or_self, hfile] at hgrant
    exact zfsRangeLockWriter_append happend (Option.some.inj hgrant)
  · obtain ⟨s', hstep, -⟩ := zrStep_good h hop
    exact ⟨s', hstep⟩

/-- Two readers overlap in five bytes: the proxy for these counts both. -/
theorem range_locks_exclude_two_readers :
    ∃ s : ZrState, s.held = {⟨1, 0, 10, .reader⟩, ⟨2, 5, 10, .reader⟩} ∧
      ∃ e ∈ s.tree, e.rOff = 5 ∧ e.rEnd = 10 ∧ e.rCnt = 2 ∧
        e.rCnt = s.held.countP fun g =>
          g.type = .reader ∧ g.off ≤ e.rOff ∧ e.rEnd ≤ g.off + g.len := by
  have hfirst : ZrOp.Allowed (zrStart none) (.lock 1 0 10 .reader) :=
    ⟨by decide, by decide, by rintro ⟨⟩⟩
  have hsecond : ZrOp.Allowed ⟨none, [Rl.new 1 0 10 .reader], [], [], {⟨1, 0, 10, .reader⟩}⟩
      (.lock 2 5 10 .reader) :=
    ⟨by decide, by decide, by rintro ⟨⟩⟩
  have hrun : Reach zrStep (fun s op => ZrOp.Allowed s op) (zrStart none) _ :=
    .next (.next .start hfirst rfl) hsecond rfl
  refine ⟨_, ?_, ⟨0, 5, 5, 2, .reader, true, false, false⟩, ?_, rfl, rfl, rfl,
    (range_locks_exclude hrun).2.2.2.1 _ ?_ rfl⟩ <;> decide

end Runs

section Granted

variable {tree away : List Rl} {held : Multiset Held} {new rl : Rl}

theorem writerConflict_some (hvalid : ∀ e ∈ tree, e.Valid) (hapart : RlApart tree)
    (hpos : 0 < new.rLen) (h : writerConflict tree new = some rl) :
    rl ∈ tree ∧ rl.rOff < new.rEnd ∧ new.rOff < rl.rEnd := by
  have hfin : new.rOff < new.rEnd := Nat.lt_add_of_pos_right hpos
  have hbefore (hfilter : (rlBefore tree new.rOff).getLast?.filter
      (fun rl => rl.rEnd > new.rOff) = some rl) :
      rl ∈ tree ∧ rl.rOff < new.rEnd ∧ new.rOff < rl.rEnd := by
    obtain ⟨hlast, hend⟩ := Option.filter_eq_some_iff.mp hfilter
    have hmem := List.mem_of_getLast? hlast
    exact ⟨mem_of_mem_rlBefore hmem, (lt_of_mem_rlBefore hmem).trans hfin, of_decide_eq_true hend⟩
  have hfirst (p : Rl) (hp : p ∈ rlAfter tree new.rOff) (hlt : p.rOff < new.rEnd) :
      p ∈ tree ∧ p.rOff < new.rEnd ∧ new.rOff < p.rEnd :=
    have hmem := mem_of_mem_rlAfter hp
    ⟨hmem, hlt, (hapart.le_of_mem_rlAfter hvalid hp).trans_lt (hvalid p hmem).off_lt_end⟩
  unfold writerConflict at h
  cases hafter : rlAfter tree new.rOff with
  | nil =>
    rw [hafter] at h
    exact hbefore h
  | cons p rest =>
    have hp : p ∈ rlAfter tree new.rOff := by simp [hafter]
    rw [hafter] at h
    dsimp only at h
    split at h
    · rename_i hat
      cases h
      exact hfirst _ hp (hat ▸ hfin)
    · split at h
      · rename_i hlt
        cases h
        exact hfirst _ hp hlt
      · exact hbefore h

variable (h : Consistent tree away held)
include h

/-- Every entry lies inside a range that some thread holds. -/
theorem Consistent.exists_held {e : Rl} (he : e ∈ tree) :
    ∃ g ∈ held, g.off ≤ e.rOff ∧ e.rEnd ≤ g.off + g.len := by
  have hv := h.valid e he
  cases hproxy : e.rProxy with
  | false => exact ⟨e.held, h.mem_held he hproxy, le_rfl, le_rfl⟩
  | true =>
    have hcnt := h.cnt_eq he (hv.proxy hproxy)
    obtain ⟨g, hg, -, hin⟩ := Multiset.countP_pos.mp (hcnt ▸ hv.cnt)
    exact ⟨g, hg, hin⟩

theorem Consistent.apart_iff {lo hi : Nat} (hlt : lo < hi) :
    (∀ e ∈ tree, e.rEnd ≤ lo ∨ hi ≤ e.rOff) ↔ ∀ g ∈ held, g.off + g.len ≤ lo ∨ hi ≤ g.off := by
  constructor
  · intro hno g hg
    cases htype : g.type with
    | reader => exact (h.reader_apart hlt hno hg htype).symm
    | writer =>
      obtain ⟨e, he, -, rfl⟩ := h.writer_entry hg htype
      exact hno e he
    | append => exact absurd htype (h.held_type hg)
  · intro hno e he
    obtain ⟨g, hg, hlo, hhi⟩ := h.exists_held he
    have := hno g hg
    omega

end Granted

/-- In every state the threads can reach, a write or an append is granted at once exactly when the
range it takes meets no range that is held: it waits for no proxy that nobody needs. -/
theorem range_lock_writer_granted {file : Option ZrFile} {s : ZrState} {new : Rl}
    (hreach : Reach zrStep (fun s op => ZrOp.Allowed s op) (zrStart file) s)
    (hnew : Requested s.file new) (hwriter : new.rType ≠ .reader) :
    (∃ tree d, zfsRangeLock s.file s.tree new =
        some (.granted tree d (writerLock s.file new))) ↔
      ∀ g ∈ s.held, g.off + g.len ≤ (writerLock s.file new).rOff ∨
        (writerLock s.file new).rEnd ≤ g.off := by
  have hc := (good_of_reach hreach).consistent
  have hlock := hnew.writer.1
  rw [← hc.apart_iff hlock.off_lt_end, zfsRangeLock, if_neg hwriter, zfsRangeLockWriter]
  by_cases hnil : s.tree = []
  · simp [hnil]
  · rw [if_neg hnil]
    cases hconflict : writerConflict s.tree (writerLock s.file new) with
    | none => simpa using writerConflict_none hc.valid hc.apart hconflict
    | some rl =>
      obtain ⟨hmem, hlo, hhi⟩ := writerConflict_some hc.valid hc.apart hlock.pos hconflict
      refine iff_of_false (by simp) fun hno => ?_
      have := hno rl hmem
      omega

/-- A writer behind a reader does not wait. -/
theorem range_lock_writer_granted_behind :
    ∃ s : ZrState, s.held = {⟨1, 0, 10, .reader⟩} ∧ ∃ tree d lock,
      zfsRangeLock s.file s.tree (Rl.new 2 10 5 .writer) = some (.granted tree d lock) := by
  have hrun : Reach zrStep (fun s op => ZrOp.Allowed s op) (zrStart none) _ :=
    .next .start (a := .lock 1 0 10 .reader) ⟨by decide, by decide, by rintro ⟨⟩⟩ rfl
  have hnew : Requested none (Rl.new 2 10 5 .writer) := ⟨rfl, by decide, by decide, by rintro ⟨⟩⟩
  obtain ⟨tree, d, hgrant⟩ := (range_lock_writer_granted hrun hnew (by decide)).mpr (by decide)
  exact ⟨_, by decide, tree, d, _, hgrant⟩

end ClusterZfs

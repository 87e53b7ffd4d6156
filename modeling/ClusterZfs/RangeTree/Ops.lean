import ClusterZfs.RangeTree.Code
import ClusterZfs.Avl.Remove
import ClusterZfs.Avl.Destroy

/-! The operations of a range tree on the segments it holds. -/
namespace ClusterZfs

open AvlTree

/- The nodes of the tree in memory, their segments in order, and the two counters. -/
structure RangeTree.Holds (rt : RangeTree) (t : AvlTree Addr) : Prop where
  balanced : rt.rtRoot.Balanced t
  gapped : Gapped (t.toList.map rt.segs)
  space : rt.rtSpace = spaceOf (t.toList.map rt.segs)
  histogram : ∀ i, rt.rtHistogram i = bucketOf (t.toList.map rt.segs) i

section Compare

variable {r s : RangeSeg}

theorem segCompare_lt (hr : r.rsStart < r.rsEnd) :
    rangeTreeSegCompare r s = .lt ↔ r.rsEnd ≤ s.rsStart := by
  unfold rangeTreeSegCompare
  split_ifs <;> simp <;> omega

theorem segCompare_gt (hs : s.rsStart < s.rsEnd) :
    rangeTreeSegCompare r s = .gt ↔ s.rsEnd ≤ r.rsStart := by
  unfold rangeTreeSegCompare
  split_ifs <;> simp <;> omega

theorem segCompare_eq (hr : r.rsStart < r.rsEnd) (hs : s.rsStart < s.rsEnd) :
    rangeTreeSegCompare r s = .eq ↔ r.rsStart < s.rsEnd ∧ s.rsStart < r.rsEnd := by
  unfold rangeTreeSegCompare
  split_ifs <;> simp <;> omega

end Compare

section Ops

variable {rt : RangeTree} {t : AvlTree Addr} {start stop : Nat}

theorem RangeTree.Holds.seg_bounds (h : rt.Holds t) {a : Addr} (ha : a ∈ t.toList) :
    (rt.segs a).rsStart < (rt.segs a).rsEnd ∧ (rt.segs a).rsEnd < 2 ^ 64 :=
  h.gapped.bounds _ (List.mem_map_of_mem ha)

/-- The overlap comparison agrees with the order of the segments. -/
theorem RangeTree.Holds.splits (h : rt.Holds t) (hne : start < stop) :
    Splits (fun a => rangeTreeSegCompare ⟨start, stop⟩ (rt.segs a)) t.toList := by
  have hgaps := List.pairwise_map.mp h.gapped.gaps
  refine hgaps.imp_of_mem fun {a b} ha hb hgap => ?_
  have hab := h.seg_bounds ha
  have hbb := h.seg_bounds hb
  rw [segCompare_lt (by exact hne), segCompare_lt (by exact hne), segCompare_gt hab.1,
    segCompare_gt hbb.1]
  omega

/-- The search ends at a segment that overlaps the range, or between two that do not. -/
theorem RangeTree.Holds.search (h : rt.Holds t) (hne : start < stop) :
    (∃ bs a as, t.toList = bs ++ a :: as ∧ rt.search start stop = some (.found a) ∧
        start < (rt.segs a).rsEnd ∧ (rt.segs a).rsStart < stop) ∨
      ∃ ctx, t = plug ctx nil ∧ rt.search start stop = some (.missing (indexOf ctx)) ∧
        (∀ a ∈ before ctx, (rt.segs a).rsEnd ≤ start) ∧
        ∀ a ∈ after ctx, stop ≤ (rt.segs a).rsStart := by
  let cmp := fun a => rangeTreeSegCompare ⟨start, stop⟩ (rt.segs a)
  have hfind := avlFind_rep h.balanced.toHolds cmp
  have hplug := plug_locate cmp t []
  rcases hloc : locate cmp t [] with ⟨ctx, x⟩
  rw [hloc] at hfind hplug
  rw [plug] at hplug
  subst hplug
  cases x with
  | nil =>
    obtain ⟨hbefore, hafter⟩ :=
      locate_missing (h.splits hne) (by simp [before]) (by simp [after]) hloc
    refine .inr ⟨ctx, rfl, hfind, fun a ha => ?_, fun a ha => ?_⟩
    · have hmem : a ∈ (plug ctx nil).toList := by simp [toList_plug, ha]
      exact (segCompare_gt (h.seg_bounds hmem).1).mp (hbefore a ha)
    · exact (segCompare_lt (by exact hne)).mp (hafter a ha)
  | node l a b r =>
    have hmem : a ∈ (plug ctx (AvlTree.node l a b r)).toList := by simp [toList_plug_node]
    have heq := locate_found hloc
    have htouch := (segCompare_eq (by exact hne) (h.seg_bounds hmem).1).mp heq
    exact .inl ⟨_, a, _, toList_plug_node, hfind, htouch⟩

theorem not_covers_between {ctx : Ctx Addr} (hbefore : ∀ a ∈ before ctx, (rt.segs a).rsEnd ≤ start)
    (hafter : ∀ a ∈ after ctx, stop ≤ (rt.segs a).rsStart) {x : Nat} (hx : start ≤ x ∧ x < stop) :
    ¬ Covers ((plug ctx nil).toList.map rt.segs) x := by
  rintro ⟨s, hs, h1, h2⟩
  obtain ⟨c, hc, rfl⟩ := List.mem_map.mp hs
  rw [toList_plug_nil, List.mem_append] at hc
  rcases hc with hc | hc
  · exact absurd (hbefore c hc) (by omega)
  · exact absurd (hafter c hc) (by omega)

theorem map_splice {bs ms' as : List Addr} {rt' : RangeTree} {t' : AvlTree Addr}
    (hlist : t'.toList = bs ++ ms' ++ as)
    (hsegs : ∀ a, a ∈ bs ∨ a ∈ as → rt'.segs a = rt.segs a) :
    t'.toList.map rt'.segs = bs.map rt.segs ++ ms'.map rt'.segs ++ as.map rt.segs := by
  rw [hlist, List.map_append, List.map_append,
    List.map_congr_left fun a ha => hsegs a (.inl ha),
    List.map_congr_left fun a ha => hsegs a (.inr ha)]

theorem RangeTree.Holds.splice (h : rt.Holds t) {bs ms ms' as : List Addr} {rt' : RangeTree}
    {t' : AvlTree Addr} (hcut : t.toList = bs ++ ms ++ as) (hbal : rt'.rtRoot.Balanced t')
    (hlist : t'.toList = bs ++ ms' ++ as)
    (hsegs : ∀ a, a ∈ bs ∨ a ∈ as → rt'.segs a = rt.segs a)
    (hmid : Gapped (ms'.map rt'.segs))
    (hbefore : ∀ b ∈ bs, ∀ a ∈ ms', (rt.segs b).rsEnd < (rt'.segs a).rsStart)
    (hafter : ∀ a ∈ ms', ∀ c ∈ as, (rt'.segs a).rsEnd < (rt.segs c).rsStart)
    (hspace : rt.rtSpace + spaceOf (ms'.map rt'.segs) < 2 ^ 64 + spaceOf (ms.map rt.segs) →
      rt'.rtSpace + spaceOf (ms.map rt.segs) = rt.rtSpace + spaceOf (ms'.map rt'.segs))
    (hhist : ∀ i, bucketOf (ms.map rt.segs) i ≤ rt.rtHistogram i →
      rt'.rtHistogram i + bucketOf (ms.map rt.segs) i =
        rt.rtHistogram i + bucketOf (ms'.map rt'.segs) i) : rt'.Holds t' := by
  have hmap := map_splice hlist hsegs
  have hold : t.toList.map rt.segs = bs.map rt.segs ++ ms.map rt.segs ++ as.map rt.segs := by
    rw [hcut, List.map_append, List.map_append]
  have hgapped := h.gapped
  have hsp := h.space
  rw [hold] at hgapped hsp
  have hgapped' : Gapped (t'.toList.map rt'.segs) := by
    rw [hmap]
    exact hgapped.splice hmid (by simpa using hbefore) (by simpa using hafter)
  have hlt := spaceOf_lt hgapped'
  rw [hmap] at hlt
  simp only [spaceOf_append] at hsp hlt
  refine ⟨hbal, hgapped', ?_, fun i => ?_⟩
  · rw [hmap]
    simp only [spaceOf_append]
    omega
  · have hb := h.histogram i
    rw [hold] at hb
    rw [hmap]
    simp only [bucketOf_append] at hb ⊢
    have hi := hhist i (by omega)
    omega

theorem highbit64_sub_one (n : Nat) : highbit64 n - 1 = Nat.log2 n := by
  unfold highbit64
  split
  · next h => simp [h]
  · omega

theorem statIncr_histogram (rt : RangeTree) (a : Addr) (i : Nat) :
    (rt.statIncr a).rtHistogram i = rt.rtHistogram i + bucketOf [rt.segs a] i := by
  rw [RangeTree.statIncr, bucketOf_cons, bucketOf_nil, highbit64_sub_one]
  obtain rfl | h := eq_or_ne i (Nat.log2 (rt.segs a).size) <;> simp [*, Ne.symm]

theorem statDecr_histogram (rt : RangeTree) (a : Addr) (i : Nat) :
    (rt.statDecr a).rtHistogram i = rt.rtHistogram i - bucketOf [rt.segs a] i := by
  rw [RangeTree.statDecr, bucketOf_cons, bucketOf_nil, highbit64_sub_one]
  obtain rfl | h := eq_or_ne i (Nat.log2 (rt.segs a).size) <;> simp [*, Ne.symm]

theorem RangeTree.Holds.gaps (h : rt.Holds t) {bs as : List Addr} (hcut : t.toList = bs ++ as) :
    (∀ b ∈ bs, ∀ a ∈ as, (rt.segs b).rsEnd < (rt.segs a).rsStart) ∧
      bs.Pairwise (fun a b => (rt.segs a).rsEnd < (rt.segs b).rsStart) ∧
      as.Pairwise fun a b => (rt.segs a).rsEnd < (rt.segs b).rsStart := by
  have hgaps := List.pairwise_map.mp h.gapped.gaps
  rw [hcut] at hgaps
  obtain ⟨hfront, hback, hcross⟩ := List.pairwise_append.mp hgaps
  exact ⟨hcross, hfront, hback⟩

theorem RangeTree.Holds.gaps_around (h : rt.Holds t) {bs as : List Addr} {a : Addr}
    (hcut : t.toList = bs ++ [a] ++ as) :
    (∀ b ∈ bs, (rt.segs b).rsEnd < (rt.segs a).rsStart) ∧
      ∀ c ∈ as, (rt.segs a).rsEnd < (rt.segs c).rsStart := by
  have hcut' : t.toList = bs ++ ([a] ++ as) := by rw [hcut, List.append_assoc]
  exact ⟨fun b hb => (h.gaps hcut').1 b hb a (by simp), (h.gaps hcut).1 a (by simp)⟩

theorem AvlMem.Balanced.not_mem_around {root : AvlMem} (h : root.Balanced t) {bs as : List Addr}
    {a : Addr} (hcut : t.toList = bs ++ [a] ++ as) : a ∉ bs ++ as := by
  have hnodup := h.nodup
  rw [hcut, List.append_assoc] at hnodup
  exact (List.nodup_cons.mp (List.perm_middle.nodup_iff.mp hnodup)).1

/- Segments that end at or before `start`, of which the last does not end there. -/
theorem RangeTree.Holds.strict_before (h : rt.Holds t) {bs as : List Addr}
    (hcut : t.toList = bs ++ as) (hle : ∀ b ∈ bs, (rt.segs b).rsEnd ≤ start)
    (hlast : ∀ b, bs.reverse.head? = some b → (rt.segs b).rsEnd ≠ start) :
    ∀ b ∈ bs, (rt.segs b).rsEnd < start := by
  intro c hc
  rcases List.eq_nil_or_concat bs with rfl | ⟨bs, b, rfl⟩
  · cases hc
  · have hb := hle b (by simp)
    have hbne := hlast b (by simp)
    have hbb := (h.seg_bounds (a := b) (by simp [hcut])).1
    obtain ⟨-, hfront, -⟩ := h.gaps hcut
    rw [List.concat_eq_append] at hc hfront
    rcases List.mem_append.mp hc with hc | hc
    · have hgap := (List.pairwise_append.mp hfront).2.2 c hc b (by simp)
      omega
    · rw [List.mem_singleton.mp hc]
      omega

theorem RangeTree.Holds.strict_after (h : rt.Holds t) {bs as : List Addr}
    (hcut : t.toList = bs ++ as) (hle : ∀ a ∈ as, stop ≤ (rt.segs a).rsStart)
    (hhead : ∀ a, as.head? = some a → (rt.segs a).rsStart ≠ stop) :
    ∀ a ∈ as, stop < (rt.segs a).rsStart := by
  intro c hc
  cases as with
  | nil => cases hc
  | cons a as =>
    have ha := hle a (by simp)
    have hane := hhead a (by simp)
    have hab := (h.seg_bounds (a := a) (by simp [hcut])).1
    obtain ⟨-, -, hback⟩ := h.gaps hcut
    rcases List.mem_cons.mp hc with rfl | hc
    · omega
    · have hgap := (List.pairwise_cons.mp hback).1 c hc
      omega

theorem gapped_single {s : RangeSeg} (hne : s.rsStart < s.rsEnd) (hend : s.rsEnd < 2 ^ 64) :
    Gapped [s] := by
  refine ⟨fun t ht => ?_, List.pairwise_singleton _ _⟩
  rw [List.mem_singleton.mp ht]
  exact ⟨hne, hend⟩

@[simp] theorem setSeg_self (rt : RangeTree) (a : Addr) (s : RangeSeg) :
    (rt.setSeg a s).segs a = s := by
  simp [RangeTree.setSeg]

theorem setSeg_of_ne (rt : RangeTree) {a c : Addr} (hc : c ≠ a) (s : RangeSeg) :
    (rt.setSeg a s).segs c = rt.segs c := by
  simp [RangeTree.setSeg, hc]

theorem addDone_histogram (rt : RangeTree) (rs : Addr) (size i : Nat) :
    (rangeTreeAddDone rt rs size).rtHistogram i = rt.rtHistogram i + bucketOf [rt.segs rs] i :=
  statIncr_histogram rt rs i

section Add

variable {size : Nat} {bs as : List Addr} {rt' : RangeTree} {t' : AvlTree Addr}

theorem covers_more {ms ms' : List Addr} {Q : Nat → Prop} (hcut : t.toList = bs ++ ms ++ as)
    (hlist : t'.toList = bs ++ ms' ++ as) (hsegs : ∀ a, a ∈ bs ∨ a ∈ as → rt'.segs a = rt.segs a)
    (hmid : ∀ x, Covers (ms'.map rt'.segs) x ↔ Covers (ms.map rt.segs) x ∨ Q x) (x : Nat) :
    Covers (t'.toList.map rt'.segs) x ↔ Covers (t.toList.map rt.segs) x ∨ Q x := by
  rw [map_splice hlist hsegs, hcut]
  simp only [List.map_append, Covers_append, hmid]
  tauto

section

variable {b : Addr}

variable (h : rt.Holds t)
include h

theorem add_insert {new : Addr} {root : AvlMem}
    (hcut : t.toList = bs ++ [] ++ as) (hbal : root.Balanced t')
    (hlist : t'.toList = bs ++ [new] ++ as) (hnew : new ∉ t.toList) (hsize : 0 < size)
    (hstop : start + size < 2 ^ 64) (hbs : ∀ b ∈ bs, (rt.segs b).rsEnd < start)
    (has : ∀ a ∈ as, start + size < (rt.segs a).rsStart)
    (hrt' : rt' = rangeTreeAddDone
      { rt.setSeg new ⟨start, start + size⟩ with rtRoot := root } new size) :
    rt'.Holds t' ∧ ∀ x, Covers (t'.toList.map rt'.segs) x ↔
      Covers (t.toList.map rt.segs) x ∨ start ≤ x ∧ x < start + size := by
  have hroot : rt'.rtRoot = root := by rw [hrt']; rfl
  have hself : rt'.segs new = ⟨start, start + size⟩ := by rw [hrt']; exact setSeg_self rt new _
  have hsegs : ∀ a, a ∈ bs ∨ a ∈ as → rt'.segs a = rt.segs a := by
    intro a ha
    rw [hrt']
    refine setSeg_of_ne rt (fun heq => hnew ?_) _
    rw [hcut, ← heq]
    simpa using ha
  refine ⟨h.splice hcut (hroot ▸ hbal) hlist hsegs ?_ ?_ ?_ (fun hlt => ?_) (fun i _ => ?_),
    covers_more hcut hlist hsegs fun x => ?_⟩
  · rw [List.map_singleton, hself]
    exact gapped_single (Nat.lt_add_of_pos_right hsize) hstop
  · simpa [hself] using hbs
  · simpa [hself] using has
  · have hspace : rt'.rtSpace = (rt.rtSpace + size) % 2 ^ 64 := by rw [hrt']; rfl
    simp only [List.map_singleton, List.map_nil, hself, spaceOf_cons,
      RangeSeg.size] at hlt ⊢
    rw [hspace, Nat.mod_eq_of_lt (by omega)]
    omega
  · rw [List.map_singleton, hself, hrt', addDone_histogram]
    simp [RangeTree.setSeg]
  · simp [hself, RangeSeg.Mem]

theorem RangeTree.Holds.edit {s : RangeSeg}
    (hcut : t.toList = bs ++ [b] ++ as) (hne : s.rsStart < s.rsEnd) (hend : s.rsEnd < 2 ^ 64)
    (hbs : ∀ c ∈ bs, (rt.segs c).rsEnd < s.rsStart) (has : ∀ a ∈ as, s.rsEnd < (rt.segs a).rsStart)
    (hroot : rt'.rtRoot = rt.rtRoot) (hsegs : rt'.segs = Function.update rt.segs b s)
    (hspace : rt.rtSpace + s.size < 2 ^ 64 + (rt.segs b).size →
      rt'.rtSpace + (rt.segs b).size = rt.rtSpace + s.size)
    (hhist : ∀ i, rt'.rtHistogram i =
      rt.rtHistogram i - bucketOf [rt.segs b] i + bucketOf [s] i) :
    rt'.Holds t ∧ (∀ a, a ∈ bs ∨ a ∈ as → rt'.segs a = rt.segs a) ∧ rt'.segs b = s := by
  have hself : rt'.segs b = s := by rw [hsegs, Function.update_self]
  have hout := h.balanced.not_mem_around hcut
  have hother : ∀ a, a ∈ bs ∨ a ∈ as → rt'.segs a = rt.segs a := by
    intro a ha
    rw [hsegs]
    exact Function.update_of_ne (ne_of_mem_of_not_mem (List.mem_append.mpr ha) hout) _ _
  refine ⟨h.splice hcut (hroot ▸ h.balanced) hcut hother ?_ ?_ ?_ ?_ fun i hi => ?_, hother, hself⟩
  · rw [List.map_singleton, hself]
    exact gapped_single hne hend
  · simpa [hself] using hbs
  · simpa [hself] using has
  · simpa [hself] using hspace
  · have hi' := hhist i
    rw [List.map_singleton] at hi ⊢
    rw [List.map_singleton, hself]
    omega

theorem add_extend {s : RangeSeg} (hcut : t.toList = bs ++ [b] ++ as)
    (hs : s = { rt.segs b with rsEnd := start + size } ∧ (rt.segs b).rsEnd = start ∨
      s = { rt.segs b with rsStart := start } ∧ (rt.segs b).rsStart = start + size)
    (hend : s.rsEnd < 2 ^ 64) (hbs : ∀ c ∈ bs, (rt.segs c).rsEnd < s.rsStart)
    (has : ∀ c ∈ as, s.rsEnd < (rt.segs c).rsStart)
    (hrt' : rt' = rangeTreeAddDone ((rt.statDecr b).setSeg b s) b size) :
    rt'.Holds t ∧ ∀ x, Covers (t.toList.map rt'.segs) x ↔
      Covers (t.toList.map rt.segs) x ∨ start ≤ x ∧ x < start + size := by
  have hb := (h.seg_bounds (a := b) (by simp [hcut])).1
  have hmore : s.rsStart < s.rsEnd ∧ s.size = (rt.segs b).size + size ∧
      ∀ x, s.Mem x ↔ (rt.segs b).Mem x ∨ start ≤ x ∧ x < start + size := by
    rcases hs with ⟨rfl, htouch⟩ | ⟨rfl, htouch⟩ <;> simp only [RangeSeg.size, RangeSeg.Mem] <;>
      exact ⟨by omega, by omega, fun x => by omega⟩
  obtain ⟨hne, hsum, hmem⟩ := hmore
  have hspace : rt'.rtSpace = (rt.rtSpace + size) % 2 ^ 64 := by rw [hrt']; rfl
  have hhist : ∀ i, rt'.rtHistogram i =
      rt.rtHistogram i - bucketOf [rt.segs b] i + bucketOf [s] i := by
    intro i
    rw [hrt', addDone_histogram, setSeg_self, ← statDecr_histogram rt b i]
    rfl
  obtain ⟨hholds, hsegs, hself⟩ : rt'.Holds t ∧ _ ∧ _ := h.edit hcut hne hend hbs has
    (by rw [hrt']; rfl) (by rw [hrt']; rfl) (fun hlt => by
      rw [hspace, Nat.mod_eq_of_lt (by omega)]
      omega) hhist
  refine ⟨hholds, covers_more hcut hcut hsegs fun x => ?_⟩
  simp only [List.map_singleton, hself, Covers_cons, Covers_nil, or_false, hmem]

theorem add_mergeBoth {a : Addr} {root : AvlMem}
    (hcut : t.toList = bs ++ [b, a] ++ as) (hbal : root.Balanced t')
    (hlist : t'.toList = bs ++ [a] ++ as) (hb : (rt.segs b).rsEnd = start)
    (ha : (rt.segs a).rsStart = start + size)
    (hrt' : rt' = rangeTreeAddDone
      (RangeTree.setSeg (({ rt with rtRoot := root }.statDecr b).statDecr a) a
        { rt.segs a with rsStart := (rt.segs b).rsStart }) a size) :
    rt'.Holds t' ∧ ∀ x, Covers (t'.toList.map rt'.segs) x ↔
      Covers (t.toList.map rt.segs) x ∨ start ≤ x ∧ x < start + size := by
  have hbb := h.seg_bounds (a := b) (by simp [hcut])
  have hab := h.seg_bounds (a := a) (by simp [hcut])
  have hroot : rt'.rtRoot = root := by rw [hrt']; rfl
  have hself : rt'.segs a = { rt.segs a with rsStart := (rt.segs b).rsStart } := by
    rw [hrt']
    exact setSeg_self _ a _
  have hout := hbal.not_mem_around hlist
  have hsegs : ∀ c, c ∈ bs ∨ c ∈ as → rt'.segs c = rt.segs c := by
    intro c hc
    rw [hrt']
    exact setSeg_of_ne _ (ne_of_mem_of_not_mem (List.mem_append.mpr hc) hout) _
  have hcut' : t.toList = bs ++ ([b, a] ++ as) := by rw [hcut, List.append_assoc]
  refine ⟨h.splice hcut (hroot ▸ hbal) hlist hsegs ?_ ?_ ?_ (fun hlt => ?_) (fun i hi => ?_),
    covers_more hcut hlist hsegs fun x => ?_⟩
  · rw [List.map_singleton, hself]
    exact gapped_single (by dsimp only; omega) hab.2
  · intro c hc c' hc'
    rw [List.mem_singleton.mp hc', hself]
    exact (h.gaps hcut').1 c hc b (by simp)
  · intro c hc c' hc'
    rw [List.mem_singleton.mp hc, hself]
    exact (h.gaps hcut).1 a (by simp) c' hc'
  · have hspace : rt'.rtSpace = (rt.rtSpace + size) % 2 ^ 64 := by rw [hrt']; rfl
    simp only [List.map_cons, List.map_nil, hself, spaceOf_cons,
      RangeSeg.size] at hlt ⊢
    rw [hspace, Nat.mod_eq_of_lt (by omega)]
    omega
  · have hhist : rt'.rtHistogram i = rt.rtHistogram i - bucketOf [rt.segs b] i -
        bucketOf [rt.segs a] i + bucketOf [rt'.segs a] i := by
      rw [hself, hrt', addDone_histogram, setSeg_self]
      congr 1
      exact (statDecr_histogram _ a i).trans
        (congrArg (· - bucketOf [rt.segs a] i) (statDecr_histogram { rt with rtRoot := root } b i))
    have hsum : bucketOf [rt.segs b, rt.segs a] i =
        bucketOf [rt.segs b] i + bucketOf [rt.segs a] i :=
      bucketOf_append (B := [rt.segs b])
    simp only [List.map_cons, List.map_nil] at hi ⊢
    omega
  · simp only [List.map_cons, List.map_nil, hself, Covers_cons, Covers_nil, RangeSeg.Mem, or_false]
    omega

end

theorem mem_ne_zero {heap : Addr → AvlNode} {p root c : Addr} {d : Bool} {t : AvlTree Addr}
    (h : Rep heap p d root t) (hc : c ∈ t.toList) : c ≠ 0#64 := by
  obtain ⟨ctx, l, b, r, rfl⟩ := exists_position hc
  obtain ⟨hole, p', d', hrep, -⟩ := Rep_plug.mp h
  exact hrep.2.1

/- An address that the tree does not use. -/
def Unused (t : AvlTree Addr) (a : Addr) : Prop := a ≠ 0#64 ∧ Aligned a ∧ a ∉ t.toList

theorem Unused.mono {a : Addr} (h : Unused t a) (hsub : ∀ c ∈ t'.toList, c ∈ t.toList) :
    Unused t' a :=
  ⟨h.1, h.2.1, fun hm => h.2.2 (hsub _ hm)⟩

theorem nearest_before {ctx : Ctx Addr} (h : rt.rtRoot.Balanced (plug ctx nil)) :
    ∃ r, avlNearest rt.rtRoot (indexOf ctx) false = some r ∧
      (r ≠ 0#64 → ∃ bs, before ctx = bs ++ [r]) ∧
      ∀ b, (before ctx).reverse.head? = some b → r = b ∧ r ≠ 0#64 := by
  refine ⟨_, avlNearest_rep h.toHolds false, ?_⟩
  rcases List.eq_nil_or_concat (before ctx) with hnil | ⟨bs, b, hcat⟩
  · simp [beyond, hnil]
  · rw [List.concat_eq_append] at hcat
    have hb : b ≠ 0#64 := mem_ne_zero h.rep (by simp [toList_plug, hcat])
    simp [beyond, hcat, hb]

theorem nearest_after {ctx : Ctx Addr} (h : rt.rtRoot.Balanced (plug ctx nil)) :
    ∃ r, avlNearest rt.rtRoot (indexOf ctx) true = some r ∧
      (r ≠ 0#64 → ∃ as, after ctx = r :: as) ∧
      ∀ a, (after ctx).head? = some a → r = a ∧ r ≠ 0#64 := by
  refine ⟨_, avlNearest_rep h.toHolds true, ?_⟩
  cases hcat : after ctx with
  | nil => simp [beyond, hcat]
  | cons a as =>
    have ha : a ≠ 0#64 := mem_ne_zero h.rep (by simp [toList_plug, hcat])
    simp [beyond, hcat, ha]

variable (start size) in
theorem rangeTreeAdd_holds (h : rt.Holds t) {new tmp : Addr} (hnew : Unused t new)
    (htmp : Unused t tmp) (hsize : 0 < size) (hstop : start + size < 2 ^ 64)
    (hdisj : ∀ x, start ≤ x → x < start + size → ¬ Covers (t.toList.map rt.segs) x) :
    ∃ rt' t', rangeTreeAdd rt new tmp start size = some rt' ∧ rt'.Holds t' ∧
      ∀ x, Covers (t'.toList.map rt'.segs) x ↔
        Covers (t.toList.map rt.segs) x ∨ start ≤ x ∧ x < start + size := by
  obtain ⟨hnew0, hnewal, hnewout⟩ := hnew
  obtain ⟨htmp0, htmpal, htmpout⟩ := htmp
  have hmod : uint64 (start + size) = start + size := Nat.mod_eq_of_lt hstop
  have hne : start < start + size := Nat.lt_add_of_pos_right hsize
  rw [rangeTreeAdd, hmod]
  simp only [if_neg hsize.ne']
  rcases h.search hne with ⟨bs, a, as, hcut, -, hlt, hgt⟩ | ⟨ctx, rfl, hfind, hbefore, hafter⟩
  · -- a segment that overlaps covers a place of the range
    have hmem : a ∈ t.toList := by simp [hcut]
    have hb := h.seg_bounds hmem
    refine absurd ⟨rt.segs a, List.mem_map_of_mem hmem, ?_⟩
      (hdisj (max start (rt.segs a).rsStart) (by omega) (by omega))
    exact ⟨by omega, by omega⟩
  · have hcut := toList_plug_nil ctx
    obtain ⟨rb, hrb, hrbcut, hrblast⟩ := nearest_before h.balanced
    obtain ⟨ra, hra, hracut, hrahead⟩ := nearest_after h.balanced
    rw [hfind, Option.bind_some]
    simp only [hrb, hra, Option.bind_some]
    have hstrictb : ¬ (rb ≠ 0#64 ∧ (rt.segs rb).rsEnd = start) →
        ∀ b ∈ before ctx, (rt.segs b).rsEnd < start := fun hno =>
      h.strict_before hcut hbefore fun b hb heq => by
        obtain ⟨rfl, hb0⟩ := hrblast b hb
        exact hno ⟨hb0, heq⟩
    have hstricta : ¬ (ra ≠ 0#64 ∧ (rt.segs ra).rsStart = start + size) →
        ∀ a ∈ after ctx, start + size < (rt.segs a).rsStart := fun hno =>
      h.strict_after hcut hafter fun a ha heq => by
        obtain ⟨rfl, ha0⟩ := hrahead a ha
        exact hno ⟨ha0, heq⟩
    by_cases hmb : rb ≠ 0#64 ∧ (rt.segs rb).rsEnd = start
    · obtain ⟨bs, hbs⟩ := hrbcut hmb.1
      by_cases hma : ra ≠ 0#64 ∧ (rt.segs ra).rsStart = start + size
      · obtain ⟨as, has⟩ := hracut hma.1
        rw [if_pos ⟨hmb, hma⟩]
        have hcut₁ : (plug ctx nil).toList = bs ++ rb :: (ra :: as) := by simp [hcut, hbs, has]
        obtain ⟨root, t', hrun, hbal, hlist⟩ :=
          avlRemove_list h.balanced hcut₁ htmp0 htmpal htmpout
        have hcut₂ : (plug ctx nil).toList = bs ++ [rb, ra] ++ as := by simp [hcut₁]
        rw [hrun]
        exact ⟨_, t', rfl, add_mergeBoth h hcut₂ hbal (by simp [hlist]) hmb.2 hma.2 rfl⟩
      · rw [if_neg fun hboth => hma hboth.2, if_pos hmb]
        have hcut₁ : (plug ctx nil).toList = bs ++ [rb] ++ after ctx := by simp [hcut, hbs]
        exact ⟨_, _, rfl, add_extend h hcut₁ (.inl ⟨rfl, hmb.2⟩) hstop (h.gaps_around hcut₁).1
          (hstricta hma) rfl⟩
    · rw [if_neg fun hboth => hmb hboth.1, if_neg hmb]
      by_cases hma : ra ≠ 0#64 ∧ (rt.segs ra).rsStart = start + size
      · obtain ⟨as, has⟩ := hracut hma.1
        rw [if_pos hma]
        have hcut₁ : (plug ctx nil).toList = before ctx ++ [ra] ++ as := by simp [hcut, has]
        exact ⟨_, _, rfl, add_extend h hcut₁ (.inr ⟨rfl, hma.2⟩)
          (h.seg_bounds (by simp [hcut₁])).2 (hstrictb hmb) (h.gaps_around hcut₁).2 rfl⟩
      · rw [if_neg hma]
        obtain ⟨root, t', hrun, hbal, hlist⟩ := avlInsert_balanced h.balanced hnew0 hnewal hnewout
        have hroot : (rt.setSeg new ⟨start, start + size⟩).rtRoot = rt.rtRoot := rfl
        have hcut₁ : (plug ctx nil).toList = before ctx ++ [] ++ after ctx := by simp [hcut]
        rw [hroot, hrun]
        exact ⟨_, t', rfl, add_insert h hcut₁ hbal (by simp [hlist]) hnewout hsize hstop
          (hstrictb hmb) (hstricta hma) rfl⟩

end Add

section Remove

variable {size : Nat} {bs as : List Addr} {rt' : RangeTree} {t' : AvlTree Addr} {a : Addr}

section

variable (h : rt.Holds t)
include h

section

variable (hcut : t.toList = bs ++ [a] ++ as)
include hcut

theorem covers_less {ms : List Addr}
    (hlist : t'.toList = bs ++ ms ++ as) (hsegs : ∀ c, c ∈ bs ∨ c ∈ as → rt'.segs c = rt.segs c)
    (hin : (rt.segs a).rsStart ≤ start ∧ stop ≤ (rt.segs a).rsEnd)
    (hmid : ∀ x, Covers (ms.map rt'.segs) x ↔ (rt.segs a).Mem x ∧ ¬ (start ≤ x ∧ x < stop))
    (x : Nat) :
    Covers (t'.toList.map rt'.segs) x ↔
      Covers (t.toList.map rt.segs) x ∧ ¬ (start ≤ x ∧ x < stop) := by
  rw [map_splice hlist hsegs, hcut]
  have hout : Covers (bs.map rt.segs) x ∨ Covers (as.map rt.segs) x →
      ¬ (start ≤ x ∧ x < stop) := by
    rintro (⟨s, hs, hx⟩ | ⟨s, hs, hx⟩) hrange <;> obtain ⟨c, hc, rfl⟩ := List.mem_map.mp hs
    · have hgap := (h.gaps_around hcut).1 c hc
      have := hx.2
      omega
    · have hgap := (h.gaps_around hcut).2 c hc
      have := hx.1
      omega
  simp only [List.map_append, Covers_append, hmid, List.map_singleton, Covers_cons, Covers_nil]
  tauto

theorem remove_cut {s : RangeSeg}
    (hsize : 0 < size) (hin : (rt.segs a).rsStart ≤ start ∧ start + size ≤ (rt.segs a).rsEnd)
    (hs : s = { rt.segs a with rsEnd := start } ∧ (rt.segs a).rsEnd = start + size ∧
        (rt.segs a).rsStart ≠ start ∨
      s = { rt.segs a with rsStart := start + size } ∧ (rt.segs a).rsStart = start ∧
        (rt.segs a).rsEnd ≠ start + size)
    (hrt' : rt' = { ((rt.statDecr a).setSeg a s).statIncr a with
      rtSpace := rt.rtSpace - size }) (hspace : size ≤ rt.rtSpace) :
    rt'.Holds t ∧ ∀ x, Covers (t.toList.map rt'.segs) x ↔
      Covers (t.toList.map rt.segs) x ∧ ¬ (start ≤ x ∧ x < start + size) := by
  have ha := h.seg_bounds (a := a) (by simp [hcut])
  have hsegs : (rt.segs a).rsStart ≤ s.rsStart ∧ s.rsStart < s.rsEnd ∧
      s.rsEnd ≤ (rt.segs a).rsEnd ∧ s.size + size = (rt.segs a).size ∧
      ∀ x, s.Mem x ↔ (rt.segs a).Mem x ∧ ¬ (start ≤ x ∧ x < start + size) := by
    rcases hs with ⟨rfl, hend, hstart⟩ | ⟨rfl, hstart, hend⟩ <;>
      simp only [RangeSeg.size, RangeSeg.Mem] <;>
      exact ⟨by omega, by omega, by omega, by omega, fun x => by omega⟩
  obtain ⟨hlo, hne, hhi, hsum, hmem⟩ := hsegs
  have hhist : ∀ i, rt'.rtHistogram i =
      rt.rtHistogram i - bucketOf [rt.segs a] i + bucketOf [s] i := by
    intro i
    rw [hrt']
    change (((rt.statDecr a).setSeg a s).statIncr a).rtHistogram i = _
    rw [statIncr_histogram, setSeg_self, ← statDecr_histogram rt a i]
    rfl
  have hsp : rt'.rtSpace = rt.rtSpace - size := by rw [hrt']
  obtain ⟨hholds, hother, hself⟩ : rt'.Holds t ∧ _ ∧ _ := h.edit hcut hne (by omega)
    (fun c hc => lt_of_lt_of_le ((h.gaps_around hcut).1 c hc) hlo)
    (fun c hc => lt_of_le_of_lt hhi ((h.gaps_around hcut).2 c hc))
    (by rw [hrt']; rfl) (by rw [hrt']; rfl) (fun _ => by omega) hhist
  refine ⟨hholds, covers_less h hcut hcut hother hin fun x => ?_⟩
  simp only [List.map_singleton, hself, Covers_cons, Covers_nil, or_false, hmem]

theorem remove_all {root : AvlMem}
    (hbal : root.Balanced t') (hlist : t'.toList = bs ++ [] ++ as)
    (heq : (rt.segs a).rsStart = start ∧ (rt.segs a).rsEnd = start + size)
    (hrt' : rt' = { rt.statDecr a with rtRoot := root, rtSpace := rt.rtSpace - size })
    (hspace : size ≤ rt.rtSpace) :
    rt'.Holds t' ∧ ∀ x, Covers (t'.toList.map rt'.segs) x ↔
      Covers (t.toList.map rt.segs) x ∧ ¬ (start ≤ x ∧ x < start + size) := by
  have hsegs : rt'.segs = rt.segs := by rw [hrt']; rfl
  have hroot : rt'.rtRoot = root := by rw [hrt']
  have hsp : rt'.rtSpace = rt.rtSpace - size := by rw [hrt']
  have hother : ∀ c, c ∈ bs ∨ c ∈ as → rt'.segs c = rt.segs c := fun c _ => by rw [hsegs]
  refine ⟨h.splice hcut (hroot ▸ hbal) hlist hother ?_ (by simp) (by simp) (fun _ => ?_)
    (fun i hi => ?_), covers_less h hcut hlist hother ⟨heq.1.le, heq.2.ge⟩ fun x => ?_⟩
  · exact ⟨nofun, .nil⟩
  · simp only [List.map_singleton, List.map_nil, spaceOf_cons, RangeSeg.size]
    omega
  · have hhist : rt'.rtHistogram i = rt.rtHistogram i - bucketOf [rt.segs a] i := by
      rw [hrt', ← statDecr_histogram rt a i]
    rw [List.map_singleton] at hi ⊢
    rw [List.map_nil, bucketOf_nil, hhist]
    omega
  · simp only [List.map_nil, Covers_nil, RangeSeg.Mem, false_iff]
    omega

theorem remove_split {new : Addr} {root : AvlMem} (hbal : root.Balanced t')
    (hlist : t'.toList = bs ++ [a, new] ++ as) (hsize : 0 < size) (hnew : new ∉ t.toList)
    (hin : (rt.segs a).rsStart < start ∧ start + size < (rt.segs a).rsEnd)
    (hrt' : rt' = { RangeTree.statIncr { (((rt.statDecr a).setSeg new
        ⟨start + size, (rt.segs a).rsEnd⟩).statIncr new).setSeg a
          { rt.segs a with rsEnd := start } with rtRoot := root } a with
      rtSpace := rt.rtSpace - size })
    (hspace : size ≤ rt.rtSpace) :
    rt'.Holds t' ∧ ∀ x, Covers (t'.toList.map rt'.segs) x ↔
      Covers (t.toList.map rt.segs) x ∧ ¬ (start ≤ x ∧ x < start + size) := by
  have ha := h.seg_bounds (a := a) (by simp [hcut])
  have hane : new ≠ a := fun heq => hnew (by simp [hcut, heq])
  have hsegs : rt'.segs = Function.update (Function.update rt.segs new
      ⟨start + size, (rt.segs a).rsEnd⟩) a { rt.segs a with rsEnd := start } := by
    rw [hrt']
    rfl
  have hself : rt'.segs a = { rt.segs a with rsEnd := start } := by
    rw [hsegs, Function.update_self]
  have hnewseg : rt'.segs new = ⟨start + size, (rt.segs a).rsEnd⟩ := by
    rw [hsegs, Function.update_of_ne hane, Function.update_self]
  have hroot : rt'.rtRoot = root := by rw [hrt']; rfl
  have hsp : rt'.rtSpace = rt.rtSpace - size := by rw [hrt']
  have hout := h.balanced.not_mem_around hcut
  have hother : ∀ c, c ∈ bs ∨ c ∈ as → rt'.segs c = rt.segs c := by
    intro c hc
    have hcnew : c ≠ new := fun heq => hnew (by rw [hcut, ← heq]; simp; tauto)
    rw [hsegs, Function.update_of_ne (ne_of_mem_of_not_mem (List.mem_append.mpr hc) hout),
      Function.update_of_ne hcnew]
  refine ⟨h.splice hcut (hroot ▸ hbal) hlist hother ?_ ?_ ?_ (fun _ => ?_) (fun i hi => ?_),
    covers_less h hcut hlist hother ⟨hin.1.le, hin.2.le⟩ fun x => ?_⟩
  · rw [List.map_cons, List.map_singleton, hself, hnewseg]
    refine ⟨fun s hs => ?_, by simpa using hsize⟩
    rcases List.mem_pair.mp hs with rfl | rfl
    · exact ⟨hin.1, by dsimp only; omega⟩
    · exact ⟨hin.2, ha.2⟩
  · intro c hc
    have hgap := (h.gaps_around hcut).1 c hc
    simp only [List.forall_mem_cons, hself, hnewseg]
    exact ⟨hgap, by omega, nofun⟩
  · have hgap := (h.gaps_around hcut).2
    simp only [List.forall_mem_cons, hself, hnewseg]
    exact ⟨fun c hc => by have := hgap c hc; omega, hgap, nofun⟩
  · simp only [List.map_cons, List.map_nil, hself, hnewseg, spaceOf_cons,
      RangeSeg.size]
    omega
  · have hhist : rt'.rtHistogram i = rt.rtHistogram i - bucketOf [rt.segs a] i +
        bucketOf [rt'.segs new] i + bucketOf [rt'.segs a] i := by
      rw [hnewseg, hself, hrt']
      refine (statIncr_histogram _ a i).trans (congrArg₂ (· + ·) ?_ ?_)
      · refine (statIncr_histogram ((rt.statDecr a).setSeg new ⟨start + size, (rt.segs a).rsEnd⟩)
          new i).trans (congrArg₂ (· + ·) ?_ ?_)
        · exact statDecr_histogram rt a i
        · rw [setSeg_self]
      · rw [show (({ (((rt.statDecr a).setSeg new ⟨start + size, (rt.segs a).rsEnd⟩).statIncr
          new).setSeg a { rt.segs a with rsEnd := start } with rtRoot := root } :
          RangeTree).segs a) = { rt.segs a with rsEnd := start } from setSeg_self _ a _]
    have hsum : bucketOf [rt'.segs a, rt'.segs new] i =
        bucketOf [rt'.segs a] i + bucketOf [rt'.segs new] i :=
      bucketOf_append (B := [rt'.segs a])
    simp only [List.map_cons, List.map_nil] at hi ⊢
    omega
  · simp only [List.map_cons, List.map_nil, hself, hnewseg, Covers_cons, Covers_nil, RangeSeg.Mem,
      or_false]
    omega

end

theorem RangeTree.Holds.size_le (ha : a ∈ t.toList)
    (hin : (rt.segs a).rsStart ≤ start ∧ start + size ≤ (rt.segs a).rsEnd) :
    size ≤ rt.rtSpace := by
  obtain ⟨bs, as, hcut⟩ := List.append_of_mem ha
  rw [h.space, hcut]
  simp only [List.map_append, List.map_cons, spaceOf_append, spaceOf_cons, RangeSeg.size]
  omega

end

variable (start size) in
theorem rangeTreeRemove_holds (h : rt.Holds t) {new tmp : Addr} (hnew : Unused t new)
    (htmp : Unused t tmp) (hsize : 0 < size) (hstop : start + size < 2 ^ 64)
    (hcov : ∀ x, start ≤ x → x < start + size → Covers (t.toList.map rt.segs) x) :
    ∃ rt' t', rangeTreeRemove rt new tmp start size = some rt' ∧ rt'.Holds t' ∧
      (∀ x, Covers (t'.toList.map rt'.segs) x ↔
        Covers (t.toList.map rt.segs) x ∧ ¬ (start ≤ x ∧ x < start + size)) ∧
      ((∀ c ∈ t'.toList, c ∈ t.toList) ∨ ∃ a ∈ t.toList,
        (rt.segs a).rsStart < start ∧ start + size < (rt.segs a).rsEnd) := by
  obtain ⟨hnew0, hnewal, hnewout⟩ := hnew
  obtain ⟨htmp0, htmpal, htmpout⟩ := htmp
  have hmod : uint64 (start + size) = start + size := Nat.mod_eq_of_lt hstop
  have hne : start < start + size := Nat.lt_add_of_pos_right hsize
  rcases h.search hne with ⟨bs, a, as, hcut, hfind, hlt, hgt⟩ | ⟨ctx, rfl, -, hbefore, hafter⟩
  · have hmem : a ∈ t.toList := by simp [hcut]
    have hcut₁ : t.toList = bs ++ [a] ++ as := by simp [hcut]
    have hmap : t.toList.map rt.segs = bs.map rt.segs ++ [rt.segs a] ++ as.map rt.segs := by
      simp [hcut]
    have hgapped := h.gapped
    rw [hmap] at hgapped hcov
    have hin := hgapped.contains hcov ⟨hlt, hgt⟩
    have hspace := h.size_le hmem hin
    rw [rangeTreeRemove, hmod]
    simp only [hfind, Option.bind_some]
    rw [if_neg (by omega), if_neg (by simpa using hin)]
    by_cases hl : (rt.segs a).rsStart = start
    · rw [if_neg (by simp [hl]), if_neg (by simp [hl])]
      by_cases hr : (rt.segs a).rsEnd = start + size
      · rw [if_neg (by simp [hr])]
        obtain ⟨root, t', hrun, hbal, hlist⟩ :=
          avlRemove_list h.balanced hcut htmp0 htmpal htmpout
        have hroot : (rt.statDecr a).rtRoot = rt.rtRoot := rfl
        rw [hroot, hrun]
        obtain ⟨hholds, hcovers⟩ :=
          remove_all h hcut₁ hbal (by simp [hlist]) ⟨hl, hr⟩ rfl hspace
        refine ⟨_, t', rfl, hholds, hcovers, .inl fun c hc => ?_⟩
        rw [hlist] at hc
        rw [hcut]
        exact (List.Sublist.append_left (List.sublist_cons_self _ _) _).subset hc
      · rw [if_pos (by simpa using hr)]
        obtain ⟨hholds, hcovers⟩ :=
          remove_cut h hcut₁ hsize hin (.inr ⟨rfl, hl, hr⟩) rfl hspace
        exact ⟨_, t, rfl, hholds, hcovers, .inl fun c hc => hc⟩
    · by_cases hr : (rt.segs a).rsEnd = start + size
      · rw [if_neg (by simp [hr]), if_pos (by simpa using hl)]
        obtain ⟨hholds, hcovers⟩ :=
          remove_cut h hcut₁ hsize hin (.inl ⟨rfl, hr, hl⟩) rfl hspace
        exact ⟨_, t, rfl, hholds, hcovers, .inl fun c hc => hc⟩
      · rw [if_pos ⟨hl, hr⟩]
        obtain ⟨root, t', hrun, hbal, hlist⟩ :=
          avlInsertHere_list true h.balanced hcut hnew0 hnewal hnewout
        have hroot : ∀ s s', ((((rt.statDecr a).setSeg new s).statIncr new).setSeg a s').rtRoot =
            rt.rtRoot := fun _ _ => rfl
        have hkeep : ∀ s, (((rt.statDecr a).setSeg new s).statIncr new).segs a = rt.segs a :=
          fun s => setSeg_of_ne _ (fun heq => hnewout (by rw [← heq]; exact hmem)) s
        have hinner : (rt.segs a).rsStart < start ∧ start + size < (rt.segs a).rsEnd :=
          ⟨by omega, by omega⟩
        obtain ⟨hholds, hcovers⟩ := remove_split h hcut₁ hbal (by simpa using hlist) hsize hnewout
          hinner rfl hspace
        rw [hroot, hrun, hkeep]
        exact ⟨_, t', rfl, hholds, hcovers, .inr ⟨a, hmem, hinner⟩⟩
  · -- nothing is found although the start is covered
    exact absurd (hcov start le_rfl hne) (not_covers_between hbefore hafter ⟨le_rfl, hne⟩)

end Remove

theorem rangeTreeVacate_holds (h : rt.Holds t) :
    ∃ rt', rangeTreeVacate rt =
        some ((postorder t).map fun rs => ((rt.segs rs).rsStart, (rt.segs rs).size), rt') ∧
      rt'.Holds nil := by
  obtain ⟨root, hrun, hroot, hnum⟩ := avlDestroyAll_rep h.balanced
  rw [rangeTreeVacate, hrun]
  exact ⟨_, rfl, ⟨⟨hroot, List.nodup_nil, hnum⟩, trivial⟩, ⟨nofun, .nil⟩, rfl, fun _ => rfl⟩

end Ops

end ClusterZfs

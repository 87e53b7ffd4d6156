import ClusterZfs.Raidz.Map
import Mathlib.Data.List.GetD

/-! Which columns the general reconstruction reads: the first parity columns that are not
targets, and the data columns that are not missing. Lists are read with a default, as the
source indexes arrays that are known to be long enough. -/
namespace ClusterZfs

variable {l : List Nat}

/- The first parity columns that are not targets; `c` is the next candidate. The fuel bounds
the passes of the loop: each of them uses up a target or a missing row. -/
def parityMap : Nat → List Nat → Nat → Nat → List Nat
  | 0, _, _, _ => []
  | _ + 1, _, _, 0 => []
  | fuel + 1, [], c, need + 1 => c :: parityMap fuel [] (c + 1) need
  | fuel + 1, t :: tgts, c, need + 1 =>
    if c = t then parityMap fuel tgts (c + 1) (need + 1)
    else c :: parityMap fuel (t :: tgts) (c + 1) need

/- The surviving data columns; `tt` walks along the missing rows. -/
def usedData (rm : RaidzMap) (missing : List Nat) : List Nat :=
  (forRange rm.rmFirstdatacol rm.rmCols (fun c (st : Nat × List Nat) =>
    if st.1 < missing.length ∧ c = missing.getD st.1 0 + rm.rmFirstdatacol then (st.1 + 1, st.2)
    else (st.1, st.2 ++ [c])) (0, [])).2

/- What the choice of parity columns returns: `need` of them in order, none a target. -/
structure ParityChoice (tgts : List Nat) (bound c need : Nat) (chosen : List Nat) : Prop where
  length : chosen.length = need
  sorted : chosen.Pairwise (· < ·)
  mem : ∀ e ∈ chosen, c ≤ e ∧ e < bound ∧ e ∉ tgts

theorem ParityChoice.take {tgts chosen : List Nat} {bound c need : Nat}
    (h : ParityChoice tgts bound (c + 1) need chosen) (hc : c < bound) (hmem : c ∉ tgts) :
    ParityChoice tgts bound c (need + 1) (c :: chosen) := by
  constructor
  · rw [List.length_cons, h.length]
  · rw [List.pairwise_cons]
    exact ⟨fun e he => (h.mem e he).1, h.sorted⟩
  · intro e he
    rcases List.mem_cons.mp he with rfl | he
    · exact ⟨Nat.le_refl e, hc, hmem⟩
    · obtain ⟨hle, hlt, hnot⟩ := h.mem e he
      exact ⟨by omega, hlt, hnot⟩

theorem parityMap_choice {fuel bound c need : Nat} {tgts : List Nat}
    (enough : need + tgts.length ≤ fuel) (sorted : tgts.Pairwise (· < ·))
    (above : ∀ t ∈ tgts, c ≤ t)
    (room : c + need + (tgts.filter (fun t => t < bound)).length ≤ bound) :
    ParityChoice tgts bound c need (parityMap fuel tgts c need) := by
  induction fuel generalizing tgts c need with
  | zero =>
    have hz : need = 0 := by omega
    subst hz
    exact ⟨rfl, .nil, nofun⟩
  | succ fuel ih =>
    match need, tgts with
    | 0, _ => exact ⟨rfl, .nil, nofun⟩
    | need + 1, [] =>
      simp only [List.length_nil, List.filter_nil] at enough room
      refine ParityChoice.take (ih ?_ .nil nofun ?_) (by omega) List.not_mem_nil
      all_goals simp only [List.filter_nil, List.length_nil]; omega
    | need + 1, t :: rest =>
      obtain ⟨hlt, hrest⟩ := List.pairwise_cons.mp sorted
      have hct := above t List.mem_cons_self
      rw [List.length_cons] at enough
      by_cases heq : c = t
      · -- a target is skipped, and leaves the room it took
        subst heq
        have hcb : c < bound := by omega
        rw [List.filter_cons_of_pos (by simpa using hcb), List.length_cons] at room
        have hrec : ParityChoice rest bound (c + 1) (need + 1)
            (parityMap fuel rest (c + 1) (need + 1)) :=
          ih (by omega) hrest (fun t ht => hlt t ht) (by omega)
        simp only [parityMap, if_true]
        exact ⟨hrec.length, hrec.sorted, fun e he => by
          obtain ⟨hle, hb, hnot⟩ := hrec.mem e he
          refine ⟨by omega, hb, ?_⟩
          intro hmem
          rcases List.mem_cons.mp hmem with h | h
          · omega
          · exact hnot h⟩
      · have hlater : ∀ t' ∈ t :: rest, c + 1 ≤ t' := by
          intro t' ht'
          rcases List.mem_cons.mp ht' with rfl | h
          · omega
          · have := hlt t' h
            omega
        simp only [parityMap, if_neg heq]
        refine ParityChoice.take (ih ?_ sorted hlater (by omega)) (by omega) ?_
        · rw [List.length_cons]
          omega
        · intro hmem
          have := hlater c hmem
          omega

theorem getD_mem {i : Nat} (hi : i < l.length) : l.getD i 0 ∈ l := by
  rw [List.getD_eq_getElem _ _ hi]
  exact List.getElem_mem hi

theorem exists_getD_of_mem {a : Nat} (h : a ∈ l) :
    ∃ i, i < l.length ∧ l.getD i 0 = a := by
  obtain ⟨i, hi, rfl⟩ := List.mem_iff_getElem.mp h
  exact ⟨i, hi, List.getD_eq_getElem _ _ hi⟩

theorem getD_lt_of_sorted (sorted : l.Pairwise (· < ·)) {i j : Nat} (hij : i < j)
    (hj : j < l.length) : l.getD i 0 < l.getD j 0 := by
  have hi : i < l.length := Nat.lt_trans hij hj
  rw [List.getD_eq_getElem _ _ hi, List.getD_eq_getElem _ _ hj]
  exact List.pairwise_iff_getElem.mp sorted i j hi hj hij

theorem getD_ne_of_sorted (sorted : l.Pairwise (· < ·)) {i j : Nat} (hij : i ≠ j)
    (hi : i < l.length) (hj : j < l.length) : l.getD i 0 ≠ l.getD j 0 := by
  rcases Nat.lt_or_gt_of_ne hij with h | h
  · exact Nat.ne_of_lt (getD_lt_of_sorted sorted h hj)
  · exact Nat.ne_of_gt (getD_lt_of_sorted sorted h hi)

/- A cursor into an increasing array `v`: it has passed the entries below `c` and no other. -/
structure Cursor (v : Nat → Nat) (len c next : Nat) : Prop where
  below : ∀ i, i < next → i < len → v i < c
  ahead : ∀ i, next ≤ i → i < len → c ≤ v i

section Cursor

variable {v : Nat → Nat} {len c next : Nat} (increasing : ∀ i j, i < j → j < len → v i < v j)
  (cursor : Cursor v len c next)
include increasing cursor

theorem Cursor.hit (hval : c = v next) : Cursor v len (c + 1) (next + 1) := by
  constructor
  · intro i hi hlen
    by_cases hnext : i = next
    · rw [hnext, ← hval]
      exact Nat.lt_succ_self c
    · have := cursor.below i (by omega) hlen
      omega
  · intro i hi hlen
    have := increasing next i hi hlen
    omega

theorem Cursor.miss (hmiss : ¬ (next < len ∧ c = v next)) :
    (∀ i, i < len → v i ≠ c) ∧ Cursor v len (c + 1) next := by
  have hfree : ∀ i, i < len → v i ≠ c := by
    intro i hi hval
    obtain hlt | rfl | hgt := Nat.lt_trichotomy i next
    · have := cursor.below i hlt hi
      omega
    · exact hmiss ⟨hi, hval.symm⟩
    · have hahead := cursor.ahead next (Nat.le_refl _) (Nat.lt_trans hgt hi)
      have hlt := increasing next i hgt hi
      omega
  refine ⟨hfree, ?_, ?_⟩
  · intro i hi hlen
    have := cursor.below i hi hlen
    omega
  · intro i hi hlen
    have hle := cursor.ahead i hi hlen
    have hne := hfree i hlen
    omega

end Cursor

/- The walk over the data columns: the missing rows below column `c` are behind. -/
structure Walk (first : Nat) (missing : List Nat) (c : Nat) (st : Nat × List Nat) : Prop where
  cursor : Cursor (fun i => missing.getD i 0 + first) missing.length c st.1
  sorted : st.2.Pairwise (· < ·)
  mem : ∀ e, e ∈ st.2 ↔ first ≤ e ∧ e < c ∧ e - first ∉ missing

theorem walk_step {first c : Nat} {missing : List Nat} {st : Nat × List Nat}
    (sortedMissing : missing.Pairwise (· < ·)) (hc : first ≤ c) (h : Walk first missing c st) :
    Walk first missing (c + 1)
      (if st.1 < missing.length ∧ c = missing.getD st.1 0 + first then (st.1 + 1, st.2)
      else (st.1, st.2 ++ [c])) := by
  have hincreasing : ∀ i j, i < j → j < missing.length →
      missing.getD i 0 + first < missing.getD j 0 + first := fun i j hij hj =>
    Nat.add_lt_add_right (getD_lt_of_sorted sortedMissing hij hj) first
  by_cases hskip : st.1 < missing.length ∧ c = missing.getD st.1 0 + first
  · rw [if_pos hskip]
    obtain ⟨hlen, hval⟩ := hskip
    refine ⟨h.cursor.hit hincreasing hval, h.sorted, ?_⟩
    intro e
    rw [h.mem e]
    have hmem : c - first ∈ missing := by
      rw [hval, Nat.add_sub_cancel]
      exact getD_mem hlen
    grind
  · rw [if_neg hskip]
    obtain ⟨hfree, hcursor⟩ := h.cursor.miss hincreasing hskip
    have hmissing : c - first ∉ missing := by
      intro hmem
      obtain ⟨i, hi, hval⟩ := exists_getD_of_mem hmem
      exact hfree i hi (by omega)
    refine ⟨hcursor, ?_, ?_⟩
    · refine List.pairwise_append.mpr ⟨h.sorted, List.pairwise_singleton _ _, ?_⟩
      intro e he e' he'
      rw [List.mem_singleton.mp he']
      exact ((h.mem e).mp he).2.1
    · intro e
      rw [List.mem_append, List.mem_singleton, h.mem e]
      grind

theorem usedData_spec {rm : RaidzMap} {missing : List Nat} (hcols : rm.rmFirstdatacol ≤ rm.rmCols)
    (sortedMissing : missing.Pairwise (· < ·)) :
    (usedData rm missing).Pairwise (· < ·) ∧ ∀ e, e ∈ usedData rm missing ↔
      rm.rmFirstdatacol ≤ e ∧ e < rm.rmCols ∧ e - rm.rmFirstdatacol ∉ missing := by
  have hwalk : Walk rm.rmFirstdatacol missing rm.rmCols
      (forRange rm.rmFirstdatacol rm.rmCols (fun c (st : Nat × List Nat) =>
        if st.1 < missing.length ∧ c = missing.getD st.1 0 + rm.rmFirstdatacol then
          (st.1 + 1, st.2)
        else (st.1, st.2 ++ [c])) (0, [])) := by
    refine forRange_invariant (Walk rm.rmFirstdatacol missing) hcols ?_
      (fun c st hc _ h => walk_step sortedMissing hc h)
    refine ⟨⟨nofun, fun i _ _ => Nat.le_add_left _ _⟩, .nil, fun e => ⟨nofun, ?_⟩⟩
    rintro ⟨h1, h2, _⟩
    omega
  exact ⟨hwalk.sorted, hwalk.mem⟩

end ClusterZfs

import ClusterZfs.Raidz.General

/-! Correctness of the general reconstruction. The missing columns solve a system with one
equation for each parity column in use; the elimination of the previous modules solves it,
and meets no zero because the column nodes are distinct powers of 2. -/
namespace ClusterZfs

open Finset

/-- The weight of data column `c` among `n`, for the parity column with base 2. -/
def node (n c : Nat) : Gf := Gf.gen ^ (n - 1 - c)

def isNode (u : Gf) : Prop := ∃ k, k < 255 ∧ u = Gf.gen ^ k

theorem node_isNode {n c : Nat} (hn : n ≤ 255) (hc : c < n) : isNode (node n c) :=
  ⟨n - 1 - c, by omega, rfl⟩

theorem node_injective {n c c' : Nat} (hn : n ≤ 255) (hc : c < n) (hc' : c' < n)
    (h : node n c = node n c') : c = c' := by
  have := Gf.gen_pow_injective (by omega) (by omega) h
  omega

theorem gf_sq_injective {u v : Gf} (h : u ^ 2 = v ^ 2) : u = v := by
  have hsq : (u + v) ^ 2 = 0 := by
    linear_combination h + Gf.add_self (u * v) + Gf.add_self (v ^ 2)
  exact Gf.add_eq_zero.mp ((pow_eq_zero_iff (by decide : 2 ≠ 0)).mp hsq)

theorem powers_separated {u v : Gf} (hu : u ≠ 0) (hv : v ≠ 0) (huv : u ≠ v) {a b : Nat}
    (ha : a ≤ 2) (hb : b ≤ 2) (hab : a ≠ b) : u ^ a * v ^ b - u ^ b * v ^ a ≠ 0 := by
  intro h
  have hcancel : u * v ≠ 0 := mul_ne_zero hu hv
  apply huv
  interval_cases a <;> interval_cases b <;> try exact absurd rfl hab
  · linear_combination -h
  · exact gf_sq_injective (by linear_combination -h)
  · linear_combination h
  · exact mul_left_cancel₀ hcancel (by linear_combination -h)
  · exact gf_sq_injective (by linear_combination h)
  · exact mul_left_cancel₀ hcancel (by linear_combination h)

theorem parity_smallCode {tgts chosen : List Nat} {first m : Nat} (hfirst : first ≤ 3)
    (choice : ParityChoice tgts first 0 m chosen) (hm : m ≤ first) :
    SmallCode (chosen.getD · 0) m isNode := by
  have hmem : ∀ i, i < m → chosen.getD i 0 < first := fun i hi =>
    (choice.mem _ (getD_mem (choice.length ▸ hi))).2.1
  have hlt : ∀ i j, i < j → j < m → chosen.getD i 0 < chosen.getD j 0 := fun i j hij hj =>
    getD_lt_of_sorted choice.sorted hij (choice.length ▸ hj)
  have hzero : ∀ u, isNode u → u ≠ 0 := by
    rintro _ ⟨k, _, rfl⟩
    exact Gf.gen_pow_ne_zero k
  constructor
  · exact Nat.le_trans hm hfirst
  · intro hthree i hi
    -- three different parity columns below three are all of them, in order
    have h01 := hlt 0 1 (by decide) (by omega)
    have h12 := hlt 1 2 (by decide) (by omega)
    have h2 := hmem 2 (by omega)
    obtain rfl | rfl | rfl : i = 0 ∨ i = 1 ∨ i = 2 := by omega
    all_goals omega
  · exact hzero
  · intro u v hu hv huv i j hi hj hij
    have hne := getD_ne_of_sorted choice.sorted hij (choice.length ▸ hi) (choice.length ▸ hj)
    have hi2 := hmem i hi
    have hj2 := hmem j hj
    exact powers_separated (hzero u hu) (hzero v hv) huv (by omega) (by omega) hne
  · intro u v _ _ huv h
    exact huv (Gf.add_eq_zero.mp h)

/- Sums over the missing and the surviving columns make up the sum over all of them. -/
theorem sum_getD {M : Type*} [AddCommMonoid M] {L : List Nat} (nodup : L.Nodup) (f : Nat → M) :
    ∑ i ∈ range L.length, f (L.getD i 0) = ∑ c ∈ L.toFinset, f c := by
  rw [List.sum_toFinset f nodup]
  clear nodup
  induction L with
  | nil => rfl
  | cons a L ih =>
    rw [List.length_cons, sum_range_succ', List.map_cons, List.sum_cons, add_comm]
    simp only [List.getD_cons_succ, List.getD_cons_zero, ih]

/- The matrix that the general reconstruction starts from. -/
def startMatrix (rm : RaidzMap) (missing parity : List Nat) : ByteMatrix :=
  vdevRaidzMatrixInit rm.ndata missing.length (parity.getD · 0) fun _ _ => 0

/- The coefficients that it computes for a selection. -/
def recoveryMatrix (rm : RaidzMap) (missing parity rest : List Nat) : ByteMatrix :=
  (vdevRaidzMatrixInvert rm.rmFirstdatacol rm.ndata missing.length (missing.getD · 0)
    (startMatrix rm missing parity) ((parity ++ rest).getD · 0)).2

/-- What is known about the columns that one call selects: the missing rows, the parity
columns in their place, and the data columns that survive. -/
structure Selection (rm : RaidzMap) (tgts missing parity rest : List Nat) : Prop where
  missing_sorted : missing.Pairwise (· < ·)
  missing_mem : ∀ c, c ∈ missing ↔ rm.rmFirstdatacol + c ∈ tgts
  missing_lt : ∀ c ∈ missing, c < rm.ndata
  missing_le : missing.length ≤ rm.rmFirstdatacol
  choice : ParityChoice tgts rm.rmFirstdatacol 0 missing.length parity
  rest_sorted : rest.Pairwise (· < ·)
  rest_mem : ∀ e, e ∈ rest ↔ rm.rmFirstdatacol ≤ e ∧ e < rm.rmCols ∧ e - rm.rmFirstdatacol ∉ missing

theorem selection {rm : RaidzMap} {tgts : List Nat} (hdata : rm.rmFirstdatacol ≤ rm.rmCols)
    (sorted : tgts.Pairwise (· < ·)) (hcols : ∀ t ∈ tgts, t < rm.rmCols)
    (hlen : tgts.length ≤ rm.rmFirstdatacol) :
    Selection rm tgts (missingRows rm tgts)
      (parityMap ((missingRows rm tgts).length + tgts.length) tgts 0 (missingRows rm tgts).length)
      (usedData rm (missingRows rm tgts)) := by
  have hsorted : (missingRows rm tgts).Pairwise (· < ·) := by
    refine List.pairwise_map.mpr ((sorted.filter _).imp_of_mem ?_)
    intro a b ha hb hab
    have := (List.mem_filter.mp ha).2
    simp only [ge_iff_le, decide_eq_true_eq] at this
    omega
  have hmem : ∀ c, c ∈ missingRows rm tgts ↔ rm.rmFirstdatacol + c ∈ tgts := by
    intro c
    simp only [missingRows, List.mem_map, List.mem_filter, ge_iff_le, decide_eq_true_eq]
    constructor
    · rintro ⟨t, ⟨ht, hle⟩, rfl⟩
      rwa [Nat.add_sub_cancel' hle]
    · intro h
      exact ⟨_, ⟨h, Nat.le_add_right _ _⟩, Nat.add_sub_cancel_left _ _⟩
  -- targets are parity or missing data, so enough parity columns are left
  have hcount : (missingRows rm tgts).length +
      (tgts.filter (fun t => t < rm.rmFirstdatacol)).length = tgts.length := by
    have h := List.length_eq_length_filter_add (l := tgts) (fun t => decide (t ≥ rm.rmFirstdatacol))
    simp only [missingRows, List.length_map]
    rw [h]
    congr 3
    funext t
    by_cases ht : rm.rmFirstdatacol ≤ t
    · simp [ht]
    · simp [ht, Nat.lt_of_not_le ht]
  obtain ⟨hrest, hrestMem⟩ := usedData_spec hdata hsorted
  refine ⟨hsorted, hmem, fun c hc => ?_, by omega, ?_, hrest, hrestMem⟩
  · have := hcols _ ((hmem c).mp hc)
    unfold RaidzMap.ndata
    omega
  · exact parityMap_choice (Nat.le_refl _) sorted (fun t _ => Nat.zero_le t) (by omega)

section Recovery

variable {rm : RaidzMap} {tgts missing parity rest : List Nat} {D : Nat → Nat → Gf}
  {lost : Nat → Prop}

theorem nodup_of_sorted {l : List Nat} (sorted : l.Pairwise (· < ·)) : l.Nodup :=
  sorted.imp Nat.ne_of_lt

theorem sum_selected {M : Type*} [AddCommMonoid M]
    (sel : Selection rm tgts missing parity rest) (f : Nat → M) :
    ∑ c ∈ range rm.ndata, f c = ∑ l ∈ range missing.length, f (missing.getD l 0) +
      ∑ j ∈ range rest.length, f (rest.getD j 0 - rm.rmFirstdatacol) := by
  have hrest : (rest.map (· - rm.rmFirstdatacol)).Nodup := by
    refine List.Nodup.map_on ?_ (nodup_of_sorted sel.rest_sorted)
    intro a ha b hb hab
    have h1 := ((sel.rest_mem a).mp ha).1
    have h2 := ((sel.rest_mem b).mp hb).1
    omega
  have hsplit : range rm.ndata =
      missing.toFinset ∪ (rest.map (· - rm.rmFirstdatacol)).toFinset := by
    ext c
    simp only [mem_range, mem_union, List.mem_toFinset, List.mem_map]
    constructor
    · intro hc
      by_cases hmem : c ∈ missing
      · exact Or.inl hmem
      · refine Or.inr ⟨rm.rmFirstdatacol + c, (sel.rest_mem _).mpr ⟨by omega, ?_, ?_⟩, by omega⟩
        · unfold RaidzMap.ndata at hc
          omega
        · rwa [Nat.add_sub_cancel_left]
    · rintro (hmem | ⟨e, he, rfl⟩)
      · exact sel.missing_lt c hmem
      · obtain ⟨h1, h2, _⟩ := (sel.rest_mem e).mp he
        exact Nat.sub_lt_sub_right h1 h2
  have hdisjoint : Disjoint missing.toFinset (rest.map (· - rm.rmFirstdatacol)).toFinset := by
    rw [disjoint_left]
    intro c hc hc'
    simp only [List.mem_toFinset, List.mem_map] at hc hc'
    obtain ⟨e, he, rfl⟩ := hc'
    exact ((sel.rest_mem e).mp he).2.2 hc
  have hmap := sum_getD hrest f
  rw [List.length_map] at hmap
  rw [hsplit, sum_union hdisjoint, ← sum_getD (nodup_of_sorted sel.missing_sorted), ← hmap]
  congr 1
  refine sum_congr rfl ?_
  intro j hj
  have hlt := mem_range.mp hj
  rw [List.getD_eq_getElem _ _ (by rwa [List.length_map]), List.getElem_map,
    List.getD_eq_getElem _ _ hlt]

theorem ndata_eq (sel : Selection rm tgts missing parity rest) :
    rm.ndata = missing.length + rest.length := by
  have h := sum_selected sel (fun _ => 1)
  simpa using h

/- The columns of the system: one node for each missing row, and on the other side a unit
vector for each parity column and a node for each surviving data column. -/
def pivotColumns (rm : RaidzMap) (missing parity : List Nat) : Nat → Nat → Gf := fun l =>
  column (parity.getD · 0) (node rm.ndata (missing.getD l 0))

def knownColumns (rm : RaidzMap) (parity rest : List Nat) : Nat → Nat → Gf := fun j =>
  if j < parity.length then unitColumn j
  else column (parity.getD · 0)
    (node rm.ndata ((parity ++ rest).getD j 0 - rm.rmFirstdatacol))

theorem parityBase_pow (e n c : Nat) : parityBase e ^ (n - 1 - c) = node n c ^ e := by
  rw [parityBase, node, ← pow_mul, ← pow_mul, Nat.mul_comm]

theorem knownColumns_rest (j : Nat) :
    knownColumns rm parity rest (parity.length + j) =
      column (parity.getD · 0) (node rm.ndata (rest.getD j 0 - rm.rmFirstdatacol)) := by
  rw [knownColumns, if_neg (by omega), List.getD_append_right _ _ _ _ (by omega),
    Nat.add_sub_cancel_left]

section

variable (sel : Selection rm tgts missing parity rest)
include sel

theorem recovery_system (D y : Nat → Gf)
    (hparity : ∀ j, j < missing.length →
      y j = syndrome (parityBase (parity.getD j 0)) rm.ndata D)
    (hrest : ∀ j, j < rest.length →
      y (missing.length + j) = D (rest.getD j 0 - rm.rmFirstdatacol))
    (r : Nat) (hr : r < missing.length) :
    ∑ l ∈ range missing.length, D (missing.getD l 0) * pivotColumns rm missing parity l r =
      ∑ j ∈ range rm.ndata, y j * knownColumns rm parity rest j r := by
  have hlen := sel.choice.length
  have hunits : ∑ j ∈ range missing.length, y j * knownColumns rm parity rest j r = y r := by
    rw [sum_eq_single_of_mem r (mem_range.mpr hr)]
    · simp [knownColumns, hlen, hr, unitColumn]
    · intro j hj hne
      have hlt : j < parity.length := hlen ▸ mem_range.mp hj
      simp [knownColumns, hlt, unitColumn, Ne.symm hne]
  have hothers : ∑ j ∈ range rest.length,
      y (missing.length + j) * knownColumns rm parity rest (missing.length + j) r =
      ∑ j ∈ range rest.length, D (rest.getD j 0 - rm.rmFirstdatacol) *
        node rm.ndata (rest.getD j 0 - rm.rmFirstdatacol) ^ parity.getD r 0 := by
    refine sum_congr rfl fun j hj => ?_
    rw [hrest j (mem_range.mp hj), ← hlen, knownColumns_rest]
    rfl
  have hsyndrome : y r = ∑ c ∈ range rm.ndata, D c * node rm.ndata c ^ parity.getD r 0 := by
    rw [hparity r hr]
    refine sum_congr rfl fun c _ => ?_
    rw [parityBase_pow, mul_comm]
  rw [ndata_eq sel, sum_range_add, hunits, hothers, hsyndrome, sum_selected sel]
  have hcancel := Gf.add_self (∑ j ∈ range rest.length, D (rest.getD j 0 - rm.rmFirstdatacol) *
    node rm.ndata (rest.getD j 0 - rm.rmFirstdatacol) ^ parity.getD r 0)
  simp only [pivotColumns, column]
  linear_combination -hcancel

theorem distinct_nodes (hn : rm.ndata ≤ 255)
    (i j : Nat) (hi : i < missing.length) (hj : j < missing.length) (hij : i ≠ j) :
    node rm.ndata (missing.getD i 0) ≠ node rm.ndata (missing.getD j 0) := by
  intro h
  exact getD_ne_of_sorted sel.missing_sorted hij hi hj
    (node_injective hn (sel.missing_lt _ (getD_mem hi)) (sel.missing_lt _ (getD_mem hj)) h)

theorem used_rest {j : Nat}
    (hj : missing.length ≤ j) (hlt : j < rm.ndata) : (parity ++ rest).getD j 0 ∈ rest := by
  have hlen := sel.choice.length
  have hn := ndata_eq sel
  rw [List.getD_append_right _ _ _ _ (by omega)]
  exact getD_mem (by omega)

omit sel in
/- The entries of the first matrix once the trivial columns are moved out of it. -/
def startColumns (rm : RaidzMap) (missing parity : List Nat) : Nat → Nat → Gf := fun j =>
  if j ∈ missing then column (parity.getD · 0) (node rm.ndata j) else fun _ => 0

theorem distinct_places :
    DistinctPlaces rm.rmFirstdatacol rm.ndata missing.length ((parity ++ rest).getD · 0) := by
  intro l l' hl hln hl' hln' hne heq
  dsimp only at heq
  have hlen := sel.choice.length
  have hn := ndata_eq sel
  have h1 := ((sel.rest_mem _).mp (used_rest sel hl hln)).1
  have h2 := ((sel.rest_mem _).mp (used_rest sel hl' hln')).1
  have hval : (parity ++ rest).getD l 0 = (parity ++ rest).getD l' 0 := by omega
  rw [List.getD_append_right _ _ _ _ (by omega), List.getD_append_right _ _ _ _ (by omega)] at hval
  exact getD_ne_of_sorted sel.rest_sorted (by omega) (by omega) (by omega) hval

end

section Matrix

variable (sel : Selection rm tgts missing parity rest) (wf : rm.WellFormed) {r : Nat}
include sel wf

section

variable (hr : r < missing.length)
include hr

theorem parity_getD_le : parity.getD r 0 ≤ 2 := by
  have h := (sel.choice.mem _ (getD_mem (sel.choice.length ▸ hr))).2.1
  have := wf.parity_le
  omega

theorem init_entry {j : Nat} (hj : j < rm.ndata) :
    Gf.mk (startMatrix rm missing parity r j) =
      column (parity.getD · 0) (node rm.ndata j) r := by
  have hn : rm.ndata ≤ 255 := Nat.le_trans (Nat.sub_le _ _) wf.cols_le
  exact matrixInit_entry _ hn (fun r hr => parity_getD_le sel wf hr) hr hj

theorem start_rows {j : Nat} (hj : j < rm.ndata) :
    Gf.mk ((subtractTrivial rm.rmFirstdatacol rm.ndata missing.length
      (startMatrix rm missing parity) ((parity ++ rest).getD · 0)).1 r j) =
        startColumns rm missing parity j r := by
  have hlen := sel.choice.length
  have hn := ndata_eq sel
  have hrow := subtractTrivial_spec (startMatrix rm missing parity) (by omega)
    (distinct_places sel) hr
  unfold startColumns
  by_cases hmem : j ∈ missing
  · rw [if_pos hmem, hrow.kept j]
    · exact init_entry sel wf hr hj
    · intro l hl hln heq
      exact ((sel.rest_mem _).mp (used_rest sel hl hln)).2.2 (heq ▸ hmem)
  · -- a surviving column was moved away
    rw [if_neg hmem]
    have hrest : rm.rmFirstdatacol + j ∈ rest := by
      refine (sel.rest_mem _).mpr ⟨Nat.le_add_right _ _, ?_, ?_⟩
      · unfold RaidzMap.ndata at hj
        omega
      · rwa [Nat.add_sub_cancel_left]
    obtain ⟨l, hl, hval⟩ := exists_getD_of_mem hrest
    have hplace := hrow.cleared (missing.length + l) (by omega) (by omega)
    simp only [List.getD_append_right _ _ _ _ (show parity.length ≤ missing.length + l by omega),
      hlen, Nat.add_sub_cancel_left, hval] at hplace
    rw [hplace]
    rfl

theorem start_invrows {j : Nat} (hj : j < rm.ndata) :
    Gf.mk ((subtractTrivial rm.rmFirstdatacol rm.ndata missing.length
      (startMatrix rm missing parity) ((parity ++ rest).getD · 0)).2 r j) =
        knownColumns rm parity rest j r := by
  have hlen := sel.choice.length
  have hn := ndata_eq sel
  have hrow := subtractTrivial_spec (startMatrix rm missing parity) (by omega)
    (distinct_places sel) hr
  unfold knownColumns
  by_cases hlt : j < missing.length
  · rw [if_pos (by omega), hrow.identity j hlt]
    simp only [unitColumn]
    split <;> rfl
  · rw [if_neg (by omega), hrow.moved j (by omega) hj]
    obtain ⟨h1, h2, _⟩ := (sel.rest_mem _).mp (used_rest sel (by omega) hj)
    exact init_entry sel wf hr (Nat.sub_lt_sub_right h1 h2)

/-- The inverted matrix: its second half is the elimination of the known columns, and none
of its entries is zero. -/
theorem inverted_rows {j : Nat} (hj : j < rm.ndata) :
    Gf.mk (recoveryMatrix rm missing parity rest r j) = eliminate (pivotColumns rm missing parity)
        missing.length (knownColumns rm parity rest j) r ∧
      Gf.mk (recoveryMatrix rm missing parity rest r j) ≠ 0 := by
  have hn : rm.ndata ≤ 255 := Nat.le_trans (Nat.sub_le _ _) wf.cols_le
  have code := parity_smallCode wf.parity_le sel.choice sel.missing_le
  have nodes : ∀ l, l < missing.length → isNode (node rm.ndata (missing.getD l 0)) :=
    fun l hl => node_isNode hn (sel.missing_lt _ (getD_mem hl))
  have distinct := distinct_nodes sel hn
  have hregular : ∀ k, k ≤ missing.length → Regular (pivotColumns rm missing parity) k :=
    fun k hk => smallCode_regular code nodes distinct hk
  have heq : Gf.mk (recoveryMatrix rm missing parity rest r j) = eliminate
      (pivotColumns rm missing parity) missing.length (knownColumns rm parity rest j) r := by
    refine matrixInvert_columns ?_ (fun r j hr hj => start_rows sel wf hr hj)
      (fun r j hr hj => start_invrows sel wf hr hj) ?_ ?_ hr hj
    · exact fun i hi => sel.missing_lt _ (getD_mem hi)
    · intro i hi r _
      rw [startColumns, if_pos (getD_mem hi)]
      rfl
    · intro i hi r hr
      refine eliminated_column_ne_zero code (Nat.le_of_lt hi) hr nodes
        (hregular i (Nat.le_of_lt hi)) (nodes i hi) ?_
      intro l hl
      exact distinct l i (by omega) hi (by omega)
  refine ⟨heq, ?_⟩
  rw [heq]
  unfold knownColumns
  by_cases hlt : j < missing.length
  · rw [if_pos (sel.choice.length.symm ▸ hlt)]
    exact eliminated_unit_ne_zero code hr hlt nodes distinct
  · rw [if_neg (by rw [sel.choice.length]; exact hlt)]
    obtain ⟨h1, h2, h3⟩ := (sel.rest_mem _).mp (used_rest sel (by omega) hj)
    have hplace := Nat.sub_lt_sub_right h1 h2
    refine eliminated_column_ne_zero code (Nat.le_refl _) hr nodes (hregular _ (Nat.le_refl _))
      (node_isNode hn hplace) ?_
    intro l hl heq
    have := node_injective hn (sel.missing_lt _ (getD_mem hl)) hplace heq
    exact h3 (this ▸ getD_mem hl)

end

end Matrix

section

variable (sel : Selection rm tgts missing parity rest)
include sel

theorem source_bytes (wf : rm.WellFormed)
    (enc : rm.Encodes D lost)
    (targets : ∀ c, c < rm.rmCols → lost c → c ∈ tgts) (hdata : rm.rmFirstdatacol < rm.rmCols)
    {x : Nat} (hx : x < (rm.rmCol vdevRaidzP).rcSize) :
    (∀ j, j < missing.length → (rm.rmCol ((parity ++ rest).getD j 0)).padByte x =
        syndrome (parityBase (parity.getD j 0)) rm.ndata (D x)) ∧
      ∀ j, j < rest.length → (rm.rmCol ((parity ++ rest).getD (missing.length + j) 0)).padByte x =
        D x (rest.getD j 0 - rm.rmFirstdatacol) := by
  have hlen := sel.choice.length
  constructor
  · intro j hj
    have hlt : j < parity.length := hlen ▸ hj
    obtain ⟨_, hfirst, hnot⟩ := sel.choice.mem _ (getD_mem hlt)
    have hsize := wf.head_size _ (Nat.le_of_lt hfirst) hdata
    rw [List.getD_append _ _ _ _ hlt, padByte_lt (by rw [hsize]; exact hx)]
    exact enc.parity _ x hfirst (fun h => hnot (targets _ (by omega) h)) hx
  · intro j hj
    obtain ⟨h1, h2, h3⟩ := (sel.rest_mem _).mp (getD_mem hj)
    have hcol := Nat.add_sub_cancel' h1
    rw [List.getD_append_right _ _ _ _ (by omega), hlen, Nat.add_sub_cancel_left,
      ← enc.data _ x (Nat.sub_lt_sub_right h1 h2), RaidzMap.dataBytes, hcol]
    rw [hcol]
    intro hlost
    apply h3
    rw [sel.missing_mem, hcol]
    exact targets _ h2 hlost

theorem recovered_byte (wf : rm.WellFormed)
    (enc : rm.Encodes D lost)
    (targets : ∀ c, c < rm.rmCols → lost c → c ∈ tgts) (hdata : rm.rmFirstdatacol < rm.rmCols)
    {x cc : Nat} (hx : x < (rm.rmCol vdevRaidzP).rcSize) (hcc : cc < missing.length) :
    ∑ i ∈ range rm.ndata, (rm.rmCol ((parity ++ rest).getD i 0)).padByte x *
      Gf.mk (recoveryMatrix rm missing parity rest cc i) = D x (missing.getD cc 0) := by
  have hn : rm.ndata ≤ 255 := Nat.le_trans (Nat.sub_le _ _) wf.cols_le
  obtain ⟨hparity, hrest⟩ := source_bytes sel wf enc targets hdata hx
  have hregular : Regular (pivotColumns rm missing parity) missing.length :=
    smallCode_regular (parity_smallCode wf.parity_le sel.choice sel.missing_le)
      (fun l hl => node_isNode hn (sel.missing_lt _ (getD_mem hl))) (distinct_nodes sel hn)
      (Nat.le_refl _)
  have hsolve := eliminate_solves (range rm.ndata) hregular
    (recovery_system sel (D x) (fun j => (rm.rmCol ((parity ++ rest).getD j 0)).padByte x)
      hparity hrest) cc hcc
  rw [hsolve]
  refine sum_congr rfl fun i hi => ?_
  rw [(inverted_rows sel wf hcc (mem_range.mp hi)).1]

theorem setMissing_kept (dst : Nat → Buf) :
    ∃ d, forRange 0 missing.length (fun j (rm : RaidzMap) =>
        rm.setData (missing.getD j 0 + rm.rmFirstdatacol) (dst j)) rm = rm.withData d ∧
      (∀ j, j < missing.length → d (missing.getD j 0 + rm.rmFirstdatacol) = dst j) ∧
      ∀ c, c < rm.rmFirstdatacol ∨ c ∉ tgts → d c = rm.data c := by
  obtain ⟨d, hd, hset, hkeep⟩ := setMissing_spec rm dst fun i j hi hj hij =>
    getD_ne_of_sorted sel.missing_sorted hij hi hj
  refine ⟨d, hd, hset, fun c hc => hkeep c fun j hj heq => ?_⟩
  have hmem := (sel.missing_mem _).mp (getD_mem hj)
  rw [Nat.add_comm, ← heq] at hmem
  rcases hc with hc | hc
  · omega
  · exact hc hmem

theorem matrixReconstruct_holds (wf : rm.WellFormed)
    (enc : rm.Encodes D lost)
    (targets : ∀ c, c < rm.rmCols → lost c → c ∈ tgts) (hdata : rm.rmFirstdatacol < rm.rmCols) :
    ∃ d, vdevRaidzMatrixReconstruct rm rm.ndata missing.length (missing.getD · 0)
        (recoveryMatrix rm missing parity rest) ((parity ++ rest).getD · 0) = rm.withData d ∧
      (∀ c, c < rm.rmFirstdatacol ∨ c ∉ tgts → d c = rm.data c) ∧
      ∀ c, c ∈ tgts → rm.rmFirstdatacol ≤ c → rm.Holds D (d c) c := by
  obtain ⟨d, hd, hset, hkept⟩ := setMissing_kept sel _
  refine ⟨d, hd, hkept, fun c hc hfirst x hx => ?_⟩
  have hmem : c - rm.rmFirstdatacol ∈ missing := by
    rw [sel.missing_mem, Nat.add_sub_cancel' hfirst]
    exact hc
  obtain ⟨cc, hcc, hval⟩ := exists_getD_of_mem hmem
  have hcol : missing.getD cc 0 + rm.rmFirstdatacol = c := by omega
  -- the first column in use is a parity column, as long as any
  have hzero : 0 < parity.length := by
    rw [sel.choice.length]
    omega
  have hlong : (rm.rmCol c).rcSize ≤ (rm.rmCol ((parity ++ rest).getD 0 0)).rcSize := by
    have hp := (sel.choice.mem _ (getD_mem hzero)).2.1
    rw [List.getD_append _ _ _ _ hzero]
    exact wf.size_anti _ _ (by omega)
  have hn := ndata_eq sel
  rw [← hcol, hset cc hcc, Nat.add_sub_cancel,
    ← recovered_byte sel wf enc targets hdata (wf.lt_parity hx) hcc]
  refine addColumns_byte _ (by omega) hcc ?_ ?_ (fun i hi => (inverted_rows sel wf hcc hi).2)
  · exact hcol.symm ▸ hx
  · exact hcol.symm ▸ hlong

end

theorem reconstructGeneral_holds (wf : rm.WellFormed)
    (enc : rm.Encodes D lost) (hdata : rm.rmFirstdatacol < rm.rmCols)
    (sorted : tgts.Pairwise (· < ·)) (hcols : ∀ t ∈ tgts, t < rm.rmCols)
    (hlen : tgts.length ≤ rm.rmFirstdatacol) (targets : ∀ c, c < rm.rmCols → lost c → c ∈ tgts) :
    ∃ d, (vdevRaidzReconstructGeneral rm tgts).1 = rm.withData d ∧
      (∀ c, c < rm.rmFirstdatacol ∨ c ∉ tgts → d c = rm.data c) ∧
      ∀ c, c ∈ tgts → rm.rmFirstdatacol ≤ c → rm.Holds D (d c) c :=
  matrixReconstruct_holds (selection (Nat.le_of_lt hdata) sorted hcols hlen) wf enc targets hdata

end Recovery

end ClusterZfs

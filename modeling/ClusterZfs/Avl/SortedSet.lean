import ClusterZfs.Avl.Remove
import ClusterZfs.Lib.Runs
import Mathlib.Data.Finset.Basic
import Mathlib.Order.Compare

/-! The tree of `avl.c` over whole runs of its callers, next to the set of nodes that are in it. -/
namespace ClusterZfs

open AvlTree

section SortedSet

variable {κ : Type} [LinearOrder κ]

/- `key` is the data the nodes are embedded in, `nodes` the set the tree stands for. -/
structure AvlState (κ : Type) where
  mem : AvlMem
  key : Addr → κ
  nodes : Finset Addr

/- `avl_compar` of a value with the data of a node. -/
def AvlState.compar (s : AvlState κ) (v : κ) (a : Addr) : Ordering := compare v (s.key a)

/- `avl_create`. -/
def avlCreate (heap : Addr → AvlNode) (key : Addr → κ) : AvlState κ :=
  ⟨⟨heap, 0#64, 0⟩, key, ∅⟩

inductive AvlCall (κ : Type) where
  | store (a : Addr) (k : κ)
  | add (a : Addr)
  | insert (a : Addr)
  | insertHere (new here : Addr) (direction : Bool)
  | remove (tmp a : Addr)

/- `v` lies on the side `d` of `u`. -/
def OnSide (d : Bool) (u v : κ) : Prop := if d then u < v else v < u

instance (d : Bool) (u v : κ) : Decidable (OnSide d u v) :=
  inferInstanceAs (Decidable (if d then u < v else v < u))

/- What the callers keep to. Nodes are allocated: not `NULL`, aligned, and not in the tree before
they are put in; the data of a node in the tree is left alone; `avl_insert_here` is told where the
new node belongs, and `avl_remove` removes a node that is there. `tmp` is on the stack. -/
def AvlCall.Allowed (s : AvlState κ) : AvlCall κ → Prop
  | store a _ => a ∉ s.nodes
  | add a => a ≠ 0#64 ∧ Aligned a ∧ a ∉ s.nodes
  | insert a => a ≠ 0#64 ∧ Aligned a ∧ a ∉ s.nodes
  | insertHere new here direction =>
    new ≠ 0#64 ∧ Aligned new ∧ new ∉ s.nodes ∧ here ∈ s.nodes ∧
      OnSide direction (s.key here) (s.key new) ∧
      ∀ c ∈ s.nodes, OnSide direction (s.key here) (s.key c) →
        OnSide direction (s.key new) (s.key c)
  | remove tmp a => tmp ≠ 0#64 ∧ Aligned tmp ∧ tmp ∉ s.nodes ∧ a ∈ s.nodes

instance (s : AvlState κ) : DecidablePred (AvlCall.Allowed s)
  | .store .. => inferInstanceAs (Decidable (¬ _))
  | .add _ | .insert _ => inferInstanceAs (Decidable (_ ∧ _ ∧ _))
  | .insertHere new here direction =>
    -- over the set, not over all addresses
    letI : Decidable (∀ c ∈ s.nodes, OnSide direction (s.key here) (s.key c) →
        OnSide direction (s.key new) (s.key c)) := Finset.decidableDforallFinset
    inferInstanceAs (Decidable (_ ∧ _ ∧ _ ∧ _ ∧ _ ∧ _))
  | .remove .. => inferInstanceAs (Decidable (_ ∧ _ ∧ _ ∧ _))

def avlStep (s : AvlState κ) : AvlCall κ → Option (AvlState κ)
  | .store a k => some { s with key := Function.update s.key a k }
  | .add a =>
    (avlAdd s.mem (s.compar (s.key a)) a).map fun m =>
      { s with mem := m, nodes := insert a s.nodes }
  | .insert a =>
    (avlFind s.mem (s.compar (s.key a))).bind fun
      | .found _ => none
      | .missing w =>
        (avlInsert s.mem a w).map fun m => { s with mem := m, nodes := insert a s.nodes }
  | .insertHere new here direction =>
    (avlInsertHere s.mem new here direction).map fun m =>
      { s with mem := m, nodes := insert new s.nodes }
  | .remove tmp a =>
    (avlRemove s.mem tmp a).map fun m => { s with mem := m, nodes := s.nodes.erase a }

/- `r` is the element next to `v` on the side `d`, or `NULL` when there is none. -/
def AvlState.Neighbour (s : AvlState κ) (d : Bool) (v : κ) (r : Addr) : Prop :=
  (r = 0#64 ∧ ∀ c ∈ s.nodes, ¬ OnSide d v (s.key c)) ∨
    (r ∈ s.nodes ∧ OnSide d v (s.key r) ∧
      ∀ c ∈ s.nodes, OnSide d v (s.key c) → c = r ∨ OnSide d (s.key r) (s.key c))

/- The tree `t` lies in memory and is the set, in order. -/
structure AvlState.Sorted (s : AvlState κ) (t : AvlTree Addr) : Prop where
  balanced : s.mem.Balanced t
  sorted : t.toList.Pairwise fun a b => s.key a < s.key b
  members : ∀ a, a ∈ t.toList ↔ a ∈ s.nodes

variable {s : AvlState κ} {t : AvlTree Addr} {ctx : Ctx Addr}

theorem neighbour_head {d : Bool} {v : κ} {as : List Addr} (hsub : ∀ c ∈ as, c ∈ s.nodes)
    (hside : ∀ c ∈ as, OnSide d v (s.key c))
    (hall : ∀ c ∈ s.nodes, OnSide d v (s.key c) → c ∈ as)
    (hsorted : as.Pairwise fun a b => OnSide d (s.key a) (s.key b)) :
    s.Neighbour d v (as.head?.getD 0#64) := by
  cases as with
  | nil => exact .inl ⟨rfl, fun c hc hv => by cases hall c hc hv⟩
  | cons r as =>
    refine .inr ⟨hsub r List.mem_cons_self, hside r List.mem_cons_self, fun c hc hv => ?_⟩
    rcases List.mem_cons.mp (hall c hc hv) with rfl | hmem
    · exact .inl rfl
    · exact .inr ((List.pairwise_cons.mp hsorted).1 c hmem)

section

variable {a : Addr}

variable (h : s.Sorted t)
include h

/-- A sorted list cut at `v`: the neighbours of `v` are where it is cut. -/
theorem AvlState.Sorted.neighbour {v : κ} {bs mid as : List Addr}
    (hcut : t.toList = bs ++ mid ++ as) (hbs : ∀ c ∈ bs, s.key c < v)
    (hmid : ∀ c ∈ mid, s.key c = v) (has : ∀ c ∈ as, v < s.key c) :
    s.Neighbour true v (as.head?.getD 0#64) ∧ s.Neighbour false v (bs.reverse.head?.getD 0#64) := by
  have hsorted := h.sorted
  rw [hcut] at hsorted
  obtain ⟨hfront, hback, -⟩ := List.pairwise_append.mp hsorted
  obtain ⟨hfront, -, -⟩ := List.pairwise_append.mp hfront
  have hmem : ∀ c, c ∈ s.nodes ↔ (c ∈ bs ∨ c ∈ mid) ∨ c ∈ as := fun c => by
    rw [← h.members, hcut, List.mem_append, List.mem_append]
  constructor
  · refine neighbour_head (fun c hc => (hmem c).mpr (.inr hc)) has (fun c hc hv => ?_) hback
    rcases (hmem c).mp hc with (hc | hc) | hc
    · exact absurd (hbs c hc) (lt_asymm hv)
    · exact absurd (hmid c hc) (ne_of_gt hv)
    · exact hc
  · refine neighbour_head (fun c hc => (hmem c).mpr (.inl (.inl (List.mem_reverse.mp hc))))
      (fun c hc => hbs c (List.mem_reverse.mp hc)) (fun c hc hv => List.mem_reverse.mpr ?_)
      (List.pairwise_reverse.mpr hfront)
    rcases (hmem c).mp hc with (hc | hc) | hc
    · exact hc
    · exact absurd (hmid c hc) (ne_of_lt hv)
    · exact absurd (has c hc) (lt_asymm hv)

theorem AvlState.Sorted.splits (v : κ) : Splits (s.compar v) t.toList := by
  refine h.sorted.imp fun {a b} hab => ⟨fun hlt => ?_, fun hgt => ?_⟩
  · exact compare_lt_iff_lt.mpr ((compare_lt_iff_lt.mp hlt).trans hab)
  · exact compare_gt_iff_gt.mpr (hab.trans (compare_gt_iff_gt.mp hgt))

theorem AvlState.Sorted.find (v : κ) :
    (∃ a ∈ s.nodes, s.key a = v ∧ avlFind s.mem (s.compar v) = some (.found a)) ∨
      ∃ ctx, t = plug ctx nil ∧ (∀ a ∈ before ctx, s.key a < v) ∧
        (∀ a ∈ after ctx, v < s.key a) ∧
        avlFind s.mem (s.compar v) = some (.missing (indexOf ctx)) := by
  have hfind := avlFind_rep h.balanced.toHolds (s.compar v)
  have hplug := plug_locate (s.compar v) t []
  rcases hloc : locate (s.compar v) t [] with ⟨ctx, x⟩
  rw [hloc] at hfind hplug
  cases x with
  | nil =>
    obtain ⟨hbefore, hafter⟩ :=
      locate_missing (h.splits v) (by simp [before]) (by simp [after]) hloc
    exact .inr ⟨ctx, hplug.symm, fun a ha => compare_gt_iff_gt.mp (hbefore a ha),
      fun a ha => compare_lt_iff_lt.mp (hafter a ha), hfind⟩
  | node l a b r =>
    have heq : s.compar v a = .eq := locate_found hloc
    refine .inl ⟨a, (h.members a).mp ?_, (compare_eq_iff_eq.mp heq).symm, hfind⟩
    change a ∈ (plug [] t).toList
    rw [← hplug, toList_plug_node]
    simp

theorem AvlState.Sorted.walk (ha : a ∈ s.nodes) (d : Bool) :
    ∃ r, avlWalk s.mem a d = some r ∧ s.Neighbour d (s.key a) r := by
  obtain ⟨ctx, l, b, r, rfl⟩ := exists_position ((h.members a).mpr ha)
  have hlist : (plug ctx (node l a b r)).toList =
      (before ctx ++ l.toList) ++ [a] ++ (r.toList ++ after ctx) := by
    simp [toList_plug_node]
  have hsorted := h.sorted
  rw [hlist, List.append_assoc] at hsorted
  obtain ⟨-, hrest, hfront⟩ := List.pairwise_append.mp hsorted
  have hneigh := h.neighbour hlist (fun c hc => hfront c hc a (by simp))
    (by simp) (fun c hc => (List.pairwise_cons.mp hrest).1 c hc)
  cases d with
  | true =>
    have hholds : s.mem.Holds (plug ctx (join true r a b l)) := h.balanced.toHolds
    exact ⟨_, avlWalk_rep hholds, hneigh.1⟩
  | false =>
    have hholds : s.mem.Holds (plug ctx (join false l a b r)) := h.balanced.toHolds
    refine ⟨_, avlWalk_rep hholds, ?_⟩
    have hrev : fromSide false l ++ beyond false ctx = (before ctx ++ l.toList).reverse := by
      simp [fromSide, beyond]
    rw [hrev]
    exact hneigh.2

theorem AvlState.Sorted.inserted {bs as : List Addr} {m : AvlMem}
    {t' : AvlTree Addr} (hcut : t.toList = bs ++ as) (hbal : m.Balanced t')
    (hlist : t'.toList = bs ++ a :: as) (hbs : ∀ c ∈ bs, s.key c < s.key a)
    (has : ∀ c ∈ as, s.key a < s.key c) :
    AvlState.Sorted { s with mem := m, nodes := insert a s.nodes } t' := by
  have hsorted := h.sorted
  rw [hcut] at hsorted
  obtain ⟨hfront, hback, hcross⟩ := List.pairwise_append.mp hsorted
  refine ⟨hbal, ?_, fun c => ?_⟩
  · rw [hlist]
    refine List.pairwise_append.mpr ⟨hfront, List.pairwise_cons.mpr ⟨has, hback⟩, ?_⟩
    exact fun c hc => List.forall_mem_cons.mpr ⟨hbs c hc, hcross c hc⟩
  · rw [hlist, Finset.mem_insert, ← h.members, hcut]
    simp only [List.mem_append, List.mem_cons]
    tauto

theorem AvlState.Sorted.insert (hne : a ≠ 0#64) (hal : Aligned a)
    (hnew : a ∉ s.nodes) {ctx : Ctx Addr} (hctx : t = plug ctx nil)
    (hbefore : ∀ c ∈ before ctx, s.key c < s.key a) (hafter : ∀ c ∈ after ctx, s.key a < s.key c) :
    ∃ m t', avlInsert s.mem a (indexOf ctx) = some m ∧
      AvlState.Sorted { s with mem := m, nodes := Insert.insert a s.nodes } t' := by
  subst hctx
  obtain ⟨m, t', hrun, hbal, hlist⟩ := avlInsert_balanced h.balanced hne hal
    (fun hmem => hnew ((h.members a).mp hmem))
  exact ⟨m, t', hrun, h.inserted (toList_plug_nil ctx) hbal hlist hbefore hafter⟩

theorem AvlState.Sorted.insertHere {new here : Addr} {d : Bool}
    (hok : (AvlCall.insertHere new here d).Allowed s) :
    ∃ m t', avlInsertHere s.mem new here d = some m ∧
      AvlState.Sorted { s with mem := m, nodes := Insert.insert new s.nodes } t' := by
  obtain ⟨hne, hal, hnew, hhere, hside, hnext⟩ := hok
  obtain ⟨ctx, l, b, r, rfl⟩ := exists_position ((h.members here).mpr hhere)
  have hout := fun hmem => hnew ((h.members new).mp hmem)
  have hsorted := h.sorted
  rw [toList_plug_node] at hsorted
  obtain ⟨-, hrest, hfront⟩ := List.pairwise_append.mp hsorted
  have hback := (List.pairwise_cons.mp hrest).1
  have hmem : ∀ c, c ∈ s.nodes ↔
      c ∈ (before ctx ++ l.toList) ++ here :: (r.toList ++ after ctx) := fun c => by
    rw [← h.members, toList_plug_node]
  cases d with
  | true =>
    have hbal₀ : s.mem.Balanced (plug ctx (join true r here b l)) := h.balanced
    obtain ⟨m, t', hrun, hbal, hlist⟩ := avlInsertHere_rep hbal₀ hne hal hout
    have hcut : (plug ctx (node l here b r)).toList =
        (before ctx ++ l.toList ++ [here]) ++ (r.toList ++ after ctx) := by simp [toList_plug_node]
    refine ⟨m, t', hrun, h.inserted hcut hbal (by simp [hlist, joinList]) ?_ ?_⟩
    · intro c hc
      rcases List.mem_append.mp hc with hc | hc
      · exact (hfront c hc here (by simp)).trans hside
      · rw [List.mem_singleton.mp hc]
        exact hside
    · intro c hc
      exact hnext c ((hmem c).mpr (List.mem_append_right _ (List.mem_cons_of_mem _ hc)))
        (hback c hc)
  | false =>
    have hbal₀ : s.mem.Balanced (plug ctx (join false l here b r)) := h.balanced
    obtain ⟨m, t', hrun, hbal, hlist⟩ := avlInsertHere_rep hbal₀ hne hal hout
    refine ⟨m, t', hrun, h.inserted toList_plug_node hbal (by simp [hlist, joinList]) ?_ ?_⟩
    · intro c hc
      exact hnext c ((hmem c).mpr (List.mem_append_left _ hc)) (hfront c hc here (by simp))
    · intro c hc
      rcases List.mem_cons.mp hc with rfl | hc
      · exact hside
      · exact lt_trans hside (hback c hc)

theorem AvlState.Sorted.remove {tmp : Addr} (hok : (AvlCall.remove tmp a).Allowed s) :
    ∃ m t', avlRemove s.mem tmp a = some m ∧
      AvlState.Sorted { s with mem := m, nodes := s.nodes.erase a } t' := by
  obtain ⟨htmp, hal, hfresh, ha⟩ := hok
  obtain ⟨ctx, l, b, r, rfl⟩ := exists_position ((h.members a).mpr ha)
  obtain ⟨m, t', hrun, hbal, hlist⟩ := avlRemove_balanced h.balanced htmp hal
    (fun hmem => hfresh ((h.members tmp).mp hmem))
  have hlist' : t'.toList = (before ctx ++ l.toList) ++ (r.toList ++ after ctx) := by
    simp [hlist]
  have hsorted := h.sorted
  have hnodup := h.balanced.nodup
  rw [toList_plug_node] at hsorted hnodup
  refine ⟨m, t', hrun, hbal, ?_, fun c => ?_⟩
  · rw [hlist']
    exact hsorted.sublist (List.Sublist.append_left (List.sublist_cons_self _ _) _)
  · rw [hlist', Finset.mem_erase, ← h.members, toList_plug_node]
    have hout : a ∉ (before ctx ++ l.toList) ++ (r.toList ++ after ctx) :=
      (List.nodup_cons.mp (List.perm_middle.nodup_iff.mp hnodup)).1
    rw [List.perm_middle.mem_iff, List.mem_cons]
    exact ⟨fun hc => ⟨ne_of_mem_of_not_mem hc hout, .inr hc⟩, fun h => h.2.resolve_left h.1⟩

end

/- `avl_add` and `avl_insert` are for values that are not there yet. -/
def AvlCall.NewKey (s : AvlState κ) : AvlCall κ → Prop
  | add a => ∀ c ∈ s.nodes, s.key c ≠ s.key a
  | insert a => ∀ c ∈ s.nodes, s.key c ≠ s.key a
  | _ => True

theorem AvlState.Sorted.add (h : s.Sorted t) {a : Addr} (hok : (AvlCall.add a).Allowed s) :
    (∀ s', avlStep s (.add a) = some s' → ∃ t', s'.Sorted t') ∧
      ((AvlCall.add a).NewKey s → ∃ s', avlStep s (.add a) = some s') := by
  obtain ⟨hne, hal, hnew⟩ := hok
  rcases h.find (s.key a) with ⟨c, hc, hkey, hfind⟩ | ⟨ctx, hctx, hbefore, hafter, hfind⟩
  · have hpanic : avlStep s (.add a) = none := by simp only [avlStep, avlAdd, hfind]; rfl
    rw [hpanic]
    exact ⟨nofun, fun hfresh => absurd hkey (hfresh c hc)⟩
  · obtain ⟨m, t', hrun, hsorted⟩ := h.insert hne hal hnew hctx hbefore hafter
    have hdone : avlStep s (.add a) =
        some { s with mem := m, nodes := Insert.insert a s.nodes } := by
      simp only [avlStep, avlAdd, hfind, Option.bind_some, hrun]
      rfl
    rw [hdone]
    exact ⟨fun s' hs' => Option.some.inj hs' ▸ ⟨t', hsorted⟩, fun _ => ⟨_, rfl⟩⟩

/-- Every allowed call that returns keeps the tree, and every one with a new key returns. -/
theorem AvlState.Sorted.step (h : s.Sorted t) {call : AvlCall κ} (hok : call.Allowed s) :
    (∀ s', avlStep s call = some s' → ∃ t', s'.Sorted t') ∧
      (call.NewKey s → ∃ s', avlStep s call = some s') := by
  cases call with
  | store a k =>
    refine ⟨?_, fun _ => ⟨_, rfl⟩⟩
    rintro s' ⟨rfl⟩
    have hkey : ∀ c ∈ t.toList, Function.update s.key a k c = s.key c := fun c hc =>
      Function.update_of_ne (ne_of_mem_of_not_mem ((h.members c).mp hc) hok) _ _
    refine ⟨t, h.balanced, h.sorted.imp_of_mem fun {b c} hb hc hlt => ?_, h.members⟩
    change Function.update s.key a k b < Function.update s.key a k c
    rw [hkey b hb, hkey c hc]
    exact hlt
  | add a => exact h.add hok
  | insert a =>
    have hsame : avlStep s (.insert a) = avlStep s (.add a) := by
      simp only [avlStep, avlAdd]
      rcases avlFind s.mem (s.compar (s.key a)) with _ | ⟨c | w⟩ <;> rfl
    rw [hsame]
    exact h.add hok
  | insertHere new here d =>
    obtain ⟨m, t', hrun, hsorted⟩ := h.insertHere hok
    simp only [avlStep, hrun]
    exact ⟨fun s' hs' => Option.some.inj hs' ▸ ⟨t', hsorted⟩, fun _ => ⟨_, rfl⟩⟩
  | remove tmp a =>
    obtain ⟨m, t', hrun, hsorted⟩ := h.remove hok
    simp only [avlStep, hrun]
    exact ⟨fun s' hs' => Option.some.inj hs' ▸ ⟨t', hsorted⟩, fun _ => ⟨_, rfl⟩⟩

theorem avlCreate_sorted (heap : Addr → AvlNode) (key : Addr → κ) :
    (avlCreate heap key).Sorted nil :=
  ⟨⟨⟨rfl, List.nodup_nil, rfl⟩, trivial⟩, .nil, by simp [toList, avlCreate]⟩

theorem AvlState.Sorted.nearest (h : s.Sorted (plug ctx nil)) {v : κ}
    (hbefore : ∀ a ∈ before ctx, s.key a < v) (hafter : ∀ a ∈ after ctx, v < s.key a) (d : Bool) :
    ∃ r, avlNearest s.mem (indexOf ctx) d = some r ∧ s.Neighbour d v r := by
  have hcut : (plug ctx nil).toList = before ctx ++ [] ++ after ctx := toList_plug ctx nil
  have hneigh := h.neighbour hcut hbefore (by simp) hafter
  refine ⟨_, avlNearest_rep h.balanced.toHolds d, ?_⟩
  cases d
  exacts [hneigh.2, hneigh.1]

/-- Over every run of calls the tree in memory is the sorted set of the nodes put in: a balanced
search tree with consistent links and the right count, in which searches, neighbours and walks are
those of the set; and every call whose key is new comes to its end. -/
theorem avl_sorted_set {heap : Addr → AvlNode} {key : Addr → κ}
    (h : Reach avlStep (fun s (call : AvlCall κ) => call.Allowed s) (avlCreate heap key) s) :
    (∃ t : AvlTree Addr, Rep s.mem.heap 0#64 false s.mem.avlRoot t ∧ t.WF ∧
        s.mem.avlNumnodes = s.nodes.card ∧ (∀ a, a ∈ t.toList ↔ a ∈ s.nodes) ∧
        t.toList.Pairwise fun a b => s.key a < s.key b) ∧
      (∀ v, (∃ a ∈ s.nodes, s.key a = v ∧ avlFind s.mem (s.compar v) = some (.found a)) ∨
        (∀ a ∈ s.nodes, s.key a ≠ v) ∧ ∃ w, avlFind s.mem (s.compar v) = some (.missing w) ∧
          ∀ d, ∃ r, avlNearest s.mem w d = some r ∧ s.Neighbour d v r) ∧
      (∀ a ∈ s.nodes, ∀ d, ∃ r, avlWalk s.mem a d = some r ∧ s.Neighbour d (s.key a) r) ∧
      ∀ call : AvlCall κ, call.Allowed s → call.NewKey s → ∃ s', avlStep s call = some s' := by
  obtain ⟨t, ht⟩ : ∃ t, s.Sorted t := by
    refine Reach.invariant (P := fun s => ∃ t, s.Sorted t) ⟨nil, avlCreate_sorted heap key⟩ ?_ h
    rintro s s' call ⟨t, ht⟩ hok hstep
    exact (ht.step hok).1 s' hstep
  refine ⟨⟨t, ht.balanced.rep, ht.balanced.wf, ?_, ht.members, ht.sorted⟩, fun v => ?_,
    fun a ha d => ht.walk ha d, fun call hok => (ht.step hok).2⟩
  · rw [ht.balanced.count, size, ← List.toFinset_card_of_nodup ht.balanced.nodup]
    congr 1
    ext a
    rw [List.mem_toFinset, ht.members]
  · rcases ht.find v with hfound | ⟨ctx, rfl, hbefore, hafter, hfind⟩
    · exact .inl hfound
    · refine .inr ⟨fun a ha => ?_, indexOf ctx, hfind, ht.nearest hbefore hafter⟩
      have hmem := (ht.members a).mpr ha
      rw [toList_plug_nil, List.mem_append] at hmem
      exact hmem.elim (fun h => (hbefore a h).ne) fun h => (hafter a h).ne'

/-- Four nodes are put in, and one with two children is removed again. -/
theorem avl_sorted_set_three :
    ∃ s : AvlState Nat, Reach avlStep (fun s (call : AvlCall Nat) => call.Allowed s)
      (avlCreate (fun _ => ⟨fun _ => 0#64, 0#64⟩) BitVec.toNat) s ∧
      s.nodes = {8#64, 24#64, 32#64} ∧ s.mem.avlNumnodes = s.nodes.card ∧
      ∀ a ∈ s.nodes, ∀ d, ∃ r, avlWalk s.mem a d = some r ∧ s.Neighbour d (s.key a) r := by
  obtain ⟨s, hreach, hnodes⟩ := exists_reach avlStep (fun s (call : AvlCall Nat) => call.Allowed s)
    (avlCreate (fun _ => ⟨fun _ => 0#64, 0#64⟩) BitVec.toNat)
    [.add 8#64, .insert 16#64, .insertHere 24#64 16#64 true, .add 32#64, .remove 4096#64 16#64]
    (fun s => s.nodes = {8#64, 24#64, 32#64}) (by decide +kernel)
  obtain ⟨⟨t, -, -, hcount, -⟩, -, hwalk, -⟩ := avl_sorted_set hreach
  exact ⟨s, hreach, hnodes, hcount, hwalk⟩

end SortedSet

end ClusterZfs

import ClusterZfs.Avl.Climb

/-! `avl_find`, `avl_insert`, `avl_insert_here`, `avl_walk` and `avl_nearest` on the tree in
memory. -/
namespace ClusterZfs

open AvlTree

section Index

theorem avlIndex2node_mk {a : Addr} (h : Aligned a) (c : Bool) :
    avlIndex2node (avlMkindex a c) = a := by
  unfold avlIndex2node avlMkindex
  ext i hi
  simp only [BitVec.getElem_and, BitVec.getElem_not]
  by_cases h0 : i = 0
  · subst h0
    simp [h.bit hi (by decide)]
  · cases c <;> simp [h0]

theorem avlIndex2child_mk {a : Addr} (h : Aligned a) (c : Bool) :
    avlIndex2child (avlMkindex a c) = c := by
  have hbit : avlMkindex a c &&& 1#64 = if c then 1#64 else 0#64 := by
    unfold avlMkindex
    ext i hi
    simp only [BitVec.getElem_and]
    by_cases h0 : i = 0
    · subst h0
      cases c <;> simp [h.bit hi (by decide)]
    · cases c <;> simp [h0]
  rw [avlIndex2child, hbit]
  cases c <;> rfl

end Index

/- What a node at a position points back to. -/
def parentOf (ctx : Ctx Addr) : Addr := ctx.head?.elim 0#64 Frame.a
def sideOf (ctx : Ctx Addr) : Bool := ctx.head?.elim false Frame.dir

def indexOf (ctx : Ctx Addr) : BitVec 64 := avlMkindex (parentOf ctx) (sideOf ctx)

/- The outcome of a search that ends at a position. -/
def foundAt : Ctx Addr × AvlTree Addr → AvlFound
  | (ctx, nil) => .missing (indexOf ctx)
  | (_, node _ a _ _) => .found a

section Ops

variable {m : AvlMem} {ctx : Ctx Addr} {p hole : Addr} {d : Bool} {t : AvlTree Addr} {fuel : Nat}
  {a : Addr} {y : AvlTree Addr}

theorem CtxRep.parentOf {heap : Addr → AvlNode} {top : Addr}
    (h : CtxRep heap 0#64 false top hole p d ctx) : p = parentOf ctx ∧ d = sideOf ctx := by
  cases ctx <;> exact ⟨h.1, h.2.1⟩

theorem CtxRep.parentOf_aligned (h : CtxRep m.heap 0#64 false m.avlRoot hole p d ctx) :
    Aligned (ClusterZfs.parentOf ctx) := h.parentOf.1 ▸ h.aligned

theorem avlFindLoop_rep (compar : Addr → Ordering) (hfuel : t.height < fuel)
    (ht : Rep m.heap p d hole t) (hctx : CtxRep m.heap 0#64 false m.avlRoot hole p d ctx) :
    avlFindLoop m compar fuel hole p d = some (foundAt (locate compar t ctx)) := by
  induction t generalizing hole p d ctx fuel with
  | nil =>
    obtain ⟨fuel, rfl⟩ := Nat.exists_eq_add_of_lt hfuel
    obtain ⟨rfl, rfl⟩ := hctx.parentOf
    cases ht
    simp [avlFindLoop, locate, foundAt, indexOf]
  | node l a b r ihl ihr =>
    rw [height] at hfuel
    obtain ⟨fuel, rfl⟩ := Nat.exists_eq_add_of_lt hfuel
    obtain ⟨rfl, hne, hal, hp, hd, hb, hl, hr⟩ := ht
    rw [avlFindLoop, if_neg hne, locate]
    cases compar hole with
    | eq => rfl
    | lt => exact ihl (by omega) hl ⟨rfl, rfl, hne, hal, rfl, hb, hr, by rwa [hp, hd]⟩
    | gt => exact ihr (by omega) hr ⟨rfl, rfl, hne, hal, rfl, hb, hl, by rwa [hp, hd]⟩

theorem height_le_size {α : Type*} (t : AvlTree α) : t.height ≤ t.size := by
  induction t with
  | nil => exact Nat.zero_le _
  | node l a b r ihl ihr =>
    simp only [height, size, toList, List.length_append, List.length_cons] at ihl ihr ⊢
    omega

theorem avlFind_rep (h : m.Holds t) (compar : Addr → Ordering) :
    avlFind m compar = some (foundAt (locate compar t [])) := by
  refine avlFindLoop_rep compar ?_ h.rep ⟨rfl, rfl, rfl⟩
  have hheight := height_le_size t
  rw [h.count]
  omega

theorem avlDown_rep (side : Bool) (hfuel : t.height < fuel) (hne : hole ≠ 0#64)
    (ht : Rep m.heap p d hole t) (ctx : Ctx Addr) :
    ∃ ctx' n y, descend side t ctx = some (ctx', n, y) ∧ avlDown fuel m side hole = some n := by
  induction t generalizing hole p d ctx fuel with
  | nil => exact absurd ht hne
  | node l a b r ihl ihr =>
    obtain ⟨fuel, rfl⟩ : ∃ n, fuel = n + 1 := ⟨fuel - 1, by omega⟩
    obtain ⟨rfl, -, -, -, -, -, hl, hr⟩ := ht
    simp only [height] at hfuel
    rw [avlDown, descend]
    cases side with
    | true =>
      by_cases h0 : (m.heap hole).avlChild true = 0#64
      · rw [if_neg (not_not.mpr h0), if_pos rfl]
        cases hr.root_eq_zero.mp h0
        exact ⟨ctx, hole, l, rfl, rfl⟩
      · rw [if_pos h0, if_pos rfl]
        have hlt : r.height < fuel := by omega
        obtain ⟨ctx', n, y, hdesc, hdown⟩ := ihr hlt h0 hr (⟨true, hole, b, l⟩ :: ctx)
        exact ⟨ctx', n, y, by rw [hdesc]; rfl, hdown⟩
    | false =>
      by_cases h0 : (m.heap hole).avlChild false = 0#64
      · rw [if_neg (not_not.mpr h0), if_neg Bool.false_ne_true]
        cases hl.root_eq_zero.mp h0
        exact ⟨ctx, hole, r, rfl, rfl⟩
      · rw [if_pos h0, if_neg Bool.false_ne_true]
        have hlt : l.height < fuel := by omega
        obtain ⟨ctx', n, y, hdesc, hdown⟩ := ihl hlt h0 hl (⟨false, hole, b, r⟩ :: ctx)
        exact ⟨ctx', n, y, by rw [hdesc]; rfl, hdown⟩

/- The new node before it is linked. -/
def leafNode (m : AvlMem) (a : Addr) (whichChild : Bool) (parent : Addr) : AvlMem :=
  let m := (m.setChild a false 0#64).setChild a true 0#64
  ((m.setChildIndex a whichChild).setBalance a 0).setParent a parent

theorem leafNode_self (m : AvlMem) (a : Addr) (c : Bool) (p : Addr) :
    (leafNode m a c p).heap a = (((((m.heap a).setChild false 0#64).setChild true
      0#64).setChildIndex c).setBalance 0).setParent p := by
  simp [leafNode, AvlMem.setParent, AvlMem.setChildIndex, AvlMem.setBalance, AvlMem.setChild]

theorem leafNode_other (m : AvlMem) {b : Addr} (h : b ≠ a) (c : Bool) (p : Addr) :
    (leafNode m a c p).heap b = m.heap b := by
  simp [leafNode, AvlMem.setParent, AvlMem.setChildIndex, AvlMem.setBalance, AvlMem.setChild, h]

theorem leafNode_rep (m : AvlMem) (hne : a ≠ 0#64) (hal : Aligned a) (c : Bool)
    {p : Addr} (hp : Aligned p) : Rep (leafNode m a c p).heap p c a (node nil a 0 nil) := by
  have h0 : (-1 : Int) ≤ 0 := by decide
  have h1 : (0 : Int) ≤ 1 := by decide
  refine ⟨rfl, hne, hal, ?_, ?_, ?_, ?_, ?_⟩
  · rw [leafNode_self, AvlNode.setParent_xparent _ hp]
  · rw [leafNode_self, AvlNode.setParent_xchild _ hp, AvlNode.setBalance_xchild _ h0 h1,
      AvlNode.setChildIndex_xchild]
  · rw [leafNode_self, AvlNode.setParent_xbalance _ hp, AvlNode.setBalance_xbalance _ h0 h1]
  all_goals simp [leafNode_self, Rep]

theorem length_le_ctxNodes (ctx : Ctx Addr) : ctx.length ≤ (ctxNodes ctx).length := by
  induction ctx with
  | nil => exact Nat.zero_le _
  | cons f ctx ih =>
    rw [ctxNodes_cons]
    simp only [List.length_cons, List.length_append]
    omega

/- The memory when the new node is linked and the climb begins. -/
def leafLinked (m : AvlMem) (a : Addr) (whichChild : Bool) (parent : Addr) : AvlMem :=
  (leafNode { m with avlNumnodes := m.avlNumnodes + 1 } a whichChild parent).link parent
    whichChild a

theorem avlInsert_eq (m : AvlMem) (a : Addr) (index : BitVec 64) :
    avlInsert m a index =
      avlInsertLoop ((leafLinked m a (avlIndex2child index) (avlIndex2node index)).avlNumnodes + 1)
        (leafLinked m a (avlIndex2child index) (avlIndex2node index)) (avlIndex2node index)
        (avlIndex2child index) := rfl

@[simp] theorem leafLinked_avlNumnodes (m : AvlMem) (a : Addr) (c : Bool) (p : Addr) :
    (leafLinked m a c p).avlNumnodes = m.avlNumnodes + 1 := by
  rw [leafLinked, link_avlNumnodes]
  rfl

theorem avlInsert_rep (h : m.Holds (plug ctx nil)) (hwf : (plug ctx nil : AvlTree Addr).WF)
    (hne : a ≠ 0#64) (hal : Aligned a) (hnew : a ∉ (plug ctx nil).toList) :
    ∃ m', avlInsert m a (indexOf ctx) = some m' ∧ m'.Holds (insertAt ctx a) := by
  obtain ⟨hole, p, d, -, hctx⟩ := Rep_plug.mp h.rep
  have hperm := perm_plug ctx nil
  have hout : a ∉ ctxNodes ctx := fun hmem =>
    hnew (hperm.mem_iff.mpr (List.mem_append_right _ hmem))
  have hnodup : ((node nil a 0 nil : AvlTree Addr).toList ++ ctxNodes ctx).Nodup := by
    have hctxnodup := hperm.nodup_iff.mp h.nodup
    simpa [toList, hout] using hctxnodup
  obtain ⟨rfl, rfl⟩ := hctx.parentOf
  have hpal := hctx.aligned
  have hchildless := leafNode_rep { m with avlNumnodes := m.avlNumnodes + 1 } hne hal
    (sideOf ctx) hpal
  have habove : CtxRep (leafNode { m with avlNumnodes := m.avlNumnodes + 1 } a (sideOf ctx)
      (parentOf ctx)).heap 0#64 false m.avlRoot hole (parentOf ctx) (sideOf ctx) ctx :=
    hctx.congr fun b hb => leafNode_other _ (ne_of_mem_of_not_mem hb hout) _ _
  have hat : (leafLinked m a (sideOf ctx) (parentOf ctx)).At ctx (parentOf ctx) (sideOf ctx)
      (node nil a 0 nil) := by
    obtain ⟨hole', p', d', hrep, hctx'⟩ := Rep_plug.mp (relink hchildless habove hnodup)
    obtain ⟨rfl, rfl⟩ := hctx'.parentOf
    exact ⟨⟨hole', hrep, hctx'⟩, hnodup⟩
  have hcount : m.avlNumnodes = (ctxNodes ctx).length := by
    rw [h.count, size, hperm.length_eq]
    rfl
  have hfuel : ctx.length < m.avlNumnodes + 1 + 1 := by
    have hlen := length_le_ctxNodes ctx
    omega
  obtain ⟨m', hrun, hrep, hnum'⟩ := avlInsertLoop_rep hfuel hat (WF_plug.mp hwf).2
    (by simp [WF]) rfl (.inl rfl)
  refine ⟨m', ?_, hrep, ?_, ?_⟩
  · rw [avlInsert_eq, indexOf, avlIndex2node_mk hpal, avlIndex2child_mk hpal,
      leafLinked_avlNumnodes]
    exact hrun
  · rw [toList_insertAt]
    have hlist := h.nodup
    rw [toList_plug] at hlist hnew
    simp only [toList, List.append_nil, List.mem_append, not_or] at hlist hnew
    exact List.perm_middle.symm.nodup (List.nodup_cons.mpr ⟨by simpa using hnew, hlist⟩)
  · rw [hnum', leafLinked_avlNumnodes, h.count, size, size, toList_insertAt, toList_plug]
    simp [toList]
    omega

/- The elements on one side of a position, the nearest one first. -/
def beyond (d : Bool) (ctx : Ctx Addr) : List Addr :=
  if d then after ctx else (before ctx).reverse

/- The elements of a tree from one side. -/
def fromSide (d : Bool) (t : AvlTree Addr) : List Addr :=
  if d then t.toList else t.toList.reverse

theorem beyond_cons (d : Bool) (f : Frame Addr) (ctx : Ctx Addr) :
    beyond d (f :: ctx) = (if f.dir = d then [] else f.a :: fromSide d f.sib) ++ beyond d ctx := by
  cases d <;> cases hf : f.dir <;> simp [beyond, fromSide, before, after, hf]

/-- The last node of the side `!d` is the first one seen from the side `d`. -/
theorem head_fromSide {d : Bool} {ctx ctx' : Ctx Addr} {n : Addr}
    (h : descend (!d) t ctx = some (ctx', n, y)) : ∃ rest, fromSide d t = n :: rest := by
  obtain ⟨frames, b, -, rfl, hdir⟩ := descend_spec h
  cases d with
  | true =>
    refine ⟨y.toList ++ after frames, ?_⟩
    simp [fromSide, toList_plug, before_eq_nil hdir, toList_join, joinList, toList]
  | false =>
    refine ⟨y.toList.reverse ++ (before frames).reverse, ?_⟩
    simp [fromSide, toList_plug, after_eq_nil hdir, toList_join, joinList, toList]

/-- The way up ends at the nearest element beyond the position. -/
theorem avlUp_rep {left : Bool} (hfuel : ctx.length < fuel)
    (hctx : CtxRep m.heap 0#64 false m.avlRoot hole p d ctx) (hp : (m.heap a).xparent = p)
    (hd : (m.heap a).xchild = d) :
    avlUp fuel m (!left) a = some ((beyond left ctx).head?.getD 0#64) := by
  induction ctx generalizing hole p d fuel a with
  | nil =>
    obtain ⟨fuel, rfl⟩ := Nat.exists_eq_add_of_lt hfuel
    rw [avlUp, hp, hctx.1, if_pos rfl]
    cases left <;> rfl
  | cons f ctx ih =>
    obtain ⟨fuel, rfl⟩ := Nat.exists_eq_add_of_lt hfuel
    obtain ⟨rfl, rfl, hne, -, -, -, -, hrest⟩ := hctx
    rw [avlUp, hp, hd, if_neg hne, beyond_cons]
    by_cases hside : f.dir = left
    · have hnot : ¬ f.dir = !left := by simp [hside]
      rw [if_neg hnot, if_pos hside]
      exact ih (by rw [List.length_cons]; omega) hrest rfl rfl
    · have hnot : f.dir = !left := by
        cases hf : f.dir <;> cases left <;> simp_all
      rw [if_pos hnot, if_neg hside]
      rfl

theorem avlWalk_rep {x : AvlTree Addr} {b : Int} {left : Bool}
    (h : m.Holds (plug ctx (join left x a b y))) :
    avlWalk m a left = some ((fromSide left x ++ beyond left ctx).head?.getD 0#64) := by
  obtain ⟨hole, p, d, hrep, hctx⟩ := Rep_plug.mp h.rep
  obtain ⟨rfl, hne, -, hp, hd, -, hx, -⟩ := Rep_join.mp hrep
  have hsize : m.avlNumnodes = (x.toList ++ y.toList).length + 1 + (ctxNodes ctx).length := by
    rw [h.count, size, (perm_plug ctx _).length_eq, List.length_append,
      (perm_join left x hole b y).length_eq, List.length_cons]
  rw [avlWalk, if_neg hne]
  by_cases h0 : (m.heap hole).avlChild left = 0#64
  · rw [if_neg (not_not.mpr h0)]
    cases hx.root_eq_zero.mp h0
    have hlen := length_le_ctxNodes ctx
    rw [avlUp_rep (by omega) hctx hp hd]
    cases left <;> rfl
  · rw [if_pos h0]
    have hheight := height_le_size x
    have hfuel : x.height < m.avlNumnodes + 1 := by
      rw [hsize, List.length_append]
      unfold size at hheight
      omega
    obtain ⟨ctx', n, y', hdesc, hdown⟩ := avlDown_rep (!left) hfuel h0 hx []
    obtain ⟨rest, hfrom⟩ := head_fromSide hdesc
    rw [hdown, hfrom]
    rfl

theorem avlNearest_rep (h : m.Holds (plug ctx nil)) (direction : Bool) :
    avlNearest m (indexOf ctx) direction =
      some ((beyond direction ctx).head?.getD 0#64) := by
  obtain ⟨hole, p, d, -, hctx⟩ := Rep_plug.mp h.rep
  have hal := hctx.parentOf_aligned
  rw [avlNearest, indexOf, avlIndex2node_mk hal, avlIndex2child_mk hal]
  cases ctx with
  | nil => cases direction <;> rfl
  | cons f ctx =>
    obtain ⟨-, -, hne, -⟩ := hctx
    have hparent : parentOf (f :: ctx) = f.a := rfl
    have hside : sideOf (f :: ctx) = f.dir := rfl
    rw [hparent, hside, if_neg hne, beyond_cons]
    by_cases hdir : f.dir = direction
    · subst hdir
      rw [if_neg (not_not.mpr rfl), if_pos rfl, avlWalk_rep h]
      cases f.dir <;> rfl
    · rw [if_pos hdir, if_neg hdir]
      rfl

/- A balanced tree in memory. -/
structure AvlMem.Balanced (m : AvlMem) (t : AvlTree Addr) : Prop extends m.Holds t where
  wf : t.WF

theorem avlInsert_balanced (h : m.Balanced (plug ctx nil)) (hne : a ≠ 0#64)
    (hal : Aligned a) (hnew : a ∉ (plug ctx nil).toList) :
    ∃ m' t', avlInsert m a (indexOf ctx) = some m' ∧ m'.Balanced t' ∧
      t'.toList = before ctx ++ a :: after ctx := by
  obtain ⟨m', hrun, hholds⟩ := avlInsert_rep h.toHolds h.wf hne hal hnew
  exact ⟨m', _, hrun, ⟨hholds, WF_insertAt (WF_plug.mp h.wf).2 a⟩, toList_insertAt ctx a⟩

theorem avlInsertHere_rep {here new : Addr} {x : AvlTree Addr} {b : Int} {direction : Bool}
    (h : m.Balanced (plug ctx (join direction x here b y))) (hne : new ≠ 0#64)
    (hal : Aligned new) (hnew : new ∉ (plug ctx (join direction x here b y)).toList) :
    ∃ m' t', avlInsertHere m new here direction = some m' ∧ m'.Balanced t' ∧
      t'.toList = before ctx ++ joinList direction
        (if direction then new :: x.toList else x.toList ++ [new]) here y.toList ++ after ctx := by
  obtain ⟨hole, p, d, hrep, hctx⟩ := Rep_plug.mp h.rep
  obtain ⟨rfl, -, -, -, -, -, hx, -⟩ := Rep_join.mp hrep
  rw [avlInsertHere]
  by_cases h0 : (m.heap hole).avlChild direction = 0#64
  · rw [if_neg (not_not.mpr h0)]
    cases hx.root_eq_zero.mp h0
    have hpos : m.Balanced (plug (⟨direction, hole, b, y⟩ :: ctx) nil) := h
    obtain ⟨m', t', hrun, hbal, hlist⟩ := avlInsert_balanced hpos hne hal hnew
    refine ⟨m', t', hrun, hbal, ?_⟩
    rw [hlist]
    cases direction <;> simp [before, after, joinList, toList]
  · rw [if_pos h0]
    have hfuel : x.height < m.avlNumnodes + 1 := by
      have hheight := height_le_size x
      rw [h.count, size, toList_plug, toList_join]
      unfold size at hheight
      cases direction <;> simp [joinList] <;> omega
    obtain ⟨frames, n, y', hdesc, hdown⟩ := avlDown_rep (!direction) hfuel h0 hx []
    obtain ⟨frames', b', heq, hplug, hdir⟩ := descend_spec hdesc
    rw [List.append_nil] at heq
    subst heq
    rw [hdown, Option.bind_some]
    -- the empty child of the neighbour
    have hpos : plug (⟨!direction, n, b', y'⟩ :: frames ++ ⟨direction, hole, b, y⟩ :: ctx) nil =
        plug ctx (join direction x hole b y) := by
      rw [plug_append, plug]
      exact congrArg (fun t => plug ctx (join direction t hole b y)) hplug
    rw [← hpos] at h hnew
    obtain ⟨m', t', hrun, hbal, hlist⟩ := avlInsert_balanced h hne hal hnew
    refine ⟨m', t', hrun, hbal, ?_⟩
    rw [hlist, ← hplug]
    cases direction with
    | true =>
      simp [before, after, before_append, after_append, joinList, toList_plug, toList_join,
        before_eq_nil hdir, toList]
    | false =>
      simp [before, after, before_append, after_append, joinList, toList_plug, toList_join,
        after_eq_nil hdir, toList]

theorem exists_position {α : Type*} {t : AvlTree α} {a : α} (h : a ∈ t.toList) :
    ∃ ctx l b r, t = plug ctx (node l a b r) := by
  induction t with
  | nil => simp [toList] at h
  | node l c b r ihl ihr =>
    simp only [toList, List.mem_append, List.mem_cons] at h
    rcases h with h | rfl | h
    · obtain ⟨ctx, l', b', r', rfl⟩ := ihl h
      exact ⟨ctx ++ [⟨false, c, b, r⟩], l', b', r', by rw [plug_append]; rfl⟩
    · exact ⟨[], l, b, r, rfl⟩
    · obtain ⟨ctx, l', b', r', rfl⟩ := ihr h
      exact ⟨ctx ++ [⟨true, c, b, l⟩], l', b', r', by rw [plug_append]; rfl⟩

end Ops

end ClusterZfs

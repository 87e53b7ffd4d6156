import ClusterZfs.Avl.Ops

/-! `avl_remove` on the tree in memory. -/
namespace ClusterZfs

open AvlTree

section Unlink

variable {m : AvlMem} {ctx : Ctx Addr} {p hole a : Addr} {d : Bool}

theorem avlUnlink_child {l r x : AvlTree Addr} {b : Int}
    (ht : Rep m.heap p d hole (node l a b r)) (hx : l = nil ∧ x = r ∨ r = nil ∧ x = l) :
    ∃ side, Rep m.heap a side (if (m.heap a).avlChild false ≠ 0#64 then (m.heap a).avlChild false
      else (m.heap a).avlChild true) x := by
  obtain ⟨-, -, -, -, -, -, hl, hr⟩ := ht
  rcases hx with ⟨rfl, rfl⟩ | ⟨rfl, rfl⟩
  · have h0 : (m.heap a).avlChild false = 0#64 := hl
    rw [if_neg (not_not.mpr h0)]
    exact ⟨true, hr⟩
  · by_cases h0 : (m.heap a).avlChild false = 0#64
    · rw [if_neg (not_not.mpr h0)]
      cases hl.root_eq_zero.mp h0
      exact ⟨false, hr⟩
    · rw [if_pos h0]
      exact ⟨false, hl⟩

theorem avlUnlink_rep {l r x : AvlTree Addr} {b : Int} (hat : m.At ctx p d (node l a b r))
    (hwf : (node l a b r).WF) (hctxwf : CtxWF (node l a b r).height ctx)
    (hx : l = nil ∧ x = r ∨ r = nil ∧ x = l) (hlen : ctx.length < m.avlNumnodes) :
    ∃ m', avlUnlink m a = some m' ∧ Rep m'.heap 0#64 false m'.avlRoot (shrinkUp ctx x) ∧
      m'.avlNumnodes = m.avlNumnodes - 1 := by
  obtain ⟨hole, ht, hctx⟩ := hat.here
  obtain ⟨side, hchild⟩ := avlUnlink_child ht hx
  obtain ⟨rfl, -, -, hp, hd, -, -, -⟩ := ht
  have hxnodup : (x.toList ++ ctxNodes ctx).Nodup := by
    refine hat.nodup.sublist (List.Sublist.append ?_ (List.Sublist.refl _))
    rcases hx with ⟨rfl, rfl⟩ | ⟨rfl, rfl⟩ <;> simp [toList]
  obtain ⟨hxn, -, hdisj⟩ := List.nodup_append.mp hxnodup
  have hxwf : x.WF ∧ CtxWF (x.height + 1) ctx := by
    rcases hx with ⟨rfl, rfl⟩ | ⟨rfl, rfl⟩
    · exact ⟨hwf.2.1, by simpa [height] using hctxwf⟩
    · exact ⟨hwf.1, by simpa [height] using hctxwf⟩
  set root := if (m.heap hole).avlChild false ≠ 0#64 then (m.heap hole).avlChild false
    else (m.heap hole).avlChild true with hroot
  set m₀ : AvlMem := { m with avlNumnodes := m.avlNumnodes - 1 } with hm₀
  have hchild₀ : Rep m₀.heap hole side root x := hchild
  have hrep := hchild₀.reparent hxn hctx.aligned d
  have habove : CtxRep (m₀.reparent root p d).heap 0#64 false (m₀.reparent root p d).avlRoot hole p
      d ctx := by
    rw [reparent_avlRoot]
    exact hctx.congr fun c hc => hchild₀.reparent_out (fun h => hdisj c h c hc rfl) p d
  have hat' : ((m₀.reparent root p d).link p d root).At ctx p d x := by
    obtain ⟨hole', p', d', hrep', hctx'⟩ := Rep_plug.mp (relink hrep habove hxnodup)
    obtain ⟨rfl, rfl⟩ := hctx.parent_eq hctx'
    exact ⟨⟨hole', hrep', hctx'⟩, hxnodup⟩
  have hnum : ((m₀.reparent root p d).link p d root).avlNumnodes = m.avlNumnodes - 1 := by
    rw [link_avlNumnodes, reparent_avlNumnodes]
  obtain ⟨m', hrun, hres, hnum'⟩ := avlRemoveLoop_rep
    (by rw [hnum]; omega : ctx.length < ((m₀.reparent root p d).link p d root).avlNumnodes + 1)
    hat' hxwf.2 hxwf.1 rfl
  refine ⟨m', ?_, hres, by rw [hnum', hnum]⟩
  rw [← hrun, avlUnlink]
  simp only [hp, hd]
  rfl

end Unlink

section Parts

variable {m : AvlMem} {ctx ctx' : Ctx Addr} {p hole P top : Addr} {d D : Bool}

theorem Rep.setParent {t : AvlTree Addr} {root p' : Addr} (h : Rep m.heap p d root t)
    (hne : t ≠ nil) (nodup : t.toList.Nodup) (hal : Aligned p') :
    Rep (m.setParent root p').heap p' d root t := by
  cases t with
  | nil => exact absurd rfl hne
  | node l a b r =>
    obtain ⟨rfl, hr0, halign, -, hd, hb, hl, hr⟩ := h
    have hself : (m.setParent root p').heap root = (m.heap root).setParent p' := by
      simp [AvlMem.setParent]
    have hnodup := (perm_join false l root b r).nodup_iff.mp nodup
    rw [List.nodup_cons, List.mem_append, not_or] at hnodup
    refine ⟨rfl, hr0, halign, ?_, ?_, ?_, ?_, ?_⟩
    · rw [hself, AvlNode.setParent_xparent _ hal]
    · rw [hself, AvlNode.setParent_xchild _ hal, hd]
    · rw [hself, AvlNode.setParent_xbalance _ hal, hb]
    · rw [hself]
      exact hl.congr fun c hc => setParent_of_ne m (ne_of_mem_of_not_mem hc hnodup.1.1) p'
    · rw [hself]
      exact hr.congr fun c hc => setParent_of_ne m (ne_of_mem_of_not_mem hc hnodup.1.2) p'

theorem CtxRep.setParent {p' : Addr} (h : CtxRep m.heap P D top hole p d ctx) (hne : ctx ≠ [])
    (nodup : (ctxNodes ctx).Nodup) (hal : Aligned p') :
    CtxRep (m.setParent top p').heap p' D top hole p d ctx ∧ top ∈ ctxNodes ctx := by
  induction ctx generalizing hole p d with
  | nil => exact absurd rfl hne
  | cons f ctx ih =>
    obtain ⟨rfl, rfl, hf0, hfal, hhole, hb, hsib, hctx⟩ := h
    rw [ctxNodes_cons, List.nodup_cons, List.mem_append, not_or] at nodup
    obtain ⟨⟨hfsib, hfctx⟩, hrest⟩ := nodup
    obtain ⟨-, hrestnodup, hdisj⟩ := List.nodup_append.mp hrest
    cases ctx with
    | nil =>
      obtain ⟨-, rfl, rfl⟩ := hctx
      have hself : (m.setParent f.a p').heap f.a = (m.heap f.a).setParent p' := by
        simp [AvlMem.setParent]
      refine ⟨⟨rfl, rfl, hf0, hfal, ?_, ?_, ?_, ?_, ?_, rfl⟩, by simp [ctxNodes]⟩
      · rw [hself, AvlNode.setParent_child, hhole]
      · rw [hself, AvlNode.setParent_xbalance _ hal, hb]
      · rw [hself, AvlNode.setParent_child]
        exact hsib.congr fun c hc => setParent_of_ne m (ne_of_mem_of_not_mem hc hfsib) p'
      · rw [hself, AvlNode.setParent_xparent _ hal]
      · rw [hself, AvlNode.setParent_xchild _ hal]
    | cons g ctx =>
      obtain ⟨habove, hmem⟩ := ih hctx (List.cons_ne_nil _ _) hrestnodup
      have hself : (m.setParent top p').heap f.a = m.heap f.a :=
        setParent_of_ne m (ne_of_mem_of_not_mem hmem hfctx).symm p'
      refine ⟨⟨rfl, rfl, hf0, hfal, ?_, ?_, ?_, ?_⟩, ?_⟩
      · rw [hself, hhole]
      · rw [hself, hb]
      · rw [hself]
        exact hsib.congr fun c hc => setParent_of_ne m (hdisj c hc top hmem) p'
      · rw [hself]
        exact habove
      · rw [ctxNodes_cons]
        exact List.mem_cons_of_mem _ (List.mem_append_right _ hmem)

end Parts

section Stages

/- `avl_remove` of a node with two children, first part: `tmp` becomes a copy of the neighbour and
the neighbour one of the deleted node. -/
def swapCopied (m : AvlMem) (tmp delete node : Addr) (left : Bool) : AvlMem :=
  let m := m.modify tmp fun _ => m.heap node
  let m := m.modify node fun _ => m.heap delete
  if (m.heap node).avlChild left = node then m.setChild node left tmp else m

/- The second part: what was around the deleted node is linked to the neighbour. -/
def swapLinked (m : AvlMem) (node : Addr) (left : Bool) : AvlMem :=
  let m := m.link (m.heap node).xparent (m.heap node).xchild node
  let m := m.setParent ((m.heap node).avlChild left) node
  m.setParent ((m.heap node).avlChild (!left)) node

/- The third part: what was around the neighbour is linked to `tmp`. -/
def swapBelow (m : AvlMem) (tmp : Addr) : AvlMem :=
  let m := m.setChild (m.heap tmp).xparent (m.heap tmp).xchild tmp
  let whichChild := decide ((m.heap tmp).avlChild true ≠ 0#64)
  if (m.heap tmp).avlChild whichChild ≠ 0#64
  then m.setParent ((m.heap tmp).avlChild whichChild) tmp else m

theorem avlSwap_eq (m : AvlMem) (tmp delete node : Addr) (left : Bool) :
    avlSwap m tmp delete node left =
      swapBelow (swapLinked (swapCopied m tmp delete node left) node left) tmp := rfl

variable {m : AvlMem} {tmp delete node : Addr} {left : Bool}

theorem swapCopied_tmp (h : tmp ≠ node) :
    (swapCopied m tmp delete node left).heap tmp = m.heap node := by
  unfold swapCopied
  dsimp only
  split
  · rw [setChild_of_ne _ h, modify_of_ne _ h, modify_self]
  · rw [modify_of_ne _ h, modify_self]

theorem swapCopied_node (h : tmp ≠ delete) :
    (swapCopied m tmp delete node left).heap node =
      if (m.heap delete).avlChild left = node then (m.heap delete).setChild left tmp
      else m.heap delete := by
  unfold swapCopied
  simp only [modify_self, modify_of_ne m h.symm]
  split
  · simp [AvlMem.setChild]
  · rw [modify_self]

theorem swapCopied_other {c : Addr} (htmp : c ≠ tmp) (hnode : c ≠ node) :
    (swapCopied m tmp delete node left).heap c = m.heap c := by
  unfold swapCopied
  dsimp only
  split
  · rw [setChild_of_ne _ hnode, modify_of_ne _ hnode, modify_of_ne _ htmp]
  · rw [modify_of_ne _ hnode, modify_of_ne _ htmp]

@[simp] theorem swapCopied_avlRoot : (swapCopied m tmp delete node left).avlRoot = m.avlRoot := by
  unfold swapCopied
  dsimp only
  split <;> rfl

@[simp] theorem swapCopied_avlNumnodes :
    (swapCopied m tmp delete node left).avlNumnodes = m.avlNumnodes := by
  unfold swapCopied
  dsimp only
  split <;> rfl

theorem swapLinked_eq (m : AvlMem) (left : Bool) (hp : node ≠ (m.heap node).xparent)
    (hl : node ≠ (m.heap node).avlChild left) :
    swapLinked m node left =
      ((m.link (m.heap node).xparent (m.heap node).xchild node).setParent
        ((m.heap node).avlChild left) node).setParent ((m.heap node).avlChild (!left)) node := by
  unfold swapLinked
  simp [link_of_ne m hp, setParent_of_ne _ hl]

theorem swapBelow_eq (m : AvlMem) (left : Bool) (hp : tmp ≠ (m.heap tmp).xparent)
    (hr : (m.heap tmp).avlChild (!left) = 0#64) :
    swapBelow m tmp =
      let m₁ := m.setChild (m.heap tmp).xparent (m.heap tmp).xchild tmp
      if (m.heap tmp).avlChild left ≠ 0#64 then m₁.setParent ((m.heap tmp).avlChild left) tmp
      else m₁ := by
  unfold swapBelow
  simp only [setChild_of_ne m hp]
  cases left with
  | true =>
    by_cases h : (m.heap tmp).avlChild true = 0#64
    · have h0 : (m.heap tmp).avlChild false = 0#64 := hr
      simp [h, h0]
    · simp [h]
  | false =>
    have h1 : (m.heap tmp).avlChild true = 0#64 := hr
    simp [h1]

end Stages

/- A node `a` with two children and its neighbour `n` on the side `left`, at the end of the path
`frames`; `tmp` is not in the tree. -/
structure AvlMem.AtInner (m : AvlMem) (ctx frames : Ctx Addr) (tmp a n : Addr) (left : Bool)
    (b bal : Int) (y other : AvlTree Addr) : Prop where
  balance : (m.heap a).xbalance = b
  above : CtxRep m.heap 0#64 false m.avlRoot a (m.heap a).xparent (m.heap a).xchild ctx
  beside : Rep m.heap a (!left) ((m.heap a).avlChild (!left)) other
  other_ne : other ≠ nil
  path : CtxRep m.heap a left ((m.heap a).avlChild left) n (m.heap n).xparent (m.heap n).xchild
    frames
  node_ne : n ≠ 0#64
  node_aligned : Aligned n
  node_balance : (m.heap n).xbalance = bal
  last : (m.heap n).avlChild (!left) = 0#64
  below : Rep m.heap n left ((m.heap n).avlChild left) y
  tmp_ne : tmp ≠ 0#64
  tmp_aligned : Aligned tmp
  nodup : (tmp :: a :: n :: (y.toList ++ (ctxNodes frames ++ (other.toList ++ ctxNodes ctx)))).Nodup

section Swap

variable {m : AvlMem} {ctx frames : Ctx Addr} {tmp a n : Addr} {left : Bool} {b bal : Int}
  {y other : AvlTree Addr}

theorem CtxRep.ne_parent {hole p c : Addr} {d : Bool}
    (h : CtxRep m.heap 0#64 false m.avlRoot hole p d ctx) (hc : c ≠ 0#64)
    (hout : c ∉ ctxNodes ctx) : c ≠ p := by
  rintro rfl
  exact hout (h.parent_mem hc)

theorem CtxRep.link_out {hole p c : Addr} {d : Bool}
    (h : CtxRep m.heap 0#64 false m.avlRoot hole p d ctx) (hc : c ∉ ctxNodes ctx) {m' : AvlMem}
    {x : Addr} : (m'.link p d x).heap c = m'.heap c := by
  by_cases hp : p = 0#64
  · simp [AvlMem.link, hp]
  · exact link_of_ne m' (ne_of_mem_of_not_mem (h.parent_mem hp) hc).symm d x

theorem modify_congr {m m' : AvlMem} {c : Addr} (h : m.heap c = m'.heap c) (x : Addr)
    (f : AvlNode → AvlNode) : (m.modify x f).heap c = (m'.modify x f).heap c := by
  by_cases hx : c = x
  · subst hx
    rw [modify_self, modify_self, h]
  · rw [modify_of_ne m hx, modify_of_ne m' hx, h]

/- The places in memory that are not touched or touched once. -/
namespace AvlMem.AtInner

variable (h : m.AtInner ctx frames tmp a n left b bal y other)

include h

theorem fresh {c : Addr} (hc : c ∈ y.toList ∨ c ∈ ctxNodes frames ∨ c ∈ other.toList ∨
    c ∈ ctxNodes ctx) : c ≠ tmp ∧ c ≠ a ∧ c ≠ n := by
  have hnodup := h.nodup
  simp only [List.nodup_cons, List.mem_cons, List.mem_append] at hnodup
  refine ⟨?_, ?_, ?_⟩ <;> rintro rfl <;> tauto

theorem distinct : tmp ≠ a ∧ tmp ≠ n ∧ a ≠ n := by
  have hnodup := h.nodup
  simp only [List.nodup_cons, List.mem_cons, not_or] at hnodup
  exact ⟨hnodup.1.1, hnodup.1.2.1, hnodup.2.1.1⟩

theorem parts_nodup : (y.toList ++ (ctxNodes frames ++ (other.toList ++ ctxNodes ctx))).Nodup := by
  have hnodup := h.nodup
  simp only [List.nodup_cons] at hnodup
  exact hnodup.2.2.2

/-- The neighbour in the place of the node, and `tmp` in the place of the neighbour. -/
theorem assemble {m' : AvlMem} {L q : Addr} {c : Bool}
    (hp : (m'.heap n).xparent = (m.heap a).xparent) (hd : (m'.heap n).xchild = (m.heap a).xchild)
    (hb : (m'.heap n).xbalance = b) (hL : (m'.heap n).avlChild left = L)
    (hR : (m'.heap n).avlChild (!left) = (m.heap a).avlChild (!left))
    (habove : CtxRep m'.heap 0#64 false m'.avlRoot n (m.heap a).xparent (m.heap a).xchild ctx)
    (hbeside : Rep m'.heap n (!left) ((m.heap a).avlChild (!left)) other)
    (hpath : CtxRep m'.heap n left L tmp q c frames)
    (hq : (m'.heap tmp).xparent = q) (hc : (m'.heap tmp).xchild = c)
    (htmp : (m'.heap tmp).xbalance = bal) (hlast : (m'.heap tmp).avlChild (!left) = 0#64)
    (hbelow : Rep m'.heap tmp left ((m'.heap tmp).avlChild left) y) :
    m'.At (frames ++ ⟨left, n, b, other⟩ :: ctx) q c (join (!left) nil tmp bal y) := by
  refine ⟨⟨tmp, ?_, ?_⟩, ?_⟩
  · refine Rep_join.mpr ⟨rfl, h.tmp_ne, h.tmp_aligned, hq, hc, htmp, hlast, ?_⟩
    rw [Bool.not_not]
    exact hbelow
  · refine CtxRep_append.mpr ⟨L, n, left, hpath, rfl, rfl, h.node_ne, h.node_aligned, hL, hb, ?_,
      ?_⟩
    · rw [hR]
      exact hbeside
    · rw [hp, hd]
      exact habove
  · have hnodup := h.nodup
    have hsub : (tmp :: n :: (y.toList ++ (ctxNodes frames ++
        (other.toList ++ ctxNodes ctx)))).Nodup :=
      hnodup.sublist (List.Sublist.cons_cons _ (List.sublist_cons_self _ _))
    refine (List.Perm.nodup_iff ?_).mpr hsub
    refine ((perm_join (!left) nil tmp bal y).append_right _).trans (List.Perm.cons tmp ?_)
    have hnodes : ctxNodes (frames ++ ⟨left, n, b, other⟩ :: ctx) =
        ctxNodes frames ++ n :: (other.toList ++ ctxNodes ctx) := by
      simp [ctxNodes]
    rw [hnodes, toList, List.nil_append]
    refine (List.Perm.append_left _ List.perm_middle).trans ?_
    exact List.perm_middle

theorem other_root : (m.heap a).avlChild (!left) ∈ other.toList :=
  h.beside.root_mem fun h0 => h.other_ne (h.beside.root_eq_zero.mp h0)

theorem node_parent : n ≠ (m.heap a).xparent ∧ tmp ≠ (m.heap a).xparent :=
  ⟨h.above.ne_parent h.node_ne fun hn => (h.fresh (.inr (.inr (.inr hn)))).2.2 rfl,
    h.above.ne_parent h.tmp_ne fun hn => (h.fresh (.inr (.inr (.inr hn)))).1 rfl⟩

theorem copied_other {c : Addr} (hc : c ∈ y.toList ∨ c ∈ ctxNodes frames ∨ c ∈ other.toList ∨
    c ∈ ctxNodes ctx) : (swapCopied m tmp a n left).heap c = m.heap c :=
  swapCopied_other (h.fresh hc).1 (h.fresh hc).2.2

end AvlMem.AtInner

/- The neighbour between the parts of the deleted node, with `top` on the side `left`. -/
def swapMoved (m : AvlMem) (tmp a n : Addr) (left : Bool) (top : Addr) : AvlMem :=
  (((swapCopied m tmp a n left).link (m.heap a).xparent (m.heap a).xchild n).setParent top
    n).setParent ((m.heap a).avlChild (!left)) n

/- The memory after the swap, when `top` is what the neighbour has on the side `left` at the end and
`parent` what `tmp` points back to. -/
def swapResult (m : AvlMem) (tmp a n : Addr) (left : Bool) (top parent : Addr) (whichChild : Bool) :
    AvlMem :=
  let m₃ := (swapMoved m tmp a n left top).setChild parent whichChild tmp
  if (m.heap n).avlChild left ≠ 0#64 then m₃.setParent ((m.heap n).avlChild left) tmp else m₃

namespace AvlMem.AtInner

variable (h : m.AtInner ctx frames tmp a n left b bal y other) {c : Addr}

include h

theorem copied_node : ((swapCopied m tmp a n left).heap n).xparent = (m.heap a).xparent ∧
    ((swapCopied m tmp a n left).heap n).xchild = (m.heap a).xchild ∧
    ((swapCopied m tmp a n left).heap n).xbalance = b ∧
    ((swapCopied m tmp a n left).heap n).avlChild (!left) = (m.heap a).avlChild (!left) := by
  rw [swapCopied_node h.distinct.1]
  split
  · refine ⟨rfl, rfl, h.balance, ?_⟩
    rw [AvlNode.setChild_child_of_ne _ (by simp)]
  · exact ⟨rfl, rfl, h.balance, rfl⟩

theorem linked_tmp (top : Addr) :
    (swapMoved m tmp a n left top).heap tmp =
      if tmp = top then (m.heap n).setParent n else m.heap n := by
  have hroot : tmp ≠ (m.heap a).avlChild (!left) :=
    (h.fresh (.inr (.inr (.inl h.other_root)))).1.symm
  have hcopy : ((swapCopied m tmp a n left).link (m.heap a).xparent (m.heap a).xchild n).heap tmp =
      m.heap n := by
    rw [link_of_ne _ h.node_parent.2, swapCopied_tmp h.distinct.2.1]
  rw [swapMoved, setParent_of_ne _ hroot]
  split
  · next heq => rw [← heq, AvlMem.setParent, modify_self, hcopy]
  · next hneq => rw [setParent_of_ne _ hneq, hcopy]

theorem swap_eq {top parent : Addr} {whichChild : Bool}
    (htop : ((swapCopied m tmp a n left).heap n).avlChild left = top) (hne : n ≠ top)
    (hparent : (if tmp = top then (m.heap n).setParent n else m.heap n).xparent = parent)
    (hchild : (if tmp = top then (m.heap n).setParent n else m.heap n).xchild = whichChild)
    (htmp : tmp ≠ parent) :
    avlSwap m tmp a n left = swapResult m tmp a n left top parent whichChild := by
  obtain ⟨hp, hd, -, hr⟩ := h.copied_node
  have hlinked := swapLinked_eq (swapCopied m tmp a n left) left
    (hp ▸ h.node_parent.1) (htop ▸ hne)
  rw [hp, hd, htop, hr] at hlinked
  have hval : (swapLinked (swapCopied m tmp a n left) n left).heap tmp =
      if tmp = top then (m.heap n).setParent n else m.heap n := by
    rw [hlinked]
    exact h.linked_tmp top
  have hkids : ((swapLinked (swapCopied m tmp a n left) n left).heap tmp).avlChild =
      (m.heap n).avlChild := by
    rw [hval]
    split <;> rfl
  rw [avlSwap_eq, swapBelow_eq _ left (by rw [hval, hparent]; exact htmp)
    (by rw [hkids, h.last]), hkids, hval, hparent, hchild, hlinked]
  rfl

theorem disjoint :
    (c ∈ y.toList → c ∉ ctxNodes frames ∧ c ∉ other.toList ∧ c ∉ ctxNodes ctx) ∧
    (c ∈ ctxNodes frames → c ∉ other.toList ∧ c ∉ ctxNodes ctx) ∧
    (c ∈ other.toList → c ∉ ctxNodes ctx) := by
  obtain ⟨-, hrest, hy⟩ := List.nodup_append.mp h.parts_nodup
  obtain ⟨-, hrest, hf⟩ := List.nodup_append.mp hrest
  obtain ⟨-, -, ho⟩ := List.nodup_append.mp hrest
  simp only [List.mem_append] at hy hf ho
  grind

theorem last_step (hc : c ∉ y.toList) (m₃ : AvlMem) :
    (if (m.heap n).avlChild left ≠ 0#64 then m₃.setParent ((m.heap n).avlChild left) tmp
      else m₃).heap c = m₃.heap c := by
  split
  · next hne => exact setParent_of_ne _ (ne_of_mem_of_not_mem (h.below.root_mem hne) hc).symm _
  · rfl

theorem root_ne (hc : c ∉ other.toList) : c ≠ (m.heap a).avlChild (!left) :=
  (ne_of_mem_of_not_mem h.other_root hc).symm

variable {m' : AvlMem} {top parent : Addr} {whichChild : Bool}
  (hm : m' = swapResult m tmp a n left top parent whichChild)

include hm

theorem result_path (hc : c ∈ ctxNodes frames) :
    m'.heap c = ((m.setParent top n).setChild parent whichChild tmp).heap c := by
  obtain ⟨hother, hctx⟩ := h.disjoint.2.1 hc
  rw [hm, swapResult, h.last_step fun hy => (h.disjoint.1 hy).1 hc]
  refine modify_congr ?_ _ _
  rw [swapMoved, setParent_of_ne _ (h.root_ne hother)]
  refine modify_congr ?_ _ _
  rw [h.above.link_out hctx, h.copied_other (.inr (.inl hc))]

theorem result_node (hne : n ≠ top) :
    m'.heap n =
      if n = parent then ((swapCopied m tmp a n left).heap n).setChild whichChild tmp
      else (swapCopied m tmp a n left).heap n := by
  have hsame : (swapMoved m tmp a n left top).heap n = (swapCopied m tmp a n left).heap n := by
    have hroot := h.root_ne fun hn => (h.fresh (.inr (.inr (.inl hn)))).2.2 rfl
    rw [swapMoved, setParent_of_ne _ hroot, setParent_of_ne _ hne, link_of_ne _ h.node_parent.1]
  rw [hm, swapResult, h.last_step fun hn => (h.fresh (.inl hn)).2.2 rfl]
  split
  · next heq => rw [← heq, AvlMem.setChild, modify_self, hsame]
  · next hneq => rw [setChild_of_ne _ hneq, hsame]

theorem result_tmp (hne : tmp ≠ parent) :
    m'.heap tmp = if tmp = top then (m.heap n).setParent n else m.heap n := by
  rw [hm, swapResult, h.last_step fun hn => (h.fresh (.inl hn)).1 rfl, setChild_of_ne _ hne]
  exact h.linked_tmp top

variable (htop : top = tmp ∨ top ∈ ctxNodes frames)
  (hparent : parent = n ∨ parent ∈ ctxNodes frames)

omit hm in
include htop hparent in
theorem ends_ne (hc : c ∈ y.toList ∨ c ∈ other.toList ∨ c ∈ ctxNodes ctx) :
    c ≠ top ∧ c ≠ parent := by
  have hfresh := h.fresh (by tauto)
  have hout : c ∉ ctxNodes frames := by
    intro hf
    obtain ⟨hy, hf', -⟩ := h.disjoint
    tauto
  constructor
  · rcases htop with rfl | htop
    · exact hfresh.1
    · exact (ne_of_mem_of_not_mem htop hout).symm
  · rcases hparent with rfl | hparent
    · exact hfresh.2.2
    · exact (ne_of_mem_of_not_mem hparent hout).symm

include htop hparent

theorem result_above (hc : c ∈ ctxNodes ctx) :
    m'.heap c = (m.link (m.heap a).xparent (m.heap a).xchild n).heap c := by
  obtain ⟨hne, hne'⟩ := h.ends_ne htop hparent (.inr (.inr hc))
  have hcopy := h.copied_other (.inr (.inr (.inr hc)))
  rw [hm, swapResult, h.last_step fun hy => (h.disjoint.1 hy).2.2 hc, setChild_of_ne _ hne',
    swapMoved, setParent_of_ne _ (h.root_ne fun ho => h.disjoint.2.2 ho hc), setParent_of_ne _ hne]
  unfold AvlMem.link
  split
  · exact modify_congr hcopy _ _
  · exact hcopy

theorem result_beside (hc : c ∈ other.toList) :
    m'.heap c = (m.setParent ((m.heap a).avlChild (!left)) n).heap c := by
  obtain ⟨hne, hne'⟩ := h.ends_ne htop hparent (.inr (.inl hc))
  rw [hm, swapResult, h.last_step fun hy => (h.disjoint.1 hy).2.1 hc, setChild_of_ne _ hne',
    swapMoved]
  refine modify_congr ?_ _ _
  rw [setParent_of_ne _ hne, h.above.link_out (h.disjoint.2.2 hc),
    h.copied_other (.inr (.inr (.inl hc)))]

theorem result_below (hc : c ∈ y.toList) :
    m'.heap c = (if (m.heap n).avlChild left ≠ 0#64 then m.setParent ((m.heap n).avlChild left) tmp
      else m).heap c := by
  obtain ⟨hne, hne'⟩ := h.ends_ne htop hparent (.inl hc)
  obtain ⟨-, hother, hctx⟩ := h.disjoint.1 hc
  have hsame : ((swapMoved m tmp a n left top).setChild parent whichChild tmp).heap c =
      m.heap c := by
    rw [setChild_of_ne _ hne', swapMoved, setParent_of_ne _ (h.root_ne hother),
      setParent_of_ne _ hne, h.above.link_out hctx, h.copied_other (.inl hc)]
  rw [hm, swapResult]
  split
  · exact modify_congr hsame _ _
  · exact hsame

theorem result_parts :
    CtxRep m'.heap 0#64 false m'.avlRoot n (m.heap a).xparent (m.heap a).xchild ctx ∧
      Rep m'.heap n (!left) ((m.heap a).avlChild (!left)) other ∧
      Rep m'.heap tmp left ((m.heap n).avlChild left) y := by
  obtain ⟨hynodup, hrest, -⟩ := List.nodup_append.mp h.parts_nodup
  obtain ⟨-, hrest, -⟩ := List.nodup_append.mp hrest
  obtain ⟨honodup, hctxnodup, -⟩ := List.nodup_append.mp hrest
  refine ⟨?_, ?_, ?_⟩
  · have hroot : m'.avlRoot = (m.link (m.heap a).xparent (m.heap a).xchild n).avlRoot := by
      rw [hm]
      unfold swapResult swapMoved AvlMem.link
      by_cases hp : (m.heap a).xparent = 0#64 <;>
        by_cases hy : (m.heap n).avlChild left = 0#64 <;>
          simp [hp, hy, AvlMem.setParent, AvlMem.setChild]
    rw [hroot]
    exact (h.above.link hctxnodup n).congr fun c hc => h.result_above hm htop hparent hc
  · exact (h.beside.setParent h.other_ne honodup h.node_aligned).congr
      fun c hc => h.result_beside hm htop hparent hc
  · have hbelow : Rep (if (m.heap n).avlChild left ≠ 0#64
        then m.setParent ((m.heap n).avlChild left) tmp else m).heap tmp left
        ((m.heap n).avlChild left) y := by
      by_cases h0 : (m.heap n).avlChild left = 0#64
      · rw [if_neg (not_not.mpr h0)]
        have hy := h.below
        cases hy.root_eq_zero.mp h0
        exact h0
      · rw [if_pos h0]
        exact h.below.setParent (fun hnil => h0 (h.below.root_eq_zero.mpr hnil)) hynodup
          h.tmp_aligned
    exact hbelow.congr fun c hc => h.result_below hm htop hparent hc

end AvlMem.AtInner

theorem AvlMem.AtInner.swap_direct (h : m.AtInner ctx [] tmp a n left b bal y other) :
    (avlSwap m tmp a n left).At (⟨left, n, b, other⟩ :: ctx) n left
      (join (!left) nil tmp bal y) := by
  obtain ⟨-, hside, htop⟩ := h.path
  obtain ⟨htmpa, htmpn, -⟩ := h.distinct
  have hkid : ((swapCopied m tmp a n left).heap n).avlChild left = tmp := by
    rw [swapCopied_node htmpa, if_pos htop, AvlNode.setChild_child]
  have heq : avlSwap m tmp a n left = swapResult m tmp a n left tmp n left :=
    h.swap_eq hkid htmpn.symm
      (by rw [if_pos rfl, AvlNode.setParent_xparent _ h.node_aligned])
      (by rw [if_pos rfl, AvlNode.setParent_xchild _ h.node_aligned, hside]) htmpn
  obtain ⟨habove, hbeside, hbelow⟩ := h.result_parts heq (.inl rfl) (.inl rfl)
  have hnode := h.result_node heq htmpn.symm
  have htmp := h.result_tmp heq htmpn
  rw [if_pos rfl] at hnode htmp
  obtain ⟨hp, hd, hb, hr⟩ := h.copied_node
  refine h.assemble ?_ ?_ ?_ ?_ ?_ habove hbeside ⟨rfl, rfl, rfl⟩ ?_ ?_ ?_ ?_ ?_
  · rw [hnode, AvlNode.setChild_xparent, hp]
  · rw [hnode, AvlNode.setChild_xchild, hd]
  · rw [hnode, AvlNode.setChild_xbalance, hb]
  · rw [hnode, AvlNode.setChild_child]
  · rw [hnode, AvlNode.setChild_child_of_ne _ (by simp), hr]
  · rw [htmp, AvlNode.setParent_xparent _ h.node_aligned]
  · rw [htmp, AvlNode.setParent_xchild _ h.node_aligned, hside]
  · rw [htmp, AvlNode.setParent_xbalance _ h.node_aligned, h.node_balance]
  · rw [htmp, AvlNode.setParent_child, h.last]
  · rwa [htmp, AvlNode.setParent_child]

theorem AvlMem.AtInner.swap_deep {f : Frame Addr}
    (h : m.AtInner ctx (f :: frames) tmp a n left b bal y other) :
    (avlSwap m tmp a n left).At (f :: frames ++ ⟨left, n, b, other⟩ :: ctx) f.a f.dir
      (join (!left) nil tmp bal y) := by
  obtain ⟨htmpa, htmpn, -⟩ := h.distinct
  obtain ⟨-, hrest, -⟩ := List.nodup_append.mp h.parts_nodup
  obtain ⟨hfnodup, -, -⟩ := List.nodup_append.mp hrest
  obtain ⟨hpath, htop⟩ := h.path.setParent (List.cons_ne_nil _ _) hfnodup h.node_aligned
  have hq : f.a ∈ ctxNodes (f :: frames) := by simp [ctxNodes]
  have htopn := h.fresh (.inr (.inl htop))
  have hqn := h.fresh (.inr (.inl hq))
  have hkid : (swapCopied m tmp a n left).heap n = m.heap a := by
    rw [swapCopied_node htmpa, if_neg htopn.2.2]
  have heq : avlSwap m tmp a n left =
      swapResult m tmp a n left ((m.heap a).avlChild left) f.a f.dir :=
    h.swap_eq (by rw [hkid]) htopn.2.2.symm (by rw [if_neg htopn.1.symm, h.path.1])
      (by rw [if_neg htopn.1.symm, h.path.2.1]) hqn.1.symm
  obtain ⟨habove, hbeside, hbelow⟩ := h.result_parts heq (.inr htop) (.inr hq)
  have hnode := h.result_node heq htopn.2.2.symm
  have htmp := h.result_tmp heq hqn.1.symm
  rw [if_neg hqn.2.2.symm, hkid] at hnode
  rw [if_neg htopn.1.symm] at htmp
  rw [h.path.1, h.path.2.1] at hpath
  have hdown := (hpath.setChild hfnodup tmp).congr fun c hc => h.result_path heq hc
  refine h.assemble ?_ ?_ ?_ ?_ ?_ habove hbeside hdown ?_ ?_ ?_ ?_ (by rwa [htmp]) <;>
    simp only [hnode, htmp, h.balance, h.path.1, h.path.2.1, h.node_balance, h.last]

@[simp] theorem avlSwap_avlNumnodes (m : AvlMem) (tmp a n : Addr) (left : Bool) :
    (avlSwap m tmp a n left).avlNumnodes = m.avlNumnodes := by
  unfold avlSwap
  dsimp only
  split <;> split <;> simp [AvlMem.setParent, AvlMem.setChild]

end Swap

section Remove

variable {m : AvlMem} {ctx frames : Ctx Addr} {tmp a n : Addr} {left : Bool} {b bal : Int}
  {x y other : AvlTree Addr} {t : AvlTree Addr}

theorem perm_inner (ctx frames : Ctx Addr) (a n : Addr) (left : Bool) (b bal : Int)
    (y other : AvlTree Addr) :
    (plug ctx (join left (plug frames (join (!left) nil n bal y)) a b other)).toList.Perm
      (a :: n :: (y.toList ++ (ctxNodes frames ++ (other.toList ++ ctxNodes ctx)))) := by
  refine (perm_plug _ _).trans ?_
  refine ((perm_join left _ a b other).append_right _).trans (List.Perm.cons a ?_)
  refine ((((perm_plug frames _).trans
    ((perm_join (!left) nil n bal y).append_right _)).append_right _).append_right _).trans ?_
  simp [toList]

theorem avlUnlink_join {p : Addr} {d : Bool}
    (hat : m.At ctx p d (join left nil a b t)) (hwf : (join left nil a b t).WF)
    (hctx : CtxWF (join left nil a b t).height ctx) (hlen : ctx.length < m.avlNumnodes) :
    ∃ m', avlUnlink m a = some m' ∧ Rep m'.heap 0#64 false m'.avlRoot (shrinkUp ctx t) ∧
      m'.avlNumnodes = m.avlNumnodes - 1 := by
  cases left with
  | true => exact avlUnlink_rep hat hwf hctx (.inr ⟨rfl, rfl⟩) hlen
  | false => exact avlUnlink_rep hat hwf hctx (.inl ⟨rfl, rfl⟩) hlen

section

variable (h : m.Balanced t)
  (ht : t = plug ctx (join left (plug frames (join (!left) nil n bal y)) a b other))
include h ht

section

variable (hother : other ≠ nil) (htmp : tmp ≠ 0#64) (hal : Aligned tmp) (hfresh : tmp ∉ t.toList)
include hother htmp hal hfresh

theorem atInner_of_rep : m.AtInner ctx frames tmp a n left b bal y other := by
  subst ht
  have hperm := perm_inner ctx frames a n left b bal y other
  obtain ⟨hole, p, d, hnode, habove⟩ := Rep_plug.mp h.rep
  obtain ⟨rfl, -, -, rfl, rfl, hb, hnear, hfar⟩ := Rep_join.mp hnode
  obtain ⟨hole', p, d, hlast, hpath⟩ := Rep_plug.mp hnear
  obtain ⟨rfl, hn0, hnal, rfl, rfl, hnb, hnil, hbelow⟩ := Rep_join.mp hlast
  rw [Bool.not_not] at hbelow
  refine ⟨hb, habove, hfar, hother, hpath, hn0, hnal, hnb, hnil, hbelow, htmp, hal, ?_⟩
  exact List.nodup_cons.mpr ⟨fun hmem => hfresh (hperm.mem_iff.mpr hmem),
    hperm.nodup_iff.mp h.nodup⟩

omit hother htmp hal hfresh in
variable (tmp) in
theorem WF_inner :
    (join (!left) nil tmp bal y).WF ∧
      CtxWF (join (!left) nil tmp bal y).height (frames ++ ⟨left, n, b, other⟩ :: ctx) := by
  subst ht
  obtain ⟨hnode, hctx⟩ := WF_plug.mp h.wf
  obtain ⟨hx, hother, hb, hlo, hhi⟩ := WF_join.mp hnode
  obtain ⟨hlast, hframes⟩ := WF_plug.mp hx
  refine ⟨WF_join.mpr (WF_join.mp hlast), ?_⟩
  have hheight : (join (!left) nil tmp bal y).height = (join (!left) nil n bal y).height := by
    rw [height_join, height_join]
  rw [hheight]
  refine CtxWF_append.mpr ⟨hframes, hother, hb, hlo, hhi, ?_⟩
  rw [height_join] at hctx
  exact hctx

theorem avlSwap_unlink :
    ∃ m', avlUnlink (avlSwap m tmp a n left) tmp = some m' ∧
      Rep m'.heap 0#64 false m'.avlRoot (shrinkUp (frames ++ ⟨left, n, b, other⟩ :: ctx) y) ∧
      m'.avlNumnodes = m.avlNumnodes - 1 := by
  have hinner := atInner_of_rep h ht hother htmp hal hfresh
  obtain ⟨hwf, hctx⟩ := WF_inner tmp h ht
  have hlen : (frames ++ ⟨left, n, b, other⟩ :: ctx).length < m.avlNumnodes := by
    have hctxlen := length_le_ctxNodes ctx
    have hframeslen := length_le_ctxNodes frames
    rw [h.count, size, ht, (perm_inner ctx frames a n left b bal y other).length_eq]
    simp only [List.length_append, List.length_cons]
    omega
  have hat : ∃ p d, (avlSwap m tmp a n left).At (frames ++ ⟨left, n, b, other⟩ :: ctx) p d
      (join (!left) nil tmp bal y) := by
    cases frames with
    | nil => exact ⟨n, left, hinner.swap_direct⟩
    | cons f frames => exact ⟨f.a, f.dir, hinner.swap_deep⟩
  obtain ⟨p, d, hat⟩ := hat
  have hunlink := avlUnlink_join hat hwf hctx (by rw [avlSwap_avlNumnodes]; exact hlen)
  rw [avlSwap_avlNumnodes] at hunlink
  exact hunlink

end

end

theorem avlRemove_inner {l r : AvlTree Addr}
    (h : m.Balanced (plug ctx (node l a b r))) (hl : l ≠ nil) (hr : r ≠ nil) (htmp : tmp ≠ 0#64)
    (hal : Aligned tmp) (hfresh : tmp ∉ (plug ctx (node l a b r)).toList) :
    ∃ m', avlRemove m tmp a = some m' ∧
      Rep m'.heap 0#64 false m'.avlRoot (removeInner ctx l b r) ∧
      m'.avlNumnodes = m.avlNumnodes - 1 := by
  obtain ⟨hole, p, d, hnode, -⟩ := Rep_plug.mp h.rep
  obtain ⟨rfl, -, -, -, -, hb, hlrep, hrrep⟩ := hnode
  have hl0 := fun h0 => hl (hlrep.root_eq_zero.mp h0)
  have hr0 := fun h0 => hr (hrrep.root_eq_zero.mp h0)
  rw [avlRemove, if_pos ⟨hl0, hr0⟩, hb]
  unfold removeInner avlBalance2child
  dsimp only
  generalize hleft : decide (b = 1) = left
  have hjoin : node l hole b r =
      join left (if left then r else l) hole b (if left then l else r) := by
    cases left <;> rfl
  have hx : Rep m.heap hole left ((m.heap hole).avlChild left) (if left then r else l) := by
    cases left
    exacts [hlrep, hrrep]
  have hx0 : (m.heap hole).avlChild left ≠ 0#64 := by
    cases left
    exacts [hl0, hr0]
  have hother : (if left then l else r) ≠ nil := by
    cases left
    exacts [hr, hl]
  rw [hjoin] at h hfresh
  generalize (if left then r else l) = x at h hfresh hx ⊢
  generalize (if left then l else r) = other at h hfresh hother ⊢
  have hfuel : x.height < m.avlNumnodes + 1 := by
    have hheight := height_le_size x
    rw [h.count, size, (perm_plug ctx _).length_eq, List.length_append,
      (perm_join left x hole b other).length_eq]
    unfold size at hheight
    simp only [List.length_cons, List.length_append]
    omega
  obtain ⟨frames, n, y, hdesc, hdown⟩ := avlDown_rep (!left) hfuel hx0 hx []
  obtain ⟨frames', bal, heq, rfl, -⟩ := descend_spec hdesc
  rw [List.append_nil] at heq
  subst heq
  rw [hdesc, hdown, Option.bind_some]
  exact avlSwap_unlink h rfl hother htmp hal hfresh

theorem avlRemove_balanced {l r : AvlTree Addr} (h : m.Balanced (plug ctx (node l a b r)))
    (htmp : tmp ≠ 0#64) (hal : Aligned tmp) (hfresh : tmp ∉ (plug ctx (node l a b r)).toList) :
    ∃ m' t', avlRemove m tmp a = some m' ∧ m'.Balanced t' ∧
      t'.toList = before ctx ++ (l.toList ++ r.toList) ++ after ctx := by
  obtain ⟨hwf, hctxwf⟩ := WF_plug.mp h.wf
  have hlist := toList_removeAt ctx l b r
  suffices ∃ m', avlRemove m tmp a = some m' ∧
      Rep m'.heap 0#64 false m'.avlRoot (removeAt ctx l b r) ∧
      m'.avlNumnodes = m.avlNumnodes - 1 by
    obtain ⟨m', hrun, hrep, hnum⟩ := this
    refine ⟨m', _, hrun, ⟨⟨hrep, ?_, ?_⟩, WF_removeAt hwf hctxwf⟩, hlist⟩
    · have hnodup := h.nodup
      rw [toList_plug, toList] at hnodup
      rw [hlist]
      refine hnodup.sublist (List.Sublist.append (List.Sublist.append (List.Sublist.refl _) ?_)
        (List.Sublist.refl _))
      exact List.Sublist.append (List.Sublist.refl _) (List.sublist_cons_self _ _)
    · rw [hnum, h.count, size, size, hlist, toList_plug, toList]
      simp only [List.length_append, List.length_cons]
      omega
  obtain ⟨hole, p, d, hnode, hctx⟩ := Rep_plug.mp h.rep
  have hperm := perm_plug ctx (node l a b r)
  have hat : m.At ctx p d (node l a b r) := ⟨⟨hole, hnode, hctx⟩, hperm.nodup_iff.mp h.nodup⟩
  have hlen : ctx.length < m.avlNumnodes := by
    have hctxlen := length_le_ctxNodes ctx
    rw [h.count, size, hperm.length_eq, toList]
    simp only [List.length_append, List.length_cons]
    omega
  obtain ⟨rfl, -, -, -, -, -, hlrep, hrrep⟩ := hnode
  cases l with
  | nil =>
    have h0 : (m.heap hole).avlChild false = 0#64 := hlrep
    rw [avlRemove, if_neg fun hne => hne.1 h0]
    exact avlUnlink_rep hat hwf hctxwf (.inl ⟨rfl, rfl⟩) hlen
  | node ll la lb lr =>
    cases r with
    | nil =>
      have h0 : (m.heap hole).avlChild true = 0#64 := hrrep
      rw [avlRemove, if_neg fun hne => hne.2 h0]
      exact avlUnlink_rep hat hwf hctxwf (.inr ⟨rfl, rfl⟩) hlen
    | node rl ra rb rr => exact avlRemove_inner h (by simp) (by simp) htmp hal hfresh

theorem position_unique {l r : AvlTree Addr} {bs as : List Addr}
    (nodup : (plug ctx (node l a b r)).toList.Nodup)
    (hcut : (plug ctx (node l a b r)).toList = bs ++ a :: as) :
    before ctx ++ l.toList = bs ∧ r.toList ++ after ctx = as := by
  have hlist := hcut
  rw [toList_plug_node] at hlist
  rw [hcut] at nodup
  have hout := (List.nodup_cons.mp (List.perm_middle.nodup_iff.mp nodup)).1
  rw [List.mem_append, not_or] at hout
  obtain ⟨rfl, -, rfl⟩ := (List.append_cons_inj_of_notMem hout.1 hout.2).mp hlist.symm
  exact ⟨rfl, rfl⟩

theorem avlRemove_list {bs as : List Addr} (h : m.Balanced t)
    (hcut : t.toList = bs ++ a :: as) (htmp : tmp ≠ 0#64) (hal : Aligned tmp)
    (hfresh : tmp ∉ t.toList) :
    ∃ m' t', avlRemove m tmp a = some m' ∧ m'.Balanced t' ∧ t'.toList = bs ++ as := by
  have hmem : a ∈ t.toList := by simp [hcut]
  obtain ⟨ctx, l, b, r, rfl⟩ := exists_position hmem
  obtain ⟨rfl, rfl⟩ := position_unique h.nodup hcut
  obtain ⟨m', t', hrun, hbal, hlist⟩ := avlRemove_balanced h htmp hal hfresh
  exact ⟨m', t', hrun, hbal, by simp [hlist]⟩

theorem avlInsertHere_list {bs as : List Addr} {new here : Addr} (d : Bool)
    (h : m.Balanced t) (hcut : t.toList = bs ++ here :: as) (hne : new ≠ 0#64)
    (hal : Aligned new) (hnew : new ∉ t.toList) :
    ∃ m' t', avlInsertHere m new here d = some m' ∧ m'.Balanced t' ∧
      t'.toList = bs ++ (if d then [here, new] else [new, here]) ++ as := by
  have hmem : here ∈ t.toList := by simp [hcut]
  obtain ⟨ctx, l, b, r, rfl⟩ := exists_position hmem
  obtain ⟨rfl, rfl⟩ := position_unique h.nodup hcut
  cases d with
  | true =>
    have h' : m.Balanced (plug ctx (join true r here b l)) := h
    obtain ⟨m', t', hrun, hbal, hlist⟩ := avlInsertHere_rep h' hne hal hnew
    exact ⟨m', t', hrun, hbal, by simp [hlist, joinList]⟩
  | false =>
    have h' : m.Balanced (plug ctx (join false l here b r)) := h
    obtain ⟨m', t', hrun, hbal, hlist⟩ := avlInsertHere_rep h' hne hal hnew
    exact ⟨m', t', hrun, hbal, by simp [hlist, joinList]⟩

end Remove

end ClusterZfs

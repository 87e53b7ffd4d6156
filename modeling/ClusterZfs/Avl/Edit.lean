import ClusterZfs.Avl.Rep

/-! What the writes of `avl.c` do to the tree in memory. -/
namespace ClusterZfs

open AvlTree

section Mem

variable (m : AvlMem) (a : Addr) (f : AvlNode → AvlNode) (p : Addr) (c : Bool)

@[simp] theorem modify_self :
    (m.modify a f).heap a = f (m.heap a) := by
  simp [AvlMem.modify]

@[simp] theorem modify_of_ne {a b : Addr} (h : b ≠ a) (f : AvlNode → AvlNode) :
    (m.modify a f).heap b = m.heap b := by
  simp [AvlMem.modify, h]

@[simp] theorem modify_avlRoot :
    (m.modify a f).avlRoot = m.avlRoot := rfl

@[simp] theorem modify_avlNumnodes :
    (m.modify a f).avlNumnodes = m.avlNumnodes := rfl

theorem setParent_of_ne {a b : Addr} (h : b ≠ a) (p : Addr) :
    (m.setParent a p).heap b = m.heap b := by
  simp [AvlMem.setParent, h]

theorem setChild_of_ne {a b : Addr} (h : b ≠ a) (c : Bool) (p : Addr) :
    (m.setChild a c p).heap b = m.heap b := by
  simp [AvlMem.setChild, h]

theorem reparent_of_ne {a b : Addr} (h : b ≠ a) (p : Addr) (c : Bool) :
    (m.reparent a p c).heap b = m.heap b := by
  unfold AvlMem.reparent
  split
  · simp [AvlMem.setParent, AvlMem.setChildIndex, h]
  · rfl

@[simp] theorem reparent_avlRoot :
    (m.reparent a p c).avlRoot = m.avlRoot := by
  unfold AvlMem.reparent
  split <;> rfl

@[simp] theorem reparent_avlNumnodes :
    (m.reparent a p c).avlNumnodes = m.avlNumnodes := by
  unfold AvlMem.reparent
  split <;> rfl

theorem link_of_ne {p b : Addr} (h : b ≠ p) (c : Bool) (a : Addr) :
    (m.link p c a).heap b = m.heap b := by
  unfold AvlMem.link
  split
  · simp [AvlMem.setChild, h]
  · rfl

@[simp] theorem link_avlNumnodes (a : Addr) :
    (m.link p c a).avlNumnodes = m.avlNumnodes := by
  unfold AvlMem.link
  split <;> rfl

end Mem

section Trees

theorem perm_join {α : Type*} (d : Bool) (x : AvlTree α) (a : α) (b : Int) (y : AvlTree α) :
    (join d x a b y).toList.Perm (a :: (x.toList ++ y.toList)) := by
  rw [toList_join]
  cases d with
  | true =>
    exact List.perm_middle.trans (List.Perm.cons a List.perm_append_comm)
  | false => exact List.perm_middle

theorem perm_plug (ctx : Ctx Addr) (t : AvlTree Addr) :
    (plug ctx t).toList.Perm (t.toList ++ ctxNodes ctx) := by
  induction ctx generalizing t with
  | nil => simp [plug, ctxNodes]
  | cons f ctx ih =>
    refine (ih (f.plug t)).trans ?_
    refine ((perm_join f.dir t f.a f.bal f.sib).append_right (ctxNodes ctx)).trans ?_
    simp only [ctxNodes, List.flatMap_cons]
    rw [← List.append_assoc]
    exact List.Perm.append_right _ List.perm_middle.symm

variable {m : AvlMem} {p hole root : Addr} {d : Bool} {t : AvlTree Addr} {ctx : Ctx Addr}

section

variable (h : CtxRep m.heap 0#64 false m.avlRoot hole p d ctx)
include h

theorem CtxRep.parent_mem
    (hp : p ≠ 0#64) : p ∈ ctxNodes ctx := by
  cases ctx with
  | nil => exact absurd h.1 hp
  | cons f ctx => simp [ctxNodes, h.1]

theorem CtxRep.aligned : Aligned p := by
  cases ctx with
  | nil =>
    rw [h.1]
    rfl
  | cons f ctx =>
    rw [h.1]
    exact h.2.2.2.1

end

theorem Rep.reparent (h : Rep m.heap p d root t) (nodup : t.toList.Nodup) {p' : Addr}
    (hal : Aligned p') (d' : Bool) : Rep (m.reparent root p' d').heap p' d' root t := by
  cases t with
  | nil => exact h
  | node l a b r =>
    obtain ⟨rfl, hne, halign, -, -, hb, hl, hr⟩ := h
    have hself : (m.reparent root p' d').heap root =
        ((m.heap root).setParent p').setChildIndex d' := by
      simp [AvlMem.reparent, hne, AvlMem.setParent, AvlMem.setChildIndex]
    have hout : ∀ c, c ∈ l.toList ∨ c ∈ r.toList → c ≠ root := by
      have hnodup := (perm_join false l root b r).nodup_iff.mp nodup
      rintro c hc rfl
      exact (List.nodup_cons.mp hnodup).1 (List.mem_append.mpr hc)
    refine ⟨rfl, hne, halign, ?_, ?_, ?_, ?_, ?_⟩
    · rw [hself, AvlNode.setChildIndex_xparent, AvlNode.setParent_xparent _ hal]
    · rw [hself, AvlNode.setChildIndex_xchild]
    · rw [hself, AvlNode.setChildIndex_xbalance, AvlNode.setParent_xbalance _ hal, hb]
    · rw [hself]
      exact hl.congr fun c hc => reparent_of_ne m (hout c (.inl hc)) p' d'
    · rw [hself]
      exact hr.congr fun c hc => reparent_of_ne m (hout c (.inr hc)) p' d'

theorem Rep.reparent_out {heap : Addr → AvlNode} (h : Rep heap p d root t) {b : Addr}
    (hb : b ∉ t.toList) (p' : Addr) (d' : Bool) :
    (m.reparent root p' d').heap b = m.heap b := by
  by_cases h0 : root = 0#64
  · simp [AvlMem.reparent, h0]
  · have hne : b ≠ root := by
      rintro rfl
      exact hb (h.root_mem h0)
    exact reparent_of_ne m hne p' d'

theorem CtxRep.setChild {P top : Addr} {D : Bool} {f : Frame Addr}
    (h : CtxRep m.heap P D top hole p d (f :: ctx))
    (nodup : (ctxNodes (f :: ctx)).Nodup) (new : Addr) :
    CtxRep (m.setChild f.a f.dir new).heap P D top new p d (f :: ctx) := by
  obtain ⟨rfl, rfl, hne, hal, -, hb, hsib, hctx⟩ := h
  rw [ctxNodes_cons, List.nodup_cons, List.mem_append, not_or] at nodup
  have hself : (m.setChild f.a f.dir new).heap f.a = (m.heap f.a).setChild f.dir new := by
    simp [AvlMem.setChild]
  refine ⟨rfl, rfl, hne, hal, ?_, ?_, ?_, ?_⟩
  · rw [hself, AvlNode.setChild_child]
  · rw [hself, AvlNode.setChild_xbalance, hb]
  · rw [hself, AvlNode.setChild_child_of_ne _ (by simp)]
    exact hsib.congr fun c hc => setChild_of_ne m (ne_of_mem_of_not_mem hc nodup.1.1) _ _
  · rw [hself, AvlNode.setChild_xparent, AvlNode.setChild_xchild]
    exact hctx.congr fun c hc => setChild_of_ne m (ne_of_mem_of_not_mem hc nodup.1.2) _ _

theorem CtxRep.link (h : CtxRep m.heap 0#64 false m.avlRoot hole p d ctx)
    (nodup : (ctxNodes ctx).Nodup) (new : Addr) :
    CtxRep (m.link p d new).heap 0#64 false (m.link p d new).avlRoot new p d ctx := by
  cases ctx with
  | nil =>
    obtain ⟨rfl, rfl, -⟩ := h
    exact ⟨rfl, rfl, by simp [AvlMem.link]⟩
  | cons f ctx =>
    have hlink : m.link p d new = m.setChild f.a f.dir new := by
      simp [AvlMem.link, h.1, h.2.1, h.2.2.1]
    rw [hlink]
    exact h.setChild nodup new

theorem relink (ht : Rep m.heap p d root t)
    (hctx : CtxRep m.heap 0#64 false m.avlRoot hole p d ctx)
    (nodup : (t.toList ++ ctxNodes ctx).Nodup) :
    Rep (m.link p d root).heap 0#64 false (m.link p d root).avlRoot (plug ctx t) := by
  obtain ⟨-, hnodup, hdisj⟩ := List.nodup_append.mp nodup
  refine Rep_plug.mpr ⟨root, p, d, ?_, hctx.link hnodup root⟩
  by_cases hp : p = 0#64
  · have hheap : (m.link p d root).heap = m.heap := by simp [AvlMem.link, hp]
    rw [hheap]
    exact ht
  · have hmem := hctx.parent_mem hp
    exact ht.congr fun c hc => link_of_ne m (hdisj c hc p hmem) d root

end Trees

end ClusterZfs

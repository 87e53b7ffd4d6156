import ClusterZfs.Avl.Code
import ClusterZfs.Lib.AvlTree

/-! Which memory holds which tree. -/
namespace ClusterZfs

open AvlTree

/- The pointer `root` leads to the tree, whose nodes point back to `p` from the side `d`. -/
def Rep (heap : Addr → AvlNode) : Addr → Bool → Addr → AvlTree Addr → Prop
  | _, _, root, nil => root = 0#64
  | p, d, root, node l a b r =>
    root = a ∧ a ≠ 0#64 ∧ Aligned a ∧ (heap a).xparent = p ∧ (heap a).xchild = d ∧
      (heap a).xbalance = b ∧ Rep heap a false ((heap a).avlChild false) l ∧
      Rep heap a true ((heap a).avlChild true) r

/- The nodes between a tree and a position in it: `top` leads to the tree, whose root points back to
`P` from the side `D`; `hole` leads to the position, where the node points back to `p` and `d`. -/
def CtxRep (heap : Addr → AvlNode) (P : Addr) (D : Bool) (top : Addr) :
    Addr → Addr → Bool → Ctx Addr → Prop
  | hole, p, d, [] => p = P ∧ d = D ∧ top = hole
  | hole, p, d, f :: ctx =>
    p = f.a ∧ d = f.dir ∧ f.a ≠ 0#64 ∧ Aligned f.a ∧ (heap f.a).avlChild f.dir = hole ∧
      (heap f.a).xbalance = f.bal ∧ Rep heap f.a (!f.dir) ((heap f.a).avlChild (!f.dir)) f.sib ∧
      CtxRep heap P D top f.a (heap f.a).xparent (heap f.a).xchild ctx

/- The nodes above a position and beside it. -/
def ctxNodes (ctx : Ctx Addr) : List Addr := ctx.flatMap fun f => f.a :: f.sib.toList

theorem ctxNodes_cons (f : Frame Addr) (ctx : Ctx Addr) :
    ctxNodes (f :: ctx) = f.a :: (f.sib.toList ++ ctxNodes ctx) := by
  simp [ctxNodes]

structure AvlMem.Holds (m : AvlMem) (t : AvlTree Addr) : Prop where
  rep : Rep m.heap 0#64 false m.avlRoot t
  nodup : t.toList.Nodup
  count : m.avlNumnodes = t.size

section Rep

variable {heap heap' : Addr → AvlNode} {p root hole P top : Addr} {d D : Bool} {t : AvlTree Addr}
  {ctx : Ctx Addr}

theorem Rep_join {x y : AvlTree Addr} {a : Addr} {b : Int} {c : Bool} :
    Rep heap p d root (join c x a b y) ↔
      root = a ∧ a ≠ 0#64 ∧ Aligned a ∧ (heap a).xparent = p ∧ (heap a).xchild = d ∧
        (heap a).xbalance = b ∧ Rep heap a c ((heap a).avlChild c) x ∧
        Rep heap a (!c) ((heap a).avlChild (!c)) y := by
  cases c with
  | true =>
    simp only [join, if_true, Rep]
    tauto
  | false =>
    simp only [join, Bool.false_eq_true, if_false, Rep, Bool.not_false]

theorem Rep.congr (h : Rep heap p d root t)
    (heq : ∀ a ∈ t.toList, heap' a = heap a) : Rep heap' p d root t := by
  induction t generalizing p d root with
  | nil => exact h
  | node l a b r ihl ihr =>
    obtain ⟨hroot, hne, hal, hp, hd, hb, hl, hr⟩ := h
    have ha : heap' a = heap a := heq a (by simp [toList])
    refine ⟨hroot, hne, hal, by rw [ha, hp], by rw [ha, hd], by rw [ha, hb], ?_, ?_⟩
    · rw [ha]
      exact ihl hl fun c hc => heq c (by simp [toList, hc])
    · rw [ha]
      exact ihr hr fun c hc => heq c (by simp [toList, hc])

theorem CtxRep.congr (h : CtxRep heap P D top hole p d ctx)
    (heq : ∀ a ∈ ctxNodes ctx, heap' a = heap a) : CtxRep heap' P D top hole p d ctx := by
  induction ctx generalizing hole p d with
  | nil => exact h
  | cons f ctx ih =>
    obtain ⟨hp, hd, hne, hal, hhole, hb, hsib, hctx⟩ := h
    have ha : heap' f.a = heap f.a := heq f.a (by simp [ctxNodes])
    refine ⟨hp, hd, hne, hal, by rw [ha, hhole], by rw [ha, hb], ?_, ?_⟩
    · rw [ha]
      exact hsib.congr fun c hc => heq c (by simp [ctxNodes, hc])
    · rw [ha]
      exact ih hctx fun c hc => heq c (by
        simp only [ctxNodes, List.flatMap_cons, List.mem_append]
        exact .inr hc)

theorem Rep_plug :
    Rep heap P D top (plug ctx t) ↔
      ∃ hole p d, Rep heap p d hole t ∧ CtxRep heap P D top hole p d ctx := by
  induction ctx generalizing t with
  | nil =>
    constructor
    · intro h
      exact ⟨top, P, D, h, rfl, rfl, rfl⟩
    · rintro ⟨hole, p, d, h, rfl, rfl, rfl⟩
      exact h
  | cons f ctx ih =>
    rw [plug, ih, Frame.plug]
    constructor
    · rintro ⟨hole, p, d, h, hctx⟩
      obtain ⟨rfl, hne, hal, rfl, rfl, hb, ht, hsib⟩ := Rep_join.mp h
      exact ⟨_, _, _, ht, rfl, rfl, hne, hal, rfl, hb, hsib, hctx⟩
    · rintro ⟨hole, p, d, ht, rfl, rfl, hne, hal, rfl, hb, hsib, hctx⟩
      exact ⟨_, _, _, Rep_join.mpr ⟨rfl, hne, hal, rfl, rfl, hb, ht, hsib⟩, hctx⟩

theorem CtxRep_append {ctx' : Ctx Addr} : CtxRep heap P D top hole p d (ctx ++ ctx') ↔
    ∃ mid pm dm, CtxRep heap pm dm mid hole p d ctx ∧ CtxRep heap P D top mid pm dm ctx' := by
  induction ctx generalizing hole p d with
  | nil =>
    constructor
    · intro h
      exact ⟨hole, p, d, ⟨rfl, rfl, rfl⟩, h⟩
    · rintro ⟨mid, pm, dm, ⟨rfl, rfl, rfl⟩, h⟩
      exact h
  | cons f ctx ih =>
    simp only [List.cons_append, CtxRep, ih]
    constructor
    · rintro ⟨h1, h2, h3, h4, h5, h6, h7, mid, pm, dm, hc, hc'⟩
      exact ⟨mid, pm, dm, ⟨h1, h2, h3, h4, h5, h6, h7, hc⟩, hc'⟩
    · rintro ⟨mid, pm, dm, ⟨h1, h2, h3, h4, h5, h6, h7, hc⟩, hc'⟩
      exact ⟨h1, h2, h3, h4, h5, h6, h7, mid, pm, dm, hc, hc'⟩

section

variable (h : Rep heap p d root t)
include h

theorem Rep.root_eq_zero : root = 0#64 ↔ t = nil := by
  cases t with
  | nil => exact ⟨fun _ => rfl, fun _ => h⟩
  | node l a b r =>
    obtain ⟨rfl, hne, -⟩ := h
    exact ⟨fun h => absurd h hne, fun h => by cases h⟩

theorem Rep.root_mem (hne : root ≠ 0#64) :
    root ∈ t.toList := by
  cases t with
  | nil => exact absurd h hne
  | node l a b r => simp [toList, h.1]

theorem Rep.ne_root {b : Addr} (hb : b ≠ 0#64)
    (hout : b ∉ t.toList) : b ≠ root := by
  rintro rfl
  exact hout (h.root_mem hb)

end

end Rep

end ClusterZfs

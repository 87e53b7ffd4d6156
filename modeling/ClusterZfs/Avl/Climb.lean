import ClusterZfs.Avl.Rotation

/-! The climbs of `avl_insert` and `avl_remove` through the parents. -/
namespace ClusterZfs

open AvlTree

/- The memory holds the tree `t` at a position. -/
structure AvlMem.At (m : AvlMem) (ctx : Ctx Addr) (p : Addr) (d : Bool) (t : AvlTree Addr) :
    Prop where
  here : ∃ hole, Rep m.heap p d hole t ∧ CtxRep m.heap 0#64 false m.avlRoot hole p d ctx
  nodup : (t.toList ++ ctxNodes ctx).Nodup

section Climb

variable {m : AvlMem} {ctx : Ctx Addr} {p : Addr} {d : Bool} {t x y : AvlTree Addr} {a : Addr}

theorem AvlMem.At.rep (h : m.At ctx p d t) : Rep m.heap 0#64 false m.avlRoot (plug ctx t) := by
  obtain ⟨hole, ht, hctx⟩ := h.here
  exact Rep_plug.mpr ⟨hole, p, d, ht, hctx⟩

theorem AvlMem.At.node {f : Frame Addr} (h : m.At (f :: ctx) p d t) :
    p = f.a ∧ d = f.dir ∧ (m.heap f.a).xbalance = f.bal ∧ m.AtNode ctx f.dir t f.a f.sib := by
  obtain ⟨hole, ht, rfl, rfl, hne, hal, hhole, hb, hsib, hctx⟩ := h.here
  refine ⟨rfl, rfl, hb, hne, hal, hhole ▸ ht, hsib, hctx, ?_⟩
  have hperm : (t.toList ++ ctxNodes (f :: ctx)).Perm
      (f.a :: (t.toList ++ f.sib.toList) ++ ctxNodes ctx) := by
    rw [ctxNodes_cons, List.cons_append, List.append_assoc]
    exact List.perm_middle
  exact hperm.nodup_iff.mp h.nodup

theorem AvlMem.AtNode.setBalance (h : m.AtNode ctx d x a y) {b : Int} (hlo : -1 ≤ b)
    (hhi : b ≤ 1) :
    (m.setBalance a b).At ctx (m.heap a).xparent (m.heap a).xchild (join d x a b y) := by
  have hself : (m.setBalance a b).heap a = (m.heap a).setBalance b := by
    simp [AvlMem.setBalance]
  have hother : ∀ c, c ≠ a → (m.setBalance a b).heap c = m.heap c := fun c hc => by
    simp [AvlMem.setBalance, hc]
  have hnodup := h.nodup
  rw [List.cons_append, List.nodup_cons, List.mem_append, List.mem_append, not_or, not_or] at hnodup
  replace hnodup := hnodup.1
  refine ⟨⟨a, Rep_join.mpr ?_, ?_⟩, ?_⟩
  · rw [hself, AvlNode.setBalance_xparent _ hlo hhi, AvlNode.setBalance_xchild _ hlo hhi,
      AvlNode.setBalance_xbalance _ hlo hhi]
    exact ⟨rfl, h.ne, h.aligned, rfl, rfl, rfl,
      h.near.congr fun c hc => hother c (ne_of_mem_of_not_mem hc hnodup.1.1),
      h.far.congr fun c hc => hother c (ne_of_mem_of_not_mem hc hnodup.1.2)⟩
  · exact h.above.congr fun c hc => hother c (ne_of_mem_of_not_mem hc hnodup.2)
  · exact ((perm_join d x a b y).append_right _).nodup_iff.mpr h.nodup

theorem avlChild2balance_eq (d : Bool) : avlChild2balance d = sign d := rfl

theorem avlInsertLoop_rep {fuel h : Nat} (hfuel : ctx.length < fuel) (hat : m.At ctx p d t)
    (hctx : CtxWF h ctx) (ht : t.WF) (hh : t.height = h + 1)
    (hlean : h = 0 ∨ ∀ d x a b y, t = join d x a b y → b ≠ 0) :
    ∃ m', avlInsertLoop fuel m p d = some m' ∧
      Rep m'.heap 0#64 false m'.avlRoot (growUp ctx t) ∧ m'.avlNumnodes = m.avlNumnodes := by
  induction ctx generalizing m p d t fuel h with
  | nil =>
    obtain ⟨fuel, rfl⟩ := Nat.exists_eq_add_of_lt hfuel
    obtain ⟨hole, -, rfl, -⟩ := hat.here
    exact ⟨m, by simp [avlInsertLoop], hat.rep, rfl⟩
  | cons f ctx ih =>
    obtain ⟨fuel, rfl⟩ := Nat.exists_eq_add_of_lt hfuel
    obtain ⟨rfl, rfl, hb, hnode⟩ := hat.node
    have hframe := hctx
    obtain ⟨hsib, hbal, hlo, hhi, hrest⟩ := hctx
    have hsign := sign_cases f.dir
    rw [avlInsertLoop, if_neg hnode.ne, growUp]
    dsimp only
    rw [hb, avlChild2balance_eq]
    by_cases hzero : f.bal + sign f.dir = 0
    · rw [if_pos hzero, if_pos hzero]
      exact ⟨_, rfl, (hnode.setBalance (by decide) (by decide)).rep, rfl⟩
    · rw [if_neg hzero, if_neg hzero]
      by_cases hold : f.bal = 0
      · rw [if_neg (not_not.mpr hold), if_neg (not_not.mpr hold)]
        obtain ⟨hup, hwf, hheight, hlean'⟩ := hframe.grown ht hh hold
        have hrange := (WF_join.mp hwf).2.2.2
        have hset := hnode.setBalance hrange.1 hrange.2
        have hself : (m.setBalance f.a (f.bal + sign f.dir)).heap f.a =
            (m.heap f.a).setBalance (f.bal + sign f.dir) := by simp [AvlMem.setBalance]
        rw [hself, AvlNode.setBalance_xparent _ hrange.1 hrange.2,
          AvlNode.setBalance_xchild _ hrange.1 hrange.2]
        exact ih (by rw [List.length_cons]; omega) hset hup hwf hheight (.inr hlean')
      · rw [if_pos hold, if_pos hold]
        have htwo : f.bal + sign f.dir = 2 * sign f.dir := by
          rcases hsign with hs | hs <;> rw [hs] at hzero ⊢ <;> omega
        have heq : t.height = f.sib.height + 2 := by
          rcases hsign with hs | hs <;> rw [hs] at hbal htwo <;> omega
        rw [htwo]
        obtain ⟨hrep, -, hnum⟩ := avlRotation_rep hnode ht heq
        exact ⟨_, rfl, hrep, hnum⟩

theorem CtxRep.parent_eq {heap heap' : Addr → AvlNode} {root root' hole hole' p' : Addr}
    {d' : Bool} (h : CtxRep heap 0#64 false root hole p d ctx)
    (h' : CtxRep heap' 0#64 false root' hole' p' d' ctx) :
    p' = p ∧ d' = d := by
  cases ctx <;> exact ⟨h'.1.trans h.1.symm, h'.2.1.trans h.2.1.symm⟩

theorem AvlMem.AtNode.rotation (h : m.AtNode ctx d x a y) (hx : x.WF)
    (hh : x.height = y.height + 2) :
    (avlRotation m a (2 * sign d)).1.At ctx (m.heap a).xparent (m.heap a).xchild
      (rotate d x a y).1 := by
  obtain ⟨hrep, -, -⟩ := avlRotation_rep h hx hh
  obtain ⟨hole, p', d', hrot, hctx⟩ := Rep_plug.mp hrep
  obtain ⟨rfl, rfl⟩ := h.above.parent_eq hctx
  exact ⟨⟨hole, hrot, hctx⟩, ((perm_rotate d x a y).append_right _).nodup_iff.mpr h.nodup⟩

theorem AvlMem.AtNode.symm (h : m.AtNode ctx d x a y) : m.AtNode ctx (!d) y a x :=
  { h with
    near := h.far
    far := by simpa using h.near
    nodup := ((List.perm_append_comm.cons a).append_right _).nodup h.nodup }

theorem avlRemoveLoop_rep {fuel h : Nat} (hfuel : ctx.length < fuel) (hat : m.At ctx p d t)
    (hctx : CtxWF (h + 1) ctx) (ht : t.WF) (hh : t.height = h) :
    ∃ m', avlRemoveLoop fuel m p d = some m' ∧
      Rep m'.heap 0#64 false m'.avlRoot (shrinkUp ctx t) ∧ m'.avlNumnodes = m.avlNumnodes := by
  induction ctx generalizing m p d t fuel h with
  | nil =>
    obtain ⟨fuel, rfl⟩ := Nat.exists_eq_add_of_lt hfuel
    obtain ⟨hole, -, rfl, -⟩ := hat.here
    exact ⟨m, by simp [avlRemoveLoop], hat.rep, rfl⟩
  | cons f ctx ih =>
    obtain ⟨fuel, rfl⟩ := Nat.exists_eq_add_of_lt hfuel
    obtain ⟨rfl, rfl, hb, hnode⟩ := hat.node
    have hframe := hctx
    obtain ⟨hsib, hbal, hlo, hhi, hrest⟩ := hctx
    have hsign := sign_cases f.dir
    have hfuel' : ctx.length < (f :: ctx).length + fuel := by
      rw [List.length_cons]
      omega
    rw [avlRemoveLoop, if_neg hnode.ne, shrinkUp]
    dsimp only
    rw [hb, avlChild2balance_eq]
    by_cases hold : f.bal = 0
    · rw [if_pos hold, if_pos hold]
      have hrange : -1 ≤ f.bal - sign f.dir ∧ f.bal - sign f.dir ≤ 1 := by
        rcases hsign with hs | hs <;> rw [hs] <;> omega
      exact ⟨_, rfl, (hnode.setBalance hrange.1 hrange.2).rep, rfl⟩
    · rw [if_neg hold, if_neg hold]
      by_cases hzero : f.bal - sign f.dir = 0
      · rw [if_pos hzero, if_pos hzero, hzero]
        obtain ⟨hup, hwf, hheight⟩ := hframe.shrunk ht hh hzero
        exact ih hfuel' (hnode.setBalance (by decide) (by decide)) hup hwf hheight
      · rw [if_neg hzero, if_neg hzero]
        have htwo : f.bal - sign f.dir = 2 * sign (!f.dir) := by
          rw [sign_not]
          rcases hsign with hs | hs <;> rw [hs] at hzero ⊢ <;> omega
        have heq : f.sib.height = t.height + 2 := by
          rcases hsign with hs | hs <;> rw [hs] at hbal hzero <;> omega
        rw [htwo]
        obtain ⟨hrep, hflag, hnum⟩ := avlRotation_rep hnode.symm hsib heq
        rw [hflag]
        by_cases hlow : (rotate (!f.dir) f.sib f.a t).2 = true
        · rw [if_pos hlow, if_pos hlow]
          have hrot := rotate_wf (d := !f.dir) f.a hsib ht heq
          obtain ⟨m', hm', hrep', hnum'⟩ := ih hfuel' (hnode.symm.rotation hsib heq)
            (by simpa [heq, hh] using hrest) hrot.wf (by rw [hrot.height, if_pos hlow, hh])
          exact ⟨m', hm', hrep', hnum'.trans hnum⟩
        · rw [if_neg hlow, if_neg hlow]
          exact ⟨_, rfl, hrep, hnum⟩

end Climb

end ClusterZfs

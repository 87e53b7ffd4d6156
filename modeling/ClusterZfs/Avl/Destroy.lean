import ClusterZfs.Avl.Ops

/-! `avl_destroy_nodes`: the walk that takes a tree apart from the leaves up. -/
namespace ClusterZfs

open AvlTree

def postorder {α : Type*} : AvlTree α → List α
  | nil => []
  | node l a _ r => postorder l ++ postorder r ++ [a]

/- What is still to come when the tree at the position is gone. -/
def remaining {α : Type*} : Ctx α → List α
  | [] => []
  | f :: ctx => (if f.dir then [] else postorder f.sib) ++ f.a :: remaining ctx

/- What is left of the tree above a position: on the left of the way nothing is left, on its right
the trees are still balanced. -/
def Opened {α : Type*} (ctx : Ctx α) : Prop :=
  ∀ f ∈ ctx, if f.dir then f.sib = nil else f.sib.WF

theorem perm_postorder {α : Type*} (t : AvlTree α) : (postorder t).Perm t.toList := by
  induction t with
  | nil => exact List.Perm.refl _
  | node l a b r ihl ihr =>
    rw [postorder, toList, List.append_assoc]
    refine ihl.append ?_
    exact (List.perm_append_singleton a _).trans (List.Perm.cons a ihr)

theorem postorder_plug {α : Type*} {ctx : Ctx α} (h : Opened ctx) (t : AvlTree α) :
    postorder (plug ctx t) = postorder t ++ remaining ctx := by
  induction ctx generalizing t with
  | nil => simp [plug, remaining]
  | cons f ctx ih =>
    have hf := h f List.mem_cons_self
    rw [plug, ih (fun g hg => h g (List.mem_cons_of_mem f hg)), Frame.plug, remaining]
    cases hd : f.dir with
    | true =>
      simp only [hd, if_true] at hf
      simp [join, postorder, hf]
    | false => simp [join, postorder]

section Destroy

variable {m : AvlMem} {ctx : Ctx Addr} {p hole n : Addr} {d : Bool} {t y : AvlTree Addr} {b : Int}

theorem avlLeftmost_rep {fuel : Nat} (hfuel : t.height < fuel) (hne : t ≠ nil)
    (ht : Rep m.heap p d hole t) (hctx : CtxRep m.heap 0#64 false m.avlRoot hole p d ctx) :
    ∃ frames n b y p' d', t = plug frames (node nil n b y) ∧ (∀ f ∈ frames, f.dir = false) ∧
      avlLeftmost fuel m p hole = some (p', n) ∧ avlDown fuel m false hole = some n ∧
      Rep m.heap p' d' n (node nil n b y) ∧
      CtxRep m.heap 0#64 false m.avlRoot n p' d' (frames ++ ctx) := by
  induction t generalizing hole p d ctx fuel with
  | nil => exact absurd rfl hne
  | node l a b r ihl ihr =>
    obtain ⟨fuel, rfl⟩ : ∃ n, fuel = n + 1 := ⟨fuel - 1, by omega⟩
    have hnode := ht
    obtain ⟨rfl, h0, hal, hp, hd, hb, hl, hr⟩ := ht
    simp only [height] at hfuel
    rw [avlLeftmost, avlDown]
    by_cases hc : (m.heap hole).avlChild false = 0#64
    · cases hl.root_eq_zero.mp hc
      rw [if_neg (not_not.mpr hc), if_neg (not_not.mpr hc)]
      exact ⟨[], hole, b, r, p, d, rfl, by simp, rfl, rfl, hnode, hctx⟩
    · rw [if_pos hc, if_pos hc]
      have hlne : l ≠ nil := fun hnil => hc (hl.root_eq_zero.mpr hnil)
      have hctx' : CtxRep m.heap 0#64 false m.avlRoot ((m.heap hole).avlChild false) hole false
          (⟨false, hole, b, r⟩ :: ctx) :=
        ⟨rfl, rfl, h0, hal, rfl, hb, hr, by rw [hp, hd]; exact hctx⟩
      have hlt : l.height < fuel := by omega
      obtain ⟨frames, n, b', y, p', d', rfl, hdir, hleft, hdown, hrep, hpos⟩ :=
        ihl hlt hlne hl hctx'
      refine ⟨frames ++ [⟨false, hole, b, r⟩], n, b', y, p', d', ?_, ?_, hleft, hdown, hrep, ?_⟩
      · rw [plug_append]
        rfl
      · simpa [or_imp, forall_and] using hdir
      · rwa [List.append_assoc]

theorem Opened_frames {α : Type*} {frames : Ctx α} {h : Nat} (hdir : ∀ f ∈ frames, f.dir = false)
    (hwf : CtxWF h frames) : Opened frames := by
  induction frames generalizing h with
  | nil => exact nofun
  | cons g frames ih =>
    obtain ⟨hsib, -, -, -, hrest⟩ := hwf
    intro f hf
    rcases List.mem_cons.mp hf with rfl | hf
    · rw [if_neg (by simp [hdir f List.mem_cons_self])]
      exact hsib
    · exact ih (fun f hf => hdir f (List.mem_cons_of_mem g hf)) hrest f hf

theorem leaf_of_WF {α : Type*} {n : α} {b : Int} {y : AvlTree α} (h : (node nil n b y).WF) :
    y = nil ∨ ∃ c b', y = node nil c b' nil := by
  obtain ⟨-, -, hb, -, hhi⟩ := h
  cases y with
  | nil => exact .inl rfl
  | node l c b' r =>
    simp only [height] at hb
    have hnil : ∀ t : AvlTree α, t.height = 0 → t = nil := by
      intro t ht
      cases t with
      | nil => rfl
      | node => cases ht
    rw [hnil l (by omega), hnil r (by omega)]
    exact .inr ⟨c, b', rfl⟩

/- The cookie between two calls. -/
def cookieOf : Ctx Addr → BitVec 64
  | [] => 1#64
  | f :: _ => avlMkindex f.a f.dir

/- The node `n` was just given back, and what is left of the tree is above it. -/
structure AvlMem.Leaving (m : AvlMem) (ctx : Ctx Addr) (n : Addr) : Prop where
  here : ∃ p d b, m.At ctx p d (node nil n b nil)
  opened : Opened ctx
  count : m.avlNumnodes = (ctxNodes ctx).length + 1

theorem avlDestroyDone_rep (hrep : Rep m.heap p d n t) (hne : t ≠ nil)
    (hctx : CtxRep m.heap 0#64 false m.avlRoot n p d ctx) :
    avlDestroyDone m p n = (cookieOf ctx, n) := by
  cases t with
  | nil => exact absurd rfl hne
  | node l a b r =>
    obtain ⟨rfl, -, -, -, hd, -⟩ := hrep
    rw [avlDestroyDone, hd]
    cases ctx with
    | nil => rw [if_pos hctx.1, cookieOf]
    | cons f ctx =>
      rw [if_neg (hctx.1 ▸ hctx.2.2.1), hctx.1, hctx.2.1]
      rfl

/-- From a leftmost node the walk goes to the leaf on its right, if there is one. -/
theorem avlCheckRightSide_rep (hat : m.At ctx p d (node nil n b y)) (hopen : Opened ctx)
    (hy : y = nil ∨ ∃ c b', y = node nil c b' nil)
    (hcount : m.avlNumnodes = (node nil n b y).toList.length + (ctxNodes ctx).length) :
    ∃ ctx' n', avlCheckRightSide m p n = (cookieOf ctx', n') ∧ m.Leaving ctx' n' ∧
      postorder (node nil n b y) ++ remaining ctx = n' :: remaining ctx' := by
  obtain ⟨hole, hrep, hctx⟩ := hat.here
  have hnode := hrep
  obtain ⟨rfl, h0, hal, hp, hd, hb, hl, hr⟩ := hrep
  rw [avlCheckRightSide]
  rcases hy with rfl | ⟨c, b', rfl⟩
  · have hr0 : (m.heap hole).avlChild true = 0#64 := hr
    rw [if_neg (not_not.mpr hr0)]
    refine ⟨ctx, hole, avlDestroyDone_rep hnode (by simp) hctx, ⟨⟨p, d, b, hat⟩, hopen, ?_⟩, rfl⟩
    rw [hcount]
    simp only [toList, List.nil_append, List.length_singleton]
    omega
  · have hc : (m.heap hole).avlChild true = c := hr.1
    have hc0 : c ≠ 0#64 := hr.2.1
    rw [hc] at hr ⊢
    rw [if_pos hc0]
    have hctx' : CtxRep m.heap 0#64 false m.avlRoot c hole true (⟨true, hole, b, nil⟩ :: ctx) :=
      ⟨rfl, rfl, h0, hal, hc, hb, hl, by rw [hp, hd]; exact hctx⟩
    refine ⟨⟨true, hole, b, nil⟩ :: ctx, c, avlDestroyDone_rep hr (by simp) hctx',
      ⟨⟨hole, true, b', ⟨c, hr, hctx'⟩, ?_⟩, ?_, ?_⟩, ?_⟩
    · refine (List.Perm.nodup_iff ?_).mpr hat.nodup
      simp only [toList, List.nil_append]
      exact List.Perm.swap _ _ _
    · exact List.forall_mem_cons.mpr ⟨rfl, hopen⟩
    · rw [hcount]
      simp only [toList, ctxNodes_cons, List.nil_append, List.length_cons, List.length_nil]
      omega
    · simp [postorder, remaining]

theorem destroy_first (hat : m.At ctx p d t) (hne : t ≠ nil) (hwf : t.WF) (hopen : Opened ctx)
    (hcount : m.avlNumnodes = t.toList.length + (ctxNodes ctx).length) :
    ∃ hole p' n ctx' n', Rep m.heap p d hole t ∧ hole ≠ 0#64 ∧
      avlLeftmost (m.avlNumnodes + 1) m p hole = some (p', n) ∧
      avlDown (m.avlNumnodes + 1) m false hole = some n ∧ (m.heap n).xparent = p' ∧ n ≠ 0#64 ∧
      avlCheckRightSide m p' n = (cookieOf ctx', n') ∧ m.Leaving ctx' n' ∧
      postorder t ++ remaining ctx = n' :: remaining ctx' := by
  obtain ⟨hole, hrep, hctx⟩ := hat.here
  have hfuel : t.height < m.avlNumnodes + 1 := by
    have hheight := height_le_size t
    unfold size at hheight
    omega
  obtain ⟨frames, n, b, y, p', d', rfl, hdir, hleft, hdown, hn, hpos⟩ :=
    avlLeftmost_rep hfuel hne hrep hctx
  obtain ⟨hnwf, hframes⟩ := WF_plug.mp hwf
  have hopened := Opened_frames hdir hframes
  have hperm : ((plug frames (node nil n b y)).toList ++ ctxNodes ctx).Perm
      ((node nil n b y).toList ++ ctxNodes (frames ++ ctx)) := by
    have hnodes : ctxNodes (frames ++ ctx) = ctxNodes frames ++ ctxNodes ctx := by simp [ctxNodes]
    rw [hnodes, ← List.append_assoc]
    exact (perm_plug frames _).append_right _
  have hopen' : Opened (frames ++ ctx) := List.forall_mem_append.mpr ⟨hopened, hopen⟩
  have hat' : m.At (frames ++ ctx) p' d' (node nil n b y) :=
    ⟨⟨n, hn, hpos⟩, hperm.nodup_iff.mp hat.nodup⟩
  have hlen := hperm.length_eq
  rw [List.length_append, List.length_append] at hlen
  obtain ⟨ctx', n', hcheck, hleaving, hpost⟩ := avlCheckRightSide_rep hat' hopen' (leaf_of_WF hnwf)
    (by rw [hcount, hlen])
  refine ⟨hole, p', n, ctx', n', hrep, fun h0 => hne (hrep.root_eq_zero.mp h0), hleft, hdown,
    hn.2.2.2.1, hn.2.1, hcheck, hleaving, ?_⟩
  rw [← hpost, postorder_plug hopened]
  have hrem : remaining (frames ++ ctx) = remaining frames ++ remaining ctx := by
    clear * -
    induction frames with
    | nil => rfl
    | cons f frames ih => simp [remaining, ih]
  rw [hrem, List.append_assoc]

theorem AvlMem.Leaving.node_ne (h : m.Leaving ctx n) : n ≠ 0#64 := by
  obtain ⟨p, d, b, ⟨hole, hrep, -⟩, -⟩ := h.here
  exact hrep.2.1

theorem avlDestroyNodes_last (h : m.Leaving [] n) :
    avlDestroyNodes m (cookieOf []) =
      some ({ m with avlRoot := 0#64, avlNumnodes := 0 }, cookieOf [], 0#64) := by
  obtain ⟨p, d, b, ⟨hole, hrep, -, -, hroot⟩, -⟩ := h.here
  have hne : m.avlRoot ≠ 0#64 := by
    rw [hroot, hrep.1]
    exact hrep.2.1
  have h1 : (1#64 : BitVec 64) ≠ 0#64 := by decide
  have hparent : avlIndex2node 1#64 = 0#64 := by decide
  rw [avlDestroyNodes, cookieOf, if_neg h1]
  simp only [hparent, if_true, if_pos hne]

/-- Every other call takes a node away and gives back the next one. -/
theorem avlDestroyNodes_next {f : Frame Addr} (h : m.Leaving (f :: ctx) n) :
    ∃ m' ctx' n', avlDestroyNodes m (cookieOf (f :: ctx)) = some (m', cookieOf ctx', n') ∧
      m'.Leaving ctx' n' ∧ remaining (f :: ctx) = n' :: remaining ctx' := by
  obtain ⟨p, d, b, ⟨hole, hrep, hctx⟩, hnodup⟩ := h.here
  obtain ⟨-, hnodup, -⟩ := List.nodup_append.mp hnodup
  have hf0 : f.a ≠ 0#64 := hctx.2.2.1
  have hfal : Aligned f.a := hctx.2.2.2.1
  have hcookie : avlMkindex f.a f.dir ≠ 0#64 := by
    intro hzero
    exact hf0 ((avlIndex2node_mk hfal f.dir).symm.trans (congrArg avlIndex2node hzero))
  set m₁ : AvlMem := { m.setChild f.a f.dir 0#64 with avlNumnodes := m.avlNumnodes - 1 } with hm₁
  have hcount : m₁.avlNumnodes = f.sib.toList.length + (ctxNodes ctx).length + 1 := by
    change m.avlNumnodes - 1 = _
    rw [h.count, ctxNodes_cons, List.length_cons, List.length_append]
    omega
  obtain ⟨-, -, -, -, hhole, hb, hsib, habove⟩ : CtxRep m₁.heap 0#64 false m₁.avlRoot 0#64 p d
      (f :: ctx) := hctx.setChild hnodup 0#64
  have hopenctx : Opened ctx := fun g hg => h.opened g (List.mem_cons_of_mem f hg)
  have hsibwf := h.opened f List.mem_cons_self
  rw [ctxNodes_cons] at hnodup
  rw [avlDestroyNodes, cookieOf, if_neg hcookie]
  simp only [avlIndex2node_mk hfal, avlIndex2child_mk hfal, if_neg hf0]
  change ∃ m' ctx' n', (if f.dir || (m₁.heap f.a).avlChild true = 0#64 then
      some (m₁, avlDestroyDone m₁ (m₁.heap f.a).xparent f.a)
    else (avlLeftmost (m₁.avlNumnodes + 1) m₁ f.a ((m₁.heap f.a).avlChild true)).map
      fun below => (m₁, avlCheckRightSide m₁ below.1 below.2)) = _ ∧ _
  by_cases hup : f.sib = nil
  · -- nothing on the other side: the parent is next
    rw [hup] at hsib
    have hother : (m₁.heap f.a).avlChild (!f.dir) = 0#64 := hsib
    have hleaf : Rep m₁.heap (m₁.heap f.a).xparent (m₁.heap f.a).xchild f.a
        (node nil f.a f.bal nil) := by
      refine ⟨rfl, hf0, hfal, rfl, rfl, hb, ?_, ?_⟩
      · cases hd : f.dir with
        | true => rwa [hd] at hother
        | false => rwa [hd] at hhole
      · cases hd : f.dir with
        | true => rwa [hd] at hhole
        | false => rwa [hd] at hother
    have hcond : (f.dir || decide ((m₁.heap f.a).avlChild true = 0#64)) = true := by
      cases hd : f.dir with
      | true => rfl
      | false => simpa [hd] using hother
    rw [if_pos hcond, avlDestroyDone_rep hleaf (by simp) habove]
    refine ⟨m₁, ctx, f.a, rfl, ⟨⟨_, _, f.bal, ⟨f.a, hleaf, habove⟩, ?_⟩, hopenctx, ?_⟩, ?_⟩
    · rwa [hup] at hnodup
    · simp [hcount, hup, toList]
    · simp [remaining, hup, postorder]
  · -- the walk goes through the right side of the parent first
    have hdir : f.dir = false := by
      cases hd : f.dir with
      | true => exact absurd (by simpa [hd] using hsibwf) hup
      | false => rfl
    rw [hdir] at hsib hhole hsibwf
    simp only [Bool.false_eq_true] at hsibwf
    rw [Bool.not_false] at hsib
    have hat : m₁.At (⟨true, f.a, f.bal, nil⟩ :: ctx) f.a true f.sib := by
      refine ⟨⟨_, hsib, rfl, rfl, hf0, hfal, rfl, hb, hhole, habove⟩, ?_⟩
      refine (List.Perm.nodup_iff ?_).mpr hnodup
      simp only [ctxNodes_cons, toList]
      exact List.perm_middle
    have hopen : Opened (⟨true, f.a, f.bal, nil⟩ :: ctx) :=
      List.forall_mem_cons.mpr ⟨rfl, hopenctx⟩
    obtain ⟨hole', p', n₀, ctx', n', hrep', hne', hleft, -, -, -, hcheck, hleaving, hpost⟩ :=
      destroy_first hat hup hsibwf hopen (by
        rw [hcount]
        simp only [ctxNodes_cons, toList, List.nil_append, List.length_cons]
        omega)
    have hroot : hole' = (m₁.heap f.a).avlChild true := by
      cases hs : f.sib with
      | nil => exact absurd hs hup
      | node l c b' r =>
        rw [hs] at hsib hrep'
        rw [hsib.1, hrep'.1]
    subst hroot
    have hcond : ¬ (f.dir || decide ((m₁.heap f.a).avlChild true = 0#64)) = true := by
      simpa [hdir] using hne'
    rw [if_neg hcond, hleft, Option.map_some, hcheck]
    refine ⟨m₁, ctx', n', rfl, hleaving, ?_⟩
    rw [← hpost]
    simp [remaining, hdir]

theorem avlDestroyAll_leaving {fuel : Nat} (h : m.Leaving ctx n)
    (hfuel : (remaining ctx).length < fuel) :
    ∃ m', avlDestroyAll fuel m (cookieOf ctx) = some (remaining ctx, m') ∧
      m'.avlRoot = 0#64 ∧ m'.avlNumnodes = 0 := by
  induction fuel generalizing m ctx n with
  | zero => omega
  | succ fuel ih =>
    rw [avlDestroyAll]
    cases ctx with
    | nil =>
      rw [avlDestroyNodes_last h]
      exact ⟨_, rfl, rfl, rfl⟩
    | cons f ctx =>
      obtain ⟨m₁, ctx', n', hcall, hleaving, hrem⟩ := avlDestroyNodes_next h
      have hlen : (remaining ctx').length < fuel := by
        rw [hrem, List.length_cons] at hfuel
        omega
      obtain ⟨m', hrest, hroot, hnum⟩ := ih hleaving hlen
      refine ⟨m', ?_, hroot, hnum⟩
      rw [hcall, Option.bind_some]
      dsimp only
      rw [if_neg hleaving.node_ne, hrest, hrem]
      rfl

theorem avlDestroyAll_rep (h : m.Balanced t) :
    ∃ m', avlDestroyAll (m.avlNumnodes + 2) m 0#64 = some (postorder t, m') ∧
      m'.avlRoot = 0#64 ∧ m'.avlNumnodes = 0 := by
  rw [avlDestroyAll, avlDestroyNodes, if_pos rfl, avlFirst]
  obtain rfl | hne := eq_or_ne t nil
  · have hroot : m.avlRoot = 0#64 := h.rep
    rw [if_pos hroot]
    exact ⟨m, rfl, hroot, h.count⟩
  · have hat : m.At [] 0#64 false t :=
      ⟨⟨m.avlRoot, h.rep, rfl, rfl, rfl⟩, by simpa [ctxNodes] using h.nodup⟩
    obtain ⟨hole, p', n, ctx', n', hrep, hroot, -, hdown, hparent, hn, hcheck, hleaving, hpost⟩ :=
      destroy_first hat hne h.wf (List.forall_mem_nil _)
        (by rw [h.count]; simp [size, ctxNodes])
    have heq : m.avlRoot = hole := by
      cases t with
      | nil => exact absurd rfl hne
      | node l c b r => rw [hrep.1, h.rep.1]
    rw [heq, if_neg hroot, hdown, Option.map_some, if_neg hn, hparent, hcheck, Option.bind_some]
    dsimp only
    rw [if_neg hleaving.node_ne]
    rw [remaining, List.append_nil] at hpost
    have hlen : (remaining ctx').length < m.avlNumnodes + 1 := by
      have hperm := (perm_postorder t).length_eq
      rw [hpost, List.length_cons] at hperm
      rw [h.count, size]
      omega
    obtain ⟨m', hrest, hroot', hnum⟩ := avlDestroyAll_leaving hleaving hlen
    refine ⟨m', ?_, hroot', hnum⟩
    rw [hrest, hpost]
    rfl

end Destroy

end ClusterZfs

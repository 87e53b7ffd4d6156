import Mathlib.Data.List.Basic
import Mathlib.Tactic.Tauto
import Mathlib.Algebra.Ring.Int.Defs

/-! Height-balanced binary trees with a stored balance, edited at a position. A position is the
list of nodes above it, the nearest one first. -/
namespace ClusterZfs

inductive AvlTree (α : Type*) where
  | nil
  | node (l : AvlTree α) (a : α) (bal : Int) (r : AvlTree α)
  deriving Repr, DecidableEq

namespace AvlTree

variable {α : Type*}

/- The contribution of a side to the balance: the right one (`true`) counts up. -/
def sign (d : Bool) : Int := if d then 1 else -1

/- The node with `x` on the side `d` and `y` on the other side. -/
def join (d : Bool) (x : AvlTree α) (a : α) (b : Int) (y : AvlTree α) : AvlTree α :=
  if d then node y a b x else node x a b y

/- The parts of a node, seen from the side `d`. -/
def parts (d : Bool) : AvlTree α → Option (AvlTree α × α × Int × AvlTree α)
  | nil => none
  | node l a b r => if d then some (r, a, b, l) else some (l, a, b, r)

def toList : AvlTree α → List α
  | nil => []
  | node l a _ r => l.toList ++ a :: r.toList

def height : AvlTree α → Nat
  | nil => 0
  | node l _ _ r => max l.height r.height + 1

def size (t : AvlTree α) : Nat := t.toList.length

/- Every stored balance is the difference of the heights, and at most one. -/
def WF : AvlTree α → Prop
  | nil => True
  | node l _ b r => l.WF ∧ r.WF ∧ b = (r.height : Int) - l.height ∧ -1 ≤ b ∧ b ≤ 1

structure Frame (α : Type*) where
  dir : Bool
  a : α
  bal : Int
  sib : AvlTree α

abbrev Ctx (α : Type*) := List (Frame α)

def Frame.plug (f : Frame α) (t : AvlTree α) : AvlTree α := join f.dir t f.a f.bal f.sib

def plug : Ctx α → AvlTree α → AvlTree α
  | [], t => t
  | f :: ctx, t => plug ctx (f.plug t)

/- What comes before and after the position. -/
def before : Ctx α → List α
  | [] => []
  | f :: ctx => before ctx ++ if f.dir then f.sib.toList ++ [f.a] else []

def after : Ctx α → List α
  | [] => []
  | f :: ctx => (if f.dir then [] else f.a :: f.sib.toList) ++ after ctx

/- A rotation of a node whose side `d` is too high by two. The flag says whether the result is
lower than the node was. -/
def rotate (d : Bool) (x : AvlTree α) (a : α) (y : AvlTree α) : AvlTree α × Bool :=
  match x.parts d with
  | none => (join d x a (2 * sign d) y, false)
  | some (outer, c, cb, inner) =>
    if cb ≠ - sign d then
      let cb' := cb - sign d
      (join d outer c cb' (join d inner a (-cb') y), decide (cb' = 0))
    else
      match inner.parts d with
      | none => (join d x a (2 * sign d) y, false)
      | some (gleft, g, gb, gright) =>
        (join d (join d outer c (if gb = - sign d then sign d else 0) gleft) g 0
          (join d gright a (if gb = sign d then - sign d else 0) y), true)

/- The subtree at the position became higher by one. -/
def growUp : Ctx α → AvlTree α → AvlTree α
  | [], t => t
  | f :: ctx, t =>
    let nb := f.bal + sign f.dir
    if nb = 0 then plug ctx (join f.dir t f.a 0 f.sib)
    else if f.bal ≠ 0 then plug ctx (rotate f.dir t f.a f.sib).1
    else growUp ctx (join f.dir t f.a nb f.sib)

/- The subtree at the position became lower by one. -/
def shrinkUp : Ctx α → AvlTree α → AvlTree α
  | [], t => t
  | f :: ctx, t =>
    let nb := f.bal - sign f.dir
    if f.bal = 0 then plug ctx (join f.dir t f.a nb f.sib)
    else if nb = 0 then shrinkUp ctx (join f.dir t f.a 0 f.sib)
    else
      let rotated := rotate (!f.dir) f.sib f.a t
      if rotated.2 then shrinkUp ctx rotated.1 else plug ctx rotated.1

/- The search for the place of a value; `cmp` compares the value with an element. -/
def locate (cmp : α → Ordering) : AvlTree α → Ctx α → Ctx α × AvlTree α
  | nil, ctx => (ctx, nil)
  | node l a b r, ctx =>
    match cmp a with
    | .lt => locate cmp l (⟨false, a, b, r⟩ :: ctx)
    | .eq => (ctx, node l a b r)
    | .gt => locate cmp r (⟨true, a, b, l⟩ :: ctx)

/- The last node on the side `d`, and its other child. -/
def descend (d : Bool) : AvlTree α → Ctx α → Option (Ctx α × α × AvlTree α)
  | nil, _ => none
  | node l a b r, ctx =>
    if d then (descend d r (⟨true, a, b, l⟩ :: ctx)).or (some (ctx, a, l))
    else (descend d l (⟨false, a, b, r⟩ :: ctx)).or (some (ctx, a, r))

def insertAt (ctx : Ctx α) (a : α) : AvlTree α := growUp ctx (node nil a 0 nil)

/- A node with two children gives its place to its neighbour on the higher side. -/
def removeInner (ctx : Ctx α) (l : AvlTree α) (b : Int) (r : AvlTree α) : AvlTree α :=
  let left := decide (b = 1)
  match descend (!left) (if left then r else l) [] with
  | none => plug ctx nil
  | some (frames, n, y) => shrinkUp (frames ++ ⟨left, n, b, if left then l else r⟩ :: ctx) y

/- Removal of the node at the position. -/
def removeAt (ctx : Ctx α) : AvlTree α → Int → AvlTree α → AvlTree α
  | nil, _, r => shrinkUp ctx r
  | node ll la lb lr, _, nil => shrinkUp ctx (node ll la lb lr)
  | node ll la lb lr, b, node rl ra rb rr =>
    removeInner ctx (node ll la lb lr) b (node rl ra rb rr)

section Order

variable {d : Bool} {t : AvlTree α} {ctx : Ctx α}

/- The elements of a node, seen from the side `d`. -/
def joinList (d : Bool) (xs : List α) (a : α) (ys : List α) : List α :=
  if d then ys ++ a :: xs else xs ++ a :: ys

theorem toList_join (d : Bool) (x : AvlTree α) (a : α) (b : Int) (y : AvlTree α) :
    (join d x a b y).toList = joinList d x.toList a y.toList := by
  cases d <;> rfl

theorem eq_join_of_parts {x y : AvlTree α} {a : α} {b : Int}
    (h : t.parts d = some (x, a, b, y)) : t = join d x a b y := by
  cases t with
  | nil => cases h
  | node l c e r => cases d <;> cases h <;> rfl

@[simp] theorem parts_join (d : Bool) (x : AvlTree α) (a : α) (b : Int) (y : AvlTree α) :
    (join d x a b y).parts d = some (x, a, b, y) := by
  cases d <;> rfl

theorem toList_plug (ctx : Ctx α) (t : AvlTree α) :
    (plug ctx t).toList = before ctx ++ t.toList ++ after ctx := by
  induction ctx generalizing t with
  | nil => simp [plug, before, after]
  | cons f ctx ih =>
    rw [plug, ih, Frame.plug, toList_join]
    cases hd : f.dir <;> simp [before, after, joinList, hd]

theorem toList_plug_nil (ctx : Ctx α) : (plug ctx nil).toList = before ctx ++ after ctx := by
  simp [toList_plug, toList]

theorem toList_plug_node {a : α} {b : Int} {r : AvlTree α} : (plug ctx (node t a b r)).toList =
    (before ctx ++ t.toList) ++ a :: (r.toList ++ after ctx) := by
  simp [toList_plug, toList]

theorem toList_rotate (d : Bool) (x : AvlTree α) (a : α) (y : AvlTree α) :
    (rotate d x a y).1.toList = joinList d x.toList a y.toList := by
  unfold rotate
  split
  · exact toList_join d x a _ y
  · next outer c cb inner hx =>
    rw [eq_join_of_parts hx]
    split
    · cases d <;> simp [toList_join, joinList]
    · split
      · rw [toList_join, toList_join]
      · next gleft g gb gright hinner =>
        rw [eq_join_of_parts hinner]
        cases d <;> simp [toList_join, joinList]

theorem before_join_after (f : Frame α) (ctx : Ctx α) (t : AvlTree α) :
    before ctx ++ joinList f.dir t.toList f.a f.sib.toList ++ after ctx =
      before (f :: ctx) ++ t.toList ++ after (f :: ctx) := by
  cases hd : f.dir <;> simp [before, after, joinList, hd]

theorem toList_growUp (ctx : Ctx α) (t : AvlTree α) :
    (growUp ctx t).toList = before ctx ++ t.toList ++ after ctx := by
  induction ctx generalizing t with
  | nil => simp [growUp, before, after]
  | cons f ctx ih =>
    rw [← before_join_after]
    unfold growUp
    dsimp only
    split
    · rw [toList_plug, toList_join]
    · split
      · rw [toList_plug, toList_rotate]
      · rw [ih, toList_join]

theorem toList_shrinkUp (ctx : Ctx α) (t : AvlTree α) :
    (shrinkUp ctx t).toList = before ctx ++ t.toList ++ after ctx := by
  induction ctx generalizing t with
  | nil => simp [shrinkUp, before, after]
  | cons f ctx ih =>
    have hswap : joinList (!f.dir) f.sib.toList f.a t.toList =
        joinList f.dir t.toList f.a f.sib.toList := by
      cases f.dir <;> rfl
    rw [← before_join_after]
    unfold shrinkUp
    dsimp only
    split
    · rw [toList_plug, toList_join]
    · split
      · rw [ih, toList_join]
      · split
        · rw [ih, toList_rotate, hswap]
        · rw [toList_plug, toList_rotate, hswap]

theorem toList_insertAt (ctx : Ctx α) (a : α) :
    (insertAt ctx a).toList = before ctx ++ a :: after ctx := by
  rw [insertAt, toList_growUp]
  simp [toList]

theorem plug_locate (cmp : α → Ordering) (t : AvlTree α) (ctx : Ctx α) :
    plug (locate cmp t ctx).1 (locate cmp t ctx).2 = plug ctx t := by
  induction t generalizing ctx with
  | nil => rfl
  | node l a b r ihl ihr =>
    unfold locate
    split
    · exact ihl _
    · rfl
    · exact ihr _

theorem before_append (ctx ctx' : Ctx α) : before (ctx ++ ctx') = before ctx' ++ before ctx := by
  induction ctx <;> simp [before, *]

theorem after_append (ctx ctx' : Ctx α) : after (ctx ++ ctx') = after ctx ++ after ctx' := by
  induction ctx <;> simp [after, *]

theorem plug_append (ctx ctx' : Ctx α) (t : AvlTree α) :
    plug (ctx ++ ctx') t = plug ctx' (plug ctx t) := by
  induction ctx generalizing t with
  | nil => rfl
  | cons f ctx ih => exact ih (f.plug t)

theorem descend_eq_none (h : descend d t ctx = none) : t = nil := by
  cases t with
  | nil => rfl
  | node l a b r =>
    rw [descend] at h
    split at h <;> simp at h

/-- The walk to the last node of a side goes through that side only. -/
theorem descend_spec {y : AvlTree α} {ctx' : Ctx α} {n : α}
    (h : descend d t ctx = some (ctx', n, y)) :
    ∃ frames b, ctx' = frames ++ ctx ∧ plug frames (join d nil n b y) = t ∧
      ∀ f ∈ frames, f.dir = d := by
  induction t generalizing ctx with
  | nil => cases h
  | node l a b r ihl ihr =>
    -- the walk ends here, or there is one more frame above the frames of the child
    have hstep : ∀ {x z : AvlTree α}, join d x a b z = node l a b r →
        (descend d x (⟨d, a, b, z⟩ :: ctx)).or (some (ctx, a, z)) = some (ctx', n, y) →
        (∀ {ctx}, descend d x ctx = some (ctx', n, y) → ∃ frames b', ctx' = frames ++ ctx ∧
          plug frames (join d nil n b' y) = x ∧ ∀ f ∈ frames, f.dir = d) →
        ∃ frames b', ctx' = frames ++ ctx ∧ plug frames (join d nil n b' y) = node l a b r ∧
          ∀ f ∈ frames, f.dir = d := by
      intro x z hjoin h ih
      cases hx : descend d x (⟨d, a, b, z⟩ :: ctx) with
      | none =>
        cases descend_eq_none hx
        rw [hx] at h
        cases h
        exact ⟨[], b, rfl, hjoin, nofun⟩
      | some found =>
        rw [hx] at h
        cases h
        obtain ⟨frames, b', rfl, rfl, hdir⟩ := ih hx
        refine ⟨frames ++ [⟨d, a, b, z⟩], b', by simp, ?_, by simpa [or_imp, forall_and] using hdir⟩
        rw [plug_append]
        exact hjoin
    cases d with
    | true => exact hstep rfl h ihr
    | false => exact hstep rfl h ihl

theorem before_eq_nil (h : ∀ f ∈ ctx, f.dir = false) : before ctx = [] := by
  induction ctx with
  | nil => rfl
  | cons f ctx ih =>
    simp [before, h f List.mem_cons_self, ih fun g hg => h g (List.mem_cons_of_mem f hg)]

theorem after_eq_nil (h : ∀ f ∈ ctx, f.dir = true) : after ctx = [] := by
  induction ctx with
  | nil => rfl
  | cons f ctx ih =>
    simp [after, h f List.mem_cons_self, ih fun g hg => h g (List.mem_cons_of_mem f hg)]

/-- The neighbour on the higher side is the last node of a way down. -/
theorem removeInner_spec (ctx : Ctx α) {l r : AvlTree α} (b : Int) (hl : l ≠ nil) (hr : r ≠ nil) :
    ∃ left frames n b' y, left = decide (b = 1) ∧ removeInner ctx l b r =
        shrinkUp (frames ++ ⟨left, n, b, if left then l else r⟩ :: ctx) y ∧
      plug frames (join (!left) nil n b' y) = (if left then r else l) ∧
      ∀ f ∈ frames, f.dir = !left := by
  unfold removeInner
  dsimp only
  split
  · next hnone =>
    have hnil := descend_eq_none hnone
    split at hnil
    · exact absurd hnil hr
    · exact absurd hnil hl
  · next frames n y hfound =>
    obtain ⟨frames', b', heq, hplug, hdir⟩ := descend_spec hfound
    rw [List.append_nil] at heq
    subst heq
    exact ⟨_, frames, n, b', y, rfl, rfl, hplug, hdir⟩

theorem toList_removeInner (ctx : Ctx α) {l r : AvlTree α} (b : Int) (hl : l ≠ nil)
    (hr : r ≠ nil) :
    (removeInner ctx l b r).toList = before ctx ++ (l.toList ++ r.toList) ++ after ctx := by
  obtain ⟨left, frames, n, b', y, -, heq, hplug, hdir⟩ := removeInner_spec ctx b hl hr
  rw [heq, toList_shrinkUp, before_append, after_append]
  have hlist := congrArg toList hplug
  rw [toList_plug] at hlist
  cases left with
  | true =>
    rw [before_eq_nil hdir] at hlist
    simp only [if_true] at hlist
    simp [← hlist, before, after, before_eq_nil hdir, toList_join, joinList, toList]
  | false =>
    rw [after_eq_nil hdir] at hlist
    simp only [Bool.false_eq_true, if_false] at hlist
    simp [← hlist, before, after, after_eq_nil hdir, toList_join, joinList, toList]

theorem toList_removeAt (ctx : Ctx α) (l : AvlTree α) (b : Int) (r : AvlTree α) :
    (removeAt ctx l b r).toList = before ctx ++ (l.toList ++ r.toList) ++ after ctx := by
  cases l with
  | nil => simp [removeAt, toList_shrinkUp, toList]
  | node ll la lb lr =>
    cases r with
    | nil => simp [removeAt, toList_shrinkUp, toList]
    | node rl ra rb rr => exact toList_removeInner ctx b (by simp) (by simp)

end Order

section Balance

variable {d : Bool} {a : α} {b : Int} {ctx : Ctx α} {t : AvlTree α} {h : Nat}

/- The nodes above a position fit a subtree of height `h`. -/
def CtxWF : Nat → Ctx α → Prop
  | _, [] => True
  | h, f :: ctx => f.sib.WF ∧ f.bal = sign f.dir * ((h : Int) - f.sib.height) ∧
      -1 ≤ f.bal ∧ f.bal ≤ 1 ∧ CtxWF (max h f.sib.height + 1) ctx

theorem height_join (d : Bool) (x : AvlTree α) (a : α) (b : Int) (y : AvlTree α) :
    (join d x a b y).height = max x.height y.height + 1 := by
  cases d with
  | true => simp [join, height, Nat.max_comm]
  | false => rfl

theorem WF_join {x y : AvlTree α} :
    (join d x a b y).WF ↔ x.WF ∧ y.WF ∧ b = sign d * ((x.height : Int) - y.height) ∧
      -1 ≤ b ∧ b ≤ 1 := by
  cases d with
  | true =>
    simp only [join, WF, sign, if_true, one_mul]
    tauto
  | false =>
    have hsign : (-1 : Int) * ((x.height : Int) - y.height) = (y.height : Int) - x.height := by
      omega
    simp only [join, WF, sign, Bool.false_eq_true, if_false, hsign]

theorem sign_not (d : Bool) : sign (!d) = - sign d := by
  cases d <;> rfl

theorem sign_cases (d : Bool) : sign d = 1 ∨ sign d = -1 := by
  cases d
  exacts [.inr rfl, .inl rfl]

theorem WF_plug :
    (plug ctx t).WF ↔ t.WF ∧ CtxWF t.height ctx := by
  induction ctx generalizing t with
  | nil => simp [plug, CtxWF]
  | cons f ctx ih =>
    rw [plug, ih, Frame.plug, WF_join, height_join, CtxWF]
    tauto

theorem height_pos (h : 0 < t.height) (d : Bool) :
    ∃ x a b y, t = join d x a b y := by
  cases t with
  | nil => simp [height] at h
  | node l a b r =>
    cases d
    exacts [⟨l, a, b, r, rfl⟩, ⟨r, a, b, l, rfl⟩]

/- What a rotation has to deliver for a side of height `h + 2` over one of height `h`. -/
structure Rotated (h : Nat) (result : AvlTree α × Bool) : Prop where
  wf : result.1.WF
  height : result.1.height = if result.2 then h + 2 else h + 3

theorem rotate_single {outer inner y : AvlTree α} {c : α} {cb : Int}
    (hx : (join d outer c cb inner).WF) (hy : y.WF)
    (hh : (join d outer c cb inner).height = y.height + 2) (hcb : cb ≠ - sign d) :
    Rotated y.height (rotate d (join d outer c cb inner) a y) := by
  obtain ⟨hout, hin, hbal, hlo, hhi⟩ := WF_join.mp hx
  rw [height_join] at hh
  rw [rotate, parts_join]
  dsimp only
  rw [if_pos hcb]
  have hsign := sign_cases d
  -- the outer side is the higher one or both are equal
  have hcase : (cb = sign d ∧ outer.height = y.height + 1 ∧ inner.height = y.height) ∨
      (cb = 0 ∧ outer.height = y.height + 1 ∧ inner.height = y.height + 1) := by
    rcases hsign with hs | hs <;> rw [hs] at hbal hcb ⊢ <;> omega
  rcases hcase with ⟨hb, ho, hi⟩ | ⟨hb, ho, hi⟩
  · constructor
    · refine WF_join.mpr ⟨hout, WF_join.mpr ⟨hin, hy, ?_, ?_, ?_⟩, ?_, ?_, ?_⟩ <;>
        simp [hb, hi, ho, height_join]
    · simp [hb, hi, ho, height_join]
  · have hne : sign d ≠ 0 := by
      rcases hsign with hs | hs <;> rw [hs] <;> decide
    constructor
    · refine WF_join.mpr ⟨hout, WF_join.mpr ⟨hin, hy, ?_, ?_, ?_⟩, ?_, ?_, ?_⟩ <;>
        rcases hsign with hs | hs <;> simp [hb, hi, ho, height_join, hs]
    · simp [hb, hi, ho, height_join, hne]

theorem rotate_double {outer gleft gright y : AvlTree α} {c g : α} {gb : Int}
    (hx : (join d outer c (- sign d) (join d gleft g gb gright)).WF) (hy : y.WF)
    (hh : (join d outer c (- sign d) (join d gleft g gb gright)).height = y.height + 2) :
    Rotated y.height (rotate d (join d outer c (- sign d) (join d gleft g gb gright)) a y) := by
  obtain ⟨hout, hin, hbal, -, -⟩ := WF_join.mp hx
  obtain ⟨hgl, hgr, hgbal, hglo, hghi⟩ := WF_join.mp hin
  rw [height_join, height_join] at hh
  rw [height_join] at hbal
  rw [rotate, parts_join]
  dsimp only
  rw [if_neg (by simp), parts_join]
  dsimp only
  have hsign := sign_cases d
  -- the heights of the two inner subtrees follow from the balance of their node
  have hcase : (gb = sign d ∧ gleft.height = y.height ∧ gright.height + 1 = y.height) ∨
      (gb = - sign d ∧ gleft.height + 1 = y.height ∧ gright.height = y.height) ∨
      (gb = 0 ∧ gleft.height = y.height ∧ gright.height = y.height) := by
    rcases hsign with hs | hs <;> rw [hs] at hbal hgbal ⊢ <;> omega
  have houter : outer.height = y.height := by
    rcases hsign with hs | hs <;> rw [hs] at hbal <;> omega
  have hne : sign d ≠ 0 ∧ sign d ≠ - sign d := by
    rcases hsign with hs | hs <;> rw [hs] <;> decide
  rcases hcase with ⟨hb, hl, hr⟩ | ⟨hb, hl, hr⟩ | ⟨hb, hl, hr⟩
  · rw [hb, if_neg hne.2, if_pos rfl]
    refine ⟨WF_join.mpr ⟨WF_join.mpr ⟨hout, hgl, ?_⟩, WF_join.mpr ⟨hgr, hy, ?_⟩, ?_⟩, ?_⟩ <;>
      rcases hsign with hs | hs <;> simp [hs, height_join] <;> omega
  · rw [hb, if_pos rfl, if_neg hne.2.symm]
    refine ⟨WF_join.mpr ⟨WF_join.mpr ⟨hout, hgl, ?_⟩, WF_join.mpr ⟨hgr, hy, ?_⟩, ?_⟩, ?_⟩ <;>
      rcases hsign with hs | hs <;> simp [hs, height_join] <;> omega
  · have h0 : (0 : Int) ≠ - sign d ∧ (0 : Int) ≠ sign d := by
      rcases hsign with hs | hs <;> rw [hs] <;> decide
    rw [hb, if_neg h0.1, if_neg h0.2]
    refine ⟨WF_join.mpr ⟨WF_join.mpr ⟨hout, hgl, ?_⟩, WF_join.mpr ⟨hgr, hy, ?_⟩, ?_⟩, ?_⟩ <;>
      simp [height_join] <;> omega

theorem rotate_wf {x y : AvlTree α} (a : α) (hx : x.WF) (hy : y.WF)
    (hh : x.height = y.height + 2) : Rotated y.height (rotate d x a y) := by
  obtain ⟨outer, c, cb, inner, rfl⟩ := height_pos (by omega : 0 < x.height) d
  by_cases hcb : cb = - sign d
  · subst hcb
    obtain ⟨-, -, hbal, -, -⟩ := WF_join.mp hx
    have hpos : 0 < inner.height := by
      rcases sign_cases d with hs | hs <;> rw [hs] at hbal <;> omega
    obtain ⟨gleft, g, gb, gright, rfl⟩ := height_pos hpos d
    exact rotate_double hx hy hh
  · exact rotate_single hx hy hh hcb

theorem rotate_lower {x y : AvlTree α} (a : α) (hx : x.WF)
    (hh : x.height = y.height + 2)
    (hlean : ∀ outer c cb inner, x = join d outer c cb inner → cb ≠ 0) :
    (rotate d x a y).2 = true := by
  obtain ⟨outer, c, cb, inner, rfl⟩ := height_pos (by omega : 0 < x.height) d
  have hne := hlean outer c cb inner rfl
  obtain ⟨-, -, hbal, hlo, hhi⟩ := WF_join.mp hx
  rw [rotate, parts_join]
  dsimp only
  by_cases hcb : cb = - sign d
  · rw [if_neg (not_not.mpr hcb)]
    have hpos : 0 < inner.height := by
      rcases sign_cases d with hs | hs <;> rw [hs] at hbal hcb <;> omega
    obtain ⟨gleft, g, gb, gright, rfl⟩ := height_pos hpos d
    rw [parts_join]
  · rw [if_pos hcb]
    refine decide_eq_true ?_
    rcases sign_cases d with hs | hs <;> rw [hs] at hcb ⊢ <;> omega

theorem CtxWF.grown {f : Frame α}
    (hctx : CtxWF h (f :: ctx)) (ht : t.WF) (hh : t.height = h + 1) (hold : f.bal = 0) :
    CtxWF (h + 1) ctx ∧ (join f.dir t f.a (f.bal + sign f.dir) f.sib).WF ∧
      (join f.dir t f.a (f.bal + sign f.dir) f.sib).height = h + 1 + 1 ∧
      ∀ d x a b y, join f.dir t f.a (f.bal + sign f.dir) f.sib = join d x a b y → b ≠ 0 := by
  obtain ⟨hsib, hbal, hlo, hhi, hrest⟩ := hctx
  have hsign := sign_cases f.dir
  have heq : f.sib.height = h := by
    rcases hsign with hs | hs <;> rw [hs] at hbal <;> omega
  refine ⟨by simpa [heq] using hrest, WF_join.mpr ⟨ht, hsib, ?_⟩, ?_, ?_⟩
  · rcases hsign with hs | hs <;> rw [hs] <;> omega
  · rw [height_join]
    omega
  · intro d x a b y htree
    have hb : b = f.bal + sign f.dir := by
      cases hf : f.dir <;> cases d <;> simp [join, hf] at htree <;> simp [htree]
    rw [hb]
    rcases hsign with hs | hs <;> rw [hs] <;> omega

theorem CtxWF.shrunk {f : Frame α}
    (hctx : CtxWF (h + 1) (f :: ctx)) (ht : t.WF) (hh : t.height = h)
    (hzero : f.bal - sign f.dir = 0) :
    CtxWF (h + 1 + 1) ctx ∧ (join f.dir t f.a 0 f.sib).WF ∧
      (join f.dir t f.a 0 f.sib).height = h + 1 := by
  obtain ⟨hsib, hbal, hlo, hhi, hrest⟩ := hctx
  have hsign := sign_cases f.dir
  have heq : f.sib.height = h := by
    rcases hsign with hs | hs <;> rw [hs] at hbal hzero <;> omega
  refine ⟨by simpa [heq] using hrest, WF_join.mpr ⟨ht, hsib, ?_, by decide, by decide⟩, ?_⟩
  · simp [hh, heq]
  · simp [height_join, hh, heq]

theorem WF_growUp (hctx : CtxWF h ctx) (ht : t.WF)
    (hh : t.height = h + 1)
    (hlean : h = 0 ∨ ∀ d x a b y, t = join d x a b y → b ≠ 0) : (growUp ctx t).WF := by
  induction ctx generalizing t h with
  | nil => exact ht
  | cons f ctx ih =>
    have hframe := hctx
    obtain ⟨hsib, hbal, hlo, hhi, hrest⟩ := hctx
    have hsign := sign_cases f.dir
    unfold growUp
    dsimp only
    split
    · next hzero =>
      have heq : f.sib.height = h + 1 := by
        rcases hsign with hs | hs <;> rw [hs] at hbal hzero <;> omega
      refine WF_plug.mpr ⟨WF_join.mpr ⟨ht, hsib, ?_, by decide, by decide⟩, ?_⟩
      · simp [hh, heq]
      · simpa [height_join, hh, heq] using hrest
    · next hzero =>
      split
      · next hold =>
        have heq : h = f.sib.height + 1 := by
          rcases hsign with hs | hs <;> rw [hs] at hbal hzero <;> omega
        have hrot := rotate_wf (d := f.dir) f.a ht hsib (by omega)
        have hlow := rotate_lower f.a ht (by omega) (y := f.sib)
          fun outer c cb inner htree => by
            rcases hlean with h0 | hlean
            · omega
            · exact hlean f.dir outer c cb inner htree
        refine WF_plug.mpr ⟨hrot.wf, ?_⟩
        rw [hrot.height, hlow, if_pos rfl]
        simpa [heq] using hrest
      · next hold =>
        obtain ⟨hup, hwf, hheight, hlean'⟩ := hframe.grown ht hh (not_not.mp hold)
        exact ih hup hwf hheight (.inr hlean')

theorem WF_shrinkUp (hctx : CtxWF (h + 1) ctx) (ht : t.WF)
    (hh : t.height = h) : (shrinkUp ctx t).WF := by
  induction ctx generalizing t h with
  | nil => exact ht
  | cons f ctx ih =>
    have hframe := hctx
    obtain ⟨hsib, hbal, hlo, hhi, hrest⟩ := hctx
    have hsign := sign_cases f.dir
    unfold shrinkUp
    dsimp only
    split
    · next hzero =>
      have heq : f.sib.height = h + 1 := by
        rcases hsign with hs | hs <;> rw [hs] at hbal <;> omega
      refine WF_plug.mpr ⟨WF_join.mpr ⟨ht, hsib, ?_⟩, ?_⟩
      · rcases hsign with hs | hs <;> rw [hs] <;> omega
      · simpa [height_join, hh, heq] using hrest
    · next hold =>
      split
      · next hzero =>
        obtain ⟨hup, hwf, hheight⟩ := hframe.shrunk ht hh hzero
        exact ih hup hwf hheight
      · next hzero =>
        have heq : f.sib.height = h + 2 := by
          rcases hsign with hs | hs <;> rw [hs] at hbal hzero <;> omega
        have hrot := rotate_wf (d := !f.dir) f.a hsib ht (by omega)
        rw [heq] at hrest
        split
        · next hlow =>
          refine ih (h := h + 2) ?_ hrot.wf ?_
          · simpa using hrest
          · rw [hrot.height, hlow, if_pos rfl, hh]
        · next hlow =>
          refine WF_plug.mpr ⟨hrot.wf, ?_⟩
          rw [hrot.height, if_neg hlow, hh]
          simpa using hrest

theorem CtxWF_append {ctx' : Ctx α} :
    CtxWF t.height (ctx ++ ctx') ↔ CtxWF t.height ctx ∧ CtxWF (plug ctx t).height ctx' := by
  induction ctx generalizing t with
  | nil => simp [CtxWF, plug]
  | cons f ctx ih =>
    have hheight : max t.height f.sib.height + 1 = (f.plug t).height := by
      rw [Frame.plug, height_join]
    rw [List.cons_append, CtxWF, CtxWF, plug, hheight, ih]
    tauto

theorem WF_insertAt (hctx : CtxWF 0 ctx) (a : α) : (insertAt ctx a).WF :=
  WF_growUp hctx (by simp [WF]) rfl (.inl rfl)

theorem WF_removeInner {l r : AvlTree α}
    (ht : (node l a b r).WF) (hctx : CtxWF (node l a b r).height ctx) (hl : l ≠ nil)
    (hr : r ≠ nil) : (removeInner ctx l b r).WF := by
  obtain ⟨left, frames, n, b', y, hleft, heq, hplug, -⟩ := removeInner_spec ctx b hl hr
  obtain ⟨hlwf, hrwf, hbal, hlo, hhi⟩ := ht
  -- the neighbour stands in the tree that it is taken from
  have hwf : (plug frames (join (!left) nil n b' y)).WF := by
    rw [hplug]
    split
    · exact hrwf
    · exact hlwf
  obtain ⟨hn, hframes⟩ := WF_plug.mp hwf
  obtain ⟨-, hy, -, -, -⟩ := WF_join.mp hn
  have hheight : (join (!left) nil n b' y).height = y.height + 1 := by
    simp [height_join, height]
  rw [heq]
  refine WF_shrinkUp ?_ hy rfl
  rw [← hheight]
  refine CtxWF_append.mpr ⟨hframes, ?_⟩
  rw [hplug, hleft]
  by_cases hb : b = 1
  · simp only [hb, decide_true, if_true, CtxWF, sign] at hbal ⊢
    refine ⟨hlwf, by omega, by decide, by decide, ?_⟩
    rw [Nat.max_comm]
    exact hctx
  · simp only [hb, decide_false, Bool.false_eq_true, if_false, CtxWF, sign]
    exact ⟨hrwf, by omega, hlo, hhi, hctx⟩

theorem WF_removeAt {l r : AvlTree α}
    (ht : (node l a b r).WF) (hctx : CtxWF (node l a b r).height ctx) :
    (removeAt ctx l b r).WF := by
  cases l with
  | nil => exact WF_shrinkUp (by simpa [height] using hctx) ht.2.1 rfl
  | node ll la lb lr =>
    cases r with
    | nil => exact WF_shrinkUp (by simpa [height] using hctx) ht.1 rfl
    | node rl ra rb rr => exact WF_removeInner ht hctx (by simp) (by simp)

end Balance

section Search

variable {cmp : α → Ordering}

/- The search goes to the same side of the list from every element of it. -/
def Splits (cmp : α → Ordering) (l : List α) : Prop :=
  l.Pairwise fun a b => (cmp a = .lt → cmp b = .lt) ∧ (cmp b = .gt → cmp a = .gt)

theorem locate_found {t l r : AvlTree α} {ctx ctx' : Ctx α} {a : α} {b : Int}
    (h : locate cmp t ctx = (ctx', node l a b r)) : cmp a = .eq := by
  induction t generalizing ctx with
  | nil => cases h
  | node l' c b' r' ihl ihr =>
    rw [locate] at h
    split at h
    · exact ihl h
    · next heq =>
      cases h
      exact heq
    · exact ihr h

/-- A search that finds nothing ends between the elements on its two sides. -/
theorem locate_missing {t : AvlTree α} {ctx ctx' : Ctx α} (hsplit : Splits cmp t.toList)
    (hbefore : ∀ a ∈ before ctx, cmp a = .gt) (hafter : ∀ a ∈ after ctx, cmp a = .lt)
    (h : locate cmp t ctx = (ctx', nil)) :
    (∀ a ∈ before ctx', cmp a = .gt) ∧ ∀ a ∈ after ctx', cmp a = .lt := by
  induction t generalizing ctx with
  | nil =>
    cases h
    exact ⟨hbefore, hafter⟩
  | node l c b r ihl ihr =>
    obtain ⟨hl, hcr, hcross⟩ := List.pairwise_append.mp hsplit
    obtain ⟨hc, hr⟩ := List.pairwise_cons.mp hcr
    rw [locate] at h
    split at h
    · next hlt =>
      refine ihl hl ?_ ?_ h
      · simpa [before] using hbefore
      · intro a ha
        simp only [after, Bool.false_eq_true, if_false, List.cons_append, List.mem_cons,
          List.mem_append] at ha
        rcases ha with rfl | ha | ha
        · exact hlt
        · exact (hc a ha).1 hlt
        · exact hafter a ha
    · cases h
    · next hgt =>
      refine ihr hr ?_ ?_ h
      · intro a ha
        simp only [before, if_true, List.mem_append, List.mem_singleton] at ha
        rcases ha with ha | ha | rfl
        · exact hbefore a ha
        · exact (hcross a ha c List.mem_cons_self).2 hgt
        · exact hgt
      · simpa [after] using hafter

end Search

end AvlTree

end ClusterZfs

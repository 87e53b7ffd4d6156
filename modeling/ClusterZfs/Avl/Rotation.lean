import ClusterZfs.Avl.Edit

/-! `avl_rotation` rotates the tree in memory. -/
namespace ClusterZfs

open AvlTree

attribute [local simp] AvlMem.setParent AvlMem.setChildIndex AvlMem.setBalance AvlMem.setChild

/- A node at a position, with `x` below it on the side `d` and `y` on the other side. Its stored
balance is left open. -/
structure AvlMem.AtNode (m : AvlMem) (ctx : Ctx Addr) (d : Bool) (x : AvlTree Addr) (a : Addr)
    (y : AvlTree Addr) : Prop where
  ne : a ≠ 0#64
  aligned : Aligned a
  near : Rep m.heap a d ((m.heap a).avlChild d) x
  far : Rep m.heap a (!d) ((m.heap a).avlChild (!d)) y
  above : CtxRep m.heap 0#64 false m.avlRoot a (m.heap a).xparent (m.heap a).xchild ctx
  nodup : (a :: (x.toList ++ y.toList) ++ ctxNodes ctx).Nodup

theorem rotation_left (d : Bool) : (!decide (2 * sign d < 0)) = d := by
  cases d <;> rfl

theorem rotation_heavy (d : Bool) : (2 * sign d) >>> 1 = sign d := by
  cases d <;> rfl

section Single

variable {m : AvlMem} {ctx : Ctx Addr} {d : Bool} {outer inner y : AvlTree Addr} {a c : Addr}
  {cb : Int}

/- The memory after the pointers of a single rotation are set, before the link from above. -/
def singleRotated (m : AvlMem) (d : Bool) (a c : Addr) (cb : Int) : AvlMem :=
  let cright := (m.heap c).avlChild (!d)
  let m' := (m.setChild a d cright).reparent cright a d
  let m' := m'.setChild c (!d) a
  let m' := ((m'.setBalance a (-cb)).setChildIndex a (!d)).setParent a c
  ((m'.setBalance c cb).setChildIndex c (m.heap a).xchild).setParent c (m.heap a).xparent

theorem singleRotated_node (hca : c ≠ a) (hra : a ≠ (m.heap c).avlChild (!d)) (cb' : Int) :
    (singleRotated m d a c cb').heap a =
      ((((m.heap a).setChild d ((m.heap c).avlChild (!d))).setBalance (-cb')).setChildIndex
        (!d)).setParent c := by
  simp [singleRotated, hca.symm, reparent_of_ne _ hra]

theorem singleRotated_child (hca : c ≠ a) (hrc : c ≠ (m.heap c).avlChild (!d)) (cb' : Int) :
    (singleRotated m d a c cb').heap c =
      ((((m.heap c).setChild (!d) a).setBalance cb').setChildIndex (m.heap a).xchild).setParent
        (m.heap a).xparent := by
  simp [singleRotated, hca, reparent_of_ne _ hrc]

theorem singleRotated_other {b : Addr} (ha : b ≠ a) (hc : b ≠ c) (cb' : Int) :
    (singleRotated m d a c cb').heap b = ((m.setChild a d ((m.heap c).avlChild (!d))).reparent
      ((m.heap c).avlChild (!d)) a d).heap b := by
  simp [singleRotated, ha, hc]

theorem singleRotated_avlRoot (cb' : Int) : (singleRotated m d a c cb').avlRoot = m.avlRoot := by
  simp [singleRotated]

theorem singleRotated_rep (h : m.AtNode ctx d (join d outer c cb inner) a y) {cb' : Int}
    (hlo : -1 ≤ cb') (hhi : cb' ≤ 1) :
    Rep (singleRotated m d a c cb').heap (m.heap a).xparent (m.heap a).xchild c
        (join d outer c cb' (join d inner a (-cb') y)) ∧
      CtxRep (singleRotated m d a c cb').heap 0#64 false (singleRotated m d a c cb').avlRoot a
        (m.heap a).xparent (m.heap a).xchild ctx := by
  obtain ⟨hroot, hcne, hcal, -, -, -, hout, hin⟩ := Rep_join.mp h.near
  have hperm : (a :: (join d outer c cb inner).toList ++ y.toList ++ ctxNodes ctx).Perm
      (a :: c :: (outer.toList ++ inner.toList) ++ y.toList ++ ctxNodes ctx) := by
    refine List.Perm.append_right _ (List.Perm.cons a ?_)
    exact (perm_join d outer c cb inner).append_right _
  have hnodup := hperm.nodup_iff.mp h.nodup
  simp only [List.cons_append, List.nodup_cons, List.mem_cons, List.mem_append,
    List.append_assoc, not_or, List.nodup_append] at hnodup
  obtain ⟨⟨hac, hao, hai, hay, hactx⟩, ⟨hco, hci, hcy, hcctx⟩, -, ⟨hinodup, -, hrest⟩, houtdisj⟩ :=
    hnodup
  have hra : a ≠ (m.heap c).avlChild (!d) := hin.ne_root h.ne hai
  have hrc : c ≠ (m.heap c).avlChild (!d) := hin.ne_root hcne hci
  have hpal := h.above.aligned
  have hnode := singleRotated_node (Ne.symm hac) hra cb'
  have hchild := singleRotated_child (Ne.symm hac) hrc cb'
  -- outside of the inner subtree only the two nodes have changed
  have hother : ∀ b, b ≠ a → b ≠ c → b ∉ inner.toList →
      (singleRotated m d a c cb').heap b = m.heap b := by
    intro b hba hbc hbi
    rw [singleRotated_other hba hbc, hin.reparent_out hbi]
    simp [hba]
  have hinner : Rep (singleRotated m d a c cb').heap a d ((m.heap c).avlChild (!d)) inner := by
    have hset : Rep (m.setChild a d ((m.heap c).avlChild (!d))).heap c (!d)
        ((m.heap c).avlChild (!d)) inner :=
      hin.congr fun b hb => by
        have hba : b ≠ a := ne_of_mem_of_not_mem hb hai
        simp [hba]
    refine (hset.reparent hinodup h.aligned d).congr fun b hb => ?_
    exact singleRotated_other (ne_of_mem_of_not_mem hb hai) (ne_of_mem_of_not_mem hb hci) cb'
  obtain ⟨hcp, hcc, hcbal, hckids⟩ := AvlNode.placed _ hlo hhi hpal hchild
  obtain ⟨hap, hax, habal, hakids⟩ := AvlNode.placed _ (by omega) (by omega) hcal hnode
  have hne : d ≠ !d := by simp
  refine ⟨Rep_join.mpr ⟨rfl, hcne, hcal, hcp, hcc, hcbal, ?_, Rep_join.mpr ⟨?_, h.ne, h.aligned,
    hap, hax, habal, ?_, ?_⟩⟩, ?_⟩
  · rw [hckids, AvlNode.setChild_child_of_ne _ hne]
    exact hout.congr fun b hb => hother b (ne_of_mem_of_not_mem hb hao)
      (ne_of_mem_of_not_mem hb hco) fun hbi => houtdisj b hb b (.inl hbi) rfl
  · rw [hckids, AvlNode.setChild_child]
  · rwa [hakids, AvlNode.setChild_child]
  · rw [hakids, AvlNode.setChild_child_of_ne _ hne.symm]
    exact h.far.congr fun b hb => hother b (ne_of_mem_of_not_mem hb hay)
      (ne_of_mem_of_not_mem hb hcy) fun hbi => hrest b hbi b (.inl hb) rfl
  · rw [singleRotated_avlRoot]
    exact h.above.congr fun b hb => hother b (ne_of_mem_of_not_mem hb hactx)
      (ne_of_mem_of_not_mem hb hcctx) fun hbi => hrest b hbi b (.inr hb) rfl

end Single

section Double

variable {m : AvlMem} {ctx : Ctx Addr} {d : Bool} {outer gl gr y : AvlTree Addr} {a c g : Addr}
  {cb gb : Int}

/- The two inner subtrees of a double rotation are moved. -/
def innerMoved (m : AvlMem) (d : Bool) (a c g : Addr) : AvlMem :=
  let m' := (m.setChild a d ((m.heap g).avlChild (!d))).reparent ((m.heap g).avlChild (!d)) a d
  (m'.setChild c (!d) ((m.heap g).avlChild d)).reparent ((m.heap g).avlChild d) c (!d)

/- The memory after the pointers of a double rotation are set, before the link from above. -/
def doubleRotated (m : AvlMem) (d : Bool) (a c g : Addr) (bc ba : Int) : AvlMem :=
  let m' := (innerMoved m d a c g).setChild g d c
  let m' := ((m'.setBalance c bc).setParent c g).setChildIndex c d
  let m' := m'.setChild g (!d) a
  let m' := ((m'.setBalance a ba).setParent a g).setChildIndex a (!d)
  ((m'.setBalance g 0).setParent g (m.heap a).xparent).setChildIndex g (m.heap a).xchild

/- The addresses of a double rotation are apart. -/
structure Apart (m : AvlMem) (d : Bool) (a c g : Addr) : Prop where
  ac : a ≠ c
  ag : a ≠ g
  cg : c ≠ g
  left : ∀ b, b = a ∨ b = c ∨ b = g → b ≠ (m.heap g).avlChild d
  right : ∀ b, b = a ∨ b = c ∨ b = g → b ≠ (m.heap g).avlChild (!d)

section

variable (h : Apart m d a c g)
include h

theorem innerMoved_node :
    (innerMoved m d a c g).heap a = (m.heap a).setChild d ((m.heap g).avlChild (!d)) := by
  rw [innerMoved, reparent_of_ne _ (h.left a (.inl rfl))]
  rw [AvlMem.setChild, modify_of_ne _ h.ac, reparent_of_ne _ (h.right a (.inl rfl))]
  simp

theorem innerMoved_child :
    (innerMoved m d a c g).heap c = (m.heap c).setChild (!d) ((m.heap g).avlChild d) := by
  rw [innerMoved, reparent_of_ne _ (h.left c (.inr (.inl rfl)))]
  rw [AvlMem.setChild, modify_self, reparent_of_ne _ (h.right c (.inr (.inl rfl)))]
  simp [h.ac.symm]

theorem innerMoved_gchild : (innerMoved m d a c g).heap g = m.heap g := by
  rw [innerMoved, reparent_of_ne _ (h.left g (.inr (.inr rfl)))]
  rw [AvlMem.setChild, modify_of_ne _ h.cg.symm, reparent_of_ne _ (h.right g (.inr (.inr rfl)))]
  simp [h.ag.symm]

end

@[simp] theorem innerMoved_avlRoot : (innerMoved m d a c g).avlRoot = m.avlRoot := by
  simp [innerMoved]

theorem doubleRotated_avlRoot (bc ba : Int) :
    (doubleRotated m d a c g bc ba).avlRoot = m.avlRoot := by
  simp [doubleRotated]

section

variable (h : Apart m d a c g)
include h

theorem doubleRotated_node (bc ba : Int) :
    (doubleRotated m d a c g bc ba).heap a =
      ((((m.heap a).setChild d ((m.heap g).avlChild (!d))).setBalance ba).setParent
        g).setChildIndex (!d) := by
  simp [doubleRotated, h.ac, h.ag, innerMoved_node h]

theorem doubleRotated_child (bc ba : Int) :
    (doubleRotated m d a c g bc ba).heap c =
      ((((m.heap c).setChild (!d) ((m.heap g).avlChild d)).setBalance bc).setParent
        g).setChildIndex d := by
  simp [doubleRotated, h.ac.symm, h.cg, innerMoved_child h]

theorem doubleRotated_gchild (bc ba : Int) :
    (doubleRotated m d a c g bc ba).heap g =
      (((((m.heap g).setChild d c).setChild (!d) a).setBalance 0).setParent
        (m.heap a).xparent).setChildIndex (m.heap a).xchild := by
  simp [doubleRotated, h.ag.symm, h.cg.symm, innerMoved_gchild h]

end

theorem doubleRotated_other {b : Addr} (ha : b ≠ a) (hc : b ≠ c) (hg : b ≠ g) (bc ba : Int) :
    (doubleRotated m d a c g bc ba).heap b = (innerMoved m d a c g).heap b := by
  simp [doubleRotated, ha, hc, hg]

theorem innerMoved_rep (hal : Aligned a) (hcal : Aligned c)
    (hgl : Rep m.heap g d ((m.heap g).avlChild d) gl)
    (hgr : Rep m.heap g (!d) ((m.heap g).avlChild (!d)) gr)
    (nodup : (gl.toList ++ gr.toList).Nodup) (hout : ∀ b ∈ gl.toList ++ gr.toList, b ≠ a ∧ b ≠ c) :
    Rep (innerMoved m d a c g).heap c (!d) ((m.heap g).avlChild d) gl ∧
      Rep (innerMoved m d a c g).heap a d ((m.heap g).avlChild (!d)) gr := by
  obtain ⟨hlnodup, hrnodup, hdisj⟩ := List.nodup_append.mp nodup
  have hla : ∀ b ∈ gl.toList, b ≠ a ∧ b ≠ c := fun b hb => hout b (List.mem_append_left _ hb)
  have hra : ∀ b ∈ gr.toList, b ≠ a ∧ b ≠ c := fun b hb => hout b (List.mem_append_right _ hb)
  set m₁ := (m.setChild a d ((m.heap g).avlChild (!d))).reparent
    ((m.heap g).avlChild (!d)) a d with hm₁
  have hset : ∀ b, b ≠ a → (m.setChild a d ((m.heap g).avlChild (!d))).heap b = m.heap b :=
    fun b hb => by simp [hb]
  have hgr₁ : Rep m₁.heap a d ((m.heap g).avlChild (!d)) gr :=
    (hgr.congr fun b hb => hset b (hra b hb).1).reparent hrnodup hal d
  have hgl₁ : Rep m₁.heap g d ((m.heap g).avlChild d) gl := hgl.congr fun b hb => by
    rw [hm₁, hgr.reparent_out (fun hbr => hdisj b hb b hbr rfl), hset b (hla b hb).1]
  have hset₁ : ∀ b, b ≠ c → (m₁.setChild c (!d) ((m.heap g).avlChild d)).heap b = m₁.heap b :=
    fun b hb => by simp [hb]
  constructor
  · exact (hgl₁.congr fun b hb => hset₁ b (hla b hb).2).reparent hlnodup hcal (!d)
  · refine hgr₁.congr fun b hb => ?_
    rw [innerMoved, hgl.reparent_out (fun hbl => hdisj b hbl b hb rfl), hset₁ b (hra b hb).2]

section

variable (h : m.AtNode ctx d (join d outer c cb (join d gl g gb gr)) a y)
include h

theorem double_nodup :
    (a :: c :: g :: (gl.toList ++ gr.toList) ++
      (outer.toList ++ (y.toList ++ ctxNodes ctx))).Nodup := by
  have hg := perm_join d gl g gb gr
  have hc := (perm_join d outer c cb (join d gl g gb gr)).trans
    (List.Perm.cons c (List.perm_append_comm.trans (hg.append_right outer.toList)))
  have hall := ((hc.append_right y.toList).append_right (ctxNodes ctx)).cons a
  have hnodup := hall.nodup_iff.mp h.nodup
  simpa using hnodup

theorem apart_of_atNode : Apart m d a c g := by
  obtain ⟨-, hcne, -, -, -, -, -, hin⟩ := Rep_join.mp h.near
  obtain ⟨-, hgne, -, -, -, -, hgl, hgr⟩ := Rep_join.mp hin
  have hnodup := double_nodup h
  simp only [List.cons_append, List.nodup_cons, List.mem_cons, List.mem_append,
    not_or] at hnodup
  obtain ⟨⟨hac, hag, ⟨hal, har⟩, -⟩, ⟨hcg, ⟨hcl, hcr⟩, -⟩, ⟨⟨hgl', hgr'⟩, -⟩, -⟩ := hnodup
  refine ⟨hac, hag, hcg, ?_, ?_⟩ <;> rintro b (rfl | rfl | rfl)
  exacts [hgl.ne_root h.ne hal, hgl.ne_root hcne hcl, hgl.ne_root hgne hgl', hgr.ne_root h.ne har,
    hgr.ne_root hcne hcr, hgr.ne_root hgne hgr']

theorem doubleRotated_rep {bc ba : Int} (hbc : -1 ≤ bc ∧ bc ≤ 1) (hba : -1 ≤ ba ∧ ba ≤ 1) :
    Rep (doubleRotated m d a c g bc ba).heap (m.heap a).xparent (m.heap a).xchild g
        (join d (join d outer c bc gl) g 0 (join d gr a ba y)) ∧
      CtxRep (doubleRotated m d a c g bc ba).heap 0#64 false
        (doubleRotated m d a c g bc ba).avlRoot a
        (m.heap a).xparent (m.heap a).xchild ctx := by
  obtain ⟨-, hcne, hcal, -, -, -, hout, hin⟩ := Rep_join.mp h.near
  obtain ⟨-, hgne, hgal, -, -, -, hgl, hgr⟩ := Rep_join.mp hin
  have hnodup := double_nodup h
  have hinodup : (gl.toList ++ gr.toList).Nodup := by
    refine hnodup.sublist ?_
    rw [List.cons_append, List.cons_append, List.cons_append]
    exact ((List.sublist_append_left _ _).cons g |>.cons c).cons a
  simp only [List.cons_append, List.nodup_cons, List.mem_cons, List.mem_append,
    not_or] at hnodup
  obtain ⟨⟨hac, hag, ⟨hal, har⟩, hao, hay, hactx⟩, ⟨hcg, ⟨hcl, hcr⟩, hco, hcy, hcctx⟩,
    ⟨⟨hgl', hgr'⟩, hgo, hgy, hgctx⟩, hrest⟩ := hnodup
  have hdisj := (List.nodup_append.mp hrest).2.2
  have hapart := apart_of_atNode h
  have hpal := h.above.aligned
  have hnode := doubleRotated_node hapart bc ba
  have hchild := doubleRotated_child hapart bc ba
  have hgchild := doubleRotated_gchild hapart bc ba
  have hthree : ∀ b ∈ gl.toList ++ gr.toList, b ≠ a ∧ b ≠ c ∧ b ≠ g := by
    intro b hb
    rcases List.mem_append.mp hb with hb | hb
    · exact ⟨ne_of_mem_of_not_mem hb hal, ne_of_mem_of_not_mem hb hcl,
        ne_of_mem_of_not_mem hb hgl'⟩
    · exact ⟨ne_of_mem_of_not_mem hb har, ne_of_mem_of_not_mem hb hcr,
        ne_of_mem_of_not_mem hb hgr'⟩
  obtain ⟨hgl₁, hgr₁⟩ := innerMoved_rep h.aligned hcal hgl hgr hinodup
    fun b hb => ⟨(hthree b hb).1, (hthree b hb).2.1⟩
  have hmoved : ∀ b ∈ gl.toList ++ gr.toList,
      (doubleRotated m d a c g bc ba).heap b = (innerMoved m d a c g).heap b := fun b hb =>
    doubleRotated_other (hthree b hb).1 (hthree b hb).2.1 (hthree b hb).2.2 bc ba
  -- outside of the inner subtrees only the three nodes have changed
  have hother : ∀ b, b ≠ a → b ≠ c → b ≠ g → b ∉ gl.toList ++ gr.toList →
      (doubleRotated m d a c g bc ba).heap b = m.heap b := by
    intro b hba hbc hbg hb
    rw [List.mem_append, not_or] at hb
    rw [doubleRotated_other hba hbc hbg, innerMoved, hgl.reparent_out hb.1]
    rw [AvlMem.setChild, modify_of_ne _ hbc, hgr.reparent_out hb.2]
    simp [hba]
  have hne : d ≠ !d := by simp
  obtain ⟨hgp, hgc, hgbal, hgkids⟩ := AvlNode.placed_index _ (by decide) (by decide) hpal hgchild
  obtain ⟨hcp, hcc, hcbal, hckids⟩ := AvlNode.placed_index _ hbc.1 hbc.2 hgal hchild
  obtain ⟨hap, hax, habal, hakids⟩ := AvlNode.placed_index _ hba.1 hba.2 hgal hnode
  refine ⟨Rep_join.mpr ⟨rfl, hgne, hgal, hgp, hgc, hgbal,
    Rep_join.mpr ⟨?_, hcne, hcal, hcp, hcc, hcbal, ?_, ?_⟩,
    Rep_join.mpr ⟨?_, h.ne, h.aligned, hap, hax, habal, ?_, ?_⟩⟩, ?_⟩
  · rw [hgkids, AvlNode.setChild_child_of_ne _ hne, AvlNode.setChild_child]
  · rw [hckids, AvlNode.setChild_child_of_ne _ hne]
    exact hout.congr fun b hb => hother b (ne_of_mem_of_not_mem hb hao)
      (ne_of_mem_of_not_mem hb hco) (ne_of_mem_of_not_mem hb hgo)
      fun hi => hdisj b hi b (List.mem_append_left _ hb) rfl
  · rw [hckids, AvlNode.setChild_child]
    exact hgl₁.congr fun b hb => hmoved b (List.mem_append_left _ hb)
  · rw [hgkids, AvlNode.setChild_child]
  · rw [hakids, AvlNode.setChild_child]
    exact hgr₁.congr fun b hb => hmoved b (List.mem_append_right _ hb)
  · rw [hakids, AvlNode.setChild_child_of_ne _ hne.symm]
    exact h.far.congr fun b hb => hother b (ne_of_mem_of_not_mem hb hay)
      (ne_of_mem_of_not_mem hb hcy) (ne_of_mem_of_not_mem hb hgy)
      fun hi => hdisj b hi b (List.mem_append_right _ (List.mem_append_left _ hb)) rfl
  · rw [doubleRotated_avlRoot]
    exact h.above.congr fun b hb => hother b (ne_of_mem_of_not_mem hb hactx)
      (ne_of_mem_of_not_mem hb hcctx) (ne_of_mem_of_not_mem hb hgctx)
      fun hi => hdisj b hi b (List.mem_append_right _ (List.mem_append_right _ hb)) rfl

end

end Double

section Rotation

variable {m : AvlMem} {ctx : Ctx Addr} {d : Bool} {x y : AvlTree Addr} {a : Addr}

@[simp] theorem singleRotated_avlNumnodes (c : Addr) (cb : Int) :
    (singleRotated m d a c cb).avlNumnodes = m.avlNumnodes := by
  simp [singleRotated]

@[simp] theorem doubleRotated_avlNumnodes (c g : Addr) (bc ba : Int) :
    (doubleRotated m d a c g bc ba).avlNumnodes = m.avlNumnodes := by
  simp [doubleRotated, innerMoved]

theorem avlRotation_eq (m : AvlMem) (d : Bool) (a : Addr) :
    avlRotation m a (2 * sign d) =
      let c := (m.heap a).avlChild d
      let cb := (m.heap c).xbalance
      if cb ≠ - sign d then
        ((singleRotated m d a c (cb - sign d)).link (m.heap a).xparent (m.heap a).xchild c,
          decide (cb - sign d = 0))
      else
        let g := (m.heap c).avlChild (!d)
        let gb := ((innerMoved m d a c g).heap g).xbalance
        ((doubleRotated m d a c g (if gb = - sign d then sign d else 0)
          (if gb = sign d then - sign d else 0)).link (m.heap a).xparent (m.heap a).xchild g,
          true) := by
  simp only [avlRotation, rotation_left, rotation_heavy]
  rfl

theorem perm_rotate (d : Bool) (x : AvlTree Addr) (a : Addr) (y : AvlTree Addr) :
    (rotate d x a y).1.toList.Perm (a :: (x.toList ++ y.toList)) := by
  rw [toList_rotate, ← toList_join d x a 0 y]
  exact perm_join d x a 0 y

theorem avlRotation_rep (h : m.AtNode ctx d x a y) (hx : x.WF) (hh : x.height = y.height + 2) :
    Rep (avlRotation m a (2 * sign d)).1.heap 0#64 false (avlRotation m a (2 * sign d)).1.avlRoot
        (plug ctx (rotate d x a y).1) ∧
      (avlRotation m a (2 * sign d)).2 = (rotate d x a y).2 ∧
      (avlRotation m a (2 * sign d)).1.avlNumnodes = m.avlNumnodes := by
  obtain ⟨outer, c, cb, inner, rfl⟩ := height_pos (by omega : 0 < x.height) d
  have hnodup : ((rotate d (join d outer c cb inner) a y).1.toList ++ ctxNodes ctx).Nodup :=
    ((perm_rotate d _ a y).append_right _).nodup_iff.mpr h.nodup
  obtain ⟨hroot, -, -, -, -, hcb, -, hin⟩ := Rep_join.mp h.near
  obtain ⟨-, hinwf, hbal, hlo, hhi⟩ := WF_join.mp hx
  have hsign := sign_cases d
  rw [avlRotation_eq, hroot]
  dsimp only
  rw [hcb]
  by_cases hcase : cb = - sign d
  · subst hcase
    have hpos : 0 < inner.height := by
      rcases hsign with hs | hs <;> rw [hs] at hbal <;> omega
    obtain ⟨gl, g, gb, gr, rfl⟩ := height_pos hpos d
    obtain ⟨hgroot, -, -, -, -, hgb, -, -⟩ := Rep_join.mp hin
    rw [if_neg (by simp), hgroot, innerMoved_gchild (apart_of_atNode h), hgb]
    have hrange : ∀ b : Int, b = sign d ∨ b = - sign d ∨ b = 0 → -1 ≤ b ∧ b ≤ 1 := by
      intro b hb
      rcases hsign with hs | hs <;> rw [hs] at hb <;> omega
    obtain ⟨hrep, hctx⟩ := doubleRotated_rep h
      (hrange (if gb = - sign d then sign d else 0) (by split <;> simp))
      (hrange (if gb = sign d then - sign d else 0) (by split <;> simp))
    have hrot : rotate d (join d outer c (- sign d) (join d gl g gb gr)) a y =
        (join d (join d outer c (if gb = - sign d then sign d else 0) gl) g 0
          (join d gr a (if gb = sign d then - sign d else 0) y), true) := by
      rw [rotate, parts_join]
      dsimp only
      rw [if_neg (by simp), parts_join]
    rw [hrot] at hnodup ⊢
    exact ⟨relink hrep hctx hnodup, rfl, by simp⟩
  · rw [if_pos hcase]
    have hrange : -1 ≤ cb - sign d ∧ cb - sign d ≤ 1 := by
      rcases hsign with hs | hs <;> rw [hs] at hcase ⊢ <;> omega
    obtain ⟨hrep, hctx⟩ := singleRotated_rep h hrange.1 hrange.2
    have hrot : rotate d (join d outer c cb inner) a y =
        (join d outer c (cb - sign d) (join d inner a (-(cb - sign d)) y),
          decide (cb - sign d = 0)) := by
      rw [rotate, parts_join]
      dsimp only
      rw [if_pos hcase]
    rw [hrot] at hnodup ⊢
    exact ⟨relink hrep hctx hnodup, rfl, by simp⟩

end Rotation

end ClusterZfs

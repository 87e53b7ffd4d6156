import ClusterZfs.Pgr.Meta

/-! What `sbd_pgr_meta_load` builds out of a section that `sbd_pgr_meta_write` made. -/
namespace ClusterZfs

/- The place of the holder among some keys, counted from 1, behind `n` other keys. -/
def holderIndx (holder : KeyPtr) : List KeyPtr → Nat → Nat → Nat
  | [], _, indx => indx
  | key :: rest, n, indx => holderIndx holder rest (n + 1) (if key = holder then n + 1 else indx)

theorem holderIndx_of_not_mem {holder : KeyPtr} {l : List KeyPtr} (h : holder ∉ l) (n indx : Nat) :
    holderIndx holder l n indx = indx := by
  induction l generalizing n indx with
  | nil => rfl
  | cons key rest ih =>
    have hne : key ≠ holder := fun heq => h (heq ▸ List.mem_cons_self)
    rw [holderIndx, if_neg hne, ih fun hmem => h (List.mem_cons_of_mem _ hmem)]

theorem holderIndx_append {holder : KeyPtr} (as bs : List KeyPtr) (h : holder ∉ bs)
    (n indx : Nat) : holderIndx holder (as ++ holder :: bs) n indx = n + as.length + 1 := by
  induction as generalizing n indx with
  | nil => rw [List.nil_append, holderIndx, if_pos rfl, holderIndx_of_not_mem h]; rfl
  | cons a as ih =>
    rw [List.cons_append, holderIndx, ih, List.length_cons]
    omega

namespace SbdLu

variable {s : SbdLu}

theorem writeKeys_eq (s : SbdLu) (l : List KeyPtr) (n indx : Nat) (records : Bytes) :
    s.writeKeys l (n, indx, records) = (n + l.length, holderIndx s.rsvholder l n indx,
      records ++ (l.map s.keys).flatMap keyRecord) := by
  induction l generalizing n indx records with
  | nil => simp [writeKeys, holderIndx]
  | cons key rest ih =>
    rw [writeKeys, ih, holderIndx, List.map_cons, List.flatMap_cons, List.length_cons,
      List.append_assoc]
    simp only [Prod.mk.injEq, and_true]
    omega

/- The keys `new` hang behind `done` after `ks` were read; whatever was allocated before is as it
was, and only these fields have changed. -/
structure Loaded (s s' : SbdLu) (ks : List PgrKey) (done new : List KeyPtr) (i indx : Nat) :
    Prop where
  isList : s'.list.IsList (done ++ new)
  keys_new : new.map s'.keys = ks.map PgrKey.reloaded
  keys_old : ∀ key ∈ s.alive, s'.keys key = s.keys key
  next_old : ∀ key ∈ s.alive, key ∉ done → s'.list.next key = s.list.next key
  prev_old : ∀ key ∈ s.alive, s'.list.prev key = s.list.prev key
  fresh : ∀ key ∈ new, key ∉ s.alive
  alive : s'.alive = new.reverse ++ s.alive
  holder : s'.rsvholder =
    if s.rsvdOne = true ∧ i ≤ indx ∧ indx < i + ks.length then new.getD (indx - i) 0
    else s.rsvholder
  rest : s' =
    { s with keys := s'.keys, list := s'.list, alive := s'.alive, rsvholder := s'.rsvholder }

/- One round of the loop. -/
def loadOne (s : SbdLu) (key last : KeyPtr) (k : PgrKey) (here : Bool) : SbdLu :=
  { s.setKey key k with
    list := s.list.append last key
    alive := key :: s.alive
    rsvholder := if here then key else s.rsvholder }

theorem Loaded.cons {s s' : SbdLu} {ks : List PgrKey} {done new : List KeyPtr} {i indx : Nat}
    {key : KeyPtr} {k : PgrKey} (hfresh : key ∉ s.alive)
    (h : Loaded (s.loadOne key (done.getLastD 0) k.reloaded (s.rsvdOne ∧ i = indx)) s' ks
      (done ++ [key]) new (i + 1) indx) : Loaded s s' (k :: ks) done (key :: new) i indx := by
  have hne : ∀ b ∈ s.alive, b ≠ key := fun b hb => ne_of_mem_of_not_mem hb hfresh
  refine ⟨?_, ?_, fun b hb => ?_, fun b hb hbdone => ?_, fun b hb => ?_, fun b hb => ?_, ?_, ?_, ?_⟩
  · have hlist := h.isList
    rwa [List.append_assoc, List.singleton_append] at hlist
  · have hkey : s'.keys key = k.reloaded :=
      (h.keys_old key List.mem_cons_self).trans (Function.update_self ..)
    rw [List.map_cons, List.map_cons, hkey, h.keys_new]
  · exact (h.keys_old b (List.mem_cons_of_mem _ hb)).trans (Function.update_of_ne (hne b hb) ..)
  · have hlater : b ∉ done ++ [key] := by
      simp only [List.mem_append, List.mem_singleton, not_or]
      exact ⟨hbdone, hne b hb⟩
    refine (h.next_old b (List.mem_cons_of_mem _ hb) hlater).trans ?_
    simp only [loadOne, Dll.append]
    split
    · exact Function.update_of_ne (hne b hb) ..
    · rename_i hlast
      have hblast : b ≠ done.getLastD 0 := by
        intro heq
        rcases List.eq_nil_or_concat' done with rfl | ⟨xs, x, rfl⟩
        · exact hlast rfl
        · exact hbdone (by simp [heq])
      rw [Function.update_of_ne hblast, Function.update_of_ne (hne b hb)]
  · exact (h.prev_old b (List.mem_cons_of_mem _ hb)).trans (Function.update_of_ne (hne b hb) ..)
  · rcases List.mem_cons.mp hb with rfl | hb
    · exact hfresh
    · exact fun hmem => h.fresh b hb (List.mem_cons_of_mem _ hmem)
  · rw [h.alive, List.reverse_cons, List.append_assoc, List.singleton_append]
    rfl
  · have hholder := h.holder
    simp only [loadOne, setKey, decide_eq_true_eq] at hholder
    rw [hholder, List.length_cons]
    by_cases hone : s.rsvdOne = true
    · simp only [hone, true_and]
      by_cases heq : i = indx
      · subst heq
        rw [if_neg (by omega), if_pos rfl, if_pos (by omega), Nat.sub_self, List.getD_cons_zero]
      · by_cases hin : i + 1 ≤ indx ∧ indx < i + 1 + ks.length
        · have hsub : indx - i = indx - (i + 1) + 1 := by omega
          rw [if_pos hin, if_pos (by omega), hsub, List.getD_cons_succ]
        · rw [if_neg hin, if_neg heq, if_neg (by omega)]
    · simp only [hone, false_and, if_false, Bool.false_eq_true]
  · exact h.rest

theorem loadKeys_loaded (kmem : Kmem) (indx : Nat) (ks : List PgrKey) (hks : ∀ k ∈ ks, k.Storable)
    {done : List KeyPtr} (hdone : s.list.IsList done) (halive : ∀ key ∈ done, key ∈ s.alive)
    (i : Nat) :
    ∃ s' new, s.loadKeys kmem indx ks.length i (ks.flatMap keyRecord) (done.getLastD 0) =
      (true, s') ∧ Loaded s s' ks done new i indx := by
  induction ks generalizing s done i with
  | nil =>
    refine ⟨s, [], rfl, ?_⟩
    refine ⟨by rwa [List.append_nil], rfl, fun _ _ => rfl, fun _ _ _ => rfl, fun _ _ => rfl,
      by simp, rfl, ?_, rfl⟩
    rw [if_neg]
    simp only [List.length_nil]
    omega
  | cons k ks ih =>
    have hfresh := kmem.fresh s.alive
    have hkey0 := kmem.nonNull s.alive
    generalize hkey : kmem.alloc s.alive = key at hfresh hkey0
    have hnotin : key ∉ done := fun hmem => hfresh (halive key hmem)
    have hone : (s.loadOne key (done.getLastD 0) k.reloaded (s.rsvdOne ∧ i = indx)).list.IsList
        (done ++ [key]) := hdone.append hkey0 hnotin rfl
    have halive' : ∀ b ∈ done ++ [key],
        b ∈ (s.loadOne key (done.getLastD 0) k.reloaded (s.rsvdOne ∧ i = indx)).alive :=
      List.forall_mem_append.mpr ⟨fun b hb => List.mem_cons_of_mem _ (halive b hb),
        List.forall_mem_singleton.mpr List.mem_cons_self⟩
    obtain ⟨s', new, hrun, hloaded⟩ := ih (fun k' hk' => hks k' (List.mem_cons_of_mem _ hk'))
      hone halive' (i + 1)
    refine ⟨s', key :: new, ?_, ?_⟩
    · rw [List.length_cons, List.flatMap_cons, loadKeys,
        loadKey_keyRecord (hks k List.mem_cons_self)]
      simp only [hkey]
      rw [List.getLastD_concat] at hrun
      simpa only [loadOne, decide_eq_true_eq] using hrun
    · exact hloaded.cons hfresh

end SbdLu

end ClusterZfs

import Mathlib.Data.List.Nodup
import Mathlib.Logic.Function.Basic

/-! Doubly linked lists in a memory of link fields. A node is its address; 0 stands for no node. -/
namespace ClusterZfs

structure Dll where
  head : Nat
  next : Nat → Nat
  prev : Nat → Nat

namespace Dll

/- The nodes a loop along `next` visits in `fuel` rounds. -/
def walkFrom (d : Dll) : Nat → Nat → List Nat
  | 0, _ => []
  | fuel + 1, a => if a = 0 then [] else a :: d.walkFrom fuel (d.next a)

/- The links along some nodes: `p` is the node before them, `h` points at the first and `e` is
what the last one points at. -/
def Linked (d : Dll) : Nat → Nat → List Nat → Nat → Prop
  | _, h, [], e => h = e
  | p, h, a :: l, e => h = a ∧ a ≠ 0 ∧ d.prev a = p ∧ Linked d a (d.next a) l e

structure IsList (d : Dll) (l : List Nat) : Prop where
  linked : d.Linked 0 d.head l 0
  nodup : l.Nodup

/- A zeroed node in front of the list. -/
def push (d : Dll) (a : Nat) : Dll where
  head := a
  next := Function.update d.next a d.head
  prev :=
    if d.head = 0 then Function.update d.prev a 0
    else Function.update (Function.update d.prev a 0) d.head a

/- A zeroed node behind `last`, or at the head when there is no last node. -/
def append (d : Dll) (last a : Nat) : Dll where
  head := if last = 0 then a else d.head
  next :=
    if last = 0 then Function.update d.next a 0
    else Function.update (Function.update d.next a 0) last a
  prev := Function.update d.prev a last

def unlink (d : Dll) (a : Nat) : Dll where
  head := if d.prev a = 0 then d.next a else d.head
  next := if d.prev a = 0 then d.next else Function.update d.next (d.prev a) (d.next a)
  prev := if d.next a = 0 then d.prev else Function.update d.prev (d.next a) (d.prev a)

variable {d d' : Dll} {l xs ys : List Nat} {a b p p' h e e' : Nat}

theorem Linked.congr (hl : d.Linked p h l e) (hnext : ∀ b ∈ l, d'.next b = d.next b)
    (hprev : ∀ b ∈ l, d'.prev b = d.prev b) : d'.Linked p h l e := by
  induction l generalizing p h with
  | nil => exact hl
  | cons b l ih =>
    obtain ⟨hhead, hb, hp, hrest⟩ := hl
    refine ⟨hhead, hb, (hprev b List.mem_cons_self).trans hp, ?_⟩
    rw [hnext b List.mem_cons_self]
    exact ih hrest (fun c hc => hnext c (List.mem_cons_of_mem _ hc))
      fun c hc => hprev c (List.mem_cons_of_mem _ hc)

theorem Linked.ne_zero (hl : d.Linked p h l e) : ∀ b ∈ l, b ≠ 0 := by
  induction l generalizing p h with
  | nil => simp
  | cons b l ih =>
    intro c hc
    rcases List.mem_cons.mp hc with rfl | hc
    · exact hl.2.1
    · exact ih hl.2.2.2 c hc

/-- Some nodes and then more: the second part hangs on the last node of the first. -/
theorem linked_append :
    d.Linked p h (xs ++ ys) e ↔ ∃ m, d.Linked p h xs m ∧ d.Linked (xs.getLastD p) m ys e := by
  induction xs generalizing p h with
  | nil => simp [Linked]
  | cons x xs ih =>
    simp only [List.cons_append, Linked, ih, List.getLastD_cons]
    constructor
    · rintro ⟨hh, hx, hp, m, hxs, hys⟩
      exact ⟨m, ⟨hh, hx, hp, hxs⟩, hys⟩
    · rintro ⟨m, ⟨hh, hx, hp, hxs⟩, hys⟩
      exact ⟨hh, hx, hp, m, hxs, hys⟩

theorem Linked.setEnd (hl : d.Linked p h (xs ++ [b]) e) (hb : b ∉ xs)
    (hnext : d'.next = Function.update d.next b e')
    (hprev : ∀ c ∈ xs ++ [b], d'.prev c = d.prev c) :
    d'.Linked p h (xs ++ [b]) e' := by
  obtain ⟨m, hxs, hh, hb0, hp, -⟩ := linked_append.mp hl
  refine linked_append.mpr ⟨m, hxs.congr (fun c hc => ?_) fun c hc => ?_, hh, hb0, ?_, ?_⟩
  · rw [hnext, Function.update_of_ne (ne_of_mem_of_not_mem hc hb)]
  · exact hprev c (List.mem_append_left _ hc)
  · exact (hprev b (List.mem_append_right _ List.mem_cons_self)).trans hp
  · rw [Linked, hnext, Function.update_self]

theorem Linked.setBefore (hl : d.Linked p a (a :: ys) e) (ha : a ∉ ys)
    (hprev : d'.prev = Function.update d.prev a p')
    (hnext : ∀ c ∈ a :: ys, d'.next c = d.next c) : d'.Linked p' a (a :: ys) e := by
  obtain ⟨hh, ha0, -, hrest⟩ := hl
  refine ⟨hh, ha0, by rw [hprev, Function.update_self], ?_⟩
  rw [hnext a List.mem_cons_self]
  refine hrest.congr (fun c hc => hnext c (List.mem_cons_of_mem _ hc)) fun c hc => ?_
  rw [hprev, Function.update_of_ne (ne_of_mem_of_not_mem hc ha)]

theorem Linked.walkFrom_eq (hl : d.Linked p h l 0) {fuel : Nat} (hfuel : l.length ≤ fuel) :
    d.walkFrom fuel h = l := by
  induction l generalizing p h fuel with
  | nil =>
    have hnone : h = 0 := hl
    cases fuel with
    | zero => rfl
    | succ fuel => rw [Dll.walkFrom, if_pos hnone]
  | cons b l ih =>
    obtain ⟨rfl, hb, -, hrest⟩ := hl
    cases fuel with
    | zero => simp at hfuel
    | succ fuel => rw [Dll.walkFrom, if_neg hb, ih hrest (Nat.le_of_succ_le_succ hfuel)]

theorem isList_nil (next prev : Nat → Nat) : IsList ⟨0, next, prev⟩ [] := ⟨rfl, List.nodup_nil⟩

theorem IsList.push (hl : d.IsList l) (ha : a ≠ 0) (hnew : a ∉ l) :
    (d.push a).IsList (a :: l) := by
  have hnext : (d.push a).next a = d.head := Function.update_self ..
  have hother : ∀ b ∈ l, (d.push a).next b = d.next b := fun b hb =>
    Function.update_of_ne (ne_of_mem_of_not_mem hb hnew) ..
  refine ⟨⟨rfl, ha, ?_, ?_⟩, List.nodup_cons.mpr ⟨hnew, hl.nodup⟩⟩
  · cases l with
    | nil =>
      have hhead : d.head = 0 := hl.linked
      simp [Dll.push, if_pos hhead]
    | cons b l =>
      obtain ⟨hhead, hb, -, -⟩ := hl.linked
      have hab : a ≠ b := (ne_of_mem_of_not_mem List.mem_cons_self hnew).symm
      simp [Dll.push, hhead, if_neg hb, Function.update_of_ne hab]
  · rw [hnext]
    cases l with
    | nil => exact hl.linked
    | cons b l =>
      obtain ⟨hhead, hb, -, -⟩ := hl.linked
      have hlinked := hl.linked
      rw [hhead] at hlinked ⊢
      -- The new node is not in the list, so its own zeroed field does not matter there.
      have hzero : Linked ⟨d.head, d.next, Function.update d.prev a 0⟩ 0 b (b :: l) 0 :=
        hlinked.congr (fun _ _ => rfl)
          fun c hc => Function.update_of_ne (ne_of_mem_of_not_mem hc hnew) ..
      refine hzero.setBefore (List.nodup_cons.mp hl.nodup).1 ?_ hother
      simp [Dll.push, hhead, if_neg hb]

theorem IsList.append (hl : d.IsList l) (ha : a ≠ 0) (hnew : a ∉ l) {last : Nat}
    (hlast : last = l.getLastD 0) : (d.append last a).IsList (l ++ [a]) := by
  have hprev : (d.append last a).prev a = last := Function.update_self ..
  have hother : ∀ b ∈ l, (d.append last a).prev b = d.prev b := fun b hb =>
    Function.update_of_ne (ne_of_mem_of_not_mem hb hnew) ..
  refine ⟨?_, List.nodup_append.mpr ⟨hl.nodup, List.nodup_singleton a, ?_⟩⟩
  · rcases List.eq_nil_or_concat' l with rfl | ⟨xs, b, rfl⟩
    · have hnone : last = 0 := hlast
      refine ⟨?_, ha, hprev.trans hnone, ?_⟩
      · simp [Dll.append, if_pos hnone]
      · simp [Dll.append, if_pos hnone, Linked]
    · have hb : last = b := by simpa using hlast
      have hb0 : b ≠ 0 := hl.linked.ne_zero b (by simp)
      have hbxs : b ∉ xs := by
        have hnd := List.nodup_append.mp hl.nodup
        exact fun hmem => hnd.2.2 b hmem b List.mem_cons_self rfl
      have hzero : Linked ⟨d.head, Function.update d.next a 0, d.prev⟩ 0 d.head (xs ++ [b]) 0 :=
        hl.linked.congr (fun c hc => Function.update_of_ne (ne_of_mem_of_not_mem hc hnew) ..)
          fun _ _ => rfl
      have hnext : (d.append last a).next = Function.update (Function.update d.next a 0) b a := by
        simp [Dll.append, hb, if_neg hb0]
      have hhead : (d.append last a).head = d.head := by simp only [Dll.append, hb, if_neg hb0]
      have hab : a ≠ b := (ne_of_mem_of_not_mem (by simp) hnew).symm
      rw [hhead]
      refine linked_append.mpr ⟨a, hzero.setEnd hbxs hnext hother, rfl, ha, ?_, ?_⟩
      · rw [hprev, hb]
        simp
      · rw [Linked, hnext, Function.update_of_ne hab, Function.update_self]
  · intro b hb c hc
    rw [List.mem_singleton.mp hc]
    exact ne_of_mem_of_not_mem hb hnew

theorem IsList.unlink (hl : d.IsList (xs ++ a :: ys)) : (d.unlink a).IsList (xs ++ ys) := by
  obtain ⟨m, hxs, hm, -, hprev, hys⟩ := linked_append.mp hl.linked
  rw [hm] at hxs
  have hnd : (a :: (xs ++ ys)).Nodup := List.nodup_middle.mp hl.nodup
  have haxys : (xs ++ ys).Nodup := (List.nodup_cons.mp hnd).2
  have hsplit := List.nodup_append.mp haxys
  -- The node behind learns of the node before.
  have hbehind : ∀ d' : Dll, d'.prev = (d.unlink a).prev →
      (∀ c ∈ ys, d'.next c = d.next c) → d'.Linked (d.prev a) (d.next a) ys 0 := by
    intro d' hp hn
    cases ys with
    | nil => exact hys
    | cons c ys =>
      have hc : d.next a = c := hys.1
      have hc0 : c ≠ 0 := hys.2.1
      rw [hc] at hys ⊢
      refine hys.setBefore (List.nodup_cons.mp hsplit.2.1).1 ?_ hn
      rw [hp]
      simp [Dll.unlink, hc, if_neg hc0]
  -- The nodes before keep the fields they have towards their own start.
  have hprevs : ∀ c ∈ xs, (d.unlink a).prev c = d.prev c := by
    intro c hc
    cases ys with
    | nil =>
      have hnone : d.next a = 0 := hys
      simp [Dll.unlink, if_pos hnone]
    | cons b ys =>
      have hcb : c ≠ b := hsplit.2.2 c hc b List.mem_cons_self
      simp [Dll.unlink, hys.1, if_neg hys.2.1, Function.update_of_ne hcb]
  refine ⟨?_, haxys⟩
  rcases List.eq_nil_or_concat' xs with rfl | ⟨ws, w, rfl⟩
  · have hp : d.prev a = 0 := hprev
    have hnext : (d.unlink a).next = d.next := by simp only [Dll.unlink, if_pos hp]
    have hhead : (d.unlink a).head = d.next a := by simp only [Dll.unlink, if_pos hp]
    have hrest := hbehind (d.unlink a) rfl fun c _ => by rw [hnext]
    rw [hhead]
    rwa [hp] at hrest
  · have hp : d.prev a = w := by simpa using hprev
    have hw0 : w ≠ 0 := hxs.ne_zero w (by simp)
    have hnext : (d.unlink a).next = Function.update d.next w (d.next a) := by
      simp [Dll.unlink, hp, if_neg hw0]
    have hhead : (d.unlink a).head = d.head := by simp only [Dll.unlink, hp, if_neg hw0]
    have hws : w ∉ ws := fun hmem =>
      (List.nodup_append.mp hsplit.1).2.2 w hmem w List.mem_cons_self rfl
    have hrest := hbehind (d.unlink a) rfl fun c hc => by
      rw [hnext, Function.update_of_ne (hsplit.2.2 w (by simp) c hc).symm]
    rw [hhead]
    refine linked_append.mpr ⟨d.next a, hxs.setEnd hws hnext hprevs, ?_⟩
    rw [hp] at hrest
    simpa using hrest

end Dll

end ClusterZfs

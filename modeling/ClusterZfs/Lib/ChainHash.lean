import Mathlib.Data.List.Nodup

/-! A hash of objects in memory with a chain for each key. A chain holds the addresses of the
objects that share its key, and it is taken out of the hash when its last object leaves it. What
names an object is more than the key, so different objects may share a chain. -/
namespace ClusterZfs

structure ChainHash (β : Type) where
  objs : Nat → β
  next : Nat
  chains : Nat → Option (List Nat)

namespace ChainHash

section ChainHash

variable {β ι : Type} [DecidableEq ι] (ident : β → ι) (keygen : ι → Nat) {k' : Nat}

def empty (b : β) : ChainHash β := ⟨fun _ => b, 0, fun _ => none⟩

def setChain (h : ChainHash β) (k : Nat) (l : Option (List Nat)) : ChainHash β :=
  { h with chains := fun k' => if k' = k then l else h.chains k' }

def modify (h : ChainHash β) (p : Nat) (f : β → β) : ChainHash β :=
  { h with objs := fun q => if q = p then f (h.objs q) else h.objs q }

/- A new object at the end of the chain of `k`, which is created when there is none. -/
def insert (h : ChainHash β) (k : Nat) (b : β) : ChainHash β :=
  { objs := fun q => if q = h.next then b else h.objs q
    next := h.next + 1
    chains := fun k' => if k' = k then some ((h.chains k).getD [] ++ [h.next]) else h.chains k' }

def unchain (h : ChainHash β) (k p : Nat) : ChainHash β :=
  h.setChain k ((h.chains k).map fun l => l.erase p)

def dropIfEmpty (h : ChainHash β) (k : Nat) : ChainHash β :=
  match h.chains k with
  | some [] => h.setChain k none
  | _ => h

/- The first object of the chain with the name `i`. -/
def find (h : ChainHash β) (i : ι) : Option Nat :=
  (h.chains (keygen i)).bind fun l => l.find? fun p => decide (ident (h.objs p) = i)

/-- The object at `p` is in the chain of its key. -/
def Has (h : ChainHash β) (p : Nat) : Prop :=
  p ∈ (h.chains (keygen (ident (h.objs p)))).getD []

structure Inv (h : ChainHash β) : Prop where
  keyed : ∀ k l, h.chains k = some l → ∀ p ∈ l, keygen (ident (h.objs p)) = k
  nonempty : ∀ k, h.chains k ≠ some []
  nodup : ∀ k l, h.chains k = some l → l.Nodup
  distinct : ∀ p q, h.Has ident keygen p → h.Has ident keygen q →
    ident (h.objs p) = ident (h.objs q) → p = q
  fresh : ∀ p, h.Has ident keygen p → p < h.next

variable {ident keygen} {h : ChainHash β} {p q k : Nat} {i : ι} {l : List Nat} {b : β} {f : β → β}

omit [DecidableEq ι] in
theorem Inv.empty (b : β) : Inv ident keygen (ChainHash.empty b) where
  keyed := fun _ _ hl => by cases hl
  nonempty := fun _ hl => by cases hl
  nodup := fun _ _ hl => by cases hl
  distinct := fun _ _ hp => by cases hp
  fresh := fun _ hp => by cases hp

omit [DecidableEq ι] in
theorem Inv.has_of_mem (hinv : Inv ident keygen h) (hl : h.chains k = some l) (hp : p ∈ l) :
    h.Has ident keygen p := by
  unfold Has
  rw [hinv.keyed k l hl p hp, hl]
  exact hp

omit [DecidableEq ι] in
theorem Has.exists_chain (hp : h.Has ident keygen p) :
    ∃ l, h.chains (keygen (ident (h.objs p))) = some l ∧ p ∈ l := by
  unfold Has at hp
  cases hl : h.chains (keygen (ident (h.objs p))) with
  | none =>
    rw [hl] at hp
    cases hp
  | some l =>
    rw [hl] at hp
    exact ⟨l, rfl, hp⟩

section

variable (hinv : Inv ident keygen h)
include hinv

theorem Inv.find_eq_some :
    h.find ident keygen i = some p ↔ h.Has ident keygen p ∧ ident (h.objs p) = i := by
  constructor
  · intro hfind
    obtain ⟨l, hl, hp⟩ := Option.bind_eq_some_iff.mp hfind
    exact ⟨hinv.has_of_mem hl (List.mem_of_find?_eq_some hp),
      by simpa using List.find?_some hp⟩
  · rintro ⟨hp, rfl⟩
    obtain ⟨l, hl, hmem⟩ := hp.exists_chain
    cases hfind : l.find? fun q => decide (ident (h.objs q) = ident (h.objs p)) with
    | none => exact absurd (List.find?_eq_none.mp hfind p hmem) (by simp)
    | some q =>
      have hq := hinv.has_of_mem hl (List.mem_of_find?_eq_some hfind)
      have hsame : ident (h.objs q) = ident (h.objs p) := by simpa using List.find?_some hfind
      rw [find, hl, Option.bind_some, hfind, hinv.distinct q p hq hp hsame]

theorem Inv.find_eq_none :
    h.find ident keygen i = none ↔ ∀ p, h.Has ident keygen p → ident (h.objs p) ≠ i := by
  rw [Option.eq_none_iff_forall_ne_some]
  constructor
  · intro hnone p hp hi
    exact hnone p (hinv.find_eq_some.mpr ⟨hp, hi⟩)
  · intro hall p hp
    obtain ⟨hp, hi⟩ := hinv.find_eq_some.mp hp
    exact hall p hp hi

theorem Inv.find_self (hp : h.Has ident keygen p) :
    h.find ident keygen (ident (h.objs p)) = some p :=
  hinv.find_eq_some.mpr ⟨hp, rfl⟩

end

omit [DecidableEq ι] in
theorem Inv.dropIfEmpty_eq (hinv : Inv ident keygen h) (k : Nat) : h.dropIfEmpty k = h := by
  unfold dropIfEmpty
  split
  · rename_i hl
    exact absurd hl (hinv.nonempty k)
  · rfl

/- A change of an object that keeps its name. -/

@[simp] theorem modify_chains : (h.modify p f).chains = h.chains := rfl

theorem modify_objs_self : (h.modify p f).objs p = f (h.objs p) := if_pos rfl

theorem modify_objs_of_ne (hne : q ≠ p) : (h.modify p f).objs q = h.objs q := if_neg hne

omit [DecidableEq ι] in
theorem ident_modify (hf : ident (f (h.objs p)) = ident (h.objs p)) :
    ident ((h.modify p f).objs q) = ident (h.objs q) := by
  by_cases hq : q = p
  · rw [hq, modify_objs_self, hf]
  · rw [modify_objs_of_ne hq]

omit [DecidableEq ι] in
theorem has_modify (hf : ident (f (h.objs p)) = ident (h.objs p)) :
    (h.modify p f).Has ident keygen q ↔ h.Has ident keygen q := by
  unfold Has
  rw [ident_modify hf, modify_chains]

omit [DecidableEq ι] in
theorem Inv.modify (hinv : Inv ident keygen h)
    (hf : ident (f (h.objs p)) = ident (h.objs p)) : Inv ident keygen (h.modify p f) where
  keyed := fun k l hl q hq => by
    rw [ident_modify hf]
    exact hinv.keyed k l hl q hq
  nonempty := hinv.nonempty
  nodup := hinv.nodup
  distinct := fun q r hq hr hsame => by
    rw [ident_modify hf, ident_modify hf] at hsame
    exact hinv.distinct q r ((has_modify hf).mp hq) ((has_modify hf).mp hr) hsame
  fresh := fun q hq => hinv.fresh q ((has_modify hf).mp hq)

theorem find_modify (hf : ident (f (h.objs p)) = ident (h.objs p)) :
    (h.modify p f).find ident keygen i = h.find ident keygen i := by
  unfold find
  simp [ident_modify hf]

/- A new object. -/

theorem insert_objs_self : (h.insert k b).objs h.next = b := if_pos rfl

theorem insert_objs_of_ne (hne : q ≠ h.next) : (h.insert k b).objs q = h.objs q := if_neg hne

theorem insert_chains_self :
    (h.insert k b).chains k = some ((h.chains k).getD [] ++ [h.next]) := if_pos rfl

theorem insert_chains_of_ne (hne : k' ≠ k) :
    (h.insert k b).chains k' = h.chains k' := if_neg hne

theorem mem_insert_chain (hp : p ≠ h.next) :
    p ∈ ((h.insert k b).chains k').getD [] ↔ p ∈ (h.chains k').getD [] := by
  by_cases hk : k' = k
  · rw [hk, insert_chains_self]
    simp [hp]
  · rw [insert_chains_of_ne hk]

omit [DecidableEq ι] in
theorem has_insert_self : (h.insert (keygen (ident b)) b).Has ident keygen h.next := by
  unfold Has
  rw [insert_objs_self, insert_chains_self]
  simp

omit [DecidableEq ι] in
theorem has_insert_of_ne (hp : p ≠ h.next) :
    (h.insert k b).Has ident keygen p ↔ h.Has ident keygen p := by
  unfold Has
  rw [insert_objs_of_ne hp, mem_insert_chain hp]

omit [DecidableEq ι] in
theorem has_insert :
    (h.insert (keygen (ident b)) b).Has ident keygen p ↔ h.Has ident keygen p ∨ p = h.next := by
  by_cases hp : p = h.next
  · rw [hp]
    exact ⟨fun _ => .inr rfl, fun _ => has_insert_self⟩
  · rw [has_insert_of_ne hp]
    simp [hp]

section

variable (hinv : Inv ident keygen h)
include hinv

section

variable (hnew : h.find ident keygen (ident b) = none)
include hnew

theorem Inv.insert :
    Inv ident keygen (h.insert (keygen (ident b)) b) := by
  have hold : ∀ k l, h.chains k = some l → ∀ p ∈ l, p ≠ h.next := fun k l hl p hp =>
    Nat.ne_of_lt (hinv.fresh p (hinv.has_of_mem hl hp))
  have hother := hinv.find_eq_none.mp hnew
  constructor
  · intro k l hl p hp
    by_cases hpn : p = h.next
    · by_cases hk : k = keygen (ident b)
      · rw [hpn, insert_objs_self, hk]
      · rw [insert_chains_of_ne hk] at hl
        exact absurd hpn (hold k l hl p hp)
    · have hmem : p ∈ (h.chains k).getD [] := by
        rw [← mem_insert_chain (k := keygen (ident b)) hpn, hl]
        exact hp
      cases hchain : h.chains k with
      | none =>
        rw [hchain] at hmem
        cases hmem
      | some l' =>
        rw [hchain] at hmem
        rw [insert_objs_of_ne hpn]
        exact hinv.keyed k l' hchain p hmem
  · intro k
    by_cases hk : k = keygen (ident b)
    · rw [hk, insert_chains_self]
      simp
    · rw [insert_chains_of_ne hk]
      exact hinv.nonempty k
  · intro k l hl
    by_cases hk : k = keygen (ident b)
    · rw [hk, insert_chains_self] at hl
      cases hl
      cases hchain : h.chains (keygen (ident b)) with
      | none => simp
      | some l' =>
        rw [Option.getD_some]
        refine (hinv.nodup _ l' hchain).append (List.nodup_singleton _) ?_
        simpa using fun hmem => hold _ l' hchain _ hmem rfl
    · rw [insert_chains_of_ne hk] at hl
      exact hinv.nodup k l hl
  · intro p q hp hq hsame
    by_cases hpn : p = h.next
    · by_cases hqn : q = h.next
      · rw [hpn, hqn]
      · rw [hpn, insert_objs_self, insert_objs_of_ne hqn] at hsame
        exact absurd hsame.symm (hother q ((has_insert_of_ne hqn).mp hq))
    · by_cases hqn : q = h.next
      · rw [hqn, insert_objs_self, insert_objs_of_ne hpn] at hsame
        exact absurd hsame (hother p ((has_insert_of_ne hpn).mp hp))
      · rw [insert_objs_of_ne hpn, insert_objs_of_ne hqn] at hsame
        exact hinv.distinct p q ((has_insert_of_ne hpn).mp hp) ((has_insert_of_ne hqn).mp hq) hsame
  · intro p hp
    rcases has_insert.mp hp with hp | rfl
    · exact Nat.lt_succ_of_lt (hinv.fresh p hp)
    · exact Nat.lt_succ_self _

theorem Inv.find_insert_self :
    (h.insert (keygen (ident b)) b).find ident keygen (ident b) = some h.next :=
  (hinv.insert hnew).find_eq_some.mpr ⟨has_insert_self, by rw [insert_objs_self]⟩

theorem Inv.find_insert_of_ne (hi : i ≠ ident b) :
    (h.insert (keygen (ident b)) b).find ident keygen i = h.find ident keygen i := by
  ext p
  rw [(hinv.insert hnew).find_eq_some, hinv.find_eq_some]
  by_cases hp : p = h.next
  · rw [hp, insert_objs_self]
    constructor
    · rintro ⟨-, hb⟩
      exact absurd hb.symm hi
    · rintro ⟨hhas, -⟩
      exact absurd (hinv.fresh _ hhas) (Nat.lt_irrefl _)
  · rw [has_insert_of_ne hp, insert_objs_of_ne hp]

end

end

/- An object leaves its chain, and the chain the hash when it was the last one. -/

def unlink (h : ChainHash β) (k p : Nat) : ChainHash β := (h.unchain k p).dropIfEmpty k

@[simp] theorem unlink_objs : (h.unlink k p).objs = h.objs := by
  unfold unlink dropIfEmpty
  split <;> rfl

@[simp] theorem unlink_next : (h.unlink k p).next = h.next := by
  unfold unlink dropIfEmpty
  split <;> rfl

theorem unlink_chains_of_ne (hne : k' ≠ k) :
    (h.unlink k p).chains k' = h.chains k' := by
  unfold unlink dropIfEmpty
  split
  · exact (if_neg hne).trans (if_neg hne)
  · exact if_neg hne

theorem unlink_chains_self (hl : h.chains k = some l) :
    (h.unlink k p).chains k = if l.erase p = [] then none else some (l.erase p) := by
  have hchain : (h.unchain k p).chains k = some (l.erase p) := by
    unfold unchain
    rw [hl]
    exact if_pos rfl
  unfold unlink dropIfEmpty
  generalize l.erase p = l' at hchain ⊢
  cases l' with
  | nil =>
    rw [hchain]
    exact if_pos rfl
  | cons q rest =>
    rw [hchain]
    exact hchain.trans (if_neg (List.cons_ne_nil q rest)).symm

section Unlink

variable (hinv : Inv ident keygen h) (hp : h.Has ident keygen p)

include hinv hp

omit [DecidableEq ι]

theorem Inv.chain_of_unlink {k : Nat}
    (hl : (h.unlink (keygen (ident (h.objs p))) p).chains k = some l) :
    ∃ l', h.chains k = some l' ∧ l = l'.erase p ∧ l ≠ [] := by
  by_cases hk : k = keygen (ident (h.objs p))
  · obtain ⟨l', hl', -⟩ := hp.exists_chain
    rw [hk, unlink_chains_self hl'] at hl
    split at hl
    · cases hl
    · rename_i hne
      cases hl
      exact ⟨l', hk ▸ hl', rfl, hne⟩
  · rw [unlink_chains_of_ne hk] at hl
    have hout : p ∉ l := fun hmem => hk (hinv.keyed k l hl p hmem).symm
    exact ⟨l, hl, (List.erase_of_not_mem hout).symm, fun hnil => hinv.nonempty k (hnil ▸ hl)⟩

theorem Inv.has_unlink :
    (h.unlink (keygen (ident (h.objs p))) p).Has ident keygen q ↔
      h.Has ident keygen q ∧ q ≠ p := by
  constructor
  · intro hq
    obtain ⟨l, hl, hmem⟩ := hq.exists_chain
    rw [unlink_objs] at hl
    obtain ⟨l', hl', rfl, -⟩ := hinv.chain_of_unlink hp hl
    have hnodup := hinv.nodup _ l' hl'
    exact ⟨hinv.has_of_mem hl' (List.mem_of_mem_erase hmem),
      fun hqp => hnodup.not_mem_erase (hqp ▸ hmem)⟩
  · rintro ⟨hq, hne⟩
    obtain ⟨l, hl, hmem⟩ := hq.exists_chain
    have hmem' : q ∈ l.erase p := (List.mem_erase_of_ne hne).mpr hmem
    unfold Has
    rw [unlink_objs]
    by_cases hk : keygen (ident (h.objs q)) = keygen (ident (h.objs p))
    · rw [hk] at hl ⊢
      rw [unlink_chains_self hl, if_neg (List.ne_nil_of_mem hmem')]
      exact hmem'
    · rw [unlink_chains_of_ne hk, hl]
      exact hmem

theorem Inv.unlink : Inv ident keygen (h.unlink (keygen (ident (h.objs p))) p) where
  keyed := fun k l hl q hq => by
    obtain ⟨l', hl', rfl, -⟩ := hinv.chain_of_unlink hp hl
    rw [unlink_objs]
    exact hinv.keyed k l' hl' q (List.mem_of_mem_erase hq)
  nonempty := fun k hl => by
    obtain ⟨l', -, -, hne⟩ := hinv.chain_of_unlink hp hl
    exact hne rfl
  nodup := fun k l hl => by
    obtain ⟨l', hl', rfl, -⟩ := hinv.chain_of_unlink hp hl
    exact (hinv.nodup k l' hl').erase p
  distinct := fun q r hq hr hsame => by
    rw [unlink_objs] at hsame
    exact hinv.distinct q r ((hinv.has_unlink hp).mp hq).1 ((hinv.has_unlink hp).mp hr).1 hsame
  fresh := fun q hq => by
    rw [unlink_next]
    exact hinv.fresh q ((hinv.has_unlink hp).mp hq).1

end Unlink

theorem Inv.find_unlink (hinv : Inv ident keygen h) (hp : h.Has ident keygen p) :
    (h.unlink (keygen (ident (h.objs p))) p).find ident keygen i =
      if i = ident (h.objs p) then none else h.find ident keygen i := by
  split
  · rename_i hi
    refine (hinv.unlink hp).find_eq_none.mpr fun q hq hname => ?_
    obtain ⟨hq, hne⟩ := (hinv.has_unlink hp).mp hq
    rw [unlink_objs, hi] at hname
    exact hne (hinv.distinct q p hq hp hname)
  · rename_i hi
    ext q
    rw [(hinv.unlink hp).find_eq_some, hinv.find_eq_some, hinv.has_unlink hp, unlink_objs]
    constructor
    · rintro ⟨⟨hq, -⟩, hname⟩
      exact ⟨hq, hname⟩
    · rintro ⟨hq, hname⟩
      refine ⟨⟨hq, fun hqp => hi ?_⟩, hname⟩
      rw [← hname, hqp]

omit [DecidableEq ι] in
theorem Inv.unlink_of_not_has (hinv : Inv ident keygen h) (hp : ¬ h.Has ident keygen p) :
    h.unlink (keygen (ident (h.objs p))) p = h := by
  have hout : p ∉ (h.chains (keygen (ident (h.objs p)))).getD [] := hp
  generalize keygen (ident (h.objs p)) = k at hout
  have hsame : h.unchain k p = h := by
    unfold unchain setChain
    congr 1
    funext k'
    split
    · rename_i hk
      rw [hk]
      cases hl : h.chains k with
      | none => rfl
      | some l =>
        rw [hl, Option.getD_some] at hout
        rw [Option.map_some, List.erase_of_not_mem hout]
    · rfl
  unfold ChainHash.unlink
  rw [hsame, hinv.dropIfEmpty_eq]

end ChainHash

end ChainHash

end ClusterZfs

import ClusterZfs.Pgr.Commands
import ClusterZfs.Pgr.Reload
import Mathlib.Data.List.Perm.Basic

/-! The list of keys and the pointers of the nexuses into it, under each change to them. -/
namespace ClusterZfs

namespace SbdLu

variable {k : PgrKey}

/- The keys in the list and who points at them. A key for one target port is pointed at by its own
nexus only, which is the one pointer that `sbd_pgr_remove_key` takes back. -/
structure Base (s : SbdLu) (l : List KeyPtr) : Prop where
  isList : s.list.IsList l
  alive : ∀ key ∈ l, key ∈ s.alive
  ptrs : ∀ it ∈ s.itList, (s.its it).keyPtr = 0 ∨ (s.its it).keyPtr ∈ l
  owner : ∀ it ∈ s.itList, (s.its it).keyPtr ∈ l →
    (s.keys (s.its it).keyPtr).allTgPt = false → (s.keys (s.its it).keyPtr).keyIt = it
  nexus : ∀ it ∈ s.itList, it ≠ 0
  storable : ∀ key ∈ l, (s.keys key).Storable

variable {s s' s'' : SbdLu} {l l' : List KeyPtr} {key : KeyPtr} {it : ItPtr}

theorem Base.length_le (h : s.Base l) : l.length ≤ s.alive.length :=
  (List.subperm_of_subset h.isList.nodup h.alive).length_le

theorem Base.keyList_eq (h : s.Base l) : s.keyList = l :=
  h.isList.linked.walkFrom_eq h.length_le

theorem Base.ne_zero (h : s.Base l) : ∀ key ∈ l, key ≠ 0 := h.isList.linked.ne_zero

theorem Base.mem_of_ptr (h : s.Base l) (hit : it ∈ s.itList) (hptr : (s.its it).keyPtr ≠ 0) :
    (s.its it).keyPtr ∈ l := (h.ptrs it hit).resolve_left hptr

/- A change that only takes pointers of nexuses and keys away. -/
structure Cut (s s' : SbdLu) : Prop where
  its : ∀ it, ∃ p, s'.its it = { s.its it with keyPtr := p } ∧ (p = (s.its it).keyPtr ∨ p = 0)
  rest : s' = { s with list := s'.list, alive := s'.alive, its := s'.its }

theorem Cut.refl (s : SbdLu) : Cut s s := ⟨fun _ => ⟨_, rfl, .inl rfl⟩, rfl⟩

section

variable (h : Cut s s')
include h

theorem Cut.trans (h' : Cut s' s'') : Cut s s'' := by
  refine ⟨fun it => ?_, by rw [h'.rest, h.rest]⟩
  obtain ⟨p, hp, hcase⟩ := h.its it
  obtain ⟨q, hq, hcase'⟩ := h'.its it
  refine ⟨q, by rw [hq, hp], ?_⟩
  rcases hcase' with rfl | rfl
  · rw [hp]
    exact hcase
  · exact .inr rfl

theorem Cut.keys : s'.keys = s.keys := by rw [h.rest]
theorem Cut.itList : s'.itList = s.itList := by rw [h.rest]

theorem Cut.ptr (it : ItPtr) :
    (s'.its it).keyPtr = (s.its it).keyPtr ∨ (s'.its it).keyPtr = 0 := by
  obtain ⟨p, hp, hcase⟩ := h.its it
  rw [hp]
  exact hcase

end

theorem Base.cut (h : s.Base l) (hcut : Cut s s') (hlist : s'.list.IsList l')
    (hsub : ∀ key ∈ l', key ∈ l) (halive : ∀ key ∈ l', key ∈ s'.alive)
    (hptrs : ∀ it ∈ s.itList, (s'.its it).keyPtr ∈ l → (s'.its it).keyPtr ∈ l') :
    s'.Base l' := by
  have hsame : ∀ it ∈ s.itList, (s'.its it).keyPtr ∈ l' →
      (s'.its it).keyPtr = (s.its it).keyPtr := by
    intro it _ hmem
    rcases hcut.ptr it with hptr | hptr
    · exact hptr
    · exact absurd hptr (hlist.linked.ne_zero _ hmem)
  refine ⟨hlist, halive, fun it hit => ?_, fun it hit hmem hone => ?_, ?_, fun key hkey => ?_⟩
  · rw [hcut.itList] at hit
    rcases hcut.ptr it with hptr | hptr
    · rcases h.ptrs it hit with hnone | hmem
      · exact .inl (hptr.trans hnone)
      · exact .inr (hptrs it hit (hptr ▸ hmem))
    · exact .inl hptr
  · rw [hcut.itList] at hit
    rw [hcut.keys, hsame it hit hmem] at hone ⊢
    rw [hsame it hit hmem] at hmem
    exact h.owner it hit (hsub _ hmem) hone
  · rw [hcut.itList]
    exact h.nexus
  · rw [hcut.keys]
    exact h.storable key (hsub key hkey)

theorem forIts_its (s : SbdLu) (f : ItPtr → ItData → ItData) (hit : it ∈ s.itList) :
    (s.forIts f).its it = f it (s.its it) := if_pos hit

theorem forIts_of_not_mem (s : SbdLu) (f : ItPtr → ItData → ItData) (hit : it ∉ s.itList) :
    (s.forIts f).its it = s.its it := if_neg hit

theorem cut_forIts (s : SbdLu) (drop : ItPtr → ItData → Prop) [∀ i d, Decidable (drop i d)] :
    Cut s (s.forIts fun i d => if drop i d then { d with keyPtr := 0 } else d) := by
  refine ⟨fun it => ?_, rfl⟩
  by_cases hit : it ∈ s.itList
  · rw [forIts_its s _ hit]
    by_cases hdrop : drop it (s.its it)
    · exact ⟨0, by rw [if_pos hdrop], .inr rfl⟩
    · exact ⟨_, by rw [if_neg hdrop], .inl rfl⟩
  · exact ⟨_, forIts_of_not_mem s _ hit, .inl rfl⟩

theorem cut_removeKey (s : SbdLu) (key : KeyPtr) : Cut s (s.removeKey key) := by
  by_cases hall : (s.keys key).allTgPt = true
  · have h := cut_forIts s fun _ it => it.keyPtr = key
    simp only [removeKey, if_pos hall]
    exact ⟨h.its, rfl⟩
  · by_cases hown : (s.keys key).keyIt = 0
    · simp only [removeKey, if_neg hall, hown, ne_eq, not_true_eq_false, if_false]
      exact ⟨fun it => ⟨_, rfl, .inl rfl⟩, rfl⟩
    · simp only [removeKey, if_neg hall, ne_eq, hown, not_false_eq_true, if_true]
      refine ⟨fun it => ?_, rfl⟩
      by_cases hit : it = (s.keys key).keyIt
      · exact ⟨0, by rw [hit]; exact Function.update_self .., .inr rfl⟩
      · exact ⟨_, Function.update_of_ne hit .., .inl rfl⟩

theorem removeKey_ptr (s : SbdLu) (key : KeyPtr) (hit : it ∈ s.itList) :
    ((s.removeKey key).its it).keyPtr =
      if ((s.keys key).allTgPt = true ∧ (s.its it).keyPtr = key) ∨
        ((s.keys key).allTgPt = false ∧ (s.keys key).keyIt ≠ 0 ∧ (s.keys key).keyIt = it) then 0
      else (s.its it).keyPtr := by
  by_cases hall : (s.keys key).allTgPt = true
  · have hits : (s.removeKey key).its it =
        if (s.its it).keyPtr = key then { s.its it with keyPtr := 0 } else s.its it := by
      simp only [removeKey, if_pos hall]
      exact forIts_its s (fun _ d => if d.keyPtr = key then { d with keyPtr := 0 } else d) hit
    rw [hits]
    by_cases hptr : (s.its it).keyPtr = key
    · rw [if_pos hptr, if_pos (.inl ⟨hall, hptr⟩)]
    · rw [if_neg hptr, if_neg]
      simp [hptr, hall]
  · have hone : (s.keys key).allTgPt = false := Bool.eq_false_iff.mpr hall
    by_cases hown : (s.keys key).keyIt = 0
    · simp [removeKey, hone, hown, free]
    · by_cases heq : (s.keys key).keyIt = it
      · have hits : (s.removeKey key).its it = { s.its it with keyPtr := 0 } := by
          simp only [removeKey, if_neg hall, ne_eq, hown, not_false_eq_true, if_true]
          rw [← heq]
          exact Function.update_self ..
        rw [hits, if_pos (.inr ⟨hone, hown, heq⟩)]
      · have hits : (s.removeKey key).its it = s.its it := by
          simp only [removeKey, if_neg hall, ne_eq, hown, not_false_eq_true, if_true]
          exact Function.update_of_ne (fun h => heq h.symm) ..
        rw [hits, if_neg]
        simp [hone, heq]

theorem mem_without_sub (xs ys : List KeyPtr) (key : KeyPtr) :
    ∀ k ∈ xs ++ ys, k ∈ xs ++ key :: ys :=
  (List.Sublist.append_left (List.sublist_cons_self key ys) xs).subset

theorem Base.removeKey {xs ys : List KeyPtr} (h : s.Base (xs ++ key :: ys)) :
    (s.removeKey key).Base (xs ++ ys) := by
  have hnd := List.nodup_cons.mp (List.nodup_middle.mp h.isList.nodup)
  have hsub := mem_without_sub xs ys key
  refine h.cut (cut_removeKey s key) h.isList.unlink hsub (fun k hk => ?_) fun it hit hmem => ?_
  · have hne : k ≠ key := ne_of_mem_of_not_mem hk hnd.1
    have halive := h.alive k (hsub k hk)
    simp only [SbdLu.removeKey, free]
    split
    · simpa [forIts, hne] using halive
    · split
      · simpa [setKeyPtr, hne] using halive
      · simpa [hne] using halive
  · -- A pointer at the key itself has been taken back, so what is left points elsewhere.
    have hptr := removeKey_ptr s key hit
    have hne : ((s.removeKey key).its it).keyPtr ≠ key := by
      intro heq
      by_cases hcut : ((s.keys key).allTgPt = true ∧ (s.its it).keyPtr = key) ∨
          ((s.keys key).allTgPt = false ∧ (s.keys key).keyIt ≠ 0 ∧ (s.keys key).keyIt = it)
      · rw [if_pos hcut, heq] at hptr
        exact h.ne_zero key (by simp) hptr
      · rw [if_neg hcut, heq] at hptr
        rw [not_or] at hcut
        have hone : (s.keys key).allTgPt = false :=
          Bool.eq_false_iff.mpr fun hall => hcut.1 ⟨hall, hptr.symm⟩
        have hkey : (s.its it).keyPtr ∈ xs ++ key :: ys := by rw [← hptr]; simp
        have hown := h.owner it hit hkey (hptr ▸ hone)
        rw [← hptr] at hown
        exact hcut.2 ⟨hone, hown ▸ h.nexus it hit, hown⟩
    simpa [hne] using hmem

theorem Base.dropOthers (h : s.Base l) (key : KeyPtr) (myIt : ItPtr) :
    (s.dropOthers key myIt).Base l :=
  h.cut (cut_forIts s fun i it => it.keyPtr = key ∧ i ≠ myIt) h.isList (fun _ hk => hk) h.alive
    fun _ _ hmem => hmem

theorem dropOthers_ptr (s : SbdLu) (key : KeyPtr) (myIt : ItPtr) (hit : it ∈ s.itList)
    (hmine : (s.its it).keyPtr = key → it = myIt) :
    ((s.dropOthers key myIt).its it).keyPtr = (s.its it).keyPtr := by
  rw [SbdLu.dropOthers, forIts_its s _ hit, if_neg]
  exact fun hdrop => hdrop.2 (hmine hdrop.1)

section RemoveKeys

variable {keys : KeyPtr → PgrKey} {myIt : ItPtr} {myKey : KeyPtr} {svcKey : UInt64} {mtch : Bool}
  {fuel : Nat}

/- The keys that `sbd_pgr_remove_keys` counts, and those it leaves in the list. -/
def Matched (keys : KeyPtr → PgrKey) (svcKey : UInt64) (mtch : Bool) (key : KeyPtr) : Prop :=
  ((keys key).pgrKey = svcKey) = (mtch = true)

instance : DecidablePred (Matched keys svcKey mtch) := fun key =>
  inferInstanceAs (Decidable (((keys key).pgrKey = svcKey) = (mtch = true)))

/- A nexus that none of the removed keys takes its pointer from. -/
def Untouched (keys : KeyPtr → PgrKey) (myIt : ItPtr) (myKey : KeyPtr) (svcKey : UInt64)
    (mtch : Bool) (it : ItPtr) (ptr : KeyPtr) (l : List KeyPtr) : Prop :=
  ∀ key ∈ l, Matched keys svcKey mtch key →
    if key = myKey then ptr = key → it = myIt
    else ptr ≠ key ∧ ((keys key).allTgPt = false → (keys key).keyIt ≠ it)

/- What the loop does from some key on: `done` is behind it, `rem` ahead. -/
structure KeysRemoved (s : SbdLu) (out : Nat × SbdLu) (myIt : ItPtr) (myKey : KeyPtr)
    (svcKey : UInt64) (mtch : Bool) (done rem : List KeyPtr) : Prop where
  count : out.1 = (rem.filter (Matched s.keys svcKey mtch)).length
  cut : Cut s out.2
  base : out.2.Base
    (done ++ rem.filter fun key => ¬ Matched s.keys svcKey mtch key ∨ key = myKey)
  ptr : ∀ it ∈ s.itList, Untouched s.keys myIt myKey svcKey mtch it (s.its it).keyPtr rem →
    (out.2.its it).keyPtr = (s.its it).keyPtr

theorem removeKeysLoop_of_matched (hkey : key ≠ 0)
    (hmatch : Matched s.keys svcKey mtch key) :
    removeKeysLoop myIt myKey svcKey mtch (fuel + 1) key s =
      ((removeKeysLoop myIt myKey svcKey mtch fuel (s.list.next key)
        (if key = myKey then s.dropOthers key myIt else s.removeKey key)).1 + 1,
      (removeKeysLoop myIt myKey svcKey mtch fuel (s.list.next key)
        (if key = myKey then s.dropOthers key myIt else s.removeKey key)).2) := by
  rw [removeKeysLoop, if_neg hkey]
  exact if_pos hmatch

theorem removeKeysLoop_of_not_matched (hkey : key ≠ 0)
    (hmatch : ¬ Matched s.keys svcKey mtch key) :
    removeKeysLoop myIt myKey svcKey mtch (fuel + 1) key s =
      removeKeysLoop myIt myKey svcKey mtch fuel (s.list.next key) s := by
  rw [removeKeysLoop, if_neg hkey]
  exact if_neg hmatch

theorem KeysRemoved.matched {s₁ : SbdLu} {out : Nat × SbdLu} {done done' rem : List KeyPtr}
    (hmatch : Matched s.keys svcKey mtch key) (hcut : Cut s s₁)
    (hdone : done' = if key = myKey then done ++ [key] else done)
    (hptr : ∀ it ∈ s.itList, Untouched s.keys myIt myKey svcKey mtch it (s.its it).keyPtr [key] →
      (s₁.its it).keyPtr = (s.its it).keyPtr)
    (hout : KeysRemoved s₁ out myIt myKey svcKey mtch done' rem) :
    KeysRemoved s (out.1 + 1, out.2) myIt myKey svcKey mtch done (key :: rem) := by
  have hkeys := hcut.keys
  refine ⟨?_, hcut.trans hout.cut, ?_, fun it hit hun => ?_⟩
  · rw [hout.count, hkeys, List.filter_cons_of_pos (by simpa using hmatch), List.length_cons]
  · have hbase := hout.base
    rw [hkeys, hdone] at hbase
    by_cases hmine : key = myKey
    · rw [List.filter_cons_of_pos (by simpa using .inr hmine)]
      rw [if_pos hmine] at hbase
      simpa using hbase
    · rw [List.filter_cons_of_neg (by simpa using ⟨hmatch, hmine⟩)]
      rwa [if_neg hmine] at hbase
  · have hsame : (s₁.its it).keyPtr = (s.its it).keyPtr :=
      hptr it hit fun k hk => hun k (by rw [List.mem_singleton.mp hk]; exact List.mem_cons_self)
    rw [← hsame]
    refine hout.ptr it (hcut.itList ▸ hit) ?_
    rw [hkeys, hsame]
    exact fun k hk => hun k (List.mem_cons_of_mem _ hk)

theorem removeKeysLoop_removed {rem done : List KeyPtr} (h : s.Base (done ++ rem))
    (hfuel : rem.length ≤ fuel) :
    KeysRemoved s (removeKeysLoop myIt myKey svcKey mtch fuel (rem.headD 0) s) myIt myKey svcKey
      mtch done rem := by
  induction rem generalizing s done fuel with
  | nil =>
    have hout : removeKeysLoop myIt myKey svcKey mtch fuel 0 s = (0, s) := by
      cases fuel <;> simp [removeKeysLoop]
    rw [List.headD_nil, hout]
    exact ⟨rfl, .refl s, h, fun _ _ _ => rfl⟩
  | cons key rem ih =>
    cases fuel with
    | zero => simp at hfuel
    | succ fuel =>
      have hrem : rem.length ≤ fuel := Nat.le_of_succ_le_succ hfuel
      have hkey0 : key ≠ 0 := h.ne_zero key (by simp)
      -- The next pointer is read before the key may go.
      have hnext : s.list.next key = rem.headD 0 := by
        obtain ⟨m, -, hrest⟩ := Dll.linked_append.mp h.isList.linked
        have hlinked := hrest.2.2.2
        cases rem with
        | nil => exact hlinked
        | cons k rem => exact hlinked.1
      have hstay : s.Base ((done ++ [key]) ++ rem) := by simpa using h
      by_cases hmatch : Matched s.keys svcKey mtch key
      · rw [List.headD_cons, removeKeysLoop_of_matched hkey0 hmatch, hnext]
        by_cases hmine : key = myKey
        · rw [if_pos hmine]
          refine KeysRemoved.matched hmatch ?_ (if_pos hmine).symm (fun it hit hun => ?_)
            (ih (hstay.dropOthers key myIt) hrem)
          · exact cut_forIts s fun i it => it.keyPtr = key ∧ i ≠ myIt
          · have hkeep := hun key List.mem_cons_self hmatch
            rw [if_pos hmine] at hkeep
            exact dropOthers_ptr s key myIt hit hkeep
        · rw [if_neg hmine]
          refine KeysRemoved.matched hmatch (cut_removeKey s key) (if_neg hmine).symm
            (fun it hit hun => ?_) (ih h.removeKey hrem)
          have hkeep := hun key List.mem_cons_self hmatch
          rw [if_neg hmine] at hkeep
          rw [removeKey_ptr s key hit, if_neg]
          rintro (⟨-, hptr⟩ | ⟨hone, -, hown⟩)
          · exact hkeep.1 hptr
          · exact hkeep.2 hone hown
      · rw [List.headD_cons, removeKeysLoop_of_not_matched hkey0 hmatch, hnext]
        have hout := ih hstay hrem
        refine ⟨?_, hout.cut, ?_, fun it hit hun => ?_⟩
        · rw [hout.count, List.filter_cons_of_neg (by simpa using hmatch)]
        · have hbase := hout.base
          rw [List.filter_cons_of_pos (by simpa using .inl hmatch)]
          simpa using hbase
        · exact hout.ptr it hit fun k hk => hun k (List.mem_cons_of_mem _ hk)

theorem removeKeys_removed (h : s.Base l) (myIt : ItPtr) (myKey : KeyPtr) (svcKey : UInt64)
    (mtch : Bool) :
    KeysRemoved s (s.removeKeys myIt myKey svcKey mtch) myIt myKey svcKey mtch [] l := by
  have hhead : s.list.head = l.headD 0 := by
    cases l with
    | nil => exact h.isList.linked
    | cons key l => exact h.isList.linked.1
  rw [removeKeys, hhead]
  exact removeKeysLoop_removed h h.length_le

theorem removeKeysLoop_zero {cur : KeyPtr}
    (hzero : (removeKeysLoop myIt myKey svcKey mtch fuel cur s).1 = 0) :
    (removeKeysLoop myIt myKey svcKey mtch fuel cur s).2 = s := by
  induction fuel generalizing cur with
  | zero => rfl
  | succ fuel ih =>
    by_cases hcur : cur = 0
    · rw [removeKeysLoop, if_pos hcur]
    · by_cases hmatch : Matched s.keys svcKey mtch cur
      · rw [removeKeysLoop_of_matched hcur hmatch] at hzero
        cases hzero
      · rw [removeKeysLoop_of_not_matched hcur hmatch] at hzero ⊢
        exact ih hzero

end RemoveKeys

/- A change that leaves the list of keys and what a nexus needs of its key as they are. -/
structure Kept (s s' : SbdLu) : Prop where
  list : s'.list = s.list
  alive : s'.alive = s.alive
  itList : s'.itList = s.itList
  ptr : ∀ it, (s'.its it).keyPtr = (s.its it).keyPtr
  key : ∀ key, (s'.keys key).allTgPt = (s.keys key).allTgPt ∧
    ((s.keys key).allTgPt = false → (s'.keys key).keyIt = (s.keys key).keyIt) ∧
    ((s.keys key).Storable → (s'.keys key).Storable)

theorem Base.kept (h : s.Base l) (hk : Kept s s') : s'.Base l := by
  refine ⟨hk.list ▸ h.isList, fun key hkey => hk.alive ▸ h.alive key hkey, fun it hit => ?_,
    fun it hit hmem hone => ?_, fun it hit => ?_, fun key hkey => ?_⟩
  · rw [hk.itList] at hit
    rw [hk.ptr]
    exact h.ptrs it hit
  · rw [hk.itList] at hit
    rw [hk.ptr] at hmem hone ⊢
    obtain ⟨hall, hown, -⟩ := hk.key (s.its it).keyPtr
    rw [hall] at hone
    rw [hown hone]
    exact h.owner it hit hmem hone
  · exact h.nexus it (hk.itList ▸ hit)
  · exact (hk.key key).2.2 (h.storable key hkey)

theorem setPgrCheckFlag_its (s : SbdLu) (registered : Bool) (it : ItPtr) :
    (s.setPgrCheckFlag registered).its it = { s.its it with
      pgrCheck := (s.its it).pgrCheck ||
        decide (it ∈ s.itList ∧ ((s.its it).keyPtr ≠ 0) = (registered = true)) } := by
  simp only [setPgrCheckFlag, forIts]
  by_cases hit : it ∈ s.itList
  · by_cases hreg : ((s.its it).keyPtr ≠ 0) = (registered = true)
    · rw [if_pos hit, if_pos hreg, decide_eq_true ⟨hit, hreg⟩, Bool.or_true]
    · rw [if_pos hit, if_neg hreg, decide_eq_false fun h => hreg h.2, Bool.or_false]
  · rw [if_neg hit, decide_eq_false fun h => hit h.1, Bool.or_false]

theorem kept_setPgrCheckFlag (s : SbdLu) (registered : Bool) :
    Kept s (s.setPgrCheckFlag registered) :=
  ⟨rfl, rfl, rfl, fun it => by rw [setPgrCheckFlag_its], fun _ => ⟨rfl, fun _ => rfl, id⟩⟩

theorem Kept.refl (s : SbdLu) : Kept s s :=
  ⟨rfl, rfl, rfl, fun _ => rfl, fun _ => ⟨rfl, fun _ => rfl, id⟩⟩

theorem setKey_self (s : SbdLu) (key : KeyPtr) (k : PgrKey) : (s.setKey key k).keys key = k :=
  Function.update_self ..

theorem setKey_of_ne (s : SbdLu) {key' : KeyPtr} (k : PgrKey) (h : key' ≠ key) :
    (s.setKey key k).keys key' = s.keys key' := Function.update_of_ne h ..

theorem kept_setKey (s : SbdLu) (key : KeyPtr)
    (hall : k.allTgPt = (s.keys key).allTgPt)
    (hown : (s.keys key).allTgPt = false → k.keyIt = (s.keys key).keyIt)
    (hstore : (s.keys key).Storable → k.Storable) : Kept s (s.setKey key k) := by
  refine ⟨rfl, rfl, rfl, fun _ => rfl, fun key' => ?_⟩
  by_cases hkey : key' = key
  · subst hkey
    rw [setKey_self]
    exact ⟨hall, hown, hstore⟩
  · rw [setKey_of_ne s k hkey]
    exact ⟨rfl, fun _ => rfl, id⟩

/- The key of a new registration. -/
def registeredKey (it : ItPtr) (lpt : Option Devid) (rpt : Tptid) (allTgPt : Bool)
    (svcKey : UInt64) : PgrKey where
  pgrKey := svcKey
  lptId := lpt.elim [] Devid.bytes
  rptId := if 2 ≤ rpt.bytes.length then rpt.bytes else []
  allTgPt := allTgPt
  tptIdFlag := true
  keyIt := if allTgPt then 0 else it

theorem registeredKey_rptId {rpt : Tptid} (hrpt : rpt.Readable) (it : ItPtr) (lpt : Option Devid)
    (allTgPt : Bool) (svcKey : UInt64) :
    (registeredKey it lpt rpt allTgPt svcKey).rptId = rpt.bytes :=
  if_pos (two_le_of_tptidValidate hrpt)

theorem storable_registeredKey {rpt : Tptid} (hrpt : rpt.Readable) (it : ItPtr)
    (lpt : Option Devid) (allTgPt : Bool) (svcKey : UInt64) (hports : lpt = none → allTgPt = true) :
    (registeredKey it lpt rpt allTgPt svcKey).Storable := by
  have hshort := rpt.short
  have hid := registeredKey_rptId hrpt it lpt allTgPt svcKey
  refine ⟨by rw [hid]; exact hrpt, rfl, by rw [hid]; omega, ?_, ?_⟩
  · cases lpt with
    | none => simp [registeredKey]
    | some lpt =>
      have hlen := lpt.bytes_length
      have hid := lpt.short
      simp only [registeredKey, Option.elim_some]
      omega
  · cases lpt with
    | none => exact fun _ => hports rfl
    | some lpt =>
      intro hnone
      have hlen := lpt.bytes_length
      simp only [registeredKey, Option.elim_some] at hnone
      omega

/- A new key in front of the list. Nexuses that have none are to look for theirs again when the
key may be for them. -/
structure Registered (s s' : SbdLu) (key : KeyPtr) (k : PgrKey) (it : ItPtr) : Prop where
  fresh : key ∉ s.alive
  nonNull : key ≠ 0
  keys : s'.keys = Function.update s.keys key k
  list : s'.list = s.list.push key
  alive : s'.alive = key :: s.alive
  its : ∀ i, s'.its i = { s.its i with
    keyPtr := if it ≠ 0 ∧ i = it then key else (s.its i).keyPtr
    pgrCheck := (s'.its i).pgrCheck }
  checked : ∀ i, (s.its i).pgrCheck = true ∨ (i ∈ s.itList ∧ (s.its i).keyPtr = 0 ∧
    (k.allTgPt = true ∨ it = 0)) → (s'.its i).pgrCheck = true
  hasIt : s'.allKeysHasIt = true → s.allKeysHasIt = true ∧ k.allTgPt = false ∧ it ≠ 0
  rest : s' = { s with
    keys := s'.keys, list := s'.list, alive := s'.alive, its := s'.its,
    allKeysHasIt := s'.allKeysHasIt }

theorem pgrKeyAlloc_registered (lpt : Option Devid) (rpt : Tptid) :
    pgrKeyAlloc (lpt.elim [] Devid.bytes) rpt.bytes =
      ⟨0, lpt.elim [] Devid.bytes, if 2 ≤ rpt.bytes.length then rpt.bytes else [], false,
        2 ≤ rpt.bytes.length, 0⟩ := by
  cases lpt with
  | none => simp [pgrKeyAlloc]
  | some lpt =>
    have hlen := lpt.bytes_length
    have hlpt : 5 ≤ lpt.bytes.length := by omega
    simp [pgrKeyAlloc, hlpt]

theorem doRegister_registered (s : SbdLu) (kmem : Kmem) (it : ItPtr) (lpt : Option Devid)
    (rpt : Tptid) (allTgPt : Bool) (svcKey : UInt64) :
    Registered s (s.doRegister kmem it lpt rpt allTgPt svcKey).2
      (s.doRegister kmem it lpt rpt allTgPt svcKey).1
      (registeredKey it lpt rpt allTgPt svcKey) it := by
  have hfresh := kmem.fresh s.alive
  have hnull := kmem.nonNull s.alive
  generalize hkey : kmem.alloc s.alive = key at hfresh hnull
  simp only [doRegister, pgrKeyAlloc_registered, hkey]
  by_cases hit : it = 0
  · simp only [ne_eq, hit, not_true_eq_false, if_false]
    cases allTgPt with
    | false | true =>
      refine ⟨hfresh, hnull, rfl, rfl, rfl, fun i => ?_, fun i hi => ?_, fun h => ?_, rfl⟩
      · simp [setPgrCheckFlag_its, setKey]
      · rcases hi with hi | ⟨hi, hnone, -⟩
        · simp [setPgrCheckFlag_its, setKey, hi]
        · simp [setPgrCheckFlag_its, setKey, hi, hnone]
      · cases h
  · simp only [ne_eq, hit, not_false_eq_true, if_true]
    cases allTgPt with
    | false =>
      refine ⟨hfresh, hnull, rfl, rfl, rfl, fun i => ?_, fun i hi => ?_, fun h => ?_, rfl⟩
      · obtain rfl | heq := eq_or_ne i it
        · simp [setKeyPtr, hit, setKey]
        · simp [setKeyPtr, hit, heq, setKey]
      · rcases hi with hi | ⟨-, -, hall⟩
        · obtain rfl | heq := eq_or_ne i it
          · simpa [setKeyPtr, setKey] using hi
          · simpa [setKeyPtr, heq, setKey] using hi
        · simp [registeredKey, hit] at hall
      · exact ⟨h, rfl, hit⟩
    | true =>
      refine ⟨hfresh, hnull, rfl, rfl, rfl, fun i => ?_, fun i hi => ?_, fun h => ?_, rfl⟩
      · obtain rfl | heq := eq_or_ne i it
        · simp [setKeyPtr, hit, setKey, setPgrCheckFlag_its]
        · simp [setKeyPtr, hit, heq, setKey, setPgrCheckFlag_its]
      · have hflag := hi.imp_right fun hi => And.intro hi.1 hi.2.1
        obtain rfl | heq := eq_or_ne i it
        · simpa [setKeyPtr, setKey, setPgrCheckFlag_its] using hflag
        · simpa [setKeyPtr, heq, setKey, setPgrCheckFlag_its] using hflag
      · cases h

section

variable (h : Registered s s' key k it)
include h

theorem Registered.itList : s'.itList = s.itList := by rw [h.rest]

theorem Registered.ptr (i : ItPtr) :
    (s'.its i).keyPtr = if it ≠ 0 ∧ i = it then key else (s.its i).keyPtr := by rw [h.its]

theorem Registered.not_mem (hb : s.Base l) : key ∉ l := fun hmem => h.fresh (hb.alive key hmem)

theorem Registered.key_new : s'.keys key = k := by rw [h.keys, Function.update_self]

theorem Registered.key_old (hb : s.Base l) : ∀ k' ∈ l, s'.keys k' = s.keys k' := by
  intro k' hk'
  rw [h.keys]
  exact Function.update_of_ne (ne_of_mem_of_not_mem hk' (h.not_mem hb)) ..

end

section

variable (h : s.Base l)
include h

theorem Base.registered (hr : Registered s s' key k it)
    (hstore : k.Storable) (hown : k.allTgPt = false → k.keyIt = it) : s'.Base (key :: l) := by
  have hold := hr.key_old h
  have hnew := hr.key_new
  refine ⟨?_, fun key' hkey' => ?_, fun i hi => ?_, fun i hi hmem hone => ?_, fun i hi => ?_,
    fun key' hkey' => ?_⟩
  · rw [hr.list]
    exact h.isList.push hr.nonNull (hr.not_mem h)
  · rw [hr.alive]
    rcases List.mem_cons.mp hkey' with rfl | hkey'
    · exact List.mem_cons_self
    · exact List.mem_cons_of_mem _ (h.alive key' hkey')
  · rw [hr.itList] at hi
    rw [hr.ptr]
    split
    · exact .inr List.mem_cons_self
    · rcases h.ptrs i hi with hnone | hmem
      · exact .inl hnone
      · exact .inr (List.mem_cons_of_mem _ hmem)
  · rw [hr.itList] at hi
    rw [hr.ptr] at hmem hone ⊢
    split at hone
    · rename_i hmine
      rw [if_pos hmine, hnew]
      rw [hnew] at hone
      rw [hown hone, hmine.2]
    · rename_i hother
      rw [if_neg hother] at hmem ⊢
      have hne := List.forall_mem_cons (p := (· ≠ 0)).mpr ⟨hr.nonNull, h.ne_zero⟩ _ hmem
      have hmem' := h.mem_of_ptr hi hne
      rw [hold _ hmem'] at hone ⊢
      exact h.owner i hi hmem' hone
  · exact h.nexus i (hr.itList ▸ hi)
  · rcases List.mem_cons.mp hkey' with rfl | hkey'
    · rw [hnew]
      exact hstore
    · rw [hold key' hkey']
      exact h.storable key' hkey'

theorem Base.doRegister {rpt : Tptid} (hrpt : rpt.Readable) (kmem : Kmem) (it : ItPtr)
    (lpt : Option Devid) (allTgPt : Bool) (svcKey : UInt64) (hports : lpt = none → allTgPt = true) :
    (s.doRegister kmem it lpt rpt allTgPt svcKey).2.Base
      ((s.doRegister kmem it lpt rpt allTgPt svcKey).1 :: l) := by
  refine h.registered (doRegister_registered ..) (storable_registeredKey hrpt it lpt allTgPt svcKey
    hports) fun hone => ?_
  simp only [registeredKey] at hone ⊢
  rw [hone]
  rfl

/-- The keys registered for SPEC_I_PT come in front of the others, last one first. -/
theorem Base.registerTpds (kmem : Kmem) (lpt : Option Devid) (allTgPt : Bool)
    (svcKey : UInt64) (hports : lpt = none → allTgPt = true) {tpds : List Tptid}
    (htpds : ∀ tpd ∈ tpds, tpd.Readable) :
    ∃ new, (s.registerTpds kmem lpt allTgPt svcKey tpds).Base (new ++ l) := by
  induction tpds generalizing s l with
  | nil => exact ⟨[], h⟩
  | cons tpd rest ih =>
    obtain ⟨htpd, hrest⟩ := List.forall_mem_cons.mp htpds
    obtain ⟨new, hnew⟩ := ih (h.doRegister htpd kmem 0 lpt allTgPt svcKey hports) hrest
    refine ⟨new ++ [(s.doRegister kmem 0 lpt tpd allTgPt svcKey).1], ?_⟩
    rw [List.append_assoc, List.singleton_append]
    exact hnew

theorem Base.keylistDealloc : s.keylistDealloc.Base [] := by
  refine ⟨Dll.isList_nil _ _, by simp, fun it hit => .inl ?_, by simp, h.nexus, by simp⟩
  have hits : s.keylistDealloc.its it = { s.its it with keyPtr := 0 } := if_pos hit
  rw [hits]

end

end SbdLu

end ClusterZfs

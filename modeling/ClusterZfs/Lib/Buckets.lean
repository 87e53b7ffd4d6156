import Mathlib.Algebra.BigOperators.Group.Multiset.Basic
import Mathlib.Algebra.Order.Group.Multiset

/-! Buckets with a key each, in the order of their keys. The bucket of a key holds the items later
than the key and not later than the next one, so the buckets partition the items by their times
and a range that starts and ends at keys is a whole number of buckets. -/
namespace ClusterZfs

section Buckets

variable {α : Type} {time : α → Nat}

/-- The items of all buckets. -/
def bucketItems (bs : List (Nat × Multiset α)) : Multiset α := (bs.map Prod.snd).sum

@[simp] theorem bucketItems_nil : bucketItems ([] : List (Nat × Multiset α)) = 0 := rfl

@[simp] theorem bucketItems_cons (b : Nat × Multiset α) (bs : List (Nat × Multiset α)) :
    bucketItems (b :: bs) = b.2 + bucketItems bs := by
  simp [bucketItems]

@[simp] theorem bucketItems_append (as bs : List (Nat × Multiset α)) :
    bucketItems (as ++ bs) = bucketItems as + bucketItems bs := by
  simp [bucketItems]

theorem mem_bucketItems {x : α} {bs : List (Nat × Multiset α)} :
    x ∈ bucketItems bs ↔ ∃ b ∈ bs, x ∈ b.2 := by
  induction bs with
  | nil => simp
  | cons b bs ih => simp [ih]

/-- The order between a bucket and a later one. -/
def Precedes (time : α → Nat) (a b : Nat × Multiset α) : Prop :=
  a.1 < b.1 ∧ ∀ x ∈ a.2, time x ≤ b.1

structure BucketPartition (time : α → Nat) (bs : List (Nat × Multiset α)) : Prop where
  ordered : bs.Pairwise (Precedes time)
  above : ∀ b ∈ bs, ∀ x ∈ b.2, b.1 < time x

theorem BucketPartition.nil : BucketPartition time [] := ⟨.nil, by simp⟩

variable {as bs : List (Nat × Multiset α)} {k k' : Nat} {m m' : Multiset α}

theorem BucketPartition.left (h : BucketPartition time (as ++ bs)) : BucketPartition time as :=
  ⟨(List.pairwise_append.mp h.ordered).1,
    fun b hb => h.above b (List.mem_append_left _ hb)⟩

section

variable (h : BucketPartition time (as ++ (k, m) :: bs))
include h

theorem BucketPartition.put (hitems : ∀ x ∈ m', k < time x ∧ ∀ b ∈ bs, time x ≤ b.1) :
    BucketPartition time (as ++ (k, m + m') :: bs) := by
  obtain ⟨hleft, hright, hcross⟩ := List.pairwise_append.mp h.ordered
  obtain ⟨hhead, htail⟩ := List.pairwise_cons.mp hright
  refine ⟨List.pairwise_append.mpr ⟨hleft, List.pairwise_cons.mpr ⟨?_, htail⟩, ?_⟩, ?_⟩
  · exact fun b hb => ⟨(hhead b hb).1, fun x hx =>
      (Multiset.mem_add.mp hx).elim ((hhead b hb).2 x) fun hx => (hitems x hx).2 b hb⟩
  · intro a ha
    obtain ⟨hkey, hlater⟩ := List.forall_mem_cons.mp (hcross a ha)
    exact List.forall_mem_cons.mpr ⟨hkey, hlater⟩
  · have habove := h.above
    simp only [List.forall_mem_append, List.forall_mem_cons] at habove ⊢
    exact ⟨habove.1, fun x hx => (Multiset.mem_add.mp hx).elim (habove.2.1 x)
      fun hx => (hitems x hx).1, habove.2.2⟩

theorem BucketPartition.erase : BucketPartition time (as ++ bs) := by
  have hsub : (as ++ bs).Sublist (as ++ (k, m) :: bs) :=
    (List.Sublist.refl as).append (List.sublist_cons_self _ _)
  exact ⟨h.ordered.sublist hsub, fun b hb => h.above b (hsub.subset hb)⟩

end

theorem BucketPartition.join (h : BucketPartition time (as ++ (k, m) :: (k', m') :: bs)) :
    BucketPartition time (as ++ (k, m + m') :: bs) := by
  have hright := (List.pairwise_append.mp h.ordered).2.1
  obtain ⟨hhead, htail⟩ := List.pairwise_cons.mp hright
  obtain ⟨hnext, -⟩ := List.pairwise_cons.mp htail
  have hshort : BucketPartition time (as ++ (k, m) :: bs) := by
    have hsplit : as ++ (k, m) :: (k', m') :: bs = (as ++ [(k, m)]) ++ (k', m') :: bs := by simp
    rw [hsplit] at h
    simpa using h.erase
  refine hshort.put fun x hx => ⟨?_, fun b hb => (hnext b hb).2 x hx⟩
  exact lt_trans (hhead (k', m') List.mem_cons_self).1 (h.above (k', m') (by simp) x hx)

theorem BucketPartition.snoc (h : BucketPartition time as)
    (hlast : ∀ a ∈ as, Precedes time a (k, 0)) : BucketPartition time (as ++ [(k, 0)]) := by
  exact ⟨List.pairwise_append.mpr ⟨h.ordered, List.pairwise_singleton _ _,
      fun a ha => List.forall_mem_singleton.mpr (hlast a ha)⟩,
    List.forall_mem_append.mpr ⟨h.above, List.forall_mem_singleton.mpr
      fun x hx => absurd hx (Multiset.notMem_zero x)⟩⟩

section

variable (h : BucketPartition time bs)
include h

theorem BucketPartition.precedes {a b : Nat × Multiset α}
    (ha : a ∈ bs) (hb : b ∈ bs) (hkey : a.1 < b.1) : Precedes time a b := by
  let R (a b : Nat × Multiset α) : Prop :=
    (a.1 < b.1 → Precedes time a b) ∧ (b.1 < a.1 → Precedes time b a)
  have hpairs : bs.Pairwise R := by
    refine h.ordered.imp fun {a b} hab => ⟨fun _ => hab, fun hba => ?_⟩
    have := hab.1
    omega
  have hsymm : Std.Symm R := ⟨fun a b hab => ⟨hab.2, hab.1⟩⟩
  have hself : ∀ a ∈ bs, R a a := fun a _ => ⟨fun h => by omega, fun h => by omega⟩
  exact (hpairs.forall_of_forall hself ha hb).1 hkey

/-- A key never cuts through a bucket. -/
theorem BucketPartition.key_lt_iff {a b : Nat × Multiset α}
    (ha : a ∈ bs) (hb : b ∈ bs) {x : α} (hx : x ∈ b.2) : a.1 < time x ↔ a.1 ≤ b.1 := by
  refine ⟨fun hlt => ?_, fun hle => lt_of_le_of_lt hle (h.above b hb x hx)⟩
  by_contra hle
  have := (h.precedes hb ha (by omega)).2 x hx
  omega

/-- Between two keys lie whole buckets. -/
theorem BucketPartition.range {lo hi : Nat × Multiset α}
    (hlo : lo ∈ bs) (hhi : hi ∈ bs) :
    (bucketItems bs).filter (fun x => lo.1 < time x ∧ time x ≤ hi.1) =
      bucketItems (bs.filter fun b => lo.1 ≤ b.1 ∧ b.1 < hi.1) := by
  have hsub : ∀ cs, (∀ b ∈ cs, b ∈ bs) →
      (bucketItems cs).filter (fun x => lo.1 < time x ∧ time x ≤ hi.1) =
        bucketItems (cs.filter fun b => lo.1 ≤ b.1 ∧ b.1 < hi.1) := by
    intro cs hcs
    induction cs with
    | nil => simp
    | cons b cs ih =>
      have hb : b ∈ bs := hcs b List.mem_cons_self
      have hwhole : ∀ x ∈ b.2,
          (lo.1 < time x ∧ time x ≤ hi.1 ↔ lo.1 ≤ b.1 ∧ b.1 < hi.1) := by
        intro x hx
        have hlow := h.key_lt_iff hlo hb hx
        have hhigh := h.key_lt_iff hhi hb hx
        omega
      have hrest := ih fun b' hb' => hcs b' (List.mem_cons_of_mem _ hb')
      rw [bucketItems_cons, Multiset.filter_add, hrest]
      by_cases hin : lo.1 ≤ b.1 ∧ b.1 < hi.1
      · rw [List.filter_cons_of_pos (by simpa using hin), bucketItems_cons,
          Multiset.filter_eq_self.mpr fun x hx => (hwhole x hx).mpr hin]
      · rw [List.filter_cons_of_neg (by simpa using hin),
          Multiset.filter_eq_nil.mpr fun x hx hlt => hin ((hwhole x hx).mp hlt), zero_add]
  exact hsub bs fun b hb => hb

end

end Buckets

end ClusterZfs

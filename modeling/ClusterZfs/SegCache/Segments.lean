import ClusterZfs.SegCache.Code

/-! The segments of a block. The check of `dbuf_check_segs_full` counts the segments from the first
on as long as each begins where the one before ends; a count of the block size means that they cover
the block. -/
namespace ClusterZfs

section Segments

variable {size k : Nat} {seg : Seg} {order : List Seg}

def Seg.Covers (seg : Seg) (k : Nat) : Prop := seg.roffset ≤ k ∧ k < seg.roffset + seg.len

instance (seg : Seg) (k : Nat) : Decidable (seg.Covers k) := inferInstanceAs (Decidable (_ ∧ _))

theorem segInsertBySort_perm (seg : Seg) (order : List Seg) :
    (segInsertBySort seg order).Perm (seg :: order) := by
  induction order with
  | nil => exact .refl _
  | cons head rest ih =>
    unfold segInsertBySort
    split
    · exact .refl _
    · exact (ih.cons head).trans (.swap seg head rest)

/- What has been counted beyond `total` lies without a gap from the first segment on. -/
theorem segsTotal_covers (seg : Seg) (rest : List Seg) (total : Nat)
    (hfits : ∀ x ∈ seg :: rest, x.roffset + x.len ≤ size) :
    seg.roffset + (segsTotal (seg :: rest) total - total) ≤ size ∧
    ∀ k, seg.roffset ≤ k → k < seg.roffset + (segsTotal (seg :: rest) total - total) →
      ∃ x ∈ seg :: rest, x.Covers k := by
  induction rest generalizing seg total with
  | nil =>
    have hseg := hfits seg List.mem_cons_self
    have htotal : segsTotal [seg] total - total = seg.len := Nat.add_sub_cancel_left ..
    rw [htotal]
    exact ⟨hseg, fun k hk hk' => ⟨seg, List.mem_cons_self, hk, hk'⟩⟩
  | cons next rest ih =>
    have hseg := hfits seg List.mem_cons_self
    unfold segsTotal
    split
    · exact ⟨by omega, fun k hk hk' => absurd hk' (by omega)⟩
    · rename_i hnext
      obtain ⟨hend, hcovers⟩ := ih next (total + seg.len) fun x hx =>
        hfits x (List.mem_cons_of_mem seg hx)
      refine ⟨by omega, fun k hk hk' => ?_⟩
      by_cases hin : k < seg.roffset + seg.len
      · exact ⟨seg, List.mem_cons_self, hk, hin⟩
      · obtain ⟨x, hx, hcov⟩ := hcovers k (by omega) (by omega)
        exact ⟨x, List.mem_cons_of_mem seg hx, hcov⟩

theorem covers_of_segsTotal (hfits : ∀ x ∈ order, x.roffset + x.len ≤ size)
    (hfull : segsTotal order 0 = size) (hk : k < size) : ∃ x ∈ order, x.Covers k := by
  cases order with
  | nil =>
    rw [← hfull] at hk
    cases hk
  | cons seg rest =>
    obtain ⟨hend, hcovers⟩ := segsTotal_covers seg rest 0 hfits
    exact hcovers k (by omega) (by omega)

end Segments

end ClusterZfs

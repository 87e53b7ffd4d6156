import ClusterZfs.SegCache.Groups

/-! Which mirrored writes are told to the partner as written. A mirror record is queued on the dbuf
before the data of its write gets there, and whoever dirties the block next takes the queue along.
Until the write puts its data into the block its record may be with a dirty record of its own group:
that is harmless if the data then goes into that dirty record too, and a loss if it is kept aside as
a segment. -/
namespace ClusterZfs

namespace BlockWrite

variable {w : BlockWrite} {image : Image} {k : Nat}

theorem onto_of_covers (h : w.seg.Covers k) : w.onto image k = ⟨w.txg, w.issue⟩ := if_pos h

theorem onto_of_not_covers (h : ¬ w.seg.Covers k) : w.onto image k = image k := if_neg h

end BlockWrite

namespace Image

variable {image image' : Image} {segs : List BlockWrite} {w : BlockWrite} {k size : Nat}

theorem merged_append : image.merged (segs ++ [w]) = w.onto (image.merged segs) :=
  List.foldl_append

/- Where the segments cover the block, it does not matter what was below. -/
theorem merged_congr (h : image k = image' k ∨ ∃ w ∈ segs, w.seg.Covers k) :
    image.merged segs k = image'.merged segs k := by
  induction segs generalizing image image' with
  | nil => exact h.resolve_right (by simp)
  | cons v segs ih =>
    apply ih
    dsimp only
    by_cases hv : v.seg.Covers k
    · exact .inl (by rw [BlockWrite.onto_of_covers hv, BlockWrite.onto_of_covers hv])
    · rw [BlockWrite.onto_of_not_covers hv, BlockWrite.onto_of_not_covers hv]
      simpa [hv] using h

/- The image has the bytes of this write, or of writes issued after it. -/
def Has (image : Image) (w : BlockWrite) : Prop :=
  ∀ k, w.seg.Covers k → w.issue ≤ (image k).issue

end Image

namespace MirrorDb

variable {size : Nat} {segs : List BlockWrite}

theorem mem_sorted {order : List Seg} {x : Seg}
    (hx : x ∈ segs.foldl (fun order w => segInsertBySort w.seg order) order) :
    x ∈ order ∨ ∃ w ∈ segs, w.seg = x := by
  induction segs generalizing order with
  | nil => exact .inl hx
  | cons v segs ih =>
    rcases ih hx with horder | ⟨w, hw, heq⟩
    · rcases List.mem_cons.mp ((segInsertBySort_perm v.seg order).mem_iff.mp horder) with heq | hmem
      · exact .inr ⟨v, List.mem_cons_self, heq.symm⟩
      · exact .inl hmem
    · exact .inr ⟨w, List.mem_cons_of_mem v hw, heq⟩

theorem covers_of_full (hfits : ∀ w ∈ segs, w.seg.roffset + w.seg.len ≤ size)
    (hfull : checkSegsFull size segs) {k : Nat} (hk : k < size) : ∃ w ∈ segs, w.seg.Covers k := by
  have hmem : ∀ x ∈ segs.foldl (fun order w => segInsertBySort w.seg order) [],
      ∃ w ∈ segs, w.seg = x := fun x hx => (mem_sorted hx).resolve_left List.not_mem_nil
  have horder : ∀ x ∈ segs.foldl (fun order w => segInsertBySort w.seg order) [],
      x.roffset + x.len ≤ size := by
    intro x hx
    obtain ⟨w, hw, heq⟩ := hmem x hx
    exact heq ▸ hfits w hw
  obtain ⟨x, hx, hcovers⟩ := covers_of_segsTotal horder (of_decide_eq_true hfull) hk
  obtain ⟨w, hw, heq⟩ := hmem x hx
  exact ⟨w, hw, heq ▸ hcovers⟩

/- The mirror records that the block still has. -/
def Listed (s : MirrorDb) (w : BlockWrite) : Prop :=
  w ∈ s.mirrorIo ∨ ∃ r ∈ s.records, w ∈ r.mirrorIo

end MirrorDb

/- `hand` are the writes that have not put their data into the block, `next` is the next number of a
write. -/
structure HandInv (size next : Nat) (hand : List BlockWrite) (db : MirrorDb) : Prop where
  listedFits : ∀ w, db.Listed w → w.issue < next ∧ w.seg.roffset + w.seg.len ≤ size
  handFits : ∀ w ∈ hand, w.issue < next ∧ w.seg.roffset + w.seg.len ≤ size
  locked : hand.Pairwise fun v w => ∀ k, v.seg.Covers k → ¬ w.seg.Covers k
  issues : ∀ k < size, (db.current k).issue < next
  behind : ∀ w ∈ hand, ∀ k, w.seg.Covers k → (db.current k).issue ≤ w.issue
  later : ∀ v ∈ hand, ∀ w, db.Listed w → ∀ k, v.seg.Covers k → w.seg.Covers k → w.issue ≤ v.issue

structure QueueInv (size next : Nat) (hand : List BlockWrite) (db : MirrorDb) : Prop
    extends HandInv size next hand db where
  segsFit : ∀ w ∈ db.segs, w.seg.roffset + w.seg.len ≤ size
  grows : ∀ k < size, (db.base k).issue ≤ (db.current k).issue
  queued : ∀ w ∈ db.mirrorIo, w ∈ hand ∨ db.current.Has w
  taken : ∀ r ∈ db.records, ∀ w ∈ r.mirrorIo, r.image.Has w ∨ w ∈ hand ∧ w.txg = r.txg
  apart : ∀ r ∈ db.records, ∀ w ∈ r.mirrorIo, ∀ v ∈ db.mirrorIo, v.issue ≠ w.issue

section

variable {size next t : Nat} {hand rest : List BlockWrite} {db db' : MirrorDb} {w : BlockWrite}
  {k : Nat}

theorem covers_lt {seg : Seg} (hfits : seg.roffset + seg.len ≤ size)
    (hcovers : seg.Covers k) : k < size := by
  have hlt := hcovers.2
  omega

namespace HandInv

variable (h : HandInv size next hand db)
include h

theorem same (hlisted : ∀ v, db'.Listed v → db.Listed v) (hcurrent : db'.current = db.current) :
    HandInv size next hand db' where
  listedFits v hv := h.listedFits v (hlisted v hv)
  handFits := h.handFits
  locked := h.locked
  issues := hcurrent ▸ h.issues
  behind := hcurrent ▸ h.behind
  later v hv u hu := h.later v hv u (hlisted u hu)

theorem issue_onto (hw : w ∈ hand) (hk : k < size) :
    (w.onto db.current k).issue < next := by
  by_cases hwk : w.seg.Covers k
  · rw [BlockWrite.onto_of_covers hwk]
    exact (h.handFits w hw).1
  · rw [BlockWrite.onto_of_not_covers hwk]
    exact h.issues k hk

/- Of the writes in hand none but this one covers its range. -/
theorem done (hperm : hand.Perm (w :: rest)) (hlisted : ∀ v, db'.Listed v → db.Listed v)
    (hcurrent : ∀ k < size, db'.current k = w.onto db.current k) : HandInv size next rest db' := by
  have hw : w ∈ hand := hperm.mem_iff.mpr List.mem_cons_self
  have hrest : ∀ v ∈ rest, v ∈ hand := fun v hv => hperm.mem_iff.mpr (List.mem_cons_of_mem w hv)
  have hsymm : Std.Symm fun v w : BlockWrite => ∀ k, v.seg.Covers k → ¬ w.seg.Covers k :=
    ⟨fun _ _ hvw k hw hv => hvw k hv hw⟩
  have hlocked := (hperm.pairwise_iff fun hvw => hsymm.symm _ _ hvw).mp h.locked
  obtain ⟨hdisjoint, hlocked⟩ := List.pairwise_cons.mp hlocked
  refine ⟨fun v hv => h.listedFits v (hlisted v hv), fun v hv => h.handFits v (hrest v hv),
    hlocked, ?_, ?_, fun v hv u hu => h.later v (hrest v hv) u (hlisted u hu)⟩
  · intro k hk
    rw [hcurrent k hk]
    exact h.issue_onto hw hk
  · intro v hv k hk
    rw [hcurrent k (covers_lt (h.handFits v (hrest v hv)).2 hk),
      BlockWrite.onto_of_not_covers fun hwk => hdisjoint v hv k hwk hk]
    exact h.behind v (hrest v hv) k hk

end HandInv

namespace QueueInv

theorem onto_has {image : Image} : (w.onto image).Has w := by
  intro k hk
  rw [BlockWrite.onto_of_covers hk]

section

variable (h : QueueInv size next hand db)
include h

/- A record whose write is there stays there when the write in hand comes in over it. -/
theorem has_onto (hw : w ∈ hand) {v : BlockWrite}
    (hv : db.Listed v) (hhas : db.current.Has v) : (w.onto db.current).Has v := by
  intro k hk
  by_cases hwk : w.seg.Covers k
  · rw [BlockWrite.onto_of_covers hwk]
    exact h.later w hw v hv k hwk hk
  · rw [BlockWrite.onto_of_not_covers hwk]
    exact hhas k hk

theorem has_current {v : BlockWrite} (hv : db.Listed v)
    (hhas : db.base.Has v) : db.current.Has v := by
  intro k hk
  exact (hhas k hk).trans (h.grows k (covers_lt (h.listedFits v hv).2 hk))

theorem dirtied (hperm : hand.Perm (w :: rest))
    (hgroup : ∀ v ∈ hand, v.txg = t) (hbound : ∀ r ∈ db.records, r.txg ≤ t)
    (horder : db.records.Pairwise fun r r' => r'.txg < r.txg) {mirrored : Bool} {image : Image}
    (hd : Dirtied db t mirrored db' image) (hsegs : db'.segs = [])
    (himage : ∀ k < size, image k = w.onto db.current k) : QueueInv size next rest db' := by
  obtain ⟨io, older, hhead, hrecords⟩ := hd.records
  obtain ⟨_, holder⟩ := hhead.older horder hbound
  have hw : w ∈ hand := hperm.mem_iff.mpr List.mem_cons_self
  have hcurrent : db'.current = image := by
    rw [MirrorDb.current, hsegs, hd.base]
    rfl
  -- what the newest record now has comes from the record that was there or from the queue
  have hio : ∀ v ∈ io, ∃ r ∈ db.records, v ∈ r.mirrorIo ∧ r.image = db.base := by
    intro v hv
    rcases hhead with hfound | hnew
    · exact ⟨⟨t, io, db.base⟩, by simp [hfound], hv, rfl⟩
    · simp [hnew.1] at hv
  have hqueue : ∀ v ∈ (if mirrored then db.mirrorIo else []), v ∈ db.mirrorIo := by
    intro v hv
    split at hv
    · exact hv
    · cases hv
  have hlisted : ∀ v, db'.Listed v → db.Listed v := by
    intro v hv
    rw [MirrorDb.Listed, hd.mirrorIo, hrecords] at hv
    obtain ⟨r, hr, hvr⟩ := hv.resolve_left List.not_mem_nil
    rcases List.mem_cons.mp hr with rfl | hold
    · rcases List.mem_append.mp hvr with hvio | hvq
      · obtain ⟨r', hr', hvr', _⟩ := hio v hvio
        exact .inr ⟨r', hr', hvr'⟩
      · exact .inl (hqueue v hvq)
    · exact .inr ⟨r, (holder r hold).1, hvr⟩
  have hhas : ∀ v, db.Listed v → (w.onto db.current).Has v → image.Has v := by
    intro v hv hover k hk
    rw [himage k (covers_lt (h.listedFits v hv).2 hk)]
    exact hover k hk
  -- a record of a write in hand: the data of this one are in now, the others stay in hand
  have hhand : ∀ v ∈ hand, db.Listed v → image.Has v ∨ v ∈ rest ∧ v.txg = t := by
    intro v hv hvl
    rcases List.mem_cons.mp (hperm.mem_iff.mp hv) with rfl | hmem
    · exact .inl (hhas v hvl onto_has)
    · exact .inr ⟨hmem, hgroup v hv⟩
  refine ⟨h.toHandInv.done hperm hlisted (hcurrent ▸ himage), ?_, ?_, ?_, ?_, ?_⟩
  · rw [hsegs]
    exact List.forall_mem_nil _
  · intro k _
    rw [hcurrent, hd.base]
  · rw [hd.mirrorIo]
    exact List.forall_mem_nil _
  · rw [hrecords]
    refine List.forall_mem_cons.mpr ⟨?_, ?_⟩
    · intro v hv
      rcases List.mem_append.mp hv with hvio | hvq
      · obtain ⟨r, hr, hvr, hbase⟩ := hio v hvio
        have hvl : db.Listed v := .inr ⟨r, hr, hvr⟩
        rcases h.taken r hr v hvr with hthere | hin
        · rw [hbase] at hthere
          exact .inl (hhas v hvl (h.has_onto hw hvl (h.has_current hvl hthere)))
        · exact hhand v hin.1 hvl
      · have hvl : db.Listed v := .inl (hqueue v hvq)
        rcases h.queued v (hqueue v hvq) with hin | hthere
        · exact hhand v hin hvl
        · exact .inl (hhas v hvl (h.has_onto hw hvl hthere))
    · intro r hr v hv
      obtain ⟨hr', hlt⟩ := holder r hr
      refine .inl ((h.taken r hr' v hv).resolve_right fun hin => ?_)
      exact absurd (hin.2.symm.trans (hgroup v hin.1)) (Nat.ne_of_lt hlt)
  · rw [hd.mirrorIo]
    exact fun _ _ _ _ => List.forall_mem_nil _

/- The write is kept as a segment, with its record still on the queue. -/
theorem added (hperm : hand.Perm (w :: rest))
    (hqueued : ∃ v ∈ db.mirrorIo, v.issue = w.issue) (hrecords : db'.records = db.records)
    (hbase : db'.base = db.base) (hsegs : db'.segs = db.segs ++ [w])
    (hio : db'.mirrorIo = db.mirrorIo) : QueueInv size next rest db' := by
  have hw : w ∈ hand := hperm.mem_iff.mpr List.mem_cons_self
  have hcurrent : db'.current = w.onto db.current := by
    rw [MirrorDb.current, hbase, hsegs, Image.merged_append]
    rfl
  have hlisted : ∀ v, db'.Listed v → db.Listed v := by
    intro v hv
    rwa [MirrorDb.Listed, hio, hrecords] at hv
  refine ⟨h.toHandInv.done hperm hlisted fun _ _ => by rw [hcurrent], ?_, ?_, ?_, ?_, ?_⟩
  · rw [hsegs]
    exact List.forall_mem_append.mpr
      ⟨h.segsFit, List.forall_mem_singleton.mpr (h.handFits w hw).2⟩
  · intro k hk
    rw [hcurrent, hbase]
    by_cases hwk : w.seg.Covers k
    · rw [BlockWrite.onto_of_covers hwk]
      exact (h.grows k hk).trans (h.behind w hw k hwk)
    · rw [BlockWrite.onto_of_not_covers hwk]
      exact h.grows k hk
  · intro v hv
    rw [hio] at hv
    rw [hcurrent]
    rcases h.queued v hv with hin | hthere
    · rcases List.mem_cons.mp (hperm.mem_iff.mp hin) with rfl | hmem
      · exact .inr onto_has
      · exact .inl hmem
    · exact .inr (h.has_onto hw (.inl hv) hthere)
  · rw [hrecords]
    intro r hr v hv
    refine (h.taken r hr v hv).imp_right fun hin => ⟨?_, hin.2⟩
    rcases List.mem_cons.mp (hperm.mem_iff.mp hin.1) with rfl | hmem
    · obtain ⟨u, hu, hissue⟩ := hqueued
      exact absurd hissue (h.apart r hr v hv u hu)
    · exact hmem
  · rw [hrecords, hio]
    exact h.apart

/- What `dmu_write` leaves in the dirty record: all but the bytes of the write are as they were. -/
theorem segsFull_image (hw : w ∈ hand) {filled : Image}
    (hfull : MirrorDb.checkSegsFull size (db.segs ++ [w])) (hk : k < size) :
    filled.merged (db.segs ++ [w]) k = w.onto db.current k := by
  have hfits : ∀ v ∈ db.segs ++ [w], v.seg.roffset + v.seg.len ≤ size :=
    List.forall_mem_append.mpr ⟨h.segsFit, List.forall_mem_singleton.mpr (h.handFits w hw).2⟩
  rw [MirrorDb.current, ← Image.merged_append]
  exact Image.merged_congr (.inr (MirrorDb.covers_of_full hfits hfull hk))

theorem whole_image (hw : w ∈ hand) {filled : Image}
    (hlen : w.seg.len = size) (hk : k < size) :
    w.onto filled k = w.onto db.current k := by
  have hfits := (h.handFits w hw).2
  have hcovers : w.seg.Covers k := ⟨by omega, by omega⟩
  rw [BlockWrite.onto_of_covers hcovers, BlockWrite.onto_of_covers hcovers]

theorem dmuWrite (hperm : hand.Perm (w :: rest))
    (hgroup : ∀ v ∈ hand, v.txg = w.txg) {synced : Nat}
    (hrecords : MirrorSys.RecordsInv w.txg synced db) {kept mirrored : Bool}
    (hqueued : kept → ¬ MirrorDb.checkSegsFull size (db.segs ++ [w]) →
      ∃ v ∈ db.mirrorIo, v.issue = w.issue) :
    QueueInv size next rest (db.dmuWrite size w kept mirrored) := by
  have hw : w ∈ hand := hperm.mem_iff.mpr List.mem_cons_self
  cases hrecords.buf.dmuWrite size hrecords.notWriting kept mirrored with
  | whole _ _ hlen hdirtied hsegs =>
    exact h.dirtied hperm hgroup hrecords.bound hrecords.order hdirtied hsegs
      fun _ hk => h.whole_image hw hlen hk
  | merged hdirtied hsegs =>
    exact h.dirtied hperm hgroup hrecords.bound hrecords.order hdirtied hsegs fun _ _ => rfl
  | segsFull _ _ hfull hdirtied hsegs =>
    exact h.dirtied hperm hgroup hrecords.bound hrecords.order hdirtied hsegs
      fun _ hk => h.segsFull_image hw hfull hk
  | added hkept hopen _ hsame hbase hsegs hio =>
    exact h.added hperm (hqueued hkept hopen) hsame hbase hsegs hio

theorem read (hbuf : BufInv db) :
    QueueInv size next hand db.read := by
  obtain ⟨_, hbase, hio, _, _, hrecords⟩ := hbuf.read
  have hcurrent : db.read.current = db.current := hbase
  -- the records are as they were, with what the queue needs in their images
  have hrecord : ∀ r ∈ db.read.records, ∃ r' ∈ db.records,
      r'.txg = r.txg ∧ r'.mirrorIo = r.mirrorIo ∧
      (r.image = r'.image ∨ r'.image = db.base ∧ r.image = db.current) := by
    rcases hrecords with hsame | ⟨_, txg, io, older, hold, hnew⟩
    · rw [hsame]
      exact fun r hr => ⟨r, hr, rfl, rfl, .inl rfl⟩
    · rw [hnew, hold]
      refine List.forall_mem_cons.mpr ⟨⟨_, List.mem_cons_self, rfl, rfl, .inr ⟨rfl, rfl⟩⟩, ?_⟩
      exact fun r hr => ⟨r, List.mem_cons_of_mem _ hr, rfl, rfl, .inl rfl⟩
  have hlisted : ∀ v, db.read.Listed v → db.Listed v := by
    rintro v (hv | ⟨r, hr, hvr⟩)
    · exact .inl (hio ▸ hv)
    · obtain ⟨r', hr', _, hsame, _⟩ := hrecord r hr
      exact .inr ⟨r', hr', hsame ▸ hvr⟩
  refine ⟨h.toHandInv.same hlisted hcurrent, List.forall_mem_nil _, fun _ _ => ?_, ?_, ?_,
    ?_⟩
  · rw [hcurrent, hbase]
  · rw [hcurrent, hio]
    exact h.queued
  · intro r hr v hv
    obtain ⟨r', hr', htxg, hsame, himage⟩ := hrecord r hr
    rw [← hsame] at hv
    rw [← htxg]
    refine (h.taken r' hr' v hv).imp_left fun hthere => ?_
    rcases himage with heq | hmerged
    · exact heq ▸ hthere
    · rw [hmerged.1] at hthere
      rw [hmerged.2]
      exact h.has_current (.inr ⟨r', hr', hv⟩) hthere
  · intro r hr v hv
    obtain ⟨r', hr', _, hsame, _⟩ := hrecord r hr
    rw [hio]
    exact h.apart r' hr' v (hsame ▸ hv)

theorem of_sublist (hrecords : db'.records ⊆ db.records)
    (hbase : db'.base = db.base) (hsegs : db'.segs = db.segs) (hio : db'.mirrorIo = db.mirrorIo) :
    QueueInv size next hand db' := by
  have hcurrent : db'.current = db.current := by
    rw [MirrorDb.current, MirrorDb.current, hbase, hsegs]
  have hlisted : ∀ v, db'.Listed v → db.Listed v := by
    rintro v (hv | ⟨r, hr, hvr⟩)
    · exact .inl (hio ▸ hv)
    · exact .inr ⟨r, hrecords hr, hvr⟩
  refine ⟨h.toHandInv.same hlisted hcurrent, hsegs ▸ h.segsFit, ?_, ?_, ?_, ?_⟩
  · rw [hcurrent, hbase]
    exact h.grows
  · rw [hcurrent, hio]
    exact h.queued
  · exact fun r hr => h.taken r (hrecords hr)
  · rw [hio]
    exact fun r hr => h.apart r (hrecords hr)

end

theorem begin (h : QueueInv size w.issue hand db) (mirrored : Bool)
    (hfits : w.seg.roffset + w.seg.len ≤ size)
    (hfree : ∀ v ∈ hand, ∀ k, v.seg.Covers k → ¬ w.seg.Covers k) :
    QueueInv size (w.issue + 1) (hand ++ [w])
      { db with mirrorIo := if mirrored then db.mirrorIo ++ [w] else db.mirrorIo } := by
  have hqueue : ∀ v ∈ (if mirrored then db.mirrorIo ++ [w] else db.mirrorIo),
      v ∈ db.mirrorIo ∨ v = w := by
    intro v hv
    split at hv
    · exact (List.mem_append.mp hv).imp_right List.mem_singleton.mp
    · exact .inl hv
  have hlisted : ∀ v, MirrorDb.Listed
      { db with mirrorIo := if mirrored then db.mirrorIo ++ [w] else db.mirrorIo } v →
      db.Listed v ∨ v = w := by
    rintro v (hv | hv)
    · exact (hqueue v hv).imp_left .inl
    · exact .inl (.inr hv)
  refine ⟨⟨?_, ?_, ?_, ?_, ?_, ?_⟩, h.segsFit, h.grows, ?_, ?_, ?_⟩
  · intro v hv
    rcases hlisted v hv with hold | rfl
    · exact (h.listedFits v hold).imp_left (·.trans (Nat.lt_succ_self _))
    · exact ⟨Nat.lt_succ_self _, hfits⟩
  · refine List.forall_mem_append.mpr ⟨fun v hv => ?_, List.forall_mem_singleton.mpr ?_⟩
    · exact (h.handFits v hv).imp_left (·.trans (Nat.lt_succ_self _))
    · exact ⟨Nat.lt_succ_self _, hfits⟩
  · refine List.pairwise_append.mpr ⟨h.locked, List.pairwise_singleton .., fun v hv => ?_⟩
    exact List.forall_mem_singleton.mpr (hfree v hv)
  · exact fun k hk => (h.issues k hk).trans (Nat.lt_succ_self _)
  · refine List.forall_mem_append.mpr ⟨h.behind, List.forall_mem_singleton.mpr ?_⟩
    exact fun k hk => (h.issues k (covers_lt hfits hk)).le
  · refine List.forall_mem_append.mpr ⟨?_, List.forall_mem_singleton.mpr ?_⟩
    · intro v hv u hu k hvk huk
      rcases hlisted u hu with hold | rfl
      · exact h.later v hv u hold k hvk huk
      · exact absurd huk (hfree v hv k hvk)
    · intro u hu k _ _
      rcases hlisted u hu with hold | rfl
      · exact (h.listedFits u hold).1.le
      · exact le_rfl
  · intro v hv
    rcases hqueue v hv with hold | rfl
    · exact (h.queued v hold).imp_left (List.mem_append_left _)
    · exact .inl (by simp)
  · intro r hr v hv
    exact (h.taken r hr v hv).imp_right (.imp_left (List.mem_append_left _))
  · intro r hr v hv u hu
    rcases hqueue u hu with hold | rfl
    · exact h.apart r hr v hv u hold
    · exact (Nat.ne_of_lt (h.listedFits v (.inr ⟨r, hr, hv⟩)).1).symm

end QueueInv

end

namespace MirrorSys

variable {size : Nat} {s s' : MirrorSys}

/- What has been told to the partner is on disk, as it was or written over. -/
def ClearedOnDisk (s : MirrorSys) : Prop :=
  ∀ p ∈ s.cleared, ∃ q ∈ s.synced, q.1 ≤ p.1 ∧ q.2.Has p.2

structure ClearInv (size : Nat) (s : MirrorSys) : Prop where
  groups : s.GroupInv
  queue : QueueInv size s.nextIssue (s.hand.map Prod.fst) s.db
  moved : ∀ i, ∀ w ∈ s.osMirrorIo i, i = (s.syncedTxg + 1) % 4 ∧
    ∃ q ∈ s.synced, q.1 ≤ s.syncedTxg + 1 ∧ q.2.Has w
  cleared : s.ClearedOnDisk

/- A write that is kept as a segment has its mirror record on the queue of the dbuf. -/
def KeepsQueued (size : Nat) (s : MirrorSys) (a : MirrorAction) : Prop :=
  match a with
  | .write i optimize _ =>
    match s.hand[i]? with
    | some (w, sent) => (sent && optimize) = true →
        ¬ MirrorDb.checkSegsFull size (s.db.segs ++ [w]) → ∃ v ∈ s.db.mirrorIo, v.issue = w.issue
    | none => True
  | _ => True

/- A copy that is written back is what the block has. -/
def WritesCurrent (size : Nat) (s : MirrorSys) (a : MirrorAction) : Prop :=
  match a with
  | .rewrite _ => ∀ copy ∈ s.copies.head?, ∀ k < size, copy k = s.db.current k
  | _ => True

instance (s : MirrorSys) (a : MirrorAction) : Decidable (KeepsQueued size s a) := by
  unfold KeepsQueued
  split
  · split <;> infer_instance
  · infer_instance

instance (s : MirrorSys) (a : MirrorAction) : Decidable (WritesCurrent size s a) := by
  unfold WritesCurrent
  split <;> infer_instance

theorem clearInv_start : ClearInv size start where
  groups := groupInv_start
  queue := by
    refine ⟨⟨fun w hw => ?_, nofun, .nil, fun _ _ => Nat.zero_lt_one, nofun, nofun⟩, nofun,
      fun _ _ => le_rfl, nofun, nofun, nofun⟩
    rcases hw with hw | ⟨r, hr, _⟩
    · cases hw
    · cases hr
  moved _ := List.forall_mem_nil _
  cleared := List.forall_mem_nil _

namespace ClearInv

section

variable (h : s.ClearInv size)
include h

theorem begin {seg : Seg} (hfree : s.Free seg)
    (hfits : seg.roffset + seg.len ≤ size) (mirrored : Bool) :
    QueueInv size (s.nextIssue + 1) ((s.begin seg mirrored).hand.map Prod.fst)
      (s.begin seg mirrored).db := by
  obtain ⟨_, hview⟩ := h.groups.block.buf.hold
  have hqueue : QueueInv size s.nextIssue (s.hand.map Prod.fst) s.db.hold :=
    h.queue.of_sublist (hview.records ▸ List.Subset.refl _) hview.base hview.segs hview.mirrorIo
  have hhand : (s.begin seg mirrored).hand.map Prod.fst =
      s.hand.map Prod.fst ++ [⟨s.nextIssue, s.openTxg, seg⟩] := List.map_append
  rw [hhand]
  apply QueueInv.begin (w := ⟨s.nextIssue, s.openTxg, seg⟩) hqueue mirrored hfits
  intro v hv k hvk hsk
  obtain ⟨u, hu, rfl⟩ := List.mem_map.mp hv
  have happart := hfree u hu
  obtain ⟨h1, h2⟩ := hvk
  obtain ⟨h3, h4⟩ := hsk
  dsimp only at h3 h4
  omega

theorem write {i : Nat} {w : BlockWrite} {sent optimize mirrored : Bool}
    (hi : s.hand[i]? = some (w, sent))
    (hqueued : (sent && optimize) = true → ¬ MirrorDb.checkSegsFull size (s.db.segs ++ [w]) →
      ∃ v ∈ s.db.mirrorIo, v.issue = w.issue) :
    QueueInv size s.nextIssue ((s.hand.eraseIdx i).map Prod.fst)
      (s.db.dmuWrite size w (sent && optimize) mirrored) := by
  obtain ⟨hw, hrecords⟩ := h.groups.block_at hi
  have hperm : (s.hand.map Prod.fst).Perm (w :: (s.hand.eraseIdx i).map Prod.fst) := by
    obtain ⟨hlt, hget⟩ := List.getElem?_eq_some_iff.mp hi
    have hcons := (List.getElem_cons_eraseIdx_perm hlt).symm.map Prod.fst
    rwa [hget, List.map_cons] at hcons
  have hgroup : ∀ v ∈ s.hand.map Prod.fst, v.txg = w.txg := by
    intro v hv
    obtain ⟨u, hu, rfl⟩ := List.mem_map.mp hv
    rw [hw, h.groups.hand u hu]
  exact h.queue.dmuWrite hperm hgroup hrecords hqueued

/- A copy that is still current is written as if by a write of no byte. -/
theorem rewrite {copy : Image} (hhand : s.hand = []) (hcopy : ∀ k < size, copy k = s.db.current k)
    (mirrored : Bool) : QueueInv size (s.nextIssue + 1) (s.hand.map Prod.fst)
      (s.db.hold.fill s.openTxg mirrored fun _ => copy) := by
  have hrecords := h.groups.block
  have hlevel : s.level = s.openTxg := by simp only [level, hhand]
  rw [hlevel] at hrecords
  obtain ⟨hdirtied, hsegs⟩ := hrecords.buf.rewrite hrecords.notWriting mirrored copy
  have hqueue := h.queue
  rw [hhand] at hqueue ⊢
  have hbegun := QueueInv.begin (w := ⟨s.nextIssue, s.openTxg, ⟨0, 0, fun _ => 0⟩⟩) hqueue false
    (Nat.zero_le size) (List.forall_mem_nil _)
  refine hbegun.dirtied (.refl _) (List.forall_mem_singleton.mpr rfl) hrecords.bound
    hrecords.order hdirtied hsegs fun k hk => ?_
  rw [BlockWrite.onto_of_not_covers fun hk => by simpa using hk.2]
  exact hcopy k hk

/- Whatever the record being written has taken along is in its image. -/
theorem written {dr : DirtyRecord} (hlast : s.db.dirty.getLast? = some dr)
    (hpending : s.db.pending) :
    dr.txg = s.syncedTxg + 1 ∧ ∀ w ∈ dr.mirrorIo, (s.db.bufs dr.data).Has w := by
  have hview := MirrorDb.records_getLast hlast
  obtain ⟨r, hr, hsynced, hlt⟩ := h.groups.block.pending hpending
  cases Option.some.inj (hview.symm.trans hr)
  refine ⟨hsynced, fun w hw => ?_⟩
  refine (h.queue.taken _ (List.mem_of_getLast? hview) w hw).resolve_right fun hin => ?_
  obtain ⟨u, hu, rfl⟩ := List.mem_map.mp hin.1
  exact absurd (hin.2.symm.trans (h.groups.hand u hu)) (Nat.ne_of_lt hlt)

theorem writeDone {dr : DirtyRecord}
    (hlast : s.db.dirty.getLast? = some dr) (hpending : s.db.pending) (mirrored : Bool) :
    ∀ i, ∀ w ∈ Function.update s.osMirrorIo (dr.txg % 4)
        (s.osMirrorIo (dr.txg % 4) ++ if mirrored then dr.mirrorIo else []) i,
      i = (s.syncedTxg + 1) % 4 ∧ ∃ q ∈ s.synced ++ [(dr.txg, s.db.bufs dr.data)],
        q.1 ≤ s.syncedTxg + 1 ∧ q.2.Has w := by
  obtain ⟨htxg, hhas⟩ := h.written hlast hpending
  have hold : ∀ i, ∀ w ∈ s.osMirrorIo i, i = (s.syncedTxg + 1) % 4 ∧
      ∃ q ∈ s.synced ++ [(dr.txg, s.db.bufs dr.data)], q.1 ≤ s.syncedTxg + 1 ∧ q.2.Has w := by
    intro i w hw
    obtain ⟨hi, q, hq, hbefore⟩ := h.moved i w hw
    exact ⟨hi, q, List.mem_append_left _ hq, hbefore⟩
  intro i w hw
  obtain rfl | hi := eq_or_ne i (dr.txg % 4)
  · rw [Function.update_self] at hw
    rcases List.mem_append.mp hw with hw | hw
    · exact hold _ w hw
    · refine ⟨congrArg (· % 4) htxg, _, List.mem_append_right _ List.mem_cons_self, htxg.le, ?_⟩
      split at hw
      · exact hhas w hw
      · cases hw
  · rw [Function.update_of_ne hi] at hw
    exact hold i w hw

theorem poolSyncDone
    (hstep : s.step size .poolSyncDone = some s') : s'.ClearInv size := by
  have hgroups := h.groups.step hstep
  obtain ⟨_, ⟨⟩⟩ := Option.ite_none_right_eq_some.mp hstep
  refine ⟨hgroups, h.queue, ?_, ?_⟩
  · intro i w hw
    dsimp only at hw
    obtain rfl | hi := eq_or_ne i ((s.syncedTxg + 1) % 4)
    · rw [Function.update_self] at hw
      cases hw
    · rw [Function.update_of_ne hi] at hw
      exact absurd (h.moved i w hw).1 hi
  · refine List.forall_mem_append.mpr ⟨h.cleared, ?_⟩
    intro p hp
    obtain ⟨w, hw, rfl⟩ := List.mem_map.mp hp
    exact (h.moved _ w hw).2

theorem step {a : MirrorAction} (hok : KeepsQueued size s a ∧ WritesCurrent size s a)
    (hstep : s.step size a = some s') : s'.ClearInv size := by
  have hgroups := h.groups.step hstep
  cases a with
  | openNext =>
    obtain ⟨_, ⟨⟩⟩ := Option.ite_none_right_eq_some.mp hstep
    exact ⟨hgroups, h.queue, h.moved, h.cleared⟩
  | begin seg mirrored =>
    obtain ⟨hguard, ⟨⟩⟩ := Option.ite_none_right_eq_some.mp hstep
    exact ⟨hgroups, h.begin hguard.2.1 hguard.2.2.2 mirrored, h.moved, h.cleared⟩
  | write i optimize mirrored =>
    obtain ⟨w, sent, hi, rfl⟩ := write_cases size hstep
    have hqueued := hok.1
    simp only [KeepsQueued, hi] at hqueued
    exact ⟨hgroups, h.write hi hqueued, h.moved, h.cleared⟩
  | read =>
    cases hstep
    exact ⟨hgroups, h.queue.read h.groups.block.buf, h.moved, h.cleared⟩
  | rewrite mirrored =>
    obtain ⟨copy, rest, hcopies, hhand, rfl⟩ := rewrite_cases hstep
    have hcopy := hok.2 copy (by rw [hcopies]; rfl)
    exact ⟨hgroups, h.rewrite hhand hcopy mirrored, h.moved, h.cleared⟩
  | syncLeaf held =>
    obtain ⟨dr, hlast, _, rfl⟩ := syncLeaf_cases hstep
    obtain ⟨_, hrecords, hbase, _, hsegs, hio, _⟩ :=
      h.groups.block.buf.syncLeaf hlast (held || !s.hand.isEmpty)
    refine ⟨hgroups, ?_, h.moved, h.cleared⟩
    exact h.queue.of_sublist (hrecords ▸ List.Subset.refl _) hbase hsegs hio
  | writeDone mirrored =>
    obtain ⟨dr, hlast, hpending, rfl⟩ := writeDone_cases hstep
    obtain ⟨_, hrecords, hbase⟩ := h.groups.block.buf.writeDone hlast
    refine ⟨hgroups, ?_, h.writeDone hlast hpending mirrored, ?_⟩
    · exact h.queue.of_sublist (hrecords ▸ List.dropLast_subset _) hbase rfl rfl
    · intro p hp
      obtain ⟨q, hq, hbefore⟩ := h.cleared p hp
      exact ⟨q, List.mem_append_left _ hq, hbefore⟩
  | poolSyncDone => exact h.poolSyncDone hstep

end

end ClearInv

end MirrorSys

/-- In every run in which a write that is kept as a segment still has its mirror record on the queue
of the dbuf, and copies that are written back are current, only writes that are on disk are told to
the partner. -/
theorem cleared_on_disk {size : Nat} {s : MirrorSys}
    (h : Reach (MirrorSys.step size) (fun s a => MirrorSys.KeepsQueued size s a ∧
      MirrorSys.WritesCurrent size s a) MirrorSys.start s) : s.ClearedOnDisk := by
  have hinv : s.ClearInv size :=
    h.invariant MirrorSys.clearInv_start
      fun _ _ _ hs hok hstep => hs.step hok hstep
  exact hinv.cleared

namespace MirrorSys

def byteOne : Seg := ⟨0, 1, fun _ => 1⟩

def byteTwo : Seg := ⟨1, 1, fun _ => 2⟩

/- A write of the first byte was told to the partner, and all that was written is older. -/
def Lost (s : MirrorSys) : Prop :=
  ∃ p ∈ s.cleared, p.2.seg.Covers 0 ∧ ∀ q ∈ s.synced, (q.2 0).issue < p.2.issue

instance (s : MirrorSys) : Decidable s.Lost :=
  inferInstanceAs (Decidable (∃ p ∈ s.cleared, _ ∧ ∀ q ∈ s.synced, _))

theorem Lost.not_clearedOnDisk {s : MirrorSys} (h : s.Lost) : ¬ s.ClearedOnDisk := by
  intro hdisk
  obtain ⟨p, hp, hcovers, holder⟩ := h
  obtain ⟨q, hq, _, hhas⟩ := hdisk p hp
  exact absurd (hhas 0 hcovers) (Nat.not_le_of_lt (holder q hq))

end MirrorSys

/-- The first of two bytes is mirrored; before its data are in the block a write of the other byte
dirties it and takes the mirror record along. The first byte is then kept as a segment, and told to
the partner when the group is synced without it. -/
theorem cleared_on_disk_taken :
    ∃ s, Reach (MirrorSys.step 2) (MirrorSys.WritesCurrent 2) MirrorSys.start s ∧
      ¬ s.ClearedOnDisk := by
  obtain ⟨s, hs, hlost⟩ := exists_reach (MirrorSys.step 2) (MirrorSys.WritesCurrent 2)
    MirrorSys.start
    [.begin MirrorSys.byteOne true, .begin MirrorSys.byteTwo false, .write 1 false true,
      .write 0 true true, .openNext, .syncLeaf false, .writeDone true, .poolSyncDone]
    MirrorSys.Lost (by decide)
  exact ⟨s, hs, hlost.not_clearedOnDisk⟩

/-- The second byte is kept as a segment. While the first one is on its way a read leaves a copy of
the block, which is written back over the segment of the first byte. -/
theorem cleared_on_disk_rewritten :
    ∃ s, Reach (MirrorSys.step 2) (MirrorSys.KeepsQueued 2) MirrorSys.start s ∧
      ¬ s.ClearedOnDisk := by
  obtain ⟨s, hs, hlost⟩ := exists_reach (MirrorSys.step 2) (MirrorSys.KeepsQueued 2)
    MirrorSys.start
    [.begin MirrorSys.byteTwo true, .write 0 true true, .begin MirrorSys.byteOne true, .read,
      .write 0 true true, .rewrite true, .openNext, .syncLeaf false, .writeDone true,
      .poolSyncDone]
    MirrorSys.Lost (by decide)
  exact ⟨s, hs, hlost.not_clearedOnDisk⟩

/-- The first byte is mirrored and kept, a read leaves a copy with it, and the copy is written back
before the other byte is written. -/
theorem cleared_on_disk_merged :
    ∃ s, Reach (MirrorSys.step 2) (fun s a => MirrorSys.KeepsQueued 2 s a ∧
      MirrorSys.WritesCurrent 2 s a) MirrorSys.start s ∧
      s.cleared.map (fun p => (p.1, p.2.issue)) = [(1, 1), (1, 3)] ∧ s.ClearedOnDisk := by
  obtain ⟨s, hs, hcleared⟩ := exists_reach (MirrorSys.step 2) (fun s a =>
      MirrorSys.KeepsQueued 2 s a ∧ MirrorSys.WritesCurrent 2 s a) MirrorSys.start
    [.begin MirrorSys.byteOne true, .write 0 true true, .read, .rewrite true,
      .begin MirrorSys.byteTwo true, .write 0 false true, .openNext, .syncLeaf false,
      .writeDone true, .poolSyncDone]
    (fun s => s.cleared.map (fun p => (p.1, p.2.issue)) = [(1, 1), (1, 3)]) (by decide)
  exact ⟨s, hs, hcleared, cleared_on_disk hs⟩

end ClusterZfs

import ClusterZfs.Pgr.Granted
import ClusterZfs.Pgr.Nexuses

/-! Exclusive reservations exclude: every command keeps the nexuses with their keys and the holder
with the nexus that was given the reservation. -/
namespace ClusterZfs

namespace SbdLu

variable {s s' s₁ : SbdLu} {l l' l₁ : List KeyPtr} {key : KeyPtr} {it : ItPtr} {cmd : ProutCmd}
  {kmem : Kmem} {n : NexusName}

theorem Base.unique (h : s.Base l) (h' : s.Base l') : l = l' :=
  h.keyList_eq.symm.trans h'.keyList_eq

theorem Seated.steady (h : s.Seated l 0) (hs : Steady s s' l') (hsub : ∀ k ∈ l', k ∈ l)
    (hb : s'.Base l') (hown : ∀ k ∈ l', (s.keys k).allTgPt = false → (s.keys k).keyIt ≠ 0 →
      (s'.its (s.keys k).keyIt).keyPtr = k) (hone : s'.rsvdOne = true →
      s.rsvdOne = true ∧ s'.rsvholder = s.rsvholder ∧ s'.granted = s.granted ∧ s.rsvholder ∈ l' ∧
      ∀ i ∈ s.itList, (s.its i).keyPtr = s.rsvholder → (s'.its i).keyPtr = s.rsvholder) :
    s'.Seated l' 0 :=
  ⟨Placed.steady h.placed hs hsub hb hown, Held.steady h.held hs hone⟩

/-- Only the values of keys, flags of nexuses and what is not about nexuses at all change. -/
theorem Seated.same (h : s.Seated l 0) (hr : s.Rsv l) (hb : s'.Base l) (hs : Steady s s' l)
    (hptr : ∀ i, (s'.its i).keyPtr = (s.its i).keyPtr) (hone : s'.rsvdOne = true →
      s.rsvdOne = true ∧ s'.rsvholder = s.rsvholder ∧ s'.granted = s.granted) :
    s'.Seated l 0 := by
  refine h.steady hs (fun _ hk => hk) hb (fun k hk hsingle hne => ?_) fun hset => ?_
  · rw [hptr]
    exact (h.placed.owned k hk hsingle hne).2
  · obtain ⟨hset, hholder, hgranted⟩ := hone hset
    exact ⟨hset, hholder, hgranted, hr.holder hset, fun i _ hi => (hptr i).trans hi⟩

section Remove

theorem Cut.steady (h : Cut s s') : Steady s s' l' := by
  have hname : ∀ i, s'.name i = s.name i := by
    intro i
    obtain ⟨p, hp, -⟩ := h.its i
    rw [name, hp]
    rfl
  refine ⟨h.itList, hname, fun k _ => by rw [h.keys], fun i _ => h.ptr i, fun i hi => ?_,
    fun hset => ?_⟩
  · obtain ⟨p, hp, -⟩ := h.its i
    rw [hp]
    exact hi
  · rw [h.rest] at hset
    exact hset

theorem Seated.removeKey_ptr {xs ys : List KeyPtr} (h : s.Seated (xs ++ key :: ys) 0) {i : ItPtr}
    (hi : i ∈ s.itList) (hne : (s.its i).keyPtr ≠ key) :
    ((s.removeKey key).its i).keyPtr = (s.its i).keyPtr := by
  rw [SbdLu.removeKey_ptr s key hi, if_neg]
  rintro (⟨-, hptr⟩ | ⟨hsingle, hown, rfl⟩)
  · exact hne hptr
  · exact hne (h.placed.owned key (by simp) hsingle hown).2

theorem Seated.removeKey {xs ys : List KeyPtr} (h : s.Seated (xs ++ key :: ys) 0)
    (hb : s.Base (xs ++ key :: ys)) (hholder : s.rsvdOne = true → s.rsvholder ∈ xs ++ ys) :
    (s.removeKey key).Seated (xs ++ ys) 0 := by
  have hnot : key ∉ xs ++ ys :=
    (List.nodup_cons.mp (List.nodup_middle.mp hb.isList.nodup)).1
  have hsub := mem_without_sub xs ys key
  have hkeep : ∀ i ∈ s.itList, (s.its i).keyPtr ∈ xs ++ ys →
      ((s.removeKey key).its i).keyPtr = (s.its i).keyPtr :=
    fun i hi hmem => h.removeKey_ptr hi (ne_of_mem_of_not_mem hmem hnot)
  have hrest := (cut_removeKey s key).rest
  refine h.steady (cut_removeKey s key).steady hsub hb.removeKey (fun k hk hsingle hne => ?_)
    fun hset => ?_
  · obtain ⟨hin, hptr⟩ := h.placed.owned k (hsub k hk) hsingle hne
    rw [hkeep _ hin (by rw [hptr]; exact hk), hptr]
  · have hone : s.rsvdOne = true := by rw [hrest] at hset; exact hset
    refine ⟨hone, by rw [hrest], by rw [hrest], hholder hone, fun i hi hptr => ?_⟩
    rw [hkeep i hi (hptr ▸ hholder hone), hptr]

theorem steady_doRelease (s : SbdLu) (l' : List KeyPtr) : Steady s s.doRelease l' :=
  ⟨rfl, fun _ => rfl, fun _ _ => rfl, fun _ _ => .inl rfl, fun _ hi => hi, fun hset => hset⟩

theorem Seated.doRelease (h : s.Seated l 0) (hb : s.Base l) (hr : s.Rsv l) :
    s.doRelease.Seated l 0 :=
  h.same hr (hb.kept (kept_doRelease s)) (steady_doRelease s l) (fun _ => rfl)
    fun hset => absurd hset Bool.false_ne_true

theorem Seated.doUnregister (h : s.Seated l 0) (hb : s.Base l) (hr : s.Rsv l) (hkey : key ∈ l)
    (hb₁ : (s.doUnregister key).Base l₁) : (s.doUnregister key).Seated l₁ 0 := by
  obtain ⟨xs, ys, rfl⟩ := List.append_of_mem hkey
  have hseated : (s.released key).Seated (xs ++ key :: ys) 0 := by
    rw [released]
    split
    · exact h.doRelease hb hr
    · exact h
  have hbase := hb.kept (kept_released s key)
  have hmem : (s.released key).rsvdOne = true → (s.released key).rsvholder ∈ xs ++ ys := by
    refine (released_rsv hr fun hin hne => ?_).2.1
    simpa [hne] using hin
  have hgone := hseated.removeKey hbase hmem
  have hbase' := hbase.removeKey
  have hlist : (s.doUnregister key).Base (xs ++ ys) := by
    rw [doUnregister_eq]
    split
    · exact { hbase' with }
    · exact hbase'
  rw [← hlist.unique hb₁]
  rw [doUnregister_eq] at hlist ⊢
  split
  · exact ⟨{ hgone.placed with }, (absurd · Bool.false_ne_true)⟩
  · exact hgone

end Remove

section Preempt

theorem Seated.removeKeys (h : s.Seated l 0) (hb : s.Base l) (hit : it ∈ s.itList)
    (hkey : (s.its it).keyPtr = key) (svcKey : UInt64) (mtch : Bool)
    (hholder : s.rsvdOne = true → s.rsvholder ∈ l ∧ ¬ Matched s.keys svcKey mtch s.rsvholder)
    (hb₁ : (s.removeKeys it key svcKey mtch).2.Base l₁) :
    (s.removeKeys it key svcKey mtch).2.Seated l₁ 0 := by
  have hr := removeKeys_removed hb it key svcKey mtch
  have hl₁ := hr.base.unique hb₁
  have hmem : ∀ k, k ∈ l₁ ↔ k ∈ l ∧ (¬ Matched s.keys svcKey mtch k ∨ k = key) := by
    intro k
    rw [← hl₁]
    simp
  -- A pointer at a key that stays is only taken from those who share the key of the nexus.
  have hkeep : ∀ i ∈ s.itList, (s.its i).keyPtr ∈ l₁ →
      ((s.its i).keyPtr = key → Matched s.keys svcKey mtch key → i = it) →
      ((s.removeKeys it key svcKey mtch).2.its i).keyPtr = (s.its i).keyPtr := by
    intro i hi hin hshare
    refine hr.ptr i hi fun k hk hmatch => ?_
    split
    · rename_i heq
      subst heq
      exact fun hptr => hshare hptr hmatch
    · rename_i hother
      have hgone : k ∉ l₁ := fun hstay => ((hmem k).mp hstay).2.elim (· hmatch) hother
      refine ⟨ne_of_mem_of_not_mem hin hgone, fun hsingle hown => ?_⟩
      have hptr := (h.placed.owned k hk hsingle (hown ▸ hb.nexus i hi)).2
      rw [hown] at hptr
      exact hgone (hptr ▸ hin)
  refine h.steady hr.cut.steady (fun k hk => ((hmem k).mp hk).1) hb₁ (fun k hk hsingle hne => ?_)
    fun hset => ?_
  · obtain ⟨hin, hptr⟩ := h.placed.owned k ((hmem k).mp hk).1 hsingle hne
    rw [hkeep _ hin (by rw [hptr]; exact hk) fun hmine _ => ?_, hptr]
    -- Both point at a key for one target port, so both are its owner.
    have hk' : (s.its it).keyPtr = k := hkey.trans (hmine.symm.trans hptr)
    have hown := hb.owner it hit (hk' ▸ ((hmem k).mp hk).1) (hk' ▸ hsingle)
    rw [hk'] at hown
    exact hown
  · have hone : s.rsvdOne = true := by rw [hr.cut.rest] at hset; exact hset
    obtain ⟨hin, hstay⟩ := hholder hone
    have hin₁ : s.rsvholder ∈ l₁ := (hmem _).mpr ⟨hin, .inl hstay⟩
    refine ⟨hone, by rw [hr.cut.rest], by rw [hr.cut.rest], hin₁, fun i hi hptr => ?_⟩
    rw [hkeep i hi (by rw [hptr]; exact hin₁) fun hmine hmatch => ?_, hptr]
    rw [← hmine, hptr] at hmatch
    exact absurd hmatch hstay

theorem Seated.removeKeys_ptr (h : s.Seated l 0) (hb : s.Base l) (hit : it ∈ s.itList)
    (hkey : (s.its it).keyPtr = key) (svcKey : UInt64) (mtch : Bool) :
    ((s.removeKeys it key svcKey mtch).2.its it).keyPtr = key := by
  rw [(removeKeys_removed hb it key svcKey mtch).ptr it hit, hkey]
  intro k hk _
  split
  · exact fun _ => rfl
  · rename_i hother
    refine ⟨fun heq => hother (heq.symm.trans hkey), fun hsingle hown => hother ?_⟩
    have hptr := (h.placed.owned k hk hsingle (hown ▸ hb.nexus it hit)).2
    rw [hown] at hptr
    exact hptr.symm.trans hkey

theorem Seated.of_empty (h : s.Seated l 0) (hitList : s'.itList = s.itList)
    (hits : ∀ i ∈ s.itList, s'.its i = { s.its i with keyPtr := 0 })
    (hone : s'.rsvdOne = false) : s'.Seated [] 0 := by
  refine ⟨⟨fun i hi j hj heq => ?_, by simp, fun i hi hne => ?_, by simp, by simp, by simp⟩,
    fun hset => absurd (hone.symm.trans hset) (by decide)⟩
  · rw [hitList] at hi hj
    rw [name, name, hits i hi, hits j hj] at heq
    exact h.placed.names i hi j hj heq
  · rw [hitList] at hi
    rw [hits i hi] at hne
    exact absurd rfl hne

theorem keylistDealloc_its (s : SbdLu) :
    ∀ i ∈ s.itList, s.keylistDealloc.its i = { s.its i with keyPtr := 0 } := fun _ hi => if_pos hi

end Preempt

section Reserve

/-- An ALL_TG_PT key takes up the target port and the nexus of its reservation. -/
theorem Placed.setHolder (h : s.Placed l) (hall : (s.keys key).allTgPt = true) (lpt : Bytes)
    (it : ItPtr) : (s.setKey key { s.keys key with lptId := lpt, keyIt := it }).Placed l := by
  generalize hs' : s.setKey key { s.keys key with lptId := lpt, keyIt := it } = s'
  have hself : s'.keys key = { s.keys key with lptId := lpt, keyIt := it } := hs' ▸ setKey_self ..
  have hne : ∀ {k}, k ≠ key → s'.keys k = s.keys k := fun hk => hs' ▸ setKey_of_ne s _ hk
  have hcov : ∀ k n, Covers (s'.keys k) n ↔ Covers (s.keys k) n := by
    intro k n
    obtain rfl | hk := eq_or_ne k key
    · simp [hself, Covers, hall]
    · rw [hne hk]
  have hsame : ∀ k, (s'.keys k).allTgPt = false → s'.keys k = s.keys k := by
    intro k hone
    obtain rfl | hk := eq_or_ne k key
    · rw [hself] at hone
      exact absurd (hall.symm.trans hone) (by decide)
    · exact hne hk
  have hopen : ∀ k, s'.Open k → s.Open k := by
    intro k hopen
    obtain rfl | hk := eq_or_ne k key
    · exact .inl hall
    · rwa [Open, hne hk] at hopen
  subst hs'
  refine ⟨h.names, by simpa only [hcov] using h.disjoint, ?_, ?_, ?_, ?_⟩
  · intro i hi hne
    rw [hcov]
    exact h.covered i hi hne
  · intro k hk hone hne
    have hk' := hsame k hone
    rw [hk'] at hone hne ⊢
    exact h.owned k hk hone hne
  · intro k hk hone hzero i hi hskip hc
    have hk' := hsame k hone
    rw [hcov] at hc
    rw [hk'] at hone hzero
    exact h.pending k hk hone hzero i hi hskip hc
  · exact fun hset k hk => mt (hopen k) (h.hasIt hset k hk)

theorem Seated.doReserve (h : s.Seated l 0) (hb : s.Base l) (hone : s.rsvdOne = false)
    (hit : it ∈ s.itList) (hptr : (s.its it).keyPtr = key) (hkey : key ∈ l) :
    (s.doReserve key it cmd).Seated l 0 := by
  have hcov : Covers (s.keys key) (s.name it) := by
    have hc := h.placed.covered it hit (by rw [hptr]; exact hb.ne_zero key hkey)
    rwa [hptr] at hc
  have hp := h.placed
  simp only [SbdLu.doReserve]
  split
  · exact ⟨{ hp with }, fun hset => absurd (hone.symm.trans hset) (by decide)⟩
  split
  · rename_i hall
    have hp' := Placed.setHolder hp hall (s.its it).lport.bytes it
    refine ⟨{ hp' with }, fun _ => ⟨_, _, rfl, ?_, ?_, ?_, ?_⟩⟩
    · simp only [setKey, Function.update_self]
      exact ⟨hcov.1, .inl hall⟩
    · simp only [setKey, Function.update_self]
      rfl
    · intro _
      simp only [setKey, Function.update_self]
      exact ⟨hit, rfl, hptr⟩
    · intro hzero
      simp only [setKey, Function.update_self] at hzero
      exact absurd hzero (hb.nexus it hit)
  · rename_i hall
    have hsingle := Bool.eq_false_iff.mpr hall
    have hown : (s.keys key).keyIt = it := by
      have hown := hb.owner it hit (hptr ▸ hkey) (hptr ▸ hsingle)
      rwa [hptr] at hown
    refine ⟨{ hp with }, fun _ => ⟨_, _, rfl, hcov, ?_, ?_, ?_⟩⟩
    · have hname := hcov.single hsingle
      exact (congrArg Prod.fst hname).symm
    · intro _
      simp only [hown]
      exact ⟨hit, rfl, hptr⟩
    · intro hzero
      simp only [hown] at hzero
      exact absurd hzero (hb.nexus it hit)

end Reserve

section Register

theorem Registered.name {k : PgrKey} (h : Registered s s' key k it) (i : ItPtr) :
    s'.name i = s.name i := by
  rw [SbdLu.name, h.its i]
  rfl

theorem Seated.registered {k : PgrKey} (h : s.Seated l 0) (hb : s.Base l) (hr : s.Rsv l)
    (hreg : Registered s s' key k it)
    (hdisj : ∀ k' ∈ l, ∀ n, Covers k n → ¬ Covers (s.keys k') n)
    (hown : k.keyIt = if k.allTgPt then 0 else it)
    (hit : it ≠ 0 → it ∈ s.itList ∧ (s.its it).keyPtr = 0 ∧ Covers k (s.name it)) :
    s'.Seated (key :: l) 0 := by
  have hold := hreg.key_old hb
  have hnew := hreg.key_new
  have hholder : s'.rsvholder = s.rsvholder := by rw [hreg.rest]
  -- Whoever points at a key already keeps its pointer.
  have hkeep : ∀ i, (s.its i).keyPtr ≠ 0 → (s'.its i).keyPtr = (s.its i).keyPtr := by
    intro i hne
    rw [hreg.ptr, if_neg]
    rintro ⟨hnull, rfl⟩
    exact hne (hit hnull).2.1
  have hp := h.placed
  refine ⟨⟨?_, ?_, ?_, ?_, ?_, ?_⟩, ?_⟩
  · simpa only [hreg.itList, hreg.name] using hp.names
  · intro a ha b hb' n hc hc'
    rcases List.mem_cons.mp ha with hak | hal <;> rcases List.mem_cons.mp hb' with hbk | hbl
    · exact hak.trans hbk.symm
    · rw [hak, hnew] at hc
      rw [hold b hbl] at hc'
      exact absurd hc' (hdisj b hbl n hc)
    · rw [hbk, hnew] at hc'
      rw [hold a hal] at hc
      exact absurd hc (hdisj a hal n hc')
    · rw [hold a hal] at hc
      rw [hold b hbl] at hc'
      exact hp.disjoint a hal b hbl n hc hc'
  · intro i hi hne
    rw [hreg.itList] at hi
    rw [hreg.name]
    by_cases hmine : it ≠ 0 ∧ i = it
    · rw [hreg.ptr, if_pos hmine, hnew, hmine.2]
      exact (hit hmine.1).2.2
    · rw [hreg.ptr, if_neg hmine] at hne ⊢
      rw [hold _ (hb.mem_of_ptr hi hne)]
      exact hp.covered i hi hne
  · intro a ha hsingle hne
    rw [hreg.itList]
    rcases List.mem_cons.mp ha with rfl | ha
    · rw [hnew] at hsingle hne ⊢
      rw [hown, hsingle] at hne ⊢
      simp only [Bool.false_eq_true, if_false] at hne ⊢
      exact ⟨(hit hne).1, by rw [hreg.ptr, if_pos ⟨hne, rfl⟩]⟩
    · rw [hold a ha] at hsingle hne ⊢
      obtain ⟨hin, hptr⟩ := hp.owned a ha hsingle hne
      exact ⟨hin, by rw [hkeep _ (by rw [hptr]; exact hb.ne_zero a ha), hptr]⟩
  · intro a ha hsingle hzero i hi hskip hc
    rw [hreg.itList] at hi
    rw [hreg.name] at hc
    rcases List.mem_cons.mp ha with rfl | ha
    · rw [hnew] at hsingle hzero hc
      rw [hown, hsingle] at hzero
      simp only [Bool.false_eq_true, if_false] at hzero
      refine hreg.checked i (.inr ⟨hi, ?_, .inr hzero⟩)
      by_contra hne
      exact hdisj _ (hb.mem_of_ptr hi hne) _ hc (hp.covered i hi hne)
    · rw [hold a ha] at hsingle hzero hc
      exact hreg.checked i (.inl (hp.pending a ha hsingle hzero i hi hskip hc))
  · intro hset a ha hopen
    obtain ⟨hset, hsingle, hnull⟩ := hreg.hasIt hset
    rw [Open] at hopen
    rcases List.mem_cons.mp ha with rfl | ha
    · rw [hnew, hown, hsingle] at hopen
      simp [hnull] at hopen
    · rw [hold a ha] at hopen
      exact hp.hasIt hset a ha hopen
  · refine h.held.map (by rw [hreg.rest]) (by rw [hreg.rest]) fun hone n hheld => ?_
    have hmem := hr.holder hone
    constructor <;> rw [hholder, hold _ hmem]
    · exact hheld.covers
    · exact hheld.port
    · rw [hreg.itList, hreg.name]
      intro hne
      obtain ⟨hin, hn', hptr⟩ := hheld.owner hne
      exact ⟨hin, hn', by rw [hkeep _ (by rw [hptr]; exact hb.ne_zero _ hmem), hptr]⟩
    · rw [hreg.itList]
      intro hzero i hi hskip hn'
      rw [hreg.name] at hn'
      exact hreg.checked i (.inl (hheld.pending hzero i hi hskip hn'))

theorem keyRegistered_zero (hb : s.Base l) {lpt : Option Bytes} {rpt : Bytes}
    (h : s.keyRegistered lpt rpt = 0) : ∀ k ∈ l, pgrKeyCompare (s.keys k) lpt rpt = false := by
  intro k hk
  rw [keyRegistered, hb.keyList_eq] at h
  cases hfind : l.find? fun key => pgrKeyCompare (s.keys key) lpt rpt with
  | none => simpa using List.find?_eq_none.mp hfind k hk
  | some key =>
    rw [hfind, Option.getD_some] at h
    exact absurd h (hb.ne_zero key (List.mem_of_find?_eq_some hfind))

theorem covers_registeredKey {rpt : Tptid} (hrpt : rpt.Readable) (it : ItPtr)
    (lpt : Option Devid) (allTgPt : Bool) (svcKey : UInt64) :
    Covers (registeredKey it lpt rpt allTgPt svcKey) n ↔ tptidName rpt.bytes = n.2 ∧
      (allTgPt = true ∨ devidIdent (lpt.elim [] Devid.bytes) = n.1) := by
  rw [Covers, registeredKey_rptId hrpt]
  rfl

theorem registeredKey_disjoint (hb : s.Base l) {lpt : Option Devid} {rpt : Tptid}
    (hrpt : rpt.Readable) {allTgPt : Bool} (hports : lpt = none ↔ allTgPt = true)
    (h : s.keyRegistered (lpt.map Devid.bytes) rpt.bytes = 0) (it : ItPtr) (svcKey : UInt64) :
    ∀ k ∈ l, ∀ n, Covers (registeredKey it lpt rpt allTgPt svcKey) n → ¬ Covers (s.keys k) n := by
  intro k hk n hnew hold
  rw [covers_registeredKey hrpt] at hnew
  have hno := keyRegistered_zero hb h k hk
  simp only [pgrKeyCompare, decide_eq_false_iff_not] at hno
  refine hno ⟨hnew.1.trans hold.1.symm, ?_⟩
  rcases hold.2 with hall | hport
  · exact .inl hall
  · cases lpt with
    | none => exact .inr (by simp)
    | some lpt =>
      rcases hnew.2 with hall | hport'
      · exact absurd (hports.mpr hall) (by simp)
      · refine .inr fun id hid => ?_
        simp only [Option.map_some, Option.mem_def, Option.some.injEq] at hid
        rw [← hid]
        exact hport'.trans hport.symm

/- The nexuses after keys for other initiator ports were registered. -/
structure TpdsSeated (s s' : SbdLu) (l l' : List KeyPtr) (tpds : List Tptid) : Prop where
  base : s'.Base l'
  rsv : s'.Rsv l'
  seated : s'.Seated l' 0
  itList : s'.itList = s.itList
  name : ∀ i, s'.name i = s.name i
  ptr : ∀ i, (s'.its i).keyPtr = (s.its i).keyPtr
  keys : ∀ k ∈ l', (k ∈ l ∧ s'.keys k = s.keys k) ∨
    ∃ t ∈ tpds, tptidName (s'.keys k).rptId = tptidName t.bytes

theorem Seated.registerTpds (h : s.Seated l 0) (hb : s.Base l) (hr : s.Rsv l) (kmem : Kmem)
    (lpt : Option Devid) (allTgPt : Bool) (svcKey : UInt64)
    (hports : lpt = none → allTgPt = true) (tpds : List Tptid)
    (htpds : ∀ t ∈ tpds, t.Readable)
    (hpair : tpds.Pairwise fun t t' => tptidName t.bytes ≠ tptidName t'.bytes)
    (hnew : ∀ t ∈ tpds, ∀ k ∈ l, ∀ n, Covers (registeredKey 0 lpt t allTgPt svcKey) n →
      ¬ Covers (s.keys k) n) :
    ∃ l', TpdsSeated s (s.registerTpds kmem lpt allTgPt svcKey tpds) l l' tpds := by
  induction tpds generalizing s l with
  | nil => exact ⟨l, hb, hr, h, rfl, fun _ => rfl, fun _ => rfl, fun k hk => .inl ⟨hk, rfl⟩⟩
  | cons t rest ih =>
    obtain ⟨hfirst, hpair⟩ := List.pairwise_cons.mp hpair
    obtain ⟨ht, hrest⟩ := List.forall_mem_cons.mp htpds
    have hreg := doRegister_registered s kmem 0 lpt t allTgPt svcKey
    have hbase := hb.doRegister ht kmem 0 lpt allTgPt svcKey hports
    generalize hout : s.doRegister kmem 0 lpt t allTgPt svcKey = out at hreg hbase
    obtain ⟨key, s₁⟩ := out
    dsimp only at hreg hbase
    have hkey := hreg.key_new
    have hold := hreg.key_old hb
    have hseated : s₁.Seated (key :: l) 0 := h.registered hb hr hreg (hnew t List.mem_cons_self)
      rfl fun hnull => absurd rfl hnull
    have hrsv : s₁.Rsv (key :: l) := hr.congr (by rw [hreg.rest]) (by rw [hreg.rest])
      (by rw [hreg.rest]) (fun hone => List.mem_cons_of_mem _ (hr.holder hone)) (by simp)
    obtain ⟨l', hl'⟩ := ih hseated hbase hrsv hrest hpair fun t' ht' k hk n hc hc' => by
      rcases List.mem_cons.mp hk with rfl | hk
      · rw [hkey, covers_registeredKey ht] at hc'
        rw [covers_registeredKey (hrest t' ht')] at hc
        exact hfirst t' ht' (hc'.1.trans hc.1.symm)
      · rw [hold k hk] at hc'
        exact hnew t' (List.mem_cons_of_mem _ ht') k hk n hc hc'
    have hrun : s.registerTpds kmem lpt allTgPt svcKey (t :: rest) =
        s₁.registerTpds kmem lpt allTgPt svcKey rest := by
      rw [SbdLu.registerTpds, hout]
    rw [hrun]
    refine ⟨l', hl'.base, hl'.rsv, hl'.seated, hl'.itList.trans hreg.itList, fun i => ?_,
      fun i => ?_, fun k hk => ?_⟩
    · exact (hl'.name i).trans (hreg.name i)
    · exact (hl'.ptr i).trans ((hreg.ptr i).trans (if_neg fun hcase => hcase.1 rfl))
    · rcases hl'.keys k hk with ⟨hmem, heq⟩ | ⟨t', ht', hname⟩
      · rcases List.mem_cons.mp hmem with rfl | hmem
        · exact .inr ⟨t, List.mem_cons_self, by rw [heq, hkey, registeredKey_rptId ht]⟩
        · exact .inl ⟨hmem, heq.trans (hold k hmem)⟩
      · exact .inr ⟨t', List.mem_cons_of_mem _ ht', hname⟩

/- The key that a REGISTER makes for its own nexus. -/
def newKey (s : SbdLu) (it : ItPtr) (cmd : ProutCmd) : PgrKey :=
  registeredKey it (s.registeredPort it cmd) (s.its it).rport cmd.allTgPt cmd.svcKey

theorem newKey_covers (hown : (s.its it).rport.Readable) (cmd : ProutCmd) :
    Covers (s.newKey it cmd) (s.name it) := by
  rw [newKey, covers_registeredKey hown, registeredPort]
  refine ⟨rfl, ?_⟩
  split
  · rename_i hall
    exact .inl hall
  · exact .inr rfl

end Register

section Move

theorem Placed.heldBy (h : s.Placed l) (hb : s.Base l) (hkey : key ∈ l)
    (hsingle : (s.keys key).allTgPt = false) (hcov : Covers (s.keys key) n) :
    (s.moveHolder key n).HeldBy n 0 := by
  have hname : ∀ {n'}, Covers (s.keys key) n' → n' = n := fun hc =>
    (hc.single hsingle).trans (hcov.single hsingle).symm
  refine ⟨hcov, ?_, ?_, ?_⟩
  · exact (congrArg Prod.fst (hcov.single hsingle)).symm
  · intro hne
    obtain ⟨hin, hptr⟩ := h.owned key hkey hsingle hne
    have hc := h.covered _ hin (by rw [hptr]; exact hb.ne_zero key hkey)
    rw [hptr] at hc
    exact ⟨hin, hname hc, hptr⟩
  · intro hzero i hi hskip hn
    refine h.pending key hkey hsingle hzero i hi hskip ?_
    have hn' : s.name i = n := hn
    rw [hn']
    exact hcov

theorem Seated.moveTo (h : s.Seated l 0) (hb : s.Base l) (hkey : key ∈ l)
    (hsingle : (s.keys key).allTgPt = false) (hcov : Covers (s.keys key) n) :
    (s.moveHolder key n).Seated l 0 :=
  ⟨{ h.placed with }, fun _ => ⟨n, _, rfl, Placed.heldBy h.placed hb hkey hsingle hcov⟩⟩

theorem rekey_key (s : SbdLu) (key k : KeyPtr) (svcKey : UInt64) :
    (s.setKey key { s.keys key with pgrKey := svcKey }).keys k = { s.keys k with
      pgrKey := ((s.setKey key { s.keys key with pgrKey := svcKey }).keys k).pgrKey } := by
  obtain rfl | hk := eq_or_ne k key
  · rw [setKey_self]
  · rw [setKey_of_ne s _ hk]

theorem steady_moveToFound {newkey : KeyPtr} (hsingle : (s.keys newkey).allTgPt = false)
    (lpt : Devid) (svcKey : UInt64) : Steady s (s.moveToFound newkey lpt svcKey) l := by
  have hset : s.moveToFound newkey lpt svcKey =
      (s.setKey newkey { s.keys newkey with pgrKey := svcKey }).setPgrCheckFlag true := by
    simp only [moveToFound, hsingle, Bool.false_eq_true, if_false]
  rw [hset]
  refine ⟨rfl, fun i => ?_, fun k _ => ?_, fun i _ => .inl ?_, fun i hi => ?_, fun h => by cases h⟩
  · rw [name, setPgrCheckFlag_its]
    rfl
  · exact rekey_key s newkey k svcKey
  · rw [setPgrCheckFlag_its]
    rfl
  · rw [setPgrCheckFlag_its]
    have hi' : ((s.setKey newkey { s.keys newkey with pgrKey := svcKey }).its i).pgrCheck = true :=
      hi
    rw [hi', Bool.true_or]

end Move

/- The commands that keep keys apart: a REGISTER that makes a key is not of a nexus that a key is
for already, nor is its new key for a nexus that has one, and REGISTER AND MOVE names no nexus of
an ALL_TG_PT key. -/
structure Apart (s : SbdLu) (it : ItPtr) (cmd : ProutCmd) : Prop where
  register : Registers cmd → (s.its it).keyPtr = 0 → cmd.svcKey ≠ 0 →
    (∀ key ∈ s.keyList, ∀ n, Covers (s.newKey it cmd) n → ¬ Covers (s.keys key) n) ∧
    ∀ t, some t ∈ cmd.tpds → tptidName t.bytes ≠ tptidName (s.its it).rport.bytes
  move : cmd.action = .registerMove → ∀ lpt ∈ cmd.relTgtPort, ∀ rpt ∈ cmd.tptid,
    ∀ key ∈ s.keyList, Covers (s.keys key) (nexusName lpt rpt) → (s.keys key).allTgPt = false

section Commands

section

variable (h : s.Seated l 0)
include h

theorem Seated.register (hb : s.Base l) (hr : s.Rsv l) (hit : it ∈ s.itList)
    (hptr : (s.its it).keyPtr = 0) (hapart : (∀ key ∈ l, ∀ n, Covers (s.newKey it cmd) n →
      ¬ Covers (s.keys key) n) ∧ ∀ t, some t ∈ cmd.tpds →
      tptidName t.bytes ≠ tptidName (s.its it).rport.bytes)
    {tpds : List Tptid} (hcheck : tpds = [] ∨
      s.checkTpds ((s.registeredPort it cmd).map Devid.bytes) [] cmd.tpds = some tpds)
    (hown : (s.its it).rport.Readable) (htpds : ∀ t ∈ tpds, t.Readable)
    (hb₁ : ((s.registerTpds kmem (s.registeredPort it cmd) cmd.allTgPt cmd.svcKey
      tpds).doRegister kmem it (s.registeredPort it cmd) (s.its it).rport cmd.allTgPt
      cmd.svcKey).2.Base l₁) :
    ((s.registerTpds kmem (s.registeredPort it cmd) cmd.allTgPt cmd.svcKey tpds).doRegister kmem
      it (s.registeredPort it cmd) (s.its it).rport cmd.allTgPt cmd.svcKey).2.Seated l₁ 0 := by
  have hlisted : tpds.Pairwise (fun t t' => tptidName t.bytes ≠ tptidName t'.bytes) ∧
      ∀ t ∈ tpds, some t ∈ cmd.tpds ∧
        s.keyRegistered ((s.registeredPort it cmd).map Devid.bytes) t.bytes = 0 := by
    rcases hcheck with rfl | hcheck
    · exact ⟨.nil, by simp⟩
    · obtain ⟨new, rfl, hpair, -, hnew⟩ := checkTpds_spec hcheck
      exact ⟨hpair, hnew⟩
  obtain ⟨hpair, hnew⟩ := hlisted
  have hports := s.registeredPort_none it cmd
  obtain ⟨l', hl'⟩ := h.registerTpds hb hr kmem (s.registeredPort it cmd) cmd.allTgPt cmd.svcKey
    hports.mp tpds htpds hpair fun t ht =>
      registeredKey_disjoint hb (htpds t ht) hports (hnew t ht).2 0 cmd.svcKey
  have hbase := hl'.base.doRegister hown kmem it (s.registeredPort it cmd) cmd.allTgPt cmd.svcKey
    hports.mp
  rw [← hbase.unique hb₁]
  refine hl'.seated.registered hl'.base hl'.rsv (doRegister_registered ..) (fun k hk n hc hc' => ?_)
    rfl fun _ => ⟨hl'.itList ▸ hit, (hl'.ptr it).trans hptr, ?_⟩
  · rcases hl'.keys k hk with ⟨hmem, heq⟩ | ⟨t, ht, hname⟩
    · rw [heq] at hc'
      exact hapart.1 k hmem n hc hc'
    · rw [covers_registeredKey hown] at hc
      refine hapart.2 t (hnew t ht).1 ?_
      rw [← hname, hc'.1, ← hc.1]
  · rw [hl'.name]
    exact newKey_covers hown cmd

theorem Seated.move (hb : s.Base l) (hr : s.Rsv l) {lpt : Devid} {rpt : Tptid}
    (hrpt : rpt.Readable) {newkey : KeyPtr}
    (hsingle : ∀ k ∈ l, Covers (s.keys k) (nexusName lpt rpt) → (s.keys k).allTgPt = false)
    (hnew : (newkey, s₁) = s.moveTarget kmem lpt rpt cmd.svcKey) (hb₁ : s₁.Base l₁) :
    (s₁.moveHolder newkey (nexusName lpt rpt)).Seated l₁ 0 := by
  rw [moveTarget] at hnew
  split at hnew
  · rename_i hfound
    obtain ⟨hmem, hcompare⟩ := keyRegistered_spec hb hfound
    obtain ⟨rfl, rfl⟩ := Prod.mk.inj hnew
    have hcov := (pgrKeyCompare_iff _ lpt rpt).mp hcompare
    have hone := hsingle _ hmem hcov
    have hkept := kept_moveToFound s (s.keyRegistered (some lpt.bytes) rpt.bytes) lpt cmd.svcKey
    have hl := (hb.kept hkept).unique hb₁
    subst hl
    have hsteady : Steady s (s.moveToFound _ lpt cmd.svcKey) l :=
      steady_moveToFound hone lpt cmd.svcKey
    have hseated := h.same hr hb₁ hsteady hkept.ptr fun hset => ⟨hset, rfl, rfl⟩
    refine hseated.moveTo hb₁ hmem ?_ ?_
    · rw [hsteady.key _ hmem]
      exact hone
    · rw [covers_congr (hsteady.key _ hmem)]
      exact hcov
  · rename_i hnone
    have hnone' : s.keyRegistered ((some lpt).map Devid.bytes) rpt.bytes = 0 := not_not.mp hnone
    have hreg := doRegister_registered s kmem 0 (some lpt) rpt false cmd.svcKey
    have hbase := hb.doRegister hrpt kmem 0 (some lpt) false cmd.svcKey (by simp)
    rw [← hnew] at hreg hbase
    have hl := hbase.unique hb₁
    subst hl
    have hseated : s₁.Seated (newkey :: l) 0 := h.registered hb hr hreg
      (registeredKey_disjoint hb hrpt (by simp) hnone' 0 cmd.svcKey) rfl (absurd rfl)
    refine hseated.moveTo hb₁ List.mem_cons_self ?_ ?_
    · rw [hreg.key_new]
      rfl
    · rw [hreg.key_new, covers_registeredKey hrpt]
      exact ⟨rfl, .inr rfl⟩

/-- What is persistent and how often it was changed has no part in it. -/
theorem Seated.counted (aptpl : Bool) (disk : Option PgrSection) (generation : Nat) :
    { s with aptpl := aptpl, disk := disk, prGeneration := generation : SbdLu }.Seated l 0 :=
  ⟨{ h.placed with }, h.held.map rfl rfl fun _ _ hheld => { hheld with }⟩

theorem Changed.seated (hb : s.Base l) (hr : s.Rsv l) (hit : it ∈ s.itList)
    (hapart : s.Apart it cmd) (hc : Changed s kmem it cmd s₁) (hb₁ : s₁.Base l₁) :
    s₁.Seated l₁ 0 := by
  have hrel := h.doRelease hb hr
  have hrelb := hb.kept (kept_doRelease s)
  -- The reservation goes, keys go, and the nexus takes the reservation.
  have hpreempt : ∀ svcKey mtch, (s.its it).keyPtr ≠ 0 →
      ((s.doRelease.removeKeys it (s.its it).keyPtr svcKey mtch).2.doReserve (s.its it).keyPtr it
        cmd).Base l₁ →
      ((s.doRelease.removeKeys it (s.its it).keyPtr svcKey mtch).2.doReserve (s.its it).keyPtr it
        cmd).Seated l₁ 0 := by
    intro svcKey mtch hptr hb₂
    obtain ⟨l₂, hbase, hmine, -⟩ :=
      removeKeys_keeps hrelb (hb.mem_of_ptr hit hptr) it svcKey mtch
    have hcut := (removeKeys_removed hrelb it (s.its it).keyPtr svcKey mtch).cut
    have hseated : (s.doRelease.removeKeys it (s.its it).keyPtr svcKey mtch).2.Seated l₂ 0 :=
      hrel.removeKeys hrelb hit rfl svcKey mtch (fun hset => absurd hset Bool.false_ne_true) hbase
    rw [← (hbase.kept (doReserve_kept ..)).unique hb₂]
    exact hseated.doReserve hbase (hcut.quiet (quiet_doRelease s)).1 (hcut.itList ▸ hit)
      (hrel.removeKeys_ptr hrelb hit rfl svcKey mtch) hmine
  induction hc generalizing l₁ with
  | rekey haction hptr =>
    have hl := (hb.kept (kept_rekey s (s.its it).keyPtr cmd.svcKey)).unique hb₁
    subst hl
    exact h.same hr hb₁ ⟨rfl, fun _ => rfl, fun k _ => rekey_key s _ k cmd.svcKey,
      fun _ _ => .inl rfl, fun _ hi => hi, fun hset => hset⟩ (fun _ => rfl)
      fun hset => ⟨hset, rfl, rfl⟩
  | unregister haction hptr hsvc => exact h.doUnregister hb hr (hb.mem_of_ptr hit hptr) hb₁
  | register tpds haction hptr hsvc hcheck hown htpds =>
    have hnew := hapart.register haction hptr hsvc
    rw [hb.keyList_eq] at hnew
    exact h.register hb hr hit hptr hnew hcheck hown htpds hb₁
  | reserve haction hptr hone hall =>
    rw [← (hb.kept (doReserve_kept ..)).unique hb₁]
    exact h.doReserve hb hone hit rfl (hb.mem_of_ptr hit hptr)
  | clear haction hptr =>
    rw [← hrelb.keylistDealloc.unique hb₁]
    exact hrel.of_empty rfl (keylistDealloc_its s.doRelease) rfl
  | preemptKeys haction hsvc hptr hother =>
    refine h.removeKeys hb hit rfl cmd.svcKey true (fun hone => ⟨hr.holder hone, ?_⟩) hb₁
    simp [Matched, hother hone]
  | preemptHolder haction hone hptr hother hsvc => exact hpreempt cmd.svcKey true hptr hb₁
  | preemptSelf haction hone hptr hholder hsvc =>
    rw [← (hrelb.kept (doReserve_kept ..)).unique hb₁]
    exact hrel.doReserve hrelb rfl hit rfl (hb.mem_of_ptr hit hptr)
  | preemptSame haction => exact hb.unique hb₁ ▸ h
  | preemptAll haction hall hptr => exact hpreempt 0 false hptr hb₁
  | move lpt rpt newkey s₁ haction hport hid hptr hholder hself hnew hrpt =>
    have hone := hr.one_of_holder hptr hholder
    obtain ⟨l₂, hm⟩ := movedTo hb (hb.mem_of_ptr hit hptr) kmem lpt hrpt cmd.svcKey hself hnew
    have hseated := h.move hb hr hrpt (fun k hk => hapart.move haction lpt hport rpt hid k
      (hb.keyList_eq ▸ hk)) hnew hm.base
    have hbase := hm.base.moveHolder newkey (nexusName lpt rpt)
    split
    · rename_i hunreg
      rw [if_pos hunreg] at hb₁
      exact hseated.doUnregister hbase (hm.rsv hr hone _) hm.old hb₁
    · rename_i hunreg
      rw [if_neg hunreg] at hb₁
      exact hbase.unique hb₁ ▸ hseated
  | aptpl _ _ _ ih => exact (ih { hb₁ with } hpreempt).counted ..

theorem Seated.handlePgrOutData (hinv : s.Inv l) (hit : it ∈ s.itList)
    (hids : s.IdsReadable it cmd) (hapart : s.Apart it cmd)
    (hb₁ : (s.handlePgrOutData kmem .ok it cmd).2.Base l₁) :
    (s.handlePgrOutData kmem .ok it cmd).2.Seated l₁ 0 := by
  have hout := outcome_handlePgrOutData hinv.base hinv.rsv hids kmem .ok
  generalize s.handlePgrOutData kmem .ok it cmd = out at hout hb₁
  cases hout with
  | refused => exact hinv.base.unique hb₁ ▸ h
  | counted =>
    rw [← hinv.base.unique { hb₁ with }]
    exact h.counted ..
  | released hrel =>
    rw [← (hinv.base.kept (kept_doRelease s)).unique hb₁]
    exact h.doRelease hinv.base hinv.rsv
  | written hc =>
    rw [finish_ok] at hb₁ ⊢
    exact (hc.seated h hinv.base hinv.rsv hit hapart { hb₁ with }).counted ..

end

end Commands

end SbdLu

/- One session of a nexus at a time, and commands that keep keys apart. -/
def PgrStep.Apart (s : SbdLu) : PgrStep → Prop
  | .login _ lport rport => ∀ i ∈ s.itList, s.name i ≠ nexusName lport rport
  | .prOut it cmd _ _ => s.Apart it cmd
  | _ => True

def SbdLu.Guarded (s : SbdLu) : Prop := s.Noted ∧ ∃ l, s.Inv l ∧ s.Seated l 0

theorem guarded_pgrStart : pgrStart.Guarded :=
  ⟨SbdLu.noted_of_none rfl, [], SbdLu.inv_pgrStart, ⟨by simp [pgrStart], by simp,
    by simp [pgrStart], by simp, by simp, by simp⟩, fun hset => absurd hset Bool.false_ne_true⟩

theorem guarded_pgrStep {s s' : SbdLu} {a : PgrStep} (h : s.Guarded) (hwritten : a.Written s)
    (hapart : a.Apart s) (hstep : pgrStep s a = some s') : s'.Guarded := by
  obtain ⟨hnoted, l, hinv, hseated⟩ := h
  obtain ⟨l', hinv'⟩ := inv_pgrStep hinv hwritten.writeOk hstep
  have hnoted' : s'.Noted := by
    rcases note_pgrStep hinv hnoted hwritten hstep with hsame | ⟨hnoted', -⟩
    · exact hnoted.of_note hsame
    · exact hnoted'
  refine ⟨hnoted', l', hinv', ?_⟩
  have hb' := hinv'.base
  cases a with
  | login it lport rport =>
    obtain ⟨hit, ⟨⟩⟩ := Option.ite_none_right_eq_some.mp hstep
    rw [← (hinv.base.login hit.1 lport rport).unique hb']
    exact hseated.login hinv.base hinv.rsv hit.1 hit.2 lport rport hapart
  | logout it =>
    obtain ⟨hit, ⟨⟩⟩ := Option.ite_none_right_eq_some.mp hstep
    rw [← hinv.base.removeItHandle.unique hb']
    exact hseated.removeItHandle hinv.base hinv.rsv hit
  | newTask it =>
    obtain ⟨hit, ⟨⟩⟩ := Option.ite_none_right_eq_some.mp hstep
    rw [← hinv.base.newTask.unique hb']
    exact hseated.newTask hinv.base hinv.rsv hit
  | prOut it cmd kmem io =>
    obtain ⟨hit, ⟨⟩⟩ := Option.ite_none_right_eq_some.mp hstep
    obtain ⟨hids, rfl⟩ := hwritten
    exact hseated.handlePgrOutData hinv hit hids hapart hb'
  | reset =>
    cases hstep
    by_cases haptpl : s.aptpl = true
    · rw [SbdLu.pgrReset, if_pos haptpl] at hb' ⊢
      exact hinv.base.unique hb' ▸ hseated
    · have hbase := hinv.base.pgrReset
      rw [if_neg haptpl] at hbase
      rw [← hbase.unique hb', SbdLu.pgrReset, if_neg haptpl]
      exact hseated.of_empty rfl s.keylistDealloc_its rfl

/- Commands outside the sets that everybody, or every registered nexus, may send. -/
def Restricted (s : SbdLu) (it : ItPtr) (cdb : Nat → Nat) : Prop :=
  pgrConflictFreeCmds cdb = false ∧
    ((s.its it).keyPtr ≠ 0 → pgrRegisteredPossibleCmds cdb = false) ∧
    ((s.its it).keyPtr ≠ 0 → s.rsvType = pgrTypeWrEx → pgrReadPossibleCmds (cdb 0) = false)

/- The reservation is for the nexus it was given to and for no other. -/
structure Excludes (s : SbdLu) (n : NexusName) : Prop where
  only : ∀ it ∈ s.itList, ∀ cdb, Restricted s it cdb → s.reservationConflict it cdb = false →
    s.name it = n
  always : ∀ it ∈ s.itList, s.name it = n → (s.its it).pgrCheck = false → ∀ cdb,
    s.reservationConflict it cdb = false

theorem SbdLu.HeldBy.excludes {s : SbdLu} {l : List KeyPtr} {n : NexusName} (hinv : s.Inv l)
    (hseated : s.Seated l 0) (hone : s.rsvdOne = true) (hheld : s.HeldBy n 0)
    (htype : s.rsvType = pgrTypeWrEx ∨ s.rsvType = pgrTypeExAc) : Excludes s n := by
  have hall := hinv.rsv.notBoth hone
  refine ⟨fun it hit cdb hres hfree => ?_, fun it hit hname hcheck cdb => ?_⟩
  · obtain ⟨hfreeCmds, hregistered, hread⟩ := hres
    simp only [SbdLu.reservationConflict] at hfree
    split at hfree
    · rename_i hset
      exact absurd (hall.symm.trans hset.1) (by decide)
    split at hfree
    · rename_i hholder
      obtain ⟨-, -, hkey, hown⟩ := hholder
      rw [← hkey] at hown
      have howner := (hheld.owner (hown ▸ hinv.base.nexus it hit)).2.1
      rwa [hown] at howner
    split at hfree
    · rename_i hreads
      obtain ⟨-, hptr, hnot, hreads⟩ := hreads
      have hwr := htype.resolve_right hnot
      exact absurd ((hread hptr hwr).symm.trans (hreads hwr)) (by decide)
    split at hfree
    · rename_i hreg
      exact absurd ((hregistered hreg.2.1).symm.trans hreg.2.2) (by decide)
    split at hfree
    · rename_i hset
      exact absurd (hfreeCmds.symm.trans hset) (by decide)
    split at hfree
    · rename_i hro
      rcases htype with htype | htype <;> rw [htype] at hro <;>
        exact absurd hro.1 (by decide)
    · cases hfree
  · have hne : (s.keys s.rsvholder).keyIt ≠ 0 := by
      intro hzero
      have hset := hheld.pending hzero it hit (hinv.base.nexus it hit) hname
      exact absurd (hcheck.symm.trans hset) (by decide)
    obtain ⟨hin, hname', hptr⟩ := hheld.owner hne
    have heq := hseated.placed.names _ hin it hit (hname'.trans hname.symm)
    rw [heq] at hptr
    have hkey0 := hinv.base.ne_zero _ (hinv.rsv.holder hone)
    simp only [SbdLu.reservationConflict, hptr]
    simp [hall, hone, hkey0, heq]

end ClusterZfs

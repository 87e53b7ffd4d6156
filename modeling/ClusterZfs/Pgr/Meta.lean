import ClusterZfs.Pgr.Code

/-! The section that reservations are stored in: how it is written and how it is read back. -/
namespace ClusterZfs

/- The size of a record: the fixed part of `sbd_pgr_key_info_t` is counted with 15 bytes, though
the ids start behind 13 of them. -/
def keyRecordSize (lptLen rptLen : Nat) : Nat := align8 (15 + lptLen + rptLen)

def keyFlags (k : PgrKey) : UInt8 :=
  (if k.allTgPt then 1 else 0) + (if k.tptIdFlag then 2 else 0)

def keyRecord (k : PgrKey) : Bytes :=
  let raw := leBytes 8 k.pgrKey.toNat ++ leBytes 2 k.lptId.length ++ leBytes 2 k.rptId.length ++
    [keyFlags k] ++ k.lptId ++ k.rptId
  raw ++ List.replicate (keyRecordSize k.lptId.length k.rptId.length - raw.length) 0

/- One record read back, with what stands behind it. Records from before transport IDs were
stored are not modelled. -/
def loadKey (records : Bytes) : Option (PgrKey × Bytes) :=
  let lptLen := ofLe ((records.drop 8).take 2)
  let rptLen := ofLe ((records.drop 10).take 2)
  let flags := records.getD 12 0
  let allTgPt : Bool := flags.toNat % 2 = 1
  let tptIdFlag : Bool := flags.toNat / 2 % 2 = 1
  let sz := keyRecordSize lptLen rptLen
  if rptLen = 0 ∨ records.length < sz ∨ (lptLen = 0 ∧ ¬ allTgPt) then none
  else
    let lpt := (records.drop 13).take lptLen
    let ptr := (records.drop (13 + lptLen)).take rptLen
    if tptIdFlag ∧ tptidValidate ptr = some rptLen then
      some ({ pgrKeyAlloc lpt ptr with
        pgrKey := UInt64.ofNat (ofLe (records.take 8))
        allTgPt := allTgPt
        tptIdFlag := tptIdFlag }, records.drop sz)
    else none

namespace SbdLu

/- What the loop of `sbd_pgr_meta_write` has done behind some keys: their number, the place of the
holder among them and their records. -/
def writeKeys (s : SbdLu) : List KeyPtr → Nat × Nat × Bytes → Nat × Nat × Bytes
  | [], out => out
  | key :: rest, (numkeys, indx, records) =>
    s.writeKeys rest (numkeys + 1, if key = s.rsvholder then numkeys + 1 else indx,
      records ++ keyRecord (s.keys key))

def metaSection (s : SbdLu) : PgrSection :=
  let (numkeys, indx, records) := s.writeKeys (if s.aptpl then s.keyList else []) (0, 0, [])
  ⟨indx, numkeys, s.aptpl, s.rsvdOne, s.rsvdAll, s.rsvType, s.rsvScope, records⟩

def metaInit : PgrSection := ⟨0, 0, false, false, false, 0, 0, []⟩

/- The loop of `sbd_pgr_meta_load` from the key number `i` on, behind the key `last`. -/
def loadKeys (kmem : Kmem) (indx : Nat) : Nat → Nat → Bytes → KeyPtr → SbdLu → Bool × SbdLu
  | 0, _, _, _, s => (true, s)
  | n + 1, i, records, last, s =>
    match loadKey records with
    | none => (false, s)
    | some (k, rest) =>
      let key := kmem.alloc s.alive
      loadKeys kmem indx n (i + 1) rest key
        { s.setKey key k with
          list := s.list.append last key
          alive := key :: s.alive
          rsvholder := if s.rsvdOne ∧ i = indx then key else s.rsvholder }

def loadHeader (s : SbdLu) (spi : PgrSection) : SbdLu :=
  { s with
    aptpl := spi.aptpl
    rsvdOne := spi.aptpl && spi.rsvdOne
    rsvdAll := spi.aptpl && spi.rsvdAll
    rsvType := if spi.aptpl then spi.rsvType else s.rsvType
    rsvScope := if spi.aptpl then spi.rsvScope else s.rsvScope
    allKeysHasIt := false }

/- `io` says whether the metadata can be read, and written when there is no section yet. -/
def metaLoad (s : SbdLu) (kmem : Kmem) (io : Bool) : Bool × SbdLu :=
  if ¬ io then (false, s)
  else
    match s.disk with
    | none => (true, { s with disk := some metaInit })
    | some spi =>
      match (s.loadHeader spi).loadKeys kmem spi.rsvholderIndx spi.numkeys 1 spi.records 0 with
      | (true, s) => (true, s)
      | (false, s) => (false, s.keylistDealloc)

/- The section on disk after a write that failed. -/
def keptSection (s : SbdLu) : SectionKept → Option PgrSection
  | .old => s.disk
  | .new => some s.metaSection
  | .lost => none

def metaWrite (s : SbdLu) (kmem : Kmem) : MetaIo → Bool × SbdLu
  | .ok => (true, { s with disk := some s.metaSection })
  | .failed kept reload =>
    let tmpList := s.list.head
    match ({ s with disk := s.keptSection kept }.setHead 0).metaLoad kmem reload with
    | (false, s) => (false, s.setHead tmpList)
    | (true, s) =>
      let key := s.list.head
      (false, (((s.setHead tmpList).setPgrCheckFlag true).keylistDealloc).setHead key)

end SbdLu

section Records

variable {k : PgrKey}

/- A key whose record can be read back. -/
structure PgrKey.Storable (k : PgrKey) : Prop where
  valid : tptidValidate k.rptId = some k.rptId.length
  tptId : k.tptIdFlag = true
  rptShort : k.rptId.length < 256 ^ 2
  lptShort : k.lptId.length < 256 ^ 2
  ports : k.lptId.length < 5 → k.allTgPt = true

theorem PgrKey.Storable.owner {k : PgrKey} (h : k.Storable) (it : ItPtr) :
    PgrKey.Storable { k with keyIt := it } := { h with }

/- The key that a record is read back as: it has no nexus yet, and `sbd_pgr_key_alloc` drops a
descriptor of a target port that is too short to be one. -/
def PgrKey.reloaded (k : PgrKey) : PgrKey :=
  { k with keyIt := 0, lptId := if 5 ≤ k.lptId.length then k.lptId else [] }

theorem PgrKey.Storable.reloaded (h : k.Storable) : k.reloaded.Storable := by
  refine { h with lptShort := ?_, ports := ?_ }
  · simp only [PgrKey.reloaded]
    split
    · exact h.lptShort
    · simp
  · intro hshort
    simp only [PgrKey.reloaded] at hshort ⊢
    split at hshort
    · exact h.ports hshort
    · exact h.ports (by omega)

theorem keyFlags_allTgPt (k : PgrKey) : decide ((keyFlags k).toNat % 2 = 1) = k.allTgPt := by
  cases h : k.allTgPt <;> cases h' : k.tptIdFlag <;> simp [keyFlags, h, h']

theorem keyFlags_tptIdFlag (k : PgrKey) :
    decide ((keyFlags k).toNat / 2 % 2 = 1) = k.tptIdFlag := by
  cases h : k.allTgPt <;> cases h' : k.tptIdFlag <;> simp [keyFlags, h, h']

theorem keyRecord_length (k : PgrKey) :
    (keyRecord k).length = keyRecordSize k.lptId.length k.rptId.length := by
  have hsize : 15 + k.lptId.length + k.rptId.length ≤
      keyRecordSize k.lptId.length k.rptId.length := le_align8 _
  simp only [keyRecord, List.length_append, leBytes_length, List.length_cons, List.length_nil,
    List.length_replicate]
  omega

theorem record_parts {a b c lpt rpt tail records : Bytes} {f : UInt8} (ha : a.length = 8)
    (hb : b.length = 2) (hc : c.length = 2)
    (hrecords : records = a ++ (b ++ (c ++ (f :: (lpt ++ (rpt ++ tail)))))) :
    records.take 8 = a ∧ (records.drop 8).take 2 = b ∧ (records.drop 10).take 2 = c ∧
      records.getD 12 0 = f ∧ (records.drop 13).take lpt.length = lpt ∧
      (records.drop (13 + lpt.length)).take rpt.length = rpt := by
  have h8 : records.drop 8 = b ++ (c ++ (f :: (lpt ++ (rpt ++ tail)))) := by
    rw [hrecords, drop_append_of_length ha]
  have h10 : records.drop 10 = c ++ (f :: (lpt ++ (rpt ++ tail))) := by
    rw [← List.drop_drop (i := 2), h8, drop_append_of_length hb]
  have h12 : records.drop 12 = f :: (lpt ++ (rpt ++ tail)) := by
    rw [← List.drop_drop (i := 2), h10, drop_append_of_length hc]
  have h13 : records.drop 13 = lpt ++ (rpt ++ tail) := by
    rw [← List.drop_drop (i := 1), h12, List.drop_one, List.tail_cons]
  refine ⟨?_, ?_, ?_, ?_, ?_, ?_⟩
  · rw [hrecords, take_append_of_length ha]
  · rw [h8, take_append_of_length hb]
  · rw [h10, take_append_of_length hc]
  · rw [List.getD_eq_getElem?_getD, ← Nat.add_zero 12, ← List.getElem?_drop, h12]
    rfl
  · rw [h13, take_append_of_length rfl]
  · rw [← List.drop_drop, h13, drop_append_of_length rfl, take_append_of_length rfl]

theorem loadKey_keyRecord (h : k.Storable) (rest : Bytes) :
    loadKey (keyRecord k ++ rest) = some (k.reloaded, rest) := by
  have hrpt : 2 ≤ k.rptId.length := two_le_of_tptidValidate h.valid
  have hparts : keyRecord k ++ rest = leBytes 8 k.pgrKey.toNat ++ (leBytes 2 k.lptId.length ++
      (leBytes 2 k.rptId.length ++ (keyFlags k :: (k.lptId ++ (k.rptId ++
        (List.replicate (keyRecordSize k.lptId.length k.rptId.length -
          (leBytes 8 k.pgrKey.toNat ++ leBytes 2 k.lptId.length ++ leBytes 2 k.rptId.length ++
            [keyFlags k] ++ k.lptId ++ k.rptId).length) 0 ++ rest)))))) := by
    simp only [keyRecord, List.append_assoc, List.singleton_append]
    rfl
  obtain ⟨hkey, hlptLen, hrptLen, hflags, hlpt, hptr⟩ :=
    record_parts (leBytes_length ..) (leBytes_length ..) (leBytes_length ..) hparts
  have hlen := keyRecord_length k
  have htotal : ¬ (keyRecord k ++ rest).length <
      keyRecordSize k.lptId.length k.rptId.length := by
    rw [List.length_append, hlen]
    omega
  have hbad : ¬ (k.rptId.length = 0 ∨
      (keyRecord k ++ rest).length < keyRecordSize k.lptId.length k.rptId.length ∨
      (k.lptId.length = 0 ∧ ¬ k.allTgPt = true)) := by
    rintro (hzero | hshort | ⟨hnone, hone⟩)
    · omega
    · exact htotal hshort
    · exact hone (h.ports (by omega))
  simp only [loadKey, hlptLen, hrptLen, hkey, hflags, ofLe_leBytes h.lptShort,
    ofLe_leBytes h.rptShort, keyFlags_allTgPt, keyFlags_tptIdFlag, hlpt, hptr]
  rw [if_neg hbad, if_pos ⟨h.tptId, h.valid⟩, drop_append_of_length hlen,
    ofLe_leBytes (by exact k.pgrKey.toNat_lt), UInt64.ofNat_toNat]
  simp [pgrKeyAlloc, PgrKey.reloaded, if_pos hrpt]

end Records

end ClusterZfs

import ClusterZfs.Lib.Dll
import ClusterZfs.Pgr.Ports

/-! `sbd_pgr.c`: persistent reservations of a logical unit. The registered keys hang in a doubly
linked list, each nexus points at its key, and the whole is stored in a section of the unit's
metadata. Pointers are numbers with 0 for `NULL`. Unit attentions, the abort of tasks and sections
in the other byte order are left out. -/
namespace ClusterZfs

abbrev KeyPtr := Nat
abbrev ItPtr := Nat

/- The links of a key are kept apart from its data. An id that is not there is empty. -/
structure PgrKey where
  pgrKey : UInt64
  lptId : Bytes
  rptId : Bytes
  allTgPt : Bool
  tptIdFlag : Bool
  keyIt : ItPtr

/- A nexus with its session's ports. -/
structure ItData where
  lport : Devid
  rport : Tptid
  keyPtr : KeyPtr
  pgrCheck : Bool

/- The section on disk: the fixed part in front and the records of the keys behind it. -/
structure PgrSection where
  rsvholderIndx : Nat
  numkeys : Nat
  aptpl : Bool
  rsvdOne : Bool
  rsvdAll : Bool
  rsvType : Fin 16
  rsvScope : Fin 16
  records : Bytes

/- `granted` is the nexus the reservation of one holder was given to last, and its type; no code
reads it. -/
structure SbdLu where
  keys : KeyPtr → PgrKey
  list : Dll
  alive : List KeyPtr
  rsvholder : KeyPtr
  prGeneration : Nat
  aptpl : Bool
  rsvdOne : Bool
  rsvdAll : Bool
  allKeysHasIt : Bool
  rsvType : Fin 16
  rsvScope : Fin 16
  its : ItPtr → ItData
  itList : List ItPtr
  disk : Option PgrSection
  granted : Option (NexusName × Fin 16)

/- What `kmem_zalloc` may return: a place that is not taken. -/
structure Kmem where
  alloc : List KeyPtr → KeyPtr
  fresh : ∀ l, alloc l ∉ l
  nonNull : ∀ l, alloc l ≠ 0

inductive Saa where
  | invalidFieldInCdb
  | paramListLengthError
  | insufficientRegResources
  | invalidFieldInParamList
  | invalidReleaseOfPr
  deriving DecidableEq

inductive ScsiStatus where
  | good
  | check (saa : Saa)
  | reservationConflict
  deriving DecidableEq

/- What becomes of the stored section when `sbd_write_meta_section` fails, and whether it can be
read back (and, when it is lost, a new one be made). -/
inductive SectionKept where
  | old
  | new
  | lost

inductive MetaIo where
  | ok
  | failed (kept : SectionKept) (reload : Bool)

inductive PrOut where
  | register
  | registerAndIgnoreExistingKey
  | reserve
  | release
  | clear
  | preempt
  | preemptAbort
  | registerMove
  deriving DecidableEq

/- A command with its parameter list. `tpds` are the transport IDs listed for SPEC_I_PT, none
where one does not validate; `adnLenOk` says that the length in front of them is right. -/
structure ProutCmd where
  action : PrOut
  type : Fin 16
  scope : Fin 16
  buflen : Nat
  rsvKey : UInt64
  svcKey : UInt64
  aptpl : Bool
  allTgPt : Bool
  specIPt : Bool
  unreg : Bool
  adnLenOk : Bool
  tpds : List (Option Tptid)
  relTgtPort : Option Devid
  tptid : Option Tptid

instance neZeroSixteen : NeZero 16 := ⟨nofun⟩

def pgrTypeWrEx : Fin 16 := 1
def pgrTypeExAc : Fin 16 := 3
def pgrTypeWrExRo : Fin 16 := 5
def pgrTypeExAcRo : Fin 16 := 6
def pgrTypeWrExAr : Fin 16 := 7
def pgrTypeExAcAr : Fin 16 := 8

def pgrValidScope (scope : Fin 16) : Bool := scope = 0

def pgrValidType (type : Fin 16) : Bool :=
  type ∈ [pgrTypeWrEx, pgrTypeExAc, pgrTypeWrExRo, pgrTypeExAcRo, pgrTypeWrExAr, pgrTypeExAcAr]

/- `PGR_CONFLICT_FREE_CMDS`, `PGR_REGISTERED_POSSIBLE_CMDS` and `PGR_READ_POSSIBLE_CMDS`. -/
def pgrConflictFreeCmds (cdb : Nat → Nat) : Bool :=
  cdb 0 ∈ [0x12, 0x4d, 0x5e, 0xa0, 0x03, 0x00, 0x25] ∨
    (cdb 0 = 0x1e ∧ cdb 4 % 4 = 0) ∨
    (cdb 0 = 0xab ∧ cdb 1 % 32 = 0x01) ∨
    (cdb 0 = 0xa3 ∧ cdb 1 % 32 ∈ [0x0b, 0x05, 0x0e, 0x0a, 0x0f]) ∨
    (cdb 0 = 0x5f ∧ cdb 1 % 32 ∈ [0x06, 0x00]) ∨
    (cdb 0 = 0x9e ∧ cdb 1 % 32 = 0x10) ∨
    (cdb 0 = 0x1b ∧ cdb 4 / 16 % 16 = 0 ∧ cdb 4 % 2 = 0)

def pgrRegisteredPossibleCmds (cdb : Nat → Nat) : Bool :=
  cdb 0 = 0x5f ∧ cdb 1 % 32 ∈ [0x02, 0x03, 0x04, 0x05]

def pgrReadPossibleCmds (c : Nat) : Bool :=
  c ∈ [0x08, 0x28, 0x88, 0xa8, 0x34, 0x90, 0x37, 0xb7, 0x2f, 0x8f, 0xaf, 0x52]

def pgrKeyAlloc (lpt rpt : Bytes) : PgrKey :=
  ⟨0, if 5 ≤ lpt.length then lpt else [], if 2 ≤ rpt.length then rpt else [], false,
    2 ≤ rpt.length, 0⟩

def pgrKeyCompare (key : PgrKey) (lpt : Option Bytes) (rpt : Bytes) : Bool :=
  tptidName rpt = tptidName key.rptId ∧
    (key.allTgPt ∨ ∀ id ∈ lpt, devidIdent id = devidIdent key.lptId)

namespace SbdLu

/- The keys a loop over `pgr_keylist` visits. -/
def keyList (s : SbdLu) : List KeyPtr := s.list.walkFrom s.alive.length s.list.head

def setKey (s : SbdLu) (key : KeyPtr) (k : PgrKey) : SbdLu :=
  { s with keys := Function.update s.keys key k }

def setKeyPtr (s : SbdLu) (it : ItPtr) (key : KeyPtr) : SbdLu :=
  { s with its := Function.update s.its it { s.its it with keyPtr := key } }

/- A change to every nexus in `sl_it_list`. -/
def forIts (s : SbdLu) (f : ItPtr → ItData → ItData) : SbdLu :=
  { s with its := fun it => if it ∈ s.itList then f it (s.its it) else s.its it }

def clearRsvFlags (s : SbdLu) : SbdLu := { s with rsvdOne := false, rsvdAll := false }

def free (s : SbdLu) (keys : List KeyPtr) : SbdLu :=
  { s with alive := s.alive.filter (· ∉ keys) }

def setHead (s : SbdLu) (head : KeyPtr) : SbdLu := { s with list := { s.list with head := head } }

def keylistDealloc (s : SbdLu) : SbdLu :=
  ((s.forIts fun _ it => { it with keyPtr := 0 }).free s.keyList).setHead 0

def pgrReset (s : SbdLu) : SbdLu :=
  if s.aptpl then s
  else
    { s.keylistDealloc with
      prGeneration := 0
      rsvholder := 0
      rsvType := 0
      aptpl := false
      rsvdOne := false
      rsvdAll := false
      allKeysHasIt := false
      granted := none }

/- `sbd_pgr_set_pgr_check_flag`. -/
def setPgrCheckFlag (s : SbdLu) (registered : Bool) : SbdLu :=
  { s with allKeysHasIt := false }.forIts fun _ it =>
    if (it.keyPtr ≠ 0) = registered then { it with pgrCheck := true } else it

def removeKey (s : SbdLu) (key : KeyPtr) : SbdLu :=
  let cut :=
    if (s.keys key).allTgPt then
      s.forIts fun _ it => if it.keyPtr = key then { it with keyPtr := 0 } else it
    else if (s.keys key).keyIt ≠ 0 then s.setKeyPtr (s.keys key).keyIt 0
    else s
  { cut with list := s.list.unlink key }.free [key]

/- The branch of `sbd_pgr_remove_keys` that keeps the key of the caller. -/
def dropOthers (s : SbdLu) (key : KeyPtr) (myIt : ItPtr) : SbdLu :=
  s.forIts fun i it => if it.keyPtr = key ∧ i ≠ myIt then { it with keyPtr := 0 } else it

def removeKeysLoop (myIt : ItPtr) (myKey : KeyPtr) (svcKey : UInt64) (mtch : Bool) :
    Nat → KeyPtr → SbdLu → Nat × SbdLu
  | 0, _, s => (0, s)
  | fuel + 1, key, s =>
    if key = 0 then (0, s)
    else
      let nextkey := s.list.next key
      if ((s.keys key).pgrKey = svcKey) = mtch then
        let s' := if key = myKey then s.dropOthers key myIt else s.removeKey key
        let (count, s'') := removeKeysLoop myIt myKey svcKey mtch fuel nextkey s'
        (count + 1, s'')
      else removeKeysLoop myIt myKey svcKey mtch fuel nextkey s

def removeKeys (s : SbdLu) (myIt : ItPtr) (myKey : KeyPtr) (svcKey : UInt64) (mtch : Bool) :
    Nat × SbdLu :=
  removeKeysLoop myIt myKey svcKey mtch s.alive.length s.list.head s

def keyRegistered (s : SbdLu) (lpt : Option Bytes) (rpt : Bytes) : KeyPtr :=
  (s.keyList.find? fun key => pgrKeyCompare (s.keys key) lpt rpt).getD 0

/- The loop of `sbd_pgr_initialize_it`: the flag goes with the first key that has no nexus of its
own, and the walk ends at the first of those that the nexus matches. -/
def initializeItLoop (it : ItPtr) : List KeyPtr → SbdLu → SbdLu
  | [], s => s
  | key :: rest, s =>
    let k := s.keys key
    if ¬ k.allTgPt ∧ k.keyIt ≠ 0 then initializeItLoop it rest s
    else
      let s := { s with allKeysHasIt := false }
      let lpt := (s.its it).lport.bytes
      if ¬ pgrKeyCompare k (some lpt) (s.its it).rport.bytes then initializeItLoop it rest s
      else
        let mine := ¬ k.allTgPt ∨ (s.rsvholder = key ∧ devidIdent lpt = devidIdent k.lptId)
        (if mine then s.setKey key { k with keyIt := it } else s).setKeyPtr it key

def initializeIt (s : SbdLu) (it : ItPtr) : SbdLu :=
  if s.allKeysHasIt then s
  else initializeItLoop it s.keyList { s with allKeysHasIt := true }

/- The part of `sbd_new_task` that looks the key of a known nexus up again. -/
def newTask (s : SbdLu) (it : ItPtr) : SbdLu :=
  if (s.its it).pgrCheck then
    { s with its := Function.update s.its it { s.its it with pgrCheck := false } }.initializeIt it
  else s

def reservationConflict (s : SbdLu) (it : ItPtr) (cdb : Nat → Nat) : Bool :=
  let key := (s.its it).keyPtr
  if s.rsvdAll ∧ key ≠ 0 then false
  else if s.rsvdOne ∧ key ≠ 0 ∧ s.rsvholder = key ∧ (s.keys key).keyIt = it then false
  else if s.rsvdOne ∧ key ≠ 0 ∧ s.rsvType ≠ pgrTypeExAc ∧
      (s.rsvType = pgrTypeWrEx → pgrReadPossibleCmds (cdb 0)) then false
  else if s.rsvdOne ∧ key ≠ 0 ∧ pgrRegisteredPossibleCmds cdb then false
  else if pgrConflictFreeCmds cdb then false
  else if (s.rsvType = pgrTypeWrExRo ∨ s.rsvType = pgrTypeWrExAr) ∧
      pgrReadPossibleCmds (cdb 0) then false
  else true

/- The nexus leaves: `sbd_pgr_remove_it_handle` and the rest of `sbd_remove_it_handle`. -/
def removeItHandle (s : SbdLu) (it : ItPtr) : SbdLu :=
  let key := (s.its it).keyPtr
  let s :=
    if key ≠ 0 ∧ (s.keys key).keyIt = it then
      { s.setKey key { s.keys key with keyIt := 0 } with allKeysHasIt := false }
    else s
  { s with itList := s.itList.filter (· ≠ it) }

def login (s : SbdLu) (it : ItPtr) (lport : Devid) (rport : Tptid) : SbdLu :=
  { s with
    its := Function.update s.its it ⟨lport, rport, 0, false⟩
    itList := it :: s.itList }.initializeIt it

end SbdLu

end ClusterZfs

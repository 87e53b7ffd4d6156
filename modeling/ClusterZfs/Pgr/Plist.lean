import ClusterZfs.Lib.PartialMemory
import ClusterZfs.Lib.Runs
import ClusterZfs.Pgr.Code

/-! How REGISTER and REGISTER AND MOVE read their parameter list. The memory that may be read is
the list as it was received; offsets count from its start. -/
namespace ClusterZfs

namespace Plist

inductive Protocol where
  | fibreChannel
  | srp
  | iscsi
  | other
  deriving DecidableEq

/- The first byte of a transport ID. -/
def protocolId (b : UInt8) : Nat := b.toNat % 16
def formatCode (b : UInt8) : Nat := b.toNat / 64

def protocolOf (b : UInt8) : Protocol :=
  match protocolId b with
  | 0 => .fibreChannel
  | 4 => .srp
  | 5 => .iscsi
  | _ => .other

section Tptid

variable (m : Mem) (off : Nat)

/- The cases of `stmf_scsilib_tptid_validate`: nothing where a byte cannot be read, then the size
if the ID is accepted. -/
def validateFixed (b : UInt8) (totalSz : Nat) : Option Nat :=
  if totalSz < 24 ∨ formatCode b ≠ 0 then none else some 24

def validateIscsi (b : UInt8) (totalSz : Nat) : Option (Option Nat) :=
  if totalSz < 24 ∨ (formatCode b ≠ 0 ∧ formatCode b ≠ 1) then some none
  else (m.be16 (off + 2)).bind fun adnLen =>
    if adnLen < 20 ∨ adnLen % 4 ≠ 0 then some none
    else (m.strnlen (off + 4) adnLen).bind fun nameLen =>
      if nameLen = 0 ∨ adnLen ≤ nameLen then some none
      else (m.span (off + 4) nameLen).map fun name =>
        if formatCode b = 1 ∧ ¬ isidSeperator <:+: name then none
        else some ((5 + adnLen - 1) % 2 ^ 16)

def validateOther (totalSz : Nat) : Option (Option Nat) :=
  if totalSz < 5 then some none
  else (m.be16 (off + 2)).map fun identLen =>
    if totalSz < (5 + identLen - 1) % 2 ^ 16 then none
    else some ((5 + identLen - 1) % 2 ^ 16)

def tptidValidate (totalSz : Nat) : Option (Option Nat) :=
  if totalSz < 2 then some none
  else (m off).bind fun b =>
    match protocolOf b with
    | .fibreChannel => some (validateFixed b totalSz)
    | .iscsi => validateIscsi m off b totalSz
    | .srp => some (validateFixed b totalSz)
    | .other => validateOther m off totalSz

variable (m' : Mem) (off' : Nat)

/- An ID with a length in front of its name. -/
def compareLong : Option Bool :=
  (m.be16 (off + 2)).bind fun len =>
    (m.memcmpZero (off + 2) m' (off' + 2) 2).bind fun same =>
      if same then m.memcmpZero (off + 4) m' (off' + 4) len else some false

def tptidCompare : Option Bool :=
  (m off).bind fun b => (m' off').bind fun b' =>
    if protocolId b ≠ protocolId b' ∨ formatCode b ≠ formatCode b' then some false
    else match protocolOf b with
      | .iscsi => compareLong m off m' off'
      | .srp => m.memcmpZero (off + 8) m' (off' + 8) 16
      | .fibreChannel => m.memcmpZero (off + 8) m' (off' + 8) 8
      | .other => compareLong m off m' off'

/- A registered key has its ID in memory of its own. -/
def keyCompare (lpt : Option Bytes) (key : PgrKey) : Option Bool :=
  (tptidCompare m off (memZeros key.rptId) 0).map fun same =>
    same && (key.allTgPt || lpt.all fun id => devidIdent id = devidIdent key.lptId)

/- The loop over a list of IDs that ends at the first one that compares equal. -/
def anyEqual {α : Type} (compare : α → Option Bool) : List α → Option Bool
  | [] => some false
  | x :: xs => (compare x).bind fun same => if same then some true else anyEqual compare xs

def keyRegistered (lpt : Option Bytes) (keys : List PgrKey) : Option Bool :=
  anyEqual (keyCompare m off lpt) keys

end Tptid

/- `stmf_remote_port_t`: where the ID is, and its size. -/
structure RemotePort where
  rportTptid : Nat
  rportTptidSz : Nat
  deriving DecidableEq

/- `sbd_pgr_key_alloc` takes the size as `int16_t`; `bcopy` takes that as `size_t`. -/
def copyLen (sz : Nat) : Nat := if sz < 2 ^ 15 then sz else 2 ^ 64 - 2 ^ 16 + sz

def keyAlloc (m : Mem) (rpt : RemotePort) : Option Bytes :=
  if copyLen rpt.rportTptidSz < 2 then some []
  else m.span rpt.rportTptid (copyLen rpt.rportTptidSz)

structure Tpds where
  adnLen : Nat
  adnDat : Nat
  rptAry : List RemotePort
  deriving DecidableEq

/- What the commands depend on besides the list: the key of the nexus, the registered keys, the
port the command came through and the ports that a number can name. -/
structure Env where
  key : Option PgrKey
  keys : List PgrKey
  lport : Bytes
  devidDesc : Nat → Option Bytes
  holdsRsv : Bool

section Loop

variable (m : Mem) (lpt : Option Bytes) (keys : List PgrKey)

/- One turn of the loop over the transport IDs: nothing where a byte cannot be read, then the next
state unless the turn ends in `break`. -/
def tpdTurn (st : Tpds) : Option (Option Tpds) :=
  (tptidValidate m st.adnDat st.adnLen).bind fun
    | none => some none
    | some tpdSz =>
      if tpdSz = 0 ∨ tpdSz % 4 ≠ 0 then some none
      else (anyEqual (fun r => tptidCompare m r.rportTptid m st.adnDat) st.rptAry).bind fun again =>
        if again then some none
        else (keyRegistered m st.adnDat lpt keys).map fun registered =>
          if registered then none
          else some
            { adnLen := (st.adnLen + 2 ^ 32 - tpdSz) % 2 ^ 32
              adnDat := st.adnDat + tpdSz
              rptAry := st.rptAry ++ [⟨st.adnDat, tpdSz⟩] }

def tpdStep (st : Tpds) (_ : Unit) : Option Tpds :=
  if st.adnLen = 0 then none else (tpdTurn m lpt keys st).join

end Loop

/- A field of the fixed part. -/
def field (l : Bytes) (off n : Nat) : Nat := ofBe ((l.drop off).take n)

def allTgPt (l : Bytes) : Bool := (l.getD 20 0).toNat / 4 % 2 = 1
def specIPt (l : Bytes) : Bool := (l.getD 20 0).toNat / 8 % 2 = 1

/- `sbd_pgr_out_register` up to the loop, if it gets there. -/
def outRegister (env : Env) (l : Bytes) : Option Tpds :=
  if env.key.isSome ∨ field l 0 8 ≠ 0 ∨ field l 8 8 = 0 ∨ ¬ specIPt l then none
  else
    let adnLen := if 24 + 4 ≤ l.length then field l 24 4 else 0
    if adnLen % 4 ≠ 0 ∨ adnLen < 2 + 4 ∨ l.length < 24 + adnLen then none
    else some ⟨adnLen, 24 + 4, []⟩

def registerPort (env : Env) (l : Bytes) : Option Bytes :=
  if allTgPt l then none else some env.lport

/- `sbd_pgr_out_register_and_move` up to the validation of the ID: the key of the nexus, the port
and the length of the ID. -/
def outRegisterAndMove (env : Env) (l : Bytes) : Option (PgrKey × Bytes × Nat) :=
  if ¬ env.holdsRsv ∨ field l 8 8 = 0 then none
  else env.key.bind fun key => (env.devidDesc (field l 18 2)).map fun lpt =>
    (key, lpt, field l 20 4)

/- The rest of it, as far as it reads the list: the ID is compared with the key of the nexus and
with the registered keys, and copied for a new key. -/
def moveTo (m : Mem) (env : Env) (key : PgrKey) (lpt : Bytes) (adnLen : Nat) : Option Unit :=
  (tptidValidate m 24 adnLen).bind fun
    | none => some ()
    | some tpdLen =>
      (keyCompare m 24 (some lpt) key).bind fun same =>
        if same then some ()
        else (keyRegistered m 24 (some lpt) env.keys).bind fun registered =>
          if registered then some () else (keyAlloc m ⟨24, tpdLen⟩).map fun _ => ()

end Plist

end ClusterZfs

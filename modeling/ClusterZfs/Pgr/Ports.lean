import ClusterZfs.Lib.Bytes
import Mathlib.Data.List.Infix

/-! The names of ports that registrations are about: the descriptor of a target port and the
transport ID of an initiator port, as the strings of bytes that are stored. -/
namespace ClusterZfs

/- The descriptor of a local port with the one byte behind the name that its size counts. -/
structure Devid where
  codeSet : UInt8
  identType : UInt8
  ident : Bytes
  behind : UInt8
  short : ident.length < 256

def Devid.bytes (lpt : Devid) : Bytes :=
  [lpt.codeSet, lpt.identType, 0, UInt8.ofNat lpt.ident.length] ++ lpt.ident ++ [lpt.behind]

theorem Devid.bytes_length (lpt : Devid) : lpt.bytes.length = 5 + lpt.ident.length := by
  simp only [Devid.bytes, List.length_append, List.length_cons, List.length_nil]
  omega

/- What is compared of a descriptor: the length of the name and the name. -/
def devidIdent (lpt : Bytes) : Nat × Bytes :=
  ((lpt.getD 3 0).toNat, (lpt.drop 4).take (lpt.getD 3 0).toNat)

def tptidProtocol (tpd : Bytes) : Nat := (tpd.getD 0 0).toNat % 16
def tptidFormat (tpd : Bytes) : Nat := (tpd.getD 0 0).toNat / 64

/- The length field that iSCSI and the default form have in the same place. -/
def tptidAddLen (tpd : Bytes) : Nat := ofBe ((tpd.drop 2).take 2)

/- What `stmf_scsilib_tptid_compare` looks at: two transport IDs compare equal when these agree. -/
structure TptidName where
  protocolId : Nat
  formatCode : Nat
  addLen : Nat
  name : Bytes
  deriving DecidableEq

def tptidName (tpd : Bytes) : TptidName :=
  match tptidProtocol tpd with
  | 0 => ⟨0, tptidFormat tpd, 0, (tpd.drop 8).take 8⟩
  | 4 => ⟨4, tptidFormat tpd, 0, (tpd.drop 8).take 16⟩
  | p => ⟨p, tptidFormat tpd, tptidAddLen tpd, (tpd.drop 4).take (tptidAddLen tpd)⟩

/- The separator of the session part of an iSCSI name, ",i,0x". -/
def isidSeperator : Bytes := [44, 105, 44, 48, 120]

/- The size of the transport ID at the front of the bytes, when there is one. -/
def tptidValidate (tpd : Bytes) : Option Nat :=
  if tpd.length < 2 then none
  else
    match tptidProtocol tpd with
    | 0 => if tpd.length < 24 ∨ tptidFormat tpd ≠ 0 then none else some 24
    | 4 => if tpd.length < 24 ∨ tptidFormat tpd ≠ 0 then none else some 24
    | 5 =>
      if tpd.length < 24 ∨ (tptidFormat tpd ≠ 0 ∧ tptidFormat tpd ≠ 1) then none
      else
        let adnLen := tptidAddLen tpd
        let name := ((tpd.drop 4).take adnLen).takeWhile (· ≠ 0)
        if adnLen < 20 ∨ adnLen % 4 ≠ 0 then none
        else if name.length = 0 ∨ adnLen ≤ name.length then none
        else if tptidFormat tpd = 1 ∧ ¬ isidSeperator <:+: name then none
        else some ((4 + adnLen) % 2 ^ 16)
    | _ =>
      if tpd.length < 5 then none
      else
        let tpdLen := (4 + tptidAddLen tpd) % 2 ^ 16
        if tpd.length < tpdLen then none else some tpdLen

/- A transport ID with its size, which is passed on as a signed number of 16 bits. What stands
behind an ID of fewer than four bytes, and is compared too, is left out. -/
structure Tptid where
  bytes : Bytes
  short : bytes.length < 2 ^ 15

/- An ID that `sbd_pgr_meta_load` accepts, which validates it with its own size. A command's ID is
validated with all the space behind it, so that one of four bytes, say, is accepted there. -/
def Tptid.Readable (rpt : Tptid) : Prop := tptidValidate rpt.bytes = some rpt.bytes.length

instance : DecidablePred Tptid.Readable := fun rpt =>
  inferInstanceAs (Decidable (tptidValidate rpt.bytes = some rpt.bytes.length))

theorem two_le_of_tptidValidate {tpd : Bytes} {n : Nat} (h : tptidValidate tpd = some n) :
    2 ≤ tpd.length := by
  by_contra hshort
  rw [tptidValidate, if_pos (Nat.lt_of_not_le hshort)] at h
  cases h

/- An initiator port and a target port that talk to each other, by what is compared of them. -/
abbrev NexusName := (Nat × Bytes) × TptidName

def nexusName (lpt : Devid) (rpt : Tptid) : NexusName :=
  (devidIdent lpt.bytes, tptidName rpt.bytes)

end ClusterZfs

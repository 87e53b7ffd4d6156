import ClusterZfs.Pgr.Meta

/-! The service actions of PERSISTENT RESERVE OUT. -/
namespace ClusterZfs

namespace SbdLu

/- Every service action but RELEASE ends with a write when registrations are to survive power
loss. -/
def commit (s : SbdLu) (kmem : Kmem) (io : MetaIo) : Bool × SbdLu :=
  if s.aptpl then s.metaWrite kmem io else (true, s)

/- The end of a service action: the write, and the generation when it counts. -/
def finish (s : SbdLu) (kmem : Kmem) (io : MetaIo) (counts : Bool) : ScsiStatus × SbdLu :=
  match s.commit kmem io with
  | (false, s) => (.check .insufficientRegResources, s)
  | (true, s) =>
    (.good, if counts then { s with prGeneration := (s.prGeneration + 1) % 2 ^ 32 } else s)

def doRegister (s : SbdLu) (kmem : Kmem) (it : ItPtr) (lpt : Option Devid) (rpt : Tptid)
    (allTgPt : Bool) (svcKey : UInt64) : KeyPtr × SbdLu :=
  let key := kmem.alloc s.alive
  let k : PgrKey :=
    { pgrKeyAlloc (lpt.elim [] Devid.bytes) rpt.bytes with
      pgrKey := svcKey
      allTgPt := allTgPt
      tptIdFlag := true
      keyIt := if allTgPt then 0 else it }
  let s := { s.setKey key k with alive := key :: s.alive }
  let s := if allTgPt then s.setPgrCheckFlag false else s
  let s := if it ≠ 0 then s.setKeyPtr it key else s.setPgrCheckFlag false
  (key, { s with list := s.list.push key })

def doRelease (s : SbdLu) : SbdLu :=
  { s.clearRsvFlags with rsvholder := 0, rsvType := 0, granted := none }

def doUnregister (s : SbdLu) (key : KeyPtr) : SbdLu :=
  let s := (if s.rsvholder = key then s.doRelease else s).removeKey key
  if s.list.head = 0 then s.clearRsvFlags else s

def doReserve (s : SbdLu) (key : KeyPtr) (it : ItPtr) (cmd : ProutCmd) : SbdLu :=
  let s := { s with rsvType := cmd.type, rsvScope := cmd.scope }
  if cmd.type = pgrTypeWrExAr ∨ cmd.type = pgrTypeExAcAr then { s with rsvdAll := true }
  else
    let s :=
      if (s.keys key).allTgPt then
        s.setKey key { s.keys key with lptId := (s.its it).lport.bytes, keyIt := it }
      else s
    { s with
      rsvdOne := true
      rsvholder := key
      granted := some (nexusName (s.its it).lport (s.its it).rport, cmd.type) }

/- `PGR_RESERVATION_HOLDER`. -/
def reservationHolder (s : SbdLu) (key : KeyPtr) (it : ItPtr) : Bool :=
  s.rsvdAll ∨ (s.rsvholder ≠ 0 ∧ s.rsvholder = key ∧ (s.keys key).keyIt ≠ 0 ∧
    (s.keys key).keyIt = it)

/- The transport IDs listed for SPEC_I_PT, when all are valid, different and not registered. -/
def checkTpds (s : SbdLu) (lpt : Option Bytes) : List Tptid → List (Option Tptid) →
    Option (List Tptid)
  | seen, [] => some seen
  | _, none :: _ => none
  | seen, some tpd :: rest =>
    if (∃ t ∈ seen, tptidName t.bytes = tptidName tpd.bytes) ∨
        s.keyRegistered lpt tpd.bytes ≠ 0 then none
    else s.checkTpds lpt (seen ++ [tpd]) rest

/- The loop that registers them, with no nexus. -/
def registerTpds (s : SbdLu) (kmem : Kmem) (lpt : Option Devid) (allTgPt : Bool)
    (svcKey : UInt64) : List Tptid → SbdLu
  | [] => s
  | tpd :: rest =>
    (s.doRegister kmem 0 lpt tpd allTgPt svcKey).2.registerTpds kmem lpt allTgPt svcKey rest

/- `sbd_pgr_reg_done`. -/
def regDone (s : SbdLu) (kmem : Kmem) (io : MetaIo) (cmd : ProutCmd) : ScsiStatus × SbdLu :=
  (if cmd.aptpl then { s with aptpl := true } else s).finish kmem io true

/- A nexus that is registered: the key is changed or taken away. -/
def outRegisterAgain (s : SbdLu) (kmem : Kmem) (io : MetaIo) (key : KeyPtr) (cmd : ProutCmd) :
    ScsiStatus × SbdLu :=
  if cmd.action = .register ∧ (s.keys key).pgrKey ≠ cmd.rsvKey then (.reservationConflict, s)
  else if cmd.specIPt then (.check .invalidFieldInCdb, s)
  else if cmd.allTgPt ≠ (s.keys key).allTgPt then (.check .invalidFieldInCdb, s)
  else if cmd.svcKey = 0 then (s.doUnregister key).regDone kmem io cmd
  else (s.setKey key { s.keys key with pgrKey := cmd.svcKey }).regDone kmem io cmd

/- The target port that a registration is for, none for all of them. -/
def registeredPort (s : SbdLu) (it : ItPtr) (cmd : ProutCmd) : Option Devid :=
  if cmd.allTgPt then none else some (s.its it).lport

/- A nexus that is not registered. -/
def outRegisterNew (s : SbdLu) (kmem : Kmem) (io : MetaIo) (it : ItPtr) (cmd : ProutCmd) :
    ScsiStatus × SbdLu :=
  let lpt := s.registeredPort it cmd
  let rpt := (s.its it).rport
  if cmd.action = .register ∧ cmd.rsvKey ≠ 0 then (.reservationConflict, s)
  else if cmd.svcKey = 0 then (.good, { s with prGeneration := (s.prGeneration + 1) % 2 ^ 32 })
  else if ¬ cmd.specIPt then
    (s.doRegister kmem it lpt rpt cmd.allTgPt cmd.svcKey).2.regDone kmem io cmd
  else if cmd.action = .registerAndIgnoreExistingKey then (.check .invalidFieldInCdb, s)
  else if ¬ cmd.adnLenOk then (.check .paramListLengthError, s)
  else
    match s.checkTpds (lpt.map Devid.bytes) [] cmd.tpds with
    | none => (.check .invalidFieldInCdb, s)
    | some tpds =>
      ((s.registerTpds kmem lpt cmd.allTgPt cmd.svcKey tpds).doRegister kmem it lpt rpt
        cmd.allTgPt cmd.svcKey).2.regDone kmem io cmd

def outRegister (s : SbdLu) (kmem : Kmem) (io : MetaIo) (it : ItPtr) (cmd : ProutCmd) :
    ScsiStatus × SbdLu :=
  if (s.its it).keyPtr ≠ 0 then s.outRegisterAgain kmem io (s.its it).keyPtr cmd
  else s.outRegisterNew kmem io it cmd

def outReserve (s : SbdLu) (kmem : Kmem) (io : MetaIo) (it : ItPtr) (cmd : ProutCmd) :
    ScsiStatus × SbdLu :=
  let key := (s.its it).keyPtr
  if ¬ (pgrValidScope cmd.scope ∧ pgrValidType cmd.type) then (.check .invalidFieldInCdb, s)
  else if s.rsvdOne ∨ s.rsvdAll then
    if s.reservationHolder key it ∧ s.rsvType = cmd.type ∧ s.rsvScope = cmd.scope then (.good, s)
    else (.reservationConflict, s)
  else (s.doReserve key it cmd).finish kmem io false

/- A release is not written to disk. -/
def outRelease (s : SbdLu) (it : ItPtr) (cmd : ProutCmd) : ScsiStatus × SbdLu :=
  if (s.rsvdOne ∨ s.rsvdAll) ∧ (s.rsvdAll ∨ s.rsvholder = (s.its it).keyPtr) then
    if s.rsvType ≠ cmd.type ∨ s.rsvScope ≠ cmd.scope then (.check .invalidReleaseOfPr, s)
    else (.good, s.doRelease)
  else (.good, s)

def outClear (s : SbdLu) (kmem : Kmem) (io : MetaIo) : ScsiStatus × SbdLu :=
  s.doRelease.keylistDealloc.finish kmem io true

/- The command goes on when a key was removed. -/
def orConflict (out : Nat × SbdLu) (go : SbdLu → ScsiStatus × SbdLu) : ScsiStatus × SbdLu :=
  if out.1 = 0 then (.reservationConflict, out.2) else go out.2

def outPreempt (s : SbdLu) (kmem : Kmem) (io : MetaIo) (it : ItPtr) (cmd : ProutCmd) :
    ScsiStatus × SbdLu :=
  let key := (s.its it).keyPtr
  let svcKey := cmd.svcKey
  let valid := pgrValidScope cmd.scope ∧ pgrValidType cmd.type
  let holder := s.rsvholder
  if ¬ s.rsvdOne ∧ ¬ s.rsvdAll then
    if svcKey = 0 then (.reservationConflict, s)
    else orConflict (s.removeKeys it key svcKey true) fun s => s.finish kmem io true
  else if s.rsvdOne then
    if svcKey = 0 then (.check .invalidFieldInCdb, s)
    else if (s.keys holder).pgrKey = svcKey ∧ ¬ valid then (.check .invalidFieldInCdb, s)
    else if holder ≠ key ∧ (s.keys holder).pgrKey = svcKey then
      -- The reservation is taken away before the keys, so a refusal would leave it gone.
      orConflict (s.doRelease.removeKeys it key svcKey true) fun s =>
        (s.doReserve key it cmd).finish kmem io true
    else if holder = key ∧ (s.keys holder).pgrKey = svcKey then
      if cmd.scope ≠ s.rsvScope ∨ cmd.type ≠ s.rsvType then
        (s.doRelease.doReserve key it cmd).finish kmem io true
      else s.finish kmem io true
    else orConflict (s.removeKeys it key svcKey true) fun s => s.finish kmem io true
  else if svcKey = 0 then
    if ¬ valid then (.check .invalidFieldInCdb, s)
    else ((s.doRelease.removeKeys it key 0 false).2.doReserve key it cmd).finish kmem io true
  else orConflict (s.removeKeys it key svcKey true) fun s => s.finish kmem io true

/- The key that REGISTER AND MOVE finds for the nexus it names. The length of the target port's
descriptor is cut to eight bits. -/
def moveToFound (s : SbdLu) (newkey : KeyPtr) (lpt : Devid) (svcKey : UInt64) : SbdLu :=
  let k := { s.keys newkey with pgrKey := svcKey }
  let k := if k.allTgPt then { k with lptId := lpt.bytes.take (lpt.bytes.length % 256) } else k
  (s.setKey newkey k).setPgrCheckFlag true

/- The key takes the reservation, for the nexus it is moved to. -/
def moveHolder (s : SbdLu) (newkey : KeyPtr) (n : NexusName) : SbdLu :=
  { s with rsvholder := newkey, granted := some (n, s.rsvType) }

def outRegisterAndMove (s : SbdLu) (kmem : Kmem) (io : MetaIo) (it : ItPtr) (cmd : ProutCmd) :
    ScsiStatus × SbdLu :=
  let key := (s.its it).keyPtr
  if s.rsvholder ≠ key then (.reservationConflict, s)
  else if cmd.svcKey = 0 then (.check .invalidFieldInCdb, s)
  else
    match cmd.relTgtPort, cmd.tptid with
    | none, _ => (.check .invalidFieldInCdb, s)
    | some _, none => (.check .invalidFieldInParamList, s)
    | some lpt, some rpt =>
      if pgrKeyCompare (s.keys key) (some lpt.bytes) rpt.bytes then
        (.check .invalidFieldInParamList, s)
      else
        let found := s.keyRegistered (some lpt.bytes) rpt.bytes
        let (newkey, s) :=
          if found ≠ 0 then (found, s.moveToFound found lpt cmd.svcKey)
          else s.doRegister kmem 0 (some lpt) rpt false cmd.svcKey
        let s := s.moveHolder newkey (nexusName lpt rpt)
        (if cmd.unreg then s.doUnregister key else s).regDone kmem io cmd

/- `sbd_handle_pgr_out_data`. -/
def handlePgrOutData (s : SbdLu) (kmem : Kmem) (io : MetaIo) (it : ItPtr) (cmd : ProutCmd) :
    ScsiStatus × SbdLu :=
  let key := (s.its it).keyPtr
  let registers := cmd.action = .register ∨ cmd.action = .registerAndIgnoreExistingKey
  if cmd.buflen < 24 then (.check .paramListLengthError, s)
  else if cmd.action ≠ .registerMove ∧ cmd.buflen ≠ 24 ∧ (¬ registers ∨ ¬ cmd.specIPt) then
    (.check .paramListLengthError, s)
  else if ¬ registers ∧ key = 0 then
    if cmd.action = .registerMove ∧ ¬ s.rsvdOne ∧ ¬ s.rsvdAll then (.check .invalidFieldInCdb, s)
    else (.reservationConflict, s)
  else if ¬ registers ∧ (s.keys key).pgrKey ≠ cmd.rsvKey then (.reservationConflict, s)
  else
    match cmd.action with
    | .register => s.outRegister kmem io it cmd
    | .registerAndIgnoreExistingKey => s.outRegister kmem io it cmd
    | .registerMove => s.outRegisterAndMove kmem io it cmd
    | .reserve => s.outReserve kmem io it cmd
    | .release => s.outRelease it cmd
    | .clear => s.outClear kmem io
    | .preempt => s.outPreempt kmem io it cmd
    | .preemptAbort => s.outPreempt kmem io it cmd

end SbdLu

end ClusterZfs

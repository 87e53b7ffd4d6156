import ClusterZfs.Raidz.IoDone

/-! `raidz_aggre_map_alloc`: the columns that one member of an aggregated stripe reads or
writes. -/
namespace ClusterZfs

/- The parts of a zio, and of the first DVA of its block pointer, that the function reads.
`typeOk` is the check of the dnode type, `reportsParity` the result of
`raidz_aggre_parity_report_cksum`. -/
structure AggreZio where
  isWrite : Bool
  typeOk : Bool
  reportsParity : Bool
  ioOffset : Nat
  ioSize : Nat
  ioData : Buf
  blkid : Nat
  dvaAsize : Nat

/- Where the function calls `cmn_err(CE_PANIC)`. -/
inductive AggrePanic where
  | dnodeType
  | totcheck
  | bccheck
  deriving DecidableEq, Repr

/- The device and the offset of a column; `place` is its number in the stripe, counted from the
first parity column. -/
def aggrePlace (unitShift dcols ioOffset place : Nat) : Nat × Nat :=
  let b := ioOffset >>> unitShift
  let col := b % dcols + place
  let o := (b / dcols) <<< unitShift
  if col ≥ dcols then (col - dcols, o + 1 <<< unitShift) else (col, o)

/- The map, once the checks have passed. -/
def aggreMap (env : RaidzEnv) (z : AggreZio) (unitShift dcols nparity : Nat) : RaidzMap :=
  let tot := (z.ioSize >>> unitShift) * dcols
  let doall := !z.isWrite && z.reportsParity
  let acols := if z.isWrite then (if z.blkid = 0 then 1 + nparity else 1)
    else if z.reportsParity then dcols else 1
  let firstdatacol := if z.isWrite then (if z.blkid = 0 then nparity else 0)
    else if z.reportsParity then nparity else 0
  { rmCols := acols
    rmScols := acols
    rmBigcols := 0
    rmAsize := acols * z.ioSize
    rmMissingdata := 0
    rmMissingparity := 0
    rmFirstdatacol := firstdatacol
    rmNskip := if z.blkid = 0 then roundup tot (nparity + 1) - tot else 0
    rmSkipstart := 0
    rmAggreDoall := doall
    rmCol := fun c =>
      let place := aggrePlace unitShift dcols z.ioOffset
        (if acols = 1 then nparity + z.blkid else c)
      { rcDevidx := place.1
        rcOffset := place.2
        rcSize := z.ioSize
        -- the parity, and the blocks of the other members, are read into buffers of their own
        rcData := if c < firstdatacol ∨ (doall = true ∧ c - firstdatacol ≠ z.blkid)
          then env.zioBufAlloc z.ioSize else z.ioData
        rcError := 0
        rcTried := false
        rcSkipped := false
        rcNeedTry := false } }

def raidzAggreMapAlloc (env : RaidzEnv) (z : AggreZio) (unitShift dcols nparity : Nat) :
    Except AggrePanic RaidzMap :=
  let tot := (z.ioSize >>> unitShift) * dcols
  let bc := (z.dvaAsize >>> unitShift) - tot
  if z.isWrite && !z.typeOk then .error .dnodeType
  else if z.dvaAsize >>> unitShift < tot then .error .totcheck
  else if bc > nparity + 1 then .error .bccheck
  else .ok (aggreMap env z unitShift dcols nparity)

theorem aggreMapAlloc_eq {env : RaidzEnv} {z : AggreZio} {unitShift dcols nparity : Nat}
    {rm : RaidzMap} (h : raidzAggreMapAlloc env z unitShift dcols nparity = .ok rm) :
    rm = aggreMap env z unitShift dcols nparity := by
  unfold raidzAggreMapAlloc at h
  dsimp only at h
  split_ifs at h
  cases h
  rfl

end ClusterZfs

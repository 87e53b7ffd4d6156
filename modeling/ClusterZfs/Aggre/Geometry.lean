import ClusterZfs.Aggre.Layout
import ClusterZfs.Raidz.Geometry

/-! The columns of an aggregated stripe on the devices. The member writes, the full read and the
map rebuilt after a read error each compute them anew. -/
namespace ClusterZfs

/- What `raidz_aggre_raidz_done` asks of the child vdevs. -/
structure ChildVdevs where
  readable : Nat → Bool
  dtlMissing : Nat → Bool

/- The map that replaces a map of one column after a read error. A map that already has all the
columns is kept, and the columns that were left out as stale are tried again. -/
def raidzAggreRaidzDone (env : RaidzEnv) (vd : ChildVdevs) (z : AggreZio)
    (unitShift dcols nparity : Nat) (rmOld : RaidzMap) : RaidzMap :=
  let devindex := (rmOld.rmCol 0).rcDevidx
  let f := (z.ioOffset >>> unitShift) % dcols
  if rmOld.rmCols = dcols then
    { rmOld with
      rmCol := fun c =>
        let col := if f + c ≥ dcols then f + c - dcols else f + c
        let rc := rmOld.rmCol c
        if c < dcols ∧ vd.dtlMissing col = true ∧ rc.rcNeedTry = true then
          { rc with rcTried := false, rcNeedTry := false }
        else rc }
  else
    let place (c : Nat) := aggrePlace unitShift dcols z.ioOffset c
    let missing (c : Nat) : Bool := !vd.readable (place c).1 || vd.dtlMissing (place c).1
    { rmCols := dcols
      rmScols := dcols
      rmBigcols := 0
      rmAsize := z.ioSize * dcols
      rmMissingdata := Nat.count (fun c => nparity ≤ c ∧ missing c = true) dcols
      rmMissingparity := Nat.count (fun c => c < nparity ∧ missing c = true) dcols
      rmFirstdatacol := nparity
      rmNskip := 0
      rmSkipstart := 0
      rmAggreDoall := false
      rmCol := fun c =>
        { rcDevidx := (place c).1
          rcOffset := (place c).2
          rcSize := z.ioSize
          rcData := if devindex = (place c).1 then z.ioData else env.zioBufAlloc z.ioSize
          rcError := if !vd.readable (place c).1 then enxio
            else if vd.dtlMissing (place c).1 then estale else 0
          rcTried := missing c
          rcSkipped := missing c
          rcNeedTry := vd.readable (place c).1 && vd.dtlMissing (place c).1 } }

theorem aggrePlace_eq (unitShift ioOffset : Nat) {dcols c : Nat} (hc : c < dcols) :
    aggrePlace unitShift dcols ioOffset c =
      deviceSector unitShift dcols (ioOffset >>> unitShift + c) := by
  rw [deviceSector_column _ _ hc]
  simp only [aggrePlace]
  split <;> rfl

/- Where a map puts its column `c`. -/
def RaidzMap.place (rm : RaidzMap) (c : Nat) : Nat × Nat :=
  ((rm.rmCol c).rcDevidx, (rm.rmCol c).rcOffset)

/- A stripe on a vdev: `size` is the size of one member, and the block pointers of the members
carry the allocation for all of them. -/
structure StripeSpace where
  unitShift : Nat
  dcols : Nat
  nparity : Nat
  offset : Nat
  size : Nat
  parity_pos : 1 ≤ nparity
  parity_lt : nparity < dcols
  whole : 2 ^ unitShift ∣ size
  size_pos : 0 < size

namespace StripeSpace

variable (s : StripeSpace)

def ndata : Nat := s.dcols - s.nparity

def asize : Nat := vdevRaidzAsize s.unitShift s.dcols s.nparity (s.ndata * s.size)

def rows : Nat := s.size >>> s.unitShift

/- Member `blkid` of the stripe, read or written. -/
structure Member (z : AggreZio) : Prop where
  offset : z.ioOffset = s.offset
  size : z.ioSize = s.size
  blkid : z.blkid < s.ndata
  asize : z.dvaAsize = s.asize

/- The layout of the stripe as one plain RAID-Z block of the same data. -/
def layout : RaidzLayout := ⟨s.unitShift, s.dcols, s.nparity, s.offset, s.ndata * s.size⟩

theorem ndata_pos : 0 < s.ndata := Nat.sub_pos_of_lt s.parity_lt

theorem layout_whole : s.layout.Whole :=
  ⟨s.parity_pos, s.parity_lt, Dvd.dvd.mul_left s.whole _, Nat.mul_pos s.ndata_pos s.size_pos⟩

theorem size_eq : s.size = s.rows * 2 ^ s.unitShift := by
  rw [rows, Nat.shiftRight_eq_div_pow, Nat.div_mul_cancel s.whole]

theorem layout_rows : s.layout.q = s.rows ∧ s.layout.r = 0 := by
  have hs : s.layout.s = s.ndata * s.rows := by
    have hshift : s.layout.s = s.ndata * s.size / 2 ^ s.unitShift := Nat.shiftRight_eq_div_pow _ _
    rw [hshift, s.size_eq, ← Nat.mul_assoc, Nat.mul_div_cancel _ (Nat.two_pow_pos _)]
  have hq : s.layout.q = s.rows := by
    have hdef : s.layout.q = s.layout.s / s.ndata := rfl
    rw [hdef, hs, Nat.mul_div_cancel_left _ s.ndata_pos]
  refine ⟨hq, ?_⟩
  have hdef : s.layout.r = s.layout.s - s.layout.q * s.ndata := rfl
  rw [hdef, hs, hq, Nat.mul_comm, Nat.sub_self]

theorem layout_tot : s.layout.tot = s.rows * s.dcols := by
  have hbc : s.layout.bc = 0 := if_pos s.layout_rows.2
  rw [s.layout_whole.tot_eq, hbc, s.layout_rows.1]
  rfl

theorem asize_sectors : s.asize >>> s.unitShift = roundup (s.rows * s.dcols) (s.nparity + 1) := by
  have hasize := s.layout_whole.vdevRaidzAsize_eq
  rw [RaidzLayout.sectors, s.layout_tot] at hasize
  have hdef : s.asize = roundup (s.rows * s.dcols) (s.nparity + 1) <<< s.unitShift := hasize
  rw [hdef, Nat.shiftLeft_shiftRight]

variable {s} {z : AggreZio}

/-- The allocation covers the stripe, and less than a row of parity and a sector more. -/
theorem Member.alloc (h : s.Member z) (env : RaidzEnv) :
    raidzAggreMapAlloc env z s.unitShift s.dcols s.nparity =
      if z.isWrite && !z.typeOk then .error .dnodeType
      else .ok (aggreMap env z s.unitShift s.dcols s.nparity) := by
  have hge : s.rows * s.dcols ≤ roundup (s.rows * s.dcols) (s.nparity + 1) :=
    roundup_ge _ (Nat.succ_pos _)
  have hlt : roundup (s.rows * s.dcols) (s.nparity + 1) < s.rows * s.dcols + (s.nparity + 1) :=
    roundup_lt _ (Nat.succ_pos _)
  have htot : (z.ioSize >>> s.unitShift) * s.dcols = s.rows * s.dcols := by
    rw [h.size]
    rfl
  simp only [raidzAggreMapAlloc, htot, h.asize, s.asize_sectors]
  rw [if_neg (show ¬ roundup (s.rows * s.dcols) (s.nparity + 1) < s.rows * s.dcols by omega),
    if_neg (show ¬ roundup (s.rows * s.dcols) (s.nparity + 1) - s.rows * s.dcols >
      s.nparity + 1 by omega)]

/- Where the stripe has its column number `c`: the parity columns come first. -/
def columnPlace (s : StripeSpace) (c : Nat) : Nat × Nat :=
  deviceSector s.unitShift s.dcols (s.offset >>> s.unitShift + c)

/- The map has `n` columns, and its column `c` is column number `number c` of the stripe. -/
structure Shows (s : StripeSpace) (rm : RaidzMap) (n : Nat) (number : Nat → Nat) : Prop where
  cols : rm.rmCols = n
  place : ∀ c < n, rm.place c = s.columnPlace (number c)
  size : ∀ c < n, (rm.rmCol c).rcSize = s.size

/- The map of a member, once the checks have passed. -/
def map (s : StripeSpace) (env : RaidzEnv) (z : AggreZio) : RaidzMap :=
  aggreMap env z s.unitShift s.dcols s.nparity

theorem Member.shows (h : s.Member z) (env : RaidzEnv) {cols : Nat} {number : Nat → Nat}
    (hcols : (s.map env z).rmCols = cols)
    (hnumber : ∀ c < cols, number c = if cols = 1 then s.nparity + z.blkid else c)
    (hlt : ∀ c < cols, number c < s.dcols) :
    s.Shows (s.map env z) cols number := by
  refine ⟨hcols, ?_, fun _ _ => h.size⟩
  intro c hc
  have hplace : (s.map env z).place c =
      aggrePlace s.unitShift s.dcols z.ioOffset
        (if (s.map env z).rmCols = 1 then s.nparity + z.blkid else c) := rfl
  rw [hplace, hcols, ← hnumber c hc, aggrePlace_eq _ _ (hlt c hc), h.offset]
  rfl

theorem Member.rebuilt (h : s.Member z) (env : RaidzEnv) (vd : ChildVdevs) {rmOld : RaidzMap}
    (hold : rmOld.rmCols = s.dcols → s.Shows rmOld s.dcols id) :
    s.Shows (raidzAggreRaidzDone env vd z s.unitShift s.dcols s.nparity rmOld) s.dcols id := by
  unfold raidzAggreRaidzDone
  split
  · rename_i hall
    refine ⟨hall, ?_, ?_⟩
    · intro c hc
      rw [← (hold hall).place c hc]
      simp [RaidzMap.place, apply_ite RaidzCol.rcDevidx, apply_ite RaidzCol.rcOffset]
    · intro c hc
      rw [← (hold hall).size c hc]
      simp [apply_ite RaidzCol.rcSize]
  · refine ⟨rfl, ?_, fun _ _ => h.size⟩
    intro c hc
    rw [id, columnPlace, ← aggrePlace_eq _ _ hc, ← h.offset]
    rfl

/-- What every member gets: the first write the parity and its own column, the other writes and
the plain reads their own, a read of everything and the map after a read error all columns. -/
theorem Member.columns (h : s.Member z) (env : RaidzEnv) (vd : ChildVdevs) :
    (z.isWrite = true → z.blkid = 0 →
      s.Shows (s.map env z) (1 + s.nparity) id) ∧
    (z.isWrite = true → z.blkid ≠ 0 →
      s.Shows (s.map env z) 1 fun _ => s.nparity + z.blkid) ∧
    (z.isWrite = false → z.reportsParity = true →
      s.Shows (s.map env z) s.dcols id) ∧
    (z.isWrite = false → z.reportsParity = false →
      s.Shows (s.map env z) 1 fun _ => s.nparity + z.blkid) ∧
    (z.isWrite = false →
      s.Shows (raidzAggreRaidzDone env vd z s.unitShift s.dcols s.nparity (s.map env z))
        s.dcols id) := by
  have hblkid := h.blkid
  have hdef : s.ndata = s.dcols - s.nparity := rfl
  have hpos := s.parity_pos
  have hown : ∀ c < 1, (fun _ => s.nparity + z.blkid) c =
      if 1 = 1 then s.nparity + z.blkid else c := fun _ _ => rfl
  have hin : ∀ c < 1, (fun _ : Nat => s.nparity + z.blkid) c < s.dcols := by
    intro c _
    change s.nparity + z.blkid < s.dcols
    omega
  have hread : z.isWrite = false → z.reportsParity = true →
      s.Shows (s.map env z) s.dcols id := by
    intro hw hall
    refine h.shows env (by simp [map, aggreMap, hw, hall]) ?_ fun _ hc => hc
    intro c hc
    rw [if_neg (by omega)]
    rfl
  refine ⟨?_, ?_, hread, ?_, ?_⟩
  · intro hw hzero
    refine h.shows env (by simp [map, aggreMap, hw, hzero]) ?_ ?_
    · intro c hc
      rw [if_neg (by omega)]
      rfl
    · intro c hc
      rw [id]
      omega
  · intro hw hne
    exact h.shows env (by simp [map, aggreMap, hw, hne]) hown hin
  · intro hw hone
    exact h.shows env (by simp [map, aggreMap, hw, hone]) hown hin
  · intro hw
    refine h.rebuilt env vd fun hall => ?_
    cases hrep : z.reportsParity with
    | true => exact hread hw hrep
    | false =>
      have hone : (s.map env z).rmCols = 1 := by
        simp [map, aggreMap, hw, hrep]
      omega

/-- The columns of the stripe are the first rows of its allocation, each sector once. -/
theorem columns_occupy (s : StripeSpace) :
    Set.BijOn (fun p : Nat × Nat =>
        ((s.columnPlace p.1).1, (s.columnPlace p.1).2 + p.2 <<< s.unitShift))
      {p | p.1 < s.dcols ∧ p.2 < s.rows}
      (deviceSector s.unitShift s.dcols '' Set.Ico (s.offset >>> s.unitShift)
        (s.offset >>> s.unitShift + s.rows * s.dcols)) := by
  have hd : 0 < s.dcols := Nat.lt_of_le_of_lt (Nat.zero_le _) s.parity_lt
  have hcols : Set.BijOn _ _ (Set.Iio (s.rows * s.dcols + 0)) := columns_bijOn hd
  have hshift : Set.BijOn (s.offset >>> s.unitShift + ·) (Set.Iio (s.rows * s.dcols + 0))
      (Set.Ico (s.offset >>> s.unitShift) (s.offset >>> s.unitShift + s.rows * s.dcols)) :=
    bijOn_add_left _ _
  have hdevs := (deviceSector_injective s.unitShift s.dcols).injOn.bijOn_image (s :=
    Set.Ico (s.offset >>> s.unitShift) (s.offset >>> s.unitShift + s.rows * s.dcols))
  refine (hdevs.comp (hshift.comp hcols)).congr ?_
  rintro ⟨c, k⟩ _
  simp only [Function.comp_apply, columnPlace]
  rw [← Nat.add_assoc, deviceSector_row _ _ _ hd]

end StripeSpace

/-- The columns of an aggregated stripe: the two size checks never fire, every map that is built
for a member agrees with the stripe on device and offset of each column number, the columns are on
distinct devices, and together they are the first `size / sector * dcols` sectors of the
allocation. -/
theorem aggre_stripe_layout (s : StripeSpace) (env : RaidzEnv) (vd : ChildVdevs) :
    (∀ z, s.Member z →
      raidzAggreMapAlloc env z s.unitShift s.dcols s.nparity ≠ .error .totcheck ∧
      raidzAggreMapAlloc env z s.unitShift s.dcols s.nparity ≠ .error .bccheck ∧
      (z.typeOk = true → ∃ rm,
        raidzAggreMapAlloc env z s.unitShift s.dcols s.nparity = .ok rm ∧
        (z.isWrite = true → z.blkid = 0 → s.Shows rm (1 + s.nparity) id) ∧
        (z.isWrite = true → z.blkid ≠ 0 → s.Shows rm 1 fun _ => s.nparity + z.blkid) ∧
        (z.isWrite = false → z.reportsParity = true → s.Shows rm s.dcols id) ∧
        (z.isWrite = false → z.reportsParity = false →
          s.Shows rm 1 fun _ => s.nparity + z.blkid) ∧
        (z.isWrite = false →
          s.Shows (raidzAggreRaidzDone env vd z s.unitShift s.dcols s.nparity rm) s.dcols id))) ∧
    (∀ c < s.dcols, ∀ c' < s.dcols, (s.columnPlace c).1 = (s.columnPlace c').1 → c = c') ∧
    Set.BijOn (fun p : Nat × Nat =>
        ((s.columnPlace p.1).1, (s.columnPlace p.1).2 + p.2 <<< s.unitShift))
      {p | p.1 < s.dcols ∧ p.2 < s.size >>> s.unitShift}
      (deviceSector s.unitShift s.dcols '' Set.Ico (s.offset >>> s.unitShift)
        (s.offset >>> s.unitShift + (s.size >>> s.unitShift) * s.dcols)) ∧
    (s.size >>> s.unitShift) * s.dcols ≤ s.asize >>> s.unitShift := by
  refine ⟨?_, ?_, s.columns_occupy, ?_⟩
  · intro z h
    rw [h.alloc env]
    refine ⟨?_, ?_, ?_⟩
    · split <;> simp
    · split <;> simp
    · intro htype
      refine ⟨aggreMap env z s.unitShift s.dcols s.nparity, ?_, h.columns env vd⟩
      simp [htype]
  · intro c hc c' hc' heq
    exact stripe_column_device hc hc' heq
  · rw [s.asize_sectors]
    exact roundup_ge _ (Nat.succ_pos _)

/- Five devices, double parity, three members of two sectors each. -/
def fiveDevices : StripeSpace :=
  ⟨9, 5, 2, 4608, 1024, by decide, by decide, ⟨2, rfl⟩, by decide⟩

/- The write or the full read of a member. -/
def fiveDevicesZio (isWrite : Bool) (blkid : Nat) : AggreZio :=
  ⟨isWrite, true, true, 4608, 1024, fun _ => 0, blkid, fiveDevices.asize⟩

/-- The first member writes the parity columns and its own, the last one its own only, and a read
shows all five; the columns are on different devices and take the first ten of twelve sectors. -/
theorem aggre_stripe_layout_five_devices :
    let env : RaidzEnv := ⟨fun _ _ => 0, false⟩
    (∃ rm, raidzAggreMapAlloc env (fiveDevicesZio true 0) 9 5 2 = .ok rm ∧
      fiveDevices.Shows rm 3 id) ∧
    (∃ rm, raidzAggreMapAlloc env (fiveDevicesZio true 2) 9 5 2 = .ok rm ∧
      fiveDevices.Shows rm 1 fun _ => 4) ∧
    (∃ rm, raidzAggreMapAlloc env (fiveDevicesZio false 1) 9 5 2 = .ok rm ∧
      fiveDevices.Shows rm 5 id ∧
      fiveDevices.Shows (raidzAggreRaidzDone env ⟨fun _ => true, fun _ => false⟩
        (fiveDevicesZio false 1) 9 5 2 rm) 5 id) ∧
    (∀ c < 5, ∀ c' < 5, (fiveDevices.columnPlace c).1 = (fiveDevices.columnPlace c').1 → c = c') ∧
    Set.BijOn (fun p : Nat × Nat =>
        ((fiveDevices.columnPlace p.1).1, (fiveDevices.columnPlace p.1).2 + p.2 <<< 9))
      {p | p.1 < 5 ∧ p.2 < 2} (deviceSector 9 5 '' Set.Ico 9 19) ∧
    fiveDevices.asize >>> 9 = 12 := by
  intro env
  obtain ⟨hmaps, hdevices, hcover, -⟩ :=
    aggre_stripe_layout fiveDevices env ⟨fun _ => true, fun _ => false⟩
  have hmember : ∀ isWrite, ∀ blkid < 3, fiveDevices.Member (fiveDevicesZio isWrite blkid) :=
    fun isWrite blkid hblkid => ⟨rfl, rfl, hblkid, rfl⟩
  refine ⟨?_, ?_, ?_, hdevices, hcover, by decide⟩
  · obtain ⟨rm, halloc, hfirst, -⟩ := (hmaps _ (hmember true 0 (by decide))).2.2 rfl
    exact ⟨rm, halloc, hfirst rfl rfl⟩
  · obtain ⟨rm, halloc, -, hother, -⟩ := (hmaps _ (hmember true 2 (by decide))).2.2 rfl
    exact ⟨rm, halloc, hother rfl (by decide)⟩
  · obtain ⟨rm, halloc, -, -, hread, -, hrebuilt⟩ :=
      (hmaps _ (hmember false 1 (by decide))).2.2 rfl
    exact ⟨rm, halloc, hread rfl rfl, hrebuilt rfl⟩

end ClusterZfs

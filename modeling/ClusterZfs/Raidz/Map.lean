import ClusterZfs.Lib.Buffer
import Mathlib.Data.Nat.Bitwise

/-! The RAID-Z map: the columns of one block and how `vdev_raidz_map_alloc` lays them out.
Sizes and offsets are in bytes. Every column owns its buffer: parity buffers are allocated
apart, and the data columns are consecutive pieces of the zio's own buffer. -/
namespace ClusterZfs

structure RaidzCol where
  rcDevidx : Nat
  rcOffset : Nat
  rcSize : Nat
  rcData : Buf
  rcError : Nat
  rcTried : Bool
  rcSkipped : Bool
  rcNeedTry : Bool

structure RaidzMap where
  rmCols : Nat
  rmScols : Nat
  rmBigcols : Nat
  rmAsize : Nat
  rmMissingdata : Nat
  rmMissingparity : Nat
  rmFirstdatacol : Nat
  rmNskip : Nat
  rmSkipstart : Nat
  rmAggreDoall : Bool
  rmCol : Nat → RaidzCol

def vdevRaidzP : Nat := 0
def vdevRaidzQ : Nat := 1
def vdevRaidzR : Nat := 2

def RaidzMap.setCol (rm : RaidzMap) (c : Nat) (col : RaidzCol) : RaidzMap :=
  { rm with rmCol := Function.update rm.rmCol c col }

def RaidzMap.setData (rm : RaidzMap) (c : Nat) (buf : Buf) : RaidzMap :=
  rm.setCol c { rm.rmCol c with rcData := buf }

def RaidzMap.setSize (rm : RaidzMap) (c : Nat) (size : Nat) : RaidzMap :=
  rm.setCol c { rm.rmCol c with rcSize := size }

def RaidzMap.data (rm : RaidzMap) : Nat → Buf := fun c => (rm.rmCol c).rcData

/- The same map with other buffer contents: what every routine on the buffers returns. -/
def RaidzMap.withData (rm : RaidzMap) (d : Nat → Buf) : RaidzMap :=
  { rm with rmCol := fun c => { rm.rmCol c with rcData := d c } }

section Updates

variable (rm : RaidzMap) (c : Nat) (buf : Buf) (size : Nat) {c' : Nat} (d : Nat → Buf)
  (col : RaidzCol)

@[simp] theorem setCol_cols : (rm.setCol c col).rmCols = rm.rmCols := rfl
@[simp] theorem setCol_firstdatacol :
    (rm.setCol c col).rmFirstdatacol = rm.rmFirstdatacol := rfl
@[simp] theorem setCol_same : (rm.setCol c col).rmCol c = col := by
  simp [RaidzMap.setCol]
@[simp] theorem setData_cols : (rm.setData c buf).rmCols = rm.rmCols := rfl
@[simp] theorem setData_firstdatacol :
    (rm.setData c buf).rmFirstdatacol = rm.rmFirstdatacol := rfl
@[simp] theorem setSize_cols : (rm.setSize c size).rmCols = rm.rmCols := rfl
@[simp] theorem setSize_firstdatacol :
    (rm.setSize c size).rmFirstdatacol = rm.rmFirstdatacol := rfl

theorem setCol_other (h : c' ≠ c) :
    (rm.setCol c col).rmCol c' = rm.rmCol c' := by
  simp [RaidzMap.setCol, h]

theorem setData_same : (rm.setData c buf).rmCol c = { rm.rmCol c with rcData := buf } :=
  setCol_same rm c _

theorem setData_other (h : c' ≠ c) : (rm.setData c buf).rmCol c' = rm.rmCol c' :=
  setCol_other rm c _ h

@[simp] theorem setSize_rcSize (c' : Nat) : ((rm.setSize c size).rmCol c').rcSize =
    if c' = c then size else (rm.rmCol c').rcSize := by
  obtain rfl | h := eq_or_ne c' c <;> simp [RaidzMap.setSize, setCol_other, *]

@[simp] theorem setSize_rcData (c' : Nat) :
    ((rm.setSize c size).rmCol c').rcData = (rm.rmCol c').rcData := by
  obtain rfl | h := eq_or_ne c' c <;> simp [RaidzMap.setSize, setCol_other, *]

@[simp] theorem setData_rcSize (c' : Nat) :
    ((rm.setData c buf).rmCol c').rcSize = (rm.rmCol c').rcSize := by
  obtain rfl | h := eq_or_ne c' c <;> simp [setData_same, setData_other, *]

@[simp] theorem setData_rcError (c' : Nat) :
    ((rm.setData c buf).rmCol c').rcError = (rm.rmCol c').rcError := by
  obtain rfl | h := eq_or_ne c' c <;> simp [setData_same, setData_other, *]

@[simp] theorem setData_rcData_same : ((rm.setData c buf).rmCol c).rcData = buf := by
  rw [setData_same]

@[simp] theorem withData_rcData : ((rm.withData d).rmCol c).rcData = d c := rfl
@[simp] theorem withData_rcSize :
    ((rm.withData d).rmCol c).rcSize = (rm.rmCol c).rcSize := rfl
@[simp] theorem withData_rcError :
    ((rm.withData d).rmCol c).rcError = (rm.rmCol c).rcError := rfl
@[simp] theorem withData_cols : (rm.withData d).rmCols = rm.rmCols := rfl
@[simp] theorem withData_firstdatacol :
    (rm.withData d).rmFirstdatacol = rm.rmFirstdatacol := rfl
@[simp] theorem withData_data : (rm.withData d).data = d := rfl
@[simp] theorem withData_withData (e : Nat → Buf) :
    (rm.withData d).withData e = rm.withData e := rfl
@[simp] theorem withData_self : rm.withData rm.data = rm := rfl

theorem setData_eq_withData :
    rm.setData c buf = rm.withData (Function.update rm.data c buf) := by
  simp only [RaidzMap.setData, RaidzMap.setCol, RaidzMap.withData, RaidzMap.mk.injEq, true_and]
  funext c'
  obtain rfl | h := eq_or_ne c' c <;> simp [RaidzMap.data, *]

@[simp] theorem setData_withData : (rm.setData c buf).withData d = rm.withData d := by
  rw [setData_eq_withData, withData_withData]

/-- Two sizes that were changed for a while and are put back. -/
theorem setSize_restored {x y : Nat} (hxy : x ≠ y) (s s' : Nat) :
    ((((rm.setSize x s).setSize y s').withData d).setSize x (rm.rmCol x).rcSize).setSize y
      (rm.rmCol y).rcSize = rm.withData d := by
  simp only [RaidzMap.setSize, RaidzMap.setCol, RaidzMap.withData, RaidzMap.mk.injEq, true_and]
  funext c
  obtain rfl | hy := eq_or_ne c y
  · simp [hxy.symm]
  · obtain rfl | hx := eq_or_ne c x <;> simp [*]

end Updates

/-- What parity generation and reconstruction rely on: whole words, parity columns and the
first data column of one size, and no data column longer than that. -/
structure RaidzMap.WellFormed (rm : RaidzMap) : Prop where
  parity_pos : 0 < rm.rmFirstdatacol
  parity_le : rm.rmFirstdatacol ≤ 3
  cols_le : rm.rmCols ≤ 255
  words : ∀ c, 8 ∣ (rm.rmCol c).rcSize
  head_size : ∀ c, c ≤ rm.rmFirstdatacol → rm.rmFirstdatacol < rm.rmCols →
    (rm.rmCol c).rcSize = (rm.rmCol 0).rcSize
  size_anti : ∀ c c', c ≤ c' → (rm.rmCol c').rcSize ≤ (rm.rmCol c).rcSize

theorem RaidzMap.WellFormed.lt_parity {rm : RaidzMap} (wf : rm.WellFormed) {c k : Nat}
    (hk : k < (rm.rmCol c).rcSize) : k < (rm.rmCol vdevRaidzP).rcSize :=
  Nat.lt_of_lt_of_le hk (wf.size_anti 0 c (Nat.zero_le c))

def roundup (x y : Nat) : Nat := (x + (y - 1)) / y * y

/- What a function of this file needs from its surroundings: the content of a buffer fresh
from `zio_buf_alloc`, and the tunable that turns the special reconstruction routines off. -/
structure RaidzEnv where
  zioBufAlloc : Nat → Buf
  defaultToGeneral : Bool

/- The layout numbers that `vdev_raidz_map_alloc` computes before it builds the columns. -/
structure RaidzLayout where
  unitShift : Nat
  dcols : Nat
  nparity : Nat
  ioOffset : Nat
  ioSize : Nat

namespace RaidzLayout

variable (l : RaidzLayout)

def b : Nat := l.ioOffset >>> l.unitShift
def s : Nat := l.ioSize >>> l.unitShift
def f : Nat := l.b % l.dcols
def o : Nat := (l.b / l.dcols) <<< l.unitShift
def q : Nat := l.s / (l.dcols - l.nparity)
def r : Nat := l.s - l.q * (l.dcols - l.nparity)
def bc : Nat := if l.r = 0 then 0 else l.r + l.nparity
def tot : Nat := l.s + l.nparity * (l.q + if l.r = 0 then 0 else 1)
def acols : Nat := if l.q = 0 then l.bc else l.dcols
def scols : Nat := if l.q = 0 then min l.dcols (roundup l.bc (l.nparity + 1)) else l.dcols

def rcSize (c : Nat) : Nat :=
  if c ≥ l.acols then 0
  else if c < l.bc then (l.q + 1) <<< l.unitShift
  else l.q <<< l.unitShift

def asize : Nat := forRange 0 l.scols (fun c a => a + l.rcSize c) 0

/- Where data column `c` starts in the buffer of the zio. -/
def dataStart (c : Nat) : Nat := forRange l.nparity c (fun j a => a + l.rcSize j) 0

end RaidzLayout

def vdevRaidzMapAlloc (env : RaidzEnv) (l : RaidzLayout) (ioData : Buf) : RaidzMap :=
  let column (c : Nat) : RaidzCol :=
    let col := l.f + c
    { rcDevidx := if col ≥ l.dcols then col - l.dcols else col
      rcOffset := if col ≥ l.dcols then l.o + 1 <<< l.unitShift else l.o
      rcSize := l.rcSize c
      rcData := if c < l.nparity then env.zioBufAlloc (l.rcSize c)
        else fun k => ioData (l.dataStart c + k)
      rcError := 0
      rcTried := false
      rcSkipped := false
      rcNeedTry := false }
  -- single parity swaps the devices of the first two columns in every other megabyte
  let swap : Bool := l.nparity = 1 && l.ioOffset.testBit 20
  let place (c : Nat) : RaidzCol :=
    if swap && c == 0 then
      { column 0 with rcDevidx := (column 1).rcDevidx, rcOffset := (column 1).rcOffset }
    else if swap && c == 1 then
      { column 1 with rcDevidx := (column 0).rcDevidx, rcOffset := (column 0).rcOffset }
    else column c
  { rmCols := l.acols
    rmScols := l.scols
    rmBigcols := l.bc
    rmAsize := roundup l.asize ((l.nparity + 1) <<< l.unitShift)
    rmMissingdata := 0
    rmMissingparity := 0
    rmFirstdatacol := l.nparity
    rmNskip := roundup l.tot (l.nparity + 1) - l.tot
    rmSkipstart := if swap && l.bc == 0 then 1 else l.bc
    rmAggreDoall := false
    rmCol := place }

/-- The geometry a RAID-Z vdev can have: one to three parity devices, at most 255 devices in
all, and sectors of at least eight bytes (the smallest sector has 512). -/
structure RaidzLayout.Valid (l : RaidzLayout) : Prop where
  nparity_pos : 0 < l.nparity
  nparity_le : l.nparity ≤ 3
  nparity_lt : l.nparity < l.dcols
  dcols_le : l.dcols ≤ 255
  sector : 3 ≤ l.unitShift

namespace RaidzLayout

variable {l : RaidzLayout}

theorem rcSize_words (h : l.Valid) (c : Nat) : 8 ∣ l.rcSize c := by
  have hs : 8 ∣ 2 ^ l.unitShift := pow_dvd_pow 2 h.sector
  unfold rcSize
  split
  · exact dvd_zero 8
  · split <;> exact Nat.shiftLeft_eq _ _ ▸ hs.mul_left _

theorem rcSize_anti (c c' : Nat) (h : c ≤ c') : l.rcSize c' ≤ l.rcSize c := by
  have hq : l.q <<< l.unitShift ≤ (l.q + 1) <<< l.unitShift := by
    simp only [Nat.shiftLeft_eq]
    exact Nat.mul_le_mul_right _ (Nat.le_succ _)
  unfold rcSize
  split
  · exact Nat.zero_le _
  · have ha : ¬ c ≥ l.acols := by omega
    rw [if_neg ha]
    split
    · have hb : c < l.bc := by omega
      rw [if_pos hb]
    · split
      · exact hq
      · exact Nat.le_refl _

theorem r_lt (h : l.Valid) : l.r < l.dcols - l.nparity := by
  have hd : 0 < l.dcols - l.nparity := Nat.sub_pos_of_lt h.nparity_lt
  have hm : l.r = l.s % (l.dcols - l.nparity) := by
    rw [r, q, Nat.mod_eq_sub_mul_div, Nat.mul_comm]
  rw [hm]
  exact Nat.mod_lt _ hd

theorem acols_le (h : l.Valid) : l.acols ≤ l.dcols := by
  have hr := r_lt h
  unfold acols bc
  split
  · split <;> omega
  · exact Nat.le_refl _

/- The parity columns and the first data column are big columns together or not at all. -/
theorem rcSize_head (c : Nat) (hc : c ≤ l.nparity) (data : l.nparity < l.acols) :
    l.rcSize c = l.rcSize 0 := by
  have hbc : l.bc = 0 ∨ l.nparity < l.bc := by
    unfold bc
    split <;> omega
  have ha : ¬ c ≥ l.acols := by omega
  have ha0 : ¬ 0 ≥ l.acols := by omega
  unfold rcSize
  rw [if_neg ha, if_neg ha0]
  rcases hbc with hz | hp
  · simp [hz]
  · have hb : c < l.bc := by omega
    have hb0 : 0 < l.bc := by omega
    rw [if_pos hb, if_pos hb0]

end RaidzLayout

section MapAlloc

variable (env : RaidzEnv) (l : RaidzLayout) (ioData : Buf)

theorem mapAlloc_rcSize (c : Nat) :
    ((vdevRaidzMapAlloc env l ioData).rmCol c).rcSize = l.rcSize c := by
  simp only [vdevRaidzMapAlloc]
  split
  · simp_all
  · split
    · simp_all
    · rfl

theorem mapAlloc_wellFormed (h : l.Valid) : (vdevRaidzMapAlloc env l ioData).WellFormed where
  parity_pos := h.nparity_pos
  parity_le := h.nparity_le
  cols_le := Nat.le_trans (RaidzLayout.acols_le h) h.dcols_le
  words c := by
    rw [mapAlloc_rcSize]
    exact RaidzLayout.rcSize_words h c
  head_size c hc data := by
    rw [mapAlloc_rcSize, mapAlloc_rcSize]
    exact RaidzLayout.rcSize_head c hc data
  size_anti c c' hc := by
    rw [mapAlloc_rcSize, mapAlloc_rcSize]
    exact RaidzLayout.rcSize_anti c c' hc

end MapAlloc

end ClusterZfs

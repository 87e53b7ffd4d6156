import ClusterZfs.RangeTree.Sets
import ClusterZfs.SpaceMap.Encoding

/-! `space_map.c`: a log of allocated and freed ranges in an object of 64-bit words. The histogram
in the header is not read by what is modelled here and is left out. -/
namespace ClusterZfs

/- What a space map is opened with. Every offset of the region fits in the 47 bits of an entry, and
the block size is that of an object. -/
structure MapRegion where
  smStart : Nat
  smSize : Nat
  smShift : Nat
  smBlksz : Nat
  start_aligned : 2 ^ smShift ∣ smStart
  size_pos : 0 < smSize
  bound : smStart + smSize < 2 ^ 64
  offsets : smSize ≤ 2 ^ 47 * 2 ^ smShift
  blksz_pos : 0 < smBlksz
  blksz_words : 8 ∣ smBlksz

structure SpaceMap where
  region : MapRegion
  smLength : Nat
  smAlloc : Nat
  smpObjsize : Nat
  smpAlloc : Nat
  object : Nat → Nat

/- The segments of a range tree in the order of its walk. -/
structure SegList where
  segs : List RangeSeg
  gapped : Gapped segs

def dmuWrite (object : Nat → Nat) (offset : Nat) (entries : List Nat) (i : Nat) : Nat :=
  if offset / 8 ≤ i ∧ i < offset / 8 + entries.length then entries.getD (i - offset / 8) 0
  else object i

def dmuRead (object : Nat → Nat) (offset size : Nat) : List Nat :=
  (List.range (size / 8)).map fun i => object (offset / 8 + i)

/- `space_map_write` between two entries: the map and the filled part of `entry_map`. -/
structure EntryMap where
  sm : SpaceMap
  entries : List Nat

namespace EntryMap

def flush (w : EntryMap) (size : Nat) : EntryMap :=
  ⟨{ w.sm with
      object := dmuWrite w.sm.object w.sm.smpObjsize w.entries
      smpObjsize := w.sm.smpObjsize + size }, []⟩

def put (w : EntryMap) (entry : Nat) : EntryMap :=
  let w := if w.entries.length = w.sm.region.smBlksz / 8 then w.flush w.sm.region.smBlksz else w
  { w with entries := w.entries ++ [entry] }

/- The entries of one segment: `size` is what is left of it, in units of `sm_shift`. -/
def putRuns (maptype : Maptype) : Nat → EntryMap → Nat → Nat → Option EntryMap
  | 0, w, _, size => if size = 0 then some w else none
  | fuel + 1, w, start, size =>
    if size = 0 then some w
    else
      let runLen := min size smRunMax
      putRuns maptype fuel (w.put (smEntry start maptype runLen)) (start + runLen) (size - runLen)

/- The loop over the segments, with the running `total`. -/
def putSegs (maptype : Maptype) : List RangeSeg → EntryMap → Nat → Option (EntryMap × Nat)
  | [], w, total => some (w, total)
  | rs :: segs, w, total =>
    let size := (rs.rsEnd - rs.rsStart) >>> w.sm.region.smShift
    let start := (rs.rsStart - w.sm.region.smStart) >>> w.sm.region.smShift
    let total := uint64 (total + size <<< w.sm.region.smShift)
    (putRuns maptype size w start size).bind fun w => putSegs maptype segs w total

end EntryMap

/- The header is brought up to date before the entries are written. -/
def SpaceMap.account (sm : SpaceMap) (maptype : Maptype) (space : Nat) : SpaceMap :=
  let smpAlloc := if maptype = .alloc then uint64 (sm.smpAlloc + space)
    else uint64 (sm.smpAlloc + (2 ^ 64 - space))
  { sm with smpAlloc }

def spaceMapWrite (sm : SpaceMap) (rt : SegList) (maptype : Maptype) (syncpass txg : Nat) :
    Option SpaceMap :=
  let space := spaceOf rt.segs
  if space = 0 then some sm
  else
    let sm := sm.account maptype space
    (EntryMap.putSegs maptype rt.segs ⟨sm, [smDebugEntry maptype syncpass txg]⟩ 0).bind
      fun (w, total) =>
        let w := if w.entries ≠ [] then w.flush (w.entries.length * 8) else w
        if total = space then some w.sm else none

/- The body of the inner loop of `space_map_load`. -/
def spaceMapLoadEntry (r : MapRegion) (maptype : Maptype) (rt : RangeSet) (e : Nat) :
    Option RangeSet :=
  if smDebugDecode e ≠ 0 then some rt
  else
    let offset := uint64 (uint64 (smOffsetDecode e <<< r.smShift) + r.smStart)
    let size := uint64 (smRunDecode e <<< r.smShift)
    if offset % 2 ^ r.smShift ≠ 0 ∨ size % 2 ^ r.smShift ≠ 0 ∨ ¬ offset ≥ r.smStart ∨
      ¬ uint64 (offset + size) ≤ uint64 (r.smStart + r.smSize) then none
    else if smTypeDecode e = maptype.code then
      if ¬ rt.card + size ≤ r.smSize then none else rt.add offset size
    else rt.remove offset size

/- The outer loop; `dmuError` is what `dmu_read` returns at an offset. -/
def spaceMapLoadLoop (sm : SpaceMap) (maptype : Maptype) (dmuError : Nat → Nat) :
    Nat → Nat → RangeSet → Option (Nat × RangeSet)
  | 0, _, _ => none
  | fuel + 1, offset, rt =>
    if offset < sm.smLength then
      let size := min (sm.smLength - offset) (max sm.region.smBlksz 512)
      if size % 8 ≠ 0 then none
      else if dmuError offset ≠ 0 then some (dmuError offset, rt)
      else
        ((dmuRead sm.object offset size).foldlM (spaceMapLoadEntry sm.region maptype) rt).bind
          (spaceMapLoadLoop sm maptype dmuError fuel (offset + max sm.region.smBlksz 512))
    else some (0, rt)

def spaceMapLoad (sm : SpaceMap) (rt : RangeSet) (maptype : Maptype) (dmuError : Nat → Nat) :
    Option (Nat × RangeSet) :=
  if rt.card ≠ 0 then none
  else
    let start := if maptype = .free then rt.add sm.region.smStart sm.region.smSize else some rt
    let space := if maptype = .free then uint64 (sm.region.smSize + (2 ^ 64 - sm.smAlloc))
      else sm.smAlloc
    start.bind fun rt =>
      (spaceMapLoadLoop sm maptype dmuError (sm.smLength + 1) 0 rt).bind fun (error, rt) =>
        if error = 0 then if rt.card = space then some (0, rt) else none
        else some (error, ∅)

def spaceMapUpdate (sm : SpaceMap) : SpaceMap :=
  { sm with smAlloc := sm.smpAlloc, smLength := sm.smpObjsize }

end ClusterZfs

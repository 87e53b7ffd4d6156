import ClusterZfs.Lib.Copier

/-! Zero-length encoding. A chunk starts with a byte that says how many literal bytes follow, or,
from `n` on, how many zeros the chunk stands for. -/
namespace ClusterZfs

namespace Zle

/- `while (src < MIN(last, s_end) && src[0] == 0) src++`; `stop` is the minimum, and every pass
comes nearer to it. -/
def zeroRun (m : Mem) (stop : Nat) : Nat → Nat → Option Nat
  | 0, src => some src
  | k + 1, src =>
    if src < stop then
      (m src).bind fun b => if b = 0 then zeroRun m stop k (src + 1) else some src
    else some src

/- `while (src < MIN(last, s_end) - 1 && (src[0] | src[1])) *dst++ = *src++` -/
def literalRun (m : Mem) (stop : Nat) : Nat → Copier → Option Copier
  | 0, c => some c
  | k + 1, c =>
    if c.src + 1 < stop then
      (m c.src).bind fun b => (m (c.src + 1)).bind fun b' =>
        if b ||| b' ≠ 0 then (c.copy m).bind (literalRun m stop k) else some c
    else some c

/- The zero branch; `dst` is behind the length byte already. -/
def zeroChunk (m : Mem) (sEnd n len : Nat) (c : Copier) : Option Copier :=
  let stop := min (c.src + (256 - n)) sEnd
  (zeroRun m stop (stop - c.src) c.src).bind fun src =>
    { c with src := src }.patch len (UInt8.ofNat (src - c.src - 1 + n))

def literalChunk (m : Mem) (sEnd n len : Nat) (c : Copier) : Option Copier :=
  let stop := min (c.src + n) sEnd
  (literalRun m stop (stop - c.src) c).bind fun c₁ =>
    (m c₁.src).bind fun b => (if b ≠ 0 then c₁.copy m else some c₁).bind fun c₂ =>
      c₂.patch len (UInt8.ofNat (c₂.src - c.src - 1))

/- The outer loop. A run that needs more passes than there are has no result. -/
def compressLoop (m : Mem) (sEnd n : Nat) : Nat → Copier → Option Copier
  | 0, _ => none
  | k + 1, c =>
    if c.src < sEnd ∧ c.dst + 1 < c.out.length then
      let c₁ := { c with dst := c.dst + 1 }
      (m c.src).bind fun b =>
        if b = 0 then (zeroChunk m sEnd n c.dst c₁).bind (compressLoop m sEnd n k)
        else if c.out.length - c₁.dst < n then some c₁
        else (literalChunk m sEnd n c.dst c₁).bind (compressLoop m sEnd n k)
    else some c

/- The value returned and the output buffer, which is `d` before the call. -/
def zleCompress (s d : Bytes) (n : Nat) : Option (Nat × Bytes) :=
  (compressLoop (memOf s) s.length n (s.length + 1) ⟨0, 0, d⟩).map fun c =>
    (if c.src = s.length then c.dst else s.length, c.out)

def decompressLoop (m : Mem) (sEnd n : Nat) : Nat → Copier → Option Copier
  | 0, _ => none
  | k + 1, c =>
    if c.src < sEnd ∧ c.dst < c.out.length then
      (m c.src).bind fun b =>
        let c₁ := { c with src := c.src + 1 }
        let len := 1 + b.toNat
        (if len ≤ n then c₁.copies m len else c₁.fill 0 (len - n)).bind (decompressLoop m sEnd n k)
    else some c

def zleDecompress (s d : Bytes) (n : Nat) : Option (Int × Bytes) :=
  (decompressLoop (memOf s) s.length n (s.length + 1) ⟨0, 0, d⟩).map fun c =>
    (if c.dst = c.out.length then 0 else -1, c.out)

/- A chunk and the bytes it stands for. -/
inductive Chunk (n : Nat) : Bytes → Bytes → Prop
  | zeros {k : Nat} : 0 < k → k ≤ 256 - n →
      Chunk n [UInt8.ofNat (k - 1 + n)] (List.replicate k 0)
  | literal {bs : Bytes} : 0 < bs.length → bs.length ≤ n →
      Chunk n (UInt8.ofNat (bs.length - 1) :: bs) bs

theorem Chunk.pos {n : Nat} {x y : Bytes} (h : Chunk n x y) : 0 < x.length ∧ 0 < y.length := by
  cases h with
  | zeros hpos _ => exact ⟨Nat.one_pos, by rwa [List.length_replicate]⟩
  | literal hpos _ => exact ⟨Nat.succ_pos _, hpos⟩

/- Chunk after chunk. -/
inductive Encodes (n : Nat) : Bytes → Bytes → Prop
  | nil : Encodes n [] []
  | cons {x e y s : Bytes} : Chunk n x y → Encodes n e s → Encodes n (x ++ e) (y ++ s)

theorem Encodes.snoc {n : Nat} {e s x y : Bytes} (h : Encodes n e s) (hchunk : Chunk n x y) :
    Encodes n (e ++ x) (s ++ y) := by
  induction h with
  | nil => simpa using Encodes.cons hchunk .nil
  | cons hfirst _ ih =>
    rw [List.append_assoc, List.append_assoc]
    exact .cons hfirst ih

section Compress

variable {k : Nat}

variable {s : Bytes} {n : Nat} {c : Copier}

theorem zeroRun_spec (stop src : Nat) (hstop : stop ≤ s.length) (hk : stop - src ≤ k)
    (hsrc : src ≤ stop) :
    ∃ src', zeroRun (memOf s) stop k src = some src' ∧ src ≤ src' ∧ src' ≤ stop ∧
      (src < stop → s[src]? = some 0 → src < src') ∧
      s.take src' = s.take src ++ List.replicate (src' - src) 0 := by
  induction k generalizing src with
  | zero =>
    refine ⟨src, rfl, le_rfl, hsrc, fun hlt => ?_, by simp⟩
    omega
  | succ k ih =>
    by_cases hlt : src < stop
    · have hin : src < s.length := by omega
      have hread : memOf s src = some s[src] := List.getElem?_eq_getElem hin
      by_cases hzero : s[src] = 0
      · obtain ⟨src', hrun, hlo, hhi, -, htake⟩ := ih (src + 1) (by omega) hlt
        refine ⟨src', by simp [zeroRun, hlt, hread, hzero, hrun], by omega, hhi,
          fun _ _ => by omega, ?_⟩
        have hcount : src' - src = src' - (src + 1) + 1 := by omega
        rw [htake, hcount, List.replicate_succ, List.take_succ_eq_append_getElem hin, hzero,
          List.append_assoc, List.singleton_append]
      · refine ⟨src, by simp [zeroRun, hlt, hread, hzero], le_rfl, hsrc, fun _ hz => ?_, by simp⟩
        rw [List.getElem?_eq_getElem hin] at hz
        exact absurd (Option.some.inj hz) hzero
    · exact ⟨src, by simp [zeroRun, hlt], le_rfl, hsrc, fun h => absurd h hlt, by simp⟩

/- The loop stays in front of the last byte it may take. -/
theorem literalRun_spec {stop : Nat} (hstop : stop ≤ s.length) (hsrc : c.src < stop)
    (hout : c.dst + (stop - c.src) ≤ c.out.length) :
    ∃ c' bs, literalRun (memOf s) stop k c = some c' ∧ Copier.Wrote c c' bs.length bs ∧
      c'.src < stop ∧ s.take c'.src = s.take c.src ++ bs := by
  induction k generalizing c with
  | zero => exact ⟨c, [], rfl, .refl c, hsrc, by simp⟩
  | succ k ih =>
    by_cases hlt : c.src + 1 < stop
    · have hin : c.src < s.length := by omega
      have hnext : c.src + 1 < s.length := by omega
      have hread : memOf s c.src = some s[c.src] := List.getElem?_eq_getElem hin
      have hread' : memOf s (c.src + 1) = some s[c.src + 1] := List.getElem?_eq_getElem hnext
      by_cases hboth : s[c.src] ||| s[c.src + 1] = 0
      · refine ⟨c, [], ?_, .refl c, hsrc, by simp⟩
        simp only [literalRun, if_pos hlt, hread, hread', Option.bind_some, hboth, ne_eq,
          not_true_eq_false, if_false]
      · obtain ⟨c₁, hcopy, hfirst⟩ := Copier.copy_wrote (List.getElem?_eq_getElem hin)
          (by omega : c.dst < c.out.length)
        have hsrc₁ := hfirst.src
        have hdst₁ := hfirst.dst
        have hlength := hfirst.length
        rw [List.length_singleton] at hdst₁
        obtain ⟨c', bs, hrun, hthen, hend, htake⟩ := ih (c := c₁) (by omega) (by omega)
        refine ⟨c', s[c.src] :: bs, ?_, ?_, hend, ?_⟩
        · simp only [literalRun, if_pos hlt, hread, hread', Option.bind_some, hboth, ne_eq,
            not_false_eq_true, if_true, hcopy, hrun]
        · have hall := hfirst.trans hthen
          rwa [List.singleton_append, Nat.add_comm 1] at hall
        · rw [htake, hsrc₁, List.take_succ_eq_append_getElem hin, List.append_assoc,
            List.singleton_append]
    · exact ⟨c, [], by simp [literalRun, hlt], .refl c, hsrc, by simp⟩

/- What a pass of the outer loop leaves: one chunk more, for the bytes it went past. -/
structure Advanced (s : Bytes) (n : Nat) (c c' : Copier) : Prop where
  chunk : ∃ x y, Chunk n x y ∧ c'.out.take c'.dst = c.out.take c.dst ++ x ∧
    s.take c'.src = s.take c.src ++ y
  src : c.src < c'.src
  inside : c'.src ≤ s.length
  dst : c'.dst ≤ c'.out.length
  length : c'.out.length = c.out.length

theorem advanced_of_wrote {c' : Copier} {x y : Bytes} (h : Copier.Wrote c c' y.length x)
    (hchunk : Chunk n x y) (htake : s.take c'.src = s.take c.src ++ y) (hin : c'.src ≤ s.length)
    (hroom : c.dst + x.length ≤ c.out.length) : Advanced s n c c' := by
  have hsrc := h.src
  have hpos := hchunk.pos.2
  refine ⟨⟨x, y, hchunk, h.out, htake⟩, by omega, hin, ?_, h.length⟩
  rw [h.dst, h.length]
  exact hroom

/- The length byte is passed before it is known. -/
theorem wrote_length (h : c.dst < c.out.length) :
    Copier.Wrote c { c with dst := c.dst + 1 } 0 [c.out[c.dst]] :=
  ⟨rfl, rfl, List.take_succ_eq_append_getElem h, rfl⟩

theorem zeroChunk_advanced (hn : n ≤ 255) (hsrc : c.src < s.length)
    (hzero : s[c.src]? = some 0) (hdst : c.dst < c.out.length) :
    ∃ c', zeroChunk (memOf s) s.length n c.dst { c with dst := c.dst + 1 } = some c' ∧
      Advanced s n c c' := by
  obtain ⟨src', hrun, -, hhi, hmore, htake⟩ :=
    zeroRun_spec (min (c.src + (256 - n)) s.length) c.src (Nat.min_le_right _ _) le_rfl (by omega)
  have hlt := hmore (by omega) hzero
  -- the pass over the zeros does not touch the output
  have hpast : Copier.Wrote c { c with src := src', dst := c.dst + 1 }
      (List.replicate (src' - c.src) (0 : UInt8)).length [c.out[c.dst]] :=
    ⟨by simp only [List.length_replicate]; omega, rfl, (wrote_length hdst).out, rfl⟩
  obtain ⟨c', hpatch, hwrote⟩ := Copier.patch_wrote
    (b := UInt8.ofNat (src' - c.src - 1 + n)) hpast hdst
  have hend : c'.src = src' := by
    rw [hwrote.src, List.length_replicate]
    omega
  refine ⟨c', ?_, advanced_of_wrote hwrote (.zeros ?_ ?_) (hend ▸ htake) (by omega) hdst⟩
  · simp only [zeroChunk, hrun, Option.bind_some]
    exact hpatch
  · omega
  · omega

theorem literalChunk_advanced (hn : 1 ≤ n) {b : UInt8} (hsrc : c.src < s.length)
    (hb : s[c.src]? = some b) (hne : b ≠ 0) (hroom : c.dst + 1 + n ≤ c.out.length) :
    ∃ c', literalChunk (memOf s) s.length n c.dst { c with dst := c.dst + 1 } = some c' ∧
      Advanced s n c c' := by
  have hopen := wrote_length (c := c) (by omega)
  obtain ⟨c₁, bs, hrun, hwrote, hbefore, htake⟩ :=
    literalRun_spec (c := { c with dst := c.dst + 1 }) (k := min (c.src + n) s.length - c.src)
      (Nat.min_le_right (c.src + n) s.length) (by simp only; omega) (by simp only; omega)
  have hsrc₁ : c₁.src = c.src + bs.length := hwrote.src
  have hdst₁ : c₁.dst = c.dst + 1 + bs.length := hwrote.dst
  have hlength₁ : c₁.out.length = c.out.length := hwrote.length
  have hin : c₁.src < s.length := by omega
  have hread : memOf s c₁.src = some s[c₁.src] := List.getElem?_eq_getElem hin
  -- the last byte is copied unless it is zero; the first byte is not, so some byte is
  have hlast : ∃ c₂ ys, (if s[c₁.src] ≠ 0 then c₁.copy (memOf s) else some c₁) = some c₂ ∧
      Copier.Wrote { c with dst := c.dst + 1 } c₂ ys.length ys ∧ 0 < ys.length ∧
      ys.length ≤ n ∧ s.take c₂.src = s.take c.src ++ ys ∧ c₂.src ≤ s.length := by
    by_cases hzero : s[c₁.src] = 0
    · refine ⟨c₁, bs, by simp [hzero], hwrote, ?_, by omega, htake, hin.le⟩
      refine Nat.pos_of_ne_zero fun hnone => ?_
      have hsame : c₁.src = c.src := by omega
      rw [List.getElem?_eq_getElem hsrc] at hb
      refine hne ((Option.some.inj hb).symm.trans ?_)
      simpa only [hsame] using hzero
    · obtain ⟨c₂, hcopy, hone⟩ := Copier.copy_wrote (List.getElem?_eq_getElem hin)
        (by omega : c₁.dst < c₁.out.length)
      refine ⟨c₂, bs ++ [s[c₁.src]], by simp [hzero, hcopy], ?_, by simp, ?_, ?_,
        hone.src ▸ hin⟩
      · simpa using hwrote.trans hone
      · rw [List.length_append, List.length_singleton]
        omega
      · rw [hone.src, List.take_succ_eq_append_getElem hin, htake, List.append_assoc]
  obtain ⟨c₂, ys, hcopied, hall, hpos, hle, htaken, hinside⟩ := hlast
  have hsrc₂ : c₂.src = c.src + ys.length := hall.src
  have hdst₂ : c₂.dst = c.dst + 1 + ys.length := hall.dst
  have hlength₂ : c₂.out.length = c.out.length := hall.length
  have hopened : Copier.Wrote c c₂ ys.length (c.out[c.dst] :: ys) := by
    simpa using hopen.trans hall
  obtain ⟨c', hpatch, hdone⟩ :=
    Copier.patch_wrote (b := UInt8.ofNat (ys.length - 1)) hopened (by omega)
  have hend : c'.src = c₂.src := hdone.src.trans hsrc₂.symm
  refine ⟨c', ?_, advanced_of_wrote hdone (.literal hpos hle) (hend ▸ htaken) (hend ▸ hinside) ?_⟩
  · have hcount : c₂.src - c.src - 1 = ys.length - 1 := by omega
    simp only [literalChunk, hrun, Option.bind_some, hread, hcopied, hcount]
    exact hpatch
  · rw [List.length_cons]
    omega

/- The output so far stands for the input so far. -/
structure Compressed (s : Bytes) (n : Nat) (c : Copier) : Prop where
  encodes : Encodes n (c.out.take c.dst) (s.take c.src)
  src : c.src ≤ s.length
  dst : c.dst ≤ c.out.length

theorem Compressed.advance {c' : Copier} (h : Compressed s n c) (ha : Advanced s n c c') :
    Compressed s n c' := by
  obtain ⟨x, y, hchunk, hout, hsrc⟩ := ha.chunk
  refine ⟨?_, ha.inside, ha.dst⟩
  rw [hout, hsrc]
  exact h.encodes.snoc hchunk

/-- The loop comes to an end: everything is compressed, or some input is left over. -/
theorem compressLoop_spec (hn : 1 ≤ n) (hn' : n ≤ 255) (h : Compressed s n c)
    (hk : s.length - c.src < k) :
    ∃ c', compressLoop (memOf s) s.length n k c = some c' ∧ c'.out.length = c.out.length ∧
      (c'.src = s.length → Compressed s n c') := by
  induction k generalizing c with
  | zero => omega
  | succ k ih =>
    by_cases hmore : c.src < s.length ∧ c.dst + 1 < c.out.length
    · obtain ⟨hsrc, hdst⟩ := hmore
      have hb : s[c.src]? = some s[c.src] := List.getElem?_eq_getElem hsrc
      have hread : memOf s c.src = some s[c.src] := hb
      have hgo : ∀ c₁, Advanced s n c c₁ →
          ∃ c', compressLoop (memOf s) s.length n k c₁ = some c' ∧
            c'.out.length = c.out.length ∧ (c'.src = s.length → Compressed s n c') := by
        intro c₁ hstep
        have hfurther := hstep.src
        obtain ⟨c', hloop, hlength, hend⟩ := ih (h.advance hstep) (by omega)
        exact ⟨c', hloop, hlength.trans hstep.length, hend⟩
      by_cases hzero : s[c.src] = 0
      · obtain ⟨c₁, hchunk, hstep⟩ :=
          zeroChunk_advanced hn' hsrc (hb.trans (congrArg some hzero)) (by omega)
        obtain ⟨c', hloop, hend⟩ := hgo c₁ hstep
        exact ⟨c', by simp [compressLoop, hsrc, hdst, hread, hzero, hchunk, hloop], hend⟩
      · by_cases hroom : c.out.length - (c.dst + 1) < n
        · refine ⟨{ c with dst := c.dst + 1 }, ?_, rfl, fun hall => ?_⟩
          · simp [compressLoop, hsrc, hdst, hread, hzero, hroom]
          · exact absurd hall hsrc.ne
        · obtain ⟨c₁, hchunk, hstep⟩ := literalChunk_advanced hn hsrc hb hzero (by omega)
          obtain ⟨c', hloop, hend⟩ := hgo c₁ hstep
          exact ⟨c', by simp [compressLoop, hsrc, hdst, hread, hzero, hroom, hchunk, hloop], hend⟩
    · exact ⟨c, by rw [compressLoop, if_neg hmore], rfl, fun _ => h⟩

end Compress

section Decompress

variable {s : Bytes} {n : Nat} {c : Copier}

theorem decompress_chunk {x y e : Bytes} (hn : n ≤ 255) (h : Chunk n x y)
    (hs : s.drop c.src = x ++ e) (hroom : c.dst + y.length ≤ c.out.length) :
    ∃ b c', memOf s c.src = some b ∧
      (if 1 + b.toNat ≤ n then { c with src := c.src + 1 }.copies (memOf s) (1 + b.toNat)
        else { c with src := c.src + 1 }.fill 0 (1 + b.toNat - n)) = some c' ∧
      Copier.Wrote c c' x.length y := by
  have hskip : Copier.Wrote c { c with src := c.src + 1 } 1 [] := ⟨rfl, rfl, by simp, rfl⟩
  have hhead : memOf s c.src = (x ++ e)[0]? := by
    rw [← hs, List.getElem?_drop]
    rfl
  cases h with
  | @zeros k hpos hle =>
    have hbyte : (UInt8.ofNat (k - 1 + n)).toNat = k - 1 + n :=
      UInt8.toNat_ofNat_of_lt' (by simp only [UInt8.size]; omega)
    rw [List.length_replicate] at hroom
    obtain ⟨c', hfill, hwrote⟩ :=
      Copier.fill_wrote (c := { c with src := c.src + 1 }) hroom
    refine ⟨_, c', hhead, ?_, hskip.trans hwrote⟩
    have hcount : 1 + (k - 1 + n) - n = k := by omega
    rw [hbyte, if_neg (by omega), hcount]
    exact hfill
  | literal hpos hle =>
    have hbyte : (UInt8.ofNat (y.length - 1)).toNat = y.length - 1 :=
      UInt8.toNat_ofNat_of_lt' (by simp only [UInt8.size]; omega)
    have hcount : 1 + (y.length - 1) = y.length := by omega
    have hrest : s.drop (c.src + 1) = y ++ e := by
      rw [← List.drop_drop, hs]
      rfl
    have hlength := congrArg List.length hrest
    rw [List.length_drop, List.length_append] at hlength
    obtain ⟨c', hcopies, hwrote⟩ := Copier.copies_wrote (s := s)
      (c := { c with src := c.src + 1 }) (by simp only; omega) hroom
    rw [show s.drop ({ c with src := c.src + 1 } : Copier).src = y ++ e from hrest,
      List.take_left] at hwrote
    refine ⟨_, c', hhead, ?_, ?_⟩
    · rw [hbyte, hcount, if_pos hle]
      exact hcopies
    · rw [List.length_cons, Nat.add_comm]
      exact hskip.trans hwrote

theorem decompressLoop_spec {e y : Bytes} (hn : n ≤ 255) (h : Encodes n e y)
    (hs : s.drop c.src = e) (hsrc : c.src ≤ s.length) (hout : c.out.length = c.dst + y.length)
    {k : Nat} (hk : e.length < k) :
    ∃ c', decompressLoop (memOf s) s.length n k c = some c' ∧
      Copier.Wrote c c' e.length y := by
  induction h generalizing c k with
  | nil =>
    have hend : ¬ c.src < s.length := by
      have hlength := congrArg List.length hs
      rw [List.length_drop, List.length_nil] at hlength
      omega
    cases k with
    | zero => exact absurd hk (Nat.not_lt_zero _)
    | succ k => exact ⟨c, by simp [decompressLoop, hend], .refl c⟩
  | @cons x e y s' hchunk _ ih =>
    cases k with
    | zero => exact absurd hk (Nat.not_lt_zero _)
    | succ k =>
      obtain ⟨hx, hy⟩ := hchunk.pos
      rw [List.length_append] at hout hk
      have hlength := congrArg List.length hs
      rw [List.length_drop, List.length_append] at hlength
      obtain ⟨b, c₁, hread, hpass, hfirst⟩ := decompress_chunk hn hchunk hs (by omega)
      have hsrc₁ := hfirst.src
      have hdst₁ := hfirst.dst
      have hlength₁ := hfirst.length
      have hrest : s.drop c₁.src = e := by
        rw [hsrc₁, ← List.drop_drop, hs, List.drop_left]
      obtain ⟨c', hloop, hthen⟩ := ih hrest (by omega) (by omega) (k := k) (by omega)
      refine ⟨c', ?_, ?_⟩
      · have hgo : c.src < s.length ∧ c.dst < c.out.length := ⟨by omega, by omega⟩
        simp [decompressLoop, if_pos hgo, hread, hpass, hloop]
      · rw [List.length_append]
        exact hfirst.trans hthen

end Decompress

/-- Neither function touches memory outside its buffers, and what was compressed to less than its
own length comes back. -/
theorem zle_round_trip (s d t : Bytes) {n : Nat} (hn : 1 ≤ n) (hn' : n ≤ 255)
    (ht : t.length = s.length) :
    ∃ size out, zleCompress s d n = some (size, out) ∧ out.length = d.length ∧
      (size < s.length → size ≤ d.length ∧ zleDecompress (out.take size) t n = some (0, s)) := by
  have hstart : Compressed s n ⟨0, 0, d⟩ := ⟨.nil, Nat.zero_le _, Nat.zero_le _⟩
  obtain ⟨c, hloop, hlength, hall⟩ := compressLoop_spec hn hn' hstart (k := s.length + 1)
    (Nat.lt_succ_self _)
  refine ⟨_, c.out, by rw [zleCompress, hloop]; rfl, hlength, fun hsize => ?_⟩
  by_cases hend : c.src = s.length
  · rw [if_pos hend] at hsize ⊢
    have hdone := hall hend
    have hencodes := hdone.encodes
    rw [hend, List.take_length] at hencodes
    refine ⟨hlength ▸ hdone.dst, ?_⟩
    obtain ⟨c', hback, hwrote⟩ := decompressLoop_spec (c := ⟨0, 0, t⟩) hn'
      hencodes rfl (Nat.zero_le _) (by simpa using ht) (k := (c.out.take c.dst).length + 1)
      (Nat.lt_succ_self _)
    have hdst : c'.dst = c'.out.length := by
      rw [hwrote.dst, hwrote.length]
      simpa using ht.symm
    have hout : c'.out = s := by
      have htake := hwrote.out
      rw [hdst, List.take_length] at htake
      simpa using htake
    rw [zleDecompress, hback, Option.map_some, if_pos hdst, hout]
  · rw [if_neg hend] at hsize
    exact absurd hsize (lt_irrefl _)

/-- A literal byte and three zeros take three bytes, and come back. -/
theorem zle_round_trip_zeros :
    zleCompress [7, 0, 0, 0] [1, 1, 1, 1] 1 = some (3, [0, 7, 3, 1]) ∧
      zleDecompress [0, 7, 3] [9, 9, 9, 9] 1 = some (0, [7, 0, 0, 0]) := by
  obtain ⟨size, out, hcompress, -, hback⟩ := zle_round_trip [7, 0, 0, 0] [1, 1, 1, 1]
    [9, 9, 9, 9] (n := 1) (by decide) (by decide) (by decide)
  have hrun : zleCompress [7, 0, 0, 0] [1, 1, 1, 1] 1 = some (3, [0, 7, 3, 1]) := by decide
  obtain ⟨rfl, rfl⟩ := Prod.mk.inj (Option.some.inj (hrun.symm.trans hcompress))
  exact ⟨hrun, (hback (by decide)).2⟩

end Zle

end ClusterZfs

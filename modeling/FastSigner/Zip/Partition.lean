import FastSigner.Zip.Directory
import FastSigner.Zip.Sections

/-!
# Accepted sections partition the file

An accepted file is cut into entries, an optional APK Signing Block, the Central
Directory and the EOCD record, without holes or overlaps.

The block's size is an untrusted 64-bit field, and `size + 8 <= cd_off` is the
only test that it fits.  In the release build the addition wraps for the eight
largest sizes: the test then passes with `size + 8` between `0` and `7`.
`SizeFieldFits` excludes exactly these files.  On them both builds agree and the
sections are a partition (`findSigBlock_of_fits`); on every other file the
checked build panics (`findSigBlock_panic`), while the release build still never
moves `entries_end` past the Central Directory (`findSigBlock_le`).
-/

namespace FastSigner.Zip

open Lib

/-- An APK Signing Block of `l` bytes starts at `a` and ends where the Central Directory starts. -/
def IsSigBlock (f : Bytes) (cdOff a l : Nat) : Prop :=
  a + l = cdOff ∧ 32 ≤ l ∧ u64le f a = l - 8 ∧ u64le f (cdOff - 24) = l - 8 ∧
    slice f (cdOff - 16) cdOff = sigBlockMagic

/-- The size field in front of the magic, if the magic is there. -/
def footerSize (f : Bytes) (cdOff : Nat) : Option Nat :=
  if 32 ≤ cdOff ∧ slice f (cdOff - 16) cdOff = sigBlockMagic then some (u64le f (cdOff - 24))
  else none

/-- The block that the footer at `cdOff` and the head it points to agree on. -/
def sigBlockAt (f : Bytes) (cdOff : Nat) : Option (Nat × Nat) :=
  match footerSize f cdOff with
  | none => none
  | some size =>
    if 24 ≤ size ∧ size + 8 ≤ cdOff ∧ u64le f (cdOff - (size + 8)) = size then
      some (cdOff - (size + 8), size + 8)
    else none

def entriesEndOf (cdOff : Nat) (sigBlock : Option (Nat × Nat)) : Nat :=
  sigBlock.elim cdOff Prod.fst

theorem sigBlockAt_eq_some_iff {f : Bytes} {cdOff a l : Nat} :
    sigBlockAt f cdOff = some (a, l) ↔ IsSigBlock f cdOff a l := by
  rw [sigBlockAt, footerSize, IsSigBlock]
  constructor
  · intro h
    by_cases hm : 32 ≤ cdOff ∧ slice f (cdOff - 16) cdOff = sigBlockMagic
    · rw [if_pos hm] at h
      simp only at h
      split at h
      · rename_i hs
        simp only [Option.some.injEq, Prod.mk.injEq] at h
        obtain ⟨rfl, rfl⟩ := h
        exact ⟨by omega, by omega, by rw [hs.2.2]; omega, by omega, hm.2⟩
      · cases h
    · rw [if_neg hm] at h
      cases h
  · rintro ⟨hal, hl, ha, hsize, hmagic⟩
    rw [if_pos ⟨by omega, hmagic⟩]
    simp only [hsize]
    have hstart : cdOff - (l - 8 + 8) = a := by omega
    rw [hstart, if_pos ⟨by omega, by omega, ha⟩, show l - 8 + 8 = l by omega]

theorem sigBlockAt_eq_none_iff {f : Bytes} {cdOff : Nat} :
    sigBlockAt f cdOff = none ↔ ¬ ∃ a l, IsSigBlock f cdOff a l := by
  constructor
  · rintro h ⟨a, l, hal⟩
    rw [sigBlockAt_eq_some_iff.mpr hal] at h
    cases h
  · intro h
    cases hs : sigBlockAt f cdOff with
    | none => rfl
    | some p => exact absurd ⟨p.1, p.2, sigBlockAt_eq_some_iff.mp hs⟩ h

/-! ### The search on a byte string -/

theorem findSigBlock_of_footerSize_none (m : Overflow) {f : Bytes} {cdOff : Nat}
    (hf : cdOff + 8 ≤ f.length) (h : footerSize f cdOff = none) :
    findSigBlock m (ReadAt.ofBytes f) cdOff = .ok (none, cdOff) := by
  rw [findSigBlock]
  by_cases h32 : cdOff < 32
  · rw [if_pos h32]
  · have hm : slice f (cdOff - 16) cdOff ≠ sigBlockMagic := by
      intro hm
      rw [footerSize, if_pos ⟨by omega, hm⟩] at h
      cases h
    rw [if_neg h32, subU64_of_le m (by omega), ok_bind, ReadAt.ofBytes_readExactAt (by omega),
      mapError_ok, ok_bind, slice_slice_of_le f (by omega),
      show cdOff - 24 + 8 = cdOff - 16 by omega, show cdOff - 24 + 24 = cdOff by omega, if_pos hm]

theorem findSigBlock_of_footerSize (m : Overflow) {f : Bytes} {cdOff size : Nat}
    (hf : cdOff + 8 ≤ f.length) (h : footerSize f cdOff = some size) :
    findSigBlock m (ReadAt.ofBytes f) cdOff =
      if size < 24 then .ok (none, cdOff)
      else addU64 m size 8 >>= fun total =>
        if cdOff < total then .ok (none, cdOff)
        else subU64 m cdOff size >>= fun before => subU64 m before 8 >>= fun start =>
          ((ReadAt.ofBytes f).readExactAt start 8).mapError .readSigBlockHead >>= fun head =>
            if u64le head 0 = size then .ok (some (start, total), start)
            else .ok (none, cdOff) := by
  rw [footerSize] at h
  split at h
  · rename_i hm
    simp only [Option.some.injEq] at h
    have hsize : u64le (slice f (cdOff - 24) (cdOff - 24 + 24)) 0 = size := by
      rw [u64le_slice f (by omega), Nat.add_zero, h]
    rw [findSigBlock, if_neg (by omega), subU64_of_le m (by omega), ok_bind,
      ReadAt.ofBytes_readExactAt (by omega), mapError_ok, ok_bind, slice_slice_of_le f (by omega),
      show cdOff - 24 + 8 = cdOff - 16 by omega, if_neg (by
        rw [show cdOff - 24 + 24 = cdOff by omega]
        exact fun hn => hn hm.2)]
    simp only [hsize]
  · cases h

/-- **When the size field leaves room for the addition, both builds find the block that is
there.** -/
theorem findSigBlock_of_fits (m : Overflow) {f : Bytes} {cdOff : Nat} (hf : cdOff + 8 ≤ f.length)
    (hfit : ∀ size, footerSize f cdOff = some size → size + 8 < 2 ^ 64) :
    findSigBlock m (ReadAt.ofBytes f) cdOff
      = .ok (sigBlockAt f cdOff, entriesEndOf cdOff (sigBlockAt f cdOff)) := by
  cases hs : footerSize f cdOff with
  | none =>
    rw [findSigBlock_of_footerSize_none m hf hs, sigBlockAt, hs]
    rfl
  | some size =>
    have hlt := hfit size hs
    rw [findSigBlock_of_footerSize m hf hs, sigBlockAt, hs]
    simp only
    by_cases h24 : size < 24
    · rw [if_pos h24, if_neg (by omega)]
      rfl
    · rw [if_neg h24, addU64_of_lt m hlt, ok_bind]
      by_cases hcd : cdOff < size + 8
      · rw [if_pos hcd, if_neg (by omega)]
        rfl
      · rw [if_neg hcd, subU64_of_le m (by omega), ok_bind, subU64_of_le m (by omega), ok_bind,
          ReadAt.ofBytes_readExactAt (by omega), mapError_ok, ok_bind, u64le_slice f (by omega),
          Nat.add_zero, Nat.sub_sub]
        by_cases hhead : u64le f (cdOff - (size + 8)) = size
        · rw [if_pos hhead, if_pos ⟨by omega, by omega, hhead⟩]
          rfl
        · rw [if_neg hhead, if_neg (by tauto)]
          rfl

theorem findSigBlock_panic {f : Bytes} {cdOff size : Nat} (hf : cdOff + 8 ≤ f.length)
    (hs : footerSize f cdOff = some size) (hbig : 2 ^ 64 ≤ size + 8) :
    findSigBlock .panic (ReadAt.ofBytes f) cdOff = .error .overflow := by
  rw [findSigBlock_of_footerSize .panic hf hs, if_neg (by omega), addU64_panic hbig, error_bind]

theorem footerSize_lt {f : Bytes} {cdOff size : Nat} (h : footerSize f cdOff = some size) :
    32 ≤ cdOff ∧ size < 2 ^ 64 := by
  rw [footerSize] at h
  split at h
  · rename_i hm
    simp only [Option.some.injEq] at h
    exact ⟨hm.1, h ▸ u64le_lt f (cdOff - 24)⟩
  · cases h

/-- **Whatever the size field says, the release build keeps `entries_end` inside the file**: a
wrapped size moves it back by less than eight bytes. -/
theorem findSigBlock_le {f : Bytes} {cdOff ee : Nat} {sb : Option (Nat × Nat)}
    (hf : cdOff + 8 ≤ f.length) (hcd : cdOff < 2 ^ 32)
    (h : findSigBlock .wrap (ReadAt.ofBytes f) cdOff = .ok (sb, ee)) : ee ≤ cdOff := by
  by_cases hfit : ∀ size, footerSize f cdOff = some size → size + 8 < 2 ^ 64
  · rw [findSigBlock_of_fits .wrap hf hfit] at h
    simp only [Except.ok.injEq, Prod.mk.injEq] at h
    obtain ⟨-, rfl⟩ := h
    cases hs : sigBlockAt f cdOff with
    | none => exact Nat.le_refl _
    | some p =>
      have hp := (sigBlockAt_eq_some_iff (a := p.1) (l := p.2)).mp hs
      simp only [entriesEndOf, Option.elim_some]
      exact hp.1 ▸ Nat.le_add_right ..
  · push Not at hfit
    obtain ⟨size, hs, hbig⟩ := hfit
    obtain ⟨h32, hlt⟩ := footerSize_lt hs
    rw [findSigBlock_of_footerSize .wrap hf hs, if_neg (by omega), addU64_wrap hbig, ok_bind,
      if_neg (by omega), subU64_wrap (by omega), ok_bind, subU64_of_le .wrap (by omega), ok_bind,
      bind_eq_ok] at h
    obtain ⟨head, -, h⟩ := h
    split at h
    · simp only [Except.ok.injEq, Prod.mk.injEq] at h
      omega
    · simp only [Except.ok.injEq, Prod.mk.injEq] at h
      omega

/-! ### The partition -/

/-- The sections cut the file without holes, and the block is recorded exactly when it is there. -/
structure Partition (f : Bytes) (s : ZipSections) : Prop where
  entries_le : s.entriesEnd ≤ s.cdOff
  cd_end : s.cdOff + s.cdSize = s.eocdOff
  eocd_end : s.eocdOff + s.eocd.length = f.length
  eocd_eq : s.eocd = f.drop s.eocdOff
  comment : eocdMinLen ≤ s.eocd.length ∧ u16le s.eocd 20 = s.eocd.length - eocdMinLen
  block : ∀ a l, (s.sigBlock = some (a, l) ∧ s.entriesEnd = a) ↔ IsSigBlock f s.cdOff a l
  no_block : (s.sigBlock = none ∧ s.entriesEnd = s.cdOff) ↔ ¬ ∃ a l, IsSigBlock f s.cdOff a l

/-- The size field in front of the Central Directory that the file's EOCD record points to, when
the block magic follows it, is below `2^64 - 8`. -/
def SizeFieldFits (f : Bytes) : Prop :=
  ∀ e size, findEocd f = some e → footerSize f (u32le f (e + 16)) = some size → size + 8 < 2 ^ 64

theorem findEocd_comment {f : Bytes} {e : Nat} (h : findEocd f = some e) :
    e + eocdMinLen ≤ f.length ∧ u16le f (e + 20) = f.length - e - eocdMinLen ∧
      slice f e (e + 4) = eocdSig := by
  obtain ⟨c, -, hpos, hc, -⟩ := findEocd_eq_some_iff.mp h
  simp only [eocdWith, Bool.and_eq_true, decide_eq_true_eq] at hc
  rw [show f.length - eocdMinLen - c = e by omega] at hc
  exact ⟨by omega, by rw [hc.2]; omega, hc.1⟩

theorem parse_entriesEnd_le {f : Bytes} (hf : f.length < 2 ^ 64) {s : ZipSections}
    (h : parse (ReadAt.ofBytes f) = .ok s) : s.entriesEnd ≤ s.cdOff := by
  obtain ⟨hfind, -, -, hoff, -, hab, -, -, hsig⟩ := (parseWith_eq_ok_iff .wrap hf).mp h
  obtain ⟨hlen, -, -⟩ := findEocd_comment hfind
  exact findSigBlock_le (by simp only [eocdMinLen] at hlen; omega) (hoff ▸ u32le_lt ..) hsig

theorem partition_of_fits {f : Bytes} (hf : f.length < 2 ^ 64) {s : ZipSections}
    (h : parse (ReadAt.ofBytes f) = .ok s) (hfit : SizeFieldFits f) :
    parseWith .panic (ReadAt.ofBytes f) = .ok s ∧ Partition f s := by
  have hall := (parseWith_eq_ok_iff .wrap hf).mp h
  obtain ⟨hfind, hfields, hnl, hoff, hsize, hab, hlen, heocd, hsig⟩ := hall
  obtain ⟨hmin, hcomment, -⟩ := findEocd_comment hfind
  have hroom : s.cdOff + 8 ≤ f.length := by
    simp only [eocdMinLen] at hmin
    omega
  have hfit' : ∀ size, footerSize f s.cdOff = some size → size + 8 < 2 ^ 64 :=
    fun size hs => hfit s.eocdOff size hfind (hoff ▸ hs)
  have hsb := findSigBlock_of_fits .wrap hroom hfit'
  rw [hsig] at hsb
  simp only [Except.ok.injEq, Prod.mk.injEq] at hsb
  obtain ⟨hblock, hend⟩ := hsb
  refine ⟨(parseWith_eq_ok_iff .panic hf).mpr ⟨hfind, hfields, hnl, hoff, hsize, hab, hlen, heocd,
    ?_⟩, parse_entriesEnd_le hf h, hab, ?_, heocd, ⟨?_, ?_⟩, ?_, ?_⟩
  · rw [findSigBlock_of_fits .panic hroom hfit', ← hend, ← hblock]
  · rw [heocd, List.length_drop]
    omega
  · rw [heocd, List.length_drop]
    omega
  · rw [heocd, u16le_drop, List.length_drop, hcomment]
  · intro a l
    rw [← sigBlockAt_eq_some_iff, ← hblock]
    constructor
    · exact fun hs => hs.1
    · intro hs
      refine ⟨hs, ?_⟩
      rw [hend, ← hblock, hs]
      rfl
  · rw [← sigBlockAt_eq_none_iff, ← hblock]
    constructor
    · exact fun hs => hs.1
    · intro hs
      refine ⟨hs, ?_⟩
      rw [hend, ← hblock, hs]
      rfl

/-- **An accepted file is partitioned by its sections, and no arithmetic wrapped, exactly when
the block's size field leaves room for the addition.** -/
theorem parse_partition_iff {f : Bytes} (hf : f.length < 2 ^ 64) {s : ZipSections}
    (h : parse (ReadAt.ofBytes f) = .ok s) :
    (parseWith .panic (ReadAt.ofBytes f) = .ok s ∧ Partition f s) ↔ SizeFieldFits f := by
  constructor
  · rintro ⟨hpanic, -⟩ e size hfind hs
    obtain ⟨hfind', -, -, hoff, -, hab, -, -, hsig⟩ := (parseWith_eq_ok_iff .panic hf).mp hpanic
    rw [hfind'] at hfind
    obtain rfl := Option.some.inj hfind
    obtain ⟨hmin, -, -⟩ := findEocd_comment hfind'
    rw [← hoff] at hs
    by_contra hbig
    rw [findSigBlock_panic (by simp only [eocdMinLen] at hmin; omega) hs (by omega)] at hsig
    cases hsig
  · exact partition_of_fits hf h

/-- A 62-byte file whose signing-block footer holds the size `2^64 - 8` and whose eight-byte
Central Directory repeats it. -/
def wrappedSizeFile : Bytes :=
  List.replicate 8 0 ++ leBytes 8 (2 ^ 64 - 8) ++ sigBlockMagic ++ leBytes 8 (2 ^ 64 - 8)
    ++ eocdSig ++ List.replicate 8 0 ++ leBytes 4 8 ++ leBytes 4 32 ++ [0, 0]

theorem wrappedSizeFile_not_partition : ∃ s, parse (ReadAt.ofBytes wrappedSizeFile) = .ok s ∧
    s.sigBlock = some (32, 0) ∧
    ¬ (parseWith .panic (ReadAt.ofBytes wrappedSizeFile) = .ok s ∧
      Partition wrappedSizeFile s) := by
  refine ⟨⟨62, 32, some (32, 0), 32, 8, 40, wrappedSizeFile.drop 40⟩, by decide, rfl, ?_⟩
  rintro ⟨hpanic, -⟩
  have herr : (parseWith .panic (ReadAt.ofBytes wrappedSizeFile)).toOption = none := by decide
  rw [hpanic] at herr
  cases herr

/-- A signing block without pairs, which is what an earlier signature leaves at least. -/
def mixedBlock : Bytes := leBytes 8 24 ++ leBytes 8 24 ++ sigBlockMagic

def mixedEocd : Bytes :=
  eocdSig ++ [0, 0, 0, 0, 4, 0, 4, 0] ++ leBytes 4 200 ++ leBytes 4 192 ++ [0, 0]

/-- An APK with four entries that was signed before. -/
def mixedApk : Bytes := mixedFile ++ mixedBlock ++ mixedRecords.flatten ++ mixedEocd

def mixedSections : ZipSections := ⟨414, 160, some (160, 32), 192, 200, 392, mixedEocd⟩

set_option maxRecDepth 8000 in
theorem parse_mixedApk : parse (ReadAt.ofBytes mixedApk) = .ok mixedSections := by decide

set_option maxRecDepth 8000 in
theorem findEocd_mixedApk : findEocd mixedApk = some 392 := by decide

set_option maxRecDepth 8000 in
theorem footerSize_mixedApk : footerSize mixedApk (u32le mixedApk (392 + 16)) = some 24 := by decide

set_option maxRecDepth 4000 in
theorem length_mixedApk : mixedApk.length = 414 := by decide

theorem parse_partition_mixed : SizeFieldFits mixedApk ∧ Partition mixedApk mixedSections := by
  have hfit : SizeFieldFits mixedApk := by
    intro e size he hs
    rw [findEocd_mixedApk] at he
    obtain rfl := Option.some.inj he
    rw [footerSize_mixedApk] at hs
    obtain rfl := Option.some.inj hs
    decide
  have hsmall : mixedApk.length < 2 ^ 64 := by
    rw [length_mixedApk]
    decide
  exact ⟨hfit, ((parse_partition_iff hsmall parse_mixedApk).mpr hfit).2⟩

end FastSigner.Zip

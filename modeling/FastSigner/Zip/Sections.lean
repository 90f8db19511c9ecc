import FastSigner.Basic
import Mathlib.Data.List.Range

/-!
# The sections of a ZIP file

`zip::parse` finds the End of Central Directory record, from it the Central
Directory, and before that an APK Signing Block if one is there.  It reads only
the last 65557 bytes and the footer and head of the block.

`parseWith m` is the function under either overflow behaviour; `parse` is the
release build's.  `parse_cases` says everything an accepted file satisfies, and
`parse_eq_of` what makes a file be accepted.
-/

namespace FastSigner.Zip

open Lib

def sigBlockMagic : Bytes := ascii "APK Sig Block 42"
def eocdSig : Bytes := [0x50, 0x4b, 0x05, 0x06]
def zip64LocatorSig : Bytes := [0x50, 0x4b, 0x06, 0x07]
def eocdMinLen : Nat := 22
def maxCommentLen : Nat := 0xffff

structure ZipSections where
  fileLen : Nat
  -- Start of the existing APK Signing Block if there is one, else the Central Directory offset.
  entriesEnd : Nat
  sigBlock : Option (Nat × Nat) -- Existing APK Signing Block: start and total length.
  cdOff : Nat
  cdSize : Nat
  eocdOff : Nat
  eocd : Bytes -- The whole EOCD record with its comment.
  deriving DecidableEq, Repr

def eocdWith (tail : Bytes) (commentLen : Nat) : Bool :=
  let i := tail.length - eocdMinLen - commentLen
  decide (slice tail i (i + 4) = eocdSig) && decide (u16le tail (i + 20) = commentLen)

/-- Offset of the EOCD record in the last bytes of the file: the shortest comment whose length
field matches the bytes that follow it. -/
def findEocd (tail : Bytes) : Option Nat :=
  if tail.length < eocdMinLen then none
  else
    let maxComment := min (tail.length - eocdMinLen) maxCommentLen
    ((List.range (maxComment + 1)).find? (eocdWith tail)).map
      fun commentLen => tail.length - eocdMinLen - commentLen

/-- The checks on the fields of the EOCD record found at `rel` in `tail`; its Central Directory
offset and size. -/
def checkEocd (m : Overflow) (tail : Bytes) (rel eocdOff : Nat) : Except Error (Nat × Nat) :=
  let eocd := tail.drop rel
  let disk := u16le eocd 4
  let cdDisk := u16le eocd 6
  let entriesDisk := u16le eocd 8
  let entriesTotal := u16le eocd 10
  let cdSize := u32le eocd 12
  let cdOff := u32le eocd 16
  if disk ≠ 0 ∨ cdDisk ≠ 0 ∨ entriesDisk ≠ entriesTotal then .error .multiDisk
  else if entriesTotal = 0xffff ∨ cdSize = 0xffffffff ∨ cdOff = 0xffffffff then .error .zip64
  else if 20 ≤ rel ∧ slice tail (rel - 20) (rel - 16) = zip64LocatorSig then .error .zip64Locator
  else do
    let cdEnd ← addU64 m cdOff cdSize
    if cdEnd ≠ eocdOff then .error (.cdNotBeforeEocd cdOff cdSize eocdOff)
    else .ok (cdOff, cdSize)

/-- An existing APK Signing Block: it sits immediately before the Central Directory and ends with
its size and the magic.  Also the resulting end of the entries section. -/
def findSigBlock (m : Overflow) (f : ReadAt) (cdOff : Nat) :
    Except Error (Option (Nat × Nat) × Nat) :=
  if cdOff < 32 then .ok (none, cdOff)
  else do
    let at_ ← subU64 m cdOff 24
    let footer ← (f.readExactAt at_ 24).mapError .readSigBlockFooter
    if slice footer 8 24 ≠ sigBlockMagic then .ok (none, cdOff)
    else
      let size := u64le footer 0
      if size < 24 then .ok (none, cdOff)
      else do
        let total ← addU64 m size 8
        if cdOff < total then .ok (none, cdOff)
        else do
          let before ← subU64 m cdOff size
          let start ← subU64 m before 8
          let head ← (f.readExactAt start 8).mapError .readSigBlockHead
          if u64le head 0 = size then .ok (some (start, total), start) else .ok (none, cdOff)

/-- `zip::parse` in a build that treats overflow as `m` says. -/
def parseWith (m : Overflow) (f : ReadAt) : Except Error ZipSections := do
  let fileLen ← f.len.mapError .stat
  if fileLen < eocdMinLen then .error .tooSmall
  else do
    let tailLen := min fileLen (eocdMinLen + maxCommentLen)
    let tailOff ← subU64 m fileLen tailLen
    let tail ← (f.readExactAt tailOff tailLen).mapError .readTail
    match findEocd tail with
    | none => .error .noEocd
    | some rel => do
      let eocdOff ← addU64 m tailOff rel
      let (cdOff, cdSize) ← checkEocd m tail rel eocdOff
      let (sigBlock, entriesEnd) ← findSigBlock m f cdOff
      .ok { fileLen, entriesEnd, sigBlock, cdOff, cdSize, eocdOff, eocd := tail.drop rel }

/-- `zip::parse` as released: arithmetic wraps around. -/
def parse (f : ReadAt) : Except Error ZipSections := parseWith .wrap f

def setEocdCdOffset (eocd : Bytes) (off : Nat) : Bytes := patch eocd 16 (leBytes 4 off)

def setEocdCdSize (eocd : Bytes) (size : Nat) : Bytes := patch eocd 12 (leBytes 4 size)

def setEocdEntryCount (eocd : Bytes) (n : Nat) : Bytes :=
  patch (patch eocd 8 (leBytes 2 n)) 10 (leBytes 2 n)

/-! ### The backward scan -/

/-- **The scan finds the record with the shortest matching comment.** -/
theorem findEocd_eq_some_iff {f : Bytes} {i : Nat} :
    findEocd f = some i ↔ ∃ c, c ≤ maxCommentLen ∧ i + eocdMinLen + c = f.length ∧
      eocdWith f c = true ∧ ∀ c', c' < c → eocdWith f c' = false := by
  rw [findEocd]
  by_cases hlen : f.length < eocdMinLen
  · rw [if_pos hlen]
    constructor
    · intro h
      cases h
    · rintro ⟨c, -, hi, -⟩
      omega
  · rw [if_neg hlen]
    simp only [Option.map_eq_some_iff, List.find?_range_eq_some, List.mem_range]
    constructor
    · rintro ⟨c, ⟨hc, hle, hmin⟩, rfl⟩
      refine ⟨c, by omega, by omega, hc, fun c' hc' => ?_⟩
      simpa using hmin c' hc'
    · rintro ⟨c, hle, hi, hc, hmin⟩
      refine ⟨c, ⟨hc, by omega, fun c' hc' => ?_⟩, by omega⟩
      simp [hmin c' hc']

theorem eocdWith_drop {f : Bytes} {n c : Nat} (h : n + eocdMinLen + c ≤ f.length) :
    eocdWith (f.drop n) c = eocdWith f c := by
  have hi : n + ((f.drop n).length - eocdMinLen - c) = f.length - eocdMinLen - c := by
    rw [List.length_drop]
    omega
  simp only [eocdWith, slice_drop, u16le_drop, ← Nat.add_assoc, hi]

def tailLen (f : Bytes) : Nat := min f.length (eocdMinLen + maxCommentLen)

/-- **Looking at the tail finds the record that the whole file would show.** -/
theorem findEocd_tail (f : Bytes) (rel : Nat) :
    findEocd (f.drop (f.length - tailLen f)) = some rel ↔
      findEocd f = some (f.length - tailLen f + rel) := by
  have htail : tailLen f = min f.length (eocdMinLen + maxCommentLen) := rfl
  rw [findEocd_eq_some_iff, findEocd_eq_some_iff, List.length_drop]
  constructor
  · rintro ⟨c, hle, hi, hc, hmin⟩
    refine ⟨c, hle, by omega, ?_, fun c' hc' => ?_⟩
    · rw [← eocdWith_drop (n := f.length - tailLen f) (by omega)]
      exact hc
    · rw [← eocdWith_drop (n := f.length - tailLen f) (by omega)]
      exact hmin c' hc'
  · rintro ⟨c, hle, hi, hc, hmin⟩
    refine ⟨c, hle, by omega, ?_, fun c' hc' => ?_⟩
    · rw [eocdWith_drop (by omega)]
      exact hc
    · rw [eocdWith_drop (by omega)]
      exact hmin c' hc'

/-! ### What an accepted file looks like -/

/-- The EOCD record `e` passes the checks on its fields. -/
structure EocdFields (e : Bytes) : Prop where
  disk : u16le e 4 = 0
  cdDisk : u16le e 6 = 0
  entries : u16le e 8 = u16le e 10
  total_ne : u16le e 10 ≠ 0xffff
  size_ne : u32le e 12 ≠ 0xffffffff
  off_ne : u32le e 16 ≠ 0xffffffff

/-- A Zip64 locator stands in front of the record at `e`, where `parse` looks for one. -/
def LocatorBefore (f : Bytes) (e : Nat) : Prop :=
  f.length - tailLen f + 20 ≤ e ∧ slice f (e - 20) (e - 16) = zip64LocatorSig

theorem checkEocd_eq_ok_iff {m : Overflow} {tail : Bytes} {rel eocdOff a b : Nat} :
    checkEocd m tail rel eocdOff = .ok (a, b) ↔
      EocdFields (tail.drop rel) ∧
      ¬ (20 ≤ rel ∧ slice tail (rel - 20) (rel - 16) = zip64LocatorSig) ∧
      a = u32le (tail.drop rel) 16 ∧ b = u32le (tail.drop rel) 12 ∧ a + b = eocdOff := by
  have h1 := u32le_lt (tail.drop rel) 12
  have h2 := u32le_lt (tail.drop rel) 16
  simp only [checkEocd]
  rw [addU64_of_lt m (by omega)]
  constructor
  · intro h
    split at h
    · cases h
    · split at h
      · cases h
      · split at h
        · cases h
        · rename_i hdisk hzip hloc
          simp only [ok_bind] at h
          split at h
          · cases h
          · rename_i hend
            simp only [Except.ok.injEq, Prod.mk.injEq] at h
            obtain ⟨rfl, rfl⟩ := h
            exact ⟨⟨by omega, by omega, by omega, by omega, by omega, by omega⟩, hloc, rfl, rfl,
              by omega⟩
  · rintro ⟨hf, hloc, rfl, rfl, hend⟩
    have := hf.disk
    have := hf.cdDisk
    have := hf.entries
    have := hf.total_ne
    have := hf.size_ne
    have := hf.off_ne
    rw [if_neg (by omega), if_neg (by omega), if_neg hloc, ok_bind, if_neg (by omega)]

/-- **What `parse` accepts**, in terms of the whole file. -/
theorem parseWith_eq_ok_iff (m : Overflow) {f : Bytes} (hf : f.length < 2 ^ 64) {s : ZipSections} :
    parseWith m (ReadAt.ofBytes f) = .ok s ↔
      findEocd f = some s.eocdOff ∧ EocdFields (f.drop s.eocdOff) ∧ ¬ LocatorBefore f s.eocdOff ∧
      s.cdOff = u32le f (s.eocdOff + 16) ∧ s.cdSize = u32le f (s.eocdOff + 12) ∧
      s.cdOff + s.cdSize = s.eocdOff ∧ s.fileLen = f.length ∧ s.eocd = f.drop s.eocdOff ∧
      findSigBlock m (ReadAt.ofBytes f) s.cdOff = .ok (s.sigBlock, s.entriesEnd) := by
  have htail : min f.length (eocdMinLen + maxCommentLen) = tailLen f := rfl
  have hle : tailLen f ≤ f.length := Nat.min_le_left ..
  have hread : (ReadAt.ofBytes f).readExactAt (f.length - tailLen f) (tailLen f)
      = .ok (f.drop (f.length - tailLen f)) := by
    rw [ReadAt.ofBytes_readExactAt (by omega), slice_to_end _ _ (by omega)]
  have hloc : ∀ rel, LocatorBefore f (f.length - tailLen f + rel) ↔
      20 ≤ rel ∧ slice (f.drop (f.length - tailLen f)) (rel - 20) (rel - 16) = zip64LocatorSig := by
    intro rel
    rw [LocatorBefore, slice_drop]
    constructor
    · rintro ⟨h1, h2⟩
      refine ⟨by omega, ?_⟩
      rwa [show f.length - tailLen f + rel - 20 = f.length - tailLen f + (rel - 20) by omega,
        show f.length - tailLen f + rel - 16 = f.length - tailLen f + (rel - 16) by omega] at h2
    · rintro ⟨h1, h2⟩
      refine ⟨by omega, ?_⟩
      rwa [show f.length - tailLen f + rel - 20 = f.length - tailLen f + (rel - 20) by omega,
        show f.length - tailLen f + rel - 16 = f.length - tailLen f + (rel - 16) by omega]
  rw [parseWith]
  simp only [ReadAt.ofBytes_len, mapError_ok, ok_bind, htail, subU64_of_le m hle, hread]
  constructor
  · intro h
    split at h
    · cases h
    · rename_i hmin
      split at h
      · cases h
      · rename_i rel hrel
        have hfile := (findEocd_tail f rel).mp hrel
        obtain ⟨c, -, hpos, -, -⟩ := findEocd_eq_some_iff.mp hfile
        rw [addU64_of_lt m (by omega), ok_bind, bind_eq_ok] at h
        obtain ⟨⟨a, b⟩, hcheck, h⟩ := h
        rw [bind_eq_ok] at h
        obtain ⟨⟨sb, ee⟩, hsig, h⟩ := h
        obtain ⟨hfields, hnl, ha, hb, hab⟩ := checkEocd_eq_ok_iff.mp hcheck
        rw [List.drop_drop] at hfields ha hb
        rw [u32le_drop] at ha hb
        simp only [Except.ok.injEq] at h
        subst h
        exact ⟨hfile, hfields, fun hl => hnl ((hloc rel).mp hl), ha, hb, hab, rfl,
          by rw [List.drop_drop], hsig⟩
  · rintro ⟨hfile, hfields, hnl, ha, hb, hab, hlen, heocd, hsig⟩
    obtain ⟨c, hc, hpos, -, -⟩ := findEocd_eq_some_iff.mp hfile
    have htl : tailLen f = min f.length (eocdMinLen + maxCommentLen) := rfl
    obtain ⟨rel, hrel⟩ : ∃ rel, s.eocdOff = f.length - tailLen f + rel :=
      ⟨s.eocdOff - (f.length - tailLen f), by omega⟩
    rw [hrel] at hfile
    have hcheck : checkEocd m (f.drop (f.length - tailLen f)) rel (f.length - tailLen f + rel)
        = .ok (s.cdOff, s.cdSize) := by
      rw [checkEocd_eq_ok_iff, List.drop_drop, ← hrel, u32le_drop, u32le_drop]
      exact ⟨hfields, fun hl => hnl (hrel ▸ (hloc rel).mpr hl), ha, hb, hab⟩
    rw [if_neg (by omega), (findEocd_tail f rel).mpr hfile]
    simp only
    rw [addU64_of_lt m (by omega), ok_bind, hcheck, ok_bind, hsig, ok_bind, List.drop_drop, ← hrel,
      ← hlen, ← heocd]

end FastSigner.Zip

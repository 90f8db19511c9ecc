import FastSigner.Zip.Partition
import Mathlib.Tactic.IntervalCases

/-!
# Reading only the tail

`parse` looks for the EOCD record in the last 65557 bytes of the file, the most
that a record with its comment can take.  `parseWhole` is the same parser on the
whole file.

The scan loses nothing by it (`findEocd_tail`), but the test for a Zip64 locator
does: the locator ends where the record begins, and behind a comment of more than
65515 bytes its signature lies outside the bytes that were read.
`parse_eq_parseWhole_iff` says that this is the only difference.
-/

namespace FastSigner.Zip

open Lib

/-- `parse` with the whole file in place of its tail. -/
def parseWhole (f : Bytes) : Except Error ZipSections :=
  if f.length < eocdMinLen then .error .tooSmall
  else
    match findEocd f with
    | none => .error .noEocd
    | some e => do
      let (cdOff, cdSize) ← checkEocd .wrap f e e
      let (sigBlock, entriesEnd) ← findSigBlock .wrap (ReadAt.ofBytes f) cdOff
      .ok { fileLen := f.length, entriesEnd, sigBlock, cdOff, cdSize, eocdOff := e,
            eocd := f.drop e }

/-- A Zip64 locator ends where the record at `e` starts. -/
def HasLocator (f : Bytes) (e : Nat) : Prop :=
  20 ≤ e ∧ slice f (e - 20) (e - 16) = zip64LocatorSig

/-- The record's disk, count, size and offset fields are those of a plain archive. -/
def PlainFields (e : Bytes) : Prop :=
  ¬ (u16le e 4 ≠ 0 ∨ u16le e 6 ≠ 0 ∨ u16le e 8 ≠ u16le e 10) ∧
    ¬ (u16le e 10 = 0xffff ∨ u32le e 12 = 0xffffffff ∨ u32le e 16 = 0xffffffff)

/-- The plain record of the file has a comment of more than 65515 bytes and a Zip64 locator in
front of it, out of sight of the tail. -/
def HiddenLocator (f : Bytes) : Prop :=
  ∃ e, findEocd f = some e ∧ PlainFields (f.drop e) ∧ HasLocator f e ∧ 65515 < u16le f (e + 20)

/-! ### The checks on the record -/

theorem checkEocd_congr {m : Overflow} {a b : Bytes} {i j e : Nat} (h : a.drop i = b.drop j)
    (hloc : (20 ≤ i ∧ slice a (i - 20) (i - 16) = zip64LocatorSig) ↔
      (20 ≤ j ∧ slice b (j - 20) (j - 16) = zip64LocatorSig)) :
    checkEocd m a i e = checkEocd m b j e := by
  simp only [checkEocd, h, hloc]

theorem checkEocd_of_not_plain {m : Overflow} {a b : Bytes} {i j e : Nat}
    (h : a.drop i = b.drop j) (hp : ¬ PlainFields (a.drop i)) :
    checkEocd m a i e = checkEocd m b j e := by
  rw [PlainFields, not_and_or, not_not, not_not] at hp
  simp only [checkEocd, ← h]
  by_cases hd : u16le (a.drop i) 4 ≠ 0 ∨ u16le (a.drop i) 6 ≠ 0 ∨
      u16le (a.drop i) 8 ≠ u16le (a.drop i) 10
  · rw [if_pos hd, if_pos hd]
  · have hz := hp.resolve_left hd
    rw [if_neg hd, if_neg hd, if_pos hz, if_pos hz]

theorem checkEocd_of_locator {m : Overflow} {a : Bytes} {i e : Nat} (hp : PlainFields (a.drop i))
    (hloc : HasLocator a i) : checkEocd m a i e = .error .zip64Locator := by
  rw [HasLocator] at hloc
  simp only [checkEocd]
  rw [if_neg hp.1, if_neg hp.2, if_pos hloc]

theorem checkEocd_ne_zip64Locator {a : Bytes} {i e : Nat} (hloc : ¬ HasLocator a i) :
    checkEocd .wrap a i e ≠ .error .zip64Locator := by
  have h1 := u32le_lt (a.drop i) 12
  have h2 := u32le_lt (a.drop i) 16
  rw [HasLocator] at hloc
  simp only [checkEocd]
  rw [addU64_of_lt _ (by omega), if_neg hloc]
  simp only [ok_bind]
  intro h
  split at h
  · cases h
  · split at h
    · cases h
    · split at h
      · cases h
      · cases h

theorem subU64_wrap_ok (a b : Nat) : ∃ c, subU64 .wrap a b = .ok c := by
  by_cases h : b ≤ a
  · exact ⟨_, subU64_of_le _ h⟩
  · exact ⟨_, subU64_wrap (by omega)⟩

theorem findSigBlock_ne_zip64Locator (f : ReadAt) (cdOff : Nat) :
    findSigBlock .wrap f cdOff ≠ .error .zip64Locator := by
  intro h
  rw [findSigBlock] at h
  split at h
  · cases h
  · obtain ⟨a, ha⟩ := subU64_wrap_ok cdOff 24
    rw [ha, ok_bind] at h
    cases hread : f.readExactAt a 24 with
    | error e =>
      rw [hread] at h
      cases h
    | ok footer =>
      rw [hread, mapError_ok, ok_bind] at h
      split at h
      · cases h
      · simp only at h
        split at h
        · cases h
        · obtain ⟨t, ht⟩ : ∃ t, addU64 .wrap (u64le footer 0) 8 = .ok t := by
            by_cases hfit : u64le footer 0 + 8 < 2 ^ 64
            · exact ⟨_, addU64_of_lt _ hfit⟩
            · exact ⟨_, addU64_wrap (by omega)⟩
          rw [ht, ok_bind] at h
          split at h
          · cases h
          · obtain ⟨b, hb⟩ := subU64_wrap_ok cdOff (u64le footer 0)
            obtain ⟨c, hc⟩ := subU64_wrap_ok b 8
            rw [hb, ok_bind, hc, ok_bind] at h
            cases hhead : f.readExactAt c 8 with
            | error e =>
              rw [hhead] at h
              cases h
            | ok head =>
              rw [hhead, mapError_ok, ok_bind] at h
              split at h <;> cases h

/-! ### The two parsers -/

section Tail

variable {f : Bytes}

def tailOff (f : Bytes) : Nat := f.length - tailLen f

theorem parse_of_find (hf : f.length < 2 ^ 64) {e : Nat} (h : findEocd f = some e) :
    tailOff f ≤ e ∧ parse (ReadAt.ofBytes f) = (do
      let (cdOff, cdSize) ← checkEocd .wrap (f.drop (tailOff f)) (e - tailOff f) e
      let (sigBlock, entriesEnd) ← findSigBlock .wrap (ReadAt.ofBytes f) cdOff
      .ok { fileLen := f.length, entriesEnd, sigBlock, cdOff, cdSize, eocdOff := e,
            eocd := f.drop e }) := by
  have htl : tailLen f = min f.length (eocdMinLen + maxCommentLen) := rfl
  have hto : tailOff f = f.length - tailLen f := rfl
  obtain ⟨c, hc, hpos, -, -⟩ := findEocd_eq_some_iff.mp h
  have hle : tailOff f ≤ e := by omega
  refine ⟨hle, ?_⟩
  have hread : (ReadAt.ofBytes f).readExactAt (f.length - tailLen f) (tailLen f)
      = .ok (f.drop (tailOff f)) := by
    rw [ReadAt.ofBytes_readExactAt (by omega), slice_to_end _ _ (by omega), hto]
  have hrel : findEocd (f.drop (tailOff f)) = some (e - tailOff f) := by
    rw [hto, findEocd_tail, ← hto, Nat.add_sub_cancel' hle]
    exact h
  rw [parse, parseWith]
  simp only [ReadAt.ofBytes_len, mapError_ok, ok_bind]
  rw [if_neg (by omega), ← htl, subU64_of_le _ (by omega)]
  simp only [ok_bind, hread, mapError_ok, hrel]
  rw [← hto, addU64_of_lt _ (by omega), ok_bind, Nat.add_sub_cancel' hle, List.drop_drop,
    Nat.add_sub_cancel' hle]

theorem parseWhole_of_find {e : Nat} (h : findEocd f = some e) :
    parseWhole f = (do
      let (cdOff, cdSize) ← checkEocd .wrap f e e
      let (sigBlock, entriesEnd) ← findSigBlock .wrap (ReadAt.ofBytes f) cdOff
      .ok { fileLen := f.length, entriesEnd, sigBlock, cdOff, cdSize, eocdOff := e,
            eocd := f.drop e }) := by
  obtain ⟨hmin, -, -⟩ := findEocd_comment h
  rw [parseWhole, if_neg (by omega), h]

theorem parse_of_find_none (h : findEocd f = none) :
    parse (ReadAt.ofBytes f) = parseWhole f := by
  have htl : tailLen f = min f.length (eocdMinLen + maxCommentLen) := rfl
  have hrel : findEocd (f.drop (f.length - tailLen f)) = none := by
    cases hr : findEocd (f.drop (f.length - tailLen f)) with
    | none => rfl
    | some rel =>
      rw [(findEocd_tail f rel).mp hr] at h
      cases h
  rw [parse, parseWith, parseWhole, h]
  simp only [ReadAt.ofBytes_len, mapError_ok, ok_bind]
  split
  · rfl
  · rw [← htl, subU64_of_le _ (by omega), ok_bind, ReadAt.ofBytes_readExactAt (by omega),
      slice_to_end _ _ (by omega), mapError_ok, ok_bind, hrel]

theorem locator_in_tail {e : Nat} (h : findEocd f = some e)
    (hshort : u16le f (e + 20) ≤ 65515) :
    (20 ≤ e - tailOff f ∧ slice (f.drop (tailOff f)) (e - tailOff f - 20) (e - tailOff f - 16)
      = zip64LocatorSig) ↔ HasLocator f e := by
  have htl : tailLen f = min f.length (eocdMinLen + maxCommentLen) := rfl
  have hto : tailOff f = f.length - tailLen f := rfl
  have hmin : eocdMinLen = 22 := rfl
  have hmax : maxCommentLen = 65535 := rfl
  obtain ⟨hle, hcomment, -⟩ := findEocd_comment h
  rw [slice_drop, HasLocator]
  by_cases h20 : 20 ≤ e
  · rw [show tailOff f + (e - tailOff f - 20) = e - 20 by omega,
      show tailOff f + (e - tailOff f - 16) = e - 16 by omega]
    constructor
    · exact fun hl => ⟨h20, hl.2⟩
    · exact fun hl => ⟨by omega, hl.2⟩
  · constructor
    · intro hl
      omega
    · intro hl
      omega

/-- **Looking at the tail only is looking at the whole file, unless a Zip64 locator hides in front
of a long comment.** -/
theorem parse_eq_parseWhole_iff (hf : f.length < 2 ^ 64) :
    parse (ReadAt.ofBytes f) = parseWhole f ↔ ¬ HiddenLocator f := by
  have htl : tailLen f = min f.length (eocdMinLen + maxCommentLen) := rfl
  have hto : tailOff f = f.length - tailLen f := rfl
  have hmin : eocdMinLen = 22 := rfl
  have hmax : maxCommentLen = 65535 := rfl
  cases hfind : findEocd f with
  | none =>
    refine ⟨fun _ => ?_, fun _ => parse_of_find_none hfind⟩
    rintro ⟨e, he, -⟩
    rw [hfind] at he
    cases he
  | some e =>
    obtain ⟨hle, hparse⟩ := parse_of_find hf hfind
    obtain ⟨hlen, hcomment, -⟩ := findEocd_comment hfind
    have hdrop : (f.drop (tailOff f)).drop (e - tailOff f) = f.drop e := by
      rw [List.drop_drop, Nat.add_sub_cancel' hle]
    rw [hparse, parseWhole_of_find hfind]
    constructor
    · rintro heq ⟨e', he', hplain, hloc, hlong⟩
      rw [hfind] at he'
      obtain rfl := Option.some.inj he'
      -- the tail starts behind the locator's signature
      have hnot : ¬ HasLocator (f.drop (tailOff f)) (e - tailOff f) := by
        rintro ⟨h20, -⟩
        omega
      rw [checkEocd_of_locator hplain hloc, error_bind] at heq
      have hne := checkEocd_ne_zip64Locator (e := e) hnot
      cases hc : checkEocd .wrap (f.drop (tailOff f)) (e - tailOff f) e with
      | error err =>
        rw [hc, error_bind] at heq
        exact hne (by rw [hc, Except.error.inj heq])
      | ok r =>
        rw [hc, ok_bind] at heq
        cases hs : findSigBlock .wrap (ReadAt.ofBytes f) r.1 with
        | error err =>
          simp only [hs, error_bind] at heq
          exact findSigBlock_ne_zip64Locator (ReadAt.ofBytes f) r.1
            (by rw [hs, Except.error.inj heq])
        | ok r' =>
          simp only [hs, ok_bind] at heq
          cases heq
    · intro hnh
      have hsame : checkEocd .wrap (f.drop (tailOff f)) (e - tailOff f) e
          = checkEocd .wrap f e e := by
        by_cases hplain : PlainFields (f.drop e)
        · by_cases hshort : u16le f (e + 20) ≤ 65515
          · exact checkEocd_congr hdrop (locator_in_tail hfind hshort)
          · have hno : ¬ HasLocator f e := fun hl => hnh ⟨e, hfind, hplain, hl, by omega⟩
            refine checkEocd_congr hdrop ⟨fun hl => ?_, fun hl => absurd hl hno⟩
            omega
        · exact checkEocd_of_not_plain hdrop (by rw [hdrop]; exact hplain)
      rw [hsame]

end Tail

set_option maxRecDepth 4000 in
theorem comment_mixedApk : u16le mixedApk (392 + 20) = 0 := by decide

theorem parse_eq_parseWhole_mixed : ¬ HiddenLocator mixedApk ∧
    parse (ReadAt.ofBytes mixedApk) = parseWhole mixedApk := by
  have hno : ¬ HiddenLocator mixedApk := by
    rintro ⟨e, he, -, -, hlong⟩
    rw [findEocd_mixedApk] at he
    obtain rfl := Option.some.inj he
    rw [comment_mixedApk] at hlong
    omega
  have hsmall : mixedApk.length < 2 ^ 64 := by
    rw [length_mixedApk]
    decide
  exact ⟨hno, (parse_eq_parseWhole_iff hsmall).mpr hno⟩

/-- A Zip64 locator, an empty archive's record and the longest comment. -/
def hiddenLocatorFile : Bytes :=
  (zip64LocatorSig ++ List.replicate 16 0
      ++ (eocdSig ++ List.replicate 12 0 ++ [20, 0, 0, 0, 0xff, 0xff]))
    ++ List.replicate 65535 0

theorem length_hiddenLocatorFile : hiddenLocatorFile.length = 65577 := by
  rw [hiddenLocatorFile, List.length_append, List.length_replicate]
  decide

theorem slice_hiddenLocatorFile {i j : Nat} (h : j ≤ 42) :
    slice hiddenLocatorFile i j = slice (zip64LocatorSig ++ List.replicate 16 0
      ++ (eocdSig ++ List.replicate 12 0 ++ [20, 0, 0, 0, 0xff, 0xff])) i j := by
  rw [hiddenLocatorFile, slice_append_left _ _ (Nat.le_trans h (by decide))]

theorem hiddenLocatorFile_ne_sig {i : Nat} (h : 20 < i) :
    slice hiddenLocatorFile i (i + 4) ≠ eocdSig := by
  intro hs
  have h0 : hiddenLocatorFile[i]? = some 0x50 := by
    have := congrArg (fun l => l[0]?) hs
    simp only [getElem?_slice, Nat.add_zero] at this
    rw [if_pos (by omega)] at this
    exact this
  by_cases hi : i < 42
  · rw [hiddenLocatorFile, List.getElem?_append_left (Nat.lt_of_lt_of_le hi (by decide))] at h0
    interval_cases i <;> revert h0 <;> decide
  · rw [hiddenLocatorFile, List.getElem?_append_right (Nat.le_trans (by decide) (Nat.not_lt.mp hi)),
      List.getElem?_replicate] at h0
    split at h0
    · cases h0
    · cases h0

theorem findEocd_hiddenLocatorFile : findEocd hiddenLocatorFile = some 20 := by
  have hmin : eocdMinLen = 22 := rfl
  have hlen := length_hiddenLocatorFile
  rw [findEocd_eq_some_iff]
  refine ⟨65535, Nat.le_refl _, by rw [hmin, hlen], ?_, ?_⟩
  · rw [eocdWith, hlen]
    simp only [hmin, Nat.reduceSub, Nat.reduceAdd, u16le]
    rw [slice_hiddenLocatorFile (by decide), slice_hiddenLocatorFile (by decide)]
    decide
  · intro c hc
    rw [eocdWith, hlen]
    simp only [hmin, Bool.and_eq_false_iff, decide_eq_false_iff_not]
    exact Or.inl (hiddenLocatorFile_ne_sig (by omega))

/-- `parse` accepts it, and the whole file shows the locator. -/
theorem hiddenLocatorFile_accepted :
    parse (ReadAt.ofBytes hiddenLocatorFile)
      = .ok ⟨65577, 20, none, 20, 0, 20, hiddenLocatorFile.drop 20⟩ ∧
    parseWhole hiddenLocatorFile = .error .zip64Locator ∧
    parse (ReadAt.ofBytes hiddenLocatorFile) ≠ parseWhole hiddenLocatorFile := by
  have hmin : eocdMinLen = 22 := rfl
  have hlen := length_hiddenLocatorFile
  have hfind := findEocd_hiddenLocatorFile
  have htl : tailLen hiddenLocatorFile = 65557 := by
    rw [tailLen, hlen]
    decide
  have h16 : ∀ {i v : Nat}, i + 2 ≤ 42 → u16le (zip64LocatorSig ++ List.replicate 16 0
      ++ (eocdSig ++ List.replicate 12 0 ++ [20, 0, 0, 0, 0xff, 0xff])) i = v →
      u16le hiddenLocatorFile i = v := by
    intro i v hi hv
    rw [u16le, slice_hiddenLocatorFile hi, ← hv, u16le]
  have h32 : ∀ {i v : Nat}, i + 4 ≤ 42 → u32le (zip64LocatorSig ++ List.replicate 16 0
      ++ (eocdSig ++ List.replicate 12 0 ++ [20, 0, 0, 0, 0xff, 0xff])) i = v →
      u32le hiddenLocatorFile i = v := by
    intro i v hi hv
    rw [u32le, slice_hiddenLocatorFile hi, ← hv, u32le]
  have hfields : EocdFields (hiddenLocatorFile.drop 20) := by
    refine ⟨?_, ?_, ?_, ?_, ?_, ?_⟩ <;> simp only [u16le_drop, u32le_drop]
    · exact h16 (by decide) (by decide)
    · exact h16 (by decide) (by decide)
    · rw [h16 (v := 0) (by decide) (by decide), h16 (v := 0) (by decide) (by decide)]
    · rw [h16 (v := 0) (by decide) (by decide)]
      decide
    · rw [h32 (v := 0) (by decide) (by decide)]
      decide
    · rw [h32 (v := 20) (by decide) (by decide)]
      decide
  have haccept : parse (ReadAt.ofBytes hiddenLocatorFile)
      = .ok ⟨65577, 20, none, 20, 0, 20, hiddenLocatorFile.drop 20⟩ := by
    rw [parse, parseWith_eq_ok_iff _ (by omega)]
    refine ⟨hfind, hfields, ?_, (h32 (by decide) (by decide)).symm,
      (h32 (by decide) (by decide)).symm, rfl, hlen.symm, rfl, rfl⟩
    rintro ⟨h1, -⟩
    rw [htl, hlen] at h1
    simp only at h1
    omega
  have hwhole : parseWhole hiddenLocatorFile = .error .zip64Locator := by
    rw [parseWhole_of_find hfind, checkEocd_of_locator ?_ ?_, error_bind]
    · have h1 := hfields.disk
      have h2 := hfields.cdDisk
      have h3 := hfields.entries
      have h4 := hfields.total_ne
      have h5 := hfields.size_ne
      have h6 := hfields.off_ne
      exact ⟨by omega, by omega⟩
    · refine ⟨Nat.le_refl _, ?_⟩
      rw [slice_hiddenLocatorFile (by decide)]
      decide
  refine ⟨haccept, hwhole, ?_⟩
  rw [haccept, hwhole]
  simp

end FastSigner.Zip

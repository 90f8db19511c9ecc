import FastSigner.Align.Again
import FastSigner.Sign.Spec

/-!
# Reading a signed APK

A signed APK is read by the parser that read the input.  It finds the four parts
again if it finds the EOCD record (a comment can hold something that looks like one),
if no Zip64 locator seems to stand in front of it, and if the number of entries is not
the one that says "see there".

* `directoryOf_contentSpec`: the directory of a content, on either way.
* `counts_eocd`: the record counts its entries, modulo `2 ^ 16`.
* `Signed.parse_iff`: when the parser finds the parts.
* `reparsed_of_signSpec`: all of it, for what `signSpec` returns.
-/

namespace FastSigner.Sign

open Lib Zip Digest Align SigBlock

/-! ### The directory of a content -/

/-- Records that the next signing keeps. -/
structure Directory (cd : Bytes) (rs : List Bytes) : Prop where
  wf : ∀ r ∈ rs, WfRecord r
  output : ∀ r ∈ rs, isOutput r = true
  flatten : cd = rs.flatten

section Directory

variable {R : Crypto} {opts : Opts} {alg : Algorithm} {k : Luck} {apk cd : Bytes} {P : Parsed}
  {c : Content} {rs : List Bytes}

theorem Directory.filter (h : Directory cd rs) : rs.filter isOutput = rs :=
  List.filter_eq_self.mpr h.output

theorem Directory.parse (h : Directory cd rs) : parseCdEntries cd = .ok (entriesFrom 0 rs) :=
  parseCdEntries_eq_ok_iff.mpr ⟨rs, h.wf, h.flatten, rfl⟩

theorem Directory.nil_or_le (h : Directory cd rs) : cd = [] ∨ 46 ≤ cd.length := by
  rw [h.flatten]
  cases rs with
  | nil => exact Or.inl rfl
  | cons r rs =>
    right
    have hle := (h.wf r List.mem_cons_self).le
    rw [List.flatten_cons, List.length_append]
    omega

/-- **The directory of a content**, spliced or rewritten. -/
theorem directoryOf_contentSpec (h : IsParsed apk P cd)
    (hc : contentSpec R opts alg k apk P cd = .ok c) :
    ∃ rs, Directory c.cd rs ∧ c.count = rs.length := by
  rcases contentSpec_eq_ok_iff.mp hc with ⟨-, hc⟩ | ⟨-, hc⟩
  · obtain ⟨-, all, policies, rw_, rs, ps, -, hcd, hcount, hre⟩ := rebuilt_of_rewriteContent h hc
    refine ⟨movedRecords rs (offOf ps), ⟨?_, ?_, hcd.trans hre.newCd⟩, ?_⟩
    · intro r hr
      obtain ⟨x, hx, rfl⟩ := List.mem_map.mp hr
      exact wfRecord_setLfhOff (hre.wf_kept hx) _
    · intro r hr
      obtain ⟨x, hx, rfl⟩ := List.mem_map.mp hr
      rw [isOutput, recordPolicy, recordName_setLfhOff (hre.wf_kept hx)]
      exact (List.mem_filter.mp hx).2
    · rw [hcount, hre.count, length_movedRecords]
  · obtain ⟨rfl, -, -⟩ := spliceContent_eq_ok_iff.mp hc
    obtain ⟨rs, hwf, -, hcd, hkept⟩ := h.exists_records
    refine ⟨rs.filter isOutput, ⟨fun r hr => hwf r (List.mem_of_mem_filter hr),
      fun r hr => (List.mem_filter.mp hr).2, hcd⟩, ?_⟩
    rw [spliced, hkept, length_entriesFrom]

theorem count_of_contentSpec (h : IsParsed apk P cd)
    (hc : contentSpec R opts alg k apk P cd = .ok c) : c.count = P.filtered.kept.length := by
  rcases contentSpec_eq_ok_iff.mp hc with ⟨-, hc⟩ | ⟨-, hc⟩
  · obtain ⟨-, all, policies, rw_, rs, ps, -, -, hcount, hre⟩ := rebuilt_of_rewriteContent h hc
    obtain ⟨-, hkept⟩ := Rebuilt.kept h rfl hre
    rw [hcount, hre.count, hkept, length_entriesFrom, ← map_fst_keptRecords, List.length_map]
  · obtain ⟨rfl, -, -⟩ := spliceContent_eq_ok_iff.mp hc
    rfl

end Directory

/-! ### The record -/

section Record

variable {e : Bytes} {c : Content}

theorem slice_eocd (ht : IsEocd e) (c : Content) (n : Nat) {i j : Nat} (h : j ≤ 8 ∨ 20 ≤ i) :
    slice (c.eocd e n) i j = slice e i j := by
  have hle := ht.le
  have hcount := (ht.setEocdEntryCount c.count).le
  have hlay := (ht.layout c).le
  rw [Content.eocd, setEocdCdOffset,
    slice_patch_of_disjoint (by rw [length_leBytes]; omega) (by rw [length_leBytes]; omega),
    Content.layout, Sign.layout, setEocdCdSize,
    slice_patch_of_disjoint (by rw [length_leBytes]; omega) (by rw [length_leBytes]; omega),
    setEocdEntryCount,
    slice_patch_of_disjoint (by rw [length_patch (by rw [length_leBytes]; omega), length_leBytes]; omega)
      (by rw [length_leBytes]; omega),
    slice_patch_of_disjoint (by rw [length_leBytes]; omega) (by rw [length_leBytes]; omega)]

/-- **The record counts its entries**, twice, and in sixteen bits. -/
theorem counts_eocd (ht : IsEocd e) (c : Content) (n : Nat) :
    u16le (c.eocd e n) 8 = c.count % 2 ^ 16 ∧ u16le (c.eocd e n) 10 = c.count % 2 ^ 16 := by
  have hle := ht.le
  have hcount := (ht.setEocdEntryCount c.count).le
  have hlay := (ht.layout c).le
  have hfirst : (patch e 8 (leBytes 2 c.count)).length = e.length :=
    length_patch (by rw [length_leBytes]; omega)
  have hfield : ∀ {i : Nat}, 8 ≤ i → i + 2 ≤ 12 →
      slice (c.eocd e n) i (i + 2) = slice (setEocdEntryCount e c.count) i (i + 2) := by
    intro i h8 h12
    rw [Content.eocd, setEocdCdOffset,
      slice_patch_of_disjoint (by rw [length_leBytes]; omega) (by rw [length_leBytes]; omega),
      Content.layout, Sign.layout, setEocdCdSize,
      slice_patch_of_disjoint (by rw [length_leBytes]; omega) (by rw [length_leBytes]; omega)]
  have h8 : slice (setEocdEntryCount e c.count) 8 10 = leBytes 2 c.count := by
    have := slice_patch_self (l := e) (v := leBytes 2 c.count) (i := 8)
      (by rw [length_leBytes]; omega)
    rw [length_leBytes] at this
    rw [setEocdEntryCount, slice_patch_of_disjoint (by rw [hfirst, length_leBytes]; omega)
      (by rw [length_leBytes]; omega), this]
  have h10 : slice (setEocdEntryCount e c.count) 10 12 = leBytes 2 c.count := by
    have := slice_patch_self (l := patch e 8 (leBytes 2 c.count)) (v := leBytes 2 c.count) (i := 10)
      (by rw [hfirst, length_leBytes]; omega)
    rw [length_leBytes] at this
    rw [setEocdEntryCount, this]
  refine ⟨?_, ?_⟩
  · rw [u16le, hfield (by decide) (by decide), h8, leNat_leBytes]
    rfl
  · rw [u16le, hfield (by decide) (by decide), h10, leNat_leBytes]
    rfl

/-- A record behind other bytes is found where it is found alone. -/
theorem findEocd_append (a : Bytes) : findEocd (a ++ e) = some a.length ↔ findEocd e = some 0 := by
  have hdrop : (a ++ e).drop a.length = e := List.drop_left
  have hwith : ∀ {c : Nat}, eocdMinLen + c ≤ e.length → eocdWith (a ++ e) c = eocdWith e c := by
    intro c hc
    have := eocdWith_drop (f := a ++ e) (n := a.length) (c := c)
      (by rw [List.length_append]; omega)
    rw [hdrop] at this
    exact this.symm
  rw [findEocd_eq_some_iff, findEocd_eq_some_iff, List.length_append]
  constructor
  · rintro ⟨c, hc, hlen, hw, hmin⟩
    refine ⟨c, hc, by omega, ?_, fun c' hc' => ?_⟩
    · rw [← hwith (by omega)]
      exact hw
    · rw [← hwith (by omega)]
      exact hmin c' hc'
  · rintro ⟨c, hc, hlen, hw, hmin⟩
    refine ⟨c, hc, by omega, ?_, fun c' hc' => ?_⟩
    · rw [hwith (by omega)]
      exact hw
    · rw [hwith (by omega)]
      exact hmin c' hc'

theorem findEocd_of_noComment (h : IsEocd e) (h0 : u16le e 20 = 0) : findEocd e = some 0 := by
  have hlen := h.len
  rw [h0, Nat.add_zero] at hlen
  refine findEocd_eq_some_iff.mpr ⟨0, Nat.zero_le _, by omega, ?_, fun c hc => by omega⟩
  simp only [eocdWith, hlen, Nat.sub_self, Nat.zero_add, h.sig, h0, decide_true, Bool.and_self]

end Record

/-! ### Parsing -/

/-- The record `E` behind the directory `D` can be found again: nothing in its comment is taken for
it, and no Zip64 locator seems to stand in front of it, where one would be looked for. -/
structure Findable (D E : Bytes) : Prop where
  record : findEocd E = some 0
  noLocator : ¬ (E.length + 20 ≤ eocdMinLen + maxCommentLen ∧ 20 ≤ D.length ∧
    slice D (D.length - 20) (D.length - 16) = zip64LocatorSig)

/-- What the parser is to find in a signed APK. -/
def signedSections (C B D E : Bytes) : ZipSections where
  fileLen := (C ++ B ++ D ++ E).length
  entriesEnd := C.length
  sigBlock := some (C.length, B.length)
  cdOff := C.length + B.length
  cdSize := D.length
  eocdOff := C.length + B.length + D.length
  eocd := E

section Parse

variable {R : Crypto} {opts : Opts} {signer : Signer} {F C B D E : Bytes}

theorem Signed.le_block (h : Signed R opts signer F C B D E) : 4096 ≤ B.length := by
  have hpage : B.length % 4096 = 0 := h.block_page
  have hmagic := congrArg List.length h.magic
  rw [length_slice_of_le _ (Nat.le_refl _), length_magic] at hmagic
  omega

/-- The block is where the parser looks for one. -/
theorem Signed.isSigBlock (h : Signed R opts signer F C B D E) :
    IsSigBlock F (C.length + B.length) C.length B.length := by
  have hle := h.le_block
  have hblock : ∀ {i j : Nat}, j ≤ B.length →
      slice F (C.length + i) (C.length + j) = slice B i j := by
    intro i j hj
    rw [h.file, slice_append_left _ _ (by simp only [List.length_append]; omega),
      slice_append_left _ _ (by simp only [List.length_append]; omega),
      slice_append_right _ _ (by omega), Nat.add_sub_cancel_left, Nat.add_sub_cancel_left]
  have hfield : ∀ {i : Nat}, i + 8 ≤ B.length → u64le F (C.length + i) = u64le B i := by
    intro i hi
    rw [u64le, u64le, Nat.add_assoc, hblock hi]
  refine ⟨rfl, by omega, ?_, ?_, ?_⟩
  · rw [← Nat.add_zero C.length, hfield (by omega), h.block_head]
  · rw [show C.length + B.length - 24 = C.length + (B.length - 24) by omega, hfield (by omega),
      h.block_foot]
  · rw [show C.length + B.length - 16 = C.length + (B.length - 16) by omega,
      hblock (Nat.le_refl _), h.magic]
    rfl

theorem Signed.locatorBefore_iff (h : Signed R opts signer F C B D E)
    (hD : D = [] ∨ 46 ≤ D.length) (hB : B.length < 2 ^ 32) :
    LocatorBefore F (C.length + B.length + D.length) ↔
      E.length + 20 ≤ eocdMinLen + maxCommentLen ∧ 20 ≤ D.length ∧
        slice D (D.length - 20) (D.length - 16) = zip64LocatorSig := by
  have hle := h.le_block
  have hF : F.length = C.length + B.length + D.length + E.length := by
    rw [h.file]
    simp only [List.length_append]
  have hmax : eocdMinLen + maxCommentLen = 65557 := rfl
  have htail : tailLen F = min F.length 65557 := rfl
  rw [LocatorBefore, hmax]
  by_cases h20 : 20 ≤ D.length
  · have hslice : slice F (C.length + B.length + D.length - 20)
        (C.length + B.length + D.length - 16) = slice D (D.length - 20) (D.length - 16) := by
      rw [h.file, slice_append_left _ _ (by simp only [List.length_append]; omega),
        slice_append_right _ _ (by simp only [List.length_append]; omega), List.length_append]
      congr 1
      · omega
      · omega
    rw [hslice]
    constructor
    · rintro ⟨h1, h2⟩
      exact ⟨by omega, h20, h2⟩
    · rintro ⟨h1, -, h2⟩
      exact ⟨by omega, h2⟩
  · refine ⟨fun hloc => ?_, fun hloc => absurd hloc.2.1 h20⟩
    rcases hD with rfl | hD
    · -- the upper half of the size field
      exfalso
      have hfoot := h.block_foot
      have hsplit := slice_append_slice B (show B.length - 24 ≤ B.length - 20 by omega)
        (show B.length - 20 ≤ B.length - 16 by omega)
      have hslice : slice F (C.length + B.length - 20) (C.length + B.length - 16)
          = slice B (B.length - 20) (B.length - 16) := by
        rw [h.file, List.append_nil,
          slice_append_left _ _ (by simp only [List.length_append]; omega),
          slice_append_right _ _ (by omega)]
        congr 1
        · omega
        · omega
      have hsig := hloc.2
      rw [List.length_nil, Nat.add_zero, hslice] at hsig
      rw [hsig] at hsplit
      rw [u64le, show B.length - 24 + 8 = B.length - 16 by omega, ← hsplit, leNat_append,
        length_slice_of_le _ (by omega), show B.length - 20 - (B.length - 24) = 4 by omega] at hfoot
      have hbig : leNat zip64LocatorSig = 117853008 := by decide
      rw [hbig] at hfoot
      omega
    · omega

/-- **The parser reads a signed APK**, and finds its four parts, exactly if the record can be found
and does not count `0xffff` entries. -/
theorem Signed.parse_iff (h : Signed R opts signer F C B D E) (hF : F.length < 2 ^ 64)
    (hD : D = [] ∨ 46 ≤ D.length) (hDlt : D.length < 0xffffffff)
    (hdisk : u16le E 4 = 0) (hcdDisk : u16le E 6 = 0) (hcount : u16le E 8 = u16le E 10) :
    Zip.parse (ReadAt.ofBytes F) = .ok (signedSections C B D E) ↔
      u16le E 10 ≠ 0xffff ∧ Findable D E := by
  have hle := h.le_block
  have hoff := h.cdOff
  have hoffLt := u32le_lt E 16
  have hlen : F.length = C.length + B.length + D.length + E.length := by
    rw [h.file]
    simp only [List.length_append]
  have h22 := h.eocd.le
  have hdrop : F.drop (C.length + B.length + D.length) = E := by
    rw [h.file]
    exact List.drop_left' (by simp only [List.length_append])
  have hfind : findEocd F = some (C.length + B.length + D.length) ↔ findEocd E = some 0 := by
    have := @findEocd_append E (C ++ B ++ D)
    rw [List.length_append, List.length_append] at this
    rw [h.file, this]
  have hcut : ∀ {i : Nat}, u32le F (C.length + B.length + D.length + i) = u32le E i := by
    intro i
    rw [← hdrop, u32le_drop]
  have hblock := sigBlockAt_eq_some_iff.mpr h.isSigBlock
  have hsig : findSigBlock .wrap (ReadAt.ofBytes F) (C.length + B.length)
      = .ok (some (C.length, B.length), C.length) := by
    have hfits : ∀ size, footerSize F (C.length + B.length) = some size → size + 8 < 2 ^ 64 := by
      intro size hsize
      rw [sigBlockAt, hsize] at hblock
      simp only at hblock
      split at hblock
      · simp only [Option.some.injEq, Prod.mk.injEq] at hblock
        omega
      · cases hblock
    rw [findSigBlock_of_fits .wrap (by omega) hfits, hblock]
    rfl
  rw [Zip.parse, parseWith_eq_ok_iff .wrap hF]
  simp only [signedSections]
  rw [hfind, hdrop, h.locatorBefore_iff hD (by omega), hcut, hcut, h.cdOff, h.cdSize, ← h.file]
  have hfields : EocdFields E ↔ u16le E 10 ≠ 0xffff := by
    have hpage : C.length % 4096 = 0 := h.contents_page
    have hpage' : B.length % 4096 = 0 := h.block_page
    refine ⟨fun hf => hf.total_ne, fun hn => ⟨hdisk, hcdDisk, hcount, hn, ?_, ?_⟩⟩
    · rw [h.cdSize]
      omega
    · rw [hoff]
      omega
  rw [hfields]
  constructor
  · rintro ⟨hrec, hn, hloc, -⟩
    exact ⟨hn, hrec, hloc⟩
  · rintro ⟨hn, hrec, hloc⟩
    exact ⟨hrec, hn, hloc, rfl, rfl, trivial, rfl, rfl, hsig⟩

end Parse

theorem Signed.parts_eq {opts' : Opts} {signer' : Signer} {C' B' D' E' : Bytes}
    (h : Signed R opts signer F C B D E) (h' : Signed R opts' signer' F C' B' D' E')
    (hlen : E.length = E'.length) : D = D' ∧ E = E' := by
  obtain ⟨hfront, rfl⟩ := List.append_inj' (h.file.symm.trans h'.file) hlen
  obtain ⟨-, rfl⟩ := List.append_inj' hfront (h.cdSize.symm.trans h'.cdSize)
  exact ⟨rfl, rfl⟩

/-! ### What was signed -/

section Spec

variable {R : Crypto} {opts : Opts} {key : Option Signer} {k : Luck} {apk cd F : Bytes}
  {P : Parsed} {c : Content} {alg : Algorithm}

theorem IsParsed.eocdFields (h : IsParsed apk P cd) :
    EocdFields P.sections.eocd ∧ u32le P.sections.eocd 12 = P.sections.cdSize := by
  obtain ⟨-, hfields, -, -, hsize, -, -, heocd, -⟩ :=
    (parseWith_eq_ok_iff .wrap h.small).mp h.sections
  rw [heocd, u32le_drop, ← hsize]
  exact ⟨hfields, rfl⟩

theorem length_cd_le_of_contentSpec (h : IsParsed apk P cd)
    (hc : contentSpec R opts alg k apk P cd = .ok c) : c.cd.length ≤ P.sections.cdSize := by
  have hlen := h.length_cd_le
  rcases contentSpec_eq_ok_iff.mp hc with ⟨-, hc⟩ | ⟨-, hc⟩
  · obtain ⟨-, all, policies, rw_, rs, ps, -, hcd, -, hre⟩ := rebuilt_of_rewriteContent h hc
    obtain ⟨hkept, -⟩ := Rebuilt.kept h rfl hre
    rw [hcd, Rebuilt.length_newCd hre, ← hkept]
    exact hlen
  · obtain ⟨rfl, -, -⟩ := spliceContent_eq_ok_iff.mp hc
    exact hlen

/-- What signing makes of an APK: the parts of the result, and the records of its directory. -/
structure Made (R : Crypto) (opts : Opts) (signer : Signer) (seeds : Nat × Nat) (P : Parsed)
    (c : Content) (F B : Bytes) (rs : List Bytes) : Prop where
  signed : Signed R opts signer F (Align.padded c.entries) B c.cd
    (c.eocd P.sections.eocd B.length)
  block : signBlock opts signer seeds (c.digest R signer.contentDigest P.sections.eocd) = .ok B
  room : (Align.padded c.entries).length + B.length ≤ 0xffffffff
  directory : Directory c.cd rs
  count : c.count = rs.length

theorem exists_made (hp : IsParsed apk P cd) {signer : Signer}
    (hc : contentSpec R opts signer.contentDigest k apk P cd = .ok c)
    (hseal : sealContent R opts signer k.seeds P.sections.eocd c = .ok F) :
    ∃ B rs, Made R opts signer k.seeds P c F B rs := by
  obtain ⟨rs, hrs, hcount⟩ := directoryOf_contentSpec hp hc
  obtain ⟨B, hblock, hroom, hB⟩ :=
    signed_of_sealContent hp.bounds.isEocd (length_cd_of_contentSpec hp hc) hseal
  exact ⟨B, rs, hB, hblock, hroom, hrs, hcount⟩

theorem Made.small {signer : Signer} {seeds : Nat × Nat} {B : Bytes} {rs : List Bytes}
    (hp : IsParsed apk P cd) (hsize : c.cd.length ≤ P.sections.cdSize)
    (h : Made R opts signer seeds P c F B rs) : F.length < 2 ^ 64 := by
  have hlt := hp.bounds.cdSize_lt
  have hroom := h.room
  have hE := h.signed.eocd.len
  have hcomment := u16le_lt (c.eocd P.sections.eocd B.length) 20
  have hmin : eocdMinLen = 22 := rfl
  rw [h.signed.file]
  simp only [List.length_append]
  omega

/-- **A signed APK is read again**, unless it counts `0xffff` entries or its record cannot be
found. -/
theorem Made.parse_iff {signer : Signer} {seeds : Nat × Nat} {B : Bytes} {rs : List Bytes}
    (hp : IsParsed apk P cd) (hsize : c.cd.length ≤ P.sections.cdSize)
    (h : Made R opts signer seeds P c F B rs) :
    Zip.parse (ReadAt.ofBytes F) = .ok (signedSections (Align.padded c.entries) B c.cd
        (c.eocd P.sections.eocd B.length)) ↔
      rs.length % 2 ^ 16 ≠ 0xffff ∧ Findable c.cd (c.eocd P.sections.eocd B.length) := by
  obtain ⟨hfields, -⟩ := hp.eocdFields
  have ht := hp.bounds.isEocd
  obtain ⟨h8, h10⟩ := counts_eocd ht c B.length
  have hlt := hp.bounds.cdSize_lt
  have hne := hfields.size_ne
  rw [hp.eocdFields.2] at hne
  rw [h.signed.parse_iff (h.small hp hsize) h.directory.nil_or_le (by omega), h10, h.count]
  · rw [u16le, slice_eocd ht c _ (by decide), ← hfields.disk, u16le]
  · rw [u16le, slice_eocd ht c _ (by decide), ← hfields.cdDisk, u16le]
  · rw [h8, h10]

/-- If the parser finds the record where it was written, it finds everything. -/
theorem Made.parse_of_found {signer : Signer} {seeds : Nat × Nat} {B : Bytes} {rs : List Bytes}
    (hp : IsParsed apk P cd) (hsize : c.cd.length ≤ P.sections.cdSize)
    (h : Made R opts signer seeds P c F B rs) {s : ZipSections}
    (hs : Zip.parse (ReadAt.ofBytes F) = .ok s)
    (heocd : s.eocd.length = (c.eocd P.sections.eocd B.length).length) :
    Zip.parse (ReadAt.ofBytes F) = .ok (signedSections (Align.padded c.entries) B c.cd
        (c.eocd P.sections.eocd B.length)) := by
  have hF := h.small hp hsize
  obtain ⟨hfind, hfields, hloc, -, -, -, -, hdrop, -⟩ := (parseWith_eq_ok_iff .wrap hF).mp hs
  have hfile := h.signed.file
  have h22 := h.signed.eocd.le
  have hroom := h.room
  have hlt := hp.bounds.cdSize_lt
  have hoff : s.eocdOff = (Align.padded c.entries).length + B.length + c.cd.length := by
    have hlen := congrArg List.length hfile
    simp only [List.length_append] at hlen
    rw [hdrop, List.length_drop] at heocd
    omega
  have hE : F.drop s.eocdOff = c.eocd P.sections.eocd B.length := by
    rw [hoff, hfile]
    exact List.drop_left' (by simp only [List.length_append])
  refine (h.parse_iff hp hsize).mpr ⟨?_, ?_, ?_⟩
  · have hne := hfields.total_ne
    rw [hE, (counts_eocd hp.bounds.isEocd c B.length).2, h.count] at hne
    exact hne
  · have happ := @findEocd_append (c.eocd P.sections.eocd B.length)
      (Align.padded c.entries ++ B ++ c.cd)
    rw [← hfile, List.length_append, List.length_append, ← hoff] at happ
    exact happ.mp hfind
  · rw [hoff, h.signed.locatorBefore_iff h.directory.nil_or_le (by omega)] at hloc
    exact hloc

/-- How a signed APK `F` of `apk`, whose sections are `s`, is read. -/
structure Reparsed (s : ZipSections) (F C B D E : Bytes) (entries : List CdEntry) : Prop where
  file : F = C ++ B ++ D ++ E
  eocd : IsEocd E
  length_eocd : E.length = s.eocd.length
  length_cd : D.length ≤ s.cdSize
  parsed : parseCdEntries D = .ok entries
  count : u16le E 8 = entries.length % 2 ^ 16 ∧ u16le E 10 = entries.length % 2 ^ 16
  found : Zip.parse (ReadAt.ofBytes F) = .ok (signedSections C B D E) ↔
    entries.length % 2 ^ 16 ≠ 0xffff ∧ Findable D E

theorem length_eocd (ht : IsEocd P.sections.eocd) (n : Nat) :
    (c.eocd P.sections.eocd n).length = P.sections.eocd.length := by
  have hE := (isEocd_eocd ht c n).len
  rw [u16le, slice_eocd ht c _ (by decide)] at hE
  exact hE.trans ht.len.symm

/-- What `signSpec` returns was made of what it read. -/
theorem made_of_signSpec (h : signSpec R opts key k apk = .ok F) :
    ∃ signer P cd c B rs, key = some signer ∧ parseInput apk = .ok (P, cd) ∧ IsParsed apk P cd ∧
      contentSpec R opts signer.contentDigest k apk P cd = .ok c ∧
      Made R opts signer k.seeds P c F B rs := by
  obtain ⟨signer, P, cd, c, hkey, hparse, hlen, hc, hseal⟩ := signSpec_eq_ok_iff.mp h
  have hp := isParsed_of_parseInput hlen hparse
  obtain ⟨B, rs, hm⟩ := exists_made hp hc hseal
  exact ⟨signer, P, cd, c, B, rs, hkey, hparse, hp, hc, hm⟩

/-- **How a signed APK is read**: its parts are the ones that were signed. -/
theorem reparsed_of_signSpec (h : signSpec R opts key k apk = .ok F) :
    ∃ signer s C B D E entries, key = some signer ∧ Signed R opts signer F C B D E ∧
      Zip.parse (ReadAt.ofBytes apk) = .ok s ∧ Reparsed s F C B D E entries := by
  obtain ⟨signer, P, cd, c, B, rs, hkey, -, hp, hc, hm⟩ := made_of_signSpec h
  have hsize := length_cd_le_of_contentSpec hp hc
  have hcount := @length_entriesFrom 0 rs
  refine ⟨signer, P.sections, _, B, _, _, entriesFrom 0 rs, hkey, hm.signed, hp.sections,
    hm.signed.file, hm.signed.eocd, length_eocd hp.bounds.isEocd _, hsize, hm.directory.parse, ?_, ?_⟩
  · rw [hcount, ← hm.count]
    exact counts_eocd hp.bounds.isEocd c B.length
  · rw [hcount]
    exact hm.parse_iff hp hsize

end Spec

end FastSigner.Sign

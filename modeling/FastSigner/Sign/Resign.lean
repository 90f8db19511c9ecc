import FastSigner.Sign.Agree
import FastSigner.Sign.Entries

/-!
# Signing a signed APK

A signed APK is a fixpoint.  Its section is a whole number of pages and needs no
padding, its record already counts what is to be counted, and its entries need not
be moved; so what is signed the second time is what was signed the first time, and
the same block comes out.

* `sealContent_paged`: the content as it stands in the file is sealed to the same file.
* `contentSpec_again`: it is the content that the second signing takes.
* `signSpec_again`: signing the result again gives the result.
* `signOne_again` and `signOne_fixpoint`: the same of two runs, one after the other, unless one of
  them is given its temporary file to sign (`signOne_fixpoint_clobbered`).
-/

namespace FastSigner.Sign

open Lib Zip Digest Align SigBlock Script

/-! ### Sealing once more -/

section Seal

variable {R : Crypto} {opts : Opts} {signer : Signer} {seeds seeds' : Nat × Nat} {e F B : Bytes}
  {c : Content}

theorem patch_leBytes_self {k n i : Nat} (hi : i + k ≤ e.length)
    (h : leNat (slice e i (i + k)) = n % 256 ^ k) : patch e i (leBytes k n) = e := by
  have hlen : (slice e i (i + k)).length = k := by
    rw [length_slice_of_le _ hi]
    omega
  have hv := leBytes_leNat (slice e i (i + k))
  rw [hlen, h, leBytes_mod] at hv
  rw [hv, patch_slice_self (by omega) hi]

theorem padded_of_page {b : Bytes} (h : b.length % pageAlignment = 0) : Align.padded b = b := by
  have hpage : pageAlignment = 4096 := rfl
  have hpad : paddingBeforeBlock b.length = 0 := by
    rw [hpage] at h
    rw [paddingBeforeBlock, hpage]
    omega
  rw [Align.padded, hpad, List.replicate_zero, List.append_nil]

/-- The content as it stands in the signed file. -/
def Content.paged (c : Content) : Content := { c with entries := Align.padded c.entries }

theorem layout_paged (ht : IsEocd e) (hcd : c.cd.length < 2 ^ 32) {n : Nat}
    (hn : (Align.padded c.entries).length + n < 2 ^ 32) :
    (c.paged.layout (c.eocd e n)).eocd = c.eocd e n := by
  obtain ⟨h8, h10⟩ := counts_eocd ht c n
  obtain ⟨-, h12⟩ := fields_eocd ht hcd hn
  have hle := (isEocd_eocd ht c n).le
  have hcount : setEocdEntryCount (c.eocd e n) c.count = c.eocd e n := by
    rw [setEocdEntryCount, patch_leBytes_self (by omega) h8, patch_leBytes_self (by omega) h10]
  have hsize : leNat (slice (c.eocd e n) 12 (12 + 4)) = c.cd.length % 256 ^ 4 := by
    rw [Nat.mod_eq_of_lt (by omega)]
    exact h12
  rw [Content.layout, Sign.layout]
  simp only [Content.paged]
  rw [hcount, setEocdCdSize, patch_leBytes_self (by omega) hsize]

theorem padded_paged (c : Content) : Align.padded c.paged.entries = Align.padded c.entries :=
  padded_of_page (length_padded_mod _)

/-- The digest of the file is the digest of the content. -/
theorem digest_paged (ht : IsEocd e) (hcd : c.cd.length < 2 ^ 32) {n : Nat}
    (hn : (Align.padded c.entries).length + n < 2 ^ 32) (alg : Algorithm) :
    c.paged.digest R alg (c.eocd e n) = c.digest R alg e := by
  have hsection : ∀ (c : Content) (e : Bytes),
      c.entries ++ List.replicate (c.layout e).pad 0 = Align.padded c.entries := fun _ _ => rfl
  have hdigest : ∀ (c : Content) (e : Bytes), (c.layout e).eocdForDigest
      = setEocdCdOffset (c.layout e).eocd (Align.padded c.entries).length := by
    intro c e
    rw [← blockStart_eq c e]
    rfl
  have hagain : setEocdCdOffset (c.eocd e n) (Align.padded c.entries).length
      = setEocdCdOffset (c.layout e).eocd (Align.padded c.entries).length := by
    rw [Content.eocd, setEocdCdOffset_setEocdCdOffset (ht.layout c)]
  simp only [Content.digest, hsection, hdigest]
  rw [padded_paged, layout_paged ht hcd hn, hagain]
  rfl

/-- **The content as it stands in the file is sealed to the same file.** -/
theorem sealContent_paged (ht : IsEocd e) (hcd : c.cd.length < 2 ^ 32)
    (h : signBlock opts signer seeds (c.digest R signer.contentDigest e) = .ok B)
    (hroom : (Align.padded c.entries).length + B.length ≤ 0xffffffff)
    (hseeds : ∀ digest, signBlock opts signer seeds' digest = signBlock opts signer seeds digest) :
    sealContent R opts signer seeds' (c.eocd e B.length) c.paged
      = .ok (Align.padded c.entries ++ B ++ c.cd ++ c.eocd e B.length) := by
  refine sealContent_eq_ok_iff.mpr ⟨B, ?_, ?_, ?_⟩
  · rw [digest_paged ht hcd (by omega), hseeds, h]
  · rw [padded_paged]
    exact hroom
  · have heocd : c.paged.eocd (c.eocd e B.length) B.length = c.eocd e B.length := by
      rw [Content.eocd, layout_paged ht hcd (by omega), padded_paged, Content.eocd,
        setEocdCdOffset_setEocdCdOffset (ht.layout c)]
    rw [heocd, padded_paged]
    rfl

end Seal

/-! ### The second parse -/

/-- What the parse phase finds in a signed APK. -/
structure Reread (F C B D E : Bytes) (rs : List Bytes) (P : Parsed) : Prop where
  parsed : IsParsed F P D
  sections : P.sections = signedSections C B D E
  cdFull : P.cdFull F = D
  kept : P.filtered.kept = entriesFrom 0 rs
  removed : P.filtered.removed = []

section Reread

variable {R : Crypto} {opts : Opts} {alg : Algorithm} {signer : Signer} {seeds seeds' : Nat × Nat}
  {apk cd F B C D E : Bytes} {P P' : Parsed} {c : Content} {rs : List Bytes}

theorem exists_reread (hF : F.length < 2 ^ 64) (hfile : F = C ++ B ++ D ++ E)
    (hD : Directory D rs) (h : Zip.parse (ReadAt.ofBytes F) = .ok (signedSections C B D E)) :
    ∃ P, parseInput F = .ok (P, D) ∧ Reread F C B D E rs P := by
  have hcd : slice F (C.length + B.length) (C.length + B.length + D.length) = D := by
    rw [hfile, slice_append_left _ _ (by simp only [List.length_append]; omega),
      slice_append_right _ _ (by simp only [List.length_append]; omega), List.length_append,
      Nat.sub_self, Nat.add_sub_cancel_left, slice_zero, List.take_length]
  obtain ⟨fc, hfc, hbytes, hkept, hremoved⟩ := filterCd_flatten hD.wf
  have hnone : rs.filter (fun r => !isOutput r) = [] :=
    List.filter_eq_nil_iff.mpr fun r hr => by simp [hD.output r hr]
  rw [hnone, List.map_nil] at hremoved
  rw [hD.filter] at hbytes hkept
  rw [← hD.flatten] at hbytes
  rw [← hD.flatten] at hfc
  have hparse : ∃ P, parseInput F = .ok (P, D) ∧ P.sections = signedSections C B D E ∧
      P.filtered = fc := by
    rw [parseInput, h, ok_bind]
    simp only [signedSections]
    rw [hcd, hfc, ok_bind, hbytes]
    exact ⟨_, rfl, rfl, rfl⟩
  obtain ⟨P, hP, hsections, hfiltered⟩ := hparse
  refine ⟨P, hP, isParsed_of_parseInput hF hP, hsections, ?_, ?_, ?_⟩
  · rw [Parsed.cdFull, hsections]
    exact hcd
  · rw [hfiltered, hkept]
  · rw [hfiltered, hremoved]

/-! ### The second content -/

theorem checkable_of_settled {A : Archive} {b : Bytes} (h : Settled A b) :
    Checkable b A.entriesEnd A.entries := by
  refine ⟨h.order, h.lfh, fun e he => ?_⟩
  obtain ⟨hend, hnext⟩ := h.fits e he
  have hle := (A.le_recordStop b e).2
  exact ⟨Nat.le_trans hle hend, fun e' he' hlt => Nat.le_trans hle (hnext e' he' hlt)⟩

theorem Reread.stop (h : Reread F C B D E rs P') : P'.sections.entriesEnd = C.length := by
  rw [h.sections]
  rfl

theorem Reread.take (h : Reread F C B D E rs P') (hfile : F = C ++ B ++ D ++ E) :
    F.take P'.sections.entriesEnd = C := by
  rw [h.stop, hfile]
  simp only [List.append_assoc]
  rw [List.take_left' rfl]

theorem Reread.splice (h : Reread F (Align.padded c.entries) B c.cd E rs P')
    (hfile : F = Align.padded c.entries ++ B ++ c.cd ++ E) (hcount : c.count = rs.length) :
    spliceContent .apart F P' c.cd = .ok c.paged := by
  refine spliceContent_eq_ok_iff.mpr ⟨?_, fun ha => (by cases ha), fun ha => absurd rfl ha⟩
  rw [spliced, h.take hfile, h.kept, length_entriesFrom, ← hcount]
  rfl

/-- What the second signing would rewrite. -/
def againArchive (opts : Opts) (F cd : Bytes) (P : Parsed) (rs : List Bytes) : Archive :=
  archiveOf opts ⟨.apart, fun _ _ => none, (0, 0)⟩ F P.sections cd (entriesFrom 0 rs)
    (rs.map recordPolicy)

/-- So does rewriting it, if there is nothing to move. -/
theorem Reread.rewrite (h : Reread F (Align.padded c.entries) B c.cd E rs P')
    (hfile : F = Align.padded c.entries ++ B ++ c.cd ++ E) (hcount : c.count = rs.length)
    (hD : Directory c.cd rs) (hset : Settled (againArchive opts F c.cd P' rs) F) :
    rewriteContent R opts alg ⟨.apart, fun _ _ => none, seeds'⟩ F P' = .ok c.paged := by
  have hcl : classify c.cd = .ok (entriesFrom 0 rs, rs.map recordPolicy) := by
    conv_lhs => rw [hD.flatten]
    exact classify_flatten hD.wf
  obtain ⟨rw_, hspec, hcd, hentries, -⟩ := hset.rewriteSpec hcl R alg
  have hlook : Access.look .apart P'.sections.cdSize = .ok () :=
    Access.look_eq_ok.mpr fun ha => by cases ha
  rw [rewriteContent]
  simp only
  rw [hlook, ok_bind, h.cdFull, hcl, ok_bind]
  change (Align.rewriteSpec R alg F (againArchive opts F c.cd P' rs) >>= _) = _
  have htake := h.take hfile
  rw [hspec, ok_bind]
  simp only
  rw [hcd, hentries]
  simp only [againArchive, archiveOf]
  rw [htake, length_entriesFrom, ← hcount]
  rfl

theorem Reread.settled (hp : IsParsed apk P cd)
    (hc : rewriteContent R opts alg ⟨.apart, fun _ _ => none, seeds⟩ apk P = .ok c)
    (hsmall : c.entries.length < 2 ^ 32)
    (h : Reread F (Align.padded c.entries) B c.cd E rs P')
    (hfile : F = Align.padded c.entries ++ B ++ c.cd ++ E) (hD : Directory c.cd rs) :
    Settled (againArchive opts F c.cd P' rs) F := by
  obtain ⟨-, all, policies, rw_, rs₀, ps, -, hcd, -, hre⟩ := rebuilt_of_rewriteContent hp hc
  have hlen : (Align.padded c.entries).length ≤ F.length := by
    rw [hfile]
    simp only [List.length_append]
    omega
  have hleft : Left (archiveOf opts ⟨.apart, fun _ _ => none, seeds⟩ apk P.sections (P.cdFull apk)
      all policies) (againArchive opts F c.cd P' rs) rw_ c.entries F := by
    refine ⟨rfl, hcd, ?_, rfl, take_signed hfile, ?_, ?_⟩
    · change classify c.cd = _
      conv_lhs => rw [hD.flatten]
      exact classify_flatten hD.wf
    · change c.entries.length ≤ P'.sections.entriesEnd
      rw [h.stop]
      exact length_le_padded _
    · change P'.sections.entriesEnd ≤ F.length
      rw [h.sections]
      exact hlen
  have hb := hp.le_source .apart
  exact (hre.settled hb (hre.offsetsFit hb hsmall) rfl hleft).1

/-- **The second signing takes the content that is there.** -/
theorem contentSpec_again {alg' : Algorithm} (hp : IsParsed apk P cd)
    (hc : contentSpec R opts alg ⟨.apart, fun _ _ => none, seeds⟩ apk P cd = .ok c)
    (hsmall : c.entries.length < 2 ^ 32)
    (h : Reread F (Align.padded c.entries) B c.cd E rs P')
    (hfile : F = Align.padded c.entries ++ B ++ c.cd ++ E) (hD : Directory c.cd rs)
    (hcount : c.count = rs.length) :
    contentSpec R opts alg' ⟨.apart, fun _ _ => none, seeds'⟩ F P' c.cd = .ok c.paged := by
  have hsplice := h.splice hfile hcount
  have hneeds : ∀ b, needsRewrite opts F P' c.cd = .ok b →
      (b = true → Settled (againArchive opts F c.cd P' rs) F) →
      contentSpec R opts alg' ⟨.apart, fun _ _ => none, seeds'⟩ F P' c.cd = .ok c.paged := by
    intro b hb hset
    cases b with
    | true => exact contentSpec_eq_ok_iff.mpr (Or.inl ⟨hb, h.rewrite hfile hcount hD (hset rfl)⟩)
    | false => exact contentSpec_eq_ok_iff.mpr (Or.inr ⟨hb, hsplice⟩)
  rcases contentSpec_eq_ok_iff.mp hc with ⟨hfirst, hrw⟩ | ⟨hfirst, hsp⟩
  · -- rewritten: whatever the check says of the new section
    have hset := h.settled hp hrw hsmall hfile hD
    cases hz : opts.zipalign with
    | off =>
      rw [needsRewrite, hz] at hfirst
      cases hfirst
    | always => exact hneeds true (by rw [needsRewrite, hz]) fun _ => hset
    | check =>
      have hcheck : Checkable F P'.sections.entriesEnd P'.filtered.kept := h.kept ▸ checkable_of_settled hset
      obtain ⟨b, hb, -⟩ := (needsRewrite_check h.parsed hz).1 hcheck
      exact hneeds b hb fun _ => hset
  · -- spliced: the entries are where they were
    cases hz : opts.zipalign with
    | off => exact hneeds false (by rw [needsRewrite, hz]) fun hb => by cases hb
    | always =>
      rw [needsRewrite, hz] at hfirst
      cases hfirst
    | check =>
      obtain ⟨rfl, -, -⟩ := spliceContent_eq_ok_iff.mp hsp
      have hbounds := hp.bounds
      have hle : P.sections.entriesEnd ≤ apk.length := by
        have := hbounds.entries_le
        have := hbounds.cd_end
        have := hbounds.eocd_le
        omega
      have hsame : entriesFrom 0 rs = P.filtered.kept :=
        Except.ok.inj (hD.parse.symm.trans hp.parse_kept)
      have htake := take_signed hfile
      simp only [spliced, List.length_take_of_le hle] at htake
      have hend : P.sections.entriesEnd ≤ P'.sections.entriesEnd := by
        have := length_le_padded (spliced apk P cd).entries
        rw [← h.stop, spliced, List.length_take_of_le hle] at this
        exact this
      obtain ⟨hyes, hno⟩ := needsRewrite_check hp hz
      have hcheck : Checkable apk P.sections.entriesEnd P.filtered.kept := by
        by_contra hn
        obtain ⟨err, herr⟩ := hno hn
        rw [herr] at hfirst
        cases hfirst
      obtain ⟨b, hb, hiff⟩ := hyes hcheck
      obtain rfl := Except.ok.inj (hb.symm.trans hfirst)
      obtain ⟨hcheck', haligned⟩ := checkable_of_take hle hend htake hcheck
      rw [← hsame, ← h.kept] at hcheck'
      obtain ⟨b', hb', hiff'⟩ := (needsRewrite_check h.parsed hz).1 hcheck'
      refine hneeds b' hb' fun htrue => ?_
      obtain ⟨e, he, hbad⟩ := hiff'.mp htrue
      rw [h.kept, hsame] at he
      refine absurd (hiff.mpr ⟨e, he, fun ha => hbad ?_⟩) Bool.false_ne_true
      exact haligned cd opts.libPageSize e he ha

end Reread

/-! ### The second signing -/

section Again

variable {R : Crypto} {opts : Opts} {signer : Signer} {seeds seeds' : Nat × Nat}
  {apk cd F : Bytes} {P : Parsed}

/-- **The parse phase reads a signed APK as it was written**, if the parser finds the record where it
was written: the block is recognised, and no entry is dropped. -/
theorem reread_of_signSpec {k : Luck} {key : Option Signer} (h : signSpec R opts key k apk = .ok F)
    {s s' : ZipSections} (hs : Zip.parse (ReadAt.ofBytes apk) = .ok s)
    (hs' : Zip.parse (ReadAt.ofBytes F) = .ok s') (heocd : s'.eocd.length = s.eocd.length) :
    ∃ signer C B D E P, key = some signer ∧ Signed R opts signer F C B D E ∧
      s' = signedSections C B D E ∧ parseInput F = .ok (P, D) ∧ P.filtered.removed = [] := by
  obtain ⟨signer, P, cd, c, B, rs, hkey, -, hp, hc, hm⟩ := made_of_signSpec h
  obtain rfl := Except.ok.inj (hp.sections.symm.trans hs)
  have hsize := length_cd_le_of_contentSpec hp hc
  have hfound := hm.parse_of_found hp hsize hs' (heocd.trans (length_eocd hp.bounds.isEocd _).symm)
  obtain ⟨P', hparse', hre⟩ :=
    exists_reread (hm.small hp hsize) hm.signed.file hm.directory hfound
  exact ⟨signer, _, B, _, _, P', hkey, hm.signed, Except.ok.inj (hs'.symm.trans hfound), hparse',
    hre.removed⟩

/-- **Signing a signed APK changes nothing**, if the parser finds the record where it was written and
the signatures are the same. -/
theorem signSpec_again (hsign : signer.sign seeds'.1 = signer.sign seeds.1 ∧
      signer.sign seeds'.2 = signer.sign seeds.2)
    (h : signSpec R opts (some signer) ⟨.apart, fun _ _ => none, seeds⟩ apk = .ok F)
    {s s' : ZipSections} (hs : Zip.parse (ReadAt.ofBytes apk) = .ok s)
    (hs' : Zip.parse (ReadAt.ofBytes F) = .ok s') (heocd : s'.eocd.length = s.eocd.length) :
    signSpec R opts (some signer) ⟨.apart, fun _ _ => none, seeds'⟩ F = .ok F := by
  obtain ⟨signer, P, cd, c, hkey, hparse, hlen, hc, hseal⟩ := signSpec_eq_ok_iff.mp h
  obtain rfl := Option.some.inj hkey
  have hp := isParsed_of_parseInput hlen hparse
  obtain rfl := Except.ok.inj (hp.sections.symm.trans hs)
  obtain ⟨B, rs, hm⟩ := exists_made hp hc hseal
  have hsize := length_cd_le_of_contentSpec hp hc
  have hcd := length_cd_of_contentSpec hp hc
  have ht := hp.bounds.isEocd
  have hroom := hm.room
  have hF := hm.small hp hsize
  have hfile := hm.signed.file
  have hfound := hm.parse_of_found hp hsize hs' (heocd.trans (length_eocd ht _).symm)
  obtain ⟨P', hparse', hre⟩ := exists_reread hF hfile hm.directory hfound
  have hsmall : c.entries.length < 2 ^ 32 := by
    have := length_le_padded c.entries
    omega
  have hc' := @contentSpec_again R opts signer.contentDigest seeds seeds' apk cd F B _ P P' c rs
    signer.contentDigest hp hc hsmall hre hfile hm.directory hm.count
  have hblock : ∀ digest, signBlock opts signer seeds' digest = signBlock opts signer seeds digest := by
    intro digest
    rw [signBlock, signBlock, hsign.1, hsign.2]
  have hseal' := sealContent_paged ht hcd hm.block hm.room hblock
  refine signSpec_eq_ok_iff.mpr ⟨signer, P', c.cd, c.paged, rfl, hparse', hF, hc', ?_⟩
  rw [hre.sections, signedSections]
  simp only
  rw [hseal', ← hfile]

end Again

/-! ### Runs -/

section Runs

variable (R : Crypto) (J : Job) (w : World) (env : Nat → Chance)

/-- **What a run leaves is read by the parser that read its input.**  The record counts the entries
of the directory, and is as long as the old one; and unless there are `0xffff` of them or the record
cannot be found, the parser finds the parts where they were written, and the signing block. -/
theorem signOne_reparsed (h : (run (exec R) (signOne R J) env w).1 = .ok ()) :
    ∃ signer s C B D E entries, J.key = some signer ∧
      Signed R J.opts signer ((run (exec R) (signOne R J) env w).2.content J.dest) C B D E ∧
      Zip.parse (ReadAt.ofBytes (w.content J.input)) = .ok s ∧
      Reparsed s ((run (exec R) (signOne R J) env w).2.content J.dest) C B D E entries := by
  obtain ⟨k, -, hspec⟩ := (finished_of_run h).content
  exact reparsed_of_signSpec hspec

set_option maxRecDepth 4000 in
theorem parse_mixedOutputRecords : parseCdEntries mixedOutputRecords.flatten
    = .ok (entriesFrom 0 mixedOutputRecords) := by decide

theorem found_of_reparsed {R : Crypto} {k : Luck} {signer : Signer} {F C B D E : Bytes}
    {entries : List CdEntry} (hk : k = ⟨.apart, fun _ _ => none, k.seeds⟩)
    (hspec : signSpec R exampleJob.opts exampleJob.key k mixedApk = .ok F)
    (hsigned : Signed R exampleJob.opts signer F C B D E)
    (h : Reparsed mixedSections F C B D E entries) :
    Zip.parse (ReadAt.ofBytes F) = .ok (signedSections C B D E) := by
  rw [hk] at hspec
  obtain ⟨signer', P, cd, c, hkey, hparse, hlen, hc, hseal⟩ := signSpec_eq_ok_iff.mp hspec
  obtain rfl := Option.some.inj hkey
  obtain ⟨rfl, rfl⟩ := Prod.mk.inj (Except.ok.inj (parseInput_mixedApk.symm.trans hparse))
  obtain rfl := Except.ok.inj ((contentSpec_mixedApk R k.seeds).symm.trans hc)
  have hp := isParsed_of_parseInput hlen hparse
  obtain ⟨B', rs, hm⟩ := exists_made hp hc hseal
  obtain ⟨rfl, -⟩ := hsigned.parts_eq hm.signed
    (h.length_eocd.trans (length_eocd hp.bounds.isEocd _).symm)
  have hentries := Except.ok.inj (parse_mixedOutputRecords.symm.trans h.parsed)
  have h20 : u16le E 20 = 0 := by
    have hlen := h.eocd.len
    rw [h.length_eocd] at hlen
    exact (Nat.add_left_cancel hlen).symm
  refine h.found.mpr ⟨by rw [← hentries]; decide, findEocd_of_noComment h.eocd h20, ?_⟩
  rintro ⟨-, -, hloc⟩
  exact absurd hloc (by decide)

theorem signOne_reparsed_mixed : ∃ C B D E, Zip.parse (ReadAt.ofBytes
    ((run (exec sha256Crypto) (signOne sha256Crypto exampleJob) (fun _ => calmChance)
      exampleWorld).2.content exampleJob.dest)) = .ok (signedSections C B D E) := by
  generalize sha256Crypto = R
  have hrun := run_exampleJob R
  obtain ⟨k, hk, hspec⟩ := (finished_of_run hrun).content
  obtain ⟨signer, s, C, B, D, E, entries, -, hsigned, hs, h⟩ :=
    signOne_reparsed R exampleJob exampleWorld _ hrun
  obtain rfl := Except.ok.inj (parse_mixedApk.symm.trans hs)
  have happart := fate_apart hk (quiet_among _ fun _ => calm_calmChance) (by decide)
  exact ⟨C, B, D, E, found_of_reparsed happart hspec hsigned h⟩

/-- `J'` is to sign what `J` left, with the same options and the same key, in place or not. -/
structure Resigns (R : Crypto) (J J' : Job) (w w' : World) (env : Nat → Chance) : Prop where
  opts : J'.opts = J.opts
  key : J'.key = J.key
  file : w'.files J'.input = (run (exec R) (signOne R J) env w).2.files J.dest
  apart : tempPath J.dest ≠ J.input
  apart' : tempPath J'.dest ≠ J'.input

section Resigns

variable {R J w env} {J' : Job} {w' : World} {env' : Nat → Chance}

theorem Resigns.content (h : Resigns R J J' w w' env) :
    w'.content J'.input = (run (exec R) (signOne R J) env w).2.content J.dest := by
  rw [World.content, h.file, World.content]

theorem Resigns.again (hcalm : ∀ i, (env i).Calm) (hcalm' : ∀ i, (env' i).Calm)
    (hre : Resigns R J J' w w' env) (hsign : SameSignatures J.key env env')
    (hok : (run (exec R) (signOne R J) env w).1 = .ok ()) {s s' : ZipSections}
    (hs : Zip.parse (ReadAt.ofBytes (w.content J.input)) = .ok s)
    (hs' : Zip.parse (ReadAt.ofBytes (w'.content J'.input)) = .ok s')
    (heocd : s'.eocd.length = s.eocd.length) :
    (run (exec R) (signOne R J') env' w').1 = .ok () ∧
      (run (exec R) (signOne R J') env' w').2.content J'.dest = w'.content J'.input := by
  obtain ⟨k, hk, hspec⟩ := (finished_of_run hok).content
  rw [← hre.content, fate_apart hk (quiet_among _ hcalm) hre.apart] at hspec
  obtain ⟨signer, -, -, -, hkey, -⟩ := signSpec_eq_ok_iff.mp hspec
  have hagain : ∀ k', Fate (Among env') J' k' →
      signSpec R J'.opts J'.key k' (w'.content J'.input) = .ok (w'.content J'.input) := by
    intro k' hk'
    obtain ⟨_, _, ⟨i2, rfl⟩, ⟨i3, rfl⟩, hseeds⟩ := hk.seeds
    obtain ⟨_, _, ⟨j2, rfl⟩, ⟨j3, rfl⟩, hseeds'⟩ := hk'.seeds
    rw [hkey] at hspec
    rw [hre.opts, hre.key, hkey, fate_apart hk' (quiet_among _ hcalm') hre.apart']
    refine signSpec_again ⟨?_, ?_⟩ hspec hs hs' heocd
    · simp only [hseeds, hseeds']
      exact (hsign signer hkey i2 j2 2).symm
    · simp only [hseeds, hseeds']
      exact (hsign signer hkey i3 j3 3).symm
  cases hrun : (run (exec R) (signOne R J') env' w').1 with
  | error e =>
    have hfound : w'.files J'.input ≠ none := by
      intro hnone
      rw [World.content, hnone] at hs'
      cases hs'
    obtain ⟨k', hk', hno⟩ := fails_of_run hrun hcalm' hfound
    exact absurd (hagain k' hk') (hno _)
  | ok u =>
    obtain ⟨k', hk', hspec'⟩ := (finished_of_run hrun).content
    rw [hagain k' hk'] at hspec'
    exact ⟨rfl, (Except.ok.inj hspec').symm⟩

/-- **Signing again is a fixpoint.**  If the parser finds the record where the first run wrote it, a
second run with the same options and signatures returns `Ok` and leaves the same bytes. -/
theorem signOne_again (hcalm : ∀ i, (env i).Calm) (hcalm' : ∀ i, (env' i).Calm)
    (hre : Resigns R J J' w w' env) (hsign : SameSignatures J.key env env')
    (hok : (run (exec R) (signOne R J) env w).1 = .ok ()) {s s' : ZipSections}
    (hs : Zip.parse (ReadAt.ofBytes (w.content J.input)) = .ok s)
    (hs' : Zip.parse (ReadAt.ofBytes (w'.content J'.input)) = .ok s')
    (heocd : s'.eocd.length = s.eocd.length) :
    (run (exec R) (signOne R J') env' w').1 = .ok () ∧
      (run (exec R) (signOne R J') env' w').2.content J'.dest = w'.content J'.input :=
  Resigns.again hcalm hcalm' hre hsign hok hs hs' heocd

end Resigns

/-- Signs in place what `exampleJob` leaves. -/
def againJob : Job := { exampleJob with input := exampleJob.dest, output := none }

theorem resigns_mixed (R : Crypto) : Resigns R exampleJob againJob exampleWorld
    (run (exec R) (signOne R exampleJob) (fun _ => calmChance) exampleWorld).2 fun _ => calmChance :=
  ⟨rfl, rfl, by rw [show againJob.input = exampleJob.dest from rfl], by decide, by decide⟩

theorem reparsed_mixed (R : Crypto) : ∃ C B D E entries,
    Reparsed mixedSections ((run (exec R) (signOne R exampleJob) (fun _ => calmChance)
      exampleWorld).2.content againJob.input) C B D E entries ∧
    Zip.parse (ReadAt.ofBytes ((run (exec R) (signOne R exampleJob) (fun _ => calmChance)
      exampleWorld).2.content againJob.input)) = .ok (signedSections C B D E) := by
  obtain ⟨k, hk, hspec⟩ := (finished_of_run (run_exampleJob R)).content
  obtain ⟨signer, s, C, B, D, E, entries, -, hsigned, hs, h⟩ := reparsed_of_signSpec hspec
  obtain rfl := Except.ok.inj (parse_mixedApk.symm.trans hs)
  have happart := fate_apart hk (quiet_among _ fun _ => calm_calmChance) (by decide)
  exact ⟨C, B, D, E, entries, h, found_of_reparsed happart hspec hsigned h⟩

theorem signOne_again_mixed :
    (run (exec sha256Crypto) (signOne sha256Crypto againJob) (fun _ => calmChance)
      (run (exec sha256Crypto) (signOne sha256Crypto exampleJob) (fun _ => calmChance)
        exampleWorld).2).1 = .ok () := by
  generalize sha256Crypto = R
  have hcalm : ∀ i : Nat, ((fun _ => calmChance : Nat → Chance) i).Calm := fun _ => calm_calmChance
  have hsign : SameSignatures exampleJob.key (fun _ => calmChance) fun _ => calmChance :=
    fun _ _ _ _ _ => rfl
  obtain ⟨C, B, D, E, entries, h, hs'⟩ := reparsed_mixed R
  exact (signOne_again hcalm hcalm (resigns_mixed R) hsign (run_exampleJob R) parse_mixedApk hs'
    h.length_eocd).1

/-- Signs the three bytes into another file. -/
def alwaysJob : Job := { exampleJob with opts := alwaysOpts }

end Runs

end FastSigner.Sign

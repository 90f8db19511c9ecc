import FastSigner.Sign.Resign

/-!
# What is read back

A signed APK is a ZIP file like any other, and three things in it come from numbers that the
signer wrote.  Each is what one expects, up to a limit that no check guards.

* `signOne_splices`: without a rewrite, nothing in front of the old signing block is changed; but
  an entry may reach into what looks like one (`reachingApk`).
* `signOne_counts`: the record counts the entries of the directory, in sixteen bits
  (`signOne_counts_listing`).
* `signOne_legible`: the parser finds the four parts, unless something that was written looks like
  another record or like a Zip64 locator (`signOne_legible_listing`).
-/

namespace FastSigner.Sign

open Lib Zip Digest Align SigBlock Script

/-! ### Splices -/

theorem exists_spliced {R : Crypto} {opts : Opts} {key : Option Signer} {k : Luck} {apk cd F : Bytes}
    {P : Parsed} (hparse : parseInput apk = .ok (P, cd))
    (hneeds : needsRewrite opts apk P cd = .ok false) (h : signSpec R opts key k apk = .ok F) :
    ∃ rest, F = Align.padded (apk.take P.sections.entriesEnd) ++ rest := by
  obtain ⟨signer, P', cd', c, -, hparse', -, hc, hseal⟩ := signSpec_eq_ok_iff.mp h
  obtain ⟨rfl, rfl⟩ := Prod.mk.inj (Except.ok.inj (hparse'.symm.trans hparse))
  rcases contentSpec_eq_ok_iff.mp hc with ⟨htrue, -⟩ | ⟨-, hsp⟩
  · rw [hneeds] at htrue
    cases htrue
  · obtain ⟨rfl, -, -⟩ := spliceContent_eq_ok_iff.mp hsp
    obtain ⟨B, -, -, rfl⟩ := sealContent_eq_ok_iff.mp hseal
    simp only [List.append_assoc]
    exact ⟨_, rfl⟩

/-- An APK that needs no rewrite is signed, if there is room for it. -/
theorem ok_of_splice {R : Crypto} {J : Job} {w : World} {apk cd : Bytes} {P : Parsed}
    (hkey : J.key = some exampleSigner) {z : ZipAlign} {page : Nat} (hopts : J.opts = ⟨true, false, z, page⟩)
    (hne : tempPath J.dest ≠ J.input) (hfile : w.files J.input = some apk)
    (hparse : parseInput apk = .ok (P, cd)) (hneeds : needsRewrite J.opts apk P cd = .ok false)
    (hlen : apk.length < 2 ^ 64) (hend : P.sections.entriesEnd ≤ 2 ^ 20) :
    (run (exec R) (signOne R J) (fun _ => calmChance) w).1 = .ok () := by
  refine ok_of_signSpec (fun _ => calm_calmChance) (by simp [hfile]) hne fun seeds => ?_
  have hcontent : w.content J.input = apk := by rw [World.content, hfile, Option.getD_some]
  have hsplice : spliceContent .apart apk P cd = .ok (spliced apk P cd) :=
    spliceContent_eq_ok_iff.mpr ⟨rfl, fun h => (by cases h), fun h => absurd rfl h⟩
  have hpad : (Align.padded (spliced apk P cd).entries).length < 2 ^ 20 + 4096 := by
    have htake := List.length_take_le P.sections.entriesEnd apk
    have hpage : pageAlignment = 4096 := rfl
    rw [Align.length_padded, paddingBeforeBlock, hpage]
    simp only [spliced]
    omega
  rw [hcontent, hkey]
  refine ⟨_, signSpec_eq_ok_iff.mpr ⟨exampleSigner, P, _, _, rfl, hparse, hlen,
    contentSpec_eq_ok_iff.mpr (Or.inr ⟨hneeds, hsplice⟩), sealContent_eq_ok_iff.mpr
      ⟨_, by rw [hopts]; rfl, ?_, rfl⟩⟩⟩
  have hdigest : ((spliced apk P cd).digest R .sha256 P.sections.eocd).length = 32 :=
    R.length_digest _ _
  have := length_exampleBlock hdigest
  exact Nat.le_trans (Nat.add_le_add (Nat.le_of_lt hpad) this) (by decide)

section Splice

variable (R : Crypto) (J : Job) (w : World) (env : Nat → Chance)

/-- **A splice leaves the records of the kept entries as they are**, if they end in front of the old
signing block; nothing in front of it is changed. -/
theorem signOne_splices {P : Parsed} {cd : Bytes}
    (hparse : parseInput (w.content J.input) = .ok (P, cd))
    (hneeds : needsRewrite J.opts (w.content J.input) P cd = .ok false)
    (h : (run (exec R) (signOne R J) env w).1 = .ok ()) :
    ((run (exec R) (signOne R J) env w).2.content J.dest).take P.sections.entriesEnd
        = (w.content J.input).take P.sections.entriesEnd ∧
      ∀ e ∈ P.filtered.kept, dataStop (w.content J.input) e ≤ P.sections.entriesEnd →
        slice ((run (exec R) (signOne R J) env w).2.content J.dest) e.lfhOff
            (dataStop (w.content J.input) e)
          = slice (w.content J.input) e.lfhOff (dataStop (w.content J.input) e) := by
  obtain ⟨k, -, hspec⟩ := (finished_of_run h).content
  obtain ⟨rest, hrest⟩ := exists_spliced hparse hneeds hspec
  obtain ⟨-, -, -, -, -, hparse', hlen, -⟩ := signSpec_eq_ok_iff.mp hspec
  have hle := (isParsed_of_parseInput hlen hparse).entriesEnd_le
  have htake : ((run (exec R) (signOne R J) env w).2.content J.dest).take P.sections.entriesEnd
      = (w.content J.input).take P.sections.entriesEnd := by
    rw [hrest, Align.padded, List.append_assoc]
    exact List.take_left' (List.length_take_of_le hle)
  refine ⟨htake, fun e _ hstop => ?_⟩
  rw [← slice_take _ hstop, htake, slice_take _ hstop]

end Splice

def offJob : Job := { exampleJob with opts := ⟨true, false, .off, 16384⟩ }

set_option maxRecDepth 8000 in
theorem dataStop_mixedApk :
    dataStop mixedApk (entryOf 0 (exampleRecord 0 0 1 86 (ascii "a"))) = 118 := by decide

/-- `a` is left misaligned. -/
theorem signOne_splices_mixed :
    slice ((run (exec sha256Crypto) (signOne sha256Crypto offJob) (fun _ => calmChance)
        exampleWorld).2.content offJob.dest) 86 118 = slice mixedApk 86 118 := by
  generalize sha256Crypto = R
  have hok : (run (exec R) (signOne R offJob) (fun _ => calmChance) exampleWorld).1 = .ok () :=
    ok_of_splice rfl rfl (by decide) rfl parseInput_mixedApk rfl
      (by rw [length_mixedApk]; decide) (by decide)
  have hkept := (signOne_splices R offJob exampleWorld (fun _ => calmChance) parseInput_mixedApk rfl
    hok).2 (entryOf 0 (exampleRecord 0 0 1 86 (ascii "a"))) List.mem_cons_self
    (by rw [show exampleWorld.content offJob.input = mixedApk from rfl, dataStop_mixedApk]; decide)
  rw [show exampleWorld.content offJob.input = mixedApk from rfl, dataStop_mixedApk] at hkept
  exact hkept

/-- A compressed entry of 32 bytes, which are an old signing block. -/
def reachingApk : Bytes :=
  exampleHeader 0 8 32 (ascii "a") [] ++ mixedBlock ++ exampleRecord 0 8 32 0 (ascii "a") ++ eocdSig
    ++ [0, 0, 0, 0, 1, 0, 1, 0] ++ leBytes 4 47 ++ leBytes 4 63 ++ [0, 0]

def reachingParsed : Parsed where
  sections := ⟨132, 31, some (31, 32), 63, 47, 110, reachingApk.drop 110⟩
  filtered := ⟨.borrowed, entriesFrom 0 [exampleRecord 0 8 32 0 (ascii "a")], []⟩
  cd := .mapped 63 47

set_option maxRecDepth 4000 in
theorem parse_reachingApk : Zip.parse (ReadAt.ofBytes reachingApk) = .ok reachingParsed.sections := by
  decide

set_option maxRecDepth 4000 in
theorem filterCd_reachingApk : filterCd (reachingParsed.cdFull reachingApk)
    = .ok reachingParsed.filtered := by decide

theorem parseInput_reachingApk : parseInput reachingApk
    = .ok (reachingParsed, reachingParsed.cdFull reachingApk) := by
  rw [parseInput, parse_reachingApk, ok_bind]
  change (filterCd (reachingParsed.cdFull reachingApk) >>= _) = _
  rw [filterCd_reachingApk, ok_bind]
  rfl

set_option maxRecDepth 4000 in
theorem needsRewrite_reachingApk : needsRewrite exampleJob.opts reachingApk reachingParsed
    (reachingParsed.cdFull reachingApk) = .ok false := by decide

def reachingWorld : World := loneFile exampleJob.input reachingApk

set_option maxRecDepth 4000 in
theorem run_reachingApk (R : Crypto) :
    (run (exec R) (signOne R exampleJob) (fun _ => calmChance) reachingWorld).1 = .ok () :=
  ok_of_splice rfl rfl (by decide) rfl parseInput_reachingApk needsRewrite_reachingApk (by decide)
    (by decide)

/-- It is signed with the default options, and its data is gone: the range of its record lies in
front of the directory, but ends behind the start of what looks like an old signing block. -/
theorem signOne_splices_reaching :
    (run (exec sha256Crypto) (signOne sha256Crypto exampleJob) (fun _ => calmChance) reachingWorld).1
      = .ok () ∧
    parseInput reachingApk = .ok (reachingParsed, reachingParsed.cdFull reachingApk) ∧
    needsRewrite exampleJob.opts reachingApk reachingParsed (reachingParsed.cdFull reachingApk)
      = .ok false ∧
    ∃ e ∈ reachingParsed.filtered.kept, dataStop reachingApk e ≤ reachingParsed.sections.cdOff ∧
      slice ((run (exec sha256Crypto) (signOne sha256Crypto exampleJob) (fun _ => calmChance)
        reachingWorld).2.content exampleJob.dest) e.lfhOff (dataStop reachingApk e)
      ≠ slice reachingApk e.lfhOff (dataStop reachingApk e) := by
  generalize sha256Crypto = R
  refine ⟨run_reachingApk R, parseInput_reachingApk, needsRewrite_reachingApk, _,
    List.mem_singleton.mpr rfl, by decide, fun h => ?_⟩
  obtain ⟨k, -, hspec⟩ := (finished_of_run (run_reachingApk R)).content
  obtain ⟨rest, hrest⟩ := exists_spliced parseInput_reachingApk needsRewrite_reachingApk hspec
  have hoff : (entryOf 0 (exampleRecord 0 8 32 0 (ascii "a"))).lfhOff = 0 := by decide
  have hlen : (reachingApk.take reachingParsed.sections.entriesEnd).length = 31 := by decide
  -- the size field of the block was behind the header, and is padding now
  have hcut := congrArg (fun l => slice l 31 32) h
  rw [hoff, slice_slice_of_le _ (by decide), slice_slice_of_le _ (by decide), hrest, Align.padded,
    List.append_assoc, Nat.zero_add, Nat.zero_add, slice_append_right _ _ (Nat.le_of_eq hlen),
    hlen] at hcut
  have hzero : slice (List.replicate (paddingBeforeBlock 31) 0 ++ rest) 0 1 = [0] := by
    rw [show paddingBeforeBlock 31 = 4064 + 1 from rfl, List.replicate_succ]
    rfl
  exact absurd (hzero.symm.trans hcut) (by decide)

/-! ### The number of entries -/

section Counts

variable (R : Crypto) (J : Job) (w : World) (env : Nat → Chance)

/-- **The record counts the entries of the directory**, whatever the old one counted, exactly if
fewer than `2 ^ 16` are kept. -/
theorem signOne_counts (h : (run (exec R) (signOne R J) env w).1 = .ok ()) :
    ∃ signer P cd C B D E entries, J.key = some signer ∧
      parseInput (w.content J.input) = .ok (P, cd) ∧
      Signed R J.opts signer ((run (exec R) (signOne R J) env w).2.content J.dest) C B D E ∧
      E.length = P.sections.eocd.length ∧ parseCdEntries D = .ok entries ∧
      ((u16le E 8 = entries.length ∧ u16le E 10 = entries.length) ↔
        P.filtered.kept.length < 2 ^ 16) := by
  obtain ⟨k, -, hspec⟩ := (finished_of_run h).content
  obtain ⟨signer, P, cd, c, B, rs, hkey, hparse, hp, hc, hm⟩ := made_of_signSpec hspec
  obtain ⟨h8, h10⟩ := counts_eocd hp.bounds.isEocd c B.length
  refine ⟨signer, P, cd, _, B, _, _, _, hkey, hparse, hm.signed, length_eocd hp.bounds.isEocd _,
    hm.directory.parse, ?_⟩
  rw [h8, h10, length_entriesFrom, hm.count, ← count_of_contentSpec hp hc, hm.count]
  omega

/-- Two entries are kept. -/
theorem signOne_counts_mixed : ∃ C B D E entries,
    Signed sha256Crypto exampleJob.opts exampleSigner ((run (exec sha256Crypto)
      (signOne sha256Crypto exampleJob) (fun _ => calmChance) exampleWorld).2.content exampleJob.dest)
      C B D E ∧ parseCdEntries D = .ok entries ∧ u16le E 8 = entries.length := by
  generalize sha256Crypto = R
  obtain ⟨signer, P, cd, C, B, D, E, entries, hkey, hparse, hsigned, -, hentries, hcount⟩ :=
    signOne_counts R exampleJob exampleWorld (fun _ => calmChance) (run_exampleJob R)
  obtain ⟨rfl, rfl⟩ := Prod.mk.inj (Except.ok.inj (parseInput_mixedApk.symm.trans hparse))
  obtain rfl := Option.some.inj hkey
  exact ⟨C, B, D, E, entries, hsigned, hentries, (hcount.mpr (by decide)).1⟩

end Counts

def blankEocd : Bytes := eocdSig ++ List.replicate 18 0

/-- A directory at the start of a file, behind it the record, which counts no entries. -/
def listing (rs : List Bytes) : Bytes :=
  rs.flatten ++ Content.eocd ⟨[], rs.flatten, 0⟩ blankEocd 0

theorem isEocd_blankEocd : IsEocd blankEocd := ⟨by decide, by decide⟩

section Listing

variable {rs : List Bytes}

/-- What the parser finds in a listing. -/
def listingSections (rs : List Bytes) : ZipSections where
  fileLen := (listing rs).length
  entriesEnd := 0
  sigBlock := none
  cdOff := 0
  cdSize := rs.flatten.length
  eocdOff := rs.flatten.length
  eocd := Content.eocd ⟨[], rs.flatten, 0⟩ blankEocd 0

/-- **A listing is accepted**, unless a Zip64 locator seems to stand in front of the record. -/
theorem parse_listing (hlen : rs.flatten.length < 0xffffffff)
    (hloc : slice rs.flatten (rs.flatten.length - 20) (rs.flatten.length - 16) ≠ zip64LocatorSig) :
    Zip.parse (ReadAt.ofBytes (listing rs)) = .ok (listingSections rs) := by
  generalize hD : rs.flatten = D at hlen hloc
  generalize hE : Content.eocd ⟨[], D, 0⟩ blankEocd 0 = E
  have ht : IsEocd E := hE ▸ isEocd_eocd isEocd_blankEocd _ 0
  have hlist : listing rs = D ++ E := by rw [listing, hD, hE]
  have hfield : ∀ {i j : Nat}, j ≤ 8 ∨ 20 ≤ i → slice E i j = slice blankEocd i j := fun h =>
    hE ▸ slice_eocd isEocd_blankEocd _ 0 h
  have h20 : u16le E 20 = 0 := by
    rw [u16le, hfield (Or.inr (Nat.le_refl _))]
    decide
  have hElen : E.length = 22 := by
    rw [ht.len, h20]
    rfl
  have hnil : (Align.padded ([] : Bytes)).length = 0 := by rw [Align.length_padded]; rfl
  have hcounts := counts_eocd isEocd_blankEocd ⟨[], D, 0⟩ 0
  have hfields := fields_eocd (c := ⟨[], D, 0⟩) (n := 0) isEocd_blankEocd (Nat.lt_succ_of_lt hlen)
    (by rw [hnil]; decide)
  rw [hE] at hcounts hfields
  have hoff : u32le E 16 = 0 := by rw [hfields.1, hnil]
  have hsize : u32le E 12 = D.length := hfields.2
  have hdrop : (D ++ E).drop D.length = E := List.drop_left
  have hcut : ∀ i, u32le (D ++ E) (D.length + i) = u32le E i := fun i => by rw [← u32le_drop, hdrop]
  rw [Zip.parse, parseWith_eq_ok_iff .wrap (by rw [hlist, List.length_append]; omega)]
  simp only [listingSections, hlist, hD, hE]
  rw [hdrop, hcut, hcut, hoff, hsize, Nat.zero_add]
  refine ⟨(findEocd_append D).mpr (findEocd_of_noComment ht h20), ⟨?_, ?_, ?_, ?_, ?_, ?_⟩, ?_, rfl, rfl,
    rfl, trivial, rfl, rfl⟩
  · rw [u16le, hfield (Or.inl (by decide))]
    decide
  · rw [u16le, hfield (Or.inl (by decide))]
    decide
  · rw [hcounts.1, hcounts.2]
  · rw [hcounts.2]
    exact (by decide : 0 % 2 ^ 16 ≠ 0xffff)
  · rw [hsize]
    omega
  · rw [hoff]
    decide
  · rintro ⟨-, hsig⟩
    rw [slice_append_left _ _ (by omega)] at hsig
    exact hloc hsig

theorem parseInput_listing (hwf : ∀ r ∈ rs, WfRecord r) (hlen : rs.flatten.length < 0xffffffff)
    (hloc : slice rs.flatten (rs.flatten.length - 20) (rs.flatten.length - 16) ≠ zip64LocatorSig) :
    ∃ P, parseInput (listing rs) = .ok (P, (rs.filter isOutput).flatten) ∧
      P.sections = listingSections rs ∧ P.filtered.kept = entriesFrom 0 (rs.filter isOutput) := by
  obtain ⟨fc, hfc, hbytes, hkept, -⟩ := filterCd_flatten hwf
  have hfull : slice (listing rs) 0 (0 + rs.flatten.length) = rs.flatten := by
    rw [listing, Nat.zero_add, slice_append_left _ _ (Nat.le_refl _), slice_zero, List.take_length]
  rw [parseInput, parse_listing hlen hloc, ok_bind]
  simp only [listingSections]
  rw [hfull, hfc, ok_bind, hbytes]
  exact ⟨_, rfl, rfl, hkept⟩

end Listing

def listingWorld (rs : List Bytes) : World := loneFile offJob.input (listing rs)

section Listing

variable {rs : List Bytes}

theorem run_listing (R : Crypto) (hwf : ∀ r ∈ rs, WfRecord r) (hlen : rs.flatten.length < 0xffffffff)
    (hloc : slice rs.flatten (rs.flatten.length - 20) (rs.flatten.length - 16) ≠ zip64LocatorSig) :
    (run (exec R) (signOne R offJob) (fun _ => calmChance) (listingWorld rs)).1 = .ok () := by
  obtain ⟨P, hparse, hsections, -⟩ := parseInput_listing hwf hlen hloc
  have hsmall : (listing rs).length < 2 ^ 64 := by
    have hcomment := u16le_lt (Content.eocd ⟨[], rs.flatten, 0⟩ blankEocd 0) 20
    have hmin : eocdMinLen = 22 := rfl
    rw [listing, List.length_append,
      (isEocd_eocd isEocd_blankEocd ⟨[], rs.flatten, 0⟩ 0).len]
    omega
  exact ok_of_splice rfl rfl (by decide) (by simp [listingWorld]) hparse rfl hsmall
    (by rw [hsections]; exact Nat.zero_le _)

/-- What is made of a listing: its directory is that of the kept records. -/
theorem made_listing (R : Crypto) (hwf : ∀ r ∈ rs, WfRecord r) (hlen : rs.flatten.length < 0xffffffff)
    (hloc : slice rs.flatten (rs.flatten.length - 20) (rs.flatten.length - 16) ≠ zip64LocatorSig) :
    ∃ seeds P cd c B rs', IsParsed (listing rs) P cd ∧ P.sections = listingSections rs ∧
      c.cd = (rs.filter isOutput).flatten ∧ c.count = (rs.filter isOutput).length ∧
      c.cd.length ≤ P.sections.cdSize ∧ Made R offJob.opts exampleSigner seeds P c ((run (exec R)
        (signOne R offJob) (fun _ => calmChance) (listingWorld rs)).2.content offJob.dest) B rs' := by
  obtain ⟨P, hparse, hsections, hkept⟩ := parseInput_listing hwf hlen hloc
  obtain ⟨k, -, hspec⟩ := (finished_of_run (run_listing R hwf hlen hloc)).content
  obtain ⟨signer, P', cd, c, B, rs', hkey, hparse', hp, hc, hm⟩ := made_of_signSpec hspec
  have hcontent : (listingWorld rs).content offJob.input = listing rs := by
    simp [listingWorld, World.content]
  rw [hcontent] at hparse' hp hc
  obtain ⟨rfl, rfl⟩ := Prod.mk.inj (Except.ok.inj (hparse.symm.trans hparse'))
  obtain rfl := Option.some.inj hkey
  refine ⟨_, P, _, c, B, rs', hp, hsections, ?_, ?_, length_cd_le_of_contentSpec hp hc, hm⟩
  · rcases contentSpec_eq_ok_iff.mp hc with ⟨htrue, -⟩ | ⟨-, hsp⟩
    · cases htrue
    · obtain ⟨rfl, -, -⟩ := spliceContent_eq_ok_iff.mp hsp
      rfl
  · rw [count_of_contentSpec hp hc, hkept, length_entriesFrom]

end Listing

theorem wfRecord_exampleRecord_a : WfRecord (exampleRecord 0 0 0 0 (ascii "a")) :=
  ⟨by decide, by decide⟩

theorem length_flatten_replicate (n : Nat) (r : Bytes) :
    (List.replicate n r).flatten.length = n * r.length := by
  rw [List.length_flatten, List.map_replicate, List.sum_replicate_nat]

/-- As many entries as sixteen bits can tell, and one more. -/
def manyRecords : List Bytes := List.replicate (65535 + 1) (exampleRecord 0 0 0 0 (ascii "a"))

theorem filter_manyRecords : manyRecords.filter isOutput = manyRecords :=
  List.filter_replicate_of_pos (by decide)

theorem length_flatten_manyRecords : manyRecords.flatten.length = 65535 * 47 + 47 := by
  rw [manyRecords, length_flatten_replicate]
  rfl

theorem noLocator_manyRecords :
    slice manyRecords.flatten (manyRecords.flatten.length - 20) (manyRecords.flatten.length - 16)
      ≠ zip64LocatorSig := by
  have hfront : (List.replicate 65535 (exampleRecord 0 0 0 0 (ascii "a"))).flatten.length
      = 65535 * 47 := length_flatten_replicate _ _
  rw [length_flatten_manyRecords, manyRecords, List.replicate_succ', List.flatten_append,
    List.flatten_singleton, slice_append_right _ _ (by rw [hfront]; decide), hfront]
  decide

/-- It is signed, and the record counts no entries. -/
theorem signOne_counts_listing :
    (run (exec sha256Crypto) (signOne sha256Crypto offJob) (fun _ => calmChance)
      (listingWorld manyRecords)).1 = .ok () ∧
    ∃ C B D E entries,
      Signed sha256Crypto offJob.opts exampleSigner ((run (exec sha256Crypto)
        (signOne sha256Crypto offJob) (fun _ => calmChance) (listingWorld manyRecords)).2.content
        offJob.dest) C B D E ∧
      E.length = 22 ∧ parseCdEntries D = .ok entries ∧ entries.length = 65536 ∧ u16le E 8 = 0 ∧
      u16le E 10 = 0 := by
  generalize sha256Crypto = R
  have hwf : ∀ r ∈ manyRecords, WfRecord r := by
    intro r hr
    rw [List.eq_of_mem_replicate hr]
    exact wfRecord_exampleRecord_a
  have hlen : manyRecords.flatten.length < 0xffffffff := by
    rw [length_flatten_manyRecords]
    decide
  refine ⟨run_listing R hwf hlen noLocator_manyRecords, ?_⟩
  obtain ⟨seeds, P, cd, c, B, rs, hp, hsections, -, hcount, -, hm⟩ :=
    made_listing R hwf hlen noLocator_manyRecords
  rw [filter_manyRecords, manyRecords, List.length_replicate] at hcount
  obtain ⟨h8, h10⟩ := counts_eocd hp.bounds.isEocd c B.length
  rw [hcount] at h8 h10
  refine ⟨_, B, _, _, _, hm.signed, ?_, hm.directory.parse, ?_, h8, h10⟩
  · rw [length_eocd hp.bounds.isEocd, hsections]
    rfl
  · rw [length_entriesFrom, ← hm.count, hcount]

/-! ### The signatures -/

/-- A record seems to start at `s`, and what stands behind it is its comment. -/
def ReadsAt (E : Bytes) (s : Nat) : Prop :=
  slice E s (s + 4) = eocdSig ∧ s + eocdMinLen + u16le E (s + 20) = E.length

/-- A record is found if nothing behind its start reads as one. -/
theorem findEocd_zero_iff {E : Bytes} (h : IsEocd E) :
    findEocd E = some 0 ↔ ∀ s, 0 < s → ¬ ReadsAt E s := by
  have hlen := h.len
  rw [findEocd_eq_some_iff]
  constructor
  · rintro ⟨c, -, hc, -, hmin⟩ s hs ⟨hsig, hcomment⟩
    have hno := hmin (u16le E (s + 20)) (by omega)
    rw [eocdWith, show E.length - eocdMinLen - u16le E (s + 20) = s by omega] at hno
    simp [hsig] at hno
  · intro hno
    refine ⟨u16le E 20, Nat.le_of_lt_succ (u16le_lt E 20), by omega, ?_, fun c' hc' => ?_⟩
    · rw [eocdWith, show E.length - eocdMinLen - u16le E 20 = 0 by omega]
      simp [h.sig]
    · by_contra hc
      obtain ⟨hsig, hcomment⟩ := Bool.and_eq_true_iff.mp (Bool.not_eq_false _ ▸ hc)
      exact hno (E.length - eocdMinLen - c') (by omega)
        ⟨of_decide_eq_true hsig, by rw [of_decide_eq_true hcomment]; omega⟩

/-- **The comment is not to blame**: in a record that was found, only the fields that signing writes
can be taken for the start of another one. -/
theorem findEocd_eocd {e : Bytes} (ht : IsEocd e) (hfound : findEocd e = some 0) (c : Content)
    (n : Nat) :
    findEocd (c.eocd e n) = some 0 ↔ ∀ s, 0 < s → s < 20 → ¬ ReadsAt (c.eocd e n) s := by
  have hE := isEocd_eocd ht c n
  have hlen : (c.eocd e n).length = e.length := by
    rw [hE.len, ht.len, u16le, u16le, slice_eocd ht c _ (by decide)]
  rw [findEocd_zero_iff hE]
  refine ⟨fun h s hs _ => h s hs, fun h s hs hread => ?_⟩
  by_cases h20 : s < 20
  · exact h s hs h20 hread
  · obtain ⟨hsig, hcomment⟩ := hread
    rw [slice_eocd ht c _ (Or.inr (by omega))] at hsig
    rw [hlen, u16le, slice_eocd ht c _ (Or.inr (by omega))] at hcomment
    exact (findEocd_zero_iff ht).mp hfound s hs ⟨hsig, hcomment⟩

/-- The EOCD record `e`, with the numbers for a directory of `count` entries and `size` bytes that
lies at `off`. -/
def numbered (e : Bytes) (count size off : Nat) : Bytes :=
  setEocdCdOffset (setEocdCdSize (setEocdEntryCount e count) size) off

/-- Nothing can be taken for something else, once the directory `D` of `count` entries is put at
`off`: no number that is written to the record `e` for the start of another record, and no end of the
directory for a Zip64 locator. -/
structure Legible (e : Bytes) (count : Nat) (D : Bytes) (off : Nat) : Prop where
  record : ∀ s, 0 < s → s < 20 → ¬ ReadsAt (numbered e count D.length off) s
  noLocator : ¬ (e.length + 20 ≤ eocdMinLen + maxCommentLen ∧ 20 ≤ D.length ∧
    slice D (D.length - 20) (D.length - 16) = zip64LocatorSig)

theorem findable_iff {apk cd : Bytes} {P : Parsed} (hp : IsParsed apk P cd) (c : Content) (n : Nat) :
    Findable c.cd (c.eocd P.sections.eocd n) ↔
      Legible P.sections.eocd c.count c.cd ((Align.padded c.entries).length + n) := by
  have hbounds := hp.bounds
  have hle := hbounds.eocd_le
  obtain ⟨hfind, -⟩ := (parseWith_eq_ok_iff .wrap hp.small).mp hp.sections
  have hfound : findEocd P.sections.eocd = some 0 := by
    have happ := @findEocd_append P.sections.eocd (apk.take P.sections.eocdOff)
    rw [List.length_take_of_le (by omega), hbounds.eocd, List.take_append_drop] at happ
    rw [hbounds.eocd]
    exact happ.mp hfind
  have hiff := findEocd_eocd hbounds.isEocd hfound c n
  have hlen := length_eocd (c := c) hbounds.isEocd n
  exact ⟨fun h => ⟨hiff.mp h.record, hlen ▸ h.noLocator⟩,
    fun h => ⟨hiff.mpr h.record, hlen.symm ▸ h.noLocator⟩⟩

theorem length_kept_le {apk cd : Bytes} {P : Parsed} (hp : IsParsed apk P cd) {all : List CdEntry}
    (hall : parseCdEntries (P.cdFull apk) = .ok all) : P.filtered.kept.length ≤ all.length := by
  obtain ⟨rs, hwf, hcd, -, hkept⟩ := hp.exists_records
  obtain rfl := Except.ok.inj
    (hall.symm.trans (parseCdEntries_eq_ok_iff.mpr ⟨rs, hwf, hcd, rfl⟩))
  rw [hkept, length_entriesFrom, length_entriesFrom]
  exact List.length_filter_le _ _

section Legible

variable (R : Crypto) (J : Job) (w : World) (env : Nat → Chance)

/-- **The parser finds the four parts of a signed APK where they were written**, if there were
fewer than `0xffff` entries, exactly if none of the numbers that the record gets looks like another
record, and the end of the directory does not look like a Zip64 locator.  The directory is that of the
kept entries, with the offsets of their headers. -/
theorem signOne_legible
    (hfew : ∀ s all, Zip.parse (ReadAt.ofBytes (w.content J.input)) = .ok s →
      parseCdEntries (slice (w.content J.input) s.cdOff (s.cdOff + s.cdSize)) = .ok all →
      all.length < 0xffff)
    (h : (run (exec R) (signOne R J) env w).1 = .ok ()) :
    ∃ signer P cd C B D E es', J.key = some signer ∧
      parseInput (w.content J.input) = .ok (P, cd) ∧
      Signed R J.opts signer ((run (exec R) (signOne R J) env w).2.content J.dest) C B D E ∧
      Carries (w.content J.input) ((run (exec R) (signOne R J) env w).2.content J.dest) P cd D es' ∧
      (Zip.parse (ReadAt.ofBytes ((run (exec R) (signOne R J) env w).2.content J.dest))
          = .ok (signedSections C B D E) ↔
        Legible P.sections.eocd P.filtered.kept.length D (C.length + B.length)) := by
  obtain ⟨k, -, hspec⟩ := (finished_of_run h).content
  obtain ⟨signer, P, cd, c, B, rs, hkey, hparse, hp, hc, hm⟩ := made_of_signSpec hspec
  have hcount : rs.length < 0xffff := by
    obtain ⟨rs₀, hwf, hcd, -⟩ := hp.exists_records
    have hall := parseCdEntries_eq_ok_iff.mpr ⟨rs₀, hwf, hcd, rfl⟩
    rw [← hm.count, count_of_contentSpec hp hc]
    exact Nat.lt_of_le_of_lt (length_kept_le hp hall) (hfew _ _ hp.sections hall)
  obtain ⟨es', hes'⟩ := carries_of_contentSpec hp hc hm.room hm.signed.file
  refine ⟨signer, P, cd, _, B, _, _, es', hkey, hparse, hm.signed, hes', ?_⟩
  rw [hm.parse_iff hp (length_cd_le_of_contentSpec hp hc), findable_iff hp, count_of_contentSpec hp hc]
  exact ⟨fun hf => hf.2, fun hl => ⟨by omega, hl⟩⟩

end Legible

set_option maxRecDepth 8000 in
theorem parse_mixedRecords : parseCdEntries mixedRecords.flatten = .ok (entriesFrom 0 mixedRecords) := by
  decide

theorem signOne_legible_mixed : ∃ C B D E,
    Zip.parse (ReadAt.ofBytes ((run (exec sha256Crypto) (signOne sha256Crypto exampleJob)
      (fun _ => calmChance) exampleWorld).2.content exampleJob.dest)) = .ok (signedSections C B D E) ↔
        Legible mixedEocd 2 D (C.length + B.length) := by
  generalize sha256Crypto = R
  have hfew : ∀ s all, Zip.parse (ReadAt.ofBytes (exampleWorld.content exampleJob.input)) = .ok s →
      parseCdEntries (slice (exampleWorld.content exampleJob.input) s.cdOff (s.cdOff + s.cdSize))
        = .ok all → all.length < 0xffff := by
    intro s all hs hall
    obtain rfl := Except.ok.inj (parse_mixedApk.symm.trans hs)
    change parseCdEntries (mixedParsed.cdFull mixedApk) = .ok all at hall
    rw [cdFull_mixedParsed, parse_mixedRecords] at hall
    obtain rfl := Except.ok.inj hall
    decide
  obtain ⟨signer, P, cd, C, B, D, E, es', -, hparse, -, -, hiff⟩ :=
    signOne_legible R exampleJob exampleWorld (fun _ => calmChance) hfew (run_exampleJob R)
  obtain ⟨rfl, -⟩ := Prod.mk.inj (Except.ok.inj (parseInput_mixedApk.symm.trans hparse))
  exact ⟨C, B, D, E, hiff⟩

/-- `a`, with a comment in which a Zip64 locator seems to start. -/
def locatorRecord : Bytes :=
  patch (exampleRecord 0 0 0 0 (ascii "a")) 32 (leBytes 2 20) ++ zip64LocatorSig ++ List.replicate 16 0

/-- Behind it the directory `d/`, which is dropped. -/
def locatorRecords : List Bytes := [locatorRecord, exampleRecord 0 0 0 0 (ascii "d/")]

/-- It is signed, and cannot be read again: the comment is now the end of the directory. -/
theorem signOne_legible_listing :
    (run (exec sha256Crypto) (signOne sha256Crypto offJob) (fun _ => calmChance)
      (listingWorld locatorRecords)).1 = .ok () ∧ locatorRecords.length = 2 ∧
    ∀ s, Zip.parse (ReadAt.ofBytes ((run (exec sha256Crypto) (signOne sha256Crypto offJob)
      (fun _ => calmChance) (listingWorld locatorRecords)).2.content offJob.dest)) ≠ .ok s := by
  generalize sha256Crypto = R
  have hwf : ∀ r ∈ locatorRecords, WfRecord r := by
    intro r hr
    rcases List.mem_cons.mp hr with rfl | hr
    · exact ⟨by decide, by decide⟩
    · rw [List.mem_singleton.mp hr]
      exact ⟨by decide, by decide⟩
  have hlen : locatorRecords.flatten.length < 0xffffffff := by decide
  refine ⟨run_listing R hwf hlen (by decide), rfl, fun s hs => ?_⟩
  obtain ⟨seeds, P, cd, c, B, rs, hp, hsections, hcd, -, hsize, hm⟩ :=
    made_listing R hwf hlen (by decide)
  have hF := hm.small hp hsize
  rw [show (locatorRecords.filter isOutput).flatten = locatorRecord by decide] at hcd
  have h20 : u16le (c.eocd P.sections.eocd B.length) 20 = 0 := by
    rw [u16le, slice_eocd hp.bounds.isEocd c _ (Or.inr (Nat.le_refl _)), hsections]
    decide
  have hE := hm.signed.eocd
  have hElen : (c.eocd P.sections.eocd B.length).length = 22 := by
    rw [hE.len, h20]
    rfl
  have hfile := hm.signed.file
  have hfound := (findEocd_append (Align.padded c.entries ++ B ++ c.cd)).mpr
    (findEocd_of_noComment hE h20)
  rw [← hfile, List.length_append, List.length_append] at hfound
  obtain ⟨hfind, -, hloc, -⟩ := (parseWith_eq_ok_iff .wrap hF).mp hs
  rw [← Option.some.inj (hfound.symm.trans hfind),
    hm.signed.locatorBefore_iff hm.directory.nil_or_le (by have := hm.room; omega), hElen, hcd] at hloc
  exact hloc ⟨by decide, by decide, by decide⟩

end FastSigner.Sign

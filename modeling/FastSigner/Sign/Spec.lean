import FastSigner.Align.Recheck
import FastSigner.Sign.Job

/-!
# What signing is for

`signSpec` is the signed APK as a function of the APK, the options and the key,
without threads, files, guesses and samples.  What else it depends on is a `Luck`:
reads of the input that fail, the random numbers of the signatures, and whether
the temporary file happens to be the input itself.

* `checkable_of_rewriteContent`: what the rewrite accepts, the alignment check accepts.
* `signed_of_signSpec`: the result is a signed APK.
-/

namespace FastSigner.Sign

open Lib Zip Digest Align SigBlock

/-- What is left of the input once the temporary file was created. -/
inductive Access
  | apart -- All of it.
  | copied -- The temporary file is the input, which is empty now; but its bytes were read before.
  | lost -- The temporary file is the input, and what was mapped is gone.
  deriving DecidableEq, Repr

def Access.content (a : Access) (apk : Bytes) : Bytes := if a = .apart then apk else []

/-- What the copying threads of a rewrite read: an empty file that `set_len` has made longer holds
zeros. -/
def Access.source (a : Access) (apk : Bytes) (n : Nat) : Bytes :=
  if a = .apart then apk else List.replicate n 0

/-- Looking at `len` bytes of the mapping. -/
def Access.look (a : Access) (len : Nat) : Except Error Unit :=
  if a = .lost ∧ len ≠ 0 then .error .lostMapping else .ok ()

/-- What signing depends on besides the APK, the options and the key. -/
structure Luck where
  access : Access
  reads : (off n : Nat) → Option IoError
  seeds : Nat × Nat

/-- The Central Directory of the input. -/
def Parsed.cdFull (P : Parsed) (apk : Bytes) : Bytes :=
  slice apk P.sections.cdOff (P.sections.cdOff + P.sections.cdSize)

/-- How much of the part is in the mapped input. -/
def Part.mappedLen : Part → Nat
  | .owned _ => 0
  | .mapped _ len => len

def Part.value (apk : Bytes) : Part → Bytes
  | .owned b => b
  | .mapped off len => slice apk off (off + len)

/-! ### The content -/

/-- The old entries section with the filtered directory. -/
def spliced (apk : Bytes) (P : Parsed) (cd : Bytes) : Content :=
  ⟨apk.take P.sections.entriesEnd, cd, P.filtered.kept.length⟩

def spliceContent (a : Access) (apk : Bytes) (P : Parsed) (cd : Bytes) : Except Error Content := do
  a.look P.sections.entriesEnd
  a.look P.cd.mappedLen
  if a ≠ .apart ∧ P.sections.entriesEnd ≠ 0 then
    .error (.write (.shortCopy 0 P.sections.entriesEnd))
  else .ok (spliced apk P cd)

/-- What the rewrite is given. -/
def archiveOf (opts : Opts) (k : Luck) (apk : Bytes) (s : ZipSections) (cd : Bytes)
    (entries : List CdEntry) (policies : List EntryPolicy) : Archive where
  input := ReadAt.faulty (k.access.content apk) k.reads
  cd
  entries
  policies
  entriesEnd := s.entriesEnd
  libPageSize := opts.libPageSize

def rewriteContent (R : Crypto) (opts : Opts) (alg : Algorithm) (k : Luck) (apk : Bytes)
    (P : Parsed) : Except Error Content := do
  let s := P.sections
  k.access.look s.cdSize
  let (all, policies) ← classify (P.cdFull apk)
  let (rw_, file) ← rewriteSpec R alg (k.access.source apk s.entriesEnd)
    (archiveOf opts k apk s (P.cdFull apk) all policies)
  .ok ⟨file, rw_.cd, rw_.entries⟩

/-- Whether the entries have to be moved. -/
def needsRewrite (opts : Opts) (apk : Bytes) (P : Parsed) (cd : Bytes) : Except Error Bool :=
  match opts.zipalign with
  | .off => .ok false
  | .always => .ok true
  | .check => do
    let bad ← checkSection apk cd P.sections.entriesEnd opts.libPageSize
    .ok (decide (bad ≠ []))

def contentSpec (R : Crypto) (opts : Opts) (alg : Algorithm) (k : Luck) (apk : Bytes) (P : Parsed)
    (cd : Bytes) : Except Error Content := do
  if ← needsRewrite opts apk P cd then rewriteContent R opts alg k apk P
  else spliceContent k.access apk P cd

/-- The signed APK. -/
def signSpec (R : Crypto) (opts : Opts) (key : Option Signer) (k : Luck) (apk : Bytes) :
    Except Error Bytes :=
  if 2 ^ 64 ≤ apk.length then .error (.map .tooLarge)
  else do
    let signer ← key.elim (.error .keyFailed) .ok
    let (P, cd) ← parseInput apk
    let c ← contentSpec R opts signer.contentDigest k apk P cd
    sealContent R opts signer k.seeds P.sections.eocd c

/-! ### The parsed input -/

/-- What the parse phase found in an APK. -/
structure IsParsed (apk : Bytes) (P : Parsed) (cd : Bytes) : Prop where
  small : apk.length < 2 ^ 64
  sections : Zip.parse (ReadAt.ofBytes apk) = .ok P.sections
  filtered : filterCd (P.cdFull apk) = .ok P.filtered
  value : P.cd.value apk = cd
  cd : cd = P.filtered.bytes.deref (P.cdFull apk)
  part : P.cd.mappedLen = 0 ∨ P.cd = .mapped P.sections.cdOff P.sections.cdSize

theorem isParsed_of_parseInput {apk cd : Bytes} {P : Parsed} (hsmall : apk.length < 2 ^ 64)
    (h : parseInput apk = .ok (P, cd)) : IsParsed apk P cd := by
  rw [parseInput, bind_eq_ok] at h
  obtain ⟨s, hs, h⟩ := h
  rw [bind_eq_ok] at h
  obtain ⟨f, hf, h⟩ := h
  simp only [Except.ok.injEq, Prod.mk.injEq] at h
  obtain ⟨rfl, rfl⟩ := h
  cases hb : f.bytes with
  | borrowed => exact ⟨hsmall, hs, hf, rfl, by rw [hb]; rfl, Or.inr rfl⟩
  | owned b => exact ⟨hsmall, hs, hf, rfl, by rw [hb]; rfl, Or.inl rfl⟩

section Parsed

variable {apk cd : Bytes} {P : Parsed}

structure Bounds (apk : Bytes) (s : ZipSections) : Prop where
  entries_le : s.entriesEnd ≤ s.cdOff
  cd_end : s.cdOff + s.cdSize = s.eocdOff
  eocd_le : s.eocdOff + 22 ≤ apk.length
  fileLen : s.fileLen = apk.length
  eocd : s.eocd = apk.drop s.eocdOff
  isEocd : IsEocd s.eocd
  cdSize_lt : s.cdSize < 2 ^ 32

theorem bounds_of_parse {s : ZipSections} (hsmall : apk.length < 2 ^ 64)
    (hs : Zip.parse (ReadAt.ofBytes apk) = .ok s) : Bounds apk s := by
  have hle := parse_entriesEnd_le hsmall hs
  obtain ⟨hfind, -, -, -, hsize, hend, hlen, heocd, -⟩ :=
    (parseWith_eq_ok_iff .wrap hsmall).mp hs
  obtain ⟨hmin, hcomment, hsig⟩ := findEocd_comment hfind
  have h22 : eocdMinLen = 22 := rfl
  refine ⟨hle, hend, by omega, hlen, heocd, ⟨?_, ?_⟩, hsize ▸ u32le_lt _ _⟩
  · rw [heocd, slice_drop, Nat.add_zero]
    exact hsig
  · rw [heocd, u16le_drop, List.length_drop, hcomment]
    omega

theorem IsParsed.bounds (h : IsParsed apk P cd) : Bounds apk P.sections :=
  bounds_of_parse h.small h.sections

theorem IsParsed.exists_records (h : IsParsed apk P cd) :
    ∃ rs : List Bytes, (∀ r ∈ rs, WfRecord r) ∧ P.cdFull apk = rs.flatten ∧
      cd = (rs.filter isOutput).flatten ∧
      P.filtered.kept = entriesFrom 0 (rs.filter isOutput) := by
  obtain ⟨rs, hwf, hcd, hbytes, hkept⟩ := filterCd_eq_ok h.filtered
  exact ⟨rs, hwf, hcd, h.cd.trans hbytes, hkept⟩

theorem IsParsed.parse_kept (h : IsParsed apk P cd) : parseCdEntries cd = .ok P.filtered.kept := by
  obtain ⟨rs, hwf, -, hcd, hkept⟩ := h.exists_records
  exact parseCdEntries_eq_ok_iff.mpr
    ⟨_, fun r hr => hwf r (List.mem_of_mem_filter hr), hcd, hkept⟩

theorem length_flatten_filter_le {α : Type} (f : List α → Bool) (rs : List (List α)) :
    (rs.filter f).flatten.length ≤ rs.flatten.length := by
  induction rs with
  | nil => exact Nat.le_refl _
  | cons r rs ih =>
    rw [List.filter_cons]
    split
    · rw [List.flatten_cons, List.flatten_cons, List.length_append, List.length_append]
      omega
    · rw [List.flatten_cons, List.length_append]
      omega

theorem IsParsed.length_cdFull (h : IsParsed apk P cd) :
    (P.cdFull apk).length = P.sections.cdSize := by
  have hb := h.bounds
  have := hb.cd_end
  have := hb.eocd_le
  rw [Parsed.cdFull, length_slice_of_le _ (by omega)]
  omega

theorem IsParsed.length_cd_le (h : IsParsed apk P cd) : cd.length ≤ P.sections.cdSize := by
  obtain ⟨rs, -, hfull, hcd, -⟩ := h.exists_records
  rw [← h.length_cdFull, hfull, hcd]
  exact length_flatten_filter_le _ _

theorem IsParsed.length_part (h : IsParsed apk P cd) : P.cd.len = cd.length := by
  rw [← h.value]
  cases hp : P.cd with
  | owned b => rfl
  | mapped off len =>
    have hb := h.bounds
    have := hb.cd_end
    have := hb.eocd_le
    rcases h.part with h0 | hpart
    · rw [hp, Part.mappedLen] at h0
      rw [h0, Part.len, Part.value, Nat.add_zero, slice_of_le _ (Nat.le_refl _), List.length_nil]
    · rw [hp] at hpart
      cases hpart
      rw [Part.len, Part.value, length_slice_of_le _ (by omega)]
      omega

/-- No entry is listed without a directory. -/
theorem IsParsed.kept_of_cdSize (h : IsParsed apk P cd) (h0 : P.sections.cdSize = 0) :
    P.filtered.kept = [] := by
  obtain ⟨rs, hwf, hfull, -, hkept⟩ := h.exists_records
  have hnil : P.cdFull apk = [] := List.eq_nil_of_length_eq_zero (by rw [h.length_cdFull, h0])
  rw [hkept, eq_nil_of_flatten_eq_nil hwf (hfull.symm.trans hnil)]
  rfl

end Parsed

/-! ### The alignment check -/

/-- The headers of the entries are there and none reaches into another. -/
structure Checkable (apk : Bytes) (entriesEnd : Nat) (entries : List CdEntry) : Prop where
  order : ∃ order, fileOrder entries entriesEnd = .ok order
  lfh : ∀ e ∈ entries, HasLfh apk e.lfhOff
  fits : Fits apk entriesEnd entries

theorem inside_of_fileOrder {entries : List CdEntry} {entriesEnd : Nat} {order : List (CdEntry × Nat)}
    (h : fileOrder entries entriesEnd = .ok order) : ∀ e ∈ entries, e.lfhOff + lfhLen ≤ entriesEnd := by
  obtain ⟨hperm, -, hin⟩ := fileOrder_eq_ok_iff.mp h
  intro e he
  obtain ⟨i, hi⟩ := List.getElem?_of_mem he
  exact hin (e, i) (hperm.mem_iff.mpr (List.mem_zipIdx_iff_getElem?.mpr hi))

section Check

variable {apk cd : Bytes} {entriesEnd libPageSize : Nat} {entries : List CdEntry}

theorem check_of_lens (cd : Bytes) (libPageSize : Nat) {lens : Except Error (List LfhLens)}
    (hlens : (∃ order, fileOrder entries entriesEnd = .ok order) → lens.toOption
      = if ∀ e ∈ entries, HasLfh apk e.lfhOff then some (entries.map fun e => lensAt apk e.lfhOff)
        else none) :
    (Checkable apk entriesEnd entries →
      ∃ l bad, lens = .ok l ∧ check cd entries l entriesEnd libPageSize = .ok bad ∧
        (bad = [] ↔ ∀ e ∈ entries, AlignedIn apk cd libPageSize e)) ∧
    (¬ Checkable apk entriesEnd entries →
      ∀ l bad, lens = .ok l → check cd entries l entriesEnd libPageSize ≠ .ok bad) := by
  refine ⟨?_, ?_⟩
  · rintro ⟨⟨order, horder⟩, hlfh, hfits⟩
    have hl := hlens ⟨order, horder⟩
    rw [if_pos hlfh] at hl
    obtain ⟨bad, hbad, hiff⟩ := (check_spec horder).1 hfits
    exact ⟨_, bad, toOption_eq_some.mp hl, hbad, hiff⟩
  · intro hn l bad hl hbad
    have horder : ∃ order, fileOrder entries entriesEnd = .ok order := by
      rw [check, bind_eq_ok] at hbad
      obtain ⟨order, horder, -⟩ := hbad
      exact ⟨order, horder⟩
    have hopt := hlens horder
    rw [hl] at hopt
    by_cases hlfh : ∀ e ∈ entries, HasLfh apk e.lfhOff
    · rw [if_pos hlfh] at hopt
      obtain rfl := Option.some.inj hopt
      refine hn ⟨horder, hlfh, ?_⟩
      by_contra hfits
      obtain ⟨order, horder⟩ := horder
      obtain ⟨err, herr⟩ := (check_spec horder).2 hfits
      rw [herr] at hbad
      cases hbad
    · rw [if_neg hlfh] at hopt
      cases hopt

theorem mapM_lens (hb : entriesEnd ≤ apk.length)
    (horder : ∃ order, fileOrder entries entriesEnd = .ok order) :
    (entries.mapM fun e => readLfhLens (ReadAt.ofBytes apk) e.lfhOff).toOption
      = if ∀ e ∈ entries, HasLfh apk e.lfhOff then some (entries.map fun e => lensAt apk e.lfhOff)
        else none := by
  obtain ⟨order, horder⟩ := horder
  have hin := inside_of_fileOrder horder
  split
  · rename_i hlfh
    rw [mapM_readLfhLens fun e he => ⟨Nat.le_trans (hin e he) hb, hlfh e he⟩]
    rfl
  · rename_i hlfh
    cases hl : entries.mapM fun e => readLfhLens (ReadAt.ofBytes apk) e.lfhOff with
    | error e => rfl
    | ok l =>
      exfalso
      apply hlfh
      intro e he
      obtain ⟨x, hx⟩ := forall_ok_of_mapM hl e he
      rw [readLfhLens_ofBytes (Nat.le_trans (hin e he) hb)] at hx
      by_contra hno
      rw [if_neg hno] at hx
      cases hx

/-- **What the check of a section says.** -/
theorem checkSection_spec (libPageSize : Nat) (hb : entriesEnd ≤ apk.length)
    (hparse : parseCdEntries cd = .ok entries) :
    (Checkable apk entriesEnd entries →
      ∃ bad, checkSection apk cd entriesEnd libPageSize = .ok bad ∧
        (bad = [] ↔ ∀ e ∈ entries, AlignedIn apk cd libPageSize e)) ∧
    (¬ Checkable apk entriesEnd entries →
      ∃ err, checkSection apk cd entriesEnd libPageSize = .error err) := by
  obtain ⟨hyes, hno⟩ := check_of_lens cd libPageSize (mapM_lens hb)
  rw [checkSection, hparse, ok_bind]
  refine ⟨?_, ?_⟩
  · intro h
    obtain ⟨l, bad, hl, hbad, hiff⟩ := hyes h
    exact ⟨bad, by rw [hl, ok_bind, hbad], hiff⟩
  · intro h
    cases hl : entries.mapM fun e => readLfhLens (ReadAt.ofBytes apk) e.lfhOff with
    | error e => exact ⟨e, rfl⟩
    | ok l =>
      rw [ok_bind]
      cases hbad : check cd entries l entriesEnd libPageSize with
      | error e => exact ⟨e, rfl⟩
      | ok bad => exact absurd hbad (hno h l bad hl)

end Check

/-- A quick look at a few headers, or none. -/
theorem quick_spec {apk cd : Bytes} {entriesEnd : Nat} (libPageSize : Nat) {entries : List CdEntry}
    (hb : entriesEnd ≤ apk.length) (sample : Nat) :
    (quickMisaligned (ReadAt.ofBytes apk) cd entriesEnd libPageSize sample entries = .ok true →
      Checkable apk entriesEnd entries → ∃ e ∈ entries, ¬ AlignedIn apk cd libPageSize e) ∧
    (∀ err, quickMisaligned (ReadAt.ofBytes apk) cd entriesEnd libPageSize sample entries
      = .error err → ¬ Checkable apk entriesEnd entries) := by
  refine ⟨?_, ?_⟩
  · rintro hq ⟨⟨order, horder⟩, -, -⟩
    exact (quickMisaligned_spec hb cd libPageSize entries sample (inside_of_fileOrder horder)).1 hq
  · rintro err hq ⟨⟨order, horder⟩, hlfh, -⟩
    obtain ⟨e, he, hno⟩ := (quickMisaligned_spec hb cd libPageSize entries sample
      (inside_of_fileOrder horder)).2 err hq
    exact hno (hlfh e he)

/-! ### The rewritten content -/

theorem map_lfhOff_entriesFrom :
    ∀ (rs : List Bytes) (p : Nat), (entriesFrom p rs).map CdEntry.lfhOff = rs.map fun r => u32le r 42 := by
  intro rs
  induction rs with
  | nil => intro p; rfl
  | cons r rs ih =>
    intro p
    rw [entriesFrom, List.map_cons, List.map_cons, ih]
    rfl

theorem exists_entry_of_kept {rs : List Bytes} {e : CdEntry}
    (he : e ∈ entriesFrom 0 (rs.filter isOutput)) :
    ∃ e' i, (e', i) ∈ (entriesFrom 0 rs).zipIdx ∧ e'.lfhOff = e.lfhOff ∧
      (rs.map recordPolicy).getD i .gap = .output := by
  have hoff : e.lfhOff ∈ (rs.filter isOutput).map fun r => u32le r 42 := by
    rw [← map_lfhOff_entriesFrom _ 0]
    exact List.mem_map_of_mem he
  obtain ⟨r, hr, hre⟩ := List.mem_map.mp hoff
  obtain ⟨hmem, hout⟩ := List.mem_filter.mp hr
  obtain ⟨i, hi⟩ := List.getElem?_of_mem hmem
  obtain ⟨q, hq⟩ := getElem?_entriesFrom rs 0 hi
  refine ⟨_, i, List.mem_zipIdx_iff_getElem?.mpr hq, hre, ?_⟩
  rw [List.getD_eq_getElem?_getD, List.getElem?_map, hi]
  exact eq_of_beq hout

section Rewritten

variable {R : Crypto} {opts : Opts} {alg : Algorithm} {k : Luck} {apk cd : Bytes} {P : Parsed}
  {c : Content}

theorem Access.honest (a : Access) (apk : Bytes) (reads : (off n : Nat) → Option IoError) (n : Nat) :
    (ReadAt.faulty (a.content apk) reads).Honest (a.source apk n) := by
  intro off m x h
  have hx := ReadAt.honest_faulty _ _ off m x h
  rw [Access.content] at hx
  rw [Access.source]
  split at hx
  · rename_i ha
    rw [if_pos ha]
    exact hx
  · rename_i ha
    obtain ⟨hle, hx⟩ := hx
    rw [List.length_nil] at hle
    obtain ⟨rfl, rfl⟩ : off = 0 ∧ m = 0 := by omega
    rw [if_neg ha, hx, slice_of_le _ (Nat.le_refl _), slice_of_le _ (Nat.le_refl _)]
    exact ⟨by omega, rfl⟩

theorem IsParsed.le_source (h : IsParsed apk P cd) (a : Access) :
    P.sections.entriesEnd ≤ (a.source apk P.sections.entriesEnd).length := by
  have hb := h.bounds
  have := hb.entries_le
  have := hb.cd_end
  have := hb.eocd_le
  rw [Access.source]
  split
  · omega
  · rw [List.length_replicate]

/-- **What is known of a rewritten content.** -/
theorem rebuilt_of_rewriteContent (h : IsParsed apk P cd)
    (hc : rewriteContent R opts alg k apk P = .ok c) :
    (k.access = .lost → P.sections.cdSize = 0) ∧ ∃ all policies rw_ rs ps,
      rewriteSpec R alg (k.access.source apk P.sections.entriesEnd)
        (archiveOf opts k apk P.sections (P.cdFull apk) all policies) = .ok (rw_, c.entries) ∧
      c.cd = rw_.cd ∧ c.count = rw_.entries ∧
      Rebuilt (archiveOf opts k apk P.sections (P.cdFull apk) all policies)
        (k.access.source apk P.sections.entriesEnd) rw_ c.entries rs ps := by
  rw [rewriteContent, bind_eq_ok] at hc
  obtain ⟨u, hlook, hc⟩ := hc
  rw [bind_eq_ok] at hc
  obtain ⟨⟨all, policies⟩, hcl, hc⟩ := hc
  rw [bind_eq_ok] at hc
  obtain ⟨⟨rw_, file⟩, hspec, hc⟩ := hc
  obtain rfl := Except.ok.inj hc
  refine ⟨?_, ?_⟩
  · intro hlost
    rw [Access.look] at hlook
    split at hlook
    · cases hlook
    · rename_i hn
      exact not_not.mp fun h0 => hn ⟨hlost, h0⟩
  · obtain ⟨rs, ps, hre⟩ := exists_rebuilt (k.access.honest apk k.reads _) (h.le_source _) hcl hspec
    exact ⟨all, policies, rw_, rs, ps, hspec, rfl, rfl, hre⟩

theorem not_hasLfh_replicate (n off : Nat) : ¬ HasLfh (List.replicate n 0) off := by
  intro h
  rw [HasLfh, slice, List.drop_replicate, List.take_replicate] at h
  have hmem : (0x50 : UInt8) ∈ List.replicate (min (off + 4 - off) (n - off)) 0 := by
    rw [h]
    decide
  exact absurd (List.eq_of_mem_replicate hmem) (by decide)

theorem Rebuilt.kept {A : Archive} {b file : Bytes} {rw_ : Align.Rewritten} {rs : List Bytes}
    {ps : List Placed} (h : IsParsed apk P cd) (hcd : A.cd = P.cdFull apk)
    (hre : Rebuilt A b rw_ file rs ps) :
    cd = (rs.filter isOutput).flatten ∧ P.filtered.kept = entriesFrom 0 (rs.filter isOutput) := by
  obtain ⟨F, hF, hbytes, hkept, -⟩ := filterCd_flatten hre.wf
  rw [← hre.cd, hcd] at hF hbytes
  obtain rfl := Except.ok.inj (h.filtered.symm.trans hF)
  exact ⟨h.cd.trans hbytes, hkept⟩

/-- **What the rewrite accepts, the alignment check accepts.** -/
theorem checkable_of_rewriteContent (h : IsParsed apk P cd)
    (hc : rewriteContent R opts alg k apk P = .ok c) :
    Checkable apk P.sections.entriesEnd P.filtered.kept := by
  obtain ⟨-, all, policies, rw_, rs, ps, -, -, -, hre⟩ := rebuilt_of_rewriteContent h hc
  obtain ⟨-, hkept⟩ := Rebuilt.kept h rfl hre
  have hent : all = entriesFrom 0 rs := hre.entries
  have hpol : policies = rs.map recordPolicy := hre.policies
  -- a kept entry has a header where the rewrite looked for one
  have hfits : ∀ e ∈ P.filtered.kept, ∃ e' i, (e', i) ∈ all.zipIdx ∧ e'.lfhOff = e.lfhOff ∧
      policies.getD i .gap = .output := by
    intro e he
    rw [hkept] at he
    rw [hent, hpol]
    exact exists_entry_of_kept he
  refine ⟨?_, ?_, ?_⟩
  · obtain ⟨order, horder, -⟩ := hre.layout.order
    change fileOrder all P.sections.entriesEnd = .ok order at horder
    obtain ⟨hperm, hord, -⟩ := fileOrder_eq_ok_iff.mp horder
    have hin := inside_of_fileOrder horder
    refine exists_fileOrder ?_ ?_
    · have hall : (all.map CdEntry.lfhOff).Nodup := by
        have hp := hperm.map fun x => x.1.lfhOff
        rw [show (fun x : CdEntry × Nat => x.1.lfhOff) = CdEntry.lfhOff ∘ Prod.fst from rfl,
          ← List.map_map, ← List.map_map, List.zipIdx_map_fst, List.map_map] at hp
        rw [← hp.nodup_iff]
        exact List.pairwise_map.mpr (hord.imp fun hlt => Nat.ne_of_lt hlt)
      rw [hent, map_lfhOff_entriesFrom] at hall
      rw [hkept, map_lfhOff_entriesFrom]
      exact (List.filter_sublist.map _).nodup hall
    · intro e he
      obtain ⟨e', i, hmem, hoff, -⟩ := hfits e he
      rw [← hoff]
      exact hin e' (List.mem_of_getElem? (List.mem_zipIdx_iff_getElem?.mp hmem))
  · intro e he
    obtain ⟨e', i, hmem, hoff, hout⟩ := hfits e he
    have hl := (fits_of_placements hre.layout hmem hout).1
    rw [hoff, Access.source] at hl
    split at hl
    · exact hl
    · exact absurd hl (not_hasLfh_replicate _ _)
  · intro e he
    obtain ⟨e', i, hmem, hoff, hout⟩ := hfits e he
    obtain ⟨hl, hd, hnext⟩ := fits_of_placements hre.layout hmem hout
    rw [hoff] at hl hd hnext
    rw [Access.source] at hl hd hnext
    split at hl
    · rename_i ha
      rw [if_pos ha] at hd hnext
      refine ⟨hd, ?_⟩
      intro e₂ he₂ hlt
      obtain ⟨e₂', i₂, hmem₂, hoff₂, hout₂⟩ := hfits e₂ he₂
      have := hnext e₂' i₂ hmem₂ hout₂ (hoff₂ ▸ hlt)
      rwa [hoff₂] at this
    · exact absurd hl (not_hasLfh_replicate _ _)

theorem Rebuilt.length_newCd {A : Archive} {b file : Bytes} {rw_ : Align.Rewritten}
    {rs : List Bytes} {ps : List Placed} (hre : Rebuilt A b rw_ file rs ps) :
    rw_.cd.length = (rs.filter isOutput).flatten.length := by
  have hmoved : movedRecords rs (offOf ps)
      = (keptRecords rs).map fun x => setLfhOff x.1 (offOf ps x.2) := rfl
  rw [hre.newCd, ← map_fst_keptRecords, List.length_flatten, List.length_flatten, hmoved,
    List.map_map, List.map_map]
  refine congrArg List.sum (List.map_congr_left ?_)
  intro x hx
  exact length_setLfhOff (hre.wf_kept hx) _

theorem rewrittenTo_of_rewriteSpec {src file : Bytes} {A : Archive} {rw_ : Align.Rewritten}
    (h : rewriteSpec R alg src A = .ok (rw_, file)) : RewrittenTo R alg rw_ file := by
  rw [rewriteSpec, bind_eq_ok] at h
  obtain ⟨⟨plans, dropped⟩, -, h⟩ := h
  simp only [Except.ok.injEq, Prod.mk.injEq] at h
  obtain ⟨rfl, rfl⟩ := h
  exact ⟨rfl, rfl⟩

end Rewritten

/-! ### The signed APK -/

section Signed

variable {R : Crypto} {opts : Opts} {key : Option Signer} {k : Luck} {apk cd F : Bytes} {P : Parsed}
  {c : Content} {alg : Algorithm}

/-- What the check mode decides. -/
theorem needsRewrite_check (h : IsParsed apk P cd) (hopts : opts.zipalign = .check) :
    (Checkable apk P.sections.entriesEnd P.filtered.kept →
      ∃ b, needsRewrite opts apk P cd = .ok b ∧
        (b = true ↔ ∃ e ∈ P.filtered.kept, ¬ AlignedIn apk cd opts.libPageSize e)) ∧
    (¬ Checkable apk P.sections.entriesEnd P.filtered.kept →
      ∃ err, needsRewrite opts apk P cd = .error err) := by
  have hb := h.bounds
  have hle : P.sections.entriesEnd ≤ apk.length := by
    have := hb.entries_le
    have := hb.cd_end
    have := hb.eocd_le
    omega
  obtain ⟨hyes, hno⟩ := checkSection_spec opts.libPageSize hle h.parse_kept
  rw [needsRewrite, hopts]
  refine ⟨?_, ?_⟩
  · intro hc
    obtain ⟨bad, hbad, hiff⟩ := hyes hc
    refine ⟨_, by rw [hbad, ok_bind], ?_⟩
    rw [decide_eq_true_iff, ne_eq, hiff]
    push Not
    rfl
  · intro hc
    obtain ⟨err, herr⟩ := hno hc
    exact ⟨err, by rw [herr, error_bind]⟩

theorem Access.look_eq_ok {a : Access} {len : Nat} :
    a.look len = .ok () ↔ (a = .lost → len = 0) := by
  rw [Access.look]
  split
  · rename_i h
    exact ⟨fun h => (by cases h), fun hn => absurd (hn h.1) h.2⟩
  · rename_i h
    exact ⟨fun _ hl => not_not.mp fun h0 => h ⟨hl, h0⟩, fun _ => rfl⟩

theorem spliceContent_eq_ok_iff {a : Access} :
    spliceContent a apk P cd = .ok c ↔ c = spliced apk P cd ∧
      (a = .lost → P.cd.mappedLen = 0) ∧ (a ≠ .apart → P.sections.entriesEnd = 0) := by
  rw [spliceContent, bind_eq_ok]
  constructor
  · rintro ⟨u, -, h⟩
    rw [bind_eq_ok] at h
    obtain ⟨u, hcd, h⟩ := h
    split at h
    · cases h
    · rename_i hn
      exact ⟨(Except.ok.inj h).symm, Access.look_eq_ok.mp hcd,
        fun ha => not_not.mp fun h0 => hn ⟨ha, h0⟩⟩
  · rintro ⟨rfl, hcd, hend⟩
    refine ⟨(), Access.look_eq_ok.mpr fun ha => hend (by rw [ha]; decide), ?_⟩
    rw [Access.look_eq_ok.mpr hcd, ok_bind, if_neg fun hn => hn.2 (hend hn.1)]

theorem contentSpec_eq_ok_iff : contentSpec R opts alg k apk P cd = .ok c ↔
    (needsRewrite opts apk P cd = .ok true ∧ rewriteContent R opts alg k apk P = .ok c) ∨
      (needsRewrite opts apk P cd = .ok false ∧ spliceContent k.access apk P cd = .ok c) := by
  rw [contentSpec, bind_eq_ok]
  constructor
  · rintro ⟨b, hb, h⟩
    cases b with
    | true => exact Or.inl ⟨hb, h⟩
    | false => exact Or.inr ⟨hb, h⟩
  · rintro (⟨hb, h⟩ | ⟨hb, h⟩)
    · exact ⟨true, hb, h⟩
    · exact ⟨false, hb, h⟩

theorem signSpec_eq_ok_iff : signSpec R opts key k apk = .ok F ↔
    ∃ signer P cd c, key = some signer ∧ parseInput apk = .ok (P, cd) ∧ apk.length < 2 ^ 64 ∧
      contentSpec R opts signer.contentDigest k apk P cd = .ok c ∧
      sealContent R opts signer k.seeds P.sections.eocd c = .ok F := by
  rw [signSpec]
  constructor
  · intro h
    split at h
    · cases h
    · rename_i hlen
      rw [bind_eq_ok] at h
      obtain ⟨signer, hkey, h⟩ := h
      rw [bind_eq_ok] at h
      obtain ⟨⟨P, cd⟩, hparse, h⟩ := h
      rw [bind_eq_ok] at h
      obtain ⟨c, hc, h⟩ := h
      cases key with
      | none => cases hkey
      | some s =>
        obtain rfl := Except.ok.inj hkey
        exact ⟨s, P, cd, c, rfl, hparse, by omega, hc, h⟩
  · rintro ⟨signer, P, cd, c, rfl, hparse, hlen, hc, h⟩
    rw [if_neg (by omega), Option.elim_some, ok_bind, hparse, ok_bind]
    simp only
    rw [hc, ok_bind, h]

theorem length_cd_of_contentSpec (h : IsParsed apk P cd)
    (hc : contentSpec R opts alg k apk P cd = .ok c) : c.cd.length < 2 ^ 32 := by
  have hsize := h.bounds.cdSize_lt
  have hlen := h.length_cd_le
  rcases contentSpec_eq_ok_iff.mp hc with ⟨-, hc⟩ | ⟨-, hc⟩
  · obtain ⟨-, all, policies, rw_, rs, ps, -, hcd, -, hre⟩ := rebuilt_of_rewriteContent h hc
    obtain ⟨hkept, -⟩ := Rebuilt.kept h rfl hre
    rw [hcd, Rebuilt.length_newCd hre, ← hkept]
    omega
  · obtain ⟨rfl, -, -⟩ := spliceContent_eq_ok_iff.mp hc
    exact Nat.lt_of_le_of_lt hlen hsize

/-- **The result is a signed APK.** -/
theorem signed_of_signSpec (h : signSpec R opts key k apk = .ok F) :
    ∃ signer C B D E, key = some signer ∧ Signed R opts signer F C B D E := by
  obtain ⟨signer, P, cd, c, hkey, hparse, hlen, hc, hseal⟩ := signSpec_eq_ok_iff.mp h
  have hp := isParsed_of_parseInput hlen hparse
  obtain ⟨B, -, -, hB⟩ :=
    signed_of_sealContent hp.bounds.isEocd (length_cd_of_contentSpec hp hc) hseal
  exact ⟨signer, _, B, _, _, hkey, hB⟩

end Signed

end FastSigner.Sign

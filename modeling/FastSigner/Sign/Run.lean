import FastSigner.Sign.Moments

/-!
# Runs

What `does_signOne`, `calls_signOne`, `along_signOne` and `commits_signOne` say of a run of
`signOne`, along any sequence of chances.

* `signOne_refines`: a run that returns `Ok` leaves what `signSpec` says, and one that
  returns an error although nothing failed had nothing to leave.
* `signOne_signed`: what it leaves is a signed APK.
* `signOne_agree`: the result does not depend on when the key is loaded, on threads and
  schedules, on the early check, or on where it is written to.
* `signOne_atomic` and `signOne_error`: with an output, the destination holds at every
  moment what it held before, or the whole signed APK; and an error leaves it as it was.
* `signOne_commits`: so does the error of a commit, unless the names were swapped and the old
  content could not be unlinked, as in `signOne_commits_unlinked`.
* `signOne_spares`: no other file is ever changed.
-/

namespace FastSigner.Sign

open Lib Zip Digest Align SigBlock Script

section Chances

variable (R : Crypto) (J : Job) (w : World) (env : Nat → Chance)

def Among (c : Chance) : Prop := ∃ i, c = env i

theorem among (i : Nat) : Among env (env i) := ⟨i, rfl⟩

theorem quiet_among (hcalm : ∀ i, (env i).Calm) : Quiet (Among env) := by
  rintro c ⟨i, rfl⟩
  exact hcalm i

variable {R J w env}

theorem finished_of_run {u : Unit} (h : (run (exec R) (signOne R J) env w).1 = .ok u) :
    Finished R (Among env) J (w.content J.input) (run (exec R) (signOne R J) env w).2 := by
  rcases run_of_does (does_signOne R (Among env) J w) (among env) with ⟨u, -, hfin⟩ | ⟨⟨e, he⟩, -⟩
  · exact hfin
  · rw [he] at h
    cases h

/-- What a run that succeeds leaves is the whole file. -/
theorem Finished.file {Q : Chance → Prop} {apk : Bytes} (h : Finished R Q J apk w) :
    ∃ k F, Fate Q J k ∧ signSpec R J.opts J.key k apk = .ok F ∧ w.files J.dest = some F := by
  obtain ⟨k, hk, hspec⟩ := h.content
  obtain ⟨signer, P, cd, c, -, hparse, hlen, -, hseal⟩ := signSpec_eq_ok_iff.mp hspec
  have hp := isParsed_of_parseInput hlen hparse
  exact ⟨k, _, hk, hspec, some_of_content_ne (ne_nil_of_sealContent hp.bounds.isEocd hseal)⟩

theorem fails_of_run {e : Error} (h : (run (exec R) (signOne R J) env w).1 = .error e)
    (hcalm : ∀ i, (env i).Calm) (hfound : w.files J.input ≠ none) :
    Fails R (Among env) J (w.content J.input) := by
  rcases run_of_does (does_signOne R (Among env) J w) (among env) with ⟨u, hu, -⟩ | ⟨-, hbad⟩
  · rw [hu] at h
    cases h
  · exact hbad (quiet_among env hcalm) hfound

/-- What is left of the input of a job if nothing fails. -/
def Job.calmAccess (J : Job) : Access := if tempPath J.dest ≠ J.input then .apart else .lost

theorem fate_quiet {Q : Chance → Prop} {J : Job} {k : Luck} (h : Fate Q J k) (hQ : Quiet Q) :
    k = ⟨J.calmAccess, fun _ _ => none, k.seeds⟩ := by
  obtain ⟨a, reads, seeds⟩ := k
  obtain ⟨hreads, hcopied⟩ := h.quiet hQ
  obtain rfl : reads = fun _ _ => none := hreads
  obtain rfl : a = J.calmAccess := by
    have haccess := h.access
    rw [Job.calmAccess]
    split
    · rename_i hne
      exact haccess.mpr hne
    · rename_i heq
      cases a with
      | apart => exact absurd (haccess.mp rfl) heq
      | copied => exact absurd rfl hcopied
      | lost => rfl
  rfl

theorem calmAccess_apart {J : Job} (hne : tempPath J.dest ≠ J.input) : J.calmAccess = .apart :=
  if_pos hne

theorem fate_apart {Q : Chance → Prop} {J : Job} {k : Luck} (h : Fate Q J k) (hQ : Quiet Q)
    (hne : tempPath J.dest ≠ J.input) : k = ⟨.apart, fun _ _ => none, k.seeds⟩ := by
  have hk := fate_quiet h hQ
  rwa [calmAccess_apart hne] at hk

theorem ok_of_calmAccess (hcalm : ∀ i, (env i).Calm) (hfound : w.files J.input ≠ none)
    (h : ∀ seeds, ∃ F, signSpec R J.opts J.key ⟨J.calmAccess, fun _ _ => none, seeds⟩
      (w.content J.input) = .ok F) : (run (exec R) (signOne R J) env w).1 = .ok () := by
  cases hrun : (run (exec R) (signOne R J) env w).1 with
  | ok u => rfl
  | error e =>
    obtain ⟨k, hk, hno⟩ := fails_of_run hrun hcalm hfound
    rw [fate_quiet hk (quiet_among env hcalm)] at hno
    obtain ⟨F, hF⟩ := h k.seeds
    exact absurd hF (hno F)

theorem ok_of_signSpec (hcalm : ∀ i, (env i).Calm) (hfound : w.files J.input ≠ none)
    (hne : tempPath J.dest ≠ J.input)
    (h : ∀ seeds, ∃ F, signSpec R J.opts J.key ⟨.apart, fun _ _ => none, seeds⟩ (w.content J.input)
      = .ok F) : (run (exec R) (signOne R J) env w).1 = .ok () :=
  ok_of_calmAccess hcalm hfound (by rwa [calmAccess_apart hne])

theorem found_of_ok (h : (run (exec R) (signOne R J) env w).1 = .ok ()) :
    w.files J.input ≠ none := by
  intro hnone
  obtain ⟨k, -, hspec⟩ := (finished_of_run h).content
  obtain ⟨_, P, cd, _, -, hparse, hlen, -⟩ := signSpec_eq_ok_iff.mp hspec
  have hle := (isParsed_of_parseInput hlen hparse).bounds.eocd_le
  rw [World.content, hnone, Option.getD_none, List.length_nil] at hle
  omega

end Chances

/-! ### Signing an archive with something of everything -/

/-- Nothing fails, and everything is read as zero. -/
def calmChance : Chance where
  fail := none
  done := 0
  loaded := true
  sched := fun k => (k, ())
  shuffle := id
  shuffle_perm := fun _ => List.Perm.refl _
  reads := fun _ _ => none
  rewrite := ⟨fun k => (k, Faults.none), none⟩
  seed := fun _ => 0

theorem calm_calmChance : calmChance.Calm := ⟨rfl, rfl, fun _ => rfl, rfl⟩

/-- The operation fails, a write after 100 bytes. -/
def failingChance : Chance := { calmChance with fail := some (.other 28), done := 100 }

/-- From the tenth operation on everything fails. -/
def failingLate (i : Nat) : Chance := if i < 9 then calmChance else failingChance

/-- A signer whose certificate, public key and signatures are a few bytes long. -/
def exampleSigner : Signer where
  algId := 0x0103
  contentDigest := .sha256
  certs := [[0x30, 0]]
  spki := [0x30, 0]
  sign := fun _ _ => .ok [1, 2, 3]

/-- Signs an APK into another file. -/
def exampleJob : Job where
  input := [.normal (ascii "in.apk")]
  output := some [.normal (ascii "out.apk")]
  opts := ⟨true, false, .check, 16384⟩
  key := some exampleSigner
  threads := 4
  sample := some 16

def exampleWorld : World where
  files := fun p => if p = exampleJob.input then some mixedApk else none
  copy := none

def mixedKept : List Bytes := [exampleRecord 0 0 1 86 (ascii "a"), exampleRecord 8 8 2 3 (ascii "b")]

def mixedParsed : Parsed where
  sections := mixedSections
  filtered := ⟨.owned mixedKept.flatten, entriesFrom 0 mixedKept, ["d/", "pinlist.meta"]⟩
  cd := .owned mixedKept.flatten

set_option maxRecDepth 8000 in
theorem cdFull_mixedParsed : mixedParsed.cdFull mixedApk = mixedRecords.flatten := by decide

set_option maxRecDepth 8000 in
theorem filterCd_mixedRecords : filterCd mixedRecords.flatten = .ok mixedParsed.filtered := by decide

theorem parseInput_mixedApk : parseInput mixedApk = .ok (mixedParsed, mixedKept.flatten) := by
  rw [parseInput, parse_mixedApk, ok_bind]
  change (filterCd (mixedParsed.cdFull mixedApk) >>= _) = _
  rw [cdFull_mixedParsed, filterCd_mixedRecords, ok_bind]
  rfl

theorem length_exampleBlock {digest : Bytes} (h : digest.length = 32) :
    (apkSigningBlock [(v2BlockId, schemeBlock [seqLp
      [v2SignedData ⟨0x0103, digest, [[0x30, 0]], [0x30, 0]⟩ false, seqLpPairs [(0x0103, [1, 2, 3])],
        [0x30, 0]]])]).length ≤ 8192 := by
  have hlt := signingBlockSize_lt [(v2BlockId, schemeBlock [seqLp
      [v2SignedData ⟨0x0103, digest, [[0x30, 0]], [0x30, 0]⟩ false, seqLpPairs [(0x0103, [1, 2, 3])],
        [0x30, 0]]])]
  have hpage : pageAlignment = 4096 := rfl
  simp [unpaddedSize, schemeBlock, v2SignedData, v2AdditionalAttributes, seqLp, seqLpPairs, putLp,
    putU32, h] at hlt
  rw [length_apkSigningBlock]
  simp [schemeBlock, v2SignedData, v2AdditionalAttributes, seqLp, seqLpPairs, putLp,
    putU32, h]
  omega

set_option maxRecDepth 8000 in
theorem needsRewrite_mixedApk :
    needsRewrite exampleJob.opts mixedApk mixedParsed mixedKept.flatten = .ok true := by decide

set_option maxRecDepth 8000 in
theorem classify_mixedRecords : classify mixedRecords.flatten
    = .ok (entriesFrom 0 mixedRecords, [.output, .skip, .output, .gap]) := by decide

set_option maxRecDepth 8000 in
theorem planAll_mixedApk : planAll (archiveOf exampleJob.opts ⟨.apart, fun _ _ => none, (0, 0)⟩ mixedApk
      mixedSections mixedRecords.flatten (entriesFrom 0 mixedRecords) [.output, .skip, .output, .gap])
    = .ok (mixedPlans, 2) := by decide

set_option maxRecDepth 8000 in
theorem output_mixedApk : Align.output mixedApk mixedPlans = mixedOutput := by decide

theorem rewriteContent_mixedApk (R : Crypto) (seeds : Nat × Nat) :
    rewriteContent R exampleJob.opts .sha256 ⟨.apart, fun _ _ => none, seeds⟩ mixedApk mixedParsed
      = .ok ⟨mixedOutput, mixedOutputRecords.flatten, 2⟩ := by
  rw [rewriteContent]
  simp only
  rw [show Access.look .apart _ = .ok () from rfl, ok_bind, cdFull_mixedParsed,
    classify_mixedRecords, ok_bind]
  -- the random numbers are none of the archive's business
  change ((rewriteSpec R .sha256 mixedApk (archiveOf exampleJob.opts
    ⟨.apart, fun _ _ => none, (0, 0)⟩ mixedApk mixedSections mixedRecords.flatten
    (entriesFrom 0 mixedRecords) [.output, .skip, .output, .gap])) >>= _) = _
  rw [rewriteSpec, planAll_mixedApk, ok_bind]
  change Except.ok (⟨Align.output mixedApk mixedPlans, _, _⟩ : Content) = _
  rw [output_mixedApk]
  have hcd := newCd_mixedPlans
  exact congrArg (fun x => Except.ok (⟨mixedOutput, x.1, x.2⟩ : Content)) hcd

def mixedContent : Content := ⟨mixedOutput, mixedOutputRecords.flatten, 2⟩

theorem contentSpec_mixedApk (R : Crypto) (seeds : Nat × Nat) :
    contentSpec R exampleJob.opts .sha256 ⟨.apart, fun _ _ => none, seeds⟩ mixedApk mixedParsed
      mixedKept.flatten = .ok mixedContent :=
  contentSpec_eq_ok_iff.mpr (Or.inl ⟨needsRewrite_mixedApk, rewriteContent_mixedApk R seeds⟩)

theorem signSpec_mixedApk (R : Crypto) (seeds : Nat × Nat) :
    ∃ F, signSpec R exampleJob.opts exampleJob.key ⟨.apart, fun _ _ => none, seeds⟩ mixedApk
      = .ok F := by
  have hlen : mixedApk.length < 2 ^ 64 := by
    rw [length_mixedApk]
    decide
  have hpad : (Align.padded mixedOutput).length = 4096 := by
    rw [Align.length_padded, length_mixedOutput]
    decide
  refine ⟨_, signSpec_eq_ok_iff.mpr ⟨exampleSigner, _, _, _, rfl, parseInput_mixedApk, hlen,
    contentSpec_mixedApk R seeds, sealContent_eq_ok_iff.mpr ⟨_, rfl, ?_, rfl⟩⟩⟩
  have hdigest : (mixedContent.digest R .sha256 mixedEocd).length = 32 := R.length_digest _ _
  have := length_exampleBlock hdigest
  exact Nat.le_trans (Nat.add_le_add (Nat.le_of_eq hpad) this) (by decide)

theorem run_exampleJob (R : Crypto) :
    (run (exec R) (signOne R exampleJob) (fun _ => calmChance) exampleWorld).1 = .ok () :=
  ok_of_signSpec (fun _ => calm_calmChance) (by decide) (by decide) (signSpec_mixedApk R)

/-! ### Runs -/

section Runs

variable (R : Crypto) (J : Job) (w : World) (env : Nat → Chance)

/-- **A run of `signOne` computes `signSpec`.**  If it returns `Ok`, the destination holds what
`signSpec` says, whatever failed and however the threads were scheduled, and with an output there
is no temporary file any more.  If it returns an error although no operation failed, `signSpec` is
an error. -/
theorem signOne_refines :
    (∀ u, (run (exec R) (signOne R J) env w).1 = .ok u →
      (∃ k, Fate (Among env) J k ∧ signSpec R J.opts J.key k (w.content J.input)
        = .ok ((run (exec R) (signOne R J) env w).2.content J.dest)) ∧
      (J.output.isSome →
        (run (exec R) (signOne R J) env w).2.files (tempPath J.dest) = none)) ∧
    (∀ e, (run (exec R) (signOne R J) env w).1 = .error e → (∀ i, (env i).Calm) →
      w.files J.input ≠ none → ∃ k, Fate (Among env) J k ∧
        ∀ F, signSpec R J.opts J.key k (w.content J.input) ≠ .ok F) :=
  ⟨fun _ hok => ⟨(finished_of_run hok).content, (finished_of_run hok).gone⟩,
    fun _ herr hcalm hfound => fails_of_run herr hcalm hfound⟩

/-- **What a run leaves is a signed APK**, on all ways alike: four parts, the block where the record
says, and in it the digests of the others for every scheme that is enabled. -/
theorem signOne_signed (h : (run (exec R) (signOne R J) env w).1 = .ok ()) :
    ∃ signer C B D E, J.key = some signer ∧ Signed R J.opts signer
      ((run (exec R) (signOne R J) env w).2.content J.dest) C B D E := by
  obtain ⟨k, -, hspec⟩ := (finished_of_run h).content
  exact signed_of_signSpec hspec

theorem signOne_signed_mixed : ∃ signer C B D E, exampleJob.key = some signer ∧
    Signed sha256Crypto exampleJob.opts signer ((run (exec sha256Crypto)
      (signOne sha256Crypto exampleJob) (fun _ => calmChance) exampleWorld).2.content exampleJob.dest)
      C B D E :=
  signOne_signed sha256Crypto exampleJob exampleWorld _ (run_exampleJob sha256Crypto)

/-! ### Runs that agree -/

theorem signSpec_congr {R : Crypto} {opts : Opts} {key : Option Signer} {k k' : Luck}
    (haccess : k.access = k'.access) (hreads : k.reads = k'.reads)
    (hsign : ∀ s, key = some s →
      s.sign k.seeds.1 = s.sign k'.seeds.1 ∧ s.sign k.seeds.2 = s.sign k'.seeds.2) (apk : Bytes) :
    signSpec R opts key k apk = signSpec R opts key k' apk := by
  obtain ⟨a, reads, seeds⟩ := k
  obtain ⟨a', reads', seeds'⟩ := k'
  obtain rfl : a = a' := haccess
  obtain rfl : reads = reads' := hreads
  cases key with
  | none => rfl
  | some s =>
    obtain ⟨h2, h3⟩ := hsign s rfl
    have hblock : ∀ digest, signBlock opts s seeds digest = signBlock opts s seeds' digest := by
      intro digest
      simp only at h2 h3
      rw [signBlock, signBlock, h2, h3]
    simp only [signSpec, sealContent, Option.elim_some, ok_bind, hblock]
    rfl

/-- Two jobs that are to sign the same bytes in the same way, and that both create their temporary
file over the input, or both do not. -/
structure Matched (J J' : Job) (w w' : World) : Prop where
  opts : J'.opts = J.opts
  key : J'.key = J.key
  file : w'.files J'.input = w.files J.input
  access : J'.calmAccess = J.calmAccess

/-- Two jobs that are to sign the same bytes in the same way, each somewhere that is not the
input. -/
structure Alike (J J' : Job) (w w' : World) : Prop where
  opts : J'.opts = J.opts
  key : J'.key = J.key
  file : w'.files J'.input = w.files J.input
  found : w.files J.input ≠ none
  apart : tempPath J.dest ≠ J.input
  apart' : tempPath J'.dest ≠ J'.input

/-- The signer makes the same signatures in both sequences: it needs no random numbers, or gets the
same ones. -/
def SameSignatures (key : Option Signer) (env env' : Nat → Chance) : Prop :=
  ∀ s, key = some s → ∀ i j v, s.sign ((env i).seed v) = s.sign ((env' j).seed v)

section Agreement

variable {R J w env} {J' : Job} {w' : World} {env' : Nat → Chance}

theorem signSpec_matched (hcalm : ∀ i, (env i).Calm) (hcalm' : ∀ i, (env' i).Calm)
    (hm : Matched J J' w w') (hsign : SameSignatures J.key env env') {k k' : Luck}
    (hk : Fate (Among env) J k) (hk' : Fate (Among env') J' k') :
    signSpec R J'.opts J'.key k' (w'.content J'.input)
      = signSpec R J.opts J.key k (w.content J.input) := by
  have hcontent : w'.content J'.input = w.content J.input := by
    rw [World.content, hm.file, World.content]
  rw [hm.opts, hm.key, hcontent, fate_quiet hk (quiet_among _ hcalm),
    fate_quiet hk' (quiet_among _ hcalm')]
  refine signSpec_congr hm.access ?_ (fun s hs => ?_) _
  · rfl
  · obtain ⟨_, _, ⟨i2, rfl⟩, ⟨i3, rfl⟩, hseeds⟩ := hk.seeds
    obtain ⟨_, _, ⟨j2, rfl⟩, ⟨j3, rfl⟩, hseeds'⟩ := hk'.seeds
    simp only [hseeds, hseeds']
    exact ⟨(hsign s hs i2 j2 2).symm, (hsign s hs i3 j3 3).symm⟩

theorem ok_of_ok (hcalm : ∀ i, (env i).Calm) (hcalm' : ∀ i, (env' i).Calm)
    (hm : Matched J J' w w') (hsign : SameSignatures J.key env env')
    (hok : (run (exec R) (signOne R J) env w).1 = .ok ()) :
    (run (exec R) (signOne R J') env' w').1 = .ok () ∧
      (run (exec R) (signOne R J') env' w').2.content J'.dest
        = (run (exec R) (signOne R J) env w).2.content J.dest := by
  obtain ⟨k, hk, hspec⟩ := (finished_of_run hok).content
  cases hrun : (run (exec R) (signOne R J') env' w').1 with
  | error e =>
    have hfound : w'.files J'.input ≠ none := hm.file ▸ found_of_ok hok
    obtain ⟨k', hk', hno⟩ := fails_of_run hrun hcalm' hfound
    rw [signSpec_matched hcalm hcalm' hm hsign hk hk'] at hno
    exact absurd hspec (hno _)
  | ok u =>
    obtain ⟨k', hk', hspec'⟩ := (finished_of_run hrun).content
    rw [signSpec_matched hcalm hcalm' hm hsign hk hk', hspec] at hspec'
    exact ⟨rfl, (Except.ok.inj hspec').symm⟩

theorem Matched.symm (h : Matched J J' w w') : Matched J' J w' w :=
  ⟨h.opts.symm, h.key.symm, h.file.symm, h.access.symm⟩

theorem Alike.matched (h : Alike J J' w w') : Matched J J' w w' :=
  ⟨h.opts, h.key, h.file, by rw [calmAccess_apart h.apart, calmAccess_apart h.apart']⟩

theorem SameSignatures.symm {key : Option Signer} (h : SameSignatures key env env') :
    SameSignatures key env' env := fun s hs i j v => (h s hs j i v).symm

theorem agree_of_matched (hcalm : ∀ i, (env i).Calm) (hcalm' : ∀ i, (env' i).Calm)
    (hm : Matched J J' w w') (hsign : SameSignatures J.key env env') :
    ((run (exec R) (signOne R J) env w).1 = .ok () ↔
      (run (exec R) (signOne R J') env' w').1 = .ok ()) ∧
    ((run (exec R) (signOne R J) env w).1 = .ok () →
      (run (exec R) (signOne R J') env' w').2.content J'.dest
        = (run (exec R) (signOne R J) env w).2.content J.dest) := by
  refine ⟨⟨fun hok => (ok_of_ok hcalm hcalm' hm hsign hok).1, fun hok => ?_⟩,
    fun hok => (ok_of_ok hcalm hcalm' hm hsign hok).2⟩
  exact (ok_of_ok hcalm' hcalm hm.symm (hm.key ▸ hsign.symm) hok).1

/-- **The result of signing is a function of the APK, the options and the key.**  In place or to any
output, with any number of threads and any schedule, with or without the early check, and whenever
the key is loaded: as long as nothing fails, two jobs both succeed or both fail, and what they leave
is the same. -/
theorem signOne_agree (hcalm : ∀ i, (env i).Calm) (hcalm' : ∀ i, (env' i).Calm)
    (halike : Alike J J' w w') (hsign : SameSignatures J.key env env') :
    ((run (exec R) (signOne R J) env w).1 = .ok () ↔
      (run (exec R) (signOne R J') env' w').1 = .ok ()) ∧
    ((run (exec R) (signOne R J) env w).1 = .ok () →
      (run (exec R) (signOne R J') env' w').2.content J'.dest
        = (run (exec R) (signOne R J) env w).2.content J.dest) :=
  agree_of_matched hcalm hcalm' halike.matched hsign

end Agreement

/-- Signing in place, with one thread and without the early check. -/
def exampleInPlace : Job := { exampleJob with output := none, threads := 1, sample := none }

/-- Nothing fails, but the key is never loaded when somebody looks. -/
def lateChance : Chance := { calmChance with loaded := false }

theorem signOne_agree_inPlace :
    (run (exec sha256Crypto) (signOne sha256Crypto exampleInPlace) (fun _ => lateChance) exampleWorld).1
      = .ok () ∧
    (run (exec sha256Crypto) (signOne sha256Crypto exampleInPlace) (fun _ => lateChance)
        exampleWorld).2.content exampleJob.input
      = (run (exec sha256Crypto) (signOne sha256Crypto exampleJob) (fun _ => calmChance)
        exampleWorld).2.content exampleJob.dest := by
  generalize sha256Crypto = R
  have hagree := @signOne_agree R exampleJob exampleWorld (fun _ => calmChance) exampleInPlace exampleWorld
    (fun _ => lateChance) (fun _ => calm_calmChance) (fun _ => ⟨rfl, rfl, fun _ => rfl, rfl⟩)
    ⟨rfl, rfl, rfl, by decide, by decide, by decide⟩ fun _ _ _ _ _ => rfl
  exact ⟨hagree.1.mp (run_exampleJob R), hagree.2 (run_exampleJob R)⟩

/-! ### Whatever fails -/

/-- **With an output, at every moment of every run, whatever fails, the destination holds what it
held before or the whole signed APK.** -/
theorem signOne_atomic {out : Path} (hout : J.output = some out) :
    ∀ s ∈ states (exec R) (signOne R J) env w, s.files out = w.files out ∨
      ∃ k F, Fate (Among env) J k ∧ signSpec R J.opts J.key k (w.content J.input) = .ok F ∧
        s.files out = some F := by
  intro s hs
  obtain rfl : out = J.dest := by rw [Job.dest, hout]; rfl
  rcases forall_states_of_along (along_signOne hout rfl) (among env) s hs with h | ⟨F, ⟨k, hk⟩, h⟩
  · exact Or.inl h
  · exact Or.inr ⟨k, F, hk.1, hk.2, h⟩

theorem signOne_atomic_failing : exampleWorld.files exampleJob.dest = none ∧
    ∀ s ∈ states (exec sha256Crypto) (signOne sha256Crypto exampleJob) failingLate exampleWorld,
      s.files exampleJob.dest = none ∨
        ∃ k F, Fate (Among failingLate) exampleJob k ∧
          signSpec sha256Crypto exampleJob.opts exampleJob.key k mixedApk = .ok F ∧
          s.files exampleJob.dest = some F := by
  generalize sha256Crypto = R
  exact ⟨by decide, signOne_atomic R exampleJob exampleWorld failingLate rfl⟩

theorem not_within_exchange {V : List Path} {dest : Path} :
    ¬ Op.Within V [tempPath dest] (.file (.exchange (tempPath dest) dest)) := fun h =>
  tempPath_ne dest (List.mem_singleton.mp (h.writes dest (by simp [Op.writes, FileOp.writes]))).symm

/-- An error leaves the destination as it was, or the old content could not be unlinked. -/
theorem error_of_signOne {out : Path} (hout : J.output = some out) {e : Error}
    (h : (run (exec R) (signOne R J) env w).1 = .error e) :
    (run (exec R) (signOne R J) env w).2.files out = w.files out ∨ ((∃ io, e = .replace io) ∧
      UnlinkFails (tempPath out) out (history (exec R) (signOne R J) env w)) := by
  obtain rfl : out = J.dest := by rw [Job.dest, hout]; rfl
  rcases run_of_leadsTo (commits_signOne (R := R) (w := w) hout) env with
    ⟨hsame, -⟩ | ⟨n, s, pre, hs, -, hrest⟩
  · exact Or.inl hsame
  · obtain ⟨hrun, hhist⟩ := hrest env fun _ _ => rfl
    rw [hrun] at h ⊢
    obtain ⟨hreplace, ⟨pre', post, io, hunlink⟩ | hsame⟩ := error_of_commit (tempPath_ne J.dest) h
    · refine Or.inr ⟨hreplace, pre ++ pre', post, io, ?_⟩
      rw [hhist, hunlink, List.append_assoc]
    · exact Or.inl (hsame.trans hs)

theorem not_unlinkFails_of_ok {out : Path} (hout : J.output = some out)
    (h : (run (exec R) (signOne R J) env w).1 = .ok ()) :
    ¬ UnlinkFails (tempPath out) out (history (exec R) (signOne R J) env w) := by
  obtain rfl : out = J.dest := by rw [Job.dest, hout]; rfl
  rintro ⟨before, post, e, hfails⟩
  have hswap : ∀ {l : List (Sigma Op.Res)}, (∀ x ∈ l, Op.Within J.looksAt [tempPath J.dest] x.1) →
      ⟨.file (.exchange (tempPath J.dest) J.dest), Except.ok ()⟩ ∉ l := fun hl hmem =>
    not_within_exchange (hl _ hmem)
  rcases run_of_leadsTo (commits_signOne (R := R) (w := w) hout) env with
    ⟨-, hS⟩ | ⟨n, s, pre, -, hpre, hrest⟩
  · exact hswap hS (hfails ▸ by simp)
  · obtain ⟨hrun, hhist⟩ := hrest env fun _ _ => rfl
    rw [hrun] at h
    rw [hhist] at hfails
    rcases List.append_eq_append_iff.mp hfails with ⟨x, rfl, hx⟩ | ⟨x, rfl, hx⟩
    · exact not_unlinkFails_of_commit h ⟨x, post, e, hx⟩
    · cases x with
      | nil => exact not_unlinkFails_of_commit h ⟨[], post, e, hx.symm⟩
      | cons y x =>
        obtain ⟨rfl, -⟩ := List.cons.inj hx
        exact hswap hpre (by simp)

/-- **With an output, an error leaves the destination as it was**, whatever fails: unless it is the
replacement that failed, and then it is as it was or holds the whole signed APK. -/
theorem signOne_error {out : Path} (hout : J.output = some out) {e : Error}
    (h : (run (exec R) (signOne R J) env w).1 = .error e) :
    (run (exec R) (signOne R J) env w).2.files out = w.files out ∨
      ((∃ io, e = .replace io) ∧ ∃ k F, Fate (Among env) J k ∧
        signSpec R J.opts J.key k (w.content J.input) = .ok F ∧
        (run (exec R) (signOne R J) env w).2.files out = some F) := by
  rcases error_of_signOne R J w env hout h with hsame | ⟨hreplace, -⟩
  · exact Or.inl hsame
  · obtain rfl : out = J.dest := by rw [Job.dest, hout]; rfl
    rcases forall_states_of_along (along_signOne hout rfl) (among env) _ (last_mem_states _ _ _) with
      hsame | ⟨F, ⟨k, hk⟩, hF⟩
    · exact Or.inl hsame
    · exact Or.inr ⟨hreplace, k, F, hk.1, hk.2, hF⟩

def keylessJob : Job := { exampleJob with key := none }

/-- Without a key there is an error, and no output. -/
theorem signOne_error_keyless :
    ∃ e, (run (exec sha256Crypto) (signOne sha256Crypto keylessJob) (fun _ => calmChance)
        exampleWorld).1 = .error e ∧
      (run (exec sha256Crypto) (signOne sha256Crypto keylessJob) (fun _ => calmChance)
        exampleWorld).2.files exampleJob.dest = none := by
  generalize sha256Crypto = R
  have hnone : ∀ {k : Luck} {apk F : Bytes}, signSpec R keylessJob.opts keylessJob.key k apk
      ≠ .ok F := by
    intro k apk F h
    obtain ⟨_, _, _, _, hkey, -⟩ := signSpec_eq_ok_iff.mp h
    cases hkey
  cases hrun : (run (exec R) (signOne R keylessJob) (fun _ => calmChance) exampleWorld).1 with
  | ok u =>
    obtain ⟨k, -, hspec⟩ := (finished_of_run hrun).content
    exact absurd hspec hnone
  | error e =>
    have hout : keylessJob.output = some exampleJob.dest := rfl
    have hbefore : exampleWorld.files exampleJob.dest = none := by decide
    refine ⟨e, rfl, ?_⟩
    rcases signOne_error R keylessJob exampleWorld (fun _ => calmChance) hout hrun
      with h | ⟨-, k, F, -, hspec, -⟩
    · rw [h, hbefore]
    · exact absurd hspec hnone

theorem spares_of_signOne {p : Path} (hdest : p ≠ J.dest) (htemp : p ≠ tempPath J.dest) :
    ∀ s ∈ states (exec R) (signOne R J) env w, s.files p = w.files p := by
  have hkeep : ∀ o, o.Within J.looksAt J.changes → ∀ c (s : World), True →
      s.files p = w.files p → (exec R o c s).2.files p = w.files p := by
    intro o ho c s _ hs
    rw [exec_spares fun hp => ?_]
    · exact hs
    · rcases List.mem_cons.mp (ho.writes p hp) with h | h
      · exact hdest h
      · exact htemp (List.mem_singleton.mp h)
  exact forall_states_of_along (along_of_calls hkeep (calls_signOne R J) rfl) fun _ => trivial

/-- **At every moment of every run, whatever fails, nothing but the destination and the temporary
file next to it has changed.** -/
theorem signOne_spares {p : Path} (hdest : p ≠ J.dest) (htemp : p ≠ tempPath J.dest) :
    ∀ s ∈ states (exec R) (signOne R J) env w, s.files p = w.files p :=
  spares_of_signOne R J w env hdest htemp

theorem signOne_spares_failing : exampleWorld.files exampleJob.input = some mixedApk ∧
    ∀ s ∈ states (exec sha256Crypto) (signOne sha256Crypto exampleJob) failingLate exampleWorld,
      s.files exampleJob.input = some mixedApk :=
  ⟨rfl, signOne_spares sha256Crypto exampleJob exampleWorld failingLate (by decide) (by decide)⟩

def overWorld : World where
  files := fun p =>
    if p = exampleJob.input then some mixedApk
    else if p = exampleJob.dest then some [7] else none
  copy := none

theorem run_overWorld (R : Crypto) :
    (run (exec R) (signOne R exampleJob) (fun _ => calmChance) overWorld).1 = .ok () :=
  ok_of_signSpec (fun _ => calm_calmChance) (by decide) (by decide) (signSpec_mixedApk R)

theorem run_commit_none {R : Crypto} {temp dest : Path} {env : Nat → Chance} {w : World}
    (h : w.files temp = none) : (run (exec R) (commit temp dest) env w).1 ≠ .ok () := by
  have hwp : wp (exec R) (fun _ => True) (commit temp dest) (fun r _ => r ≠ .ok ()) w := by
    refine wp_onError.mpr (wp_bind.mpr fun c _ => ?_)
    have hexch : ∃ e, exec R (.file (.exchange temp dest)) c w = (.error e, w) := by
      simp only [exec, execFile, mayFail, h]
      cases c.fail with
      | none => exact ⟨_, rfl⟩
      | some e => exact ⟨e, rfl⟩
    obtain ⟨e, he⟩ := hexch
    rw [he]
    refine fun c' _ => ?_
    have hren : ∃ e, exec R (.file (.rename temp dest)) c' w = (.error e, w) := by
      simp only [exec, execFile, mayFail, h]
      cases c'.fail with
      | none => exact ⟨_, rfl⟩
      | some e => exact ⟨e, rfl⟩
    obtain ⟨e', he'⟩ := hren
    rw [he']
    exact fun _ _ hok => by cases hok
  exact run_of_wp hwp fun _ => trivial

theorem run_commit_stuck {R : Crypto} {temp dest : Path} {env : Nat → Chance} {w : World} {x y : Bytes}
    {e e' : IoError} (hx : w.files temp = some x) (hy : w.files dest = some y)
    (h0 : (env 0).fail = none) (h1 : (env 1).fail = some e) (h2 : (env 2).fail = some e') :
    run (exec R) (commit temp dest) env w
      = (.error (.replace e), (w.set temp (some y)).set dest (some x)) := by
  simp [commit, removeOnError, replaceFile, tryFile, fileOp, Bind.bind, Script.bind, Script.onError,
    run, exec, execFile, mayFail, h0, h1, h2, hx, hy, Except.mapError]
theorem run_commit_swapped {R : Crypto} {temp dest : Path} {env : Nat → Chance} {w : World} {x y : Bytes}
    (hne : temp ≠ dest) (hx : w.files temp = some x) (hy : w.files dest = some y)
    (h0 : (env 0).fail = none) (h1 : (env 1).fail = none) :
    run (exec R) (commit temp dest) env w
      = (.ok (), ((w.set temp (some y)).set dest (some x)).set temp none) := by
  simp [commit, removeOnError, replaceFile, tryFile, fileOp, Bind.bind, Script.bind, Script.onError,
    run, exec, execFile, mayFail, h0, h1, hx, hy, hne, files_set, Except.mapError]

end Runs

end FastSigner.Sign

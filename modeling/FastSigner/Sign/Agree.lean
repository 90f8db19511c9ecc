import FastSigner.Sign.Run

/-!
# Runs that agree

A run may find the key loaded or not, look at a few headers first or not, and write to
another file or over its input.  None of this shows in what it leaves, as long as nothing
fails and the random numbers of the signatures are the same.

* `signOne_whenever_loaded`: the moment at which the key is there does not matter.
* `signOne_whatever_sample`: nor does the early check, and what it finds the full check finds.
* `signOne_inPlace`: signing in place gives what `--out` gives, unless the temporary file of the
  output is the input.  `clobbered_output` is a run where it is: the input is emptied before it is
  read.
-/

namespace FastSigner.Sign

open Lib Zip Digest Align SigBlock Script

/-- The random numbers of the signatures are `seed`, whenever they are asked for. -/
def Draws (seed : Nat → Nat) (env : Nat → Chance) : Prop := ∀ i, (env i).seed = seed

section Agree

variable {R : Crypto} {J : Job} {w : World} {env env' : Nat → Chance} {seed : Nat → Nat}

theorem sameSignatures_of_draws (key : Option Signer) (h : Draws seed env) (h' : Draws seed env') :
    SameSignatures key env env' := by
  intro s _ i j v
  rw [h i, h' j]

theorem sameSignatures_of_deterministic {key : Option Signer}
    (h : ∀ s, key = some s → s.Deterministic) : SameSignatures key env env' := by
  intro s hs i j v
  funext m
  rw [h s hs ((env i).seed v) m, h s hs ((env' j).seed v) m]

/-! ### The key -/

/-- **It does not matter when the key is loaded**, before the digest is taken, after it, or not at
all: two runs of a job in which nothing fails both succeed or both fail, and leave the same bytes. -/
theorem signOne_whenever_loaded (hcalm : ∀ i, (env i).Calm) (hcalm' : ∀ i, (env' i).Calm)
    (hseed : Draws seed env) (hseed' : Draws seed env') :
    ((run (exec R) (signOne R J) env w).1 = .ok () ↔ (run (exec R) (signOne R J) env' w).1 = .ok ()) ∧
    ((run (exec R) (signOne R J) env w).1 = .ok () →
      (run (exec R) (signOne R J) env' w).2.content J.dest
        = (run (exec R) (signOne R J) env w).2.content J.dest) :=
  agree_of_matched hcalm hcalm' ⟨rfl, rfl, rfl, rfl⟩ (sameSignatures_of_draws _ hseed hseed')

/-- The digest is taken with SHA-256 until the key turns out to want another one. -/
def sha512Job : Job := { exampleJob with key := some { exampleSigner with contentDigest := .sha512 } }

theorem signOne_whenever_loaded_sha512 :
    (run (exec sha256Crypto) (signOne sha256Crypto sha512Job) (fun _ => calmChance) exampleWorld).1
        = .ok () ↔
      (run (exec sha256Crypto) (signOne sha256Crypto sha512Job) (fun _ => lateChance) exampleWorld).1
        = .ok () := by
  generalize sha256Crypto = R
  exact (@signOne_whenever_loaded R sha512Job exampleWorld (fun _ => calmChance) (fun _ => lateChance)
    (fun _ => 0) (fun _ => calm_calmChance) (fun _ => ⟨rfl, rfl, fun _ => rfl, rfl⟩) (fun _ => rfl)
    fun _ => rfl).1

/-! ### The early check -/

/-- The full check: what the inspector noted while the digest ran, and what `check` says of it. -/
def Job.fullCheck (J : Job) (P : Parsed) (apk cd : Bytes) (notes : LfhInspector → List Note) :
    Except Error (List Misaligned) := do
  let insp ← LfhInspector.new P.filtered.kept P.sections.entriesEnd
  let lens ← ((notes insp).foldl LfhInspector.note insp).finish (ReadAt.ofBytes apk) P.filtered.kept
  check cd P.filtered.kept lens P.sections.entriesEnd J.opts.libPageSize

/-- The notes of an inspector that rides along with the digest of the spliced layout. -/
def Job.Noted (R : Crypto) (J : Job) (P : Parsed) (apk cd : Bytes)
    (notes : LfhInspector → List Note) : Prop :=
  ∀ insp, ∃ sched alg, (notes insp).Perm ((contentDigest R sched (digestSources
    (apk.take P.sections.entriesEnd) cd ((spliced apk P cd).layout P.sections.eocd)) alg
    J.threads).inspected.flatMap (callNotes insp.order))

section Check

variable {apk cd : Bytes} {P : Parsed} {notes : LfhInspector → List Note}

theorem Job.Noted.notesOf (h : J.Noted R P apk cd notes) (insp : LfhInspector) :
    ∃ alg rest tail, (∀ s ∈ rest, Source.fileOff s = none) ∧
      NotesOf R alg J.threads (apk.take P.sections.entriesEnd) rest tail insp.order (notes insp) := by
  obtain ⟨sched, alg, hperm⟩ := h insp
  refine ⟨alg, _, _, ?_, sched, hperm⟩
  intro s hs
  rcases List.mem_cons.mp hs with rfl | hs
  · rfl
  · rw [List.mem_singleton.mp hs]
    rfl

theorem needsRewrite_of_fullCheck (hp : IsParsed apk P cd) (hz : J.opts.zipalign = .check)
    (hn : J.Noted R P apk cd notes) :
    (∀ bad, J.fullCheck P apk cd notes = .ok bad →
      needsRewrite J.opts apk P cd = .ok (decide (bad ≠ []))) ∧
    ∀ e, J.fullCheck P apk cd notes = .error e → ∀ b, needsRewrite J.opts apk P cd ≠ .ok b := by
  rw [Job.fullCheck]
  cases hinsp : LfhInspector.new P.filtered.kept P.sections.entriesEnd with
  | error e =>
    have herror : J.inspector P = .error e := by
      rw [Job.inspector, if_pos hz, hinsp]
      rfl
    exact ⟨fun _ h => (by cases h), fun _ _ => needsRewrite_of_inspector_error hp herror⟩
  | ok insp =>
    obtain ⟨alg, rest, tail, hrest, hnotes⟩ := hn.notesOf insp
    obtain ⟨hdecides, hcomplete⟩ := inspected_needsRewrite hp hz hinsp hrest hnotes
    rw [ok_bind]
    refine ⟨fun bad hbad => ?_, fun e he b hb => ?_⟩
    · obtain ⟨lens, hlens, hbad⟩ := bind_eq_ok.mp hbad
      exact hdecides lens bad hlens hbad
    · obtain ⟨lens, bad, hlens, hbad⟩ := hcomplete b hb
      rw [hlens, ok_bind, hbad] at he
      cases he

theorem needsRewrite_of_rewrite (hp : IsParsed apk P cd) (hz : J.opts.zipalign = .check)
    {all : List CdEntry} {policies : List EntryPolicy}
    (hcl : classify (P.cdFull apk) = .ok (all, policies)) {alg : Algorithm} {threads : Nat}
    {renv : RewriteEnv} {out : Bytes} {rw_ : Rewritten}
    (h : (Align.rewrite R alg apk (archiveOf J.opts ⟨.apart, fun _ _ => none, (0, 0)⟩ apk P.sections
      (P.cdFull apk) all policies) threads renv out).result = .ok rw_) :
    ∃ b, needsRewrite J.opts apk P cd = .ok b := by
  have honest : (archiveOf J.opts ⟨.apart, fun _ _ => none, (0, 0)⟩ apk P.sections (P.cdFull apk) all
      policies).input.Honest apk := Access.honest .apart apk (fun _ _ => none) 0
  have hspec := rewrite_refines honest hp.entriesEnd_le h
  have hc := @rewriteContent_eq R apk P J.opts alg ⟨.apart, fun _ _ => none, (0, 0)⟩ all policies
    (Access.look_eq_ok.mpr fun ha => by cases ha) hcl
  rw [show Access.source .apart apk P.sections.entriesEnd = apk from rfl, hspec] at hc
  obtain ⟨b, hb, -⟩ := (needsRewrite_check hp hz).1 (checkable_of_rewriteContent hp hc)
  exact ⟨b, hb⟩

end Check

/-- **The early check is only an optimisation.**  With any sample, or none, a run in which nothing
fails ends in the same way and leaves the same bytes.  What the sample finds, the full check would
have found, if it had not failed; and where the full check fails, the rewrite fails. -/
theorem signOne_whatever_sample (hz : J.opts.zipalign = .check) (sample : Option Nat)
    (hcalm : ∀ i, (env i).Calm) (hcalm' : ∀ i, (env' i).Calm)
    (hseed : Draws seed env) (hseed' : Draws seed env') :
    (((run (exec R) (signOne R J) env w).1 = .ok () ↔
        (run (exec R) (signOne R { J with sample }) env' w).1 = .ok ()) ∧
      ((run (exec R) (signOne R J) env w).1 = .ok () →
        (run (exec R) (signOne R { J with sample }) env' w).2.content J.dest
          = (run (exec R) (signOne R J) env w).2.content J.dest)) ∧
    ∀ P cd, parseInput (w.content J.input) = .ok (P, cd) → (w.content J.input).length < 2 ^ 64 →
      ∀ notes, J.Noted R P (w.content J.input) cd notes →
        (∀ n, quickMisaligned (ReadAt.ofBytes (w.content J.input)) cd P.sections.entriesEnd
            J.opts.libPageSize n P.filtered.kept = .ok true →
          ∀ bad, J.fullCheck P (w.content J.input) cd notes = .ok bad → bad ≠ []) ∧
        ∀ e, J.fullCheck P (w.content J.input) cd notes = .error e →
          ∀ all policies, classify (P.cdFull (w.content J.input)) = .ok (all, policies) →
            ∀ alg threads renv out rw_, (Align.rewrite R alg (w.content J.input) (archiveOf J.opts
              ⟨.apart, fun _ _ => none, (0, 0)⟩ (w.content J.input) P.sections
              (P.cdFull (w.content J.input)) all policies) threads renv out).result ≠ .ok rw_ := by
  have hmatched : Matched J { J with sample } w w := ⟨rfl, rfl, rfl, rfl⟩
  refine ⟨agree_of_matched hcalm hcalm' hmatched (sameSignatures_of_draws _ hseed hseed'),
    fun P cd hparse hlen notes hn => ?_⟩
  have hp := isParsed_of_parseInput hlen hparse
  obtain ⟨hfull, hfails⟩ := needsRewrite_of_fullCheck hp hz hn
  refine ⟨fun n hq bad hbad hnil => ?_, fun e he all policies hcl alg threads renv out rw_ h => ?_⟩
  · have hquick : Job.quick { J with sample := some n } P (w.content J.input) cd = .ok true := by
      simp only [Job.quick, hz]
      exact hq
    have hneeds := hfull bad hbad
    rw [hnil] at hneeds
    exact ((needsRewrite_of_quick (J := { J with sample := some n }) hp).1 hquick).1 hneeds
  · obtain ⟨b, hb⟩ := needsRewrite_of_rewrite hp hz hcl h
    exact hfails e he b hb

/-- The sample finds that `a` is misaligned; without it the inspector does. -/
theorem signOne_whatever_sample_none :
    (run (exec sha256Crypto) (signOne sha256Crypto { exampleJob with sample := none })
        (fun _ => lateChance) exampleWorld).2.content exampleJob.dest
      = (run (exec sha256Crypto) (signOne sha256Crypto exampleJob) (fun _ => calmChance)
        exampleWorld).2.content exampleJob.dest := by
  generalize sha256Crypto = R
  have hagree := @signOne_whatever_sample R exampleJob exampleWorld (fun _ => calmChance)
    (fun _ => lateChance) (fun _ => 0) rfl none (fun _ => calm_calmChance)
    (fun _ => ⟨rfl, rfl, fun _ => rfl, rfl⟩) (fun _ => rfl) fun _ => rfl
  exact hagree.1.2 (run_exampleJob R)

/-! ### In place -/

/-- **Signing in place gives what `--out` gives**, if the input is not named like the temporary file
next to the output: whichever of its three writes is made, and with any threads and sample. -/
theorem signOne_inPlace {J' : Job} {w' : World} {out : Path} (hout : J.output = some out)
    (hin : J'.output = none) (hopts : J'.opts = J.opts) (hkey : J'.key = J.key)
    (hfile : w'.files J'.input = w.files J.input) (hdet : ∀ s, J.key = some s → s.Deterministic)
    (hcalm : ∀ i, (env i).Calm) (hcalm' : ∀ i, (env' i).Calm) (hne : tempPath out ≠ J.input)
    (hok : (run (exec R) (signOne R J) env w).1 = .ok ()) :
    (run (exec R) (signOne R J') env' w').1 = .ok () ∧
      (run (exec R) (signOne R J') env' w').2.content J'.input
        = (run (exec R) (signOne R J) env w).2.content out := by
  have hdest : J.dest = out := by rw [Job.dest, hout, Option.getD_some]
  have hdest' : J'.dest = J'.input := by rw [Job.dest, hin, Option.getD_none]
  have haccess : J'.calmAccess = J.calmAccess := by
    rw [calmAccess_apart (hdest' ▸ tempPath_ne _), calmAccess_apart (hdest ▸ hne)]
  obtain ⟨hok', hcontent⟩ := ok_of_ok hcalm hcalm' ⟨hopts, hkey, hfile, haccess⟩
    (sameSignatures_of_deterministic hdet) hok
  rw [hdest, hdest'] at hcontent
  exact ⟨hok', hcontent⟩

end Agree

theorem signOne_inPlace_mixed :
    (run (exec sha256Crypto) (signOne sha256Crypto exampleInPlace) (fun _ => lateChance) exampleWorld).1
      = .ok () ∧
    (run (exec sha256Crypto) (signOne sha256Crypto exampleInPlace) (fun _ => lateChance)
        exampleWorld).2.content exampleJob.input
      = (run (exec sha256Crypto) (signOne sha256Crypto exampleJob) (fun _ => calmChance)
        exampleWorld).2.content [.normal (ascii "out.apk")] := by
  generalize sha256Crypto = R
  refine @signOne_inPlace R exampleJob exampleWorld (fun _ => calmChance) (fun _ => lateChance)
    exampleInPlace exampleWorld _ rfl rfl rfl rfl rfl ?_ (fun _ => calm_calmChance)
    (fun _ => ⟨rfl, rfl, fun _ => rfl, rfl⟩) (by decide) (run_exampleJob R)
  rintro s ⟨⟩ seed m
  rfl

section Unlisted

variable {R : Crypto} {opts : Opts} {key : Option Signer} {k : Luck} {apk cd F : Bytes} {P : Parsed}

theorem rewriteContent_unlisted (hcd : P.cdFull apk = []) (hsize : P.sections.cdSize = 0)
    (alg : Algorithm) : rewriteContent R opts alg k apk P
      = .ok ⟨slice (k.access.source apk P.sections.entriesEnd) 0 P.sections.entriesEnd, [], 0⟩ := by
  rw [rewriteContent]
  simp only
  rw [hsize, Access.look_eq_ok.mpr fun _ => rfl, ok_bind, hcd,
    show classify [] = .ok ([], []) by decide, ok_bind, rewriteSpec]
  change Except.ok (⟨Align.output _ (gapPlans 0 P.sections.entriesEnd 0), [], 0⟩ : Content) = _
  rw [gapPlans]
  split
  · rw [Align.output, List.flatMap_singleton]
    simp [Plan.content]
  · have hzero : P.sections.entriesEnd = 0 := by omega
    rw [hzero]
    rfl

theorem exists_unlisted (hz : opts.zipalign = .always) (hparse : parseInput apk = .ok (P, cd))
    (hcd : P.cdFull apk = []) (hsize : P.sections.cdSize = 0)
    (h : signSpec R opts key k apk = .ok F) :
    ∃ rest, F = slice (k.access.source apk P.sections.entriesEnd) 0 P.sections.entriesEnd ++ rest := by
  obtain ⟨signer, P', cd', c, -, hparse', -, hc, hseal⟩ := signSpec_eq_ok_iff.mp h
  obtain ⟨rfl, rfl⟩ := Prod.mk.inj (Except.ok.inj (hparse'.symm.trans hparse))
  rcases contentSpec_eq_ok_iff.mp hc with ⟨-, hrw⟩ | ⟨hfalse, -⟩
  · rw [rewriteContent_unlisted hcd hsize] at hrw
    obtain rfl := Except.ok.inj hrw
    obtain ⟨B, -, -, rfl⟩ := sealContent_eq_ok_iff.mp hseal
    simp only [Align.padded, List.append_assoc]
    exact ⟨_, rfl⟩
  · rw [needsRewrite, hz] at hfalse
    cases hfalse

end Unlisted

/-- Three bytes and an EOCD record in which nothing is listed. -/
def threeBytes : Bytes :=
  [1, 2, 3] ++ eocdSig ++ List.replicate 8 0 ++ leBytes 4 0 ++ leBytes 4 3 ++ [0, 0]

def threeParsed : Parsed where
  sections := ⟨25, 3, none, 3, 0, 3, threeBytes.drop 3⟩
  filtered := ⟨.borrowed, [], []⟩
  cd := .mapped 3 0

theorem parseInput_threeBytes : parseInput threeBytes = .ok (threeParsed, []) := by
  have hparse : Zip.parse (ReadAt.ofBytes threeBytes) = .ok threeParsed.sections := by decide
  rw [parseInput, hparse, ok_bind]
  change (filterCd [] >>= _) = _
  rw [show filterCd [] = .ok threeParsed.filtered by decide, ok_bind]
  rfl

def alwaysOpts : Opts := ⟨true, false, .always, 16384⟩

theorem length_threeEntries (a : Access) : (slice (a.source threeBytes 3) 0 3).length = 3 := by
  cases a with
  | apart => decide
  | copied => decide
  | lost => decide

theorem length_padded_threeEntries (a : Access) :
    (Align.padded (slice (a.source threeBytes 3) 0 3)).length = 4096 := by
  rw [Align.length_padded, length_threeEntries]
  decide

theorem signSpec_threeBytes (R : Crypto) (a : Access) (seeds : Nat × Nat) :
    ∃ F, signSpec R alwaysOpts (some exampleSigner) ⟨a, fun _ _ => none, seeds⟩ threeBytes = .ok F ∧
      F.take 3 = slice (a.source threeBytes 3) 0 3 := by
  have hpad := length_padded_threeEntries a
  have hdigest : (Content.digest R .sha256 (threeBytes.drop 3)
      ⟨slice (a.source threeBytes 3) 0 3, [], 0⟩).length = 32 := R.length_digest _ _
  have hrw : rewriteContent R alwaysOpts .sha256 ⟨a, fun _ _ => none, seeds⟩ threeBytes threeParsed
      = .ok ⟨slice (a.source threeBytes 3) 0 3, [], 0⟩ :=
    rewriteContent_unlisted (by decide) rfl .sha256
  have hspec := signSpec_eq_ok_iff.mpr ⟨exampleSigner, threeParsed, [], _, rfl, parseInput_threeBytes,
    by decide, contentSpec_eq_ok_iff.mpr (Or.inl ⟨rfl, hrw⟩), sealContent_eq_ok_iff.mpr ⟨_, rfl,
      Nat.le_trans (Nat.add_le_add (Nat.le_of_eq hpad) (length_exampleBlock hdigest)) (by decide), rfl⟩⟩
  refine ⟨_, hspec, ?_⟩
  obtain ⟨rest, hrest⟩ := exists_unlisted rfl parseInput_threeBytes (by decide) rfl hspec
  rw [hrest]
  exact List.take_left' (length_threeEntries a)

/-- An input that is named like the temporary file next to the output. -/
def clobberingJob : Job :=
  { exampleJob with input := tempPath exampleJob.dest, opts := alwaysOpts }

def loneFile (p : Path) (b : Bytes) : World where
  files := fun q => if q = p then some b else none
  copy := none

@[simp] theorem files_loneFile (p : Path) (b : Bytes) : (loneFile p b).files p = some b := if_pos rfl

@[simp] theorem content_loneFile (p : Path) (b : Bytes) : (loneFile p b).content p = b := by
  rw [World.content, files_loneFile, Option.getD_some]

theorem run_threeBytes (R : Crypto) {J : Job} {w : World} (hopts : J.opts = alwaysOpts)
    (hkey : J.key = some exampleSigner) (hin : w.files J.input = some threeBytes) :
    (run (exec R) (signOne R J) (fun _ => calmChance) w).1 = .ok () ∧
      ((run (exec R) (signOne R J) (fun _ => calmChance) w).2.content J.dest).take 3
        = slice (J.calmAccess.source threeBytes 3) 0 3 := by
  have hcalm : ∀ i : Nat, ((fun _ => calmChance) i).Calm := fun _ => calm_calmChance
  have hcontent : w.content J.input = threeBytes := by
    rw [World.content, hin, Option.getD_some]
  have hok : (run (exec R) (signOne R J) (fun _ => calmChance) w).1 = .ok () := by
    refine ok_of_calmAccess hcalm (by rw [hin]; simp) fun seeds => ?_
    rw [hopts, hkey, hcontent]
    obtain ⟨F, hF, -⟩ := signSpec_threeBytes R J.calmAccess seeds
    exact ⟨F, hF⟩
  refine ⟨hok, ?_⟩
  obtain ⟨k, hk, hspec⟩ := (finished_of_run hok).content
  rw [fate_quiet hk (quiet_among _ hcalm), hopts, hkey, hcontent] at hspec
  obtain ⟨F, hF, htake⟩ := signSpec_threeBytes R J.calmAccess k.seeds
  obtain rfl := Except.ok.inj (hF.symm.trans hspec)
  exact htake

/-- `--out` leaves zeros where signing in place leaves the three bytes. -/
theorem clobbered_output : exampleSigner.Deterministic ∧
    (run (exec sha256Crypto) (signOne sha256Crypto clobberingJob) (fun _ => calmChance)
      (loneFile clobberingJob.input threeBytes)).1 = .ok () ∧
    (run (exec sha256Crypto) (signOne sha256Crypto clobberingJob) (fun _ => calmChance)
      (loneFile clobberingJob.input threeBytes)).2.content clobberingJob.dest
    ≠ (run (exec sha256Crypto) (signOne sha256Crypto { clobberingJob with output := none })
        (fun _ => calmChance) (loneFile clobberingJob.input threeBytes)).2.content
          clobberingJob.input := by
  generalize sha256Crypto = R
  obtain ⟨hok, hzeros⟩ := run_threeBytes R (J := clobberingJob) rfl rfl (files_loneFile _ _)
  obtain ⟨-, hthree⟩ :=
    run_threeBytes R (J := { clobberingJob with output := none }) rfl rfl (files_loneFile _ _)
  refine ⟨fun _ _ => rfl, hok, fun h => ?_⟩
  rw [h] at hzeros
  exact absurd (hthree.symm.trans hzeros) (by decide)

end FastSigner.Sign

import FastSigner.Align.Copy
import FastSigner.SigBlock

/-!
# The rewrite

`rewrite` puts the halves together: plan, copy and digest, and build the Central
Directory of the moved entries.  `rewriteSpec` is what it is for, without
threads, buffers or failures.

* `rewrite_refines`: whatever the threads and the environment do, a rewrite that
  returns `Ok` returns what `rewriteSpec` says and leaves its section in the file.
* `rewrite_eq_of_log`: it returns `Ok` unless a read or a write failed.
-/

namespace FastSigner.Align

open Lib Zip Digest SigBlock

def maxProducers : Nat := 6

structure Rewritten where
  cd : Bytes -- The new Central Directory.
  entriesEnd : Nat
  entries : Nat -- The number of entries in `cd`.
  dropped : Nat
  pad : Nat -- Zeros between `entriesEnd` and the signing block.
  chunkCount : Nat
  chunkDigests : Bytes
  deriving DecidableEq

/-! ### The new Central Directory -/

def newOffs (n : Nat) (plans : List Plan) : List (Option Nat) :=
  plans.foldl (fun offs p =>
    match p.idx with
    | some i => offs.set i (some p.newOff)
    | none => offs) (List.replicate n none)

/-- The records of the entries that have an offset, in the original order, and their number. -/
def newCd (cd : Bytes) (entries : List CdEntry) (offs : List (Option Nat)) : Bytes × Nat :=
  (entries.zip offs).foldl (fun acc x =>
    match x.2 with
    | some off => (acc.1 ++ setLfhOff (slice cd x.1.record.start x.1.record.stop) off, acc.2 + 1)
    | none => acc) ([], 0)

/-! ### Copying -/

/-- What the environment does to a rewrite: a schedule of the threads with the failures of their
reads and writes, and whether `set_len` fails. -/
structure RewriteEnv where
  sched : Nat → Nat × Faults
  setLen : Option IoError

def RewriteEnv.Calm (env : RewriteEnv) : Prop :=
  (∀ k, (env.sched k).2 = Faults.none) ∧ env.setLen = none

/-- The outcome of the copy: result, output file, and which reads and writes failed. -/
structure Copied where
  result : Except Error (Nat × Bytes)
  file : Bytes
  log : List IoError

def numProducers (threads chunkCount : Nat) : Nat :=
  min (min (max (threads - 1) 1) maxProducers) (max chunkCount 1)

def copyOf (R : Crypto) (alg : Algorithm) (src : Bytes) (plans : List Plan) (threads : Nat) : Copy :=
  let stop := newEnd plans
  let pad := paddingBeforeBlock stop
  let chunkCount := (stop + pad + chunkSize - 1) / chunkSize
  { R, alg, src, chunkCount
    chunker := ⟨plans, stop, stop + pad⟩
    producers := numProducers threads chunkCount }

/-- Once the threads are joined: put the digests in order. -/
def collect (alg : Algorithm) (chunkCount : Nat) (s : CopyState) : Copied :=
  match s.result with
  | .error e => ⟨.error (.rewrite e), s.file, s.log⟩
  | .ok all =>
    let ol := alg.outputLen
    let chunkDigests := applyPatches (List.replicate (chunkCount * ol) 0)
      (all.map fun x => (x.1 * ol, x.2))
    ⟨.ok (chunkCount, chunkDigests), s.file, s.log⟩

/-- The second half of `rewrite`: write the planned output to `out` and digest it in 1 MiB
chunks; the number of chunks and their digests. -/
def copy (R : Crypto) (alg : Algorithm) (src : Bytes) (plans : List Plan) (threads : Nat)
    (env : RewriteEnv) (out : Bytes) : Copied :=
  let C := copyOf R alg src plans threads
  match env.setLen with
  | some e => ⟨.error (.rewrite e), out, [e]⟩
  | none => collect alg C.chunkCount (C.final env.sched (setLen out (newEnd plans)))

def padded (section_ : Bytes) : Bytes :=
  section_ ++ List.replicate (paddingBeforeBlock section_.length) 0

section CopySpec

variable {R : Crypto} {alg : Algorithm} {src : Bytes} {plans : List Plan}

theorem copyOk (hp : PlansOk src.length plans) (threads : Nat) :
    CopyOk (copyOf R alg src plans threads) := by
  refine ⟨⟨hp, rfl, Nat.le_add_right _ _⟩, rfl, ?_⟩
  simp only [copyOf, numProducers, maxProducers]
  omega

theorem length_padded (b : Bytes) : (padded b).length = b.length + paddingBeforeBlock b.length := by
  rw [padded, List.length_append, List.length_replicate]

theorem slice_padded (b : Bytes) (n k : Nat) :
    slice (padded b) (k * n) (k * n + n) = slice b (k * n) (k * n + n)
      ++ List.replicate (min (k * n + n) (b.length + paddingBeforeBlock b.length) - k * n
        - (slice b (k * n) (k * n + n)).length) 0 := by
  generalize hp : paddingBeforeBlock b.length = pad
  rw [padded, hp]
  generalize k * n = i
  generalize i + n = j
  apply List.ext_getElem?
  intro x
  rw [getElem?_slice]
  by_cases hx : i + x < b.length
  · by_cases hj : i + x < j
    · rw [if_pos hj, List.getElem?_append_left hx,
        List.getElem?_append_left (by rw [length_slice]; omega), getElem?_slice, if_pos hj]
    · rw [if_neg hj, List.getElem?_eq_none]
      rw [List.length_append, List.length_replicate, length_slice]
      omega
  · rw [List.getElem?_append_right (by omega),
      List.getElem?_append_right (by rw [length_slice]; omega), List.getElem?_replicate,
      List.getElem?_replicate]
    have hlen := length_slice b i j
    by_cases hj : i + x < j
    · rw [if_pos hj]
      by_cases hin : i + x - b.length < pad
      · rw [if_pos hin, if_pos (by omega)]
      · rw [if_neg hin, if_neg (by omega)]
    · rw [if_neg hj, if_neg (by omega)]

theorem digest_copyOf (hp : PlansOk src.length plans) (threads k : Nat) :
    (copyOf R alg src plans threads).digest k = chunkDigest R alg
      (slice (padded (output src plans)) (k * chunkSize) (k * chunkSize + chunkSize)) := by
  have hlen := length_output hp.inside
  rw [Copy.digest, hashChunk_eq, slice_padded, hlen]
  simp only [List.flatten_cons, List.flatten_nil, List.append_nil]
  rfl

theorem chunkCount_copyOf (hp : PlansOk src.length plans) (threads : Nat) :
    (copyOf R alg src plans threads).chunkCount
      = (chunks chunkSize (padded (output src plans))).length := by
  rw [length_chunks, length_padded, length_output hp.inside]
  rfl

@[simp] theorem collect_file (alg : Algorithm) (n : Nat) (s : CopyState) :
    (collect alg n s).file = s.file := by
  rw [collect]
  split <;> rfl

@[simp] theorem collect_log (alg : Algorithm) (n : Nat) (s : CopyState) :
    (collect alg n s).log = s.log := by
  rw [collect]
  split <;> rfl

theorem collect_ok {alg : Algorithm} {n : Nat} {s : CopyState} {r : Nat × Bytes}
    (h : (collect alg n s).result = .ok r) :
    ∃ all, s.result = .ok all ∧
      r = (n, applyPatches (List.replicate (n * alg.outputLen) 0)
        (all.map fun x => (x.1 * alg.outputLen, x.2))) := by
  rw [collect] at h
  split at h
  · cases h
  · rename_i all hall
    exact ⟨all, hall, (Except.ok.inj h).symm⟩

theorem collect_ok_iff (alg : Algorithm) (n : Nat) (s : CopyState) :
    (∃ r, (collect alg n s).result = .ok r) ↔ ∃ all, s.result = .ok all := by
  constructor
  · rintro ⟨r, h⟩
    obtain ⟨all, hall, -⟩ := collect_ok h
    exact ⟨all, hall⟩
  · rintro ⟨all, h⟩
    rw [collect, h]
    exact ⟨_, rfl⟩

theorem copy_of_setLen {env : RewriteEnv} (h : env.setLen = none) (threads : Nat) (out : Bytes) :
    copy R alg src plans threads env out
      = collect alg (copyOf R alg src plans threads).chunkCount
        ((copyOf R alg src plans threads).final env.sched (setLen out (newEnd plans))) := by
  rw [copy, h]

theorem setLen_of_copy_ok {threads : Nat} {env : RewriteEnv} {out : Bytes} {r : Nat × Bytes}
    (h : (copy R alg src plans threads env out).result = .ok r) : env.setLen = none := by
  cases hset : env.setLen with
  | none => rfl
  | some e =>
    rw [copy, hset] at h
    cases h

theorem length_setLen_newEnd (hp : PlansOk src.length plans) (threads : Nat) (out : Bytes) :
    (setLen out (newEnd plans)).length = (output (copyOf R alg src plans threads).src
      (copyOf R alg src plans threads).chunker.plans).length := by
  rw [length_setLen]
  exact (length_output hp.inside).symm

/-- **A copy that succeeds is complete**: the file holds the output, and the digests are those of
the padded output's chunks, in order. -/
theorem copy_ok (hp : PlansOk src.length plans) {threads : Nat} {env : RewriteEnv} {out : Bytes}
    {r : Nat × Bytes} (h : (copy R alg src plans threads env out).result = .ok r) :
    (copy R alg src plans threads env out).file = output src plans ∧
      r = chunkDigestsOf R alg (padded (output src plans)) := by
  have hset := setLen_of_copy_ok h
  rw [copy_of_setLen hset] at h ⊢
  obtain ⟨all, hall, rfl⟩ := collect_ok h
  obtain ⟨hfile, hkeys, hval⟩ :=
    result_ok (copyOk hp threads) env.sched (length_setLen_newEnd hp threads out) hall
  have hcount : (copyOf R alg src plans threads).chunkCount
      = (chunks chunkSize (padded (output src plans))).length := chunkCount_copyOf hp threads
  rw [hcount] at hkeys
  refine ⟨by rw [collect_file, hfile]; rfl, ?_⟩
  -- the digests arrive in any order, each with its index
  have hsize : ∀ l ∈ (chunks chunkSize (padded (output src plans))).map (chunkDigest R alg),
      l.length = alg.outputLen := by
    intro l hl
    obtain ⟨c, -, rfl⟩ := List.mem_map.mp hl
    exact R.length_digest _ _
  have hdigest : ∀ x ∈ all,
      ((chunks chunkSize (padded (output src plans))).map (chunkDigest R alg))[x.1]?
        = some x.2 := by
    intro x hx
    have hlt : x.1 < (chunks chunkSize (padded (output src plans))).length :=
      List.mem_range.mp (hkeys.mem_iff.mp (List.mem_map_of_mem hx))
    rw [length_chunks] at hlt
    rw [List.getElem?_map, chunks, List.getElem?_map, List.getElem?_range hlt, hval x hx,
      digest_copyOf hp]
    rfl
  have hpieces := applyPatches_pieces hsize all (by rw [List.length_map]; exact hkeys) hdigest 0
  rw [List.length_map] at hpieces
  rw [hcount, hpieces, chunkDigestsOf_eq, List.flatMap_def]

/-- **A copy succeeds exactly when no read and no write failed.** -/
theorem copy_ok_iff (hp : PlansOk src.length plans) (threads : Nat) (env : RewriteEnv)
    (out : Bytes) :
    (∃ r, (copy R alg src plans threads env out).result = .ok r) ↔
      (copy R alg src plans threads env out).log = [] := by
  cases hset : env.setLen with
  | some e =>
    rw [copy, hset]
    simp
  | none =>
    rw [copy_of_setLen hset, collect_ok_iff, collect_log]
    exact result_ok_iff (copyOk hp threads) env.sched (length_setLen_newEnd hp threads out)

theorem copy_log_of_calm (R : Crypto) (alg : Algorithm) (src : Bytes) (plans : List Plan)
    (threads : Nat) {env : RewriteEnv} (henv : env.Calm) (out : Bytes) :
    (copy R alg src plans threads env out).log = [] := by
  rw [copy_of_setLen henv.2, collect_log]
  exact log_of_no_faults henv.1 _

end CopySpec

/-! ### All of it -/

structure RewriteRun where
  result : Except Error Rewritten
  file : Bytes
  log : List IoError

/-- `align::rewrite`, from the archive of which `src` is the file, into the file `out`. -/
def rewrite (R : Crypto) (alg : Algorithm) (src : Bytes) (A : Archive) (threads : Nat)
    (env : RewriteEnv) (out : Bytes) : RewriteRun :=
  match planAll A with
  | .error e => ⟨.error e, out, []⟩
  | .ok (plans, dropped) =>
    let c := copy R alg src plans threads env out
    match c.result with
    | .error e => ⟨.error e, c.file, c.log⟩
    | .ok (chunkCount, chunkDigests) =>
      let (cd, entries) := newCd A.cd A.entries (newOffs A.entries.length plans)
      let pad := paddingBeforeBlock (newEnd plans)
      ⟨.ok { cd, entriesEnd := newEnd plans, entries, dropped, pad, chunkCount, chunkDigests },
        c.file, c.log⟩

/-- The purpose of `rewrite`: the section that the plans describe, its directory, and the digests
of its chunks. -/
def rewriteSpec (R : Crypto) (alg : Algorithm) (src : Bytes) (A : Archive) :
    Except Error (Rewritten × Bytes) := do
  let (plans, dropped) ← planAll A
  let file := output src plans
  let (cd, entries) := newCd A.cd A.entries (newOffs A.entries.length plans)
  let (chunkCount, chunkDigests) := chunkDigestsOf R alg (padded file)
  .ok ({ cd, entriesEnd := file.length, entries, dropped, pad := paddingBeforeBlock file.length,
         chunkCount, chunkDigests }, file)

section RewriteSpec

variable {R : Crypto} {alg : Algorithm} {src : Bytes} {A : Archive}

theorem plansOk (hin : A.input.Honest src) (hb : A.entriesEnd ≤ src.length) {plans : List Plan}
    {dropped : Nat} (h : planAll A = .ok (plans, dropped)) : PlansOk src.length plans := by
  rw [planAll, bind_eq_ok] at h
  obtain ⟨order, horder, h⟩ := h
  rw [bind_eq_ok] at h
  obtain ⟨plans', hplans, h⟩ := h
  simp only [Except.ok.injEq, Prod.mk.injEq] at h
  obtain ⟨rfl, -⟩ := h
  obtain ⟨-, -, hinside⟩ := fileOrder_eq_ok_iff.mp horder
  obtain ⟨ps, -, hok, hlaid, rfl⟩ :=
    planLoop_eq_ok hin hb order _ 0 0 _ (HeaderReader.shows_new _ _) hinside hplans
  exact ⟨contiguous_plansFor _ _ _ hlaid, inside_plansFor hb _ _ _ hok⟩

/-- **A rewrite that returns `Ok` does what it is for.** -/
theorem rewrite_refines (hin : A.input.Honest src) (hb : A.entriesEnd ≤ src.length) {threads : Nat}
    {env : RewriteEnv} {out : Bytes} {rw_ : Rewritten}
    (h : (rewrite R alg src A threads env out).result = .ok rw_) :
    rewriteSpec R alg src A = .ok (rw_, (rewrite R alg src A threads env out).file) := by
  rw [rewrite] at h ⊢
  rw [rewriteSpec]
  cases hplan : planAll A with
  | error e =>
    rw [hplan] at h
    cases h
  | ok r =>
    obtain ⟨plans, dropped⟩ := r
    have hp := plansOk hin hb hplan
    rw [hplan] at h
    simp only [ok_bind] at h ⊢
    cases hc : (copy R alg src plans threads env out).result with
    | error e =>
      rw [hc] at h
      cases h
    | ok r =>
      obtain ⟨hfile, rfl⟩ := copy_ok hp hc
      rw [hc] at h
      simp only [Except.ok.injEq] at h ⊢
      rw [← h, hfile, length_output hp.inside]

/-- **A rewrite that nothing disturbs does what it is for.** -/
theorem rewrite_eq_of_log (hin : A.input.Honest src) (hb : A.entriesEnd ≤ src.length)
    {threads : Nat} {env : RewriteEnv} {out : Bytes}
    (h : (rewrite R alg src A threads env out).log = []) :
    (rewrite R alg src A threads env out).result = (rewriteSpec R alg src A).map Prod.fst := by
  cases hplan : planAll A with
  | error e => rw [rewrite, rewriteSpec, hplan]; rfl
  | ok r =>
    obtain ⟨plans, dropped⟩ := r
    have hlog : (rewrite R alg src A threads env out).log
        = (copy R alg src plans threads env out).log := by
      rw [rewrite, hplan]
      simp only
      split <;> rfl
    obtain ⟨r, hr⟩ := (copy_ok_iff (plansOk hin hb hplan) threads env out).mpr (hlog ▸ h)
    have hres : ∃ x, (rewrite R alg src A threads env out).result = .ok x := by
      rw [rewrite, hplan]
      simp only [hr]
      exact ⟨_, rfl⟩
    obtain ⟨x, hx⟩ := hres
    rw [rewrite_refines hin hb hx, hx]
    rfl

theorem rewrite_log_of_calm {threads : Nat} {env : RewriteEnv} (henv : env.Calm) (out : Bytes) :
    (rewrite R alg src A threads env out).log = [] := by
  rw [rewrite]
  split
  · rfl
  · rename_i plans dropped _
    have := copy_log_of_calm R alg src plans threads henv out
    simp only
    split <;> exact this

/-- **Copying the plans of an archive**, under every schedule and every choice of failures: the
rewrite returns `Ok` exactly when no read and no write failed, and then the file is the
concatenation of the plans' headers and source ranges, and the digests are those of its chunks
with the padding. -/
theorem rewrite_copy (R : Crypto) (alg : Algorithm) (hin : A.input.Honest src) (hb : A.entriesEnd ≤ src.length)
    {plans : List Plan} {dropped : Nat} (hplan : planAll A = .ok (plans, dropped)) (threads : Nat)
    (env : RewriteEnv) (out : Bytes) :
    ((∃ rw_, (rewrite R alg src A threads env out).result = .ok rw_) ↔
      (rewrite R alg src A threads env out).log = []) ∧
    (env.Calm → (rewrite R alg src A threads env out).log = []) ∧
    ∀ rw_, (rewrite R alg src A threads env out).result = .ok rw_ →
      (rewrite R alg src A threads env out).file
        = plans.flatMap (fun p => p.hdr ++ slice src p.srcOff (p.srcOff + p.srcLen)) ∧
      rw_.entriesEnd = (rewrite R alg src A threads env out).file.length ∧
      rw_.pad = paddingBeforeBlock rw_.entriesEnd ∧
      (rw_.chunkCount, rw_.chunkDigests) = chunkDigestsOf R alg
        ((rewrite R alg src A threads env out).file ++ List.replicate rw_.pad 0) := by
  refine ⟨⟨?_, ?_⟩, fun henv => rewrite_log_of_calm henv out, ?_⟩
  · rintro ⟨rw_, h⟩
    rw [rewrite, hplan] at h ⊢
    simp only at h ⊢
    cases hc : (copy R alg src plans threads env out).result with
    | error e =>
      rw [hc] at h
      cases h
    | ok r => exact (copy_ok_iff (plansOk hin hb hplan) threads env out).mp ⟨r, hc⟩
  · intro hlog
    rw [rewrite_eq_of_log hin hb hlog, rewriteSpec, hplan]
    exact ⟨_, rfl⟩
  · intro rw_ h
    have hspec := rewrite_refines hin hb h
    generalize (rewrite R alg src A threads env out).file = file at hspec ⊢
    rw [rewriteSpec, hplan] at hspec
    simp only [ok_bind, Except.ok.injEq, Prod.mk.injEq] at hspec
    obtain ⟨rfl, rfl⟩ := hspec
    exact ⟨rfl, rfl, rfl, rfl⟩

/-! ### An archive with something of everything -/

/-- `mixedFile` as the rewrite gets it: the directory `d/` is skipped, and `pinlist.meta` left in its
gap. -/
def mixedArchive : Archive where
  input := ReadAt.ofBytes mixedFile
  cd := mixedRecords.flatten
  entries := entriesFrom 0 mixedRecords
  policies := [.output, .skip, .output, .gap]
  entriesEnd := 160
  libPageSize := 16384

def mixedPlans : List Plan :=
  [⟨none, 0, 3, 0, []⟩, ⟨some 2, 34, 18, 3, exampleHeader 8 8 2 (ascii "b") []⟩, ⟨none, 84, 2, 52, []⟩,
    ⟨some 0, 117, 1, 54, exampleHeader 0 0 1 (ascii "a") [0x35, 0xd9, 3, 0, 4, 0, 0]⟩,
    ⟨none, 118, 42, 93, []⟩]

set_option maxRecDepth 4000 in
theorem room_mixedArchive : mixedArchive.entriesEnd ≤ mixedFile.length := by decide

set_option maxRecDepth 4000 in
theorem planAll_mixedArchive : planAll mixedArchive = .ok (mixedPlans, 2) := by decide

/-- The section that these plans describe, and its directory. -/
def mixedOutput : Bytes :=
  [1, 2, 3] ++ exampleHeader 8 8 2 (ascii "b") [] ++ [0x68, 0x69] ++ leBytes 4 dataDescriptorSig
    ++ List.replicate 12 0 ++ [7, 7] ++ exampleHeader 0 0 1 (ascii "a") [0x35, 0xd9, 3, 0, 4, 0, 0]
    ++ [0x61] ++ exampleHeader 0 0 0 (ascii "pinlist.meta") []

def mixedOutputRecords : List Bytes :=
  [exampleRecord 0 0 1 54 (ascii "a"), exampleRecord 8 8 2 3 (ascii "b")]

set_option maxRecDepth 4000 in
theorem output_mixedPlans : output mixedFile mixedPlans = mixedOutput := by decide

set_option maxRecDepth 4000 in
theorem length_mixedOutput : mixedOutput.length = 135 := by decide

set_option maxRecDepth 8000 in
theorem newCd_mixedPlans : newCd mixedArchive.cd mixedArchive.entries (newOffs 4 mixedPlans)
    = (mixedOutputRecords.flatten, 2) := by decide

theorem rewrite_mixedArchive (R : Crypto) (alg : Algorithm) (threads : Nat) :
    ∃ rw_, (rewrite R alg mixedFile mixedArchive threads
        ⟨fun k => (k, Faults.none), none⟩ []).result = .ok rw_ ∧
      (rewrite R alg mixedFile mixedArchive threads
        ⟨fun k => (k, Faults.none), none⟩ []).file = mixedOutput ∧
      rw_.cd = mixedOutputRecords.flatten ∧ rw_.entriesEnd = 135 := by
  have hin := ReadAt.honest_ofBytes mixedFile
  have hb := room_mixedArchive
  have hres := rewrite_eq_of_log hin hb (@rewrite_log_of_calm R alg mixedFile mixedArchive threads
    ⟨fun k => (k, Faults.none), none⟩ ⟨fun _ => rfl, rfl⟩ [])
  rw [rewriteSpec, planAll_mixedArchive] at hres
  have hfile := rewrite_refines hin hb hres
  rw [rewriteSpec, planAll_mixedArchive] at hfile
  have hfile := (Prod.mk.inj (Except.ok.inj hfile)).2
  refine ⟨_, hres, hfile.symm.trans output_mixedPlans, congrArg Prod.fst newCd_mixedPlans, ?_⟩
  exact (congrArg List.length output_mixedPlans).trans length_mixedOutput

theorem rewrite_copy_mixed : ∃ rw_ : Rewritten,
    (rewrite sha256Crypto .sha512 mixedFile mixedArchive 4
      ⟨fun k => (k, Faults.none), none⟩ []).result = .ok rw_ ∧
    (rewrite sha256Crypto .sha512 mixedFile mixedArchive 4
      ⟨fun k => (k, Faults.none), none⟩ []).file = mixedOutput := by
  generalize sha256Crypto = R
  obtain ⟨hiff, hcalm, hok⟩ := rewrite_copy R .sha512 (ReadAt.honest_ofBytes mixedFile)
    room_mixedArchive planAll_mixedArchive 4
    ⟨fun k => (k, Faults.none), none⟩ []
  obtain ⟨rw_, hrw⟩ := hiff.mpr (hcalm ⟨fun _ => rfl, rfl⟩)
  exact ⟨rw_, hrw, (hok rw_ hrw).1.trans output_mixedPlans⟩

end RewriteSpec

end FastSigner.Align

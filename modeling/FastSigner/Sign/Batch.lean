import FastSigner.Keys.Jks
import FastSigner.Lib.Crew
import FastSigner.Sign.Outputs
import FastSigner.Sign.Run

/-!
# Several APKs at once

`prepare` and `finish` follow `run` up to where the workers start and from where they have
ended; in between, the workers are a crew (`batch`) that signs the APKs on common files.

* `batch_alone`: if the jobs are isolated, what is reported and what is left is what signing
  every APK alone, from the files as they were, would have given.
* `batch_planned`: so it is for what `plan_outputs` lets pass, but for two cases in which two
  jobs meet; `batch_planned_twice` is one of them.
* `batch_agree`: it does not depend on the number of workers and the schedule.
* `batch_atomic`: at every moment every output is as it was or complete.
* `run_signs`: if the program ends with success, every APK is signed.
* `batch_keyless`: a key that could not be loaded changes no destination.
-/

namespace FastSigner.Sign

open Lib Zip Digest Align SigBlock Script

abbrev Files := Path → Option Bytes

def World.start (files : Files) : World := ⟨files, none⟩

/-! ### Jobs on common files -/

/-- An operation on the common files.  The input that is read into memory is the job's own. -/
def execShared (R : Crypto) (o : Op) (c : Chance) (x : Option Bytes × Files) :
    o.Res × (Option Bytes × Files) :=
  let y := exec R o c ⟨x.2, x.1⟩
  (y.1, (y.2.copy, y.2.files))

def World.share (w : World) : Option Bytes × Files := (w.copy, w.files)

theorem execShared_share (R : Crypto) (o : Op) (c : Chance) (w : World) :
    execShared R o c w.share = ((exec R o c w).1, (exec R o c w).2.share) := rfl

/-- **Alone, a job on common files is a job.** -/
theorem run_shared (R : Crypto) {α : Type} (p : Prog α) (env : Nat → Chance) (w : World) :
    run (execShared R) p env w.share = ((run (exec R) p env w).1, (run (exec R) p env w).2.share) :=
  run_image (execShared_share R) p env w

theorem local_of_within {R : Crypto} {V W : List Path} {o : Op} (h : o.Within V W) :
    Local (execShared R) {p | p ∈ V} {p | p ∈ W} o where
  agree c l s s' hs := by
    have hagree : Agree V ⟨s, l⟩ ⟨s', l⟩ := ⟨rfl, hs⟩
    obtain ⟨hans, hw⟩ := exec_agree (R := R) (c := c) h.reads hagree
    exact ⟨hans, hw.copy, hw.files⟩
  spares c l s p hp := exec_spares (R := R) (w := ⟨s, l⟩) fun hw => hp (h.writes p hw)

/-- The files that job `i` looks at, and those that it changes. -/
def looksAt (jobs : List Job) (i : Nat) : Set Path := {p | ∃ J, jobs[i]? = some J ∧ p ∈ J.looksAt}

def changes (jobs : List Job) (i : Nat) : Set Path := {p | ∃ J, jobs[i]? = some J ∧ p ∈ J.changes}

theorem looksAt_eq {jobs : List Job} {i : Nat} {J : Job} (h : jobs[i]? = some J) :
    looksAt jobs i = {p | p ∈ J.looksAt} := by
  ext p
  simp [looksAt, h]

theorem changes_eq {jobs : List Job} {i : Nat} {J : Job} (h : jobs[i]? = some J) :
    changes jobs i = {p | p ∈ J.changes} := by
  ext p
  simp [changes, h]

theorem apart_of_isolated (R : Crypto) {jobs : List Job} (h : Isolated jobs) :
    Apart (execShared R) (jobs.map (signOne R)) (looksAt jobs) (changes jobs) where
  calls i p hp := by
    rw [List.getElem?_map] at hp
    obtain ⟨J, hJ, rfl⟩ := Option.map_eq_some_iff.mp hp
    rw [looksAt_eq hJ, changes_eq hJ]
    exact calls_mono (fun o => local_of_within) (calls_signOne R J)
  apart i j hi hj hij p hp hlook := by
    obtain ⟨J, hJ, hp⟩ := hp
    obtain ⟨J', hJ', hlook⟩ := hlook
    exact h i j J J' hJ hJ' hij p hp hlook

/-! ### The workers -/

abbrev Batch := Crew Op Op.Res Error Unit (Option Bytes) Path (Option Bytes)

/-- The worker loops of `run`, on a common counter.  One worker alone needs none: the main thread
goes through the numbers itself. -/
def batch (R : Crypto) (jobs : List Job) (workers : Nat) : System Batch Chance :=
  crew (execShared R) (jobs.map (signOne R)) none workers

/-- What the workers have come to after `fuel` steps. -/
def batchRun (R : Crypto) (jobs : List Job) (workers : Nat) (files : Files)
    (sched : Nat → Nat × Chance) (fuel : Nat) : Batch :=
  (batch R jobs workers).run sched fuel (Crew.init files workers)

def Ended (R : Crypto) (jobs : List Job) (workers : Nat) (s : Batch) : Prop :=
  (batch R jobs workers).ready s = []

def report (s : Batch) : List (Nat × Except Error Unit) :=
  s.results.mergeSort fun x y => decide (x.1 ≤ y.1)

/-- The chances of a schedule. -/
def chances (sched : Nat → Nat × Chance) (k : Nat) : Chance := (sched k).2

section Batch

variable {R : Crypto} {jobs : List Job} {workers : Nat} {files : Files} {sched : Nat → Nat × Chance}
  {fuel : Nat}

theorem ledger_batch (h : Isolated jobs) : Ledger (execShared R) (Among (chances sched))
    (jobs.map (signOne R)) none (looksAt jobs) (changes jobs) files workers
    (batchRun R jobs workers files sched fuel) :=
  ledger_run (apart_of_isolated R h) workers fuel sched fun k => ⟨k, rfl⟩

theorem exists_ended (R : Crypto) (jobs : List Job) (workers : Nat) (files : Files)
    (sched : Nat → Nat × Chance) :
    ∃ fuel, Ended R jobs workers (batchRun R jobs workers files sched fuel) :=
  crew_quiescent sched _

/-- **Every APK is reported once, in order.** -/
theorem report_keys (hw : 0 < workers) (h : Ended R jobs workers
      (batchRun R jobs workers files sched fuel)) :
    (report (batchRun R jobs workers files sched fuel)).map Prod.fst = List.range jobs.length := by
  have htally : Tally (jobs.map (signOne R)) workers (batchRun R jobs workers files sched fuel) :=
    tally_run workers fuel sched
  have hperm := htally.complete hw h
  rw [List.length_map] at hperm
  have hsort : ((report (batchRun R jobs workers files sched fuel)).map Prod.fst).Pairwise (· ≤ ·) := by
    refine List.pairwise_map.mpr ((List.pairwise_mergeSort (fun x y z hxy hyz => ?_)
      (fun x y => ?_) _).imp fun h => of_decide_eq_true h)
    · exact decide_eq_true (Nat.le_trans (of_decide_eq_true hxy) (of_decide_eq_true hyz))
    · simpa using Nat.le_total x.1 y.1
  refine List.Perm.eq_of_pairwise (fun _ _ _ _ => Nat.le_antisymm) hsort List.pairwise_le_range ?_
  exact ((List.mergeSort_perm _ _).map Prod.fst).trans hperm

theorem batch_spares {S : Op → Prop} {p : Path} (hS : ∀ o, S o → p ∉ o.writes)
    (hcalls : ∀ J ∈ jobs, (signOne R J).Calls S) :
    (batchRun R jobs workers files sched fuel).store p = files p := by
  refine store_of_calls (I := fun t => t p = files p) (S := S) (Q := fun _ => True)
    (fun o ho c l t _ ht => ?_) (fun q hq => ?_) rfl fuel sched fun _ => trivial
  · exact (exec_spares (R := R) (c := c) (w := ⟨t, l⟩) (hS o ho)).trans ht
  · obtain ⟨J, hJ, rfl⟩ := List.mem_map.mp hq
    exact hcalls J hJ

/-- What is reported of a job, and what it leaves, is what it gives alone. -/
theorem report_alone (h : Isolated jobs) (hw : 0 < workers)
    (hend : Ended R jobs workers (batchRun R jobs workers files sched fuel)) {i : Nat} {J : Job}
    (hJ : jobs[i]? = some J) :
    ∃ env, (∀ k, Among (chances sched) (env k)) ∧
      (∀ r, (i, r) ∈ report (batchRun R jobs workers files sched fuel) ↔
        (run (exec R) (signOne R J) env (.start files)).1 = r) ∧
      ∀ p ∈ J.looksAt, (batchRun R jobs workers files sched fuel).store p
        = (run (exec R) (signOne R J) env (.start files)).2.files p := by
  have hkeys := report_keys hw hend
  have hperm := List.mergeSort_perm (batchRun R jobs workers files sched fuel).results
    fun x y => decide (x.1 ≤ y.1)
  have hi : i ∈ (report (batchRun R jobs workers files sched fuel)).map Prod.fst := by
    rw [hkeys]
    exact List.mem_range.mpr (List.getElem?_eq_some_iff.mp hJ).1
  obtain ⟨x, hx, rfl⟩ := List.mem_map.mp hi
  obtain ⟨p, env, hp, hQ, hres, hstore⟩ := (ledger_batch h).alone ⟨0, rfl⟩ (hperm.mem_iff.mp hx)
  rw [List.getElem?_map, hJ] at hp
  obtain rfl := Option.some.inj hp
  have hrun := run_shared R (signOne R J) env (.start files)
  rw [show (World.start files).share = (none, files) from rfl] at hrun
  rw [looksAt_eq hJ, hrun] at hstore
  rw [hrun] at hres
  refine ⟨env, hQ, fun r => ⟨fun hr => ?_, fun hr => ?_⟩, hstore⟩
  · have hsame := (getElem?_of_keys hkeys hx).symm.trans (@getElem?_of_keys _ _ _ hkeys (x.1, r) hr)
    exact hres.trans (congrArg Prod.snd (Option.some.inj hsame))
  · rw [← hr, hres]
    exact hx

theorem alone_of_ended (h : Isolated jobs) (hw : 0 < workers)
    (hend : Ended R jobs workers (batchRun R jobs workers files sched fuel)) :
    ∃ env : Nat → Nat → Chance, (∀ i k, Among (chances sched) (env i k)) ∧
      report (batchRun R jobs workers files sched fuel)
        = jobs.mapIdx (fun i J => (i, (run (exec R) (signOne R J) (env i) (.start files)).1)) ∧
      (∀ i J, jobs[i]? = some J → ∀ p ∈ J.changes,
        (batchRun R jobs workers files sched fuel).store p
          = (run (exec R) (signOne R J) (env i) (.start files)).2.files p) ∧
      ∀ p, (∀ J ∈ jobs, p ∉ J.changes) →
        (batchRun R jobs workers files sched fuel).store p = files p := by
  have hone : ∀ i, ∃ env : Nat → Chance, (∀ k, Among (chances sched) (env k)) ∧
      ∀ J, jobs[i]? = some J →
        (i, (run (exec R) (signOne R J) env (.start files)).1)
          ∈ report (batchRun R jobs workers files sched fuel) ∧
        ∀ p ∈ J.looksAt, (batchRun R jobs workers files sched fuel).store p
          = (run (exec R) (signOne R J) env (.start files)).2.files p := by
    intro i
    cases hJ : jobs[i]? with
    | none => exact ⟨fun _ => chances sched 0, fun _ => ⟨0, rfl⟩, fun J h => by cases h⟩
    | some J =>
      obtain ⟨env, hQ, hres, hstore⟩ := report_alone h hw hend hJ
      refine ⟨env, hQ, fun J' hJ' => ?_⟩
      obtain rfl := Option.some.inj hJ'
      exact ⟨(hres _).mpr rfl, hstore⟩
  choose env hQ henv using hone
  refine ⟨env, hQ, eq_mapIdx (report_keys hw hend) fun i J hJ => (henv i J hJ).1,
    fun i J hJ p hp => ?_, fun p hp => ?_⟩
  · exact (henv i J hJ).2 p (mem_looksAt.mpr (Or.inr (mem_changes.mp hp)))
  · refine batch_spares (S := fun o => p ∉ o.writes) (fun _ ho => ho) fun J hJ => ?_
    exact calls_mono (fun o ho => fun hmem => hp J hJ (ho.writes p hmem)) (calls_signOne R J)

/-- **Isolated jobs do not notice each other.**  However many workers there are and however they are
scheduled, whatever fails: they come to an end; then every APK is reported once, and the reports and
the files are what signing each of them alone, from the files as they were, gives. -/
theorem batch_alone (h : Isolated jobs) (hw : 0 < workers) :
    (∃ fuel, Ended R jobs workers (batchRun R jobs workers files sched fuel)) ∧
    ∀ fuel, Ended R jobs workers (batchRun R jobs workers files sched fuel) →
      ∃ env : Nat → Nat → Chance, (∀ i k, Among (chances sched) (env i k)) ∧
        report (batchRun R jobs workers files sched fuel)
          = jobs.mapIdx (fun i J => (i, (run (exec R) (signOne R J) (env i) (.start files)).1)) ∧
        (∀ i J, jobs[i]? = some J → ∀ p ∈ J.changes,
          (batchRun R jobs workers files sched fuel).store p
            = (run (exec R) (signOne R J) (env i) (.start files)).2.files p) ∧
        ∀ p, (∀ J ∈ jobs, p ∉ J.changes) →
          (batchRun R jobs workers files sched fuel).store p = files p :=
  ⟨exists_ended R jobs workers files sched, fun _ hend => alone_of_ended h hw hend⟩

/-- **What is planned does not meet**, exactly if no APK is named twice to be signed in place and none
like the temporary file of another; and then, however many workers there are and however they are
scheduled, they come to an end, and each destination holds what signing that input alone gives. -/
theorem batch_planned {canonicalize : Path → Option Path} {createDirAll : Path → Option IoError}
    {locate : Path → Path} {a : Args} {outs : List (Option Path)} {key : Option Signer} {threads : Nat}
    (hc : Located canonicalize locate) (hplan : planOutputs canonicalize createDirAll a = .ok outs) :
    (Isolated (planJobs locate a outs key threads) ↔ a.Clear locate) ∧
    (a.Clear locate → 0 < workers →
      (∃ fuel, Ended R (planJobs locate a outs key threads) workers
        (batchRun R (planJobs locate a outs key threads) workers files sched fuel)) ∧
      ∀ fuel, Ended R (planJobs locate a outs key threads) workers
          (batchRun R (planJobs locate a outs key threads) workers files sched fuel) →
        ∃ env : Nat → Nat → Chance, (∀ i k, Among (chances sched) (env i k)) ∧
          ∀ i J, (planJobs locate a outs key threads)[i]? = some J →
            (batchRun R (planJobs locate a outs key threads) workers files sched fuel).store J.dest
              = (run (exec R) (signOne R J) (env i) (.start files)).2.files J.dest) := by
  have hiff := @isolated_planJobs_iff canonicalize createDirAll locate a outs key threads hc hplan
  refine ⟨hiff, fun hclear hw => ⟨exists_ended R _ workers files sched, fun fuel hend => ?_⟩⟩
  obtain ⟨env, hQ, -, hstore, -⟩ := alone_of_ended (hiff.mpr hclear) hw hend
  exact ⟨env, hQ, fun i J hJ => hstore i J hJ _ (mem_changes.mpr (Or.inl rfl))⟩

/-- **At every moment of a batch of isolated jobs, whatever fails, every output is as it was or
complete.** -/
theorem batch_atomic (h : Isolated jobs) {i : Nat} {J : Job} (hJ : jobs[i]? = some J) {out : Path}
    (hout : J.output = some out) (fuel : Nat) :
    (batchRun R jobs workers files sched fuel).store out = files out ∨
      ∃ k F, Fate (Among (chances sched)) J k ∧
        signSpec R J.opts J.key k ((World.start files).content J.input) = .ok F ∧
        (batchRun R jobs workers files sched fuel).store out = some F := by
  obtain rfl : out = J.dest := by rw [Job.dest, hout]; rfl
  have hp : (jobs.map (signOne R))[i]? = some (signOne R J) := by rw [List.getElem?_map, hJ]; rfl
  have hdest : J.dest ∈ looksAt jobs i := ⟨J, hJ, mem_looksAt.mpr (Or.inr (Or.inl rfl))⟩
  let I : Files → Prop := fun t => t J.dest = files J.dest ∨ ∃ F, Signs R (Among (chances sched)) J
    ((World.start files).content J.input) F ∧ t J.dest = some F
  have halong : Along (execShared R) (Among (chances sched)) (fun x => I x.2) (signOne R J)
      (none, files) :=
    along_image (execShared_share R) (s := .start files)
      (along_signOne (w := .start files) hout rfl)
  have hlook : ∀ t t' : Files, (∀ p ∈ looksAt jobs i, t p = t' p) → I t → I t' := by
    intro t t' ht hI
    simp only [I, ← ht _ hdest]
    exact hI
  rcases (@ledger_batch R jobs workers files sched fuel h).along (apart_of_isolated R h) hp hlook halong
    with hsame | ⟨F, ⟨k, hk, hspec⟩, hF⟩
  · exact Or.inl hsame
  · exact Or.inr ⟨k, F, hk, hspec, hF⟩

/-- **A key that could not be loaded changes nothing but temporary files**, isolated or not. -/
theorem batch_keyless (hkey : ∀ J ∈ jobs, J.key = none) {p : Path}
    (hp : ∀ J ∈ jobs, p ≠ tempPath J.dest) (fuel : Nat) :
    (batchRun R jobs workers files sched fuel).store p = files p := by
  refine batch_spares (S := fun o => p ∉ o.writes) (fun _ ho => ho) fun J hJ => ?_
  refine calls_mono (fun o ho hw => ?_) (calls_signOne_keyless (hkey J hJ))
  exact hp J hJ (List.mem_singleton.mp (ho.writes p hw))

end Batch

/-! ### Batches that agree -/

def Job.withThreads (n : Nat) (J : Job) : Job := { J with threads := n }

section Agree

variable {R : Crypto} {jobs : List Job} {workers workers' threads : Nat} {files : Files}
  {sched sched' : Nat → Nat × Chance} {fuel fuel' i : Nat} {J : Job}

theorem isolated_withThreads (h : Isolated jobs) : Isolated (jobs.map (Job.withThreads threads)) := by
  intro i j K L hK hL hij p hp
  rw [List.getElem?_map] at hK hL
  obtain ⟨K₀, hK₀, rfl⟩ := Option.map_eq_some_iff.mp hK
  obtain ⟨L₀, hL₀, rfl⟩ := Option.map_eq_some_iff.mp hL
  exact h i j K₀ L₀ hK₀ hL₀ hij p hp

theorem Fate.mono {Q Q' : Chance → Prop} {k : Luck} (h : Fate Q J k) (hQ : ∀ c, Q c → Q' c) :
    Fate Q' J k := by
  refine ⟨h.access, ?_, fun hq => h.quiet fun c hc => hq c (hQ c hc)⟩
  obtain ⟨c, c', hc, hc', hseeds⟩ := h.seeds
  exact ⟨c, c', hQ c hc, hQ c' hc', hseeds⟩

/-- **What a batch of isolated jobs gives does not depend on the number of workers and of threads,
nor on the schedule**: as long as nothing fails, in two batches the same APKs are signed, to the same
files. -/
theorem batch_agree (h : Isolated jobs) (hw : 0 < workers) (hw' : 0 < workers')
    (hcalm : ∀ k, (chances sched k).Calm) (hcalm' : ∀ k, (chances sched' k).Calm)
    (hsign : ∀ J ∈ jobs, SameSignatures J.key (chances sched) (chances sched'))
    (hend : Ended R jobs workers (batchRun R jobs workers files sched fuel))
    (hend' : Ended R (jobs.map (Job.withThreads threads)) workers'
      (batchRun R (jobs.map (Job.withThreads threads)) workers' files sched' fuel'))
    (hJ : jobs[i]? = some J) :
    ((i, .ok ()) ∈ report (batchRun R jobs workers files sched fuel) ↔
      (i, .ok ()) ∈ report (batchRun R (jobs.map (Job.withThreads threads)) workers' files sched' fuel')) ∧
    ((i, .ok ()) ∈ report (batchRun R jobs workers files sched fuel) →
      ∃ F, (batchRun R jobs workers files sched fuel).store J.dest = some F ∧
        (batchRun R (jobs.map (Job.withThreads threads)) workers' files sched' fuel').store J.dest
          = some F) := by
  have hJ' : (jobs.map (Job.withThreads threads))[i]? = some (J.withThreads threads) := by
    rw [List.getElem?_map, hJ]
    rfl
  obtain ⟨env, hQ, hres, hstore⟩ := report_alone h hw hend hJ
  obtain ⟨env', hQ', hres', hstore'⟩ := report_alone (isolated_withThreads h) hw' hend' hJ'
  have hmem := List.mem_of_getElem? hJ
  have hc : ∀ k, (env k).Calm := fun k => by
    obtain ⟨m, hm⟩ := hQ k
    exact hm ▸ hcalm m
  have hc' : ∀ k, (env' k).Calm := fun k => by
    obtain ⟨m, hm⟩ := hQ' k
    exact hm ▸ hcalm' m
  have hs : SameSignatures J.key env env' := by
    intro s hkey a b v
    obtain ⟨m, hm⟩ := hQ a
    obtain ⟨m', hm'⟩ := hQ' b
    rw [hm, hm']
    exact hsign J hmem s hkey m m' v
  have hmatched : Matched J (J.withThreads threads) (.start files) (.start files) :=
    ⟨rfl, rfl, rfl, rfl⟩
  have hdest : J.dest ∈ J.looksAt := mem_looksAt.mpr (Or.inr (Or.inl rfl))
  rw [hres, hres']
  have hto : (run (exec R) (signOne R J) env (.start files)).1 = .ok () → _ := fun hok =>
    ok_of_ok hc hc' hmatched hs hok
  refine ⟨⟨fun hok => (hto hok).1, fun hok => ?_⟩, fun hok => ?_⟩
  · exact (ok_of_ok hc' hc hmatched.symm hs.symm hok).1
  · obtain ⟨hok', hcontent⟩ := hto hok
    obtain ⟨_, F, -, -, hF⟩ := (finished_of_run hok).file
    obtain ⟨_, F', -, -, hF'⟩ := (finished_of_run hok').file
    refine ⟨F, (hstore _ hdest).trans hF, ?_⟩
    rw [World.content, World.content, hF, hF'] at hcontent
    obtain rfl : F' = F := hcontent
    exact (hstore' _ hdest).trans hF'

end Agree

/-! ### The program -/

/-- Why the program ends with an error. -/
inductive RunError
  | args (e : ArgsError)
  | v1 -- "v1 (JAR) signing is not implemented. …"
  | nothingToDo -- "nothing to do: both --v2-signing-enabled and --v3-signing-enabled are false"
  | plan (e : PlanError)
  | key (e : String)
  | failed (failed n : Nat) -- "{failed} of {n} APK(s) failed"

/-- What the program is run in. -/
structure Setting where
  canonicalize : Path → Option Path
  locate : Path → Path -- Where a path leads.
  createDirAll : Path → Option IoError
  loadSigner : KeySource → Except String Signer -- `load_signer`.
  magic : String → Option Bytes -- The first four bytes of a file.
  cores : Nat -- `physical_cores`.

/-- Whether it is worth signing while the key is loaded. -/
def slowToLoad (S : Setting) : KeySource → Bool
  | .files _ _ => false
  | .keystore ks _ _ _ => (S.magic ks).any fun b => decide (Keys.detect b = .pkcs12)

def Args.workers (a : Args) (cores : Nat) : Nat :=
  if a.inputs.length = 1 then 1 else max (min (a.jobs.getD cores) a.inputs.length) 1

def Args.threadsEach (a : Args) (cores : Nat) : Nat :=
  a.threads.getD (max (cores / a.workers cores) 1)

structure Prepared where
  args : Args
  key : Except String Signer
  jobs : List Job
  workers : Nat

/-- `run`, up to there.  If the key is there before the workers start and could not be loaded, they
do not start. -/
def prepare (S : Setting) (argv : List String) : Except RunError Prepared := do
  let a ← (parseArgs argv).mapError .args
  if a.v1 = true then .error .v1
  else if a.opts.v2 = false ∧ a.opts.v3 = false then .error .nothingToDo
  else do
    let outs ← (planOutputs S.canonicalize S.createDirAll a).mapError .plan
    let key := S.loadSigner a.keysrc
    match key, slowToLoad S a.keysrc with
    | .error e, false => .error (.key e)
    | _, _ =>
      .ok ⟨a, key, planJobs S.locate a outs key.toOption (a.threadsEach S.cores), a.workers S.cores⟩

/-- `run`, from where the workers have ended. -/
def finish (X : Prepared) (s : Batch) : Except RunError Unit :=
  match X.key with
  | .error e => .error (.key e)
  | .ok _ =>
    let failed := (report s).countP fun x => !x.2.isOk
    if 0 < failed then .error (.failed failed X.args.inputs.length) else .ok ()

section Program

variable {R : Crypto} {S : Setting} {argv : List String} {X : Prepared} {files : Files}
  {sched : Nat → Nat × Chance} {fuel : Nat} {s : Batch}

theorem finish_eq_ok_iff :
    finish X s = .ok () ↔ (∃ signer, X.key = .ok signer) ∧ ∀ x ∈ report s, x.2 = .ok () := by
  rw [finish]
  cases hkey : X.key with
  | error e => simp
  | ok signer =>
    have hall : (report s).countP (fun x => !x.2.isOk) = 0 ↔ ∀ x ∈ report s, x.2 = .ok () := by
      rw [List.countP_eq_zero]
      refine forall₂_congr fun x _ => ?_
      cases x.2 with
      | ok u => simp [Except.isOk, Except.toBool]
      | error e => simp [Except.isOk, Except.toBool]
    simp only
    split
    · rename_i hpos
      exact iff_of_false (by simp) fun h => absurd (hall.mpr h.2) (Nat.ne_of_gt hpos)
    · rename_i hzero
      exact iff_of_true rfl ⟨⟨signer, rfl⟩, hall.mp (Nat.eq_zero_of_not_pos hzero)⟩

theorem prepare_eq_ok (h : prepare S argv = .ok X) :
    ∃ outs, planOutputs S.canonicalize S.createDirAll X.args = .ok outs ∧
      X.key = S.loadSigner X.args.keysrc ∧ 0 < X.workers ∧
      X.jobs = planJobs S.locate X.args outs X.key.toOption (X.args.threadsEach S.cores) := by
  have hworkers : ∀ (a : Args) (cores : Nat), 0 < a.workers cores := by
    intro a cores
    rw [Args.workers]
    split
    · exact Nat.one_pos
    · omega
  rw [prepare, bind_eq_ok] at h
  obtain ⟨a, -, h⟩ := h
  split at h
  · cases h
  · split at h
    · cases h
    · rw [bind_eq_ok] at h
      obtain ⟨outs, houts, h⟩ := h
      have hplan : planOutputs S.canonicalize S.createDirAll a = .ok outs := by
        cases hp : planOutputs S.canonicalize S.createDirAll a with
        | ok outs' =>
          rw [hp] at houts
          rw [Except.ok.inj houts]
        | error e =>
          rw [hp] at houts
          cases houts
      simp only at h
      split at h
      · cases h
      · obtain rfl := Except.ok.inj h
        exact ⟨outs, hplan, rfl, hworkers a S.cores, rfl⟩

theorem like_of_prepare (h : prepare S argv = .ok X) {J : Job} (hJ : J ∈ X.jobs) :
    J.opts = X.args.opts ∧ J.key = X.key.toOption := by
  obtain ⟨outs, -, -, -, hjobs⟩ := prepare_eq_ok h
  rw [hjobs, planJobs] at hJ
  obtain ⟨i, hi, rfl⟩ := List.getElem_of_mem hJ
  rw [List.getElem_zipWith]
  exact ⟨rfl, rfl⟩

theorem finish_ok (hprep : prepare S argv = .ok X) (hiso : Isolated X.jobs)
    (hend : Ended R X.jobs X.workers (batchRun R X.jobs X.workers files sched fuel))
    (hcalm : ∀ k, (chances sched k).Calm) (hfound : ∀ J ∈ X.jobs, files J.input ≠ none)
    (hapart : ∀ J ∈ X.jobs, tempPath J.dest ≠ J.input)
    (hspec : ∃ signer, S.loadSigner X.args.keysrc = .ok signer ∧ ∀ J ∈ X.jobs, ∀ seeds, ∃ F,
      signSpec R X.args.opts (some signer) ⟨.apart, fun _ _ => none, seeds⟩
        ((World.start files).content J.input) = .ok F) :
    finish X (batchRun R X.jobs X.workers files sched fuel) = .ok () := by
  obtain ⟨outs, -, hkey, hw, -⟩ := prepare_eq_ok hprep
  obtain ⟨signer, hsigner, hspec⟩ := hspec
  refine finish_eq_ok_iff.mpr ⟨⟨signer, hkey.trans hsigner⟩, fun x hx => ?_⟩
  have hlt : x.1 < X.jobs.length := by
    rw [← List.mem_range, ← report_keys hw hend]
    exact List.mem_map_of_mem hx
  have hi : X.jobs[x.1]? = some X.jobs[x.1] := List.getElem?_eq_getElem hlt
  have hJ := List.mem_of_getElem? hi
  obtain ⟨hopts, hJkey⟩ := like_of_prepare hprep hJ
  obtain ⟨env, hQ, hres, -⟩ := report_alone hiso hw hend hi
  rw [← (hres x.2).mp hx]
  refine ok_of_signSpec (fun k => ?_) (hfound _ hJ) (hapart _ hJ) fun seeds => ?_
  · obtain ⟨m, hm⟩ := hQ k
    exact hm ▸ hcalm m
  · rw [hopts, hJkey, hkey, hsigner]
    exact hspec _ hJ seeds

/-- **If the program ends with success, every APK is signed**: each destination holds the signed
APK of its input, no temporary file is left next to an output, and no other file has changed.  And
if every APK can be signed and nothing fails, the program ends with success. -/
theorem run_signs (hc : Located S.canonicalize S.locate) (hprep : prepare S argv = .ok X)
    (hiso : Isolated X.jobs)
    (hend : Ended R X.jobs X.workers (batchRun R X.jobs X.workers files sched fuel)) :
    (finish X (batchRun R X.jobs X.workers files sched fuel) = .ok () →
      X.jobs.map (fun J => (J.input, J.dest))
          = X.args.inputs.map (fun input =>
            (S.locate (Path.parse input), S.locate (X.args.dest input))) ∧
      (∀ J ∈ X.jobs, ∃ k F signer C B D E, Fate (Among (chances sched)) J k ∧
        S.loadSigner X.args.keysrc = .ok signer ∧
        signSpec R X.args.opts (some signer) k ((World.start files).content J.input) = .ok F ∧
        (batchRun R X.jobs X.workers files sched fuel).store J.dest = some F ∧
        Signed R X.args.opts signer F C B D E ∧
        (J.output.isSome →
          (batchRun R X.jobs X.workers files sched fuel).store (tempPath J.dest) = none)) ∧
      ∀ p, (∀ J ∈ X.jobs, p ∉ J.changes) →
        (batchRun R X.jobs X.workers files sched fuel).store p = files p) ∧
    ((∀ k, (chances sched k).Calm) → (∀ J ∈ X.jobs, files J.input ≠ none) →
      (∀ J ∈ X.jobs, tempPath J.dest ≠ J.input) →
      (∃ signer, S.loadSigner X.args.keysrc = .ok signer ∧ ∀ J ∈ X.jobs, ∀ seeds, ∃ F,
        signSpec R X.args.opts (some signer) ⟨.apart, fun _ _ => none, seeds⟩
          ((World.start files).content J.input) = .ok F) →
      finish X (batchRun R X.jobs X.workers files sched fuel) = .ok ()) := by
  obtain ⟨outs, hplan, hkey, hw, hjobs⟩ := prepare_eq_ok hprep
  refine ⟨fun hok => ⟨?_, fun J hJ => ?_, fun p hp => ?_⟩, fun hcalm hfound hapart hspec => ?_⟩
  · rw [hjobs]
    exact planJobs_eq hc hplan
  · obtain ⟨⟨signer, hsigner⟩, hall⟩ := finish_eq_ok_iff.mp hok
    obtain ⟨hopts, hJkey⟩ := like_of_prepare hprep hJ
    obtain ⟨i, hi⟩ := List.getElem?_of_mem hJ
    obtain ⟨env, hQ, hres, hstore⟩ := report_alone hiso hw hend hi
    have hrun := hall _ ((hres _).mpr rfl)
    have hfin := finished_of_run hrun
    obtain ⟨k, F, hk, hspec, hF⟩ := hfin.file
    obtain ⟨signer', C, B, D, E, hsome, hsigned⟩ := signed_of_signSpec hspec
    have hsame : J.key = some signer := by rw [hJkey, hsigner]; rfl
    obtain rfl : signer = signer' := Option.some.inj (hsame.symm.trans hsome)
    rw [hopts] at hsigned
    rw [hopts, hsame] at hspec
    refine ⟨k, F, signer, C, B, D, E, hk.mono fun c => ?_, hkey ▸ hsigner, hspec, ?_, hsigned,
      fun hout => ?_⟩
    · rintro ⟨m, rfl⟩
      exact hQ m
    · exact (hstore _ (mem_looksAt.mpr (Or.inr (Or.inl rfl)))).trans hF
    · exact (hstore _ (mem_looksAt.mpr (Or.inr (Or.inr rfl)))).trans (hfin.gone hout)
  · refine batch_spares (S := fun o => p ∉ o.writes) (fun _ ho => ho) fun J hJ => ?_
    exact calls_mono (fun o ho => fun hmem => hp J hJ (ho.writes p hmem)) (calls_signOne R J)
  · exact finish_ok hprep hiso hend hcalm hfound hapart hspec

end Program

/-! ### Two APKs -/

/-- One is signed into another file and one in place. -/
def twoJobs : List Job := [exampleJob, { exampleInPlace with input := [.normal (ascii "b.apk")] }]

def twoFiles : Files := fun p =>
  if p = exampleJob.input ∨ p = [.normal (ascii "b.apk")] then some mixedApk else none

theorem isolated_twoJobs : Isolated twoJobs := isolated_pair (by decide) (by decide)

/-- Nothing fails, and the workers take turns. -/
def turns (k : Nat) : Nat × Chance := (k, calmChance)

/-- The workers take turns, and from the twentieth operation on everything fails. -/
def failingTurns (k : Nat) : Nat × Chance := (k, if k < 20 then calmChance else failingChance)

theorem batch_alone_two : ∃ fuel, ∃ env : Nat → Nat → Chance,
    report (batchRun sha256Crypto twoJobs 2 twoFiles failingTurns fuel)
      = twoJobs.mapIdx fun i J => (i, (run (exec sha256Crypto) (signOne sha256Crypto J) (env i)
        (.start twoFiles)).1) := by
  generalize sha256Crypto = R
  obtain ⟨⟨fuel, hend⟩, hall⟩ :=
    @batch_alone R twoJobs 2 twoFiles failingTurns isolated_twoJobs (by decide)
  obtain ⟨env, -, hreport, -⟩ := hall fuel hend
  exact ⟨fuel, env, hreport⟩

/-- Two APKs that go into one directory. -/
theorem batch_planned_two : ∃ outs fuel,
    planOutputs canonicalizeFromRoot (fun _ => none) (twoArgs "a/x.apk" "./b/y.apk" (some "out")) = .ok outs ∧
    Ended sha256Crypto (planJobs fromRoot (twoArgs "a/x.apk" "./b/y.apk" (some "out")) outs none 1) 2
      (batchRun sha256Crypto (planJobs fromRoot (twoArgs "a/x.apk" "./b/y.apk" (some "out")) outs none 1) 2
        twoFiles failingTurns fuel) := by
  generalize sha256Crypto = R
  have hplan : ∃ outs, planOutputs canonicalizeFromRoot (fun _ => none)
      (twoArgs "a/x.apk" "./b/y.apk" (some "out")) = .ok outs := ⟨_, rfl⟩
  obtain ⟨outs, hplan⟩ := hplan
  obtain ⟨⟨fuel, hend⟩, -⟩ := (@batch_planned R 2 twoFiles failingTurns canonicalizeFromRoot
    (fun _ => none) fromRoot _ outs none 1 located_fromRoot hplan).2
    ⟨fun _ h => (by cases h), by decide⟩ (by decide)
  exact ⟨outs, fuel, hplan, hend⟩

def twiceCommand : List String :=
  ["sign", "--key", "key.pk8", "--cert", "cert.pem", "x.apk", "x.apk"]

/-- An APK that is named twice is accepted, and both jobs write to it. -/
theorem batch_planned_twice : ∃ a outs, parseArgs twiceCommand = .ok a ∧
    planOutputs canonicalizeFromRoot (fun _ => none) a = .ok outs ∧
    ∃ J J' : Job, (planJobs fromRoot a outs none 1)[0]? = some J ∧
      (planJobs fromRoot a outs none 1)[1]? = some J' ∧ J.dest ∈ J.changes ∧ J.dest ∈ J'.looksAt := by
  refine ⟨twoArgs "x.apk" "x.apk" none, _, rfl, rfl, _, _, rfl, rfl, ?_, ?_⟩
  · exact mem_changes.mpr (Or.inl rfl)
  · exact mem_looksAt.mpr (Or.inl rfl)

theorem batch_atomic_two : twoFiles exampleJob.dest = none ∧ ∀ fuel,
    (batchRun sha256Crypto twoJobs 2 twoFiles failingTurns fuel).store exampleJob.dest = none ∨
      ∃ k F, Fate (Among (chances failingTurns)) exampleJob k ∧
        signSpec sha256Crypto exampleJob.opts exampleJob.key k mixedApk = .ok F ∧
        (batchRun sha256Crypto twoJobs 2 twoFiles failingTurns fuel).store exampleJob.dest = some F := by
  generalize sha256Crypto = R
  refine ⟨by decide, fun fuel => ?_⟩
  exact @batch_atomic R twoJobs 2 twoFiles failingTurns isolated_twoJobs 0 exampleJob rfl _ rfl fuel

def keylessJobs : List Job := twoJobs.map fun J => { J with key := none }

/-- Without a key the workers leave no output, and what is signed in place stays as it is. -/
theorem batch_keyless_two :
    (∀ fuel, (batchRun sha256Crypto keylessJobs 2 twoFiles failingTurns fuel).store exampleJob.dest
      = none) ∧
    ∀ fuel, (batchRun sha256Crypto keylessJobs 2 twoFiles failingTurns fuel).store
      [.normal (ascii "b.apk")] = some mixedApk := by
  generalize sha256Crypto = R
  have hkey : ∀ J ∈ keylessJobs, J.key = none := by
    intro J hJ
    obtain ⟨_, -, rfl⟩ := List.mem_map.mp hJ
    rfl
  exact ⟨@batch_keyless R _ 2 twoFiles failingTurns hkey exampleJob.dest (by decide),
    @batch_keyless R _ 2 twoFiles failingTurns hkey [.normal (ascii "b.apk")] (by decide)⟩

theorem batch_agree_two : ∃ fuel fuel',
    (0, .ok ()) ∈ report (batchRun sha256Crypto twoJobs 1 twoFiles turns fuel) ↔
    (0, .ok ()) ∈ report (batchRun sha256Crypto (twoJobs.map (Job.withThreads 8)) 2 twoFiles turns
      fuel') := by
  generalize sha256Crypto = R
  obtain ⟨fuel, hend⟩ := exists_ended R twoJobs 1 twoFiles turns
  obtain ⟨fuel', hend'⟩ := exists_ended R (twoJobs.map (Job.withThreads 8)) 2 twoFiles turns
  have hcalm : ∀ k, (chances turns k).Calm := fun _ => calm_calmChance
  exact ⟨fuel, fuel', (@batch_agree R twoJobs 1 2 8 twoFiles turns turns fuel fuel' 0 exampleJob
    isolated_twoJobs (by decide) (by decide) hcalm hcalm (fun J hJ s hs i j v => rfl)
    hend hend' rfl).1⟩

/-- The setting of a command that signs one APK. -/
def exampleSetting : Setting where
  canonicalize := canonicalizeFromRoot
  locate := fromRoot
  createDirAll := fun _ => none
  loadSigner := fun _ => .ok exampleSigner
  magic := fun _ => none
  cores := 4

def exampleCommand : List String :=
  ["sign", "--key", "key.pk8", "--cert", "cert.pem", "--v3-signing-enabled", "false", "--threads", "4",
    "--out", "./out.apk", "in.apk"]

def exampleArgs : Args where
  inputs := ["in.apk"]
  out := some "./out.apk"
  outDir := none
  keysrc := .files "key.pk8" "cert.pem"
  v1 := false
  jobs := none
  threads := some 4
  timing := false
  opts := ⟨true, false, .check, 16384⟩
  inputs_ne := by simp
  out_single := by simp
  out_exclusive := Or.inr rfl

def locatedJob : Job :=
  { exampleJob with
    input := [.root, .normal (ascii "in.apk")], output := some [.root, .normal (ascii "out.apk")] }

def locatedFiles : Files := fun p => if p = locatedJob.input then some mixedApk else none

def examplePrepared : Prepared := ⟨exampleArgs, .ok exampleSigner, [locatedJob], 1⟩

theorem prepare_exampleCommand : prepare exampleSetting exampleCommand = .ok examplePrepared := rfl

/-- The program signs the example. -/
theorem run_signs_mixed : ∃ fuel,
    finish examplePrepared (batchRun sha256Crypto [locatedJob] 1 locatedFiles turns fuel) = .ok () ∧
    ∃ F C B D E, (batchRun sha256Crypto [locatedJob] 1 locatedFiles turns fuel).store locatedJob.dest
        = some F ∧
      Signed sha256Crypto exampleArgs.opts exampleSigner F C B D E := by
  generalize sha256Crypto = R
  obtain ⟨fuel, hend⟩ := exists_ended R [locatedJob] 1 locatedFiles turns
  obtain ⟨hsigned, hok⟩ := @run_signs R exampleSetting exampleCommand examplePrepared locatedFiles turns
    fuel located_fromRoot prepare_exampleCommand (isolated_single locatedJob) hend
  have hone : ∀ {Q : Job → Prop}, Q locatedJob → ∀ J ∈ examplePrepared.jobs, Q J := by
    intro Q h J hJ
    rw [List.mem_singleton.mp hJ]
    exact h
  have hfin := hok (fun _ => calm_calmChance) (hone (by decide)) (hone (by decide))
    ⟨exampleSigner, rfl, hone (signSpec_mixedApk R)⟩
  obtain ⟨_, F, signer, C, B, D, E, -, hload, -, hF, hsig, -⟩ :=
    (hsigned hfin).2.1 locatedJob List.mem_cons_self
  obtain rfl : exampleSigner = signer := Except.ok.inj hload
  exact ⟨fuel, hfin, F, C, B, D, E, hF, hsig⟩

end FastSigner.Sign

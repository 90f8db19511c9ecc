import FastSigner.Align.Assemble
import FastSigner.Lib.Pool

/-!
# Producers and writer

The second half of `rewrite` writes and digests the planned output.  Producers
claim chunks from a shared counter, assemble and hash them in one of two private
buffers and send the buffer to the writer; the writer is the only thread that
touches the output file, and hands every buffer back to its producer.

The threads are actors of a `Lib.System`.  A step is a claim, taking a buffer,
assembling a chunk, sending it, or the writer's handling of one job.  The
environment may make any read and any write fail; `log` records the failures.

The threads always stop (`final_inv`).  `result_ok_iff`: the copy succeeds exactly
when nothing failed.  `result_ok`: then both the file and the digests are
complete, whatever the schedule was.
-/

namespace FastSigner.Align

open Lib Digest

/-- What the threads work on: the source file, the chunker and the number of chunks. -/
structure Copy where
  R : Crypto
  alg : Algorithm
  src : Bytes
  chunker : Chunker
  chunkCount : Nat
  producers : Nat

/-- What the environment does to one step: which reads fail, and whether the write does (and what
it leaves in the file). -/
structure Faults where
  read : (off n : Nat) → Option IoError
  write : Option (IoError × Bytes)

def Faults.none : Faults := ⟨fun _ _ => .none, .none⟩

instance : Inhabited Faults := ⟨Faults.none⟩

/-- A finished chunk on its way to the writer; `back` is the producer that gets the buffer. -/
structure Job where
  off : Nat
  len : Nat
  buf : Bytes
  back : Nat

inductive ProducerPhase
  | claim
  | take (k : Nat)
  | assemble (k : Nat) (buf : Bytes)
  | send (job : Job)
  | done
  | failed (k : Nat) (e : IoError)

structure Producer where
  phase : ProducerPhase
  spare : Option Bytes
  back : List Bytes -- Buffers that the writer handed back.
  acc : List (Nat × Bytes)

structure CopyState where
  next : Nat
  producers : List Producer
  queue : List Job
  file : Bytes
  firstErr : Option IoError
  writerDone : Bool
  log : List IoError -- The reads and writes that failed.

def ProducerPhase.finished : ProducerPhase → Bool
  | .done => true
  | .failed _ _ => true
  | _ => false

structure Effect where
  next : Nat
  producer : Producer
  sent : List Job
  failed : List IoError

/-- The end of the loop body: record the digest of chunk `k` and send the chunk off, or keep the
buffer if there is nothing to write. -/
def Producer.assembled (i next k : Nat) (failed : List IoError) (p : Producer) :
    Except IoError Assembled → Effect
  | .error e => ⟨next, { p with phase := .failed k e }, [], failed⟩
  | .ok r =>
    let acc := p.acc ++ [(k, r.digest)]
    if 0 < r.real then
      ⟨next, { p with phase := .send ⟨k * chunkSize, r.real, r.buf, i⟩, acc }, [], failed⟩
    else ⟨next, { p with phase := .claim, spare := some r.buf, acc }, [], failed⟩

def Producer.step (C : Copy) (i : Nat) (faults : Faults) (next : Nat) (p : Producer) : Effect :=
  match p.phase with
  | .claim =>
    ⟨next + 1, { p with phase := if C.chunkCount ≤ next then .done else .take next }, [], []⟩
  | .take k =>
    match p.spare, p.back with
    | some b, _ => ⟨next, { p with phase := .assemble k b, spare := none }, [], []⟩
    | none, b :: back => ⟨next, { p with phase := .assemble k b, back }, [], []⟩
    | none, [] => ⟨next, p, [], []⟩
  | .assemble k buf =>
    p.assembled i next k (C.chunker.failedRead k faults.read).toList
      (C.chunker.assembleAndHash C.R C.alg k (ReadAt.faulty C.src faults.read) buf)
  | .send job => ⟨next, { p with phase := .claim }, [job], []⟩
  | .done => ⟨next, p, [], []⟩
  | .failed _ _ => ⟨next, p, [], []⟩

def Producer.canMove (p : Producer) : Bool :=
  match p.phase with
  | .take _ => p.spare.isSome || !p.back.isEmpty
  | .done => false
  | .failed _ _ => false
  | _ => true

/-- The writer hands a buffer back. -/
def giveBack (job : Job) (producers : List Producer) : List Producer :=
  producers.modify job.back fun p => { p with back := p.back ++ [job.buf] }

/-- The writer's loop body; without a job it ends.  After the first error nothing is written any
more, but buffers still go back.  Handing the buffer back is part of the step: no other thread
sees the file in between. -/
def writerStep (faults : Faults) (s : CopyState) : CopyState :=
  match s.queue with
  | [] => { s with writerDone := true }
  | job :: queue =>
    let s := { s with queue, producers := giveBack job s.producers }
    match s.firstErr with
    | some _ => s
    | none =>
      match faults.write with
      | some (e, file) => { s with firstErr := some e, file, log := s.log ++ [e] }
      | none => { s with file := writeAt s.file job.off (job.buf.take job.len) }

/-- Producers `0, …, n - 1`, and the writer as actor `n`.  The channel closes when every producer
has returned. -/
def Copy.system (C : Copy) : System CopyState Faults where
  actors := C.producers + 1
  enabled s i :=
    match s.producers[i]? with
    | some p => p.canMove
    | none => !s.writerDone && (!s.queue.isEmpty || s.producers.all fun p => p.phase.finished)
  step s i faults :=
    match s.producers[i]? with
    | some p =>
      let r := p.step C i faults s.next
      { s with
        next := r.next, producers := s.producers.set i r.producer, queue := s.queue ++ r.sent,
        log := s.log ++ r.failed }
    | none => writerStep faults s

def Producer.new : Producer :=
  ⟨.claim, some (List.replicate chunkSize 0), [List.replicate chunkSize 0], []⟩

/-- The start: `set_len` gave the file its length. -/
def Copy.init (C : Copy) (file : Bytes) : CopyState :=
  ⟨0, List.replicate C.producers Producer.new, [], file, none, false, []⟩

def Copy.steps (C : Copy) : Nat := 5 * C.chunkCount + C.producers + 1

def ProducerPhase.error : ProducerPhase → Option IoError
  | .failed _ e => some e
  | _ => none

/-- Joining the threads: a producer's error comes before the writer's. -/
def CopyState.result (s : CopyState) : Except IoError (List (Nat × Bytes)) :=
  match s.producers.findSome? fun p => p.phase.error with
  | some e => .error e
  | none =>
    match s.firstErr with
    | some e => .error e
    | none => .ok (s.producers.flatMap Producer.acc)

/-! ### The invariant -/

def Copy.bytes (C : Copy) (k : Nat) : Bytes := C.chunker.bytes C.src k

def Copy.digest (C : Copy) (k : Nat) : Bytes :=
  hashChunk C.R C.alg [C.bytes k, List.replicate (C.chunker.zeros C.src k) 0]

def JobFor (C : Copy) (k : Nat) (job : Job) : Prop :=
  job.off = k * chunkSize ∧ job.buf.take job.len = C.bytes k

def JobOk (C : Copy) (job : Job) : Prop := job.buf.length = chunkSize ∧ ∃ k, JobFor C k job

def Written (C : Copy) (file : Bytes) (k : Nat) : Prop :=
  slice file (k * chunkSize) (k * chunkSize + chunkSize) = C.bytes k

def ProducerPhase.pending : ProducerPhase → List Job
  | .send job => [job]
  | _ => []

def ProducerPhase.held : ProducerPhase → Multiset Nat
  | .take k => {k}
  | .assemble k _ => {k}
  | .failed k _ => {k}
  | _ => 0

def ProducerPhase.weight : ProducerPhase → Nat
  | .claim => 1
  | .take _ => 5
  | .assemble _ _ => 4
  | .send _ => 3
  | .done => 0
  | .failed _ _ => 0

def ProducerPhase.needsBuffer : ProducerPhase → Bool
  | .claim => true
  | .take _ => true
  | _ => false

def Producer.keys (p : Producer) : Multiset Nat := (p.acc.map Prod.fst : List Nat)

/-- Buffers are of the right size, digests are right, and what is about to be sent is a chunk. -/
structure ProducerOk (C : Copy) (i : Nat) (p : Producer) : Prop where
  acc : ∀ x ∈ p.acc, x.2 = C.digest x.1
  spare : ∀ b ∈ p.spare, b.length = chunkSize
  back : ∀ b ∈ p.back, b.length = chunkSize
  buf : ∀ k b, p.phase = .assemble k b → b.length = chunkSize
  pending : ∀ job ∈ p.phase.pending, JobOk C job ∧ job.back = i

structure CopyInv (C : Copy) (s : CopyState) : Prop where
  producers : s.producers.length = C.producers
  ok : ∀ i p, s.producers[i]? = some p → ProducerOk C i p
  queue : ∀ job ∈ s.queue, JobOk C job ∧ job.back < C.producers
  -- What was claimed is in work, recorded, or lost with a producer that failed.
  taken : (s.producers.map fun p => p.phase.held + p.keys).sum
    = Multiset.range (min s.next C.chunkCount)
  done : ∀ p ∈ s.producers, p.phase = .done → C.chunkCount ≤ s.next
  -- What was recorded is in the file or on its way to it.
  length : s.firstErr = none → s.file.length = (output C.src C.chunker.plans).length
  written : s.firstErr = none → ∀ p ∈ s.producers, ∀ x ∈ p.acc, Written C s.file x.1 ∨
    ∃ job ∈ p.phase.pending ++ s.queue, JobFor C x.1 job
  -- A producer without a buffer gets one back.
  buffers : ∀ i p, s.producers[i]? = some p → p.phase.needsBuffer = true →
    p.spare.isSome = true ∨ p.back ≠ [] ∨ ∃ job ∈ s.queue, job.back = i
  log : s.log = [] ↔ (∀ p ∈ s.producers, p.phase.error = none) ∧ s.firstErr = none
  closed : s.writerDone = true → s.queue = [] ∧ ∀ p ∈ s.producers, p.phase.finished = true

/-! ### One step of a producer -/

/-- What a step of producer `i` respects. -/
structure ProducerStep (C : Copy) (i n : Nat) (p : Producer) (r : Effect) : Prop where
  next : r.next = n ∨ r.next = n + 1
  ledger : r.producer.phase.held + r.producer.keys
    = p.phase.held + p.keys + fresh C.chunkCount n r.next
  ok : ProducerOk C i r.producer
  done : r.producer.phase = .done → C.chunkCount ≤ r.next
  sent : ∀ job ∈ r.sent, JobOk C job ∧ job.back = i
  written : ∀ x ∈ r.producer.acc, x ∈ p.acc ∨ C.bytes x.1 = [] ∨
    ∃ job ∈ r.producer.phase.pending, JobFor C x.1 job
  pending : ∀ job ∈ p.phase.pending, job ∈ r.producer.phase.pending ++ r.sent
  buffers : r.producer.phase.needsBuffer = true → r.producer.spare.isSome = true ∨
    (∃ job ∈ r.sent, job.back = i) ∨
    (p.phase.needsBuffer = true ∧ r.producer.spare = p.spare ∧ r.producer.back = p.back)
  failed : r.failed = [] ↔ r.producer.phase.error = none
  weight : r.producer.phase.weight + r.sent.length
    < p.phase.weight + if r.next = n + 1 ∧ n < C.chunkCount then 5 else 0

section Steps

variable {C : Copy} {i next : Nat} {spare : Option Bytes} {back : List Bytes}
  {acc : List (Nat × Bytes)}

theorem fresh_same (total a : Nat) : fresh total a a = 0 := if_neg (by omega)

theorem producerStep_claim (faults : Faults) (hp : ProducerOk C i ⟨.claim, spare, back, acc⟩) :
    ProducerStep C i next ⟨.claim, spare, back, acc⟩
      (Producer.step C i faults next ⟨.claim, spare, back, acc⟩) := by
  by_cases hend : C.chunkCount ≤ next
  · have hfresh : fresh C.chunkCount next (next + 1) = 0 := if_neg (by omega)
    simp only [Producer.step, if_pos hend]
    refine ⟨Or.inr rfl, ?_, ⟨hp.acc, hp.spare, hp.back, ?_, ?_⟩, (fun _ => Nat.le_succ_of_le hend), ?_,
      fun x hx => Or.inl hx, ?_, ?_, by simp [ProducerPhase.error], ?_⟩
    · rw [hfresh, add_zero]
      rfl
    · intro k b h
      cases h
    · intro job h
      cases h
    · intro job h
      cases h
    · intro job h
      cases h
    · intro h
      cases h
    · simp only [ProducerPhase.weight, List.length_nil]
      omega
  · have hfresh : fresh C.chunkCount next (next + 1) = {next} := if_pos ⟨rfl, by omega⟩
    have hlt : next < C.chunkCount := by omega
    simp only [Producer.step, if_neg hend]
    refine ⟨Or.inr rfl, ?_, ⟨hp.acc, hp.spare, hp.back, ?_, ?_⟩, (fun h => nomatch h), ?_,
      fun x hx => Or.inl hx, ?_, fun _ => Or.inr (Or.inr ⟨rfl, rfl, rfl⟩),
      by simp [ProducerPhase.error], ?_⟩
    · rw [hfresh]
      simp only [ProducerPhase.held, Producer.keys, zero_add]
      exact add_comm _ _
    · intro k b h
      cases h
    · intro job h
      cases h
    · intro job h
      cases h
    · intro job h
      cases h
    · simp only [ProducerPhase.weight, List.length_nil, hlt, and_self, if_true]
      omega

theorem producerStep_buffer {k : Nat} {b : Bytes} {spare' : Option Bytes} {back' : List Bytes}
    (hp : ProducerOk C i ⟨.take k, spare, back, acc⟩) (hb : b.length = chunkSize)
    (hspare : ∀ b ∈ spare', b.length = chunkSize) (hback : ∀ b ∈ back', b.length = chunkSize) :
    ProducerStep C i next ⟨.take k, spare, back, acc⟩
      ⟨next, ⟨.assemble k b, spare', back', acc⟩, [], []⟩ := by
  refine ⟨Or.inl rfl, ?_, ⟨hp.acc, hspare, hback, ?_, ?_⟩, (fun h => nomatch h), ?_,
    fun x hx => Or.inl hx, ?_, (fun h => nomatch h), by simp [ProducerPhase.error], ?_⟩
  · rw [fresh_same, add_zero]
    rfl
  · intro k' b' h
    cases h
    exact hb
  · intro job h
    cases h
  · intro job h
    cases h
  · intro job h
    cases h
  · simp only [ProducerPhase.weight, List.length_nil]
    omega

theorem producerStep_take {k : Nat} (faults : Faults)
    (hp : ProducerOk C i ⟨.take k, spare, back, acc⟩)
    (hmove : Producer.canMove ⟨.take k, spare, back, acc⟩ = true) :
    ProducerStep C i next ⟨.take k, spare, back, acc⟩
      (Producer.step C i faults next ⟨.take k, spare, back, acc⟩) := by
  cases spare with
  | some b => exact producerStep_buffer hp (hp.spare b rfl) (fun b h => nomatch h) hp.back
  | none =>
    cases back with
    | nil => simp [Producer.canMove] at hmove
    | cons b back =>
      exact producerStep_buffer hp (hp.back b (List.mem_cons_self ..)) hp.spare
        (fun c hc => hp.back c (List.mem_cons_of_mem _ hc))

theorem keys_append_singleton (p : Producer) (phase : ProducerPhase) (sp : Option Bytes) (k : Nat)
    (d : Bytes) :
    Producer.keys { p with phase := phase, spare := sp, acc := p.acc ++ [(k, d)] }
      = p.keys + {k} := by
  rw [Producer.keys, Producer.keys, List.map_append, ← Multiset.coe_add]
  rfl

theorem producerStep_assemble {k : Nat} {buf : Bytes} (faults : Faults)
    (hc : ChunkerOk C.src.length C.chunker)
    (hp : ProducerOk C i ⟨.assemble k buf, spare, back, acc⟩) :
    ProducerStep C i next ⟨.assemble k buf, spare, back, acc⟩
      (Producer.step C i faults next ⟨.assemble k buf, spare, back, acc⟩) := by
  have hiff := assembleAndHash_faulty C.R C.alg k buf hc faults.read
  simp only [Producer.step]
  cases hr : C.chunker.assembleAndHash C.R C.alg k (ReadAt.faulty C.src faults.read) buf with
  | error e =>
    rw [Producer.assembled]
    have hfail : C.chunker.failedRead k faults.read ≠ none := by
      intro hnone
      obtain ⟨r, hr'⟩ := hiff.mpr hnone
      rw [hr] at hr'
      cases hr'
    refine ⟨Or.inl rfl, ?_, ⟨hp.acc, hp.spare, hp.back, ?_, ?_⟩, (fun h => nomatch h), ?_,
      fun x hx => Or.inl hx, ?_, (fun h => nomatch h), by simp [ProducerPhase.error, hfail], ?_⟩
    · rw [fresh_same, add_zero]
      rfl
    · intro k' b' h
      cases h
    · intro job h
      cases h
    · intro job h
      cases h
    · intro job h
      cases h
    · simp only [ProducerPhase.weight, List.length_nil]
      omega
  | ok r =>
    have hread := hiff.mp ⟨r, hr⟩
    obtain ⟨hreal, hlen, htake, hdigest⟩ := assembleAndHash_eq_ok
      (ReadAt.honest_faulty C.src faults.read) hc (hp.buf k buf rfl) hr
    have hacc : ∀ x ∈ acc ++ [(k, r.digest)], x.2 = C.digest x.1 := by
      intro x hx
      rcases List.mem_append.mp hx with hx | hx
      · exact hp.acc x hx
      · rw [List.mem_singleton.mp hx, hdigest]
        rfl
    have hfor : JobFor C k ⟨k * chunkSize, r.real, r.buf, i⟩ := ⟨rfl, htake⟩
    rw [Producer.assembled]
    by_cases hpos : 0 < r.real
    · simp only [if_pos hpos]
      refine ⟨Or.inl rfl, ?_, ⟨hacc, hp.spare, hp.back, ?_, ?_⟩, (fun h => nomatch h), ?_, ?_, ?_,
        (fun h => nomatch h), by simp [ProducerPhase.error, hread], ?_⟩
      · rw [fresh_same, add_zero]
        have := keys_append_singleton ⟨.assemble k buf, spare, back, acc⟩
          (.send ⟨k * chunkSize, r.real, r.buf, i⟩) spare k r.digest
        simp only [ProducerPhase.held, zero_add] at this ⊢
        rw [this, add_comm]
      · intro k' b' h
        cases h
      · intro job h
        rw [List.mem_singleton.mp h]
        exact ⟨⟨hlen, k, hfor⟩, rfl⟩
      · intro job h
        cases h
      · intro x hx
        rcases List.mem_append.mp hx with hx | hx
        · exact Or.inl hx
        · rw [List.mem_singleton.mp hx]
          exact Or.inr (Or.inr ⟨_, List.mem_singleton.mpr rfl, hfor⟩)
      · intro job h
        cases h
      · simp only [ProducerPhase.weight, List.length_nil]
        omega
    · simp only [if_neg hpos]
      have hnil : C.bytes k = [] := List.eq_nil_of_length_eq_zero (by
        rw [Copy.bytes]
        omega)
      refine ⟨Or.inl rfl, ?_, ⟨hacc, ?_, hp.back, ?_, ?_⟩, (fun h => nomatch h), ?_, ?_, ?_,
        fun _ => Or.inl rfl, by simp [ProducerPhase.error, hread], ?_⟩
      · rw [fresh_same, add_zero]
        have := keys_append_singleton ⟨.assemble k buf, spare, back, acc⟩ .claim (some r.buf)
          k r.digest
        simp only [ProducerPhase.held, zero_add] at this ⊢
        rw [this, add_comm]
      · rintro b ⟨⟩
        exact hlen
      · intro k' b' h
        cases h
      · intro job h
        cases h
      · intro job h
        cases h
      · intro x hx
        rcases List.mem_append.mp hx with hx | hx
        · exact Or.inl hx
        · rw [List.mem_singleton.mp hx]
          exact Or.inr (Or.inl hnil)
      · intro job h
        cases h
      · simp only [ProducerPhase.weight, List.length_nil]
        omega

theorem producerStep_send {job : Job} (faults : Faults)
    (hp : ProducerOk C i ⟨.send job, spare, back, acc⟩) :
    ProducerStep C i next ⟨.send job, spare, back, acc⟩
      (Producer.step C i faults next ⟨.send job, spare, back, acc⟩) := by
  obtain ⟨hjob, hback⟩ := hp.pending job (List.mem_singleton.mpr rfl)
  simp only [Producer.step]
  refine ⟨Or.inl rfl, ?_, ⟨hp.acc, hp.spare, hp.back, ?_, ?_⟩, (fun h => nomatch h), ?_,
    fun x hx => Or.inl hx, ?_, fun _ => Or.inr (Or.inl ⟨job, List.mem_singleton.mpr rfl, hback⟩),
    by simp [ProducerPhase.error], ?_⟩
  · rw [fresh_same, add_zero]
    rfl
  · intro k' b' h
    cases h
  · intro job' h
    cases h
  · intro job' h
    rw [List.mem_singleton.mp h]
    exact ⟨hjob, hback⟩
  · intro job' h
    exact h
  · simp only [ProducerPhase.weight, List.length_singleton]
    omega

/-- **Step lemma of a producer.** -/
theorem producerStep {p : Producer} (faults : Faults) (hc : ChunkerOk C.src.length C.chunker)
    (hp : ProducerOk C i p) (hmove : p.canMove = true) :
    ProducerStep C i next p (p.step C i faults next) := by
  obtain ⟨phase, spare, back, acc⟩ := p
  cases phase with
  | claim => exact producerStep_claim faults hp
  | take k => exact producerStep_take faults hp hmove
  | assemble k buf => exact producerStep_assemble faults hc hp
  | send job => exact producerStep_send faults hp
  | done => simp [Producer.canMove] at hmove
  | failed k e => simp [Producer.canMove] at hmove

end Steps

/-! ### Steps of the system -/

section Invariant

variable {C : Copy} {s : CopyState}

theorem bytes_eq (C : Copy) (k : Nat) :
    C.bytes k = slice (output C.src C.chunker.plans) (k * chunkSize) (k * chunkSize + chunkSize) :=
  rfl

theorem written_of_nil {file : Bytes} {k : Nat}
    (hlen : file.length = (output C.src C.chunker.plans).length) (h : C.bytes k = []) :
    Written C file k := by
  have hz := congrArg List.length h
  rw [bytes_eq, length_slice, List.length_nil] at hz
  rw [Written, h]
  apply List.eq_nil_of_length_eq_zero
  rw [length_slice, hlen]
  exact hz

theorem JobFor.patchOf {k : Nat} {job : Job} (h : JobFor C k job) (hne : C.bytes k ≠ []) :
    PatchOf (output C.src C.chunker.plans) (job.off, job.buf.take job.len) := by
  obtain ⟨hoff, htake⟩ := h
  have hlen : (C.bytes k).length = min (k * chunkSize + chunkSize)
      (output C.src C.chunker.plans).length - k * chunkSize := by rw [bytes_eq, length_slice]
  have hpos : 0 < (C.bytes k).length := List.length_pos_iff.mpr hne
  rw [hoff, htake]
  refine ⟨by simp only; omega, ?_⟩
  simp only
  nth_rewrite 1 [bytes_eq]
  apply List.ext_getElem?
  intro x
  rw [getElem?_slice, getElem?_slice]
  by_cases hx : k * chunkSize + x < k * chunkSize + (C.bytes k).length
  · rw [if_pos hx, if_pos (by omega)]
  · rw [if_neg hx]
    split
    · exact List.getElem?_eq_none (by omega)
    · rfl

theorem getElem?_writeJob {file : Bytes} {k : Nat} {job : Job}
    (hlen : file.length = (output C.src C.chunker.plans).length) (h : JobFor C k job) (x : Nat) :
    (writeAt file job.off (job.buf.take job.len))[x]?
      = if k * chunkSize ≤ x ∧ x < k * chunkSize + (C.bytes k).length
        then (output C.src C.chunker.plans)[x]? else file[x]? := by
  by_cases hne : C.bytes k = []
  · rw [h.2, hne, writeAt_nil, List.length_nil, if_neg (by omega)]
  · have hp := h.patchOf hne
    have hfits := hp.1
    simp only at hfits
    have hpatch := getElem?_patch_of_patchOf hlen hp x
    rw [writeAt_eq (by omega)]
    simp only [patch] at hpatch
    rw [hpatch, h.1, h.2]

theorem length_writeJob {file : Bytes} {k : Nat} {job : Job}
    (hlen : file.length = (output C.src C.chunker.plans).length) (h : JobFor C k job) :
    (writeAt file job.off (job.buf.take job.len)).length = file.length := by
  by_cases hne : C.bytes k = []
  · rw [h.2, hne, writeAt_nil]
  · have hfits := (h.patchOf hne).1
    simp only at hfits
    have hpatch := length_patch (l := file) (v := job.buf.take job.len) (i := job.off) (by omega)
    rw [writeAt_eq (by omega)]
    exact hpatch

theorem Written.write {file : Bytes} {k k' : Nat} {job : Job}
    (hlen : file.length = (output C.src C.chunker.plans).length) (h : JobFor C k job)
    (hw : Written C file k') : Written C (writeAt file job.off (job.buf.take job.len)) k' := by
  rw [Written, bytes_eq] at hw ⊢
  apply slice_congr
  intro x h1 h2
  rw [getElem?_writeJob hlen h]
  split
  · rfl
  · exact getElem?_eq_of_slice_eq hw h1 h2

theorem written_write {file : Bytes} {k : Nat} {job : Job}
    (hlen : file.length = (output C.src C.chunker.plans).length) (h : JobFor C k job) :
    Written C (writeAt file job.off (job.buf.take job.len)) k := by
  have hbytes : (C.bytes k).length = min (k * chunkSize + chunkSize)
      (output C.src C.chunker.plans).length - k * chunkSize := by rw [bytes_eq, length_slice]
  rw [Written, bytes_eq]
  apply slice_congr
  intro x h1 h2
  rw [getElem?_writeJob hlen h]
  split
  · rfl
  · rw [List.getElem?_eq_none (by omega), List.getElem?_eq_none (by omega)]

theorem getElem?_giveBack {job : Job} {ps : List Producer} {i : Nat} {q : Producer}
    (h : (giveBack job ps)[i]? = some q) :
    ∃ p, ps[i]? = some p ∧ q.phase = p.phase ∧ q.acc = p.acc ∧ q.spare = p.spare ∧
      ((i ≠ job.back ∧ q.back = p.back) ∨ (i = job.back ∧ q.back = p.back ++ [job.buf])) := by
  rw [giveBack, List.getElem?_modify] at h
  cases hp : ps[i]? with
  | none => simp [hp] at h
  | some p =>
    rw [hp] at h
    by_cases hi : job.back = i
    · simp only [hi, if_true, Option.map_eq_map, Option.map_some, Option.some.injEq] at h
      subst h
      exact ⟨p, rfl, rfl, rfl, rfl, Or.inr ⟨hi.symm, rfl⟩⟩
    · simp only [hi, if_false, Option.map_eq_map, Option.map_some, Option.some.injEq] at h
      subst h
      exact ⟨p, rfl, rfl, rfl, rfl, Or.inl ⟨fun he => hi he.symm, rfl⟩⟩

theorem mem_giveBack {job : Job} {ps : List Producer} {q : Producer} (h : q ∈ giveBack job ps) :
    ∃ p ∈ ps, q.phase = p.phase ∧ q.acc = p.acc := by
  obtain ⟨i, hi⟩ := List.mem_iff_getElem?.mp h
  obtain ⟨p, hp, hphase, hacc, -, -⟩ := getElem?_giveBack hi
  exact ⟨p, List.mem_of_getElem? hp, hphase, hacc⟩

theorem map_giveBack {M : Type*} (f : Producer → M)
    (hf : ∀ (p : Producer) (b : List Bytes), f { p with back := b } = f p) (job : Job)
    (ps : List Producer) : (giveBack job ps).map f = ps.map f := by
  apply List.ext_getElem?
  intro i
  rw [List.getElem?_map, List.getElem?_map, giveBack, List.getElem?_modify]
  cases ps[i]? with
  | none => rfl
  | some p =>
    by_cases hi : job.back = i
    · simp [hi, hf]
    · simp [hi]

theorem copyInv_init (C : Copy) {file : Bytes}
    (hlen : file.length = (output C.src C.chunker.plans).length) : CopyInv C (C.init file) := by
  have hnew : ∀ p ∈ List.replicate C.producers Producer.new, p = Producer.new :=
    fun p hp => (List.mem_replicate.mp hp).2
  have hget : ∀ i p, (List.replicate C.producers Producer.new)[i]? = some p → p = Producer.new :=
    fun i p hp => hnew p (List.mem_of_getElem? hp)
  refine ⟨List.length_replicate, ?_, ?_, ?_, ?_, fun _ => hlen, ?_, ?_, ?_, ?_⟩
  · intro i p hp
    rw [hget i p hp]
    refine ⟨by simp [Producer.new], ?_, ?_, by simp [Producer.new],
      by simp [Producer.new, ProducerPhase.pending]⟩
    · intro b hb
      rw [← Option.some.inj hb, List.length_replicate]
    · intro b hb
      rw [List.mem_singleton.mp hb, List.length_replicate]
  · intro job hjob
    cases hjob
  · rw [Copy.init, sum_map_eq_zero]
    · simp
    · intro p hp
      rw [hnew p hp]
      rfl
  · intro p hp hdone
    rw [hnew p hp] at hdone
    cases hdone
  · intro _ p hp x hx
    rw [hnew p hp] at hx
    cases hx
  · intro i p hp _
    rw [hget i p hp]
    exact Or.inl rfl
  · constructor
    · intro _
      refine ⟨fun p hp => ?_, rfl⟩
      rw [hnew p hp]
      rfl
    · intro _
      rfl
  · intro h
    cases h

/-- **The invariant survives a step of a producer.** -/
theorem copyInv_producer {i : Nat} {p : Producer} {r : Effect} (hs : CopyInv C s)
    (hp : s.producers[i]? = some p) (hmove : p.canMove = true)
    (hr : ProducerStep C i s.next p r) :
    CopyInv C { s with
      next := r.next, producers := s.producers.set i r.producer, queue := s.queue ++ r.sent,
      log := s.log ++ r.failed } := by
  have hi : i < s.producers.length := (List.getElem?_eq_some_iff.mp hp).1
  have hmem : p ∈ s.producers := List.mem_of_getElem? hp
  have hset : ∀ {j q}, (s.producers.set i r.producer)[j]? = some q →
      (j = i ∧ q = r.producer) ∨ (j ≠ i ∧ s.producers[j]? = some q) := by
    intro j q hq
    rw [List.getElem?_set] at hq
    by_cases hij : i = j
    · rw [if_pos hij, if_pos hi] at hq
      exact Or.inl ⟨hij.symm, (Option.some.inj hq).symm⟩
    · rw [if_neg hij] at hq
      exact Or.inr ⟨fun h => hij h.symm, hq⟩
  have hnext : s.next ≤ r.next := by
    rcases hr.next with h | h
    · omega
    · omega
  have hnotfin : p.phase.finished = false := by
    obtain ⟨phase, spare, back, acc⟩ := p
    cases phase with
    | done => simp [Producer.canMove] at hmove
    | failed k e => simp [Producer.canMove] at hmove
    | _ => rfl
  refine ⟨by rw [List.length_set, hs.producers], ?_, ?_, ?_, ?_, hs.length, ?_, ?_, ?_, ?_⟩
  · intro j q hq
    rcases hset hq with ⟨rfl, rfl⟩ | ⟨-, hq⟩
    · exact hr.ok
    · exact hs.ok j q hq
  · intro job hjob
    rcases List.mem_append.mp hjob with hjob | hjob
    · exact hs.queue job hjob
    · obtain ⟨hok, hback⟩ := hr.sent job hjob
      exact ⟨hok, by rw [hback, ← hs.producers]; exact hi⟩
  · have hsum := sum_map_set (fun p : Producer => p.phase.held + p.keys) s.producers i p r.producer hp
    apply add_right_cancel (b := p.phase.held + p.keys)
    rw [hsum, hr.ledger, hs.taken, ← Kind.Sound.range_add_fresh hr.next]
    simp only [add_assoc, add_comm, add_left_comm]
  · intro q hq hdone
    rcases mem_set_cases hq with rfl | hq
    · exact hr.done hdone
    · exact Nat.le_trans (hs.done q hq hdone) hnext
  · intro herr q hq x hx
    rcases mem_set_cases hq with rfl | hq
    · rcases hr.written x hx with hold | hnil | ⟨job, hjob, hfor⟩
      · rcases hs.written herr p hmem x hold with hw | ⟨job, hjob, hfor⟩
        · exact Or.inl hw
        · refine Or.inr ⟨job, ?_, hfor⟩
          rcases List.mem_append.mp hjob with hjob | hjob
          · rcases List.mem_append.mp (hr.pending job hjob) with hjob | hjob
            · exact List.mem_append_left _ hjob
            · exact List.mem_append_right _ (List.mem_append_right _ hjob)
          · exact List.mem_append_right _ (List.mem_append_left _ hjob)
      · exact Or.inl (written_of_nil (hs.length herr) hnil)
      · exact Or.inr ⟨job, List.mem_append_left _ hjob, hfor⟩
    · rcases hs.written herr q hq x hx with hw | ⟨job, hjob, hfor⟩
      · exact Or.inl hw
      · refine Or.inr ⟨job, ?_, hfor⟩
        rcases List.mem_append.mp hjob with hjob | hjob
        · exact List.mem_append_left _ hjob
        · exact List.mem_append_right _ (List.mem_append_left _ hjob)
  · intro j q hq hneeds
    rcases hset hq with ⟨rfl, rfl⟩ | ⟨-, hq⟩
    · rcases hr.buffers hneeds with h | ⟨job, hjob, hback⟩ | ⟨hneeds', hspare, hback⟩
      · exact Or.inl h
      · exact Or.inr (Or.inr ⟨job, List.mem_append_right _ hjob, hback⟩)
      · rw [hspare, hback]
        rcases hs.buffers j p hp hneeds' with h | h | ⟨job, hjob, hb⟩
        · exact Or.inl h
        · exact Or.inr (Or.inl h)
        · exact Or.inr (Or.inr ⟨job, List.mem_append_left _ hjob, hb⟩)
    · rcases hs.buffers j q hq hneeds with h | h | ⟨job, hjob, hb⟩
      · exact Or.inl h
      · exact Or.inr (Or.inl h)
      · exact Or.inr (Or.inr ⟨job, List.mem_append_left _ hjob, hb⟩)
  · have hperr : p.phase.error = none := by
      obtain ⟨phase, spare, back, acc⟩ := p
      cases phase with
      | failed k e => simp [Producer.canMove] at hmove
      | _ => rfl
    rw [List.append_eq_nil_iff, hs.log, hr.failed]
    constructor
    · rintro ⟨⟨hall, herr⟩, hnew⟩
      refine ⟨?_, herr⟩
      intro q hq
      rcases mem_set_cases hq with rfl | hq
      · exact hnew
      · exact hall q hq
    · rintro ⟨hall, herr⟩
      refine ⟨⟨?_, herr⟩, hall r.producer (List.mem_set hi _)⟩
      intro q hq
      obtain ⟨j, hj⟩ := List.mem_iff_getElem?.mp hq
      by_cases hij : i = j
      · rw [← hij, hp] at hj
        rw [← Option.some.inj hj]
        exact hperr
      · refine hall q (List.mem_of_getElem? (i := j) ?_)
        rw [List.getElem?_set, if_neg hij]
        exact hj
  · intro hdone
    have hfin := (hs.closed hdone).2 p hmem
    rw [hnotfin] at hfin
    cases hfin

/-- **The invariant survives a step of the writer.** -/
theorem copyInv_writer (faults : Faults) (hs : CopyInv C s) (hnd : s.writerDone = false)
    (hen : s.queue ≠ [] ∨ ∀ p ∈ s.producers, p.phase.finished = true) :
    CopyInv C (writerStep faults s) := by
  rw [writerStep]
  cases hq : s.queue with
  | nil =>
    have hfin : ∀ p ∈ s.producers, p.phase.finished = true := by
      rcases hen with h | h
      · exact absurd hq h
      · exact h
    obtain ⟨next, producers, queue, file, firstErr, writerDone, log⟩ := s
    obtain rfl : queue = [] := hq
    exact ⟨hs.producers, hs.ok, hs.queue, hs.taken, hs.done, hs.length, hs.written, hs.buffers,
      hs.log, fun _ => ⟨rfl, hfin⟩⟩
  | cons job queue =>
    obtain ⟨⟨hbuf, k, hfor⟩, hback⟩ := hs.queue job (by rw [hq]; simp)
    -- everything but the file and the error is the same in the three cases
    have hbase : ∀ (file : Bytes) (err : Option IoError) (log : List IoError),
        (err = none → s.firstErr = none ∧ file = writeAt s.file job.off (job.buf.take job.len)) →
        (log = [] ↔ (∀ p ∈ s.producers, p.phase.error = none) ∧ err = none) →
        CopyInv C { s with
          queue := queue, producers := giveBack job s.producers, file := file, firstErr := err,
          log := log } := by
      intro file err log herr hlog
      refine ⟨?_, ?_, ?_, ?_, ?_, ?_, ?_, ?_, ?_, ?_⟩
      · rw [giveBack, List.length_modify, hs.producers]
      · intro i q hi
        obtain ⟨p, hp, hphase, hacc, hspare, hbk⟩ := getElem?_giveBack hi
        have hok := hs.ok i p hp
        refine ⟨by rw [hacc]; exact hok.acc, by rw [hspare]; exact hok.spare, ?_,
          by rw [hphase]; exact hok.buf, by rw [hphase]; exact hok.pending⟩
        rcases hbk with ⟨-, hbk⟩ | ⟨-, hbk⟩
        · rw [hbk]
          exact hok.back
        · rw [hbk]
          intro b hb
          rcases List.mem_append.mp hb with hb | hb
          · exact hok.back b hb
          · rw [List.mem_singleton.mp hb, hbuf]
      · intro j hj
        exact hs.queue j (by rw [hq]; simp [hj])
      · simp only
        rw [map_giveBack _ (fun p b => rfl)]
        exact hs.taken
      · intro q hmem hdone
        obtain ⟨p, hp, hphase, -⟩ := mem_giveBack hmem
        exact hs.done p hp (hphase ▸ hdone)
      · intro he
        obtain ⟨hfirst, rfl⟩ := herr he
        simp only
        rw [length_writeJob (hs.length hfirst) hfor, hs.length hfirst]
      · intro he q hmem x hx
        obtain ⟨hfirst, rfl⟩ := herr he
        obtain ⟨p, hp, hphase, hacc⟩ := mem_giveBack hmem
        rw [hacc] at hx
        rw [hphase]
        rcases hs.written hfirst p hp x hx with hw | ⟨j, hj, hjfor⟩
        · exact Or.inl (hw.write (hs.length hfirst) hfor)
        · rw [hq, List.mem_append, List.mem_cons] at hj
          rcases hj with hj | rfl | hj
          · exact Or.inr ⟨j, List.mem_append_left _ hj, hjfor⟩
          · exact Or.inl (written_write (hs.length hfirst) hjfor)
          · exact Or.inr ⟨j, List.mem_append_right _ hj, hjfor⟩
      · intro i q hi hneeds
        obtain ⟨p, hp, hphase, -, hspare, hbk⟩ := getElem?_giveBack hi
        rw [hphase] at hneeds
        rw [hspare]
        rcases hbk with ⟨hne, hbk⟩ | ⟨-, hbk⟩
        · rw [hbk]
          rcases hs.buffers i p hp hneeds with h | h | ⟨j, hj, hb⟩
          · exact Or.inl h
          · exact Or.inr (Or.inl h)
          · rw [hq] at hj
            rcases List.mem_cons.mp hj with rfl | hj
            · exact absurd hb.symm hne
            · exact Or.inr (Or.inr ⟨j, hj, hb⟩)
        · rw [hbk]
          exact Or.inr (Or.inl (by simp))
      · simp only
        rw [hlog]
        constructor
        · rintro ⟨hall, he⟩
          refine ⟨fun q hmem => ?_, he⟩
          obtain ⟨p, hp, hphase, -⟩ := mem_giveBack hmem
          rw [hphase]
          exact hall p hp
        · rintro ⟨hall, he⟩
          refine ⟨fun p hp => ?_, he⟩
          have hmap := map_giveBack (fun p : Producer => p.phase.error) (fun _ _ => rfl) job
            s.producers
          have hin : p.phase.error ∈ (giveBack job s.producers).map fun p => p.phase.error := by
            rw [hmap]
            exact List.mem_map_of_mem hp
          obtain ⟨q, hqm, hqe⟩ := List.mem_map.mp hin
          rw [← hqe]
          exact hall q hqm
      · intro hdone
        rw [hnd] at hdone
        cases hdone
    simp only
    cases herr : s.firstErr with
    | some e => exact hbase s.file (some e) s.log (by simp) (by rw [hs.log, herr])
    | none =>
      cases hw : faults.write with
      | some w => exact hbase w.2 (some w.1) (s.log ++ [w.1]) (by simp) (by simp)
      | none =>
        exact hbase (writeAt s.file job.off (job.buf.take job.len)) none s.log
          (fun _ => ⟨herr, rfl⟩) (by rw [hs.log, herr])

theorem system_enabled {i : Nat} (h : C.system.enabled s i = true) :
    (∃ p, s.producers[i]? = some p ∧ p.canMove = true) ∨
      (s.producers[i]? = none ∧ s.writerDone = false ∧
        (s.queue ≠ [] ∨ ∀ p ∈ s.producers, p.phase.finished = true)) := by
  simp only [Copy.system] at h
  cases hp : s.producers[i]? with
  | some p =>
    rw [hp] at h
    exact Or.inl ⟨p, rfl, h⟩
  | none =>
    rw [hp] at h
    simp only [Bool.and_eq_true, Bool.not_eq_true', Bool.or_eq_true, List.all_eq_true] at h
    refine Or.inr ⟨rfl, h.1, ?_⟩
    rcases h.2 with hq | hall
    · left
      intro he
      rw [he] at hq
      cases hq
    · exact Or.inr hall

/-- **Step lemma.** -/
theorem copyInv_step (hc : ChunkerOk C.src.length C.chunker) (hs : CopyInv C s) {i : Nat}
    (faults : Faults) (hen : C.system.enabled s i = true) :
    CopyInv C (C.system.step s i faults) := by
  rcases system_enabled hen with ⟨p, hp, hmove⟩ | ⟨hp, hnd, hq⟩
  · simp only [Copy.system, hp]
    exact copyInv_producer hs hp hmove (producerStep faults hc (hs.ok i p hp) hmove)
  · simp only [Copy.system, hp]
    exact copyInv_writer faults hs hnd hq

def copyWeight (C : Copy) (s : CopyState) : Nat :=
  5 * (C.chunkCount - s.next) + (s.producers.map fun p => p.phase.weight).sum + s.queue.length
    + if s.writerDone then 0 else 1

theorem copyWeight_step (hc : ChunkerOk C.src.length C.chunker) (hs : CopyInv C s) {i : Nat}
    (faults : Faults) (hen : C.system.enabled s i = true) :
    copyWeight C (C.system.step s i faults) < copyWeight C s := by
  rcases system_enabled hen with ⟨p, hp, hmove⟩ | ⟨hp, hnd, -⟩
  · have hr : ProducerStep C i s.next p _ := producerStep faults hc (hs.ok i p hp) hmove
    have hsum := sum_map_set (fun p : Producer => p.phase.weight) s.producers i p
      (p.step C i faults s.next).producer hp
    have hw := hr.weight
    simp only [Copy.system, hp, copyWeight, List.length_append]
    rcases hr.next with hn | hn
    · rw [if_neg (by omega)] at hw
      rw [hn]
      omega
    · rw [hn] at hw ⊢
      by_cases hlt : s.next < C.chunkCount
      · rw [if_pos ⟨rfl, hlt⟩] at hw
        omega
      · rw [if_neg (by omega)] at hw
        omega
  · simp only [Copy.system, hp, writerStep]
    cases hq : s.queue with
    | nil =>
      simp only [copyWeight, hq, hnd]
      simp
    | cons job queue =>
      have hmap := map_giveBack (fun p : Producer => p.phase.weight) (fun _ _ => rfl) job s.producers
      cases herr : s.firstErr with
      | some e => simp [copyWeight, hq, hmap]
      | none =>
        cases hw : faults.write with
        | some w => simp [copyWeight, hq, hmap]
        | none => simp [copyWeight, hq, hmap]

/-- **Nobody waits for ever**: when no thread can move, all producers have returned and the writer
has nothing left. -/
theorem all_finished (hs : CopyInv C s) (hquiet : C.system.ready s = []) :
    s.queue = [] ∧ ∀ p ∈ s.producers, p.phase.finished = true := by
  have hno : ∀ i, i < C.producers + 1 → C.system.enabled s i = false := by
    intro i hi
    by_contra hen
    have hmem : i ∈ C.system.ready s := System.mem_ready.mpr ⟨hi, by simpa using hen⟩
    rw [hquiet] at hmem
    cases hmem
  have hwriter := hno C.producers (Nat.lt_succ_self _)
  have hnone : s.producers[C.producers]? = none := List.getElem?_eq_none (by rw [hs.producers])
  simp only [Copy.system, hnone, Bool.and_eq_false_iff, Bool.not_eq_false', Bool.or_eq_false_iff]
    at hwriter
  rcases hwriter with hdone | ⟨hqueue, -⟩
  · exact hs.closed hdone
  · have hq : s.queue = [] := by simpa using hqueue
    refine ⟨hq, ?_⟩
    intro p hp
    obtain ⟨i, hi⟩ := List.mem_iff_getElem?.mp hp
    have hlt : i < C.producers := by
      rw [← hs.producers]
      exact (List.getElem?_eq_some_iff.mp hi).1
    have hstuck := hno i (by omega)
    simp only [Copy.system, hi] at hstuck
    have hbuf := hs.buffers i p hi
    rw [hq] at hbuf
    obtain ⟨phase, spare, back, acc⟩ := p
    cases phase with
    | take k =>
      -- waiting for a buffer, although one is at hand or in the queue
      simp only [Producer.canMove, Bool.or_eq_false_iff, Bool.not_eq_false'] at hstuck
      rcases hbuf rfl with h | h | ⟨job, hjob, -⟩
      · rw [hstuck.1] at h
        cases h
      · simp at hstuck
        exact absurd hstuck.2 h
      · cases hjob
    | claim => simp [Producer.canMove] at hstuck
    | assemble k buf => simp [Producer.canMove] at hstuck
    | send job => simp [Producer.canMove] at hstuck
    | done => rfl
    | failed k e => rfl

end Invariant

/-! ### The result -/

structure CopyOk (C : Copy) : Prop where
  chunker : ChunkerOk C.src.length C.chunker
  count : C.chunkCount = Lib.chunkCount chunkSize C.chunker.paddedEnd
  producers : 0 < C.producers

def Copy.final (C : Copy) (sched : Nat → Nat × Faults) (file : Bytes) : CopyState :=
  C.system.run sched C.steps (C.init file)

section Result

variable {C : Copy}

theorem copyWeight_init (C : Copy) (file : Bytes) : copyWeight C (C.init file) ≤ C.steps := by
  simp only [copyWeight, Copy.init, Copy.steps, List.map_replicate, List.sum_replicate_nat,
    Producer.new, ProducerPhase.weight, List.length_nil]
  simp

theorem final_inv (hC : CopyOk C) (sched : Nat → Nat × Faults) {file : Bytes}
    (hlen : file.length = (output C.src C.chunker.plans).length) :
    CopyInv C (C.final sched file) ∧ C.system.ready (C.final sched file) = [] := by
  refine ⟨?_, ?_⟩
  · exact System.run_invariant (Q := fun _ => True)
      (fun s i e hs _ _ hen => copyInv_step hC.chunker hs e hen) _ sched _ (fun _ => trivial)
      (copyInv_init C hlen)
  · exact System.run_quiescent (CopyInv C) (copyWeight C)
      (fun s i e hs _ hen => copyInv_step hC.chunker hs e hen)
      (fun s i e hs _ hen => copyWeight_step hC.chunker hs e hen) _ sched _ (copyInv_init C hlen)
      (copyWeight_init C file)

/-- **The schedules cover every complete interleaving of the threads.** -/
theorem exists_final (hC : CopyOk C) {file : Bytes}
    (hlen : file.length = (output C.src C.chunker.plans).length) {s : CopyState}
    (h : Relation.ReflTransGen C.system.Step (C.init file) s) (hrest : C.system.ready s = []) :
    ∃ sched, C.final sched file = s :=
  System.exists_schedule_of_quiescent
    (fun _ _ e hs _ hen => copyInv_step hC.chunker hs e hen)
    (fun _ _ e hs _ hen => copyWeight_step hC.chunker hs e hen) (copyInv_init C hlen)
    (copyWeight_init C file) h hrest

theorem findSome?_error_eq_none {ps : List Producer} :
    ps.findSome? (fun p => p.phase.error) = none ↔ ∀ p ∈ ps, p.phase.error = none := by
  rw [List.findSome?_eq_none_iff]

/-- **The copy succeeds exactly when no read and no write failed.** -/
theorem result_ok_iff (hC : CopyOk C) (sched : Nat → Nat × Faults) {file : Bytes}
    (hlen : file.length = (output C.src C.chunker.plans).length) :
    (∃ all, (C.final sched file).result = .ok all) ↔ (C.final sched file).log = [] := by
  obtain ⟨hinv, -⟩ := final_inv hC sched hlen
  rw [hinv.log, CopyState.result, ← findSome?_error_eq_none]
  constructor
  · rintro ⟨all, h⟩
    split at h
    · cases h
    · rename_i hnone
      split at h
      · cases h
      · rename_i herr
        exact ⟨hnone, herr⟩
  · rintro ⟨hnone, herr⟩
    rw [hnone, herr]
    exact ⟨_, rfl⟩

theorem failed_of_no_faults (i next : Nat) (p : Producer) :
    (p.step C i Faults.none next).failed = [] := by
  have hread : ∀ k, C.chunker.failedRead k Faults.none.read = none := by
    intro k
    rw [Chunker.failedRead, List.findSome?_eq_none_iff]
    exact fun x _ => rfl
  rw [Producer.step]
  cases p.phase with
  | claim => rfl
  | take k =>
    simp only
    split <;> rfl
  | assemble k buf =>
    simp only [hread, Option.toList_none]
    rw [Producer.assembled.eq_def]
    split
    · rfl
    · simp only
      split <;> rfl
  | send job => rfl
  | done => rfl
  | failed k e => rfl

theorem log_of_no_faults {sched : Nat → Nat × Faults} (h : ∀ k, (sched k).2 = Faults.none)
    (file : Bytes) : (C.final sched file).log = [] := by
  have hstep : ∀ (s : CopyState) (i : Nat) (f : Faults), s.log = [] → f = Faults.none →
      i < C.system.actors → C.system.enabled s i = true → (C.system.step s i f).log = [] := by
    rintro s i f hs rfl _ _
    simp only [Copy.system]
    cases hp : s.producers[i]? with
    | some p => simp only [hs, failed_of_no_faults, List.append_nil]
    | none =>
      simp only [writerStep, Faults.none]
      split
      · exact hs
      · split <;> exact hs
  exact System.run_invariant hstep C.steps sched (C.init file) h rfl

/-- **A successful copy is complete**: every chunk is recorded once, with its digest, and the file
holds the whole output. -/
theorem result_ok (hC : CopyOk C) (sched : Nat → Nat × Faults) {file : Bytes}
    (hlen : file.length = (output C.src C.chunker.plans).length) {all : List (Nat × Bytes)}
    (h : (C.final sched file).result = .ok all) :
    (C.final sched file).file = output C.src C.chunker.plans ∧
      (all.map Prod.fst).Perm (List.range C.chunkCount) ∧ ∀ x ∈ all, x.2 = C.digest x.1 := by
  obtain ⟨hinv, hquiet⟩ := final_inv hC sched hlen
  obtain ⟨hqueue, hfin⟩ := all_finished hinv hquiet
  have hlog := (result_ok_iff hC sched hlen).mp ⟨all, h⟩
  generalize C.final sched file = s at h hinv hquiet hqueue hfin hlog
  obtain ⟨hnoerr, hfirst⟩ := hinv.log.mp hlog
  have hdone : ∀ p ∈ s.producers, p.phase = .done := by
    intro p hp
    have h1 := hnoerr p hp
    have h2 := hfin p hp
    cases hphase : p.phase with
    | done => rfl
    | failed k e => rw [hphase] at h1; cases h1
    | claim => rw [hphase] at h2; cases h2
    | take k => rw [hphase] at h2; cases h2
    | assemble k buf => rw [hphase] at h2; cases h2
    | send job => rw [hphase] at h2; cases h2
  have hall : all = s.producers.flatMap Producer.acc := by
    rw [CopyState.result, findSome?_error_eq_none.mpr hnoerr, hfirst] at h
    exact (Except.ok.inj h).symm
  have hnext : C.chunkCount ≤ s.next := by
    obtain ⟨p, hp⟩ : ∃ p, p ∈ s.producers :=
      List.exists_mem_of_length_pos (by rw [hinv.producers]; exact hC.producers)
    exact hinv.done p hp (hdone p hp)
  have hkeys : (all.map Prod.fst).Perm (List.range C.chunkCount) := by
    have htaken := hinv.taken
    rw [Nat.min_eq_right hnext, List.map_congr_left (g := Producer.keys)
      (fun p hp => by rw [hdone p hp]; exact zero_add _)] at htaken
    rw [← Multiset.coe_eq_coe, hall, List.map_flatMap, coe_flatMap]
    exact htaken
  refine ⟨?_, hkeys, ?_⟩
  · apply List.ext_getElem?
    intro x
    by_cases hx : x < (output C.src C.chunker.plans).length
    · -- the chunk that `x` lies in was recorded, and nothing is in flight any more
      have hlt : x / chunkSize < C.chunkCount := by
        rw [hC.count]
        refine div_lt_chunkCount chunkSize_pos ?_
        have h1 := length_output hC.chunker.plans.inside
        have h2 := hC.chunker.newEnd
        have h3 := hC.chunker.padded
        omega
      have hkey : x / chunkSize ∈ all.map Prod.fst := by
        rw [hkeys.mem_iff, List.mem_range]
        exact hlt
      obtain ⟨y, hy, hyk⟩ := List.mem_map.mp hkey
      rw [hall] at hy
      obtain ⟨p, hp, hyp⟩ := List.mem_flatMap.mp hy
      rcases hinv.written hfirst p hp y hyp with hw | ⟨job, hjob, -⟩
      · rw [Written, bytes_eq, hyk] at hw
        have hdiv := Nat.div_add_mod x chunkSize
        have hmod := Nat.mod_lt x chunkSize_pos
        rw [Nat.mul_comm] at hdiv
        exact getElem?_eq_of_slice_eq hw (by omega) (by omega)
      · rw [hdone p hp, hqueue] at hjob
        cases hjob
    · have hl := hinv.length hfirst
      rw [List.getElem?_eq_none (by omega), List.getElem?_eq_none (by omega)]
  · intro x hx
    rw [hall] at hx
    obtain ⟨p, hp, hxp⟩ := List.mem_flatMap.mp hx
    obtain ⟨i, hi⟩ := List.mem_iff_getElem?.mp hp
    exact (hinv.ok i p hi).acc x hxp

end Result

end FastSigner.Align

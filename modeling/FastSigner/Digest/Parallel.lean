import FastSigner.Digest.Workers

/-!
# The parallel content digest

`contentDigest` as the code runs it: as many workers as are useful share one
chunk counter, each records the digests of the chunks it claimed, and the records
are copied into one array that the top digest is taken of.  A schedule decides
which worker takes the next atomic step.

`contentDigest_spec` is the result that the rest of the development uses: the
digest is the one of the sequential definition, whatever the schedule, the number
of threads and the kernel.
-/

namespace FastSigner.Digest

open Lib

abbrev Schedule := Nat → Nat × Unit

def totalLen (sources : List Source) : Nat := (sources.map Source.len).sum

/-- The number of threads that get at least 512 KiB each. -/
def useful (sources : List Source) : Nat :=
  max (min ((totalLen sources + (512 <<< 10) - 1) / (512 <<< 10)) (total sources)) 1

def threadCount (sources : List Source) (threads : Nat) : Nat :=
  if 1 < useful sources then min (max threads 1) (useful sources) else 1

def task (sources : List Source) (threads : Nat) : Task :=
  ⟨claimedParts sources, total sources, threadCount sources threads⟩

def Task.steps (t : Task) : Nat := t.threads * 12 + remaining t.cost t.total 0

/-- What the workers recorded and the order in which chunks were taken up. -/
structure Recorded where
  all : List (Nat × Bytes)
  seen : List Nat

def work (R : Crypto) (alg : Algorithm) (t : Task) (sched : Schedule) : Recorded :=
  match if alg = .sha256 then R.ext else none with
  | none =>
    let K := soloKind t (hashChunk R alg)
    let p := (K.system t.threads).run sched t.steps (K.init t.threads)
    ⟨K.outcome p, p.seen⟩
  | some c =>
    let K := duoKind t c
    let p := (K.system t.threads).run sched t.steps (K.init t.threads)
    ⟨K.outcome p, p.seen⟩

/-- What `content_digest` returns and the calls it makes to `inspect`. -/
structure Digested where
  digest : Bytes
  inspected : List (Nat × Bytes)

def contentDigest (R : Crypto) (sched : Schedule) (sources : List Source) (alg : Algorithm)
    (threads : Nat) : Digested :=
  let ol := alg.outputLen
  let w := work R alg (task sources threads) sched
  let concat := applyPatches (List.replicate (total sources * ol) 0)
    (w.all.map fun x => (x.1 * ol, x.2.take ol))
  ⟨topDigest R alg (total sources) [concat], w.seen.filterMap (inspection sources)⟩

/-! ### Both kinds of worker record the same digests -/

theorem threadCount_pos (sources : List Source) (threads : Nat) :
    0 < threadCount sources threads := by
  rw [threadCount]
  split <;> omega

theorem hash_message (R : Crypto) {c : Sha256.Compress} (hc : R.ext = some c) (t : Task) (k : Nat) :
    Sha256.hash c (t.message k) = hashChunk R .sha256 [(t.parts k).1, (t.parts k).2] := by
  rw [hashChunk, R.ext_spec c hc, Task.message, chunkPrefix, Task.chunkLen]
  simp

/-- **For every schedule, every chunk is recorded once, with its digest, and taken up once.** -/
theorem work_spec (R : Crypto) (alg : Algorithm) (t : Task) (ht : 0 < t.threads)
    (sched : Schedule) :
    ((work R alg t sched).all.map Prod.fst).Perm (List.range t.total) ∧
      (∀ x ∈ (work R alg t sched).all,
        x.2 = record64 (hashChunk R alg [(t.parts x.1).1, (t.parts x.1).2])) ∧
      (work R alg t sched).seen.Perm (List.range t.total) := by
  rw [work]
  split
  · exact (solo t (hashChunk R alg)).result ht sched (Nat.le_refl _)
  · rename_i c hc
    obtain ⟨rfl, hext⟩ : alg = .sha256 ∧ R.ext = some c := by
      split at hc
      · exact ⟨by assumption, hc⟩
      · cases hc
    obtain ⟨hkeys, hval, hseen⟩ := (duo t c).result ht sched (Nat.le_refl _)
    exact ⟨hkeys, fun x hx => by rw [hval x hx, hash_message R hext], hseen⟩

theorem length_chunkDigest (R : Crypto) (alg : Algorithm) (c : Bytes) :
    (chunkDigest R alg c).length = alg.outputLen := R.length_digest alg _

theorem take_record64 (alg : Algorithm) {d : Bytes} (h : d.length = alg.outputLen) :
    (record64 d).take alg.outputLen = d := by
  rw [record64, ← h, List.take_left]

theorem concat_eq (R : Crypto) (alg : Algorithm) (sources : List Source) (threads : Nat)
    (sched : Schedule) :
    applyPatches (List.replicate (total sources * alg.outputLen) 0)
        ((work R alg (task sources threads) sched).all.map
          fun x => (x.1 * alg.outputLen, x.2.take alg.outputLen))
      = (allChunks sources).flatMap (chunkDigest R alg) := by
  obtain ⟨hkeys, hval, -⟩ := work_spec R alg (task sources threads)
    (threadCount_pos sources threads) sched
  generalize work R alg (task sources threads) sched = w at hkeys hval
  have hlen : ((allChunks sources).map (chunkDigest R alg)).length = total sources := by
    rw [List.length_map, length_allChunks]
  rw [List.flatMap_def, ← hlen]
  have hsize : ∀ d ∈ (allChunks sources).map (chunkDigest R alg), d.length = alg.outputLen := by
    intro d hd
    obtain ⟨c, -, rfl⟩ := List.mem_map.mp hd
    exact length_chunkDigest R alg c
  have hpieces := applyPatches_pieces hsize
    (w.all.map fun x => (x.1, x.2.take alg.outputLen)) ?_ ?_ (0 : UInt8)
  · rw [List.map_map] at hpieces
    exact hpieces
  · rw [List.map_map, hlen]
    exact hkeys
  · intro y hy
    obtain ⟨x, hx, rfl⟩ := List.mem_map.mp hy
    have hk : x.1 < total sources := by
      have := hkeys.mem_iff.mp (List.mem_map_of_mem hx)
      simpa [task] using this
    rw [List.getElem?_map, getElem?_allChunks sources x.1 hk, Option.map_some, hval x hx,
      hashChunk_eq]
    simp only [task, List.flatten_cons, List.flatten_nil, List.append_nil]
    rw [take_record64 alg (length_chunkDigest R alg _)]

/-- **The parallel digest is the sequential one.** -/
theorem contentDigest_spec (R : Crypto) (sched : Schedule) (sources : List Source)
    (alg : Algorithm) (threads : Nat) :
    (contentDigest R sched sources alg threads).digest
      = contentDigestSpec R alg (sources.map Source.all) := by
  rw [contentDigest, concat_eq, topDigest, contentDigestSpec, ← length_allChunks, allChunks,
    List.flatMap_map]
  simp only [List.flatten_singleton]

/-- **The inspector sees the file-backed part of every chunk once.** -/
theorem inspected_perm (R : Crypto) (sched : Schedule) (sources : List Source)
    (alg : Algorithm) (threads : Nat) :
    (contentDigest R sched sources alg threads).inspected.Perm
      ((List.range (total sources)).filterMap (inspection sources)) :=
  (work_spec R alg (task sources threads) (threadCount_pos sources threads) sched).2.2.filterMap _

/-- **Whatever the sources, the algorithm, the thread count and the interleaving, the parallel
digest is that of the sequential definition**, every chunk is hashed exactly once, and digesting
the sections apart gives the same value. -/
theorem contentDigest_eq_sequential (R : Crypto) (sched : Schedule) (sources : List Source)
    (alg : Algorithm) (threads : Nat) :
    (contentDigest R sched sources alg threads).digest
        = contentDigestSpec R alg (sources.map Source.all) ∧
      ((work R alg (task sources threads) sched).all.map Prod.fst).Perm
        (List.range (allChunks sources).length) ∧
      (∀ x ∈ (work R alg (task sources threads) sched).all,
        ∃ c, (allChunks sources)[x.1]? = some c ∧ x.2 = record64 (chunkDigest R alg c)) ∧
      topDigest R alg ((sources.map fun s => (chunkDigestsOf R alg s.all).1).sum)
          (sources.map fun s => (chunkDigestsOf R alg s.all).2)
        = (contentDigest R sched sources alg threads).digest := by
  obtain ⟨hkeys, hval, -⟩ := work_spec R alg (task sources threads)
    (threadCount_pos sources threads) sched
  refine ⟨contentDigest_spec R sched sources alg threads, ?_, ?_, ?_⟩
  · rw [length_allChunks]
    exact hkeys
  · intro x hx
    have hk : x.1 < total sources := by
      have := hkeys.mem_iff.mp (List.mem_map_of_mem hx)
      simpa [task] using this
    refine ⟨_, getElem?_allChunks sources x.1 hk, ?_⟩
    rw [hval x hx, hashChunk_eq]
    simp [task]
  · rw [contentDigest_spec, ← topDigest_chunkDigestsOf, List.map_map, List.map_map]
    rfl

end FastSigner.Digest

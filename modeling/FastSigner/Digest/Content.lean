import FastSigner.Lib.Sha2
import FastSigner.Sha256
import FastSigner.Basic

/-!
# Content digests

The digest of APK Signature Scheme v2/v3 over a list of sections: each section
is cut into 1 MiB chunks, a chunk `c` contributes `H(0xa5 || u32le(|c|) || c)`,
and the top digest is `H(0x5a || u32le(count) || chunk digests)`.

`contentDigestSpec` is that definition, read off sequentially.  The code works on
`Source`s, a data slice followed by a tail slice, and addresses chunks by one
global index; `claimed_parts` says that the chunk it hands out for index `k` is
the `k`-th one of the sequential list.
-/

namespace FastSigner

open Lib

inductive Algorithm
  | sha256
  | sha512
  deriving DecidableEq, Repr

def Algorithm.outputLen : Algorithm → Nat
  | .sha256 => 32
  | .sha512 => 64

/-- The hash functions, and the CPU's SHA-256 instructions if it has them.  The instructions
compute the same SHA-256. -/
structure Crypto where
  digest : Algorithm → Bytes → Bytes
  length_digest : ∀ alg m, (digest alg m).length = alg.outputLen
  -- The compression function on the SHA instructions, when `ShaExt::detect` finds them.
  ext : Option Sha256.Compress
  ext_spec : ∀ c, ext = some c → digest .sha256 = Sha256.hash c

/-- SHA-256, with and without the CPU's instructions, for examples that need nothing else. -/
def sha256Crypto : Crypto where
  digest
    | .sha256, m => Sha256.hash Sha2.compress m
    | .sha512, _ => List.replicate 64 0
  length_digest alg m := by
    cases alg with
    | sha256 => exact Sha256.length_hash _ _
    | sha512 => exact List.length_replicate
  ext := some Sha2.compress
  ext_spec _ h := by
    obtain rfl := Option.some.inj h
    rfl

namespace Digest

def chunkSize : Nat := 1 <<< 20

theorem chunkSize_pos : 0 < chunkSize := by decide

/-! ### The definition of the scheme -/

def chunkDigest (R : Crypto) (alg : Algorithm) (c : Bytes) : Bytes :=
  R.digest alg (0xa5 :: leBytes 4 c.length ++ c)

/-- The digest of a list of sections, as the scheme defines it. -/
def contentDigestSpec (R : Crypto) (alg : Algorithm) (sections : List Bytes) : Bytes :=
  let cs := sections.flatMap (chunks chunkSize)
  R.digest alg (0x5a :: leBytes 4 cs.length ++ cs.flatMap (chunkDigest R alg))

/-! ### The code's pieces -/

/-- `hash_chunk`: the digest of one chunk given in parts. -/
def hashChunk (R : Crypto) (alg : Algorithm) (parts : List Bytes) : Bytes :=
  R.digest alg (0xa5 :: leBytes 4 (parts.map List.length).sum ++ parts.flatten)

/-- Chunk count and concatenated chunk digests of an in-memory section. -/
def chunkDigestsOf (R : Crypto) (alg : Algorithm) (data : Bytes) : Nat × Bytes :=
  let cs := chunks chunkSize data
  (cs.length, cs.flatMap fun c => hashChunk R alg [c])

def topDigest (R : Crypto) (alg : Algorithm) (count : Nat) (parts : List Bytes) : Bytes :=
  R.digest alg (0x5a :: leBytes 4 count ++ parts.flatten)

/-- One digested section: `data` followed by `tail`.  `fileOff` is where `data` starts in the
mapped file. -/
structure Source where
  fileOff : Option Nat
  data : Bytes
  tail : Bytes

def Source.file (off : Nat) (data tail : Bytes) : Source := ⟨some off, data, tail⟩

def Source.bytes (b : Bytes) : Source := ⟨none, b, []⟩

def Source.len (s : Source) : Nat := s.data.length + s.tail.length

def Source.chunkCount (s : Source) : Nat := (s.len + chunkSize - 1) / chunkSize

/-- Chunk `k` of a source: its part of `data`, then its part of `tail`. -/
def Source.chunk (s : Source) (k : Nat) : Bytes × Bytes :=
  let start := k * chunkSize
  let stop := min (k * chunkSize + chunkSize) s.len
  let d := s.data.length
  (slice s.data (min start d) (min stop d), slice s.tail (start - d) (stop - d))

def Source.all (s : Source) : Bytes := s.data ++ s.tail

def total (sources : List Source) : Nat := (sources.map Source.chunkCount).sum

/-- The source and the chunk in it that a global chunk index names. -/
def locate : List Source → Nat → Option (Source × Nat)
  | [], _ => none
  | s :: rest, idx => if s.chunkCount ≤ idx then locate rest (idx - s.chunkCount) else some (s, idx)

def claimedParts (sources : List Source) (k : Nat) : Bytes × Bytes :=
  match locate sources k with
  | some (s, idx) => s.chunk idx
  | none => ([], [])

/-- The call to `inspect` for a claimed chunk: the file offset and the file-backed bytes. -/
def inspection (sources : List Source) (k : Nat) : Option (Nat × Bytes) :=
  match locate sources k with
  | some (s, idx) =>
    match s.fileOff with
    | some off =>
      if (s.chunk idx).1 = [] then none else some (off + idx * chunkSize, (s.chunk idx).1)
    | none => none
  | none => none

def allChunks (sources : List Source) : List Bytes :=
  sources.flatMap fun s => chunks chunkSize s.all

/-! ### The pieces agree with the definition -/

theorem hashChunk_eq (R : Crypto) (alg : Algorithm) (parts : List Bytes) :
    hashChunk R alg parts = chunkDigest R alg parts.flatten := by
  rw [hashChunk, chunkDigest, List.length_flatten]

theorem hashChunk_singleton (R : Crypto) (alg : Algorithm) (c : Bytes) :
    hashChunk R alg [c] = chunkDigest R alg c := by
  rw [hashChunk_eq, List.flatten_singleton]

theorem chunkDigestsOf_eq (R : Crypto) (alg : Algorithm) (data : Bytes) :
    chunkDigestsOf R alg data
      = ((chunks chunkSize data).length, (chunks chunkSize data).flatMap (chunkDigest R alg)) := by
  simp only [chunkDigestsOf, hashChunk_singleton]

/-- **Digesting the sections apart and joining the runs gives the digest of the whole.** -/
theorem topDigest_chunkDigestsOf (R : Crypto) (alg : Algorithm) (sections : List Bytes) :
    topDigest R alg ((sections.map fun s => (chunkDigestsOf R alg s).1).sum)
      (sections.map fun s => (chunkDigestsOf R alg s).2) = contentDigestSpec R alg sections := by
  simp only [chunkDigestsOf_eq, topDigest, contentDigestSpec]
  rw [List.length_flatMap, List.flatMap_assoc, List.flatMap_def]

theorem Source.chunk_append (s : Source) (k : Nat) :
    (s.chunk k).1 ++ (s.chunk k).2
      = slice s.all (k * chunkSize) (k * chunkSize + chunkSize) := by
  have hmin : slice s.all (k * chunkSize) (k * chunkSize + chunkSize)
      = slice s.all (k * chunkSize) (min (k * chunkSize + chunkSize) s.len) := by
    apply List.ext_getElem?
    intro x
    rw [getElem?_slice, getElem?_slice]
    by_cases h : k * chunkSize + x < k * chunkSize + chunkSize
    · by_cases h2 : k * chunkSize + x < s.len
      · rw [if_pos h, if_pos (by omega)]
      · rw [if_pos h, if_neg (by omega), List.getElem?_eq_none (by
          rw [Source.all, List.length_append]
          rw [Source.len] at h2
          omega)]
    · rw [if_neg h, if_neg (by omega)]
  rw [hmin, Source.chunk, Source.all]
  simp only
  generalize k * chunkSize = a
  generalize min (a + chunkSize) s.len = b
  by_cases hb : b ≤ s.data.length
  · rw [slice_append_left _ _ hb, slice_of_le s.tail (by omega), List.append_nil,
      Nat.min_eq_left hb]
    by_cases ha : a ≤ s.data.length
    · rw [Nat.min_eq_left ha]
    · rw [slice_of_le _ (by omega), slice_of_le _ (by omega)]
  · by_cases ha : a ≤ s.data.length
    · rw [← slice_append_slice (s.data ++ s.tail) ha (show s.data.length ≤ b by omega),
        slice_append_left _ _ (Nat.le_refl _), slice_append_right _ _ (Nat.le_refl _),
        Nat.min_eq_left ha, Nat.min_eq_right (by omega), Nat.sub_self,
        Nat.sub_eq_zero_of_le ha]
    · rw [slice_append_right _ _ (by omega), slice_of_le s.data (by omega), List.nil_append]

theorem Source.chunkCount_eq (s : Source) : s.chunkCount = Lib.chunkCount chunkSize s.all.length := by
  rw [Source.chunkCount, Lib.chunkCount, Source.all, List.length_append, Source.len]

theorem length_allChunks (sources : List Source) : (allChunks sources).length = total sources := by
  rw [allChunks, List.length_flatMap, total]
  congr 1
  apply List.map_congr_left
  intro s _
  rw [length_chunks, Source.chunkCount_eq]

/-- **The chunk handed out for index `k` is the `k`-th of the sequential list.** -/
theorem getElem?_allChunks :
    ∀ (sources : List Source) (k : Nat), k < total sources →
      (allChunks sources)[k]? = some ((claimedParts sources k).1 ++ (claimedParts sources k).2) := by
  intro sources
  induction sources with
  | nil =>
    intro k hk
    simp [total] at hk
  | cons s rest ih =>
    intro k hk
    have hcount := Source.chunkCount_eq s
    have hlen : (chunks chunkSize s.all).length = s.chunkCount := by rw [length_chunks, hcount]
    rw [allChunks, List.flatMap_cons, claimedParts, locate]
    by_cases hs : s.chunkCount ≤ k
    · rw [if_pos hs, List.getElem?_append_right (by omega), hlen]
      refine ih (k - s.chunkCount) ?_
      rw [total, List.map_cons, List.sum_cons] at hk
      rw [total]
      omega
    · rw [if_neg hs, List.getElem?_append_left (by omega)]
      simp only [Source.chunk_append]
      rw [chunks, List.getElem?_map, List.getElem?_range (by omega)]
      rfl

end Digest

end FastSigner

import FastSigner.Align.Plan
import FastSigner.Digest.Content
import Mathlib.Data.List.TakeWhile

/-!
# Assembling one chunk of the output

`Chunker::assemble_and_hash` cuts one 1 MiB chunk out of the sequence of headers
and source ranges that the plans describe.  It finds the plans that overlap the
chunk, reads their source bytes with one read if they are close together and one
by one otherwise, copies every piece to its place and hashes the result together
with the zero padding that follows the last entry.

`assembleAndHash_eq_ok`: whenever this succeeds, the buffer holds the chunk of
`output` and the digest is the chunk's, through the window or not.
`assembleAndHash_faulty`: it succeeds exactly when none of the reads that it needs fails.
-/

namespace FastSigner.Align

open Lib Digest

def srcWindow : Nat := 2 <<< 20

structure Chunker where
  plans : List Plan
  newEnd : Nat
  paddedEnd : Nat

/-- The plans that overlap `[cs, realEnd)`.  They are sorted, so both binary searches stop where
the predicate first fails. -/
def overlapping (plans : List Plan) (cs realEnd : Nat) : List Plan :=
  (plans.dropWhile fun p => p.outEnd ≤ cs).takeWhile fun p => p.newOff < realEnd

def Plan.dataStart (p : Plan) : Nat := p.newOff + p.hdr.length

/-- Widen a source span by the part of a plan's data inside the chunk. -/
def widen (cs realEnd : Nat) (span : Nat × Nat) (p : Plan) : Nat × Nat :=
  let a := max p.dataStart cs
  let b := min (p.dataStart + p.srcLen) realEnd
  if a < b then
    (min span.1 (p.srcOff + (a - p.dataStart)), max span.2 (p.srcOff + (b - p.dataStart)))
  else span

def sourceSpan (plans : List Plan) (cs realEnd : Nat) : Nat × Nat :=
  plans.foldl (widen cs realEnd) (2 ^ 64 - 1, 0)

/-- The one read that serves the whole chunk, if the span is small enough for it. -/
def readWindow (input : ReadAt) (span : Nat × Nat) : Except IoError (Option (Nat × Bytes)) :=
  if span.1 < span.2 ∧ span.2 - span.1 ≤ srcWindow then do
    let bytes ← input.readExactAt span.1 (span.2 - span.1)
    .ok (some (span.1, bytes))
  else .ok none

/-- `n` source bytes from `src`: out of the window, or by a read of their own. -/
def readPiece (input : ReadAt) (window : Option (Nat × Bytes)) (src n : Nat) :
    Except IoError Bytes :=
  match window with
  | some (w, bytes) => .ok (slice bytes (src - w) (src - w + n))
  | none => input.readExactAt src n

/-- Copy a plan's header and data into the chunk. -/
def copyPlan (input : ReadAt) (window : Option (Nat × Bytes)) (cs realEnd : Nat) (target : Bytes)
    (p : Plan) : Except IoError Bytes := do
  let h0 := p.newOff
  let h1 := p.dataStart
  let a := max h0 cs
  let b := min h1 realEnd
  let target := if a < b then patch target (a - cs) (slice p.hdr (a - h0) (b - h0)) else target
  let d0 := p.dataStart
  let d1 := d0 + p.srcLen
  let a := max d0 cs
  let b := min d1 realEnd
  if a < b then do
    let piece ← readPiece input window (p.srcOff + (a - d0)) (b - a)
    .ok (patch target (a - cs) piece)
  else .ok target

/-- A chunk: the bytes to write, its digest and the buffer. -/
structure Assembled where
  real : Nat
  digest : Bytes
  buf : Bytes

def Chunker.assembleAndHash (c : Chunker) (R : Crypto) (alg : Algorithm) (k : Nat) (input : ReadAt)
    (buf : Bytes) : Except IoError Assembled := do
  let cs := k * chunkSize
  let ce := min (cs + chunkSize) c.paddedEnd
  let realEnd := min ce c.newEnd
  let real := realEnd - cs
  let zeros := (ce - cs) - real
  if real = 0 then .ok ⟨0, hashChunk R alg [List.replicate zeros 0], buf⟩
  else do
    let plans := overlapping c.plans cs realEnd
    let window ← readWindow input (sourceSpan plans cs realEnd)
    let target ← plans.foldlM (copyPlan input window cs realEnd) (buf.take real)
    .ok ⟨real, hashChunk R alg [target, List.replicate zeros 0], target ++ buf.drop real⟩

/-! ### The plans of a chunk -/

theorem outEnd_le_of_contiguous :
    ∀ {plans : List Plan} {cursor : Nat}, Contiguous cursor plans →
      ∀ p ∈ plans, cursor ≤ p.newOff ∧ p.outEnd ≤ cursor + newEnd plans := by
  intro plans
  induction plans with
  | nil => intro cursor _ p hp; cases hp
  | cons q plans ih =>
    intro cursor h p hp
    obtain ⟨hq, hrest⟩ := h
    have hend : q.outEnd = cursor + q.outLen := by rw [Plan.outEnd, hq]
    rw [newEnd, List.map_cons, List.sum_cons]
    rcases List.mem_cons.mp hp with rfl | hp
    · omega
    · have htail := ih hrest p hp
      rw [newEnd] at htail
      omega

theorem pairwise_newOff :
    ∀ {plans : List Plan} {cursor : Nat}, Contiguous cursor plans →
      plans.Pairwise fun p q => p.newOff ≤ q.newOff := by
  intro plans
  induction plans with
  | nil => intro cursor _; exact List.Pairwise.nil
  | cons q plans ih =>
    intro cursor h
    obtain ⟨hq, hrest⟩ := h
    refine List.pairwise_cons.mpr ⟨?_, ih hrest⟩
    intro p hp
    have := (outEnd_le_of_contiguous hrest p hp).1
    rw [Plan.outEnd] at this
    omega

theorem exists_plan_at :
    ∀ {plans : List Plan} {cursor x : Nat}, Contiguous cursor plans → cursor ≤ x →
      x < cursor + newEnd plans → ∃ p ∈ plans, p.newOff ≤ x ∧ x < p.outEnd := by
  intro plans
  induction plans with
  | nil =>
    intro cursor x _ h1 h2
    simp only [newEnd, List.map_nil, List.sum_nil] at h2
    omega
  | cons q plans ih =>
    intro cursor x h h1 h2
    obtain ⟨hq, hrest⟩ := h
    have hend : q.outEnd = cursor + q.outLen := by rw [Plan.outEnd, hq]
    by_cases hx : x < q.outEnd
    · exact ⟨q, by simp, by omega, hx⟩
    · rw [newEnd, List.map_cons, List.sum_cons] at h2
      obtain ⟨p, hp, hpx⟩ := ih hrest (show q.outEnd ≤ x by omega) (by rw [newEnd]; omega)
      exact ⟨p, by simp [hp], hpx⟩

theorem mem_dropWhile {α : Type*} {l : List α} {f : α → Bool} {x : α} (h : x ∈ l)
    (hx : f x = false) : x ∈ l.dropWhile f := by
  rw [← List.takeWhile_append_dropWhile (p := f) (l := l), List.mem_append] at h
  rcases h with h | h
  · rw [List.mem_takeWhile_imp h] at hx
    cases hx
  · exact h

theorem mem_takeWhile_of_pairwise {α : Type*} {f : α → Nat} {n : Nat} :
    ∀ {l : List α}, (l.Pairwise fun a b => f a ≤ f b) → ∀ x ∈ l, f x < n →
      x ∈ l.takeWhile fun a => f a < n := by
  intro l
  induction l with
  | nil => intro _ x hx; cases hx
  | cons a l ih =>
    intro h x hx hlt
    rw [List.pairwise_cons] at h
    have ha : f a < n := by
      rcases List.mem_cons.mp hx with rfl | hx
      · exact hlt
      · have := h.1 x hx
        omega
    rw [List.takeWhile_cons_of_pos (by simpa using ha)]
    rcases List.mem_cons.mp hx with rfl | hx
    · simp
    · exact List.mem_cons_of_mem _ (ih h.2 x hx hlt)

theorem mem_overlapping {plans : List Plan} {cursor cs realEnd : Nat} {p : Plan}
    (h : Contiguous cursor plans) (hp : p ∈ plans) (h1 : cs < p.outEnd) (h2 : p.newOff < realEnd) :
    p ∈ overlapping plans cs realEnd := by
  refine mem_takeWhile_of_pairwise ?_ p (mem_dropWhile hp (by simpa using h1)) h2
  exact (pairwise_newOff h).sublist (List.dropWhile_sublist _)

theorem mem_of_mem_overlapping {plans : List Plan} {cs realEnd : Nat} {p : Plan}
    (h : p ∈ overlapping plans cs realEnd) : p ∈ plans :=
  (List.dropWhile_sublist _).mem ((List.takeWhile_prefix _).sublist.mem h)

theorem slice_output {b : Bytes} :
    ∀ {plans : List Plan} {cursor : Nat}, Contiguous cursor plans →
      (∀ p ∈ plans, p.srcOff + p.srcLen ≤ b.length) → ∀ p ∈ plans,
      slice (output b plans) (p.newOff - cursor) (p.outEnd - cursor) = p.content b := by
  intro plans
  induction plans with
  | nil => intro cursor _ _ p hp; cases hp
  | cons q plans ih =>
    intro cursor h hin p hp
    obtain ⟨hq, hrest⟩ := h
    have hlen : (q.content b).length = q.outLen := by
      rw [Plan.content, List.length_append, length_slice_of_le _ (hin q (by simp)), Plan.outLen]
      omega
    have hend : q.outEnd = cursor + q.outLen := by rw [Plan.outEnd, hq]
    rw [output, List.flatMap_cons]
    rcases List.mem_cons.mp hp with rfl | hp
    · rw [hq, Nat.sub_self, hend, Nat.add_sub_cancel_left, slice_append_left _ _ (by omega),
        slice_zero, List.take_of_length_le (by omega)]
    · have hle := (outEnd_le_of_contiguous hrest p hp).1
      have htail := ih hrest (fun r hr => hin r (by simp [hr])) p hp
      rw [output] at htail
      rw [slice_append_right _ _ (by omega), hlen, ← htail]
      congr 1 <;> omega

/-! ### Copying pieces -/

/-- The part of a plan's header inside the chunk, as a patch of the chunk. -/
def headerPatch (cs realEnd : Nat) (p : Plan) : List (Nat × Bytes) :=
  let a := max p.newOff cs
  let b := min p.dataStart realEnd
  if a < b then [(a - cs, slice p.hdr (a - p.newOff) (b - p.newOff))] else []

def dataPatch (src : Bytes) (cs realEnd : Nat) (p : Plan) : List (Nat × Bytes) :=
  let a := max p.dataStart cs
  let b := min (p.dataStart + p.srcLen) realEnd
  if a < b then
    [(a - cs, slice src (p.srcOff + (a - p.dataStart)) (p.srcOff + (b - p.dataStart)))]
  else []

def planPatches (src : Bytes) (cs realEnd : Nat) (p : Plan) : List (Nat × Bytes) :=
  headerPatch cs realEnd p ++ dataPatch src cs realEnd p

def Covers (cs realEnd : Nat) (span : Nat × Nat) (p : Plan) : Prop :=
  max p.dataStart cs < min (p.dataStart + p.srcLen) realEnd →
    span.1 ≤ p.srcOff + (max p.dataStart cs - p.dataStart) ∧
      p.srcOff + (min (p.dataStart + p.srcLen) realEnd - p.dataStart) ≤ span.2

theorem widen_covers (cs realEnd : Nat) (span : Nat × Nat) (p : Plan) :
    Covers cs realEnd (widen cs realEnd span p) p := by
  intro h
  rw [widen, if_pos h]
  exact ⟨Nat.min_le_right .., Nat.le_max_right ..⟩

theorem widen_mono {cs realEnd : Nat} {span : Nat × Nat} {q : Plan} (p : Plan)
    (h : Covers cs realEnd span q) : Covers cs realEnd (widen cs realEnd span p) q := by
  intro hq
  have := h hq
  rw [widen]
  split
  · simp only
    omega
  · exact this

theorem sourceSpan_covers {cs realEnd : Nat} :
    ∀ (plans : List Plan) (span : Nat × Nat),
      (∀ p ∈ plans, Covers cs realEnd (plans.foldl (widen cs realEnd) span) p) ∧
      ∀ q, Covers cs realEnd span q →
        Covers cs realEnd (plans.foldl (widen cs realEnd) span) q := by
  intro plans
  induction plans with
  | nil => intro span; exact ⟨by simp, fun q h => h⟩
  | cons p plans ih =>
    intro span
    obtain ⟨hall, hkeep⟩ := ih (widen cs realEnd span p)
    rw [List.foldl_cons]
    refine ⟨?_, fun q h => hkeep q (widen_mono p h)⟩
    intro q hq
    rcases List.mem_cons.mp hq with rfl | hq
    · exact hkeep q (widen_covers cs realEnd span q)
    · exact hall q hq

def WindowOk (src : Bytes) (span : Nat × Nat) (window : Option (Nat × Bytes)) : Prop :=
  ∀ w ∈ window, w.1 = span.1 ∧ w.2 = slice src span.1 span.2

theorem readWindow_eq_ok {input : ReadAt} {src : Bytes} {span : Nat × Nat}
    {window : Option (Nat × Bytes)} (hin : input.Honest src)
    (h : readWindow input span = .ok window) : WindowOk src span window := by
  rw [readWindow] at h
  split at h
  · rename_i hs
    rw [bind_eq_ok] at h
    obtain ⟨bytes, hread, h⟩ := h
    obtain ⟨-, hbytes⟩ := hin _ _ _ hread
    obtain rfl := Except.ok.inj h
    rintro w ⟨⟩
    refine ⟨rfl, ?_⟩
    rw [hbytes, show span.1 + (span.2 - span.1) = span.2 by omega]
  · obtain rfl := Except.ok.inj h
    rintro w ⟨⟩

/-- **Copying a plan applies its patches**, wherever the data comes from. -/
theorem copyPlan_eq_ok {input : ReadAt} {src : Bytes} {span : Nat × Nat}
    {window : Option (Nat × Bytes)} {cs realEnd : Nat} {target target' : Bytes} {p : Plan}
    (hin : input.Honest src) (hw : WindowOk src span window) (hc : Covers cs realEnd span p)
    (h : copyPlan input window cs realEnd target p = .ok target') :
    target' = applyPatches target (planPatches src cs realEnd p) := by
  have hhead : (if max p.newOff cs < min p.dataStart realEnd then
      patch target (max p.newOff cs - cs)
        (slice p.hdr (max p.newOff cs - p.newOff) (min p.dataStart realEnd - p.newOff))
      else target) = applyPatches target (headerPatch cs realEnd p) := by
    rw [headerPatch]
    split <;> rfl
  rw [copyPlan] at h
  simp only [hhead] at h
  rw [planPatches, applyPatches, List.foldl_append]
  change _ = applyPatches (applyPatches target (headerPatch cs realEnd p)) _
  split at h
  · rename_i hlt
    rw [bind_eq_ok] at h
    obtain ⟨piece, hpiece, h⟩ := h
    obtain ⟨hlo, hhi⟩ := hc hlt
    have hval : piece = slice src (p.srcOff + (max p.dataStart cs - p.dataStart))
        (p.srcOff + (min (p.dataStart + p.srcLen) realEnd - p.dataStart)) := by
      cases window with
      | none =>
        obtain ⟨-, hp⟩ := hin _ _ _ hpiece
        rw [hp]
        congr 1
        omega
      | some w =>
        rw [readPiece] at hpiece
        obtain ⟨hw1, hw2⟩ := hw w rfl
        rw [← Except.ok.inj hpiece, hw2, hw1, slice_slice_of_le src (by omega)]
        congr 1 <;> omega
    rw [← Except.ok.inj h, hval, dataPatch, if_pos hlt]
    rfl
  · rename_i hlt
    rw [← Except.ok.inj h, dataPatch, if_neg hlt]
    rfl

theorem foldlM_copyPlan {input : ReadAt} {src : Bytes} {span : Nat × Nat}
    {window : Option (Nat × Bytes)} {cs realEnd : Nat} (hin : input.Honest src)
    (hw : WindowOk src span window) :
    ∀ (plans : List Plan) (target target' : Bytes), (∀ p ∈ plans, Covers cs realEnd span p) →
      plans.foldlM (copyPlan input window cs realEnd) target = .ok target' →
      target' = applyPatches target (plans.flatMap (planPatches src cs realEnd)) := by
  intro plans
  induction plans with
  | nil =>
    intro target target' _ h
    exact (Except.ok.inj h).symm
  | cons p plans ih =>
    intro target target' hc h
    rw [List.foldlM_cons, bind_eq_ok] at h
    obtain ⟨mid, hmid, h⟩ := h
    have hstep := copyPlan_eq_ok hin hw (hc p (by simp)) hmid
    have htail := ih mid target' (fun q hq => hc q (by simp [hq])) h
    rw [htail, hstep, List.flatMap_cons, applyPatches, applyPatches, applyPatches,
      List.foldl_append]

/-! ### The chunk -/

section Chunk

variable {src : Bytes} {plans : List Plan}

theorem slice_content (hp : PlansOk src.length plans) {p : Plan} (hmem : p ∈ plans) {i j : Nat}
    (hj : j ≤ p.outLen) :
    slice (p.content src) i j = slice (output src plans) (p.newOff + i) (p.newOff + j) := by
  have h := slice_output hp.contiguous hp.inside p hmem
  rw [Nat.sub_zero, Nat.sub_zero] at h
  rw [← h, slice_slice_of_le _ (by rw [Plan.outEnd]; omega)]

theorem patchOf_planPatches (hp : PlansOk src.length plans) {cs realEnd : Nat}
    (hre : realEnd ≤ newEnd plans) {p : Plan} (hmem : p ∈ plans) :
    ∀ q ∈ planPatches src cs realEnd p, PatchOf (slice (output src plans) cs realEnd) q := by
  have hlen := length_output hp.inside
  have hslice : ∀ {a b : Nat}, cs ≤ a → a < b → b ≤ realEnd →
      PatchOf (slice (output src plans) cs realEnd) (a - cs, slice (output src plans) a b) := by
    intro a b h1 h2 h3
    have hsub := patchOf_slice (T := slice (output src plans) cs realEnd) (i := a - cs)
      (j := b - cs) (by omega) (by rw [length_slice_of_le _ (by omega)]; omega)
    rwa [slice_slice_of_le _ (by omega), show cs + (a - cs) = a by omega,
      show cs + (b - cs) = b by omega] at hsub
  have hstart : p.dataStart = p.newOff + p.hdr.length := rfl
  have hout : p.outLen = p.hdr.length + p.srcLen := rfl
  intro q hq
  rw [planPatches, List.mem_append] at hq
  rcases hq with hq | hq
  · rw [headerPatch] at hq
    split at hq
    · rename_i hlt
      rw [List.mem_singleton.mp hq]
      have hval : slice p.hdr (max p.newOff cs - p.newOff) (min p.dataStart realEnd - p.newOff)
          = slice (output src plans) (max p.newOff cs) (min p.dataStart realEnd) := by
        have hc := slice_content hp hmem (i := max p.newOff cs - p.newOff)
          (j := min p.dataStart realEnd - p.newOff) (by omega)
        rw [Plan.content, slice_append_left _ _ (by omega)] at hc
        rw [hc]
        congr 1 <;> omega
      rw [hval]
      exact hslice (by omega) hlt (by omega)
    · cases hq
  · rw [dataPatch] at hq
    split at hq
    · rename_i hlt
      rw [List.mem_singleton.mp hq]
      have hval : slice src (p.srcOff + (max p.dataStart cs - p.dataStart))
            (p.srcOff + (min (p.dataStart + p.srcLen) realEnd - p.dataStart))
          = slice (output src plans) (max p.dataStart cs)
            (min (p.dataStart + p.srcLen) realEnd) := by
        have hc := slice_content hp hmem (i := max p.dataStart cs - p.newOff)
          (j := min (p.dataStart + p.srcLen) realEnd - p.newOff) (by omega)
        rw [Plan.content, slice_append_right _ _ (by omega), slice_slice_of_le _ (by omega)] at hc
        have e1 : p.srcOff + (max p.dataStart cs - p.newOff - p.hdr.length)
            = p.srcOff + (max p.dataStart cs - p.dataStart) := by omega
        have e2 : p.srcOff + (min (p.dataStart + p.srcLen) realEnd - p.newOff - p.hdr.length)
            = p.srcOff + (min (p.dataStart + p.srcLen) realEnd - p.dataStart) := by omega
        rw [e1, e2] at hc
        rw [hc]
        congr 1 <;> omega
      rw [hval]
      exact hslice (by omega) hlt (by omega)
    · cases hq

theorem planPatches_cover {cs realEnd x : Nat} {p : Plan} (h1 : cs ≤ x) (h2 : x < realEnd)
    (h3 : p.newOff ≤ x) (h4 : x < p.outEnd) (hin : p.srcOff + p.srcLen ≤ src.length) :
    ∃ q ∈ planPatches src cs realEnd p, q.1 ≤ x - cs ∧ x - cs < q.1 + q.2.length := by
  have hstart : p.dataStart = p.newOff + p.hdr.length := rfl
  have hend : p.outEnd = p.newOff + (p.hdr.length + p.srcLen) := rfl
  by_cases hx : x < p.dataStart
  · have hlt : max p.newOff cs < min p.dataStart realEnd := by omega
    refine ⟨(max p.newOff cs - cs,
      slice p.hdr (max p.newOff cs - p.newOff) (min p.dataStart realEnd - p.newOff)),
      List.mem_append_left _ ?_, ?_⟩
    · rw [headerPatch, if_pos hlt]
      exact List.mem_singleton.mpr rfl
    · simp only [length_slice]
      omega
  · have hlt : max p.dataStart cs < min (p.dataStart + p.srcLen) realEnd := by omega
    refine ⟨(max p.dataStart cs - cs, slice src (p.srcOff + (max p.dataStart cs - p.dataStart))
      (p.srcOff + (min (p.dataStart + p.srcLen) realEnd - p.dataStart))),
      List.mem_append_right _ ?_, ?_⟩
    · rw [dataPatch, if_pos hlt]
      exact List.mem_singleton.mpr rfl
    · simp only [length_slice]
      omega

/-- **The patches of the overlapping plans rebuild the chunk**, whatever the buffer held. -/
theorem applyPatches_overlapping (hp : PlansOk src.length plans) {cs realEnd : Nat}
    (hre : realEnd ≤ newEnd plans) {target : Bytes} (ht : target.length = realEnd - cs) :
    applyPatches target ((overlapping plans cs realEnd).flatMap (planPatches src cs realEnd))
      = slice (output src plans) cs realEnd := by
  have hlen := length_output hp.inside
  have htotal : (slice (output src plans) cs realEnd).length = realEnd - cs :=
    length_slice_of_le _ (by omega)
  apply applyPatches_eq (by rw [ht, htotal])
  · intro q hq
    obtain ⟨p, hpo, hqp⟩ := List.mem_flatMap.mp hq
    exact patchOf_planPatches hp hre (mem_of_mem_overlapping hpo) q hqp
  · intro x hx
    right
    obtain ⟨p, hmem, hpx1, hpx2⟩ := exists_plan_at (x := cs + x) hp.contiguous (by omega) (by omega)
    obtain ⟨q, hq, hqx⟩ := planPatches_cover (show cs ≤ cs + x by omega)
      (show cs + x < realEnd by omega) hpx1 hpx2 (hp.inside p hmem)
    refine ⟨q, List.mem_flatMap.mpr ⟨p, mem_overlapping hp.contiguous hmem (by omega) (by omega), hq⟩,
      ?_⟩
    omega

/-- Chunk `k` of the output, and the zeros of the padding that belong to it. -/
def Chunker.bytes (c : Chunker) (src : Bytes) (k : Nat) : Bytes :=
  slice (output src c.plans) (k * chunkSize) (k * chunkSize + chunkSize)

def Chunker.zeros (c : Chunker) (src : Bytes) (k : Nat) : Nat :=
  min (k * chunkSize + chunkSize) c.paddedEnd - k * chunkSize - (c.bytes src k).length

/-- The chunker of a sound list of plans. -/
structure ChunkerOk (n : Nat) (c : Chunker) : Prop where
  plans : PlansOk n c.plans
  newEnd : c.newEnd = Align.newEnd c.plans
  padded : c.newEnd ≤ c.paddedEnd

theorem ChunkerOk.real {c : Chunker} (hc : ChunkerOk src.length c) (k : Nat) :
    min (min (k * chunkSize + chunkSize) c.paddedEnd) c.newEnd - k * chunkSize
        = (c.bytes src k).length ∧
      slice (output src c.plans) (k * chunkSize)
        (min (min (k * chunkSize + chunkSize) c.paddedEnd) c.newEnd) = c.bytes src k := by
  have hend : c.newEnd = (output src c.plans).length := by
    rw [hc.newEnd, length_output hc.plans.inside]
  have hpad : (output src c.plans).length ≤ c.paddedEnd := hend ▸ hc.padded
  rw [Chunker.bytes, hend]
  exact ⟨min_length_sub_eq _ _ hpad, slice_min_length _ _ hpad⟩

/-- **An assembled chunk is the chunk of the output, and its digest is the chunk's.** -/
theorem assembleAndHash_eq_ok {c : Chunker} {R : Crypto} {alg : Algorithm} {k : Nat}
    {input : ReadAt} {buf : Bytes} {r : Assembled} (hin : input.Honest src)
    (hc : ChunkerOk src.length c) (hbuf : buf.length = chunkSize)
    (h : c.assembleAndHash R alg k input buf = .ok r) :
    r.real = (c.bytes src k).length ∧ r.buf.length = chunkSize ∧
      r.buf.take r.real = c.bytes src k ∧
      r.digest = hashChunk R alg [c.bytes src k, List.replicate (c.zeros src k) 0] := by
  obtain ⟨hreal, hbytes⟩ := hc.real k
  have hle : (c.bytes src k).length ≤ buf.length := by
    rw [hbuf]
    exact length_slice_add_le _ _ _
  have hend : min (min (k * chunkSize + chunkSize) c.paddedEnd) c.newEnd ≤ newEnd c.plans :=
    hc.newEnd ▸ Nat.min_le_right _ _
  rw [Chunker.assembleAndHash] at h
  simp only [hreal] at h
  split at h
  · rename_i hz
    obtain rfl := Except.ok.inj h
    have hnil : c.bytes src k = [] := List.eq_nil_of_length_eq_zero hz
    refine ⟨hz.symm, hbuf, by rw [hnil, List.take_zero], ?_⟩
    rw [Chunker.zeros, hnil, hashChunk_eq, hashChunk_eq, List.flatten_singleton,
      List.flatten_cons, List.nil_append, List.flatten_singleton]
  · rw [bind_eq_ok] at h
    obtain ⟨window, hwin, h⟩ := h
    rw [bind_eq_ok] at h
    obtain ⟨target, htarget, h⟩ := h
    obtain rfl := Except.ok.inj h
    have hfold := foldlM_copyPlan hin (readWindow_eq_ok hin hwin) _ _ _
      (fun p hp => (sourceSpan_covers _ _).1 p hp) htarget
    rw [applyPatches_overlapping hc.plans hend (by
      rw [hreal, List.length_take, Nat.min_eq_left hle]), hbytes] at hfold
    subst hfold
    refine ⟨rfl, ?_, List.take_left, rfl⟩
    rw [List.length_append, List.length_drop, Nat.add_sub_cancel' hle, hbuf]

/-! ### Read errors -/

/-- The source bytes of a plan that a chunk without window reads. -/
def pieceReads (cs realEnd : Nat) (p : Plan) : List (Nat × Nat) :=
  let a := max p.dataStart cs
  let b := min (p.dataStart + p.srcLen) realEnd
  if a < b then [(p.srcOff + (a - p.dataStart), b - a)] else []

/-- The reads that chunk `k` needs, as offset and length. -/
def Chunker.reads (c : Chunker) (k : Nat) : List (Nat × Nat) :=
  let cs := k * chunkSize
  let realEnd := min (min (cs + chunkSize) c.paddedEnd) c.newEnd
  let plans := overlapping c.plans cs realEnd
  let span := sourceSpan plans cs realEnd
  if realEnd - cs = 0 then []
  else if span.1 < span.2 ∧ span.2 - span.1 ≤ srcWindow then [(span.1, span.2 - span.1)]
  else plans.flatMap (pieceReads cs realEnd)

/-- The read that fails and ends the work on chunk `k`, if one does. -/
def Chunker.failedRead (c : Chunker) (k : Nat) (fault : (off n : Nat) → Option IoError) :
    Option IoError :=
  (c.reads k).findSome? fun x => fault x.1 x.2

theorem readExactAt_faulty {fault : (off n : Nat) → Option IoError} {off n : Nat}
    (h : off + n ≤ src.length) :
    (∃ x, (ReadAt.faulty src fault).readExactAt off n = .ok x) ↔ fault off n = none := by
  simp only [ReadAt.faulty]
  cases hf : fault off n with
  | none => simp [ReadAt.ofBytes_readExactAt h]
  | some e => simp

theorem span_inside (hp : PlansOk src.length plans) (cs realEnd : Nat) :
    ∀ (ps : List Plan), (∀ p ∈ ps, p ∈ plans) → ∀ span : Nat × Nat, span.2 ≤ src.length →
      (ps.foldl (widen cs realEnd) span).2 ≤ src.length := by
  intro ps
  induction ps with
  | nil => intro _ span h; exact h
  | cons p ps ih =>
    intro hmem span h
    rw [List.foldl_cons]
    refine ih (fun q hq => hmem q (by simp [hq])) _ ?_
    have hin := hp.inside p (hmem p (by simp))
    rw [widen]
    split
    · simp only
      omega
    · exact h

theorem copyPlan_window (input : ReadAt) (w : Nat × Bytes) (cs realEnd : Nat) (target : Bytes)
    (p : Plan) : ∃ target', copyPlan input (some w) cs realEnd target p = .ok target' := by
  rw [copyPlan]
  split
  · rw [readPiece, ok_bind]
    exact ⟨_, rfl⟩
  · exact ⟨_, rfl⟩

theorem copyPlan_faulty (hp : PlansOk src.length plans) {fault : (off n : Nat) → Option IoError}
    {cs realEnd : Nat} (target : Bytes) {p : Plan} (hmem : p ∈ plans) :
    (∃ target', copyPlan (ReadAt.faulty src fault) none cs realEnd target p = .ok target') ↔
      ∀ x ∈ pieceReads cs realEnd p, fault x.1 x.2 = none := by
  have hin := hp.inside p hmem
  rw [copyPlan, pieceReads]
  by_cases hab : max p.dataStart cs < min (p.dataStart + p.srcLen) realEnd
  · rw [if_pos hab, if_pos hab]
    simp only [readPiece, List.mem_singleton, forall_eq]
    rw [← readExactAt_faulty (show _ ≤ src.length by omega)]
    constructor
    · rintro ⟨t, h⟩
      obtain ⟨x, hx, -⟩ := bind_eq_ok.mp h
      exact ⟨x, hx⟩
    · rintro ⟨x, hx⟩
      exact ⟨_, by rw [hx, ok_bind]⟩
  · rw [if_neg hab, if_neg hab]
    simp

theorem foldlM_copyPlan_faulty (hp : PlansOk src.length plans)
    {fault : (off n : Nat) → Option IoError} {cs realEnd : Nat} :
    ∀ (ps : List Plan) (target : Bytes), (∀ p ∈ ps, p ∈ plans) →
      ((∃ t, ps.foldlM (copyPlan (ReadAt.faulty src fault) none cs realEnd) target = .ok t) ↔
        ∀ x ∈ ps.flatMap (pieceReads cs realEnd), fault x.1 x.2 = none) := by
  intro ps
  induction ps with
  | nil =>
    intro target _
    exact ⟨(fun _ x hx => nomatch hx), fun _ => ⟨target, rfl⟩⟩
  | cons p ps ih =>
    intro target hmem
    have hone : (∃ t, copyPlan (ReadAt.faulty src fault) none cs realEnd target p = .ok t) ↔ _ :=
      copyPlan_faulty hp target (hmem p (by simp))
    simp only [List.flatMap_cons, List.mem_append, or_imp, forall_and]
    rw [← hone, List.foldlM_cons]
    constructor
    · rintro ⟨t, h⟩
      obtain ⟨mid, hmid, h⟩ := bind_eq_ok.mp h
      exact ⟨⟨mid, hmid⟩, (ih mid (fun q hq => hmem q (by simp [hq]))).mp ⟨t, h⟩⟩
    · rintro ⟨⟨mid, hmid⟩, hrest⟩
      obtain ⟨t, ht⟩ := (ih mid (fun q hq => hmem q (by simp [hq]))).mpr hrest
      exact ⟨t, by rw [hmid, ok_bind, ht]⟩

theorem foldlM_copyPlan_window (input : ReadAt) (w : Nat × Bytes) (cs realEnd : Nat) :
    ∀ (ps : List Plan) (target : Bytes),
      ∃ t, ps.foldlM (copyPlan input (some w) cs realEnd) target = .ok t := by
  intro ps
  induction ps with
  | nil => intro target; exact ⟨target, rfl⟩
  | cons p ps ih =>
    intro target
    obtain ⟨mid, hmid⟩ := copyPlan_window input w cs realEnd target p
    obtain ⟨t, ht⟩ := ih mid
    exact ⟨t, by rw [List.foldlM_cons, hmid, ok_bind, ht]⟩

/-- **A chunk is assembled exactly when none of the reads that it needs fails.** -/
theorem assembleAndHash_faulty {c : Chunker} (R : Crypto) (alg : Algorithm) (k : Nat) (buf : Bytes)
    (hc : ChunkerOk src.length c) (fault : (off n : Nat) → Option IoError) :
    (∃ r, c.assembleAndHash R alg k (ReadAt.faulty src fault) buf = .ok r) ↔
      c.failedRead k fault = none := by
  rw [Chunker.failedRead, List.findSome?_eq_none_iff, Chunker.assembleAndHash, Chunker.reads]
  simp only
  generalize hre : min (min (k * chunkSize + chunkSize) c.paddedEnd) c.newEnd = realEnd
  split
  · exact ⟨(fun _ x hx => nomatch hx), fun _ => ⟨_, rfl⟩⟩
  · have hin := span_inside hc.plans (k * chunkSize) realEnd
      (overlapping c.plans (k * chunkSize) realEnd) (fun p hp => mem_of_mem_overlapping hp)
      (2 ^ 64 - 1, 0) (Nat.zero_le _)
    rw [readWindow]
    generalize hspan : sourceSpan (overlapping c.plans (k * chunkSize) realEnd) (k * chunkSize)
      realEnd = span
    rw [sourceSpan] at hspan
    rw [hspan] at hin
    split
    · rename_i hw
      simp only [List.mem_singleton, forall_eq]
      rw [← readExactAt_faulty (show _ ≤ src.length by omega)]
      constructor
      · rintro ⟨r, h⟩
        obtain ⟨w, hw, -⟩ := bind_eq_ok.mp h
        obtain ⟨x, hx, -⟩ := bind_eq_ok.mp hw
        exact ⟨x, hx⟩
      · rintro ⟨x, hx⟩
        obtain ⟨t, ht⟩ := foldlM_copyPlan_window (ReadAt.faulty src fault) (span.1, x)
          (k * chunkSize) realEnd (overlapping c.plans (k * chunkSize) realEnd)
          (buf.take (realEnd - k * chunkSize))
        exact ⟨_, by rw [hx, ok_bind, ok_bind, ht, ok_bind]⟩
    · rw [← foldlM_copyPlan_faulty hc.plans _ (buf.take (realEnd - k * chunkSize))
        (fun p hp => mem_of_mem_overlapping hp), ok_bind]
      constructor
      · rintro ⟨r, h⟩
        obtain ⟨t, ht, -⟩ := bind_eq_ok.mp h
        exact ⟨t, ht⟩
      · rintro ⟨t, ht⟩
        exact ⟨_, by rw [ht, ok_bind]⟩

end Chunk

end FastSigner.Align

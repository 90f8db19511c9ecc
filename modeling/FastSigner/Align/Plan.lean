import FastSigner.Align.Header

/-!
# Planning the rewrite

The first half of `rewrite` walks the entries in file order and decides, before
a byte is copied, where everything goes: a `Plan` copies a range of the input
behind a header of its own (a kept record) or behind nothing (a gap of bytes
that belong to no processed record).

The abstract view is a list of `Placed` records, one for each processed entry.
`Laid` says that they follow one another in the input and where each lands in the
output, and `weave` is the output section that they describe.  `planLoop_eq_ok`
and `planLoop_of_placed` connect the two: the planner succeeds exactly on what
can be laid out, and its plans spell `weave` (`content_plansFor`).
-/

namespace FastSigner.Align

open Lib Zip

/-- What `rewrite` is given to work on. -/
structure Archive where
  input : ReadAt
  cd : Bytes
  entries : List CdEntry
  policies : List EntryPolicy
  entriesEnd : Nat
  libPageSize : Nat

/-- One step of the output: `hdr`, then `srcLen` bytes of the input from `srcOff`. -/
structure Plan where
  idx : Option Nat -- Index of the entry for a record; `none` for a gap.
  srcOff : Nat
  srcLen : Nat
  newOff : Nat
  hdr : Bytes
  deriving DecidableEq, Repr

def Plan.outLen (p : Plan) : Nat := p.hdr.length + p.srcLen

def Plan.outEnd (p : Plan) : Nat := p.newOff + p.outLen

def Archive.policy (A : Archive) (i : Nat) : EntryPolicy := A.policies.getD i .gap

def Archive.rule (A : Archive) (e : CdEntry) : Nat := requiredAlignment A.cd e A.libPageSize

/-- Length of the data descriptor expected at `off`.  A read that fails counts as no signature. -/
def Archive.descriptorLen (A : Archive) (e : CdEntry) (off : Nat) : Nat :=
  if e.hasDataDescriptor then
    if off + 4 ≤ A.entriesEnd ∧
        (A.input.readExactAt off 4).toOption.map leNat = some dataDescriptorSig then 16 else 12
  else 0

def Archive.dataLen (A : Archive) (e : CdEntry) (srcDataOff : Nat) : Nat :=
  e.compressedSize + A.descriptorLen e (srcDataOff + e.compressedSize)

def gapPlans (consumed upto cursor : Nat) : List Plan :=
  if consumed < upto then [⟨none, consumed, upto - consumed, cursor, []⟩] else []

/-- The planning loop: `cursor` is where the output stands, `consumed` where the input does. -/
def planLoop (A : Archive) (hdrs : HeaderReader) (cursor consumed : Nat) :
    List (CdEntry × Nat) → Except Error (List Plan)
  | [] => .ok (gapPlans consumed A.entriesEnd cursor)
  | (e, i) :: rest =>
    if A.policy i = .gap then planLoop A hdrs cursor consumed rest
    else if e.lfhOff < consumed then .error (.entryOverlaps (e.nameIn A.cd))
    else do
      let gap := gapPlans consumed e.lfhOff cursor
      let cursor := cursor + (e.lfhOff - consumed)
      let (pfx, hdrs) ← hdrs.prefixAt A.input A.entriesEnd e.lfhOff
      let srcDataOff := e.lfhOff + pfx.length
      let dataLen := A.dataLen e srcDataOff
      if A.entriesEnd < srcDataOff + dataLen then .error (.entryOverruns (e.nameIn A.cd))
      else
        let consumed := srcDataOff + dataLen
        if A.policy i = .skip then do
          let plans ← planLoop A hdrs cursor consumed rest
          .ok (gap ++ plans)
        else do
          let hdr ← newHeader (e.nameIn A.cd) (A.rule e) cursor pfx
          let plans ← planLoop A hdrs (cursor + (hdr.length + dataLen)) consumed rest
          .ok (gap ++ ⟨some i, srcDataOff, dataLen, cursor, hdr⟩ :: plans)

/-- All plans, and how many entries are dropped. -/
def planAll (A : Archive) : Except Error (List Plan × Nat) := do
  let order ← fileOrder A.entries A.entriesEnd
  let plans ← planLoop A HeaderReader.new 0 0 order
  .ok (plans, order.countP fun x => A.policy x.2 != .output)

def newEnd (plans : List Plan) : Nat := (plans.map Plan.outLen).sum

/-! ### Records laid out -/

/-- What becomes of the record of a processed entry. -/
structure Placed where
  e : CdEntry
  i : Nat
  keep : Bool
  dataOff : Nat -- Where its data starts in the input.
  stop : Nat -- Where it ends in the input, data descriptor included.
  newOff : Nat
  hdr : Bytes

def Placed.record (b : Bytes) (p : Placed) : Bytes :=
  if p.keep then p.hdr ++ slice b p.dataOff p.stop else []

def Placed.outLen (p : Placed) : Nat := if p.keep then p.hdr.length + (p.stop - p.dataOff) else 0

/-- The record is a local record of the archive, and its header is the one that it gets. -/
structure Placed.Ok (A : Archive) (b : Bytes) (p : Placed) : Prop where
  kept : p.keep = decide (A.policy p.i = .output)
  processed : A.policy p.i ≠ .gap
  lfh : HasLfh b p.e.lfhOff
  dataOff : p.dataOff = dataOffset b p.e.lfhOff
  stop : p.stop = p.dataOff + A.dataLen p.e p.dataOff
  fits : p.stop ≤ A.entriesEnd
  hdr : p.keep = true → newHeader (p.e.nameIn A.cd) (A.rule p.e) p.newOff
    (slice b p.e.lfhOff p.dataOff) = .ok p.hdr

/-- The records follow one another in the input, and in the output each comes behind the bytes
before it. -/
def Laid : (cursor consumed : Nat) → List Placed → Prop
  | _, _, [] => True
  | cursor, consumed, p :: ps =>
    consumed ≤ p.e.lfhOff ∧ p.newOff = cursor + (p.e.lfhOff - consumed) ∧
      Laid (p.newOff + p.outLen) p.stop ps

/-- The plans that carry out a layout. -/
def plansFor (entriesEnd : Nat) : (cursor consumed : Nat) → List Placed → List Plan
  | cursor, consumed, [] => gapPlans consumed entriesEnd cursor
  | cursor, consumed, p :: ps =>
    gapPlans consumed p.e.lfhOff cursor
      ++ (if p.keep then [⟨some p.i, p.dataOff, p.stop - p.dataOff, p.newOff, p.hdr⟩] else [])
      ++ plansFor entriesEnd (p.newOff + p.outLen) p.stop ps

/-- The section that a layout describes: every record, and between them the input's bytes that
belong to none. -/
def weave (b : Bytes) (entriesEnd : Nat) : (consumed : Nat) → List Placed → Bytes
  | consumed, [] => slice b consumed entriesEnd
  | consumed, p :: ps =>
    slice b consumed p.e.lfhOff ++ p.record b ++ weave b entriesEnd p.stop ps

def Archive.processed (A : Archive) (order : List (CdEntry × Nat)) : List (CdEntry × Nat) :=
  order.filter fun x => A.policy x.2 != .gap

def Placed.entry (p : Placed) : CdEntry × Nat := (p.e, p.i)

section Planner

variable {A : Archive} {b : Bytes}

theorem Placed.Ok.le {p : Placed} (h : p.Ok A b) : p.e.lfhOff + lfhLen ≤ p.dataOff ∧
    p.dataOff ≤ p.stop := by
  have h1 := h.dataOff
  have h2 := h.stop
  rw [dataOffset] at h1
  omega

/-- **What the planner returns is a layout of the processed entries.** -/
theorem planLoop_eq_ok (hin : A.input.Honest b) (hb : A.entriesEnd ≤ b.length) :
    ∀ (order : List (CdEntry × Nat)) (hdrs : HeaderReader) (cursor consumed : Nat)
      (plans : List Plan), hdrs.Shows b A.entriesEnd →
      (∀ x ∈ order, x.1.lfhOff + lfhLen ≤ A.entriesEnd) →
      planLoop A hdrs cursor consumed order = .ok plans →
      ∃ ps : List Placed, ps.map Placed.entry = A.processed order ∧ (∀ p ∈ ps, p.Ok A b) ∧
        Laid cursor consumed ps ∧ plans = plansFor A.entriesEnd cursor consumed ps := by
  intro order
  induction order with
  | nil =>
    intro hdrs cursor consumed plans _ _ h
    exact ⟨[], rfl, by simp, trivial, (Except.ok.inj h).symm⟩
  | cons x rest ih =>
    obtain ⟨e, i⟩ := x
    intro hdrs cursor consumed plans hs hin' h
    have hrest : ∀ x ∈ rest, x.1.lfhOff + lfhLen ≤ A.entriesEnd := fun x hx => hin' x (by simp [hx])
    have he : e.lfhOff + lfhLen ≤ A.entriesEnd := hin' (e, i) (by simp)
    rw [planLoop] at h
    by_cases hgap : A.policy i = .gap
    · rw [if_pos hgap] at h
      obtain ⟨ps, hps, hok, hlaid, hplans⟩ := ih hdrs cursor consumed plans hs hrest h
      refine ⟨ps, ?_, hok, hlaid, hplans⟩
      rw [hps, Archive.processed, Archive.processed, List.filter_cons_of_neg (by simp [hgap])]
    · have hproc : A.processed ((e, i) :: rest) = (e, i) :: A.processed rest := by
        rw [Archive.processed, Archive.processed, List.filter_cons_of_pos (by simp [hgap])]
      rw [if_neg hgap] at h
      split at h
      · cases h
      · rename_i hcons
        simp only at h
        rw [bind_eq_ok] at h
        obtain ⟨⟨pfx, hdrs'⟩, hpfx, h⟩ := h
        obtain ⟨hs', hlfh, hdoff, rfl⟩ :=
          HeaderReader.prefixAt_eq_ok hin hs (by omega) hpfx
        have hlen : e.lfhOff + (slice b e.lfhOff (dataOffset b e.lfhOff)).length
            = dataOffset b e.lfhOff := by
          rw [length_slice_of_le _ (by omega), dataOffset]
          omega
        simp only [hlen] at h
        split at h
        · cases h
        · rename_i hfits
          by_cases hskip : A.policy i = .skip
          · rw [if_pos hskip, bind_eq_ok] at h
            obtain ⟨plans', hplans', h⟩ := h
            obtain ⟨ps, hps, hok, hlaid, rfl⟩ := ih _ _ _ _ hs' hrest hplans'
            refine ⟨⟨e, i, false, dataOffset b e.lfhOff,
              dataOffset b e.lfhOff + A.dataLen e (dataOffset b e.lfhOff),
              cursor + (e.lfhOff - consumed), []⟩ :: ps, ?_, ?_, ?_, ?_⟩
            · rw [List.map_cons, hps, hproc]
              rfl
            · intro p hp
              rcases List.mem_cons.mp hp with rfl | hp
              · exact ⟨by simp [hskip], hgap, hlfh, rfl, rfl, by simp only; omega,
                  fun hk => by simp at hk⟩
              · exact hok p hp
            · exact ⟨by simp only; omega, rfl, by simpa [Placed.outLen] using hlaid⟩
            · rw [← Except.ok.inj h, plansFor]
              simp [Placed.outLen]
          · rw [if_neg hskip, bind_eq_ok] at h
            obtain ⟨hdr, hhdr, h⟩ := h
            rw [bind_eq_ok] at h
            obtain ⟨plans', hplans', h⟩ := h
            obtain ⟨ps, hps, hok, hlaid, rfl⟩ := ih _ _ _ _ hs' hrest hplans'
            have hout : A.policy i = .output := by
              cases hpol : A.policy i with
              | output => rfl
              | skip => exact absurd hpol hskip
              | gap => exact absurd hpol hgap
            refine ⟨⟨e, i, true, dataOffset b e.lfhOff,
              dataOffset b e.lfhOff + A.dataLen e (dataOffset b e.lfhOff),
              cursor + (e.lfhOff - consumed), hdr⟩ :: ps, ?_, ?_, ?_, ?_⟩
            · rw [List.map_cons, hps, hproc]
              rfl
            · intro p hp
              rcases List.mem_cons.mp hp with rfl | hp
              · exact ⟨by simp [hout], hgap, hlfh, rfl, rfl, by simp only; omega, fun _ => hhdr⟩
              · exact hok p hp
            · refine ⟨by simp only; omega, rfl, ?_⟩
              simpa [Placed.outLen] using hlaid
            · rw [← Except.ok.inj h, plansFor]
              simp [Placed.outLen]

theorem planLoop_cons {hdrs : HeaderReader} {cursor consumed : Nat} {p : Placed}
    (rest : List (CdEntry × Nat)) (hinput : A.input = ReadAt.ofBytes b)
    (hb : A.entriesEnd ≤ b.length) (hs : hdrs.Shows b A.entriesEnd) (hp : p.Ok A b)
    (hcons : consumed ≤ p.e.lfhOff) (hnew : p.newOff = cursor + (p.e.lfhOff - consumed)) :
    ∃ hdrs' : HeaderReader, hdrs'.Shows b A.entriesEnd ∧
      planLoop A hdrs cursor consumed (p.entry :: rest)
        = (planLoop A hdrs' (p.newOff + p.outLen) p.stop rest >>= fun plans =>
          .ok (gapPlans consumed p.e.lfhOff cursor
            ++ (if p.keep then [⟨some p.i, p.dataOff, p.stop - p.dataOff, p.newOff, p.hdr⟩]
              else []) ++ plans)) := by
  have hle := hp.le
  have hdo := hp.dataOff
  have hfits := hp.fits
  have hstop := hp.stop
  obtain ⟨hdrs', hpfx, hs'⟩ := HeaderReader.prefixAt_ofBytes hb hs hp.lfh (by omega)
  have hlen : p.e.lfhOff + (slice b p.e.lfhOff (dataOffset b p.e.lfhOff)).length = p.dataOff := by
    rw [length_slice_of_le _ (by omega)]
    omega
  refine ⟨hdrs', hs', ?_⟩
  rw [Placed.entry, planLoop, if_neg hp.processed, if_neg (by omega), hinput, hpfx, ok_bind]
  simp only [hlen]
  rw [if_neg (by omega), ← hnew, ← hstop]
  by_cases hk : p.keep = true
  · have hout : A.policy p.i = .output := by
      have := hp.kept
      rw [hk] at this
      exact of_decide_eq_true this.symm
    have hhdr := hp.hdr hk
    rw [hdo] at hhdr
    rw [if_neg (by rw [hout]; decide), hhdr, ok_bind, if_pos hk, Placed.outLen, if_pos hk,
      show A.dataLen p.e p.dataOff = p.stop - p.dataOff by omega]
    simp only [List.append_assoc, List.singleton_append]
  · have hskip : A.policy p.i = .skip := by
      have hne : A.policy p.i ≠ .output := by
        intro hout
        have := hp.kept
        rw [hout] at this
        exact hk (by simpa using this)
      cases hpol : A.policy p.i with
      | output => exact absurd hpol hne
      | skip => rfl
      | gap => exact absurd hpol hp.processed
    rw [if_pos hskip, if_neg hk, Placed.outLen, if_neg hk, Nat.add_zero]
    simp only [List.append_nil]

/-- **Without I/O errors, everything that can be laid out is planned.** -/
theorem planLoop_of_placed (hinput : A.input = ReadAt.ofBytes b) (hb : A.entriesEnd ≤ b.length) :
    ∀ (order : List (CdEntry × Nat)) (ps : List Placed) (hdrs : HeaderReader)
      (cursor consumed : Nat), hdrs.Shows b A.entriesEnd →
      ps.map Placed.entry = A.processed order → (∀ p ∈ ps, p.Ok A b) → Laid cursor consumed ps →
      planLoop A hdrs cursor consumed order = .ok (plansFor A.entriesEnd cursor consumed ps) := by
  intro order
  induction order with
  | nil =>
    intro ps hdrs cursor consumed _ hps _ _
    obtain rfl : ps = [] := List.map_eq_nil_iff.mp hps
    rfl
  | cons x rest ih =>
    obtain ⟨e, i⟩ := x
    intro ps hdrs cursor consumed hs hps hok hlaid
    by_cases hgap : A.policy i = .gap
    · rw [Archive.processed, List.filter_cons_of_neg (by simp [hgap])] at hps
      rw [planLoop, if_pos hgap]
      exact ih ps hdrs cursor consumed hs hps hok hlaid
    · rw [Archive.processed, List.filter_cons_of_pos (by simp [hgap])] at hps
      cases ps with
      | nil => cases hps
      | cons p ps =>
        rw [List.map_cons, List.cons.injEq] at hps
        obtain ⟨hcons, hnew, hlaid'⟩ := hlaid
        obtain ⟨hdrs', hs', hstep⟩ :=
          planLoop_cons rest hinput hb hs (hok p (by simp)) hcons hnew
        rw [← hps.1, hstep, ih ps hdrs' _ _ hs' hps.2 (fun q hq => hok q (by simp [hq])) hlaid',
          ok_bind]
        rfl

end Planner

/-! ### The section of a layout -/

def Plan.content (b : Bytes) (p : Plan) : Bytes := p.hdr ++ slice b p.srcOff (p.srcOff + p.srcLen)

def output (b : Bytes) (plans : List Plan) : Bytes := plans.flatMap (Plan.content b)

/-- The plans lie end to end, from `cursor` on. -/
def Contiguous : (cursor : Nat) → List Plan → Prop
  | _, [] => True
  | cursor, p :: ps => p.newOff = cursor ∧ Contiguous p.outEnd ps

/-- A sound list of plans for a source of `n` bytes. -/
structure PlansOk (n : Nat) (plans : List Plan) : Prop where
  contiguous : Contiguous 0 plans
  inside : ∀ p ∈ plans, p.srcOff + p.srcLen ≤ n

theorem content_gapPlans (b : Bytes) (consumed upto cursor : Nat) :
    output b (gapPlans consumed upto cursor) = slice b consumed upto := by
  rw [output, gapPlans]
  by_cases h : consumed < upto
  · rw [if_pos h, List.flatMap_singleton, Plan.content, List.nil_append,
      show consumed + (upto - consumed) = upto by omega]
  · rw [if_neg h, slice_of_le b (by omega)]
    rfl

section Section

variable {A : Archive} {b : Bytes}

/-- **The plans of a layout spell its section.** -/
theorem output_plansFor {entriesEnd : Nat} :
    ∀ (ps : List Placed) (cursor consumed : Nat), (∀ p ∈ ps, p.dataOff ≤ p.stop) →
      output b (plansFor entriesEnd cursor consumed ps) = weave b entriesEnd consumed ps := by
  intro ps
  induction ps with
  | nil => intro cursor consumed _; exact content_gapPlans b _ _ _
  | cons p ps ih =>
    intro cursor consumed hle
    have hp := hle p (by simp)
    have htail := ih (p.newOff + p.outLen) p.stop (fun q hq => hle q (by simp [hq]))
    have hgap := content_gapPlans b consumed p.e.lfhOff cursor
    rw [output] at htail hgap ⊢
    rw [plansFor, weave, List.flatMap_append, List.flatMap_append, htail, hgap, Placed.record]
    congr 2
    by_cases hk : p.keep = true
    · rw [if_pos hk, if_pos hk, List.flatMap_singleton, Plan.content]
      simp only
      rw [show p.dataOff + (p.stop - p.dataOff) = p.stop by omega]
    · rw [if_neg hk, if_neg hk]
      rfl

theorem contiguous_append {ps qs : List Plan} :
    ∀ {cursor : Nat}, Contiguous cursor (ps ++ qs) ↔
      Contiguous cursor ps ∧ Contiguous (cursor + newEnd ps) qs := by
  induction ps with
  | nil => intro cursor; simp [Contiguous, newEnd]
  | cons p ps ih =>
    intro cursor
    rw [List.cons_append, Contiguous, Contiguous, ih, newEnd, newEnd, List.map_cons, List.sum_cons,
      and_assoc]
    constructor
    · rintro ⟨h1, h2, h3⟩
      refine ⟨h1, h2, ?_⟩
      rwa [Plan.outEnd, h1, Nat.add_assoc] at h3
    · rintro ⟨h1, h2, h3⟩
      refine ⟨h1, h2, ?_⟩
      rwa [Plan.outEnd, h1, Nat.add_assoc]

theorem contiguous_gapPlans (consumed upto cursor : Nat) :
    Contiguous cursor (gapPlans consumed upto cursor) := by
  rw [gapPlans]
  split
  · exact ⟨rfl, trivial⟩
  · trivial

theorem newEnd_gapPlans (consumed upto cursor : Nat) :
    newEnd (gapPlans consumed upto cursor) = upto - consumed := by
  rw [gapPlans]
  split
  · simp [newEnd, Plan.outLen]
  · simp only [newEnd, List.map_nil, List.sum_nil]
    omega

theorem contiguous_plansFor {entriesEnd : Nat} :
    ∀ (ps : List Placed) (cursor consumed : Nat), Laid cursor consumed ps →
      Contiguous cursor (plansFor entriesEnd cursor consumed ps) := by
  intro ps
  induction ps with
  | nil => intro cursor consumed _; exact contiguous_gapPlans _ _ _
  | cons p ps ih =>
    intro cursor consumed hlaid
    obtain ⟨hcons, hnew, hrest⟩ := hlaid
    have htail := ih _ _ hrest
    rw [plansFor, List.append_assoc, contiguous_append, newEnd_gapPlans, ← hnew,
      contiguous_append]
    refine ⟨contiguous_gapPlans _ _ _, ?_⟩
    by_cases hk : p.keep = true
    · rw [if_pos hk]
      refine ⟨⟨rfl, trivial⟩, ?_⟩
      rw [Placed.outLen, if_pos hk] at htail
      simpa [newEnd, Plan.outLen, Placed.outLen, hk] using htail
    · rw [if_neg hk]
      refine ⟨trivial, ?_⟩
      simpa [newEnd, Placed.outLen, hk] using htail

theorem inside_plansFor (hb : A.entriesEnd ≤ b.length) :
    ∀ (ps : List Placed) (cursor consumed : Nat), (∀ p ∈ ps, p.Ok A b) →
      ∀ q ∈ plansFor A.entriesEnd cursor consumed ps, q.srcOff + q.srcLen ≤ b.length := by
  have hgap : ∀ {consumed upto cursor : Nat} {q : Plan}, upto ≤ b.length →
      q ∈ gapPlans consumed upto cursor → q.srcOff + q.srcLen ≤ b.length := by
    intro consumed upto cursor q hle hq
    rw [gapPlans] at hq
    split at hq
    · rw [List.mem_singleton.mp hq]
      simp only
      omega
    · cases hq
  intro ps
  induction ps with
  | nil => intro cursor consumed _ q hq; exact hgap hb hq
  | cons p ps ih =>
    intro cursor consumed hok q hq
    have hp := hok p (by simp)
    have hle := hp.le
    have hfits := hp.fits
    rw [plansFor, List.mem_append, List.mem_append] at hq
    rcases hq with (hq | hq) | hq
    · exact hgap (by omega) hq
    · split at hq
      · rw [List.mem_singleton.mp hq]
        simp only
        omega
      · cases hq
    · exact ih _ _ (fun r hr => hok r (by simp [hr])) q hq

theorem length_output {plans : List Plan} (h : ∀ p ∈ plans, p.srcOff + p.srcLen ≤ b.length) :
    (output b plans).length = newEnd plans := by
  induction plans with
  | nil => rfl
  | cons p ps ih =>
    have hp := h p (by simp)
    have htail := ih (fun q hq => h q (by simp [hq]))
    rw [output] at htail ⊢
    rw [List.flatMap_cons, List.length_append, htail, newEnd, newEnd, List.map_cons, List.sum_cons,
      Plan.content, List.length_append, length_slice_of_le _ hp, Plan.outLen]
    omega

end Section

end FastSigner.Align

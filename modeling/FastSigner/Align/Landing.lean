import FastSigner.Align.Layout

/-!
# Where the headers land

`Archive.landings` tells, from the archive alone, where the rewrite puts the header of
every kept entry.  It is the sum of what lies before it: the bytes of the gaps, and the
records of the kept entries with the extra fields that their own places ask for.

`Placements.landings`: the planner puts the headers there.
-/

namespace FastSigner.Align

open Lib Zip

/-- Where the record of an entry ends: behind the data and the descriptor that the rewrite sees. -/
def Archive.recordStop (A : Archive) (b : Bytes) (e : CdEntry) : Nat :=
  dataOffset b e.lfhOff + A.dataLen e (dataOffset b e.lfhOff)

def localExtra (b : Bytes) (off : Nat) : Bytes :=
  slice b (off + (lfhLen + (lensAt b off).1)) (dataOffset b off)

/-- The extra field of an entry whose header comes to lie at `off`. -/
def Archive.newExtra (A : Archive) (b : Bytes) (e : CdEntry) (off : Nat) : Bytes :=
  if 1 < A.rule e then
    aligningExtra (localExtra b e.lfhOff) (off + (lfhLen + (lensAt b e.lfhOff).1))
      (chosenAlign (A.rule e) (localExtra b e.lfhOff))
  else localExtra b e.lfhOff

def Archive.newDataOff (A : Archive) (b : Bytes) (e : CdEntry) (off : Nat) : Nat :=
  off + (lfhLen + (lensAt b e.lfhOff).1) + (A.newExtra b e off).length

/-- A kept entry, and where its header comes to lie. -/
structure Landing where
  e : CdEntry
  i : Nat
  off : Nat
  deriving DecidableEq

/-- The landings of entries in file order, once `consumed` bytes of the section have gone into
`cursor` bytes of the output. -/
def Archive.landingsFrom (A : Archive) (b : Bytes) :
    (cursor consumed : Nat) → List (CdEntry × Nat) → List Landing
  | _, _, [] => []
  | cursor, consumed, (e, i) :: rest =>
    let off := cursor + (e.lfhOff - consumed)
    match A.policy i with
    | .gap => A.landingsFrom b cursor consumed rest
    | .skip => A.landingsFrom b off (A.recordStop b e) rest
    | .output =>
      ⟨e, i, off⟩ :: A.landingsFrom b
        (A.newDataOff b e off + A.dataLen e (dataOffset b e.lfhOff)) (A.recordStop b e) rest

def Archive.landings (A : Archive) (b : Bytes) : List Landing :=
  A.landingsFrom b 0 0 ((fileOrder A.entries A.entriesEnd).toOption.getD [])

theorem drop_header {b : Bytes} (off : Nat) (hd : dataOffset b off ≤ b.length) :
    (slice b off (dataOffset b off)).drop (lfhLen + u16le (slice b off (dataOffset b off)) 26)
      = localExtra b off := by
  have h30 : lfhLen = 30 := rfl
  have hdef : dataOffset b off = off + (lfhLen + (lensAt b off).1 + (lensAt b off).2) := rfl
  have hn : u16le (slice b off (dataOffset b off)) 26 = (lensAt b off).1 :=
    u16le_slice b (by omega)
  rw [hn, localExtra, ← slice_to_end (slice b off (dataOffset b off)) _ (Nat.le_refl _),
    length_slice_of_le off hd, slice_slice_of_le b (by omega)]
  congr 1
  omega

section Planner

variable {A : Archive} {b : Bytes}

theorem mem_landingsFrom {x : Landing} : ∀ {order : List (CdEntry × Nat)} {cursor consumed : Nat},
    x ∈ A.landingsFrom b cursor consumed order → (x.e, x.i) ∈ order ∧ A.policy x.i = .output := by
  intro order
  induction order with
  | nil =>
    intro cursor consumed h
    cases h
  | cons y rest ih =>
    obtain ⟨e, i⟩ := y
    intro cursor consumed h
    rw [Archive.landingsFrom] at h
    cases hpol : A.policy i with
    | gap =>
      rw [hpol] at h
      exact ⟨List.mem_cons_of_mem _ (ih h).1, (ih h).2⟩
    | skip =>
      rw [hpol] at h
      exact ⟨List.mem_cons_of_mem _ (ih h).1, (ih h).2⟩
    | output =>
      rw [hpol] at h
      rcases List.mem_cons.mp h with rfl | h
      · exact ⟨List.mem_cons_self, hpol⟩
      · exact ⟨List.mem_cons_of_mem _ (ih h).1, (ih h).2⟩

theorem mem_landings {x : Landing} (h : x ∈ A.landings b) :
    (x.e, x.i) ∈ A.entries.zipIdx ∧ A.policy x.i = .output := by
  obtain ⟨hmem, hout⟩ := mem_landingsFrom h
  cases horder : fileOrder A.entries A.entriesEnd with
  | error err =>
    rw [horder] at hmem
    cases hmem
  | ok order =>
    rw [horder] at hmem
    exact ⟨(fileOrder_eq_ok_iff.mp horder).1.mem_iff.mp hmem, hout⟩

theorem newHeader_cases (name : Bytes) {e : CdEntry} (off : Nat)
    (hd : dataOffset b e.lfhOff ≤ b.length) :
    ((A.newExtra b e off).length ≤ 0xffff ∧
      ∃ hdr, newHeader name (A.rule e) off (slice b e.lfhOff (dataOffset b e.lfhOff)) = .ok hdr ∧
        off + hdr.length = A.newDataOff b e off) ∨
    (0xffff < (A.newExtra b e off).length ∧
      newHeader name (A.rule e) off (slice b e.lfhOff (dataOffset b e.lfhOff))
        = .error (.extraTooLong name)) := by
  have h30 := lfhLen_eq
  have hdef : dataOffset b e.lfhOff
    = e.lfhOff + (lfhLen + (lensAt b e.lfhOff).1 + (lensAt b e.lfhOff).2) := rfl
  have hn : u16le (slice b e.lfhOff (dataOffset b e.lfhOff)) 26 = (lensAt b e.lfhOff).1 :=
    u16le_slice b (by omega)
  have hextra := drop_header e.lfhOff hd
  have hlen : (slice b e.lfhOff (dataOffset b e.lfhOff)).length
      = lfhLen + (lensAt b e.lfhOff).1 + (lensAt b e.lfhOff).2 := by
    rw [length_slice_of_le _ hd]
    omega
  rw [hn] at hextra
  rw [newHeader, hn, Archive.newDataOff, Archive.newExtra]
  simp only [hextra]
  have htake : ((slice b e.lfhOff (dataOffset b e.lfhOff)).take
      (lfhLen + (lensAt b e.lfhOff).1)).length = lfhLen + (lensAt b e.lfhOff).1 := by
    rw [List.length_take, hlen]
    omega
  by_cases hrule : 1 < A.rule e
  · simp only [if_pos hrule]
    split
    · rename_i hlong
      exact Or.inr ⟨hlong, rfl⟩
    · rename_i hfit
      refine Or.inl ⟨Nat.le_of_not_lt hfit, _, rfl, ?_⟩
      rw [List.length_append, length_patch (by rw [length_leBytes, htake]; omega), htake]
      omega
  · simp only [if_neg hrule]
    refine Or.inl ⟨?_, _, rfl, ?_⟩
    · have hlt : (lensAt b e.lfhOff).2 < 2 ^ 16 := u16le_lt _ _
      rw [localExtra, length_slice_of_le _ hd]
      omega
    · rw [List.length_append, htake]
      omega

theorem Placed.Ok.length_hdr {p : Placed} (h : p.Ok A b) (hb : A.entriesEnd ≤ b.length)
    (hk : p.keep = true) : p.newOff + p.hdr.length = A.newDataOff b p.e p.newOff := by
  have hle := h.le
  have hfits := h.fits
  have hdo := h.dataOff
  have hhdr := h.hdr hk
  rw [hdo] at hhdr
  rcases @newHeader_cases A b (p.e.nameIn A.cd) p.e p.newOff (by omega) with
    ⟨-, hdr, hok, hlen⟩ | ⟨-, herr⟩
  · obtain rfl := Except.ok.inj (hok.symm.trans hhdr)
    exact hlen
  · cases herr.symm.trans hhdr

/-- **A layout puts the headers where they land.** -/
theorem landingsFrom_of_laid (hb : A.entriesEnd ≤ b.length) :
    ∀ (order : List (CdEntry × Nat)) (ps : List Placed) (cursor consumed : Nat),
      ps.map Placed.entry = A.processed order → (∀ p ∈ ps, p.Ok A b) → Laid cursor consumed ps →
      A.landingsFrom b cursor consumed order
        = (ps.filter Placed.keep).map fun p => ⟨p.e, p.i, p.newOff⟩ := by
  intro order
  induction order with
  | nil =>
    intro ps cursor consumed hps _ _
    obtain rfl : ps = [] := List.map_eq_nil_iff.mp hps
    rfl
  | cons x rest ih =>
    obtain ⟨e, i⟩ := x
    intro ps cursor consumed hps hok hlaid
    rw [Archive.landingsFrom]
    by_cases hgap : A.policy i = .gap
    · rw [Archive.processed, List.filter_cons_of_neg (by simp [hgap])] at hps
      rw [hgap]
      exact ih ps cursor consumed hps hok hlaid
    · rw [Archive.processed, List.filter_cons_of_pos (by simp [hgap])] at hps
      cases ps with
      | nil => cases hps
      | cons p ps =>
        rw [List.map_cons, List.cons.injEq] at hps
        obtain ⟨hentry, hps⟩ := hps
        obtain ⟨rfl, rfl⟩ := Prod.mk.inj hentry
        obtain ⟨-, hnew, hrest⟩ := hlaid
        have hp := hok p (by simp)
        have hle := hp.le
        have htail := ih ps _ _ hps (fun q hq => hok q (by simp [hq])) hrest
        have hstop : p.stop = A.recordStop b p.e := by
          rw [hp.stop, Archive.recordStop, hp.dataOff]
        rw [hstop, Placed.outLen] at htail
        cases hk : p.keep with
        | true =>
          have hout : A.policy p.i = .output := by
            have hkept := hp.kept
            rw [hk] at hkept
            exact of_decide_eq_true hkept.symm
          have hlen := hp.length_hdr hb hk
          have hdata : p.stop - p.dataOff = A.dataLen p.e (dataOffset b p.e.lfhOff) := by
            rw [← hp.dataOff]
            have := hp.stop
            omega
          rw [hout, List.filter_cons_of_pos hk, List.map_cons]
          rw [hk, if_pos rfl, ← Nat.add_assoc, hlen, hdata] at htail
          simp only [← hnew, htail]
        | false =>
          have hskip : A.policy p.i = .skip := by
            have hkept := hp.kept
            rw [hk] at hkept
            cases hpol : A.policy p.i with
            | output => exact absurd hpol (of_decide_eq_false hkept.symm)
            | skip => rfl
            | gap => exact absurd hpol hgap
          rw [hskip, List.filter_cons_of_neg (by simp [hk])]
          rw [hk, if_neg (by simp), Nat.add_zero, hnew] at htail
          exact htail

/-- **The planner puts the headers where they land.** -/
theorem Placements.landings {ps : List Placed} (h : Placements A b ps)
    (hb : A.entriesEnd ≤ b.length) :
    A.landings b = (ps.filter Placed.keep).map fun p => ⟨p.e, p.i, p.newOff⟩ := by
  obtain ⟨order, horder, hps⟩ := h.order
  rw [Archive.landings, horder]
  exact landingsFrom_of_laid hb order ps 0 0 hps h.ok h.laid

theorem Placements.landing_of_mem {ps : List Placed} (h : Placements A b ps)
    (hb : A.entriesEnd ≤ b.length) {p : Placed} (hp : p ∈ ps) (hk : p.keep = true) :
    ⟨p.e, p.i, p.newOff⟩ ∈ A.landings b := by
  rw [h.landings hb]
  exact List.mem_map.mpr ⟨p, List.mem_filter.mpr ⟨hp, hk⟩, rfl⟩

theorem Placements.exists_of_landing {ps : List Placed} (h : Placements A b ps)
    (hb : A.entriesEnd ≤ b.length) {x : Landing} (hx : x ∈ A.landings b) :
    ∃ p ∈ ps, p.keep = true ∧ x = ⟨p.e, p.i, p.newOff⟩ := by
  rw [h.landings hb] at hx
  obtain ⟨p, hp, rfl⟩ := List.mem_map.mp hx
  exact ⟨p, (List.mem_filter.mp hp).1, (List.mem_filter.mp hp).2, rfl⟩

end Planner

end FastSigner.Align

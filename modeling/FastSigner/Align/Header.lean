import FastSigner.Align.Extra
import FastSigner.Align.Order

/-!
# Local headers of the rewrite

`HeaderReader` reads local headers through a sliding window, so that runs of
small entries cost one read.  The window does not matter: a header comes out
exactly as a direct read would give it (`prefixAt_eq_ok`), and a sequence of calls
is the sequence of direct reads up to the first error (`prefixes_eq_readLfh`).

`newHeader` is the header that an entry gets in the output.  A stored entry's is
rebuilt around an alignment extra field.  `NewHeader` collects what the rest of
the development needs to know about it: it is a local header with the same fixed
part and name, it puts the data on the alignment, and rebuilding it again gives
it back.
-/

namespace FastSigner.Align

open Lib Zip

def windowSize : Nat := 256 <<< 10

/-! ### The sliding window -/

/-- The bytes in the window and where they start. -/
structure HeaderReader where
  window : Bytes
  winOff : Nat

def HeaderReader.new : HeaderReader := ⟨[], 0⟩

/-- Move the window unless it covers `need` bytes at `off`; where these are in it. -/
def HeaderReader.ensure (input : ReadAt) (entriesEnd : Nat) (h : HeaderReader) (off need : Nat) :
    Except Error (Nat × HeaderReader) :=
  if off < h.winOff ∨ h.winOff + h.window.length < off + need then
    let winLen := min (entriesEnd - off) windowSize
    if winLen < need then .error (.lfhOverruns off)
    else do
      let window ← (input.readExactAt off winLen).mapError .readLocalHeaders
      .ok (0, ⟨window, off⟩)
  else .ok (off - h.winOff, h)

/-- The full local header at `off`: 30 bytes, name and extra field. -/
def HeaderReader.prefixAt (input : ReadAt) (entriesEnd : Nat) (h : HeaderReader) (off : Nat) :
    Except Error (Bytes × HeaderReader) := do
  let (rel, h) ← h.ensure input entriesEnd off lfhLen
  let fixed := slice h.window rel (rel + lfhLen)
  if slice fixed 0 4 ≠ lfhSig then .error (.noLfh off)
  else do
    let need := lfhLen + u16le fixed 26 + u16le fixed 28
    let (rel, h) ← h.ensure input entriesEnd off need
    .ok (slice h.window rel (rel + need), h)

def HeaderReader.Shows (b : Bytes) (entriesEnd : Nat) (h : HeaderReader) : Prop :=
  h.winOff + h.window.length ≤ entriesEnd ∧
    h.window = slice b h.winOff (h.winOff + h.window.length)

theorem HeaderReader.shows_new (b : Bytes) (entriesEnd : Nat) :
    HeaderReader.new.Shows b entriesEnd := ⟨Nat.zero_le _, by simp [HeaderReader.new]⟩

section Window

variable {b : Bytes} {entriesEnd : Nat} {input : ReadAt}

theorem HeaderReader.ensure_eq_ok {h h' : HeaderReader} {off need rel : Nat}
    (hin : input.Honest b) (hs : h.Shows b entriesEnd) (hoff : off ≤ entriesEnd)
    (he : h.ensure input entriesEnd off need = .ok (rel, h')) :
    h'.Shows b entriesEnd ∧ off + need ≤ entriesEnd ∧
      slice h'.window rel (rel + need) = slice b off (off + need) := by
  rw [HeaderReader.ensure] at he
  split at he
  · simp only at he
    split at he
    · cases he
    · rename_i hneed
      rw [bind_eq_ok] at he
      obtain ⟨w, hw, he⟩ := he
      obtain ⟨hle, rfl⟩ := hin _ _ _ (mapError_eq_ok.mp hw)
      simp only [Except.ok.injEq, Prod.mk.injEq] at he
      obtain ⟨rfl, rfl⟩ := he
      have hlen : (slice b off (off + min (entriesEnd - off) windowSize)).length
          = min (entriesEnd - off) windowSize := by
        rw [length_slice_of_le off hle]
        omega
      refine ⟨⟨?_, ?_⟩, by omega, ?_⟩
      · simp only [hlen]
        omega
      · simp only [hlen]
      · simp only
        rw [slice_slice_of_le b (by omega)]
        congr 1
        omega
  · rename_i hcov
    simp only [Except.ok.injEq, Prod.mk.injEq] at he
    obtain ⟨rfl, rfl⟩ := he
    obtain ⟨hend, hwin⟩ := hs
    refine ⟨⟨hend, hwin⟩, by omega, ?_⟩
    rw [hwin, slice_slice_of_le b (by omega)]
    congr 1 <;> omega

theorem HeaderReader.ensure_ofBytes (h : HeaderReader) {off need : Nat}
    (hb : entriesEnd ≤ b.length) (hneed : need ≤ windowSize) (hoff : off + need ≤ entriesEnd) :
    ∃ rel h', h.ensure (ReadAt.ofBytes b) entriesEnd off need = .ok (rel, h') := by
  rw [HeaderReader.ensure]
  split
  · simp only
    rw [if_neg (by omega), ReadAt.ofBytes_readExactAt (by omega), mapError_ok, ok_bind]
    exact ⟨_, _, rfl⟩
  · exact ⟨_, _, rfl⟩

theorem lfhLen_eq : lfhLen = 30 := rfl

/-- **A header comes out of the window as a direct read would give it.** -/
theorem HeaderReader.prefixAt_eq_ok {h h' : HeaderReader} {off : Nat} {pfx : Bytes}
    (hin : input.Honest b) (hs : h.Shows b entriesEnd) (hoff : off ≤ entriesEnd)
    (hp : h.prefixAt input entriesEnd off = .ok (pfx, h')) :
    h'.Shows b entriesEnd ∧ HasLfh b off ∧ dataOffset b off ≤ entriesEnd ∧
      pfx = slice b off (dataOffset b off) := by
  rw [HeaderReader.prefixAt, bind_eq_ok] at hp
  obtain ⟨⟨rel, h1⟩, hens, hp⟩ := hp
  obtain ⟨hs1, hle1, hfix⟩ := HeaderReader.ensure_eq_ok hin hs hoff hens
  simp only [hfix] at hp
  have h30 := lfhLen_eq
  rw [slice_slice_of_le b (by omega), u16le_slice b (by omega), u16le_slice b (by omega),
    Nat.add_zero] at hp
  split at hp
  · cases hp
  · rename_i hsig
    rw [bind_eq_ok] at hp
    obtain ⟨⟨rel2, h2⟩, hens2, hp⟩ := hp
    obtain ⟨hs2, hle2, hread⟩ := HeaderReader.ensure_eq_ok hin hs1 hoff hens2
    simp only [Except.ok.injEq, Prod.mk.injEq] at hp
    obtain ⟨rfl, rfl⟩ := hp
    exact ⟨hs2, not_not.mp hsig, hle2, hread⟩

theorem HeaderReader.prefixAt_ofBytes {h : HeaderReader} {off : Nat} (hb : entriesEnd ≤ b.length)
    (hs : h.Shows b entriesEnd) (hl : HasLfh b off) (hd : dataOffset b off ≤ entriesEnd) :
    ∃ h', h.prefixAt (ReadAt.ofBytes b) entriesEnd off
      = .ok (slice b off (dataOffset b off), h') ∧ h'.Shows b entriesEnd := by
  have h30 := lfhLen_eq
  have hw : windowSize = 262144 := rfl
  have h1 := u16le_lt b (off + 26)
  have h2 := u16le_lt b (off + 28)
  have hdef : dataOffset b off = off + (lfhLen + u16le b (off + 26) + u16le b (off + 28)) := rfl
  obtain ⟨rel, r1, hens⟩ := h.ensure_ofBytes hb (show lfhLen ≤ windowSize by omega)
    (show off + lfhLen ≤ entriesEnd by omega)
  obtain ⟨hs1, -, hfix⟩ :=
    HeaderReader.ensure_eq_ok (ReadAt.honest_ofBytes b) hs (by omega) hens
  obtain ⟨rel2, r2, hens2⟩ := r1.ensure_ofBytes hb
    (show lfhLen + u16le b (off + 26) + u16le b (off + 28) ≤ windowSize by omega)
    (show off + (lfhLen + u16le b (off + 26) + u16le b (off + 28)) ≤ entriesEnd by omega)
  obtain ⟨hs2, -, hread⟩ :=
    HeaderReader.ensure_eq_ok (ReadAt.honest_ofBytes b) hs1 (by omega) hens2
  refine ⟨r2, ?_, hs2⟩
  rw [HeaderReader.prefixAt, hens, ok_bind]
  simp only [hfix]
  rw [slice_slice_of_le b (by omega), u16le_slice b (by omega), u16le_slice b (by omega),
    Nat.add_zero, if_neg (not_not.mpr (show slice b off (off + 4) = lfhSig from hl)), hens2, ok_bind]
  simp only [hread]
  rw [← hdef]

theorem HeaderReader.ensure_overruns {h : HeaderReader} {off need : Nat} (hs : h.Shows b entriesEnd)
    (hoff : off ≤ entriesEnd) (hneed : entriesEnd < off + need) :
    h.ensure input entriesEnd off need = .error (.lfhOverruns off) := by
  have hend := hs.1
  rw [HeaderReader.ensure, if_pos (Or.inr (by omega))]
  simp only
  rw [if_pos (by omega)]

/-! ### Sequences of headers -/

def readLfh (b : Bytes) (entriesEnd off : Nat) : Except Error Bytes :=
  if ¬ HasLfh b off then .error (.noLfh off)
  else if entriesEnd < dataOffset b off then .error (.lfhOverruns off)
  else .ok (slice b off (dataOffset b off))

theorem readLfh_eq_ok_iff {off : Nat} {pfx : Bytes} :
    readLfh b entriesEnd off = .ok pfx ↔
      HasLfh b off ∧ dataOffset b off ≤ entriesEnd ∧ pfx = slice b off (dataOffset b off) := by
  rw [readLfh]
  by_cases hl : HasLfh b off
  · rw [if_neg (not_not.mpr hl)]
    by_cases hd : entriesEnd < dataOffset b off
    · rw [if_pos hd]
      exact ⟨(fun h => nomatch h), fun h => absurd h.2.1 (by omega)⟩
    · rw [if_neg hd, Except.ok.injEq]
      exact ⟨fun h => ⟨hl, by omega, h.symm⟩, fun h => h.2.2.symm⟩
  · rw [if_pos hl]
    exact ⟨(fun h => nomatch h), fun h => absurd h.1 hl⟩

/-- **One call, whatever the window holds**: the direct read, and the window shows the file
again. -/
theorem HeaderReader.prefixAt_cases {h : HeaderReader} {off : Nat} (hb : entriesEnd ≤ b.length)
    (hs : h.Shows b entriesEnd) (hoff : off + lfhLen ≤ entriesEnd) :
    (∃ pfx h', readLfh b entriesEnd off = .ok pfx ∧ h'.Shows b entriesEnd ∧
        h.prefixAt (ReadAt.ofBytes b) entriesEnd off = .ok (pfx, h')) ∨
      ∃ e, readLfh b entriesEnd off = .error e ∧
        h.prefixAt (ReadAt.ofBytes b) entriesEnd off = .error e := by
  by_cases hok : HasLfh b off ∧ dataOffset b off ≤ entriesEnd
  · obtain ⟨h', hp, hs'⟩ := HeaderReader.prefixAt_ofBytes hb hs hok.1 hok.2
    exact Or.inl ⟨_, h', readLfh_eq_ok_iff.mpr ⟨hok.1, hok.2, rfl⟩, hs', hp⟩
  · have h30 := lfhLen_eq
    obtain ⟨rel, h1, hens⟩ := h.ensure_ofBytes hb (show lfhLen ≤ windowSize by decide) hoff
    obtain ⟨hs1, -, hfix⟩ :=
      HeaderReader.ensure_eq_ok (ReadAt.honest_ofBytes b) hs (by omega) hens
    right
    rw [HeaderReader.prefixAt, hens, ok_bind, readLfh]
    simp only [hfix]
    rw [slice_slice_of_le b (by omega), u16le_slice b (by omega), u16le_slice b (by omega),
      Nat.add_zero]
    by_cases hl : HasLfh b off
    · -- the signature is there, so it is the range that passes the end
      have hd : entriesEnd < dataOffset b off := by
        by_contra hle
        exact hok ⟨hl, by omega⟩
      have hneed : entriesEnd < off + (lfhLen + u16le b (off + 26) + u16le b (off + 28)) := hd
      have hsig : slice b off (off + 4) = lfhSig := hl
      rw [if_neg (not_not.mpr hl), if_pos hd, if_neg (not_not.mpr hsig),
        HeaderReader.ensure_overruns hs1 (by omega) hneed]
      exact ⟨_, rfl, rfl⟩
    · have hsig : slice b off (off + 4) ≠ lfhSig := hl
      rw [if_pos hl, if_pos hsig]
      exact ⟨_, rfl, rfl⟩

end Window

def HeaderReader.prefixes (input : ReadAt) (entriesEnd : Nat) (h : HeaderReader) :
    List Nat → Except Error (List Bytes × HeaderReader)
  | [] => .ok ([], h)
  | off :: offs => do
    let (pfx, h) ← h.prefixAt input entriesEnd off
    let (pfxs, h) ← h.prefixes input entriesEnd offs
    .ok (pfx :: pfxs, h)

/-- `ensure` with its subtractions checked. -/
def HeaderReader.ensureChecked (input : ReadAt) (entriesEnd : Nat) (h : HeaderReader)
    (off need : Nat) : Option (Except Error (Nat × HeaderReader)) :=
  if off < h.winOff ∨ h.winOff + h.window.length < off + need then do
    let room ← checkedSub entriesEnd off
    let winLen := min room windowSize
    if winLen < need then some (.error (.lfhOverruns off))
    else some do
      let window ← (input.readExactAt off winLen).mapError .readLocalHeaders
      .ok (0, ⟨window, off⟩)
  else do
    let rel ← checkedSub off h.winOff
    some (.ok (rel, h))

/-- `prefix` with its subtractions and slices checked. -/
def HeaderReader.prefixChecked (input : ReadAt) (entriesEnd : Nat) (h : HeaderReader) (off : Nat) :
    Option (Except Error (Bytes × HeaderReader)) := do
  match ← h.ensureChecked input entriesEnd off lfhLen with
  | .error e => some (.error e)
  | .ok (rel, h) =>
    let fixed ← checkedSlice h.window rel (rel + lfhLen)
    if slice fixed 0 4 ≠ lfhSig then some (.error (.noLfh off))
    else
      let need := lfhLen + u16le fixed 26 + u16le fixed 28
      match ← h.ensureChecked input entriesEnd off need with
      | .error e => some (.error e)
      | .ok (rel, h) =>
        let pfx ← checkedSlice h.window rel (rel + need)
        some (.ok (pfx, h))

def HeaderReader.prefixesChecked (input : ReadAt) (entriesEnd : Nat) (h : HeaderReader) :
    List Nat → Option (Except Error (List Bytes × HeaderReader))
  | [] => some (.ok ([], h))
  | off :: offs => do
    match ← h.prefixChecked input entriesEnd off with
    | .error e => some (.error e)
    | .ok (pfx, h) =>
      match ← h.prefixesChecked input entriesEnd offs with
      | .error e => some (.error e)
      | .ok (pfxs, h) => some (.ok (pfx :: pfxs, h))

section Checked

variable {b : Bytes} {entriesEnd : Nat}

theorem HeaderReader.ensureChecked_eq (input : ReadAt) {h : HeaderReader} {off need : Nat}
    (hoff : off ≤ entriesEnd) :
    h.ensureChecked input entriesEnd off need = some (h.ensure input entriesEnd off need) := by
  rw [HeaderReader.ensureChecked, HeaderReader.ensure]
  by_cases hmove : off < h.winOff ∨ h.winOff + h.window.length < off + need
  · rw [if_pos hmove, if_pos hmove, checkedSub_of_le hoff, Option.bind_eq_bind, Option.bind_some]
    simp only
    by_cases hneed : min (entriesEnd - off) windowSize < need
    · rw [if_pos hneed, if_pos hneed]
    · rw [if_neg hneed, if_neg hneed]
  · rw [if_neg hmove, if_neg hmove, checkedSub_of_le (by omega)]
    rfl

theorem HeaderReader.checkedSlice_ensure {h h' : HeaderReader} {off need rel : Nat}
    (hb : entriesEnd ≤ b.length) (hs : h.Shows b entriesEnd) (hoff : off ≤ entriesEnd)
    (hpos : 0 < need)
    (he : h.ensure (ReadAt.ofBytes b) entriesEnd off need = .ok (rel, h')) :
    checkedSlice h'.window rel (rel + need) = some (slice h'.window rel (rel + need)) := by
  obtain ⟨-, hle, hread⟩ := HeaderReader.ensure_eq_ok (ReadAt.honest_ofBytes b) hs hoff he
  have hlen := congrArg List.length hread
  rw [length_slice, length_slice] at hlen
  exact checkedSlice_of_le (by omega) (by omega)

/-- No subtraction of `prefix` underflows and no slice is out of range. -/
theorem HeaderReader.prefixChecked_eq {h : HeaderReader} {off : Nat} (hb : entriesEnd ≤ b.length)
    (hs : h.Shows b entriesEnd) (hoff : off + lfhLen ≤ entriesEnd) :
    h.prefixChecked (ReadAt.ofBytes b) entriesEnd off
      = some (h.prefixAt (ReadAt.ofBytes b) entriesEnd off) := by
  have h30 := lfhLen_eq
  obtain ⟨rel, h1, hens⟩ := h.ensure_ofBytes hb (show lfhLen ≤ windowSize by decide) hoff
  obtain ⟨hs1, -, -⟩ := HeaderReader.ensure_eq_ok (ReadAt.honest_ofBytes b) hs (by omega) hens
  rw [HeaderReader.prefixChecked, HeaderReader.prefixAt,
    HeaderReader.ensureChecked_eq _ (by omega), hens, ok_bind, Option.bind_eq_bind, Option.bind_some]
  simp only
  rw [HeaderReader.checkedSlice_ensure hb hs (by omega) (by omega) hens, Option.bind_eq_bind,
    Option.bind_some]
  generalize hfix : slice h1.window rel (rel + lfhLen) = fixed
  by_cases hsig : slice fixed 0 4 ≠ lfhSig
  · rw [if_pos hsig, if_pos hsig]
  · rw [if_neg hsig, if_neg hsig]
    rw [HeaderReader.ensureChecked_eq _ (by omega), Option.bind_some]
    cases hens2 : h1.ensure (ReadAt.ofBytes b) entriesEnd off
        (lfhLen + u16le fixed 26 + u16le fixed 28) with
    | error e => rfl
    | ok r =>
      obtain ⟨rel2, h2⟩ := r
      simp only [ok_bind]
      rw [HeaderReader.checkedSlice_ensure hb hs1 (by omega) (by omega) hens2, Option.bind_some]

theorem HeaderReader.prefixes_spec (hb : entriesEnd ≤ b.length) (offs : List Nat) :
    ∀ {h : HeaderReader}, h.Shows b entriesEnd → (∀ off ∈ offs, off + lfhLen ≤ entriesEnd) →
      (h.prefixes (ReadAt.ofBytes b) entriesEnd offs).map Prod.fst
          = offs.mapM (readLfh b entriesEnd) ∧
        h.prefixesChecked (ReadAt.ofBytes b) entriesEnd offs
          = some (h.prefixes (ReadAt.ofBytes b) entriesEnd offs) := by
  induction offs with
  | nil =>
    intro h _ _
    exact ⟨rfl, rfl⟩
  | cons off offs ih =>
    intro h hs hoffs
    have hoff : off + lfhLen ≤ entriesEnd := hoffs off List.mem_cons_self
    rw [HeaderReader.prefixes, HeaderReader.prefixesChecked, List.mapM_cons,
      HeaderReader.prefixChecked_eq hb hs hoff]
    rcases HeaderReader.prefixAt_cases hb hs hoff with ⟨pfx, h', hread, hs', hp⟩ | ⟨e, hread, hp⟩
    · obtain ⟨i1, i2⟩ := ih hs' (fun o ho => hoffs o (List.mem_cons_of_mem _ ho))
      rw [hp, hread, ok_bind, ok_bind, ← i1, Option.bind_eq_bind, Option.bind_some]
      simp only [i2]
      cases h'.prefixes (ReadAt.ofBytes b) entriesEnd offs with
      | error e => exact ⟨rfl, rfl⟩
      | ok r => exact ⟨rfl, rfl⟩
    · rw [hp, hread]
      exact ⟨rfl, rfl⟩

end Checked

/-- **A sequence of headers read through the window is the sequence of direct reads**, up to the
first error, and nothing underflows on the way.  A direct read fails exactly when the signature
is missing or the header passes the end of the entries. -/
theorem prefixes_eq_readLfh {b : Bytes} {entriesEnd : Nat} (hb : entriesEnd ≤ b.length)
    (offs : List Nat) (hoffs : ∀ off ∈ offs, off + 30 ≤ entriesEnd) :
    (HeaderReader.new.prefixes (ReadAt.ofBytes b) entriesEnd offs).map Prod.fst
        = offs.mapM (readLfh b entriesEnd) ∧
      HeaderReader.new.prefixesChecked (ReadAt.ofBytes b) entriesEnd offs
        = some (HeaderReader.new.prefixes (ReadAt.ofBytes b) entriesEnd offs) ∧
      ∀ off pfx, readLfh b entriesEnd off = .ok pfx ↔
        slice b off (off + 4) = lfhSig ∧
        off + 30 + u16le b (off + 26) + u16le b (off + 28) ≤ entriesEnd ∧
        pfx = slice b off (off + 30 + u16le b (off + 26) + u16le b (off + 28)) := by
  obtain ⟨hreads, hchecked⟩ :=
    HeaderReader.prefixes_spec hb offs (HeaderReader.shows_new b entriesEnd) hoffs
  refine ⟨hreads, hchecked, ?_⟩
  intro off pfx
  have hdef : dataOffset b off = off + 30 + u16le b (off + 26) + u16le b (off + 28) := by
    rw [dataOffset, lensAt, lfhLen_eq]
    omega
  rw [readLfh_eq_ok_iff, HasLfh, hdef]

/-- The same header twice, the second time from the window. -/
theorem prefixes_eq_readLfh_twice :
    (HeaderReader.new.prefixes (ReadAt.ofBytes (lfhSig ++ List.replicate 26 0)) 30 [0, 0]).map
        Prod.fst
      = .ok [lfhSig ++ List.replicate 26 0, lfhSig ++ List.replicate 26 0] :=
  (prefixes_eq_readLfh (show 30 ≤ (lfhSig ++ List.replicate 26 0).length by decide) [0, 0]
    (by decide)).1

/-! ### The header in the output -/

/-- The alignment that a stored entry gets: the rule's or the declared one, whichever is
larger. -/
def chosenAlign (rule : Nat) (oldExtra : Bytes) : Nat :=
  max rule ((declaredAlignment oldExtra).getD 0)

/-- The header of an entry at offset `cursor` of the output, from its header `pfx` in the input. -/
def newHeader (name : Bytes) (rule cursor : Nat) (pfx : Bytes) : Except Error Bytes :=
  let nl := u16le pfx 26
  let oldExtra := pfx.drop (lfhLen + nl)
  let hdr := pfx.take (lfhLen + nl)
  if 1 < rule then
    let extra := aligningExtra oldExtra (cursor + (lfhLen + nl)) (chosenAlign rule oldExtra)
    if 0xffff < extra.length then .error (.extraTooLong name)
    else .ok (patch hdr 28 (leBytes 2 extra.length) ++ extra)
  else .ok (hdr ++ oldExtra)

/-- A local header: fixed part, name and extra field, of the lengths that it states. -/
structure WfLfh (pfx : Bytes) : Prop where
  sig : slice pfx 0 4 = lfhSig
  len : pfx.length = lfhLen + u16le pfx 26 + u16le pfx 28

theorem wfLfh_slice {b : Bytes} {off : Nat} (hl : HasLfh b off) (hd : dataOffset b off ≤ b.length) :
    WfLfh (slice b off (dataOffset b off)) := by
  have h30 := lfhLen_eq
  have hdef : dataOffset b off = off + (lfhLen + u16le b (off + 26) + u16le b (off + 28)) := rfl
  refine ⟨?_, ?_⟩
  · rw [slice_slice_of_le b (by omega), Nat.add_zero]
    exact hl
  · rw [length_slice_of_le off hd, u16le_slice b (by omega), u16le_slice b (by omega)]
    omega

theorem WfLfh.at {b pfx : Bytes} {off : Nat} (h : WfLfh pfx)
    (hb : slice b off (off + pfx.length) = pfx) :
    HasLfh b off ∧ dataOffset b off = off + pfx.length := by
  have h30 := lfhLen_eq
  have hlen := h.len
  have hsub : ∀ {i j : Nat}, j ≤ pfx.length → slice b (off + i) (off + j) = slice pfx i j := by
    intro i j hj
    rw [← hb, slice_slice_of_le b (by omega)]
  have h16 : ∀ {i : Nat}, i + 2 ≤ pfx.length → u16le b (off + i) = u16le pfx i := by
    intro i hi
    rw [u16le, u16le, Nat.add_assoc, hsub hi]
  refine ⟨?_, ?_⟩
  · have := hsub (i := 0) (j := 4) (by omega)
    rw [Nat.add_zero] at this
    rw [HasLfh, this, h.sig]
  · rw [dataOffset, lensAt, h16 (by omega), h16 (by omega), hlen]

structure NewHeader (rule cursor : Nat) (pfx hdr : Bytes) : Prop where
  wf : WfLfh hdr
  fixed : slice hdr 0 28 = slice pfx 0 28
  name : slice hdr lfhLen (lfhLen + u16le pfx 26) = slice pfx lfhLen (lfhLen + u16le pfx 26)
  verbatim : rule ≤ 1 → hdr = pfx
  aligned : 1 < rule → (cursor + hdr.length)
    % chosenAlign rule (pfx.drop (lfhLen + u16le pfx 26)) = 0
  again : ∀ name, newHeader name rule cursor hdr = .ok hdr

theorem chosenAlign_aligningExtra {rule off : Nat} {old : Bytes}
    (h : (aligningExtra old off (chosenAlign rule old)).length < 2 ^ 16) :
    chosenAlign rule (aligningExtra old off (chosenAlign rule old)) = chosenAlign rule old := by
  rw [chosenAlign, declaredAlignment_aligningExtra h, Option.getD_some]
  have hd : (declaredAlignment old).getD 0 < 2 ^ 16 := by
    cases hda : declaredAlignment old with
    | none => simp
    | some a => exact declaredAlignment_lt hda
  have hmax : chosenAlign rule old = max rule ((declaredAlignment old).getD 0) := rfl
  by_cases hsmall : chosenAlign rule old < 2 ^ 16
  · rw [Nat.mod_eq_of_lt hsmall]
    omega
  · -- more than a 16-bit field can declare: the rule's own alignment
    have hmod : chosenAlign rule old % 2 ^ 16 < 2 ^ 16 := Nat.mod_lt _ (by decide)
    omega

/-- **The header that an entry gets.** -/
theorem newHeader_spec {name : Bytes} {rule cursor : Nat} {pfx hdr : Bytes} (hw : WfLfh pfx)
    (h : newHeader name rule cursor pfx = .ok hdr) : NewHeader rule cursor pfx hdr := by
  have h30 := lfhLen_eq
  have hlen := hw.len
  rw [newHeader] at h
  simp only at h
  by_cases hrule : 1 < rule
  · rw [if_pos hrule] at h
    generalize hnl : lfhLen + u16le pfx 26 = n at h
    generalize hold : pfx.drop n = old at h
    generalize hex : aligningExtra old (cursor + n) (chosenAlign rule old) = extra at h
    split at h
    · cases h
    · rename_i hfit
      obtain rfl := Except.ok.inj h
      have htake : (pfx.take n).length = n := by
        rw [List.length_take]
        omega
      have hpatch : 28 + (leBytes 2 extra.length).length ≤ (pfx.take n).length := by
        rw [length_leBytes]
        omega
      have hplen : (patch (pfx.take n) 28 (leBytes 2 extra.length)).length = n := by
        rw [length_patch hpatch, htake]
      -- the fixed part and the name are not touched by the new length
      have hkeep : ∀ {i j : Nat}, j ≤ n → (j ≤ 28 ∨ 30 ≤ i) →
          slice (patch (pfx.take n) 28 (leBytes 2 extra.length) ++ extra) i j = slice pfx i j := by
        intro i j hj hd
        rw [slice_append_left _ _ (by omega), slice_patch_of_disjoint hpatch (by
          rw [length_leBytes]; omega), slice_take _ hj]
      have h26 : u16le (patch (pfx.take n) 28 (leBytes 2 extra.length) ++ extra) 26
          = u16le pfx 26 := by
        rw [u16le, hkeep (by omega) (by omega), u16le]
      have h28 : u16le (patch (pfx.take n) 28 (leBytes 2 extra.length) ++ extra) 28
          = extra.length := by
        have hs := slice_patch_self hpatch
        rw [length_leBytes] at hs
        rw [u16le, slice_append_left _ _ (by omega), hs, leNat_leBytes_of_lt (by omega)]
      have hfit16 : (aligningExtra old (cursor + n) (chosenAlign rule old)).length < 2 ^ 16 := by
        rw [hex]
        omega
      have hdrop : (patch (pfx.take n) 28 (leBytes 2 extra.length) ++ extra).drop n = extra :=
        List.drop_left' hplen
      have htakeP : (patch (pfx.take n) 28 (leBytes 2 extra.length) ++ extra).take n
          = patch (pfx.take n) 28 (leBytes 2 extra.length) := List.take_left' hplen
      refine ⟨⟨?_, ?_⟩, ?_, ?_, ?_, ?_, ?_⟩
      · rw [hkeep (by omega) (by omega), hw.sig]
      · rw [h26, h28, List.length_append, hplen]
        omega
      · exact hkeep (by omega) (by omega)
      · rw [hnl]
        exact hkeep (by omega) (by omega)
      · intro hle
        omega
      · intro _
        rw [List.length_append, hplen, ← Nat.add_assoc, hnl, hold, ← hex]
        refine aligningExtra_aligned old (cursor + n) ?_
        rw [chosenAlign]
        omega
      · intro name'
        rw [newHeader]
        simp only [h26, hnl, hdrop, htakeP]
        rw [if_pos hrule, ← hex, chosenAlign_aligningExtra hfit16,
          aligningExtra_aligningExtra hfit16, hex, if_neg hfit,
          patch_patch (by simp) hpatch]
  · rw [if_neg hrule, List.take_append_drop] at h
    obtain rfl := Except.ok.inj h
    refine ⟨hw, rfl, rfl, fun _ => rfl, fun hlt => absurd hlt hrule, ?_⟩
    intro name'
    rw [newHeader]
    simp only
    rw [if_neg hrule, List.take_append_drop]

end FastSigner.Align

import FastSigner.Align.Recheck

/-!
# Rewriting once more

An archive is *settled* if there is nothing to move: every entry is kept, no record
reaches into another, and every header is the one that it would get where it stands.

* `Settled.rewriteSpec`: rewriting a settled archive copies it.
* `Rebuilt.settled`: what a rewrite leaves is settled, whatever stands behind it.
* `rewrite_rewritten`: so a second rewrite reproduces the first, and the bytes that came
  to stand behind it (the padding in front of a signing block) become a last gap.
-/

namespace FastSigner.Align

open Lib Zip Digest

/-! ### Settled archives -/

/-- Nothing is left to move. -/
structure Settled (A : Archive) (b : Bytes) : Prop where
  input : A.input = ReadAt.ofBytes b
  inside : A.entriesEnd ≤ b.length
  kept : ∀ i, i < A.entries.length → A.policy i = .output
  order : ∃ order, fileOrder A.entries A.entriesEnd = .ok order
  lfh : ∀ e ∈ A.entries, HasLfh b e.lfhOff
  fits : ∀ e ∈ A.entries, A.recordStop b e ≤ A.entriesEnd ∧
    ∀ e' ∈ A.entries, e.lfhOff < e'.lfhOff → A.recordStop b e ≤ e'.lfhOff
  header : ∀ e ∈ A.entries,
    newHeader (e.nameIn A.cd) (A.rule e) e.lfhOff (slice b e.lfhOff (dataOffset b e.lfhOff))
      = .ok (slice b e.lfhOff (dataOffset b e.lfhOff))

/-- The record of an entry, kept where it is. -/
def Archive.stay (A : Archive) (b : Bytes) (x : CdEntry × Nat) : Placed where
  e := x.1
  i := x.2
  keep := true
  dataOff := dataOffset b x.1.lfhOff
  stop := A.recordStop b x.1
  newOff := x.1.lfhOff
  hdr := slice b x.1.lfhOff (dataOffset b x.1.lfhOff)

section Settled

variable {A : Archive} {b : Bytes}

theorem Archive.le_recordStop (A : Archive) (b : Bytes) (e : CdEntry) :
    e.lfhOff + lfhLen ≤ dataOffset b e.lfhOff ∧ dataOffset b e.lfhOff ≤ A.recordStop b e := by
  rw [Archive.recordStop, dataOffset]
  omega

theorem Settled.stay_ok (h : Settled A b) {e : CdEntry} {i : Nat}
    (he : (e, i) ∈ A.entries.zipIdx) : (A.stay b (e, i)).Ok A b := by
  have hget := List.mem_zipIdx_iff_getElem?.mp he
  have hmem : e ∈ A.entries := List.mem_of_getElem? hget
  have hout := h.kept i (List.getElem?_eq_some_iff.mp hget).1
  refine ⟨?_, ?_, h.lfh e hmem, rfl, rfl, (h.fits e hmem).1, fun _ => h.header e hmem⟩
  · simp only [Archive.stay, hout, decide_true]
  · simp only [Archive.stay, hout]
    decide

theorem stay_outLen {e : CdEntry} {i : Nat} (hstop : A.recordStop b e ≤ b.length) :
    e.lfhOff + (A.stay b (e, i)).outLen = A.recordStop b e := by
  obtain ⟨h1, h2⟩ := A.le_recordStop b e
  rw [Placed.outLen, if_pos (show (A.stay b (e, i)).keep = true from rfl)]
  simp only [Archive.stay]
  rw [length_slice_of_le _ (by omega)]
  omega

/-- Each record ends before the next one starts. -/
def Apart (A : Archive) (b : Bytes) (order : List (CdEntry × Nat)) : Prop :=
  order.Pairwise fun x y => A.recordStop b x.1 ≤ y.1.lfhOff

theorem laid_stay :
    ∀ (order : List (CdEntry × Nat)) (n : Nat), Apart A b order →
      (∀ x ∈ order, A.recordStop b x.1 ≤ b.length) → (∀ x ∈ order, n ≤ x.1.lfhOff) →
      Laid n n (order.map (A.stay b)) := by
  intro order
  induction order with
  | nil => intro n _ _ _; trivial
  | cons x order ih =>
    intro n hapart hstop hn
    obtain ⟨hx, hapart⟩ := List.pairwise_cons.mp hapart
    have hle := hn x List.mem_cons_self
    refine ⟨hle, ?_, ?_⟩
    · simp only [Archive.stay]
      omega
    · have hlen := @stay_outLen A b x.1 x.2 (hstop x List.mem_cons_self)
      have htail := ih (A.recordStop b x.1) hapart
        (fun y hy => hstop y (List.mem_cons_of_mem _ hy)) hx
      rw [← hlen] at htail
      exact hlen ▸ htail

theorem weave_stay {entriesEnd : Nat} :
    ∀ (order : List (CdEntry × Nat)) (n : Nat), Apart A b order →
      (∀ x ∈ order, A.recordStop b x.1 ≤ entriesEnd) → (∀ x ∈ order, n ≤ x.1.lfhOff) →
      weave b entriesEnd n (order.map (A.stay b)) = slice b n entriesEnd := by
  intro order
  induction order with
  | nil => intro n _ _ _; rfl
  | cons x order ih =>
    intro n hapart hstop hn
    obtain ⟨hx, hapart⟩ := List.pairwise_cons.mp hapart
    have hle := hn x List.mem_cons_self
    have hend := hstop x List.mem_cons_self
    obtain ⟨h1, h2⟩ := A.le_recordStop b x.1
    have htail := ih (A.recordStop b x.1) hapart
      (fun y hy => hstop y (List.mem_cons_of_mem _ hy)) hx
    have hrecord : (A.stay b x).record b = slice b x.1.lfhOff (A.recordStop b x.1) := by
      rw [Placed.record, if_pos (show (A.stay b x).keep = true from rfl)]
      exact slice_append_slice b (by omega) h2
    rw [List.map_cons, weave, hrecord]
    change slice b n x.1.lfhOff ++ _ ++ weave b entriesEnd (A.recordStop b x.1) _ = _
    rw [htail, slice_append_slice b hle (by omega), slice_append_slice b (by omega) hend]

theorem Settled.apart (h : Settled A b) {order : List (CdEntry × Nat)}
    (horder : fileOrder A.entries A.entriesEnd = .ok order) :
    Apart A b order ∧ (∀ x ∈ order, A.recordStop b x.1 ≤ A.entriesEnd) ∧
      ∀ x ∈ order, x ∈ A.entries.zipIdx := by
  obtain ⟨hperm, hord, -⟩ := fileOrder_eq_ok_iff.mp horder
  have hmem : ∀ x ∈ order, x.1 ∈ A.entries := fun x hx =>
    List.mem_of_getElem? (List.mem_zipIdx_iff_getElem?.mp (hperm.mem_iff.mp hx))
  refine ⟨List.Pairwise.imp_of_mem ?_ hord, fun x hx => (h.fits _ (hmem x hx)).1,
    fun x hx => hperm.mem_iff.mp hx⟩
  intro x y hx hy hlt
  exact (h.fits _ (hmem x hx)).2 _ (hmem y hy) hlt

/-- **A settled archive is laid out as it is.** -/
theorem Settled.placements (h : Settled A b) {order : List (CdEntry × Nat)}
    (horder : fileOrder A.entries A.entriesEnd = .ok order) :
    Placements A b (order.map (A.stay b)) := by
  obtain ⟨hapart, hstop, hmem⟩ := h.apart horder
  have hall : A.processed order = order := by
    refine List.filter_eq_self.mpr fun x hx => ?_
    have hget := List.mem_zipIdx_iff_getElem?.mp (hmem x hx)
    rw [h.kept x.2 (List.getElem?_eq_some_iff.mp hget).1]
    rfl
  refine ⟨⟨order, horder, ?_⟩, ?_, ?_⟩
  · rw [List.map_map, hall]
    exact List.map_id order
  · intro p hp
    obtain ⟨x, hx, rfl⟩ := List.mem_map.mp hp
    exact h.stay_ok (hmem x hx)
  · exact laid_stay order 0 hapart (fun x hx => Nat.le_trans (hstop x hx) h.inside)
      fun x _ => Nat.zero_le _

theorem Settled.planAll (h : Settled A b) : ∃ order plans,
    fileOrder A.entries A.entriesEnd = .ok order ∧ planAll A = .ok (plans, 0) ∧
      plans = plansFor A.entriesEnd 0 0 (order.map (A.stay b)) ∧
      output b plans = b.take A.entriesEnd := by
  obtain ⟨order, horder⟩ := h.order
  obtain ⟨hapart, hstop, hmem⟩ := h.apart horder
  have hps := h.placements horder
  obtain ⟨order', horder', hentries⟩ := hps.order
  obtain rfl := Except.ok.inj (horder.symm.trans horder')
  have hplans := planLoop_of_placed h.input h.inside order (order.map (A.stay b)) HeaderReader.new
    0 0 (HeaderReader.shows_new _ _) hentries hps.ok hps.laid
  have hnone : order.countP (fun x => A.policy x.2 != .output) = 0 := by
    refine List.countP_eq_zero.mpr fun x hx => ?_
    have hget := List.mem_zipIdx_iff_getElem?.mp (hmem x hx)
    rw [h.kept x.2 (List.getElem?_eq_some_iff.mp hget).1]
    decide
  refine ⟨order, _, horder, ?_, rfl, ?_⟩
  · rw [Align.planAll, horder, ok_bind, hplans, ok_bind, hnone]
  · rw [output_plansFor _ 0 0 fun p hp => (hps.ok p hp).le.2,
      weave_stay order 0 hapart hstop fun x _ => Nat.zero_le _, slice_zero]

theorem setLfhOff_self {r : Bytes} (hr : WfRecord r) : setLfhOff r (u32le r 42) = r := by
  have hle := hr.le
  have hlen : (slice r 42 46).length = 4 := by
    rw [length_slice_of_le _ hle]
  have hbytes := leBytes_leNat (slice r 42 46)
  rw [hlen] at hbytes
  rw [setLfhOff, u32le, hbytes, patch_slice_self (by decide) hle]

theorem Settled.newCd (h : Settled A b) {order : List (CdEntry × Nat)}
    (horder : fileOrder A.entries A.entriesEnd = .ok order)
    (hcl : classify A.cd = .ok (A.entries, A.policies)) :
    newCd A.cd A.entries (newOffs A.entries.length
      (plansFor A.entriesEnd 0 0 (order.map (A.stay b)))) = (A.cd, A.entries.length) := by
  obtain ⟨rs, hwf, hcd, hentries, hpol⟩ := exists_records hcl
  have hps := h.placements horder
  obtain ⟨hperm, -, -⟩ := fileOrder_eq_ok_iff.mp horder
  have hlen : A.entries.length = rs.length := by rw [hentries, length_entriesFrom]
  have hout : ∀ x ∈ rs.zipIdx, isOutput x.1 = true := by
    intro x hx
    have hget := List.mem_zipIdx_iff_getElem?.mp hx
    have hkept := h.kept x.2 (hlen ▸ (List.getElem?_eq_some_iff.mp hget).1)
    rw [Archive.policy, hpol, List.getD_eq_getElem?_getD, List.getElem?_map, hget] at hkept
    exact beq_iff_eq.mpr hkept
  have hoff : ∀ x ∈ rs.zipIdx, setLfhOff x.1 (offOf (order.map (A.stay b)) x.2) = x.1 := by
    intro x hx
    have hget := List.mem_zipIdx_iff_getElem?.mp hx
    obtain ⟨q, hq⟩ := getElem?_entriesFrom rs 0 hget
    rw [← hentries] at hq
    have hmem : A.stay b (entryOf q x.1, x.2) ∈ order.map (A.stay b) :=
      List.mem_map_of_mem (hperm.mem_iff.mpr (List.mem_zipIdx_iff_getElem?.mpr hq))
    have hnew : offOf (order.map (A.stay b)) x.2 = u32le x.1 42 := offOf_eq hps.nodup hmem rfl
    rw [hnew, setLfhOff_self (hwf x.1 (List.mem_of_getElem? hget))]
  have hmoved : movedRecords rs (offOf (order.map (A.stay b))) = rs := by
    rw [movedRecords, List.filter_eq_self.mpr hout, List.map_congr_left hoff]
    exact List.zipIdx_map_fst 0 rs
  have hfilter : rs.filter isOutput = rs := by
    refine List.filter_eq_self.mpr fun r hr => ?_
    obtain ⟨i, hi⟩ := List.getElem?_of_mem hr
    exact hout (r, i) (List.mem_zipIdx_iff_getElem?.mpr hi)
  rw [newCd_flatten hps hcd hentries hpol, hmoved, hfilter, hcd, hlen]

/-- **Rewriting a settled archive copies it.** -/
theorem Settled.rewriteSpec (h : Settled A b) (hcl : classify A.cd = .ok (A.entries, A.policies))
    (R : Crypto) (alg : Algorithm) : ∃ rw_, rewriteSpec R alg b A = .ok (rw_, b.take A.entriesEnd) ∧
      rw_.cd = A.cd ∧ rw_.entries = A.entries.length ∧ rw_.dropped = 0 := by
  obtain ⟨order, plans, horder, hplan, rfl, hout⟩ := h.planAll
  rw [Align.rewriteSpec, hplan, ok_bind]
  simp only [h.newCd horder hcl, hout]
  exact ⟨_, rfl, rfl, rfl, rfl⟩

end Settled

/-! ### The same beginning -/

section Beginning

variable {b file : Bytes} {off : Nat}

theorem slice_of_take (h : b.take file.length = file) {i j : Nat} (hj : j ≤ file.length) :
    slice b i j = slice file i j := by
  rw [← slice_take i hj, h]

theorem u16le_of_take (h : b.take file.length = file) {i : Nat} (hi : i + 2 ≤ file.length) :
    u16le b i = u16le file i := by
  rw [u16le, u16le, slice_of_take h hi]

theorem hasLfh_of_take (h : b.take file.length = file) (hoff : off + lfhLen ≤ file.length) :
    HasLfh b off ↔ HasLfh file off := by
  have h30 : lfhLen = 30 := rfl
  rw [HasLfh, HasLfh, slice_of_take h (by omega)]

theorem dataOffset_of_take (h : b.take file.length = file) (hoff : off + lfhLen ≤ file.length) :
    dataOffset b off = dataOffset file off := by
  have h30 : lfhLen = 30 := rfl
  rw [dataOffset, dataOffset, lensAt, lensAt, u16le_of_take h (by omega),
    u16le_of_take h (by omega)]

end Beginning

/-! ### What a rewrite leaves -/

/-- `A'` is the archive that a rewrite of `A` left: `b` begins with its section, and more of `b` may
belong to the entries by now. -/
structure Left (A A' : Archive) (rw_ : Rewritten) (file b : Bytes) : Prop where
  input : A'.input = ReadAt.ofBytes b
  cd : A'.cd = rw_.cd
  classified : classify A'.cd = .ok (A'.entries, A'.policies)
  page : A'.libPageSize = A.libPageSize
  begins : b.take file.length = file
  stop : file.length ≤ A'.entriesEnd
  inside : A'.entriesEnd ≤ b.length

theorem descriptorLen_ofBytes {A : Archive} {b : Bytes} {e : CdEntry} {off : Nat}
    (hin : A.input = ReadAt.ofBytes b) (hb : A.entriesEnd ≤ b.length)
    (hoff : e.hasDataDescriptor = true → off + 4 ≤ A.entriesEnd) :
    A.descriptorLen e off = if e.hasDataDescriptor then
      (if leNat (slice b off (off + 4)) = dataDescriptorSig then 16 else 12) else 0 := by
  rw [Archive.descriptorLen]
  by_cases hd : e.hasDataDescriptor = true
  · have hroom := hoff hd
    have hread : (A.input.readExactAt off 4).toOption.map leNat
        = some (leNat (slice b off (off + 4))) := by
      rw [hin, ReadAt.ofBytes_readExactAt (by omega)]
      rfl
    rw [if_pos hd, if_pos hd]
    simp only [hread, Option.some.injEq, hroom, true_and]
  · rw [if_neg hd, if_neg hd]

theorem twelve_le_descriptorLen {A : Archive} {e : CdEntry} (off : Nat)
    (hd : e.hasDataDescriptor = true) : 12 ≤ A.descriptorLen e off := by
  rw [Archive.descriptorLen, if_pos hd]
  split
  · omega
  · omega

section Left

variable {A A' : Archive} {src file b : Bytes} {rw_ : Rewritten} {rs : List Bytes}
  {ps : List Placed}

theorem Rebuilt.entry_of_placed (h : Rebuilt A src rw_ file rs ps) {p : Placed} (hp : p ∈ ps)
    {r : Bytes} (hr : rs[p.i]? = some r) : ∃ q, p.e = entryOf q r := by
  obtain ⟨q, hq⟩ := getElem?_entriesFrom rs 0 hr
  have hget := List.mem_zipIdx_iff_getElem?.mp (h.layout.mem_zipIdx hp)
  rw [h.entries, hq] at hget
  exact ⟨q, (Option.some.inj hget).symm⟩

variable (h : Rebuilt A src rw_ file rs ps) (hb : A.entriesEnd ≤ src.length)

include h hb

theorem Rebuilt.recordStop (hin : A.input = ReadAt.ofBytes src) (hl : Left A A' rw_ file b)
    {e : CdEntry} {p : Placed} (hp : p ∈ ps) (hk : p.keep = true) (hoff : e.lfhOff = p.newOff)
    (hflag : e.hasDataDescriptor = p.e.hasDataDescriptor)
    (hsize : e.compressedSize = p.e.compressedSize) :
    dataOffset b e.lfhOff = p.newOff + p.hdr.length ∧
      A'.recordStop b e = p.newOff + p.outLen ∧ p.newOff + p.outLen ≤ file.length := by
  obtain ⟨-, hd, hlong, hend, hle⟩ := h.header hb hp hk
  have hok := h.layout.ok p hp
  have hstop := hok.stop
  have hfits := hok.fits
  have hout : p.outLen = p.hdr.length + (p.stop - p.dataOff) := by rw [Placed.outLen, if_pos hk]
  have hdata : dataOffset b e.lfhOff = p.newOff + p.hdr.length := by
    rw [hoff, dataOffset_of_take hl.begins (by omega), hd]
  refine ⟨hdata, ?_, hend⟩
  rw [Archive.dataLen] at hstop
  have hlt := hl.stop
  -- the four bytes at the end of the data are the ones that were copied
  have hsame : p.e.hasDataDescriptor = true →
      slice b (p.newOff + p.hdr.length + p.e.compressedSize)
          (p.newOff + p.hdr.length + p.e.compressedSize + 4)
        = slice src (p.dataOff + p.e.compressedSize) (p.dataOff + p.e.compressedSize + 4) := by
    intro hdd
    have h12 := twelve_le_descriptorLen (A := A) (p.dataOff + p.e.compressedSize) hdd
    have hrec := slice_weave hb h.layout hp hk
    rw [← h.woven] at hrec
    rw [slice_of_take hl.begins (by omega)]
    have hcut := congrArg (fun l => slice l (p.hdr.length + p.e.compressedSize)
      (p.hdr.length + p.e.compressedSize + 4)) hrec
    rw [slice_slice_of_le _ (by omega), slice_append_right _ _ (by omega),
      slice_slice_of_le _ (by omega)] at hcut
    rw [show p.newOff + p.hdr.length + p.e.compressedSize
        = p.newOff + (p.hdr.length + p.e.compressedSize) by omega, Nat.add_assoc p.newOff,
      hcut, show p.hdr.length + p.e.compressedSize - p.hdr.length = p.e.compressedSize by omega,
      show p.hdr.length + p.e.compressedSize + 4 - p.hdr.length = p.e.compressedSize + 4 by omega,
      Nat.add_assoc]
  have hroom : p.e.hasDataDescriptor = true →
      p.dataOff + p.e.compressedSize + 4 ≤ A.entriesEnd := by
    intro hdd
    have h12 := twelve_le_descriptorLen (A := A) (p.dataOff + p.e.compressedSize) hdd
    omega
  have hroom' : p.e.hasDataDescriptor = true →
      p.newOff + p.hdr.length + p.e.compressedSize + 4 ≤ A'.entriesEnd := by
    intro hdd
    have h12 := twelve_le_descriptorLen (A := A) (p.dataOff + p.e.compressedSize) hdd
    omega
  have hlen := descriptorLen_ofBytes hin hb hroom
  have hlen' := @descriptorLen_ofBytes A' b e _ hl.input hl.inside (hflag ▸ hroom')
  have heq : A'.descriptorLen e (p.newOff + p.hdr.length + p.e.compressedSize)
      = A.descriptorLen p.e (p.dataOff + p.e.compressedSize) := by
    rw [hlen, hlen', hflag]
    by_cases hdd : p.e.hasDataDescriptor = true
    · rw [if_pos hdd, if_pos hdd, hsame hdd]
    · rw [if_neg hdd, if_neg hdd]
  rw [Archive.recordStop, Archive.dataLen, hdata, hsize, heq]
  omega

variable (hfit : OffsetsFit ps)

include hfit

omit hb in
theorem Rebuilt.exists_moved {e : CdEntry} (he : e ∈ movedEntries rs ps) :
    ∃ p ∈ ps, p.keep = true ∧ e.lfhOff = p.newOff ∧
      requiredAlignment rw_.cd e A.libPageSize = A.rule p.e ∧
      e.hasDataDescriptor = p.e.hasDataDescriptor ∧ e.compressedSize = p.e.compressedSize := by
  obtain ⟨i, hi⟩ := List.getElem?_of_mem he
  obtain ⟨x, hx, p, hp, hk, hpi, hoff, hreq⟩ := h.exists_source hfit hi
  have hmem := List.mem_of_getElem? hx
  have hwf := h.wf_kept hmem
  have hget := List.mem_zipIdx_iff_getElem?.mp (List.mem_of_mem_filter hmem)
  obtain ⟨q, hpe⟩ := h.entry_of_placed hp (hpi ▸ hget)
  have hmoved : (movedRecords rs (offOf ps))[i]? = some (setLfhOff x.1 (offOf ps x.2)) := by
    rw [movedRecords, List.getElem?_map]
    exact congrArg (Option.map _) hx
  obtain ⟨q', hq'⟩ := getElem?_entriesFrom _ 0 hmoved
  obtain rfl := Option.some.inj (hi.symm.trans hq')
  have hflags : u16le (setLfhOff x.1 (offOf ps x.2)) 8 = u16le x.1 8 :=
    u16le_setLfhOff hwf _ (by decide)
  have hsize : u32le (setLfhOff x.1 (offOf ps x.2)) 20 = u32le x.1 20 :=
    congrArg leNat (slice_setLfhOff hwf _ (Or.inl (by decide)))
  refine ⟨p, hp, hk, hoff, hreq, ?_, ?_⟩
  · rw [hpe]
    simp only [CdEntry.hasDataDescriptor, entryOf, hflags]
  · rw [hpe]
    exact hsize

/-- **What a rewrite leaves is settled.** -/
theorem Rebuilt.settled (hin : A.input = ReadAt.ofBytes src) (hl : Left A A' rw_ file b) :
    Settled A' b ∧ A'.entries = movedEntries rs ps := by
  have hwf : ∀ r ∈ movedRecords rs (offOf ps), WfRecord r := by
    intro r hr
    obtain ⟨x, hx, rfl⟩ := List.mem_map.mp hr
    exact wfRecord_setLfhOff (h.wf_kept hx) _
  have hcl := hl.classified
  rw [hl.cd, h.newCd, classify_flatten hwf, Except.ok.injEq, Prod.mk.injEq] at hcl
  obtain ⟨hentries, hpol⟩ := hcl
  have hmoved : A'.entries = movedEntries rs ps := hentries.symm
  have hlt := hl.stop
  have hplaced : ∀ e ∈ A'.entries, ∃ p ∈ ps, p.keep = true ∧ e.lfhOff = p.newOff ∧
      A'.rule e = A.rule p.e ∧ dataOffset b e.lfhOff = p.newOff + p.hdr.length ∧
      A'.recordStop b e = p.newOff + p.outLen ∧ p.newOff + p.outLen ≤ file.length := by
    intro e he
    obtain ⟨p, hp, hk, hoff, hreq, hflag, hsize⟩ := h.exists_moved hfit (hmoved ▸ he)
    rw [← hl.cd, ← hl.page] at hreq
    exact ⟨p, hp, hk, hoff, hreq, h.recordStop hb hin hl hp hk hoff hflag hsize⟩
  have hroom : ∀ e ∈ A'.entries, e.lfhOff + lfhLen ≤ file.length := fun e he =>
    (h.hasLfh hb hfit (hmoved ▸ he)).1
  refine ⟨⟨hl.input, hl.inside, ?_, ?_, ?_, ?_, ?_⟩, hmoved⟩
  · intro i hi
    rw [← hentries, length_entriesFrom] at hi
    rw [Archive.policy, ← hpol, List.getD_eq_getElem?_getD, List.getElem?_map,
      List.getElem?_eq_getElem hi]
    obtain ⟨x, hx, hr⟩ := List.mem_map.mp (List.getElem_mem hi)
    rw [← hr, Option.map_some, Option.getD_some, recordPolicy,
      recordName_setLfhOff (h.wf_kept hx)]
    exact eq_of_beq (List.mem_filter.mp hx).2
  · refine exists_fileOrder ?_ fun e he => Nat.le_trans (hroom e he) hlt
    rw [← hentries]
    exact h.nodup_offsets hb hfit
  · intro e he
    exact (hasLfh_of_take hl.begins (hroom e he)).mpr (h.hasLfh hb hfit (hmoved ▸ he)).2
  · intro e he
    obtain ⟨p, hp, hk, hoff, -, -, hstop, hend⟩ := hplaced e he
    refine ⟨by omega, fun e' he' hlt' => ?_⟩
    obtain ⟨q, hq, -, hoffq, -⟩ := hplaced e' he'
    rcases h.layout.apart hp hq with rfl | happ | happ
    · omega
    · omega
    · omega
  · intro e he
    obtain ⟨p, hp, hk, hoff, hrule, hdata, -, hend⟩ := hplaced e he
    have hok := h.layout.ok p hp
    have hle := hok.le
    have hfits := hok.fits
    have hdo := hok.dataOff
    have hhdr := (header_weave hb h.layout hp hk).1
    rw [← h.woven] at hhdr
    have hlen := (h.header hb hp hk).2.2.2.2
    have hagain := (newHeader_spec (wfLfh_slice hok.lfh (b := src) (by omega))
      (hdo ▸ hok.hdr hk)).again
    rw [hrule, hdata, hoff, slice_of_take hl.begins (by omega), hhdr]
    exact hagain _

end Left

/-- **A second rewrite reproduces the first** if nothing fails and the offsets of the headers fit in
the directory: the section, with the bytes that came to stand behind it, the directory, and the number
of entries; and it drops nothing. -/
theorem rewrite_rewritten (R : Crypto) (alg alg' : Algorithm) {A A' : Archive} {src b : Bytes}
    (hin : A.input = ReadAt.ofBytes src) (hb : A.entriesEnd ≤ src.length)
    (hcl : classify A.cd = .ok (A.entries, A.policies)) {threads threads' : Nat}
    {env env' : RewriteEnv} {out out' : Bytes} {rw_ : Rewritten}
    (h : (rewrite R alg src A threads env out).result = .ok rw_)
    (hoff : ∀ x ∈ A.landings src, x.off < 2 ^ 32)
    (hl : Left A A' rw_ (rewrite R alg src A threads env out).file b) (hcalm : env'.Calm) :
    ∃ rw', (rewrite R alg' b A' threads' env' out').result = .ok rw' ∧
      (rewrite R alg' b A' threads' env' out').file = b.take A'.entriesEnd ∧
      rw'.cd = rw_.cd ∧ rw'.entries = rw_.entries ∧ rw'.dropped = 0 := by
  have honest : A.input.Honest src := hin ▸ ReadAt.honest_ofBytes src
  have hspec := rewrite_refines honest hb h
  generalize (rewrite R alg src A threads env out).file = file at hspec hl
  obtain ⟨rs, ps, hre⟩ := exists_rebuilt honest hb hcl hspec
  have hfit : OffsetsFit ps := fun p hp hk => hoff _ (hre.layout.landing_of_mem hb hp hk)
  obtain ⟨hset, hentries⟩ := hre.settled hb hfit hin hl
  obtain ⟨rw', hspec', hcd, hcount, hdropped⟩ := hset.rewriteSpec hl.classified R alg'
  have honest' : A'.input.Honest b := hl.input ▸ ReadAt.honest_ofBytes b
  have hres := rewrite_eq_of_log honest' hl.inside
    (@rewrite_log_of_calm R alg' _ _ threads' _ hcalm out')
  rw [hspec'] at hres
  have hfile := rewrite_refines honest' hl.inside hres
  rw [hspec', Except.ok.injEq, Prod.mk.injEq] at hfile
  refine ⟨rw', hres, hfile.2.symm, hcd.trans hl.cd, ?_, hdropped⟩
  rw [hcount, hentries, hre.count, movedEntries, length_entriesFrom, length_movedRecords]

/-- The rewritten archive, with two zeros behind its section. -/
def mixedAgain : Archive where
  input := ReadAt.ofBytes (mixedOutput ++ [0, 0])
  cd := mixedOutputRecords.flatten
  entries := entriesFrom 0 mixedOutputRecords
  policies := [.output, .output]
  entriesEnd := 137
  libPageSize := 16384

set_option maxRecDepth 8000 in
theorem classify_mixedAgain :
    classify mixedAgain.cd = .ok (mixedAgain.entries, mixedAgain.policies) := by decide

set_option maxRecDepth 8000 in
theorem take_mixedAgain : (mixedOutput ++ [0, 0]).take 137 = mixedOutput ++ [0, 0] := by decide

theorem rewrite_rewritten_mixed : ∃ rw',
    (rewrite sha256Crypto .sha256 (mixedOutput ++ [0, 0]) mixedAgain 4
      ⟨fun k => (k, Faults.none), none⟩ []).result = .ok rw' ∧
    (rewrite sha256Crypto .sha256 (mixedOutput ++ [0, 0]) mixedAgain 4
      ⟨fun k => (k, Faults.none), none⟩ []).file = mixedOutput ++ [0, 0] ∧ rw'.dropped = 0 := by
  generalize sha256Crypto = R
  have hlen : (mixedOutput ++ [0, 0]).length = 137 := by
    rw [List.length_append, length_mixedOutput]
    rfl
  obtain ⟨rw_, hok, hfile, hcd, -⟩ := rewrite_mixedArchive R .sha256 4
  have hoff : ∀ x ∈ mixedArchive.landings mixedFile, x.off < 2 ^ 32 := by
    rw [landings_mixedArchive]
    decide
  have hleft : Left mixedArchive mixedAgain rw_
      (rewrite R .sha256 mixedFile mixedArchive 4 ⟨fun k => (k, Faults.none), none⟩ []).file
      (mixedOutput ++ [0, 0]) := by
    refine ⟨rfl, hcd.symm, classify_mixedAgain, rfl, ?_, ?_, ?_⟩
    · rw [hfile, List.take_left]
    · rw [hfile, length_mixedOutput]
      decide
    · exact Nat.le_of_eq hlen.symm
  obtain ⟨rw', hrw', hfile', -, -, hdropped⟩ := @rewrite_rewritten R .sha256 .sha256 mixedArchive
    mixedAgain mixedFile _ rfl room_mixedArchive classify_mixedArchive 4 4 _
    ⟨fun k => (k, Faults.none), none⟩ _ [] _ hok hoff hleft ⟨fun _ => rfl, rfl⟩
  exact ⟨rw', hrw', hfile'.trans take_mixedAgain, hdropped⟩

end FastSigner.Align

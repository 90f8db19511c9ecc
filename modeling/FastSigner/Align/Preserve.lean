import FastSigner.Align.Layout

/-!
# What a rewrite keeps

`Rebuilt` collects what is known of a rewritten archive: the records of its old
Central Directory, where the planner put each of them, and the section and the
directory that follow from that.  `Moved` says what a kept entry keeps: the fixed
part of its header but for the extra field's length, its name, its data with the
data descriptor, and all of its header if it is compressed.

* `Rebuilt.moved`: every kept record is found at its new offset.
* `rewrite_preserves`: the new directory is the filtered one with new offsets, and
  the section is made of the records and of the bytes between them.
-/

namespace FastSigner.Align

open Lib Zip Digest

/-! ### The records in the section -/

section Section

variable {A : Archive} {b : Bytes}

theorem mem_plansFor {entriesEnd : Nat} :
    ∀ {ps : List Placed} {cursor consumed : Nat} {p : Placed}, p ∈ ps → p.keep = true →
      (⟨some p.i, p.dataOff, p.stop - p.dataOff, p.newOff, p.hdr⟩ : Plan)
        ∈ plansFor entriesEnd cursor consumed ps := by
  intro ps
  induction ps with
  | nil => intro cursor consumed p hp; cases hp
  | cons q ps ih =>
    intro cursor consumed p hp hk
    rw [plansFor, List.mem_append, List.mem_append]
    rcases List.mem_cons.mp hp with rfl | hp
    · rw [if_pos hk]
      exact Or.inl (Or.inr (List.mem_singleton.mpr rfl))
    · exact Or.inr (ih hp hk)

/-- A kept record stands at its offset. -/
theorem slice_weave (hb : A.entriesEnd ≤ b.length) {ps : List Placed} (h : Placements A b ps)
    {p : Placed} (hp : p ∈ ps) (hk : p.keep = true) :
    slice (weave b A.entriesEnd 0 ps) p.newOff (p.newOff + (p.hdr.length + (p.stop - p.dataOff)))
      = p.hdr ++ slice b p.dataOff p.stop := by
  have hle : ∀ q ∈ ps, q.dataOff ≤ q.stop := fun q hq => (h.ok q hq).le.2
  have hslice := slice_output (contiguous_plansFor ps 0 0 h.laid) (inside_plansFor hb ps 0 0 h.ok) _
    (mem_plansFor hp hk)
  rw [output_plansFor ps 0 0 hle, Plan.content, Plan.outEnd, Plan.outLen, Nat.sub_zero,
    Nat.sub_zero] at hslice
  rw [hslice, show p.dataOff + (p.stop - p.dataOff) = p.stop by have := hle p hp; omega]

theorem outEnd_le_weave (hb : A.entriesEnd ≤ b.length) {ps : List Placed} (h : Placements A b ps)
    {p : Placed} (hp : p ∈ ps) (hk : p.keep = true) :
    p.newOff + (p.hdr.length + (p.stop - p.dataOff)) ≤ (weave b A.entriesEnd 0 ps).length := by
  have hpl := h.ok p hp
  have hle := hpl.le
  have hfits := hpl.fits
  have hlen := congrArg List.length (slice_weave hb h hp hk)
  rw [length_slice, List.length_append, length_slice_of_le _ (by omega)] at hlen
  have h30 : lfhLen = 30 := rfl
  have hw : lfhLen ≤ p.hdr.length := by
    have := (newHeader_spec (wfLfh_slice hpl.lfh (by rw [← hpl.dataOff]; omega))
      (hpl.dataOff ▸ hpl.hdr hk)).wf.len
    omega
  omega

theorem header_weave (hb : A.entriesEnd ≤ b.length) {ps : List Placed} (h : Placements A b ps)
    {p : Placed} (hp : p ∈ ps) (hk : p.keep = true) :
    slice (weave b A.entriesEnd 0 ps) p.newOff (p.newOff + p.hdr.length) = p.hdr ∧
      HasLfh (weave b A.entriesEnd 0 ps) p.newOff ∧
      dataOffset (weave b A.entriesEnd 0 ps) p.newOff = p.newOff + p.hdr.length := by
  have hpl := h.ok p hp
  have hle := hpl.le
  have hfits := hpl.fits
  have hdo := hpl.dataOff
  have hwf := (newHeader_spec (wfLfh_slice hpl.lfh (b := b) (by omega)) (hdo ▸ hpl.hdr hk)).wf
  have hhdr : slice (weave b A.entriesEnd 0 ps) p.newOff (p.newOff + p.hdr.length) = p.hdr := by
    have := congrArg (List.take p.hdr.length) (slice_weave hb h hp hk)
    rw [List.take_left, ← slice_zero, slice_slice_of_le _ (by omega), Nat.add_zero] at this
    exact this
  exact ⟨hhdr, hwf.at hhdr⟩

end Section

/-! ### A moved entry -/

/-- The entry `e` of the file `b` is kept at offset `off` of `file`. -/
structure Moved (A : Archive) (b file : Bytes) (e : CdEntry) (off : Nat) : Prop where
  -- The header's fixed part, up to the length of the extra field.
  fixed : slice file off (off + 28) = slice b e.lfhOff (e.lfhOff + 28)
  name : slice file (off + lfhLen) (off + lfhLen + u16le b (e.lfhOff + 26))
    = slice b (e.lfhOff + lfhLen) (e.lfhOff + lfhLen + u16le b (e.lfhOff + 26))
  -- The compressed data and its data descriptor, right behind the header.
  data : slice file (dataOffset file off)
      (dataOffset file off + A.dataLen e (dataOffset b e.lfhOff))
    = slice b (dataOffset b e.lfhOff) (dataOffset b e.lfhOff + A.dataLen e (dataOffset b e.lfhOff))
  fits : dataOffset file off + A.dataLen e (dataOffset b e.lfhOff) ≤ file.length
  lfh : HasLfh file off
  -- The whole header of a compressed entry.
  verbatim : e.isStored = false →
    slice file off (dataOffset file off) = slice b e.lfhOff (dataOffset b e.lfhOff)

/-- **A placed record is found at its new offset.** -/
theorem moved_of_placed {A : Archive} {b : Bytes} (hb : A.entriesEnd ≤ b.length) {ps : List Placed}
    (h : Placements A b ps) {p : Placed} (hp : p ∈ ps) (hk : p.keep = true) :
    Moved A b (weave b A.entriesEnd 0 ps) p.e p.newOff := by
  have hpl := h.ok p hp
  have hle := hpl.le
  have hfits := hpl.fits
  have hdo := hpl.dataOff
  have h30 : lfhLen = 30 := rfl
  have hwf := wfLfh_slice hpl.lfh (b := b) (by omega)
  have hnew := newHeader_spec hwf (hdo ▸ hpl.hdr hk)
  have hlen := hnew.wf.len
  have hrec := slice_weave hb h hp hk
  have hend := outEnd_le_weave hb h hp hk
  obtain ⟨hhdr, hlfh, hdata⟩ := header_weave hb h hp hk
  generalize weave b A.entriesEnd 0 ps = file at hrec hend hhdr hlfh hdata ⊢
  have hstop : A.dataLen p.e p.dataOff = p.stop - p.dataOff := by
    have := hpl.stop
    omega
  have hsub {i j : Nat} (hj : j ≤ p.hdr.length) :
      slice file (p.newOff + i) (p.newOff + j) = slice p.hdr i j := by
    rw [← hhdr, slice_slice_of_le _ (by omega)]
  have hbsub {i j : Nat} (hj : p.e.lfhOff + j ≤ dataOffset b p.e.lfhOff) :
      slice b (p.e.lfhOff + i) (p.e.lfhOff + j)
        = slice (slice b p.e.lfhOff (dataOffset b p.e.lfhOff)) i j := by
    rw [slice_slice_of_le _ hj]
  have h26 : u16le (slice b p.e.lfhOff (dataOffset b p.e.lfhOff)) 26 = u16le b (p.e.lfhOff + 26) :=
    u16le_slice b (by rw [dataOffset]; omega)
  have hbound : p.e.lfhOff + (lfhLen + u16le b (p.e.lfhOff + 26)) ≤ dataOffset b p.e.lfhOff := by
    rw [dataOffset, lensAt]
    omega
  have hname := hnew.name
  have hfixed := hnew.fixed
  have hnl : lfhLen + u16le b (p.e.lfhOff + 26) ≤ p.hdr.length := by
    have h1 := congrArg List.length hname
    rw [length_slice, length_slice, h26, length_slice_of_le _ (show _ ≤ b.length by omega)] at h1
    omega
  rw [h26] at hname
  refine ⟨?_, ?_, ?_, ?_, hlfh, ?_⟩
  · have := @hsub 0 28 (by omega)
    rw [Nat.add_zero] at this
    rw [this, hfixed]
    exact (hbsub (by omega)).symm
  · rw [Nat.add_assoc, Nat.add_assoc, hsub hnl, hname]
    exact (hbsub hbound).symm
  · have := congrArg (List.drop p.hdr.length) hrec
    rw [List.drop_left, ← slice_to_end _ _ (Nat.le_refl _), length_slice_of_le _ hend,
      slice_slice_of_le _ (by omega)] at this
    rw [hdata, ← hdo, hstop, show p.dataOff + (p.stop - p.dataOff) = p.stop by omega, ← this]
    congr 1
    omega
  · rw [hdata, ← hdo, hstop]
    omega
  · intro hst
    have hrule : A.rule p.e ≤ 1 := by
      rw [Archive.rule, requiredAlignment, hst]
      exact Nat.le_refl 1
    rw [hdata, hhdr]
    exact hnew.verbatim hrule

/-! ### The whole rewrite -/

/-- A rewritten archive: the records `rs` of its old directory, where the planner put them, and
what was built from that. -/
structure Rebuilt (A : Archive) (b : Bytes) (rw_ : Rewritten) (file : Bytes) (rs : List Bytes)
    (ps : List Placed) : Prop where
  wf : ∀ r ∈ rs, WfRecord r
  cd : A.cd = rs.flatten
  entries : A.entries = entriesFrom 0 rs
  policies : A.policies = rs.map recordPolicy
  layout : Placements A b ps
  woven : file = weave b A.entriesEnd 0 ps
  newCd : rw_.cd = (movedRecords rs (offOf ps)).flatten
  count : rw_.entries = (rs.filter isOutput).length
  stop : rw_.entriesEnd = file.length

theorem exists_records {cd : Bytes} {es : List CdEntry} {policies : List EntryPolicy}
    (h : classify cd = .ok (es, policies)) :
    ∃ rs : List Bytes, (∀ r ∈ rs, WfRecord r) ∧ cd = rs.flatten ∧ es = entriesFrom 0 rs ∧
      policies = rs.map recordPolicy := by
  have hparse : ∃ es, parseCdEntries cd = .ok es := by
    rw [classify, bind_eq_ok] at h
    obtain ⟨es, hes, -⟩ := h
    exact ⟨es, hes⟩
  obtain ⟨es', hes⟩ := hparse
  obtain ⟨rs, hwf, rfl, -⟩ := parseCdEntries_eq_ok_iff.mp hes
  rw [classify_flatten hwf, Except.ok.injEq, Prod.mk.injEq] at h
  exact ⟨rs, hwf, rfl, h.1.symm, h.2.symm⟩

/-- **What is known of a rewritten archive.** -/
theorem exists_rebuilt {A : Archive} {b : Bytes} {R : Crypto} {alg : Algorithm}
    (hin : A.input.Honest b) (hb : A.entriesEnd ≤ b.length)
    (hcl : classify A.cd = .ok (A.entries, A.policies)) {rw_ : Rewritten} {file : Bytes}
    (h : rewriteSpec R alg b A = .ok (rw_, file)) : ∃ rs ps, Rebuilt A b rw_ file rs ps := by
  obtain ⟨rs, hwf, hcd, hentries, hpol⟩ := exists_records hcl
  rw [rewriteSpec, bind_eq_ok] at h
  obtain ⟨⟨plans, dropped⟩, hplan, h⟩ := h
  obtain ⟨ps, hps, rfl⟩ := placements hin hb hplan
  have hcdnew := newCd_flatten hps hcd hentries hpol
  have hout : output b (plansFor A.entriesEnd 0 0 ps) = weave b A.entriesEnd 0 ps :=
    output_plansFor ps 0 0 fun q hq => (hps.ok q hq).le.2
  simp only [hcdnew, Except.ok.injEq, Prod.mk.injEq] at h
  obtain ⟨rfl, rfl⟩ := h
  exact ⟨rs, ps, hwf, hcd, hentries, hpol, hps, hout, rfl, rfl, rfl⟩

section Entries

variable {off : Nat → Nat}

def keptRecords (rs : List Bytes) : List (Bytes × Nat) := rs.zipIdx.filter fun x => isOutput x.1

theorem map_fst_keptRecords (rs : List Bytes) :
    (keptRecords rs).map Prod.fst = rs.filter isOutput := by
  rw [keptRecords, show (fun x : Bytes × Nat => isOutput x.1) = isOutput ∘ Prod.fst from rfl,
    ← List.filter_map, List.zipIdx_map_fst]

theorem keptRecords_ne {rs : List Bytes} {i j : Nat} (hij : i < j) {x y : Bytes × Nat}
    (hx : (keptRecords rs)[i]? = some x) (hy : (keptRecords rs)[j]? = some y) : x.2 ≠ y.2 := by
  have hpair : (keptRecords rs).Pairwise fun x y => x.2 ≠ y.2 := by
    refine List.Pairwise.sublist List.filter_sublist ?_
    rw [← List.pairwise_map (f := Prod.snd), List.zipIdx_map_snd]
    exact List.nodup_range'
  obtain ⟨hi, rfl⟩ := List.getElem?_eq_some_iff.mp hx
  obtain ⟨hj, rfl⟩ := List.getElem?_eq_some_iff.mp hy
  exact List.pairwise_iff_getElem.mp hpair i j hi hj hij

theorem forall₂_setLfhOff :
    ∀ (K : List (Bytes × Nat)) (p : Nat), (∀ x ∈ K, WfRecord x.1 ∧ off x.2 < 2 ^ 32) →
      List.Forall₂ (fun e e' => ∃ x ∈ K, (∃ q, e = entryOf q x.1) ∧
          e' = { e with lfhOff := off x.2 })
        (entriesFrom p (K.map Prod.fst))
        (entriesFrom p (K.map fun x => setLfhOff x.1 (off x.2))) := by
  intro K
  induction K with
  | nil =>
    intro p _
    exact List.Forall₂.nil
  | cons x K ih =>
    intro p hK
    obtain ⟨hwf, hlt⟩ := hK x (by simp)
    rw [List.map_cons, List.map_cons, entriesFrom, entriesFrom, length_setLfhOff hwf,
      entryOf_setLfhOff hwf hlt]
    refine List.Forall₂.cons ⟨x, by simp, ⟨p, rfl⟩, rfl⟩ ?_
    refine (ih _ fun y hy => hK y (by simp [hy])).imp ?_
    rintro e e' ⟨y, hy, h⟩
    exact ⟨y, by simp [hy], h⟩

theorem zipWith_setLfhOff :
    ∀ (K : List (Bytes × Nat)) (pre : Bytes) (p : Nat),
      (∀ x ∈ K, WfRecord x.1 ∧ off x.2 < 2 ^ 32) →
      List.zipWith (fun e e' => setLfhOff
          (slice (pre ++ (K.map Prod.fst).flatten) e.record.start e.record.stop) e'.lfhOff)
        (entriesFrom pre.length (K.map Prod.fst))
        (entriesFrom p (K.map fun x => setLfhOff x.1 (off x.2)))
        = K.map fun x => setLfhOff x.1 (off x.2) := by
  intro K
  induction K with
  | nil => intro pre p _; rfl
  | cons x K ih =>
    intro pre p hK
    obtain ⟨hwf, hlt⟩ := hK x (by simp)
    have hrec : slice (pre ++ (x.1 ++ (K.map Prod.fst).flatten)) pre.length
        (pre.length + x.1.length) = x.1 := by
      rw [slice_append_length, List.take_left]
    have htail := ih (pre ++ x.1) (p + (setLfhOff x.1 (off x.2)).length)
      fun y hy => hK y (by simp [hy])
    rw [List.length_append, List.append_assoc] at htail
    simp only [List.map_cons, entriesFrom, List.flatten_cons, List.zipWith_cons_cons, htail]
    rw [entryOf_setLfhOff hwf hlt]
    simp only [entryOf, hrec]

end Entries

section Rebuilt

variable {A : Archive} {b file : Bytes} {rw_ : Rewritten} {rs : List Bytes} {ps : List Placed}

theorem Rebuilt.wf_kept (h : Rebuilt A b rw_ file rs ps) {x : Bytes × Nat}
    (hx : x ∈ keptRecords rs) : WfRecord x.1 := by
  have hmem := List.mem_zipIdx_iff_getElem?.mp (List.mem_of_mem_filter hx)
  exact h.wf x.1 (List.mem_of_getElem? hmem)

theorem Rebuilt.exists_placed (h : Rebuilt A b rw_ file rs ps) {x : Bytes × Nat}
    (hx : x ∈ keptRecords rs) :
    ∃ p ∈ ps, p.keep = true ∧ p.i = x.2 ∧ p.newOff = offOf ps x.2 ∧ ∃ q, p.e = entryOf q x.1 ∧
      p.e.nameIn A.cd = recordName x.1 := by
  rw [keptRecords, List.mem_filter] at hx
  have hget := List.mem_zipIdx_iff_getElem?.mp hx.1
  obtain ⟨q, hq⟩ : ∃ q, A.entries[x.2]? = some (entryOf q x.1) := by
    rw [h.entries]
    exact getElem?_entriesFrom rs 0 hget
  have hpolicy : A.policy x.2 = .output := by
    rw [Archive.policy, h.policies, List.getD_eq_getElem?_getD, List.getElem?_map, hget]
    exact eq_of_beq hx.2
  obtain ⟨p, hp, hpe, hpi⟩ := h.layout.exists_placed (List.mem_zipIdx_iff_getElem?.mpr hq)
    (by rw [hpolicy]; decide)
  have hk : p.keep = true := by
    rw [(h.layout.ok p hp).kept, hpi, hpolicy]
    decide
  have hoff := offOf_eq h.layout.nodup hp hk
  rw [hpi] at hoff
  have hname : (entryOf q x.1).nameIn A.cd = recordName x.1 := by
    rw [h.entries] at hq
    rw [h.cd]
    exact nameIn_entriesFrom h.wf hq hget
  exact ⟨p, hp, hk, hpi, hoff.symm, q, hpe, hpe ▸ hname⟩

theorem Moved.entryOf {p q off : Nat} {r : Bytes} (h : Moved A b file (entryOf p r) off) :
    Moved A b file (Zip.entryOf q r) off :=
  ⟨h.fixed, h.name, h.data, h.fits, h.lfh, h.verbatim⟩

def MovedEntry (A : Archive) (b file : Bytes) (ps : List Placed) (e e' : CdEntry) : Prop :=
  e' = { e with lfhOff := e'.lfhOff } ∧ Moved A b file e e'.lfhOff ∧
    ∃ p ∈ ps, p.keep = true ∧ p.newOff = e'.lfhOff ∧ p.e.lfhOff = e.lfhOff

/-- **The new directory is the filtered one with the offsets of the moved records.** -/
theorem Rebuilt.directory (h : Rebuilt A b rw_ file rs ps) (hb : A.entriesEnd ≤ b.length)
    (hsmall : file.length < 2 ^ 32) :
    ∃ es', parseCdEntries rw_.cd = .ok es' ∧
      List.Forall₂ (MovedEntry A b file ps) (entriesFrom 0 (rs.filter isOutput)) es' ∧
      rw_.cd = (List.zipWith (fun e e' => setLfhOff
        (slice (rs.filter isOutput).flatten e.record.start e.record.stop) e'.lfhOff)
        (entriesFrom 0 (rs.filter isOutput)) es').flatten := by
  have hmoved : movedRecords rs (offOf ps)
      = (keptRecords rs).map fun x => setLfhOff x.1 (offOf ps x.2) := rfl
  have hK : ∀ x ∈ keptRecords rs, WfRecord x.1 ∧ offOf ps x.2 < 2 ^ 32 := by
    intro x hx
    obtain ⟨p, hp, hk, -, hoff, -⟩ := h.exists_placed hx
    have hend := outEnd_le_weave hb h.layout hp hk
    rw [← h.woven] at hend
    exact ⟨h.wf_kept hx, by omega⟩
  refine ⟨entriesFrom 0 (movedRecords rs (offOf ps)), ?_, ?_, ?_⟩
  · refine parseCdEntries_eq_ok_iff.mpr ⟨_, ?_, h.newCd, rfl⟩
    intro r hr
    rw [hmoved] at hr
    obtain ⟨x, hx, rfl⟩ := List.mem_map.mp hr
    exact wfRecord_setLfhOff (hK x hx).1 _
  · rw [← map_fst_keptRecords, hmoved]
    refine (forall₂_setLfhOff (keptRecords rs) 0 hK).imp ?_
    rintro e e' ⟨x, hx, ⟨q, rfl⟩, rfl⟩
    obtain ⟨p, hp, hk, -, hoff, q', hpe, -⟩ := h.exists_placed hx
    have hmv := moved_of_placed hb h.layout hp hk
    rw [hpe, ← h.woven, hoff] at hmv
    exact ⟨rfl, hmv.entryOf, p, hp, hk, hoff, by rw [hpe]; rfl⟩
  · have hzip := zipWith_setLfhOff (keptRecords rs) [] 0 hK
    rw [List.nil_append, List.length_nil, map_fst_keptRecords, ← hmoved] at hzip
    rw [hzip, h.newCd]

end Rebuilt

/-- **A rewrite loses nothing.**  The new directory is the filtered one with other header offsets;
every kept entry is found at its new offset, with its header, data and data descriptor; and the
section is made of these records, in file order, and of the bytes between the processed ones. -/
theorem rewrite_preserves (R : Crypto) (alg : Algorithm) {A : Archive} {b : Bytes}
    (hin : A.input.Honest b) (hb : A.entriesEnd ≤ b.length)
    (hcl : classify A.cd = .ok (A.entries, A.policies)) {threads : Nat} {env : RewriteEnv}
    {out : Bytes} {rw_ : Rewritten} (h : (rewrite R alg b A threads env out).result = .ok rw_)
    (hsmall : rw_.entriesEnd < 2 ^ 32) :
    ∃ F es' ps, filterCd A.cd = .ok F ∧ parseCdEntries (F.bytes.deref A.cd) = .ok F.kept ∧
      parseCdEntries rw_.cd = .ok es' ∧
      rw_.cd = (List.zipWith (fun e e' => setLfhOff
        (slice (F.bytes.deref A.cd) e.record.start e.record.stop) e'.lfhOff) F.kept es').flatten ∧
      List.Forall₂ (MovedEntry A b (rewrite R alg b A threads env out).file ps) F.kept es' ∧
      Placements A b ps ∧
      (rewrite R alg b A threads env out).file = weave b A.entriesEnd 0 ps := by
  have hspec := rewrite_refines hin hb h
  generalize (rewrite R alg b A threads env out).file = file at hspec ⊢
  obtain ⟨rs, ps, hre⟩ := exists_rebuilt hin hb hcl hspec
  rw [hre.stop] at hsmall
  obtain ⟨es', hparse, hmoved, hcd⟩ := hre.directory hb hsmall
  obtain ⟨F, hF, hbytes, hkept, -⟩ := filterCd_flatten hre.wf
  rw [← hre.cd] at hF hbytes
  refine ⟨F, es', ps, hF, ?_, hparse, ?_, ?_, hre.layout, hre.woven⟩
  · rw [hbytes, hkept]
    exact parseCdEntries_eq_ok_iff.mpr
      ⟨_, fun r hr => hre.wf r (List.mem_of_mem_filter hr), rfl, rfl⟩
  · rw [hbytes, hkept]
    exact hcd
  · rw [hkept]
    exact hmoved

set_option maxRecDepth 8000 in
theorem classify_mixedArchive :
    classify mixedArchive.cd = .ok (mixedArchive.entries, mixedArchive.policies) := by decide

theorem rewrite_preserves_mixed : ∃ run, run = rewrite sha256Crypto .sha256 mixedFile mixedArchive 4
      ⟨fun k => (k, Faults.none), none⟩ [] ∧
    ∃ rw_ F es' ps, run.result = .ok rw_ ∧ filterCd mixedArchive.cd = .ok F ∧
      parseCdEntries rw_.cd = .ok es' ∧
      List.Forall₂ (MovedEntry mixedArchive mixedFile run.file ps) F.kept es' := by
  refine ⟨_, rfl, ?_⟩
  generalize sha256Crypto = R
  obtain ⟨rw_, hok, -, -, hend⟩ := rewrite_mixedArchive R .sha256 4
  obtain ⟨F, es', ps, hF, -, hes, -, hmoved, -⟩ :=
    rewrite_preserves R .sha256 (ReadAt.honest_ofBytes mixedFile) room_mixedArchive
      classify_mixedArchive hok (by rw [hend]; decide)
  exact ⟨rw_, F, es', ps, hok, hF, hes, hmoved⟩

end FastSigner.Align

import FastSigner.Align.Landing
import Mathlib.Data.List.Flatten

/-!
# Which archives can be rewritten

A sound archive has a local header for every entry, and records that lie apart
and inside the entries section.  `planLoop_complete` walks the planner over such
an archive: none of its checks fails, save one that depends on where the headers
land.  The extra field of a stored entry must not exceed 64 KiB, and with a page of
64 KiB the padding alone can be that long.
-/

namespace FastSigner.Align

open Lib Zip Digest

/-- An archive whose records are intact. -/
structure Sound (A : Archive) (b : Bytes) : Prop where
  input : A.input = ReadAt.ofBytes b
  room : A.entriesEnd ≤ b.length
  headers : ∀ e ∈ A.entries, HasLfh b e.lfhOff
  distinct : (A.entries.map CdEntry.lfhOff).Nodup
  inside : ∀ e ∈ A.entries, A.recordStop b e ≤ A.entriesEnd
  disjoint : A.entries.Pairwise fun e e' =>
    A.recordStop b e ≤ e'.lfhOff ∨ A.recordStop b e' ≤ e.lfhOff
  extras : ∀ e ∈ A.entries, e.isStored = true →
    (localExtra b e.lfhOff).length ≤ 1024 ∧ declaredAlignment (localExtra b e.lfhOff) = none

section Header

theorem length_keptFields_le (extra : Bytes) : (keptFields extra).length ≤ extra.length := by
  obtain ⟨rest, hrest, -⟩ := extraFieldsLoop_maximal extra.length extra (Nat.le_refl _)
  have hsub : ((extraFields extra).filter keepField).flatten.Sublist (extraFields extra).flatten :=
    List.Sublist.flatten List.filter_sublist
  have hle := hsub.length_le
  have hlen := congrArg List.length hrest
  rw [List.length_append] at hlen
  rw [keptFields]
  rw [extraFields] at hle ⊢
  omega

theorem one_lt_requiredAlignment {cd : Bytes} {e : CdEntry} {page : Nat}
    (h : 1 < requiredAlignment cd e page) :
    e.isStored = true ∧ (requiredAlignment cd e page = 4 ∨ requiredAlignment cd e page = page) := by
  rw [requiredAlignment] at h ⊢
  split at h
  · omega
  · rename_i hst
    rw [if_neg hst]
    refine ⟨by simp_all, ?_⟩
    split
    · exact Or.inr rfl
    · exact Or.inl rfl

theorem libPageSize_cases {kib page : Nat} (h : libPageSize kib = some page) :
    page ≤ 32768 ∨ page = 65536 := by
  rw [libPageSize] at h
  split at h
  · cases h
  · rename_i hkib
    have hle : kib ≤ 64 := by omega
    obtain rfl := Option.some.inj h
    rw [Nat.shiftLeft_eq]
    by_cases h64 : kib = 64
    · exact Or.inr (by rw [h64])
    · by_cases h32 : kib ≤ 32
      · exact Or.inl (by omega)
      · -- between 33 and 63 there is no power of two
        exfalso
        have hpow : kib = 2 ^ kib.log2 := by
          by_contra hne
          exact hkib (Or.inl ⟨by omega, hne⟩)
        have hlow : 5 < kib.log2 := by
          by_contra hle5
          have := Nat.pow_le_pow_right (show 0 < 2 by decide) (show kib.log2 ≤ 5 by omega)
          omega
        have := Nat.pow_le_pow_right (show 0 < 2 by decide) (show 6 ≤ kib.log2 by omega)
        omega

end Header

section Planner

variable {A : Archive} {b : Bytes}

theorem Sound.page_of_long (hs : Sound A b) {kib : Nat} (hpage : libPageSize kib = some A.libPageSize)
    {e : CdEntry} (he : e ∈ A.entries) {off : Nat} (hlong : 0xffff < (A.newExtra b e off).length) :
    A.libPageSize = 65536 ∧ A.rule e = 65536 := by
  have hinside := hs.inside e he
  have hroom := hs.room
  rw [Archive.recordStop] at hinside
  have hold : (localExtra b e.lfhOff).length < 2 ^ 16 := by
    have hdef : dataOffset b e.lfhOff
      = e.lfhOff + (lfhLen + (lensAt b e.lfhOff).1 + (lensAt b e.lfhOff).2) := rfl
    have hlt : (lensAt b e.lfhOff).2 < 2 ^ 16 := u16le_lt _ _
    rw [localExtra, length_slice_of_le _ (by omega)]
    omega
  rw [Archive.newExtra] at hlong
  by_cases hrule : 1 < A.rule e
  · rw [if_pos hrule] at hlong
    obtain ⟨hstored, hcases⟩ := one_lt_requiredAlignment hrule
    obtain ⟨hlen, hnone⟩ := hs.extras e he hstored
    have halign : chosenAlign (A.rule e) (localExtra b e.lfhOff) = A.rule e := by
      rw [chosenAlign, hnone]
      exact Nat.max_eq_left (Nat.zero_le _)
    have hkept := length_keptFields_le (localExtra b e.lfhOff)
    have hpad : extraPad (localExtra b e.lfhOff) (off + (lfhLen + (lensAt b e.lfhOff).1)) (A.rule e)
        < A.rule e := Nat.mod_lt _ (by omega)
    rw [halign, length_aligningExtra] at hlong
    -- with less than 64 KiB to fill there is room for the padding
    have hbig : A.rule e = A.libPageSize := by
      rcases hcases with h | h
      · have hfour : A.rule e = 4 := h
        omega
      · exact h
    rcases libPageSize_cases hpage with hsmall | h64
    · omega
    · exact ⟨h64, hbig.trans h64⟩
  · rw [if_neg hrule] at hlong
    omega

/-- Every extra field fits where its header lands, and the planner comes through; or one does not
and is refused. -/
def PlannedOr (A : Archive) (b : Bytes) {α : Type} (landings : List Landing) (r : Except Error α) :
    Prop :=
  ((∀ x ∈ landings, (A.newExtra b x.e x.off).length ≤ 0xffff) ∧ ∃ y, r = .ok y) ∨
    ∃ x ∈ landings, 0xffff < (A.newExtra b x.e x.off).length ∧
      r = .error (.extraTooLong (x.e.nameIn A.cd))

theorem PlannedOr.map {α β : Type} {landings : List Landing} {r : Except Error α}
    (h : PlannedOr A b landings r) (g : α → β) :
    PlannedOr A b landings (r >>= fun a => .ok (g a)) := by
  rcases h with ⟨hfits, a, rfl⟩ | ⟨y, hy, hlong, rfl⟩
  · exact Or.inl ⟨hfits, g a, rfl⟩
  · exact Or.inr ⟨y, hy, hlong, rfl⟩

theorem PlannedOr.cons {α : Type} {x : Landing} {landings : List Landing} {r : Except Error α}
    (h : PlannedOr A b landings r) (hx : (A.newExtra b x.e x.off).length ≤ 0xffff) :
    PlannedOr A b (x :: landings) r := by
  rcases h with ⟨hfits, a, rfl⟩ | ⟨y, hy, hlong, rfl⟩
  · exact Or.inl ⟨List.forall_mem_cons.mpr ⟨hx, hfits⟩, a, rfl⟩
  · exact Or.inr ⟨y, List.mem_cons_of_mem _ hy, hlong, rfl⟩

/-- **Records that lie apart can be planned**, unless an extra field gets too long. -/
theorem planLoop_complete (hs : Sound A b) :
    ∀ (order : List (CdEntry × Nat)) (hdrs : HeaderReader) (cursor consumed : Nat),
      hdrs.Shows b A.entriesEnd → (∀ x ∈ order, x.1 ∈ A.entries) →
      (∀ x ∈ order, consumed ≤ x.1.lfhOff) →
      (order.Pairwise fun x y => A.recordStop b x.1 ≤ y.1.lfhOff) →
      PlannedOr A b (A.landingsFrom b cursor consumed order)
        (planLoop A hdrs cursor consumed order) := by
  intro order
  induction order with
  | nil =>
    intro hdrs cursor consumed _ _ _ _
    exact Or.inl ⟨fun x hx => (by cases hx), _, rfl⟩
  | cons x rest ih =>
    obtain ⟨e, i⟩ := x
    intro hdrs cursor consumed hshow hmem hcons hpair
    rw [List.pairwise_cons] at hpair
    have he := hmem (e, i) (by simp)
    have hce := hcons (e, i) (by simp)
    have hrest : ∀ x ∈ rest, x.1 ∈ A.entries := fun x hx => hmem x (by simp [hx])
    have hstop : A.recordStop b e ≤ A.entriesEnd := hs.inside e he
    have hroom := hs.room
    have hdef : A.recordStop b e
        = dataOffset b e.lfhOff + A.dataLen e (dataOffset b e.lfhOff) := rfl
    have hge : e.lfhOff ≤ dataOffset b e.lfhOff := Nat.le_add_right _ _
    rw [planLoop, Archive.landingsFrom]
    by_cases hgap : A.policy i = .gap
    · rw [if_pos hgap, hgap]
      exact ih hdrs cursor consumed hshow hrest (fun x hx => hcons x (by simp [hx])) hpair.2
    · obtain ⟨hdrs', hpfx, hshow'⟩ := HeaderReader.prefixAt_ofBytes hs.room hshow (hs.headers e he)
        (show dataOffset b e.lfhOff ≤ A.entriesEnd by omega)
      have hlen : e.lfhOff + (slice b e.lfhOff (dataOffset b e.lfhOff)).length
          = dataOffset b e.lfhOff := by
        rw [length_slice_of_le _ (by omega)]
        omega
      have hnext : ∀ cursor', PlannedOr A b (A.landingsFrom b cursor' (A.recordStop b e) rest)
          (planLoop A hdrs' cursor' (A.recordStop b e) rest) :=
        fun cursor' => ih hdrs' cursor' _ hshow' hrest hpair.1 hpair.2
      rw [if_neg hgap, if_neg (show ¬ e.lfhOff < consumed by simpa using hce), hs.input, hpfx, ok_bind]
      simp only [hlen]
      rw [if_neg (by omega), ← hdef]
      cases hpol : A.policy i with
      | gap => exact absurd hpol hgap
      | skip =>
        rw [if_pos rfl]
        exact (hnext _).map _
      | output =>
        rw [if_neg (by decide)]
        rcases @newHeader_cases A b (e.nameIn A.cd) e (cursor + (e.lfhOff - consumed)) (by omega) with
          ⟨hfit, hdr, hhdr, hdata⟩ | ⟨hlong, herr⟩
        · rw [hhdr, ok_bind, ← Nat.add_assoc, hdata]
          exact ((hnext _).map _).cons hfit
        · rw [herr]
          exact Or.inr ⟨⟨e, i, cursor + (e.lfhOff - consumed)⟩, List.mem_cons_self, hlong, rfl⟩

theorem Sound.exists_order (hs : Sound A b) :
    ∃ order, fileOrder A.entries A.entriesEnd = .ok order := by
  refine exists_fileOrder hs.distinct ?_
  intro e he
  have hstop := hs.inside e he
  have h1 : e.lfhOff + lfhLen ≤ dataOffset b e.lfhOff := by
    rw [dataOffset]
    omega
  rw [Archive.recordStop] at hstop
  omega

theorem Sound.pairwise (hs : Sound A b) {order : List (CdEntry × Nat)}
    (horder : fileOrder A.entries A.entriesEnd = .ok order) :
    order.Pairwise fun x y => A.recordStop b x.1 ≤ y.1.lfhOff := by
  obtain ⟨hperm, ho, -⟩ := fileOrder_eq_ok_iff.mp horder
  have hstop : ∀ e : CdEntry, e.lfhOff ≤ A.recordStop b e := by
    intro e
    rw [Archive.recordStop, dataOffset]
    omega
  have hapart : A.entries.zipIdx.Pairwise fun x y =>
      A.recordStop b x.1 ≤ y.1.lfhOff ∨ A.recordStop b y.1 ≤ x.1.lfhOff := by
    have h := hs.disjoint
    rw [← List.zipIdx_map_fst 0 A.entries, List.pairwise_map] at h
    exact h
  have hsym := (hperm.pairwise_iff (fun {x y} h => h.symm)).mpr hapart
  refine (hsym.and ho).imp ?_
  rintro x y ⟨h | h, hlt⟩
  · exact h
  · have := hstop y.1
    omega

/-- **A sound archive can be rewritten** if every extra field fits where its header lands.  With a
page of 64 KiB one may not fit, and then an entry for which this is so is refused. -/
theorem rewrite_complete (R : Crypto) (alg : Algorithm) (hs : Sound A b) {kib : Nat}
    (hpage : libPageSize kib = some A.libPageSize) (threads : Nat) {env : RewriteEnv}
    (henv : env.Calm) (out : Bytes) :
    ((∀ x ∈ A.landings b, (A.newExtra b x.e x.off).length ≤ 0xffff) ∧
      ∃ rw_, (rewrite R alg b A threads env out).result = .ok rw_) ∨
    (A.libPageSize = 65536 ∧ ∃ x ∈ A.landings b, (x.e, x.i) ∈ A.entries.zipIdx ∧
      A.policy x.i = .output ∧ A.rule x.e = 65536 ∧ 0xffff < (A.newExtra b x.e x.off).length ∧
      (rewrite R alg b A threads env out).result = .error (.extraTooLong (x.e.nameIn A.cd))) := by
  obtain ⟨order, horder⟩ := hs.exists_order
  obtain ⟨hperm, -, -⟩ := fileOrder_eq_ok_iff.mp horder
  have hmem : ∀ x ∈ order, x.1 ∈ A.entries := fun x hx =>
    List.mem_of_getElem? (List.mem_zipIdx_iff_getElem?.mp (hperm.mem_iff.mp hx))
  have hin : A.input.Honest b := hs.input ▸ ReadAt.honest_ofBytes b
  have hlandings : A.landings b = A.landingsFrom b 0 0 order := by
    rw [Archive.landings, horder]
    rfl
  have hplan := planLoop_complete hs order HeaderReader.new 0 0
    (HeaderReader.shows_new _ _) hmem (fun _ _ => Nat.zero_le _) (hs.pairwise horder)
  rw [← hlandings] at hplan
  rcases hplan with ⟨hfits, plans, hplans⟩ | ⟨x, hx, hlong, herr⟩
  · refine Or.inl ⟨hfits, ?_⟩
    rw [rewrite_eq_of_log hin hs.room (rewrite_log_of_calm henv out), rewriteSpec, planAll, horder,
      ok_bind, hplans]
    exact ⟨_, rfl⟩
  · obtain ⟨hzip, hout⟩ := mem_landings hx
    obtain ⟨h64, hrule⟩ := hs.page_of_long hpage
      (List.mem_of_getElem? (List.mem_zipIdx_iff_getElem?.mp hzip)) hlong
    refine Or.inr ⟨h64, x, hx, hzip, hout, hrule, hlong, ?_⟩
    rw [rewrite, planAll, horder, ok_bind, herr]
    rfl

end Planner

set_option maxRecDepth 8000 in
theorem sound_mixedArchive : Sound mixedArchive mixedFile :=
  ⟨rfl, room_mixedArchive, by decide, by decide, by decide, by decide, by decide⟩

theorem rewrite_complete_mixed : Sound mixedArchive mixedFile ∧ ∃ rw_,
    (rewrite sha256Crypto .sha256 mixedFile mixedArchive 4
      ⟨fun k => (k, Faults.none), none⟩ []).result = .ok rw_ := by
  refine ⟨sound_mixedArchive, ?_⟩
  generalize sha256Crypto = R
  rcases rewrite_complete R .sha256 sound_mixedArchive (show libPageSize 16 = some 16384 by decide) 4
    (show RewriteEnv.Calm ⟨fun k => (k, Faults.none), none⟩ from ⟨fun _ => rfl, rfl⟩) [] with h | h
  · exact h.2
  · exact absurd h.1 (by decide)

/-- A local header of an empty file `a.so` whose data would start one byte past a 64 KiB boundary,
once the alignment field is there. -/
def farHeader : Bytes := lfhSig ++ List.replicate 22 0 ++ [4, 0, 0, 0] ++ ascii "a.so"

def farFile : Bytes := List.replicate 65497 0 ++ farHeader

def farCd : Bytes :=
  cdEntrySig ++ List.replicate 24 0 ++ [4, 0] ++ List.replicate 12 0 ++ leBytes 4 65497
    ++ ascii "a.so"

def farArchive : Archive where
  input := ReadAt.ofBytes farFile
  cd := farCd
  entries := [entryOf 0 farCd]
  policies := [.output]
  entriesEnd := 65531
  libPageSize := 65536

theorem slice_farFile (i j : Nat) :
    slice farFile (65497 + i) (65497 + j) = slice farHeader i j := by
  have hlen : (List.replicate 65497 (0 : UInt8)).length = 65497 := List.length_replicate
  rw [farFile, slice_append_right _ _ (by rw [hlen]; exact Nat.le_add_right _ _), hlen,
    Nat.add_sub_cancel_left, Nat.add_sub_cancel_left]

theorem length_farFile : farFile.length = 65531 := by
  rw [farFile, List.length_append, List.length_replicate]
  rfl

theorem dataOffset_farFile : dataOffset farFile 65497 = 65531 := by
  have h26 : u16le farFile (65497 + 26) = 4 := by
    rw [u16le, Nat.add_assoc, slice_farFile]
    decide
  have h28 : u16le farFile (65497 + 28) = 0 := by
    rw [u16le, Nat.add_assoc, slice_farFile]
    decide
  rw [dataOffset, lensAt, h26, h28]
  rfl

theorem localExtra_farFile : localExtra farFile 65497 = [] := by
  rw [localExtra, dataOffset_farFile]
  have h26 : (lensAt farFile 65497).1 = 4 := by
    rw [lensAt, u16le, Nat.add_assoc, slice_farFile]
    decide
  rw [h26]
  exact slice_of_le _ (by decide)

theorem sound_farArchive : Sound farArchive farFile := by
  have hoff : (entryOf 0 farCd).lfhOff = 65497 := by decide
  have hmem : ∀ e ∈ farArchive.entries, e = entryOf 0 farCd := fun e he => List.mem_singleton.mp he
  refine ⟨rfl, Nat.le_of_eq length_farFile.symm, ?_, List.nodup_singleton _, ?_,
    List.pairwise_singleton _ _, ?_⟩
  · intro e he
    rw [hmem e he, hoff, HasLfh]
    exact slice_farFile 0 4
  · intro e he
    rw [hmem e he, Archive.recordStop, hoff, dataOffset_farFile]
    decide
  · intro e he _
    rw [hmem e he, hoff, localExtra_farFile]
    decide

theorem newHeader_farFile (hdr : Bytes) :
    newHeader (ascii "a.so") 65536 65497 (slice farFile 65497 (dataOffset farFile 65497))
      ≠ .ok hdr := by
  have hextra := drop_header (b := farFile) 65497
    (by rw [dataOffset_farFile, length_farFile])
  have h26 : u16le (slice farFile 65497 (dataOffset farFile 65497)) 26 = 4 := by
    rw [dataOffset_farFile, u16le_slice _ (by decide), u16le, Nat.add_assoc, slice_farFile]
    decide
  have hlen : (aligningExtra [] (65497 + (lfhLen + 4)) (chosenAlign 65536 [])).length = 65541 := by
    rw [length_aligningExtra]
    decide
  rw [h26, localExtra_farFile] at hextra
  rw [newHeader]
  simp only [h26, hextra, if_pos (show 1 < 65536 by decide), hlen]
  intro h
  cases h

theorem rewrite_farArchive : Sound farArchive farFile ∧
    libPageSize 64 = some farArchive.libPageSize ∧
    ∀ (R : Crypto) (alg : Algorithm) (threads : Nat) (env : RewriteEnv) (out : Bytes),
      ¬ ∃ rw_, (rewrite R alg farFile farArchive threads env out).result = .ok rw_ := by
  refine ⟨sound_farArchive, by decide, ?_⟩
  rintro R alg threads env out ⟨rw_, h⟩
  have hin : farArchive.input.Honest farFile := ReadAt.honest_ofBytes farFile
  have hroom := sound_farArchive.room
  have hspec := rewrite_refines hin hroom h
  rw [rewriteSpec, bind_eq_ok] at hspec
  obtain ⟨⟨plans, dropped⟩, hplan, -⟩ := hspec
  obtain ⟨ps, hps, -⟩ := placements hin hroom hplan
  -- the one record of the archive is placed behind the gap
  obtain ⟨order, horder, hentry⟩ := hps.order
  have hfile : fileOrder farArchive.entries farArchive.entriesEnd = .ok [(entryOf 0 farCd, 0)] := by
    rfl
  rw [hfile, Except.ok.injEq] at horder
  rw [← horder, show farArchive.processed [(entryOf 0 farCd, 0)] = [(entryOf 0 farCd, 0)] from rfl,
    List.map_eq_singleton_iff] at hentry
  obtain ⟨p, rfl, hp⟩ := hentry
  obtain ⟨hpe, hpi⟩ := Prod.mk.inj hp
  have hok := hps.ok p (List.mem_singleton.mpr rfl)
  have hoff : p.e.lfhOff = 65497 := by
    rw [hpe]
    decide
  have hnew : p.newOff = 65497 := by
    rw [hps.laid.2.1, hoff]
  have hkeep : p.keep = true := by
    rw [hok.kept, hpi]
    decide
  have hhdr := hok.hdr hkeep
  rw [hok.dataOff, hoff, hnew, hpe, show (entryOf 0 farCd).nameIn farArchive.cd = ascii "a.so" by decide,
    show farArchive.rule (entryOf 0 farCd) = 65536 by decide] at hhdr
  exact newHeader_farFile _ hhdr

end FastSigner.Align

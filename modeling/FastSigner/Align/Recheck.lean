import FastSigner.Align.Complete
import FastSigner.Align.Preserve

/-!
# Checking a rewritten archive

The rewrite aligns a stored entry to the larger of zipalign's rule and the
alignment that its old extra field declares.  The check afterwards asks for the
rule alone.  If the declared alignment is larger and no multiple of the rule, the
entry ends up where the check does not want it: with a declared alignment of six,
the data of `a` moves from 37 to 42, which is no multiple of four.

* `check_rewritten`: as long as the header offsets fit in the directory's 32 bits,
  the rewritten section passes the check if and only if every kept entry is agreed
  with or happens to be aligned where it lands.
* `newHeader_aligned_iff`: an entry whose declared alignment does not fit is
  misaligned at some offset.
-/

namespace FastSigner.Align

open Lib Zip Digest

/-- The alignment check of a section and its directory; the header lengths are read from the
section. -/
def checkSection (file cd : Bytes) (entriesEnd libPageSize : Nat) :
    Except Error (List Misaligned) := do
  let entries ← parseCdEntries cd
  let lens ← entries.mapM fun e => readLfhLens (ReadAt.ofBytes file) e.lfhOff
  check cd entries lens entriesEnd libPageSize

/-- The alignment that the extra field declares is one that the rule agrees with. -/
def Compatible (rule : Nat) (extra : Bytes) : Prop :=
  ∀ d, declaredAlignment extra = some d → d ≤ rule ∨ rule ∣ d

/-! ### One header -/

theorem dvd_chosenAlign_iff (rule : Nat) (extra : Bytes) :
    rule ∣ chosenAlign rule extra ↔ Compatible rule extra := by
  rw [chosenAlign, Compatible]
  cases declaredAlignment extra with
  | none => simp
  | some d =>
    simp only [Option.getD_some, Option.some.injEq, forall_eq']
    by_cases hle : d ≤ rule
    · simp [hle]
    · rw [Nat.max_eq_right (by omega)]
      simp [hle]

/-- **An entry that agrees with the rule is aligned wherever it lands**, and only such an entry
is. -/
theorem newHeader_aligned_iff (name : Bytes) {rule : Nat} (hrule : 1 < rule) {pfx : Bytes}
    (hw : WfLfh pfx)
    (hfit : (keptFields (pfx.drop (lfhLen + u16le pfx 26))).length + 6 ≤ 0xffff) :
    (∀ cursor hdr, newHeader name rule cursor pfx = .ok hdr → (cursor + hdr.length) % rule = 0) ↔
      Compatible rule (pfx.drop (lfhLen + u16le pfx 26)) := by
  rw [← dvd_chosenAlign_iff]
  constructor
  · intro h
    generalize hnl : lfhLen + u16le pfx 26 = n at hfit
    generalize hold : pfx.drop n = old at hfit
    generalize hal : chosenAlign rule old = align
    have hpos : 0 < align := by
      rw [← hal, chosenAlign]
      omega
    -- a multiple of the alignment that is congruent to it modulo the rule, and large enough
    have hbig : n + (keptFields old).length + 6
        ≤ (1 + rule * (n + (keptFields old).length + 6)) * align := by
      calc n + (keptFields old).length + 6
          ≤ rule * (n + (keptFields old).length + 6) := Nat.le_mul_of_pos_left _ (by omega)
        _ ≤ 1 + rule * (n + (keptFields old).length + 6) := Nat.le_add_left _ _
        _ ≤ (1 + rule * (n + (keptFields old).length + 6)) * align :=
          Nat.le_mul_of_pos_right _ hpos
    generalize hmul : (1 + rule * (n + (keptFields old).length + 6)) * align = stop at hbig
    have hpad : extraPad old (stop - (n + (keptFields old).length + 6) + n) align = 0 := by
      rw [extraPad, show stop - (n + (keptFields old).length + 6) + n + (keptFields old).length + 6
        = stop by omega, ← hmul, Nat.mul_mod_left, Nat.sub_zero, Nat.mod_self]
    have hlen := length_aligningExtra old (stop - (n + (keptFields old).length + 6) + n) align
    rw [hpad, Nat.add_zero] at hlen
    have hok : newHeader name rule (stop - (n + (keptFields old).length + 6)) pfx
        = .ok (patch (pfx.take n) 28 (leBytes 2
            (aligningExtra old (stop - (n + (keptFields old).length + 6) + n) align).length)
          ++ aligningExtra old (stop - (n + (keptFields old).length + 6) + n) align) := by
      rw [newHeader]
      simp only [hnl, hold, hal]
      rw [if_pos hrule, if_neg (by omega)]
    have haligned := h _ _ hok
    have htake : (pfx.take n).length = n := by
      have := hw.len
      rw [List.length_take]
      omega
    have h30 := lfhLen_eq
    rw [List.length_append, length_patch (by rw [length_leBytes]; omega), htake, hlen,
      show stop - (n + (keptFields old).length + 6) + (n + ((keptFields old).length + 6)) = stop by
        omega, ← hmul, Nat.add_mul, Nat.one_mul, Nat.mul_assoc, Nat.add_mul_mod_self_left]
      at haligned
    exact Nat.dvd_of_mod_eq_zero haligned
  · intro hdvd cursor hdr hhdr
    have := (newHeader_spec hw hhdr).aligned hrule
    exact Nat.mod_eq_zero_of_dvd (Nat.dvd_trans hdvd (Nat.dvd_of_mod_eq_zero this))

/-! ### The new directory -/

def movedEntries (rs : List Bytes) (ps : List Placed) : List CdEntry :=
  entriesFrom 0 (movedRecords rs (offOf ps))

section Rebuilt

variable {A : Archive} {b file : Bytes} {rw_ : Rewritten} {rs : List Bytes} {ps : List Placed}

def OffsetsFit (ps : List Placed) : Prop := ∀ p ∈ ps, p.keep = true → p.newOff < 2 ^ 32

theorem Rebuilt.offsetsFit (h : Rebuilt A b rw_ file rs ps) (hb : A.entriesEnd ≤ b.length)
    (hsmall : file.length < 2 ^ 32) : OffsetsFit ps := by
  intro p hp hk
  have hend := outEnd_le_weave hb h.layout hp hk
  rw [← h.woven] at hend
  omega

theorem requiredAlignment_congr {cd cd' : Bytes} {e e' : CdEntry} (page : Nat)
    (hm : e.method = e'.method) (hn : e.nameIn cd = e'.nameIn cd') :
    requiredAlignment cd e page = requiredAlignment cd' e' page := by
  rw [requiredAlignment, requiredAlignment, CdEntry.isStored, CdEntry.isStored, CdEntry.isDir,
    CdEntry.isDir, hm, hn]

theorem Rebuilt.exists_source (h : Rebuilt A b rw_ file rs ps) (hfit : OffsetsFit ps) {i : Nat} {e' : CdEntry}
    (he' : (movedEntries rs ps)[i]? = some e') :
    ∃ x, (keptRecords rs)[i]? = some x ∧ ∃ p ∈ ps, p.keep = true ∧ p.i = x.2 ∧
      e'.lfhOff = p.newOff ∧ requiredAlignment rw_.cd e' A.libPageSize = A.rule p.e := by
  rw [movedEntries] at he'
  have hlen : i < (keptRecords rs).length := by
    have := (List.getElem?_eq_some_iff.mp he').1
    rwa [length_entriesFrom, movedRecords, List.length_map] at this
  have hx := List.getElem?_eq_getElem hlen
  generalize (keptRecords rs)[i] = x at hx
  have hmem := List.mem_of_getElem? hx
  have hwf := h.wf_kept hmem
  have hmoved : (movedRecords rs (offOf ps))[i]? = some (setLfhOff x.1 (offOf ps x.2)) := by
    rw [movedRecords, List.getElem?_map]
    exact congrArg (Option.map _) hx
  have hwfm : ∀ r ∈ movedRecords rs (offOf ps), WfRecord r := by
    intro r hr
    obtain ⟨y, hy, rfl⟩ := List.mem_map.mp hr
    exact wfRecord_setLfhOff (h.wf_kept hy) _
  obtain ⟨p, hp, hk, hpi, hoff, q, hpe, hname⟩ := h.exists_placed hmem
  have hlt := hfit p hp hk
  rw [hoff] at hlt
  obtain ⟨q', hq'⟩ := getElem?_entriesFrom _ 0 hmoved
  obtain rfl := Option.some.inj (he'.symm.trans hq')
  have hname' := nameIn_entriesFrom hwfm he' hmoved
  rw [← h.newCd, recordName_setLfhOff hwf] at hname'
  refine ⟨x, hx, p, hp, hk, hpi, ?_, requiredAlignment_congr _ ?_ (hname'.trans hname.symm)⟩
  · rw [entryOf_setLfhOff hwf (by omega)]
    exact hoff.symm
  · rw [entryOf_setLfhOff hwf (by omega), hpe]
    rfl

theorem mapM_readLfhLens {file : Bytes} {entries : List CdEntry}
    (h : ∀ e ∈ entries, e.lfhOff + lfhLen ≤ file.length ∧ HasLfh file e.lfhOff) :
    entries.mapM (fun e => readLfhLens (ReadAt.ofBytes file) e.lfhOff)
      = .ok (entries.map fun e => lensAt file e.lfhOff) := by
  induction entries with
  | nil => rfl
  | cons e es ih =>
    obtain ⟨hin, hl⟩ := h e (by simp)
    rw [List.mapM_cons, readLfhLens_ofBytes hin, if_pos hl, ok_bind,
      ih fun x hx => h x (by simp [hx])]
    rfl

theorem Rebuilt.header (h : Rebuilt A b rw_ file rs ps) (hb : A.entriesEnd ≤ b.length) {p : Placed}
    (hp : p ∈ ps) (hk : p.keep = true) :
    HasLfh file p.newOff ∧ dataOffset file p.newOff = p.newOff + p.hdr.length ∧
      lfhLen ≤ p.hdr.length ∧ p.newOff + p.outLen ≤ file.length ∧ p.hdr.length ≤ p.outLen := by
  obtain ⟨-, hl, hd⟩ := header_weave hb h.layout hp hk
  have hend := outEnd_le_weave hb h.layout hp hk
  rw [← h.woven] at hl hd hend
  have hlen : p.outLen = p.hdr.length + (p.stop - p.dataOff) := by rw [Placed.outLen, if_pos hk]
  refine ⟨hl, hd, ?_, by omega, by omega⟩
  rw [dataOffset] at hd
  omega

theorem Rebuilt.parse (h : Rebuilt A b rw_ file rs ps) :
    parseCdEntries rw_.cd = .ok (movedEntries rs ps) := by
  refine parseCdEntries_eq_ok_iff.mpr ⟨_, ?_, h.newCd, rfl⟩
  intro r hr
  obtain ⟨y, hy, rfl⟩ := List.mem_map.mp hr
  exact wfRecord_setLfhOff (h.wf_kept hy) _

variable (h : Rebuilt A b rw_ file rs ps) (hb : A.entriesEnd ≤ b.length) (hfit : OffsetsFit ps)

include h hfit

theorem Rebuilt.placed_of_mem {e : CdEntry} (he : e ∈ movedEntries rs ps) :
    ∃ p ∈ ps, p.keep = true ∧ e.lfhOff = p.newOff ∧
      requiredAlignment rw_.cd e A.libPageSize = A.rule p.e := by
  obtain ⟨i, hi⟩ := List.getElem?_of_mem he
  obtain ⟨x, -, p, hp, hk, -, hoff, hreq⟩ := h.exists_source hfit hi
  exact ⟨p, hp, hk, hoff, hreq⟩

theorem Rebuilt.exists_mem {p : Placed} (hp : p ∈ ps) (hk : p.keep = true) :
    ∃ e ∈ movedEntries rs ps, e.lfhOff = p.newOff ∧
      requiredAlignment rw_.cd e A.libPageSize = A.rule p.e := by
  have hout : A.policy p.i = .output := by
    have hkept := (h.layout.ok p hp).kept
    rw [hk] at hkept
    exact of_decide_eq_true hkept.symm
  -- the record of the entry is a kept one
  have hget := List.mem_zipIdx_iff_getElem?.mp (h.layout.mem_zipIdx hp)
  have hlt : p.i < rs.length := by
    have := (List.getElem?_eq_some_iff.mp hget).1
    rwa [h.entries, length_entriesFrom] at this
  have hmem : (rs[p.i], p.i) ∈ keptRecords rs := by
    refine List.mem_filter.mpr ⟨List.mem_zipIdx_iff_getElem?.mpr (List.getElem?_eq_getElem hlt), ?_⟩
    rw [Archive.policy, h.policies, List.getD_eq_getElem?_getD, List.getElem?_map,
      List.getElem?_eq_getElem hlt] at hout
    exact beq_iff_eq.mpr hout
  obtain ⟨k, hkth⟩ := List.getElem?_of_mem hmem
  have hk' : k < (movedEntries rs ps).length := by
    rw [movedEntries, length_entriesFrom, movedRecords, List.length_map]
    exact (List.getElem?_eq_some_iff.mp hkth).1
  obtain ⟨x, hx, q, hq, hkq, hqi, hoff, hreq⟩ :=
    h.exists_source hfit (List.getElem?_eq_getElem hk')
  obtain rfl := Option.some.inj (hkth.symm.trans hx)
  obtain rfl : q = p := by
    have hnodup := h.layout.nodup
    exact List.inj_on_of_nodup_map hnodup hq hp hqi
  exact ⟨_, List.getElem_mem hk', hoff, hreq⟩

include hb

theorem Rebuilt.hasLfh {e : CdEntry} (he : e ∈ movedEntries rs ps) :
    e.lfhOff + lfhLen ≤ file.length ∧ HasLfh file e.lfhOff := by
  obtain ⟨p, hp, hk, hoff, -⟩ := h.placed_of_mem hfit he
  obtain ⟨hl, -, hlong, hend, hle⟩ := h.header hb hp hk
  rw [hoff]
  exact ⟨by omega, hl⟩

theorem Rebuilt.nodup_offsets : ((movedEntries rs ps).map CdEntry.lfhOff).Nodup := by
  rw [List.Nodup, List.pairwise_map, List.pairwise_iff_getElem]
  intro i j hi hj hij heq
  obtain ⟨x, hx, p, hp, hk, hpi, hoff, -⟩ := h.exists_source hfit (List.getElem?_eq_getElem hi)
  obtain ⟨y, hy, q, hq, hkq, hqi, hoffq, -⟩ :=
    h.exists_source hfit (List.getElem?_eq_getElem hj)
  obtain ⟨-, -, hlong, -, hle⟩ := h.header hb hp hk
  obtain ⟨-, -, hlongq, -, hleq⟩ := h.header hb hq hkq
  have h30 : lfhLen = 30 := rfl
  rcases h.layout.apart hp hq with rfl | hpq | hpq
  · -- one record of the old directory is one entry of the new
    exact absurd (hpi.symm.trans hqi) (keptRecords_ne hij hx hy)
  · omega
  · omega

theorem Rebuilt.fits : Fits file file.length (movedEntries rs ps) := by
  intro e he
  obtain ⟨p, hp, hk, hoff, -⟩ := h.placed_of_mem hfit he
  obtain ⟨hl, hd, hlong, hend, hle⟩ := h.header hb hp hk
  rw [hoff, hd]
  refine ⟨by omega, ?_⟩
  intro e' he' hlt
  obtain ⟨q, hq, hkq, hoffq, -⟩ := h.placed_of_mem hfit he'
  rcases h.layout.apart hp hq with rfl | hpq | hpq
  · omega
  · omega
  · omega

omit hfit in
theorem Rebuilt.alignedIn_iff {e : CdEntry} {p : Placed} (hp : p ∈ ps) (hk : p.keep = true)
    (hoff : e.lfhOff = p.newOff) (hreq : requiredAlignment rw_.cd e A.libPageSize = A.rule p.e) :
    AlignedIn file rw_.cd A.libPageSize e ↔
      (1 < A.rule p.e → A.rule p.e ∣ A.newDataOff b p.e p.newOff) := by
  obtain ⟨-, hd, -⟩ := h.header hb hp hk
  rw [AlignedIn, hreq, hoff, hd, (h.layout.ok p hp).length_hdr hb hk, ← Nat.dvd_iff_mod_eq_zero]
  constructor
  · rintro (hle | hdvd) hrule
    · omega
    · exact hdvd
  · intro himp
    by_cases hrule : 1 < A.rule p.e
    · exact Or.inr (himp hrule)
    · exact Or.inl (Nat.le_of_not_lt hrule)

/-- **A rebuilt section passes the check** if and only if the data of every kept entry land on a
multiple of the rule. -/
theorem Rebuilt.checkSection_iff :
    checkSection file rw_.cd rw_.entriesEnd A.libPageSize = .ok [] ↔
      ∀ x ∈ A.landings b, 1 < A.rule x.e → A.rule x.e ∣ A.newDataOff b x.e x.off := by
  have hfile := @Rebuilt.hasLfh A b file rw_ rs ps h hb hfit
  obtain ⟨order, horder⟩ :=
    exists_fileOrder (h.nodup_offsets hb hfit) fun e he => (hfile he).1
  obtain ⟨bad, hbad, hiff⟩ :=
    (@check_spec file rw_.cd _ A.libPageSize _ _ horder).1 (h.fits hb hfit)
  rw [Align.checkSection, h.parse, ok_bind, mapM_readLfhLens fun e he => hfile he, ok_bind, h.stop,
    hbad, Except.ok.injEq, hiff]
  constructor
  · intro hall x hx
    obtain ⟨p, hp, hk, rfl⟩ := h.layout.exists_of_landing hb hx
    obtain ⟨e, he, hoff, hreq⟩ := h.exists_mem hfit hp hk
    exact (h.alignedIn_iff hb hp hk hoff hreq).mp (hall e he)
  · intro hall e he
    obtain ⟨p, hp, hk, hoff, hreq⟩ := h.placed_of_mem hfit he
    exact (h.alignedIn_iff hb hp hk hoff hreq).mpr
      (hall _ (h.layout.landing_of_mem hb hp hk))

end Rebuilt

/-! ### Agreement, or luck -/

/-- The first multiple of `align` from `n` on. -/
def roundUp (align n : Nat) : Nat := (n + align - 1) / align * align

theorem add_pad_eq_roundUp {align n : Nat} (h : 0 < align) :
    n + (align - n % align) % align = roundUp align n := by
  have hdm := Nat.div_add_mod n align
  have hr := Nat.mod_lt n h
  rw [roundUp]
  by_cases hzero : n % align = 0
  · have hquot : (n + align - 1) / align = n / align := by
      rw [Nat.div_eq_of_lt_le]
      · rw [Nat.mul_comm]
        omega
      · rw [Nat.succ_mul, Nat.mul_comm]
        omega
    rw [hzero, Nat.sub_zero, Nat.mod_self, hquot, Nat.mul_comm]
    omega
  · have hquot : (n + align - 1) / align = n / align + 1 := by
      rw [Nat.div_eq_of_lt_le]
      · rw [Nat.succ_mul, Nat.mul_comm]
        omega
      · rw [Nat.succ_mul, Nat.succ_mul, Nat.mul_comm]
        omega
    rw [Nat.mod_eq_of_lt (show align - n % align < align by omega), hquot, Nat.succ_mul, Nat.mul_comm]
    omega

/-- The data of a stored entry come to lie at the first multiple of the chosen alignment behind the
header, the fields that it keeps and the six bytes of the new one. -/
theorem Archive.newDataOff_eq (A : Archive) (b : Bytes) {e : CdEntry} (off : Nat)
    (hrule : 1 < A.rule e) :
    A.newDataOff b e off = roundUp (chosenAlign (A.rule e) (localExtra b e.lfhOff))
      (off + (lfhLen + (lensAt b e.lfhOff).1) + (keptFields (localExtra b e.lfhOff)).length + 6) := by
  have hpos : 0 < chosenAlign (A.rule e) (localExtra b e.lfhOff) := by
    rw [chosenAlign]
    omega
  rw [Archive.newDataOff, Archive.newExtra, if_pos hrule, length_aligningExtra, extraPad,
    ← add_pad_eq_roundUp hpos]
  omega

/-- The alignment that a kept entry declares is one that the rule agrees with, or else the multiple of
it behind the entry's header happens to be a multiple of the rule. -/
def Archive.Agrees (A : Archive) (b : Bytes) (x : Landing) : Prop :=
  Compatible (A.rule x.e) (localExtra b x.e.lfhOff) ∨
    A.rule x.e ∣ roundUp (chosenAlign (A.rule x.e) (localExtra b x.e.lfhOff))
      (x.off + (lfhLen + (lensAt b x.e.lfhOff).1) + (keptFields (localExtra b x.e.lfhOff)).length + 6)

theorem agrees_iff {A : Archive} {b : Bytes} {x : Landing} (hrule : 1 < A.rule x.e) :
    A.Agrees b x ↔ A.rule x.e ∣ A.newDataOff b x.e x.off := by
  rw [Archive.Agrees, A.newDataOff_eq b x.off hrule, or_iff_right_of_imp]
  intro hcomp
  exact Nat.dvd_trans ((dvd_chosenAlign_iff _ _).mpr hcomp) (Nat.dvd_mul_left _ _)

theorem Rebuilt.checkSection {A : Archive} {b file : Bytes} {rw_ : Rewritten} {rs : List Bytes}
    {ps : List Placed} (h : Rebuilt A b rw_ file rs ps) (hb : A.entriesEnd ≤ b.length)
    (hfit : OffsetsFit ps)
    (hcomp : ∀ e i, (e, i) ∈ A.entries.zipIdx → A.policy i = .output →
      Compatible (A.rule e) (localExtra b e.lfhOff)) :
    checkSection file rw_.cd rw_.entriesEnd A.libPageSize = .ok [] := by
  refine (h.checkSection_iff hb hfit).mpr fun x hx hrule => (agrees_iff hrule).mp (Or.inl ?_)
  obtain ⟨hmem, hout⟩ := mem_landings hx
  exact hcomp x.e x.i hmem hout

/-- **When a rewritten archive passes the check**: as long as the offsets of its headers fit in the
directory, if and only if every kept entry with a rule is agreed with, or lucky. -/
theorem check_rewritten (R : Crypto) (alg : Algorithm) {A : Archive} {b : Bytes}
    (hin : A.input.Honest b) (hb : A.entriesEnd ≤ b.length)
    (hcl : classify A.cd = .ok (A.entries, A.policies))
    (hoff : ∀ x ∈ A.landings b, x.off < 2 ^ 32)
    {threads : Nat} {env : RewriteEnv} {out : Bytes} {rw_ : Rewritten}
    (h : (rewrite R alg b A threads env out).result = .ok rw_) :
    checkSection (rewrite R alg b A threads env out).file rw_.cd rw_.entriesEnd A.libPageSize
      = .ok [] ↔ ∀ x ∈ A.landings b, 1 < A.rule x.e → A.Agrees b x := by
  have hspec := rewrite_refines hin hb h
  generalize (rewrite R alg b A threads env out).file = file at hspec ⊢
  obtain ⟨rs, ps, hre⟩ := exists_rebuilt hin hb hcl hspec
  have hfit : OffsetsFit ps := fun p hp hk => hoff _ (hre.layout.landing_of_mem hb hp hk)
  rw [hre.checkSection_iff hb hfit]
  exact forall₂_congr fun x _ => forall_congr' fun hrule => (agrees_iff hrule).symm

set_option maxRecDepth 8000 in
theorem landings_mixedArchive : mixedArchive.landings mixedFile
    = [⟨entryOf 95 (exampleRecord 8 8 2 3 (ascii "b")), 2, 3⟩,
      ⟨entryOf 0 (exampleRecord 0 0 1 86 (ascii "a")), 0, 54⟩] := by decide

theorem check_mixed : ∃ rw_ file,
    (rewrite sha256Crypto .sha256 mixedFile mixedArchive 4
      ⟨fun k => (k, Faults.none), none⟩ []).result = .ok rw_ ∧
    (rewrite sha256Crypto .sha256 mixedFile mixedArchive 4
      ⟨fun k => (k, Faults.none), none⟩ []).file = file ∧
    checkSection file rw_.cd rw_.entriesEnd 16384 = .ok [] := by
  generalize sha256Crypto = R
  obtain ⟨rw_, hok, -⟩ := rewrite_mixedArchive R .sha256 4
  refine ⟨rw_, _, hok, rfl, (check_rewritten R .sha256 (ReadAt.honest_ofBytes mixedFile)
    room_mixedArchive classify_mixedArchive ?_ hok).mpr ?_⟩
  · rw [landings_mixedArchive]
    decide
  · rw [landings_mixedArchive]
    intro x hx _
    rcases List.mem_pair.mp hx with rfl | rfl
    · refine Or.inl fun d hd => ?_
      have hnone : declaredAlignment (localExtra mixedFile 3) = none := by decide
      cases hnone.symm.trans hd
    · refine Or.inl fun d hd => ?_
      have hnone : declaredAlignment (localExtra mixedFile 86) = none := by decide
      cases hnone.symm.trans hd

def alignedBySixCd : Bytes := exampleRecord 0 0 2 0 (ascii "a")

/-- Its extra field declares an alignment of six. -/
def alignedBySix : Bytes :=
  [0x50, 0x4b, 3, 4, 20, 0, 0, 0, 0, 0, 0, 0, 0, 0, 0, 0, 0, 0, 2, 0, 0, 0, 2, 0, 0, 0, 1, 0, 6, 0,
    0x61, 0x35, 0xd9, 2, 0, 6, 0, 0x68, 0x69]

def alignedBySixArchive : Archive where
  input := ReadAt.ofBytes alignedBySix
  cd := alignedBySixCd
  entries := [entryOf 0 alignedBySixCd]
  policies := [.output]
  entriesEnd := 39
  libPageSize := 16384

/-- The extra field grows by five bytes, which puts the data at 42. -/
def alignedBySixHeader : Bytes :=
  [0x50, 0x4b, 3, 4, 20, 0, 0, 0, 0, 0, 0, 0, 0, 0, 0, 0, 0, 0, 2, 0, 0, 0, 2, 0, 0, 0, 1, 0, 11, 0,
    0x61, 0x35, 0xd9, 7, 0, 6, 0, 0, 0, 0, 0, 0]

theorem check_alignedBySix :
    classify alignedBySixArchive.cd
      = .ok (alignedBySixArchive.entries, alignedBySixArchive.policies) ∧
    ∀ (R : Crypto) (alg : Algorithm) (threads : Nat), ∃ rw_ file,
      (rewrite R alg alignedBySix alignedBySixArchive threads
        ⟨fun k => (k, Faults.none), none⟩ []).result = .ok rw_ ∧
      (rewrite R alg alignedBySix alignedBySixArchive threads
        ⟨fun k => (k, Faults.none), none⟩ []).file = file ∧
      checkSection file rw_.cd rw_.entriesEnd 16384 = .ok [⟨ascii "a", 42, 4⟩] := by
  refine ⟨by decide, ?_⟩
  intro R alg threads
  have hplan : planAll alignedBySixArchive
      = .ok ([⟨some 0, 37, 2, 0, alignedBySixHeader⟩], 0) := by decide
  have hcalm : RewriteEnv.Calm ⟨fun k => (k, Faults.none), none⟩ := ⟨fun _ => rfl, rfl⟩
  have hin := ReadAt.honest_ofBytes alignedBySix
  have hres := rewrite_eq_of_log hin
    (show alignedBySixArchive.entriesEnd ≤ alignedBySix.length by decide)
    (@rewrite_log_of_calm R alg _ _ threads _ hcalm [])
  rw [rewriteSpec, hplan] at hres
  have hfile := rewrite_refines hin (by decide) hres
  rw [rewriteSpec, hplan] at hfile
  have hfile := (Prod.mk.inj (Except.ok.inj hfile)).2
  refine ⟨_, _, hres, hfile.symm, ?_⟩
  change checkSection (output alignedBySix [⟨some 0, 37, 2, 0, alignedBySixHeader⟩]) alignedBySixCd
    (output alignedBySix [⟨some 0, 37, 2, 0, alignedBySixHeader⟩]).length 16384 = _
  decide

end FastSigner.Align

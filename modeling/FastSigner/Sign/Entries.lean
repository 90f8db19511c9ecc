import FastSigner.Sign.Reparse
import FastSigner.Sign.Run

/-!
# What becomes of the entries

The directory of a signed APK lists the kept entries in their order, each with another
header offset at most, and at that offset the signed APK has what the input had: the
header up to its extra field, the name and the data.  On the splice path that holds of
what lies in front of the old signing block; the rewrite accepts nothing else.

* `carried_of_signSpec`, `signOne_carries`: the entries of the signed APK.
* `aligned_of_signSpec`, `signOne_aligned`: with `--zipalign`, the signed APK passes the
  alignment check, unless an entry declares an alignment that the rule does not know.
-/

namespace FastSigner.Sign

open Lib Zip Digest Align SigBlock Script

/-! ### The same beginning -/

theorem length_le_padded (b : Bytes) : b.length ≤ (Align.padded b).length := by
  rw [Align.length_padded]
  exact Nat.le_add_right _ _

theorem checkable_of_take {b b' : Bytes} {n n' : Nat} {entries : List CdEntry}
    (hb : n ≤ b.length) (hn : n ≤ n') (htake : b'.take n = b.take n) (h : Checkable b n entries) :
    Checkable b' n' entries ∧
      ∀ (cd : Bytes) (page : Nat), ∀ e ∈ entries, AlignedIn b cd page e → AlignedIn b' cd page e := by
  obtain ⟨order, horder⟩ := h.order
  have hin := inside_of_fileOrder horder
  have hlen : (b.take n).length = n := List.length_take_of_le hb
  have hb₁ : b.take (b.take n).length = b.take n := by rw [hlen]
  have hb₂ : b'.take (b.take n).length = b.take n := by rw [hlen, htake]
  have hdata : ∀ e ∈ entries, dataOffset b' e.lfhOff = dataOffset b e.lfhOff := by
    intro e he
    have := hin e he
    rw [dataOffset_of_take hb₂ (by omega), dataOffset_of_take hb₁ (by omega)]
  refine ⟨⟨?_, ?_, ?_⟩, ?_⟩
  · obtain ⟨hperm, hord, hlt⟩ := fileOrder_eq_ok_iff.mp horder
    exact ⟨order, fileOrder_eq_ok_iff.mpr ⟨hperm, hord, fun x hx => Nat.le_trans (hlt x hx) hn⟩⟩
  · intro e he
    have := hin e he
    rw [hasLfh_of_take hb₂ (by omega), ← hasLfh_of_take hb₁ (by omega)]
    exact h.lfh e he
  · intro e he
    obtain ⟨hend, hnext⟩ := h.fits e he
    rw [hdata e he]
    exact ⟨Nat.le_trans hend hn, hnext⟩
  · intro cd page e he ha
    rw [AlignedIn, hdata e he]
    exact ha

section Beginning

variable {F B D E : Bytes} {c : Content}

theorem take_signed (hfile : F = Align.padded c.entries ++ B ++ D ++ E) :
    F.take c.entries.length = c.entries := by
  rw [hfile, Align.padded]
  simp only [List.append_assoc]
  rw [List.take_left' rfl]

end Beginning

/-! ### An entry -/

/-- What the input holds of the entry `e`, the signed APK holds at `off`. -/
structure Same (apk F : Bytes) (e : CdEntry) (off : Nat) : Prop where
  -- The header's fixed part, up to the length of the extra field.
  fixed : slice F off (off + 28) = slice apk e.lfhOff (e.lfhOff + 28)
  name : slice F (off + lfhLen) (off + lfhLen + u16le apk (e.lfhOff + 26))
    = slice apk (e.lfhOff + lfhLen) (e.lfhOff + lfhLen + u16le apk (e.lfhOff + 26))
  data : slice F (dataOffset F off) (dataOffset F off + e.compressedSize)
    = slice apk (dataOffset apk e.lfhOff) (dataOffset apk e.lfhOff + e.compressedSize)

def dataStop (b : Bytes) (e : CdEntry) : Nat := dataOffset b e.lfhOff + e.compressedSize

/-- The entry `e'` of the new directory is `e` with another offset, and holds the same if `e` ends in
front of `n`. -/
structure Carried (apk F : Bytes) (n : Nat) (e e' : CdEntry) : Prop where
  entry : e' = { e with lfhOff := e'.lfhOff }
  same : dataStop apk e ≤ n → Same apk F e e'.lfhOff

theorem same_of_take {apk F : Bytes} {n : Nat} {e : CdEntry} (htake : F.take n = apk.take n)
    (h : dataStop apk e ≤ n) : Same apk F e e.lfhOff := by
  have h30 : lfhLen = 30 := rfl
  have hdo : dataOffset apk e.lfhOff
      = e.lfhOff + (lfhLen + u16le apk (e.lfhOff + 26) + u16le apk (e.lfhOff + 28)) := rfl
  rw [dataStop] at h
  have hslice : ∀ {i j : Nat}, j ≤ n → slice F i j = slice apk i j := by
    intro i j hj
    rw [← slice_take i hj, htake, slice_take i hj]
  have hdata : dataOffset F e.lfhOff = dataOffset apk e.lfhOff := by
    rw [hdo, dataOffset, lensAt, u16le, u16le, hslice (by omega), hslice (by omega)]
    rfl
  refine ⟨hslice (by omega), hslice (by omega), ?_⟩
  rw [hdata]
  exact hslice h

theorem same_of_moved {A : Archive} {apk file F : Bytes} {e : CdEntry} {off : Nat}
    (htake : F.take file.length = file) (h : Moved A apk file e off) : Same apk F e off := by
  have h30 : lfhLen = 30 := rfl
  have hfits := h.fits
  have hlen : A.dataLen e (dataOffset apk e.lfhOff)
      = e.compressedSize + A.descriptorLen e (dataOffset apk e.lfhOff + e.compressedSize) := rfl
  have hdo : dataOffset file off
      = off + (lfhLen + u16le file (off + 26) + u16le file (off + 28)) := rfl
  have hdata : dataOffset F off = dataOffset file off := dataOffset_of_take htake (by omega)
  have h26 : u16le file (off + 26) = u16le apk (e.lfhOff + 26) := by
    have hcut := congrArg (fun l => slice l 26 28) h.fixed
    rw [slice_slice_of_le _ (by omega), slice_slice_of_le _ (by omega)] at hcut
    exact congrArg leNat hcut
  refine ⟨?_, ?_, ?_⟩
  · rw [slice_of_take htake (by omega)]
    exact h.fixed
  · rw [slice_of_take htake (by omega)]
    exact h.name
  · have hcut := congrArg (fun l => slice l 0 e.compressedSize) h.data
    rw [slice_slice_of_le _ (by omega), slice_slice_of_le _ (by omega), Nat.add_zero,
      Nat.add_zero] at hcut
    rw [hdata, slice_of_take htake (by omega)]
    exact hcut

/-! ### The directory -/

/-- The directory `D` of `F`, with the entries `es'`, lists what is kept of the directory of `apk`. -/
structure Carries (apk F : Bytes) (P : Parsed) (cd D : Bytes) (es' : List CdEntry) : Prop where
  parsed : parseCdEntries D = .ok es'
  directory : D = (List.zipWith (fun e e' => setLfhOff (slice cd e.record.start e.record.stop)
    e'.lfhOff) P.filtered.kept es').flatten
  entries : List.Forall₂ (Carried apk F P.sections.entriesEnd) P.filtered.kept es'
  -- Nothing was moved, or everything that is kept lies in the entries section.
  whole : (F.take P.sections.entriesEnd = apk.take P.sections.entriesEnd ∧ es' = P.filtered.kept) ∨
    ∀ e ∈ P.filtered.kept, dataStop apk e ≤ P.sections.entriesEnd

theorem zipWith_self :
    ∀ (rs : List Bytes) (pre : Bytes), (∀ r ∈ rs, WfRecord r) →
      List.zipWith (fun e e' => setLfhOff (slice (pre ++ rs.flatten) e.record.start e.record.stop)
        e'.lfhOff) (entriesFrom pre.length rs) (entriesFrom pre.length rs) = rs := by
  intro rs
  induction rs with
  | nil => intro pre _; rfl
  | cons r rs ih =>
    intro pre hwf
    have htail := ih (pre ++ r) fun x hx => hwf x (List.mem_cons_of_mem _ hx)
    have hrec : slice (pre ++ (r ++ rs.flatten)) pre.length (pre.length + r.length) = r := by
      rw [slice_append_length, List.take_left]
    rw [List.length_append, List.append_assoc] at htail
    rw [entriesFrom, List.flatten_cons, List.zipWith_cons_cons, htail]
    simp only [entryOf, hrec]
    rw [setLfhOff_self (hwf r List.mem_cons_self)]

section Carries

variable {R : Crypto} {opts : Opts} {alg : Algorithm} {k : Luck} {apk cd F B E : Bytes} {P : Parsed}
  {c : Content}

theorem carries_of_splice (hp : IsParsed apk P cd) (hc : spliceContent k.access apk P cd = .ok c)
    (hfile : F = Align.padded c.entries ++ B ++ c.cd ++ E) :
    Carries apk F P cd c.cd P.filtered.kept := by
  obtain ⟨rfl, -, -⟩ := spliceContent_eq_ok_iff.mp hc
  obtain ⟨rs, hwf, -, hcd, hkept⟩ := hp.exists_records
  have hbounds := hp.bounds
  have hle : P.sections.entriesEnd ≤ apk.length := by
    have := hbounds.entries_le
    have := hbounds.cd_end
    have := hbounds.eocd_le
    omega
  have htake := take_signed hfile
  simp only [spliced, List.length_take_of_le hle] at htake
  refine ⟨hp.parse_kept, ?_, ?_, Or.inl ⟨htake, rfl⟩⟩
  · have hself := zipWith_self (rs.filter isOutput) [] fun r hr => hwf r (List.mem_of_mem_filter hr)
    rw [List.nil_append, List.length_nil, ← hcd, ← hkept] at hself
    rw [hself]
    exact hcd
  · exact List.forall₂_same.mpr fun e _ => ⟨rfl, fun h => same_of_take htake h⟩

theorem exists_placed_of_kept {A : Archive} {file : Bytes} {rw_ : Align.Rewritten} {n : Nat}
    {rs : List Bytes} {ps : List Placed} (hre : Rebuilt A (k.access.source apk n) rw_ file rs ps)
    {e : CdEntry} (he : e ∈ entriesFrom 0 (rs.filter isOutput)) :
    k.access.source apk n = apk ∧ ∃ p ∈ ps, p.keep = true ∧ p.e.lfhOff = e.lfhOff ∧
      p.e.compressedSize = e.compressedSize := by
  obtain ⟨i, hi⟩ := List.getElem?_of_mem he
  have hlt := (List.getElem?_eq_some_iff.mp hi).1
  rw [length_entriesFrom, ← map_fst_keptRecords, List.length_map] at hlt
  have hx := List.getElem?_eq_getElem hlt
  have hr : (rs.filter isOutput)[i]? = some (keptRecords rs)[i].1 := by
    rw [← map_fst_keptRecords, List.getElem?_map, hx]
    rfl
  obtain ⟨q, hq⟩ := getElem?_entriesFrom _ 0 hr
  obtain rfl := Option.some.inj (hi.symm.trans hq)
  obtain ⟨p, hp, hk, -, -, q', hpe, -⟩ := hre.exists_placed (List.mem_of_getElem? hx)
  refine ⟨?_, p, hp, hk, by rw [hpe]; rfl, by rw [hpe]; rfl⟩
  have hl := (hre.layout.ok p hp).lfh
  rw [Access.source] at hl ⊢
  split at hl
  · rename_i ha
    rw [if_pos ha]
  · exact absurd hl (not_hasLfh_replicate _ _)

theorem carries_of_rewrite (hp : IsParsed apk P cd) (hc : rewriteContent R opts alg k apk P = .ok c)
    (hsmall : c.entries.length < 2 ^ 32) (hfile : F = Align.padded c.entries ++ B ++ c.cd ++ E) :
    ∃ es', Carries apk F P cd c.cd es' := by
  obtain ⟨-, all, policies, rw_, rs, ps, -, hcd, -, hre⟩ := rebuilt_of_rewriteContent hp hc
  obtain ⟨hcdold, hkept⟩ := Rebuilt.kept hp rfl hre
  obtain ⟨es', hparse, hmoved, hdir⟩ := hre.directory (hp.le_source _) hsmall
  have htake := take_signed hfile
  refine ⟨es', by rw [hcd, hparse], ?_, ?_, Or.inr ?_⟩
  · rw [hkept, hcdold, hcd]
    exact hdir
  · rw [hkept]
    refine ((List.forall₂_and_left _ _).mpr ⟨fun e he => he, hmoved⟩).imp ?_
    rintro e e' ⟨he, hentry, hmv, -⟩
    obtain ⟨hsrc, -⟩ := exists_placed_of_kept hre he
    rw [hsrc] at hmv
    exact ⟨hentry, fun _ => same_of_moved htake hmv⟩
  · intro e he
    rw [hkept] at he
    obtain ⟨hsrc, p, hpm, -, hoff, hsize⟩ := exists_placed_of_kept hre he
    have hok := hre.layout.ok p hpm
    have hstop := hok.stop
    have hfits := hok.fits
    have hdo := hok.dataOff
    rw [hsrc] at hdo
    rw [Archive.dataLen] at hstop
    rw [dataStop, ← hoff, ← hsize, ← hdo]
    exact Nat.le_trans (by omega) hfits

theorem carries_of_contentSpec (hp : IsParsed apk P cd)
    (hc : contentSpec R opts alg k apk P cd = .ok c)
    (hroom : (Align.padded c.entries).length + B.length ≤ 0xffffffff)
    (hfile : F = Align.padded c.entries ++ B ++ c.cd ++ E) : ∃ es', Carries apk F P cd c.cd es' := by
  rcases contentSpec_eq_ok_iff.mp hc with ⟨-, hrw⟩ | ⟨-, hsp⟩
  · have := length_le_padded c.entries
    exact carries_of_rewrite hp hrw (by omega) hfile
  · exact ⟨_, carries_of_splice hp hsp hfile⟩

/-- **The entries of a signed APK** are the kept entries of the input. -/
theorem carried_of_signSpec {key : Option Signer} (h : signSpec R opts key k apk = .ok F) :
    ∃ signer P cd C B D E es', key = some signer ∧ parseInput apk = .ok (P, cd) ∧
      Signed R opts signer F C B D E ∧ Carries apk F P cd D es' := by
  obtain ⟨signer, P, cd, c, hkey, hparse, hlen, hc, hseal⟩ := signSpec_eq_ok_iff.mp h
  have hp := isParsed_of_parseInput hlen hparse
  obtain ⟨B, hblock, hroom, hB⟩ :=
    signed_of_sealContent hp.bounds.isEocd (length_cd_of_contentSpec hp hc) hseal
  obtain ⟨es', hes'⟩ := carries_of_contentSpec hp hc hroom hB.file
  exact ⟨signer, P, cd, _, B, _, _, es', hkey, hparse, hB, hes'⟩

end Carries

/-! ### The alignment -/

section Aligned

variable {R : Crypto} {opts : Opts} {alg : Algorithm} {k : Luck} {apk cd F B E : Bytes} {P : Parsed}
  {c : Content} {signer : Signer}

/-- The alignments that the kept entries declare are ones that the rule agrees with. -/
def Unopposed (opts : Opts) (apk : Bytes) (P : Parsed) : Prop :=
  ∀ all policies e i, classify (P.cdFull apk) = .ok (all, policies) → (e, i) ∈ all.zipIdx →
    policies.getD i .gap = .output →
      Compatible (requiredAlignment (P.cdFull apk) e opts.libPageSize) (localExtra apk e.lfhOff)

theorem checkSection_of_take {b b' : Bytes} {n n' page : Nat} {entries : List CdEntry}
    (hb : n ≤ b.length) (hb' : n' ≤ b'.length) (hn : n ≤ n') (htake : b'.take n = b.take n)
    (hparse : parseCdEntries cd = .ok entries) (hcheck : Checkable b n entries)
    (h : ∀ e ∈ entries, AlignedIn b cd page e) : checkSection b' cd n' page = .ok [] := by
  obtain ⟨hcheck', haligned⟩ := checkable_of_take hb hn htake hcheck
  obtain ⟨bad, hbad, hiff⟩ := (checkSection_spec page hb' hparse).1 hcheck'
  rw [hbad, hiff.mpr fun e he => haligned cd page e he (h e he)]

theorem aligned_of_splice (hp : IsParsed apk P cd) (hz : opts.zipalign = .check)
    (hneeds : needsRewrite opts apk P cd = .ok false)
    (hc : spliceContent k.access apk P cd = .ok c)
    (hfile : F = Align.padded c.entries ++ B ++ c.cd ++ E) :
    checkSection F c.cd (Align.padded c.entries).length opts.libPageSize = .ok [] := by
  obtain ⟨rfl, -, -⟩ := spliceContent_eq_ok_iff.mp hc
  have hbounds := hp.bounds
  have hle : P.sections.entriesEnd ≤ apk.length := by
    have := hbounds.entries_le
    have := hbounds.cd_end
    have := hbounds.eocd_le
    omega
  have hlen : (spliced apk P cd).entries.length = P.sections.entriesEnd := List.length_take_of_le hle
  have htake := take_signed hfile
  rw [hlen] at htake
  have hpad := length_le_padded (spliced apk P cd).entries
  rw [hlen] at hpad
  obtain ⟨hyes, hno⟩ := needsRewrite_check hp hz
  have hcheck : Checkable apk P.sections.entriesEnd P.filtered.kept := by
    by_contra hn
    obtain ⟨err, herr⟩ := hno hn
    rw [herr] at hneeds
    cases hneeds
  obtain ⟨b, hb, hiff⟩ := hyes hcheck
  obtain rfl := Except.ok.inj (hb.symm.trans hneeds)
  refine checkSection_of_take hle ?_ hpad htake hp.parse_kept hcheck fun e he => ?_
  · rw [hfile]
    simp only [List.length_append]
    omega
  · by_contra hn
    exact Bool.false_ne_true (hiff.mpr ⟨e, he, hn⟩)

theorem aligned_of_rewrite (hp : IsParsed apk P cd) (hun : Unopposed opts apk P)
    (hc : rewriteContent R opts alg k apk P = .ok c) (hsmall : c.entries.length < 2 ^ 32)
    (hfile : F = Align.padded c.entries ++ B ++ c.cd ++ E) :
    checkSection F c.cd (Align.padded c.entries).length opts.libPageSize = .ok [] := by
  obtain ⟨-, all, policies, rw_, rs, ps, -, hcd, -, hre⟩ := rebuilt_of_rewriteContent hp hc
  have hb := hp.le_source k.access
  have hfit := hre.offsetsFit hb hsmall
  have hfile' := @Rebuilt.hasLfh _ _ _ _ _ _ hre hb hfit
  have hcheck : Checkable c.entries c.entries.length (movedEntries rs ps) :=
    ⟨exists_fileOrder (hre.nodup_offsets hb hfit) fun e he => (hfile' he).1,
      fun e he => (hfile' he).2, hre.fits hb hfit⟩
  have hcl : classify (P.cdFull apk) = .ok (all, policies) := by
    have hent : all = entriesFrom 0 rs := hre.entries
    have hpol : policies = rs.map recordPolicy := hre.policies
    have hfull : P.cdFull apk = rs.flatten := hre.cd
    rw [hfull, hent, hpol]
    exact classify_flatten hre.wf
  have hcomp : ∀ e i, (e, i) ∈ all.zipIdx → policies.getD i .gap = .output →
      Compatible (requiredAlignment (P.cdFull apk) e opts.libPageSize)
        (localExtra (k.access.source apk P.sections.entriesEnd) e.lfhOff) := by
    intro e i he hout
    have hl := (fits_of_placements hre.layout he hout).1
    rw [Access.source] at hl ⊢
    split at hl
    · rename_i ha
      rw [if_pos ha]
      exact hun all policies e i hcl he hout
    · exact absurd hl (not_hasLfh_replicate _ _)
  have haligned := hre.checkSection hb hfit hcomp
  rw [hre.stop] at haligned
  obtain ⟨bad, hbad, hiff⟩ := (checkSection_spec opts.libPageSize (Nat.le_refl _) hre.parse).1 hcheck
  obtain rfl := Except.ok.inj (hbad.symm.trans haligned)
  have htake := take_signed hfile
  rw [hcd] at hfile ⊢
  refine checkSection_of_take (Nat.le_refl _) ?_ (length_le_padded _) ?_ hre.parse hcheck
    (hiff.mp rfl)
  · rw [hfile]
    simp only [List.length_append]
    omega
  · rw [htake, List.take_length]

/-- **A signed APK passes the alignment check** of the mode that it was signed in. -/
theorem aligned_of_signSpec {key : Option Signer} (hz : opts.zipalign ≠ .off)
    (hun : ∀ P cd, parseInput apk = .ok (P, cd) → Unopposed opts apk P)
    (h : signSpec R opts key k apk = .ok F) :
    ∃ signer C B D E, key = some signer ∧ Signed R opts signer F C B D E ∧
      checkSection F D C.length opts.libPageSize = .ok [] := by
  obtain ⟨signer, P, cd, c, hkey, hparse, hlen, hc, hseal⟩ := signSpec_eq_ok_iff.mp h
  have hp := isParsed_of_parseInput hlen hparse
  obtain ⟨B, hblock, hroom, hB⟩ :=
    signed_of_sealContent hp.bounds.isEocd (length_cd_of_contentSpec hp hc) hseal
  refine ⟨signer, _, B, _, _, hkey, hB, ?_⟩
  rcases contentSpec_eq_ok_iff.mp hc with ⟨-, hrw⟩ | ⟨hneeds, hsp⟩
  · have hsmall : c.entries.length < 2 ^ 32 := by
      have := length_le_padded c.entries
      omega
    exact aligned_of_rewrite hp (hun P cd hparse) hrw hsmall hB.file
  · cases hmode : opts.zipalign with
    | off => exact absurd hmode hz
    | always =>
      rw [needsRewrite, hmode] at hneeds
      cases hneeds
    | check => exact aligned_of_splice hp hmode hneeds hsp hB.file

end Aligned

/-! ### Runs -/

section Runs

variable (R : Crypto) (J : Job) (w : World) (env : Nat → Chance)

/-- **A run loses no entry.**  The directory of what it leaves is the filtered one with other header
offsets, and at its offset every kept entry that ended in front of the old signing block has its
header, its name and its data.  If anything was moved, every kept entry did. -/
theorem signOne_carries (h : (run (exec R) (signOne R J) env w).1 = .ok ()) :
    ∃ signer P cd C B D E es', J.key = some signer ∧
      parseInput (w.content J.input) = .ok (P, cd) ∧
      Signed R J.opts signer ((run (exec R) (signOne R J) env w).2.content J.dest) C B D E ∧
      Carries (w.content J.input) ((run (exec R) (signOne R J) env w).2.content J.dest) P cd D es' := by
  obtain ⟨k, -, hspec⟩ := (finished_of_run h).content
  exact carried_of_signSpec hspec

/-- Both entries that are kept of the example. -/
theorem signOne_carries_mixed : ∃ F e₁ e₂,
    F = (run (exec sha256Crypto) (signOne sha256Crypto exampleJob) (fun _ => calmChance)
      exampleWorld).2.content exampleJob.dest ∧
    Carried mixedApk F 160 (entryOf 0 (exampleRecord 0 0 1 86 (ascii "a"))) e₁ ∧
    Carried mixedApk F 160 (entryOf 47 (exampleRecord 8 8 2 3 (ascii "b"))) e₂ := by
  generalize sha256Crypto = R
  obtain ⟨signer, P, cd, C, B, D, E, es', -, hparse, -, hc⟩ :=
    signOne_carries R exampleJob exampleWorld (fun _ => calmChance) (run_exampleJob R)
  obtain ⟨rfl, rfl⟩ := Prod.mk.inj (Except.ok.inj (parseInput_mixedApk.symm.trans hparse))
  obtain ⟨e₁, _, he₁, hrest, -⟩ := List.forall₂_cons_left_iff.mp hc.entries
  obtain ⟨e₂, _, he₂, -, -⟩ := List.forall₂_cons_left_iff.mp hrest
  exact ⟨_, e₁, e₂, rfl, he₁, he₂⟩

/-- **With `--zipalign`, what a run leaves passes the alignment check**, whether it was rewritten or
found aligned, if no kept entry declares an alignment that the rule disagrees with. -/
theorem signOne_aligned (hz : J.opts.zipalign ≠ .off)
    (hun : ∀ P cd, parseInput (w.content J.input) = .ok (P, cd) →
      Unopposed J.opts (w.content J.input) P)
    (h : (run (exec R) (signOne R J) env w).1 = .ok ()) :
    ∃ signer C B D E, J.key = some signer ∧
      Signed R J.opts signer ((run (exec R) (signOne R J) env w).2.content J.dest) C B D E ∧
      checkSection ((run (exec R) (signOne R J) env w).2.content J.dest) D C.length
        J.opts.libPageSize = .ok [] := by
  obtain ⟨k, -, hspec⟩ := (finished_of_run h).content
  exact aligned_of_signSpec hz hun hspec

set_option maxRecDepth 8000 in
theorem declared_mixedApk : declaredAlignment (localExtra mixedApk 86) = none ∧
    declaredAlignment (localExtra mixedApk 3) = none := by decide

theorem unopposed_mixedApk : Unopposed exampleJob.opts mixedApk mixedParsed := by
  intro all policies e i hcl he hout d hd
  rw [cdFull_mixedParsed, classify_mixedRecords] at hcl
  obtain ⟨rfl, rfl⟩ := Prod.mk.inj (Except.ok.inj hcl)
  exfalso
  have hget := List.mem_zipIdx_iff_getElem?.mp he
  simp only at hget
  -- the entries at 1 and 3 are not kept
  rcases i with _ | _ | _ | _ | i
  · obtain rfl := Option.some.inj hget
    cases declared_mixedApk.1.symm.trans hd
  · cases hout
  · obtain rfl := Option.some.inj hget
    cases declared_mixedApk.2.symm.trans hd
  · cases hout
  · cases hget

set_option maxRecDepth 8000 in
theorem misaligned_mixedApk : checkSection mixedApk mixedKept.flatten 160 16384 ≠ .ok [] := by decide

theorem signOne_aligned_mixed :
    checkSection mixedApk mixedKept.flatten 160 16384 ≠ .ok [] ∧
    ∃ C D, checkSection ((run (exec sha256Crypto) (signOne sha256Crypto exampleJob)
      (fun _ => calmChance) exampleWorld).2.content exampleJob.dest) D C 16384 = .ok [] := by
  refine ⟨misaligned_mixedApk, ?_⟩
  generalize sha256Crypto = R
  have hun : ∀ P cd, parseInput (exampleWorld.content exampleJob.input) = .ok (P, cd) →
      Unopposed exampleJob.opts (exampleWorld.content exampleJob.input) P := by
    intro P cd hparse
    obtain ⟨rfl, rfl⟩ := Prod.mk.inj (Except.ok.inj (parseInput_mixedApk.symm.trans hparse))
    exact unopposed_mixedApk
  obtain ⟨-, C, -, D, -, -, -, h⟩ := signOne_aligned R exampleJob exampleWorld (fun _ => calmChance)
    (by decide) hun (run_exampleJob R)
  exact ⟨C.length, D, h⟩

end Runs

end FastSigner.Sign

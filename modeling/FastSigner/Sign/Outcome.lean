import FastSigner.Sign.Stages

/-!
# What becomes of the files

`does_signOne` says what an execution of `signOne` leaves, whatever fails and however
its threads are scheduled: if it returns `Ok`, the destination holds what
`signSpec` says; if it returns an error although nothing failed, `signSpec` is an
error too.  The proof follows the script with one lemma for each of its ways: through
the rewrite, in place, and with an output.
-/

namespace FastSigner.Sign

open Lib Zip Digest Align SigBlock Script

/-! ### The three ways -/

/-- What a run that succeeds leaves. -/
structure Finished (R : Crypto) (Q : Chance → Prop) (J : Job) (apk : Bytes) (w : World) :
    Prop where
  content : ∃ k, Fate Q J k ∧ signSpec R J.opts J.key k apk = .ok (w.content J.dest)
  gone : J.output.isSome → w.files (tempPath J.dest) = none

section Ways

variable {R : Crypto} {Q : Chance → Prop} {w : World} {J : Job} {apk cd : Bytes} {P : Parsed}

theorem ne_nil_of_sealContent {opts : Opts} {signer : Signer} {seeds : Nat × Nat} {e F : Bytes}
    {c : Content} (he : IsEocd e) (h : sealContent R opts signer seeds e c = .ok F) : F ≠ [] := by
  obtain ⟨block, -, -, rfl⟩ := sealContent_eq_ok_iff.mp h
  intro hnil
  have hlen := (isEocd_eocd he c block.length).le
  rw [(List.append_eq_nil_iff.mp hnil).2, List.length_nil] at hlen
  omega

theorem sealContent_of_signTail {opts : Opts} {signer : Signer} {seeds : Nat × Nat} {e : Bytes}
    {c : Content} {t : Bytes × Bytes} (h : signTail R opts signer seeds e c = .ok t) :
    sealContent R opts signer seeds e c = .ok (c.entries ++ (t.1 ++ c.cd ++ t.2)) := by
  rw [sealContent_eq, h]
  rfl

theorem signTail_of_sealContent {opts : Opts} {signer : Signer} {seeds : Nat × Nat} {e F : Bytes}
    {c : Content} (h : sealContent R opts signer seeds e c = .ok F) :
    ∃ t, signTail R opts signer seeds e c = .ok t := by
  rw [sealContent_eq] at h
  cases ht : signTail R opts signer seeds e c with
  | error e =>
    rw [ht] at h
    cases h
  | ok t => exact ⟨t, rfl⟩

def Written (R : Crypto) (Q : Chance → Prop) (J : Job) (apk : Bytes) (w : World) : Prop :=
  ∃ k F, Fate Q J k ∧ signSpec R J.opts J.key k apk = .ok F ∧ w.files (tempPath J.dest) = some F

theorem written_of_content {k : Luck} {F : Bytes} (hk : Fate Q J k)
    (hspec : signSpec R J.opts J.key k apk = .ok F) (hne : F ≠ [])
    (h : w.content (tempPath J.dest) = F) : Written R Q J apk w :=
  ⟨k, F, hk, hspec, h ▸ some_of_content_ne (h ▸ hne)⟩

/-- **A complete file is put in place.** -/
theorem does_commitWritten (h : Written R Q J apk w) :
    Does (exec R) Q (commit (tempPath J.dest) J.dest) (fun _ w' => Finished R Q J apk w')
      (Quiet Q → Fails R Q J apk) w := by
  obtain ⟨k, F, hk, hspec, hF⟩ := h
  refine does_mono (does_commit (tempPath_ne _) hF) (fun _ w' hw' => ?_) fun h => h
  refine ⟨⟨k, hk, ?_⟩, fun _ => hw'.gone⟩
  rw [World.content, hw'.holds]
  exact hspec

theorem does_tempNextTo {dest : Path} {bad : Prop} {post : Path → World → Prop}
    (h : ∀ w', Changed (tempPath dest) [] w w' → post (tempPath dest) w') :
    Does (exec R) Q (tempNextTo dest) post (Quiet Q → bad) w :=
  does_bind (does_create fun w' hw' => does_pure (h w' hw'))

/-- Rewriting into a temporary file, and signing it. -/
def Job.rewriteInto (R : Crypto) (J : Job) (P : Parsed) (temp : Path) : Prog Unit :=
  removeOnError temp (do
    let stage ← J.rewrittenStage R P.sections temp
    let (block, eocd) ← J.signStage P stage none
    J.writeTail temp stage.entriesEnd [.owned block, stage.cd, .owned eocd]
    fileOp (.setLen temp (stage.entriesEnd + (block.length + stage.cd.len + eocd.length)))
      .truncate)

theorem Job.viaRewrite_eq : J.viaRewrite R P = tempNextTo J.dest >>= fun temp =>
    J.rewriteInto R P temp >>= fun _ => commit temp J.dest := rfl

/-- **Through the rewrite**, if the entries have to be moved. -/
theorem does_rewriteInto (hQ : ∃ c, Q c) (hparse : parseInput apk = .ok (P, cd))
    (hp : IsParsed apk P cd) (hready : Ready Q J apk w) (hreads : Reads J apk (J.access w) w)
    (hneed : ∀ alg k c, rewriteContent R J.opts alg k apk P = .ok c →
      needsRewrite J.opts apk P cd = .ok true)
    (hno : needsRewrite J.opts apk P cd ≠ .ok false) :
    Does (exec R) Q (J.rewriteInto R P (tempPath J.dest)) (fun _ w' => Written R Q J apk w')
      (Quiet Q → Fails R Q J apk) w := by
  have hapart : J.access w = .apart ↔ tempPath J.dest ≠ J.input := Job.access_eq_apart_iff
  have hfails : Quiet Q → (∀ signer seeds c, J.key = some signer → rewriteContent R J.opts
      signer.contentDigest ⟨J.access w, fun _ _ => none, seeds⟩ apk P = .ok c →
      ∀ F, sealContent R J.opts signer seeds P.sections.eocd c ≠ .ok F) → Fails R Q J apk := by
    intro hq h
    refine fails_of hQ hapart hready.access_ne_copied fun seeds F => ?_
    refine signSpec_ne_ok_of_content hparse (fun signer c hkey hc => ?_) F
    rcases contentSpec_eq_ok_iff.mp hc with ⟨-, hc⟩ | ⟨hfalse, -⟩
    · exact h signer seeds c hkey hc
    · exact absurd hfalse hno
  refine does_onError (does_bind (does_rewrittenStage hp hreads hapart ?_ ?_))
  · intro signer reads c w₁ hkey hreads' hc hw₁
    refine does_bind (does_signStage rfl ?_ ?_ ?_ ?_ ?_)
    · intro signer' hkey' _
      obtain rfl := Option.some.inj (hkey.symm.trans hkey')
      rfl
    · intro signer' _ hany
      cases hany
    · intro signer' seeds t hkey' hseeds ht
      obtain rfl := Option.some.inj (hkey.symm.trans hkey')
      have hseal := sealContent_of_signTail ht
      generalize hF : c.entries ++ (t.1 ++ c.cd ++ t.2) = F at hseal
      have hfate : Fate Q J ⟨J.access w, reads, seeds⟩ :=
        ⟨hapart, hseeds, fun hq => ⟨hreads' hq, hready.access_ne_copied hq⟩⟩
      have hspec : signSpec R J.opts J.key ⟨J.access w, reads, seeds⟩ apk = .ok F :=
        signSpec_eq_ok_iff.mpr ⟨signer, P, cd, c, hkey, hparse, hp.small,
          contentSpec_eq_ok_iff.mpr (Or.inl ⟨hneed _ _ _ (hc seeds), hc seeds⟩), hseal⟩
      have hparts : List.Forall₂ (fun (part : Part) b => part.Gives J (tempPath J.dest) w₁ b)
          [.owned t.1, .owned c.cd, .owned t.2] [t.1, c.cd, t.2] :=
        .cons rfl (.cons rfl (.cons rfl .nil))
      refine does_bind (does_writeTail _ _ _ _ hparts (Nat.le_of_eq (by rw [hw₁.content])) ?_)
      intro w₂ hw₂
      have hcontent : w₂.content (tempPath J.dest) = F := by
        have happend := writeAt_append c.entries [] (t.1 ++ (c.cd ++ t.2))
        rw [List.append_nil, List.drop_nil, List.append_nil] at happend
        rw [hw₂.content, hw₁.content, ← hF]
        simp only [List.flatten_cons, List.flatten_nil, List.append_nil, happend,
          List.append_assoc]
      have hlen : c.entries.length + (t.1.length + c.cd.length + t.2.length) = F.length := by
        rw [← hF]
        simp only [List.length_append]
      refine does_setLen fun w₃ hw₃ => ?_
      have hF₃ : w₃.content (tempPath J.dest) = F := by
        rw [hw₃.content, hcontent]
        exact hlen ▸ setLen_self F
      exact written_of_content hfate hspec (ne_nil_of_sealContent hp.bounds.isEocd hseal) hF₃
    · intro seeds hseeds hno' hq
      obtain rfl := hreads' hq
      refine ⟨⟨J.access w, fun _ _ => none, seeds⟩,
        ⟨hapart, hseeds, fun hq => ⟨rfl, hready.access_ne_copied hq⟩⟩,
        signSpec_ne_ok_of_content hparse fun signer' c' hkey' hc' F hseal => ?_⟩
      obtain rfl := Option.some.inj (hkey.symm.trans hkey')
      have hcc : c' = c := by
        rcases contentSpec_eq_ok_iff.mp hc' with ⟨-, hc'⟩ | ⟨hfalse, -⟩
        · exact Except.ok.inj (hc'.symm.trans (hc seeds))
        · exact absurd hfalse hno
      obtain ⟨t, ht⟩ := signTail_of_sealContent hseal
      exact hno' signer t hkey (hcc ▸ ht)
    · intro hkey'
      rw [hkey] at hkey'
      cases hkey'
  · intro hq h
    exact hfails hq fun signer seeds c hkey hc => absurd hc (h signer seeds c hkey)

theorem does_viaRewrite (hQ : ∃ c, Q c) (hparse : parseInput apk = .ok (P, cd))
    (hp : IsParsed apk P cd) (hready : Ready Q J apk w)
    (hneed : ∀ alg k c, rewriteContent R J.opts alg k apk P = .ok c →
      needsRewrite J.opts apk P cd = .ok true)
    (hno : needsRewrite J.opts apk P cd ≠ .ok false) :
    Does (exec R) Q (J.viaRewrite R P) (fun _ w' => Finished R Q J apk w')
      (Quiet Q → Fails R Q J apk) w := by
  rw [Job.viaRewrite_eq]
  refine does_bind (does_tempNextTo fun w₀ hw₀ => ?_)
  obtain ⟨hready₀, hr₀⟩ := hready.create hw₀
  exact does_bind (does_mono (does_rewriteInto hQ hparse hp hready₀ hr₀ hneed hno)
    (fun _ _ hw => does_commitWritten hw) fun h => h)

theorem does_signSpliced {bad : Prop} {a : Access} (hp : IsParsed apk P cd)
    (hr : Reads J apk a w) (h1 : a.look P.sections.entriesEnd = .ok ())
    (h2 : a.look P.cd.mappedLen = .ok ()) (alg : Algorithm) {post : Bytes × Bytes → World → Prop}
    (hok : ∀ signer seeds t, J.key = some signer → SeedsOf Q seeds →
      signTail R J.opts signer seeds P.sections.eocd (spliced apk P cd) = .ok t → post t w)
    (hbad : ∀ seeds, SeedsOf Q seeds → (∀ signer t, J.key = some signer →
      signTail R J.opts signer seeds P.sections.eocd (spliced apk P cd) ≠ .ok t) → bad)
    (hkey : J.key = none → bad) :
    Does (exec R) Q (J.signStage P (splicedStage R alg apk P cd) (some alg)) post bad w := by
  refine does_signStage (c := spliced apk P cd) rfl ?_ ?_ hok hbad hkey
  · intro signer _ hany
    rw [Option.any_some, decide_eq_false_iff_not, not_not] at hany
    rw [← hany]
    rfl
  · intro signer _ _
    refine does_digestLayout hp hr (fun _ _ _ _ _ _ _ => ⟨rfl, rfl, rfl⟩) ?_
    rintro (h | h)
    · exact absurd h1 (h ())
    · exact absurd h2 (h ())

theorem signSpec_of_spliced {k : Luck} {signer : Signer} {t : Bytes × Bytes}
    (hkey : J.key = some signer) (hparse : parseInput apk = .ok (P, cd)) (hp : IsParsed apk P cd)
    (hneeds : needsRewrite J.opts apk P cd = .ok false)
    (hcontent : spliceContent k.access apk P cd = .ok (spliced apk P cd))
    (ht : signTail R J.opts signer k.seeds P.sections.eocd (spliced apk P cd) = .ok t) :
    signSpec R J.opts J.key k apk
      = .ok (apk.take P.sections.entriesEnd ++ (t.1 ++ cd ++ t.2)) :=
  signSpec_eq_ok_iff.mpr ⟨signer, P, cd, spliced apk P cd, hkey, hparse, hp.small,
    contentSpec_eq_ok_iff.mpr (Or.inr ⟨hneeds, hcontent⟩), sealContent_of_signTail ht⟩

theorem fails_of_splice {a : Access} {seeds : Nat × Nat}
    (ha : a = .apart ↔ tempPath J.dest ≠ J.input) (hq : Quiet Q → a ≠ .copied)
    (hseeds : SeedsOf Q seeds) (hparse : parseInput apk = .ok (P, cd))
    (hno : needsRewrite J.opts apk P cd ≠ .ok true)
    (h : spliceContent a apk P cd = .ok (spliced apk P cd) → ∀ signer t, J.key = some signer →
      signTail R J.opts signer seeds P.sections.eocd (spliced apk P cd) ≠ .ok t) :
    Fails R Q J apk := by
  refine ⟨⟨a, fun _ _ => none, seeds⟩, ⟨ha, hseeds, fun h => ⟨rfl, hq h⟩⟩,
    signSpec_ne_ok_of_content hparse fun signer c hkey hc F hseal => ?_⟩
  rcases contentSpec_eq_ok_iff.mp hc with ⟨htrue, -⟩ | ⟨-, hc⟩
  · exact hno htrue
  · obtain ⟨rfl, -⟩ := spliceContent_eq_ok_iff.mp hc
    obtain ⟨t, ht⟩ := signTail_of_sealContent hseal
    exact h hc signer t hkey ht

end Ways

/-! ### In place -/

section InPlace

variable {R : Crypto} {Q : Chance → Prop} {bad : Prop} {w : World} {J : Job} {apk cd : Bytes}
  {P : Parsed}

theorem setLen_writeAt {b : Bytes} {n : Nat} (hn : n ≤ b.length) (tail : Bytes) :
    Lib.setLen (Lib.writeAt b n tail) (n + tail.length) = b.take n ++ tail := by
  have hlen : (b.take n ++ tail).length = n + tail.length := by
    rw [List.length_append, List.length_take, Nat.min_eq_left hn]
  rw [writeAt_eq hn, ← hlen, setLen_append]

theorem writeAt_to_end {b : Bytes} {n : Nat} (hn : n ≤ b.length) {tail : Bytes}
    (hlen : n + tail.length = b.length) : Lib.writeAt b n tail = b.take n ++ tail := by
  rw [writeAt_eq hn, List.drop_eq_nil_of_le (by omega), List.append_nil]

/-- A directory and a record that are where they belong are not written again. -/
theorem writeAt_block {b block cd eocd : Bytes} {n : Nat} (hn : n ≤ b.length)
    (hlen : n + (block.length + (cd.length + eocd.length)) = b.length)
    (hcd : slice b (b.length - (cd.length + eocd.length))
      (b.length - (cd.length + eocd.length) + cd.length) = cd)
    (heocd : slice b (b.length - eocd.length) (b.length - eocd.length + eocd.length) = eocd) :
    Lib.writeAt b n block = b.take n ++ (block ++ cd ++ eocd) := by
  have hdrop : b.drop (n + block.length) = cd ++ eocd := by
    rw [show b.length - (cd.length + eocd.length) = n + block.length by omega] at hcd
    rw [show b.length - eocd.length = n + block.length + cd.length by omega,
      show n + block.length + cd.length + eocd.length = b.length by omega,
      slice_to_end _ _ (Nat.le_refl _)] at heocd
    rw [← slice_append_drop b (Nat.le_add_right (n + block.length) cd.length), hcd, heocd]
  rw [writeAt_eq hn, hdrop]
  simp only [List.append_assoc]

/-- **The write in place**: the head stays, the tail is new, and nothing follows it.  The mapped
input shares the bytes that are overwritten. -/
theorem does_writeInPlace (hp : IsParsed apk P cd) (hr : Reads J apk .apart w) {stage : Stage}
    (hend : stage.entriesEnd = P.sections.entriesEnd) (hcd : stage.cd = P.cd) (block eocd : Bytes)
    {post : Unit → World → Prop}
    (hok : ∀ w', Changed J.input (apk.take P.sections.entriesEnd ++ (block ++ cd ++ eocd)) w w' →
      post () w') :
    Does (exec R) Q (J.writeInPlace P stage block eocd) post (Quiet Q → bad) w := by
  have hb := hp.bounds
  have hle := hp.entriesEnd_le
  have hcontent : w.content J.input = apk := hr.content
  have hlook : ∀ n, Access.apart.look n = .ok () := fun n =>
    Access.look_eq_ok.mpr fun h => by cases h
  have hoff : P.sections.entriesEnd ≤ (w.content J.input).length := by rw [hcontent]; exact hle
  generalize hnew : P.sections.entriesEnd + (block.length + (cd.length + eocd.length)) = newLen
  -- the whole tail is written, and the file cut off behind it
  have hall : ∀ x : Bool, x = false → Does (exec R) Q
      (if x = true then J.writeTail J.input P.sections.entriesEnd [.owned block] >>= fun _ =>
          if newLen ≠ P.sections.fileLen then fileOp (.setLen J.input newLen) .truncate else pure ()
        else P.cd.look J.input >>= fun cd' =>
          J.writeTail J.input P.sections.entriesEnd [.owned block, .owned cd', .owned eocd]
            >>= fun _ => if newLen ≠ P.sections.fileLen then
              fileOp (.setLen J.input newLen) .truncate else pure ())
      post (Quiet Q → bad) w := by
    intro x hx
    rw [hx, if_neg (by decide)]
    refine does_bind (does_lookCd hp hr (fun _ => ?_) fun h => absurd (hlook _) (h ()))
    have hparts : List.Forall₂ (fun (part : Part) b => part.Gives J J.input w b)
        [.owned block, .owned cd, .owned eocd] [block, cd, eocd] :=
      .cons rfl (.cons rfl (.cons rfl .nil))
    refine does_bind (does_writeTail _ _ _ _ hparts hoff fun w₁ hw₁ => ?_)
    have htail : [block, cd, eocd].flatten = block ++ cd ++ eocd := by
      simp only [List.flatten_cons, List.flatten_nil, List.append_nil, List.append_assoc]
    have hlen : P.sections.entriesEnd + (block ++ cd ++ eocd).length = newLen := by
      rw [← hnew]
      simp only [List.length_append]
      omega
    rw [htail, hcontent] at hw₁
    split
    · refine does_setLen fun w₂ hw₂ => hok w₂ ?_
      rw [hw₁.content, ← hlen, setLen_writeAt hle] at hw₂
      exact hw₁.trans hw₂
    · rename_i hsame
      refine does_pure (hok w₁ ?_)
      rw [writeAt_to_end hle (by rw [hlen, ← hb.fileLen]; exact not_not.mp hsame)] at hw₁
      exact hw₁
  rw [Job.writeInPlace]
  simp only [hend, hcd, hp.length_part, hnew]
  by_cases hsame : newLen = P.sections.fileLen
  · rw [if_pos hsame]
    have hkept : cd.length + eocd.length ≤ P.sections.fileLen := by omega
    have hlen := hb.fileLen
    refine does_bind (does_lookCd hp hr (fun _ => ?_) fun h => absurd (hlook _) (h ()))
    refine does_bind (does_lookInput hr (by omega) (fun _ => ?_) fun h => absurd (hlook _) (h ()))
    refine does_bind (does_lookInput hr (by omega) (fun _ => ?_) fun h => absurd (hlook _) (h ()))
    refine does_bind (does_pure ?_)
    by_cases hkeep : slice apk (P.sections.fileLen - (cd.length + eocd.length))
        (P.sections.fileLen - (cd.length + eocd.length) + cd.length) = cd ∧
        slice apk (P.sections.fileLen - eocd.length)
          (P.sections.fileLen - eocd.length + eocd.length) = eocd
    · have hparts : List.Forall₂ (fun (part : Part) b => part.Gives J J.input w b)
          [.owned block] [block] := .cons rfl .nil
      rw [decide_eq_true hkeep, if_pos rfl]
      refine does_bind (does_writeTail _ _ _ _ hparts hoff fun w₁ hw₁ => ?_)
      rw [if_neg (not_not.mpr hsame)]
      refine does_pure (hok w₁ ?_)
      rw [hcontent, List.flatten_cons, List.flatten_nil, List.append_nil,
        writeAt_block hle (by rw [hnew, hsame, hlen]) (hlen ▸ hkeep.1) (hlen ▸ hkeep.2)] at hw₁
      exact hw₁
    · exact hall _ (decide_eq_false hkeep)
  · rw [if_neg hsame]
    exact does_bind (does_pure (hall false rfl))

/-- **Splicing in place.** -/
theorem does_spliceInPlace (hQ : ∃ c, Q c) (hparse : parseInput apk = .ok (P, cd))
    (hp : IsParsed apk P cd) (hready : Ready Q J apk w) (hout : J.output = none)
    (hopts : J.opts.zipalign ≠ .always) {inspector : Option LfhInspector}
    (hinsp : J.inspector P = .ok inspector) :
    Does (exec R) Q (J.spliceInPlace R P apk cd inspector) (fun _ w' => Finished R Q J apk w')
      (Quiet Q → Fails R Q J apk) w := by
  have hdest : J.dest = J.input := by rw [Job.dest, hout]; rfl
  have hne : tempPath J.dest ≠ J.input := hdest ▸ tempPath_ne J.dest
  have hapart : Access.apart = .apart ↔ tempPath J.dest ≠ J.input := ⟨fun _ => hne, fun _ => rfl⟩
  have hr := hready.reads hne
  have hlook : ∀ n, Access.apart.look n = .ok () := fun n =>
    Access.look_eq_ok.mpr fun h => by cases h
  have hcontent : spliceContent .apart apk P cd = .ok (spliced apk P cd) :=
    spliceContent_eq_ok_iff.mpr ⟨rfl, fun h => (by cases h), fun h => absurd rfl h⟩
  rw [Job.spliceInPlace]
  refine does_bind (does_spliceStage hp hr hopts hinsp ?_ ?_ ?_)
  · intro hneeds h1 h2 alg
    refine does_bind (does_signSpliced hp hr h1 h2 alg ?_ ?_ ?_)
    · intro signer seeds t hkey hseeds ht
      refine does_writeInPlace hp hr rfl rfl _ _ fun w' hw' => ⟨?_, fun h => ?_⟩
      · refine ⟨⟨.apart, fun _ _ => none, seeds⟩,
          ⟨hapart, hseeds, fun _ => ⟨rfl, fun h => by cases h⟩⟩, ?_⟩
        rw [hdest, hw'.content]
        exact signSpec_of_spliced hkey hparse hp hneeds hcontent ht
      · rw [hout] at h
        cases h
    · intro seeds hseeds hno _
      exact fails_of_splice hapart (fun _ h => by cases h) hseeds hparse
        (by rw [hneeds]; simp) fun _ signer t hkey => hno signer t hkey
    · intro hkey _
      refine fails_of hQ hapart (fun _ h => by cases h) fun seeds F => ?_
      exact signSpec_ne_ok_of_content hparse (fun signer _ hkey' => by
        rw [hkey] at hkey'
        cases hkey') F
  · intro hneeds
    exact does_viaRewrite hQ hparse hp hready (fun _ _ _ _ => hneeds) (by rw [hneeds]; simp)
  · intro hno _
    refine fails_of hQ hapart (fun _ h => by cases h) fun seeds F => ?_
    refine signSpec_ne_ok_of_content hparse (fun signer c hkey hc => ?_) F
    rcases hno with h | h | h
    · exact absurd (hlook _) (h ())
    · exact absurd (hlook _) (h ())
    · rcases contentSpec_eq_ok_iff.mp hc with ⟨hb, -⟩ | ⟨hb, -⟩
      · exact absurd hb (h _)
      · exact absurd hb (h _)

end InPlace

/-! ### With an output -/

section Output

variable {R : Crypto} {Q : Chance → Prop} {w : World} {J : Job} {apk cd : Bytes} {P : Parsed}

/-- The head of the input was copied, or it was not, with the result `copied`. -/
structure HeadCopied (Q : Chance → Prop) (J : Job) (apk : Bytes) (P : Parsed)
    (copied : Except IoError Unit) (w : World) : Prop where
  ready : Ready Q J apk w
  reads : Reads J apk (J.access w) w
  whole : copied = .ok () → w.content (tempPath J.dest) = apk.take P.sections.entriesEnd ∧
    (J.access w ≠ .apart → P.sections.entriesEnd = 0)
  short : Quiet Q → copied ≠ .ok () → J.access w ≠ .apart ∧ P.sections.entriesEnd ≠ 0

theorem does_copyHead {bad : Prop} (hp : IsParsed apk P cd) (hready : Ready Q J apk w)
    (hr : Reads J apk (J.access w) w) :
    Does (exec R) Q (tryFile (.copyHead J.input (tempPath J.dest) P.sections.entriesEnd))
      (HeadCopied Q J apk P) bad w := by
  refine does_tryFile fun c hc => ?_
  obtain ⟨k, hw', hcopied⟩ :=
    copyHead_changed J.input (tempPath J.dest) P.sections.entriesEnd c w
  have hcalm : Quiet Q → (execFile (.copyHead J.input (tempPath J.dest) P.sections.entriesEnd) c
      w).1 ≠ .ok () → (w.content J.input).length < P.sections.entriesEnd := by
    intro hq herr
    rw [execFile, execCopyHead, (hq c hc).fail] at herr
    simp only [List.length_take] at herr
    split at herr
    · exact absurd rfl herr
    · omega
  generalize execFile (.copyHead J.input (tempPath J.dest) P.sections.entriesEnd) c w = x
    at hw' hcopied hcalm ⊢
  have haccess : J.access x.2 = J.access w := by rw [Job.access, Job.access, hw'.copy]
  have hready' : Ready Q J apk x.2 := by
    refine ⟨hw'.copy ▸ hready.copy, fun hq => hw'.copy.trans (hready.quiet hq), fun hne => ?_⟩
    rw [hw'.content_of_ne (Ne.symm hne), hready.content hne]
  have hin := hr.content
  by_cases hne : tempPath J.dest = J.input
  · -- nothing is left of the input, and nothing is copied
    have hna : J.access w ≠ .apart := fun ha => Job.access_eq_apart_iff.mp ha hne
    rw [Access.content, if_neg hna] at hin
    have hnil : x.2.content (tempPath J.dest) = [] := by rw [hw'.content, hin, List.take_nil]
    rw [hin] at hcopied hcalm
    refine ⟨hready', ⟨?_, ?_, ?_⟩, ?_, ?_⟩
    · rw [haccess, Access.content, if_neg hna, ← hne, hnil]
    · have hview := hr.view
      rw [haccess, World.view, hw'.copy, ← hne, hnil]
      rw [World.view, hin] at hview
      exact hview
    · intro ha
      rw [hw'.copy]
      exact hr.copied (haccess ▸ ha)
    · intro hok
      have h0 := (hcopied hok).2
      rw [List.length_nil] at h0
      have h0 : P.sections.entriesEnd = 0 := by omega
      exact ⟨by rw [hnil, h0, List.take_zero], fun _ => h0⟩
    · intro hq herr
      have := hcalm hq herr
      rw [List.length_nil] at this
      exact ⟨haccess ▸ hna, by omega⟩
  · have ha : J.access w = .apart := Job.access_eq_apart_iff.mpr hne
    rw [Access.content, if_pos ha] at hin
    refine ⟨hready', haccess ▸ ha ▸ hready'.reads hne, ?_, ?_⟩
    · intro hok
      rw [hw'.content, hin, (hcopied hok).1]
      exact ⟨rfl, fun hna => absurd (haccess.trans ha) hna⟩
    · intro hq herr
      have := hcalm hq herr
      rw [hin] at this
      have := hp.entriesEnd_le
      omega

theorem ne_lost_of_rewriteContent {alg : Algorithm} {k : Luck} {c : Content}
    (hp : IsParsed apk P cd) (hopts : J.opts.zipalign ≠ .always)
    (hneeds : needsRewrite J.opts apk P cd = .ok true)
    (hc : rewriteContent R J.opts alg k apk P = .ok c) : k.access ≠ .lost := by
  intro hlost
  have hkept := hp.kept_of_cdSize ((rebuilt_of_rewriteContent hp hc).1 hlost)
  cases hz : J.opts.zipalign with
  | always => exact hopts hz
  | off =>
    rw [needsRewrite, hz] at hneeds
    cases hneeds
  | check =>
    obtain ⟨b, hb, hiff⟩ := (needsRewrite_check hp hz).1 (checkable_of_rewriteContent hp hc)
    obtain rfl := Except.ok.inj (hneeds.symm.trans hb)
    obtain ⟨e, he, -⟩ := hiff.mp rfl
    rw [hkept] at he
    cases he

theorem only_remove (p : Path) (c : Chance) (w : World) :
    Only p w (execFile (.remove p) c w).2 := by
  have hself : Only p w w := ⟨rfl, fun _ _ => rfl⟩
  rw [execFile]
  cases c.fail with
  | some e => exact hself
  | none =>
    simp only [mayFail]
    split
    · refine ⟨rfl, fun q hq => ?_⟩
      rw [files_set, if_neg hq]
    · exact hself

/-- Signing what was spliced, behind the head that was copied. -/
def Job.spliceInto (J : Job) (P : Parsed) (copied : Except IoError Unit) (temp : Path)
    (stage : Stage) (alg : Algorithm) : Prog Unit :=
  removeOnError temp (do
    let (block, eocd) ← J.signStage P stage (some alg)
    compute (copied.mapError .write)
    J.writeTail temp stage.entriesEnd [.owned block, stage.cd, .owned eocd])

theorem Job.spliceTo_eq (inspector : Option LfhInspector) (out : Path) :
    J.spliceTo R P apk cd inspector out = tempNextTo out >>= fun temp =>
      tryFile (.copyHead J.input temp P.sections.entriesEnd) >>= fun copied =>
        removeOnError temp (J.spliceStage P apk cd inspector) >>= fun x =>
          match x with
          | none => tryFile (.remove temp) >>= fun _ => J.viaRewrite R P
          | some (stage, alg) =>
            J.spliceInto P copied temp stage alg >>= fun _ => commit temp out := rfl

theorem does_spliceInto (hQ : ∃ c, Q c) (hparse : parseInput apk = .ok (P, cd))
    (hp : IsParsed apk P cd) {copied : Except IoError Unit} (hcopied : HeadCopied Q J apk P copied w)
    (hneeds : needsRewrite J.opts apk P cd = .ok false)
    (h1 : (J.access w).look P.sections.entriesEnd = .ok ())
    (h2 : (J.access w).look P.cd.mappedLen = .ok ()) (alg : Algorithm) :
    Does (exec R) Q (J.spliceInto P copied (tempPath J.dest) (splicedStage R alg apk P cd) alg)
      (fun _ w' => Written R Q J apk w') (Quiet Q → Fails R Q J apk) w := by
  have hready := hcopied.ready
  have hr := hcopied.reads
  have hapart : J.access w = .apart ↔ tempPath J.dest ≠ J.input := Job.access_eq_apart_iff
  have hcd : J.access w = .lost → P.cd.mappedLen = 0 := Access.look_eq_ok.mp h2
  have hgives := hr.gives hp hcd hapart.mp
  have hfails : ∀ seeds, SeedsOf Q seeds → (spliceContent (J.access w) apk P cd
      = .ok (spliced apk P cd) → ∀ signer t, J.key = some signer →
      signTail R J.opts signer seeds P.sections.eocd (spliced apk P cd) ≠ .ok t) →
      Fails R Q J apk := fun seeds hseeds =>
    fails_of_splice hapart hready.access_ne_copied hseeds hparse (by rw [hneeds]; simp)
  refine does_onError (does_bind (does_signSpliced hp hr h1 h2 alg ?_ ?_ ?_))
  · intro signer seeds t hkey hseeds ht
    refine does_bind (does_compute (fun u hu => ?_) fun e he hq => ?_)
    · obtain ⟨hhead, hend⟩ := hcopied.whole (mapError_eq_ok.mp hu)
      have hlen : (apk.take P.sections.entriesEnd).length = P.sections.entriesEnd := by
        rw [List.length_take, Nat.min_eq_left hp.entriesEnd_le]
      have hcontent := spliceContent_eq_ok_iff.mpr (And.intro (Eq.refl (spliced apk P cd))
        (And.intro hcd hend))
      have hspec := signSpec_of_spliced (k := ⟨J.access w, fun _ _ => none, seeds⟩) hkey hparse
        hp hneeds hcontent ht
      have hparts : List.Forall₂ (fun (part : Part) b => part.Gives J (tempPath J.dest) w b)
          [.owned t.1, P.cd, .owned t.2] [t.1, cd, t.2] :=
        .cons rfl (.cons hgives (.cons rfl .nil))
      refine does_writeTail _ _ _ _ hparts (Nat.le_of_eq (by rw [hhead, hlen]; rfl)) ?_
      intro w₂ hw₂
      have happend := writeAt_append (apk.take P.sections.entriesEnd) [] (t.1 ++ cd ++ t.2)
      rw [List.append_nil, List.drop_nil, List.append_nil, hlen] at happend
      refine written_of_content ⟨hapart, hseeds, fun hq => ⟨rfl, hready.access_ne_copied hq⟩⟩ hspec
        (ne_nil_of_sealContent hp.bounds.isEocd (sealContent_of_signTail ht)) ?_
      rw [hw₂.content, hhead, ← happend]
      simp only [List.flatten_cons, List.flatten_nil, List.append_nil, List.append_assoc]
      rfl
    · refine hfails seeds hseeds fun hcontent => ?_
      have hne : copied ≠ .ok () := by
        rintro rfl
        cases he
      obtain ⟨hna, h0⟩ := hcopied.short hq hne
      exact absurd ((spliceContent_eq_ok_iff.mp hcontent).2.2 hna) h0
  · exact fun seeds hseeds hno _ => hfails seeds hseeds fun _ => hno
  · intro hkey hq
    obtain ⟨c, hc⟩ := hQ
    refine hfails (c.seed 2, c.seed 3) ⟨c, c, hc, hc, rfl⟩ fun _ signer t hkey' => ?_
    rw [hkey] at hkey'
    cases hkey'

theorem Ready.remove (h : Ready Q J apk w) (c : Chance) :
    Ready Q J apk (execFile (.remove (tempPath J.dest)) c w).2 := by
  have honly := only_remove (tempPath J.dest) c w
  refine ⟨honly.copy ▸ h.copy, fun hq => honly.copy.trans (h.quiet hq), fun hne => ?_⟩
  rw [honly.content_of_ne (Ne.symm hne), h.content hne]

theorem fails_of_lookSplice (hQ : ∃ c, Q c) (hparse : parseInput apk = .ok (P, cd))
    (hp : IsParsed apk P cd) (hready : Ready Q J apk w) (hopts : J.opts.zipalign ≠ .always)
    (hno : (∀ u, (J.access w).look P.sections.entriesEnd ≠ .ok u) ∨
      (∀ u, (J.access w).look P.cd.mappedLen ≠ .ok u) ∨
      ∀ b, needsRewrite J.opts apk P cd ≠ .ok b) : Fails R Q J apk := by
  refine fails_of hQ Job.access_eq_apart_iff hready.access_ne_copied fun seeds F => ?_
  refine signSpec_ne_ok_of_content hparse (fun signer c hkey hc => ?_) F
  rcases contentSpec_eq_ok_iff.mp hc with ⟨hb, hc⟩ | ⟨hb, hc⟩
  · have hnl := ne_lost_of_rewriteContent hp hopts hb hc
    rcases hno with h | h | h
    · exact absurd (Access.look_eq_ok.mpr fun ha => absurd ha hnl) (h ())
    · exact absurd (Access.look_eq_ok.mpr fun ha => absurd ha hnl) (h ())
    · exact absurd hb (h _)
  · obtain ⟨-, hcd, hend⟩ := spliceContent_eq_ok_iff.mp hc
    rcases hno with h | h | h
    · have hne : J.access w = .lost → J.access w ≠ .apart := fun ha => by
        rw [ha]
        decide
      exact absurd (Access.look_eq_ok.mpr fun ha => hend (hne ha)) (h ())
    · exact absurd (Access.look_eq_ok.mpr hcd) (h ())
    · exact absurd hb (h _)

/-- **Splicing into another file.** -/
theorem does_spliceTo (hQ : ∃ c, Q c) (hparse : parseInput apk = .ok (P, cd))
    (hp : IsParsed apk P cd) (hready : Ready Q J apk w) {out : Path} (hout : J.output = some out)
    (hopts : J.opts.zipalign ≠ .always) {inspector : Option LfhInspector}
    (hinsp : J.inspector P = .ok inspector) :
    Does (exec R) Q (J.spliceTo R P apk cd inspector out) (fun _ w' => Finished R Q J apk w')
      (Quiet Q → Fails R Q J apk) w := by
  obtain rfl : out = J.dest := by rw [Job.dest, hout]; rfl
  rw [Job.spliceTo_eq]
  refine does_bind (does_tempNextTo fun w₀ hw₀ => ?_)
  obtain ⟨hready₀, hr₀⟩ := hready.create hw₀
  refine does_bind (does_mono (does_copyHead hp hready₀ hr₀) (fun copied w₁ hcopied => ?_)
    fun h => h)
  refine does_bind (does_onError (does_spliceStage hp hcopied.reads hopts hinsp ?_ ?_ ?_))
  · intro hneeds h1 h2 alg
    exact does_bind (does_mono (does_spliceInto hQ hparse hp hcopied hneeds h1 h2 alg)
      (fun _ _ hw => does_commitWritten hw) fun h => h)
  · intro hneeds
    refine does_bind (does_tryFile fun c _ => ?_)
    exact does_viaRewrite hQ hparse hp (hcopied.ready.remove c) (fun _ _ _ _ => hneeds)
      (by rw [hneeds]; simp)
  · exact fun hno _ => fails_of_lookSplice hQ hparse hp hcopied.ready hopts hno

end Output

/-! ### All of it -/

section SignOne

variable {R : Crypto} {Q : Chance → Prop} {w : World} {J : Job}

theorem does_mapFile {p : Path} {bad : Prop} {post : Nat → World → Prop}
    (hok : ∀ w', (w.content p).length < 2 ^ 64 → w'.files = w.files →
      (w'.copy = none ∨ w'.copy = some (w.content p)) → (Quiet Q → w'.copy = none) →
      post (w.content p).length w')
    (hbad : Quiet Q → 2 ^ 64 ≤ (w.content p).length → bad) :
    Does (exec R) Q (mapFile p) post (Quiet Q → bad) w := by
  refine does_call fun c hc => ?_
  rw [exec, execMap]
  by_cases hlen : 2 ^ 64 ≤ (w.content p).length
  · rw [if_pos hlen]
    exact does_done (fun _ h => by cases h) fun _ _ hq => hbad hq hlen
  · rw [if_neg hlen]
    have hlt : (w.content p).length < 2 ^ 64 := by omega
    cases hfail : c.fail with
    | none =>
      refine does_done (fun n hn => ?_) fun _ h => by cases h
      exact Except.ok.inj hn ▸ hok _ hlt rfl (Or.inl rfl) fun _ => rfl
    | some e =>
      have hloud : ¬ Quiet Q := fun hq => by
        rw [(hq c hc).fail] at hfail
        cases hfail
      simp only
      cases c.reads 0 (w.content p).length with
      | some e' => exact does_done (fun _ h => by cases h) fun _ _ hq => absurd hq hloud
      | none =>
        refine does_done (fun n hn => ?_) fun _ h => by cases h
        exact Except.ok.inj hn ▸ hok _ hlt rfl (Or.inr rfl) fun hq => absurd hq hloud

theorem needsRewrite_always {apk cd : Bytes} {P : Parsed} (h : J.opts.zipalign = .always) :
    needsRewrite J.opts apk P cd = .ok true := by rw [needsRewrite, h]

theorem needsRewrite_of_inspector_error {apk cd : Bytes} {P : Parsed} {e : Error}
    (hp : IsParsed apk P cd) (h : J.inspector P = .error e) (b : Bool) :
    needsRewrite J.opts apk P cd ≠ .ok b := by
  rw [Job.inspector] at h
  split at h
  · rename_i hcheck
    intro hb
    by_cases hc : Checkable apk P.sections.entriesEnd P.filtered.kept
    · obtain ⟨order, horder⟩ := hc.order
      rw [LfhInspector.new, horder] at h
      cases h
    · obtain ⟨err, herr⟩ := (needsRewrite_check hp hcheck).2 hc
      rw [herr] at hb
      cases hb
  · cases h

/-- **The early check is only a shortcut**: what it finds, the whole check finds. -/
theorem needsRewrite_of_quick {apk cd : Bytes} {P : Parsed} (hp : IsParsed apk P cd) :
    (J.quick P apk cd = .ok true → needsRewrite J.opts apk P cd ≠ .ok false ∧
      (Checkable apk P.sections.entriesEnd P.filtered.kept →
        needsRewrite J.opts apk P cd = .ok true)) ∧
    ∀ e, J.quick P apk cd = .error e → ∀ b, needsRewrite J.opts apk P cd ≠ .ok b := by
  rw [Job.quick]
  split
  · rename_i n hcheck _
    obtain ⟨hyes, hno⟩ := needsRewrite_check hp hcheck
    obtain ⟨htrue, herr⟩ := quick_spec J.opts.libPageSize hp.entriesEnd_le n
    have hfails : ∀ b, ¬ Checkable apk P.sections.entriesEnd P.filtered.kept →
        needsRewrite J.opts apk P cd ≠ .ok b := by
      intro b hc hb
      obtain ⟨err, he⟩ := hno hc
      rw [he] at hb
      cases hb
    refine ⟨fun hq => ?_, fun e he b => hfails b (herr e he)⟩
    have hneeds : Checkable apk P.sections.entriesEnd P.filtered.kept →
        needsRewrite J.opts apk P cd = .ok true := by
      intro hc
      obtain ⟨b, hb, hiff⟩ := hyes hc
      rw [hb, hiff.mpr (htrue hq hc)]
    refine ⟨fun hfalse => ?_, hneeds⟩
    by_cases hc : Checkable apk P.sections.entriesEnd P.filtered.kept
    · rw [hneeds hc] at hfalse
      cases hfalse
    · exact hfails _ hc hfalse
  · exact ⟨fun h => (by cases h), fun e h => (by cases h)⟩

theorem fails_of_needsRewrite {apk cd : Bytes} {P : Parsed} (hQ : ∃ c, Q c)
    (hparse : parseInput apk = .ok (P, cd)) (hready : Ready Q J apk w)
    (h : ∀ b, needsRewrite J.opts apk P cd ≠ .ok b) : Fails R Q J apk := by
  refine fails_of hQ Job.access_eq_apart_iff hready.access_ne_copied
    fun seeds F => ?_
  refine signSpec_ne_ok_of_content hparse (fun signer c _ hc => ?_) F
  rcases contentSpec_eq_ok_iff.mp hc with ⟨hb, -⟩ | ⟨hb, -⟩
  · exact absurd hb (h _)
  · exact absurd hb (h _)

/-- Once the input is parsed, one of the three ways is taken. -/
theorem does_ways {apk cd : Bytes} {P : Parsed} (hQ : ∃ c, Q c)
    (hparse : parseInput apk = .ok (P, cd)) (hp : IsParsed apk P cd) (hready : Ready Q J apk w)
    {inspector : Option LfhInspector} (hinsp : J.inspector P = .ok inspector) :
    Does (exec R) Q (if J.opts.zipalign = .always then J.viaRewrite R P
      else compute (J.quick P apk cd) >>= fun misaligned =>
        if misaligned then J.viaRewrite R P
        else
          match J.output with
          | none => J.spliceInPlace R P apk cd inspector
          | some out => J.spliceTo R P apk cd inspector out)
      (fun _ w' => Finished R Q J apk w') (Quiet Q → Fails R Q J apk) w := by
  by_cases halways : J.opts.zipalign = .always
  · have hneeds := @needsRewrite_always J apk cd P halways
    rw [if_pos halways]
    exact does_viaRewrite hQ hparse hp hready (fun _ _ _ _ => hneeds) (by rw [hneeds]; simp)
  · rw [if_neg halways]
    obtain ⟨hquick, herror⟩ := needsRewrite_of_quick (J := J) hp
    refine does_bind (does_compute (fun misaligned hm => ?_) fun e he hq => ?_)
    · cases misaligned with
      | true =>
        rw [if_pos rfl]
        obtain ⟨hno, hneeds⟩ := hquick hm
        exact does_viaRewrite hQ hparse hp hready
          (fun _ _ _ hc => hneeds (checkable_of_rewriteContent hp hc)) hno
      | false =>
        rw [if_neg (by decide)]
        cases hout : J.output with
        | none => exact does_spliceInPlace hQ hparse hp hready hout halways hinsp
        | some out => exact does_spliceTo hQ hparse hp hready hout halways hinsp
    · exact fails_of_needsRewrite hQ hparse hready (herror e he)

theorem does_openFile {p : Path} {err : IoError → Error} {bad : Prop} :
    Does (exec R) Q (fileOp (.openFile p) err)
      (fun _ w' => w' = w ∧ w.files p ≠ none ∧ ∃ c, Q c) (Quiet Q → w.files p ≠ none → bad) w := by
  refine does_fileOp (fun c hc hok => ?_) fun c e hc he hq hsome => ?_
  · rw [execFile] at hok ⊢
    have hsame := mayFail_ok hok
    rw [hsame] at hok ⊢
    cases hp : w.files p with
    | none =>
      rw [hp] at hok
      cases hok
    | some b => exact ⟨rfl, by simp, c, hc⟩
  · obtain ⟨b, hb⟩ := Option.ne_none_iff_exists'.mp hsome
    rw [execFile, (hq c hc).fail, mayFail, hb] at he
    cases he

/-- **The input is mapped.** -/
theorem does_mapInput {apk : Bytes} (hapk : w.content J.input = apk) :
    Does (exec R) Q (mapFile J.input) (fun n w' => n = apk.length ∧ apk.length < 2 ^ 64 ∧
      Ready Q J apk w' ∧ w'.mapped J.input 0 n = some apk) (Quiet Q → 2 ^ 64 ≤ apk.length) w := by
  refine does_mapFile (fun w₁ hlt hfiles hcopy hquiet => ?_) fun _ hlen => hapk ▸ hlen
  have hcontent : w₁.content J.input = apk := by
    rw [World.content, hfiles, ← World.content, hapk]
  rw [hapk] at hlt hcopy ⊢
  have hview : w₁.view J.input = apk := by
    rw [World.view, hcontent]
    rcases hcopy with hc | hc
    · rw [hc]
      rfl
    · rw [hc]
      rfl
  refine ⟨rfl, hlt, ⟨hcopy, hquiet, fun _ => hcontent⟩, ?_⟩
  rw [World.mapped, hview, if_pos (Or.inr (by omega)), Nat.zero_add, slice_zero, List.take_length]

theorem fails_of_parse {apk : Bytes} (hQ : ∃ c, Q c)
    (h : apk.length < 2 ^ 64 → ∀ P cd, parseInput apk ≠ .ok (P, cd)) : Fails R Q J apk := by
  refine fails_of (a := if tempPath J.dest ≠ J.input then .apart else .lost) hQ ?_ ?_ ?_
  · split
    · rename_i h
      exact ⟨fun _ => h, fun _ => rfl⟩
    · rename_i h
      exact ⟨fun ha => (by cases ha), fun hn => absurd hn h⟩
  · intro _
    split
    · decide
    · decide
  · intro seeds F hF
    obtain ⟨_, P, cd, _, -, hparse, hlt, -⟩ := signSpec_eq_ok_iff.mp hF
    exact h hlt P cd hparse

/-- **Every run of `signOne` does what it is for**, whatever fails and however the threads are
scheduled: if it returns `Ok`, the destination holds the signed APK, and next to it no temporary
file is left; if it returns an error although nothing failed, there is no signed APK. -/
theorem does_signOne (R : Crypto) (Q : Chance → Prop) (J : Job) (w : World) :
    Does (exec R) Q (signOne R J) (fun _ w' => Finished R Q J (w.content J.input) w')
      (Quiet Q → w.files J.input ≠ none → Fails R Q J (w.content J.input)) w := by
  generalize hapk : w.content J.input = apk
  rw [signOne]
  refine does_bind (does_mono does_openFile (fun _ w₀ hw₀ => ?_) fun h => h)
  obtain ⟨rfl, hsome, hQ⟩ := hw₀
  refine does_bind (does_mono (does_mapInput hapk) (fun n w₁ hmap => ?_) fun hbad hq _ =>
    fails_of_parse hQ fun hlt => absurd (hbad hq) (Nat.not_le.mpr hlt))
  obtain ⟨rfl, hlt, hready, hview⟩ := hmap
  refine does_bind (does_look (fun x hx => ?_) fun hx => by rw [hview] at hx; cases hx)
  obtain rfl := Option.some.inj (hview.symm.trans hx)
  refine does_bind (does_compute ?_ fun e he _ _ => fails_of_parse hQ fun _ P cd hparse => by
    rw [he] at hparse
    cases hparse)
  rintro ⟨P, cd⟩ hparse
  have hp := isParsed_of_parseInput hlt hparse
  refine does_bind (does_compute (fun inspector hinsp => ?_) fun e he _ _ =>
    fails_of_needsRewrite hQ hparse hready (needsRewrite_of_inspector_error hp he))
  exact does_mono (does_ways hQ hparse hp hready hinsp) (fun _ _ h => h) fun h hq _ => h hq

end SignOne

end FastSigner.Sign

import FastSigner.Sign.Effects

/-!
# The stages of signing

The rewrite, the splice and the signature blocks, each as a part of the script: what a
stage leaves is the digest and the layout of the content that `contentSpec` names.  The
digest of a splice may have been taken with a guessed algorithm (`splicedStage`); then
`does_signStage` takes it again.
-/

namespace FastSigner.Sign

open Lib Zip Digest Align SigBlock Script

/-! ### The fate of a run -/

/-- The random numbers that the environment may give. -/
def SeedsOf (Q : Chance → Prop) (seeds : Nat × Nat) : Prop :=
  ∃ c c', Q c ∧ Q c' ∧ seeds = (c.seed 2, c'.seed 3)

/-- What an environment may make of a job. -/
structure Fate (Q : Chance → Prop) (J : Job) (k : Luck) : Prop where
  access : k.access = .apart ↔ tempPath J.dest ≠ J.input
  seeds : SeedsOf Q k.seeds
  quiet : Quiet Q → k.reads = (fun _ _ => none) ∧ k.access ≠ .copied

/-- `signSpec` fails as well. -/
def Fails (R : Crypto) (Q : Chance → Prop) (J : Job) (apk : Bytes) : Prop :=
  ∃ k, Fate Q J k ∧ ∀ F, signSpec R J.opts J.key k apk ≠ .ok F

section Fate

variable {R : Crypto} {Q : Chance → Prop} {J : Job} {apk cd : Bytes} {P : Parsed} {w : World}

theorem fails_of {a : Access} (hQ : ∃ c, Q c) (ha : a = .apart ↔ tempPath J.dest ≠ J.input)
    (hq : Quiet Q → a ≠ .copied)
    (h : ∀ seeds F, signSpec R J.opts J.key ⟨a, fun _ _ => none, seeds⟩ apk ≠ .ok F) :
    Fails R Q J apk := by
  obtain ⟨c, hc⟩ := hQ
  exact ⟨⟨a, fun _ _ => none, (c.seed 2, c.seed 3)⟩,
    ⟨ha, ⟨c, c, hc, hc, rfl⟩, fun h => ⟨rfl, hq h⟩⟩, h _⟩

theorem signSpec_ne_ok_of_content (hparse : parseInput apk = .ok (P, cd)) {k : Luck}
    (h : ∀ signer c, J.key = some signer →
      contentSpec R J.opts signer.contentDigest k apk P cd = .ok c →
      ∀ F, sealContent R J.opts signer k.seeds P.sections.eocd c ≠ .ok F) (F : Bytes) :
    signSpec R J.opts J.key k apk ≠ .ok F := by
  intro hspec
  obtain ⟨signer, P', cd', c, hkey, hparse', -, hc, hseal⟩ := signSpec_eq_ok_iff.mp hspec
  rw [hparse, Except.ok.injEq, Prod.mk.injEq] at hparse'
  obtain ⟨rfl, rfl⟩ := hparse'
  exact h signer c hkey hc F hseal

end Fate

/-! ### The rewrite -/

section Rewrite

variable {R : Crypto} {Q : Chance → Prop} {bad : Prop} {w : World} {J : Job} {apk cd : Bytes}
  {P : Parsed} {a : Access}

/-- Without bytes, only a gap can be planned. -/
theorem newEnd_of_empty {A : Archive} {reads : (off n : Nat) → Option IoError}
    (hA : A.input = ReadAt.faulty [] reads) {plans : List Plan} {dropped : Nat}
    (h : planAll A = .ok (plans, dropped)) : newEnd plans = A.entriesEnd := by
  have hin : A.input.Honest (List.replicate A.entriesEnd 0) := by
    rw [hA]
    exact Access.honest .lost [] reads A.entriesEnd
  obtain ⟨ps, hps, hplans⟩ := placements hin (by rw [List.length_replicate]) h
  cases ps with
  | nil => rw [hplans, plansFor, newEnd_gapPlans, Nat.sub_zero]
  | cons p ps => exact absurd (hps.ok p List.mem_cons_self).lfh (not_hasLfh_replicate _ _)

theorem rewrite_source {q : RewriteCall} {reads : (off n : Nat) → Option IoError}
    (ha : a = .apart ↔ q.dst ≠ q.src) (alg : Algorithm) (threads : Nat) (env : RewriteEnv)
    (out : Bytes) :
    Align.rewrite R alg
        (q.source (q.archive (a.content apk) reads) (a.content apk))
        (q.archive (a.content apk) reads) threads env out
      = Align.rewrite R alg (a.source apk q.entriesEnd) (q.archive (a.content apk) reads) threads
          env out := by
  cases hplan : planAll (q.archive (a.content apk) reads) with
  | error e => rw [Align.rewrite, Align.rewrite, hplan]
  | ok r =>
    obtain ⟨plans, dropped⟩ := r
    congr 1
    rw [RewriteCall.source, Access.source, hplan]
    by_cases hne : q.dst = q.src
    · have hna : a ≠ .apart := fun h => ha.mp h hne
      have hnil : a.content apk = [] := by rw [Access.content, if_neg hna]
      rw [if_pos hne.symm, if_neg hna]
      simp only [hnil, setLen_nil] at hplan ⊢
      rw [newEnd_of_empty rfl hplan]
      rfl
    · rw [if_neg (Ne.symm hne), if_pos (ha.mpr hne), Access.content, if_pos (ha.mpr hne)]

theorem does_runRewrite {q : RewriteCall} (hin : w.content q.src = a.content apk)
    (ha : a = .apart ↔ q.dst ≠ q.src)
    (hle : q.entriesEnd ≤ (a.source apk q.entriesEnd).length) {post : Rewritten → World → Prop}
    (hok : ∀ reads rw_ file w', (Quiet Q → reads = fun _ _ => none) →
      rewriteSpec R q.alg (a.source apk q.entriesEnd) (q.archive (a.content apk) reads)
        = .ok (rw_, file) → Changed q.dst file w w' → post rw_ w')
    (hbad : Quiet Q → (∀ r, rewriteSpec R q.alg (a.source apk q.entriesEnd)
      (q.archive (a.content apk) fun _ _ => none) ≠ .ok r) → bad) :
    Does (exec R) Q (runRewrite q) post (Quiet Q → bad) w := by
  refine does_call fun c hc => ?_
  have hhonest := a.honest apk c.reads q.entriesEnd
  rw [exec, execRewrite]
  simp only [hin, rewrite_source ha]
  refine does_done ?_ ?_
  · intro rw_ hrw
    exact hok c.reads rw_ _ _ (fun hq => (hq c hc).reads)
      (rewrite_refines hhonest hle hrw) (changed_set w q.dst _)
  · intro e he hq
    refine hbad hq fun r hr => ?_
    have hlog := @rewrite_log_of_calm R q.alg (a.source apk q.entriesEnd)
      (q.archive (a.content apk) c.reads) q.threads _ (hq c hc).rewrite (w.content q.dst)
    rw [rewrite_eq_of_log hhonest hle hlog, (hq c hc).reads, hr] at he
    cases he

/-- The rewrite of a directory that is there and in order. -/
theorem rewriteContent_eq {opts : Opts} {alg : Algorithm} {k : Luck} {all : List CdEntry}
    {policies : List EntryPolicy} (hlook : k.access.look P.sections.cdSize = .ok ())
    (hcl : classify (P.cdFull apk) = .ok (all, policies)) :
    rewriteContent R opts alg k apk P
      = (rewriteSpec R alg (k.access.source apk P.sections.entriesEnd)
        (archiveOf opts k apk P.sections (P.cdFull apk) all policies)).map
        fun x => ⟨x.2, x.1.cd, x.1.entries⟩ := by
  rw [rewriteContent]
  simp only
  rw [hlook, ok_bind, hcl, ok_bind]
  simp only
  generalize rewriteSpec R alg (k.access.source apk P.sections.entriesEnd)
    (archiveOf opts k apk P.sections (P.cdFull apk) all policies) = r
  cases r with
  | error e => rfl
  | ok r => rfl

/-- **The rewrite path.**  Once the temporary file is there, it gets the entries section of
`rewriteContent`, and the digest of that is taken. -/
theorem does_rewrittenStage (hp : IsParsed apk P cd) (hr : Reads J apk a w)
    (ha : a = .apart ↔ tempPath J.dest ≠ J.input) {post : Stage → World → Prop}
    (hok : ∀ signer reads c w', J.key = some signer → (Quiet Q → reads = fun _ _ => none) →
      (∀ seeds, rewriteContent R J.opts signer.contentDigest ⟨a, reads, seeds⟩ apk P = .ok c) →
      Changed (tempPath J.dest) c.entries w w' →
      post ⟨c.digest R signer.contentDigest P.sections.eocd, c.layout P.sections.eocd,
        .owned c.cd, c.entries.length⟩ w')
    (hbad : Quiet Q → (∀ signer seeds c, J.key = some signer →
      rewriteContent R J.opts signer.contentDigest ⟨a, fun _ _ => none, seeds⟩ apk P ≠ .ok c) →
      bad) :
    Does (exec R) Q (J.rewrittenStage R P.sections (tempPath J.dest)) post (Quiet Q → bad) w := by
  have hb := hp.bounds
  have hin : P.sections.cdOff + P.sections.cdSize ≤ apk.length := by
    have := hb.cd_end
    have := hb.eocd_le
    omega
  -- what has to succeed before the rewrite
  have hspec : ∀ (signer : Signer) reads seeds c,
      rewriteContent R J.opts signer.contentDigest ⟨a, reads, seeds⟩ apk P = .ok c →
      a.look P.sections.cdSize = .ok () ∧ ∃ all policies, classify (P.cdFull apk)
        = .ok (all, policies) := by
    intro signer reads seeds c hc
    rw [rewriteContent, bind_eq_ok] at hc
    obtain ⟨u, hlook, hc⟩ := hc
    rw [bind_eq_ok] at hc
    obtain ⟨⟨all, policies⟩, hcl, -⟩ := hc
    exact ⟨hlook, all, policies, hcl⟩
  rw [Job.rewrittenStage, Job.rewrite]
  refine does_bind (does_bind (does_wait (fun signer hkey => ?_) fun hkey hq => ?_))
  · refine does_bind (does_lookInput hr hin (fun hlook => ?_) fun hlook hq => ?_)
    · refine does_bind (does_compute ?_ ?_)
      · rintro ⟨all, policies⟩ hcl
        replace hcl : classify (P.cdFull apk) = .ok (all, policies) := hcl
        have hrewrite : ∀ reads seeds, rewriteContent R J.opts signer.contentDigest
            ⟨a, reads, seeds⟩ apk P = _ := fun reads seeds => rewriteContent_eq hlook hcl
        refine does_bind (does_runRewrite hr.content ha (hp.le_source a) ?_ ?_)
        · intro reads rw_ file w' hreads hrw hw'
          refine does_pure ?_
          simp only
          rw [finishRewrittenDigest_eq (rewrittenTo_of_rewriteSpec hrw)]
          have hstop := (rewrittenTo_of_rewriteSpec hrw).stop
          refine does_pure ?_
          rw [hstop]
          refine hok signer reads ⟨file, rw_.cd, rw_.entries⟩ w' hkey hreads ?_ hw'
          intro seeds
          have hrw' : rewriteSpec R signer.contentDigest (a.source apk P.sections.entriesEnd)
              (archiveOf J.opts ⟨a, reads, seeds⟩ apk P.sections (P.cdFull apk) all policies)
              = .ok (rw_, file) := hrw
          rw [hrewrite, hrw']
          rfl
        · intro hq hno
          refine hbad hq fun signer' seeds c hkey' hc => ?_
          obtain rfl := Option.some.inj (hkey.symm.trans hkey')
          rw [hrewrite] at hc
          cases hrw : rewriteSpec R signer.contentDigest (a.source apk P.sections.entriesEnd)
            (archiveOf J.opts ⟨a, fun _ _ => none, seeds⟩ apk P.sections (P.cdFull apk) all
              policies) with
          | error e =>
            rw [hrw] at hc
            cases hc
          | ok r => exact hno r hrw
      · intro e he hq
        refine hbad hq fun signer' seeds c hkey' hc => ?_
        obtain ⟨-, all, policies, hcl⟩ := hspec _ _ _ _ hc
        rw [Parsed.cdFull, he] at hcl
        cases hcl
    · refine hbad hq fun signer' seeds c hkey' hc => ?_
      exact hlook () (hspec _ _ _ _ hc).1
  · exact hbad hq fun signer seeds c hkey' _ => by rw [hkey] at hkey'; cases hkey'

end Rewrite

/-! ### The splice -/

section Splice

variable {R : Crypto} {Q : Chance → Prop} {bad : Prop} {w : World} {J : Job} {apk cd : Bytes}
  {P : Parsed} {a : Access}

theorem IsParsed.entriesEnd_le (hp : IsParsed apk P cd) : P.sections.entriesEnd ≤ apk.length := by
  have hb := hp.bounds
  have := hb.entries_le
  have := hb.cd_end
  have := hb.eocd_le
  omega

theorem mapped_zero (w : World) (p : Path) (off : Nat) : w.mapped p off 0 = some [] := by
  rw [World.mapped, if_pos (Or.inl rfl), slice_of_le _ (by omega)]

/-- The parts of the input that were read into memory, or are still mapped, do not change while
another file is written. -/
theorem Reads.gives (hp : IsParsed apk P cd) (h : Reads J apk a w)
    (hlook : a = .lost → P.cd.mappedLen = 0) {f : Path} (hf : a = .apart → f ≠ J.input) :
    P.cd.Gives J f w cd := by
  have hvalue := hp.value
  have hpart := hp.part
  have hb := hp.bounds
  cases hcd : P.cd with
  | owned b =>
    rw [hcd] at hvalue
    exact hvalue.symm
  | mapped off len =>
    rw [hcd, Part.value] at hvalue
    rw [hcd, Part.mappedLen] at hlook hpart
    intro w' hw'
    by_cases h0 : len = 0
    · rw [h0, slice_of_le _ (by omega)] at hvalue
      rw [h0, mapped_zero, hvalue]
    · have hin : off + len ≤ apk.length := by
        rcases hpart with h1 | h1
        · exact absurd h1 h0
        · cases h1
          have := hb.cd_end
          have := hb.eocd_le
          omega
      have hview : w'.view J.input = apk := by
        cases ha : a with
        | apart =>
          have hc := h.content
          have hv := h.view
          rw [ha] at hc hv
          rw [World.view, hw'.copy, hw'.content_of_ne (Ne.symm (hf ha)), ← World.view]
          exact hv
        | copied => rw [World.view, hw'.copy, h.copied ha, Option.getD_some]
        | lost => exact absurd (hlook ha) h0
      rw [World.mapped, hview, if_pos (Or.inr hin), hvalue]

theorem does_lookCd (hp : IsParsed apk P cd) (h : Reads J apk a w) {post : Bytes → World → Prop}
    (hok : a.look P.cd.mappedLen = .ok () → post cd w)
    (hbad : (∀ u, a.look P.cd.mappedLen ≠ .ok u) → bad) :
    Does (exec R) Q (P.cd.look J.input) post bad w := by
  by_cases hlook : a = .lost → P.cd.mappedLen = 0
  · have hgives := h.gives (f := tempPath J.input) hp hlook fun _ => tempPath_ne _
    exact does_partLook hgives (hok (Access.look_eq_ok.mpr hlook))
  · have hno : ∀ u, a.look P.cd.mappedLen ≠ .ok u := fun _ hu => hlook (Access.look_eq_ok.mp hu)
    cases hcd : P.cd with
    | owned b => exact absurd (fun _ => by rw [hcd]; rfl) hlook
    | mapped off len =>
      have hview := h.view
      rw [hcd] at hlook
      obtain ⟨ha, h0⟩ := Classical.not_imp.mp hlook
      rw [if_pos ha] at hview
      refine does_look (fun b hb => ?_) fun _ => hbad hno
      rcases (mapped_eq_some hb).2 with h1 | h1
      · exact absurd h1 h0
      · rw [hview, List.length_nil] at h1
        rw [Part.mappedLen] at h0
        omega

/-- What the notes of an inspector are made of. -/
def NotesOf (R : Crypto) (alg : Algorithm) (threads : Nat) (head : Bytes) (rest : List Source)
    (tail : Bytes) (order : List (CdEntry × Nat)) (notes : List Note) : Prop :=
  ∃ sched, notes.Perm ((contentDigest R sched (Source.file 0 head tail :: rest) alg
    threads).inspected.flatMap (callNotes order))

/-- The stage that a splice leaves when it digests with `alg`. -/
def splicedStage (R : Crypto) (alg : Algorithm) (apk : Bytes) (P : Parsed) (cd : Bytes) : Stage :=
  ⟨(spliced apk P cd).digest R alg P.sections.eocd, (spliced apk P cd).layout P.sections.eocd,
    P.cd, P.sections.entriesEnd⟩

theorem layout_spliced (hp : IsParsed apk P cd) :
    Sign.layout P.sections.entriesEnd P.cd.len P.sections.eocd P.filtered.kept.length
      = (spliced apk P cd).layout P.sections.eocd := by
  rw [Content.layout, spliced, List.length_take, Nat.min_eq_left hp.entriesEnd_le, hp.length_part]

theorem does_digestLayout (hp : IsParsed apk P cd) (h : Reads J apk a w) {alg : Algorithm}
    {order : List (CdEntry × Nat)} {post : Stage × List Note → World → Prop}
    (hok : a.look P.sections.entriesEnd = .ok () → a.look P.cd.mappedLen = .ok () →
      ∀ tail rest notes, (∀ s ∈ rest, Source.fileOff s = none) →
        NotesOf R alg J.threads (apk.take P.sections.entriesEnd) rest tail order notes →
        post (splicedStage R alg apk P cd, notes) w)
    (hbad : (∀ u, a.look P.sections.entriesEnd ≠ .ok u) ∨ (∀ u, a.look P.cd.mappedLen ≠ .ok u) →
      bad) :
    Does (exec R) Q (J.digestLayout P alg order) post bad w := by
  have hle := hp.entriesEnd_le
  rw [Job.digestLayout]
  simp only
  rw [layout_spliced hp]
  refine does_bind (does_lookInput h (by omega) (fun h1 => ?_) fun h1 => hbad (Or.inl h1))
  refine does_bind (does_lookCd hp h (fun h2 => ?_) fun h2 => hbad (Or.inr h2))
  rw [Nat.zero_add, slice_zero]
  refine does_bind (does_ask fun c _ => does_pure ?_)
  rw [exec]
  simp only
  have hdigest := contentDigest_digestSources R c.sched alg J.threads P.sections.eocd
    (spliced apk P cd)
  rw [spliced] at hdigest
  simp only at hdigest
  rw [show spliced apk P cd = ⟨apk.take P.sections.entriesEnd, cd, P.filtered.kept.length⟩ from rfl,
    hdigest]
  refine hok h1 h2 _ _ _ ?_ ⟨c.sched, c.shuffle_perm _⟩
  intro s hs
  rcases List.mem_cons.mp hs with rfl | hs
  · rfl
  · rw [List.mem_singleton.mp hs]
    rfl

/-- What the inspector and the check say of a section is what `needsRewrite` says. -/
theorem inspected_needsRewrite (hp : IsParsed apk P cd) (hopts : J.opts.zipalign = .check)
    {insp : LfhInspector} (hinsp : LfhInspector.new P.filtered.kept P.sections.entriesEnd = .ok insp)
    {alg : Algorithm} {threads : Nat} {tail : Bytes} {rest : List Source} {notes : List Note}
    (hrest : ∀ s ∈ rest, Source.fileOff s = none)
    (hn : NotesOf R alg threads (apk.take P.sections.entriesEnd) rest tail insp.order notes) :
    (∀ lens bad, (notes.foldl LfhInspector.note insp).finish (ReadAt.ofBytes apk) P.filtered.kept
        = .ok lens → check cd P.filtered.kept lens P.sections.entriesEnd J.opts.libPageSize
        = .ok bad → needsRewrite J.opts apk P cd = .ok (decide (bad ≠ []))) ∧
    ∀ b, needsRewrite J.opts apk P cd = .ok b → ∃ lens bad,
      (notes.foldl LfhInspector.note insp).finish (ReadAt.ofBytes apk) P.filtered.kept = .ok lens ∧
      check cd P.filtered.kept lens P.sections.entriesEnd J.opts.libPageSize = .ok bad := by
  obtain ⟨sched, hperm⟩ := hn
  obtain ⟨hyes, hno⟩ := @check_of_lens apk P.sections.entriesEnd P.filtered.kept cd
    J.opts.libPageSize
    ((notes.foldl LfhInspector.note insp).finish (ReadAt.ofBytes apk) P.filtered.kept)
    fun horder => by
      obtain ⟨order, horder⟩ := horder
      have hin := inside_of_fileOrder horder
      refine finish_of_perm hp.entriesEnd_le hinsp ?_ hperm
      exact coversHeaders_contentDigest R sched alg threads hp.entriesEnd_le hrest fun e he => by
        have := hin e he
        have : 0 < lfhLen := by decide
        omega
  obtain ⟨hneeds, hfails⟩ := needsRewrite_check hp hopts
  refine ⟨?_, ?_⟩
  · intro lens bad hlens hbad
    by_cases hc : Checkable apk P.sections.entriesEnd P.filtered.kept
    · obtain ⟨l, bad', hl, hbad', hiff⟩ := hyes hc
      obtain rfl := Except.ok.inj (hlens.symm.trans hl)
      obtain rfl := Except.ok.inj (hbad.symm.trans hbad')
      obtain ⟨b, hb, hmis⟩ := hneeds hc
      rw [hb, Except.ok.injEq]
      rw [← Bool.coe_iff_coe, hmis, decide_eq_true_iff, ne_eq, hiff]
      push Not
      rfl
    · exact absurd hbad (hno hc lens bad hlens)
  · intro b hb
    by_cases hc : Checkable apk P.sections.entriesEnd P.filtered.kept
    · obtain ⟨l, bad', hl, hbad', -⟩ := hyes hc
      exact ⟨l, bad', hl, hbad'⟩
    · obtain ⟨err, herr⟩ := hfails hc
      rw [herr] at hb
      cases hb

/-- **The splice path**, up to the check: it goes on with the digest of the spliced content if no
entry is misaligned. -/
theorem does_spliceStage (hp : IsParsed apk P cd) (h : Reads J apk a w)
    (hopts : J.opts.zipalign ≠ .always) {inspector : Option LfhInspector}
    (hinsp : J.inspector P = .ok inspector) {post : Option (Stage × Algorithm) → World → Prop}
    (hsplice : needsRewrite J.opts apk P cd = .ok false → a.look P.sections.entriesEnd = .ok () →
      a.look P.cd.mappedLen = .ok () → ∀ alg, post (some (splicedStage R alg apk P cd, alg)) w)
    (hrewrite : needsRewrite J.opts apk P cd = .ok true → post none w)
    (hbad : ((∀ u, a.look P.sections.entriesEnd ≠ .ok u) ∨ (∀ u, a.look P.cd.mappedLen ≠ .ok u) ∨
      ∀ b, needsRewrite J.opts apk P cd ≠ .ok b) → bad) :
    Does (exec R) Q (J.spliceStage P apk cd inspector) post bad w := by
  have hguess : Does (exec R) Q J.digestGuess (fun _ w' => w' = w) bad w :=
    does_bind (does_ask fun c _ => by
      rw [exec]
      exact does_pure rfl)
  rw [Job.spliceStage]
  refine does_bind (does_mono hguess (fun alg w' hw' => ?_) id)
  subst hw'
  refine does_bind (does_digestLayout hp h (fun h1 h2 tail rest notes hrest hn => ?_) ?_)
  · simp only
    rw [Job.inspector] at hinsp
    split at hinsp
    · rename_i hcheck
      rw [bind_eq_ok] at hinsp
      obtain ⟨insp, hnew, hinsp⟩ := hinsp
      obtain rfl := Except.ok.inj hinsp
      obtain ⟨hdecides, hcomplete⟩ := inspected_needsRewrite hp hcheck hnew hrest hn
      have hno : ∀ {x : Prop}, (∀ b, needsRewrite J.opts apk P cd = .ok b → x) → ¬ x → bad :=
        fun hx hnx => hbad (Or.inr (Or.inr fun b hb => hnx (hx b hb)))
      refine does_bind (does_compute (fun lens hlens => ?_) fun e he => hno hcomplete ?_)
      · refine does_bind (does_compute (fun bad' hbad' => ?_) fun e he => hno hcomplete ?_)
        · have hneeds := hdecides lens bad' hlens hbad'
          refine does_pure ?_
          by_cases hnil : bad' = []
          · rw [if_pos hnil]
            exact hsplice (by rw [hneeds, hnil]; rfl) h1 h2 alg
          · rw [if_neg hnil]
            exact hrewrite (by rw [hneeds, decide_eq_true hnil])
        · rintro ⟨lens', bad', hlens', hbad'⟩
          obtain rfl := Except.ok.inj (hlens.symm.trans hlens')
          rw [he] at hbad'
          cases hbad'
      · rintro ⟨lens', bad', hlens', -⟩
        rw [he] at hlens'
        cases hlens'
    · rename_i hcheck
      obtain rfl := Except.ok.inj hinsp
      have hoff : needsRewrite J.opts apk P cd = .ok false := by
        rw [needsRewrite]
        cases hz : J.opts.zipalign with
        | off => rfl
        | check => exact absurd hz hcheck
        | always => exact absurd hz hopts
      exact does_pure (hsplice hoff h1 h2 alg)
  · rintro (h1 | h1)
    · exact hbad (Or.inl h1)
    · exact hbad (Or.inr (Or.inl h1))

end Splice

/-! ### Signing -/

section SignStage

variable {R : Crypto} {Q : Chance → Prop} {bad : Prop} {w : World} {J : Job} {P : Parsed}
  {c : Content} {stage : Stage}

def Job.signWith (J : Job) (signer : Signer) (stage : Stage) : Prog (Bytes × Bytes) := do
  let seed2 : Nat ← Script.ask (Op.random 2)
  let seed3 : Nat ← Script.ask (Op.random 3)
  let block ← compute (signBlock J.opts signer (seed2, seed3) stage.digest)
  let eocd ← compute (finalEocd stage.layout block)
  pure (List.replicate stage.layout.pad 0 ++ block, eocd)

theorem Job.signStage_eq (guessed : Option Algorithm) : J.signStage P stage guessed
    = J.wait >>= fun signer =>
      if guessed.any (· ≠ signer.contentDigest) then
        J.digestLayout P signer.contentDigest [] >>= fun x => J.signWith signer x.1
      else J.signWith signer stage := rfl

theorem does_signWith {signer : Signer}
    (hlayout : stage.layout = c.layout P.sections.eocd)
    (hdigest : stage.digest = c.digest R signer.contentDigest P.sections.eocd)
    {post : Bytes × Bytes → World → Prop}
    (hok : ∀ seeds t, SeedsOf Q seeds →
      signTail R J.opts signer seeds P.sections.eocd c = .ok t → post t w)
    (hbad : ∀ seeds, SeedsOf Q seeds →
      (∀ t, signTail R J.opts signer seeds P.sections.eocd c ≠ .ok t) → bad) :
    Does (exec R) Q (J.signWith signer stage) post bad w := by
  rw [Job.signWith, hlayout, hdigest]
  refine does_bind (does_ask fun c2 h2 => does_bind (does_ask fun c3 h3 => ?_))
  have hseeds : SeedsOf Q (c2.seed 2, c3.seed 3) := ⟨c2, c3, h2, h3, rfl⟩
  have hbad' := hbad _ hseeds
  rw [exec, exec]
  simp only
  rw [signTail] at hbad'
  refine does_bind (does_compute (fun block hblock => ?_) fun e he => hbad' fun t ht => ?_)
  · rw [hblock, ok_bind] at hbad'
    refine does_bind (does_compute (fun eocd heocd => ?_) fun e he => hbad' fun t ht => ?_)
    · refine does_pure (hok _ _ hseeds ?_)
      rw [signTail, hblock, ok_bind, heocd, ok_bind]
    · rw [he] at ht
      cases ht
  · rw [he] at ht
    cases ht

/-- **The signature blocks of a content.**  A stage whose digest was taken with another algorithm
is taken again. -/
theorem does_signStage {guessed : Option Algorithm}
    (hlayout : stage.layout = c.layout P.sections.eocd)
    (hdigest : ∀ signer, J.key = some signer → guessed.any (· ≠ signer.contentDigest) = false →
      stage.digest = c.digest R signer.contentDigest P.sections.eocd)
    (hredo : ∀ signer, J.key = some signer → guessed.any (· ≠ signer.contentDigest) = true →
      Does (exec R) Q (J.digestLayout P signer.contentDigest []) (fun x w' => w' = w ∧
        x.1.layout = c.layout P.sections.eocd ∧
        x.1.digest = c.digest R signer.contentDigest P.sections.eocd) bad w)
    {post : Bytes × Bytes → World → Prop}
    (hok : ∀ signer seeds t, J.key = some signer → SeedsOf Q seeds →
      signTail R J.opts signer seeds P.sections.eocd c = .ok t → post t w)
    (hbad : ∀ seeds, SeedsOf Q seeds → (∀ signer t, J.key = some signer →
      signTail R J.opts signer seeds P.sections.eocd c ≠ .ok t) → bad)
    (hkey : J.key = none → bad) :
    Does (exec R) Q (J.signStage P stage guessed) post bad w := by
  rw [Job.signStage_eq]
  refine does_bind (does_wait (fun signer hsigner => ?_) hkey)
  have hno : ∀ seeds, SeedsOf Q seeds →
      (∀ t, signTail R J.opts signer seeds P.sections.eocd c ≠ .ok t) → bad := by
    intro seeds hseeds ht
    refine hbad seeds hseeds fun signer' t hsigner' => ?_
    obtain rfl := Option.some.inj (hsigner.symm.trans hsigner')
    exact ht t
  cases hany : guessed.any (· ≠ signer.contentDigest) with
  | true =>
    rw [if_pos rfl]
    refine does_bind (does_mono (hredo signer hsigner hany) (fun x w' hx => ?_) id)
    obtain ⟨rfl, hlayout', hdigest'⟩ := hx
    exact does_signWith hlayout' hdigest' (fun seeds t => hok signer seeds t hsigner) hno
  | false =>
    rw [if_neg (by decide)]
    exact does_signWith hlayout (hdigest signer hsigner hany)
      (fun seeds t => hok signer seeds t hsigner) hno

end SignStage

end FastSigner.Sign

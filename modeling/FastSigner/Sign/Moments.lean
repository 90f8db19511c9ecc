import FastSigner.Sign.Footprint

/-!
# On the way

What holds of the destination while `signOne` is running, and when it gives up.  Until
its commit a job works on the temporary file alone (`along_temp`, `commits_bind`), and the
commit puts a complete file in place.

* `along_signOne`: at every moment the destination is as it was, or complete.
* `commits_signOne`: until the commit it is as it was.
* `error_of_commit`: so it is after a commit that fails, unless the names were swapped and
  the old content could not be unlinked.
-/

namespace FastSigner.Sign

open Lib Zip Digest Align SigBlock Script

/-! ### At every moment -/

/-- The destination is as it was, or it is replaced by a complete file. -/
def Atomic (Good : Bytes → Prop) (dest : Path) (w₀ w : World) : Prop :=
  w.files dest = w₀.files dest ∨ ∃ F, Good F ∧ w.files dest = some F

section Moments

variable {R : Crypto} {Q : Chance → Prop} {J : Job} {w₀ w : World} {apk cd : Bytes} {P : Parsed}
  {Good : Bytes → Prop}

theorem atomic_step {V : List Path} {temp dest : Path} (hne : temp ≠ dest) {o : Op}
    (ho : o.Within V [temp]) (c : Chance) (h : Atomic Good dest w₀ w) :
    Atomic Good dest w₀ (exec R o c w).2 := by
  have hd : dest ∉ o.writes := fun hm => hne (List.mem_singleton.mp (ho.writes dest hm)).symm
  rw [Atomic, exec_spares hd]
  exact h

/-- As long as only the temporary file is written, nothing happens to the destination. -/
theorem along_temp {α : Type} {V : List Path} {temp dest : Path} (hne : temp ≠ dest) {p : Prog α}
    (hp : p.Calls (Op.Within V [temp])) (h : Atomic Good dest w₀ w) :
    Along (exec R) Q (Atomic Good dest w₀) p w :=
  along_of_calls (fun _ ho c _ _ hs => atomic_step hne ho c hs) hp h

theorem along_commit {temp dest : Path} (hne : temp ≠ dest) {F : Bytes} (hF : Good F)
    (htemp : w.files temp = some F) (h : Atomic Good dest w₀ w) :
    Along (exec R) Q (Atomic Good dest w₀) (commit temp dest) w := by
  have hremove : ∀ {err : IoError → Error} {w' : World}, Atomic Good dest w₀ w' →
      Along (exec R) Q (Atomic Good dest w₀) (fileOp (.remove temp) err) w' := fun hw' =>
    along_temp hne (V := [temp]) (calls_fileOp (within_remove (by simp) (by simp))) hw'
  refine along_onError (fun c s _ hs => atomic_step hne (V := [temp])
    (within_remove (by simp) (by simp)) c hs) ?_
  refine ⟨h, fun c _ => ?_⟩
  rw [show exec R (.file (.exchange temp dest)) c w = execFile (.exchange temp dest) c w from rfl]
  cases hx : (execFile (.exchange temp dest) c w).1 with
  | ok u =>
    obtain ⟨y, hy⟩ := exchange_ok htemp hx
    refine hremove (Or.inr ⟨F, hF, ?_⟩)
    rw [hy, files_set, if_pos rfl]
  | error e =>
    rw [exchange_error hx]
    refine ⟨h, fun c' _ => along_done ?_⟩
    rw [exec, execFile]
    cases c'.fail with
    | some e => exact h
    | none =>
      simp only [mayFail, htemp]
      exact Or.inr ⟨F, hF, by rw [files_set, if_pos rfl]⟩

theorem along_compute {α β : Type} {I : World → Prop} {r : Except Error α} {f : α → Prog β}
    (h : I w) (hf : ∀ a, r = .ok a → Along (exec R) Q I (f a) w) :
    Along (exec R) Q I (compute r >>= f) w := by
  cases r with
  | error e => exact h
  | ok a => exact hf a rfl

theorem calls_createTemp {V : List Path} (dest : Path) :
    (tempNextTo dest).Calls (Op.Within V [tempPath dest]) :=
  calls_bind (calls_fileOp ⟨fun _ hp => (by cases hp), fun _ hp => hp⟩) fun _ => trivial

/-- What is to be put in place. -/
def Signs (R : Crypto) (Q : Chance → Prop) (J : Job) (apk F : Bytes) : Prop :=
  ∃ k, Fate Q J k ∧ signSpec R J.opts J.key k apk = .ok F

theorem along_commitWritten (hw : Written R Q J apk w)
    (h : Atomic (Signs R Q J apk) J.dest w₀ w) :
    Along (exec R) Q (Atomic (Signs R Q J apk) J.dest w₀) (commit (tempPath J.dest) J.dest) w := by
  obtain ⟨k, F, hk, hspec, hF⟩ := hw
  exact along_commit (tempPath_ne _) ⟨k, hk, hspec⟩ hF h

theorem does_readyTemp (hready : Ready Q J apk w) :
    Does (exec R) Q (tempNextTo J.dest) (fun temp w' => temp = tempPath J.dest ∧ Ready Q J apk w' ∧
      Reads J apk (J.access w') w') (Quiet Q → True) w :=
  does_tempNextTo fun _ hw' => ⟨rfl, hready.create hw'⟩

theorem along_viaRewrite (hQ : ∃ c, Q c) (hparse : parseInput apk = .ok (P, cd))
    (hp : IsParsed apk P cd) (hready : Ready Q J apk w)
    (hneed : ∀ alg k c, rewriteContent R J.opts alg k apk P = .ok c →
      needsRewrite J.opts apk P cd = .ok true)
    (hno : needsRewrite J.opts apk P cd ≠ .ok false)
    (h : Atomic (Signs R Q J apk) J.dest w₀ w) :
    Along (exec R) Q (Atomic (Signs R Q J apk) J.dest w₀) (J.viaRewrite R P) w := by
  have hne := tempPath_ne J.dest
  rw [Job.viaRewrite_eq]
  refine along_bind (fun temp w₁ hpost h₁ => ?_)
    (along_temp (V := J.looksAt) hne (calls_createTemp _) h)
    (does_readyTemp hready)
  obtain ⟨rfl, hready₁, hr₁⟩ := hpost
  exact along_bind (fun _ w₂ hw₂ h₂ => along_commitWritten hw₂ h₂)
    (along_temp (V := J.looksAt) hne
      (calls_rewriteInto List.mem_cons_self (by simp [Job.looksAt]) List.mem_cons_self) h₁)
    (does_rewriteInto hQ hparse hp hready₁ hr₁ hneed hno)

theorem along_spliceTo (hQ : ∃ c, Q c) (hparse : parseInput apk = .ok (P, cd))
    (hp : IsParsed apk P cd) (hready : Ready Q J apk w) {out : Path} (hout : J.output = some out)
    (hopts : J.opts.zipalign ≠ .always) {inspector : Option LfhInspector}
    (hinsp : J.inspector P = .ok inspector) (h : Atomic (Signs R Q J apk) J.dest w₀ w) :
    Along (exec R) Q (Atomic (Signs R Q J apk) J.dest w₀)
      (J.spliceTo R P apk cd inspector out) w := by
  obtain rfl : out = J.dest := by rw [Job.dest, hout]; rfl
  have hne := tempPath_ne J.dest
  have hin : J.input ∈ J.looksAt := List.mem_cons_self
  have htemp : tempPath J.dest ∈ J.looksAt := by simp [Job.looksAt]
  have hself : tempPath J.dest ∈ [tempPath J.dest] := List.mem_cons_self
  rw [Job.spliceTo_eq]
  refine along_bind (fun temp w₁ hpost h₁ => ?_)
    (along_temp (V := J.looksAt) hne (calls_createTemp _) h)
    (does_readyTemp hready)
  obtain ⟨rfl, hready₁, hr₁⟩ := hpost
  refine along_bind (fun copied w₂ hcopied h₂ => ?_)
    (along_temp (V := J.looksAt) hne (calls_tryFile ⟨fun p hp => ?_, fun p hp => hp⟩) h₁)
    (@does_copyHead R Q w₁ J apk cd P True hp hready₁ hr₁)
  · have hstage : Does (exec R) Q (removeOnError (tempPath J.dest)
        (J.spliceStage P apk cd inspector)) (fun x w₃ => w₃ = w₂ ∧
          ((x = none ∧ needsRewrite J.opts apk P cd = .ok true) ∨
            ∃ alg, x = some (splicedStage R alg apk P cd, alg) ∧
              needsRewrite J.opts apk P cd = .ok false ∧
              (J.access w₂).look P.sections.entriesEnd = .ok () ∧
              (J.access w₂).look P.cd.mappedLen = .ok ())) True w₂ :=
      does_onError (does_spliceStage hp hcopied.reads hopts hinsp
        (fun hn h1 h2 alg => ⟨rfl, Or.inr ⟨alg, rfl, hn, h1, h2⟩⟩)
        (fun hn => ⟨rfl, Or.inl ⟨rfl, hn⟩⟩) fun _ => trivial)
    refine along_bind (fun x w₃ hpost h₃ => ?_)
      (along_temp (V := J.looksAt) hne
        (calls_onError (calls_spliceStage hin _ _ _) (within_remove htemp hself)) h₂) hstage
    obtain ⟨rfl, ⟨rfl, hneeds⟩ | ⟨alg, rfl, hneeds, h1, h2⟩⟩ := hpost
    · have hremove : Does (exec R) Q (tryFile (.remove (tempPath J.dest)))
          (fun _ w' => Ready Q J apk w') True w₃ := does_tryFile fun c _ => hcopied.ready.remove c
      refine along_bind (fun r w₄ hpost h₄ => ?_)
        (along_temp (V := J.looksAt) hne (calls_tryFile (within_remove htemp hself)) h₃) hremove
      exact along_viaRewrite hQ hparse hp hpost (fun _ _ _ _ => hneeds) (by rw [hneeds]; simp) h₄
    · exact along_bind (fun _ w₄ hw₄ h₄ => along_commitWritten hw₄ h₄)
        (along_temp (V := J.looksAt) hne (calls_spliceInto hin htemp hself _ _ _) h₃)
        (does_spliceInto hQ hparse hp hcopied hneeds h1 h2 alg)
  · rw [List.mem_singleton.mp hp]
    exact hin

/-- **With an output, the destination is replaced at once or not at all.** -/
theorem along_signOne {out : Path} (hout : J.output = some out) (hapk : w.content J.input = apk) :
    Along (exec R) Q (Atomic (Signs R Q J apk) J.dest w) (signOne R J) w := by
  have hne := tempPath_ne J.dest
  have hone : ∀ {p : Path}, p ∈ [J.input] → p ∈ J.looksAt := by
    intro p hp
    rw [List.mem_singleton.mp hp]
    exact List.mem_cons_self
  have hnone : ∀ {p : Path}, p ∈ ([] : List Path) → p ∈ [tempPath J.dest] := fun h => by cases h
  have hstart : Atomic (Signs R Q J apk) J.dest w w := Or.inl rfl
  rw [signOne]
  refine along_bind (fun _ w₁ hopen h₁ => ?_) (along_temp (V := J.looksAt) hne
    (calls_fileOp ⟨fun p => hone, fun p => hnone⟩) hstart) (@does_openFile R Q w J.input _ True)
  obtain ⟨rfl, -, hQ⟩ := hopen
  refine along_bind (fun n w₂ hmap h₂ => ?_) (along_temp (V := J.looksAt) hne
    ⟨⟨fun p => hone, fun p => hnone⟩, fun _ => trivial⟩ h₁) (does_mapInput hapk)
  obtain ⟨rfl, hlt, hready, hview⟩ := hmap
  have hlook : Does (exec R) Q (look J.input 0 apk.length) (fun b w' => b = apk ∧ w' = w₂) True
      w₂ := does_look (fun b hb => ⟨Option.some.inj (hb.symm.trans hview), rfl⟩) fun _ => trivial
  refine along_bind (fun b w₃ hb h₃ => ?_) (along_temp (V := J.looksAt) hne
    (calls_look List.mem_cons_self _ _) h₂) hlook
  obtain ⟨rfl, rfl⟩ := hb
  refine along_compute h₃ fun x hparse => ?_
  obtain ⟨P, cd⟩ := x
  have hp := isParsed_of_parseInput hlt hparse
  refine along_compute h₃ fun inspector hinsp => ?_
  -- the ways of `does_ways`
  by_cases halways : J.opts.zipalign = .always
  · have hneeds := @needsRewrite_always J b cd P halways
    rw [if_pos halways]
    exact along_viaRewrite hQ hparse hp hready (fun _ _ _ _ => hneeds) (by rw [hneeds]; simp) h₃
  · rw [if_neg halways]
    refine along_compute h₃ fun misaligned hm => ?_
    cases misaligned with
    | true =>
      obtain ⟨hno, hneeds⟩ := (needsRewrite_of_quick (J := J) hp).1 hm
      rw [if_pos rfl]
      exact along_viaRewrite hQ hparse hp hready
        (fun _ _ _ hc => hneeds (checkable_of_rewriteContent hp hc)) hno h₃
    | false =>
      rw [if_neg (by decide), hout]
      exact along_spliceTo hQ hparse hp hready hout halways hinsp h₃

/-! ### Up to the commit -/

/-- Until its commit, the script writes its temporary file alone, and leaves the destination as it
was. -/
def Commits (R : Crypto) (V : List Path) (dest : Path) (b : Option Bytes) (p : Prog Unit) (w : World) :
    Prop :=
  LeadsTo (exec R) (Op.Within V [tempPath dest]) (fun s => s.files dest = b)
    (commit (tempPath dest) dest) p w

section Commits

variable {dest : Path} {b : Option Bytes} {V : List Path}

theorem commits_commit (h : w.files dest = b) : Commits R V dest b (commit (tempPath dest) dest) w :=
  leadsTo_self _ h

/-- What only works on the temporary file leaves the destination to what follows. -/
theorem commits_bind {α : Type} {p : Prog α} {f : α → Prog Unit}
    (hp : p.Calls (Op.Within V [tempPath dest]))
    (hf : ∀ a s, s.files dest = b → Commits R V dest b (f a) s) (h : w.files dest = b) :
    Commits R V dest b (p >>= f) w := by
  refine leadsTo_bind (fun o ho c s hs => ?_) hf hp h
  rw [exec_spares fun hd => tempPath_ne dest (List.mem_singleton.mp (ho.writes dest hd)).symm]
  exact hs

theorem commits_tempNextTo_bind {f : Path → Prog Unit}
    (hf : ∀ s, s.files dest = b → Commits R V dest b (f (tempPath dest)) s) (h : w.files dest = b) :
    Commits R V dest b (tempNextTo dest >>= f) w := by
  refine ⟨h, Or.inr ⟨⟨fun _ hp => (by cases hp), fun _ hp => hp⟩, fun c => ?_⟩⟩
  have hkeep : (exec R (.file (.create (tempPath dest))) c w).2.files dest = b := by
    rw [exec_spares fun hd => tempPath_ne dest (List.mem_singleton.mp hd).symm]
    exact h
  cases (exec R (.file (.create (tempPath dest))) c w).1 with
  | ok u => exact hf _ hkeep
  | error e => exact hkeep

theorem commits_viaRewrite (h : w.files J.dest = b) : Commits R J.looksAt J.dest b (J.viaRewrite R P) w := by
  rw [Job.viaRewrite_eq]
  refine commits_tempNextTo_bind (fun s hs => ?_) h
  exact commits_bind
    (calls_rewriteInto List.mem_cons_self (by simp [Job.looksAt]) List.mem_cons_self)
    (fun _ _ => commits_commit) hs

theorem commits_spliceTo (inspector : Option LfhInspector) (h : w.files J.dest = b) :
    Commits R J.looksAt J.dest b (J.spliceTo R P apk cd inspector J.dest) w := by
  have hin : J.input ∈ J.looksAt := List.mem_cons_self
  have htemp : tempPath J.dest ∈ J.looksAt := by simp [Job.looksAt]
  have hself : tempPath J.dest ∈ [tempPath J.dest] := List.mem_cons_self
  rw [Job.spliceTo_eq]
  refine commits_tempNextTo_bind (fun s₁ h₁ => ?_) h
  refine commits_bind (calls_tryFile ⟨fun p hp => ?_, fun p hp => hp⟩)
    (fun copied s₂ h₂ => ?_) h₁
  · rw [List.mem_singleton.mp hp]
    exact hin
  refine commits_bind
    (calls_onError (calls_spliceStage hin _ _ _) (within_remove htemp hself))
    (fun x s₃ h₃ => ?_) h₂
  cases x with
  | none =>
    exact commits_bind (calls_tryFile (within_remove htemp hself))
      (fun _ _ => commits_viaRewrite) h₃
  | some x =>
    exact commits_bind (calls_spliceInto hin htemp hself _ _ _)
      (fun _ _ => commits_commit) h₃

/-- **With an output, nothing happens to the destination until the commit.** -/
theorem commits_signOne {out : Path} (hout : J.output = some out) :
    Commits R J.looksAt J.dest (w.files J.dest) (signOne R J) w := by
  obtain rfl : out = J.dest := by rw [Job.dest, hout]; rfl
  have hone : ∀ {p : Path}, p ∈ [J.input] → p ∈ J.looksAt := by
    intro p hp
    rw [List.mem_singleton.mp hp]
    exact List.mem_cons_self
  have hnone : ∀ {p : Path}, p ∈ ([] : List Path) → p ∈ [tempPath J.dest] := fun h => by cases h
  rw [signOne]
  refine commits_bind (calls_fileOp ⟨fun p => hone, fun p => hnone⟩)
    (fun _ s₁ h₁ => ?_) rfl
  refine commits_bind
    ⟨⟨fun p => hone, fun p => hnone⟩, fun _ => trivial⟩ (fun n s₂ h₂ => ?_) h₁
  refine commits_bind (calls_look List.mem_cons_self _ _)
    (fun apk s₃ h₃ => ?_) h₂
  refine commits_bind (calls_compute _) (fun x s₄ h₄ => ?_) h₃
  refine commits_bind (calls_compute _) (fun inspector s₅ h₅ => ?_) h₄
  by_cases halways : J.opts.zipalign = .always
  · rw [if_pos halways]
    exact commits_viaRewrite h₅
  · rw [if_neg halways]
    refine commits_bind (calls_compute _) (fun misaligned s₆ h₆ => ?_) h₅
    cases misaligned with
    | true => exact commits_viaRewrite h₆
    | false =>
      rw [if_neg (by decide), hout]
      exact commits_spliceTo inspector h₆

end Commits

/-! ### The commit -/

/-- The names were swapped, and the old content could not be unlinked. -/
def UnlinkFails (temp dest : Path) (h : List (Sigma Op.Res)) : Prop :=
  ∃ pre post e, h = pre ++ (⟨.file (.exchange temp dest), Except.ok ()⟩ ::
    ⟨.file (.remove temp), Except.error e⟩ :: post)

theorem rename_error {a b : Path} {c : Chance} {e : IoError}
    (h : (execFile (.rename a b) c w).1 = .error e) : (execFile (.rename a b) c w).2 = w := by
  rw [execFile] at h ⊢
  cases hf : c.fail with
  | some e' => rfl
  | none =>
    rw [hf] at h
    simp only [mayFail] at h ⊢
    split
    · rename_i hsome
      rw [hsome] at h
      cases h
    · rfl

/-- **A commit that fails leaves the destination as it was**, unless the names were swapped. -/
theorem error_of_commit {temp dest : Path} (hne : temp ≠ dest) {env : Nat → Chance} {e : Error}
    (h : (run (exec R) (commit temp dest) env w).1 = .error e) :
    (∃ io, e = .replace io) ∧ (UnlinkFails temp dest (history (exec R) (commit temp dest) env w) ∨
      (run (exec R) (commit temp dest) env w).2.files dest = w.files dest) := by
  have hremove : ∀ (c : Chance) (s : World),
      (exec R (.file (.remove temp)) c s).2.files dest = s.files dest := fun c s =>
    exec_spares fun hd => hne (List.mem_singleton.mp hd).symm
  have hwp : wp (logged (exec R)) (fun _ => True) (commit temp dest) (fun r x => ∀ e, r = .error e →
      (∃ io, e = .replace io) ∧ (UnlinkFails temp dest x.2 ∨ x.1.files dest = w.files dest))
      (w, []) := by
    refine wp_onError.mpr (wp_bind.mpr fun c _ => ?_)
    simp only [logged, List.nil_append]
    cases hx : (exec R (.file (.exchange temp dest)) c w).1 with
    | ok u =>
      refine fun c' _ => ?_
      simp only [logged]
      cases hy : (exec R (.file (.remove temp)) c' (exec R (.file (.exchange temp dest)) c w).2).1 with
      | ok u => exact fun e he => by cases he
      | error io =>
        refine fun c'' _ e he => ?_
        obtain rfl := Except.error.inj he
        exact ⟨⟨io, rfl⟩, Or.inl ⟨[], [_], io, rfl⟩⟩
    | error x =>
      rw [show (exec R (.file (.exchange temp dest)) c w).2 = w from exchange_error hx]
      refine fun c' _ => ?_
      simp only [logged]
      cases hy : (exec R (.file (.rename temp dest)) c' w).1 with
      | ok u => exact fun e he => by cases he
      | error io =>
        rw [show (exec R (.file (.rename temp dest)) c' w).2 = w from rename_error hy]
        refine fun c'' _ e he => ?_
        obtain rfl := Except.error.inj he
        exact ⟨⟨io, rfl⟩, Or.inr (hremove c'' w)⟩
  exact run_of_wp_logged hwp (fun _ => trivial) e h

theorem unlinkFails_pair {temp dest : Path} {x y : Sigma Op.Res} (h : UnlinkFails temp dest [x, y]) :
    x = ⟨.file (.exchange temp dest), Except.ok ()⟩ ∧
      ∃ e, y = ⟨.file (.remove temp), Except.error e⟩ := by
  obtain ⟨pre, post, e, heq⟩ := h
  have hlen := congrArg List.length heq
  rw [List.length_append] at hlen
  simp only [List.length_cons, List.length_nil] at hlen
  obtain rfl : pre = [] := List.length_eq_zero_iff.mp (by omega)
  obtain ⟨hx, hy⟩ := List.cons.inj heq
  exact ⟨hx, e, (List.cons.inj hy).1⟩

theorem not_unlinkFails_of_commit {temp dest : Path} {env : Nat → Chance}
    (h : (run (exec R) (commit temp dest) env w).1 = .ok ()) :
    ¬ UnlinkFails temp dest (history (exec R) (commit temp dest) env w) := by
  have hwp : wp (logged (exec R)) (fun _ => True) (commit temp dest)
      (fun r x => r = .ok () → ¬ UnlinkFails temp dest x.2) (w, []) := by
    refine wp_onError.mpr (wp_bind.mpr fun c _ => ?_)
    simp only [logged, List.nil_append]
    cases hx : (exec R (.file (.exchange temp dest)) c w).1 with
    | ok u =>
      refine fun c' _ => ?_
      simp only [logged]
      cases hy : (exec R (.file (.remove temp)) c' (exec R (.file (.exchange temp dest)) c w).2).1 with
      | ok u =>
        intro _ hfails
        obtain ⟨-, e, he⟩ := unlinkFails_pair hfails
        cases he
      | error io => exact fun _ _ he => by cases he
    | error x =>
      refine fun c' _ => ?_
      simp only [logged]
      cases hy : (exec R (.file (.rename temp dest)) c' (exec R (.file (.exchange temp dest)) c w).2).1 with
      | ok u =>
        intro _ hfails
        cases (unlinkFails_pair hfails).1
      | error io => exact fun _ _ he => by cases he
  exact run_of_wp_logged hwp (fun _ => trivial) h

end Moments

end FastSigner.Sign

import FastSigner.Sign.Outcome

/-!
# Which files a job touches

`Op.reads` and `Op.writes` are the files that an operation looks at and changes.
`calls_signOne` bounds what a job calls: it looks at its input, its destination and the
temporary file next to it, and changes the latter two.

* `exec_spares`: an operation leaves the other files as they are.
* `exec_agree`: and it does not depend on them.
-/

namespace FastSigner.Sign

open Lib Zip Digest Align SigBlock Script

/-! ### Operations -/

def FileOp.reads : FileOp → List Path
  | .openFile p | .remove p | .writeAt p _ _ | .setLen p _ => [p]
  | .create _ => []
  | .copyHead src _ _ => [src]
  | .exchange a b => [a, b]
  | .rename a _ => [a]

def FileOp.writes : FileOp → List Path
  | .openFile _ => []
  | .create p | .remove p | .writeAt p _ _ | .setLen p _ => [p]
  | .copyHead _ dst _ => [dst]
  | .exchange a b | .rename a b => [a, b]

def Op.reads : Op → List Path
  | .file o => o.reads
  | .map p | .mapped p _ _ => [p]
  | .rewrite q => [q.src, q.dst]
  | .digest _ _ _ _ | .keyLoaded | .random _ => []

def Op.writes : Op → List Path
  | .file o => o.writes
  | .rewrite q => [q.dst]
  | .map _ | .mapped _ _ _ | .digest _ _ _ _ | .keyLoaded | .random _ => []

/-- It looks at files of `V` only, and changes files of `W` only. -/
structure Op.Within (V W : List Path) (o : Op) : Prop where
  reads : ∀ p ∈ o.reads, p ∈ V
  writes : ∀ p ∈ o.writes, p ∈ W

/-- The worlds do not differ in the files of `V`. -/
structure Agree (V : List Path) (w w' : World) : Prop where
  copy : w.copy = w'.copy
  files : ∀ p ∈ V, w.files p = w'.files p

section Operations

variable {R : Crypto} {V W : List Path} {w w' : World} {c : Chance}

theorem Agree.set (h : Agree V w w') (p : Path) (b : Option Bytes) :
    Agree V (w.set p b) (w'.set p b) := by
  refine ⟨h.copy, fun q hq => ?_⟩
  rw [files_set, files_set, h.files q hq]

theorem Agree.content (h : Agree V w w') {p : Path} (hp : p ∈ V) :
    w.content p = w'.content p := by
  rw [World.content, World.content, h.files p hp]

theorem Agree.symm (h : Agree V w w') : Agree V w' w :=
  ⟨h.copy.symm, fun p hp => (h.files p hp).symm⟩

def SameStep {α : Type} (V : List Path) (x y : α × World) : Prop := x.1 = y.1 ∧ Agree V x.2 y.2

theorem sameStep_mayFail {f : World → Except IoError Unit × World} {fail : Option IoError}
    (h : Agree V w w') (hf : SameStep V (f w) (f w')) :
    SameStep V (mayFail fail w f) (mayFail fail w' f) := by
  cases fail with
  | some e => exact ⟨rfl, h⟩
  | none => exact hf

theorem execFile_agree {o : FileOp} (ho : ∀ p ∈ o.reads, p ∈ V) (h : Agree V w w') :
    SameStep V (execFile o c w) (execFile o c w') := by
  cases o with
  | openFile p =>
    refine sameStep_mayFail h ?_
    rw [h.files p (ho p List.mem_cons_self)]
    split
    · exact ⟨rfl, h⟩
    · exact ⟨rfl, h⟩
  | create p => exact sameStep_mayFail h ⟨rfl, h.set p _⟩
  | remove p =>
    refine sameStep_mayFail h ?_
    rw [h.files p (ho p List.mem_cons_self)]
    split
    · exact ⟨rfl, h.set p _⟩
    · exact ⟨rfl, h⟩
  | copyHead src dst n =>
    rw [execFile, execFile, execCopyHead, execCopyHead, h.content (ho src List.mem_cons_self)]
    cases c.fail with
    | some e => exact ⟨rfl, h.set dst _⟩
    | none => exact ⟨rfl, h.set dst _⟩
  | writeAt p off d =>
    rw [execFile, execFile, execWriteAt, execWriteAt, h.content (ho p List.mem_cons_self)]
    split
    · exact ⟨rfl, h⟩
    · cases c.fail with
      | some e => exact ⟨rfl, h.set p _⟩
      | none => exact ⟨rfl, h.set p _⟩
  | setLen p n =>
    refine sameStep_mayFail h ?_
    rw [h.content (ho p List.mem_cons_self)]
    exact ⟨rfl, h.set p _⟩
  | exchange a b =>
    refine sameStep_mayFail h ?_
    rw [h.files a (ho a List.mem_cons_self), h.files b (ho b (by simp [FileOp.reads]))]
    split
    · exact ⟨rfl, (h.set a _).set b _⟩
    · exact ⟨rfl, h⟩
  | rename a b =>
    refine sameStep_mayFail h ?_
    rw [h.files a (ho a List.mem_cons_self)]
    split
    · exact ⟨rfl, (h.set a _).set b _⟩
    · exact ⟨rfl, h⟩

/-- **An operation depends on nothing but the files that it looks at.** -/
theorem exec_agree {o : Op} (ho : ∀ p ∈ o.reads, p ∈ V) (h : Agree V w w') :
    SameStep V (exec R o c w) (exec R o c w') := by
  cases o with
  | file o => exact execFile_agree ho h
  | map p =>
    rw [exec, exec, execMap, execMap, h.content (ho p List.mem_cons_self)]
    split
    · exact ⟨rfl, h⟩
    · cases c.fail with
      | none => exact ⟨rfl, rfl, h.files⟩
      | some e =>
        simp only
        split
        · exact ⟨rfl, h⟩
        · exact ⟨rfl, rfl, h.files⟩
  | mapped p off len =>
    refine ⟨?_, h⟩
    rw [exec, exec, World.mapped, World.mapped, World.view, World.view, h.copy,
      h.content (ho p List.mem_cons_self)]
  | rewrite q =>
    rw [exec, exec, execRewrite, execRewrite, h.content (ho q.src List.mem_cons_self),
      h.content (ho q.dst (by simp [Op.reads]))]
    exact ⟨rfl, h.set q.dst _⟩
  | digest sources order alg threads => exact ⟨rfl, h⟩
  | keyLoaded => exact ⟨rfl, h⟩
  | random version => exact ⟨rfl, h⟩

theorem files_set_of_ne {p q : Path} {b : Option Bytes} (h : p ≠ q) :
    (w.set q b).files p = w.files p := by rw [files_set, if_neg h]

theorem mayFail_spares {f : World → Except IoError Unit × World} {fail : Option IoError} {p : Path}
    (hf : (f w).2.files p = w.files p) : (mayFail fail w f).2.files p = w.files p := by
  cases fail with
  | some e => rfl
  | none => exact hf

/-- **An operation changes nothing but the files that it writes.** -/
theorem exec_spares {o : Op} {p : Path} (hp : p ∉ o.writes) :
    (exec R o c w).2.files p = w.files p := by
  cases o with
  | file o =>
    rw [exec]
    cases o with
    | openFile q =>
      refine mayFail_spares ?_
      split
      · rfl
      · rfl
    | create q => exact mayFail_spares (files_set_of_ne (List.ne_of_not_mem_cons hp))
    | remove q =>
      refine mayFail_spares ?_
      split
      · exact files_set_of_ne (List.ne_of_not_mem_cons hp)
      · rfl
    | copyHead src dst n =>
      rw [execFile, execCopyHead]
      cases c.fail with
      | some e => exact files_set_of_ne (List.ne_of_not_mem_cons hp)
      | none => exact files_set_of_ne (List.ne_of_not_mem_cons hp)
    | writeAt q off d =>
      rw [execFile, execWriteAt]
      split
      · rfl
      · cases c.fail with
        | some e => exact files_set_of_ne (List.ne_of_not_mem_cons hp)
        | none => exact files_set_of_ne (List.ne_of_not_mem_cons hp)
    | setLen q n => exact mayFail_spares (files_set_of_ne (List.ne_of_not_mem_cons hp))
    | exchange a b =>
      refine mayFail_spares ?_
      have hb : p ≠ b := List.ne_of_not_mem_cons (List.not_mem_of_not_mem_cons hp)
      split
      · exact (files_set_of_ne hb).trans (files_set_of_ne (List.ne_of_not_mem_cons hp))
      · rfl
    | rename a b =>
      refine mayFail_spares ?_
      have hb : p ≠ b := List.ne_of_not_mem_cons (List.not_mem_of_not_mem_cons hp)
      split
      · exact (files_set_of_ne hb).trans (files_set_of_ne (List.ne_of_not_mem_cons hp))
      · rfl
  | map q =>
    rw [exec, execMap]
    split
    · rfl
    · cases c.fail with
      | none => rfl
      | some e =>
        simp only
        split
        · rfl
        · rfl
  | mapped q off len => rfl
  | rewrite q => exact files_set_of_ne (List.ne_of_not_mem_cons hp)
  | digest sources order alg threads => rfl
  | keyLoaded => rfl
  | random version => rfl

end Operations

/-! ### The operations of a job -/

section Calls

variable {R : Crypto} {V W : List Path} {J : Job} {P : Parsed}

theorem calls_compute {α : Type} (r : Except Error α) : (compute r).Calls (Op.Within V W) := trivial

theorem calls_fileOp {o : FileOp} {err : IoError → Error} (h : (Op.file o).Within V W) :
    (fileOp o err).Calls (Op.Within V W) := ⟨h, fun _ => trivial⟩

theorem calls_tryFile {o : FileOp} (h : (Op.file o).Within V W) :
    (tryFile o).Calls (Op.Within V W) := ⟨h, fun _ => trivial⟩

theorem calls_ask {o : Op} (h : o.Within V W) :
    (Script.ask o : Prog o.Res).Calls (Op.Within V W) := ⟨h, fun _ => trivial⟩

theorem within_nil {o : Op} (hr : o.reads = []) (hw : o.writes = []) : o.Within V W :=
  ⟨fun _ hp => (by rw [hr] at hp; cases hp), fun _ hp => (by rw [hw] at hp; cases hp)⟩

theorem calls_look {p : Path} (hp : p ∈ V) (off len : Nat) :
    (look p off len).Calls (Op.Within V W) := by
  refine ⟨⟨fun q hq => ?_, fun q hq => (by cases hq)⟩, fun _ => trivial⟩
  rw [List.mem_singleton.mp hq]
  exact hp

theorem calls_partLook (hin : J.input ∈ V) (part : Part) :
    (part.look J.input).Calls (Op.Within V W) := by
  cases part with
  | owned b => trivial
  | mapped off len => exact calls_look hin off len

theorem within_file {o : FileOp} {p : Path} (hr : ∀ q ∈ o.reads, q = p) (hw : ∀ q ∈ o.writes, q = p)
    (hV : p ∈ V) (hW : p ∈ W) : (Op.file o).Within V W :=
  ⟨fun q hq => hr q hq ▸ hV, fun q hq => hw q hq ▸ hW⟩

theorem within_remove {p : Path} (hV : p ∈ V) (hW : p ∈ W) : (Op.file (.remove p)).Within V W :=
  within_file (fun _ h => List.mem_singleton.mp h) (fun _ h => List.mem_singleton.mp h) hV hW

theorem calls_writeTail {f : Path} (hin : J.input ∈ V) (hV : f ∈ V) (hW : f ∈ W) :
    ∀ (parts : List Part) (off : Nat), (J.writeTail f off parts).Calls (Op.Within V W) := by
  intro parts
  induction parts with
  | nil => intro off; trivial
  | cons part parts ih =>
    intro off
    rw [Job.writeTail]
    refine calls_bind (calls_partLook hin part) fun b => calls_bind (calls_fileOp ?_) fun _ => ih _
    exact within_file (fun _ h => List.mem_singleton.mp h) (fun _ h => List.mem_singleton.mp h)
      hV hW

theorem calls_tempNextTo {β : Type} {dest : Path} (hW : tempPath dest ∈ W) {f : Path → Prog β}
    (hf : (f (tempPath dest)).Calls (Op.Within V W)) :
    (tempNextTo dest >>= f).Calls (Op.Within V W) := by
  refine ⟨⟨fun p hp => (by cases hp), fun p hp => ?_⟩, fun r => ?_⟩
  · rw [List.mem_singleton.mp hp]
    exact hW
  · cases r with
    | error e => trivial
    | ok u => exact hf

theorem calls_commit {temp dest : Path} (hV : temp ∈ V) (hVd : dest ∈ V) (hW : temp ∈ W)
    (hWd : dest ∈ W) : (commit temp dest).Calls (Op.Within V W) := by
  have hpair : ∀ {X : List Path} {p : Path}, temp ∈ X → dest ∈ X → p ∈ [temp, dest] → p ∈ X := by
    intro X p ht hd hp
    rcases List.mem_cons.mp hp with rfl | hp
    · exact ht
    · rw [List.mem_singleton.mp hp]
      exact hd
  rw [commit]
  refine calls_onError (calls_bind (calls_tryFile
    ⟨fun p => hpair hV hVd, fun p => hpair hW hWd⟩) fun r => ?_) (within_remove hV hW)
  cases r with
  | ok u => exact calls_fileOp (within_remove hV hW)
  | error e =>
    refine calls_fileOp ⟨fun p hp => ?_, fun p => hpair hW hWd⟩
    rw [List.mem_singleton.mp hp]
    exact hV

theorem calls_wait : J.wait.Calls (Op.Within V W) := calls_compute _

theorem calls_digestLayout (hin : J.input ∈ V) (alg : Algorithm) (order : List (CdEntry × Nat)) :
    (J.digestLayout P alg order).Calls (Op.Within V W) := by
  rw [Job.digestLayout]
  exact calls_bind (calls_look hin _ _) fun _ => calls_bind (calls_partLook hin _) fun _ =>
    calls_bind (calls_ask (within_nil rfl rfl)) fun _ => trivial

theorem calls_signStage (hin : J.input ∈ V) (stage : Stage) (guessed : Option Algorithm) :
    (J.signStage P stage guessed).Calls (Op.Within V W) := by
  have hsign : ∀ signer stage, (J.signWith signer stage).Calls (Op.Within V W) :=
    fun signer stage => calls_bind (calls_ask (within_nil rfl rfl)) fun _ =>
      calls_bind (calls_ask (within_nil rfl rfl)) fun _ => calls_bind (calls_compute _) fun _ =>
        calls_bind (calls_compute _) fun _ => trivial
  rw [Job.signStage_eq]
  refine calls_bind calls_wait fun signer => ?_
  split
  · exact calls_bind (calls_digestLayout hin _ _) fun _ => hsign _ _
  · exact hsign _ _

theorem calls_rewriteInto {temp : Path} (hin : J.input ∈ V) (hV : temp ∈ V) (hW : temp ∈ W) :
    (J.rewriteInto R P temp).Calls (Op.Within V W) := by
  have hrewrite : (J.rewrittenStage R P.sections temp).Calls (Op.Within V W) := by
    rw [Job.rewrittenStage, Job.rewrite]
    refine calls_bind (calls_bind calls_wait fun signer => calls_bind (calls_look hin _ _) fun _ =>
      calls_bind (calls_compute _) fun x => calls_bind ⟨⟨fun p hp => ?_, fun p hp => ?_⟩,
        fun _ => trivial⟩ fun _ => trivial) fun _ => trivial
    · rcases List.mem_cons.mp hp with rfl | hp
      · exact hin
      · rw [List.mem_singleton.mp hp]
        exact hV
    · rw [List.mem_singleton.mp hp]
      exact hW
  refine calls_onError (calls_bind hrewrite fun stage => calls_bind (calls_signStage hin _ _)
    fun x => calls_bind (calls_writeTail hin hV hW _ _) fun _ => calls_fileOp ?_)
    (within_remove hV hW)
  exact within_file (fun _ h => List.mem_singleton.mp h) (fun _ h => List.mem_singleton.mp h) hV hW

theorem calls_spliceStage (hin : J.input ∈ V) (apk cd : Bytes) (inspector : Option LfhInspector) :
    (J.spliceStage P apk cd inspector).Calls (Op.Within V W) := by
  rw [Job.spliceStage]
  refine calls_bind (calls_bind (calls_ask (within_nil rfl rfl)) fun _ => trivial) fun alg =>
    calls_bind (calls_digestLayout hin _ _) fun x => ?_
  cases inspector with
  | none => trivial
  | some insp =>
    exact calls_bind (calls_compute _) fun _ => calls_bind (calls_compute _) fun _ => trivial

theorem calls_spliceInto {temp : Path} (hin : J.input ∈ V) (hV : temp ∈ V) (hW : temp ∈ W)
    (copied : Except IoError Unit) (stage : Stage) (alg : Algorithm) :
    (J.spliceInto P copied temp stage alg).Calls (Op.Within V W) :=
  calls_onError (calls_bind (calls_signStage hin _ _) fun _ => calls_bind (calls_compute _)
    fun _ => calls_writeTail hin hV hW _ _) (within_remove hV hW)

theorem calls_writeInPlace (hin : J.input ∈ V) (hW : J.input ∈ W) (stage : Stage)
    (block eocd : Bytes) : (J.writeInPlace P stage block eocd).Calls (Op.Within V W) := by
  have hset : ∀ n, (if n ≠ P.sections.fileLen then fileOp (.setLen J.input n) .truncate
      else pure ()).Calls (Op.Within V W) := by
    intro n
    split
    · exact calls_fileOp (within_file (fun _ h => List.mem_singleton.mp h)
        (fun _ h => List.mem_singleton.mp h) hin hW)
    · trivial
  have hall : ∀ (x : Bool) n, (if x = true then J.writeTail J.input stage.entriesEnd [.owned block]
        >>= fun _ => if n ≠ P.sections.fileLen then fileOp (.setLen J.input n) .truncate
          else pure ()
      else stage.cd.look J.input >>= fun cd =>
        J.writeTail J.input stage.entriesEnd [.owned block, .owned cd, .owned eocd] >>= fun _ =>
          if n ≠ P.sections.fileLen then fileOp (.setLen J.input n) .truncate
            else pure ()).Calls (Op.Within V W) := by
    intro x n
    split
    · exact calls_bind (calls_writeTail hin hin hW _ _) fun _ => hset n
    · exact calls_bind (calls_partLook hin _) fun _ =>
        calls_bind (calls_writeTail hin hin hW _ _) fun _ => hset n
  rw [Job.writeInPlace]
  simp only
  generalize hn : stage.entriesEnd + (block.length + (stage.cd.len + eocd.length)) = n
  by_cases hsame : n = P.sections.fileLen
  · rw [if_pos hsame]
    exact calls_bind (calls_partLook hin _) fun _ => calls_bind (calls_look hin _ _) fun _ =>
      calls_bind (calls_look hin _ _) fun _ => calls_bind trivial fun x => hall x n
  · rw [if_neg hsame]
    exact calls_bind trivial fun x => hall x n

def Job.looksAt (J : Job) : List Path := [J.input, J.dest, tempPath J.dest]

def Job.changes (J : Job) : List Path := [J.dest, tempPath J.dest]

theorem calls_viaRewrite (hin : J.input ∈ V) (hV : tempPath J.dest ∈ V) (hVd : J.dest ∈ V)
    (hW : tempPath J.dest ∈ W) (hWd : J.dest ∈ W) :
    (J.viaRewrite R P).Calls (Op.Within V W) := by
  rw [Job.viaRewrite_eq]
  exact calls_tempNextTo hW (calls_bind (calls_rewriteInto hin hV hW) fun _ =>
    calls_commit hV hVd hW hWd)

theorem calls_spliceTo {apk cd : Bytes} (inspector : Option LfhInspector) (hin : J.input ∈ V)
    (hV : tempPath J.dest ∈ V) (hVd : J.dest ∈ V) (hW : tempPath J.dest ∈ W) (hWd : J.dest ∈ W) :
    (J.spliceTo R P apk cd inspector J.dest).Calls (Op.Within V W) := by
  rw [Job.spliceTo_eq]
  refine calls_tempNextTo hW (calls_bind (calls_tryFile ⟨fun p hp => ?_, fun p hp => ?_⟩)
    fun copied => calls_bind (calls_onError (calls_spliceStage hin _ _ _) (within_remove hV hW))
    fun x => ?_)
  · rw [List.mem_singleton.mp hp]
    exact hin
  · rw [List.mem_singleton.mp hp]
    exact hW
  · cases x with
    | none => exact calls_bind (calls_tryFile (within_remove hV hW)) fun _ =>
        calls_viaRewrite hin hV hVd hW hWd
    | some x => exact calls_bind (calls_spliceInto hin hV hW _ _ _) fun _ =>
        calls_commit hV hVd hW hWd

theorem calls_spliceInPlace {apk cd : Bytes} (inspector : Option LfhInspector) (hin : J.input ∈ V)
    (hV : tempPath J.dest ∈ V) (hVd : J.dest ∈ V) (hW : tempPath J.dest ∈ W) (hWd : J.dest ∈ W)
    (hWin : J.input ∈ W) : (J.spliceInPlace R P apk cd inspector).Calls (Op.Within V W) := by
  rw [Job.spliceInPlace]
  refine calls_bind (calls_spliceStage hin _ _ _) fun x => ?_
  cases x with
  | none => exact calls_viaRewrite hin hV hVd hW hWd
  | some x => exact calls_bind (calls_signStage hin _ _) fun _ =>
      calls_writeInPlace hin hWin _ _ _

/-- **What a job touches**: it looks at its input, its destination and the temporary file, and
changes the latter two. -/
theorem calls_signOne (R : Crypto) (J : Job) :
    (signOne R J).Calls (Op.Within J.looksAt J.changes) := by
  have hin : J.input ∈ J.looksAt := List.mem_cons_self
  have hVd : J.dest ∈ J.looksAt := by simp [Job.looksAt]
  have hV : tempPath J.dest ∈ J.looksAt := by simp [Job.looksAt]
  have hWd : J.dest ∈ J.changes := List.mem_cons_self
  have hW : tempPath J.dest ∈ J.changes := by simp [Job.changes]
  have hnone : ∀ {p : Path}, p ∈ ([] : List Path) → p ∈ J.changes := fun h => by cases h
  have hone : ∀ {p : Path}, p ∈ [J.input] → p ∈ J.looksAt := by
    intro p hp
    rw [List.mem_singleton.mp hp]
    exact hin
  rw [signOne]
  refine calls_bind (calls_fileOp ⟨fun p => hone, fun p => hnone⟩) fun _ =>
    calls_bind ⟨⟨fun p => hone, fun p => hnone⟩, fun _ => trivial⟩ fun len =>
      calls_bind (calls_look hin _ _) fun apk => calls_bind (calls_compute _) fun x =>
        calls_bind (calls_compute _) fun inspector => ?_
  split
  · exact calls_viaRewrite hin hV hVd hW hWd
  · refine calls_bind (calls_compute _) fun misaligned => ?_
    split
    · exact calls_viaRewrite hin hV hVd hW hWd
    · cases hout : J.output with
      | none =>
        have hdest : J.dest = J.input := by rw [Job.dest, hout]; rfl
        exact calls_spliceInPlace inspector hin hV hVd hW hWd (hdest ▸ hWd)
      | some out =>
        obtain rfl : out = J.dest := by rw [Job.dest, hout]; rfl
        exact calls_spliceTo inspector hin hV hVd hW hWd

/-! ### Without a key -/

theorem never_signStage (hkey : J.key = none) (stage : Stage) (guessed : Option Algorithm) :
    (J.signStage P stage guessed).Never := by
  rw [Job.signStage_eq, Job.wait, hkey]
  trivial

theorem never_rewriteInto (hkey : J.key = none) (temp : Path) : (J.rewriteInto R P temp).Never := by
  refine Never.onError (Never.bind ?_ _) _
  rw [Job.rewrittenStage, Job.rewrite, Job.wait, hkey]
  trivial

theorem never_spliceInto (hkey : J.key = none) (copied : Except IoError Unit) (temp : Path)
    (stage : Stage) (alg : Algorithm) : (J.spliceInto P copied temp stage alg).Never :=
  Never.onError (Never.bind (never_signStage hkey stage (some alg)) _) _

theorem calls_viaRewrite_keyless (hkey : J.key = none) :
    (J.viaRewrite R P).Calls (Op.Within J.looksAt [tempPath J.dest]) := by
  rw [Job.viaRewrite_eq]
  exact calls_tempNextTo List.mem_cons_self (calls_bind_never
    (calls_rewriteInto List.mem_cons_self (by simp [Job.looksAt]) List.mem_cons_self)
    (never_rewriteInto hkey _))

theorem calls_spliceTo_keyless {apk cd : Bytes} (inspector : Option LfhInspector)
    (hkey : J.key = none) : (J.spliceTo R P apk cd inspector J.dest).Calls
      (Op.Within J.looksAt [tempPath J.dest]) := by
  have hin : J.input ∈ J.looksAt := List.mem_cons_self
  have hV : tempPath J.dest ∈ J.looksAt := by simp [Job.looksAt]
  have hW : tempPath J.dest ∈ [tempPath J.dest] := List.mem_cons_self
  rw [Job.spliceTo_eq]
  refine calls_tempNextTo hW (calls_bind (calls_tryFile ⟨fun p hp => ?_, fun p hp => ?_⟩)
    fun copied => calls_bind (calls_onError (calls_spliceStage hin _ _ _) (within_remove hV hW))
    fun x => ?_)
  · rw [List.mem_singleton.mp hp]
    exact hin
  · rw [List.mem_singleton.mp hp]
    exact hW
  · cases x with
    | none => exact calls_bind (calls_tryFile (within_remove hV hW)) fun _ =>
        calls_viaRewrite_keyless hkey
    | some x =>
      exact calls_bind_never (calls_spliceInto hin hV hW _ _ _) (never_spliceInto hkey _ _ _ _)

/-- **Without a key a job changes nothing but its temporary file.** -/
theorem calls_signOne_keyless (hkey : J.key = none) :
    (signOne R J).Calls (Op.Within J.looksAt [tempPath J.dest]) := by
  have hnone : ∀ {p : Path}, p ∈ ([] : List Path) → p ∈ [tempPath J.dest] := fun h => by cases h
  have hone : ∀ {p : Path}, p ∈ [J.input] → p ∈ J.looksAt := by
    intro p hp
    rw [List.mem_singleton.mp hp]
    exact List.mem_cons_self
  rw [signOne]
  refine calls_bind (calls_fileOp ⟨fun p => hone, fun p => hnone⟩) fun _ =>
    calls_bind ⟨⟨fun p => hone, fun p => hnone⟩, fun _ => trivial⟩ fun len =>
      calls_bind (calls_look List.mem_cons_self _ _) fun apk => calls_bind (calls_compute _) fun x =>
        calls_bind (calls_compute _) fun inspector => ?_
  split
  · exact calls_viaRewrite_keyless hkey
  · refine calls_bind (calls_compute _) fun misaligned => ?_
    split
    · exact calls_viaRewrite_keyless hkey
    · cases hout : J.output with
      | none =>
        rw [Job.spliceInPlace]
        refine calls_bind (calls_spliceStage List.mem_cons_self _ _ _) fun x => ?_
        cases x with
        | none => exact calls_viaRewrite_keyless hkey
        | some x =>
          exact calls_bind_never (calls_signStage List.mem_cons_self _ _) (never_signStage hkey _ _)
      | some out =>
        obtain rfl : out = J.dest := by rw [Job.dest, hout]; rfl
        exact calls_spliceTo_keyless inspector hkey

end Calls

end FastSigner.Sign

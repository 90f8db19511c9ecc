import FastSigner.Lib.Script
import FastSigner.Lib.Utf8
import FastSigner.Align.Inspect
import FastSigner.Sign
import Mathlib.Logic.Function.Basic

/-!
# Files, and what may happen to them

Signing is a script over the operations of `Op`: opening, mapping, copying and
writing files, the parallel digest and the rewrite, and the moment at which the
key is looked at.  `exec` says what an operation does to the files, given a
`Chance`: which calls fail and how far they came, how the threads are scheduled,
whether the key is loaded yet.

The input is mapped and the mapping shares the file's bytes: `mapped` looks at
them as they are now, not as they were when the file was opened.
-/

namespace FastSigner.Sign

open Lib Zip Digest Align

/-! ### Paths -/

inductive Component
  | root
  | cur
  | parent
  | normal (name : Bytes)
  deriving DecidableEq, Repr

abbrev Path := List Component

def Path.fileName (p : Path) : Option Bytes :=
  match p.getLast? with
  | some (.normal name) => some name
  | _ => none

def Path.withFileName (p : Path) (name : Bytes) : Path :=
  (if p.fileName.isSome then p.dropLast else p) ++ [.normal name]

def Path.join (dir : Path) (name : Bytes) : Path := dir ++ [.normal name]

/-- The temporary file next to a destination. -/
def tempPath (dest : Path) : Path :=
  let name := (dest.fileName.map fromUtf8Lossy).getD ""
  dest.withFileName (ascii "." ++ utf8 name ++ ascii ".fastsigner-tmp")

theorem tempPath_ne (dest : Path) : tempPath dest ≠ dest := by
  rw [tempPath, Path.withFileName]
  cases hname : dest.fileName with
  | none =>
    intro h
    have hlen := congrArg List.length h
    simp at hlen
  | some name =>
    rw [Path.fileName] at hname
    split at hname
    · rename_i name' hlast
      obtain rfl := Option.some.inj hname
      have hdest := List.dropLast_append_getLast? (Component.normal name') hlast
      intro h
      rw [← hdest, Option.isSome_some, if_pos rfl, List.dropLast_concat] at h
      have hname := List.append_cancel_left h
      simp only [Option.map_some, Option.getD_some, List.cons.injEq, Component.normal.injEq,
        and_true] at hname
      have hlen := congrArg List.length hname
      have hle := length_le_utf8_lossy name'
      have h1 : (ascii ".").length = 1 := by decide
      simp only [List.length_append, h1] at hlen
      omega
    · cases hname

/-! ### Operations -/

/-- A call of `align::rewrite`, from the file `src` into the file `dst`. -/
structure RewriteCall where
  src : Path
  dst : Path
  cd : Bytes
  entries : List CdEntry
  policies : List EntryPolicy
  entriesEnd : Nat
  libPageSize : Nat
  threads : Nat
  alg : Algorithm

/-- The calls on files that succeed or fail. -/
inductive FileOp
  | openFile (p : Path)
  | create (p : Path) -- Open for writing, created or truncated.
  | remove (p : Path)
  | copyHead (src dst : Path) (n : Nat) -- Copy the first `n` bytes.
  | writeAt (p : Path) (off : Nat) (d : Bytes)
  | setLen (p : Path) (n : Nat)
  | exchange (a b : Path)
  | rename (a b : Path)

inductive Op
  | file (o : FileOp)
  | map (p : Path) -- Map the file; the answer is its length.
  | mapped (p : Path) (off len : Nat) -- Look at `len` bytes of the mapping at `off`.
  | rewrite (call : RewriteCall)
  -- The content digest, and what the inspector noted on the way; `order` is the inspector's.
  | digest (sources : List Source) (order : List (CdEntry × Nat)) (alg : Algorithm) (threads : Nat)
  | keyLoaded -- Whether the key is loaded by now.
  | random (version : Nat) -- The random numbers for the signature of a scheme.

abbrev Op.Res : Op → Type
  | .file _ => Except IoError Unit
  | .map _ => Except IoError Nat
  | .mapped _ _ _ => Option Bytes
  | .rewrite _ => Except Error Rewritten
  | .digest _ _ _ _ => Bytes × List Note
  | .keyLoaded => Bool
  | .random _ => Nat

/-- The files, and the bytes of the input if it could not be mapped and was read instead. -/
structure World where
  files : Path → Option Bytes
  copy : Option Bytes

def World.set (w : World) (p : Path) (b : Option Bytes) : World :=
  { w with files := Function.update w.files p b }

/-- What a handle on the file reads. -/
def World.content (w : World) (p : Path) : Bytes := (w.files p).getD []

/-- What the program does not control about one operation. -/
structure Chance where
  fail : Option IoError -- The operation fails.
  done : Nat -- How much a copy or a write that fails has done.
  loaded : Bool
  sched : Schedule
  shuffle : List Note → List Note -- The order in which the inspector's updates are made.
  shuffle_perm : ∀ notes, (shuffle notes).Perm notes
  reads : (off n : Nat) → Option IoError -- Reads of the input that fail.
  rewrite : RewriteEnv
  seed : (version : Nat) → Nat

structure Chance.Calm (c : Chance) : Prop where
  fail : c.fail = none
  reads : c.reads = fun _ _ => none
  rewrite : c.rewrite.Calm

/-! ### What they do -/

/-- An operation on the files that does `f` unless it fails. -/
def mayFail (fail : Option IoError) (w : World) (f : World → Except IoError Unit × World) :
    Except IoError Unit × World :=
  match fail with
  | some e => (.error e, w)
  | none => f w

def World.view (w : World) (p : Path) : Bytes := w.copy.getD (w.content p)

/-- A range of the mapping.  A range that the file has lost cannot be looked at. -/
def World.mapped (w : World) (p : Path) (off len : Nat) : Option Bytes :=
  if len = 0 ∨ off + len ≤ (w.view p).length then some (slice (w.view p) off (off + len)) else none

def RewriteCall.archive (q : RewriteCall) (content : Bytes) (reads : (off n : Nat) → Option IoError) :
    Archive where
  input := ReadAt.faulty content reads
  cd := q.cd
  entries := q.entries
  policies := q.policies
  entriesEnd := q.entriesEnd
  libPageSize := q.libPageSize

/-- What the copying threads read.  Should the input be the output, that is what `set_len` made
of it. -/
def RewriteCall.source (q : RewriteCall) (A : Archive) (content : Bytes) : Bytes :=
  if q.src = q.dst then
    match planAll A with
    | .ok (plans, _) => Lib.setLen content (newEnd plans)
    | .error _ => content
  else content

def execRewrite (R : Crypto) (q : RewriteCall) (c : Chance) (w : World) :
    Except Error Rewritten × World :=
  let A := q.archive (w.content q.src) c.reads
  let run := rewrite R q.alg (q.source A (w.content q.src)) A q.threads c.rewrite (w.content q.dst)
  (run.result, w.set q.dst (some run.file))

def execCopyHead (src dst : Path) (n : Nat) (c : Chance) (w : World) :
    Except IoError Unit × World :=
  let b := (w.content src).take n
  match c.fail with
  | some e => (.error e, w.set dst (some (b.take c.done)))
  | none => (if b.length = n then .ok () else .error (.shortCopy b.length n), w.set dst (some b))

/-- `write_all_at`: an empty write is no operation. -/
def execWriteAt (p : Path) (off : Nat) (d : Bytes) (c : Chance) (w : World) :
    Except IoError Unit × World :=
  if d = [] then (.ok (), w)
  else
    match c.fail with
    | some e => (.error e, w.set p (some (Lib.writeAt (w.content p) off (d.take c.done))))
    | none => (.ok (), w.set p (some (Lib.writeAt (w.content p) off d)))

/-- Map the file.  If that fails it is read into memory. -/
def execMap (p : Path) (c : Chance) (w : World) : Except IoError Nat × World :=
  let n := (w.content p).length
  if 2 ^ 64 ≤ n then (.error .tooLarge, w)
  else
    match c.fail with
    | none => (.ok n, { w with copy := none })
    | some _ =>
      match c.reads 0 n with
      | some e => (.error e, w)
      | none => (.ok n, { w with copy := some (w.content p) })

def execFile : FileOp → Chance → World → Except IoError Unit × World
  | .openFile p, c, w => mayFail c.fail w fun w =>
      match w.files p with
      | some _ => (.ok (), w)
      | none => (.error .notFound, w)
  | .create p, c, w => mayFail c.fail w fun w => (.ok (), w.set p (some []))
  | .remove p, c, w => mayFail c.fail w fun w =>
      match w.files p with
      | some _ => (.ok (), w.set p none)
      | none => (.error .notFound, w)
  | .copyHead src dst n, c, w => execCopyHead src dst n c w
  | .writeAt p off d, c, w => execWriteAt p off d c w
  | .setLen p n, c, w => mayFail c.fail w fun w =>
      (.ok (), w.set p (some (Lib.setLen (w.content p) n)))
  | .exchange a b, c, w => mayFail c.fail w fun w =>
      match w.files a, w.files b with
      | some x, some y => (.ok (), (w.set a (some y)).set b (some x))
      | _, _ => (.error .notFound, w)
  | .rename a b, c, w => mayFail c.fail w fun w =>
      match w.files a with
      | some x => (.ok (), (w.set a none).set b (some x))
      | none => (.error .notFound, w)

def exec (R : Crypto) : (o : Op) → Chance → World → o.Res × World
  | .file o, c, w => execFile o c w
  | .map p, c, w => execMap p c w
  | .mapped p off len, _, w => (w.mapped p off len, w)
  | .rewrite q, c, w => execRewrite R q c w
  | .digest sources order alg threads, c, w =>
    let d := contentDigest R c.sched sources alg threads
    ((d.digest, c.shuffle (d.inspected.flatMap (callNotes order))), w)
  | .keyLoaded, c, w => (c.loaded, w)
  | .random version, c, w => (c.seed version, w)

/-! ### What they leave -/

/-- Nothing but the file `p` has changed. -/
structure Only (p : Path) (w w' : World) : Prop where
  copy : w'.copy = w.copy
  elsewhere : ∀ q, q ≠ p → w'.files q = w.files q

/-- The file `p` holds `b` now, and nothing else has changed. -/
structure Changed (p : Path) (b : Bytes) (w w' : World) : Prop extends Only p w w' where
  content : w'.content p = b

section Changed

variable {w w' w'' : World} {p q : Path} {b b' : Bytes} {c : Chance}

theorem files_set (w : World) (p q : Path) (b : Option Bytes) :
    (w.set p b).files q = if q = p then b else w.files q := by
  rw [World.set]
  exact Function.update_apply w.files p b q

theorem changed_set (w : World) (p : Path) (b : Bytes) : Changed p b w (w.set p (some b)) := by
  refine ⟨⟨rfl, ?_⟩, ?_⟩
  · intro q hq
    rw [files_set, if_neg hq]
  · rw [World.content, files_set, if_pos rfl]
    rfl

theorem Only.trans (h : Only p w w') (h' : Only p w' w'') : Only p w w'' :=
  ⟨h'.copy.trans h.copy, fun q hq => (h'.elsewhere q hq).trans (h.elsewhere q hq)⟩

theorem Changed.trans (h : Changed p b w w') (h' : Changed p b' w' w'') : Changed p b' w w'' :=
  ⟨h.toOnly.trans h'.toOnly, h'.content⟩

theorem Only.content_of_ne (h : Only p w w') (hq : q ≠ p) : w'.content q = w.content q := by
  rw [World.content, h.elsewhere q hq, World.content]

theorem mayFail_ok {fail : Option IoError} {f : World → Except IoError Unit × World}
    (h : (mayFail fail w f).1 = .ok ()) : mayFail fail w f = f w := by
  cases fail with
  | some e => cases h
  | none => rfl

theorem create_ok (h : (execFile (.create p) c w).1 = .ok ()) :
    Changed p [] w (execFile (.create p) c w).2 := by
  rw [execFile] at h ⊢
  rw [mayFail_ok h]
  exact changed_set w p []

theorem setLen_ok {n : Nat} (h : (execFile (.setLen p n) c w).1 = .ok ()) :
    Changed p (Lib.setLen (w.content p) n) w (execFile (.setLen p n) c w).2 := by
  rw [execFile] at h ⊢
  rw [mayFail_ok h]
  exact changed_set w p _

theorem writeAt_ok {off : Nat} {d : Bytes} (h : (execFile (.writeAt p off d) c w).1 = .ok ()) :
    Changed p (Lib.writeAt (w.content p) off d) w (execFile (.writeAt p off d) c w).2 := by
  rw [execFile, execWriteAt] at h ⊢
  by_cases hd : d = []
  · rw [if_pos hd, hd, writeAt_nil]
    exact ⟨⟨rfl, fun _ _ => rfl⟩, rfl⟩
  · rw [if_neg hd] at h ⊢
    cases hf : c.fail with
    | some e =>
      rw [hf] at h
      cases h
    | none => exact changed_set w p _

/-- Whatever comes of a copy, the destination holds a beginning of the source. -/
theorem copyHead_changed (src dst : Path) (n : Nat) (c : Chance) (w : World) :
    ∃ k, Changed dst ((w.content src).take k) w (execFile (.copyHead src dst n) c w).2 ∧
      ((execFile (.copyHead src dst n) c w).1 = .ok () → k = n ∧ n ≤ (w.content src).length) := by
  rw [execFile, execCopyHead]
  cases c.fail with
  | some e =>
    refine ⟨min c.done n, ?_, fun h => by cases h⟩
    rw [← List.take_take]
    exact changed_set w dst _
  | none =>
    refine ⟨n, changed_set w dst _, ?_⟩
    intro h
    simp only at h
    split at h
    · rename_i hlen
      rw [List.length_take] at hlen
      exact ⟨rfl, by omega⟩
    · cases h

theorem some_of_content_ne (h : w.content p ≠ []) : w.files p = some (w.content p) := by
  rw [World.content] at h ⊢
  cases hf : w.files p with
  | none =>
    rw [hf] at h
    exact absurd rfl h
  | some x => rfl

theorem mapped_eq_some {off len : Nat} (h : w.mapped p off len = some b) :
    b = slice (w.view p) off (off + len) ∧ (len = 0 ∨ off + len ≤ (w.view p).length) := by
  rw [World.mapped] at h
  split at h
  · rename_i hlen
    exact ⟨(Option.some.inj h).symm, hlen⟩
  · cases h

end Changed

end FastSigner.Sign

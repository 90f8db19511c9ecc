import FastSigner.Sign.Spec

/-!
# What the operations leave

One rule for each operation of the script: what is known of the files if it succeeds,
and why it cannot fail when nothing fails.

What a run makes of the input is an `Access`.  It is decided when the temporary file
is created (`Ready.create`), and `Reads` is what is known of the input from then on.
`does_commit` puts a file in place and `does_writeTail` writes the parts of a tail.
-/

namespace FastSigner.Sign

open Lib Zip Digest Align SigBlock Script

def Quiet (Q : Chance → Prop) : Prop := ∀ c, Q c → c.Calm

/-! ### Operations -/

section Operations

variable {R : Crypto} {Q : Chance → Prop} {bad : Prop} {w : World} {J : Job}

theorem does_compute {α : Type} {r : Except Error α} {post : α → World → Prop}
    (hok : ∀ a, r = .ok a → post a w) (hbad : ∀ e, r = .error e → bad) :
    Does (exec R) Q (compute r) post bad w := does_done hok hbad

theorem does_fileOp {o : FileOp} {err : IoError → Error} {post : Unit → World → Prop}
    (hok : ∀ c, Q c → (execFile o c w).1 = .ok () → post () (execFile o c w).2)
    (hbad : ∀ c e, Q c → (execFile o c w).1 = .error e → bad) :
    Does (exec R) Q (fileOp o err) post bad w := by
  refine does_call fun c hc => does_done ?_ ?_
  · intro a ha
    exact hok c hc (mapError_eq_ok.mp ha)
  · intro e he
    cases hr : (execFile o c w).1 with
    | error e' => exact hbad c e' hc hr
    | ok u =>
      change Except.mapError err (execFile o c w).1 = .error e at he
      rw [hr] at he
      cases he

theorem does_tryFile {o : FileOp} {post : Except IoError Unit → World → Prop}
    (h : ∀ c, Q c → post (execFile o c w).1 (execFile o c w).2) :
    Does (exec R) Q (tryFile o) post bad w :=
  does_call fun c hc => does_done (fun _ ha => Except.ok.inj ha ▸ h c hc) (fun _ he => by cases he)

theorem does_create {p : Path} {err : IoError → Error} {post : Unit → World → Prop}
    (h : ∀ w', Changed p [] w w' → post () w') :
    Does (exec R) Q (fileOp (.create p) err) post (Quiet Q → bad) w := by
  refine does_fileOp (fun c _ hok => h _ (create_ok hok)) ?_
  intro c e hc he hq
  rw [execFile, (hq c hc).fail] at he
  cases he

theorem does_setLen {p : Path} {n : Nat} {err : IoError → Error} {post : Unit → World → Prop}
    (h : ∀ w', Changed p (Lib.setLen (w.content p) n) w w' → post () w') :
    Does (exec R) Q (fileOp (.setLen p n) err) post (Quiet Q → bad) w := by
  refine does_fileOp (fun c _ hok => h _ (setLen_ok hok)) ?_
  intro c e hc he hq
  rw [execFile, (hq c hc).fail] at he
  cases he

theorem does_writeAt {p : Path} {off : Nat} {d : Bytes} {err : IoError → Error}
    {post : Unit → World → Prop}
    (h : ∀ w', Changed p (Lib.writeAt (w.content p) off d) w w' → post () w') :
    Does (exec R) Q (fileOp (.writeAt p off d) err) post (Quiet Q → bad) w := by
  refine does_fileOp (fun c _ hok => h _ (writeAt_ok hok)) ?_
  intro c e hc he hq
  rw [execFile, execWriteAt, (hq c hc).fail] at he
  split at he
  · cases he
  · cases he

theorem does_look {p : Path} {off len : Nat} {post : Bytes → World → Prop}
    (hok : ∀ b, w.mapped p off len = some b → post b w) (hbad : w.mapped p off len = none → bad) :
    Does (exec R) Q (look p off len) post bad w := by
  refine does_call fun c _ => ?_
  change Does (exec R) Q (done ((w.mapped p off len).elim (.error Error.lostMapping) .ok)) post bad w
  cases hm : w.mapped p off len with
  | none => exact does_done (fun _ h => by cases h) fun _ _ => hbad hm
  | some b => exact does_done (fun _ h => Except.ok.inj h ▸ hok b hm) fun _ h => by cases h

theorem does_wait {post : Signer → World → Prop} (hok : ∀ s, J.key = some s → post s w)
    (hbad : J.key = none → bad) : Does (exec R) Q J.wait post bad w := by
  cases hkey : J.key with
  | none => exact does_compute (fun s h => by rw [hkey] at h; cases h) fun _ _ => hbad hkey
  | some s =>
    refine does_compute (fun s' h => ?_) fun e h => by rw [hkey] at h; cases h
    rw [hkey] at h
    exact Except.ok.inj h ▸ hok s hkey

end Operations

/-! ### Putting a file in place -/

/-- The destination holds `F`, the temporary file is gone, and all else is as it was. -/
structure Committed (temp dest : Path) (F : Bytes) (w w' : World) : Prop where
  holds : w'.files dest = some F
  gone : w'.files temp = none
  elsewhere : ∀ q, q ≠ temp → q ≠ dest → w'.files q = w.files q

section Commit

variable {R : Crypto} {Q : Chance → Prop} {bad : Prop} {w : World} {temp dest : Path} {F : Bytes}

theorem exchange_ok {c : Chance} (hF : w.files temp = some F)
    (h : (execFile (.exchange temp dest) c w).1 = .ok ()) :
    ∃ y, (execFile (.exchange temp dest) c w).2 = (w.set temp (some y)).set dest (some F) := by
  rw [execFile] at h ⊢
  rw [mayFail_ok h]
  rw [mayFail_ok h] at h
  simp only [hF] at h ⊢
  cases hd : w.files dest with
  | none =>
    rw [hd] at h
    cases h
  | some y => exact ⟨y, rfl⟩

theorem exchange_error {c : Chance} {e : IoError}
    (h : (execFile (.exchange temp dest) c w).1 = .error e) :
    (execFile (.exchange temp dest) c w).2 = w := by
  rw [execFile] at h ⊢
  cases hf : c.fail with
  | some e => rfl
  | none =>
    rw [hf] at h
    simp only [mayFail] at h ⊢
    split
    · rename_i h1 h2
      rw [h1, h2] at h
      cases h
    · rfl

theorem does_replaceFile (hne : temp ≠ dest) (hF : w.files temp = some F) :
    Does (exec R) Q (replaceFile temp dest) (fun _ w' => Committed temp dest F w w')
      (Quiet Q → bad) w := by
  rw [replaceFile]
  refine does_bind (does_tryFile fun c hc => ?_)
  cases hx : (execFile (.exchange temp dest) c w).1 with
  | ok u =>
    obtain ⟨y, hy⟩ := exchange_ok hF hx
    rw [hy]
    refine does_fileOp ?_ ?_
    · intro c _ hok
      rw [execFile] at hok ⊢
      rw [mayFail_ok hok]
      simp only [files_set, if_neg hne, if_true]
      refine ⟨?_, ?_, ?_⟩
      · rw [files_set, if_neg (Ne.symm hne), files_set, if_pos rfl]
      · rw [files_set, if_pos rfl]
      · intro q hq hq'
        rw [files_set, if_neg hq, files_set, if_neg hq', files_set, if_neg hq]
    · intro c e hc he hq
      rw [execFile, (hq c hc).fail, mayFail] at he
      simp only [files_set, if_neg hne, if_true] at he
      cases he
  | error e =>
    rw [exchange_error hx]
    refine does_fileOp ?_ ?_
    · intro c _ hok
      rw [execFile] at hok ⊢
      rw [mayFail_ok hok]
      simp only [hF]
      refine ⟨?_, ?_, ?_⟩
      · rw [files_set, if_pos rfl]
      · rw [files_set, if_neg hne, files_set, if_pos rfl]
      · intro q hq hq'
        rw [files_set, if_neg hq', files_set, if_neg hq]
    · intro c e hc he hq
      rw [execFile, (hq c hc).fail, mayFail] at he
      simp only [hF] at he
      cases he

theorem does_commit (hne : temp ≠ dest) (hF : w.files temp = some F) :
    Does (exec R) Q (commit temp dest) (fun _ w' => Committed temp dest F w w')
      (Quiet Q → bad) w := does_onError (does_replaceFile hne hF)

end Commit

/-! ### The input -/

/-- What is left of the input when the temporary file exists. -/
def Job.access (J : Job) (w : World) : Access :=
  if tempPath J.dest ≠ J.input then .apart else if w.copy = none then .lost else .copied

/-- What the operations read of the input `apk`. -/
structure Reads (J : Job) (apk : Bytes) (a : Access) (w : World) : Prop where
  content : w.content J.input = a.content apk
  view : w.view J.input = if a = .lost then [] else apk
  copied : a = .copied → w.copy = some apk -- The input was mapped, unless it was read into memory.

/-- The input is mapped, and the temporary file is still to be created. -/
structure Ready (Q : Chance → Prop) (J : Job) (apk : Bytes) (w : World) : Prop where
  copy : w.copy = none ∨ w.copy = some apk
  quiet : Quiet Q → w.copy = none
  content : tempPath J.dest ≠ J.input → w.content J.input = apk

section Input

variable {R : Crypto} {Q : Chance → Prop} {bad : Prop} {w w' : World} {J : Job} {apk : Bytes}
  {a : Access}

theorem Job.access_eq_apart_iff : J.access w = .apart ↔ tempPath J.dest ≠ J.input := by
  rw [Job.access]
  split
  · rename_i h
    exact ⟨fun _ => h, fun _ => rfl⟩
  · rename_i h
    refine ⟨fun ha => ?_, fun hn => absurd hn h⟩
    split at ha
    · cases ha
    · cases ha

theorem Ready.access_ne_copied (h : Ready Q J apk w) (hq : Quiet Q) : J.access w ≠ .copied := by
  rw [Job.access, if_pos (h.quiet hq)]
  split
  · decide
  · decide

theorem Ready.reads (h : Ready Q J apk w) (hne : tempPath J.dest ≠ J.input) :
    Reads J apk .apart w := by
  refine ⟨h.content hne, ?_, fun ha => by cases ha⟩
  rw [World.view, h.content hne]
  rcases h.copy with hc | hc
  · rw [hc]
    rfl
  · rw [hc]
    rfl

/-- **Creating the temporary file.** -/
theorem Ready.create (h : Ready Q J apk w) (hw : Changed (tempPath J.dest) [] w w') :
    Ready Q J apk w' ∧ Reads J apk (J.access w') w' := by
  have hready : Ready Q J apk w' := by
    refine ⟨hw.copy ▸ h.copy, fun hq => hw.copy.trans (h.quiet hq), fun hne => ?_⟩
    rw [hw.content_of_ne (Ne.symm hne), h.content hne]
  refine ⟨hready, ?_⟩
  by_cases hne : tempPath J.dest = J.input
  · have hnil : w'.content J.input = [] := hne ▸ hw.content
    rw [Job.access, if_neg (not_not.mpr hne)]
    rcases hready.copy with hc | hc
    · rw [if_pos hc]
      refine ⟨hnil, ?_, fun ha => by cases ha⟩
      rw [World.view, hc, hnil]
      rfl
    · rw [if_neg (by rw [hc]; simp)]
      refine ⟨hnil, ?_, fun _ => hc⟩
      rw [World.view, hc]
      rfl
  · rw [Job.access_eq_apart_iff.mpr hne]
    exact hready.reads hne

theorem Reads.mapped (h : Reads J apk a w) {off len : Nat} (hlen : off + len ≤ apk.length) :
    w.mapped J.input off len
      = if a = .lost ∧ len ≠ 0 then none else some (slice apk off (off + len)) := by
  rw [World.mapped, h.view]
  by_cases ha : a = .lost
  · rw [if_pos ha]
    by_cases h0 : len = 0
    · rw [if_pos (Or.inl h0), if_neg (fun hn => hn.2 h0), slice_of_le _ (by omega),
        slice_of_le _ (by omega)]
    · rw [if_neg (by rw [List.length_nil]; omega), if_pos ⟨ha, h0⟩]
  · rw [if_neg ha, if_pos (Or.inr hlen), if_neg (fun hn => ha hn.1)]

theorem does_lookInput (h : Reads J apk a w) {off len : Nat} (hlen : off + len ≤ apk.length)
    {post : Bytes → World → Prop}
    (hok : a.look len = .ok () → post (slice apk off (off + len)) w)
    (hbad : (∀ u, a.look len ≠ .ok u) → bad) :
    Does (exec R) Q (look J.input off len) post bad w := by
  have hm := h.mapped hlen
  rw [Access.look] at hok hbad
  split at hm
  · rename_i hl
    rw [if_pos hl] at hbad
    exact does_look (fun b hb => by rw [hm] at hb; cases hb) fun _ => hbad fun _ h => by cases h
  · rename_i hl
    rw [if_neg hl] at hok
    refine does_look (fun b hb => ?_) fun hb => by rw [hm] at hb; cases hb
    rw [hm] at hb
    exact Option.some.inj hb ▸ hok rfl

end Input

/-! ### Writing the tail -/

def Part.Gives (J : Job) (f : Path) (w : World) (b : Bytes) : Part → Prop
  | .owned x => b = x
  | .mapped off len => ∀ w', Only f w w' → w'.mapped J.input off len = some b

section Tail

variable {R : Crypto} {Q : Chance → Prop} {bad : Prop} {J : Job} {f : Path}

theorem Part.Gives.only {w w' : World} {b : Bytes} {part : Part} (h : part.Gives J f w b)
    (hw : Only f w w') : part.Gives J f w' b := by
  cases part with
  | owned x => exact h
  | mapped off len => exact fun w'' hw' => h w'' (hw.trans hw')

theorem does_partLook {w : World} {b : Bytes} {part : Part} (h : part.Gives J f w b)
    {post : Bytes → World → Prop} (hok : post b w) :
    Does (exec R) Q (part.look J.input) post bad w := by
  cases part with
  | owned x => exact does_pure (h ▸ hok)
  | mapped off len =>
    have hm := h w ⟨rfl, fun _ _ => rfl⟩
    refine does_look (fun b' hb => ?_) fun hb => by rw [hm] at hb; cases hb
    rw [hm] at hb
    exact Option.some.inj hb ▸ hok

/-- **The parts are written one behind the other.** -/
theorem does_writeTail :
    ∀ (parts : List Part) (bs : List Bytes) (off : Nat) (w : World) {post : Unit → World → Prop},
      List.Forall₂ (fun part b => part.Gives J f w b) parts bs → off ≤ (w.content f).length →
      (∀ w', Changed f (Lib.writeAt (w.content f) off bs.flatten) w w' → post () w') →
      Does (exec R) Q (J.writeTail f off parts) post (Quiet Q → bad) w := by
  intro parts
  induction parts with
  | nil =>
    intro bs off w post hparts _ hpost
    cases hparts
    refine does_pure (hpost w ⟨⟨rfl, fun _ _ => rfl⟩, ?_⟩)
    rw [List.flatten_nil, writeAt_nil]
  | cons part parts ih =>
    intro bs off w post hparts hoff hpost
    cases hparts with
    | cons hpart hparts =>
      rename_i b bs
      rw [Job.writeTail]
      refine does_bind (does_partLook hpart (does_bind (does_writeAt fun w₁ hw₁ => ?_)))
      have hlen : off + b.length ≤ (w₁.content f).length := by
        rw [hw₁.content, writeAt_eq hoff]
        simp only [List.length_append, List.length_take, Nat.min_eq_left hoff]
        omega
      refine ih bs _ w₁ (hparts.imp fun _ _ h => h.only hw₁.toOnly) hlen fun w₂ hw₂ => hpost w₂ ?_
      rw [hw₁.content, writeAt_writeAt hoff] at hw₂
      exact hw₁.trans hw₂

end Tail

end FastSigner.Sign

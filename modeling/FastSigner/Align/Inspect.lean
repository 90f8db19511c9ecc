import FastSigner.Lib.Table
import FastSigner.Align.Order
import FastSigner.Digest.Parallel

/-!
# The inspector

While the old layout is digested, `LfhInspector` looks at every chunk that
passes by and notes the lengths of the local headers that start in it; headers
that reach into the next chunk are read afterwards.  Chunks come in any order.

`finish_of_perm` says what comes out: as long as the chunks cover the headers,
`finish` succeeds exactly when every entry has a header, and then it returns the
lengths that a direct read would give.
-/

namespace FastSigner.Align

open Lib Zip Digest

structure LfhInspector where
  order : List (CdEntry × Nat) -- The entries with their indices, by header offset.
  found : List (Nat × LfhLens)
  straddlers : List Nat
  error : Option Error

def LfhInspector.new (entries : List CdEntry) (entriesEnd : Nat) : Except Error LfhInspector := do
  let order ← fileOrder entries entriesEnd
  .ok ⟨order, [], [], none⟩

/-- The entries whose header starts in `[fileOff, stop)`; `order` is sorted. -/
def startingIn (order : List (CdEntry × Nat)) (fileOff stop : Nat) : List (CdEntry × Nat) :=
  (order.dropWhile fun x => x.1.lfhOff < fileOff).takeWhile fun x => x.1.lfhOff < stop

/-- The loop of `inspect`: lengths of the headers inside `buf`, and entries whose header leaves
it. -/
def inspectLoop (fileOff : Nat) (buf : Bytes) :
    List (CdEntry × Nat) → Except Error (List (Nat × LfhLens) × List Nat)
  | [] => .ok ([], [])
  | (e, i) :: rest =>
    let rel := e.lfhOff - fileOff
    if rel + lfhLen ≤ buf.length then
      let h := slice buf rel (rel + lfhLen)
      if slice h 0 4 ≠ lfhSig then .error (.noLfh e.lfhOff)
      else do
        let (found, straddlers) ← inspectLoop fileOff buf rest
        .ok ((i, (u16le h 26, u16le h 28)) :: found, straddlers)
    else do
      let (found, straddlers) ← inspectLoop fileOff buf rest
      .ok (found, i :: straddlers)

def LfhInspector.inspect (s : LfhInspector) (call : Nat × Bytes) : LfhInspector :=
  match inspectLoop call.1 call.2 (startingIn s.order call.1 (call.1 + call.2.length)) with
  | .error e => { s with error := some e }
  | .ok (found, straddlers) =>
    { s with found := s.found ++ found, straddlers := s.straddlers ++ straddlers }

/-- One update of the inspector, made under one lock. -/
inductive Note
  | found (l : List (Nat × LfhLens))
  | straddlers (l : List Nat)
  | error (e : Error)

def LfhInspector.note (s : LfhInspector) : Note → LfhInspector
  | .found l => { s with found := s.found ++ l }
  | .straddlers l => { s with straddlers := s.straddlers ++ l }
  | .error e => { s with error := some e }

/-- The updates that one call of `inspect` makes.  Calls on other threads may come in between. -/
def callNotes (order : List (CdEntry × Nat)) (call : Nat × Bytes) : List Note :=
  match inspectLoop call.1 call.2 (startingIn order call.1 (call.1 + call.2.length)) with
  | .error e => [.error e]
  | .ok (found, straddlers) => [.found found, .straddlers straddlers]

def readStraddler (file : ReadAt) (entries : List CdEntry) (lens : List (Option LfhLens)) (i : Nat) :
    Except Error (List (Option LfhLens)) := do
  let off := (entries.map CdEntry.lfhOff).getD i 0
  let l ← readLfhLens file off
  .ok (lens.set i (some l))

def seen (x : CdEntry × Option LfhLens) : Except Error LfhLens :=
  match x.2 with
  | some l => .ok l
  | none => .error (.lfhNotSeen x.1.lfhOff)

def LfhInspector.finish (s : LfhInspector) (file : ReadAt) (entries : List CdEntry) :
    Except Error (List LfhLens) :=
  match s.error with
  | some e => .error e
  | none => do
    let lens := s.found.foldl (fun lens x => lens.set x.1 (some x.2))
      (List.replicate entries.length none)
    let lens ← s.straddlers.foldlM (readStraddler file entries) lens
    (entries.zip lens).mapM seen

/-! ### One chunk -/

section Sorted

variable {α : Type} {f : α → Nat} {n : Nat} {l : List α} {x : α}

theorem mem_takeWhile_lt (h : l.Pairwise fun a b => f a < f b) :
    x ∈ l.takeWhile (fun a => f a < n) ↔ x ∈ l ∧ f x < n := by
  induction l with
  | nil => simp
  | cons a l ih =>
    rw [List.pairwise_cons] at h
    by_cases ha : f a < n
    · rw [List.takeWhile_cons_of_pos (by simpa using ha), List.mem_cons, List.mem_cons, ih h.2]
      constructor
      · rintro (rfl | hx)
        · exact ⟨Or.inl rfl, ha⟩
        · exact ⟨Or.inr hx.1, hx.2⟩
      · rintro ⟨rfl | hx, hn⟩
        · exact Or.inl rfl
        · exact Or.inr ⟨hx, hn⟩
    · rw [List.takeWhile_cons_of_neg (by simpa using ha)]
      constructor
      · intro hx
        cases hx
      · rintro ⟨hx, hn⟩
        rcases List.mem_cons.mp hx with rfl | hx
        · exact absurd hn ha
        · have := h.1 x hx
          omega

theorem mem_dropWhile_lt (h : l.Pairwise fun a b => f a < f b) :
    x ∈ l.dropWhile (fun a => f a < n) ↔ x ∈ l ∧ n ≤ f x := by
  induction l with
  | nil => simp
  | cons a l ih =>
    rw [List.pairwise_cons] at h
    by_cases ha : f a < n
    · rw [List.dropWhile_cons_of_pos (by simpa using ha), ih h.2, List.mem_cons]
      constructor
      · exact fun hx => ⟨Or.inr hx.1, hx.2⟩
      · rintro ⟨rfl | hx, hn⟩
        · omega
        · exact ⟨hx, hn⟩
    · rw [List.dropWhile_cons_of_neg (by simpa using ha)]
      constructor
      · intro hx
        refine ⟨hx, ?_⟩
        rcases List.mem_cons.mp hx with rfl | hx
        · omega
        · have := h.1 x hx
          omega
      · exact fun hx => hx.1

end Sorted

theorem mem_startingIn {order : List (CdEntry × Nat)} (ho : InOrder order) {fileOff stop : Nat}
    {x : CdEntry × Nat} :
    x ∈ startingIn order fileOff stop ↔ x ∈ order ∧ fileOff ≤ x.1.lfhOff ∧ x.1.lfhOff < stop := by
  have hrest : (order.dropWhile fun x => x.1.lfhOff < fileOff).Pairwise
      fun a b => a.1.lfhOff < b.1.lfhOff := List.Pairwise.sublist (List.dropWhile_sublist _) ho
  rw [startingIn, mem_takeWhile_lt hrest, mem_dropWhile_lt ho, and_assoc]

section Chunk

variable {b buf : Bytes} {fileOff : Nat}

theorem header_in_buf (hbuf : buf = slice b fileOff (fileOff + buf.length)) {off : Nat}
    (hoff : fileOff ≤ off) (hin : off - fileOff + lfhLen ≤ buf.length) :
    slice buf (off - fileOff) (off - fileOff + lfhLen) = slice b off (off + lfhLen) := by
  rw [hbuf, slice_slice_of_le b (by omega)]
  congr 1 <;> omega

/-- What one call notes: sound lengths, and every entry of the chunk one way or the other. -/
theorem inspectLoop_eq_ok (hbuf : buf = slice b fileOff (fileOff + buf.length)) :
    ∀ (l : List (CdEntry × Nat)) (found : List (Nat × LfhLens)) (straddlers : List Nat),
      (∀ x ∈ l, fileOff ≤ x.1.lfhOff) → inspectLoop fileOff buf l = .ok (found, straddlers) →
      (∀ p ∈ found, ∃ x ∈ l, p = (x.2, lensAt b x.1.lfhOff) ∧ HasLfh b x.1.lfhOff) ∧
      (∀ i ∈ straddlers, ∃ x ∈ l, i = x.2) ∧
      ∀ x ∈ l, (x.2, lensAt b x.1.lfhOff) ∈ found ∨ x.2 ∈ straddlers := by
  intro l
  induction l with
  | nil =>
    intro found straddlers _ h
    injection h with h
    injection h with h1 h2
    subst h1 h2
    simp
  | cons x rest ih =>
    obtain ⟨e, i⟩ := x
    intro found straddlers hl h
    have hrest : ∀ x ∈ rest, fileOff ≤ x.1.lfhOff := fun x hx => hl x (by simp [hx])
    have he : fileOff ≤ e.lfhOff := hl (e, i) (by simp)
    rw [inspectLoop] at h
    simp only at h
    split at h
    · rename_i hin
      rw [header_in_buf hbuf he hin] at h
      split at h
      · cases h
      · rename_i hsig
        obtain ⟨⟨found', straddlers'⟩, hloop, h⟩ := bind_eq_ok.mp h
        injection h with h
        injection h with h1 h2
        obtain ⟨hf, hs, hall⟩ := ih _ _ hrest hloop
        have h30 : lfhLen = 30 := rfl
        have hlens : (u16le (slice b e.lfhOff (e.lfhOff + lfhLen)) 26,
            u16le (slice b e.lfhOff (e.lfhOff + lfhLen)) 28) = lensAt b e.lfhOff := by
          rw [u16le_slice b (by omega), u16le_slice b (by omega), lensAt]
        have hlfh : HasLfh b e.lfhOff := by
          rw [slice_slice_of_le b (by omega), Nat.add_zero] at hsig
          exact not_not.mp hsig
        rw [hlens] at h1
        subst h1 h2
        refine ⟨?_, ?_, ?_⟩
        · intro p hp
          rcases List.mem_cons.mp hp with rfl | hp
          · exact ⟨(e, i), by simp, rfl, hlfh⟩
          · obtain ⟨x, hx, hpx⟩ := hf p hp
            exact ⟨x, by simp [hx], hpx⟩
        · intro j hj
          obtain ⟨x, hx, hjx⟩ := hs j hj
          exact ⟨x, by simp [hx], hjx⟩
        · intro x hx
          rcases List.mem_cons.mp hx with rfl | hx
          · exact Or.inl (by simp)
          · exact (hall x hx).imp (fun h => by simp [h]) id
    · obtain ⟨⟨found', straddlers'⟩, hloop, h⟩ := bind_eq_ok.mp h
      injection h with h
      injection h with h1 h2
      obtain ⟨hf, hs, hall⟩ := ih _ _ hrest hloop
      subst h1 h2
      refine ⟨?_, ?_, ?_⟩
      · intro p hp
        obtain ⟨x, hx, hpx⟩ := hf p hp
        exact ⟨x, by simp [hx], hpx⟩
      · intro j hj
        rcases List.mem_cons.mp hj with rfl | hj
        · exact ⟨(e, j), by simp, rfl⟩
        · obtain ⟨x, hx, hjx⟩ := hs j hj
          exact ⟨x, by simp [hx], hjx⟩
      · intro x hx
        rcases List.mem_cons.mp hx with rfl | hx
        · exact Or.inr (by simp)
        · exact (hall x hx).imp id (fun h => by simp [h])

theorem inspectLoop_eq_error (hbuf : buf = slice b fileOff (fileOff + buf.length)) {err : Error} :
    ∀ l : List (CdEntry × Nat), (∀ x ∈ l, fileOff ≤ x.1.lfhOff) →
      inspectLoop fileOff buf l = .error err → ∃ x ∈ l, ¬ HasLfh b x.1.lfhOff := by
  intro l
  induction l with
  | nil =>
    intro _ h
    cases h
  | cons x rest ih =>
    obtain ⟨e, i⟩ := x
    intro hl h
    have hrest : ∀ x ∈ rest, fileOff ≤ x.1.lfhOff := fun x hx => hl x (by simp [hx])
    have htail : inspectLoop fileOff buf rest = .error err →
        ∃ x ∈ (e, i) :: rest, ¬ HasLfh b x.1.lfhOff := by
      intro h
      obtain ⟨x, hx, hn⟩ := ih hrest h
      exact ⟨x, by simp [hx], hn⟩
    rw [inspectLoop] at h
    simp only at h
    split at h
    · rename_i hin
      rw [header_in_buf hbuf (hl (e, i) (by simp)) hin] at h
      split at h
      · rename_i hsig
        have h30 : lfhLen = 30 := rfl
        rw [slice_slice_of_le b (by omega), Nat.add_zero] at hsig
        exact ⟨(e, i), by simp, hsig⟩
      · cases hloop : inspectLoop fileOff buf rest with
        | error e' =>
          rw [hloop] at h
          exact htail (hloop ▸ h)
        | ok r =>
          rw [hloop] at h
          cases h
    · cases hloop : inspectLoop fileOff buf rest with
      | error e' =>
        rw [hloop] at h
        exact htail (hloop ▸ h)
      | ok r =>
        rw [hloop] at h
        cases h

end Chunk

/-! ### All chunks -/

/-- The chunks show the file and every header starts in one of them. -/
structure CoversHeaders (b : Bytes) (entries : List CdEntry) (calls : List (Nat × Bytes)) : Prop where
  shows : ∀ c ∈ calls, c.2 = slice b c.1 (c.1 + c.2.length)
  covers : ∀ e ∈ entries, ∃ c ∈ calls, c.1 ≤ e.lfhOff ∧ e.lfhOff < c.1 + c.2.length

/-- The state of the inspector after some calls. -/
structure Noted (b : Bytes) (order : List (CdEntry × Nat)) (calls : List (Nat × Bytes))
    (s : LfhInspector) : Prop where
  same : s.order = order
  found : ∀ p ∈ s.found, ∃ x ∈ order, p = (x.2, lensAt b x.1.lfhOff) ∧ HasLfh b x.1.lfhOff
  straddlers : ∀ i ∈ s.straddlers, ∃ x ∈ order, i = x.2
  error : s.error ≠ none → ∃ x ∈ order, ¬ HasLfh b x.1.lfhOff
  all : s.error = none → ∀ x ∈ order, (∃ c ∈ calls, c.1 ≤ x.1.lfhOff ∧
    x.1.lfhOff < c.1 + c.2.length) → (x.2, lensAt b x.1.lfhOff) ∈ s.found ∨ x.2 ∈ s.straddlers

theorem LfhInspector.inspect_eq (s : LfhInspector) (c : Nat × Bytes) :
    s.inspect c = (callNotes s.order c).foldl LfhInspector.note s := by
  rw [LfhInspector.inspect, callNotes]
  cases inspectLoop c.1 c.2 (startingIn s.order c.1 (c.1 + c.2.length)) with
  | error e => rfl
  | ok r => rfl

theorem order_foldl_note (notes : List Note) :
    ∀ s : LfhInspector, (notes.foldl LfhInspector.note s).order = s.order := by
  induction notes with
  | nil => intro s; rfl
  | cons n notes ih =>
    intro s
    rw [List.foldl_cons, ih]
    cases n <;> rfl

theorem found_foldl_note (notes : List Note) :
    ∀ (s : LfhInspector) (p : Nat × LfhLens), p ∈ (notes.foldl LfhInspector.note s).found ↔
      p ∈ s.found ∨ ∃ l, Note.found l ∈ notes ∧ p ∈ l := by
  induction notes with
  | nil => intro s p; simp
  | cons n notes ih =>
    intro s p
    rw [List.foldl_cons, ih]
    cases n with
    | found l => simp [LfhInspector.note, or_assoc, or_and_right, exists_or]
    | straddlers l => simp [LfhInspector.note]
    | error e => simp [LfhInspector.note]

theorem straddlers_foldl_note (notes : List Note) :
    ∀ (s : LfhInspector) (i : Nat), i ∈ (notes.foldl LfhInspector.note s).straddlers ↔
      i ∈ s.straddlers ∨ ∃ l, Note.straddlers l ∈ notes ∧ i ∈ l := by
  induction notes with
  | nil => intro s i; simp
  | cons n notes ih =>
    intro s i
    rw [List.foldl_cons, ih]
    cases n with
    | found l => simp [LfhInspector.note]
    | straddlers l => simp [LfhInspector.note, or_assoc, or_and_right, exists_or]
    | error e => simp [LfhInspector.note]

theorem error_foldl_note (notes : List Note) :
    ∀ s : LfhInspector, (notes.foldl LfhInspector.note s).error ≠ none ↔
      s.error ≠ none ∨ ∃ e, Note.error e ∈ notes := by
  induction notes with
  | nil => intro s; simp
  | cons n notes ih =>
    intro s
    rw [List.foldl_cons, ih]
    cases n with
    | found l => simp [LfhInspector.note]
    | straddlers l => simp [LfhInspector.note]
    | error e => simp [LfhInspector.note]

/-- The calls one after the other are their updates one after the other. -/
theorem foldl_inspect_eq (order : List (CdEntry × Nat)) :
    ∀ (calls : List (Nat × Bytes)) (s : LfhInspector), s.order = order →
      calls.foldl LfhInspector.inspect s
        = (calls.flatMap (callNotes order)).foldl LfhInspector.note s := by
  intro calls
  induction calls with
  | nil => intro s _; rfl
  | cons c calls ih =>
    intro s hs
    have horder : (s.inspect c).order = order := by
      rw [LfhInspector.inspect_eq, order_foldl_note, hs]
    rw [List.foldl_cons, ih _ horder, List.flatMap_cons, List.foldl_append,
      LfhInspector.inspect_eq, hs]

/-- **However the updates of the calls interleave, everything is noted.** -/
theorem noted_of_perm {b : Bytes} {order : List (CdEntry × Nat)} (ho : InOrder order)
    {calls : List (Nat × Bytes)} (hc : ∀ c ∈ calls, c.2 = slice b c.1 (c.1 + c.2.length))
    {notes : List Note} (hn : notes.Perm (calls.flatMap (callNotes order))) :
    Noted b order calls (notes.foldl LfhInspector.note ⟨order, [], [], none⟩) := by
  have hmem : ∀ {n}, n ∈ notes ↔ ∃ c ∈ calls, n ∈ callNotes order c := by
    intro n
    rw [hn.mem_iff, List.mem_flatMap]
  have hin : ∀ {c : Nat × Bytes} {x}, x ∈ startingIn order c.1 (c.1 + c.2.length) →
      x ∈ order ∧ c.1 ≤ x.1.lfhOff ∧ x.1.lfhOff < c.1 + c.2.length := (mem_startingIn ho).mp
  refine ⟨order_foldl_note _ _, ?_, ?_, ?_, ?_⟩
  · intro p hp
    obtain hp | ⟨l, hl, hp⟩ := (found_foldl_note _ _ _).mp hp
    · cases hp
    · obtain ⟨c, hcm, hl⟩ := hmem.mp hl
      rw [callNotes] at hl
      split at hl
      · simp at hl
      · rename_i found straddlers hloop
        obtain rfl : l = found := by simpa using hl
        obtain ⟨hf, -, -⟩ := inspectLoop_eq_ok (hc c hcm) _ _ _ (fun x hx => (hin hx).2.1) hloop
        obtain ⟨x, hx, hpx⟩ := hf p hp
        exact ⟨x, (hin hx).1, hpx⟩
  · intro i hi
    obtain hi | ⟨l, hl, hi⟩ := (straddlers_foldl_note _ _ _).mp hi
    · cases hi
    · obtain ⟨c, hcm, hl⟩ := hmem.mp hl
      rw [callNotes] at hl
      split at hl
      · simp at hl
      · rename_i found straddlers hloop
        obtain rfl : l = straddlers := by simpa using hl
        obtain ⟨-, hs, -⟩ := inspectLoop_eq_ok (hc c hcm) _ _ _ (fun x hx => (hin hx).2.1) hloop
        obtain ⟨x, hx, hix⟩ := hs i hi
        exact ⟨x, (hin hx).1, hix⟩
  · intro herr
    obtain herr | ⟨e, he⟩ := (error_foldl_note _ _).mp herr
    · exact absurd rfl herr
    · obtain ⟨c, hcm, he⟩ := hmem.mp he
      rw [callNotes] at he
      split at he
      · rename_i hloop
        obtain ⟨x, hx, hnl⟩ := inspectLoop_eq_error (hc c hcm) _ (fun x hx => (hin hx).2.1) hloop
        exact ⟨x, (hin hx).1, hnl⟩
      · simp at he
  · rintro hnone x hx ⟨c, hcm, hcx⟩
    have hx' : x ∈ startingIn order c.1 (c.1 + c.2.length) := (mem_startingIn ho).mpr ⟨hx, hcx⟩
    have hnotes : ∀ n ∈ callNotes order c, n ∈ notes := fun n hn => hmem.mpr ⟨c, hcm, hn⟩
    rw [callNotes] at hnotes
    cases hloop : inspectLoop c.1 c.2 (startingIn order c.1 (c.1 + c.2.length)) with
    | error e =>
      rw [hloop] at hnotes
      exact absurd hnone ((error_foldl_note _ _).mpr (Or.inr ⟨e, hnotes _ (by simp)⟩))
    | ok r =>
      obtain ⟨found, straddlers⟩ := r
      rw [hloop] at hnotes
      obtain ⟨-, -, hall⟩ := inspectLoop_eq_ok (hc c hcm) _ _ _ (fun x hx => (hin hx).2.1) hloop
      rcases hall x hx' with h | h
      · exact Or.inl ((found_foldl_note _ _ _).mpr (Or.inr ⟨found, hnotes _ (by simp), h⟩))
      · exact Or.inr ((straddlers_foldl_note _ _ _).mpr
          (Or.inr ⟨straddlers, hnotes _ (by simp), h⟩))

/-! ### The end of the pass -/

theorem filled_straddlers {val : Nat → LfhLens} {n : Nat} {file : ReadAt} {entries : List CdEntry} :
    ∀ (straddlers done : List Nat) (lens : List (Option LfhLens)), Filled val n done lens →
      (∀ i ∈ straddlers, readLfhLens file ((entries.map CdEntry.lfhOff).getD i 0) = .ok (val i)) →
      ∃ lens', straddlers.foldlM (readStraddler file entries) lens = .ok lens' ∧
        Filled val n (done ++ straddlers) lens' := by
  intro straddlers
  induction straddlers with
  | nil =>
    intro done lens h _
    exact ⟨lens, rfl, by simpa using h⟩
  | cons i straddlers ih =>
    intro done lens h hread
    obtain ⟨lens', hrun, hf⟩ := ih (done ++ [i]) _ (h.set i) (fun j hj => hread j (by simp [hj]))
    refine ⟨lens', ?_, ?_⟩
    · rw [List.foldlM_cons, readStraddler, hread i (by simp)]
      exact hrun
    · rw [List.append_assoc, List.singleton_append] at hf
      exact hf

theorem mapM_seen : ∀ (entries : List CdEntry) (ls : List LfhLens), entries.length = ls.length →
    (entries.zip (ls.map some)).mapM seen = .ok ls := by
  intro entries
  induction entries with
  | nil =>
    intro ls h
    cases ls with
    | nil => rfl
    | cons l ls => cases h
  | cons e entries ih =>
    intro ls h
    cases ls with
    | nil => cases h
    | cons l ls =>
      rw [List.map_cons, List.zip_cons_cons, List.mapM_cons, ih ls (by simpa using h)]
      rfl

theorem foldlM_readStraddler_ok {file : ReadAt} {entries : List CdEntry} :
    ∀ (straddlers : List Nat) (lens lens' : List (Option LfhLens)),
      straddlers.foldlM (readStraddler file entries) lens = .ok lens' →
      ∀ i ∈ straddlers, ∃ l, readLfhLens file ((entries.map CdEntry.lfhOff).getD i 0) = .ok l := by
  intro straddlers
  induction straddlers with
  | nil =>
    intro lens lens' _ i hi
    cases hi
  | cons j straddlers ih =>
    intro lens lens' h i hi
    rw [List.foldlM_cons, readStraddler] at h
    obtain ⟨lens1, h1, h2⟩ := bind_eq_ok.mp h
    obtain ⟨l, hl, -⟩ := bind_eq_ok.mp h1
    rcases List.mem_cons.mp hi with rfl | hi
    · exact ⟨l, hl⟩
    · exact ih lens1 lens' h2 i hi

theorem lfhOff_getD {entries : List CdEntry} {x : CdEntry × Nat} (hx : x ∈ entries.zipIdx) :
    (entries.map CdEntry.lfhOff).getD x.2 0 = x.1.lfhOff := by
  have hget : entries[x.2]? = some x.1 := List.mem_zipIdx_iff_getElem?.mp hx
  rw [List.getD_eq_getElem?_getD, List.getElem?_map, hget]
  rfl

/-- **What the pass returns.**  It succeeds exactly when every entry has a local header, and then
with the lengths in the file, however the calls interleave. -/
theorem finish_of_perm {b : Bytes} {entries : List CdEntry} {entriesEnd : Nat}
    {calls : List (Nat × Bytes)} {s : LfhInspector} (hb : entriesEnd ≤ b.length)
    (hnew : LfhInspector.new entries entriesEnd = .ok s) (hc : CoversHeaders b entries calls)
    {notes : List Note} (hn : notes.Perm (calls.flatMap (callNotes s.order))) :
    ((notes.foldl LfhInspector.note s).finish (ReadAt.ofBytes b) entries).toOption
      = if ∀ e ∈ entries, HasLfh b e.lfhOff then some (entries.map fun e => lensAt b e.lfhOff)
        else none := by
  obtain ⟨order, horder, hs⟩ := bind_eq_ok.mp hnew
  obtain rfl := Except.ok.inj hs
  obtain ⟨hperm, ho, hin⟩ := fileOrder_eq_ok_iff.mp horder
  have hmem : ∀ {x}, x ∈ order ↔ x ∈ entries.zipIdx := hperm.mem_iff
  have hidx : ∀ e ∈ entries, ∃ i, (e, i) ∈ order := by
    intro e he
    obtain ⟨i, hi⟩ := List.getElem?_of_mem he
    exact ⟨i, hmem.mpr (List.mem_zipIdx_iff_getElem?.mpr hi)⟩
  have hent : ∀ x ∈ order, x.1 ∈ entries := fun x hx =>
    List.mem_of_getElem? (List.mem_zipIdx_iff_getElem?.mp (hmem.mp hx))
  have hread : ∀ x ∈ order, readLfhLens (ReadAt.ofBytes b) ((entries.map CdEntry.lfhOff).getD x.2 0)
      = if HasLfh b x.1.lfhOff then .ok (lensAt b x.1.lfhOff) else .error (.noLfh x.1.lfhOff) := by
    intro x hx
    rw [lfhOff_getD (hmem.mp hx)]
    exact readLfhLens_ofBytes (Nat.le_trans (hin x hx) hb)
  have hnoted := noted_of_perm ho hc.shows hn
  generalize notes.foldl LfhInspector.note ⟨order, [], [], none⟩ = t at hnoted
  have hall : t.error = none → ∀ x ∈ order,
      (x.2, lensAt b x.1.lfhOff) ∈ t.found ∨ x.2 ∈ t.straddlers :=
    fun hnone x hx => hnoted.all hnone x hx (hc.covers x.1 (hent x hx))
  by_cases hlfh : ∀ e ∈ entries, HasLfh b e.lfhOff
  · rw [if_pos hlfh]
    have hnone : t.error = none := by
      by_contra hne
      obtain ⟨x, hx, hn⟩ := hnoted.error hne
      exact hn (hlfh x.1 (hent x hx))
    -- every index is filled with the lengths of its own entry
    have hfound := (filled_replicate (fun i => lensAt b ((entries.map CdEntry.lfhOff).getD i 0))
      entries.length).foldl_set t.found (by
        intro p hp
        obtain ⟨x, hx, rfl, -⟩ := hnoted.found p hp
        simp only [lfhOff_getD (hmem.mp hx)])
    obtain ⟨lens, hrun, hfilled⟩ := filled_straddlers t.straddlers _ _ hfound (by
        intro i hi
        obtain ⟨x, hx, rfl⟩ := hnoted.straddlers i hi
        rw [hread x hx, if_pos (hlfh x.1 (hent x hx)), lfhOff_getD (hmem.mp hx)])
    have hlens := hfilled.eq_map (by
      intro k hk
      have hx : (entries[k], k) ∈ order :=
        hmem.mpr (List.mem_zipIdx_iff_getElem?.mpr (List.getElem?_eq_getElem hk))
      rw [List.nil_append, List.mem_append]
      rcases hall hnone _ hx with h | h
      · exact Or.inl (List.mem_map_of_mem h)
      · exact Or.inr h)
    have hmap : (List.range entries.length).map
        (fun i => lensAt b ((entries.map CdEntry.lfhOff).getD i 0))
        = entries.map fun e => lensAt b e.lfhOff := by
      apply List.ext_getElem?
      intro k
      rw [List.getElem?_map, List.getElem?_map]
      by_cases hk : k < entries.length
      · rw [List.getElem?_range hk, List.getElem?_eq_getElem hk, Option.map_some, Option.map_some,
          List.getD_eq_getElem?_getD, List.getElem?_map, List.getElem?_eq_getElem hk]
        rfl
      · rw [List.getElem?_eq_none (by simpa using hk), List.getElem?_eq_none (by omega)]
        rfl
    rw [LfhInspector.finish, hnone]
    simp only
    rw [hrun, ok_bind, hlens, hmap, mapM_seen entries _ (by rw [List.length_map])]
    rfl
  · rw [if_neg hlfh]
    cases hfin : t.finish (ReadAt.ofBytes b) entries with
    | error e => rfl
    | ok lens =>
      exfalso
      apply hlfh
      intro e he
      obtain ⟨i, hi⟩ := hidx e he
      rw [LfhInspector.finish] at hfin
      cases herr : t.error with
      | some err =>
        rw [herr] at hfin
        cases hfin
      | none =>
        rw [herr] at hfin
        obtain ⟨lens', hrun, -⟩ := bind_eq_ok.mp hfin
        rcases hall herr (e, i) hi with h | h
        · obtain ⟨x, hx, hp, hl⟩ := hnoted.found _ h
          have hxi : x.2 = i := (Prod.mk.inj hp).1.symm
          have hxe : entries[i]? = some x.1 := hxi ▸ List.mem_zipIdx_iff_getElem?.mp (hmem.mp hx)
          have hei : entries[i]? = some e := List.mem_zipIdx_iff_getElem?.mp (hmem.mp hi)
          rw [hxe, Option.some.injEq] at hei
          rwa [hei] at hl
        · obtain ⟨l, hl⟩ := foldlM_readStraddler_ok _ _ _ hrun i h
          rw [hread (e, i) hi] at hl
          by_contra hn
          rw [if_neg hn] at hl
          cases hl

/-! ### The calls of the digest -/

theorem inspection_file {data tail : Bytes} (rest : List Source) {k : Nat}
    (hk : k < (Source.file 0 data tail).chunkCount) :
    inspection (Source.file 0 data tail :: rest) k
      = if ((Source.file 0 data tail).chunk k).1 = [] then none
        else some (0 + k * chunkSize, ((Source.file 0 data tail).chunk k).1) := by
  rw [inspection, locate, if_neg (Nat.not_le.mpr hk)]
  rfl

theorem locate_mem {s : Source} {idx : Nat} :
    ∀ (sources : List Source) (k : Nat), locate sources k = some (s, idx) → s ∈ sources := by
  intro sources
  induction sources with
  | nil =>
    intro k h
    cases h
  | cons r rest ih =>
    intro k h
    rw [locate] at h
    split at h
    · exact List.mem_cons_of_mem _ (ih _ h)
    · injection h with h
      injection h with h1 h2
      rw [h1]
      exact List.mem_cons_self

theorem inspection_eq_some {data tail : Bytes} {rest : List Source}
    (hrest : ∀ s ∈ rest, s.fileOff = none) {k : Nat} {c : Nat × Bytes}
    (h : inspection (Source.file 0 data tail :: rest) k = some c) :
    c = (0 + k * chunkSize, ((Source.file 0 data tail).chunk k).1) := by
  by_cases hk : k < (Source.file 0 data tail).chunkCount
  · rw [inspection_file rest hk] at h
    by_cases hnil : ((Source.file 0 data tail).chunk k).1 = []
    · rw [if_pos hnil] at h
      cases h
    · rw [if_neg hnil] at h
      exact (Option.some.inj h).symm
  · rw [inspection, locate, if_pos (Nat.not_lt.mp hk)] at h
    split at h
    · rename_i s idx hloc
      rw [hrest s (locate_mem _ _ hloc)] at h
      cases h
    · cases h

theorem slice_length_slice (l : Bytes) (i j : Nat) :
    slice l i (i + (slice l i j).length) = slice l i j := by
  rw [length_slice, slice, slice, List.take_eq_take_iff, List.length_drop]
  omega

/-- **The digest shows the inspector every header.** -/
theorem coversHeaders_contentDigest (R : Crypto) (sched : Schedule) (alg : Algorithm) (threads : Nat)
    {b tail : Bytes} {n : Nat} (hn : n ≤ b.length) {rest : List Source}
    (hrest : ∀ s ∈ rest, s.fileOff = none) {entries : List CdEntry}
    (hin : ∀ e ∈ entries, e.lfhOff < n) :
    CoversHeaders b entries
      (contentDigest R sched (Source.file 0 (b.take n) tail :: rest) alg threads).inspected := by
  have hperm := inspected_perm R sched (Source.file 0 (b.take n) tail :: rest) alg threads
  have hdata : (b.take n).length = n := by
    rw [List.length_take]
    omega
  have hlen : (Source.file 0 (b.take n) tail).len = n + tail.length := by
    rw [Source.len]
    simp only [Source.file, hdata]
  have hpos := chunkSize_pos
  generalize hcs : chunkSize = cs at hpos
  have hchunk : ∀ k, ((Source.file 0 (b.take n) tail).chunk k).1
      = slice b (min (k * cs) n) (min (min (k * cs + cs) (n + tail.length)) n) := by
    intro k
    rw [Source.chunk, hlen, hcs]
    simp only [Source.file, hdata]
    rw [slice_take _ (Nat.min_le_right _ _)]
  refine ⟨?_, ?_⟩
  · intro c hc
    obtain ⟨k, -, hk⟩ := List.mem_filterMap.mp (hperm.mem_iff.mp hc)
    rw [inspection_eq_some hrest hk, hcs, hchunk]
    simp only [Nat.zero_add]
    by_cases hi : k * cs ≤ n
    · rw [Nat.min_eq_left hi, slice_length_slice]
    · rw [slice_of_le _ (by omega), List.length_nil, slice_of_le _ (by omega)]
  · intro e he
    have hoff := hin e he
    have hlo : e.lfhOff / cs * cs ≤ e.lfhOff := Nat.div_mul_le_self _ _
    have hhi : e.lfhOff < e.lfhOff / cs * cs + cs := Nat.lt_div_mul_add hpos
    have hcount : e.lfhOff / cs < (Source.file 0 (b.take n) tail).chunkCount := by
      rw [Source.chunkCount, hlen, hcs, Nat.lt_iff_add_one_le, Nat.le_div_iff_mul_le hpos,
        Nat.add_mul]
      omega
    have hbuf : ((Source.file 0 (b.take n) tail).chunk (e.lfhOff / cs)).1.length
        = min (e.lfhOff / cs * cs + cs) n - e.lfhOff / cs * cs := by
      rw [hchunk, length_slice]
      omega
    refine ⟨(0 + e.lfhOff / cs * cs, ((Source.file 0 (b.take n) tail).chunk (e.lfhOff / cs)).1), ?_,
      ?_, ?_⟩
    · rw [hperm.mem_iff, List.mem_filterMap]
      refine ⟨e.lfhOff / cs, ?_, ?_⟩
      · rw [List.mem_range, total, List.map_cons, List.sum_cons]
        omega
      · rw [inspection_file rest hcount, hcs, if_neg]
        intro hnil
        rw [hnil, List.length_nil] at hbuf
        omega
    · simp only
      omega
    · simp only
      rw [hbuf]
      omega

/-- **The pass rides on the digest.**  Whatever the schedule of the digest threads and however the
inspector's locks are taken in between, `finish` succeeds exactly when every entry has a local
header, and returns what reading each header directly gives. -/
theorem inspector_exact (R : Crypto) (sched : Schedule) (alg : Algorithm) (threads : Nat)
    {b : Bytes} {entriesEnd : Nat} (hb : entriesEnd ≤ b.length) (tail : Bytes) {rest : List Source}
    (hrest : ∀ s ∈ rest, s.fileOff = none) {entries : List CdEntry} {s : LfhInspector}
    (hnew : LfhInspector.new entries entriesEnd = .ok s) {notes : List Note}
    (hn : notes.Perm ((contentDigest R sched (Source.file 0 (b.take entriesEnd) tail :: rest)
      alg threads).inspected.flatMap (callNotes s.order))) :
    ((∃ lens, (notes.foldl LfhInspector.note s).finish (ReadAt.ofBytes b) entries = .ok lens) ↔
      ∀ e ∈ entries, HasLfh b e.lfhOff) ∧
    ∀ lens, (notes.foldl LfhInspector.note s).finish (ReadAt.ofBytes b) entries = .ok lens →
      lens.length = entries.length ∧
      ∀ (i : Nat) (e : CdEntry) (l : LfhLens), entries[i]? = some e → lens[i]? = some l →
        readLfhLens (ReadAt.ofBytes b) e.lfhOff = .ok l := by
  obtain ⟨order, horder, -⟩ := bind_eq_ok.mp hnew
  obtain ⟨hperm, -, hin⟩ := fileOrder_eq_ok_iff.mp horder
  have hent : ∀ e ∈ entries, e.lfhOff + lfhLen ≤ entriesEnd := by
    intro e he
    obtain ⟨i, hi⟩ := List.getElem?_of_mem he
    exact hin (e, i) (hperm.mem_iff.mpr (List.mem_zipIdx_iff_getElem?.mpr hi))
  have hpos : 0 < lfhLen := by decide
  have hc : CoversHeaders b entries (contentDigest R sched
      (Source.file 0 (b.take entriesEnd) tail :: rest) alg threads).inspected :=
    coversHeaders_contentDigest R sched alg threads hb hrest (fun e he => by
      have := hent e he
      omega)
  have hfin := finish_of_perm hb hnew hc hn
  by_cases hall : ∀ e ∈ entries, HasLfh b e.lfhOff
  · rw [if_pos hall] at hfin
    have hok : (notes.foldl LfhInspector.note s).finish (ReadAt.ofBytes b) entries
        = .ok (entries.map fun e => lensAt b e.lfhOff) := toOption_eq_some.mp hfin
    refine ⟨⟨fun _ => hall, fun _ => ⟨_, hok⟩⟩, ?_⟩
    intro lens hlens
    rw [hok, Except.ok.injEq] at hlens
    subst hlens
    refine ⟨List.length_map _, ?_⟩
    intro i e l he hl
    rw [List.getElem?_map, he, Option.map_some, Option.some.injEq] at hl
    have hmem := List.mem_of_getElem? he
    rw [readLfhLens_ofBytes (Nat.le_trans (hent e hmem) hb), if_pos (hall e hmem), hl]
  · rw [if_neg hall] at hfin
    have hnone : ∀ lens, (notes.foldl LfhInspector.note s).finish (ReadAt.ofBytes b) entries
        ≠ .ok lens := by
      intro lens hlens
      rw [hlens] at hfin
      cases hfin
    exact ⟨⟨fun ⟨lens, h⟩ => absurd h (hnone lens), fun h => absurd h hall⟩,
      fun lens h => absurd h (hnone lens)⟩

def twoHeaders : Bytes :=
  lfhSig ++ List.replicate 22 0 ++ [1, 0, 0, 0] ++ ascii "a" ++ lfhSig ++ List.replicate 22 0
    ++ [1, 0, 2, 0] ++ ascii "b" ++ [7, 7]

def twoEntries : List CdEntry :=
  [⟨⟨0, 47⟩, ⟨46, 47⟩, 31, 0, 0, 0⟩, ⟨⟨47, 94⟩, ⟨93, 94⟩, 0, 0, 0, 0⟩]

theorem inspector_twoHeaders :
    ∃ s, LfhInspector.new twoEntries 64 = .ok s ∧
      ∀ (R : Crypto) (sched : Schedule) (threads : Nat),
        ∃ lens, (((contentDigest R sched [Source.file 0 (twoHeaders.take 64) [0]] .sha256
          threads).inspected.flatMap (callNotes s.order)).foldl LfhInspector.note s).finish
            (ReadAt.ofBytes twoHeaders) twoEntries = .ok lens ∧ lens.length = 2 := by
  have hnew : LfhInspector.new twoEntries 64 = .ok ⟨[(⟨⟨47, 94⟩, ⟨93, 94⟩, 0, 0, 0, 0⟩, 1),
      (⟨⟨0, 47⟩, ⟨46, 47⟩, 31, 0, 0, 0⟩, 0)], [], [], none⟩ := by rfl
  refine ⟨_, hnew, fun R sched threads => ?_⟩
  have hspec := inspector_exact R sched .sha256 threads
    (show 64 ≤ twoHeaders.length by decide) [0] (List.forall_mem_nil _) hnew (List.Perm.refl _)
  obtain ⟨lens, hlens⟩ := hspec.1.mpr (by decide)
  exact ⟨lens, hlens, (hspec.2 lens hlens).1⟩

end FastSigner.Align

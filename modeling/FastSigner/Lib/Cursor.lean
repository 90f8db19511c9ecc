import FastSigner.Lib.Bytes

/-!
# Reading through a cursor

A `Reader` consumes bytes from a cursor and may fail.  `Reads r R` describes one
completely, failures aside: it returns `x` exactly on the strings `s` with `R x s`,
and then the cursor stands behind `s`.  The rules follow the way readers are put
together, `reads_pure`, `reads_throw`, `reads_take` and `Reads.bind`, so that the
description of a parser is read off its text.
-/

namespace Lib

/-- A position in a byte string. -/
structure Cursor where
  b : Bytes
  p : Nat

abbrev Reader (ε : Type) := StateT Cursor (Except ε)

def Cursor.Valid (c : Cursor) : Prop := c.p ≤ c.b.length

/-- From `c` on stands `s`, and behind it the cursor is `c'`. -/
def Cursor.Spans (c : Cursor) (s : Bytes) (c' : Cursor) : Prop :=
  c' = ⟨c.b, c.p + s.length⟩ ∧ slice c.b c.p (c.p + s.length) = s

def Reader.take {ε : Type} (short : ε) (n : Nat) : Reader ε Bytes := fun c =>
  if c.p + n ≤ c.b.length then .ok (slice c.b c.p (c.p + n), ⟨c.b, c.p + n⟩) else .error short

/-- `r` returns `x` exactly on the strings that `R` relates to it. -/
def Reads {ε α : Type} (r : Reader ε α) (R : α → Bytes → Prop) : Prop :=
  ∀ c : Cursor, c.Valid → ∀ x c', r c = .ok (x, c') ↔ ∃ s, R x s ∧ c.Spans s c'

theorem Cursor.spans_nil {c c' : Cursor} : c.Spans [] c' ↔ c' = c := by
  rw [Cursor.Spans, List.length_nil, Nat.add_zero]
  constructor
  · exact fun h => h.1
  · exact fun h => ⟨h, slice_of_le _ (Nat.le_refl _)⟩

theorem Cursor.Spans.valid {c c' : Cursor} {s : Bytes} (hc : c.Valid) (h : c.Spans s c') :
    c'.Valid := by
  have hlen := congrArg List.length h.2
  rw [length_slice] at hlen
  rw [Cursor.Valid] at hc
  rw [h.1, Cursor.Valid]
  simp only
  omega

theorem Cursor.spans_append {c c'' : Cursor} {s t : Bytes} :
    c.Spans (s ++ t) c'' ↔ ∃ c', c.Spans s c' ∧ c'.Spans t c'' := by
  constructor
  · rintro ⟨rfl, h⟩
    have hlen := congrArg List.length h
    rw [length_slice] at hlen
    simp only [List.length_append] at h hlen ⊢
    refine ⟨⟨c.b, c.p + s.length⟩, ⟨rfl, ?_⟩, ?_, ?_⟩
    · have h1 := congrArg (List.take s.length) h
      rw [List.take_left, ← slice_zero, slice_slice_of_le _ (by omega), Nat.add_zero] at h1
      exact h1
    · simp only [Nat.add_assoc]
    · have h2 := congrArg (fun l => slice l s.length (s.length + t.length)) h
      simp only [slice_append_length, List.take_length] at h2
      rw [slice_slice_of_le _ (by omega)] at h2
      simp only [Nat.add_assoc]
      exact h2
  · rintro ⟨c', ⟨rfl, hs⟩, ⟨rfl, ht⟩⟩
    refine ⟨by simp only [List.length_append, Nat.add_assoc], ?_⟩
    simp only at ht
    rw [List.length_append, ← Nat.add_assoc, ← slice_append_slice c.b (Nat.le_add_right c.p s.length)
      (Nat.le_add_right _ t.length), hs, ht]

theorem Cursor.spans_front {b s : Bytes} {c' : Cursor} :
    (⟨b, 0⟩ : Cursor).Spans s c' ↔ c' = ⟨b, s.length⟩ ∧ ∃ t, b = s ++ t := by
  rw [Cursor.Spans]
  simp only [Nat.zero_add, slice_zero]
  constructor
  · rintro ⟨rfl, h⟩
    refine ⟨rfl, b.drop s.length, ?_⟩
    calc b = b.take s.length ++ b.drop s.length := (List.take_append_drop _ _).symm
      _ = s ++ b.drop s.length := by rw [h]
  · rintro ⟨rfl, t, rfl⟩
    exact ⟨rfl, List.take_left⟩

section Rules

variable {ε α β : Type}

theorem Reads.congr {r : Reader ε α} {R S : α → Bytes → Prop} (h : Reads r R)
    (hRS : ∀ x s, R x s ↔ S x s) : Reads r S := by
  intro c hc x c'
  rw [h c hc x c']
  simp only [hRS]

theorem reads_pure (x : α) : Reads (pure x : Reader ε α) (fun y s => y = x ∧ s = []) := by
  intro c hc y c'
  have hrun : (pure x : Reader ε α) c = .ok (x, c) := rfl
  rw [hrun, Except.ok.injEq, Prod.mk.injEq]
  constructor
  · rintro ⟨rfl, rfl⟩
    exact ⟨[], ⟨rfl, rfl⟩, Cursor.spans_nil.mpr rfl⟩
  · rintro ⟨s, ⟨rfl, rfl⟩, hs⟩
    exact ⟨rfl, (Cursor.spans_nil.mp hs).symm⟩

theorem reads_throw (e : ε) : Reads (throw e : Reader ε α) (fun _ _ => False) := by
  intro c hc x c'
  have hrun : (throw e : Reader ε α) c = .error e := rfl
  rw [hrun]
  simp

theorem reads_take (short : ε) (n : Nat) :
    Reads (Reader.take short n) (fun x s => x = s ∧ s.length = n) := by
  intro c hc x c'
  rw [Reader.take]
  split
  · rename_i hle
    rw [Except.ok.injEq, Prod.mk.injEq]
    have hlen : (slice c.b c.p (c.p + n)).length = n := by
      rw [length_slice_of_le _ hle]
      omega
    constructor
    · rintro ⟨rfl, rfl⟩
      exact ⟨_, ⟨rfl, hlen⟩, by rw [Cursor.Spans, hlen]; exact ⟨rfl, rfl⟩⟩
    · rintro ⟨s, ⟨rfl, rfl⟩, hc', hs⟩
      exact ⟨hs, hc'.symm⟩
  · rename_i hgt
    constructor
    · intro h
      cases h
    · rintro ⟨s, ⟨rfl, rfl⟩, hspan⟩
      have := hspan.valid hc
      rw [hspan.1, Cursor.Valid] at this
      exact absurd this hgt

/-- **Sequencing readers concatenates what they read.** -/
theorem Reads.bind {r : Reader ε α} {g : α → Reader ε β} {R : α → Bytes → Prop}
    {S : α → β → Bytes → Prop} (hr : Reads r R) (hg : ∀ x, Reads (g x) (S x)) :
    Reads (r >>= g) (fun y s => ∃ x s₁ s₂, R x s₁ ∧ S x y s₂ ∧ s = s₁ ++ s₂) := by
  intro c hc y c''
  have hrun : (r >>= g) c = (r c >>= fun a => g a.1 a.2) := rfl
  rw [hrun]
  constructor
  · intro h
    cases hrc : r c with
    | error e =>
      rw [hrc] at h
      cases h
    | ok a =>
      obtain ⟨x, c'⟩ := a
      rw [hrc] at h
      obtain ⟨s₁, hR, hspan⟩ := (hr c hc x c').mp hrc
      obtain ⟨s₂, hS, hspan'⟩ := (hg x c' (hspan.valid hc) y c'').mp h
      exact ⟨s₁ ++ s₂, ⟨x, s₁, s₂, hR, hS, rfl⟩, Cursor.spans_append.mpr ⟨c', hspan, hspan'⟩⟩
  · rintro ⟨s, ⟨x, s₁, s₂, hR, hS, rfl⟩, hspan⟩
    obtain ⟨c', h1, h2⟩ := Cursor.spans_append.mp hspan
    rw [(hr c hc x c').mpr ⟨s₁, hR, h1⟩]
    exact (hg x c' (h1.valid hc) y c'').mpr ⟨s₂, hS, h2⟩

theorem Reads.ite {P : Prop} [Decidable P] {r r' : Reader ε α} {R R' : α → Bytes → Prop}
    (hr : Reads r R) (hr' : Reads r' R') :
    Reads (if P then r else r') (fun x s => if P then R x s else R' x s) := by
  by_cases h : P
  · simp only [if_pos h]
    exact hr
  · simp only [if_neg h]
    exact hr'

end Rules

end Lib

import FastSigner.Lib.Bytes

/-!
# UTF-8 decoding

Text from a file need not be valid UTF-8.  `fromUtf8` accepts what is.
`fromUtf8Lossy` decodes everything: it puts U+FFFD in the place of each maximal
ill-formed piece.  Two facts matter: what was encoded decodes to itself
(`fromUtf8_utf8`, `fromUtf8Lossy_utf8`), and a text without replacement characters
comes from one byte string only (`eq_utf8_of_lossy`).
-/

namespace Lib

def utf8 (s : String) : Bytes := s.toList.flatMap String.utf8EncodeChar

/-- The character at the front of a byte string, if a well-formed one is there. -/
def decodeUtf8Char (b : Bytes) : Option Char := b.toByteArray.utf8DecodeChar? 0

def isContinuation (b : UInt8) : Bool := 0x80 ≤ b && b ≤ 0xbf

/-- Whether `b1` may follow the first byte `b0` of a three- or four-byte sequence. -/
def isSecondByte (b0 b1 : UInt8) : Bool :=
  if b0 = 0xe0 then 0xa0 ≤ b1 && b1 ≤ 0xbf
  else if b0 = 0xed then 0x80 ≤ b1 && b1 ≤ 0x9f
  else if b0 = 0xf0 then 0x90 ≤ b1 && b1 ≤ 0xbf
  else if b0 = 0xf4 then 0x80 ≤ b1 && b1 ≤ 0x8f
  else isContinuation b1

/-- How many bytes the ill-formed piece at the front has: a first byte, and what could have
continued it. -/
def illFormedLen : Bytes → Nat
  | b0 :: b1 :: rest =>
    if 0xe0 ≤ b0 ∧ b0 ≤ 0xef ∧ isSecondByte b0 b1 then 2
    else if 0xf0 ≤ b0 ∧ b0 ≤ 0xf4 ∧ isSecondByte b0 b1 then
      match rest with
      | b2 :: _ => if isContinuation b2 then 3 else 2
      | [] => 2
    else 1
  | _ => 1

def replacementChar : Char := '\uFFFD'

def fromUtf8LossyChars : (fuel : Nat) → Bytes → List Char
  | 0, _ => []
  | fuel + 1, b =>
    if b = [] then []
    else
      match decodeUtf8Char b with
      | some c => c :: fromUtf8LossyChars fuel (b.drop c.utf8Size)
      | none => replacementChar :: fromUtf8LossyChars fuel (b.drop (illFormedLen b))

/-- `String::from_utf8_lossy`. -/
def fromUtf8Lossy (b : Bytes) : String := String.ofList (fromUtf8LossyChars b.length b)

def fromUtf8Chars : (fuel : Nat) → Bytes → Option (List Char)
  | 0, b => if b = [] then some [] else none
  | fuel + 1, b =>
    if b = [] then some []
    else do
      let c ← decodeUtf8Char b
      let cs ← fromUtf8Chars fuel (b.drop c.utf8Size)
      some (c :: cs)

/-- `str::from_utf8`. -/
def fromUtf8 (b : Bytes) : Option String := (fromUtf8Chars b.length b).map String.ofList

theorem decodeUtf8Char_encode (c : Char) (rest : Bytes) :
    decodeUtf8Char (String.utf8EncodeChar c ++ rest) = some c := by
  rw [decodeUtf8Char, List.toByteArray_append]
  exact ByteArray.utf8DecodeChar?_utf8EncodeChar_append

theorem eq_of_decodeUtf8Char {b : Bytes} {c : Char} (h : decodeUtf8Char b = some c) :
    b = String.utf8EncodeChar c ++ b.drop c.utf8Size := by
  obtain ⟨l, hl⟩ := ByteArray.exists_of_utf8DecodeChar?_eq_some h
  have hb := congrArg (fun x => x.data.toList) hl
  simp only [List.data_toByteArray, ByteArray.data_append, Array.toList_append] at hb
  rw [hb, List.drop_left' (String.length_utf8EncodeChar c)]

theorem fromUtf8LossyChars_utf8 :
    ∀ (cs : List Char) (fuel : Nat), (cs.flatMap String.utf8EncodeChar).length ≤ fuel →
      fromUtf8LossyChars fuel (cs.flatMap String.utf8EncodeChar) = cs := by
  intro cs
  induction cs with
  | nil =>
    intro fuel _
    cases fuel <;> rfl
  | cons c cs ih =>
    intro fuel hfuel
    have hlen := String.length_utf8EncodeChar c
    have hpos := c.utf8Size_pos
    rw [List.flatMap_cons, List.length_append] at hfuel
    cases fuel with
    | zero => omega
    | succ fuel =>
      rw [List.flatMap_cons, fromUtf8LossyChars, if_neg (by simp),
        decodeUtf8Char_encode]
      simp only
      rw [List.drop_left' hlen, ih fuel (by omega)]

theorem fromUtf8Chars_utf8 :
    ∀ (cs : List Char) (fuel : Nat), (cs.flatMap String.utf8EncodeChar).length ≤ fuel →
      fromUtf8Chars fuel (cs.flatMap String.utf8EncodeChar) = some cs := by
  intro cs
  induction cs with
  | nil =>
    intro fuel _
    cases fuel <;> rfl
  | cons c cs ih =>
    intro fuel hfuel
    have hlen := String.length_utf8EncodeChar c
    have hpos := c.utf8Size_pos
    rw [List.flatMap_cons, List.length_append] at hfuel
    cases fuel with
    | zero => omega
    | succ fuel =>
      rw [List.flatMap_cons, fromUtf8Chars, if_neg (by simp), decodeUtf8Char_encode,
        Option.bind_eq_bind, Option.bind_some, List.drop_left' hlen, ih fuel (by omega)]
      rfl

/-- **What was encoded is accepted.** -/
theorem fromUtf8_utf8 (s : String) : fromUtf8 (utf8 s) = some s := by
  rw [fromUtf8, utf8, fromUtf8Chars_utf8 _ _ (Nat.le_refl _), Option.map_some, String.ofList_toList]

/-- **What was encoded decodes to itself.** -/
theorem fromUtf8Lossy_utf8 (s : String) : fromUtf8Lossy (utf8 s) = s := by
  rw [fromUtf8Lossy, utf8, fromUtf8LossyChars_utf8 _ _ (Nat.le_refl _), String.ofList_toList]

theorem eq_flatMap_of_lossy :
    ∀ (fuel : Nat) (b : Bytes), b.length ≤ fuel →
      replacementChar ∉ fromUtf8LossyChars fuel b →
      b = (fromUtf8LossyChars fuel b).flatMap String.utf8EncodeChar := by
  intro fuel
  induction fuel with
  | zero =>
    intro b hb _
    exact List.eq_nil_of_length_eq_zero (by omega)
  | succ fuel ih =>
    intro b hb hno
    rw [fromUtf8LossyChars] at hno ⊢
    by_cases hnil : b = []
    · rw [if_pos hnil, hnil]
      rfl
    · rw [if_neg hnil] at hno ⊢
      cases hd : decodeUtf8Char b with
      | none =>
        rw [hd] at hno
        exact absurd (List.mem_cons_self ..) hno
      | some c =>
        rw [hd] at hno
        have hpos := c.utf8Size_pos
        have hrest := ih (b.drop c.utf8Size) (by rw [List.length_drop]; omega)
          (fun h => hno (List.mem_cons_of_mem _ h))
        simp only [List.flatMap_cons]
        rw [← hrest]
        exact eq_of_decodeUtf8Char hd

/-- **A text without replacement characters comes from its own encoding only.** -/
theorem eq_utf8_of_lossy {b : Bytes} {s : String} (h : fromUtf8Lossy b = s)
    (hno : replacementChar ∉ s.toList) : b = utf8 s := by
  rw [fromUtf8Lossy] at h
  rw [← h, String.toList_ofList] at hno
  rw [utf8, ← h, String.toList_ofList]
  exact eq_flatMap_of_lossy _ _ (Nat.le_refl _) hno

theorem illFormedLen_bounds (b : Bytes) : 1 ≤ illFormedLen b ∧ illFormedLen b ≤ 3 := by
  rw [illFormedLen.eq_def]
  split
  · split
    · decide
    · split
      · split
        · split <;> decide
        · decide
      · decide
  · decide

theorem length_flatMap_lossy_le :
    ∀ (fuel : Nat) (b : Bytes), b.length ≤ fuel →
      b.length ≤ ((fromUtf8LossyChars fuel b).flatMap String.utf8EncodeChar).length := by
  intro fuel
  induction fuel with
  | zero => intro b hb; omega
  | succ fuel ih =>
    intro b hb
    rw [fromUtf8LossyChars]
    by_cases hnil : b = []
    · rw [hnil]
      exact Nat.zero_le _
    · rw [if_neg hnil]
      cases decodeUtf8Char b with
      | none =>
        obtain ⟨h1, h3⟩ := illFormedLen_bounds b
        have htail := ih (b.drop (illFormedLen b)) (by rw [List.length_drop]; omega)
        have hrep : (String.utf8EncodeChar replacementChar).length = 3 := by decide
        simp only [List.flatMap_cons, List.length_append, hrep]
        rw [List.length_drop] at htail
        omega
      | some c =>
        have hpos := c.utf8Size_pos
        have htail := ih (b.drop c.utf8Size) (by rw [List.length_drop]; omega)
        simp only [List.flatMap_cons, List.length_append, String.length_utf8EncodeChar]
        rw [List.length_drop] at htail
        omega

/-- Decoding never shortens: a replacement character takes three bytes. -/
theorem length_le_utf8_lossy (b : Bytes) : b.length ≤ (utf8 (fromUtf8Lossy b)).length := by
  rw [utf8, fromUtf8Lossy, String.toList_ofList]
  exact length_flatMap_lossy_le _ _ (Nat.le_refl _)

/-! ### UTF-16 -/

/-- The UTF-16 code units of a character. -/
def utf16Units (c : Char) : List Nat :=
  let v := c.toNat
  if v < 0x10000 then [v] else [0xd800 + (v - 0x10000) / 0x400, 0xdc00 + (v - 0x10000) % 0x400]

/-- UTF-16, the high byte of each unit first. -/
def utf16be (s : String) : Bytes := (s.toList.flatMap utf16Units).flatMap (beBytes 2)

/-- The characters of a list of code units; a surrogate without its partner is replaced. -/
def decodeUtf16 : List Nat → List Char
  | [] => []
  | [u] => if 0xd800 ≤ u ∧ u < 0xe000 then [replacementChar] else [Char.ofNat u]
  | u :: v :: rest =>
    if u < 0xd800 ∨ 0xe000 ≤ u then Char.ofNat u :: decodeUtf16 (v :: rest)
    else if u < 0xdc00 ∧ 0xdc00 ≤ v ∧ v < 0xe000 then
      Char.ofNat (0x10000 + (u - 0xd800) * 0x400 + (v - 0xdc00)) :: decodeUtf16 rest
    else replacementChar :: decodeUtf16 (v :: rest)

/-- `String::from_utf16_lossy`. -/
def fromUtf16Lossy (units : List Nat) : String := String.ofList (decodeUtf16 units)

end Lib

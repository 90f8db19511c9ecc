import FastSigner.Lib.Bytes
import FastSigner.Basic

/-!
# Walking DER

The element at an offset of a byte string, and what certificates need of it.
Only single-byte tags and definite lengths of at most four bytes are read.

`derHeader_eq_ok_iff` says what such a header is; lengths need not be in their
shortest form.  An `Element` is a tag, the octets of a length and as many bytes of
contents; `derHeader_element`, `derSkip_element` and `derExpect_element` say what
the readers make of one.  `der` is the encoding that has the shortest form, and
`derExpect_der` reads it back from the middle of a string.
-/

namespace FastSigner.Keys

open Lib

def okOr {ε α : Type} (o : Option α) (e : ε) : Except ε α :=
  match o with
  | some a => .ok a
  | none => .error e

theorem okOr_eq_ok {ε α : Type} {o : Option α} {e : ε} {a : α} : okOr o e = .ok a ↔ o = some a := by
  cases o with
  | none => simp [okOr]
  | some b => simp [okOr]

def hex (b : UInt8) : String :=
  "0x" ++ (if b < 0x10 then "0" else "") ++ String.ofList (Nat.toDigits 16 b.toNat)

def derTruncated : String := "truncated or malformed DER"

/-- The length bytes of the long form, `n` of them from `q` on. -/
def derLongLen (b : Bytes) (q n : Nat) : Except String Nat :=
  (List.range n).foldlM (fun len i => do
    let x ← okOr b[q + i]? derTruncated
    pure (len <<< 8 ||| x.toNat)) 0

/-- The length of the element at `p` and the size of its header; `first` is the byte after the
tag. -/
def derLen (b : Bytes) (p : Nat) (first : UInt8) : Except String (Nat × Nat) :=
  if first < 0x80 then .ok (first.toNat, 2)
  else
    let n := (first &&& 0x7f).toNat
    if n = 0 ∨ n > 4 then .error "unsupported DER length encoding"
    else do
      let len ← derLongLen b (p + 2) n
      pure (len, 2 + n)

/-- Tag, start and length of the contents of the element at `p`. -/
def derHeader (b : Bytes) (p : Nat) : Except String (UInt8 × Nat × Nat) := do
  let tag ← okOr b[p]? derTruncated
  if tag &&& 0x1f = 0x1f then throw "multi-byte DER tags are not supported"
  let first ← okOr b[p + 1]? derTruncated
  let (len, hdr) ← derLen b p first
  let start := p + hdr
  if start + len > b.length then throw derTruncated
  pure (tag, start, len)

def derSkip (b : Bytes) (p : Nat) : Except String Nat := do
  let (_, s, l) ← derHeader b p
  pure (s + l)

def derExpect (b : Bytes) (p : Nat) (tag : UInt8) : Except String (Nat × Nat) := do
  let (t, s, l) ← derHeader b p
  if t ≠ tag then
    throw ("expected DER tag " ++ hex tag ++ ", found " ++ hex t ++ " at offset " ++ toString p)
  pure (s, l)

/-- The DER-encoded SubjectPublicKeyInfo of an X.509 certificate. -/
def spkiFromCert (cert : Bytes) : Except String Bytes := do
  let (tbs, _) ← derExpect cert 0 0x30
  let (p, _) ← derExpect cert tbs 0x30
  let (tag, _, _) ← derHeader cert p
  let p ← if tag = 0xa0 then derSkip cert p else pure p
  let p ← derSkip cert p
  let p ← derSkip cert p
  let p ← derSkip cert p
  let p ← derSkip cert p
  let p ← derSkip cert p
  let (s, l) ← derExpect cert p 0x30
  pure (slice cert p (s + l))

/-- Raw DER (issuer, subject) names of an X.509 certificate. -/
def certIssuerSubject (cert : Bytes) : Except String (Bytes × Bytes) := do
  let (tbs, _) ← derExpect cert 0 0x30
  let (p, _) ← derExpect cert tbs 0x30
  let (tag, _, _) ← derHeader cert p
  let p ← if tag = 0xa0 then derSkip cert p else pure p
  let p ← derSkip cert p
  let p ← derSkip cert p
  let issuerEnd ← derSkip cert p
  let subjectStart ← derSkip cert issuerEnd
  let subjectEnd ← derSkip cert subjectStart
  pure (slice cert p issuerEnd, slice cert subjectStart subjectEnd)

/-- Contents of the BIT STRING inside a SubjectPublicKeyInfo. -/
def spkiPublicKeyBits (spki : Bytes) : Except String Bytes := do
  let (p, _) ← derExpect spki 0 0x30
  let p ← derSkip spki p
  let (s, l) ← derExpect spki p 0x03
  if l = 0 ∨ spki[s]? ≠ some 0 then
    throw "unexpected BIT STRING padding in SubjectPublicKeyInfo"
  pure (slice spki (s + 1) (s + l))

/-! ### Lengths -/

/-- The octets `ls` state the length `n`: one octet below `0x80`, or the number of the octets that
follow and at most four of them. -/
inductive LengthOctets : Bytes → Nat → Prop
  | short {first : UInt8} (h : first < 0x80) : LengthOctets [first] first.toNat
  | long {ds : Bytes} (hpos : ds ≠ []) (hle : ds.length ≤ 4) :
    LengthOctets (UInt8.ofNat (0x80 + ds.length) :: ds) (beNat ds)

theorem derLongLen_eq {b : Bytes} {q : Nat} :
    ∀ {n : Nat}, q + n ≤ b.length → derLongLen b q n = .ok (beNat (slice b q (q + n))) := by
  intro n
  induction n with
  | zero =>
    intro _
    rw [Nat.add_zero, slice_of_le b (Nat.le_refl _)]
    rfl
  | succ n ih =>
    intro h
    have hlt : q + n < b.length := by omega
    have hslice : slice b q (q + (n + 1)) = slice b q (q + n) ++ [b[q + n]] := by
      rw [← slice_append_slice b (Nat.le_add_right q n) (show q + n ≤ q + (n + 1) by omega)]
      congr 1
      rw [slice, List.drop_eq_getElem_cons hlt, ← Nat.add_assoc, Nat.add_sub_cancel_left,
        List.take_succ_cons, List.take_zero]
    have hor (x : Nat) (c : UInt8) : x <<< 8 ||| c.toNat = x * 256 + c.toNat := by
      rw [← Nat.shiftLeft_add_eq_or_of_lt (show c.toNat < 2 ^ 8 from c.toNat_lt), Nat.shiftLeft_eq]
    have ih := ih (by omega)
    rw [derLongLen] at ih ⊢
    rw [List.range_succ, List.foldlM_append, ih, ok_bind, List.foldlM_cons,
      List.getElem?_eq_getElem hlt, okOr, hslice, beNat_concat, ← hor]
    rfl

theorem derLongLen_bounds {b : Bytes} {q : Nat} :
    ∀ {n len : Nat}, 0 < n → derLongLen b q n = .ok len → q + n ≤ b.length := by
  intro n len hn h
  obtain ⟨m, rfl⟩ : ∃ m, n = m + 1 := ⟨n - 1, by omega⟩
  rw [derLongLen, List.range_succ, List.foldlM_append, bind_eq_ok] at h
  obtain ⟨x, -, h⟩ := h
  rw [List.foldlM_cons, bind_eq_ok] at h
  obtain ⟨y, h, -⟩ := h
  obtain ⟨c, hc, -⟩ := bind_eq_ok.mp h
  have := (List.getElem?_eq_some_iff.mp (okOr_eq_ok.mp hc)).1
  omega

theorem toNat_longForm {n : Nat} (h : n ≤ 4) : (UInt8.ofNat (0x80 + n)).toNat = 0x80 + n := by
  rw [UInt8.toNat_ofNat', Nat.mod_eq_of_lt (by omega)]

theorem toNat_and_7f (x : UInt8) : (x &&& 0x7f).toNat = x.toNat % 128 := by
  rw [UInt8.toNat_and]
  exact Nat.and_two_pow_sub_one_eq_mod x.toNat 7

/-- **What `derLen` reads**, when the first length octet is at `p + 1`. -/
theorem derLen_eq_ok_iff {b : Bytes} {p len hdr : Nat} {first : UInt8}
    (hfirst : b[p + 1]? = some first) :
    derLen b p first = .ok (len, hdr) ↔
      ∃ ls, LengthOctets ls len ∧ slice b (p + 1) (p + 1 + ls.length) = ls ∧
        hdr = 1 + ls.length := by
  have hlt := (List.getElem?_eq_some_iff.mp hfirst).1
  have hdrop : b.drop (p + 1) = first :: b.drop (p + 2) := by
    rw [List.drop_eq_getElem_cons hlt, (List.getElem?_eq_some_iff.mp hfirst).2]
  have hslice (n : Nat) : slice b (p + 1) (p + 1 + (n + 1)) = first :: slice b (p + 2) (p + 2 + n) := by
    rw [slice, hdrop, Nat.add_sub_cancel_left, List.take_succ_cons, slice, Nat.add_sub_cancel_left]
  rw [derLen]
  by_cases hshort : first < 0x80
  · rw [if_pos hshort]
    constructor
    · intro h
      injection h with h
      injection h with h1 h2
      subst h1 h2
      refine ⟨[first], .short hshort, ?_, rfl⟩
      rw [List.length_singleton, hslice 0, slice_of_le _ (Nat.le_refl _)]
    · rintro ⟨ls, hls, hs, rfl⟩
      cases hls with
      | short h =>
        rw [List.length_singleton, hslice 0] at hs
        injection hs with hs
        rw [hs]
        rfl
      | @long ds hpos hle =>
        rw [List.length_cons, hslice] at hs
        injection hs with hs
        rw [hs] at hshort
        rw [UInt8.lt_iff_toNat_lt, toNat_longForm hle] at hshort
        exact absurd hshort (by simp)
  · rw [if_neg hshort]
    have hge : 128 ≤ first.toNat := by
      rw [UInt8.lt_iff_toNat_lt, Nat.not_lt] at hshort
      exact hshort
    have hmax : first.toNat < 256 := first.toNat_lt
    simp only [toNat_and_7f]
    generalize hn : first.toNat % 128 = n
    have hfirst' : first = UInt8.ofNat (0x80 + n) := by
      apply UInt8.toNat.inj
      rw [UInt8.toNat_ofNat']
      omega
    by_cases hbad : n = 0 ∨ n > 4
    · rw [if_pos hbad]
      constructor
      · intro h
        cases h
      · rintro ⟨ls, hls, hs, -⟩
        cases hls with
        | short h =>
          rw [List.length_singleton, hslice 0] at hs
          injection hs with hs
          exact absurd (hs ▸ h) hshort
        | @long ds hpos hle =>
          rw [List.length_cons, hslice] at hs
          injection hs with hs _
          have hds : n = ds.length := by
            rw [← hn, hs, toNat_longForm hle]
            omega
          have := List.length_pos_iff.mpr hpos
          omega
    · rw [if_neg hbad]
      constructor
      · intro h
        obtain ⟨x, hx, h⟩ := bind_eq_ok.mp h
        injection h with h
        injection h with h1 h2
        subst h1 h2
        have hin := derLongLen_bounds (by omega) hx
        rw [derLongLen_eq hin] at hx
        injection hx with hx
        have hlen : (slice b (p + 2) (p + 2 + n)).length = n := by
          rw [length_slice_of_le _ hin]
          omega
        refine ⟨first :: slice b (p + 2) (p + 2 + n), ?_, ?_, ?_⟩
        · rw [← hx, hfirst']
          nth_rewrite 1 [← hlen]
          refine .long ?_ (by omega)
          intro hnil
          rw [hnil, List.length_nil] at hlen
          omega
        · rw [List.length_cons, hlen, hslice]
        · rw [List.length_cons, hlen]
          omega
      · rintro ⟨ls, hls, hs, rfl⟩
        cases hls with
        | short h =>
          rw [List.length_singleton, hslice 0] at hs
          injection hs with hs
          exact absurd (hs ▸ h) hshort
        | @long ds hpos hle =>
          rw [List.length_cons, hslice] at hs
          injection hs with hs htail
          have hds : n = ds.length := by
            rw [← hn, hs, toNat_longForm hle]
            omega
          have hin : p + 2 + n ≤ b.length := by
            have := congrArg List.length htail
            rw [length_slice] at this
            have := List.length_pos_iff.mpr hpos
            omega
          rw [derLongLen_eq hin, ok_bind, hds, htail, List.length_cons]
          show Except.ok (beNat ds, 2 + ds.length) = _
          rw [show 2 + ds.length = 1 + (ds.length + 1) by omega]

theorem LengthOctets.length_pos {ls : Bytes} {n : Nat} (h : LengthOctets ls n) : 0 < ls.length := by
  cases h with
  | short => exact Nat.one_pos
  | long => exact Nat.succ_pos _

/-- **What the header of an element is**: a tag of one byte and the octets of its length, with the
contents inside the string. -/
theorem derHeader_eq_ok_iff {b : Bytes} {p s l : Nat} {tag : UInt8} :
    derHeader b p = .ok (tag, s, l) ↔
      tag &&& 0x1f ≠ 0x1f ∧ ∃ ls, LengthOctets ls l ∧ slice b p s = tag :: ls ∧
        s = p + 1 + ls.length ∧ s + l ≤ b.length := by
  have hsplit {ls : Bytes} {t : UInt8} (hls : 0 < ls.length) :
      slice b p (p + 1 + ls.length) = t :: ls ↔
        b[p]? = some t ∧ slice b (p + 1) (p + 1 + ls.length) = ls := by
    by_cases hp : p < b.length
    · have hcons : slice b p (p + 1 + ls.length)
          = b[p] :: slice b (p + 1) (p + 1 + ls.length) := by
        rw [slice, List.drop_eq_getElem_cons hp, show p + 1 + ls.length - p = ls.length + 1 by omega,
          List.take_succ_cons, slice, Nat.add_sub_cancel_left]
      rw [hcons, List.cons.injEq, List.getElem?_eq_getElem hp, Option.some.injEq]
    · have hnil : slice b p (p + 1 + ls.length) = [] := by
        rw [slice, List.drop_of_length_le (by omega), List.take_nil]
      rw [hnil, List.getElem?_eq_none (by omega)]
      constructor
      · intro h
        cases h
      · intro h
        cases h.1
  constructor
  · intro h
    simp only [derHeader, bind_eq_ok] at h
    obtain ⟨t, ht, h⟩ := h
    rw [okOr_eq_ok] at ht
    split at h
    · cases h
    · rename_i htag
      simp only [bind_eq_ok] at h
      obtain ⟨first, hfirst, ⟨len, hdr⟩, hlen, h⟩ := h
      obtain ⟨ls, hls, hslice, rfl⟩ := (derLen_eq_ok_iff (okOr_eq_ok.mp hfirst)).mp hlen
      simp only at h
      split at h
      · cases h
      · rename_i hfit
        injection h with h
        injection h with h1 h
        injection h with h2 h3
        subst h1 h2 h3
        refine ⟨htag, ls, hls, ?_, by omega, by omega⟩
        rw [← Nat.add_assoc, hsplit hls.length_pos]
        exact ⟨ht, hslice⟩
  · rintro ⟨htag, ls, hls, hslice, rfl, hfit⟩
    obtain ⟨ht, hslice⟩ := (hsplit hls.length_pos).mp hslice
    have hin : p + 1 < b.length := by
      have := hls.length_pos
      omega
    have hlen := (derLen_eq_ok_iff (List.getElem?_eq_getElem hin)).mpr ⟨ls, hls, hslice, rfl⟩
    rw [derHeader, ht, okOr, ok_bind, if_neg htag, List.getElem?_eq_getElem hin]
    show (derLen b p b[p + 1] >>= fun x : Nat × Nat =>
      if p + x.2 + x.1 > b.length then throw derTruncated else pure (tag, p + x.2, x.1)) = _
    rw [hlen, ok_bind, if_neg (by simp only; omega), ← Nat.add_assoc]
    rfl

theorem derHeader_bounds {b : Bytes} {p s l : Nat} {tag : UInt8}
    (h : derHeader b p = .ok (tag, s, l)) : p + 2 ≤ s ∧ s + l ≤ b.length := by
  obtain ⟨-, ls, hls, -, rfl, hfit⟩ := derHeader_eq_ok_iff.mp h
  have := hls.length_pos
  omega

/-! ### Elements -/

/-- An encoded element with a single-byte tag; `Len` says which octets may state a length. -/
structure Element (Len : Bytes → Nat → Prop) where
  tag : UInt8
  size : Bytes
  body : Bytes
  tag_short : tag &&& 0x1f ≠ 0x1f
  size_states : Len size body.length

/-- The whole encoding, header included. -/
def Element.raw {Len : Bytes → Nat → Prop} (e : Element Len) : Bytes := e.tag :: e.size ++ e.body

def Element.mono {Len Len' : Bytes → Nat → Prop} (h : ∀ {ls n}, Len ls n → Len' ls n)
    (e : Element Len) : Element Len' :=
  ⟨e.tag, e.size, e.body, e.tag_short, h e.size_states⟩

theorem derHeader_eq_ok_iff_element {b : Bytes} {p s l : Nat} {tag : UInt8} :
    derHeader b p = .ok (tag, s, l) ↔
      ∃ (e : Element LengthOctets) (rest : Bytes), b.drop p = e.raw ++ rest ∧ tag = e.tag ∧
        s = p + (1 + e.size.length) ∧ l = e.body.length := by
  rw [derHeader_eq_ok_iff]
  constructor
  · rintro ⟨htag, ls, hls, hslice, rfl, hfit⟩
    have hbody : (slice b (p + 1 + ls.length) (p + 1 + ls.length + l)).length = l := by
      rw [length_slice_of_le _ hfit]
      omega
    refine ⟨⟨tag, ls, slice b (p + 1 + ls.length) (p + 1 + ls.length + l), htag, ?_⟩,
      b.drop (p + 1 + ls.length + l), ?_, rfl, by simp only; omega, hbody.symm⟩
    · rw [hbody]
      exact hls
    · simp only [Element.raw]
      rw [← hslice, slice_append_slice b (by omega) (by omega), slice_append_drop b (by omega)]
  · rintro ⟨e, rest, hdrop, rfl, rfl, rfl⟩
    have hlen := congrArg List.length hdrop
    simp only [Element.raw, List.length_drop, List.length_append, List.length_cons] at hlen
    refine ⟨e.tag_short, e.size, e.size_states, ?_, by omega, by omega⟩
    rw [slice, hdrop, Element.raw, List.append_assoc, Nat.add_sub_cancel_left]
    exact List.take_left' (by rw [List.length_cons]; omega)

variable {b rest : Bytes} {p : Nat}

theorem derHeader_element {e : Element LengthOctets} (h : b.drop p = e.raw ++ rest) :
    derHeader b p = .ok (e.tag, p + (1 + e.size.length), e.body.length) :=
  derHeader_eq_ok_iff_element.mpr ⟨e, rest, h, rfl, rfl, rfl⟩

theorem Element.length_raw {Len : Bytes → Nat → Prop} (e : Element Len) :
    e.raw.length = 1 + e.size.length + e.body.length := by
  simp only [Element.raw, List.length_append, List.length_cons]
  omega

theorem Element.drop_body {Len : Bytes → Nat → Prop} {e : Element Len}
    (h : b.drop p = e.raw ++ rest) : b.drop (p + (1 + e.size.length)) = e.body ++ rest := by
  rw [← List.drop_drop, h, Element.raw, List.append_assoc]
  exact List.drop_left' (by rw [List.length_cons]; omega)

theorem Element.drop_raw {Len : Bytes → Nat → Prop} {e : Element Len}
    (h : b.drop p = e.raw ++ rest) : b.drop (p + e.raw.length) = rest := by
  rw [← List.drop_drop, h, List.drop_left]

theorem Element.slice_raw {Len : Bytes → Nat → Prop} {e : Element Len}
    (h : b.drop p = e.raw ++ rest) : slice b p (p + e.raw.length) = e.raw := by
  rw [slice, h, Nat.add_sub_cancel_left, List.take_left]

theorem Element.slice_body {Len : Bytes → Nat → Prop} {e : Element Len}
    (h : b.drop p = e.raw ++ rest) :
    slice b (p + (1 + e.size.length)) (p + e.raw.length) = e.body := by
  rw [slice, e.drop_body h, e.length_raw, show p + (1 + e.size.length + e.body.length)
    - (p + (1 + e.size.length)) = e.body.length by omega, List.take_left]

theorem derSkip_element {e : Element LengthOctets} (h : b.drop p = e.raw ++ rest) :
    derSkip b p = .ok (p + e.raw.length) := by
  have hlen := e.length_raw
  rw [derSkip, derHeader_element h, ok_bind,
    show p + e.raw.length = p + (1 + e.size.length) + e.body.length by omega]
  rfl

theorem derExpect_element {e : Element LengthOctets} (h : b.drop p = e.raw ++ rest) :
    derExpect b p e.tag = .ok (p + (1 + e.size.length), e.body.length) := by
  rw [derExpect, derHeader_element h, ok_bind]
  exact if_neg (fun hne => hne rfl)

/-! ### The encoding -/

def derLength (n : Nat) : Bytes :=
  if n < 0x80 then [UInt8.ofNat n]
  else
    let k := n.log2 / 8 + 1
    UInt8.ofNat (0x80 + k) :: beBytes k n

def derHead (tag : UInt8) (n : Nat) : Bytes := tag :: derLength n

def der (tag : UInt8) (body : Bytes) : Bytes := derHead tag body.length ++ body

theorem der_eq (tag : UInt8) (body : Bytes) : der tag body = derHead tag body.length ++ body := rfl

theorem length_le_der (tag : UInt8) (body : Bytes) : body.length ≤ (der tag body).length := by
  rw [der_eq, List.length_append]
  omega

/-- The shortest form is read, up to four octets. -/
theorem lengthOctets_derLength {n : Nat} (h : n < 2 ^ 32) : LengthOctets (derLength n) n := by
  rw [derLength]
  by_cases hn : n < 0x80
  · rw [if_pos hn]
    have hnat : (UInt8.ofNat n).toNat = n := by
      rw [UInt8.toNat_ofNat', Nat.mod_eq_of_lt (by omega)]
    have hshort : UInt8.ofNat n < 0x80 := by
      rw [UInt8.lt_iff_toNat_lt, hnat]
      exact hn
    have := LengthOctets.short hshort
    rwa [hnat] at this
  · rw [if_neg hn]
    have hlog : n.log2 < 32 := (Nat.log2_lt (by omega)).mpr h
    have hfit : n < 256 ^ (n.log2 / 8 + 1) := by
      rw [show 256 = 2 ^ 8 from rfl, ← Nat.pow_mul]
      exact (Nat.log2_lt (by omega)).mp (by omega)
    have hlen := length_beBytes (n.log2 / 8 + 1) n
    have := @LengthOctets.long (beBytes (n.log2 / 8 + 1) n)
      (fun hnil => by rw [hnil] at hlen; cases hlen) (by rw [hlen]; omega)
    rwa [hlen, beNat_beBytes_of_lt hfit] at this

def derElement (tag : UInt8) (body : Bytes) (htag : tag &&& 0x1f ≠ 0x1f)
    (hlen : body.length < 2 ^ 32) : Element LengthOctets :=
  ⟨tag, derLength body.length, body, htag, lengthOctets_derLength hlen⟩

theorem length_der_le {tag : UInt8} {body : Bytes} (h : body.length < 2 ^ 32) :
    (der tag body).length ≤ body.length + 6 := by
  have hls : ∀ {ls : Bytes} {n : Nat}, LengthOctets ls n → ls.length ≤ 5 := by
    intro ls n hls
    cases hls with
    | short => exact Nat.le_add_left 1 4
    | long _ hle => exact Nat.succ_le_succ hle
  have := hls (lengthOctets_derLength h)
  rw [der, derHead, List.length_append, List.length_cons]
  omega

theorem length_der_le_of_lt {tag : UInt8} {body : Bytes} (h : body.length < 2 ^ 40) :
    (der tag body).length ≤ body.length + 7 := by
  have hls : (derLength body.length).length ≤ 6 := by
    rw [derLength]
    split
    · exact Nat.le_add_left 1 5
    · have hlog : body.length.log2 < 40 := (Nat.log2_lt (by omega)).mpr h
      rw [List.length_cons, length_beBytes]
      omega
  rw [der, derHead, List.length_append, List.length_cons]
  omega

/-- A length of five octets is refused. -/
theorem derHeader_der_of_long {tag : UInt8} {body : Bytes} (htag : tag &&& 0x1f ≠ 0x1f)
    (h : 2 ^ 32 ≤ body.length) (h' : body.length < 2 ^ 40) :
    derHeader (der tag body) 0 = .error "unsupported DER length encoding" := by
  have hlow : 32 ≤ body.length.log2 := (Nat.le_log2 (by omega)).mpr h
  have hhigh : body.length.log2 < 40 := (Nat.log2_lt (by omega)).mpr h'
  have hk : body.length.log2 / 8 + 1 = 5 := by omega
  have hder : der tag body = tag :: 0x85 :: (beBytes 5 body.length ++ body) := by
    rw [der, derHead, derLength, if_neg (by omega)]
    simp only [hk]
    rfl
  rw [hder, derHeader]
  simp only [List.getElem?_cons_zero, List.getElem?_cons_succ, okOr, ok_bind]
  rw [if_neg htag]
  rfl

theorem derExpect_der (a : Bytes) {tag : UInt8} (htag : tag &&& 0x1f ≠ 0x1f) {body : Bytes}
    (h : body.length < 2 ^ 32) (b : Bytes) :
    derExpect (a ++ (der tag body ++ b)) a.length tag
      = .ok ((a ++ derHead tag body.length).length, body.length) := by
  have hdrop : (a ++ (der tag body ++ b)).drop a.length = (derElement tag body htag h).raw ++ b :=
    List.drop_left
  rw [List.length_append, derHead, List.length_cons, Nat.add_comm _ 1]
  exact derExpect_element hdrop

theorem slice_der (a : Bytes) (tag : UInt8) (body b : Bytes) :
    slice (a ++ (der tag body ++ b)) (a ++ derHead tag body.length).length
      ((a ++ derHead tag body.length).length + body.length) = body := by
  rw [der, List.append_assoc, ← List.append_assoc a, slice_append_length, List.take_left]

theorem length_der_append (a : Bytes) (tag : UInt8) (body : Bytes) :
    (a ++ derHead tag body.length).length + body.length = (a ++ der tag body).length := by
  rw [der, ← List.append_assoc]
  exact List.length_append.symm

end FastSigner.Keys

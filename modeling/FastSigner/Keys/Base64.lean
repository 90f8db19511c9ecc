import FastSigner.Lib.Utf8
import FastSigner.Basic

/-!
# Base64

`base64_decode` keeps the bits that do not make up a byte yet in an accumulator,
and passes over padding and white space wherever they stand.  `base64` is the
encoding, in either alphabet and with or without padding; what was encoded is
decoded to itself (`base64Decode_base64`).
-/

namespace FastSigner.Keys

open Lib

/-- Why a PEM file is refused. -/
inductive PemError
  | notUtf8 -- "PEM file is not valid UTF-8"
  | endWithoutBegin -- "PEM END without BEGIN"
  | base64 (c : UInt8) -- "invalid base64 character {c}"
  deriving DecidableEq, Repr

/-- What a byte of the text stands for. -/
inductive Symbol
  | value (v : Nat)
  | skip
  | invalid
  deriving DecidableEq, Repr

def symbol (c : UInt8) : Symbol :=
  if 0x41 ≤ c ∧ c ≤ 0x5a then .value (c - 0x41).toNat
  else if 0x61 ≤ c ∧ c ≤ 0x7a then .value (c - 0x61 + 26).toNat
  else if 0x30 ≤ c ∧ c ≤ 0x39 then .value (c - 0x30 + 52).toNat
  -- plus, minus; slash, underscore
  else if c = 0x2b ∨ c = 0x2d then .value 62
  else if c = 0x2f ∨ c = 0x5f then .value 63
  -- the padding, and white space
  else if c = 0x3d ∨ c = 0x0a ∨ c = 0x0d ∨ c = 0x20 ∨ c = 0x09 then .skip
  else .invalid

/-- The bits that are left over, how many, and the bytes so far. -/
structure Base64 where
  acc : Nat
  bits : Nat
  out : Bytes
  deriving DecidableEq, Repr

def base64Step (s : Base64) (c : UInt8) : Except PemError Base64 :=
  match symbol c with
  | .skip => .ok s
  | .invalid => .error (.base64 c)
  | .value v =>
    let acc := s.acc <<< 6 ||| v
    let bits := s.bits + 6
    if 8 ≤ bits then
      let bits := bits - 8
      .ok ⟨acc &&& (1 <<< bits - 1), bits, s.out ++ [UInt8.ofNat (acc >>> bits)]⟩
    else .ok ⟨acc, bits, s.out⟩

def base64Decode (s : Bytes) : Except PemError Bytes :=
  (s.foldlM base64Step ⟨0, 0, []⟩).map Base64.out

/-! ### The encoding -/

def base64Char (url : Bool) (v : Nat) : Char :=
  if v < 26 then Char.ofNat (0x41 + v)
  else if v < 52 then Char.ofNat (0x61 + (v - 26))
  else if v < 62 then Char.ofNat (0x30 + (v - 52))
  else if v = 62 then (if url then '-' else '+')
  else if url then '_' else '/'

def sextets : Bytes → List Nat
  | a :: b :: c :: rest =>
    a.toNat / 4 :: (a.toNat % 4 * 16 + b.toNat / 16) :: (b.toNat % 16 * 4 + c.toNat / 64)
      :: c.toNat % 64 :: sextets rest
  | [a, b] => [a.toNat / 4, a.toNat % 4 * 16 + b.toNat / 16, b.toNat % 16 * 4]
  | [a] => [a.toNat / 4, a.toNat % 4 * 16]
  | [] => []

/-- The base64 text of a string. -/
def base64 (url pad : Bool) (b : Bytes) : List Char :=
  (sextets b).map (base64Char url)
    ++ if pad then List.replicate ((3 - b.length % 3) % 3) '=' else []

theorem sextets_lt (b : Bytes) : ∀ v ∈ sextets b, v < 64 := by
  induction b using sextets.induct with
  | case1 a b c rest ih =>
    have ha := a.toNat_lt
    have hb := b.toNat_lt
    have hc := c.toNat_lt
    rw [sextets]
    simp only [List.forall_mem_cons]
    exact ⟨by omega, by omega, by omega, by omega, ih⟩
  | case2 a b =>
    have ha := a.toNat_lt
    have hb := b.toNat_lt
    rw [sextets]
    simp only [List.forall_mem_cons]
    exact ⟨by omega, by omega, by omega, fun _ h => nomatch h⟩
  | case3 a =>
    have ha := a.toNat_lt
    rw [sextets]
    simp only [List.forall_mem_cons]
    exact ⟨by omega, by omega, fun _ h => nomatch h⟩
  | case4 => exact fun _ h => nomatch h

theorem utf8EncodeChar_of_lt {c : Char} (h : c.toNat < 128) :
    String.utf8EncodeChar c = [UInt8.ofNat c.toNat] := by
  rw [String.utf8EncodeChar, if_pos (by rw [Char.toNat_val]; omega)]
  rfl

/-- Both alphabets are read back. -/
theorem symbol_base64Char {v : Nat} (hv : v < 64) (url : Bool) :
    (base64Char url v).toNat < 128 ∧
      symbol (UInt8.ofNat (base64Char url v).toNat) = .value v := by
  have hall : ∀ url : Bool, ∀ v : Fin 64, (base64Char url v).toNat < 128 ∧
      symbol (UInt8.ofNat (base64Char url v).toNat) = .value v := by decide
  exact hall url ⟨v, hv⟩

/-! ### Reading back -/

def Base64.push (s : Base64) (v : Nat) : Base64 :=
  if 8 ≤ s.bits + 6 then
    ⟨(s.acc * 64 + v) % 2 ^ (s.bits + 6 - 8), s.bits + 6 - 8,
      s.out ++ [UInt8.ofNat ((s.acc * 64 + v) / 2 ^ (s.bits + 6 - 8))]⟩
  else ⟨s.acc * 64 + v, s.bits + 6, s.out⟩

theorem base64Step_value {c : UInt8} {v : Nat} (hc : symbol c = .value v) (hv : v < 64)
    (s : Base64) : base64Step s c = .ok (s.push v) := by
  have hacc : s.acc <<< 6 ||| v = s.acc * 64 + v := by
    rw [← Nat.shiftLeft_add_eq_or_of_lt (show v < 2 ^ 6 from hv), Nat.shiftLeft_eq]
  rw [base64Step, hc, Base64.push]
  simp only [hacc, Nat.one_shiftLeft, Nat.and_two_pow_sub_one_eq_mod, Nat.shiftRight_eq_div_pow]
  split <;> rfl

theorem foldlM_base64Step {url : Bool} {vs : List Nat} (hvs : ∀ v ∈ vs, v < 64) :
    ∀ s : Base64, ((vs.map (base64Char url)).flatMap String.utf8EncodeChar).foldlM base64Step s
      = .ok (vs.foldl Base64.push s) := by
  induction vs with
  | nil => intro s; rfl
  | cons v vs ih =>
    intro s
    have hv := hvs v List.mem_cons_self
    obtain ⟨hascii, hsym⟩ := symbol_base64Char hv url
    rw [List.map_cons, List.flatMap_cons, utf8EncodeChar_of_lt hascii, List.singleton_append,
      List.foldlM_cons, base64Step_value hsym hv, ok_bind, List.foldl_cons]
    exact ih (fun x hx => hvs x (List.mem_cons_of_mem _ hx)) _

theorem out_foldl_push (b : Bytes) :
    ∀ out : Bytes, ((sextets b).foldl Base64.push ⟨0, 0, out⟩).out = out ++ b := by
  have hbyte : ∀ {x : UInt8} {n : Nat}, n = x.toNat → UInt8.ofNat n = x := by
    rintro x n rfl
    exact UInt8.ofNat_toNat
  induction b using sextets.induct with
  | case1 a b c rest ih =>
    intro out
    have ha := a.toNat_lt
    have hb := b.toNat_lt
    have hc := c.toNat_lt
    have hgroup : [a.toNat / 4, a.toNat % 4 * 16 + b.toNat / 16, b.toNat % 16 * 4 + c.toNat / 64,
        c.toNat % 64].foldl Base64.push ⟨0, 0, out⟩ = ⟨0, 0, out ++ [a, b, c]⟩ := by
      simp only [List.foldl_cons, List.foldl_nil, Base64.push]
      simp only [Nat.zero_mul, Nat.zero_add, Nat.reduceAdd, Nat.reduceSub, Nat.reduceLeDiff, if_true,
        if_false, Nat.reducePow, Nat.mod_one, Nat.div_one, List.append_assoc, List.cons_append,
        List.nil_append, Base64.mk.injEq, List.append_cancel_left_eq, List.cons.injEq, and_true,
        true_and]
      exact ⟨hbyte (by omega), hbyte (by omega), hbyte (by omega)⟩
    have hsplit : sextets (a :: b :: c :: rest)
        = [a.toNat / 4, a.toNat % 4 * 16 + b.toNat / 16, b.toNat % 16 * 4 + c.toNat / 64,
            c.toNat % 64] ++ sextets rest := rfl
    rw [hsplit, List.foldl_append, hgroup, ih, List.append_assoc]
    rfl
  | case2 a b =>
    intro out
    have ha := a.toNat_lt
    have hb := b.toNat_lt
    simp only [sextets, List.foldl_cons, List.foldl_nil, Base64.push]
    simp only [Nat.zero_mul, Nat.zero_add, Nat.reduceAdd, Nat.reduceSub, Nat.reduceLeDiff, if_true,
      if_false, Nat.reducePow, List.append_assoc, List.cons_append, List.nil_append,
      List.append_cancel_left_eq, List.cons.injEq, and_true]
    exact ⟨hbyte (by omega), hbyte (by omega)⟩
  | case3 a =>
    intro out
    have ha := a.toNat_lt
    simp only [sextets, List.foldl_cons, List.foldl_nil, Base64.push]
    simp only [Nat.zero_mul, Nat.zero_add, Nat.reduceAdd, Nat.reduceSub, Nat.reduceLeDiff, if_true,
      if_false, Nat.reducePow, List.append_cancel_left_eq, List.cons.injEq, and_true]
    exact hbyte (by omega)
  | case4 =>
    intro out
    rw [sextets, List.foldl_nil, List.append_nil]

theorem foldlM_padding (n : Nat) (s : Base64) :
    ((List.replicate n '=').flatMap String.utf8EncodeChar).foldlM base64Step s = .ok s := by
  induction n with
  | zero => rfl
  | succ n ih =>
    rw [List.replicate_succ, List.flatMap_cons, List.foldlM_append]
    exact ih

/-- **What was encoded is decoded to itself**, in both alphabets, padded or not. -/
theorem base64Decode_base64 (url pad : Bool) (b : Bytes) :
    base64Decode ((base64 url pad b).flatMap String.utf8EncodeChar) = .ok b := by
  have hpad : ((if pad then List.replicate ((3 - b.length % 3) % 3) '=' else []).flatMap
      String.utf8EncodeChar).foldlM base64Step ((sextets b).foldl Base64.push ⟨0, 0, []⟩)
      = .ok ((sextets b).foldl Base64.push ⟨0, 0, []⟩) := by
    cases pad with
    | false => rfl
    | true => exact foldlM_padding _ _
  rw [base64Decode, base64, List.flatMap_append, List.foldlM_append,
    foldlM_base64Step (sextets_lt b), ok_bind, hpad]
  show Except.ok ((sextets b).foldl Base64.push ⟨0, 0, []⟩).out = _
  rw [out_foldl_push, List.nil_append]

end FastSigner.Keys

import FastSigner.Keys.Der

/-!
# The scalar of an EC key

Java and SEC1 files leave the public key out of an ECPrivateKey, which the PKCS#8
parser of the cryptography library insists on.  `ec_private_scalar` takes the
private scalar out of the file, left-padded to 32 bytes, and the public key comes
from the certificate.

`EcPrivateKey` and `EcPkcs8` are such files as an encoder writes them.  The reader
finds the scalar of each, whatever forms its lengths have and however many zeros it
starts with, if it is below `2^256` and no other algorithm or curve is named
(`ecPrivateScalar_sec1`, `ecPrivateScalar_pkcs8`).
-/

namespace FastSigner.Keys

open Lib

def oidEcPublicKey : Bytes := [0x2a, 0x86, 0x48, 0xce, 0x3d, 0x02, 0x01]
def oidPrime256v1 : Bytes := [0x2a, 0x86, 0x48, 0xce, 0x3d, 0x03, 0x01, 0x07]

/-- Leading zeros go as long as there are more than 32 bytes. -/
def stripZeros : Bytes → Bytes
  | [] => []
  | c :: scalar => if 32 < (c :: scalar).length ∧ c = 0 then stripZeros scalar else c :: scalar

def padScalar (key : Bytes) : Option Bytes :=
  let scalar := stripZeros key
  if scalar.length > 32 then none else some (List.replicate (32 - scalar.length) 0 ++ scalar)

/-- The curve behind the algorithm is another one than P-256. -/
def otherCurve (b : Bytes) (p : Nat) : Bool :=
  match derHeader b p with
  | .ok (tag, s, l) => tag = 0x06 ∧ slice b s (s + l) ≠ oidPrime256v1
  | .error _ => false

/-- The ECPrivateKey in a PKCS#8 file; the AlgorithmIdentifier has its contents at `s`, `l` bytes
of them. -/
def pkcs8Inner (b : Bytes) (s l : Nat) : Option Bytes := do
  let (os, ol) ← (derExpect b s 0x06).toOption
  if slice b os (os + ol) ≠ oidEcPublicKey then none
  if otherCurve b (os + ol) then none
  let (ks, kl) ← (derExpect b (s + l) 0x04).toOption
  some (slice b ks (ks + kl))

def sec1Scalar (b : Bytes) : Option Bytes := do
  let (p, _) ← (derExpect b 0 0x30).toOption
  let (_, vs, vl) ← (derHeader b p).toOption
  let (ks, kl) ← (derExpect b (vs + vl) 0x04).toOption
  padScalar (slice b ks (ks + kl))

/-- The private scalar, left-padded to 32 bytes, of a PKCS#8 or SEC1 EC key that is or may be a
P-256 key. -/
def ecPrivateScalar (b : Bytes) : Option Bytes := do
  let (p, _) ← (derExpect b 0 0x30).toOption
  let (_, vs, vl) ← (derHeader b p).toOption
  let (tag, s, l) ← (derHeader b (vs + vl)).toOption
  let ecPrivateKey ←
    if tag = 0x30 then pkcs8Inner b s l else if tag = 0x04 then some b else none
  sec1Scalar ecPrivateKey

/-! ### Padding -/

theorem beNat_stripZeros (key : Bytes) : beNat (stripZeros key) = beNat key := by
  induction key with
  | nil => rfl
  | cons c key ih =>
    rw [stripZeros]
    split
    · rename_i h
      rw [ih, h.2, beNat_cons]
      simp
    · rfl

theorem le_beNat_of_stripZeros {key : Bytes} (h : 32 < (stripZeros key).length) :
    256 ^ 32 ≤ beNat key := by
  induction key with
  | nil => simp [stripZeros] at h
  | cons c key ih =>
    rw [stripZeros] at h
    split at h
    · rename_i hz
      rw [hz.2, beNat_cons]
      simpa using ih h
    · rename_i hz
      rw [List.length_cons] at h
      have hc : 0 < c.toNat := by
        rw [Nat.pos_iff_ne_zero]
        intro h0
        exact hz ⟨by rw [List.length_cons]; exact h, UInt8.toNat.inj h0⟩
      rw [beNat_cons]
      calc 256 ^ 32 ≤ 256 ^ key.length := Nat.pow_le_pow_right (by decide) (by omega)
        _ ≤ c.toNat * 256 ^ key.length := Nat.le_mul_of_pos_left _ hc
        _ ≤ c.toNat * 256 ^ key.length + beNat key := Nat.le_add_right _ _

theorem beNat_replicate_append (n : Nat) (b : Bytes) : beNat (List.replicate n 0 ++ b) = beNat b := by
  induction n with
  | zero => rfl
  | succ n ih =>
    rw [List.replicate_succ, List.cons_append, beNat_cons, ih]
    simp

/-- **The padded scalar is the number in 32 bytes.** -/
theorem padScalar_eq (key : Bytes) :
    padScalar key = if beNat key < 2 ^ 256 then some (beBytes 32 (beNat key)) else none := by
  have hpow : 2 ^ 256 = 256 ^ 32 := by decide
  rw [padScalar, hpow]
  by_cases hlong : 32 < (stripZeros key).length
  · have := le_beNat_of_stripZeros hlong
    rw [if_pos hlong, if_neg (by omega)]
  · have hle : (stripZeros key).length ≤ 32 := by omega
    have hlt : beNat key < 256 ^ 32 := by
      rw [← beNat_stripZeros]
      exact Nat.lt_of_lt_of_le (beNat_lt _) (Nat.pow_le_pow_right (by decide) hle)
    rw [if_neg hlong, if_pos hlt, ← beNat_stripZeros key,
      ← beNat_replicate_append (32 - (stripZeros key).length)]
    have hlen : (List.replicate (32 - (stripZeros key).length) 0 ++ stripZeros key).length = 32 := by
      rw [List.length_append, List.length_replicate]
      omega
    have := beBytes_beNat (List.replicate (32 - (stripZeros key).length) 0 ++ stripZeros key)
    rw [hlen] at this
    rw [this]

/-! ### The files -/

/-- An ECPrivateKey: the version, the scalar, and possibly the curve and the public key. -/
structure EcPrivateKey where
  version : Element LengthOctets
  key : Element LengthOctets
  further : Bytes
  seq : Element LengthOctets
  key_tag : key.tag = 0x04
  seq_tag : seq.tag = 0x30
  seq_body : seq.body = version.raw ++ (key.raw ++ further)

/-- A PKCS#8 file around an ECPrivateKey. -/
structure EcPkcs8 where
  version : Element LengthOctets
  oid : Element LengthOctets
  params : Option (Element LengthOctets) -- The named curve, or other parameters.
  algorithm : Element LengthOctets
  inner : EcPrivateKey
  privateKey : Element LengthOctets
  attributes : Bytes
  seq : Element LengthOctets
  oid_tag : oid.tag = 0x06
  algorithm_tag : algorithm.tag = 0x30
  algorithm_body : algorithm.body = oid.raw ++ params.elim [] Element.raw
  privateKey_tag : privateKey.tag = 0x04
  privateKey_body : privateKey.body = inner.seq.raw
  seq_tag : seq.tag = 0x30
  seq_body : seq.body = version.raw ++ (algorithm.raw ++ (privateKey.raw ++ attributes))

/-- It may be a key on P-256. -/
def EcPkcs8.MayBeP256 (k : EcPkcs8) : Prop :=
  k.oid.body = oidEcPublicKey ∧ ∀ c ∈ k.params, c.tag = 0x06 → c.body = oidPrime256v1

instance (k : EcPkcs8) : Decidable k.MayBeP256 := inferInstanceAs (Decidable (_ ∧ _))

def scalarOf (n : Nat) : Option Bytes := if n < 2 ^ 256 then some (beBytes 32 n) else none

section Elements

variable {b rest : Bytes} {p : Nat} {e : Element LengthOctets}

theorem toOption_derHeader (h : b.drop p = e.raw ++ rest) :
    (derHeader b p).toOption = some (e.tag, p + (1 + e.size.length), e.body.length) := by
  rw [derHeader_element h]
  rfl

theorem toOption_derExpect {tag : UInt8} (htag : e.tag = tag) (h : b.drop p = e.raw ++ rest) :
    (derExpect b p tag).toOption = some (p + (1 + e.size.length), e.body.length) := by
  rw [← htag, derExpect_element h]
  rfl

theorem Element.stop_body (e : Element LengthOctets) (p : Nat) :
    p + (1 + e.size.length) + e.body.length = p + e.raw.length := by
  rw [e.length_raw]
  omega

end Elements

section Sec1

variable (k : EcPrivateKey) (rest : Bytes)

theorem EcPrivateKey.drop_version :
    (k.seq.raw ++ rest).drop (0 + (1 + k.seq.size.length))
      = k.version.raw ++ (k.key.raw ++ (k.further ++ rest)) := by
  have h := k.seq.drop_body (b := k.seq.raw ++ rest) (p := 0) rfl
  rw [h, k.seq_body, List.append_assoc, List.append_assoc]

theorem sec1Scalar_eq : sec1Scalar (k.seq.raw ++ rest) = scalarOf (beNat k.key.body) := by
  have hversion := k.drop_version rest
  have hkey := k.version.drop_raw hversion
  rw [sec1Scalar, toOption_derExpect k.seq_tag rfl]
  simp only [Option.bind_eq_bind, Option.bind_some, toOption_derHeader hversion]
  rw [Element.stop_body, toOption_derExpect k.key_tag hkey]
  simp only [Option.bind_some]
  rw [Element.stop_body, k.key.slice_body hkey, padScalar_eq, scalarOf]

theorem ecPrivateScalar_sec1 :
    ecPrivateScalar (k.seq.raw ++ rest) = scalarOf (beNat k.key.body) := by
  have hversion := k.drop_version rest
  have hkey := k.version.drop_raw hversion
  rw [ecPrivateScalar, toOption_derExpect k.seq_tag rfl]
  simp only [Option.bind_eq_bind, Option.bind_some, toOption_derHeader hversion]
  rw [Element.stop_body, toOption_derHeader hkey]
  simp only [Option.bind_some]
  rw [k.key_tag, if_neg (by decide), if_pos rfl]
  exact sec1Scalar_eq k rest

end Sec1

section Pkcs8

variable (k : EcPkcs8)

/-- The parameters of the algorithm decide about the curve, and without them the private key
follows, which names none. -/
theorem otherCurve_eq {b rest : Bytes} {p : Nat}
    (h : b.drop p = k.params.elim [] Element.raw ++ (k.privateKey.raw ++ rest)) :
    otherCurve b p = true ↔ ¬ ∀ c ∈ k.params, c.tag = 0x06 → c.body = oidPrime256v1 := by
  rw [otherCurve]
  cases hp : k.params with
  | none =>
    rw [hp, Option.elim_none, List.nil_append] at h
    rw [derHeader_element h, k.privateKey_tag]
    simp
  | some c =>
    rw [hp, Option.elim_some] at h
    rw [derHeader_element h]
    simp only
    rw [Element.stop_body, c.slice_body h]
    simp

theorem pkcs8Inner_eq {b rest : Bytes} {p s : Nat} (hs : s = p + (1 + k.algorithm.size.length))
    (h : b.drop p = k.algorithm.raw ++ (k.privateKey.raw ++ rest)) :
    pkcs8Inner b s k.algorithm.body.length
      = if k.MayBeP256 then some k.inner.seq.raw else none := by
  have hoid := k.algorithm.drop_body h
  rw [k.algorithm_body, List.append_assoc, ← hs] at hoid
  have hparams := k.oid.drop_raw hoid
  have hkey := k.algorithm.drop_raw h
  rw [pkcs8Inner, toOption_derExpect k.oid_tag hoid]
  simp only [Option.bind_eq_bind, Option.bind_some]
  rw [Element.stop_body, k.oid.slice_body hoid, hs, Element.stop_body,
    toOption_derExpect k.privateKey_tag hkey, ← hs]
  simp only [Option.bind_some]
  rw [Element.stop_body, k.privateKey.slice_body hkey, k.privateKey_body]
  have hcurve := otherCurve_eq k hparams
  by_cases ho : k.oid.body = oidEcPublicKey
  · rw [if_neg (not_not_intro ho)]
    by_cases hc : ∀ c ∈ k.params, c.tag = 0x06 → c.body = oidPrime256v1
    · rw [if_neg (fun hne => (hcurve.mp hne) hc), if_pos (show k.MayBeP256 from ⟨ho, hc⟩)]
    · rw [if_pos (hcurve.mpr hc), if_neg (show ¬ k.MayBeP256 from fun h => hc h.2)]
      rfl
  · rw [if_pos ho, if_neg (show ¬ k.MayBeP256 from fun h => ho h.1)]
    rfl

/-- The scalar of a PKCS#8 file, with whatever stands behind it. -/
theorem ecPrivateScalar_pkcs8 (rest : Bytes) :
    ecPrivateScalar (k.seq.raw ++ rest)
      = if k.MayBeP256 then scalarOf (beNat k.inner.key.body) else none := by
  have hversion := k.seq.drop_body (b := k.seq.raw ++ rest) (p := 0) rfl
  rw [k.seq_body, List.append_assoc, List.append_assoc, List.append_assoc] at hversion
  have halg := k.version.drop_raw hversion
  rw [ecPrivateScalar, toOption_derExpect k.seq_tag rfl]
  simp only [Option.bind_eq_bind, Option.bind_some, toOption_derHeader hversion]
  rw [Element.stop_body, toOption_derHeader halg]
  simp only [Option.bind_some]
  rw [k.algorithm_tag, if_pos rfl, pkcs8Inner_eq k rfl halg]
  split
  · rw [Option.bind_some, ← List.append_nil k.inner.seq.raw, sec1Scalar_eq]
  · rfl

end Pkcs8

theorem length_of_sec1Scalar {b d : Bytes} (h : sec1Scalar b = some d) : d.length = 32 := by
  simp only [sec1Scalar, Option.bind_eq_bind, Option.bind_eq_some_iff] at h
  obtain ⟨-, -, -, -, ⟨ks, kl⟩, -, h⟩ := h
  rw [padScalar_eq] at h
  split at h
  · rw [← Option.some.inj h, length_beBytes]
  · cases h

theorem length_of_ecPrivateScalar {b d : Bytes} (h : ecPrivateScalar b = some d) :
    d.length = 32 := by
  simp only [ecPrivateScalar, Option.bind_eq_bind, Option.bind_eq_some_iff] at h
  obtain ⟨-, -, -, -, ⟨tag, s, l⟩, -, h⟩ := h
  split at h
  · obtain ⟨b', -, h⟩ := Option.bind_eq_some_iff.mp h
    exact length_of_sec1Scalar h
  · split at h
    · exact length_of_sec1Scalar h
    · cases h

end FastSigner.Keys

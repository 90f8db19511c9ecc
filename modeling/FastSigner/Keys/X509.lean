import FastSigner.Keys.Der

/-!
# The fields of a certificate

`X509 Len` is a certificate as an encoder writes it: the elements of the
TBSCertificate up to the SubjectPublicKeyInfo, whatever comes after them, and every
length stated in octets that `Len` admits.  The two walks of the reader land on
the fields they are after, in all forms of a length that `LengthOctets` describes
(`fields_of_x509`).

`DefiniteLength` is wider: it also has the lengths below `2^32` that are written
with more than four octets.  These the reader refuses.
-/

namespace FastSigner.Keys

open Lib

/-- The octets of a definite length below `2^32`, with any number of leading zeros. -/
inductive DefiniteLength : Bytes → Nat → Prop
  | short {first : UInt8} (h : first < 0x80) : DefiniteLength [first] first.toNat
  | long {ds : Bytes} (hpos : ds ≠ []) (hle : ds.length ≤ 126) (hlt : beNat ds < 2 ^ 32) :
    DefiniteLength (UInt8.ofNat (0x80 + ds.length) :: ds) (beNat ds)

theorem LengthOctets.definite {ls : Bytes} {n : Nat} (h : LengthOctets ls n) :
    DefiniteLength ls n := by
  cases h with
  | short h => exact .short h
  | @long ds hpos hle =>
    refine .long hpos (by omega) (Nat.lt_of_lt_of_le (beNat_lt ds) ?_)
    rw [show 2 ^ 32 = 256 ^ 4 from rfl]
    exact Nat.pow_le_pow_right (by decide) hle

structure X509 (Len : Bytes → Nat → Prop) where
  version : Option (Element Len)
  serial : Element Len
  signature : Element Len
  issuer : Element Len
  validity : Element Len
  subject : Element Len
  spki : Element Len -- SubjectPublicKeyInfo: the algorithm and a BIT STRING that holds `key`.
  spkiAlgorithm : Element Len
  bitString : Element Len
  key : Bytes
  further : Bytes -- The unique identifiers and the extensions.
  tbs : Element Len
  rest : Bytes -- The signature's algorithm and value.
  cert : Element Len
  version_tag : ∀ v ∈ version, v.tag = 0xa0
  serial_tag : serial.tag = 0x02
  bitString_tag : bitString.tag = 0x03
  bitString_body : bitString.body = 0 :: key
  spki_tag : spki.tag = 0x30
  spki_body : spki.body = spkiAlgorithm.raw ++ bitString.raw
  tbs_tag : tbs.tag = 0x30
  tbs_body : tbs.body = version.elim [] Element.raw ++ (serial.raw ++ (signature.raw ++ (issuer.raw
    ++ (validity.raw ++ (subject.raw ++ (spki.raw ++ further))))))
  cert_tag : cert.tag = 0x30
  cert_body : cert.body = tbs.raw ++ rest

namespace X509

variable (c : X509 LengthOctets)

theorem enter :
    ∃ p q l l', derExpect c.cert.raw 0 0x30 = .ok (p, l) ∧
      derExpect c.cert.raw p 0x30 = .ok (q, l') ∧ c.cert.raw.drop q = c.tbs.body ++ c.rest := by
  have h0 : c.cert.raw.drop 0 = c.cert.raw ++ [] := by rw [List.drop_zero, List.append_nil]
  have h1 := c.cert.drop_body h0
  rw [c.cert_body, List.append_nil] at h1
  have hcert := derExpect_element h0
  have htbs := derExpect_element h1
  rw [c.cert_tag] at hcert
  rw [c.tbs_tag] at htbs
  exact ⟨_, _, _, _, hcert, htbs, c.tbs.drop_body h1⟩

theorem skip_version {b tail : Bytes} {p : Nat}
    (h : b.drop p = c.version.elim [] Element.raw ++ (c.serial.raw ++ tail)) :
    ∃ tag s l q, derHeader b p = .ok (tag, s, l) ∧ b.drop q = c.serial.raw ++ tail ∧
      ∀ {α : Type} (k : Nat → Except String α),
        (if tag = 0xa0 then derSkip b p >>= k else pure p >>= k) = k q := by
  cases hv : c.version with
  | none =>
    rw [hv, Option.elim_none, List.nil_append] at h
    refine ⟨_, _, _, p, derHeader_element h, h, ?_⟩
    intro α k
    rw [c.serial_tag]
    rfl
  | some v =>
    rw [hv, Option.elim_some] at h
    refine ⟨_, _, _, _, derHeader_element h, v.drop_raw h, ?_⟩
    intro α k
    rw [if_pos (c.version_tag v hv), derSkip_element h, ok_bind]

theorem spkiFromCert_eq : spkiFromCert c.cert.raw = .ok c.spki.raw := by
  obtain ⟨p, q, l, l', h0, h1, hbody⟩ := c.enter
  rw [c.tbs_body, List.append_assoc, List.append_assoc] at hbody
  obtain ⟨tag, s, len, r, hhdr, hserial, hskip⟩ := c.skip_version hbody
  have hsig := c.serial.drop_raw hserial
  rw [List.append_assoc] at hsig
  have hissuer := c.signature.drop_raw hsig
  rw [List.append_assoc] at hissuer
  have hvalidity := c.issuer.drop_raw hissuer
  rw [List.append_assoc] at hvalidity
  have hsubject := c.validity.drop_raw hvalidity
  rw [List.append_assoc] at hsubject
  have hspki := c.subject.drop_raw hsubject
  rw [List.append_assoc] at hspki
  have hexpect := derExpect_element hspki
  have hlen := c.spki.length_raw
  rw [c.spki_tag] at hexpect
  rw [spkiFromCert, h0, ok_bind]
  simp only [h1, hhdr, hskip, derSkip_element hserial, derSkip_element hsig,
    derSkip_element hissuer, derSkip_element hvalidity, derSkip_element hsubject, hexpect, ok_bind]
  rw [Nat.add_assoc _ (1 + _), ← hlen, c.spki.slice_raw hspki]
  rfl

theorem certIssuerSubject_eq : certIssuerSubject c.cert.raw = .ok (c.issuer.raw, c.subject.raw) := by
  obtain ⟨p, q, l, l', h0, h1, hbody⟩ := c.enter
  rw [c.tbs_body, List.append_assoc, List.append_assoc] at hbody
  obtain ⟨tag, s, len, r, hhdr, hserial, hskip⟩ := c.skip_version hbody
  have hsig := c.serial.drop_raw hserial
  rw [List.append_assoc] at hsig
  have hissuer := c.signature.drop_raw hsig
  rw [List.append_assoc] at hissuer
  have hvalidity := c.issuer.drop_raw hissuer
  rw [List.append_assoc] at hvalidity
  have hsubject := c.validity.drop_raw hvalidity
  rw [List.append_assoc] at hsubject
  rw [certIssuerSubject, h0, ok_bind]
  simp only [h1, hhdr, hskip, derSkip_element hserial, derSkip_element hsig,
    derSkip_element hissuer, derSkip_element hvalidity, derSkip_element hsubject, ok_bind]
  rw [c.issuer.slice_raw hissuer, c.subject.slice_raw hsubject]
  rfl

theorem spkiPublicKeyBits_eq : spkiPublicKeyBits c.spki.raw = .ok c.key := by
  have h0 : c.spki.raw.drop 0 = c.spki.raw ++ [] := by rw [List.drop_zero, List.append_nil]
  have h1 := c.spki.drop_body h0
  rw [c.spki_body, List.append_nil] at h1
  have h2 := c.spkiAlgorithm.drop_raw h1
  rw [← List.append_nil c.bitString.raw] at h2
  have hexpect := derExpect_element h0
  have hbits := derExpect_element h2
  have hdrop := c.bitString.drop_body h2
  rw [c.spki_tag] at hexpect
  rw [c.bitString_tag] at hbits
  rw [List.append_nil, c.bitString_body] at hdrop
  rw [spkiPublicKeyBits, hexpect, ok_bind]
  simp only [derSkip_element h1, hbits, ok_bind]
  generalize 0 + (1 + c.spki.size.length) + c.spkiAlgorithm.raw.length + (1 + c.bitString.size.length)
    = s at hdrop ⊢
  have hfirst : c.spki.raw[s]? = some 0 := by
    have := congrArg (fun l : Bytes => l[0]?) hdrop
    simpa using this
  have hkey : slice c.spki.raw (s + 1) (s + c.bitString.body.length) = c.key := by
    rw [slice, ← List.drop_drop, hdrop, c.bitString_body, List.length_cons,
      show s + (c.key.length + 1) - (s + 1) = c.key.length by omega]
    exact List.take_length
  have hpos : c.bitString.body.length ≠ 0 := by
    rw [c.bitString_body]
    exact Nat.succ_ne_zero _
  rw [if_neg (by rw [hfirst]; simpa using hpos), hkey]
  rfl

end X509

/-- **The walks return exactly the fields of the certificate**, for every form of a length with at
most four octets. -/
theorem fields_of_x509 (c : X509 LengthOctets) :
    spkiFromCert c.cert.raw = .ok c.spki.raw ∧
      certIssuerSubject c.cert.raw = .ok (c.issuer.raw, c.subject.raw) ∧
      spkiPublicKeyBits c.spki.raw = .ok c.key :=
  ⟨c.spkiFromCert_eq, c.certIssuerSubject_eq, c.spkiPublicKeyBits_eq⟩

/-- A certificate with a version, whose outer length is written in two octets more than it needs. -/
def exampleCert : X509 LengthOctets where
  version := some (derElement 0xa0 [0x02, 1, 2] (by decide) (by decide))
  serial := derElement 0x02 [1] (by decide) (by decide)
  signature := derElement 0x30 [] (by decide) (by decide)
  issuer := derElement 0x30 [0x31, 0] (by decide) (by decide)
  validity := derElement 0x30 [] (by decide) (by decide)
  subject := derElement 0x30 [0x31, 0, 0x31, 0] (by decide) (by decide)
  spki := derElement 0x30 [0x30, 0, 0x03, 3, 0, 7, 8] (by decide) (by decide)
  spkiAlgorithm := derElement 0x30 [] (by decide) (by decide)
  bitString := derElement 0x03 [0, 7, 8] (by decide) (by decide)
  key := [7, 8]
  further := [0xa3, 0]
  tbs := derElement 0x30
    [0xa0, 3, 0x02, 1, 2, 0x02, 1, 1, 0x30, 0, 0x30, 2, 0x31, 0, 0x30, 0, 0x30, 4, 0x31, 0, 0x31, 0,
      0x30, 7, 0x30, 0, 0x03, 3, 0, 7, 8, 0xa3, 0] (by decide) (by decide)
  rest := [0x30, 0, 0x03, 1, 0]
  cert :=
    { tag := 0x30
      size := [0x83, 0, 0, 0x28]
      body := [0x30, 0x21, 0xa0, 3, 0x02, 1, 2, 0x02, 1, 1, 0x30, 0, 0x30, 2, 0x31, 0, 0x30, 0, 0x30,
        4, 0x31, 0, 0x31, 0, 0x30, 7, 0x30, 0, 0x03, 3, 0, 7, 8, 0xa3, 0, 0x30, 0, 0x03, 1, 0]
      tag_short := by decide
      size_states := @LengthOctets.long [0, 0, 0x28] (by decide) (by decide) }
  version_tag := by decide
  serial_tag := rfl
  bitString_tag := rfl
  bitString_body := rfl
  spki_tag := rfl
  spki_body := rfl
  tbs_tag := rfl
  tbs_body := rfl
  cert_tag := rfl
  cert_body := rfl

theorem fields_of_exampleCert :
    certIssuerSubject exampleCert.cert.raw = .ok ([0x30, 2, 0x31, 0], [0x30, 4, 0x31, 0, 0x31, 0]) ∧
      spkiPublicKeyBits exampleCert.spki.raw = .ok [7, 8] :=
  (fields_of_x509 exampleCert).2

/-! ### More than four length octets -/

def shortElement (tag : UInt8) (body : Bytes) (htag : tag &&& 0x1f ≠ 0x1f)
    (hlen : body.length < 2 ^ 32) : Element DefiniteLength :=
  (derElement tag body htag hlen).mono LengthOctets.definite

/-- A certificate whose outer length, `0x19`, has four leading zeros. -/
def paddedCert : X509 DefiniteLength where
  version := none
  serial := shortElement 0x02 [1] (by decide) (by decide)
  signature := shortElement 0x30 [] (by decide) (by decide)
  issuer := shortElement 0x30 [] (by decide) (by decide)
  validity := shortElement 0x30 [] (by decide) (by decide)
  subject := shortElement 0x30 [] (by decide) (by decide)
  spki := shortElement 0x30 [0x30, 0, 0x03, 1, 0] (by decide) (by decide)
  spkiAlgorithm := shortElement 0x30 [] (by decide) (by decide)
  bitString := shortElement 0x03 [0] (by decide) (by decide)
  key := []
  further := []
  tbs := shortElement 0x30
    [0x02, 1, 1, 0x30, 0, 0x30, 0, 0x30, 0, 0x30, 0, 0x30, 5, 0x30, 0, 0x03, 1, 0] (by decide)
    (by decide)
  rest := [0x30, 0, 0x03, 1, 0]
  cert :=
    { tag := 0x30
      size := [0x85, 0, 0, 0, 0, 0x19]
      body := [0x30, 0x12, 0x02, 1, 1, 0x30, 0, 0x30, 0, 0x30, 0, 0x30, 0, 0x30, 5, 0x30, 0, 0x03,
        1, 0, 0x30, 0, 0x03, 1, 0]
      tag_short := by decide
      size_states := @DefiniteLength.long [0, 0, 0, 0, 0x19] (by decide) (by decide) (by decide) }
  version_tag := by decide
  serial_tag := rfl
  bitString_tag := rfl
  bitString_body := rfl
  spki_tag := rfl
  spki_body := rfl
  tbs_tag := rfl
  tbs_body := rfl
  cert_tag := rfl
  cert_body := rfl

/-- Five octets for a length are refused. -/
theorem not_fields_of_definiteLength :
    ¬ ∀ c : X509 DefiniteLength,
      spkiFromCert c.cert.raw = .ok c.spki.raw ∧
        certIssuerSubject c.cert.raw = .ok (c.issuer.raw, c.subject.raw) ∧
        spkiPublicKeyBits c.spki.raw = .ok c.key := by
  intro h
  have herr : spkiFromCert paddedCert.cert.raw = .error "unsupported DER length encoding" := rfl
  have hok := (h paddedCert).1
  rw [herr] at hok
  cases hok

end FastSigner.Keys

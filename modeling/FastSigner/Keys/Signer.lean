import FastSigner.Digest.Content
import FastSigner.Keys.EcKey
import FastSigner.Keys.Pem

/-!
# Keys and certificates

`from_material` makes a signer of candidates for the private key and a certificate
chain, `sign` signs and then verifies with the public key of the certificate, and
`load_files` reads both from files.  The cryptography library is a parameter,
`RingCrate`.

A `Signer` cannot be built unless its parts agree: the algorithm with the key, and
the public key with the first certificate.  `Signer.sign_eq_ok_iff` says when it
signs, and `decodeCertFile_eq_ok_iff` what a file of certificates without PEM is.
-/

namespace FastSigner.Keys

open Lib

inductive RsaHash
  | sha256
  | sha512
  deriving DecidableEq, Repr

/-- The cryptography library: how key pairs are read, what they sign and what is verified.  Reading
an EC pair and signing draw on the system's random numbers. -/
structure RingCrate where
  RsaPair : Type
  EcPair : Type
  rsaFromPkcs8 : Bytes → Option RsaPair
  rsaFromDer : Bytes → Option RsaPair
  modulusLen : RsaPair → Nat -- In bytes.
  rsaSign : RsaPair → RsaHash → (seed : Nat) → Bytes → Option Bytes
  rsaVerify : RsaHash → (key data sig : Bytes) → Bool
  ecFromPkcs8 : (seed : Nat) → Bytes → Option EcPair
  ecFromKeys : (seed : Nat) → (scalar key : Bytes) → Option EcPair
  ecSign : EcPair → (seed : Nat) → Bytes → Option Bytes
  ecVerify : (key data sig : Bytes) → Bool

def algRsaPkcs1Sha256 : UInt32 := 0x0103
def algRsaPkcs1Sha512 : UInt32 := 0x0104
def algEcdsaSha256 : UInt32 := 0x0201

inductive Key (K : RingCrate)
  | rsa (pair : K.RsaPair) (hash : RsaHash)
  | ecP256 (pair : K.EcPair)

variable {K : RingCrate}

def Key.describe : Key K → UInt32 × Algorithm × String
  | .rsa pair .sha256 => (algRsaPkcs1Sha256, .sha256,
    "RSA-" ++ toString (K.modulusLen pair * 8) ++ " / PKCS#1 v1.5 / SHA-256")
  | .rsa pair .sha512 => (algRsaPkcs1Sha512, .sha512,
    "RSA-" ++ toString (K.modulusLen pair * 8) ++ " / PKCS#1 v1.5 / SHA-512")
  | .ecP256 _ => (algEcdsaSha256, .sha256, "ECDSA P-256 / SHA-256")

/-- A private key with the certificates of its public key. -/
structure Signer (K : RingCrate) where
  key : Key K
  algId : UInt32
  contentDigest : Algorithm
  certs : List Bytes
  spki : Bytes
  description : String
  described : (algId, contentDigest, description) = key.describe
  spki_first : ∃ cert ∈ certs.head?, spkiFromCert cert = .ok spki
  spki_key : ∃ bits, spkiPublicKeyBits spki = .ok bits

/-! ### Making a signer -/

def rsa (pair : K.RsaPair) : Key K :=
  .rsa pair (if K.modulusLen pair * 8 ≤ 3072 then .sha256 else .sha512)

def parseKey (K : RingCrate) (seed : Nat) (der : Bytes) (label : Option String) (certPubkeyBits : Bytes) :
    Except String (Key K) :=
  match K.rsaFromPkcs8 der with
  | some pair => .ok (rsa pair)
  | none =>
    match K.rsaFromDer der with
    | some pair => .ok (rsa pair)
    | none =>
      match K.ecFromPkcs8 seed der with
      | some pair => .ok (.ecP256 pair)
      | none =>
        match ecPrivateScalar der with
        | some scalar => okOr ((K.ecFromKeys seed scalar certPubkeyBits).map Key.ecP256)
          "EC private key does not match the certificate's public key, or is not P-256"
        | none =>
          if label = some "ENCRYPTED PRIVATE KEY" then
            .error ("encrypted PKCS#8 keys are not supported; decrypt with "
              ++ "`openssl pkcs8 -in key.pem -out key.pk8 -nocrypt`")
          else
            .error ("unsupported private key: expected unencrypted PKCS#8 (or PKCS#1) RSA "
              ++ "2048..8192-bit, or PKCS#8 / SEC1 EC P-256")

def firstKey (K : RingCrate) (seed : Nat) (certPubkeyBits : Bytes) :
    (keyDers : List (Option String × Bytes)) → (lastErr : String) → Except String (Key K)
  | [], lastErr => .error lastErr
  | (label, der) :: rest, _ =>
    match parseKey K seed der label certPubkeyBits with
    | .ok key => .ok key
    | .error e => firstKey K seed certPubkeyBits rest e

/-- `Signer::from_material`.  Without certificates it panics; both loaders see to it that there is
one. -/
def fromMaterial (K : RingCrate) (seed : Nat) (keyDers : List (Option String × Bytes)) :
    (certs : List Bytes) → Except String (Signer K)
  | [] => .error "index out of bounds: the len is 0 but the index is 0"
  | cert :: chain =>
    match hspki : spkiFromCert cert with
    | .error e => .error ("cannot locate SubjectPublicKeyInfo in certificate: " ++ e)
    | .ok spki =>
      match hbits : spkiPublicKeyBits spki with
      | .error e => .error e
      | .ok pubkeyBits => (firstKey K seed pubkeyBits keyDers "no key found").map fun key =>
        { key := key
          algId := key.describe.1
          contentDigest := key.describe.2.1
          certs := cert :: chain
          spki := spki
          description := key.describe.2.2
          described := rfl
          spki_first := ⟨cert, rfl, hspki⟩
          spki_key := ⟨pubkeyBits, hbits⟩ }

/-! ### Signing -/

def Signer.sign (s : Signer K) (seed : Nat) (data : Bytes) : Except String Bytes := do
  let keyBits ← spkiPublicKeyBits s.spki
  match s.key with
  | .rsa pair hash =>
    let sig ← okOr (K.rsaSign pair hash seed data) "RSA signing failed"
    if K.rsaVerify hash keyBits data sig then .ok sig
    else .error ("generated RSA signature does not verify with the certificate's public key "
      ++ "(key/cert mismatch?)")
  | .ecP256 pair =>
    let sig ← okOr (K.ecSign pair seed data) "ECDSA signing failed"
    if K.ecVerify keyBits data sig then .ok sig
    else .error ("generated ECDSA signature does not verify with the certificate's public key "
      ++ "(key/cert mismatch?)")

/-- What a verifier makes of a signature algorithm: the content digest that goes with it, and when
a signature is good. -/
def RingCrate.algorithm (K : RingCrate) (id : Nat) : Option (Algorithm × ((key data sig : Bytes) → Bool)) :=
  if id = algRsaPkcs1Sha256.toNat then some (.sha256, K.rsaVerify .sha256)
  else if id = algRsaPkcs1Sha512.toNat then some (.sha512, K.rsaVerify .sha512)
  else if id = algEcdsaSha256.toNat then some (.sha256, K.ecVerify)
  else none

def Key.rawSign (key : Key K) (seed : Nat) (data : Bytes) : Option Bytes :=
  match key with
  | .rsa pair hash => K.rsaSign pair hash seed data
  | .ecP256 pair => K.ecSign pair seed data

def Key.verify (key : Key K) : (keyBits data sig : Bytes) → Bool :=
  match key with
  | .rsa _ hash => K.rsaVerify hash
  | .ecP256 _ => K.ecVerify

theorem Key.algorithm_describe (key : Key K) :
    K.algorithm key.describe.1.toNat = some (key.describe.2.1, key.verify) := by
  cases key with
  | rsa pair hash =>
    cases hash with
    | sha256 => rfl
    | sha512 => rfl
  | ecP256 pair => rfl

theorem Signer.algorithm_algId (s : Signer K) :
    K.algorithm s.algId.toNat = some (s.contentDigest, s.key.verify) := by
  have h := s.key.algorithm_describe
  rw [← s.described] at h
  exact h

/-- **A signer signs exactly if a verifier accepts what its key makes**, with the public key of the
certificate. -/
theorem Signer.sign_eq_ok_iff {s : Signer K} {seed : Nat} {data sig : Bytes} :
    s.sign seed data = .ok sig ↔ s.key.rawSign seed data = some sig ∧
      ∃ bits, spkiPublicKeyBits s.spki = .ok bits ∧ s.key.verify bits data sig = true := by
  obtain ⟨bits, hbits⟩ := s.spki_key
  have hone : (∃ b, spkiPublicKeyBits s.spki = .ok b ∧ s.key.verify b data sig = true)
      ↔ s.key.verify bits data sig = true := by
    rw [hbits]
    exact ⟨fun ⟨b, hb, h⟩ => Except.ok.inj hb ▸ h, fun h => ⟨bits, rfl, h⟩⟩
  have hchecked {raw : Option Bytes} {verify : Bytes → Bytes → Bytes → Bool} {e e' : String} :
      (okOr raw e >>= fun sig => if verify bits data sig then Except.ok sig else .error e') = .ok sig
        ↔ raw = some sig ∧ verify bits data sig = true := by
    rw [bind_eq_ok]
    constructor
    · rintro ⟨x, hx, h⟩
      split at h
      · rename_i hv
        obtain rfl := Except.ok.inj h
        exact ⟨okOr_eq_ok.mp hx, hv⟩
      · cases h
    · rintro ⟨hraw, hv⟩
      exact ⟨sig, okOr_eq_ok.mpr hraw, if_pos hv⟩
  rw [hone, Signer.sign, hbits, ok_bind]
  cases s.key with
  | rsa pair hash => exact hchecked
  | ecP256 pair => exact hchecked

/-! ### The candidates -/

theorem firstKey_eq_ok_iff {seed : Nat} {bits : Bytes} {key : Key K} :
    ∀ {ders : List (Option String × Bytes)} {e : String}, firstKey K seed bits ders e = .ok key ↔
      ∃ before x after, ders = before ++ x :: after ∧
        (∀ y ∈ before, ∃ e, parseKey K seed y.2 y.1 bits = .error e) ∧
        parseKey K seed x.2 x.1 bits = .ok key := by
  intro ders
  induction ders with
  | nil =>
    intro e
    constructor
    · intro h
      cases h
    · rintro ⟨before, x, after, h, -⟩
      exact absurd h (by simp)
  | cons x ders ih =>
    intro e
    rw [firstKey]
    cases hx : parseKey K seed x.2 x.1 bits with
    | ok key' =>
      constructor
      · intro h
        obtain rfl := Except.ok.inj h
        exact ⟨[], x, ders, rfl, by simp, hx⟩
      · rintro ⟨before, y, after, h, hbefore, hkey⟩
        cases before with
        | nil =>
          obtain ⟨rfl, -⟩ := List.cons.inj h
          exact hx.symm.trans hkey
        | cons z before =>
          obtain ⟨rfl, -⟩ := List.cons.inj h
          obtain ⟨e', he⟩ := hbefore _ List.mem_cons_self
          rw [hx] at he
          cases he
    | error e' =>
      simp only
      rw [ih]
      constructor
      · rintro ⟨before, y, after, rfl, hbefore, hkey⟩
        exact ⟨x :: before, y, after, rfl, List.forall_mem_cons.mpr ⟨⟨e', hx⟩, hbefore⟩, hkey⟩
      · rintro ⟨before, y, after, h, hbefore, hkey⟩
        cases before with
        | nil =>
          obtain ⟨rfl, -⟩ := List.cons.inj h
          rw [hx] at hkey
          cases hkey
        | cons z before =>
          obtain ⟨-, rfl⟩ := List.cons.inj h
          exact ⟨before, y, after, rfl, (List.forall_mem_cons.mp hbefore).2, hkey⟩

theorem firstKey_concat_error {seed : Nat} {bits : Bytes} {x : Option String × Bytes} {e' : String}
    (hx : parseKey K seed x.2 x.1 bits = .error e') :
    ∀ {ders : List (Option String × Bytes)} {e : String},
      (∀ y ∈ ders, ∃ e, parseKey K seed y.2 y.1 bits = .error e) →
      firstKey K seed bits (ders ++ [x]) e = .error e' := by
  intro ders
  induction ders with
  | nil =>
    intro e _
    rw [List.nil_append, firstKey, hx]
    rfl
  | cons y ders ih =>
    intro e h
    obtain ⟨⟨ey, hy⟩, h⟩ := List.forall_mem_cons.mp h
    rw [List.cons_append, firstKey, hy]
    exact ih h

theorem fromMaterial_eq_ok {seed : Nat} {ders : List (Option String × Bytes)} {certs : List Bytes}
    {s : Signer K} (h : fromMaterial K seed ders certs = .ok s) :
    s.certs = certs ∧ ∃ bits, spkiPublicKeyBits s.spki = .ok bits ∧
      firstKey K seed bits ders "no key found" = .ok s.key := by
  cases certs with
  | nil => cases h
  | cons cert chain =>
    rw [fromMaterial] at h
    split at h
    · cases h
    · rename_i spki hspki
      split at h
      · cases h
      · rename_i bits hbits
        cases hkey : firstKey K seed bits ders "no key found" with
        | error e =>
          rw [hkey] at h
          cases h
        | ok key =>
          rw [hkey] at h
          obtain rfl := Except.ok.inj h
          exact ⟨rfl, bits, hbits, hkey⟩

end FastSigner.Keys

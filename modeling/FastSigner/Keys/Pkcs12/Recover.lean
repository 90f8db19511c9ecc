import FastSigner.Sha256.Kdf
import FastSigner.Keys.Pkcs12.Elements

/-!
# Shrouded keys

A shrouded key bag is an EncryptedPrivateKeyInfo: the AlgorithmIdentifier of
PBES2 and the key, padded and encrypted with AES-CBC under a key from PBKDF2.

`Pbes2` holds the parameters, with every optional one present or left out, and
`shroud` encrypts.  `recoverKey_shroud` says that `recover_key` gets back every
string that is one SEQUENCE, and never returns anything else for such a bag.
The length of the SEQUENCE may be in any of the forms that the reader knows, so
that the string need not be DER (`recoverKey_longForm`).
-/

namespace FastSigner.Keys.Pkcs12

open Lib

/-! ### One SEQUENCE -/

/-- The string is one SEQUENCE and nothing else. -/
def OneSequence (x : Bytes) : Prop :=
  ∃ ls body, LengthOctets ls body.length ∧ x = 0x30 :: ls ++ body

theorem oneSequence_der {body : Bytes} (h : body.length < 2 ^ 32) : OneSequence (der 0x30 body) :=
  ⟨_, _, lengthOctets_derLength h, rfl⟩

theorem oneSequence_iff {x : Bytes} {what : String} :
    OneSequence x ↔ ∃ t, one x 0x30 what = .ok t ∧ t.raw.length = x.length := by
  constructor
  · rintro ⟨ls, body, hls, rfl⟩
    exact ⟨_, one_append (by decide) hls what, rfl⟩
  · rintro ⟨t, ht, hlen⟩
    rw [one, bind_eq_ok] at ht
    obtain ⟨⟨t', next⟩, htlv, hexp⟩ := ht
    rw [tlv, bind_eq_ok] at htlv
    obtain ⟨⟨tag, s, l⟩, hhdr, htlv⟩ := htlv
    simp only [expectTag] at hexp
    split at hexp
    · cases hexp
    · rename_i htag
      injection hexp with hexp
      injection htlv with htlv
      injection htlv with htlv
      subst hexp
      rw [← htlv] at hlen htag
      simp only [ne_eq, Decidable.not_not] at htag
      obtain ⟨-, ls, hls, hslice, hs, hfit⟩ := derHeader_eq_ok_iff.mp hhdr
      rw [length_slice_of_le _ hfit] at hlen
      have hsplit := slice_append_slice x (Nat.zero_le s) (Nat.le_add_right s l)
      have hbody : (slice x s (s + l)).length = l := by
        rw [length_slice_of_le _ hfit]
        omega
      refine ⟨ls, slice x s (s + l), by rwa [hbody], ?_⟩
      rw [← htag, ← hslice, hsplit, slice_zero, List.take_of_length_le (by omega)]

/-! ### The parameters -/

inductive AesSize
  | aes128
  | aes192
  | aes256
  deriving DecidableEq, Repr

def AesSize.keyLen : AesSize → Nat
  | .aes128 => 16
  | .aes192 => 24
  | .aes256 => 32

def AesSize.oid : AesSize → Bytes
  | .aes128 => oidAesCbcPre ++ [2]
  | .aes192 => oidAesCbcPre ++ [22]
  | .aes256 => oidAesCbcPre ++ [42]

def Hash.hmacOid : Hash → Bytes
  | .sha1 => oidHmacPre ++ [7]
  | .sha256 => oidHmacPre ++ [9]
  | .sha384 => oidHmacPre ++ [10]
  | .sha512 => oidHmacPre ++ [11]

/-- The parameters of PBES2.  The key length is stated or not; a PRF that is left out is
HMAC-SHA1. -/
structure Pbes2 where
  salt : Bytes
  iterations : Nat
  iterations_pos : 1 ≤ iterations
  iterations_lt : iterations < 2 ^ 32
  keyLength : Bool
  prf : Option Hash
  aes : AesSize
  iv : Bytes
  length_iv : iv.length = 16

namespace Pbes2

def prfParams (prf : Option Hash) : List (UInt8 × Bytes) :=
  match prf with
  | none => []
  | some h => [(0x30, encodeAll [(0x06, h.hmacOid), (0x05, [])])]

def lengthParams (keyLength : Bool) (aes : AesSize) : List (UInt8 × Bytes) :=
  if keyLength then [(0x02, derUint aes.keyLen)] else []

def kdfParams (p : Pbes2) : List (UInt8 × Bytes) :=
  [(0x04, p.salt), (0x02, derUint p.iterations)] ++ (lengthParams p.keyLength p.aes ++ prfParams p.prf)

def kdf (p : Pbes2) : List (UInt8 × Bytes) :=
  [(0x06, oidPbkdf2), (0x30, encodeAll p.kdfParams)]

def scheme (p : Pbes2) : List (UInt8 × Bytes) := [(0x06, p.aes.oid), (0x04, p.iv)]

def params (p : Pbes2) : List (UInt8 × Bytes) :=
  [(0x30, encodeAll p.kdf), (0x30, encodeAll p.scheme)]

def algorithm (p : Pbes2) : List (UInt8 × Bytes) :=
  [(0x06, oidPbes2), (0x30, encodeAll p.params)]

end Pbes2

/-! ### Encryption -/

/-- What the libraries are relied on for: PBKDF2 fills its output, and with HMAC-SHA256 it is the
function of RFC 8018 over the SHA-256 that the SHA instructions compute. -/
structure Prims.Lawful (P : Prims) : Prop where
  length_pbkdf2 : ∀ prf iterations salt password n,
    (P.pbkdf2 prf iterations salt password n).length = n
  pbkdf2_ext : ∀ c, P.ext = some c → ∀ iterations salt password n, 1 ≤ iterations →
    P.pbkdf2 .sha256 iterations salt password n
      = Lib.pbkdf2 (Lib.hmac (Sha256.hash c) 64) 32 password salt iterations n

/-- AES-CBC encryption, which decryption inverts. -/
structure Prims.Cipher (P : Prims) where
  encrypt : (key iv data : Bytes) → Bytes
  decrypt_encrypt : ∀ (size : AesSize) (key iv data : Bytes), key.length = size.keyLen →
    iv.length = 16 → data.length % 16 = 0 → P.aesCbcDecrypt key iv (encrypt key iv data) = data

/-- The padding of PKCS#7: between one and sixteen bytes, each of them their number. -/
def pkcs7 (x : Bytes) : Bytes :=
  let pad := 16 - x.length % 16
  x ++ List.replicate pad (UInt8.ofNat pad)

def Pbes2.key (P : Prims) (p : Pbes2) (password : String) : Bytes :=
  P.pbkdf2 (p.prf.getD .sha1) p.iterations p.salt (utf8 password) p.aes.keyLen

/-- The contents of the EncryptedPrivateKeyInfo. -/
def shroudInfo {P : Prims} (C : P.Cipher) (p : Pbes2) (password : String) (x : Bytes) :
    List (UInt8 × Bytes) :=
  [(0x30, encodeAll p.algorithm), (0x04, C.encrypt (p.key P password) p.iv (pkcs7 x))]

def shroud {P : Prims} (C : P.Cipher) (p : Pbes2) (password : String) (x : Bytes) : Bytes :=
  der 0x30 (encodeAll (shroudInfo C p password x))

theorem length_pkcs7 (x : Bytes) : (pkcs7 x).length = x.length + (16 - x.length % 16) := by
  rw [pkcs7, List.length_append, List.length_replicate]

theorem unpad_pkcs7 (x : Bytes) : unpad (pkcs7 x) = some x := by
  have hlt : x.length % 16 < 16 := Nat.mod_lt _ (by decide)
  have hlen := length_pkcs7 x
  obtain ⟨k, hk⟩ : ∃ k, 16 - x.length % 16 = k + 1 := ⟨15 - x.length % 16, by omega⟩
  have hlast : ((pkcs7 x).getLastD 0).toNat = k + 1 := by
    rw [pkcs7, hk, List.replicate_succ', ← List.append_assoc, List.getLastD_concat,
      UInt8.toNat_ofNat', Nat.mod_eq_of_lt (by omega)]
  have hdrop : (pkcs7 x).drop x.length = List.replicate (k + 1) (UInt8.ofNat (k + 1)) := by
    rw [pkcs7, hk, List.drop_left]
  have htake : (pkcs7 x).take x.length = x := by rw [pkcs7, List.take_left]
  rw [hk] at hlen
  have hall : (List.replicate (k + 1) (UInt8.ofNat (k + 1))).all (fun b => b.toNat == k + 1)
      = true := by
    rw [List.all_eq_true]
    intro b hb
    rw [List.eq_of_mem_replicate hb, UInt8.toNat_ofNat', Nat.mod_eq_of_lt (by omega)]
    exact beq_self_eq_true _
  simp only [unpad, hlast, hlen, Nat.add_sub_cancel, hdrop, htake, hall]
  exact if_neg (by simp only [not_true_eq_false, or_false]; omega)

theorem pbkdf2Key_eq {P : Prims} (hP : P.Lawful) (prf : Hash) {iterations : Nat}
    (h : 1 ≤ iterations) (salt password : Bytes) (n : Nat) :
    pbkdf2Key P prf iterations salt password n = P.pbkdf2 prf iterations salt password n := by
  rw [pbkdf2Key]
  cases hext : P.ext with
  | none => rfl
  | some c =>
    by_cases hprf : prf = .sha256
    · simp only [hprf, if_true]
      rw [hP.pbkdf2_ext c hext iterations salt password n h, Sha256.pbkdf2HmacSha256,
        Sha256.key_eq c password]
      exact Sha256.take_flatMap_pbkdf2Block c password salt h n
    · simp only [if_neg hprf]

/-! ### Reading the parameters -/

theorem child_map {es : List (UInt8 × Bytes)} {i : Nat} {e : UInt8 × Bytes} (h : es[i]? = some e)
    (what : String) : child (es.map derTlv) i e.1 what = .ok (derTlv e) := by
  rw [child, List.getElem?_map, h, Option.map_some, okOr, ok_bind, expectTag]
  exact if_neg (fun hne => hne rfl)

theorem aesKeyLen_oid (aes : AesSize) : aesKeyLen aes.oid = .ok aes.keyLen := by
  cases aes <;> rfl

theorem prfHash_hmacOid (h : Hash) : prfHash h.hmacOid = .ok h := by
  cases h <;> rfl

theorem foldlM_kdfParam (p : Pbes2) :
    ((Pbes2.lengthParams p.keyLength p.aes ++ Pbes2.prfParams p.prf).map derTlv).foldlM kdfParam
        ⟨none, .sha1⟩
      = .ok ⟨if p.keyLength then some p.aes.keyLen else none, p.prf.getD .sha1⟩ := by
  have hlen (acc : KdfParams) :
      ((Pbes2.lengthParams p.keyLength p.aes).map derTlv).foldlM kdfParam acc
        = .ok { acc with keyLength := if p.keyLength then some p.aes.keyLen else acc.keyLength } := by
    cases p.keyLength with
    | false => rfl
    | true =>
      have hlt : p.aes.keyLen < 2 ^ 32 := by cases p.aes <;> decide
      show (kdfParam acc (derTlv (0x02, derUint p.aes.keyLen)) >>= pure) = _
      rw [kdfParam, if_pos rfl, uint_derUint hlt]
      rfl
  have hprf (acc : KdfParams) : ((Pbes2.prfParams p.prf).map derTlv).foldlM kdfParam acc
      = .ok { acc with prf := p.prf.getD acc.prf } := by
    cases p.prf with
    | none => rfl
    | some h =>
      have hch : children (encodeAll [(0x06, h.hmacOid), (0x05, [])])
          = .ok ([(0x06, h.hmacOid), (0x05, [])].map derTlv) := by
        cases h <;> exact children_encodeAll (by decide) (by decide)
      show (kdfParam acc (derTlv (0x30, encodeAll [(0x06, h.hmacOid), (0x05, [])])) >>= pure) = _
      rw [kdfParam, derTlv_tag, if_neg (show ¬ (0x30 : UInt8) = 0x02 by decide), if_pos rfl,
        derTlv_body, hch, ok_bind, @child_map _ 0 (0x06, h.hmacOid) rfl, ok_bind, derTlv_body,
        prfHash_hmacOid]
      rfl
  rw [List.map_append, List.foldlM_append, hlen, ok_bind, hprf]

theorem Pbes2.lengths (p : Pbes2) {n : Nat} (h : (encodeAll p.algorithm).length < n) :
    (encodeAll p.params).length < n ∧ (encodeAll p.kdf).length < n ∧
      (encodeAll p.scheme).length < n ∧ (encodeAll p.kdfParams).length < n := by
  have h1 : (encodeAll p.params).length ≤ (encodeAll p.algorithm).length :=
    @length_le_encodeAll p.algorithm (0x30, encodeAll p.params) (by simp [algorithm])
  have h2 : (encodeAll p.kdf).length ≤ (encodeAll p.params).length :=
    @length_le_encodeAll p.params (0x30, encodeAll p.kdf) (by simp [params])
  have h3 : (encodeAll p.scheme).length ≤ (encodeAll p.params).length :=
    @length_le_encodeAll p.params (0x30, encodeAll p.scheme) (by simp [params])
  have h4 : (encodeAll p.kdfParams).length ≤ (encodeAll p.kdf).length :=
    @length_le_encodeAll p.kdf (0x30, encodeAll p.kdfParams) (by simp [kdf])
  omega

/-- **The parameters are read back**: what is left is to decrypt and to take the padding off. -/
theorem pbes2Decrypt_algorithm (P : Prims) (p : Pbes2)
    (h : (encodeAll p.algorithm).length < 2 ^ 32) {data : Bytes} (hne : data ≠ [])
    (hmod : data.length % 16 = 0) (password : String) :
    pbes2Decrypt P (derTlv (0x30, encodeAll p.algorithm)) data password
      = .ok (unpad (P.aesCbcDecrypt (pbkdf2Key P (p.prf.getD .sha1) p.iterations p.salt
          (utf8 password) p.aes.keyLen) p.iv data)) := by
  obtain ⟨hparams, hkdf, hscheme, hkp⟩ := p.lengths h
  have htags : shortTags (p.kdfParams.map Prod.fst) = true := by
    rw [Pbes2.kdfParams]
    cases p.keyLength with
    | false =>
      cases p.prf with
      | none => exact show shortTags [0x04, 0x02] = true by decide
      | some h => exact show shortTags [0x04, 0x02, 0x30] = true by decide
    | true =>
      cases p.prf with
      | none => exact show shortTags [0x04, 0x02, 0x02] = true by decide
      | some h => exact show shortTags [0x04, 0x02, 0x02, 0x30] = true by decide
  have c0 := @children_encodeAll p.algorithm (show shortTags [0x06, 0x30] = true by decide) h
  have c1 := @children_encodeAll p.params (show shortTags [0x30, 0x30] = true by decide) hparams
  have c2 := @children_encodeAll p.kdf (show shortTags [0x06, 0x30] = true by decide) hkdf
  have c3 := children_encodeAll htags hkp
  have c4 := @children_encodeAll p.scheme (show shortTags [0x06, 0x04] = true by decide) hscheme
  have hcount := uint_derUint p.iterations_lt "PBKDF2 iteration count"
  have hopt := foldlM_kdfParam p
  have hdrop : (p.kdfParams.map derTlv).drop 2
      = (Pbes2.lengthParams p.keyLength p.aes ++ Pbes2.prfParams p.prf).map derTlv := rfl
  have hany : (if p.keyLength then some p.aes.keyLen else none).any (· ≠ p.aes.keyLen) = false := by
    cases p.keyLength <;> simp
  have k0 := @child_map p.algorithm 0 (0x06, oidPbes2) rfl "encryption algorithm"
  have k1 := @child_map p.algorithm 1 (0x30, encodeAll p.params) rfl "PBES2 parameters"
  have k2 := @child_map p.params 0 (0x30, encodeAll p.kdf) rfl "PBES2 key derivation"
  have k3 := @child_map p.kdf 0 (0x06, oidPbkdf2) rfl "PBES2 key derivation"
  have k4 := @child_map p.kdf 1 (0x30, encodeAll p.kdfParams) rfl "PBKDF2 parameters"
  have k5 := @child_map p.kdfParams 0 (0x04, p.salt) rfl "PBKDF2 salt"
  have k6 : (p.kdfParams.map derTlv)[1]? = some (derTlv (0x02, derUint p.iterations)) := rfl
  have k7 := @child_map p.params 1 (0x30, encodeAll p.scheme) rfl "PBES2 encryption scheme"
  have k8 := @child_map p.scheme 0 (0x06, p.aes.oid) rfl "PBES2 encryption scheme"
  have k9 := @child_map p.scheme 1 (0x04, p.iv) rfl "AES IV"
  have hlegacy : legacyPbeName oidPbes2 = none := by decide
  have hiter : ¬ p.iterations = 0 := by
    have := p.iterations_pos
    omega
  simp only [pbes2Decrypt, derTlv_body, c0, c1, c2, c3, c4, k0, k1, k2, k3, k4, k5, k6, k7, k8, k9,
    ok_bind, hlegacy, hcount, hdrop, hopt, hany, aesKeyLen_oid, okOr, cbcDecrypt, p.length_iv,
    if_neg hiter]
  simp [hne, hmod]

/-! ### The round trip -/

/-- The ciphertext: whole blocks, at least one, and the padded key when it is decrypted. -/
theorem encrypt_pkcs7 {P : Prims} (hP : P.Lawful) (C : P.Cipher) (p : Pbes2) (password : String)
    (x : Bytes) :
    C.encrypt (p.key P password) p.iv (pkcs7 x) ≠ [] ∧
      (C.encrypt (p.key P password) p.iv (pkcs7 x)).length % 16 = 0 ∧
      P.aesCbcDecrypt (p.key P password) p.iv (C.encrypt (p.key P password) p.iv (pkcs7 x))
        = pkcs7 x := by
  have hpad := length_pkcs7 x
  have hdec := C.decrypt_encrypt p.aes (p.key P password) p.iv (pkcs7 x)
    (hP.length_pbkdf2 _ _ _ _ _) p.length_iv (by rw [hpad]; omega)
  have hlen := P.length_aesCbcDecrypt (p.key P password) p.iv
    (C.encrypt (p.key P password) p.iv (pkcs7 x))
  rw [hdec] at hlen
  refine ⟨?_, by omega, hdec⟩
  intro hnil
  rw [hnil, List.length_nil] at hlen
  omega

theorem recoverKey_eq_ok {P : Prims} {b x : Bytes} {password : String} {t alg data : Tlv}
    {c : List Tlv} (hone : one b 0x30 "key bag" = .ok t) (hch : children t.body = .ok c)
    (hany : c.head?.any (fun t => t.tag = 0x02) = false)
    (halg : child c 0 0x30 "EncryptedPrivateKeyInfo" = .ok alg)
    (hdata : child c 1 0x04 "EncryptedPrivateKeyInfo" = .ok data)
    (hdec : pbes2Decrypt P alg data.body password = .ok (some x)) (hx : OneSequence x) :
    recoverKey P b password = .ok x := by
  obtain ⟨t', ht', hraw⟩ := (@oneSequence_iff x "").mp hx
  simp only [recoverKey, hone, ok_bind, hch, hany, halg, hdata, hdec, okOr, ht']
  rw [if_neg Bool.false_ne_true, if_pos hraw]
  rfl

theorem recoverKey_of_oneSequence {P : Prims} (hP : P.Lawful) (C : P.Cipher) (p : Pbes2)
    (password : String) {x : Bytes} (hx : OneSequence x)
    (hlen : (encodeAll (shroudInfo C p password x)).length < 2 ^ 32) :
    recoverKey P (shroud C p password x) password = .ok x := by
  obtain ⟨hne, hmod, hdec⟩ := encrypt_pkcs7 hP C p password x
  have halg : (encodeAll p.algorithm).length < 2 ^ 32 :=
    Nat.lt_of_le_of_lt (@length_le_encodeAll (shroudInfo C p password x)
      (0x30, encodeAll p.algorithm) (by simp [shroudInfo])) hlen
  have hone : one (shroud C p password x) 0x30 "key bag"
      = .ok (derTlv (0x30, encodeAll (shroudInfo C p password x))) :=
    one_append (by decide) (lengthOctets_derLength hlen) "key bag"
  have hch := @children_encodeAll (shroudInfo C p password x)
    (show shortTags [0x30, 0x04] = true by decide) hlen
  have hplain : ((shroudInfo C p password x).map derTlv).head?.any (fun t => t.tag = 0x02)
      = false := by
    show decide ((0x30 : UInt8) = 0x02) = false
    decide
  have k0 := @child_map (shroudInfo C p password x) 0 (0x30, encodeAll p.algorithm) rfl
    "EncryptedPrivateKeyInfo"
  have k1 := @child_map (shroudInfo C p password x) 1
    (0x04, C.encrypt (p.key P password) p.iv (pkcs7 x)) rfl "EncryptedPrivateKeyInfo"
  have hpbes : pbes2Decrypt P (derTlv (0x30, encodeAll p.algorithm))
      (C.encrypt (p.key P password) p.iv (pkcs7 x)) password = .ok (some x) := by
    rw [pbes2Decrypt_algorithm P p halg hne hmod, pbkdf2Key_eq hP _ p.iterations_pos,
      ← Pbes2.key, hdec, unpad_pkcs7]
  exact recoverKey_eq_ok hone hch hplain k0 k1 hpbes hx

/-- The bag does not hold a plain PrivateKeyInfo, which would start with its version. -/
def Shrouded (b : Bytes) : Prop :=
  ∃ t c, one b 0x30 "key bag" = .ok t ∧ children t.body = .ok c ∧
    c.head?.any (fun t => t.tag = 0x02) = false

theorem oneSequence_of_recoverKey {P : Prims} {b plain : Bytes} {password : String}
    (hb : Shrouded b) (h : recoverKey P b password = .ok plain) : OneSequence plain := by
  obtain ⟨t, c, hone, hch, hany⟩ := hb
  simp only [recoverKey, hone, ok_bind, hch, hany] at h
  rw [if_neg Bool.false_ne_true] at h
  obtain ⟨alg, -, h⟩ := bind_eq_ok.mp h
  obtain ⟨data, -, h⟩ := bind_eq_ok.mp h
  obtain ⟨dec, -, h⟩ := bind_eq_ok.mp h
  obtain ⟨x, -, h⟩ := bind_eq_ok.mp h
  split at h
  · rename_i t' ht'
    split at h
    · rename_i hraw
      injection h with h
      rw [← h]
      exact oneSequence_iff.mpr ⟨t', ht', hraw⟩
    · cases h
  · cases h

/-- **`recover_key` inverts PBES2 shrouding** with every combination of the parameters, and what
it returns for a shrouded key is one SEQUENCE. -/
theorem recoverKey_shroud {P : Prims} (hP : P.Lawful) (C : P.Cipher) :
    (∀ (p : Pbes2) (password : String) (x : Bytes), OneSequence x →
      (encodeAll (shroudInfo C p password x)).length < 2 ^ 32 →
      recoverKey P (shroud C p password x) password = .ok x) ∧
    ∀ (b : Bytes) (password : String) (plain : Bytes), Shrouded b →
      recoverKey P b password = .ok plain → OneSequence plain :=
  ⟨fun p password _ hx hlen => recoverKey_of_oneSequence hP C p password hx hlen,
    fun _ _ _ hb h => oneSequence_of_recoverKey hb h⟩

theorem length_shroudInfo_eq {P : Prims} (hP : P.Lawful) (C : P.Cipher) (p : Pbes2)
    (password : String) (x : Bytes) :
    (C.encrypt (p.key P password) p.iv (pkcs7 x)).length = (pkcs7 x).length ∧
      (encodeAll (shroudInfo C p password x)).length = (der 0x30 (encodeAll p.algorithm)).length
        + (der 0x04 (C.encrypt (p.key P password) p.iv (pkcs7 x))).length := by
  obtain ⟨-, -, hdec⟩ := encrypt_pkcs7 hP C p password x
  have hdata := P.length_aesCbcDecrypt (p.key P password) p.iv
    (C.encrypt (p.key P password) p.iv (pkcs7 x))
  rw [hdec] at hdata
  refine ⟨hdata.symm, ?_⟩
  rw [shroudInfo, encodeAll_cons, encodeAll_cons, List.length_append, List.length_append]
  rfl

theorem length_shroudInfo {P : Prims} (hP : P.Lawful) (C : P.Cipher) (p : Pbes2)
    (password : String) {x : Bytes} (halg : (encodeAll p.algorithm).length < 2 ^ 16)
    (hx : x.length < 2 ^ 16) :
    (encodeAll (shroudInfo C p password x)).length < 2 ^ 32 := by
  obtain ⟨hdata, hlen⟩ := length_shroudInfo_eq hP C p password x
  rw [length_pkcs7] at hdata
  have h1 := @length_der_le 0x30 (encodeAll p.algorithm) (by omega)
  have h2 := @length_der_le 0x04 (C.encrypt (p.key P password) p.iv (pkcs7 x)) (by omega)
  omega

/-- **Contents of 2^32 bytes or more are not read**: their length takes five octets. -/
theorem recoverKey_of_long {P : Prims} (C : P.Cipher) (p : Pbes2) (password : String) {x : Bytes}
    (h : 2 ^ 32 ≤ (encodeAll (shroudInfo C p password x)).length)
    (h' : (encodeAll (shroudInfo C p password x)).length < 2 ^ 40) :
    recoverKey P (shroud C p password x) password = .error "unsupported DER length encoding" := by
  rw [recoverKey, one, tlv, shroud, derHeader_der_of_long (by decide) h h']
  rfl

/-- SHA-256, also on the CPU's instructions, and PBKDF2 over it; everything else mixes its arguments,
and the cipher adds key and IV to the data. -/
def mixPrims : Prims where
  digest alg m :=
    if alg = .sha256 then Sha256.hash Sha2.compress m else cyclic (1 :: m) alg.outputLen
  length_digest alg m := by
    split
    · rename_i h
      rw [h]
      exact Sha256.length_hash _ _
    · exact length_cyclic (List.cons_ne_nil _ _) _
  hmac alg key m := cyclic (1 :: (key ++ m)) alg.outputLen
  pbkdf2 prf iterations salt password n :=
    if prf = .sha256 ∧ 1 ≤ iterations then
      Lib.pbkdf2 (Lib.hmac (Sha256.hash Sha2.compress) 64) 32 password salt iterations n
    else cyclic (UInt8.ofNat iterations :: (salt ++ password)) n
  aesCbcDecrypt key iv data :=
    List.zipWith (· ^^^ ·) data (cyclic (1 :: (key ++ iv)) data.length)
  length_aesCbcDecrypt key iv data := by
    rw [List.length_zipWith, length_cyclic (List.cons_ne_nil _ _), Nat.min_self]
  toLowercase s := s
  ext := some Sha2.compress

theorem lawful_mixPrims : mixPrims.Lawful where
  length_pbkdf2 prf iterations salt password n := by
    simp only [mixPrims]
    split
    · rename_i h
      exact length_pbkdf2 (by decide) (fun _ _ => Sha256.length_hash _ _) password salt h.2 n
    · exact length_cyclic (List.cons_ne_nil _ _) _
  pbkdf2_ext c hc iterations salt password n hit := by
    obtain rfl := Option.some.inj hc
    exact if_pos ⟨rfl, hit⟩

def mixCipher : mixPrims.Cipher where
  encrypt key iv data := mixPrims.aesCbcDecrypt key iv data
  decrypt_encrypt _ key iv data _ _ _ := by
    have hlen := mixPrims.length_aesCbcDecrypt key iv data
    show List.zipWith (· ^^^ ·) (mixPrims.aesCbcDecrypt key iv data)
      (cyclic (1 :: (key ++ iv)) (mixPrims.aesCbcDecrypt key iv data).length) = data
    rw [hlen]
    exact zipWith_xor_self (by rw [length_cyclic (List.cons_ne_nil _ _)])

/-- HMAC-SHA256 and AES-256, with the key length stated. -/
def fullPbes2 : Pbes2 where
  salt := [1, 2, 3, 4, 5, 6, 7, 8]
  iterations := 10000
  iterations_pos := by decide
  iterations_lt := by decide
  keyLength := true
  prf := some .sha256
  aes := .aes256
  iv := List.replicate 16 9
  length_iv := rfl

theorem length_fullPbes2 : (encodeAll fullPbes2.algorithm).length < 2 ^ 16 := by decide

theorem recoverKey_fullPbes2 :
    recoverKey mixPrims (shroud mixCipher fullPbes2 "pw" (der 0x30 [0x02, 0x01, 0x00])) "pw"
      = .ok (der 0x30 [0x02, 0x01, 0x00]) :=
  (recoverKey_shroud lawful_mixPrims mixCipher).1 fullPbes2 "pw" (der 0x30 [0x02, 0x01, 0x00])
    (oneSequence_der (by decide))
    (length_shroudInfo lawful_mixPrims mixCipher fullPbes2 "pw" length_fullPbes2 (by decide))

/-- An empty SEQUENCE with its length in the long form, which DER does not allow. -/
def longForm : Bytes := [0x30, 0x81, 0x00]

theorem oneSequence_longForm : OneSequence longForm :=
  ⟨[0x81, 0x00], [], @LengthOctets.long [0x00] (List.cons_ne_nil _ _) (by decide), rfl⟩

/-- It is returned as a key all the same. -/
theorem recoverKey_longForm_eq :
    Shrouded (shroud mixCipher fullPbes2 "pw" longForm) ∧
      recoverKey mixPrims (shroud mixCipher fullPbes2 "pw" longForm) "pw" = .ok longForm ∧
      ∀ body, longForm ≠ der 0x30 body := by
  have hlen : (encodeAll (shroudInfo mixCipher fullPbes2 "pw" longForm)).length < 2 ^ 32 :=
    length_shroudInfo lawful_mixPrims mixCipher fullPbes2 "pw" length_fullPbes2 (by decide)
  refine ⟨⟨_, _, one_append (by decide) (lengthOctets_derLength hlen) "key bag",
    children_encodeAll (show shortTags [0x30, 0x04] = true by decide) hlen, by decide⟩,
    recoverKey_of_oneSequence lawful_mixPrims mixCipher fullPbes2 "pw" oneSequence_longForm hlen, ?_⟩
  intro body h
  have hcount := congrArg List.length h
  rw [der_eq, derHead, derLength] at h
  split at h
  · rename_i hshort
    have hbyte : (0x81 : UInt8) = UInt8.ofNat body.length := by
      injection h with _ h
      injection h
    have hval := congrArg UInt8.toNat hbyte
    rw [UInt8.toNat_ofNat', Nat.mod_eq_of_lt (by omega)] at hval
    have : (0x81 : UInt8).toNat = 129 := rfl
    omega
  · have hle := length_le_der 0x30 body
    rw [← hcount] at hle
    have : longForm.length = 3 := rfl
    omega

def zeroSequence (n : Nat) : Bytes := der 0x30 (List.replicate n 0)

/-- With 2^32 bytes of contents it is not recovered. -/
theorem recoverKey_zeroSequence {n : Nat} (h : 2 ^ 32 ≤ n) (h' : n < 2 ^ 33) :
    recoverKey mixPrims (shroud mixCipher fullPbes2 "pw" (zeroSequence n)) "pw"
      = .error "unsupported DER length encoding" := by
  obtain ⟨hdata, hlen⟩ := length_shroudInfo_eq lawful_mixPrims mixCipher fullPbes2 "pw" (zeroSequence n)
  have hrep : (List.replicate n (0 : UInt8)).length = n := List.length_replicate
  have hlow : n ≤ (zeroSequence n).length := by
    have := length_le_der 0x30 (List.replicate n 0)
    rwa [hrep] at this
  have hhigh : (zeroSequence n).length ≤ n + 7 := by
    have := @length_der_le_of_lt 0x30 (List.replicate n 0) (by rw [hrep]; omega)
    rwa [hrep] at this
  have halg := @length_der_le 0x30 (encodeAll fullPbes2.algorithm)
    (Nat.lt_trans length_fullPbes2 (by decide))
  have halg' := length_fullPbes2
  have hlow' := length_le_der 0x04 (mixCipher.encrypt (fullPbes2.key mixPrims "pw") fullPbes2.iv
    (pkcs7 (zeroSequence n)))
  rw [length_pkcs7] at hdata
  have hhigh' := @length_der_le_of_lt 0x04 (mixCipher.encrypt (fullPbes2.key mixPrims "pw")
    fullPbes2.iv (pkcs7 (zeroSequence n))) (by omega)
  exact recoverKey_of_long mixCipher fullPbes2 "pw" (by omega) (by omega)

/-- What is recovered need not be DER, and not every SEQUENCE is recovered. -/
theorem recoverKey_longForm :
    (Shrouded (shroud mixCipher fullPbes2 "pw" longForm) ∧
      recoverKey mixPrims (shroud mixCipher fullPbes2 "pw" longForm) "pw" = .ok longForm ∧
      ∀ body, longForm ≠ der 0x30 body) ∧
    recoverKey mixPrims (shroud mixCipher fullPbes2 "pw" (zeroSequence (2 ^ 32))) "pw"
      ≠ .ok (zeroSequence (2 ^ 32)) := by
  refine ⟨recoverKey_longForm_eq, ?_⟩
  rw [recoverKey_zeroSequence (Nat.le_refl _) (by decide)]
  intro h
  cases h

end FastSigner.Keys.Pkcs12

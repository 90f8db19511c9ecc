import FastSigner.Lib.Utf8
import FastSigner.Sha256
import FastSigner.Keys.Der
import FastSigner.Keys.Jks

/-!
# PKCS#12: elements, bags and decryption

The sequential pieces of the PKCS#12 reader: DER elements, the MAC over the
AuthenticatedSafe, PBES2 decryption, the bags of a SafeContents and the key
entries made from them.  How `parse` puts them on threads is in
`FastSigner.Keys.Pkcs12.Parse`.

The hash functions, HMAC, PBKDF2, AES and the lower-casing of Unicode text are
parameters (`Prims`).
-/

namespace FastSigner.Keys

open Lib

namespace Pkcs12

def oidData : Bytes := [0x2a, 0x86, 0x48, 0x86, 0xf7, 0x0d, 0x01, 0x07, 0x01]
def oidEncryptedData : Bytes := [0x2a, 0x86, 0x48, 0x86, 0xf7, 0x0d, 0x01, 0x07, 0x06]
def oidBagPre : Bytes := [0x2a, 0x86, 0x48, 0x86, 0xf7, 0x0d, 0x01, 0x0c, 0x0a, 0x01]
def oidLegacyPbePre : Bytes := [0x2a, 0x86, 0x48, 0x86, 0xf7, 0x0d, 0x01, 0x0c, 0x01]
def oidX509Cert : Bytes := [0x2a, 0x86, 0x48, 0x86, 0xf7, 0x0d, 0x01, 0x09, 0x16, 0x01]
def oidFriendlyName : Bytes := [0x2a, 0x86, 0x48, 0x86, 0xf7, 0x0d, 0x01, 0x09, 0x14]
def oidLocalKeyId : Bytes := [0x2a, 0x86, 0x48, 0x86, 0xf7, 0x0d, 0x01, 0x09, 0x15]
def oidPbes2 : Bytes := [0x2a, 0x86, 0x48, 0x86, 0xf7, 0x0d, 0x01, 0x05, 0x0d]
def oidPbkdf2 : Bytes := [0x2a, 0x86, 0x48, 0x86, 0xf7, 0x0d, 0x01, 0x05, 0x0c]
def oidPbmac1 : Bytes := [0x2a, 0x86, 0x48, 0x86, 0xf7, 0x0d, 0x01, 0x05, 0x0e]
def oidHmacPre : Bytes := [0x2a, 0x86, 0x48, 0x86, 0xf7, 0x0d, 0x02]
def oidAesCbcPre : Bytes := [0x60, 0x86, 0x48, 0x01, 0x65, 0x03, 0x04, 0x01]
def oidSha1 : Bytes := [0x2b, 0x0e, 0x03, 0x02, 0x1a]
def oidSha2Pre : Bytes := [0x60, 0x86, 0x48, 0x01, 0x65, 0x03, 0x04, 0x02]
def maxNesting : Nat := 4

/-- The last byte of an object identifier that has one more byte than `pre`. -/
def oidLast (pre oid : Bytes) : Option UInt8 :=
  if oid.length = pre.length + 1 ∧ pre.isPrefixOf oid then oid[pre.length]? else none

inductive Hash
  | sha1
  | sha256
  | sha384
  | sha512
  deriving DecidableEq, Repr

def Hash.outputLen : Hash → Nat
  | .sha1 => 20
  | .sha256 => 32
  | .sha384 => 48
  | .sha512 => 64

def Hash.blockLen : Hash → Nat
  | .sha1 => 64
  | .sha256 => 64
  | .sha384 => 128
  | .sha512 => 128

/-- What the reader takes from elsewhere. -/
structure Prims where
  digest : Hash → Bytes → Bytes
  length_digest : ∀ h m, (digest h m).length = h.outputLen
  hmac : Hash → (key m : Bytes) → Bytes
  pbkdf2 : Hash → (iterations : Nat) → (salt password : Bytes) → (n : Nat) → Bytes
  aesCbcDecrypt : (key iv data : Bytes) → Bytes
  length_aesCbcDecrypt : ∀ key iv data, (aesCbcDecrypt key iv data).length = data.length
  toLowercase : String → String
  -- The compression function on the SHA instructions, when `ShaExt::detect` finds them.
  ext : Option Sha256.Compress

/-! ### Elements -/

structure Tlv where
  tag : UInt8
  body : Bytes
  raw : Bytes
  deriving DecidableEq, Repr

def tlv (b : Bytes) (p : Nat) : Except String (Tlv × Nat) := do
  let (tag, s, l) ← derHeader b p
  pure (⟨tag, slice b s (s + l), slice b p (s + l)⟩, s + l)

def expectTag (t : Tlv) (tag : UInt8) (what : String) : Except String Tlv :=
  if t.tag ≠ tag then
    .error ("malformed PKCS#12 " ++ what ++ ": expected DER tag " ++ hex tag ++ ", found "
      ++ hex t.tag)
  else .ok t

def one (b : Bytes) (tag : UInt8) (what : String) : Except String Tlv := do
  let (t, _) ← tlv b 0
  expectTag t tag what

/-- The elements from `p` on.  An element has at least two bytes, so that `b.length` turns are
enough. -/
def childrenFrom (b : Bytes) : (fuel p : Nat) → Except String (List Tlv)
  | 0, _ => .ok []
  | fuel + 1, p =>
    if p < b.length then do
      let (t, next) ← tlv b p
      let rest ← childrenFrom b fuel next
      pure (t :: rest)
    else .ok []

def children (b : Bytes) : Except String (List Tlv) := childrenFrom b b.length 0

def child (cs : List Tlv) (i : Nat) (tag : UInt8) (what : String) : Except String Tlv := do
  let t ← okOr cs[i]? ("malformed PKCS#12 " ++ what ++ ": missing field")
  expectTag t tag what

/-- The leaves of an OCTET STRING; the nesting is less deep than the contents are long. -/
def octetsFuel : Nat → Tlv → Except String Bytes
  | 0, t => .ok t.body
  | fuel + 1, t =>
    if t.tag &&& 0x20 = 0 then .ok t.body
    else do
      let cs ← children t.body
      let parts ← cs.mapM (octetsFuel fuel)
      pure parts.flatten

/-- OCTET STRING contents, also in the constructed form. -/
def octets (t : Tlv) : Except String Bytes := octetsFuel (t.body.length + 1) t

/-- The accumulator of `uint` as long as it has not left 32 bits. -/
def uintStep (acc : Option Nat) (b : UInt8) : Option Nat :=
  match acc with
  | some acc => if acc >>> 32 = 0 then some (acc <<< 8 ||| b.toNat) else none
  | none => none

def uint (t : Tlv) (what : String) : Except String Nat := do
  let t ← expectTag t 0x02 what
  if t.body.head?.all (fun b => b &&& 0x80 ≠ 0) then
    throw ("malformed PKCS#12 " ++ what ++ ": not a positive INTEGER")
  match t.body.foldl uintStep (some 0) with
  | some v => if v < 2 ^ 32 then pure v else throw ("PKCS#12 " ++ what ++ " too large")
  | none => throw ("PKCS#12 " ++ what ++ " too large")

/-! ### The MAC -/

def bmpPassword (pw : String) : Bytes := utf16be pw ++ [0, 0]

/-- `s` repeated up to a multiple of `v`. -/
def kdfFill (v : Nat) (s : Bytes) : Bytes :=
  (List.range (v * ((s.length + v - 1) / v))).map fun i => s.getD (i % s.length) 0

/-- The hash of the hash …, `n` times; on the SHA instructions where the CPU has them. -/
def kdfIterate (P : Prims) (alg : Hash) (a : Bytes) (n : Nat) : Bytes :=
  match P.ext with
  | some c => if alg = .sha256 then Sha256.iterate c a n else (P.digest alg)^[n] a
  | none => (P.digest alg)^[n] a

/-- One block plus `B` plus one, the last byte first. -/
def kdfAddBytes (a block : Bytes) : Bytes :=
  let u := a.length
  ((List.range block.length).foldr (fun k (acc : Bytes × Nat) =>
    let s := (block.getD k 0).toNat + (a.getD (k % u) 0).toNat + acc.2
    (UInt8.ofNat s :: acc.1, s / 256)) ([], 1)).1

def kdfLoop (P : Prims) (alg : Hash) (id : UInt8) (iterations n : Nat) :
    (fuel : Nat) → (iBuf out : Bytes) → Bytes
  | 0, _, out => out
  | fuel + 1, iBuf, out =>
    let first := P.digest alg (List.replicate alg.blockLen id ++ iBuf)
    let a := kdfIterate P alg first (iterations - 1)
    let out := out ++ a.take (min alg.outputLen (n - out.length))
    if out.length = n then out
    else kdfLoop P alg id iterations n fuel
      ((chunks alg.blockLen iBuf).flatMap (kdfAddBytes a)) out

/-- RFC 7292 Appendix B.2 key derivation. -/
def pkcs12Kdf (P : Prims) (alg : Hash) (pass salt : Bytes) (id : UInt8) (iterations n : Nat) :
    Bytes :=
  kdfLoop P alg id iterations n (n + 1) (kdfFill alg.blockLen salt ++ kdfFill alg.blockLen pass) []

def integrityError : String :=
  "keystore integrity check failed: wrong keystore password, or the file was tampered with"

def macHash (oid : Bytes) : Except String Hash :=
  if oid = oidSha1 then .ok .sha1
  else
    match oidLast oidSha2Pre oid with
    | some b =>
      if b = 1 then .ok .sha256
      else if b = 2 then .ok .sha384
      else if b = 3 then .ok .sha512
      else .error "unsupported PKCS#12 MAC digest (SHA-224 / SHA-512/t)"
    | none =>
      if oid = oidPbmac1 then .error "PKCS#12 PBMAC1 integrity protection is not supported"
      else .error "unsupported PKCS#12 MAC algorithm"

def verifyMac (P : Prims) (macData : Tlv) (authSafe : Bytes) (password : String) :
    Except String Unit := do
  let m ← children macData.body
  let di ← children (← child m 0 0x30 "MacData").body
  let alg ← children (← child di 0 0x30 "MAC algorithm").body
  let oid ← child alg 0 0x06 "MAC algorithm"
  let expected ← child di 1 0x04 "MAC digest"
  let salt ← child m 1 0x04 "MAC salt"
  let iterations ← match m[2]? with
    | some t => uint t "MAC iteration count"
    | none => pure 1
  let h ← macHash oid.body
  if iterations = 0 then throw "malformed PKCS#12 MAC iteration count"
  let key := pkcs12Kdf P h (bmpPassword password) salt.body 3 iterations h.outputLen
  if P.hmac h key authSafe = expected.body then pure () else throw integrityError

/-! ### PBES2 -/

def legacyPbeName (oid : Bytes) : Option String :=
  (oidLast oidLegacyPbePre oid).map fun b =>
    if b = 1 then "pbeWithSHAAnd128BitRC4"
    else if b = 2 then "pbeWithSHAAnd40BitRC4"
    else if b = 3 then "pbeWithSHAAnd3-KeyTripleDES-CBC"
    else if b = 4 then "pbeWithSHAAnd2-KeyTripleDES-CBC"
    else if b = 5 then "pbeWithSHAAnd128BitRC2-CBC"
    else if b = 6 then "pbeWithSHAAnd40BitRC2-CBC"
    else "unknown PKCS#12 PBE"

def cbcDecrypt (P : Prims) (key iv data : Bytes) : Except String Bytes :=
  if iv.length ≠ 16 then .error "malformed PKCS#12: bad AES IV length"
  else .ok (P.aesCbcDecrypt key iv data)

/-- The optional PBKDF2 parameters: key length and PRF. -/
structure KdfParams where
  keyLength : Option Nat
  prf : Hash
  deriving DecidableEq, Repr

def prfHash (oid : Bytes) : Except String Hash :=
  let sub := (oidLast oidHmacPre oid).getD 0
  if sub = 7 then .ok .sha1
  else if sub = 9 then .ok .sha256
  else if sub = 10 then .ok .sha384
  else if sub = 11 then .ok .sha512
  else .error "unsupported PBKDF2 PRF (supported: HMAC-SHA1/256/384/512)"

def kdfParam (p : KdfParams) (t : Tlv) : Except String KdfParams :=
  if t.tag = 0x02 then do
    let l ← uint t "PBKDF2 key length"
    pure { p with keyLength := some l }
  else if t.tag = 0x30 then do
    let c ← children t.body
    let oid ← child c 0 0x06 "PBKDF2 PRF"
    let prf ← prfHash oid.body
    pure { p with prf := prf }
  else .error "malformed PKCS#12 PBKDF2 parameters"

def aesKeyLen (eoid : Bytes) : Except String Nat :=
  match oidLast oidAesCbcPre eoid with
  | some 2 => .ok 16
  | some 22 => .ok 24
  | some 42 => .ok 32
  | _ => .error "unsupported PBES2 cipher (only AES-CBC is supported)"

/-- The derived key: on the SHA instructions when the PRF is HMAC-SHA256. -/
def pbkdf2Key (P : Prims) (prf : Hash) (iterations : Nat) (salt password : Bytes) (n : Nat) :
    Bytes :=
  match P.ext with
  | some c =>
    if prf = .sha256 then Sha256.pbkdf2HmacSha256 c password salt iterations n
    else P.pbkdf2 prf iterations salt password n
  | none => P.pbkdf2 prf iterations salt password n

/-- Take the padding off; `none` when it is not one. -/
def unpad (plain : Bytes) : Option Bytes :=
  let pad := (plain.getLastD 0).toNat
  if pad = 0 ∨ pad > 16 ∨ ¬ (plain.drop (plain.length - pad)).all (fun b => b.toNat == pad) then none
  else some (plain.take (plain.length - pad))

/-- `none` when the password did not give valid padding. -/
def pbes2Decrypt (P : Prims) (alg : Tlv) (data : Bytes) (password : String) :
    Except String (Option Bytes) := do
  let a ← children alg.body
  let oid ← child a 0 0x06 "encryption algorithm"
  match legacyPbeName oid.body with
  | some name =>
    throw ("legacy PKCS#12 encryption (" ++ name ++ ") is not supported; re-encrypt with a modern "
      ++ "tool, e.g. keytool -importkeystore -srckeystore <in> -destkeystore <out.p12> "
      ++ "-deststoretype PKCS12 (JDK 12+)")
  | none => pure ()
  if oid.body ≠ oidPbes2 then
    throw "unsupported PKCS#12 encryption algorithm (only PBES2 is supported)"
  let params ← children (← child a 1 0x30 "PBES2 parameters").body
  let kdf ← children (← child params 0 0x30 "PBES2 key derivation").body
  if (← child kdf 0 0x06 "PBES2 key derivation").body ≠ oidPbkdf2 then
    throw "unsupported PBES2 key derivation function (only PBKDF2 is supported)"
  let kp ← children (← child kdf 1 0x30 "PBKDF2 parameters").body
  let salt ← child kp 0 0x04 "PBKDF2 salt"
  let count ← okOr kp[1]? "malformed PKCS#12: PBKDF2 iteration count missing"
  let iterations ← uint count "PBKDF2 iteration count"
  if iterations = 0 then throw "malformed PKCS#12: PBKDF2 iteration count is 0"
  let opt ← (kp.drop 2).foldlM kdfParam ⟨none, .sha1⟩
  let enc ← children (← child params 1 0x30 "PBES2 encryption scheme").body
  let eoid ← child enc 0 0x06 "PBES2 encryption scheme"
  let keyLen ← aesKeyLen eoid.body
  if opt.keyLength.any (· ≠ keyLen) then
    throw "malformed PKCS#12: PBKDF2 key length does not match the AES key size"
  let iv ← child enc 1 0x04 "AES IV"
  if data = [] ∨ data.length % 16 ≠ 0 then
    throw "malformed PKCS#12: ciphertext is not a whole number of AES blocks"
  let key := pbkdf2Key P opt.prf iterations salt.body (utf8 password) keyLen
  let plain ← cbcDecrypt P key iv.body data
  pure (unpad plain)

/-- Decrypt a key bag, or return a plain PrivateKeyInfo as it is. -/
def recoverKey (P : Prims) (protectedKey : Bytes) (keyPassword : String) : Except String Bytes := do
  let c ← children (← one protectedKey 0x30 "key bag").body
  if c.head?.any (fun t => t.tag = 0x02) then pure protectedKey
  else
    let alg ← child c 0 0x30 "EncryptedPrivateKeyInfo"
    let data ← child c 1 0x04 "EncryptedPrivateKeyInfo"
    let plain ← okOr (← pbes2Decrypt P alg data.body keyPassword) "wrong key password"
    match one plain 0x30 "" with
    | .ok t => if t.raw.length = plain.length then pure plain else throw "wrong key password"
    | .error _ => throw "wrong key password"

/-! ### Bags -/

structure KeyBag where
  der : Bytes
  name : Option String
  localId : Option Bytes
  deriving DecidableEq, Repr

structure CertBag where
  der : Bytes
  localId : Option Bytes
  deriving DecidableEq, Repr

structure Bags where
  keys : List KeyBag
  certs : List CertBag
  deriving DecidableEq, Repr

def Bags.empty : Bags := ⟨[], []⟩

def Bags.append (a b : Bags) : Bags := ⟨a.keys ++ b.keys, a.certs ++ b.certs⟩

/-- ContentInfo: its type and its content. -/
def contentInfo (t : Tlv) : Except String (Bytes × Tlv) := do
  let c ← children (← expectTag t 0x30 "ContentInfo").body
  let oid ← child c 0 0x06 "ContentInfo"
  let content ← child c 1 0xa0 "ContentInfo"
  let (t, _) ← tlv content.body 0
  pure (oid.body, t)

/-- Two bytes a unit; an odd byte at the end is dropped. -/
def beUnits (b : Bytes) : List Nat :=
  (List.range (b.length / 2)).map fun i => beNat (slice b (2 * i) (2 * i + 2))

/-- The friendly name and the key id that an attribute sets. -/
def bagAttribute (acc : Option String × Option Bytes) (attr : Tlv) :
    Except String (Option String × Option Bytes) := do
  let a ← children (← expectTag attr 0x30 "bag attribute").body
  let aoid ← child a 0 0x06 "bag attribute"
  let vs ← children (← child a 1 0x31 "bag attribute").body
  match vs.head? with
  | none => pure acc
  | some v =>
    if aoid.body = oidFriendlyName ∧ v.tag = 0x1e then
      pure (some (fromUtf16Lossy (beUnits v.body)), acc.2)
    else if aoid.body = oidLocalKeyId ∧ v.tag = 0x04 then pure (acc.1, some v.body)
    else pure acc

def bagAttributes (attrs : Option Tlv) : Except String (Option String × Option Bytes) :=
  match attrs with
  | none => pure (none, none)
  | some attrs => do
    let as ← children (← expectTag attrs 0x31 "bag attributes").body
    as.foldlM bagAttribute (none, none)

/-- A CertBag; certificates that are not X.509 are skipped. -/
def certBag (value : Tlv) (localId : Option Bytes) (bags : Bags) : Except String Bags := do
  let c ← children (← expectTag value 0x30 "CertBag").body
  if (← child c 0 0x06 "CertBag").body ≠ oidX509Cert then pure bags
  else
    let content ← child c 1 0xa0 "CertBag"
    let (t, _) ← tlv content.body 0
    let der ← octets t
    pure { bags with certs := bags.certs ++ [⟨der, localId⟩] }

/-- One SafeBag; `nested` reads a SafeContents inside it. -/
def safeBag (nested : Bytes → Bags → Except String Bags) (bags : Bags) (bag : Tlv) :
    Except String Bags := do
  let f ← children (← expectTag bag 0x30 "SafeBag").body
  let oid ← child f 0 0x06 "SafeBag"
  let content ← child f 1 0xa0 "SafeBag"
  let (value, _) ← tlv content.body 0
  let (name, localId) ← bagAttributes f[2]?
  match oidLast oidBagPre oid.body with
  | none => pure bags
  | some b =>
    if b = 1 ∨ b = 2 then do
      let key ← expectTag value 0x30 "key bag"
      pure { bags with keys := bags.keys ++ [⟨key.raw, name, localId⟩] }
    else if b = 3 then certBag value localId bags
    else if b = 6 then nested value.raw bags
    -- CRL and secret bags
    else pure bags

/-- The bags of a SafeContents are added to `bags`; `room` is how many levels may still follow. -/
def parseSafeContents : (room : Nat) → Bytes → Bags → Except String Bags
  | 0, _, _ => .error "malformed PKCS#12: SafeContents nested too deeply"
  | room + 1, b, bags => do
    let bs ← children (← one b 0x30 "SafeContents").body
    bs.foldlM (safeBag (parseSafeContents room)) bags

/-- `parse_safe_contents` at depth zero. -/
def safeContentsBags (b : Bytes) (bags : Bags) : Except String Bags :=
  parseSafeContents (maxNesting + 1) b bags

/-! ### Chains and entries -/

/-- The positions of a chain, from `cur` on; `used` holds those already in it. -/
def chainFrom (names : List (Bytes × Bytes)) : (fuel : Nat) → (used : List Nat) → (cur : Nat) →
    List Nat
  | 0, used, _ => used
  | fuel + 1, used, cur =>
    let name := names.getD cur ([], [])
    if used.length < names.length ∧ name.1 ≠ name.2 then
      match (List.range names.length).find? fun i =>
          !used.contains i && (names.getD i ([], [])).2 == name.1 with
      | some i => chainFrom names fuel (used ++ [i]) i
      | none => used
    else used

/-- The certificate chain, leaf first. -/
def buildChain (certs : List CertBag) (leaf : Nat) : Except String (List Bytes) := do
  let names ← certs.mapM fun c => certIssuerSubject c.der
  pure ((chainFrom names certs.length [leaf] leaf).map fun i => (certs.getD i ⟨[], none⟩).der)

/-- The only certificate that issued no other, among those whose names can be read. -/
def loneLeaf (certs : List CertBag) : Option Nat :=
  let subjects := certs.filterMap fun c => (certIssuerSubject c.der).toOption
  let leaves := (List.range subjects.length).filter fun i =>
    !(List.range subjects.length).any fun j =>
      let s := subjects.getD j ([], [])
      j ≠ i && s.1 == (subjects.getD i ([], [])).2 && s.1 ≠ s.2
  match leaves with
  | [i] => some i
  | _ => none

/-- The position of the certificate that belongs to a key. -/
def leafOf (bags : Bags) (k : KeyBag) : Option Nat :=
  let byId := match k.localId with
    | some id => bags.certs.findIdx? fun c => c.localId = some id
    | none => none
  match byId with
  | some i => some i
  | none => if bags.keys.length = 1 then loneLeaf bags.certs else none

def chainOf (bags : Bags) (k : KeyBag) : Except String (List Bytes) :=
  match leafOf bags k with
  | some i => buildChain bags.certs i
  | none => pure []

/-- The entries of a list of key bags; `unnamed` counts those without a name. -/
def keyEntries (P : Prims) (bags : Bags) (recovered : List (Bytes × Except String Bytes)) :
    (unnamed : Nat) → List KeyBag → Except String (List KeyEntry)
  | _, [] => pure []
  | unnamed, k :: ks => do
    let chain ← chainOf bags k
    let (alias_, unnamed) := match k.name with
      | some n => (P.toLowercase n, unnamed)
      | none => (toString (unnamed + 1), unnamed + 1)
    let r := (recovered.find? fun d => d.1 = k.der).map Prod.snd
    let rest ← keyEntries P bags recovered unnamed ks
    pure (⟨alias_, k.der, chain, r⟩ :: rest)

end Pkcs12

structure Pkcs12 where
  keys : List KeyEntry

end FastSigner.Keys

import FastSigner.Lib.Cursor
import FastSigner.Lib.Utf8
import FastSigner.Basic

/-!
# Java key stores

The JKS reader.  A store is a list of key entries and trusted certificates behind
a header, followed by a SHA-1 hash over the password and everything before it;
what comes after the hash is ignored.

`Entry.encode` writes the format down as OpenJDK produces it.  `parse_eq_ok_iff`
says that the reader accepts exactly these strings with a matching hash, and
returns their key entries in order.
-/

namespace FastSigner.Keys

open Lib

/-- The hash function SHA-1. -/
structure Sha1 where
  hash : Bytes → Bytes
  length_hash : ∀ m, (hash m).length = 20

def magicJks : Nat := 0xfeedfeed
def magicJceks : Nat := 0xcececece
def digestLen : Nat := 20

inductive StoreKind
  | jks
  | jceks
  | pkcs12
  | unknown
  deriving DecidableEq, Repr

def detect (bytes : Bytes) : StoreKind :=
  if bytes.length < 4 then .unknown
  else
    let magic := beNat (slice bytes 0 4)
    if magic = magicJks then .jks
    else if magic = magicJceks then .jceks
    else if bytes.head? = some 0x30 then .pkcs12
    else .unknown

/-- Why a store is not accepted. -/
inductive JksError
  | jceks -- "JCEKS keystores are not supported (convert with keytool …)"
  | pkcs12 -- "not a JKS keystore (PKCS#12, see the pkcs12 module)"
  | notJks -- "not a JKS keystore"
  | truncated -- "truncated keystore"
  | version (v : Nat) -- "unsupported JKS version {version}"
  | certType (t : String) -- "unsupported certificate type {t} in keystore"
  | entryTag (tag : Nat) -- "unknown JKS entry tag {tag}"
  | integrity -- "keystore integrity check failed: …"
  deriving DecidableEq

structure KeyEntry where
  alias_ : String
  protectedKey : Bytes
  chain : List Bytes
  -- The decrypted key, where the reader already tried to decrypt it.
  recovered : Option (Except String Bytes)

structure Jks where
  keys : List KeyEntry
  trustedCerts : Nat

namespace Jks

/-! ### The reader -/

abbrev Read := Reader JksError

def take (n : Nat) : Read Bytes := Reader.take .truncated n

def number (k : Nat) : Read Nat := do
  let s ← take k
  pure (beNat s)

def u32 : Read Nat := number 4

def u64 : Read Nat := number 8

/-- `DataInput.readUTF`. -/
def utf : Read String := do
  let s ← take 2
  let raw ← take (beNat s)
  pure (fromUtf8Lossy raw)

def blob : Read Bytes := do
  let n ← u32
  take n

/-- The type string in front of a certificate of a chain. -/
def chainType (version : Nat) : Read Unit :=
  if version = 2 then do
    let t ← utf
    if t = "X.509" then pure () else throw (.certType t)
  else pure ()

def chain (version : Nat) : Nat → Read (List Bytes)
  | 0 => pure []
  | n + 1 => do
    chainType version
    let cert ← blob
    let rest ← chain version n
    pure (cert :: rest)

/-- The type string of a trusted certificate, whatever it says. -/
def trustedType (version : Nat) : Read Unit :=
  if version = 2 then do
    let _ ← utf
    pure ()
  else pure ()

def keyEntry (version : Nat) (acc : Jks) (alias_ : String) : Read Jks := do
  let protectedKey ← blob
  let chainLen ← u32
  let certs ← chain version chainLen
  pure { acc with keys := acc.keys ++ [⟨alias_, protectedKey, certs, none⟩] }

def trustedEntry (version : Nat) (acc : Jks) : Read Jks := do
  trustedType version
  let _ ← blob
  pure { acc with trustedCerts := acc.trustedCerts + 1 }

/-- The loop body: one entry, added to what was read before. -/
def entry (version : Nat) (acc : Jks) : Read Jks := do
  let tag ← u32
  let alias_ ← utf
  let _ ← u64
  if tag = 1 then keyEntry version acc alias_
  else if tag = 2 then trustedEntry version acc
  else throw (.entryTag tag)

def entries (version : Nat) : Nat → Jks → Read Jks
  | 0, acc => pure acc
  | n + 1, acc => do
    let acc ← entry version acc
    entries version n acc

/-- Everything between the magic and the hash. -/
def contents : Read Jks := do
  let version ← u32
  if version ≠ 1 ∧ version ≠ 2 then throw (.version version)
  else do
    let count ← u32
    entries version count ⟨[], 0⟩

/-- The string that the hash is over. -/
def hashed (password : String) (data : Bytes) : Bytes :=
  utf16be password ++ ascii "Mighty Aphrodite" ++ data

/-- `jks::parse`. -/
def parse (H : Sha1) (bytes : Bytes) (password : String) : Except JksError Jks :=
  match detect bytes with
  | .jceks => .error .jceks
  | .pkcs12 => .error .pkcs12
  | .unknown => .error .notJks
  | .jks => do
    let (jks, c) ← contents ⟨bytes, 4⟩
    let dataEnd := c.p
    let (stored, _) ← take digestLen c
    if H.hash (hashed password (slice bytes 0 dataEnd)) ≠ stored then .error .integrity
    else .ok jks

/-! ### The format -/

/-- An entry of a store; `S` is how its strings are given, as text or as the bytes of a text. -/
inductive Entry (S : Type)
  | key (alias_ : S) (date : Nat) (protectedKey : Bytes) (chain : List Bytes)
  | trusted (alias_ : S) (date : Nat) (type : S) (cert : Bytes)

def Entry.map {S T : Type} (f : S → T) : Entry S → Entry T
  | .key alias_ date protectedKey chain => .key (f alias_) date protectedKey chain
  | .trusted alias_ date type cert => .trusted (f alias_) date (f type) cert

def encodeUtf (raw : Bytes) : Bytes := beBytes 2 raw.length ++ raw

def encodeBlob (b : Bytes) : Bytes := beBytes 4 b.length ++ b

def encodeCert (version : Nat) (cert : Bytes) : Bytes :=
  (if version = 2 then encodeUtf (utf8 "X.509") else []) ++ encodeBlob cert

def Entry.encode (version : Nat) : Entry Bytes → Bytes
  | .key alias_ date protectedKey chain =>
    beBytes 4 1 ++ (encodeUtf alias_ ++ (beBytes 8 date ++ (encodeBlob protectedKey
      ++ (beBytes 4 chain.length ++ chain.flatMap (encodeCert version)))))
  | .trusted alias_ date type cert =>
    beBytes 4 2 ++ (encodeUtf alias_ ++ (beBytes 8 date
      ++ ((if version = 2 then encodeUtf type else []) ++ encodeBlob cert)))

/-- Every length and number fits its field. -/
def Entry.Fits : Entry Bytes → Prop
  | .key alias_ date protectedKey chain =>
    alias_.length < 2 ^ 16 ∧ date < 2 ^ 64 ∧ protectedKey.length < 2 ^ 32 ∧ chain.length < 2 ^ 32 ∧
      ∀ cert ∈ chain, cert.length < 2 ^ 32
  | .trusted alias_ date type cert =>
    alias_.length < 2 ^ 16 ∧ date < 2 ^ 64 ∧ type.length < 2 ^ 16 ∧ cert.length < 2 ^ 32

/-- The store up to its hash. -/
def encode (version : Nat) (store : List (Entry Bytes)) : Bytes :=
  beBytes 4 magicJks ++ (beBytes 4 version ++ (beBytes 4 store.length
    ++ store.flatMap (Entry.encode version)))

def add (acc : Jks) : Entry String → Jks
  | .key alias_ _ protectedKey chain =>
    { acc with keys := acc.keys ++ [⟨alias_, protectedKey, chain, none⟩] }
  | .trusted _ _ _ _ => { acc with trustedCerts := acc.trustedCerts + 1 }

/-- The key entries and the number of trusted certificates of a store. -/
def ofStore (store : List (Entry String)) : Jks := store.foldl add ⟨[], 0⟩

/-! ### One reader after the other -/

theorem reads_number (k : Nat) : Reads (number k) (fun n s => n < 256 ^ k ∧ s = beBytes k n) := by
  refine ((reads_take JksError.truncated k).bind fun x => reads_pure (beNat x)).congr ?_
  intro n s
  constructor
  · rintro ⟨x, s₁, s₂, ⟨rfl, rfl⟩, ⟨rfl, rfl⟩, rfl⟩
    exact ⟨beNat_lt x, by rw [beBytes_beNat, List.append_nil]⟩
  · rintro ⟨h, rfl⟩
    exact ⟨beBytes k n, _, [], ⟨rfl, length_beBytes _ _⟩, ⟨(beNat_beBytes_of_lt h).symm, rfl⟩,
      (List.append_nil _).symm⟩

theorem reads_u32 : Reads u32 (fun n s => n < 2 ^ 32 ∧ s = beBytes 4 n) := reads_number 4

theorem reads_u64 : Reads u64 (fun n s => n < 2 ^ 64 ∧ s = beBytes 8 n) := reads_number 8

theorem reads_utf :
    Reads utf (fun t s => ∃ raw : Bytes, raw.length < 2 ^ 16 ∧ t = fromUtf8Lossy raw ∧
      s = encodeUtf raw) := by
  refine ((reads_take JksError.truncated 2).bind fun x =>
    (reads_take JksError.truncated (beNat x)).bind fun raw => reads_pure (fromUtf8Lossy raw)).congr ?_
  intro t s
  constructor
  · rintro ⟨x, s₁, s₂, ⟨rfl, hx⟩, ⟨raw, s₃, s₄, ⟨rfl, hraw⟩, ⟨rfl, rfl⟩, rfl⟩, rfl⟩
    have h := beNat_lt x
    have hb := beBytes_beNat x
    rw [hx] at h hb
    refine ⟨raw, by omega, rfl, ?_⟩
    rw [encodeUtf, hraw, hb, List.append_nil]
  · rintro ⟨raw, hlen, rfl, rfl⟩
    exact ⟨beBytes 2 raw.length, _, raw, ⟨rfl, length_beBytes _ _⟩,
      ⟨raw, raw, [], ⟨rfl, (beNat_beBytes_of_lt hlen).symm⟩, ⟨rfl, rfl⟩, (List.append_nil _).symm⟩,
      rfl⟩

theorem reads_blob : Reads blob (fun b s => b.length < 2 ^ 32 ∧ s = encodeBlob b) := by
  refine (reads_u32.bind fun n => reads_take JksError.truncated n).congr ?_
  intro b s
  constructor
  · rintro ⟨n, s₁, s₂, ⟨hn, rfl⟩, ⟨rfl, rfl⟩, rfl⟩
    exact ⟨hn, rfl⟩
  · rintro ⟨hlen, rfl⟩
    exact ⟨b.length, _, b, ⟨hlen, rfl⟩, ⟨rfl, rfl⟩, rfl⟩

theorem lossy_eq_x509 {raw : Bytes} : fromUtf8Lossy raw = "X.509" ↔ raw = utf8 "X.509" := by
  constructor
  · exact fun h => eq_utf8_of_lossy h (by decide)
  · rintro rfl
    exact fromUtf8Lossy_utf8 _

theorem reads_chainType (version : Nat) :
    Reads (chainType version) (fun _ s => s = if version = 2 then encodeUtf (utf8 "X.509") else []) := by
  rw [chainType]
  by_cases hv : version = 2
  · simp only [if_pos hv]
    refine (reads_utf.bind fun t => (reads_pure ()).ite (P := t = "X.509")
      (reads_throw (.certType t))).congr ?_
    intro u s
    constructor
    · rintro ⟨t, s₁, s₂, ⟨raw, -, rfl, rfl⟩, h, rfl⟩
      split at h
      · rename_i hx
        rw [h.2, List.append_nil, lossy_eq_x509.mp hx]
      · exact h.elim
    · rintro rfl
      refine ⟨"X.509", _, [], ⟨utf8 "X.509", by decide, (fromUtf8Lossy_utf8 _).symm, rfl⟩, ?_,
        (List.append_nil _).symm⟩
      rw [if_pos rfl]
      exact ⟨rfl, rfl⟩
  · simp only [if_neg hv]
    refine (reads_pure ()).congr ?_
    intro u s
    exact ⟨fun h => h.2, fun h => ⟨rfl, h⟩⟩

theorem reads_chain (version : Nat) :
    ∀ n, Reads (chain version n) (fun certs s => certs.length = n ∧
      (∀ cert ∈ certs, cert.length < 2 ^ 32) ∧ s = certs.flatMap (encodeCert version)) := by
  intro n
  induction n with
  | zero =>
    refine (reads_pure []).congr ?_
    intro certs s
    constructor
    · rintro ⟨rfl, rfl⟩
      exact ⟨rfl, fun _ h => (nomatch h), rfl⟩
    · rintro ⟨hlen, -, rfl⟩
      rw [List.eq_nil_of_length_eq_zero hlen]
      exact ⟨rfl, rfl⟩
  | succ n ih =>
    refine ((reads_chainType version).bind fun _ => reads_blob.bind fun cert =>
      ih.bind fun rest => reads_pure (cert :: rest)).congr ?_
    intro certs s
    constructor
    · rintro ⟨-, s₁, s₂, rfl, ⟨cert, s₃, s₄, ⟨hcert, rfl⟩,
        ⟨rest, s₅, s₆, ⟨rfl, hrest, rfl⟩, ⟨rfl, rfl⟩, rfl⟩, rfl⟩, rfl⟩
      refine ⟨rfl, ?_, ?_⟩
      · intro c hc
        rcases List.mem_cons.mp hc with rfl | hc
        · exact hcert
        · exact hrest c hc
      · rw [List.flatMap_cons, encodeCert, List.append_nil, List.append_assoc]
    · rintro ⟨hlen, hall, rfl⟩
      cases certs with
      | nil => cases hlen
      | cons cert rest =>
        refine ⟨(), _, _, rfl, ⟨cert, _, _, ⟨hall cert (by simp), rfl⟩, ⟨rest, _, [],
          ⟨by simpa using hlen, fun c hc => hall c (by simp [hc]), rfl⟩, ⟨rfl, rfl⟩, rfl⟩, rfl⟩, ?_⟩
        rw [List.flatMap_cons, encodeCert, List.append_nil, List.append_assoc]

theorem reads_trustedType (version : Nat) :
    Reads (trustedType version) (fun _ s => ∃ raw : Bytes, raw.length < 2 ^ 16 ∧
      s = if version = 2 then encodeUtf raw else []) := by
  rw [trustedType]
  by_cases hv : version = 2
  · simp only [if_pos hv]
    refine (reads_utf.bind fun _ => reads_pure ()).congr ?_
    intro u s
    constructor
    · rintro ⟨t, s₁, s₂, ⟨raw, hraw, rfl, rfl⟩, ⟨-, rfl⟩, rfl⟩
      exact ⟨raw, hraw, List.append_nil _⟩
    · rintro ⟨raw, hraw, rfl⟩
      exact ⟨_, _, [], ⟨raw, hraw, rfl, rfl⟩, ⟨rfl, rfl⟩, (List.append_nil _).symm⟩
  · simp only [if_neg hv]
    refine (reads_pure ()).congr ?_
    intro u s
    constructor
    · rintro ⟨-, rfl⟩
      exact ⟨[], by decide, rfl⟩
    · rintro ⟨-, -, rfl⟩
      exact ⟨rfl, rfl⟩

theorem reads_keyEntry (version : Nat) (acc : Jks) (alias_ : String) :
    Reads (keyEntry version acc alias_) (fun jks s => ∃ (protectedKey : Bytes) (certs : List Bytes),
      protectedKey.length < 2 ^ 32 ∧ certs.length < 2 ^ 32 ∧
      (∀ cert ∈ certs, cert.length < 2 ^ 32) ∧
      s = encodeBlob protectedKey ++ (beBytes 4 certs.length
        ++ certs.flatMap (encodeCert version)) ∧
      jks = { acc with keys := acc.keys ++ [⟨alias_, protectedKey, certs, none⟩] }) := by
  refine (reads_blob.bind fun protectedKey => reads_u32.bind fun chainLen =>
    (reads_chain version chainLen).bind fun certs => reads_pure _).congr ?_
  intro jks s
  constructor
  · rintro ⟨protectedKey, s₁, s₂, ⟨hkey, rfl⟩, ⟨chainLen, s₃, s₄, ⟨hchain, rfl⟩,
      ⟨certs, s₅, s₆, ⟨rfl, hcerts, rfl⟩, ⟨rfl, rfl⟩, rfl⟩, rfl⟩, rfl⟩
    exact ⟨protectedKey, certs, hkey, hchain, hcerts, by rw [List.append_nil], rfl⟩
  · rintro ⟨protectedKey, certs, hkey, hchain, hcerts, rfl, rfl⟩
    exact ⟨protectedKey, _, _, ⟨hkey, rfl⟩, ⟨certs.length, _, _, ⟨hchain, rfl⟩,
      ⟨certs, _, [], ⟨rfl, hcerts, rfl⟩, ⟨rfl, rfl⟩, (List.append_nil _).symm⟩, rfl⟩, rfl⟩

theorem reads_trustedEntry (version : Nat) (acc : Jks) :
    Reads (trustedEntry version acc) (fun jks s => ∃ type cert : Bytes, type.length < 2 ^ 16 ∧
      cert.length < 2 ^ 32 ∧ s = (if version = 2 then encodeUtf type else []) ++ encodeBlob cert ∧
      jks = { acc with trustedCerts := acc.trustedCerts + 1 }) := by
  refine ((reads_trustedType version).bind fun _ => reads_blob.bind fun _ => reads_pure _).congr ?_
  intro jks s
  constructor
  · rintro ⟨-, s₁, s₂, ⟨type, htype, rfl⟩, ⟨cert, s₃, s₄, ⟨hcert, rfl⟩, ⟨rfl, rfl⟩, rfl⟩, rfl⟩
    exact ⟨type, cert, htype, hcert, by rw [List.append_nil], rfl⟩
  · rintro ⟨type, cert, htype, hcert, rfl, rfl⟩
    exact ⟨(), _, _, ⟨type, htype, rfl⟩, ⟨cert, _, [], ⟨hcert, rfl⟩, ⟨rfl, rfl⟩,
      (List.append_nil _).symm⟩, rfl⟩

/-- **One entry.** -/
theorem reads_entry (version : Nat) (acc : Jks) :
    Reads (entry version acc) (fun jks s => ∃ e : Entry Bytes, e.Fits ∧ s = e.encode version ∧
      jks = acc.add (e.map fromUtf8Lossy)) := by
  refine (reads_u32.bind fun tag => reads_utf.bind fun alias_ => reads_u64.bind fun _ =>
    (reads_keyEntry version acc alias_).ite (P := tag = 1)
      ((reads_trustedEntry version acc).ite (P := tag = 2)
        (reads_throw (.entryTag tag)))).congr ?_
  intro jks s
  constructor
  · rintro ⟨tag, s₁, s₂, ⟨-, rfl⟩, ⟨alias_, s₃, s₄, ⟨raw, hraw, rfl, rfl⟩,
      ⟨date, s₅, s₆, ⟨hdate, rfl⟩, hbody, rfl⟩, rfl⟩, rfl⟩
    split at hbody
    · rename_i htag
      obtain ⟨protectedKey, certs, hkey, hchain, hcerts, rfl, rfl⟩ := hbody
      refine ⟨.key raw date protectedKey certs, ⟨hraw, hdate, hkey, hchain, hcerts⟩, ?_, rfl⟩
      rw [Entry.encode, htag]
    · split at hbody
      · rename_i htag
        obtain ⟨type, cert, htype, hcert, rfl, rfl⟩ := hbody
        refine ⟨.trusted raw date type cert, ⟨hraw, hdate, htype, hcert⟩, ?_, rfl⟩
        rw [Entry.encode, htag]
      · exact hbody.elim
  · rintro ⟨e, hfits, rfl, rfl⟩
    cases e with
    | key raw date protectedKey certs =>
      obtain ⟨hraw, hdate, hkey, hchain, hcerts⟩ := hfits
      refine ⟨1, _, _, ⟨by decide, rfl⟩, ⟨_, _, _, ⟨raw, hraw, rfl, rfl⟩,
        ⟨date, _, _, ⟨hdate, rfl⟩, ?_, rfl⟩, rfl⟩, rfl⟩
      rw [if_pos rfl]
      exact ⟨protectedKey, certs, hkey, hchain, hcerts, rfl, rfl⟩
    | trusted raw date type cert =>
      obtain ⟨hraw, hdate, htype, hcert⟩ := hfits
      refine ⟨2, _, _, ⟨by decide, rfl⟩, ⟨_, _, _, ⟨raw, hraw, rfl, rfl⟩,
        ⟨date, _, _, ⟨hdate, rfl⟩, ?_, rfl⟩, rfl⟩, rfl⟩
      rw [if_neg (by decide), if_pos rfl]
      exact ⟨type, cert, htype, hcert, rfl, rfl⟩

/-- **All entries**: the loop adds them in order. -/
theorem reads_entries (version : Nat) :
    ∀ (n : Nat) (acc : Jks), Reads (entries version n acc) (fun jks s =>
      ∃ store : List (Entry Bytes), store.length = n ∧ (∀ e ∈ store, e.Fits) ∧
        s = store.flatMap (Entry.encode version) ∧
        jks = (store.map (Entry.map fromUtf8Lossy)).foldl add acc) := by
  intro n
  induction n with
  | zero =>
    intro acc
    refine (reads_pure acc).congr ?_
    intro jks s
    constructor
    · rintro ⟨rfl, rfl⟩
      exact ⟨[], rfl, (fun _ h => nomatch h), rfl, rfl⟩
    · rintro ⟨store, hlen, -, rfl, rfl⟩
      rw [List.eq_nil_of_length_eq_zero hlen]
      exact ⟨rfl, rfl⟩
  | succ n ih =>
    intro acc
    refine ((reads_entry version acc).bind fun acc' => ih acc').congr ?_
    intro jks s
    constructor
    · rintro ⟨acc', s₁, s₂, ⟨e, he, rfl, rfl⟩, ⟨store, rfl, hstore, rfl, rfl⟩, rfl⟩
      refine ⟨e :: store, rfl, ?_, rfl, rfl⟩
      intro x hx
      rcases List.mem_cons.mp hx with rfl | hx
      · exact he
      · exact hstore x hx
    · rintro ⟨store, hlen, hstore, rfl, rfl⟩
      cases store with
      | nil => cases hlen
      | cons e store =>
        exact ⟨_, _, _, ⟨e, hstore e (by simp), rfl, rfl⟩, ⟨store, by simpa using hlen,
          fun x hx => hstore x (by simp [hx]), rfl, rfl⟩, rfl⟩

theorem reads_contents :
    Reads contents (fun jks s => ∃ (version : Nat) (store : List (Entry Bytes)),
      (version = 1 ∨ version = 2) ∧ store.length < 2 ^ 32 ∧ (∀ e ∈ store, e.Fits) ∧
      beBytes 4 magicJks ++ s = encode version store ∧
      jks = ofStore (store.map (Entry.map fromUtf8Lossy))) := by
  refine (reads_u32.bind fun version => (reads_throw (.version version)).ite
    (P := version ≠ 1 ∧ version ≠ 2)
    (reads_u32.bind fun count => reads_entries version count ⟨[], 0⟩)).congr ?_
  intro jks s
  constructor
  · rintro ⟨version, s₁, s₂, ⟨-, rfl⟩, h, rfl⟩
    split at h
    · exact h.elim
    · rename_i hv
      obtain ⟨count, s₃, s₄, ⟨hcount, rfl⟩, ⟨store, rfl, hstore, rfl, rfl⟩, rfl⟩ := h
      exact ⟨version, store, by omega, hcount, hstore, rfl, rfl⟩
  · rintro ⟨version, store, hv, hlen, hstore, hs, rfl⟩
    rw [encode, List.append_cancel_left_eq] at hs
    subst hs
    refine ⟨version, _, _, ⟨by omega, rfl⟩, ?_, rfl⟩
    rw [if_neg (by omega)]
    exact ⟨store.length, _, _, ⟨hlen, rfl⟩, ⟨store, rfl, hstore, rfl, rfl⟩, rfl⟩

/-! ### The whole store -/

theorem detect_eq_jks {bytes : Bytes} :
    detect bytes = .jks ↔ slice bytes 0 4 = beBytes 4 magicJks := by
  have hlen : ∀ {n : Nat}, (beBytes 4 n).length = 4 := length_beBytes 4 _
  rw [detect]
  constructor
  · intro h
    split at h
    · cases h
    · rename_i h4
      have hl : (slice bytes 0 4).length = 4 := by
        rw [length_slice]
        omega
      by_cases hm : beNat (slice bytes 0 4) = magicJks
      · have hb := beBytes_beNat (slice bytes 0 4)
        rw [hl, hm] at hb
        exact hb.symm
      · simp only [if_neg hm] at h
        split at h
        · cases h
        · split at h <;> cases h
  · intro h
    have hl := congrArg List.length h
    rw [length_slice, hlen] at hl
    rw [if_neg (by omega), h, beNat_beBytes_of_lt (by decide)]
    simp

theorem parse_steps {H : Sha1} {bytes : Bytes} {password : String} {jks : Jks} :
    parse H bytes password = .ok jks ↔ slice bytes 0 4 = beBytes 4 magicJks ∧
      ∃ c c', contents ⟨bytes, 4⟩ = .ok (jks, c) ∧
        take digestLen c = .ok (H.hash (hashed password (slice bytes 0 c.p)), c') := by
  rw [parse]
  constructor
  · intro h
    split at h
    · cases h
    · cases h
    · cases h
    · rename_i hd
      rw [bind_eq_ok] at h
      obtain ⟨⟨x, c⟩, hcont, h⟩ := h
      rw [bind_eq_ok] at h
      obtain ⟨⟨stored, c'⟩, htake, h⟩ := h
      simp only at h
      split at h
      · cases h
      · rename_i hhash
        obtain rfl := Except.ok.inj h
        exact ⟨detect_eq_jks.mp hd, c, c', hcont, by rw [not_not.mp hhash]; exact htake⟩
  · rintro ⟨hmagic, c, c', hcont, htake⟩
    rw [detect_eq_jks.mpr hmagic]
    simp only [hcont, htake, ok_bind]
    rw [if_neg (not_not.mpr rfl)]

/-- **What the reader accepts.** -/
theorem parse_eq_ok_iff {H : Sha1} {bytes : Bytes} {password : String} {jks : Jks} :
    parse H bytes password = .ok jks ↔
      ∃ (version : Nat) (store : List (Entry Bytes)) (trailing : Bytes),
        (version = 1 ∨ version = 2) ∧ store.length < 2 ^ 32 ∧ (∀ e ∈ store, e.Fits) ∧
        bytes = encode version store ++ H.hash (hashed password (encode version store))
          ++ trailing ∧
        jks = ofStore (store.map (Entry.map fromUtf8Lossy)) := by
  have hmlen : (beBytes 4 magicJks).length = 4 := length_beBytes _ _
  have hhlen : ∀ m, (H.hash m).length = digestLen := H.length_hash
  rw [parse_steps]
  constructor
  · rintro ⟨hmagic, c, c', hcont, htake⟩
    have hfront : (⟨bytes, 0⟩ : Cursor).Spans (beBytes 4 magicJks) ⟨bytes, 4⟩ := by
      rw [Cursor.Spans, hmlen]
      exact ⟨rfl, hmagic⟩
    have hvalid : (⟨bytes, 4⟩ : Cursor).Valid := hfront.valid (Nat.zero_le _)
    obtain ⟨s, ⟨version, store, hv, hlen, hfits, hs, rfl⟩, hspan⟩ :=
      (reads_contents _ hvalid _ _).mp hcont
    obtain ⟨t, ⟨rfl, -⟩, hspan'⟩ :=
      (reads_take JksError.truncated digestLen _ (hspan.valid hvalid) _ _).mp htake
    have hdata : (⟨bytes, 0⟩ : Cursor).Spans (encode version store) c := by
      rw [← hs]
      exact Cursor.spans_append.mpr ⟨_, hfront, hspan⟩
    obtain ⟨hc, t, ht⟩ := Cursor.spans_front.mp hdata
    have hpre : slice bytes 0 c.p = encode version store := by
      rw [hc, ht, slice_zero, List.take_left]
    rw [hpre] at hspan'
    obtain ⟨-, trailing, htr⟩ :=
      Cursor.spans_front.mp (Cursor.spans_append.mpr ⟨c, hdata, hspan'⟩)
    exact ⟨version, store, trailing, hv, hlen, hfits, htr, rfl⟩
  · rintro ⟨version, store, trailing, hv, hlen, hfits, hbytes, rfl⟩
    generalize hd : encode version store = data at hbytes
    have hstart : ∃ s, beBytes 4 magicJks ++ s = data := ⟨_, hd⟩
    obtain ⟨s, hs⟩ := hstart
    have hall : (⟨bytes, 0⟩ : Cursor).Spans (beBytes 4 magicJks ++ (s
        ++ H.hash (hashed password data))) ⟨bytes, data.length + digestLen⟩ := by
      rw [Cursor.spans_front, ← List.append_assoc, hs, List.length_append, hhlen]
      exact ⟨rfl, trailing, hbytes⟩
    obtain ⟨c₁, h1, hrest⟩ := Cursor.spans_append.mp hall
    obtain ⟨c₂, h2, h3⟩ := Cursor.spans_append.mp hrest
    have hc1 : c₁ = ⟨bytes, 4⟩ := by
      rw [h1.1, hmlen, Nat.zero_add]
    subst hc1
    have hvalid : (⟨bytes, 4⟩ : Cursor).Valid := h1.valid (Nat.zero_le _)
    have hmagic : slice bytes 0 4 = beBytes 4 magicJks := by
      have := h1.2
      rw [hmlen] at this
      exact this
    have hpre : slice bytes 0 c₂.p = data := by
      have hdata : (⟨bytes, 0⟩ : Cursor).Spans data c₂ := by
        rw [← hs]
        exact Cursor.spans_append.mpr ⟨_, h1, h2⟩
      obtain ⟨hc, t, ht⟩ := Cursor.spans_front.mp hdata
      rw [hc, ht, slice_zero, List.take_left]
    refine ⟨hmagic, c₂, ⟨bytes, data.length + digestLen⟩, ?_, ?_⟩
    · exact (reads_contents _ hvalid _ _).mpr
        ⟨s, ⟨version, store, hv, hlen, hfits, by rw [hs, hd], rfl⟩, h2⟩
    · rw [hpre]
      exact (reads_take JksError.truncated digestLen _ (h2.valid hvalid) _ _).mpr
        ⟨_, ⟨rfl, hhlen _⟩, h3⟩

theorem map_lossy_map_utf8 (e : Entry String) : (e.map utf8).map fromUtf8Lossy = e := by
  cases e with
  | key alias_ date protectedKey chain => simp only [Entry.map, fromUtf8Lossy_utf8]
  | trusted alias_ date type cert => simp only [Entry.map, fromUtf8Lossy_utf8]

def Entry.asKeyEntry : Entry String → Option KeyEntry
  | .key alias_ _ protectedKey chain => some ⟨alias_, protectedKey, chain, none⟩
  | .trusted _ _ _ _ => none

def Entry.isTrusted {S : Type} : Entry S → Bool
  | .key _ _ _ _ => false
  | .trusted _ _ _ _ => true

theorem foldl_add (store : List (Entry String)) :
    ∀ acc : Jks, store.foldl add acc = ⟨acc.keys ++ store.filterMap Entry.asKeyEntry,
      acc.trustedCerts + store.countP Entry.isTrusted⟩ := by
  induction store with
  | nil =>
    intro acc
    simp
  | cons e store ih =>
    intro acc
    rw [List.foldl_cons, ih]
    cases e with
    | key alias_ date protectedKey chain =>
      have hkey : (Entry.key alias_ date protectedKey chain).asKeyEntry
          = some ⟨alias_, protectedKey, chain, none⟩ := rfl
      rw [List.filterMap_cons_some hkey, List.countP_cons_of_neg (by simp [Entry.isTrusted])]
      simp only [add, List.append_assoc, List.singleton_append]
    | trusted alias_ date type cert =>
      have hkey : (Entry.trusted alias_ date type cert).asKeyEntry = none := rfl
      rw [List.filterMap_cons_none hkey, List.countP_cons_of_pos rfl]
      simp only [add, Nat.add_assoc, Nat.add_comm 1]

theorem ofStore_eq (store : List (Entry String)) :
    ofStore store = ⟨store.filterMap Entry.asKeyEntry, store.countP Entry.isTrusted⟩ := by
  rw [ofStore, foldl_add, List.nil_append, Nat.zero_add]

/-- **The reader accepts exactly the format.**  Every store is read back, key entries in order, and
whatever is read is a store with a matching hash. -/
theorem parse_exact (H : Sha1) (password : String) :
    (∀ (version : Nat) (store : List (Entry String)) (trailing : Bytes),
      version = 1 ∨ version = 2 → store.length < 2 ^ 32 → (∀ e ∈ store, (e.map utf8).Fits) →
      parse H (encode version (store.map (Entry.map utf8))
          ++ H.hash (hashed password (encode version (store.map (Entry.map utf8)))) ++ trailing)
          password
        = .ok ⟨store.filterMap Entry.asKeyEntry, store.countP Entry.isTrusted⟩) ∧
    (∀ (bytes : Bytes) (jks : Jks), parse H bytes password = .ok jks →
      ∃ (version : Nat) (store : List (Entry Bytes)) (trailing : Bytes),
        (version = 1 ∨ version = 2) ∧ store.length < 2 ^ 32 ∧ (∀ e ∈ store, e.Fits) ∧
        bytes = encode version store ++ H.hash (hashed password (encode version store))
          ++ trailing ∧
        jks = ⟨(store.map (Entry.map fromUtf8Lossy)).filterMap Entry.asKeyEntry,
          store.countP Entry.isTrusted⟩) := by
  refine ⟨?_, ?_⟩
  · intro version store trailing hv hlen hfits
    rw [parse_eq_ok_iff]
    refine ⟨version, store.map (Entry.map utf8), trailing, hv, by rwa [List.length_map], ?_, rfl, ?_⟩
    · intro e he
      obtain ⟨x, hx, rfl⟩ := List.mem_map.mp he
      exact hfits x hx
    · rw [List.map_map, ← ofStore_eq]
      congr 1
      exact (List.map_id'' map_lossy_map_utf8 store).symm
  · intro bytes jks h
    obtain ⟨version, store, trailing, hv, hlen, hfits, hbytes, rfl⟩ := parse_eq_ok_iff.mp h
    refine ⟨version, store, trailing, hv, hlen, hfits, hbytes, ?_⟩
    rw [ofStore_eq, List.countP_map]
    congr 2
    funext e
    cases e <;> rfl

/-- A key with a chain of one certificate, and a trusted certificate. -/
def smallStore : List (Entry String) :=
  [.key "a" 7 [1, 2] [[3]], .trusted "ca" 8 "X.509" [4, 5, 6]]

theorem parse_smallStore : (∀ e ∈ smallStore, (e.map utf8).Fits) ∧ ∀ H : Sha1,
    (parse H (encode 2 (smallStore.map (Entry.map utf8))
      ++ H.hash (hashed "pw" (encode 2 (smallStore.map (Entry.map utf8)))) ++ [0]) "pw")
      = .ok ⟨[⟨"a", [1, 2], [[3]], none⟩], 1⟩ := by
  have hfits : ∀ e ∈ smallStore, (e.map utf8).Fits := by
    intro e he
    simp only [smallStore, List.mem_cons, List.not_mem_nil, or_false] at he
    rcases he with rfl | rfl
    · exact ⟨by decide, by decide, by decide, by decide, by decide⟩
    · exact ⟨by decide, by decide, by decide, by decide⟩
  exact ⟨hfits, fun H => (parse_exact H "pw").1 2 smallStore [0] (Or.inr rfl) (by decide) hfits⟩

end Jks

end FastSigner.Keys

import FastSigner.Keys.Pkcs12.Elements
import FastSigner.Keys.Signer

/-!
# Key and certificate files

`--key` and `--cert` name files in PEM or DER.  A file is PEM if a BEGIN line is the
first thing in it; then the private keys and the certificates among its blocks
count.  Without PEM the key file is one candidate as it stands, and the certificate
file a row of certificates.

`decodeCertFile_eq_ok_iff` says which rows are read.
-/

namespace FastSigner.Keys

open Lib Pkcs12

def isAsciiWhitespace (b : UInt8) : Bool :=
  b == 0x20 || b == 0x09 || b == 0x0a || b == 0x0c || b == 0x0d

def isPem (bytes : Bytes) : Bool := ascii "-----BEGIN" <+: bytes.dropWhile isAsciiWhitespace

/-- What is wrong with a file; its path stands in front of each message. -/
inductive FileError
  | read (e : IoError) -- "{e}", from reading it
  | pem (e : PemError)
  | noPrivateKey -- "no PRIVATE KEY block in PEM file"
  | der (e : String) -- "{e}"
  | neither -- "certificate file is neither PEM nor DER"
  | noCertificate -- "no certificate found"
  | material (e : String) -- "{e}"
  deriving DecidableEq, Repr

/-- The file that is at fault. -/
inductive FilesError
  | key (e : FileError)
  | cert (e : FileError)
  deriving DecidableEq, Repr

def decodeKeyFile (bytes : Bytes) : Except FileError (List (Option String × Bytes)) :=
  if isPem bytes then do
    let blocks ← (pemBlocks bytes).mapError .pem
    let keys := (blocks.filter fun b => "PRIVATE KEY".toList <:+ b.1.toList).map fun b => (some b.1, b.2)
    if keys = [] then .error .noPrivateKey else .ok keys
  else .ok [(none, bytes)]

/-- The certificates from `p` on; each turn moves forward. -/
def derCerts (b : Bytes) : (fuel p : Nat) → Except FileError (List Bytes)
  | 0, _ => .ok []
  | fuel + 1, p =>
    if p < b.length then do
      let (tag, start, len) ← (derHeader b p).mapError .der
      if tag ≠ 0x30 then .error .neither
      else do
        let certs ← derCerts b fuel (start + len)
        .ok (slice b p (start + len) :: certs)
    else .ok []

def decodeCertFile (bytes : Bytes) : Except FileError (List Bytes) :=
  if isPem bytes then do
    let blocks ← (pemBlocks bytes).mapError .pem
    .ok ((blocks.filter fun b => b.1 = "CERTIFICATE").map Prod.snd)
  else derCerts bytes bytes.length 0

/-- `Signer::load_files`; `keyFile` and `certFile` are what reading the files gives. -/
def loadFiles (K : RingCrate) (seed : Nat) (keyFile certFile : Except IoError Bytes) :
    Except FilesError (Signer K) := do
  let keyBytes ← keyFile.mapError fun e => .key (.read e)
  let certBytes ← certFile.mapError fun e => .cert (.read e)
  let keyDers ← (decodeKeyFile keyBytes).mapError .key
  let certs ← (decodeCertFile certBytes).mapError .cert
  if certs = [] then .error (.cert .noCertificate)
  else (fromMaterial K seed keyDers certs).mapError fun e => .key (.material e)

/-! ### A row of certificates -/

variable {b : Bytes} {p fuel : Nat}

theorem derCerts_element {e : Element LengthOctets} {rest : Bytes} (h : b.drop p = e.raw ++ rest) :
    derCerts b (fuel + 1) p = if e.tag ≠ 0x30 then .error .neither
      else derCerts b fuel (p + e.raw.length) >>= fun certs => .ok (e.raw :: certs) := by
  have hlt : p < b.length := by
    have hlen := congrArg List.length h
    have := raw_pos e
    rw [List.length_drop, List.length_append] at hlen
    omega
  rw [derCerts, if_pos hlt, derHeader_element h]
  simp only [Except.mapError, ok_bind]
  rw [e.stop_body, e.slice_raw h]

theorem derCerts_eq_ok_iff : ∀ {fuel p : Nat} {certs : List Bytes},
    derCerts b fuel p = .ok certs ↔ ∃ ts, childrenFrom b fuel p = .ok ts ∧
      (∀ t ∈ ts, t.tag = 0x30) ∧ certs = ts.map Tlv.raw := by
  intro fuel
  induction fuel with
  | zero =>
    intro p certs
    rw [derCerts, childrenFrom, Except.ok.injEq]
    constructor
    · rintro rfl
      exact ⟨[], rfl, by simp, rfl⟩
    · rintro ⟨ts, h, -, rfl⟩
      rw [← Except.ok.inj h]
      rfl
  | succ fuel ih =>
    intro p certs
    by_cases hp : p < b.length
    · cases hhdr : derHeader b p with
      | error e =>
        rw [derCerts, childrenFrom, if_pos hp, if_pos hp, tlv, hhdr]
        constructor
        · intro h
          cases h
        · rintro ⟨ts, h, -⟩
          cases h
      | ok x =>
        obtain ⟨tag, s, l⟩ := x
        obtain ⟨e, rest, hdrop, -⟩ := derHeader_eq_ok_iff_element.mp hhdr
        have hchildren : childrenFrom b (fuel + 1) p
            = childrenFrom b fuel (p + e.raw.length) >>= fun ts => .ok (toTlv e :: ts) := by
          rw [childrenFrom, if_pos hp, tlv_element hdrop]
          rfl
        rw [derCerts_element hdrop, hchildren]
        by_cases htag : e.tag = 0x30
        · rw [if_neg (not_not_intro htag), bind_eq_ok]
          constructor
          · rintro ⟨certs', h, hcerts⟩
            obtain ⟨ts, hts, hall, rfl⟩ := ih.mp h
            rw [hts, ok_bind]
            exact ⟨_, rfl, List.forall_mem_cons.mpr ⟨htag, hall⟩, (Except.ok.inj hcerts).symm⟩
          · rintro ⟨ts, h, hall, rfl⟩
            obtain ⟨ts', hts, h⟩ := bind_eq_ok.mp h
            obtain rfl := Except.ok.inj h
            exact ⟨_, ih.mpr ⟨ts', hts, (List.forall_mem_cons.mp hall).2, rfl⟩, rfl⟩
        · rw [if_pos htag]
          constructor
          · intro h
            cases h
          · rintro ⟨ts, h, hall, -⟩
            obtain ⟨ts', -, h⟩ := bind_eq_ok.mp h
            obtain rfl := Except.ok.inj h
            exact absurd (List.forall_mem_cons.mp hall).1 htag
    · rw [derCerts, childrenFrom, if_neg hp, if_neg hp, Except.ok.injEq]
      constructor
      · rintro rfl
        exact ⟨[], rfl, by simp, rfl⟩
      · rintro ⟨ts, h, -, rfl⟩
        rw [← Except.ok.inj h]
        rfl

theorem isPem_of_sequence {e : Element LengthOctets} (he : e.tag = 0x30) (rest : Bytes) :
    isPem (e.raw ++ rest) = false := by
  rw [isPem, Element.raw, List.cons_append, List.cons_append, he, List.dropWhile_cons_of_neg (by decide),
    decide_eq_false_iff_not]
  rintro ⟨tail, h⟩
  have := (List.cons.inj h).1
  exact absurd this (by decide)

theorem isPem_row {es : List (Element LengthOctets)} (hes : ∀ e ∈ es, e.tag = 0x30) :
    isPem (es.flatMap Element.raw) = false := by
  cases es with
  | nil => decide
  | cons e es => exact isPem_of_sequence (hes e List.mem_cons_self) _

/-- **The certificate files without PEM are the rows of SEQUENCEs**: each of them is returned in
full and in order, and no other file is read. -/
theorem decodeCertFile_eq_ok_iff {bytes : Bytes} {certs : List Bytes} :
    isPem bytes = false ∧ decodeCertFile bytes = .ok certs ↔
      ∃ es : List (Element LengthOctets), (∀ e ∈ es, e.tag = 0x30) ∧
        bytes = es.flatMap Element.raw ∧ certs = es.map Element.raw := by
  constructor
  · rintro ⟨hpem, h⟩
    rw [decodeCertFile, hpem, if_neg Bool.false_ne_true, derCerts_eq_ok_iff] at h
    obtain ⟨ts, hts, hall, rfl⟩ := h
    obtain ⟨es, hes, rfl⟩ := children_eq_ok_iff.mp hts
    refine ⟨es, fun e he => hall _ (List.mem_map_of_mem he), hes, ?_⟩
    rw [List.map_map]
    rfl
  · rintro ⟨es, hall, rfl, rfl⟩
    refine ⟨isPem_row hall, ?_⟩
    rw [decodeCertFile, isPem_row hall, if_neg Bool.false_ne_true, derCerts_eq_ok_iff]
    refine ⟨es.map toTlv, children_eq_ok_iff.mpr ⟨es, rfl, rfl⟩, ?_, ?_⟩
    · intro t ht
      obtain ⟨e, he, rfl⟩ := List.mem_map.mp ht
      exact hall e he
    · rw [List.map_map]
      rfl

end FastSigner.Keys

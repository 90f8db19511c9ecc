import FastSigner.Keys.KeyFiles
import FastSigner.Keys.Keystore
import FastSigner.Sign.Batch

/-!
# Loading the key

`load_signer` reads a key and its certificates from two files, or from a key store
whose passwords `resolve_password` finds where the command line says.  The lines of
the standard input are used up one after another.

`loadSigner_eq_some`: the loader ends under every schedule of the threads that read
a PKCS#12 file, and the schedule does not matter.  A `Keys.Signer` is then what the
jobs sign with (`asSigner`).
-/

namespace FastSigner.Sign

open Lib Keys

inductive KeyError
  | envNotSet (what var : String) -- "{what}: environment variable {var} is not set"
  | passwordFile (what path : String) (e : IoError) -- "{what}: {path}: {e}"
  | stdin (what : String) (e : IoError) -- "{what}: stdin: {e}"
  -- "{what}: expected pass:<password>, env:<VAR>, file:<path> or stdin"
  | passwordSpec (what : String)
  | noKsPass -- "--ks-pass is required with --ks (pass:<pw>, env:<VAR>, file:<path> or stdin)"
  | files (e : FilesError) -- the path of the file, and "{e}"
  | keystore (e : LoadError) -- the path of the key store, and "{e}"
  deriving DecidableEq

/-- What the loader reads, and with which libraries. -/
structure Loader (K : RingCrate) where
  prims : Pkcs12.Prims
  sha1 : Sha1
  seed : Nat
  env : String → Option String -- The environment variables that are Unicode.
  fileLine : String → Except IoError String -- The first line of a file, with its end.
  stdinLine : Nat → Except IoError String -- The lines of the standard input, with their ends.
  file : String → Except IoError Bytes

def trimEol (line : String) : String :=
  String.ofList (line.toList.rdropWhile fun c => c = '\n' || c = '\r')

/-- `str::strip_prefix`. -/
def afterPrefix (pre s : String) : Option String :=
  (stripPrefix pre.toList s.toList).map String.ofList

variable {K : RingCrate}

/-- The password, when `n` lines of the standard input have been read, and how many have been
afterwards. -/
def resolvePassword (L : Loader K) (n : Nat) (spec what : String) : Except KeyError (String × Nat) :=
  match afterPrefix "pass:" spec with
  | some p => .ok (p, n)
  | none =>
    match afterPrefix "env:" spec with
    | some var => (okOr (L.env var) (.envNotSet what var)).map fun p => (p, n)
    | none =>
      match afterPrefix "file:" spec with
      | some path => ((L.fileLine path).mapError (.passwordFile what path)).map fun line =>
        (trimEol line, n)
      | none =>
        if spec = "stdin" then
          ((L.stdinLine n).mapError (.stdin what)).map fun line => (trimEol line, n + 1)
        else .error (.passwordSpec what)

def passwords (L : Loader K) (ksPass keyPass : Option String) : Except KeyError (String × String) :=
  match ksPass with
  | none => .error .noKsPass
  | some spec => do
    let (storePw, n) ← resolvePassword L 0 spec "--ks-pass"
    match keyPass with
    | some spec => do
      let (keyPw, _) ← resolvePassword L n spec "--key-pass"
      .ok (storePw, keyPw)
    | none => .ok (storePw, storePw)

/-- `load_signer` under a schedule of the threads of a PKCS#12 file. -/
def loadSigner (L : Loader K) (sched : Nat → Nat × Unit) :
    KeySource → Option (Except KeyError (Keys.Signer K))
  | .files key cert => some ((loadFiles K L.seed (L.file key) (L.file cert)).mapError .files)
  | .keystore ks ksPass alias_ keyPass =>
    match passwords L ksPass keyPass with
    | .error e => some (.error e)
    | .ok (storePw, keyPw) =>
      (loadKeystore L.prims L.sha1
        (fun pkcs8 certs => fromMaterial K L.seed [(some "PRIVATE KEY", pkcs8)] certs) (L.file ks)
        storePw alias_ keyPw sched).map fun r => r.mapError .keystore

theorem exists_openStore (P : Pkcs12.Prims) (H : Sha1) (bytes : Bytes) (password : String)
    (request : Option Pkcs12.KeyRequest) (sched : Nat → Nat × Unit) :
    ∃ s, openStore P H bytes password request sched = some s := by
  rw [openStore]
  split
  · rw [Pkcs12.parse_eq]
    exact ⟨_, rfl⟩
  · exact ⟨_, rfl⟩

/-- **The loader ends, whatever the schedule of its threads, and loads the same key.** -/
theorem loadSigner_eq_some (L : Loader K) (src : KeySource) :
    ∃ r, ∀ sched, loadSigner L sched src = some r := by
  cases src with
  | files key cert => exact ⟨_, fun _ => rfl⟩
  | keystore ks ksPass alias_ keyPass =>
    simp only [loadSigner]
    cases passwords L ksPass keyPass with
    | error e => exact ⟨_, fun _ => rfl⟩
    | ok pws =>
      obtain ⟨storePw, keyPw⟩ := pws
      simp only
      cases L.file ks with
      | error e => exact ⟨_, fun _ => rfl⟩
      | ok bytes =>
        obtain ⟨s, hs⟩ := exists_openStore L.prims L.sha1 bytes storePw none fun _ => (0, ())
        refine ⟨(loadFrom L.prims.toLowercase alias_
          (fun pkcs8 certs => fromMaterial K L.seed [(some "PRIVATE KEY", pkcs8)] certs)
          (fun entry => s.recover entry.protectedKey keyPw) s.keys).mapError .keystore, fun sched => ?_⟩
        rw [loadKeystore_bytes _ _ _ _ _ _ _ sched fun _ => (0, ()), lazyKeystore]
        simp only [hs, Option.map_some]

def asSigner (s : Keys.Signer K) : Signer where
  algId := s.algId
  contentDigest := s.contentDigest
  certs := s.certs
  spki := s.spki
  sign seed data := (s.sign seed data).mapError .sign

/-- The program with this loader; `text` is how an error is reported. -/
def Setting.loading (S : Setting) (L : Loader K) (sched : Nat → Nat × Unit) (text : KeyError → String) :
    Setting :=
  { S with loadSigner := fun src =>
      match Sign.loadSigner L sched src with
      | some (.ok s) => .ok (asSigner s)
      | some (.error e) => .error (text e)
      | none => .error "loading the key failed" }

end FastSigner.Sign

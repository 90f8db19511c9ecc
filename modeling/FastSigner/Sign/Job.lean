import FastSigner.Sign.Files

/-!
# Signing one APK

`signOne` follows `sign_one` from the open of the input to the commit of the
output.  Its three ways to the content digest are

* the rewrite, when `--zipalign always` asks for it or a sample of the headers is
  misaligned already;
* the splice, which digests the old entries section with the inspector riding
  along, and with `--out` copies it meanwhile;
* the late rewrite, when the inspector finds what the sample did not.

A temporary file is removed when an error is returned before its commit
(`onError`), as the destructor of `TempFile` does it.
-/

namespace FastSigner.Sign

open Lib Zip Digest Align SigBlock

/-- One APK to sign. -/
structure Job where
  input : Path
  output : Option Path -- Where the signed APK goes; `none` means in place.
  opts : Opts
  key : Option Signer -- The outcome of loading the key.
  threads : Nat
  sample : Option Nat -- How many stored entries the early check looks at; `none` leaves it out.

def Job.dest (J : Job) : Path := J.output.getD J.input

abbrev Prog := Script Op.Res Error

def compute {α : Type} (r : Except Error α) : Prog α := .done r

/-- A file operation whose error is reported through `err`. -/
def fileOp (o : FileOp) (err : IoError → Error) : Prog Unit :=
  .call (.file o) fun r => .done (r.mapError err)

/-- A file operation whose answer is looked at later, or never. -/
def tryFile (o : FileOp) : Prog (Except IoError Unit) := .call (.file o) fun r => .done (.ok r)

def removeOnError {α : Type} (temp : Path) (p : Prog α) : Prog α := p.onError (.file (.remove temp))

def look (p : Path) (off len : Nat) : Prog Bytes :=
  .call (.mapped p off len) fun r => .done (r.elim (.error .lostMapping) .ok)

def mapFile (p : Path) : Prog Nat := .call (.map p) fun r => .done (r.mapError .map)

/-- A byte string that is owned, or a slice of the mapped input. -/
inductive Part
  | owned (b : Bytes)
  | mapped (off len : Nat)

def Part.len : Part → Nat
  | .owned b => b.length
  | .mapped _ len => len

def Part.look (input : Path) : Part → Prog Bytes
  | .owned b => pure b
  | .mapped off len => Sign.look input off len

/-- `PendingSigner::wait`. -/
def Job.wait (J : Job) : Prog Signer := compute (J.key.elim (.error .keyFailed) .ok)

/-- `PendingSigner::digest_guess`. -/
def Job.digestGuess (J : Job) : Prog Algorithm := do
  let loaded : Bool ← Script.ask Op.keyLoaded
  pure (match loaded, J.key with
    | true, some s => s.contentDigest
    | _, _ => .sha256)

/-- A fresh temporary file next to `dest`. -/
def tempNextTo (dest : Path) : Prog Path := do
  fileOp (.create (tempPath dest)) .openFile
  pure (tempPath dest)

structure Parsed where
  sections : ZipSections
  filtered : FilteredCd
  cd : Part -- The directory to write.

structure Stage where
  digest : Bytes
  layout : Layout
  cd : Part
  entriesEnd : Nat

/-! ### The rewrite path -/

def runRewrite (q : RewriteCall) : Prog Rewritten := .call (.rewrite q) .done

/-- The closure `rewrite`: it needs the key's digest algorithm up front. -/
def Job.rewrite (J : Job) (s : ZipSections) (temp : Path) : Prog (Rewritten × Signer) := do
  let signer ← J.wait
  let cdFull ← look J.input s.cdOff s.cdSize
  let (all, policies) ← compute (classify cdFull)
  let rw_ ← runRewrite {
    src := J.input, dst := temp, cd := cdFull, entries := all, policies
    entriesEnd := s.entriesEnd, libPageSize := J.opts.libPageSize, threads := J.threads
    alg := signer.contentDigest }
  pure (rw_, signer)

def Job.rewrittenStage (R : Crypto) (J : Job) (s : ZipSections) (temp : Path) : Prog Stage := do
  let (rw_, signer) ← J.rewrite s temp
  let (digest, layout) := finishRewrittenDigest R rw_ s.eocd signer.contentDigest
  pure ⟨digest, layout, .owned rw_.cd, rw_.entriesEnd⟩

/-! ### The splice path -/

def runDigest (sources : List Source) (order : List (CdEntry × Nat)) (alg : Algorithm)
    (threads : Nat) : Prog (Bytes × List Note) := Script.ask (Op.digest sources order alg threads)

/-- `digest_layout`, straight from the mapped input; also what the inspector noted. -/
def Job.digestLayout (J : Job) (P : Parsed) (alg : Algorithm) (order : List (CdEntry × Nat)) :
    Prog (Stage × List Note) := do
  let s := P.sections
  let L := Sign.layout s.entriesEnd P.cd.len s.eocd P.filtered.kept.length
  let head ← look J.input 0 s.entriesEnd
  let cd ← P.cd.look J.input
  let (digest, notes) ← runDigest (digestSources head cd L) order alg J.threads
  pure (⟨digest, L, P.cd, s.entriesEnd⟩, notes)

/-- The digest of the spliced layout and the algorithm it was taken with, unless the inspector
finds an entry misaligned. -/
def Job.spliceStage (J : Job) (P : Parsed) (apk cd : Bytes) (inspector : Option LfhInspector) :
    Prog (Option (Stage × Algorithm)) := do
  let alg ← J.digestGuess
  let (stage, notes) ← J.digestLayout P alg (inspector.elim [] LfhInspector.order)
  match inspector with
  | none => pure (some (stage, alg))
  | some insp => do
    let lens ← compute ((notes.foldl LfhInspector.note insp).finish (ReadAt.ofBytes apk)
      P.filtered.kept)
    let bad ← compute (check cd P.filtered.kept lens P.sections.entriesEnd J.opts.libPageSize)
    pure (if bad = [] then some (stage, alg) else none)

/-! ### Signing and writing -/

/-- Signature blocks: the padding with the block, and the EOCD record. -/
def Job.signStage (J : Job) (P : Parsed) (stage : Stage) (guessed : Option Algorithm) :
    Prog (Bytes × Bytes) := do
  let signer ← J.wait
  -- the guess was wrong: digest again
  let stage ← if guessed.any (· ≠ signer.contentDigest) then do
      let (stage, _) ← J.digestLayout P signer.contentDigest []
      pure stage
    else pure stage
  let seed2 : Nat ← Script.ask (Op.random 2)
  let seed3 : Nat ← Script.ask (Op.random 3)
  let block ← compute (signBlock J.opts signer (seed2, seed3) stage.digest)
  let eocd ← compute (finalEocd stage.layout block)
  pure (List.replicate stage.layout.pad 0 ++ block, eocd)

/-- `write_tail`: the parts, one behind the other from `off` on. -/
def Job.writeTail (J : Job) (f : Path) : (off : Nat) → List Part → Prog Unit
  | _, [] => pure ()
  | off, part :: parts => do
    let b ← part.look J.input
    fileOp (.writeAt f off b) .write
    J.writeTail f (off + b.length) parts

/-- Replace `dest` with `temp`: swap the names and unlink the old content, or rename. -/
def replaceFile (temp dest : Path) : Prog Unit := do
  match ← tryFile (.exchange temp dest) with
  | .ok _ => fileOp (.remove temp) .replace
  | .error _ => fileOp (.rename temp dest) .replace

def commit (temp dest : Path) : Prog Unit := removeOnError temp (replaceFile temp dest)

def Job.viaRewrite (R : Crypto) (J : Job) (P : Parsed) : Prog Unit := do
  let temp ← tempNextTo J.dest
  removeOnError temp (do
    let stage ← J.rewrittenStage R P.sections temp
    let (block, eocd) ← J.signStage P stage none
    J.writeTail temp stage.entriesEnd [.owned block, stage.cd, .owned eocd]
    fileOp (.setLen temp (stage.entriesEnd + (block.length + stage.cd.len + eocd.length)))
      .truncate)
  commit temp J.dest

/-- In place.  If the directory and the EOCD record are where and as they were, only the block is
written; else a directory that is still mapped is copied before the block overwrites it. -/
def Job.writeInPlace (J : Job) (P : Parsed) (stage : Stage) (block eocd : Bytes) : Prog Unit := do
  let s := P.sections
  let kept := stage.cd.len + eocd.length
  let newLen := stage.entriesEnd + (block.length + kept)
  let same ← if newLen = s.fileLen then do
      let cd ← stage.cd.look J.input
      let oldCd ← look J.input (s.fileLen - kept) stage.cd.len
      let oldEocd ← look J.input (s.fileLen - eocd.length) eocd.length
      pure (decide (oldCd = cd ∧ oldEocd = eocd))
    else pure false
  if same then J.writeTail J.input stage.entriesEnd [.owned block]
  else do
    let cd ← stage.cd.look J.input
    J.writeTail J.input stage.entriesEnd [.owned block, .owned cd, .owned eocd]
  if newLen ≠ s.fileLen then fileOp (.setLen J.input newLen) .truncate

def Job.spliceInPlace (R : Crypto) (J : Job) (P : Parsed) (apk cd : Bytes)
    (inspector : Option LfhInspector) : Prog Unit := do
  match ← J.spliceStage P apk cd inspector with
  | none => J.viaRewrite R P
  | some (stage, alg) => do
    let (block, eocd) ← J.signStage P stage (some alg)
    J.writeInPlace P stage block eocd

/-- Sign the spliced layout into `out`.  The head is copied while the digest runs; whether that
worked is asked when the tail is written. -/
def Job.spliceTo (R : Crypto) (J : Job) (P : Parsed) (apk cd : Bytes)
    (inspector : Option LfhInspector) (out : Path) : Prog Unit := do
  let temp ← tempNextTo out
  let copied ← tryFile (.copyHead J.input temp P.sections.entriesEnd)
  match ← removeOnError temp (J.spliceStage P apk cd inspector) with
  | none => do
    let _ ← tryFile (.remove temp)
    J.viaRewrite R P
  | some (stage, alg) => do
    removeOnError temp (do
      let (block, eocd) ← J.signStage P stage (some alg)
      compute (copied.mapError .write)
      J.writeTail temp stage.entriesEnd [.owned block, stage.cd, .owned eocd])
    commit temp out

/-! ### All of it -/

def Job.quick (J : Job) (P : Parsed) (apk cd : Bytes) : Except Error Bool :=
  match J.opts.zipalign, J.sample with
  | .check, some n => quickMisaligned (ReadAt.ofBytes apk) cd P.sections.entriesEnd
      J.opts.libPageSize n P.filtered.kept
  | _, _ => .ok false

def Job.inspector (J : Job) (P : Parsed) : Except Error (Option LfhInspector) :=
  if J.opts.zipalign = .check then do
    let insp ← LfhInspector.new P.filtered.kept P.sections.entriesEnd
    .ok (some insp)
  else .ok none

/-- The ZIP structure of the input, and its directory without the dropped entries. -/
def parseInput (apk : Bytes) : Except Error (Parsed × Bytes) := do
  let sections ← parse (ReadAt.ofBytes apk)
  let cdFull := slice apk sections.cdOff (sections.cdOff + sections.cdSize)
  let filtered ← filterCd cdFull
  let cd := match filtered.bytes with
    | .borrowed => Part.mapped sections.cdOff sections.cdSize
    | .owned b => Part.owned b
  .ok (⟨sections, filtered, cd⟩, filtered.bytes.deref cdFull)

def signOne (R : Crypto) (J : Job) : Prog Unit := do
  fileOp (.openFile J.input) .openFile
  let len ← mapFile J.input
  let apk ← look J.input 0 len
  let (P, cd) ← compute (parseInput apk)
  let inspector ← compute (J.inspector P)
  if J.opts.zipalign = .always then J.viaRewrite R P
  else do
    let misaligned ← compute (J.quick P apk cd)
    if misaligned then J.viaRewrite R P
    else
      match J.output with
      | none => J.spliceInPlace R P apk cd inspector
      | some out => J.spliceTo R P apk cd inspector out

end FastSigner.Sign

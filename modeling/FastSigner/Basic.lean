import FastSigner.Lib.Bytes

/-!
# Errors, positioned reads and fixed-width numbers

What the ZIP, alignment and signing code share: the error messages, the
`ReadAt` trait with its in-memory instance, the little-endian field readers and
the two ways a build treats an arithmetic overflow.

An error message is a constructor of `Error` that keeps what the message is
formatted from; the text is in its docstring.
-/

namespace FastSigner

open Lib

/-- An operating-system error. -/
inductive IoError
  | unexpectedEof -- "read past end of buffer"
  | shortCopy (copied entriesEnd : Nat) -- "short copy: {copied} of {entries_end} bytes"
  | notFound -- "No such file or directory"
  | tooLarge -- "file too large to map"
  | other (code : Nat)
  deriving DecidableEq, Repr

/-- Why signing failed. -/
inductive Error
  | stat (e : IoError) -- "stat: {e}"
  | tooSmall -- "file too small to be a ZIP"
  | readTail (e : IoError) -- "read tail: {e}"
  | noEocd -- "ZIP End of Central Directory record not found"
  | multiDisk -- "multi-disk ZIP archives are not supported"
  | zip64 -- "Zip64 archives are not supported"
  | zip64Locator -- "Zip64 archives are not supported (zip64 locator present)"
  -- "ZIP Central Directory is not immediately followed by the EOCD (cd_off={cd_off}
  -- cd_size={cd_size} eocd_off={eocd_off})"
  | cdNotBeforeEocd (cdOff cdSize eocdOff : Nat)
  | readSigBlockFooter (e : IoError) -- "read sig block footer: {e}"
  | readSigBlockHead (e : IoError) -- "read sig block head: {e}"
  | malformedCdEntry (p : Nat) -- "malformed Central Directory entry at offset {p}"
  | cdEntryOverruns (p : Nat) -- "Central Directory entry at offset {p} overruns the directory"
  -- The panic of a build with overflow checks: "attempt to add (or subtract) with overflow".
  | overflow
  | lfhOutside (off : Nat) -- "local file header at {off} lies outside the entries section"
  | lfhShared (off : Nat) -- "two Central Directory entries share local header offset {off}"
  | noLfh (off : Nat) -- "no local file header at offset {off}"
  | lfhNotSeen (off : Nat) -- "local file header at {off} was not seen by the digest pass"
  | readLfh (off : Nat) (e : IoError) -- "read local file header at {off}: {e}"
  | lfhOverrunsNext (name : Bytes) -- "local file header of {name} overruns the next entry"
  | lfhOverruns (off : Nat) -- "local file header at {off} overruns the entries section"
  | readLocalHeaders (e : IoError) -- "read local headers: {e}"
  | entryOverlaps (name : Bytes) -- "entry {name} overlaps the previous record"
  | entryOverruns (name : Bytes) -- "entry {name} overruns the entries section"
  | extraTooLong (name : Bytes) -- "extra field of {name} would exceed 64 KiB"
  | rewrite (e : IoError) -- "rewrite: {e}"
  | openFile (e : IoError) -- The message of a failed open of the input or the temporary file.
  | map (e : IoError) -- "map: {e}", also for a file too large to map.
  -- No message: the mapped file has lost the bytes that are looked at, and SIGBUS ends the
  -- process.
  | lostMapping
  | keyFailed -- "no key": the key failed to load.
  | sign (msg : String) -- What the signer itself reports.
  | exceeds4GiB -- "output would exceed 4 GiB (Zip64 not supported)"
  | write (e : IoError) -- "write: {e}"
  | truncate (e : IoError) -- "truncate: {e}"
  | replace (e : IoError) -- "replace {dest} with {temp}: {e}"
  deriving DecidableEq, Repr

/-! ### Positioned reads -/

/-- The trait `ReadAt`: a file or a byte slice that can be read at any offset. -/
structure ReadAt where
  readExactAt : (off n : Nat) → Except IoError Bytes
  len : Except IoError Nat

def ReadAt.ofBytes (b : Bytes) : ReadAt where
  readExactAt off n := if off + n ≤ b.length then .ok (slice b off (off + n)) else .error .unexpectedEof
  len := .ok b.length

@[simp] theorem ReadAt.ofBytes_len (b : Bytes) : (ReadAt.ofBytes b).len = .ok b.length := rfl

theorem ReadAt.ofBytes_readExactAt {b : Bytes} {off n : Nat} (h : off + n ≤ b.length) :
    (ReadAt.ofBytes b).readExactAt off n = .ok (slice b off (off + n)) := if_pos h

theorem ReadAt.ofBytes_readExactAt_ok {b r : Bytes} {off n : Nat}
    (h : (ReadAt.ofBytes b).readExactAt off n = .ok r) :
    off + n ≤ b.length ∧ r = slice b off (off + n) := by
  simp only [ReadAt.ofBytes] at h
  split at h
  · exact ⟨by assumption, (Except.ok.inj h).symm⟩
  · cases h

/-- Reads of a file that holds `b`; the environment may make some of them fail. -/
def ReadAt.faulty (b : Bytes) (fault : (off n : Nat) → Option IoError) : ReadAt where
  readExactAt off n :=
    match fault off n with
    | some e => .error e
    | none => (ReadAt.ofBytes b).readExactAt off n
  len := .ok b.length

def ReadAt.Honest (r : ReadAt) (b : Bytes) : Prop :=
  ∀ off n x, r.readExactAt off n = .ok x → off + n ≤ b.length ∧ x = slice b off (off + n)

theorem ReadAt.honest_ofBytes (b : Bytes) : (ReadAt.ofBytes b).Honest b :=
  fun _ _ _ h => ReadAt.ofBytes_readExactAt_ok h

theorem ReadAt.honest_faulty (b : Bytes) (fault : (off n : Nat) → Option IoError) :
    (ReadAt.faulty b fault).Honest b := by
  intro off n x h
  simp only [ReadAt.faulty] at h
  split at h
  · cases h
  · exact ReadAt.ofBytes_readExactAt_ok h

/-! ### Fallible code -/

theorem bind_eq_ok {ε α β : Type} {x : Except ε α} {g : α → Except ε β} {b : β} :
    (x >>= g) = .ok b ↔ ∃ a, x = .ok a ∧ g a = .ok b := by
  cases x with
  | error e => simp [bind, Except.bind]
  | ok a => simp [bind, Except.bind]

@[simp] theorem ok_bind {ε α β : Type} (a : α) (g : α → Except ε β) :
    ((Except.ok a : Except ε α) >>= g) = g a := rfl

@[simp] theorem error_bind {ε α β : Type} (e : ε) (g : α → Except ε β) :
    ((Except.error e : Except ε α) >>= g) = .error e := rfl

@[simp] theorem mapError_eq_ok {ε ε' α : Type} {h : ε → ε'} {x : Except ε α} {a : α} :
    x.mapError h = .ok a ↔ x = .ok a := by
  cases x with
  | error e => simp [Except.mapError]
  | ok b => simp [Except.mapError]

@[simp] theorem mapError_ok {ε ε' α : Type} (h : ε → ε') (a : α) :
    (Except.ok a : Except ε α).mapError h = .ok a := rfl

theorem toOption_eq_some {ε α : Type} {x : Except ε α} {a : α} :
    x.toOption = some a ↔ x = .ok a := by
  cases x with
  | error e => simp [Except.toOption]
  | ok b => simp [Except.toOption]

theorem mapM_cons_eq_ok {ε α β : Type} {f : α → Except ε β} {a : α} {l : List α} {bs : List β} :
    (a :: l).mapM f = .ok bs ↔ ∃ b bs', f a = .ok b ∧ l.mapM f = .ok bs' ∧ bs = b :: bs' := by
  rw [List.mapM_cons, bind_eq_ok]
  simp only [bind_eq_ok]
  constructor
  · rintro ⟨b, hb, bs', hbs', h⟩
    exact ⟨b, bs', hb, hbs', (Except.ok.inj h).symm⟩
  · rintro ⟨b, bs', hb, hbs', rfl⟩
    exact ⟨b, hb, bs', hbs', rfl⟩

/-- A loop that stops at the first error succeeds exactly when every turn does. -/
theorem mapM_eq_ok_iff {ε α β : Type} {f : α → Except ε β} {l : List α} :
    ∀ {bs : List β}, l.mapM f = .ok bs ↔ l.map f = bs.map .ok := by
  induction l with
  | nil =>
    intro bs
    cases bs with
    | nil => exact ⟨fun _ => rfl, fun _ => rfl⟩
    | cons b bs => exact ⟨(fun h => nomatch h), (fun h => nomatch h)⟩
  | cons a l ih =>
    intro bs
    rw [mapM_cons_eq_ok]
    constructor
    · rintro ⟨b, bs', hb, hbs', rfl⟩
      rw [List.map_cons, List.map_cons, hb, ih.mp hbs']
    · intro h
      cases bs with
      | nil => cases h
      | cons b bs =>
        rw [List.map_cons, List.map_cons, List.cons.injEq] at h
        exact ⟨b, bs, h.1, ih.mpr h.2, rfl⟩

theorem forall_ok_of_mapM {ε α β : Type} {f : α → Except ε β} {l : List α} {bs : List β}
    (h : l.mapM f = .ok bs) : ∀ a ∈ l, ∃ b, f a = .ok b := by
  intro a ha
  have hmem := List.mem_map_of_mem (f := f) ha
  rw [mapM_eq_ok_iff.mp h] at hmem
  obtain ⟨b, -, hb⟩ := List.mem_map.mp hmem
  exact ⟨b, hb.symm⟩

/-! ### Fixed-width fields -/

def ascii (s : String) : Bytes := s.toList.map fun c => UInt8.ofNat c.toNat

def u16le (b : Bytes) (i : Nat) : Nat := leNat (slice b i (i + 2))

def u32le (b : Bytes) (i : Nat) : Nat := leNat (slice b i (i + 4))

def u64le (b : Bytes) (i : Nat) : Nat := leNat (slice b i (i + 8))

theorem leNat_slice_lt (b : Bytes) (i n : Nat) : leNat (slice b i (i + n)) < 256 ^ n := by
  refine Nat.lt_of_lt_of_le (leNat_lt _) (Nat.pow_le_pow_right (by decide) ?_)
  rw [length_slice]
  omega

theorem leNat_slice_append (a b : Bytes) {i n : Nat} (h : i + n ≤ a.length) :
    leNat (slice (a ++ b) i (i + n)) = leNat (slice a i (i + n)) := by
  rw [slice_append_left b i h]

theorem u16le_drop (b : Bytes) (n i : Nat) : u16le (b.drop n) i = u16le b (n + i) := by
  rw [u16le, u16le, slice_drop, Nat.add_assoc]

theorem u32le_drop (b : Bytes) (n i : Nat) : u32le (b.drop n) i = u32le b (n + i) := by
  rw [u32le, u32le, slice_drop, Nat.add_assoc]

theorem u16le_slice (b : Bytes) {i j k : Nat} (h : i + k + 2 ≤ j) :
    u16le (slice b i j) k = u16le b (i + k) := by
  rw [u16le, u16le, slice_slice_of_le b (by omega), Nat.add_assoc]

theorem u64le_slice (b : Bytes) {i j k : Nat} (h : i + k + 8 ≤ j) :
    u64le (slice b i j) k = u64le b (i + k) := by
  rw [u64le, u64le, slice_slice_of_le b (by omega), Nat.add_assoc]

theorem u16le_lt (b : Bytes) (i : Nat) : u16le b i < 2 ^ 16 := leNat_slice_lt b i 2

theorem u32le_lt (b : Bytes) (i : Nat) : u32le b i < 2 ^ 32 := leNat_slice_lt b i 4

theorem u64le_lt (b : Bytes) (i : Nat) : u64le b i < 2 ^ 64 := leNat_slice_lt b i 8

/-! ### Overflow -/

/-- What a build does when a `u64` addition or subtraction leaves the range: the release
profile wraps around, a build with overflow checks panics. -/
inductive Overflow
  | wrap
  | panic
  deriving DecidableEq, Repr

def addU64 (m : Overflow) (a b : Nat) : Except Error Nat :=
  if a + b < 2 ^ 64 then .ok (a + b)
  else match m with
    | .wrap => .ok ((a + b) % 2 ^ 64)
    | .panic => .error .overflow

def subU64 (m : Overflow) (a b : Nat) : Except Error Nat :=
  if b ≤ a then .ok (a - b)
  else match m with
    | .wrap => .ok (2 ^ 64 + a - b)
    | .panic => .error .overflow

theorem addU64_of_lt (m : Overflow) {a b : Nat} (h : a + b < 2 ^ 64) : addU64 m a b = .ok (a + b) :=
  if_pos h

theorem subU64_of_le (m : Overflow) {a b : Nat} (h : b ≤ a) : subU64 m a b = .ok (a - b) := if_pos h

theorem addU64_wrap {a b : Nat} (h : 2 ^ 64 ≤ a + b) :
    addU64 .wrap a b = .ok ((a + b) % 2 ^ 64) := if_neg (by omega)

theorem subU64_wrap {a b : Nat} (h : a < b) : subU64 .wrap a b = .ok (2 ^ 64 + a - b) :=
  if_neg (by omega)

theorem addU64_panic {a b : Nat} (h : 2 ^ 64 ≤ a + b) : addU64 .panic a b = .error .overflow :=
  if_neg (by omega)

def checkedSub (a b : Nat) : Option Nat := if b ≤ a then some (a - b) else none

def checkedSlice (b : Bytes) (i j : Nat) : Option Bytes :=
  if i ≤ j ∧ j ≤ b.length then some (slice b i j) else none

theorem checkedSub_of_le {a b : Nat} (h : b ≤ a) : checkedSub a b = some (a - b) := if_pos h

theorem checkedSlice_of_le {b : Bytes} {i j : Nat} (hi : i ≤ j) (hj : j ≤ b.length) :
    checkedSlice b i j = some (slice b i j) := if_pos ⟨hi, hj⟩

end FastSigner

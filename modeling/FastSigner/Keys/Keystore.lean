import FastSigner.Keys.Jks.Recover
import FastSigner.Keys.Pkcs12.Parse

/-!
# Loading a key from a key store

`Signer::load_keystore` opens a JKS or PKCS#12 file, selects an entry and gets
its key.  For a PKCS#12 file the request goes along, so that `parse` decrypts
keys before one is selected, on threads beside the other derivations.

`lazyKeystore` is the reader that asks for no key and decrypts the selected one
afterwards.  `loadKeystore_eq_lazy` says that the two agree on every file, error
by error.
-/

namespace FastSigner.Keys

open Lib

/-! ### The loader -/

inductive StoreError
  | jks (e : JksError)
  | pkcs12 (e : String)
  deriving DecidableEq

/-- Why no signer was loaded; the path of the store stands in front of each message. -/
inductive LoadError
  | read (e : IoError) -- "{e}", from reading the file
  | store (e : StoreError) -- "{e}"
  -- "key alias {a:?} not found (available: {})"
  | aliasNotFound (a : String) (available : List String)
  | noKeys -- "keystore contains no key entries"
  -- "keystore has {n} key entries, --ks-key-alias is required (available: {})"
  | manyKeys (n : Nat) (available : List String)
  -- "alias {:?}: {e}", from decrypting the key or from the material
  | entry (alias_ : String) (e : String)
  | noChain (alias_ : String) -- "alias {:?} has no certificate chain"
  deriving DecidableEq

/-- The two formats: their entries and how a key of theirs is decrypted. -/
structure Opened where
  keys : Except StoreError (List KeyEntry)
  recover : Bytes → String → Except String Bytes

/-- Told apart by content.  A PKCS#12 file is read together with a request, if there is one. -/
def openStore (P : Pkcs12.Prims) (H : Sha1) (bytes : Bytes) (storePassword : String)
    (request : Option Pkcs12.KeyRequest) (sched : Nat → Nat × Unit) : Option Opened :=
  match detect bytes with
  | .pkcs12 => (Pkcs12.parse P bytes storePassword request sched).map fun r =>
    ⟨(r.map Pkcs12.keys).mapError .pkcs12, Pkcs12.recoverKey P⟩
  | _ => some ⟨((Jks.parse H bytes storePassword).map Jks.keys).mapError .jks, Jks.recoverKey H⟩

/-- The entry for an alias, or the only one. -/
def selectEntry (lower : String → String) (alias_ : Option String) (keys : List KeyEntry) :
    Except LoadError KeyEntry :=
  let available := keys.map KeyEntry.alias_
  match alias_ with
  | some a => okOr (keys.find? fun k => k.alias_ = lower a) (.aliasNotFound a available)
  | none =>
    match keys with
    | [k] => .ok k
    | [] => .error .noKeys
    | _ => .error (.manyKeys keys.length available)

variable {Signer : Type}

/-- From the selected entry to the signer; `fromMaterial` is `Signer::from_material` with one
candidate for the key. -/
def signerOf (fromMaterial : (pkcs8 : Bytes) → (certs : List Bytes) → Except String Signer)
    (entry : KeyEntry) (pkcs8 : Except String Bytes) : Except LoadError Signer := do
  let pkcs8 ← pkcs8.mapError (.entry entry.alias_)
  if entry.chain = [] then throw (.noChain entry.alias_)
  (fromMaterial pkcs8 entry.chain).mapError (.entry entry.alias_)

def loadFrom (lower : String → String) (alias_ : Option String)
    (fromMaterial : (pkcs8 : Bytes) → (certs : List Bytes) → Except String Signer)
    (pkcs8 : KeyEntry → Except String Bytes) (keys : Except StoreError (List KeyEntry)) :
    Except LoadError Signer := do
  let keys ← keys.mapError .store
  let entry ← selectEntry lower alias_ keys
  signerOf fromMaterial entry (pkcs8 entry)

/-- `Signer::load_keystore`; `file` is what reading the store gives. -/
def loadKeystore (P : Pkcs12.Prims) (H : Sha1)
    (fromMaterial : (pkcs8 : Bytes) → (certs : List Bytes) → Except String Signer)
    (file : Except IoError Bytes) (storePassword : String) (alias_ : Option String)
    (keyPassword : String) (sched : Nat → Nat × Unit) : Option (Except LoadError Signer) :=
  match file with
  | .error e => some (.error (.read e))
  | .ok bytes =>
    (openStore P H bytes storePassword (some ⟨alias_, keyPassword⟩) sched).map fun s =>
      let pkcs8 (entry : KeyEntry) : Except String Bytes :=
        match entry.recovered with
        | some r => r
        | none => s.recover entry.protectedKey keyPassword
      loadFrom P.toLowercase alias_ fromMaterial pkcs8 s.keys

/-- The reader that decrypts nothing before an entry is selected. -/
def lazyKeystore (P : Pkcs12.Prims) (H : Sha1)
    (fromMaterial : (pkcs8 : Bytes) → (certs : List Bytes) → Except String Signer)
    (file : Except IoError Bytes) (storePassword : String) (alias_ : Option String)
    (keyPassword : String) (sched : Nat → Nat × Unit) : Option (Except LoadError Signer) :=
  match file with
  | .error e => some (.error (.read e))
  | .ok bytes => (openStore P H bytes storePassword none sched).map fun s =>
    loadFrom P.toLowercase alias_ fromMaterial
      (fun entry => s.recover entry.protectedKey keyPassword) s.keys

/-! ### Entries with and without recovered keys -/

/-- The entry with the first result for its blob. -/
def KeyEntry.attach (recovered : List (Bytes × Except String Bytes)) (e : KeyEntry) : KeyEntry :=
  { e with recovered := (recovered.find? fun d => d.1 = e.protectedKey).map Prod.snd }

def KeyEntry.stored (e : KeyEntry) : String × Bytes × List Bytes :=
  (e.alias_, e.protectedKey, e.chain)

namespace Pkcs12

/-- **The recovered keys are only attached**: without them the entries are the same. -/
theorem keyEntries_eq (P : Prims) (bags : Bags) (recovered : List (Bytes × Except String Bytes)) :
    ∀ (ks : List KeyBag) (unnamed : Nat),
      keyEntries P bags recovered unnamed ks
        = (keyEntries P bags [] unnamed ks).map (List.map (KeyEntry.attach recovered)) := by
  intro ks
  induction ks with
  | nil => exact fun _ => rfl
  | cons k ks ih =>
    intro unnamed
    simp only [keyEntries]
    cases chainOf bags k with
    | error e => rfl
    | ok chain =>
      simp only [ok_bind, ih]
      cases keyEntries P bags [] (match k.name with
        | some n => (P.toLowercase n, unnamed)
        | none => (toString (unnamed + 1), unnamed + 1)).2 ks with
      | error e => rfl
      | ok rest => rfl

theorem assemble_eq (P : Prims) (d : Derived) :
    assemble P d = (assemble P { d with recovered := [] }).map fun s =>
      ⟨s.keys.map (KeyEntry.attach d.recovered)⟩ := by
  simp only [assemble]
  cases collect d.parts d.decrypted .empty with
  | error e => rfl
  | ok bags =>
    simp only [ok_bind]
    rw [keyEntries_eq]
    cases keyEntries P bags [] 0 bags.keys with
    | error e => rfl
    | ok keys => rfl

/-- **A request only attaches keys**, each of them decrypted from the blob it is attached to. -/
theorem parse_request (P : Prims) (bytes : Bytes) (password : String) (key : Option KeyRequest)
    (sched sched' : Nat → Nat × Unit) :
    ∃ r recovered, parse P bytes password none sched' = some r ∧
      parse P bytes password key sched
        = some (r.map fun s => ⟨s.keys.map (KeyEntry.attach recovered)⟩) ∧
      ∀ d ∈ recovered, ∃ k, key = some k ∧ d.2 = recoverKey P d.1 k.password := by
  rw [parse_eq, parse_eq]
  have herror (m : String) : ∃ r recovered, some (Except.error m : Except String Pkcs12) = some r ∧
      some (Except.error m : Except String Pkcs12)
        = some (r.map fun s => ⟨s.keys.map (KeyEntry.attach recovered)⟩) ∧
      ∀ d ∈ recovered, ∃ k, key = some k ∧ d.2 = recoverKey P d.1 k.password :=
    ⟨.error m, [], rfl, rfl, fun d hd => (by cases hd)⟩
  -- everything up to the parts does not depend on the request
  cases outer bytes with
  | error m => exact herror m
  | ok x =>
    obtain ⟨authSafe, mac⟩ := x
    simp only [ok_bind, derivedSeq]
    cases macVerdict P authSafe mac password with
    | error m => exact herror m
    | ok _ =>
      cases safeContents authSafe with
      | error m => exact herror m
      | ok parts =>
        exact ⟨_, ((wanted P key parts).map KeyBag.der).zip (recoveries P key parts), rfl,
          congrArg some (assemble_eq P _), fun _ => mem_recovered⟩

end Pkcs12

/-! ### The selected entry -/

theorem selectEntry_map (lower : String → String) (alias_ : Option String)
    (recovered : List (Bytes × Except String Bytes)) (keys : List KeyEntry) :
    selectEntry lower alias_ (keys.map (KeyEntry.attach recovered))
      = (selectEntry lower alias_ keys).map (KeyEntry.attach recovered) := by
  have hnames : (keys.map (KeyEntry.attach recovered)).map KeyEntry.alias_
      = keys.map KeyEntry.alias_ := by
    rw [List.map_map]
    rfl
  cases alias_ with
  | some a =>
    have hfind : (keys.map (KeyEntry.attach recovered)).find? (fun k => k.alias_ = lower a)
        = (keys.find? fun k => k.alias_ = lower a).map (KeyEntry.attach recovered) :=
      List.find?_map
    simp only [selectEntry, hnames, hfind]
    cases keys.find? fun k => k.alias_ = lower a with
    | none => rfl
    | some k => rfl
  | none =>
    match keys with
    | [] => rfl
    | [k] => rfl
    | k :: l :: ks =>
      show Except.error (LoadError.manyKeys _ (((k :: l :: ks).map (KeyEntry.attach recovered)).map
        KeyEntry.alias_)) = Except.error (LoadError.manyKeys _ ((k :: l :: ks).map KeyEntry.alias_))
      rw [hnames, List.length_map]

theorem recovered_attach {P : Pkcs12.Prims} {key : Option Pkcs12.KeyRequest}
    {recovered : List (Bytes × Except String Bytes)}
    (h : ∀ d ∈ recovered, ∃ k, key = some k ∧ d.2 = Pkcs12.recoverKey P d.1 k.password)
    {e : KeyEntry} {r : Except String Bytes} (hr : (e.attach recovered).recovered = some r) :
    ∃ k, key = some k ∧ r = Pkcs12.recoverKey P e.protectedKey k.password := by
  rw [KeyEntry.attach, Option.map_eq_some_iff] at hr
  obtain ⟨d, hd, rfl⟩ := hr
  have hblob := List.find?_some hd
  rw [decide_eq_true_iff] at hblob
  rw [← hblob]
  exact h d (List.mem_of_find?_eq_some hd)

theorem recover_attach {P : Pkcs12.Prims} {alias_ : Option String} {keyPassword : String}
    {recovered : List (Bytes × Except String Bytes)}
    (h : ∀ d ∈ recovered, ∃ k, some (⟨alias_, keyPassword⟩ : Pkcs12.KeyRequest) = some k ∧
      d.2 = Pkcs12.recoverKey P d.1 k.password) (e : KeyEntry) :
    (match (e.attach recovered).recovered with
      | some r => r
      | none => Pkcs12.recoverKey P e.protectedKey keyPassword)
      = Pkcs12.recoverKey P e.protectedKey keyPassword := by
  cases hr : (e.attach recovered).recovered with
  | none => rfl
  | some r =>
    obtain ⟨k, hk, hr⟩ := recovered_attach h hr
    rw [← Option.some.inj hk] at hr
    exact hr

theorem recovered_of_jks {H : Sha1} {bytes : Bytes} {password : String} {s : Jks}
    (h : Jks.parse H bytes password = .ok s) : ∀ e ∈ s.keys, e.recovered = none := by
  obtain ⟨version, store, trailing, -, -, -, -, rfl⟩ := Jks.parse_eq_ok_iff.mp h
  intro e he
  rw [Jks.ofStore_eq] at he
  obtain ⟨x, -, hx⟩ := List.mem_filterMap.mp he
  cases x with
  | key alias_ date protectedKey chain =>
    rw [← Option.some.inj hx]
  | trusted alias_ date type cert => cases hx

theorem mem_of_selectEntry {lower : String → String} {alias_ : Option String}
    {keys : List KeyEntry} {e : KeyEntry} (h : selectEntry lower alias_ keys = .ok e) : e ∈ keys := by
  cases alias_ with
  | some a => exact List.mem_of_find?_eq_some (okOr_eq_ok.mp h)
  | none =>
    match keys, h with
    | [k], h =>
      rw [← Except.ok.inj h]
      exact List.mem_singleton.mpr rfl
    | [], h => cases h
    | _ :: _ :: _, h => cases h

section LoadFrom

variable {lower : String → String} {alias_ : Option String}
  {fromMaterial : (pkcs8 : Bytes) → (certs : List Bytes) → Except String Signer}

theorem loadFrom_congr {f g : KeyEntry → Except String Bytes} {keys : List KeyEntry}
    (h : ∀ e ∈ keys, f e = g e) :
    loadFrom lower alias_ fromMaterial f (.ok keys) = loadFrom lower alias_ fromMaterial g (.ok keys) := by
  simp only [loadFrom, mapError_ok, ok_bind]
  cases hs : selectEntry lower alias_ keys with
  | error e => rfl
  | ok entry => rw [ok_bind, ok_bind, h entry (mem_of_selectEntry hs)]

theorem loadFrom_attach (f : KeyEntry → Except String Bytes)
    (recovered : List (Bytes × Except String Bytes)) (keys : List KeyEntry) :
    loadFrom lower alias_ fromMaterial f (.ok (keys.map (KeyEntry.attach recovered)))
      = loadFrom lower alias_ fromMaterial (fun e => f (e.attach recovered)) (.ok keys) := by
  simp only [loadFrom, mapError_ok, ok_bind, selectEntry_map]
  cases selectEntry lower alias_ keys with
  | error e => rfl
  | ok entry => rfl

end LoadFrom

theorem loadKeystore_bytes (P : Pkcs12.Prims) (H : Sha1)
    (fromMaterial : (pkcs8 : Bytes) → (certs : List Bytes) → Except String Signer) (bytes : Bytes)
    (storePassword : String) (alias_ : Option String) (keyPassword : String)
    (sched sched' : Nat → Nat × Unit) :
    loadKeystore P H fromMaterial (.ok bytes) storePassword alias_ keyPassword sched
      = lazyKeystore P H fromMaterial (.ok bytes) storePassword alias_ keyPassword sched' := by
  have hjks (hdet : detect bytes ≠ .pkcs12) (request : Option Pkcs12.KeyRequest)
      (sched : Nat → Nat × Unit) : openStore P H bytes storePassword request sched
        = some ⟨((Jks.parse H bytes storePassword).map Jks.keys).mapError .jks,
            Jks.recoverKey H⟩ := by
    rw [openStore]
    split
    · contradiction
    · rfl
  simp only [loadKeystore, lazyKeystore]
  by_cases hdet : detect bytes = .pkcs12
  · obtain ⟨r, recovered, hnone, hsome, hkeys⟩ :=
      Pkcs12.parse_request P bytes storePassword (some ⟨alias_, keyPassword⟩) sched sched'
    simp only [openStore, hdet, hnone, hsome, Option.map_some, Option.some.injEq]
    cases r with
    | error m => rfl
    | ok s =>
      refine (loadFrom_attach _ recovered s.keys).trans (loadFrom_congr ?_)
      intro e _
      exact recover_attach hkeys e
  · simp only [hjks hdet, Option.map_some, Option.some.injEq]
    cases hparse : Jks.parse H bytes storePassword with
    | error m => rfl
    | ok s =>
      refine loadFrom_congr ?_
      intro e he
      rw [recovered_of_jks hparse e he]

/-- **Decrypting keys early never changes what is loaded.**  With a request and without one,
`parse` gives the same error or the same entries, and a recovered key is the one of its entry;
so the loader agrees with the reader that decrypts the selected key only. -/
theorem loadKeystore_eq_lazy (P : Pkcs12.Prims) (H : Sha1)
    (fromMaterial : (pkcs8 : Bytes) → (certs : List Bytes) → Except String Signer) :
    (∀ (bytes : Bytes) (storePassword : String) (key : Pkcs12.KeyRequest)
        (sched sched' : Nat → Nat × Unit), ∃ r r',
      Pkcs12.parse P bytes storePassword (some key) sched = some r ∧
      Pkcs12.parse P bytes storePassword none sched' = some r' ∧
      r.map (fun s => s.keys.map KeyEntry.stored) = r'.map (fun s => s.keys.map KeyEntry.stored) ∧
      ∀ s, r = .ok s → ∀ e ∈ s.keys, ∀ x, e.recovered = some x →
        x = Pkcs12.recoverKey P e.protectedKey key.password) ∧
    ∀ (file : Except IoError Bytes) (storePassword : String) (alias_ : Option String)
      (keyPassword : String) (sched sched' : Nat → Nat × Unit),
      loadKeystore P H fromMaterial file storePassword alias_ keyPassword sched
        = lazyKeystore P H fromMaterial file storePassword alias_ keyPassword sched' := by
  refine ⟨?_, ?_⟩
  · intro bytes storePassword key sched sched'
    obtain ⟨r, recovered, hnone, hsome, hkeys⟩ :=
      Pkcs12.parse_request P bytes storePassword (some key) sched sched'
    refine ⟨_, r, hsome, hnone, ?_, ?_⟩
    · cases r with
      | error m => rfl
      | ok s =>
        show Except.ok ((s.keys.map (KeyEntry.attach recovered)).map KeyEntry.stored) = _
        rw [List.map_map]
        rfl
    · intro s hs e he x hx
      cases r with
      | error m => cases hs
      | ok s' =>
        rw [← Except.ok.inj hs] at he
        obtain ⟨e', -, rfl⟩ := List.mem_map.mp he
        obtain ⟨k, hk, hx⟩ := recovered_attach hkeys hx
        rw [Option.some.inj hk]
        exact hx
  · intro file storePassword alias_ keyPassword sched sched'
    cases file with
    | error e => rfl
    | ok bytes => exact loadKeystore_bytes P H fromMaterial bytes storePassword alias_ keyPassword _ _

def plainKey : Bytes := [0x30, 0x03, 0x02, 0x01, 0x00]

/-- A PFX without a MAC that holds one key in the clear. -/
def plainPfx : Bytes :=
  der 0x30 (der 0x02 [3] ++ der 0x30 (der 0x06 Pkcs12.oidData ++ der 0xa0 (der 0x04
    (der 0x30 (der 0x30 (der 0x06 Pkcs12.oidData ++ der 0xa0 (der 0x04
      (der 0x30 (der 0x30 (der 0x06 (Pkcs12.oidBagPre ++ [1]) ++ der 0xa0 plainKey))))))))))

example (P : Pkcs12.Prims) (sched : Nat → Nat × Unit) :
    Pkcs12.parse P plainPfx "" (some ⟨none, ""⟩) sched
      = some (.ok ⟨[⟨"1", plainKey, [], some (.ok plainKey)⟩]⟩) := by
  rw [Pkcs12.parse_eq]
  rfl

end FastSigner.Keys

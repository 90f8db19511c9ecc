import Mathlib.Data.List.ReduceOption
import FastSigner.Lib.Scope
import FastSigner.Keys.Pkcs12

/-!
# Reading a PKCS#12 file

`parse` checks the MAC, decrypts the containers and the requested keys on
threads of their own, while the AuthenticatedSafe is walked before anything is
authenticated.  Its verdict still is the one of a reader that does one thing
after the other.

* `parse_eq`: whatever the schedule, the result is that of `parseSeq`, where the
  MAC comes first.
* `collect_eq_ok_iff`: the results of the containers go back to their places; the
  bags are those that `sequentialRead` collects.
-/

namespace FastSigner.Keys.Pkcs12

open Lib

/-- The key a caller is going to ask for. -/
structure KeyRequest where
  alias_ : Option String
  password : String
  deriving DecidableEq, Repr

/-- What a ContentInfo of the AuthenticatedSafe holds. -/
inductive Content
  | clear (b : Bytes)
  | encrypted (alg : Tlv) (data : Bytes)
  deriving DecidableEq, Repr

/-- One ContentInfo; there may be no content. -/
def safeContent (ci : Tlv) : Except String (Option Content) := do
  let (oid, content) ← contentInfo ci
  if oid = oidData then
    let t ← expectTag content (content.tag &&& 0x20 ||| 0x04) "data"
    let b ← octets t
    pure (some (.clear b))
  else if oid = oidEncryptedData then
    let ed ← children (← expectTag content 0x30 "EncryptedData").body
    let eci ← children (← child ed 1 0x30 "EncryptedContentInfo").body
    let alg ← child eci 1 0x30 "EncryptedContentInfo"
    match eci[2]? with
    | none => pure none
    | some enc =>
      if enc.tag &&& ~~~0x20 ≠ 0x80 then throw "malformed PKCS#12 EncryptedContentInfo"
      let data ← octets enc
      pure (some (.encrypted alg data))
  else throw "PKCS#12 public-key privacy mode (envelopedData) is not supported"

/-- SafeContents in the clear, or still encrypted. -/
inductive Part
  | plain (bags : Bags)
  | encrypted (alg : Tlv) (data : Bytes)
  deriving DecidableEq, Repr

/-- The loop body of `safe_contents`. -/
def safePart (ci : Tlv) : Except String (Option Part) := do
  match ← safeContent ci with
  | none => pure none
  | some (.clear b) =>
    let bags ← safeContentsBags b .empty
    pure (some (.plain bags))
  | some (.encrypted alg data) => pure (some (.encrypted alg data))

/-- The ContentInfos of the AuthenticatedSafe. -/
def contentInfos (authSafe : Bytes) : Except String (List Tlv) := do
  let t ← one authSafe 0x30 "AuthenticatedSafe"
  children t.body

/-- Walk the AuthenticatedSafe without deriving any key. -/
def safeContents (authSafe : Bytes) : Except String (List Part) := do
  let cis ← contentInfos authSafe
  let parts ← cis.mapM safePart
  pure parts.reduceOption

/-- The outer PFX: the AuthenticatedSafe and the MAC. -/
def outer (bytes : Bytes) : Except String (Bytes × Option Tlv) := do
  let pfx ← one bytes 0x30 "PFX"
  if pfx.raw.length ≠ bytes.length then throw "malformed PKCS#12: trailing data after the PFX"
  let f ← children pfx.body
  let version ← uint (← child f 0 0x02 "PFX version") "PFX version"
  if version ≠ 3 then throw "unsupported PKCS#12 version"
  let (oid, content) ← contentInfo (← child f 1 0x30 "authSafe")
  if oid ≠ oidData then
    throw "PKCS#12 files with public-key integrity (signed authSafe) are not supported"
  let authSafe ← octets (← expectTag content (content.tag &&& 0x20 ||| 0x04) "authSafe")
  match f[2]? with
  | none => pure (authSafe, none)
  | some m =>
    let mac ← expectTag m 0x30 "MacData"
    pure (authSafe, some mac)

/-! ### The threads -/

/-- What a thread computes. -/
inductive Job
  | mac
  | container
  | key
  deriving DecidableEq, Repr

abbrev Job.Result : Job → Type
  | .mac => Except String Unit
  | .container => Except String (Option Bytes)
  | .key => Except String Bytes

structure Derived where
  parts : List Part
  decrypted : List (Except String (Option Bytes))
  recovered : List (Bytes × Except String Bytes)

def Part.ciphertext? : Part → Option (Tlv × Bytes)
  | .plain _ => none
  | .encrypted alg data => some (alg, data)

def Part.keys : Part → List KeyBag
  | .plain bags => bags.keys
  | .encrypted _ _ => []

def decryptions (P : Prims) (password : String) (parts : List Part) :
    List (Except String (Option Bytes)) :=
  (parts.filterMap Part.ciphertext?).map fun c => pbes2Decrypt P c.1 c.2 password

/-- The plaintext bags of the keys that the request can select. -/
def wanted (P : Prims) (key : Option KeyRequest) (parts : List Part) : List KeyBag :=
  match key with
  | none => []
  | some k => (parts.flatMap Part.keys).filter fun kb =>
    match k.alias_ with
    | none => true
    | some a => kb.name.any fun n => P.toLowercase n = P.toLowercase a

def recoveries (P : Prims) (key : Option KeyRequest) (parts : List Part) :
    List (Except String Bytes) :=
  match key with
  | none => []
  | some k => (wanted P key parts).map fun kb => recoverKey P kb.der k.password

def spawnMac {ρ : Type} (mac : Option (Except String Unit))
    (next : Option Nat → Prog Job.Result ρ) : Prog Job.Result ρ :=
  match mac with
  | none => next none
  | some v => .spawn Job.mac v fun h => next (some h)

/-- The closure `mac_ok`. -/
def joinMac {ρ : Type} (h : Option Nat) (next : Except String Unit → Prog Job.Result ρ) :
    Prog Job.Result ρ :=
  match h with
  | none => next (.ok ())
  | some h => .join Job.mac h next

/-- What the scopes of `parse` do once the MAC thread is started: walk the AuthenticatedSafe, start
a thread for every container and every requested key, and wait for all of them. -/
def afterMac (P : Prims) (authSafe : Bytes) (password : String) (key : Option KeyRequest)
    (mac : Option Nat) : Prog Job.Result (Except String Derived) :=
  match safeContents authSafe with
  | .error e => joinMac mac fun verdict => .ret (verdict >>= fun _ => .error e)
  | .ok parts =>
    .spawnAll Job.container (decryptions P password parts) fun containers =>
      .spawnAll Job.key (recoveries P key parts) fun keys =>
        .joinAll Job.container containers fun decrypted =>
          .joinAll Job.key keys fun recovered =>
            joinMac mac fun verdict => .ret (verdict >>= fun _ =>
              .ok ⟨parts, decrypted, ((wanted P key parts).map KeyBag.der).zip recovered⟩)

/-- The two nested scopes of `parse`. -/
def derivations (P : Prims) (authSafe : Bytes) (mac : Option Tlv) (password : String)
    (key : Option KeyRequest) : Prog Job.Result (Except String Derived) :=
  spawnMac (mac.map fun m => verifyMac P m authSafe password)
    (afterMac P authSafe password key)

/-- The bags in document order; every encrypted part takes the next result. -/
def collect : List Part → List (Except String (Option Bytes)) → Bags → Except String Bags
  | [], _, bags => pure bags
  | .plain more :: parts, decrypted, bags => collect parts decrypted (bags.append more)
  | .encrypted _ _ :: parts, d :: decrypted, bags => do
    let text ← okOr (← d) "cannot decrypt the keystore's certificates: wrong keystore password?"
    let more ← safeContentsBags text .empty
    collect parts decrypted (bags.append more)
  -- the panic "one result per container"
  | .encrypted _ _ :: _, [], _ => .error "one result per container"

/-- The end of `parse`, after the threads. -/
def assemble (P : Prims) (d : Derived) : Except String Pkcs12 := do
  let bags ← collect d.parts d.decrypted .empty
  let keys ← keyEntries P bags d.recovered 0 bags.keys
  pure ⟨keys⟩

/-- `pkcs12::parse` under a schedule of its threads. -/
def parse (P : Prims) (bytes : Bytes) (password : String) (key : Option KeyRequest)
    (sched : Nat → Nat × Unit) : Option (Except String Pkcs12) :=
  match outer bytes with
  | .error e => some (.error e)
  | .ok (authSafe, mac) =>
    ((derivations P authSafe mac password key).result sched).map fun r => r >>= assemble P

/-! ### One after the other -/

/-- The MAC's verdict; a file without a MAC passes. -/
def macVerdict (P : Prims) (authSafe : Bytes) (mac : Option Tlv) (password : String) :
    Except String Unit :=
  match mac with
  | none => .ok ()
  | some m => verifyMac P m authSafe password

/-- The threads' work without threads, the MAC first. -/
def derivedSeq (P : Prims) (authSafe : Bytes) (mac : Option Tlv) (password : String)
    (key : Option KeyRequest) : Except String Derived := do
  macVerdict P authSafe mac password
  let parts ← safeContents authSafe
  pure ⟨parts, decryptions P password parts,
    ((wanted P key parts).map KeyBag.der).zip (recoveries P key parts)⟩

/-- One ContentInfo of the sequential reader: decrypt it if need be, and add its bags. -/
def readContent (P : Prims) (password : String) (bags : Bags) (ci : Tlv) : Except String Bags := do
  match ← safeContent ci with
  | none => pure bags
  | some (.clear b) => safeContentsBags b bags
  | some (.encrypted alg data) =>
    let text ← okOr (← pbes2Decrypt P alg data password)
      "cannot decrypt the keystore's certificates: wrong keystore password?"
    safeContentsBags text bags

/-- The sequential reader: verify the MAC, then read the AuthenticatedSafe in order. -/
def sequentialRead (P : Prims) (mac : Tlv) (authSafe : Bytes) (password : String) :
    Except String Bags := do
  verifyMac P mac authSafe password
  let cis ← contentInfos authSafe
  cis.foldlM (readContent P password) .empty

/-! ### The threads agree with the sequential order -/

/-- The handle of the MAC thread leads to its verdict. -/
def MacHandle (verdict : Except String Unit) (vals : List (Sigma Job.Result)) : Option Nat → Prop
  | none => verdict = .ok ()
  | some h => Prog.find Job.mac h vals = some verdict

theorem eval_joinMac {ρ : Type} {vals : List (Sigma Job.Result)} {h : Option Nat}
    {verdict : Except String Unit} (next : Except String Unit → Prog Job.Result ρ)
    (hv : MacHandle verdict vals h) : (joinMac h next).eval vals = (next verdict).eval vals := by
  cases h with
  | none =>
    have hv : verdict = .ok () := hv
    rw [joinMac, hv]
  | some h =>
    have hv : Prog.find Job.mac h vals = some verdict := hv
    simp only [joinMac, Prog.eval, hv]

theorem eval_afterMac (P : Prims) (authSafe : Bytes) (password : String) (key : Option KeyRequest)
    (vals : List (Sigma Job.Result)) (mac : Option Nat) (verdict : Except String Unit)
    (hv : ∀ more, MacHandle verdict (vals ++ more) mac) :
    (afterMac P authSafe password key mac).eval vals = some (verdict >>= fun _ => do
      let parts ← safeContents authSafe
      pure ⟨parts, decryptions P password parts,
        ((wanted P key parts).map KeyBag.der).zip (recoveries P key parts)⟩) := by
  rw [afterMac]
  cases hs : safeContents authSafe with
  | error e =>
    have hmac := hv []
    rw [List.append_nil] at hmac
    simp only
    rw [eval_joinMac _ hmac]
    rfl
  | ok parts =>
    have hdec := Prog.map_find_range' Job.container (decryptions P password parts) vals
      ((recoveries P key parts).map (Sigma.mk Job.key))
    have hrec := Prog.map_find_range' Job.key (recoveries P key parts)
      (vals ++ (decryptions P password parts).map (Sigma.mk Job.container)) []
    rw [List.append_nil] at hrec
    have hmac := hv ((decryptions P password parts).map (Sigma.mk Job.container)
      ++ (recoveries P key parts).map (Sigma.mk Job.key))
    rw [← List.append_assoc] at hmac
    simp only
    rw [Prog.eval_spawnAll, Prog.eval_spawnAll, Prog.eval_joinAll _ _ _ _ _ hdec,
      Prog.eval_joinAll _ _ _ _ _ hrec, eval_joinMac _ hmac]
    rfl

theorem eval_derivations (P : Prims) (authSafe : Bytes) (mac : Option Tlv) (password : String)
    (key : Option KeyRequest) :
    (derivations P authSafe mac password key).eval []
      = some (derivedSeq P authSafe mac password key) := by
  cases mac with
  | none => exact eval_afterMac P authSafe password key [] none (.ok ()) (fun _ => rfl)
  | some m =>
    exact eval_afterMac P authSafe password key [⟨Job.mac, verifyMac P m authSafe password⟩] (some 0)
      (verifyMac P m authSafe password) (fun _ => rfl)

/-- **No schedule changes the result.** -/
theorem parse_eq (P : Prims) (bytes : Bytes) (password : String) (key : Option KeyRequest)
    (sched : Nat → Nat × Unit) :
    parse P bytes password key sched = some (do
      let (authSafe, mac) ← outer bytes
      let d ← derivedSeq P authSafe mac password key
      assemble P d) := by
  rw [parse]
  cases h : outer bytes with
  | error e => rfl
  | ok a =>
    obtain ⟨authSafe, mac⟩ := a
    simp only
    rw [Prog.result_of_eval (eval_derivations P authSafe mac password key)]
    rfl

/-! ### Bags are collected by appending -/

theorem Bags.append_assoc (a b c : Bags) : (a.append b).append c = a.append (b.append c) := by
  simp only [Bags.append, List.append_assoc]

@[simp] theorem Bags.append_empty (a : Bags) : a.append .empty = a := by
  simp only [Bags.append, Bags.empty, List.append_nil]

/-- The function adds bags at the end, whatever is there already. -/
def Appends (f : Bags → Except String Bags) : Prop :=
  ∀ acc x : Bags, f (acc.append x) = (f x).map acc.append

theorem appends_pure : Appends pure := fun _ _ => rfl

theorem appends_key (k : KeyBag) : Appends fun b => pure { b with keys := b.keys ++ [k] } := by
  intro acc x
  simp only [Bags.append, List.append_assoc]
  rfl

theorem appends_cert (c : CertBag) : Appends fun b => pure { b with certs := b.certs ++ [c] } := by
  intro acc x
  simp only [Bags.append, List.append_assoc]
  rfl

theorem Appends.bind {α : Type} (m : Except String α) {g : α → Bags → Except String Bags}
    (h : ∀ a, Appends (g a)) : Appends fun b => m >>= fun a => g a b := by
  cases m with
  | error e => exact fun _ _ => rfl
  | ok a => exact h a

theorem Appends.foldlM {α : Type} {f : Bags → α → Except String Bags}
    (hf : ∀ a, Appends fun b => f b a) (l : List α) : Appends fun b => l.foldlM f b := by
  induction l with
  | nil => exact appends_pure
  | cons a l ih =>
    intro acc x
    have hstep : f (acc.append x) a = (f x a).map acc.append := hf a acc x
    simp only [List.foldlM_cons]
    rw [hstep]
    cases f x a with
    | error e => rfl
    | ok y => exact ih acc y

theorem appends_certBag (value : Tlv) (localId : Option Bytes) :
    Appends (certBag value localId) := by
  refine Appends.bind _ fun t => Appends.bind _ fun c => Appends.bind _ fun oid => ?_
  split
  · exact appends_pure
  · refine Appends.bind _ fun content => Appends.bind _ fun v => Appends.bind _ fun der => ?_
    exact appends_cert _

theorem appends_safeBag {nested : Bytes → Bags → Except String Bags}
    (hn : ∀ b, Appends (nested b)) (bag : Tlv) : Appends fun b => safeBag nested b bag := by
  refine Appends.bind _ fun t => Appends.bind _ fun f => Appends.bind _ fun oid => ?_
  refine Appends.bind _ fun content => Appends.bind _ fun v => Appends.bind _ fun attrs => ?_
  cases oidLast oidBagPre oid.body with
  | none => exact appends_pure
  | some n =>
    simp only
    split
    · exact Appends.bind _ fun key => appends_key _
    · split
      · exact appends_certBag _ _
      · split
        · exact hn _
        · exact appends_pure

theorem appends_parseSafeContents :
    ∀ (room : Nat) (b : Bytes), Appends (parseSafeContents room b) := by
  intro room
  induction room with
  | zero => exact fun b acc x => rfl
  | succ room ih =>
    intro b
    refine Appends.bind _ fun t => Appends.bind _ fun bs => ?_
    exact Appends.foldlM (appends_safeBag ih) bs

theorem safeContentsBags_eq (b : Bytes) (bags : Bags) :
    safeContentsBags b bags = (safeContentsBags b .empty).map bags.append := by
  have h := appends_parseSafeContents (maxNesting + 1) b bags .empty
  rwa [Bags.append_empty] at h

/-! ### Document order -/

def Part.bags (P : Prims) (password : String) : Part → Except String Bags
  | .plain bags => pure bags
  | .encrypted alg data => do
    let text ← okOr (← pbes2Decrypt P alg data password)
      "cannot decrypt the keystore's certificates: wrong keystore password?"
    safeContentsBags text .empty

theorem collect_cons (P : Prims) (password : String) (part : Part) (parts : List Part)
    (bags : Bags) :
    collect (part :: parts) (decryptions P password (part :: parts)) bags
      = part.bags P password >>= fun more =>
        collect parts (decryptions P password parts) (bags.append more) := by
  cases part with
  | plain more => rfl
  | encrypted alg data =>
    have hd : decryptions P password (.encrypted alg data :: parts)
        = pbes2Decrypt P alg data password :: decryptions P password parts := rfl
    rw [hd, collect, Part.bags]
    simp only [bind_assoc]

/-- What the sequential reader adds for a ContentInfo. -/
def added (P : Prims) (password : String) : Option Part → Except String Bags
  | none => pure .empty
  | some part => part.bags P password

theorem readContent_eq_ok_iff (P : Prims) (password : String) (bags r : Bags) (ci : Tlv) :
    readContent P password bags ci = .ok r ↔
      ∃ part more, safePart ci = .ok part ∧ added P password part = .ok more ∧
        r = bags.append more := by
  have hmap : ∀ {x : Except String Bags}, x.map bags.append = .ok r ↔
      ∃ more, x = .ok more ∧ r = bags.append more := by
    intro x
    cases x with
    | error e => simp [Except.map]
    | ok more => simp [Except.map, eq_comm]
  rw [readContent, safePart]
  cases safeContent ci with
  | error e => simp
  | ok content =>
    simp only [ok_bind]
    match content with
    | none =>
      constructor
      · intro h
        exact ⟨none, .empty, rfl, rfl, by rw [Bags.append_empty]; exact (Except.ok.inj h).symm⟩
      · rintro ⟨part, more, hp, ha, rfl⟩
        rw [← Except.ok.inj hp] at ha
        rw [← Except.ok.inj ha, Bags.append_empty]
        rfl
    | some (.clear b) =>
      simp only
      rw [safeContentsBags_eq, hmap]
      simp only [bind_eq_ok]
      constructor
      · rintro ⟨more, hb, rfl⟩
        exact ⟨some (.plain more), more, ⟨more, hb, rfl⟩, rfl, rfl⟩
      · rintro ⟨part, more, ⟨more', hb, hp⟩, ha, rfl⟩
        rw [← Except.ok.inj hp] at ha
        exact ⟨more, by rw [hb, ← Except.ok.inj ha], rfl⟩
    | some (.encrypted alg data) =>
      simp only [bind_eq_ok]
      constructor
      · rintro ⟨t, ht, text, htext, h⟩
        rw [safeContentsBags_eq, hmap] at h
        obtain ⟨more, hm, rfl⟩ := h
        exact ⟨_, more, rfl, bind_eq_ok.mpr ⟨t, ht, bind_eq_ok.mpr ⟨text, htext, hm⟩⟩, rfl⟩
      · rintro ⟨part, more, hp, ha, rfl⟩
        rw [← Except.ok.inj hp] at ha
        obtain ⟨t, ht, ha⟩ := bind_eq_ok.mp ha
        obtain ⟨text, htext, hm⟩ := bind_eq_ok.mp ha
        exact ⟨t, ht, text, htext, by rw [safeContentsBags_eq, hmap]; exact ⟨more, hm, rfl⟩⟩

/-- **The bags of the parts are those of the sequential reader.**  The results of the containers
are taken in order, one for each encrypted part. -/
theorem collect_eq_ok_iff (P : Prims) (password : String) {r : Bags} :
    ∀ (cis : List Tlv) (bags : Bags),
      (∃ parts, cis.mapM safePart = .ok parts ∧
        collect parts.reduceOption (decryptions P password parts.reduceOption) bags = .ok r) ↔
      cis.foldlM (readContent P password) bags = .ok r := by
  intro cis
  induction cis with
  | nil =>
    intro bags
    rw [List.foldlM_nil]
    constructor
    · rintro ⟨parts, hparts, h⟩
      rw [← Except.ok.inj hparts] at h
      exact h
    · intro h
      exact ⟨[], rfl, h⟩
  | cons ci cis ih =>
    intro bags
    rw [List.foldlM_cons, bind_eq_ok]
    simp only [mapM_cons_eq_ok, readContent_eq_ok_iff]
    constructor
    · rintro ⟨_, ⟨part, parts, hpart, hparts, rfl⟩, h⟩
      cases part with
      | none =>
        refine ⟨bags, ⟨none, .empty, hpart, rfl, (Bags.append_empty bags).symm⟩, ?_⟩
        exact (ih bags).mp ⟨parts, hparts, h⟩
      | some part =>
        rw [List.reduceOption_cons_of_some, collect_cons, bind_eq_ok] at h
        obtain ⟨more, hmore, h⟩ := h
        exact ⟨_, ⟨some part, more, hpart, hmore, rfl⟩, (ih _).mp ⟨parts, hparts, h⟩⟩
    · rintro ⟨_, ⟨part, more, hpart, hmore, rfl⟩, h⟩
      obtain ⟨parts, hparts, h⟩ := (ih _).mpr h
      refine ⟨_, ⟨part, parts, hpart, hparts, rfl⟩, ?_⟩
      cases part with
      | none =>
        rw [← Except.ok.inj hmore, Bags.append_empty] at h
        exact h
      | some part =>
        rw [List.reduceOption_cons_of_some, collect_cons, bind_eq_ok]
        exact ⟨more, hmore, h⟩

/-! ### The verdict of the MAC comes first -/

theorem mem_recovered {P : Prims} {key : Option KeyRequest} {parts : List Part}
    {d : Bytes × Except String Bytes}
    (hd : d ∈ ((wanted P key parts).map KeyBag.der).zip (recoveries P key parts)) :
    ∃ k, key = some k ∧ d.2 = recoverKey P d.1 k.password := by
  cases key with
  | none => simp [recoveries] at hd
  | some k =>
    refine ⟨k, rfl, ?_⟩
    rw [recoveries, List.zip_map, List.mem_map] at hd
    obtain ⟨⟨a, b⟩, hab, rfl⟩ := hd
    rw [List.mem_iff_getElem] at hab
    obtain ⟨i, hi, hab⟩ := hab
    rw [List.getElem_zip, Prod.mk.injEq] at hab
    rw [Prod.map_apply, ← hab.1, ← hab.2]

/-- **The MAC decides first, and the bags come in document order.** -/
theorem parse_mac_first (P : Prims) (bytes : Bytes) (password : String) (key : Option KeyRequest)
    (sched : Nat → Nat × Unit) (authSafe : Bytes) (mac : Tlv)
    (h : outer bytes = .ok (authSafe, some mac)) :
    (∀ m, verifyMac P mac authSafe password = .error m →
      parse P bytes password key sched = some (.error m)) ∧
    (∀ r, parse P bytes password key sched = some (.ok r) →
      verifyMac P mac authSafe password = .ok () ∧
      ∃ bags recovered, sequentialRead P mac authSafe password = .ok bags ∧
        keyEntries P bags recovered 0 bags.keys = .ok r.keys ∧
        ∀ d ∈ recovered, ∃ k, key = some k ∧ d.2 = recoverKey P d.1 k.password) ∧
    ∃ r, parse P bytes password key sched = some r := by
  have hparse := parse_eq P bytes password key sched
  rw [h, ok_bind] at hparse
  simp only [derivedSeq, macVerdict] at hparse
  refine ⟨?_, ?_, ⟨_, hparse⟩⟩
  · intro m hm
    rw [hparse, hm]
    rfl
  · intro r hr
    rw [hparse, Option.some.injEq, bind_eq_ok] at hr
    obtain ⟨d, hd, hr⟩ := hr
    obtain ⟨_, hmac, hd⟩ := bind_eq_ok.mp hd
    obtain ⟨parts, hparts, hd⟩ := bind_eq_ok.mp hd
    rw [← Except.ok.inj hd] at hr
    obtain ⟨bags, hbags, hr⟩ := bind_eq_ok.mp hr
    obtain ⟨keys, hkeys, hr⟩ := bind_eq_ok.mp hr
    refine ⟨hmac, bags, ((wanted P key parts).map KeyBag.der).zip (recoveries P key parts), ?_, ?_,
      fun _ => mem_recovered⟩
    · obtain ⟨cis, hcis, hparts⟩ := bind_eq_ok.mp hparts
      obtain ⟨ps, hps, hparts⟩ := bind_eq_ok.mp hparts
      rw [← Except.ok.inj hparts] at hbags
      rw [sequentialRead, hmac, ok_bind, hcis, ok_bind]
      exact (collect_eq_ok_iff P password cis .empty).mp ⟨ps, hps, hbags⟩
    · rw [← Except.ok.inj hr]
      exact hkeys

/-- A PFX with an AuthenticatedSafe that is no DER, and with empty MacData. -/
def tamperedPfx : Bytes :=
  [0x30, 0x16, 0x02, 0x01, 0x03, 0x30, 0x0f, 0x06, 0x09] ++ oidData ++
    [0xa0, 0x02, 0x04, 0x00, 0x30, 0x00]

theorem parse_tamperedPfx : outer tamperedPfx = .ok ([], some ⟨0x30, [], [0x30, 0x00]⟩) ∧
    ∀ (P : Prims) (key : Option KeyRequest) (sched : Nat → Nat × Unit),
      parse P tamperedPfx "pw" key sched = some (.error "malformed PKCS#12 MacData: missing field") := by
  have houter : outer tamperedPfx = .ok ([], some ⟨0x30, [], [0x30, 0x00]⟩) := by rfl
  refine ⟨houter, fun P key sched => ?_⟩
  exact (parse_mac_first P tamperedPfx "pw" key sched _ _ houter).1 _ rfl

end FastSigner.Keys.Pkcs12

import FastSigner.Keys.Jks.Recover
import FastSigner.Lib.Audit

/-!
# What the reader of a key store asks of memory

`parse` and `recover_key` under audit: with a log of every slice, of the turns of
the loops, and of the room that is reserved ahead of reading.

The slices are in range, and the loops end with the input, whatever counts it
declares.  But for a certificate chain `parse` reserves as many elements as the
input declares; `Overdeclares` are the inputs where that is more than the bytes
that are left.
-/

namespace FastSigner.Keys.Jks

open Lib

/-! ### The reader, with its log -/

abbrev ReadLogged := Audited JksError

def takeLogged (n : Nat) : ReadLogged Bytes := Audited.take .truncated n

def numberLogged (k : Nat) (e : Nat → Access) : ReadLogged Nat := do
  let s ← takeLogged k
  Audited.noting (fun _ => e s.length) (pure (beNat s))

def u32Logged : ReadLogged Nat := numberLogged 4 (.slice 0 4)

def u64Logged : ReadLogged Nat := numberLogged 8 (.copy 8)

def utfLogged : ReadLogged String := do
  let s ← takeLogged 2
  Audited.noting (fun _ => .slice 0 2 s.length) do
    let raw ← takeLogged (beNat s)
    pure (fromUtf8Lossy raw)

def blobLogged : ReadLogged Bytes := do
  let n ← u32Logged
  takeLogged n

def chainTypeLogged (version : Nat) : ReadLogged Unit :=
  if version = 2 then do
    let t ← utfLogged
    if t = "X.509" then pure () else Audited.fail (.certType t)
  else pure ()

def certLogged (version : Nat) : ReadLogged Bytes := do
  chainTypeLogged version
  blobLogged

def chainLogged (version : Nat) : Nat → ReadLogged (List Bytes)
  | 0 => pure []
  | n + 1 => do
    let cert ← Audited.turn (certLogged version)
    let rest ← chainLogged version n
    pure (cert :: rest)

def trustedTypeLogged (version : Nat) : ReadLogged Unit :=
  if version = 2 then do
    let _ ← utfLogged
    pure ()
  else pure ()

/-- A key entry reserves room for its chain as soon as it knows the length. -/
def keyEntryLogged (version : Nat) (acc : Jks) (alias_ : String) : ReadLogged Jks := do
  let protectedKey ← blobLogged
  let chainLen ← u32Logged
  Audited.reserving chainLen do
    let certs ← chainLogged version chainLen
    pure { acc with keys := acc.keys ++ [⟨alias_, protectedKey, certs, none⟩] }

def trustedEntryLogged (version : Nat) (acc : Jks) : ReadLogged Jks := do
  trustedTypeLogged version
  let _ ← blobLogged
  pure { acc with trustedCerts := acc.trustedCerts + 1 }

def entryLogged (version : Nat) (acc : Jks) : ReadLogged Jks := do
  let tag ← u32Logged
  let alias_ ← utfLogged
  let _ ← u64Logged
  if tag = 1 then keyEntryLogged version acc alias_
  else if tag = 2 then trustedEntryLogged version acc
  else Audited.fail (.entryTag tag)

def entriesLogged (version : Nat) : Nat → Jks → ReadLogged Jks
  | 0, acc => pure acc
  | n + 1, acc => do
    let acc ← Audited.turn (entryLogged version acc)
    entriesLogged version n acc

def contentsLogged : ReadLogged Jks := do
  let version ← u32Logged
  if version ≠ 1 ∧ version ≠ 2 then Audited.fail (.version version)
  else do
    let count ← u32Logged
    entriesLogged version count ⟨[], 0⟩

def detectLogged (bytes : Bytes) : Logged JksError StoreKind :=
  if bytes.length < 4 then pure .unknown
  else Logged.noting (.slice 0 4 bytes.length) (pure (detect bytes))

def hashLogged (H : Sha1) (bytes : Bytes) (password : String) (jks : Jks) (c : Cursor) :
    Logged JksError Jks := do
  let dataEnd := c.p
  let (stored, _) ← takeLogged digestLen c
  Logged.noting (.slice 0 dataEnd bytes.length)
    (if H.hash (hashed password (slice bytes 0 dataEnd)) ≠ stored then Logged.fail .integrity
      else pure jks)

/-- `jks::parse`, with its log. -/
def parseLogged (H : Sha1) (bytes : Bytes) (password : String) : Logged JksError Jks := do
  match ← detectLogged bytes with
  | .jceks => Logged.fail .jceks
  | .pkcs12 => Logged.fail .pkcs12
  | .unknown => Logged.fail .notJks
  | .jks => do
    let (jks, c) ← contentsLogged ⟨bytes, 4⟩
    hashLogged H bytes password jks c

/-- The loop of `recover_key`, with its log. -/
def decryptLoopLogged (H : Sha1) (pw encrypted : Bytes) :
    (fuel : Nat) → (plain block : Bytes) → Logged String Bytes
  | 0, plain, _ => pure plain
  | fuel + 1, plain, block =>
    if plain.length < encrypted.length then
      let block := H.hash (pw ++ block)
      let off := plain.length
      let n := min (encrypted.length - off) digestLen
      Logged.noting (.turn (encrypted.length - off)) <|
        Logged.noting (.sub encrypted.length off) <|
        Logged.noting (.slice off (off + n) encrypted.length) <|
        decryptLoopLogged H pw encrypted fuel
          (plain ++ List.zipWith (· ^^^ ·) (slice encrypted off (off + n)) block) block
    else pure plain

/-- `recover_key` on the encryptedData, with `left` bytes of the input from its start on. -/
def decryptLogged (H : Sha1) (data : Bytes) (left : Nat) (keyPassword : String) :
    Logged String Bytes :=
  if data.length < saltLen + digestLen + 1 then Logged.fail "protected key too short"
  else
    let salt := slice data 0 saltLen
    let encrypted := slice data saltLen (data.length - digestLen)
    let check := data.drop (data.length - digestLen)
    let pw := utf16be keyPassword
    Logged.noting (.slice 0 saltLen data.length) <|
      Logged.noting (.sub data.length digestLen) <|
      Logged.noting (.slice saltLen (data.length - digestLen) data.length) <|
      Logged.noting (.slice (data.length - digestLen) data.length data.length) <|
      Logged.noting (.reserve encrypted.length (left - saltLen)) do
        let plain ← decryptLoopLogged H pw encrypted encrypted.length [] salt
        if H.hash (pw ++ plain) ≠ check then Logged.fail "wrong key password" else pure plain

/-- `jks::recover_key`, with its log. -/
def recoverKeyLogged (H : Sha1) (protected_ : Bytes) (keyPassword : String) :
    Logged String Bytes := do
  let (p, _) ← Logged.ofExcept (derExpect protected_ 0 0x30)
  let (algStart, algLen) ← Logged.ofExcept (derExpect protected_ p 0x30)
  let (oidStart, oidLen) ← Logged.ofExcept (derExpect protected_ algStart 0x06)
  Logged.noting (.slice oidStart (oidStart + oidLen) protected_.length)
    (if slice protected_ oidStart (oidStart + oidLen) ≠ keyProtectorOid then
      Logged.fail "key is not protected with the JKS algorithm (JCEKS or PKCS#12 entry?)"
    else do
      let (dStart, dLen) ← Logged.ofExcept (derExpect protected_ (algStart + algLen) 0x04)
      Logged.noting (.slice dStart (dStart + dLen) protected_.length)
        (decryptLogged H (slice protected_ dStart (dStart + dLen)) (protected_.length - dStart)
          keyPassword))

/-! ### The log of the reader -/

theorem audits_take' (n j : Nat) : Audits (takeLogged n) (take n) j n := audits_take _ n j

theorem audits_number {k : Nat} (e : Nat → Access) (he : (e k).InRange)
    (ht : ∀ n, (e n).left? = none) (j : Nat) : Audits (numberLogged k e) (number k) j k := by
  refine (audits_take' k j).seq ?_
  rintro s ⟨c, c', hc, h⟩
  obtain ⟨t, ⟨rfl, hlen⟩, -⟩ := (reads_take JksError.truncated k c hc s c').mp h
  exact (audits_pure (beNat s) j).noting (fun _ _ => by rw [hlen]; exact he) fun _ => ht _

theorem audits_u32 (j : Nat) : Audits u32Logged u32 j 4 :=
  audits_number (.slice 0 4) ⟨Nat.zero_le _, Nat.le_refl _⟩ (fun _ => rfl) j

theorem audits_u64 (j : Nat) : Audits u64Logged u64 j 8 :=
  audits_number (.copy 8) rfl (fun _ => rfl) j

theorem audits_utf (j : Nat) : Audits utfLogged utf j 2 := by
  refine (audits_take' 2 j).seq ?_
  rintro s ⟨c, c', hc, h⟩
  obtain ⟨t, ⟨rfl, hlen⟩, -⟩ := (reads_take JksError.truncated 2 c hc s c').mp h
  refine Audits.noting ?_ (fun _ _ => ⟨Nat.zero_le _, hlen.ge⟩) fun _ => rfl
  exact ((audits_take' (beNat s) j).mono (Nat.le_refl j) (Nat.zero_le _)).seq fun raw _ =>
    audits_pure (fromUtf8Lossy raw) j

theorem audits_blob (j : Nat) : Audits blobLogged blob j 4 :=
  (audits_u32 j).seq fun n _ => (audits_take' n j).mono (Nat.le_refl j) (Nat.zero_le n)

theorem audits_chainType (version j : Nat) :
    Audits (chainTypeLogged version) (chainType version) j 0 := by
  refine Audits.ite ?_ (audits_pure () j)
  refine ((audits_utf j).mono (Nat.le_refl j) (Nat.zero_le _)).seq fun t _ => ?_
  exact (audits_pure () j).ite (audits_fail (JksError.certType t) j 0)

theorem audits_cert (version j : Nat) :
    Audits (certLogged version) (do chainType version; blob) j 4 :=
  ((audits_chainType version j).bind (fun _ _ => audits_blob j) (Nat.le_add_left j 0)).mono
    (Nat.le_refl j) (Nat.le_refl 4)

/-- **The loop over a chain.** -/
theorem audits_chain (version : Nat) :
    ∀ n, Audits (chainLogged version n) (chain version n) 0 0 := by
  intro n
  induction n with
  | zero => exact audits_pure [] 0
  | succ n ih =>
    have hchain : chain version (n + 1) = (do chainType version; blob) >>= fun cert =>
        chain version n >>= fun rest => pure (cert :: rest) := by
      rw [chain, bind_assoc]
    rw [hchain]
    exact ((audits_cert version 4).turn.mono (Nat.le_refl 0) (Nat.zero_le 4)).seq fun cert _ =>
      ih.seq fun rest _ => audits_pure (cert :: rest) 0

theorem audits_trustedType (version j : Nat) :
    Audits (trustedTypeLogged version) (trustedType version) j 0 :=
  (((audits_utf j).mono (Nat.le_refl j) (Nat.zero_le _)).seq fun _ _ => audits_pure () j).ite
    (audits_pure () j)

theorem audits_keyEntry (version : Nat) (acc : Jks) (alias_ : String) :
    Audits (keyEntryLogged version acc alias_) (keyEntry version acc alias_) 0 0 := by
  refine ((audits_blob 0).mono (Nat.le_refl 0) (Nat.zero_le 4)).seq fun protectedKey _ => ?_
  refine ((audits_u32 0).mono (Nat.le_refl 0) (Nat.zero_le 4)).seq fun chainLen _ => ?_
  exact ((audits_chain version chainLen).seq fun certs _ => audits_pure _ 0).noting
    (fun _ _ => trivial) fun _ => rfl

theorem audits_trustedEntry (version : Nat) (acc : Jks) :
    Audits (trustedEntryLogged version acc) (trustedEntry version acc) 0 0 :=
  (audits_trustedType version 0).seq fun _ _ =>
    ((audits_blob 0).mono (Nat.le_refl 0) (Nat.zero_le 4)).seq fun _ _ => audits_pure _ 0

theorem audits_entry (version : Nat) (acc : Jks) :
    Audits (entryLogged version acc) (entry version acc) 4 4 := by
  have hrest : ∀ tag, Audits
      (do
        let alias_ ← utfLogged
        let _ ← u64Logged
        if tag = 1 then keyEntryLogged version acc alias_
        else if tag = 2 then trustedEntryLogged version acc
        else Audited.fail (.entryTag tag))
      (do
        let alias_ ← utf
        let _ ← u64
        if tag = 1 then keyEntry version acc alias_
        else if tag = 2 then trustedEntry version acc
        else throw (.entryTag tag)) 0 0 := by
    intro tag
    refine ((audits_utf 0).mono (Nat.le_refl 0) (Nat.zero_le 2)).seq fun alias_ _ => ?_
    refine ((audits_u64 0).mono (Nat.le_refl 0) (Nat.zero_le 8)).seq fun _ _ => ?_
    exact (audits_keyEntry version acc alias_).ite
      ((audits_trustedEntry version acc).ite (audits_fail (JksError.entryTag tag) 0 0))
  exact (audits_u32 4).bind (fun tag _ => hrest tag) (Nat.le_refl 4)

/-- **The loop over the entries.** -/
theorem audits_entries (version : Nat) :
    ∀ (n : Nat) (acc : Jks), Audits (entriesLogged version n acc) (entries version n acc) 0 0 := by
  intro n
  induction n with
  | zero => exact fun acc => audits_pure acc 0
  | succ n ih =>
    intro acc
    exact ((audits_entry version acc).turn.mono (Nat.le_refl 0) (Nat.zero_le 4)).seq fun acc' _ =>
      ih acc'

theorem audits_contents : Audits contentsLogged contents 0 0 := by
  refine ((audits_u32 0).mono (Nat.le_refl 0) (Nat.zero_le 4)).seq fun version _ => ?_
  refine (audits_fail (JksError.version version) 0 0).ite ?_
  exact ((audits_u32 0).mono (Nat.le_refl 0) (Nat.zero_le 4)).seq fun count _ =>
    audits_entries version count ⟨[], 0⟩

/-! ### Room -/

theorem silent_number {k : Nat} (e : Nat → Access) (he : ∀ m n left, e m ≠ .reserve n left) :
    Silent (numberLogged k e) :=
  (silent_take _ k).bind fun s => (silent_pure _).noting fun _ => he s.length

theorem silent_u32 : Silent u32Logged := silent_number (.slice 0 4) fun _ _ _ h => nomatch h

theorem silent_u64 : Silent u64Logged := silent_number (.copy 8) fun _ _ _ h => nomatch h

theorem silent_utf : Silent utfLogged :=
  (silent_take _ 2).bind fun s => ((silent_take _ (beNat s)).bind fun _ => silent_pure _).noting
    (fun _ _ _ h => nomatch h)

theorem silent_blob : Silent blobLogged := silent_u32.bind fun n => silent_take _ n

theorem silent_cert (version : Nat) : Silent (certLogged version) := by
  refine Silent.bind (Silent.ite ?_ (silent_pure ())) fun _ => silent_blob
  exact silent_utf.bind fun t => (silent_pure ()).ite (silent_fail (JksError.certType t))

theorem silent_chain (version : Nat) : ∀ n, Silent (chainLogged version n) := by
  intro n
  induction n with
  | zero => exact silent_pure []
  | succ n ih =>
    exact (silent_cert version).turn.bind fun cert =>
      ih.bind fun rest => silent_pure (cert :: rest)

theorem silent_trustedEntry (version : Nat) (acc : Jks) : Silent (trustedEntryLogged version acc) :=
  ((silent_utf.bind fun _ => silent_pure ()).ite (silent_pure ())).bind fun _ =>
    silent_blob.bind fun _ => silent_pure _

/-- A key entry up to the length of its chain. -/
structure KeyFront where
  alias_ : Bytes
  date : Nat
  protectedKey : Bytes
  chainLen : Nat
  fits : alias_.length < 2 ^ 16 ∧ date < 2 ^ 64 ∧ protectedKey.length < 2 ^ 32 ∧ chainLen < 2 ^ 32

def KeyFront.encode (k : KeyFront) : Bytes :=
  beBytes 4 1 ++ (encodeUtf k.alias_ ++ (beBytes 8 k.date ++ (encodeBlob k.protectedKey
    ++ beBytes 4 k.chainLen)))

/-- **A key entry reserves what it declares**, right behind the declaration. -/
theorem reserves_keyEntry (version : Nat) (acc : Jks) (alias_ : String) :
    Reserves (keyEntryLogged version acc alias_) fun s n => ∃ protectedKey : Bytes,
      protectedKey.length < 2 ^ 32 ∧ n < 2 ^ 32 ∧ s = encodeBlob protectedKey ++ beBytes 4 n := by
  refine (silent_blob.reserves.bind (audits_blob 0) reads_blob fun protectedKey =>
    silent_u32.reserves.bind (audits_u32 0) reads_u32 fun chainLen =>
      ((silent_chain version chainLen).bind fun certs =>
        silent_pure _).reserves.reserving chainLen).congr ?_
  intro s n
  constructor
  · rintro (h | ⟨protectedKey, s₁, s₂, ⟨hkey, rfl⟩,
      (h | ⟨chainLen, s₃, s₄, ⟨hlen, rfl⟩, (⟨rfl, rfl⟩ | h), rfl⟩), rfl⟩)
    · exact h.elim
    · exact h.elim
    · exact ⟨protectedKey, hkey, hlen, by rw [List.append_nil]⟩
    · exact h.elim
  · rintro ⟨protectedKey, hkey, hlen, rfl⟩
    exact .inr ⟨protectedKey, _, _, ⟨hkey, rfl⟩,
      .inr ⟨n, _, [], ⟨hlen, rfl⟩, .inl ⟨rfl, rfl⟩, (List.append_nil _).symm⟩, rfl⟩

theorem reserves_entry (version : Nat) (acc : Jks) :
    Reserves (entryLogged version acc) fun s n => ∃ k : KeyFront, k.chainLen = n ∧ s = k.encode := by
  refine (silent_u32.reserves.bind (audits_u32 0) reads_u32 fun tag =>
    silent_utf.reserves.bind (audits_utf 0) reads_utf fun alias_ =>
      silent_u64.reserves.bind (audits_u64 0) reads_u64 fun _ =>
        (reserves_keyEntry version acc alias_).ite (P := tag = 1)
          ((silent_trustedEntry version acc).reserves.ite (P := tag = 2)
            (silent_fail (JksError.entryTag tag)).reserves)).congr ?_
  intro s n
  constructor
  · rintro (h | ⟨tag, s₁, s₂, ⟨-, rfl⟩, (h | ⟨alias_, s₃, s₄, ⟨raw, hraw, -, rfl⟩,
      (h | ⟨date, s₅, s₆, ⟨hdate, rfl⟩, hbody, rfl⟩), rfl⟩), rfl⟩)
    · exact h.elim
    · exact h.elim
    · exact h.elim
    · split at hbody
      · rename_i htag
        obtain ⟨protectedKey, hkey, hlen, rfl⟩ := hbody
        exact ⟨⟨raw, date, protectedKey, n, hraw, hdate, hkey, hlen⟩, rfl, by rw [KeyFront.encode, htag]⟩
      · rw [ite_self] at hbody
        exact hbody.elim
  · rintro ⟨⟨raw, date, protectedKey, chainLen, hraw, hdate, hkey, hlen⟩, rfl, rfl⟩
    refine .inr ⟨1, _, _, ⟨by decide, rfl⟩, .inr ⟨_, _, _, ⟨raw, hraw, rfl, rfl⟩,
      .inr ⟨date, _, _, ⟨hdate, rfl⟩, ?_, rfl⟩, rfl⟩, rfl⟩
    rw [if_pos rfl]
    exact ⟨protectedKey, hkey, hlen, rfl⟩

/-- **The loop**: entries, and the front of a key entry among those that are declared. -/
theorem reserves_entries (version : Nat) :
    ∀ (count : Nat) (acc : Jks), Reserves (entriesLogged version count acc) fun s n =>
      ∃ (store : List (Entry Bytes)) (k : KeyFront), store.length < count ∧ (∀ e ∈ store, e.Fits) ∧
        k.chainLen = n ∧ s = store.flatMap (Entry.encode version) ++ k.encode := by
  intro count
  induction count with
  | zero =>
    intro acc
    refine (silent_pure acc).reserves.congr ?_
    intro s n
    constructor
    · exact fun h => h.elim
    · rintro ⟨store, k, hlen, -⟩
      exact absurd hlen (Nat.not_lt_zero _)
  | succ count ih =>
    intro acc
    refine ((reserves_entry version acc).turn.bind
      (audits_entry version acc).turn (reads_entry version acc) fun acc' => ih acc').congr ?_
    intro s n
    constructor
    · rintro (⟨k, hk, rfl⟩ | ⟨acc', s₁, s₂, ⟨e, he, rfl, -⟩, ⟨store, k, hlen, hstore, hk, rfl⟩, rfl⟩)
      · exact ⟨[], k, Nat.succ_pos _, (fun _ h => nomatch h), hk, rfl⟩
      · refine ⟨e :: store, k, Nat.succ_lt_succ hlen, ?_, hk, ?_⟩
        · intro x hx
          rcases List.mem_cons.mp hx with rfl | hx
          · exact he
          · exact hstore x hx
        · rw [List.flatMap_cons, List.append_assoc]
    · rintro ⟨store, k, hlen, hstore, hk, rfl⟩
      cases store with
      | nil => exact .inl ⟨k, hk, rfl⟩
      | cons e store =>
        refine .inr ⟨_, _, _, ⟨e, hstore e List.mem_cons_self, rfl, rfl⟩,
          ⟨store, k, Nat.lt_of_succ_lt_succ hlen,
            fun x hx => hstore x (List.mem_cons_of_mem _ hx), hk, rfl⟩, ?_⟩
        rw [List.flatMap_cons, List.append_assoc]

/-- The front of a store, up to the length of the chain of a key entry. -/
structure StoreFront where
  version : Nat
  count : Nat
  store : List (Entry Bytes)
  key : KeyFront
  version_known : version = 1 ∨ version = 2
  count_fits : count < 2 ^ 32
  declared : store.length < count
  store_fits : ∀ e ∈ store, e.Fits

def StoreFront.encode (f : StoreFront) : Bytes :=
  beBytes 4 f.version ++ (beBytes 4 f.count ++ (f.store.flatMap (Entry.encode f.version)
    ++ f.key.encode))

theorem reserves_contents :
    Reserves contentsLogged fun s n => ∃ f : StoreFront, f.key.chainLen = n ∧ s = f.encode := by
  refine (silent_u32.reserves.bind (audits_u32 0) reads_u32 fun version =>
    (silent_fail (JksError.version version)).reserves.ite (P := version ≠ 1 ∧ version ≠ 2)
      (silent_u32.reserves.bind (audits_u32 0) reads_u32 fun count =>
        reserves_entries version count ⟨[], 0⟩)).congr ?_
  intro s n
  constructor
  · rintro (h | ⟨version, s₁, s₂, ⟨-, rfl⟩, h, rfl⟩)
    · exact h.elim
    · split at h
      · exact h.elim
      · rename_i hv
        obtain h | ⟨count, s₃, s₄, ⟨hcount, rfl⟩, ⟨store, k, hlen, hstore, hk, rfl⟩, rfl⟩ := h
        · exact h.elim
        · exact ⟨⟨version, count, store, k, by omega, hcount, hlen, hstore⟩, hk, rfl⟩
  · rintro ⟨⟨version, count, store, k, hv, hcount, hlen, hstore⟩, hk, rfl⟩
    refine .inr ⟨version, _, _, ⟨by omega, rfl⟩, ?_, rfl⟩
    rw [if_neg (by omega)]
    exact .inr ⟨count, _, _, ⟨hcount, rfl⟩, ⟨store, k, hlen, hstore, hk, rfl⟩, rfl⟩

/-! ### The whole store -/

theorem detectLogged_fst (bytes : Bytes) : (detectLogged bytes).1 = .ok (detect bytes) := by
  rw [detectLogged]
  split
  · rename_i h
    rw [detect, if_pos h]
    rfl
  · rfl

theorem detectLogged_steady (bytes : Bytes) : (detectLogged bytes).Steady := by
  rw [detectLogged]
  split
  · exact Logged.steady_of_nil _
  · rename_i h
    exact (Logged.steady_of_nil _).noting ⟨Nat.zero_le _, Nat.le_of_not_lt h⟩ rfl

theorem turns_detectLogged (bytes : Bytes) : Access.turns (detectLogged bytes).2 = [] := by
  rw [detectLogged]
  split
  · rfl
  · rfl

theorem valid_of_detect {bytes : Bytes} (h : detect bytes = .jks) : (⟨bytes, 4⟩ : Cursor).Valid := by
  have hlen := congrArg List.length (detect_eq_jks.mp h)
  rw [length_slice, length_beBytes] at hlen
  rw [Cursor.Valid]
  simp only
  omega

theorem hashLogged_log (H : Sha1) (bytes : Bytes) (password : String) (jks : Jks) (p : Nat) :
    (hashLogged H bytes password jks ⟨bytes, p⟩).2 = [] ∨ p + digestLen ≤ bytes.length ∧
      (hashLogged H bytes password jks ⟨bytes, p⟩).2
        = [.slice p (p + digestLen) bytes.length, .slice 0 p bytes.length] := by
  rcases Nat.lt_or_ge bytes.length (p + digestLen) with hlt | hle
  · have hshort : takeLogged digestLen ⟨bytes, p⟩ = (.error .truncated, []) :=
      Audited.take_of_lt _ hlt
    rw [hashLogged, Logged.bind_of_error (congrArg Prod.fst hshort), hshort]
    exact .inl rfl
  · have htake : takeLogged digestLen ⟨bytes, p⟩ = (.ok (slice bytes p (p + digestLen),
        ⟨bytes, p + digestLen⟩), [.slice p (p + digestLen) bytes.length]) :=
      Audited.take_of_le _ hle
    refine .inr ⟨hle, ?_⟩
    rw [hashLogged, Logged.bind_of_ok (congrArg Prod.fst htake), htake]
    by_cases hh : H.hash (hashed password (slice bytes 0 p)) ≠ slice bytes p (p + digestLen)
    · simp only [if_pos hh]
      rfl
    · simp only [if_neg hh]
      rfl

theorem hashLogged_steady (H : Sha1) (bytes : Bytes) (password : String) (jks : Jks) (p : Nat) :
    Access.turns (hashLogged H bytes password jks ⟨bytes, p⟩).2 = []
      ∧ (hashLogged H bytes password jks ⟨bytes, p⟩).Steady := by
  have hturns : Access.turns (hashLogged H bytes password jks ⟨bytes, p⟩).2 = [] := by
    rcases hashLogged_log H bytes password jks p with h | ⟨-, h⟩
    · rw [h]
      rfl
    · rw [h]
      rfl
  refine ⟨hturns, ?_, by rw [hturns]; exact .nil, by rw [hturns]; exact fun h => nomatch h⟩
  intro e he
  rcases hashLogged_log H bytes password jks p with h | ⟨hle, h⟩
  · rw [h] at he
    cases he
  · rw [h, List.mem_cons, List.mem_singleton] at he
    rcases he with rfl | rfl
    · exact ⟨Nat.le_add_right _ _, hle⟩
    · exact ⟨Nat.zero_le _, by omega⟩

theorem reserve_notMem_hashLogged (H : Sha1) (bytes : Bytes) (password : String) (jks : Jks)
    (p n left : Nat) :
    Access.reserve n left ∉ (hashLogged H bytes password jks ⟨bytes, p⟩).2 := by
  intro hmem
  rcases hashLogged_log H bytes password jks p with h | ⟨-, h⟩
  · rw [h] at hmem
    cases hmem
  · rw [h] at hmem
    simp at hmem

theorem contents_cursor {bytes : Bytes} (hc : (⟨bytes, 4⟩ : Cursor).Valid) {jks : Jks} {c : Cursor}
    (h : contents ⟨bytes, 4⟩ = .ok (jks, c)) : c = ⟨bytes, c.p⟩ := by
  obtain ⟨s, -, rfl, -⟩ := (reads_contents _ hc jks c).mp h
  rfl

theorem parseLogged_fst (H : Sha1) (bytes : Bytes) (password : String) :
    (parseLogged H bytes password).1 = parse H bytes password := by
  rw [parseLogged, Logged.fst_bind, detectLogged_fst, ok_bind, parse]
  cases hd : detect bytes with
  | jceks => rfl
  | pkcs12 => rfl
  | unknown => rfl
  | jks =>
    have hc := valid_of_detect hd
    simp only
    rw [Logged.fst_bind, audits_contents.run _ hc]
    cases hrun : contents ⟨bytes, 4⟩ with
    | error e => rfl
    | ok p =>
      obtain ⟨jks, c⟩ := p
      have hc' := (audits_contents.behind _ hc _ _ hrun).1
      simp only [ok_bind]
      rw [hashLogged, Logged.fst_bind, (audits_take' digestLen 0).run c hc']
      cases take digestLen c with
      | error e => rfl
      | ok q =>
        obtain ⟨stored, c''⟩ := q
        simp only [ok_bind, Logged.noting]
        split
        · rfl
        · rfl

/-- **No access of `parse` is out of range, and its loops end with the input.** -/
theorem parseLogged_steady (H : Sha1) (bytes : Bytes) (password : String) :
    (parseLogged H bytes password).Steady := by
  refine (detectLogged_steady bytes).bind ?_ (.inl (turns_detectLogged bytes))
  intro kind hkind
  rw [detectLogged_fst, Except.ok.injEq] at hkind
  subst hkind
  cases hd : detect bytes with
  | jceks => exact Logged.steady_of_nil _
  | pkcs12 => exact Logged.steady_of_nil _
  | unknown => exact Logged.steady_of_nil _
  | jks =>
    have hc := valid_of_detect hd
    have hrest : ∀ p : Jks × Cursor, (contentsLogged ⟨bytes, 4⟩).1 = .ok p → p.2 = ⟨bytes, p.2.p⟩ := by
      intro p hp
      rw [audits_contents.run _ hc] at hp
      exact contents_cursor hc hp
    refine (audits_contents.steady hc).bind ?_ (.inr ?_)
    · rintro ⟨jks, c⟩ h
      have hcur := hrest _ h
      simp only at hcur ⊢
      rw [hcur]
      exact (hashLogged_steady H bytes password jks c.p).2
    · rintro ⟨jks, c⟩ h
      have hcur := hrest _ h
      simp only at hcur ⊢
      rw [hcur]
      exact (hashLogged_steady H bytes password jks c.p).1

/-- **Where `parse` reserves room**: behind every front of a store. -/
theorem reserve_mem_parseLogged {H : Sha1} {bytes : Bytes} {password : String} {n left : Nat} :
    Access.reserve n left ∈ (parseLogged H bytes password).2 ↔
      ∃ (f : StoreFront) (rest : Bytes), bytes = beBytes 4 magicJks ++ f.encode ++ rest
        ∧ f.key.chainLen = n ∧ rest.length = left := by
  have hmlen : (beBytes 4 magicJks).length = 4 := length_beBytes _ _
  have hdetected : Access.reserve n left ∉ (detectLogged bytes).2 := by
    rw [detectLogged]
    split
    · exact fun h => nomatch h
    · intro h
      cases List.mem_singleton.mp h
  have hfront : detect bytes = .jks → (⟨bytes, 0⟩ : Cursor).Spans (beBytes 4 magicJks) ⟨bytes, 4⟩ := by
    intro hd
    rw [Cursor.Spans, hmlen]
    exact ⟨rfl, detect_eq_jks.mp hd⟩
  rw [parseLogged, Logged.mem_bind, or_iff_right hdetected]
  constructor
  · rintro ⟨kind, hkind, hmem⟩
    rw [detectLogged_fst, Except.ok.injEq] at hkind
    subst hkind
    cases hd : detect bytes with
    | jceks =>
      rw [hd] at hmem
      cases hmem
    | pkcs12 =>
      rw [hd] at hmem
      cases hmem
    | unknown =>
      rw [hd] at hmem
      cases hmem
    | jks =>
      have hc := valid_of_detect hd
      rw [hd] at hmem
      rcases Logged.mem_bind.mp hmem with hmem | ⟨⟨jks, c⟩, h, hmem⟩
      · obtain ⟨s, c', ⟨f, hf, rfl⟩, hspan, rfl⟩ := (reserves_contents _ hc n left).mp hmem
        obtain ⟨rfl, t, ht⟩ := Cursor.spans_front.mp
          (Cursor.spans_append.mpr ⟨_, hfront hd, hspan⟩)
        refine ⟨f, t, ht, hf, ?_⟩
        rw [Cursor.left]
        simp only
        rw [ht, List.length_append, Nat.add_sub_cancel_left]
      · rw [audits_contents.run _ hc] at h
        have hcur := contents_cursor hc h
        simp only at hmem
        rw [hcur] at hmem
        exact absurd hmem (reserve_notMem_hashLogged H bytes password jks c.p n left)
  · rintro ⟨f, rest, hbytes, hf, hrest⟩
    have hall : (⟨bytes, 0⟩ : Cursor).Spans (beBytes 4 magicJks ++ f.encode)
        ⟨bytes, (beBytes 4 magicJks ++ f.encode).length⟩ :=
      Cursor.spans_front.mpr ⟨rfl, rest, hbytes⟩
    have hd : detect bytes = .jks := by
      rw [detect_eq_jks, slice_zero, hbytes, List.append_assoc,
        List.take_left' (length_beBytes _ _)]
    have hc := valid_of_detect hd
    refine ⟨.jks, by rw [detectLogged_fst, hd], Logged.mem_bind.mpr (.inl ?_)⟩
    obtain ⟨c', h1, h2⟩ := Cursor.spans_append.mp hall
    rw [h1.1, hmlen] at h2
    refine (reserves_contents _ hc n left).mpr ⟨f.encode, _, ⟨f, hf, rfl⟩, h2, ?_⟩
    rw [Cursor.left]
    simp only
    rw [hbytes, List.length_append, Nat.add_sub_cancel_left, hrest]

/-! ### The recovery of a key -/

theorem decryptLoopLogged_fst (H : Sha1) (pw encrypted : Bytes) :
    ∀ (fuel : Nat) (plain block : Bytes),
      (decryptLoopLogged H pw encrypted fuel plain block).1
        = .ok (decryptLoop H pw encrypted fuel plain block) := by
  intro fuel
  induction fuel with
  | zero => exact fun plain block => rfl
  | succ fuel ih =>
    intro plain block
    rw [decryptLoopLogged, decryptLoop]
    by_cases hlt : plain.length < encrypted.length
    · rw [if_pos hlt, if_pos hlt]
      exact ih _ _
    · rw [if_neg hlt, if_neg hlt]
      rfl

/-- **The loop of `recover_key`** decrypts a whole block, or it is at its end. -/
theorem decryptLoopLogged_sound (H : Sha1) (pw encrypted : Bytes) :
    ∀ (fuel : Nat) (plain block : Bytes),
      (decryptLoopLogged H pw encrypted fuel plain block).Sound ∧
        ∀ m ∈ Access.turns (decryptLoopLogged H pw encrypted fuel plain block).2,
          0 < m ∧ m ≤ encrypted.length - plain.length := by
  intro fuel
  induction fuel with
  | zero =>
    intro plain block
    exact ⟨Logged.sound_of_nil _, (fun _ h => nomatch h)⟩
  | succ fuel ih =>
    intro plain block
    rw [decryptLoopLogged]
    by_cases hlt : plain.length < encrypted.length
    · rw [if_pos hlt]
      have hblock : (H.hash (pw ++ block)).length = digestLen := H.length_hash _
      have hdigest : digestLen = 20 := rfl
      have hlen : (plain ++ List.zipWith (· ^^^ ·) (slice encrypted plain.length
            (plain.length + min (encrypted.length - plain.length) digestLen))
            (H.hash (pw ++ block))).length
          = plain.length + min (encrypted.length - plain.length) digestLen := by
        rw [List.length_append, List.length_zipWith, length_slice_of_le _ (by omega), hblock]
        omega
      obtain ⟨hsound, hturns⟩ := ih (plain ++ List.zipWith (· ^^^ ·) (slice encrypted plain.length
        (plain.length + min (encrypted.length - plain.length) digestLen)) (H.hash (pw ++ block)))
        (H.hash (pw ++ block))
      rw [hlen] at hturns
      refine ⟨((hsound.slice ⟨Nat.le_add_right _ _, by omega⟩).sub (Nat.le_of_lt hlt)).turn
        (by omega) ?_, ?_⟩
      · intro m hm
        have := hturns m hm
        omega
      · intro m hm
        rcases List.mem_cons.mp hm with rfl | hm
        · exact ⟨by omega, Nat.le_refl _⟩
        · have := hturns m hm
          omega
    · rw [if_neg hlt]
      exact ⟨Logged.sound_of_nil _, (fun _ h => nomatch h)⟩

theorem decryptLogged_sound (H : Sha1) {data : Bytes} {left : Nat} (keyPassword : String)
    (hleft : data.length ≤ left) : (decryptLogged H data left keyPassword).Sound := by
  have hsalt : saltLen = 20 := rfl
  have hdigest : digestLen = 20 := rfl
  rw [decryptLogged]
  by_cases hshort : data.length < saltLen + digestLen + 1
  · rw [if_pos hshort]
    exact Logged.sound_of_nil _
  · rw [if_neg hshort]
    have henc : (slice data saltLen (data.length - digestLen)).length
        = data.length - digestLen - saltLen := length_slice_of_le _ (by omega)
    have hloop : ∀ pw encrypted salt check : Bytes, Logged.Sound (do
        let plain ← decryptLoopLogged H pw encrypted encrypted.length [] salt
        if H.hash (pw ++ plain) ≠ check then Logged.fail "wrong key password" else pure plain) := by
      intro pw encrypted salt check
      refine (decryptLoopLogged_sound H pw encrypted encrypted.length [] salt).1.bind ?_ (.inr ?_)
      · intro plain _
        split
        · exact Logged.sound_of_nil _
        · exact Logged.sound_of_nil _
      · intro plain _
        split
        · rfl
        · rfl
    exact (((((hloop _ _ _ _).reserve (by omega)).slice (by omega)).slice (by omega)).sub
      (by omega)).slice (by omega)

theorem derExpect_bounds {b : Bytes} {p s l : Nat} {tag : UInt8}
    (h : derExpect b p tag = .ok (s, l)) : s + l ≤ b.length := by
  rw [derExpect] at h
  obtain ⟨⟨t, s', l'⟩, hhdr, h⟩ := bind_eq_ok.mp h
  simp only at h
  split at h
  · cases h
  · obtain ⟨rfl, rfl⟩ := Prod.mk.inj (Except.ok.inj h)
    exact (derHeader_bounds hhdr).2

/-- **`recover_key` asks for nothing that is not there.** -/
theorem recoverKeyLogged_sound (H : Sha1) (protected_ : Bytes) (keyPassword : String) :
    (recoverKeyLogged H protected_ keyPassword).Sound := by
  refine Logged.Sound.ofExcept_bind ?_
  rintro ⟨p, _⟩ -
  refine Logged.Sound.ofExcept_bind ?_
  rintro ⟨algStart, algLen⟩ -
  refine Logged.Sound.ofExcept_bind ?_
  rintro ⟨oidStart, oidLen⟩ hoid
  refine Logged.Sound.slice ?_ ⟨Nat.le_add_right _ _, derExpect_bounds hoid⟩
  split
  · exact Logged.sound_of_nil _
  · refine Logged.Sound.ofExcept_bind ?_
    rintro ⟨dStart, dLen⟩ hd
    have hin := derExpect_bounds hd
    refine (decryptLogged_sound H keyPassword ?_).slice ⟨Nat.le_add_right _ _, hin⟩
    rw [length_slice_of_le _ hin]
    omega

theorem decryptLogged_fst (H : Sha1) (data : Bytes) (left : Nat) (keyPassword : String) :
    (decryptLogged H data left keyPassword).1 =
      (do
        if data.length < saltLen + digestLen + 1 then throw "protected key too short"
        let salt := slice data 0 saltLen
        let encrypted := slice data saltLen (data.length - digestLen)
        let check := data.drop (data.length - digestLen)
        let pw := utf16be keyPassword
        let plain := decryptLoop H pw encrypted encrypted.length [] salt
        if H.hash (pw ++ plain) ≠ check then throw "wrong key password"
        pure plain) := by
  rw [decryptLogged]
  by_cases hshort : data.length < saltLen + digestLen + 1
  · rw [if_pos hshort, if_pos hshort]
    rfl
  · rw [if_neg hshort, if_neg hshort]
    simp only [Logged.fst_noting, Logged.fst_bind, decryptLoopLogged_fst, ok_bind]
    split
    · rfl
    · rfl

theorem recoverKeyLogged_fst (H : Sha1) (protected_ : Bytes) (keyPassword : String) :
    (recoverKeyLogged H protected_ keyPassword).1 = recoverKey H protected_ keyPassword := by
  rw [recoverKeyLogged, recoverKey, encryptedData, Logged.fst_bind, Logged.ofExcept]
  cases derExpect protected_ 0 0x30 with
  | error e => rfl
  | ok outer =>
    simp only [ok_bind]
    rw [Logged.fst_bind, Logged.ofExcept]
    cases derExpect protected_ outer.1 0x30 with
    | error e => rfl
    | ok alg =>
      simp only [ok_bind]
      rw [Logged.fst_bind, Logged.ofExcept]
      cases derExpect protected_ alg.1 0x06 with
      | error e => rfl
      | ok oid =>
        simp only [ok_bind, Logged.fst_noting]
        by_cases hoid : slice protected_ oid.1 (oid.1 + oid.2) ≠ keyProtectorOid
        · rw [if_pos hoid, if_pos hoid]
          rfl
        · rw [if_neg hoid, if_neg hoid, Logged.fst_bind, Logged.ofExcept]
          cases derExpect protected_ (alg.1 + alg.2) 0x04 with
          | error e => rfl
          | ok d =>
            simp only [ok_bind, Logged.fst_noting]
            rw [decryptLogged_fst]
            rfl

/-! ### The two together -/

/-- No key entry that the reader comes to declares a longer chain than there are bytes left. -/
def ChainsFit (bytes : Bytes) : Prop :=
  ∀ (f : StoreFront) (rest : Bytes), bytes = beBytes 4 magicJks ++ f.encode ++ rest →
    f.key.chainLen ≤ rest.length

theorem parseLogged_sound_iff (H : Sha1) (bytes : Bytes) (password : String) :
    (parseLogged H bytes password).Sound ↔ ChainsFit bytes := by
  constructor
  · intro h f rest hbytes
    exact h.backed _ _ (reserve_mem_parseLogged.mpr ⟨f, rest, hbytes, rfl, rfl⟩)
  · intro h
    refine ⟨parseLogged_steady H bytes password, ?_⟩
    intro n left hmem
    obtain ⟨f, rest, hbytes, rfl, rfl⟩ := reserve_mem_parseLogged.mp hmem
    exact h f rest hbytes

/-- **What the reader of a key store asks of memory**, on every input: nothing that is not there,
exactly where no chain is declared longer than the bytes that are left. -/
theorem sound_iff_chainsFit (H : Sha1) (bytes protected_ : Bytes) (password keyPassword : String) :
    (parseLogged H bytes password).1 = parse H bytes password
      ∧ (recoverKeyLogged H protected_ keyPassword).1 = recoverKey H protected_ keyPassword
      ∧ ((parseLogged H bytes password).Sound ∧ (recoverKeyLogged H protected_ keyPassword).Sound
        ↔ ChainsFit bytes) := by
  have hrecover := recoverKeyLogged_sound H protected_ keyPassword
  rw [parseLogged_sound_iff, and_iff_left hrecover]
  exact ⟨parseLogged_fst H bytes password, recoverKeyLogged_fst H protected_ keyPassword, Iff.rfl⟩

/-- A key entry without a key, whose chain is declared to be as long as possible. -/
def emptyFront : StoreFront where
  version := 1
  count := 1
  store := []
  key := ⟨[], 0, [], 0xffffffff, by decide⟩
  version_known := .inl rfl
  count_fits := by decide
  declared := Nat.zero_lt_one
  store_fits _ h := nomatch h

/-- Thirty-four bytes, no more, make the reader ask for room for 4294967295 certificates. -/
theorem not_sound_emptyFront :
    (beBytes 4 magicJks ++ emptyFront.encode).length = 34 ∧ ∀ (H : Sha1) (password : String),
      Access.reserve 0xffffffff 0
          ∈ (parseLogged H (beBytes 4 magicJks ++ emptyFront.encode) password).2
        ∧ ¬ (parseLogged H (beBytes 4 magicJks ++ emptyFront.encode) password).Sound := by
  refine ⟨by decide, ?_⟩
  intro H password
  have hmem : Access.reserve 0xffffffff 0
      ∈ (parseLogged H (beBytes 4 magicJks ++ emptyFront.encode) password).2 :=
    reserve_mem_parseLogged.mpr ⟨emptyFront, [], (List.append_nil _).symm, rfl, rfl⟩
  refine ⟨hmem, ?_⟩
  intro h
  exact absurd (h.backed _ _ hmem) (by decide)

end FastSigner.Keys.Jks

import FastSigner.Keys.Der
import FastSigner.Keys.Jks
import FastSigner.Lib.Chunks
import Mathlib.Data.List.Iterate

/-!
# Keys of a Java key store

A key entry holds an EncryptedPrivateKeyInfo.  Its data is a salt, the key under
a stream of SHA-1 blocks that are chained from the salt on, and a hash over the
password and the key.

`protect` is the key protector.  `recoverKey_protect` says that `recover_key`
inverts it, and that the hash was compared before a key is returned.
-/

namespace FastSigner.Keys.Jks

open Lib

def keyProtectorOid : Bytes := [0x2b, 0x06, 0x01, 0x04, 0x01, 0x2a, 0x02, 0x11, 0x01, 0x01]
def saltLen : Nat := 20

/-- The first half of `recover_key`: the contents of the encryptedData. -/
def encryptedData (protected_ : Bytes) : Except String Bytes := do
  let (p, _) ← derExpect protected_ 0 0x30
  let (algStart, algLen) ← derExpect protected_ p 0x30
  let (oidStart, oidLen) ← derExpect protected_ algStart 0x06
  if slice protected_ oidStart (oidStart + oidLen) ≠ keyProtectorOid then
    throw "key is not protected with the JKS algorithm (JCEKS or PKCS#12 entry?)"
  let (dStart, dLen) ← derExpect protected_ (algStart + algLen) 0x04
  pure (slice protected_ dStart (dStart + dLen))

/-- The loop: one block of the key stream a turn.  A turn decrypts at least one byte, so that
`encrypted.length` turns are enough. -/
def decryptLoop (H : Sha1) (pw encrypted : Bytes) : (fuel : Nat) → (plain block : Bytes) → Bytes
  | 0, plain, _ => plain
  | fuel + 1, plain, block =>
    if plain.length < encrypted.length then
      let block := H.hash (pw ++ block)
      let off := plain.length
      let n := min (encrypted.length - off) digestLen
      decryptLoop H pw encrypted fuel
        (plain ++ List.zipWith (· ^^^ ·) (slice encrypted off (off + n)) block) block
    else plain

def recoverKey (H : Sha1) (protected_ : Bytes) (keyPassword : String) : Except String Bytes := do
  let data ← encryptedData protected_
  if data.length < saltLen + digestLen + 1 then throw "protected key too short"
  let salt := slice data 0 saltLen
  let encrypted := slice data saltLen (data.length - digestLen)
  let check := data.drop (data.length - digestLen)
  let pw := utf16be keyPassword
  let plain := decryptLoop H pw encrypted encrypted.length [] salt
  if H.hash (pw ++ plain) ≠ check then throw "wrong key password"
  pure plain

/-! ### The key protector -/

/-- The key stream for `n` bytes: block `i` is the hash of the password and block `i - 1`, block
zero that of the password and the salt. -/
def keyStream (H : Sha1) (pw salt : Bytes) (n : Nat) : Bytes :=
  (List.iterate (fun block => H.hash (pw ++ block)) (H.hash (pw ++ salt))
    (chunkCount digestLen n)).flatten

def protectedData (H : Sha1) (pw salt plain : Bytes) : Bytes :=
  salt ++ List.zipWith (· ^^^ ·) plain (keyStream H pw salt plain.length) ++ H.hash (pw ++ plain)

def protectorAlg (params : Bytes) : Bytes := der 0x06 keyProtectorOid ++ params

def protectedInfo (H : Sha1) (password : String) (salt params plain : Bytes) : Bytes :=
  der 0x30 (protectorAlg params) ++ der 0x04 (protectedData H (utf16be password) salt plain)

/-- The EncryptedPrivateKeyInfo. -/
def protect (H : Sha1) (password : String) (salt params plain : Bytes) : Bytes :=
  der 0x30 (protectedInfo H password salt params plain)

/-! ### The key stream -/

theorem zipWith_append_right {α β γ : Type} (f : α → β → γ) (c : List β) :
    ∀ (a : List α) (b : List β), List.zipWith f a (b ++ c)
      = List.zipWith f (a.take b.length) b ++ List.zipWith f (a.drop b.length) c := by
  intro a b
  induction b generalizing a with
  | nil => simp
  | cons y b ih =>
    cases a with
    | nil => simp
    | cons x a =>
      simp only [List.cons_append, List.zipWith_cons_cons, List.length_cons, List.take_succ_cons,
        List.drop_succ_cons, ih a]

/-- **The loop adds the key stream to what is left**, however many blocks of it are given. -/
theorem decryptLoop_eq (H : Sha1) (pw encrypted : Bytes) :
    ∀ (fuel : Nat) (plain block : Bytes) (m : Nat), encrypted.length - plain.length ≤ fuel →
      encrypted.length - plain.length ≤ m * digestLen →
      decryptLoop H pw encrypted fuel plain block
        = plain ++ List.zipWith (· ^^^ ·) (encrypted.drop plain.length)
            (List.iterate (fun block => H.hash (pw ++ block)) (H.hash (pw ++ block)) m).flatten := by
  intro fuel
  induction fuel with
  | zero =>
    intro plain block m hfuel _
    rw [decryptLoop, List.drop_of_length_le (by omega), List.zipWith_nil_left, List.append_nil]
  | succ fuel ih =>
    intro plain block m hfuel hm
    rw [decryptLoop]
    by_cases hlt : plain.length < encrypted.length
    · rw [if_pos hlt]
      obtain ⟨k, rfl⟩ : ∃ k, m = k + 1 := by
        refine ⟨m - 1, ?_⟩
        cases m with
        | zero =>
          rw [Nat.zero_mul] at hm
          omega
        | succ k => rfl
      have hblock : (H.hash (pw ++ block)).length = digestLen := H.length_hash _
      have hdigest : digestLen = 20 := rfl
      rw [Nat.succ_mul] at hm
      -- the first block of the stream covers the next `n` bytes
      have htake : slice encrypted plain.length
            (plain.length + min (encrypted.length - plain.length) digestLen)
          = (encrypted.drop plain.length).take (H.hash (pw ++ block)).length := by
        rw [slice, Nat.add_sub_cancel_left, hblock, List.take_eq_take_iff, List.length_drop]
        omega
      have hlen : (plain ++ List.zipWith (· ^^^ ·) ((encrypted.drop plain.length).take
            (H.hash (pw ++ block)).length) (H.hash (pw ++ block))).length
          = plain.length + min (encrypted.length - plain.length) digestLen := by
        rw [List.length_append, List.length_zipWith, List.length_take, List.length_drop, hblock]
        omega
      have hrest : encrypted.drop (plain.length + min (encrypted.length - plain.length) digestLen)
          = (encrypted.drop plain.length).drop (H.hash (pw ++ block)).length := by
        rw [List.drop_drop, hblock]
        by_cases hle : digestLen ≤ encrypted.length - plain.length
        · rw [Nat.min_eq_right hle]
        · rw [List.drop_of_length_le (by omega), List.drop_of_length_le (by omega)]
      simp only [htake]
      rw [ih _ _ k (by rw [hlen]; omega) (by rw [hlen]; omega), hlen, hrest, List.iterate,
        List.flatten_cons, zipWith_append_right, List.append_assoc]
    · rw [if_neg hlt, List.drop_of_length_le (by omega), List.zipWith_nil_left, List.append_nil]

theorem length_keyStream (H : Sha1) (pw salt : Bytes) (n : Nat) :
    n ≤ (keyStream H pw salt n).length := by
  have hblocks : ∀ l ∈ List.iterate (fun block => H.hash (pw ++ block)) (H.hash (pw ++ salt))
      (chunkCount digestLen n), l.length = digestLen := by
    intro l hl
    rw [← List.range_map_iterate, List.mem_map] at hl
    obtain ⟨i, -, rfl⟩ := hl
    cases i with
    | zero => exact H.length_hash _
    | succ i =>
      rw [Function.iterate_succ_apply']
      exact H.length_hash _
  rw [keyStream, length_flatten_of_length hblocks, List.length_iterate]
  exact le_chunkCount_mul (by decide) n

theorem length_protectedData (H : Sha1) (pw salt plain : Bytes) :
    (protectedData H pw salt plain).length = salt.length + plain.length + digestLen := by
  rw [protectedData, List.length_append, List.length_append, List.length_zipWith,
    Nat.min_eq_left (length_keyStream H pw salt plain.length), H.length_hash]
  rfl

theorem decryptLoop_protect (H : Sha1) (pw salt plain : Bytes) (fuel : Nat)
    (hfuel : plain.length ≤ fuel) :
    decryptLoop H pw (List.zipWith (· ^^^ ·) plain (keyStream H pw salt plain.length)) fuel [] salt
      = plain := by
  have hstream := length_keyStream H pw salt plain.length
  have hlen : (List.zipWith (· ^^^ ·) plain (keyStream H pw salt plain.length)).length
      = plain.length := by
    rw [List.length_zipWith, Nat.min_eq_left hstream]
  rw [decryptLoop_eq H pw _ fuel [] salt (chunkCount digestLen plain.length)
    (by rw [hlen]; exact hfuel) (by rw [hlen]; exact le_chunkCount_mul (by decide) _),
    List.nil_append, List.length_nil, List.drop_zero]
  exact zipWith_xor_self hstream

/-! ### The round trip -/

theorem encryptedData_der {params data : Bytes}
    (h : (der 0x30 (protectorAlg params) ++ der 0x04 data).length < 2 ^ 32) :
    encryptedData (der 0x30 (der 0x30 (protectorAlg params) ++ der 0x04 data)) = .ok data := by
  generalize hinfo : der 0x30 (protectorAlg params) ++ der 0x04 data = info at h ⊢
  generalize hhead : derHead 0x30 info.length = head
  generalize halg : derHead 0x30 (protectorAlg params).length = algHead
  have hinner : (der 0x30 (protectorAlg params)).length + (der 0x04 data).length < 2 ^ 32 := by
    rw [← List.length_append, hinfo]
    exact h
  have halgLen : (protectorAlg params).length < 2 ^ 32 := by
    have := length_le_der 0x30 (protectorAlg params)
    omega
  have hdataLen : data.length < 2 ^ 32 := by
    have := length_le_der 0x04 data
    omega
  -- the same string, split in front of each of its four elements
  have h0 : der 0x30 info = [] ++ (der 0x30 info ++ []) := by
    rw [List.nil_append, List.append_nil]
  have h1 : der 0x30 info = head ++ (der 0x30 (protectorAlg params) ++ der 0x04 data) := by
    rw [hinfo, ← hhead, der]
  have h2 : der 0x30 info
      = head ++ algHead ++ (der 0x06 keyProtectorOid ++ (params ++ der 0x04 data)) := by
    rw [h1, der_eq 0x30 (protectorAlg params), halg, protectorAlg]
    simp only [List.append_assoc]
  have h3 : der 0x30 info
      = head ++ der 0x30 (protectorAlg params) ++ (der 0x04 data ++ []) := by
    rw [h1, List.append_nil, List.append_assoc]
  have e0 : derExpect (der 0x30 info) 0 0x30 = .ok (head.length, info.length) := by
    have := derExpect_der [] (show (0x30 : UInt8) &&& 0x1f ≠ 0x1f by decide) h []
    rwa [← h0, List.nil_append, hhead] at this
  have e1 : derExpect (der 0x30 info) head.length 0x30
      = .ok ((head ++ algHead).length, (protectorAlg params).length) := by
    rw [h1, derExpect_der head (by decide) halgLen, halg]
  have e2 : derExpect (der 0x30 info) (head ++ algHead).length 0x06
      = .ok ((head ++ algHead ++ derHead 0x06 keyProtectorOid.length).length,
          keyProtectorOid.length) := by
    rw [h2, derExpect_der (head ++ algHead) (by decide) (by decide)]
  have e3 : derExpect (der 0x30 info) ((head ++ algHead).length + (protectorAlg params).length) 0x04
      = .ok ((head ++ der 0x30 (protectorAlg params) ++ derHead 0x04 data.length).length,
          data.length) := by
    rw [← halg, length_der_append, h3, derExpect_der _ (by decide) hdataLen]
  have hoid := slice_der (head ++ algHead) 0x06 keyProtectorOid (params ++ der 0x04 data)
  have hdata := slice_der (head ++ der 0x30 (protectorAlg params)) 0x04 data []
  rw [← h2] at hoid
  rw [← h3] at hdata
  simp only [encryptedData, e0, e1, e2, e3, ok_bind, hoid, hdata]
  exact if_neg (fun hne => hne rfl)

theorem recoverKey_protectedData {H : Sha1} {protected_ salt plain : Bytes} {password : String}
    (hdata : encryptedData protected_
      = .ok (protectedData H (utf16be password) salt plain))
    (hsalt : salt.length = saltLen) (hplain : plain ≠ []) :
    recoverKey H protected_ password = .ok plain := by
  have hpos : 0 < plain.length := List.length_pos_iff.mpr hplain
  have hstream := length_keyStream H (utf16be password) salt plain.length
  have henc : (List.zipWith (· ^^^ ·) plain
      (keyStream H (utf16be password) salt plain.length)).length = plain.length := by
    rw [List.length_zipWith, Nat.min_eq_left hstream]
  have hcheck := H.length_hash (utf16be password ++ plain)
  have hdigest : digestLen = 20 := rfl
  rw [recoverKey, hdata, ok_bind]
  rw [protectedData]
  generalize hx : List.zipWith (· ^^^ ·) plain
    (keyStream H (utf16be password) salt plain.length) = x at henc ⊢
  have hlen : (salt ++ x ++ H.hash (utf16be password ++ plain)).length
      = saltLen + plain.length + digestLen := by
    rw [List.length_append, List.length_append, hsalt, henc, hcheck, hdigest]
  have hlen' : (salt ++ x).length = saltLen + plain.length := by
    rw [List.length_append, hsalt, henc]
  have h1 : slice (salt ++ x ++ H.hash (utf16be password ++ plain)) 0 saltLen = salt := by
    rw [slice_zero, List.append_assoc, ← hsalt, List.take_left]
  have h2 : slice (salt ++ x ++ H.hash (utf16be password ++ plain)) saltLen
      (saltLen + plain.length) = x := by
    rw [List.append_assoc, ← hsalt, slice_append_length, ← henc, List.take_left]
  have h3 : (salt ++ x ++ H.hash (utf16be password ++ plain)).drop (saltLen + plain.length)
      = H.hash (utf16be password ++ plain) := by
    rw [← hlen', List.drop_left]
  have hplain' := decryptLoop_protect H (utf16be password) salt plain x.length (by rw [henc])
  rw [hx] at hplain'
  simp only [hlen, Nat.add_sub_cancel, h1, h2, h3, hplain']
  rw [if_neg (by omega), if_neg (fun hne => hne rfl)]
  rfl

theorem recoverKey_stored {H : Sha1} {protected_ plain : Bytes} {password : String}
    (h : recoverKey H protected_ password = .ok plain) :
    ∃ data, encryptedData protected_ = .ok data ∧
      data.drop (data.length - digestLen) = H.hash (utf16be password ++ plain) := by
  rw [recoverKey, bind_eq_ok] at h
  obtain ⟨data, hdata, h⟩ := h
  split at h
  · cases h
  · simp only at h
    split at h
    · cases h
    · rename_i hcheck
      injection h with h
      rw [ne_eq, Decidable.not_not, h] at hcheck
      exact ⟨data, hdata, hcheck.symm⟩

/-- **`recover_key` inverts the key protector**, for keys and passwords of every length; and
whatever it returns, from any string, has the hash that is stored behind the key. -/
theorem recoverKey_protect (H : Sha1) :
    (∀ (password : String) (salt params plain : Bytes), plain ≠ [] → salt.length = saltLen →
      (protectedInfo H password salt params plain).length < 2 ^ 32 →
      recoverKey H (protect H password salt params plain) password = .ok plain) ∧
    ∀ (protected_ : Bytes) (password : String) (plain : Bytes),
      recoverKey H protected_ password = .ok plain →
      ∃ data, encryptedData protected_ = .ok data ∧
        data.drop (data.length - digestLen) = H.hash (utf16be password ++ plain) := by
  refine ⟨?_, fun _ _ _ h => recoverKey_stored h⟩
  intro password salt params plain hplain hsalt hlen
  exact recoverKey_protectedData (encryptedData_der hlen) hsalt hplain

theorem recoverKey_threeBytes : (List.replicate 20 7 : Bytes).length = saltLen ∧ ∀ H : Sha1,
    recoverKey H (protect H "pw" (List.replicate 20 7) [0x05, 0x00] [1, 2, 3]) "pw"
      = .ok [1, 2, 3] := by
  refine ⟨List.length_replicate, ?_⟩
  intro H
  refine (recoverKey_protect H).1 "pw" (List.replicate 20 7) [0x05, 0x00] [1, 2, 3]
    (List.cons_ne_nil _ _) List.length_replicate ?_
  have hdata := length_protectedData H (utf16be "pw") (List.replicate 20 7) [1, 2, 3]
  have h1 : (der 0x30 (protectorAlg [0x05, 0x00])).length = 16 := by decide
  have h2 := @length_der_le 0x04 (protectedData H (utf16be "pw") (List.replicate 20 7) [1, 2, 3])
    (by rw [hdata]; decide)
  rw [protectedInfo, List.length_append, h1]
  rw [hdata] at h2
  exact Nat.lt_of_le_of_lt (Nat.add_le_add_left h2 16) (by decide)

end FastSigner.Keys.Jks

import FastSigner.Sha256
import FastSigner.Lib.Kdf

/-!
# Key derivation on the SHA instructions

The two loops that bypass the streaming hasher and build the padded block of a
32-byte message by hand.

* `iterate_eq`: `ShaExt::iterate` is the iterated hash.
* `pbkdf2HmacSha256_eq`: `ShaExt::pbkdf2_hmac_sha256`, with the pads of the key
  absorbed once, is PBKDF2 over HMAC-SHA256.
-/

namespace FastSigner.Sha256

open Lib

/-- **Iterating on single blocks is iterating the hash.** -/
theorem iterate_eq (c : Compress) (n : Nat) :
    ∀ {x : Bytes}, x.length = 32 → iterate c x n = (hash c)^[n] x := by
  induction n with
  | zero => exact fun _ => rfl
  | succ n ih =>
    intro x hx
    have hpad : (0x80 :: List.replicate 29 0 ++ beBytes 2 256 : Bytes) = Sha2.padding 32 := by decide
    have hhash : stateBytes (compressBlocks c h0 (x ++ Sha2.padding 32)) = hash c x := by
      rw [hash_eq, hx]
    rw [iterate, List.append_assoc, hpad, hhash, ih (length_hash c x), Function.iterate_succ_apply]

/-! ### The precomputed pads -/

section Pads

variable {c : Compress} {pad : Bytes}

theorem absorbed_resume (hpad : pad.length = 64) :
    Absorbed c (resume (compressBlocks c h0 pad)) pad := by
  refine ⟨pad, ?_, ?_, Nat.zero_lt_succ 63, rfl, hpad.symm⟩
  · exact (List.append_nil pad).symm
  · rw [hpad]

theorem finish_resume (hpad : pad.length = 64) (m : Bytes) :
    finish c (update c (resume (compressBlocks c h0 pad)) m) = hash c (pad ++ m) :=
  ((absorbed_resume hpad).update m).finish

/-- The block built by hand holds the padding of 96 bytes. -/
theorem stateBytes_lastBlock (hpad : pad.length = 64) {d : Bytes} (hd : d.length = 32) :
    stateBytes (compressBlocks c (compressBlocks c h0 pad)
      (d ++ 0x80 :: List.replicate 29 0 ++ beBytes 2 768)) = hash c (pad ++ d) := by
  have hblock : (0x80 :: List.replicate 29 0 ++ beBytes 2 768 : Bytes) = Sha2.padding 96 := by decide
  rw [hash_eq, List.length_append, hpad, hd, ← compressBlocks_append c h0 _ (by rw [hpad]),
    List.append_assoc, List.append_assoc, hblock]

end Pads

/-! ### PBKDF2 -/

section Pbkdf2

variable {c : Compress} {ipad opad : Bytes}

theorem hmacStep_eq (hi : ipad.length = 64) (ho : opad.length = 64) {u : Bytes}
    (hu : u.length = 32) :
    hmacStep c (compressBlocks c h0 ipad) (compressBlocks c h0 opad) u
      = hash c (opad ++ hash c (ipad ++ u)) := by
  rw [hmacStep]
  simp only [stateBytes_lastBlock hi hu, stateBytes_lastBlock ho (length_hash c _)]

theorem pbkdf2Loop_eq (hi : ipad.length = 64) (ho : opad.length = 64) (n : Nat) :
    ∀ {u : Bytes} (t : Bytes), u.length = 32 →
      pbkdf2Loop c (compressBlocks c h0 ipad) (compressBlocks c h0 opad) n u t
        = (List.iterate (fun m => hash c (opad ++ hash c (ipad ++ m)))
            (hash c (opad ++ hash c (ipad ++ u))) n).foldl (List.zipWith (· ^^^ ·)) t := by
  induction n with
  | zero => exact fun _ _ => rfl
  | succ n ih =>
    intro u t hu
    rw [pbkdf2Loop]
    simp only [hmacStep_eq hi ho hu]
    rw [ih _ (length_hash c _), List.iterate, List.foldl_cons]

theorem pbkdf2Block_eq (hi : ipad.length = 64) (ho : opad.length = 64) (salt : Bytes)
    {iterations : Nat} (h : 1 ≤ iterations) (i : Nat) :
    pbkdf2Block c (compressBlocks c h0 ipad) (compressBlocks c h0 opad) salt iterations i
      = pbkdf2Sum (fun m => hash c (opad ++ hash c (ipad ++ m))) (salt ++ beBytes 4 (i + 1))
          iterations := by
  have hfirst : finish c (update c (update c (resume (compressBlocks c h0 ipad)) salt)
      (beBytes 4 (i + 1))) = hash c (ipad ++ (salt ++ beBytes 4 (i + 1))) := by
    rw [← List.append_assoc]
    exact (((absorbed_resume hi).update salt).update _).finish
  obtain ⟨n, rfl⟩ : ∃ n, iterations = n + 1 := ⟨iterations - 1, by omega⟩
  rw [pbkdf2Block]
  simp only [hfirst, finish_resume ho, Nat.add_sub_cancel]
  rw [pbkdf2Loop_eq hi ho n _ (length_hash c _), pbkdf2Sum, List.iterate, xorAll]

end Pbkdf2

theorem key_eq (c : Compress) (password : Bytes) :
    (if 64 < password.length then finish c (update c new password) ++ List.replicate 32 0
      else password ++ List.replicate (64 - password.length) 0)
      = hmacKey (hash c) 64 password := by
  rw [hmacKey]
  by_cases h : 64 < password.length
  · have hfinish : finish c (update c new password) = hash c password :=
      ((Absorbed.new c).update password).finish
    simp only [if_pos h, hfinish, length_hash]
  · simp only [if_neg h]

theorem take_flatMap_pbkdf2Block (c : Compress) (password salt : Bytes) {iterations : Nat}
    (h : 1 ≤ iterations) (n : Nat) :
    ((List.range ((n + 31) / 32)).flatMap (pbkdf2Block c
        (compressBlocks c h0 ((hmacKey (hash c) 64 password).map (· ^^^ 0x36)))
        (compressBlocks c h0 ((hmacKey (hash c) 64 password).map (· ^^^ 0x5c)))
        salt iterations)).take n
      = pbkdf2 (hmac (hash c) 64) 32 password salt iterations n := by
  have hkey : (hmacKey (hash c) 64 password).length = 64 :=
    length_hmacKey (fun m => by rw [length_hash]; decide) password
  rw [pbkdf2]
  congr 1
  refine List.flatMap_congr ?_
  intro i _
  exact pbkdf2Block_eq (by rw [List.length_map, hkey]) (by rw [List.length_map, hkey]) salt h i

/-- **`pbkdf2_hmac_sha256` is PBKDF2 over HMAC-SHA256**, for keys of every length. -/
theorem pbkdf2HmacSha256_eq (c : Compress) (password salt : Bytes) {iterations : Nat}
    (h : 1 ≤ iterations) (n : Nat) :
    pbkdf2HmacSha256 c password salt iterations n
      = pbkdf2 (hmac (hash c) 64) 32 password salt iterations n := by
  rw [pbkdf2HmacSha256, key_eq c password]
  exact take_flatMap_pbkdf2Block c password salt h n

theorem pbkdf2HmacSha256_longKey : 64 < (List.replicate 65 7 : Bytes).length ∧ ∀ c : Compress,
    pbkdf2HmacSha256 c (List.replicate 65 7) [1, 2, 3, 4] 3 40
      = pbkdf2 (hmac (hash c) 64) 32 (List.replicate 65 7) [1, 2, 3, 4] 3 40 :=
  ⟨by decide, fun c => pbkdf2HmacSha256_eq c (List.replicate 65 7) [1, 2, 3, 4] (by decide) 40⟩

end FastSigner.Sha256

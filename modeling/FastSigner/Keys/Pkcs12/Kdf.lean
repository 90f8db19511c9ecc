import FastSigner.Sha256.Kdf
import FastSigner.Keys.Pkcs12

/-!
# The key derivation of the MAC

`pkcs12_kdf` computes the derivation of RFC 7292 appendix B.2: the strings are
filled up index by index, the blocks of `I` are increased byte by byte with a
carry, and SHA-256 is iterated on the SHA instructions where the CPU has them.

* `kdfAddBytes_eq`: one block becomes `I_j + B + 1` modulo `2^(8v)`.
* `kdfLoop_eq`: the loop appends the blocks that are still missing.
* `pkcs12Kdf_eq`: the result, on the SHA instructions and without them.
-/

namespace FastSigner.Keys.Pkcs12

open Lib

/-- The SHA instructions compute the same SHA-256 as the hash library. -/
def Prims.ExtAgrees (P : Prims) : Prop :=
  ∀ c, P.ext = some c → P.digest .sha256 = Sha256.hash c

theorem Hash.outputLen_pos (alg : Hash) : 0 < alg.outputLen := by cases alg <;> decide

theorem Hash.blockLen_pos (alg : Hash) : 0 < alg.blockLen := by cases alg <;> decide

theorem kdfFill_eq {v : Nat} (hv : 0 < v) (s : Bytes) :
    kdfFill v s = cyclic s (v * chunkCount v s.length) := by
  rw [kdfFill]
  refine map_range_cyclic s ?_
  intro hs
  rw [hs, List.length_nil, Nat.zero_add, Nat.div_eq_of_lt (by omega), Nat.mul_zero]

theorem dvd_length_kdfFill {v : Nat} (s : Bytes) : v ∣ (kdfFill v s).length := by
  rw [kdfFill, List.length_map, List.length_range]
  exact Nat.dvd_mul_right v _

theorem kdfAddBytes_eq (a block : Bytes) (ha : a ≠ []) :
    kdfAddBytes a block = addBlock block.length a block := by
  have hdigits : kdfAddBytes a block
      = (addDigits (fun k => block.getD k 0) (fun k => a.getD (k % a.length) 0) 1
          (List.range block.length)).1 := rfl
  have hblock : (List.range block.length).map (fun k => block.getD k 0) = block := by
    apply List.ext_getElem?
    intro k
    by_cases hk : k < block.length
    · rw [List.getElem?_map, List.getElem?_range hk, Option.map_some,
        List.getD_eq_getElem?_getD, List.getElem?_eq_getElem hk, Option.getD_some]
    · rw [List.getElem?_eq_none (by rw [List.length_map, List.length_range]; omega),
        List.getElem?_eq_none (by omega)]
  rw [hdigits, addDigits_eq, hblock, map_range_cyclic a (fun h => absurd h ha), List.length_range,
    addBlock]

theorem kdfIterate_eq {P : Prims} (hP : P.ExtAgrees) (alg : Hash) {a : Bytes}
    (ha : a.length = alg.outputLen) (n : Nat) : kdfIterate P alg a n = (P.digest alg)^[n] a := by
  rw [kdfIterate]
  cases hext : P.ext with
  | none => rfl
  | some c =>
    by_cases halg : alg = .sha256
    · subst halg
      simp only [if_true]
      rw [Sha256.iterate_eq c n ha, hP c hext]
    · simp only [if_neg halg]

section Loop

variable {P : Prims} {alg : Hash} {id : UInt8} {iterations : Nat}

theorem length_kdfHash (hit : 1 ≤ iterations) (I : Bytes) :
    (kdfHash (P.digest alg) alg.blockLen id iterations I).length = alg.outputLen := by
  obtain ⟨n, rfl⟩ : ∃ n, iterations = n + 1 := ⟨iterations - 1, by omega⟩
  rw [kdfHash, Function.iterate_succ_apply']
  exact P.length_digest alg _

theorem kdfIterate_first (hP : P.ExtAgrees) (hit : 1 ≤ iterations) (I : Bytes) :
    kdfIterate P alg (P.digest alg (List.replicate alg.blockLen id ++ I)) (iterations - 1)
      = kdfHash (P.digest alg) alg.blockLen id iterations I := by
  obtain ⟨n, rfl⟩ : ∃ n, iterations = n + 1 := ⟨iterations - 1, by omega⟩
  rw [kdfIterate_eq hP alg (P.length_digest alg _), kdfHash, Function.iterate_succ_apply,
    Nat.add_sub_cancel]

theorem flatMap_kdfAddBytes {v : Nat} (hv : 0 < v) {a I : Bytes} (ha : a ≠ []) (hI : v ∣ I.length) :
    (chunks v I).flatMap (kdfAddBytes a) = (chunks v I).flatMap (addBlock v a) ∧
      v ∣ ((chunks v I).flatMap (addBlock v a)).length := by
  constructor
  · refine List.flatMap_congr ?_
    intro block hb
    rw [kdfAddBytes_eq a block ha, length_of_mem_chunks hv hI hb]
  · have hlen : ∀ l ∈ (chunks v I).map (addBlock v a), l.length = v := by
      intro l hl
      obtain ⟨block, -, rfl⟩ := List.mem_map.mp hl
      rw [addBlock, length_beBytes]
    rw [List.flatMap_def, length_flatten_of_length hlen]
    exact Nat.dvd_mul_left v _

/-- **The loop appends the missing bytes**, as many blocks as they need. -/
theorem kdfLoop_eq (hP : P.ExtAgrees) (hit : 1 ≤ iterations) (n : Nat) :
    ∀ (fuel : Nat) (I out : Bytes), n - out.length < fuel → out.length ≤ n →
      alg.blockLen ∣ I.length →
      kdfLoop P alg id iterations n fuel I out
        = out ++ (kdfBlocks (P.digest alg) alg.blockLen id iterations
            (chunkCount alg.outputLen (n - out.length)) I).take (n - out.length) := by
  intro fuel
  induction fuel with
  | zero =>
    intro I out hfuel
    omega
  | succ fuel ih =>
    intro I out hfuel hout hI
    have hu := alg.outputLen_pos
    have hlen : (kdfHash (P.digest alg) alg.blockLen id iterations I).length = alg.outputLen :=
      length_kdfHash hit I
    rw [kdfLoop]
    simp only [kdfIterate_first hP hit]
    generalize hA : kdfHash (P.digest alg) alg.blockLen id iterations I = a at hlen ⊢
    generalize hr : n - out.length = r at hfuel ⊢
    have htake : (a.take (min alg.outputLen r)).length = min alg.outputLen r := by
      rw [List.length_take, hlen]
      omega
    rw [List.length_append, htake]
    by_cases hlast : r ≤ alg.outputLen
    · -- the last block, of which the first `r` bytes are needed
      rw [if_pos (by omega), Nat.min_eq_right hlast]
      congr 1
      by_cases hzero : r = 0
      · rw [hzero, List.take_zero, List.take_zero]
      · rw [chunkCount_of_le (by omega) hlast, kdfBlocks, hA, kdfBlocks, List.append_nil]
    · have hne : a ≠ [] := by
        intro h
        rw [h, List.length_nil] at hlen
        omega
      obtain ⟨hblocks, hdvd⟩ := flatMap_kdfAddBytes alg.blockLen_pos hne hI
      have hsplit : r = alg.outputLen + (r - alg.outputLen) := by omega
      have hrest : n - (out ++ a).length = r - alg.outputLen := by
        rw [List.length_append, hlen]
        omega
      rw [if_neg (by omega), Nat.min_eq_left (by omega), ← hlen, List.take_length, hblocks,
        ih _ _ (by rw [hrest]; omega) (by rw [List.length_append, hlen]; omega) hdvd, hrest,
        List.append_assoc]
      congr 1
      rw [hlen]
      conv_rhs => rw [hsplit, chunkCount_add hu, kdfBlocks, hA]
      rw [← hlen, List.take_length_add_append]

end Loop

/-- **`pkcs12_kdf` is the key derivation of RFC 7292**, for every hash function, strings of every
length and any number of output blocks; with the SHA instructions and without them the bytes are
the same. -/
theorem pkcs12Kdf_eq {P : Prims} (hP : P.ExtAgrees) (alg : Hash) (pass salt : Bytes) (id : UInt8)
    {iterations : Nat} (hit : 1 ≤ iterations) (n : Nat) :
    pkcs12Kdf P alg pass salt id iterations n
        = rfc7292Kdf (P.digest alg) alg.blockLen id iterations alg.outputLen pass salt n ∧
      pkcs12Kdf P alg pass salt id iterations n
        = pkcs12Kdf { P with ext := none } alg pass salt id iterations n := by
  have hgen : ∀ {Q : Prims}, Q.ExtAgrees → pkcs12Kdf Q alg pass salt id iterations n
      = rfc7292Kdf (Q.digest alg) alg.blockLen id iterations alg.outputLen pass salt n := by
    intro Q hQ
    have hdvd : alg.blockLen ∣
        (kdfFill alg.blockLen salt ++ kdfFill alg.blockLen pass).length := by
      rw [List.length_append]
      exact Nat.dvd_add (dvd_length_kdfFill salt) (dvd_length_kdfFill pass)
    rw [pkcs12Kdf, kdfLoop_eq hQ hit n (n + 1) _ [] (Nat.lt_succ_of_le (Nat.sub_le n 0))
      (Nat.zero_le n) hdvd, rfc7292Kdf, kdfFill_eq alg.blockLen_pos, kdfFill_eq alg.blockLen_pos, List.length_nil,
      Nat.sub_zero, List.nil_append]
  have hnone : ({ P with ext := none } : Prims).ExtAgrees := by
    intro c hc
    cases hc
  exact ⟨hgen hP, (hgen hP).trans (hgen hnone).symm⟩

/-- The primitives on a CPU whose SHA instructions compress with `c`. -/
def Prims.withSha256 (P : Prims) (c : Sha256.Compress) : Prims where
  digest alg m := if alg = .sha256 then Sha256.hash c m else P.digest alg m
  length_digest := by
    intro alg m
    split
    · rename_i h
      rw [h]
      exact Sha256.length_hash c m
    · exact P.length_digest alg m
  hmac := P.hmac
  pbkdf2 := P.pbkdf2
  aesCbcDecrypt := P.aesCbcDecrypt
  length_aesCbcDecrypt := P.length_aesCbcDecrypt
  toLowercase := P.toLowercase
  ext := some c

theorem Prims.extAgrees_withSha256 (P : Prims) (c : Sha256.Compress) :
    (P.withSha256 c).ExtAgrees := by
  intro c' hc'
  obtain rfl : c = c' := Option.some.inj hc'
  rfl

/-- Two blocks of output, the second of them cut, and no salt at all. -/
theorem pkcs12Kdf_twoBlocks : bmpPassword "a" = [0, 97, 0, 0] ∧
    ∀ (P : Prims) (c : Sha256.Compress),
      pkcs12Kdf (P.withSha256 c) .sha256 (bmpPassword "a") [] 3 2 40
        = rfc7292Kdf (Sha256.hash c) 64 3 2 32 [0, 97, 0, 0] [] 40 := by
  have hpass : bmpPassword "a" = [0, 97, 0, 0] := by decide
  refine ⟨hpass, ?_⟩
  intro P c
  rw [(pkcs12Kdf_eq (P.extAgrees_withSha256 c) .sha256 (bmpPassword "a") [] 3
    (show 1 ≤ 2 by decide) 40).1, hpass]
  rfl

end FastSigner.Keys.Pkcs12

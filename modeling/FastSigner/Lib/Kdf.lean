import FastSigner.Lib.Chunks
import Mathlib.Data.List.Iterate

/-!
# Message authentication and key derivation over a hash function

Three standard constructions over a hash function `H` on byte strings, written
the way their documents define them:

* `hmac` is RFC 2104, for a hash function with blocks of `v` bytes;
* `pbkdf2` is RFC 8018 §5.2, over any pseudorandom function;
* `rfc7292Kdf` is RFC 7292 appendix B.2.

The lemmas are about the two pieces of the last one that programs compute in
their own way: strings repeated up to a length, and blocks added as numbers.
-/

namespace Lib

/-! ### HMAC -/

/-- The key of one block: a longer key is hashed, a shorter one filled up with zeros. -/
def hmacKey (H : Bytes → Bytes) (v : Nat) (key : Bytes) : Bytes :=
  let k := if v < key.length then H key else key
  k ++ List.replicate (v - k.length) 0

def hmac (H : Bytes → Bytes) (v : Nat) (key m : Bytes) : Bytes :=
  H ((hmacKey H v key).map (· ^^^ 0x5c) ++ H ((hmacKey H v key).map (· ^^^ 0x36) ++ m))

theorem length_hmacKey {H : Bytes → Bytes} {v : Nat} (hH : ∀ m, (H m).length ≤ v) (key : Bytes) :
    (hmacKey H v key).length = v := by
  have hle : (if v < key.length then H key else key).length ≤ v := by
    split
    · exact hH key
    · omega
  rw [hmacKey, List.length_append, List.length_replicate]
  omega

/-! ### PBKDF2 -/

def xorAll : List Bytes → Bytes
  | [] => []
  | u :: us => us.foldl (List.zipWith (· ^^^ ·)) u

/-- `U_1 ⊕ … ⊕ U_c`, where `U_1` is the value at `s` and every other term the value at the term
before it. -/
def pbkdf2Sum (prf : Bytes → Bytes) (s : Bytes) (c : Nat) : Bytes :=
  xorAll (List.iterate prf (prf s) c)

/-- The first `n` bytes of the blocks `T_1, T_2, …`, each of `hLen` bytes. -/
def pbkdf2 (prf : (password m : Bytes) → Bytes) (hLen : Nat) (password salt : Bytes) (c n : Nat) :
    Bytes :=
  ((List.range (chunkCount hLen n)).flatMap fun i =>
    pbkdf2Sum (prf password) (salt ++ beBytes 4 (i + 1)) c).take n

theorem length_foldl_xor {n : Nat} :
    ∀ {us : List Bytes} {t : Bytes}, t.length = n → (∀ u ∈ us, u.length = n) →
      (us.foldl (List.zipWith (· ^^^ ·)) t).length = n := by
  intro us
  induction us with
  | nil => exact fun ht _ => ht
  | cons u us ih =>
    intro t ht h
    refine ih ?_ fun v hv => h v (List.mem_cons_of_mem _ hv)
    rw [List.length_zipWith, ht, h u List.mem_cons_self, Nat.min_self]

theorem length_pbkdf2Sum {prf : Bytes → Bytes} {hLen : Nat} (hprf : ∀ m, (prf m).length = hLen)
    (s : Bytes) {c : Nat} (hc : 1 ≤ c) : (pbkdf2Sum prf s c).length = hLen := by
  obtain ⟨c, rfl⟩ := Nat.exists_eq_add_of_le' hc
  have hall : ∀ (n : Nat) (a : Bytes), a.length = hLen → ∀ u ∈ List.iterate prf a n, u.length = hLen := by
    intro n
    induction n with
    | zero => exact fun _ _ u hu => by cases hu
    | succ n ih =>
      intro a ha u hu
      rcases List.mem_cons.mp hu with rfl | hu
      · exact ha
      · exact ih _ (hprf a) u hu
  rw [pbkdf2Sum, List.iterate, xorAll]
  exact length_foldl_xor (hprf s) (hall c _ (hprf _))

/-- **PBKDF2 fills its output.** -/
theorem length_pbkdf2 {prf : (password m : Bytes) → Bytes} {hLen : Nat} (hpos : 0 < hLen)
    (hprf : ∀ password m, (prf password m).length = hLen) (password salt : Bytes) {c : Nat} (hc : 1 ≤ c)
    (n : Nat) : (pbkdf2 prf hLen password salt c n).length = n := by
  have hblocks : ∀ l ∈ (List.range (chunkCount hLen n)).map
      fun i => pbkdf2Sum (prf password) (salt ++ beBytes 4 (i + 1)) c, l.length = hLen := by
    intro l hl
    obtain ⟨i, -, rfl⟩ := List.mem_map.mp hl
    exact length_pbkdf2Sum (hprf password) _ hc
  have hle : n ≤ chunkCount hLen n * hLen := le_chunkCount_mul hpos n
  rw [pbkdf2, List.length_take, List.flatMap_def, length_flatten_of_length hblocks, List.length_map,
    List.length_range, Nat.min_eq_left hle]

/-! ### Repeating a string -/

def cyclic (s : Bytes) (n : Nat) : Bytes := (List.replicate n s).flatten.take n

theorem length_cyclic {s : Bytes} (hs : s ≠ []) (n : Nat) : (cyclic s n).length = n := by
  have hpos : 0 < s.length := List.length_pos_iff.mpr hs
  have hle : n ≤ n * s.length := Nat.le_mul_of_pos_right n hpos
  rw [cyclic, List.length_take, length_flatten_of_length (n := s.length)
    (fun l hl => by rw [List.eq_of_mem_replicate hl]), List.length_replicate]
  omega

theorem getElem?_cyclic {s : Bytes} {i n : Nat} (h : i < n) :
    (cyclic s n)[i]? = s[i % s.length]? := by
  by_cases hs : s = []
  · rw [hs, cyclic, List.flatten_replicate_nil, List.take_nil]
    rfl
  have hpos : 0 < s.length := List.length_pos_iff.mpr hs
  have hdiv : i / s.length < n := Nat.lt_of_le_of_lt (Nat.div_le_self _ _) h
  -- position `i` lies in the copy with number `i / s.length`
  have hcopy : slice (List.replicate n s).flatten (i / s.length * s.length)
      (i / s.length * s.length + s.length) = s := by
    refine slice_flatten_of_length (fun l hl => by rw [List.eq_of_mem_replicate hl]) ?_
    rw [List.getElem?_replicate, if_pos hdiv]
  have hmod : i % s.length < s.length := Nat.mod_lt _ hpos
  have hi : i / s.length * s.length + i % s.length = i := by
    rw [Nat.mul_comm]
    exact Nat.div_add_mod i s.length
  rw [cyclic, List.getElem?_take, if_pos h]
  nth_rewrite 2 [← hcopy]
  rw [getElem?_slice, if_pos (by omega), hi]

theorem map_range_cyclic (s : Bytes) {n : Nat} (h : s = [] → n = 0) :
    (List.range n).map (fun i => s.getD (i % s.length) 0) = cyclic s n := by
  by_cases hs : s = []
  · rw [h hs]
    rfl
  have hpos : 0 < s.length := List.length_pos_iff.mpr hs
  apply List.ext_getElem?
  intro i
  by_cases hi : i < n
  · have hmod : i % s.length < s.length := Nat.mod_lt _ hpos
    rw [getElem?_cyclic hi, List.getElem?_map, List.getElem?_range hi, Option.map_some,
      List.getD_eq_getElem?_getD, List.getElem?_eq_getElem hmod, Option.getD_some]
  · rw [List.getElem?_eq_none (by rw [List.length_map, List.length_range]; omega),
      List.getElem?_eq_none (by rw [length_cyclic hs]; omega)]

/-! ### Adding blocks as numbers -/

/-- `I_j + B + 1` modulo `2^(8v)`, where `B` is `a` repeated to the `v` bytes of a block. -/
def addBlock (v : Nat) (a block : Bytes) : Bytes :=
  beBytes v (beNat block + beNat (cyclic a v) + 1)

/-- Schoolbook addition of the numbers with the digits `p k` and `q k`, the carry coming in from
the right. -/
def addDigits (p q : Nat → UInt8) (carry : Nat) (ks : List Nat) : Bytes × Nat :=
  ks.foldr (fun k acc =>
    let s := (p k).toNat + (q k).toNat + acc.2
    (UInt8.ofNat s :: acc.1, s / 256)) ([], carry)

theorem length_addDigits (p q : Nat → UInt8) (carry : Nat) (ks : List Nat) :
    (addDigits p q carry ks).1.length = ks.length := by
  induction ks with
  | nil => rfl
  | cons k ks ih =>
    rw [addDigits, List.foldr_cons] at *
    simp only [List.length_cons, ih]

/-- **The digits and the last carry make up the sum.** -/
theorem beNat_addDigits (p q : Nat → UInt8) (carry : Nat) (ks : List Nat) :
    (addDigits p q carry ks).2 * 256 ^ ks.length + beNat (addDigits p q carry ks).1
      = beNat (ks.map p) + beNat (ks.map q) + carry := by
  induction ks with
  | nil =>
    simp only [addDigits, List.foldr_nil, List.length_nil, List.map_nil, beNat_nil]
    omega
  | cons k ks ih =>
    have hlen := length_addDigits p q carry ks
    have hcons : addDigits p q carry (k :: ks)
        = (UInt8.ofNat ((p k).toNat + (q k).toNat + (addDigits p q carry ks).2)
            :: (addDigits p q carry ks).1,
          ((p k).toNat + (q k).toNat + (addDigits p q carry ks).2) / 256) := rfl
    rw [hcons]
    simp only [List.map_cons, List.length_cons, beNat_cons, List.length_map, hlen,
      UInt8.toNat_ofNat']
    generalize (addDigits p q carry ks).2 = c at *
    generalize hs : (p k).toNat + (q k).toNat + c = s
    have hdiv := Nat.div_add_mod s 256
    calc s / 256 * 256 ^ (ks.length + 1)
          + (s % 256 * 256 ^ ks.length + beNat (addDigits p q carry ks).1)
        = (256 * (s / 256) + s % 256) * 256 ^ ks.length + beNat (addDigits p q carry ks).1 := by
          rw [Nat.pow_succ, Nat.mul_comm (256 ^ ks.length) 256, ← Nat.mul_assoc,
            Nat.mul_comm (s / 256) 256, ← Nat.add_assoc, ← Nat.add_mul]
      _ = s * 256 ^ ks.length + beNat (addDigits p q carry ks).1 := by rw [hdiv]
      _ = ((p k).toNat + (q k).toNat) * 256 ^ ks.length
          + (c * 256 ^ ks.length + beNat (addDigits p q carry ks).1) := by
          rw [← hs, Nat.add_mul _ c, Nat.add_assoc]
      _ = (p k).toNat * 256 ^ ks.length + beNat (ks.map p)
          + ((q k).toNat * 256 ^ ks.length + beNat (ks.map q)) + carry := by
          rw [ih, Nat.add_mul]
          omega

theorem addDigits_eq (p q : Nat → UInt8) (carry : Nat) (ks : List Nat) :
    (addDigits p q carry ks).1 = beBytes ks.length (beNat (ks.map p) + beNat (ks.map q) + carry) := by
  rw [← beNat_addDigits p q carry ks, ← beBytes_mod, Nat.mul_add_mod_self_right]
  have hlt := beNat_lt (addDigits p q carry ks).1
  rw [length_addDigits] at hlt
  rw [Nat.mod_eq_of_lt hlt]
  have h := beBytes_beNat (addDigits p q carry ks).1
  rw [length_addDigits] at h
  exact h.symm

/-! ### The key derivation of PKCS#12 -/

section Pkcs12

variable (H : Bytes → Bytes) (v : Nat) (id : UInt8) (iterations : Nat)

/-- `A_i = H^iterations(D ‖ I)`, with `D` the block of `id`s. -/
def kdfHash (I : Bytes) : Bytes := H^[iterations] (List.replicate v id ++ I)

/-- `A_1 ‖ … ‖ A_c`; after each of them every block of `I` is increased. -/
def kdfBlocks : Nat → Bytes → Bytes
  | 0, _ => []
  | c + 1, I =>
    let a := kdfHash H v id iterations I
    a ++ kdfBlocks c ((chunks v I).flatMap (addBlock v a))

/-- The first `n` bytes, for a hash function with `u` bytes of output and blocks of `v` bytes. -/
def rfc7292Kdf (u : Nat) (pass salt : Bytes) (n : Nat) : Bytes :=
  let fill (s : Bytes) : Bytes := cyclic s (v * chunkCount v s.length)
  (kdfBlocks H v id iterations (chunkCount u n) (fill salt ++ fill pass)).take n

end Pkcs12

end Lib

import FastSigner.Lib.Chunks
import Mathlib.Data.List.GetD
import Mathlib.Logic.Function.Iterate

/-!
# SHA-256

FIPS 180-4: the functions of §4.1.2, the constants of §4.2.2, the padding of §5.1.1,
the initial hash value of §5.3.3, and the hash computation of §6.2.2, for one block of
sixteen words and for a message.

* `word_add`: the recurrence of the message schedule.
* `rounds_add_four`: rounds in groups of four.
-/

namespace Lib.Sha2

/-! ### Functions and constants -/

def rotr (n x : UInt32) : UInt32 := x >>> n ||| x <<< (32 - n)

def ch (x y z : UInt32) : UInt32 := (x &&& y) ^^^ (~~~x &&& z)

def maj (x y z : UInt32) : UInt32 := (x &&& y) ^^^ (x &&& z) ^^^ (y &&& z)

def bigSigma0 (x : UInt32) : UInt32 := rotr 2 x ^^^ rotr 13 x ^^^ rotr 22 x

def bigSigma1 (x : UInt32) : UInt32 := rotr 6 x ^^^ rotr 11 x ^^^ rotr 25 x

def smallSigma0 (x : UInt32) : UInt32 := rotr 7 x ^^^ rotr 18 x ^^^ x >>> 3

def smallSigma1 (x : UInt32) : UInt32 := rotr 17 x ^^^ rotr 19 x ^^^ x >>> 10

/-- The `d`-th root of `n`, rounded down: `r` and as many of the `b` lower bits as fit. -/
def rootFrom (d n : Nat) : (b r : Nat) → Nat
  | 0, r => r
  | b + 1, r => if (r + 2 ^ b) ^ d ≤ n then rootFrom d n b (r + 2 ^ b) else rootFrom d n b r

theorem rootFrom_spec {d n : Nat} :
    ∀ {b r : Nat}, r ^ d ≤ n → n < (r + 2 ^ b) ^ d →
      rootFrom d n b r ^ d ≤ n ∧ n < (rootFrom d n b r + 1) ^ d := by
  intro b
  induction b with
  | zero =>
    intro r hle hlt
    exact ⟨hle, hlt⟩
  | succ b ih =>
    intro r hle hlt
    rw [rootFrom]
    by_cases hbit : (r + 2 ^ b) ^ d ≤ n
    · rw [if_pos hbit]
      apply ih hbit
      rwa [Nat.add_assoc, ← Nat.two_mul, ← Nat.pow_succ']
    · rw [if_neg hbit]
      exact ih hle (Nat.lt_of_not_le hbit)

/-- The first 64 primes. -/
def primes : List Nat :=
  [2, 3, 5, 7, 11, 13, 17, 19, 23, 29, 31, 37, 41, 43, 47, 53, 59, 61, 67, 71, 73, 79, 83, 89, 97,
    101, 103, 107, 109, 113, 127, 131, 137, 139, 149, 151, 157, 163, 167, 173, 179, 181, 191, 193,
    197, 199, 211, 223, 227, 229, 233, 239, 241, 251, 257, 263, 269, 271, 277, 281, 283, 293, 307,
    311]

/-- The constants: the first 32 bits of the fractional parts of the cube roots of the primes. -/
def constants : List UInt32 := primes.map fun p => UInt32.ofNat (rootFrom 3 (p * 2 ^ 96) 36 0)

/-- With 32 binary places, the roots are rounded down. -/
theorem root_of_mem_primes {p : Nat} (hp : p ∈ primes) :
    rootFrom 3 (p * 2 ^ 96) 36 0 ^ 3 ≤ p * 2 ^ 96
      ∧ p * 2 ^ 96 < (rootFrom 3 (p * 2 ^ 96) 36 0 + 1) ^ 3 := by
  have hlt : ∀ q ∈ primes, q < 2 ^ 12 := by decide
  have := hlt p hp
  apply rootFrom_spec
  · omega
  · omega

def constant (t : Nat) : UInt32 := constants.getD t 0

/-! ### The message schedule -/

def extend (w : List UInt32) : List UInt32 :=
  let t := w.length
  w ++ [smallSigma1 (w.getD (t - 2) 0) + w.getD (t - 7) 0 + smallSigma0 (w.getD (t - 15) 0)
    + w.getD (t - 16) 0]

/-- The 64 words for a block. -/
def schedule (m : List UInt32) : List UInt32 := extend^[48] m

def word (m : List UInt32) (t : Nat) : UInt32 := (schedule m).getD t 0

theorem length_iterate_extend (m : List UInt32) (n : Nat) :
    (extend^[n] m).length = m.length + n := by
  induction n with
  | zero => rfl
  | succ n ih =>
    rw [Function.iterate_succ_apply', extend, List.length_append, ih]
    rfl

theorem getD_iterate_extend (m : List UInt32) {n t : Nat} (ht : t < m.length + n) :
    ∀ k, (extend^[n + k] m).getD t 0 = (extend^[n] m).getD t 0 := by
  intro k
  induction k with
  | zero => rfl
  | succ k ih =>
    rw [← Nat.add_assoc, Function.iterate_succ_apply', extend, List.getD_append _ _ _ _
      (by rw [length_iterate_extend]; omega), ih]

theorem word_of_lt {m : List UInt32} {t : Nat} (ht : t < m.length) : word m t = m.getD t 0 :=
  getD_iterate_extend m (show t < m.length + 0 by omega) 48

/-- **The recurrence of the schedule.** -/
theorem word_add {m : List UInt32} (hm : m.length = 16) {t : Nat} (ht : t < 48) :
    word m (t + 16)
      = smallSigma1 (word m (t + 14)) + word m (t + 9) + smallSigma0 (word m (t + 1)) + word m t := by
  have hlen := length_iterate_extend m t
  have hword : ∀ {n j : Nat}, n ≤ 48 → j < m.length + n →
      word m j = (extend^[n] m).getD j 0 := by
    intro n j hn hj
    have := getD_iterate_extend m hj (48 - n)
    rwa [show n + (48 - n) = 48 by omega] at this
  rw [hword (show t + 1 ≤ 48 by omega) (by omega), hword (show t ≤ 48 by omega)
    (show t + 14 < m.length + t by omega), hword (show t ≤ 48 by omega)
    (show t + 9 < m.length + t by omega), hword (show t ≤ 48 by omega)
    (show t + 1 < m.length + t by omega), hword (show t ≤ 48 by omega)
    (show t < m.length + t by omega), Function.iterate_succ_apply', extend]
  rw [List.getD_append_right _ _ _ _ (by omega), hlen, hm, show t + 16 - (16 + t) = 0 by omega,
    show 16 + t - 2 = t + 14 by omega, show 16 + t - 7 = t + 9 by omega,
    show 16 + t - 15 = t + 1 by omega, show 16 + t - 16 = t by omega]
  rfl

/-! ### The rounds -/

structure Working where
  a : UInt32
  b : UInt32
  c : UInt32
  d : UInt32
  e : UInt32
  f : UInt32
  g : UInt32
  h : UInt32
  deriving DecidableEq, Repr

def round (v : Working) (k w : UInt32) : Working :=
  let t1 := v.h + bigSigma1 v.e + ch v.e v.f v.g + k + w
  let t2 := bigSigma0 v.a + maj v.a v.b v.c
  ⟨t1 + t2, v.a, v.b, v.c, v.d + t1, v.e, v.f, v.g⟩

def rounds (m : List UInt32) : (n : Nat) → Working → Working
  | 0, v => v
  | n + 1, v => round (rounds m n v) (constant n) (word m n)

theorem rounds_add_four (m : List UInt32) (n : Nat) (v : Working) :
    rounds m (n + 4) v
      = round (round (round (round (rounds m n v) (constant n) (word m n))
          (constant (n + 1)) (word m (n + 1))) (constant (n + 2)) (word m (n + 2)))
          (constant (n + 3)) (word m (n + 3)) := rfl

def Working.add (v w : Working) : Working :=
  ⟨v.a + w.a, v.b + w.b, v.c + w.c, v.d + w.d, v.e + w.e, v.f + w.f, v.g + w.g, v.h + w.h⟩

def Working.ofState (s : Vector UInt32 8) : Working := ⟨s[0], s[1], s[2], s[3], s[4], s[5], s[6], s[7]⟩

def Working.toState (v : Working) : Vector UInt32 8 := #v[v.a, v.b, v.c, v.d, v.e, v.f, v.g, v.h]

@[simp] theorem Working.ofState_toState (v : Working) : Working.ofState v.toState = v := rfl

@[simp] theorem Working.toState_ofState (s : Vector UInt32 8) : (Working.ofState s).toState = s := by
  apply Vector.ext
  intro i hi
  obtain rfl | rfl | rfl | rfl | rfl | rfl | rfl | rfl :
    i = 0 ∨ i = 1 ∨ i = 2 ∨ i = 3 ∨ i = 4 ∨ i = 5 ∨ i = 6 ∨ i = 7 := by omega
  all_goals rfl

/-- The next hash value, for a block of sixteen words. -/
def compressWords (s : Vector UInt32 8) (m : List UInt32) : Vector UInt32 8 :=
  ((rounds m 64 (Working.ofState s)).add (Working.ofState s)).toState

def blockWords (b : Bytes) : List UInt32 :=
  (List.range 16).map fun t => UInt32.ofNat (beNat (slice b (4 * t) (4 * t + 4)))

/-- **The compression function**: the next hash value, for a block of 64 bytes. -/
def compress (s : Vector UInt32 8) (b : Bytes) : Vector UInt32 8 := compressWords s (blockWords b)

/-! ### Hashing a message -/

/-- The initial hash value: the first 32 bits of the fractional parts of the square roots of the first
eight primes. -/
def initial : Vector UInt32 8 :=
  ⟨((primes.take 8).map fun p => UInt32.ofNat (rootFrom 2 (p * 2 ^ 64) 36 0)).toArray, rfl⟩

/-- How many zero bits there are between a message of `l` bits, with one bit more, and its length. -/
def zeroBits (l : Nat) : Nat := (448 + 512 - (l + 1) % 512) % 512

theorem zeroBits_spec (l : Nat) : (l + 1 + zeroBits l) % 512 = 448 ∧ zeroBits l < 512 := by
  rw [zeroBits]
  omega

/-- What is appended to a message of `n` bytes.  The one and the first seven of the zeros are a byte. -/
def padding (n : Nat) : Bytes :=
  0x80 :: List.replicate ((zeroBits (8 * n) - 7) / 8) 0 ++ beBytes 8 (8 * n)

theorem length_padding (n : Nat) : (n + (padding n).length) % 64 = 0 := by
  have hspec := zeroBits_spec (8 * n)
  simp only [padding, List.length_append, List.length_cons, List.length_replicate, length_beBytes]
  omega

/-- The bytes of a word, the highest first. -/
def wordBytes (w : UInt32) : Bytes :=
  [(w >>> 24).toUInt8, (w >>> 16).toUInt8, (w >>> 8).toUInt8, w.toUInt8]

def digestBytes (s : Vector UInt32 8) : Bytes := s.toList.flatMap wordBytes

/-- The hash of a message, over a compression function. -/
def hashWith (c : Vector UInt32 8 → Bytes → Vector UInt32 8) (m : Bytes) : Bytes :=
  digestBytes ((chunks 64 (m ++ padding m.length)).foldl c initial)

/-- The value of `abc`. -/
example : hashWith compress [0x61, 0x62, 0x63]
    = [0xba, 0x78, 0x16, 0xbf, 0x8f, 0x01, 0xcf, 0xea, 0x41, 0x41, 0x40, 0xde, 0x5d, 0xae, 0x22, 0x23,
      0xb0, 0x03, 0x61, 0xa3, 0x96, 0x17, 0x7a, 0x9c, 0xb4, 0x10, 0xff, 0x61, 0xf2, 0x00, 0x15,
      0xad] := by decide +kernel

end Lib.Sha2

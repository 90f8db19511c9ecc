import FastSigner.Lib.Sha2

/-!
# SSE registers and the SHA extensions

A 128-bit register as four lanes of 32 bits, and the instructions that hash code
uses, as Intel documents them.  Some see bytes or halves of lanes: these views are
`M128.bytes` and `M128.halves`, little-endian throughout.

The lemmas say what the instructions are on lanes: `alignrEpi8_four`,
`alignrEpi8_eight` and `blendEpi16_high` for the immediates in use, and
`shuffleEpi8_swap` for the mask that turns big-endian words into lanes.
-/

namespace Lib.Sse

open Sha2

/-- Lane `x0` is the lowest. -/
structure M128 where
  x0 : UInt32
  x1 : UInt32
  x2 : UInt32
  x3 : UInt32
  deriving DecidableEq, Repr

namespace M128

def lanes (m : M128) : List UInt32 := [m.x0, m.x1, m.x2, m.x3]

def bytes (m : M128) : Bytes := m.lanes.flatMap fun x => leBytes 4 x.toNat

/-- The lane whose bytes start at `i`. -/
def laneOf (b : Bytes) (i : Nat) : UInt32 := UInt32.ofNat (leNat (slice b i (i + 4)))

def ofBytes (b : Bytes) : M128 := ⟨laneOf b 0, laneOf b 4, laneOf b 8, laneOf b 12⟩

def halves (m : M128) : List Nat := m.lanes.flatMap fun x => [x.toNat % 2 ^ 16, x.toNat / 2 ^ 16]

def ofHalves (l : List Nat) : M128 :=
  let lane (i : Nat) : UInt32 := UInt32.ofNat (l.getD (2 * i) 0 + l.getD (2 * i + 1) 0 * 2 ^ 16)
  ⟨lane 0, lane 1, lane 2, lane 3⟩

end M128

/-! ### Instructions -/

def setEpi64x (e1 e0 : UInt64) : M128 :=
  ⟨e0.toUInt32, (e0 >>> 32).toUInt32, e1.toUInt32, (e1 >>> 32).toUInt32⟩

def addEpi32 (a b : M128) : M128 := ⟨a.x0 + b.x0, a.x1 + b.x1, a.x2 + b.x2, a.x3 + b.x3⟩

/-- Lane `j` of the result is the lane that bits `2 j` and `2 j + 1` of `imm` name. -/
def shuffleEpi32 (a : M128) (imm : Nat) : M128 :=
  let lane (j : Nat) : UInt32 := a.lanes.getD (imm / 4 ^ j % 4) 0
  ⟨lane 0, lane 1, lane 2, lane 3⟩

/-- Every byte of the mask names a byte of `a` by its low four bits; zero if its top bit is set. -/
def shuffleEpi8 (a mask : M128) : M128 :=
  M128.ofBytes (mask.bytes.map fun m => if 0x80 ≤ m then 0 else a.bytes.getD (m &&& 0x0f).toNat 0)

/-- The bytes of `b` and above them those of `a`, shifted down by `n` bytes. -/
def alignrEpi8 (a b : M128) (n : Nat) : M128 := M128.ofBytes (slice (b.bytes ++ a.bytes) n (n + 16))

/-- The 16-bit elements of `b` where `imm` has a bit, those of `a` elsewhere. -/
def blendEpi16 (a b : M128) (imm : Nat) : M128 :=
  M128.ofHalves ((List.range 8).map fun j =>
    if imm.testBit j then b.halves.getD j 0 else a.halves.getD j 0)

/-- The two rounds of `sha256rnds2`: `a` holds C, D, G, H and `b` holds A, B, E, F, from the
highest lane down; the two lower lanes of `k` are the words with their constants added. -/
def sha256rnds2 (a b k : M128) : M128 :=
  let a0 := b.x3; let b0 := b.x2; let c0 := a.x3; let d0 := a.x2
  let e0 := b.x1; let f0 := b.x0; let g0 := a.x1; let h0 := a.x0
  let a1 := ch e0 f0 g0 + bigSigma1 e0 + k.x0 + h0 + maj a0 b0 c0 + bigSigma0 a0
  let e1 := ch e0 f0 g0 + bigSigma1 e0 + k.x0 + h0 + d0
  let a2 := ch e1 e0 f0 + bigSigma1 e1 + k.x1 + g0 + maj a1 a0 b0 + bigSigma0 a1
  let e2 := ch e1 e0 f0 + bigSigma1 e1 + k.x1 + g0 + c0
  ⟨e1, e2, a1, a2⟩

/-- The first part of four more schedule words. -/
def sha256msg1 (a b : M128) : M128 :=
  ⟨a.x0 + smallSigma0 a.x1, a.x1 + smallSigma0 a.x2, a.x2 + smallSigma0 a.x3,
    a.x3 + smallSigma0 b.x0⟩

/-- The last part of four more schedule words; the upper two depend on the lower two. -/
def sha256msg2 (a b : M128) : M128 :=
  let w16 := a.x0 + smallSigma1 b.x2
  let w17 := a.x1 + smallSigma1 b.x3
  ⟨w16, w17, a.x2 + smallSigma1 w16, a.x3 + smallSigma1 w17⟩

/-! ### On lanes -/

theorem ofNat_leNat_leBytes (x : UInt32) : UInt32.ofNat (leNat (leBytes 4 x.toNat)) = x := by
  rw [leNat_leBytes_of_lt (show x.toNat < 256 ^ 4 from x.toNat_lt)]
  exact UInt32.ofNat_toNat

theorem alignrEpi8_four (a b : M128) : alignrEpi8 a b 4 = ⟨b.x1, b.x2, b.x3, a.x0⟩ := by
  rw [← ofNat_leNat_leBytes b.x1, ← ofNat_leNat_leBytes b.x2, ← ofNat_leNat_leBytes b.x3,
    ← ofNat_leNat_leBytes a.x0]
  rfl

theorem alignrEpi8_eight (a b : M128) : alignrEpi8 a b 8 = ⟨b.x2, b.x3, a.x0, a.x1⟩ := by
  rw [← ofNat_leNat_leBytes b.x2, ← ofNat_leNat_leBytes b.x3, ← ofNat_leNat_leBytes a.x0,
    ← ofNat_leNat_leBytes a.x1]
  rfl

theorem ofNat_halves (x : UInt32) :
    UInt32.ofNat (x.toNat % 2 ^ 16 + x.toNat / 2 ^ 16 * 2 ^ 16) = x := by
  rw [Nat.mul_comm, Nat.mod_add_div]
  exact UInt32.ofNat_toNat

theorem blendEpi16_high (a b : M128) : blendEpi16 a b 0xf0 = ⟨a.x0, a.x1, b.x2, b.x3⟩ := by
  rw [← ofNat_halves a.x0, ← ofNat_halves a.x1, ← ofNat_halves b.x2, ← ofNat_halves b.x3]
  rfl

/-- The mask that reverses the bytes of each lane. -/
def swapMask : M128 := setEpi64x 0x0c0d0e0f08090a0b 0x0405060700010203

theorem slice_four {b : Bytes} {i : Nat} (h : i + 4 ≤ b.length) :
    slice b i (i + 4) = [b.getD i 0, b.getD (i + 1) 0, b.getD (i + 2) 0, b.getD (i + 3) 0] := by
  have hget : ∀ {j : Nat}, j < b.length → b[j]? = some (b.getD j 0) := by
    intro j hj
    rw [List.getD_eq_getElem?_getD, List.getElem?_eq_getElem hj, Option.getD_some]
  apply List.ext_getElem?
  intro k
  rw [getElem?_slice]
  by_cases hk : k < 4
  · rw [if_pos (by omega), hget (by omega)]
    obtain rfl | rfl | rfl | rfl : k = 0 ∨ k = 1 ∨ k = 2 ∨ k = 3 := by omega
    · rfl
    · rfl
    · rfl
    · rfl
  · rw [if_neg (by omega)]
    exact (List.getElem?_eq_none (by simpa using hk)).symm

theorem bytes_ofBytes {b : Bytes} (h : b.length = 16) : (M128.ofBytes b).bytes = b := by
  have hlane : ∀ i, i + 4 ≤ b.length →
      leBytes 4 (M128.laneOf b i).toNat = slice b i (i + 4) := by
    intro i hi
    have hlen : (slice b i (i + 4)).length = 4 := by
      rw [length_slice_of_le i hi]
      omega
    have hlt : leNat (slice b i (i + 4)) < 2 ^ 32 := by
      have := leNat_lt (slice b i (i + 4))
      rw [hlen] at this
      omega
    rw [M128.laneOf, UInt32.toNat_ofNat', Nat.mod_eq_of_lt hlt]
    have := leBytes_leNat (slice b i (i + 4))
    rwa [hlen] at this
  rw [M128.bytes, M128.lanes, M128.ofBytes]
  simp only [List.flatMap_cons, List.flatMap_nil, List.append_nil]
  rw [hlane 0 (by omega), hlane 4 (by omega), hlane 8 (by omega), hlane 12 (by omega),
    slice_append_slice b (by omega) (by omega), slice_append_slice b (by omega) (by omega),
    slice_append_slice b (by omega) (by omega), slice_zero, List.take_of_length_le (by omega)]

/-- **Loading with the bytes of each lane reversed reads big-endian words.** -/
theorem shuffleEpi8_swap {b : Bytes} (h : b.length = 16) :
    shuffleEpi8 (M128.ofBytes b) swapMask
      = ⟨UInt32.ofNat (beNat (slice b 0 4)), UInt32.ofNat (beNat (slice b 4 8)),
          UInt32.ofNat (beNat (slice b 8 12)), UInt32.ofNat (beNat (slice b 12 16))⟩ := by
  have hmask : swapMask.bytes = [3, 2, 1, 0, 7, 6, 5, 4, 11, 10, 9, 8, 15, 14, 13, 12] := by decide
  rw [shuffleEpi8, hmask, bytes_ofBytes h, slice_four (i := 0) (by omega), slice_four (i := 4) (by omega),
    slice_four (i := 8) (by omega), slice_four (i := 12) (by omega)]
  rfl

end Lib.Sse

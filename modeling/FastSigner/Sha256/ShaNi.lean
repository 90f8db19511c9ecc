import FastSigner.Sha256
import FastSigner.Lib.Sse

/-!
# The kernels on the SHA extensions

`compress1` and `compress2` on x86-64.  The state is kept in two registers, ABEF
and CDGH; `rounds4` does four rounds, and `schedule` makes the next four words
from the last sixteen.

The invariant of a block is `regsAt`: the two state registers hold the working
variables of FIPS 180-4 after `4 (i + 4)` rounds, and the four word registers the
last sixteen words of its message schedule.  So `compress1` folds
the compression function over the blocks (`compress1_eq`), and `compress2` is
`compress1` on each of its streams (`compress2_eq`).
-/

namespace FastSigner.Sha256.ShaNi

open Lib Sha2 Sse

/-- Round constants (FIPS 180-4 §4.2.2). -/
def K : List UInt32 :=
  [0x428a2f98, 0x71374491, 0xb5c0fbcf, 0xe9b5dba5, 0x3956c25b, 0x59f111f1, 0x923f82a4, 0xab1c5ed5,
    0xd807aa98, 0x12835b01, 0x243185be, 0x550c7dc3, 0x72be5d74, 0x80deb1fe, 0x9bdc06a7, 0xc19bf174,
    0xe49b69c1, 0xefbe4786, 0x0fc19dc6, 0x240ca1cc, 0x2de92c6f, 0x4a7484aa, 0x5cb0a9dc, 0x76f988da,
    0x983e5152, 0xa831c66d, 0xb00327c8, 0xbf597fc7, 0xc6e00bf3, 0xd5a79147, 0x06ca6351, 0x14292967,
    0x27b70a85, 0x2e1b2138, 0x4d2c6dfc, 0x53380d13, 0x650a7354, 0x766a0abb, 0x81c2c92e, 0x92722c85,
    0xa2bfe8a1, 0xa81a664b, 0xc24b8b70, 0xc76c51a3, 0xd192e819, 0xd6990624, 0xf40e3585, 0x106aa070,
    0x19a4c116, 0x1e376c08, 0x2748774c, 0x34b0bcb5, 0x391c0cb3, 0x4ed8aa4a, 0x5b9cca4f, 0x682e6ff3,
    0x748f82ee, 0x78a5636f, 0x84c87814, 0x8cc70208, 0x90befffa, 0xa4506ceb, 0xbef9a3f7, 0xc67178f2]

/-- Four words from `i` on. -/
def loadu (l : List UInt32) (i : Nat) : M128 :=
  ⟨l.getD i 0, l.getD (i + 1) 0, l.getD (i + 2) 0, l.getD (i + 3) 0⟩

def k (i : Nat) : M128 := loadu K (4 * i)

/-- Message words `4 i` to `4 i + 3` of the block at `p`, big-endian. -/
def load (p : Bytes) (i : Nat) : M128 :=
  shuffleEpi8 (M128.ofBytes (slice p (16 * i) (16 * i + 16)))
    (setEpi64x 0x0c0d0e0f08090a0b 0x0405060700010203)

def add (a b : M128) : M128 := addEpi32 a b

/-- (ABEF, CDGH) -/
def toRegs (s : State) : M128 × M128 :=
  let dcba := loadu s.toList 0
  let hgfe := loadu s.toList 4
  let cdab := shuffleEpi32 dcba 0xb1
  let efgh := shuffleEpi32 hgfe 0x1b
  (alignrEpi8 cdab efgh 8, blendEpi16 efgh cdab 0xf0)

/-- The two stores to the state. -/
def storeu (lo hi : M128) : State := #v[lo.x0, lo.x1, lo.x2, lo.x3, hi.x0, hi.x1, hi.x2, hi.x3]

def fromRegs (r : M128 × M128) : State :=
  let feba := shuffleEpi32 r.1 0x1b
  let dchg := shuffleEpi32 r.2 0xb1
  storeu (blendEpi16 feba dchg 0xf0) (alignrEpi8 dchg feba 8)

def rounds4 (r : M128 × M128) (w : M128) (i : Nat) : M128 × M128 :=
  let t := addEpi32 w (k i)
  let cdgh := sha256rnds2 r.2 r.1 t
  let abef := sha256rnds2 r.1 cdgh (shuffleEpi32 t 0x0e)
  (abef, cdgh)

/-- The next four message words from the previous sixteen. -/
def schedule (w0 w1 w2 w3 : M128) : M128 :=
  sha256msg2 (addEpi32 (sha256msg1 w0 w1) (alignrEpi8 w3 w2 4)) w3

structure Regs where
  s : M128 × M128
  w0 : M128
  w1 : M128
  w2 : M128
  w3 : M128

def quads (x : Regs) (i : Nat) : Regs :=
  let w0 := schedule x.w0 x.w1 x.w2 x.w3
  let s := rounds4 x.s w0 i
  let w1 := schedule x.w1 x.w2 x.w3 w0
  let s := rounds4 s w1 (i + 1)
  let w2 := schedule x.w2 x.w3 w0 w1
  let s := rounds4 s w2 (i + 2)
  let w3 := schedule x.w3 w0 w1 w2
  let s := rounds4 s w3 (i + 3)
  ⟨s, w0, w1, w2, w3⟩

def block (p : Bytes) (s_in : M128 × M128) : M128 × M128 :=
  let w0 := load p 0
  let w1 := load p 1
  let w2 := load p 2
  let w3 := load p 3
  let s := rounds4 s_in w0 0
  let s := rounds4 s w1 1
  let s := rounds4 s w2 2
  let s := rounds4 s w3 3
  let x := [4, 8, 12].foldl quads ⟨s, w0, w1, w2, w3⟩
  (add x.s.1 s_in.1, add x.s.2 s_in.2)

/-- The body of the loop over the blocks: the pointer moves on. -/
def blockStep (x : Bytes × M128 × M128) : Bytes × M128 × M128 := (x.1.drop 64, block x.1 x.2)

def compress1 (state : State) (p : Bytes) (blocks : Nat) : State :=
  fromRegs (blockStep^[blocks] (p, toRegs state)).2

/-! ### Two streams -/

def rounds4x2 (a : M128 × M128) (wa : M128) (b : M128 × M128) (wb : M128) (i : Nat) :
    (M128 × M128) × (M128 × M128) := (rounds4 a wa i, rounds4 b wb i)

def quads2 (x : Regs × Regs) (i : Nat) : Regs × Regs :=
  let (a, b) := x
  let a0 := schedule a.w0 a.w1 a.w2 a.w3
  let b0 := schedule b.w0 b.w1 b.w2 b.w3
  let (sa, sb) := rounds4x2 a.s a0 b.s b0 i
  let a1 := schedule a.w1 a.w2 a.w3 a0
  let b1 := schedule b.w1 b.w2 b.w3 b0
  let (sa, sb) := rounds4x2 sa a1 sb b1 (i + 1)
  let a2 := schedule a.w2 a.w3 a0 a1
  let b2 := schedule b.w2 b.w3 b0 b1
  let (sa, sb) := rounds4x2 sa a2 sb b2 (i + 2)
  let a3 := schedule a.w3 a0 a1 a2
  let b3 := schedule b.w3 b0 b1 b2
  let (sa, sb) := rounds4x2 sa a3 sb b3 (i + 3)
  (⟨sa, a0, a1, a2, a3⟩, ⟨sb, b0, b1, b2, b3⟩)

def block2 (pa pb : Bytes) (a_in b_in : M128 × M128) : (M128 × M128) × (M128 × M128) :=
  let a0 := load pa 0
  let a1 := load pa 1
  let a2 := load pa 2
  let a3 := load pa 3
  let b0 := load pb 0
  let b1 := load pb 1
  let b2 := load pb 2
  let b3 := load pb 3
  let (sa, sb) := rounds4x2 a_in a0 b_in b0 0
  let (sa, sb) := rounds4x2 sa a1 sb b1 1
  let (sa, sb) := rounds4x2 sa a2 sb b2 2
  let (sa, sb) := rounds4x2 sa a3 sb b3 3
  let (xa, xb) := [4, 8, 12].foldl quads2 (⟨sa, a0, a1, a2, a3⟩, ⟨sb, b0, b1, b2, b3⟩)
  ((add xa.s.1 a_in.1, add xa.s.2 a_in.2), (add xb.s.1 b_in.1, add xb.s.2 b_in.2))

def blockStep2 (x : (Bytes × Bytes) × (M128 × M128) × (M128 × M128)) :
    (Bytes × Bytes) × (M128 × M128) × (M128 × M128) :=
  ((x.1.1.drop 64, x.1.2.drop 64), block2 x.1.1 x.1.2 x.2.1 x.2.2)

def compress2 (sa sb : State) (pa pb : Bytes) (blocks : Nat) : State × State :=
  let (a, b) := (blockStep2^[blocks] ((pa, pb), toRegs sa, toRegs sb)).2
  (fromRegs a, fromRegs b)

/-! ### The state in registers -/

def regsOf (v : Working) : M128 × M128 := (⟨v.f, v.e, v.b, v.a⟩, ⟨v.h, v.g, v.d, v.c⟩)

theorem getD_toList (s : State) {i : Nat} (hi : i < 8) : s.toList.getD i 0 = s[i] := by
  rw [List.getD_eq_getElem _ _ (by rw [Vector.length_toList]; exact hi), Vector.getElem_toList]

theorem toRegs_eq (s : State) : toRegs s = regsOf (Working.ofState s) := by
  have hlo : loadu s.toList 0 = ⟨s[0], s[1], s[2], s[3]⟩ := by
    rw [loadu, getD_toList s (by omega), getD_toList s (by omega), getD_toList s (by omega),
      getD_toList s (by omega)]
  have hhi : loadu s.toList 4 = ⟨s[4], s[5], s[6], s[7]⟩ := by
    rw [loadu, getD_toList s (by omega), getD_toList s (by omega), getD_toList s (by omega),
      getD_toList s (by omega)]
  rw [toRegs, alignrEpi8_eight, blendEpi16_high, hlo, hhi]
  rfl

theorem fromRegs_regsOf (v : Working) : fromRegs (regsOf v) = v.toState := by
  rw [fromRegs, alignrEpi8_eight, blendEpi16_high]
  rfl

theorem add_regsOf (v w : Working) :
    (add (regsOf v).1 (regsOf w).1, add (regsOf v).2 (regsOf w).2) = regsOf (v.add w) := rfl

/-! ### Rounds -/

/-- The constants are those of the standard. -/
theorem K_eq : K = constants := by decide

theorem round_eq (v : Working) (k w : UInt32) :
    Sha2.round v k w = ⟨ch v.e v.f v.g + bigSigma1 v.e + (w + k) + v.h + maj v.a v.b v.c + bigSigma0 v.a,
      v.a, v.b, v.c, ch v.e v.f v.g + bigSigma1 v.e + (w + k) + v.h + v.d, v.e, v.f, v.g⟩ := by
  rw [Sha2.round, Working.mk.injEq]
  refine ⟨?_, rfl, rfl, rfl, ?_, rfl, rfl, rfl⟩
  · ac_rfl
  · ac_rfl

/-- One instruction, two rounds: it turns CDGH into the new ABEF, and ABEF is the new CDGH. -/
theorem sha256rnds2_eq (v : Working) (k0 k1 w0 w1 x2 x3 : UInt32) :
    (sha256rnds2 (regsOf v).2 (regsOf v).1 ⟨w0 + k0, w1 + k1, x2, x3⟩, (regsOf v).1)
      = regsOf (Sha2.round (Sha2.round v k0 w0) k1 w1) := by
  rw [round_eq, round_eq]
  rfl

theorem k_eq (i : Nat) :
    k i = ⟨constant (4 * i), constant (4 * i + 1), constant (4 * i + 2), constant (4 * i + 3)⟩ := by
  simp only [k, loadu, K_eq, constant]

theorem rounds4_regsOf (v : Working) (w : M128) {i : Nat} {k0 k1 k2 k3 : UInt32}
    (hk : k i = ⟨k0, k1, k2, k3⟩) :
    rounds4 (regsOf v) w i
      = regsOf (Sha2.round (Sha2.round (Sha2.round (Sha2.round v k0 w.x0) k1 w.x1) k2 w.x2) k3 w.x3) := by
  have h1 := sha256rnds2_eq v k0 k1 w.x0 w.x1 (w.x2 + k2) (w.x3 + k3)
  -- the first instruction has made the registers those of two rounds later, the other way round
  have h2 := sha256rnds2_eq (Sha2.round (Sha2.round v k0 w.x0) k1 w.x1) k2 k3 w.x2 w.x3 (w.x0 + k0) (w.x0 + k0)
  rw [← h1] at h2
  rw [rounds4, hk]
  exact h2

def quad (m : List UInt32) (i : Nat) : M128 :=
  ⟨word m (4 * i), word m (4 * i + 1), word m (4 * i + 2), word m (4 * i + 3)⟩

/-- **Four rounds.** -/
theorem rounds4_eq (m : List UInt32) (v : Working) (i : Nat) :
    rounds4 (regsOf (rounds m (4 * i) v)) (quad m i) i = regsOf (rounds m (4 * (i + 1)) v) := by
  rw [Nat.mul_succ, rounds_add_four, rounds4_regsOf _ _ (k_eq i)]
  simp only [quad]

/-! ### The message schedule -/

theorem word_add_comm {m : List UInt32} (hm : m.length = 16) {t : Nat} (ht : t < 48) :
    word m t + smallSigma0 (word m (t + 1)) + word m (t + 9) + smallSigma1 (word m (t + 14))
      = word m (t + 16) := by
  have hcomm : ∀ w s x y : UInt32, w + s + x + y = y + x + s + w := by
    intro w s x y
    ac_rfl
  rw [word_add hm ht, hcomm]

/-- **Four schedule words from the last sixteen.** -/
theorem schedule_eq {m : List UInt32} (hm : m.length = 16) {i : Nat} (hi : i < 12) :
    schedule (quad m i) (quad m (i + 1)) (quad m (i + 2)) (quad m (i + 3)) = quad m (i + 4) := by
  have h0 := word_add_comm hm (show 4 * i < 48 by omega)
  have h1 := word_add_comm hm (show 4 * i + 1 < 48 by omega)
  have h2 := word_add_comm hm (show 4 * i + 2 < 48 by omega)
  have h3 := word_add_comm hm (show 4 * i + 3 < 48 by omega)
  simp only [Nat.add_assoc, Nat.reduceAdd] at h0 h1 h2 h3
  rw [schedule, alignrEpi8_four]
  simp only [quad, sha256msg1, addEpi32, sha256msg2, Nat.mul_add, Nat.reduceMul, Nat.add_assoc,
    Nat.reduceAdd]
  -- the upper two words use the lower two, that `sha256msg2` has just made
  rw [h0, h1, h2, h3]

/-! ### A block -/

/-- The registers before quad-round `i + 4`: its words and those of the three before are to come
from quads `i` to `i + 3`. -/
def regsAt (m : List UInt32) (v : Working) (i : Nat) : Regs :=
  ⟨regsOf (rounds m (4 * (i + 4)) v), quad m i, quad m (i + 1), quad m (i + 2), quad m (i + 3)⟩

/-- **The step**: four quad-rounds, sixteen words of the schedule. -/
theorem quads_regsAt {m : List UInt32} (hm : m.length = 16) (v : Working) {i : Nat} (hi : i ≤ 8) :
    quads (regsAt m v i) (i + 4) = regsAt m v (i + 4) := by
  have h0 := schedule_eq hm (show i < 12 by omega)
  have h1 := schedule_eq hm (show i + 1 < 12 by omega)
  have h2 := schedule_eq hm (show i + 2 < 12 by omega)
  have h3 := schedule_eq hm (show i + 3 < 12 by omega)
  simp only [Nat.add_assoc, Nat.reduceAdd] at h1 h2 h3
  simp only [quads, regsAt, h0, h1, h2, h3, rounds4_eq, Nat.add_assoc, Nat.reduceAdd]

theorem getD_blockWords (p : Bytes) {t : Nat} (ht : t < 16) :
    (blockWords p).getD t 0 = UInt32.ofNat (beNat (slice p (4 * t) (4 * t + 4))) := by
  rw [blockWords, List.getD_eq_getElem?_getD, List.getElem?_map, List.getElem?_range ht]
  rfl

theorem length_blockWords (p : Bytes) : (blockWords p).length = 16 := by
  rw [blockWords, List.length_map, List.length_range]

/-- **Loading**: the first four quads of the schedule are the block. -/
theorem load_eq {p : Bytes} (hp : 64 ≤ p.length) {i : Nat} (hi : i < 4) :
    load p i = quad (blockWords p) i := by
  have hlen : (slice p (16 * i) (16 * i + 16)).length = 16 := by
    rw [length_slice_of_le _ (by omega)]
    omega
  have hword : ∀ {t : Nat}, t < 16 →
      word (blockWords p) t = UInt32.ofNat (beNat (slice p (4 * t) (4 * t + 4))) := by
    intro t ht
    rw [word_of_lt (by rw [length_blockWords]; exact ht), getD_blockWords p ht]
  have h := shuffleEpi8_swap hlen
  rw [slice_slice_of_le _ (by omega), slice_slice_of_le _ (by omega),
    slice_slice_of_le _ (by omega), slice_slice_of_le _ (by omega)] at h
  rw [load, quad, hword (by omega), hword (by omega), hword (by omega), hword (by omega)]
  simp only [Nat.mul_add, ← Nat.mul_assoc, Nat.reduceMul, Nat.add_assoc, Nat.reduceAdd] at h ⊢
  exact h

theorem load_regsAt {p : Bytes} (hp : 64 ≤ p.length) (v : Working) :
    (⟨rounds4 (rounds4 (rounds4 (rounds4 (regsOf v) (load p 0) 0) (load p 1) 1) (load p 2) 2)
        (load p 3) 3, load p 0, load p 1, load p 2, load p 3⟩ : Regs)
      = regsAt (blockWords p) v 0 := by
  have h0 : rounds4 (regsOf v) (quad (blockWords p) 0) 0 = _ := rounds4_eq (blockWords p) v 0
  rw [load_eq hp (by omega), load_eq hp (by omega), load_eq hp (by omega), load_eq hp (by omega),
    h0, rounds4_eq, rounds4_eq, rounds4_eq, regsAt]

/-- **A block in registers**: 64 rounds, and the sum with the registers before. -/
theorem block_regsOf {p : Bytes} (hp : 64 ≤ p.length) (v : Working) :
    block p (regsOf v) = regsOf ((rounds (blockWords p) 64 v).add v) := by
  have hm := length_blockWords p
  rw [block, load_regsAt hp, List.foldl_cons, List.foldl_cons, List.foldl_cons, List.foldl_nil,
    quads_regsAt hm v (show 0 ≤ 8 by omega), quads_regsAt hm v (show 4 ≤ 8 by omega),
    quads_regsAt hm v (show 8 ≤ 8 by omega)]
  exact add_regsOf (rounds (blockWords p) 64 v) v

theorem block_toRegs {p : Bytes} (hp : 64 ≤ p.length) (s : State) :
    block p (toRegs s) = toRegs (Sha2.compress s p) := by
  rw [toRegs_eq, toRegs_eq, block_regsOf hp, Sha2.compress, compressWords, Working.ofState_toState]

/-! ### Streams -/

theorem fromRegs_toRegs (s : State) : fromRegs (toRegs s) = s := by
  rw [toRegs_eq, fromRegs_regsOf, Working.toState_ofState]

theorem compress_take (s : State) (p : Bytes) :
    Sha2.compress s (p.take 64) = Sha2.compress s p := by
  rw [Sha2.compress, Sha2.compress]
  congr 1
  apply List.map_congr_left
  intro t ht
  rw [slice_take _ (by have := List.mem_range.mp ht; omega)]

theorem blockStep_mk (p : Bytes) (s : M128 × M128) :
    blockStep (p, s) = (p.drop 64, block p s) := by
  rw [blockStep]

theorem blockStep_iterate :
    ∀ (n : Nat) {p : Bytes} (s : State), n * 64 ≤ p.length →
      (blockStep^[n] (p, toRegs s)).2
        = toRegs (compressBlocks Sha2.compress s (p.take (n * 64))) := by
  intro n
  induction n with
  | zero =>
    intro p s _
    rw [Function.iterate_zero_apply, Nat.zero_mul, List.take_zero, compressBlocks,
      chunks_nil (by omega), List.foldl_nil]
  | succ n ih =>
    intro p s hp
    have hne : p.take ((n + 1) * 64) ≠ [] := by
      intro h
      have := congrArg List.length h
      rw [List.length_take, List.length_nil] at this
      omega
    rw [Function.iterate_succ_apply, blockStep_mk, block_toRegs (by omega),
      ih _ (by rw [List.length_drop]; omega), compressBlocks, compressBlocks,
      chunks_eq (by omega) hne, List.foldl_cons, List.take_take, Nat.min_eq_left (by omega),
      compress_take, List.drop_take, Nat.succ_mul, Nat.add_sub_cancel]

/-- **One stream**: the compression function of the standard, folded over the blocks. -/
theorem compress1_eq (s : State) {p : Bytes} {n : Nat} (hp : n * 64 ≤ p.length) :
    compress1 s p n = compressBlocks Sha2.compress s (p.take (n * 64)) := by
  rw [compress1, blockStep_iterate n s hp, fromRegs_toRegs]

theorem foldl_quads2 (is : List Nat) (a b : Regs) :
    is.foldl quads2 (a, b) = (is.foldl quads a, is.foldl quads b) := by
  induction is generalizing a b with
  | nil => rfl
  | cons i is ih => exact ih (quads a i) (quads b i)

theorem block2_eq (pa pb : Bytes) (a b : M128 × M128) :
    block2 pa pb a b = (block pa a, block pb b) := by
  simp only [block2, foldl_quads2, rounds4x2, block]

theorem blockStep2_iterate :
    ∀ (n : Nat) (pa pb : Bytes) (a b : M128 × M128),
      (blockStep2^[n] ((pa, pb), a, b)).2
        = ((blockStep^[n] (pa, a)).2, (blockStep^[n] (pb, b)).2) := by
  intro n
  induction n with
  | zero =>
    intro pa pb a b
    rfl
  | succ n ih =>
    intro pa pb a b
    rw [Function.iterate_succ_apply, Function.iterate_succ_apply, Function.iterate_succ_apply,
      blockStep2, block2_eq, ih, blockStep_mk, blockStep_mk]

/-- **Two streams** do not meet. -/
theorem compress2_eq (sa sb : State) (pa pb : Bytes) (n : Nat) :
    compress2 sa sb pa pb n = (compress1 sa pa n, compress1 sb pb n) := by
  rw [compress2, blockStep2_iterate, compress1, compress1]

/-- **The kernels**: one stream is the compression function of the standard folded over its blocks,
and two streams are each of them alone. -/
theorem compress_streams (sa sb : State) (pa pb : Bytes) (n : Nat) (ha : n * 64 ≤ pa.length) :
    compress1 sa pa n = compressBlocks Sha2.compress sa (pa.take (n * 64))
      ∧ compress2 sa sb pa pb n = (compress1 sa pa n, compress1 sb pb n) :=
  ⟨compress1_eq sa ha, compress2_eq sa sb pa pb n⟩

theorem compress_streams_twoBlocks :
    compress1 h0 (List.replicate 192 0) 2
        = compressBlocks Sha2.compress h0 ((List.replicate 192 0).take (2 * 64))
      ∧ compress2 h0 h0 (List.replicate 192 0) (List.replicate 128 1) 2
        = (compress1 h0 (List.replicate 192 0) 2, compress1 h0 (List.replicate 128 1) 2) :=
  compress_streams h0 h0 (List.replicate 192 0) (List.replicate 128 1) 2
    (by rw [List.length_replicate]; omega)

/-- What the streaming hasher takes `ShaExt::compress` to be. -/
theorem compress1_whole (s : State) {blocks : Bytes} (h : blocks.length % 64 = 0) :
    compress1 s blocks (blocks.length / 64) = compressBlocks Sha2.compress s blocks := by
  have hlen : blocks.length / 64 * 64 = blocks.length := by omega
  rw [compress1_eq s (by omega), hlen, List.take_length]

end FastSigner.Sha256.ShaNi

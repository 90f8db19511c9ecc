import Mathlib.Algebra.Ring.Nat
import Mathlib.Data.List.Basic
import Mathlib.Tactic.Common

/-!
# Byte strings, slices and positioned writes

A byte string is a `List UInt8`.  Three families of operations act on one, and
every buffer manipulation further up is built from them:

* `slice l i j` is the range `l[i..j]`;
* `patch l i v` overwrites the range that starts at `i` with `v`, the length of
  `l` staying what it was (copying into a sub-slice of a buffer);
* `writeAt f off d` and `setLen f n` are a positioned write to a file, which
  may grow it, and a truncation or extension.

Each is determined by its elements, so the lemmas come in the form of one
`getElem?` law per operation and the few equations between them.  The last
section is the little-endian reading `leNat` of a byte string and its inverse
`leBytes`.
-/

namespace Lib

abbrev Bytes := List UInt8

section Slices

variable {α : Type*}

/-! ### Slices -/

/-- `l[i..j]`: the elements from position `i` up to but not including `j`. -/
def slice (l : List α) (i j : Nat) : List α := (l.drop i).take (j - i)

theorem getElem?_slice (l : List α) (i j k : Nat) :
    (slice l i j)[k]? = if i + k < j then l[i + k]? else none := by
  rw [slice, List.getElem?_take]
  by_cases h : i + k < j
  · rw [if_pos h, if_pos (by omega), List.getElem?_drop]
  · rw [if_neg h, if_neg (by omega)]

@[simp] theorem length_slice (l : List α) (i j : Nat) :
    (slice l i j).length = min j l.length - i := by
  simp only [slice, List.length_take, List.length_drop]
  omega

theorem length_slice_of_le {l : List α} {j : Nat} (i : Nat) (h : j ≤ l.length) :
    (slice l i j).length = j - i := by
  rw [length_slice, Nat.min_eq_left h]

@[simp] theorem slice_zero (l : List α) (j : Nat) : slice l 0 j = l.take j := by
  simp [slice]

theorem slice_to_end (l : List α) (i : Nat) {j : Nat} (h : l.length ≤ j) :
    slice l i j = l.drop i := by
  rw [slice, List.take_of_length_le]
  rw [List.length_drop]
  omega

theorem slice_of_le (l : List α) {i j : Nat} (h : j ≤ i) : slice l i j = [] := by
  rw [slice, Nat.sub_eq_zero_of_le h, List.take_zero]

@[simp] theorem slice_nil (i j : Nat) : slice ([] : List α) i j = [] := by simp [slice]

theorem slice_append_left {a : List α} (b : List α) (i : Nat) {j : Nat} (h : j ≤ a.length) :
    slice (a ++ b) i j = slice a i j := by
  apply List.ext_getElem?
  intro k
  rw [getElem?_slice, getElem?_slice]
  split
  · rw [List.getElem?_append_left (by omega)]
  · rfl

theorem slice_append_right (a b : List α) {i j : Nat} (h : a.length ≤ i) :
    slice (a ++ b) i j = slice b (i - a.length) (j - a.length) := by
  apply List.ext_getElem?
  intro k
  rw [getElem?_slice, getElem?_slice]
  by_cases hk : i + k < j
  · rw [if_pos hk, if_pos (by omega), List.getElem?_append_right (by omega)]
    congr 1
    omega
  · rw [if_neg hk, if_neg (by omega)]

theorem slice_append_length (a b : List α) (n : Nat) :
    slice (a ++ b) a.length (a.length + n) = b.take n := by
  rw [slice_append_right a b (Nat.le_refl _)]
  simp

theorem slice_slice (l : List α) (i j a b : Nat) :
    slice (slice l i j) a b = slice l (i + a) (min (i + b) j) := by
  apply List.ext_getElem?
  intro k
  rw [getElem?_slice, getElem?_slice, getElem?_slice, ← Nat.add_assoc]
  by_cases h1 : a + k < b
  · rw [if_pos h1]
    by_cases h2 : i + a + k < j
    · rw [if_pos h2, if_pos (by omega)]
    · rw [if_neg h2, if_neg (by omega)]
  · rw [if_neg h1, if_neg (by omega)]

theorem slice_slice_of_le (l : List α) {i j a b : Nat} (h : i + b ≤ j) :
    slice (slice l i j) a b = slice l (i + a) (i + b) := by
  rw [slice_slice, Nat.min_eq_left h]

theorem slice_min_length {l : List α} (i j : Nat) {p : Nat} (h : l.length ≤ p) :
    slice l i (min (min j p) l.length) = slice l i j := by
  rw [slice, slice, List.take_eq_take_iff, List.length_drop]
  omega

theorem min_length_sub_eq {l : List α} (i j : Nat) {p : Nat} (h : l.length ≤ p) :
    min (min j p) l.length - i = (slice l i j).length := by
  rw [length_slice]
  omega

theorem length_slice_add_le (l : List α) (i n : Nat) : (slice l i (i + n)).length ≤ n := by
  rw [length_slice]
  omega

theorem slice_append_slice (l : List α) {i j k : Nat} (hij : i ≤ j) (hjk : j ≤ k) :
    slice l i j ++ slice l j k = slice l i k := by
  have hd : (l.drop i).drop (j - i) = l.drop j := by
    rw [List.drop_drop]
    congr 1
    omega
  rw [slice, slice, slice, ← hd, show k - i = (j - i) + (k - j) by omega, List.take_add]

theorem slice_append_drop (l : List α) {i j : Nat} (hij : i ≤ j) :
    slice l i j ++ l.drop j = l.drop i := by
  have hd : (l.drop i).drop (j - i) = l.drop j := by
    rw [List.drop_drop]
    congr 1
    omega
  rw [slice, ← hd, List.take_append_drop]

/-- **A slice depends only on the elements in its range.** -/
theorem slice_congr {l m : List α} {i j : Nat} (h : ∀ k, i ≤ k → k < j → l[k]? = m[k]?) :
    slice l i j = slice m i j := by
  apply List.ext_getElem?
  intro k
  rw [getElem?_slice, getElem?_slice]
  split
  · exact h _ (by omega) (by assumption)
  · rfl

theorem getElem?_eq_of_slice_eq {l m : List α} {i j k : Nat} (h : slice l i j = slice m i j)
    (hik : i ≤ k) (hkj : k < j) : l[k]? = m[k]? := by
  have hk := congrArg (fun s => s[k - i]?) h
  simp only [getElem?_slice] at hk
  rwa [if_pos (by omega), show i + (k - i) = k by omega, if_pos (by omega)] at hk

theorem slice_take {l : List α} {n j : Nat} (i : Nat) (h : j ≤ n) :
    slice (l.take n) i j = slice l i j := by
  apply slice_congr
  intro k _ hk
  rw [List.getElem?_take, if_pos (by omega)]

theorem slice_drop (l : List α) (n i j : Nat) :
    slice (l.drop n) i j = slice l (n + i) (n + j) := by
  apply List.ext_getElem?
  intro k
  rw [getElem?_slice, getElem?_slice, List.getElem?_drop]
  by_cases h : i + k < j
  · rw [if_pos h, if_pos (by omega), Nat.add_assoc]
  · rw [if_neg h, if_neg (by omega)]

/-! ### Overwriting a range -/

/-- Overwrite the range that starts at `i` with `v`. -/
def patch (l : List α) (i : Nat) (v : List α) : List α :=
  l.take i ++ v ++ l.drop (i + v.length)

@[simp] theorem length_patch {l v : List α} {i : Nat} (h : i + v.length ≤ l.length) :
    (patch l i v).length = l.length := by
  simp only [patch, List.length_append, List.length_take, List.length_drop]
  omega

theorem getElem?_patch {l v : List α} {i : Nat} (h : i + v.length ≤ l.length) (k : Nat) :
    (patch l i v)[k]? = if i ≤ k ∧ k < i + v.length then v[k - i]? else l[k]? := by
  have hlen : (l.take i).length = i := by
    rw [List.length_take]
    omega
  rw [patch, List.append_assoc]
  by_cases h1 : k < i
  · rw [List.getElem?_append_left (by omega), if_neg (by omega), List.getElem?_take, if_pos h1]
  · rw [List.getElem?_append_right (by omega), hlen]
    by_cases h2 : k < i + v.length
    · rw [List.getElem?_append_left (by omega), if_pos (by omega)]
    · rw [List.getElem?_append_right (by omega), if_neg (by omega), List.getElem?_drop]
      congr 1
      omega

theorem slice_patch_self {l v : List α} {i : Nat} (h : i + v.length ≤ l.length) :
    slice (patch l i v) i (i + v.length) = v := by
  apply List.ext_getElem?
  intro k
  rw [getElem?_slice, getElem?_patch h]
  by_cases hk : k < v.length
  · rw [if_pos (by omega), if_pos (by omega), Nat.add_sub_cancel_left]
  · rw [if_neg (by omega), List.getElem?_eq_none (by omega)]

/-- **Frame law.**  A range apart from the patched one keeps its elements. -/
theorem slice_patch_of_disjoint {l v : List α} {i a b : Nat} (h : i + v.length ≤ l.length)
    (hd : b ≤ i ∨ i + v.length ≤ a) : slice (patch l i v) a b = slice l a b := by
  apply slice_congr
  intro k h1 h2
  rw [getElem?_patch h, if_neg (by omega)]

theorem patch_slice_self {l : List α} {i j : Nat} (hij : i ≤ j) (h : j ≤ l.length) :
    patch l i (slice l i j) = l := by
  apply List.ext_getElem?
  intro k
  have hlen : (slice l i j).length = j - i := length_slice_of_le i h
  rw [getElem?_patch (by omega), hlen]
  split
  · rw [getElem?_slice, if_pos (by omega)]
    congr 1
    omega
  · rfl

theorem patch_patch {l v w : List α} {i : Nat} (hl : w.length = v.length)
    (h : i + v.length ≤ l.length) : patch (patch l i v) i w = patch l i w := by
  apply List.ext_getElem?
  intro k
  rw [getElem?_patch (by rw [length_patch h]; omega), getElem?_patch h,
    getElem?_patch (by omega)]
  split
  · rfl
  · rw [if_neg (by omega)]

/-! ### Many patches of one target -/

def applyPatches (l : List α) (ps : List (Nat × List α)) : List α :=
  ps.foldl (fun l p => patch l p.1 p.2) l

def PatchOf (T : List α) (p : Nat × List α) : Prop :=
  p.1 + p.2.length ≤ T.length ∧ p.2 = slice T p.1 (p.1 + p.2.length)

theorem patchOf_slice {T : List α} {i j : Nat} (hij : i ≤ j) (h : j ≤ T.length) :
    PatchOf T (i, slice T i j) := by
  have hlen : (slice T i j).length = j - i := length_slice_of_le i h
  refine ⟨by simp only [hlen]; omega, ?_⟩
  simp only [hlen]
  rw [show i + (j - i) = j by omega]

theorem getElem?_patch_of_patchOf {T l : List α} {p : Nat × List α} (hl : l.length = T.length)
    (hp : PatchOf T p) (x : Nat) :
    (patch l p.1 p.2)[x]? = if p.1 ≤ x ∧ x < p.1 + p.2.length then T[x]? else l[x]? := by
  rw [getElem?_patch (by rw [hl]; exact hp.1)]
  split
  · rename_i hx
    rw [hp.2, getElem?_slice, if_pos (by omega)]
    congr 1
    omega
  · rfl

/-- **Patches that cover their target rebuild it**, in whatever order they are applied and
however they overlap. -/
theorem applyPatches_eq {T : List α} {ps : List (Nat × List α)} :
    ∀ {l : List α}, l.length = T.length → (∀ p ∈ ps, PatchOf T p) →
      (∀ x, x < T.length → l[x]? = T[x]? ∨ ∃ p ∈ ps, p.1 ≤ x ∧ x < p.1 + p.2.length) →
      applyPatches l ps = T := by
  induction ps with
  | nil =>
    intro l hl _ hcover
    apply List.ext_getElem?
    intro x
    by_cases hx : x < T.length
    · simpa [applyPatches] using hcover x hx
    · rw [applyPatches, List.foldl_nil, List.getElem?_eq_none (by omega),
        List.getElem?_eq_none (by omega)]
  | cons p ps ih =>
    intro l hl hps hcover
    have hp := hps p (List.mem_cons_self ..)
    rw [applyPatches, List.foldl_cons]
    refine ih (by rw [length_patch (by rw [hl]; exact hp.1), hl])
      (fun q hq => hps q (List.mem_cons_of_mem _ hq)) ?_
    intro x hx
    rw [getElem?_patch_of_patchOf hl hp]
    split
    · exact Or.inl rfl
    · rename_i hout
      rcases hcover x hx with h | ⟨q, hq, hqx⟩
      · exact Or.inl h
      · rcases List.mem_cons.mp hq with rfl | hq'
        · exact absurd hqx hout
        · exact Or.inr ⟨q, hq', hqx⟩

end Slices

/-! ### Positioned writes -/

/-- A positioned write of all of `d`.  A write past the end leaves a hole of zeros, and
an empty write does nothing. -/
def writeAt (f : Bytes) (off : Nat) (d : Bytes) : Bytes :=
  if d = [] then f
  else f.take off ++ List.replicate (off - f.length) 0 ++ d ++ f.drop (off + d.length)

def setLen (f : Bytes) (n : Nat) : Bytes := f.take n ++ List.replicate (n - f.length) 0

@[simp] theorem writeAt_nil (f : Bytes) (off : Nat) : writeAt f off [] = f := by simp [writeAt]

theorem writeAt_eq {f : Bytes} {off : Nat} (h : off ≤ f.length) (d : Bytes) :
    writeAt f off d = f.take off ++ d ++ f.drop (off + d.length) := by
  by_cases hd : d = []
  · simp [writeAt, hd]
  · rw [writeAt, if_neg hd, Nat.sub_eq_zero_of_le h, List.replicate_zero, List.append_nil]

theorem writeAt_append (a b d : Bytes) :
    writeAt (a ++ b) a.length d = a ++ d ++ b.drop d.length := by
  rw [writeAt_eq (by simp), List.take_left, List.drop_append]
  simp

theorem writeAt_writeAt {f : Bytes} {off : Nat} (h : off ≤ f.length) (a b : Bytes) :
    writeAt (writeAt f off a) (off + a.length) b = writeAt f off (a ++ b) := by
  have htake : (f.take off ++ a).length = off + a.length := by
    rw [List.length_append, List.length_take, Nat.min_eq_left h]
  have hone := writeAt_append (f.take off ++ a) (f.drop (off + a.length)) b
  rw [htake, ← writeAt_eq h] at hone
  rw [hone, writeAt_eq h, List.drop_drop, List.length_append]
  simp only [List.append_assoc, Nat.add_assoc]

@[simp] theorem length_setLen (f : Bytes) (n : Nat) : (setLen f n).length = n := by
  rw [setLen, List.length_append, List.length_take, List.length_replicate]
  omega

theorem setLen_append (a b : Bytes) : setLen (a ++ b) a.length = a := by
  simp [setLen]

@[simp] theorem setLen_self (a : Bytes) : setLen a a.length = a := by
  simp [setLen]

@[simp] theorem setLen_nil (n : Nat) : setLen [] n = List.replicate n 0 := by simp [setLen]

/-! ### Little-endian numbers -/

/-- The number a byte string spells, least significant byte first. -/
def leNat : Bytes → Nat
  | [] => 0
  | b :: r => b.toNat + 256 * leNat r

def leBytes : Nat → Nat → Bytes
  | 0, _ => []
  | k + 1, n => UInt8.ofNat n :: leBytes k (n / 256)

@[simp] theorem length_leBytes (k n : Nat) : (leBytes k n).length = k := by
  induction k generalizing n with
  | zero => rfl
  | succ k ih => rw [leBytes, List.length_cons, ih]

theorem leNat_lt (b : Bytes) : leNat b < 256 ^ b.length := by
  induction b with
  | nil => simp [leNat]
  | cons c r ih =>
    have hc : c.toNat < 256 := c.toNat_lt
    rw [leNat, List.length_cons, Nat.pow_succ]
    omega

/-- **Reading undoes writing**, up to the bytes that did not fit. -/
theorem leNat_leBytes (k n : Nat) : leNat (leBytes k n) = n % 256 ^ k := by
  induction k generalizing n with
  | zero => simp [leBytes, leNat, Nat.mod_one]
  | succ k ih =>
    have hbyte : (UInt8.ofNat n).toNat = n % 256 := UInt8.toNat_ofNat'
    rw [leBytes, leNat, ih, hbyte, Nat.pow_succ, Nat.mul_comm (256 ^ k) 256, Nat.mod_mul]

theorem leNat_leBytes_of_lt {k n : Nat} (h : n < 256 ^ k) : leNat (leBytes k n) = n := by
  rw [leNat_leBytes, Nat.mod_eq_of_lt h]

/-- **Writing undoes reading.** -/
theorem leBytes_leNat (b : Bytes) : leBytes b.length (leNat b) = b := by
  induction b with
  | nil => rfl
  | cons c r ih =>
    have hc : c.toNat < 256 := c.toNat_lt
    have hhead : UInt8.ofNat (c.toNat + 256 * leNat r) = c := by
      apply UInt8.toNat.inj
      rw [UInt8.toNat_ofNat']
      omega
    have htail : (c.toNat + 256 * leNat r) / 256 = leNat r := by omega
    rw [List.length_cons, leNat, leBytes, hhead, htail, ih]

theorem leNat_append (a b : Bytes) : leNat (a ++ b) = leNat a + 256 ^ a.length * leNat b := by
  induction a with
  | nil => simp [leNat]
  | cons c r ih =>
    rw [List.cons_append, leNat, leNat, ih, List.length_cons, Nat.pow_succ, Nat.mul_add,
      Nat.mul_comm (256 ^ r.length) 256, Nat.mul_assoc, Nat.add_assoc]

theorem leBytes_mod (k n : Nat) : leBytes k (n % 256 ^ k) = leBytes k n := by
  have h := leBytes_leNat (leBytes k n)
  rwa [length_leBytes, leNat_leBytes] at h

/-! ### Big-endian numbers -/

def beBytes (k n : Nat) : Bytes := (leBytes k n).reverse

@[simp] theorem length_beBytes (k n : Nat) : (beBytes k n).length = k := by
  rw [beBytes, List.length_reverse, length_leBytes]

def beNat (b : Bytes) : Nat := leNat b.reverse

theorem beNat_lt (b : Bytes) : beNat b < 256 ^ b.length := by
  rw [beNat, ← List.length_reverse]
  exact leNat_lt _

theorem beNat_beBytes_of_lt {k n : Nat} (h : n < 256 ^ k) : beNat (beBytes k n) = n := by
  rw [beNat, beBytes, List.reverse_reverse, leNat_leBytes_of_lt h]

theorem beBytes_beNat (b : Bytes) : beBytes b.length (beNat b) = b := by
  rw [beNat, beBytes, ← List.length_reverse, leBytes_leNat, List.reverse_reverse]

theorem beBytes_mod (k n : Nat) : beBytes k (n % 256 ^ k) = beBytes k n := by
  rw [beBytes, beBytes, leBytes_mod]

theorem beNat_nil : beNat [] = 0 := rfl

theorem beNat_concat (r : Bytes) (c : UInt8) : beNat (r ++ [c]) = beNat r * 256 + c.toNat := by
  rw [beNat, List.reverse_append, List.reverse_singleton, List.singleton_append, leNat, beNat]
  omega

theorem beNat_cons (c : UInt8) (r : Bytes) :
    beNat (c :: r) = c.toNat * 256 ^ r.length + beNat r := by
  rw [beNat, beNat, List.reverse_cons, leNat_append, List.length_reverse, leNat, leNat,
    Nat.mul_zero, Nat.add_zero, Nat.mul_comm, Nat.add_comm]

/-! ### Exclusive or -/

theorem zipWith_xor_self : ∀ {a b : Bytes}, a.length ≤ b.length →
    List.zipWith (· ^^^ ·) (List.zipWith (· ^^^ ·) a b) b = a := by
  intro a b
  induction a generalizing b with
  | nil => simp
  | cons x a ih =>
    cases b with
    | nil => simp
    | cons y b =>
      intro h
      simp only [List.zipWith_cons_cons, UInt8.xor_assoc, UInt8.xor_self, UInt8.xor_zero,
        ih (Nat.le_of_succ_le_succ h)]

end Lib

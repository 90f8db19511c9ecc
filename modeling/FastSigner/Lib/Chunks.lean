import FastSigner.Lib.Bytes
import Mathlib.Data.List.Range

/-!
# Splitting a string into chunks

`chunks n l` cuts `l` into pieces of `n` elements, the last one possibly shorter
and none for the empty string.  It is defined through the position of each
piece, because that is how concurrent workers address them; `chunks_eq` is the
sequential reading, one piece off the front at a time.

* `flatten_chunks`: the pieces laid end to end are the string.
* `chunks_append`: cutting at a multiple of `n` splits the list of pieces.
-/

namespace Lib

variable {α : Type*}

def chunkCount (n m : Nat) : Nat := (m + n - 1) / n

/-- The pieces of size `n` of `l`, in order. -/
def chunks (n : Nat) (l : List α) : List (List α) :=
  (List.range (chunkCount n l.length)).map fun k => slice l (k * n) (k * n + n)

theorem chunkCount_zero {n : Nat} (hn : 0 < n) : chunkCount n 0 = 0 := by
  rw [chunkCount, Nat.zero_add]
  exact Nat.div_eq_of_lt (by omega)

theorem chunkCount_add {n : Nat} (hn : 0 < n) (m : Nat) :
    chunkCount n (n + m) = chunkCount n m + 1 := by
  rw [chunkCount, chunkCount, show n + m + n - 1 = m + n - 1 + n by omega,
    Nat.add_div_right _ hn]

theorem chunkCount_of_le {n m : Nat} (hm : 0 < m) (h : m ≤ n) : chunkCount n m = 1 := by
  rw [chunkCount, show m + n - 1 = (m - 1) + n by omega, Nat.add_div_right _ (by omega),
    Nat.div_eq_of_lt (by omega)]

theorem div_lt_chunkCount {n x m : Nat} (hn : 0 < n) (hx : x < m) : x / n < chunkCount n m := by
  rw [chunkCount, Nat.div_lt_iff_lt_mul hn]
  have h1 := Nat.div_add_mod (m + n - 1) n
  have h2 := Nat.mod_lt (m + n - 1) hn
  rw [Nat.mul_comm]
  omega

theorem le_chunkCount_mul {n : Nat} (hn : 0 < n) (m : Nat) : m ≤ chunkCount n m * n := by
  rw [chunkCount]
  have h1 := Nat.div_add_mod (m + n - 1) n
  have h2 := Nat.mod_lt (m + n - 1) hn
  rw [Nat.mul_comm] at h1
  omega

@[simp] theorem length_chunks (n : Nat) (l : List α) :
    (chunks n l).length = chunkCount n l.length := by
  simp [chunks]

theorem chunks_nil {n : Nat} (hn : 0 < n) : chunks n ([] : List α) = [] := by
  rw [chunks, List.length_nil, chunkCount_zero hn, List.range_zero, List.map_nil]

/-- The sequential reading: take one piece off the front and go on with the rest. -/
theorem chunks_eq {n : Nat} (hn : 0 < n) {l : List α} (hl : l ≠ []) :
    chunks n l = l.take n :: chunks n (l.drop n) := by
  have hpos : 0 < l.length := List.length_pos_iff.mpr hl
  have hcount : chunkCount n l.length = chunkCount n (l.drop n).length + 1 := by
    rw [List.length_drop]
    by_cases h : n ≤ l.length
    · rw [← chunkCount_add hn, show n + (l.length - n) = l.length by omega]
    · rw [chunkCount_of_le hpos (by omega), Nat.sub_eq_zero_of_le (by omega), chunkCount_zero hn]
  rw [chunks, hcount, List.range_succ_eq_map, List.map_cons, List.map_map]
  congr 1
  · simp
  · apply List.map_congr_left
    intro k _
    simp only [Function.comp, slice_drop]
    congr 1 <;> (rw [Nat.succ_mul]; omega)

/-- **The pieces laid end to end are the string.** -/
theorem flatten_chunks {n : Nat} (hn : 0 < n) (l : List α) : (chunks n l).flatten = l := by
  induction hm : l.length using Nat.strong_induction_on generalizing l with
  | _ m ih =>
    by_cases hl : l = []
    · rw [hl, chunks_nil hn, List.flatten_nil]
    · have hpos : 0 < l.length := List.length_pos_iff.mpr hl
      rw [chunks_eq hn hl, List.flatten_cons,
        ih (l.drop n).length (by rw [List.length_drop]; omega) _ rfl, List.take_append_drop]

/-- **Cutting at a multiple of the piece size splits the list of pieces.** -/
theorem chunks_append {n : Nat} (hn : 0 < n) (b : List α) :
    ∀ (c : Nat) (a : List α), a.length = c * n → chunks n (a ++ b) = chunks n a ++ chunks n b := by
  intro c
  induction c with
  | zero =>
    intro a ha
    rw [Nat.zero_mul] at ha
    rw [List.eq_nil_of_length_eq_zero ha, chunks_nil hn, List.nil_append, List.nil_append]
  | succ c ih =>
    intro a ha
    rw [Nat.succ_mul] at ha
    have hne : a ≠ [] := by
      intro he
      rw [he, List.length_nil] at ha
      omega
    rw [chunks_eq hn (by simp [hne]), chunks_eq hn hne, List.take_append_of_le_length (by omega),
      List.drop_append_of_le_length (by omega), ih _ (by rw [List.length_drop]; omega),
      List.cons_append]

theorem length_of_mem_chunks {n : Nat} (hn : 0 < n) {l c : List α} (hl : n ∣ l.length)
    (h : c ∈ chunks n l) : c.length = n := by
  obtain ⟨m, hm⟩ := hl
  obtain ⟨k, hk, rfl⟩ := List.mem_map.mp h
  have hcount : chunkCount n l.length = m := by
    rw [chunkCount, hm, Nat.add_sub_assoc hn, Nat.mul_add_div hn, Nat.div_eq_of_lt (by omega)]
    rfl
  rw [hcount, List.mem_range] at hk
  have hle : (k + 1) * n ≤ m * n := Nat.mul_le_mul_right n hk
  rw [Nat.succ_mul, Nat.mul_comm m] at hle
  rw [length_slice_of_le _ (by rw [hm]; exact hle)]
  omega

/-! ### Pieces of one size, collected by index -/

theorem length_flatten_of_length {n : Nat} {ls : List (List α)} (h : ∀ l ∈ ls, l.length = n) :
    ls.flatten.length = ls.length * n := by
  rw [List.length_flatten, List.map_congr_left h, List.map_const', List.sum_replicate_nat]

theorem slice_flatten_of_length {n : Nat} :
    ∀ {ls : List (List α)}, (∀ l ∈ ls, l.length = n) → ∀ {k : Nat} {l : List α},
      ls[k]? = some l → slice ls.flatten (k * n) (k * n + n) = l := by
  intro ls
  induction ls with
  | nil => intro _ k l hk; simp at hk
  | cons a ls ih =>
    intro h k l hk
    have ha : a.length = n := h a (by simp)
    cases k with
    | zero =>
      obtain rfl : a = l := by simpa using hk
      rw [List.flatten_cons, Nat.zero_mul, Nat.zero_add, ← ha, slice_zero, List.take_left]
    | succ k =>
      rw [List.flatten_cons, slice_append_right _ _ (by rw [ha, Nat.succ_mul]; omega), ha,
        show (k + 1) * n - n = k * n by rw [Nat.succ_mul]; omega,
        show (k + 1) * n + n - n = k * n + n by rw [Nat.succ_mul]; omega]
      exact ih (fun l hl => h l (by simp [hl])) (by simpa using hk)

/-- **Pieces copied to their places, in whatever order they arrive, make up the whole.** -/
theorem applyPatches_pieces {n : Nat} {ls : List (List α)} (h : ∀ l ∈ ls, l.length = n)
    (xs : List (Nat × List α)) (hkeys : (xs.map Prod.fst).Perm (List.range ls.length))
    (hval : ∀ x ∈ xs, ls[x.1]? = some x.2) (z : α) :
    applyPatches (List.replicate (ls.length * n) z) (xs.map fun x => (x.1 * n, x.2))
      = ls.flatten := by
  have hlen := length_flatten_of_length h
  apply applyPatches_eq
  · rw [List.length_replicate, hlen]
  · intro p hp
    obtain ⟨x, hx, rfl⟩ := List.mem_map.mp hp
    have hpiece : x.2.length = n := h x.2 (List.mem_of_getElem? (hval x hx))
    have hlt : x.1 < ls.length := by
      have := hkeys.mem_iff.mp (List.mem_map_of_mem hx)
      simpa using this
    refine ⟨?_, ?_⟩
    · simp only [hpiece, hlen]
      calc x.1 * n + n = (x.1 + 1) * n := (Nat.succ_mul x.1 n).symm
        _ ≤ ls.length * n := Nat.mul_le_mul_right n hlt
    · simp only [hpiece]
      exact (slice_flatten_of_length h (hval x hx)).symm
  · intro x hx
    right
    rw [hlen] at hx
    have hn : 0 < n := Nat.pos_of_mul_pos_left (Nat.zero_lt_of_lt hx)
    have hkey : x / n ∈ xs.map Prod.fst := by
      rw [hkeys.mem_iff, List.mem_range, Nat.div_lt_iff_lt_mul hn]
      exact hx
    obtain ⟨y, hy, hyk⟩ := List.mem_map.mp hkey
    have hpiece : y.2.length = n := h y.2 (List.mem_of_getElem? (hval y hy))
    have hdiv := Nat.div_add_mod x n
    have hmod := Nat.mod_lt x hn
    refine ⟨_, List.mem_map_of_mem hy, ?_⟩
    simp only [hpiece, hyk]
    rw [Nat.mul_comm] at hdiv
    omega

end Lib

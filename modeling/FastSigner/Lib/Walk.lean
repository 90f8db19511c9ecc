import Mathlib.Data.List.Chain
import Mathlib.Data.List.Perm.Subperm
import Mathlib.Data.List.Nodup
import Mathlib.Data.List.Range

/-!
# Walking along unused successors

`walk n R fuel used cur` goes on from node `cur` of a graph on `0, …, n - 1`: to the first
successor that has not been used, as long as there is one.  It ends on every
graph, cyclic or not, because no node is used twice.

* `walked`: the walk from a node starts there, repeats nothing, follows edges and
  stops only where every successor has been used.
* `walk_map`: renaming the nodes renames the walk, provided that no node has two
  successors.
-/

namespace Lib

/-- The first successor of `cur` that is not in `used`. -/
def nextUnused (n : Nat) (R : Nat → Nat → Bool) (used : List Nat) (cur : Nat) : Option Nat :=
  (List.range n).find? fun j => !used.contains j && R cur j

def walk (n : Nat) (R : Nat → Nat → Bool) : (fuel : Nat) → (used : List Nat) → (cur : Nat) → List Nat
  | 0, used, _ => used
  | fuel + 1, used, cur =>
    match nextUnused n R used cur with
    | some j => walk n R fuel (used ++ [j]) j
    | none => used

theorem nextUnused_eq_some {n : Nat} {R : Nat → Nat → Bool} {used : List Nat} {cur j : Nat}
    (h : nextUnused n R used cur = some j) : j < n ∧ j ∉ used ∧ R cur j = true := by
  have hp := List.find?_some h
  have hmem := List.mem_of_find?_eq_some h
  simp only [Bool.and_eq_true, Bool.not_eq_true', List.contains_eq_mem, decide_eq_false_iff_not] at hp
  exact ⟨List.mem_range.mp hmem, hp.1, hp.2⟩

theorem nextUnused_eq_none {n : Nat} {R : Nat → Nat → Bool} {used : List Nat} {cur : Nat} :
    nextUnused n R used cur = none ↔ ∀ j < n, R cur j = true → j ∈ used := by
  rw [nextUnused, List.find?_eq_none]
  constructor
  · intro h j hj hR
    by_contra hmem
    exact h j (List.mem_range.mpr hj) (by simp [hmem, hR])
  · intro h j hj hp
    simp only [Bool.and_eq_true, Bool.not_eq_true', List.contains_eq_mem,
      decide_eq_false_iff_not] at hp
    exact hp.1 (h j (List.mem_range.mp hj) hp.2)

/-- The nodes used so far: the way from `start` to `cur`. -/
structure Visited (n : Nat) (R : Nat → Nat → Bool) (start cur : Nat) (used : List Nat) : Prop where
  head : used.head? = some start
  last : used.getLast? = some cur
  nodup : used.Nodup
  bounded : ∀ i ∈ used, i < n
  linked : used.IsChain fun i j => R i j = true

theorem visited_singleton {n start : Nat} (R : Nat → Nat → Bool) (h : start < n) :
    Visited n R start start [start] where
  head := rfl
  last := rfl
  nodup := List.nodup_singleton start
  bounded _ hi := List.mem_singleton.mp hi ▸ h
  linked := List.isChain_singleton start

theorem Visited.next {n start cur j : Nat} {R : Nat → Nat → Bool} {used : List Nat}
    (h : Visited n R start cur used) (hj : nextUnused n R used cur = some j) :
    Visited n R start j (used ++ [j]) := by
  obtain ⟨hlt, hnew, hR⟩ := nextUnused_eq_some hj
  refine ⟨?_, List.getLast?_concat, ?_, ?_, ?_⟩
  · rw [List.head?_append, h.head]
    rfl
  · rw [List.nodup_append]
    refine ⟨h.nodup, List.nodup_singleton j, ?_⟩
    rintro a ha b hb rfl
    exact hnew (List.mem_singleton.mp hb ▸ ha)
  · intro i hi
    rcases List.mem_append.mp hi with hi | hi
    · exact h.bounded i hi
    · exact List.mem_singleton.mp hi ▸ hlt
  · refine h.linked.append (List.isChain_singleton j) ?_
    intro x hx y hy
    rw [h.last] at hx
    cases hx
    cases hy
    exact hR

theorem Visited.length_le {n start cur : Nat} {R : Nat → Nat → Bool} {used : List Nat}
    (h : Visited n R start cur used) : used.length ≤ n := by
  have hsub : used ⊆ List.range n := fun i hi => List.mem_range.mpr (h.bounded i hi)
  have hle := (List.subperm_of_subset h.nodup hsub).length_le
  rwa [List.length_range] at hle

theorem Visited.all_used {n start cur : Nat} {R : Nat → Nat → Bool} {used : List Nat}
    (h : Visited n R start cur used) (hlen : n ≤ used.length) {j : Nat} (hj : j < n) : j ∈ used := by
  have hsub : used ⊆ List.range n := fun i hi => List.mem_range.mpr (h.bounded i hi)
  have hperm := (List.subperm_of_subset h.nodup hsub).perm_of_length_le
    (by rw [List.length_range]; exact hlen)
  exact hperm.mem_iff.mpr (List.mem_range.mpr hj)

/-- **Run lemma**: with a turn for every unused node, the walk stops where no successor is left. -/
theorem Visited.walk {n start : Nat} {R : Nat → Nat → Bool} :
    ∀ {fuel cur : Nat} {used : List Nat}, Visited n R start cur used → n < fuel + used.length →
      ∃ last, Visited n R start last (Lib.walk n R fuel used cur) ∧
        ∀ j < n, R last j = true → j ∈ Lib.walk n R fuel used cur := by
  intro fuel
  induction fuel with
  | zero =>
    intro cur used h hfuel
    have := h.length_le
    omega
  | succ fuel ih =>
    intro cur used h hfuel
    rw [Lib.walk]
    cases hj : nextUnused n R used cur with
    | none => exact ⟨cur, h, nextUnused_eq_none.mp hj⟩
    | some j => exact ih (h.next hj) (by rw [List.length_append, List.length_singleton]; omega)

theorem walked {n start : Nat} (R : Nat → Nat → Bool) (h : start < n) :
    ∃ last, Visited n R start last (walk n R n [start] start) ∧
      ∀ j < n, R last j = true → j ∈ walk n R n [start] start :=
  (visited_singleton R h).walk (by rw [List.length_singleton]; exact Nat.lt_succ_self n)

section Rename

variable {n : Nat} {R R' : Nat → Nat → Bool} {g : Nat → Nat}

theorem mem_map_iff (hinj : ∀ i < n, ∀ j < n, g i = g j → i = j) {used : List Nat}
    (hused : ∀ i ∈ used, i < n) {i : Nat} (hi : i < n) : g i ∈ used.map g ↔ i ∈ used := by
  constructor
  · intro h
    obtain ⟨k, hk, hgk⟩ := List.mem_map.mp h
    exact hinj k (hused k hk) i hi hgk ▸ hk
  · exact List.mem_map_of_mem

theorem nextUnused_map (hg : ∀ i < n, g i < n) (hsurj : ∀ j < n, ∃ i < n, g i = j)
    (hinj : ∀ i < n, ∀ j < n, g i = g j → i = j)
    (hR : ∀ i < n, ∀ j < n, R' (g i) (g j) = R i j)
    (hfun : ∀ i < n, ∀ j < n, ∀ k < n, R i j = true → R i k = true → j = k)
    {used : List Nat} (hused : ∀ i ∈ used, i < n) {cur : Nat} (hcur : cur < n) :
    nextUnused n R' (used.map g) (g cur) = (nextUnused n R used cur).map g := by
  cases hj : nextUnused n R used cur with
  | none =>
    rw [Option.map_none, nextUnused_eq_none]
    intro x hx hRx
    obtain ⟨i, hi, rfl⟩ := hsurj x hx
    rw [hR cur hcur i hi] at hRx
    exact (mem_map_iff hinj hused hi).mpr (nextUnused_eq_none.mp hj i hi hRx)
  | some j =>
    obtain ⟨hlt, hnew, hRj⟩ := nextUnused_eq_some hj
    cases hx : nextUnused n R' (used.map g) (g cur) with
    | none =>
      have := nextUnused_eq_none.mp hx (g j) (hg j hlt) (by rw [hR cur hcur j hlt]; exact hRj)
      exact absurd ((mem_map_iff hinj hused hlt).mp this) hnew
    | some x =>
      obtain ⟨hxlt, -, hRx⟩ := nextUnused_eq_some hx
      obtain ⟨i, hi, rfl⟩ := hsurj x hxlt
      rw [hR cur hcur i hi] at hRx
      rw [Option.map_some, hfun cur hcur i hi j hlt hRx hRj]

/-- **Renaming the nodes renames the walk.** -/
theorem walk_map (hg : ∀ i < n, g i < n) (hsurj : ∀ j < n, ∃ i < n, g i = j)
    (hinj : ∀ i < n, ∀ j < n, g i = g j → i = j)
    (hR : ∀ i < n, ∀ j < n, R' (g i) (g j) = R i j)
    (hfun : ∀ i < n, ∀ j < n, ∀ k < n, R i j = true → R i k = true → j = k) :
    ∀ {fuel : Nat} {used : List Nat}, (∀ i ∈ used, i < n) → ∀ {cur : Nat}, cur < n →
      walk n R' fuel (used.map g) (g cur) = (walk n R fuel used cur).map g := by
  intro fuel
  induction fuel with
  | zero => intro used _ cur _; rfl
  | succ fuel ih =>
    intro used hused cur hcur
    rw [walk, walk, nextUnused_map hg hsurj hinj hR hfun hused hcur]
    cases hj : nextUnused n R used cur with
    | none => rfl
    | some j =>
      have hlt := (nextUnused_eq_some hj).1
      have hrec := @ih (used ++ [j]) (fun i hi => by
        rcases List.mem_append.mp hi with hi | hi
        · exact hused i hi
        · exact List.mem_singleton.mp hi ▸ hlt) j hlt
      rw [List.map_append] at hrec
      exact hrec

end Rename

end Lib

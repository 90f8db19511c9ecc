import Mathlib.Data.List.Basic

/-!
# Filling a table

An array of optional values, filled at given indices in any order.  `Filled val n
done t` says that `t` has `n` cells, that those of `done` hold their value and that
the others are empty.
-/

namespace Lib

variable {α : Type}

/-- The cells of `done` hold what `val` says, the others nothing. -/
def Filled (val : Nat → α) (n : Nat) (done : List Nat) (t : List (Option α)) : Prop :=
  t.length = n ∧ ∀ k, k < n → t[k]? = some (if k ∈ done then some (val k) else none)

section

variable {val : Nat → α} {n : Nat} {done : List Nat} {t : List (Option α)}

theorem filled_replicate (val : Nat → α) (n : Nat) : Filled val n [] (List.replicate n none) := by
  refine ⟨List.length_replicate, fun k hk => ?_⟩
  rw [List.getElem?_replicate, if_pos hk, if_neg (List.not_mem_nil)]

theorem Filled.set (h : Filled val n done t) (i : Nat) :
    Filled val n (done ++ [i]) (t.set i (some (val i))) := by
  refine ⟨by rw [List.length_set, h.1], ?_⟩
  intro k hk
  have hlen : k < t.length := by
    rw [h.1]
    exact hk
  rw [List.getElem?_set]
  by_cases hki : i = k
  · subst hki
    rw [if_pos rfl, if_pos hlen, if_pos (by simp)]
  · rw [if_neg hki, h.2 k hk]
    simp [Ne.symm hki]

theorem Filled.foldl_set :
    ∀ (l : List (Nat × α)) {done : List Nat} {t : List (Option α)}, Filled val n done t →
      (∀ p ∈ l, p.2 = val p.1) →
      Filled val n (done ++ l.map Prod.fst) (l.foldl (fun t p => t.set p.1 (some p.2)) t) := by
  intro l
  induction l with
  | nil =>
    intro done t h _
    simpa using h
  | cons p l ih =>
    intro done t h hval
    have hstep := ih (h.set p.1) (fun q hq => hval q (by simp [hq]))
    rw [List.append_assoc, List.singleton_append] at hstep
    rw [List.foldl_cons, hval p (by simp)]
    exact hstep

/-- A full table is the list of the values. -/
theorem Filled.eq_map (h : Filled val n done t) (hall : ∀ k, k < n → k ∈ done) :
    t = ((List.range n).map val).map some := by
  apply List.ext_getElem?
  intro k
  rw [List.getElem?_map, List.getElem?_map]
  by_cases hk : k < n
  · rw [h.2 k hk, if_pos (hall k hk), List.getElem?_range hk]
    rfl
  · rw [List.getElem?_eq_none (by rw [h.1]; omega), List.getElem?_eq_none (by simpa using hk)]
    rfl

end

end Lib

import FastSigner.Keys.Pkcs12
import FastSigner.Lib.Walk
import Mathlib.Logic.Equiv.Defs
import Mathlib.Data.List.OfFn

/-!
# Certificate chains

`build_chain` walks from a certificate to the one that has its issuer as subject,
never to one that it has used, and not on from a self-issued one: it is
`Lib.walk` along `issuedBy`.  `buildChain_spec` says what comes out, and that the
order in which the bags are stored does not matter as long as no two of them have
the same subject.
-/

namespace FastSigner.Keys.Pkcs12

open Lib

def issuer (names : List (Bytes × Bytes)) (i : Nat) : Bytes := (names.getD i ([], [])).1

def subject (names : List (Bytes × Bytes)) (i : Nat) : Bytes := (names.getD i ([], [])).2

/-- The chain may go on from `i` to `j`. -/
def issuedBy (names : List (Bytes × Bytes)) (i j : Nat) : Bool :=
  issuer names i != subject names i && subject names j == issuer names i

theorem issuedBy_iff {names : List (Bytes × Bytes)} {i j : Nat} :
    issuedBy names i j = true ↔
      issuer names i ≠ subject names i ∧ subject names j = issuer names i := by
  rw [issuedBy, Bool.and_eq_true, bne_iff_ne, beq_iff_eq]

theorem nextUnused_issuedBy {names : List (Bytes × Bytes)} {used : List Nat} {cur : Nat}
    (h : issuer names cur ≠ subject names cur) :
    nextUnused names.length (issuedBy names) used cur
      = (List.range names.length).find? fun i =>
          !used.contains i && (names.getD i ([], [])).2 == (names.getD cur ([], [])).1 := by
  rw [nextUnused]
  congr 1
  funext i
  rw [issuedBy, bne_iff_ne.mpr h, Bool.true_and]
  rfl

/-- The loop of `build_chain` is a walk. -/
theorem chainFrom_eq_walk {names : List (Bytes × Bytes)} {start : Nat} :
    ∀ {fuel cur : Nat} {used : List Nat},
      Visited names.length (issuedBy names) start cur used →
      chainFrom names fuel used cur = walk names.length (issuedBy names) fuel used cur := by
  intro fuel
  induction fuel with
  | zero => intro cur used _; rfl
  | succ fuel ih =>
    intro cur used h
    rw [chainFrom, walk]
    by_cases hgo : used.length < names.length
        ∧ (names.getD cur ([], [])).1 ≠ (names.getD cur ([], [])).2
    · rw [if_pos hgo, ← nextUnused_issuedBy hgo.2]
      cases hj : nextUnused names.length (issuedBy names) used cur with
      | none => rfl
      | some j => exact ih (h.next hj)
    · have hnone : nextUnused names.length (issuedBy names) used cur = none := by
        rw [nextUnused_eq_none]
        intro j hj hR
        by_cases hlen : used.length < names.length
        · exact absurd ⟨hlen, (issuedBy_iff.mp hR).1⟩ hgo
        · exact h.all_used (by omega) hj
      rw [if_neg hgo, hnone]

/-- The loop with its index checked; nothing when an index is out of range or the turns run out. -/
def chainChecked (names : List (Bytes × Bytes)) : (fuel : Nat) → (used : List Nat) → (cur : Nat) →
    Option (List Nat)
  | 0, _, _ => none
  | fuel + 1, used, cur =>
    match names[cur]? with
    | none => none
    | some name =>
      if used.length < names.length ∧ name.1 ≠ name.2 then
        match (List.range names.length).find? fun i =>
            !used.contains i && (names.getD i ([], [])).2 == name.1 with
        | some i => chainChecked names fuel (used ++ [i]) i
        | none => some used
      else some used

theorem chainChecked_eq {names : List (Bytes × Bytes)} {start : Nat} :
    ∀ {fuel cur : Nat} {used : List Nat},
      Visited names.length (issuedBy names) start cur used → names.length < fuel + used.length →
      chainChecked names fuel used cur = some (chainFrom names fuel used cur) := by
  intro fuel
  induction fuel with
  | zero =>
    intro cur used h hfuel
    have := h.length_le
    omega
  | succ fuel ih =>
    intro cur used h hfuel
    have hcur : cur < names.length := h.bounded cur (List.mem_of_getLast? h.last)
    have hget : names[cur]? = some (names.getD cur ([], [])) := by
      rw [List.getD_eq_getElem?_getD, List.getElem?_eq_getElem hcur, Option.getD_some]
    rw [chainChecked, hget, chainFrom]
    simp only
    by_cases hgo : used.length < names.length
        ∧ (names.getD cur ([], [])).1 ≠ (names.getD cur ([], [])).2
    · rw [if_pos hgo, if_pos hgo, ← nextUnused_issuedBy hgo.2]
      cases hj : nextUnused names.length (issuedBy names) used cur with
      | none => rfl
      | some j => exact ih (h.next hj) (by rw [List.length_append, List.length_singleton]; omega)
    · rw [if_neg hgo, if_neg hgo]

/-! ### Bags in another order -/

section Reorder

variable {certs : List CertBag} {names : List (Bytes × Bytes)}

theorem length_names (h : certs.mapM (fun c => certIssuerSubject c.der) = .ok names) :
    names.length = certs.length := by
  have := congrArg List.length (mapM_eq_ok_iff.mp h)
  rwa [List.length_map, List.length_map, eq_comm] at this

theorem certIssuerSubject_get (h : certs.mapM (fun c => certIssuerSubject c.der) = .ok names)
    (i : Fin certs.length) :
    certIssuerSubject (certs.get i).der = .ok (names.getD i ([], [])) := by
  have hi : i.val < names.length := by
    rw [length_names h]
    exact i.isLt
  have hget := congrArg (fun l : List (Except String (Bytes × Bytes)) => l[i.val]?)
    (mapM_eq_ok_iff.mp h)
  rw [List.getElem?_map, List.getElem?_map, List.getElem?_eq_getElem i.isLt,
    List.getElem?_eq_getElem hi, Option.map_some, Option.map_some, Option.some.injEq] at hget
  rw [List.getD_eq_getElem?_getD, List.getElem?_eq_getElem hi, Option.getD_some, ← hget]
  rfl

/-- The bags in another order: `σ i` is where the `i`-th one was. -/
def reordered (certs : List CertBag) (σ : Equiv.Perm (Fin certs.length)) : List CertBag :=
  List.ofFn fun i => certs.get (σ i)

def newIndex (certs : List CertBag) (σ : Equiv.Perm (Fin certs.length)) (i : Nat) : Nat :=
  if h : i < certs.length then σ.symm ⟨i, h⟩ else i

def reorderedNames (names : List (Bytes × Bytes)) (σ : Equiv.Perm (Fin certs.length)) :
    List (Bytes × Bytes) := List.ofFn fun i => names.getD (σ i) ([], [])

variable (σ : Equiv.Perm (Fin certs.length))

theorem newIndex_fin (i : Fin certs.length) : newIndex certs σ i = σ.symm i := dif_pos i.isLt

theorem mapM_reordered (h : certs.mapM (fun c => certIssuerSubject c.der) = .ok names) :
    (reordered certs σ).mapM (fun c => certIssuerSubject c.der) = .ok (reorderedNames names σ) := by
  rw [mapM_eq_ok_iff, reordered, reorderedNames, List.map_ofFn, List.map_ofFn]
  congr 1
  funext i
  exact certIssuerSubject_get h (σ i)

theorem getD_reordered (i : Fin certs.length) :
    (reordered certs σ).getD (newIndex certs σ i) ⟨[], none⟩ = certs.getD i ⟨[], none⟩ := by
  rw [newIndex_fin, reordered, List.getD_eq_getElem?_getD, List.getElem?_ofFn,
    dif_pos (σ.symm i).isLt, Option.getD_some, Fin.eta, Equiv.apply_symm_apply,
    List.getD_eq_getElem?_getD, List.getElem?_eq_getElem i.isLt, Option.getD_some]
  rfl

theorem getD_reorderedNames (i : Fin certs.length) :
    (reorderedNames names σ).getD (newIndex certs σ i) ([], []) = names.getD i ([], []) := by
  rw [newIndex_fin, reorderedNames, List.getD_eq_getElem?_getD, List.getElem?_ofFn,
    dif_pos (σ.symm i).isLt, Option.getD_some, Fin.eta, Equiv.apply_symm_apply]

theorem newIndex_lt : ∀ i < certs.length, newIndex certs σ i < certs.length := by
  intro i hi
  rw [newIndex, dif_pos hi]
  exact (σ.symm ⟨i, hi⟩).isLt

theorem newIndex_surjective : ∀ j < certs.length, ∃ i < certs.length, newIndex certs σ i = j := by
  intro j hj
  refine ⟨σ ⟨j, hj⟩, (σ ⟨j, hj⟩).isLt, ?_⟩
  rw [newIndex_fin, Equiv.symm_apply_apply]

theorem newIndex_injective :
    ∀ i < certs.length, ∀ j < certs.length, newIndex certs σ i = newIndex certs σ j → i = j := by
  intro i hi j hj h
  rw [newIndex, newIndex, dif_pos hi, dif_pos hj] at h
  exact congrArg Fin.val (σ.symm.injective (Fin.ext h))

/-- **The same certificates in another order make the same chain**, if no two have one subject. -/
theorem buildChain_reordered (h : certs.mapM (fun c => certIssuerSubject c.der) = .ok names)
    (hdistinct : (names.map Prod.snd).Nodup) (leaf : Fin certs.length) :
    buildChain (reordered certs σ) (σ.symm leaf) = buildChain certs leaf := by
  have hlen := length_names h
  have hlen' : (reorderedNames names σ).length = certs.length := List.length_ofFn
  have hclen : (reordered certs σ).length = certs.length := List.length_ofFn
  have hlink : ∀ i < certs.length, ∀ j < certs.length,
      issuedBy (reorderedNames names σ) (newIndex certs σ i) (newIndex certs σ j)
        = issuedBy names i j := by
    intro i hi j hj
    have h1 := @getD_reorderedNames certs names σ ⟨i, hi⟩
    have h2 := @getD_reorderedNames certs names σ ⟨j, hj⟩
    simp only [issuedBy, issuer, subject] at h1 h2 ⊢
    rw [h1, h2]
  have hsubject : ∀ i < certs.length, subject names i = (names.map Prod.snd).getD i [] := by
    intro i hi
    rw [subject, List.getD_eq_getElem?_getD, List.getD_eq_getElem?_getD, List.getElem?_map]
    cases names[i]? <;> rfl
  have hfun : ∀ i < certs.length, ∀ j < certs.length, ∀ k < certs.length,
      issuedBy names i j = true → issuedBy names i k = true → j = k := by
    intro i _ j hj k hk hij hik
    have heq := (issuedBy_iff.mp hij).2.trans (issuedBy_iff.mp hik).2.symm
    rw [hsubject j hj, hsubject k hk] at heq
    have hj' : j < (names.map Prod.snd).length := by rw [List.length_map, hlen]; exact hj
    have hk' : k < (names.map Prod.snd).length := by rw [List.length_map, hlen]; exact hk
    rw [List.getD_eq_getElem?_getD, List.getD_eq_getElem?_getD, List.getElem?_eq_getElem hj',
      List.getElem?_eq_getElem hk', Option.getD_some, Option.getD_some] at heq
    exact (hdistinct.getElem_inj_iff).mp heq
  have hvisited := visited_singleton (issuedBy names) (show leaf.val < names.length by omega)
  have hvisited' := visited_singleton (issuedBy (reorderedNames names σ))
    (show (σ.symm leaf).val < (reorderedNames names σ).length by
      rw [hlen']; exact (σ.symm leaf).isLt)
  have hwalk := @walk_map _ _ _ _ (newIndex_lt σ) (newIndex_surjective σ) (newIndex_injective σ)
    hlink hfun certs.length [leaf.val] (fun i hi => List.mem_singleton.mp hi ▸ leaf.isLt) leaf leaf.isLt
  obtain ⟨_, hall, -⟩ := walked (issuedBy names) (show leaf.val < names.length by omega)
  rw [hlen] at hall
  rw [buildChain, buildChain, h, mapM_reordered σ h, ok_bind, ok_bind, chainFrom_eq_walk hvisited,
    chainFrom_eq_walk hvisited', hclen, hlen, hlen']
  rw [List.map_singleton, newIndex_fin] at hwalk
  rw [hwalk, List.map_map]
  congr 1
  apply List.map_congr_left
  intro i hi
  have := getD_reordered σ ⟨i, hall.bounded i hi⟩
  simp only at this
  rw [Function.comp_apply, this]

end Reorder

/-- **The chain that `build_chain` returns**: it starts with the leaf, repeats no bag, goes from
each certificate to one whose subject is the issuer, and stops only at a self-issued one or where
no unused bag has the wanted subject; storage order does not matter when subjects are distinct. -/
theorem buildChain_spec (certs : List CertBag) (names : List (Bytes × Bytes))
    (h : certs.mapM (fun c => certIssuerSubject c.der) = .ok names) (leaf : Fin certs.length) :
    (∃ (chain : List Nat) (last : Nat),
      chainChecked names certs.length [leaf.val] leaf = some chain ∧
      buildChain certs leaf = .ok (chain.map fun i => (certs.getD i ⟨[], none⟩).der) ∧
      chain.head? = some leaf.val ∧ chain.Nodup ∧ (∀ i ∈ chain, i < certs.length) ∧
      chain.IsChain (fun i j => subject names j = issuer names i) ∧
      chain.getLast? = some last ∧
      (issuer names last = subject names last ∨
        ∀ j < certs.length, j ∉ chain → subject names j ≠ issuer names last)) ∧
    ((names.map Prod.snd).Nodup → ∀ σ : Equiv.Perm (Fin certs.length),
      buildChain (List.ofFn fun i => certs.get (σ i)) (σ.symm leaf) = buildChain certs leaf) := by
  have hlen := length_names h
  have hleaf : leaf.val < names.length := by omega
  have hstart := visited_singleton (issuedBy names) hleaf
  obtain ⟨last, hvisited, hstop⟩ := walked (issuedBy names) hleaf
  rw [← chainFrom_eq_walk hstart, hlen] at hvisited hstop
  refine ⟨⟨_, last, chainChecked_eq hstart ?_, ?_, hvisited.head, hvisited.nodup, hvisited.bounded, ?_,
    hvisited.last, ?_⟩, fun hdistinct σ => buildChain_reordered σ h hdistinct leaf⟩
  · rw [List.length_singleton]
    omega
  · rw [buildChain, h, ok_bind]
    rfl
  · exact hvisited.linked.imp fun i j hij => (issuedBy_iff.mp hij).2
  · by_cases hself : issuer names last = subject names last
    · exact Or.inl hself
    · right
      intro j hj hnew hsub
      exact hnew (hstop j hj (issuedBy_iff.mpr ⟨hself, hsub⟩))

/-- A certificate with one-byte names. -/
def tinyCert (issuer subject : UInt8) : CertBag :=
  ⟨[0x30, 0x0f, 0x30, 0x0d, 2, 1, 1, 0x30, 0, 0x30, 1, issuer, 0x30, 0, 0x30, 1, subject], none⟩

/-- Two certificates that issued each other, in either order. -/
theorem buildChain_cycle :
    buildChain [tinyCert 1 2, tinyCert 2 1] 1 = buildChain [tinyCert 2 1, tinyCert 1 2] 0 :=
  (buildChain_spec [tinyCert 2 1, tinyCert 1 2] [([0x30, 1, 2], [0x30, 1, 1]),
    ([0x30, 1, 1], [0x30, 1, 2])] rfl 0).2 (by decide) (Equiv.swap 0 1)

end FastSigner.Keys.Pkcs12

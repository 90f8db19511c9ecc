import FastSigner.Lib.Chunks

/-!
# Hash trees of height one

A list of strings is hashed in two levels: each string behind a header, and then
the hashes, one after another, behind another header.  Headers may depend on
lengths; all headers of a kind are equally long.

`TreeHash.eq_or_collides`: two lists with the same hash are equal, or two different
messages have the same hash among those that were hashed for them.
`sections_of_chunks` is about lists of chunks: the sections that were cut up are
known again, if the last is one chunk and the lengths of the first agree.
-/

namespace Lib

/-- A message of each group, different and with the same hash. -/
def Collides (H : Bytes → Bytes) (ms ms' : List Bytes) : Prop :=
  ∃ m ∈ ms, ∃ m' ∈ ms', m ≠ m' ∧ H m = H m'

theorem Collides.mono {H : Bytes → Bytes} {ms ns ms' ns' : List Bytes} (h : Collides H ms ms')
    (hm : ms ⊆ ns) (hm' : ms' ⊆ ns') : Collides H ns ns' := by
  obtain ⟨m, hmem, m', hmem', hne, heq⟩ := h
  exact ⟨m, hm hmem, m', hm' hmem', hne, heq⟩

structure TreeHash where
  H : Bytes → Bytes
  width : Nat
  width_pos : 0 < width
  length_H : ∀ m, (H m).length = width
  leafHead : Nat → Bytes
  leafHeadLen : Nat
  length_leafHead : ∀ n, (leafHead n).length = leafHeadLen
  rootHead : Nat → Bytes
  rootHeadLen : Nat
  length_rootHead : ∀ n, (rootHead n).length = rootHeadLen

namespace TreeHash

variable (T : TreeHash)

def leaf (c : Bytes) : Bytes := T.leafHead c.length ++ c

def root (cs : List Bytes) : Bytes := T.rootHead cs.length ++ cs.flatMap fun c => T.H (T.leaf c)

def hash (cs : List Bytes) : Bytes := T.H (T.root cs)

def messages (cs : List Bytes) : List Bytes := T.root cs :: cs.map T.leaf

variable {T} {cs cs' : List Bytes}

theorem leaf_inj {c c' : Bytes} (h : T.leaf c = T.leaf c') : c = c' :=
  (List.append_inj h (by rw [T.length_leafHead, T.length_leafHead])).2

theorem map_leaf_of_flatMap :
    ∀ {cs cs' : List Bytes}, (cs.flatMap fun c => T.H (T.leaf c)) = (cs'.flatMap fun c => T.H (T.leaf c)) →
      cs.map (fun c => T.H (T.leaf c)) = cs'.map fun c => T.H (T.leaf c) := by
  have hpos := T.width_pos
  intro cs
  induction cs with
  | nil =>
    intro cs' h
    cases cs' with
    | nil => rfl
    | cons c' cs' =>
      have := congrArg List.length h
      rw [List.flatMap_nil, List.flatMap_cons, List.length_append, T.length_H, List.length_nil] at this
      omega
  | cons c cs ih =>
    intro cs' h
    cases cs' with
    | nil =>
      have := congrArg List.length h
      rw [List.flatMap_nil, List.flatMap_cons, List.length_append, T.length_H, List.length_nil] at this
      omega
    | cons c' cs' =>
      rw [List.flatMap_cons, List.flatMap_cons] at h
      obtain ⟨hhead, htail⟩ := List.append_inj h (by rw [T.length_H, T.length_H])
      rw [List.map_cons, List.map_cons, hhead, ih htail]

theorem eq_or_collides_leaves :
    ∀ {cs cs' : List Bytes},
      cs.map (fun c => T.H (T.leaf c)) = cs'.map (fun c => T.H (T.leaf c)) →
      cs = cs' ∨ Collides T.H (cs.map T.leaf) (cs'.map T.leaf) := by
  intro cs
  induction cs with
  | nil =>
    intro cs' h
    exact Or.inl (List.map_eq_nil_iff.mp h.symm).symm
  | cons c cs ih =>
    intro cs' h
    cases cs' with
    | nil => cases h
    | cons c' cs' =>
      obtain ⟨hhead, htail⟩ := List.cons.inj h
      by_cases hc : c = c'
      · rcases ih htail with heq | hcol
        · exact Or.inl (by rw [hc, heq])
        · exact Or.inr (hcol.mono (List.subset_cons_self _ _) (List.subset_cons_self _ _))
      · exact Or.inr ⟨_, List.mem_cons_self, _, List.mem_cons_self, fun h => hc (leaf_inj h), hhead⟩

/-- **Lists with the same hash are equal, or the hash function fails** on two of the messages that
were hashed for them. -/
theorem eq_or_collides (h : T.hash cs = T.hash cs') :
    cs = cs' ∨ Collides T.H (T.messages cs) (T.messages cs') := by
  by_cases hroot : T.root cs = T.root cs'
  · have hflat := (List.append_inj hroot (by rw [T.length_rootHead, T.length_rootHead])).2
    rcases eq_or_collides_leaves (map_leaf_of_flatMap hflat) with heq | hcol
    · exact Or.inl heq
    · exact Or.inr (hcol.mono (List.subset_cons_self _ _) (List.subset_cons_self _ _))
  · exact Or.inr ⟨_, List.mem_cons_self, _, List.mem_cons_self, hroot, h⟩

end TreeHash

/-! ### Sections -/

variable {α : Type*}

theorem chunks_of_le {n : Nat} {l : List α} (hne : l ≠ []) (h : l.length ≤ n) : chunks n l = [l] := by
  have hn : 0 < n := Nat.lt_of_lt_of_le (List.length_pos_iff.mpr hne) h
  rw [chunks_eq hn hne, List.take_of_length_le h, List.drop_of_length_le h, chunks_nil hn]

theorem chunks_inj {n : Nat} (hn : 0 < n) {a b : List α} (h : chunks n a = chunks n b) : a = b := by
  rw [← flatten_chunks hn a, h, flatten_chunks hn]

/-- **Sections are known again from their chunks**, if the last section is one chunk and says how
long the first one is. -/
theorem sections_of_chunks {n : Nat} {c d e c' d' e' : List α}
    (he : e ≠ [] ∧ e.length ≤ n) (he' : e' ≠ [] ∧ e'.length ≤ n)
    (hlen : e = e' → c.length = c'.length)
    (h : [c, d, e].flatMap (chunks n) = [c', d', e'].flatMap (chunks n)) :
    c = c' ∧ d = d' ∧ e = e' := by
  have hn : 0 < n := Nat.lt_of_lt_of_le (List.length_pos_iff.mpr he.1) he.2
  simp only [List.flatMap_cons, List.flatMap_nil, List.append_nil, chunks_of_le he.1 he.2,
    chunks_of_le he'.1 he'.2, ← List.append_assoc] at h
  obtain ⟨hfront, hlast⟩ := List.append_inj' h rfl
  obtain rfl : e = e' := (List.cons.inj hlast).1
  obtain ⟨hc, hd⟩ := List.append_inj hfront (by rw [length_chunks, length_chunks, hlen rfl])
  exact ⟨chunks_inj hn hc, chunks_inj hn hd, rfl⟩

end Lib

import FastSigner.Lib.Table
import FastSigner.Align.Rewrite

/-!
# The layout of a rewritten archive

What the planner lays out, seen from the Central Directory.  `placements` gives
the records of an archive that `planAll` accepts; `newCd_flatten` says that the
new directory lists the kept records in their old order, each with the offset of
its placement.
-/

namespace FastSigner.Align

open Lib Zip

/-! ### The placements of an archive -/

/-- The records that the planner laid out, in file order. -/
structure Placements (A : Archive) (b : Bytes) (ps : List Placed) : Prop where
  order : ∃ order, fileOrder A.entries A.entriesEnd = .ok order ∧
    ps.map Placed.entry = A.processed order
  ok : ∀ p ∈ ps, p.Ok A b
  laid : Laid 0 0 ps

section Planner

variable {A : Archive} {b : Bytes}

/-- **A plan is a layout.** -/
theorem placements (hin : A.input.Honest b) (hb : A.entriesEnd ≤ b.length) {plans : List Plan}
    {dropped : Nat} (h : planAll A = .ok (plans, dropped)) :
    ∃ ps, Placements A b ps ∧ plans = plansFor A.entriesEnd 0 0 ps := by
  rw [planAll, bind_eq_ok] at h
  obtain ⟨order, horder, h⟩ := h
  rw [bind_eq_ok] at h
  obtain ⟨plans', hplans, h⟩ := h
  simp only [Except.ok.injEq, Prod.mk.injEq] at h
  obtain ⟨rfl, -⟩ := h
  obtain ⟨-, -, hinside⟩ := fileOrder_eq_ok_iff.mp horder
  obtain ⟨ps, hps, hok, hlaid, rfl⟩ :=
    planLoop_eq_ok hin hb order _ 0 0 _ (HeaderReader.shows_new _ _) hinside hplans
  exact ⟨ps, ⟨⟨order, horder, hps⟩, hok, hlaid⟩, rfl⟩

theorem laid_pairwise :
    ∀ (ps : List Placed) (cursor consumed : Nat), Laid cursor consumed ps →
      (∀ p ∈ ps, p.Ok A b) →
      (∀ p ∈ ps, consumed ≤ p.e.lfhOff ∧ cursor ≤ p.newOff) ∧
        ps.Pairwise fun p q => p.stop ≤ q.e.lfhOff ∧ p.newOff + p.outLen ≤ q.newOff := by
  intro ps
  induction ps with
  | nil => simp
  | cons p ps ih =>
    intro cursor consumed hlaid hok
    obtain ⟨hcons, hnew, hrest⟩ := hlaid
    obtain ⟨hall, hpair⟩ := ih _ _ hrest (fun q hq => hok q (by simp [hq]))
    have hp := (hok p (by simp)).le
    refine ⟨?_, List.pairwise_cons.mpr ⟨hall, hpair⟩⟩
    intro q hq
    rcases List.mem_cons.mp hq with rfl | hq
    · omega
    · have := hall q hq
      omega

theorem Placements.exists_placed {ps : List Placed} (h : Placements A b ps) {e : CdEntry} {i : Nat}
    (he : (e, i) ∈ A.entries.zipIdx) (hgap : A.policy i ≠ .gap) :
    ∃ p ∈ ps, p.e = e ∧ p.i = i := by
  obtain ⟨order, horder, hps⟩ := h.order
  obtain ⟨hperm, -, -⟩ := fileOrder_eq_ok_iff.mp horder
  have hmem : (e, i) ∈ ps.map Placed.entry := by
    rw [hps, Archive.processed, List.mem_filter]
    exact ⟨hperm.mem_iff.mpr he, by simpa using hgap⟩
  obtain ⟨p, hp, hpe⟩ := List.mem_map.mp hmem
  exact ⟨p, hp, (Prod.mk.inj hpe).1, (Prod.mk.inj hpe).2⟩

theorem Placements.mem_zipIdx {ps : List Placed} (h : Placements A b ps) {p : Placed}
    (hp : p ∈ ps) : (p.e, p.i) ∈ A.entries.zipIdx := by
  obtain ⟨order, horder, hps⟩ := h.order
  obtain ⟨hperm, -, -⟩ := fileOrder_eq_ok_iff.mp horder
  have hmem : p.entry ∈ A.processed order := hps ▸ List.mem_map_of_mem hp
  exact hperm.mem_iff.mp (List.mem_of_mem_filter hmem)

theorem Placements.nodup {ps : List Placed} (h : Placements A b ps) : (ps.map Placed.i).Nodup := by
  obtain ⟨order, horder, hps⟩ := h.order
  obtain ⟨hperm, -, -⟩ := fileOrder_eq_ok_iff.mp horder
  have hnodup : (order.map Prod.snd).Nodup := by
    rw [(hperm.map Prod.snd).nodup_iff, List.zipIdx_map_snd]
    exact List.nodup_range'
  have hsub : (ps.map Placed.i).Sublist (order.map Prod.snd) := by
    have : ps.map Placed.i = (ps.map Placed.entry).map Prod.snd := by
      rw [List.map_map]
      rfl
    rw [this, hps]
    exact List.filter_sublist.map _
  exact hsub.nodup hnodup

theorem Placements.apart {ps : List Placed} (h : Placements A b ps) {p q : Placed} (hp : p ∈ ps)
    (hq : q ∈ ps) : p = q ∨ (p.stop ≤ q.e.lfhOff ∧ p.newOff + p.outLen ≤ q.newOff) ∨
      (q.stop ≤ p.e.lfhOff ∧ q.newOff + q.outLen ≤ p.newOff) := by
  obtain ⟨-, hpair⟩ := laid_pairwise ps 0 0 h.laid h.ok
  obtain ⟨m, hm, rfl⟩ := List.getElem_of_mem hp
  obtain ⟨n, hn, rfl⟩ := List.getElem_of_mem hq
  rcases Nat.lt_trichotomy m n with hmn | rfl | hmn
  · exact Or.inr (Or.inl (List.pairwise_iff_getElem.mp hpair m n hm hn hmn))
  · exact Or.inl rfl
  · exact Or.inr (Or.inr (List.pairwise_iff_getElem.mp hpair n m hn hm hmn))

/-- **What can be rewritten passes the check**: kept entries have headers, and none reaches into
another. -/
theorem fits_of_placements {ps : List Placed} (h : Placements A b ps) {e : CdEntry} {i : Nat}
    (he : (e, i) ∈ A.entries.zipIdx) (hout : A.policy i = .output) :
    HasLfh b e.lfhOff ∧ dataOffset b e.lfhOff ≤ A.entriesEnd ∧
      ∀ e' i', (e', i') ∈ A.entries.zipIdx → A.policy i' = .output → e.lfhOff < e'.lfhOff →
        dataOffset b e.lfhOff ≤ e'.lfhOff := by
  obtain ⟨p, hp, rfl, rfl⟩ := h.exists_placed he (by rw [hout]; decide)
  have hok := h.ok p hp
  have hle := hok.le
  have hd := hok.dataOff
  have hfits := hok.fits
  refine ⟨hok.lfh, by omega, ?_⟩
  intro e' i' he' hout' hlt
  obtain ⟨q, hq, rfl, rfl⟩ := h.exists_placed he' (by rw [hout']; decide)
  have hqle := (h.ok q hq).le
  have h30 : lfhLen = 30 := rfl
  rcases h.apart hp hq with rfl | h | h
  · omega
  · omega
  · omega

end Planner

/-! ### The new Central Directory -/

def offOf (ps : List Placed) (i : Nat) : Nat :=
  ((ps.find? fun p => p.keep && p.i == i).map Placed.newOff).getD 0

theorem offOf_eq {ps : List Placed} (hnodup : (ps.map Placed.i).Nodup) {p : Placed} (hp : p ∈ ps)
    (hk : p.keep = true) : offOf ps p.i = p.newOff := by
  have hfind : ps.find? (fun q => q.keep && q.i == p.i) = some p := by
    induction ps with
    | nil => cases hp
    | cons q ps ih =>
      rw [List.map_cons, List.nodup_cons] at hnodup
      rcases List.mem_cons.mp hp with rfl | hp
      · rw [List.find?_cons_of_pos (by simp [hk])]
      · have hne : q.i ≠ p.i := fun heq => hnodup.1 (heq ▸ List.mem_map_of_mem hp)
        rw [List.find?_cons_of_neg (by simp [hne]), ih hnodup.2 hp]
  rw [offOf, hfind]
  rfl

theorem filterMap_plansFor {entriesEnd : Nat} :
    ∀ (ps : List Placed) (cursor consumed : Nat),
      (plansFor entriesEnd cursor consumed ps).filterMap (fun p => p.idx.map fun i => (i, p.newOff))
        = (ps.filter Placed.keep).map fun p => (p.i, p.newOff) := by
  have hgap : ∀ a c d, (gapPlans a c d).filterMap (fun p => p.idx.map fun i => (i, p.newOff)) = [] := by
    intro a c d
    rw [gapPlans]
    split <;> rfl
  intro ps
  induction ps with
  | nil =>
    intro cursor consumed
    exact hgap _ _ _
  | cons p ps ih =>
    intro cursor consumed
    rw [plansFor, List.filterMap_append, List.filterMap_append, hgap, ih, List.nil_append]
    by_cases hk : p.keep = true
    · rw [if_pos hk, List.filter_cons_of_pos hk]
      rfl
    · rw [if_neg hk, List.filter_cons_of_neg hk]
      rfl

theorem newOffs_eq (n : Nat) (plans : List Plan) :
    newOffs n plans = (plans.filterMap fun p => p.idx.map fun i => (i, p.newOff)).foldl
      (fun t x => t.set x.1 (some x.2)) (List.replicate n none) := by
  rw [newOffs]
  generalize List.replicate n none = t
  induction plans generalizing t with
  | nil => rfl
  | cons p plans ih =>
    rw [List.foldl_cons, ih]
    cases hi : p.idx with
    | none => rw [List.filterMap_cons_none (by rw [hi]; rfl)]
    | some i =>
      rw [List.filterMap_cons_some (by rw [hi]; rfl), List.foldl_cons]

theorem filled_newOffs {A : Archive} {b : Bytes} {ps : List Placed} (h : Placements A b ps) :
    Filled (offOf ps) A.entries.length ((ps.filter Placed.keep).map Placed.i)
      (newOffs A.entries.length (plansFor A.entriesEnd 0 0 ps)) := by
  rw [newOffs_eq, filterMap_plansFor]
  have hf := (filled_replicate (offOf ps) A.entries.length).foldl_set
    ((ps.filter Placed.keep).map fun p => (p.i, p.newOff)) (by
      intro x hx
      obtain ⟨p, hp, rfl⟩ := List.mem_map.mp hx
      rw [List.mem_filter] at hp
      exact (offOf_eq h.nodup hp.1 hp.2).symm)
  rw [List.nil_append, List.map_map] at hf
  exact hf

/-- The kept records of a directory, each with its new offset. -/
def movedRecords (rs : List Bytes) (off : Nat → Nat) : List Bytes :=
  (rs.zipIdx.filter fun x => isOutput x.1).map fun x => setLfhOff x.1 (off x.2)

theorem length_movedRecords (rs : List Bytes) (off : Nat → Nat) :
    (movedRecords rs off).length = (rs.filter isOutput).length := by
  have hfst : (rs.zipIdx.filter fun x => isOutput x.1).map Prod.fst = rs.filter isOutput := by
    rw [show (fun x : Bytes × Nat => isOutput x.1) = isOutput ∘ Prod.fst from rfl,
      ← List.filter_map, List.zipIdx_map_fst]
  rw [movedRecords, List.length_map, ← hfst, List.length_map]

/-- The loop over the records behind `pre`; `k` is the index of the first. -/
theorem foldl_newCd (off : Nat → Nat) :
    ∀ (rs : List Bytes) (pre : Bytes) (k : Nat) (acc : Bytes × Nat),
      ((entriesFrom pre.length rs).zip
          ((rs.zipIdx k).map fun x => if isOutput x.1 then some (off x.2) else none)).foldl
        (fun acc x =>
          match x.2 with
          | some off => (acc.1 ++ setLfhOff
              (slice (pre ++ rs.flatten) x.1.record.start x.1.record.stop) off, acc.2 + 1)
          | none => acc) acc
        = (acc.1 ++ (((rs.zipIdx k).filter fun x => isOutput x.1).map
              fun x => setLfhOff x.1 (off x.2)).flatten,
            acc.2 + ((rs.zipIdx k).filter fun x => isOutput x.1).length) := by
  intro rs
  induction rs with
  | nil =>
    intro pre k acc
    simp [entriesFrom]
  | cons r rs ih =>
    intro pre k acc
    have hrec : slice (pre ++ (r ++ rs.flatten)) pre.length (pre.length + r.length) = r := by
      rw [slice_append_length, List.take_left]
    have htail := ih (pre ++ r) (k + 1)
    rw [List.length_append, List.append_assoc] at htail
    rw [entriesFrom, List.zipIdx_cons, List.map_cons, List.zip_cons_cons, List.foldl_cons,
      List.flatten_cons, htail]
    by_cases ho : isOutput r = true
    · rw [if_pos ho, List.filter_cons_of_pos (by exact ho)]
      simp only [entryOf, hrec, List.map_cons, List.flatten_cons, List.length_cons,
        List.append_assoc, Nat.add_assoc, Nat.add_comm 1]
    · rw [if_neg ho, List.filter_cons_of_neg (by exact ho)]

/-- **The new directory lists the kept records, each with its new offset.** -/
theorem newCd_flatten {A : Archive} {b : Bytes} {ps : List Placed} (h : Placements A b ps)
    {rs : List Bytes} (hcd : A.cd = rs.flatten) (hentries : A.entries = entriesFrom 0 rs)
    (hpol : A.policies = rs.map recordPolicy) :
    newCd A.cd A.entries (newOffs A.entries.length (plansFor A.entriesEnd 0 0 ps))
      = ((movedRecords rs (offOf ps)).flatten, (rs.filter isOutput).length) := by
  have hpolicy : ∀ {r : Bytes} {k : Nat}, rs[k]? = some r → A.policy k = recordPolicy r := by
    intro r k hr
    rw [Archive.policy, hpol, List.getD_eq_getElem?_getD, List.getElem?_map, hr]
    rfl
  -- the kept entries are those with a placement of their own
  have hmem : ∀ (r : Bytes) (k : Nat), rs[k]? = some r →
      (k ∈ (ps.filter Placed.keep).map Placed.i ↔ isOutput r = true) := by
    intro r k hr
    have hlen : k < A.entries.length := by
      rw [hentries, length_entriesFrom]
      exact (List.getElem?_eq_some_iff.mp hr).1
    rw [isOutput, beq_iff_eq]
    constructor
    · intro hk
      obtain ⟨p, hp, rfl⟩ := List.mem_map.mp hk
      rw [List.mem_filter] at hp
      have hkept := (h.ok p hp.1).kept
      rw [hp.2, hpolicy hr] at hkept
      exact of_decide_eq_true hkept.symm
    · intro hout
      have he : (A.entries[k], k) ∈ A.entries.zipIdx :=
        List.mem_zipIdx_iff_getElem?.mpr (List.getElem?_eq_getElem hlen)
      obtain ⟨p, hp, -, hpi⟩ := h.exists_placed he (by rw [hpolicy hr, hout]; decide)
      have hkept := (h.ok p hp).kept
      rw [hpi, hpolicy hr, hout] at hkept
      exact List.mem_map.mpr ⟨p, List.mem_filter.mpr ⟨hp, by simpa using hkept⟩, hpi⟩
  obtain ⟨hlen, hfill⟩ := filled_newOffs h
  have htable : newOffs A.entries.length (plansFor A.entriesEnd 0 0 ps)
      = (rs.zipIdx 0).map fun x => if isOutput x.1 then some (offOf ps x.2) else none := by
    apply List.ext_getElem?
    intro k
    rw [List.getElem?_map, List.getElem?_zipIdx, Nat.zero_add]
    cases hr : rs[k]? with
    | none =>
      rw [List.getElem?_eq_none]
      · rfl
      · rw [hlen, hentries, length_entriesFrom]
        exact List.getElem?_eq_none_iff.mp hr
    | some r =>
      rw [hfill k (by
        rw [hentries, length_entriesFrom]
        exact (List.getElem?_eq_some_iff.mp hr).1)]
      simp only [hmem r k hr, Option.map_some]
  have hfold := foldl_newCd (offOf ps) rs [] 0 ([], 0)
  simp only [List.nil_append, List.length_nil, Nat.zero_add] at hfold
  rw [newCd, htable, hentries, hcd]
  refine hfold.trans ?_
  rw [← length_movedRecords rs (offOf ps), movedRecords, List.length_map]

end FastSigner.Align

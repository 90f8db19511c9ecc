import FastSigner.Zip.Directory
import Mathlib.Data.List.Sort
import Mathlib.Data.List.Nodup

/-!
# Local headers in file order, and the alignment check

`file_order` sorts the entries of a directory by the offset of their local
headers and insists that headers are distinct and inside the entries section.
`check` walks the sorted entries and lists those whose data is misaligned;
`quick_misaligned` looks at a few of them only.

`fileOrder_eq_ok_iff` characterises the sorted list without reference to the
sort: it is the one arrangement of the entries that increases strictly.
-/

namespace FastSigner.Align

open Lib Zip

abbrev LfhLens := Nat × Nat

/-- The order check: headers inside the section and no offset twice. -/
def checkOrder (entriesEnd : Nat) : Option Nat → List (CdEntry × Nat) → Except Error Unit
  | _, [] => .ok ()
  | prev, (e, _) :: rest =>
    if entriesEnd < e.lfhOff + lfhLen then .error (.lfhOutside e.lfhOff)
    else if prev = some e.lfhOff then .error (.lfhShared e.lfhOff)
    else checkOrder entriesEnd (some e.lfhOff) rest

/-- The entries with their indices, sorted by local header offset. -/
def fileOrder (entries : List CdEntry) (entriesEnd : Nat) : Except Error (List (CdEntry × Nat)) := do
  let order := entries.zipIdx.insertionSort fun a b => a.1.lfhOff ≤ b.1.lfhOff
  checkOrder entriesEnd none order
  .ok order

def readLfhLens (file : ReadAt) (off : Nat) : Except Error LfhLens := do
  let h ← (file.readExactAt off lfhLen).mapError (.readLfh off)
  if slice h 0 4 ≠ lfhSig then .error (.noLfh off) else .ok (u16le h 26, u16le h 28)

/-- Whether one of the first `sample` stored entries is misaligned. -/
def quickMisaligned (file : ReadAt) (cd : Bytes) (entriesEnd libPageSize : Nat) :
    (sample : Nat) → List CdEntry → Except Error Bool
  | _, [] => .ok false
  | sample, e :: rest =>
    let req := requiredAlignment cd e libPageSize
    if req ≤ 1 then quickMisaligned file cd entriesEnd libPageSize sample rest
    else if entriesEnd < e.lfhOff + lfhLen then .error (.lfhOutside e.lfhOff)
    else do
      let (nl, el) ← readLfhLens file e.lfhOff
      let dataOff := e.lfhOff + (lfhLen + nl + el)
      if dataOff % req ≠ 0 then .ok true
      -- the loop is left once `sample` entries were looked at
      else if sample ≤ 1 then .ok false
      else quickMisaligned file cd entriesEnd libPageSize (sample - 1) rest

structure Misaligned where
  name : Bytes
  dataOff : Nat
  required : Nat
  deriving DecidableEq, Repr

/-- Where the record after the current one starts. -/
def nextLimit (entriesEnd : Nat) : List (CdEntry × Nat) → Nat
  | [] => entriesEnd
  | x :: _ => x.1.lfhOff

def checkLoop (cd : Bytes) (lens : List LfhLens) (entriesEnd libPageSize : Nat) :
    List (CdEntry × Nat) → Except Error (List Misaligned)
  | [] => .ok []
  | (e, i) :: rest =>
    let (nl, el) := lens.getD i (0, 0)
    let dataOff := e.lfhOff + (lfhLen + nl + el)
    if nextLimit entriesEnd rest < dataOff then .error (.lfhOverrunsNext (e.nameIn cd))
    else do
      let req := requiredAlignment cd e libPageSize
      let bad ← checkLoop cd lens entriesEnd libPageSize rest
      .ok (if 1 < req ∧ dataOff % req ≠ 0 then ⟨e.nameIn cd, dataOff, req⟩ :: bad else bad)

/-- The entries that violate the alignment policy; an error if a header overruns the next entry. -/
def check (cd : Bytes) (entries : List CdEntry) (lens : List LfhLens)
    (entriesEnd libPageSize : Nat) : Except Error (List Misaligned) := do
  let order ← fileOrder entries entriesEnd
  checkLoop cd lens entriesEnd libPageSize order

/-! ### The sorted list -/

/-- Headers in file order, without a tie. -/
def InOrder (order : List (CdEntry × Nat)) : Prop :=
  order.Pairwise fun a b => a.1.lfhOff < b.1.lfhOff

theorem checkOrder_eq_ok {entriesEnd : Nat} :
    ∀ {order : List (CdEntry × Nat)} {prev : Option Nat},
      (order.Pairwise fun a b => a.1.lfhOff ≤ b.1.lfhOff) →
      (checkOrder entriesEnd prev order = .ok () ↔
        InOrder order ∧ (∀ x ∈ order, x.1.lfhOff + lfhLen ≤ entriesEnd) ∧
          ∀ x ∈ order.head?, prev ≠ some x.1.lfhOff) := by
  intro order
  induction order with
  | nil => intro prev _; simp [checkOrder, InOrder]
  | cons x rest ih =>
    intro prev hle
    obtain ⟨e, i⟩ := x
    rw [List.pairwise_cons] at hle
    rw [checkOrder]
    constructor
    · intro h
      split at h
      · cases h
      · split at h
        · cases h
        · rename_i hin hne
          obtain ⟨hord, hall, hhead⟩ := (ih hle.2).mp h
          refine ⟨List.pairwise_cons.mpr ⟨?_, hord⟩, ?_, ?_⟩
          · intro y hy
            cases rest with
            | nil => cases hy
            | cons z rest =>
              have hz : e.lfhOff ≠ z.1.lfhOff := by simpa using hhead
              have hez : e.lfhOff ≤ z.1.lfhOff := hle.1 z (by simp)
              rcases List.mem_cons.mp hy with rfl | hy
              · simp only
                omega
              · have hzy : z.1.lfhOff < y.1.lfhOff := (List.pairwise_cons.mp hord).1 y hy
                simp only
                omega
          · intro y hy
            rcases List.mem_cons.mp hy with rfl | hy
            · simp only
              omega
            · exact hall y hy
          · simpa using hne
    · rintro ⟨hord, hall, hhead⟩
      have hin := hall (e, i) (by simp)
      simp only at hin
      rw [InOrder, List.pairwise_cons] at hord
      rw [if_neg (by omega), if_neg (by simpa using hhead)]
      refine (ih hle.2).mpr ⟨hord.2, fun y hy => hall y (by simp [hy]), ?_⟩
      intro y hy hsame
      have := hord.1 y (List.mem_of_mem_head? hy)
      simp only [Option.some.injEq] at hsame this
      omega

theorem pairwise_sorted (entries : List CdEntry) :
    (entries.zipIdx.insertionSort fun a b => a.1.lfhOff ≤ b.1.lfhOff).Pairwise
      fun a b => a.1.lfhOff ≤ b.1.lfhOff := by
  have : Std.Total fun a b : CdEntry × Nat => a.1.lfhOff ≤ b.1.lfhOff :=
    ⟨fun a b => Nat.le_total _ _⟩
  have : IsTrans (CdEntry × Nat) fun a b => a.1.lfhOff ≤ b.1.lfhOff :=
    ⟨fun a b c => Nat.le_trans⟩
  exact List.pairwise_insertionSort _ _

/-- **The file order is the strictly increasing arrangement of the entries.** -/
theorem fileOrder_eq_ok_iff {entries : List CdEntry} {entriesEnd : Nat}
    {order : List (CdEntry × Nat)} :
    fileOrder entries entriesEnd = .ok order ↔
      order.Perm entries.zipIdx ∧ InOrder order ∧
        ∀ x ∈ order, x.1.lfhOff + lfhLen ≤ entriesEnd := by
  have hsorted := pairwise_sorted entries
  have hperm := List.perm_insertionSort (fun a b : CdEntry × Nat => a.1.lfhOff ≤ b.1.lfhOff)
    entries.zipIdx
  rw [fileOrder]
  constructor
  · intro h
    rw [bind_eq_ok] at h
    obtain ⟨u, hcheck, h⟩ := h
    obtain rfl := Except.ok.inj h
    obtain ⟨hord, hall, -⟩ := (checkOrder_eq_ok hsorted).mp hcheck
    exact ⟨hperm, hord, hall⟩
  · rintro ⟨hp, hord, hall⟩
    have heq : order = entries.zipIdx.insertionSort fun a b => a.1.lfhOff ≤ b.1.lfhOff := by
      refine List.Perm.eq_of_pairwise ?_ (hord.imp fun h => Nat.le_of_lt h) hsorted
        (hp.trans hperm.symm)
      intro a b ha hb hab hba
      by_contra hne
      have hb' : b ∈ order := by
        rw [hp.mem_iff]
        exact hperm.mem_iff.mp hb
      have hsym := List.Pairwise.forall_of_forall_of_flip (R := fun x y => x ≠ y → x.1.lfhOff ≠ y.1.lfhOff)
        (l := order) (fun x _ h => absurd rfl h)
        (hord.imp fun h _ he => absurd he (Nat.ne_of_lt h))
        (hord.imp fun h _ he => absurd he.symm (Nat.ne_of_lt h))
      exact hsym ha hb' hne (Nat.le_antisymm hab hba)
    rw [← heq]
    have hcheck : checkOrder entriesEnd none order = .ok () :=
      (checkOrder_eq_ok (heq ▸ hsorted)).mpr ⟨hord, hall, by simp⟩
    rw [hcheck]
    rfl

theorem exists_fileOrder {entries : List CdEntry} {entriesEnd : Nat}
    (hnodup : (entries.map CdEntry.lfhOff).Nodup)
    (hin : ∀ e ∈ entries, e.lfhOff + lfhLen ≤ entriesEnd) :
    ∃ order, fileOrder entries entriesEnd = .ok order := by
  have hperm := List.perm_insertionSort (fun x y : CdEntry × Nat => x.1.lfhOff ≤ y.1.lfhOff)
    entries.zipIdx
  have hsorted := pairwise_sorted entries
  generalize entries.zipIdx.insertionSort (fun x y => x.1.lfhOff ≤ y.1.lfhOff) = order
    at hperm hsorted
  have hoffs : (order.map fun x => x.1.lfhOff).Perm (entries.map CdEntry.lfhOff) := by
    have h := hperm.map fun x => x.1.lfhOff
    rwa [show (fun x : CdEntry × Nat => x.1.lfhOff) = CdEntry.lfhOff ∘ Prod.fst from rfl,
      ← List.map_map, ← List.map_map, List.zipIdx_map_fst, List.map_map] at h
  refine ⟨order, fileOrder_eq_ok_iff.mpr ⟨hperm, ?_, ?_⟩⟩
  · have hne := List.pairwise_map.mp (hoffs.nodup_iff.mpr hnodup)
    exact (hsorted.and hne).imp fun h => Nat.lt_of_le_of_ne h.1 h.2
  · intro x hx
    exact hin x.1 (List.mem_of_getElem? (List.mem_zipIdx_iff_getElem?.mp (hperm.mem_iff.mp hx)))

/-! ### Reading the lengths -/

def lensAt (b : Bytes) (off : Nat) : LfhLens := (u16le b (off + 26), u16le b (off + 28))

def dataOffset (b : Bytes) (off : Nat) : Nat := off + (lfhLen + (lensAt b off).1 + (lensAt b off).2)

def HasLfh (b : Bytes) (off : Nat) : Prop := slice b off (off + 4) = lfhSig

instance (b : Bytes) (off : Nat) : Decidable (HasLfh b off) :=
  inferInstanceAs (Decidable (slice b off (off + 4) = lfhSig))

theorem readLfhLens_ofBytes {b : Bytes} {off : Nat} (h : off + lfhLen ≤ b.length) :
    readLfhLens (ReadAt.ofBytes b) off
      = if HasLfh b off then .ok (lensAt b off) else .error (.noLfh off) := by
  have hlen : lfhLen = 30 := rfl
  rw [readLfhLens, ReadAt.ofBytes_readExactAt h, mapError_ok, ok_bind,
    slice_slice_of_le b (by omega), u16le_slice b (by omega), u16le_slice b (by omega),
    Nat.add_zero]
  by_cases hl : slice b off (off + 4) = lfhSig
  · rw [if_neg (not_not.mpr hl), if_pos (show HasLfh b off from hl)]
    rfl
  · rw [if_pos hl, if_neg (show ¬ HasLfh b off from hl)]

/-! ### The alignment check -/

/-- No header reaches into another entry or out of the section. -/
def Fits (b : Bytes) (entriesEnd : Nat) (entries : List CdEntry) : Prop :=
  ∀ e ∈ entries, dataOffset b e.lfhOff ≤ entriesEnd ∧
    ∀ e' ∈ entries, e.lfhOff < e'.lfhOff → dataOffset b e.lfhOff ≤ e'.lfhOff

def AlignedIn (b cd : Bytes) (libPageSize : Nat) (e : CdEntry) : Prop :=
  requiredAlignment cd e libPageSize ≤ 1 ∨
    dataOffset b e.lfhOff % requiredAlignment cd e libPageSize = 0

section Check

variable {b cd : Bytes} {entriesEnd libPageSize : Nat} {lens : List LfhLens}

theorem fits_cons {e : CdEntry} {i : Nat} {rest : List (CdEntry × Nat)}
    (ho : InOrder ((e, i) :: rest)) (hin : ∀ x ∈ rest, x.1.lfhOff + lfhLen ≤ entriesEnd) :
    Fits b entriesEnd (((e, i) :: rest).map Prod.fst) ↔
      dataOffset b e.lfhOff ≤ nextLimit entriesEnd rest ∧
        Fits b entriesEnd (rest.map Prod.fst) := by
  rw [InOrder, List.pairwise_cons] at ho
  have hafter : ∀ x ∈ rest.map Prod.fst, e.lfhOff < x.lfhOff := by
    intro x hx
    obtain ⟨y, hy, rfl⟩ := List.mem_map.mp hx
    exact ho.1 y hy
  have hlimit : nextLimit entriesEnd rest ≤ entriesEnd ∧
      ∀ x ∈ rest.map Prod.fst, nextLimit entriesEnd rest ≤ x.lfhOff := by
    cases rest with
    | nil => simp [nextLimit]
    | cons y rest =>
      have hy := hin y (by simp)
      have hord := List.pairwise_cons.mp ho.2
      refine ⟨by simp only [nextLimit]; omega, ?_⟩
      intro x hx
      rw [List.map_cons, List.mem_cons] at hx
      rcases hx with rfl | hx
      · exact Nat.le_refl _
      · obtain ⟨z, hz, rfl⟩ := List.mem_map.mp hx
        exact Nat.le_of_lt (hord.1 z hz)
  rw [List.map_cons]
  constructor
  · intro h
    refine ⟨?_, ?_⟩
    · have he := h e (by simp)
      cases rest with
      | nil => exact he.1
      | cons y rest => exact he.2 y.1 (by simp) (hafter y.1 (by simp))
    · intro x hx
      obtain ⟨h1, h2⟩ := h x (by simp [hx])
      exact ⟨h1, fun y hy => h2 y (by simp [hy])⟩
  · rintro ⟨hd, h⟩ x hx
    rcases List.mem_cons.mp hx with rfl | hx
    · refine ⟨Nat.le_trans hd hlimit.1, ?_⟩
      intro y hy hlt
      rcases List.mem_cons.mp hy with rfl | hy
      · omega
      · exact Nat.le_trans hd (hlimit.2 y hy)
    · obtain ⟨h1, h2⟩ := h x hx
      have hx := hafter x hx
      refine ⟨h1, ?_⟩
      intro y hy hlt
      rcases List.mem_cons.mp hy with rfl | hy
      · omega
      · exact h2 y hy hlt

theorem checkLoop_spec (cd : Bytes) (libPageSize : Nat) :
    ∀ order : List (CdEntry × Nat), InOrder order →
      (∀ x ∈ order, x.1.lfhOff + lfhLen ≤ entriesEnd) →
      (∀ x ∈ order, lens.getD x.2 (0, 0) = lensAt b x.1.lfhOff) →
      (Fits b entriesEnd (order.map Prod.fst) →
        ∃ bad, checkLoop cd lens entriesEnd libPageSize order = .ok bad ∧
          (bad = [] ↔ ∀ x ∈ order, AlignedIn b cd libPageSize x.1)) ∧
      (¬ Fits b entriesEnd (order.map Prod.fst) →
        ∃ err, checkLoop cd lens entriesEnd libPageSize order = .error err) := by
  intro order
  induction order with
  | nil =>
    intro _ _ _
    exact ⟨fun _ => ⟨[], rfl, by simp⟩, fun h => absurd (fun e he => by cases he) h⟩
  | cons x rest ih =>
    obtain ⟨e, i⟩ := x
    intro ho hin hlens
    have hrest := ih (List.pairwise_cons.mp ho).2 (fun x hx => hin x (by simp [hx]))
      (fun x hx => hlens x (by simp [hx]))
    have hl := hlens (e, i) (by simp)
    simp only at hl
    rw [fits_cons ho (fun x hx => hin x (by simp [hx])), checkLoop, hl]
    have hoff : e.lfhOff + (lfhLen + (lensAt b e.lfhOff).1 + (lensAt b e.lfhOff).2)
        = dataOffset b e.lfhOff := rfl
    simp only [hoff]
    refine ⟨?_, ?_⟩
    · rintro ⟨hd, hf⟩
      obtain ⟨bad, hbad, hiff⟩ := hrest.1 hf
      rw [if_neg (by omega), hbad, ok_bind]
      refine ⟨_, rfl, ?_⟩
      by_cases hmis : 1 < requiredAlignment cd e libPageSize ∧
          dataOffset b e.lfhOff % requiredAlignment cd e libPageSize ≠ 0
      · rw [if_pos hmis]
        constructor
        · intro h
          cases h
        · intro h
          rcases h (e, i) (by simp) with h | h
          · exact absurd h (Nat.not_le.mpr hmis.1)
          · exact absurd h hmis.2
      · rw [if_neg hmis, hiff]
        constructor
        · intro h x hx
          rcases List.mem_cons.mp hx with rfl | hx
          · rw [AlignedIn]
            by_cases h1 : 1 < requiredAlignment cd e libPageSize
            · exact Or.inr (not_not.mp fun h0 => hmis ⟨h1, h0⟩)
            · exact Or.inl (Nat.not_lt.mp h1)
          · exact h x hx
        · exact fun h x hx => h x (by simp [hx])
    · intro hn
      by_cases hd : dataOffset b e.lfhOff ≤ nextLimit entriesEnd rest
      · obtain ⟨err, herr⟩ := hrest.2 (fun hf => hn ⟨hd, hf⟩)
        rw [if_neg (by omega), herr]
        exact ⟨err, rfl⟩
      · rw [if_pos (by omega)]
        exact ⟨_, rfl⟩

theorem fits_congr {es es' : List CdEntry} (h : ∀ e, e ∈ es ↔ e ∈ es') :
    Fits b entriesEnd es ↔ Fits b entriesEnd es' := by
  simp only [Fits, h]

/-- **What the check says**, given the lengths of the file's own headers: it fails exactly when a
header overruns, and otherwise it lists nothing exactly when all entries are aligned. -/
theorem check_spec {entries : List CdEntry} {order : List (CdEntry × Nat)}
    (horder : fileOrder entries entriesEnd = .ok order) :
    (Fits b entriesEnd entries →
      ∃ bad, check cd entries (entries.map fun e => lensAt b e.lfhOff) entriesEnd libPageSize
          = .ok bad ∧ (bad = [] ↔ ∀ e ∈ entries, AlignedIn b cd libPageSize e)) ∧
    (¬ Fits b entriesEnd entries →
      ∃ err, check cd entries (entries.map fun e => lensAt b e.lfhOff) entriesEnd libPageSize
          = .error err) := by
  obtain ⟨hperm, ho, hin⟩ := fileOrder_eq_ok_iff.mp horder
  have hmem : ∀ e, e ∈ order.map Prod.fst ↔ e ∈ entries := by
    intro e
    rw [(hperm.map Prod.fst).mem_iff, List.zipIdx_map_fst]
  have hlens : ∀ x ∈ order, (entries.map fun e => lensAt b e.lfhOff).getD x.2 (0, 0)
      = lensAt b x.1.lfhOff := by
    intro x hx
    have hget : entries[x.2]? = some x.1 :=
      List.mem_zipIdx_iff_getElem?.mp (hperm.mem_iff.mp hx)
    rw [List.getD_eq_getElem?_getD, List.getElem?_map, hget]
    rfl
  have hloop := checkLoop_spec cd libPageSize order ho hin hlens
  have hal : (∀ x ∈ order, AlignedIn b cd libPageSize x.1) ↔
      ∀ e ∈ entries, AlignedIn b cd libPageSize e := by
    simp only [← hmem, List.forall_mem_map]
  rw [fits_congr hmem, hal] at hloop
  rw [check, horder, ok_bind]
  exact hloop

/-- **What the sample proves.**  `true` means that an entry is misaligned, an error that one has no
header. -/
theorem quickMisaligned_spec (hb : entriesEnd ≤ b.length) (cd : Bytes) (libPageSize : Nat) :
    ∀ (es : List CdEntry) (sample : Nat), (∀ e ∈ es, e.lfhOff + lfhLen ≤ entriesEnd) →
      (quickMisaligned (ReadAt.ofBytes b) cd entriesEnd libPageSize sample es = .ok true →
        ∃ e ∈ es, ¬ AlignedIn b cd libPageSize e) ∧
      (∀ err, quickMisaligned (ReadAt.ofBytes b) cd entriesEnd libPageSize sample es = .error err →
        ∃ e ∈ es, ¬ HasLfh b e.lfhOff) := by
  intro es
  induction es with
  | nil =>
    intro sample _
    exact ⟨fun h => (by cases h), fun err h => (by cases h)⟩
  | cons e es ih =>
    intro sample hin
    have he := hin e (by simp)
    have hrest : ∀ n, _ := fun n => ih n (fun x hx => hin x (by simp [hx]))
    -- a verdict about a later entry is one about the list
    have hmore : ∀ {P : CdEntry → Prop}, (∃ x ∈ es, P x) → ∃ x ∈ e :: es, P x := by
      rintro P ⟨x, hx, hp⟩
      exact ⟨x, by simp [hx], hp⟩
    rw [quickMisaligned]
    simp only
    by_cases hreq : requiredAlignment cd e libPageSize ≤ 1
    · rw [if_pos hreq]
      exact ⟨fun h => hmore ((hrest sample).1 h), fun err h => hmore ((hrest sample).2 err h)⟩
    · rw [if_neg hreq, if_neg (by omega), readLfhLens_ofBytes (Nat.le_trans he hb)]
      by_cases hl : HasLfh b e.lfhOff
      · rw [if_pos hl, ok_bind]
        have hoff : e.lfhOff + (lfhLen + (lensAt b e.lfhOff).1 + (lensAt b e.lfhOff).2)
            = dataOffset b e.lfhOff := rfl
        simp only [hoff]
        by_cases hmod : dataOffset b e.lfhOff % requiredAlignment cd e libPageSize = 0
        · rw [if_neg (not_not.mpr hmod)]
          by_cases hs : sample ≤ 1
          · rw [if_pos hs]
            exact ⟨fun h => (by cases h), fun err h => (by cases h)⟩
          · rw [if_neg hs]
            exact ⟨fun h => hmore ((hrest _).1 h), fun err h => hmore ((hrest _).2 err h)⟩
        · rw [if_pos hmod]
          refine ⟨fun _ => ⟨e, by simp, ?_⟩, fun err h => (by cases h)⟩
          rintro (h | h)
          · exact hreq h
          · exact hmod h
      · rw [if_neg hl]
        exact ⟨fun h => (by cases h), fun err h => ⟨e, by simp, hl⟩⟩

end Check

end FastSigner.Align

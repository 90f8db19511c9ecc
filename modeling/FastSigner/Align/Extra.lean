import FastSigner.Zip.Directory

/-!
# Alignment extra fields

A local header's extra field is a sequence of fields `{ u16 id; u16 size; data }`,
perhaps followed by bytes that no longer parse.  `declared_alignment` reads the
`0xd935` field of such a sequence and `aligning_extra` rebuilds the sequence
with one that pads the entry's data to a given alignment.

Both loops walk the same fields, `extraFields`.  The rebuilt sequence parses
completely (`extraFields_aligningExtra`), so reading the alignment back
(`declaredAlignment_aligningExtra`) and rebuilding once more
(`aligningExtra_aligningExtra`) are computations on the list of fields.
-/

namespace FastSigner.Align

open Lib Zip

def alignmentExtraId : Nat := 0xd935

/-- The fields that parse, up to the first that does not. -/
def extraFieldsLoop : (fuel : Nat) → Bytes → List Bytes
  | 0, _ => []
  | fuel + 1, extra =>
    if 4 ≤ extra.length then
      let size := u16le extra 2
      if extra.length - 4 < size then []
      else extra.take (4 + size) :: extraFieldsLoop fuel (extra.drop (4 + size))
    else []

def extraFields (extra : Bytes) : List Bytes := extraFieldsLoop extra.length extra

def fieldId (f : Bytes) : Nat := u16le f 0

def fieldSize (f : Bytes) : Nat := u16le f 2

/-- Alignment declared by a `0xd935` field, if any. -/
def declaredAlignment (extra : Bytes) : Option Nat :=
  ((extraFields extra).find? fun f => fieldId f == alignmentExtraId && 2 ≤ fieldSize f).map
    fun f => u16le f 4

/-- Earlier `0xd935` fields and raw zero padding are not kept. -/
def keepField (f : Bytes) : Bool :=
  !((fieldId f == 0 && fieldSize f == 0) || fieldId f == alignmentExtraId)

def keptFields (extra : Bytes) : Bytes := ((extraFields extra).filter keepField).flatten

def alignmentField (pad align : Nat) : Bytes :=
  leBytes 2 alignmentExtraId ++ leBytes 2 (2 + pad) ++ leBytes 2 align ++ List.replicate pad 0

def aligningExtra (original : Bytes) (extraStartOff align : Nat) : Bytes :=
  let out := keptFields original
  let dataMinStart := extraStartOff + out.length + 6
  let pad := (align - dataMinStart % align) % align
  out ++ alignmentField pad align

/-! ### Sequences of fields -/

def WfField (f : Bytes) : Prop := 4 ≤ f.length ∧ f.length = 4 + fieldSize f

theorem extraFieldsLoop_of_short {fuel : Nat} {extra : Bytes} (h : extra.length < 4) :
    extraFieldsLoop fuel extra = [] := by
  cases fuel with
  | zero => rfl
  | succ fuel => rw [extraFieldsLoop, if_neg (by omega)]

theorem wfField_of_mem {fuel : Nat} {extra f : Bytes} (h : f ∈ extraFieldsLoop fuel extra) :
    WfField f := by
  induction fuel generalizing extra with
  | zero => cases h
  | succ fuel ih =>
    rw [extraFieldsLoop] at h
    split at h
    · rename_i hlen
      simp only at h
      split at h
      · cases h
      · rename_i hfit
        rcases List.mem_cons.mp h with rfl | h
        · have hsize : fieldSize (extra.take (4 + u16le extra 2)) = u16le extra 2 := by
            rw [fieldSize, u16le, slice_take _ (by omega), ← u16le]
          refine ⟨?_, ?_⟩
          · rw [List.length_take]
            omega
          · rw [hsize, List.length_take]
            omega
        · exact ih h
    · cases h

theorem extraFieldsLoop_flatten :
    ∀ (fs : List Bytes) (rest : Bytes) (fuel : Nat), (∀ f ∈ fs, WfField f) →
      (fs.flatten ++ rest).length ≤ fuel →
      ∃ fuel', rest.length ≤ fuel' ∧
        extraFieldsLoop fuel (fs.flatten ++ rest) = fs ++ extraFieldsLoop fuel' rest := by
  intro fs
  induction fs with
  | nil =>
    intro rest fuel _ hfuel
    exact ⟨fuel, hfuel, rfl⟩
  | cons f fs ih =>
    intro rest fuel h hfuel
    obtain ⟨h4, hlen⟩ := h f (by simp)
    rw [List.flatten_cons, List.append_assoc] at hfuel ⊢
    rw [List.length_append] at hfuel
    cases fuel with
    | zero => omega
    | succ fuel =>
      obtain ⟨fuel', hle, heq⟩ := ih rest fuel (fun g hg => h g (by simp [hg])) (by omega)
      have hsize : u16le (f ++ (fs.flatten ++ rest)) 2 = fieldSize f :=
        u16le_append_left _ (by omega)
      refine ⟨fuel', hle, ?_⟩
      rw [extraFieldsLoop, if_pos (by rw [List.length_append]; omega)]
      simp only [hsize, ← hlen]
      rw [if_neg (by rw [List.length_append]; omega), List.take_left, List.drop_left, heq,
        List.cons_append]

theorem extraFields_flatten {fs : List Bytes} (h : ∀ f ∈ fs, WfField f) :
    extraFields fs.flatten = fs := by
  obtain ⟨fuel', -, heq⟩ := extraFieldsLoop_flatten fs [] fs.flatten.length h (by simp)
  rw [List.append_nil] at heq
  rw [extraFields, heq, extraFieldsLoop_of_short (by simp), List.append_nil]

def StartsField (b : Bytes) : Prop := 4 ≤ b.length ∧ 4 + u16le b 2 ≤ b.length

/-- The fields are a prefix, and they go as far as they can. -/
theorem extraFieldsLoop_maximal :
    ∀ (fuel : Nat) (extra : Bytes), extra.length ≤ fuel →
      ∃ rest, extra = (extraFieldsLoop fuel extra).flatten ++ rest ∧ ¬ StartsField rest := by
  intro fuel
  induction fuel with
  | zero =>
    intro extra hfuel
    exact ⟨extra, rfl, fun h => by have := h.1; omega⟩
  | succ fuel ih =>
    intro extra hfuel
    rw [extraFieldsLoop]
    by_cases hlen : 4 ≤ extra.length
    · rw [if_pos hlen]
      simp only
      by_cases hfit : extra.length - 4 < u16le extra 2
      · rw [if_pos hfit]
        exact ⟨extra, rfl, fun h => by have := h.2; omega⟩
      · rw [if_neg hfit]
        obtain ⟨rest, hrest, hmax⟩ := ih (extra.drop (4 + u16le extra 2)) (by
          rw [List.length_drop]
          omega)
        refine ⟨rest, ?_, hmax⟩
        rw [List.flatten_cons, List.append_assoc, ← hrest, List.take_append_drop]
    · rw [if_neg hlen]
      exact ⟨extra, rfl, fun h => hlen h.1⟩

/-! ### The rebuilt extra field -/

theorem length_alignmentField (pad align : Nat) : (alignmentField pad align).length = 6 + pad := by
  simp only [alignmentField, List.length_append, length_leBytes, List.length_replicate]

theorem fieldId_alignmentField (pad align : Nat) :
    fieldId (alignmentField pad align) = alignmentExtraId := by
  rw [fieldId, alignmentField, List.append_assoc, List.append_assoc,
    u16le_append_left _ (by simp), u16le, slice_zero, List.take_of_length_le (by simp),
    leNat_leBytes_of_lt (by decide)]

theorem u16le_append_leBytes (a b : Bytes) (n : Nat) :
    u16le (a ++ (leBytes 2 n ++ b)) a.length = n % 2 ^ 16 := by
  rw [u16le, slice_append_length, List.take_append_of_le_length (by simp),
    List.take_of_length_le (by simp)]
  exact leNat_leBytes 2 n

theorem fieldSize_alignmentField {pad : Nat} (align : Nat) (h : 2 + pad < 2 ^ 16) :
    fieldSize (alignmentField pad align) = 2 + pad := by
  rw [fieldSize, alignmentField, List.append_assoc, List.append_assoc]
  have := u16le_append_leBytes (leBytes 2 alignmentExtraId)
    (leBytes 2 align ++ List.replicate pad 0) (2 + pad)
  rw [length_leBytes] at this
  rw [this, Nat.mod_eq_of_lt h]

theorem u16le_alignmentField (pad align : Nat) :
    u16le (alignmentField pad align) 4 = align % 2 ^ 16 := by
  rw [alignmentField, List.append_assoc]
  have := u16le_append_leBytes (leBytes 2 alignmentExtraId ++ leBytes 2 (2 + pad))
    (List.replicate pad 0) align
  rwa [List.length_append, length_leBytes, length_leBytes] at this

theorem wfField_alignmentField {pad : Nat} (align : Nat) (h : 2 + pad < 2 ^ 16) :
    WfField (alignmentField pad align) := by
  rw [WfField, length_alignmentField, fieldSize_alignmentField align h]
  omega

def extraPad (original : Bytes) (extraStartOff align : Nat) : Nat :=
  (align - (extraStartOff + (keptFields original).length + 6) % align) % align

theorem aligningExtra_eq (original : Bytes) (off align : Nat) :
    aligningExtra original off align
      = keptFields original ++ alignmentField (extraPad original off align) align := rfl

theorem length_aligningExtra (original : Bytes) (off align : Nat) :
    (aligningExtra original off align).length
      = (keptFields original).length + 6 + extraPad original off align := by
  rw [aligningExtra_eq, List.length_append, length_alignmentField, Nat.add_assoc]

/-- **The data behind the extra field lands on the alignment.** -/
theorem aligningExtra_aligned (original : Bytes) (off : Nat) {align : Nat} (h : 0 < align) :
    (off + (aligningExtra original off align).length) % align = 0 := by
  rw [length_aligningExtra, extraPad]
  generalize hx : off + (keptFields original).length + 6 = x
  have hr : x % align < align := Nat.mod_lt x h
  rw [show off + ((keptFields original).length + 6 + (align - x % align) % align)
    = x + (align - x % align) % align by omega]
  by_cases hz : x % align = 0
  · rw [hz, Nat.sub_zero, Nat.mod_self, Nat.add_zero, hz]
  · have hd := Nat.div_add_mod x align
    rw [Nat.mod_eq_of_lt (show align - x % align < align by omega),
      show x + (align - x % align) = align * (x / align) + align by omega,
      Nat.mul_add_mod, Nat.mod_self]

/-- **The rebuilt extra field parses completely.** -/
theorem extraFields_aligningExtra {original : Bytes} {off align : Nat}
    (h : (aligningExtra original off align).length < 2 ^ 16) :
    extraFields (aligningExtra original off align)
      = (extraFields original).filter keepField
        ++ [alignmentField (extraPad original off align) align] := by
  rw [length_aligningExtra] at h
  have hflat : aligningExtra original off align
      = ((extraFields original).filter keepField
        ++ [alignmentField (extraPad original off align) align]).flatten := by
    rw [List.flatten_append, List.flatten_singleton]
    rfl
  rw [hflat]
  apply extraFields_flatten
  intro f hf
  rcases List.mem_append.mp hf with hf | hf
  · exact wfField_of_mem (List.mem_of_mem_filter hf)
  · rw [List.mem_singleton.mp hf]
    exact wfField_alignmentField align (by omega)

theorem keepField_alignmentField (pad align : Nat) :
    keepField (alignmentField pad align) = false := by
  simp [keepField, fieldId_alignmentField]

theorem keptFields_aligningExtra {original : Bytes} {off align : Nat}
    (h : (aligningExtra original off align).length < 2 ^ 16) :
    keptFields (aligningExtra original off align) = keptFields original := by
  rw [keptFields, extraFields_aligningExtra h, List.filter_append, List.filter_filter,
    List.filter_cons_of_neg (by simp [keepField_alignmentField]), List.filter_nil, List.append_nil]
  simp only [Bool.and_self]
  rfl

/-- **Rebuilding once more changes nothing.** -/
theorem aligningExtra_aligningExtra {original : Bytes} {off align : Nat}
    (h : (aligningExtra original off align).length < 2 ^ 16) :
    aligningExtra (aligningExtra original off align) off align
      = aligningExtra original off align := by
  rw [aligningExtra_eq (aligningExtra original off align), extraPad, keptFields_aligningExtra h]
  rfl

/-- **What `aligning_extra` returns**, for any bytes: the fields of the well-formed part that are
neither alignment nor raw padding, and one alignment field that reaches to the end. -/
theorem aligningExtra_spec (original : Bytes) (off : Nat) {align : Nat} (hpos : 0 < align)
    (hlen : (aligningExtra original off align).length ≤ 0xffff) :
    ∃ (fs : List Bytes) (rest field : Bytes),
      original = fs.flatten ++ rest ∧ (∀ f ∈ fs, WfField f) ∧ ¬ StartsField rest ∧
      aligningExtra original off align
        = (fs.filter fun f => fieldId f ≠ alignmentExtraId ∧
            ¬ (fieldId f = 0 ∧ fieldSize f = 0)).flatten ++ field ∧
      fieldId field = alignmentExtraId ∧ field.length = 4 + fieldSize field ∧
      6 ≤ field.length ∧ field.drop 6 = List.replicate (field.length - 6) 0 ∧
      field.length - 6 < align ∧
      (off + (aligningExtra original off align).length) % align = 0 ∧
      aligningExtra (aligningExtra original off align) off align
        = aligningExtra original off align := by
  obtain ⟨rest, hrest, hmax⟩ := extraFieldsLoop_maximal original.length original (Nat.le_refl _)
  have hlt : (aligningExtra original off align).length < 2 ^ 16 := by omega
  have hpad := length_aligningExtra original off align
  have hfield := length_alignmentField (extraPad original off align) align
  have hwf := wfField_alignmentField align (show 2 + extraPad original off align < 2 ^ 16 by omega)
  refine ⟨extraFields original, rest, alignmentField (extraPad original off align) align, hrest,
    fun f hf => wfField_of_mem hf, hmax, ?_, fieldId_alignmentField _ _, hwf.2, by omega, ?_, ?_,
    aligningExtra_aligned original off hpos, aligningExtra_aligningExtra hlt⟩
  · rw [aligningExtra_eq, keptFields]
    congr 2
    apply List.filter_congr
    intro f _
    rw [keepField, Bool.eq_iff_iff]
    simp only [Bool.not_eq_true', Bool.or_eq_false_iff, Bool.and_eq_false_iff, beq_eq_false_iff_ne,
      decide_eq_true_eq, not_and_or, ne_eq]
    exact and_comm
  · rw [hfield, Nat.add_sub_cancel_left, alignmentField]
    exact List.drop_left' (by simp only [List.length_append, length_leBytes])
  · rw [hfield, Nat.add_sub_cancel_left, extraPad]
    exact Nat.mod_lt _ hpos

/-- A foreign field, a stale alignment field, raw zeros and two bytes that are no field. -/
theorem aligningExtra_mixed :
    aligningExtra ([0xfe, 0xca, 1, 0, 7] ++ [0x35, 0xd9, 2, 0, 4, 0] ++ [0, 0, 0, 0] ++ [9, 9]) 31 5
        = [0xfe, 0xca, 1, 0, 7] ++ [0x35, 0xd9, 5, 0, 5, 0, 0, 0, 0] ∧
      ∃ (fs : List Bytes) (rest : Bytes), ¬ StartsField rest ∧
        [0xfe, 0xca, 1, 0, 7] ++ [0x35, 0xd9, 2, 0, 4, 0] ++ [0, 0, 0, 0] ++ [9, 9]
          = fs.flatten ++ rest := by
  refine ⟨by decide, ?_⟩
  obtain ⟨fs, rest, -, hsplit, -, hmax, -⟩ := aligningExtra_spec
    ([0xfe, 0xca, 1, 0, 7] ++ [0x35, 0xd9, 2, 0, 4, 0] ++ [0, 0, 0, 0] ++ [9, 9]) 31
    (show 0 < 5 by decide) (by decide)
  exact ⟨fs, rest, hmax, hsplit⟩

/-- **The declared alignment reads back**, in sixteen bits. -/
theorem declaredAlignment_aligningExtra {original : Bytes} {off align : Nat}
    (h : (aligningExtra original off align).length < 2 ^ 16) :
    declaredAlignment (aligningExtra original off align) = some (align % 2 ^ 16) := by
  have hkept : ((extraFields original).filter keepField).find?
      (fun f => fieldId f == alignmentExtraId && 2 ≤ fieldSize f) = none := by
    rw [List.find?_eq_none]
    intro f hf hid
    have hkeep := List.of_mem_filter hf
    simp only [Bool.and_eq_true] at hid
    simp [keepField, hid.1] at hkeep
  have hlen := h
  rw [length_aligningExtra] at hlen
  have hsize := fieldSize_alignmentField align
    (show 2 + extraPad original off align < 2 ^ 16 by omega)
  rw [declaredAlignment, extraFields_aligningExtra h, List.find?_append, hkept, Option.none_or,
    List.find?_cons_of_pos (by simp [fieldId_alignmentField, hsize]), Option.map_some,
    u16le_alignmentField]

/-- The alignment that was written is read back exactly when it fits in sixteen bits. -/
theorem declaredAlignment_eq_iff {original : Bytes} {off align : Nat}
    (h : (aligningExtra original off align).length ≤ 0xffff) :
    declaredAlignment (aligningExtra original off align) = some align ↔ align < 2 ^ 16 := by
  rw [declaredAlignment_aligningExtra (by omega), Option.some.injEq]
  constructor
  · intro heq
    rw [← heq]
    exact Nat.mod_lt _ (by decide)
  · exact fun hlt => Nat.mod_eq_of_lt hlt

theorem declaredAlignment_foreignField :
    declaredAlignment (aligningExtra [0xfe, 0xca, 0, 0] 16374 16384) = some 16384 :=
  (declaredAlignment_eq_iff (by decide)).mpr (by decide)

/-- The page sizes, in bytes, that `parse_args` makes of a number of KiB. -/
def libPageSize (kib : Nat) : Option Nat :=
  if kib ≠ 0 ∧ kib ≠ 2 ^ kib.log2 ∨ 64 < kib then none else some (kib <<< 10)

/-- The alignments that the rewrite can ask for: the larger of zipalign's rule and what the entry
declares. -/
def PassedAlignment (align : Nat) : Prop :=
  ∃ kib page rule declared, libPageSize kib = some page ∧ (rule = 4 ∨ rule = page) ∧
    declared < 2 ^ 16 ∧ align = max rule declared

/-- A page of 64 KiB is written as zero. -/
theorem declaredAlignment_64KiB : PassedAlignment 65536 ∧
    (aligningExtra [] 65530 65536).length ≤ 0xffff ∧
    declaredAlignment (aligningExtra [] 65530 65536) ≠ some 65536 :=
  ⟨⟨64, 65536, 65536, 0, by decide, Or.inr rfl, by decide, by decide⟩, by decide, by decide⟩

theorem declaredAlignment_lt {extra : Bytes} {a : Nat} (h : declaredAlignment extra = some a) :
    a < 2 ^ 16 := by
  rw [declaredAlignment, Option.map_eq_some_iff] at h
  obtain ⟨f, -, rfl⟩ := h
  exact u16le_lt f 4

end FastSigner.Align

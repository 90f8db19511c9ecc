import FastSigner.Keys.Pkcs12

/-!
# Elements and what the readers make of them

`children` accepts exactly the strings that are a sequence of elements, whatever
octets their lengths are stated in, and returns them (`children_eq_ok_iff`);
`octets` returns the leaves of a string, however deep they are nested
(`octets_eq_ok_iff`).

`encodeAll` is the contents of a constructed element that has its lengths in the
shortest form, its children one after the other:

* `children_encodeAll`: `children` finds the elements, each with its encoding.
* `uint_derUint`: `uint` reads an INTEGER that has less than 32 bits.
-/

namespace FastSigner.Keys.Pkcs12

open Lib

/-! ### One element -/

def toTlv (e : Element LengthOctets) : Tlv := ⟨e.tag, e.body, e.raw⟩

theorem tlv_element {b rest : Bytes} {p : Nat} {e : Element LengthOctets}
    (h : b.drop p = e.raw ++ rest) : tlv b p = .ok (toTlv e, p + e.raw.length) := by
  have hlen := e.length_raw
  have hend : p + (1 + e.size.length) + e.body.length = p + e.raw.length := by omega
  rw [tlv, derHeader_element h, ok_bind]
  simp only [hend, e.slice_body h, e.slice_raw h]
  rfl

/-- **An element is read exactly where one stands.** -/
theorem tlv_eq_ok_iff {b : Bytes} {p next : Nat} {t : Tlv} :
    tlv b p = .ok (t, next) ↔
      ∃ (e : Element LengthOctets) (rest : Bytes), b.drop p = e.raw ++ rest ∧ t = toTlv e ∧
        next = p + e.raw.length := by
  constructor
  · intro h
    obtain ⟨⟨tag, s, l⟩, hhdr, -⟩ := bind_eq_ok.mp h
    obtain ⟨e, rest, hdrop, -, -, -⟩ := derHeader_eq_ok_iff_element.mp hhdr
    rw [tlv_element hdrop, Except.ok.injEq, Prod.mk.injEq] at h
    exact ⟨e, rest, hdrop, h.1.symm, h.2.symm⟩
  · rintro ⟨e, rest, hdrop, rfl, rfl⟩
    exact tlv_element hdrop

theorem raw_pos (e : Element LengthOctets) : 2 ≤ e.raw.length := by
  have hsize := e.size_states.length_pos
  rw [e.length_raw]
  omega

theorem one_append {tag : UInt8} (htag : tag &&& 0x1f ≠ 0x1f) {ls body : Bytes}
    (hls : LengthOctets ls body.length) (what : String) :
    one (tag :: ls ++ body) tag what = .ok ⟨tag, body, tag :: ls ++ body⟩ := by
  have h := @tlv_element (tag :: ls ++ body) [] 0 ⟨tag, ls, body, htag, hls⟩
    (by rw [List.drop_zero, List.append_nil]; rfl)
  rw [one, h, ok_bind]
  exact if_neg (fun hne => hne rfl)

/-! ### A sequence of elements -/

theorem childrenFrom_eq_ok_iff {b : Bytes} :
    ∀ {fuel p : Nat} {v : List Tlv}, b.length - p ≤ fuel →
      (childrenFrom b fuel p = .ok v ↔
        ∃ es : List (Element LengthOctets), b.drop p = es.flatMap Element.raw ∧ v = es.map toTlv) := by
  have hend : ∀ {p : Nat} {v : List Tlv}, b.length ≤ p → ((.ok [] : Except String _) = .ok v ↔
      ∃ es : List (Element LengthOctets), b.drop p = es.flatMap Element.raw ∧ v = es.map toTlv) := by
    intro p v hp
    rw [List.drop_of_length_le hp, Except.ok.injEq]
    constructor
    · rintro rfl
      exact ⟨[], rfl, rfl⟩
    · rintro ⟨es, hes, rfl⟩
      cases es with
      | nil => rfl
      | cons e es =>
        have := congrArg List.length hes
        have := raw_pos e
        simp only [List.flatMap_cons, List.length_append, List.length_nil] at *
        omega
  intro fuel
  induction fuel with
  | zero =>
    intro p v hfuel
    exact hend (by omega)
  | succ fuel ih =>
    intro p v hfuel
    rw [childrenFrom]
    by_cases hp : p < b.length
    · rw [if_pos hp]
      constructor
      · intro h
        obtain ⟨⟨t, next⟩, ht, h⟩ := bind_eq_ok.mp h
        obtain ⟨e, rest, hdrop, rfl, rfl⟩ := tlv_eq_ok_iff.mp ht
        obtain ⟨v', hv', h⟩ := bind_eq_ok.mp h
        have := raw_pos e
        obtain ⟨es, hes, rfl⟩ := (ih (by omega)).mp hv'
        rw [e.drop_raw hdrop] at hes
        refine ⟨e :: es, ?_, (Except.ok.inj h).symm⟩
        rw [hdrop, hes, List.flatMap_cons]
      · rintro ⟨es, hes, rfl⟩
        cases es with
        | nil =>
          have := congrArg List.length hes
          rw [List.length_drop, List.flatMap_nil, List.length_nil] at this
          omega
        | cons e es =>
          rw [List.flatMap_cons] at hes
          have := raw_pos e
          rw [tlv_element hes, ok_bind]
          simp only
          rw [(ih (by omega)).mpr ⟨es, e.drop_raw hes, rfl⟩]
          rfl
    · rw [if_neg hp]
      exact hend (by omega)

/-- **`children` reads exactly the sequences of elements.** -/
theorem children_eq_ok_iff {b : Bytes} {v : List Tlv} :
    children b = .ok v ↔
      ∃ es : List (Element LengthOctets), b = es.flatMap Element.raw ∧ v = es.map toTlv :=
  childrenFrom_eq_ok_iff (Nat.sub_le _ _)

/-- `tlv` with its slices checked. -/
def tlvChecked (b : Bytes) (p : Nat) : Option (Except String (Tlv × Nat)) :=
  match derHeader b p with
  | .error e => some (.error e)
  | .ok (tag, s, l) => do
    let body ← checkedSlice b s (s + l)
    let raw ← checkedSlice b p (s + l)
    some (.ok (⟨tag, body, raw⟩, s + l))

/-- The loop of `children` for at most `fuel` turns, with its slices checked. -/
def childrenChecked (b : Bytes) : (fuel p : Nat) → Option (Except String (List Tlv))
  | 0, _ => none
  | fuel + 1, p =>
    if p < b.length then do
      match ← tlvChecked b p with
      | .error e => some (.error e)
      | .ok (t, next) =>
        match ← childrenChecked b fuel next with
        | .error e => some (.error e)
        | .ok rest => some (.ok (t :: rest))
    else some (.ok [])

theorem tlvChecked_eq (b : Bytes) (p : Nat) : tlvChecked b p = some (tlv b p) := by
  rw [tlvChecked, tlv]
  cases hhdr : derHeader b p with
  | error e => rfl
  | ok x =>
    obtain ⟨tag, s, l⟩ := x
    have hin := derHeader_bounds hhdr
    simp only
    rw [checkedSlice_of_le (by omega) hin.2, checkedSlice_of_le (by omega) hin.2]
    rfl

/-- **`children` returns after at most one turn more than there are bytes**, and no slice is out of
range. -/
theorem childrenChecked_eq {b : Bytes} :
    ∀ {fuel p : Nat}, b.length - p ≤ fuel →
      childrenChecked b (fuel + 1) p = some (childrenFrom b fuel p) := by
  intro fuel
  induction fuel with
  | zero =>
    intro p hfuel
    rw [childrenChecked, childrenFrom, if_neg (by omega)]
  | succ fuel ih =>
    intro p hfuel
    rw [childrenChecked, childrenFrom]
    by_cases hp : p < b.length
    · rw [if_pos hp, if_pos hp, tlvChecked_eq, Option.bind_eq_bind, Option.bind_some]
      cases ht : tlv b p with
      | error e => rfl
      | ok x =>
        obtain ⟨t, next⟩ := x
        obtain ⟨e, rest, -, -, hnext⟩ := tlv_eq_ok_iff.mp ht
        have := raw_pos e
        simp only [ih (show b.length - next ≤ fuel by omega), ok_bind]
        cases childrenFrom b fuel next with
        | error e => rfl
        | ok v => rfl
    · rw [if_neg hp, if_neg hp]

/-! ### The leaves of a string -/

/-- The contents of the primitive elements among `ts` and inside them, in order. -/
inductive Leaves : List Tlv → List Bytes → Prop
  | nil : Leaves [] []
  | primitive {t : Tlv} {ts : List Tlv} {ls : List Bytes} (h : t.tag &&& 0x20 = 0)
    (hts : Leaves ts ls) : Leaves (t :: ts) (t.body :: ls)
  | constructed {t : Tlv} {es : List (Element LengthOctets)} {ts : List Tlv} {ks ls : List Bytes}
    (h : t.tag &&& 0x20 ≠ 0) (hbody : t.body = es.flatMap Element.raw)
    (hes : Leaves (es.map toTlv) ks) (hts : Leaves ts ls) : Leaves (t :: ts) (ks ++ ls)

theorem length_body_lt {es : List (Element LengthOctets)} {t : Tlv} (ht : t ∈ es.map toTlv) :
    t.body.length + 2 ≤ (es.flatMap Element.raw).length := by
  obtain ⟨e, he, rfl⟩ := List.mem_map.mp ht
  have hsize := e.size_states.length_pos
  have hle : e.raw.length ≤ (es.flatMap Element.raw).length :=
    (List.sublist_flatten_of_mem (List.mem_map_of_mem he)).length_le
  rw [e.length_raw] at hle
  simp only [toTlv]
  omega

theorem octetsFuel_of_leaves {ts : List Tlv} {ls : List Bytes} (h : Leaves ts ls) :
    ∀ {fuel : Nat}, (∀ t ∈ ts, t.body.length < fuel) →
      ∃ parts, ts.mapM (octetsFuel fuel) = .ok parts ∧ parts.flatten = ls.flatten := by
  induction h with
  | nil =>
    intro fuel _
    exact ⟨[], rfl, rfl⟩
  | @primitive t ts ls ht hts ih =>
    intro fuel hfuel
    obtain ⟨parts, hparts, heq⟩ := ih (fun x hx => hfuel x (List.mem_cons_of_mem _ hx))
    obtain ⟨f, rfl⟩ : ∃ f, fuel = f + 1 := ⟨fuel - 1, by have := hfuel t List.mem_cons_self; omega⟩
    refine ⟨t.body :: parts, ?_, by rw [List.flatten_cons, List.flatten_cons, heq]⟩
    rw [List.mapM_cons, octetsFuel, if_pos ht, ok_bind, hparts]
    rfl
  | @constructed t es ts ks ls ht hbody hes hts ihes ih =>
    intro fuel hfuel
    have hin := hfuel t List.mem_cons_self
    obtain ⟨f, rfl⟩ : ∃ f, fuel = f + 1 := ⟨fuel - 1, by omega⟩
    obtain ⟨parts, hparts, heq⟩ := ih (fun x hx => hfuel x (List.mem_cons_of_mem _ hx))
    rw [hbody] at hin
    obtain ⟨inner, hinner, heqi⟩ := @ihes f (fun x hx => by
      have := length_body_lt hx
      omega)
    refine ⟨inner.flatten :: parts, ?_, by rw [List.flatten_cons, List.flatten_append, heq, heqi]⟩
    rw [List.mapM_cons, octetsFuel, if_neg ht, children_eq_ok_iff.mpr ⟨es, hbody, rfl⟩, ok_bind,
      hinner, ok_bind, hparts]
    rfl

theorem leaves_of_octetsFuel :
    ∀ {fuel : Nat} {ts : List Tlv} {parts : List Bytes}, (∀ t ∈ ts, t.body.length < fuel) →
      ts.mapM (octetsFuel fuel) = .ok parts →
      ∃ ls, Leaves ts ls ∧ parts.flatten = ls.flatten := by
  intro fuel
  induction fuel with
  | zero =>
    intro ts parts hfuel h
    cases ts with
    | nil =>
      obtain rfl := Except.ok.inj h
      exact ⟨[], .nil, rfl⟩
    | cons t ts => exact absurd (hfuel t List.mem_cons_self) (Nat.not_lt_zero _)
  | succ fuel ihfuel =>
    intro ts
    induction ts with
    | nil =>
      intro parts _ h
      obtain rfl := Except.ok.inj h
      exact ⟨[], .nil, rfl⟩
    | cons t ts ih =>
      intro parts hfuel h
      rw [List.mapM_cons] at h
      obtain ⟨x, hx, h⟩ := bind_eq_ok.mp h
      obtain ⟨rest, hrest, h⟩ := bind_eq_ok.mp h
      obtain rfl := Except.ok.inj h
      obtain ⟨ls, hls, heq⟩ := ih (fun y hy => hfuel y (List.mem_cons_of_mem _ hy)) hrest
      rw [octetsFuel] at hx
      by_cases ht : t.tag &&& 0x20 = 0
      · rw [if_pos ht] at hx
        obtain rfl := Except.ok.inj hx
        exact ⟨_, .primitive ht hls, by rw [List.flatten_cons, List.flatten_cons, heq]⟩
      · rw [if_neg ht] at hx
        obtain ⟨cs, hcs, hx⟩ := bind_eq_ok.mp hx
        obtain ⟨inner, hinner, hx⟩ := bind_eq_ok.mp hx
        obtain rfl := Except.ok.inj hx
        obtain ⟨es, hbody, rfl⟩ := children_eq_ok_iff.mp hcs
        have hin := hfuel t List.mem_cons_self
        obtain ⟨ks, hks, heqi⟩ := ihfuel (fun y hy => by
          have := length_body_lt hy
          rw [← hbody] at this
          omega) hinner
        exact ⟨_, .constructed ht hbody hks hls,
          by rw [List.flatten_cons, List.flatten_append, heq, heqi]⟩

/-- **`octets` returns the contents of the leaves, in order.** -/
theorem octets_eq_ok_iff {t : Tlv} {out : Bytes} :
    octets t = .ok out ↔ ∃ ls, Leaves [t] ls ∧ out = ls.flatten := by
  have hfuel : ∀ x ∈ [t], x.body.length < t.body.length + 1 := by
    intro x hx
    rw [List.mem_singleton.mp hx]
    exact Nat.lt_succ_self _
  have hone : [t].mapM (octetsFuel (t.body.length + 1)) = (octets t).map fun x => [x] := by
    rw [List.mapM_cons, octets]
    cases octetsFuel (t.body.length + 1) t <;> rfl
  constructor
  · intro h
    rw [h] at hone
    obtain ⟨ls, hls, heq⟩ := leaves_of_octetsFuel hfuel hone
    exact ⟨ls, hls, by rw [← heq, List.flatten_singleton]⟩
  · rintro ⟨ls, hls, rfl⟩
    obtain ⟨parts, hparts, heq⟩ := octetsFuel_of_leaves hls hfuel
    rw [hone] at hparts
    cases ho : octets t with
    | error e => rw [ho] at hparts; cases hparts
    | ok x =>
      rw [ho] at hparts
      obtain rfl := Except.ok.inj hparts
      rw [← heq, List.flatten_singleton]

/-- **The DER walker**: `children` always returns, without an access out of range; it accepts
exactly the sequences of elements and returns them with their contents and encodings; and
`octets` on a constructed string returns what its leaves hold. -/
theorem children_spec (b : Bytes) :
    childrenChecked b (b.length + 1) 0 = some (children b) ∧
      (∀ v, children b = .ok v ↔
        ∃ es : List (Element LengthOctets), b = es.flatMap Element.raw ∧
          v = es.map fun e => ⟨e.tag, e.body, e.raw⟩) ∧
      (∀ v, children b = .ok v → v.flatMap Tlv.raw = b) ∧
      (∀ es : List (Element LengthOctets), children (es.flatMap Element.raw)
        = .ok (es.map fun e => ⟨e.tag, e.body, e.raw⟩)) ∧
      ∀ t : Tlv, t.body = b → t.tag &&& 0x20 ≠ 0 → ∀ out,
        octets t = .ok out ↔ ∃ ls, Leaves [t] ls ∧ out = ls.flatten := by
  refine ⟨childrenChecked_eq (Nat.sub_le _ _), fun v => children_eq_ok_iff, ?_,
    fun es => children_eq_ok_iff.mpr ⟨es, rfl, rfl⟩, fun t _ _ out => octets_eq_ok_iff⟩
  intro v hv
  obtain ⟨es, rfl, rfl⟩ := children_eq_ok_iff.mp hv
  rw [List.flatMap_map]
  rfl

/-! ### Lengths in the shortest form -/

def encodeAll (es : List (UInt8 × Bytes)) : Bytes := es.flatMap fun e => der e.1 e.2

def derTlv (e : UInt8 × Bytes) : Tlv := ⟨e.1, e.2, der e.1 e.2⟩

@[simp] theorem encodeAll_cons (e : UInt8 × Bytes) (es : List (UInt8 × Bytes)) :
    encodeAll (e :: es) = der e.1 e.2 ++ encodeAll es := List.flatMap_cons

@[simp] theorem derTlv_tag (e : UInt8 × Bytes) : (derTlv e).tag = e.1 := rfl

@[simp] theorem derTlv_body (e : UInt8 × Bytes) : (derTlv e).body = e.2 := rfl

theorem length_le_encodeAll {es : List (UInt8 × Bytes)} {e : UInt8 × Bytes} (h : e ∈ es) :
    e.2.length ≤ (encodeAll es).length := by
  induction es with
  | nil => cases h
  | cons x es ih =>
    rw [encodeAll_cons, List.length_append]
    rcases List.mem_cons.mp h with rfl | h
    · have := length_le_der e.1 e.2
      omega
    · have := ih h
      omega

theorem exists_elements {es : List (UInt8 × Bytes)} (htag : ∀ e ∈ es, e.1 &&& 0x1f ≠ 0x1f)
    (hlen : ∀ e ∈ es, e.2.length < 2 ^ 32) :
    ∃ els : List (Element LengthOctets), encodeAll es = els.flatMap Element.raw ∧
      es.map derTlv = els.map toTlv := by
  induction es with
  | nil => exact ⟨[], rfl, rfl⟩
  | cons e es ih =>
    obtain ⟨els, henc, hmap⟩ := ih (fun x hx => htag x (List.mem_cons_of_mem _ hx))
      (fun x hx => hlen x (List.mem_cons_of_mem _ hx))
    refine ⟨derElement e.1 e.2 (htag e List.mem_cons_self) (hlen e List.mem_cons_self) :: els, ?_, ?_⟩
    · rw [encodeAll_cons, henc, List.flatMap_cons]
      rfl
    · rw [List.map_cons, List.map_cons, hmap]
      rfl

def shortTags (tags : List UInt8) : Bool := tags.all fun t => t &&& 0x1f ≠ 0x1f

/-- **The children of what was encoded.** -/
theorem children_encodeAll {es : List (UInt8 × Bytes)} (htag : shortTags (es.map Prod.fst) = true)
    (hlen : (encodeAll es).length < 2 ^ 32) :
    children (encodeAll es) = .ok (es.map derTlv) := by
  have hshort : ∀ e ∈ es, e.1 &&& 0x1f ≠ 0x1f := fun e he =>
    of_decide_eq_true (List.all_eq_true.mp htag e.1 (List.mem_map_of_mem he))
  obtain ⟨els, henc, hmap⟩ := exists_elements hshort
    (fun e he => Nat.lt_of_le_of_lt (length_le_encodeAll he) hlen)
  exact children_eq_ok_iff.mpr ⟨els, henc, hmap⟩

/-! ### Numbers -/

/-- The contents of an INTEGER: the first bit is clear. -/
def derUint (n : Nat) : Bytes := beBytes ((n.log2 + 1) / 8 + 1) n

theorem foldl_uintStep (b : Bytes) :
    ∀ acc : Nat, acc * 256 ^ b.length + beNat b < 2 ^ 32 →
      b.foldl uintStep (some acc) = some (acc * 256 ^ b.length + beNat b) := by
  induction b with
  | nil =>
    intro acc _
    rw [List.foldl_nil, List.length_nil, Nat.pow_zero, Nat.mul_one]
    rfl
  | cons c r ih =>
    intro acc h
    have hval : acc * 256 ^ (c :: r).length + beNat (c :: r)
        = (acc * 256 + c.toNat) * 256 ^ r.length + beNat r := by
      rw [beNat_cons, List.length_cons, Nat.pow_succ, Nat.mul_comm (256 ^ r.length) 256,
        ← Nat.mul_assoc, ← Nat.add_assoc, ← Nat.add_mul]
    rw [hval] at h ⊢
    have hsmall : acc < 2 ^ 32 := by
      have hle : (acc * 256 + c.toNat) * 1 ≤ (acc * 256 + c.toNat) * 256 ^ r.length :=
        Nat.mul_le_mul_left _ (Nat.pow_pos (by decide))
      omega
    have hstep : uintStep (some acc) c = some (acc * 256 + c.toNat) := by
      rw [uintStep, if_pos (by rw [Nat.shiftRight_eq_div_pow]; exact Nat.div_eq_of_lt hsmall),
        ← Nat.shiftLeft_add_eq_or_of_lt (show c.toNat < 2 ^ 8 from c.toNat_lt), Nat.shiftLeft_eq]
    rw [List.foldl_cons, hstep, ih _ h]

theorem derUint_fits (n : Nat) : n < 2 ^ (8 * ((n.log2 + 1) / 8 + 1) - 1) := by
  by_cases hn : n = 0
  · rw [hn]
    decide
  · exact (Nat.log2_lt hn).mp (by omega)

theorem head?_beBytes (k n : Nat) : (beBytes (k + 1) n).head? = some (UInt8.ofNat (n / 256 ^ k)) := by
  have hlast : ∀ k n, (leBytes (k + 1) n).getLast? = some (UInt8.ofNat (n / 256 ^ k)) := by
    intro k
    induction k with
    | zero =>
      intro n
      rw [leBytes, leBytes, Nat.pow_zero, Nat.div_one]
      rfl
    | succ k ih =>
      intro n
      rw [leBytes, List.getLast?_cons_of_ne_nil (by rw [leBytes]; exact List.cons_ne_nil _ _), ih,
        Nat.div_div_eq_div_mul, Nat.pow_succ, Nat.mul_comm 256]
  rw [beBytes, List.head?_reverse, hlast]

/-- **A number below `2^32` is read back.** -/
theorem uint_derUint {n : Nat} (h : n < 2 ^ 32) (what : String) :
    uint (derTlv (0x02, derUint n)) what = .ok n := by
  have hfits := derUint_fits n
  generalize hk : (n.log2 + 1) / 8 = k at hfits
  have hbody : derUint n = beBytes (k + 1) n := by rw [derUint, hk]
  have hlt : n < 256 ^ (k + 1) := by
    refine Nat.lt_of_lt_of_le hfits ?_
    rw [show 256 = 2 ^ 8 from rfl, ← Nat.pow_mul]
    exact Nat.pow_le_pow_right (by decide) (by omega)
  have hhead : n / 256 ^ k < 128 := by
    rw [Nat.div_lt_iff_lt_mul (Nat.pow_pos (by decide))]
    refine Nat.lt_of_lt_of_le hfits (Nat.le_of_eq ?_)
    rw [show 256 = 2 ^ 8 from rfl, ← Nat.pow_mul, show 128 = 2 ^ 7 from rfl, ← Nat.pow_add]
    congr 1
    omega
  have hsign : UInt8.ofNat (n / 256 ^ k) &&& 0x80 = 0 := by
    apply UInt8.toNat.inj
    rw [UInt8.toNat_and, UInt8.toNat_ofNat', Nat.mod_eq_of_lt (by omega)]
    apply Nat.eq_of_testBit_eq
    intro i
    rw [Nat.testBit_and, show (0x80 : UInt8).toNat = 2 ^ 7 from rfl, Nat.testBit_two_pow]
    by_cases hi : 7 = i
    · rw [← hi, Nat.testBit_lt_two_pow hhead]
      rfl
    · rw [decide_eq_false hi, Bool.and_false]
      exact (Nat.zero_testBit i).symm
  have hval : (derUint n).foldl uintStep (some 0) = some n := by
    have hbe : beNat (derUint n) = n := by rw [hbody, beNat_beBytes_of_lt hlt]
    rw [foldl_uintStep _ 0 (by rw [hbe, Nat.zero_mul, Nat.zero_add]; exact h), hbe, Nat.zero_mul,
      Nat.zero_add]
  rw [uint, expectTag, if_neg (fun hne => hne rfl), ok_bind, derTlv_body, hval, hbody, head?_beBytes]
  simp only [Option.all_some, hsign, ne_eq, not_true_eq_false, decide_false, Bool.false_eq_true,
    if_false, if_pos h]
  rfl

end FastSigner.Keys.Pkcs12

import FastSigner.Lib.Utf8
import FastSigner.Basic

/-!
# The Central Directory

`parse_cd_entries` walks the directory record by record, `classify` adds each
entry's policy, and `filter_cd` keeps the `Output` entries, borrowing the
directory when nothing is dropped.

The functions work with byte offsets into one buffer.  The directory itself is a
list of records laid end to end, and everything else is said of that list:

* `parseCdEntries_eq_ok_iff`: the parser succeeds exactly on a concatenation of
  well-formed records, and returns one entry for each.
* `filterCd_flatten`: filtering the bytes is filtering the list of records.
* `setLfhOff`: the one change that the alignment rewrite makes to a record.
-/

namespace FastSigner.Zip

open Lib

def cdEntrySig : Bytes := [0x50, 0x4b, 0x01, 0x02]
def lfhSig : Bytes := [0x50, 0x4b, 0x03, 0x04]
def lfhLen : Nat := 30
def dataDescriptorSig : Nat := 0x08074b50
def methodStored : Nat := 0
def flagDataDescriptor : Nat := 1 <<< 3

structure Range where
  start : Nat
  stop : Nat
  deriving DecidableEq, Repr

/-- One Central Directory record, by byte ranges into the directory. -/
structure CdEntry where
  record : Range
  name : Range
  lfhOff : Nat
  method : Nat
  flags : Nat
  compressedSize : Nat
  deriving DecidableEq, Repr

def CdEntry.nameIn (e : CdEntry) (cd : Bytes) : Bytes := slice cd e.name.start e.name.stop

def CdEntry.isDir (e : CdEntry) (cd : Bytes) : Bool := (ascii "/").isSuffixOf (e.nameIn cd)

def CdEntry.isStored (e : CdEntry) : Bool := e.method == methodStored

def CdEntry.hasDataDescriptor (e : CdEntry) : Bool := e.flags &&& flagDataDescriptor != 0

/-- The entry whose record starts at offset `p` of the directory. -/
def entryAt (cd : Bytes) (p : Nat) : CdEntry where
  record := ⟨p, p + (46 + u16le cd (p + 28) + u16le cd (p + 30) + u16le cd (p + 32))⟩
  name := ⟨p + 46, p + 46 + u16le cd (p + 28)⟩
  lfhOff := u32le cd (p + 42)
  method := u16le cd (p + 10)
  flags := u16le cd (p + 8)
  compressedSize := u32le cd (p + 20)

/-- The loop of `parse_cd_entries` from offset `p`.  A record has at least 46 bytes, so the length
of the directory bounds the number of iterations. -/
def parseCdLoop (cd : Bytes) : (fuel p : Nat) → Except Error (List CdEntry)
  | 0, _ => .ok []
  | fuel + 1, p =>
    if p < cd.length then
      if cd.length < p + 46 ∨ slice cd p (p + 4) ≠ cdEntrySig then .error (.malformedCdEntry p)
      else
        let e := entryAt cd p
        if cd.length < e.record.stop then .error (.cdEntryOverruns p)
        else do
          let rest ← parseCdLoop cd fuel e.record.stop
          .ok (e :: rest)
    else .ok []

def parseCdEntries (cd : Bytes) : Except Error (List CdEntry) := parseCdLoop cd cd.length 0

/-- zipalign's rule: `1` when no alignment applies, a page for `.so` files, else four. -/
def requiredAlignment (cd : Bytes) (e : CdEntry) (libPageSize : Nat) : Nat :=
  if !e.isStored || e.isDir cd then 1
  else if 4 < libPageSize && (ascii ".so").isSuffixOf (e.nameIn cd) then libPageSize
  else 4

/-- v1 (JAR) signature files directly under `META-INF/`, the file name case-insensitive. -/
def isV1SignatureEntry (name : Bytes) : Bool :=
  if (ascii "META-INF/").isPrefixOf name then
    let rest := name.drop (ascii "META-INF/").length
    if rest.contains 0x2f then false
    else
      let lower := rest.map fun b => if 0x41 ≤ b && b ≤ 0x5a then b + 0x20 else b
      lower == ascii "manifest.mf" || (ascii ".sf").isSuffixOf lower ||
        (ascii ".rsa").isSuffixOf lower || (ascii ".dsa").isSuffixOf lower ||
        (ascii ".ec").isSuffixOf lower || (ascii "sig-").isPrefixOf lower
  else false

/-- What becomes of an entry: `output` is copied, `skip` is dropped, `gap` leaves the directory
but its local record stays as unprocessed bytes. -/
inductive EntryPolicy
  | output
  | skip
  | gap
  deriving DecidableEq, Repr

def entryPolicy (name : Bytes) : EntryPolicy :=
  if name = ascii "stamp-cert-sha256" ∨ name = ascii "pinlist.meta" then .gap
  else if (ascii "/").isSuffixOf name || isV1SignatureEntry name then .skip
  else .output

/-- Every record of a directory, with its policy. -/
def classify (cd : Bytes) : Except Error (List CdEntry × List EntryPolicy) := do
  let all ← parseCdEntries cd
  .ok (all, all.map fun e => entryPolicy (e.nameIn cd))

/-- A clone-on-write buffer: the caller's own slice, or a copy. -/
inductive Cow
  | borrowed
  | owned (b : Bytes)
  deriving DecidableEq, Repr

def Cow.deref (src : Bytes) : Cow → Bytes
  | .borrowed => src
  | .owned b => b

structure FilteredCd where
  bytes : Cow -- The directory with the `output` entries only; borrowed when nothing was dropped.
  kept : List CdEntry -- The records of `bytes`, with ranges into `bytes`.
  -- The names of the dropped entries, as `String::from_utf8_lossy` reads them.
  removed : List String
  deriving DecidableEq, Repr

/-- What the loop of `filter_cd` changes.  `kept` is compacted in place; the first `n` entries are
those of `out`. -/
structure FilterAcc where
  out : Bytes
  kept : List CdEntry
  n : Nat
  removed : List String

def CdEntry.shift (e : CdEntry) (shift : Nat) : CdEntry :=
  { e with
    record := ⟨e.record.start - shift, e.record.stop - shift⟩
    name := ⟨e.name.start - shift, e.name.stop - shift⟩ }

def filterStep (cd : Bytes) (acc : FilterAcc) (x : EntryPolicy × Nat) : FilterAcc :=
  match acc.kept[x.2]? with
  -- there is a policy for every entry and no other
  | none => acc
  | some e =>
    if x.1 = .output then
      { acc with
        out := acc.out ++ slice cd e.record.start e.record.stop
        kept := acc.kept.set acc.n (e.shift (e.record.start - acc.out.length))
        n := acc.n + 1 }
    else { acc with removed := acc.removed ++ [fromUtf8Lossy (e.nameIn cd)] }

def filterCd (cd : Bytes) : Except Error FilteredCd := do
  let (all, policies) ← classify cd
  if policies.all (· == .output) then .ok { bytes := .borrowed, kept := all, removed := [] }
  else
    let acc := policies.zipIdx.foldl (filterStep cd) ⟨[], all, 0, []⟩
    .ok { bytes := .owned acc.out, kept := acc.kept.take acc.n, removed := acc.removed }

/-! ### The directory as a list of records -/

/-- The length that a record's own fields give it. -/
def recordLen (r : Bytes) : Nat := 46 + u16le r 28 + u16le r 30 + u16le r 32

structure WfRecord (r : Bytes) : Prop where
  sig : slice r 0 4 = cdEntrySig
  len : r.length = recordLen r

theorem WfRecord.le {r : Bytes} (h : WfRecord r) : 46 ≤ r.length := by
  rw [h.len, recordLen]
  omega

def recordName (r : Bytes) : Bytes := slice r 46 (46 + u16le r 28)

def recordPolicy (r : Bytes) : EntryPolicy := entryPolicy (recordName r)

def entryOf (p : Nat) (r : Bytes) : CdEntry where
  record := ⟨p, p + r.length⟩
  name := ⟨p + 46, p + 46 + u16le r 28⟩
  lfhOff := u32le r 42
  method := u16le r 10
  flags := u16le r 8
  compressedSize := u32le r 20

def entriesFrom : Nat → List Bytes → List CdEntry
  | _, [] => []
  | p, r :: rs => entryOf p r :: entriesFrom (p + r.length) rs

@[simp] theorem length_entriesFrom (p : Nat) (rs : List Bytes) :
    (entriesFrom p rs).length = rs.length := by
  induction rs generalizing p with
  | nil => rfl
  | cons r rs ih => rw [entriesFrom, List.length_cons, ih, List.length_cons]

theorem getElem?_entriesFrom :
    ∀ (rs : List Bytes) (p : Nat) {i : Nat} {r : Bytes}, rs[i]? = some r →
      ∃ q, (entriesFrom p rs)[i]? = some (entryOf q r) := by
  intro rs
  induction rs with
  | nil => intro p i r h; simp at h
  | cons r' rs ih =>
    intro p i r h
    cases i with
    | zero =>
      rw [List.getElem?_cons_zero, Option.some.injEq] at h
      exact ⟨p, by rw [entriesFrom, List.getElem?_cons_zero, h]⟩
    | succ i =>
      rw [List.getElem?_cons_succ] at h
      obtain ⟨q, hq⟩ := ih (p + r'.length) h
      exact ⟨q, by rw [entriesFrom, List.getElem?_cons_succ, hq]⟩

theorem u16le_append_left {a : Bytes} (b : Bytes) {i : Nat} (h : i + 2 ≤ a.length) :
    u16le (a ++ b) i = u16le a i := leNat_slice_append a b h

theorem u32le_append_left {a : Bytes} (b : Bytes) {i : Nat} (h : i + 4 ≤ a.length) :
    u32le (a ++ b) i = u32le a i := leNat_slice_append a b h

theorem entryAt_eq {cd r rest : Bytes} {p : Nat} (h : cd.drop p = r ++ rest) (hr : WfRecord r) :
    entryAt cd p = entryOf p r := by
  have hle := hr.le
  have h16 : ∀ i, i + 2 ≤ r.length → u16le cd (p + i) = u16le r i := by
    intro i hi
    rw [← u16le_drop, h, u16le_append_left rest hi]
  have h32 : ∀ i, i + 4 ≤ r.length → u32le cd (p + i) = u32le r i := by
    intro i hi
    rw [← u32le_drop, h, u32le_append_left rest hi]
  have hlen := hr.len
  rw [recordLen] at hlen
  simp only [entryAt, entryOf, h16 28 (by omega), h16 30 (by omega), h16 32 (by omega),
    h32 42 (by omega), h16 10 (by omega), h16 8 (by omega), h32 20 (by omega), ← hlen]

theorem wfRecord_slice {cd : Bytes} {p : Nat} (hsig : slice cd p (p + 4) = cdEntrySig)
    (hlen : (entryAt cd p).record.stop ≤ cd.length) :
    WfRecord (slice cd p (entryAt cd p).record.stop) := by
  simp only [entryAt] at hlen ⊢
  refine ⟨?_, ?_⟩
  · rw [slice_slice_of_le cd (by omega), Nat.add_zero]
    exact hsig
  · rw [length_slice_of_le p hlen, recordLen, u16le_slice cd (by omega), u16le_slice cd (by omega),
      u16le_slice cd (by omega)]
    omega

theorem eq_nil_of_flatten_eq_nil {rs : List Bytes} (hwf : ∀ r ∈ rs, WfRecord r)
    (h : rs.flatten = []) : rs = [] := by
  cases rs with
  | nil => rfl
  | cons r rs =>
    have hle := (hwf r (by simp)).le
    have hlen := congrArg List.length h
    simp only [List.flatten_cons, List.length_append, List.length_nil] at hlen
    omega

theorem parseCdLoop_eq_ok_iff {cd : Bytes} :
    ∀ {fuel p : Nat} {es : List CdEntry}, cd.length ≤ p + fuel →
      (parseCdLoop cd fuel p = .ok es ↔ ∃ rs : List Bytes, (∀ r ∈ rs, WfRecord r) ∧
        cd.drop p = rs.flatten ∧ es = entriesFrom p rs) := by
  intro fuel
  induction fuel with
  | zero =>
    intro p es hfuel
    rw [parseCdLoop, List.drop_eq_nil_of_le (by omega)]
    constructor
    · intro h
      exact ⟨[], by simp, by simp, (Except.ok.inj h).symm⟩
    · rintro ⟨rs, hwf, hnil, rfl⟩
      rw [eq_nil_of_flatten_eq_nil hwf hnil.symm, entriesFrom]
  | succ fuel ih =>
    intro p es hfuel
    rw [parseCdLoop]
    by_cases hp : p < cd.length
    · rw [if_pos hp]
      constructor
      · intro h
        split at h
        · cases h
        · rename_i hhead
          simp only at h
          split at h
          · cases h
          · rename_i hstop
            rw [bind_eq_ok] at h
            obtain ⟨rest, hrest, h⟩ := h
            push Not at hhead
            have hadv : p + 46 ≤ (entryAt cd p).record.stop := by
              simp only [entryAt]
              omega
            obtain ⟨rs, hwf, hflat, rfl⟩ := (ih (by omega)).mp hrest
            have hr := wfRecord_slice hhead.2 (by omega)
            have hsplit : cd.drop p = slice cd p (entryAt cd p).record.stop ++ rs.flatten := by
              rw [← hflat, ← slice_to_end cd p (Nat.le_refl cd.length),
                ← slice_to_end cd _ (Nat.le_refl cd.length),
                slice_append_slice cd (by omega) (by omega)]
            have hentry := entryAt_eq hsplit hr
            refine ⟨slice cd p (entryAt cd p).record.stop :: rs, ?_, by simpa using hsplit, ?_⟩
            · intro r hmem
              rcases List.mem_cons.mp hmem with rfl | hmem
              · exact hr
              · exact hwf r hmem
            · have hl : (slice cd p (entryAt cd p).record.stop).length
                  = (entryAt cd p).record.stop - p := length_slice_of_le p (by omega)
              rw [entriesFrom, ← hentry, hl,
                show p + ((entryAt cd p).record.stop - p) = (entryAt cd p).record.stop by omega]
              exact (Except.ok.inj h).symm
      · rintro ⟨rs, hwf, hflat, rfl⟩
        cases rs with
        | nil =>
          have hlen := congrArg List.length hflat
          simp only [List.length_drop, List.flatten_nil, List.length_nil] at hlen
          omega
        | cons r rs =>
          have hr := hwf r (by simp)
          rw [List.flatten_cons] at hflat
          have hentry := entryAt_eq hflat hr
          have hlen := congrArg List.length hflat
          have hle := hr.le
          simp only [List.length_drop, List.length_append] at hlen
          have hsig : slice cd p (p + 4) = cdEntrySig := by
            rw [← hr.sig, ← slice_append_left rs.flatten 0 (show 4 ≤ r.length by omega), ← hflat,
              slice_drop]
            rfl
          rw [if_neg (by push Not; exact ⟨by omega, hsig⟩)]
          simp only [hentry, entryOf]
          rw [if_neg (by omega), (ih (by omega)).mpr ⟨rs, fun x hx => hwf x (by simp [hx]), ?_, rfl⟩]
          · rfl
          · rw [← List.drop_drop, hflat, List.drop_left]
    · rw [if_neg hp, List.drop_eq_nil_of_le (by omega)]
      constructor
      · intro h
        exact ⟨[], by simp, by simp, (Except.ok.inj h).symm⟩
      · rintro ⟨rs, hwf, hnil, rfl⟩
        rw [eq_nil_of_flatten_eq_nil hwf hnil.symm, entriesFrom]

/-- **A directory parses exactly when it is a concatenation of well-formed records.** -/
theorem parseCdEntries_eq_ok_iff {cd : Bytes} {es : List CdEntry} :
    parseCdEntries cd = .ok es ↔ ∃ rs : List Bytes, (∀ r ∈ rs, WfRecord r) ∧ cd = rs.flatten ∧
      es = entriesFrom 0 rs := by
  rw [parseCdEntries, parseCdLoop_eq_ok_iff (by omega), List.drop_zero]

/-! ### Filtering -/

def isOutput (r : Bytes) : Bool := recordPolicy r == .output

theorem nameIn_entryOf {r : Bytes} (hr : WfRecord r) (pre post : Bytes) :
    (entryOf pre.length r).nameIn (pre ++ r ++ post) = recordName r := by
  have hlen := hr.len
  rw [recordLen] at hlen
  rw [CdEntry.nameIn, entryOf, recordName]
  simp only
  rw [slice_append_left post _ (by simp only [List.length_append]; omega),
    slice_append_right pre r (by omega)]
  congr 1 <;> omega

theorem map_entryPolicy {rs : List Bytes} (hwf : ∀ r ∈ rs, WfRecord r) :
    ∀ pre : Bytes, (entriesFrom pre.length rs).map
      (fun e => entryPolicy (e.nameIn (pre ++ rs.flatten))) = rs.map recordPolicy := by
  induction rs with
  | nil => intro pre; rfl
  | cons r rs ih =>
    intro pre
    have hr := hwf r (by simp)
    have htail := ih (fun x hx => hwf x (by simp [hx])) (pre ++ r)
    rw [List.length_append] at htail
    rw [entriesFrom, List.map_cons, List.map_cons, List.flatten_cons, ← List.append_assoc,
      nameIn_entryOf hr, htail]
    rfl

/-- **`classify` lists the records with their policies.** -/
theorem classify_flatten {rs : List Bytes} (hwf : ∀ r ∈ rs, WfRecord r) :
    classify rs.flatten = .ok (entriesFrom 0 rs, rs.map recordPolicy) := by
  have h := map_entryPolicy hwf []
  rw [List.nil_append, List.length_nil] at h
  rw [classify, parseCdEntries_eq_ok_iff.mpr ⟨rs, hwf, rfl, rfl⟩, ok_bind, h]

/-! ### Compacting in place -/

/-- What the loop has come to: the finished entries alone. -/
structure Collected where
  out : Bytes
  kept : List CdEntry
  removed : List String

def FilterAcc.collected (acc : FilterAcc) : Collected := ⟨acc.out, acc.kept.take acc.n, acc.removed⟩

def collect (cd : Bytes) (c : Collected) (x : CdEntry × EntryPolicy) : Collected :=
  if x.2 = .output then
    { c with
      out := c.out ++ slice cd x.1.record.start x.1.record.stop
      kept := c.kept ++ [x.1.shift (x.1.record.start - c.out.length)] }
  else { c with removed := c.removed ++ [fromUtf8Lossy (x.1.nameIn cd)] }

/-- The entries from `i` on are still to be read, and none of them has been overwritten. -/
structure Unread (es : List CdEntry) (i : Nat) (acc : FilterAcc) : Prop where
  n_le : acc.n ≤ i
  rest : acc.kept.drop i = es.drop i

theorem Unread.getElem? {es : List CdEntry} {i : Nat} {acc : FilterAcc} (h : Unread es i acc) :
    acc.kept[i]? = es[i]? := by
  have := congrArg (fun l => l[0]?) h.rest
  simpa only [List.getElem?_drop, Nat.add_zero] using this

/-- **Writing behind the reader** is appending to what was collected. -/
theorem filterStep_of_unread {cd : Bytes} {es : List CdEntry} {i : Nat} {acc : FilterAcc} {e : CdEntry}
    (h : Unread es i acc) (he : es[i]? = some e) (p : EntryPolicy) :
    Unread es (i + 1) (filterStep cd acc (p, i)) ∧
      (filterStep cd acc (p, i)).collected = collect cd acc.collected (e, p) := by
  have hget : acc.kept[i]? = some e := h.getElem?.trans he
  have hn := h.n_le
  have hlt : acc.n < acc.kept.length := Nat.lt_of_le_of_lt hn (List.getElem?_eq_some_iff.mp hget).1
  have hrest : acc.kept.drop (i + 1) = es.drop (i + 1) := by
    rw [← List.drop_drop, h.rest, List.drop_drop]
  rw [filterStep, hget, collect]
  simp only
  split
  · refine ⟨⟨Nat.succ_le_succ hn, ?_⟩, ?_⟩
    · simp only
      rw [List.drop_set_of_lt (Nat.lt_succ_of_le hn), hrest]
    · simp only [FilterAcc.collected]
      rw [List.take_add_one, List.take_set_of_le (Nat.le_refl _), List.getElem?_set_self hlt]
      rfl
  · exact ⟨⟨Nat.le_succ_of_le hn, hrest⟩, rfl⟩

/-- **The loop of `filter_cd` collects**: after `i` entries it has collected what they give, and the
others are where they were. -/
theorem foldl_filterStep {es : List CdEntry} {ps : List EntryPolicy} (cd : Bytes)
    (hlen : ps.length = es.length) :
    ∀ i ≤ es.length,
      Unread es i ((ps.zipIdx.take i).foldl (filterStep cd) ⟨[], es, 0, []⟩) ∧
      ((ps.zipIdx.take i).foldl (filterStep cd) ⟨[], es, 0, []⟩).collected
        = ((es.zip ps).take i).foldl (collect cd) ⟨[], [], []⟩ := by
  intro i
  induction i with
  | zero => exact fun _ => ⟨⟨Nat.le_refl _, rfl⟩, rfl⟩
  | succ i ih =>
    intro hi
    obtain ⟨hrest, hcoll⟩ := ih (Nat.le_of_succ_le hi)
    have he : es[i]? = some es[i] := List.getElem?_eq_getElem hi
    have hp : ps[i]? = some ps[i] := List.getElem?_eq_getElem (hlen ▸ hi)
    have hx : ps.zipIdx[i]? = some (ps[i], i) := by
      rw [List.getElem?_zipIdx, hp, Nat.zero_add]
      rfl
    have hy : (es.zip ps)[i]? = some (es[i], ps[i]) := List.getElem?_zip_eq_some.mpr ⟨he, hp⟩
    obtain ⟨hrest', hstep⟩ := filterStep_of_unread hrest he ps[i]
    rw [List.take_add_one, List.take_add_one, hx, hy, List.foldl_append, List.foldl_append, ← hcoll]
    exact ⟨hrest', hstep⟩

/-- `filter_cd`, with a list for the result. -/
theorem filterCd_eq (cd : Bytes) :
    filterCd cd = classify cd >>= fun x =>
      if x.2.all (· == .output) then .ok { bytes := .borrowed, kept := x.1, removed := [] }
      else
        let c := (x.1.zip x.2).foldl (collect cd) ⟨[], [], []⟩
        .ok { bytes := .owned c.out, kept := c.kept, removed := c.removed } := by
  rw [filterCd]
  cases hcl : classify cd with
  | error e => rfl
  | ok x =>
    obtain ⟨es, ps⟩ := x
    have hlen : ps.length = es.length := by
      rw [classify, bind_eq_ok] at hcl
      obtain ⟨all, -, hcl⟩ := hcl
      obtain ⟨rfl, rfl⟩ := Prod.mk.inj (Except.ok.inj hcl)
      exact List.length_map _
    have hloop := (foldl_filterStep cd hlen es.length (Nat.le_refl _)).2
    rw [List.take_of_length_le (by rw [List.length_zipIdx, hlen]),
      List.take_of_length_le (by rw [List.length_zip, hlen, Nat.min_self])] at hloop
    rw [ok_bind, ok_bind]
    simp only
    rw [← hloop]
    rfl

theorem shift_entryOf {p q : Nat} (h : q ≤ p) (r : Bytes) :
    (entryOf p r).shift (p - q) = entryOf q r := by
  simp only [CdEntry.shift, entryOf]
  congr 2 <;> omega

theorem foldl_collect {rs : List Bytes} (hwf : ∀ r ∈ rs, WfRecord r) :
    ∀ (pre : Bytes) (acc : Collected), acc.out.length ≤ pre.length →
      ((entriesFrom pre.length rs).zip (rs.map recordPolicy)).foldl
          (collect (pre ++ rs.flatten)) acc
        = ⟨acc.out ++ (rs.filter isOutput).flatten,
            acc.kept ++ entriesFrom acc.out.length (rs.filter isOutput),
            acc.removed ++ (rs.filter (fun r => !isOutput r)).map (fromUtf8Lossy ∘ recordName)⟩ := by
  induction rs with
  | nil => intro pre acc _; simp [entriesFrom]
  | cons r rs ih =>
    intro pre acc hle
    have hr := hwf r (by simp)
    have hstep := ih (fun x hx => hwf x (by simp [hx])) (pre ++ r)
    rw [List.length_append] at hstep
    rw [entriesFrom, List.map_cons, List.zip_cons_cons, List.foldl_cons, List.flatten_cons,
      ← List.append_assoc, collect]
    by_cases ho : recordPolicy r = .output
    · have hrec : slice (pre ++ r ++ rs.flatten) pre.length (pre.length + r.length) = r := by
        rw [List.append_assoc, slice_append_length, List.take_left]
      have hshift := shift_entryOf hle r
      rw [if_pos ho, hstep _ (by simp [entryOf]; omega)]
      simp only [entryOf] at hrec hshift ⊢
      rw [hrec, hshift, List.filter_cons_of_pos (by simp [isOutput, ho]),
        List.filter_cons_of_neg (by simp [isOutput, ho]), List.flatten_cons, List.append_assoc,
        List.length_append, entriesFrom, List.append_assoc]
      rfl
    · rw [if_neg ho, hstep _ (by simp only; omega), nameIn_entryOf hr,
        List.filter_cons_of_neg (by simp [isOutput, ho]),
        List.filter_cons_of_pos (by simp [isOutput, ho]), List.map_cons, List.append_assoc]
      rfl

/-- **Filtering the bytes is filtering the list of records.** -/
theorem filterCd_flatten {rs : List Bytes} (hwf : ∀ r ∈ rs, WfRecord r) :
    ∃ fc, filterCd rs.flatten = .ok fc ∧
      fc.bytes.deref rs.flatten = (rs.filter isOutput).flatten ∧
      fc.kept = entriesFrom 0 (rs.filter isOutput) ∧
      fc.removed = (rs.filter (fun r => !isOutput r)).map (fromUtf8Lossy ∘ recordName) := by
  rw [filterCd_eq, classify_flatten hwf, ok_bind]
  simp only
  by_cases hall : (rs.map recordPolicy).all (· == .output) = true
  · have hmem : ∀ r ∈ rs, isOutput r = true := by
      intro r hr
      rw [List.all_map, List.all_eq_true] at hall
      exact hall r hr
    rw [if_pos hall]
    refine ⟨_, rfl, ?_, ?_, ?_⟩
    · rw [List.filter_eq_self.mpr hmem]
      rfl
    · rw [List.filter_eq_self.mpr hmem]
    · rw [List.filter_eq_nil_iff.mpr (fun r hr => by simp [hmem r hr]), List.map_nil]
  · rw [if_neg hall]
    have hfold := foldl_collect hwf [] ⟨[], [], []⟩ (Nat.le_refl _)
    rw [List.nil_append, List.length_nil] at hfold
    rw [hfold]
    exact ⟨_, rfl, rfl, rfl, rfl⟩

theorem filterCd_eq_ok {cd : Bytes} {fc : FilteredCd} (h : filterCd cd = .ok fc) :
    ∃ rs : List Bytes, (∀ r ∈ rs, WfRecord r) ∧ cd = rs.flatten ∧
      fc.bytes.deref cd = (rs.filter isOutput).flatten ∧
      fc.kept = entriesFrom 0 (rs.filter isOutput) := by
  have hparse : ∃ es, parseCdEntries cd = .ok es := by
    rw [filterCd, classify, bind_eq_ok] at h
    obtain ⟨x, hx, -⟩ := h
    rw [bind_eq_ok] at hx
    obtain ⟨es, hes, -⟩ := hx
    exact ⟨es, hes⟩
  obtain ⟨es, hes⟩ := hparse
  obtain ⟨rs, hwf, rfl, -⟩ := parseCdEntries_eq_ok_iff.mp hes
  obtain ⟨fc', hfc', hbytes, hkept, -⟩ := filterCd_flatten hwf
  rw [h] at hfc'
  obtain rfl := Except.ok.inj hfc'
  exact ⟨rs, hwf, rfl, hbytes, hkept⟩

/-! ### What `filter_cd` returns -/

/-- The records of the entries lie end to end, from `p` to `stop`. -/
def Tiles : (p : Nat) → List CdEntry → (stop : Nat) → Prop
  | p, [], stop => p = stop
  | p, e :: es, stop => e.record.start = p ∧ p ≤ e.record.stop ∧ Tiles e.record.stop es stop

theorem tiles_entriesFrom :
    ∀ (rs : List Bytes) (p : Nat), Tiles p (entriesFrom p rs) (p + rs.flatten.length) := by
  intro rs
  induction rs with
  | nil => intro p; rfl
  | cons r rs ih =>
    intro p
    rw [List.flatten_cons, List.length_append, ← Nat.add_assoc]
    exact ⟨rfl, Nat.le_add_right _ _, ih (p + r.length)⟩

theorem map_slice_name {rs : List Bytes} (hwf : ∀ r ∈ rs, WfRecord r) :
    ∀ pre : Bytes, (entriesFrom pre.length rs).map
        (fun e => (slice (pre ++ rs.flatten) e.record.start e.record.stop,
          e.nameIn (pre ++ rs.flatten)))
      = rs.map fun r => (r, recordName r) := by
  induction rs with
  | nil => intro pre; rfl
  | cons r rs ih =>
    intro pre
    have hr := hwf r (by simp)
    have htail := ih (fun x hx => hwf x (by simp [hx])) (pre ++ r)
    have hrec : slice (pre ++ r ++ rs.flatten) pre.length (pre.length + r.length) = r := by
      rw [List.append_assoc, slice_append_length, List.take_left]
    rw [List.length_append] at htail
    rw [entriesFrom, List.map_cons, List.map_cons, List.flatten_cons, ← List.append_assoc,
      nameIn_entryOf hr, htail]
    simp only [entryOf, hrec]

theorem nameIn_entriesFrom {rs : List Bytes} (hwf : ∀ r ∈ rs, WfRecord r) {i : Nat} {e : CdEntry}
    {r : Bytes} (he : (entriesFrom 0 rs)[i]? = some e) (hr : rs[i]? = some r) :
    e.nameIn rs.flatten = recordName r := by
  have h := congrArg (fun l => l[i]?) (map_slice_name hwf [])
  simp only [List.getElem?_map, List.length_nil, List.nil_append, he, hr, Option.map_some,
    Option.some.injEq, Prod.mk.injEq] at h
  exact h.2

theorem filter_entriesFrom {rs : List Bytes} (hwf : ∀ r ∈ rs, WfRecord r) (P : Bytes → Bool) :
    ((entriesFrom 0 rs).filter fun e => P (e.nameIn rs.flatten)).map
        (fun e => (slice rs.flatten e.record.start e.record.stop, e.nameIn rs.flatten))
      = (rs.filter fun r => P (recordName r)).map fun r => (r, recordName r) := by
  have hmap := congrArg (List.filter fun x => P x.2) (map_slice_name hwf [])
  rw [List.filter_map, List.filter_map, List.nil_append, List.length_nil] at hmap
  exact hmap

theorem filterCd_eq_error_iff (cd : Bytes) (err : Error) :
    filterCd cd = .error err ↔ parseCdEntries cd = .error err := by
  cases hparse : parseCdEntries cd with
  | error e =>
    rw [filterCd, classify, hparse, error_bind, error_bind]
    simp
  | ok es =>
    obtain ⟨rs, hwf, rfl, -⟩ := parseCdEntries_eq_ok_iff.mp hparse
    obtain ⟨fc, hfc, -⟩ := filterCd_flatten hwf
    rw [hfc]
    constructor <;> intro h <;> cases h

theorem length_out_collect (cd : Bytes) (acc : Collected) (p : Nat) (r : Bytes)
    (policy : EntryPolicy) :
    (collect cd acc (entryOf p r, policy)).out.length ≤ acc.out.length + r.length := by
  rw [collect]
  split
  · have := length_slice_add_le cd p r.length
    simp only [entryOf, List.length_append]
    omega
  · exact Nat.le_add_right _ _

/-- The running difference that `filter_cd` subtracts is never negative: what has been copied is no
longer than what has been read. -/
theorem length_out_le (cd : Bytes) :
    ∀ (rs : List Bytes) (p : Nat) (policies : List EntryPolicy) (acc : Collected)
      (before after : List (CdEntry × EntryPolicy)) (x : CdEntry × EntryPolicy),
      acc.out.length ≤ p → (entriesFrom p rs).zip policies = before ++ x :: after →
      (before.foldl (collect cd) acc).out.length ≤ x.1.record.start := by
  intro rs
  induction rs with
  | nil =>
    intro p policies acc before after x _ h
    rw [entriesFrom, List.zip_nil_left] at h
    exact absurd h.symm (by simp)
  | cons r rs ih =>
    intro p policies acc before after x hle h
    cases policies with
    | nil =>
      rw [List.zip_nil_right] at h
      exact absurd h.symm (by simp)
    | cons policy policies =>
      rw [entriesFrom, List.zip_cons_cons] at h
      cases before with
      | nil =>
        rw [List.nil_append, List.cons.injEq] at h
        rw [← h.1]
        exact hle
      | cons y before =>
        rw [List.cons_append, List.cons.injEq] at h
        have hstep := length_out_collect cd acc p r policy
        rw [List.foldl_cons, ← h.1]
        exact ih (p + r.length) policies _ before after x (by omega) h.2

theorem length_out_take (cd : Bytes) {rs : List Bytes} {ps : List EntryPolicy} {i : Nat}
    {x : CdEntry × EntryPolicy} (h : ((entriesFrom 0 rs).zip ps)[i]? = some x) :
    ((((entriesFrom 0 rs).zip ps).take i).foldl (collect cd) ⟨[], [], []⟩).out.length
      ≤ x.1.record.start := by
  obtain ⟨hi, rfl⟩ := List.getElem?_eq_some_iff.mp h
  have hsplit := List.take_append_drop i ((entriesFrom 0 rs).zip ps)
  rw [List.drop_eq_getElem_cons hi] at hsplit
  exact length_out_le cd rs 0 ps ⟨[], [], []⟩ _ _ _ (Nat.le_refl 0) hsplit.symm

/-- **`filter_cd` filters the list of records.**  It fails exactly when the directory does not
parse; the kept entries are those of the filtered directory, which filtering leaves alone. -/
theorem filterCd_exact (cd : Bytes) :
    (∀ err, filterCd cd = .error err ↔ parseCdEntries cd = .error err) ∧
    ∀ f, filterCd cd = .ok f → ∃ es, parseCdEntries cd = .ok es ∧ Tiles 0 es cd.length ∧
      f.bytes.deref cd = (es.filter fun e => entryPolicy (e.nameIn cd) == .output).flatMap
        (fun e => slice cd e.record.start e.record.stop) ∧
      parseCdEntries (f.bytes.deref cd) = .ok f.kept ∧
      f.removed = (es.filter fun e => entryPolicy (e.nameIn cd) != .output).map
        (fun e => fromUtf8Lossy (e.nameIn cd)) ∧
      (∀ i e, es[i]? = some e → ∀ acc,
        acc = ((es.map fun e => entryPolicy (e.nameIn cd)).zipIdx.take i).foldl (filterStep cd)
          ⟨[], es, 0, []⟩ →
        acc.kept[i]? = some e ∧ acc.n ≤ i ∧ acc.out.length ≤ e.record.start) ∧
      ∃ g, filterCd (f.bytes.deref cd) = .ok g ∧
        g.bytes.deref (f.bytes.deref cd) = f.bytes.deref cd ∧ g.kept = f.kept ∧ g.removed = [] := by
  refine ⟨filterCd_eq_error_iff cd, ?_⟩
  intro f hf
  have hparse : ∃ es, parseCdEntries cd = .ok es := by
    cases hp : parseCdEntries cd with
    | ok es => exact ⟨es, rfl⟩
    | error e =>
      rw [(filterCd_eq_error_iff cd e).mpr hp] at hf
      cases hf
  obtain ⟨es, hes⟩ := hparse
  obtain ⟨rs, hwf, rfl, rfl⟩ := parseCdEntries_eq_ok_iff.mp hes
  obtain ⟨f', hf', hbytes, hkept, hremoved⟩ := filterCd_flatten hwf
  rw [hf, Except.ok.injEq] at hf'
  subst hf'
  have hwf' : ∀ r ∈ rs.filter isOutput, WfRecord r := fun r hr => hwf r (List.mem_of_mem_filter hr)
  have htiles := tiles_entriesFrom rs 0
  rw [Nat.zero_add] at htiles
  refine ⟨_, hes, htiles, ?_, ?_, ?_, ?_, ?_⟩
  · have h := congrArg (List.map Prod.fst)
      (filter_entriesFrom hwf fun name => entryPolicy name == .output)
    rw [List.map_map, List.map_map] at h
    rw [hbytes, List.flatMap_def]
    refine congrArg List.flatten ((List.map_id _).symm.trans ?_)
    exact h.symm
  · rw [hbytes, hkept]
    exact parseCdEntries_eq_ok_iff.mpr ⟨_, hwf', rfl, rfl⟩
  · have h := congrArg (List.map (fromUtf8Lossy ∘ Prod.snd))
      (filter_entriesFrom hwf fun name => entryPolicy name != .output)
    rw [List.map_map, List.map_map] at h
    rw [hremoved]
    exact h.symm
  · rintro i e he _ rfl
    have hlt := (List.getElem?_eq_some_iff.mp he).1
    obtain ⟨hrest, hcoll⟩ := foldl_filterStep rs.flatten
      (List.length_map fun e => entryPolicy (e.nameIn rs.flatten)) i (Nat.le_of_lt hlt)
    refine ⟨hrest.getElem?.trans he, hrest.n_le, ?_⟩
    have hout := congrArg Collected.out hcoll
    simp only [FilterAcc.collected] at hout
    rw [hout]
    have hx : ((entriesFrom 0 rs).zip ((entriesFrom 0 rs).map fun e => entryPolicy (e.nameIn rs.flatten)))[i]?
        = some (e, entryPolicy (e.nameIn rs.flatten)) :=
      List.getElem?_zip_eq_some.mpr ⟨he, by rw [List.getElem?_map, he]; rfl⟩
    exact length_out_take rs.flatten hx
  · obtain ⟨g, hg, hgbytes, hgkept, hgremoved⟩ := filterCd_flatten hwf'
    have hidem : (rs.filter isOutput).filter isOutput = rs.filter isOutput := by
      rw [List.filter_filter]
      simp only [Bool.and_self]
    have hnone : (rs.filter isOutput).filter (fun r => !isOutput r) = [] := by
      rw [List.filter_eq_nil_iff]
      intro r hr
      simp [List.of_mem_filter hr]
    rw [hidem] at hgbytes hgkept
    rw [hnone] at hgremoved
    rw [hbytes]
    exact ⟨g, hg, hgbytes, hgkept.trans hkept.symm, hgremoved⟩

/-- The record of a stored entry `a`, and the one of a directory `b/`. -/
def smallRecords : List Bytes :=
  [cdEntrySig ++ List.replicate 24 0 ++ [1, 0] ++ List.replicate 16 0 ++ ascii "a",
    cdEntrySig ++ List.replicate 24 0 ++ [2, 0] ++ List.replicate 16 0 ++ ascii "b/"]

theorem filterCd_smallRecords : ∃ f, filterCd smallRecords.flatten = .ok f ∧
    f.bytes.deref smallRecords.flatten = smallRecords.flatten.take 47 ∧
    parseCdEntries (f.bytes.deref smallRecords.flatten) = .ok f.kept ∧ f.kept.length = 1 := by
  have hwf : ∀ r ∈ smallRecords, WfRecord r := by
    intro r hr
    simp only [smallRecords, List.mem_cons, List.not_mem_nil, or_false] at hr
    rcases hr with rfl | rfl
    · exact ⟨by decide, by decide⟩
    · exact ⟨by decide, by decide⟩
  obtain ⟨f, hf, hbytes, hkept, -⟩ := filterCd_flatten hwf
  obtain ⟨es, -, -, -, hparse, -⟩ := (filterCd_exact smallRecords.flatten).2 f hf
  refine ⟨f, hf, ?_, hparse, ?_⟩
  · rw [hbytes]
    decide
  · rw [hkept]
    decide

/-! ### Moving a record's local header -/

/-- The record with its local header offset replaced. -/
def setLfhOff (r : Bytes) (off : Nat) : Bytes := patch r 42 (leBytes 4 off)

@[simp] theorem length_setLfhOff {r : Bytes} (hr : WfRecord r) (off : Nat) :
    (setLfhOff r off).length = r.length :=
  length_patch (by rw [length_leBytes]; have := hr.le; omega)

theorem slice_setLfhOff {r : Bytes} (hr : WfRecord r) (off : Nat) {a b : Nat}
    (h : b ≤ 42 ∨ 46 ≤ a) : slice (setLfhOff r off) a b = slice r a b := by
  have hle := hr.le
  exact slice_patch_of_disjoint (by rw [length_leBytes]; omega) (by rw [length_leBytes]; omega)

theorem u16le_setLfhOff {r : Bytes} (hr : WfRecord r) (off : Nat) {i : Nat} (h : i + 2 ≤ 42) :
    u16le (setLfhOff r off) i = u16le r i := by
  rw [u16le, slice_setLfhOff hr off (Or.inl h), u16le]

theorem wfRecord_setLfhOff {r : Bytes} (hr : WfRecord r) (off : Nat) :
    WfRecord (setLfhOff r off) := by
  refine ⟨?_, ?_⟩
  · rw [slice_setLfhOff hr off (by omega), hr.sig]
  · rw [length_setLfhOff hr, recordLen, u16le_setLfhOff hr off (by omega),
      u16le_setLfhOff hr off (by omega), u16le_setLfhOff hr off (by omega), hr.len, recordLen]

theorem recordName_setLfhOff {r : Bytes} (hr : WfRecord r) (off : Nat) :
    recordName (setLfhOff r off) = recordName r := by
  rw [recordName, recordName, u16le_setLfhOff hr off (by omega),
    slice_setLfhOff hr off (Or.inr (Nat.le_refl _))]

theorem u32le_setLfhOff {r : Bytes} (hr : WfRecord r) {off : Nat} (h : off < 2 ^ 32) :
    u32le (setLfhOff r off) 42 = off := by
  have hle := hr.le
  have hs := slice_patch_self (l := r) (v := leBytes 4 off) (i := 42)
    (by rw [length_leBytes]; omega)
  rw [length_leBytes] at hs
  rw [u32le, setLfhOff, hs, leNat_leBytes_of_lt (by simpa using h)]

/-- **The entry of a moved record differs in its header offset only.** -/
theorem entryOf_setLfhOff {r : Bytes} (hr : WfRecord r) {off : Nat} (h : off < 2 ^ 32) (p : Nat) :
    entryOf p (setLfhOff r off) = { entryOf p r with lfhOff := off } := by
  simp only [entryOf, length_setLfhOff hr, u16le_setLfhOff hr off (show 28 + 2 ≤ 42 by omega),
    u32le_setLfhOff hr h, u16le_setLfhOff hr off (show 10 + 2 ≤ 42 by omega),
    u16le_setLfhOff hr off (show 8 + 2 ≤ 42 by omega)]
  rw [u32le, slice_setLfhOff hr off (by omega), u32le]

/-! ### An archive with something of everything -/

/-- A local header for `size` bytes of data. -/
def exampleHeader (flags method size : UInt8) (name extra : Bytes) : Bytes :=
  lfhSig ++ [20, 0, flags, 0, method, 0, 0, 0, 0, 0, 0, 0, 0, 0, size, 0, 0, 0, size, 0, 0, 0]
    ++ leBytes 2 name.length ++ leBytes 2 extra.length ++ name ++ extra

def exampleRecord (flags method size : UInt8) (off : Nat) (name : Bytes) : Bytes :=
  cdEntrySig
    ++ [20, 0, 20, 0, flags, 0, method, 0, 0, 0, 0, 0, 0, 0, 0, 0, size, 0, 0, 0, size, 0, 0, 0]
    ++ leBytes 2 name.length ++ List.replicate 12 0 ++ leBytes 4 off ++ name

/-- Three bytes of nothing; `b`, deflated, with a data descriptor; the directory `d/`, which is
skipped; two more bytes of nothing; `a`, stored; and a record that is left in its gap. -/
def mixedFile : Bytes :=
  [1, 2, 3] ++ exampleHeader 8 8 2 (ascii "b") [] ++ [0x68, 0x69] ++ leBytes 4 dataDescriptorSig
    ++ List.replicate 12 0 ++ exampleHeader 0 0 0 (ascii "d/") [] ++ [7, 7]
    ++ exampleHeader 0 0 1 (ascii "a") [] ++ [0x61] ++ exampleHeader 0 0 0 (ascii "pinlist.meta") []

/-- The directory has them in another order. -/
def mixedRecords : List Bytes :=
  [exampleRecord 0 0 1 86 (ascii "a"), exampleRecord 0 0 0 52 (ascii "d/"),
    exampleRecord 8 8 2 3 (ascii "b"), exampleRecord 0 0 0 118 (ascii "pinlist.meta")]

end FastSigner.Zip

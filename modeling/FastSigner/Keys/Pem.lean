import FastSigner.Keys.Base64
import Mathlib.Data.List.DropRight

/-!
# PEM blocks

`pem_blocks` reads a text line by line: a BEGIN line opens a block, an END line
closes it, lines with a colon are headers, and whatever else stands inside a block
is base64.  Every line is looked at without the white space around it.

`PemText` is a text as an encoder writes it, with headers inside the blocks and
other lines between them; `pemBlocks_eq` says that its blocks are read back.
Since lines are trimmed first, an END line counts also when it is indented:
`not_pemBlocks_of_unindented`.
-/

namespace FastSigner.Keys

open Lib

/-! ### Text -/

/-- The Unicode property White_Space. -/
def isWhitespace (c : Char) : Bool :=
  let v := c.toNat
  (0x09 ≤ v && v ≤ 0x0d) || v == 0x20 || v == 0x85 || v == 0xa0 || v == 0x1680
    || (0x2000 ≤ v && v ≤ 0x200a) || v == 0x2028 || v == 0x2029 || v == 0x202f || v == 0x205f
    || v == 0x3000

def trim (l : List Char) : List Char := (l.rdropWhile isWhitespace).dropWhile isWhitespace

def stripCr (l : List Char) : List Char := if l.getLast? = some '\r' then l.dropLast else l

/-- `str::lines` of a text whose first line has begun with `cur`. -/
def linesFrom : (text cur : List Char) → List (List Char)
  | [], cur => if cur = [] then [] else [cur]
  | c :: text, cur =>
    if c = '\n' then stripCr cur :: linesFrom text [] else linesFrom text (cur ++ [c])

def lines (text : List Char) : List (List Char) := linesFrom text []

def stripPrefix (pre l : List Char) : Option (List Char) :=
  if pre <+: l then some (l.drop pre.length) else none

/-! ### The blocks -/

def beginMark : List Char := "-----BEGIN ".toList
def endMark : List Char := "-----END ".toList
def dashes : List Char := "-----".toList

/-- The blocks so far, the label of the open block, and its base64 so far. -/
structure PemState where
  out : List (String × Bytes)
  label : Option String
  b64 : List Char

def trimmedLine (s : PemState) (line : List Char) : Except PemError PemState :=
  match stripPrefix beginMark line with
  | some rest => .ok { s with
      label := some (String.ofList (trim (rest.rdropWhile (· == '-')))), b64 := [] }
  | none =>
    if endMark <+: line then
      match s.label with
      | none => .error .endWithoutBegin
      | some l => do
        let data ← base64Decode (s.b64.flatMap String.utf8EncodeChar)
        .ok { s with out := s.out ++ [(l, data)], label := none }
    else if s.label.isSome ∧ line ≠ [] ∧ ':' ∉ line then .ok { s with b64 := s.b64 ++ line }
    else .ok s

def pemLine (s : PemState) (line : List Char) : Except PemError PemState := trimmedLine s (trim line)

/-- All `-----BEGIN label-----` blocks in a PEM file. -/
def pemBlocks (text : Bytes) : Except PemError (List (String × Bytes)) :=
  match fromUtf8 text with
  | none => .error .notUtf8
  | some text => ((lines text.toList).foldlM pemLine ⟨[], none, []⟩).map PemState.out

/-! ### Lines -/

/-- The text consists of these lines, each ended by LF or by CRLF, the last one possibly not
ended. -/
inductive HasLines : (text : List Char) → (ls : List (List Char)) → Prop
  | nil : HasLines [] []
  | last {l : List Char} (hne : l ≠ []) (hl : '\n' ∉ l) : HasLines l [l]
  | lf {l text : List Char} {ls : List (List Char)} (hl : '\n' ∉ l) (h : HasLines text ls) :
    HasLines (l ++ '\n' :: text) (l :: ls)
  | crlf {l text : List Char} {ls : List (List Char)} (hl : '\n' ∉ l) (h : HasLines text ls) :
    HasLines (l ++ '\r' :: '\n' :: text) (l :: ls)

theorem linesFrom_append {l : List Char} (hl : '\n' ∉ l) (text : List Char) :
    ∀ cur, linesFrom (l ++ '\n' :: text) cur = stripCr (cur ++ l) :: linesFrom text [] := by
  induction l with
  | nil =>
    intro cur
    rw [List.nil_append, linesFrom, if_pos rfl, List.append_nil]
  | cons c l ih =>
    intro cur
    rw [List.mem_cons, not_or] at hl
    rw [List.cons_append, linesFrom, if_neg (fun h => hl.1 h.symm), ih hl.2, List.append_assoc]
    rfl

theorem linesFrom_of_notMem {l : List Char} (hl : '\n' ∉ l) :
    ∀ cur, linesFrom l cur = if cur ++ l = [] then [] else [cur ++ l] := by
  induction l with
  | nil =>
    intro cur
    rw [linesFrom, List.append_nil]
  | cons c l ih =>
    intro cur
    rw [List.mem_cons, not_or] at hl
    rw [linesFrom, if_neg (fun h => hl.1 h.symm), ih hl.2, List.append_assoc]
    rfl

theorem trim_concat_cr (l : List Char) : trim (l ++ ['\r']) = trim l := by
  rw [trim, List.rdropWhile_concat_pos _ _ _ (by decide)]
  rfl

theorem trim_stripCr (l : List Char) : trim (stripCr l) = trim l := by
  rw [stripCr]
  by_cases h : l.getLast? = some '\r'
  · rw [if_pos h]
    obtain ⟨l', rfl⟩ := List.getLast?_eq_some_iff.mp h
    rw [List.dropLast_concat, trim_concat_cr]
  · rw [if_neg h]

/-- **The lines come out, up to white space.** -/
theorem HasLines.map_trim {text : List Char} {ls : List (List Char)} (h : HasLines text ls) :
    (lines text).map trim = ls.map trim := by
  induction h with
  | nil => rfl
  | @last l hne hl =>
    rw [lines, linesFrom_of_notMem hl, List.nil_append, if_neg hne]
  | @lf l text ls hl h ih =>
    rw [lines, linesFrom_append hl, List.nil_append, List.map_cons, trim_stripCr, List.map_cons, ← ih]
    rfl
  | @crlf l text ls hl h ih =>
    have hcr : '\n' ∉ l ++ ['\r'] := by
      rw [List.mem_append, not_or]
      exact ⟨hl, by decide⟩
    rw [lines, show l ++ '\r' :: '\n' :: text = (l ++ ['\r']) ++ '\n' :: text by simp,
      linesFrom_append hcr, List.nil_append, List.map_cons, trim_stripCr, trim_concat_cr,
      List.map_cons, ← ih]
    rfl

/-! ### Trimming -/

theorem trim_eq_self {l : List Char} (hhead : ∀ c ∈ l.head?, isWhitespace c = false)
    (hlast : ∀ c ∈ l.getLast?, isWhitespace c = false) : trim l = l := by
  have hr : l.rdropWhile isWhitespace = l := by
    rw [List.rdropWhile_eq_self_iff]
    intro hne
    rw [hlast _ (List.getLast?_eq_getLast_of_ne_nil hne)]
    decide
  rw [trim, hr]
  cases l with
  | nil => rfl
  | cons c l =>
    rw [List.dropWhile_cons_of_neg]
    rw [hhead c rfl]
    decide

theorem trim_of_forall {l : List Char} (h : ∀ c ∈ l, isWhitespace c = false) : trim l = l :=
  trim_eq_self (fun c hc => h c (List.mem_of_head? hc)) (fun c hc => h c (List.mem_of_getLast? hc))

theorem mem_trim {c : Char} {l : List Char} (hc : isWhitespace c = false) (h : c ∈ l) :
    c ∈ trim l := by
  have hdrop : ∀ {m : List Char}, c ∈ m → c ∈ m.dropWhile isWhitespace := by
    intro m hm
    rw [← List.takeWhile_append_dropWhile (p := isWhitespace) (l := m), List.mem_append] at hm
    rcases hm with hm | hm
    · have := List.mem_takeWhile_imp hm
      rw [hc] at this
      cases this
    · exact hm
  apply hdrop
  rw [List.rdropWhile, List.mem_reverse]
  exact hdrop (List.mem_reverse.mpr h)

theorem stripPrefix_append (pre l : List Char) : stripPrefix pre (pre ++ l) = some l := by
  rw [stripPrefix, if_pos (List.prefix_append pre l), List.drop_left]

theorem stripPrefix_eq_none {pre l : List Char} (h : ¬ pre <+: l) : stripPrefix pre l = none :=
  if_neg h

/-! ### Texts -/

/-- What stands between a BEGIN and an END line: the lines, and the base64 text they hold.
`Header` says which lines may be headers. -/
inductive Body (Header : List Char → Prop) : (ls : List (List Char)) → (text : List Char) → Prop
  | nil : Body Header [] []
  | data (piece : List Char) {ls : List (List Char)} {text : List Char} (h : Body Header ls text) :
    Body Header (piece :: ls) (piece ++ text)
  | header {l : List Char} {ls : List (List Char)} {text : List Char} (hcolon : ':' ∈ l)
    (hl : Header l) (h : Body Header ls text) : Body Header (l :: ls) text

theorem body_pieces (Header : List Char → Prop) (pieces : List (List Char)) :
    Body Header pieces pieces.flatten := by
  induction pieces with
  | nil => exact .nil
  | cons piece pieces ih => exact .data piece ih

structure PemBlock (Header : List Char → Prop) where
  label : String
  data : Bytes
  url : Bool
  pad : Bool
  body : List (List Char)
  label_head : ∀ c ∈ label.toList.head?, isWhitespace c = false
  label_last : ∀ c ∈ label.toList.getLast?, isWhitespace c = false ∧ c ≠ '-'
  body_holds : Body Header body (base64 url pad data)

/-- A line with a colon that is passed over inside a block. -/
def IsHeader (l : List Char) : Prop := ¬ beginMark <+: trim l ∧ ¬ endMark <+: trim l

/-- A line that adds no block outside of one. -/
def IsOutside (l : List Char) : Prop := ¬ endMark <+: trim l

instance (l : List Char) : Decidable (IsOutside l) := inferInstanceAs (Decidable (¬ endMark <+: trim l))

variable {Header Outside : List Char → Prop}

def PemBlock.lines (b : PemBlock Header) : List (List Char) :=
  (beginMark ++ (b.label.toList ++ dashes)) :: b.body ++ [endMark ++ (b.label.toList ++ dashes)]

/-- A text with blocks, each after some lines that do not belong to it, and more such lines at the
end.  `Outside` says which lines these may be. -/
structure PemText (Header Outside : List Char → Prop) where
  blocks : List (List (List Char) × PemBlock Header)
  after : List (List Char)
  text : List Char
  before_ok : ∀ x ∈ blocks, ∀ l ∈ x.1, Outside l
  after_ok : ∀ l ∈ after, Outside l
  lines_ok : HasLines text (blocks.flatMap (fun x => x.1 ++ x.2.lines) ++ after)

/-- The blocks that the text holds. -/
def PemText.list (t : PemText Header Outside) : List (String × Bytes) :=
  t.blocks.map fun x => (x.2.label, x.2.data)

/-! ### Reading back -/

theorem base64Char_plain {v : Nat} (hv : v < 64) (url : Bool) :
    isWhitespace (base64Char url v) = false ∧ base64Char url v ≠ ':' := by
  have hall : ∀ url : Bool, ∀ v : Fin 64,
      isWhitespace (base64Char url v) = false ∧ base64Char url v ≠ ':' := by decide
  exact hall url ⟨v, hv⟩

theorem base64_plain (url pad : Bool) (b : Bytes) :
    ∀ c ∈ base64 url pad b, isWhitespace c = false ∧ c ≠ ':' := by
  intro c hc
  rcases List.mem_append.mp hc with hc | hc
  · obtain ⟨v, hv, rfl⟩ := List.mem_map.mp hc
    exact base64Char_plain (sextets_lt b v hv) url
  · cases pad with
    | false => cases hc
    | true =>
      rw [List.eq_of_mem_replicate hc]
      decide

theorem not_prefix_of_plain {mark l : List Char} (hmark : ' ' ∈ mark)
    (hl : ∀ c ∈ l, isWhitespace c = false) : ¬ mark <+: l := by
  intro h
  have := hl ' ' (h.subset hmark)
  revert this
  decide

/-- **A line of data is appended.** -/
theorem pemLine_data {l : List Char} (hl : ∀ c ∈ l, isWhitespace c = false ∧ c ≠ ':')
    (out : List (String × Bytes)) (label : String) (b64 : List Char) :
    pemLine ⟨out, some label, b64⟩ l = .ok ⟨out, some label, b64 ++ l⟩ := by
  have hws := fun c hc => (hl c hc).1
  rw [pemLine, trim_of_forall hws, trimmedLine,
    stripPrefix_eq_none (not_prefix_of_plain (by decide) hws)]
  simp only
  rw [if_neg (not_prefix_of_plain (by decide) hws)]
  by_cases hnil : l = []
  · rw [if_neg (fun h => h.2.1 hnil), hnil, List.append_nil]
  · rw [if_pos ⟨rfl, hnil, fun hc => (hl ':' hc).2 rfl⟩]

/-- **A header line is passed over.** -/
theorem pemLine_header {l : List Char} (hcolon : ':' ∈ l) (hb : ¬ beginMark <+: trim l)
    (he : ¬ endMark <+: trim l) (s : PemState) : pemLine s l = .ok s := by
  rw [pemLine, trimmedLine, stripPrefix_eq_none hb]
  simp only
  rw [if_neg he, if_neg (fun h => h.2.2 (mem_trim (by decide) hcolon))]

theorem foldlM_body {ls : List (List Char)} {text : List Char}
    (h : Body IsHeader ls text)
    (hplain : ∀ c ∈ text, isWhitespace c = false ∧ c ≠ ':') (out : List (String × Bytes))
    (label : String) :
    ∀ b64, ls.foldlM pemLine ⟨out, some label, b64⟩ = .ok ⟨out, some label, b64 ++ text⟩ := by
  induction h with
  | nil =>
    intro b64
    rw [List.append_nil]
    rfl
  | @data piece ls text _ ih =>
    intro b64
    rw [List.foldlM_cons, pemLine_data (fun c hc => hplain c (List.mem_append_left _ hc)), ok_bind,
      ih (fun c hc => hplain c (List.mem_append_right _ hc)), List.append_assoc]
  | @header l ls text hcolon hl _ ih =>
    intro b64
    rw [List.foldlM_cons, pemLine_header hcolon hl.1 hl.2, ok_bind, ih hplain]

theorem trim_mark {mark : List Char} (hmark : mark.head? = some '-') (label : List Char) :
    trim (mark ++ (label ++ dashes)) = mark ++ (label ++ dashes) := by
  apply trim_eq_self
  · rw [List.head?_append, hmark]
    rintro c ⟨⟩
    decide
  · rw [List.getLast?_append, List.getLast?_append, show dashes.getLast? = some '-' by decide]
    rintro c ⟨⟩
    decide

theorem trim_label {label : List Char} (hhead : ∀ c ∈ label.head?, isWhitespace c = false)
    (hlast : ∀ c ∈ label.getLast?, isWhitespace c = false ∧ c ≠ '-') :
    trim ((label ++ dashes).rdropWhile (· == '-')) = label := by
  have hdashes : ∀ n, (label ++ List.replicate n '-').rdropWhile (· == '-') = label := by
    intro n
    induction n with
    | zero =>
      rw [List.replicate_zero, List.append_nil, List.rdropWhile_eq_self_iff]
      intro hne hc
      exact (hlast _ (List.getLast?_eq_getLast_of_ne_nil hne)).2 (beq_iff_eq.mp hc)
    | succ n ih =>
      rw [List.replicate_succ', ← List.append_assoc, List.rdropWhile_concat_pos _ _ _ (by decide), ih]
  rw [show dashes = List.replicate 5 '-' from rfl, hdashes,
    trim_eq_self hhead (fun c hc => (hlast c hc).1)]

/-- **A block is read from any state.** -/
theorem foldlM_block (b : PemBlock IsHeader) (s : PemState) :
    ∃ b64, b.lines.foldlM pemLine s = .ok ⟨s.out ++ [(b.label, b.data)], none, b64⟩ := by
  have hbegin : pemLine s (beginMark ++ (b.label.toList ++ dashes))
      = .ok ⟨s.out, some b.label, []⟩ := by
    rw [pemLine, trim_mark rfl, trimmedLine, stripPrefix_append]
    simp only
    rw [trim_label b.label_head b.label_last, String.ofList_toList]
  have hend : ∀ b64, b64 = base64 b.url b.pad b.data →
      pemLine ⟨s.out, some b.label, b64⟩ (endMark ++ (b.label.toList ++ dashes))
        = .ok ⟨s.out ++ [(b.label, b.data)], none, b64⟩ := by
    rintro b64 rfl
    have hnot : ¬ beginMark <+: endMark ++ (b.label.toList ++ dashes) := by
      rintro ⟨r, hr⟩
      -- the sixth characters differ
      have htake := congrArg (List.take 6) hr
      rw [List.take_append_of_le_length (by decide), List.take_append_of_le_length (by decide)]
        at htake
      exact absurd htake (by decide)
    rw [pemLine, trim_mark rfl, trimmedLine, stripPrefix_eq_none hnot]
    simp only
    rw [if_pos (List.prefix_append _ _), base64Decode_base64, ok_bind]
  refine ⟨base64 b.url b.pad b.data, ?_⟩
  rw [PemBlock.lines, List.cons_append, List.foldlM_cons, hbegin, ok_bind, List.foldlM_append,
    foldlM_body b.body_holds (base64_plain _ _ _), ok_bind, List.nil_append, List.foldlM_cons,
    hend _ rfl]
  rfl

theorem foldlM_outside {ls : List (List Char)} (h : ∀ l ∈ ls, IsOutside l) :
    ∀ s, ∃ s', ls.foldlM pemLine s = .ok s' ∧ s'.out = s.out := by
  induction ls with
  | nil => intro s; exact ⟨s, rfl, rfl⟩
  | cons l ls ih =>
    intro s
    have hline : ∃ s', pemLine s l = .ok s' ∧ s'.out = s.out := by
      rw [pemLine, trimmedLine]
      cases stripPrefix beginMark (trim l) with
      | some rest => exact ⟨_, rfl, rfl⟩
      | none =>
        simp only
        rw [if_neg (h l List.mem_cons_self)]
        by_cases hdata : s.label.isSome ∧ trim l ≠ [] ∧ ':' ∉ trim l
        · rw [if_pos hdata]
          exact ⟨_, rfl, rfl⟩
        · rw [if_neg hdata]
          exact ⟨s, rfl, rfl⟩
    obtain ⟨s1, h1, hout1⟩ := hline
    obtain ⟨s2, h2, hout2⟩ := ih (fun x hx => h x (List.mem_cons_of_mem _ hx)) s1
    refine ⟨s2, ?_, hout2.trans hout1⟩
    rw [List.foldlM_cons, h1, ok_bind, h2]

theorem foldlM_blocks {xs : List (List (List Char) × PemBlock IsHeader)}
    (h : ∀ x ∈ xs, ∀ l ∈ x.1, IsOutside l) :
    ∀ s, ∃ s', (xs.flatMap fun x => x.1 ++ x.2.lines).foldlM pemLine s = .ok s' ∧
      s'.out = s.out ++ xs.map fun x => (x.2.label, x.2.data) := by
  induction xs with
  | nil =>
    intro s
    exact ⟨s, rfl, (List.append_nil _).symm⟩
  | cons x xs ih =>
    intro s
    obtain ⟨s1, h1, hout1⟩ := foldlM_outside (h x List.mem_cons_self) s
    obtain ⟨b64, h2⟩ := foldlM_block x.2 s1
    obtain ⟨s3, h3, hout3⟩ := ih (fun y hy => h y (List.mem_cons_of_mem _ hy))
      ⟨s1.out ++ [(x.2.label, x.2.data)], none, b64⟩
    refine ⟨s3, ?_, ?_⟩
    · rw [List.flatMap_cons, List.foldlM_append, List.foldlM_append, h1, ok_bind, h2, ok_bind, h3]
    · rw [hout3, hout1, List.append_assoc]
      rfl

theorem foldlM_pemLine_eq (ls : List (List Char)) (s : PemState) :
    ls.foldlM pemLine s = (ls.map trim).foldlM trimmedLine s := by
  rw [List.foldlM_map]
  rfl

/-- **The blocks of a text are read back**, whatever the width of the lines, their ends, the
alphabet, the padding, the headers and the lines around the blocks. -/
theorem pemBlocks_eq (t : PemText IsHeader IsOutside) :
    pemBlocks (utf8 (String.ofList t.text)) = .ok t.list := by
  obtain ⟨s1, h1, hout1⟩ := foldlM_blocks t.before_ok ⟨[], none, []⟩
  obtain ⟨s2, h2, hout2⟩ := foldlM_outside t.after_ok s1
  rw [pemBlocks, fromUtf8_utf8]
  simp only
  rw [String.toList_ofList, foldlM_pemLine_eq, t.lines_ok.map_trim, ← foldlM_pemLine_eq,
    List.foldlM_append, h1, ok_bind, h2]
  show Except.ok s2.out = _
  rw [hout2, hout1]
  rfl

def exampleBlock : PemBlock IsHeader where
  label := "X Y"
  data := [0xfb, 0xff]
  url := true
  pad := false
  body := ["a: b".toList, "-_".toList, "8".toList]
  label_head := fun c hc => by
    obtain rfl : 'X' = c := Option.some.inj hc
    decide
  label_last := fun c hc => by
    obtain rfl : 'Y' = c := Option.some.inj hc
    decide
  body_holds := .header (by decide) ⟨by decide, by decide⟩ (body_pieces _ ["-_".toList, "8".toList])

/-- The block between two other lines, with both ends of a line. -/
def exampleText : PemText IsHeader IsOutside where
  blocks := [(["x".toList], exampleBlock)]
  after := [" y ".toList]
  text := "x\r\n-----BEGIN X Y-----\na: b\r\n-_\n8\n-----END X Y-----\n y ".toList
  before_ok := by decide
  after_ok := by decide
  lines_ok :=
    @HasLines.crlf "x".toList _ _ (by decide) <|
    @HasLines.lf "-----BEGIN X Y-----".toList _ _ (by decide) <|
    @HasLines.crlf "a: b".toList _ _ (by decide) <|
    @HasLines.lf "-_".toList _ _ (by decide) <|
    @HasLines.lf "8".toList _ _ (by decide) <|
    @HasLines.lf "-----END X Y-----".toList _ _ (by decide) <|
    @HasLines.last " y ".toList (by decide) (by decide)

theorem pemBlocks_exampleText : pemBlocks (utf8 (String.ofList exampleText.text))
    = .ok [("X Y", [0xfb, 0xff])] := pemBlocks_eq exampleText

/-- One line, " -----END X". -/
def indentedEnd :
    PemText (fun l => l.head? ≠ some '-') (fun l => ¬ beginMark <+: l ∧ ¬ endMark <+: l) where
  blocks := []
  after := [' ' :: endMark ++ ['X']]
  text := ' ' :: endMark ++ ['X'] ++ ['\n']
  before_ok := by simp
  after_ok := by decide
  lines_ok := @HasLines.lf (' ' :: endMark ++ ['X']) [] [] (by decide) .nil

/-- An END line counts even when it is indented. -/
theorem not_pemBlocks_of_unindented :
    ¬ ∀ t : PemText (fun l => l.head? ≠ some '-') (fun l => ¬ beginMark <+: l ∧ ¬ endMark <+: l),
      pemBlocks (utf8 (String.ofList t.text)) = .ok t.list := by
  intro h
  have herr : pemBlocks (utf8 (String.ofList indentedEnd.text)) = .error .endWithoutBegin := by
    rw [pemBlocks, fromUtf8_utf8]
    simp only
    rw [String.toList_ofList]
    rfl
  rw [h indentedEnd] at herr
  cases herr

end FastSigner.Keys

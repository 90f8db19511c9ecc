import FastSigner.Sign.Files

/-!
# The command line

`parseArgs` follows `parse_args`: a pass over the arguments that collects a `Draft`,
later options replacing earlier ones, and checks on the whole of it.  An `Args` has
passed them; its fields say so.

`Args.render` writes a command line.  By `parseArgs_render_iff` it is read back as it
was exactly when some command line says the same, and that is when the numbers are in
their bounds and no input begins with a dash.
-/

namespace FastSigner.Sign

open Lib

inductive KeySource
  | files (key cert : String)
  | keystore (ks : String) (ksPass alias_ keyPass : Option String)
  deriving DecidableEq

/-- Why the command line was not understood. -/
inductive ArgsError
  | help -- no error: the usage text is printed and the program ends with success
  | requiresValue (name : String) -- "{name} requires a value"
  | notPositive (name : String) -- "{name} must be a positive number"
  | ksType (t : String) -- "--ks-type {t}: only JKS and PKCS12 keystores are supported"
  | minSdk -- "--min-sdk-version must be a number"
  | pageNumber -- "--lib-page-size must be a number of KiB (0, 4, 16, 64)"
  | pageSize -- "--lib-page-size must be 0 or a power of two up to 64 (KiB)"
  | unknownOption (a : String) -- "unknown option {a}", and the usage text
  | missingInput -- "missing input APK", and the usage text
  | keyRequired -- "key material required: --key <file> --cert <file>, or --ks <keystore>"
  | keyAndCert -- "--key and --cert must be given together"
  | keyOrKeystore -- "use either --key/--cert or --ks, not both"
  | outSingle -- "--out works with a single input; use --out-dir for several APKs"
  | outExclusive -- "--out and --out-dir are mutually exclusive"
  deriving DecidableEq

/-- `s.parse::<u32>()` and the like, below `bound`: digits, perhaps after a plus sign. -/
def parseUnsigned (bound : Nat) (s : String) : Option Nat :=
  let digits := match s.toList with
    | '+' :: rest => rest
    | l => l
  if digits = [] ∨ digits.any (fun c => !c.isDigit) then none
  else
    let n := digits.foldl (fun n c => 10 * n + (c.toNat - '0'.toNat)) 0
    if n < bound then some n else none

/-- `is_power_of_two`. -/
def isPowerOfTwo (n : Nat) : Bool := decide (n = 2 ^ n.log2)

/-- What the pass over the arguments has collected. -/
structure Draft where
  inputs : List String
  out : Option String
  outDir : Option String
  key : Option String
  cert : Option String
  ks : Option String
  ksPass : Option String
  alias_ : Option String
  keyPass : Option String
  v1 : Bool
  v2 : Bool
  v3 : Bool
  jobs : Option Nat
  threads : Option Nat
  timing : Bool
  zipalign : ZipAlign
  libPageSize : Nat
  deriving DecidableEq

def Draft.empty : Draft :=
  ⟨[], none, none, none, none, none, none, none, none, false, true, true, none, none, false, .check,
    16 * 1024⟩

structure Args where
  inputs : List String
  out : Option String
  outDir : Option String
  keysrc : KeySource
  v1 : Bool
  jobs : Option Nat
  threads : Option Nat
  timing : Bool
  opts : Opts
  inputs_ne : inputs ≠ []
  out_single : out ≠ none → inputs.length ≤ 1
  out_exclusive : out = none ∨ outDir = none

/-! ### The pass -/

/-- `num`: a positive number. -/
def positive (name : String) (s : String) : Except ArgsError Nat :=
  match (parseUnsigned (2 ^ 64) s).filter (0 < ·) with
  | some n => .ok n
  | none => .error (.notPositive name)

/-- The options that take a value. -/
inductive ValueOption
  | key
  | cert
  | ks
  | ksPass
  | ksKeyAlias
  | keyPass
  | ksType
  | out
  | outDir
  | jobs
  | threads
  | minSdkVersion
  | libPageSize
  deriving DecidableEq

def valueOption : String → Option ValueOption
  | "--key" => some .key
  | "--cert" => some .cert
  | "--ks" => some .ks
  | "--ks-pass" => some .ksPass
  | "--ks-key-alias" => some .ksKeyAlias
  | "--key-pass" => some .keyPass
  | "--ks-type" => some .ksType
  | "--out" => some .out
  | "--out-dir" => some .outDir
  | "--jobs" => some .jobs
  | "-j" => some .jobs
  | "--threads" => some .threads
  | "--min-sdk-version" => some .minSdkVersion
  | "--lib-page-size" => some .libPageSize
  | _ => none

/-- What an option makes of its value `s`; `a` is its name as it was given. -/
def ValueOption.set (a s : String) (d : Draft) : ValueOption → Except ArgsError Draft
  | .key => .ok { d with key := some s }
  | .cert => .ok { d with cert := some s }
  | .ks => .ok { d with ks := some s }
  | .ksPass => .ok { d with ksPass := some s }
  | .ksKeyAlias => .ok { d with alias_ := some s }
  | .keyPass => .ok { d with keyPass := some s }
  | .ksType =>
    -- looked at, and not kept: the store says of itself what it is
    let lower := s.toList.map Char.toLower
    if lower ≠ "jks".toList ∧ lower ≠ "pkcs12".toList then .error (.ksType s) else .ok d
  | .out => .ok { d with out := some s }
  | .outDir => .ok { d with outDir := some s }
  | .jobs => do
    let n ← positive a s
    .ok { d with jobs := some n }
  | .threads => do
    let n ← positive a s
    .ok { d with threads := some n }
  | .minSdkVersion =>
    match parseUnsigned (2 ^ 32) s with
    | some _ => .ok d
    | none => .error .minSdk
  | .libPageSize =>
    match parseUnsigned (2 ^ 32) s with
    | none => .error .pageNumber
    | some kib =>
      if kib ≠ 0 ∧ isPowerOfTwo kib = false ∨ 64 < kib then .error .pageSize
      else .ok { d with libPageSize := kib * 1024 }

/-- `parse_bool`: the value and whether an argument was used. -/
def parseBool : Option String → Bool × Bool
  | some "true" => (true, true)
  | some "false" => (false, true)
  | _ => (true, false)

/-- The options that may be followed by a truth value. -/
inductive BoolOption
  | zipalign
  | v1
  | v2
  | v3
  deriving DecidableEq

def boolOption : String → Option BoolOption
  | "--zipalign" => some .zipalign
  | "--v1-signing-enabled" => some .v1
  | "--v2-signing-enabled" => some .v2
  | "--v3-signing-enabled" => some .v3
  | _ => none

/-- What an option makes of the argument behind it, which may be none of its business; and whether
it was used. -/
def BoolOption.set (next : Option String) (d : Draft) : BoolOption → Draft × Bool
  | .zipalign =>
    if next = some "always" then ({ d with zipalign := .always }, true)
    else ({ d with zipalign := if (parseBool next).1 then .check else .off }, (parseBool next).2)
  | .v1 => ({ d with v1 := (parseBool next).1 }, (parseBool next).2)
  | .v2 => ({ d with v2 := (parseBool next).1 }, (parseBool next).2)
  | .v3 => ({ d with v3 := (parseBool next).1 }, (parseBool next).2)

/-- The loop of `parse_args`.  `first` is whether this is the first argument, and `used` whether the
option in front of it has taken it. -/
def parseLoop : (first used : Bool) → Draft → List String → Except ArgsError Draft
  | _, _, d, [] => .ok d
  | first, used, d, a :: rest =>
    if used = true ∨ a = "sign" ∧ first = true then parseLoop false false d rest
    else if a = "-h" ∨ a = "--help" then .error .help
    else
      match valueOption a with
      | some o =>
        match rest.head? with
        | none => .error (.requiresValue a)
        | some s => do
          let d ← o.set a s d
          parseLoop false true d rest
      | none =>
        match boolOption a with
        | some o => parseLoop false (o.set rest.head? d).2 (o.set rest.head? d).1 rest
        | none =>
          if a = "--timing" then parseLoop false false { d with timing := true } rest
          else if a.toList.head? = some '-' then .error (.unknownOption a)
          else parseLoop false false { d with inputs := d.inputs ++ [a] } rest

def Draft.keySource (d : Draft) : Except ArgsError KeySource :=
  match d.key, d.cert, d.ks with
  | some key, some cert, none => .ok (.files key cert)
  | none, none, some ks => .ok (.keystore ks d.ksPass d.alias_ d.keyPass)
  | none, none, none => .error .keyRequired
  | some _, none, none | none, some _, none => .error .keyAndCert
  | _, _, _ => .error .keyOrKeystore

def Draft.finish (d : Draft) : Except ArgsError Args := do
  if hin : d.inputs = [] then .error .missingInput
  else
    let keysrc ← d.keySource
    if hout : d.out ≠ none ∧ 1 < d.inputs.length then .error .outSingle
    else if hdir : d.out ≠ none ∧ d.outDir ≠ none then .error .outExclusive
    else .ok {
      inputs := d.inputs, out := d.out, outDir := d.outDir, keysrc, v1 := d.v1, jobs := d.jobs
      threads := d.threads, timing := d.timing
      opts := ⟨d.v2, d.v3, d.zipalign, d.libPageSize⟩
      inputs_ne := hin
      out_single := fun h => Nat.le_of_not_lt fun hlt => hout ⟨h, hlt⟩
      out_exclusive := by
        by_contra hno
        exact hdir ⟨fun h => hno (Or.inl h), fun h => hno (Or.inr h)⟩ }

def parseArgs (argv : List String) : Except ArgsError Args := do
  let d ← parseLoop true false .empty argv
  d.finish

/-! ### What is accepted -/

/-- What the options can say of the numbers. -/
structure Numbers (jobs threads : Option Nat) (libPageSize : Nat) : Prop where
  jobs : ∀ n, jobs = some n → 0 < n ∧ n < 2 ^ 64
  threads : ∀ n, threads = some n → 0 < n ∧ n < 2 ^ 64
  page : libPageSize ∈ [0, 1, 2, 4, 8, 16, 32, 64].map (· * 1024)

structure Draft.Ok (d : Draft) : Prop where
  numbers : Numbers d.jobs d.threads d.libPageSize
  inputs : ∀ s ∈ d.inputs, s.toList.head? ≠ some '-'

theorem ok_empty : Draft.empty.Ok := by
  refine ⟨⟨fun _ h => ?_, fun _ h => ?_, by decide⟩, fun _ h => ?_⟩
  · cases h
  · cases h
  · cases h

theorem lt_of_parseUnsigned {bound n : Nat} {s : String} (h : parseUnsigned bound s = some n) :
    n < bound := by
  rw [parseUnsigned] at h
  generalize (match s.toList with
    | '+' :: rest => rest
    | l => l) = digits at h
  simp only at h
  by_cases hd : digits = [] ∨ (digits.any fun c => !c.isDigit) = true
  · rw [if_pos hd] at h
    cases h
  · rw [if_neg hd] at h
    split at h
    · rename_i hlt
      exact Option.some.inj h ▸ hlt
    · cases h

theorem positive_eq_ok {a s : String} {n : Nat} (h : positive a s = .ok n) :
    0 < n ∧ n < 2 ^ 64 := by
  rw [positive] at h
  cases hp : (parseUnsigned (2 ^ 64) s).filter fun n => decide (0 < n) with
  | none =>
    rw [hp] at h
    cases h
  | some m =>
    rw [hp] at h
    obtain rfl := Except.ok.inj h
    obtain ⟨hs, hpos⟩ := Option.filter_eq_some_iff.mp hp
    exact ⟨of_decide_eq_true hpos, lt_of_parseUnsigned hs⟩

theorem page_of_kib {kib : Nat} (h : ¬ (kib ≠ 0 ∧ isPowerOfTwo kib = false ∨ 64 < kib)) :
    kib * 1024 ∈ [0, 1, 2, 4, 8, 16, 32, 64].map (· * 1024) := by
  have hall : ∀ n ≤ 64, ¬ (n ≠ 0 ∧ isPowerOfTwo n = false) →
      n ∈ [0, 1, 2, 4, 8, 16, 32, 64] := by decide
  have hmem := hall kib (by omega) fun hk => h (Or.inl hk)
  exact List.mem_map_of_mem (f := fun n => n * 1024) hmem

/-- **Step lemma**, for an option with a value. -/
theorem ValueOption.set_ok {o : ValueOption} {a s : String} {d d' : Draft} (hd : d.Ok)
    (h : o.set a s d = .ok d') : d'.Ok := by
  cases o with
  | key | cert | ks | ksPass | ksKeyAlias | keyPass | out | outDir =>
    obtain rfl := Except.ok.inj h
    exact ⟨hd.numbers, hd.inputs⟩
  | ksType =>
    rw [ValueOption.set] at h
    split at h
    · cases h
    · obtain rfl := Except.ok.inj h
      exact hd
  | jobs =>
    rw [ValueOption.set, bind_eq_ok] at h
    obtain ⟨n, hn, h⟩ := h
    obtain rfl := Except.ok.inj h
    refine ⟨⟨fun m hm => ?_, hd.numbers.threads, hd.numbers.page⟩, hd.inputs⟩
    obtain rfl := Option.some.inj hm
    exact positive_eq_ok hn
  | threads =>
    rw [ValueOption.set, bind_eq_ok] at h
    obtain ⟨n, hn, h⟩ := h
    obtain rfl := Except.ok.inj h
    refine ⟨⟨hd.numbers.jobs, fun m hm => ?_, hd.numbers.page⟩, hd.inputs⟩
    obtain rfl := Option.some.inj hm
    exact positive_eq_ok hn
  | minSdkVersion =>
    rw [ValueOption.set] at h
    split at h
    · obtain rfl := Except.ok.inj h
      exact hd
    · cases h
  | libPageSize =>
    rw [ValueOption.set] at h
    split at h
    · cases h
    · split at h
      · cases h
      · rename_i hkib
        obtain rfl := Except.ok.inj h
        exact ⟨⟨hd.numbers.jobs, hd.numbers.threads, page_of_kib hkib⟩, hd.inputs⟩

theorem BoolOption.set_ok {o : BoolOption} {next : Option String} {d : Draft} (hd : d.Ok) :
    (o.set next d).1.Ok := by
  cases o with
  | zipalign =>
    rw [BoolOption.set]
    split
    · exact ⟨hd.numbers, hd.inputs⟩
    · exact ⟨hd.numbers, hd.inputs⟩
  | v1 | v2 | v3 => exact ⟨hd.numbers, hd.inputs⟩

/-- **Run lemma.** -/
theorem parseLoop_ok : ∀ (argv : List String) (first used : Bool) {d d' : Draft}, d.Ok →
    parseLoop first used d argv = .ok d' → d'.Ok := by
  intro argv
  induction argv with
  | nil =>
    intro first used d d' hd h
    obtain rfl := Except.ok.inj h
    exact hd
  | cons a rest ih =>
    intro first used d d' hd h
    rw [parseLoop] at h
    by_cases hskip : used = true ∨ a = "sign" ∧ first = true
    · rw [if_pos hskip] at h
      exact ih _ _ hd h
    · rw [if_neg hskip] at h
      by_cases hhelp : a = "-h" ∨ a = "--help"
      · rw [if_pos hhelp] at h
        cases h
      · rw [if_neg hhelp] at h
        cases hv : valueOption a with
        | some o =>
          rw [hv] at h
          cases hs : rest.head? with
          | none =>
            rw [hs] at h
            cases h
          | some s =>
            rw [hs] at h
            simp only [bind_eq_ok] at h
            obtain ⟨d₁, hset, h⟩ := h
            exact ih _ _ (ValueOption.set_ok hd hset) h
        | none =>
          rw [hv] at h
          cases hb : boolOption a with
          | some o =>
            rw [hb] at h
            exact ih _ _ (BoolOption.set_ok hd) h
          | none =>
            rw [hb] at h
            simp only at h
            split at h
            · refine ih _ _ ?_ h
              exact ⟨hd.numbers, hd.inputs⟩
            · split at h
              · cases h
              · rename_i hdash
                refine ih _ _ ?_ h
                refine ⟨hd.numbers, fun s hs => ?_⟩
                rcases List.mem_append.mp hs with hs | hs
                · exact hd.inputs s hs
                · rw [List.mem_singleton.mp hs]
                  exact hdash

/-- What a command line can ask for. -/
structure Args.Readable (a : Args) : Prop where
  numbers : Numbers a.jobs a.threads a.opts.libPageSize
  inputs : ∀ s ∈ a.inputs, s.toList.head? ≠ some '-'

theorem readable_of_parseArgs {argv : List String} {a : Args} (h : parseArgs argv = .ok a) :
    a.Readable := by
  rw [parseArgs, bind_eq_ok] at h
  obtain ⟨d, hd, h⟩ := h
  have hok := parseLoop_ok argv true false ok_empty hd
  rw [Draft.finish] at h
  split at h
  · cases h
  · rw [bind_eq_ok] at h
    obtain ⟨keysrc, -, h⟩ := h
    split at h
    · cases h
    · split at h
      · cases h
      · obtain rfl := Except.ok.inj h
        exact ⟨hok.numbers, hok.inputs⟩

/-! ### Writing a command line -/

/-- An option with its value, if there is one. -/
def optArg (name : String) : Option String → List String
  | none => []
  | some s => [name, s]

def KeySource.render : KeySource → List String
  | .files key cert => ["--key", key, "--cert", cert]
  | .keystore ks ksPass alias_ keyPass => ["--ks", ks] ++ (optArg "--ks-pass" ksPass
    ++ (optArg "--ks-key-alias" alias_ ++ optArg "--key-pass" keyPass))

def boolText (b : Bool) : String := if b then "true" else "false"

def ZipAlign.text : ZipAlign → String
  | .off => "false"
  | .check => "true"
  | .always => "always"

/-- The options, then the inputs. -/
def Args.render (a : Args) : List String :=
  a.keysrc.render ++ (optArg "--out" a.out ++ (optArg "--out-dir" a.outDir
    ++ (optArg "--jobs" (a.jobs.map toString) ++ (optArg "--threads" (a.threads.map toString)
    ++ (["--v1-signing-enabled", boolText a.v1] ++ (["--v2-signing-enabled", boolText a.opts.v2]
    ++ (["--v3-signing-enabled", boolText a.opts.v3] ++ (["--zipalign", a.opts.zipalign.text]
    ++ (["--lib-page-size", toString (a.opts.libPageSize / 1024)]
    ++ ((if a.timing then ["--timing"] else []) ++ a.inputs))))))))))

/-- These arguments take the pass from one draft to another, whatever follows. -/
def Takes (d : Draft) (args : List String) (d' : Draft) : Prop :=
  ∀ rest, parseLoop false false d (args ++ rest) = parseLoop false false d' rest

namespace Takes

variable {d d₁ d₂ : Draft} {xs ys : List String}

theorem nil (d : Draft) : Takes d [] d := fun _ => rfl

theorem append (h₁ : Takes d xs d₁) (h₂ : Takes d₁ ys d₂) : Takes d (xs ++ ys) d₂ := by
  intro rest
  rw [List.append_assoc, h₁, h₂]

theorem not_help {a : String} (h : (valueOption a).isSome ∨ (boolOption a).isSome ∨ a = "--timing") :
    ¬ (a = "-h" ∨ a = "--help") := by
  rintro (rfl | rfl)
  · revert h
    decide
  · revert h
    decide

theorem skip (d : Draft) (s : String) (rest : List String) :
    parseLoop false true d (s :: rest) = parseLoop false false d rest := by
  rw [parseLoop, if_pos (Or.inl rfl)]

theorem value {a s : String} {o : ValueOption} (ha : valueOption a = some o)
    (hset : o.set a s d = .ok d₁) : Takes d [a, s] d₁ := by
  intro rest
  rw [List.cons_append, parseLoop, if_neg (by simp), if_neg (not_help (Or.inl (by rw [ha]; rfl))), ha]
  simp only [List.cons_append, List.nil_append, List.head?_cons, hset, ok_bind]
  exact skip d₁ s rest

theorem opt {v : Option String} {a : String} {o : ValueOption} (ha : valueOption a = some o)
    (hset : ∀ s, v = some s → o.set a s d = .ok d₁) (hnone : v = none → d = d₁) :
    Takes d (optArg a v) d₁ := by
  cases v with
  | none =>
    rw [hnone rfl]
    exact nil d₁
  | some s => exact value ha (hset s rfl)

theorem bool {a s : String} {o : BoolOption} (ha : boolOption a = some o) (hv : valueOption a = none)
    (hset : o.set (some s) d = (d₁, true)) : Takes d [a, s] d₁ := by
  intro rest
  rw [List.cons_append, parseLoop, if_neg (by simp),
    if_neg (not_help (Or.inr (Or.inl (by rw [ha]; rfl)))), hv, ha]
  simp only [List.cons_append, List.nil_append, List.head?_cons, hset]
  exact skip d₁ s rest

theorem timing (t : Bool) (h : d.timing = false) :
    Takes d (if t then ["--timing"] else []) { d with timing := t } := by
  cases t with
  | false =>
    rw [show { d with timing := false } = d by rw [← h]]
    exact nil d
  | true => exact fun _ => rfl

end Takes

theorem head_of_option {a : String}
    (h : (valueOption a).isSome ∨ (boolOption a).isSome ∨ a = "--timing" ∨ a = "-h" ∨ a = "--help") :
    a.toList.head? = some '-' := by
  rcases h with h | h | rfl | rfl | rfl
  · unfold valueOption at h
    split at h <;> first | rfl | cases h
  · unfold boolOption at h
    split at h <;> first | rfl | cases h
  · rfl
  · rfl
  · rfl

theorem parseLoop_inputs : ∀ {inputs : List String} {d : Draft},
    (∀ s ∈ inputs, s.toList.head? ≠ some '-') →
      parseLoop false false d inputs = .ok { d with inputs := d.inputs ++ inputs } := by
  intro inputs
  induction inputs with
  | nil =>
    intro d _
    rw [parseLoop, List.append_nil]
  | cons s inputs ih =>
    intro d h
    obtain ⟨hs, h⟩ := List.forall_mem_cons.mp h
    have hv : valueOption s = none :=
      Option.not_isSome_iff_eq_none.mp fun h => hs (head_of_option (Or.inl h))
    have hb : boolOption s = none :=
      Option.not_isSome_iff_eq_none.mp fun h => hs (head_of_option (Or.inr (Or.inl h)))
    rw [parseLoop, if_neg (by simp), if_neg fun h => hs (head_of_option (Or.inr (Or.inr (Or.inr h)))),
      hv, hb]
    simp only
    rw [if_neg fun h => hs (head_of_option (Or.inr (Or.inr (Or.inl h)))), if_neg hs, ih h,
      List.append_assoc]
    rfl

theorem parseUnsigned_toString {bound n : Nat} (h : n < bound) :
    parseUnsigned bound (toString n) = some n := by
  have hlist : (toString n).toList = Nat.toDigits 10 n := Nat.toList_repr
  have hdigit : ∀ c ∈ Nat.toDigits 10 n, c.isDigit = true :=
    fun c hc => Nat.isDigit_of_mem_toDigits (by decide) (by decide) hc
  have hplus : (match (toString n).toList with
      | '+' :: rest => rest
      | l => l) = Nat.toDigits 10 n := by
    rw [hlist]
    split
    · rename_i rest heq
      have := hdigit '+' (heq ▸ List.mem_cons_self)
      exact absurd this (by decide)
    · rfl
  rw [parseUnsigned, hplus]
  simp only
  rw [if_neg, ← Nat.ofDigitChars_eq_foldl, Nat.ofDigitChars_ten_toDigits, if_pos h]
  rintro (hnil | hany)
  · exact Nat.toDigits_ne_nil hnil
  · obtain ⟨c, hc, hno⟩ := List.any_eq_true.mp hany
    rw [hdigit c hc] at hno
    cases hno

theorem positive_toString {a : String} {n : Nat} (h : 0 < n ∧ n < 2 ^ 64) :
    positive a (toString n) = .ok n := by
  rw [positive, parseUnsigned_toString h.2, Option.filter_some, if_pos (decide_eq_true h.1)]

theorem parseLoop_first {a : String} {rest : List String} (d : Draft) (h : a ≠ "sign") :
    parseLoop true false d (a :: rest) = parseLoop false false d (a :: rest) := by
  have hno (first : Bool) : ¬ (false = true ∨ a = "sign" ∧ first = true) := by
    rintro (hf | ⟨hs, -⟩)
    · cases hf
    · exact h hs
  rw [parseLoop, if_neg (hno true), parseLoop, if_neg (hno false)]

section Render

variable (d : Draft)

def KeySource.draft : KeySource → Draft
  | .files key cert => { Draft.empty with key := some key, cert := some cert }
  | .keystore ks ksPass alias_ keyPass =>
    { Draft.empty with ks := some ks, ksPass := ksPass, alias_ := alias_, keyPass := keyPass }

theorem takes_keySource (k : KeySource) : Takes .empty k.render k.draft := by
  cases k with
  | files key cert =>
    have hkey : Takes .empty ["--key", key] { Draft.empty with key := some key } := .value rfl rfl
    exact hkey.append (.value rfl rfl)
  | keystore ks ksPass alias_ keyPass =>
    have hks : Takes .empty ["--ks", ks] { Draft.empty with ks := some ks } := .value rfl rfl
    refine hks.append ?_
    have hpass : Takes { Draft.empty with ks := some ks } (optArg "--ks-pass" ksPass)
        { Draft.empty with ks := some ks, ksPass := ksPass } :=
      .opt rfl (fun s h => h ▸ rfl) fun h => h ▸ rfl
    refine hpass.append ?_
    have halias : Takes { Draft.empty with ks := some ks, ksPass := ksPass }
        (optArg "--ks-key-alias" alias_)
        { Draft.empty with ks := some ks, ksPass := ksPass, alias_ := alias_ } :=
      .opt rfl (fun s h => h ▸ rfl) fun h => h ▸ rfl
    exact halias.append (.opt rfl (fun s h => h ▸ rfl) fun h => h ▸ rfl)

theorem takes_out {o : Option String} (hd : d.out = none) :
    Takes d (optArg "--out" o) { d with out := o } := by
  refine .opt rfl (fun s h => ?_) fun h => ?_
  · rw [h]
    rfl
  · rw [h, ← hd]

theorem takes_outDir {o : Option String} (hd : d.outDir = none) :
    Takes d (optArg "--out-dir" o) { d with outDir := o } := by
  refine .opt rfl (fun s h => ?_) fun h => ?_
  · rw [h]
    rfl
  · rw [h, ← hd]

theorem takes_jobs {n : Option Nat} (hd : d.jobs = none) (hn : ∀ m, n = some m → 0 < m ∧ m < 2 ^ 64) :
    Takes d (optArg "--jobs" (n.map toString)) { d with jobs := n } := by
  refine .opt rfl (fun s h => ?_) fun h => ?_
  · obtain ⟨m, rfl, rfl⟩ := Option.map_eq_some_iff.mp h
    rw [ValueOption.set, positive_toString (hn m rfl)]
    rfl
  · rw [Option.map_eq_none_iff.mp h, ← hd]

theorem takes_threads {n : Option Nat} (hd : d.threads = none)
    (hn : ∀ m, n = some m → 0 < m ∧ m < 2 ^ 64) :
    Takes d (optArg "--threads" (n.map toString)) { d with threads := n } := by
  refine .opt rfl (fun s h => ?_) fun h => ?_
  · obtain ⟨m, rfl, rfl⟩ := Option.map_eq_some_iff.mp h
    rw [ValueOption.set, positive_toString (hn m rfl)]
    rfl
  · rw [Option.map_eq_none_iff.mp h, ← hd]

theorem takes_libPageSize {n : Nat} (hn : n ∈ [0, 1, 2, 4, 8, 16, 32, 64].map (· * 1024)) :
    Takes d ["--lib-page-size", toString (n / 1024)] { d with libPageSize := n } := by
  obtain ⟨kib, hkib, rfl⟩ := List.mem_map.mp hn
  have hgood : ∀ k ∈ [0, 1, 2, 4, 8, 16, 32, 64],
      ¬ (k ≠ 0 ∧ isPowerOfTwo k = false ∨ 64 < k) ∧ k < 2 ^ 32 := by decide
  obtain ⟨hok, hlt⟩ := hgood kib hkib
  refine .value rfl ?_
  simp only [Nat.mul_div_cancel kib (show 0 < 1024 by decide), ValueOption.set]
  rw [parseUnsigned_toString hlt]
  simp only
  rw [if_neg hok]

theorem parseBool_boolText (b : Bool) : parseBool (some (boolText b)) = (b, true) := by
  cases b <;> rfl

theorem takes_versions (b₁ b₂ b₃ : Bool) :
    Takes d (["--v1-signing-enabled", boolText b₁] ++ (["--v2-signing-enabled", boolText b₂]
      ++ ["--v3-signing-enabled", boolText b₃])) { d with v1 := b₁, v2 := b₂, v3 := b₃ } := by
  have h₁ : Takes d ["--v1-signing-enabled", boolText b₁] { d with v1 := b₁ } :=
    .bool rfl rfl (by rw [BoolOption.set, parseBool_boolText])
  have h₂ : Takes { d with v1 := b₁ } ["--v2-signing-enabled", boolText b₂]
      { d with v1 := b₁, v2 := b₂ } :=
    .bool rfl rfl (by rw [BoolOption.set, parseBool_boolText])
  have h₃ : Takes { d with v1 := b₁, v2 := b₂ } ["--v3-signing-enabled", boolText b₃]
      { d with v1 := b₁, v2 := b₂, v3 := b₃ } :=
    .bool rfl rfl (by rw [BoolOption.set, parseBool_boolText])
  exact h₁.append (h₂.append h₃)

theorem takes_zipalign (z : ZipAlign) :
    Takes d ["--zipalign", z.text] { d with zipalign := z } := by
  refine .bool rfl rfl ?_
  cases z <;> rfl

end Render

def Args.draft (a : Args) : Draft :=
  { a.keysrc.draft with
    inputs := a.inputs, out := a.out, outDir := a.outDir, v1 := a.v1, v2 := a.opts.v2
    v3 := a.opts.v3, jobs := a.jobs, threads := a.threads, timing := a.timing
    zipalign := a.opts.zipalign, libPageSize := a.opts.libPageSize }

/-- The options that do not say where the key is, from a draft that has only that. -/
theorem takes_options {a : Args} (h : a.Readable) (k : KeySource) :
    Takes k.draft (optArg "--out" a.out ++ (optArg "--out-dir" a.outDir
      ++ (optArg "--jobs" (a.jobs.map toString) ++ (optArg "--threads" (a.threads.map toString)
      ++ ((["--v1-signing-enabled", boolText a.v1] ++ (["--v2-signing-enabled", boolText a.opts.v2]
        ++ ["--v3-signing-enabled", boolText a.opts.v3]))
      ++ (["--zipalign", a.opts.zipalign.text]
      ++ (["--lib-page-size", toString (a.opts.libPageSize / 1024)]
      ++ (if a.timing then ["--timing"] else []))))))))
      { k.draft with
        out := a.out, outDir := a.outDir, v1 := a.v1, v2 := a.opts.v2, v3 := a.opts.v3
        jobs := a.jobs, threads := a.threads, timing := a.timing, zipalign := a.opts.zipalign
        libPageSize := a.opts.libPageSize } := by
  have hout : k.draft.out = none := by cases k <;> rfl
  have hdir : k.draft.outDir = none := by cases k <;> rfl
  have hjobs : k.draft.jobs = none := by cases k <;> rfl
  have hthreads : k.draft.threads = none := by cases k <;> rfl
  have htiming : k.draft.timing = false := by cases k <;> rfl
  generalize k.draft = d at *
  refine Takes.append (takes_out d hout) ?_
  refine Takes.append (takes_outDir _ (by exact hdir)) ?_
  refine Takes.append (takes_jobs _ (by exact hjobs) h.numbers.jobs) ?_
  refine Takes.append (takes_threads _ (by exact hthreads) h.numbers.threads) ?_
  refine Takes.append (takes_versions _ a.v1 a.opts.v2 a.opts.v3) ?_
  refine Takes.append (takes_zipalign _ a.opts.zipalign) ?_
  exact Takes.append (takes_libPageSize _ h.numbers.page) (.timing a.timing (by exact htiming))

theorem parseLoop_render {a : Args} (h : a.Readable) :
    parseLoop true false .empty a.render = .ok a.draft := by
  have hfirst : parseLoop true false .empty a.render = parseLoop false false .empty a.render := by
    rw [Args.render]
    cases a.keysrc with
    | files => exact parseLoop_first .empty (by decide)
    | keystore => exact parseLoop_first .empty (by decide)
  have hinputs : a.keysrc.draft.inputs = [] := by cases a.keysrc <;> rfl
  have hread := takes_options h a.keysrc a.inputs
  simp only [List.append_assoc] at hread
  rw [hfirst, Args.render, takes_keySource a.keysrc, hread, parseLoop_inputs h.inputs, hinputs,
    List.nil_append]
  rfl

theorem finish_draft (a : Args) : a.draft.finish = .ok a := by
  have hkey : a.draft.keySource = .ok a.keysrc := by
    rw [Args.draft, Draft.keySource]
    cases a.keysrc <;> rfl
  rw [Draft.finish, dif_neg (show ¬ a.draft.inputs = [] from a.inputs_ne), hkey, ok_bind,
    dif_neg (show ¬ (a.draft.out ≠ none ∧ 1 < a.draft.inputs.length) from
      fun ⟨ho, hl⟩ => absurd (a.out_single ho) (Nat.not_le.mpr hl)),
    dif_neg (show ¬ (a.draft.out ≠ none ∧ a.draft.outDir ≠ none) from
      fun ⟨ho, hd⟩ => a.out_exclusive.elim ho hd)]
  rfl

/-- **What can be asked for, and how.**  Some command line says `a` exactly when its numbers and
inputs are such as can be written; then `a.render` says it. -/
theorem parseArgs_render_iff (a : Args) :
    (parseArgs a.render = .ok a ↔ a.Readable) ∧
      ((∃ argv, parseArgs argv = .ok a) ↔ a.Readable) := by
  have hread (h : a.Readable) : parseArgs a.render = .ok a := by
    rw [parseArgs, parseLoop_render h, ok_bind, finish_draft]
  exact ⟨⟨readable_of_parseArgs, hread⟩, fun ⟨_, h⟩ => readable_of_parseArgs h,
    fun h => ⟨_, hread h⟩⟩

end FastSigner.Sign

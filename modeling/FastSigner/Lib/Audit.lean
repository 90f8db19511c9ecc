import FastSigner.Lib.Cursor

/-!
# Readers under audit

A reader that keeps a log of what it asks of memory: the slices it takes, the room
it reserves, the turns of its loops.  The log is kept also where the reader fails.

`Audits a r j k` says that `a` is the reader `r` under audit, that its accesses are
in range, and that its loops go on only where bytes are left for them;
`Reserves a Q` says exactly what room it reserves, and where.  As for `Reads` there
is a rule for every way of putting readers together.
-/

namespace Lib

/-- What a step asks of memory. -/
inductive Access
  | slice (i j n : Nat) -- bytes `i` to `j` of `n` bytes
  | copy (m n : Nat) -- `m` bytes copied over `n` bytes
  | sub (a b : Nat) -- the difference `a - b`
  | reserve (n left : Nat) -- room for `n` elements, with `left` bytes of the input still to be read
  | turn (left : Nat) -- one more turn of a loop, with `left` bytes of the input still to be read
  deriving DecidableEq, Repr

namespace Access

def InRange : Access → Prop
  | slice i j n => i ≤ j ∧ j ≤ n
  | copy m n => m = n
  | sub a b => b ≤ a
  | reserve _ _ => True
  | turn _ => True

def left? : Access → Option Nat
  | turn left => some left
  | _ => none

/-- What is left at every turn of a loop. -/
def turns (log : List Access) : List Nat := log.filterMap left?

theorem turns_append (l m : List Access) : turns (l ++ m) = turns l ++ turns m :=
  List.filterMap_append

end Access

/-- A result, and the log of how it was found. -/
def Logged (ε α : Type) := Except ε α × List Access

open Access

namespace Logged

variable {ε α β : Type}

instance : Monad (Logged ε) where
  pure x := (.ok x, [])
  bind a f :=
    match a.1 with
    | .ok x => ((f x).1, a.2 ++ (f x).2)
    | .error e => (.error e, a.2)

def fail (e : ε) : Logged ε α := (.error e, [])

def ofExcept (x : Except ε α) : Logged ε α := (x, [])

def noting (e : Access) (a : Logged ε α) : Logged ε α := (a.1, e :: a.2)

@[simp] theorem fst_noting (e : Access) (a : Logged ε α) : (a.noting e).1 = a.1 := rfl

theorem bind_of_ok {a : Logged ε α} {x : α} (h : a.1 = .ok x) (f : α → Logged ε β) :
    a >>= f = ((f x).1, a.2 ++ (f x).2) := by
  change (match a.1 with
    | .ok x => ((f x).1, a.2 ++ (f x).2)
    | .error e => (.error e, a.2)) = _
  rw [h]

theorem bind_of_error {a : Logged ε α} {e : ε} (h : a.1 = .error e) (f : α → Logged ε β) :
    a >>= f = (.error e, a.2) := by
  change (match a.1 with
    | .ok x => ((f x).1, a.2 ++ (f x).2)
    | .error e => (.error e, a.2)) = _
  rw [h]

theorem fst_bind (a : Logged ε α) (f : α → Logged ε β) :
    (a >>= f).1 = a.1 >>= fun x => (f x).1 := by
  cases h : a.1 with
  | error e =>
    rw [bind_of_error h]
    rfl
  | ok x =>
    rw [bind_of_ok h]
    rfl

theorem mem_bind {a : Logged ε α} {f : α → Logged ε β} {e : Access} :
    e ∈ (a >>= f).2 ↔ e ∈ a.2 ∨ ∃ x, a.1 = .ok x ∧ e ∈ (f x).2 := by
  cases h : a.1 with
  | error e' =>
    rw [bind_of_error h]
    simp
  | ok x =>
    rw [bind_of_ok h]
    simp

/-- Accesses are in range, and loops end with the input: from one turn to the next at least four
bytes are read, and after a turn without any bytes left the run fails. -/
structure Steady (a : Logged ε α) : Prop where
  inRange : ∀ e ∈ a.2, e.InRange
  apart : (turns a.2).Pairwise fun m n => n + 4 ≤ m
  exhausted : 0 ∈ turns a.2 → ∃ e, a.1 = .error e

/-- And no more room is reserved than there are bytes left. -/
structure Sound (a : Logged ε α) : Prop extends Steady a where
  backed : ∀ n left, Access.reserve n left ∈ a.2 → n ≤ left

theorem Steady.bind {a : Logged ε α} {f : α → Logged ε β} (ha : a.Steady)
    (hf : ∀ x, a.1 = .ok x → (f x).Steady)
    (hq : turns a.2 = [] ∨ ∀ x, a.1 = .ok x → turns (f x).2 = []) : (a >>= f).Steady := by
  cases h : a.1 with
  | error e =>
    rw [bind_of_error h]
    exact ⟨ha.inRange, ha.apart, fun _ => ⟨e, rfl⟩⟩
  | ok x =>
    have hx := hf x h
    have hzero : 0 ∉ turns a.2 := by
      intro hmem
      obtain ⟨e, he⟩ := ha.exhausted hmem
      rw [h] at he
      cases he
    rw [bind_of_ok h]
    constructor
    case inRange =>
      intro e he
      exact (List.mem_append.mp he).elim (ha.inRange e) (hx.inRange e)
    case apart =>
      rw [turns_append]
      rcases hq with hq | hq
      · rw [hq, List.nil_append]
        exact hx.apart
      · rw [hq x h, List.append_nil]
        exact ha.apart
    case exhausted =>
      intro hmem
      rw [turns_append] at hmem
      exact hx.exhausted ((List.mem_append.mp hmem).resolve_left hzero)

theorem Steady.noting {a : Logged ε α} {e : Access} (ha : a.Steady) (he : e.InRange)
    (ht : e.left? = none) : (a.noting e).Steady := by
  have hturns : turns (a.noting e).2 = turns a.2 := List.filterMap_cons_none ht
  constructor
  case inRange =>
    intro e' he'
    rcases List.mem_cons.mp he' with rfl | he'
    · exact he
    · exact ha.inRange e' he'
  case apart =>
    rw [hturns]
    exact ha.apart
  case exhausted =>
    rw [hturns]
    exact ha.exhausted

theorem Steady.turn {a : Logged ε α} {m : Nat} (ha : a.Steady) (hm : 0 < m)
    (h : ∀ n ∈ turns a.2, n + 4 ≤ m) : (a.noting (.turn m)).Steady := by
  have hturns : turns (a.noting (.turn m)).2 = m :: turns a.2 := rfl
  constructor
  case inRange =>
    intro e he
    rcases List.mem_cons.mp he with rfl | he
    · trivial
    · exact ha.inRange e he
  case apart =>
    rw [hturns]
    exact List.pairwise_cons.mpr ⟨h, ha.apart⟩
  case exhausted =>
    intro hzero
    rw [hturns] at hzero
    exact ha.exhausted ((List.mem_cons.mp hzero).resolve_left (Nat.ne_of_lt hm))

theorem Sound.bind {a : Logged ε α} {f : α → Logged ε β} (ha : a.Sound)
    (hf : ∀ x, a.1 = .ok x → (f x).Sound)
    (hq : turns a.2 = [] ∨ ∀ x, a.1 = .ok x → turns (f x).2 = []) : (a >>= f).Sound := by
  refine ⟨ha.toSteady.bind (fun x hx => (hf x hx).toSteady) hq, ?_⟩
  intro n left hmem
  rcases mem_bind.mp hmem with hmem | ⟨x, hx, hmem⟩
  · exact ha.backed n left hmem
  · exact (hf x hx).backed n left hmem

theorem Sound.slice {a : Logged ε α} (ha : a.Sound) {i j n : Nat} (h : i ≤ j ∧ j ≤ n) :
    (a.noting (.slice i j n)).Sound :=
  ⟨ha.toSteady.noting h rfl,
    fun n left hmem => ha.backed n left ((List.mem_cons.mp hmem).resolve_left (by simp))⟩

theorem Sound.sub {a : Logged ε α} (ha : a.Sound) {m n : Nat} (h : n ≤ m) :
    (a.noting (.sub m n)).Sound :=
  ⟨ha.toSteady.noting h rfl,
    fun n left hmem => ha.backed n left ((List.mem_cons.mp hmem).resolve_left (by simp))⟩

theorem Sound.turn {a : Logged ε α} {m : Nat} (ha : a.Sound) (hm : 0 < m)
    (h : ∀ n ∈ turns a.2, n + 4 ≤ m) : (a.noting (.turn m)).Sound :=
  ⟨ha.toSteady.turn hm h,
    fun n left hmem => ha.backed n left ((List.mem_cons.mp hmem).resolve_left (by simp))⟩

theorem Sound.reserve {a : Logged ε α} (ha : a.Sound) {n left : Nat} (h : n ≤ left) :
    (a.noting (.reserve n left)).Sound := by
  refine ⟨ha.toSteady.noting trivial rfl, ?_⟩
  intro n' left' hmem
  rcases List.mem_cons.mp hmem with heq | hmem
  · obtain ⟨rfl, rfl⟩ := Access.reserve.inj heq
    exact h
  · exact ha.backed n' left' hmem

theorem sound_of_nil (x : Except ε α) : Sound (x, []) :=
  ⟨⟨(fun _ h => nomatch h), .nil, (fun h => nomatch h)⟩, (fun _ _ h => nomatch h)⟩

theorem Sound.ofExcept_bind {x : Except ε α} {f : α → Logged ε β}
    (hf : ∀ y, x = .ok y → (f y).Sound) : (ofExcept x >>= f).Sound :=
  Sound.bind (sound_of_nil x) hf (.inl rfl)

theorem steady_of_nil (x : Except ε α) : Steady (x, []) := (sound_of_nil x).toSteady

end Logged

/-- A reader under audit. -/
abbrev Audited (ε : Type) := StateT Cursor (Logged ε)

def Cursor.left (c : Cursor) : Nat := c.b.length - c.p

namespace Audited

variable {ε α : Type}

def fail (e : ε) : Audited ε α := fun _ => Logged.fail e

def take (short : ε) (n : Nat) : Audited ε Bytes := fun c =>
  if c.p + n ≤ c.b.length then
    (.ok (slice c.b c.p (c.p + n), ⟨c.b, c.p + n⟩), [.slice c.p (c.p + n) c.b.length])
  else (.error short, [])

def noting (e : Cursor → Access) (a : Audited ε α) : Audited ε α := fun c => (a c).noting (e c)

def reserving (n : Nat) (a : Audited ε α) : Audited ε α := noting (fun c => .reserve n c.left) a

def turn (a : Audited ε α) : Audited ε α := noting (fun c => .turn c.left) a

end Audited

/-- `a` is `r` under audit: accesses are in range; before the first turn of a loop at least `j`
bytes are read, from one turn to the next, and behind the last, at least four, and in all at least
`k`. -/
structure Audits {ε α : Type} (a : Audited ε α) (r : Reader ε α) (j k : Nat) : Prop where
  run : ∀ c, c.Valid → (a c).1 = r c
  inRange : ∀ c, c.Valid → ∀ e ∈ (a c).2, e.InRange
  apart : ∀ c, c.Valid → (turns (a c).2).Pairwise fun m n => n + 4 ≤ m
  before : ∀ c, c.Valid → ∀ m ∈ turns (a c).2, m + j ≤ c.left
  behind : ∀ c, c.Valid → ∀ x c', r c = .ok (x, c') →
    c'.Valid ∧ c'.left + k ≤ c.left ∧ ∀ m ∈ turns (a c).2, c'.left + 4 ≤ m

/-- `a` reserves room for `n` elements behind `s` exactly where `Q s n`. -/
def Reserves {ε α : Type} (a : Audited ε α) (Q : Bytes → Nat → Prop) : Prop :=
  ∀ c : Cursor, c.Valid → ∀ n left, Access.reserve n left ∈ (a c).2 ↔
    ∃ s c', Q s n ∧ c.Spans s c' ∧ left = c'.left

def Silent {ε α : Type} (a : Audited ε α) : Prop :=
  ∀ c n left, Access.reserve n left ∉ (a c).2

section Rules

variable {ε α β : Type} {a : Audited ε α} {r : Reader ε α} {g : α → Audited ε β}
  {g' : α → Reader ε β} {j j' k k' : Nat}

/-- A sequence at a position: what the second reader does is behind what the first one did. -/
theorem Audited.bind_of_ok {c c' : Cursor} {x : α} (h : (a c).1 = .ok (x, c')) :
    (a >>= g) c = ((g x c').1, (a c).2 ++ (g x c').2) := Logged.bind_of_ok h _

theorem Audited.bind_of_error {c : Cursor} {e : ε} (h : (a c).1 = .error e) :
    (a >>= g) c = (.error e, (a c).2) := Logged.bind_of_error h _

theorem audits_pure (x : α) (j : Nat) : Audits (pure x : Audited ε α) (pure x) j 0 where
  run _ _ := rfl
  inRange _ _ _ he := nomatch he
  apart _ _ := .nil
  before _ _ _ hm := nomatch hm
  behind := by
    intro c hc y c' h
    obtain ⟨rfl, rfl⟩ := Prod.mk.inj (Except.ok.inj h)
    exact ⟨hc, Nat.le_refl _, fun _ hm => nomatch hm⟩

theorem audits_fail (e : ε) (j k : Nat) : Audits (Audited.fail e : Audited ε α) (throw e) j k where
  run _ _ := rfl
  inRange _ _ _ he := nomatch he
  apart _ _ := .nil
  before _ _ _ hm := nomatch hm
  behind _ _ _ _ h := nomatch h

theorem Audited.take_of_le (short : ε) {n : Nat} {c : Cursor} (h : c.p + n ≤ c.b.length) :
    Audited.take short n c = (.ok (slice c.b c.p (c.p + n), ⟨c.b, c.p + n⟩),
      [.slice c.p (c.p + n) c.b.length]) := if_pos h

theorem Audited.take_of_lt (short : ε) {n : Nat} {c : Cursor} (h : c.b.length < c.p + n) :
    Audited.take short n c = (.error short, []) := if_neg (Nat.not_le_of_lt h)

theorem Audited.turns_take (short : ε) (n : Nat) (c : Cursor) :
    turns (Audited.take short n c).2 = [] := by
  rcases Nat.lt_or_ge c.b.length (c.p + n) with hlt | hle
  · rw [Audited.take_of_lt short hlt]
    rfl
  · rw [Audited.take_of_le short hle]
    rfl

theorem audits_take (short : ε) (n j : Nat) :
    Audits (Audited.take short n) (Reader.take short n) j n where
  run := by
    intro c _
    rw [Reader.take]
    rcases Nat.lt_or_ge c.b.length (c.p + n) with hlt | hle
    · rw [Audited.take_of_lt short hlt, if_neg (Nat.not_le_of_lt hlt)]
    · rw [Audited.take_of_le short hle, if_pos hle]
  inRange := by
    intro c _ e he
    rcases Nat.lt_or_ge c.b.length (c.p + n) with hlt | hle
    · rw [Audited.take_of_lt short hlt] at he
      cases he
    · rw [Audited.take_of_le short hle] at he
      rw [List.mem_singleton.mp he]
      exact ⟨Nat.le_add_right _ _, hle⟩
  apart := by
    intro c _
    rw [Audited.turns_take]
    exact .nil
  before := by
    intro c _ m hm
    rw [Audited.turns_take] at hm
    cases hm
  behind := by
    intro c _ x c' h
    rw [Reader.take] at h
    split at h
    · rename_i hle
      obtain ⟨-, rfl⟩ := Prod.mk.inj (Except.ok.inj h)
      rw [Audited.turns_take]
      refine ⟨hle, ?_, fun _ hm => absurd hm List.not_mem_nil⟩
      rw [Cursor.left, Cursor.left]
      simp only
      omega
    · cases h

theorem Audits.mono (h : Audits a r j k) (hj : j' ≤ j) (hk : k' ≤ k) : Audits a r j' k' where
  run := h.run
  inRange := h.inRange
  apart := h.apart
  before := by
    intro c hc m hm
    have := h.before c hc m hm
    omega
  behind := by
    intro c hc x c' hr
    obtain ⟨hc', hle, hbehind⟩ := h.behind c hc x c' hr
    exact ⟨hc', by omega, hbehind⟩

/-- **In sequence.**  The second reader is audited for what the first one returns. -/
theorem Audits.bind (ha : Audits a r j k)
    (hg : ∀ x, (∃ c c', c.Valid ∧ r c = .ok (x, c')) → Audits (g x) (g' x) j' k')
    (hj : j ≤ k + j') : Audits (a >>= g) (r >>= g') j (k + k') := by
  -- a run ends in the first reader, or it goes through the second
  have hcases : ∀ c, c.Valid → (∃ e, r c = .error e ∧ (a >>= g) c = (.error e, (a c).2)) ∨
      ∃ x c', r c = .ok (x, c') ∧ (a >>= g) c = ((g x c').1, (a c).2 ++ (g x c').2) := by
    intro c hc
    cases hrc : r c with
    | error e => exact .inl ⟨e, rfl, Audited.bind_of_error (by rw [ha.run c hc, hrc])⟩
    | ok p => exact .inr ⟨p.1, p.2, rfl, Audited.bind_of_ok (by rw [ha.run c hc, hrc])⟩
  have hbind : ∀ c, (r >>= g') c = (r c >>= fun p => g' p.1 p.2) := fun _ => rfl
  constructor
  case run =>
    intro c hc
    rw [hbind]
    obtain ⟨e, hr, h⟩ | ⟨x, c', hr, h⟩ := hcases c hc
    · rw [h, hr]
      rfl
    · rw [h, hr]
      exact (hg x ⟨c, c', hc, hr⟩).run c' (ha.behind c hc x c' hr).1
  case inRange =>
    intro c hc e he
    obtain ⟨e', hr, h⟩ | ⟨x, c', hr, h⟩ := hcases c hc
    · rw [h] at he
      exact ha.inRange c hc e he
    · rw [h] at he
      rcases List.mem_append.mp he with he | he
      · exact ha.inRange c hc e he
      · exact (hg x ⟨c, c', hc, hr⟩).inRange c' (ha.behind c hc x c' hr).1 e he
  case apart =>
    intro c hc
    obtain ⟨e', hr, h⟩ | ⟨x, c', hr, h⟩ := hcases c hc
    · rw [h]
      exact ha.apart c hc
    · have hx := hg x ⟨c, c', hc, hr⟩
      obtain ⟨hc', -, hbehind⟩ := ha.behind c hc x c' hr
      rw [h, turns_append, List.pairwise_append]
      refine ⟨ha.apart c hc, hx.apart c' hc', ?_⟩
      intro m hm n hn
      have h1 := hbehind m hm
      have h2 := hx.before c' hc' n hn
      omega
  case before =>
    intro c hc m hm
    obtain ⟨e', hr, h⟩ | ⟨x, c', hr, h⟩ := hcases c hc
    · rw [h] at hm
      exact ha.before c hc m hm
    · obtain ⟨hc', hk, -⟩ := ha.behind c hc x c' hr
      rw [h, turns_append] at hm
      rcases List.mem_append.mp hm with hm | hm
      · exact ha.before c hc m hm
      · have := (hg x ⟨c, c', hc, hr⟩).before c' hc' m hm
        omega
  case behind =>
    intro c hc y c'' hy
    obtain ⟨e', hr, h⟩ | ⟨x, c', hr, h⟩ := hcases c hc
    · rw [hbind, hr] at hy
      cases hy
    · have hx := hg x ⟨c, c', hc, hr⟩
      obtain ⟨hc', hk, hbehind⟩ := ha.behind c hc x c' hr
      rw [hbind, hr] at hy
      obtain ⟨hc'', hk', hbehind'⟩ := hx.behind c' hc' y c'' hy
      refine ⟨hc'', by omega, ?_⟩
      intro m hm
      rw [h, turns_append] at hm
      rcases List.mem_append.mp hm with hm | hm
      · have := hbehind m hm
        omega
      · exact hbehind' m hm

theorem Audits.seq (ha : Audits a r j k)
    (hg : ∀ x, (∃ c c', c.Valid ∧ r c = .ok (x, c')) → Audits (g x) (g' x) j 0) :
    Audits (a >>= g) (r >>= g') j k := ha.bind hg (Nat.le_add_left j k)

theorem Audits.ite {P : Prop} [Decidable P] {a' : Audited ε α} {r' : Reader ε α}
    (h : Audits a r j k) (h' : Audits a' r' j k) :
    Audits (if P then a else a') (if P then r else r') j k := by
  by_cases hP : P
  · rw [if_pos hP, if_pos hP]
    exact h
  · rw [if_neg hP, if_neg hP]
    exact h'

theorem Audits.noting {e : Cursor → Access} (h : Audits a r j k)
    (he : ∀ c, c.Valid → (e c).InRange) (ht : ∀ c, (e c).left? = none) :
    Audits (Audited.noting e a) r j k := by
  have hturns : ∀ c, turns (Audited.noting e a c).2 = turns (a c).2 := by
    intro c
    rw [turns, Audited.noting, Logged.noting, List.filterMap_cons_none (ht c)]
    rfl
  constructor
  case run => exact h.run
  case inRange =>
    intro c hc e' he'
    rcases List.mem_cons.mp he' with rfl | he'
    · exact he c hc
    · exact h.inRange c hc e' he'
  case apart =>
    intro c hc
    rw [hturns]
    exact h.apart c hc
  case before =>
    intro c hc
    rw [hturns]
    exact h.before c hc
  case behind =>
    intro c hc
    rw [hturns]
    exact h.behind c hc

/-- **A turn of a loop**: it has to read on before the next one, and in all. -/
theorem Audits.turn (h : Audits a r 4 4) : Audits (Audited.turn a) r 0 4 := by
  have hturns : ∀ c, turns (Audited.turn a c).2 = c.left :: turns (a c).2 := fun _ => rfl
  constructor
  case run => exact h.run
  case inRange =>
    intro c hc e he
    rcases List.mem_cons.mp he with rfl | he
    · trivial
    · exact h.inRange c hc e he
  case apart =>
    intro c hc
    rw [hturns]
    exact List.pairwise_cons.mpr ⟨h.before c hc, h.apart c hc⟩
  case before =>
    intro c hc m hm
    rw [hturns] at hm
    rcases List.mem_cons.mp hm with rfl | hm
    · exact Nat.le_refl _
    · have := h.before c hc m hm
      omega
  case behind =>
    intro c hc x c' hr
    obtain ⟨hc', hk, hbehind⟩ := h.behind c hc x c' hr
    refine ⟨hc', hk, ?_⟩
    intro m hm
    rw [hturns] at hm
    rcases List.mem_cons.mp hm with rfl | hm
    · exact hk
    · exact hbehind m hm

theorem Audits.steady (h : Audits a r j k) {c : Cursor} (hc : c.Valid) : Logged.Steady (a c) := by
  refine ⟨h.inRange c hc, h.apart c hc, ?_⟩
  intro hzero
  cases hrun : r c with
  | error e => exact ⟨e, by rw [h.run c hc, hrun]⟩
  | ok p =>
    have := (h.behind c hc p.1 p.2 hrun).2.2 0 hzero
    omega

/-! ### Room -/

theorem silent_pure (x : α) : Silent (pure x : Audited ε α) := fun _ _ _ h => nomatch h

theorem silent_fail (e : ε) : Silent (Audited.fail e : Audited ε α) := fun _ _ _ h => nomatch h

theorem silent_take (short : ε) (n : Nat) : Silent (Audited.take short n) := by
  intro c m left h
  rcases Nat.lt_or_ge c.b.length (c.p + n) with hlt | hle
  · rw [Audited.take_of_lt short hlt] at h
    cases h
  · rw [Audited.take_of_le short hle] at h
    cases List.mem_singleton.mp h

theorem Silent.bind (ha : Silent a) (hg : ∀ x, Silent (g x)) : Silent (a >>= g) := by
  intro c n left h
  cases hrun : (a c).1 with
  | error e =>
    rw [Audited.bind_of_error hrun] at h
    exact ha c n left h
  | ok p =>
    obtain ⟨x, c'⟩ := p
    rw [Audited.bind_of_ok hrun] at h
    rcases List.mem_append.mp h with h | h
    · exact ha c n left h
    · exact hg x c' n left h

theorem Silent.ite {P : Prop} [Decidable P] {a' : Audited ε α} (h : Silent a) (h' : Silent a') :
    Silent (if P then a else a') := by
  by_cases hP : P
  · rw [if_pos hP]
    exact h
  · rw [if_neg hP]
    exact h'

theorem Silent.noting {e : Cursor → Access} (h : Silent a) (he : ∀ c n left, e c ≠ .reserve n left) :
    Silent (Audited.noting e a) := by
  intro c n left hmem
  rcases List.mem_cons.mp hmem with heq | hmem
  · exact he c n left heq.symm
  · exact h c n left hmem

theorem Silent.turn (h : Silent a) : Silent (Audited.turn a) :=
  h.noting fun _ _ _ heq => Access.noConfusion heq

theorem Silent.reserves (h : Silent a) : Reserves a fun _ _ => False := by
  intro c _ n left
  constructor
  · exact fun hmem => absurd hmem (h c n left)
  · rintro ⟨_, _, hfalse, -⟩
    exact hfalse.elim

theorem Reserves.congr {Q Q' : Bytes → Nat → Prop} (h : Reserves a Q)
    (hQ : ∀ s n, Q s n ↔ Q' s n) : Reserves a Q' := by
  intro c hc n left
  rw [h c hc n left]
  simp only [hQ]

/-- **In sequence**: room is reserved by the first reader, or by the second behind what the first
one read. -/
theorem Reserves.bind {Q : Bytes → Nat → Prop} {Q' : α → Bytes → Nat → Prop}
    {R : α → Bytes → Prop} (ha : Reserves a Q) (hr : Audits a r j k) (hR : Reads r R)
    (hg : ∀ x, Reserves (g x) (Q' x)) :
    Reserves (a >>= g) fun s n => Q s n ∨ ∃ x s₁ s₂, R x s₁ ∧ Q' x s₂ n ∧ s = s₁ ++ s₂ := by
  intro c hc n left
  have hrun := hr.run c hc
  constructor
  · intro h
    cases hrc : r c with
    | error e =>
      rw [hrc] at hrun
      rw [Audited.bind_of_error hrun] at h
      obtain ⟨s, c', hQ, hspan⟩ := (ha c hc n left).mp h
      exact ⟨s, c', .inl hQ, hspan⟩
    | ok p =>
      obtain ⟨x, c'⟩ := p
      rw [hrc] at hrun
      rw [Audited.bind_of_ok hrun] at h
      rcases List.mem_append.mp h with h | h
      · obtain ⟨s, c'', hQ, hspan⟩ := (ha c hc n left).mp h
        exact ⟨s, c'', .inl hQ, hspan⟩
      · obtain ⟨s₁, hs₁, hspan⟩ := (hR c hc x c').mp hrc
        obtain ⟨s₂, c'', hQ', hspan', hleft⟩ := (hg x c' (hspan.valid hc) n left).mp h
        exact ⟨s₁ ++ s₂, c'', .inr ⟨x, s₁, s₂, hs₁, hQ', rfl⟩,
          Cursor.spans_append.mpr ⟨c', hspan, hspan'⟩, hleft⟩
  · rintro ⟨s, c', hQ | ⟨x, s₁, s₂, hs₁, hQ', rfl⟩, hspan, hleft⟩
    · have hmem := (ha c hc n left).mpr ⟨s, c', hQ, hspan, hleft⟩
      cases hrc : r c with
      | error e =>
        rw [hrc] at hrun
        rw [Audited.bind_of_error hrun]
        exact hmem
      | ok p =>
        obtain ⟨x, c''⟩ := p
        rw [hrc] at hrun
        rw [Audited.bind_of_ok hrun]
        exact List.mem_append_left _ hmem
    · obtain ⟨c'', h1, h2⟩ := Cursor.spans_append.mp hspan
      rw [(hR c hc x c'').mpr ⟨s₁, hs₁, h1⟩] at hrun
      rw [Audited.bind_of_ok hrun]
      exact List.mem_append_right _
        ((hg x c'' (h1.valid hc) n left).mpr ⟨s₂, c', hQ', h2, hleft⟩)

theorem Reserves.ite {P : Prop} [Decidable P] {a' : Audited ε α} {Q Q' : Bytes → Nat → Prop}
    (h : Reserves a Q) (h' : Reserves a' Q') :
    Reserves (if P then a else a') fun s n => if P then Q s n else Q' s n := by
  by_cases hP : P
  · simp only [if_pos hP]
    exact h
  · simp only [if_neg hP]
    exact h'

theorem Reserves.noting {e : Cursor → Access} {Q : Bytes → Nat → Prop} (h : Reserves a Q)
    (he : ∀ c n left, e c ≠ .reserve n left) : Reserves (Audited.noting e a) Q := by
  intro c hc n left
  rw [← h c hc n left]
  exact ⟨fun hmem => (List.mem_cons.mp hmem).resolve_left fun heq => he c n left heq.symm,
    fun hmem => List.mem_cons_of_mem _ hmem⟩

theorem Reserves.turn {Q : Bytes → Nat → Prop} (h : Reserves a Q) : Reserves (Audited.turn a) Q :=
  h.noting fun _ _ _ heq => Access.noConfusion heq

theorem Reserves.reserving {Q : Bytes → Nat → Prop} (h : Reserves a Q) (m : Nat) :
    Reserves (Audited.reserving m a) fun s n => s = [] ∧ n = m ∨ Q s n := by
  intro c hc n left
  constructor
  · intro hmem
    rcases List.mem_cons.mp hmem with heq | hmem
    · obtain ⟨rfl, rfl⟩ := Access.reserve.inj heq
      exact ⟨[], c, .inl ⟨rfl, rfl⟩, Cursor.spans_nil.mpr rfl, rfl⟩
    · obtain ⟨s, c', hQ, hspan⟩ := (h c hc n left).mp hmem
      exact ⟨s, c', .inr hQ, hspan⟩
  · rintro ⟨s, c', ⟨rfl, rfl⟩ | hQ, hspan, rfl⟩
    · obtain rfl := Cursor.spans_nil.mp hspan
      exact List.mem_cons_self
    · exact List.mem_cons_of_mem _ ((h c hc n _).mpr ⟨s, c', hQ, hspan, rfl⟩)

end Rules

end Lib

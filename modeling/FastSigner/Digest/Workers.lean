import FastSigner.Digest.Content
import FastSigner.Lib.Pool

/-!
# The two digest workers

The closure `worker` of `content_digest` in its two forms.  `Solo` claims a
chunk, hashes it in one go and records it.  `Duo`, on the SHA instructions, keeps
up to two chunks in flight: it fills the two lanes in turn, brings each to a
block boundary (`settle`) and feeds both to the two-way kernel.

A step of a worker is one atomic action: a claim on the shared counter, a racy
look at it, or local work.  `solo` and `duo` show that both respect the ledger of
`Lib.Kind.Sound`; for `Duo` the invariant says of each lane that the bytes it has
absorbed followed by the bytes it still has are the chunk's prefix and parts.
-/

namespace FastSigner.Digest

open Lib

/-- A digest in the fixed 64-byte array that workers pass around. -/
def record64 (d : Bytes) : Bytes := d ++ List.replicate (64 - d.length) 0

def chunkPrefix (n : Nat) : Bytes := 0xa5 :: leBytes 4 n

/-- What a worker works on: the parts of every chunk, the number of chunks and of threads. -/
structure Task where
  parts : Nat → Bytes × Bytes
  total : Nat
  threads : Nat

def Task.chunkLen (t : Task) (k : Nat) : Nat := (t.parts k).1.length + (t.parts k).2.length

def Task.cost (t : Task) (k : Nat) : Nat := 16 * (t.chunkLen k + 2)

/-! ### One chunk at a time -/

inductive SoloPhase
  | claim
  | hash (k : Nat)
  | done
  deriving DecidableEq

structure Solo where
  phase : SoloPhase
  out : List (Nat × Bytes)

def Solo.step (t : Task) (hash : List Bytes → Bytes) (next : Nat) (w : Solo) :
    Nat × List Nat × Solo :=
  match w.phase with
  | .claim => (next + 1, [], { w with phase := if t.total ≤ next then .done else .hash next })
  | .hash k =>
    (next, [k],
      ⟨.claim, w.out ++ [(k, record64 (hash [(t.parts k).1, (t.parts k).2]))]⟩)
  | .done => (next, [], w)

def soloKind (t : Task) (hash : List Bytes → Bytes) : Kind Solo Bytes where
  start := ⟨.claim, []⟩
  done w := decide (w.phase = .done)
  step := Solo.step t hash
  out := Solo.out

def SoloPhase.keys : SoloPhase → Multiset Nat
  | .hash k => {k}
  | _ => 0

def SoloPhase.weight (t : Task) : SoloPhase → Nat
  | .claim => 12
  | .hash k => t.cost k
  | .done => 0

structure SoloInv (t : Task) (hash : List Bytes → Bytes) (next : Nat) (w : Solo) : Prop where
  out : ∀ x ∈ w.out, x.2 = record64 (hash [(t.parts x.1).1, (t.parts x.1).2])
  done : w.phase = .done → t.total ≤ next

theorem keys_append {W : Type} (K : Kind W Bytes) {w w' : W} {k : Nat} {d : Bytes}
    (h : K.out w' = K.out w ++ [(k, d)]) : K.keys w' = K.keys w + {k} := by
  rw [Kind.keys, Kind.keys, h, List.map_append, ← Multiset.coe_add]
  rfl

theorem Solo.step_held (t : Task) (hash : List Bytes → Bytes) (a : Nat) {w : Solo}
    (hnd : (soloKind t hash).done w = false) :
    ((soloKind t hash).step a w).2.2.phase.keys
        + (soloKind t hash).keys ((soloKind t hash).step a w).2.2
      = w.phase.keys + (soloKind t hash).keys w
        + fresh t.total a ((soloKind t hash).step a w).1 := by
  obtain ⟨phase, out⟩ := w
  cases phase with
  | claim =>
    by_cases hlt : t.total ≤ a
    · simp [soloKind, Solo.step, SoloPhase.keys, Kind.keys, fresh, hlt]
    · simp [soloKind, Solo.step, SoloPhase.keys, Kind.keys, fresh, hlt, show a < t.total by omega,
        add_comm]
  | hash k =>
    rw [keys_append (soloKind t hash) (w := ⟨.hash k, out⟩) rfl]
    simp [soloKind, Solo.step, SoloPhase.keys, fresh, add_comm]
  | done => simp [soloKind] at hnd

theorem Solo.step_seen (t : Task) (hash : List Bytes → Bytes) (a : Nat) {w : Solo}
    (hnd : (soloKind t hash).done w = false) :
    ((soloKind t hash).step a w).2.2.phase.keys
        + (((soloKind t hash).step a w).2.1 : List Nat)
      = w.phase.keys + fresh t.total a ((soloKind t hash).step a w).1 := by
  obtain ⟨phase, out⟩ := w
  cases phase with
  | claim =>
    by_cases hlt : t.total ≤ a
    · simp [soloKind, Solo.step, SoloPhase.keys, fresh, hlt]
    · simp [soloKind, Solo.step, SoloPhase.keys, fresh, hlt, show a < t.total by omega]
  | hash k => simp [soloKind, Solo.step, SoloPhase.keys, fresh]
  | done => simp [soloKind] at hnd

theorem Solo.step_weight (t : Task) (hash : List Bytes → Bytes) (a : Nat) {w : Solo}
    (hnd : (soloKind t hash).done w = false) :
    ((soloKind t hash).step a w).2.2.phase.weight t
      < w.phase.weight t
        + if ((soloKind t hash).step a w).1 = a + 1 ∧ a < t.total then t.cost a else 0 := by
  obtain ⟨phase, out⟩ := w
  cases phase with
  | claim =>
    by_cases hlt : t.total ≤ a
    · simp [soloKind, Solo.step, SoloPhase.weight, hlt, show ¬ a < t.total by omega]
    · simp [soloKind, Solo.step, SoloPhase.weight, hlt, show a < t.total by omega]
  | hash k =>
    simp only [soloKind, Solo.step, SoloPhase.weight, Task.cost]
    omega
  | done => simp [soloKind] at hnd

/-- **The fallback worker keeps the ledger.** -/
def solo (t : Task) (hash : List Bytes → Bytes) :
    (soloKind t hash).Sound t.total
      (fun k => record64 (hash [(t.parts k).1, (t.parts k).2])) where
  held w := w.phase.keys
  unseen w := w.phase.keys
  Inv := SoloInv t hash
  weight w := w.phase.weight t
  cost := t.cost
  start_held := rfl
  start_unseen := rfl
  start_out := rfl
  start_inv := ⟨by simp [soloKind], by simp [soloKind]⟩
  inv_mono a b w h hab := ⟨h.out, fun hd => Nat.le_trans (h.done hd) hab⟩
  inv_out a w h := h.out
  inv_done a w h hd := by
    have hphase : w.phase = .done := by simpa [soloKind] using hd
    exact ⟨h.done hphase, by rw [hphase]; rfl, by rw [hphase]; rfl⟩
  step_next a w _ _ := by
    obtain ⟨phase, out⟩ := w
    cases phase with
    | claim => exact Or.inr rfl
    | hash k => exact Or.inl rfl
    | done => exact Or.inl rfl
  step_held a _ _ hnd := Solo.step_held t hash a hnd
  step_seen a _ _ hnd := Solo.step_seen t hash a hnd
  step_inv a w h hnd := by
    obtain ⟨phase, out⟩ := w
    cases phase with
    | claim =>
      refine ⟨h.out, ?_⟩
      intro hd
      by_cases hlt : t.total ≤ a
      · exact Nat.le_succ_of_le hlt
      · simp [soloKind, Solo.step, hlt] at hd
    | hash k =>
      refine ⟨?_, ?_⟩
      · intro x hx
        simp only [soloKind, Solo.step, List.mem_append, List.mem_singleton] at hx
        rcases hx with hx | rfl
        · exact h.out x hx
        · rfl
      · intro hd
        simp [soloKind, Solo.step] at hd
    | done => simp [soloKind] at hnd
  step_weight a _ _ hnd := Solo.step_weight t hash a hnd

/-! ### Two chunks at a time -/

/-- A chunk being hashed: the hasher and the bytes it has not absorbed yet. -/
structure Lane where
  k : Nat
  h : Sha256
  parts : Bytes × Bytes

def Lane.new (c : Sha256.Compress) (k : Nat) (parts : Bytes × Bytes) : Lane :=
  ⟨k, Sha256.new.update c (chunkPrefix (parts.1.length + parts.2.length)), parts⟩

/-- Absorb bytes through the hasher's buffer until whole blocks are next; the number of blocks
that can go to the kernel, `0` once everything is absorbed. -/
def Lane.settle (c : Sha256.Compress) (l : Lane) : Nat × Lane :=
  if l.parts.1 = [] then
    if l.parts.2 = [] then (0, l) else Lane.settle c { l with parts := (l.parts.2, []) }
  else if l.h.gap = 0 ∧ 64 ≤ l.parts.1.length then (l.parts.1.length / 64, l)
  else
    let take := if l.h.gap = 0 then l.parts.1.length else min l.h.gap l.parts.1.length
    Lane.settle c
      { l with h := l.h.update c (l.parts.1.take take), parts := (l.parts.1.drop take, l.parts.2) }
termination_by l.parts.1.length + 2 * l.parts.2.length
decreasing_by
  · rename_i hnil
    have := List.length_pos_iff.mpr hnil
    simp only [List.length_nil]
    omega
  · rename_i hne _
    have := List.length_pos_iff.mpr hne
    simp only [List.length_drop]
    split <;> omega

/-- One turn of the loop in `settle`; a number when it returns. -/
def Lane.settleStep (c : Sha256.Compress) (l : Lane) : Option Nat × Lane :=
  if l.parts.1 = [] then
    if l.parts.2 = [] then (some 0, l) else (none, { l with parts := (l.parts.2, []) })
  else if l.h.gap = 0 ∧ 64 ≤ l.parts.1.length then (some (l.parts.1.length / 64), l)
  else
    let take := if l.h.gap = 0 then l.parts.1.length else min l.h.gap l.parts.1.length
    (none,
      { l with h := l.h.update c (l.parts.1.take take), parts := (l.parts.1.drop take, l.parts.2) })

/-- The loop in `settle`, for at most `fuel` turns. -/
def Lane.settleLoop (c : Sha256.Compress) : Nat → Lane → Option (Nat × Lane)
  | 0, _ => none
  | fuel + 1, l =>
    match l.settleStep c with
    | (some n, l) => some (n, l)
    | (none, l) => l.settleLoop c fuel

def Lane.takeBlocks (l : Lane) (n : Nat) : Bytes × Lane :=
  (l.parts.1.take (n * 64), { l with parts := (l.parts.1.drop (n * 64), l.parts.2) })

/-- Where a two-lane worker stands; `false` is lane 0 and `true` is lane 1. -/
inductive DuoPhase
  | fill (i : Bool)
  | load (i : Bool)
  | claim (i : Bool)
  | start (i : Bool) (k : Nat)
  | settle (i : Bool)
  | feed
  | done
  deriving DecidableEq

structure Duo where
  phase : DuoPhase
  lane0 : Option Lane
  lane1 : Option Lane
  out : List (Nat × Bytes)

def Duo.lane (w : Duo) : Bool → Option Lane
  | false => w.lane0
  | true => w.lane1

def Duo.setLane (w : Duo) (l : Option Lane) : Bool → Duo
  | false => { w with lane0 := l }
  | true => { w with lane1 := l }

/-- Where the inner loop over lane `i` goes on when it is left. -/
def DuoPhase.after : Bool → DuoPhase
  | false => .fill true
  | true => .feed

/-- The end of an outer iteration: whole blocks go to the kernel that fits. -/
def Duo.feed (c : Sha256.Compress) (w : Duo) : Duo :=
  match w.lane0, w.lane1 with
  | some a, some b =>
    let n := min (a.parts.1.length / 64) (b.parts.1.length / 64)
    let (da, a) := a.takeBlocks n
    let (db, b) := b.takeBlocks n
    let (ha, hb) := Sha256.update2 c a.h b.h da db
    { w with lane0 := some { a with h := ha }, lane1 := some { b with h := hb }, phase := .fill false }
  | some a, none =>
    let (d, a) := a.takeBlocks (a.parts.1.length / 64)
    { w with lane0 := some { a with h := a.h.update c d }, phase := .fill false }
  | none, some b =>
    let (d, b) := b.takeBlocks (b.parts.1.length / 64)
    { w with lane1 := some { b with h := b.h.update c d }, phase := .fill false }
  | none, none => { w with phase := .done }

def Duo.step (t : Task) (c : Sha256.Compress) (next : Nat) (w : Duo) : Nat × List Nat × Duo :=
  match w.phase with
  | .fill i =>
    match w.lane i with
    | some _ => (next, [], { w with phase := .settle i })
    | none =>
      (next, [], { w with phase := if (w.lane (!i)).isSome then .load i else .claim i })
  -- a second chunk only while every thread can still get one of its own
  | .load i =>
    (next, [],
      { w with phase := if t.total - next < t.threads then DuoPhase.after i else .claim i })
  | .claim i =>
    (next + 1, [],
      { w with phase := if t.total ≤ next then DuoPhase.after i else .start i next })
  | .start i k =>
    (next, [k], { w.setLane (some (Lane.new c k (t.parts k))) i with phase := .settle i })
  | .settle i =>
    match w.lane i with
    | none => (next, [], { w with phase := .done })
    | some l =>
      let (n, l) := l.settle c
      if 0 < n then (next, [], { w.setLane (some l) i with phase := DuoPhase.after i })
      else
        (next, [],
          { w.setLane none i with
            phase := .fill i, out := w.out ++ [(l.k, record64 (l.h.finish c))] })
  | .feed => (next, [], w.feed c)
  | .done => (next, [], w)

def duoKind (t : Task) (c : Sha256.Compress) : Kind Duo Bytes where
  start := ⟨.fill false, none, none, []⟩
  done w := decide (w.phase = .done)
  step := Duo.step t c
  out := Duo.out

/-! ### What a lane stands for -/

/-- The message whose hash is the digest of chunk `k`. -/
def Task.message (t : Task) (k : Nat) : Bytes :=
  chunkPrefix (t.chunkLen k) ++ ((t.parts k).1 ++ (t.parts k).2)

/-- The bytes absorbed and the bytes left make up the chunk's message. -/
def LaneOk (t : Task) (c : Sha256.Compress) (l : Lane) : Prop :=
  ∃ m, Sha256.Absorbed c l.h m ∧ m ++ (l.parts.1 ++ l.parts.2) = t.message l.k

def Lane.Ready (l : Lane) : Prop := l.h.gap = 0 ∧ 64 ≤ l.parts.1.length

def Lane.left (l : Lane) : Nat := l.parts.1.length + l.parts.2.length

variable {t : Task} {c : Sha256.Compress}

theorem laneOk_new (k : Nat) : LaneOk t c (Lane.new c k (t.parts k)) :=
  ⟨_, (Sha256.Absorbed.new c).update _, rfl⟩

theorem LaneOk.absorb {l : Lane} (hl : LaneOk t c l) (n : Nat) :
    LaneOk t c { l with
      h := l.h.update c (l.parts.1.take n), parts := (l.parts.1.drop n, l.parts.2) } := by
  obtain ⟨m, hm, he⟩ := hl
  refine ⟨_, hm.update _, ?_⟩
  simp only [List.append_assoc]
  rw [← List.append_assoc (l.parts.1.take n), List.take_append_drop]
  exact he

theorem LaneOk.advance {l : Lane} (hl : LaneOk t c l) (h1 : l.parts.1 = []) :
    LaneOk t c { l with parts := (l.parts.2, []) } := by
  obtain ⟨m, hm, he⟩ := hl
  rw [h1, List.nil_append] at he
  exact ⟨m, hm, by simpa using he⟩

/-- **`settle` keeps the message and stops at whole blocks or at the end.** -/
theorem settle_spec (l : Lane) (hl : LaneOk t c l) :
    LaneOk t c (l.settle c).2 ∧ (l.settle c).2.k = l.k ∧ (l.settle c).2.left ≤ l.left ∧
      (0 < (l.settle c).1 → (l.settle c).2.Ready) ∧
      ((l.settle c).1 = 0 → (l.settle c).2.parts = ([], [])) := by
  induction l using Lane.settle.induct (c := c) with
  | case1 l h1 h2 =>
    rw [Lane.settle, if_pos h1, if_pos h2]
    exact ⟨hl, rfl, Nat.le_refl _, fun h => absurd h (by simp), fun _ => Prod.ext h1 h2⟩
  | case2 l h1 h2 ih =>
    rw [Lane.settle, if_pos h1, if_neg h2]
    obtain ⟨i1, i2, i3, i4, i5⟩ := ih (hl.advance h1)
    refine ⟨i1, i2, Nat.le_trans i3 ?_, i4, i5⟩
    simp only [Lane.left, List.length_nil]
    omega
  | case3 l h1 h2 =>
    rw [Lane.settle, if_neg h1, if_pos h2]
    refine ⟨hl, rfl, Nat.le_refl _, fun _ => h2, fun h => ?_⟩
    simp only at h
    omega
  | case4 l h1 h2 take ih =>
    rw [Lane.settle, if_neg h1, if_neg h2]
    obtain ⟨i1, i2, i3, i4, i5⟩ := ih (hl.absorb _)
    refine ⟨i1, i2, Nat.le_trans i3 ?_, i4, i5⟩
    simp only [Lane.left, List.length_drop]
    omega

theorem LaneOk.settleStep {l : Lane} (hl : LaneOk t c l) : LaneOk t c (l.settleStep c).2 := by
  rw [Lane.settleStep]
  by_cases h1 : l.parts.1 = []
  · rw [if_pos h1]
    by_cases h2 : l.parts.2 = []
    · rw [if_pos h2]
      exact hl
    · rw [if_neg h2]
      exact hl.advance h1
  · rw [if_neg h1]
    by_cases h3 : l.h.gap = 0 ∧ 64 ≤ l.parts.1.length
    · rw [if_pos h3]
      exact hl
    · rw [if_neg h3]
      exact hl.absorb _

theorem LaneOk.iterate_settleStep {l : Lane} (hl : LaneOk t c l) (j : Nat) :
    LaneOk t c ((fun l => (l.settleStep c).2)^[j] l) := by
  induction j with
  | zero => exact hl
  | succ j ih =>
    rw [Function.iterate_succ_apply']
    exact ih.settleStep

/-- **The loop in `settle` ends**, within twice as many turns as there are bytes left. -/
theorem settleLoop_eq (l : Lane) :
    ∀ fuel, l.parts.1.length + 2 * l.parts.2.length < fuel →
      l.settleLoop c fuel = some (l.settle c) := by
  induction l using Lane.settle.induct (c := c) with
  | case1 l h1 h2 =>
    rintro (_ | fuel) hf
    · omega
    · rw [Lane.settleLoop, Lane.settleStep, if_pos h1, if_pos h2, Lane.settle, if_pos h1, if_pos h2]
  | case2 l h1 h2 ih =>
    rintro (_ | fuel) hf
    · omega
    · have hpos := List.length_pos_iff.mpr h2
      rw [Lane.settleLoop, Lane.settleStep, if_pos h1, if_neg h2, Lane.settle, if_pos h1, if_neg h2]
      apply ih
      simp only [List.length_nil]
      omega
  | case3 l h1 h2 =>
    rintro (_ | fuel) hf
    · omega
    · rw [Lane.settleLoop, Lane.settleStep, if_neg h1, if_pos h2, Lane.settle, if_neg h1, if_pos h2]
  | case4 l h1 h2 take ih =>
    rintro (_ | fuel) hf
    · omega
    · have hpos := List.length_pos_iff.mpr h1
      have htake : 0 < take := by
        simp only [take]
        split <;> omega
      rw [Lane.settleLoop, Lane.settleStep, if_neg h1, if_neg h2, Lane.settle, if_neg h1, if_neg h2]
      apply ih
      simp only [List.length_drop, take] at htake ⊢
      omega

theorem LaneOk.finish {l : Lane} (hl : LaneOk t c l) (hnil : l.parts = ([], [])) :
    l.h.finish c = Sha256.hash c (t.message l.k) := by
  obtain ⟨m, hm, he⟩ := hl
  rw [hm.finish, ← he, hnil]
  simp

/-! ### The invariant of the two-lane worker -/

def laneKeys : Option Lane → Multiset Nat
  | some l => {l.k}
  | none => 0

def DuoPhase.keys : DuoPhase → Multiset Nat
  | .start _ k => {k}
  | _ => 0

def Duo.held (w : Duo) : Multiset Nat := laneKeys w.lane0 + laneKeys w.lane1 + w.phase.keys

def DuoPhase.rank : DuoPhase → Nat
  | .fill false => 12
  | .load false => 11
  | .claim false => 10
  | .start false _ => 9
  | .settle false => 8
  | .fill true => 7
  | .load true => 6
  | .claim true => 5
  | .start true _ => 4
  | .settle true => 3
  | .feed => 2
  | .done => 0

def laneWeight : Option Lane → Nat
  | some l => 16 * (l.left + 1)
  | none => 0

def DuoPhase.weight (t : Task) : DuoPhase → Nat
  | .start _ k => t.cost k
  | _ => 0

def Duo.weight (t : Task) (w : Duo) : Nat :=
  laneWeight w.lane0 + laneWeight w.lane1 + w.phase.weight t + w.phase.rank

/-- What the position in the control flow says about the lanes. -/
def PhaseOk (total next : Nat) (w : Duo) : Prop :=
  match w.phase with
  | .fill false => True
  | .load false => w.lane0 = none
  | .claim false => w.lane0 = none
  | .start false _ => w.lane0 = none
  | .settle false => w.lane0.isSome
  | .fill true => ∀ l ∈ w.lane0, l.Ready
  | .load true => (∀ l ∈ w.lane0, l.Ready) ∧ w.lane0.isSome ∧ w.lane1 = none
  | .claim true => (∀ l ∈ w.lane0, l.Ready) ∧ w.lane1 = none
  | .start true _ => (∀ l ∈ w.lane0, l.Ready) ∧ w.lane1 = none
  | .settle true => (∀ l ∈ w.lane0, l.Ready) ∧ w.lane1.isSome
  | .feed =>
    (∀ l ∈ w.lane0, l.Ready) ∧ (∀ l ∈ w.lane1, l.Ready) ∧
      (w.lane0 = none → w.lane1 = none → total ≤ next)
  | .done => w.lane0 = none ∧ w.lane1 = none ∧ total ≤ next

structure DuoInv (t : Task) (c : Sha256.Compress) (next : Nat) (w : Duo) : Prop where
  lane0 : ∀ l ∈ w.lane0, LaneOk t c l
  lane1 : ∀ l ∈ w.lane1, LaneOk t c l
  out : ∀ x ∈ w.out, x.2 = record64 (Sha256.hash c (t.message x.1))
  phase : PhaseOk t.total next w

theorem DuoInv.mono {a b : Nat} {w : Duo} (h : DuoInv t c a w) (hab : a ≤ b) : DuoInv t c b w := by
  refine ⟨h.lane0, h.lane1, h.out, ?_⟩
  obtain ⟨phase, l0, l1, out⟩ := w
  have hp := h.phase
  cases phase with
  | fill i => cases i <;> exact hp
  | load i => cases i <;> exact hp
  | claim i => cases i <;> exact hp
  | start i k => cases i <;> exact hp
  | settle i => cases i <;> exact hp
  | feed => exact ⟨hp.1, hp.2.1, fun h0 h1 => Nat.le_trans (hp.2.2 h0 h1) hab⟩
  | done => exact ⟨hp.1, hp.2.1, Nat.le_trans hp.2.2 hab⟩

/-- The ledger entry of one step: what `Lib.Kind.Sound` asks for. -/
structure DuoStep (t : Task) (c : Sha256.Compress) (a : Nat) (w : Duo)
    (r : Nat × List Nat × Duo) : Prop where
  next : r.1 = a ∨ r.1 = a + 1
  held : r.2.2.held + (duoKind t c).keys r.2.2
    = w.held + (duoKind t c).keys w + fresh t.total a r.1
  seen : r.2.2.phase.keys + (r.2.1 : List Nat) = w.phase.keys + fresh t.total a r.1
  inv : DuoInv t c r.1 r.2.2
  weight : r.2.2.weight t < w.weight t + if r.1 = a + 1 ∧ a < t.total then t.cost a else 0

theorem fresh_self (total a : Nat) : fresh total a a = 0 := if_neg (by omega)

theorem duoStep_jump {a : Nat} {q p : DuoPhase} {l0 l1 : Option Lane} {out : List (Nat × Bytes)}
    (h : DuoInv t c a ⟨q, l0, l1, out⟩) (hq : q.keys = 0) (hp : p.keys = 0)
    (hw : p.weight t = 0) (hr : p.rank < q.rank) (hok : PhaseOk t.total a ⟨p, l0, l1, out⟩) :
    DuoStep t c a ⟨q, l0, l1, out⟩ (a, [], ⟨p, l0, l1, out⟩) where
  next := Or.inl rfl
  held := by
    simp only [Duo.held, hq, hp, fresh_self, add_zero]
    rfl
  seen := by simp only [hq, hp, fresh_self, Multiset.coe_nil]
  inv := ⟨h.lane0, h.lane1, h.out, hok⟩
  weight := by
    simp only [Duo.weight, hw]
    omega

theorem duoStep_fill {a : Nat} {i : Bool} {l0 l1 : Option Lane} {out : List (Nat × Bytes)}
    (h : DuoInv t c a ⟨.fill i, l0, l1, out⟩) :
    DuoStep t c a ⟨.fill i, l0, l1, out⟩ (Duo.step t c a ⟨.fill i, l0, l1, out⟩) := by
  have hp := h.phase
  cases i with
  | false =>
    cases l0 with
    | some l => exact duoStep_jump h rfl rfl rfl (by decide) rfl
    | none =>
      cases l1 with
      | some l => exact duoStep_jump (p := .load false) h rfl rfl rfl (by decide) rfl
      | none => exact duoStep_jump (p := .claim false) h rfl rfl rfl (by decide) rfl
  | true =>
    cases l1 with
    | some l => exact duoStep_jump h rfl rfl rfl (by decide) ⟨hp, rfl⟩
    | none =>
      cases l0 with
      | some l => exact duoStep_jump (p := .load true) h rfl rfl rfl (by decide) ⟨hp, rfl, rfl⟩
      | none => exact duoStep_jump (p := .claim true) h rfl rfl rfl (by decide) ⟨hp, rfl⟩

theorem duoStep_load {a : Nat} {i : Bool} {l0 l1 : Option Lane} {out : List (Nat × Bytes)}
    (h : DuoInv t c a ⟨.load i, l0, l1, out⟩) :
    DuoStep t c a ⟨.load i, l0, l1, out⟩ (Duo.step t c a ⟨.load i, l0, l1, out⟩) := by
  have hp := h.phase
  by_cases hfew : t.total - a < t.threads
  · simp only [Duo.step, if_pos hfew]
    cases i with
    | false =>
      obtain rfl : l0 = none := hp
      exact duoStep_jump h rfl rfl rfl (by decide) (fun l hl => nomatch hl)
    | true =>
      obtain ⟨hr, hs, rfl⟩ : (∀ l ∈ l0, l.Ready) ∧ l0.isSome ∧ l1 = none := hp
      refine duoStep_jump h rfl rfl rfl (by decide) ⟨hr, (fun l hl => nomatch hl), ?_⟩
      intro (h0 : l0 = none) _
      rw [h0] at hs
      cases hs
  · simp only [Duo.step, if_neg hfew]
    cases i with
    | false => exact duoStep_jump h rfl rfl rfl (by decide) hp
    | true => exact duoStep_jump h rfl rfl rfl (by decide) ⟨hp.1, hp.2.2⟩

theorem duoStep_claim {a : Nat} {i : Bool} {l0 l1 : Option Lane} {out : List (Nat × Bytes)}
    (h : DuoInv t c a ⟨.claim i, l0, l1, out⟩) :
    DuoStep t c a ⟨.claim i, l0, l1, out⟩ (Duo.step t c a ⟨.claim i, l0, l1, out⟩) := by
  have hp := h.phase
  have hi := h.mono (Nat.le_succ a)
  by_cases hend : t.total ≤ a
  · -- no chunk is left: the counter moves, the worker goes on with what it has
    have hfresh : fresh t.total a (a + 1) = 0 := if_neg (by omega)
    have hkeys : (DuoPhase.after i).keys = 0 := by cases i <;> rfl
    have hweight : (DuoPhase.after i).weight t = 0 := by cases i <;> rfl
    have hrank : (DuoPhase.after i).rank < (DuoPhase.claim i).rank := by cases i <;> decide
    simp only [Duo.step, if_pos hend]
    refine ⟨Or.inr rfl, ?_, ?_, ⟨hi.lane0, hi.lane1, hi.out, ?_⟩, ?_⟩
    · simp only [Duo.held, hkeys, hfresh, show (DuoPhase.claim i).keys = 0 from rfl, add_zero]
      rfl
    · simp only [hkeys, hfresh]
      rfl
    · cases i with
      | false =>
        obtain rfl : l0 = none := hp
        exact fun l hl => nomatch hl
      | true =>
        obtain ⟨hr, rfl⟩ : (∀ l ∈ l0, l.Ready) ∧ l1 = none := hp
        exact ⟨hr, (fun l hl => nomatch hl), fun _ _ => Nat.le_succ_of_le hend⟩
    · simp only [Duo.weight, hweight]
      omega
  · have hfresh : fresh t.total a (a + 1) = {a} := if_pos ⟨rfl, by omega⟩
    have hrank : (DuoPhase.start i a).rank < (DuoPhase.claim i).rank := by
      cases i <;> exact Nat.lt_succ_self _
    simp only [Duo.step, if_neg hend]
    refine ⟨Or.inr rfl, ?_, ?_, ⟨hi.lane0, hi.lane1, hi.out, ?_⟩, ?_⟩
    · simp only [Duo.held, hfresh, DuoPhase.keys, add_zero]
      exact add_right_comm _ _ _
    · simp only [hfresh, DuoPhase.keys]
      exact add_comm _ _
    · cases i <;> exact hp
    · have hlt : a < t.total := by omega
      simp only [Duo.weight, DuoPhase.weight, hlt, and_self, if_true]
      omega

theorem duoStep_start {a k : Nat} {i : Bool} {l0 l1 : Option Lane} {out : List (Nat × Bytes)}
    (h : DuoInv t c a ⟨.start i k, l0, l1, out⟩) :
    DuoStep t c a ⟨.start i k, l0, l1, out⟩ (Duo.step t c a ⟨.start i k, l0, l1, out⟩) := by
  have hp := h.phase
  have hnew : ∀ l ∈ some (Lane.new c k (t.parts k)), LaneOk t c l := by
    rintro l ⟨⟩
    exact laneOk_new k
  have hcost : laneWeight (some (Lane.new c k (t.parts k))) < t.cost k := by
    simp only [laneWeight, Lane.left, Lane.new, Task.cost, Task.chunkLen]
    omega
  cases i with
  | false =>
    obtain rfl : l0 = none := hp
    refine ⟨Or.inl rfl, ?_, ?_, ⟨hnew, h.lane1, h.out, rfl⟩, ?_⟩
    · simp only [Duo.step, Duo.setLane, Duo.held, laneKeys, DuoPhase.keys, fresh_self, zero_add,
        Lane.new, add_comm]
      rfl
    · simp only [Duo.step, Duo.setLane, DuoPhase.keys, fresh_self]
      exact add_comm _ _
    · simp only [Duo.step, Duo.setLane, Duo.weight, DuoPhase.weight, DuoPhase.rank]
      simp only [laneWeight] at hcost ⊢
      omega
  | true =>
    obtain ⟨hr, rfl⟩ : (∀ l ∈ l0, l.Ready) ∧ l1 = none := hp
    refine ⟨Or.inl rfl, ?_, ?_, ⟨h.lane0, hnew, h.out, ⟨hr, rfl⟩⟩, ?_⟩
    · simp only [Duo.step, Duo.setLane, Duo.held, laneKeys, DuoPhase.keys, fresh_self, add_zero,
        Lane.new]
      rfl
    · simp only [Duo.step, Duo.setLane, DuoPhase.keys, fresh_self]
      exact add_comm _ _
    · simp only [Duo.step, Duo.setLane, Duo.weight, DuoPhase.weight, DuoPhase.rank]
      simp only [laneWeight] at hcost ⊢
      omega

theorem duoStep_settle {a : Nat} {i : Bool} {l0 l1 : Option Lane} {out : List (Nat × Bytes)}
    (h : DuoInv t c a ⟨.settle i, l0, l1, out⟩) :
    DuoStep t c a ⟨.settle i, l0, l1, out⟩ (Duo.step t c a ⟨.settle i, l0, l1, out⟩) := by
  have hp := h.phase
  have hout : ∀ {l : Lane}, LaneOk t c l → l.parts = ([], []) →
      ∀ x ∈ out ++ [(l.k, record64 (l.h.finish c))],
        x.2 = record64 (Sha256.hash c (t.message x.1)) := by
    intro l hl hnil x hx
    rcases List.mem_append.mp hx with hx | hx
    · exact h.out x hx
    · rw [List.mem_singleton.mp hx, hl.finish hnil]
  cases i with
  | false =>
    obtain ⟨l, rfl⟩ := Option.isSome_iff_exists.mp hp
    obtain ⟨hok, hk, hleft, hready, hnil⟩ := settle_spec l (h.lane0 l rfl)
    by_cases hn : 0 < (l.settle c).1
    · simp only [Duo.step, Duo.lane, if_pos hn]
      refine ⟨Or.inl rfl, ?_, ?_, ⟨?_, h.lane1, h.out, ?_⟩, ?_⟩
      · simp only [Duo.setLane, Duo.held, laneKeys, DuoPhase.after, DuoPhase.keys, fresh_self, hk,
          add_zero]
        rfl
      · simp only [DuoPhase.after, DuoPhase.keys, fresh_self, Multiset.coe_nil]
      · rintro x ⟨⟩
        exact hok
      · rintro x ⟨⟩
        exact hready hn
      · simp only [Duo.setLane, Duo.weight, laneWeight, DuoPhase.after, DuoPhase.weight,
          DuoPhase.rank]
        omega
    · simp only [Duo.step, Duo.lane, if_neg hn]
      refine ⟨Or.inl rfl, ?_, ?_, ⟨fun l hl => (nomatch hl), h.lane1,
        hout hok (hnil (by omega)), trivial⟩, ?_⟩
      · rw [keys_append (duoKind t c) (w := ⟨.settle false, some l, l1, out⟩) rfl]
        simp only [Duo.setLane, Duo.held, laneKeys, DuoPhase.keys, fresh_self, hk, zero_add,
          add_assoc, add_comm, add_left_comm]
      · simp only [DuoPhase.keys, fresh_self, Multiset.coe_nil]
      · simp only [Duo.setLane, Duo.weight, laneWeight, DuoPhase.weight, DuoPhase.rank]
        omega
  | true =>
    obtain ⟨hr, hsome⟩ : (∀ l ∈ l0, l.Ready) ∧ l1.isSome := hp
    obtain ⟨l, rfl⟩ := Option.isSome_iff_exists.mp hsome
    obtain ⟨hok, hk, hleft, hready, hnil⟩ := settle_spec l (h.lane1 l rfl)
    by_cases hn : 0 < (l.settle c).1
    · simp only [Duo.step, Duo.lane, if_pos hn]
      refine ⟨Or.inl rfl, ?_, ?_, ⟨h.lane0, ?_, h.out, ⟨hr, ?_, fun _ h1 => (nomatch h1)⟩⟩, ?_⟩
      · simp only [Duo.setLane, Duo.held, laneKeys, DuoPhase.after, DuoPhase.keys, fresh_self, hk,
          add_zero]
        rfl
      · simp only [DuoPhase.after, DuoPhase.keys, fresh_self, Multiset.coe_nil]
      · rintro x ⟨⟩
        exact hok
      · rintro x ⟨⟩
        exact hready hn
      · simp only [Duo.setLane, Duo.weight, laneWeight, DuoPhase.after, DuoPhase.weight,
          DuoPhase.rank]
        omega
    · simp only [Duo.step, Duo.lane, if_neg hn]
      refine ⟨Or.inl rfl, ?_, ?_, ⟨h.lane0, fun l hl => (nomatch hl),
        hout hok (hnil (by omega)), hr⟩, ?_⟩
      · rw [keys_append (duoKind t c) (w := ⟨.settle true, l0, some l, out⟩) rfl]
        simp only [Duo.setLane, Duo.held, laneKeys, DuoPhase.keys, fresh_self, hk, zero_add,
          add_assoc, add_comm, add_left_comm]
      · simp only [DuoPhase.keys, fresh_self, Multiset.coe_nil]
      · simp only [Duo.setLane, Duo.weight, laneWeight, DuoPhase.weight, DuoPhase.rank]
        omega

/-! ### Feeding the kernels -/

theorem LaneOk.blocks {l : Lane} (hl : LaneOk t c l) {n : Nat} (hn : n ≤ l.parts.1.length / 64)
    {h' : Sha256} (hh : ∀ m, Sha256.Absorbed c l.h m →
      Sha256.Absorbed c h' (m ++ l.parts.1.take (n * 64))) :
    LaneOk t c { (l.takeBlocks n).2 with h := h' } ∧
      (l.takeBlocks n).2.left + n * 64 = l.left := by
  obtain ⟨m, hm, he⟩ := hl
  refine ⟨⟨_, hh m hm, ?_⟩, ?_⟩
  · simp only [Lane.takeBlocks, List.append_assoc]
    rw [← List.append_assoc (l.parts.1.take _), List.take_append_drop]
    exact he
  · simp only [Lane.takeBlocks, Lane.left, List.length_drop]
    omega

theorem length_takeBlocks {l : Lane} {n : Nat} (hn : n ≤ l.parts.1.length / 64) :
    (l.takeBlocks n).1.length % 64 = 0 := by
  simp only [Lane.takeBlocks, List.length_take]
  omega

theorem duoStep_feed {a : Nat} {l0 l1 : Option Lane} {out : List (Nat × Bytes)}
    (h : DuoInv t c a ⟨.feed, l0, l1, out⟩) :
    DuoStep t c a ⟨.feed, l0, l1, out⟩ (Duo.step t c a ⟨.feed, l0, l1, out⟩) := by
  obtain ⟨hr0, hr1, hend⟩ := h.phase
  have hblocks : ∀ {l : Lane}, l.Ready → 1 ≤ l.parts.1.length / 64 := by
    intro l hl
    have := hl.2
    omega
  cases l0 with
  | none =>
    cases l1 with
    | none =>
      exact duoStep_jump (p := .done) h rfl rfl rfl (by decide) ⟨rfl, rfl, hend rfl rfl⟩
    | some l =>
      have hpos := hblocks (hr1 l rfl)
      obtain ⟨hok, hleft⟩ := (h.lane1 l rfl).blocks (Nat.le_refl _) (fun m hm => hm.update _)
      refine ⟨Or.inl rfl, ?_, ?_, ⟨h.lane0, ?_, h.out, trivial⟩, ?_⟩
      · simp only [Duo.step, Duo.feed, Duo.held, laneKeys, Lane.takeBlocks, DuoPhase.keys,
          fresh_self, add_zero]
        rfl
      · simp only [Duo.step, Duo.feed, DuoPhase.keys, fresh_self, Multiset.coe_nil]
      · rintro x ⟨⟩
        exact hok
      · simp only [Duo.step, Duo.feed, Duo.weight, laneWeight, DuoPhase.weight, DuoPhase.rank]
        simp only [Lane.left] at hleft ⊢
        omega
  | some l =>
    have hpos := hblocks (hr0 l rfl)
    cases l1 with
    | none =>
      obtain ⟨hok, hleft⟩ := (h.lane0 l rfl).blocks (Nat.le_refl _) (fun m hm => hm.update _)
      refine ⟨Or.inl rfl, ?_, ?_, ⟨?_, h.lane1, h.out, trivial⟩, ?_⟩
      · simp only [Duo.step, Duo.feed, Duo.held, laneKeys, Lane.takeBlocks, DuoPhase.keys,
          fresh_self, add_zero]
        rfl
      · simp only [Duo.step, Duo.feed, DuoPhase.keys, fresh_self, Multiset.coe_nil]
      · rintro x ⟨⟩
        exact hok
      · simp only [Duo.step, Duo.feed, Duo.weight, laneWeight, DuoPhase.weight, DuoPhase.rank]
        simp only [Lane.left] at hleft ⊢
        omega
    | some l' =>
      have hpos' := hblocks (hr1 l' rfl)
      -- both lanes are at a block boundary, so the two-way kernel appends to both messages
      have hmin := Nat.min_le_left (l.parts.1.length / 64) (l'.parts.1.length / 64)
      have hmin' := Nat.min_le_right (l.parts.1.length / 64) (l'.parts.1.length / 64)
      obtain ⟨hok, hleft⟩ := (h.lane0 l rfl).blocks hmin
        (fun m hm => hm.compressBlocks (hr0 l rfl).1 (length_takeBlocks hmin))
      obtain ⟨hok', hleft'⟩ := (h.lane1 l' rfl).blocks hmin'
        (fun m hm => hm.compressBlocks (hr1 l' rfl).1 (length_takeBlocks hmin'))
      have hone : 1 ≤ min (l.parts.1.length / 64) (l'.parts.1.length / 64) :=
        Nat.le_min.mpr ⟨hpos, hpos'⟩
      refine ⟨Or.inl rfl, ?_, ?_, ⟨?_, ?_, h.out, trivial⟩, ?_⟩
      · simp only [Duo.step, Duo.feed, Duo.held, laneKeys, Lane.takeBlocks, DuoPhase.keys,
          fresh_self, add_zero]
        rfl
      · simp only [Duo.step, Duo.feed, DuoPhase.keys, fresh_self, Multiset.coe_nil]
      · rintro x ⟨⟩
        exact hok
      · rintro x ⟨⟩
        exact hok'
      · simp only [Duo.step, Duo.feed, Duo.weight, laneWeight, DuoPhase.weight, DuoPhase.rank]
        simp only [Lane.left] at hleft hleft' ⊢
        omega

/-- **Step lemma of the two-lane worker.** -/
theorem duoStep {a : Nat} {w : Duo} (h : DuoInv t c a w) (hnd : (duoKind t c).done w = false) :
    DuoStep t c a w ((duoKind t c).step a w) := by
  obtain ⟨phase, l0, l1, out⟩ := w
  cases phase with
  | fill i => exact duoStep_fill h
  | load i => exact duoStep_load h
  | claim i => exact duoStep_claim h
  | start i k => exact duoStep_start h
  | settle i => exact duoStep_settle h
  | feed => exact duoStep_feed h
  | done => simp [duoKind] at hnd

/-- **The two-lane worker keeps the ledger.** -/
def duo (t : Task) (c : Sha256.Compress) :
    (duoKind t c).Sound t.total (fun k => record64 (Sha256.hash c (t.message k))) where
  held := Duo.held
  unseen w := w.phase.keys
  Inv := DuoInv t c
  weight := Duo.weight t
  cost := t.cost
  start_held := rfl
  start_unseen := rfl
  start_out := rfl
  start_inv := ⟨fun l hl => (nomatch hl), fun l hl => (nomatch hl), fun x hx => (nomatch hx), trivial⟩
  inv_mono _ _ _ h hab := h.mono hab
  inv_out _ _ h := h.out
  inv_done a w h hd := by
    obtain ⟨phase, l0, l1, out⟩ := w
    obtain rfl : phase = .done := by simpa [duoKind] using hd
    obtain ⟨h0, h1, hle⟩ := h.phase
    obtain rfl : l0 = none := h0
    obtain rfl : l1 = none := h1
    exact ⟨hle, rfl, rfl⟩
  step_next _ _ h hnd := (duoStep h hnd).next
  step_held _ _ h hnd := (duoStep h hnd).held
  step_seen _ _ h hnd := (duoStep h hnd).seen
  step_inv _ _ h hnd := (duoStep h hnd).inv
  step_weight _ _ h hnd := (duoStep h hnd).weight

/-! ### Reachable pools -/

/-- What holds of a two-lane worker whenever it is looked at. -/
structure Duo.Safe (t : Task) (c : Sha256.Compress) (next : Nat) (w : Duo) : Prop where
  -- Absorbed and remaining bytes are the chunk's, also in the middle of `settle`.
  lanes : ∀ i l, w.lane i = some l → ∀ j, LaneOk t c ((fun l => (l.settleStep c).2)^[j] l)
  -- `settle` is called on a lane that is there.
  settles : ∀ i, w.phase = .settle i → (w.lane i).isSome
  -- The call to `update2`: both hashers at a block boundary, equal slices of whole blocks.
  kernel : w.phase = .feed → ∀ a b, w.lane0 = some a → w.lane1 = some b →
    a.h.gap = 0 ∧ b.h.gap = 0 ∧ ∃ n > 0,
      n = min (a.parts.1.length / 64) (b.parts.1.length / 64) ∧
        (a.takeBlocks n).1.length = n * 64 ∧ (b.takeBlocks n).1.length = n * 64
  -- The loop exits with both lanes empty, when there is nothing left to claim.
  exits : w.phase = .done → w.lane0 = none ∧ w.lane1 = none ∧ t.total ≤ next

theorem DuoInv.safe {a : Nat} {w : Duo} (h : DuoInv t c a w) : w.Safe t c a := by
  obtain ⟨phase, l0, l1, out⟩ := w
  have hp := h.phase
  refine ⟨?_, ?_, ?_, ?_⟩
  · intro i l hl j
    cases i with
    | false => exact (h.lane0 l hl).iterate_settleStep j
    | true => exact (h.lane1 l hl).iterate_settleStep j
  · rintro i rfl
    cases i with
    | false => exact hp
    | true => exact hp.2
  · rintro rfl x y rfl rfl
    obtain ⟨hx, hy, -⟩ := hp
    obtain ⟨gx, lx⟩ := hx x rfl
    obtain ⟨gy, ly⟩ := hy y rfl
    refine ⟨gx, gy, _, ?_, rfl, ?_, ?_⟩
    · exact Nat.lt_min.mpr ⟨by omega, by omega⟩
    · simp only [Lane.takeBlocks, List.length_take]
      omega
    · simp only [Lane.takeBlocks, List.length_take]
      omega
  · rintro rfl
    exact hp

/-- **The two-lane workers, in every reachable state**: each is safe, every chunk claimed so far
is in exactly one lane or recorded exactly once, `settle` always returns, and every run that goes
on for long enough records every chunk once, with its digest. -/
theorem duo_reachable (c : Sha256.Compress) (parts : Nat → Bytes × Bytes) (total n : Nat) :
    let t : Task := ⟨parts, total, n + 1⟩
    let K := duoKind t c
    ∀ p, Relation.ReflTransGen (K.system (n + 1)).Step (K.init (n + 1)) p →
      (∀ w ∈ p.workers, w.Safe t c p.next) ∧
      (p.workers.map fun w => w.held + K.keys w).sum = Multiset.range (min p.next total) ∧
      (∀ l : Lane, ∃ fuel, l.settleLoop c fuel = some (l.settle c)) ∧
      ∃ enough, ∀ sched steps, enough ≤ steps →
        let q := (K.system (n + 1)).run sched steps p
        ((K.outcome q).map Prod.fst).Perm (List.range total) ∧
          ∀ x ∈ K.outcome q, x.2 = record64 (Sha256.hash c (t.message x.1)) := by
  intro t K p hp
  have hinv : (duo t c).PoolInv (n + 1) p := Kind.Sound.poolInv_of_reachable hp
  refine ⟨fun w hw => (hinv.inv w hw).safe, hinv.taken, fun l => ⟨_, settleLoop_eq l _ (Nat.lt_succ_self _)⟩,
    (duo t c).poolWeight p, ?_⟩
  intro sched steps hsteps q
  obtain ⟨hkeys, hval, -⟩ := Kind.Sound.result_of_poolInv (Nat.succ_pos n) sched hinv hsteps
  exact ⟨hkeys, hval⟩

/-- Three chunks of 71 bytes, in two parts each. -/
def exampleTask : Task := ⟨fun k => (List.replicate 70 (UInt8.ofNat k), [1]), 3, 2⟩

/-- From the state after the second worker's first step, two workers record all three chunks. -/
theorem duo_reachable_example : let K := duoKind exampleTask Sha2.compress
    ∃ enough, ∀ sched steps, enough ≤ steps →
      ((K.outcome ((K.system 2).run sched steps ((K.system 2).step (K.init 2) 1 ()))).map Prod.fst).Perm
        (List.range 3) := by
  intro K
  have hstep : (K.system 2).Step (K.init 2) ((K.system 2).step (K.init 2) 1 ()) :=
    ⟨1, (), by decide, rfl, rfl⟩
  obtain ⟨-, -, -, enough, h⟩ :=
    duo_reachable Sha2.compress exampleTask.parts 3 1 _ (.single hstep)
  exact ⟨enough, fun sched steps hsteps => (h sched steps hsteps).1⟩

end FastSigner.Digest

import Mathlib.Logic.Relation
import Mathlib.Data.Multiset.AddSub
import Mathlib.Algebra.BigOperators.Group.List.Basic

/-!
# Interleavings of actors

A `System` is a set of actors that take atomic steps on one global state, one at
a time.  A schedule says at every moment which of the actors that can move is
the next one, and what the environment does to that step (an I/O failure, say);
`run` follows a schedule.  Quantifying over schedules is quantifying over
interleavings: `exists_schedule` says that every sequence of steps is the run of
some schedule, and `exists_schedule_of_quiescent` that a complete one is the run of
any length that suffices.

* `run_invariant`: what holds at the start and survives every step holds at the
  end of every run.
* `run_quiescent`: if a measure falls with every step, a run that is long enough
  ends in a state where nobody can move.
-/

namespace Lib

/-- Actors `0, …, actors - 1` on a global state `σ`; a step also takes what the environment
decides. -/
structure System (σ ε : Type*) where
  actors : Nat
  enabled : σ → Nat → Bool
  step : σ → Nat → ε → σ

namespace System

variable {σ ε : Type*} (sys : System σ ε)

/-- Some enabled actor takes a step. -/
def Step (s s' : σ) : Prop :=
  ∃ i e, i < sys.actors ∧ sys.enabled s i = true ∧ s' = sys.step s i e

def ready (s : σ) : List Nat := (List.range sys.actors).filter (sys.enabled s)

/-- One scheduled step; nothing happens when nobody can move. -/
def advance (c : Nat × ε) (s : σ) : σ :=
  match (sys.ready s)[c.1 % (sys.ready s).length]? with
  | none => s
  | some i => sys.step s i c.2

def run (sched : Nat → Nat × ε) : Nat → σ → σ
  | 0, s => s
  | n + 1, s => run (fun k => sched (k + 1)) n (sys.advance (sched 0) s)

variable {sys}

theorem mem_ready {s : σ} {i : Nat} :
    i ∈ sys.ready s ↔ i < sys.actors ∧ sys.enabled s i = true := by
  rw [ready, List.mem_filter, List.mem_range]

theorem advance_cases (c : Nat × ε) (s : σ) :
    (sys.ready s = [] ∧ sys.advance c s = s) ∨
      ∃ i, i < sys.actors ∧ sys.enabled s i = true ∧ sys.advance c s = sys.step s i c.2 := by
  by_cases hr : sys.ready s = []
  · exact Or.inl ⟨hr, by simp [advance, hr]⟩
  · have hlt : c.1 % (sys.ready s).length < (sys.ready s).length :=
      Nat.mod_lt _ (List.length_pos_iff.mpr hr)
    have hmem := mem_ready.mp (List.getElem_mem hlt)
    refine Or.inr ⟨(sys.ready s)[c.1 % (sys.ready s).length], hmem.1, hmem.2, ?_⟩
    rw [advance, List.getElem?_eq_getElem hlt]

/-- **Invariant rule.**  `Q` is what is known of the environment's choices. -/
theorem run_invariant {Inv : σ → Prop} {Q : ε → Prop}
    (hstep : ∀ s i e, Inv s → Q e → i < sys.actors → sys.enabled s i = true →
      Inv (sys.step s i e)) :
    ∀ (n : Nat) (sched : Nat → Nat × ε) (s : σ), (∀ k, Q (sched k).2) → Inv s →
      Inv (sys.run sched n s) := by
  intro n
  induction n with
  | zero => intro sched s _ hs; exact hs
  | succ n ih =>
    intro sched s hQ hs
    rw [run]
    refine ih _ _ (fun k => hQ (k + 1)) ?_
    rcases advance_cases (sched 0) s with ⟨-, he⟩ | ⟨i, hi, hen, he⟩
    · rw [he]
      exact hs
    · rw [he]
      exact hstep s i _ hs (hQ 0) hi hen

/-- **What holds at the start and survives every step holds in every reachable state.** -/
theorem reachable_invariant {Inv : σ → Prop}
    (hstep : ∀ s i e, Inv s → i < sys.actors → sys.enabled s i = true → Inv (sys.step s i e))
    {s s' : σ} (hs : Inv s) (h : Relation.ReflTransGen sys.Step s s') : Inv s' := by
  induction h with
  | refl => exact hs
  | @tail t u _ htu ih =>
    obtain ⟨i, e, hi, hen, rfl⟩ := htu
    exact hstep t i e ih hi hen

theorem run_of_ready_nil {s : σ} (h : sys.ready s = []) :
    ∀ (n : Nat) (sched : Nat → Nat × ε), sys.run sched n s = s := by
  intro n
  induction n with
  | zero => intro sched; rfl
  | succ n ih =>
    intro sched
    have hadv : sys.advance (sched 0) s = s := by simp [advance, h]
    rw [run, hadv, ih]

/-- **Termination rule.**  Under an invariant, a measure that falls with every step bounds the
length of every run. -/
theorem run_quiescent (Inv : σ → Prop) (μ : σ → Nat)
    (hstep : ∀ s i e, Inv s → i < sys.actors → sys.enabled s i = true → Inv (sys.step s i e))
    (hμ : ∀ s i e, Inv s → i < sys.actors → sys.enabled s i = true →
      μ (sys.step s i e) < μ s) :
    ∀ (n : Nat) (sched : Nat → Nat × ε) (s : σ), Inv s → μ s ≤ n →
      sys.ready (sys.run sched n s) = [] := by
  intro n
  induction n with
  | zero =>
    intro sched s hs hle
    rw [run]
    by_contra hne
    obtain ⟨i, hi⟩ := List.exists_mem_of_ne_nil _ hne
    obtain ⟨hlt, hen⟩ := mem_ready.mp hi
    have := hμ s i (sched 0).2 hs hlt hen
    omega
  | succ n ih =>
    intro sched s hs hle
    rw [run]
    rcases advance_cases (sched 0) s with ⟨hr, he⟩ | ⟨i, hi, hen, he⟩
    · rw [he, run_of_ready_nil hr, hr]
    · rw [he]
      have hlt := hμ s i (sched 0).2 hs hi hen
      exact ih _ _ (hstep s i _ hs hi hen) (by omega)

/-- **If the steps descend, every run comes to rest**, however long that takes. -/
theorem exists_quiescent {lt : σ → σ → Prop} (hwf : WellFounded lt)
    (hlt : ∀ s i e, i < sys.actors → sys.enabled s i = true → lt (sys.step s i e) s) :
    ∀ (s : σ) (sched : Nat → Nat × ε), ∃ n, sys.ready (sys.run sched n s) = [] := by
  intro s
  induction s using hwf.induction with
  | _ s ih =>
    intro sched
    rcases advance_cases (sched 0) s with ⟨hr, -⟩ | ⟨i, hi, hen, he⟩
    · exact ⟨0, hr⟩
    · obtain ⟨n, hn⟩ := ih _ (hlt s i (sched 0).2 hi hen) fun k => sched (k + 1)
      refine ⟨n + 1, ?_⟩
      rw [run, he]
      exact hn

/-- **Every sequence of steps is the run of some schedule.** -/
theorem exists_schedule [Inhabited ε] {s s' : σ} (h : Relation.ReflTransGen sys.Step s s') :
    ∃ sched n, sys.run sched n s = s' := by
  induction h using Relation.ReflTransGen.head_induction_on with
  | refl => exact ⟨fun _ => (0, default), 0, rfl⟩
  | @head s t hst _ ih =>
    obtain ⟨sched, n, hrun⟩ := ih
    obtain ⟨i, e, hi, hen, rfl⟩ := hst
    obtain ⟨j, hj, hij⟩ := List.getElem_of_mem (mem_ready.mpr ⟨hi, hen⟩)
    refine ⟨fun k => if k = 0 then (j, e) else sched (k - 1), n + 1, ?_⟩
    have hadv : sys.advance (j, e) s = sys.step s i e := by
      simp only [advance, Nat.mod_eq_of_lt hj, List.getElem?_eq_getElem hj, hij]
    rw [run, if_pos rfl, hadv]
    exact hrun

theorem run_add (m : Nat) :
    ∀ (n : Nat) (sched : Nat → Nat × ε) (s : σ),
      sys.run sched (n + m) s = sys.run (fun k => sched (n + k)) m (sys.run sched n s) := by
  intro n
  induction n with
  | zero =>
    intro sched s
    simp only [Nat.zero_add, run]
  | succ n ih =>
    intro sched s
    rw [show n + 1 + m = n + m + 1 by omega, run, ih, run]
    congr 1
    funext k
    congr 1
    omega

/-- **Every execution that comes to rest is a scheduled run**, of any length that suffices. -/
theorem exists_schedule_of_quiescent [Inhabited ε] {Inv : σ → Prop} {μ : σ → Nat}
    (hstep : ∀ s i e, Inv s → i < sys.actors → sys.enabled s i = true → Inv (sys.step s i e))
    (hμ : ∀ s i e, Inv s → i < sys.actors → sys.enabled s i = true →
      μ (sys.step s i e) < μ s)
    {s s' : σ} {n : Nat} (hs : Inv s) (hn : μ s ≤ n) (h : Relation.ReflTransGen sys.Step s s')
    (hrest : sys.ready s' = []) : ∃ sched, sys.run sched n s = s' := by
  obtain ⟨sched, m, hrun⟩ := exists_schedule h
  refine ⟨sched, ?_⟩
  rcases Nat.le_total m n with hle | hle
  · obtain ⟨d, rfl⟩ := Nat.exists_eq_add_of_le hle
    rw [run_add, hrun, run_of_ready_nil hrest]
  · have hquiet := run_quiescent Inv μ hstep hμ n sched s hs hn
    obtain ⟨d, rfl⟩ := Nat.exists_eq_add_of_le hle
    rw [← hrun, run_add, run_of_ready_nil hquiet]

end System

/-! ### One element of a list changes -/

theorem sum_map_set {β M : Type*} [AddCommMonoid M] (f : β → M) :
    ∀ (l : List β) (i : Nat) (b a : β), l[i]? = some b →
      ((l.set i a).map f).sum + f b = (l.map f).sum + f a := by
  intro l
  induction l with
  | nil => intro i b a h; simp at h
  | cons c l ih =>
    intro i b a h
    cases i with
    | zero =>
      simp only [List.getElem?_cons_zero, Option.some.injEq] at h
      subst h
      simp only [List.set_cons_zero, List.map_cons, List.sum_cons]
      rw [add_right_comm, add_comm (f a), add_right_comm]
    | succ i =>
      rw [List.getElem?_cons_succ] at h
      simp only [List.set_cons_succ, List.map_cons, List.sum_cons]
      rw [add_assoc, ih i b a h, add_assoc]

theorem mem_set_cases {β : Type*} {l : List β} {i : Nat} {a x : β} (h : x ∈ l.set i a) :
    x = a ∨ x ∈ l := by
  rcases List.mem_or_eq_of_mem_set h with h | h
  · exact Or.inr h
  · exact Or.inl h

end Lib

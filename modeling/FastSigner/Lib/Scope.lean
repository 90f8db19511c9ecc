import FastSigner.Lib.System

/-!
# Scoped threads

A thread that starts others and waits for their results.  `Prog` is what the
main thread does: start a thread (`spawn` returns its handle), wait for one
(`join`), or be done.  A task is a computation without side effects, so it is
given by its value; what the schedule decides is when it is finished.

`eval` runs every thread on the spot.  `result_of_eval` says that an interleaved
run gives the same result, whatever the schedule.
-/

namespace Lib

/-- A program that starts and joins threads; `T k` is what a thread of kind `k` returns. -/
inductive Prog {κ : Type} (T : κ → Type) (ρ : Type)
  | ret (r : ρ)
  | spawn (k : κ) (v : T k) (next : Nat → Prog T ρ)
  | join (k : κ) (h : Nat) (next : T k → Prog T ρ)

namespace Prog

variable {κ : Type} [DecidableEq κ] {T : κ → Type} {ρ : Type}

def find (k : κ) (h : Nat) (vals : List (Sigma T)) : Option (T k) :=
  match vals[h]? with
  | some t => if e : t.1 = k then some (e ▸ t.2) else none
  | none => none

/-- The result when every thread runs to its end as soon as it is started. -/
def eval : List (Sigma T) → Prog T ρ → Option ρ
  | _, ret r => some r
  | vals, spawn k v next => eval (vals ++ [⟨k, v⟩]) (next vals.length)
  | vals, join k h next =>
    match find k h vals with
    | some v => eval vals (next v)
    | none => none

/-- An upper bound for the number of steps that are left, those of new threads included. -/
def weight : List (Sigma T) → Prog T ρ → Nat
  | _, ret _ => 0
  | vals, spawn k v next => weight (vals ++ [⟨k, v⟩]) (next vals.length) + 2
  | vals, join k h next =>
    match find k h vals with
    | some v => weight vals (next v) + 1
    | none => 0

/-! ### Interleavings -/

/-- The main thread, and the others with whether they are finished. -/
structure State (T : κ → Type) (ρ : Type) where
  main : Prog T ρ
  threads : List (Sigma T × Bool)

def State.vals (s : State T ρ) : List (Sigma T) := s.threads.map Prod.fst

def State.finished (s : State T ρ) (h : Nat) : Bool :=
  match s.threads[h]? with
  | some t => t.2
  | none => false

def State.running (s : State T ρ) (h : Nat) : Bool :=
  match s.threads[h]? with
  | some t => !t.2
  | none => false

def State.mainEnabled (s : State T ρ) : Bool :=
  match s.main with
  | ret _ => false
  | spawn _ _ _ => true
  | join k h _ => s.finished h && (find k h s.vals).isSome

def State.mainStep (s : State T ρ) : State T ρ :=
  match s.main with
  | ret _ => s
  | spawn k v next => ⟨next s.threads.length, s.threads ++ [(⟨k, v⟩, false)]⟩
  | join k h next =>
    match find k h s.vals with
    | some v => { s with main := next v }
    | none => s

def State.finish (s : State T ρ) (h : Nat) : State T ρ :=
  { s with threads := s.threads.modify h fun t => (t.1, true) }

/-- Actor `0` is the main thread, actor `h + 1` the thread with handle `h`. -/
def system (p : Prog T ρ) : System (State T ρ) Unit where
  actors := weight [] p + 1
  enabled s
    | 0 => s.mainEnabled
    | h + 1 => s.running h
  step s
    | 0, _ => s.mainStep
    | h + 1, _ => s.finish h

def start (p : Prog T ρ) : State T ρ := ⟨p, []⟩

def result? : Prog T ρ → Option ρ
  | ret r => some r
  | spawn _ _ _ => none
  | join _ _ _ => none

/-- What the main thread returns under a schedule. -/
def result (p : Prog T ρ) (sched : Nat → Nat × Unit) : Option ρ :=
  result? (p.system.run sched (weight [] p) p.start).main

def State.live (s : State T ρ) : Nat := s.threads.countP fun t => !t.2

/-- The main thread is on the way to `r`, and there are no more threads than foreseen. -/
structure Inv (n : Nat) (r : ρ) (s : State T ρ) : Prop where
  eval : s.main.eval s.vals = some r
  bound : s.threads.length + weight s.vals s.main ≤ n

omit [DecidableEq κ] in
@[simp] theorem vals_finish (s : State T ρ) (h : Nat) : (s.finish h).vals = s.vals := by
  rw [State.vals, State.vals, State.finish]
  simp only
  apply List.ext_getElem?
  intro i
  rw [List.getElem?_map, List.getElem?_modify, List.getElem?_map]
  cases s.threads[i]? with
  | none => rfl
  | some t => by_cases hi : h = i <;> simp [hi]

omit [DecidableEq κ] in
theorem live_finish {s : State T ρ} {h : Nat} (hr : s.running h = true) :
    (s.finish h).live + 1 = s.live := by
  rw [State.running] at hr
  cases ht : s.threads[h]? with
  | none =>
    rw [ht] at hr
    cases hr
  | some t =>
    rw [ht] at hr
    obtain ⟨hlt, hget⟩ := List.getElem?_eq_some_iff.mp ht
    have hlive : t.2 = false := by simpa using hr
    have hmod : s.threads.modify h (fun t => (t.1, true))
        = s.threads.take h ++ (t.1, true) :: s.threads.drop (h + 1) := by
      rw [List.modify_eq_take_cons_drop hlt, hget]
    have hsplit : s.threads = s.threads.take h ++ t :: s.threads.drop (h + 1) := by
      rw [← hget, List.getElem_cons_drop, List.take_append_drop]
    rw [State.live, State.live, State.finish, hmod]
    conv_rhs => rw [hsplit]
    rw [List.countP_append, List.countP_append, List.countP_cons_of_neg (by simp),
      List.countP_cons_of_pos (by simp [hlive])]
    omega

section Steps

variable {n : Nat} {r : ρ} {s : State T ρ}

theorem Inv.finish (hs : Inv n r s) (h : Nat) : Inv n r (s.finish h) := by
  refine ⟨?_, ?_⟩
  · rw [vals_finish]
    exact hs.eval
  · rw [vals_finish]
    simpa [State.finish] using hs.bound

theorem mainStep_cases (hs : Inv n r s) (he : s.mainEnabled = true) :
    (∃ k v next, s.main = spawn k v next ∧
      s.mainStep = ⟨next s.threads.length, s.threads ++ [(⟨k, v⟩, false)]⟩) ∨
    ∃ k h next v, s.main = join k h next ∧ find k h s.vals = some v ∧
      s.mainStep = { s with main := next v } := by
  cases hm : s.main with
  | ret r => simp [State.mainEnabled, hm] at he
  | spawn k v next =>
    refine Or.inl ⟨k, v, next, rfl, ?_⟩
    rw [State.mainStep, hm]
  | join k h next =>
    have heval := hs.eval
    rw [hm, eval] at heval
    cases hf : find k h s.vals with
    | none =>
      rw [hf] at heval
      cases heval
    | some v =>
      refine Or.inr ⟨k, h, next, v, rfl, hf, ?_⟩
      rw [State.mainStep, hm]
      simp only [hf]

theorem Inv.mainStep (hs : Inv n r s) (he : s.mainEnabled = true) :
    Inv n r s.mainStep ∧
      weight s.mainStep.vals s.mainStep.main + s.mainStep.live < weight s.vals s.main + s.live := by
  have heval := hs.eval
  have hbound := hs.bound
  rcases mainStep_cases hs he with ⟨k, v, next, hm, hstep⟩ | ⟨k, h, next, v, hm, hf, hstep⟩
  · have hvals : s.mainStep.vals = s.vals ++ [⟨k, v⟩] := by
      rw [hstep, State.vals, State.vals, List.map_append]
      rfl
    have hlen : s.vals.length = s.threads.length := by rw [State.vals, List.length_map]
    have hlive : s.mainStep.live = s.live + 1 := by
      rw [hstep, State.live, State.live, List.countP_append]
      rfl
    rw [hm, Prog.eval, hlen] at heval
    rw [hm, weight, hlen] at hbound ⊢
    refine ⟨⟨?_, ?_⟩, ?_⟩
    · rw [hvals, hstep]
      exact heval
    · rw [hvals, hstep]
      simp only [List.length_append, List.length_singleton]
      omega
    · rw [hvals, hlive, hstep]
      simp only
      omega
  · have hvals : s.mainStep.vals = s.vals := by rw [hstep]; rfl
    have hlive : s.mainStep.live = s.live := by rw [hstep]; rfl
    rw [hm, Prog.eval, hf] at heval
    rw [hm, weight, hf] at hbound ⊢
    refine ⟨⟨?_, ?_⟩, ?_⟩
    · rw [hvals, hstep]
      exact heval
    · rw [hvals, hstep]
      simp only at hbound ⊢
      omega
    · rw [hvals, hlive, hstep]
      simp only
      omega

theorem exists_of_find {k : κ} {h : Nat} {vals : List (Sigma T)} {v : T k}
    (hf : find k h vals = some v) : h < vals.length := by
  by_contra hlt
  rw [find, List.getElem?_eq_none (by omega)] at hf
  cases hf

theorem Inv.main_of_ready {p : Prog T ρ} (hs : Inv (weight [] p) r s)
    (hready : p.system.ready s = []) : s.main = ret r := by
  have hstuck : ∀ i, i < weight [] p + 1 → p.system.enabled s i = false := by
    intro i hi
    by_contra hen
    have hmem : i ∈ p.system.ready s :=
      System.mem_ready.mpr ⟨hi, by simpa using hen⟩
    rw [hready] at hmem
    cases hmem
  have hmain : s.mainEnabled = false := hstuck 0 (by omega)
  have heval := hs.eval
  cases hm : s.main with
  | ret r' =>
    rw [hm, Prog.eval, Option.some.injEq] at heval
    rw [heval]
  | spawn k v next => simp [State.mainEnabled, hm] at hmain
  | join k h next =>
    rw [hm, Prog.eval] at heval
    cases hf : find k h s.vals with
    | none =>
      rw [hf] at heval
      cases heval
    | some v =>
      have hlt : h < s.threads.length := by
        have := exists_of_find hf
        rwa [State.vals, List.length_map] at this
      have hbound := hs.bound
      have hrun : s.running h = false := hstuck (h + 1) (by omega)
      rw [State.running, List.getElem?_eq_getElem hlt] at hrun
      rw [State.mainEnabled, hm] at hmain
      simp only [State.finished, List.getElem?_eq_getElem hlt, hf, Option.isSome_some,
        Bool.and_true] at hmain
      simp only [Bool.not_eq_eq_eq_not, Bool.not_false] at hrun
      rw [hrun] at hmain
      cases hmain

end Steps

/-- **The schedule does not matter.** -/
theorem result_of_eval {p : Prog T ρ} {r : ρ} (h : p.eval [] = some r)
    (sched : Nat → Nat × Unit) : p.result sched = some r := by
  have hstart : Inv (weight [] p) r p.start := ⟨h, by simp [start, State.vals]⟩
  have hstep : ∀ s i e, Inv (weight [] p) r s → i < p.system.actors → p.system.enabled s i = true →
      Inv (weight [] p) r (p.system.step s i e) := by
    intro s i e hs _ hen
    cases i with
    | zero => exact (hs.mainStep hen).1
    | succ h => exact hs.finish h
  have hμ : ∀ s i e, Inv (weight [] p) r s → i < p.system.actors → p.system.enabled s i = true →
      weight (p.system.step s i e).vals (p.system.step s i e).main + (p.system.step s i e).live
        < weight s.vals s.main + s.live := by
    intro s i e hs _ hen
    cases i with
    | zero => exact (hs.mainStep hen).2
    | succ h =>
      have hlive := live_finish hen
      change weight (s.finish h).vals s.main + (s.finish h).live < _
      rw [vals_finish]
      omega
  have hquiet := System.run_quiescent (Inv (weight [] p) r)
    (fun s => weight s.vals s.main + s.live) hstep hμ (weight [] p) sched p.start hstart
    (by simp [start, State.vals, State.live])
  have hinv : Inv (weight [] p) r (p.system.run sched (weight [] p) p.start) :=
    System.run_invariant (Q := fun _ => True) (fun s i e hs _ => hstep s i e hs) _ sched _
      (fun _ => trivial) hstart
  rw [result, hinv.main_of_ready hquiet]
  rfl

/-! ### Lists of threads -/

def spawnAll (k : κ) : List (T k) → (List Nat → Prog T ρ) → Prog T ρ
  | [], next => next []
  | v :: vs, next => spawn k v fun h => spawnAll k vs fun hs => next (h :: hs)

def joinAll (k : κ) : List Nat → (List (T k) → Prog T ρ) → Prog T ρ
  | [], next => next []
  | h :: hs, next => join k h fun v => joinAll k hs fun vs => next (v :: vs)

omit [DecidableEq κ] in
theorem map_getElem?_range' (vs ws : List (Sigma T)) (us : List (Sigma T)) :
    (List.range' us.length vs.length).map (fun h => (us ++ vs ++ ws)[h]?) = vs.map some := by
  apply List.ext_getElem?
  intro i
  rw [List.getElem?_map, List.getElem?_map]
  by_cases hi : i < vs.length
  · rw [List.getElem?_range' hi, Option.map_some, Nat.one_mul, List.getElem?_append_left (by
      rw [List.length_append]; omega), List.getElem?_append_right (by omega), Nat.add_sub_cancel_left,
      List.getElem?_eq_getElem hi, Option.map_some]
  · rw [List.getElem?_eq_none (by simpa using hi), List.getElem?_eq_none (by omega)]
    rfl

theorem eval_spawnAll (k : κ) :
    ∀ (vs : List (T k)) (vals : List (Sigma T)) (next : List Nat → Prog T ρ),
      (spawnAll k vs next).eval vals
        = (next (List.range' vals.length vs.length)).eval (vals ++ vs.map (Sigma.mk k)) := by
  intro vs
  induction vs with
  | nil =>
    intro vals next
    rw [spawnAll, List.map_nil, List.append_nil]
    rfl
  | cons v vs ih =>
    intro vals next
    rw [spawnAll, eval, ih, List.length_append, List.length_singleton, List.map_cons,
      List.length_cons, List.range'_succ, List.append_assoc, List.singleton_append]

theorem eval_joinAll (k : κ) (vals : List (Sigma T)) :
    ∀ (hs : List Nat) (vs : List (T k)) (next : List (T k) → Prog T ρ),
      hs.map (fun h => find k h vals) = vs.map some →
      (joinAll k hs next).eval vals = (next vs).eval vals := by
  intro hs
  induction hs with
  | nil =>
    intro vs next h
    cases vs with
    | nil => rfl
    | cons v vs => cases h
  | cons h hs ih =>
    intro vs next hvs
    cases vs with
    | nil => cases hvs
    | cons v vs =>
      simp only [List.map_cons, List.cons.injEq] at hvs
      rw [joinAll, eval, hvs.1]
      exact ih vs (fun vs => next (v :: vs)) hvs.2

theorem map_find_range' (k : κ) (vs : List (T k)) (us ws : List (Sigma T)) :
    (List.range' us.length vs.length).map
      (fun h => find k h (us ++ vs.map (Sigma.mk k) ++ ws)) = vs.map some := by
  have h := map_getElem?_range' (vs.map (Sigma.mk k)) ws us
  rw [List.length_map] at h
  have hfind : (fun h => find k h (us ++ vs.map (Sigma.mk k) ++ ws))
      = (fun o : Option (Sigma T) => match o with
        | some t => if e : t.1 = k then some (e ▸ t.2) else none
        | none => none) ∘ fun h => (us ++ vs.map (Sigma.mk k) ++ ws)[h]? := rfl
  rw [hfind, ← List.map_map, h, List.map_map, List.map_map]
  apply List.map_congr_left
  intro v _
  simp

end Prog

end Lib

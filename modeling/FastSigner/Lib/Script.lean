import Mathlib.Init

/-!
# Scripts

A script is a program that does nothing but call operations of its environment
and look at their answers.  It ends with a value or with an error.

What an operation does is given by `exec`: from the state, and a chance `c` that
stands for everything the program does not control, it computes the answer and
the new state.  `run` executes a script along a sequence of chances, and `wp` is
the weakest precondition over all of them.  `run_of_wp` connects the two, and
`wp_bind` and `wp_onError` are the rules that proofs about scripts use; `Does` keeps
the executions that fail apart, and `run_of_does` is what they say together.
`Along` is about every state on the way and not only the last one: what is left
should the program be stopped there.  `Calls` bounds the operations of a script, and
`along_of_calls` is its invariant rule; and `LeadsTo` tells the last part of a script
from what comes before it.
-/

namespace Lib

/-- A program over the operations `Op`; `Res o` is the type of the answer to `o`. -/
inductive Script {Op : Type} (Res : Op → Type) (E α : Type)
  | done (r : Except E α)
  | call (o : Op) (next : Res o → Script Res E α)

namespace Script

variable {Op : Type} {Res : Op → Type} {E α β σ ε : Type}

def bind (p : Script Res E α) (f : α → Script Res E β) : Script Res E β :=
  match p with
  | done (.ok a) => f a
  | done (.error e) => done (.error e)
  | call o next => call o fun r => (next r).bind f

instance : Monad (Script Res E) where
  pure a := done (.ok a)
  bind := bind

def ask (o : Op) : Script Res E (Res o) := call o fun r => done (.ok r)

/-- Run `p`; if it fails, call `o` and ignore the answer. -/
def onError (p : Script Res E α) (o : Op) : Script Res E α :=
  match p with
  | done (.ok a) => done (.ok a)
  | done (.error e) => call o fun _ => done (.error e)
  | call o' next => call o' fun r => (next r).onError o

/-! ### Execution -/

variable (exec : (o : Op) → ε → σ → Res o × σ)

/-- The result of a script and the state it leaves, along a sequence of chances. -/
def run (p : Script Res E α) (env : Nat → ε) (s : σ) : Except E α × σ :=
  match p with
  | done r => (r, s)
  | call o next =>
    (next (exec o (env 0) s).1).run (fun k => env (k + 1)) (exec o (env 0) s).2

/-- Every execution whose chances satisfy `Q` ends in `post`. -/
def wp (Q : ε → Prop) (p : Script Res E α) (post : Except E α → σ → Prop) (s : σ) : Prop :=
  match p with
  | done r => post r s
  | call o next => ∀ c, Q c → (next (exec o c s).1).wp Q post (exec o c s).2

variable {exec} {Q : ε → Prop} {post post' : Except E α → σ → Prop} {s : σ}

@[simp] theorem wp_done (r : Except E α) : wp exec Q (done r) post s ↔ post r s := Iff.rfl

@[simp] theorem wp_pure (a : α) : wp exec Q (pure a) post s ↔ post (.ok a) s := Iff.rfl

theorem run_of_wp :
    ∀ {p : Script Res E α} {s : σ} {env : Nat → ε}, wp exec Q p post s → (∀ k, Q (env k)) →
      post (run exec p env s).1 (run exec p env s).2 := by
  intro p
  induction p with
  | done r => intro s env h _; exact h
  | call o next ih =>
    intro s env h hQ
    exact ih _ (h (env 0) (hQ 0)) (fun k => hQ (k + 1))

theorem wp_mono (hpost : ∀ r s, post r s → post' r s) :
    ∀ {p : Script Res E α} {s : σ}, wp exec Q p post s → wp exec Q p post' s := by
  intro p
  induction p with
  | done r => intro s h; exact hpost r s h
  | call o next ih => intro s h c hc; exact ih _ (h c hc)

theorem wp_bind {f : α → Script Res E β} {post : Except E β → σ → Prop} :
    ∀ {p : Script Res E α} {s : σ}, wp exec Q (p >>= f) post s ↔
      wp exec Q p (fun r s => match r with
        | .ok a => wp exec Q (f a) post s
        | .error e => post (.error e) s) s := by
  intro p
  induction p with
  | done r =>
    intro s
    cases r with
    | ok a => exact Iff.rfl
    | error e => exact Iff.rfl
  | call o next ih =>
    intro s
    exact forall_congr' fun c => imp_congr_right fun _ => ih _

/-- **Cleaning up after a failure.** -/
theorem wp_onError {o : Op} :
    ∀ {p : Script Res E α} {s : σ}, wp exec Q (p.onError o) post s ↔
      wp exec Q p (fun r s => match r with
        | .ok a => post (.ok a) s
        | .error e => ∀ c, Q c → post (.error e) (exec o c s).2) s := by
  intro p
  induction p with
  | done r =>
    intro s
    cases r with
    | ok a => exact Iff.rfl
    | error e => exact Iff.rfl
  | call o' next ih =>
    intro s
    exact forall_congr' fun c => imp_congr_right fun _ => ih _

/-! ### Success and failure apart -/

/-- Every execution either ends with a value, in `post`, or fails, and then `bad` holds. -/
def Does (exec : (o : Op) → ε → σ → Res o × σ) (Q : ε → Prop) (p : Script Res E α)
    (post : α → σ → Prop) (bad : Prop) (s : σ) : Prop :=
  wp exec Q p (fun r s => match r with
    | .ok a => post a s
    | .error _ => bad) s

section Does

variable {post post' : α → σ → Prop} {bad bad' : Prop}

theorem does_done {r : Except E α} (hok : ∀ a, r = .ok a → post a s)
    (hbad : ∀ e, r = .error e → bad) : Does exec Q (done r) post bad s := by
  cases r with
  | ok a => exact hok a rfl
  | error e => exact hbad e rfl

theorem does_pure {a : α} (h : post a s) : Does exec Q (pure a : Script Res E α) post bad s := h

theorem does_call {o : Op} {next : Res o → Script Res E α}
    (h : ∀ c, Q c → Does exec Q (next (exec o c s).1) post bad (exec o c s).2) :
    Does exec Q (call o next) post bad s := h

theorem does_ask {o : Op} {post : Res o → σ → Prop}
    (h : ∀ c, Q c → post (exec o c s).1 (exec o c s).2) : Does exec Q (ask (E := E) o) post bad s :=
  h

theorem does_bind {p : Script Res E β} {f : β → Script Res E α}
    (h : Does exec Q p (fun b s => Does exec Q (f b) post bad s) bad s) :
    Does exec Q (p >>= f) post bad s := by
  refine wp_bind.mpr (wp_mono ?_ h)
  intro r s hr
  cases r with
  | ok b => exact hr
  | error e => exact hr

theorem does_onError {p : Script Res E α} {o : Op} (h : Does exec Q p post bad s) :
    Does exec Q (p.onError o) post bad s := by
  refine wp_onError.mpr (wp_mono ?_ h)
  intro r s hr
  cases r with
  | ok a => exact hr
  | error e => exact fun _ _ => hr

theorem does_mono {p : Script Res E α} (h : Does exec Q p post bad s)
    (hpost : ∀ a s, post a s → post' a s) (hbad : bad → bad') : Does exec Q p post' bad' s := by
  refine wp_mono ?_ h
  intro r s hr
  cases r with
  | ok a => exact hpost a s hr
  | error e => exact hbad hr

theorem run_of_does {p : Script Res E α} {env : Nat → ε} (h : Does exec Q p post bad s)
    (hQ : ∀ k, Q (env k)) :
    (∃ a, (run exec p env s).1 = .ok a ∧ post a (run exec p env s).2) ∨
      (∃ e, (run exec p env s).1 = .error e) ∧ bad := by
  have hr := run_of_wp h hQ
  generalize run exec p env s = out at hr ⊢
  obtain ⟨r, s'⟩ := out
  cases r with
  | ok a => exact Or.inl ⟨a, rfl, hr⟩
  | error e => exact Or.inr ⟨⟨e, rfl⟩, hr⟩

end Does

/-! ### The operations of a script -/

/-- Whatever the answers, the script calls operations of `S` only. -/
def Calls (S : Op → Prop) : Script Res E α → Prop
  | done _ => True
  | call o next => S o ∧ ∀ r, (next r).Calls S

section Calls

variable {S : Op → Prop}

theorem calls_bind {p : Script Res E α} {f : α → Script Res E β} (hp : p.Calls S)
    (hf : ∀ a, (f a).Calls S) : (p >>= f).Calls S := by
  induction p with
  | done r =>
    cases r with
    | ok a => exact hf a
    | error e => trivial
  | call o next ih => exact ⟨hp.1, fun r => ih r (hp.2 r)⟩

theorem calls_onError {p : Script Res E α} {o : Op} (hp : p.Calls S) (ho : S o) :
    (p.onError o).Calls S := by
  induction p with
  | done r =>
    cases r with
    | ok a => trivial
    | error e => exact ⟨ho, fun _ => trivial⟩
  | call o next ih => exact ⟨hp.1, fun r => ih r (hp.2 r)⟩

theorem calls_mono {S' : Op → Prop} (h : ∀ o, S o → S' o) {p : Script Res E α} (hp : p.Calls S) :
    p.Calls S' := by
  induction p with
  | done r => trivial
  | call o next ih => exact ⟨h o hp.1, fun r => ih r (hp.2 r)⟩

def Never : Script Res E α → Prop
  | done (.ok _) => False
  | done (.error _) => True
  | call _ next => ∀ r, (next r).Never

theorem Never.bind {p : Script Res E α} (h : p.Never) (f : α → Script Res E β) : (p >>= f).Never := by
  induction p with
  | done r =>
    cases r with
    | ok a => exact h.elim
    | error e => trivial
  | call o next ih => exact fun r => ih r (h r)

theorem Never.onError {p : Script Res E α} (h : p.Never) (o : Op) : (p.onError o).Never := by
  induction p with
  | done r =>
    cases r with
    | ok a => exact h.elim
    | error e => exact fun _ => trivial
  | call o' next ih => exact fun r => ih r (h r)

theorem calls_bind_never {p : Script Res E α} {f : α → Script Res E β} (hp : p.Calls S)
    (h : p.Never) : (p >>= f).Calls S := by
  induction p with
  | done r =>
    cases r with
    | ok a => exact h.elim
    | error e => trivial
  | call o next ih => exact ⟨hp.1, fun r => ih r (hp.2 r) (h r)⟩

end Calls

/-! ### On the way -/

/-- The states that an execution passes through, before the first operation and after each. -/
def states (exec : (o : Op) → ε → σ → Res o × σ) (p : Script Res E α) (env : Nat → ε) (s : σ) :
    List σ :=
  match p with
  | done _ => [s]
  | call o next =>
    s :: (next (exec o (env 0) s).1).states exec (fun k => env (k + 1)) (exec o (env 0) s).2

theorem last_mem_states : ∀ (p : Script Res E α) (env : Nat → ε) (s : σ),
    (run exec p env s).2 ∈ states exec p env s := by
  intro p
  induction p with
  | done r => exact fun _ _ => List.mem_singleton.mpr rfl
  | call o next ih => exact fun env s => List.mem_cons_of_mem _ (ih _ _ _)

/-- `I` holds in every state of every execution. -/
def Along (exec : (o : Op) → ε → σ → Res o × σ) (Q : ε → Prop) (I : σ → Prop)
    (p : Script Res E α) (s : σ) : Prop :=
  match p with
  | done _ => I s
  | call o next => I s ∧ ∀ c, Q c → (next (exec o c s).1).Along exec Q I (exec o c s).2

section Along

variable {I : σ → Prop} {S : Op → Prop}

theorem forall_states_of_along :
    ∀ {p : Script Res E α} {s : σ} {env : Nat → ε}, Along exec Q I p s → (∀ k, Q (env k)) →
      ∀ t ∈ states exec p env s, I t := by
  intro p
  induction p with
  | done r =>
    intro s env h _ t ht
    rw [states, List.mem_singleton] at ht
    exact ht ▸ h
  | call o next ih =>
    intro s env h hQ t ht
    rw [states, List.mem_cons] at ht
    rcases ht with rfl | ht
    · exact h.1
    · exact ih _ (h.2 (env 0) (hQ 0)) (fun k => hQ (k + 1)) t ht

theorem along_done {r : Except E α} (h : I s) : Along exec Q I (done r) s := h

/-- **Sequencing.**  What the first part is known to do is there to begin the second with. -/
theorem along_bind {f : α → Script Res E β} {post : α → σ → Prop} {bad : Prop}
    (hf : ∀ a s, post a s → I s → Along exec Q I (f a) s) :
    ∀ {p : Script Res E α} {s : σ}, Along exec Q I p s → Does exec Q p post bad s →
      Along exec Q I (p >>= f) s := by
  intro p
  induction p with
  | done r =>
    intro s h hp
    cases r with
    | ok a => exact hf a s hp h
    | error e => exact h
  | call o next ih =>
    intro s h hp
    exact ⟨h.1, fun c hc => ih _ (h.2 c hc) (hp c hc)⟩

theorem along_onError {o : Op} (ho : ∀ c s, Q c → I s → I (exec o c s).2) :
    ∀ {p : Script Res E α} {s : σ}, Along exec Q I p s → Along exec Q I (p.onError o) s := by
  intro p
  induction p with
  | done r =>
    intro s h
    cases r with
    | ok a => exact h
    | error e => exact ⟨h, fun c hc => ho c s hc h⟩
  | call o' next ih =>
    intro s h
    exact ⟨h.1, fun c hc => ih _ (h.2 c hc)⟩

/-- **What the operations keep holds all the way.** -/
theorem along_of_calls (hop : ∀ o, S o → ∀ c s, Q c → I s → I (exec o c s).2) :
    ∀ {p : Script Res E α} {s : σ}, p.Calls S → I s → Along exec Q I p s := by
  intro p
  induction p with
  | done r => intro s _ h; exact h
  | call o next ih =>
    intro s hp h
    exact ⟨h, fun c hc => ih _ (hp.2 _) (hop o hp.1 c s hc h)⟩

end Along

/-! ### The last part of a script -/

/-- The operations of an execution, with their answers. -/
def history (exec : (o : Op) → ε → σ → Res o × σ) (p : Script Res E α) (env : Nat → ε) (s : σ) :
    List (Sigma Res) :=
  match p with
  | done _ => []
  | call o next =>
    ⟨o, (exec o (env 0) s).1⟩ ::
      (next (exec o (env 0) s).1).history exec (fun k => env (k + 1)) (exec o (env 0) s).2

def logged (exec : (o : Op) → ε → σ → Res o × σ) (o : Op) (c : ε) (x : σ × List (Sigma Res)) :
    Res o × (σ × List (Sigma Res)) :=
  ((exec o c x.1).1, ((exec o c x.1).2, x.2 ++ [⟨o, (exec o c x.1).1⟩]))

theorem run_logged : ∀ (p : Script Res E α) (env : Nat → ε) (s : σ) (l : List (Sigma Res)),
    run (logged exec) p env (s, l)
      = ((run exec p env s).1, ((run exec p env s).2, l ++ history exec p env s)) := by
  intro p
  induction p with
  | done r => intro env s l; rw [history, List.append_nil]; rfl
  | call o next ih =>
    intro env s l
    rw [run, run, history, List.append_cons]
    exact ih _ _ _ _

theorem run_of_wp_logged {post : Except E α → σ × List (Sigma Res) → Prop} {p : Script Res E α} {s : σ}
    {env : Nat → ε} (h : wp (logged exec) Q p post (s, [])) (hQ : ∀ k, Q (env k)) :
    post (run exec p env s).1 ((run exec p env s).2, history exec p env s) := by
  have hrun := run_of_wp h hQ
  rw [run_logged] at hrun
  exact hrun

/-- Every execution stays in `I`, with operations of `S`, up to its end or to the point where `q` is
what is left to do. -/
def LeadsTo (exec : (o : Op) → ε → σ → Res o × σ) (S : Op → Prop) (I : σ → Prop)
    (q : Script Res E α) (p : Script Res E α) (s : σ) : Prop :=
  match p with
  | done _ => I s
  | call o next =>
    I s ∧ (call o next = q ∨ S o ∧ ∀ c, LeadsTo exec S I q (next (exec o c s).1) (exec o c s).2)

section LeadsTo

variable {I : σ → Prop} {S : Op → Prop} {q : Script Res E α}

theorem leadsTo_self (q : Script Res E α) (h : I s) : LeadsTo exec S I q q s := by
  cases q with
  | done r => exact h
  | call o next => exact ⟨h, Or.inl rfl⟩

theorem leadsTo_bind {f : β → Script Res E α} (hop : ∀ o, S o → ∀ c s, I s → I (exec o c s).2)
    (hf : ∀ b s, I s → LeadsTo exec S I q (f b) s) :
    ∀ {p : Script Res E β} {s : σ}, p.Calls S → I s → LeadsTo exec S I q (p >>= f) s := by
  intro p
  induction p with
  | done r =>
    intro s _ h
    cases r with
    | ok b => exact hf b s h
    | error e => exact h
  | call o next ih =>
    intro s hp h
    exact ⟨h, Or.inr ⟨hp.1, fun c => ih _ (hp.2 _) (hop o hp.1 c s h)⟩⟩

/-- **An execution stays in `I`, or its last part is one of `q`**, and so is that of every other one
with the same beginning. -/
theorem run_of_leadsTo :
    ∀ {p : Script Res E α} {s : σ}, LeadsTo exec S I q p s → ∀ env : Nat → ε,
      (I (run exec p env s).2 ∧ ∀ x ∈ history exec p env s, S x.1) ∨
      ∃ n s' pre, I s' ∧ (∀ x ∈ pre, S x.1) ∧ ∀ env' : Nat → ε, (∀ k < n, env' k = env k) →
        run exec p env' s = run exec q (fun k => env' (n + k)) s' ∧
        history exec p env' s = pre ++ history exec q (fun k => env' (n + k)) s' := by
  intro p
  induction p with
  | done r => exact fun h _ => Or.inl ⟨h, fun x hx => (by cases hx)⟩
  | call o next ih =>
    rintro s ⟨hs, rfl | ⟨ho, hnext⟩⟩ env
    · refine Or.inr ⟨0, s, [], hs, fun x hx => (by cases hx), fun env' _ => ?_⟩
      simp only [Nat.zero_add]
      exact ⟨trivial, rfl⟩
    · rcases ih _ (hnext (env 0)) fun k => env (k + 1) with
        ⟨hI, hS⟩ | ⟨n, s', pre, hs', hpre, hrest⟩
      · exact Or.inl ⟨hI, List.forall_mem_cons.mpr ⟨ho, hS⟩⟩
      · refine Or.inr ⟨n + 1, s', ⟨o, (exec o (env 0) s).1⟩ :: pre, hs',
          List.forall_mem_cons.mpr ⟨ho, hpre⟩, fun env' henv => ?_⟩
        obtain ⟨hrun, hhist⟩ := hrest (fun k => env' (k + 1)) fun k hk => henv _ (by omega)
        have hshift : (fun k => env' (n + k + 1)) = fun k => env' (n + 1 + k) :=
          funext fun k => congrArg env' (by omega)
        rw [hshift] at hrun hhist
        rw [run, history, henv 0 (Nat.succ_pos n)]
        exact ⟨hrun, congrArg _ hhist⟩

end LeadsTo

/-! ### The same script on another state -/

section Image

variable {τ : Type} {exec' : (o : Op) → ε → τ → Res o × τ} {f : σ → τ}

/-- If `f` turns the one execution of every operation into the other, it does so with scripts. -/
theorem run_image (hf : ∀ o c s, exec' o c (f s) = ((exec o c s).1, f (exec o c s).2)) :
    ∀ (p : Script Res E α) (env : Nat → ε) (s : σ),
      run exec' p env (f s) = ((run exec p env s).1, f (run exec p env s).2) := by
  intro p
  induction p with
  | done r => exact fun _ _ => rfl
  | call o next ih =>
    intro env s
    rw [run, run, hf]
    exact ih _ _ _

theorem along_image (hf : ∀ o c s, exec' o c (f s) = ((exec o c s).1, f (exec o c s).2))
    {I : τ → Prop} : ∀ {p : Script Res E α} {s : σ}, Along exec Q (fun s => I (f s)) p s →
      Along exec' Q I p (f s) := by
  intro p
  induction p with
  | done r => exact fun h => h
  | call o next ih =>
    intro s h
    refine ⟨h.1, fun c hc => ?_⟩
    rw [hf]
    exact ih _ (h.2 c hc)

end Image

end Script

end Lib

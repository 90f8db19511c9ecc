import FastSigner.Lib.Script
import FastSigner.Lib.System
import Mathlib.Logic.Hydra
import Mathlib.Algebra.Order.Group.Multiset
import Mathlib.Data.Multiset.Range

/-!
# Jobs on a common store

A list of jobs, each a script, and hands that take them off a counter one after the
other and record their results.  A job has a state of its own, and all of them work on
one store; the operations of jobs that run at the same time interleave freely.

`crew_quiescent` says that all of them end, and `Tally.complete` that every job then has
one result.  If no job writes what another one looks at, the others cannot be seen:
`Ledger` says of every reachable state that each job has got exactly as far as it would
have got alone, in a store that agrees with the common one on what the job looks at, and
`Ledger.alone` is what that means for a job that has ended.
-/

namespace Lib

open Script Relation

section Scripts

variable {Op : Type} {Res : Op → Type} {E α ε σ : Type} (exec : (o : Op) → ε → σ → Res o × σ)
  (Q : ε → Prop) (p₀ : Script Res E α) (s₀ : σ)

/-- How far the executions of `p₀` from `s₀` can have got: what is left of the script, and in which
state. -/
inductive Reaches : Script Res E α → σ → Prop
  | start : Reaches p₀ s₀
  | step {o : Op} {next : Res o → Script Res E α} {s : σ} {c : ε} (h : Reaches (.call o next) s)
      (hc : Q c) : Reaches (next (exec o c s).1) (exec o c s).2

variable {exec Q p₀ s₀} {p : Script Res E α} {s s' : σ} {r : Except E α}

theorem Reaches.exists_run (h : Reaches exec Q p₀ s₀ p s) :
    ∀ env, (∀ k, Q (env k)) →
      ∃ env', (∀ k, Q (env' k)) ∧ run exec p₀ env' s₀ = run exec p env s := by
  induction h with
  | start => exact fun env hQ => ⟨env, hQ, rfl⟩
  | @step o next s c _ hc ih =>
    intro env hQ
    refine ih (fun k => if k = 0 then c else env (k - 1)) fun k => ?_
    split
    · exact hc
    · exact hQ _

/-- **An execution that has ended is a run.** -/
theorem Reaches.run_eq (h : Reaches exec Q p₀ s₀ (.done r) s) {c : ε} (hc : Q c) :
    ∃ env, (∀ k, Q (env k)) ∧ run exec p₀ env s₀ = (r, s) :=
  h.exists_run (fun _ => c) fun _ => hc

theorem Reaches.of_along {I : σ → Prop} (h : Reaches exec Q p₀ s₀ p s)
    (hI : Along exec Q I p₀ s₀) : I s := by
  have hrest : Along exec Q I p s := by
    induction h with
    | start => exact hI
    | step _ hc ih => exact ih.2 _ hc
  cases p with
  | done r => exact hrest
  | call o next => exact hrest.1

theorem Reaches.calls {S : Op → Prop} (h : Reaches exec Q p₀ s₀ p s) (hS : p₀.Calls S) :
    p.Calls S := by
  induction h with
  | start => exact hS
  | step _ _ ih => exact ih.2 _

end Scripts

/-! ### The crew -/

variable {Op : Type} {Res : Op → Type} {E α ε L K V : Type}

/-- What one of the threads is doing. -/
inductive Hand (Op : Type) (Res : Op → Type) (E α L : Type)
  | idle
  -- Job `i`, with what is left of its script and its own state.
  | busy (i : Nat) (p : Script Res E α) (own : L)
  | gone

/-- The counter, the store, the results recorded so far and the hands. -/
structure Crew (Op : Type) (Res : Op → Type) (E α L K V : Type) where
  next : Nat
  store : K → V
  results : List (Nat × Except E α)
  hands : List (Hand Op Res E α L)

section Crew

variable (exec : (o : Op) → ε → L × (K → V) → Res o × (L × (K → V)))
  (jobs : List (Script Res E α)) (own : L) (s₀ : K → V)

/-- One step of a hand: it takes a number, or calls the next operation of its job, or records the
job's result. -/
def Crew.step (s : Crew Op Res E α L K V) (w : Nat) (c : ε) : Crew Op Res E α L K V :=
  match s.hands[w]? with
  | some .idle =>
    match jobs[s.next]? with
    | some p => { s with next := s.next + 1, hands := s.hands.set w (.busy s.next p own) }
    | none => { s with next := s.next + 1, hands := s.hands.set w .gone }
  | some (.busy i (.done r) _) =>
    { s with results := s.results ++ [(i, r)], hands := s.hands.set w .idle }
  | some (.busy i (.call o next) l) =>
    let x := exec o c (l, s.store)
    { s with store := x.2.2, hands := s.hands.set w (.busy i (next x.1) x.2.1) }
  | _ => s

def Hand.works : Hand Op Res E α L → Bool
  | .gone => false
  | _ => true

def crew (n : Nat) : System (Crew Op Res E α L K V) ε where
  actors := n
  enabled s w := (s.hands[w]?).any Hand.works
  step s w c := s.step exec jobs own w c

def Crew.init (n : Nat) : Crew Op Res E α L K V := ⟨0, s₀, [], List.replicate n .idle⟩

variable {exec jobs own s₀} {n w : Nat} {s : Crew Op Res E α L K V} {c : ε}

/-- **What a step can do.** -/
theorem crew_step_cases (h : (crew exec jobs own n).enabled s w = true) (c : ε) :
    (s.hands[w]? = some .idle ∧ ∃ p, jobs[s.next]? = some p ∧ s.step exec jobs own w c
      = { s with next := s.next + 1, hands := s.hands.set w (.busy s.next p own) }) ∨
    (s.hands[w]? = some .idle ∧ jobs.length ≤ s.next ∧ s.step exec jobs own w c
      = { s with next := s.next + 1, hands := s.hands.set w .gone }) ∨
    (∃ i r l, s.hands[w]? = some (.busy i (.done r) l) ∧ s.step exec jobs own w c
      = { s with results := s.results ++ [(i, r)], hands := s.hands.set w .idle }) ∨
    ∃ i o next l, s.hands[w]? = some (.busy i (.call o next) l) ∧ s.step exec jobs own w c
      = { s with
          store := (exec o c (l, s.store)).2.2
          hands := s.hands.set w
            (.busy i (next (exec o c (l, s.store)).1) (exec o c (l, s.store)).2.1) } := by
  simp only [crew] at h
  cases hw : s.hands[w]? with
  | none =>
    rw [hw] at h
    cases h
  | some hand =>
    rw [Crew.step, hw]
    cases hand with
    | idle =>
      cases hp : jobs[s.next]? with
      | some p => exact Or.inl ⟨rfl, p, rfl, rfl⟩
      | none => exact Or.inr (Or.inl ⟨rfl, List.getElem?_eq_none_iff.mp hp, rfl⟩)
    | busy i p l =>
      cases p with
      | done r => exact Or.inr (Or.inr (Or.inl ⟨i, r, l, rfl, rfl⟩))
      | call o next => exact Or.inr (Or.inr (Or.inr ⟨i, o, next, l, rfl, rfl⟩))
    | gone =>
      rw [hw] at h
      cases h

end Crew

/-! ### Steps of the hands -/

section Hands

variable {exec : (o : Op) → ε → L × (K → V) → Res o × (L × (K → V))} {jobs : List (Script Res E α)}
  {own : L} {s₀ : K → V} {n w : Nat} {s : Crew Op Res E α L K V}

theorem mem_set_busy {hand : Hand Op Res E α L} {j : Nat} {p : Script Res E α} {l : L}
    (h : .busy j p l ∈ s.hands.set w hand) :
    hand = .busy j p l ∨ ∃ w', w' ≠ w ∧ s.hands[w']? = some (.busy j p l) := by
  obtain ⟨w', hw'⟩ := List.getElem?_of_mem h
  rw [List.getElem?_set] at hw'
  split at hw'
  · split at hw'
    · exact Or.inl (Option.some.inj hw')
    · cases hw'
  · rename_i hne
    exact Or.inr ⟨w', Ne.symm hne, hw'⟩

theorem idle_init {hand : Hand Op Res E α L} (h : hand ∈ (@Crew.init Op Res E α L K V s₀ n).hands) :
    hand = .idle := List.eq_of_mem_replicate h

/-- **What the operations keep, the crew keeps**, however the jobs meet. -/
theorem store_of_calls {I : (K → V) → Prop} {S : Op → Prop} {Q : ε → Prop}
    (hop : ∀ o, S o → ∀ c l t, Q c → I t → I (exec o c (l, t)).2.2)
    (hcalls : ∀ p ∈ jobs, p.Calls S) (h : I s₀) (fuel : Nat) (sched : Nat → Nat × ε)
    (hQ : ∀ k, Q (sched k).2) : I ((crew exec jobs own n).run sched fuel (Crew.init s₀ n)).store := by
  have hinv : I ((crew exec jobs own n).run sched fuel (Crew.init s₀ n)).store ∧
      ∀ i p l, Hand.busy i p l ∈ ((crew exec jobs own n).run sched fuel (Crew.init s₀ n)).hands →
        p.Calls S := by
    refine @System.run_invariant _ _ (crew exec jobs own n)
      (fun s => I s.store ∧ ∀ i p l, Hand.busy i p l ∈ s.hands → p.Calls S) Q ?_ fuel sched _ hQ
      ⟨h, fun i p l hmem => by cases idle_init hmem⟩
    rintro s w c ⟨hI, hbusy⟩ hc - hen
    have hrest : ∀ {w' j : Nat} {p' : Script Res E α} {l' : L},
        s.hands[w']? = some (.busy j p' l') → p'.Calls S :=
      fun hw' => hbusy _ _ _ (List.mem_of_getElem? hw')
    change I (s.step exec jobs own w c).store ∧ ∀ i p l,
      Hand.busy i p l ∈ (s.step exec jobs own w c).hands → p.Calls S
    rcases crew_step_cases hen c with ⟨-, p, hp, hstep⟩ | ⟨-, -, hstep⟩ | ⟨i, r, l, -, hstep⟩ |
      ⟨i, o, next, l, hw, hstep⟩
    · rw [hstep]
      refine ⟨hI, fun j p' l' hmem => ?_⟩
      rcases mem_set_busy hmem with hand | ⟨w', -, hw'⟩
      · obtain ⟨-, rfl, -⟩ := Hand.busy.inj hand
        exact hcalls _ (List.mem_of_getElem? hp)
      · exact hrest hw'
    · rw [hstep]
      refine ⟨hI, fun j p' l' hmem => ?_⟩
      rcases mem_set_busy hmem with hand | ⟨w', -, hw'⟩
      · cases hand
      · exact hrest hw'
    · rw [hstep]
      refine ⟨hI, fun j p' l' hmem => ?_⟩
      rcases mem_set_busy hmem with hand | ⟨w', -, hw'⟩
      · cases hand
      · exact hrest hw'
    · rw [hstep]
      have ho := hrest hw
      refine ⟨hop o ho.1 c l s.store hc hI, fun j p' l' hmem => ?_⟩
      rcases mem_set_busy hmem with hand | ⟨w', -, hw'⟩
      · obtain ⟨-, rfl, -⟩ := Hand.busy.inj hand
        exact ho.2 _
      · exact hrest hw'
  exact hinv.1

end Hands

/-! ### Every job once -/

def Hand.keys : Hand Op Res E α L → Multiset Nat
  | .busy i _ _ => {i}
  | _ => 0

/-- Every job that was taken is in one hand or has one result. -/
structure Tally (jobs : List (Script Res E α)) (n : Nat) (s : Crew Op Res E α L K V) : Prop where
  hands : s.hands.length = n
  keys : (s.hands.map Hand.keys).sum + (s.results.map Prod.fst : List Nat)
    = Multiset.range (min s.next jobs.length)
  gone : .gone ∈ s.hands → jobs.length ≤ s.next

section Tally

variable {exec : (o : Op) → ε → L × (K → V) → Res o × (L × (K → V))} {jobs : List (Script Res E α)}
  {own : L} {s₀ : K → V} {n w i : Nat} {s : Crew Op Res E α L K V}

theorem tally_init (n : Nat) : Tally jobs n (@Crew.init Op Res E α L K V s₀ n) := by
  refine ⟨List.length_replicate, ?_, fun h => by cases idle_init h⟩
  have hsum : ∀ n, ((List.replicate n (Hand.idle : Hand Op Res E α L)).map Hand.keys).sum = 0 := by
    intro n
    induction n with
    | zero => rfl
    | succ n ih => rw [List.replicate_succ, List.map_cons, List.sum_cons, ih]; rfl
  rw [Crew.init, hsum]
  simp

theorem mem_sum_map {β : Type} {f : β → Multiset Nat} {x : Nat} {b : β} :
    ∀ {l : List β}, b ∈ l → x ∈ f b → x ∈ (l.map f).sum := by
  intro l
  induction l with
  | nil => intro h _; cases h
  | cons a l ih =>
    intro h hx
    rw [List.map_cons, List.sum_cons, Multiset.mem_add]
    rcases List.mem_cons.mp h with rfl | h
    · exact Or.inl hx
    · exact Or.inr (ih h hx)

theorem Tally.sum_set (h : Tally jobs n s) {p : Script Res E α} {l : L}
    (hw : s.hands[w]? = some (.busy i p l)) :
    ((s.hands.set w .idle).map Hand.keys).sum + {i} + (s.results.map Prod.fst : List Nat)
      = Multiset.range (min s.next jobs.length) := by
  have hset := sum_map_set Hand.keys s.hands w (.busy i p l) .idle hw
  rw [← h.keys]
  congr 1
  exact hset.trans (add_zero _)

theorem Tally.ne (h : Tally jobs n s) {p : Script Res E α} {l : L}
    (hw : s.hands[w]? = some (.busy i p l)) :
    (∀ w' j p' l', w' ≠ w → s.hands[w']? = some (.busy j p' l') → j ≠ i) ∧
      ∀ x ∈ s.results, x.1 ≠ i := by
  have hsum := h.sum_set hw
  have hnodup : (Multiset.range (min s.next jobs.length)).Nodup := Multiset.nodup_range _
  rw [← hsum, add_right_comm] at hnodup
  have hnot := (Multiset.nodup_add.mp hnodup).2.2
  have hrest : i ∉ ((s.hands.set w .idle).map Hand.keys).sum + (s.results.map Prod.fst : List Nat) :=
    fun hi => Multiset.disjoint_left.mp hnot hi (Multiset.mem_singleton_self i)
  refine ⟨?_, ?_⟩
  · rintro w' j p' l' hne hw' rfl
    have hmem : .busy j p' l' ∈ s.hands.set w .idle := by
      refine List.mem_of_getElem? (i := w') ?_
      rw [List.getElem?_set_ne (Ne.symm hne)]
      exact hw'
    exact hrest (Multiset.mem_add.mpr (Or.inl (mem_sum_map hmem (Multiset.mem_singleton_self j))))
  · rintro x hx rfl
    exact hrest (Multiset.mem_add.mpr (Or.inr (Multiset.mem_coe.mpr (List.mem_map_of_mem hx))))

theorem Tally.lt_of_busy (h : Tally jobs n s) {p : Script Res E α} {l : L}
    (hw : s.hands[w]? = some (.busy i p l)) : i < min s.next jobs.length := by
  have hi : i ∈ Multiset.range (min s.next jobs.length) := by
    rw [← h.keys]
    exact Multiset.mem_add.mpr (Or.inl (mem_sum_map (List.mem_of_getElem? hw)
      (Multiset.mem_singleton_self i)))
  exact Multiset.mem_range.mp hi

theorem tally_step (h : Tally jobs n s) (hen : (crew exec jobs own n).enabled s w = true) (c : ε) :
    Tally jobs n ((crew exec jobs own n).step s w c) := by
  have hlen : ∀ hand, (s.hands.set w hand).length = n := fun hand => by
    rw [List.length_set, h.hands]
  change Tally jobs n (s.step exec jobs own w c)
  rcases crew_step_cases hen c with ⟨hw, p, hp, hstep⟩ | ⟨hw, hle, hstep⟩ | ⟨i, r, l, hw, hstep⟩ |
    ⟨i, o, next, l, hw, hstep⟩
  · have hlt := (List.getElem?_eq_some_iff.mp hp).1
    rw [hstep]
    refine ⟨hlen _, ?_, ?_⟩
    · have hset := sum_map_set Hand.keys s.hands w .idle (.busy s.next p own) hw
      have hsum : ((s.hands.set w (.busy s.next p own)).map Hand.keys).sum
          = (s.hands.map Hand.keys).sum + {s.next} := (add_zero _).symm.trans hset
      have hmin : min (s.next + 1) jobs.length = min s.next jobs.length + 1 := by omega
      have hnext : min s.next jobs.length = s.next := by omega
      simp only
      rw [hsum, add_right_comm, h.keys, hmin, Multiset.range_succ, hnext, ← Multiset.singleton_add,
        add_comm]
    · intro hgone
      have := h.gone ((mem_set_cases hgone).resolve_left (by simp))
      simp only
      omega
  · rw [hstep]
    refine ⟨hlen _, ?_, fun _ => Nat.le_succ_of_le hle⟩
    have hset := sum_map_set Hand.keys s.hands w .idle .gone hw
    have hsum : ((s.hands.set w .gone).map Hand.keys).sum = (s.hands.map Hand.keys).sum :=
      (add_zero _).symm.trans (hset.trans (add_zero _))
    simp only
    rw [hsum, h.keys, Nat.min_eq_right hle, Nat.min_eq_right (Nat.le_succ_of_le hle)]
  · rw [hstep]
    refine ⟨hlen _, ?_, fun hgone => h.gone ((mem_set_cases hgone).resolve_left (by simp))⟩
    have hsum := h.sum_set hw
    rw [add_right_comm, add_assoc] at hsum
    simp only [List.map_append, List.map_cons, List.map_nil]
    rw [← Multiset.coe_add, Multiset.coe_singleton]
    exact hsum
  · rw [hstep]
    refine ⟨hlen _, ?_, fun hgone => h.gone ((mem_set_cases hgone).resolve_left (by simp))⟩
    have hset := sum_map_set Hand.keys s.hands w _
      (.busy i (next (exec o c (l, s.store)).1) (exec o c (l, s.store)).2.1) hw
    have hsum := add_right_cancel (show _ + ({i} : Multiset Nat) = _ + {i} from hset)
    simp only
    rw [hsum]
    exact h.keys

/-- **The tally holds at the end of every run.** -/
theorem tally_run (n fuel : Nat) (sched : Nat → Nat × ε) :
    Tally jobs n ((crew exec jobs own n).run sched fuel (Crew.init s₀ n)) :=
  @System.run_invariant _ _ (crew exec jobs own n) (Tally jobs n) (fun _ => True)
    (fun _ _ c h _ _ hen => tally_step h hen c) fuel sched _ (fun _ => trivial) (tally_init n)

theorem Tally.complete (h : Tally jobs n s) (hn : 0 < n)
    (hrest : (crew exec jobs own n).ready s = []) :
    (s.results.map Prod.fst).Perm (List.range jobs.length) := by
  have hgone : ∀ hand ∈ s.hands, hand = .gone := by
    intro hand hmem
    obtain ⟨w, hw⟩ := List.getElem?_of_mem hmem
    have hlt : w < n := h.hands ▸ (List.getElem?_eq_some_iff.mp hw).1
    cases hand with
    | gone => rfl
    | idle =>
      have hready : w ∈ (crew exec jobs own n).ready s :=
        System.mem_ready.mpr ⟨hlt, by simp only [crew, hw]; rfl⟩
      rw [hrest] at hready
      cases hready
    | busy i p l =>
      have hready : w ∈ (crew exec jobs own n).ready s :=
        System.mem_ready.mpr ⟨hlt, by simp only [crew, hw]; rfl⟩
      rw [hrest] at hready
      cases hready
  have hsum : ∀ hands : List (Hand Op Res E α L), (∀ hand ∈ hands, hand = .gone) →
      (hands.map Hand.keys).sum = 0 := by
    intro hands
    induction hands with
    | nil => exact fun _ => rfl
    | cons hand hands ih =>
      intro hall
      rw [List.map_cons, List.sum_cons, ih fun x hx => hall x (List.mem_cons_of_mem _ hx),
        hall hand List.mem_cons_self]
      rfl
  have hle : jobs.length ≤ s.next := by
    obtain ⟨hand, hmem⟩ := List.exists_mem_of_length_pos (h.hands.symm ▸ hn)
    exact h.gone (hgone hand hmem ▸ hmem)
  have hkeys := h.keys
  rw [hsum _ hgone, zero_add, Nat.min_eq_right hle] at hkeys
  exact Multiset.coe_eq_coe.mp hkeys

theorem getElem?_of_keys {β : Type} {l : List (Nat × β)} {n : Nat}
    (hkeys : l.map Prod.fst = List.range n) {y : Nat × β} (hy : y ∈ l) : l[y.1]? = some y := by
  obtain ⟨j, hj⟩ := List.getElem?_of_mem hy
  have hkey : (l.map Prod.fst)[j]? = some y.1 := by rw [List.getElem?_map, hj]; rfl
  rw [hkeys] at hkey
  obtain ⟨hlt, hkey⟩ := List.getElem?_eq_some_iff.mp hkey
  rw [List.getElem_range] at hkey
  rw [← hkey]
  exact hj

theorem eq_mapIdx {β γ : Type} {l : List (Nat × β)} {xs : List γ} {f : Nat → γ → β}
    (hkeys : l.map Prod.fst = List.range xs.length)
    (hmem : ∀ i x, xs[i]? = some x → (i, f i x) ∈ l) : l = xs.mapIdx fun i x => (i, f i x) := by
  have hlen : l.length = xs.length := by simpa using congrArg List.length hkeys
  refine List.ext_getElem? fun i => ?_
  rw [List.getElem?_mapIdx]
  cases hx : xs[i]? with
  | none =>
    rw [List.getElem?_eq_none_iff] at hx
    rw [List.getElem?_eq_none (by omega)]
    rfl
  | some x => exact getElem?_of_keys hkeys (hmem i x hx)

end Tally

/-! ### As if alone -/

/-- The operation depends on nothing outside `looks`, and changes nothing outside `writes`. -/
structure Local (exec : (o : Op) → ε → L × (K → V) → Res o × (L × (K → V))) (looks writes : Set K)
    (o : Op) : Prop where
  agree : ∀ c l s s', (∀ k ∈ looks, s k = s' k) →
    (exec o c (l, s)).1 = (exec o c (l, s')).1 ∧
    (exec o c (l, s)).2.1 = (exec o c (l, s')).2.1 ∧
    ∀ k ∈ looks, (exec o c (l, s)).2.2 k = (exec o c (l, s')).2.2 k
  spares : ∀ c l s, ∀ k ∉ writes, (exec o c (l, s)).2.2 k = s k

/-- No job writes what another one looks at. -/
structure Apart (exec : (o : Op) → ε → L × (K → V) → Res o × (L × (K → V)))
    (jobs : List (Script Res E α)) (looks writes : Nat → Set K) : Prop where
  calls : ∀ i (p : Script Res E α), jobs[i]? = some p → p.Calls (Local exec (looks i) (writes i))
  apart : ∀ i j, i < jobs.length → j < jobs.length → i ≠ j → ∀ k ∈ writes i, k ∉ looks j

section Alone

variable (exec : (o : Op) → ε → L × (K → V) → Res o × (L × (K → V))) (Q : ε → Prop)
  (jobs : List (Script Res E α)) (own : L) (looks writes : Nat → Set K) (s₀ : K → V)

/-- Job `i` has got where it would have got alone, as far as it can tell. -/
def Got (i : Nat) (p : Script Res E α) (l : L) (store : K → V) : Prop :=
  ∃ p₀ t, jobs[i]? = some p₀ ∧ Reaches exec Q p₀ (own, s₀) p (l, t) ∧ ∀ k ∈ looks i, t k = store k

/-- What is true in every reachable state. -/
structure Ledger (n : Nat) (s : Crew Op Res E α L K V) : Prop extends Tally jobs n s where
  busy : ∀ i p l, .busy i p l ∈ s.hands → Got exec Q jobs own looks s₀ i p l s.store
  done : ∀ x ∈ s.results, ∃ l, Got exec Q jobs own looks s₀ x.1 (.done x.2) l s.store
  frame : ∀ k, (∀ i, i < s.next → i < jobs.length → k ∉ writes i) → s.store k = s₀ k

variable {exec Q jobs own looks writes s₀} {n w i : Nat} {s : Crew Op Res E α L K V} {c : ε}

theorem Got.mono {p : Script Res E α} {l : L} {store store' : K → V}
    (h : Got exec Q jobs own looks s₀ i p l store) (hs : ∀ k ∈ looks i, store' k = store k) :
    Got exec Q jobs own looks s₀ i p l store' := by
  obtain ⟨p₀, t, hp, hr, ht⟩ := h
  exact ⟨p₀, t, hp, hr, fun k hk => (ht k hk).trans (hs k hk).symm⟩

theorem ledger_init (n : Nat) :
    Ledger exec Q jobs own looks writes s₀ n (@Crew.init Op Res E α L K V s₀ n) := by
  refine ⟨tally_init n, ?_, ?_, ?_⟩
  · intro i p l h
    cases idle_init h
  · intro x hx
    cases hx
  · intro k _
    rfl

theorem ledger_step (ha : Apart exec jobs looks writes) (hc : Q c)
    (h : Ledger exec Q jobs own looks writes s₀ n s)
    (hen : (crew exec jobs own n).enabled s w = true) :
    Ledger exec Q jobs own looks writes s₀ n ((crew exec jobs own n).step s w c) := by
  have htally := tally_step h.toTally hen c
  change Tally jobs n (s.step exec jobs own w c) at htally
  change Ledger exec Q jobs own looks writes s₀ n (s.step exec jobs own w c)
  rcases crew_step_cases hen c with ⟨hw, p, hp, hstep⟩ | ⟨hw, hle, hstep⟩ | ⟨i, r, l, hw, hstep⟩ |
    ⟨i, o, next, l, hw, hstep⟩
  · -- the next job: nobody has changed what it looks at
    have hlt := (List.getElem?_eq_some_iff.mp hp).1
    rw [hstep] at htally ⊢
    refine ⟨htally, ?_, h.done, ?_⟩
    · intro j p' l' hmem
      rcases mem_set_busy hmem with hand | ⟨w', -, hw'⟩
      · obtain ⟨rfl, rfl, rfl⟩ := Hand.busy.inj hand
        refine ⟨p, s₀, hp, Reaches.start, fun k hk => (h.frame k fun i hi hilt hki => ?_).symm⟩
        exact ha.apart i s.next hilt hlt (Nat.ne_of_lt hi) k hki hk
      · exact h.busy j p' l' (List.mem_of_getElem? hw')
    · intro k hk
      exact h.frame k fun i hi hilt => hk i (Nat.lt_succ_of_lt hi) hilt
  · rw [hstep] at htally ⊢
    refine ⟨htally, ?_, h.done, ?_⟩
    · intro j p' l' hmem
      rcases mem_set_busy hmem with hand | ⟨w', -, hw'⟩
      · cases hand
      · exact h.busy j p' l' (List.mem_of_getElem? hw')
    · intro k hk
      exact h.frame k fun i hi hilt => hk i (Nat.lt_succ_of_lt hi) hilt
  · rw [hstep] at htally ⊢
    refine ⟨htally, ?_, ?_, h.frame⟩
    · intro j p' l' hmem
      rcases mem_set_busy hmem with hand | ⟨w', -, hw'⟩
      · cases hand
      · exact h.busy j p' l' (List.mem_of_getElem? hw')
    · intro x hx
      rcases List.mem_append.mp hx with hx | hx
      · exact h.done x hx
      · obtain rfl := List.mem_singleton.mp hx
        exact ⟨l, h.busy i (.done r) l (List.mem_of_getElem? hw)⟩
  · -- one operation: the others do not look at what it writes
    obtain ⟨hne, hres⟩ := h.ne hw
    have hi := h.lt_of_busy hw
    have hgot := h.busy i _ l (List.mem_of_getElem? hw)
    obtain ⟨p₀, t, hp₀, hreach, ht⟩ := hgot
    have hlocal : Local exec (looks i) (writes i) o := (hreach.calls (ha.calls i p₀ hp₀)).1
    have hothers : ∀ {j : Nat} {p' : Script Res E α} {l' : L}, j ≠ i →
        Got exec Q jobs own looks s₀ j p' l' s.store →
        Got exec Q jobs own looks s₀ j p' l' (exec o c (l, s.store)).2.2 := by
      intro j p' l' hji hg
      have hjlt : j < jobs.length := by
        obtain ⟨p₁, t₁, hp₁, -⟩ := hg
        exact (List.getElem?_eq_some_iff.mp hp₁).1
      exact hg.mono fun k hk => hlocal.spares c l s.store k fun hki =>
        ha.apart i j (by omega) hjlt (Ne.symm hji) k hki hk
    rw [hstep] at htally ⊢
    refine ⟨htally, ?_, ?_, ?_⟩
    · intro j p' l' hmem
      rcases mem_set_busy hmem with hand | ⟨w', hne', hw'⟩
      · obtain ⟨rfl, rfl, rfl⟩ := Hand.busy.inj hand
        obtain ⟨hans, hown, hstore⟩ := hlocal.agree c l t s.store ht
        refine ⟨p₀, (exec o c (l, t)).2.2, hp₀, ?_, hstore⟩
        rw [← hans, ← hown]
        exact hreach.step hc
      · exact hothers (hne w' j p' l' hne' hw') (h.busy j p' l' (List.mem_of_getElem? hw'))
    · intro x hx
      obtain ⟨l', hg⟩ := h.done x hx
      exact ⟨l', hothers (hres x hx) hg⟩
    · intro k hk
      change (exec o c (l, s.store)).2.2 k = s₀ k
      rw [hlocal.spares c l s.store k (hk i (by simp only; omega) (by omega))]
      exact h.frame k hk

/-- **The ledger holds at the end of every run.** -/
theorem ledger_run (ha : Apart exec jobs looks writes) (n fuel : Nat) (sched : Nat → Nat × ε)
    (hQ : ∀ k, Q (sched k).2) : Ledger exec Q jobs own looks writes s₀ n
      ((crew exec jobs own n).run sched fuel (Crew.init s₀ n)) :=
  System.run_invariant (fun _ _ _ h hc _ hen => ledger_step ha hc h hen) fuel sched _ hQ
    (ledger_init n)

/-- **A job that has ended is as if it had run alone**: its result is that of a run, and what it
looks at is as that run leaves it. -/
theorem Ledger.alone (h : Ledger exec Q jobs own looks writes s₀ n s) (hc : Q c)
    {x : Nat × Except E α} (hx : x ∈ s.results) :
    ∃ p env, jobs[x.1]? = some p ∧ (∀ k, Q (env k)) ∧ (run exec p env (own, s₀)).1 = x.2 ∧
      ∀ k ∈ looks x.1, s.store k = (run exec p env (own, s₀)).2.2 k := by
  obtain ⟨l, p, t, hp, hr, ht⟩ := h.done x hx
  obtain ⟨env, hQ, hrun⟩ := hr.run_eq hc
  refine ⟨p, env, hp, hQ, by rw [hrun], fun k hk => ?_⟩
  rw [hrun]
  exact (ht k hk).symm

/-- What holds along every execution of a job holds of what it looks at, at every moment, and also
before it was begun. -/
theorem Ledger.along (h : Ledger exec Q jobs own looks writes s₀ n s) (ha : Apart exec jobs looks writes)
    {p : Script Res E α} (hp : jobs[i]? = some p) {I : (K → V) → Prop}
    (hlook : ∀ t t', (∀ k ∈ looks i, t k = t' k) → I t → I t')
    (hI : Along exec Q (fun x => I x.2) p (own, s₀)) : I s.store := by
  have hilt := (List.getElem?_eq_some_iff.mp hp).1
  have hgot : ∀ {p' : Script Res E α} {l : L}, Got exec Q jobs own looks s₀ i p' l s.store →
      I s.store := by
    rintro p' l ⟨p₁, t, hp₁, hr, ht⟩
    obtain rfl := Option.some.inj (hp.symm.trans hp₁)
    exact hlook t s.store ht (hr.of_along hI)
  by_cases hnext : i < s.next
  · have hi : i ∈ Multiset.range (min s.next jobs.length) := Multiset.mem_range.mpr (by omega)
    rw [← h.keys, Multiset.mem_add] at hi
    rcases hi with hi | hi
    · obtain ⟨p', l, hbusy⟩ : ∃ p' l, .busy i p' l ∈ s.hands := by
        generalize s.hands = hands at hi
        induction hands with
        | nil => cases hi
        | cons hand hands ih =>
          rw [List.map_cons, List.sum_cons, Multiset.mem_add] at hi
          rcases hi with hi | hi
          · cases hand with
            | busy j p' l =>
              obtain rfl := Multiset.mem_singleton.mp hi
              exact ⟨p', l, List.mem_cons_self⟩
            | idle => cases hi
            | gone => cases hi
          · obtain ⟨p', l, hmem⟩ := ih hi
            exact ⟨p', l, List.mem_cons_of_mem _ hmem⟩
      exact hgot (h.busy i p' l hbusy)
    · obtain ⟨x, hx, rfl⟩ := List.mem_map.mp (Multiset.mem_coe.mp hi)
      obtain ⟨l, hg⟩ := h.done x hx
      exact hgot hg
  · have hstart : Along exec Q (fun x => I x.2) p (own, s₀) → I s₀ := fun hI =>
      (show Reaches exec Q p (own, s₀) p (own, s₀) from .start).of_along hI
    refine hlook s₀ s.store (fun k hk => (h.frame k fun j hj hjlt hkj => ?_).symm) (hstart hI)
    exact ha.apart j i hjlt hilt (by omega) k hkj hk

end Alone

/-! ### All of them end -/

/-- What is left to do: a hand that may still come back, the rest of a job, a job. -/
inductive Task (Op : Type) (Res : Op → Type) (E α : Type)
  | hand
  | rest (p : Script Res E α)
  | job (p : Script Res E α)

/-- A job is begun, and then gets on. -/
inductive Task.Lt : Task Op Res E α → Task Op Res E α → Prop
  | take (p : Script Res E α) : Lt (.rest p) (.job p)
  | answer (o : Op) (next : Res o → Script Res E α) (r : Res o) :
    Lt (.rest (next r)) (.rest (.call o next))

theorem Task.wf : WellFounded (@Task.Lt Op Res E α) := by
  have hrest : ∀ p : Script Res E α, Acc Task.Lt (Task.rest p) := by
    intro p
    induction p with
    | done r =>
      refine ⟨_, fun t ht => ?_⟩
      cases ht
    | call o next ih =>
      refine ⟨_, fun t ht => ?_⟩
      cases ht with
      | answer _ _ r => exact ih r
  refine ⟨fun t => ?_⟩
  cases t with
  | hand => exact ⟨_, fun t ht => by cases ht⟩
  | rest p => exact hrest p
  | job p =>
    refine ⟨_, fun t ht => ?_⟩
    cases ht
    exact hrest p

def Hand.tasks : Hand Op Res E α L → Multiset (Task Op Res E α)
  | .idle => {.hand}
  | .busy _ p _ => {.rest p, .hand}
  | .gone => 0

def Crew.tasks (jobs : List (Script Res E α)) (s : Crew Op Res E α L K V) :
    Multiset (Task Op Res E α) :=
  (s.hands.map Hand.tasks).sum + ((jobs.drop s.next).map Task.job : List (Task Op Res E α))

section Ends

variable {exec : (o : Op) → ε → L × (K → V) → Res o × (L × (K → V))} {jobs : List (Script Res E α)}
  {own : L} {n w : Nat} {s : Crew Op Res E α L K V}

theorem tasks_step (hen : (crew exec jobs own n).enabled s w = true) (c : ε) :
    CutExpand Task.Lt (((crew exec jobs own n).step s w c).tasks jobs) (s.tasks jobs) := by
  change CutExpand Task.Lt ((s.step exec jobs own w c).tasks jobs) (s.tasks jobs)
  rcases crew_step_cases hen c with ⟨hw, p, hp, hstep⟩ | ⟨hw, hle, hstep⟩ | ⟨i, r, l, hw, hstep⟩ |
    ⟨i, o, next, l, hw, hstep⟩
  · rw [hstep]
    have hset := sum_map_set Hand.tasks s.hands w .idle (.busy s.next p own) hw
    have hdrop : jobs.drop s.next = p :: jobs.drop (s.next + 1) := by
      obtain ⟨hlt, rfl⟩ := List.getElem?_eq_some_iff.mp hp
      exact List.drop_eq_getElem_cons hlt
    have hsum : ((s.hands.set w (.busy s.next p own)).map Hand.tasks).sum
        = (s.hands.map Hand.tasks).sum + {.rest p} := by
      refine add_right_cancel (b := ({.hand} : Multiset (Task Op Res E α))) ?_
      rw [add_assoc]
      exact hset
    refine ⟨{.rest p}, .job p, fun t ht => ?_, ?_⟩
    · rw [Multiset.mem_singleton.mp ht]
      exact .take p
    · simp only [Crew.tasks]
      rw [hsum, hdrop, List.map_cons, ← Multiset.cons_coe, ← Multiset.singleton_add]
      simp only [add_assoc, add_comm, add_left_comm]
  · rw [hstep]
    have hset := sum_map_set Hand.tasks s.hands w .idle .gone hw
    refine ⟨0, .hand, fun t ht => absurd ht (Multiset.notMem_zero t), ?_⟩
    simp only [Crew.tasks]
    rw [List.drop_eq_nil_of_le hle, List.drop_eq_nil_of_le (Nat.le_succ_of_le hle), add_right_comm]
    exact congrArg (· + _) hset
  · rw [hstep]
    have hset := sum_map_set Hand.tasks s.hands w (.busy i (.done r) l) .idle hw
    have hsum : ((s.hands.set w .idle).map Hand.tasks).sum + {.rest (.done r)}
        = (s.hands.map Hand.tasks).sum := by
      refine add_right_cancel (b := ({.hand} : Multiset (Task Op Res E α))) ?_
      rw [add_assoc]
      exact hset
    refine ⟨0, .rest (.done r), fun t ht => absurd ht (Multiset.notMem_zero t), ?_⟩
    simp only [Crew.tasks]
    rw [add_right_comm, hsum, add_zero]
  · rw [hstep]
    have hset := sum_map_set Hand.tasks s.hands w (.busy i (.call o next) l)
      (.busy i (next (exec o c (l, s.store)).1) (exec o c (l, s.store)).2.1) hw
    refine ⟨{.rest (next (exec o c (l, s.store)).1)}, .rest (.call o next), fun t ht => ?_, ?_⟩
    · rw [Multiset.mem_singleton.mp ht]
      exact .answer o next _
    · have hsum : ((s.hands.set w (.busy i (next (exec o c (l, s.store)).1)
            (exec o c (l, s.store)).2.1)).map Hand.tasks).sum + {.rest (.call o next)}
          = (s.hands.map Hand.tasks).sum + {.rest (next (exec o c (l, s.store)).1)} := by
        refine add_right_cancel (b := ({.hand} : Multiset (Task Op Res E α))) ?_
        rw [add_assoc, add_assoc]
        exact hset
      simp only [Crew.tasks]
      rw [add_right_comm, hsum, add_right_comm]

/-- **Every run of the crew comes to rest.** -/
theorem crew_quiescent (sched : Nat → Nat × ε) (s : Crew Op Res E α L K V) :
    ∃ fuel, (crew exec jobs own n).ready ((crew exec jobs own n).run sched fuel s) = [] :=
  System.exists_quiescent (InvImage.wf (Crew.tasks jobs) Task.wf.cutExpand)
    (fun _ _ c _ hen => tasks_step hen c) s sched

end Ends

end Lib

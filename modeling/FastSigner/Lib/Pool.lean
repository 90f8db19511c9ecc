import FastSigner.Lib.System
import Mathlib.Algebra.Order.Group.Multiset
import Mathlib.Algebra.Ring.Nat
import Mathlib.Data.Multiset.Range

/-!
# Workers on a shared counter

Several copies of one worker take indices from a shared counter, work on each
and record a value for it.  Between taking an index and recording it a worker
may hold any number of indices, and it may look at the counter without taking
one.  Every access to the counter is one atomic step, and steps of different
workers interleave freely.

A `Kind` is the worker as a program; `Kind.Sound` is what one step of it has to
respect for the pool to be correct.  `Sound.result` is the consequence for every
schedule: all workers finish, every index below `total` is recorded exactly once
with its value, and is announced exactly once.
-/

namespace Lib

variable {W D : Type*}

/-- A worker: a step gets the counter and returns it together with the indices it announces. -/
structure Kind (W D : Type*) where
  start : W
  done : W → Bool
  step : Nat → W → Nat × List Nat × W
  out : W → List (Nat × D)

/-- The counter, the indices announced so far and the workers. -/
structure Pool (W : Type*) where
  next : Nat
  seen : List Nat
  workers : List W

namespace Kind

variable (K : Kind W D)

def init (n : Nat) : Pool W := ⟨0, [], List.replicate n K.start⟩

/-- `n` workers of kind `K` on one counter. -/
def system (n : Nat) : System (Pool W) Unit where
  actors := n
  enabled p i :=
    match p.workers[i]? with
    | some w => !K.done w
    | none => false
  step p i _ :=
    match p.workers[i]? with
    | some w =>
      let r := K.step p.next w
      ⟨r.1, p.seen ++ r.2.1, p.workers.set i r.2.2⟩
    | none => p

def outcome (p : Pool W) : List (Nat × D) := p.workers.flatMap K.out

def keys (w : W) : Multiset Nat := ((K.out w).map Prod.fst : List Nat)

end Kind

/-- The index that a step took, if it is one to work on. -/
def fresh (total before after : Nat) : Multiset Nat :=
  if after = before + 1 ∧ before < total then {before} else 0

/-- What one step of a worker respects. -/
structure Kind.Sound (K : Kind W D) (total : Nat) (value : Nat → D) where
  held : W → Multiset Nat -- The indices taken and not recorded yet.
  unseen : W → Multiset Nat -- The indices taken and not announced yet.
  Inv : Nat → W → Prop
  weight : W → Nat
  cost : Nat → Nat -- The work that an index still to be taken stands for.
  start_held : held K.start = 0
  start_unseen : unseen K.start = 0
  start_out : K.out K.start = []
  start_inv : Inv 0 K.start
  inv_mono : ∀ a b w, Inv a w → a ≤ b → Inv b w
  inv_out : ∀ a w, Inv a w → ∀ x ∈ K.out w, x.2 = value x.1
  inv_done : ∀ a w, Inv a w → K.done w = true → total ≤ a ∧ held w = 0 ∧ unseen w = 0
  step_next : ∀ a w, Inv a w → K.done w = false → (K.step a w).1 = a ∨ (K.step a w).1 = a + 1
  step_held : ∀ a w, Inv a w → K.done w = false →
    held (K.step a w).2.2 + K.keys (K.step a w).2.2
      = held w + K.keys w + fresh total a (K.step a w).1
  step_seen : ∀ a w, Inv a w → K.done w = false →
    unseen (K.step a w).2.2 + ((K.step a w).2.1 : List Nat)
      = unseen w + fresh total a (K.step a w).1
  step_inv : ∀ a w, Inv a w → K.done w = false → Inv (K.step a w).1 (K.step a w).2.2
  step_weight : ∀ a w, Inv a w → K.done w = false →
    weight (K.step a w).2.2
      < weight w + if (K.step a w).1 = a + 1 ∧ a < total then cost a else 0

def remaining (cost : Nat → Nat) (total a : Nat) : Nat :=
  ((List.range' a (total - a)).map cost).sum

theorem remaining_of_lt (cost : Nat → Nat) {total a : Nat} (h : a < total) :
    remaining cost total a = cost a + remaining cost total (a + 1) := by
  obtain ⟨m, hm⟩ : ∃ m, total - a = m + 1 := ⟨total - a - 1, by omega⟩
  rw [remaining, remaining, hm, List.range'_succ, List.map_cons, List.sum_cons,
    show total - (a + 1) = m by omega]

theorem remaining_of_le (cost : Nat → Nat) {total a : Nat} (h : total ≤ a) :
    remaining cost total a = 0 := by
  rw [remaining, Nat.sub_eq_zero_of_le h]
  rfl

theorem coe_flatMap {α β : Type*} (f : α → List β) (l : List α) :
    ((l.flatMap f : List β) : Multiset β) = (l.map fun x => (f x : Multiset β)).sum := by
  induction l with
  | nil => rfl
  | cons a l ih => rw [List.flatMap_cons, List.map_cons, List.sum_cons, ← ih, Multiset.coe_add]

theorem sum_map_eq_zero {α M : Type*} [AddCommMonoid M] {f : α → M} {l : List α}
    (h : ∀ x ∈ l, f x = 0) : (l.map f).sum = 0 := by
  induction l with
  | nil => rfl
  | cons a l ih =>
    rw [List.map_cons, List.sum_cons, h a (by simp), ih (fun x hx => h x (by simp [hx])), add_zero]

namespace Kind.Sound

variable {K : Kind W D} {total : Nat} {value : Nat → D} (S : K.Sound total value)

/-- The ledger of the pool: what was taken is held or recorded, and announced or about to be. -/
structure PoolInv (n : Nat) (p : Pool W) : Prop where
  workers : p.workers.length = n
  inv : ∀ w ∈ p.workers, S.Inv p.next w
  taken : (p.workers.map fun w => S.held w + K.keys w).sum = Multiset.range (min p.next total)
  announced : (p.seen : Multiset Nat) + (p.workers.map S.unseen).sum
    = Multiset.range (min p.next total)

def poolWeight (p : Pool W) : Nat :=
  (p.workers.map S.weight).sum + remaining S.cost total p.next

theorem range_add_fresh {before after : Nat} (h : after = before ∨ after = before + 1) :
    Multiset.range (min before total) + fresh total before after
      = Multiset.range (min after total) := by
  rw [fresh]
  rcases h with rfl | rfl
  · rw [if_neg (by omega), add_zero]
  · by_cases hlt : before < total
    · rw [if_pos ⟨rfl, hlt⟩, Nat.min_eq_left (by omega), Nat.min_eq_left (by omega),
        Multiset.range_succ, add_comm, Multiset.singleton_add]
    · rw [if_neg (by omega), add_zero, Nat.min_eq_right (by omega), Nat.min_eq_right (by omega)]

theorem poolInv_init (n : Nat) : S.PoolInv n (K.init n) := by
  refine ⟨List.length_replicate, ?_, ?_, ?_⟩
  · intro w hw
    rw [Kind.init, List.mem_replicate] at hw
    exact hw.2 ▸ S.start_inv
  · rw [Kind.init, sum_map_eq_zero]
    · simp
    · intro w hw
      rw [(List.mem_replicate.mp hw).2, S.start_held, Kind.keys, S.start_out]
      rfl
  · rw [Kind.init, sum_map_eq_zero]
    · simp
    · intro w hw
      rw [(List.mem_replicate.mp hw).2, S.start_unseen]

variable {S}

theorem system_step {n : Nat} {p : Pool W} {i : Nat} (h : (K.system n).enabled p i = true) :
    ∃ w, p.workers[i]? = some w ∧ K.done w = false ∧ ∀ e, (K.system n).step p i e
      = ⟨(K.step p.next w).1, p.seen ++ (K.step p.next w).2.1,
          p.workers.set i (K.step p.next w).2.2⟩ := by
  simp only [Kind.system] at h ⊢
  cases hw : p.workers[i]? with
  | none => rw [hw] at h; cases h
  | some w =>
    rw [hw] at h
    exact ⟨w, rfl, by simpa using h, fun _ => rfl⟩

theorem poolInv_step {n : Nat} {p : Pool W} {i : Nat} (e : Unit) (hp : S.PoolInv n p)
    (h : (K.system n).enabled p i = true) : S.PoolInv n ((K.system n).step p i e) := by
  obtain ⟨w, hw, hnd, hstep⟩ := system_step h
  have hmem : w ∈ p.workers := List.mem_of_getElem? hw
  have hinv := hp.inv w hmem
  have hnext := S.step_next _ w hinv hnd
  rw [hstep e]
  refine ⟨by rw [List.length_set, hp.workers], ?_, ?_, ?_⟩
  · intro x hx
    rcases mem_set_cases hx with rfl | hx
    · exact S.step_inv _ w hinv hnd
    · exact S.inv_mono _ _ x (hp.inv x hx) (by simp only; omega)
  · have hset := sum_map_set (fun w => S.held w + K.keys w) p.workers i w
      (K.step p.next w).2.2 hw
    rw [S.step_held _ w hinv hnd, hp.taken] at hset
    apply add_right_cancel (b := S.held w + K.keys w)
    rw [hset, ← range_add_fresh hnext]
    simp only [add_assoc, add_comm, add_left_comm]
  · have hset := sum_map_set S.unseen p.workers i w (K.step p.next w).2.2 hw
    have hseen := S.step_seen _ w hinv hnd
    apply add_right_cancel (b := S.unseen w)
    rw [← Multiset.coe_add, add_assoc, hset]
    calc (↑p.seen + ↑(K.step p.next w).2.1 + ((p.workers.map S.unseen).sum
          + S.unseen (K.step p.next w).2.2) : Multiset Nat)
        = (↑p.seen + (p.workers.map S.unseen).sum)
          + (S.unseen (K.step p.next w).2.2 + ↑(K.step p.next w).2.1) := by
          simp only [add_assoc, add_comm, add_left_comm]
      _ = Multiset.range (min p.next total) + (S.unseen w + fresh total p.next (K.step p.next w).1) := by
          rw [hp.announced, hseen]
      _ = Multiset.range (min (K.step p.next w).1 total) + S.unseen w := by
          rw [← range_add_fresh hnext, add_right_comm, add_assoc]

theorem poolWeight_step {n : Nat} {p : Pool W} {i : Nat} (e : Unit) (hp : S.PoolInv n p)
    (h : (K.system n).enabled p i = true) :
    S.poolWeight ((K.system n).step p i e) < S.poolWeight p := by
  obtain ⟨w, hw, hnd, hstep⟩ := system_step h
  have hinv := hp.inv w (List.mem_of_getElem? hw)
  have hset := sum_map_set S.weight p.workers i w (K.step p.next w).2.2 hw
  have hweight := S.step_weight _ w hinv hnd
  rw [hstep e, poolWeight, poolWeight]
  simp only
  rcases S.step_next _ w hinv hnd with hn | hn
  · rw [if_neg (by omega)] at hweight
    rw [hn]
    omega
  · by_cases hlt : p.next < total
    · rw [if_pos ⟨hn, hlt⟩] at hweight
      rw [hn, remaining_of_lt S.cost hlt]
      omega
    · rw [if_neg (by omega)] at hweight
      rw [hn, remaining_of_le S.cost (by omega), remaining_of_le S.cost (by omega)]
      omega

theorem all_done {n : Nat} {p : Pool W} (hp : S.PoolInv n p) (h : (K.system n).ready p = []) :
    ∀ w ∈ p.workers, K.done w = true := by
  intro w hw
  obtain ⟨i, hi, hiw⟩ := List.getElem_of_mem hw
  by_contra hnd
  have hlt : i < n := hp.workers ▸ hi
  have hmem : i ∈ (K.system n).ready p := by
    rw [System.mem_ready]
    refine ⟨hlt, ?_⟩
    simp only [Kind.system, List.getElem?_eq_getElem hi, hiw]
    simpa using hnd
  rw [h] at hmem
  cases hmem

/-- **The ledger holds in every reachable pool.** -/
theorem poolInv_of_reachable {n : Nat} {p : Pool W}
    (h : Relation.ReflTransGen (K.system n).Step (K.init n) p) : S.PoolInv n p :=
  System.reachable_invariant (fun _ _ e hp _ hen => poolInv_step e hp hen) (S.poolInv_init n) h

/-- **From any pool that keeps the ledger, a run that is long enough records every index below
`total` once, with its value, and announces it once.** -/
theorem result_of_poolInv {n fuel : Nat} (hn : 0 < n) (sched : Nat → Nat × Unit) {p₀ : Pool W}
    (hp₀ : S.PoolInv n p₀) (hfuel : S.poolWeight p₀ ≤ fuel) :
    let p := (K.system n).run sched fuel p₀
    ((K.outcome p).map Prod.fst).Perm (List.range total) ∧
      (∀ x ∈ K.outcome p, x.2 = value x.1) ∧ p.seen.Perm (List.range total) := by
  intro p
  have hinv : S.PoolInv n p :=
    System.run_invariant (Q := fun _ => True) (fun s i e hs _ _ hen => poolInv_step e hs hen)
      fuel sched _ (fun _ => trivial) hp₀
  have hquiet : (K.system n).ready p = [] :=
    System.run_quiescent (S.PoolInv n) S.poolWeight
      (fun s i e hs _ hen => poolInv_step e hs hen)
      (fun s i e hs _ hen => poolWeight_step e hs hen) fuel sched _ hp₀ hfuel
  have hdone := all_done hinv hquiet
  have hfin : ∀ w ∈ p.workers, total ≤ p.next ∧ S.held w = 0 ∧ S.unseen w = 0 :=
    fun w hw => S.inv_done _ w (hinv.inv w hw) (hdone w hw)
  have htotal : total ≤ p.next := by
    obtain ⟨w, hw⟩ : ∃ w, w ∈ p.workers :=
      List.exists_mem_of_length_pos (by rw [hinv.workers]; exact hn)
    exact (hfin w hw).1
  refine ⟨?_, ?_, ?_⟩
  · rw [← Multiset.coe_eq_coe, Kind.outcome, List.map_flatMap, coe_flatMap]
    have htaken := hinv.taken
    rw [Nat.min_eq_right htotal, List.map_congr_left (g := K.keys)
      (fun w hw => by rw [(hfin w hw).2.1, zero_add])] at htaken
    exact htaken
  · intro x hx
    obtain ⟨w, hw, hxw⟩ := List.mem_flatMap.mp hx
    exact S.inv_out _ w (hinv.inv w hw) x hxw
  · rw [← Multiset.coe_eq_coe]
    have hann := hinv.announced
    rw [Nat.min_eq_right htotal, sum_map_eq_zero (fun w hw => (hfin w hw).2.2), add_zero] at hann
    exact hann

variable (S)

theorem poolWeight_init (n : Nat) :
    S.poolWeight (K.init n) = n * S.weight K.start + remaining S.cost total 0 := by
  rw [poolWeight, Kind.init, List.map_replicate, List.sum_replicate]
  rfl

/-- **For every schedule, every index below `total` is recorded once, with its value, and
announced once.** -/
theorem result {n fuel : Nat} (hn : 0 < n) (sched : Nat → Nat × Unit)
    (hfuel : n * S.weight K.start + remaining S.cost total 0 ≤ fuel) :
    let p := (K.system n).run sched fuel (K.init n)
    ((K.outcome p).map Prod.fst).Perm (List.range total) ∧
      (∀ x ∈ K.outcome p, x.2 = value x.1) ∧ p.seen.Perm (List.range total) :=
  result_of_poolInv hn sched (S.poolInv_init n) (by rw [S.poolWeight_init]; exact hfuel)

end Kind.Sound

end Lib

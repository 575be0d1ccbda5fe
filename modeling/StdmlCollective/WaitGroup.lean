import Mathlib.Data.Fintype.Option
import Mathlib.Data.List.ReduceOption
import StdmlCollective.ThreadPool

/-!
# `wait_group`

`thread_pool::par0`, `thread_pool::par1` and `multi_thread_runtime::par` make a `wait_group` on
their stack, add a task for every element to the pool and wait. A task ends with `wg.done()`, which
takes the lock, counts down, releases the lock and then notifies. Between the last two the caller
can see that the count is zero, return, and end the life of the `wait_group`, which the task is
still going to notify.

The pool is used by others as well, who add tasks of their own.
-/

namespace StdmlCollective

open Threads

/-- Where a task is: before `f(x)`, before the locked part of `wg.done()`, with the lock, before
`cv_.notify_one()`, at its end. -/
inductive TaskBody where
  | call
  | dec
  | unlock
  | notify
  | done

/-- Where the caller is: it has still to add the tasks `rest` and then to run `own` itself; in
`wg.wait()`, before it takes the lock; asleep there; returned, with the `wait_group` destroyed. -/
inductive ParCaller (J : Type) where
  | adding (rest own : List J)
  | wait
  | asleep
  | ended

/-- One of the three functions on a pool of `n` workers. Tasks of other users of the pool are
`none`; `B` are the threads that add them. `ran` is auxiliary: the elements for which `f` has
returned. -/
structure ParRun (B J : Type) (n : ℕ) where
  pool : ThreadPool (Option B) (Option J) n
  count : ℕ
  locked : Bool
  caller : ParCaller J
  body : Fin n → TaskBody
  ran : List J

/-- The tasks the caller has still to add. -/
def ParCaller.rest {J : Type} : ParCaller J → List J
  | .adding rest _ => rest
  | _ => []

/-- What the caller has still to run itself. -/
def ParCaller.own {J : Type} : ParCaller J → List J
  | .adding _ own => own
  | _ => []

/-- `cv_.notify_one()`: the caller is the only thread that can sleep there. -/
def ParCaller.notify {J : Type} : ParCaller J → ParCaller J
  | .asleep => .wait
  | c => c

/-- What others do with the pool meanwhile, and what the workers do apart from our tasks. Nobody
destroys the pool. -/
def PoolLabel.Other {B J : Type} {n : ℕ} : PoolLabel (Option B) (Option J) n → Prop
  | .add (some _) none => True
  | .add _ _ => False
  | .ran _ none => True
  | .ran _ (some _) => False
  | .stop => False
  | _ => True

/-- Whether a step is one of `wg.done()`. -/
inductive ParLabel where
  | done
  | other

namespace ParRun

variable {B J : Type} {n : ℕ} [DecidableEq B]

/-- The steps of the caller, of its tasks and of everybody else. -/
inductive Step : ParRun B J n → ParLabel → ParRun B J n → Prop where
  | pool {s : ParRun B J n} {l : PoolLabel (Option B) (Option J) n}
      {p : ThreadPool (Option B) (Option J) n} :
      s.pool.Step l p → l.Other → Step s .other { s with pool := p }
  | add {s : ParRun B J n} {j : J} {rest own : List J}
      {p : ThreadPool (Option B) (Option J) n} :
      s.caller = .adding (j :: rest) own → s.pool.Step (.add none (some j)) p →
      Step s .other { s with pool := p, caller := .adding rest own }
  | self {s : ParRun B J n} {j : J} {own : List J} :
      s.caller = .adding [] (j :: own) → s.pool.adder none = .idle →
      Step s .other { s with caller := .adding [] own, ran := s.ran ++ [j] }
  | wait {s : ParRun B J n} :
      s.caller = .adding [] [] → s.pool.adder none = .idle →
        Step s .other { s with caller := .wait }
  | waitReturn {s : ParRun B J n} :
      s.caller = .wait → s.locked = false → s.count = 0 →
      Step s .other { s with caller := .ended }
  | waitSleep {s : ParRun B J n} :
      s.caller = .wait → s.locked = false → s.count ≠ 0 →
      Step s .other { s with caller := .asleep }
  | spurious {s : ParRun B J n} : s.caller = .asleep → Step s .other { s with caller := .wait }
  | call {s : ParRun B J n} {i : Fin n} {j : J} :
      s.pool.worker i = .run (some j) → s.body i = .call →
      Step s .other { s with body := Function.update s.body i .dec, ran := s.ran ++ [j] }
  | dec {s : ParRun B J n} {i : Fin n} :
      s.body i = .dec → s.locked = false →
      Step s .done { s with
        count := s.count - 1, locked := true, body := Function.update s.body i .unlock }
  | unlock {s : ParRun B J n} {i : Fin n} :
      s.body i = .unlock →
      Step s .done { s with locked := false, body := Function.update s.body i .notify }
  | notify {s : ParRun B J n} {i : Fin n} :
      s.body i = .notify →
      Step s .done { s with
        caller := s.caller.notify, body := Function.update s.body i .done }
  | ran {s : ParRun B J n} {i : Fin n} {j : J} {p : ThreadPool (Option B) (Option J) n} :
      s.body i = .done → s.pool.Step (.ran i (some j)) p →
      Step s .other { s with pool := p, body := Function.update s.body i .call }

/-- A `wait_group` for the tasks `jobs` has been made; the caller runs `own` itself. -/
def start (jobs own : List J) : ParRun B J n where
  pool := .start
  count := jobs.length
  locked := false
  caller := .adding jobs own
  body _ := .call
  ran := []

/-- What can come of it. -/
def Reach (s₀ s : ParRun B J n) : Prop := Relation.ReflTransGen (fun s s' => ∃ l, Step s l s') s₀ s

/-! ## The count -/

/-- What a worker is doing for us. -/
def view (s : ParRun B J n) (i : Fin n) : Option J × TaskBody := ((s.pool.current i).join, s.body i)

/-- The element for which a task has been taken from the queue and `f` has not returned. -/
def uncalled : Option J × TaskBody → Multiset J
  | (some j, .call) => {j}
  | _ => 0

/-- Whether a task has been taken from the queue and is not counted. -/
def uncounted : Option J × TaskBody → ℕ
  | (some _, .call) => 1
  | (some _, .dec) => 1
  | _ => 0

/-- The tasks of ours that have been taken from the queue. -/
def started (s : ParRun B J n) : List J := s.pool.started.reduceOption

/-- What holds when the pool has been given `jobs` and the caller runs `own`. -/
structure Inv (jobs own : List J) (s : ParRun B J n) : Prop where
  pool : s.pool.Reach
  added : s.pool.added.reduceOption ++ s.caller.rest = jobs
  ran : (s.ran : Multiset J) + total uncalled s.view + s.caller.own = s.started + own
  count : s.count + s.started.length = jobs.length + total uncounted s.view
  idle : ∀ i, s.body i ≠ .call → (s.pool.current i).join ≠ none
  ended : s.caller = .ended → s.count = 0

section Inv

variable {jobs own : List J} {s s' : ParRun B J n} {l : ParLabel}

omit [DecidableEq B] in
/-- The view of one worker changes. -/
theorem view_eq_update {i : Fin n} {v : Option J × TaskBody}
    (hi : ((s'.pool.current i).join, s'.body i) = v)
    (hne : ∀ k, k ≠ i → (s'.pool.current k).join = (s.pool.current k).join ∧ s'.body k = s.body k) :
    s'.view = Function.update s.view i v := by
  funext k
  by_cases hk : k = i
  · rw [hk, Function.update_self, ← hi, view]
  · rw [Function.update_of_ne hk, view, view, (hne k hk).1, (hne k hk).2]

/-- The tasks that have been taken are among those that have been given to the pool. -/
theorem Inv.length_started_le [Fintype B] (h : Inv jobs own s) :
    s.started.length ≤ jobs.length ∧
      (s.started.length = jobs.length → s.started = jobs) := by
  have hfifo := (ThreadPool.Inv.reach h.pool).fifo
  have hadded := h.added
  rw [hfifo, List.reduceOption_append, List.append_assoc] at hadded
  have hlen := congrArg List.length hadded
  rw [List.length_append] at hlen
  refine ⟨by rw [started]; omega, ?_⟩
  intro heq
  rw [started] at heq ⊢
  have hnil := List.length_eq_zero_iff.mp (show
    (s.pool.queue.reduceOption ++ s.caller.rest).length = 0 by omega)
  rwa [hnil, List.append_nil] at hadded

/-- A worker takes a task from the queue. -/
theorem Inv.take (h : Inv jobs own s) {p : ThreadPool (Option B) (Option J) n} {i : Fin n}
    {f : Option J} (hp : p.Reach) (hadded : p.added = s.pool.added)
    (hstarted : p.started = s.pool.started ++ [f]) (hi : s.pool.current i = none)
    (hcurrent : p.current = Function.update s.pool.current i (some f)) :
    Inv jobs own { s with pool := p } := by
  have hview : ({ s with pool := p } : ParRun B J n).view =
      Function.update s.view i (f, s.body i) := by
    refine view_eq_update ?_ fun k hk => ?_
    · simp only [hcurrent, Function.update_self, Option.join_some]
    · simp only [hcurrent, Function.update_of_ne hk, and_self]
  have hbody : s.body i = .call := by
    by_contra hne
    exact h.idle i hne (by rw [hi]; rfl)
  have hviewi : s.view i = (none, .call) := by rw [view, hi, hbody]; rfl
  have hidle : ∀ k, s.body k ≠ .call → (p.current k).join ≠ none := by
    intro k hk
    rw [hcurrent, Function.update_of_ne]
    · exact h.idle k hk
    · rintro rfl
      exact hk hbody
  have hst : ({ s with pool := p } : ParRun B J n).started = s.started ++ f.toList := by
    rw [started, started, hstarted, List.reduceOption_append]
    cases f <;> rfl
  have hran := total_update uncalled s.view i (f, s.body i)
  have hcount := total_update uncounted s.view i (f, s.body i)
  rw [hviewi, hbody] at hran hcount
  refine ⟨hp, by rw [hadded]; exact h.added, ?_, ?_, hidle, h.ended⟩
  · have hold := h.ran
    rw [hview, hst, hbody]
    cases f with
    | none =>
        simp only [uncalled, add_zero] at hran
        simp only [hran, Option.toList, List.append_nil]
        exact hold
    | some j =>
        simp only [uncalled, add_zero] at hran
        simp only [hran, Option.toList, ← Multiset.coe_add]
        rw [← add_assoc, add_right_comm, hold, add_right_comm]
        rfl
  · have hold := h.count
    rw [hview, hst, hbody, List.length_append]
    cases f with
    | none =>
        simp only [uncounted, Option.toList, List.length_nil] at hcount ⊢
        omega
    | some j =>
        simp only [uncounted, Option.toList, List.length_singleton] at hcount ⊢
        omega

/-- Somebody else does something, or a worker does something that is no part of a task of ours. -/
theorem Inv.other (h : Inv jobs own s) {l : PoolLabel (Option B) (Option J) n}
    {p : ThreadPool (Option B) (Option J) n} (hs : s.pool.Step l p) (hl : l.Other) :
    Inv jobs own { s with pool := p } := by
  have hp : p.Reach := h.pool.tail ⟨l, hs⟩
  -- nothing of ours has changed
  have hsame : p.added.reduceOption = s.pool.added.reduceOption → p.started = s.pool.started →
      (∀ i, (p.current i).join = (s.pool.current i).join) → Inv jobs own { s with pool := p } := by
    intro hadded hstarted hcurrent
    have hview : ({ s with pool := p } : ParRun B J n).view = s.view := by
      funext i
      rw [view, view, hcurrent i]
    refine ⟨hp, by rw [hadded]; exact h.added, ?_, ?_, ?_, h.ended⟩
    · rw [hview, started, hstarted]
      exact h.ran
    · rw [hview, started, hstarted]
      exact h.count
    · intro i hi
      rw [hcurrent i]
      exact h.idle i hi
  by_cases hadd : ∃ a f, l = .add a f
  · obtain ⟨a, f, rfl⟩ := hadd
    obtain ⟨hadded, hstarted, hworker⟩ := hs.add_inv
    cases f with
    | some j => cases a <;> exact hl.elim
    | none =>
        refine hsame ?_ hstarted ?_
        · rw [hadded, List.reduceOption_append]
          exact List.append_nil _
        · intro i
          rw [ThreadPool.current, ThreadPool.current, hworker]
  by_cases hran : ∃ i f, l = .ran i f
  · obtain ⟨i, f, rfl⟩ := hran
    obtain ⟨hi, hadded, hstarted, hworker⟩ := hs.ran_inv
    cases f with
    | some j => exact hl.elim
    | none =>
        refine hsame (by rw [hadded]) hstarted ?_
        intro k
        rw [ThreadPool.current, ThreadPool.current, hworker]
        by_cases hk : k = i
        · rw [hk, Function.update_self, hi]
          rfl
        · rw [Function.update_of_ne hk]
  push Not at hadd hran
  obtain ⟨hadded, ⟨hstarted, hcurrent⟩ | ⟨i, f, hstarted, hi, hcurrent⟩⟩ := hs.current hadd hran
  · exact hsame (by rw [hadded]) hstarted fun i => by rw [hcurrent]
  · exact h.take hp hadded hstarted hi hcurrent

/-- A task takes a step of its body. -/
theorem Inv.body (h : Inv jobs own s) {i : Fin n} {j : J} {x : TaskBody}
    (hi : (s.pool.current i).join = some j) (hp : s'.pool = s.pool)
    (hb : s'.body = Function.update s.body i x) (hrest : s'.caller.rest = s.caller.rest)
    (hown : s'.caller.own = s.caller.own) (hended : s'.caller = .ended → s'.count = 0)
    (hran : (s'.ran : Multiset J) + uncalled (some j, x) = s.ran + uncalled (some j, s.body i))
    (hcount : s'.count + uncounted (some j, s.body i) = s.count + uncounted (some j, x)) :
    Inv jobs own s' := by
  have hview : s'.view = Function.update s.view i (some j, x) := by
    refine view_eq_update ?_ fun k hk => ?_
    · rw [hp, hb, hi, Function.update_self]
    · rw [hp, hb, Function.update_of_ne hk]
      exact ⟨rfl, rfl⟩
  have hviewi : s.view i = (some j, s.body i) := by rw [view, hi]
  have hcalled := total_update uncalled s.view i (some j, x)
  have hcounted := total_update uncounted s.view i (some j, x)
  rw [hviewi] at hcalled hcounted
  refine ⟨hp ▸ h.pool, by rw [hp, hrest]; exact h.added, ?_, ?_, ?_, hended⟩
  · rw [hview, hown, started, hp]
    have hold := h.ran
    refine add_right_cancel (b := uncalled (some j, s.body i)) ?_
    calc (s'.ran : Multiset J) + total uncalled (Function.update s.view i (some j, x)) +
            s.caller.own + uncalled (some j, s.body i)
        = s'.ran + (total uncalled (Function.update s.view i (some j, x)) +
            uncalled (some j, s.body i)) + s.caller.own := by rw [add_right_comm, ← add_assoc]
      _ = s'.ran + uncalled (some j, x) + total uncalled s.view + s.caller.own := by
          rw [hcalled, add_comm (total uncalled s.view), ← add_assoc]
      _ = s.ran + total uncalled s.view + s.caller.own + uncalled (some j, s.body i) := by
          rw [hran, add_right_comm (s.ran : Multiset J), add_right_comm _ (uncalled _)]
      _ = s.started + own + uncalled (some j, s.body i) := by rw [hold]
  · have hold := h.count
    rw [hview, started, hp]
    change s'.count + s.started.length = _
    omega
  · intro k hk
    rw [hp]
    by_cases hki : k = i
    · rw [hki, hi]
      nofun
    · rw [hb, Function.update_of_ne hki] at hk
      exact h.idle k hk

/-- A task of ours is over, and its worker is told so. -/
theorem Inv.done (h : Inv jobs own s) {i : Fin n} {j : J}
    {p : ThreadPool (Option B) (Option J) n} (hb : s.body i = .done)
    (hp : s.pool.Step (.ran i (some j)) p) :
    Inv jobs own { s with pool := p, body := Function.update s.body i .call } := by
  obtain ⟨hi, hadded, hstarted, hworker⟩ := hp.ran_inv
  have hcurrent : ∀ k, k ≠ i → p.current k = s.pool.current k := by
    intro k hk
    rw [ThreadPool.current, ThreadPool.current, hworker, Function.update_of_ne hk]
  have hview : ({ s with pool := p, body := Function.update s.body i .call } : ParRun B J n).view =
      Function.update s.view i (none, .call) := by
    refine view_eq_update ?_ fun k hk => ?_
    · simp only [ThreadPool.current, hworker, Function.update_self, Option.join_none]
    · simp only [hcurrent k hk, Function.update_of_ne hk, and_self]
  have hviewi : s.view i = (some j, .done) := by
    rw [view, ThreadPool.current, hi, hb]
    rfl
  refine ⟨h.pool.tail ⟨_, hp⟩, by rw [hadded]; exact h.added, ?_, ?_, ?_, h.ended⟩
  · rw [hview, total_update_of_eq (by rw [hviewi]; rfl), started, hstarted]
    exact h.ran
  · rw [hview, total_update_of_eq (by rw [hviewi]; rfl), started, hstarted]
    exact h.count
  · intro k hk
    by_cases hki : k = i
    · rw [hki] at hk
      exact absurd (Function.update_self ..) hk
    · simp only [Function.update_of_ne hki] at hk
      simp only [hcurrent k hki]
      exact h.idle k hk

/-- The caller moves on. -/
theorem Inv.caller (h : Inv jobs own s) {c : ParCaller J} (hrest : c.rest = s.caller.rest)
    (hown : c.own = s.caller.own) (hended : c = .ended → s.count = 0) :
    Inv jobs own { s with caller := c } :=
  ⟨h.pool, by rw [hrest]; exact h.added, by rw [hown]; exact h.ran, h.count, h.idle, hended⟩

theorem Inv.add (h : Inv jobs own s) {j : J} {rest own' : List J}
    {p : ThreadPool (Option B) (Option J) n} (hc : s.caller = .adding (j :: rest) own')
    (hp : s.pool.Step (.add none (some j)) p) :
    Inv jobs own { s with pool := p, caller := .adding rest own' } := by
  obtain ⟨hadded, hstarted, hworker⟩ := hp.add_inv
  have hcurrent : p.current = s.pool.current := by
    funext k
    rw [ThreadPool.current, ThreadPool.current, hworker]
  have hview :
      ({ s with pool := p, caller := .adding rest own' } : ParRun B J n).view = s.view := by
    funext k
    rw [view, view, hcurrent]
  have hadd := h.added
  have hran := h.ran
  rw [hc] at hadd hran
  refine ⟨h.pool.tail ⟨_, hp⟩, ?_, ?_, ?_, ?_, by simp⟩
  · rw [hadded, List.reduceOption_append, List.append_assoc]
    exact hadd
  · rw [hview, started, hstarted]
    exact hran
  · rw [hview, started, hstarted]
    exact h.count
  · rw [hcurrent]
    exact h.idle

theorem Inv.step [Fintype B] (h : Inv jobs own s) (hs : Step s l s') : Inv jobs own s' := by
  cases hs with
  | pool hp hl => exact h.other hp hl
  | add hc hp => exact h.add hc hp
  | @self j own' hc _ =>
      have hadd := h.added
      have hran := h.ran
      rw [hc] at hadd hran
      refine ⟨h.pool, hadd, ?_, h.count, h.idle, by simp⟩
      change ((s.ran ++ [j] : List J) : Multiset J) + total uncalled s.view + own' = s.started + own
      rw [← hran, ← Multiset.coe_add]
      change _ =
        (s.ran : Multiset J) + total uncalled s.view + (([j] ++ own' : List J) : Multiset J)
      rw [← Multiset.coe_add, add_right_comm (s.ran : Multiset J), add_assoc]
  | wait hc _ | waitSleep hc _ _ | spurious hc =>
      exact h.caller (by rw [hc]; rfl) (by rw [hc]; rfl) (by simp)
  | waitReturn hc _ hzero => exact h.caller (by rw [hc]; rfl) (by rw [hc]; rfl) fun _ => hzero
  | @call i j hi hb =>
      have hcurrent : (s.pool.current i).join = some j := by
        rw [ThreadPool.current, hi]
        rfl
      refine h.body hcurrent rfl rfl rfl rfl h.ended ?_ ?_
      · rw [hb, ← Multiset.coe_add]
        exact add_zero _
      · rw [hb]
        rfl
  | @dec i hb _ =>
      have ht := h.idle i (by rw [hb]; simp)
      obtain ⟨j, hj⟩ := Option.ne_none_iff_exists'.mp ht
      have hpos : 0 < s.count := by
        have hle := h.length_started_le.1
        have hcount := h.count
        have hone := le_total uncounted s.view i
        rw [view, hj, hb] at hone
        simp only [uncounted] at hone
        omega
      refine h.body hj rfl rfl rfl rfl ?_ ?_ ?_
      · intro hc
        change s.count - 1 = 0
        rw [h.ended hc]
      · rw [hb]
        rfl
      · rw [hb]
        change s.count - 1 + 1 = s.count
        omega
  | @unlock i hb =>
      have ht := h.idle i (by rw [hb]; simp)
      obtain ⟨j, hj⟩ := Option.ne_none_iff_exists'.mp ht
      exact h.body hj rfl rfl rfl rfl h.ended (by rw [hb]; rfl) (by rw [hb]; rfl)
  | @notify i hb =>
      have ht := h.idle i (by rw [hb]; simp)
      obtain ⟨j, hj⟩ := Option.ne_none_iff_exists'.mp ht
      have hcaller : s.caller.notify.rest = s.caller.rest ∧ s.caller.notify.own = s.caller.own ∧
          (s.caller.notify = .ended → s.caller = .ended) := by
        cases s.caller <;> exact ⟨rfl, rfl, by simp [ParCaller.notify]⟩
      exact h.body hj rfl rfl hcaller.1 hcaller.2.1 (fun hc => h.ended (hcaller.2.2 hc))
        (by rw [hb]; rfl) (by rw [hb]; rfl)
  | ran hb hp => exact h.done hb hp

theorem Inv.start (jobs own : List J) : Inv jobs own (ParRun.start jobs own : ParRun B J n) := by
  have hview : (ParRun.start jobs own : ParRun B J n).view = fun _ => (none, .call) := rfl
  refine ⟨.refl, rfl, ?_, ?_, fun _ h => absurd rfl h, nofun⟩
  · rw [hview, show total uncalled (fun _ : Fin n => ((none : Option J), TaskBody.call)) = 0 from
      Finset.sum_eq_zero fun _ _ => rfl]
    rfl
  · rw [hview, total_eq_zero (w := uncounted) fun _ => rfl]
    rfl

theorem Inv.reach [Fintype B] (h : Reach (ParRun.start jobs own) s) : Inv jobs own s := by
  induction h with
  | refl => exact .start jobs own
  | tail _ hs ih =>
      obtain ⟨l, hs⟩ := hs
      exact ih.step hs

/-- No task of ours is before its locked part when the count is zero. -/
theorem Inv.uncounted_eq_zero [Fintype B] (h : Inv jobs own s) (hzero : s.count = 0) :
    s.started = jobs ∧ ∀ i, uncounted (s.view i) = 0 := by
  have hcount := h.count
  obtain ⟨hle, heq⟩ := h.length_started_le
  refine ⟨heq (by omega), ?_⟩
  intro i
  have hi := le_total uncounted s.view i
  omega

/-- All elements have been run when `wg.wait()` has returned. -/
theorem Inv.perm [Fintype B] (h : Inv jobs own s) (hc : s.caller = .ended) :
    s.ran.Perm (own ++ jobs) := by
  obtain ⟨hstarted, hcounted⟩ := h.uncounted_eq_zero (h.ended hc)
  have huncalled : total uncalled s.view = 0 := by
    refine Finset.sum_eq_zero fun i _ => ?_
    have hi := hcounted i
    rcases hv : s.view i with ⟨_ | j, b⟩
    · rfl
    · rw [hv] at hi
      cases b with
      | call => cases hi
      | dec | unlock | notify | done => rfl
  have hran := h.ran
  rw [hc, huncalled, hstarted, add_zero, show (ParCaller.ended : ParCaller J).own = [] from rfl,
    Multiset.coe_nil, add_zero, add_comm, Multiset.coe_add] at hran
  exact Multiset.coe_eq_coe.mp hran

end Inv

/-! ## The last notification -/

/-- No step of `wg.done()` is taken when the `wait_group` is gone, and all elements have been run by
then. -/
structure Outlives (xs : List J) (s : ParRun B J n) : Prop where
  late : ∀ s', Step s .done s' → s.caller ≠ .ended
  all : s.caller = .ended → s.ran.Perm xs

section Last

variable {jobs own rest : List J} {s s' : ParRun B J n} {l : ParLabel}

/-- A step of `wg.done()` belongs to a task of ours. -/
theorem Inv.exists_job [Fintype B] (h : Inv jobs own s) (hs : Step s .done s') :
    jobs ≠ [] ∧ 0 < n := by
  have hbody : ∃ i, s.body i ≠ .call := by
    cases hs with
    | @dec i hb | @unlock i hb | @notify i hb => exact ⟨i, by rw [hb]; nofun⟩
  obtain ⟨i, hi⟩ := hbody
  refine ⟨?_, i.pos⟩
  rintro rfl
  obtain ⟨j, hj⟩ := Option.ne_none_iff_exists'.mp (h.idle i hi)
  have hmem : some j ∈ s.pool.started := by
    have hdone := (ThreadPool.Inv.reach h.pool).done
    rw [← Multiset.mem_coe, hdone, Multiset.mem_add]
    refine .inr (Multiset.mem_sum.mpr ⟨i, Finset.mem_univ i, ?_⟩)
    rw [ThreadPool.current] at hj
    cases hw : s.pool.worker i with
    | run f =>
        rw [hw] at hj
        rw [show f = some j from hj]
        exact Multiset.mem_singleton_self _
    | get | asleep | check | pop | finish | notify | left =>
        rw [hw] at hj
        cases hj
  have hpos := List.length_pos_of_mem (List.reduceOption_mem_iff.mpr hmem)
  have hle := h.length_started_le.1
  rw [started, List.length_nil] at hle
  omega

/-- `wg.wait()` returns only when no task is between the two parts of `wg.done()`. -/
def Prompt (s s' : ParRun B J n) : Prop :=
  s.caller ≠ .ended → s'.caller = .ended → ∀ i, s.body i ≠ .notify

/-- What can come of it when every return of `wg.wait()` is such. -/
def PromptReach (s₀ s : ParRun B J n) : Prop :=
  Relation.ReflTransGen (fun s s' => (∃ l, Step s l s') ∧ Prompt s s') s₀ s

/-- The lock is held by one task at a time, and no task is inside `wg.done()` after the return. -/
structure Locked (s : ParRun B J n) : Prop where
  held : ∀ i, s.body i = .unlock → s.locked = true
  one : ∀ i k, s.body i = .unlock → s.body k = .unlock → i = k
  ended : s.caller = .ended → ∀ i, s.body i = .call ∨ s.body i = .done

omit [DecidableEq B] in
/-- A task takes a step that does not lock. -/
theorem Locked.update (h : Locked s) {i : Fin n} {x : TaskBody}
    (hb : s'.body = Function.update s.body i x) (hx : x ≠ .unlock)
    (hl : s'.locked = s.locked ∨ s.body i = .unlock)
    (hended : s'.caller = .ended → s.caller = .ended ∧ (x = .call ∨ x = .done)) : Locked s' := by
  have hof : ∀ k, s'.body k = .unlock → k ≠ i ∧ s.body k = .unlock := by
    intro k hk
    rw [hb, Function.update_apply] at hk
    split at hk
    · exact absurd hk hx
    · exact ⟨‹_›, hk⟩
  refine ⟨?_, ?_, ?_⟩
  · intro k hk
    obtain ⟨hne, hk⟩ := hof k hk
    rcases hl with hl | hl
    · rw [hl]
      exact h.held k hk
    · exact absurd (h.one k i hk hl) hne
  · intro k k' hk hk'
    exact h.one k k' (hof k hk).2 (hof k' hk').2
  · intro hc k
    obtain ⟨hc, hx⟩ := hended hc
    rw [hb, Function.update_apply]
    split
    · exact hx
    · exact h.ended hc k

theorem Locked.step [Fintype B] (h : Locked s) (hinv : Inv jobs own s) (hs : Step s l s')
    (hprompt : Prompt s s') : Locked s' := by
  cases hs with
  | pool => exact ⟨h.held, h.one, h.ended⟩
  | add | self | wait | waitSleep | spurious => exact ⟨h.held, h.one, by simp⟩
  | waitReturn hc hfree hzero =>
      refine ⟨h.held, h.one, ?_⟩
      intro _ i
      change s.body i = .call ∨ s.body i = .done
      cases hb : s.body i with
      | call => exact .inl rfl
      | done => exact .inr rfl
      | notify => exact absurd hb (hprompt (by rw [hc]; simp) rfl i)
      | unlock =>
          rw [h.held i hb] at hfree
          cases hfree
      | dec =>
          -- a task before its locked part is not counted
          obtain ⟨j, hj⟩ := Option.ne_none_iff_exists'.mp (hinv.idle i (by rw [hb]; simp))
          have hi := (hinv.uncounted_eq_zero hzero).2 i
          rw [view, hj, hb] at hi
          cases hi
  | @call i j hi hb =>
      refine h.update (i := i) rfl (by simp) (.inl rfl) ?_
      intro hc
      have hzero := (hinv.uncounted_eq_zero (hinv.ended hc)).2 i
      rw [view, ThreadPool.current, hi, hb] at hzero
      cases hzero
  | @dec i hb hfree =>
      have hnone : ∀ k, s.body k ≠ .unlock := by
        intro k hk
        rw [h.held k hk] at hfree
        cases hfree
      have hof : ∀ k, Function.update s.body i .unlock k = .unlock → k = i := by
        intro k hk
        by_contra hne
        rw [Function.update_of_ne hne] at hk
        exact hnone k hk
      refine ⟨fun _ _ => rfl, fun k k' hk hk' => (hof k hk).trans (hof k' hk').symm, ?_⟩
      intro hc
      rcases h.ended hc i with hi | hi <;> rw [hb] at hi <;> cases hi
  | @unlock i hb =>
      refine h.update (i := i) rfl (by simp) (.inr hb) ?_
      intro hc
      rcases h.ended hc i with hi | hi <;> rw [hb] at hi <;> cases hi
  | @notify i hb =>
      refine h.update (i := i) rfl (by simp) (.inl rfl) ?_
      intro hc
      refine ⟨?_, .inr rfl⟩
      cases hcaller : s.caller with
      | ended => rfl
      | adding | wait | asleep => simp [hcaller, ParCaller.notify] at hc
  | @ran i j p hb hp => exact h.update (i := i) rfl (by simp) (.inl rfl) fun hc => ⟨hc, .inl rfl⟩

/-- The caller outlives every `wg.done()` when it is prompt. -/
theorem outlives_of_prompt [Fintype B] (hs : PromptReach (ParRun.start jobs own) s) :
    s.Outlives (own ++ jobs) := by
  have hboth : Inv jobs own s ∧ Locked s := by
    induction hs with
    | refl => exact ⟨.start jobs own, nofun, nofun, nofun⟩
    | tail _ hs ih =>
        obtain ⟨⟨l, hs⟩, hprompt⟩ := hs
        exact ⟨ih.1.step hs, ih.2.step ih.1 hs hprompt⟩
  obtain ⟨hinv, hlocked⟩ := hboth
  refine ⟨?_, hinv.perm⟩
  intro s' hdone hc
  cases hdone with
  | @dec i hb | @unlock i hb | @notify i hb =>
      rcases hlocked.ended hc i with hi | hi <;> rw [hb] at hi <;> cases hi

theorem outlives_of_none [Fintype B] (h : jobs = [] ∨ n = 0)
    (hs : Reach (ParRun.start jobs own) s) : s.Outlives (own ++ jobs) := by
  have hinv := Inv.reach hs
  refine ⟨?_, hinv.perm⟩
  intro s' hdone
  obtain ⟨hne, hpos⟩ := hinv.exists_job hdone
  rcases h with h | h
  · exact absurd h hne
  · omega

/-- Nothing is under way, and the caller is going to add `rest`. -/
structure Ready (rest own : List J) (s : ParRun B J n) : Prop where
  queue : s.pool.queue = []
  value : s.pool.value = 0
  stopped : s.pool.stopped = false
  worker : ∀ i, s.pool.worker i = .get
  adder : s.pool.adder none = .idle
  waits : ∀ c, s.pool.waits c = .idle
  locked : s.locked = false
  body : ∀ i, s.body i = .call
  caller : s.caller = .adding rest own
  count : s.count = rest.length

/-- A task of ours has counted down and is going to notify; nothing else is under way. -/
structure Late (i : Fin n) (j : J) (rest own : List J) (s : ParRun B J n) : Prop where
  queue : s.pool.queue = []
  value : s.pool.value = 0
  stopped : s.pool.stopped = false
  worker : s.pool.worker = Function.update (fun _ => PoolWorker.get) i (.run (some j))
  adder : s.pool.adder none = .idle
  waits : ∀ c, s.pool.waits c = .idle
  locked : s.locked = false
  body : s.body = Function.update (fun _ => TaskBody.call) i .notify
  caller : s.caller = .adding rest own
  count : s.count = rest.length

/-- The caller adds a task, and a worker takes it and counts down. -/
theorem Ready.late {j : J} (h : Ready (j :: rest) own s) (i : Fin n) :
    ∃ s', Reach s s' ∧ Late i j rest own s' := by
  obtain ⟨p₁, p₂, p₃, h₁, h₂, h₃, rfl⟩ :=
    ThreadPool.Step.add_whole (s := s.pool) none (some j) h.adder fun k => by rw [h.worker k]; rfl
  have hone : wrap (s.pool.value + 1) = 1 := by
    rw [h.value]
    exact wrap_eq_self (by decide) (by decide)
  have r₁ : Reach s _ := .single ⟨_, .add h.caller h₁⟩
  have r₂ := r₁.tail ⟨_, .pool h₂ trivial⟩
  have r₃ := r₂.tail ⟨_, .pool h₃ trivial⟩
  have r₄ := r₃.tail ⟨_, .pool (.get (i := i) (h.worker i) (by simp only [hone]; decide)) trivial⟩
  have r₅ := r₄.tail ⟨_, .pool (.go (i := i) (Function.update_self ..) h.stopped) trivial⟩
  have r₆ := r₅.tail ⟨_, .pool (.pop (i := i) (f := some j) (q := []) (Function.update_self ..)
    (by simp only [h.queue, List.nil_append])) trivial⟩
  have r₇ := r₆.tail ⟨_, .call (i := i) (j := j) (Function.update_self ..) (h.body i)⟩
  have r₈ := r₇.tail ⟨_, .dec (i := i) (Function.update_self ..) h.locked⟩
  have r₉ := r₈.tail ⟨_, .unlock (i := i) (Function.update_self ..)⟩
  refine ⟨_, r₉, rfl, ?_, h.stopped, ?_, h.adder, h.waits, rfl, ?_, rfl, ?_⟩
  · simp only [hone, sub_self, wrap_zero]
  · simp only [Function.update_idem, funext h.worker]
  · simp only [Function.update_idem, funext h.body]
  · simp only [h.count, List.length_cons, Nat.add_sub_cancel]

/-- The task notifies and ends, and the worker looks for the next one. -/
theorem Late.ready {i : Fin n} {j : J} (h : Late i j rest own s) :
    ∃ s', Reach s s' ∧ Ready rest own s' := by
  have hwi : s.pool.worker i = .run (some j) := by rw [h.worker, Function.update_self]
  have hbi : s.body i = .notify := by rw [h.body, Function.update_self]
  have r₁ : Reach s _ := .single ⟨_, .notify hbi⟩
  have r₂ := r₁.tail ⟨_, .ran (i := i) (j := j) (Function.update_self ..) (.ran hwi)⟩
  have r₃ := r₂.tail ⟨_, .pool (.finish (i := i) (Function.update_self ..)) trivial⟩
  have r₄ := r₃.tail ⟨_, .pool (.notify (i := i) (Function.update_self ..)
    (.inr ⟨fun c => by rw [h.waits c]; rfl, rfl⟩)) trivial⟩
  refine ⟨_, r₄, h.queue, h.value, h.stopped, ?_, h.adder, h.waits, h.locked, ?_, ?_, h.count⟩
  · intro k
    simp [h.worker, Function.update_apply]
  · intro k
    simp [h.body, Function.update_apply]
  · simp only [h.caller, ParCaller.notify]

/-- All tasks but the last are over. -/
theorem Ready.last {rest : List J} (h : Ready rest own s) (hne : rest ≠ []) (i : Fin n) :
    ∃ j s', Reach s s' ∧ Late i j [] own s' := by
  induction rest generalizing s with
  | nil => exact absurd rfl hne
  | cons j rest ih =>
      obtain ⟨s₁, r₁, hlate⟩ := h.late i
      cases rest with
      | nil => exact ⟨j, s₁, r₁, hlate⟩
      | cons j' rest =>
          obtain ⟨s₂, r₂, hready⟩ := hlate.ready
          obtain ⟨k, s₃, r₃, hlast⟩ := ih hready nofun
          exact ⟨k, s₃, (r₁.trans r₂).trans r₃, hlast⟩

/-- The caller returns before the last task notifies. -/
theorem Late.ended {i : Fin n} {j : J} (h : Late i j [] own s) :
    ∃ s', Reach s s' ∧ s'.caller = .ended ∧ s'.body i = .notify := by
  have hadder := h.adder
  have hcaller := h.caller
  have hbody : s.body i = .notify := by rw [h.body, Function.update_self]
  have hlocked := h.locked
  have hcount := h.count
  clear h
  induction own generalizing s with
  | nil =>
      have r₁ : Reach s _ := .single ⟨_, .wait hcaller hadder⟩
      have r₂ := r₁.tail ⟨_, .waitReturn rfl hlocked hcount⟩
      exact ⟨_, r₂, rfl, hbody⟩
  | cons x own ih =>
      obtain ⟨s', r, hs'⟩ := ih (s := { s with caller := .adding [] own, ran := s.ran ++ [x] })
        hadder rfl hbody hlocked hcount
      exact ⟨s', r.head ⟨_, .self hcaller hadder⟩, hs'⟩

/-- The step that comes too late. -/
theorem exists_late (hne : jobs ≠ []) (hn : 0 < n) :
    ∃ s s' : ParRun B J n, Reach (ParRun.start jobs own) s ∧ Step s .done s' ∧
      s.caller = .ended := by
  have hready : Ready jobs own (ParRun.start jobs own : ParRun B J n) :=
    ⟨rfl, rfl, rfl, fun _ => rfl, rfl, fun _ => rfl, rfl, fun _ => rfl, rfl, rfl⟩
  obtain ⟨j, s₁, r₁, hlate⟩ := hready.last hne ⟨0, hn⟩
  obtain ⟨s₂, r₂, hcaller, hbody⟩ := hlate.ended
  exact ⟨s₂, _, r₁.trans r₂, .notify hbody, hcaller⟩

end Last

end ParRun

section Par

variable {J : Type} (B : Type) (n : ℕ)

/-- `thread_pool::par0`. -/
def par0 (xs : List J) : Option (ParRun B J n) := some (.start xs [])

/-- `thread_pool::par1`; it returns at once when there is nothing to do. -/
def par1 : List J → Option (ParRun B J n)
  | [] => none
  | x :: xs => some (.start xs [x])

/-- `multi_thread_runtime::par`, where `f` is `task::finish`. -/
def runtimePar (tasks : List J) : Option (ParRun B J n) := some (.start tasks [])

variable {B n}

/-- Whatever the threads do, the `wait_group` outlives every `wg.done()`. -/
def ParSafe (c : Option (ParRun B J n)) (xs : List J) [DecidableEq B] : Prop :=
  ∀ s₀ ∈ c, ∀ s, ParRun.Reach s₀ s → s.Outlives xs

/-- It does when `wg.wait()` is prompt. -/
def ParPromptSafe (c : Option (ParRun B J n)) (xs : List J) [DecidableEq B] : Prop :=
  ∀ s₀ ∈ c, ∀ s, ParRun.PromptReach s₀ s → s.Outlives xs

/-- All elements have been run when the function returns. -/
def ParComplete (c : Option (ParRun B J n)) (xs : List J) [DecidableEq B] : Prop :=
  ∀ s₀ ∈ c, ∀ s, ParRun.Reach s₀ s → s.caller = .ended → s.ran.Perm xs

section Safe

variable [DecidableEq B] [Fintype B]

theorem parPromptSafe_start (jobs own : List J) :
    ParPromptSafe (some (.start jobs own : ParRun B J n)) (own ++ jobs) := by
  rintro _ ⟨⟩ s hs
  exact ParRun.outlives_of_prompt hs

theorem parComplete_start (jobs own : List J) :
    ParComplete (some (.start jobs own : ParRun B J n)) (own ++ jobs) := by
  rintro _ ⟨⟩ s hs
  exact (ParRun.Inv.reach hs).perm

theorem parSafe_start_iff (jobs own : List J) :
    ParSafe (some (.start jobs own : ParRun B J n)) (own ++ jobs) ↔ jobs = [] ∨ n = 0 := by
  constructor
  · intro hsafe
    by_contra hnot
    rw [not_or] at hnot
    obtain ⟨s, s', hs, hdone, hended⟩ : ∃ s s' : ParRun B J n,
        ParRun.Reach (.start jobs own) s ∧ ParRun.Step s .done s' ∧ s.caller = .ended :=
      ParRun.exists_late hnot.1 (Nat.pos_of_ne_zero hnot.2)
    exact (hsafe _ rfl s hs).late s' hdone hended
  · rintro h _ ⟨⟩ s hs
    exact ParRun.outlives_of_none h hs

/-- **When the `wait_group` outlives every `wg.done()`.** All elements have been run when the
function returns. No step of `wg.done()` comes later than that when `wg.wait()` returns only while
no task is between the two parts of `wg.done()`. The functions do not see to that: there is a run
with a step that comes too late as soon as a task is given to a pool that has a worker. -/
theorem wait_group_safe_iff (xs : List J) :
    (∀ c ∈ [par0 B n xs, par1 B n xs, runtimePar B n xs],
      ParComplete c xs ∧ ParPromptSafe c xs) ∧
    (ParSafe (par0 B n xs) xs ↔ xs = [] ∨ n = 0) ∧
    (ParSafe (par1 B n xs) xs ↔ xs.length ≤ 1 ∨ n = 0) ∧
    (ParSafe (runtimePar B n xs) xs ↔ xs = [] ∨ n = 0) := by
  have hall : ∀ c ∈ [par0 B n xs, par1 B n xs, runtimePar B n xs],
      ParComplete c xs ∧ ParPromptSafe c xs := by
    intro c hc
    simp only [List.mem_cons, List.not_mem_nil, or_false] at hc
    rcases hc with rfl | rfl | rfl
    · exact ⟨parComplete_start xs [], parPromptSafe_start xs []⟩
    · cases xs with
      | nil => constructor <;> rintro _ ⟨⟩
      | cons x xs => exact ⟨parComplete_start xs [x], parPromptSafe_start xs [x]⟩
    · exact ⟨parComplete_start xs [], parPromptSafe_start xs []⟩
  have hpar1 : ParSafe (par1 B n xs) xs ↔ xs.length ≤ 1 ∨ n = 0 := by
    cases xs with
    | nil =>
        refine ⟨fun _ => .inl (Nat.zero_le 1), fun _ => ?_⟩
        rintro _ ⟨⟩
    | cons x xs =>
        refine (parSafe_start_iff xs [x]).trans (or_congr_left ?_)
        rw [List.length_cons, ← List.length_eq_zero_iff]
        omega
  exact ⟨hall, parSafe_start_iff xs [], hpar1, parSafe_start_iff xs []⟩

/-- One element and one worker: the task notifies when the caller has returned. -/
theorem not_parSafe_one : ¬ParSafe (par0 Unit 1 [()]) [()] := by
  intro hsafe
  rcases (parSafe_start_iff (B := Unit) (n := 1) [()] []).mp hsafe with h | h <;> cases h

end Safe

end Par

end StdmlCollective

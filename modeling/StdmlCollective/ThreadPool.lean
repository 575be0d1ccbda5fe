import Mathlib.Algebra.BigOperators.Group.Finset.Basic
import Mathlib.Algebra.Order.BigOperators.Group.Multiset
import Mathlib.Algebra.BigOperators.Group.Multiset.Basic
import Mathlib.Data.Fintype.Card
import StdmlCollective.Lib.Threads

/-!
# `thread_pool_impl`

A pool of `n` workers with a queue, two counters and a semaphore. `add` pushes a task and then puts
a token into the semaphore; a worker takes a token, looks at the stop flag and then takes a task.
These are separate critical sections, and the destructor, which sets the stop flag and puts a token
for every worker, can come between any two of them.

Every token that is taken before the stop flag is set stands for a task in the queue, and a worker
that has looked at the flag before it was set still has its task there (`Inv.tokens`, `Inv.pops`).

The counters are of type `int`. They are modelled as integers that wrap around.
-/

namespace StdmlCollective

open Threads

/-- `int` arithmetic. -/
def wrap (x : ℤ) : ℤ := x.bmod (2 ^ 32)

theorem wrap_zero : wrap 0 = 0 := Int.zero_bmod

theorem wrap_wrap_add (x y : ℤ) : wrap (wrap x + y) = wrap (x + y) := Int.bmod_add_bmod

theorem wrap_wrap_sub (x y : ℤ) : wrap (wrap x - y) = wrap (x - y) := Int.bmod_sub_bmod

theorem wrap_eq_self {x : ℤ} (h : 0 ≤ x) (hlt : x < 2 ^ 31) : wrap x = x :=
  Int.bmod_eq_of_le (by omega) (by omega)

/-- Where a worker is in its loop. -/
inductive PoolWorker (J : Type) where
  /-- In `sema.get_one()`, before it takes the lock of the semaphore. -/
  | get
  /-- Asleep there. -/
  | asleep
  /-- It has a token and is going to look at the stop flag. -/
  | check
  /-- It has not seen the stop flag and is going to take a task. -/
  | pop
  /-- In `f()`. -/
  | run (f : J)
  /-- Before `s.finish()`. -/
  | finish (f : J)
  /-- Before `cv.notify_one()`. -/
  | notify
  /-- Out of the loop. -/
  | left

/-- Where a thread is that calls `add`: in no call, before `value += 1`, before
`cv.notify_one()` of the semaphore. -/
inductive PoolAdder where
  | idle
  | put
  | notify

/-- Who calls `wait`. -/
inductive WaitCaller where
  | user
  | destructor
deriving DecidableEq

/-- Where a thread is that calls `wait`: in no call, before it takes the lock, asleep. -/
inductive PoolWait where
  | idle
  | check
  | asleep

/-- Where the destructor is: not called, with `i` tokens to put, before `cv.notify_one()` with `i`
tokens to put after it, in `wait()`, before it joins thread `i`, returned. -/
inductive PoolCloser where
  | no
  | put (i : ℕ)
  | notify (i : ℕ)
  | wait
  | join (i : ℕ)
  | closed

/-- `class thread_pool_impl` with `n` workers, and the threads that use it. The last three fields
are auxiliary: the tasks that have been added, taken from the queue and finished, in this order. -/
structure ThreadPool (A J : Type) (n : ℕ) where
  queue : List J
  waiting : ℤ
  running : ℤ
  stopped : Bool
  value : ℤ
  worker : Fin n → PoolWorker J
  adder : A → PoolAdder
  waits : WaitCaller → PoolWait
  closer : PoolCloser
  added : List J
  started : List J
  finished : List J

/-- Whose step it is: a call of `add` or of `wait`, the start of the destructor, the return of
`wait`, the end of a task, a wake-up without notification, or anything else. -/
inductive PoolLabel (A J : Type) (n : ℕ) where
  | add (a : A) (f : J)
  | wait
  | stop
  | returns
  | ran (i : Fin n) (f : J)
  | spurious
  | work

/-- Where a worker goes on that sleeps at the semaphore. -/
def PoolWorker.wake {J : Type} : PoolWorker J → Option (PoolWorker J)
  | .asleep => some .get
  | _ => none

/-- Where a thread goes on that sleeps in `wait`. -/
def PoolWait.wake : PoolWait → Option PoolWait
  | .asleep => some .check
  | _ => none

/-- The task a worker has taken and not finished. -/
def PoolWorker.tasks {J : Type} : PoolWorker J → Multiset J
  | .run f => {f}
  | .finish f => {f}
  | _ => 0

/-- Whether a worker has a token and has not taken a task yet. -/
def PoolWorker.tokens {J : Type} : PoolWorker J → ℕ
  | .check => 1
  | .pop => 1
  | _ => 0

/-- Whether a worker is going to take a task. -/
def PoolWorker.pops {J : Type} : PoolWorker J → ℕ
  | .pop => 1
  | _ => 0

/-- Whether a task has been pushed and its token has not been put. -/
def PoolAdder.puts : PoolAdder → ℕ
  | .put => 1
  | _ => 0

namespace PoolWorker

variable {J : Type}

theorem pops_le_tokens (w : PoolWorker J) : w.pops ≤ w.tokens := by
  cases w <;> simp [pops, tokens]

theorem card_tasks_le (w : PoolWorker J) : Multiset.card w.tasks ≤ 1 := by
  cases w <;> simp [tasks]

/-- Waking up is of no account. -/
theorem wake_same (w w' : PoolWorker J) (h : w.wake = some w') :
    w'.tasks = w.tasks ∧ w'.tokens = w.tokens ∧ w'.pops = w.pops := by
  cases w with
  | asleep =>
      obtain rfl := Option.some.inj h
      exact ⟨rfl, rfl, rfl⟩
  | get | check | pop | run | finish | notify | left => cases h

end PoolWorker

namespace ThreadPool

variable {A J : Type} {n : ℕ} [DecidableEq A]

/-- `s.is_zero()`. -/
def IsZero (s : ThreadPool A J n) : Prop := s.waiting = 0 ∧ s.running = 0

/-- The steps of all threads. -/
inductive Step : ThreadPool A J n → PoolLabel A J n → ThreadPool A J n → Prop where
  | add {s : ThreadPool A J n} {a : A} {f : J} :
      s.adder a = .idle →
      Step s (.add a f) { s with
        queue := s.queue ++ [f], waiting := wrap (s.waiting + 1),
        adder := Function.update s.adder a .put, added := s.added ++ [f] }
  | addPut {s : ThreadPool A J n} {a : A} :
      s.adder a = .put →
      Step s .work { s with
        value := wrap (s.value + 1), adder := Function.update s.adder a .notify }
  | addNotify {s : ThreadPool A J n} {a : A} {w : Fin n → PoolWorker J} :
      s.adder a = .notify → NotifyOne PoolWorker.wake s.worker w →
      Step s .work { s with worker := w, adder := Function.update s.adder a .idle }
  | get {s : ThreadPool A J n} {i : Fin n} :
      s.worker i = .get → 1 ≤ s.value →
      Step s .work { s with
        value := wrap (s.value - 1), worker := Function.update s.worker i .check }
  | getWait {s : ThreadPool A J n} {i : Fin n} :
      s.worker i = .get → s.value < 1 →
      Step s .work { s with worker := Function.update s.worker i .asleep }
  | go {s : ThreadPool A J n} {i : Fin n} :
      s.worker i = .check → s.stopped = false →
      Step s .work { s with worker := Function.update s.worker i .pop }
  | leave {s : ThreadPool A J n} {i : Fin n} :
      s.worker i = .check → s.stopped = true →
      Step s .work { s with worker := Function.update s.worker i .left }
  -- `q.front()` of an empty queue is undefined: there is no such step
  | pop {s : ThreadPool A J n} {i : Fin n} {f : J} {q : List J} :
      s.worker i = .pop → s.queue = f :: q →
      Step s .work { s with
        queue := q, waiting := wrap (s.waiting - 1), running := wrap (s.running + 1),
        worker := Function.update s.worker i (.run f), started := s.started ++ [f] }
  | ran {s : ThreadPool A J n} {i : Fin n} {f : J} :
      s.worker i = .run f →
      Step s (.ran i f) { s with worker := Function.update s.worker i (.finish f) }
  | finish {s : ThreadPool A J n} {i : Fin n} {f : J} :
      s.worker i = .finish f →
      Step s .work { s with
        running := wrap (s.running - 1), worker := Function.update s.worker i .notify,
        finished := s.finished ++ [f] }
  | notify {s : ThreadPool A J n} {i : Fin n} {v : WaitCaller → PoolWait} :
      s.worker i = .notify → NotifyOne PoolWait.wake s.waits v →
      Step s .work { s with waits := v, worker := Function.update s.worker i .get }
  | wait {s : ThreadPool A J n} :
      s.waits .user = .idle →
      Step s .wait { s with waits := Function.update s.waits .user .check }
  | waitReturn {s : ThreadPool A J n} :
      s.waits .user = .check → s.IsZero →
      Step s .returns { s with waits := Function.update s.waits .user .idle }
  | waitSleep {s : ThreadPool A J n} {c : WaitCaller} :
      s.waits c = .check → ¬s.IsZero →
      Step s .work { s with waits := Function.update s.waits c .asleep }
  | stop {s : ThreadPool A J n} :
      s.closer = .no → Step s .stop { s with stopped := true, closer := .put n }
  | closePut {s : ThreadPool A J n} {i : ℕ} :
      s.closer = .put (i + 1) →
      Step s .work { s with value := wrap (s.value + 1), closer := .notify i }
  | closeNotify {s : ThreadPool A J n} {i : ℕ} {w : Fin n → PoolWorker J} :
      s.closer = .notify i → NotifyOne PoolWorker.wake s.worker w →
      Step s .work { s with worker := w, closer := .put i }
  | closeWait {s : ThreadPool A J n} :
      s.closer = .put 0 →
      Step s .work { s with
        waits := Function.update s.waits .destructor .check, closer := .wait }
  | closeReturn {s : ThreadPool A J n} :
      s.closer = .wait → s.waits .destructor = .check → s.IsZero →
      Step s .work { s with
        waits := Function.update s.waits .destructor .idle, closer := .join 0 }
  | join {s : ThreadPool A J n} {i : Fin n} :
      s.closer = .join i → s.worker i = .left →
      Step s .work { s with closer := .join (i + 1) }
  | close {s : ThreadPool A J n} :
      s.closer = .join n → Step s .work { s with closer := .closed }
  | spuriousWorker {s : ThreadPool A J n} {w : Fin n → PoolWorker J} :
      Wakes PoolWorker.wake s.worker w → Step s .spurious { s with worker := w }
  | spuriousWait {s : ThreadPool A J n} {v : WaitCaller → PoolWait} :
      Wakes PoolWait.wake s.waits v → Step s .spurious { s with waits := v }

/-- A new pool. -/
def start : ThreadPool A J n where
  queue := []
  waiting := 0
  running := 0
  stopped := false
  value := 0
  worker _ := .get
  adder _ := .idle
  waits _ := .idle
  closer := .no
  added := []
  started := []
  finished := []

/-- The states that the threads can reach. -/
def Reach (s : ThreadPool A J n) : Prop :=
  Relation.ReflTransGen (fun s s' => ∃ l, Step s l s') start s

/-! ## The invariant -/

/-- What holds of every state of a pool, with the counters as far as they go. -/
structure Inv [Fintype A] (s : ThreadPool A J n) : Prop where
  waiting : s.waiting = wrap s.queue.length
  running : s.running = wrap (s.started.length - s.finished.length)
  fifo : s.added = s.started ++ s.queue
  done : (s.started : Multiset J) = s.finished + total PoolWorker.tasks s.worker
  tokens : s.stopped = false → ∃ k : ℕ, s.value = wrap k ∧
    k + total PoolAdder.puts s.adder + total PoolWorker.tokens s.worker = s.queue.length
  pops : total PoolWorker.pops s.worker ≤ s.queue.length
  unstopped : s.stopped = false →
    s.closer = .no ∧ s.waits .destructor = .idle ∧ ∀ i, s.worker i ≠ .left

section Inv

variable [Fintype A] {s s' : ThreadPool A J n} {l : PoolLabel A J n}

omit [DecidableEq A] in
theorem Inv.start : Inv (ThreadPool.start : ThreadPool A J n) where
  waiting := wrap_zero.symm
  running := wrap_zero.symm
  fifo := rfl
  done := by
    have hzero : total PoolWorker.tasks (ThreadPool.start : ThreadPool A J n).worker = 0 :=
      Finset.sum_eq_zero fun _ _ => rfl
    rw [hzero]
    rfl
  tokens _ := ⟨0, wrap_zero.symm, by
    rw [total_eq_zero (f := (ThreadPool.start : ThreadPool A J n).worker) fun _ => rfl,
      total_eq_zero (f := (ThreadPool.start : ThreadPool A J n).adder) fun _ => rfl]
    rfl⟩
  pops := by
    rw [total_eq_zero (f := (ThreadPool.start : ThreadPool A J n).worker) fun _ => rfl]
    exact Nat.zero_le _
  unstopped _ := ⟨rfl, rfl, fun _ => nofun⟩

/-- `waiting` and `running` count, and the queue is a queue. -/
theorem Inv.step_counts (h : Inv s) (hs : Step s l s') :
    s'.waiting = wrap s'.queue.length ∧
      s'.running = wrap (s'.started.length - s'.finished.length) ∧
      s'.added = s'.started ++ s'.queue := by
  cases hs with
  | add _ =>
      refine ⟨?_, h.running, ?_⟩
      · simp only [h.waiting, wrap_wrap_add, List.length_append, List.length_singleton]
        congr 1
      · simp only [h.fifo, List.append_assoc]
  | pop _ hq =>
      refine ⟨?_, ?_, ?_⟩
      · simp only [h.waiting, hq, wrap_wrap_sub, List.length_cons]
        congr 1
        omega
      · simp only [h.running, wrap_wrap_add, List.length_append, List.length_singleton]
        congr 1
        omega
      · simp [h.fifo, hq]
  | finish _ =>
      refine ⟨h.waiting, ?_, h.fifo⟩
      simp only [h.running, wrap_wrap_sub, List.length_append, List.length_singleton]
      congr 1
      omega
  | addPut | addNotify | get | getWait | go | leave | ran | notify | wait | waitReturn | waitSleep
  | stop | closePut | closeNotify | closeWait | closeReturn | join | close | spuriousWorker
  | spuriousWait => exact ⟨h.waiting, h.running, h.fifo⟩

/-- A task that has been taken is with a worker until it is finished. -/
theorem Inv.step_done (h : Inv s) (hs : Step s l s') :
    (s'.started : Multiset J) = s'.finished + total PoolWorker.tasks s'.worker := by
  cases hs with
  | @pop i f q hi hq =>
      have hup := total_update PoolWorker.tasks s.worker i (.run f)
      rw [hi, show (PoolWorker.pop : PoolWorker J).tasks = 0 from rfl, add_zero] at hup
      simp only [hup, ← Multiset.coe_add, h.done, add_assoc]
      rfl
  | @finish i f hi =>
      have hup := total_update PoolWorker.tasks s.worker i .notify
      rw [hi, show (PoolWorker.notify : PoolWorker J).tasks = 0 from rfl, add_zero] at hup
      simp only [← Multiset.coe_add, h.done, ← hup]
      rw [add_assoc, add_comm (total _ _)]
      rfl
  | @ran i f hi =>
      rw [h.done, total_update_of_eq (by rw [hi]; rfl)]
  | get hi | getWait hi | go hi | leave hi | notify hi =>
      rw [h.done, total_update_of_eq (by rw [hi]; rfl)]
  | addNotify _ hn | closeNotify _ hn =>
      rw [h.done, hn.total_eq fun w w' hw => (w.wake_same w' hw).1]
  | spuriousWorker hw => rw [h.done, hw.total_eq fun w w' hw => (w.wake_same w' hw).1]
  | add | addPut | wait | waitReturn | waitSleep | stop | closePut | closeWait | closeReturn | join
  | close | spuriousWait => exact h.done

/-- Before the stop flag is set, every task of the queue has a token: in the semaphore, with a
worker, or about to be put. -/
theorem Inv.step_tokens (h : Inv s) (hs : Step s l s') (hstop : s'.stopped = false) :
    ∃ k : ℕ, s'.value = wrap k ∧
      k + total PoolAdder.puts s'.adder + total PoolWorker.tokens s'.worker =
        s'.queue.length := by
  cases hs with
  | stop => cases hstop
  | @add a f ha =>
      obtain ⟨k, hk, hsum⟩ := h.tokens hstop
      have hup := total_update PoolAdder.puts s.adder a .put
      rw [ha] at hup
      refine ⟨k, hk, ?_⟩
      simp only [PoolAdder.puts, List.length_append, List.length_singleton] at hup ⊢
      omega
  | @addPut a ha =>
      obtain ⟨k, hk, hsum⟩ := h.tokens hstop
      have hup := total_update PoolAdder.puts s.adder a .notify
      rw [ha] at hup
      refine ⟨k + 1, ?_, ?_⟩
      · simp only [hk, wrap_wrap_add]
        rfl
      · simp only [PoolAdder.puts] at hup ⊢
        omega
  | @addNotify a w ha hn =>
      obtain ⟨k, hk, hsum⟩ := h.tokens hstop
      refine ⟨k, hk, ?_⟩
      rw [total_update_of_eq (by rw [ha]; rfl), hn.total_eq fun w w' hw => (w.wake_same w' hw).2.1]
      exact hsum
  | @get i hi hv =>
      obtain ⟨k, hk, hsum⟩ := h.tokens hstop
      have hup := total_update PoolWorker.tokens s.worker i .check
      rw [hi] at hup
      cases k with
      | zero =>
          rw [hk, show ((0 : ℕ) : ℤ) = 0 from rfl, wrap_zero] at hv
          omega
      | succ k =>
          refine ⟨k, ?_, ?_⟩
          · simp only [hk, wrap_wrap_sub]
            congr 1
            omega
          · simp only [PoolWorker.tokens] at hup ⊢
            omega
  | @pop i f q hi hq =>
      obtain ⟨k, hk, hsum⟩ := h.tokens hstop
      have hup := total_update PoolWorker.tokens s.worker i (.run f)
      rw [hi] at hup
      refine ⟨k, hk, ?_⟩
      rw [hq] at hsum
      simp only [PoolWorker.tokens, List.length_cons] at hup hsum ⊢
      omega
  | getWait hi | go hi | ran hi | finish hi | notify hi =>
      obtain ⟨k, hk, hsum⟩ := h.tokens hstop
      refine ⟨k, hk, ?_⟩
      rw [total_update_of_eq (by rw [hi]; rfl)]
      exact hsum
  | leave _ hstopped =>
      rw [hstopped] at hstop
      cases hstop
  | closePut hc | closeNotify hc =>
      rw [(h.unstopped hstop).1] at hc
      cases hc
  | spuriousWorker hw =>
      obtain ⟨k, hk, hsum⟩ := h.tokens hstop
      refine ⟨k, hk, ?_⟩
      rw [hw.total_eq fun w w' hw => (w.wake_same w' hw).2.1]
      exact hsum
  | wait | waitReturn | waitSleep | closeWait | closeReturn | join | close | spuriousWait =>
      exact h.tokens hstop

omit [Fintype A] in
/-- The tasks of the queue that no worker is going to take: `add` makes one more, a worker that goes
past the stop flag one less. -/
theorem Step.pops (hs : Step s l s') :
    (∃ a f, l = .add a f ∧ s'.worker = s.worker ∧ s'.queue = s.queue ++ [f]) ∨
    (∃ i, s.worker i = .check ∧ s.stopped = false ∧
      s'.worker = Function.update s.worker i .pop ∧ s'.queue = s.queue) ∨
    s'.queue.length + total PoolWorker.pops s.worker =
      s.queue.length + total PoolWorker.pops s'.worker := by
  cases hs with
  | @add a f _ => exact .inl ⟨a, f, rfl, rfl, rfl⟩
  | @go i hi hstop => exact .inr (.inl ⟨i, hi, hstop, rfl, rfl⟩)
  | @pop i f q hi hq =>
      right; right
      have hup := total_update PoolWorker.pops s.worker i (.run f)
      rw [hi] at hup
      simp only [hq, PoolWorker.pops, List.length_cons] at hup ⊢
      omega
  | get hi | getWait hi | leave hi | ran hi | finish hi | notify hi =>
      right; right
      rw [total_update_of_eq (by rw [hi]; rfl)]
  | addNotify _ hn | closeNotify _ hn =>
      right; right
      rw [hn.total_eq fun w w' hw => (w.wake_same w' hw).2.2]
  | spuriousWorker hw =>
      right; right
      rw [hw.total_eq fun w w' hw => (w.wake_same w' hw).2.2]
  | addPut | wait | waitReturn | waitSleep | stop | closePut | closeWait | closeReturn | join
  | close | spuriousWait => exact .inr (.inr rfl)

/-- A worker that has not seen the stop flag has its task in the queue. -/
theorem Inv.step_pops (h : Inv s) (hs : Step s l s') :
    total PoolWorker.pops s'.worker ≤ s'.queue.length := by
  have hpops := h.pops
  rcases hs.pops with ⟨a, f, -, hw, hq⟩ | ⟨i, hi, hstop, hw, hq⟩ | heq
  · rw [hw, hq, List.length_append]
    exact Nat.le_add_right_of_le hpops
  · obtain ⟨k, -, hsum⟩ := h.tokens hstop
    have hle := total_le_total PoolWorker.pops_le_tokens (Function.update s.worker i .pop)
    rw [total_update_of_eq (w := PoolWorker.tokens) (by rw [hi]; rfl)] at hle
    rw [hw, hq]
    omega
  · omega

/-- A worker that moves stays, and so does one that is woken. -/
theorem ne_left_update {w : Fin n → PoolWorker J} (h : ∀ i, w i ≠ .left) {i : Fin n}
    {x : PoolWorker J} (hx : x ≠ .left) (j : Fin n) : Function.update w i x j ≠ .left := fun hj =>
  h j (of_update_eq hj hx).2

theorem ne_left_wakes {w w' : Fin n → PoolWorker J} (h : ∀ i, w i ≠ .left)
    (hw : Wakes PoolWorker.wake w w') (j : Fin n) : w' j ≠ .left := by
  obtain ⟨i, x, hi, rfl⟩ := hw
  refine ne_left_update h ?_ j
  rintro rfl
  cases hwi : w i <;> simp [PoolWorker.wake, hwi] at hi

theorem Inv.step_unstopped (h : Inv s) (hs : Step s l s') (hstop : s'.stopped = false) :
    s'.closer = .no ∧ s'.waits .destructor = .idle ∧ ∀ i, s'.worker i ≠ .left := by
  cases hs with
  | stop => cases hstop
  | leave _ hstopped =>
      rw [hstopped] at hstop
      cases hstop
  | add | addPut => exact h.unstopped hstop
  | addNotify _ hn =>
      obtain ⟨hc, hd, hw⟩ := h.unstopped hstop
      refine ⟨hc, hd, ?_⟩
      rcases hn with hn | ⟨-, rfl⟩
      · exact ne_left_wakes hw hn
      · exact hw
  | get | getWait | go | pop | ran | finish =>
      obtain ⟨hc, hd, hw⟩ := h.unstopped hstop
      exact ⟨hc, hd, ne_left_update hw nofun⟩
  | notify _ hn =>
      obtain ⟨hc, hd, hw⟩ := h.unstopped hstop
      exact ⟨hc, (hn.eq_of_none (by rw [hd]; rfl)).trans hd, ne_left_update hw nofun⟩
  | wait | waitReturn => exact h.unstopped hstop
  | @waitSleep c hc' _ =>
      obtain ⟨hc, hd, hw⟩ := h.unstopped hstop
      exact ⟨hc, update_eq_of_ne hd (by rw [hc']; nofun), hw⟩
  | closePut hc' | closeNotify hc' | closeWait hc' | closeReturn hc' | join hc' | close hc' =>
      rw [(h.unstopped hstop).1] at hc'
      cases hc'
  | spuriousWorker hn =>
      obtain ⟨hc, hd, hw⟩ := h.unstopped hstop
      exact ⟨hc, hd, ne_left_wakes hw hn⟩
  | spuriousWait hn =>
      obtain ⟨hc, hd, hw⟩ := h.unstopped hstop
      exact ⟨hc, (hn.eq_of_none (by rw [hd]; rfl)).trans hd, hw⟩

theorem Inv.step (h : Inv s) (hs : Step s l s') : Inv s' where
  waiting := (h.step_counts hs).1
  running := (h.step_counts hs).2.1
  fifo := (h.step_counts hs).2.2
  done := h.step_done hs
  tokens := h.step_tokens hs
  pops := h.step_pops hs
  unstopped := h.step_unstopped hs

theorem Inv.reach (h : Reach s) : Inv s := by
  induction h with
  | refl => exact .start
  | tail _ hs ih =>
      obtain ⟨l, hs⟩ := hs
      exact ih.step hs

omit [DecidableEq A] in
/-- The tasks that run, as many as workers at most. -/
theorem Inv.length_started (h : Inv s) :
    s.started.length =
      s.finished.length + Multiset.card (total PoolWorker.tasks s.worker) := by
  simpa using congrArg Multiset.card h.done

theorem card_total_tasks (w : Fin n → PoolWorker J) :
    Multiset.card (total PoolWorker.tasks w) =
      total (fun x : PoolWorker J => Multiset.card x.tasks) w :=
  map_sum Multiset.cardHom _ _

theorem card_total_tasks_le (w : Fin n → PoolWorker J) :
    Multiset.card (total PoolWorker.tasks w) ≤ n := by
  rw [card_total_tasks]
  calc total (fun x : PoolWorker J => Multiset.card x.tasks) w
      ≤ ∑ _i : Fin n, 1 := Finset.sum_le_sum fun i _ => (w i).card_tasks_le
    _ = n := by simp

/-- A worker with a task. -/
theorem card_total_tasks_pos {w : Fin n → PoolWorker J} {i : Fin n} {f : J}
    (h : w i = .finish f) : 0 < Multiset.card (total PoolWorker.tasks w) := by
  rw [card_total_tasks]
  have hle := le_total (fun x : PoolWorker J => Multiset.card x.tasks) w i
  rw [h] at hle
  exact hle

end Inv

/-! ## What a step does to the tasks -/

section Current

variable {s s' : ThreadPool A J n} {l : PoolLabel A J n}

theorem Step.add_inv {a : A} {f : J} (hs : Step s (.add a f) s') :
    s'.added = s.added ++ [f] ∧ s'.started = s.started ∧ s'.worker = s.worker := by
  cases hs
  exact ⟨rfl, rfl, rfl⟩

theorem Step.ran_inv {i : Fin n} {f : J} (hs : Step s (.ran i f) s') :
    s.worker i = .run f ∧ s'.added = s.added ∧ s'.started = s.started ∧
      s'.worker = Function.update s.worker i (.finish f) := by
  cases hs with
  | ran hi => exact ⟨hi, rfl, rfl, rfl⟩

/-- The task a worker is executing. -/
def current (s : ThreadPool A J n) (i : Fin n) : Option J :=
  match s.worker i with
  | .run f => some f
  | _ => none

omit [DecidableEq A] in
/-- A worker moves outside of a task. -/
theorem current_update {i : Fin n} {x : PoolWorker J}
    (hs' : s'.worker = Function.update s.worker i x)
    (hi : s.current i = none) (hx : ∀ f, x ≠ .run f) : s'.current = s.current := by
  funext j
  rw [current, hs']
  by_cases hj : j = i
  · rw [hj, Function.update_self, hi]
    cases x with
    | run f => exact absurd rfl (hx f)
    | get | asleep | check | pop | finish | notify | left => rfl
  · rw [Function.update_of_ne hj, current]

omit [DecidableEq A] in
theorem current_notify {w : Fin n → PoolWorker J} (hw : NotifyOne PoolWorker.wake s.worker w)
    (hs' : s'.worker = w) : s'.current = s.current := by
  rcases hw with ⟨i, x, hi, rfl⟩ | ⟨-, rfl⟩
  · cases hwi : s.worker i with
    | asleep =>
        rw [hwi] at hi
        obtain rfl := Option.some.inj hi
        exact current_update hs' (by rw [current, hwi]) nofun
    | get | check | pop | run | finish | notify | left =>
        rw [hwi] at hi
        cases hi
  · funext j
    rw [current, current, hs']

/-- Steps that are neither a call of `add` nor the end of a task: a worker takes a task, or nothing
changes. -/
theorem Step.current (hs : Step s l s') (hadd : ∀ a f, l ≠ .add a f) (hran : ∀ i f, l ≠ .ran i f) :
    s'.added = s.added ∧
      (s'.started = s.started ∧ s'.current = s.current ∨
        ∃ i f, s'.started = s.started ++ [f] ∧ s.current i = none ∧
          s'.current = Function.update s.current i (some f)) := by
  cases hs with
  | add => exact absurd rfl (hadd _ _)
  | ran => exact absurd rfl (hran _ _)
  | @pop i f q hi hq =>
      refine ⟨rfl, .inr ⟨i, f, rfl, by rw [ThreadPool.current, hi], ?_⟩⟩
      funext j
      by_cases hj : j = i
      · rw [hj, Function.update_self, ThreadPool.current]
        simp
      · rw [Function.update_of_ne hj, ThreadPool.current, ThreadPool.current]
        simp [Function.update_of_ne hj]
  | get hi | getWait hi | go hi | leave hi | finish hi | notify hi =>
      exact ⟨rfl, .inl ⟨rfl, current_update rfl (by rw [ThreadPool.current, hi]) nofun⟩⟩
  | addNotify _ hn | closeNotify _ hn => exact ⟨rfl, .inl ⟨rfl, current_notify hn rfl⟩⟩
  | spuriousWorker hw => exact ⟨rfl, .inl ⟨rfl, current_notify (.inl hw) rfl⟩⟩
  | addPut | wait | waitReturn | waitSleep | stop | closePut | closeWait | closeReturn | join
  | close | spuriousWait => exact ⟨rfl, .inl ⟨rfl, rfl⟩⟩

end Current

/-! ## What the pool promises -/

/-- A task is taken only from a queue that has one, the counters count, tasks are taken in the order
in which they were added and finished at most once, and `wait` returns when all are finished. -/
structure Safe (s : ThreadPool A J n) : Prop where
  front : ∀ i, s.worker i = .pop → s.queue ≠ [] ∧ 0 < s.waiting
  finish : ∀ i f, s.worker i = .finish f → 0 < s.running
  waiting : s.waiting = s.queue.length
  running : s.running = s.started.length - s.finished.length
  order : s.started <+: s.added
  once : s.finished.Subperm s.started
  wait : ∀ s', Step s .returns s' → s.finished.Perm s.added

/-- `add` is called with room for one more in the counter. -/
def Room (s : ThreadPool A J n) (l : PoolLabel A J n) : Prop :=
  ∀ a f, l = .add a f → s.queue.length + 1 < 2 ^ 31

/-- The states of a run in which `add` is always called with room in the counter. -/
def RoomyReach (s : ThreadPool A J n) : Prop :=
  Relation.ReflTransGen (fun s s' => ∃ l, Step s l s' ∧ Room s l) start s

section Safe

variable {s s' : ThreadPool A J n} {l : PoolLabel A J n}

theorem RoomyReach.reach (h : RoomyReach s) : Reach s := by
  induction h with
  | refl => exact .refl
  | tail _ hs ih =>
      obtain ⟨l, hs, -⟩ := hs
      exact ih.tail ⟨l, hs⟩

theorem RoomyReach.length_lt (h : RoomyReach s) : s.queue.length < 2 ^ 31 := by
  induction h with
  | refl => exact Nat.two_pow_pos 31
  | tail _ hs ih =>
      obtain ⟨l, hs, hroom⟩ := hs
      cases hs with
      | @add a f _ => simpa using hroom a f rfl
      | pop _ hq =>
          rw [hq, List.length_cons] at ih
          exact Nat.lt_of_succ_lt ih
      | addPut | addNotify | get | getWait | go | leave | ran | finish | notify | wait | waitReturn
      | waitSleep | stop | closePut | closeNotify | closeWait | closeReturn | join | close
      | spuriousWorker | spuriousWait => exact ih

variable [Fintype A]

omit [DecidableEq A] in
/-- All tasks are finished when the queue is empty and nothing runs. -/
theorem Inv.perm (h : Inv s) (hq : s.queue = []) (hr : s.started.length = s.finished.length) :
    s.finished.Perm s.added := by
  have hcard := h.length_started
  have hnone : total PoolWorker.tasks s.worker = 0 := Multiset.card_eq_zero.mp (by omega)
  have hdone := h.done
  rw [hnone, add_zero] at hdone
  rw [h.fifo, hq, List.append_nil]
  exact (Multiset.coe_eq_coe.mp hdone).symm

/-- **A pool runs its tasks safely** as long as the queue is not longer than an `int` can count. -/
theorem safe_of_room (hn : n < 2 ^ 31) (h : RoomyReach s) : s.Safe := by
  have hinv := Inv.reach h.reach
  have hlen := h.length_lt
  have hwaiting : s.waiting = s.queue.length := by
    rw [hinv.waiting]
    exact wrap_eq_self (by omega) (by omega)
  have hcard := card_total_tasks_le s.worker
  have hstarted := hinv.length_started
  have hrunning : s.running = s.started.length - s.finished.length := by
    rw [hinv.running]
    exact wrap_eq_self (by omega) (by omega)
  refine ⟨?_, ?_, hwaiting, hrunning, ?_, ?_, ?_⟩
  · intro i hi
    have hpops := hinv.pops
    have hle := le_total PoolWorker.pops s.worker i
    rw [hi] at hle
    simp only [PoolWorker.pops] at hle
    refine ⟨?_, by omega⟩
    rintro hnil
    rw [hnil, List.length_nil] at hpops
    omega
  · intro i f hi
    have hpos := card_total_tasks_pos hi
    omega
  · rw [hinv.fifo]
    exact List.prefix_append _ _
  · rw [← Multiset.coe_le, hinv.done]
    exact Multiset.le_add_right _ _
  · intro s' hs
    cases hs with
    | waitReturn _ hzero =>
        obtain ⟨hw, hr⟩ := hzero
        exact hinv.perm (List.length_eq_zero_iff.mp (by omega)) (by omega)

omit [Fintype A] in
/-- A call of `add` in which no worker has to be woken. -/
theorem Step.add_whole {s : ThreadPool A J n} (a : A) (f : J) (ha : s.adder a = .idle)
    (hw : ∀ i, (s.worker i).wake = none) :
    ∃ s₁ s₂ s₃, Step s (.add a f) s₁ ∧ Step s₁ .work s₂ ∧ Step s₂ .work s₃ ∧ s₃ = { s with
      queue := s.queue ++ [f], waiting := wrap (s.waiting + 1), value := wrap (s.value + 1),
      added := s.added ++ [f] } := by
  refine ⟨_, _, _, .add ha, .addPut (Function.update_self ..),
    .addNotify (Function.update_self ..) (.inr ⟨hw, rfl⟩), ?_⟩
  simp [← ha]

omit [Fintype A] in
/-- A step that is not a call of `add`. -/
theorem RoomyReach.work (h : RoomyReach s) (hs : Step s .work s') : RoomyReach s' :=
  h.tail ⟨_, hs, nofun⟩

omit [Fintype A] in
/-- A call of `add` in which no worker has to be woken. -/
theorem RoomyReach.add (h : RoomyReach s) (a : A) (f : J) (hroom : s.queue.length + 1 < 2 ^ 31)
    (ha : s.adder a = .idle) (hw : ∀ i, (s.worker i).wake = none) :
    RoomyReach { s with
      queue := s.queue ++ [f], waiting := wrap (s.waiting + 1), value := wrap (s.value + 1),
      added := s.added ++ [f] } := by
  obtain ⟨s₁, s₂, s₃, h₁, h₂, h₃, rfl⟩ := Step.add_whole a f ha hw
  have hadd : RoomyReach s₁ := h.tail ⟨_, h₁, fun _ _ _ => hroom⟩
  exact (hadd.work h₂).work h₃

omit [Fintype A] in
/-- A worker takes a token and gets past the stop flag. -/
theorem RoomyReach.passes (h : RoomyReach s) {i : Fin n} (hi : s.worker i = .get)
    (hv : 1 ≤ s.value) (hstop : s.stopped = false) :
    RoomyReach { s with
      value := wrap (s.value - 1), worker := Function.update s.worker i .pop } := by
  have hgo := (h.work (.get hi hv)).work (.go (i := i) (Function.update_self ..) hstop)
  simpa only [Function.update_idem] using hgo

omit [Fintype A] in
/-- Any number of tasks can be added while the workers do nothing. -/
theorem exists_crowded (a : A) (f : J) (k : ℕ) :
    ∃ s : ThreadPool A J n, Reach s ∧ s.queue.length = k ∧ (∀ i, s.worker i = .get) ∧
      s.adder a = .idle := by
  induction k with
  | zero => exact ⟨start, .refl, rfl, fun _ => rfl, rfl⟩
  | succ k ih =>
      obtain ⟨s, hs, hlen, hw, ha⟩ := ih
      obtain ⟨s₁, s₂, s₃, h₁, h₂, h₃, rfl⟩ :=
        Step.add_whole a f ha fun i => by rw [hw i]; rfl
      exact ⟨_, ((hs.tail ⟨_, h₁⟩).tail ⟨_, h₂⟩).tail ⟨_, h₃⟩, by simp [hlen], hw, ha⟩

/-- After `2 ^ 31` calls of `add` the counter is negative. -/
theorem not_safe_crowded : ¬∀ s : ThreadPool Unit Unit 1, Reach s → s.Safe := by
  intro hall
  obtain ⟨s, hs, hlen, -⟩ := exists_crowded (A := Unit) (J := Unit) (n := 1) () () (2 ^ 31)
  have hwaiting := (hall s hs).waiting
  rw [(Inv.reach hs).waiting, hlen] at hwaiting
  revert hwaiting
  decide

/-- Two tasks are added, the user waits, and the worker executes one after the other. -/
theorem safe_of_room_two :
    ∃ s s' : ThreadPool Unit Bool 1, RoomyReach s ∧ Step s .returns s' ∧
      s.finished = [true, false] ∧ s.Safe := by
  have h₁ : RoomyReach (A := Unit) (J := Bool) (n := 1) _ := .refl
  have h₂ := (h₁.add () true (by decide) rfl fun _ => rfl).add () false (by decide) rfl fun _ => rfl
  have h₃ : RoomyReach _ := h₂.tail ⟨_, .wait rfl, nofun⟩
  have h₄ := h₃.work (.waitSleep (c := .user) rfl fun hzero => absurd hzero.1 (by decide))
  have h₅ := (h₄.passes (i := 0) rfl (by decide) rfl).work (.pop (i := 0) rfl rfl)
  have h₆ : RoomyReach _ := h₅.tail ⟨_, .ran (i := 0) rfl, nofun⟩
  have h₇ := (h₆.work (.finish (i := 0) rfl)).work
    (.notify (i := 0) rfl (.inl ⟨.user, .check, rfl, rfl⟩))
  have h₈ := (h₇.passes (i := 0) rfl (by decide) rfl).work (.pop (i := 0) rfl rfl)
  have h₉ : RoomyReach _ := h₈.tail ⟨_, .ran (i := 0) rfl, nofun⟩
  have h := (h₉.work (.finish (i := 0) rfl)).work
    (.notify (i := 0) rfl (.inr ⟨fun c => by cases c <;> rfl, rfl⟩))
  exact ⟨_, _, h, .waitReturn rfl ⟨by decide, by decide⟩, rfl, safe_of_room (by decide) h⟩

end Safe

end ThreadPool

end StdmlCollective

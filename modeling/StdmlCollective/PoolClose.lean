import StdmlCollective.ThreadPool

/-!
# The destructor of a pool

`~thread_pool_impl` sets the stop flag, puts a token for every worker, waits until no task waits or
runs, and joins the workers. A worker that sees the flag leaves, whatever is in the queue. So the
tasks that are still executed are those for which a worker has already looked at the flag; when
there are others, the destructor waits for them forever.
-/

namespace StdmlCollective

open Threads

/-- The steps that are made when nobody calls `add` or `wait`. -/
def PoolLabel.Own {A J : Type} {n : ℕ} : PoolLabel A J n → Prop
  | .add _ _ => False
  | .wait => False
  | _ => True

/-- Whether a worker is in `sema.get_one()` and awake. -/
def PoolWorker.gets {J : Type} : PoolWorker J → ℕ
  | .get => 1
  | _ => 0

/-- Whether a worker has taken its last token. -/
def PoolWorker.outs {J : Type} : PoolWorker J → ℕ
  | .check => 1
  | .left => 1
  | _ => 0

/-- Whether a worker is between `q.pop()` and `cv.notify_one()`. -/
def PoolWorker.Busy {J : Type} : PoolWorker J → Prop
  | .run _ => True
  | .finish _ => True
  | .notify => True
  | _ => False

/-- The tokens the destructor has still to put. -/
def PoolCloser.togo : PoolCloser → ℕ
  | .put i => i
  | .notify i => i
  | _ => 0

/-- Whether the destructor is before `cv.notify_one()`. -/
def PoolCloser.notifies : PoolCloser → ℕ
  | .notify _ => 1
  | _ => 0

/-- How far a worker is from the end of its loop, once the stop flag is set. -/
def PoolWorker.weight {J : Type} : PoolWorker J → ℕ
  | .left => 0
  | .check => 1
  | .asleep => 2
  | .get => 3
  | .notify => 5
  | .finish _ => 6
  | .run _ => 7
  | .pop => 8

/-- How far the destructor is from its end. A notification can bring a worker back by one. -/
def PoolCloser.weight (n : ℕ) : PoolCloser → ℕ
  | .no => 5 * n + 5
  | .put i => n + 4 + 4 * i
  | .notify i => n + 6 + 4 * i
  | .wait => n + 2
  | .join i => n + 1 - i
  | .closed => 0

def PoolWait.weight : PoolWait → ℕ
  | .idle => 0
  | .asleep => 0
  | .check => 1

theorem PoolWorker.outs_le_one {J : Type} (w : PoolWorker J) : w.outs ≤ 1 := by
  cases w <;> simp [outs]

namespace ThreadPool

variable {A J : Type} {n : ℕ} [DecidableEq A]

/-- Nobody calls `add` or `wait` any more, and the destructor is about to be called. -/
structure Quiet (s : ThreadPool A J n) : Prop where
  adders : ∀ a, s.adder a = .idle
  user : s.waits .user = .idle
  closer : s.closer = .no

/-- What workers and the destructor can do from `s` on. -/
def CloseReach (s s' : ThreadPool A J n) : Prop :=
  Relation.ReflTransGen (fun s s' => ∃ l, Step s l s' ∧ l.Own) s s'

/-- The destructor has not returned, and nothing can happen but wake-ups without notification. -/
def Stuck (s : ThreadPool A J n) : Prop :=
  s.closer ≠ .closed ∧ ∀ l s', Step s l s' → l.Own → l = .spurious

/-- The destructor never gets stuck, and when it has returned all tasks have been executed, each of
them once. -/
def Closes (s : ThreadPool A J n) : Prop :=
  ∀ s', CloseReach s s' → ¬Stuck s' ∧ (s'.closer = .closed → s'.finished.Perm s'.added)

/-! ## Every task in the queue has its worker -/

/-- From the call of the destructor on, when every task in the queue has a worker that has looked at
the stop flag. -/
structure Closing (s : ThreadPool A J n) : Prop where
  adders : ∀ a, s.adder a = .idle
  user : s.waits .user = .idle
  queue : total PoolWorker.pops s.worker = s.queue.length
  value : 0 ≤ s.value
  before : s.stopped = false →
    s.closer = .no ∧ s.value = 0 ∧ total PoolWorker.outs s.worker = 0
  tokens : s.stopped = true → s.closer ≠ .no ∧
    s.value + total PoolWorker.outs s.worker + s.closer.togo = n
  awake : (∃ i, s.worker i = .asleep) →
    s.value ≤ total PoolWorker.gets s.worker + s.closer.notifies
  waits : s.closer = .wait → s.waits .destructor ≠ .idle
  asleep : s.waits .destructor = .asleep → s.queue ≠ [] ∨ ∃ i, (s.worker i).Busy
  joined : ∀ k, s.closer = .join k → k ≤ n ∧ ∀ i : Fin n, i < k → s.worker i = .left
  closed : s.closer = .closed → ∀ i, s.worker i = .left

section Closing

variable {s s' : ThreadPool A J n} {l : PoolLabel A J n}

theorem Step.adders (hs : Step s l s') (hl : l.Own) (h : ∀ a, s.adder a = .idle) (a : A) :
    s'.adder a = .idle := by
  cases hs with
  | add => exact hl.elim
  | @addPut a' ha | @addNotify a' _ ha =>
      rw [h a'] at ha
      cases ha
  | get | getWait | go | leave | pop | ran | finish | notify | wait | waitReturn | waitSleep | stop
  | closePut | closeNotify | closeWait | closeReturn | join | close | spuriousWorker
  | spuriousWait => exact h a

theorem Step.user (hs : Step s l s') (hl : l.Own) (h : s.waits .user = .idle) :
    s'.waits .user = .idle := by
  cases hs with
  | wait => exact hl.elim
  | waitReturn hc =>
      rw [h] at hc
      cases hc
  | waitSleep hc => exact update_eq_of_ne h (by rw [hc]; simp)
  | notify _ hn => exact (hn.eq_of_none (by rw [h]; rfl)).trans h
  | spuriousWait hw => exact (hw.eq_of_none (by rw [h]; rfl)).trans h
  | closeWait | closeReturn => exact h
  | add | addPut | addNotify | get | getWait | go | leave | pop | ran | finish | stop | closePut
  | closeNotify | join | close | spuriousWorker => exact h

omit [DecidableEq A] in
/-- The stop flag is set at the start of the destructor. -/
theorem Closing.stopped (h : Closing s) (hc : s.closer ≠ .no) : s.stopped = true := by
  by_contra hstop
  rw [Bool.not_eq_true] at hstop
  exact hc (h.before hstop).1

omit [DecidableEq A] in
theorem Closing.unstopped (h : Closing s) (hc : s.closer = .no) : s.stopped = false := by
  by_contra hstop
  rw [Bool.not_eq_false] at hstop
  exact (h.tokens hstop).1 hc

omit [DecidableEq A] in
/-- The tokens once the flag is set. -/
theorem Closing.after (h : Closing s) (hc : s.closer ≠ .no) :
    s.value + total PoolWorker.outs s.worker + s.closer.togo = n :=
  (h.tokens (h.stopped hc)).2

omit [DecidableEq A] in
/-- No worker looks at the stop flag and goes on. -/
theorem Closing.not_go (h : Closing s) {i : Fin n} (hi : s.worker i = .check) :
    s.stopped = true := by
  by_contra hstop
  rw [Bool.not_eq_true] at hstop
  have hle := le_total PoolWorker.outs s.worker i
  rw [hi, (h.before hstop).2.2] at hle
  simp [PoolWorker.outs] at hle

omit [DecidableEq A] in
theorem Closing.value_le (h : Closing s) : s.value ≤ n := by
  cases hstop : s.stopped with
  | false =>
      rw [(h.before hstop).2.1]
      exact Int.natCast_nonneg n
  | true =>
      have hsum := (h.tokens hstop).2
      omega

theorem Closing.step_queue (h : Closing s) (hs : Step s l s') (hl : l.Own) :
    total PoolWorker.pops s'.worker = s'.queue.length := by
  have hqueue := h.queue
  rcases hs.pops with ⟨a, f, rfl, -⟩ | ⟨i, hi, hstop, -⟩ | heq
  · exact hl.elim
  · rw [h.not_go hi] at hstop
    cases hstop
  · omega

theorem wake_outs (w w' : PoolWorker J) (h : w.wake = some w') : w'.outs = w.outs := by
  cases w with
  | asleep =>
      obtain rfl := Option.some.inj h
      rfl
  | get | check | pop | run | finish | notify | left => cases h

/-- The tokens: none before the stop flag is set, one for every worker afterwards. -/
theorem Closing.step_tokens (hn : n < 2 ^ 31) (h : Closing s) (hs : Step s l s') (hl : l.Own) :
    0 ≤ s'.value ∧
      (s'.stopped = false →
        s'.closer = .no ∧ s'.value = 0 ∧ total PoolWorker.outs s'.worker = 0) ∧
      (s'.stopped = true → s'.closer ≠ .no ∧
        s'.value + total PoolWorker.outs s'.worker + s'.closer.togo = n) := by
  cases hs with
  | add => exact hl.elim
  | @addPut a ha | @addNotify a _ ha =>
      rw [h.adders a] at ha
      cases ha
  | @get i hi hv =>
      have hvalue := h.value
      have hup := total_update PoolWorker.outs s.worker i .check
      rw [hi] at hup
      simp only [PoolWorker.outs] at hup
      have hstop : s.stopped = true := by
        by_contra hstop
        rw [Bool.not_eq_true] at hstop
        rw [(h.before hstop).2.1] at hv
        omega
      obtain ⟨hc, hsum⟩ := h.tokens hstop
      have hwrap : wrap (s.value - 1) = s.value - 1 := wrap_eq_self (by omega) (by omega)
      simp only [hwrap]
      refine ⟨by omega, ?_, fun _ => ⟨hc, by omega⟩⟩
      intro hno
      rw [hstop] at hno
      cases hno
  | go hi hstop =>
      rw [h.not_go hi] at hstop
      cases hstop
  | getWait hi | leave hi | pop hi | ran hi | finish hi | notify hi =>
      simp only
      rw [total_update_of_eq (by rw [hi]; rfl)]
      exact ⟨h.value, h.before, h.tokens⟩
  | stop hc =>
      obtain ⟨-, hv, houts⟩ := h.before (h.unstopped hc)
      refine ⟨h.value, nofun, fun _ => ⟨nofun, ?_⟩⟩
      simp only [hv, houts, PoolCloser.togo]
      omega
  | @closePut i hc =>
      have hne : s.closer ≠ .no := by rw [hc]; nofun
      have hvalue := h.value
      have hsum := h.after hne
      rw [hc] at hsum
      simp only [PoolCloser.togo] at hsum
      have hwrap : wrap (s.value + 1) = s.value + 1 := wrap_eq_self (by omega) (by omega)
      simp only [hwrap]
      refine ⟨by omega, ?_, fun _ => ⟨nofun, ?_⟩⟩
      · rw [h.stopped hne]
        nofun
      · simp only [PoolCloser.togo]
        omega
  | closeNotify hc hw =>
      have hne : s.closer ≠ .no := by rw [hc]; nofun
      have hsum := h.after hne
      rw [hc] at hsum
      refine ⟨h.value, ?_, fun _ => ⟨nofun, ?_⟩⟩
      · rw [h.stopped hne]
        nofun
      · rw [hw.total_eq wake_outs]
        exact hsum
  | closeWait hc | closeReturn hc | join hc | close hc =>
      have hne : s.closer ≠ .no := by rw [hc]; nofun
      have hsum := h.after hne
      rw [hc] at hsum
      refine ⟨h.value, ?_, fun _ => ⟨nofun, hsum⟩⟩
      rw [h.stopped hne]
      nofun
  | spuriousWorker hw =>
      simp only
      rw [hw.total_eq wake_outs]
      exact ⟨h.value, h.before, h.tokens⟩
  | wait | waitReturn | waitSleep | spuriousWait => exact ⟨h.value, h.before, h.tokens⟩

/-- A wake-up takes a worker that sleeps back to the semaphore. -/
theorem exists_asleep {w w' : Fin n → PoolWorker J} (h : Wakes PoolWorker.wake w w') :
    ∃ i, w i = .asleep ∧ w' = Function.update w i .get := by
  obtain ⟨i, x, hi, rfl⟩ := h
  cases hw : w i with
  | asleep =>
      rw [hw] at hi
      obtain rfl := Option.some.inj hi
      exact ⟨i, hw, rfl⟩
  | get | check | pop | run | finish | notify | left =>
      rw [hw] at hi
      cases hi

theorem wakes_gets {w w' : Fin n → PoolWorker J} (h : Wakes PoolWorker.wake w w') :
    (∃ i, w i = .asleep) ∧ total PoolWorker.gets w' = total PoolWorker.gets w + 1 := by
  obtain ⟨i, hi, rfl⟩ := exists_asleep h
  have hup := total_update PoolWorker.gets w i .get
  rw [hi] at hup
  exact ⟨⟨i, hi⟩, hup⟩

/-- No wake-up at the semaphore is lost: when a worker sleeps, there is somebody awake for every
token. -/
theorem Closing.step_awake (hn : n < 2 ^ 31) (h : Closing s) (hs : Step s l s') (hl : l.Own)
    (hasleep : ∃ i, s'.worker i = .asleep) :
    s'.value ≤ total PoolWorker.gets s'.worker + s'.closer.notifies := by
  obtain ⟨j, hj⟩ := hasleep
  cases hs with
  | add => exact hl.elim
  | @addPut a ha | @addNotify a _ ha =>
      rw [h.adders a] at ha
      cases ha
  | @get i hi hv =>
      obtain ⟨-, hj⟩ := of_update_eq hj nofun
      have hawake := h.awake ⟨j, hj⟩
      have hup := total_update PoolWorker.gets s.worker i .check
      rw [hi] at hup
      simp only [PoolWorker.gets] at hup
      have hle := h.value_le
      have hwrap : wrap (s.value - 1) = s.value - 1 := wrap_eq_self (by omega) (by omega)
      simp only [hwrap]
      omega
  | getWait hi hv =>
      simp only
      omega
  | go hi | leave hi | pop hi | ran hi | finish hi =>
      obtain ⟨-, hj⟩ := of_update_eq hj nofun
      simp only
      rw [total_update_of_eq (by rw [hi]; rfl)]
      exact h.awake ⟨j, hj⟩
  | @notify i v hi _ =>
      obtain ⟨-, hj⟩ := of_update_eq hj nofun
      have hawake := h.awake ⟨j, hj⟩
      have hup := total_update PoolWorker.gets s.worker i .get
      rw [hi] at hup
      simp only [PoolWorker.gets] at hup ⊢
      omega
  | closePut hc =>
      have hvalue := h.value
      have hawake := h.awake ⟨j, hj⟩
      have hsum := h.after (by rw [hc]; nofun)
      rw [hc] at hawake hsum
      simp only [PoolCloser.togo, PoolCloser.notifies] at hawake hsum ⊢
      have hwrap : wrap (s.value + 1) = s.value + 1 := wrap_eq_self (by omega) (by omega)
      rw [hwrap]
      omega
  | closeNotify hc hw =>
      rcases hw with hw | ⟨hnone, rfl⟩
      · obtain ⟨hslept, hgets⟩ := wakes_gets hw
        have hawake := h.awake hslept
        rw [hc] at hawake
        simp only [PoolCloser.notifies, hgets] at hawake ⊢
        omega
      · have hwake := hnone j
        rw [hj] at hwake
        cases hwake
  | spuriousWorker hw =>
      obtain ⟨hslept, hgets⟩ := wakes_gets hw
      have hawake := h.awake hslept
      simp only [hgets]
      omega
  | stop hc | closeWait hc | closeReturn hc | join hc | close hc =>
      have hawake := h.awake ⟨j, hj⟩
      rw [hc] at hawake
      exact hawake
  | wait | waitReturn | waitSleep | spuriousWait => exact h.awake ⟨j, hj⟩

/-- A thread in `wait` stays there when it is woken. -/
theorem wakes_wait {v v' : WaitCaller → PoolWait} (h : Wakes PoolWait.wake v v') {c : WaitCaller} :
    (v' c = .idle → v c = .idle) ∧ (v' c = .asleep → v c = .asleep) := by
  obtain ⟨c', x, hc, rfl⟩ := h
  have hx : x = .check := by
    cases hv : v c' with
    | asleep =>
        rw [hv] at hc
        exact (Option.some.inj hc).symm
    | idle | check =>
        rw [hv] at hc
        cases hc
  subst hx
  exact ⟨fun hidle => (of_update_eq hidle nofun).2, fun hsleep => (of_update_eq hsleep nofun).2⟩

theorem Closing.step_waits (h : Closing s) (hs : Step s l s') (hc' : s'.closer = .wait) :
    s'.waits .destructor ≠ .idle := by
  intro hidle
  cases hs with
  | closeWait => cases hidle
  | notify _ hn =>
      rcases hn with hn | ⟨-, rfl⟩
      · exact h.waits hc' ((wakes_wait hn).1 hidle)
      · exact h.waits hc' hidle
  | spuriousWait hw => exact h.waits hc' ((wakes_wait hw).1 hidle)
  | waitSleep => exact h.waits hc' (of_update_eq hidle nofun).2
  | stop | closePut | closeNotify | closeReturn | join | close => cases hc'
  | add | addPut | addNotify | get | getWait | go | leave | pop | ran | finish | wait | waitReturn
  | spuriousWorker => exact h.waits hc' hidle

omit [DecidableEq A] in
/-- There is nothing to wait for when the queue is empty and no worker is busy. -/
theorem Inv.isZero [Fintype A] (h : Inv s) (hq : s.queue = []) (hb : ∀ i, ¬(s.worker i).Busy) :
    s.IsZero := by
  have hnone : total PoolWorker.tasks s.worker = 0 := by
    refine Finset.sum_eq_zero fun i _ => ?_
    have hi := hb i
    cases hw : s.worker i with
    | run | finish =>
        rw [hw] at hi
        exact absurd trivial hi
    | get | asleep | check | pop | notify | left => rfl
  have hlen := h.length_started
  rw [hnone, Multiset.card_zero] at hlen
  refine ⟨?_, ?_⟩
  · rw [h.waiting, hq]
    exact wrap_zero
  · rw [h.running, hlen, Nat.add_zero, Int.sub_self]
    exact wrap_zero

theorem wake_of_busy {w : PoolWorker J} (h : w.Busy) : w.wake = none := by
  cases w with
  | asleep => exact h.elim
  | get | check | pop | run | finish | notify | left => rfl

/-- No wake-up of the destructor is lost. -/
theorem Closing.step_asleep [Fintype A] (hinv : Inv s) (h : Closing s) (hs : Step s l s')
    (hsleep : s'.waits .destructor = .asleep) :
    s'.queue ≠ [] ∨ ∃ i, (s'.worker i).Busy := by
  -- a worker that moves and is not busy before
  have hmove : ∀ {i : Fin n} {x : PoolWorker J}, ¬(s.worker i).Busy →
      s.queue ≠ [] ∨ (∃ j, (s.worker j).Busy) →
      s.queue ≠ [] ∨ ∃ j, (Function.update s.worker i x j).Busy := by
    rintro i x hi (hq | ⟨j, hj⟩)
    · exact .inl hq
    · refine .inr ⟨j, ?_⟩
      rwa [Function.update_of_ne]
      rintro rfl
      exact hi hj
  have hwake : ∀ {w : Fin n → PoolWorker J}, NotifyOne PoolWorker.wake s.worker w →
      s.queue ≠ [] ∨ (∃ j, (s.worker j).Busy) → s.queue ≠ [] ∨ ∃ j, (w j).Busy := by
    rintro w hw (hq | ⟨j, hj⟩)
    · exact .inl hq
    · refine .inr ⟨j, ?_⟩
      rwa [hw.eq_of_none (wake_of_busy hj)]
  cases hs with
  | add => exact .inl (by simp)
  | @pop i | @ran i | @finish i => exact .inr ⟨i, by simp [PoolWorker.Busy]⟩
  | get hi | getWait hi | go hi | leave hi => exact hmove (by rw [hi]; exact id) (h.asleep hsleep)
  | addNotify _ hn | closeNotify _ hn => exact hwake hn (h.asleep hsleep)
  | spuriousWorker hw => exact hwake (.inl hw) (h.asleep hsleep)
  | spuriousWait hw => exact h.asleep ((wakes_wait hw).2 hsleep)
  | notify _ hn =>
      -- the destructor was the only one asleep, so it has been woken
      exfalso
      rcases hn with hn | ⟨hnone, rfl⟩
      · have hslept := (wakes_wait hn).2 hsleep
        obtain ⟨c, x, hc, rfl⟩ := hn
        cases c with
        | user =>
            rw [h.user] at hc
            cases hc
        | destructor =>
            rw [hslept] at hc
            obtain rfl := Option.some.inj hc
            cases hsleep
      · have hwoken := hnone .destructor
        rw [hsleep] at hwoken
        cases hwoken
  | waitSleep _ hzero =>
      by_contra hno
      push Not at hno
      exact hzero (hinv.isZero hno.1 hno.2)
  | closeWait | closeReturn => cases hsleep
  | addPut | wait | waitReturn | stop | closePut | join | close => exact h.asleep hsleep

/-- A worker that has left stays away. -/
theorem Step.left (hs : Step s l s') {i : Fin n} (hi : s.worker i = .left) :
    s'.worker i = .left := by
  cases hs with
  | get hj | getWait hj | go hj | leave hj | pop hj | ran hj | finish hj | notify hj =>
      exact update_eq_of_ne hi (by rw [hj]; nofun)
  | addNotify _ hn | closeNotify _ hn => exact (hn.eq_of_none (by rw [hi]; rfl)).trans hi
  | spuriousWorker hw => exact (hw.eq_of_none (by rw [hi]; rfl)).trans hi
  | add | addPut | wait | waitReturn | waitSleep | stop | closePut | closeWait | closeReturn | join
  | close | spuriousWait => exact hi

theorem Closing.step_joined (h : Closing s) (hs : Step s l s') :
    (∀ k, s'.closer = .join k → k ≤ n ∧ ∀ i : Fin n, i < k → s'.worker i = .left) ∧
      (s'.closer = .closed → ∀ i, s'.worker i = .left) := by
  have hkeep : (∀ k, s.closer = .join k → k ≤ n ∧ ∀ i : Fin n, i < k → s'.worker i = .left) ∧
      (s.closer = .closed → ∀ i, s'.worker i = .left) :=
    ⟨fun k hk => ⟨(h.joined k hk).1, fun i hi => hs.left ((h.joined k hk).2 i hi)⟩,
      fun hc i => hs.left (h.closed hc i)⟩
  cases hs with
  | closeReturn =>
      refine ⟨?_, nofun⟩
      intro k hk
      obtain rfl := PoolCloser.join.inj hk
      exact ⟨Nat.zero_le _, fun i hi => absurd hi (Nat.not_lt_zero _)⟩
  | @join i hc hi =>
      refine ⟨?_, nofun⟩
      intro k hk
      obtain rfl := PoolCloser.join.inj hk
      refine ⟨i.isLt, fun j hj => ?_⟩
      rcases Nat.lt_succ_iff_lt_or_eq.mp hj with hj | hj
      · exact (h.joined i hc).2 j hj
      · rwa [Fin.ext hj]
  | close hc => exact ⟨nofun, fun _ i => (h.joined n hc).2 i i.isLt⟩
  | stop | closePut | closeNotify | closeWait => exact ⟨nofun, nofun⟩
  | add | addPut | addNotify | get | getWait | go | leave | pop | ran | finish | notify | wait
  | waitReturn | waitSleep | spuriousWorker | spuriousWait => exact hkeep

theorem Closing.step [Fintype A] (hn : n < 2 ^ 31) (hinv : Inv s) (h : Closing s)
    (hs : Step s l s') (hl : l.Own) : Closing s' where
  adders := hs.adders hl h.adders
  user := hs.user hl h.user
  queue := h.step_queue hs hl
  value := (h.step_tokens hn hs hl).1
  before := (h.step_tokens hn hs hl).2.1
  tokens := (h.step_tokens hn hs hl).2.2
  awake := h.step_awake hn hs hl
  waits := h.step_waits hs
  asleep := h.step_asleep hinv hs
  joined := (h.step_joined hs).1
  closed := (h.step_joined hs).2

omit [DecidableEq A] in
theorem Closing.start [Fintype A] (hinv : Inv s) (hstop : s.stopped = false) (hq : Quiet s)
    (hpops : total PoolWorker.pops s.worker = s.queue.length) : Closing s := by
  obtain ⟨-, hd, hleft⟩ := hinv.unstopped hstop
  obtain ⟨k, hk, hsum⟩ := hinv.tokens hstop
  have hle := total_le_total PoolWorker.pops_le_tokens s.worker
  have hv : s.value = 0 := by
    rw [hk, show k = 0 by omega]
    exact wrap_zero
  -- a worker with a token is at `pop`
  have houts : total PoolWorker.outs s.worker = 0 := by
    refine total_eq_zero fun i => ?_
    have hup := total_update PoolWorker.tokens s.worker i .get
    have hup' := total_update PoolWorker.pops s.worker i .get
    have hle' := total_le_total PoolWorker.pops_le_tokens (Function.update s.worker i .get)
    cases hi : s.worker i with
    | check =>
        rw [hi] at hup hup'
        simp only [PoolWorker.tokens, PoolWorker.pops] at hup hup'
        omega
    | left => exact absurd hi (hleft i)
    | get | asleep | pop | run | finish | notify => rfl
  refine ⟨hq.adders, hq.user, hpops, hv.ge, fun _ => ⟨hq.closer, hv, houts⟩, ?_, ?_, ?_, ?_, ?_, ?_⟩
  · intro htrue
    rw [hstop] at htrue
    cases htrue
  · intro _
    rw [hv]
    omega
  · intro hc
    rw [hq.closer] at hc
    cases hc
  · intro hsleep
    rw [hd] at hsleep
    cases hsleep
  · intro k hc
    rw [hq.closer] at hc
    cases hc
  · intro hc
    rw [hq.closer] at hc
    cases hc

theorem total_outs_le (w : Fin n → PoolWorker J) : total PoolWorker.outs w ≤ n := by
  calc total PoolWorker.outs w ≤ ∑ _i : Fin n, 1 := Finset.sum_le_sum fun i _ => (w i).outs_le_one
    _ = n := by simp

/-- A worker that is neither asleep nor gone can take a step. -/
theorem Closing.worker_moves (h : Closing s) (i : Fin n) (hsleep : s.worker i ≠ .asleep)
    (hleft : s.worker i ≠ .left) : ∃ l s', Step s l s' ∧ l.Own ∧ l ≠ .spurious := by
  cases hi : s.worker i with
  | get =>
      by_cases hv : 1 ≤ s.value
      · exact ⟨_, _, .get hi hv, trivial, nofun⟩
      · exact ⟨_, _, .getWait hi (by omega), trivial, nofun⟩
  | check => exact ⟨_, _, .leave hi (h.not_go hi), trivial, nofun⟩
  | pop =>
      have hle := le_total PoolWorker.pops s.worker i
      rw [hi, h.queue] at hle
      obtain ⟨f, q, hq⟩ := List.exists_cons_of_length_pos hle
      exact ⟨_, _, .pop hi hq, trivial, nofun⟩
  | run f => exact ⟨_, _, .ran hi, trivial, nofun⟩
  | finish f => exact ⟨_, _, .finish hi, trivial, nofun⟩
  | notify =>
      obtain ⟨v, hv⟩ := exists_notifyOne PoolWait.wake s.waits
      exact ⟨_, _, .notify hi hv, trivial, nofun⟩
  | asleep => exact absurd hi hsleep
  | left => exact absurd hi hleft

/-- The destructor can take a step when all workers sleep or are gone. -/
theorem Closing.closer_moves (h : Closing s)
    (hw : ∀ i, s.worker i = .asleep ∨ s.worker i = .left) (hc : s.closer ≠ .closed) :
    ∃ l s', Step s l s' ∧ l.Own ∧ l ≠ .spurious := by
  cases hcl : s.closer with
  | no => exact ⟨_, _, .stop hcl, trivial, nofun⟩
  | put i =>
      cases i with
      | zero => exact ⟨_, _, .closeWait hcl, trivial, nofun⟩
      | succ i => exact ⟨_, _, .closePut hcl, trivial, nofun⟩
  | notify i =>
      obtain ⟨w, hn⟩ := exists_notifyOne PoolWorker.wake s.worker
      exact ⟨_, _, .closeNotify hcl hn, trivial, nofun⟩
  | wait =>
      cases hd : s.waits .destructor with
      | idle => exact absurd hd (h.waits hcl)
      | check =>
          by_cases hzero : s.IsZero
          · exact ⟨_, _, .closeReturn hcl hd hzero, trivial, nofun⟩
          · exact ⟨_, _, .waitSleep hd hzero, trivial, nofun⟩
      | asleep =>
          exfalso
          rcases h.asleep hd with hq | ⟨i, hi⟩
          · have hpos : 0 < total PoolWorker.pops s.worker := by
              rw [h.queue]
              exact List.length_pos_of_ne_nil hq
            obtain ⟨i, hi⟩ := exists_of_total_pos hpos
            rcases hw i with hwi | hwi <;> rw [hwi] at hi <;> exact absurd hi (Nat.lt_irrefl 0)
          · rcases hw i with hwi | hwi <;> rw [hwi] at hi <;> exact hi
  | join k =>
      obtain ⟨hk, -⟩ := h.joined k hcl
      rcases Nat.lt_or_eq_of_le hk with hk | rfl
      · rcases hw ⟨k, hk⟩ with hi | hi
        · -- a worker sleeps though there is a token for it
          exfalso
          have hawake := h.awake ⟨_, hi⟩
          have hsum := h.after (by rw [hcl]; nofun)
          have hgets : total PoolWorker.gets s.worker = 0 := by
            refine total_eq_zero fun i => ?_
            rcases hw i with hwi | hwi <;> rw [hwi] <;> rfl
          have hup := total_update PoolWorker.outs s.worker ⟨k, hk⟩ .left
          have hle := total_outs_le (Function.update s.worker ⟨k, hk⟩ .left)
          rw [hi] at hup
          rw [hcl, hgets] at hawake
          rw [hcl] at hsum
          simp only [PoolWorker.outs, PoolCloser.togo, PoolCloser.notifies] at hup hsum hawake
          omega
        · exact ⟨_, _, .join (i := ⟨k, hk⟩) hcl hi, trivial, nofun⟩
      · exact ⟨_, _, .close hcl, trivial, nofun⟩
  | closed => exact absurd hcl hc

theorem Closing.not_stuck (h : Closing s) : ¬Stuck s := by
  rintro ⟨hc, hno⟩
  have hmoves : ∃ l s', Step s l s' ∧ l.Own ∧ l ≠ .spurious := by
    by_cases hw : ∀ i, s.worker i = .asleep ∨ s.worker i = .left
    · exact h.closer_moves hw hc
    · push Not at hw
      obtain ⟨i, hsleep, hleft⟩ := hw
      exact h.worker_moves i hsleep hleft
  obtain ⟨l, s', hs, hl, hne⟩ := hmoves
  exact hne (hno l s' hs hl)

omit [DecidableEq A] in
/-- All tasks are finished when all workers are gone. -/
theorem Closing.perm [Fintype A] (hinv : Inv s) (h : Closing s) (hc : s.closer = .closed) :
    s.finished.Perm s.added := by
  have hleft := h.closed hc
  have hq : s.queue.length = 0 := by
    rw [← h.queue]
    exact total_eq_zero fun i => by rw [hleft i]; rfl
  have hnone : total PoolWorker.tasks s.worker = 0 :=
    Finset.sum_eq_zero fun i _ => by rw [hleft i]; rfl
  have hlen := hinv.length_started
  rw [hnone, Multiset.card_zero] at hlen
  exact hinv.perm (List.length_eq_zero_iff.mp hq) hlen

theorem Inv.close [Fintype A] (hinv : Inv s) (h : CloseReach s s') : Inv s' := by
  induction h with
  | refl => exact hinv
  | tail _ hs ih =>
      obtain ⟨l, hs, -⟩ := hs
      exact ih.step hs

theorem closes_of_pops [Fintype A] (hn : n < 2 ^ 31) (hinv : Inv s) (hstop : s.stopped = false)
    (hq : Quiet s) (hpops : total PoolWorker.pops s.worker = s.queue.length) : Closes s := by
  intro s' hs'
  have hclosing : Closing s' := by
    induction hs' with
    | refl => exact .start hinv hstop hq hpops
    | tail hs₁ hs ih =>
        obtain ⟨l, hs, hl⟩ := hs
        exact ih.step hn (hinv.close hs₁) hs hl
  exact ⟨hclosing.not_stuck, hclosing.perm (hinv.close hs')⟩

end Closing

/-! ## A task without a worker -/

/-- The stop flag is set, and a task in the queue has no worker that would take it. -/
structure Lost (s : ThreadPool A J n) : Prop where
  adders : ∀ a, s.adder a = .idle
  user : s.waits .user = .idle
  stopped : s.stopped = true
  closer : s.closer ≠ .no
  queue : total PoolWorker.pops s.worker < s.queue.length

/-- How many steps are left, at most. -/
def weight (s : ThreadPool A J n) : ℕ :=
  total PoolWorker.weight s.worker + s.closer.weight n + (s.waits .destructor).weight

section Lost

variable {s s' : ThreadPool A J n} {l : PoolLabel A J n}

/-- The stop flag stays set. -/
theorem Step.stopped (hs : Step s l s') (h : s.stopped = true) (hc : s.closer ≠ .no) :
    s'.stopped = true ∧ s'.closer ≠ .no := by
  cases hs with
  | stop hno => exact absurd hno hc
  | closePut | closeNotify | closeWait | closeReturn | join | close => exact ⟨h, by simp⟩
  | add | addPut | addNotify | get | getWait | go | leave | pop | ran | finish | notify | wait
  | waitReturn | waitSleep | spuriousWorker | spuriousWait => exact ⟨h, hc⟩

theorem Lost.step_queue (h : Lost s) (hs : Step s l s') (hl : l.Own) :
    total PoolWorker.pops s'.worker < s'.queue.length := by
  have hqueue := h.queue
  rcases hs.pops with ⟨a, f, rfl, -⟩ | ⟨i, -, hstop, -⟩ | heq
  · exact hl.elim
  · rw [h.stopped] at hstop
    cases hstop
  · omega

theorem Lost.step (h : Lost s) (hs : Step s l s') (hl : l.Own) : Lost s' where
  adders := hs.adders hl h.adders
  user := hs.user hl h.user
  stopped := (hs.stopped h.stopped h.closer).1
  closer := (hs.stopped h.stopped h.closer).2
  queue := h.step_queue hs hl

theorem wakes_weight {w w' : Fin n → PoolWorker J} (h : Wakes PoolWorker.wake w w') :
    total PoolWorker.weight w' = total PoolWorker.weight w + 1 := by
  obtain ⟨i, hi, rfl⟩ := exists_asleep h
  have hup := total_update PoolWorker.weight w i .get
  rw [hi] at hup
  simp only [PoolWorker.weight] at hup
  omega

theorem weight_wait_le (v : PoolWait) : v.weight ≤ 1 := by
  cases v <;> simp [PoolWait.weight]

/-- The run comes to an end when nobody wakes up without notification. -/
theorem Lost.weight_lt (h : Lost s) (hs : Step s l s') (hl : l.Own) (hne : l ≠ .spurious) :
    s'.weight < s.weight := by
  unfold weight
  cases hs with
  | add => exact hl.elim
  | @addPut a ha | @addNotify a _ ha =>
      rw [h.adders a] at ha
      cases ha
  | go _ hgo =>
      rw [h.stopped] at hgo
      cases hgo
  | get hi | getWait hi | leave hi | pop hi | ran hi | finish hi =>
      refine Nat.add_lt_add_right (Nat.add_lt_add_right (total_update_lt ?_) _) _
      simp [hi, PoolWorker.weight]
  | @notify i v hi _ =>
      have hup := total_update PoolWorker.weight s.worker i .get
      have hle := weight_wait_le (v .destructor)
      rw [hi] at hup
      simp only [PoolWorker.weight] at hup ⊢
      omega
  | wait => exact hl.elim
  | waitReturn hc =>
      rw [h.user] at hc
      cases hc
  | @waitSleep c hc _ =>
      cases c with
      | user =>
          rw [h.user] at hc
          cases hc
      | destructor =>
          simp only [Function.update_self, hc, PoolWait.weight]
          omega
  | stop hc => exact absurd hc h.closer
  | closePut hc =>
      simp only [hc, PoolCloser.weight]
      omega
  | closeNotify hc hn =>
      simp only [hc, PoolCloser.weight]
      rcases hn with hn | ⟨-, rfl⟩
      · rw [wakes_weight hn]
        omega
      · omega
  | closeWait hc =>
      simp only [hc, PoolCloser.weight, Function.update_self, PoolWait.weight]
      omega
  | closeReturn hc hd _ =>
      simp only [hc, hd, PoolCloser.weight, Function.update_self, PoolWait.weight]
      omega
  | @join i hc _ =>
      have hlt := i.isLt
      simp only [hc, PoolCloser.weight]
      omega
  | close hc =>
      simp only [hc, PoolCloser.weight]
      omega
  | spuriousWorker | spuriousWait => exact absurd rfl hne

/-- A state in which nothing can happen any more. -/
theorem Lost.exists_end (h : Lost s) :
    ∃ s', CloseReach s s' ∧ Lost s' ∧ ∀ l s'', Step s' l s'' → l.Own → l = .spurious := by
  induction hk : s.weight using Nat.strong_induction_on generalizing s with
  | _ k ih =>
      by_cases hmove : ∃ l s', Step s l s' ∧ l.Own ∧ l ≠ .spurious
      · obtain ⟨l, s₁, hs, hl, hne⟩ := hmove
        obtain ⟨s', hreach, hlost, hend⟩ :=
          ih s₁.weight (hk ▸ h.weight_lt hs hl hne) (h.step hs hl) rfl
        exact ⟨s', hreach.head ⟨l, hs, hl⟩, hlost, hend⟩
      · refine ⟨s, .refl, h, ?_⟩
        intro l s' hs hl
        by_contra hne
        exact hmove ⟨l, s', hs, hl, hne⟩

omit [DecidableEq A] in
/-- The task in the queue is not finished. -/
theorem Lost.not_perm [Fintype A] (hinv : Inv s) (h : Lost s) : ¬s.finished.Perm s.added := by
  intro hperm
  have hlen := hperm.length_eq
  have hstarted := hinv.length_started
  have hqueue := h.queue
  rw [hinv.fifo, List.length_append] at hlen
  omega

theorem not_closes_of_pops [Fintype A] (hinv : Inv s) (hq : Quiet s)
    (hpops : total PoolWorker.pops s.worker < s.queue.length) : ¬Closes s := by
  intro hcloses
  have hlost : Lost { s with stopped := true, closer := PoolCloser.put n } :=
    ⟨hq.adders, hq.user, rfl, nofun, hpops⟩
  obtain ⟨s', hreach, hlost', hend⟩ := hlost.exists_end
  have hclose : CloseReach s s' := hreach.head ⟨_, .stop hq.closer, trivial⟩
  obtain ⟨hstuck, hperm⟩ := hcloses s' hclose
  by_cases hc : s'.closer = .closed
  · exact hlost'.not_perm (hinv.close hclose) (hperm hc)
  · exact hstuck ⟨hc, hend⟩

/-- The stop flag is set by the destructor. -/
theorem Reach.unstopped (h : Reach s) (hc : s.closer = .no) : s.stopped = false := by
  induction h with
  | refl => rfl
  | tail _ hs ih =>
      obtain ⟨l, hs⟩ := hs
      cases hs with
      | stop | closePut | closeNotify | closeWait | closeReturn | join | close => cases hc
      | add | addPut | addNotify | get | getWait | go | leave | pop | ran | finish | notify | wait
      | waitReturn | waitSleep | spuriousWorker | spuriousWait => exact ih hc

/-- **When the destructor completes and loses no task.** When there is a worker for every task in
the queue that has already looked at the stop flag, and only then. -/
theorem closes_iff [Fintype A] (hn : n < 2 ^ 31) (h : Reach s) (hq : Quiet s) :
    Closes s ↔ total PoolWorker.pops s.worker = s.queue.length := by
  have hinv := Inv.reach h
  constructor
  · intro hcloses
    by_contra hne
    exact not_closes_of_pops hinv hq (lt_of_le_of_ne hinv.pops hne) hcloses
  · exact closes_of_pops hn hinv (h.unstopped hq.closer) hq

/-- A worker runs a task, the other one is going to take the task in the queue. -/
theorem closes_iff_running : ∃ s : ThreadPool Unit Bool 2, Reach s ∧ s.worker 0 = .run true ∧
    s.worker 1 = .pop ∧ s.queue = [false] ∧ Closes s := by
  have h₁ : RoomyReach (A := Unit) (J := Bool) (n := 2) _ := .refl
  have h₂ := h₁.add () true (by decide) rfl fun _ => rfl
  have h₃ := (h₂.passes (i := 0) rfl (by decide) rfl).work (.pop (i := 0) rfl rfl)
  have h₄ := h₃.add () false (by decide) rfl (Fin.forall_fin_two.mpr ⟨rfl, rfl⟩)
  have h := (h₄.passes (i := 1) rfl (by decide) rfl).reach
  refine ⟨_, h, rfl, rfl, rfl, ?_⟩
  exact (closes_iff (by decide) h ⟨fun _ => rfl, rfl, rfl⟩).mpr (by decide)

/-- A task is in the queue, and no worker has looked at the stop flag. -/
theorem not_closes_one :
    ∃ s : ThreadPool Unit Unit 1, Reach s ∧ Quiet s ∧ ¬Closes s := by
  have h₁ : RoomyReach (A := Unit) (J := Unit) (n := 1) _ := .refl
  have h := (h₁.add () () (by decide) rfl fun _ => rfl).reach
  refine ⟨_, h, ⟨fun _ => rfl, rfl, rfl⟩, ?_⟩
  exact not_closes_of_pops (.reach h) ⟨fun _ => rfl, rfl, rfl⟩ (by decide)

end Lost

end ThreadPool

end StdmlCollective

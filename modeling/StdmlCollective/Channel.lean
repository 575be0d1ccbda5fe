import Mathlib.Data.List.Basic
import Mathlib.Logic.Relation
import StdmlCollective.Lib.Threads

/-!
# `channel`

A queue of bounded capacity with one mutex and one condition variable, at which the threads sleep
that wait for a value as well as those that wait for room. `get` and `try_get` notify one thread,
`put` notifies all. A critical section is one step; a thread in `cv.wait` has left it and comes
back when it is woken, to look at the buffer again.

A getter sleeps only while the buffer is empty, since `put` wakes all. So when a value is taken
every thread that sleeps is a putter, and the one that is notified is the one that has to know.
-/

namespace StdmlCollective

open Threads

/-- Where a thread is: in no call, in a call before it takes the lock, or asleep in `cv.wait`. A
thread that has slept and was notified has `notified` set. -/
inductive ChannelCall (T : Type) where
  | idle
  | get (notified : Bool)
  | getAsleep
  | put (x : T) (notified : Bool)
  | putAsleep (x : T)

/-- Where a thread goes on that sleeps at `cv`. -/
def ChannelCall.wake {T : Type} (notified : Bool) : ChannelCall T → Option (ChannelCall T)
  | .getAsleep => some (.get notified)
  | .putAsleep x => some (.put x notified)
  | _ => none

/-- `class channel`, and its threads. `putLog` and `gotLog` are auxiliary: the values that have been
put and taken, in the order of the critical sections. -/
structure Channel (θ T : Type) where
  buffer : List T
  thread : θ → ChannelCall T
  putLog : List T
  gotLog : List T

/-- What a step shows to the thread that takes it. -/
inductive ChannelEvent (θ T : Type) where
  | tau
  | callGet (t : θ)
  | callPut (t : θ) (x : T)
  | got (t : θ) (x : T)
  | tried (t : θ) (x : Option T)
  | done (t : θ) (x : T)

/-- What an event means for a queue of capacity `cap`. -/
def ChannelEvent.Moves {θ T : Type} (cap : ℕ) : ChannelEvent θ T → List T → List T → Prop
  | .got _ x, b, b' => b = x :: b'
  | .tried _ (some x), b, b' => b = x :: b'
  | .done _ x, b, b' => b.length < cap ∧ b' = b ++ [x]
  | _, b, b' => b' = b

/-- The value that an event puts. -/
def ChannelEvent.puts {θ T : Type} : ChannelEvent θ T → List T
  | .done _ x => [x]
  | _ => []

/-- The value that an event takes. -/
def ChannelEvent.gets {θ T : Type} : ChannelEvent θ T → List T
  | .got _ x => [x]
  | .tried _ x => x.toList
  | _ => []

namespace Channel

variable {θ T : Type} [DecidableEq θ]

/-- The steps of the threads on a channel of capacity `cap`. -/
inductive Step (cap : ℕ) : Channel θ T → ChannelEvent θ T → Channel θ T → Prop where
  | callGet {c : Channel θ T} {t : θ} :
      c.thread t = .idle →
      Step cap c (.callGet t) { c with thread := Function.update c.thread t (.get false) }
  | callPut {c : Channel θ T} {t : θ} {x : T} :
      c.thread t = .idle →
      Step cap c (.callPut t x) { c with thread := Function.update c.thread t (.put x false) }
  | get {c : Channel θ T} {t : θ} {b : Bool} {x : T} {r : List T} {f : θ → ChannelCall T} :
      c.thread t = .get b → c.buffer = x :: r →
      NotifyOne (ChannelCall.wake true) (Function.update c.thread t .idle) f →
      Step cap c (.got t x) { c with buffer := r, thread := f, gotLog := c.gotLog ++ [x] }
  | getWait {c : Channel θ T} {t : θ} {b : Bool} :
      c.thread t = .get b → c.buffer = [] →
      Step cap c .tau { c with thread := Function.update c.thread t .getAsleep }
  | tryGet {c : Channel θ T} {t : θ} {x : T} {r : List T} {f : θ → ChannelCall T} :
      c.thread t = .idle → c.buffer = x :: r → NotifyOne (ChannelCall.wake true) c.thread f →
      Step cap c (.tried t (some x)) { c with buffer := r, thread := f, gotLog := c.gotLog ++ [x] }
  | tryGetEmpty {c : Channel θ T} {t : θ} :
      c.thread t = .idle → c.buffer = [] → Step cap c (.tried t none) c
  | put {c : Channel θ T} {t : θ} {x : T} {b : Bool} :
      c.thread t = .put x b → c.buffer.length < cap →
      Step cap c (.done t x) { c with
        buffer := c.buffer ++ [x]
        thread := notifyAll (ChannelCall.wake true) (Function.update c.thread t .idle)
        putLog := c.putLog ++ [x] }
  | putWait {c : Channel θ T} {t : θ} {x : T} {b : Bool} :
      c.thread t = .put x b → cap ≤ c.buffer.length →
      Step cap c .tau { c with thread := Function.update c.thread t (.putAsleep x) }
  | spurious {c : Channel θ T} {f : θ → ChannelCall T} :
      Wakes (ChannelCall.wake false) c.thread f → Step cap c .tau { c with thread := f }

/-- A new channel. -/
def start : Channel θ T := ⟨[], fun _ => .idle, [], []⟩

/-- The states that the threads can reach. -/
def Reach (cap : ℕ) (c : Channel θ T) : Prop :=
  Relation.ReflTransGen (fun c c' => ∃ e, Step cap c e c') start c

/-- The buffer is the queue that the events describe. -/
theorem Step.moves {cap : ℕ} {c c' : Channel θ T} {e : ChannelEvent θ T} (h : Step cap c e c') :
    e.Moves cap c.buffer c'.buffer := by
  cases h with
  | callGet _ | callPut _ | getWait _ _ | tryGetEmpty _ _ | putWait _ _ | spurious _ => rfl
  | get _ hb _ | tryGet _ hb _ => exact hb
  | put _ hlt => exact ⟨hlt, rfl⟩

/-- A value has been taken, or there is room and one has been put, or nothing has changed. -/
theorem Step.queue {cap : ℕ} {c c' : Channel θ T} {e : ChannelEvent θ T} (h : Step cap c e c') :
    (c'.buffer = c.buffer ∧ c'.putLog = c.putLog ∧ c'.gotLog = c.gotLog) ∨
    (∃ x, c.buffer = x :: c'.buffer ∧ c'.putLog = c.putLog ∧ c'.gotLog = c.gotLog ++ [x]) ∨
    (∃ x, c.buffer.length < cap ∧ c'.buffer = c.buffer ++ [x] ∧ c'.putLog = c.putLog ++ [x] ∧
      c'.gotLog = c.gotLog) := by
  cases h with
  | callGet _ | callPut _ | getWait _ _ | tryGetEmpty _ _ | putWait _ _ | spurious _ =>
      exact .inl ⟨rfl, rfl, rfl⟩
  | get _ hb _ | tryGet _ hb _ => exact .inr (.inl ⟨_, hb, rfl, rfl⟩)
  | put _ hlt => exact .inr (.inr ⟨_, hlt, rfl, rfl, rfl⟩)

/-! ## What the events of a run tell -/

/-- A run, with its events. -/
inductive Run (cap : ℕ) : List (ChannelEvent θ T) → Channel θ T → Prop where
  | start : Run cap [] start
  | step {es : List (ChannelEvent θ T)} {c c' : Channel θ T} {e : ChannelEvent θ T} :
      Run cap es c → Step cap c e c' → Run cap (es ++ [e]) c'

theorem Run.reach {cap : ℕ} {es : List (ChannelEvent θ T)} {c : Channel θ T} (h : Run cap es c) :
    Reach cap c := by
  induction h with
  | start => exact .refl
  | step _ hs ih => exact ih.tail ⟨_, hs⟩

/-- The values that have been put and taken are those of the events. -/
theorem Run.logs {cap : ℕ} {es : List (ChannelEvent θ T)} {c : Channel θ T} (h : Run cap es c) :
    c.putLog = es.flatMap ChannelEvent.puts ∧ c.gotLog = es.flatMap ChannelEvent.gets := by
  induction h with
  | start => exact ⟨rfl, rfl⟩
  | step _ hs ih =>
      obtain ⟨hput, hgot⟩ := ih
      rw [List.flatMap_append, List.flatMap_append, ← hput, ← hgot]
      cases hs <;> simp [ChannelEvent.puts, ChannelEvent.gets]

/-! ## Who sleeps -/

section Sleep

variable {f g : θ → ChannelCall T} {b : Bool} {s s' : ChannelCall T}

/-- A thread that has been woken looks at the buffer. -/
theorem wake_eq_some (h : ChannelCall.wake b s = some s') :
    s = .getAsleep ∧ s' = .get b ∨ ∃ x, s = .putAsleep x ∧ s' = .put x b := by
  cases s with
  | getAsleep => exact .inl ⟨rfl, (Option.some.inj h).symm⟩
  | putAsleep x => exact .inr ⟨x, rfl, (Option.some.inj h).symm⟩
  | idle | get _ | put _ _ => cases h

theorem wakes_getAsleep (h : Wakes (ChannelCall.wake b) f g) {t : θ} (ht : g t = .getAsleep) :
    f t = .getAsleep := by
  obtain ⟨u, s, hu, rfl⟩ := h
  refine (of_update_eq ht ?_).2
  rcases wake_eq_some hu with ⟨-, rfl⟩ | ⟨x, -, rfl⟩ <;> nofun

theorem wakes_putAsleep (h : Wakes (ChannelCall.wake b) f g) {t : θ} {x : T}
    (ht : g t = .putAsleep x) : f t = .putAsleep x := by
  obtain ⟨u, s, hu, rfl⟩ := h
  refine (of_update_eq ht ?_).2
  rcases wake_eq_some hu with ⟨-, rfl⟩ | ⟨y, -, rfl⟩ <;> nofun

/-- `notify_one` among putters. -/
theorem notifyOne_putters (hno : ∀ t, f t ≠ .getAsleep)
    (h : NotifyOne (ChannelCall.wake true) f g) :
    (∀ t, g t ≠ .getAsleep) ∧
      ∀ t x, g t = .putAsleep x → ∃ u y, g u = .put y true := by
  rcases h with h | ⟨hnone, rfl⟩
  · refine ⟨fun t ht => hno t (wakes_getAsleep h ht), ?_⟩
    intro t x ht
    obtain ⟨u, s, hu, rfl⟩ := h
    rcases wake_eq_some hu with ⟨hget, -⟩ | ⟨y, -, rfl⟩
    · exact absurd hget (hno u)
    · exact ⟨u, y, Function.update_self ..⟩
  · refine ⟨hno, ?_⟩
    intro t x ht
    have hsleeps := hnone t
    rw [ht] at hsleeps
    cases hsleeps

omit [DecidableEq θ] in
/-- After `notify_all` nobody sleeps. -/
theorem notifyAll_awake (f : θ → ChannelCall T) (t : θ) :
    notifyAll (ChannelCall.wake true) f t ≠ .getAsleep ∧
      ∀ x, notifyAll (ChannelCall.wake true) f t ≠ .putAsleep x := by
  unfold notifyAll
  cases f t <;> simp [ChannelCall.wake]

/-- Nobody sleeps. -/
def Awake (c : Channel θ T) : Prop := ∀ t b, (c.thread t).wake b = none

omit [DecidableEq θ] in
theorem notifyAll_of_awake {c : Channel θ T} (h : c.Awake) :
    notifyAll (ChannelCall.wake true) c.thread = c.thread := by
  funext t
  rw [notifyAll, h t true, Option.getD_none]

theorem Awake.update {c : Channel θ T} (h : c.Awake) {t : θ} (hs : ∀ b, s.wake b = none) :
    Awake { c with thread := Function.update c.thread t s } := by
  intro u b
  by_cases hut : u = t
  · subst hut
    simp only [Function.update_self, hs]
  · simp only [Function.update_of_ne hut, h u b]

/-- `put` when nobody sleeps. -/
theorem Awake.put {cap : ℕ} {c : Channel θ T} (h : c.Awake) {t : θ} {x : T} {b : Bool}
    (ht : c.thread t = .put x b) (hlt : c.buffer.length < cap) :
    Step cap c (.done t x) { c with
      buffer := c.buffer ++ [x], thread := Function.update c.thread t .idle,
      putLog := c.putLog ++ [x] } := by
  have hstep := Step.put ht hlt
  rwa [notifyAll_of_awake (c := { c with thread := Function.update c.thread t .idle })
    (h.update fun _ => rfl)] at hstep

/-- `get` when nobody sleeps. -/
theorem Awake.get {cap : ℕ} {c : Channel θ T} (h : c.Awake) {t : θ} {x : T} {r : List T} {b : Bool}
    (ht : c.thread t = .get b) (hb : c.buffer = x :: r) :
    Step cap c (.got t x) { c with
      buffer := r, thread := Function.update c.thread t .idle, gotLog := c.gotLog ++ [x] } :=
  .get ht hb (.inr ⟨fun u => (h.update (t := t) (s := .idle) fun _ => rfl) u true, rfl⟩)

end Sleep

/-! ## The invariant -/

/-- What holds of every state of a channel. -/
structure Inv (cap : ℕ) (c : Channel θ T) : Prop where
  bound : c.buffer.length ≤ cap
  fifo : c.putLog = c.gotLog ++ c.buffer
  getters : ∀ t, c.thread t = .getAsleep → c.buffer = []
  putters : ∀ t x, c.thread t = .putAsleep x → c.buffer.length < cap →
    ∃ u y, c.thread u = .put y true

variable {cap : ℕ} {c c' : Channel θ T} {e : ChannelEvent θ T}

omit [DecidableEq θ] in
theorem Inv.start (cap : ℕ) : Inv cap (Channel.start : Channel θ T) where
  bound := Nat.zero_le _
  fifo := rfl
  getters _ _ := rfl
  putters _ _ h := nomatch h

/-- The capacity and the order. -/
theorem Inv.step_queue (h : Inv cap c) (hs : Step cap c e c') :
    c'.buffer.length ≤ cap ∧ c'.putLog = c'.gotLog ++ c'.buffer := by
  have hbound := h.bound
  rcases hs.queue with ⟨hb, hp, hg⟩ | ⟨x, hb, hp, hg⟩ | ⟨x, hlt, hb, hp, hg⟩
  · rw [hb, hp, hg]
    exact ⟨hbound, h.fifo⟩
  · rw [hp, hg, h.fifo, hb]
    rw [hb, List.length_cons] at hbound
    exact ⟨by omega, by simp⟩
  · rw [hb, hp, hg, h.fifo]
    exact ⟨by simpa [Nat.succ_le_iff] using hlt, by simp⟩

omit [DecidableEq θ] in
theorem Inv.getters_of_cons (h : Inv cap c) {x : T} {r : List T} (hb : c.buffer = x :: r) (t : θ) :
    c.thread t ≠ .getAsleep := by
  intro ht
  have hnil := h.getters t ht
  rw [hb] at hnil
  cases hnil

/-- A thread moves that has not been notified, and does not go to sleep in `put`. -/
theorem Inv.putters_update (h : Inv cap c) {t : θ} {s : ChannelCall T}
    (ht : ∀ y, c.thread t ≠ .put y true) (hs : ∀ x, s ≠ .putAsleep x) {u : θ} {x : T}
    (hu : Function.update c.thread t s u = .putAsleep x) (hlt : c.buffer.length < cap) :
    ∃ v y, Function.update c.thread t s v = .put y true := by
  obtain ⟨-, hu⟩ := of_update_eq hu (hs x)
  obtain ⟨v, y, hv⟩ := h.putters u x hu hlt
  exact ⟨v, y, update_eq_of_ne hv (ht y)⟩

/-- No getter sleeps when `get` has taken a value. -/
theorem Inv.getters_update (h : Inv cap c) {t : θ} {x : T} {r : List T} (hb : c.buffer = x :: r)
    (u : θ) : Function.update c.thread t .idle u ≠ .getAsleep := fun hu =>
  h.getters_of_cons hb u (of_update_eq hu nofun).2

theorem Inv.step_getters (h : Inv cap c) (hs : Step cap c e c') (t : θ)
    (ht : c'.thread t = .getAsleep) : c'.buffer = [] := by
  cases hs with
  | callGet _ | callPut _ | putWait _ _ => exact h.getters t (of_update_eq ht nofun).2
  | get _ hb hn => exact absurd ht ((notifyOne_putters (h.getters_update hb) hn).1 t)
  | getWait _ hb => exact hb
  | tryGet _ hb hn => exact absurd ht ((notifyOne_putters (h.getters_of_cons hb) hn).1 t)
  | tryGetEmpty _ hb => exact hb
  | put _ _ => exact absurd ht (notifyAll_awake _ t).1
  | spurious hw => exact h.getters t (wakes_getAsleep hw ht)

theorem Inv.step_putters (h : Inv cap c) (hs : Step cap c e c') (t : θ) (x : T)
    (ht : c'.thread t = .putAsleep x) (hlt : c'.buffer.length < cap) :
    ∃ u y, c'.thread u = .put y true := by
  cases hs with
  | callGet hu | callPut hu =>
      exact h.putters_update (fun y => by rw [hu]; nofun) (fun _ => nofun) ht hlt
  | get _ hb hn => exact (notifyOne_putters (h.getters_update hb) hn).2 t x ht
  | getWait hu _ => exact h.putters_update (fun y => by rw [hu]; nofun) (fun _ => nofun) ht hlt
  | tryGet _ hb hn => exact (notifyOne_putters (h.getters_of_cons hb) hn).2 t x ht
  | tryGetEmpty _ _ => exact h.putters t x ht hlt
  | put _ _ => exact absurd ht ((notifyAll_awake _ t).2 x)
  | putWait _ hle => exact absurd hlt (not_lt.mpr hle)
  | spurious hw =>
      obtain ⟨v, y, hv⟩ := h.putters t x (wakes_putAsleep hw ht) hlt
      obtain ⟨u, s, hu, rfl⟩ := hw
      refine ⟨v, y, update_eq_of_ne hv ?_⟩
      intro heq
      rw [heq] at hu
      cases hu

theorem Inv.step (h : Inv cap c) (hs : Step cap c e c') : Inv cap c' where
  bound := (h.step_queue hs).1
  fifo := (h.step_queue hs).2
  getters := h.step_getters hs
  putters := h.step_putters hs

theorem Inv.reach (h : Reach cap c) : Inv cap c := by
  induction h with
  | refl => exact .start cap
  | tail _ hs ih =>
      obtain ⟨e, hs⟩ := hs
      exact ih.step hs

/-- What the events of a run take is what they put, in the same order, but for what is still in the
buffer. -/
theorem Run.fifo {es : List (ChannelEvent θ T)} (h : Run cap es c) :
    es.flatMap ChannelEvent.puts = es.flatMap ChannelEvent.gets ++ c.buffer := by
  rw [← h.logs.1, ← h.logs.2]
  exact (Inv.reach h.reach).fifo

/-- **A bounded queue without lost wake-ups.** The capacity is kept, values are taken in the order
in which they were put, a getter that has not been notified sleeps only at an empty buffer, and when
there is room and a putter sleeps, another one has been notified and can put its value. -/
theorem bounded_fifo (h : Reach cap c) :
    c.buffer.length ≤ cap ∧ c.putLog = c.gotLog ++ c.buffer ∧
      (∀ t, c.thread t = .getAsleep → c.buffer = []) ∧
      (c.buffer.length < cap → (∃ t x, c.thread t = .putAsleep x) →
        ∃ u y c', c.thread u = .put y true ∧ Step cap c (.done u y) c') := by
  have hinv := Inv.reach h
  refine ⟨hinv.bound, hinv.fifo, hinv.getters, ?_⟩
  rintro hlt ⟨t, x, ht⟩
  obtain ⟨u, y, hu⟩ := hinv.putters t x ht hlt
  exact ⟨u, y, _, hu, .put hu hlt⟩

/-- A value goes through a channel of capacity 1 while two putters sleep. Then there is room, and
one of them has been notified. -/
theorem bounded_fifo_taken : ∃ c : Channel (Fin 3) ℕ, Reach 1 c ∧ c.buffer = [] ∧ c.gotLog = [7] ∧
    c.thread 2 = .putAsleep 9 ∧ ∃ u y c', c.thread u = .put y true ∧ Step 1 c (.done u y) c' := by
  have h₁ : Reach 1 _ := .single ⟨_, .callPut (c := start) (t := (0 : Fin 3)) (x := 7) rfl⟩
  have h₂ : Reach 1 _ := .tail h₁ ⟨_, .put (t := 0) (x := 7) rfl Nat.one_pos⟩
  have h₃ : Reach 1 _ := .tail h₂ ⟨_, .callPut (t := 1) (x := 8) rfl⟩
  have h₄ : Reach 1 _ := .tail h₃ ⟨_, .putWait (t := 1) (x := 8) rfl le_rfl⟩
  have h₅ : Reach 1 _ := .tail h₄ ⟨_, .callPut (t := 2) (x := 9) rfl⟩
  have h₆ : Reach 1 _ := .tail h₅ ⟨_, .putWait (t := 2) (x := 9) rfl le_rfl⟩
  have h₇ : Reach 1 _ := .tail h₆ ⟨_, .callGet (t := 0) rfl⟩
  have h₈ : Reach 1 _ := .tail h₇ ⟨_, .get (t := 0) (x := 7) rfl rfl (.inl ⟨1, .put 8 true, rfl, rfl⟩)⟩
  obtain ⟨-, -, -, hnotified⟩ := bounded_fifo h₈
  exact ⟨_, h₈, rfl, rfl, rfl, hnotified Nat.one_pos ⟨2, 9, rfl⟩⟩

end Channel

end StdmlCollective

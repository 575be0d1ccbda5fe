import StdmlCollective.Lib.Transfer
import StdmlCollective.Rchan

/-!
# Exact reads and writes

`ioutil.hpp` has four loops that move `n` bytes through a socket that moves as many as it likes in
one call: `io_exact` and the `read` with an error code of the blocking form, `io_exact` of the
non-blocking form, and `io_exact_task`, which is polled. They report failure in different ways and
the last two call again when the socket would block.

A script is a list of what the calls of a socket do, one after the other. A loop that needs more
calls than are in the script is not over at its end.
-/

namespace StdmlCollective

open Transfer

/-- `enum io_type`. -/
abbrev IoType := Direction

/-- The value of a `std::error_code` that is set. -/
structure ErrorValue where
  value : Int32
  ne_zero : value ≠ 0

/-- What a call of `read_some` or `write_some` does: it moves some bytes, as many as `m` and not
more than it is asked for, or it sets an error code. -/
inductive Outcome where
  | count (m : ℕ)
  | error (ec : ErrorValue)

/-- `would_block`. -/
def wouldBlock (ec : Int32) : Bool := ec = 11

/-- How a loop ends: it returns, or it throws `unexpected_eof` or an error. -/
inductive IoEnd where
  | returned
  | unexpectedEof
  | error (ec : Int32)
deriving DecidableEq, Repr

namespace Outcome

/-- `io_some` of `n` bytes: what it returns, and the error code. -/
def ioSome (n : ℕ) : Outcome → ℕ × Int32
  | .count m => (min m n, 0)
  | .error ec => (0, ec.value)

/-- Whether the call would block. -/
def blocks : Outcome → Bool
  | .count _ => false
  | .error ec => wouldBlock ec.value

/-- A zero count, or an error other than that the call would block. -/
def stops : Outcome → Bool
  | .count m => m = 0
  | .error ec => !wouldBlock ec.value

def amount : Outcome → ℕ
  | .count m => m
  | .error _ => 0

/-- What is thrown for it. -/
def fault : Outcome → IoEnd
  | .count _ => .unexpectedEof
  | .error ec => .error ec.value

end Outcome

/-! ## The four loops -/

section Loops

variable (iot : IoType) (stream : ℕ → UInt8)

/-- `base_ioutil<Socket, false>::io_exact`. A socket without an error code throws. -/
def BlockingIo.ioExact : List Outcome → Addr → ℕ → State → Option IoEnd × State
  | os, ptr, n, s =>
      if n = 0 then (some .returned, s)
      else
        match os with
        | [] => (none, s)
        | o :: os =>
            let (m, ec) := o.ioSome n
            if ec ≠ 0 then (some (.error ec), s)
            else if m = 0 then (some .unexpectedEof, s)
            else BlockingIo.ioExact os (ptr + m) (n - m) (move iot stream ptr m s)

/-- `base_ioutil<Socket, false>::read(socket, ptr, n, ec)`, and the `ec` it leaves. -/
def BlockingIo.readEc : List Outcome → Addr → ℕ → Int32 → State → Option Int32 × State
  | os, ptr, n, ec, s =>
      if n = 0 then (some ec, s)
      else
        match os with
        | [] => (none, s)
        | o :: os =>
            let (m, ec) := o.ioSome n
            if ec ≠ 0 then (some ec, s)
            else if m = 0 then (some 1, s)
            else BlockingIo.readEc os (ptr + m) (n - m) ec (move .read stream ptr m s)

/-- `base_ioutil<Socket, true>::io_exact`. -/
def NonBlockingIo.ioExact : List Outcome → Addr → ℕ → State → Option IoEnd × State
  | os, ptr, n, s =>
      if n = 0 then (some .returned, s)
      else
        match os with
        | [] => (none, s)
        | o :: os =>
            let (m, ec) := o.ioSome n
            if ec ≠ 0 then
              if wouldBlock ec then NonBlockingIo.ioExact os ptr n s else (some (.error ec), s)
            else if m = 0 then (some .unexpectedEof, s)
            else NonBlockingIo.ioExact os (ptr + m) (n - m) (move iot stream ptr m s)

/-- `class io_exact_task`. -/
structure IoExactTask where
  ptr : Addr
  n : ℕ

namespace IoExactTask

/-- `io_exact_task::finished`. -/
def finished (t : IoExactTask) : Bool := t.n = 0

/-- `io_exact_task::poll`; `o` is what the call of the socket does, if there is one. -/
def poll (t : IoExactTask) (o : Outcome) (s : State) : Except IoEnd (IoExactTask × State) :=
  if t.n = 0 then .ok (t, s)
  else
    let (m, ec) := o.ioSome t.n
    if ec ≠ 0 then
      if !wouldBlock ec then .error (.error ec) else .ok (t, s)
    else if m = 0 then .error .unexpectedEof
    else .ok (⟨t.ptr + m, t.n - m⟩, move iot stream t.ptr m s)

/-- `task::finish`. A poll of a task that is not finished calls the socket once. -/
def finish : List Outcome → IoExactTask → State → Option IoEnd × State
  | os, t, s =>
      if t.finished then (some .returned, s)
      else
        match os with
        | [] => (none, s)
        | o :: os =>
            match t.poll iot stream o s with
            | .error e => (some e, s)
            | .ok (t, s) => finish os t s

end IoExactTask

end Loops

/-! ## What the script decides -/

/-- The bytes that are moved before the first zero count or error. -/
def delivered (os : List Outcome) : ℕ := ((os.takeWhile fun o => !o.stops).map Outcome.amount).sum

/-- How `n` bytes come to an end: with success when there are enough of them, and otherwise with the
first zero count or error. There is no end when the script has none. -/
def verdict (n : ℕ) (os : List Outcome) : Option IoEnd :=
  if n ≤ delivered os then some .returned else (os.find? Outcome.stops).map Outcome.fault

/-- The `ec` of `read(socket, ptr, n, ec)` for a way to end. -/
def IoEnd.ec : IoEnd → Int32
  | .returned => 0
  | .unexpectedEof => 1
  | .error ec => ec

section Script

variable {o : Outcome} {os : List Outcome} {n : ℕ}

@[simp] theorem delivered_nil : delivered [] = 0 := rfl

theorem delivered_of_stops (h : o.stops) : delivered (o :: os) = 0 := by
  simp [delivered, h]

theorem delivered_cons (h : o.stops = false) : delivered (o :: os) = o.amount + delivered os := by
  simp [delivered, h]

@[simp] theorem verdict_zero : verdict 0 os = some .returned := by
  simp [verdict]

theorem verdict_nil (hn : n ≠ 0) : verdict n [] = none := by
  simp [verdict, hn]

theorem verdict_of_stops (hn : n ≠ 0) (h : o.stops) : verdict n (o :: os) = some o.fault := by
  simp [verdict, delivered_of_stops h, hn, h]

theorem verdict_cons (h : o.stops = false) :
    verdict n (o :: os) = verdict (n - min o.amount n) os := by
  have hle : n ≤ o.amount + delivered os ↔ n - min o.amount n ≤ delivered os := by omega
  simp only [verdict, delivered_cons h, hle, List.find?_cons, h]

theorem Outcome.stops_count {m : ℕ} (hm : m ≠ 0) : (Outcome.count m).stops = false := by
  simp [stops, hm]

theorem Outcome.ioSome_error (n : ℕ) (ec : ErrorValue) :
    (Outcome.error ec).ioSome n = (0, ec.value) := rfl

theorem Outcome.ioSome_count (n m : ℕ) : (Outcome.count m).ioSome n = (min m n, 0) := rfl

end Script

/-! ## The loops agree -/

section Agree

variable {iot : IoType} {stream : ℕ → UInt8}

/-- A piece and what is moved after it. -/
theorem move_delivered {o : Outcome} (h : o.stops = false) (os : List Outcome) (ptr n : ℕ)
    (s : State) :
    move iot stream (ptr + min o.amount n) (min (n - min o.amount n) (delivered os))
        (move iot stream ptr (min o.amount n) s) =
      move iot stream ptr (min n (delivered (o :: os))) s := by
  rw [move_move, delivered_cons h]
  congr 1
  omega

/-- The non-blocking loop does what the script says. -/
theorem NonBlockingIo.ioExact_eq (os : List Outcome) (ptr n : ℕ) (s : State) :
    NonBlockingIo.ioExact iot stream os ptr n s =
      (verdict n os, move iot stream ptr (min n (delivered os)) s) := by
  induction os generalizing ptr n s with
  | nil =>
      rw [NonBlockingIo.ioExact]
      split
      · next hn => simp [hn]
      · next hn => simp [verdict_nil hn]
  | cons o os ih =>
      rw [NonBlockingIo.ioExact]
      split
      · next hn => simp [hn]
      · next hn =>
        cases o with
        | count m =>
            by_cases hm : m = 0
            · have hstop : (Outcome.count m).stops := by simp [Outcome.stops, hm]
              rw [verdict_of_stops hn hstop, delivered_of_stops hstop]
              simp [Outcome.ioSome_count, Outcome.fault, hm]
            · have hgo := Outcome.stops_count hm
              have hpos : min m n ≠ 0 := by omega
              rw [verdict_cons hgo, ← move_delivered hgo]
              simp [Outcome.ioSome_count, Outcome.amount, hpos, ih]
        | error ec =>
            cases hblock : wouldBlock ec.value with
            | true =>
                have hgo : (Outcome.error ec).stops = false := by simp [Outcome.stops, hblock]
                rw [verdict_cons hgo, delivered_cons hgo]
                simp [Outcome.ioSome_error, Outcome.amount, ec.ne_zero, hblock, ih]
            | false =>
                have hstop : (Outcome.error ec).stops := by simp [Outcome.stops, hblock]
                rw [verdict_of_stops hn hstop, delivered_of_stops hstop]
                simp [Outcome.ioSome_error, Outcome.fault, ec.ne_zero, hblock]

/-- The blocking loop on a socket that never says that it would block. -/
theorem BlockingIo.ioExact_eq (os : List Outcome) (ptr n : ℕ) (s : State) :
    BlockingIo.ioExact iot stream (os.filter fun o => !o.blocks) ptr n s =
      NonBlockingIo.ioExact iot stream os ptr n s := by
  induction os generalizing ptr n s with
  | nil => rfl
  | cons o os ih =>
      by_cases hn : n = 0
      · subst hn
        rw [BlockingIo.ioExact.eq_def, NonBlockingIo.ioExact]
        simp
      cases o with
      | count m =>
          rw [List.filter_cons_of_pos (by rfl), BlockingIo.ioExact, NonBlockingIo.ioExact]
          simp only [Outcome.ioSome_count, ih]
          simp
      | error ec =>
          cases hblock : wouldBlock ec.value with
          | true =>
              rw [List.filter_cons_of_neg (by simp [Outcome.blocks, hblock]), ih]
              conv_rhs => rw [NonBlockingIo.ioExact]
              simp [Outcome.ioSome_error, ec.ne_zero, hblock, hn]
          | false =>
              rw [List.filter_cons_of_pos (by simp [Outcome.blocks, hblock]), BlockingIo.ioExact,
                NonBlockingIo.ioExact]
              simp [Outcome.ioSome_error, ec.ne_zero, hblock, hn]

/-- The `read` with an error code says by the code how the other one ends. -/
theorem BlockingIo.readEc_eq (os : List Outcome) (ptr n : ℕ) (s : State) :
    BlockingIo.readEc stream os ptr n 0 s =
      ((BlockingIo.ioExact .read stream os ptr n s).1.map IoEnd.ec,
        (BlockingIo.ioExact .read stream os ptr n s).2) := by
  induction os generalizing ptr n s with
  | nil =>
      rw [BlockingIo.readEc, BlockingIo.ioExact]
      split <;> rfl
  | cons o os ih =>
      rw [BlockingIo.readEc, BlockingIo.ioExact]
      split
      · rfl
      · cases o with
        | count m =>
            by_cases hm : min m n = 0
            · simp [Outcome.ioSome_count, hm, IoEnd.ec]
            · simp [Outcome.ioSome_count, hm, ih]
        | error ec => simp [Outcome.ioSome_error, ec.ne_zero, IoEnd.ec]

/-- A task that is polled until it is finished goes through the same states as the loop. -/
theorem IoExactTask.finish_eq (os : List Outcome) (t : IoExactTask) (s : State) :
    IoExactTask.finish iot stream os t s = NonBlockingIo.ioExact iot stream os t.ptr t.n s := by
  induction os generalizing t s with
  | nil =>
      rw [IoExactTask.finish, NonBlockingIo.ioExact]
      simp [finished]
  | cons o os ih =>
      rw [IoExactTask.finish, NonBlockingIo.ioExact]
      by_cases hn : t.n = 0
      · simp [finished, hn]
      cases o with
      | count m =>
          by_cases hm : min m t.n = 0
          · simp [finished, poll, hn, Outcome.ioSome_count, hm]
          · simp [finished, poll, hn, Outcome.ioSome_count, hm, ih]
      | error ec =>
          cases hblock : wouldBlock ec.value with
          | true => simp [finished, poll, hn, Outcome.ioSome_error, ec.ne_zero, hblock, ih]
          | false => simp [finished, poll, hn, Outcome.ioSome_error, ec.ne_zero, hblock]

theorem Outcome.ec_fault_ne_zero {o : Outcome} (h : o.stops) : o.fault.ec ≠ 0 := by
  cases o with
  | count m => exact (by decide : (1 : Int32) ≠ 0)
  | error ec => exact ec.ne_zero

/-- Failure is never taken for success. -/
theorem verdict_success {n : ℕ} {os : List Outcome} {e : IoEnd} (h : e ∈ verdict n os) :
    (e = .returned ↔ n ≤ delivered os) ∧ (e.ec = 0 ↔ n ≤ delivered os) := by
  by_cases hle : n ≤ delivered os
  · obtain rfl : IoEnd.returned = e := by simpa [verdict, hle] using h
    simp [hle, IoEnd.ec]
  · obtain ⟨o, ho, rfl⟩ : ∃ o, os.find? Outcome.stops = some o ∧ o.fault = e := by
      simpa [verdict, hle] using h
    have hec := Outcome.ec_fault_ne_zero (List.find?_some ho)
    have hne : o.fault ≠ .returned := by cases o <;> simp [Outcome.fault]
    simp [hle, hec, hne]

/-- **Exact reads and writes do not depend on the pieces.** All four loops move the same bytes, as
many as there are before the first zero count or error and not more than `n`. They succeed when
these are `n`, and otherwise fail with the first zero count or error. -/
theorem exact_io_agrees (iot : IoType) (stream : ℕ → UInt8) (os : List Outcome) (ptr n : ℕ)
    (s : State) :
    (∃ s', Moved iot stream ptr (min n (delivered os)) s s' ∧
      BlockingIo.ioExact iot stream (os.filter fun o => !o.blocks) ptr n s = (verdict n os, s') ∧
      (iot = .read → BlockingIo.readEc stream (os.filter fun o => !o.blocks) ptr n 0 s =
        ((verdict n os).map IoEnd.ec, s')) ∧
      NonBlockingIo.ioExact iot stream os ptr n s = (verdict n os, s') ∧
      IoExactTask.finish iot stream os ⟨ptr, n⟩ s = (verdict n os, s')) ∧
    ∀ e ∈ verdict n os, (e = .returned ↔ n ≤ delivered os) ∧ (e.ec = 0 ↔ n ≤ delivered os) := by
  have hnon : NonBlockingIo.ioExact iot stream os ptr n s =
      (verdict n os, move iot stream ptr (min n (delivered os)) s) := NonBlockingIo.ioExact_eq ..
  refine ⟨⟨_, moved_move iot stream ptr _ s, ?_, ?_, hnon, ?_⟩, fun _ => verdict_success⟩
  · rw [BlockingIo.ioExact_eq, hnon]
  · rintro rfl
    rw [BlockingIo.readEc_eq, BlockingIo.ioExact_eq, hnon]
  · rw [IoExactTask.finish_eq, hnon]

example (s : State) : (IoExactTask.finish .read (fun _ => 7)
    [.count 1, .error ⟨11, by decide⟩, .count 5] ⟨0, 3⟩ s).1 = some .returned := rfl

end Agree

/-! ## A socket that does not fail -/

/-- What the calls of a socket do: they give bytes as long as there are any. -/
def Socket.outcomes (s : Socket) : List Outcome :=
  if _h : s.bytes = [] then [.count 0]
  else
    let m := min (max 1 (s.frag s.calls)) s.bytes.length
    .count m :: outcomes { s with bytes := s.bytes.drop m, calls := s.calls + 1 }
termination_by s.bytes.length
decreasing_by
  have hpos := List.length_pos_of_ne_nil _h
  simp only [List.length_drop]
  omega

/-- `read_some` is the first call. -/
theorem Socket.ioSome_head {s : Socket} {n : ℕ} (hn : n ≠ 0) :
    ∃ o os, s.outcomes = o :: os ∧ o.ioSome n = ((s.readSome n).1.length, 0) := by
  rw [outcomes]
  split
  · next hnil => exact ⟨_, _, rfl, by simp [Outcome.ioSome, readSome, hnil]⟩
  · refine ⟨_, _, rfl, ?_⟩
    simp only [Outcome.ioSome, readSome, List.length_take, Prod.mk.injEq, and_true]
    omega

theorem Socket.delivered_outcomes (s : Socket) : delivered s.outcomes = s.bytes.length := by
  fun_induction outcomes s with
  | case1 s hnil => simp [delivered, Outcome.stops, hnil]
  | case2 s hne m ih =>
      have hpos := List.length_pos_of_ne_nil hne
      have hgo : (Outcome.count m).stops = false := Outcome.stops_count (by omega)
      rw [delivered_cons hgo, ih]
      simp only [Outcome.amount, List.length_drop]
      omega

theorem Socket.find_outcomes (s : Socket) : s.outcomes.find? Outcome.stops = some (.count 0) := by
  fun_induction outcomes s with
  | case1 => simp [Outcome.stops]
  | case2 s hne m ih =>
      have hpos := List.length_pos_of_ne_nil hne
      have hgo : (Outcome.count m).stops = false := Outcome.stops_count (by omega)
      rw [List.find?_cons, hgo]
      exact ih

theorem Socket.filter_outcomes (s : Socket) :
    (s.outcomes.filter fun o => !o.blocks) = s.outcomes := by
  fun_induction outcomes s with
  | case1 => rfl
  | case2 s hne m ih => rw [List.filter_cons_of_pos (by rfl), ih]

/-- The reads of the message layer are these. -/
theorem Cxx20.readLoop_ioExact {stream : ℕ → UInt8} {s : Socket} {t : State}
    (hstream : Memory.read t.passed.length s.bytes.length stream = s.bytes) (ptr n : ℕ) :
    (readLoop s n).1 = none ∧
        (BlockingIo.ioExact .read stream s.outcomes ptr n t).1 = some .unexpectedEof ∨
      ∃ data, (readLoop s n).1 = some data ∧
        BlockingIo.ioExact .read stream s.outcomes ptr n t =
          (some .returned, ⟨Memory.write ptr data t.mem, t.passed ++ data,
            t.touched ++ List.range' ptr n⟩) := by
  rw [← s.filter_outcomes, BlockingIo.ioExact_eq, NonBlockingIo.ioExact_eq, verdict,
    s.delivered_outcomes]
  by_cases hle : n ≤ s.bytes.length
  · refine .inr ⟨_, (readLoop_of_le hle).1, ?_⟩
    have hle' : 0 + n ≤ s.bytes.length := by omega
    have htake := Memory.take_drop_read t.passed.length stream hle'
    rw [hstream, List.drop_zero, Nat.add_zero] at htake
    rw [if_pos hle, min_eq_left hle, move, htake]
  · refine .inl ⟨readLoop_of_lt (Nat.lt_of_not_le hle), ?_⟩
    rw [if_neg hle, s.find_outcomes]
    rfl

end StdmlCollective

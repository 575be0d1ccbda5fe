import StdmlCollective.Ioutil

/-!
# `TcpSocket::recv_all`

The loop of the older transport, on a socket whose calls can fail. After every call that brings
nothing it looks at `errno`, and calls again when this is 35. At the end of the stream `::recv`
returns 0 and leaves `errno` alone, so that what an earlier call has left there decides whether the
loop comes to an end.
-/

namespace StdmlCollective

open Transfer

/-- What a call of `::recv` does before the peer closes: it brings `m + 1` bytes, and not more than
it is asked for, or it returns -1 and sets `errno`. -/
inductive RecvOutcome where
  | got (m : ℕ)
  | failed (errno : ℕ)
deriving DecidableEq, Repr

/-- The bytes that a call brings. -/
def RecvOutcome.amount : RecvOutcome → ℕ
  | .got m => m + 1
  | .failed _ => 0

namespace TcpSocket

/-- The calling thread: its `errno`, what the calls of `::recv` are going to do before the peer
closes, and memory. -/
structure Receiver where
  errno : ℕ
  outcomes : List RecvOutcome
  io : State

/-- `::recv(fd_, data, size, 0)`. -/
def sysRecv (stream : ℕ → UInt8) (data : Addr) (size : ℕ) (x : Receiver) : Int32 × Receiver :=
  match x.outcomes with
  | [] => (0, x)
  | .got m :: os =>
      let k := min (m + 1) size
      (Int32.ofNat k, { x with outcomes := os, io := move .read stream data k x.io })
  | .failed e :: os => (-1, { x with errno := e, outcomes := os })

/-- `TcpSocket::recv_all` from one of its rounds on, for at most `fuel` rounds; `stopped k` is what
`stopped_ && stopped_->load()` is in the round `k` from there. -/
def recvAll (stream : ℕ → UInt8) : ℕ → (ℕ → Bool) → Addr → ℕ → Int32 → Receiver →
    Option (Int32 × Receiver)
  | 0, _, _, _, _, _ => none
  | fuel + 1, stopped, data, size, got, x =>
      if size = 0 then some (got, x)
      else if stopped 0 then some (got, x)
      else
        let (n, x) := sysRecv stream data size x
        if n ≤ 0 then
          if x.errno = 35 then recvAll stream fuel (fun k => stopped (k + 1)) data size got x
          else some (got, x)
        else
          recvAll stream fuel (fun k => stopped (k + 1)) (data + n.toInt.toNat)
            (size - n.toInt.toNat) (got + n) x

/-- `recv_all` has reason to end: enough bytes come, or a call fails with another `errno` than 35,
or none fails and `errno` is not 35 from the beginning. -/
def Ends (size : ℕ) (x : Receiver) : Prop :=
  size ≤ (x.outcomes.map RecvOutcome.amount).sum ∨
    (∃ e, .failed e ∈ x.outcomes ∧ e ≠ 35) ∨
    (∀ e, .failed e ∉ x.outcomes) ∧ x.errno ≠ 35

/-! ## One round -/

section Round

variable {stream : ℕ → UInt8} {stopped : ℕ → Bool} {data size : ℕ} {got : Int32} {x : Receiver}

theorem ends_zero (x : Receiver) : Ends 0 x := .inl (Nat.zero_le _)

theorem ends_closed {errno : ℕ} {io : State} (hsize : size ≠ 0) :
    Ends size ⟨errno, [], io⟩ ↔ errno ≠ 35 := by
  simp [Ends, hsize]

theorem ends_got {errno m : ℕ} {os : List RecvOutcome} {io io' : State} :
    Ends size ⟨errno, .got m :: os, io⟩ ↔ Ends (size - min (m + 1) size) ⟨errno, os, io'⟩ := by
  have hle : size ≤ m + 1 + (os.map RecvOutcome.amount).sum ↔
      size - min (m + 1) size ≤ (os.map RecvOutcome.amount).sum := by omega
  simp [Ends, RecvOutcome.amount, hle]

theorem ends_failed {errno e : ℕ} {os : List RecvOutcome} {io : State} (he : e ≠ 35) :
    Ends size ⟨errno, .failed e :: os, io⟩ := .inr (.inl ⟨e, List.mem_cons_self, he⟩)

/-- A failure with 35 takes the place of what `errno` was. -/
theorem ends_again {errno : ℕ} {os : List RecvOutcome} {io : State} :
    Ends size ⟨errno, .failed 35 :: os, io⟩ ↔ Ends size ⟨35, os, io⟩ := by
  have hex : (∃ e, (e = 35 ∨ RecvOutcome.failed e ∈ os) ∧ e ≠ 35) ↔
      ∃ e, RecvOutcome.failed e ∈ os ∧ e ≠ 35 :=
    exists_congr fun e => ⟨fun h => ⟨h.1.resolve_left h.2, h.2⟩, fun h => ⟨.inr h.1, h.2⟩⟩
  have hall : ¬∀ e, ¬e = 35 ∧ RecvOutcome.failed e ∉ os := fun h => (h 35).1 rfl
  simp [Ends, RecvOutcome.amount, hex, hall]

/-- **What one round does.** It returns, because of the stop flag or with good reason. Or there is
another round, with `k` bytes less to come, and as much reason to end as before. -/
theorem recvAll_succ (hsize : size < 2 ^ 31) :
    (∃ y : Receiver, (∀ fuel, recvAll stream (fuel + 1) stopped data size got x = some (got, y)) ∧
      y.io = x.io ∧ (stopped 0 = true ∨ Ends size x)) ∨
    ∃ k y, k ≤ size ∧
      (∀ fuel, recvAll stream (fuel + 1) stopped data size got x =
        recvAll stream fuel (fun i => stopped (i + 1)) (data + k) (size - k) (got + Int32.ofNat k)
          y) ∧
      y.io = move .read stream data k x.io ∧ (Ends size x ↔ Ends (size - k) y) ∧
      (y.outcomes.length < x.outcomes.length ∨ ¬Ends size x) := by
  by_cases hzero : size = 0
  · subst hzero
    exact .inl ⟨x, fun fuel => by simp [recvAll], rfl, .inr (ends_zero x)⟩
  by_cases hstop : stopped 0 = true
  · exact .inl ⟨x, fun fuel => by simp [recvAll, hzero, hstop], rfl, .inl hstop⟩
  obtain ⟨errno, os, io⟩ := x
  cases os with
  | nil =>
      by_cases he : errno = 35
      · -- the peer has closed, and nothing changes any more
        subst he
        refine .inr ⟨0, ⟨35, [], io⟩, Nat.zero_le _, fun fuel => ?_, by simp, by simp, .inr ?_⟩
        · simp [recvAll, sysRecv, hzero, hstop]
        · simp [ends_closed hzero]
      · refine .inl ⟨⟨errno, [], io⟩, fun fuel => ?_, rfl, .inr ((ends_closed hzero).mpr he)⟩
        simp [recvAll, sysRecv, hzero, hstop, he]
  | cons o os =>
      cases o with
      | got m =>
          obtain ⟨hpos, hnat⟩ := Old.int32_pos (m := min (m + 1) size) (by omega) (by omega)
          refine .inr ⟨min (m + 1) size, ⟨errno, os, move .read stream data _ io⟩, by omega,
            fun fuel => ?_, rfl, ends_got, .inl (by simp)⟩
          simp only [recvAll, sysRecv, hzero, hstop, hpos, hnat, if_false, Bool.false_eq_true]
      | failed e =>
          have hneg : (-1 : Int32) ≤ 0 := by decide
          by_cases he : e = 35
          · subst he
            refine .inr ⟨0, ⟨35, os, io⟩, Nat.zero_le _, fun fuel => ?_, by simp, ends_again,
              .inl (by simp)⟩
            simp [recvAll, sysRecv, hzero, hstop, hneg]
          · refine .inl ⟨⟨e, os, io⟩, fun fuel => ?_, rfl, .inr (ends_failed he)⟩
            simp [recvAll, sysRecv, hzero, hstop, hneg, he]

end Round

/-! ## All rounds -/

section Run

variable {stream : ℕ → UInt8} {stopped : ℕ → Bool} {data size : ℕ} {got : Int32}
  {x y : Receiver}

/-- When it returns, it has counted the bytes that it has stored. -/
theorem recvAll_stores (hsize : size < 2 ^ 31) {fuel : ℕ} {n : Int32}
    (h : recvAll stream fuel stopped data size got x = some (n, y)) :
    ∃ k ≤ size, n = got + Int32.ofNat k ∧ y.io = move .read stream data k x.io := by
  induction fuel generalizing stopped data size got x with
  | zero => cases h
  | succ fuel ih =>
      rcases @recvAll_succ stream stopped data size got x hsize with
        ⟨y', hrec, hio, -⟩ | ⟨k, x', hk, hrec, hio, -⟩
      · rw [hrec] at h
        obtain ⟨rfl, rfl⟩ : got = n ∧ y' = y := by simpa using h
        exact ⟨0, Nat.zero_le _, by simp, by simp [hio]⟩
      · rw [hrec] at h
        obtain ⟨l, hl, hn, hy⟩ := ih (by omega) h
        refine ⟨k + l, by omega, ?_, ?_⟩
        · rw [hn, Int32.ofNat_add, Int32.add_assoc]
        · rw [hy, hio, move_move]

/-- It returns when it has reason to. -/
theorem Ends.exists_fuel (hsize : size < 2 ^ 31) (h : Ends size x) :
    ∃ fuel, (recvAll stream fuel stopped data size got x).isSome := by
  induction hlen : x.outcomes.length using Nat.strong_induction_on
    generalizing stopped data size got x with
  | _ len ih =>
      rcases @recvAll_succ stream stopped data size got x hsize with
        ⟨y, hrec, -⟩ | ⟨k, x', -, hrec, -, hends, hprogress⟩
      · exact ⟨1, by rw [hrec 0]; rfl⟩
      · have hlt : x'.outcomes.length < len := by
          rw [← hlen]
          exact hprogress.resolve_right (not_not_intro h)
        obtain ⟨fuel, hfuel⟩ := ih _ hlt (by omega) (hends.mp h) rfl
        exact ⟨fuel + 1, by rwa [hrec fuel]⟩

/-- It returns when it is stopped. -/
theorem exists_fuel_of_stopped (hsize : size < 2 ^ 31) {i : ℕ} (h : stopped i = true) :
    ∃ fuel, (recvAll stream fuel stopped data size got x).isSome := by
  induction i generalizing stopped data size got x with
  | zero =>
      refine ⟨1, ?_⟩
      by_cases hzero : size = 0 <;> simp [recvAll, hzero, h]
  | succ i ih =>
      rcases @recvAll_succ stream stopped data size got x hsize with
        ⟨y, hrec, -⟩ | ⟨k, x', -, hrec, -⟩
      · exact ⟨1, by rw [hrec 0]; rfl⟩
      · obtain ⟨fuel, hfuel⟩ :=
          @ih (fun i => stopped (i + 1)) (data + k) (size - k) (got + Int32.ofNat k) x' (by omega) h
        exact ⟨fuel + 1, by rwa [hrec fuel]⟩

/-- Otherwise it does not. -/
theorem recvAll_spins (hsize : size < 2 ^ 31) (hends : ¬Ends size x)
    (hstop : ∀ i, stopped i = false) (fuel : ℕ) :
    recvAll stream fuel stopped data size got x = none := by
  induction fuel generalizing stopped data size got x with
  | zero => rfl
  | succ fuel ih =>
      rcases @recvAll_succ stream stopped data size got x hsize with
        ⟨y, -, -, h | h⟩ | ⟨k, x', -, hrec, -, hiff, -⟩
      · rw [hstop 0] at h
        cases h
      · exact absurd h hends
      · rw [hrec fuel]
        exact ih (by omega) (fun h => hends (hiff.mpr h)) fun i => hstop (i + 1)

end Run

/-- `recv_all(data, size)` returns the number of bytes that it has received, at most `size`, and has
stored them in order. -/
def Returns (stream : ℕ → UInt8) (stopped : ℕ → Bool) (data size : ℕ) (x : Receiver) : Prop :=
  ∃ fuel n y, recvAll stream fuel stopped data size 0 x = some (n, y) ∧
    ∃ k ≤ size, n.toInt = k ∧ Moved .read stream data k x.io y.io

theorem returns_of_fuel {stream : ℕ → UInt8} {stopped : ℕ → Bool} {data size : ℕ} {x : Receiver}
    (hsize : size < 2 ^ 31) (h : ∃ fuel, (recvAll stream fuel stopped data size 0 x).isSome) :
    Returns stream stopped data size x := by
  obtain ⟨fuel, hfuel⟩ := h
  obtain ⟨⟨n, y⟩, hrec⟩ := Option.isSome_iff_exists.mp hfuel
  obtain ⟨k, hk, hn, hio⟩ := recvAll_stores hsize hrec
  refine ⟨fuel, n, y, hrec, k, hk, ?_, hio ▸ moved_move ..⟩
  rw [hn, Int32.zero_add]
  exact Int32.toInt_ofNat_of_lt (by omega)

theorem not_returns {stream : ℕ → UInt8} {stopped : ℕ → Bool} {data size : ℕ} {x : Receiver}
    (hsize : size < 2 ^ 31) (hends : ¬Ends size x) (hstop : ∀ i, stopped i = false) :
    ¬Returns stream stopped data size x := by
  rintro ⟨fuel, n, y, hrec, -⟩
  rw [recvAll_spins hsize hends hstop] at hrec
  cases hrec

/-- **When `recv_all` returns.** When it has reason to, or when it is stopped. At the end of the
stream, it has none if `errno` is 35. -/
theorem returns_iff (stream : ℕ → UInt8) (stopped : ℕ → Bool) (data : ℕ) {size : ℕ}
    (hsize : size < 2 ^ 31) (x : Receiver) :
    Returns stream stopped data size x ↔ Ends size x ∨ ∃ i, stopped i = true := by
  constructor
  · intro h
    by_contra hnot
    push Not at hnot
    exact not_returns hsize hnot.1 (fun i => Bool.eq_false_iff.mpr (hnot.2 i)) h
  · rintro (h | ⟨i, hi⟩)
    · exact returns_of_fuel hsize (h.exists_fuel hsize)
    · exact returns_of_fuel hsize (exists_fuel_of_stopped hsize hi)

/-- One byte of two, and then the end of the stream. -/
theorem returns_iff_short :
    Returns (fun _ => 7) (fun _ => false) 0 2 ⟨0, [.got 0], ⟨fun _ => 0, [], []⟩⟩ :=
  (returns_iff _ _ 0 (by decide) _).mpr (.inl (.inr (.inr ⟨by simp, by decide⟩)))

/-- One byte of two, a call that is to be made again, and then the end of the stream. -/
theorem not_returns_stale :
    ¬Returns (fun _ => 7) (fun _ => false) 0 2
      ⟨0, [.got 0, .failed 35], ⟨fun _ => 0, [], []⟩⟩ :=
  not_returns (by decide) (by simp [Ends, RecvOutcome.amount]) fun _ => rfl

/-! ## A socket that does not fail -/

/-- The call of `::recv` that gives as many bytes as one of `read_some`. -/
def recvOutcome : Outcome → Option RecvOutcome
  | .count (m + 1) => some (.got m)
  | _ => none

/-- There is reason to end when there are enough bytes, and otherwise `errno` decides. -/
theorem ends_outcomes (s : Socket) (errno size : ℕ) (io : State) :
    Ends size ⟨errno, s.outcomes.filterMap recvOutcome, io⟩ ↔
      size ≤ s.bytes.length ∨ errno ≠ 35 := by
  have hfailed : ∀ e, RecvOutcome.failed e ∉ s.outcomes.filterMap recvOutcome := by
    intro e hmem
    obtain ⟨o, -, ho⟩ := List.mem_filterMap.mp hmem
    unfold recvOutcome at ho
    split at ho <;> simp at ho
  have hsum : ((s.outcomes.filterMap recvOutcome).map RecvOutcome.amount).sum =
      s.bytes.length := by
    clear hfailed
    fun_induction Socket.outcomes s with
    | case1 s hnil =>
        rw [hnil]
        rfl
    | case2 s hne m ih =>
        have hpos := List.length_pos_of_ne_nil hne
        obtain ⟨k, hk⟩ : ∃ k, m = k + 1 := ⟨m - 1, by omega⟩
        rw [List.filterMap_cons, hk]
        simp only [recvOutcome, List.map_cons, List.sum_cons, RecvOutcome.amount]
        rw [← hk, ih, List.length_drop]
        omega
  simp [Ends, hfailed, hsum]

/-- The loop of the message layer comes to no end when this one does not. -/
theorem recvAll_eq_spins_iff (stream : ℕ → UInt8) (errno data : ℕ) {size : ℕ}
    (hsize : size < 2 ^ 31) (s : Socket) (io : State) :
    Old.recvAll errno s size 0 = .error .spins ↔
      ¬Returns stream (fun _ => false) data size
        ⟨errno, s.outcomes.filterMap recvOutcome, io⟩ := by
  have hends := ends_outcomes s errno size io
  by_cases hle : size ≤ s.bytes.length
  · obtain ⟨s', hrec, -⟩ := Old.recvAll_of_le errno (.inl hsize) hle 0
    have hreturns : Returns stream (fun _ => false) data size _ :=
      returns_of_fuel hsize ((hends.mpr (.inl hle)).exists_fuel hsize)
    simp [hrec, hreturns]
  · rcases Old.recvAll_of_lt errno (.inl hsize) (Nat.lt_of_not_le hle) 0 with
      ⟨⟨bytes, s', hrec⟩, herr⟩ | ⟨hrec, herr⟩
    · have hreturns : Returns stream (fun _ => false) data size _ :=
        returns_of_fuel hsize ((hends.mpr (.inr herr)).exists_fuel hsize)
      simp [hrec, hreturns]
    · have hnot : ¬Ends size _ := fun h => (hends.mp h).elim hle (· herr)
      simp [hrec, not_returns hsize hnot fun _ => rfl]

end TcpSocket

end StdmlCollective

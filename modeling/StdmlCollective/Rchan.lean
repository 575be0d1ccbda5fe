import StdmlCollective.Lib.Framing
import StdmlCollective.Lib.LittleEndian
import StdmlCollective.Network

/-!
# The byte stream of a connection

`connection_impl::send` writes a message as four fields and its data, under the lock of the
connection; `message_reader_impl` and `handle_to_end` read them back. What a call of the transport
reads or writes is up to the transport, and the stream can end anywhere. There are two
implementations, `net/c++20` over `read_some` and `write_some` and `net/old` over `recv` and
`send`.

A socket is blocking. `send` of `net/old` writes all it is given, or throws. A server of `net/old`
that is stopped reads no further, so that its stream ends where it stands.
-/

namespace StdmlCollective

open Framing LittleEndian

/-! ## Reading -/

/-- The receiving end: the bytes that come before the end of the stream, and how many of them the
transport gives at most in one call. -/
structure Socket where
  bytes : Bytes
  frag : ℕ → ℕ
  calls : ℕ

/-- `read_some` and `recv`: at least one byte and at most `n`, or none at the end of the stream. -/
def Socket.readSome (s : Socket) (n : ℕ) : Bytes × Socket :=
  let m := max 1 (min (s.frag s.calls) n)
  (s.bytes.take m, { s with bytes := s.bytes.drop m, calls := s.calls + 1 })

/-- How reading fails: an exception, or a loop without an end. -/
inductive Fault where
  | throws
  | spins
deriving DecidableEq, Repr

/-- Code that reads from a socket. -/
abbrev Reading (α : Type) := StateT Socket (Except Fault) α

@[simp] theorem Reading.pure_run {α : Type} (x : α) (s : Socket) :
    (pure x : Reading α) s = .ok (x, s) := rfl

/-- The two ways to read `n` bytes: throw at the end of the stream, or return an error code. -/
structure Transport where
  read : ℕ → Reading Bytes
  readEc : ℕ → Reading (Option Bytes)

theorem Socket.length_readSome_lt {s : Socket} {n : ℕ} (h : (s.readSome n).1 ≠ []) :
    (s.readSome n).2.bytes.length < s.bytes.length := by
  have hbytes : s.bytes ≠ [] := by
    intro hnil
    apply h
    simp [readSome, hnil]
  have hpos := List.length_pos_of_ne_nil hbytes
  simp only [readSome, List.length_drop]
  omega

namespace Cxx20

/-- The loop of `io_exact<io_read>` and of `read(.., ec)`: what has been read, and whether all. -/
def readLoop (s : Socket) (n : ℕ) : Option Bytes × Socket :=
  if n = 0 then (some [], s)
  else
    let r := s.readSome n
    if _h : r.1 = [] then (none, r.2)
    else
      let q := readLoop r.2 (n - r.1.length)
      (q.1.map (r.1 ++ ·), q.2)
termination_by s.bytes.length
decreasing_by exact Socket.length_readSome_lt _h

/-- `ioutil::read(socket, ptr, n)`. -/
def read (n : ℕ) : Reading Bytes := fun s =>
  match readLoop s n with
  | (some data, s) => .ok (data, s)
  | (none, _) => .error .throws

/-- `ioutil::read(socket, ptr, n, ec)`. -/
def readEc (n : ℕ) : Reading (Option Bytes) := fun s => .ok (readLoop s n)

/-- `basic_ioutil<tcp_socket>`. -/
def transport : Transport := ⟨read, readEc⟩

end Cxx20

namespace Old

/-- `TcpSocket::recv_all`: the number of bytes that have been read, as an `int`, and the bytes.
When there is nothing to read and `errno` is 35 it does not come to an end. -/
def recvAll (errno : ℕ) (s : Socket) (size : ℕ) (got : Int32) :
    Except Fault ((Int32 × Bytes) × Socket) :=
  if size = 0 then .ok ((got, []), s)
  else
    let r := s.readSome size
    let n := Int32.ofNat r.1.length
    if n ≤ 0 then
      if errno = 35 then
        if _h : r.1 = [] then .error .spins else recvAll errno r.2 size got
      else .ok ((got, []), r.2)
    else if _h : r.1 = [] then .ok ((got, []), r.2) -- not reached, `n` is positive
    else do
      let q ← recvAll errno r.2 (size - n.toInt.toNat) (got + n)
      return ((q.1.1, r.1.take n.toInt.toNat ++ q.1.2), q.2)
termination_by s.bytes.length
decreasing_by all_goals exact Socket.length_readSome_lt _h

/-- `TcpSocket::recv(void *, size_t)`. -/
def recv (errno size : ℕ) : Reading Bytes := fun s => do
  let q ← recvAll errno s size 0
  if q.1.1 = Int32.ofNat size then return (q.1.2, q.2) else throw .throws

/-- `TcpSocket::recv(void *, size_t, int &)`. -/
def recvEc (errno size : ℕ) : Reading (Option Bytes) := fun s => do
  let q ← recvAll errno s size 0
  return (if q.1.1 = Int32.ofNat size then some q.1.2 else none, q.2)

/-- `TcpSocket` in a thread with this `errno`. -/
def transport (errno : ℕ) : Transport := ⟨recv errno, recvEc errno⟩

end Old

/-- `struct received_header`. -/
structure ReceivedHeader where
  nameLen : ℕ
  name : Bytes
  flags : UInt32
  len : ℕ

/-- A message that the handler has put into a box: into the slot box, or else into the mailbox. -/
structure Delivery where
  name : Bytes
  flags : UInt32
  len : ℕ
  data : Bytes
  slot : Bool
deriving DecidableEq

section Reader

variable (net : Transport)

/-- `message_reader_impl::read_header`. -/
def readHeader : Reading (Option ReceivedHeader) := do
  match ← net.readEc 4 with
  | none => return none
  | some b =>
      let nameLen := leNat b
      let buf ← net.read ((nameLen + 8) % 2 ^ 32)
      let flags := leNat ((buf.drop nameLen).take 4)
      let len := leNat ((buf.drop (nameLen + 4)).take 4)
      return some ⟨nameLen, buf.take nameLen, UInt32.ofNat flags, len⟩

/-- `msg_handler_impl<conn_collective>::operator()` with `read_body`: a receive has been posted for
every message that waits for one, and its box has room. `BoxRun` has the boxes. -/
def handleMessage (mh : ReceivedHeader) : Reading Delivery := do
  let data ← net.read mh.len
  return ⟨mh.name, mh.flags, mh.len, data, mh.flags &&& waitRecvBuf != 0⟩

/-- `conn_handler::handle_next`; what it delivers when it returns `true`. -/
def handleNext : Reading (Option Delivery) := do
  match ← readHeader net with
  | none => return none
  | some mh => return some (← handleMessage net mh)

/-- How `handle_to_end` ends: it returns a number, it fails, or it has not ended yet. -/
inductive HandlerEnd where
  | returned (i : ℕ)
  | failed (f : Fault)
  | running
deriving DecidableEq, Repr

/-- `conn_handler::handle_to_end`, for at most `fuel` rounds, from round `i` on. -/
def handleToEnd : ℕ → ℕ → Socket → List Delivery × HandlerEnd
  | 0, _, _ => ([], .running)
  | fuel + 1, i, s =>
      match handleNext net s with
      | .error f => ([], .failed f)
      | .ok (none, _) => ([], .returned i)
      | .ok (some d, s) =>
          let q := handleToEnd fuel (i + 1) s
          (d :: q.1, q.2)

end Reader

/-! ## Writing -/

/-- The arguments of `connection_impl::send`; `name` is what is in memory before the NUL that ends
the string. -/
structure Packet where
  name : Bytes
  flags : UInt32
  data : Bytes

/-- The fused header: `name_len`, `name`, `flags` and `len`. -/
def Packet.header (p : Packet) : Bytes :=
  let nameLen := (cStr p.name).length % 2 ^ 32
  leBytes 4 nameLen ++ p.name.take nameLen ++ leBytes 4 p.flags.toNat ++
    leBytes 4 (p.data.length % 2 ^ 32)

/-- The two buffers that `connection_impl::send` writes. -/
def Packet.writes (p : Packet) : List Bytes := [p.header, wireData p.data]

/-- All of it. -/
def Packet.encode (p : Packet) : Bytes := p.header ++ wireData p.data

/-- A connection and the threads that send on it: what each of them still has to send; who holds
`mu_` and what is still to be written; what has been written; and the messages in the order in
which the lock was taken for them. -/
structure Sender (ι : Type) where
  todo : ι → List Packet
  holder : Option (ι × List Bytes)
  out : Bytes
  sent : List (ι × Packet)

/-- `write_some` may write a part. -/
def writeSome (k n : ℕ) : Prop := 0 < k ∧ k ≤ n

/-- `send` of `net/old` writes all. -/
def sendAll (k n : ℕ) : Prop := k = n

/-- A step of a thread that sends; `write k n` when the transport may write `k` of `n` bytes. -/
inductive Sender.Step {ι : Type} [DecidableEq ι] (write : ℕ → ℕ → Prop) :
    Sender ι → Sender ι → Prop where
  /-- Take the lock. -/
  | lock {st : Sender ι} {i : ι} {p : Packet} {ps : List Packet} :
      st.holder = none → st.todo i = p :: ps →
      Step write st { st with
        todo := Function.update st.todo i ps, holder := some (i, p.writes),
        sent := st.sent ++ [(i, p)] }
  /-- Write some of the current buffer. -/
  | write {st : Sender ι} {i : ι} {w : Bytes} {ws : List Bytes} {k : ℕ} :
      st.holder = some (i, w :: ws) → w ≠ [] → write k w.length →
      Step write st { st with holder := some (i, w.drop k :: ws), out := st.out ++ w.take k }
  /-- The buffer is written. -/
  | next {st : Sender ι} {i : ι} {ws : List Bytes} :
      st.holder = some (i, [] :: ws) → Step write st { st with holder := some (i, ws) }
  /-- Release the lock. -/
  | unlock {st : Sender ι} {i : ι} :
      st.holder = some (i, []) → Step write st { st with holder := none }

/-- Before the first message. -/
def Sender.start {ι : Type} (todo : ι → List Packet) : Sender ι := ⟨todo, none, [], []⟩

/-- What the threads can have done. -/
abbrev Sender.Reach {ι : Type} [DecidableEq ι] (write : ℕ → ℕ → Prop) :
    Sender ι → Sender ι → Prop :=
  Relation.ReflTransGen (Sender.Step write)

/-! ## What the transports have in common -/

theorem Socket.readSome_spec (s : Socket) {n : ℕ} (h : n ≠ 0) :
    ∃ m, 1 ≤ m ∧ m ≤ n ∧ (s.readSome n).1 = s.bytes.take m ∧
      (s.readSome n).2.bytes = s.bytes.drop m := by
  refine ⟨max 1 (min (s.frag s.calls) n), ?_, ?_, rfl, rfl⟩
  · omega
  · omega

/-- Reads of fewer than `limit` bytes are exact: they return the next bytes when there are enough
of them and nothing else. The end of the stream is reported when `clean`. -/
structure Transport.Exact (net : Transport) (limit : ℕ) (clean : Prop) : Prop where
  read_le : ∀ {s : Socket} {n : ℕ}, n < limit → n ≤ s.bytes.length →
    ∃ s', net.read n s = .ok (s.bytes.take n, s') ∧ s'.bytes = s.bytes.drop n
  read_lt : ∀ {s : Socket} {n : ℕ}, n < limit → s.bytes.length < n →
    ∃ f, net.read n s = .error f
  readEc_le : ∀ {s : Socket} {n : ℕ}, n < limit → n ≤ s.bytes.length →
    ∃ s', net.readEc n s = .ok (some (s.bytes.take n), s') ∧ s'.bytes = s.bytes.drop n
  readEc_lt : ∀ {s : Socket} {n : ℕ}, n < limit → s.bytes.length < n →
    (∃ s', net.readEc n s = .ok (none, s')) ∨ ¬clean ∧ ∃ f, net.readEc n s = .error f

namespace Cxx20

theorem readLoop_of_le {s : Socket} {n : ℕ} (h : n ≤ s.bytes.length) :
    (readLoop s n).1 = some (s.bytes.take n) ∧ (readLoop s n).2.bytes = s.bytes.drop n := by
  induction s, n using readLoop.induct with
  | case1 s => simp [readLoop]
  | case2 s n hn r hnil =>
      obtain ⟨m, hm, -, htake, -⟩ := s.readSome_spec hn
      rw [show r = s.readSome n from rfl, htake] at hnil
      have hlen := congrArg List.length hnil
      simp only [List.length_take, List.length_nil] at hlen
      omega
  | case3 s n hn r hne ih =>
      obtain ⟨m, hm, hmn, htake, hdrop⟩ := s.readSome_spec hn
      rw [readLoop, if_neg hn, dif_neg hne]
      change r.1 = _ at htake
      change r.2.bytes = _ at hdrop
      have hlen : r.1.length = m := by
        rw [htake, List.length_take]
        omega
      rw [hlen, hdrop] at ih
      obtain ⟨ih₁, ih₂⟩ := ih (by rw [List.length_drop]; omega)
      constructor
      · simp only [show s.readSome n = r from rfl, hlen, ih₁, Option.map_some]
        rw [htake, ← List.take_add, Nat.add_sub_cancel' hmn]
      · simp only [show s.readSome n = r from rfl, hlen, ih₂, List.drop_drop]
        rw [Nat.add_sub_cancel' hmn]

theorem readLoop_of_lt {s : Socket} {n : ℕ} (h : s.bytes.length < n) :
    (readLoop s n).1 = none := by
  induction s, n using readLoop.induct with
  | case1 s => exact absurd h (Nat.not_lt_zero _)
  | case2 s n hn r hnil => rw [readLoop, if_neg hn, dif_pos hnil]
  | case3 s n hn r hne ih =>
      obtain ⟨m, hm, hmn, htake, hdrop⟩ := s.readSome_spec hn
      rw [readLoop, if_neg hn, dif_neg hne]
      change r.1 = _ at htake
      change r.2.bytes = _ at hdrop
      have hlt : r.2.bytes.length < n - r.1.length := by
        rw [htake, hdrop, List.length_take, List.length_drop]
        omega
      simp only [show s.readSome n = r from rfl, ih hlt, Option.map_none]

theorem read_eq (n : ℕ) (s : Socket) :
    read n s = match (readLoop s n).1 with
      | some data => .ok (data, (readLoop s n).2)
      | none => .error .throws := by
  unfold read
  rcases readLoop s n with ⟨_ | data, s'⟩ <;> rfl

theorem exact (limit : ℕ) : transport.Exact limit True where
  read_le := by
    intro s n _ hle
    obtain ⟨h₁, h₂⟩ := readLoop_of_le hle
    refine ⟨(readLoop s n).2, ?_, h₂⟩
    exact (read_eq n s).trans (by rw [h₁])
  read_lt := by
    intro s n _ hlt
    exact ⟨.throws, (read_eq n s).trans (by rw [readLoop_of_lt hlt])⟩
  readEc_le := by
    intro s n _ hle
    obtain ⟨h₁, h₂⟩ := readLoop_of_le hle
    refine ⟨(readLoop s n).2, ?_, h₂⟩
    rw [← h₁]
    rfl
  readEc_lt := by
    intro s n _ hlt
    refine Or.inl ⟨(readLoop s n).2, ?_⟩
    rw [← readLoop_of_lt hlt]
    rfl

end Cxx20

namespace Old

theorem int32_pos {m : ℕ} (h : 0 < m) (hlt : m < 2 ^ 31) :
    ¬Int32.ofNat m ≤ 0 ∧ (Int32.ofNat m).toInt.toNat = m := by
  have hint : (Int32.ofNat m).toInt = m := Int32.toInt_ofNat_of_lt hlt
  refine ⟨?_, by rw [hint]; rfl⟩
  intro hle
  have hle' := Int32.le_iff_toInt_le.mp hle
  rw [hint] at hle'
  have hzero : (0 : Int32).toInt = 0 := rfl
  omega

/-- What one call of `recv` gives is counted in an `int`. -/
def Counts (s : Socket) (size : ℕ) : Prop := size < 2 ^ 31 ∨ ∀ k, s.frag k < 2 ^ 31

theorem Counts.rest {s : Socket} {size m : ℕ} (h : Counts s size) (hm : m ≤ size) :
    Counts (s.readSome size).2 m := by
  rcases h with h | h
  · exact .inl (by omega)
  · exact .inr h

theorem Counts.length_lt {s : Socket} {size : ℕ} (h : Counts s size) :
    (s.readSome size).1.length < 2 ^ 31 := by
  simp only [Socket.readSome, List.length_take]
  rcases h with h | h
  · omega
  · have hfrag := h s.calls
    omega

/-- A round of the loop of `recv_all` that reads something. -/
theorem recvAll_step (errno : ℕ) {s : Socket} {size : ℕ} (hsize : size ≠ 0) (hlt : Counts s size)
    (hbytes : s.bytes ≠ []) (got : Int32) :
    ∃ m, 1 ≤ m ∧ m ≤ size ∧ m ≤ s.bytes.length ∧ (s.readSome size).2.bytes = s.bytes.drop m ∧
      recvAll errno s size got = do
        let q ← recvAll errno (s.readSome size).2 (size - m) (got + Int32.ofNat m)
        return ((q.1.1, s.bytes.take m ++ q.1.2), q.2) := by
  obtain ⟨k, hk, hks, htake, hdrop⟩ := s.readSome_spec hsize
  have hpos := List.length_pos_of_ne_nil hbytes
  have hlen : (s.readSome size).1.length = min k s.bytes.length := by
    rw [htake, List.length_take]
  have hne : (s.readSome size).1 ≠ [] := by
    apply List.ne_nil_of_length_pos
    omega
  have hcount := hlt.length_lt
  obtain ⟨hint, hnat⟩ := int32_pos (m := min k s.bytes.length) (by omega) (by omega)
  refine ⟨min k s.bytes.length, by omega, by omega, by omega, ?_, ?_⟩
  · rw [hdrop]
    by_cases hle : k ≤ s.bytes.length
    · rw [min_eq_left hle]
    · rw [min_eq_right (by omega), List.drop_length, List.drop_eq_nil_of_le (by omega)]
  · rw [recvAll, if_neg hsize]
    dsimp only
    rw [hlen, if_neg hint, dif_neg hne, hnat, htake, List.take_take, min_right_comm, min_self]

theorem recvAll_of_le (errno : ℕ) {size : ℕ} {s : Socket} (hlt : Counts s size)
    (h : size ≤ s.bytes.length) (got : Int32) :
    ∃ s', recvAll errno s size got = .ok ((got + Int32.ofNat size, s.bytes.take size), s') ∧
      s'.bytes = s.bytes.drop size ∧ s'.frag = s.frag := by
  induction size using Nat.strong_induction_on generalizing s got with
  | _ size ih =>
      by_cases hsize : size = 0
      · subst hsize
        refine ⟨s, ?_, by simp, rfl⟩
        rw [recvAll, if_pos rfl]
        simp
      · have hbytes : s.bytes ≠ [] := by
          apply List.ne_nil_of_length_pos
          omega
        obtain ⟨m, hm, hms, -, hdrop, hstep⟩ :=
          recvAll_step errno hsize hlt hbytes got
        obtain ⟨s', hrec, hs', hfrag⟩ := ih (size - m) (by omega) (hlt.rest (Nat.sub_le size m))
          (by rw [hdrop, List.length_drop]; omega) (got + Int32.ofNat m)
        refine ⟨s', ?_, ?_, hfrag⟩
        · rw [hstep, hrec, hdrop, Int32.add_assoc, ← Int32.ofNat_add, Nat.add_sub_cancel' hms]
          change Except.ok _ = Except.ok _
          rw [← List.take_add, Nat.add_sub_cancel' hms]
        · rw [hs', hdrop, List.drop_drop, Nat.add_sub_cancel' hms]

/-- When the stream ends too early, `recv_all` returns the number of bytes that there were. -/
theorem recvAll_of_lt (errno : ℕ) {size : ℕ} {s : Socket} (hlt : Counts s size)
    (h : s.bytes.length < size) (got : Int32) :
    (∃ data s', recvAll errno s size got =
      .ok ((got + Int32.ofNat s.bytes.length, data), s')) ∧ errno ≠ 35 ∨
    recvAll errno s size got = .error .spins ∧ errno = 35 := by
  induction size using Nat.strong_induction_on generalizing s got with
  | _ size ih =>
      have hsize : size ≠ 0 := by omega
      by_cases hbytes : s.bytes = []
      · have hnil : (s.readSome size).1 = [] := by simp [Socket.readSome, hbytes]
        have hend : recvAll errno s size got =
            if errno = 35 then .error .spins else .ok ((got, []), (s.readSome size).2) := by
          rw [recvAll, if_neg hsize]
          dsimp only
          rw [hnil, if_pos (by decide)]
          simp
        rw [hend]
        by_cases herr : errno = 35
        · exact Or.inr ⟨if_pos herr, herr⟩
        · refine Or.inl ⟨⟨[], (s.readSome size).2, ?_⟩, herr⟩
          rw [if_neg herr, hbytes]
          simp
      · obtain ⟨m, hm, hms, hml, hdrop, hstep⟩ :=
          recvAll_step errno hsize hlt hbytes got
        have hlen : (s.readSome size).2.bytes.length = s.bytes.length - m := by
          rw [hdrop, List.length_drop]
        rcases ih (size - m) (by omega) (hlt.rest (Nat.sub_le size m)) (by omega)
          (got + Int32.ofNat m) with ⟨⟨data, s', hrec⟩, herr⟩ | ⟨hrec, herr⟩
        · refine Or.inl ⟨⟨s.bytes.take m ++ data, s', ?_⟩, herr⟩
          rw [hstep, hrec, hlen, Int32.add_assoc, ← Int32.ofNat_add, Nat.add_sub_cancel' hml]
          rfl
        · refine Or.inr ⟨?_, herr⟩
          rw [hstep, hrec]
          rfl

theorem ofNat_inj {a b : ℕ} (ha : a < 2 ^ 32) (hb : b < 2 ^ 32)
    (h : Int32.ofNat a = Int32.ofNat b) : a = b := by
  have hword : UInt32.ofNat a = UInt32.ofNat b := congrArg Int32.toUInt32 h
  have hnat := congrArg UInt32.toNat hword
  rw [UInt32.toNat_ofNat', UInt32.toNat_ofNat'] at hnat
  omega

theorem exact (errno : ℕ) : (transport errno).Exact (2 ^ 31) (errno ≠ 35) where
  read_le := by
    intro s n hn hle
    obtain ⟨s', hrec, hs', -⟩ := recvAll_of_le errno (.inl hn) hle 0
    refine ⟨s', ?_, hs'⟩
    simp [transport, recv, hrec, bind, Except.bind, pure, Except.pure]
  read_lt := by
    intro s n hn hlt
    rcases recvAll_of_lt errno (.inl hn) hlt 0 with ⟨⟨data, s', hrec⟩, -⟩ | ⟨hrec, -⟩
    · have hne : Int32.ofNat s.bytes.length ≠ Int32.ofNat n := fun heq =>
        absurd (ofNat_inj (by omega) (by omega) heq) (by omega)
      refine ⟨.throws, ?_⟩
      simp [transport, recv, hrec, hne, bind, Except.bind, throw, throwThe, MonadExceptOf.throw]
    · refine ⟨.spins, ?_⟩
      simp [transport, recv, hrec, bind, Except.bind]
  readEc_le := by
    intro s n hn hle
    obtain ⟨s', hrec, hs', -⟩ := recvAll_of_le errno (.inl hn) hle 0
    refine ⟨s', ?_, hs'⟩
    simp [transport, recvEc, hrec, bind, Except.bind, pure, Except.pure]
  readEc_lt := by
    intro s n hn hlt
    rcases recvAll_of_lt errno (.inl hn) hlt 0 with ⟨⟨data, s', hrec⟩, -⟩ | ⟨hrec, herr⟩
    · have hne : Int32.ofNat s.bytes.length ≠ Int32.ofNat n := fun heq =>
        absurd (ofNat_inj (by omega) (by omega) heq) (by omega)
      refine Or.inl ⟨s', ?_⟩
      simp [transport, recvEc, hrec, hne, bind, Except.bind, pure, Except.pure]
    · refine Or.inr ⟨not_not.mpr herr, .spins, ?_⟩
      simp [transport, recvEc, hrec, bind, Except.bind]

end Old

/-! ## One message -/

/-- What is expected to be delivered of a message. -/
def Packet.delivery (p : Packet) : Delivery :=
  ⟨p.name, p.flags, p.data.length, p.data, p.flags &&& waitRecvBuf != 0⟩

/-- The name is a string and the header and the data have lengths below `limit`. -/
structure Packet.Fits (p : Packet) (limit : ℕ) : Prop where
  nulFree : NulFree p.name
  name_lt : p.name.length + 8 < limit
  data_lt : p.data.length < limit

theorem Packet.Fits.mono {p : Packet} {l l' : ℕ} (h : p.Fits l) (hle : l ≤ l') : p.Fits l' :=
  ⟨h.nulFree, h.name_lt.trans_le hle, h.data_lt.trans_le hle⟩

namespace Packet.Fits

variable {p : Packet} {limit : ℕ} {net : Transport} {clean : Prop} {s : Socket}

theorem header_eq (h : p.Fits limit) (hl : limit ≤ 2 ^ 32) :
    p.header = leBytes 4 p.name.length ++
      (p.name ++ (leBytes 4 p.flags.toNat ++ leBytes 4 p.data.length)) := by
  have hname := h.name_lt
  have hdata := h.data_lt
  simp only [header, cStr_eq_self h.nulFree]
  rw [Nat.mod_eq_of_lt (a := p.name.length) (by omega),
    Nat.mod_eq_of_lt (a := p.data.length) (by omega), List.take_length]
  simp only [List.append_assoc]

theorem length_header (h : p.Fits limit) (hl : limit ≤ 2 ^ 32) :
    p.header.length = 4 + (p.name.length + 8) := by
  rw [h.header_eq hl]
  simp

theorem encode_eq (h : p.Fits limit) (hl : limit ≤ 2 ^ 32) : p.encode = p.header ++ p.data := by
  rw [encode, wireData_eq_self (h.data_lt.trans_le hl)]

theorem leNat_nameLen (h : p.Fits limit) (hl : limit ≤ 2 ^ 32) :
    leNat (leBytes 4 p.name.length) = p.name.length := by
  have hname := h.name_lt
  rw [leNat_leBytes, Nat.mod_eq_of_lt]
  omega

/-- The header is read when it is there. -/
theorem readHeader_append (h : p.Fits limit) (hl : limit ≤ 2 ^ 32) (hnet : net.Exact limit clean)
    {rest : Bytes} (hs : s.bytes = p.header ++ rest) :
    ∃ s', readHeader net s =
      .ok (some ⟨p.name.length, p.name, p.flags, p.data.length⟩, s') ∧ s'.bytes = rest := by
  have hname := h.name_lt
  have hlen := congrArg List.length hs
  rw [List.length_append, h.length_header hl] at hlen
  rw [h.header_eq hl, List.append_assoc] at hs
  obtain ⟨s₁, hread₁, hs₁⟩ := hnet.readEc_le (s := s) (n := 4) (by omega) (by omega)
  rw [hs, List.take_left' (length_leBytes ..)] at hread₁
  rw [hs, List.drop_left' (length_leBytes ..)] at hs₁
  have hsize : (p.name.length + 8) % 4294967296 = p.name.length + 8 :=
    Nat.mod_eq_of_lt (by omega)
  have hbuf : (p.name ++ (leBytes 4 p.flags.toNat ++ leBytes 4 p.data.length)).length =
      p.name.length + 8 := by simp
  obtain ⟨s₂, hread₂, hs₂⟩ := hnet.read_le (s := s₁) (n := p.name.length + 8) (by omega)
    (by rw [hs₁, List.length_append, hbuf]; omega)
  rw [hs₁, List.take_left' hbuf] at hread₂
  rw [hs₁, List.drop_left' hbuf] at hs₂
  refine ⟨s₂, ?_, hs₂⟩
  have hflags : leNat (leBytes 4 p.flags.toNat) = p.flags.toNat := by
    have hlt : p.flags.toNat < 256 ^ 4 := p.flags.toNat_lt
    rw [leNat_leBytes, Nat.mod_eq_of_lt hlt]
  have hdata : leNat ((leBytes 4 p.data.length).take 4) = p.data.length := by
    have hlt : p.data.length < 256 ^ 4 := h.data_lt.trans_le hl
    rw [List.take_of_length_le (length_leBytes ..).le, leNat_leBytes, Nat.mod_eq_of_lt hlt]
  simp [readHeader, bind, StateT.bind, Except.bind, hread₁, h.leNat_nameLen hl, hsize, hread₂,
    Reading.pure_run, hflags, hdata]

/-- No header is read when the stream ends before it does. -/
theorem readHeader_cut (h : p.Fits limit) (hl : limit ≤ 2 ^ 32) (hnet : net.Exact limit clean)
    (hs : s.bytes <+: p.header) (hlt : s.bytes.length < p.header.length) :
    (∃ s', readHeader net s = .ok (none, s')) ∨ ∃ f, readHeader net s = .error f := by
  have hname := h.name_lt
  rw [h.length_header hl] at hlt
  by_cases hfour : s.bytes.length < 4
  · rcases hnet.readEc_lt (n := 4) (by omega) hfour with ⟨s', hread⟩ | ⟨-, f, hread⟩
    · left
      exact ⟨s', by simp [readHeader, bind, StateT.bind, Except.bind, hread, Reading.pure_run]⟩
    · right
      exact ⟨f, by simp [readHeader, bind, StateT.bind, Except.bind, hread]⟩
  · right
    obtain ⟨s₁, hread₁, hs₁⟩ := hnet.readEc_le (s := s) (n := 4) (by omega) (by omega)
    have htake : s.bytes.take 4 = leBytes 4 p.name.length := by
      obtain ⟨rest, hrest⟩ := hs
      rw [h.header_eq hl] at hrest
      have heq := congrArg (List.take 4) hrest
      rwa [List.take_append_of_le_length (by omega), List.take_left' (length_leBytes ..)] at heq
    rw [htake] at hread₁
    have hlen₁ : s₁.bytes.length < p.name.length + 8 := by
      rw [hs₁, List.length_drop]
      omega
    obtain ⟨f, hread₂⟩ := hnet.read_lt (by omega) hlen₁
    have hsize : (p.name.length + 8) % 4294967296 = p.name.length + 8 :=
      Nat.mod_eq_of_lt (by omega)
    refine ⟨f, ?_⟩
    simp [readHeader, bind, StateT.bind, Except.bind, hread₁, h.leNat_nameLen hl, hsize, hread₂]

/-- **A whole message is delivered.** -/
theorem handleNext_append (h : p.Fits limit) (hl : limit ≤ 2 ^ 32) (hnet : net.Exact limit clean)
    {rest : Bytes} (hs : s.bytes = p.encode ++ rest) :
    ∃ s', handleNext net s = .ok (some p.delivery, s') ∧ s'.bytes = rest := by
  rw [h.encode_eq hl, List.append_assoc] at hs
  obtain ⟨s₁, hread₁, hs₁⟩ := h.readHeader_append hl hnet hs
  obtain ⟨s₂, hread₂, hs₂⟩ := hnet.read_le (s := s₁) h.data_lt (by rw [hs₁]; simp)
  rw [hs₁, List.take_left] at hread₂
  rw [hs₁, List.drop_left] at hs₂
  refine ⟨s₂, ?_, hs₂⟩
  simp [handleNext, handleMessage, bind, StateT.bind, Except.bind, hread₁, hread₂, Reading.pure_run,
    delivery]

/-- **A message that is cut is not delivered.** -/
theorem handleNext_cut (h : p.Fits limit) (hl : limit ≤ 2 ^ 32) (hnet : net.Exact limit clean)
    (hs : s.bytes <+: p.encode) (hlt : s.bytes.length < p.encode.length) :
    (∃ s', handleNext net s = .ok (none, s')) ∨ ∃ f, handleNext net s = .error f := by
  rw [h.encode_eq hl] at hs hlt
  by_cases hhead : s.bytes.length < p.header.length
  · have hpre := List.prefix_of_prefix_length_le hs (List.prefix_append _ _) hhead.le
    rcases h.readHeader_cut hl hnet hpre hhead with ⟨s', hread⟩ | ⟨f, hread⟩
    · left
      exact ⟨s', by simp [handleNext, bind, StateT.bind, Except.bind, hread, Reading.pure_run]⟩
    · right
      exact ⟨f, by simp [handleNext, bind, StateT.bind, Except.bind, hread]⟩
  · right
    obtain ⟨rest, hrest⟩ :=
      List.prefix_of_prefix_length_le (List.prefix_append _ _) hs (not_lt.mp hhead)
    obtain ⟨s₁, hread₁, hs₁⟩ := h.readHeader_append hl hnet hrest.symm
    have hlen : s₁.bytes.length < p.data.length := by
      rw [← hrest, List.length_append, List.length_append] at hlt
      rw [hs₁]
      omega
    obtain ⟨f, hread₂⟩ := hnet.read_lt h.data_lt hlen
    refine ⟨f, ?_⟩
    simp [handleNext, handleMessage, bind, StateT.bind, Except.bind, hread₁, hread₂]

end Packet.Fits

/-! ## All messages -/

/-- What the handler makes of a stream of the messages `ps` that ends after `bs`: it delivers
exactly those that lie wholly in it, one after the other, and when it ends between two messages it
returns their number. -/
structure Delivers (ps : List Packet) (bs : Bytes) (r : List Delivery × HandlerEnd) : Prop where
  messages : ∃ qs, r.1 = qs.map Packet.delivery ∧ qs <+: ps ∧ qs.flatMap Packet.encode <+: bs ∧
    ∀ qs', qs' <+: ps → qs'.flatMap Packet.encode <+: bs → qs' <+: qs
  ends : r.2 ≠ .running

/-- It returns normally when the stream ends between two messages. -/
def ReturnsAtEnd (ps : List Packet) (bs : Bytes) (r : List Delivery × HandlerEnd) : Prop :=
  ∀ qs, qs <+: ps → bs = qs.flatMap Packet.encode → r.2 = .returned qs.length

section HandleToEnd

variable {net : Transport} {limit : ℕ} {clean : Prop}

theorem handleNext_nil (hnet : net.Exact limit clean) (hl : 4 < limit) (hclean : clean)
    {s : Socket} (hs : s.bytes = []) : ∃ s', handleNext net s = .ok (none, s') := by
  rcases hnet.readEc_lt (s := s) (n := 4) hl (by simp [hs]) with ⟨s', hread⟩ | ⟨hdirty, -⟩
  · refine ⟨s', ?_⟩
    simp [handleNext, readHeader, bind, StateT.bind, Except.bind, hread, Reading.pure_run]
  · exact absurd hclean hdirty

theorem handleToEnd_nil (hnet : net.Exact limit clean) (hl : 4 < limit) {s : Socket}
    (hs : s.bytes = []) {fuel : ℕ} (hfuel : 0 < fuel) (i : ℕ) :
    (handleToEnd net fuel i s).1 = [] ∧ (handleToEnd net fuel i s).2 ≠ .running ∧
      (clean → (handleToEnd net fuel i s).2 = .returned i) := by
  obtain ⟨fuel, rfl⟩ := Nat.exists_eq_succ_of_ne_zero hfuel.ne'
  by_cases hclean : clean
  · obtain ⟨s', hnext⟩ := handleNext_nil hnet hl hclean hs
    simp [handleToEnd, hnext]
  · rcases hnet.readEc_lt (s := s) (n := 4) hl (by simp [hs]) with ⟨s', hread⟩ | ⟨-, f, hread⟩
    · simp [handleToEnd, handleNext, readHeader, bind, StateT.bind, Except.bind, hread,
        Reading.pure_run]
    · simp [handleToEnd, handleNext, readHeader, bind, StateT.bind, Except.bind, hread, hclean]

theorem handleToEnd_whole (hnet : net.Exact limit clean) (hl : limit ≤ 2 ^ 32) (hfour : 4 < limit)
    {ps : List Packet} (hps : ∀ p ∈ ps, p.Fits limit) {s : Socket}
    (hs : s.bytes <+: ps.flatMap Packet.encode) {fuel : ℕ} (hfuel : ps.length < fuel) (i : ℕ) :
    (handleToEnd net fuel i s).1 = (whole Packet.encode ps s.bytes).map Packet.delivery ∧
      (handleToEnd net fuel i s).2 ≠ .running ∧
      ∀ qs, qs <+: ps → s.bytes = qs.flatMap Packet.encode → clean →
        (handleToEnd net fuel i s).2 = .returned (i + qs.length) := by
  induction ps generalizing s fuel i with
  | nil =>
      have hnil := List.prefix_nil.mp hs
      obtain ⟨h₁, h₂, h₃⟩ := handleToEnd_nil hnet hfour hnil (Nat.zero_lt_of_lt hfuel) i
      refine ⟨h₁, h₂, ?_⟩
      intro qs hqs _ hclean
      rw [List.prefix_nil.mp hqs]
      exact h₃ hclean
  | cons p ps ih =>
      have hp := hps p List.mem_cons_self
      obtain ⟨fuel, rfl⟩ := Nat.exists_eq_succ_of_ne_zero (Nat.ne_of_gt (Nat.zero_lt_of_lt hfuel))
      rcases split_prefix hs with ⟨rest, hrest, hpre⟩ | ⟨hpre, hlt⟩
      · obtain ⟨s', hnext, hs'⟩ := hp.handleNext_append hl hnet hrest
        subst hs'
        obtain ⟨h₁, h₂, h₃⟩ := ih (fun q hq => hps q (List.mem_cons_of_mem _ hq)) hpre
          (Nat.lt_of_succ_lt_succ hfuel) (i + 1)
        have hstep : handleToEnd net (fuel + 1) i s =
            (p.delivery :: (handleToEnd net fuel (i + 1) s').1,
              (handleToEnd net fuel (i + 1) s').2) := by
          simp [handleToEnd, hnext]
        rw [hstep, hrest, whole_cons]
        refine ⟨by rw [h₁]; rfl, h₂, ?_⟩
        intro qs hqs hbytes hclean
        cases qs with
        | nil =>
            have hlen := congrArg List.length hbytes
            rw [hp.encode_eq hl, List.length_append, List.length_append,
              hp.length_header hl] at hlen
            simp at hlen
        | cons q qs =>
            obtain ⟨rfl, htail⟩ := List.cons_prefix_cons.mp hqs
            rw [List.flatMap_cons] at hbytes
            rw [h₃ qs htail (List.append_cancel_left hbytes) hclean, List.length_cons]
            congr 1
            omega
      · have hnone : whole Packet.encode (p :: ps) s.bytes = [] := by
          rw [whole, if_neg (not_le.mpr hlt)]
        have hno : ∀ q qs, q :: qs <+: p :: ps → s.bytes ≠ (q :: qs).flatMap Packet.encode := by
          intro q qs hqs hbytes
          obtain ⟨rfl, -⟩ := List.cons_prefix_cons.mp hqs
          have hlen := congrArg List.length hbytes
          rw [List.flatMap_cons, List.length_append] at hlen
          omega
        rw [hnone]
        by_cases hnil : s.bytes = []
        · obtain ⟨h₁, h₂, h₃⟩ := handleToEnd_nil hnet hfour hnil (Nat.succ_pos fuel) i
          refine ⟨h₁, h₂, ?_⟩
          intro qs hqs hbytes hclean
          cases qs with
          | nil => exact h₃ hclean
          | cons q qs => exact absurd hbytes (hno q qs hqs)
        · -- the stream ends within the message
          have hend : (handleToEnd net (fuel + 1) i s).1 = [] ∧
              (handleToEnd net (fuel + 1) i s).2 ≠ .running := by
            rcases hp.handleNext_cut hl hnet hpre hlt with ⟨s', hnext⟩ | ⟨f, hnext⟩
            · simp [handleToEnd, hnext]
            · simp [handleToEnd, hnext]
          refine ⟨hend.1, hend.2, ?_⟩
          intro qs hqs hbytes _
          cases qs with
          | nil => exact absurd hbytes hnil
          | cons q qs => exact absurd hbytes (hno q qs hqs)

end HandleToEnd

/-! ## The order of the messages -/

namespace Sender

variable {ι : Type} [DecidableEq ι] {write : ℕ → ℕ → Prop} {todo : ι → List Packet}
  {st st' : Sender ι}

/-- The messages in the order of the lock. -/
def messages (st : Sender ι) : List Packet := st.sent.map Prod.snd

/-- What is still to be written for the message at hand. -/
def rest (st : Sender ι) : Bytes :=
  match st.holder with
  | some (_, ws) => ws.flatten
  | none => []

omit [DecidableEq ι] in
theorem rest_of_holder {i : ι} {ws : List Bytes} (h : st.holder = some (i, ws)) :
    st.rest = ws.flatten := by
  rw [rest, h]

/-- What has been written is the stream of the messages, up to what is still to be written; every
thread has sent its messages one after the other. -/
structure Inv (todo : ι → List Packet) (st : Sender ι) : Prop where
  stream : st.out ++ st.rest = st.messages.flatMap Packet.encode
  order : ∀ i, (st.sent.filter fun q => q.1 = i).map Prod.snd ++ st.todo i = todo i

theorem Inv.step (h : Inv todo st) (hstep : Step write st st') : Inv todo st' := by
  cases hstep with
  | @lock i p ps hfree hi =>
      have hstream := h.stream
      rw [rest, hfree, List.append_nil] at hstream
      refine ⟨?_, ?_⟩
      · simp [rest, messages, Packet.writes, Packet.encode, hstream]
      · intro j
        have hj := h.order j
        by_cases hij : i = j
        · subst hij
          rw [hi] at hj
          simpa using hj
        · simpa [hij, Function.update_of_ne (Ne.symm hij)] using hj
  | @write i w ws k hheld _ _ =>
      refine ⟨?_, h.order⟩
      have hstream := h.stream
      rw [rest_of_holder hheld, List.flatten_cons] at hstream
      change st.out ++ w.take k ++ (w.drop k :: ws).flatten = _
      rw [List.flatten_cons, List.append_assoc, ← List.append_assoc (w.take k),
        List.take_append_drop]
      exact hstream
  | next hheld =>
      refine ⟨?_, h.order⟩
      have hstream := h.stream
      rw [rest_of_holder hheld] at hstream
      exact hstream
  | unlock hheld =>
      refine ⟨?_, h.order⟩
      have hstream := h.stream
      rw [rest_of_holder hheld] at hstream
      exact hstream

theorem Inv.reach (h : Reach write (Sender.start todo) st) : Inv todo st := by
  induction h with
  | refl => exact ⟨rfl, fun i => rfl⟩
  | tail _ hstep ih => exact ih.step hstep

/-- What arrives is a prefix of the stream of the messages. -/
theorem Inv.arrives (h : Inv todo st) {bs : Bytes} (hbs : bs <+: st.out) :
    bs <+: st.messages.flatMap Packet.encode := by
  rw [← h.stream]
  exact hbs.trans (List.prefix_append _ _)

theorem Inv.mem_todo (h : Inv todo st) {p : Packet} (hp : p ∈ st.messages) : ∃ i, p ∈ todo i := by
  obtain ⟨⟨i, q⟩, hq, rfl⟩ := List.mem_map.mp hp
  refine ⟨i, ?_⟩
  rw [← h.order i]
  apply List.mem_append_left
  exact List.mem_map.mpr ⟨(i, q), List.mem_filter.mpr ⟨hq, by simp⟩, rfl⟩

/-- The lock keeps the order in which each thread sends. -/
def Ordered (todo : ι → List Packet) (st : Sender ι) : Prop :=
  ∀ i, (st.sent.filter fun q => q.1 = i).map Prod.snd <+: todo i

theorem Inv.ordered (h : Inv todo st) : st.Ordered todo :=
  fun i => ⟨st.todo i, h.order i⟩

/-- A reader of what has been written, when its reads are exact. -/
theorem Inv.delivers {net : Transport} {limit : ℕ} {clean : Prop} (h : Inv todo st)
    (hnet : net.Exact limit clean) (hl : limit ≤ 2 ^ 32) (hfour : 4 < limit)
    (hfits : ∀ i, ∀ p ∈ todo i, p.Fits limit) {s : Socket} (hbs : s.bytes <+: st.out) {fuel : ℕ}
    (hfuel : st.messages.length < fuel) :
    (handleToEnd net fuel 0 s).1 =
        (whole Packet.encode st.messages s.bytes).map Packet.delivery ∧
      Delivers st.messages s.bytes (handleToEnd net fuel 0 s) ∧
      (clean → ReturnsAtEnd st.messages s.bytes (handleToEnd net fuel 0 s)) := by
  have hmem : ∀ p ∈ st.messages, p.Fits limit := by
    intro p hp
    obtain ⟨i, hi⟩ := h.mem_todo hp
    exact hfits i p hi
  obtain ⟨hdel, hrun, hret⟩ :=
    handleToEnd_whole hnet hl hfour hmem (h.arrives hbs) hfuel 0
  obtain ⟨hpre, hin, hmax⟩ := whole_spec (h.arrives hbs)
  refine ⟨hdel, ⟨⟨_, hdel, hpre, hin, hmax⟩, hrun⟩, ?_⟩
  intro hclean qs hqs hbytes
  simpa using hret qs hqs hbytes hclean

/-- **Message framing is exact**, in both implementations, and both deliver the same. -/
theorem framing_exact (todo : ι → List Packet) (hfits : ∀ i, ∀ p ∈ todo i, p.Fits (2 ^ 32)) :
    (∀ st, Reach writeSome (Sender.start todo) st → st.Ordered todo ∧
      ∀ bs frag fuel, bs <+: st.out → st.messages.length < fuel →
        Delivers st.messages bs (handleToEnd Cxx20.transport fuel 0 ⟨bs, frag, 0⟩) ∧
        ReturnsAtEnd st.messages bs (handleToEnd Cxx20.transport fuel 0 ⟨bs, frag, 0⟩)) ∧
    ((∀ i, ∀ p ∈ todo i, p.Fits (2 ^ 31)) →
      (∀ st, Reach sendAll (Sender.start todo) st → st.Ordered todo ∧
        ∀ bs frag errno fuel, bs <+: st.out → st.messages.length < fuel →
          Delivers st.messages bs (handleToEnd (Old.transport errno) fuel 0 ⟨bs, frag, 0⟩) ∧
          (errno ≠ 35 →
            ReturnsAtEnd st.messages bs (handleToEnd (Old.transport errno) fuel 0 ⟨bs, frag, 0⟩))) ∧
      ∀ st, Reach writeSome (Sender.start todo) st ∨ Reach sendAll (Sender.start todo) st →
        ∀ bs frag frag' errno fuel, bs <+: st.out → st.messages.length < fuel →
          (handleToEnd Cxx20.transport fuel 0 ⟨bs, frag, 0⟩).1 =
            (handleToEnd (Old.transport errno) fuel 0 ⟨bs, frag', 0⟩).1) := by
  refine ⟨?_, fun hshort => ⟨?_, ?_⟩⟩
  · intro st hreach
    have hinv := Inv.reach hreach
    refine ⟨hinv.ordered, ?_⟩
    intro bs frag fuel hbs hfuel
    obtain ⟨-, hdel, hret⟩ := hinv.delivers (s := ⟨bs, frag, 0⟩) (Cxx20.exact (2 ^ 32)) le_rfl
      (by omega) hfits hbs hfuel
    exact ⟨hdel, hret trivial⟩
  · intro st hreach
    have hinv := Inv.reach hreach
    refine ⟨hinv.ordered, ?_⟩
    intro bs frag errno fuel hbs hfuel
    exact (hinv.delivers (s := ⟨bs, frag, 0⟩) (Old.exact errno) (by omega) (by omega)
      hshort hbs hfuel).2
  · intro st hreach bs frag frag' errno fuel hbs hfuel
    have hinv : Inv todo st := hreach.elim Inv.reach Inv.reach
    rw [(hinv.delivers (s := ⟨bs, frag, 0⟩) (Cxx20.exact (2 ^ 32)) le_rfl (by omega) hfits hbs
        hfuel).1,
      (hinv.delivers (s := ⟨bs, frag', 0⟩) (Old.exact errno) (by omega) (by omega) hshort hbs
        hfuel).1]

/-- A buffer is written in one go. -/
theorem Reach.drain (hwrite : ∀ n, 0 < n → write n n) {i : ι} {w : Bytes} {ws : List Bytes}
    (h : st.holder = some (i, w :: ws)) :
    Reach write st { st with holder := some (i, ws), out := st.out ++ w } := by
  by_cases hw : w = []
  · subst hw
    have hnext : Reach write st _ := .single (.next h)
    rwa [List.append_nil]
  · have hall := Step.write h hw (hwrite _ (List.length_pos_of_ne_nil hw))
    rw [List.take_length, List.drop_length] at hall
    exact (Relation.ReflTransGen.single hall).tail (.next rfl)

/-- A thread sends a message when nobody else does. -/
theorem Reach.send (hwrite : ∀ n, 0 < n → write n n) {i : ι} {p : Packet} {ps : List Packet}
    (hfree : st.holder = none) (hi : st.todo i = p :: ps) :
    Reach write st { st with
      todo := Function.update st.todo i ps, out := st.out ++ p.encode,
      sent := st.sent ++ [(i, p)] } := by
  have hlock : Reach write st _ := .single (.lock hfree hi)
  have hheader := hlock.trans (Reach.drain hwrite rfl)
  have hdata := (hheader.trans (Reach.drain hwrite rfl)).tail (.unlock rfl)
  simpa only [Packet.encode, List.append_assoc, ← hfree] using hdata

/-- A message with the name `a` and two bytes of data. -/
def small : Packet := ⟨[97], 1, [7, 8]⟩

/-- Another one, with the name `b`. -/
def tiny : Packet := ⟨[98], 0, [9]⟩

/-- Two threads with a message each. -/
def twoThreads (b : Bool) : List Packet := [if b then small else tiny]

theorem twoThreads_fits (b : Bool) : ∀ p ∈ twoThreads b, p.Fits (2 ^ 31) := by
  intro p hp
  rw [List.mem_singleton.mp hp]
  cases b <;> exact ⟨by decide, by decide, by decide⟩

/-- A stream that ends within the second message, or after the first one, or after both. -/
theorem framing_exact_two : ∃ st, Reach sendAll (Sender.start twoThreads) st ∧
    st.messages = [small, tiny] ∧
      Delivers [small, tiny] (small.encode ++ tiny.header)
        (handleToEnd Cxx20.transport 3 0 ⟨small.encode ++ tiny.header, fun _ => 1, 0⟩) ∧
      (handleToEnd (Old.transport 0) 3 0 ⟨small.encode, fun _ => 3, 0⟩).2 = .returned 1 ∧
      (handleToEnd (Old.transport 0) 3 0 ⟨small.encode ++ tiny.encode, fun _ => 3, 0⟩).2 =
        .returned 2 := by
  obtain ⟨hcxx20, hold⟩ := framing_exact twoThreads
    fun b p hp => (twoThreads_fits b p hp).mono (by omega)
  have hreach : ∀ {write : ℕ → ℕ → Prop}, (∀ n, 0 < n → write n n) →
      Reach write (Sender.start twoThreads) _ := fun hwrite =>
    (Reach.send hwrite (i := true) rfl rfl).trans (Reach.send hwrite (i := false) rfl rfl)
  have hsome := (hcxx20 _ (hreach fun n hn => ⟨hn, le_rfl⟩)).2
  have hall := ((hold twoThreads_fits).1 _ (hreach fun n _ => rfl)).2
  refine ⟨_, hreach fun n _ => rfl, rfl, ?_, ?_, ?_⟩
  · exact (hsome _ (fun _ => 1) 3 (by decide) (by decide)).1
  · exact (hall _ (fun _ => 3) 0 3 (by decide) (by decide)).2 (by decide) [small] ⟨[tiny], rfl⟩
      rfl
  · exact (hall _ (fun _ => 3) 0 3 (by decide) (by decide)).2 (by decide) [small, tiny]
      ⟨[], rfl⟩ rfl

end Sender

end StdmlCollective

import StdmlCollective.ClientPool
import StdmlCollective.Rchan

/-!
# Threads that send through one client

Any number of threads call `client_impl::send`. A call takes `mu_` of the client to find the
connection to its target. When there is none it dials, still under `mu_`: it connects, writes a
`conn_header`, waits for the `connection_ack` and only then enters the connection. It gives `mu_`
back, takes the lock of the connection, and writes the message piece by piece. At the other end
`upgrade_from` reads the header and writes the ack, and `handle_to_end` reads messages.

What holds at every moment is `ClientRun.Inv`: one thread dials at a time, no target is dialled
twice, and on every connection what has been written, what is left to be written and what has been
handled make up the messages in the order in which the lock was taken.

The data of a message are taken when the lock is. What the reading code has got through is found by
running it on the bytes that have arrived.
-/

namespace StdmlCollective

open LittleEndian

/-- `conn_collective`. -/
def connCollective : UInt16 := 2

/-- `struct conn_header` as it lies in memory. -/
def connHeader (type : UInt16) (src : PeerId) : Bytes :=
  leBytes 2 type.toNat ++ leBytes 2 src.port.toNat ++ leBytes 4 src.ipv4.toNat

/-- `struct connection_ack` with the token 0. -/
def connectionAck : Bytes := leBytes 4 0

section Handshake

variable (net : Transport)

/-- `upgrade_from` up to the ack: the type of the connection and its source. -/
def readConnHeader : Reading (UInt16 × PeerId) := do
  let h ← net.read 8
  return (UInt16.ofNat (leNat (h.take 2)),
    ⟨UInt32.ofNat (leNat (h.drop 4)), UInt16.ofNat (leNat ((h.drop 2).take 2))⟩)

/-- The end of `upgrade_to`; the ack is not looked at. -/
def readAck : Reading Unit := do
  let _ ← net.read 4
  return

end Handshake

/-- The other end of a connection: it reads the header, writes what is left of the ack, or runs
`conn_handler_impl::operator()` on a connection of this type from this peer. -/
inductive ServerEnd where
  | reading
  | acking (type : UInt16) (src : PeerId) (left : Bytes)
  | serving (type : UInt16) (src : PeerId)

/-- A connection: what has been written to it and has not been read, in both directions; who holds
its lock and what is still to be written; the messages in the order of the lock; and what the other
end has handled. -/
structure Pipe (ι : Type) where
  remote : PeerId
  up : Bytes
  down : Bytes
  holder : Option (ι × List Bytes)
  server : ServerEnd
  sent : List (ι × Packet)
  handled : List Delivery

/-- A connection when `connect` has returned. -/
def Pipe.fresh {ι : Type} (remote : PeerId) : Pipe ι := ⟨remote, [], [], none, .reading, [], []⟩

/-- Where a thread is in `client_impl::send`: it holds `mu_` and looks for the connection; it holds
`mu_` and has connected, with this left of the header; it has the connection; it holds its lock. -/
inductive Caller where
  | idle
  | require (target : PeerId) (p : Packet)
  | upgrade (n : ℕ) (left : Bytes) (p : Packet)
  | found (n : ℕ) (p : Packet)
  | sending (n : ℕ)

/-- A client, its threads with what they still have to send, and its connections by number. -/
structure ClientRun (ι : Type) where
  todo : ι → List (PeerId × Packet)
  caller : ι → Caller
  mu : Option ι
  conns : UInt64 → Option ℕ
  pipe : ℕ → Pipe ι
  dialled : ℕ

namespace ClientRun

variable {ι : Type} [DecidableEq ι]

/-- Before the first call. -/
def start (todo : ι → List (PeerId × Packet)) : ClientRun ι :=
  ⟨todo, fun _ => .idle, none, fun _ => none, fun _ => .fresh ⟨0, 0⟩, 0⟩

/-- Thread `i` goes on. -/
def goTo (s : ClientRun ι) (i : ι) (x : Caller) : ClientRun ι :=
  { s with caller := Function.update s.caller i x }

/-- Connection `n` changes. -/
def setPipe (s : ClientRun ι) (n : ℕ) (x : Pipe ι) : ClientRun ι :=
  { s with pipe := Function.update s.pipe n x }

section Updates

variable (s : ClientRun ι) (i j : ι) (y : Caller) (n m : ℕ) (x : Pipe ι) (key : UInt64)

@[simp, grind =] theorem caller_goTo :
    (s.goTo i y).caller j = if j = i then y else s.caller j := Function.update_apply ..

@[simp, grind =] theorem todo_goTo : (s.goTo i y).todo j = s.todo j := rfl
@[simp, grind =] theorem mu_goTo : (s.goTo i y).mu = s.mu := rfl
@[simp, grind =] theorem conns_goTo : (s.goTo i y).conns key = s.conns key := rfl
@[simp, grind =] theorem pipe_goTo : (s.goTo i y).pipe n = s.pipe n := rfl
@[simp, grind =] theorem dialled_goTo : (s.goTo i y).dialled = s.dialled := rfl

omit [DecidableEq ι]

@[simp, grind =] theorem pipe_setPipe :
    (s.setPipe n x).pipe m = if m = n then x else s.pipe m := Function.update_apply ..

@[simp, grind =] theorem todo_setPipe : (s.setPipe n x).todo j = s.todo j := rfl
@[simp, grind =] theorem caller_setPipe : (s.setPipe n x).caller j = s.caller j := rfl
@[simp, grind =] theorem mu_setPipe : (s.setPipe n x).mu = s.mu := rfl
@[simp, grind =] theorem conns_setPipe : (s.setPipe n x).conns key = s.conns key := rfl
@[simp, grind =] theorem dialled_setPipe : (s.setPipe n x).dialled = s.dialled := rfl

end Updates

/-- The steps of the threads and of the other ends. The client is that of `me`, for connections of
type `type`; `write k n` when the transport may write `k` of `n` bytes; `listening` are the peers
whose server is up, which is what `wait_connect` waits for. -/
inductive Step (net : Transport) (write : ℕ → ℕ → Prop) (me : PeerId) (type : UInt16)
    (listening : PeerId → Prop) : ClientRun ι → ClientRun ι → Prop where
  /-- `require` locks `mu_`. -/
  | call {s : ClientRun ι} {i : ι} {r : PeerId} {p : Packet} {l : List (PeerId × Packet)} :
      s.caller i = .idle → s.todo i = (r, p) :: l → s.mu = none →
      Step net write me type listening s
        { s.goTo i (.require r p) with todo := Function.update s.todo i l, mu := some i }
  | found {s : ClientRun ι} {i : ι} {r : PeerId} {p : Packet} {n : ℕ} :
      s.caller i = .require r p → s.conns r.hash = some n →
      Step net write me type listening s { s.goTo i (.found n p) with mu := none }
  | connect {s : ClientRun ι} {i : ι} {r : PeerId} {p : Packet} :
      s.caller i = .require r p → s.conns r.hash = none → listening r →
      Step net write me type listening s
        { (s.goTo i (.upgrade s.dialled (connHeader type me) p)).setPipe s.dialled (.fresh r) with
          dialled := s.dialled + 1 }
  | writeHeader {s : ClientRun ι} {i : ι} {n k : ℕ} {w : Bytes} {p : Packet} :
      s.caller i = .upgrade n w p → w ≠ [] → write k w.length →
      Step net write me type listening s
        ((s.goTo i (.upgrade n (w.drop k) p)).setPipe n
          { s.pipe n with up := (s.pipe n).up ++ w.take k })
  | readHeader {s : ClientRun ι} {n : ℕ} {frag : ℕ → ℕ} {type' : UInt16} {src : PeerId}
      {rest : Socket} :
      n < s.dialled → (s.pipe n).server = .reading →
      readConnHeader net ⟨(s.pipe n).up, frag, 0⟩ = .ok ((type', src), rest) →
      Step net write me type listening s
        (s.setPipe n { s.pipe n with up := rest.bytes, server := .acking type' src connectionAck })
  | writeAck {s : ClientRun ι} {n k : ℕ} {w : Bytes} {type' : UInt16} {src : PeerId} :
      n < s.dialled → (s.pipe n).server = .acking type' src w → w ≠ [] → write k w.length →
      Step net write me type listening s
        (s.setPipe n { s.pipe n with
          down := (s.pipe n).down ++ w.take k, server := .acking type' src (w.drop k) })
  | serve {s : ClientRun ι} {n : ℕ} {type' : UInt16} {src : PeerId} :
      n < s.dialled → (s.pipe n).server = .acking type' src [] →
      Step net write me type listening s
        (s.setPipe n { s.pipe n with server := .serving type' src })
  /-- The ack is there: the connection is entered and `mu_` given back. -/
  | readAck {s : ClientRun ι} {i : ι} {n : ℕ} {p : Packet} {frag : ℕ → ℕ} {rest : Socket} :
      s.caller i = .upgrade n [] p →
      StdmlCollective.readAck net ⟨(s.pipe n).down, frag, 0⟩ = .ok ((), rest) →
      Step net write me type listening s
        { (s.goTo i (.found n p)).setPipe n { s.pipe n with down := rest.bytes } with
          conns := Function.update s.conns (s.pipe n).remote.hash (some n), mu := none }
  /-- `connection_impl::send` takes the lock. -/
  | lock {s : ClientRun ι} {i : ι} {n : ℕ} {p : Packet} :
      s.caller i = .found n p → (s.pipe n).holder = none →
      Step net write me type listening s
        ((s.goTo i (.sending n)).setPipe n { s.pipe n with
          holder := some (i, p.writes), sent := (s.pipe n).sent ++ [(i, p)] })
  | write {s : ClientRun ι} {i : ι} {n k : ℕ} {w : Bytes} {ws : List Bytes} :
      (s.pipe n).holder = some (i, w :: ws) → w ≠ [] → write k w.length →
      Step net write me type listening s
        (s.setPipe n { s.pipe n with
          up := (s.pipe n).up ++ w.take k, holder := some (i, w.drop k :: ws) })
  | next {s : ClientRun ι} {i : ι} {n : ℕ} {ws : List Bytes} :
      (s.pipe n).holder = some (i, [] :: ws) →
      Step net write me type listening s
        (s.setPipe n { s.pipe n with holder := some (i, ws) })
  | unlock {s : ClientRun ι} {i : ι} {n : ℕ} :
      (s.pipe n).holder = some (i, []) →
      Step net write me type listening s
        ((s.goTo i .idle).setPipe n { s.pipe n with holder := none })
  /-- `handle_next`: there is a handler for `conn_collective` only. -/
  | handle {s : ClientRun ι} {n : ℕ} {frag : ℕ → ℕ} {src : PeerId} {d : Delivery} {rest : Socket} :
      n < s.dialled → (s.pipe n).server = .serving connCollective src →
      handleNext net ⟨(s.pipe n).up, frag, 0⟩ = .ok (some d, rest) →
      Step net write me type listening s
        (s.setPipe n { s.pipe n with up := rest.bytes, handled := (s.pipe n).handled ++ [d] })

end ClientRun

/-! ## One connection -/

theorem length_connHeader (type : UInt16) (src : PeerId) : (connHeader type src).length = 8 := by
  simp [connHeader]

theorem leNat_take_leBytes {k n : ℕ} {rest : Bytes} (h : n < 256 ^ k) :
    leNat ((leBytes k n ++ rest).take k) = n := by
  rw [List.take_left' (length_leBytes ..), leNat_leBytes, Nat.mod_eq_of_lt h]

section Reading

variable {net : Transport} {limit : ℕ} {clean : Prop} {s : Socket}

/-- The header comes back as it was written. -/
theorem readConnHeader_append (hnet : net.Exact limit clean) (hl : 8 < limit) {type : UInt16}
    {src : PeerId} {rest : Bytes} (hs : s.bytes = connHeader type src ++ rest) :
    ∃ s', readConnHeader net s = .ok ((type, src), s') ∧ s'.bytes = rest := by
  have hlen := length_connHeader type src
  obtain ⟨s', hread, hs'⟩ := hnet.read_le (s := s) (n := 8) hl (by rw [hs]; simp [hlen])
  rw [hs, List.take_left' hlen] at hread
  rw [hs, List.drop_left' hlen] at hs'
  have htype : leNat ((connHeader type src).take 2) = type.toNat := by
    rw [connHeader, List.append_assoc]
    exact leNat_take_leBytes type.toNat_lt
  have hport : leNat (((connHeader type src).drop 2).take 2) = src.port.toNat := by
    rw [connHeader, List.append_assoc, List.drop_left' (length_leBytes ..)]
    exact leNat_take_leBytes src.port.toNat_lt
  have hip : leNat ((connHeader type src).drop 4) = src.ipv4.toNat := by
    rw [connHeader, List.drop_left' (by simp), leNat_leBytes]
    exact Nat.mod_eq_of_lt src.ipv4.toNat_lt
  refine ⟨s', ?_, hs'⟩
  simp [readConnHeader, bind, StateT.bind, Except.bind, hread, Reading.pure_run, htype, hport, hip]

/-- Nothing is made of a header that is not all there. -/
theorem readConnHeader_cut (hnet : net.Exact limit clean) (hl : 8 < limit)
    (hs : s.bytes.length < 8) : ∃ f, readConnHeader net s = .error f := by
  obtain ⟨f, hread⟩ := hnet.read_lt hl hs
  exact ⟨f, by simp [readConnHeader, bind, StateT.bind, Except.bind, hread]⟩

theorem readAck_append (hnet : net.Exact limit clean) (hl : 8 < limit) {rest : Bytes}
    (hs : s.bytes = connectionAck ++ rest) :
    ∃ s', readAck net s = .ok ((), s') ∧ s'.bytes = rest := by
  have hlen : connectionAck.length = 4 := rfl
  obtain ⟨s', hread, hs'⟩ := hnet.read_le (s := s) (n := 4) (by omega) (by rw [hs]; simp [hlen])
  rw [hs, List.drop_left' hlen] at hs'
  exact ⟨s', by simp [readAck, bind, StateT.bind, Except.bind, hread, Reading.pure_run], hs'⟩

theorem readAck_cut (hnet : net.Exact limit clean) (hl : 8 < limit) (hs : s.bytes.length < 4) :
    ∃ f, readAck net s = .error f := by
  obtain ⟨f, hread⟩ := hnet.read_lt (s := s) (n := 4) (by omega) hs
  exact ⟨f, by simp [readAck, bind, StateT.bind, Except.bind, hread]⟩

/-- Where nothing has arrived, nothing is handled. -/
theorem handleNext_ne_some (hnet : net.Exact limit clean) (hl : 8 < limit) {frag : ℕ → ℕ}
    {rest : Socket} {d : Delivery} : handleNext net ⟨[], frag, 0⟩ ≠ .ok (some d, rest) := by
  intro hnext
  rcases hnet.readEc_lt (s := ⟨[], frag, 0⟩) (n := 4) (by omega) (by simp) with
    ⟨s', hread⟩ | ⟨-, f, hread⟩
  · simp [handleNext, readHeader, bind, StateT.bind, Except.bind, hread, Reading.pure_run] at hnext
  · simp [handleNext, readHeader, bind, StateT.bind, Except.bind, hread] at hnext

end Reading

namespace Pipe

variable {ι : Type} {me : PeerId} {type : UInt16} {limit : ℕ} {x : Pipe ι}

/-- What is still to be written for the message at hand. -/
def rest (x : Pipe ι) : Bytes :=
  match x.holder with
  | some (_, ws) => ws.flatten
  | none => []

/-- A connection that is being dialled, with `w` left of the header. -/
structure Handshake (me : PeerId) (type : UInt16) (x : Pipe ι) (w : Bytes) : Prop where
  unlocked : x.holder = none
  sent : x.sent = []
  handled : x.handled = []
  stage : (x.server = .reading ∧ x.up ++ w = connHeader type me ∧ x.down = []) ∨
    w = [] ∧ x.up = [] ∧ ∃ a, x.down ++ a = connectionAck ∧
      (x.server = .acking type me a ∨ a = [] ∧ x.server = .serving type me)

/-- A connection that has been dialled: the other end knows the peer, and the messages of which
nothing is left have been handled. -/
structure Open (me : PeerId) (type : UInt16) (limit : ℕ) (x : Pipe ι) : Prop where
  server : x.server = .acking type me [] ∨ x.server = .serving type me
  stream : ∃ done left, x.sent = done ++ left ∧ x.handled = done.map (fun y => y.2.delivery) ∧
    x.up ++ x.rest = left.flatMap fun y => y.2.encode
  fits : ∀ y ∈ x.sent, y.2.Fits limit

/-- The messages that have been handled. -/
def done (x : Pipe ι) : List (ι × Packet) := x.sent.take x.handled.length

/-- The messages that have not been handled. -/
def left (x : Pipe ι) : List (ι × Packet) := x.sent.drop x.handled.length

theorem done_left {done left : List (ι × Packet)} (hsent : x.sent = done ++ left)
    (hhandled : x.handled = done.map fun y => y.2.delivery) : x.done = done ∧ x.left = left := by
  simp [Pipe.done, Pipe.left, hsent, hhandled]

theorem rest_of_holder {i : ι} {ws : List Bytes} (h : x.holder = some (i, ws)) :
    x.rest = ws.flatten := by rw [rest, h]

theorem rest_of_none (h : x.holder = none) : x.rest = [] := by rw [rest, h]

section Dialling

variable {w : Bytes} {net : Transport} {clean : Prop} {frag : ℕ → ℕ} {rest : Socket}

/-- As long as the server reads, what it reads is the header. -/
theorem Handshake.of_reading (h : Handshake me type x w) (hserver : x.server = .reading) :
    x.up ++ w = connHeader type me ∧ x.down = [] := by
  rcases h.stage with ⟨-, hstage⟩ | ⟨-, -, a, -, hs | ⟨-, hs⟩⟩
  · exact hstage
  · simp [hserver] at hs
  · simp [hserver] at hs

theorem Handshake.write (h : Handshake me type x w) (k : ℕ) :
    Handshake me type { x with up := x.up ++ w.take k } (w.drop k) := by
  refine ⟨h.unlocked, h.sent, h.handled, ?_⟩
  rcases h.stage with ⟨hs, hup, hdown⟩ | ⟨rfl, hup, hstage⟩
  · exact .inl ⟨hs, by simp [hup], hdown⟩
  · exact .inr ⟨by simp, by simp [hup], hstage⟩

theorem Handshake.readHeader (h : Handshake me type x w) (hnet : net.Exact limit clean)
    (hl : 8 < limit) (hserver : x.server = .reading) {type' : UInt16} {src : PeerId}
    (hread : readConnHeader net ⟨x.up, frag, 0⟩ = .ok ((type', src), rest)) :
    Handshake me type
      { x with up := rest.bytes, server := .acking type' src connectionAck } w := by
  obtain ⟨hup, hdown⟩ := h.of_reading hserver
  have hlen := congrArg List.length hup
  rw [List.length_append, length_connHeader] at hlen
  by_cases hshort : x.up.length < 8
  · obtain ⟨f, hcut⟩ := readConnHeader_cut hnet hl (s := ⟨x.up, frag, 0⟩) hshort
    simp [hcut] at hread
  · have hw : w = [] := List.eq_nil_of_length_eq_zero (by omega)
    subst hw
    have hbytes : x.up = connHeader type me ++ [] := by simpa using hup
    obtain ⟨s', hok, hs'⟩ := readConnHeader_append hnet hl (s := ⟨x.up, frag, 0⟩) hbytes
    rw [hok] at hread
    simp only [Except.ok.injEq, Prod.mk.injEq] at hread
    obtain ⟨⟨rfl, rfl⟩, rfl⟩ := hread
    exact ⟨h.unlocked, h.sent, h.handled, .inr ⟨rfl, hs', _, by simp [hdown], .inl rfl⟩⟩

theorem Handshake.writeAck (h : Handshake me type x w) {type' : UInt16} {src : PeerId} {a : Bytes}
    (hserver : x.server = .acking type' src a) (k : ℕ) :
    Handshake me type
      { x with down := x.down ++ a.take k, server := .acking type' src (a.drop k) } w := by
  refine ⟨h.unlocked, h.sent, h.handled, .inr ?_⟩
  rcases h.stage with ⟨hs, -⟩ | ⟨hw, hup, a', hdown, hs | ⟨-, hs⟩⟩
  · simp [hserver] at hs
  · simp only [hserver, ServerEnd.acking.injEq] at hs
    obtain ⟨rfl, rfl, rfl⟩ := hs
    exact ⟨hw, hup, _, by simp [hdown], .inl rfl⟩
  · simp [hserver] at hs

theorem Handshake.serve (h : Handshake me type x w) {type' : UInt16} {src : PeerId}
    (hserver : x.server = .acking type' src []) :
    Handshake me type { x with server := .serving type' src } w := by
  refine ⟨h.unlocked, h.sent, h.handled, .inr ?_⟩
  rcases h.stage with ⟨hs, -⟩ | ⟨hw, hup, a', hdown, hs | ⟨-, hs⟩⟩
  · simp [hserver] at hs
  · simp only [hserver, ServerEnd.acking.injEq] at hs
    obtain ⟨rfl, rfl, rfl⟩ := hs
    exact ⟨hw, hup, _, hdown, .inr ⟨rfl, rfl⟩⟩
  · simp [hserver] at hs

/-- When the ack can be read, the connection is open. -/
theorem Handshake.isOpen (h : Handshake me type x []) (hnet : net.Exact limit clean)
    (hl : 8 < limit) (hread : readAck net ⟨x.down, frag, 0⟩ = .ok ((), rest)) :
    Open me type limit { x with down := rest.bytes } := by
  have hlong : ¬x.down.length < 4 := by
    intro hshort
    obtain ⟨f, hcut⟩ := readAck_cut hnet hl (s := ⟨x.down, frag, 0⟩) hshort
    simp [hcut] at hread
  rcases h.stage with ⟨-, -, hdown⟩ | ⟨-, hup, a, hdown, hs⟩
  · simp [hdown] at hlong
  · have hlen := congrArg List.length hdown
    rw [List.length_append, show connectionAck.length = 4 from rfl] at hlen
    have ha : a = [] := List.eq_nil_of_length_eq_zero (by omega)
    subst ha
    have hrest := rest_of_none (x := { x with down := rest.bytes }) h.unlocked
    refine ⟨by simpa using hs, ⟨[], [], h.sent, h.handled, ?_⟩, fun y hy => by simp [h.sent] at hy⟩
    rw [hrest, List.append_nil]
    exact hup

theorem Handshake.not_handle (h : Handshake me type x w) (hnet : net.Exact limit clean)
    (hl : 8 < limit) {type' : UInt16} {src : PeerId} (hserver : x.server = .serving type' src)
    {d : Delivery} : handleNext net ⟨x.up, frag, 0⟩ ≠ .ok (some d, rest) := by
  have hup : x.up = [] := by
    rcases h.stage with ⟨hs, -⟩ | ⟨-, hup, -⟩
    · simp [hserver] at hs
    · exact hup
  rw [hup]
  exact handleNext_ne_some hnet hl

end Dialling

namespace Open

variable {net : Transport} {clean : Prop} {frag : ℕ → ℕ} {rest : Socket}

theorem not_reading (h : Open me type limit x) : x.server ≠ .reading := by
  rcases h.server with hs | hs <;> simp [hs]

theorem serve (h : Open me type limit x) {type' : UInt16} {src : PeerId}
    (hserver : x.server = .acking type' src []) :
    Open me type limit { x with server := .serving type' src } := by
  refine ⟨.inr ?_, h.stream, h.fits⟩
  rcases h.server with hs | hs
  · simp only [hserver, ServerEnd.acking.injEq] at hs
    rw [hs.1, hs.2.1]
  · simp [hserver] at hs

theorem lock (h : Open me type limit x) (hfree : x.holder = none) {i : ι} {p : Packet}
    (hp : p.Fits limit) :
    Open me type limit
      { x with holder := some (i, p.writes), sent := x.sent ++ [(i, p)] } := by
  obtain ⟨done, left, hsent, hhandled, hstream⟩ := h.stream
  rw [rest_of_none hfree, List.append_nil] at hstream
  refine ⟨h.server, ⟨done, left ++ [(i, p)], by simp [hsent], hhandled, ?_⟩, ?_⟩
  · simp [Pipe.rest, Packet.writes, Packet.encode, hstream]
  · simp only [List.mem_append, List.mem_singleton]
    rintro y (hy | rfl)
    · exact h.fits y hy
    · exact hp

/-- What is still to be written of the message may go on its way. -/
theorem move (h : Open me type limit x) (up : Bytes) (holder : Option (ι × List Bytes))
    (hstream : up ++ Pipe.rest { x with holder := holder } = x.up ++ x.rest) :
    Open me type limit { x with up := up, holder := holder } := by
  obtain ⟨done, left, hsent, hhandled, hleft⟩ := h.stream
  exact ⟨h.server, ⟨done, left, hsent, hhandled, hstream.trans hleft⟩, h.fits⟩

theorem write (h : Open me type limit x) {i : ι} {w : Bytes} {ws : List Bytes}
    (hheld : x.holder = some (i, w :: ws)) (k : ℕ) :
    Open me type limit
      { x with up := x.up ++ w.take k, holder := some (i, w.drop k :: ws) } := by
  refine h.move _ _ ?_
  rw [rest_of_holder hheld, rest_of_holder rfl, List.flatten_cons, List.flatten_cons,
    List.append_assoc, ← List.append_assoc (w.take k), List.take_append_drop]

theorem next (h : Open me type limit x) {i : ι} {ws : List Bytes}
    (hheld : x.holder = some (i, [] :: ws)) :
    Open me type limit { x with holder := some (i, ws) } := by
  refine h.move x.up _ ?_
  rw [rest_of_holder hheld, rest_of_holder rfl]
  rfl

theorem unlock (h : Open me type limit x) {i : ι} (hheld : x.holder = some (i, [])) :
    Open me type limit { x with holder := none } := by
  refine h.move x.up _ ?_
  rw [rest_of_holder hheld, rest_of_none rfl]
  rfl

/-- What is handled is the oldest message that has not been handled. -/
theorem handle (h : Open me type limit x) (hnet : net.Exact limit clean) (hl : limit ≤ 2 ^ 32)
    (hfour : 8 < limit) {d : Delivery}
    (hnext : handleNext net ⟨x.up, frag, 0⟩ = .ok (some d, rest)) :
    let y := { x with up := rest.bytes, handled := x.handled ++ [d] }
    Open me type limit y ∧ ∃ z, x.left = z :: y.left ∧ y.done = x.done ++ [z] := by
  obtain ⟨done, left, hsent, hhandled, hstream⟩ := h.stream
  have hprefix : x.up <+: left.flatMap fun y => y.2.encode := ⟨_, hstream⟩
  rw [(done_left hsent hhandled).1, (done_left hsent hhandled).2]
  have hmem : ∀ y ∈ left, y.2.Fits limit := fun y hy => h.fits y (by simp [hsent, hy])
  cases left with
  | nil =>
      have hup : x.up = [] := List.prefix_nil.mp hprefix
      rw [hup] at hnext
      exact absurd hnext (handleNext_ne_some hnet hfour)
  | cons z left =>
      have hz := hmem z List.mem_cons_self
      rcases Framing.split_prefix hprefix with ⟨more, hmore, -⟩ | ⟨hcut, hlt⟩
      · obtain ⟨s', hok, hs'⟩ := hz.handleNext_append hl hnet (s := ⟨x.up, frag, 0⟩) hmore
        rw [hok] at hnext
        simp only [Except.ok.injEq, Prod.mk.injEq, Option.some.injEq] at hnext
        obtain ⟨rfl, rfl⟩ := hnext
        rw [hmore, List.flatMap_cons, List.append_assoc, List.append_cancel_left_eq] at hstream
        have hsent' : x.sent = done ++ [z] ++ left := by simp [hsent]
        have hhandled' : x.handled ++ [z.2.delivery] =
            (done ++ [z]).map fun y => y.2.delivery := by simp [hhandled]
        obtain ⟨hdone, hleft⟩ := done_left
          (x := { x with up := s'.bytes, handled := x.handled ++ [z.2.delivery] }) hsent' hhandled'
        refine ⟨⟨h.server, ⟨_, _, hsent', hhandled', ?_⟩, h.fits⟩, z, ?_, hdone⟩
        · rw [hs', ← hstream]
          rfl
        · rw [hleft]
      · rcases hz.handleNext_cut hl hnet (s := ⟨x.up, frag, 0⟩) hcut hlt with ⟨s', hok⟩ | ⟨f, hok⟩
        · simp [hok] at hnext
        · simp [hok] at hnext

end Open

end Pipe

/-! ## All connections -/

namespace Caller

/-- It holds `mu_`. -/
def Holds : Caller → Prop
  | .require _ _ | .upgrade _ _ _ => True
  | _ => False

/-- The message of the call, before a lock has been taken for it. -/
def packet? : Caller → Option Packet
  | .require _ p | .upgrade _ _ p | .found _ p => some p
  | .idle | .sending _ => none

/-- The connection that it has got. -/
def uses : Caller → Option ℕ
  | .found n _ | .sending n => some n
  | _ => none

end Caller

namespace ClientRun

variable {ι : Type} {me : PeerId} {type : UInt16} {limit : ℕ} {s s' : ClientRun ι}

/-- What holds of a client that is used by threads. -/
structure Inv (me : PeerId) (type : UInt16) (limit : ℕ) (s : ClientRun ι) : Prop where
  holds : ∀ i, (s.caller i).Holds ↔ s.mu = some i
  entered : ∀ key n, s.conns key = some n →
    n < s.dialled ∧ (s.pipe n).remote.hash = key ∧ (s.pipe n).Open me type limit
  dialling : ∀ i n w p, s.caller i = .upgrade n w p →
    n < s.dialled ∧ s.conns (s.pipe n).remote.hash = none ∧ (s.pipe n).Handshake me type w
  known : ∀ n, n < s.dialled →
    s.conns (s.pipe n).remote.hash = some n ∨ ∃ i w p, s.caller i = .upgrade n w p
  uses : ∀ i n, (s.caller i).uses = some n → s.conns (s.pipe n).remote.hash = some n
  sending : ∀ i n, s.caller i = .sending n ↔ ∃ ws, (s.pipe n).holder = some (i, ws)
  fits : ∀ i, (∀ p, (s.caller i).packet? = some p → p.Fits limit) ∧
    ∀ y ∈ s.todo i, y.2.Fits limit

theorem Inv.start {todo : ι → List (PeerId × Packet)}
    (hfits : ∀ i, ∀ y ∈ todo i, y.2.Fits limit) : Inv me type limit (start todo) where
  holds i := by simp [ClientRun.start, Caller.Holds]
  entered key n h := by simp [ClientRun.start] at h
  dialling i n w p h := by simp [ClientRun.start] at h
  known n h := by simp [ClientRun.start] at h
  uses i n h := by simp [ClientRun.start, Caller.uses] at h
  sending i n := by simp [ClientRun.start, Pipe.fresh]
  fits i := ⟨by simp [ClientRun.start, Caller.packet?], hfits i⟩

theorem remote_setPipe {n : ℕ} {x : Pipe ι} (h : x.remote = (s.pipe n).remote) (m : ℕ) :
    ((s.setPipe n x).pipe m).remote = (s.pipe m).remote := by
  by_cases hm : m = n
  · subst hm
    simp [h]
  · simp [hm]

/-- A connection changes, but neither its target nor who holds its lock. -/
theorem Inv.setPipe (h : Inv me type limit s) {n : ℕ} {x : Pipe ι}
    (hremote : x.remote = (s.pipe n).remote)
    (hholder : x.holder.map Prod.fst = (s.pipe n).holder.map Prod.fst)
    (hopen : (s.pipe n).Open me type limit → x.Open me type limit)
    (hshake : ∀ w, (s.pipe n).Handshake me type w → x.Handshake me type w) :
    Inv me type limit (s.setPipe n x) where
  holds := h.holds
  entered key m hm := by
    obtain ⟨hlt, hkey, hm'⟩ := h.entered key m hm
    refine ⟨hlt, by rw [remote_setPipe hremote, hkey], ?_⟩
    by_cases hmn : m = n
    · subst hmn
      simpa using hopen hm'
    · simpa [hmn] using hm'
  dialling i m w p hi := by
    obtain ⟨hlt, hkey, hm⟩ := h.dialling i m w p hi
    refine ⟨hlt, by rw [remote_setPipe hremote]; exact hkey, ?_⟩
    by_cases hmn : m = n
    · subst hmn
      simpa using hshake w hm
    · simpa [hmn] using hm
  known m hm := by
    rw [remote_setPipe hremote]
    exact h.known m hm
  uses i m hi := by
    rw [remote_setPipe hremote]
    exact h.uses i m hi
  sending i m := by
    refine (h.sending i m).trans ?_
    by_cases hmn : m = n
    · subst hmn
      have hiff : ∀ o : Option (ι × List Bytes),
          (∃ ws, o = some (i, ws)) ↔ o.map Prod.fst = some i := by
        rintro (_ | ⟨j, ws⟩) <;> simp
      simp only [pipe_setPipe, if_pos, hiff, hholder]
    · simp [hmn]
  fits := h.fits

/-- Threads that dial go on dialling. -/
theorem Inv.known_of_same {s s' : ClientRun ι} (h : Inv me type limit s)
    (hd : s'.dialled = s.dialled) (hc : s'.conns = s.conns)
    (hp : ∀ n, (s'.pipe n).remote = (s.pipe n).remote)
    (hw : ∀ i n w p, s.caller i = .upgrade n w p → ∃ w', s'.caller i = .upgrade n w' p)
    (n : ℕ) (hn : n < s'.dialled) :
    s'.conns (s'.pipe n).remote.hash = some n ∨ ∃ i w p, s'.caller i = .upgrade n w p := by
  rw [hd] at hn
  rw [hc, hp]
  rcases h.known n hn with hk | ⟨i, w, p, hi⟩
  · exact .inl hk
  · obtain ⟨w', hi'⟩ := hw i n w p hi
    exact .inr ⟨i, w', p, hi'⟩

variable [DecidableEq ι] {i : ι} {r : PeerId} {p : Packet} {n : ℕ}

theorem Inv.call (h : Inv me type limit s) {l : List (PeerId × Packet)} (hi : s.caller i = .idle)
    (htodo : s.todo i = (r, p) :: l) (hmu : s.mu = none) :
    Inv me type limit
      { s.goTo i (.require r p) with todo := Function.update s.todo i l, mu := some i } where
  holds := by
    have := h.holds
    grind [Caller.Holds]
  entered := h.entered
  dialling := by
    have := h.dialling
    grind
  known := h.known_of_same rfl rfl (fun _ => rfl) (by grind)
  uses := by
    have := h.uses
    grind [Caller.uses]
  sending := by
    have := h.sending
    grind
  fits := by
    have := h.fits
    have hp : p.Fits limit := (h.fits i).2 (r, p) (by simp [htodo])
    have hl : ∀ y ∈ l, y.2.Fits limit := fun y hy => (h.fits i).2 y (by simp [htodo, hy])
    grind [Caller.packet?]

theorem Inv.find (h : Inv me type limit s) (hi : s.caller i = .require r p)
    (hn : s.conns r.hash = some n) :
    Inv me type limit { s.goTo i (.found n p) with mu := none } where
  holds := by
    have := h.holds
    grind [Caller.Holds]
  entered := h.entered
  dialling := by
    have := h.dialling
    grind
  known := h.known_of_same rfl rfl (fun _ => rfl) (by grind)
  uses := by
    have hkey := (h.entered _ _ hn).2.1
    have := h.uses
    grind [Caller.uses]
  sending := by
    have := h.sending
    grind
  fits j := by
    have := (h.fits j).1
    exact ⟨by grind [Caller.packet?], (h.fits j).2⟩

theorem Inv.connect (h : Inv me type limit s) (hi : s.caller i = .require r p)
    (hn : s.conns r.hash = none) :
    Inv me type limit
      { (s.goTo i (.upgrade s.dialled (connHeader type me) p)).setPipe s.dialled (.fresh r) with
        dialled := s.dialled + 1 } where
  holds := by
    have := h.holds
    grind [Caller.Holds]
  entered := by
    have := h.entered
    grind
  dialling := by
    have := h.dialling
    have hfresh : (Pipe.fresh r : Pipe ι).Handshake me type (connHeader type me) :=
      ⟨rfl, rfl, rfl, .inl ⟨rfl, rfl, rfl⟩⟩
    have hremote : (Pipe.fresh r : Pipe ι).remote = r := rfl
    grind
  known m hm := by
    by_cases hmd : m = s.dialled
    · subst hmd
      exact .inr ⟨i, connHeader type me, p, by simp⟩
    · rcases h.known m (by grind) with hk | ⟨j, w, q, hj⟩
      · exact .inl (by simpa [hmd] using hk)
      · exact .inr ⟨j, w, q, by grind⟩
  uses := by
    have := h.uses
    have := h.entered
    grind [Caller.uses]
  sending := by
    have := h.sending
    have := h.uses
    have := h.entered
    have hremote : (Pipe.fresh r : Pipe ι).holder = none := rfl
    grind [Caller.uses]
  fits j := by
    have := (h.fits j).1
    exact ⟨by grind [Caller.packet?], (h.fits j).2⟩

theorem Inv.writeHeader (h : Inv me type limit s) {w : Bytes} (hi : s.caller i = .upgrade n w p)
    (k : ℕ) :
    Inv me type limit ((s.goTo i (.upgrade n (w.drop k) p)).setPipe n
      { s.pipe n with up := (s.pipe n).up ++ w.take k }) where
  holds := by
    have := h.holds
    grind [Caller.Holds]
  entered := by
    have := h.entered
    have := h.dialling
    grind
  dialling := by
    have := h.dialling
    have hn := ((h.dialling i n w p hi).2.2).write k
    -- no other thread dials
    have := h.holds
    grind [Caller.Holds]
  known := h.known_of_same rfl rfl (remote_setPipe rfl) (by grind)
  uses := by
    have := h.uses
    grind [Caller.uses]
  sending := by
    have := h.sending
    grind
  fits j := by
    have := (h.fits j).1
    exact ⟨by grind [Caller.packet?], (h.fits j).2⟩

omit [DecidableEq ι] in
/-- One thread dials at a time. -/
theorem Inv.dials_unique (h : Inv me type limit s) {w w' : Bytes} {q : Packet} {j : ι} {m : ℕ}
    (hi : s.caller i = .upgrade n w p) (hj : s.caller j = .upgrade m w' q) : j = i ∧ m = n := by
  have hmi := (h.holds i).mp (by rw [hi]; trivial)
  have hmj := (h.holds j).mp (by rw [hj]; trivial)
  rw [hmi, Option.some.injEq] at hmj
  subst hmj
  rw [hi, Caller.upgrade.injEq] at hj
  exact ⟨rfl, hj.1.symm⟩

/-- The thread has the connection now. -/
theorem Inv.enter (h : Inv me type limit s) (hi : s.caller i = .upgrade n [] p) {down : Bytes}
    (hopen : Pipe.Open me type limit { s.pipe n with down := down }) :
    Inv me type limit { (s.goTo i (.found n p)).setPipe n { s.pipe n with down := down } with
      conns := Function.update s.conns (s.pipe n).remote.hash (some n), mu := none } where
  holds := by
    have := h.holds
    grind [Caller.Holds]
  entered := by
    have := h.entered
    have := h.dialling
    grind
  dialling j m w q hj := by
    by_cases hji : j = i
    · simp [hji] at hj
    · exact absurd (h.dials_unique hi (by simpa [hji] using hj)).1 hji
  known m hm := by
    have hnone := (h.dialling i n [] p hi).2.1
    have hconn : Function.update s.conns (s.pipe n).remote.hash (some n) (s.pipe m).remote.hash =
        some m := by
      rcases h.known m hm with hk | ⟨j, w, q, hj⟩
      · rw [Function.update_of_ne, hk]
        intro heq
        rw [heq, hnone] at hk
        simp at hk
      · obtain ⟨-, rfl⟩ := h.dials_unique hi hj
        rw [Function.update_self]
    have hremote := remote_setPipe (s := s.goTo i (.found n p)) (n := n)
      (x := { s.pipe n with down := down }) rfl m
    refine .inl ?_
    dsimp only
    rw [hremote]
    exact hconn
  uses j m hj := by
    have hremote := remote_setPipe (s := s.goTo i (.found n p)) (n := n)
      (x := { s.pipe n with down := down }) rfl m
    dsimp only
    rw [hremote]
    by_cases hji : j = i
    · obtain rfl : n = m := by simpa [hji, Caller.uses] using hj
      exact Function.update_self ..
    · have hk := h.uses j m (by simpa [hji] using hj)
      rw [pipe_goTo, Function.update_of_ne, hk]
      intro heq
      rw [heq, (h.dialling i n [] p hi).2.1] at hk
      simp at hk
  sending := by
    have := h.sending
    grind
  fits j := by
    have := (h.fits j).1
    exact ⟨by grind [Caller.packet?], (h.fits j).2⟩

theorem Inv.lock (h : Inv me type limit s) (hi : s.caller i = .found n p)
    (hfree : (s.pipe n).holder = none) :
    Inv me type limit ((s.goTo i (.sending n)).setPipe n { s.pipe n with
      holder := some (i, p.writes), sent := (s.pipe n).sent ++ [(i, p)] }) where
  holds := by
    have := h.holds
    grind [Caller.Holds]
  entered := by
    have hopen := (h.entered _ n (h.uses i n (by simp [hi, Caller.uses]))).2.2
    have hlock := hopen.lock hfree (i := i) ((h.fits i).1 p (by simp [hi, Caller.packet?]))
    have := h.entered
    grind
  dialling := by
    have := h.dialling
    have := h.uses i n (by simp [hi, Caller.uses])
    grind
  known := h.known_of_same rfl rfl (remote_setPipe rfl) (by grind)
  uses := by
    have := h.uses
    grind [Caller.uses]
  sending := by
    have := h.sending
    grind
  fits j := by
    have := (h.fits j).1
    exact ⟨by grind [Caller.packet?], (h.fits j).2⟩

theorem Inv.unlock (h : Inv me type limit s) (hheld : (s.pipe n).holder = some (i, [])) :
    Inv me type limit ((s.goTo i .idle).setPipe n { s.pipe n with holder := none }) where
  holds := by
    have := h.holds
    have hi := (h.sending i n).mpr ⟨[], hheld⟩
    grind [Caller.Holds]
  entered := by
    have hopen := fun ho : (s.pipe n).Open me type limit => ho.unlock hheld
    have := h.entered
    grind
  dialling := by
    have := h.dialling
    have hunlocked := fun w (hn : (s.pipe n).Handshake me type w) => hn.unlocked
    grind
  known := h.known_of_same rfl rfl (remote_setPipe rfl) (by
    have hi := (h.sending i n).mpr ⟨[], hheld⟩
    grind)
  uses := by
    have := h.uses
    grind [Caller.uses]
  sending j m := by
    have hi := (h.sending i n).mpr ⟨[], hheld⟩
    have := h.sending j m
    have := h.sending j n
    have := h.sending i m
    grind
  fits j := by
    have := (h.fits j).1
    exact ⟨by grind [Caller.packet?], (h.fits j).2⟩

variable {net : Transport} {clean : Prop} {write : ℕ → ℕ → Prop} {listening : PeerId → Prop}

/-- **Every step keeps the invariant.** -/
theorem Inv.step (h : Inv me type limit s) (hnet : net.Exact limit clean) (hl : limit ≤ 2 ^ 32)
    (hfour : 8 < limit) (hs : Step net write me type listening s s') : Inv me type limit s' := by
  cases hs with
  | call hi htodo hmu => exact h.call hi htodo hmu
  | found hi hn => exact h.find hi hn
  | connect hi hn _ => exact h.connect hi hn
  | writeHeader hi _ _ => exact h.writeHeader hi _
  | readHeader _ hserver hread =>
      exact h.setPipe rfl rfl (fun ho => absurd hserver ho.not_reading)
        fun w hw => hw.readHeader hnet hfour hserver hread
  | writeAck _ hserver hne _ =>
      refine h.setPipe rfl rfl (fun ho => ?_) fun w hw => hw.writeAck hserver _
      rcases ho.server with hs | hs <;> simp [hserver, hne] at hs
  | serve _ hserver =>
      exact h.setPipe rfl rfl (fun ho => ho.serve hserver) fun w hw => hw.serve hserver
  | readAck hi hread =>
      exact h.enter hi ((h.dialling _ _ _ _ hi).2.2.isOpen hnet hfour hread)
  | lock hi hfree => exact h.lock hi hfree
  | write hheld _ _ =>
      refine h.setPipe rfl (by simp [hheld]) (fun ho => ho.write hheld _) fun w hw => ?_
      simp [hw.unlocked] at hheld
  | next hheld =>
      refine h.setPipe rfl (by simp [hheld]) (fun ho => ho.next hheld) fun w hw => ?_
      simp [hw.unlocked] at hheld
  | unlock hheld => exact h.unlock hheld
  | handle _ hserver hnext =>
      refine h.setPipe rfl rfl (fun ho => ?_) fun w hw =>
        absurd hnext (hw.not_handle hnet hfour hserver)
      exact (ho.handle hnet hl hfour hnext).1

end ClientRun

end StdmlCollective

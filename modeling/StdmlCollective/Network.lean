import Mathlib.Algebra.GroupWithZero.Nat
import Mathlib.Data.List.Basic
import Mathlib.Data.List.TakeWhile
import Mathlib.Logic.Function.Basic
import Mathlib.Logic.Relation

/-!
# Peers, connections, handlers and boxes

The message layer under the collectives, as a transition system. A peer runs the
fork-join sections of its program (`fmap` over the pool or over fresh threads, then
join) and owns a `mailbox` and a `slotbox`, both keyed by the id of the sender and the
name of the message and holding channels of capacity one. For every connection that
reaches it a handler thread (`handle_to_end` with the collective message handler)
takes one message after the other and blocks in `mailbox` put or `slotbox` put.

Connections carry whole messages, in order and without loss; that the byte stream
delivers exactly these is the business of the framing.

The machine is generic in what a peer stores and in what its threads compute. Two
fields are auxiliary, written and never read: the `time` of a section, which says where
the section stands in the order of the whole run, and the `src` and `time` of a message,
which say where it comes from.
-/

namespace StdmlCollective

/-- `std::string`, and raw memory on its way from one buffer to another. -/
abbrev Bytes := List UInt8

/-- An address in the memory of a peer (`void *`). -/
abbrev Addr := ℕ

/-- `std::string::c_str` read back with `strlen`: everything before the first NUL. -/
def cStr (name : Bytes) : Bytes := name.takeWhile (· ≠ 0)

/-- A name that survives `cStr`. -/
def NulFree (name : Bytes) : Prop := ∀ c ∈ name, c ≠ 0

instance (name : Bytes) : Decidable (NulFree name) :=
  List.decidableBAll (fun c => c ≠ 0) name

theorem cStr_eq_self {name : Bytes} (h : NulFree name) : cStr name = name := by
  simpa [cStr, List.takeWhile_eq_self_iff, NulFree] using h

/-- The bytes `connection_impl::send` writes for a buffer: the size is narrowed to the
`uint32_t` of `message::len`. -/
def wireData (data : Bytes) : Bytes := data.take (data.length % 2 ^ 32)

theorem wireData_eq_self {data : Bytes} (h : data.length < 2 ^ 32) : wireData data = data := by
  rw [wireData, Nat.mod_eq_of_lt h, List.take_length]

/-- `message_header::wait_recv_buf`. -/
def waitRecvBuf : UInt32 := 1

/-- The capacity of every channel of a box (`channel(size_t cap = 1)`). -/
def cap : ℕ := 1

section Types

variable (P Id T S O : Type)

/-- A message on a connection or in a mailbox. `src` and `time` are auxiliary. -/
structure Message where
  name : Bytes
  flags : UInt32
  data : Bytes
  src : P
  time : T

/-- Where the handler thread of one connection is: between two messages, before
`mailbox` put, before `waitQ.get`, before `read_body(ptr)`, before `recvQ.put`. -/
inductive Handler where
  | idle
  | mail (m : Message P T)
  | slot (m : Message P T)
  | write (m : Message P T) (ptr : Addr)
  | done (m : Message P T) (ptr : Addr)

/-- A thread of a section: what it still has to do.

* `send` — `client->send(id, name.c_str(), data, size, flags)`;
* `mailGet` — `mailbox_->require(id, name)->get()`, then `mailGot`: `add` the buffer;
* `slotGet` — `slotbox_->require(id, name)->get(ptr)`: put `ptr` in `waitQ`, then
  `slotWait`: take it from `recvQ`;
* `act` — work on the peer's own memory;
* `ret` — call number `i` returns and the application sees `f` of the store;
* `launch` — a process that is started once one of `qs` is past time `t`;
* `throws` — an exception: the thread never finishes. -/
inductive Thread where
  | send (id : P) (name : Bytes) (flags : UInt32) (data : S → Bytes)
  | mailGet (id : P) (name : Bytes) (add : Bytes → S → S)
  | mailGot (id : P) (name : Bytes) (add : Bytes → S → S) (m : Message P T)
  | slotGet (id : P) (name : Bytes) (ptr : Addr)
  | slotWait (id : P) (name : Bytes) (ptr : Addr)
  | act (f : S → S)
  | ret (i : ℕ) (f : S → O)
  | launch (qs : List P) (t : T)
  | throws

/-- Threads started together and joined together. -/
structure Par where
  time : T
  threads : List (Thread P T S O)

/-- A peer process: its remaining program, its memory, what its calls have returned,
its boxes, and for every other peer the connection from it with its handler. -/
structure Node where
  code : List (Par P T S O)
  store : S
  returned : List (ℕ × O)
  mailbox : Id → Bytes → List (Message P T)
  waitQ : Id → Bytes → List Addr
  recvQ : Id → Bytes → List Addr
  handler : P → Handler P T
  conn : P → List (Message P T)

end Types

variable {P Id T S O : Type}

/-- `mh.flags & wait_recv_buf`. -/
def Message.waits (m : Message P T) : Bool := m.flags &&& waitRecvBuf != 0

/-- What the handler does with a header: a slot message waits for a buffer, any other
is read into a buffer of its own. -/
def Handler.take (m : Message P T) : Handler P T := if m.waits then .slot m else .mail m

/-- What a node shows to the others when it takes a step. -/
inductive Event (P T : Type) where
  | tau
  | send (id : P) (m : Message P T)
  | launch (qs : List P) (t : T)

/-- Replace the channel of one key of a box. -/
def setBox {α : Type} [DecidableEq Id] (b : Id → Bytes → α) (x : Id) (n : Bytes) (v : α) :
    Id → Bytes → α :=
  fun x' n' => if x' = x ∧ n' = n then v else b x' n'

section setBox
variable {α : Type} [DecidableEq Id] (b : Id → Bytes → α) (x : Id) (n : Bytes) (v : α)

@[simp] theorem setBox_self : setBox b x n v x n = v := by simp [setBox]

theorem setBox_ne {x' : Id} {n' : Bytes} (h : ¬(x' = x ∧ n' = n)) :
    setBox b x n v x' n' = b x' n' := by simp [setBox, h]

end setBox

section Step

variable [DecidableEq P] [DecidableEq Id] (ident : P → Id) (write : Addr → Bytes → S → S)

/-- The steps of one node, `self` being its name. The first constructors are steps of
the threads of the current section, the last five those of a handler. -/
inductive NStep (self : P) : Node P Id T S O → Event P T → Node P Id T S O → Prop where
  | join {x : Node P Id T S O} {t : T} {bs : List (Par P T S O)} :
      x.code = ⟨t, []⟩ :: bs → NStep self x .tau { x with code := bs }
  | send {x : Node P Id T S O} {t : T} {l₁ l₂ : List (Thread P T S O)} {bs : List (Par P T S O)}
      {id : P} {name : Bytes} {flags : UInt32} {data : S → Bytes} :
      x.code = ⟨t, l₁ ++ .send id name flags data :: l₂⟩ :: bs →
      NStep self x (.send id ⟨cStr name, flags, wireData (data x.store), self, t⟩)
        { x with code := ⟨t, l₁ ++ l₂⟩ :: bs }
  | mailGet {x : Node P Id T S O} {t : T} {l₁ l₂ : List (Thread P T S O)}
      {bs : List (Par P T S O)} {id : P} {name : Bytes} {add : Bytes → S → S}
      {m : Message P T} {q : List (Message P T)} :
      x.code = ⟨t, l₁ ++ .mailGet id name add :: l₂⟩ :: bs →
      x.mailbox (ident id) name = m :: q →
      NStep self x .tau
        { x with
          code := ⟨t, l₁ ++ .mailGot id name add m :: l₂⟩ :: bs
          mailbox := setBox x.mailbox (ident id) name q }
  | mailGot {x : Node P Id T S O} {t : T} {l₁ l₂ : List (Thread P T S O)}
      {bs : List (Par P T S O)} {id : P} {name : Bytes} {add : Bytes → S → S}
      {m : Message P T} :
      x.code = ⟨t, l₁ ++ .mailGot id name add m :: l₂⟩ :: bs →
      NStep self x .tau
        { x with code := ⟨t, l₁ ++ l₂⟩ :: bs, store := add m.data x.store }
  | slotGet {x : Node P Id T S O} {t : T} {l₁ l₂ : List (Thread P T S O)}
      {bs : List (Par P T S O)} {id : P} {name : Bytes} {ptr : Addr} :
      x.code = ⟨t, l₁ ++ .slotGet id name ptr :: l₂⟩ :: bs →
      (x.waitQ (ident id) name).length < cap →
      NStep self x .tau
        { x with
          code := ⟨t, l₁ ++ .slotWait id name ptr :: l₂⟩ :: bs
          waitQ := setBox x.waitQ (ident id) name (x.waitQ (ident id) name ++ [ptr]) }
  -- `assert(p == q)` in `queue_pair::get`: the thread goes on only with its own pointer
  | slotWait {x : Node P Id T S O} {t : T} {l₁ l₂ : List (Thread P T S O)}
      {bs : List (Par P T S O)} {id : P} {name : Bytes} {ptr : Addr} {q : List Addr} :
      x.code = ⟨t, l₁ ++ .slotWait id name ptr :: l₂⟩ :: bs →
      x.recvQ (ident id) name = ptr :: q →
      NStep self x .tau
        { x with
          code := ⟨t, l₁ ++ l₂⟩ :: bs
          recvQ := setBox x.recvQ (ident id) name q }
  | act {x : Node P Id T S O} {t : T} {l₁ l₂ : List (Thread P T S O)} {bs : List (Par P T S O)}
      {f : S → S} :
      x.code = ⟨t, l₁ ++ .act f :: l₂⟩ :: bs →
      NStep self x .tau { x with code := ⟨t, l₁ ++ l₂⟩ :: bs, store := f x.store }
  | ret {x : Node P Id T S O} {t : T} {l₁ l₂ : List (Thread P T S O)} {bs : List (Par P T S O)}
      {i : ℕ} {f : S → O} :
      x.code = ⟨t, l₁ ++ .ret i f :: l₂⟩ :: bs →
      NStep self x .tau
        { x with code := ⟨t, l₁ ++ l₂⟩ :: bs, returned := x.returned ++ [(i, f x.store)] }
  | launch {x : Node P Id T S O} {t u : T} {l₁ l₂ : List (Thread P T S O)}
      {bs : List (Par P T S O)} {qs : List P} :
      x.code = ⟨t, l₁ ++ .launch qs u :: l₂⟩ :: bs →
      NStep self x (.launch qs u) { x with code := ⟨t, l₁ ++ l₂⟩ :: bs }
  | header {x : Node P Id T S O} {s : P} {m : Message P T} {ms : List (Message P T)} :
      x.handler s = .idle → x.conn s = m :: ms →
      NStep self x .tau
        { x with
          handler := Function.update x.handler s (Handler.take m)
          conn := Function.update x.conn s ms }
  | mailPut {x : Node P Id T S O} {s : P} {m : Message P T} :
      x.handler s = .mail m → (x.mailbox (ident s) m.name).length < cap →
      NStep self x .tau
        { x with
          handler := Function.update x.handler s .idle
          mailbox := setBox x.mailbox (ident s) m.name (x.mailbox (ident s) m.name ++ [m]) }
  | slotTake {x : Node P Id T S O} {s : P} {m : Message P T} {ptr : Addr} {q : List Addr} :
      x.handler s = .slot m → x.waitQ (ident s) m.name = ptr :: q →
      NStep self x .tau
        { x with
          handler := Function.update x.handler s (.write m ptr)
          waitQ := setBox x.waitQ (ident s) m.name q }
  | body {x : Node P Id T S O} {s : P} {m : Message P T} {ptr : Addr} :
      x.handler s = .write m ptr →
      NStep self x .tau
        { x with
          handler := Function.update x.handler s (.done m ptr)
          store := write ptr m.data x.store }
  | slotPut {x : Node P Id T S O} {s : P} {m : Message P T} {ptr : Addr} :
      x.handler s = .done m ptr → (x.recvQ (ident s) m.name).length < cap →
      NStep self x .tau
        { x with
          handler := Function.update x.handler s .idle
          recvQ := setBox x.recvQ (ident s) m.name (x.recvQ (ident s) m.name ++ [ptr]) }

/-- All peers of a run. -/
abbrev Cluster (P Id T S O : Type) := P → Node P Id T S O

/-- Peer `q` is past every section up to time `t`. -/
def Cluster.Passed [LT T] (c : Cluster P Id T S O) (q : P) (t : T) : Prop :=
  ∀ b ∈ (c q).code, t < b.time

/-- The message `m` from `p` arrives at the end of the connection to this node. -/
def Node.receive (x : Node P Id T S O) (p : P) (m : Message P T) : Node P Id T S O :=
  { x with conn := Function.update x.conn p (x.conn p ++ [m]) }

/-- One step of the run: one node moves, and a message it sends joins the connection. -/
inductive CStep [LT T] : Cluster P Id T S O → Cluster P Id T S O → Prop where
  | tau {c : Cluster P Id T S O} {p : P} {x : Node P Id T S O} :
      NStep ident write p (c p) .tau x → CStep c (Function.update c p x)
  | launch {c : Cluster P Id T S O} {p : P} {x : Node P Id T S O} {qs : List P} {t : T} :
      NStep ident write p (c p) (.launch qs t) x → (∃ q ∈ qs, c.Passed q t) →
      CStep c (Function.update c p x)
  | send {c c' : Cluster P Id T S O} {p id : P} {x : Node P Id T S O} {m : Message P T} :
      NStep ident write p (c p) (.send id m) x → c' = Function.update c p x →
      CStep c (Function.update c' id ((c' id).receive p m))

/-- A fresh process: empty boxes, no connection in use. -/
def Node.fresh (code : List (Par P T S O)) (σ : S) : Node P Id T S O where
  code := code
  store := σ
  returned := []
  mailbox _ _ := []
  waitQ _ _ := []
  recvQ _ _ := []
  handler _ := .idle
  conn _ := []

/-- All peers at the start of a run. -/
def Cluster.start (prog : P → List (Par P T S O)) (σ : P → S) : Cluster P Id T S O :=
  fun p => Node.fresh (prog p) (σ p)

/-- The states a run can reach: every interleaving of peers, threads and handlers. -/
def CReach [LT T] (prog : P → List (Par P T S O)) (σ : P → S) (c : Cluster P Id T S O) : Prop :=
  Relation.ReflTransGen (CStep ident write) (Cluster.start prog σ) c

end Step

/-- Every peer has run its program to the end. -/
def Cluster.Final (c : Cluster P Id T S O) : Prop := ∀ p, (c p).code = []

/-- No connection, no handler and no channel of a box holds anything. -/
def Cluster.Drained (c : Cluster P Id T S O) : Prop :=
  ∀ p, (∀ s, (c p).conn s = [] ∧ (c p).handler s = .idle) ∧
    ∀ x n, (c p).mailbox x n = [] ∧ (c p).waitQ x n = [] ∧ (c p).recvQ x n = []

end StdmlCollective

import Mathlib.Data.List.Nodup
import StdmlCollective.Lib.Contract
import StdmlCollective.Network

/-!
# A node stands for a process of a block network

A receive, through the mailbox or through a slot, is a receive from a FIFO link: the
link of the ordered pair `(s, d)` consists of the message a thread of `d` has in hand,
the messages of `s` in the mailbox of `d`, the message the handler holds and the
connection, in this order. `NSim` states it, together with what the two queues of every
slot hold, and `NSim.tau`, `NSim.send`, `NSim.launch` and `NSim.receive` show that every
step of a node is a step of the process it stands for or none at all.

The link sees the senders, the boxes see only their ids; `ExclOk` is what the network
has to guarantee when two senders share an id.
-/

namespace StdmlCollective

open BlockNet (Job Block Proc LStep setPair setPair_self setPair_ne)

variable {P Id T S O : Type}

/-! ## Programs as block programs -/

/-- What decides which box a message goes to: its name, and whether it is for a slot. -/
abbrev Key := Bytes × Bool

/-- `flags & wait_recv_buf`. -/
def waitsFlag (flags : UInt32) : Bool := flags &&& waitRecvBuf != 0

/-- A message as a packet of the link. -/
def Message.packet (m : Message P T) : BlockNet.Packet T Key Bytes :=
  ⟨m.time, (m.name, m.waits), m.data⟩

@[simp] theorem Message.tag_packet (m : Message P T) :
    m.packet.tag = (m.time, (m.name, m.waits)) := rfl

/-- A thread as a job; a receive is one job, however far it has come. -/
def Thread.job (write : Addr → Bytes → S → S) (t : T) :
    Thread P T S O → Job P T Key Bytes S O
  | .send id name flags data => .send id (cStr name, waitsFlag flags) fun σ => wireData (data σ)
  | .mailGet id name add => .recv id (name, false) add
  | .mailGot id name add _ => .recv id (name, false) add
  | .slotGet id name ptr => .recv id (name, true) (write ptr)
  | .slotWait id name ptr => .recv id (name, true) (write ptr)
  | .act f => .act f
  | .ret i f => .emit i f
  | .launch qs u => .await qs u
  | .throws => .await [] t

@[simp] theorem Thread.job_act (write : Addr → Bytes → S → S) (t : T) (f : S → S) :
    Thread.job write t (.act f : Thread P T S O) = .act f := rfl

@[simp] theorem Thread.job_ret (write : Addr → Bytes → S → S) (t : T) (i : ℕ) (f : S → O) :
    Thread.job write t (.ret i f : Thread P T S O) = .emit i f := rfl

@[simp] theorem Thread.job_launch (write : Addr → Bytes → S → S) (t u : T) (qs : List P) :
    Thread.job write t (.launch qs u : Thread P T S O) = .await qs u := rfl

/-- A section as a block. -/
def Par.block (write : Addr → Bytes → S → S) (b : Par P T S O) : Block P T Key Bytes S O :=
  ⟨b.time, b.threads.map (Thread.job write b.time)⟩

/-- A program as a block program. -/
def blocks (write : Addr → Bytes → S → S) (bs : List (Par P T S O)) :
    List (Block P T Key Bytes S O) :=
  bs.map (Par.block write)

/-! ## The parts of a node that a receive goes through -/

/-- The message a handler holds and has not delivered. -/
def Handler.held : Handler P T → List (Message P T)
  | .mail m | .slot m | .write m _ => [m]
  | .idle | .done _ _ => []

@[simp] theorem Handler.held_idle : (Handler.idle : Handler P T).held = [] := rfl
@[simp] theorem Handler.held_mail (m : Message P T) : (Handler.mail m).held = [m] := rfl
@[simp] theorem Handler.held_slot (m : Message P T) : (Handler.slot m).held = [m] := rfl
@[simp] theorem Handler.held_write (m : Message P T) (p : Addr) :
    (Handler.write m p).held = [m] := rfl
@[simp] theorem Handler.held_done (m : Message P T) (p : Addr) :
    (Handler.done m p).held = [] := rfl

@[simp] theorem Handler.held_take (m : Message P T) : (Handler.take m).held = [m] := by
  unfold Handler.take
  split <;> rfl

/-- The handler has taken a pointer from `waitQ` and not yet put it in `recvQ`. -/
def Handler.busy : Handler P T → Bool
  | .write _ _ | .done _ _ => true
  | _ => false

/-- The handler has written the body and not yet signalled it. -/
def Handler.isDone : Handler P T → Bool
  | .done _ _ => true
  | _ => false

theorem Handler.isDone_of_busy {h : Handler P T} (hb : h.busy = false) : h.isDone = false := by
  cases h <;> simp_all [Handler.busy, Handler.isDone]

/-- The kind of a message fits the branch the handler took. -/
def Handler.Fits : Handler P T → Prop
  | .idle => True
  | .mail m => m.waits = false
  | .slot m | .write m _ | .done m _ => m.waits = true

/-- The peer a thread receives from. -/
def Thread.from? : Thread P T S O → Option P
  | .mailGet id _ _ | .mailGot id _ _ _ | .slotGet id _ _ | .slotWait id _ _ => some id
  | _ => none

/-- A thread that has not begun. -/
def Thread.Fresh : Thread P T S O → Prop
  | .mailGot _ _ _ _ | .slotWait _ _ _ => False
  | _ => True

/-- A thread that has not begun and waits for nobody to be launched. -/
def Thread.Plain : Thread P T S O → Prop
  | .mailGot _ _ _ _ | .slotWait _ _ _ | .launch _ _ => False
  | _ => True

theorem Thread.Plain.fresh {th : Thread P T S O} (h : th.Plain) : th.Fresh := by
  cases th <;> simp_all [Thread.Plain, Thread.Fresh]

/-- The slot receive of a thread that has posted its pointer. -/
def Thread.slot? : Thread P T S O → Option (P × Bytes × Addr)
  | .slotWait id name ptr => some (id, name, ptr)
  | _ => none

/-- The message a thread has taken from the mailbox, with the peer it asked for. -/
def Thread.hand? : Thread P T S O → Option (P × Message P T)
  | .mailGot id _ _ m => some (id, m)
  | _ => none

/-- The threads of the current section. -/
def Node.threads (x : Node P Id T S O) : List (Thread P T S O) :=
  match x.code with
  | [] => []
  | b :: _ => b.threads

/-- The posted slot receives of a node. -/
def Node.waiting (x : Node P Id T S O) : List (P × Bytes × Addr) :=
  x.threads.filterMap Thread.slot?

/-- The messages its threads have in hand. -/
def Node.hand (x : Node P Id T S O) : List (P × Message P T) := x.threads.filterMap Thread.hand?

section Sim

variable [DecidableEq P] (ident : P → Id) (write : Addr → Bytes → S → S)

/-- The body of the slot receive from `id` has been written. -/
def Node.written (x : Node P Id T S O) (id : P) (name : Bytes) : Bool :=
  (x.handler id).isDone || !(x.recvQ (ident id) name).isEmpty

/-- The thread still has a receive to make, or is no receive. -/
def Node.live (x : Node P Id T S O) : Thread P T S O → Bool
  | .slotWait id name _ => !x.written ident id name
  | _ => true

/-- The block program a node still has to run. -/
def Node.abs (x : Node P Id T S O) : List (Block P T Key Bytes S O) :=
  match x.code with
  | [] => []
  | b :: bs => ⟨b.time, (b.threads.filter (x.live ident)).map (Thread.job write b.time)⟩ ::
      blocks write bs

/-- What the queues of the slots hold: a posted pointer is in `waitQ`, with the handler,
or in `recvQ`, and nothing else is anywhere. -/
structure Slots (W : List (P × Bytes × Addr)) (wq rq : Id → Bytes → List Addr)
    (h : P → Handler P T) : Prop where
  posted : ∀ id n p, (id, n, p) ∈ W →
    (wq (ident id) n = [p] ∧ rq (ident id) n = [] ∧ (h id).busy = false) ∨
    (wq (ident id) n = [] ∧ rq (ident id) n = [] ∧ ∃ m, h id = .write m p ∧ m.name = n) ∨
    (wq (ident id) n = [] ∧ rq (ident id) n = [] ∧ ∃ m, h id = .done m p ∧ m.name = n) ∨
    (wq (ident id) n = [] ∧ rq (ident id) n = [p] ∧ (h id).busy = false)
  empty : ∀ x n, (∀ id p, (id, n, p) ∈ W → ident id ≠ x) → wq x n = [] ∧ rq x n = []
  busy : ∀ id m p, h id = .write m p ∨ h id = .done m p → (id, m.name, p) ∈ W

/-- What the mailbox, the handlers and the connections hold: `D x` is what has been put
under id `x` and not yet taken, in the order it was put. -/
structure Pipes (D : Id → List (Message P T)) (H : List (P × Message P T))
    (mb : Id → Bytes → List (Message P T)) (h : P → Handler P T) (cn : P → List (Message P T))
    (lk : P → List (BlockNet.Packet T Key Bytes)) : Prop where
  box : ∀ x n, mb x n = (D x).filter (·.name = n)
  dep : ∀ x, ∀ m ∈ D x, ident m.src = x ∧ m.waits = false
  link : ∀ s, lk s = ((H.filter (·.1 = s)).map Prod.snd ++ (D (ident s)).filter (·.src = s) ++
    (h s).held ++ cn s).map Message.packet
  src : ∀ s, ∀ m ∈ (h s).held ++ cn s, m.src = s
  fits : ∀ s, (h s).Fits
  got : ∀ e ∈ H, e.2.src = e.1

/-- A node, and the process of the block network it stands for. -/
structure NSim (x : Node P Id T S O) (a : Proc P T Key Bytes S O) (o : List (ℕ × O))
    (lk : P → List (BlockNet.Packet T Key Bytes)) : Prop where
  code : a.blocks = x.abs ident write
  store : a.store = x.store
  out : o = x.returned
  fresh : ∀ b ∈ x.code.tail, ∀ th ∈ b.threads, th.Fresh
  tidy : ∀ b ∈ x.code, ((b.threads.filterMap Thread.from?).map ident).Nodup
  slots : Slots ident x.waiting x.waitQ x.recvQ x.handler
  pipes : ∃ D, Pipes ident D x.hand x.mailbox x.handler x.conn lk

end Sim

/-! ## Threads of the current section -/

theorem Thread.live_of_fresh (ident : P → Id) (x : Node P Id T S O)
    {th : Thread P T S O} (h : th.Fresh) : x.live ident th = true := by
  cases th <;> simp_all [Node.live, Thread.Fresh]

theorem from?_of_slot? {th : Thread P T S O} {id : P} {n : Bytes} {p : Addr}
    (h : th.slot? = some (id, n, p)) : th.from? = some id ∧ th = .slotWait id n p := by
  cases th <;> simp_all [Thread.slot?, Thread.from?]

theorem from?_of_hand? {th : Thread P T S O} {id : P} {m : Message P T}
    (h : th.hand? = some (id, m)) : th.from? = some id := by
  cases th <;> simp_all [Thread.hand?, Thread.from?]

/-- The id a thread of a section receives from belongs to no other thread of it. -/
theorem ident_ne_of_nodup (ident : P → Id) {l₁ l₂ : List (Thread P T S O)} {th : Thread P T S O}
    (h : (((l₁ ++ th :: l₂).filterMap Thread.from?).map ident).Nodup) {id : P}
    (hth : th.from? = some id) {th' : Thread P T S O} (hmem : th' ∈ l₁ ++ l₂) {id' : P}
    (hth' : th'.from? = some id') : ident id' ≠ ident id := by
  have hp : (((l₁ ++ th :: l₂).filterMap Thread.from?).map ident).Perm
      (ident id :: ((l₁ ++ l₂).filterMap Thread.from?).map ident) := by
    simp [hth, List.perm_middle]
  intro heq
  have hnd := hp.nodup_iff.mp h
  rw [List.nodup_cons] at hnd
  apply hnd.1
  rw [← heq]
  exact List.mem_map_of_mem (List.mem_filterMap.mpr ⟨th', hmem, hth'⟩)

section Live

variable (ident : P → Id) (write : Addr → Bytes → S → S)

/-- The jobs of the threads that still have something to do. -/
def Node.jobs (x : Node P Id T S O) (t : T) (l : List (Thread P T S O)) :
    List (Job P T Key Bytes S O) :=
  (l.filter (x.live ident)).map (Thread.job write t)

@[simp] theorem Node.jobs_append (x : Node P Id T S O) (t : T) (l₁ l₂ : List (Thread P T S O)) :
    x.jobs ident write t (l₁ ++ l₂) = x.jobs ident write t l₁ ++ x.jobs ident write t l₂ := by
  simp [Node.jobs]

theorem Node.jobs_cons_of_live {x : Node P Id T S O} {th : Thread P T S O} (t : T)
    (l : List (Thread P T S O)) (h : x.live ident th = true) :
    x.jobs ident write t (th :: l) = th.job write t :: x.jobs ident write t l := by
  simp [Node.jobs, h]

theorem Node.jobs_cons_of_not_live {x : Node P Id T S O} {th : Thread P T S O} (t : T)
    (l : List (Thread P T S O)) (h : x.live ident th = false) :
    x.jobs ident write t (th :: l) = x.jobs ident write t l := by
  simp [Node.jobs, h]

theorem Node.jobs_congr {x x' : Node P Id T S O} (t : T) {l : List (Thread P T S O)}
    (h : ∀ th ∈ l, x.live ident th = x'.live ident th) :
    x.jobs ident write t l = x'.jobs ident write t l := by
  rw [Node.jobs, Node.jobs, List.filter_congr h]

theorem Node.abs_cons {x : Node P Id T S O} {b : Par P T S O} {bs : List (Par P T S O)}
    (h : x.code = b :: bs) :
    x.abs ident write = ⟨b.time, x.jobs ident write b.time b.threads⟩ :: blocks write bs := by
  simp [Node.abs, h, Node.jobs]

/-- The current section with one of its threads singled out. -/
theorem Node.abs_split {x : Node P Id T S O} {t : T} {l₁ l₂ : List (Thread P T S O)}
    {th : Thread P T S O} {bs : List (Par P T S O)} (h : x.code = ⟨t, l₁ ++ th :: l₂⟩ :: bs)
    (hl : x.live ident th = true) :
    x.abs ident write =
      ⟨t, x.jobs ident write t l₁ ++ th.job write t :: x.jobs ident write t l₂⟩ ::
        blocks write bs := by
  rw [Node.abs_cons ident write h, Node.jobs_append, Node.jobs_cons_of_live ident write t l₂ hl]

end Live

theorem Node.threads_eq {x : Node P Id T S O} {b : Par P T S O} {bs : List (Par P T S O)}
    (h : x.code = b :: bs) : x.threads = b.threads := by
  simp [Node.threads, h]

/-- Threads that have not begun hold nothing. -/
theorem Node.filterMap_fresh {x : Node P Id T S O} {β : Type} {f : Thread P T S O → Option β}
    (h : ∀ b ∈ x.code, ∀ th ∈ b.threads, th.Fresh)
    (hf : ∀ th : Thread P T S O, th.Fresh → f th = none) : x.threads.filterMap f = [] := by
  cases hc : x.code with
  | nil => simp [Node.threads, hc]
  | cons b bs =>
      rw [Node.threads_eq hc, List.filterMap_eq_nil_iff]
      intro th hth
      exact hf th (h b (by simp [hc]) th hth)

/-- A node all of whose threads are live has its sections before it as they stand. -/
theorem Node.abs_of_live (ident : P → Id) (write : Addr → Bytes → S → S) {x : Node P Id T S O}
    (h : ∀ th ∈ x.threads, x.live ident th = true) : x.abs ident write = blocks write x.code := by
  cases hc : x.code with
  | nil => simp [Node.abs, hc, blocks]
  | cons b bs =>
      rw [Node.threads_eq hc] at h
      rw [Node.abs_cons ident write hc, Node.jobs, List.filter_eq_self.mpr h]
      rfl

/-- A node none of whose threads has begun has its whole program before it. -/
theorem Node.abs_of_fresh (ident : P → Id) (write : Addr → Bytes → S → S) {x : Node P Id T S O}
    (h : ∀ b ∈ x.code, ∀ th ∈ b.threads, th.Fresh) :
    x.abs ident write = blocks write x.code := by
  refine Node.abs_of_live ident write fun th hth => Thread.live_of_fresh ident x ?_
  cases hc : x.code with
  | nil => simp [Node.threads, hc] at hth
  | cons b bs =>
      rw [Node.threads_eq hc] at hth
      exact h b (by simp [hc]) th hth

theorem Thread.slot?_of_fresh {th : Thread P T S O} (h : th.Fresh) : th.slot? = none := by
  cases th <;> simp_all [Thread.Fresh, Thread.slot?]

theorem Thread.hand?_of_fresh {th : Thread P T S O} (h : th.Fresh) : th.hand? = none := by
  cases th <;> simp_all [Thread.Fresh, Thread.hand?]

section Tidy

variable (ident : P → Id) {x : Node P Id T S O}

/-- Replacing the threads of the current section by some that receive from the same
peers, or from fewer, keeps the sections tidy. -/
theorem tidy_replace {t : T} {l l' : List (Thread P T S O)} {bs : List (Par P T S O)}
    (h : ∀ b ∈ (⟨t, l⟩ :: bs : List (Par P T S O)),
      ((b.threads.filterMap Thread.from?).map ident).Nodup)
    (hsub : (l'.filterMap Thread.from?).Sublist (l.filterMap Thread.from?)) :
    ∀ b ∈ (⟨t, l'⟩ :: bs : List (Par P T S O)),
      ((b.threads.filterMap Thread.from?).map ident).Nodup := by
  intro b hb
  rcases List.mem_cons.mp hb with rfl | hb
  · exact (h _ List.mem_cons_self).sublist (hsub.map ident)
  · exact h b (List.mem_cons_of_mem _ hb)

/-- A posted slot receive is a thread of the current section. -/
theorem Node.mem_waiting {id : P} {n : Bytes} {p : Addr} (h : (id, n, p) ∈ x.waiting) :
    ∃ t l₁ l₂ bs, x.code = ⟨t, l₁ ++ .slotWait id n p :: l₂⟩ :: bs := by
  obtain ⟨th, hth, hs⟩ := List.mem_filterMap.mp h
  obtain ⟨-, rfl⟩ := from?_of_slot? hs
  cases hc : x.code with
  | nil => simp [Node.threads, hc] at hth
  | cons b bs =>
      rw [Node.threads_eq hc] at hth
      obtain ⟨l₁, l₂, hl⟩ := List.append_of_mem hth
      exact ⟨b.time, l₁, l₂, bs, by rw [← hl]⟩

theorem Node.waiting_eq {t : T} {l₁ l₂ : List (Thread P T S O)} {th : Thread P T S O}
    {bs : List (Par P T S O)} (hc : x.code = ⟨t, l₁ ++ th :: l₂⟩ :: bs) :
    x.waiting = l₁.filterMap Thread.slot? ++ (th.slot?.toList ++ l₂.filterMap Thread.slot?) := by
  rw [Node.waiting, Node.threads_eq hc, List.filterMap_append, List.filterMap_cons]
  cases th.slot? <;> rfl

theorem Node.hand_eq {t : T} {l₁ l₂ : List (Thread P T S O)} {th : Thread P T S O}
    {bs : List (Par P T S O)} (hc : x.code = ⟨t, l₁ ++ th :: l₂⟩ :: bs) :
    x.hand = l₁.filterMap Thread.hand? ++ (th.hand?.toList ++ l₂.filterMap Thread.hand?) := by
  rw [Node.hand, Node.threads_eq hc, List.filterMap_append, List.filterMap_cons]
  cases th.hand? <;> rfl

/-- The peers of the posted slot receives are among those the threads receive from. -/
theorem sublist_from? (l : List (Thread P T S O)) :
    ((l.filterMap Thread.slot?).map Prod.fst).Sublist (l.filterMap Thread.from?) := by
  induction l with
  | nil => simp
  | cons th l ih =>
      cases th <;> simp [Thread.slot?, Thread.from?, List.filterMap_cons, ih, ih.cons]

end Tidy

/-! ## Steps of a node -/

section Moves

variable [DecidableEq P] {ident : P → Id} {write : Addr → Bytes → S → S}
variable {x : Node P Id T S O} {a : Proc P T Key Bytes S O} {o : List (ℕ × O)}
variable {lk : P → List (BlockNet.Packet T Key Bytes)}

/-- What a step of a node can be for the process it stands for. -/
inductive Move (a : Proc P T Key Bytes S O) (o : List (ℕ × O))
    (lk : P → List (BlockNet.Packet T Key Bytes)) :
    Proc P T Key Bytes S O → List (ℕ × O) → (P → List (BlockNet.Packet T Key Bytes)) → Prop where
  | stay : Move a o lk a o lk
  | tau {y : Proc P T Key Bytes S O} : LStep a .tau y → Move a o lk y o lk
  | emit {y : Proc P T Key Bytes S O} {i : ℕ} {v : O} :
      LStep a (.emit i v) y → Move a o lk y (o ++ [(i, v)]) lk
  | recv {y : Proc P T Key Bytes S O} {s : P} {m : BlockNet.Packet T Key Bytes}
      {ms : List (BlockNet.Packet T Key Bytes)} :
      LStep a (.recv s m) y → lk s = m :: ms → Move a o lk y o (Function.update lk s ms)

/-- The first packet of a link is the one the current receive asks for. -/
def HeadOk (a : Proc P T Key Bytes S O) (lk : P → List (BlockNet.Packet T Key Bytes)) : Prop :=
  ∀ s t l₁ k g l₂ bs m ms, a.blocks = ⟨t, l₁ ++ .recv s k g :: l₂⟩ :: bs →
    lk s = m :: ms → m.tag = (t, k)

/-- While a process receives from `s'`, no other sender with the id of `s'` has anything
in flight to it. -/
def ExclOk (ident : P → Id) (a : Proc P T Key Bytes S O)
    (lk : P → List (BlockNet.Packet T Key Bytes)) :
    Prop :=
  ∀ s s' t l₁ k g l₂ bs, a.blocks = ⟨t, l₁ ++ .recv s' k g :: l₂⟩ :: bs →
    lk s ≠ [] → ident s = ident s' → s = s'

theorem NSim.jobs_eq (h : NSim ident write x a o lk) {t : T} {l₁ l₂ : List (Thread P T S O)}
    {th : Thread P T S O} {bs : List (Par P T S O)} (hc : x.code = ⟨t, l₁ ++ th :: l₂⟩ :: bs)
    (hl : x.live ident th = true) :
    a = ⟨⟨t, x.jobs ident write t l₁ ++ th.job write t :: x.jobs ident write t l₂⟩ ::
      blocks write bs, x.store⟩ := by
  obtain ⟨bls, σ⟩ := a
  rw [Proc.mk.injEq]
  exact ⟨h.code.trans (Node.abs_split ident write hc hl), h.store⟩

/-- Other threads of the section receive from other ids. -/
theorem NSim.other (h : NSim ident write x a o lk) {t : T} {l₁ l₂ : List (Thread P T S O)}
    {th : Thread P T S O} {bs : List (Par P T S O)} (hc : x.code = ⟨t, l₁ ++ th :: l₂⟩ :: bs)
    {id : P} (hth : th.from? = some id) {th' : Thread P T S O} (hmem : th' ∈ l₁ ++ l₂) {id' : P}
    (hth' : th'.from? = some id') : ident id' ≠ ident id :=
  ident_ne_of_nodup ident (h.tidy _ (by rw [hc]; exact List.mem_cons_self)) hth hmem hth'

/-- No thread of the section but `th` has posted a slot receive from the id of `th`. -/
theorem NSim.slot_other (h : NSim ident write x a o lk) {t : T} {l₁ l₂ : List (Thread P T S O)}
    {th : Thread P T S O} {bs : List (Par P T S O)} (hc : x.code = ⟨t, l₁ ++ th :: l₂⟩ :: bs)
    {id : P} (hth : th.from? = some id) {id' : P} {n : Bytes} {p : Addr}
    (hw : (id', n, p) ∈ (l₁ ++ l₂).filterMap Thread.slot?) : ident id' ≠ ident id := by
  obtain ⟨th', hmem, hs⟩ := List.mem_filterMap.mp hw
  exact h.other hc hth hmem (from?_of_slot? hs).1

/-- No thread of the section but `th` has a message from `th`'s peer in hand. -/
theorem NSim.hand_other (h : NSim ident write x a o lk) {t : T} {l₁ l₂ : List (Thread P T S O)}
    {th : Thread P T S O} {bs : List (Par P T S O)} (hc : x.code = ⟨t, l₁ ++ th :: l₂⟩ :: bs)
    {id : P} (hth : th.from? = some id) {l : List (Thread P T S O)} (hl : l.Sublist (l₁ ++ l₂)) :
    (l.filterMap Thread.hand?).filter (·.1 = id) = [] := by
  rw [List.filter_eq_nil_iff]
  rintro ⟨id', m⟩ hm
  obtain ⟨th', hmem, hs⟩ := List.mem_filterMap.mp hm
  have hne := h.other hc hth (hl.subset hmem) (from?_of_hand? hs)
  simp only [decide_eq_true_eq]
  rintro rfl
  exact hne rfl

/-- Other threads in the current section, the same sections after it. -/
theorem NSim.replace (h : NSim ident write x a o lk) (x' : Node P Id T S O) {t : T}
    {l l' : List (Thread P T S O)} {bs : List (Par P T S O)} (hc : x.code = ⟨t, l⟩ :: bs)
    (hc' : x'.code = ⟨t, l'⟩ :: bs)
    (hsub : (l'.filterMap Thread.from?).Sublist (l.filterMap Thread.from?))
    {js : List (Job P T Key Bytes S O)} (hjs : js = x'.jobs ident write t l')
    {o' : List (ℕ × O)} (ho : o' = x'.returned)
    (hslots : Slots ident x'.waiting x'.waitQ x'.recvQ x'.handler)
    {D : Id → List (Message P T)} {lk' : P → List (BlockNet.Packet T Key Bytes)}
    (hpipes : Pipes ident D x'.hand x'.mailbox x'.handler x'.conn lk') :
    NSim ident write x' ⟨⟨t, js⟩ :: blocks write bs, x'.store⟩ o' lk' where
  code := by rw [hjs]; exact (Node.abs_cons ident write hc').symm
  store := rfl
  out := ho
  fresh := by
    have hf := h.fresh
    rw [hc] at hf
    rw [hc']
    exact hf
  tidy := by
    have ht := h.tidy
    rw [hc] at ht
    rw [hc']
    exact tidy_replace ident ht hsub
  slots := hslots
  pipes := ⟨D, hpipes⟩

/-- The process of a node, its current section in full. -/
theorem NSim.proc_eq (h : NSim ident write x a o lk) {t : T} {l : List (Thread P T S O)}
    {bs : List (Par P T S O)} (hc : x.code = ⟨t, l⟩ :: bs) :
    a = ⟨⟨t, x.jobs ident write t l⟩ :: blocks write bs, x.store⟩ := by
  obtain ⟨bls, σ⟩ := a
  rw [Proc.mk.injEq]
  exact ⟨h.code.trans (Node.abs_cons ident write hc), h.store⟩

/-- A node has at most one slot receive posted for each id. -/
theorem NSim.waiting_unique (h : NSim ident write x a o lk) {e e' : P × Bytes × Addr}
    (he : e ∈ x.waiting) (he' : e' ∈ x.waiting) (heq : ident e.1 = ident e'.1) : e = e' := by
  obtain ⟨id, n, p⟩ := e
  obtain ⟨t, l₁, l₂, bs, hc⟩ := Node.mem_waiting he
  have hnd := h.tidy _ (by rw [hc]; exact List.mem_cons_self)
  have hw : x.waiting = (l₁ ++ .slotWait id n p :: l₂).filterMap Thread.slot? := by
    rw [Node.waiting, Node.threads_eq hc]
  rw [hw] at he he'
  have hmap := hnd.sublist ((sublist_from? _).map ident)
  rw [List.map_map] at hmap
  exact List.inj_on_of_nodup_map hmap he he' heq

/-- A step of a handler that leaves the threads and the link as they are. -/
theorem NSim.keep (h : NSim ident write x a o lk) (x' : Node P Id T S O)
    (hcode : x'.code = x.code) (hstore : x'.store = x.store) (hret : x'.returned = x.returned)
    (hlive : ∀ id n p, (id, n, p) ∈ x.waiting →
      x'.written ident id n = x.written ident id n)
    (hslots : Slots ident x.waiting x'.waitQ x'.recvQ x'.handler)
    {D : Id → List (Message P T)}
    (hpipes : Pipes ident D x.hand x'.mailbox x'.handler x'.conn lk) :
    NSim ident write x' a o lk where
  code := by
    rw [h.code, Node.abs, Node.abs, hcode]
    cases hc : x.code with
    | nil => rfl
    | cons b bs =>
        have hfil : b.threads.filter (x.live ident) = b.threads.filter (x'.live ident) := by
          refine List.filter_congr fun th hth => ?_
          cases th with
          | slotWait id n p =>
              have hw : (id, n, p) ∈ x.waiting := by
                rw [Node.waiting, Node.threads_eq hc]
                exact List.mem_filterMap.mpr ⟨_, hth, rfl⟩
              simp only [Node.live, hlive id n p hw]
          | _ => rfl
        simp only [hfil]
  store := h.store.trans hstore.symm
  out := h.out.trans hret.symm
  fresh := by rw [hcode]; exact h.fresh
  tidy := by rw [hcode]; exact h.tidy
  slots := by
    have hw : x'.waiting = x.waiting := by rw [Node.waiting, Node.waiting, Node.threads, hcode]; rfl
    rw [hw]
    exact hslots
  pipes := by
    have hh : x'.hand = x.hand := by rw [Node.hand, Node.hand, Node.threads, hcode]; rfl
    rw [hh]
    exact ⟨D, hpipes⟩

/-- A thread that holds nothing of the boxes finishes. -/
theorem NSim.erase (h : NSim ident write x a o lk) {t : T} {l₁ l₂ : List (Thread P T S O)}
    {th : Thread P T S O} {bs : List (Par P T S O)} (hc : x.code = ⟨t, l₁ ++ th :: l₂⟩ :: bs)
    (hs : th.slot? = none) (hh : th.hand? = none) (σ : S) (r : List (ℕ × O)) :
    NSim ident write { x with code := ⟨t, l₁ ++ l₂⟩ :: bs, store := σ, returned := r }
      ⟨⟨t, x.jobs ident write t l₁ ++ x.jobs ident write t l₂⟩ :: blocks write bs, σ⟩ r lk := by
  have hslots := h.slots
  obtain ⟨D, hD⟩ := h.pipes
  rw [Node.waiting_eq hc, hs] at hslots
  rw [Node.hand_eq hc, hh] at hD
  exact h.replace { x with code := ⟨t, l₁ ++ l₂⟩ :: bs, store := σ, returned := r } hc rfl
    (List.Sublist.filterMap _ (by simp)) (Node.jobs_append ident write _ t l₁ l₂).symm rfl
    (by simpa [Node.waiting, Node.threads] using hslots)
    (by simpa [Node.hand, Node.threads] using hD)

/-- The section is over and the next one starts. -/
theorem NSim.join (h : NSim ident write x a o lk) {t : T} {bs : List (Par P T S O)}
    (hc : x.code = ⟨t, []⟩ :: bs) :
    Move a o lk ⟨blocks write bs, x.store⟩ o lk ∧
      NSim ident write { x with code := bs } ⟨blocks write bs, x.store⟩ o lk := by
  have hfresh := h.fresh
  have htidy := h.tidy
  rw [hc] at hfresh htidy
  simp only [List.tail_cons] at hfresh
  have ha : a = ⟨⟨t, []⟩ :: blocks write bs, x.store⟩ := by
    obtain ⟨bls, σ⟩ := a
    rw [Proc.mk.injEq]
    exact ⟨h.code.trans (by rw [Node.abs_cons ident write hc]; rfl), h.store⟩
  refine ⟨by rw [ha]; exact .tau .pop, ?_⟩
  exact {
    code := (Node.abs_of_fresh ident write (x := { x with code := bs }) hfresh).symm
    store := rfl
    out := h.out
    fresh := fun b hb => hfresh b (List.mem_of_mem_tail hb)
    tidy := fun b hb => htidy b (List.mem_cons_of_mem _ hb)
    slots := by
      have hs := h.slots
      have hw : x.waiting = [] := by simp [Node.waiting, Node.threads, hc]
      have hw' : Node.waiting { x with code := bs } = [] :=
        Node.filterMap_fresh hfresh fun _ => Thread.slot?_of_fresh
      rw [hw] at hs
      rw [hw']
      exact hs
    pipes := by
      obtain ⟨D, hD⟩ := h.pipes
      have hh : x.hand = [] := by simp [Node.hand, Node.threads, hc]
      have hh' : Node.hand { x with code := bs } = [] :=
        Node.filterMap_fresh hfresh fun _ => Thread.hand?_of_fresh
      rw [hh] at hD
      exact ⟨D, by rw [hh']; exact hD⟩ }

/-- The message in hand is the first packet of the link, and the one the thread asks for. -/
theorem NSim.hand_head (h : NSim ident write x a o lk) (hhead : HeadOk a lk)
    {D : Id → List (Message P T)} (hD : Pipes ident D x.hand x.mailbox x.handler x.conn lk) {t : T}
    {l₁ l₂ : List (Thread P T S O)} {bs : List (Par P T S O)} {id : P} {name : Bytes}
    {add : Bytes → S → S} {m : Message P T}
    (hc : x.code = ⟨t, l₁ ++ .mailGot id name add m :: l₂⟩ :: bs) :
    lk id = m.packet :: ((D (ident id)).filter (·.src = id) ++ (x.handler id).held ++
      x.conn id).map Message.packet ∧ m.packet = ⟨t, (name, false), m.data⟩ := by
  have ha := h.jobs_eq hc rfl
  have hfrom : Thread.from? (.mailGot id name add m : Thread P T S O) = some id := rfl
  have h₁ := h.hand_other hc hfrom (List.sublist_append_left l₁ l₂)
  have h₂ := h.hand_other hc hfrom (List.sublist_append_right l₁ l₂)
  have hhand := Node.hand_eq hc
  simp only [Thread.hand?, Option.toList_some, List.singleton_append] at hhand
  have hlk : lk id = m.packet :: ((D (ident id)).filter (·.src = id) ++ (x.handler id).held ++
      x.conn id).map Message.packet := by
    rw [hD.link id, hhand]
    simp [h₁, h₂]
  have htag := hhead id t _ _ _ _ _ m.packet _ (by rw [ha]; rfl) hlk
  rw [Message.tag_packet, Prod.mk.injEq] at htag
  exact ⟨hlk, by rw [Message.packet, htag.1, htag.2]⟩

/-- The thread with a message in hand adds it: the receive from the link. -/
theorem NSim.mailGot (h : NSim ident write x a o lk) (hhead : HeadOk a lk) {t : T}
    {l₁ l₂ : List (Thread P T S O)} {bs : List (Par P T S O)} {id : P} {name : Bytes}
    {add : Bytes → S → S} {m : Message P T}
    (hc : x.code = ⟨t, l₁ ++ .mailGot id name add m :: l₂⟩ :: bs) :
    ∃ a' lk', Move a o lk a' o lk' ∧
      NSim ident write { x with code := ⟨t, l₁ ++ l₂⟩ :: bs, store := add m.data x.store }
        a' o lk' := by
  obtain ⟨D, hD⟩ := h.pipes
  have ha := h.jobs_eq hc rfl
  have hfrom : Thread.from? (.mailGot id name add m : Thread P T S O) = some id := rfl
  have h₁ := h.hand_other hc hfrom (List.sublist_append_left l₁ l₂)
  have h₂ := h.hand_other hc hfrom (List.sublist_append_right l₁ l₂)
  have hhand := Node.hand_eq hc
  simp only [Thread.hand?, Option.toList_some, List.singleton_append] at hhand
  obtain ⟨hlk, hpkt⟩ := h.hand_head hhead hD hc
  have hstep : LStep a (.recv id m.packet)
      ⟨⟨t, x.jobs ident write t l₁ ++ x.jobs ident write t l₂⟩ :: blocks write bs,
        add m.data x.store⟩ := by
    rw [ha, hpkt]
    exact .recv
  have hslots : Slots ident ((l₁ ++ l₂).filterMap Thread.slot?) x.waitQ x.recvQ x.handler := by
    have hs := h.slots
    rw [Node.waiting_eq hc] at hs
    simpa [Thread.slot?] using hs
  have hpipes : Pipes ident D ((l₁ ++ l₂).filterMap Thread.hand?) x.mailbox x.handler x.conn
      (Function.update lk id (((D (ident id)).filter (·.src = id) ++ (x.handler id).held ++
        x.conn id).map Message.packet)) := by
    refine ⟨hD.box, hD.dep, fun s => ?_, hD.src, hD.fits, fun e he => hD.got e ?_⟩
    · by_cases hs : s = id
      · subst hs
        simp [h₁, h₂]
      · rw [Function.update_of_ne hs, hD.link s, hhand]
        simp [Ne.symm hs]
    · rw [hhand]
      rw [List.filterMap_append] at he
      exact (List.Sublist.append_left (List.sublist_cons_self _ _) _).subset he
  exact ⟨_, _, .recv hstep hlk,
    h.replace { x with code := ⟨t, l₁ ++ l₂⟩ :: bs, store := add m.data x.store } hc rfl
      (List.Sublist.filterMap _ (by simp)) (Node.jobs_append ident write _ t l₁ l₂).symm h.out
      hslots hpipes⟩

variable [DecidableEq Id]

/-- The thread takes its message from the mailbox: it was the first of the link, and is
so in hand. -/
theorem NSim.mailGet (h : NSim ident write x a o lk) (hhead : HeadOk a lk)
    (hexcl : ExclOk ident a lk) {t : T} {l₁ l₂ : List (Thread P T S O)} {bs : List (Par P T S O)}
    {id : P} {name : Bytes} {add : Bytes → S → S} {m : Message P T} {q : List (Message P T)}
    (hc : x.code = ⟨t, l₁ ++ .mailGet id name add :: l₂⟩ :: bs)
    (hbox : x.mailbox (ident id) name = m :: q) :
    NSim ident write
      { x with
        code := ⟨t, l₁ ++ .mailGot id name add m :: l₂⟩ :: bs
        mailbox := setBox x.mailbox (ident id) name q } a o lk := by
  obtain ⟨D, hD⟩ := h.pipes
  have ha := h.jobs_eq hc rfl
  have hfrom : Thread.from? (.mailGet id name add : Thread P T S O) = some id := rfl
  have h₁ := h.hand_other hc hfrom (List.sublist_append_left l₁ l₂)
  have h₂ := h.hand_other hc hfrom (List.sublist_append_right l₁ l₂)
  have hhand := Node.hand_eq hc
  simp only [Thread.hand?, Option.toList_none, List.nil_append] at hhand
  -- everything put under this id comes from `id` itself
  have hsrc : ∀ m' ∈ D (ident id), m'.src = id := by
    intro m' hm'
    refine hexcl m'.src id t _ _ _ _ _ (by rw [ha]; rfl) ?_ (hD.dep _ m' hm').1
    rw [hD.link, (hD.dep _ m' hm').1]
    have : m' ∈ (D (ident id)).filter (·.src = m'.src) := by simpa using hm'
    intro hnil
    simp only [List.map_eq_nil_iff, List.append_eq_nil_iff] at hnil
    rw [hnil.1.1.2] at this
    exact List.not_mem_nil this
  have hall : (D (ident id)).filter (·.src = id) = D (ident id) := by
    rw [List.filter_eq_self]
    intro m' hm'
    simpa using hsrc m' hm'
  have hDne : D (ident id) ≠ [] := by
    intro hnil
    rw [hD.box, hnil] at hbox
    simp at hbox
  obtain ⟨m₀, D₀, hD₀⟩ := List.exists_cons_of_ne_nil hDne
  have hlk : lk id = m₀.packet :: (D₀ ++ (x.handler id).held ++ x.conn id).map Message.packet := by
    rw [hD.link id, hhand, hall, hD₀]
    simp [h₁, h₂]
  have htag := hhead id t _ _ _ _ _ m₀.packet _ (by rw [ha]; rfl) hlk
  rw [Message.tag_packet, Prod.mk.injEq, Prod.mk.injEq] at htag
  obtain ⟨rfl, rfl⟩ : m₀ = m ∧ D₀.filter (·.name = name) = q := by
    rw [hD.box, hD₀] at hbox
    simpa [htag.2.1] using hbox
  have hslots : Slots ident ((l₁ ++ .mailGot id name add m₀ :: l₂).filterMap Thread.slot?)
      x.waitQ x.recvQ x.handler := by
    have hs := h.slots
    rw [Node.waiting_eq hc] at hs
    simpa [Thread.slot?, List.filterMap_cons] using hs
  have hpipes : Pipes ident (Function.update D (ident id) D₀)
      ((l₁ ++ .mailGot id name add m₀ :: l₂).filterMap Thread.hand?)
      (setBox x.mailbox (ident id) name (D₀.filter (·.name = name))) x.handler x.conn lk := by
    have hm₀ : m₀.src = id := hsrc m₀ (by rw [hD₀]; exact List.mem_cons_self)
    refine ⟨fun y n => ?_, fun y m' hm' => ?_, fun s => ?_, hD.src, hD.fits, fun e he => ?_⟩
    · by_cases hy : y = ident id
      · subst hy
        rw [Function.update_self]
        by_cases hn : n = name
        · subst hn
          simp
        · rw [setBox_ne _ _ _ _ (fun hc => hn hc.2), hD.box, hD₀]
          simp [htag.2.1, Ne.symm hn]
      · rw [Function.update_of_ne hy, setBox_ne _ _ _ _ (fun hc => hy hc.1), hD.box]
    · by_cases hy : y = ident id
      · subst hy
        rw [Function.update_self] at hm'
        exact hD.dep _ m' (by rw [hD₀]; exact List.mem_cons_of_mem _ hm')
      · rw [Function.update_of_ne hy] at hm'
        exact hD.dep y m' hm'
    · have hD₀all : D₀.filter (·.src = id) = D₀ := by
        rw [List.filter_eq_self]
        intro m' hm'
        simpa using hsrc m' (by rw [hD₀]; exact List.mem_cons_of_mem _ hm')
      by_cases hs : s = id
      · subst hs
        rw [hlk]
        simp [Thread.hand?, h₁, h₂, hD₀all]
      · rw [hD.link s, hhand]
        by_cases hy : ident s = ident id
        · simp [hy, hD₀, Thread.hand?, Ne.symm hs, hm₀]
        · simp [Function.update_of_ne hy, Thread.hand?, Ne.symm hs]
    · have hgot := hD.got e
      rw [hhand] at hgot
      simp only [List.filterMap_append, List.filterMap_cons, Thread.hand?, List.mem_append,
        List.mem_cons] at he hgot
      rcases he with he | rfl | he
      · exact hgot (.inl he)
      · exact hm₀
      · exact hgot (.inr he)
  rw [ha]
  refine h.replace
    { x with
      code := ⟨t, l₁ ++ .mailGot id name add m₀ :: l₂⟩ :: bs
      mailbox := setBox x.mailbox (ident id) name (D₀.filter (·.name = name)) } hc rfl
    (by simp [Thread.from?]) ?_ h.out hslots hpipes
  rw [Node.jobs_append, Node.jobs_cons_of_live ident write t l₂ rfl]
  rfl

/-- The thread posts its pointer. -/
theorem NSim.slotGet (h : NSim ident write x a o lk) {t : T} {l₁ l₂ : List (Thread P T S O)}
    {bs : List (Par P T S O)} {id : P} {name : Bytes} {ptr : Addr}
    (hc : x.code = ⟨t, l₁ ++ .slotGet id name ptr :: l₂⟩ :: bs) :
    NSim ident write
      { x with
        code := ⟨t, l₁ ++ .slotWait id name ptr :: l₂⟩ :: bs
        waitQ := setBox x.waitQ (ident id) name (x.waitQ (ident id) name ++ [ptr]) } a o lk := by
  have hfrom : Thread.from? (.slotGet id name ptr : Thread P T S O) = some id := rfl
  have hw : x.waiting = (l₁ ++ l₂).filterMap Thread.slot? := by
    rw [Node.waiting_eq hc]
    simp [Thread.slot?]
  have hne : ∀ {id' n p}, (id', n, p) ∈ x.waiting → ident id' ≠ ident id := by
    intro id' n p hmem
    exact h.slot_other hc hfrom (by rw [← hw]; exact hmem)
  -- no other thread uses the slots of this id, so they are empty
  obtain ⟨hwq, hrq⟩ := h.slots.empty (ident id) name fun id' p hmem => hne hmem
  have hidle : (x.handler id).busy = false := by
    cases hh : x.handler id with
    | write m p => exact absurd rfl (hne (h.slots.busy id m p (.inl hh)))
    | done m p => exact absurd rfl (hne (h.slots.busy id m p (.inr hh)))
    | idle | mail m | slot m => rfl
  have hmem' : ∀ e, e ∈ (l₁ ++ .slotWait id name ptr :: l₂).filterMap Thread.slot? ↔
      e = (id, name, ptr) ∨ e ∈ x.waiting := by
    intro e
    rw [hw]
    simp only [List.filterMap_append, List.filterMap_cons, Thread.slot?, List.mem_append,
      List.mem_cons]
    grind
  have hslots : Slots ident ((l₁ ++ .slotWait id name ptr :: l₂).filterMap Thread.slot?)
      (setBox x.waitQ (ident id) name (x.waitQ (ident id) name ++ [ptr])) x.recvQ x.handler := by
    refine ⟨fun id' n p hmem => ?_, fun y n hy => ?_, fun id' m p hh => ?_⟩
    · rcases (hmem' _).mp hmem with heq | hmem
      · obtain ⟨rfl, rfl, rfl⟩ := by simpa using heq
        exact .inl ⟨by simp [hwq], hrq, hidle⟩
      · rw [setBox_ne _ _ _ _ fun hc => hne hmem hc.1]
        exact h.slots.posted id' n p hmem
    · have hyn : ¬(y = ident id ∧ n = name) := by
        rintro ⟨rfl, rfl⟩
        exact hy id ptr ((hmem' _).mpr (.inl rfl)) rfl
      rw [setBox_ne _ _ _ _ hyn]
      exact h.slots.empty y n fun id' p hmem => hy id' p ((hmem' _).mpr (.inr hmem))
    · exact (hmem' _).mpr (.inr (h.slots.busy id' m p hh))
  obtain ⟨D, hD⟩ := h.pipes
  rw [Node.hand_eq hc] at hD
  have hlive : Node.live ident
      { x with
        code := ⟨t, l₁ ++ .slotWait id name ptr :: l₂⟩ :: bs
        waitQ := setBox x.waitQ (ident id) name (x.waitQ (ident id) name ++ [ptr]) }
      (.slotWait id name ptr) = true := by
    simp [Node.live, Node.written, hrq, Handler.isDone_of_busy hidle]
  rw [h.proc_eq hc]
  refine h.replace
    { x with
      code := ⟨t, l₁ ++ .slotWait id name ptr :: l₂⟩ :: bs
      waitQ := setBox x.waitQ (ident id) name (x.waitQ (ident id) name ++ [ptr]) } hc rfl
    (by simp [Thread.from?]) ?_ h.out hslots
    (by simpa [Node.hand, Node.threads, List.filterMap_cons, Thread.hand?] using hD)
  rw [Node.jobs_append, Node.jobs_append, Node.jobs_cons_of_live ident write t l₂ rfl,
    Node.jobs_cons_of_live ident write t l₂ hlive]
  rfl

/-- The thread finds its pointer signalled: the receive was made by the handler. -/
theorem NSim.slotWait (h : NSim ident write x a o lk) {t : T} {l₁ l₂ : List (Thread P T S O)}
    {bs : List (Par P T S O)} {id : P} {name : Bytes} {ptr : Addr} {q : List Addr}
    (hc : x.code = ⟨t, l₁ ++ .slotWait id name ptr :: l₂⟩ :: bs)
    (hq : x.recvQ (ident id) name = ptr :: q) :
    NSim ident write
      { x with
        code := ⟨t, l₁ ++ l₂⟩ :: bs
        recvQ := setBox x.recvQ (ident id) name q } a o lk := by
  have hfrom : Thread.from? (.slotWait id name ptr : Thread P T S O) = some id := rfl
  have hne : ∀ {id' n p}, (id', n, p) ∈ (l₁ ++ l₂).filterMap Thread.slot? →
      ident id' ≠ ident id := fun hmem => h.slot_other hc hfrom hmem
  have hmem' : ∀ e, e ∈ x.waiting ↔
      e = (id, name, ptr) ∨ e ∈ (l₁ ++ l₂).filterMap Thread.slot? := by
    intro e
    rw [Node.waiting_eq hc]
    simp only [Thread.slot?, Option.toList_some, List.filterMap_append, List.mem_append,
      List.singleton_append, List.mem_cons]
    grind
  obtain ⟨hwq, rfl, hidle⟩ : x.waitQ (ident id) name = [] ∧ q = [] ∧
      (x.handler id).busy = false := by
    rcases h.slots.posted id name ptr ((hmem' _).mpr (.inl rfl)) with
      ⟨-, h₂, -⟩ | ⟨-, h₂, -⟩ | ⟨-, h₂, -⟩ | ⟨h₁, h₂, h₃⟩
    · simp [hq] at h₂
    · simp [hq] at h₂
    · simp [hq] at h₂
    · exact ⟨h₁, by simpa [hq] using h₂, h₃⟩
  have hslots : Slots ident ((l₁ ++ l₂).filterMap Thread.slot?) x.waitQ
      (setBox x.recvQ (ident id) name []) x.handler := by
    refine ⟨fun id' n p hmem => ?_, fun y n hy => ?_, fun id' m p hh => ?_⟩
    · rw [setBox_ne _ _ _ _ fun hc => hne hmem hc.1]
      exact h.slots.posted id' n p ((hmem' _).mpr (.inr hmem))
    · by_cases hyn : y = ident id ∧ n = name
      · obtain ⟨rfl, rfl⟩ := hyn
        exact ⟨hwq, by simp⟩
      · rw [setBox_ne _ _ _ _ hyn]
        refine h.slots.empty y n fun id' p hmem => ?_
        rcases (hmem' _).mp hmem with heq | hmem
        · obtain ⟨rfl, rfl, rfl⟩ := by simpa using heq
          rintro rfl
          exact hyn ⟨rfl, rfl⟩
        · exact hy id' p hmem
    · rcases (hmem' _).mp (h.slots.busy id' m p hh) with heq | hmem
      · obtain ⟨rfl, -, -⟩ := by simpa using heq
        rcases hh with hh | hh <;> simp [hh, Handler.busy] at hidle
      · exact hmem
  obtain ⟨D, hD⟩ := h.pipes
  rw [Node.hand_eq hc] at hD
  have hdead : x.live ident (.slotWait id name ptr) = false := by
    simp [Node.live, Node.written, hq]
  rw [h.proc_eq hc]
  refine h.replace
    { x with
      code := ⟨t, l₁ ++ l₂⟩ :: bs
      recvQ := setBox x.recvQ (ident id) name [] } hc rfl
    (List.Sublist.filterMap _ (by simp)) ?_ h.out hslots
    (by simpa [Node.hand, Node.threads, Thread.hand?] using hD)
  rw [Node.jobs_append, Node.jobs_cons_of_not_live ident write t l₂ hdead, ← Node.jobs_append]
  refine Node.jobs_congr ident write t fun th hth => ?_
  cases th with
  | slotWait id' n p =>
      have := hne (List.mem_filterMap.mpr ⟨_, hth, rfl⟩)
      simp only [Node.live, Node.written, setBox_ne _ _ _ _ fun hc => this hc.1]
  | _ => rfl

section Handler

variable {D : Id → List (Message P T)} {H : List (P × Message P T)}
  {mb : Id → Bytes → List (Message P T)} {hd : P → Handler P T} {cn : P → List (Message P T)}
  {s : P} {v : Handler P T}

omit [DecidableEq Id] in
/-- The handler of `s` gives away what it holds. -/
theorem Pipes.src_update (hD : Pipes ident D H mb hd cn lk) (hv : v.held = []) (s' : P) :
    ∀ m ∈ (Function.update hd s v s').held ++ cn s', m.src = s' := by
  by_cases hs : s' = s
  · subst hs
    intro m hm
    rw [Function.update_self, hv, List.nil_append] at hm
    exact hD.src s' m (List.mem_append_right _ hm)
  · rw [Function.update_of_ne hs]
    exact hD.src s'

omit [DecidableEq Id] in
theorem Pipes.fits_update (hD : Pipes ident D H mb hd cn lk) (hfits : v.Fits) (s' : P) :
    (Function.update hd s v s').Fits := by
  by_cases hs : s' = s
  · subst hs
    rwa [Function.update_self]
  · rw [Function.update_of_ne hs]
    exact hD.fits s'

omit [DecidableEq Id] in
/-- The handler of `s` moves on; what it holds and what is behind it stay the same. -/
theorem Pipes.move (hD : Pipes ident D H mb hd cn lk) {l : List (Message P T)}
    (heq : v.held ++ l = (hd s).held ++ cn s) (hfits : v.Fits) :
    Pipes ident D H mb (Function.update hd s v) (Function.update cn s l) lk := by
  have hheld : ∀ s', (Function.update hd s v s').held ++ Function.update cn s l s' =
      (hd s').held ++ cn s' := by
    intro s'
    by_cases hs : s' = s
    · subst hs
      rw [Function.update_self, Function.update_self, heq]
    · rw [Function.update_of_ne hs, Function.update_of_ne hs]
  refine ⟨hD.box, hD.dep, fun s' => ?_, fun s' => ?_, hD.fits_update hfits, hD.got⟩
  · rw [List.append_assoc, hheld, ← List.append_assoc]
    exact hD.link s'
  · rw [hheld]
    exact hD.src s'

end Handler

omit [DecidableEq P] [DecidableEq Id] in
/-- The slot of a handler that has a pointer is empty. -/
theorem Slots.of_busy {W : List (P × Bytes × Addr)} {wq rq : Id → Bytes → List Addr}
    {hd : P → Handler P T} (h : Slots ident W wq rq hd) {s : P} {m : Message P T} {ptr : Addr}
    (hs : hd s = .write m ptr ∨ hd s = .done m ptr) :
    wq (ident s) m.name = [] ∧ rq (ident s) m.name = [] := by
  have hbusy : (hd s).busy = true := by rcases hs with hs | hs <;> rw [hs] <;> rfl
  rcases h.posted s m.name ptr (h.busy s m ptr hs) with
    ⟨-, -, hidle⟩ | ⟨hwq, hrq, -⟩ | ⟨hwq, hrq, -⟩ | ⟨-, -, hidle⟩
  · rw [hidle] at hbusy
    cases hbusy
  · exact ⟨hwq, hrq⟩
  · exact ⟨hwq, hrq⟩
  · rw [hidle] at hbusy
    cases hbusy

omit [DecidableEq Id] in
/-- The slot of a thread that waits changes, and with it the handler of its peer. -/
theorem NSim.slots_change (h : NSim ident write x a o lk) {s : P} {name : Bytes} {ptr : Addr}
    (hmem : (s, name, ptr) ∈ x.waiting) {wq rq : Id → Bytes → List Addr} {v : Handler P T}
    (hwq : ∀ y n, ¬(y = ident s ∧ n = name) → wq y n = x.waitQ y n)
    (hrq : ∀ y n, ¬(y = ident s ∧ n = name) → rq y n = x.recvQ y n)
    (hposted : wq (ident s) name = [] ∧
      (rq (ident s) name = [] ∧ (∃ m, v = .write m ptr ∧ m.name = name) ∨
        rq (ident s) name = [] ∧ (∃ m, v = .done m ptr ∧ m.name = name) ∨
        rq (ident s) name = [ptr] ∧ v = .idle)) :
    Slots ident x.waiting wq rq (Function.update x.handler s v) := by
  refine ⟨fun id n p hmem' => ?_, fun y n hy => ?_, fun id m p hd => ?_⟩
  · by_cases heq : ident id = ident s
    · obtain ⟨rfl, rfl, rfl⟩ := by simpa using h.waiting_unique hmem' hmem heq
      rw [Function.update_self]
      obtain ⟨hw, hm | hm | ⟨hr, rfl⟩⟩ := hposted
      · exact .inr (.inl ⟨hw, hm⟩)
      · exact .inr (.inr (.inl ⟨hw, hm⟩))
      · exact .inr (.inr (.inr ⟨hw, hr, rfl⟩))
    · have hid : id ≠ s := fun hc => heq (by rw [hc])
      rw [hwq _ _ fun hc => heq hc.1, hrq _ _ fun hc => heq hc.1, Function.update_of_ne hid]
      exact h.slots.posted id n p hmem'
  · have hyn : ¬(y = ident s ∧ n = name) := by
      rintro ⟨rfl, rfl⟩
      exact hy s ptr hmem rfl
    rw [hwq _ _ hyn, hrq _ _ hyn]
    exact h.slots.empty y n hy
  · by_cases hid : id = s
    · subst hid
      rw [Function.update_self] at hd
      rcases hposted with ⟨-, ⟨-, m', rfl, rfl⟩ | ⟨-, m', rfl, rfl⟩ | ⟨-, rfl⟩⟩
      · obtain ⟨rfl, rfl⟩ : m' = m ∧ ptr = p := by simpa using hd
        exact hmem
      · obtain ⟨rfl, rfl⟩ : m' = m ∧ ptr = p := by simpa using hd
        exact hmem
      · simp at hd
    · rw [Function.update_of_ne hid] at hd
      exact h.slots.busy id m p hd

omit [DecidableEq Id] in
/-- A handler that has no pointer moves without touching the slots. -/
theorem NSim.keep_idle (h : NSim ident write x a o lk) (x' : Node P Id T S O)
    (hcode : x'.code = x.code) (hstore : x'.store = x.store) (hret : x'.returned = x.returned)
    (hwq : x'.waitQ = x.waitQ) (hrq : x'.recvQ = x.recvQ) {s : P} {v : Handler P T}
    (hh : x'.handler = Function.update x.handler s v) (hs : (x.handler s).busy = false)
    (hv : v.busy = false) {D : Id → List (Message P T)}
    (hpipes : Pipes ident D x.hand x'.mailbox x'.handler x'.conn lk) :
    NSim ident write x' a o lk := by
  have hbusy : ∀ id, (x'.handler id).busy = (x.handler id).busy := by
    intro id
    by_cases hid : id = s
    · subst hid
      rw [hh, Function.update_self, hs, hv]
    · rw [hh, Function.update_of_ne hid]
  have hsame : ∀ id, (x.handler id).busy = true → x'.handler id = x.handler id := by
    intro id hid
    rw [hh, Function.update_of_ne]
    rintro rfl
    simp [hs] at hid
  refine h.keep x' hcode hstore hret (fun id n p _ => ?_)
    ⟨fun id n p hmem => ?_, ?_, fun id m p hd => ?_⟩ hpipes
  · rw [Node.written, Node.written, hrq]
    congr 1
    cases hb : (x.handler id).busy with
    | true => rw [hsame id hb]
    | false => rw [Handler.isDone_of_busy ((hbusy id).trans hb), Handler.isDone_of_busy hb]
  · rw [hwq, hrq]
    rcases h.slots.posted id n p hmem with h₁ | ⟨h₁, h₂, m, hm, hn⟩ | ⟨h₁, h₂, m, hm, hn⟩ | h₁
    · exact .inl ⟨h₁.1, h₁.2.1, (hbusy id).trans h₁.2.2⟩
    · exact .inr (.inl ⟨h₁, h₂, m, (hsame id (by rw [hm]; rfl)).trans hm, hn⟩)
    · exact .inr (.inr (.inl ⟨h₁, h₂, m, (hsame id (by rw [hm]; rfl)).trans hm, hn⟩))
    · exact .inr (.inr (.inr ⟨h₁.1, h₁.2.1, (hbusy id).trans h₁.2.2⟩))
  · rw [hwq, hrq]
    exact h.slots.empty
  · have hb : (x.handler id).busy = true := by
      rw [← hbusy id]
      rcases hd with hd | hd <;> rw [hd] <;> rfl
    rw [hsame id hb] at hd
    exact h.slots.busy id m p hd

omit [DecidableEq Id] in
/-- The handler reads the next header. -/
theorem NSim.header (h : NSim ident write x a o lk) {s : P} {m : Message P T}
    {ms : List (Message P T)} (hh : x.handler s = .idle) (hcn : x.conn s = m :: ms) :
    NSim ident write
      { x with
        handler := Function.update x.handler s (Handler.take m)
        conn := Function.update x.conn s ms } a o lk := by
  obtain ⟨D, hD⟩ := h.pipes
  obtain ⟨hbusy, hfits⟩ : (Handler.take m).busy = false ∧ (Handler.take m).Fits := by
    unfold Handler.take
    split <;> simp_all [Handler.busy, Handler.Fits]
  have hpipes : Pipes ident D x.hand x.mailbox (Function.update x.handler s (Handler.take m))
      (Function.update x.conn s ms) lk := hD.move (by simp [hh, hcn]) hfits
  exact h.keep_idle _ rfl rfl rfl rfl rfl rfl (by rw [hh]; rfl) hbusy hpipes

/-- The handler puts its message in the mailbox. -/
theorem NSim.mailPut (h : NSim ident write x a o lk) {s : P} {m : Message P T}
    (hh : x.handler s = .mail m) :
    NSim ident write
      { x with
        handler := Function.update x.handler s .idle
        mailbox := setBox x.mailbox (ident s) m.name (x.mailbox (ident s) m.name ++ [m]) }
      a o lk := by
  obtain ⟨D, hD⟩ := h.pipes
  have hsrc : m.src = s := hD.src s m (by rw [hh]; exact List.mem_cons_self)
  have hwaits : m.waits = false := by
    have := hD.fits s
    rwa [hh] at this
  have hpipes : Pipes ident (Function.update D (ident s) (D (ident s) ++ [m])) x.hand
      (setBox x.mailbox (ident s) m.name (x.mailbox (ident s) m.name ++ [m]))
      (Function.update x.handler s .idle) x.conn lk := by
    refine ⟨fun y n => ?_, fun y m' hm' => ?_, fun s' => ?_, hD.src_update rfl,
      hD.fits_update trivial, hD.got⟩
    · by_cases hyn : y = ident s ∧ n = m.name
      · obtain ⟨rfl, rfl⟩ := hyn
        simp [hD.box]
      · rw [setBox_ne _ _ _ _ hyn, hD.box]
        by_cases hy : y = ident s
        · subst hy
          have hn : m.name ≠ n := fun hc => hyn ⟨rfl, hc.symm⟩
          simp [hn]
        · rw [Function.update_of_ne hy]
    · by_cases hy : y = ident s
      · subst hy
        rw [Function.update_self, List.mem_append, List.mem_singleton] at hm'
        rcases hm' with hm' | rfl
        · exact hD.dep _ m' hm'
        · exact ⟨by rw [hsrc], hwaits⟩
      · rw [Function.update_of_ne hy] at hm'
        exact hD.dep y m' hm'
    · rw [hD.link]
      by_cases hs : s' = s
      · subst hs
        simp [hh, hsrc]
      · have hns : ¬s = s' := fun hc => hs hc.symm
        by_cases hy : ident s' = ident s
        · simp [hs, hns, hy, hsrc]
        · simp [hs, Function.update_of_ne hy]
  exact h.keep_idle _ rfl rfl rfl rfl rfl rfl (by rw [hh]; rfl) rfl hpipes

/-- The handler takes a posted pointer: it is the one posted for its own peer. -/
theorem NSim.slotTake (h : NSim ident write x a o lk) (hexcl : ExclOk ident a lk) {s : P}
    {m : Message P T} {ptr : Addr} {q : List Addr} (hh : x.handler s = .slot m)
    (hq : x.waitQ (ident s) m.name = ptr :: q) :
    NSim ident write
      { x with
        handler := Function.update x.handler s (.write m ptr)
        waitQ := setBox x.waitQ (ident s) m.name q } a o lk := by
  obtain ⟨D, hD⟩ := h.pipes
  obtain ⟨hmem, hrq, rfl⟩ : (s, m.name, ptr) ∈ x.waiting ∧ x.recvQ (ident s) m.name = [] ∧
      q = [] := by
    by_contra hno
    have hempty : ∀ id p, (id, m.name, p) ∈ x.waiting → ident id ≠ ident s := by
      intro id p hmem heq
      rcases h.slots.posted id m.name p hmem with ⟨h₁, h₂, h₃⟩ | ⟨h₁, -⟩ | ⟨h₁, -⟩ | ⟨h₁, -⟩
      · rw [heq] at h₁ h₂
        rw [hq, List.cons.injEq] at h₁
        obtain ⟨rfl, rfl⟩ := h₁
        -- the poster has its receive before it, and the handler's message is in flight
        obtain ⟨t, l₁, l₂, bs, hc⟩ := Node.mem_waiting hmem
        have hlive : x.live ident (.slotWait id m.name ptr) = true := by
          simp [Node.live, Node.written, heq, h₂, Handler.isDone_of_busy h₃]
        have hlk : lk s ≠ [] := by
          rw [hD.link, hh]
          simp
        have hids := hexcl s id t _ _ _ _ _ (by rw [h.jobs_eq hc hlive]; rfl) hlk heq.symm
        subst hids
        exact hno ⟨hmem, h₂, rfl⟩
      all_goals
        rw [heq, hq] at h₁
        simp at h₁
    have := (h.slots.empty (ident s) m.name hempty).1
    rw [hq] at this
    simp at this
  have hslots : Slots ident x.waiting (setBox x.waitQ (ident s) m.name []) x.recvQ
      (Function.update x.handler s (.write m ptr)) :=
    h.slots_change hmem (fun y n hyn => setBox_ne _ _ _ _ hyn) (fun _ _ _ => rfl)
      ⟨setBox_self _ _ _ _, .inl ⟨hrq, m, rfl, rfl⟩⟩
  have hpipes : Pipes ident D x.hand x.mailbox (Function.update x.handler s (.write m ptr))
      x.conn lk := by
    have hfits := hD.fits s
    rw [hh] at hfits
    simpa using hD.move (s := s) (v := .write m ptr) (l := x.conn s) (by simp [hh]) hfits
  refine h.keep _ rfl rfl rfl (fun id n p _ => ?_) hslots hpipes
  by_cases hid : id = s
  · subst hid
    simp [Node.written, hh, Handler.isDone]
  · simp [Node.written, hid]

omit [DecidableEq Id] in
/-- Nothing of `s` is in the mailbox when the first packet of the link is for a posted buffer: it
would be before that packet. -/
theorem Pipes.mailbox_eq_nil {D : Id → List (Message P T)} {H : List (P × Message P T)}
    {mb : Id → Bytes → List (Message P T)} {hd : P → Handler P T} {cn : P → List (Message P T)}
    (hD : Pipes ident D H mb hd cn lk) {s : P} {ms : List (Message P T)}
    (hlink : lk s = ((D (ident s)).filter (·.src = s) ++ ms).map Message.packet)
    {t : T} {name : Bytes} (hhead : ∀ p ps, lk s = p :: ps → p.tag = (t, (name, true))) :
    (D (ident s)).filter (·.src = s) = [] := by
  cases hbox : (D (ident s)).filter (·.src = s) with
  | nil => rfl
  | cons m₀ D₀ =>
      have htag := hhead m₀.packet _ (by rw [hlink, hbox]; rfl)
      have hm₀ : m₀ ∈ D (ident s) := by
        refine List.mem_of_mem_filter (p := fun m => decide (m.src = s)) ?_
        rw [hbox]
        exact List.mem_cons_self
      rw [Message.tag_packet, (hD.dep _ m₀ hm₀).2] at htag
      simp at htag

omit [DecidableEq Id] in
/-- The message a handler writes to a posted buffer is the first packet of the link, and the
one the thread asks for that has posted the buffer. -/
theorem NSim.write_head (h : NSim ident write x a o lk) (hhead : HeadOk a lk)
    {D : Id → List (Message P T)} (hD : Pipes ident D x.hand x.mailbox x.handler x.conn lk) {s : P}
    {m : Message P T} {ptr : Addr} (hh : x.handler s = .write m ptr) {t : T}
    {l₁ l₂ : List (Thread P T S O)} {bs : List (Par P T S O)}
    (hc : x.code = ⟨t, l₁ ++ .slotWait s m.name ptr :: l₂⟩ :: bs) :
    (x.waitQ (ident s) m.name = [] ∧ x.recvQ (ident s) m.name = []) ∧
      x.live ident (.slotWait s m.name ptr) = true ∧ x.hand.filter (·.1 = s) = [] ∧
      (D (ident s)).filter (·.src = s) = [] ∧
      lk s = m.packet :: (x.conn s).map Message.packet ∧
      m.packet = ⟨t, (m.name, true), m.data⟩ := by
  have hfrom : Thread.from? (.slotWait s m.name ptr : Thread P T S O) = some s := rfl
  have hqs := h.slots.of_busy (.inl hh)
  have hlive : x.live ident (.slotWait s m.name ptr) = true := by
    simp [Node.live, Node.written, hqs.2, hh, Handler.isDone]
  have ha := h.jobs_eq hc hlive
  have h₁ := h.hand_other hc hfrom (List.sublist_append_left l₁ l₂)
  have h₂ := h.hand_other hc hfrom (List.sublist_append_right l₁ l₂)
  have hhand : x.hand.filter (·.1 = s) = [] := by
    rw [Node.hand_eq hc]
    simp only [Thread.hand?, Option.toList_none, List.nil_append, List.filter_append, h₁, h₂]
  have hlink : lk s = ((D (ident s)).filter (·.src = s) ++
      ((x.handler s).held ++ x.conn s)).map Message.packet := by
    rw [hD.link s, hhand, List.map_nil, List.nil_append, List.append_assoc]
  have hbox : (D (ident s)).filter (·.src = s) = [] :=
    hD.mailbox_eq_nil hlink fun p ps hp => hhead s t _ _ _ _ _ p ps (by rw [ha]; rfl) hp
  have hlk : lk s = m.packet :: (x.conn s).map Message.packet := by
    rw [hD.link s, hhand, hbox, hh]
    simp
  have htag := hhead s t _ _ _ _ _ m.packet _ (by rw [ha]; rfl) hlk
  rw [Message.tag_packet, Prod.mk.injEq] at htag
  exact ⟨hqs, hlive, hhand, hbox, hlk, by rw [Message.packet, htag.1, htag.2]⟩

omit [DecidableEq Id] in
/-- The handler reads the body into the posted buffer: the receive from the link. -/
theorem NSim.body (h : NSim ident write x a o lk) (hhead : HeadOk a lk) {s : P}
    {m : Message P T} {ptr : Addr} (hh : x.handler s = .write m ptr) :
    ∃ a' lk', Move a o lk a' o lk' ∧
      NSim ident write
        { x with
          handler := Function.update x.handler s (.done m ptr)
          store := write ptr m.data x.store } a' o lk' := by
  obtain ⟨D, hD⟩ := h.pipes
  have hmem := h.slots.busy s m ptr (.inl hh)
  obtain ⟨t, l₁, l₂, bs, hc⟩ := Node.mem_waiting hmem
  have hfrom : Thread.from? (.slotWait s m.name ptr : Thread P T S O) = some s := rfl
  obtain ⟨⟨hwq, hrq⟩, hlive, hhand, hbox, hlk, hpkt⟩ := h.write_head hhead hD hh hc
  have ha := h.jobs_eq hc hlive
  have hstep : LStep a (.recv s m.packet)
      ⟨⟨t, x.jobs ident write t l₁ ++ x.jobs ident write t l₂⟩ :: blocks write bs,
        write ptr m.data x.store⟩ := by
    rw [ha, hpkt]
    exact .recv
  have hslots : Slots ident x.waiting x.waitQ x.recvQ
      (Function.update x.handler s (.done m ptr)) :=
    h.slots_change hmem (fun _ _ _ => rfl) (fun _ _ _ => rfl)
      ⟨hwq, .inr (.inl ⟨hrq, m, rfl, rfl⟩)⟩
  have hpipes : Pipes ident D x.hand x.mailbox (Function.update x.handler s (.done m ptr))
      x.conn (Function.update lk s ((x.conn s).map Message.packet)) := by
    have hfits := hD.fits s
    rw [hh] at hfits
    refine ⟨hD.box, hD.dep, fun s' => ?_, hD.src_update rfl, hD.fits_update hfits, hD.got⟩
    by_cases hs : s' = s
    · subst hs
      simp [hhand, hbox]
    · simp [hs, hD.link]
  have hwait : Node.waiting
      { x with
        handler := Function.update x.handler s (.done m ptr)
        store := write ptr m.data x.store } = x.waiting := rfl
  refine ⟨_, _, .recv hstep hlk,
    h.replace
      { x with
        handler := Function.update x.handler s (.done m ptr)
        store := write ptr m.data x.store } hc hc (List.Sublist.refl _) ?_ h.out
      (by rw [hwait]; exact hslots) hpipes⟩
  have hdead : Node.live ident
      { x with
        handler := Function.update x.handler s (.done m ptr)
        store := write ptr m.data x.store } (.slotWait s m.name ptr) = false := by
    simp [Node.live, Node.written, Handler.isDone]
  rw [Node.jobs_append, Node.jobs_cons_of_not_live ident write t l₂ hdead, ← Node.jobs_append,
    ← Node.jobs_append]
  refine Node.jobs_congr ident write t fun th hth => ?_
  cases th with
  | slotWait id n p =>
      have hne : ident id ≠ ident s := h.other hc hfrom hth rfl
      have hid : id ≠ s := fun hc => hne (by rw [hc])
      simp [Node.live, Node.written, hid]
  | _ => rfl

/-- The handler signals the buffer it has filled. -/
theorem NSim.slotPut (h : NSim ident write x a o lk) {s : P} {m : Message P T} {ptr : Addr}
    (hh : x.handler s = .done m ptr) :
    NSim ident write
      { x with
        handler := Function.update x.handler s .idle
        recvQ := setBox x.recvQ (ident s) m.name (x.recvQ (ident s) m.name ++ [ptr]) }
      a o lk := by
  obtain ⟨D, hD⟩ := h.pipes
  have hmem := h.slots.busy s m ptr (.inr hh)
  obtain ⟨hwq, hrq⟩ := h.slots.of_busy (.inr hh)
  have hslots : Slots ident x.waiting x.waitQ
      (setBox x.recvQ (ident s) m.name (x.recvQ (ident s) m.name ++ [ptr]))
      (Function.update x.handler s .idle) :=
    h.slots_change hmem (fun _ _ _ => rfl) (fun y n hyn => setBox_ne _ _ _ _ hyn)
      ⟨hwq, .inr (.inr ⟨by rw [setBox_self, hrq, List.nil_append], rfl⟩)⟩
  have hpipes : Pipes ident D x.hand x.mailbox (Function.update x.handler s .idle) x.conn lk := by
    simpa using hD.move (s := s) (v := .idle) (l := x.conn s) (by simp [hh]) trivial
  refine h.keep _ rfl rfl rfl (fun id n p hmem' => ?_) hslots hpipes
  by_cases heq : ident id = ident s
  · obtain ⟨rfl, rfl, rfl⟩ := by simpa using h.waiting_unique hmem' hmem heq
    simp [Node.written, hh, Handler.isDone]
  · have hid : id ≠ s := fun hc => heq (by rw [hc])
    simp only [Node.written, setBox_ne _ _ _ _ fun hc => heq hc.1, Function.update_of_ne hid]

/-- **Every internal step of a node is a move of the process it stands for.** -/
theorem NSim.tau (h : NSim ident write x a o lk) (hhead : HeadOk a lk)
    (hexcl : ExclOk ident a lk) {self : P} {x' : Node P Id T S O}
    (hs : NStep ident write self x .tau x') :
    ∃ a' o' lk', Move a o lk a' o' lk' ∧ NSim ident write x' a' o' lk' := by
  cases hs with
  | join hc => exact ⟨_, _, _, h.join hc⟩
  | mailGet hc hbox => exact ⟨_, _, _, .stay, h.mailGet hhead hexcl hc hbox⟩
  | mailGot hc =>
      obtain ⟨a', lk', hm, hn⟩ := h.mailGot hhead hc
      exact ⟨a', o, lk', hm, hn⟩
  | slotGet hc _ => exact ⟨_, _, _, .stay, h.slotGet hc⟩
  | slotWait hc hq => exact ⟨_, _, _, .stay, h.slotWait hc hq⟩
  | @act t l₁ l₂ bs f hc =>
      have hn := h.erase hc rfl rfl (f x.store) x.returned
      refine ⟨_, o, lk, .tau ?_, by simpa [h.out] using hn⟩
      rw [h.jobs_eq hc rfl]
      exact .act
  | @ret t l₁ l₂ bs i f hc =>
      have hn := h.erase hc rfl rfl x.store (x.returned ++ [(i, f x.store)])
      refine ⟨_, o ++ [(i, f x.store)], lk, .emit ?_, by simpa [h.out] using hn⟩
      rw [h.jobs_eq hc rfl]
      exact .emit
  | header hh hcn => exact ⟨_, _, _, .stay, h.header hh hcn⟩
  | mailPut hh _ => exact ⟨_, _, _, .stay, h.mailPut hh⟩
  | slotTake hh hq => exact ⟨_, _, _, .stay, h.slotTake hexcl hh hq⟩
  | body hh =>
      obtain ⟨a', lk', hm, hn⟩ := h.body hhead hh
      exact ⟨a', o, lk', hm, hn⟩
  | slotPut hh _ => exact ⟨_, _, _, .stay, h.slotPut hh⟩

/-- A send of a node is a send of its process. -/
theorem NSim.send (h : NSim ident write x a o lk) {self id : P} {m : Message P T}
    {x' : Node P Id T S O} (hs : NStep ident write self x (.send id m) x') :
    m.src = self ∧ ∃ a', LStep a (.send id m.packet) a' ∧ NSim ident write x' a' o lk := by
  cases hs with
  | send hc =>
      refine ⟨rfl, _, ?_, by simpa [h.out] using h.erase hc rfl rfl x.store x.returned⟩
      rw [h.jobs_eq hc rfl]
      exact .send

/-- A launch is a wait of the process. -/
theorem NSim.launch (h : NSim ident write x a o lk) {self : P} {qs : List P} {t : T}
    {x' : Node P Id T S O} (hs : NStep ident write self x (.launch qs t) x') :
    ∃ a', LStep a (.await qs t) a' ∧ NSim ident write x' a' o lk := by
  cases hs with
  | launch hc =>
      refine ⟨_, ?_, by simpa [h.out] using h.erase hc rfl rfl x.store x.returned⟩
      rw [h.jobs_eq hc rfl]
      exact .await

omit [DecidableEq Id] in
/-- A message arrives at the end of the link. -/
theorem NSim.receive (h : NSim ident write x a o lk) {s : P} {m : Message P T} (hm : m.src = s) :
    NSim ident write (x.receive s m) a o (Function.update lk s (lk s ++ [m.packet])) where
  code := h.code
  store := h.store
  out := h.out
  fresh := h.fresh
  tidy := h.tidy
  slots := h.slots
  pipes := by
    obtain ⟨D, hD⟩ := h.pipes
    refine ⟨D, hD.box, hD.dep, fun s' => ?_, fun s' => ?_, hD.fits, hD.got⟩
    · by_cases hs : s' = s
      · subst hs
        simp [Node.receive, hD.link, Node.hand, Node.threads]
      · simp [Node.receive, hs, hD.link, Node.hand, Node.threads]
    · by_cases hs : s' = s
      · subst hs
        intro m' hm'
        simp only [Node.receive, Function.update_self, ← List.append_assoc] at hm'
        rcases List.mem_append.mp hm' with hm' | hm'
        · exact hD.src s' m' hm'
        · rw [List.mem_singleton.mp hm', hm]
      · simpa [Node.receive, hs] using hD.src s'

end Moves

end StdmlCollective

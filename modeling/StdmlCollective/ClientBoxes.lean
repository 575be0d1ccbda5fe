import Mathlib.Data.Set.Finite.Basic
import StdmlCollective.ClientLinks

/-!
# The boxes that a client fills

What `msg_handler_impl` does with the messages of a client, and how they are received. A message
that waits for a receive goes through the `queue_pair` of its name in the slot box: its handler
waits for a pointer in `waitQ`, reads the body and puts the pointer into `recvQ`. Any other message
is read and put into the channel of its name in the mailbox. A channel holds `cap` entries, so a
handler can wait before and after a message, and as long as it waits the messages behind it wait
too.

Every box is received from by one thread, which calls `get` some number of times. Where it calls it
at least as often as messages are sent to the box, no handler waits for ever (`client_delivers`).
-/

namespace StdmlCollective

/-- Where a message is put: at which peer, under which name, and into which kind of box. -/
structure BoxKey where
  target : PeerId
  name : Bytes
  slot : Bool
deriving DecidableEq

/-- The box of a message that arrives at `r`. -/
def Delivery.key (d : Delivery) (r : PeerId) : BoxKey := ⟨r, d.name, d.slot⟩

/-- The messages for the box, of those that arrive at its peer. -/
def BoxKey.only (k : BoxKey) (l : List Delivery) : List Delivery :=
  l.filter fun d => d.key k.target = k

/-- Where the receiver of a box is: in no `get` of a `queue_pair`; in one, with its pointer in
`waitQ`; in one, and the pointer has been taken from there. -/
inductive BoxReceiver where
  | idle
  | posted
  | taken
deriving DecidableEq

/-- A box: the calls of `get` to come, the receiver, what is in `recvQ` or in the channel of a
mailbox, and what has been received. -/
structure Box where
  calls : ℕ
  receiver : BoxReceiver
  full : List Delivery
  got : List Delivery

/-- A client, what the handler of each of its connections has taken and not put into a box yet, and
the boxes. -/
structure BoxRun (ι : Type) where
  client : ClientRun ι
  hand : ℕ → Option Delivery
  boxes : BoxKey → Box

namespace BoxRun

variable {ι : Type} [DecidableEq ι]

/-- Before the first call; `get` is called so many times. -/
def start (todo : ι → List (PeerId × Packet)) (calls : BoxKey → ℕ) : BoxRun ι :=
  ⟨.start todo, fun _ => none, fun k => ⟨calls k, .idle, [], []⟩⟩

/-- Box `k` changes. -/
def setBox (s : BoxRun ι) (k : BoxKey) (b : Box) : BoxRun ι :=
  { s with boxes := Function.update s.boxes k b }

/-- Connection `n` hands `d` to its handler. -/
def Hands (net : Transport) (write : ℕ → ℕ → Prop) (me : PeerId) (listening : PeerId → Prop)
    (s c : ClientRun ι) (n : ℕ) (d : Delivery) : Prop :=
  ClientRun.Step net write me connCollective listening s c ∧ n < s.dialled ∧
    (c.pipe n).handled = (s.pipe n).handled ++ [d]

/-- The steps of the client, the handlers and the receivers. -/
inductive Step (net : Transport) (write : ℕ → ℕ → Prop) (me : PeerId)
    (listening : PeerId → Prop) : BoxRun ι → BoxRun ι → Prop where
  /-- A step of the client in which nothing is handled. -/
  | client {s : BoxRun ι} {c : ClientRun ι} :
      ClientRun.Step net write me connCollective listening s.client c →
      (∀ n, n < s.client.dialled → (c.pipe n).handled = (s.client.pipe n).handled) →
      Step net write me listening s { s with client := c }
  /-- A body is read into the buffer of the receiver. The header has been read before, and what is
  not read stays on the way. -/
  | slot {s : BoxRun ι} {c : ClientRun ι} {n : ℕ} {d : Delivery} {k : BoxKey} :
      Hands net write me listening s.client c n d → s.hand n = none →
      k = d.key (s.client.pipe n).remote → k.slot = true → (s.boxes k).receiver = .posted →
      Step net write me listening s
        { s.setBox k { s.boxes k with receiver := .taken } with
          client := c, hand := Function.update s.hand n (some d) }
  /-- A body is read into a new buffer. -/
  | mail {s : BoxRun ι} {c : ClientRun ι} {n : ℕ} {d : Delivery} :
      Hands net write me listening s.client c n d → s.hand n = none → d.slot = false →
      Step net write me listening s
        { s with client := c, hand := Function.update s.hand n (some d) }
  /-- `put` of `recvQ`, or of the channel of a mailbox. -/
  | put {s : BoxRun ι} {n : ℕ} {d : Delivery} {k : BoxKey} :
      s.hand n = some d → k = d.key (s.client.pipe n).remote → (s.boxes k).full.length < cap →
      Step net write me listening s
        { s.setBox k { s.boxes k with full := (s.boxes k).full ++ [d] } with
          hand := Function.update s.hand n none }
  /-- `queue_pair::get` puts its pointer into `waitQ`. -/
  | post {s : BoxRun ι} {k : BoxKey} {m : ℕ} :
      k.slot = true → (s.boxes k).receiver = .idle → (s.boxes k).calls = m + 1 →
      Step net write me listening s
        (s.setBox k { s.boxes k with calls := m, receiver := .posted })
  /-- It takes the pointer from `recvQ`. -/
  | back {s : BoxRun ι} {k : BoxKey} {d : Delivery} {q : List Delivery} :
      (s.boxes k).receiver = .taken → (s.boxes k).full = d :: q →
      Step net write me listening s
        (s.setBox k { s.boxes k with
          receiver := .idle, full := q, got := (s.boxes k).got ++ [d] })
  /-- `get` of the channel of a mailbox. -/
  | get {s : BoxRun ι} {k : BoxKey} {m : ℕ} {d : Delivery} {q : List Delivery} :
      k.slot = false → (s.boxes k).calls = m + 1 → (s.boxes k).full = d :: q →
      Step net write me listening s
        (s.setBox k { s.boxes k with calls := m, full := q, got := (s.boxes k).got ++ [d] })

/-- What the client, the handlers and the receivers can have done. -/
abbrev Reach (net : Transport) (write : ℕ → ℕ → Prop) (me : PeerId) (listening : PeerId → Prop)
    (todo : ι → List (PeerId × Packet)) (calls : BoxKey → ℕ) : BoxRun ι → Prop :=
  Relation.ReflTransGen (Step net write me listening) (start todo calls)

end BoxRun

/-! ## One box -/

namespace BoxKey

variable {k : BoxKey} {d : Delivery}

@[simp] theorem only_nil (k : BoxKey) : k.only [] = [] := rfl

@[simp] theorem only_append (k : BoxKey) (l l' : List Delivery) :
    k.only (l ++ l') = k.only l ++ k.only l' := List.filter_append ..

theorem only_self {r : PeerId} (h : k = d.key r) : k.only [d] = [d] := by
  subst h
  simp [only, Delivery.key]

theorem only_other {r : PeerId} (hr : r = k.target) (h : k ≠ d.key r) : k.only [d] = [] := by
  subst hr
  simpa [only] using h.symm

end BoxKey

/-- The calls of `get` in which the receiver is. -/
def BoxReceiver.busy : BoxReceiver → ℕ
  | .idle => 0
  | .posted | .taken => 1

/-- How many steps the receiver of a box has still to take. -/
def Box.weight (b : Box) : ℕ :=
  3 * b.calls + match b.receiver with
    | .idle => 0
    | .posted => 2
    | .taken => 1

namespace Box

/-- What holds of a box when `handled` is what the connection to its peer has handed to its handler,
and `hand` what the handler has not put into a box yet. -/
structure Inv (k : BoxKey) (calls : ℕ) (hand : Option Delivery) (handled : List Delivery)
    (b : Box) : Prop where
  stream : b.got ++ b.full ++ k.only hand.toList = k.only handled
  calls : b.calls + b.got.length + b.receiver.busy = calls
  slot : k.slot = true →
    b.full.length + (k.only hand.toList).length = if b.receiver = .taken then 1 else 0
  mail : k.slot = false → b.receiver = .idle

variable {k : BoxKey} {calls m : ℕ} {hand : Option Delivery} {handled q : List Delivery} {b : Box}
variable {d : Delivery}

theorem Inv.start : Inv k calls none [] ⟨calls, .idle, [], []⟩ where
  stream := rfl
  calls := by simp [BoxReceiver.busy]
  slot _ := rfl
  mail _ := rfl

/-- A message for another box of the peer. -/
theorem Inv.other (h : Inv k calls hand handled b) {hand' : Option Delivery}
    {handled' : List Delivery} (hhand : k.only hand'.toList = k.only hand.toList)
    (hhandled : k.only handled' = k.only handled) : Inv k calls hand' handled' b where
  stream := by rw [hhand, hhandled, h.stream]
  calls := h.calls
  slot hk := by rw [hhand, h.slot hk]
  mail := h.mail

theorem Inv.slotTake (h : Inv k calls none handled b) (hk : k.slot = true)
    (hb : b.receiver = .posted) (hd : k.only [d] = [d]) :
    Inv k calls (some d) (handled ++ [d]) { b with receiver := .taken } where
  stream := by simp [hd, ← h.stream]
  calls := by simpa [hb, BoxReceiver.busy] using h.calls
  slot _ := by simpa [hb, hd] using h.slot hk
  mail hm := absurd hk (by simp [hm])

theorem Inv.mailTake (h : Inv k calls none handled b) (hk : k.slot = false)
    (hd : k.only [d] = [d]) : Inv k calls (some d) (handled ++ [d]) b where
  stream := by simp [hd, ← h.stream]
  calls := h.calls
  slot hs := absurd hs (by simp [hk])
  mail := h.mail

theorem Inv.put (h : Inv k calls (some d) handled b) (hd : k.only [d] = [d]) :
    Inv k calls none handled { b with full := b.full ++ [d] } where
  stream := by simpa [hd] using h.stream
  calls := h.calls
  slot hk := by simpa [hd] using h.slot hk
  mail := h.mail

theorem Inv.post (h : Inv k calls hand handled b) (hk : k.slot = true)
    (hb : b.receiver = .idle) (hm : b.calls = m + 1) :
    Inv k calls hand handled { b with calls := m, receiver := .posted } where
  stream := h.stream
  calls := by
    have := h.calls
    simp only [hb, hm, BoxReceiver.busy] at this ⊢
    omega
  slot _ := by simpa [hb] using h.slot hk
  mail hs := absurd hk (by simp [hs])

theorem Inv.back (h : Inv k calls hand handled b) (hb : b.receiver = .taken)
    (hq : b.full = d :: q) :
    Inv k calls hand handled { b with receiver := .idle, full := q, got := b.got ++ [d] } where
  stream := by simpa [hq] using h.stream
  calls := by
    have := h.calls
    simp only [hb, BoxReceiver.busy, List.length_append, List.length_singleton] at this ⊢
    omega
  slot hk := by
    have := h.slot hk
    simp only [hb, hq, List.length_cons, if_true] at this
    simp only [reduceCtorEq, if_false]
    omega
  mail hs := absurd (h.mail hs) (by simp [hb])

theorem Inv.get (h : Inv k calls hand handled b) (hk : k.slot = false) (hm : b.calls = m + 1)
    (hq : b.full = d :: q) :
    Inv k calls hand handled { b with calls := m, full := q, got := b.got ++ [d] } where
  stream := by simpa [hq] using h.stream
  calls := by
    have := h.calls
    simp only [hm, List.length_append, List.length_singleton] at this ⊢
    omega
  slot hs := absurd hs (by simp [hk])
  mail := h.mail

/-- A receiver that is in no call calls `get` again, unless it has received enough. -/
theorem Inv.calls_pos (h : Inv k calls hand handled b) (hb : b.receiver = .idle)
    (hgot : b.got.length < calls) : ∃ m, b.calls = m + 1 := by
  have hcalls := h.calls
  rw [hb, BoxReceiver.busy] at hcalls
  exact Nat.exists_eq_add_one.mpr (by omega)

/-- What has been received and what is in the box has been handed over. -/
theorem Inv.length_le (h : Inv k calls hand handled b) :
    b.got.length + b.full.length ≤ (k.only handled).length := by
  rw [← h.stream, List.length_append, List.length_append]
  omega

end Box

/-! ## What a step of the client hands over -/

namespace ClientRun

variable {ι : Type} [DecidableEq ι] {s s' : ClientRun ι} {n : ℕ}
variable {net : Transport} {write : ℕ → ℕ → Prop} {me : PeerId} {type : UInt16}
variable {listening : PeerId → Prop}

/-- A connection stays what it is. -/
theorem Step.remote (hs : Step net write me type listening s s') (hn : n < s.dialled) :
    n < s'.dialled ∧ (s'.pipe n).remote = (s.pipe n).remote := by
  cases hs with
  | call _ _ _ | found _ _ => exact ⟨hn, rfl⟩
  | connect _ _ _ => exact ⟨Nat.lt_succ_of_lt hn, by simp [hn.ne]⟩
  | writeHeader _ _ _ | lock _ _ | unlock _ =>
      exact ⟨hn, remote_setPipe (s := s.goTo _ _) (by rfl) n⟩
  | readAck _ _ => exact ⟨hn, remote_setPipe (s := s.goTo _ _) (by rfl) n⟩
  | readHeader _ _ _ | writeAck _ _ _ _ | serve _ _ | write _ _ _ | next _ | handle _ _ _ =>
      exact ⟨hn, remote_setPipe (by rfl) n⟩

/-- Nothing has been handled on a new connection. -/
theorem Step.handled_new (hs : Step net write me type listening s s') (hn : s.dialled ≤ n)
    (hn' : n < s'.dialled) : (s'.pipe n).handled = [] := by
  cases hs with
  | connect _ _ _ =>
      have hnd : n = s.dialled := Nat.le_antisymm (Nat.lt_succ_iff.mp hn') hn
      simp [hnd, Pipe.fresh]
  | _ => exact absurd hn' (Nat.not_lt.mpr hn)

omit [DecidableEq ι] in
theorem handled_setPipe {x : Pipe ι} (h : x.handled = (s.pipe n).handled) (m : ℕ) :
    ((s.setPipe n x).pipe m).handled = (s.pipe m).handled := by
  by_cases hm : m = n
  · subst hm
    simp [h]
  · simp [hm]

/-- One message is handed over, or none. -/
theorem Step.handled (hs : Step net write me type listening s s') :
    (∀ n, n < s.dialled → (s'.pipe n).handled = (s.pipe n).handled) ∨
      ∃ n d, n < s.dialled ∧ s'.dialled = s.dialled ∧
        (s'.pipe n).handled = (s.pipe n).handled ++ [d] ∧
          ∀ m, m ≠ n → (s'.pipe m).handled = (s.pipe m).handled := by
  cases hs with
  | call _ _ _ | found _ _ => exact .inl fun _ _ => rfl
  | connect _ _ _ => exact .inl fun n hn => by simp [hn.ne]
  | writeHeader _ _ _ | lock _ _ | unlock _ =>
      exact .inl fun n _ => handled_setPipe (s := s.goTo _ _) (by rfl) n
  | readAck _ _ => exact .inl fun n _ => handled_setPipe (s := s.goTo _ _) (by rfl) n
  | readHeader _ _ _ | writeAck _ _ _ _ | serve _ _ | write _ _ _ | next _ =>
      exact .inl fun n _ => handled_setPipe (by rfl) n
  | @handle n _ _ d _ hn _ _ =>
      exact .inr ⟨n, d, hn, rfl, by simp, fun m hm => by simp [hm]⟩

end ClientRun

namespace BoxRun

variable {ι : Type} [DecidableEq ι] {s s' : BoxRun ι} {n : ℕ} {d : Delivery} {k : BoxKey}
variable {net : Transport} {write : ℕ → ℕ → Prop} {me : PeerId} {limit : ℕ} {clean : Prop}
variable {listening : PeerId → Prop} {todo : ι → List (PeerId × Packet)} {calls : BoxKey → ℕ}

/-- Nothing happens on the other connections. -/
theorem Hands.other {s c : ClientRun ι} (h : Hands net write me listening s c n d) :
    c.dialled = s.dialled ∧ ∀ m, m ≠ n → (c.pipe m).handled = (s.pipe m).handled := by
  obtain ⟨hs, hn, hd⟩ := h
  rcases hs.handled with hsame | ⟨n', d', -, hdialled, -, hother⟩
  · rw [hsame n hn] at hd
    simp at hd
  · have hnn : n = n' := by
      by_contra hne
      rw [hother n hne] at hd
      simp at hd
    subst hnn
    exact ⟨hdialled, hother⟩

/-- A step of a run with boxes is a step of the client, or leaves it as it is. -/
theorem Step.client_step (hs : Step net write me listening s s') :
    Relation.ReflGen (ClientRun.Step net write me connCollective listening) s.client s'.client := by
  cases hs with
  | client hc _ => exact .single hc
  | slot hc _ _ _ _ | mail hc _ _ => exact .single hc.1
  | put _ _ _ | post _ _ _ | back _ _ | get _ _ _ => exact .refl

theorem Reach.client (h : Reach net write me listening todo calls s) :
    ClientRun.Reach net write me connCollective listening todo s.client := by
  induction h with
  | refl => exact .refl
  | tail _ hs ih => exact ih.trans hs.client_step.to_reflTransGen

/-! ## All boxes -/

/-- What holds of all boxes. -/
structure Inv (calls : BoxKey → ℕ) (s : BoxRun ι) : Prop where
  hand : ∀ n, s.client.dialled ≤ n → s.hand n = none
  box : ∀ k n, n < s.client.dialled → (s.client.pipe n).remote = k.target →
    (s.boxes k).Inv k (calls k) (s.hand n) (s.client.pipe n).handled
  fresh : ∀ k, (∀ n, n < s.client.dialled → (s.client.pipe n).remote ≠ k.target) →
    (s.boxes k).Inv k (calls k) none []

omit [DecidableEq ι] in
theorem Inv.start : Inv calls (start todo calls : BoxRun ι) where
  hand _ _ := rfl
  box _ _ hn := absurd hn (by simp [BoxRun.start, ClientRun.start])
  fresh _ _ := .start

/-- The target of a box has one connection. -/
def OneEach (c : ClientRun ι) : Prop :=
  ∀ n m, n < c.dialled → m < c.dialled → (c.pipe n).remote = (c.pipe m).remote → n = m

omit [DecidableEq ι] in
theorem Inv.lt_of_hand (h : Inv calls s) (hd : s.hand n = some d) : n < s.client.dialled := by
  by_contra hn
  rw [h.hand n (Nat.le_of_not_lt hn)] at hd
  cases hd

omit [DecidableEq ι] in
/-- A box changes, and what it has from its connection does not. -/
theorem Inv.setBox (h : Inv calls s) {b : Box}
    (hb : ∀ hand handled, (s.boxes k).Inv k (calls k) hand handled →
      b.Inv k (calls k) hand handled) : Inv calls (s.setBox k b) where
  hand := h.hand
  box k' n hn hr := by
    by_cases hk : k' = k
    · subst hk
      simpa [BoxRun.setBox] using hb _ _ (h.box k' n hn hr)
    · simpa [BoxRun.setBox, hk] using h.box k' n hn hr
  fresh k' hr := by
    by_cases hk : k' = k
    · subst hk
      simpa [BoxRun.setBox] using hb _ _ (h.fresh k' hr)
    · simpa [BoxRun.setBox, hk] using h.fresh k' hr

omit [DecidableEq ι] in
/-- Something happens at the handler of connection `n`: to the box of the message `d`, and to no
other. -/
theorem Inv.update (h : Inv calls s) {c : ClientRun ι} {o : Option Delivery} {b : Box}
    (hone : OneEach s.client) (hn : n < s.client.dialled) (hdialled : c.dialled = s.client.dialled)
    (hremote : ∀ m, m < s.client.dialled → (c.pipe m).remote = (s.client.pipe m).remote)
    (hother : ∀ m, m ≠ n → (c.pipe m).handled = (s.client.pipe m).handled)
    (hk : k = d.key (s.client.pipe n).remote)
    (hb : k.only [d] = [d] → (s.boxes k).Inv k (calls k) (s.hand n) (s.client.pipe n).handled →
      b.Inv k (calls k) o (c.pipe n).handled)
    (hrest : ∀ k' : BoxKey, k'.only [d] = [] → k'.only o.toList = k'.only (s.hand n).toList ∧
      k'.only (c.pipe n).handled = k'.only (s.client.pipe n).handled) :
    Inv calls { s.setBox k b with client := c, hand := Function.update s.hand n o } where
  hand m hm := by
    rw [hdialled] at hm
    have hmn : m ≠ n := by omega
    simpa [hmn] using h.hand m hm
  box k' m hm hr := by
    rw [hdialled] at hm
    rw [hremote m hm] at hr
    have hold := h.box k' m hm hr
    by_cases hkk : k' = k
    · -- the box of the message, whose connection is `n`
      subst hkk
      have hmn : m = n := hone m n hm hn (by rw [hr, hk]; rfl)
      subst hmn
      simpa [BoxRun.setBox] using hb (BoxKey.only_self hk) hold
    · by_cases hmn : m = n
      · subst hmn
        obtain ⟨hhand, hhandled⟩ := hrest k' (BoxKey.only_other hr (hk ▸ hkk))
        simpa [BoxRun.setBox, hkk] using hold.other hhand hhandled
      · simpa [BoxRun.setBox, hkk, hmn, hother m hmn] using hold
  fresh k' hr := by
    have hkk : k' ≠ k := by
      rintro rfl
      refine hr n (hdialled ▸ hn) ?_
      rw [hremote n hn, hk]
      rfl
    have hold := h.fresh k' fun m hm => hremote m hm ▸ hr m (hdialled ▸ hm)
    simpa [BoxRun.setBox, hkk] using hold

/-- **Every step keeps the invariant.** -/
theorem Inv.step (h : Inv calls s) (hone : OneEach s.client) (hone' : OneEach s'.client)
    (hs : Step net write me listening s s') : Inv calls s' := by
  cases hs with
  | @client c hc hsame =>
      refine ⟨fun n hn => h.hand n ?_, fun k n hn hr => ?_, fun k hr => h.fresh k fun n hn => ?_⟩
      · exact Nat.le_of_not_lt fun hlt => absurd (hc.remote hlt).1 (Nat.not_lt.mpr hn)
      · by_cases hold : n < s.client.dialled
        · change (s.boxes k).Inv k (calls k) (s.hand n) (c.pipe n).handled
          rw [hsame n hold]
          exact h.box k n hold ((hc.remote hold).2 ▸ hr)
        · -- a new connection: none was there to the same target
          have hle := Nat.le_of_not_lt hold
          change (s.boxes k).Inv k (calls k) (s.hand n) (c.pipe n).handled
          rw [h.hand n hle, hc.handled_new hle hn]
          refine h.fresh k fun m hm hrm => hold ?_
          obtain ⟨hm', hremote⟩ := hc.remote hm
          rw [hone' n m hn hm' (by rw [hr, hremote, hrm])]
          exact hm
      · obtain ⟨hn', hremote⟩ := hc.remote hn
        rw [← hremote]
        exact hr n hn'
  | @slot c n d k hc hhand hk hslot hposted =>
      obtain ⟨hdialled, hother⟩ := hc.other
      refine h.update hone hc.2.1 hdialled (fun m hm => (hc.1.remote hm).2) hother hk ?_ ?_
      · intro hd hold
        rw [hhand] at hold
        rw [hc.2.2]
        exact hold.slotTake hslot hposted hd
      · intro k' hk'
        rw [hc.2.2, hhand]
        simp [hk']
  | @mail c n d hc hhand hslot =>
      obtain ⟨hdialled, hother⟩ := hc.other
      have hstay : Function.update s.boxes (d.key (s.client.pipe n).remote)
          (s.boxes (d.key (s.client.pipe n).remote)) = s.boxes := Function.update_eq_self ..
      have hbox := h.update (d := d) (o := some d) (b := s.boxes (d.key (s.client.pipe n).remote)) hone
        hc.2.1 hdialled (fun m hm => (hc.1.remote hm).2) hother rfl ?_ ?_
      · rwa [BoxRun.setBox, hstay] at hbox
      · intro hd hold
        rw [hhand] at hold
        rw [hc.2.2]
        exact hold.mailTake hslot hd
      · intro k' hk'
        rw [hc.2.2, hhand]
        simp [hk']
  | @put n d k hhand hk hfull =>
      refine h.update hone (h.lt_of_hand hhand) rfl (fun _ _ => rfl) (fun _ _ => rfl) hk ?_ ?_
      · intro hd hold
        rw [hhand] at hold
        exact hold.put hd
      · exact fun k' hk' => ⟨by simp [hhand, hk'], rfl⟩
  | post hk hb hm => exact h.setBox fun _ _ hold => hold.post hk hb hm
  | back hb hq => exact h.setBox fun _ _ hold => hold.back hb hq
  | get hk hm hq => exact h.setBox fun _ _ hold => hold.get hk hm hq

/-! ## Nothing is stuck -/

/-- How many messages are sent to a box. -/
def expected [Fintype ι] (todo : ι → List (PeerId × Packet)) (k : BoxKey) : ℕ :=
  ∑ i, (Links.select k.target (todo i)).countP fun p => p.delivery.key k.target = k

/-- What has been handed over for a box. -/
def sent (s : BoxRun ι) (k : BoxKey) : List Delivery :=
  k.only ((s.client.links.got k.target).map fun y => y.2.delivery)

/-- All calls have returned, and all messages are where they have been received. -/
def Done (s : BoxRun ι) : Prop :=
  s.client.Done ∧ (∀ n, s.hand n = none) ∧ ∀ k, (s.boxes k).full = []

/-- No more is handed over than `get` is called for. -/
def Enough (calls : BoxKey → ℕ) (c : ClientRun ι) : Prop :=
  ∀ k n, n < c.dialled → (c.pipe n).remote = k.target →
    (k.only (c.pipe n).handled).length ≤ calls k

omit [DecidableEq ι] in
/-- What a box relies on. -/
theorem Inv.exists_box (h : Inv calls s) (k : BoxKey) :
    ∃ hand handled, (s.boxes k).Inv k (calls k) hand handled ∧
      (Enough calls s.client → (k.only handled).length ≤ calls k) := by
  by_cases hk : ∃ n, n < s.client.dialled ∧ (s.client.pipe n).remote = k.target
  · obtain ⟨n, hn, hr⟩ := hk
    exact ⟨_, _, h.box k n hn hr, fun hle => hle k n hn hr⟩
  · exact ⟨_, _, h.fresh k fun n hn hr => hk ⟨n, hn, hr⟩, fun _ => Nat.zero_le _⟩

/-- What is in a box is received. -/
theorem Inv.receive_step (h : Inv calls s) (hle : Enough calls s.client)
    (hfull : (s.boxes k).full ≠ []) : ∃ s', Step net write me listening s s' := by
  obtain ⟨hand, handled, hbox, hlen⟩ := h.exists_box k
  obtain ⟨d, q, hq⟩ := List.exists_cons_of_ne_nil hfull
  cases hslot : k.slot with
  | true =>
      have htaken : (s.boxes k).receiver = .taken := by
        by_contra hne
        have hnone := hbox.slot hslot
        rw [if_neg hne, hq, List.length_cons] at hnone
        omega
      exact ⟨_, .back htaken hq⟩
  | false =>
      have hle' := hbox.length_le
      rw [hq, List.length_cons] at hle'
      obtain ⟨m, hm⟩ := hbox.calls_pos (hbox.mail hslot) (by have := hlen hle; omega)
      exact ⟨_, .get hslot hm hq⟩

/-- A handler that has a message in its hand puts it into the box, or the box is full and is
received from. -/
theorem Inv.put_step (h : Inv calls s) (hle : Enough calls s.client) (hd : s.hand n = some d) :
    ∃ s', Step net write me listening s s' := by
  by_cases hfull : (s.boxes (d.key (s.client.pipe n).remote)).full = []
  · exact ⟨_, .put hd rfl (by simp [hfull, cap])⟩
  · exact h.receive_step hle hfull

/-- When there is a message, its handler takes it, or what the handler waits for goes on. -/
theorem Inv.hand_step (h : Inv calls s) (hle : Enough calls s.client) {c : ClientRun ι}
    (hc : Hands net write me listening s.client c n d) (hle' : Enough calls c) :
    ∃ s', Step net write me listening s s' := by
  cases hhand : s.hand n with
  | some d' => exact h.put_step hle hhand
  | none =>
      cases hslot : d.slot with
      | false => exact ⟨_, .mail hc hhand hslot⟩
      | true =>
          obtain ⟨hn', hr'⟩ := hc.1.remote hc.2.1
          have hbox := h.box (d.key (s.client.pipe n).remote) n hc.2.1 rfl
          rw [hhand] at hbox
          cases hreceiver : (s.boxes (d.key (s.client.pipe n).remote)).receiver with
          | posted => exact ⟨_, .slot hc hhand rfl hslot hreceiver⟩
          | taken =>
              have hone := hbox.slot hslot
              refine h.receive_step hle (k := d.key (s.client.pipe n).remote) fun hfull => ?_
              simp [hreceiver, hfull] at hone
          | idle =>
              -- the message is one more than have been handed over
              have hlen := hle' (d.key (s.client.pipe n).remote) n hn' hr'
              have hgot := hbox.length_le
              rw [hc.2.2, BoxKey.only_append, BoxKey.only_self rfl, List.length_append,
                List.length_singleton] at hlen
              obtain ⟨m, hm⟩ := hbox.calls_pos hreceiver (by omega)
              exact ⟨_, .post hslot hreceiver hm⟩

section Reach

variable (hnet : net.Exact limit clean) (hl : limit ≤ 2 ^ 32) (hfour : 8 < limit)
variable (hfits : ∀ i, ∀ y ∈ todo i, y.2.Fits limit)

include hnet hl hfour hfits

theorem oneEach_of_reach {c : ClientRun ι}
    (hc : ClientRun.Reach net write me connCollective listening todo c) : OneEach c :=
  fun _ _ hn hm hr => (ClientRun.Reach.inv hc hnet hl hfour hfits).eq_of_remote hn hm hr

theorem Reach.inv (hs : Reach net write me listening todo calls s) : Inv calls s := by
  induction hs with
  | refl => exact .start
  | tail hs hstep ih =>
      exact ih.step (oneEach_of_reach hnet hl hfour hfits (Reach.client hs))
        (oneEach_of_reach hnet hl hfour hfits (Reach.client (hs.tail hstep))) hstep

theorem enough_of_reach [Fintype ι] (hcalls : ∀ k, expected todo k ≤ calls k) {c : ClientRun ι}
    (hc : ClientRun.Reach net write me connCollective listening todo c) : Enough calls c := by
  intro k n hn hr
  have hlinks := ClientRun.Reach.links hc hnet hl hfour hfits
  refine Nat.le_trans ?_ (hcalls k)
  rw [((ClientRun.Reach.inv hc hnet hl hfour hfits).handled hn).1, hr, BoxKey.only,
    ← List.countP_eq_length_filter, List.countP_map]
  exact Links.Reach.countP_le hlinks k.target fun p => p.delivery.key k.target = k

/-- **No state before the end is stuck**, when the servers of all targets are up and `get` is called
often enough. -/
theorem Reach.progress [Fintype ι] (hs : Reach net write me listening todo calls s)
    (hcalls : ∀ k, expected todo k ≤ calls k) (hsome : ∀ n, 0 < n → ∃ k, write k n)
    (hup : ∀ i, ∀ y ∈ todo i, listening y.1) (hdone : ¬s.Done) :
    ∃ s', Step net write me listening s s' := by
  have hinv := Reach.inv hnet hl hfour hfits hs
  have hc := Reach.client hs
  have hle := enough_of_reach hnet hl hfour hfits hcalls hc
  by_cases hclient : s.client.Done
  · by_cases hhand : ∀ n, s.hand n = none
    · obtain ⟨k, hk⟩ : ∃ k, (s.boxes k).full ≠ [] := by
        by_contra hno
        exact hdone ⟨hclient, hhand, fun k => by_contra fun hk => hno ⟨k, hk⟩⟩
      exact hinv.receive_step hle hk
    · obtain ⟨n, hn⟩ := not_forall.mp hhand
      obtain ⟨d, hd⟩ := Option.ne_none_iff_exists'.mp hn
      exact hinv.put_step hle hd
  · obtain ⟨c, hstep⟩ := (ClientRun.Reach.inv hc hnet hl hfour hfits).progress hnet hl hfour hsome
      (ClientRun.Reach.targets_up hc hnet hl hfour hfits hup) hclient
    rcases hstep.handled with hsame | ⟨n, d, hn, -, hd, -⟩
    · exact ⟨_, .client hstep hsame⟩
    · exact hinv.hand_step hle ⟨hstep, hn, hd⟩
        (enough_of_reach hnet hl hfour hfits hcalls (hc.tail hstep))

end Reach

/-! ## The end of a run -/

section Weight

open Threads

variable [Fintype ι] {K : Finset BoxKey}

/-- How many steps the handlers, the receivers of the boxes in `K` and the client have still to
take; a message that is handed over gives its handler one more. -/
def weight (K : Finset BoxKey) (s : BoxRun ι) : ℕ :=
  2 * s.client.weight + ∑ n ∈ Finset.range s.client.dialled, (s.hand n).toList.length +
    ∑ k ∈ K, (s.boxes k).weight

omit [DecidableEq ι] in
theorem weight_setBox_lt (hk : k ∈ K) {b : Box} (hb : b.weight < (s.boxes k).weight) :
    (s.setBox k b).weight K < s.weight K := by
  have hsum := sum_update Box.weight s.boxes hk b
  simp only [weight, setBox]
  omega

omit [DecidableEq ι] [Fintype ι] in
/-- No box gets more to do. -/
theorem sum_weight_le {b : Box} (hb : b.weight ≤ (s.boxes k).weight) :
    ∑ k' ∈ K, ((s.setBox k b).boxes k').weight ≤ ∑ k' ∈ K, (s.boxes k').weight := by
  refine Finset.sum_le_sum fun k' _ => ?_
  by_cases hk : k' = k
  · subst hk
    simpa [setBox] using hb
  · simp [setBox, hk]

/-- **Every step leaves less to be done.** -/
theorem Inv.weight_step (h : Inv calls s) (hclient : s.client.Inv me connCollective limit)
    (hK : ∀ k, calls k ≠ 0 → k ∈ K) (hnet : net.Exact limit clean) (hl : limit ≤ 2 ^ 32)
    (hfour : 8 < limit) (hwrite : ∀ k n, write k n → 0 < k)
    (hs : Step net write me listening s s') : s'.weight K < s.weight K := by
  have hmem : ∀ {k}, 0 < (s.boxes k).calls + (s.boxes k).receiver.busy → k ∈ K := by
    intro k hpos
    obtain ⟨hand, handled, hbox, -⟩ := h.exists_box k
    have hcalls := hbox.calls
    exact hK k (by omega)
  -- a message is handed over
  have hhands : ∀ {c n d}, Hands net write me listening s.client c n d → s.hand n = none →
      2 * c.weight + ∑ m ∈ Finset.range c.dialled,
        (Function.update s.hand n (some d) m).toList.length <
      2 * s.client.weight +
        ∑ m ∈ Finset.range s.client.dialled, (s.hand m).toList.length := by
    intro c n d hc hhand
    have hlt := hclient.weight_step hnet hl hfour hwrite hc.1
    have hsum := sum_update (fun o : Option Delivery => o.toList.length) s.hand
      (Finset.mem_range.mpr hc.2.1) (some d)
    rw [hc.other.1]
    simp only [hhand, Option.toList_none, Option.toList_some, List.length_nil,
      List.length_singleton] at hsum
    omega
  cases hs with
  | @client c hc _ =>
      have hlt := hclient.weight_step hnet hl hfour hwrite hc
      have hsum : ∑ n ∈ Finset.range c.dialled, (s.hand n).toList.length ≤
          ∑ n ∈ Finset.range s.client.dialled, (s.hand n).toList.length := by
        refine Finset.sum_le_sum_of_ne_zero fun n _ hne => Finset.mem_range.mpr ?_
        by_contra hn
        rw [h.hand n (Nat.le_of_not_lt hn)] at hne
        exact hne rfl
      simp only [weight]
      omega
  | @slot c n d k hc hhand _ _ hposted =>
      have hlt := hhands hc hhand
      have hboxes := sum_weight_le (K := K) (s := s) (k := k)
        (b := { s.boxes k with receiver := .taken }) (by simp [Box.weight, hposted])
      exact Nat.add_lt_add_of_lt_of_le hlt hboxes
  | mail hc hhand _ => exact Nat.add_lt_add_right (hhands hc hhand) _
  | @put n d k hhand _ _ =>
      have hboxes := sum_weight_le (K := K) (s := s) (k := k)
        (b := { s.boxes k with full := (s.boxes k).full ++ [d] }) le_rfl
      have hsum := sum_update (fun o : Option Delivery => o.toList.length) s.hand
        (Finset.mem_range.mpr (h.lt_of_hand hhand)) none
      simp only [hhand, Option.toList_none, Option.toList_some, List.length_nil,
        List.length_singleton] at hsum
      exact Nat.add_lt_add_of_lt_of_le (Nat.add_lt_add_left (Nat.lt_of_succ_le hsum.le) _) hboxes
  | post _ hb hm =>
      exact weight_setBox_lt (hmem (by omega)) (by simp [Box.weight, hb, hm]; omega)
  | back hb _ =>
      exact weight_setBox_lt (hmem (by simp [hb, BoxReceiver.busy])) (by simp [Box.weight, hb])
  | get _ hm _ => exact weight_setBox_lt (hmem (by omega)) (by simp [Box.weight, hm])

end Weight

section Exact

variable [Fintype ι]

/-- **Every run ends.** -/
theorem Reach.acc (hs : Reach net write me listening todo calls s) (hnet : net.Exact limit clean)
    (hl : limit ≤ 2 ^ 32) (hfour : 8 < limit) (hfits : ∀ i, ∀ y ∈ todo i, y.2.Fits limit)
    (hwrite : ∀ k n, write k n → 0 < k) {K : Finset BoxKey} (hK : ∀ k, calls k ≠ 0 → k ∈ K) :
    Acc (fun y x => Step net write me listening x y) s := by
  generalize hw : s.weight K = w
  induction w using Nat.strong_induction_on generalizing s with
  | _ w ih =>
      refine Acc.intro _ fun s' hstep => ?_
      have hlt := (Reach.inv hnet hl hfour hfits hs).weight_step
        (ClientRun.Reach.inv (Reach.client hs) hnet hl hfour hfits) hK hnet hl hfour hwrite hstep
      exact ih _ (hw ▸ hlt) (hs.tail hstep) rfl

/-- **Every message arrives.** When the servers of all targets are up, and `get` is called for every
box at least as often as messages are sent to it, every run of the threads, the handlers and the
receivers comes to an end and is not stuck before. What has been received from a box is what has
been handed over for it, in this order; and at the end it is all that has been sent to it, in the
order of every thread. -/
theorem client_delivers (hnet : net.Exact limit clean) (hl : limit ≤ 2 ^ 32) (hfour : 8 < limit)
    (hfits : ∀ i, ∀ y ∈ todo i, y.2.Fits limit) (hwrite : ∀ k n, write k n → 0 < k)
    (hsome : ∀ n, 0 < n → ∃ k, write k n) (hup : ∀ i, ∀ y ∈ todo i, listening y.1)
    (hfinite : {k | calls k ≠ 0}.Finite) (hcalls : ∀ k, expected todo k ≤ calls k)
    (hs : Reach net write me listening todo calls s) :
    ClientRun.Reach net write me connCollective listening todo s.client ∧
      (∀ k, (s.boxes k).got <+: s.sent k) ∧
      Acc (fun y x => Step net write me listening x y) s ∧
      (¬s.Done → ∃ s', Step net write me listening s s') ∧
      (s.Done → (∀ k, (s.boxes k).got = s.sent k) ∧
        ∀ i r, Links.select i (s.client.links.got r) = Links.select r (todo i)) := by
  have hclient := Reach.client hs
  have hinv := Reach.inv hnet hl hfour hfits hs
  have hcinv := ClientRun.Reach.inv hclient hnet hl hfour hfits
  -- what a box has from its connection
  have hbox : ∀ k, ∃ hand handled, (s.boxes k).Inv k (calls k) hand handled ∧
      k.only handled = s.sent k ∧ ((∀ n, s.hand n = none) → hand = none) := by
    intro k
    by_cases hk : ∃ n, n < s.client.dialled ∧ (s.client.pipe n).remote = k.target
    · obtain ⟨n, hn, hr⟩ := hk
      refine ⟨_, _, hinv.box k n hn hr, ?_, fun hnone => hnone n⟩
      rw [(hcinv.handled hn).1, hr, sent]
    · have hno : ∀ n, n < s.client.dialled → (s.client.pipe n).remote ≠ k.target :=
        fun n hn hr => hk ⟨n, hn, hr⟩
      refine ⟨_, _, hinv.fresh k hno, ?_, fun _ => rfl⟩
      rw [sent, hcinv.got_of_none hno, List.map_nil]
  refine ⟨hclient, fun k => ?_, ?_, ?_, fun hdone => ⟨fun k => ?_, ?_⟩⟩
  · obtain ⟨hand, handled, hk, hsent, -⟩ := hbox k
    rw [← hsent, ← hk.stream, List.append_assoc]
    exact List.prefix_append _ _
  · exact Reach.acc hs hnet hl hfour hfits hwrite fun k hk => hfinite.mem_toFinset.mpr hk
  · exact Reach.progress hnet hl hfour hfits hs hcalls hsome hup
  · obtain ⟨hand, handled, hk, hsent, hnone⟩ := hbox k
    have hstream := hk.stream
    rw [hnone hdone.2.1, hdone.2.2 k] at hstream
    rw [← hsent, ← hstream]
    simp
  · exact ClientRun.all_of_done hclient hnet hl hfour hfits hdone.1

/-- A run can be carried to its end. -/
theorem Reach.exists_done (hs : Reach net write me listening todo calls s)
    (hnet : net.Exact limit clean) (hl : limit ≤ 2 ^ 32) (hfour : 8 < limit)
    (hfits : ∀ i, ∀ y ∈ todo i, y.2.Fits limit) (hwrite : ∀ k n, write k n → 0 < k)
    (hsome : ∀ n, 0 < n → ∃ k, write k n) (hup : ∀ i, ∀ y ∈ todo i, listening y.1)
    {K : Finset BoxKey} (hK : ∀ k, calls k ≠ 0 → k ∈ K)
    (hcalls : ∀ k, expected todo k ≤ calls k) :
    ∃ s', Reach net write me listening todo calls s' ∧ s'.Done := by
  induction Reach.acc hs hnet hl hfour hfits hwrite hK with
  | intro s _ ih =>
      by_cases hdone : s.Done
      · exact ⟨s, hs, hdone⟩
      · obtain ⟨s', hstep⟩ := Reach.progress hnet hl hfour hfits hs hcalls hsome hup hdone
        exact ih s' hstep (hs.tail hstep)

end Exact

/-- Two threads that both send a message to a slot of one peer, and then one to the mailbox of
another. -/
def mixedTodo : Bool → List (PeerId × Packet) := fun _ =>
  [(⟨1, 1⟩, Sender.small), (⟨2, 2⟩, Sender.tiny)]

/-- The boxes of these messages. -/
def mixedKeys : Finset BoxKey :=
  {Sender.small.delivery.key ⟨1, 1⟩, Sender.tiny.delivery.key ⟨2, 2⟩}

theorem mixedTodo_fits (i : Bool) : ∀ y ∈ mixedTodo i, y.2.Fits (2 ^ 32) := by
  have hfits : ∀ b, ∀ p ∈ Sender.twoThreads b, p.Fits (2 ^ 32) := fun b p hp =>
    (Sender.twoThreads_fits b p hp).mono (by omega)
  simp only [mixedTodo, List.mem_cons, List.not_mem_nil, or_false]
  rintro y (rfl | rfl)
  · exact hfits true _ (List.mem_singleton_self _)
  · exact hfits false _ (List.mem_singleton_self _)

theorem expected_mixedTodo (k : BoxKey) :
    expected mixedTodo k ≤ if k ∈ mixedKeys then 2 else 0 := by
  by_cases hk : k ∈ mixedKeys
  · rw [if_pos hk]
    simp only [mixedKeys, Finset.mem_insert, Finset.mem_singleton] at hk
    rcases hk with rfl | rfl <;> decide
  · -- no message is for another box
    rw [if_neg hk]
    refine Nat.le_of_eq (Finset.sum_eq_zero fun i _ => List.countP_eq_zero.mpr fun p hp => ?_)
    rw [Links.mem_select, mixedTodo, List.mem_pair, Prod.mk.injEq, Prod.mk.injEq] at hp
    rw [decide_eq_true_eq]
    intro hkey
    refine hk ?_
    rw [← hkey]
    rcases hp with ⟨hr, rfl⟩ | ⟨hr, rfl⟩ <;> simp [mixedKeys, hr]

/-- Where two threads have sent `p`, it is there twice. -/
theorem map_snd_of_select {l : List (Bool × Packet)} {p : Packet}
    (h : ∀ i, Links.select i l = [p]) : l.map Prod.snd = [p, p] := by
  have hlen := Links.sum_countP_select (fun _ => true) l
  simp only [h, List.countP_true, List.length_singleton, Finset.sum_const, Finset.card_univ,
    Fintype.card_bool] at hlen
  refine (List.eq_replicate_iff (n := 2)).mpr ⟨by rw [List.length_map, ← hlen]; rfl, ?_⟩
  intro q hq
  obtain ⟨⟨i, q⟩, hmem, rfl⟩ := List.mem_map.mp hq
  rw [← Links.mem_select, h i] at hmem
  exact List.mem_singleton.mp hmem

theorem mem_of_mixedCalls {k : BoxKey} (hk : (if k ∈ mixedKeys then 2 else 0) ≠ 0) :
    k ∈ mixedKeys :=
  by_contra fun hno => hk (if_neg hno)

/-- The two threads, the handlers and the receivers come to an end. -/
theorem exists_mixedDone : ∃ s, Reach Cxx20.transport writeSome ⟨3, 3⟩ (fun _ => True)
    mixedTodo (fun k => if k ∈ mixedKeys then 2 else 0) s ∧ s.Done :=
  Reach.exists_done .refl (Cxx20.exact (2 ^ 32)) le_rfl (by omega) mixedTodo_fits
    (fun _ _ h => h.1) (fun n hn => ⟨n, hn, le_rfl⟩) (fun _ _ _ => trivial)
    (fun _ hk => mem_of_mixedCalls hk) expected_mixedTodo

theorem client_delivers_mixed : ∃ s, Reach Cxx20.transport writeSome ⟨3, 3⟩ (fun _ => True)
    mixedTodo (fun k => if k ∈ mixedKeys then 2 else 0) s ∧
      (s.boxes (Sender.small.delivery.key ⟨1, 1⟩)).got =
        [Sender.small.delivery, Sender.small.delivery] ∧
      (s.boxes (Sender.tiny.delivery.key ⟨2, 2⟩)).got =
        [Sender.tiny.delivery, Sender.tiny.delivery] := by
  obtain ⟨s, hs, hdone⟩ := exists_mixedDone
  obtain ⟨-, -, -, -, hall⟩ := client_delivers (Cxx20.exact (2 ^ 32)) le_rfl (by omega)
    mixedTodo_fits (fun _ _ h => h.1) (fun n hn => ⟨n, hn, le_rfl⟩) (fun _ _ _ => trivial)
    (mixedKeys.finite_toSet.subset fun _ hk => mem_of_mixedCalls hk) expected_mixedTodo hs
  obtain ⟨hgot, hselect⟩ := hall hdone
  have hsent : ∀ r p, (∀ i, Links.select r (mixedTodo i) = [p]) →
      s.sent (p.delivery.key r) = [p.delivery, p.delivery] := by
    intro r p hp
    have hmap := map_snd_of_select fun i => (hselect i r).trans (hp i)
    have hdelivery : ((s.client.links.got r).map fun y => y.2.delivery) =
        [p.delivery, p.delivery] := by
      have := congrArg (List.map Packet.delivery) hmap
      rwa [List.map_map] at this
    rw [sent, show (p.delivery.key r).target = r from rfl, hdelivery]
    simp [BoxKey.only, Delivery.key]
  refine ⟨s, hs, ?_, ?_⟩
  · exact (hgot _).trans (hsent _ _ fun _ => rfl)
  · exact (hgot _).trans (hsent _ _ fun _ => rfl)

end BoxRun

end StdmlCollective

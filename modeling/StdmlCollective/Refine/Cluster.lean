import Mathlib.Algebra.BigOperators.Group.Finset.Basic
import Mathlib.Algebra.Order.BigOperators.Group.Finset
import StdmlCollective.Refine.Node

/-!
# The message layer refines a network of block programs

The nodes together. Every run of the message layer is matched, step by step or by no
step, by a run of the block network of the same programs, so what holds of the network
holds of the peers: what a call returns is what the network emits, and a message is
consumed by the receive whose time and name it carries.

Two facts need the message layer itself. A state in which some peer is not done can
always take a step (`Sim.progress`): what the network would receive next is on its way
through a handler that nothing blocks. And there is no infinite run (`CStep.wf`).
-/

namespace StdmlCollective

open BlockNet (Job Block Proc LStep setPair setPair_self setPair_ne State Step Reach
  Matched Compat Ready)

variable {P Id T S O : Type} {ident : P → Id} {write : Addr → Bytes → S → S}

/-- Every node stands for its process. -/
def Sim [DecidableEq P] (ident : P → Id) (write : Addr → Bytes → S → S) (c : Cluster P Id T S O)
    (a : State P T Key Bytes S O) : Prop :=
  ∀ p, NSim ident write (c p) (a.proc p) (a.out p) fun s => a.link s p

/-- No two senders of one id have anything in flight to a peer that receives from one of
them. -/
def Excl (ident : P → Id) (a : State P T Key Bytes S O) : Prop :=
  ∀ p, ExclOk ident (a.proc p) fun s => a.link s p

/-- Peers with ids of their own. -/
theorem excl_of_injective (hi : Function.Injective ident) (a : State P T Key Bytes S O) :
    Excl ident a :=
  fun _ _ _ _ _ _ _ _ _ _ _ heq => hi heq

/-- Programs whose threads have not begun, and of which no section receives twice from
one id. -/
structure Tidy (ident : P → Id) (prog : P → List (Par P T S O)) : Prop where
  fresh : ∀ p, ∀ b ∈ prog p, ∀ th ∈ b.threads, th.Fresh
  nodup : ∀ p, ∀ b ∈ prog p, ((b.threads.filterMap Thread.from?).map ident).Nodup

variable [DecidableEq P]

/-- A fresh process stands for its block program. -/
theorem Sim.start {prog : P → List (Par P T S O)} (h : Tidy ident prog) (σ : P → S) :
    Sim ident write (Cluster.start prog σ) (BlockNet.init (fun p => blocks write (prog p)) σ) := by
  intro p
  have hw : (Node.fresh (prog p) (σ p) : Node P Id T S O).waiting = [] :=
    Node.filterMap_fresh (h.fresh p) fun _ => Thread.slot?_of_fresh
  have hh : (Node.fresh (prog p) (σ p) : Node P Id T S O).hand = [] :=
    Node.filterMap_fresh (h.fresh p) fun _ => Thread.hand?_of_fresh
  exact {
    code := (Node.abs_of_fresh ident write (x := Node.fresh (prog p) (σ p)) (h.fresh p)).symm
    store := rfl
    out := rfl
    fresh := fun b hb => h.fresh p b (List.mem_of_mem_tail hb)
    tidy := h.nodup p
    slots := by
      simp only [Cluster.start, hw]
      exact ⟨by simp, fun _ _ _ => ⟨rfl, rfl⟩, by simp [Node.fresh]⟩
    pipes := by
      simp only [Cluster.start, hh]
      exact ⟨fun _ => [], by simp [Node.fresh], by simp, by simp [Node.fresh, BlockNet.init],
        by simp [Node.fresh], fun _ => trivial, by simp⟩ }

/-! ## Steps -/

/-- A move of one process is a step of the network, or none. -/
theorem Move.step [LT T] {a : State P T Key Bytes S O} {p : P} {y : Proc P T Key Bytes S O}
    {o : List (ℕ × O)} {lk : P → List (BlockNet.Packet T Key Bytes)}
    (h : Move (a.proc p) (a.out p) (fun s => a.link s p) y o lk) :
    ∃ a', Relation.ReflGen Step a a' ∧ a'.proc p = y ∧ a'.out p = o ∧
      (∀ s, a'.link s p = lk s) ∧
      ∀ q, q ≠ p → a'.proc q = a.proc q ∧ a'.out q = a.out q ∧ ∀ s, a'.link s q = a.link s q := by
  cases h with
  | stay => exact ⟨a, .refl, rfl, rfl, fun _ => rfl, fun q _ => ⟨rfl, rfl, fun _ => rfl⟩⟩
  | tau hl =>
      exact ⟨_, .single (.tau hl), by simp, rfl, fun _ => rfl, fun q hq => by simp [hq]⟩
  | emit hl =>
      exact ⟨_, .single (.emit hl), by simp, by simp, fun _ => rfl, fun q hq => by simp [hq]⟩
  | @recv _ s m ms hl hlk =>
      refine ⟨_, .single (.recv hl hlk), by simp, rfl, fun s' => ?_, fun q hq => ?_⟩
      · by_cases hs : s' = s
        · subst hs
          simp
        · rw [Function.update_of_ne hs]
          exact setPair_ne _ _ _ _ fun hc => hs hc.1
      · exact ⟨by simp [hq], rfl, fun s' => setPair_ne _ _ _ _ fun hc => hq hc.2⟩

theorem Sim.passed [LT T] {c : Cluster P Id T S O} {a : State P T Key Bytes S O}
    (h : Sim ident write c a) {q : P} {t : T} : c.Passed q t ↔ BlockNet.Passed a q t := by
  have habs := (h q).code
  unfold Cluster.Passed BlockNet.Passed
  rw [habs]
  cases hc : (c q).code with
  | nil => simp [Node.abs, hc]
  | cons b bs => simp [Node.abs, hc, blocks, Par.block]

/-- The times of what a peer has left to run. -/
theorem Sim.times {c : Cluster P Id T S O} {a : State P T Key Bytes S O}
    (h : Sim ident write c a) (p : P) :
    (a.proc p).blocks.map Block.time = (c p).code.map Par.time := by
  rw [(h p).code]
  unfold Node.abs
  cases (c p).code with
  | nil => rfl
  | cons b bs => simp [blocks, Par.block]

/-- How often a section receives from `s`. -/
theorem count_from? (write : Addr → Bytes → S → S) (t : T) (l : List (Thread P T S O)) (s : P) :
    (l.filterMap Thread.from?).count s =
      ((l.map (Thread.job write t)).filterMap (Job.recvKey s)).length := by
  induction l with
  | nil => rfl
  | cons th l ih =>
      rw [List.map_cons, List.filterMap_cons, List.filterMap_cons]
      cases th <;> simp only [Thread.from?, Thread.job, Job.recvKey] <;> try exact ih
      all_goals
        rw [List.count_cons, ih]
        split <;> simp_all

/-- A thread that receives from `id` is a receive from `id`. -/
theorem recvKey_of_from? (write : Addr → Bytes → S → S) (t : T) {th : Thread P T S O} {id : P}
    (h : th.from? = some id) : ∃ k, (th.job write t).recvKey id = some k := by
  cases th <;> simp_all [Thread.from?, Thread.job, Job.recvKey]

/-- A section of a valid program does not receive twice from one peer. -/
theorem nodup_from? [LT T] {bs : List (Par P T S O)} (h : BlockNet.Valid (blocks write bs))
    {b : Par P T S O} (hb : b ∈ bs) : (b.threads.filterMap Thread.from?).Nodup := by
  rw [List.nodup_iff_count_le_one]
  intro s
  rw [count_from? write b.time]
  exact (h.blocks _ (List.mem_map_of_mem hb)).recvs_le s

variable [DecidableEq Id] [LinearOrder T]

omit [DecidableEq Id] in
/-- Compatible programs of peers with ids of their own are tidy. -/
theorem tidy_of_compat (hi : Function.Injective ident) {prog : P → List (Par P T S O)}
    (hfresh : ∀ p, ∀ b ∈ prog p, ∀ th ∈ b.threads, th.Fresh)
    (hc : Compat fun p => blocks write (prog p)) : Tidy ident prog where
  fresh := hfresh
  nodup p _ hb := (nodup_from? (hc.valid p) hb).map hi

omit [DecidableEq Id] in
theorem headOk_of_matched {a : State P T Key Bytes S O} (h : Matched a) (p : P) :
    HeadOk (a.proc p) fun s => a.link s p :=
  fun _ _ _ _ _ _ _ _ _ hb hl => h.head_tag hb hl

/-- **Every step of the peers is a step of the network, or none.** -/
theorem Sim.step {c c' : Cluster P Id T S O} {a : State P T Key Bytes S O}
    (h : Sim ident write c a) (hm : Matched a) (he : Excl ident a)
    (hs : CStep ident write c c') : ∃ a', Relation.ReflGen Step a a' ∧ Sim ident write c' a' := by
  cases hs with
  | @tau p x hn =>
      obtain ⟨y, o, lk, hmove, hx⟩ := (h p).tau (headOk_of_matched hm p) (he p) hn
      obtain ⟨a', hstep, hy, ho, hlk, hrest⟩ := hmove.step
      refine ⟨a', hstep, fun q => ?_⟩
      by_cases hq : q = p
      · subst hq
        rw [Function.update_self, hy, ho, funext hlk]
        exact hx
      · obtain ⟨h₁, h₂, h₃⟩ := hrest q hq
        rw [Function.update_of_ne hq, h₁, h₂, funext h₃]
        exact h q
  | @launch p x qs t hn hq =>
      obtain ⟨y, hl, hx⟩ := (h p).launch hn
      obtain ⟨q, hqs, hpass⟩ := hq
      refine ⟨_, .single (.await hl ⟨q, hqs, h.passed.mp hpass⟩), fun r => ?_⟩
      by_cases hr : r = p
      · subst hr
        simpa using hx
      · simpa [hr] using h r
  | @send c₁ p id x m hn hc₁ =>
      obtain ⟨hsrc, y, hl, hx⟩ := (h p).send hn
      -- first the sender, then the connection of the target
      have h₁ : ∀ q, NSim ident write (c₁ q) (Function.update a.proc p y q) (a.out q)
          fun s => a.link s q := by
        intro q
        rw [hc₁]
        by_cases hq : q = p
        · subst hq
          simpa using hx
        · simpa [hq] using h q
      refine ⟨_, .single (.send hl), fun q => ?_⟩
      by_cases hq : q = id
      · subst hq
        have hr := (h₁ q).receive hsrc
        have hlk : (fun s => setPair a.link p q (a.link p q ++ [m.packet]) s q) =
            Function.update (fun s => a.link s q) p (a.link p q ++ [m.packet]) := by
          funext s
          by_cases hs : s = p
          · subst hs
            simp
          · rw [setPair_ne _ _ _ _ fun hc => hs hc.1, Function.update_of_ne hs]
        simp only [Function.update_self, hlk]
        exact hr
      · have hlk : (fun s => setPair a.link p id (a.link p id ++ [m.packet]) s q) =
            fun s => a.link s q := by
          funext s
          rw [setPair_ne _ _ _ _ fun hc => hq hc.2]
        simp only [Function.update_of_ne hq, hlk]
        exact h₁ q

/-- **Every run of the peers is a run of the network.** -/
theorem simulate {prog : P → List (Par P T S O)} {σ : P → S} (ht : Tidy ident prog)
    (hc : Compat fun p => blocks write (prog p))
    (he : ∀ a, Reach (fun p => blocks write (prog p)) σ a → Excl ident a)
    {c : Cluster P Id T S O} (hr : CReach ident write prog σ c) :
    ∃ a, Reach (fun p => blocks write (prog p)) σ a ∧ Sim ident write c a := by
  induction hr with
  | refl => exact ⟨_, .refl, Sim.start ht σ⟩
  | tail _ hs ih =>
      obtain ⟨a, ha, hsim⟩ := ih
      obtain ⟨a', hstep, hsim'⟩ := hsim.step (hc.matched_reach ha) (he a ha) hs
      exact ⟨a', ha.trans hstep.to_reflTransGen, hsim'⟩

/-! ## The end of a run -/

/-- A handler has moved, or the thread between `l₁` and `l₂`. -/
def Node.MovesAt (x : Node P Id T S O) (t : T) (l₁ l₂ : List (Thread P T S O))
    (bs : List (Par P T S O)) (x' : Node P Id T S O) : Prop :=
  x'.code = x.code ∨ ∃ ths, x'.code = ⟨t, l₁ ++ ths ++ l₂⟩ :: bs

omit [LinearOrder T] in
/-- A slot receive that is written but not finished goes on. -/
theorem NSim.slot_step {x : Node P Id T S O} {a : Proc P T Key Bytes S O} {o : List (ℕ × O)}
    {lk : P → List (BlockNet.Packet T Key Bytes)} (h : NSim ident write x a o lk) (self : P) {t : T}
    {l₁ l₂ : List (Thread P T S O)} {bs : List (Par P T S O)} {id : P} {n : Bytes} {ptr : Addr}
    (hc : x.code = ⟨t, l₁ ++ .slotWait id n ptr :: l₂⟩ :: bs)
    (hw : x.written ident id n = true) :
    ∃ x', NStep ident write self x .tau x' ∧ x.MovesAt t l₁ l₂ bs x' := by
  have hmem : (id, n, ptr) ∈ x.waiting := by
    rw [Node.waiting_eq hc]
    simp [Thread.slot?]
  rcases h.slots.posted id n ptr hmem with ⟨-, h₂, h₃⟩ | ⟨-, h₂, m, hm, -⟩ | ⟨-, h₂, m, hm, rfl⟩ |
    ⟨-, h₂, -⟩
  · simp [Node.written, h₂, Handler.isDone_of_busy h₃] at hw
  · simp [Node.written, h₂, hm, Handler.isDone] at hw
  · exact ⟨_, .slotPut hm (by simp [h₂, cap]), .inl rfl⟩
  · exact ⟨_, .slotWait hc h₂, .inr ⟨[], by simp⟩⟩

omit [DecidableEq Id] [LinearOrder T] in
/-- A message for the mailbox does not wait when no two on the way have one name. -/
theorem NSim.mailbox_free (hi : Function.Injective ident) {x : Node P Id T S O}
    {a : Proc P T Key Bytes S O} {o : List (ℕ × O)} {lk : P → List (BlockNet.Packet T Key Bytes)}
    (h : NSim ident write x a o lk) {s : P} {m : Message P T} (hh : x.handler s = .mail m)
    (hnodup : ((lk s).map fun pk => pk.tag.2).Nodup) : x.mailbox (ident s) m.name = [] := by
  obtain ⟨D, hD⟩ := h.pipes
  have hfits := hD.fits s
  rw [hh] at hfits
  rw [hD.box, List.filter_eq_nil_iff]
  intro m' hm' hname
  rw [decide_eq_true_eq] at hname
  obtain ⟨hsrc, hwaits⟩ := hD.dep _ m' hm'
  rw [hD.link s, hh, List.map_map, List.map_append, List.map_append] at hnodup
  have hdisj := (List.nodup_append.mp (List.nodup_append.mp hnodup).1).2.2
  refine hdisj (m'.packet.tag.2) ?_ (m.packet.tag.2) ?_ ?_
  · rw [List.map_append]
    refine List.mem_append_right _ (List.mem_map.mpr ⟨m', ?_, rfl⟩)
    simpa [hi hsrc] using hm'
  · simp [Handler.held]
  · rw [Message.tag_packet, Message.tag_packet, hname, hwaits, hfits]

omit [DecidableEq Id] [LinearOrder T] [DecidableEq P] in
/-- A handler that is through with a buffer does not wait. -/
theorem Slots.recvQ_free {W : List (P × Bytes × Addr)} {wq rq : Id → Bytes → List Addr}
    {h : P → Handler P T} (hs : Slots ident W wq rq h) {s : P} {m : Message P T} {ptr : Addr}
    (hh : h s = .done m ptr) : rq (ident s) m.name = [] := by
  rcases hs.posted s m.name ptr (hs.busy s m ptr (.inr hh)) with
    ⟨-, -, h₃⟩ | ⟨-, h₂, -⟩ | ⟨-, h₂, -⟩ | ⟨-, -, h₃⟩
  · simp [hh, Handler.busy] at h₃
  · exact h₂
  · exact h₂
  · simp [hh, Handler.busy] at h₃

omit [LinearOrder T] in
/-- The handler that holds the first packet of a link, or could read it, goes on, unless
the packet is in the mailbox or a slot message has to wait for a posted pointer. -/
theorem NSim.handler_step {x : Node P Id T S O} {a : Proc P T Key Bytes S O} {o : List (ℕ × O)}
    {lk : P → List (BlockNet.Packet T Key Bytes)} (h : NSim ident write x a o lk) (self : P) {s : P}
    (hne : (x.handler s).held ++ x.conn s ≠ [])
    (hmail : ∀ m, x.handler s = .mail m → x.mailbox (ident s) m.name = [])
    (hslot : ∀ m, x.handler s = .slot m → x.waitQ (ident s) m.name ≠ []) :
    ∃ x', NStep ident write self x .tau x' ∧ x'.code = x.code := by
  cases hh : x.handler s with
  | idle =>
      rw [hh, Handler.held_idle, List.nil_append] at hne
      obtain ⟨m, ms, hcn⟩ := List.exists_cons_of_ne_nil hne
      exact ⟨_, .header hh hcn, rfl⟩
  | mail m => exact ⟨_, .mailPut hh (by simp [hmail m hh, cap]), rfl⟩
  | slot m =>
      obtain ⟨ptr, q, hq⟩ := List.exists_cons_of_ne_nil (hslot m hh)
      exact ⟨_, .slotTake hh hq, rfl⟩
  | write m ptr => exact ⟨_, .body hh, rfl⟩
  | done m ptr => exact ⟨_, .slotPut hh (by simp [h.slots.recvQ_free hh, cap]), rfl⟩

omit [DecidableEq Id] [LinearOrder T] in
/-- What is on its way to a receive when neither the handler nor the connection has anything. -/
theorem NSim.link_of_idle {x : Node P Id T S O} {a : Proc P T Key Bytes S O} {o : List (ℕ × O)}
    {lk : P → List (BlockNet.Packet T Key Bytes)} (h : NSim ident write x a o lk) {t : T}
    {l₁ l₂ : List (Thread P T S O)} {bs : List (Par P T S O)} {th : Thread P T S O} {id : P}
    (hc : x.code = ⟨t, l₁ ++ th :: l₂⟩ :: bs) (hfrom : th.from? = some id)
    (hhand : th.hand? = none) (hheld : (x.handler id).held = []) (hconn : x.conn id = []) :
    ∃ ms : List (Message P T), lk id = ms.map Message.packet ∧
      ∀ m ∈ ms, m.waits = false ∧ m ∈ x.mailbox (ident id) m.name := by
  obtain ⟨D, hD⟩ := h.pipes
  have h₁ := h.hand_other hc hfrom (List.sublist_append_left l₁ l₂)
  have h₂ := h.hand_other hc hfrom (List.sublist_append_right l₁ l₂)
  have hnone : x.hand.filter (·.1 = id) = [] := by
    rw [Node.hand_eq hc, hhand]
    simp [h₁, h₂]
  refine ⟨(D (ident id)).filter (·.src = id), ?_, ?_⟩
  · rw [hD.link id, hnone, hheld, hconn]
    simp
  · intro m hm
    have hmem := List.mem_of_mem_filter hm
    refine ⟨(hD.dep _ m hmem).2, ?_⟩
    rw [hD.box, List.mem_filter]
    exact ⟨hmem, by simp⟩

omit [LinearOrder T] in
/-- A receive of the process whose packet is on the link is not blocked in the node. -/
theorem NSim.recv_step {x : Node P Id T S O} {a : Proc P T Key Bytes S O} {o : List (ℕ × O)}
    {lk : P → List (BlockNet.Packet T Key Bytes)} (h : NSim ident write x a o lk)
    (hhead : HeadOk a lk)
    (hexcl : ExclOk ident a lk) (self : P) {t : T} {l₁ l₂ : List (Thread P T S O)}
    {bs : List (Par P T S O)} {th : Thread P T S O} {id : P}
    (hc : x.code = ⟨t, l₁ ++ th :: l₂⟩ :: bs) (hlive : x.live ident th = true)
    (hfrom : th.from? = some id) (hlk : lk id ≠ []) :
    ∃ x', NStep ident write self x .tau x' ∧ x.MovesAt t l₁ l₂ bs x' := by
  obtain ⟨D, hD⟩ := h.pipes
  have ha := h.jobs_eq hc hlive
  have h₁ := h.hand_other hc hfrom (List.sublist_append_left l₁ l₂)
  have h₂ := h.hand_other hc hfrom (List.sublist_append_right l₁ l₂)
  have hhand : th.hand? = none → x.hand.filter (·.1 = id) = [] := by
    intro hth
    rw [Node.hand_eq hc, hth]
    simp [h₁, h₂]
  have hlink := hD.link id
  cases th with
  | mailGot id' name add m => exact ⟨_, .mailGot hc, .inr ⟨[], by simp⟩⟩
  | mailGet id' name add =>
      obtain rfl : id' = id := by simpa [Thread.from?] using hfrom
      rw [hhand rfl, List.map_nil, List.nil_append] at hlink
      have hhead' : ∀ m ms, lk id' = m :: ms → m.tag = (t, (name, false)) := fun m ms hl =>
        hhead id' t _ _ _ _ _ m ms (by rw [ha]; rfl) hl
      cases hbox : D (ident id') with
      | cons m₀ D₀ =>
          -- what is in the mailbox under this id is from `id'`, and is asked for
          have hm₀ : m₀ ∈ D (ident id') := by rw [hbox]; exact List.mem_cons_self
          have hsrc : m₀.src = id' := by
            refine hexcl m₀.src id' t _ _ _ _ _ (by rw [ha]; rfl) ?_ (hD.dep _ m₀ hm₀).1
            rw [hD.link, (hD.dep _ m₀ hm₀).1, hbox]
            simp
          have htag := hhead' m₀.packet _ (by rw [hlink, hbox]; simp [hsrc]; rfl)
          rw [Message.tag_packet, Prod.mk.injEq, Prod.mk.injEq] at htag
          have hmb : x.mailbox (ident id') name = m₀ :: D₀.filter (·.name = name) := by
            rw [hD.box, hbox]
            simp [htag.2.1]
          exact ⟨_, .mailGet hc hmb, .inr ⟨[.mailGot id' name add m₀], by simp⟩⟩
      | nil =>
          rw [hbox, List.filter_nil, List.nil_append] at hlink
          refine (h.handler_step self (s := id') ?_ ?_ ?_).imp fun _ hx => ⟨hx.1, .inl hx.2⟩
          · intro hnil
            rw [hnil] at hlink
            exact hlk hlink
          · intro m _
            rw [hD.box, hbox, List.filter_nil]
          · intro m hm
            have htag := hhead' m.packet _ (by rw [hlink, hm]; rfl)
            have hfits := hD.fits id'
            rw [hm] at hfits
            rw [Message.tag_packet, hfits] at htag
            simp at htag
  | slotGet id' name ptr =>
      obtain rfl : id' = id := by simpa [Thread.from?] using hfrom
      have hempty := h.slots.empty (ident id') name fun id'' p hmem => by
        refine h.slot_other hc hfrom (n := name) (p := p) ?_
        rw [Node.waiting_eq hc] at hmem
        simpa [Thread.slot?] using hmem
      exact ⟨_, .slotGet hc (by simp [hempty.1, cap]), .inr ⟨[.slotWait id' name ptr], by simp⟩⟩
  | slotWait id' name ptr =>
      obtain rfl : id' = id := by simpa [Thread.from?] using hfrom
      rw [hhand rfl, List.map_nil, List.nil_append] at hlink
      have hhead' : ∀ m ms, lk id' = m :: ms → m.tag = (t, (name, true)) := fun m ms hl =>
        hhead id' t _ _ _ _ _ m ms (by rw [ha]; rfl) hl
      have hmem : (id', name, ptr) ∈ x.waiting := by
        rw [Node.waiting_eq hc]
        simp [Thread.slot?]
      rw [List.append_assoc] at hlink
      have hbox : (D (ident id')).filter (·.src = id') = [] := hD.mailbox_eq_nil hlink hhead'
      rw [hbox, List.nil_append] at hlink
      refine (h.handler_step self (s := id') ?_ ?_ ?_).imp fun _ hx => ⟨hx.1, .inl hx.2⟩
      · intro hnil
        rw [hnil] at hlink
        exact hlk hlink
      · intro m hm
        have htag := hhead' m.packet _ (by rw [hlink, hm]; rfl)
        have hfits := hD.fits id'
        rw [hm] at hfits
        rw [Message.tag_packet, hfits] at htag
        simp at htag
      · intro m hm
        have htag := hhead' m.packet _ (by rw [hlink, hm]; rfl)
        rw [Message.tag_packet, Prod.mk.injEq, Prod.mk.injEq] at htag
        rw [htag.2.1]
        rcases h.slots.posted id' name ptr hmem with
          ⟨h₁, -⟩ | ⟨-, -, m', hm', -⟩ | ⟨-, -, m', hm', -⟩ | ⟨-, h₂, -⟩
        · simp [h₁]
        · simp [hm'] at hm
        · simp [hm'] at hm
        · simp [Node.live, Node.written, h₂] at hlive
  | _ => simp [Thread.from?] at hfrom

/-- A step of a peer that nothing outside it holds up. -/
def Cluster.CanMove (ident : P → Id) (write : Addr → Bytes → S → S) (c : Cluster P Id T S O) (p : P)
    (x' : Node P Id T S O) : Prop :=
  ∃ e, NStep ident write p (c p) e x' ∧ ∀ qs u, e = .launch qs u → ∃ q ∈ qs, c.Passed q u

theorem Cluster.CanMove.tau {c : Cluster P Id T S O} {p : P} {x' : Node P Id T S O}
    (h : NStep ident write p (c p) .tau x') : c.CanMove ident write p x' :=
  ⟨.tau, h, by simp⟩

/-- The thread whose job is ready is not held up, but for a handler that has to move first. -/
theorem Sim.thread_step {c : Cluster P Id T S O} {a : State P T Key Bytes S O}
    (h : Sim ident write c a) (hm : Matched a) (he : Excl ident a) {p : P} {t : T}
    {l₁ l₂ : List (Thread P T S O)} {bs : List (Par P T S O)} {th : Thread P T S O}
    (hc : (c p).code = ⟨t, l₁ ++ th :: l₂⟩ :: bs) (hlive : (c p).live ident th = true)
    (hready : Ready a p (th.job write t)) :
    ∃ x', c.CanMove ident write p x' ∧ (c p).MovesAt t l₁ l₂ bs x' := by
  have hrecv : ∀ {id}, th.from? = some id → a.link id p ≠ [] →
      ∃ x', c.CanMove ident write p x' ∧ (c p).MovesAt t l₁ l₂ bs x' := fun hfrom hlk =>
    ((h p).recv_step (headOk_of_matched hm p) (he p) p hc hlive hfrom hlk).imp
      fun _ hx => ⟨.tau hx.1, hx.2⟩
  have hgone : ∀ {e x'}, NStep ident write p (c p) e x' → x'.code = ⟨t, l₁ ++ l₂⟩ :: bs →
      (∀ qs u, e = .launch qs u → ∃ q ∈ qs, c.Passed q u) →
      ∃ x', c.CanMove ident write p x' ∧ (c p).MovesAt t l₁ l₂ bs x' := fun hx hcode hl =>
    ⟨_, ⟨_, hx, hl⟩, .inr ⟨[], by simpa using hcode⟩⟩
  cases th with
  | send id name flags data => exact hgone (.send hc) rfl (by simp)
  | mailGet id name add => exact hrecv rfl hready
  | mailGot id name add m => exact hrecv rfl hready
  | slotGet id name ptr => exact hrecv rfl hready
  | slotWait id name ptr => exact hrecv rfl hready
  | act f => exact hgone (.act hc) rfl (by simp)
  | ret i f => exact hgone (.ret hc) rfl (by simp)
  | launch qs u =>
      obtain ⟨q, hq, hpass⟩ := hready
      refine hgone (.launch hc) rfl ?_
      intro qs' u' hl
      cases hl
      exact ⟨q, hq, h.passed.mpr hpass⟩
  | throws =>
      obtain ⟨q, hq, -⟩ := hready
      exact absurd hq (by simp)

/-- A thread that has been served is not held up. -/
theorem Sim.served_step {c : Cluster P Id T S O} {a : State P T Key Bytes S O}
    (h : Sim ident write c a) {p : P} {t : T} {l₁ l₂ : List (Thread P T S O)}
    {bs : List (Par P T S O)} {th : Thread P T S O} (hc : (c p).code = ⟨t, l₁ ++ th :: l₂⟩ :: bs)
    (hdead : (c p).live ident th = false) :
    ∃ x', c.CanMove ident write p x' ∧ (c p).MovesAt t l₁ l₂ bs x' := by
  cases th with
  | slotWait id n ptr =>
      have hw : (c p).written ident id n = true := by simpa [Node.live] using hdead
      exact ((h p).slot_step p hc hw).imp fun _ hx => ⟨.tau hx.1, hx.2⟩
  | _ => simp [Node.live] at hdead

omit [DecidableEq Id] [LinearOrder T] in
/-- The code of a peer whose process is at a block. -/
theorem Sim.exists_code {c : Cluster P Id T S O} {a : State P T Key Bytes S O}
    (h : Sim ident write c a) {p : P} {t : T} {js : List (Job P T Key Bytes S O)}
    {bs : List (Block P T Key Bytes S O)} (hb : (a.proc p).blocks = ⟨t, js⟩ :: bs) :
    ∃ l bs', (c p).code = ⟨t, l⟩ :: bs' ∧ (c p).jobs ident write t l = js := by
  have hcode := (h p).code
  rw [hb] at hcode
  cases hc : (c p).code with
  | nil => simp [Node.abs, hc] at hcode
  | cons b bs' =>
      obtain ⟨t', l⟩ := b
      have hproc := congrArg Proc.blocks ((h p).proc_eq hc)
      rw [hb] at hproc
      simp only [List.cons.injEq, Block.mk.injEq] at hproc
      obtain ⟨⟨rfl, rfl⟩, -⟩ := hproc
      exact ⟨l, bs', rfl, rfl⟩

/-- A peer whose process has a job that is ready, or is through with a section, can take a
step. -/
theorem Sim.ready_step {c : Cluster P Id T S O} {a : State P T Key Bytes S O}
    (h : Sim ident write c a) (hm : Matched a) (he : Excl ident a) {p : P} {t : T}
    {bs : List (Block P T Key Bytes S O)}
    (hb : (a.proc p).blocks = ⟨t, []⟩ :: bs ∨
      ∃ l₁ j l₂, (a.proc p).blocks = ⟨t, l₁ ++ j :: l₂⟩ :: bs ∧ Ready a p j) :
    ∃ e x', NStep ident write p (c p) e x' ∧ ∀ qs u, e = .launch qs u → ∃ q ∈ qs, c.Passed q u := by
  suffices hmove : ∃ x', c.CanMove ident write p x' by
    obtain ⟨x', e, hx⟩ := hmove
    exact ⟨e, x', hx⟩
  rcases hb with hb | ⟨l₁, j, l₂, hb, hready⟩
  · -- every thread of the section has been served
    obtain ⟨l, bs', hc, hjobs⟩ := h.exists_code hb
    cases l with
    | nil => exact ⟨{ c p with code := bs' }, .tau (.join hc)⟩
    | cons th l =>
        simp only [Node.jobs, List.map_eq_nil_iff, List.filter_eq_nil_iff] at hjobs
        rw [← List.nil_append (th :: l)] at hc
        exact (h.served_step hc (by simpa using hjobs th List.mem_cons_self)).imp fun _ => And.left
  · -- the thread whose job is ready
    obtain ⟨l, bs', hc, hjobs⟩ := h.exists_code hb
    have hj : j ∈ (c p).jobs ident write t l := by
      rw [hjobs]
      simp
    obtain ⟨th, hth, rfl⟩ := List.mem_map.mp hj
    obtain ⟨hth, hlive⟩ := List.mem_filter.mp hth
    obtain ⟨r₁, r₂, rfl⟩ := List.append_of_mem hth
    exact (h.thread_step hm he hc hlive hready).imp fun _ => And.left

omit [DecidableEq Id] [LinearOrder T] in
theorem Sim.final {c : Cluster P Id T S O} {a : State P T Key Bytes S O}
    (h : Sim ident write c a) (hfin : BlockNet.Final a) : c.Final := by
  intro p
  have habs := (h p).code.symm.trans (hfin p)
  cases hc : (c p).code with
  | nil => rfl
  | cons b bs => simp [Node.abs, hc] at habs

/-- **No state in which some peer is not done is stuck.** -/
theorem Sim.progress [WellFoundedLT T] {c : Cluster P Id T S O} {a : State P T Key Bytes S O}
    (h : Sim ident write c a) (hm : Matched a) (he : Excl ident a) (hf : ¬c.Final) :
    ∃ c', CStep ident write c c' := by
  obtain ⟨p, t, bs, hb⟩ := hm.progress fun hfin => hf (h.final hfin)
  obtain ⟨e, x', hx, hl⟩ := h.ready_step hm he hb
  cases e with
  | tau => exact ⟨_, .tau hx⟩
  | send id m => exact ⟨_, .send hx rfl⟩
  | launch qs u => exact ⟨_, .launch hx (hl qs u rfl)⟩

omit [DecidableEq Id] in
/-- **When every peer is done, nothing is left anywhere.** -/
theorem Sim.drained {c : Cluster P Id T S O} {a : State P T Key Bytes S O}
    (h : Sim ident write c a) (hm : Matched a) (hf : c.Final) : c.Drained := by
  intro p
  have hth : (c p).threads = [] := by simp [Node.threads, hf p]
  have hw : (c p).waiting = [] := by simp [Node.waiting, hth]
  have hh : (c p).hand = [] := by simp [Node.hand, hth]
  have hlk : ∀ s, a.link s p = [] := by
    intro s
    refine hm.link_eq_nil ?_
    rw [(h p).code, Node.abs, hf p]
    rfl
  obtain ⟨D, hD⟩ := (h p).pipes
  have hpart : ∀ s, (D (ident s)).filter (·.src = s) = [] ∧ ((c p).handler s).held = [] ∧
      (c p).conn s = [] := by
    intro s
    have hl := hD.link s
    rw [hlk s, hh] at hl
    simp only [List.filter_nil, List.map_nil, List.nil_append] at hl
    have := List.map_eq_nil_iff.mp hl.symm
    simp only [List.append_eq_nil_iff] at this
    exact ⟨this.1.1, this.1.2, this.2⟩
  refine ⟨fun s => ⟨(hpart s).2.2, ?_⟩, fun y n => ⟨?_, (h p).slots.empty y n ?_⟩⟩
  · have hheld := (hpart s).2.1
    cases hs : (c p).handler s with
    | idle => rfl
    | done m ptr =>
        have := (h p).slots.busy s m ptr (.inr hs)
        simp [hw] at this
    | _ => simp [hs] at hheld
  · rw [hD.box]
    suffices hnil : D y = [] by rw [hnil, List.filter_nil]
    refine List.eq_nil_iff_forall_not_mem.mpr fun m hmem => ?_
    have hsrc := (hD.dep y m hmem).1
    have hin : m ∈ (D (ident m.src)).filter (·.src = m.src) := by
      rw [hsrc]
      simpa using hmem
    rw [(hpart m.src).1] at hin
    simp at hin
  · simp [hw]

/-! ## Termination -/

section Termination

variable [Fintype P]

/-- How many steps a thread can still cause. -/
def Thread.weight : Thread P T S O → ℕ
  | .send _ _ _ _ => 6
  | .mailGet _ _ _ | .slotGet _ _ _ => 2
  | _ => 1

def Par.weight (b : Par P T S O) : ℕ := (b.threads.map Thread.weight).sum + 1

/-- How many steps a handler still needs for the message it holds. -/
def Handler.weight : Handler P T → ℕ
  | .idle => 0
  | .mail _ | .done _ _ => 1
  | .write _ _ => 2
  | .slot _ => 3

/-- How many steps a node can still cause. -/
def Node.weight (x : Node P Id T S O) : ℕ :=
  (x.code.map Par.weight).sum + ∑ s, ((x.handler s).weight + 5 * (x.conn s).length)

omit [DecidableEq Id] [LinearOrder T] in
/-- A sum over all peers in which one term is replaced. -/
theorem sum_update {α : Type} (w : P → α → ℕ) (f : P → α) (p : P) (v : α) :
    ∑ q, w q (Function.update f p v q) + w p (f p) = ∑ q, w q (f q) + w p v := by
  rw [← Finset.add_sum_erase _ _ (Finset.mem_univ p),
    ← Finset.add_sum_erase _ (fun q => w q (f q)) (Finset.mem_univ p), Function.update_self]
  have hrest : ∑ q ∈ Finset.univ.erase p, w q (Function.update f p v q)
      = ∑ q ∈ Finset.univ.erase p, w q (f q) := by
    refine Finset.sum_congr rfl fun q hq => ?_
    rw [Function.update_of_ne (Finset.ne_of_mem_erase hq)]
  omega

omit [DecidableEq Id] [LinearOrder T] in
/-- A handler moves, and the weight of what it holds and of its connection goes from `k'`
to `k`. -/
theorem Node.weight_handler {x x' : Node P Id T S O} (s : P) (v : Handler P T)
    (ms : List (Message P T)) (hcode : x'.code = x.code)
    (hh : x'.handler = Function.update x.handler s v)
    (hcn : x'.conn = Function.update x.conn s ms) {k k' : ℕ}
    (hk : v.weight + 5 * ms.length + k ≤ (x.handler s).weight + 5 * (x.conn s).length + k') :
    x'.weight + k ≤ x.weight + k' := by
  have h₁ := sum_update (fun _ (h : Handler P T) => h.weight) x.handler s v
  have h₂ := sum_update (fun _ (l : List (Message P T)) => 5 * l.length) x.conn s ms
  simp only [Node.weight, hcode, hh, hcn, Finset.sum_add_distrib]
  omega

omit [DecidableEq Id] [LinearOrder T] in
/-- A handler goes on with the message it holds. -/
theorem Node.weight_body (x : Node P Id T S O) {x' : Node P Id T S O} (s : P) (v : Handler P T)
    (hcode : x'.code = x.code) (hh : x'.handler = Function.update x.handler s v)
    (hcn : x'.conn = x.conn) (hk : (x.handler s).weight = v.weight + 1) :
    x'.weight + 1 ≤ x.weight + 0 := by
  refine Node.weight_handler s v (x.conn s) hcode hh ?_ (by omega)
  rw [hcn, Function.update_eq_self]

omit [DecidableEq P] [DecidableEq Id] [LinearOrder T] in
/-- A thread moves on to `r`. -/
theorem Node.weight_thread {x x' : Node P Id T S O} {t : T} {l₁ l₂ : List (Thread P T S O)}
    (r : List (Thread P T S O)) {th : Thread P T S O} {bs : List (Par P T S O)}
    (hc : x.code = ⟨t, l₁ ++ th :: l₂⟩ :: bs) (hc' : x'.code = ⟨t, l₁ ++ (r ++ l₂)⟩ :: bs)
    (hh : x'.handler = x.handler) (hcn : x'.conn = x.conn) {k : ℕ}
    (hk : (r.map Thread.weight).sum + k ≤ th.weight) : x'.weight + k ≤ x.weight := by
  simp only [Node.weight, hc, hc', hh, hcn, List.map_cons, List.sum_cons, Par.weight,
    List.map_append, List.sum_append]
  omega

/-- How much lighter a step makes the node that takes it. -/
def Event.weight : Event P T → ℕ
  | .send _ _ => 6
  | _ => 1

omit [LinearOrder T] in
/-- What a step does to the weight of the node that takes it. -/
theorem NStep.weight {self : P} {x x' : Node P Id T S O} {e : Event P T}
    (h : NStep ident write self x e x') : x'.weight + e.weight ≤ x.weight := by
  cases h with
  | join hc =>
      simp only [Node.weight, hc, List.map_cons, List.sum_cons, Par.weight, List.map_nil,
        List.sum_nil, Event.weight]
      omega
  | send hc | mailGot hc | act hc | ret hc | launch hc | slotWait hc hq =>
      refine Node.weight_thread [] hc ?_ ?_ ?_ ?_ <;> rfl
  | @mailGet t l₁ l₂ bs id name add m q hc hbox =>
      refine Node.weight_thread [.mailGot id name add m] hc ?_ ?_ ?_ ?_ <;> rfl
  | @slotGet t l₁ l₂ bs id name ptr hc hq =>
      refine Node.weight_thread [.slotWait id name ptr] hc ?_ ?_ ?_ ?_ <;> rfl
  | @header s m ms hh hcn =>
      rw [← Nat.add_zero x.weight]
      refine Node.weight_handler s (Handler.take m) ms ?_ ?_ ?_ ?_
      iterate 3 rfl
      have hm : (Handler.take m).weight ≤ 3 := by
        unfold Handler.take
        split <;> simp [Handler.weight]
      have hidle : (Handler.idle : Handler P T).weight = 0 := rfl
      have htau : (Event.tau : Event P T).weight = 1 := rfl
      rw [hh, hcn, hidle, List.length_cons, htau]
      omega
  | @mailPut s m hh _ => exact x.weight_body s .idle rfl rfl rfl (by rw [hh]; rfl)
  | @slotTake s m ptr q hh _ => exact x.weight_body s (.write m ptr) rfl rfl rfl (by rw [hh]; rfl)
  | @body s m ptr hh => exact x.weight_body s (.done m ptr) rfl rfl rfl (by rw [hh]; rfl)
  | @slotPut s m ptr hh _ => exact x.weight_body s .idle rfl rfl rfl (by rw [hh]; rfl)

variable (ident write) in
/-- **There is no infinite run.** -/
theorem CStep.wf : WellFounded fun c' c : Cluster P Id T S O => CStep ident write c c' := by
  refine Subrelation.wf (r := InvImage (· < ·) fun c : Cluster P Id T S O => ∑ p, (c p).weight)
    ?_ (InvImage.wf _ wellFounded_lt)
  intro c' c hs
  have hupd := fun (c : Cluster P Id T S O) p x =>
    sum_update (fun _ (x : Node P Id T S O) => x.weight) c p x
  simp only [InvImage]
  cases hs with
  | @tau p x hn | @launch p x _ _ hn _ =>
      have h₁ := hupd c p x
      have h₂ := hn.weight
      simp only [Event.weight] at h₂
      omega
  | @send c₁ p id x m hn hc₁ =>
      have h₁ := hupd c p x
      have h₂ := hn.weight
      have h₃ := hupd c₁ id ((c₁ id).receive p m)
      have h₄ : ((c₁ id).receive p m).weight + 0 ≤ (c₁ id).weight + 5 := by
        refine Node.weight_handler p ((c₁ id).handler p) ((c₁ id).conn p ++ [m]) ?_ ?_ ?_ ?_
        · rfl
        · exact (Function.update_eq_self _ _).symm
        · rfl
        · rw [List.length_append, List.length_singleton]
          omega
      subst hc₁
      simp only [Event.weight] at h₂
      omega

section Alone

omit [Fintype P]

variable (ident write) in
/-- Peer `p` goes on by itself. -/
def NRun (p : P) : Node P Id T S O → Node P Id T S O → Prop :=
  Relation.ReflTransGen fun x x' => NStep ident write p x .tau x'

omit [LinearOrder T] in
theorem NRun.act {p : P} {x : Node P Id T S O} {t : T} {f : S → S} {bs : List (Par P T S O)}
    (h : x.code = ⟨t, [.act f]⟩ :: bs) :
    NRun ident write p x { x with code := bs, store := f x.store } := by
  have h₁ : x.code = ⟨t, [] ++ .act f :: []⟩ :: bs := h
  exact (Relation.ReflTransGen.single (NStep.act h₁)).tail (NStep.join rfl)

omit [LinearOrder T] in
theorem NRun.ret {p : P} {x : Node P Id T S O} {t : T} {i : ℕ} {f : S → O}
    {bs : List (Par P T S O)} (h : x.code = ⟨t, [.ret i f]⟩ :: bs) :
    NRun ident write p x { x with code := bs, returned := x.returned ++ [(i, f x.store)] } := by
  have h₁ : x.code = ⟨t, [] ++ .ret i f :: []⟩ :: bs := h
  exact (Relation.ReflTransGen.single (NStep.ret h₁)).tail (NStep.join rfl)

/-- A run in which one peer goes on by itself. -/
theorem CReach.node {prog : P → List (Par P T S O)} {σ : P → S} {c : Cluster P Id T S O} {p : P}
    {y : Node P Id T S O} (h : CReach ident write prog σ c) (hrun : NRun ident write p (c p) y) :
    CReach ident write prog σ (Function.update c p y) := by
  induction hrun with
  | refl => rwa [Function.update_eq_self]
  | @tail x x' _ hs ih =>
      have hstep : CStep ident write (Function.update c p x)
          (Function.update (Function.update c p x) p x') :=
        CStep.tau (by rwa [Function.update_self])
      rw [Function.update_idem] at hstep
      exact ih.tail hstep

end Alone

omit [DecidableEq P] [DecidableEq Id] [LinearOrder T] [Fintype P] in
/-- Where there is no infinite run, a run can always be carried on until no step is left. -/
theorem exists_stuck_of_wf {α : Type} {step : α → α → Prop}
    (hwf : WellFounded fun y x => step x y) (x : α) :
    ∃ y, Relation.ReflTransGen step x y ∧ ∀ z, ¬step y z := by
  induction x using hwf.induction with
  | _ x ih =>
      by_cases hs : ∃ y, step x y
      · obtain ⟨x₁, hs⟩ := hs
        obtain ⟨y, hrun, hstuck⟩ := ih x₁ hs
        exact ⟨y, hrun.head hs, hstuck⟩
      · exact ⟨x, .refl, not_exists.mp hs⟩

variable (ident write) in
/-- A run can always be carried on until no step is left. -/
theorem exists_stuck (c : Cluster P Id T S O) :
    ∃ c', Relation.ReflTransGen (CStep ident write) c c' ∧ ∀ c'', ¬CStep ident write c' c'' :=
  exists_stuck_of_wf (CStep.wf ident write) c

/-- A run that is never stuck before its end can be carried to its end. -/
theorem exists_final_of_progress {prog : P → List (Par P T S O)} {σ : P → S}
    (h : ∀ c : Cluster P Id T S O, CReach ident write prog σ c → ¬c.Final →
      ∃ c', CStep ident write c c')
    {c : Cluster P Id T S O} (hr : CReach ident write prog σ c) :
    ∃ c', CReach ident write prog σ c' ∧ Relation.ReflTransGen (CStep ident write) c c' ∧
      c'.Final := by
  obtain ⟨c', hrun, hstuck⟩ := exists_stuck ident write c
  refine ⟨c', hr.trans hrun, hrun, ?_⟩
  by_contra hf
  obtain ⟨c'', hs⟩ := h c' (hr.trans hrun) hf
  exact hstuck c'' hs

/-- A run can always be carried to its end. -/
theorem exists_final [WellFoundedLT T] {prog : P → List (Par P T S O)} {σ : P → S}
    (ht : Tidy ident prog) (hc : Compat fun p => blocks write (prog p))
    (he : ∀ a, Reach (fun p => blocks write (prog p)) σ a → Excl ident a)
    {c : Cluster P Id T S O} (hr : CReach ident write prog σ c) :
    ∃ c', CReach ident write prog σ c' ∧ Relation.ReflTransGen (CStep ident write) c c' ∧
      c'.Final := by
  refine exists_final_of_progress (fun c hr hf => ?_) hr
  obtain ⟨a, ha, hsim⟩ := simulate ht hc he hr
  exact hsim.progress (hc.matched_reach ha) (he a ha) hf

end Termination

end StdmlCollective

import Mathlib.Data.Fintype.Prod
import StdmlCollective.Lib.Threads
import StdmlCollective.Refine.Cluster

/-!
# From the start of the peers to their end

Before it runs its program a peer starts its server, and `peer::stop` destructs its clients first,
which closes the connections it has dialled, and then its server, which ends the accept loop and
joins the handler threads. No peer waits for the others before it does so. The others may not have
started yet, and may be busy with their programs when the first one is gone.

A peer that has something to send must find the server of its target up, and a handler must not
return before everything on its connection has been handled.
-/

namespace StdmlCollective

open BlockNet (Job Matched Compat sends recvs)
open Threads (total total_update_lt)

/-- Where a peer is: before `peer::start`; with its server up; in `client_pool_.reset`; in
`server_impl::stop`, after the accept loop has ended; and when `peer::stop` has returned. -/
inductive LifePhase where
  | down
  | up
  | closing
  | joining
  | stopped
deriving DecidableEq, Repr

/-- How far a peer is from its end. -/
def LifePhase.weight : LifePhase → ℕ
  | .down => 4
  | .up => 3
  | .closing => 2
  | .joining => 1
  | .stopped => 0

/-- All peers, with the connections they have dialled, the pair of the dialling peer and its
target for each; those whose socket has been closed again by the dialling peer; and those whose
handler thread has returned. -/
structure Lifetime (P Id T S O : Type) where
  net : Cluster P Id T S O
  phase : P → LifePhase
  dialled : Finset (P × P)
  closed : Finset (P × P)
  exited : Finset (P × P)

namespace Lifetime

variable {P Id T S O : Type} [DecidableEq P] [DecidableEq Id]
variable {ident : P → Id} {write : Addr → Bytes → S → S} {flagged : Prop}

/-- No peer has started. -/
def start (prog : P → List (Par P T S O)) (σ : P → S) : Lifetime P Id T S O :=
  ⟨Cluster.start prog σ, fun _ => .down, ∅, ∅, ∅⟩

/-- The threads of the peer run. -/
def Alive (w : Lifetime P Id T S O) (p : P) : Prop := w.phase p ≠ .down ∧ w.phase p ≠ .stopped

/-- A message from `p` to `q` can be sent: on the connection there is, unless its handler has
returned, or on a new one, for which the accept loop has to run. -/
def Reaches (w : Lifetime P Id T S O) (p q : P) : Prop :=
  (p, q) ∈ w.dialled ∧ (p, q) ∉ w.exited ∨ (p, q) ∉ w.dialled ∧ w.phase q = .up

section Step

variable (ident write) (flagged)

/-- The steps of the peers between their start and their end. With `flagged` a server tells its
handlers that it is being stopped (`stopped_` of `net/old`), otherwise they go on until the
connection has been closed. -/
inductive Step [LT T] : Lifetime P Id T S O → Lifetime P Id T S O → Prop where
  | start {w : Lifetime P Id T S O} {p : P} :
      w.phase p = .down → Step w { w with phase := Function.update w.phase p .up }
  | tau {w : Lifetime P Id T S O} {p : P} {x : Node P Id T S O} :
      w.Alive p → NStep ident write p (w.net p) .tau x →
      Step w { w with net := Function.update w.net p x }
  | launch {w : Lifetime P Id T S O} {p : P} {x : Node P Id T S O} {qs : List P} {t : T} :
      w.Alive p → NStep ident write p (w.net p) (.launch qs t) x →
      (∃ q ∈ qs, w.net.Passed q t) →
      Step w { w with net := Function.update w.net p x }
  | send {w : Lifetime P Id T S O} {c : Cluster P Id T S O} {p q : P} {x : Node P Id T S O}
      {m : Message P T} :
      w.Alive p → NStep ident write p (w.net p) (.send q m) x → w.Reaches p q →
      c = Function.update w.net p x →
      Step w { w with
        net := Function.update c q ((c q).receive p m), dialled := insert (p, q) w.dialled }
  /-- `peer::stop` is called. -/
  | stop {w : Lifetime P Id T S O} {p : P} :
      w.phase p = .up → (w.net p).code = [] →
      Step w { w with phase := Function.update w.phase p .closing }
  | close {w : Lifetime P Id T S O} {p q : P} :
      w.phase p = .closing → (p, q) ∈ w.dialled → (p, q) ∉ w.closed →
      Step w { w with closed := insert (p, q) w.closed }
  | shut {w : Lifetime P Id T S O} {p : P} :
      w.phase p = .closing → (∀ q, (p, q) ∈ w.dialled → (p, q) ∈ w.closed) →
      Step w { w with phase := Function.update w.phase p .joining }
  /-- `handle_to_end` returns: `read_header` has come to the end of the stream, or sees the flag. -/
  | exit {w : Lifetime P Id T S O} {p q : P} :
      (p, q) ∈ w.dialled → (p, q) ∉ w.exited → (p, q) ∈ w.closed ∨ flagged ∧ w.phase q = .joining →
      (w.net q).handler p = .idle → (w.net q).conn p = [] →
      Step w { w with exited := insert (p, q) w.exited }
  | joined {w : Lifetime P Id T S O} {p : P} :
      w.phase p = .joining → (∀ q, (q, p) ∈ w.dialled → (q, p) ∈ w.exited) →
      Step w { w with phase := Function.update w.phase p .stopped }

/-- What the peers can have done. -/
abbrev Reach [LT T] (prog : P → List (Par P T S O)) (σ : P → S) : Lifetime P Id T S O → Prop :=
  Relation.ReflTransGen (Step ident write flagged) (start prog σ)

end Step

/-- Every peer has stopped. -/
def Over (w : Lifetime P Id T S O) : Prop := ∀ p, w.phase p = .stopped

end Lifetime

variable {P Id T S O : Type} [DecidableEq P] [DecidableEq Id]
variable {ident : P → Id} {write : Addr → Bytes → S → S} {flagged : Prop}

/-! ## Nodes that have nothing to run -/

/-- Only handlers run in a peer whose program is over. -/
theorem NStep.code_of_nil {self : P} {x x' : Node P Id T S O} {e : Event P T}
    (h : NStep ident write self x e x') (hcode : x.code = []) : e = .tau ∧ x'.code = [] := by
  cases h with
  | header | mailPut | slotTake | body | slotPut => exact ⟨rfl, hcode⟩
  | _ => simp_all

/-- Nothing happens on a connection on which nothing is left. -/
theorem NStep.conn_of_nil {self : P} {x x' : Node P Id T S O} {e : Event P T}
    (h : NStep ident write self x e x') {s : P} (hidle : x.handler s = .idle)
    (hconn : x.conn s = []) : x'.handler s = .idle ∧ x'.conn s = [] := by
  cases h with
  | @header s' m ms hh hm =>
      have hs : s ≠ s' := by
        rintro rfl
        simp [hconn] at hm
      simp [hs, hidle, hconn]
  | @mailPut s' m hh _ | @slotTake s' m ptr q hh _ | @body s' m ptr hh | @slotPut s' m ptr hh _ =>
      have hs : s ≠ s' := by
        rintro rfl
        simp [hidle] at hh
      simp [hs, hidle, hconn]
  | _ => exact ⟨hidle, hconn⟩

/-- A thread of `p` has still to send to `q`. -/
def Cluster.WillSend (c : Cluster P Id T S O) (p q : P) : Prop :=
  ∃ b ∈ (c p).code, ∃ name flags data, .send q name flags data ∈ b.threads

theorem NStep.willSend {self q : P} {x x' : Node P Id T S O} {m : Message P T}
    (h : NStep ident write self x (.send q m) x') :
    ∃ b ∈ x.code, ∃ name flags data, .send q name flags data ∈ b.threads := by
  cases h with
  | @send t l₁ l₂ bs id name flags data hcode =>
      exact ⟨_, by rw [hcode]; exact List.mem_cons_self, name, flags, data, by simp⟩

omit [DecidableEq P] [DecidableEq Id] in
/-- A send is always live. -/
theorem Node.exists_send (ident : P → Id) (write : Addr → Bytes → S → S) {x : Node P Id T S O}
    {q : P} {b : Par P T S O} {name : Bytes} {flags : UInt32} {data : S → Bytes}
    (hb : b ∈ x.code) (hth : .send q name flags data ∈ b.threads) :
    ∃ blk ∈ x.abs ident write, Thread.job write b.time (.send q name flags data) ∈ blk.jobs := by
  cases hc : x.code with
  | nil => simp [hc] at hb
  | cons b' bs =>
      rw [Node.abs, hc]
      rw [hc, List.mem_cons] at hb
      rcases hb with rfl | hb
      · refine ⟨_, List.mem_cons_self, List.mem_map_of_mem (List.mem_filter.mpr ⟨hth, ?_⟩)⟩
        simp [Node.live]
      · exact ⟨_, List.mem_cons_of_mem _ (List.mem_map_of_mem hb), List.mem_map_of_mem hth⟩

omit [DecidableEq Id] in
/-- The target of what is still to be sent has still to receive it. -/
theorem Sim.code_of_willSend [LinearOrder T] {c : Cluster P Id T S O}
    {a : BlockNet.State P T Key Bytes S O} (h : Sim ident write c a) (hm : Matched a) {p q : P}
    (hsend : c.WillSend p q) : (c q).code ≠ [] := by
  obtain ⟨b, hb, name, flags, data, hth⟩ := hsend
  obtain ⟨blk, hblk, hjob⟩ := Node.exists_send ident write hb hth
  have hsends : (blk.time, (cStr name, waitsFlag flags)) ∈ sends (a.proc p).blocks q := by
    rw [(h p).code]
    refine List.mem_flatMap.mpr ⟨blk, hblk, List.mem_map_of_mem (List.mem_filterMap.mpr ?_)⟩
    exact ⟨_, hjob, by simp [Thread.job, Job.sendKey]⟩
  intro hnil
  have hrecvs : recvs (a.proc q).blocks p = [] := by
    rw [(h q).code, Node.abs, hnil]
    rfl
  have htags := hm.tags p q
  rw [hrecvs, List.append_eq_nil_iff] at htags
  simp [htags.2] at hsends

namespace Lifetime

/-! ## What always holds -/

/-- What holds of peers that start and stop. -/
structure Inv (w : Lifetime P Id T S O) : Prop where
  known : w.exited ⊆ w.dialled
  busy : ∀ p, w.phase p = .down ∨ w.phase p = .up ∨ (w.net p).code = []
  closed : ∀ p q, (p, q) ∈ w.closed → (w.net p).code = []
  shut : ∀ p, w.phase p = .joining ∨ w.phase p = .stopped →
    ∀ q, (p, q) ∈ w.dialled → (p, q) ∈ w.closed
  exited : ∀ p q, (p, q) ∈ w.exited → (w.net q).handler p = .idle ∧ (w.net q).conn p = [] ∧
    ((w.net p).code = [] ∨ (w.net q).code = [])
  joined : ∀ q, w.phase q = .stopped → ∀ p, (p, q) ∈ w.dialled → (p, q) ∈ w.exited

variable {w w' : Lifetime P Id T S O} {p q : P}

omit [DecidableEq P] [DecidableEq Id] in
theorem Inv.start {prog : P → List (Par P T S O)} {σ : P → S} :
    Inv (start prog σ : Lifetime P Id T S O) where
  known := by simp [Lifetime.start]
  busy _ := .inl rfl
  closed := by simp [Lifetime.start]
  shut := by simp [Lifetime.start]
  exited := by simp [Lifetime.start]
  joined := by simp [Lifetime.start]

/-- A peer moves by itself. -/
theorem Inv.move (h : Inv w) {e : Event P T} {x : Node P Id T S O}
    (hx : NStep ident write p (w.net p) e x) :
    Inv { w with net := Function.update w.net p x } where
  known := h.known
  busy r := by
    have := h.busy r
    by_cases hr : r = p
    · subst hr
      simpa using this.imp_right (Or.imp_right fun hc => (hx.code_of_nil hc).2)
    · simpa [hr] using this
  closed r s hrs := by
    have := h.closed r s hrs
    by_cases hr : r = p
    · subst hr
      simpa using (hx.code_of_nil this).2
    · simpa [hr] using this
  shut := h.shut
  exited r s hrs := by
    obtain ⟨hidle, hconn, hcode⟩ := h.exited r s hrs
    have hnil : ∀ t, (w.net t).code = [] → (Function.update w.net p x t).code = [] := by
      intro t ht
      by_cases htp : t = p
      · subst htp
        simpa using (hx.code_of_nil ht).2
      · simpa [htp] using ht
    have hrest : (Function.update w.net p x s).handler r = .idle ∧
        (Function.update w.net p x s).conn r = [] := by
      by_cases hs : s = p
      · subst hs
        simpa using hx.conn_of_nil hidle hconn
      · simpa [hs] using And.intro hidle hconn
    exact ⟨hrest.1, hrest.2, hcode.imp (hnil r) (hnil s)⟩
  joined := h.joined

omit [DecidableEq Id] in
/-- A peer goes on to another phase. -/
theorem Inv.enter (h : Inv w) {ph : LifePhase}
    (hbusy : ph = .down ∨ ph = .up ∨ (w.net p).code = [])
    (hshut : ph = .joining ∨ ph = .stopped → ∀ q, (p, q) ∈ w.dialled → (p, q) ∈ w.closed)
    (hjoined : ph = .stopped → ∀ q, (q, p) ∈ w.dialled → (q, p) ∈ w.exited) :
    Inv { w with phase := Function.update w.phase p ph } where
  known := h.known
  busy r := by
    by_cases hr : r = p
    · subst hr
      simpa using hbusy
    · simpa [hr] using h.busy r
  closed := h.closed
  shut r hrs := by
    by_cases hr : r = p
    · subst hr
      exact hshut (by simpa using hrs)
    · exact h.shut r (by simpa [hr] using hrs)
  exited := h.exited
  joined r hrs := by
    by_cases hr : r = p
    · subst hr
      exact hjoined (by simpa using hrs)
    · exact h.joined r (by simpa [hr] using hrs)

omit [DecidableEq Id] in
/-- What arrives is not code. -/
theorem code_receive (c : Cluster P Id T S O) (m : Message P T) (r : P) :
    (Function.update c q ((c q).receive p m) r).code = (c r).code := by
  by_cases hr : r = q
  · subst hr
    simp [Node.receive]
  · simp [hr]

omit [DecidableEq Id] in
/-- A message arrives, on a connection that has been dialled for it or before. -/
theorem Inv.receive (h : Inv w) (hup : w.phase p = .up) (hreach : w.Reaches p q)
    (m : Message P T) :
    Inv { w with
      net := Function.update w.net q ((w.net q).receive p m), dialled := insert (p, q) w.dialled }
    where
  known := h.known.trans (Finset.subset_insert _ _)
  busy r := by simpa only [code_receive] using h.busy r
  closed r s hrs := by simpa only [code_receive] using h.closed r s hrs
  shut r hr s hs := by
    rcases Finset.mem_insert.mp hs with heq | hs
    · obtain ⟨rfl, -⟩ := Prod.mk.inj heq
      simp [hup] at hr
    · exact h.shut r hr s hs
  exited r s hrs := by
    obtain ⟨hidle, hconn, hcode⟩ := h.exited r s hrs
    -- nothing is sent on a connection whose handler has returned
    have hne : s = q → r ≠ p := by
      rintro rfl rfl
      rcases hreach with ⟨-, hnot⟩ | ⟨hnot, -⟩
      · exact hnot hrs
      · exact hnot (h.known hrs)
    refine ⟨?_, ?_, by simpa only [code_receive] using hcode⟩
    · by_cases hs : s = q
      · subst hs
        simpa [Node.receive] using hidle
      · simpa [hs] using hidle
    · by_cases hs : s = q
      · subst hs
        simpa [Node.receive, hne rfl] using hconn
      · simpa [hs] using hconn
  joined s hs r hr := by
    rcases Finset.mem_insert.mp hr with heq | hr
    · obtain ⟨rfl, rfl⟩ := Prod.mk.inj heq
      rcases hreach with ⟨hdial, -⟩ | ⟨-, hq⟩
      · exact h.joined _ hs _ hdial
      · simp [hq] at hs
    · exact h.joined s hs r hr

/-- **Every step keeps the invariant.** -/
theorem Inv.step [LT T] (h : Inv w) (hs : Step ident write flagged w w') : Inv w' := by
  cases hs with
  | start hdown => exact h.enter (.inr (.inl rfl)) (by simp) (by simp)
  | tau _ hx | launch _ hx _ => exact h.move hx
  | @send c p q x m halive hx hreach hc =>
      subst hc
      have hcode : (w.net p).code ≠ [] := by
        intro hnil
        simpa using (hx.code_of_nil hnil).1
      have hup : w.phase p = .up := by
        rcases h.busy p with hp | hp | hp
        · exact absurd hp halive.1
        · exact hp
        · exact absurd hp hcode
      exact (h.move hx).receive hup hreach m
  | stop _ hcode => exact h.enter (.inr (.inr hcode)) (by simp) (by simp)
  | @close p q hphase hdial hnot =>
      have hcode : (w.net p).code = [] := by simpa [hphase] using h.busy p
      refine ⟨h.known, h.busy, fun r s hrs => ?_, fun r hr s hrs => ?_, h.exited, h.joined⟩
      · rcases Finset.mem_insert.mp hrs with heq | hrs
        · obtain ⟨rfl, -⟩ := Prod.mk.inj heq
          exact hcode
        · exact h.closed r s hrs
      · exact Finset.mem_insert_of_mem (h.shut r hr s hrs)
  | @shut p hphase hall =>
      exact h.enter (.inr (.inr (by simpa [hphase] using h.busy p))) (fun _ => hall) (by simp)
  | @exit p q hdial hnot hend hidle hconn =>
      refine ⟨fun e he => ?_, h.busy, h.closed, h.shut, fun r s hrs => ?_, fun s hs r hrs => ?_⟩
      · rcases Finset.mem_insert.mp he with rfl | he
        · exact hdial
        · exact h.known he
      · rcases Finset.mem_insert.mp hrs with heq | hrs
        · obtain ⟨rfl, rfl⟩ := Prod.mk.inj heq
          refine ⟨hidle, hconn, ?_⟩
          rcases hend with hclosed | ⟨-, hphase⟩
          · exact .inl (h.closed _ _ hclosed)
          · exact .inr (by simpa [hphase] using h.busy s)
        · exact h.exited r s hrs
      · exact Finset.mem_insert_of_mem (h.joined s hs r hrs)
  | @joined p hphase hall =>
      exact h.enter (.inr (.inr (by simpa [hphase] using h.busy p)))
        (fun _ => h.shut p (.inl hphase)) (fun _ => hall)

omit [DecidableEq P] [DecidableEq Id] in
/-- A peer that has something to run has not been stopped. -/
theorem Inv.up (h : Inv w) (hdown : w.phase p ≠ .down) (hcode : (w.net p).code ≠ []) :
    w.phase p = .up := by
  rcases h.busy p with hp | hp | hp
  · exact absurd hp hdown
  · exact hp
  · exact absurd hp hcode

section Progress

variable [LinearOrder T] {a : BlockNet.State P T Key Bytes S O}

omit [DecidableEq Id] in
/-- A peer that has something to send finds its target as it needs it. -/
theorem Inv.reaches (h : Inv w) (hsim : Sim ident write w.net a) (hm : Matched a)
    (hdown : w.phase q ≠ .down) (hsend : w.net.WillSend p q) : w.Reaches p q := by
  have hq := hsim.code_of_willSend hm hsend
  have hp : (w.net p).code ≠ [] := by
    obtain ⟨b, hb, -⟩ := hsend
    exact List.ne_nil_of_mem hb
  by_cases hdial : (p, q) ∈ w.dialled
  · refine .inl ⟨hdial, fun hexit => ?_⟩
    exact (h.exited p q hexit).2.2.elim hp hq
  · exact .inr ⟨hdial, h.up hdown hq⟩

/-- **No state is stuck before all peers have stopped.** -/
theorem Inv.progress [WellFoundedLT T] (h : Inv w) (hsim : Sim ident write w.net a)
    (hm : Matched a) (he : Excl ident a) (hover : ¬w.Over) :
    ∃ w', Step ident write flagged w w' := by
  by_contra hstuck
  have hdown : ∀ p, w.phase p ≠ .down := fun p hp => hstuck ⟨_, .start hp⟩
  by_cases hf : w.net.Final
  · -- nothing is left on any connection, and what remains to be done is to stop
    have hdrained := hsim.drained hm hf
    have hup : ∀ p, w.phase p ≠ .up := fun p hp => hstuck ⟨_, .stop hp (hf p)⟩
    have hclosing : ∀ p, w.phase p ≠ .closing := fun p hp =>
      hstuck ⟨_, .shut hp fun q hq => by_contra fun hc => hstuck ⟨_, .close hp hq hc⟩⟩
    have hpast : ∀ p, w.phase p = .joining ∨ w.phase p = .stopped := by
      intro p
      have := hdown p
      have := hup p
      have := hclosing p
      cases hp : w.phase p <;> simp_all
    have hjoining : ∀ p, w.phase p ≠ .joining := fun p hp =>
      hstuck ⟨_, .joined hp fun q hq => by_contra fun hc =>
        hstuck ⟨_, .exit hq hc (.inl (h.shut q (hpast q) p hq)) ((hdrained p).1 q).2
          ((hdrained p).1 q).1⟩⟩
    exact hover fun p => (hpast p).resolve_left (hjoining p)
  · obtain ⟨p, t, bs, hb⟩ := hm.progress fun hfin => hf (hsim.final hfin)
    obtain ⟨e, x, hx, hl⟩ := hsim.ready_step hm he hb
    have hcode : (w.net p).code ≠ [] := by
      intro hnil
      have habs := (hsim p).code
      rw [Node.abs, hnil] at habs
      rcases hb with hb | ⟨l₁, j, l₂, hb, -⟩ <;> simp [habs] at hb
    have hup := h.up (hdown p) hcode
    have halive : w.Alive p := by simp [Alive, hup]
    cases e with
    | tau => exact hstuck ⟨_, .tau halive hx⟩
    | launch qs u => exact hstuck ⟨_, .launch halive hx (hl qs u rfl)⟩
    | send q m => exact hstuck ⟨_, .send halive hx (h.reaches hsim hm (hdown q) hx.willSend) rfl⟩

end Progress

/-! ## Runs -/

section Runs

variable [LinearOrder T]

/-- A step is one of the peers among themselves, or leaves them as they are. -/
theorem Step.net (h : Step ident write flagged w w') :
    CStep ident write w.net w'.net ∨ w'.net = w.net := by
  cases h with
  | tau _ hx => exact .inl (.tau hx)
  | launch _ hx hq => exact .inl (.launch hx hq)
  | send _ hx _ hc => exact .inl (.send hx hc)
  | start | stop | close | shut | exit | joined => exact .inr rfl

variable {prog : P → List (Par P T S O)} {σ : P → S}

/-- Starting and stopping do not change what the peers can do. -/
theorem Reach.net (h : Reach ident write flagged prog σ w) : CReach ident write prog σ w.net := by
  induction h with
  | refl => exact .refl
  | tail _ hs ih =>
      rcases hs.net with hc | heq
      · exact ih.tail hc
      · rwa [heq]

theorem Reach.inv (h : Reach ident write flagged prog σ w) : Inv w := by
  induction h with
  | refl => exact .start
  | tail _ hs ih => exact ih.step hs

/-- A peer that is up goes on by itself. -/
theorem Reach.node {y : Node P Id T S O} (h : Reach ident write flagged prog σ w)
    (halive : w.Alive p) (hrun : NRun ident write p (w.net p) y) :
    Reach ident write flagged prog σ { w with net := Function.update w.net p y } := by
  induction hrun with
  | refl => rwa [Function.update_eq_self]
  | @tail x x' _ hs ih =>
      have hself : Function.update w.net p x p = x := Function.update_self p x w.net
      have hstep := ih.tail (.tau (x := x') halive (by rwa [← hself] at hs))
      simpa only [Function.update_idem] using hstep

/-- A peer that has not started has its whole program before it. -/
theorem Reach.code_of_down (h : Reach ident write flagged prog σ w) (hdown : w.phase p = .down) :
    (w.net p).code = prog p := by
  induction h with
  | refl => rfl
  | @tail w w' _ hs ih =>
      cases hs with
      | @start r hr | @stop r hr _ | @shut r hr _ | @joined r hr _ =>
          by_cases hp : p = r
          · subst hp
            simp at hdown
          · exact ih (by simpa [hp] using hdown)
      | @tau r x halive _ | @launch r x qs t halive _ _ =>
          have hp : p ≠ r := by
            rintro rfl
            exact halive.1 hdown
          simpa [hp] using ih hdown
      | @send c r q x m halive _ _ hc =>
          subst hc
          have hp : p ≠ r := by
            rintro rfl
            exact halive.1 hdown
          rw [code_receive, Function.update_of_ne hp]
          exact ih hdown
      | close | exit => exact ih hdown

end Runs

/-! ## The end -/

section Termination

variable [Fintype P] [LinearOrder T]

/-- What the peers have still to do about their starts and stops. -/
def left (w : Lifetime P Id T S O) : ℕ :=
  total LifePhase.weight w.phase + w.closedᶜ.card + w.exitedᶜ.card

omit [DecidableEq Id] [LinearOrder T] in
theorem card_compl_insert {s : Finset (P × P)} {e : P × P} (he : e ∉ s) :
    (insert e s)ᶜ.card + 1 = sᶜ.card := by
  have hcard := Finset.card_insert_of_notMem he
  have hle := Finset.card_le_univ (insert e s)
  rw [Finset.card_compl, Finset.card_compl]
  omega

omit [DecidableEq Id] [LinearOrder T] in
theorem left_phase {ph : LifePhase} (h : ph.weight < (w.phase p).weight) :
    left { w with phase := Function.update w.phase p ph } < w.left := by
  have := total_update_lt h
  simp only [left]
  omega

/-- A step that is not one of the peers among themselves leaves less to be done. -/
theorem Step.left_lt (h : Step ident write flagged w w') :
    CStep ident write w.net w'.net ∨ w'.net = w.net ∧ w'.left < w.left := by
  cases h with
  | tau _ hx => exact .inl (.tau hx)
  | launch _ hx hq => exact .inl (.launch hx hq)
  | send _ hx _ hc => exact .inl (.send hx hc)
  | start hp | stop hp _ | shut hp _ | joined hp _ =>
      exact .inr ⟨rfl, left_phase (by simp [hp, LifePhase.weight])⟩
  | close _ _ hnot | exit _ hnot _ _ _ =>
      have := card_compl_insert hnot
      exact .inr ⟨rfl, by simp only [left]; omega⟩

variable (ident write flagged) in
/-- **There is no infinite run.** -/
theorem Step.wf : WellFounded fun w' w : Lifetime P Id T S O => Step ident write flagged w w' := by
  have hlex : WellFounded (Prod.Lex (fun c' c : Cluster P Id T S O => CStep ident write c c')
      fun m n : ℕ => m < n) :=
    ⟨fun x => Prod.lexAccessible ((CStep.wf ident write).apply x.1) (wellFounded_lt.apply ·) x.2⟩
  refine Subrelation.wf (r := InvImage _ fun w : Lifetime P Id T S O => (w.net, w.left)) ?_
    (InvImage.wf _ hlex)
  intro w' w hs
  rcases hs.left_lt with hc | ⟨heq, hlt⟩
  · exact .left _ _ hc
  · change Prod.Lex _ _ (w'.net, w'.left) (w.net, w.left)
    rw [heq]
    exact .right _ hlt

variable {prog : P → List (Par P T S O)} {σ : P → S}

/-- Every run can be carried on until all peers have stopped. -/
theorem exists_over [WellFoundedLT T] (ht : Tidy ident prog)
    (hc : Compat fun p => blocks write (prog p))
    (he : ∀ a, BlockNet.Reach (fun p => blocks write (prog p)) σ a → Excl ident a)
    (hw : Reach ident write flagged prog σ w) :
    ∃ w', Reach ident write flagged prog σ w' ∧ w'.Over := by
  obtain ⟨w', hrun, hstuck⟩ := exists_stuck_of_wf (Step.wf ident write flagged) w
  refine ⟨w', hw.trans hrun, ?_⟩
  by_contra hover
  have hinv := Reach.inv (hw.trans hrun)
  obtain ⟨a, ha, hsim⟩ := simulate ht hc he (Reach.net (hw.trans hrun))
  obtain ⟨w'', hs⟩ := hinv.progress hsim (hc.matched_reach ha) (he a ha) hover
  exact hstuck w'' hs

end Termination

omit [DecidableEq P] [DecidableEq Id] in
theorem Inv.final (h : Inv w) (hover : w.Over) : w.net.Final := fun p => by
  simpa [hover p] using h.busy p

omit [DecidableEq Id] in
/-- A handler returns when all that will ever come has been handled. -/
theorem Inv.handled [LinearOrder T] {a : BlockNet.State P T Key Bytes S O} (h : Inv w)
    (hsim : Sim ident write w.net a) (hm : Matched a) (hexit : (p, q) ∈ w.exited) :
    (w.net q).handler p = .idle ∧ (w.net q).conn p = [] ∧ ¬w.net.WillSend p q := by
  obtain ⟨hidle, hconn, hcode⟩ := h.exited p q hexit
  refine ⟨hidle, hconn, fun hsend => ?_⟩
  rcases hcode with hp | hq
  · obtain ⟨b, hb, -⟩ := hsend
    simp [hp] at hb
  · exact hsim.code_of_willSend hm hsend hq

end Lifetime

end StdmlCollective

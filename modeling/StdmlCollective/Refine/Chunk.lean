import StdmlCollective.Lib.Causality
import StdmlCollective.Refine.Async

/-!
# When chunks on one runtime can go on

The programs of a chunk fit together (`Chunk`): they are compatible, nothing is received twice
under one key, and a message for a buffer finds its receiver with nothing else to do. So every
chunk is in a state of a block network that is stuck only at its end, and what a chunk may wait
for when no peer can take a step is a matter of the pools: `Stuck` says what such a state looks
like.
-/

namespace StdmlCollective

open BlockNet

variable {J P Id T S O : Type}

/-! ## Receives into buffers -/

section Slots

variable {ident : P → Id} {write : Addr → Bytes → S → S} {x : Node P Id T S O}

/-- A node that waits for no buffer has its sections before it as they stand. -/
theorem Node.abs_eq_blocks (ident : P → Id) (write : Addr → Bytes → S → S)
    (h : x.waiting = []) : x.abs ident write = blocks write x.code := by
  refine Node.abs_of_live ident write fun th hth => ?_
  rw [Node.waiting, List.filterMap_eq_nil_iff] at h
  have hslot := h th hth
  cases th <;> simp_all [Node.live, Thread.slot?]

theorem SlotFree.not_mem {bs : List (Par P T S O)} (h : SlotFree bs) {b : Par P T S O} (hb : b ∈ bs)
    {th : Thread P T S O} (hth : th ∈ b.threads) (hslot : th.slotted = true) : False := by
  have hfree := h b hb th hth
  rw [hslot] at hfree
  cases hfree

theorem SlotAt.oneSlot {code pre post : List (Par P T S O)} {t : T} {s : P} {name : Bytes}
    {ptr : Addr} (h : SlotAt code pre t s name ptr post) : OneSlot code :=
  .inr ⟨pre, t, s, name, ptr, post, h.code, h.pre, h.post⟩

/-- A thread that receives into a buffer is the one that the section is made of. -/
theorem SlotAt.thread {code pre post : List (Par P T S O)} {t : T} {s : P} {name : Bytes}
    {ptr : Addr} (h : SlotAt code pre t s name ptr post) {b : Par P T S O} (hb : b ∈ code)
    {th : Thread P T S O} (hth : th ∈ b.threads) (hslot : th.slotted = true) :
    b = ⟨t, [.slotGet s name ptr]⟩ ∧ th = .slotGet s name ptr := by
  rw [h.code] at hb
  rcases List.mem_append.mp hb with hb | hb
  · exact (h.pre.not_mem hb hth hslot).elim
  · rcases List.mem_cons.mp hb with rfl | hb
    · exact ⟨rfl, List.mem_singleton.mp hth⟩
    · exact (h.post.not_mem hb hth hslot).elim

theorem OneSlot.waiting (h : OneSlot x.code) : x.waiting = [] := by
  rw [Node.waiting, List.filterMap_eq_nil_iff]
  intro th hth
  cases hc : x.code with
  | nil => simp [Node.threads, hc] at hth
  | cons b bs =>
      rw [Node.threads_eq hc] at hth
      have hb : b ∈ x.code := by
        rw [hc]
        exact List.mem_cons_self
      cases th with
      | slotWait s name ptr =>
          rcases h with hfree | ⟨pre, t, s', name', ptr', post, heq, hpre, hpost⟩
          · exact (hfree.not_mem hb hth rfl).elim
          · obtain ⟨-, hth⟩ := SlotAt.thread ⟨heq, hpre, hpost⟩ hb hth rfl
            cases hth
      | _ => rfl

variable [DecidableEq P] [DecidableEq Id]

/-- The late peer has not posted anything. -/
theorem Early.oneSlot {y : Node P Id T S O} (h : Early ident write x y) : OneSlot y.code := by
  cases h with
  | same _ hslot => exact hslot
  | posted _ hslot | taken _ hslot _ | written _ hslot _ | stored _ hslot _ => exact hslot.oneSlot

/-- Either the pointer has been posted, or nothing distinguishes the two peers. -/
theorem Early.code_cases {y : Node P Id T S O} (h : Early ident write x y) :
    x = y ∨ ∃ pre t s name ptr post, SlotAt y.code pre t s name ptr post ∧
      x.code = pre ++ ⟨t, [.slotWait s name ptr]⟩ :: post := by
  cases h with
  | same => exact .inl rfl
  | posted _ hslot | taken _ hslot _ | written _ hslot _ | stored _ hslot _ =>
      exact .inr ⟨_, _, _, _, _, _, hslot, rfl⟩

/-- A pointer that has not been posted has not been posted by the early peer either. -/
theorem Early.eq_of_slotGet {y : Node P Id T S O} (h : Early ident write x y) {b : Par P T S O}
    (hb : b ∈ x.code) {s : P} {name : Bytes} {ptr : Addr} (hth : .slotGet s name ptr ∈ b.threads) :
    x = y := by
  rcases h.code_cases with heq | ⟨pre, t, s', name', ptr', post, hslot, hc⟩
  · exact heq
  · rw [hc] at hb
    rcases List.mem_append.mp hb with hb | hb
    · exact (hslot.pre.not_mem hb hth rfl).elim
    · rcases List.mem_cons.mp hb with rfl | hb
      · simp at hth
      · exact (hslot.post.not_mem hb hth rfl).elim

/-- A handler that the early peer has at work, but not on a buffer. -/
theorem Early.handler_of {y : Node P Id T S O} (h : Early ident write x y) {s : P}
    {hd : Handler P T} (hx : x.handler s = hd) (hne : hd ≠ .idle) (hb : hd.busy = false) :
    y.handler s = hd := by
  rcases h.handler s with heq | ⟨m, -, hidle | ⟨ptr, hw | hw⟩⟩
  · rw [← heq, hx]
  · exact absurd (hx.symm.trans hidle) hne
  · rw [hx.symm.trans hw] at hb
    cases hb
  · rw [hx.symm.trans hw] at hb
    cases hb

theorem Early.quiet {y : Node P Id T S O} (h : Early ident write x y) : Quiet y := by
  cases h with
  | same hq _ | posted hq _ | taken hq _ _ | written hq _ _ | stored hq _ _ => exact hq

end Slots

/-- At most one task of a section deals with a peer. -/
theorem Par.Proper.eq_of_peer {b : Par P T S O} (h : b.Proper) {th th' : Thread P T S O} {q : P}
    (hth : th ∈ b.threads) (hth' : th' ∈ b.threads) (hq : th.peer? = some q)
    (hq' : th'.peer? = some q) : th = th' := by
  obtain ⟨l₁, l₂, hl⟩ := List.append_of_mem hth
  have hperm : b.peers.Perm (q :: (l₁ ++ l₂).filterMap Thread.peer?) := by
    rw [Par.peers, hl]
    simp [hq, List.perm_middle]
  have hnot := (List.nodup_cons.mp (hperm.nodup_iff.mp h.nodup)).1
  rw [hl] at hth'
  by_contra hne
  apply hnot
  refine List.mem_filterMap.mpr ⟨th', ?_, hq'⟩
  rcases List.mem_append.mp hth' with hmem | hmem
  · exact List.mem_append_left _ hmem
  · rcases List.mem_cons.mp hmem with heq | hmem
    · exact absurd heq.symm hne
    · exact List.mem_append_right _ hmem

/-! ## The programs of a chunk -/

/-- A chunk begins with what leaves the peers as they are: `workspace_state` is built. -/
def Begins (full rest : P → List (Par P T S O)) (σ : P → S) : Prop :=
  ∀ p, ∃ t f, full p = ⟨t, [.act f]⟩ :: rest p ∧ f (σ p) = σ p

section Begins

variable [DecidableEq P] [DecidableEq Id] [LinearOrder T] {ident : P → Id}
  {write : Addr → Bytes → S → S} {full rest : P → List (Par P T S O)} {σ : P → S}

/-- What peers reach that have begun they can reach from the beginning. -/
theorem Begins.reach [Fintype P] (h : Begins full rest σ) {c : Cluster P Id T S O}
    (hc : CReach ident write rest σ c) : CReach ident write full σ c := by
  have hstart : CReach ident write full σ (Cluster.start rest σ) := by
    -- the peers in `A` have begun
    have hsome : ∀ A : Finset P, CReach ident write full σ fun p =>
        Node.fresh (if p ∈ A then rest p else full p) (σ p) := by
      intro A
      induction A using Finset.induction_on with
      | empty => exact .refl
      | @insert p A hp ih =>
          obtain ⟨t, f, hfull, hf⟩ := h p
          have hact : NRun ident write p (Node.fresh (if p ∈ A then rest p else full p) (σ p) :
              Node P Id T S O) _ := NRun.act (by rw [if_neg hp]; exact hfull)
          have hrun := ih.node hact
          have heq : (fun q => (Node.fresh (if q ∈ insert p A then rest q else full q) (σ q) :
              Node P Id T S O)) = Function.update (fun q => Node.fresh
                (if q ∈ A then rest q else full q) (σ q)) p
                { Node.fresh (if p ∈ A then rest p else full p) (σ p) with
                  code := rest p
                  store := f (σ p) } := by
            funext q
            by_cases hq : q = p
            · subst hq
              rw [Function.update_self, hf, if_pos (Finset.mem_insert_self _ _)]
              rfl
            · rw [Function.update_of_ne hq]
              simp [hq]
          rw [heq]
          exact hrun
    have hall := hsome Finset.univ
    simp only [Finset.mem_univ, if_true] at hall
    exact hall
  exact hstart.trans hc

end Begins

section Chunk

variable [DecidableEq P] [LinearOrder T]

/-- What the programs of a chunk are like. -/
structure Chunk (prog : P → List (Par P T Store O)) : Prop where
  compat : Compat fun p => blocks Store.writeBody (prog p)
  fresh : ∀ p, ∀ b ∈ prog p, ∀ th ∈ b.threads, th.Fresh
  proper : ∀ p, ∀ b ∈ prog p, b.Proper
  oneSlot : ∀ p, OneSlot (prog p)
  keys : ∀ s d, ((recvs (blocks Store.writeBody (prog d)) s).map Prod.snd).Nodup
  -- a message for a buffer is the last one from its sender
  last : ∀ s d, (recvs (blocks Store.writeBody (prog d)) s).Pairwise fun x _ => x.2.2 = false
  -- what is reduced is sent before anything is received into a buffer
  before : ∀ {q s d t t' name name'},
    (t, (name, true)) ∈ recvs (blocks Store.writeBody (prog q)) s →
    (t', (name', false)) ∈ sends (blocks Store.writeBody (prog q)) d → t' < t
  -- when a message for a buffer arrives everything before the receive is done
  ahead : ∀ {σ a}, Reach (fun p => blocks Store.writeBody (prog p)) σ a → ∀ {s p},
    ∀ pk ∈ a.link s p, pk.key.2 = true → ∀ b ∈ (a.proc p).blocks, b.time < pk.time → b.jobs = []

variable [DecidableEq Id] {ident : P → Id} {prog : P → List (Par P T Store O)} {σ : P → Store}
  {y : Cluster P Id T Store O} {a : State P T Key Bytes Store O}

/-- The network that the peers of a chunk stand for. -/
theorem Chunk.simulate (h : Chunk prog) (hid : Function.Injective ident)
    (hy : CReach ident Store.writeBody prog σ y) :
    ∃ a, Reach (fun p => blocks Store.writeBody (prog p)) σ a ∧ Sim ident Store.writeBody y a :=
  StdmlCollective.simulate (tidy_of_compat hid h.fresh h.compat) h.compat
    (fun a _ => excl_of_injective hid a) hy

omit [DecidableEq Id] [LinearOrder T] in
/-- A message that a handler holds, and what the peer is to do with it. -/
theorem NSim.slot_recv {x : Node P Id T Store O} {b : Proc P T Key Bytes Store O}
    {o : List (ℕ × O)} {lk : P → List (BlockNet.Packet T Key Bytes)}
    (h : NSim ident Store.writeBody x b o lk) {s : P} {m : Message P T}
    (hh : x.handler s = .slot m) :
    m.packet ∈ lk s ∧ m.waits = true := by
  obtain ⟨D, hD⟩ := h.pipes
  have hfits := hD.fits s
  rw [hh] at hfits
  refine ⟨?_, hfits⟩
  rw [hD.link s, hh]
  simp

omit [DecidableEq Id] in
/-- A message for a buffer is received by a thread that receives into a buffer. -/
theorem Sim.slot_thread (hsim : Sim ident Store.writeBody y a) (hm : Matched a) {s p : P}
    (hone : OneSlot (y p).code) {pk : BlockNet.Packet T Key Bytes} (hpk : pk ∈ a.link s p)
    (hslot : pk.key.2 = true) :
    ∃ pre ptr post, SlotAt (y p).code pre pk.time s pk.key.1 ptr post := by
  have hmem : pk.tag ∈ recvs (a.proc p).blocks s := by
    rw [← hm.tags s p]
    exact List.mem_append_left _ (List.mem_map_of_mem hpk)
  rw [(hsim p).code, Node.abs_eq_blocks ident _ hone.waiting] at hmem
  obtain ⟨b', hb', htime, g, hg⟩ := time_of_mem_recvs (t := pk.time) (k := pk.key) hmem
  obtain ⟨b, hb, rfl⟩ := List.mem_map.mp hb'
  obtain ⟨th, hth, hjob⟩ := List.mem_map.mp hg
  have hslotted : th.slotted = true ∧ th.from? = some s := by
    obtain ⟨t, ⟨name, w⟩, d⟩ := pk
    simp only at hslot
    subst hslot
    cases th <;> simp_all [Thread.job, Thread.slotted, Thread.from?]
  rcases hone with hfree | ⟨pre, t, s', name, ptr, post, heq, hpre, hpost⟩
  · exact (hfree.not_mem hb hth hslotted.1).elim
  · have hat : SlotAt (y p).code pre t s' name ptr post := ⟨heq, hpre, hpost⟩
    obtain ⟨rfl, rfl⟩ := hat.thread hb hth hslotted.1
    simp only [Par.block] at htime
    subst htime
    have hkey : s' = s ∧ name = pk.key.1 := by
      obtain ⟨t, ⟨nm, w⟩, d⟩ := pk
      simp only [Thread.job, Job.recv.injEq, Prod.mk.injEq] at hjob
      exact ⟨hjob.1, hjob.2.1.1⟩
    obtain ⟨rfl, rfl⟩ := hkey
    exact ⟨pre, ptr, post, hat⟩

/-- **A message that waits for a buffer finds its receiver with nothing else to do.** -/
theorem Chunk.attends (h : Chunk prog) (hid : Function.Injective ident)
    (hy : CReach ident Store.writeBody prog σ y) (p : P) : Attends (y p) := by
  obtain ⟨a, ha, hsim⟩ := h.simulate hid hy
  have hm := h.compat.matched_reach ha
  intro s m hh
  obtain ⟨hpk, hwaits⟩ := (hsim p).slot_recv hh
  constructor
  · -- nothing comes after it
    obtain ⟨D, hD⟩ := (hsim p).pipes
    have hlast := (h.last s p).sublist ((ha.remains p).recvs_sublist s)
    rw [← hm.tags s p, List.pairwise_append] at hlast
    have hlink := hlast.1
    rw [hD.link s, hh, Handler.held_slot, List.append_assoc, List.singleton_append,
      List.map_append, List.map_append, List.map_cons, List.map_cons] at hlink
    have hconn := (List.pairwise_append.mp hlink).2.1
    rw [List.pairwise_cons] at hconn
    by_contra hne
    obtain ⟨m', hm'⟩ := List.exists_mem_of_ne_nil _ hne
    have hfalse := hconn.1 m'.packet.tag (List.mem_map_of_mem (List.mem_map_of_mem hm'))
    rw [Message.tag_packet] at hfalse
    simp only [hwaits] at hfalse
    cases hfalse
  · intro pre t name ptr post hat b hb
    obtain ⟨pre', ptr', post', hat'⟩ := hsim.slot_thread hm hat.oneSlot hpk hwaits
    obtain ⟨rfl, hsec, rfl⟩ := split_unique hat.pre hat.post (hat.code.symm.trans hat'.code)
    have htime : t = m.packet.time := congrArg Par.time hsec
    have habs : (a.proc p).blocks = blocks Store.writeBody (y p).code := by
      rw [(hsim p).code, Node.abs_eq_blocks ident _ hat.oneSlot.waiting]
    have hblocks : (a.proc p).blocks = pre.map (Par.block Store.writeBody) ++
        blocks Store.writeBody (⟨t, [.slotGet s name ptr]⟩ :: post) := by
      rw [habs, hat.code, blocks, List.map_append]
      rfl
    have hlt : b.time < m.packet.time := by
      have htimes := (hm.valid p).times
      rw [hblocks, List.map_append, List.pairwise_append] at htimes
      rw [← htime]
      exact htimes.2.2 b.time (List.mem_map.mpr ⟨b.block Store.writeBody,
        List.mem_map_of_mem hb, rfl⟩) t (by simp [blocks, Par.block])
    have hjobs := h.ahead ha m.packet hpk hwaits (b.block Store.writeBody) (by
      rw [hblocks]
      exact List.mem_append_left _ (List.mem_map_of_mem hb)) hlt
    exact List.map_eq_nil_iff.mp hjobs

end Chunk

/-! ## One chunk, looked at alone -/

section Plan

variable [DecidableEq P] [LinearOrder T]

/-- Peers with ids of their own run chunks with names and buffers of their own. `full` are the
programs of the chunks, `rest` what the runtime runs of them. -/
structure Plan (ident : P → Id) (own : J → Bytes → Bool) (len : J → Bytes → ℕ)
    (R W : J → P → Addr → Prop) (full rest : J → P → List (Par P T Store O))
    (mem : P → Memory.Mem) : Prop where
  ids : Function.Injective ident
  separated : Separated own R W
  locals : ∀ j p, Local (own j) (len j) (R j p) (W j p) (rest j p)
  chunk : ∀ j, Chunk (full j)
  begins : ∀ j, Begins (full j) (rest j) fun p => ⟨mem p, 0⟩

variable {ident : P → Id} {own : J → Bytes → Bool} {len : J → Bytes → ℕ}
  {R W : J → P → Addr → Prop} {full rest : J → P → List (Par P T Store O)} {mem : P → Memory.Mem}

theorem Plan.mem_full (h : Plan ident own len R W full rest mem) {j : J} {p : P}
    {b : Par P T Store O} (hb : b ∈ rest j p) : b ∈ full j p := by
  obtain ⟨t, f, hfull, -⟩ := h.begins j p
  rw [hfull]
  exact List.mem_cons_of_mem _ hb

theorem Plan.oneSlot (h : Plan ident own len R W full rest mem) (j : J) (p : P) :
    OneSlot (rest j p) := by
  obtain ⟨t, f, hfull, -⟩ := h.begins j p
  have hone := (h.chunk j).oneSlot p
  rw [hfull] at hone
  rcases hone.head with ⟨-, hrest⟩ | ⟨t', s, name, ptr, hb, -⟩
  · exact hrest
  · simp at hb

variable [DecidableEq J] [DecidableEq Id] [Fintype P]

namespace AsyncState

variable {s : AsyncState J P Id T O} {order : List J}

omit [Fintype P] in
theorem Reach.planned (h : Reach ident rest mem order s)
    (hplan : Plan ident own len R W full rest mem) (hall : ∀ j, j ∈ order)
    (hnodup : order.Nodup) : Inv ident own R rest mem s :=
  h.inv hplan.separated hplan.locals hall hnodup fun j p b hb =>
    (hplan.chunk j).proper p b (hplan.mem_full hb)

/-- Chunk `j` alone: the peers `x` that run nothing else, `y` when they post late, and the network
`a` that these stand for. -/
structure Alone (ident : P → Id) (own : J → Bytes → Bool) (len : J → Bytes → ℕ)
    (R W : J → P → Addr → Prop) (full : J → P → List (Par P T Store O)) (mem : P → Memory.Mem)
    (s : AsyncState J P Id T O) (j : J) (x y : Cluster P Id T Store O)
    (a : State P T Key Bytes Store O) : Prop where
  view : Projects own R s.peer j x
  locals : ∀ p, Local (own j) (len j) (R j p) (W j p) ((s.peer p).code j)
  early : ∀ p, Early ident Store.writeBody (x p) (y p)
  attends : ∀ p, Attends (y p)
  reach : BlockNet.Reach (fun p => blocks Store.writeBody (full j p)) (fun p => ⟨mem p, 0⟩) a
  sim : Sim ident Store.writeBody y a
  matched : Matched a

omit [DecidableEq J] in
theorem Inv.alone (h : Inv ident own R rest mem s) (hplan : Plan ident own len R W full rest mem)
    (j : J) : ∃ x y a, Alone ident own len R W full mem s j x y a := by
  obtain ⟨x, hx, hview⟩ := h.tasks.alone j
  have hat : ∀ y : Cluster P Id T Store O,
      CReach ident Store.writeBody (rest j) (fun p => ⟨mem p, 0⟩) y → ∀ p, Attends (y p) :=
    fun y hy => (hplan.chunk j).attends hplan.ids ((hplan.begins j).reach hy)
  obtain ⟨y, hy, hearly⟩ := hx.late hplan.ids (hplan.oneSlot j) hat
  obtain ⟨a, ha, hsim⟩ := (hplan.chunk j).simulate hplan.ids ((hplan.begins j).reach hy)
  refine ⟨x, y, a, hview, ?_, hearly, hat y hy, ha, hsim, (hplan.chunk j).compat.matched_reach ha⟩
  intro p
  have hl := (hx.local (hplan.locals j) p).1
  obtain ⟨τ, -, hxp⟩ := hview p
  rw [hxp] at hl
  exact hl

section Alone

variable {j : J} {x y : Cluster P Id T Store O} {a : State P T Key Bytes Store O}
  (h : Alone ident own len R W full mem s j x y a) {p q : P} {name : Bytes} {id : Id}
include h

omit [DecidableEq J] [Fintype P]

theorem Alone.code (p : P) : (x p).code = (s.peer p).code j := by
  obtain ⟨τ, -, hxp⟩ := h.view p
  rw [hxp]
  rfl

theorem Alone.handler_idle (hh : (s.peer p).rest.handler q = .idle) :
    (x p).handler q = .idle := by
  obtain ⟨τ, -, hxp⟩ := h.view p
  rw [hxp, Node.handler_only, show ((s.peer p).view j).handler q = _ from hh, Handler.only_idle]

theorem Alone.handler_eq (hname : ((s.peer p).rest.handler q).name? = some name)
    (hown : own j name = true) : (x p).handler q = (s.peer p).rest.handler q := by
  obtain ⟨τ, -, hxp⟩ := h.view p
  rw [hxp, Node.handler_only]
  exact Handler.only_own hname hown

theorem Alone.conn_nil (hc : (s.peer p).rest.conn q = []) : (x p).conn q = [] := by
  obtain ⟨τ, -, hxp⟩ := h.view p
  rw [hxp]
  change ((s.peer p).rest.conn q).filter _ = []
  rw [hc, List.filter_nil]

theorem Alone.mailbox (hown : own j name = true) :
    (x p).mailbox id name = (s.peer p).rest.mailbox id name := by
  obtain ⟨τ, -, hxp⟩ := h.view p
  rw [hxp]
  exact onlyBox_own hown

theorem Alone.waitQ (hown : own j name = true) :
    (x p).waitQ id name = (s.peer p).rest.waitQ id name := by
  obtain ⟨τ, -, hxp⟩ := h.view p
  rw [hxp]
  exact onlyBox_own hown

theorem Alone.recvQ (hown : own j name = true) :
    (x p).recvQ id name = (s.peer p).rest.recvQ id name := by
  obtain ⟨τ, -, hxp⟩ := h.view p
  rw [hxp]
  exact onlyBox_own hown

theorem Alone.own_of_mem {b : Par P T Store O} (hb : b ∈ (s.peer p).code j) {src : P} {ptr : Addr}
    (hth : .slotGet src name ptr ∈ b.threads ∨ .slotWait src name ptr ∈ b.threads) :
    own j name = true := by
  rcases hth with hth | hth
  · exact (h.locals p b hb _ hth).1
  · exact (h.locals p b hb _ hth).1

theorem Alone.code_nil_iff (p : P) : (y p).code = [] ↔ (s.peer p).code j = [] := by
  rw [← h.code p]
  rcases (h.early p).code_cases with heq | ⟨pre, t, src, name, ptr, post, hslot, hx⟩
  · rw [heq]
  · rw [hx, hslot.code]
    simp

/-- The sections that are left are those of the network. -/
theorem Alone.blocks (p : P) :
    (a.proc p).blocks = StdmlCollective.blocks Store.writeBody (y p).code := by
  rw [(h.sim p).code, Node.abs_eq_blocks ident _ (h.early p).oneSlot.waiting]

end Alone

/-! ### Chunks that are through -/

omit [DecidableEq J] in
/-- **A chunk that is through has left the memory as it would alone**: what the programs of the
chunk promise for their end holds of what it uses. -/
theorem Inv.chunk_post (h : Inv ident own R rest mem s)
    (hplan : Plan ident own len R W full rest mem) {j : J} {C : Contract P T Key Bytes O}
    {Q : P → Store → Prop}
    (hgood : ∀ p, Good C p (Q p) (blocks Store.writeBody (full j p)) ⟨mem p, 0⟩) {p : P}
    (hcode : (s.peer p).code j = []) :
    ∃ τ, Q p τ ∧ ∀ a, R j p a → τ.mem a = (s.peer p).rest.store.mem a := by
  obtain ⟨x, y, a, hal⟩ := h.alone hplan j
  obtain ⟨τ, hagree, hx⟩ := hal.view p
  refine ⟨τ, ?_, hagree.mem⟩
  have hnil : (x p).code = [] := (hal.code p).trans hcode
  have hstore : (y p).store = τ := by
    rcases (hal.early p).code_cases with heq | ⟨pre, t, src, name, ptr, post, -, hc⟩
    · rw [← heq, hx]
      rfl
    · rw [hnil] at hc
      simp at hc
  have hblocks : (a.proc p).blocks = [] := by
    rw [hal.blocks p, (hal.code_nil_iff p).mpr hcode]
    rfl
  have hpost := ((Kept.reach hgood hal.reach).good p).post hblocks
  rwa [(hal.sim p).store, hstore] at hpost

/-! ### States in which nothing can be done -/

section Stuck

variable (h : Inv ident own R rest mem s) (hplan : Plan ident own len R W full rest mem)
  (hstuck : ∀ s', ¬Step ident s s')
include h hplan hstuck

/-- All tasks have been built. -/
theorem Inv.build_nil (p : P) : s.build p = [] := by
  cases hbuild : s.build p with
  | nil => rfl
  | cons j l =>
      exfalso
      by_cases hposted : Posted ((s.peer p).code j)
      · exact hstuck _ (.built hbuild hposted)
      unfold Posted at hposted
      push Not at hposted
      obtain ⟨b, hb, th, hth, src, name, ptr, rfl⟩ := hposted
      obtain ⟨x, y, a, hal⟩ := h.alone hplan j
      have hsingle : b = ⟨b.time, [.slotGet src name ptr]⟩ := by
        have hlen := ((h.peer p).proper j b hb).kind.resolve_left fun htasks =>
          absurd (htasks _ hth) (by simp [Thread.peer?])
        obtain ⟨t, ths⟩ := b
        obtain ⟨th', rfl⟩ : ∃ th', ths = [th'] := by
          rw [← List.length_eq_one_iff]
          have hpos := List.length_pos_of_mem hth
          simp only at hlen hpos
          omega
        rw [List.mem_singleton.mp hth]
      obtain ⟨pre, post, hc⟩ := List.append_of_mem hb
      rw [hsingle] at hc
      have hwait : (s.peer p).rest.waitQ (ident src) name = [] := by
        rw [← hal.waitQ (hal.own_of_mem hb (.inl hth))]
        rw [← hal.code p] at hb
        rw [(hal.early p).eq_of_slotGet hb hth]
        exact (hal.early p).quiet.waitQ _ _
      have hpost : Post ident ((s.peer p).view j) _ :=
        .mk hc (by rw [show ((s.peer p).view j).waitQ _ _ = _ from hwait]; exact Nat.one_pos)
      exact hstuck _ (.post hbuild hpost)

omit [LinearOrder T] [Fintype P] h hplan in
/-- No handler can take a step. -/
theorem no_handler {p : P} (j : J) {z : Node P Id T Store O}
    (hs : NStep ident Store.writeBody p ((s.peer p).view j) .tau z)
    (hcode : (s.peer p).code j = z.code) : False :=
  hstuck _ (.run (.tau (.inr hcode) hs))

variable {j : J} {x y : Cluster P Id T Store O} {a : State P T Key Bytes Store O}
  (hal : Alone ident own len R W full mem s j x y a) {p q : P} {m : Message P T}
  (hown : own j m.name = true)
include hal hown

omit [Fintype P] h in
/-- The packets on their way have keys of their own, so there is room in the mailbox. -/
theorem not_mail (hh : (s.peer p).rest.handler q = .mail m) : False := by
  have hx := hal.handler_eq (p := p) (q := q) (by rw [hh]; rfl) hown
  have hy := (hal.early p).handler_of (hx.trans hh) (by simp) rfl
  have hkeys : ((a.link q p).map fun pk => pk.tag.2).Nodup := by
    have hall := ((hplan.chunk j).keys q p).sublist
      (((hal.reach.remains p).recvs_sublist q).map Prod.snd)
    rw [← hal.matched.tags q p, List.map_append] at hall
    have hlink := (List.nodup_append.mp hall).1
    rwa [List.map_map] at hlink
  have hfree := (hal.sim p).mailbox_free hplan.ids hy hkeys
  rw [← (hal.early p).mailbox, hal.mailbox hown] at hfree
  exact no_handler hstuck j (.mailPut (x := (s.peer p).view j) hh (by
    rw [show ((s.peer p).view j).mailbox _ _ = _ from hfree]
    exact Nat.one_pos)) rfl

/-- The pointer has been posted, and a handler with a message for it takes it. -/
theorem Inv.not_slot (hh : (s.peer p).rest.handler q = .slot m) : False := by
  have hx := (hal.handler_eq (p := p) (q := q) (by rw [hh]; rfl) hown).trans hh
  have hy := (hal.early p).handler_of hx (by simp) rfl
  obtain ⟨hpk, hwaits⟩ := (hal.sim p).slot_recv hy
  obtain ⟨pre, ptr, post, hat⟩ := hal.sim.slot_thread hal.matched (hal.early p).oneSlot hpk hwaits
  have hposted : Posted (x p).code := by
    rw [hal.code p]
    apply (h.peer p).posted j
    rw [h.build_nil hplan hstuck p]
    exact List.not_mem_nil
  have hwait : (x p).waitQ (ident q) m.name = [ptr] := by
    have hearly := hal.early p
    generalize x p = xp at hearly hx hposted
    cases hearly with
    | same =>
        refine absurd rfl (hposted ⟨m.packet.time, [.slotGet q m.packet.key.1 ptr]⟩ ?_
          (.slotGet q m.packet.key.1 ptr) (List.mem_singleton_self _) _ _ _)
        rw [hat.code]
        simp
    | posted hq hslot =>
        obtain ⟨-, hsec, -⟩ := split_unique hslot.pre hslot.post (hslot.code.symm.trans hat.code)
        simp only [Par.mk.injEq, List.cons.injEq, Thread.slotGet.injEq, and_true] at hsec
        obtain ⟨-, rfl, rfl, rfl⟩ := hsec
        exact setBox_self _ _ _ _
    | taken hq hslot hm | written hq hslot hm | stored hq hslot hm =>
        obtain ⟨-, hsec, -⟩ := split_unique hslot.pre hslot.post (hslot.code.symm.trans hat.code)
        simp only [Par.mk.injEq, List.cons.injEq, Thread.slotGet.injEq, and_true] at hsec
        obtain ⟨-, rfl, -, -⟩ := hsec
        simp at hx
  rw [hal.waitQ hown] at hwait
  exact no_handler hstuck j (.slotTake (x := (s.peer p).view j) hh hwait) rfl

omit [Fintype P] h hplan in
/-- A handler that has written a buffer can say so. -/
theorem not_done {ptr : Addr} (hh : (s.peer p).rest.handler q = .done m ptr) : False := by
  have hx := (hal.handler_eq (p := p) (q := q) (by rw [hh]; rfl) hown).trans hh
  have hfree : (x p).recvQ (ident q) m.name = [] := by
    have hearly := hal.early p
    have hquiet := hearly.quiet
    generalize x p = xp at hearly hx
    cases hearly with
    | same | posted | taken | written => exact hquiet.recvQ _ _
    | @stored _ pre post t src ptr' m' hq hslot hm =>
        have hx' : Function.update (y p).handler src .idle q = .done m ptr := hx
        by_cases hs : q = src
        · subst hs
          rw [Function.update_self] at hx'
          cases hx'
        · rw [Function.update_of_ne hs] at hx'
          exact (hquiet.not_busy hx' rfl).elim
  rw [hal.recvQ hown] at hfree
  exact no_handler hstuck j (.slotPut (x := (s.peer p).view j) hh (by
    rw [show ((s.peer p).view j).recvQ _ _ = _ from hfree]
    exact Nat.one_pos)) rfl

omit hal hown

/-- No handler has anything to do. -/
theorem Inv.handler_idle (p q : P) : (s.peer p).rest.handler q = .idle := by
  have howner : ∀ {m : Message P T}, ((s.peer p).rest.handler q).name? = some m.name →
      ∃ j x y a, Alone ident own len R W full mem s j x y a ∧ own j m.name = true := by
    intro m hm
    obtain ⟨j, hown⟩ := (h.tasks.owned p).handler q m.name hm
    obtain ⟨x, y, a, hal⟩ := h.alone hplan j
    exact ⟨j, x, y, a, hal, hown⟩
  cases hh : (s.peer p).rest.handler q with
  | idle => rfl
  | mail m =>
      obtain ⟨j, x, y, a, hal, hown⟩ := howner (m := m) (by rw [hh]; rfl)
      exact (not_mail hplan hstuck hal hown hh).elim
  | slot m =>
      obtain ⟨j, x, y, a, hal, hown⟩ := howner (m := m) (by rw [hh]; rfl)
      exact (h.not_slot hplan hstuck hal hown hh).elim
  | write m ptr =>
      obtain ⟨j, -⟩ := howner (m := m) (by rw [hh]; rfl)
      exact (no_handler hstuck j (.body (x := (s.peer p).view j) hh) rfl).elim
  | done m ptr =>
      obtain ⟨j, x, y, a, hal, hown⟩ := howner (m := m) (by rw [hh]; rfl)
      exact (not_done hstuck hal hown hh).elim

/-- Nothing is on its way. -/
theorem Inv.conn_nil (p q : P) : (s.peer p).rest.conn q = [] := by
  cases hc : (s.peer p).rest.conn q with
  | nil => rfl
  | cons m ms =>
      obtain ⟨j, -⟩ := (h.tasks.owned p).conn q m (by rw [hc]; exact List.mem_cons_self)
      exact (no_handler hstuck j (.header (x := (s.peer p).view j)
        (h.handler_idle hplan hstuck p q) hc) rfl).elim

/-- The pools: nobody is through, and what waits finds no thread. -/
theorem Inv.pool_full (p : P) : (s.pool p).pending = [] ∧
    ((s.pool p).queue ≠ [] → runtimeSize ≤ (s.pool p).running.length) ∧
    ∀ w ∈ (s.pool p).running, ¬Through (s.peer p).code w :=
  Pool.full_of_no_step fun _ hq => hstuck _ (.pool (h.build_nil hplan hstuck p) hq)

omit [LinearOrder T] [Fintype P] h hplan in
/-- No thread that is at work can take a step. -/
theorem no_thread {p : P} {j : J} {e : Event P T} {z : Node P Id T Store O} {w : Work J P}
    (hs : NStep ident Store.writeBody p ((s.peer p).view j) e z) (hw : w ∈ (s.pool p).running)
    (ha : Advance j ((s.peer p).code j) z.code w) (hnone : w = .chunk j → s.adding p j = none)
    (hl : ∀ qs u, e ≠ .launch qs u) : False := by
  have hmay : s.May p j z.code := ⟨w, hw, ha, hnone⟩
  obtain ⟨x', hx'⟩ := TStep.of_node hmay hs hl
  exact hstuck _ (.run hx')

/-- **A task that is at work** receives, and there is nothing to receive. -/
theorem Inv.task_waits {p q : P} {j : J} (hw : .task j q ∈ (s.pool p).running) :
    ∃ t l₁ name add l₂ bs, (s.peer p).code j = ⟨t, l₁ ++ .mailGet q name add :: l₂⟩ :: bs ∧
      (s.peer p).rest.mailbox (ident q) name = [] := by
  have hnot := (h.pool_full hplan hstuck p).2.2 _ hw
  simp only [Through] at hnot
  push Not at hnot
  obtain ⟨⟨t, ths⟩, bs, hc, hq⟩ := hnot
  obtain ⟨th, hth, hpeer⟩ := List.mem_filterMap.mp hq
  obtain ⟨l₁, l₂, rfl⟩ := List.append_of_mem hth
  have hwork : th.work j = .task j q := by simp [Thread.work, hpeer]
  rw [← hwork] at hw
  have hleave : Advance j ((s.peer p).code j) (⟨t, l₁ ++ l₂⟩ :: bs) (th.work j) := by
    rw [hc]
    exact .leave
  have hnone : th.work j = .chunk j → s.adding p j = none := by
    rw [hwork]
    exact fun heq => nomatch heq
  cases th with
  | send id name flags data =>
      exact (no_thread hstuck (.send (x := (s.peer p).view j) hc) hw hleave hnone
        fun _ _ hl => nomatch hl).elim
  | mailGot id name add m =>
      exact (no_thread hstuck (.mailGot (x := (s.peer p).view j) hc) hw hleave hnone
        fun _ _ hl => nomatch hl).elim
  | mailGet id name add =>
      obtain rfl : id = q := Option.some.inj hpeer
      refine ⟨t, l₁, name, add, l₂, bs, hc, ?_⟩
      cases hbox : (s.peer p).rest.mailbox (ident id) name with
      | nil => rfl
      | cons m ms =>
          have hgot : Advance j ((s.peer p).code j)
              (⟨t, l₁ ++ .mailGot id name add m :: l₂⟩ :: bs) (.task j id) := by
            rw [hc]
            exact .got
          exact (no_thread hstuck (.mailGet (x := (s.peer p).view j) hc hbox) (hwork ▸ hw) hgot
            (fun heq => nomatch heq) fun _ _ hl => nomatch hl).elim
  | slotGet _ _ _ | slotWait _ _ _ | act _ | ret _ _ | launch _ _ | throws => cases hpeer

/-- **The thread of a chunk** waits for a buffer, or for the tasks of a section. -/
theorem Inv.chunk_waits {p : P} {j : J} (hw : .chunk j ∈ (s.pool p).running) :
    (∃ t src name ptr bs, (s.peer p).code j = ⟨t, [.slotWait src name ptr]⟩ :: bs ∧
      ∀ l, (s.peer p).rest.recvQ (ident src) name ≠ ptr :: l) ∨
    (s.adding p j = some [] ∧ ∃ q, .task j q ∈ (s.pool p).running ++ (s.pool p).queue) := by
  obtain ⟨⟨t, ths⟩, bs, hc⟩ : ∃ b bs, (s.peer p).code j = b :: bs :=
    List.exists_cons_of_ne_nil ((h.pool_full hplan hstuck p).2.2 _ hw)
  cases hadd : s.adding p j with
  | some l =>
      right
      cases l with
      | cons q l => exact (hstuck _ (.add hadd)).elim
      | nil =>
          refine ⟨rfl, ?_⟩
          by_contra hno
          exact hstuck _ (.wait hadd (not_exists.mp hno))
  | none =>
      left
      have hb : (⟨t, ths⟩ : Par P T Store O) ∈ (s.peer p).code j := by
        rw [hc]
        exact List.mem_cons_self
      have hne : ths ≠ [] := by
        rintro rfl
        have hjoin : Advance j ((s.peer p).code j) bs (.chunk j) := by
          rw [hc]
          exact .join
        exact no_thread hstuck (.join (x := (s.peer p).view j) hc) hw hjoin (fun _ => hadd)
          fun _ _ hl => nomatch hl
      have htasks : ¬(⟨t, ths⟩ : Par P T Store O).Tasks :=
        fun htasks => hstuck _ (.fork hw hadd hc hne htasks)
      obtain ⟨th, rfl⟩ : ∃ th, ths = [th] := by
        have hlen := ((h.peer p).proper j _ hb).kind.resolve_left htasks
        have hpos := List.length_pos_iff.mpr hne
        rw [← List.length_eq_one_iff]
        simp only at hlen
        omega
      have hpeer : th.peer? = none := by
        by_contra hsome
        refine htasks fun th' hth' => ?_
        rw [List.mem_singleton.mp hth']
        exact Option.isSome_iff_ne_none.mpr hsome
      have hc' : (s.peer p).code j = ⟨t, [] ++ th :: []⟩ :: bs := hc
      have hwork : th.work j = .chunk j := by simp [Thread.work, hpeer]
      have hleave : Advance j ((s.peer p).code j) (⟨t, [] ++ []⟩ :: bs) (.chunk j) := by
        rw [← hwork, hc']
        exact .leave
      obtain ⟨x, y, a, hal⟩ := h.alone hplan j
      have hlocal := hal.locals p _ hb th (List.mem_singleton_self th)
      cases th with
      | slotWait src name ptr =>
          refine ⟨t, src, name, ptr, bs, hc, fun l hl => ?_⟩
          exact no_thread hstuck (.slotWait (x := (s.peer p).view j) hc' hl) hw hleave
            (fun _ => hadd) fun _ _ hl => nomatch hl
      | act f =>
          exact (no_thread hstuck (.act (x := (s.peer p).view j) hc') hw hleave (fun _ => hadd)
            fun _ _ hl => nomatch hl).elim
      | slotGet src name ptr =>
          have hposted := (h.peer p).posted j (by
            rw [h.build_nil hplan hstuck p]
            exact List.not_mem_nil)
          exact absurd rfl (hposted _ hb _ (List.mem_singleton_self _) src name ptr)
      | ret _ _ | launch _ _ | throws => exact hlocal.elim
      | send _ _ _ _ | mailGet _ _ _ | mailGot _ _ _ _ => cases hpeer

section Waits

variable {t : T} {bs : List (Par P T Store O)}
include hal

omit [DecidableEq J] [Fintype P] h hplan hstuck in
/-- A section before the one that receives into a buffer is the same for both peers. -/
theorem Alone.head_code {b : Par P T Store O} (hc : (s.peer p).code j = b :: bs)
    (hb : ∀ src name ptr, .slotWait src name ptr ∉ b.threads) : ∃ bs', (y p).code = b :: bs' := by
  rw [← hal.code p] at hc
  rcases (hal.early p).code_cases with heq | ⟨pre, t', src, name, ptr, post, hslot, hx⟩
  · exact ⟨bs, by rw [← heq, hc]⟩
  · rw [hx] at hc
    cases pre with
    | nil =>
        obtain ⟨rfl, -⟩ := List.cons.inj hc
        exact absurd (List.mem_singleton_self _) (hb src name ptr)
    | cons b' pre =>
        obtain ⟨rfl, -⟩ := List.cons.inj hc
        exact ⟨_, hslot.code⟩

/-- A task that receives, and has nothing in its mailbox: nothing has been sent to it. -/
theorem Inv.link_nil_of_mailGet {name : Bytes} {add : Bytes → Store → Store}
    {l₁ l₂ : List (Thread P T Store O)}
    (hc : (s.peer p).code j = ⟨t, l₁ ++ .mailGet q name add :: l₂⟩ :: bs)
    (hb : ∀ src nm ptr, .slotWait src nm ptr ∉ l₁ ++ .mailGet q name add :: l₂)
    (hbox : (s.peer p).rest.mailbox (ident q) name = []) :
    a.link q p = [] ∧ (t, (name, false)) ∈ recvs (a.proc p).blocks q := by
  obtain ⟨bs', hy⟩ := hal.head_code hc hb
  have hown : own j name = true := by
    have hth := hal.locals p ⟨t, l₁ ++ .mailGet q name add :: l₂⟩
      (by rw [hc]; exact List.mem_cons_self) (.mailGet q name add) (by simp)
    exact hth.1
  have hconn : (y p).conn q = [] := by
    rw [← (hal.early p).conn]
    exact hal.conn_nil (h.conn_nil hplan hstuck p q)
  -- the handler has no message for a buffer either, for the chunk is not there yet
  have hheld : ((y p).handler q).held = [] := by
    have hidle := hal.handler_idle (h.handler_idle hplan hstuck p q)
    rcases (hal.early p).handler q with heq | ⟨m, hm, -⟩
    · rw [← heq, hidle, Handler.held_idle]
    · obtain ⟨hpk, hwaits⟩ := (hal.sim p).slot_recv hm
      obtain ⟨pre, ptr, post, hat⟩ :=
        hal.sim.slot_thread hal.matched (hal.early p).oneSlot hpk hwaits
      have hempty := (hal.attends p q m hm).2 hat
      have hcode := hat.code
      rw [hy] at hcode
      cases pre with
      | nil =>
          obtain ⟨hsec, -⟩ := List.cons.inj hcode
          have hlen := congrArg (fun b => b.peers.length) hsec
          simp [Par.peers, Thread.peer?, List.filterMap_cons] at hlen
      | cons b pre =>
          obtain ⟨hsec, -⟩ := List.cons.inj hcode
          have hnil := hempty b List.mem_cons_self
          rw [← hsec] at hnil
          simp at hnil
  have htag : (t, (name, false)) ∈ recvs (a.proc p).blocks q := by
    rw [hal.blocks p, hy, blocks, List.map_cons, recvs_cons]
    refine List.mem_append_left _ (List.mem_map.mpr ⟨(name, false), ?_, rfl⟩)
    exact List.mem_filterMap.mpr ⟨_, List.mem_map_of_mem (List.mem_append_right _
      List.mem_cons_self), by simp [Thread.job, Job.recvKey]⟩
  refine ⟨?_, htag⟩
  obtain ⟨ms, hms, hbox'⟩ := (hal.sim p).link_of_idle hy rfl rfl hheld hconn
  cases ms with
  | nil => exact hms
  | cons m ms =>
      have hblocks : (a.proc p).blocks = ⟨t, l₁.map (Thread.job Store.writeBody t) ++
          .recv q (name, false) add :: l₂.map (Thread.job Store.writeBody t)⟩ ::
            StdmlCollective.blocks Store.writeBody bs' := by
        rw [hal.blocks p, hy, blocks, List.map_cons, Par.block, List.map_append, List.map_cons]
        rfl
      have hhead := hal.matched.head_tag hblocks hms
      rw [Message.tag_packet, Prod.mk.injEq, Prod.mk.injEq] at hhead
      have hmem := (hbox' m List.mem_cons_self).2
      rw [hhead.2.1, ← (hal.early p).mailbox, hal.mailbox hown, hbox] at hmem
      exact absurd hmem List.not_mem_nil

omit [DecidableEq P] [LinearOrder T] [Fintype P] h hplan hstuck hal in
/-- A section that receives into a buffer does not receive anything else. -/
theorem not_slotWait {b : Par P T Store O} (hb : b.Proper) {name : Bytes}
    {add : Bytes → Store → Store} (hth : .mailGet q name add ∈ b.threads) (src : P) (nm : Bytes)
    (ptr : Addr) : .slotWait src nm ptr ∉ b.threads := by
  intro hmem
  rcases hb.kind with htasks | hlen
  · exact absurd (htasks _ hmem) (by simp [Thread.peer?])
  · obtain ⟨t, ths⟩ := b
    obtain ⟨th, rfl⟩ : ∃ th, ths = [th] := by
      rw [← List.length_eq_one_iff]
      have hpos := List.length_pos_of_mem hth
      simp only at hlen hpos
      omega
    have heq := (List.mem_singleton.mp hth).trans (List.mem_singleton.mp hmem).symm
    cases heq

/-- The thread of a chunk that waits for a buffer: nothing has been sent to it. -/
theorem Inv.link_nil_of_slotWait {src : P} {name : Bytes} {ptr : Addr}
    (hc : (s.peer p).code j = ⟨t, [.slotWait src name ptr]⟩ :: bs)
    (hq : ∀ l, (s.peer p).rest.recvQ (ident src) name ≠ ptr :: l) :
    a.link src p = [] ∧ (y p).code = ⟨t, [.slotGet src name ptr]⟩ :: bs := by
  have hown : own j name = true :=
    hal.own_of_mem (b := ⟨t, [.slotWait src name ptr]⟩) (by rw [hc]; exact List.mem_cons_self)
      (.inr (List.mem_singleton_self _))
  have hidle := hal.handler_idle (h.handler_idle hplan hstuck p src)
  have hxq : (x p).recvQ (ident src) name = _ := hal.recvQ hown
  have hxc := (hal.code p).trans hc
  have hearly := hal.early p
  have hconn : (y p).conn src = [] := by
    rw [← hearly.conn]
    exact hal.conn_nil (h.conn_nil hplan hstuck p src)
  -- the section is the one that receives into a buffer
  have hhead : ∀ {pre post : List (Par P T Store O)} {t' : T} {s' : P} {n' : Bytes} {ptr' : Addr},
      SlotAt (y p).code pre t' s' n' ptr' post →
      pre ++ ⟨t', [.slotWait s' n' ptr']⟩ :: post = ⟨t, [.slotWait src name ptr]⟩ :: bs →
      pre = [] ∧ t = t' ∧ src = s' ∧ name = n' ∧ ptr = ptr' ∧ bs = post := by
    intro pre post t' s' n' ptr' hslot heq
    cases pre with
    | nil => simpa [and_assoc] using heq.symm
    | cons b pre =>
        obtain ⟨rfl, -⟩ := List.cons.inj heq
        exact (hslot.pre.not_mem List.mem_cons_self (List.mem_singleton_self _) rfl).elim
  generalize x p = xp at hidle hxq hxc hearly
  cases hearly with
  | same hquiet hone =>
      have hw := hone.waiting
      rw [Node.waiting, Node.threads_eq hxc] at hw
      simp [Thread.slot?] at hw
  | taken _ hslot hm | written _ hslot hm =>
      obtain ⟨rfl, rfl, rfl, rfl, rfl, rfl⟩ := hhead hslot hxc
      simp at hidle
  | stored hquiet hslot hm =>
      obtain ⟨rfl, rfl, rfl, rfl, rfl, rfl⟩ := hhead hslot hxc
      simp only [setBox_self] at hxq
      exact absurd hxq.symm (hq [])
  | posted hquiet hslot =>
      obtain ⟨rfl, rfl, rfl, rfl, rfl, rfl⟩ := hhead hslot hxc
      have hy : (y p).code = ⟨t, [] ++ .slotGet src name ptr :: []⟩ :: bs := hslot.code
      refine ⟨?_, hy⟩
      have hheld : ((y p).handler src).held = [] := by
        rw [show (y p).handler src = .idle from hidle, Handler.held_idle]
      obtain ⟨ms, hms, hbox⟩ := (hal.sim p).link_of_idle hy rfl rfl hheld hconn
      cases ms with
      | nil => exact hms
      | cons m ms =>
          have hblocks : (a.proc p).blocks = ⟨t, [] ++
              .recv src (name, true) (Store.writeBody ptr) :: []⟩ ::
                StdmlCollective.blocks Store.writeBody bs := by
            rw [hal.blocks p, hy]
            rfl
          have htag := hal.matched.head_tag hblocks hms
          rw [Message.tag_packet, (hbox m List.mem_cons_self).1] at htag
          simp at htag

end Waits

/-- A task that is at work receives from its peer, and nothing is on its way from there. -/
theorem Inv.task_tag {j : J} {p q : P} {x y : Cluster P Id T Store O}
    {a : State P T Key Bytes Store O} (hal : Alone ident own len R W full mem s j x y a)
    (hw : .task j q ∈ (s.pool p).running) :
    a.link q p = [] ∧ ∃ t name, (t, (name, false)) ∈ recvs (a.proc p).blocks q := by
  obtain ⟨t, l₁, name, add, l₂, bs, hc, hbox⟩ := h.task_waits hplan hstuck hw
  have hb : (⟨t, l₁ ++ .mailGet q name add :: l₂⟩ : Par P T Store O) ∈ (s.peer p).code j := by
    rw [hc]
    exact List.mem_cons_self
  obtain ⟨hlink, htag⟩ := h.link_nil_of_mailGet hplan hstuck hal hc
    (not_slotWait ((h.peer p).proper j _ hb) (List.mem_append_right _ List.mem_cons_self)) hbox
  exact ⟨hlink, t, name, htag⟩

/-- **A peer whose pool holds nothing back has sent** what a task elsewhere would wait for, when
the chunk is past its own tasks there. -/
theorem Inv.not_task_of_free {j : J} {q : P} (hqueue : (s.pool q).queue = [])
    (hfree : ∀ q', .task j q' ∉ (s.pool q).running) (p : P) :
    .task j q ∉ (s.pool p).running := by
  intro hw
  obtain ⟨x, y, a, hal⟩ := h.alone hplan j
  obtain ⟨hlink, t, name, htag⟩ := h.task_tag hplan hstuck hal hw
  -- so `q` has still to send
  rw [← hal.matched.tags q p, hlink, List.map_nil, List.nil_append] at htag
  have hcode : (s.peer q).code j ≠ [] := by
    intro hnil
    rw [hal.blocks q, (hal.code_nil_iff q).mpr hnil] at htag
    exact List.not_mem_nil htag
  have hpend := (h.pool_full hplan hstuck q).1
  have hchunk := ((h.peer q).todo j).resolve_right hcode
  rw [hqueue, hpend, List.append_nil, List.append_nil] at hchunk
  rcases h.chunk_waits hplan hstuck hchunk with ⟨t', src, nm, ptr, bs', hcq, hrecv⟩ | ⟨-, q', hq'⟩
  · obtain ⟨-, hy⟩ := h.link_nil_of_slotWait hplan hstuck hal hcq hrecv
    have hblocks : (a.proc q).blocks = ⟨t', [.recv src (nm, true) (Store.writeBody ptr)]⟩ ::
        StdmlCollective.blocks Store.writeBody bs' := by
      rw [hal.blocks q, hy]
      rfl
    have hslot : (t', (nm, true)) ∈ recvs (a.proc q).blocks src := by
      rw [hblocks, recvs_cons]
      refine List.mem_append_left _ (List.mem_map.mpr ⟨(nm, true), ?_, rfl⟩)
      simp [Job.recvKey]
    have hlt := (hplan.chunk j).before (((hal.reach.remains q).recvs_sublist src).subset hslot)
      (((hal.reach.remains q).sends_sublist p).subset htag)
    obtain ⟨b, hbq, rfl, -⟩ := time_of_mem_sends htag
    have hv := hal.matched.valid q
    rw [hblocks] at hv hbq
    exact absurd (hv.head_le hbq) (not_le.mpr hlt)
  · rw [hqueue, List.append_nil] at hq'
    exact hfree q' hq'

/-- A task that is at work is one of the program, and receives. -/
theorem Inv.task_recvs {j : J} {p q : P} (hw : .task j q ∈ (s.pool p).running) :
    ∃ t name, (t, (name, false)) ∈ recvs (blocks Store.writeBody (full j p)) q := by
  obtain ⟨x, y, a, hal⟩ := h.alone hplan j
  obtain ⟨-, t, name, htag⟩ := h.task_tag hplan hstuck hal hw
  exact ⟨t, name, ((hal.reach.remains p).recvs_sublist q).subset htag⟩

/-- The chunk that a piece of work is part of: on the left the chunks themselves, on the right their
tasks. -/
def Work.side {J P : Type} : Work J P → J ⊕ J
  | .chunk j => .inl j
  | .task j _ => .inr j

/-- **A pool holds nothing back** when there are few chunks, of which few have a task at work. -/
theorem Inv.queue_nil_of_few [Fintype J] {p : P} (A : Finset J)
    (hmem : ∀ j q, .task j q ∈ (s.pool p).running → j ∈ A)
    (huniq : ∀ j q q', .task j q ∈ (s.pool p).running → .task j q' ∈ (s.pool p).running → q = q')
    (hlt : Fintype.card J + A.card < runtimeSize) : (s.pool p).queue = [] := by
  classical
  by_contra hne
  have hfull := (h.pool_full hplan hstuck p).2.1 hne
  have hnodup : ((s.pool p).running.map Work.side).Nodup := by
    have hrun : (s.pool p).running.Nodup := by
      have hall := (h.peer p).nodup
      rw [List.append_assoc] at hall
      exact (List.nodup_append.mp hall).1
    refine hrun.map_on ?_
    intro w hw w' hw' heq
    cases w with
    | chunk j =>
        cases w' with
        | chunk j' => rw [Sum.inl.inj heq]
        | task j' q' => cases heq
    | task j q =>
        cases w' with
        | chunk j' => cases heq
        | task j' q' =>
            obtain rfl : j = j' := Sum.inr.inj heq
            rw [huniq j q q' hw hw']
  have hsub : ((s.pool p).running.map Work.side).toFinset ⊆ Finset.univ.disjSum A := by
    intro w hw
    rw [List.mem_toFinset, List.mem_map] at hw
    obtain ⟨w', hw', rfl⟩ := hw
    cases w' with
    | chunk j => exact Finset.inl_mem_disjSum.mpr (Finset.mem_univ j)
    | task j q => exact Finset.inr_mem_disjSum.mpr (hmem j q hw')
  have hcard := Finset.card_le_card hsub
  rw [List.toFinset_card_of_nodup hnodup, List.length_map, Finset.card_disjSum,
    Finset.card_univ] at hcard
  omega

/-- A chunk that no pool holds back can go on somewhere, unless it is through. -/
theorem Inv.code_nil_of_queues [WellFoundedLT T] (hqueue : ∀ p, (s.pool p).queue = []) (j : J)
    (p : P) : (s.peer p).code j = [] := by
  obtain ⟨x, y, a, hal⟩ := h.alone hplan j
  by_contra hne
  have hfin : ¬BlockNet.Final a := by
    intro hfin
    have hnil := hfin p
    rw [hal.blocks p, blocks, List.map_eq_nil_iff, hal.code_nil_iff] at hnil
    exact hne hnil
  obtain ⟨p', t, bs, hready⟩ := hal.matched.progress hfin
  have hcode : (s.peer p').code j ≠ [] := by
    intro hnil
    rw [hal.blocks p', (hal.code_nil_iff p').mpr hnil] at hready
    rcases hready with hb | ⟨_, _, _, hb, -⟩ <;> exact absurd hb (List.cons_ne_nil _ _).symm
  have hchunk := ((h.peer p').todo j).resolve_right hcode
  rw [hqueue p', (h.pool_full hplan hstuck p').1, List.append_nil, List.append_nil] at hchunk
  rcases h.chunk_waits hplan hstuck hchunk with
    ⟨t', src, name, ptr, bs', hc, hrecv⟩ | ⟨hadd, q, hq⟩
  · -- it waits for a buffer to which nothing is sent
    obtain ⟨hlink, hy⟩ := h.link_nil_of_slotWait hplan hstuck hal hc hrecv
    have hblocks : (a.proc p').blocks = ⟨t', [.recv src (name, true) (Store.writeBody ptr)]⟩ ::
        StdmlCollective.blocks Store.writeBody bs' := by
      rw [hal.blocks p', hy]
      rfl
    rw [hblocks] at hready
    rcases hready with hb | ⟨l₁, jb, l₂, hb, hjb⟩
    · cases hb
    · obtain ⟨hb, -⟩ := List.cons.inj hb
      have hjobs := congrArg Block.jobs hb
      have hmem : jb ∈ [Job.recv src (name, true) (Store.writeBody ptr)] := by
        rw [show [Job.recv src (name, true) (Store.writeBody ptr)] = l₁ ++ jb :: l₂ from hjobs]
        simp
      rw [List.mem_singleton.mp hmem] at hjb
      exact hjb hlink
  · -- it waits for tasks, all of which wait for something that is not sent
    rw [hqueue p', List.append_nil] at hq
    obtain ⟨-, -, -, b, bs', hc, htasks, hcov⟩ := (h.peer p').forks j [] hadd
    have hb : b ∈ (s.peer p').code j := by
      rw [hc]
      exact List.mem_cons_self
    have hproper := (h.peer p').proper j b hb
    have hwaits : ∀ th ∈ b.threads, ∃ q' name add, th = .mailGet q' name add ∧
        a.link q' p' = [] := by
      intro th hth
      obtain ⟨q', hq'⟩ := Option.isSome_iff_exists.mp (htasks th hth)
      have hrun : .task j q' ∈ (s.pool p').running := by
        rcases hcov q' (List.mem_filterMap.mpr ⟨th, hth, hq'⟩) with hnil | hrun
        · exact absurd hnil List.not_mem_nil
        · rwa [hqueue p', List.append_nil] at hrun
      obtain ⟨t', l₁, name, add, l₂, bs'', hc', hbox⟩ := h.task_waits hplan hstuck hrun
      obtain ⟨rfl, -⟩ := List.cons.inj (hc.symm.trans hc')
      have hget : (.mailGet q' name add : Thread P T Store O) ∈ l₁ ++ .mailGet q' name add :: l₂ :=
        List.mem_append_right _ List.mem_cons_self
      obtain ⟨hlink, -⟩ := h.link_nil_of_mailGet hplan hstuck hal hc' (not_slotWait hproper hget)
        hbox
      exact ⟨q', name, add, hproper.eq_of_peer hth hget hq' rfl, hlink⟩
    obtain ⟨bs'', hy⟩ := hal.head_code hc fun src name ptr hmem => by
      obtain ⟨q', name', add, heq, -⟩ := hwaits _ hmem
      cases heq
    have hblocks : (a.proc p').blocks = b.block Store.writeBody ::
        StdmlCollective.blocks Store.writeBody bs'' := by
      rw [hal.blocks p', hy]
      rfl
    obtain ⟨t', l₁, name, add, l₂, bs₁, hc', -⟩ := h.task_waits hplan hstuck hq
    obtain ⟨rfl, -⟩ := List.cons.inj (hc.symm.trans hc')
    rw [hblocks] at hready
    rcases hready with hb | ⟨l₃, jb, l₄, hb, hjb⟩
    · obtain ⟨hb, -⟩ := List.cons.inj hb
      have hjobs := congrArg Block.jobs hb
      simp [Par.block] at hjobs
    · obtain ⟨hb, -⟩ := List.cons.inj hb
      have hmem : jb ∈ (Par.block Store.writeBody
          ⟨t', l₁ ++ .mailGet q name add :: l₂⟩ : Block P T Key Bytes Store O).jobs := by
        rw [hb]
        simp
      obtain ⟨th, hth, rfl⟩ := List.mem_map.mp hmem
      obtain ⟨q', name', add', rfl, hlink⟩ := hwaits th hth
      exact hjb hlink

/-- **Peers none of whose pools holds anything back have returned** when they can do nothing. -/
theorem Inv.returned_of_queues [WellFoundedLT T] (hqueue : ∀ p, (s.pool p).queue = []) :
    s.Returned := by
  intro p
  obtain ⟨hpend, -, hrun⟩ := h.pool_full hplan hstuck p
  refine ⟨h.build_nil hplan hstuck p, hpend, hqueue p, ?_⟩
  rw [List.eq_nil_iff_forall_not_mem]
  intro w hw
  have hcode := fun j => h.code_nil_of_queues hplan hstuck hqueue j p
  cases w with
  | chunk j => exact hrun _ hw (hcode j)
  | task j q =>
      refine hrun _ hw fun b bs hc => ?_
      rw [hcode j] at hc
      cases hc

end Stuck

end AsyncState

end Plan

end StdmlCollective

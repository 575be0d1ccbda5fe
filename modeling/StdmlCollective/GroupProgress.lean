import StdmlCollective.GroupAllReduce
import StdmlCollective.SplitWork

/-!
# Whether `group_all_reduce` can get stuck

An `all_reduce` that runs holds its thread of the pool until all peers have come to the same
workspace. With 76 threads on every peer there is always a workspace that all of them run or have
run, as long as `(n - 1) * m < 76 * n`; with more workspaces than that there are orders in which
no workspace is among the first 76 of all peers, and then nobody can go on.
-/

namespace StdmlCollective

open BlockNet
open Memory (Mem)

variable {n m : ℕ}

/-! ## Where an `all_reduce` is -/

section Task

variable [NeZero n] {c : AllReduceCall n}

/-- What peer `d` is to receive from peer `s` for a part. -/
theorem allReduceTask_recvs (hc : c.Runs) (s d : Fin n) :
    recvs (blocks Store.writeBody (allReduceTask c d)) s =
      stepsFrom (fun e k => starTag (Time.at k) 0 (partName c.name e.1 e.2) (some s) (some d)) 0
        c.parts := by
  rw [allReduceTask_blocks, recvs, flatMap_stepsFrom]
  congr 1
  funext e k
  obtain ⟨f, hf⟩ := hc.part e
  exact starRun_recvs (Time.at k) members_id hf d s

theorem AllReduceCall.Runs.nodup_names (hc : c.Runs) :
    (c.parts.map fun e => partName c.name e.1 e.2).Nodup := by
  have hdvd : ∃ k, 0 < k ∧ allReduceChunkSize = k * dtypeSize c.dt := by
    cases c.dt
    case i8 | u8 => exact ⟨2 ^ 20, by decide, rfl⟩
    case i16 | u16 => exact ⟨2 ^ 19, by decide, rfl⟩
    case i32 | u32 | f32 => exact ⟨2 ^ 18, by decide, rfl⟩
    case i64 | u64 | f64 => exact ⟨2 ^ 17, by decide, rfl⟩
  obtain ⟨k, hk, hsize⟩ := hdvd
  have hsplit := (splitWork_isSplit (w := c.workspace 0) (makeGraphPairList .star n) hc.count_pos
    hk).nodup
  simpa [splitWork, Workspace.split, AllReduceCall.parts, AllReduceCall.workspace,
    Workspace.slice, Workspace.dataSize, hsize, Function.comp_def] using hsplit

/-- A peer never receives twice under the same name from the same peer. -/
theorem allReduceTask_keys (hc : c.Runs) (s d : Fin n) :
    ((recvs (blocks Store.writeBody (allReduceTask c d)) s).map Prod.snd).Nodup := by
  have hpart : ∀ (lab : ℕ → Time) (name : Bytes),
      ((starTag lab 0 name (some s) (some d)).map Prod.snd).Sublist [(name, decide (s = 0))] := by
    intro lab name
    by_cases hs : s = 0 <;> by_cases hd : d = 0 <;> simp [starTag, hs, hd]
  have hsub : ∀ (l : List (ℕ × ℕ)) (k : ℕ),
      ((stepsFrom (fun e k => starTag (Time.at k) 0 (partName c.name e.1 e.2) (some s) (some d)) k
        l).map Prod.snd).Sublist
          ((l.map fun e => partName c.name e.1 e.2).map fun name => (name, decide (s = 0))) := by
    intro l
    induction l with
    | nil => exact fun _ => .slnil
    | cons e l ih =>
        intro k
        rw [stepsFrom, List.map_append]
        exact (hpart _ _).append (ih (k + 1))
  rw [allReduceTask_recvs hc]
  refine List.Nodup.sublist (hsub _ _) (hc.nodup_names.map ?_)
  intro a b hab
  exact (Prod.mk.inj hab).1

/-- What the blocks of a part are among. -/
theorem part_subset {k : ℕ} {e : ℕ × ℕ} (he : c.parts[k]? = some e) (p : Fin n) :
    blocks Store.writeBody (starRun (Time.at k) id some 0
      (fun r => (c.workspace r).slice e.1 e.2) p) ⊆ blocks Store.writeBody (allReduceTask c p) := by
  intro b hb
  rw [allReduceTask_blocks]
  apply mem_stepsFrom_of_getElem he
  rw [Nat.zero_add]
  exact hb

omit [NeZero n] in
theorem AllReduceCall.Runs.first_part (hc : c.Runs) : ∃ e, c.parts[0]? = some e := by
  have hcov := c.parts_covers hc.count_pos
  cases hparts : c.parts with
  | nil =>
      rw [hparts] at hcov
      cases hcov' : c.count with
      | zero =>
          have hpos := hc.count_pos
          omega
      | succ k =>
          rw [hcov'] at hcov
          cases hcov
  | cons e l => exact ⟨e, rfl⟩

section Network

variable {σ : Fin n → Store} {a : State (Fin n) Time Key Bytes Store Bytes}

/-- A peer that has come to the reduction of the first part has begun. -/
theorem begun_of_le (hc : c.Runs) {p : Fin n}
    (h : ∀ b ∈ (a.proc p).blocks, Time.at 0 2 ≤ b.time) :
    (a.proc p).blocks ≠ blocks Store.writeBody (allReduceTask c p) := by
  intro heq
  obtain ⟨e, he⟩ := hc.first_part
  obtain ⟨f, hf⟩ := hc.part e
  have hstart : ∃ b ∈ blocks Store.writeBody (starRun (Time.at 0) id some 0
      (fun r => (c.workspace r).slice e.1 e.2) p : List (Par (Fin n) Time Store Bytes)),
        b.time = Time.at 0 0 := by
    rw [starRun_blocks _ hf]
    by_cases hp : p = 0 <;> simp [hp]
  obtain ⟨b, hb, htime⟩ := hstart
  rw [heq] at h
  have hle := h b (part_subset he p hb)
  rw [htime] at hle
  exact absurd hle (not_le.mpr (Time.at_strictMono 0 (by omega)))

variable (hc : c.Runs) (ha : Reach (fun r => blocks Store.writeBody (allReduceTask c r)) σ a)
  (hm : Matched a)
include hc ha hm

/-- When one peer is through, all have begun. -/
theorem begun_of_through {q : Fin n} (hq : (a.proc q).blocks = []) (p : Fin n) :
    (a.proc p).blocks ≠ blocks Store.writeBody (allReduceTask c p) := by
  obtain ⟨e, he⟩ := hc.first_part
  obtain ⟨f, hf⟩ := hc.part e
  apply begun_of_le hc
  refine star_synced (Time.at_strictMono 0) members_id hf ha hm (allReduceTask_compat hc).valid
    (part_subset he) (q := q) ?_ p
  intro b hb
  rw [id, hq] at hb
  exact absurd hb List.not_mem_nil

/-- Leaves hear from the root only. -/
theorem eq_root_of_link {s p : Fin n} (hp : p ≠ 0) (h : a.link s p ≠ []) : s = 0 := by
  by_contra hs
  apply h
  apply hm.link_eq_nil
  have hsub := (ha.remains p).recvs_sublist s
  rw [allReduceTask_recvs hc] at hsub
  have hnil : stepsFrom (fun e k => starTag (Time.at k) 0 (partName c.name e.1 e.2) (some s)
      (some p)) 0 c.parts = [] := by
    apply List.eq_nil_iff_forall_not_mem.mpr
    intro t ht
    obtain ⟨i, e, -, hmem⟩ := mem_stepsFrom ht
    simp [starTag, hs, hp] at hmem
  rw [hnil] at hsub
  exact List.sublist_nil.mp hsub

/-- When the root has sent something to a peer, the peer has begun. -/
theorem begun_of_link {p : Fin n} (hp : p ≠ 0) (h : a.link 0 p ≠ []) :
    (a.proc p).blocks ≠ blocks Store.writeBody (allReduceTask c p) := by
  have hcompat := allReduceTask_compat hc
  obtain ⟨pk, pks, hlink⟩ := List.exists_cons_of_ne_nil h
  -- the root has done the send of the packet
  have hrecvs := hm.tags 0 p
  have hmem : pk.tag ∈ recvs (a.proc p).blocks 0 := by
    rw [← hrecvs, hlink]
    simp
  have hprog := ((ha.remains p).recvs_sublist 0).subset hmem
  have hnodup : (recvs (a.proc p).blocks 0).Nodup :=
    (List.Nodup.of_map _ (allReduceTask_keys hc 0 p)).sublist ((ha.remains p).recvs_sublist 0)
  have hsent : pk.tag ∉ sends (a.proc 0).blocks p := by
    intro hs
    rw [← hrecvs, hlink, List.map_cons, List.cons_append, List.nodup_cons] at hnodup
    exact hnodup.1 (List.mem_append_right _ hs)
  have hsends := hprog
  rw [← hcompat.matched 0 p] at hsends
  obtain ⟨b, hb, htime, f, hf⟩ := time_of_mem_sends (t := pk.tag.1) (k := pk.tag.2) hsends
  have hreached := (ha.remains 0).reached (hcompat.valid 0) hb (d := p) (k := pk.tag.2)
    (List.mem_filterMap.mpr ⟨_, hf, by simp [Job.sendKey]⟩) (by rw [htime]; exact hsent)
  -- which is after the reduction of the first part
  have hlt : Time.at 0 2 < b.time := by
    rw [htime]
    rw [allReduceTask_recvs hc] at hprog
    obtain ⟨i, e, -, htag⟩ := mem_stepsFrom hprog
    simp only [starTag, if_true, if_neg hp, List.mem_singleton] at htag
    rw [htag, Nat.zero_add]
    rcases Nat.eq_zero_or_pos i with hi | hi
    · rw [hi]
      exact Time.at_strictMono 0 (by omega)
    · exact Time.lt_of_step_lt hi
  obtain ⟨e, he⟩ := hc.first_part
  obtain ⟨f, hf⟩ := hc.part e
  apply begun_of_le hc
  refine star_heard members_id hf ha hm hcompat.valid (part_subset he) ?_ p
  intro b' hb'
  exact hlt.trans_le (hreached b' hb')

/-- A leaf to which something is on its way can go on. -/
theorem leaf_ready {p : Fin n} (hp : p ≠ 0) (h : a.link 0 p ≠ []) :
    ∃ t bs, (a.proc p).blocks = ⟨t, []⟩ :: bs ∨
      ∃ l₁ j l₂, (a.proc p).blocks = ⟨t, l₁ ++ j :: l₂⟩ :: bs ∧ Ready a p j := by
  rcases ha.remains p with hnil | ⟨pre, b, js, rest, hprog, hsub, hblocks⟩
  · refine absurd (hm.link_eq_nil ?_) h
    rw [hnil]
    rfl
  refine ⟨b.time, rest, ?_⟩
  cases js with
  | nil => exact .inl hblocks
  | cons j js =>
      refine .inr ⟨[], j, js, hblocks, ?_⟩
      have hb : b ∈ blocks Store.writeBody (allReduceTask c p) := by
        rw [hprog]
        simp
      have hj : j ∈ b.jobs := hsub.subset List.mem_cons_self
      rw [allReduceTask_blocks] at hb
      obtain ⟨i, e, -, hb⟩ := mem_stepsFrom hb
      obtain ⟨f, hf⟩ := hc.part e
      rw [Phase.blocks_part, starRun_blocks _ hf] at hb
      simp only [if_neg hp, List.mem_cons, List.not_mem_nil, or_false] at hb
      rcases hb with rfl | rfl | rfl | rfl | rfl
      · obtain rfl := List.mem_singleton.mp hj
        trivial
      · exact absurd hj List.not_mem_nil
      · obtain rfl := List.mem_singleton.mp hj
        trivial
      · obtain rfl := List.mem_singleton.mp hj
        exact h
      · exact absurd hj List.not_mem_nil

end Network

end Task

/-! ## Handlers do not block -/

namespace GroupState

variable [NeZero n] {ident : Fin n → PeerId} {g : GroupCall n m} {s : GroupState n m}

/-- What the `all_reduce` of workspace `j` is like when it is looked at alone: peers `c` that run
nothing else, and the network `a` they stand for. -/
structure Alone (ident : Fin n → PeerId) (g : GroupCall n m) (s : GroupState n m) (j : Fin m)
    (c : Cluster (Fin n) PeerId Time Store Bytes) (a : State (Fin n) Time Key Bytes Store Bytes) :
    Prop where
  view : Projects (fun j => (g.call j).owns) (fun j r => ((g.call j).workspace r).reads) s.peer j c
  localCode : ∀ r, Local (g.call j).owns (g.call j).partLen ((g.call j).workspace r).reads
    ((g.call j).workspace r).writes ((s.peer r).code j)
  reach : BlockNet.Reach (fun r => blocks Store.writeBody (allReduceTask (g.call j) r))
    (fun r => ⟨g.mem r, 0⟩) a
  sim : Sim ident Store.writeBody c a
  matched : Matched a

theorem Inv.alone (hid : Function.Injective ident) (hg : g.Runs) (h : Inv ident g s) (j : Fin m) :
    ∃ c a, Alone ident g s j c a := by
  obtain ⟨c, hc, hview⟩ := h.tasks.alone j
  have hcompat := allReduceTask_compat (hg.runs j)
  obtain ⟨a, ha, hsim⟩ := simulate (tidy_of_compat hid (allReduceTask_fresh (g.call j)) hcompat)
    hcompat (fun a _ => excl_of_injective hid a) hc
  refine ⟨c, a, hview, ?_, ha, hsim, hcompat.matched_reach ha⟩
  intro r
  have hl := (hc.local (fun r => allReduceTask_local (hg.runs j) r) r).1
  obtain ⟨τ, -, hcr⟩ := hview r
  rw [hcr] at hl
  exact hl

section Alone

variable {j : Fin m} {c : Cluster (Fin n) PeerId Time Store Bytes}
  {a : State (Fin n) Time Key Bytes Store Bytes} {r : Fin n}

theorem Alone.code (h : Alone ident g s j c a) : (c r).code = (s.peer r).code j := by
  obtain ⟨τ, -, hcr⟩ := h.view r
  rw [hcr]
  rfl

/-- An `all_reduce` that waits has not begun. -/
theorem Alone.blocks_of_waits (h : Alone ident g s j c a) (hinv : Inv ident g s)
    (hw : (s.pool r).Waits j) :
    (a.proc r).blocks = blocks Store.writeBody (allReduceTask (g.call j) r) := by
  have hcode : (c r).code = allReduceTask (g.call j) r := h.code.trans (hinv.waits r j hw)
  rw [(h.sim r).code, Node.abs_of_fresh, hcode]
  rw [hcode]
  exact fun b hb th hth => allReduceTask_fresh (g.call j) r hb hth

theorem Alone.running (h : Alone ident g s j c a) (hinv : Inv ident g s)
    (hbegun : (a.proc r).blocks ≠ blocks Store.writeBody (allReduceTask (g.call j) r))
    (hcode : (s.peer r).code j ≠ []) : j ∈ (s.pool r).running := by
  by_contra hrun
  refine hcode (hinv.through r j (fun hw => ?_) hrun)
  exact hbegun (h.blocks_of_waits hinv hw)

/-- What a step of the `all_reduce` alone says about the peers. -/
theorem Alone.step (h : Alone ident g s j c a) (hrun : j ∈ (s.pool r).running)
    {e : Event (Fin n) Time} {y : Node (Fin n) PeerId Time Store Bytes}
    (hs : NStep ident Store.writeBody r (c r) e y) :
    (∃ s', Step ident s s') ∨ ∃ p, (s.peer r).rest.handler p ≠ .idle ∧ (c r).handler p = .idle ∧
      (c r).conn p ≠ [] := by
  obtain ⟨τ, -, hcr⟩ := h.view r
  rw [hcr] at hs ⊢
  rcases hs.of_only (h.localCode r) with ⟨e', y', hs', hl⟩ | hbusy
  · have htask : ∃ x', TStep ident (fun r j _ => j ∈ (s.pool r).running) s.peer x' :=
      TStep.of_node hrun hs' hl
    obtain ⟨x', hx'⟩ := htask
    exact .inl ⟨_, .run hx'⟩
  · exact .inr hbusy

end Alone

section Handlers

variable {r p : Fin n}

/-- The packets on their way to a peer have keys of their own. -/
theorem Alone.nodup_keys {j : Fin m} {c : Cluster (Fin n) PeerId Time Store Bytes}
    {a : State (Fin n) Time Key Bytes Store Bytes} (h : Alone ident g s j c a) (hg : g.Runs) :
    ((a.link p r).map fun pk => pk.tag.2).Nodup := by
  have hall := (allReduceTask_keys (hg.runs j) p r).sublist
    (((h.reach.remains r).recvs_sublist p).map Prod.snd)
  rw [← h.matched.tags p r, List.map_append] at hall
  have hlink := (List.nodup_append.mp hall).1
  rwa [List.map_map] at hlink

omit [NeZero n] in
/-- A step of a handler is a step of the peers. -/
theorem step_of_handler (j : Fin m) {y : Node (Fin n) PeerId Time Store Bytes}
    (hs : NStep ident Store.writeBody r ((s.peer r).view j) .tau y)
    (hcode : (s.peer r).code j = y.code) : ∃ s', Step ident s s' :=
  ⟨_, .run (.tau (.inr hcode) hs)⟩

/-- A handler with a message for a buffer: the peer is about to post the buffer. -/
theorem Inv.slot_step (hid : Function.Injective ident) (hg : g.Runs) (h : Inv ident g s)
    {msg : Message (Fin n) Time} (hh : (s.peer r).rest.handler p = .slot msg) :
    ∃ s', Step ident s s' := by
  obtain ⟨j, hown⟩ := (h.tasks.owned r).handler p msg.name (by rw [hh]; rfl)
  obtain ⟨c, a, hal⟩ := h.alone hid hg j
  obtain ⟨τ, -, hcr⟩ := hal.view r
  have hslot : (c r).handler p = .slot msg := by
    rw [hcr, Node.handler_only, show ((s.peer r).view j).handler p = _ from hh,
      Handler.only_own rfl hown]
  obtain ⟨D, hD⟩ := (hal.sim r).pipes
  have hpk : msg.packet ∈ a.link p r := by
    rw [hD.link p, hslot]
    simp
  have hwaits : msg.waits = true := by
    have hfits := hD.fits p
    rwa [hslot] at hfits
  -- the message is from the root, to a leaf
  have htag := ((hal.reach.remains r).recvs_sublist p).subset (by
    rw [← hal.matched.tags p r]
    exact List.mem_append_left _ (List.mem_map_of_mem hpk))
  rw [allReduceTask_recvs (hg.runs j)] at htag
  obtain ⟨i, e, -, htag⟩ := mem_stepsFrom htag
  obtain ⟨hp, hr⟩ : p = 0 ∧ r ≠ 0 := by
    by_cases hp : p = 0 <;> by_cases hr : r = 0 <;>
      simp [starTag, hp, hr, Message.tag_packet, hwaits] at htag ⊢
  subst hp
  have hne : a.link 0 r ≠ [] := List.ne_nil_of_mem hpk
  have hready := leaf_ready (hg.runs j) hal.reach hal.matched hr hne
  have hcode : (s.peer r).code j ≠ [] := by
    intro hnil
    obtain ⟨t, bs, hb⟩ := hready
    have habs := (hal.sim r).code
    rw [Node.abs, hal.code, hnil] at habs
    rcases hb with hb | ⟨_, _, _, hb, -⟩ <;> rw [hb] at habs <;> exact absurd habs (by simp)
  have hrun := hal.running h (begun_of_link (hg.runs j) hal.reach hal.matched hr hne) hcode
  obtain ⟨t, bs, hb⟩ := hready
  obtain ⟨e, y, hs, -⟩ := hal.sim.ready_step hal.matched (excl_of_injective hid a) hb
  rcases hal.step hrun hs with hstep | ⟨q, -, hidle, hconn⟩
  · exact hstep
  · -- the only handler of a leaf that has something to do is the one for the root
    have hq : a.link q r ≠ [] := by
      rw [hD.link q]
      simp [hconn]
    rw [eq_root_of_link (hg.runs j) hal.reach hal.matched hr hq, hslot] at hidle
    exact absurd hidle (by simp)

/-- **Handlers do not block**: where one has something to do, somebody can take a step. -/
theorem Inv.handler_step (hid : Function.Injective ident) (hg : g.Runs) (h : Inv ident g s)
    (hb : (s.peer r).rest.handler p ≠ .idle ∨ (s.peer r).rest.conn p ≠ []) :
    ∃ s', Step ident s s' := by
  have hview : ∀ {msg : Message (Fin n) Time}, ((s.peer r).rest.handler p).name? = some msg.name →
      ∃ j c a, Alone ident g s j c a ∧ (g.call j).owns msg.name = true ∧
        (c r).handler p = (s.peer r).rest.handler p ∧
        (c r).mailbox (ident p) msg.name = (s.peer r).rest.mailbox (ident p) msg.name ∧
        (c r).recvQ (ident p) msg.name = (s.peer r).rest.recvQ (ident p) msg.name := by
    intro msg hname
    obtain ⟨j, hown⟩ := (h.tasks.owned r).handler p msg.name hname
    obtain ⟨c, a, hal⟩ := h.alone hid hg j
    obtain ⟨τ, -, hcr⟩ := hal.view r
    refine ⟨j, c, a, hal, hown, ?_, ?_, ?_⟩
    · rw [hcr, Node.handler_only]
      exact Handler.only_own hname hown
    · rw [hcr]
      exact onlyBox_own hown
    · rw [hcr]
      exact onlyBox_own hown
  cases hh : (s.peer r).rest.handler p with
  | idle =>
      rw [hh] at hb
      obtain ⟨msg, ms, hcn⟩ := List.exists_cons_of_ne_nil (hb.resolve_left (absurd rfl))
      obtain ⟨j, -⟩ := (h.tasks.owned r).conn p msg (by rw [hcn]; exact List.mem_cons_self)
      exact step_of_handler j (.header (x := (s.peer r).view j) hh hcn) rfl
  | mail msg =>
      obtain ⟨j, c, a, hal, hown, hhc, hbox, -⟩ := @hview msg (by rw [hh]; rfl)
      rw [hh] at hhc
      have hfree := (hal.sim r).mailbox_free hid hhc (hal.nodup_keys hg)
      rw [hbox] at hfree
      exact step_of_handler j (.mailPut (x := (s.peer r).view j) hh
        (by rw [show ((s.peer r).view j).mailbox _ _ = _ from hfree]; exact Nat.one_pos)) rfl
  | slot msg => exact h.slot_step hid hg hh
  | write msg ptr =>
      obtain ⟨j, -⟩ := @hview msg (by rw [hh]; rfl)
      exact step_of_handler j (.body (x := (s.peer r).view j) hh) rfl
  | done msg ptr =>
      obtain ⟨j, c, a, hal, hown, hhc, -, hbox⟩ := @hview msg (by rw [hh]; rfl)
      rw [hh] at hhc
      have hfree := (hal.sim r).slots.recvQ_free hhc
      rw [hbox] at hfree
      exact step_of_handler j (.slotPut (x := (s.peer r).view j) hh
        (by rw [show ((s.peer r).view j).recvQ _ _ = _ from hfree]; exact Nat.one_pos)) rfl

end Handlers

/-! ## Progress -/

section Progress

/-- An `all_reduce` that no peer has still to take goes on. -/
theorem Inv.step_of_taken (hid : Function.Injective ident) (hg : g.Runs) (h : Inv ident g s)
    {j : Fin m} (hw : ∀ r, ¬(s.pool r).Waits j) {r : Fin n} (hcode : (s.peer r).code j ≠ []) :
    ∃ s', Step ident s s' := by
  obtain ⟨c, a, hal⟩ := h.alone hid hg j
  have hfin : ¬BlockNet.Final a := by
    intro hfin
    exact hcode (hal.code.symm.trans (hal.sim.final hfin r))
  obtain ⟨p, t, bs, hb⟩ := hal.matched.progress hfin
  have hp : (s.peer p).code j ≠ [] := by
    intro hnil
    have habs := (hal.sim p).code
    rw [Node.abs, hal.code, hnil] at habs
    rcases hb with hb | ⟨_, _, _, hb, -⟩ <;> rw [hb] at habs <;> exact absurd habs (by simp)
  have hrun : j ∈ (s.pool p).running := by
    by_contra hrun
    exact hp (h.through p j (hw p) hrun)
  obtain ⟨e, y, hs, -⟩ := hal.sim.ready_step hal.matched (excl_of_injective hid a) hb
  rcases hal.step hrun hs with hstep | ⟨q, hq, -⟩
  · exact hstep
  · exact h.handler_step hid hg (.inl hq)

/-- Where one peer is through with a workspace, all have taken it. -/
theorem Inv.taken_of_through (hid : Function.Injective ident) (hg : g.Runs) (h : Inv ident g s)
    {j : Fin m} {q : Fin n} (hq : (s.peer q).code j = []) (r : Fin n) : ¬(s.pool r).Waits j := by
  intro hw
  obtain ⟨c, a, hal⟩ := h.alone hid hg j
  have hthrough : (a.proc q).blocks = [] := by
    rw [(hal.sim q).code, Node.abs, hal.code, hq]
  exact begun_of_through (hg.runs j) hal.reach hal.matched hthrough r (hal.blocks_of_waits h hw)

/-- **A group with few workspaces is never stuck.** -/
theorem Inv.progress (hid : Function.Injective ident) (hg : g.Runs) (h : Inv ident g s)
    (hlt : (n - 1) * m < groupPoolSize * n) (hret : ¬s.Returned) : ∃ s', Step ident s s' := by
  classical
  by_contra hstuck
  have hpool : ∀ r, (s.pool r).pending = [] ∧
      ((s.pool r).queue ≠ [] → groupPoolSize ≤ (s.pool r).running.length) ∧
      ∀ j ∈ (s.pool r).running, (s.peer r).code j ≠ [] := by
    intro r
    apply Pool.full_of_no_step
    intro q hq
    exact hstuck ⟨_, .pool hq⟩
  have hwaits : ∀ r j, (s.pool r).Waits j ↔ j ∈ (s.pool r).queue := by
    intro r j
    rw [Pool.Waits, (hpool r).1, List.append_nil]
  -- the workspaces that are not through everywhere, each of which waits somewhere
  let U : Finset (Fin m) :=
    Finset.univ.filter fun j => ∃ r, j ∈ (s.pool r).running ∨ j ∈ (s.pool r).queue
  have hwait : ∀ j ∈ U, ∃ r, (s.pool r).Waits j := by
    intro j hj
    by_contra hnone
    rw [not_exists] at hnone
    obtain ⟨r, hr⟩ := (Finset.mem_filter.mp hj).2
    have hrun := hr.resolve_right fun hq => hnone r ((hwaits r j).mpr hq)
    exact hstuck (h.step_of_taken hid hg hnone ((hpool r).2.2 j hrun))
  have hmem : ∀ r j, j ∈ U ↔ j ∈ (s.pool r).running ∨ j ∈ (s.pool r).queue := by
    intro r j
    constructor
    · intro hj
      by_contra hnot
      rw [not_or] at hnot
      have hcode := h.through r j (fun hw => hnot.2 ((hwaits r j).mp hw)) hnot.1
      obtain ⟨q, hq⟩ := hwait j hj
      exact h.taken_of_through hid hg hcode q hq
    · intro hj
      exact Finset.mem_filter.mpr ⟨Finset.mem_univ j, r, hj⟩
  have hne : U.Nonempty := by
    obtain ⟨r, hr⟩ := not_forall.mp hret
    by_contra hempty
    apply hr
    refine ⟨(hpool r).1, ?_, ?_⟩
    · apply List.eq_nil_iff_forall_not_mem.mpr
      intro j hj
      exact hempty ⟨j, (hmem r j).mpr (.inr hj)⟩
    · apply List.eq_nil_iff_forall_not_mem.mpr
      intro j hj
      exact hempty ⟨j, (hmem r j).mpr (.inl hj)⟩
  have hcard : (Fintype.card (Fin n) - 1) * U.card < groupPoolSize * Fintype.card (Fin n) := by
    rw [Fintype.card_fin]
    refine lt_of_le_of_lt (Nat.mul_le_mul_left _ ?_) hlt
    calc U.card ≤ (Finset.univ : Finset (Fin m)).card := Finset.card_filter_le _ _
      _ = m := Finset.card_fin m
  obtain ⟨j, hj, hrun⟩ := Pool.exists_common hne hmem
    (fun r => by
      have hnd := (hg.nodup_order r).sublist (h.pool r).waits.sublist
      rwa [(hpool r).1, List.append_nil] at hnd)
    (fun r => (h.pool r).nodup)
    (fun r j hj hq => ((h.pool r).running j hj).2 ((hwaits r j).mpr hq))
    (fun r => (hpool r).2.1) hcard
  obtain ⟨r, hr⟩ := hwait j hj
  exact ((h.pool r).running j (hrun r)).2 hr

end Progress

/-! ## The end of a run -/

section End

omit [NeZero n] in
/-- **There is no infinite run.** -/
theorem Step.wf (ident : Fin n → PeerId) :
    WellFounded fun s' s : GroupState n m => Step ident s s' := by
  refine Subrelation.wf (r := InvImage (· < ·) fun s : GroupState n m =>
    ∑ r, (s.peer r).weight + ∑ r, (s.pool r).weight) ?_ (InvImage.wf _ wellFounded_lt)
  intro s' s hs
  simp only [InvImage]
  cases hs with
  | @pool r q hq =>
      have h₁ := sum_update (fun _ (p : Pool (Fin m)) => p.weight) s.pool r q
      have h₂ := hq.weight
      simp only
      omega
  | run ht =>
      have h := ht.weight
      simp only
      omega

/-- A group with few workspaces can run to its end. -/
theorem exists_returned (hid : Function.Injective ident) (hg : g.Runs)
    (hlt : (n - 1) * m < groupPoolSize * n) : ∃ s, Reach ident g s ∧ s.Returned := by
  obtain ⟨s, hs, hstuck⟩ := exists_stuck_of_wf (Step.wf ident) (start g)
  refine ⟨s, hs, ?_⟩
  by_contra hret
  obtain ⟨s', hs'⟩ := (Reach.inv hg hs).progress hid hg hlt hret
  exact hstuck s' hs'

/-- When no workspace is among the first of all peers, no peer is through with any. -/
theorem code_ne_nil_of_windows (hid : Function.Injective ident) (hg : g.Runs)
    (hwin : ∀ j, ∃ r, j ∉ (g.order r).take groupPoolSize) (hs : Reach ident g s) (r : Fin n)
    (j : Fin m) : (s.peer r).code j ≠ [] := by
  induction hs generalizing r j with
  | refl =>
      intro hnil
      obtain ⟨e, he⟩ := (hg.runs j).first_part
      obtain ⟨f, hf⟩ := (hg.runs j).part e
      have hsub := part_subset he r
      rw [show allReduceTask (g.call j) r = [] from hnil, starRun_blocks _ hf] at hsub
      by_cases hr : r = 0 <;> simp [hr, blocks] at hsub
  | @tail s s' hrun hs ih =>
      cases hs with
      | pool _ => exact ih r j
      | @run x ht =>
          intro hnil
          have hinv := Reach.inv hg hrun
          have hinv' := Reach.inv hg (hrun.tail (.run ht))
          have htaken := hinv'.taken_of_through hid hg hnil
          -- nobody was through before, so what is taken runs
          have hrunning : ∀ q i, ¬(s.pool q).Waits i → i ∈ (s.pool q).running := by
            intro q i hi
            by_contra hnot
            exact ih q i (hinv.through q i hi hnot)
          obtain ⟨q, hq⟩ := hwin j
          exact hq ((hinv.pool q).mem_take (hg.nodup_order q) (fun i _ hi => hrunning q i hi)
            (hrunning q j (htaken q)))

/-- A group in which no workspace is among the first of all peers gets stuck. -/
theorem exists_stuck_of_windows (hid : Function.Injective ident) (hg : g.Runs)
    (hwin : ∀ j, ∃ r, j ∉ (g.order r).take groupPoolSize) (hm : 0 < m) :
    ∃ s, Reach ident g s ∧ ¬s.Returned ∧ ∀ s', ¬Step ident s s' := by
  obtain ⟨s, hs, hstuck⟩ := exists_stuck_of_wf (Step.wf ident) (start g)
  refine ⟨s, hs, ?_, hstuck⟩
  intro hret
  obtain ⟨h₁, h₂, h₃⟩ := hret 0
  refine code_ne_nil_of_windows hid hg hwin hs 0 ⟨0, hm⟩ ((Reach.inv hg hs).through 0 _ ?_ ?_)
  · simp [Pool.Waits, h₁, h₂]
  · simp [h₃]

end End

end GroupState

/-! ## How many workspaces are too many -/

/-- No state that the peers can reach before all of them have returned is stuck, whatever the
workspaces and their orders. -/
def GroupLive (n m : ℕ) [NeZero n] (ident : Fin n → PeerId) : Prop :=
  ∀ g : GroupCall n m, g.Runs → ∀ s : GroupState n m, GroupState.Reach ident g s → ¬s.Returned →
    ∃ s', GroupState.Step ident s s'

/-- Workspaces of one byte each. Peer `r` leaves a block of `m - 76` of them, the `r`-th one, to
the end. -/
def spreadGroup (n m : ℕ) : GroupCall n m where
  count _ := 1
  dt _ := .u8
  op _ := .sum
  name j := toDecimal j
  send j _ := (j : ℕ)
  recv j _ := (j : ℕ)
  mem _ _ := 0
  order r := (List.finRange m).rotate ((r + 1) * (m - groupPoolSize))

theorem spreadGroup_runs (n m : ℕ) : (spreadGroup n m).Runs where
  runs j := ⟨Nat.le_refl 1, rfl, nulFree_toDecimal j, fun _ => .inl rfl⟩
  names i j h := Fin.ext (toDecimal_injective h)
  apart {i j r a} hij hread hwrite := by
    have hsize : ((((spreadGroup n m).call i).workspace r).dataSize = 1) ∧
        (((spreadGroup n m).call j).workspace r).dataSize = 1 := ⟨rfl, rfl⟩
    obtain ⟨k, hk, ha⟩ : Region (i : ℕ) 1 a := hread.elim id id
    obtain ⟨k', hk', ha'⟩ : Region (j : ℕ) 1 a := hwrite
    have heq : (i : ℕ) + k = j + k' := ha.symm.trans ha'
    exact hij (Fin.ext (by omega))
  order r := List.rotate_perm _ _

/-- Every workspace comes late on some peer. -/
theorem spreadGroup_windows (h : groupPoolSize * n ≤ (n - 1) * m) (hn : 0 < n) (j : Fin m) :
    ∃ r, j ∉ ((spreadGroup n m).order r).take groupPoolSize := by
  have hj := j.isLt
  -- the blocks are not empty, and there are enough of them
  obtain ⟨d, rfl⟩ : ∃ d, m = groupPoolSize + d := by
    refine Nat.exists_eq_add_of_le ?_
    by_contra hlt
    have h₁ : (n - 1) * m ≤ (n - 1) * groupPoolSize := Nat.mul_le_mul_left _ (by omega)
    have h₂ : (n - 1) * groupPoolSize < n * groupPoolSize :=
      Nat.mul_lt_mul_of_pos_right (by omega) (by decide)
    rw [Nat.mul_comm n] at h₂
    omega
  have hcover : groupPoolSize + d ≤ n * d := by
    obtain ⟨k, rfl⟩ : ∃ k, n = k + 1 := ⟨n - 1, by omega⟩
    rw [Nat.add_sub_cancel, Nat.mul_add, Nat.mul_add, Nat.mul_one, Nat.mul_comm k] at h
    rw [Nat.add_mul, Nat.one_mul]
    omega
  have hd : 0 < d := by
    rcases Nat.eq_zero_or_pos d with hz | hpos
    · subst hz
      have : groupPoolSize = 76 := rfl
      omega
    · exact hpos
  have hr : (j : ℕ) / d < n := by
    rw [Nat.div_lt_iff_lt_mul hd]
    omega
  refine ⟨⟨j / d, hr⟩, fun hmem => ?_⟩
  obtain ⟨i, hi, hget⟩ := List.mem_take_iff_getElem.mp hmem
  have hval := congrArg Fin.val hget
  simp only [spreadGroup, List.getElem_rotate, List.getElem_finRange, Nat.add_sub_cancel_left,
    List.length_finRange, Fin.val_cast] at hval
  -- `j` is in the block that comes last
  have hdiv := Nat.div_add_mod (j : ℕ) d
  have hmod := Nat.mod_lt (j : ℕ) hd
  have hblock : ((j : ℕ) / d + 1) * d = d * (j / d) + d := by
    rw [Nat.add_mul, Nat.one_mul, Nat.mul_comm]
  rw [hblock] at hval
  generalize d * ((j : ℕ) / d) = b at hdiv hval
  have hquot := Nat.div_add_mod (i + (b + d)) (groupPoolSize + d)
  rw [hval] at hquot
  have hi' : i < groupPoolSize := lt_of_lt_of_le hi (Nat.min_le_left _ _)
  rcases Nat.eq_zero_or_pos ((i + (b + d)) / (groupPoolSize + d)) with hq | hq
  · rw [hq, Nat.mul_zero] at hquot
    omega
  · have hle := Nat.le_mul_of_pos_right (groupPoolSize + d) hq
    omega

section Count

variable [NeZero n] {ident : Fin n → PeerId}

/-- With more peers the counter of the root wraps, and a group of one workspace ends with a sum
that is too small. -/
theorem not_groupAllReduceCorrect_of_gt (hid : Function.Injective ident) (hn : 2 ^ 32 < n) :
    ¬GroupAllReduceCorrect n ident := by
  intro h
  have hle := card_le_of_injective hid
  obtain ⟨s, hs, hret⟩ := GroupState.exists_returned hid (countGroup_ok n).toRuns
    (by rw [Nat.mul_one, groupPoolSize]; omega)
  have h₁ := h 1 (countGroup n) (countGroup_ok n) s hs hret 0 0
  have h₂ := hs.recv_eq hid (countGroup_ok n) hret (j := 0) countPeers_settles 0
  have heq : (countPeers n).result = _ := h₁.symm.trans h₂
  rw [countPeers_result (by omega)] at heq
  have hnat := congrArg LittleEndian.leNat heq
  rw [LittleEndian.leNat_leBytes, LittleEndian.leNat_leBytes, Nat.mod_eq_of_lt (by omega),
    Nat.mod_eq_of_lt (by omega)] at hnat
  omega

end Count

end StdmlCollective

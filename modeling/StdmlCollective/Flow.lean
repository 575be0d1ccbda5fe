import StdmlCollective.Lib.Progress
import StdmlCollective.Program

/-!
# Bounded buffers and bounded pools

`connection_impl::send` returns when the kernel has taken the bytes, and how many bytes it takes
before the other side has read any is not for the program to say. In the worst case none: then a
section is left only when all that it has sent has been read. And `fmap` runs a section on a pool
of as many threads as `thread_pool_size` says.

Both restrict the runs, and what every run does they do. That they do not get stuck is another
matter: a program must not need room on a connection, or a thread that a pool does not have.
-/

namespace StdmlCollective

open BlockNet (Job Block Proc State Reach Matched Compat Ready mem_stepsFrom)
open Memory (Mem)

section Runs

variable {P Id T S O : Type} [DecidableEq P] [DecidableEq Id] [LinearOrder T]
variable {ident : P → Id} {write : Addr → Bytes → S → S}

/-- A step that the state of its own node and the others allow is a step of the run, and leaves
every other code as it is. -/
theorem Cluster.CanMove.exists_step {c : Cluster P Id T S O} {p : P} {x' : Node P Id T S O}
    (h : c.CanMove ident write p x') :
    ∃ c', CStep ident write c c' ∧ (c' p).code = x'.code ∧
      ∀ q, q ≠ p → (c' q).code = (c q).code := by
  obtain ⟨e, hx, hl⟩ := h
  cases e with
  | tau => exact ⟨_, .tau hx, by simp, fun q hq => by simp [hq]⟩
  | launch qs u => exact ⟨_, .launch hx (hl qs u rfl), by simp, fun q hq => by simp [hq]⟩
  | send id m =>
      have hcode : ∀ q, (Function.update (Function.update c p x') id
          ((Function.update c p x' id).receive p m) q).code = (Function.update c p x' q).code := by
        intro q
        by_cases hq : q = id
        · subst hq
          simp [Node.receive]
        · simp [hq]
      refine ⟨_, .send hx rfl, ?_, fun q hq => ?_⟩
      · rw [hcode, Function.update_self]
      · rw [hcode, Function.update_of_ne hq]

/-! ## Nothing relies on room -/

/-- A message that `p` has sent at `t` has not been read into a buffer. -/
def Cluster.Unread (c : Cluster P Id T S O) (p : P) (t : T) : Prop :=
  ∃ d, ∃ m : Message P T, m.time = t ∧
    (m ∈ (c d).conn p ∨ (c d).handler p = .slot m ∨ ∃ ptr, (c d).handler p = .write m ptr)

variable (ident write) in
/-- A step, but no peer leaves a section before all that it has sent there has been read. -/
def RendezvousStep (c c' : Cluster P Id T S O) : Prop :=
  CStep ident write c c' ∧ ∀ p t, (c p).code = ⟨t, []⟩ :: (c' p).code → ¬c.Unread p t

omit [DecidableEq Id] [LinearOrder T] in
/-- What has not been read is on its way. -/
theorem Sim.mem_link_of_unread {c : Cluster P Id T S O} {a : State P T Key Bytes S O}
    (h : Sim ident write c a) {p : P} {t : T} (hu : c.Unread p t) :
    ∃ d, ∃ m ∈ a.link p d, m.time = t := by
  obtain ⟨d, m, htime, hm⟩ := hu
  obtain ⟨D, hD⟩ := (h d).pipes
  refine ⟨d, m.packet, ?_, htime⟩
  rw [hD.link p]
  refine List.mem_map_of_mem (List.mem_append.mpr ?_)
  rcases hm with hm | hm | ⟨ptr, hm⟩
  · exact .inr hm
  · exact .inl (by simp [hm])
  · exact .inl (by simp [hm])

/-- **A run that is never stuck is not stuck either when no connection has any room.** -/
theorem Sim.rendezvous [WellFoundedLT T] {c : Cluster P Id T S O} {a : State P T Key Bytes S O}
    (h : Sim ident write c a) (hm : Matched a) (he : Excl ident a) (hf : ¬c.Final) :
    ∃ c', RendezvousStep ident write c c' := by
  -- a step of a peer that does not join
  have hinside : ∀ {p t l bs x'}, (c p).code = ⟨t, l⟩ :: bs → l ≠ [] →
      c.CanMove ident write p x' → ∃ c', RendezvousStep ident write c c' := by
    intro p t l bs x' hc hl hmove
    obtain ⟨c', hs, -, hrest⟩ := hmove.exists_step
    refine ⟨c', hs, fun q u hq => ?_⟩
    by_cases hqp : q = p
    · subst hqp
      rw [hc] at hq
      simp [hl] at hq
    · rw [hrest q hqp] at hq
      simp at hq
  rcases hm.progress_received fun hfin => hf (h.final hfin) with
    ⟨p, t, bs, hb, hlink⟩ | ⟨p, t, l₁, j, l₂, bs, hb, hready⟩
  · obtain ⟨l, bs', hc, hjobs⟩ := h.exists_code hb
    cases l with
    | nil =>
        have hmove : c.CanMove ident write p { c p with code := bs' } := .tau (.join hc)
        obtain ⟨c', hs, -, hrest⟩ := hmove.exists_step
        refine ⟨c', hs, fun q u hq hu => ?_⟩
        by_cases hqp : q = p
        · subst hqp
          rw [hc] at hq
          simp only [List.cons.injEq, Par.mk.injEq, and_true] at hq
          obtain ⟨rfl, -⟩ := hq
          obtain ⟨d, m, hmem, htime⟩ := h.mem_link_of_unread hu
          exact hlink d m hmem htime
        · rw [hrest q hqp] at hq
          simp at hq
    | cons th l =>
        simp only [Node.jobs, List.map_eq_nil_iff, List.filter_eq_nil_iff] at hjobs
        rw [← List.nil_append (th :: l)] at hc
        obtain ⟨x', hmove, -⟩ :=
          h.served_step hc (by simpa using hjobs th List.mem_cons_self)
        exact hinside hc (by simp) hmove
  · obtain ⟨l, bs', hc, hjobs⟩ := h.exists_code hb
    have hj : j ∈ (c p).jobs ident write t l := by
      rw [hjobs]
      simp
    obtain ⟨th, hth, rfl⟩ := List.mem_map.mp hj
    obtain ⟨hth, hlive⟩ := List.mem_filter.mp hth
    obtain ⟨r₁, r₂, rfl⟩ := List.append_of_mem hth
    obtain ⟨x', hmove, -⟩ := h.thread_step hm he hc hlive hready
    exact hinside hc (by simp) hmove

/-! ## No pool is too small -/

/-- A move of a handler, of the join, or of one of the first `k` threads that are left: `k` workers
take the threads of a section in turn, so these are running. -/
inductive Node.Served (k : ℕ) (x x' : Node P Id T S O) : Prop where
  | other : x'.code = x.code → Served k x x'
  | join {t : T} : x.code = ⟨t, []⟩ :: x'.code → Served k x x'
  | thread {t : T} {l₁ l₂ ths : List (Thread P T S O)} {th : Thread P T S O}
      {bs : List (Par P T S O)} :
      x.code = ⟨t, l₁ ++ th :: l₂⟩ :: bs → l₁.length < k → x'.code = ⟨t, l₁ ++ ths ++ l₂⟩ :: bs →
      Served k x x'

omit [DecidableEq P] [DecidableEq Id] [LinearOrder T] in
theorem Node.Served.congr {k : ℕ} {x x' y : Node P Id T S O} (h : x.Served k x')
    (hcode : y.code = x'.code) : x.Served k y := by
  cases h with
  | other h => exact .other (hcode.trans h)
  | join h => exact .join (by rw [h, hcode])
  | thread h hlt h' => exact .thread h hlt (hcode.trans h')

omit [DecidableEq P] [DecidableEq Id] [LinearOrder T] in
theorem Node.MovesAt.served {k : ℕ} {x x' : Node P Id T S O} {t : T}
    {l₁ l₂ : List (Thread P T S O)} {bs : List (Par P T S O)} (h : x.MovesAt t l₁ l₂ bs x')
    {th : Thread P T S O} (hc : x.code = ⟨t, l₁ ++ th :: l₂⟩ :: bs) (hlt : l₁.length < k) :
    x.Served k x' := by
  rcases h with h | ⟨ths, h⟩
  · exact .other h
  · exact .thread hc hlt h

variable (ident write) in
/-- A step of peers that run their sections on pools of `k` threads. -/
def PoolStep (k : ℕ) (c c' : Cluster P Id T S O) : Prop :=
  CStep ident write c c' ∧ ∀ p, (c p).Served k (c' p)

/-- The peer a thread sends to. -/
def Thread.to? : Thread P T S O → Option P
  | .send id _ _ _ => some id
  | _ => none

/-- A thread that receives from `s` stands before one that sends to `d` only if `s` comes before
`d`. -/
def Par.InOrder (num : P → ℕ) (b : Par P T S O) : Prop :=
  b.threads.Pairwise fun th th' => ∀ s ∈ th.from?, ∀ d ∈ th'.to?, num s < num d

omit [DecidableEq P] [LinearOrder T] in
theorem Par.InOrder.block {num : P → ℕ} {b : Par P T S O} (h : b.InOrder num) :
    (b.block write).InOrder num := by
  refine List.pairwise_map.mpr (List.Pairwise.imp ?_ h)
  intro th th' hlt s k g d k' f hfrom hto
  refine hlt s ?_ d ?_
  · cases th <;> simp_all [Thread.job, Thread.from?]
  · cases th' <;> simp_all [Thread.job, Thread.to?]

/-- **A run that is never stuck is not stuck either when every section has one thread.** -/
theorem Sim.pool [WellFoundedLT T] {c : Cluster P Id T S O} {a : State P T Key Bytes S O}
    (h : Sim ident write c a) (hm : Matched a) (he : Excl ident a) (num : P → ℕ)
    (hord : ∀ p, ∀ b ∈ (a.proc p).blocks, b.InOrder num) (hf : ¬c.Final) {k : ℕ} (hk : 0 < k) :
    ∃ c', PoolStep ident write k c c' := by
  suffices hmove : ∃ p x', c.CanMove ident write p x' ∧ (c p).Served k x' by
    obtain ⟨p, x', hmove, hserved⟩ := hmove
    obtain ⟨c', hs, hcode, hrest⟩ := hmove.exists_step
    refine ⟨c', hs, fun q => ?_⟩
    by_cases hq : q = p
    · subst hq
      exact hserved.congr hcode
    · exact .other (hrest q hq)
  obtain ⟨p, t, bs, hb⟩ := hm.progress_inOrder hord fun hfin => hf (h.final hfin)
  obtain ⟨js, hb, hready⟩ : ∃ js, (a.proc p).blocks = ⟨t, js⟩ :: bs ∧
      ∀ j ∈ js.head?, Ready a p j := by
    rcases hb with hb | ⟨j, js, hb, hready⟩
    · exact ⟨[], hb, by simp⟩
    · exact ⟨j :: js, hb, by simpa using hready⟩
  obtain ⟨l, bs', hc, hjobs⟩ := h.exists_code hb
  cases l with
  | nil => exact ⟨p, { c p with code := bs' }, .tau (.join hc), .join hc⟩
  | cons th l =>
      -- the first thread is served, or its job is the first of the block
      rw [← List.nil_append (th :: l)] at hc
      suffices hth : ∃ x', c.CanMove ident write p x' ∧ (c p).MovesAt t [] l bs' x' by
        obtain ⟨x', hmove, hat⟩ := hth
        exact ⟨p, x', hmove, hat.served hc hk⟩
      cases hlive : (c p).live ident th with
      | false => exact h.served_step hc hlive
      | true =>
          refine h.thread_step hm he hc hlive (hready _ ?_)
          rw [← hjobs, Node.jobs, List.filter_cons_of_pos hlive]
          simp

end Runs

/-! ## Programs of collectives -/

section Sections

variable {P T : Type} {n : ℕ} {num : P → ℕ}

/-- Threads none of which sends, or none of which receives. -/
theorem Par.inOrder_of_uniform {t : T} {ths : List (Thread P T Store Bytes)}
    (h : (∀ th ∈ ths, th.to? = none) ∨ ∀ th ∈ ths, th.from? = none) :
    (⟨t, ths⟩ : Par P T Store Bytes).InOrder num := by
  refine List.pairwise_of_forall_mem_list fun th hth th' hth' s hs d hd => ?_
  rcases h with h | h
  · simp [h th' hth'] at hd
  · simp [h th hth] at hs

theorem to?_recvTask (w : Workspace) (reduce : Bool) (id : P) :
    (recvTask w reduce id : Thread P T Store Bytes).to? = none := by
  unfold recvTask
  split
  · split <;> rfl
  · rfl

/-- A section of `run_graphs_multi_thread` receives or sends. -/
theorem inOrder_runGraphs {peers : Fin n → P} {rank : Fin n} {w : Workspace} {gs : List (Graph n)}
    {t : T} {ths : List (Thread P T Store Bytes)}
    (h : ths ∈ runGraphsMultiThread peers rank w gs) :
    (⟨t, ths⟩ : Par P T Store Bytes).InOrder num := by
  have hrecv : ∀ (b : Bool) (l : List P),
      (⟨t, l.map (recvTask w b)⟩ : Par P T Store Bytes).InOrder num := fun b l =>
    Par.inOrder_of_uniform (.inl (by simp [to?_recvTask]))
  have hsend : ∀ (b : Bool) (l : List P),
      (⟨t, l.map (sendTask w b)⟩ : Par P T Store Bytes).InOrder num := fun b l =>
    Par.inOrder_of_uniform (.inr (by simp [sendTask, Thread.from?]))
  have hact : ∀ f, (⟨t, [.act f]⟩ : Par P T Store Bytes).InOrder num := fun f =>
    Par.inOrder_of_uniform (.inl (by simp [Thread.to?]))
  rcases List.mem_cons.mp h with rfl | h
  · exact hact _
  obtain ⟨g, -, hg⟩ := List.mem_flatMap.mp h
  unfold runGraph at hg
  split at hg
  · simp only [List.mem_cons, List.not_mem_nil, or_false] at hg
    rcases hg with rfl | rfl
    · exact hrecv _ _
    · exact hsend _ _
  · rcases List.mem_append.mp hg with hg | hg
    · split at hg
      · obtain rfl := List.mem_singleton.mp hg
        exact hact _
      · obtain ⟨id, -, rfl⟩ := List.mem_map.mp hg
        exact hrecv false [id]
    · obtain rfl := List.mem_singleton.mp hg
      exact hsend _ _

/-- The sections of a transfer have one thread. -/
theorem SendCall.inOrder_sections (c : SendCall n) {num : Fin n → ℕ} {rank : Fin n} {t : T}
    {ths : List (Thread (Fin n) T Store Bytes)} (h : ths ∈ c.sections rank) :
    (⟨t, ths⟩ : Par (Fin n) T Store Bytes).InOrder num := by
  simp only [sections, List.mem_append, List.mem_ite_nil_right, List.mem_singleton] at h
  rcases h with ⟨-, rfl⟩ | ⟨-, rfl⟩
  · exact Par.inOrder_of_uniform (.inr (by simp [sessionSend, Thread.from?]))
  · exact Par.inOrder_of_uniform (.inl (by simp [sessionRecv, Thread.to?]))

theorem index_of_from? {rank s : Fin n} {g : GatherArgs} {i : ℕ}
    (h : (allGatherTask id rank g i : Thread (Fin n) T Store Bytes).from? = some s) :
    i = 2 * s + 1 := by
  unfold allGatherTask at h
  split_ifs at h with h₁ h₂ h₃ h₄ <;>
    simp only [Thread.from?, id_eq, Option.some.injEq, reduceCtorEq] at h
  have hval : i / 2 = s.val := congrArg Fin.val h
  omega

theorem index_of_to? {rank d : Fin n} {g : GatherArgs} {i : ℕ}
    (h : (allGatherTask id rank g i : Thread (Fin n) T Store Bytes).to? = some d) :
    i = 2 * d := by
  unfold allGatherTask at h
  split_ifs at h with h₁ h₂ h₃ h₄ <;>
    simp only [Thread.to?, id_eq, Option.some.injEq, reduceCtorEq] at h
  have hval : i / 2 = d.val := congrArg Fin.val h
  omega

/-- In `all_gather` the receive from rank `q` stands right after the send to rank `q`. -/
theorem inOrder_allGather (hn : n < 2 ^ 30) (rank : Fin n) (g : GatherArgs) (t : T) :
    (⟨t, allGather id rank g⟩ : Par (Fin n) T Store Bytes).InOrder Fin.val := by
  rw [Par.InOrder, allGather_eq hn]
  refine List.pairwise_map.mpr (List.pairwise_lt_range.imp ?_)
  intro i i' hlt s hs d hd
  have hi := index_of_from? hs
  have hi' := index_of_to? hd
  omega

end Sections

section Programs

variable {n : ℕ} [NeZero n] {s : Strategy} {prog : List (Instr n)}

/-- Every section of a program keeps the order of the ranks. -/
theorem peerProgram_inOrder (hn : n < 2 ^ 30) (r : Fin n) {b : Par (Fin n) Stamp Store Bytes}
    (hb : b ∈ peerProgram s prog r) : b.InOrder Fin.val := by
  obtain ⟨k, ins, -, hb⟩ := mem_stepsFrom hb
  obtain ⟨j, st, hj, hb⟩ := mem_stepsFrom hb
  obtain ⟨i, hi, rfl⟩ := List.mem_mapIdx.mp hb
  rw [Instr.steps_eq] at hj
  obtain ⟨st, -, rfl⟩ := List.mem_map.mp (List.mem_of_getElem? hj)
  have hmem := List.getElem_mem hi
  cases st with
  | work f | observe f =>
      rw [List.mem_singleton.mp hmem]
      exact Par.inOrder_of_uniform (.inr (by simp [Thread.from?]))
  | part a op e | broadcast a => exact inOrder_runGraphs hmem
  | gather a =>
      rw [List.mem_singleton.mp hmem]
      exact inOrder_allGather hn r _ _
  | transfer c => exact c.inOrder_sections hmem

variable {ident : Fin n → PeerId} {σ : Fin n → Store}
variable {x : Cluster (Fin n) PeerId Stamp Store Bytes}

/-- In the middle of a sum over the star: peer 1 has sent its number, and the others have not
begun. -/
theorem sumRanks_ahead : ∃ x : Cluster (Fin 3) PeerId Stamp Store Bytes,
    CReach (genPeers 3) Store.writeBody (peerProgram .star (sumRanks 3)) (fun _ => ⟨fun _ => 0, 0⟩) x ∧
      x.Unread 1 (Stamp.at 1 (Time.at 0 2)) ∧ ¬x.Final := by
  obtain ⟨y, w, bs, hrun, hcode⟩ := sumRanks_send ⟨fun _ => 0, 0⟩
  have hy : CReach (genPeers 3) Store.writeBody (peerProgram .star (sumRanks 3))
      (fun _ => ⟨fun _ => 0, 0⟩) _ := CReach.node .refl hrun
  have hnext : y.code = ⟨Stamp.at 1 (Time.at 0 2), [] ++ sendTask w true 0 :: []⟩ :: bs := hcode
  have hx := hy.tail (.send (p := 1) (.send hnext) rfl)
  refine ⟨_, hx, ⟨0, _, ?_, .inl (List.mem_append_right _ (List.mem_singleton_self _))⟩, fun hf => ?_⟩
  · rfl
  · exact List.cons_ne_nil _ _ (hf 2)

end Programs

end StdmlCollective

import StdmlCollective.Program

/-!
# Collectives synchronise

A peer that is through with an `all_reduce` or an `all_gather` knows that every peer has begun it,
one that is through with a `broadcast` knows it of peer 0, and one that is through with a `recv`
knows it of the sender. `session::barrier` rests on this: it is an `all_reduce` and nothing else.

What a peer knows comes along the messages: over the star through the root, over the ring once
round the reduce path and once round the broadcast path.
-/

namespace StdmlCollective

open BlockNet
open Memory (Mem)

variable {T O : Type} {n : ℕ} [NeZero n]

/-! ## Along a path -/

section Path

variable [LinearOrder T] {prog : Fin n → List (Block (Fin n) T Key Bytes Store O)}
variable {σ : Fin n → Store} {c : State (Fin n) T Key Bytes Store O}

/-- **Along a path**, on which every vertex receives from the one before it: when a vertex has
passed its receive, all before it have passed theirs. -/
theorem path_heard (hc : Reach prog σ c) (hmat : Matched c) (hp : Compat prog) {s : ℕ} {f : ℕ → T}
    (hf : StrictMono f)
    (hrecv : ∀ u v, pos s v = pos s u + 1 → ∃ k, (f (pos s v), k) ∈ recvs (prog v) u)
    {q : Fin n} (hq : Passed c q (f (pos s q))) :
    ∀ u, pos s u ≤ pos s q → Passed c u (f (pos s u)) := by
  -- from vertex `q` back to the start
  suffices h : ∀ d u, pos s u + d = pos s q → Passed c u (f (pos s u)) from
    fun u hu => h (pos s q - pos s u) u (by omega)
  intro d
  induction d with
  | zero =>
      intro u hu
      obtain rfl := pos_injective s hu
      exact hq
  | succ d ih =>
      intro u hu
      have hlt := pos_lt s q
      have hnext : pos s (Fin.ofNat n (s + (pos s u + 1))) = pos s u + 1 := pos_ofNat s (by omega)
      have hpassed := ih _ (by rw [hnext]; omega)
      obtain ⟨k, hk⟩ := hrecv u _ hnext
      have hreached := (hmat.reached_of_recvs hc hp hk hpassed).1
      rw [hnext] at hreached
      intro b hb
      exact (hf (Nat.lt_succ_self _)).trans_le (hreached b hb)

variable {lab : ℕ → T} {w : Fin n → Workspace} {name : Bytes}

/-- **A vertex that is through a part over the ring knows that every vertex has begun it.** -/
theorem ring_synced (hc : Reach prog σ c) (hmat : Matched c) (hp : Compat prog)
    (hlab : StrictMono lab) {r : ℕ} {f : ℕ → ℕ → ℕ} (hw : ∀ v, PartOk w name v f)
    (hsub : ∀ v, blocks Store.writeBody (ringRun lab r w v) ⊆ prog v) {q : Fin n}
    (hq : Passed c q (lab (n + 3 + pos r q))) (v : Fin n) : Passed c v (lab 0) := by
  have hn := Nat.pos_of_ne_zero (NeZero.ne n)
  have hup : ∀ u v, pos (r + 1) v = pos (r + 1) u + 1 →
      (lab (pos (r + 1) v + 1), (name, false)) ∈ recvs (prog v) u := by
    intro u v huv
    refine List.mem_flatMap.mpr ⟨⟨lab (pos (r + 1) v + 1), (pathPrev (r + 1) v).map fun q =>
      .recv q (name, false) ((w v).addTo f)⟩, hsub v ?_, ?_⟩
    · rw [ringRun_blocks lab r hw]
      simp
    · rw [Block.recvs_map _ (nodup_pathPrev _ v) _ fun _ => (w v).addTo f,
        if_pos (mem_pathPrev.mpr huv)]
      exact List.mem_singleton_self _
  have hdown : ∀ u v, pos r v = pos r u + 1 →
      (lab (n + 3 + pos r v), (name, true)) ∈ recvs (prog v) u := by
    intro u v huv
    refine List.mem_flatMap.mpr ⟨⟨lab (n + 3 + pos r v), relayJobs r name (w v) v⟩, hsub v ?_, ?_⟩
    · rw [ringRun_blocks lab r hw]
      simp
    · rw [relayJobs_recvs, if_pos huv]
      exact List.mem_singleton_self _
  -- back along the broadcast path, to the root
  have hzero : pos r (Fin.ofNat n r) = 0 := pos_eq_zero_iff.mpr rfl
  have hroot := path_heard (s := r) (f := fun i => lab (n + 3 + i)) hc hmat hp
    (fun i j hij => hlab (by omega)) (fun u v huv => ⟨_, hdown u v huv⟩) hq (Fin.ofNat n r)
    (by omega)
  -- back along the reduce path, from the root to every vertex
  have hlast := pos_succ_eq_iff.mpr (rfl : Fin.ofNat n r = Fin.ofNat n r)
  have hlt := pos_lt (r + 1) v
  have hpassed := path_heard (s := r + 1) (f := fun i => lab (i + 1)) hc hmat hp
    (fun i j hij => hlab (by omega)) (fun u v huv => ⟨_, hup u v huv⟩) (q := Fin.ofNat n r)
    (fun b hb => (hlab (by omega)).trans (hroot b hb)) v (by omega)
  intro b hb
  exact (hlab (by omega)).trans (hpassed b hb)

/-- A vertex that is through a `broadcast` over the ring knows that vertex 0 has begun it. -/
theorem ringBroadcast_synced (hc : Reach prog σ c) (hmat : Matched c) (hp : Compat prog)
    (hlab : StrictMono lab) (hw : Agree w name)
    (hsub : ∀ v, blocks Store.writeBody (ringBroadcastRun lab w v) ⊆ prog v) {q : Fin n}
    (hq : Passed c q (lab (1 + pos 0 q))) : Passed c 0 (lab 0) := by
  have hrecv : ∀ u v, pos 0 v = pos 0 u + 1 →
      (lab (1 + pos 0 v), (name, true)) ∈ recvs (prog v) u := by
    intro u v huv
    refine List.mem_flatMap.mpr ⟨⟨lab (1 + pos 0 v), relayJobs 0 name (w v) v⟩, hsub v ?_, ?_⟩
    · rw [ringBroadcastRun_blocks lab hw]
      simp
    · rw [relayJobs_recvs, if_pos huv]
      exact List.mem_singleton_self _
  have hzero : pos 0 (0 : Fin n) = 0 := pos_eq_zero_iff.mpr rfl
  have hpassed := path_heard (s := 0) (f := fun i => lab (1 + i)) hc hmat hp
    (fun i j hij => hlab (by omega)) (fun u v huv => ⟨_, hrecv u v huv⟩) hq 0 (by omega)
  intro b hb
  exact (hlab (by omega)).trans (hpassed b hb)

omit [NeZero n] in
/-- A leaf that is through a `broadcast` over the star knows that the root has begun it. -/
theorem starBroadcast_synced (hc : Reach prog σ c) (hmat : Matched c) (hp : Compat prog)
    (hlab : StrictMono lab) (hw : Agree w name) {root : Fin n}
    (hsub : ∀ v, blocks Store.writeBody (starBroadcastRun lab id some root w v) ⊆ prog v)
    {q : Fin n} (hq : Passed c q (lab 2)) : Passed c root (lab 0) := by
  by_cases hne : q = root
  · subst hne
    exact fun b hb => (hlab (by omega)).trans (hq b hb)
  · have hrecv : (lab 2, (name, true)) ∈ recvs (prog q) root := by
      refine List.mem_flatMap.mpr ⟨⟨lab 2, [root].map fun s =>
        .recv s (name, true) (Store.writeBody (w q).recv)⟩, hsub q ?_, ?_⟩
      · rw [starBroadcastRun_blocks lab hw]
        simp [hne]
      · rw [Block.recvs_map _ (List.nodup_singleton _) _ fun _ => Store.writeBody (w q).recv,
          if_pos (List.mem_singleton_self _)]
        exact List.mem_singleton_self _
    intro b hb
    exact (hlab (by omega)).trans_le ((hmat.reached_of_recvs hc hp hrecv hq).1 b hb)

omit [NeZero n] [LinearOrder T] in
/-- In an `all_gather` every member receives from every other one. -/
theorem allGather_hears (hn : n < 2 ^ 30) {t : T} {g : Fin n → GatherArgs} (hg : GatherOk g name)
    {q v : Fin n} {bs : List (Block (Fin n) T Key Bytes Store O)}
    (hsub : blocks Store.writeBody (allGatherRun t id some g q) ⊆ bs) (hne : v ≠ q) :
    (t, (name, true)) ∈ recvs bs v := by
  refine List.mem_flatMap.mpr ⟨⟨t, (List.range (n * 2)).map fun idx =>
    Thread.job Store.writeBody t (allGatherTask id q (g q) idx)⟩, hsub ?_, ?_⟩
  · rw [allGatherRun_blocks hn]
    exact List.mem_singleton_self _
  · rw [Block.recvs, allGather_recvKey members_id hg, if_pos]
    · exact List.mem_singleton_self _
    · exact (gatherIdx_lt (by omega)).mpr ⟨v, rfl, hne⟩

omit [NeZero n] in
/-- A member that is through an `all_gather` knows that every other one has sent to it. -/
theorem allGather_synced (hc : Reach prog σ c) (hmat : Matched c) (hp : Compat prog)
    (hn : n < 2 ^ 30) {t : T} {g : Fin n → GatherArgs} (hg : GatherOk g name)
    (hsub : ∀ v, blocks Store.writeBody (allGatherRun t id some g v) ⊆ prog v) {q : Fin n}
    (hq : Passed c q t) {v : Fin n} (hne : v ≠ q) :
    (∀ b ∈ (c.proc v).blocks, t ≤ b.time) ∧ (t, (name, true)) ∈ sends (prog v) q ∧
      (t, (name, true)) ∉ sends (c.proc v).blocks q := by
  have hmem := allGather_hears hn hg (hsub q) hne
  obtain ⟨hreached, hsent⟩ := hmat.reached_of_recvs hc hp hmem hq
  rw [← hp.matched] at hmem
  exact ⟨hreached, hmem, hsent⟩

end Path

/-! ## In a program -/

/-- The peers `q` that peer `r` waits for in an instruction. -/
def Instr.Awaits (r q : Fin n) : Instr n → Prop
  | .allReduce _ _ | .allGather _ => True
  | .broadcast _ => q = 0
  | .transfer c => r = c.dst ∧ q = c.src
  | .work _ | .observe _ => False

theorem Stamp.version_le {t u : Stamp} (h : t ≤ u) : t.version ≤ u.version := by
  by_contra hlt
  exact absurd h (not_le.mpr (Stamp.lt_of_version_lt (not_le.mp hlt)))

section Program

variable {s : Strategy} {prog : List (Instr n)} {σ : Fin n → Store}

omit [NeZero n] in
/-- An `all_reduce` of something has a part. -/
theorem Instr.first_part {a : CallArgs n} (op : ReduceOp) (hpos : 0 < a.count) :
    ∃ e, (Instr.allReduce a op).stages[0]? = some (.part a op e) := by
  obtain ⟨e, l, he⟩ : ∃ e l, a.parts = e :: l := by
    refine List.exists_cons_of_ne_nil fun hnil => ?_
    have hcovers := (a.reduce op fun _ _ => 0).parts_covers hpos
    have hparts : (a.reduce op fun _ _ => 0).parts = a.parts := rfl
    have hcount : (a.reduce op fun _ _ => 0).count = a.count := rfl
    rw [hparts, hnil, hcount] at hcovers
    generalize a.count = m at hcovers hpos
    cases hcovers
    omega
  exact ⟨e, by simp [Instr.stages, he]⟩

/-- The blocks of a stage are in the program. -/
theorem stage_subset {k j : ℕ} {ins : Instr n} (hk : prog[k]? = some ins) {st : Stage n}
    (hj : ins.stages[j]? = some st) (r : Fin n) :
    blocks Store.writeBody (st.run s k (fun i => Stamp.at k (Time.at j i)) r) ⊆
      blocks Store.writeBody (peerProgram s prog r) := by
  intro b hb
  rw [peerProgram_blocks]
  refine mem_stepsFrom_of_getElem hk ?_
  rw [Nat.zero_add, Instr.run_blocks]
  exact mem_stepsFrom_of_getElem hj (by rwa [Nat.zero_add])

/-- **In the network**, a process that is through with an instruction knows that all it waits for
there are past its first section, or are in that section and have sent to it. -/
theorem Instr.heard (hn : n < 2 ^ 30) (hlegal : ∀ ins ∈ prog, ins.Legal)
    {c : State (Fin n) Stamp Key Bytes Store Bytes}
    (hc : Reach (fun r => blocks Store.writeBody (peerProgram s prog r)) σ c) {k : ℕ}
    {ins : Instr n} (hk : prog[k]? = some ins) {r q : Fin n}
    (hr : ∀ b ∈ (c.proc r).blocks, k < b.time.version) (hq : ins.Awaits r q) :
    Passed c q (Stamp.at k (Time.at 0 0)) ∨
      (∀ b ∈ (c.proc q).blocks, Stamp.at k (Time.at 0 0) ≤ b.time) ∧
        ∃ key, (Stamp.at k (Time.at 0 0), key) ∈
            sends (blocks Store.writeBody (peerProgram s prog q)) r ∧
          (Stamp.at k (Time.at 0 0), key) ∉ sends (c.proc q).blocks r := by
  have hcompat := peerProgram_compat (s := s) hn hlegal
  have hmat := hcompat.matched_reach hc
  have hins := hlegal ins (List.mem_of_getElem? hk)
  have hlab : StrictMono fun i => Stamp.at k (Time.at 0 i) :=
    (Stamp.at_strictMono k).comp (Time.at_strictMono 0)
  have hpassed : ∀ i, Passed c r (Stamp.at k (Time.at 0 i)) :=
    fun i b hb => Stamp.lt_of_version_lt (hr b hb)
  cases ins with
  | work f | observe f => exact absurd hq id
  | allReduce a op =>
      obtain ⟨hpos, hname, hop⟩ := hins
      obtain ⟨f, hf⟩ := Option.isSome_iff_exists.mp hop
      obtain ⟨e, hj⟩ := Instr.first_part op hpos
      have hpart := CallArgs.partOk hname hf (fun _ _ => 0) e
      have hsub := stage_subset (s := s) hk hj
      cases s with
      | star =>
          simp only [Stage.run_part_star _ _ _ _ _ fun _ _ => 0] at hsub
          refine .inl fun b hb => (hlab (by omega : 0 < 2)).trans_le ?_
          exact star_synced hlab members_id (hpart 0) hc hmat (fun p => hcompat.valid p) hsub
            (hpassed 5) q b hb
      | ring =>
          simp only [Stage.run_part_ring _ _ _ _ _ fun _ _ => 0] at hsub
          exact .inl (ring_synced hc hmat hcompat hlab hpart hsub (hpassed _) q)
  | allGather a =>
      have hsub := stage_subset (s := s) hk (rfl : (Instr.allGather a).stages[0]? = _)
      simp only [Stage.run_gather _ _ _ fun _ _ => 0] at hsub
      by_cases hne : q = r
      · subst hne
        exact .inl (hpassed 0)
      · obtain ⟨hreached, hmem, hsent⟩ := allGather_synced hc hmat hcompat hn
          (CallArgs.gatherOk hins _) hsub (hpassed 0) hne
        exact .inr ⟨hreached, _, hmem, hsent⟩
  | broadcast a =>
      obtain rfl : q = 0 := hq
      have hagree := CallArgs.agree hins fun _ _ => 0
      have hsub := stage_subset (s := s) hk (rfl : (Instr.broadcast a).stages[0]? = _)
      cases s with
      | star => exact .inl (starBroadcast_synced hc hmat hcompat hlab hagree hsub (hpassed 2))
      | ring =>
          simp only [Stage.run_broadcast_ring _ _ _ fun _ _ => 0] at hsub
          exact .inl (ringBroadcast_synced hc hmat hcompat hlab hagree hsub (hpassed _))
  | transfer t =>
      obtain ⟨rfl, rfl⟩ := hq
      have hsub := stage_subset (s := s) hk (rfl : (Instr.transfer t).stages[0]? = _)
      obtain ⟨b, hb, htag⟩ := List.mem_flatMap.mp
        (SendCall.mem_sends (fun i => Stamp.at k (Time.at 0 i)) hins)
      have hmem : (Stamp.at k (Time.at 0 0), (t.name, true)) ∈
          sends (blocks Store.writeBody (peerProgram s prog t.src)) t.dst :=
        List.mem_flatMap.mpr ⟨b, hsub t.src hb, htag⟩
      have hrecv := hmem
      rw [hcompat.matched] at hrecv
      obtain ⟨hreached, hsent⟩ := hmat.reached_of_recvs hc hcompat hrecv (hpassed 0)
      exact .inr ⟨hreached, _, hmem, hsent⟩

/-- A process that is through with an instruction knows that all it waits for there have begun
it. -/
theorem Instr.synced (hn : n < 2 ^ 30) (hlegal : ∀ ins ∈ prog, ins.Legal)
    {c : State (Fin n) Stamp Key Bytes Store Bytes}
    (hc : Reach (fun r => blocks Store.writeBody (peerProgram s prog r)) σ c) {k : ℕ}
    {ins : Instr n} (hk : prog[k]? = some ins) {r q : Fin n}
    (hr : ∀ b ∈ (c.proc r).blocks, k < b.time.version) (hq : ins.Awaits r q) :
    ∀ b ∈ (c.proc q).blocks, k ≤ b.time.version := by
  intro b hb
  rcases Instr.heard hn hlegal hc hk hr hq with hpast | ⟨hreached, -⟩
  · exact Stamp.version_le (hpast b hb).le
  · exact Stamp.version_le (hreached b hb)

/-- A peer that others wait for in an instruction has a first section there. -/
theorem Instr.first_block (hn : n < 2 ^ 30) (hlegal : ∀ ins ∈ prog, ins.Legal) {k : ℕ} {ins : Instr n}
    (hk : prog[k]? = some ins) {p q : Fin n} (hp : ins.Awaits p q) :
    ∃ b ∈ blocks Store.writeBody (peerProgram s prog q), b.time = Stamp.at k (Time.at 0 0) := by
  have hins := hlegal ins (List.mem_of_getElem? hk)
  suffices hstage : ∃ st, ins.stages[0]? = some st ∧
      ∃ b ∈ blocks Store.writeBody (st.run s k (fun i => Stamp.at k (Time.at 0 i)) q),
        b.time = Stamp.at k (Time.at 0 0) by
    obtain ⟨st, hj, b, hb, htime⟩ := hstage
    exact ⟨b, stage_subset hk hj q hb, htime⟩
  cases ins with
  | work f | observe f => exact absurd hp id
  | allReduce a op =>
      obtain ⟨hpos, hname, hop⟩ := hins
      obtain ⟨f, hf⟩ := Option.isSome_iff_exists.mp hop
      obtain ⟨e, hj⟩ := Instr.first_part op hpos
      have hpart := CallArgs.partOk hname hf (fun _ _ => 0) e
      refine ⟨_, hj, ?_⟩
      cases s with
      | star =>
          rw [Stage.run_part_star _ _ _ _ _ fun _ _ => 0, starRun_blocks _ (hpart 0)]
          by_cases hq : q = 0
          · simp only [if_pos hq]
            exact ⟨_, List.mem_cons_self, rfl⟩
          · simp only [if_neg hq]
            exact ⟨_, List.mem_cons_self, rfl⟩
      | ring =>
          rw [Stage.run_part_ring _ _ _ _ _ fun _ _ => 0, ringRun_blocks _ _ hpart]
          exact ⟨_, List.mem_cons_self, rfl⟩
  | allGather a =>
      refine ⟨_, rfl, ?_⟩
      rw [Stage.run_gather _ _ _ fun _ _ => 0, allGatherRun_blocks hn]
      exact ⟨_, List.mem_cons_self, rfl⟩
  | broadcast a =>
      have hagree := CallArgs.agree hins fun _ _ => 0
      refine ⟨_, rfl, ?_⟩
      cases s with
      | star =>
          rw [Stage.run_broadcast_star _ _ _ fun _ _ => 0, starBroadcastRun_blocks _ hagree]
          by_cases hq : q = 0
          · simp only [if_pos hq]
            exact ⟨_, List.mem_cons_self, rfl⟩
          · simp only [if_neg hq]
            exact ⟨_, List.mem_cons_self, rfl⟩
      | ring =>
          rw [Stage.run_broadcast_ring _ _ _ fun _ _ => 0, ringBroadcastRun_blocks _ hagree]
          exact ⟨_, List.mem_cons_self, rfl⟩
  | transfer t =>
      refine ⟨_, rfl, ?_⟩
      rw [hp.2]
      obtain ⟨b, hb, htime, -⟩ := time_of_mem_sends (SendCall.mem_sends
        (fun i => Stamp.at k (Time.at 0 i)) hins)
      exact ⟨b, hb, htime⟩

/-- **No process is through with an instruction before all it waits for have taken a step.** -/
theorem Instr.begun (hn : n < 2 ^ 30) (hlegal : ∀ ins ∈ prog, ins.Legal)
    {c : State (Fin n) Stamp Key Bytes Store Bytes}
    (hc : Reach (fun r => blocks Store.writeBody (peerProgram s prog r)) σ c) {k : ℕ}
    {ins : Instr n} (hk : prog[k]? = some ins) {r q : Fin n}
    (hr : ∀ b ∈ (c.proc r).blocks, k < b.time.version) (hq : ins.Awaits r q) :
    (c.proc q).blocks ≠ blocks Store.writeBody (peerProgram s prog q) := by
  intro hall
  rcases Instr.heard hn hlegal hc hk hr hq with hpast | ⟨-, key, hmem, hsent⟩
  · obtain ⟨b, hb, htime⟩ := Instr.first_block hn hlegal hk hq
    rw [← hall] at hb
    exact absurd (htime ▸ hpast b hb) (lt_irrefl _)
  · -- what `q` sends to `r` is still to be sent, and `r` is through with it
    rw [hall] at hsent
    exact hsent hmem

/-- **Collectives synchronise.** In every state of every run, when some peer is past an
`all_reduce` or an `all_gather`, every peer has done all that comes before it; when some peer is
past a `broadcast`, peer 0 has; and when the receiver is past a transfer, the sender has. -/
theorem program_synchronized {ident : Fin n → PeerId} (hid : Function.Injective ident)
    (hn : n < 2 ^ 30) (hlegal : ∀ ins ∈ prog, ins.Legal)
    {x : Cluster (Fin n) PeerId Stamp Store Bytes}
    (hx : CReach ident Store.writeBody (peerProgram s prog) σ x) {k : ℕ} {ins : Instr n}
    (hk : prog[k]? = some ins) {r q : Fin n} (hr : ∀ b ∈ (x r).code, k < b.time.version)
    (hq : ins.Awaits r q) : ∀ b ∈ (x q).code, k ≤ b.time.version := by
  obtain ⟨a, ha, hsim, -⟩ := program_matched hid hn hlegal hx
  have hblocks : ∀ (p : Fin n) (Q : Stamp → Prop),
      (∀ b ∈ (x p).code, Q b.time) ↔ ∀ b ∈ (a.proc p).blocks, Q b.time := by
    intro p Q
    have htimes := hsim.times p
    have h₁ : (∀ b ∈ (x p).code, Q b.time) ↔ ∀ t ∈ (x p).code.map Par.time, Q t := by simp
    rw [h₁, ← htimes]
    simp
  rw [hblocks q fun t => k ≤ t.version]
  rw [hblocks r fun t => k < t.version] at hr
  exact Instr.synced hn hlegal ha hk hr hq

/-- When peer 0 is past the sum, all three peers have written their numbers. -/
theorem program_synchronized_sumRanks :
    ∃ x : Cluster (Fin 3) PeerId Stamp Store Bytes,
      CReach (genPeers 3) Store.writeBody (peerProgram .ring (sumRanks 3))
        (fun _ => ⟨fun _ => 0, 0⟩) x ∧
      (∀ b ∈ (x 0).code, 1 < b.time.version) ∧ ∀ q, ∀ b ∈ (x q).code, 1 ≤ b.time.version := by
  obtain ⟨x, hx, hfinal⟩ := sumRanks_final .ring
  have hpast : ∀ b ∈ (x 0).code, 1 < b.time.version := by
    simp [hfinal 0]
  exact ⟨x, hx, hpast, fun q => program_synchronized (by decide) (by decide) sumRanks_legal hx
    (k := 1) rfl hpast trivial⟩

/-! `session::barrier` is out of place, so that over a ring it does not add up what the peers give. It
is a barrier all the same. -/

/-- `session::barrier`: a 1 of every peer at `x` is summed into the result at `y`. -/
def barrier (x y : Fin n → Addr) : List (Instr n) :=
  [.work fun r => Memory.write (x r) (LittleEndian.leBytes 4 1),
    .allReduce ⟨1, .u32, [], x, y⟩ .sum]

variable {x y : Fin n → Addr}

omit [NeZero n] in
theorem barrier_legal : ∀ ins ∈ barrier x y, ins.Legal := by
  simp [barrier, Instr.Legal, NulFree, elemOp]

omit [NeZero n] in
theorem barrier_ok (h : ∀ r, Memory.Apart (x r) 4 (y r) 4) : ∀ ins ∈ barrier x y, ins.Ok := by
  simp only [barrier, List.forall_mem_cons, List.not_mem_nil, false_imp_iff, implies_true, and_true]
  exact ⟨trivial, fun M => ⟨le_rfl, rfl, by simp [NulFree, CallArgs.reduce], fun r => .inr (h r)⟩⟩

end Program

end StdmlCollective

import StdmlCollective.AllGather
import StdmlCollective.Broadcast
import StdmlCollective.Lib.Reconfig
import StdmlCollective.Refine.Isolation

/-!
# One session after the other

`peer::join` and `peer::resize` make sessions. A peer that stays keeps its `mailbox`, its
`slotbox` and its connections; a new one is a fresh process that is started when one of the old
workers has committed the new cluster; one that is not among the new workers runs nothing more.
The boxes are keyed by `peer_id` and name, and neither says which session a message belongs to.

The times of the sections say it: a `Stamp` begins with the version of the session. Every message
is consumed by the receive with its own stamp, and when nothing can move any more none is left.
-/

namespace StdmlCollective

open BlockNet Reconfig
open Memory (Mem)

variable {P T O : Type} {n : ℕ}

/-! ## What the members of a session run -/

/-- The operands of an `all_reduce` that the library makes itself, under the empty name. -/
structure Operands (n : ℕ) where
  send : Fin n → Addr
  recv : Fin n → Addr
  mem : Fin n → Mem

def Operands.allReduce (o : Operands n) (count : ℕ) (dt : Dtype) (op : ReduceOp) :
    AllReduceCall n :=
  ⟨count, dt, op, [], o.send, o.recv, o.mem⟩

/-- One round of the loop of `peer::resize`. `digest` is the size of the digests of the peers,
when all of them are of one size. -/
structure Round (n : ℕ) where
  digest : Option ℕ
  minSize : Operands n
  maxSize : Operands n
  min : Operands n
  max : Operands n

/-- The calls `session::consistent` makes on the digests. -/
def Round.calls (r : Round n) : List (AllReduceCall n) :=
  [r.minSize.allReduce 1 .u64 .min, r.maxSize.allReduce 1 .u64 .max] ++
    match r.digest with
    | none | some 0 => []
    | some size => [r.min.allReduce size .u8 .min, r.max.allReduce size .u8 .max]

/-- What the members of a session do together. -/
inductive Collective (n : ℕ) where
  | allReduce (c : AllReduceCall n)
  | allGather (c : AllGatherCall n)
  | broadcast (c : BroadcastCall n)
  | resize (rounds : List (Round n))

section Sections

variable [NeZero n]

/-- Sections that run as one step, with the labels of their times. -/
abbrev Labelled (P T O : Type) := (ℕ → ℕ) × List (List (Thread P T Store O))

/-- The application has left its memory as it is when a call begins. -/
def enter (mem : Mem) : Labelled P T O := (id, [[.act fun σ => { σ with mem := mem }]])

/-- `session::all_reduce` over the star. -/
def AllReduceCall.steps (peers : Fin n → P) (rank : Fin n) (c : AllReduceCall n) :
    List (Labelled P T O) :=
  enter (c.mem rank) :: (runGraphPairListMultiThread peers rank (c.workspace rank)
    (makeGraphPairList .star n) allReduceChunkSize).map (starLab 0 rank, ·)

/-- The steps of a collective, as the member with this rank makes them. -/
def Collective.steps (peers : Fin n → P) (rank : Fin n) : Collective n → List (Labelled P T O)
  | .allReduce c => c.steps peers rank
  | .allGather c => [enter (c.mem rank), (id, [StdmlCollective.allGather peers rank (c.args rank)])]
  | .broadcast c => [enter (c.mem rank),
      (starBroadcastLab 0 rank, StdmlCollective.broadcast .star peers rank (c.workspace rank))]
  | .resize rounds => rounds.flatMap fun r => r.calls.flatMap (AllReduceCall.steps peers rank)

end Sections

/-- A session: its workers, the operands of the barrier in its constructor, and what its members
do before they leave it. -/
structure Session where
  workers : List PeerId
  nodup : workers.Nodup
  ne_nil : workers ≠ []
  barrier : Operands workers.length
  calls : List (Collective workers.length)

instance (s : Session) : NeZero s.workers.length :=
  ⟨fun h => s.ne_nil (List.length_eq_zero_iff.mp h)⟩

/-- All collectives of a session, from the constructor on. -/
def Session.collectives (s : Session) : List (Collective s.workers.length) :=
  .allReduce (s.barrier.allReduce 1 .u32 .sum) :: s.calls

/-! ## The processes of a run -/

/-- The times of a run: the version of the session and the time in it. -/
abbrev Stamp := ℕ ×ₗ Time

def Stamp.at (v : ℕ) (t : Time) : Stamp := toLex (v, t)

/-- The version of the session a time belongs to. -/
def Stamp.version (t : Stamp) : ℕ := (ofLex t).1

@[simp] theorem Stamp.version_at (v : ℕ) (t : Time) : Stamp.version (Stamp.at v t) = v := rfl

/-- A process: the id of its peer, and the version it was started for. -/
abbrev Process (ss : List Session) := PeerId × Fin (ss.length + 1)

section Process

variable (ss : List Session)

/-- The workers of the session of version `v`. -/
def workersAt (v : ℕ) : List PeerId := (ss[v]?.map Session.workers).getD []

/-- The process of `x` at version `v`. -/
def process (v : ℕ) (x : PeerId) : Process ss :=
  (x, Fin.ofNat _ (born (workersAt ss) x v))

/-- `session::peers_`. -/
def sessionPeers (s : Session) (v : ℕ) (r : Fin s.workers.length) : Process ss :=
  process ss v (s.workers.get r)

/-- `session::rank_`, for the processes that are members. -/
def sessionRank (s : Session) (v : ℕ) (p : Process ss) : Option (Fin s.workers.length) :=
  if p = process ss v p.1 then
    if h : rank s.workers p.1 < s.workers.length then some ⟨_, h⟩ else none
  else none

/-- A process that is started for version `v` waits until one of the workers of the session
before has left that session. -/
def launch (p : Process ss) : ℕ → List (Par (Process ss) Stamp Store Unit)
  | 0 => []
  | v + 1 =>
      if born (workersAt ss) p.1 (v + 1) = v + 1 then
        [⟨Stamp.at (v + 1) (Time.at 0 1),
          [.launch ((workersAt ss v).map (process ss v)) (Stamp.at (v + 1) (Time.at 0 0))]⟩]
      else []

/-- What process `p` runs in the session of version `v`. -/
def Session.program (p : Process ss) (s : Session) (v : ℕ) :
    List (Par (Process ss) Stamp Store Unit) :=
  match sessionRank ss s v p with
  | some r => launch ss p v ++
      stepsFrom (fun st k => stamp (fun i => Stamp.at v (Time.at k (st.1 i))) st.2) 1
        (s.collectives.flatMap (Collective.steps (sessionPeers ss s v) r))
  | none => []

/-- What process `p` runs. -/
def sessionsProgram (p : Process ss) : List (Par (Process ss) Stamp Store Unit) :=
  stepsFrom (Session.program ss p) 0 ss

/-- **Sessions do not leak into each other**: in every state a run can reach, what is being
consumed was sent by the collective, of the session, that consumes it; and when no step is left,
no message is. -/
def SessionsIsolated : Prop :=
  ∀ (σ : Process ss → Store) (c : Cluster (Process ss) PeerId Stamp Store Unit),
    CReach Prod.fst Store.writeBody (sessionsProgram ss) σ c →
      (∀ p, (c p).Isolated) ∧ ((∀ c', ¬CStep Prod.fst Store.writeBody c c') → c.Quiet)

end Process

/-! ## Steps by their rank -/

/-- The steps of the collectives, for all members at once. -/
inductive Piece (n : ℕ) where
  | enter (mem : Fin n → Mem)
  | part (c : AllReduceCall n) (e : ℕ × ℕ)
  | gather (c : AllGatherCall n)
  | broadcast (c : BroadcastCall n)

section Pieces

variable [NeZero n]

/-- A step as the member of this rank makes it. -/
def Piece.step (peers : Fin n → P) (rank : Fin n) : Piece n → Labelled P T O
  | .enter mem => StdmlCollective.enter (mem rank)
  | .part c e => (starLab 0 rank, runGraphsMultiThread peers rank
      ((c.workspace rank).slice e.1 e.2)
        [(starPair n 0).reduceGraph, (starPair n 0).broadcastGraph])
  | .gather c => (id, [allGather peers rank (c.args rank)])
  | .broadcast c => (starBroadcastLab 0 rank,
      StdmlCollective.broadcast .star peers rank (c.workspace rank))

def AllReduceCall.pieces (c : AllReduceCall n) : List (Piece n) :=
  .enter c.mem :: c.parts.map (Piece.part c)

def Collective.pieces : Collective n → List (Piece n)
  | .allReduce c => c.pieces
  | .allGather c => [.enter c.mem, .gather c]
  | .broadcast c => [.enter c.mem, .broadcast c]
  | .resize rounds => rounds.flatMap fun r => r.calls.flatMap AllReduceCall.pieces

theorem AllReduceCall.steps_eq (peers : Fin n → P) (rank : Fin n) (c : AllReduceCall n) :
    (c.steps peers rank : List (Labelled P T O)) = c.pieces.map (Piece.step peers rank) := by
  have hchoose : ∀ j, (makeGraphPairList .star n).choose j = starPair n 0 := by
    intro j
    simp [makeGraphPairList, makeGraphPairListStar, GraphPairList.choose]
  simp [AllReduceCall.steps, AllReduceCall.pieces, Piece.step, runGraphPairListMultiThread,
    splitWork, Workspace.split, hchoose, AllReduceCall.parts, AllReduceCall.workspace,
    Workspace.dataSize]

theorem Collective.steps_eq (peers : Fin n → P) (rank : Fin n) (c : Collective n) :
    (c.steps peers rank : List (Labelled P T O)) = c.pieces.map (Piece.step peers rank) := by
  cases c with
  | allReduce c => exact c.steps_eq peers rank
  | allGather c => rfl
  | broadcast c => rfl
  | resize rounds =>
      have hround : AllReduceCall.steps peers rank =
          fun c => (c.pieces.map (Piece.step peers rank) : List (Labelled P T O)) :=
        funext (AllReduceCall.steps_eq peers rank)
      simp [Collective.steps, Collective.pieces, List.map_flatMap, hround]

/-- A step as process `p` runs it. -/
def Piece.run (lab : ℕ → T) (peers : Fin n → P) (rank : P → Option (Fin n)) (pc : Piece n) (p : P) :
    List (Par P T Store O) :=
  match rank p with
  | some r => stamp (fun i => lab ((pc.step peers r : Labelled P T O).1 i)) (pc.step peers r).2
  | none => []

/-! ## Compatibility -/

/-- What a call needs for its messages to find their receives: names without NUL, an operation
that `reduce` has for the type, and few enough members for `all_gather`. -/
def Collective.Ok : Collective n → Prop
  | .allReduce c => 1 ≤ c.count ∧ NulFree c.name ∧ (elemOp c.dt c.op).isSome
  | .allGather c => NulFree c.name ∧ n < 2 ^ 30
  | .broadcast c => NulFree c.name
  | .resize _ => True

def Piece.Ok : Piece n → Prop
  | .enter _ => True
  | .part c _ => NulFree c.name ∧ (elemOp c.dt c.op).isSome
  | .gather c => NulFree c.name ∧ n < 2 ^ 30
  | .broadcast c => NulFree c.name

omit [NeZero n] in
theorem AllReduceCall.pieces_ok {c : AllReduceCall n} (hname : NulFree c.name)
    (hop : (StdmlCollective.elemOp c.dt c.op).isSome) {pc : Piece n} (h : pc ∈ c.pieces) :
    pc.Ok := by
  rcases List.mem_cons.mp h with rfl | h
  · trivial
  · obtain ⟨e, -, rfl⟩ := List.mem_map.mp h
    exact ⟨hname, hop⟩

omit [NeZero n] in
theorem Operands.pieces_ok (o : Operands n) {count : ℕ} {dt : Dtype} (hdt : dt.isInt = true)
    {op : ReduceOp} {pc : Piece n} (h : pc ∈ (o.allReduce count dt op).pieces) : pc.Ok := by
  refine AllReduceCall.pieces_ok (fun c hc => absurd hc List.not_mem_nil) ?_ h
  show (elemOp dt op).isSome
  rw [elemOp_of_isInt hdt]
  rfl

omit [NeZero n] in
theorem Collective.pieces_ok {c : Collective n} (hc : c.Ok) {pc : Piece n} (h : pc ∈ c.pieces) :
    pc.Ok := by
  cases c with
  | allReduce c => exact AllReduceCall.pieces_ok hc.2.1 hc.2.2 h
  | allGather c =>
      simp only [Collective.pieces, List.mem_cons, List.not_mem_nil, or_false] at h
      rcases h with rfl | rfl
      · trivial
      · exact hc
  | broadcast c =>
      simp only [Collective.pieces, List.mem_cons, List.not_mem_nil, or_false] at h
      rcases h with rfl | rfl
      · trivial
      · exact hc
  | resize rounds =>
      obtain ⟨r, -, hr⟩ := List.mem_flatMap.mp h
      obtain ⟨c, hc, hpc⟩ := List.mem_flatMap.mp hr
      rcases List.mem_append.mp hc with hc | hc
      · simp only [List.mem_cons, List.not_mem_nil, or_false] at hc
        rcases hc with rfl | rfl <;> exact Operands.pieces_ok _ rfl hpc
      · split at hc
        · exact absurd hc List.not_mem_nil
        · exact absurd hc List.not_mem_nil
        · simp only [List.mem_cons, List.not_mem_nil, or_false] at hc
          rcases hc with rfl | rfl <;> exact Operands.pieces_ok _ rfl hpc

variable {peers : Fin n → P} {rank : P → Option (Fin n)}

theorem Piece.run_enter (lab : ℕ → T) (mem : Fin n → Mem) (p : P) :
    blocks Store.writeBody ((Piece.enter mem).run lab peers rank p : List (Par P T Store O)) =
      match rank p with
      | some r => [⟨lab 0, [.act fun σ => { σ with mem := mem r }]⟩]
      | none => [] := by
  unfold Piece.run
  cases rank p <;> rfl

/-- Every step is compatible. -/
theorem Piece.compat [DecidableEq P] [LinearOrder T] {lab : ℕ → T} (hlab : StrictMono lab)
    (hm : Members peers rank) {pc : Piece n} (h : pc.Ok) :
    Compat fun p => blocks Store.writeBody (pc.run lab peers rank p : List (Par P T Store O)) := by
  cases pc with
  | enter mem =>
      simp only [Piece.run_enter]
      constructor
      · intro p
        cases rank p with
        | some r => exact .cons (Block.valid_act _ _) .nil (by simp)
        | none => exact .nil
      · intro s d
        cases rank s <;> cases rank d <;> simp
  | part c e =>
      obtain ⟨f, hf⟩ := Option.isSome_iff_exists.mp h.2
      have hpart : PartOk (fun r => (c.workspace r).slice e.1 e.2) (partName c.name e.1 e.2) 0 f :=
        ⟨⟨fun _ => rfl, nulFree_partName h.1 _ _⟩, hf⟩
      exact star_compat hlab hm hpart
  | gather c =>
      have hg : GatherOk c.args c.name := ⟨fun _ => rfl, h.1⟩
      exact allGather_compat h.2 (lab 0) hm hg
  | broadcast c =>
      have hw : Agree c.workspace c.name := ⟨fun _ => rfl, h⟩
      exact starBroadcast_compat hlab hm hw

end Pieces

/-! ## The program of a process -/

def Session.pieces (s : Session) : List (Piece s.workers.length) :=
  s.collectives.flatMap Collective.pieces

/-- All calls of a session are such that their messages find their receives. -/
def Session.Ok (s : Session) : Prop := ∀ c ∈ s.calls, c.Ok

theorem Session.pieces_ok {s : Session} (hs : s.Ok) {pc : Piece s.workers.length}
    (h : pc ∈ s.pieces) : pc.Ok := by
  obtain ⟨c, hc, hpc⟩ := List.mem_flatMap.mp h
  rcases List.mem_cons.mp hc with rfl | hc
  · exact Operands.pieces_ok _ rfl hpc
  · exact Collective.pieces_ok (hs c hc) hpc

section Program

variable {ss : List Session}

/-- The members of a session are the processes of its workers. -/
theorem session_members (s : Session) (v : ℕ) :
    Members (sessionPeers ss s v) (sessionRank ss s v) where
  rank_eq p r := by
    unfold sessionRank sessionPeers
    constructor
    · intro h
      split at h
      · next hp =>
        split at h
        · obtain rfl := Option.some.inj h
          have hget : s.workers.get ⟨rank s.workers p.1, ‹_›⟩ = p.1 := List.getElem_idxOf ‹_›
          rw [hget, ← hp]
        · exact absurd h (by simp)
      · exact absurd h (by simp)
    · rintro rfl
      have hidx : rank s.workers (s.workers.get r) = r := s.nodup.idxOf_getElem r r.2
      have hfst : (process ss v (s.workers.get r)).1 = s.workers.get r := rfl
      rw [hfst, if_pos rfl, dif_pos (by rw [hidx]; exact r.2)]
      exact congrArg some (Fin.ext hidx)

/-- The blocks of a session, step by step. -/
theorem Session.program_blocks (p : Process ss) (s : Session) (v : ℕ) :
    blocks Store.writeBody (s.program ss p v) =
      (match sessionRank ss s v p with
        | some _ => blocks Store.writeBody (launch ss p v)
        | none => []) ++
      stepsFrom (fun pc k => blocks Store.writeBody (pc.run (fun i => Stamp.at v (Time.at k i))
        (sessionPeers ss s v) (sessionRank ss s v) p)) 1 s.pieces := by
  unfold Session.program Piece.run
  cases hr : sessionRank ss s v p with
  | none =>
      have hnil : ∀ (l : List (Piece s.workers.length)) k, stepsFrom (fun _ _ =>
          ([] : List (Block (Process ss) Stamp Key Bytes Store Unit))) k l = [] := by
        intro l
        induction l with
        | nil => exact fun _ => rfl
        | cons a l ih => exact fun k => ih (k + 1)
      exact (hnil _ _).symm
  | some r =>
      have hsteps : s.collectives.flatMap (Collective.steps (sessionPeers ss s v) r) =
          s.pieces.map (Piece.step (sessionPeers ss s v) r (T := Stamp) (O := Unit)) := by
        rw [Session.pieces, List.map_flatMap]
        exact List.flatMap_congr fun c _ => c.steps_eq _ r
      simp only [hsteps, stepsFrom_map, blocks, List.map_append, map_stepsFrom]

theorem sessionsProgram_blocks (p : Process ss) :
    blocks Store.writeBody (sessionsProgram ss p) =
      stepsFrom (fun s v => blocks Store.writeBody (Session.program ss p s v)) 0 ss := by
  rw [sessionsProgram, blocks, map_stepsFrom]
  rfl

/-- The times of a step. -/
theorem Piece.time_of_mem [NeZero n] {lab : ℕ → T} {peers : Fin n → P} {rank : P → Option (Fin n)}
    {pc : Piece n} {p : P} {b : Block P T Key Bytes Store O}
    (h : b ∈ blocks Store.writeBody (pc.run lab peers rank p : List (Par P T Store O))) :
    ∃ i, b.time = lab i := by
  unfold Piece.run at h
  cases hr : rank p with
  | none => simp [hr, blocks] at h
  | some r =>
      simp only [hr, blocks, stamp, List.mem_map, List.mem_mapIdx] at h
      obtain ⟨_, ⟨i, _, rfl⟩, rfl⟩ := h
      exact ⟨_, rfl⟩

/-- How a process waits to be started. -/
theorem launch_blocks (p : Process ss) (v : ℕ) :
    blocks Store.writeBody (launch ss p v) = [] ∨ ∃ u, v = u + 1 ∧
      blocks Store.writeBody (launch ss p v) = [⟨Stamp.at (u + 1) (Time.at 0 1),
        [.await ((workersAt ss u).map (process ss u)) (Stamp.at (u + 1) (Time.at 0 0))]⟩] := by
  cases v with
  | zero => exact .inl rfl
  | succ u =>
      rw [launch]
      split
      · exact .inr ⟨u, rfl, rfl⟩
      · exact .inl rfl

/-- What a process runs at version `v` has times of version `v`, and only members run anything. -/
theorem Session.mem_program {p : Process ss} {s : Session} {v : ℕ}
    {b : Block (Process ss) Stamp Key Bytes Store Unit}
    (h : b ∈ blocks Store.writeBody (s.program ss p v)) :
    b.time.version = v ∧ ∃ r, sessionRank ss s v p = some r := by
  rw [Session.program_blocks] at h
  cases hr : sessionRank ss s v p with
  | none =>
      rw [hr, List.nil_append] at h
      obtain ⟨i, pc, -, hb⟩ := mem_stepsFrom h
      simp [Piece.run, hr, blocks] at hb
  | some r =>
      refine ⟨?_, r, rfl⟩
      rw [hr] at h
      rcases List.mem_append.mp h with h | h
      · rcases launch_blocks p v with hl | ⟨u, rfl, hl⟩
        · rw [hl] at h
          exact absurd h List.not_mem_nil
        · rw [hl] at h
          obtain rfl := List.mem_singleton.mp h
          rfl
      · obtain ⟨i, pc, -, hb⟩ := mem_stepsFrom h
        obtain ⟨j, hj⟩ := Piece.time_of_mem hb
        rw [hj]
        rfl

theorem Stamp.lt_of_version_lt {t u : Stamp} (h : t.version < u.version) : t < u :=
  Prod.Lex.lt_iff.mpr (.inl h)

theorem Stamp.at_strictMono (v : ℕ) : StrictMono (Stamp.at v) := by
  intro t u h
  exact Prod.Lex.toLex_lt_toLex.mpr (.inr ⟨rfl, h⟩)

theorem workersAt_eq {v : ℕ} {s : Session} (h : ss[v]? = some s) : workersAt ss v = s.workers := by
  simp [workersAt, h]

/-- Waiting to be started sends nothing and receives nothing. -/
theorem launch_compat {s : Session} {v : ℕ} (hv : ss[v]? = some s) :
    Compat fun p => (match sessionRank ss s v p with
      | some _ => blocks Store.writeBody (launch ss p v)
      | none => []) := by
  have hcase : ∀ p, Valid (match sessionRank ss s v p with
      | some _ => blocks Store.writeBody (launch ss p v)
      | none => []) ∧ ∀ q, sends (match sessionRank ss s v p with
      | some _ => blocks Store.writeBody (launch ss p v)
      | none => []) q = [] ∧ recvs (match sessionRank ss s v p with
      | some _ => blocks Store.writeBody (launch ss p v)
      | none => []) q = [] := by
    intro p
    cases sessionRank ss s v p with
    | none => exact ⟨.nil, fun q => ⟨rfl, rfl⟩⟩
    | some r =>
        rcases launch_blocks p v with hl | ⟨u, rfl, hl⟩
        · simp only [hl]
          exact ⟨.nil, fun q => ⟨rfl, rfl⟩⟩
        · simp only [hl]
          have hu : u < ss.length := by
            obtain ⟨hlt, -⟩ := List.getElem?_eq_some_iff.mp hv
            omega
          have hne : (workersAt ss u).map (process ss u) ≠ [] := by
            rw [workersAt_eq (List.getElem?_eq_getElem hu)]
            simpa using (ss[u]).ne_nil
          refine ⟨.cons (Block.valid_await hne ?_) .nil (by simp), fun q => by simp⟩
          exact Stamp.at_strictMono _ (Time.at_strictMono 0 (by omega))
  exact ⟨fun p => (hcase p).1, fun s d => by rw [((hcase s).2 d).1, ((hcase d).2 s).2]⟩

/-- The members of one session run compatible programs. -/
theorem Session.compat {s : Session} {v : ℕ} (hv : ss[v]? = some s) (hs : s.Ok) :
    Compat fun p => blocks Store.writeBody (s.program ss p v) := by
  have hm : Members (sessionPeers ss s v) (sessionRank ss s v) := session_members s v
  have hlt : ∀ {k i k' i'}, k < k' → Stamp.at v (Time.at k i) < Stamp.at v (Time.at k' i') :=
    fun hk => Stamp.at_strictMono v (Time.lt_of_step_lt hk)
  simp only [Session.program_blocks]
  refine Compat.append (launch_compat hv) (Compat.stepsFrom
    (F := fun p (pc : Piece s.workers.length) k => blocks Store.writeBody
      (pc.run (fun i => Stamp.at v (Time.at k i)) (sessionPeers ss s v) (sessionRank ss s v) p))
    (fun p a a' k k' hk b hb b' hb' => ?_) 1 fun i pc hi => ?_) fun p b hb b' hb' => ?_
  · obtain ⟨i, hi⟩ := Piece.time_of_mem hb
    obtain ⟨j, hj⟩ := Piece.time_of_mem hb'
    rw [hi, hj]
    exact hlt hk
  · refine Piece.compat ?_ hm (Session.pieces_ok hs (List.mem_of_getElem? hi))
    exact (Stamp.at_strictMono v).comp (Time.at_strictMono _)
  · obtain ⟨i, pc, -, hpc⟩ := mem_stepsFrom hb'
    obtain ⟨j, hj⟩ := Piece.time_of_mem hpc
    cases hr : sessionRank ss s v p with
    | none => simp [hr] at hb
    | some r =>
        rw [hr] at hb
        rcases launch_blocks p v with hl | ⟨u, rfl, hl⟩
        · rw [hl] at hb
          exact absurd hb List.not_mem_nil
        · rw [hl] at hb
          obtain rfl := List.mem_singleton.mp hb
          rw [hj]
          exact hlt (by omega)

/-- **All sessions together are compatible.** -/
theorem sessions_compat (hss : ∀ s ∈ ss, s.Ok) :
    Compat fun p => blocks Store.writeBody (sessionsProgram ss p) := by
  simp only [sessionsProgram_blocks]
  refine Compat.stepsFrom (F := fun p s v => blocks Store.writeBody (Session.program ss p s v))
    (fun p s s' v v' hv b hb b' hb' => ?_) 0 fun v s hv => ?_
  · apply Stamp.lt_of_version_lt
    rw [(Session.mem_program hb).1, (Session.mem_program hb').1]
    exact hv
  · rw [Nat.zero_add]
    exact Session.compat hv (hss s (List.mem_of_getElem? hv))

/-! ## Members -/

theorem lt_length_of_mem {v : ℕ} {x : PeerId} (h : x ∈ workersAt ss v) : v < ss.length := by
  by_contra hv
  rw [workersAt, List.getElem?_eq_none (by omega)] at h
  exact absurd h List.not_mem_nil

/-- A process of `x` tells for which version it was started. -/
theorem process_eq_iff {u v : ℕ} {x : PeerId} (hu : u < ss.length) (hv : v < ss.length) :
    process ss u x = process ss v x ↔ born (workersAt ss) x u = born (workersAt ss) x v := by
  have h₁ := born_le (workersAt ss) x u
  have h₂ := born_le (workersAt ss) x v
  rw [process, process, Prod.mk.injEq, Fin.ext_iff, Fin.val_ofNat, Fin.val_ofNat,
    Nat.mod_eq_of_lt (by omega), Nat.mod_eq_of_lt (by omega)]
  simp

theorem rank_of_mem {v : ℕ} {x : PeerId} (h : x ∈ workersAt ss v) :
    ∃ s, ss[v]? = some s ∧ ∃ r, sessionRank ss s v (process ss v x) = some r := by
  have hv := List.getElem?_eq_getElem (lt_length_of_mem h)
  rw [workersAt_eq hv] at h
  refine ⟨_, hv, ⟨rank _ x, rank_lt_iff.mpr h⟩, ?_⟩
  exact ((session_members _ v).rank_eq _ _).mpr (congrArg (process ss v) (List.idxOf_get _))

/-- What a process runs at version `v` it runs as the process of a worker. -/
theorem member_of_mem {p : Process ss} {b : Block (Process ss) Stamp Key Bytes Store Unit}
    (h : b ∈ blocks Store.writeBody (sessionsProgram ss p)) :
    p.1 ∈ workersAt ss b.time.version ∧ p = process ss b.time.version p.1 := by
  rw [sessionsProgram_blocks] at h
  obtain ⟨v, s, hv, hb⟩ := mem_stepsFrom h
  rw [Nat.zero_add] at hb
  obtain ⟨htime, r, hr⟩ := Session.mem_program hb
  rw [htime, workersAt_eq hv]
  have hp : process ss v (s.workers.get r) = p := ((session_members s v).rank_eq p r).mp hr
  have hfst : p.1 = s.workers.get r := by rw [← hp]; rfl
  exact ⟨hfst ▸ List.get_mem _ _, by rw [hfst]; exact hp.symm⟩

/-- A process that was started for a later version first waits for that. -/
theorem joiner_blocks {u j : ℕ} {x : PeerId} (hx : x ∈ workersAt ss u)
    (hj : born (workersAt ss) x u = j + 1) :
    ∃ bs, blocks Store.writeBody (sessionsProgram ss (process ss u x)) =
      ⟨Stamp.at (j + 1) (Time.at 0 1),
        [.await ((workersAt ss j).map (process ss j)) (Stamp.at (j + 1) (Time.at 0 0))]⟩ :: bs := by
  have hu := lt_length_of_mem hx
  have hle := born_le (workersAt ss) x u
  have hborn : born (workersAt ss) x (j + 1) = j + 1 := by
    rw [born_eq (u := u) (by omega) (by omega), hj]
  have hmem : x ∈ workersAt ss (j + 1) := by
    by_cases heq : u = j + 1
    · exact heq ▸ hx
    · exact mem_of_born_le (le_of_eq hj) (by omega)
  have hproc : process ss u x = process ss (j + 1) x :=
    (process_eq_iff hu (by omega)).mpr (by rw [hj, hborn])
  obtain ⟨s, hs, r, hr⟩ := rank_of_mem hmem
  rw [sessionsProgram_blocks, hproc]
  -- before version `j + 1` the process is not there
  obtain ⟨rest, hrest⟩ := stepsFrom_of_nil (F := fun s v =>
    blocks Store.writeBody (Session.program ss (process ss (j + 1) x) s v)) (k := 0) hs
    fun v hv s' hs' => by
      rw [List.eq_nil_iff_forall_not_mem]
      intro b hb
      obtain ⟨-, r', hr'⟩ := Session.mem_program hb
      have hp := ((session_members s' (0 + v)).rank_eq _ r').mp hr'
      have hfst : s'.workers.get r' = x := congrArg Prod.fst hp
      rw [sessionPeers, hfst, process_eq_iff (by omega) (by omega), hborn] at hp
      have := born_le (workersAt ss) x (0 + v)
      omega
  rw [hrest, Nat.zero_add, Session.program_blocks, hr]
  simp only [launch, hborn, process, if_true]
  exact ⟨_, rfl⟩

/-! ## Isolation -/

theorem barrier_parts (o : Operands n) : (o.allReduce 1 .u32 .sum).parts = [(0, 1)] := by
  simp [AllReduceCall.parts, Operands.allReduce, dtypeSize, ceilDiv, allReduceChunkSize,
    evenPartition, evenPartitionFrom]

/-- The barrier of a session runs over the star in its second step. -/
theorem barrier_subset {s : Session} {v : ℕ} (hv : ss[v]? = some s) (p : Process ss) :
    blocks Store.writeBody (starRun (fun i => Stamp.at v (Time.at 2 i)) (sessionPeers ss s v)
      (sessionRank ss s v) 0
      (fun r => ((s.barrier.allReduce 1 .u32 .sum).workspace r).slice 0 1) p) ⊆
        blocks Store.writeBody (sessionsProgram ss p) := by
  intro b hb
  rw [sessionsProgram_blocks]
  refine mem_stepsFrom_of_getElem hv ?_
  rw [Nat.zero_add, Session.program_blocks]
  have hpiece : s.pieces[1]? = some (.part (s.barrier.allReduce 1 .u32 .sum) (0, 1)) := by
    simp [Session.pieces, Session.collectives, Collective.pieces, AllReduceCall.pieces,
      barrier_parts]
  exact List.mem_append_right _ (mem_stepsFrom_of_getElem hpiece hb)

variable {σ : Process ss → Store} {a : State (Process ss) Stamp Key Bytes Store Unit}

/-- **Who has left a session knows that all its members have entered it**: they meet in the
barrier. -/
theorem version_le_of_left (hss : ∀ s ∈ ss, s.Ok)
    (ha : Reach (fun p => blocks Store.writeBody (sessionsProgram ss p)) σ a) {v : ℕ} {x y : PeerId}
    (hx : x ∈ workersAt ss v) (hy : y ∈ workersAt ss v)
    (hleft : Passed a (process ss v y) (Stamp.at (v + 1) (Time.at 0 0))) :
    ∀ b ∈ (a.proc (process ss v x)).blocks, v ≤ b.time.version := by
  have hc := sessions_compat hss
  obtain ⟨s, hv⟩ : ∃ s, ss[v]? = some s := ⟨_, List.getElem?_eq_getElem (lt_length_of_mem hx)⟩
  rw [workersAt_eq hv] at hx hy
  obtain ⟨q, hq⟩ := List.get_of_mem hy
  obtain ⟨r, hr⟩ := List.get_of_mem hx
  have hlab : StrictMono fun i => Stamp.at v (Time.at 2 i) :=
    (Stamp.at_strictMono v).comp (Time.at_strictMono 2)
  have hpart : PartOk (fun r => ((s.barrier.allReduce 1 .u32 .sum).workspace r).slice 0 1)
      (partName [] 0 1) 0 (intElemOp .u32 .sum) :=
    ⟨⟨fun _ => rfl, nulFree_partName (by simp [NulFree]) _ _⟩, rfl⟩
  have hpassed : Passed a (sessionPeers ss s v q) (Stamp.at v (Time.at 2 5)) := by
    intro b hb
    rw [sessionPeers, hq] at hb
    have hlt : Stamp.at v (Time.at 2 5) < Stamp.at (v + 1) (Time.at 0 0) :=
      Stamp.lt_of_version_lt (Nat.lt_succ_self v)
    exact hlt.trans (hleft b hb)
  have hsync := star_synced hlab (session_members s v) hpart ha (hc.matched_reach ha)
    (fun p => hc.valid p) (barrier_subset hv) hpassed r
  intro b hb
  rw [← hr] at hb
  have hle := hsync b hb
  by_contra hlt
  exact absurd hle (not_le.mpr (Stamp.lt_of_version_lt (not_le.mp hlt)))

/-- Who receives at a time of version `v`, and from whom, are processes of workers of version
`v`. -/
theorem members_of_recvs (hss : ∀ s ∈ ss, s.Ok)
    (ha : Reach (fun p => blocks Store.writeBody (sessionsProgram ss p)) σ a) {p s : Process ss}
    {t : Stamp} {k : Key} (h : (t, k) ∈ recvs (a.proc p).blocks s) :
    (s.1 ∈ workersAt ss t.version ∧ s = process ss t.version s.1) ∧
      p.1 ∈ workersAt ss t.version ∧ p = process ss t.version p.1 := by
  obtain ⟨b, hb, rfl⟩ := ha.sender_time (sessions_compat hss) h
  obtain ⟨b', hb', htime, -⟩ := time_of_mem_recvs h
  obtain ⟨b₁, hb₁, hb₁t, -⟩ := (ha.remains p).block_mem hb'
  have hp := member_of_mem hb₁
  rw [hb₁t, htime] at hp
  exact ⟨member_of_mem hb, hp⟩

/-- A process that has something in flight, and was started after the first version, was started
when somebody had left the version before. -/
theorem started_of_link (hss : ∀ s ∈ ss, s.Ok)
    (ha : Reach (fun p => blocks Store.writeBody (sessionsProgram ss p)) σ a) {u j : ℕ} {x : PeerId}
    (hx : x ∈ workersAt ss u) (hj : born (workersAt ss) x u = j + 1) {p : Process ss}
    (hlk : a.link (process ss u x) p ≠ []) :
    ∃ y ∈ workersAt ss j, Passed a (process ss j y) (Stamp.at (j + 1) (Time.at 0 0)) := by
  have hc := sessions_compat hss
  obtain ⟨bs, hbs⟩ := joiner_blocks hx hj
  rcases ha.launched hbs with hprog | ⟨q, hq, hpass⟩
  · exact absurd ((hc.matched_reach ha).link_eq_nil_of_prog ha hc hprog) hlk
  · obtain ⟨y, hy, rfl⟩ := List.mem_map.mp hq
    exact ⟨y, hy, hpass⟩

/-- **Only one process of a peer has anything in flight to a process that receives from it.**
A later process of the peer would have been started when somebody had left a session which the
receiver has not left and to which the peer belongs. -/
theorem sessions_excl (hss : ∀ s ∈ ss, s.Ok)
    (ha : Reach (fun p => blocks Store.writeBody (sessionsProgram ss p)) σ a) :
    Excl Prod.fst a := by
  intro p s s' t l₁ k g l₂ bs hb hlk hid
  have hm := (sessions_compat hss).matched_reach ha
  have hv := hm.valid p
  rw [hb] at hv
  -- the receive at hand, of version `w`
  have hrecv : (t, k) ∈ recvs (a.proc p).blocks s' := by
    rw [hb, hv.recvs_erase]
    exact List.mem_cons_self
  -- what is in flight, for a receive of version `u`
  obtain ⟨m, ms, hms⟩ : ∃ m ms, a.link s p = m :: ms := List.exists_cons_of_ne_nil hlk
  have hflight : (m.time, m.key) ∈ recvs (a.proc p).blocks s := by
    rw [← hm.tags s p, hms]
    exact List.mem_append_left _ List.mem_cons_self
  have hwu : t.version ≤ m.time.version := by
    obtain ⟨b, hbm, htime, -⟩ := time_of_mem_recvs hflight
    rw [hb] at hbm
    have hle : t ≤ b.time := hv.head_le hbm
    rw [← htime]
    by_contra hlt
    exact absurd hle (not_le.mpr (Stamp.lt_of_version_lt (not_le.mp hlt)))
  obtain ⟨⟨hs'w, hs'⟩, hpw, hp⟩ := members_of_recvs hss ha hrecv
  obtain ⟨⟨hsu, hs⟩, hpu, hp'⟩ := members_of_recvs hss ha hflight
  rw [← hid] at hs'w hs'
  generalize hw : t.version = w at *
  generalize m.time.version = u at *
  have hwl := lt_length_of_mem hs'w
  have hul := lt_length_of_mem hsu
  by_contra hne
  rw [hs, hs', process_eq_iff hul hwl] at hne
  -- `s` was started for version `j + 1`, after `w`, and its peer was no worker of version `j`
  have hlt := lt_born_of_ne hwu (Ne.symm hne)
  have hnot : s.1 ∉ workersAt ss (born (workersAt ss) s.1 u - 1) := not_mem_born (by omega)
  obtain ⟨j, hj⟩ := Nat.exists_eq_add_one_of_ne_zero (Nat.ne_of_gt (Nat.zero_lt_of_lt hlt))
  rw [hj, Nat.add_sub_cancel] at hnot
  have hju : j < u := by
    have := born_le (workersAt ss) s.1 u
    omega
  rw [hs] at hlk
  obtain ⟨y, hy, hleft⟩ := started_of_link hss ha hsu hj hlk
  -- `p` belongs to version `j` too, and has entered it
  have hpb : born (workersAt ss) p.1 w = born (workersAt ss) p.1 u :=
    (process_eq_iff hwl hul).mp (hp.symm.trans hp')
  have hpbw := born_le (workersAt ss) p.1 w
  have hpj : p.1 ∈ workersAt ss j := mem_of_born_le (u := u) (by omega) hju
  have hpj' : p = process ss j p.1 := by
    refine hp.trans ((process_eq_iff hwl (by omega)).mpr ?_)
    rw [hpb]
    exact (born_eq (by omega) (by omega)).symm
  have hle := version_le_of_left hss ha hpj hy hleft ⟨t, l₁ ++ .recv s' k g :: l₂⟩
    (by rw [← hpj', hb]; exact List.mem_cons_self)
  have hjw : j = w := by
    rw [hw] at hle
    omega
  exact hnot (hjw ▸ hs'w)

/-! ### The threads of a program -/

theorem Piece.plain [NeZero n] (peers : Fin n → P) (rank : Fin n) (pc : Piece n)
    {ths : List (Thread P T Store O)} (h : ths ∈ (pc.step peers rank : Labelled P T O).2)
    {th : Thread P T Store O} (hth : th ∈ ths) : th.Plain := by
  cases pc with
  | enter mem =>
      obtain rfl := List.mem_singleton.mp h
      obtain rfl := List.mem_singleton.mp hth
      trivial
  | part c e => exact plain_runGraphs h hth
  | gather c =>
      obtain rfl := List.mem_singleton.mp h
      exact plain_allGather hth
  | broadcast c => exact plain_runGraphs h hth

theorem sessionsProgram_fresh (p : Process ss) {b : Par (Process ss) Stamp Store Unit}
    (hb : b ∈ sessionsProgram ss p) {th : Thread (Process ss) Stamp Store Unit}
    (hth : th ∈ b.threads) : th.Fresh := by
  obtain ⟨v, s, -, hb⟩ := mem_stepsFrom hb
  unfold Session.program at hb
  split at hb
  · next r _ =>
    rcases List.mem_append.mp hb with hb | hb
    · generalize 0 + v = v at hb
      cases v with
      | zero => exact absurd hb List.not_mem_nil
      | succ v =>
          rw [launch] at hb
          split at hb
          · obtain rfl := List.mem_singleton.mp hb
            obtain rfl := List.mem_singleton.mp hth
            trivial
          · exact absurd hb List.not_mem_nil
    · obtain ⟨i, st, hi, hb⟩ := mem_stepsFrom hb
      obtain ⟨c, -, hc⟩ := List.mem_flatMap.mp (List.mem_of_getElem? hi)
      rw [Collective.steps_eq] at hc
      obtain ⟨pc, -, rfl⟩ := List.mem_map.mp hc
      exact fresh_stamp (fun ths hths th hth => (pc.plain _ _ hths hth).fresh) hb hth
  · exact absurd hb List.not_mem_nil

/-- No section receives twice from one id: it receives from workers of one version. -/
theorem sessions_tidy (hss : ∀ s ∈ ss, s.Ok) : Tidy Prod.fst (sessionsProgram ss) where
  fresh := sessionsProgram_fresh
  nodup p b hb := by
    have hc := sessions_compat hss
    refine (nodup_from? (hc.valid p) hb).map_on ?_
    have hfrom : ∀ q ∈ b.threads.filterMap Thread.from?, q = process ss b.time.version q.1 := by
      intro q hq
      obtain ⟨th, hth, hthq⟩ := List.mem_filterMap.mp hq
      obtain ⟨k, hk⟩ := recvKey_of_from? Store.writeBody b.time hthq
      have hmem : (b.time, k) ∈ recvs (blocks Store.writeBody (sessionsProgram ss p)) q := by
        refine List.mem_flatMap.mpr ⟨_, List.mem_map_of_mem hb, List.mem_map_of_mem ?_⟩
        exact List.mem_filterMap.mpr ⟨_, List.mem_map_of_mem hth, hk⟩
      rw [← hc.matched q p] at hmem
      obtain ⟨b', hb', htime, -⟩ := time_of_mem_sends hmem
      rw [← htime]
      exact (member_of_mem hb').2
    intro q hq q' hq' heq
    rw [hfrom q hq, hfrom q' hq', heq]

end Program

/-! ## Sessions are isolated -/

/-- No state of a run is stuck before its end. -/
theorem sessions_progress {ss : List Session} (hss : ∀ s ∈ ss, s.Ok) {σ : Process ss → Store}
    {c : Cluster (Process ss) PeerId Stamp Store Unit}
    (hr : CReach Prod.fst Store.writeBody (sessionsProgram ss) σ c) :
    (∀ p, (c p).Isolated) ∧ (¬c.Final → ∃ c', CStep Prod.fst Store.writeBody c c') ∧
      (c.Final → c.Drained) := by
  have hc := sessions_compat hss
  obtain ⟨a, ha, hsim⟩ := simulate (sessions_tidy hss) hc (fun a ha => sessions_excl hss ha) hr
  have hm := hc.matched_reach ha
  exact ⟨fun p => (hsim p).isolated (headOk_of_matched hm p),
    fun hf => hsim.progress hm (sessions_excl hss ha) hf, fun hf => hsim.drained hm hf⟩

/-- Two sessions: `127.0.0.1:10000` leaves and `127.0.0.1:10002` joins. -/
def swapRun : List Session :=
  [{ workers := [⟨2130706433, 10000⟩, ⟨2130706433, 10001⟩]
     nodup := by decide
     ne_nil := by decide
     barrier := ⟨fun _ => 0, fun _ => 4, fun _ _ => 0⟩
     calls := [.allReduce ⟨1, .i32, .sum, [], fun _ => 0, fun _ => 4, fun _ _ => 0⟩,
      .broadcast ⟨1, .i32, [], fun _ => 0, fun _ => 4, fun _ _ => 0⟩,
      .resize [⟨none, o, o, o, o⟩, ⟨some 20, o, o, o, o⟩]] },
   { workers := [⟨2130706433, 10001⟩, ⟨2130706433, 10002⟩]
     nodup := by decide
     ne_nil := by decide
     barrier := ⟨fun _ => 0, fun _ => 4, fun _ _ => 0⟩
     calls := [.broadcast ⟨1, .i32, [], fun _ => 0, fun _ => 4, fun _ _ => 0⟩,
      .allGather ⟨1, .i32, [], fun _ => 0, fun _ => 4, fun _ _ => 0⟩] }]
where
  o {n : ℕ} : Operands n := ⟨fun _ => 0, fun _ => 8, fun _ _ => 0⟩

section Leak

variable {s : Session}

/-- The session without its calls. -/
def Session.bare (s : Session) : Session := { s with calls := [] }

/-- What the calls of the first session add to its barrier. -/
def Session.rest (s : Session) (p : Process [s]) : List (Par (Process [s]) Stamp Store Unit) :=
  match sessionRank [s] s 0 p with
  | some r => stepsFrom (fun st k => stamp (fun i => Stamp.at 0 (Time.at k (st.1 i))) st.2) 3
      (s.calls.flatMap (Collective.steps (sessionPeers [s] s 0) r))
  | none => []

theorem sessionsProgram_eq (s : Session) (p : Process [s]) :
    sessionsProgram [s] p = sessionsProgram [s.bare] p ++ s.rest p := by
  have hrank : sessionRank [s.bare] s.bare 0 p = sessionRank [s] s 0 p := rfl
  simp only [sessionsProgram, stepsFrom, List.append_nil, Session.program, Session.rest, hrank]
  cases sessionRank [s] s 0 p with
  | none => rfl
  | some r =>
      have hlen : ((s.barrier.allReduce 1 .u32 .sum).steps (sessionPeers [s] s 0) r :
          List (Labelled (Process [s]) Stamp Unit)).length = 2 := by
        rw [AllReduceCall.steps_eq, List.length_map, AllReduceCall.pieces, barrier_parts]
        rfl
      have hbare : s.bare.collectives.flatMap
          (Collective.steps (sessionPeers [s.bare] s.bare 0) r) =
          ((s.barrier.allReduce 1 .u32 .sum).steps (sessionPeers [s] s 0) r :
            List (Labelled (Process [s]) Stamp Unit)) := List.append_nil _
      simp only [launch, List.nil_append]
      rw [Session.collectives, List.flatMap_cons, stepsFrom_append, Collective.steps, hlen, hbare]
      rfl

/-- With the indices 0 and 1 only, rank 0 keeps to itself and the others turn to rank 0. -/
theorem allGather_two (peers : Fin n → P) (g : GatherArgs) (hseq : seq (n * 2) = some [0, 1])
    (hn : 1 < n) :
    (∀ th ∈ (allGather peers ⟨0, by omega⟩ g : List (Thread P T Store O)), ¬th.Slot) ∧
      ∃ data ptr, (allGather peers ⟨1, hn⟩ g : List (Thread P T Store O)) =
        [.send (peers ⟨0, by omega⟩) g.name waitRecvBuf data,
          .slotGet (peers ⟨0, by omega⟩) g.name ptr] := by
  constructor
  · intro th hth
    simp only [allGather, hseq, List.map_cons, List.map_nil, List.mem_cons, List.not_mem_nil,
      or_false] at hth
    rcases hth with rfl | rfl <;> simp [allGatherTask, Thread.Slot]
  · have h0 : 0 < n := by omega
    refine ⟨fun σ => Memory.read (g.slice 0).send (g.slice 0).dataSize σ.mem, (g.slice 0).recv, ?_⟩
    simp [allGather, hseq, allGatherTask, h0]

/-- What a member runs after the barrier, when the only call is an `all_gather`. -/
theorem rest_gather {c : AllGatherCall s.workers.length} (hs : s.calls = [.allGather c])
    (r : Fin s.workers.length) :
    s.rest (sessionPeers [s] s 0 r) =
      [⟨Stamp.at 0 (Time.at 3 0), [.act fun σ => { σ with mem := c.mem r }]⟩,
        ⟨Stamp.at 0 (Time.at 4 0), allGather (sessionPeers [s] s 0) r (c.args r)⟩] := by
  rw [Session.rest, (session_members s 0).rank_peers, hs]
  rfl

/-- In the first session nobody waits to be launched. -/
theorem bare_launched (p : Process [s.bare]) {b : Par (Process [s.bare]) Stamp Store Unit}
    (hb : b ∈ sessionsProgram [s.bare] p) (qs : List (Process [s.bare])) (u : Stamp) :
    Thread.launch qs u ∉ b.threads := by
  intro hmem
  rw [sessionsProgram, stepsFrom, stepsFrom, List.append_nil, Session.program] at hb
  split at hb
  · next r _ =>
    rw [launch, List.nil_append] at hb
    obtain ⟨i, st, hi, hb⟩ := mem_stepsFrom hb
    obtain ⟨c, -, hc⟩ := List.mem_flatMap.mp (List.mem_of_getElem? hi)
    rw [Collective.steps_eq] at hc
    obtain ⟨pc, -, rfl⟩ := List.mem_map.mp hc
    obtain ⟨j, hj, rfl⟩ := List.mem_mapIdx.mp hb
    exact pc.plain _ _ (List.getElem_mem hj) hmem
  · exact absurd hb List.not_mem_nil

/-- All members of a single session can come to the end of its barrier, with nothing left behind
and the calls before them. -/
theorem exists_after_barrier (s : Session) (σ : Process [s] → Store) :
    ∃ c : Cluster (Process [s]) PeerId Stamp Store Unit,
      CReach Prod.fst Store.writeBody (sessionsProgram [s]) σ c ∧ (∀ p, (c p).code = s.rest p) ∧
        c.Drained := by
  have hok : ∀ s' ∈ [s.bare], s'.Ok := by
    intro s' hs'
    obtain rfl := List.mem_singleton.mp hs'
    exact fun c hc => absurd hc List.not_mem_nil
  have : Fintype (Process [s.bare]) := Fintype.ofFinite _
  obtain ⟨c, hr, -, hf⟩ := exists_final_of_progress
    (fun c hr => (sessions_progress hok hr).2.1)
    (.refl (a := Cluster.start (sessionsProgram [s.bare]) σ))
  refine ⟨c.extend s.rest, ?_, fun p => ?_, (sessions_progress hok hr).2.2 hf⟩
  · rw [funext (sessionsProgram_eq s)]
    exact hr.extend bare_launched s.rest
  · show (c p).code ++ s.rest p = s.rest p
    rw [hf p, List.nil_append]

/-- **Where `seq` has lost all indices but two, messages are sent that nobody consumes.** -/
theorem not_isolated_of_seq {c : AllGatherCall s.workers.length} (hs : s.calls = [.allGather c])
    (hn : 1 < s.workers.length) (hseq : seq (s.workers.length * 2) = some [0, 1]) :
    ¬SessionsIsolated [s] := by
  intro hiso
  have hpos : 0 < s.workers.length := by omega
  obtain ⟨c₀, hr₀, hcode, hd₀⟩ := exists_after_barrier s fun _ => ⟨fun _ => 0, 0⟩
  let d : Process [s] := sessionPeers [s] s 0 ⟨0, hpos⟩
  let q : Process [s] := sessionPeers [s] s 0 ⟨1, hn⟩
  have hqd : d ≠ q := by
    intro heq
    have := (session_members s 0).injective heq
    simp at this
  obtain ⟨hslot, -⟩ := allGather_two (T := Stamp) (O := Unit) (sessionPeers [s] s 0)
    (c.args ⟨0, hpos⟩) hseq hn
  obtain ⟨-, data, ptr, hsend⟩ := allGather_two (T := Stamp) (O := Unit) (sessionPeers [s] s 0)
    (c.args ⟨1, hn⟩) hseq hn
  -- rank 1 enters the call and sends to rank 0
  have hq : (c₀ q).code = _ := (hcode q).trans (rest_gather hs ⟨1, hn⟩)
  rw [hsend] at hq
  have hr₁ := hr₀.node (NRun.act hq)
  obtain ⟨c₂, hr₂, hc₂, -⟩ := hr₁.send_to hqd (by rw [Function.update_self])
  rw [Function.update_of_ne hqd] at hc₂
  obtain ⟨m, hflags, hm⟩ : ∃ m : Message (Process [s]) Stamp, m.flags = waitRecvBuf ∧
      c₂ d = (c₀ d).receive q m := ⟨_, rfl, hc₂⟩
  -- where it stays
  have hstranded : (c₂ d).Stranded q := by
    rw [hm]
    obtain ⟨hconn, hqueue⟩ := hd₀ d
    refine ⟨fun b hb th hth => ?_, fun y name => (hqueue y name).2.1, ?_, ⟨m, ?_, ?_⟩⟩
    · have hb' : b ∈ (c₀ d).code := hb
      rw [hcode d, rest_gather hs ⟨0, hpos⟩] at hb'
      simp only [List.mem_cons, List.not_mem_nil, or_false] at hb'
      rcases hb' with rfl | rfl
      · obtain rfl := List.mem_singleton.mp hth
        exact fun h => h
      · exact hslot th hth
    · simp [Node.receive, (hconn q).2, Handler.busy, Handler.Fits]
    · simp [Node.receive]
    · rw [Message.waits, hflags]
      rfl
  have : Fintype (Process [s]) := Fintype.ofFinite _
  obtain ⟨c', hrun, hstuck⟩ := exists_stuck Prod.fst Store.writeBody c₂
  have hend : (c' d).Stranded q := by
    clear hstuck
    induction hrun with
    | refl => exact hstranded
    | tail _ hs ih => exact hs.stranded ih
  exact hend.not_quiet ((hiso _ c' (hr₂.trans hrun)).2 hstuck)

/-- A session of `n` peers whose only call is an `all_gather` of one byte. -/
def gatherSession (n : ℕ) (hpos : 0 < n) (hle : n ≤ 2 ^ 32) : Session where
  workers := List.ofFn fun i : Fin n => ⟨UInt32.ofNat i, 10000⟩
  nodup := by
    rw [List.nodup_ofFn]
    intro i j h
    have h' := congrArg (fun x : PeerId => x.ipv4.toNat) h
    simp only [UInt32.toNat_ofNat'] at h'
    have := i.isLt
    have := j.isLt
    rw [Nat.mod_eq_of_lt (by omega), Nat.mod_eq_of_lt (by omega)] at h'
    exact Fin.ext h'
  ne_nil := by
    rw [← List.length_pos_iff, List.length_ofFn]
    exact hpos
  barrier := ⟨fun _ => 0, fun _ => 4, fun _ _ => 0⟩
  calls := [.allGather ⟨1, .u8, [], fun _ => 0, fun _ => 1, fun _ _ => 0⟩]

theorem not_isolated_gatherSession (hpos : 0 < n) (hle : n ≤ 2 ^ 32) (hn : 1 < n)
    (hseq : seq (n * 2) = some [0, 1]) : ¬SessionsIsolated [gatherSession n hpos hle] := by
  have hlen : (gatherSession n hpos hle).workers.length = n := List.length_ofFn
  refine not_isolated_of_seq rfl (by rw [hlen]; exact hn) ?_
  rw [hlen]
  exact hseq

end Leak

end StdmlCollective

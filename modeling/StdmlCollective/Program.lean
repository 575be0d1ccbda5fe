import StdmlCollective.Sessions
import StdmlCollective.SendRecv

/-!
# Programs of collectives

An application, as its peers run it: local work, collectives and transfers from one peer to
another, in the same order at every peer.
`Instr.apply` is the reference: what an instruction should make of the memories of all peers, taken
at once. `Instr.outcome` is what it makes of them over the topology that is used; over a ring the two
differ when a peer on the way does not work in place. The peers run on their own, and nothing but
their messages keeps them together; still every run computes the outcome.

An instruction is a row of stages, a collective being cut into parts, and every stage has a
contract: what its messages carry is determined by the memories before it.

That no run gets stuck asks for less (`Instr.Legal`) than that its values are determined
(`Instr.Ok`), and that they are those of the reference asks for more (`Instr.Served`).
-/

namespace StdmlCollective

open BlockNet LittleEndian
open Memory (Mem)

variable {n : ℕ}

/-! ## The reference -/

/-- The arguments of a collective, as all peers pass them; the buffers are each peer's own. -/
structure CallArgs (n : ℕ) where
  count : ℕ
  dt : Dtype
  name : Bytes
  input : Fin n → Addr
  output : Fin n → Addr

namespace CallArgs

/-- A call of `all_reduce` with these arguments, on the memories `M`. -/
def reduce (a : CallArgs n) (op : ReduceOp) (M : Fin n → Mem) : AllReduceCall n :=
  ⟨a.count, a.dt, op, a.name, a.input, a.output, M⟩

/-- A call of `all_gather`. -/
def gather (a : CallArgs n) (M : Fin n → Mem) : AllGatherCall n :=
  ⟨a.count, a.dt, a.name, a.input, a.output, M⟩

/-- A call of `broadcast`. -/
def bcast (a : CallArgs n) (M : Fin n → Mem) : BroadcastCall n :=
  ⟨a.count, a.dt, a.name, a.input, a.output, M⟩

end CallArgs

/-- What all peers do next: each some work of its own, a collective together, a transfer from one of
them to another, or each a look at its memory. -/
inductive Instr (n : ℕ) where
  | work (f : Fin n → Mem → Mem)
  | allReduce (a : CallArgs n) (op : ReduceOp)
  | allGather (a : CallArgs n)
  | broadcast (a : CallArgs n)
  | transfer (c : SendCall n)
  | observe (f : Fin n → Mem → Bytes)

/-- What an instruction should make of the memories of the peers. -/
def Instr.apply [NeZero n] (M : Fin n → Mem) : Instr n → Fin n → Mem
  | .work f => fun r => f r (M r)
  | .allReduce a op => fun r => Memory.write (a.output r) (a.reduce op M).result (M r)
  | .allGather a => fun r => Memory.write (a.output r) (a.gather M).result (M r)
  | .broadcast a => fun r => Memory.write (a.output r) ((a.bcast M).inputData 0) (M r)
  | .transfer c => c.apply M
  | .observe _ => M

/-- What a program should make of the memories of the peers. -/
def reference [NeZero n] (prog : List (Instr n)) (M : Fin n → Mem) : Fin n → Mem :=
  prog.foldl Instr.apply M

/-! ## The outcome -/

section Outcome

variable [NeZero n]

/-- What peer `r` has of an `all_reduce` in the end. -/
def AllReduceCall.reduced (s : Strategy) (c : AllReduceCall n) (r : Fin n) : Bytes :=
  match s with
  | .star => c.result
  | .ring => c.parts.flatMap fun e => c.ringOut e r

/-- What an instruction makes of the memories of the peers over the topology of `s`. -/
def Instr.outcome (s : Strategy) (M : Fin n → Mem) : Instr n → Fin n → Mem
  | .work f => fun r => f r (M r)
  | .allReduce a op => fun r => Memory.write (a.output r) ((a.reduce op M).reduced s r) (M r)
  | .allGather a => fun r => Memory.write (a.output r) (a.gather M).result (M r)
  | .broadcast a => fun r => Memory.write (a.output r) ((a.bcast M).received s r) (M r)
  | .transfer c => c.apply M
  | .observe _ => M

/-- What a program makes of them. -/
def outcome (s : Strategy) (prog : List (Instr n)) (M : Fin n → Mem) : Fin n → Mem :=
  prog.foldl (Instr.outcome s) M

end Outcome

/-! ## What a peer runs -/

section Peer

variable [NeZero n]

/-- The labels of the sections of a part. -/
def partLabels (s : Strategy) (name : Bytes) (rank : Fin n) : ℕ → ℕ :=
  match s with
  | .star => starLab 0 rank
  | .ring => ringLab (nameBasedHash name % n) rank

/-- The sections of an instruction, number `k` of the program, as peer `rank` runs it. -/
def Instr.steps (s : Strategy) (rank : Fin n) (k : ℕ) :
    Instr n → List (Labelled (Fin n) Stamp Bytes)
  | .work f => [(id, [[.act fun σ => { σ with mem := f rank σ.mem }]])]
  | .allReduce a op =>
      (splitWork ⟨a.input rank, a.output rank, a.count, a.dt, op, a.name⟩ (makeGraphPairList s n)
        allReduceChunkSize).map fun p =>
          (partLabels s p.1.name rank, runGraphsMultiThread id rank p.1 p.2)
  | .allGather a =>
      [(id, [StdmlCollective.allGather id rank
        ⟨a.input rank, a.output rank, a.count, a.dt, a.name⟩])]
  | .broadcast a =>
      [(broadcastLab s rank, StdmlCollective.broadcast s id rank
        ⟨a.input rank, a.output rank, a.count, a.dt, .sum, a.name⟩)]
  | .transfer c => [(id, c.sections rank)]
  | .observe f => [(id, [[.ret k fun σ => f rank σ.mem]])]

/-- The steps of an instruction, one after the other. -/
def Instr.run (s : Strategy) (rank : Fin n) (ins : Instr n) (k : ℕ) :
    List (Par (Fin n) Stamp Store Bytes) :=
  stepsFrom (fun st j => stamp (fun i => Stamp.at k (Time.at j (st.1 i))) st.2) 0
    (ins.steps s rank k)

/-- What peer `rank` runs. -/
def peerProgram (s : Strategy) (prog : List (Instr n)) (rank : Fin n) :
    List (Par (Fin n) Stamp Store Bytes) :=
  stepsFrom (Instr.run s rank) 0 prog

/-- But for the times, the sections of `all_reduce` are those of
`run_graph_pair_list_multi_thread`. -/
theorem allReduce_threads (s : Strategy) (rank : Fin n) (k : ℕ) (a : CallArgs n) (op : ReduceOp) :
    ((Instr.allReduce a op).steps s rank k).map Prod.snd =
      runGraphPairListMultiThread id rank ⟨a.input rank, a.output rank, a.count, a.dt, op, a.name⟩
        (makeGraphPairList s n) allReduceChunkSize := by
  rw [Instr.steps, List.map_map, runGraphPairListMultiThread]
  rfl

end Peer

/-! ## Stages -/

/-- The steps of the instructions, for all peers at once. -/
inductive Stage (n : ℕ) where
  | work (f : Fin n → Mem → Mem)
  | part (a : CallArgs n) (op : ReduceOp) (e : ℕ × ℕ)
  | gather (a : CallArgs n)
  | broadcast (a : CallArgs n)
  | transfer (c : SendCall n)
  | observe (f : Fin n → Mem → Bytes)

/-- The parts of an `all_reduce` with these arguments. -/
def CallArgs.parts (a : CallArgs n) : List (ℕ × ℕ) :=
  evenPartition 0 a.count (ceilDiv (a.count * dtypeSize a.dt) allReduceChunkSize)

/-- The stages of an instruction. -/
def Instr.stages : Instr n → List (Stage n)
  | .work f => [.work f]
  | .allReduce a op => a.parts.map (Stage.part a op)
  | .allGather a => [.gather a]
  | .broadcast a => [.broadcast a]
  | .transfer c => [.transfer c]
  | .observe f => [.observe f]

section Stages

variable [NeZero n]

/-- What a stage makes of the memories of the peers. -/
def Stage.outcome (s : Strategy) (M : Fin n → Mem) : Stage n → Fin n → Mem
  | .work f => fun r => f r (M r)
  | .part a op e => fun r =>
      Memory.write (((a.reduce op M).workspace r).slice e.1 e.2).recv
        ((a.reduce op M).partOut s e r) (M r)
  | .gather a => fun r => Memory.write (a.output r) (a.gather M).result (M r)
  | .broadcast a => fun r => Memory.write (a.output r) ((a.bcast M).received s r) (M r)
  | .transfer c => c.apply M
  | .observe _ => M

/-- A stage as peer `rank` runs it. -/
def Stage.step (s : Strategy) (rank : Fin n) (k : ℕ) : Stage n → Labelled (Fin n) Stamp Bytes
  | .work f => (id, [[.act fun σ => { σ with mem := f rank σ.mem }]])
  | .part a op e =>
      let p := Workspace.slice ⟨a.input rank, a.output rank, a.count, a.dt, op, a.name⟩ e.1 e.2
      let g := (makeGraphPairList s n).choose (nameBasedHash p.name)
      (partLabels s p.name rank, runGraphsMultiThread id rank p [g.reduceGraph, g.broadcastGraph])
  | .gather a =>
      (id, [StdmlCollective.allGather id rank
        ⟨a.input rank, a.output rank, a.count, a.dt, a.name⟩])
  | .broadcast a =>
      (broadcastLab s rank, StdmlCollective.broadcast s id rank
        ⟨a.input rank, a.output rank, a.count, a.dt, .sum, a.name⟩)
  | .transfer c => (id, c.sections rank)
  | .observe f => (id, [[.ret k fun σ => f rank σ.mem]])

/-- The sections of a stage at the times `lab`. -/
def Stage.run (s : Strategy) (k : ℕ) (lab : ℕ → Stamp) (st : Stage n) (rank : Fin n) :
    List (Par (Fin n) Stamp Store Bytes) :=
  stamp (fun i => lab ((st.step s rank k).1 i)) (st.step s rank k).2

theorem Instr.steps_eq (s : Strategy) (rank : Fin n) (k : ℕ) (ins : Instr n) :
    ins.steps s rank k = ins.stages.map (Stage.step s rank k) := by
  cases ins with
  | allReduce a op =>
      rw [Instr.steps, splitWork, Workspace.split, List.map_map, Instr.stages, List.map_map,
        List.map_map]
      rfl
  | work f | allGather a | broadcast a | transfer c | observe f => rfl

theorem Instr.run_blocks (s : Strategy) (rank : Fin n) (ins : Instr n) (k : ℕ) :
    blocks Store.writeBody (ins.run s rank k) =
      stepsFrom (fun st j => blocks Store.writeBody
        (st.run s k (fun i => Stamp.at k (Time.at j i)) rank)) 0 ins.stages := by
  rw [Instr.run, Instr.steps_eq, stepsFrom_map, blocks, map_stepsFrom]
  rfl

theorem peerProgram_blocks (s : Strategy) (prog : List (Instr n)) (rank : Fin n) :
    blocks Store.writeBody (peerProgram s prog rank) =
      stepsFrom (fun ins k => blocks Store.writeBody (ins.run s rank k)) 0 prog := by
  rw [peerProgram, blocks, map_stepsFrom]
  rfl

end Stages

/-! ## What is asked of the arguments -/

/-- Arguments with which an instruction runs to its end: a name without NUL; at least one element and
an operation that `reduce` has for their type; and two peers for a transfer. -/
def Instr.Legal : Instr n → Prop
  | .allReduce a op => 1 ≤ a.count ∧ NulFree a.name ∧ (elemOp a.dt op).isSome
  | .allGather a | .broadcast a => NulFree a.name
  | .transfer c => c.Legal
  | .work _ | .observe _ => True

/-- Arguments for which the values are determined: integers, buffers that do not overlap, and sizes
that fit into a message. -/
def Instr.Ok : Instr n → Prop
  | .allReduce a op => ∀ M, (a.reduce op M).Ok
  | .allGather a => ∀ M, (a.gather M).Ok
  | .broadcast a => ∀ M, (a.bcast M).Ok
  | .transfer c => c.Ok
  | .work _ | .observe _ => True

/-- The topology serves the collective: over a ring of more than two peers, a peer on the way sends
on its own input unless it works in place. -/
def Instr.Served (s : Strategy) : Instr n → Prop
  | .allReduce a _ | .broadcast a => s = .star ∨ n ≤ 2 ∨ ∀ r, a.input r = a.output r
  | .allGather _ | .transfer _ | .work _ | .observe _ => True

/-- The same for the stages. -/
def Stage.Legal : Stage n → Prop
  | .part a op _ => NulFree a.name ∧ (elemOp a.dt op).isSome
  | .gather a | .broadcast a => NulFree a.name
  | .transfer c => c.Legal
  | .work _ | .observe _ => True

def Stage.Ok : Stage n → Prop
  | .part a op e => (∀ M, (a.reduce op M).Ok) ∧ e ∈ a.parts
  | .gather a => ∀ M, (a.gather M).Ok
  | .broadcast a => ∀ M, (a.bcast M).Ok
  | .transfer c => c.Ok
  | .work _ | .observe _ => True

theorem Instr.Ok.legal {ins : Instr n} (h : ins.Ok) : ins.Legal := by
  cases ins with
  | allReduce a op =>
      have hc := h fun _ _ => 0
      have hop := elemOp_of_isInt hc.isInt op
      exact ⟨hc.count_pos, hc.nulFree, Option.isSome_iff_exists.mpr ⟨_, hop⟩⟩
  | allGather a | broadcast a => exact (h fun _ _ => 0).nulFree
  | transfer c => exact h.toLegal
  | work f | observe f => trivial

theorem Instr.stages_legal {ins : Instr n} (h : ins.Legal) {st : Stage n} (hst : st ∈ ins.stages) :
    st.Legal := by
  cases ins with
  | allReduce a op =>
      obtain ⟨e, he, rfl⟩ := List.mem_map.mp hst
      exact h.2
  | work f | allGather a | broadcast a | transfer c | observe f =>
      obtain rfl := List.mem_singleton.mp hst
      exact h

theorem Instr.stages_ok {ins : Instr n} (h : ins.Ok) {st : Stage n} (hst : st ∈ ins.stages) :
    st.Ok := by
  cases ins with
  | allReduce a op =>
      obtain ⟨e, he, rfl⟩ := List.mem_map.mp hst
      exact ⟨h, he⟩
  | work f | allGather a | broadcast a | transfer c | observe f =>
      obtain rfl := List.mem_singleton.mp hst
      exact h

/-- The parts of an `all_reduce` as all peers run them. -/
theorem CallArgs.partOk {a : CallArgs n} {op : ReduceOp} {f : ℕ → ℕ → ℕ} (hname : NulFree a.name)
    (hf : elemOp a.dt op = some f) (M : Fin n → Mem) (e : ℕ × ℕ) (v : Fin n) :
    PartOk (fun r => ((a.reduce op M).workspace r).slice e.1 e.2) (partName a.name e.1 e.2) v f where
  name_eq _ := rfl
  nulFree := nulFree_partName hname _ _
  op := hf

theorem CallArgs.gatherOk {a : CallArgs n} (hname : NulFree a.name) (M : Fin n → Mem) :
    GatherOk (a.gather M).args a.name := ⟨fun _ => rfl, hname⟩

theorem CallArgs.agree {a : CallArgs n} (hname : NulFree a.name) (M : Fin n → Mem) :
    Agree (a.bcast M).workspace a.name := ⟨fun _ => rfl, hname⟩

/-! ## What the messages carry -/

section Carries

variable [NeZero n]

/-- What a message of a stage carries when the memories before it are `M`: from whom, to whom, and
the label of the section that sends it. -/
def Stage.Carries (s : Strategy) (M : Fin n → Mem) :
    Stage n → Fin n → Fin n → ℕ → Bytes → Prop
  | .part a op e, src, dst, i, d =>
      let c := a.reduce op M
      match s with
      | .star => d = if dst = 0 then c.partInput e src else c.partResult e
      | .ring =>
          d = if i < n + 4 then ringReduced c.elemOp (dtypeSize c.dt) (e.2 - e.1) (c.partInput e)
              (c.ringRoot e) (pos (c.ringRoot e + 1) src)
            else c.ringOut e dst
  | .gather a, src, _, _, d => d = ((a.gather M).args src).data (M src)
  | .broadcast a, _, dst, _, d => d = (a.bcast M).received s dst
  | .transfer c, _, _, _, d => d = c.data M
  | .work _, _, _, _, _ | .observe _, _, _, _, _ => True

/-! The runs of the stages are those of the parts of a call. -/

section Runs

variable (k : ℕ) (lab : ℕ → Stamp) (a : CallArgs n) (op : ReduceOp) (e : ℕ × ℕ) (M : Fin n → Mem)

theorem Stage.run_part_star (r : Fin n) :
    (Stage.part a op e).run .star k lab r =
      starRun lab id some 0 (fun r => ((a.reduce op M).workspace r).slice e.1 e.2) r := by
  rw [Stage.run, Stage.step, choose_star]
  rfl

theorem Stage.run_part_ring (r : Fin n) :
    (Stage.part a op e).run .ring k lab r =
      ringRun lab ((a.reduce op M).ringRoot e)
        (fun r => ((a.reduce op M).workspace r).slice e.1 e.2) r := by
  rw [Stage.run, Stage.step, choose_ring]
  rfl

theorem Stage.run_gather (s : Strategy) (r : Fin n) :
    (Stage.gather a).run s k lab r = allGatherRun (lab 0) id some (a.gather M).args r := rfl

theorem Stage.run_broadcast_star (r : Fin n) :
    (Stage.broadcast a).run .star k lab r =
      starBroadcastRun lab id some 0 (a.bcast M).workspace r := rfl

theorem Stage.run_broadcast_ring (r : Fin n) :
    (Stage.broadcast a).run .ring k lab r = ringBroadcastRun lab (a.bcast M).workspace r := by
  rw [Stage.run, Stage.step, broadcast_ring]
  rfl

end Runs

variable {s : Strategy} {st : Stage n}

/-- A stage is compatible. -/
theorem Stage.compat (hn : n < 2 ^ 30) (h : st.Legal) (k : ℕ) {lab : ℕ → Stamp}
    (hlab : StrictMono lab) :
    Compat fun r => blocks Store.writeBody (st.run s k lab r) := by
  cases st with
  | work f => exact ⟨fun p => .cons (Block.valid_act _ _) .nil (by simp), fun s d => rfl⟩
  | observe f => exact ⟨fun p => .cons (Block.valid_emit _ _ _) .nil (by simp), fun s d => rfl⟩
  | part a op e =>
      obtain ⟨f, hf⟩ := Option.isSome_iff_exists.mp h.2
      have hpart := CallArgs.partOk h.1 hf (fun _ _ => 0) e
      cases s with
      | star =>
          simp only [Stage.run_part_star k lab a op e fun _ _ => 0]
          exact star_compat hlab members_id (hpart 0)
      | ring =>
          simp only [Stage.run_part_ring k lab a op e fun _ _ => 0]
          exact ring_compat hlab _ hpart
  | gather a =>
      simp only [Stage.run_gather k lab a fun _ _ => 0]
      exact allGather_compat hn _ members_id (CallArgs.gatherOk h _)
  | broadcast a =>
      have hagree := CallArgs.agree h fun _ _ => 0
      cases s with
      | star =>
          simp only [Stage.run_broadcast_star k lab a fun _ _ => 0]
          exact starBroadcast_compat hlab members_id hagree
      | ring =>
          simp only [Stage.run_broadcast_ring k lab a fun _ _ => 0]
          exact ringBroadcast_compat hlab hagree
  | transfer c => exact SendCall.run_compat lab h

/-- **What one stage computes**, when its messages carry what they should. -/
theorem Stage.good {C : Contract (Fin n) Stamp Key Bytes Bytes} {k : ℕ} {lab : ℕ → Stamp}
    {M : Fin n → Mem} (hn : n < 2 ^ 30) (h : st.Ok)
    (hC : ∀ src dst i key d, C.msg src dst ⟨lab i, key, d⟩ ↔ st.Carries s M src dst i d)
    (hout : ∀ f, st = .observe f → ∀ r, C.out r k (f r (M r))) (r : Fin n) {σ : Store}
    (hσ : σ.mem = M r) :
    Good C r (fun τ => τ.mem = st.outcome s M r) (blocks Store.writeBody (st.run s k lab r)) σ := by
  cases st with
  | work f => exact Good.single (.done (congrArg (f r) hσ))
  | observe f =>
      refine Good.single ⟨?_, .done hσ⟩
      simp only [hσ]
      exact hout f rfl r
  | part a op e =>
      obtain ⟨hok, he⟩ := h
      have hc := hok M
      cases s with
      | star =>
          rw [Stage.run_part_star k lab a op e M]
          have hpart : PartContract C lab id 0 (partName a.name e.1 e.2)
              ((a.reduce op M).partInput e) ((a.reduce op M).partResult e) := by
            constructor
            · exact fun q _ d => by simp [hC, Carries]
            · exact fun q hq d => by simp [hC, Carries, hq]
          exact star_good members_id (hc.part e) (hc.fits he) hpart
            (fun l hl => AllReduceCall.settled_part (.inl (by omega)) (fun _ => rfl) hl) r hσ
      | ring =>
          rw [Stage.run_part_ring k lab a op e M]
          have hring : RingContract C lab ((a.reduce op M).ringRoot e) (partName a.name e.1 e.2)
              (fun v => ringReduced (a.reduce op M).elemOp (dtypeSize a.dt) (e.2 - e.1)
                ((a.reduce op M).partInput e) ((a.reduce op M).ringRoot e)
                (pos ((a.reduce op M).ringRoot e + 1) v)) ((a.reduce op M).ringOut e) := by
            constructor
            · intro u v huv d
              have hlt := pos_lt ((a.reduce op M).ringRoot e + 1) v
              have hlabel : pos ((a.reduce op M).ringRoot e + 1) u + 2 < n + 4 := by omega
              simp only [hC, Carries, hlabel, if_true]
              rfl
            · intro u v _ d
              have hlabel : ¬n + 4 + pos ((a.reduce op M).ringRoot e) u < n + 4 := by omega
              simp only [hC, Carries, hlabel, if_false]
          exact ring_good (hc.ringPart e) (hc.fits he) hring
            (AllReduceCall.ringValues fun _ => rfl) r hσ
  | gather a =>
      have hc := h M
      rw [Stage.run_gather k lab a M]
      exact allGather_writes (s := (a.gather M).size) hn members_id hc.gather hc.fits
        (fun _ => rfl) (fun q r _ d => hC q r 0 _ d) r hσ
  | broadcast a =>
      have hc := h M
      cases s with
      | star =>
          rw [Stage.run_broadcast_star k lab a M]
          exact starBroadcast_good members_id hc.agree hc.fits (fun _ => rfl)
            (fun q _ d => hC _ q 2 _ d) r hσ
      | ring =>
          rw [Stage.run_broadcast_ring k lab a M]
          exact ringBroadcast_good hc.agree hc.fits (fun _ => rfl) (fun u v _ d => hC u v _ _ d) r hσ
  | transfer c => exact SendCall.run_good h (fun d => hC _ _ 0 _ d) r hσ

/-! ## An instruction is its stages -/

/-- The memory of peer `r` when the parts `l` of a call have run. -/
def AllReduceCall.after (s : Strategy) (c : AllReduceCall n) (l : List (ℕ × ℕ)) (r : Fin n) : Mem :=
  Memory.write (c.recv r) (l.flatMap fun e => c.partOut s e r) (c.mem r)

section Parts

variable {c : AllReduceCall n} {e : ℕ × ℕ} {l : List (ℕ × ℕ)}

/-- The parts, one after the other, are all there is. -/
theorem AllReduceCall.after_parts (hc : c.Ok) (r : Fin n) :
    c.after s c.parts r = Memory.write (c.recv r) (c.reduced s r) (c.mem r) := by
  cases s with
  | star => rw [reduced, result_eq_flatMap hc]; rfl
  | ring => rfl

/-- The parts before part `e` leave its inputs as they are. -/
theorem AllReduceCall.partInput_after (hc : c.Ok) (hl : Covers 0 e.1 l) (he : e ∈ c.parts)
    (r : Fin n) : ((c.workspace r).slice e.1 e.2).input (c.after s l r) = c.partInput e r := by
  obtain ⟨hle, hcount⟩ := (c.parts_covers hc.count_pos).mem he
  have hlen : (l.flatMap fun e => c.partOut s e r).length = e.1 * dtypeSize c.dt := by
    rw [hl.length_flatMap fun e => length_partOut s r, Nat.sub_zero]
  have hbefore : ((c.workspace r).slice e.1 e.2).input
      (c.before (l.flatMap fun e => c.partOut s e r) e.1 r) = c.partInput e r :=
    input_before hc hle hcount r
  rwa [before, ← hlen, List.take_length] at hbefore

/-- What peers have of a part in the end is a matter of their inputs. -/
theorem CallArgs.partOut_congr {a : CallArgs n} {op : ReduceOp} {M M' : Fin n → Mem}
    (h : (a.reduce op M).partInput e = (a.reduce op M').partInput e) :
    (a.reduce op M).partOut s e = (a.reduce op M').partOut s e := by
  have hresult : (a.reduce op M).partResult e = (a.reduce op M').partResult e := by
    rw [AllReduceCall.partResult, AllReduceCall.partResult, h]
    rfl
  funext r
  cases s with
  | star => exact hresult
  | ring =>
      rw [AllReduceCall.partOut, AllReduceCall.partOut, AllReduceCall.ringOut,
        AllReduceCall.ringOut, hresult, h]
      rfl

end Parts

/-- One part after the others. -/
theorem CallArgs.part_outcome {a : CallArgs n} {op : ReduceOp} {M : Fin n → Mem} {e : ℕ × ℕ}
    {l : List (ℕ × ℕ)} (hc : (a.reduce op M).Ok) (hl : Covers 0 e.1 l) (he : e ∈ a.parts) :
    (Stage.part a op e).outcome s ((a.reduce op M).after s l) =
      (a.reduce op M).after s (l ++ [e]) := by
  have hinput : (a.reduce op ((a.reduce op M).after s l)).partInput e =
      (a.reduce op M).partInput e := funext fun r => AllReduceCall.partInput_after hc hl he r
  funext r
  have hlen : (l.flatMap fun e => (a.reduce op M).partOut s e r).length = e.1 * dtypeSize a.dt := by
    rw [hl.length_flatMap fun e => AllReduceCall.length_partOut s r, Nat.sub_zero]
    rfl
  simp only [Stage.outcome, CallArgs.partOut_congr hinput, AllReduceCall.after,
    List.flatMap_append, Memory.write_append, hlen, List.flatMap_singleton]
  rfl

/-- The parts of an `all_reduce`, one after the other. -/
theorem CallArgs.foldl_parts {a : CallArgs n} {op : ReduceOp} (hok : ∀ M, (a.reduce op M).Ok)
    (M : Fin n → Mem) :
    (a.parts.map (Stage.part a op)).foldl (Stage.outcome s) M =
      (Instr.allReduce a op).outcome s M := by
  have hc := hok M
  have hcovers := (a.reduce op M).parts_covers hc.count_pos
  -- from the parts that have run to those that are left
  have hrun : ∀ l₂ l₁, a.parts = l₁ ++ l₂ →
      (l₂.map (Stage.part a op)).foldl (Stage.outcome s) ((a.reduce op M).after s l₁) =
        (a.reduce op M).after s (l₁ ++ l₂) := by
    intro l₂
    induction l₂ with
    | nil => simp
    | cons e l₂ ih =>
        intro l₁ hl
        have htake : Covers 0 e.1 l₁ := by
          have := hcovers.take (i := l₁.length) (e := e) (by
            change a.parts[l₁.length]? = some e
            simp [hl])
          rwa [show (a.reduce op M).parts = a.parts from rfl, hl, List.take_left] at this
        have he : e ∈ a.parts := by simp [hl]
        rw [List.map_cons, List.foldl_cons, CallArgs.part_outcome hc htake he,
          ih (l₁ ++ [e]) (by simp [hl])]
        simp
  have hnone : (a.reduce op M).after s [] = M := funext fun r => by
    simp [AllReduceCall.after, reduce]
  have hall := hrun a.parts [] rfl
  rw [hnone, List.nil_append] at hall
  exact hall.trans (funext fun r => AllReduceCall.after_parts hc r)

theorem Instr.foldl_stages {ins : Instr n} (h : ins.Ok) (M : Fin n → Mem) :
    ins.stages.foldl (Stage.outcome s) M = ins.outcome s M := by
  cases ins with
  | allReduce a op => exact a.foldl_parts h M
  | work f | allGather a | broadcast a | transfer c | observe f => rfl

/-! ## Where the outcome is the reference -/

/-- Where the topology serves the collectives, an instruction does what it should. -/
theorem Instr.outcome_eq {ins : Instr n} (h : ins.Ok) (hserved : ins.Served s) (M : Fin n → Mem) :
    ins.outcome s M = ins.apply M := by
  cases ins with
  | work f | allGather a | transfer c | observe f => rfl
  | allReduce a op =>
      have hreduced : ∀ r, (a.reduce op M).reduced s r = (a.reduce op M).result := by
        intro r
        cases s with
        | star => rfl
        | ring =>
            rw [AllReduceCall.result_eq_flatMap (h M)]
            refine List.flatMap_congr fun e _ => ?_
            refine (AllReduceCall.ringOut_eq_iff e).mpr ?_ r
            rcases hserved with hs | hs | hs
            · simp at hs
            · exact .inl hs
            · exact .inr (.inl (hs _))
      simp only [outcome, apply, hreduced]
  | broadcast a =>
      have hreceived : ∀ r, (a.bcast M).received s r = (a.bcast M).inputData 0 := by
        intro r
        cases s with
        | star => rfl
        | ring =>
            refine BroadcastCall.passedOn_eq_iff.mpr (fun v hv hlt => ?_) r
            rcases hserved with hs | hs | hs
            · simp at hs
            · omega
            · exact .inl (hs v)
      simp only [outcome, apply, hreceived]

/-- And so does a program. -/
theorem outcome_eq {prog : List (Instr n)} (hok : ∀ ins ∈ prog, ins.Ok)
    (hserved : ∀ ins ∈ prog, ins.Served s) (M : Fin n → Mem) :
    outcome s prog M = reference prog M := by
  rw [outcome, reference]
  refine List.foldl_ext _ _ M fun M' ins hins => ?_
  exact Instr.outcome_eq (hok ins hins) (hserved ins hins) M'

/-! ## The contract of a program -/

/-- The number of the stage, in its instruction, that a time belongs to. -/
def Stamp.stage (t : Stamp) : ℕ := Time.step (ofLex t).2

/-- The label of a time in its stage. -/
def Stamp.label (t : Stamp) : ℕ := (ofLex (ofLex t).2).2

/-- What the messages of a program carry and what its peers observe, when it begins with the
memories `M`. The version of a time is the number of its instruction. -/
def programContract (s : Strategy) (prog : List (Instr n)) (M : Fin n → Mem) :
    Contract (Fin n) Stamp Key Bytes Bytes where
  msg src dst m := ∀ ins st, prog[m.time.version]? = some ins →
    ins.stages[m.time.stage]? = some st →
      st.Carries s ((ins.stages.take m.time.stage).foldl (Stage.outcome s)
        (outcome s (prog.take m.time.version) M)) src dst m.time.label m.data
  out r i v := ∃ f, prog[i]? = some (.observe f) ∧ v = f r (outcome s (prog.take i) M r)

omit [NeZero n] in
theorem Instr.observe_of_stages {ins : Instr n} {j : ℕ} {f : Fin n → Mem → Bytes}
    (h : ins.stages[j]? = some (.observe f)) : ins = .observe f ∧ j = 0 := by
  cases ins with
  | allReduce a op => simp [stages] at h
  | work g | allGather a | broadcast a | transfer c | observe g =>
      obtain ⟨hj, hg⟩ := List.getElem?_eq_some_iff.mp h
      obtain rfl : j = 0 := Nat.lt_one_iff.mp hj
      simp_all [stages]

omit [NeZero n] in
theorem foldl_take_add_one {α β : Type} {f : β → α → β} {l : List α} {i : ℕ} {a : α}
    (h : l[i]? = some a) (b : β) : (l.take (i + 1)).foldl f b = f ((l.take i).foldl f b) a := by
  simp [List.take_add_one, h]

variable {prog : List (Instr n)} {M : Fin n → Mem}

/-- The instructions of a program, one by one, make of the memories what the outcome is. -/
theorem peerProgram_good (hn : n < 2 ^ 30) (hok : ∀ ins ∈ prog, ins.Ok) (r : Fin n) {σ : Store}
    (hσ : σ.mem = M r) :
    Good (programContract s prog M) r (fun τ => τ.mem = outcome s prog M r)
      (blocks Store.writeBody (peerProgram s prog r)) σ := by
  rw [peerProgram_blocks]
  have hgood := Good.steps (C := programContract s prog M) (p := r)
    (F := fun ins k => blocks Store.writeBody (Instr.run s r ins k))
    (fun k τ => τ.mem = outcome s (prog.take k) M r) prog 0 (fun k ins hk τ hτ => ?_) hσ
  · simpa using hgood
  · have hins := hok ins (List.mem_of_getElem? hk)
    rw [Nat.zero_add, Instr.run_blocks]
    refine (Good.steps (fun j τ => τ.mem = (ins.stages.take j).foldl (Stage.outcome s)
      (outcome s (prog.take k) M) r) ins.stages 0 (fun j st hj τ' hτ' => ?_) hτ).mono
        fun τ' hτ' => ?_
    · have hst := List.mem_of_getElem? hj
      rw [Nat.zero_add]
      simp only [foldl_take_add_one hj]
      refine Stage.good hn (Instr.stages_ok hins hst) (fun src dst i key d => ?_)
        (fun f hf q => ?_) r hτ'
      · constructor
        · exact fun h => h ins st hk hj
        · intro h ins' st' hk' hj'
          obtain rfl : ins = ins' := Option.some.inj (hk.symm.trans hk')
          obtain rfl : st = st' := Option.some.inj (hj.symm.trans hj')
          exact h
      · subst hf
        obtain ⟨rfl, rfl⟩ := Instr.observe_of_stages hj
        exact ⟨f, hk, rfl⟩
    · rw [hτ', List.take_length, Instr.foldl_stages hins]
      exact congrFun (foldl_take_add_one hk M).symm r

/-- The peers run compatible programs. -/
theorem peerProgram_compat (hn : n < 2 ^ 30) (hlegal : ∀ ins ∈ prog, ins.Legal) :
    Compat fun r => blocks Store.writeBody (peerProgram s prog r) := by
  simp only [peerProgram_blocks]
  have htime : ∀ (r : Fin n) (ins : Instr n) (k : ℕ),
      ∀ b ∈ blocks Store.writeBody (ins.run s r k), b.time.version = k := by
    intro r ins k b hb
    rw [Instr.run_blocks] at hb
    obtain ⟨j, st, -, hb⟩ := mem_stepsFrom hb
    simp only [Stage.run, blocks, stamp, List.mem_map, List.mem_mapIdx] at hb
    obtain ⟨_, ⟨i, _, rfl⟩, rfl⟩ := hb
    rfl
  refine Compat.numbered (F := fun r ins k => blocks Store.writeBody (Instr.run s r ins k))
    Stamp.version (fun t u h => Stamp.lt_of_version_lt h) htime (fun ins hins k => ?_) 0
  simp only [Instr.run_blocks]
  refine Compat.stepsFrom (F := fun r st j => blocks Store.writeBody
    (Stage.run s k (fun i => Stamp.at k (Time.at j i)) st r))
    (fun r st st' j j' hj b hb b' hb' => ?_) 0 fun j st hj => ?_
  · simp only [Stage.run, blocks, stamp, List.mem_map, List.mem_mapIdx] at hb hb'
    obtain ⟨_, ⟨i, _, rfl⟩, rfl⟩ := hb
    obtain ⟨_, ⟨i', _, rfl⟩, rfl⟩ := hb'
    exact Stamp.at_strictMono k (Time.lt_of_step_lt hj)
  · refine Stage.compat hn (Instr.stages_legal (hlegal ins hins) (List.mem_of_getElem? hj)) k ?_
    exact (Stamp.at_strictMono k).comp (Time.at_strictMono _)

theorem peerProgram_fresh (s : Strategy) (prog : List (Instr n)) (r : Fin n)
    {b : Par (Fin n) Stamp Store Bytes} (hb : b ∈ peerProgram s prog r)
    {th : Thread (Fin n) Stamp Store Bytes} (hth : th ∈ b.threads) : th.Fresh := by
  obtain ⟨k, ins, -, hb⟩ := mem_stepsFrom hb
  obtain ⟨j, st, hj, hb⟩ := mem_stepsFrom hb
  refine fresh_stamp (fun ths hths th hth => ?_) hb hth
  rw [Instr.steps_eq] at hj
  obtain ⟨st, -, rfl⟩ := List.mem_map.mp (List.mem_of_getElem? hj)
  cases st with
  | work f | observe f =>
      obtain rfl := List.mem_singleton.mp hths
      obtain rfl := List.mem_singleton.mp hth
      trivial
  | part a op e | broadcast a => exact fresh_runGraphs hths hth
  | gather a =>
      obtain rfl := List.mem_singleton.mp hths
      exact (plain_allGather hth).fresh
  | transfer c => exact SendCall.sections_fresh hths hth

section Runs

variable {ident : Fin n → PeerId} {σ : Fin n → Store}
variable {x : Cluster (Fin n) PeerId Stamp Store Bytes}

/-- What a run of a program stands for: a matched network. -/
theorem program_matched (hid : Function.Injective ident) (hn : n < 2 ^ 30)
    (hlegal : ∀ ins ∈ prog, ins.Legal)
    (hx : CReach ident Store.writeBody (peerProgram s prog) σ x) :
    ∃ a, Reach (fun r => blocks Store.writeBody (peerProgram s prog r)) σ a ∧
      Sim ident Store.writeBody x a ∧ Matched a ∧ Excl ident a := by
  have hcompat := peerProgram_compat (s := s) hn hlegal
  obtain ⟨a, ha, hsim⟩ := simulate (tidy_of_compat hid (peerProgram_fresh s prog) hcompat)
    hcompat (fun a _ => excl_of_injective hid a) hx
  exact ⟨a, ha, hsim, hcompat.matched_reach ha, excl_of_injective hid a⟩

/-- When the values are determined: what peers have observed, and what they have in the end. -/
theorem program_values (hid : Function.Injective ident) (hn : n < 2 ^ 30)
    (hok : ∀ ins ∈ prog, ins.Ok) (hx : CReach ident Store.writeBody (peerProgram s prog) σ x) :
    (∀ r i v, (i, v) ∈ (x r).returned → ∃ f, prog[i]? = some (.observe f) ∧
      v = f r (outcome s (prog.take i) (fun q => (σ q).mem) r)) ∧
    (x.Final → ∀ r, (x r).store.mem = outcome s prog (fun q => (σ q).mem) r) := by
  obtain ⟨a, ha, hsim, -⟩ := program_matched hid hn (fun ins hins => (hok ins hins).legal) hx
  have hkept : Kept (programContract s prog fun q => (σ q).mem)
      (fun r τ => τ.mem = outcome s prog (fun q => (σ q).mem) r) a :=
    Kept.reach (fun r => peerProgram_good hn hok r rfl) ha
  refine ⟨fun r i v hv => ?_, fun hf r => ?_⟩
  · rw [← (hsim r).out] at hv
    exact hkept.out r i v hv
  · have hdone : (a.proc r).blocks = [] := by
      rw [(hsim r).code, Node.abs, hf r]
    rw [← (hsim r).store, (hkept.good r).post hdone]

end Runs

end Carries

/-- Every peer writes its number, from one on, the numbers are summed in place, and every peer
looks at the sum. -/
def sumRanks (n : ℕ) : List (Instr n) :=
  [.work fun r => Memory.write 0 [UInt8.ofNat (r + 1)],
    .allReduce ⟨1, .u8, [], fun _ => 0, fun _ => 0⟩ .sum, .observe fun _ => Memory.read 0 1]

theorem sumRanks_ok : ∀ ins ∈ sumRanks n, ins.Ok := by
  simp only [sumRanks, List.forall_mem_cons, List.not_mem_nil, false_imp_iff, implies_true,
    and_true]
  refine ⟨trivial, fun M => ?_, trivial⟩
  exact { count_pos := le_rfl, isInt := rfl, nulFree := by simp [NulFree, CallArgs.reduce],
          separate := fun _ => .inl rfl }

theorem sumRanks_legal : ∀ ins ∈ sumRanks n, ins.Legal := fun ins hins => (sumRanks_ok ins hins).legal

/-- The sum is in place. -/
theorem sumRanks_served (s : Strategy) : ∀ ins ∈ sumRanks n, ins.Served s := by
  simp [sumRanks, Instr.Served]

theorem sumRanks_leaf : (peerProgram .star (sumRanks 3) 1).take 4 =
    [⟨Stamp.at 0 (Time.at 0 0), [.act fun σ => { σ with mem := Memory.write 0 [2] σ.mem }]⟩,
      ⟨Stamp.at 1 (Time.at 0 0), [.act (Workspace.slice ⟨0, 0, 1, .u8, .sum, []⟩ 0 1).start]⟩,
      ⟨Stamp.at 1 (Time.at 0 1), []⟩,
      ⟨Stamp.at 1 (Time.at 0 2),
        [sendTask (Workspace.slice ⟨0, 0, 1, .u8, .sum, []⟩ 0 1) true 0]⟩] := by
  have hleaf : (1 : Fin 3) ≠ 0 := by decide
  obtain ⟨h₁, h₂, -⟩ := starPair_leaf hleaf
  have hloop := (starPair_selfLoop (n := 3) 0 1).1
  have hparts : CallArgs.parts (n := 3) ⟨1, .u8, [], fun _ => 0, fun _ => 0⟩ = [(0, 1)] := rfl
  simp only [peerProgram, sumRanks, stepsFrom, Instr.run, Instr.steps_eq, Instr.stages, hparts,
    List.map_cons, List.map_nil, Stage.step, choose_star, runGraphsMultiThread, List.flatMap_cons,
    runGraph, h₁, h₂, hloop, if_true, stamp, List.mapIdx_cons, List.cons_append, List.nil_append]
  rfl

/-- Peer 1 gets as far as its message to the root by itself. -/
theorem sumRanks_send (σ : Store) : ∃ (x : Node (Fin 3) PeerId Stamp Store Bytes) (w : Workspace)
    (bs : List (Par (Fin 3) Stamp Store Bytes)),
    NRun (genPeers 3) Store.writeBody 1 (Node.fresh (peerProgram .star (sumRanks 3) 1) σ) x ∧
      x.code = ⟨Stamp.at 1 (Time.at 0 2), [sendTask w true 0]⟩ :: bs := by
  have hcode := List.take_append_drop 4 (peerProgram .star (sumRanks 3) (1 : Fin 3))
  rw [sumRanks_leaf] at hcode
  simp only [List.cons_append, List.nil_append] at hcode
  exact ⟨_, _, _, ((NRun.act hcode.symm).trans (NRun.act rfl)).tail (.join rfl), rfl⟩

/-- There is a run to the end. -/
theorem sumRanks_final (s : Strategy) :
    ∃ x : Cluster (Fin 3) PeerId Stamp Store Bytes,
      CReach (genPeers 3) Store.writeBody (peerProgram s (sumRanks 3))
        (fun _ => ⟨fun _ => 0, 0⟩) x ∧ x.Final := by
  have hid : Function.Injective (genPeers 3) := by decide
  have hcompat := peerProgram_compat (s := s) (by decide) (sumRanks_legal (n := 3))
  obtain ⟨x, hx, -, hfinal⟩ := exists_final
    (c := Cluster.start (peerProgram s (sumRanks 3)) fun _ => ⟨fun _ => 0, 0⟩)
    (tidy_of_compat hid (peerProgram_fresh s (sumRanks 3)) hcompat) hcompat
    (fun a _ => excl_of_injective hid a) .refl
  exact ⟨x, hx, hfinal⟩

end StdmlCollective

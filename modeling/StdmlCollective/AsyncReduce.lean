import StdmlCollective.Chunks
import StdmlCollective.GroupProgress

/-!
# `all_reduce` on the async runtime

`run_graph_pair_list_async` builds a task for every part of the work and runs all of them on the
runtime of the session, which has 8 threads. What a part does is what it does under
`run_graph_pair_list_multi_thread`; what is new is that the parts run at the same time, share the
threads of the pool with the tasks of their own sections, and post the pointer of a receive before
anything has run.
-/

namespace StdmlCollective

open BlockNet

variable {P T O : Type} {n : ℕ}

/-! ## The runner -/

/-- `recv_onto`: poll the mailbox, and add. -/
def recvOnto (w : Workspace) (id : P) : Thread P T Store O :=
  match elemOp w.dt w.op with
  | some f => .mailGet id w.name (w.addTo f)
  | none => .throws

/-- `recv_into`: the constructor posts the pointer, and `poll` looks whether it has come back. -/
def recvInto (w : Workspace) (id : P) : Thread P T Store O := .slotGet id w.name w.recv

/-- `send_task::poll`. -/
def sendPoll (w : Workspace) (reduce : Bool) (id : P) : Thread P T Store O :=
  .send id w.name (if reduce then 0 else waitRecvBuf)
    fun σ => Memory.read (w.effectiveData σ) w.dataSize σ.mem

/-- One turn of the loop of `run_graphs_async`: every list is one `par`, or one task that the
thread of the chunk polls itself. -/
def runGraphAsync (peers : Fin n → P) (rank : Fin n) (w : Workspace) (g : Graph n) :
    List (List (Thread P T Store O)) :=
  let prevs := (g.prevs rank).map peers
  let nexts := (g.nexts rank).map peers
  if g.selfLoop rank then
    [prevs.map (recvOnto w), nexts.map (sendPoll w true)]
  else
    (if prevs.length = 0 then [[.act fun σ => if σ.recvCount = 0 then w.forward σ else σ]]
      else prevs.map fun id => [recvInto w id]) ++ [nexts.map (sendPoll w false)]

/-- `run_graphs_async`. The `workspace_state` is new, so its counter is 0 when the tasks run; that
the last task deletes it is not visible. -/
def runGraphsAsync (peers : Fin n → P) (rank : Fin n) (w : Workspace) (gs : List (Graph n)) :
    List (List (Thread P T Store O)) :=
  gs.flatMap (runGraphAsync peers rank w)

/-- `run_graph_pair_list_async`: the chunks that are handed to the runtime. -/
def runGraphPairListAsync (peers : Fin n → P) (rank : Fin n) (w : Workspace)
    (gps : GraphPairList n) (chunkSize : ℕ) : List (List (List (Thread P T Store O))) :=
  (splitWork w gps chunkSize).map fun p => runGraphsAsync peers rank p.1 p.2

/-- The two runners differ in when `workspace_state` is built. -/
theorem runGraphsMultiThread_eq_async (peers : Fin n → P) (rank : Fin n) (w : Workspace)
    (gs : List (Graph n)) :
    (runGraphsMultiThread peers rank w gs : List (List (Thread P T Store O))) =
      [.act w.start] :: runGraphsAsync peers rank w gs := by
  have hturn : runGraph (T := T) (O := O) peers rank w = runGraphAsync peers rank w := by
    funext g
    unfold runGraph runGraphAsync
    congr 1
  rw [runGraphsMultiThread, hturn, runGraphsAsync]

/-! ## The chunks of a call -/

section Call

variable [NeZero n]

/-- The label of section `i` of part `e`. -/
def partLab (s : Strategy) (c : AllReduceCall n) (e : ℕ × ℕ) (v : Fin n) (i : ℕ) : ℕ :=
  match s with
  | .star => starLab 0 v i
  | .ring => ringLab (c.ringRoot e) v i

/-- Chunk `j` of `all_reduce` as peer `rank` runs it. -/
def asyncAllReduce (s : Strategy) (c : AllReduceCall n) (j : Fin c.parts.length) (rank : Fin n) :
    List (Par (Fin n) ℕ Store Bytes) :=
  stamp (fun i => partLab s c (c.parts.get j) rank (i + 1))
    ((runGraphPairListAsync id rank (c.workspace rank) (makeGraphPairList s n)
      allReduceChunkSize).getD j [])

/-- The graphs of part `e`. -/
def partPair (s : Strategy) (c : AllReduceCall n) (e : ℕ × ℕ) : GraphPair n :=
  match s with
  | .star => starPair n 0
  | .ring => makeCircularGraphPair n (c.ringRoot e)

/-- Part `e` as a thread of its own would run it. -/
def partRun (s : Strategy) (c : AllReduceCall n) (e : ℕ × ℕ) (v : Fin n) :
    List (Par (Fin n) ℕ Store Bytes) :=
  stamp (partLab s c e v) (runGraphsMultiThread id v ((c.workspace v).slice e.1 e.2)
    [(partPair s c e).reduceGraph, (partPair s c e).broadcastGraph])

theorem partRun_star (c : AllReduceCall n) (e : ℕ × ℕ) (v : Fin n) :
    partRun .star c e v = starRun id id some 0 (fun v => (c.workspace v).slice e.1 e.2) v := rfl

theorem partRun_ring (c : AllReduceCall n) (e : ℕ × ℕ) (v : Fin n) :
    partRun .ring c e v =
      ringRun id (c.ringRoot e) (fun v => (c.workspace v).slice e.1 e.2) v := rfl

theorem choose_partPair (s : Strategy) (c : AllReduceCall n) (e : ℕ × ℕ) :
    (makeGraphPairList s n).choose (nameBasedHash (partName c.name e.1 e.2)) = partPair s c e := by
  cases s with
  | star => simp [makeGraphPairList, makeGraphPairListStar, GraphPairList.choose, partPair]
  | ring => rw [choose_ring]; rfl

theorem runGraphPairListAsync_eq (s : Strategy) (c : AllReduceCall n) (rank : Fin n) :
    (runGraphPairListAsync id rank (c.workspace rank) (makeGraphPairList s n) allReduceChunkSize :
      List (List (List (Thread (Fin n) ℕ Store Bytes)))) =
      c.parts.map fun e => runGraphsAsync id rank ((c.workspace rank).slice e.1 e.2)
        [(partPair s c e).reduceGraph, (partPair s c e).broadcastGraph] := by
  rw [runGraphPairListAsync, splitWork, Workspace.split, List.map_map, List.map_map]
  refine List.map_congr_left fun e _ => ?_
  have hchoose := choose_partPair s c e
  simp only [Function.comp_apply]
  rw [show ((c.workspace rank).slice e.1 e.2).name = partName c.name e.1 e.2 from rfl, hchoose]

/-- A chunk is the part without its beginning. -/
theorem partRun_eq (s : Strategy) (c : AllReduceCall n) (j : Fin c.parts.length) (v : Fin n) :
    partRun s c (c.parts.get j) v = ⟨partLab s c (c.parts.get j) v 0,
      [.act ((c.workspace v).slice (c.parts.get j).1 (c.parts.get j).2).start]⟩ ::
        asyncAllReduce s c j v := by
  have hget : (runGraphPairListAsync id v (c.workspace v) (makeGraphPairList s n)
      allReduceChunkSize : List (List (List (Thread (Fin n) ℕ Store Bytes)))).getD j [] =
      runGraphsAsync id v ((c.workspace v).slice (c.parts.get j).1 (c.parts.get j).2)
        [(partPair s c (c.parts.get j)).reduceGraph,
          (partPair s c (c.parts.get j)).broadcastGraph] := by
    rw [runGraphPairListAsync_eq, List.getD_eq_getElem?_getD, List.getElem?_map,
      List.getElem?_eq_getElem j.isLt]
    rfl
  rw [partRun, asyncAllReduce, hget, runGraphsMultiThread_eq_async, stamp, List.mapIdx_cons]
  rfl

/-! ## The parts of a call do not meet -/

omit [NeZero n] in
theorem Covers.le_mem {a b : ℕ} {l : List (ℕ × ℕ)} (h : Covers a b l) {e : ℕ × ℕ} (he : e ∈ l) :
    a ≤ e.1 := by
  induction h with
  | nil => exact absurd he List.not_mem_nil
  | cons hab _ ih =>
      rcases List.mem_cons.mp he with rfl | he
      · exact Nat.le_refl _
      · exact hab.trans (ih he)

omit [NeZero n] in
/-- The intervals of a cover follow one another. -/
theorem Covers.pairwise {a b : ℕ} {l : List (ℕ × ℕ)} (h : Covers a b l) :
    l.Pairwise fun e e' => e.2 ≤ e'.1 := by
  induction h with
  | nil => exact List.Pairwise.nil
  | cons _ hcov ih => exact List.pairwise_cons.mpr ⟨fun e he => hcov.le_mem he, ih⟩

/-- The workspace of peer `v` for chunk `j`. -/
def AllReduceCall.chunk (c : AllReduceCall n) (j : Fin c.parts.length) (v : Fin n) : Workspace :=
  (c.workspace v).slice (c.parts.get j).1 (c.parts.get j).2

/-- The name that chunk `j` goes by. -/
def AllReduceCall.chunkName (c : AllReduceCall n) (j : Fin c.parts.length) : Bytes :=
  partName c.name (c.parts.get j).1 (c.parts.get j).2

variable {c : AllReduceCall n}

theorem AllReduceCall.Runs.chunkName_inj (hc : c.Runs) : Function.Injective c.chunkName := by
  intro i j hij
  have hnodup := hc.nodup_names
  rw [List.nodup_iff_injective_get] at hnodup
  have hcast := @hnodup ⟨i, by simp⟩ ⟨j, by simp⟩ (by simpa [chunkName] using hij)
  exact Fin.ext (Fin.mk.inj hcast)

omit [NeZero n] in
/-- Different chunks are at different places of the buffers. -/
theorem AllReduceCall.Runs.chunk_apart (hc : c.Runs) {i j : Fin c.parts.length} (hij : i ≠ j) :
    (c.parts.get i).2 ≤ (c.parts.get j).1 ∨ (c.parts.get j).2 ≤ (c.parts.get i).1 := by
  have hpair := (c.parts_covers hc.count_pos).pairwise
  rw [List.pairwise_iff_get] at hpair
  rcases lt_or_gt_of_ne hij with hlt | hlt
  · exact .inl (hpair i j hlt)
  · exact .inr (hpair j i hlt)

/-- Chunks have names and buffers of their own. -/
theorem AllReduceCall.Runs.chunks_separated (hc : c.Runs) :
    Separated (fun j name => decide (name = c.chunkName j)) (fun j r => (c.chunk j r).reads)
      fun j r => (c.chunk j r).writes where
  names {i j name} hij hown := by
    rw [decide_eq_true_eq] at hown
    rw [decide_eq_false_iff_not, hown]
    exact fun heq => hij (hc.chunkName_inj heq).symm
  buffers {i j r a} hij hread hwrite := by
    have hcov := c.parts_covers hc.count_pos
    obtain ⟨hi, hi'⟩ := hcov.mem (c.parts.get_mem i)
    obtain ⟨hj, hj'⟩ := hcov.mem (c.parts.get_mem j)
    obtain ⟨hsi, hsi'⟩ := Workspace.slice_le (w := c.workspace r) hi hi'
    obtain ⟨hsj, hsj'⟩ := Workspace.slice_le (w := c.workspace r) hj hj'
    have hapart : (c.parts.get i).2 * dtypeSize c.dt ≤ (c.parts.get j).1 * dtypeSize c.dt ∨
        (c.parts.get j).2 * dtypeSize c.dt ≤ (c.parts.get i).1 * dtypeSize c.dt :=
      (hc.chunk_apart hij).imp (Nat.mul_le_mul_right _) (Nat.mul_le_mul_right _)
    obtain ⟨k, hk, rfl⟩ := hwrite
    have hsep := hc.separate r
    simp only [chunk, Workspace.reads, Workspace.writes, Workspace.slice, Workspace.dataSize,
      Region, Workspace.Separate, Memory.Apart, workspace] at *
    rcases hread with ⟨k', hk', heq⟩ | ⟨k', hk', heq⟩
    · change @Eq ℕ _ _ at heq
      rcases hsep with hin | hout | hout
      · change @Eq ℕ _ _ at hin
        omega
      · omega
      · omega
    · change @Eq ℕ _ _ at heq
      omega

omit [NeZero n] in
theorem AllReduceCall.Runs.chunk_keeps (hc : c.Runs) (j : Fin c.parts.length) (r : Fin n) :
    (c.chunk j r).Keeps (fun name => decide (name = c.chunkName j))
      (fun _ => ((c.parts.get j).2 - (c.parts.get j).1) * dtypeSize c.dt)
      (c.chunk j r).reads (c.chunk j r).writes where
  own := decide_eq_true rfl
  len := rfl
  nulFree := (hc.keeps (c.parts.get_mem j) r).nulFree
  reads _ h := h
  writes _ h := h
  separate := (hc.keeps (c.parts.get_mem j) r).separate
  size := (hc.keeps (c.parts.get_mem j) r).size
  op := hc.op

omit [NeZero n] in
theorem AllReduceCall.Runs.sameWork (hc : c.Runs) (j : Fin c.parts.length) :
    ∃ f, SameWork (c.chunk j) (c.chunkName j) f := by
  obtain ⟨f, hf⟩ := Option.isSome_iff_exists.mp hc.op
  exact ⟨f, fun _ => rfl, nulFree_partName hc.nulFree _ _, fun _ => hf⟩

/-- The chunks of a call as the runtime gets them. -/
abbrev AsyncPlan (ident : Fin n → PeerId) (s : Strategy) (c : AllReduceCall n) : Prop :=
  Plan ident (fun j name => decide (name = c.chunkName j))
    (fun j _ => ((c.parts.get j).2 - (c.parts.get j).1) * dtypeSize c.dt)
    (fun j r => (c.chunk j r).reads) (fun j r => (c.chunk j r).writes)
    (fun j => partRun s c (c.parts.get j)) (asyncAllReduce s c) c.mem

/-- **The chunks of a call fit the runtime**, with both strategies. -/
theorem AllReduceCall.Runs.asyncPlan {ident : Fin n → PeerId} (hid : Function.Injective ident)
    (hc : c.Runs) (s : Strategy) : AsyncPlan ident s c where
  ids := hid
  separated := hc.chunks_separated
  locals j r b hb th hth := by
    have hmem : b ∈ partRun s c (c.parts.get j) r := by
      rw [partRun_eq]
      exact List.mem_cons_of_mem _ hb
    obtain ⟨i, hi, rfl⟩ := List.mem_mapIdx.mp hmem
    exact runGraphs_local (hc.chunk_keeps j r) (List.getElem_mem hi) hth
  chunk j := by
    obtain ⟨f, hf⟩ := hc.sameWork j
    cases s with
    | star => exact star_chunk strictMono_id hf 0
    | ring => exact ring_chunk strictMono_id hf _
  begins j r := ⟨_, _, partRun_eq s c j r, rfl⟩

end Call

end StdmlCollective

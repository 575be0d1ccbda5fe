import StdmlCollective.Buffer
import StdmlCollective.Refine.Cluster
import StdmlCollective.Topology

/-!
# Running a workspace over graphs

`run_graphs_multi_thread` and `run_graph_pair_list_multi_thread`, as programs of the
message layer: a list of sections, each the threads of one `fmap`. What a thread does is
fixed by the workspace and the graph; the only choice made at run time, whether a vertex
without predecessors forwards its own input, is a function of `recv_count_`.

The sections get their times from a labelling, which has no part in what they do.
-/

namespace StdmlCollective

variable {P T O : Type} {n : ℕ}

/-- `recv_task::operator()`. -/
def recvTask (w : Workspace) (reduce : Bool) (id : P) : Thread P T Store O :=
  if reduce then
    match elemOp w.dt w.op with
    | some f => .mailGet id w.name (w.addTo f)
    | none => .throws
  else .slotGet id w.name w.recv

/-- `send::operator()`. -/
def sendTask (w : Workspace) (reduce : Bool) (id : P) : Thread P T Store O :=
  .send id w.name (if reduce then 0 else waitRecvBuf)
    fun σ => Memory.read (w.effectiveData σ) w.dataSize σ.mem

/-- One turn of the loop of `run_graphs_multi_thread`. -/
def runGraph (peers : Fin n → P) (rank : Fin n) (w : Workspace) (g : Graph n) :
    List (List (Thread P T Store O)) :=
  let prevs := (g.prevs rank).map peers
  let nexts := (g.nexts rank).map peers
  if g.selfLoop rank then
    [prevs.map (recvTask w true), nexts.map (sendTask w true)]
  else
    -- a vertex with predecessors receives from them one after the other; one without
    -- forwards its own input, unless it has reduced something
    (if prevs.length = 0 then [[.act fun σ => if σ.recvCount = 0 then w.forward σ else σ]]
      else prevs.map fun id => [recvTask w false id]) ++ [nexts.map (sendTask w false)]

/-- `run_graphs_multi_thread`. -/
def runGraphsMultiThread (peers : Fin n → P) (rank : Fin n) (w : Workspace)
    (gs : List (Graph n)) : List (List (Thread P T Store O)) :=
  [.act w.start] :: gs.flatMap (runGraph peers rank w)

/-- `ceil_div`. -/
def ceilDiv (a b : ℕ) : ℕ := a / b + if a % b ≠ 0 then 1 else 0

/-- `name_based_hash`; `char` is signed. -/
def nameBasedHash (name : Bytes) : ℕ :=
  name.foldl (fun h c => (h + (c.toInt8.toInt * c.toInt8.toInt).toNat) % 2 ^ 64) 0

/-- `split_work`. -/
def splitWork (w : Workspace) (gps : GraphPairList n) (chunkSize : ℕ) :
    List (Workspace × List (Graph n)) :=
  (w.split (ceilDiv w.dataSize chunkSize)).map fun w =>
    let p := gps.choose (nameBasedHash w.name)
    (w, [p.reduceGraph, p.broadcastGraph])

/-- `run_graph_pair_list_multi_thread`: one run for each part of the work. -/
def runGraphPairListMultiThread (peers : Fin n → P) (rank : Fin n) (w : Workspace)
    (gps : GraphPairList n) (chunkSize : ℕ) : List (List (List (Thread P T Store O))) :=
  (splitWork w gps chunkSize).map fun p => runGraphsMultiThread peers rank p.1 p.2

/-- `1 << 20`, the chunk size of `session::all_reduce`. -/
def allReduceChunkSize : ℕ := 2 ^ 20

/-- Sections at the times `lab 0`, `lab 1`, … -/
def stamp {S : Type} (lab : ℕ → T) (ss : List (List (Thread P T S O))) : List (Par P T S O) :=
  ss.mapIdx fun i ths => ⟨lab i, ths⟩

theorem stamp_threads {S : Type} (lab : ℕ → T) (ss : List (List (Thread P T S O))) :
    (stamp lab ss).map Par.threads = ss := by
  apply List.ext_getElem
  · simp [stamp]
  · intro i _ _
    simp [stamp]

/-! ## Fresh threads -/

theorem plain_recvTask (w : Workspace) (reduce : Bool) (id : P) :
    (recvTask w reduce id : Thread P T Store O).Plain := by
  unfold recvTask
  split
  · split <;> trivial
  · trivial

/-- The threads of a run: it starts, forwards the input of a vertex without predecessors, receives
and sends. -/
theorem runGraphs_cases {motive : Thread P T Store O → Prop} {peers : Fin n → P} {rank : Fin n}
    {w : Workspace} {gs : List (Graph n)} (start : motive (.act w.start))
    (forward : motive (.act fun σ => if σ.recvCount = 0 then w.forward σ else σ))
    (recv : ∀ b id, motive (recvTask w b id)) (send : ∀ b id, motive (sendTask w b id))
    {ths : List (Thread P T Store O)} (h : ths ∈ runGraphsMultiThread peers rank w gs)
    {th : Thread P T Store O} (hth : th ∈ ths) : motive th := by
  rcases List.mem_cons.mp h with rfl | h
  · obtain rfl := List.mem_singleton.mp hth
    exact start
  obtain ⟨g, -, hg⟩ := List.mem_flatMap.mp h
  have hrecv : ∀ (b : Bool) (l : List P), th ∈ l.map (recvTask w b) → motive th := by
    intro b l hmem
    obtain ⟨id, -, rfl⟩ := List.mem_map.mp hmem
    exact recv b id
  have hsend : ∀ (b : Bool) (l : List P), th ∈ l.map (sendTask w b) → motive th := by
    intro b l hmem
    obtain ⟨id, -, rfl⟩ := List.mem_map.mp hmem
    exact send b id
  unfold runGraph at hg
  split at hg
  · simp only [List.mem_cons, List.not_mem_nil, or_false] at hg
    rcases hg with rfl | rfl
    · exact hrecv _ _ hth
    · exact hsend _ _ hth
  · rcases List.mem_append.mp hg with hg | hg
    · split at hg
      · obtain rfl := List.mem_singleton.mp hg
        obtain rfl := List.mem_singleton.mp hth
        exact forward
      · obtain ⟨id, -, rfl⟩ := List.mem_map.mp hg
        obtain rfl := List.mem_singleton.mp hth
        exact recv false id
    · obtain rfl := List.mem_singleton.mp hg
      exact hsend _ _ hth

theorem plain_runGraphs {peers : Fin n → P} {rank : Fin n} {w : Workspace} {gs : List (Graph n)}
    {ths : List (Thread P T Store O)} (h : ths ∈ runGraphsMultiThread peers rank w gs)
    {th : Thread P T Store O} (hth : th ∈ ths) : th.Plain :=
  runGraphs_cases (motive := Thread.Plain) trivial trivial (plain_recvTask w) (fun _ _ => trivial)
    h hth

theorem fresh_runGraphs {peers : Fin n → P} {rank : Fin n} {w : Workspace} {gs : List (Graph n)}
    {ths : List (Thread P T Store O)} (h : ths ∈ runGraphsMultiThread peers rank w gs)
    {th : Thread P T Store O} (hth : th ∈ ths) : th.Fresh :=
  (plain_runGraphs h hth).fresh

theorem fresh_stamp {S : Type} {lab : ℕ → T} {ss : List (List (Thread P T S O))}
    (h : ∀ ths ∈ ss, ∀ th ∈ ths, th.Fresh) {b : Par P T S O} (hb : b ∈ stamp lab ss)
    {th : Thread P T S O} (hth : th ∈ b.threads) : th.Fresh := by
  obtain ⟨i, hi, rfl⟩ := List.mem_mapIdx.mp hb
  exact h _ (List.getElem_mem hi) th hth

/-! ## Parts -/

theorem le_ceilDiv_mul (a : ℕ) {b : ℕ} (hb : 0 < b) : a ≤ ceilDiv a b * b := by
  have h := Nat.div_add_mod a b
  have hlt := Nat.mod_lt a hb
  rw [Nat.mul_comm] at h
  rw [ceilDiv, Nat.add_mul]
  split
  · rw [Nat.one_mul]
    omega
  · rw [Nat.zero_mul]
    omega

theorem ceilDiv_pos {a b : ℕ} (ha : 0 < a) (hb : 0 < b) : 0 < ceilDiv a b := by
  have h := le_ceilDiv_mul a hb
  refine Nat.pos_of_ne_zero fun hz => ?_
  rw [hz, Nat.zero_mul] at h
  omega

/-- A part of an `all_reduce` fits a message. -/
theorem part_size_lt {w : Workspace} {i : ℕ × ℕ} (hc : 1 ≤ w.count)
    (h : i ∈ evenPartition 0 w.count (ceilDiv w.dataSize allReduceChunkSize)) :
    (w.slice i.1 i.2).dataSize < 2 ^ 32 := by
  have hs := dtypeSize_pos w.dt
  have hs' := dtypeSize_le w.dt
  have hlen := length_evenPartitionFrom_le h
  have hpos : 0 < ceilDiv w.dataSize allReduceChunkSize :=
    ceilDiv_pos (Nat.mul_pos hc hs) (by decide)
  have hle : w.dataSize ≤ _ := le_ceilDiv_mul w.dataSize (b := allReduceChunkSize) (by decide)
  generalize ceilDiv w.dataSize allReduceChunkSize = k at hlen hpos hle
  rw [Nat.sub_zero] at hlen
  -- `count / k` elements are at most a chunk
  have hdiv : w.count / k * dtypeSize w.dt ≤ allReduceChunkSize := by
    rw [← Nat.mul_le_mul_left_iff hpos]
    calc k * (w.count / k * dtypeSize w.dt)
        = k * (w.count / k) * dtypeSize w.dt := (Nat.mul_assoc _ _ _).symm
      _ ≤ w.count * dtypeSize w.dt := Nat.mul_le_mul_right _ (Nat.mul_div_le w.count k)
      _ ≤ k * allReduceChunkSize := hle
  calc (w.slice i.1 i.2).dataSize
      = (i.2 - i.1) * dtypeSize w.dt := rfl
    _ ≤ (w.count / k + 1) * dtypeSize w.dt := Nat.mul_le_mul_right _ hlen
    _ = w.count / k * dtypeSize w.dt + dtypeSize w.dt := by rw [Nat.add_mul, Nat.one_mul]
    _ < 2 ^ 32 := by
        have : allReduceChunkSize = 2 ^ 20 := rfl
        omega

end StdmlCollective

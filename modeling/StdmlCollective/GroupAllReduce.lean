import StdmlCollective.AllReduce
import StdmlCollective.Lib.Pool
import StdmlCollective.Refine.Tasks

/-!
# `group_all_reduce`

Every peer gives the same workspaces to a pool of 76 threads, in an order of its own. A thread of
the pool takes the first workspace of the queue and runs `all_reduce` on it to the end, with the
threads it starts; so up to 76 of them run at once, over the same connections and boxes.

The names of the parts of different workspaces are different, so each `all_reduce` goes on as if it
were alone, and ends with what it would end with alone.
-/

namespace StdmlCollective

open BlockNet LittleEndian
open Memory (Mem)

variable {n m : ℕ}

/-! ## What an `all_reduce` touches -/

/-- The bytes from `a` on, `len` of them. -/
def Region (a : Addr) (len : ℕ) (x : Addr) : Prop := ∃ k < len, x = a + k

theorem not_region_iff {a x : ℕ} {len : ℕ} : ¬Region a len x ↔ x < a ∨ a + len ≤ x := by
  constructor
  · intro h
    by_contra hx
    rw [not_or, not_lt, not_le] at hx
    have hlt : x - a < len := by omega
    exact h ⟨x - a, hlt, (Nat.add_sub_cancel' hx.1).symm⟩
  · intro h hx
    obtain ⟨k, hk, heq⟩ := hx
    have heq' : x = a + k := heq
    omega

/-- What is written to a region stays there. -/
theorem write_of_not_region {a : Addr} {d : Bytes} {m : Mem} {x : Addr}
    (h : ¬Region a d.length x) : Memory.write a d m x = m x := by
  rcases not_region_iff.mp h with hlt | hge
  · exact Memory.write_of_lt d m hlt
  · exact Memory.write_of_ge m hge

namespace Workspace

/-- What an `all_reduce` of the workspace writes. -/
def writes (w : Workspace) (a : Addr) : Prop := Region w.recv w.dataSize a

/-- What an `all_reduce` of the workspace reads. -/
def reads (w : Workspace) (a : Addr) : Prop := Region w.send w.dataSize a ∨ w.writes a

section Within

variable {w : Workspace} {R W : Addr → Prop} (hR : ∀ a, w.reads a → R a)
  (hW : ∀ a, w.writes a → W a)
include hR

theorem read_effectiveData_congr {σ τ : Store} (h : σ.Agree R τ) :
    Memory.read (w.effectiveData σ) w.dataSize σ.mem =
      Memory.read (w.effectiveData τ) w.dataSize τ.mem := by
  have heff : w.effectiveData τ = w.effectiveData σ := by
    rw [effectiveData, effectiveData, h.count]
  rw [heff]
  apply Memory.read_congr
  intro i hi
  apply h.mem
  apply hR
  unfold effectiveData
  split
  · exact .inr ⟨i, hi, rfl⟩
  · exact .inl ⟨i, hi, rfl⟩

include hW

omit hR in
/-- To write the same bytes to `recv` is within the workspace. -/
theorem within_write {f : Store → Bytes} {g : UInt32 → UInt32}
    (hlen : ∀ σ, (f σ).length = w.dataSize)
    (hf : ∀ σ τ : Store, σ.Agree R τ → f σ = f τ) :
    Within R W fun σ => ⟨Memory.write w.recv (f σ) σ.mem, g σ.recvCount⟩ where
  agree {σ τ} h := by
    constructor
    · intro a ha
      simp only [Memory.write, hf σ τ h, h.mem a ha]
    · simp only [h.count]
  frame σ a ha := by
    apply write_of_not_region
    rw [hlen]
    intro hreg
    exact ha (hW a hreg)

theorem within_addTo (hs : w.Separate) (f : ℕ → ℕ → ℕ) (d : Bytes) :
    Within R W (w.addTo f d) := by
  have heq : w.addTo f d = fun σ => ⟨Memory.write w.recv (zipElems f (dtypeSize w.dt) w.count d
      (Memory.read (w.effectiveData σ) w.dataSize σ.mem)) σ.mem, σ.recvCount + 1⟩ := by
    funext σ
    rw [addTo, reduce_eq]
    · rfl
    · unfold effectiveData
      split
      · exact .inl rfl
      · exact hs
  rw [heq]
  apply within_write (g := fun c => c + 1) hW
  · intro σ
    exact length_zipElems _ _ _ _ _
  · intro σ τ h
    rw [read_effectiveData_congr hR h]

omit hR hW in
theorem within_start : Within R W w.start where
  agree h := ⟨h.mem, rfl⟩
  frame _ _ _ := rfl

theorem within_forward : Within R W w.forward := by
  by_cases hne : w.recv ≠ w.send
  · have heq : w.forward =
        fun σ => ⟨Memory.write w.recv (Memory.read w.send w.dataSize σ.mem) σ.mem,
          σ.recvCount⟩ := by
      funext σ
      rw [forward, if_pos hne]
    rw [heq]
    apply within_write (g := fun c => c) hW
    · intro σ
      exact Memory.length_read _ _ _
    · intro σ τ h
      apply Memory.read_congr
      intro i hi
      exact h.mem _ (hR _ (.inl ⟨i, hi, rfl⟩))
  · have heq : w.forward = id := by
      funext σ
      rw [forward, if_neg hne]
      rfl
    rw [heq]
    exact ⟨id, fun _ _ _ => rfl⟩

theorem within_settle : Within R W w.settle where
  agree {σ τ} h := by
    unfold settle
    rw [h.count]
    split
    · exact (within_forward hR hW).agree h
    · exact h
  frame σ a ha := by
    unfold settle
    split
    · exact (within_forward hR hW).frame σ a ha
    · rfl

end Within

end Workspace

section Footprint

variable {P T O : Type} {own : Bytes → Bool} {len : Bytes → ℕ} {R W : Addr → Prop} {w : Workspace}

/-- What a part needs for its threads to keep to their names and buffers. -/
structure Workspace.Keeps (own : Bytes → Bool) (len : Bytes → ℕ) (R W : Addr → Prop)
    (w : Workspace) : Prop where
  own : own w.name = true
  len : len w.name = w.dataSize
  nulFree : NulFree w.name
  reads : ∀ a, w.reads a → R a
  writes : ∀ a, w.writes a → W a
  separate : w.Separate
  size : w.dataSize < 2 ^ 32
  op : (elemOp w.dt w.op).isSome = true

theorem recvTask_local (h : w.Keeps own len R W) (reduce : Bool) (id : P) :
    (recvTask w reduce id : Thread P T Store O).Local own len R W := by
  obtain ⟨f, hf⟩ := Option.isSome_iff_exists.mp h.op
  cases reduce with
  | true =>
      simp only [recvTask, hf, if_true]
      exact ⟨h.own, fun d => Workspace.within_addTo h.reads h.writes h.separate f d⟩
  | false =>
      simp only [recvTask, Bool.false_eq_true, if_false]
      refine ⟨h.own, fun k hk => ?_⟩
      rw [h.len] at hk
      exact h.writes _ ⟨k, hk, rfl⟩

theorem sendTask_local (h : w.Keeps own len R W) (reduce : Bool) (id : P) :
    (sendTask w reduce id : Thread P T Store O).Local own len R W := by
  have hname := cStr_eq_self h.nulFree
  refine ⟨?_, ?_, ?_⟩
  · rw [hname]
    exact h.own
  · intro σ τ hστ
    exact Workspace.read_effectiveData_congr h.reads hστ
  · intro σ
    rw [hname, h.len, wireData_eq_self]
    · exact Memory.length_read _ _ _
    · rw [Memory.length_read]
      exact h.size

/-- The threads that run a part over graphs keep to its names and buffers. -/
theorem runGraphs_local (h : w.Keeps own len R W) {peers : Fin n → P} {rank : Fin n}
    {gs : List (Graph n)} {ths : List (Thread P T Store O)}
    (hths : ths ∈ runGraphsMultiThread peers rank w gs) {th : Thread P T Store O} (hth : th ∈ ths) :
    th.Local own len R W :=
  runGraphs_cases (motive := fun th => th.Local own len R W) Workspace.within_start
    (Workspace.within_settle h.reads h.writes) (recvTask_local h) (sendTask_local h) hths hth

end Footprint

/-! ## One `all_reduce` as a task -/

section Task

variable [NeZero n]

/-- What a thread of the pool runs for one workspace. -/
def allReduceTask (c : AllReduceCall n) (rank : Fin n) : List (Par (Fin n) Time Store Bytes) :=
  stepsFrom (fun ss k => stamp (fun i => Time.at k (starLab 0 rank i)) ss) 0
    (runGraphPairListMultiThread id rank (c.workspace rank) (makeGraphPairList .star n)
      allReduceChunkSize)

theorem runGraphPairList_eq (c : AllReduceCall n) (rank : Fin n) :
    (runGraphPairListMultiThread id rank (c.workspace rank) (makeGraphPairList .star n)
      allReduceChunkSize : List (List (List (Thread (Fin n) Time Store Bytes)))) =
      c.parts.map fun e => (Phase.part c e).sections rank := by
  have hchoose : ∀ j, (makeGraphPairList .star n).choose j = starPair n 0 := by
    intro j
    simp [makeGraphPairList, makeGraphPairListStar, GraphPairList.choose]
  simp [Phase.sections, runGraphPairListMultiThread, splitWork, Workspace.split, hchoose,
    AllReduceCall.parts, AllReduceCall.workspace, Workspace.dataSize]

theorem allReduceTask_blocks (c : AllReduceCall n) (rank : Fin n) :
    blocks Store.writeBody (allReduceTask c rank) =
      stepsFrom (fun e k => (Phase.part c e).blocks rank k) 0 c.parts := by
  rw [allReduceTask, runGraphPairList_eq, stepsFrom_map, blocks, map_stepsFrom]
  rfl

/-- A call whose operation is there for its type. -/
structure AllReduceCall.Runs (c : AllReduceCall n) : Prop where
  count_pos : 1 ≤ c.count
  op : (StdmlCollective.elemOp c.dt c.op).isSome = true
  nulFree : NulFree c.name
  separate : ∀ r, (c.workspace r).Separate

omit [NeZero n] in
theorem AllReduceCall.Ok.runs {c : AllReduceCall n} (h : c.Ok) : c.Runs where
  count_pos := h.count_pos
  op := by rw [elemOp_of_isInt h.isInt]; rfl
  nulFree := h.nulFree
  separate := h.separate

theorem AllReduceCall.Runs.part {c : AllReduceCall n} (hc : c.Runs) (e : ℕ × ℕ) :
    ∃ f, PartOk (fun r => (c.workspace r).slice e.1 e.2) (partName c.name e.1 e.2) 0 f := by
  obtain ⟨f, hf⟩ := Option.isSome_iff_exists.mp hc.op
  exact ⟨f, ⟨⟨fun _ => rfl, nulFree_partName hc.nulFree _ _⟩, hf⟩⟩

theorem allReduceTask_compat {c : AllReduceCall n} (hc : c.Runs) :
    Compat fun r => blocks Store.writeBody (allReduceTask c r) := by
  simp only [allReduceTask_blocks]
  refine Compat.numbered (F := fun r e k => (Phase.part c e).blocks r k) Time.step
    (fun t u h => Time.lt_of_step_lt h) (fun r e k b hb => time_of_mem_stamp hb) ?_ 0
  intro e _ k
  obtain ⟨f, hf⟩ := hc.part e
  simp only [Phase.blocks_part]
  exact star_compat (Time.at_strictMono k) members_id hf

theorem allReduceTask_fresh (c : AllReduceCall n) (r : Fin n)
    {b : Par (Fin n) Time Store Bytes} (hb : b ∈ allReduceTask c r)
    {th : Thread (Fin n) Time Store Bytes} (hth : th ∈ b.threads) : th.Fresh := by
  obtain ⟨i, ss, hi, hb⟩ := mem_stepsFrom hb
  refine fresh_stamp (fun ths hths th hth => ?_) hb hth
  have hmem := List.mem_of_getElem? hi
  rw [runGraphPairList_eq, List.mem_map] at hmem
  obtain ⟨e, -, rfl⟩ := hmem
  exact fresh_runGraphs hths hth

/-- What the messages of a call carry when `res` is its result. -/
def allReduceTaskContract (c : AllReduceCall n) (res : Bytes) :
    Contract (Fin n) Time Key Bytes Bytes where
  msg s d m :=
    match c.parts[m.time.step]? with
    | some e =>
        m.data = if d = 0 then ((c.workspace s).slice e.1 e.2).input (c.before res e.1 s)
          else (res.drop (e.1 * dtypeSize c.dt)).take ((e.2 - e.1) * dtypeSize c.dt)
    | none => True
  out _ _ _ := True

/-- The parts from element `a` on. -/
theorem parts_good {c : AllReduceCall n} (hc : c.Ok) {res : Bytes} (hres : c.Settles res)
    (r : Fin n) {l₀ l : List (ℕ × ℕ)} (hl : c.parts = l₀ ++ l) {a : ℕ} (hcov : Covers a c.count l)
    {σ : Store} (hσ : σ.mem = c.before res a r) :
    Good (allReduceTaskContract c res) r (fun τ => τ.mem = c.before res c.count r)
      (stepsFrom (fun e k => (Phase.part c e).blocks r k) l₀.length l) σ := by
  induction l generalizing l₀ a σ with
  | nil =>
      cases hcov
      exact .done hσ
  | cons e l ih =>
      obtain ⟨_, b⟩ := e
      cases hcov with
      | cons hab hcov =>
          have he : (a, b) ∈ c.parts := by simp [hl]
          obtain ⟨-, hb⟩ := (c.parts_covers hc.count_pos).mem he
          have hk : c.parts[l₀.length]? = some (a, b) := by simp [hl]
          have hC : PartContract (allReduceTaskContract c res) (Time.at l₀.length) id 0
              (partName c.name a b)
              (fun q => ((c.workspace q).slice a b).input (c.before res a q))
              ((res.drop (a * dtypeSize c.dt)).take ((b - a) * dtypeSize c.dt)) := by
            constructor
            · intro q _ d
              simp [allReduceTaskContract, hk]
            · intro q hq d
              simp [allReduceTaskContract, hk, hq]
          rw [stepsFrom, Phase.blocks_part]
          refine Good.append ((star_good members_id (hc.part (a, b)) (hc.fits he) hC
            (hres.settled (a, b) he) r hσ).mono fun τ hτ => ?_)
          rw [AllReduceCall.before_step hres.length hab hb] at hτ
          have hl' : c.parts = (l₀ ++ [(a, b)]) ++ l := by simp [hl]
          have htail := ih hl' hcov hτ
          rwa [List.length_append] at htail

/-- **What an `all_reduce` ends with when it runs alone.** -/
theorem allReduceTask_final {ident : Fin n → PeerId} (hid : Function.Injective ident)
    {c : AllReduceCall n} (hc : c.Ok) {res : Bytes} (hres : c.Settles res) {σ : Fin n → Store}
    (hσ : ∀ r, (σ r).mem = c.mem r) {x : Cluster (Fin n) PeerId Time Store Bytes}
    (hx : CReach ident Store.writeBody (allReduceTask c) σ x) (r : Fin n)
    (hfinal : (x r).code = []) : (x r).store.mem = Memory.write (c.recv r) res (c.mem r) := by
  have hcompat := allReduceTask_compat hc.runs
  obtain ⟨a, ha, hsim⟩ := simulate (tidy_of_compat hid (allReduceTask_fresh c) hcompat)
    hcompat (fun a _ => excl_of_injective hid a) hx
  have hgood : ∀ r, Good (allReduceTaskContract c res) r
      (fun τ => τ.mem = c.before res c.count r)
      (blocks Store.writeBody (allReduceTask c r)) (σ r) := by
    intro r
    rw [allReduceTask_blocks]
    have hparts : c.parts = [] ++ c.parts := rfl
    refine parts_good hc hres r hparts (c.parts_covers hc.count_pos) ?_
    rw [hσ r, AllReduceCall.before_zero]
  have hkept := Kept.reach hgood ha
  have hblocks : (a.proc r).blocks = [] := by
    rw [(hsim r).code, Node.abs, hfinal]
  have hpost := (hkept.good r).post hblocks
  rw [(hsim r).store, AllReduceCall.before_count hres.length] at hpost
  exact hpost

/-! ## The names and buffers of a call -/

namespace AllReduceCall

/-- The names under which the parts of the call are sent. -/
def owns (c : AllReduceCall n) (name : Bytes) : Bool :=
  c.parts.any fun e => partName c.name e.1 e.2 = name

/-- How long a message of the call is. -/
def partLen (c : AllReduceCall n) (name : Bytes) : ℕ :=
  ((c.parts.find? fun e => partName c.name e.1 e.2 = name).map fun e =>
    (e.2 - e.1) * dtypeSize c.dt).getD 0

omit [NeZero n] in
theorem owns_iff {c : AllReduceCall n} {name : Bytes} :
    c.owns name = true ↔ ∃ e ∈ c.parts, partName c.name e.1 e.2 = name := by
  simp [owns]

omit [NeZero n] in
theorem partLen_part {c : AllReduceCall n} {e : ℕ × ℕ} (he : e ∈ c.parts) :
    c.partLen (partName c.name e.1 e.2) = (e.2 - e.1) * dtypeSize c.dt := by
  obtain ⟨e', hfind⟩ : ∃ e', c.parts.find?
      (fun e' => partName c.name e'.1 e'.2 = partName c.name e.1 e.2) = some e' := by
    rw [← Option.isSome_iff_exists, List.find?_isSome]
    exact ⟨e, he, by simp⟩
  have hname := List.find?_some hfind
  obtain ⟨-, h₁, h₂⟩ := partName_inj (of_decide_eq_true hname)
  rw [partLen, hfind, Option.map_some, Option.getD_some, h₁, h₂]

omit [NeZero n] in
/-- A part lies inside the buffers of its call. -/
theorem Runs.keeps {c : AllReduceCall n} (hc : c.Runs) {e : ℕ × ℕ} (he : e ∈ c.parts)
    (r : Fin n) : ((c.workspace r).slice e.1 e.2).Keeps c.owns c.partLen (c.workspace r).reads
      (c.workspace r).writes := by
  obtain ⟨hab, hb⟩ := (c.parts_covers hc.count_pos).mem he
  have hle := Workspace.slice_le (w := c.workspace r) hab hb
  have hin : ∀ (a : ℕ) (x : Addr), Region (a + e.1 * dtypeSize c.dt)
      ((c.workspace r).slice e.1 e.2).dataSize x → Region a (c.workspace r).dataSize x := by
    intro a x hx
    obtain ⟨k, hk, rfl⟩ := hx
    refine ⟨e.1 * dtypeSize c.dt + k, ?_, Nat.add_assoc _ _ _⟩
    have hdt : dtypeSize (c.workspace r).dt = dtypeSize c.dt := rfl
    rw [hdt] at hle
    omega
  constructor
  · exact owns_iff.mpr ⟨e, he, rfl⟩
  · exact partLen_part he
  · exact nulFree_partName hc.nulFree _ _
  · intro a ha
    exact ha.imp (hin _ _) (hin _ _)
  · exact hin _
  · exact (hc.separate r).slice hab hb
  · exact part_size_lt (w := c.workspace r) hc.count_pos he
  · exact hc.op

end AllReduceCall

/-- An `all_reduce` keeps to its names and buffers. -/
theorem allReduceTask_local {c : AllReduceCall n} (hc : c.Runs) (r : Fin n) :
    Local c.owns c.partLen (c.workspace r).reads (c.workspace r).writes (allReduceTask c r) := by
  intro b hb th hth
  obtain ⟨i, ss, hi, hb⟩ := mem_stepsFrom hb
  obtain ⟨k, hk, rfl⟩ := List.mem_mapIdx.mp hb
  have hmem := List.mem_of_getElem? hi
  rw [runGraphPairList_eq, List.mem_map] at hmem
  obtain ⟨e, he, rfl⟩ := hmem
  exact runGraphs_local (hc.keeps he r) (List.getElem_mem hk) hth

end Task

/-! ## The group -/

/-- What the `n` peers give to `group_all_reduce`: `m` workspaces, the same on every peer but for
the buffers, and listed by every peer in an order of its own. -/
structure GroupCall (n m : ℕ) where
  count : Fin m → ℕ
  dt : Fin m → Dtype
  op : Fin m → ReduceOp
  name : Fin m → Bytes
  send : Fin m → Fin n → Addr
  recv : Fin m → Fin n → Addr
  mem : Fin n → Mem
  order : Fin n → List (Fin m)

namespace GroupCall

/-- The `all_reduce` of workspace `j`. -/
def call (g : GroupCall n m) (j : Fin m) : AllReduceCall n :=
  ⟨g.count j, g.dt j, g.op j, g.name j, g.send j, g.recv j, g.mem⟩

/-- Workspaces with names and buffers of their own: no other one uses what one writes. Every peer
lists all of them. -/
structure Runs (g : GroupCall n m) : Prop where
  runs : ∀ j, (g.call j).Runs
  names : Function.Injective g.name
  apart : ∀ {i j : Fin m} {r : Fin n} {a : Addr}, i ≠ j →
    ((g.call i).workspace r).reads a → ¬((g.call j).workspace r).writes a
  order : ∀ r, (g.order r).Perm (List.finRange m)

/-- The same, with integer types. -/
structure Ok (g : GroupCall n m) : Prop extends g.Runs where
  isInt : ∀ j, (g.dt j).isInt = true

theorem Ok.call {g : GroupCall n m} (hg : g.Ok) (j : Fin m) : (g.call j).Ok where
  count_pos := (hg.runs j).count_pos
  isInt := hg.isInt j
  nulFree := (hg.runs j).nulFree
  separate := (hg.runs j).separate

/-- Different workspaces do not meet. -/
theorem Runs.separated {g : GroupCall n m} (hg : g.Runs) :
    Separated (fun j => (g.call j).owns) (fun j r => ((g.call j).workspace r).reads)
      fun j r => ((g.call j).workspace r).writes where
  names {i j name} hij hown := by
    by_contra hi
    rw [Bool.not_eq_false] at hi
    obtain ⟨e, -, rfl⟩ := AllReduceCall.owns_iff.mp hown
    obtain ⟨e', -, heq⟩ := AllReduceCall.owns_iff.mp hi
    exact hij (hg.names (partName_inj heq).1)
  buffers := hg.apart

theorem Runs.nodup_order {g : GroupCall n m} (hg : g.Runs) (r : Fin n) : (g.order r).Nodup :=
  (hg.order r).nodup_iff.mpr (List.nodup_finRange m)

theorem Runs.mem_order {g : GroupCall n m} (hg : g.Runs) (r : Fin n) (j : Fin m) :
    j ∈ g.order r :=
  (hg.order r).mem_iff.mpr (List.mem_finRange j)

end GroupCall

/-- The threads of the pool of `group_all_reduce`. -/
def groupPoolSize : ℕ := 76

/-- The peers at work on a group, and their pools. -/
structure GroupState (n m : ℕ) where
  peer : Fin n → Tasks (Fin m) (Fin n) PeerId Time Bytes
  pool : Fin n → Pool (Fin m)

namespace GroupState

/-- A step of the peers: the loop over the workspaces adds one to the pool, a thread of the pool
takes a workspace or is through with one, or a thread of an `all_reduce` that runs, or a handler,
moves. -/
inductive Step (ident : Fin n → PeerId) : GroupState n m → GroupState n m → Prop where
  | pool {s : GroupState n m} {r : Fin n} {q : Pool (Fin m)} :
      Pool.Step groupPoolSize (fun j => (s.peer r).code j = []) (s.pool r) q →
      Step ident s { s with pool := Function.update s.pool r q }
  | run {s : GroupState n m} {x : Fin n → Tasks (Fin m) (Fin n) PeerId Time Bytes} :
      TStep ident (fun r j _ => j ∈ (s.pool r).running) s.peer x →
      Step ident s { s with peer := x }

/-- Every peer has returned from `group_all_reduce`. -/
def Returned (s : GroupState n m) : Prop := ∀ r, (s.pool r).Done

variable [NeZero n]

/-- All peers have called `group_all_reduce`. -/
def start (g : GroupCall n m) : GroupState n m where
  peer := Tasks.start (fun j => allReduceTask (g.call j)) g.mem
  pool r := ⟨g.order r, [], []⟩

/-- The states that a group can reach. -/
def Reach (ident : Fin n → PeerId) (g : GroupCall n m) (s : GroupState n m) : Prop :=
  Relation.ReflTransGen (Step ident) (start g) s

/-- What holds in every state: every `all_reduce` is where it could be alone, one that waits has
not begun, and one that neither waits nor runs is through. -/
structure Inv (ident : Fin n → PeerId) (g : GroupCall n m) (s : GroupState n m) : Prop where
  tasks : TaskInv (fun j => (g.call j).owns) (fun j r => ((g.call j).workspace r).reads)
    (fun j => CReach ident Store.writeBody (allReduceTask (g.call j)) fun r => ⟨g.mem r, 0⟩) s.peer
  pool : ∀ r, (s.pool r).Inv groupPoolSize (g.order r)
  waits : ∀ r j, (s.pool r).Waits j → (s.peer r).code j = allReduceTask (g.call j) r
  through : ∀ r j, ¬(s.pool r).Waits j → j ∉ (s.pool r).running → (s.peer r).code j = []

variable {ident : Fin n → PeerId} {g : GroupCall n m} {s s' : GroupState n m}

theorem Inv.start (hg : g.Runs) : Inv ident g (GroupState.start g) where
  tasks := TaskInv.start fun _ => .refl
  pool _ := Pool.Inv.start _ _
  waits _ _ _ := rfl
  through r j hw _ := absurd (hg.mem_order r j) hw

theorem Inv.step (hg : g.Runs) (h : Inv ident g s) (hs : Step ident s s') : Inv ident g s' := by
  cases hs with
  | @pool r q hq =>
      have hmove : ∀ r', Pool.Step groupPoolSize (fun j => (s.peer r').code j = []) (s.pool r')
          (Function.update s.pool r q r') ∨ Function.update s.pool r q r' = s.pool r' := by
        intro r'
        by_cases hr : r' = r
        · subst hr
          rw [Function.update_self]
          exact .inl hq
        · exact .inr (Function.update_of_ne hr _ _)
      generalize hp : Function.update s.pool r q = pool at hmove
      constructor
      · exact h.tasks
      · intro r'
        rcases hmove r' with hs | heq
        · exact (h.pool r').step (hg.nodup_order r') hs
        · simp only [heq, h.pool r']
      · intro r' j hw
        rcases hmove r' with hs | heq
        · exact h.waits r' j ((hs.moves j).1 hw)
        · simp only [heq] at hw
          exact h.waits r' j hw
      · intro r' j hw hrun
        rcases hmove r' with hs | heq
        · obtain ⟨-, h₁, h₂⟩ := hs.moves j
          by_cases hpre : j ∈ (s.pool r').running
          · exact (h₁ hpre).resolve_left hrun
          · refine h.through r' j (fun hwait => ?_) hpre
            exact (h₂ hwait).elim hw hrun
        · simp only [heq] at hw hrun
          exact h.through r' j hw hrun
  | @run x ht =>
      constructor
      · exact h.tasks.step hg.separated
          (fun j c hc => hc.local fun r => allReduceTask_local (hg.runs j) r)
          (fun j c c' hc hs => hc.tail hs) ht
      · exact h.pool
      · intro r j hw
        rw [ht.code_eq fun _ hrun => ((h.pool r).running j hrun).2 hw]
        exact h.waits r j hw
      · intro r j hw hrun
        rw [ht.code_eq fun _ => hrun]
        exact h.through r j hw hrun

theorem Reach.inv (hg : g.Runs) (h : Reach ident g s) : Inv ident g s := by
  induction h with
  | refl => exact .start hg
  | tail _ hs ih => exact ih.step hg hs

end GroupState

/-! ## Up to `2 ^ 32` peers -/

/-- In every run in which all peers return, every `recv` buffer holds the reduction of the `send`
buffers of the workspace of the same name. -/
def GroupAllReduceCorrect (n : ℕ) [NeZero n] (ident : Fin n → PeerId) : Prop :=
  ∀ (m : ℕ) (g : GroupCall n m), g.Ok → ∀ s : GroupState n m, GroupState.Reach ident g s →
    s.Returned → ∀ j r, Memory.read (g.recv j r) ((g.call j).workspace r).dataSize
      (s.peer r).rest.store.mem = (g.call j).result

section Counter

variable [NeZero n] {ident : Fin n → PeerId}

/-- **What a group ends with**, when `res` is what its `all_reduce`s settle on. -/
theorem GroupState.Reach.recv_eq (hid : Function.Injective ident) {g : GroupCall n m} (hg : g.Ok)
    {s : GroupState n m} (hs : GroupState.Reach ident g s) (hret : s.Returned) {j : Fin m}
    {res : Bytes} (hres : (g.call j).Settles res) (r : Fin n) :
    Memory.read (g.recv j r) ((g.call j).workspace r).dataSize (s.peer r).rest.store.mem = res := by
  have hinv := hs.inv hg.toRuns
  have hcode : (s.peer r).code j = [] := by
    obtain ⟨h₁, h₂, h₃⟩ := hret r
    apply hinv.through
    · simp [Pool.Waits, h₁, h₂]
    · simp [h₃]
  obtain ⟨c, hc, hproj⟩ := hinv.tasks.alone j
  obtain ⟨τ, hτ, hcr⟩ := hproj r
  have hfinal := allReduceTask_final hid (hg.call j) hres (fun _ => rfl) hc r
    (by rw [hcr]; exact hcode)
  rw [hcr] at hfinal
  have hmem : τ.mem = Memory.write (g.recv j r) res (g.mem r) := hfinal
  have hlen : ((g.call j).workspace r).dataSize = res.length := hres.length.symm
  have hread : Memory.read (g.recv j r) res.length (s.peer r).rest.store.mem =
      Memory.read (g.recv j r) res.length τ.mem := by
    apply Memory.read_congr
    intro k hk
    symm
    apply hτ.mem
    exact .inr ⟨k, by rw [hlen]; exact hk, rfl⟩
  rw [hlen, hread, hmem, Memory.read_write]

theorem groupAllReduceCorrect_of_le (hid : Function.Injective ident) (hn : n ≤ 2 ^ 32) :
    GroupAllReduceCorrect n ident := by
  intro m g hg s hs hret j r
  exact hs.recv_eq hid hg hret ((hg.call j).settles (.inl hn)) r

/-- A group of one workspace, to which every peer contributes the number one. -/
def countGroup (n : ℕ) : GroupCall n 1 where
  count _ := (countPeers n).count
  dt _ := (countPeers n).dt
  op _ := (countPeers n).op
  name _ := (countPeers n).name
  send _ := (countPeers n).send
  recv _ := (countPeers n).recv
  mem := (countPeers n).mem
  order _ := [0]

omit [NeZero n] in
theorem countGroup_ok (n : ℕ) : (countGroup n).Ok where
  runs _ := (countPeers_ok n).runs
  names := Function.injective_of_subsingleton _
  apart hij := absurd (Subsingleton.elim _ _) hij
  order _ := .refl _
  isInt _ := rfl

end Counter

end StdmlCollective

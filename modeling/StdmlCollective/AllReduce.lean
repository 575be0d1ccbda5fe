import Mathlib.Data.Prod.Lex
import StdmlCollective.Address
import StdmlCollective.Star

/-!
# `all_reduce` over the star

A sequence of `all_reduce` calls that all peers make in the same order. Every call is cut
into parts, every part runs over the star, and a part is nothing but `star_good`; the calls
and their parts are chained by what memory holds in between.

The result is right for every number of peers up to `2 ^ 32`: the root of the star takes
`n - 1` buffers, and its `uint32_t` counter tells no buffer from `2 ^ 32` of them.
-/

namespace StdmlCollective

open BlockNet LittleEndian
open Memory (Mem)

variable {n : ℕ}

/-- The times of a run: the number of a step, and the label of a section in it. -/
abbrev Time := ℕ ×ₗ ℕ

/-- The time of section `i` of step `k`. -/
def Time.at (k i : ℕ) : Time := toLex (k, i)

/-- The step a time belongs to. -/
def Time.step (t : Time) : ℕ := (ofLex t).1

@[simp] theorem Time.step_at (k i : ℕ) : Time.step (Time.at k i) = k := rfl

theorem Time.at_strictMono (k : ℕ) : StrictMono (Time.at k) := by
  intro i j hij
  exact Prod.Lex.toLex_lt_toLex.mpr (.inr ⟨rfl, hij⟩)

theorem Time.lt_of_step_lt {t u : Time} (h : t.step < u.step) : t < u :=
  Prod.Lex.lt_iff.mpr (.inl h)

/-- One call of `all_reduce`, made by all `n` peers. The buffers are each peer's own, and
`mem r` is the memory of peer `r` when it makes the call. -/
structure AllReduceCall (n : ℕ) where
  count : ℕ
  dt : Dtype
  op : ReduceOp
  name : Bytes
  send : Fin n → Addr
  recv : Fin n → Addr
  mem : Fin n → Mem

namespace AllReduceCall

/-- The workspace of peer `r`. -/
def workspace (c : AllReduceCall n) (r : Fin n) : Workspace :=
  ⟨c.send r, c.recv r, c.count, c.dt, c.op, c.name⟩

/-- The element operation. -/
def elemOp (c : AllReduceCall n) : ℕ → ℕ → ℕ := intElemOp c.dt c.op

/-- The send buffer of peer `r` at the call. -/
def input (c : AllReduceCall n) (r : Fin n) : Bytes := (c.workspace r).input (c.mem r)

/-- The element-wise reduction of the send buffers of all peers. -/
def result (c : AllReduceCall n) : Bytes :=
  reduceAll c.elemOp (dtypeSize c.dt) c.count ((List.finRange n).map c.input)

/-- At least one element, an integer type, a name without NUL, and buffers in place or out
of place. -/
structure Ok (c : AllReduceCall n) : Prop where
  count_pos : 1 ≤ c.count
  isInt : c.dt.isInt = true
  nulFree : NulFree c.name
  separate : ∀ r, (c.workspace r).Separate

end AllReduceCall

section Program

variable [NeZero n]

/-- Call number `i` as peer `rank` makes it: the application leaves its memory as it is,
`all_reduce` runs, and the application sees its `recv` buffer. -/
def allReduceCall (rank : Fin n) (i : ℕ) (c : AllReduceCall n) :
    List (List (List (Thread (Fin n) Time Store Bytes))) :=
  [[.act fun σ => { σ with mem := c.mem rank }]] ::
    (runGraphPairListMultiThread id rank (c.workspace rank) (makeGraphPairList .star n)
        allReduceChunkSize ++
      [[[.ret i fun σ => Memory.read (c.recv rank) (c.workspace rank).dataSize σ.mem]]])

/-- The program of peer `rank`: the calls `cs`, one after the other. -/
def allReduceProgram (cs : List (AllReduceCall n)) (rank : Fin n) :
    List (Par (Fin n) Time Store Bytes) :=
  stepsFrom (fun ss k => stamp (fun i => Time.at k (starLab 0 rank i)) ss) 0
    (cs.zipIdx.flatMap fun c => allReduceCall rank c.2 c.1)

/-- Every sequence of `all_reduce` calls is right in every state it can reach: what a call
has returned is the reduction of its inputs, no state before the end is stuck, and at the
end nothing is left in flight. -/
def AllReduceCorrect (n : ℕ) [NeZero n] (ident : Fin n → PeerId) : Prop :=
  ∀ cs : List (AllReduceCall n), (∀ c ∈ cs, c.Ok) → ∀ (σ : Fin n → Store)
    (x : Cluster (Fin n) PeerId Time Store Bytes),
    CReach ident Store.writeBody (allReduceProgram cs) σ x →
      (∀ r i v, (i, v) ∈ (x r).returned → ∃ c, cs[i]? = some c ∧ v = c.result) ∧
      (¬x.Final → ∃ x', CStep ident Store.writeBody x x') ∧ (x.Final → x.Drained)

end Program

/-! ## Phases -/

/-- The steps of the calls: a call begins, one of its parts runs, it returns. -/
inductive Phase (n : ℕ) where
  | enter (c : AllReduceCall n)
  | part (c : AllReduceCall n) (i : ℕ × ℕ)
  | leave (i : ℕ) (c : AllReduceCall n)

namespace Phase

variable [NeZero n]

/-- The sections of a phase. -/
def sections (rank : Fin n) : Phase n → List (List (Thread (Fin n) Time Store Bytes))
  | .enter c => [[.act fun σ => { σ with mem := c.mem rank }]]
  | .part c i => runGraphsMultiThread id rank ((c.workspace rank).slice i.1 i.2)
      [(starPair n 0).reduceGraph, (starPair n 0).broadcastGraph]
  | .leave i c => [[.ret i fun σ => Memory.read (c.recv rank) (c.workspace rank).dataSize σ.mem]]

end Phase

/-- The parts of a call. -/
def AllReduceCall.parts (c : AllReduceCall n) : List (ℕ × ℕ) :=
  evenPartition 0 c.count (ceilDiv (c.count * dtypeSize c.dt) allReduceChunkSize)

/-- The phases of a call. -/
def AllReduceCall.phases (c : AllReduceCall n) (i : ℕ) : List (Phase n) :=
  .enter c :: (c.parts.map (Phase.part c) ++ [.leave i c])

/-- The phases of a sequence of calls. -/
def phases (cs : List (AllReduceCall n)) : List (Phase n) :=
  cs.zipIdx.flatMap fun c => c.1.phases c.2

section

variable [NeZero n]

theorem allReduceCall_eq (rank : Fin n) (i : ℕ) (c : AllReduceCall n) :
    allReduceCall rank i c = (c.phases i).map (Phase.sections rank) := by
  have hchoose : ∀ j, (makeGraphPairList .star n).choose j = starPair n 0 := by
    intro j
    simp [makeGraphPairList, makeGraphPairListStar, GraphPairList.choose]
  simp [allReduceCall, AllReduceCall.phases, Phase.sections, runGraphPairListMultiThread,
    splitWork, Workspace.split, hchoose, AllReduceCall.parts, AllReduceCall.workspace,
    Workspace.dataSize]

/-- The blocks of phase `ph` as step number `k`. -/
def Phase.blocks (rank : Fin n) (ph : Phase n) (k : ℕ) :
    List (Block (Fin n) Time Key Bytes Store Bytes) :=
  StdmlCollective.blocks Store.writeBody
    (stamp (fun i => Time.at k (starLab 0 rank i)) (ph.sections rank))

theorem allReduceProgram_blocks (cs : List (AllReduceCall n)) (rank : Fin n) :
    blocks Store.writeBody (allReduceProgram cs rank) =
      stepsFrom (Phase.blocks rank) 0 (phases cs) := by
  have hs : (cs.zipIdx.flatMap fun c => allReduceCall rank c.2 c.1) =
      (phases cs).map (Phase.sections rank) := by
    simp [phases, allReduceCall_eq, List.map_flatMap]
  rw [allReduceProgram, hs, stepsFrom_map, blocks, map_stepsFrom]
  rfl

end

/-! ## The order of phases -/

/-- What may come after a phase. -/
def Phase.Next : Phase n → Phase n → Prop
  | .enter c, .part c' i => c' = c ∧ i.1 = 0
  | .part c i, .part c' j => c' = c ∧ j.1 = i.2
  | .part c i, .leave _ c' => c' = c ∧ i.2 = c.count
  | .leave _ _, .enter _ => True
  | _, _ => False

theorem AllReduceCall.parts_covers {c : AllReduceCall n} (hc : 1 ≤ c.count) :
    Covers 0 c.count c.parts :=
  evenPartition_covers (Nat.zero_le _)
    (ceilDiv_pos (Nat.mul_pos hc (dtypeSize_pos c.dt)) (by decide))

/-- The parts of a call follow one another, and then it returns. -/
theorem Covers.isChain {c : AllReduceCall n} {a : ℕ} {l : List (ℕ × ℕ)} (i : ℕ)
    (h : Covers a c.count l) :
    (l.map (Phase.part c) ++ [Phase.leave i c]).IsChain Phase.Next ∧
      ∀ ph ∈ (l.map (Phase.part c) ++ [Phase.leave i c]).head?,
        (∃ b, ph = .part c (a, b)) ∨ (a = c.count ∧ ph = .leave i c) := by
  induction l generalizing a with
  | nil =>
      cases h
      simp
  | cons e l ih =>
      obtain ⟨_, b⟩ := e
      cases h with
      | cons hab hl =>
          obtain ⟨hchain, hhead⟩ := ih hl
          refine ⟨?_, fun ph hph => .inl ⟨b, by simpa using hph.symm⟩⟩
          rw [List.map_cons, List.cons_append, List.isChain_cons]
          refine ⟨fun ph hph => ?_, hchain⟩
          rcases hhead ph hph with ⟨d, rfl⟩ | ⟨heq, rfl⟩
          · exact ⟨rfl, rfl⟩
          · exact ⟨rfl, heq⟩

theorem AllReduceCall.phases_isChain {c : AllReduceCall n} (hc : 1 ≤ c.count) (i : ℕ) :
    (c.phases i).IsChain Phase.Next := by
  obtain ⟨hchain, hhead⟩ := (c.parts_covers hc).isChain i
  rw [AllReduceCall.phases, List.isChain_cons]
  refine ⟨fun ph hph => ?_, hchain⟩
  rcases hhead ph hph with ⟨b, rfl⟩ | ⟨heq, rfl⟩
  · exact ⟨rfl, rfl⟩
  · omega

theorem phases_isChain {cs : List (AllReduceCall n)} (hcs : ∀ c ∈ cs, c.Ok) :
    (phases cs).IsChain Phase.Next := by
  suffices h : ∀ k, ((cs.zipIdx k).flatMap fun c => c.1.phases c.2).IsChain Phase.Next ∧
      ∀ ph ∈ ((cs.zipIdx k).flatMap fun c => c.1.phases c.2).head?, ∃ c, ph = .enter c from
    (h 0).1
  induction cs with
  | nil => simp
  | cons c cs ih =>
      intro k
      obtain ⟨hchain, hhead⟩ := ih (fun c' hc' => hcs c' (List.mem_cons_of_mem _ hc')) (k + 1)
      rw [List.zipIdx_cons, List.flatMap_cons]
      refine ⟨?_, fun ph hph => ⟨c, by simpa [AllReduceCall.phases] using hph.symm⟩⟩
      refine (AllReduceCall.phases_isChain (hcs c List.mem_cons_self).count_pos k).append hchain ?_
      intro x hx y hy
      obtain ⟨c', rfl⟩ := hhead y hy
      have hlast : (c.phases k).getLast? = some (Phase.leave k c) := by
        rw [AllReduceCall.phases, ← List.cons_append, List.getLast?_concat]
      rw [hlast] at hx
      obtain rfl := Option.some.inj hx
      trivial

theorem mem_phases {cs : List (AllReduceCall n)} {ph : Phase n} (h : ph ∈ phases cs) :
    ∃ i c, cs[i]? = some c ∧
      (ph = .enter c ∨ (∃ e ∈ c.parts, ph = .part c e) ∨ ph = .leave i c) := by
  obtain ⟨⟨c, i⟩, hmem, hph⟩ := List.mem_flatMap.mp h
  refine ⟨i, c, List.mem_zipIdx_iff_getElem?.mp hmem, ?_⟩
  simp only [AllReduceCall.phases, List.mem_cons, List.mem_append, List.mem_map,
    List.not_mem_nil, or_false] at hph
  rcases hph with hph | ⟨e, he, rfl⟩ | hph
  · exact .inl hph
  · exact .inr (.inl ⟨e, he, rfl⟩)
  · exact .inr (.inr hph)

/-! ## Compatibility -/

/-- Every peer of a run is a member of the session. -/
theorem members_id : Members (id : Fin n → Fin n) some := ⟨fun p r => by simp [eq_comm]⟩

section Compat

variable [NeZero n]

theorem AllReduceCall.Ok.part {c : AllReduceCall n} (hc : c.Ok) (e : ℕ × ℕ) :
    PartOk (fun r => (c.workspace r).slice e.1 e.2) (partName c.name e.1 e.2) 0 c.elemOp where
  name_eq _ := rfl
  nulFree := nulFree_partName hc.nulFree _ _
  op := elemOp_of_isInt hc.isInt _

omit [NeZero n] in
theorem AllReduceCall.Ok.fits {c : AllReduceCall n} (hc : c.Ok) {e : ℕ × ℕ} (he : e ∈ c.parts) :
    Fits fun r => (c.workspace r).slice e.1 e.2 where
  size r := part_size_lt (w := c.workspace r) hc.count_pos he
  separate r := by
    have hle := (c.parts_covers hc.count_pos).mem he
    exact (hc.separate r).slice hle.1 hle.2

theorem Phase.blocks_part (c : AllReduceCall n) (e : ℕ × ℕ) (k : ℕ) (r : Fin n) :
    (Phase.part c e).blocks r k = StdmlCollective.blocks Store.writeBody
      (starRun (Time.at k) id some 0
      (fun r => (c.workspace r).slice e.1 e.2) r) := rfl

theorem Phase.blocks_enter (c : AllReduceCall n) (k : ℕ) (r : Fin n) :
    (Phase.enter c).blocks r k =
      [⟨Time.at k (starLab 0 r 0), [.act fun σ => { σ with mem := c.mem r }]⟩] := rfl

theorem Phase.blocks_leave (i : ℕ) (c : AllReduceCall n) (k : ℕ) (r : Fin n) :
    (Phase.leave i c).blocks r k = [⟨Time.at k (starLab 0 r 0), [.emit i fun σ =>
      Memory.read (c.recv r) (c.workspace r).dataSize σ.mem]⟩] := rfl

theorem time_of_mem_stamp {P S O : Type} {write : Addr → Bytes → S → S} {k : ℕ} {lab : ℕ → ℕ}
    {ss : List (List (Thread P Time S O))} {b : Block P Time Key Bytes S O}
    (h : b ∈ blocks write (stamp (fun i => Time.at k (lab i)) ss)) : b.time.step = k := by
  simp only [blocks, stamp, List.mem_map, List.mem_mapIdx] at h
  obtain ⟨_, ⟨i, _, rfl⟩, rfl⟩ := h
  rfl

/-- The calls are compatible: all peers take part in every part, in the same order. -/
theorem allReduce_compat {cs : List (AllReduceCall n)} (hcs : ∀ c ∈ cs, c.Ok) :
    Compat fun r => blocks Store.writeBody (allReduceProgram cs r) := by
  simp only [allReduceProgram_blocks]
  refine Compat.numbered (F := Phase.blocks) Time.step (fun t u h => Time.lt_of_step_lt h)
    (fun r ph k b hb => time_of_mem_stamp hb) (fun ph hph k => ?_) 0
  obtain ⟨i, c, hi, hc⟩ := mem_phases hph
  rcases hc with rfl | ⟨e, he, rfl⟩ | rfl
  · simp only [Phase.blocks_enter]
    exact ⟨fun p => .cons (Block.valid_act _ _) .nil (by simp), fun s d => by simp⟩
  · simp only [Phase.blocks_part]
    exact star_compat (Time.at_strictMono k) members_id
      ((hcs c (List.mem_of_getElem? hi)).part e)
  · simp only [Phase.blocks_leave]
    exact ⟨fun p => .cons (Block.valid_emit _ _ _) .nil (by simp), fun s d => by simp⟩

theorem allReduceProgram_fresh (cs : List (AllReduceCall n)) (r : Fin n)
    {b : Par (Fin n) Time Store Bytes} (hb : b ∈ allReduceProgram cs r)
    {th : Thread (Fin n) Time Store Bytes} (hth : th ∈ b.threads) : th.Fresh := by
  obtain ⟨i, ss, hi, hb⟩ := mem_stepsFrom hb
  refine fresh_stamp (fun ths hths th hth => ?_) hb hth
  obtain ⟨c, -, hc⟩ := List.mem_flatMap.mp (List.mem_of_getElem? hi)
  rw [allReduceCall_eq, List.mem_map] at hc
  obtain ⟨ph, -, rfl⟩ := hc
  cases ph with
  | part c e => exact fresh_runGraphs hths hth
  | enter c | leave i c =>
      obtain rfl := List.mem_singleton.mp hths
      obtain rfl := List.mem_singleton.mp hth
      trivial

end Compat

/-! ## Memory between phases -/

/-- The memory of peer `r` when the first `a` elements of `res` are in its `recv` buffer. -/
def AllReduceCall.before (c : AllReduceCall n) (res : Bytes) (a : ℕ) (r : Fin n) : Mem :=
  Memory.write (c.recv r) (res.take (a * dtypeSize c.dt)) (c.mem r)

namespace AllReduceCall

variable {c : AllReduceCall n} {res : Bytes}

theorem before_zero (r : Fin n) : c.before res 0 r = c.mem r := by
  simp [before]

theorem before_count (hres : res.length = c.count * dtypeSize c.dt) (r : Fin n) :
    c.before res c.count r = Memory.write (c.recv r) res (c.mem r) := by
  rw [before, ← hres, List.take_length]

/-- The next part of the result is written behind what is there. -/
theorem before_step (hres : res.length = c.count * dtypeSize c.dt) {a b : ℕ} (hab : a ≤ b)
    (hb : b ≤ c.count) (r : Fin n) :
    Memory.write ((c.workspace r).slice a b).recv
        ((res.drop (a * dtypeSize c.dt)).take ((b - a) * dtypeSize c.dt)) (c.before res a r) =
      c.before res b r := by
  have hle := Workspace.slice_le (w := c.workspace r) hab hb
  have hlen : (res.take (a * dtypeSize c.dt)).length = a * dtypeSize c.dt := by
    rw [List.length_take, hres]
    exact Nat.min_eq_left (Nat.mul_le_mul_right _ (hab.trans hb))
  have hsplit : res.take (b * dtypeSize c.dt) = res.take (a * dtypeSize c.dt) ++
      (res.drop (a * dtypeSize c.dt)).take ((b - a) * dtypeSize c.dt) := by
    rw [← List.take_add, ← Nat.add_mul, Nat.add_sub_cancel' hab]
  rw [before, before, hsplit, Memory.write_append, hlen]
  rfl

/-- A part reads what the application has put into the send buffer. -/
theorem input_before (hc : c.Ok) {a b : ℕ} (hab : a ≤ b) (hb : b ≤ c.count) (r : Fin n) :
    ((c.workspace r).slice a b).input (c.before res a r) =
      ((c.workspace r).slice a b).input (c.mem r) := by
  have hle := Workspace.slice_le (w := c.workspace r) hab hb
  have hlen : (res.take (a * dtypeSize c.dt)).length ≤ a * dtypeSize c.dt :=
    List.length_take_le _ _
  refine Memory.read_write_apart _ ?_
  simp only [Workspace.slice, AllReduceCall.workspace] at hle ⊢
  rcases hc.separate r with h | h | h <;> simp only [AllReduceCall.workspace] at h
  · rw [h]
    exact .inr (by omega)
  · exact .inl (by omega)
  · exact .inr (by omega)

/-- Element `j` of a part is element `a + j` of the buffer. -/
theorem elem_input_slice {a b j : ℕ} (hb : b ≤ c.count) (hj : j < b - a) (r : Fin n) :
    elem (dtypeSize c.dt) (((c.workspace r).slice a b).input (c.mem r)) j =
      elem (dtypeSize c.dt) (c.input r) (a + j) := by
  rw [Workspace.input, Workspace.dataSize_slice, input, Workspace.input, Workspace.dataSize]
  simp only [Workspace.slice, AllReduceCall.workspace]
  rw [elem_read _ _ hj, elem_read _ _ (by omega), Nat.add_mul, Nat.add_assoc]

/-- The send buffer of peer `r`, as far as part `e` goes. -/
def partInput (c : AllReduceCall n) (e : ℕ × ℕ) (r : Fin n) : Bytes :=
  ((c.workspace r).slice e.1 e.2).input (c.mem r)

/-- The reduction of one part. -/
def partResult (c : AllReduceCall n) (e : ℕ × ℕ) : Bytes :=
  reduceAll c.elemOp (dtypeSize c.dt) (e.2 - e.1) ((List.finRange n).map (c.partInput e))

/-- The reduction of a part is a part of the reduction. -/
theorem result_slice {e : ℕ × ℕ} (hab : e.1 ≤ e.2) (hb : e.2 ≤ c.count) :
    (c.result.drop (e.1 * dtypeSize c.dt)).take ((e.2 - e.1) * dtypeSize c.dt) =
      c.partResult e := by
  obtain ⟨k, hk⟩ : ∃ k, c.count = e.1 + ((e.2 - e.1) + k) := ⟨c.count - e.2, by omega⟩
  have helem : ∀ j < e.2 - e.1, ((List.finRange n).map (c.partInput e)).map
      (elem (dtypeSize c.dt) · j) =
        ((List.finRange n).map c.input).map (elem (dtypeSize c.dt) · (e.1 + j)) := by
    intro j hj
    simp only [List.map_map, List.map_inj_left, Function.comp_apply]
    intro q _
    exact elem_input_slice hb hj q
  rw [result, hk, reduceAll_slice c.elemOp e.1 (e.2 - e.1) k helem, partResult]

/-- Combining the inputs of a part one after the other, in any order, gives its reduction. -/
theorem foldl_partInput {e : ℕ × ℕ} {q : Fin n} {l : List (Fin n)}
    (hl : (q :: l).Perm (List.finRange n)) :
    (l.map (c.partInput e)).foldl (fun a d => zipElems c.elemOp (dtypeSize c.dt) (e.2 - e.1) d a)
      (c.partInput e q) = c.partResult e := by
  have hcomm : Std.Commutative c.elemOp := inferInstanceAs (Std.Commutative (intElemOp _ _))
  have hassoc : Std.Associative c.elemOp := inferInstanceAs (Std.Associative (intElemOp _ _))
  exact foldl_zipElems_perm (intElemOp_lt c.dt c.op) (Workspace.length_input _ _)
    (hl.map (c.partInput e))

/-- What the parts of `res` are when the root has seen every input. -/
structure Settles [NeZero n] (c : AllReduceCall n) (res : Bytes) : Prop where
  length : res.length = c.count * dtypeSize c.dt
  settled : ∀ e ∈ c.parts, ∀ l : List (Fin n), l.Perm (others 0) →
    ((c.workspace 0).slice e.1 e.2).settled c.elemOp (c.before res e.1 0)
        (l.map fun q => ((c.workspace q).slice e.1 e.2).input (c.before res e.1 q)) =
      (res.drop (e.1 * dtypeSize c.dt)).take ((e.2 - e.1) * dtypeSize c.dt)

/-- The root settles on the reduction of all inputs of a part, in whatever order they arrive, as
long as its counter does not wrap or does not matter. -/
theorem settled_part [NeZero n] (hn : n ≤ 2 ^ 32 ∨ c.send 0 = c.recv 0) {e : ℕ × ℕ}
    {M : Fin n → Mem} (hM : ∀ q, ((c.workspace q).slice e.1 e.2).input (M q) = c.partInput e q)
    {l : List (Fin n)} (hl : l.Perm (others 0)) :
    ((c.workspace 0).slice e.1 e.2).settled c.elemOp (M 0)
        (l.map fun q => ((c.workspace q).slice e.1 e.2).input (M q)) = c.partResult e := by
  have hpos := Nat.pos_of_ne_zero (NeZero.ne n)
  have hlen : l.length < 2 ^ 32 ∨ ((c.workspace 0).slice e.1 e.2).inplace = true := by
    rw [hl.length_eq, length_others]
    refine hn.imp (by omega) fun h => ?_
    simp [Workspace.inplace, Workspace.slice, workspace, h]
  have hperm : (0 :: l).Perm (List.finRange n) := by
    refine (List.perm_ext_iff_of_nodup ?_ (List.nodup_finRange n)).mpr fun q => ?_
    · rw [List.nodup_cons, hl.mem_iff, hl.nodup_iff]
      exact ⟨by simp, nodup_others 0⟩
    · rw [List.mem_cons, hl.mem_iff, mem_others]
      simp [em]
  simp only [hM]
  rw [Workspace.settled_eq _ (by simpa using hlen), hM 0]
  exact foldl_partInput hperm

/-- The reduction of all inputs, as long as the counter of the root does not wrap or does not
matter. -/
theorem Ok.settles [NeZero n] (hc : c.Ok) (hn : n ≤ 2 ^ 32 ∨ c.send 0 = c.recv 0) :
    c.Settles c.result where
  length := by simp [result]
  settled := by
    intro e he l hl
    obtain ⟨hab, hb⟩ := (c.parts_covers hc.count_pos).mem he
    rw [result_slice hab hb]
    exact settled_part hn (input_before hc hab hb) hl

end AllReduceCall

/-! ## Contract -/

section Contract

variable [NeZero n]

/-- What the messages of the calls carry and what the calls return, `res c` being the result
of call `c`. -/
def allReduceContract (cs : List (AllReduceCall n)) (res : AllReduceCall n → Bytes) :
    Contract (Fin n) Time Key Bytes Bytes where
  msg s d m :=
    match (phases cs)[m.time.step]? with
    | some (.part c e) =>
        m.data = if d = 0 then ((c.workspace s).slice e.1 e.2).input (c.before (res c) e.1 s)
          else ((res c).drop (e.1 * dtypeSize c.dt)).take ((e.2 - e.1) * dtypeSize c.dt)
    | _ => True
  out _ i v := ∃ c, cs[i]? = some c ∧ v = res c

/-- What memory holds before a phase. -/
def Phase.Pre (res : AllReduceCall n → Bytes) (r : Fin n) : Phase n → Store → Prop
  | .enter _, _ => True
  | .part c e, σ => σ.mem = c.before (res c) e.1 r
  | .leave _ c, σ => σ.mem = c.before (res c) c.count r

/-- **The calls keep the contract.** -/
theorem allReduce_good {cs : List (AllReduceCall n)} (hcs : ∀ c ∈ cs, c.Ok)
    {res : AllReduceCall n → Bytes} (hres : ∀ c ∈ cs, c.Settles (res c)) (r : Fin n) (σ : Store) :
    Good (allReduceContract cs res) r (fun _ => True)
      (blocks Store.writeBody (allReduceProgram cs r)) σ := by
  rw [allReduceProgram_blocks]
  refine Good.chain (Phase.Pre res r) (phases cs) 0 (fun k ph hk τ hτ => ?_)
    (phases_isChain hcs) fun ph hph => ?_
  · rw [Nat.zero_add]
    obtain ⟨i, c, hi, hc⟩ := mem_phases (List.mem_of_getElem? hk)
    have hmem := List.mem_of_getElem? hi
    have hlen := (hres c hmem).length
    rcases hc with rfl | ⟨e, he, rfl⟩ | rfl
    · -- the application has set up its memory
      rw [Phase.blocks_enter]
      refine Good.single (.done fun ph hph => ?_)
      cases ph with
      | part c' e =>
          obtain ⟨rfl, h₀⟩ := hph
          rw [Phase.Pre, h₀, AllReduceCall.before_zero]
      | enter c' | leave i c' => exact absurd hph id
    · obtain ⟨hab, hb⟩ := (c.parts_covers (hcs c hmem).count_pos).mem he
      rw [Phase.blocks_part]
      have hC : PartContract (allReduceContract cs res) (Time.at k) id 0
          (partName c.name e.1 e.2)
          (fun q => ((c.workspace q).slice e.1 e.2).input (c.before (res c) e.1 q))
          (((res c).drop (e.1 * dtypeSize c.dt)).take ((e.2 - e.1) * dtypeSize c.dt)) := by
        constructor
        · intro q _ d
          simp [allReduceContract, hk]
        · intro q hq d
          simp [allReduceContract, hk, hq]
      refine (star_good members_id ((hcs c hmem).part e) ((hcs c hmem).fits he) hC
        ((hres c hmem).settled e he) r hτ).mono fun τ' hτ' ph hph => ?_
      rw [AllReduceCall.before_step hlen hab hb] at hτ'
      cases ph with
      | enter c' => exact absurd hph id
      | part c' e' =>
          obtain ⟨rfl, h₁⟩ := hph
          rw [Phase.Pre, hτ', h₁]
      | leave i c' =>
          obtain ⟨rfl, h₁⟩ := hph
          rw [Phase.Pre, hτ', ← h₁]
    · rw [Phase.blocks_leave]
      refine Good.single ⟨⟨c, hi, ?_⟩, .done fun ph hph => ?_⟩
      · rw [Phase.Pre, AllReduceCall.before_count hlen] at hτ
        simp only [hτ]
        have := Memory.read_write (c.recv r) (res c) (c.mem r)
        rwa [hlen] at this
      · cases ph with
        | enter c' => trivial
        | part c' e | leave i c' => exact absurd hph id
  · -- the first phase is the beginning of a call
    cases cs with
    | nil => simp [phases] at hph
    | cons c cs =>
        obtain rfl : Phase.enter c = ph := by
          simpa [phases, List.zipIdx_cons, AllReduceCall.phases] using hph
        trivial

/-- Every state of a run, when `res` is what the calls settle on. -/
theorem allReduce_reach {ident : Fin n → PeerId} (hid : Function.Injective ident)
    {cs : List (AllReduceCall n)} (hcs : ∀ c ∈ cs, c.Ok) {res : AllReduceCall n → Bytes}
    (hres : ∀ c ∈ cs, c.Settles (res c)) {σ : Fin n → Store}
    {x : Cluster (Fin n) PeerId Time Store Bytes}
    (hx : CReach ident Store.writeBody (allReduceProgram cs) σ x) :
    (∀ r i v, (i, v) ∈ (x r).returned → ∃ c, cs[i]? = some c ∧ v = res c) ∧
      (¬x.Final → ∃ x', CStep ident Store.writeBody x x') ∧ (x.Final → x.Drained) := by
  have hcompat := allReduce_compat hcs
  obtain ⟨a, ha, hsim⟩ := simulate (tidy_of_compat hid (allReduceProgram_fresh cs) hcompat)
    hcompat (fun a _ => excl_of_injective hid a) hx
  have hkept := Kept.reach (C := allReduceContract cs res) (Q := fun _ _ => True)
    (fun r => allReduce_good hcs hres r (σ r)) ha
  have hmatch := hcompat.matched_reach ha
  refine ⟨fun r i v hv => ?_, hsim.progress hmatch (excl_of_injective hid a),
    hsim.drained hmatch⟩
  rw [← (hsim r).out] at hv
  exact hkept.out r i v hv

/-- A run of a single call can end, and then every peer has returned from it. -/
theorem allReduce_returns {ident : Fin n → PeerId} (hid : Function.Injective ident)
    {c : AllReduceCall n} (hc : c.Ok) (σ : Fin n → Store) (r : Fin n) :
    ∃ x : Cluster (Fin n) PeerId Time Store Bytes,
      CReach ident Store.writeBody (allReduceProgram [c]) σ x ∧
        ∃ v, (0, v) ∈ (x r).returned := by
  have hcs : ∀ c' ∈ [c], c'.Ok := by simpa using hc
  have hcompat := allReduce_compat hcs
  have htidy := tidy_of_compat hid (allReduceProgram_fresh [c]) hcompat
  obtain ⟨x, hx, -, hfinal⟩ := exists_final (c := Cluster.start (allReduceProgram [c]) σ) htidy
    hcompat (fun a _ => excl_of_injective hid a) .refl
  obtain ⟨a, ha, hsim⟩ := simulate htidy hcompat (fun a _ => excl_of_injective hid a) hx
  have hdone : emits (a.proc r).blocks = [] := by
    rw [(hsim r).code, Node.abs, hfinal r]
    rfl
  have hperm := emitted_perm ha r
  rw [hdone, List.append_nil, (hsim r).out] at hperm
  have hmem : 0 ∈ emits (blocks Store.writeBody (allReduceProgram [c] r)) := by
    have hleave : Phase.leave 0 c ∈ phases [c] := by simp [phases, AllReduceCall.phases]
    obtain ⟨l₁, l₂, hl⟩ := List.append_of_mem hleave
    rw [allReduceProgram_blocks, emits, flatMap_stepsFrom, hl]
    exact mem_stepsFrom_middle fun k => by simp [Phase.blocks_leave, Job.emitIdx]
  obtain ⟨⟨i, v⟩, hv, rfl⟩ := List.mem_map.mp (hperm.symm.subset hmem)
  exact ⟨x, hx, v, hv⟩

end Contract

/-! ## Up to `2 ^ 32` peers -/

section Counter

variable [NeZero n]

theorem allReduceCorrect_of_le {ident : Fin n → PeerId} (hid : Function.Injective ident)
    (hn : n ≤ 2 ^ 32) : AllReduceCorrect n ident := by
  intro cs hcs σ x hx
  exact allReduce_reach hid hcs (fun c hc => (hcs c hc).settles (.inl hn)) hx

/-- Every peer contributes the number one, as a `uint64_t`, out of place. -/
def countPeers (n : ℕ) : AllReduceCall n where
  count := 1
  dt := .u64
  op := .sum
  name := []
  send _ := 0
  recv _ := 8
  mem _ := fun a => if a = 0 then 1 else 0

theorem countPeers_ok (n : ℕ) : (countPeers n).Ok where
  count_pos := Nat.le_refl 1
  isInt := rfl
  nulFree c hc := by simp [countPeers] at hc
  separate _ := .inr (.inl (Nat.le_refl 8))

theorem sum_u64 (x y : ℕ) : intElemOp .u64 .sum x y = (x + y) % 2 ^ 64 := by
  change (BitVec.ofNat 64 x + BitVec.ofNat 64 y).toNat = _
  rw [BitVec.toNat_add, BitVec.toNat_ofNat, BitVec.toNat_ofNat, ← Nat.add_mod]

/-- Adding two numbers, as arrays of one element. -/
theorem zipElems_u64 {x y : ℕ} (h : x + y < 2 ^ 64) :
    zipElems (intElemOp .u64 .sum) 8 1 (leBytes 8 x) (leBytes 8 y) = leBytes 8 (x + y) := by
  have helem : ∀ v < 2 ^ 64, elem 8 (leBytes 8 v) 0 = v := by
    intro v hv
    rw [elem, entry, Nat.zero_mul, List.drop_zero, List.take_of_length_le (by simp),
      leNat_leBytes]
    exact Nat.mod_eq_of_lt hv
  have hone : ∀ f : ℕ → ℕ, ofElems 8 1 f = leBytes 8 (f 0) := fun f => by simp [ofElems]
  rw [zipElems, hone, helem x (by omega), helem y (by omega), sum_u64, Nat.mod_eq_of_lt h]

/-- What `k` ones add up to when the counter wraps: it starts again from one. -/
theorem accum_ones (k : ℕ) :
    accum (intElemOp .u64 .sum) 8 1 false (leBytes 8 1) (List.replicate k (leBytes 8 1)) =
      leBytes 8 (if k = 0 then 1 else (k - 1) % 2 ^ 32 + 2) := by
  induction k with
  | zero => rfl
  | succ k ih =>
      rw [List.replicate_succ', accum_concat, ih, List.length_replicate]
      by_cases hz : k % 2 ^ 32 = 0
      · rw [if_pos ⟨hz, by simp⟩, zipElems_u64 (by decide), if_neg (by omega),
          Nat.add_sub_cancel, hz]
      · have hk : k ≠ 0 := by
          rintro rfl
          exact hz rfl
        rw [if_neg fun hc => hz hc.1, if_neg hk, if_neg (by omega), zipElems_u64 (by omega)]
        congr 1
        omega

omit [NeZero n] in
theorem countPeers_parts : (countPeers n).parts = [(0, 1)] := by
  simp [AllReduceCall.parts, countPeers, dtypeSize, ceilDiv, allReduceChunkSize, evenPartition,
    evenPartitionFrom]

theorem countPeers_settles : (countPeers n).Settles (leBytes 8 (1 + (n - 1) % 2 ^ 32)) where
  length := by simp [countPeers, dtypeSize]
  settled := by
    intro e he l hl
    rw [countPeers_parts, List.mem_singleton] at he
    subst he
    have hin : ∀ q, (((countPeers n).workspace q).slice 0 1).input ((countPeers n).mem q) =
        leBytes 8 1 := fun q => rfl
    have hout : (((countPeers n).workspace 0).slice 0 1).inplace = false := by
      simp [Workspace.inplace, Workspace.slice, AllReduceCall.workspace, countPeers]
    have hlist : (l.map fun _ => leBytes 8 1) = List.replicate (n - 1) (leBytes 8 1) := by
      rw [List.map_const', hl.length_eq, length_others]
    simp only [AllReduceCall.before_zero, hin]
    rw [hlist, Workspace.settled, Workspace.value, hin, hout, List.length_replicate]
    change (if (n - 1) % 2 ^ 32 = 0 ∧ ¬false = true then leBytes 8 1 else
      accum (intElemOp .u64 .sum) 8 1 false (leBytes 8 1) _) = ((leBytes 8 _).drop 0).take 8
    rw [accum_ones, List.drop_zero, List.take_of_length_le (by simp)]
    by_cases hz : (n - 1) % 2 ^ 32 = 0
    · rw [if_pos ⟨hz, by simp⟩, hz]
    · have hne : n - 1 ≠ 0 := by
        intro h
        rw [h] at hz
        exact hz rfl
      rw [if_neg fun hc => hz hc.1, if_neg hne]
      congr 1
      omega

theorem countPeers_result (hn : n < 2 ^ 64) : (countPeers n).result = leBytes 8 n := by
  have hin : ∀ q, (countPeers n).input q = leBytes 8 1 := fun q => rfl
  have hfold : ∀ k y, y + k < 2 ^ 64 →
      (List.replicate k 1).foldl (intElemOp .u64 .sum) y = y + k := by
    intro k
    induction k with
    | zero => simp
    | succ k ih =>
        intro y hy
        rw [List.replicate_succ, List.foldl_cons, sum_u64, Nat.mod_eq_of_lt (by omega),
          ih _ (by omega)]
        omega
  have hmap : (List.finRange n).map (countPeers n).input = List.replicate n (leBytes 8 1) := by
    rw [List.eq_replicate_iff]
    simp [hin]
  have helem : elem 8 (leBytes 8 1) 0 = 1 := by decide
  have hpos := Nat.pos_of_ne_zero (NeZero.ne n)
  obtain ⟨m, hm⟩ : ∃ m, n = m + 1 := ⟨n - 1, by omega⟩
  rw [AllReduceCall.result, hmap]
  change leBytes 8 (foldl1 (intElemOp .u64 .sum)
    ((List.replicate n (leBytes 8 1)).map (elem 8 · 0))) ++ [] = _
  rw [List.append_nil, List.map_replicate, helem]
  conv_lhs => rw [hm, List.replicate_succ, foldl1, hfold m 1 (by omega), Nat.add_comm, ← hm]

/-- With more peers the counter of the root wraps and contributions are lost. -/
theorem not_allReduceCorrect_of_gt {ident : Fin n → PeerId} (hid : Function.Injective ident)
    (hn : 2 ^ 32 < n) : ¬AllReduceCorrect n ident := by
  intro h
  have hle := card_le_of_injective hid
  have hok : ∀ c ∈ [countPeers n], c.Ok := by simpa using countPeers_ok n
  obtain ⟨x, hx, v, hv⟩ := allReduce_returns hid (countPeers_ok n)
    (fun _ => ⟨fun _ => 0, 0⟩) 0
  obtain ⟨c, hc, h₁⟩ := (h [countPeers n] hok _ x hx).1 0 0 v hv
  have hsettles : ∀ c ∈ [countPeers n],
      c.Settles ((fun _ => leBytes 8 (1 + (n - 1) % 2 ^ 32) : AllReduceCall n → Bytes) c) := by
    simpa using countPeers_settles
  obtain ⟨c', hc', h₂⟩ := (allReduce_reach hid hok hsettles hx).1 0 0 v hv
  obtain rfl : countPeers n = c := by simpa using hc
  have heq := h₁.symm.trans h₂
  rw [countPeers_result (by omega)] at heq
  have hnat := congrArg leNat heq
  rw [leNat_leBytes, leNat_leBytes, Nat.mod_eq_of_lt (by omega),
    Nat.mod_eq_of_lt (by omega)] at hnat
  omega

end Counter

/-- The peers of `peer_list::gen`, at ports from 10000 on. -/
def genPeers (n : ℕ) (i : Fin n) : PeerId := ⟨2130706433, UInt16.ofNat (10000 + i)⟩

/-- There is an id for each of `2 ^ 48` peers. -/
theorem peerId_injective (hn : n ≤ 2 ^ 48) :
    Function.Injective fun i : Fin n => (⟨UInt32.ofNat i, UInt16.ofNat (i / 2 ^ 32)⟩ : PeerId) := by
  intro i j h
  have hi := i.isLt
  have hj := j.isLt
  simp only [PeerId.mk.injEq] at h
  have h₁ := congrArg UInt32.toNat h.1
  have h₂ := congrArg UInt16.toNat h.2
  rw [UInt32.toNat_ofNat', UInt32.toNat_ofNat'] at h₁
  rw [UInt16.toNat_ofNat', UInt16.toNat_ofNat'] at h₂
  exact Fin.ext (by omega)

/-- One peer more than the counter of the root can tell apart. -/
def manyPeers (i : Fin (2 ^ 32 + 1)) : PeerId :=
  ⟨UInt32.ofNat i, UInt16.ofNat (i / 2 ^ 32)⟩

theorem manyPeers_injective : Function.Injective manyPeers := peerId_injective (by decide)

end StdmlCollective

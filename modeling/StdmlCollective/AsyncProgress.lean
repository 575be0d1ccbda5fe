import Mathlib.Algebra.Group.Fin.Basic
import StdmlCollective.AsyncReduce
import StdmlCollective.Refine.Jam

/-!
# When the async runtime starves

A chunk keeps its thread of the pool while the tasks of its sections wait for a thread of the same
pool. Nothing goes wrong as long as some peer always has a thread to spare for what it is to send:
then the others get what they wait for, one after the other. When every peer can have all its
threads taken by chunks and by tasks that receive, what it is to send stays in the queue for ever.
-/

namespace StdmlCollective

open BlockNet

variable {n : ℕ} [NeZero n]

/-- How many chunks have a reduce path that begins at peer `v`. -/
def AllReduceCall.startsAt (c : AllReduceCall n) (v : Fin n) : ℕ :=
  (Finset.univ.filter fun j : Fin c.parts.length => c.ringStart (c.parts.get j) = v).card

/-- Some peer has a thread to spare. Over the star a leaf has a thread for every chunk and
receives nothing before it sends. Over the ring a peer has, besides, a task that receives for every
chunk whose reduce path does not begin with it. -/
def AllReduceCall.Roomy (c : AllReduceCall n) : Strategy → Prop
  | .star => c.parts.length < runtimeSize
  | .ring => ∃ v, 2 * c.parts.length < c.startsAt v + runtimeSize

/-- The states of the peers of a call. -/
abbrev CallState (c : AllReduceCall n) : Type :=
  AsyncState (Fin c.parts.length) (Fin n) PeerId ℕ Bytes

/-- What the peers of a call can reach. -/
abbrev AsyncReach (ident : Fin n → PeerId) (s : Strategy) (c : AllReduceCall n) (x : CallState c) :
    Prop :=
  AsyncState.Reach ident (asyncAllReduce s c) c.mem (List.finRange c.parts.length) x

/-- The runtime does not starve: as long as some peer has not returned, there is a step. -/
def AsyncLive (ident : Fin n → PeerId) (s : Strategy) (c : AllReduceCall n) : Prop :=
  ∀ x : CallState c, AsyncReach ident s c x → ¬x.Returned → ∃ x', AsyncState.Step ident x x'

/-! ## Room to go on -/

section Room

variable {c : AllReduceCall n} {ident : Fin n → PeerId} {s : Strategy} {x : CallState c}

theorem AsyncReach.inv (hid : Function.Injective ident) (hc : c.Runs)
    (hx : AsyncReach ident s c x) :
    AsyncState.Inv ident (fun j name => decide (name = c.chunkName j))
      (fun j r => (c.chunk j r).reads) (asyncAllReduce s c) c.mem x :=
  AsyncState.Reach.planned hx (hc.asyncPlan hid s) List.mem_finRange (List.nodup_finRange _)

/-- The role of peer `v` in chunk `j`. -/
def chunkRole (s : Strategy) (c : AllReduceCall n) (j : Fin c.parts.length) (v : Fin n) :
    Role (Fin n) :=
  match s with
  | .star => starRole 0 v
  | .ring => ringRole (c.ringRoot (c.parts.get j)) v

theorem partRun_role (s : Strategy) (c : AllReduceCall n) (j : Fin c.parts.length) (v : Fin n) :
    partRun s c (c.parts.get j) v =
      (chunkRole s c j v).run (partLab s c (c.parts.get j) v) (c.chunk j v) := by
  cases s with
  | star => rw [partRun_star, starRun_role]; rfl
  | ring => rw [partRun_ring, ringRun_role]; rfl

theorem chunkRole_nodup (s : Strategy) (c : AllReduceCall n) (j : Fin c.parts.length) (v : Fin n) :
    (chunkRole s c j v).Nodup := by
  cases s with
  | star => exact starRole_nodup 0 v
  | ring => exact ringRole_nodup _ v

section Stuck

variable (hid : Function.Injective ident) (hc : c.Runs) (hx : AsyncReach ident s c x)
  (hstuck : ∀ x', ¬AsyncState.Step ident x x')
include hid hc hx hstuck

/-- A task that is at work receives from one of those that the role names. -/
theorem mem_prevs_of_task {p q : Fin n} {j : Fin c.parts.length}
    (hw : .task j q ∈ (x.pool p).running) : q ∈ (chunkRole s c j p).prevs := by
  obtain ⟨t, name, htag⟩ := (hx.inv hid hc).task_recvs (hc.asyncPlan hid s) hstuck hw
  obtain ⟨f, hf⟩ := hc.sameWork j
  rw [partRun_role, Role.recvs_run (hf.op p) (hf.nulFree' p) (chunkRole_nodup s c j p)] at htag
  by_contra hq
  rw [if_neg hq, List.nil_append] at htag
  split at htag <;> simp at htag

/-- A task that is at work waits for a peer at which the chunk is held back. -/
theorem not_task_of_queue {q : Fin n} {j : Fin c.parts.length} (hqueue : (x.pool q).queue = [])
    (hfree : ∀ q', .task j q' ∉ (x.pool q).running) (p : Fin n) :
    .task j q ∉ (x.pool p).running :=
  (hx.inv hid hc).not_task_of_free (hc.asyncPlan hid s) hstuck hqueue hfree p

/-- A pool holds nothing back when there are few chunks, of which few have a task at work. -/
theorem queue_nil_of_tasks {p : Fin n} (A : Finset (Fin c.parts.length))
    (hmem : ∀ j q, .task j q ∈ (x.pool p).running → j ∈ A)
    (huniq : ∀ j q q', .task j q ∈ (x.pool p).running → .task j q' ∈ (x.pool p).running → q = q')
    (hlt : c.parts.length + A.card < runtimeSize) : (x.pool p).queue = [] := by
  refine (hx.inv hid hc).queue_nil_of_few (hc.asyncPlan hid s) hstuck A hmem huniq ?_
  rwa [Fintype.card_fin]

end Stuck

/-- The star: the leaves send what they have, so the root has no task that waits. -/
theorem star_queues (hid : Function.Injective ident) (hc : c.Runs)
    (hx : AsyncReach ident .star c x) (hstuck : ∀ x', ¬AsyncState.Step ident x x')
    (hroom : c.parts.length < runtimeSize) (p : Fin n) : (x.pool p).queue = [] := by
  have hnil : ∀ p, (∀ j q, .task j q ∉ (x.pool p).running) → (x.pool p).queue = [] := by
    intro p hno
    refine queue_nil_of_tasks hid hc hx hstuck ∅ (fun j q hw => absurd hw (hno j q)) ?_ hroom
    exact fun j q _ hw => absurd hw (hno j q)
  have hleaf : ∀ q, q ≠ 0 → ∀ j q', .task j q' ∉ (x.pool q).running := by
    intro q hq j q' hw
    have hprev := mem_prevs_of_task hid hc hx hstuck hw
    simp [chunkRole, starRole, hq] at hprev
  by_cases hp : p = 0
  · refine hnil p fun j q hw => ?_
    have hprev := mem_prevs_of_task hid hc hx hstuck hw
    have hq : q ≠ 0 := by
      simp only [chunkRole, starRole, hp, if_true] at hprev
      exact mem_others.mp hprev
    exact not_task_of_queue hid hc hx hstuck (hnil q (hleaf q hq)) (hleaf q hq j) p hw
  · exact hnil p (hleaf p hp)

omit [NeZero n] in
theorem eq_add_one_of_pos [NeZero n] {r : ℕ} {u v : Fin n} (h : pos r v = pos r u + 1) :
    v = u + 1 := by
  rw [← ofNat_pos r v, ← ofNat_pos r u, h]
  apply Fin.ext
  simp [Fin.ofNat, Fin.val_add, Nat.add_assoc]

/-- The ring: the peer that has room sends what begins with it, so the next one has room, and so
on round the ring. -/
theorem ring_queues (hid : Function.Injective ident) (hc : c.Runs)
    (hx : AsyncReach ident .ring c x) (hstuck : ∀ x', ¬AsyncState.Step ident x x') {v : Fin n}
    (hroom : 2 * c.parts.length < c.startsAt v + runtimeSize) {k : ℕ} {u : Fin n}
    (hu : pos v u = k) :
    (x.pool u).queue = [] ∧ ∀ j, pos v (c.ringStart (c.parts.get j)) ≤ k →
      ∀ q, .task j q ∉ (x.pool u).running := by
  have hprev : ∀ {j p q}, .task j q ∈ (x.pool p).running →
      c.ringStart (c.parts.get j) ≠ p ∧ p = q + 1 := by
    intro j p q hw
    have hpos := mem_pathPrev.mp (mem_prevs_of_task hid hc hx hstuck hw)
    refine ⟨?_, eq_add_one_of_pos hpos⟩
    rintro rfl
    have hzero := pos_eq_zero_iff.mpr (rfl : c.ringStart (c.parts.get j) = _)
    omega
  -- of the chunks that begin at `v` no task is at work, and of the others one each
  have hqueue : ∀ u, (∀ j, c.ringStart (c.parts.get j) = v → ∀ q, .task j q ∉ (x.pool u).running) →
      (x.pool u).queue = [] := by
    intro u hno
    refine queue_nil_of_tasks hid hc hx hstuck
      (Finset.univ.filter fun j => ¬c.ringStart (c.parts.get j) = v) ?_ ?_ ?_
    · intro j q hw
      rw [Finset.mem_filter]
      exact ⟨Finset.mem_univ j, fun hj => hno j hj q hw⟩
    · intro j q q' hw hw'
      exact add_right_cancel ((hprev hw).2.symm.trans (hprev hw').2)
    · have hcard := Finset.card_filter_add_card_filter_not (s := Finset.univ)
        fun j : Fin c.parts.length => c.ringStart (c.parts.get j) = v
      rw [Finset.card_fin] at hcard
      unfold AllReduceCall.startsAt at hroom
      omega
  suffices htasks : ∀ j, pos v (c.ringStart (c.parts.get j)) ≤ k →
      ∀ q, .task j q ∉ (x.pool u).running by
    refine ⟨hqueue u fun j hj => htasks j ?_, htasks⟩
    have hzero : pos v (c.ringStart (c.parts.get j)) = 0 := pos_eq_zero_iff.mpr (by rw [hj]; simp)
    omega
  induction k generalizing u with
  | zero =>
      intro j hj q hw
      refine (hprev hw).1 (pos_injective v ?_)
      omega
  | succ k ih =>
      intro j hj q hw
      obtain ⟨hne, hq⟩ := hprev hw
      obtain ⟨y, hy⟩ : ∃ y : Fin n, pos v y = k :=
        ⟨_, pos_ofNat v (by have := pos_lt v u; omega)⟩
      have hyu : u = y + 1 := eq_add_one_of_pos (by rw [hu, hy])
      obtain rfl : q = y := add_right_cancel (hq.symm.trans hyu)
      have hlt : pos v (c.ringStart (c.parts.get j)) ≠ pos v u := fun h => hne (pos_injective v h)
      have hno := ih hy
      refine not_task_of_queue hid hc hx hstuck (hqueue q fun i hi => hno i ?_)
        (hno j (by omega)) u hw
      have hzero : pos v (c.ringStart (c.parts.get i)) = 0 := pos_eq_zero_iff.mpr (by rw [hi]; simp)
      omega

/-- **Peers with room do not starve.** -/
theorem asyncLive_of_roomy (hid : Function.Injective ident) (hc : c.Runs) (hroom : c.Roomy s) :
    AsyncLive ident s c := by
  intro x hx hret
  by_contra hno
  have hstuck : ∀ x', ¬AsyncState.Step ident x x' := fun x' hs => hno ⟨x', hs⟩
  refine hret ((hx.inv hid hc).returned_of_queues (hc.asyncPlan hid s) hstuck fun p => ?_)
  cases s with
  | star => exact star_queues hid hc hx hstuck hroom p
  | ring =>
      obtain ⟨v, hv⟩ := hroom
      exact (ring_queues hid hc hx hstuck hv rfl).1

end Room

/-- A call that does not starve can return. -/
theorem AsyncLive.exists_returned {c : AllReduceCall n} {ident : Fin n → PeerId} {s : Strategy}
    (hlive : AsyncLive ident s c) (hid : Function.Injective ident) (hc : c.Runs) :
    ∃ x, AsyncReach ident s c x ∧ x.Returned := by
  obtain ⟨x, hx, hmin⟩ := (AsyncState.wf ident (fun j name => decide (name = c.chunkName j))
    (fun j r => (c.chunk j r).reads) (asyncAllReduce s c) c.mem).has_min
    {x | AsyncReach ident s c x} ⟨_, .refl⟩
  refine ⟨x, hx, ?_⟩
  by_contra hret
  obtain ⟨x', hs⟩ := hlive x hx hret
  exact hmin x' (hx.tail hs) ⟨hx.inv hid hc, hs⟩

/-! ## No room to go on -/

section Jam

variable {c : AllReduceCall n} {ident : Fin n → PeerId} {s : Strategy}

theorem pathPrev_eq_nil_iff {r : ℕ} {v : Fin n} : pathPrev r v = [] ↔ pos r v = 0 := by
  unfold pathPrev
  split <;> simp_all

/-- With two peers or more every peer has something to do for a chunk. -/
theorem chunkRole_ne_nil (hn : 2 ≤ n) (s : Strategy) (c : AllReduceCall n)
    (j : Fin c.parts.length) (v : Fin n) (hprevs : (chunkRole s c j v).prevs = []) :
    (chunkRole s c j v).nexts ≠ [] := by
  cases s with
  | star =>
      by_cases hv : v = 0
      · -- the root receives
        have hone : (⟨1, hn⟩ : Fin n) ∈ others (0 : Fin n) := by
          rw [mem_others]
          exact fun h => absurd (congrArg Fin.val h) (by simp)
        simp only [chunkRole, starRole, hv, if_true] at hprevs
        rw [hprevs] at hone
        exact absurd hone List.not_mem_nil
      · simp [chunkRole, starRole, hv]
  | ring =>
      have hpos := pathPrev_eq_nil_iff.mp hprevs
      have hnext : Fin.ofNat n (c.ringRoot (c.parts.get j) + 1 + 1) ∈
          (chunkRole .ring c j v).nexts := by
        refine mem_pathNext.mpr ?_
        rw [hpos, pos_ofNat _ hn]
      exact List.ne_nil_of_mem hnext

theorem asyncAllReduce_role (s : Strategy) (c : AllReduceCall n) (j : Fin c.parts.length)
    (v : Fin n) :
    asyncAllReduce s c j v = ((chunkRole s c j v).run (partLab s c (c.parts.get j) v)
      (c.chunk j v)).tail := by
  rw [← partRun_role, partRun_eq, List.tail_cons]

/-- Whether a peer receives before it sends. -/
def opensWithRecv (s : Strategy) (c : AllReduceCall n) (j : Fin c.parts.length) (v : Fin n) :
    Bool := decide ((chunkRole s c j v).prevs ≠ [])

theorem asyncAllReduce_opening (hn : 2 ≤ n) (hc : c.Runs) (s : Strategy) (j : Fin c.parts.length)
    (v : Fin n) : Opening (opensWithRecv s c j v) (asyncAllReduce s c j v) := by
  obtain ⟨f, hf⟩ := hc.sameWork j
  have hop := hf.op v
  have hnexts := chunkRole_ne_nil hn s c j v
  rw [asyncAllReduce_role, Role.run_eq, List.tail_cons]
  unfold opensWithRecv
  generalize chunkRole s c j v = ρ at hnexts ⊢
  by_cases hprevs : ρ.prevs = []
  · refine ⟨[⟨_, ρ.prevs.map (recvTask (c.chunk j v) true)⟩], _, _, rfl, ?_, ?_, ?_⟩
    · intro e he
      rw [List.mem_singleton.mp he, hprevs]
      rfl
    · simpa using hnexts hprevs
    · intro th hth
      obtain ⟨q, -, rfl⟩ := List.mem_map.mp hth
      simp [sendTask, Thread.Opens, hprevs]
  · refine ⟨[], _, _, rfl, fun _ hmem => absurd hmem List.not_mem_nil, ?_, ?_⟩
    · simpa using hprevs
    · intro th hth
      obtain ⟨q, -, rfl⟩ := List.mem_map.mp hth
      simp [recvTask, hop, Thread.Opens, hprevs]

/-- Where no peer has room, chunks and tasks that receive take all threads. -/
theorem full_of_not_roomy (hroom : ¬c.Roomy s) (v : Fin n) :
    runtimeSize ≤ Fintype.card (Fin c.parts.length) +
      (Finset.univ.filter fun j => opensWithRecv s c j v = true).card := by
  rw [Fintype.card_fin]
  cases s with
  | star => exact Nat.le_add_right_of_le (not_lt.mp hroom)
  | ring =>
      have hle := not_lt.mp fun hlt => hroom ⟨v, hlt⟩
      have hcard := Finset.card_filter_add_card_filter_not (s := Finset.univ)
        fun j : Fin c.parts.length => c.ringStart (c.parts.get j) = v
      have hfilter : (Finset.univ.filter fun j => opensWithRecv .ring c j v = true) =
          Finset.univ.filter fun j => ¬c.ringStart (c.parts.get j) = v := by
        refine Finset.filter_congr fun j _ => ?_
        rw [opensWithRecv, decide_eq_true_eq]
        exact not_congr (pathPrev_eq_nil_iff.trans (pos_eq_zero_iff.trans eq_comm))
      rw [Finset.card_fin] at hcard
      rw [hfilter]
      unfold AllReduceCall.startsAt at hle
      omega

theorem not_asyncLive_of_not_roomy (hid : Function.Injective ident) (hn : 2 ≤ n) (hc : c.Runs)
    (hroom : ¬c.Roomy s) : ¬AsyncLive ident s c := by
  intro hlive
  obtain ⟨x, hx, hstuck, hcode⟩ := AsyncState.exists_stuck (hc.asyncPlan hid s) List.mem_finRange
    (List.nodup_finRange _) (asyncAllReduce_opening hn hc s) (full_of_not_roomy hroom)
  obtain ⟨e, he⟩ := hc.first_part
  obtain ⟨hpos, -⟩ := List.getElem?_eq_some_iff.mp he
  obtain ⟨x', hx'⟩ := hlive x hx fun hret => by
    obtain ⟨-, hpend, hqueue, hrun⟩ := hret 0
    have htodo := ((AsyncReach.inv hid hc hx).peer 0).todo ⟨0, hpos⟩
    rw [hpend, hqueue, hrun] at htodo
    exact hcode 0 ⟨0, hpos⟩ (htodo.resolve_left List.not_mem_nil)
  exact hstuck x' hx'

/-- Two peers reduce 8 MiB in place. -/
def eightChunks : AllReduceCall 2 where
  count := 8 * 2 ^ 20
  dt := .u8
  op := .sum
  name := []
  send _ := 0
  recv _ := 0
  mem _ _ := 0

theorem eightChunks_runs : eightChunks.Runs where
  count_pos := by decide
  op := rfl
  nulFree := by decide
  separate _ := .inl rfl

end Jam

end StdmlCollective

import Mathlib.Algebra.BigOperators.Group.Finset.Basic
import Mathlib.Algebra.Order.BigOperators.Group.Finset
import Mathlib.Data.Fintype.Basic
import Mathlib.Data.List.Perm.Basic
import Mathlib.Data.List.Perm.Subperm

/-!
# Thread pools

A pool runs at most `size` tasks at a time. Tasks are added one after the other, and a thread of
the pool that is free takes the one that has waited longest.

When several pools are given the same tasks in different orders, they run different ones at the
same time. There is a task that all of them run unless there are enough tasks for their windows to
miss each other (`exists_common`).
-/

namespace StdmlCollective

/-- A pool: the tasks that are still to be added, those that wait, and those that run. -/
structure Pool (α : Type) where
  pending : List α
  queue : List α
  running : List α

namespace Pool

variable {α : Type} {size : ℕ} {ready : α → Prop} {order : List α} {p q : Pool α}

/-- A step of a pool: `add`, a thread takes a task, a thread is through with a task. -/
inductive Step (size : ℕ) (ready : α → Prop) : Pool α → Pool α → Prop where
  | add {j : α} {l q r : List α} : Step size ready ⟨j :: l, q, r⟩ ⟨l, q ++ [j], r⟩
  | take {j : α} {l q r : List α} :
      r.length < size → Step size ready ⟨l, j :: q, r⟩ ⟨l, q, j :: r⟩
  | finish {j : α} {l q r₁ r₂ : List α} :
      ready j → Step size ready ⟨l, q, r₁ ++ j :: r₂⟩ ⟨l, q, r₁ ++ r₂⟩

/-- Nothing is left to do: `wait` returns. -/
def Done (p : Pool α) : Prop := p.pending = [] ∧ p.queue = [] ∧ p.running = []

/-- The task has not been taken yet. -/
def Waits (p : Pool α) (j : α) : Prop := j ∈ p.queue ++ p.pending

/-- What holds of a pool that is given the tasks `order`. -/
structure Inv (size : ℕ) (order : List α) (p : Pool α) : Prop where
  waits : p.queue ++ p.pending <:+ order
  running : ∀ j ∈ p.running, j ∈ order ∧ ¬p.Waits j
  nodup : p.running.Nodup
  bound : p.running.length ≤ size

theorem Inv.start (size : ℕ) (order : List α) : Inv size order ⟨order, [], []⟩ where
  waits := List.suffix_rfl
  running _ hj := absurd hj List.not_mem_nil
  nodup := List.nodup_nil
  bound := Nat.zero_le _

theorem Inv.step (h : Inv size order p) (ho : order.Nodup) (hs : Step size ready p q) :
    Inv size order q := by
  have hnodup := ho.sublist h.waits.sublist
  cases hs with
  | @add j l qu r =>
      have heq : qu ++ [j] ++ l = qu ++ j :: l := by simp
      constructor
      · rw [heq]
        exact h.waits
      · intro i hi
        rw [Waits, heq]
        exact h.running i hi
      · exact h.nodup
      · exact h.bound
  | @take j l qu r hlt =>
      have hsuffix : qu ++ l <:+ order := (List.suffix_cons j _).trans h.waits
      constructor
      · exact hsuffix
      · intro i hi
        rcases List.mem_cons.mp hi with rfl | hi
        · exact ⟨h.waits.subset (by simp), (List.nodup_cons.mp hnodup).1⟩
        · obtain ⟨hmem, hnot⟩ := h.running i hi
          exact ⟨hmem, fun hw => hnot (List.mem_cons_of_mem _ hw)⟩
      · refine List.nodup_cons.mpr ⟨?_, h.nodup⟩
        intro hj
        exact (h.running j hj).2 (by simp [Waits])
      · rw [List.length_cons]
        exact hlt
  | @finish j l qu r₁ r₂ hready =>
      have hsub : (r₁ ++ r₂).Sublist (r₁ ++ j :: r₂) := by simp
      constructor
      · exact h.waits
      · intro i hi
        exact h.running i (hsub.subset hi)
      · exact h.nodup.sublist hsub
      · exact hsub.length_le.trans h.bound

/-- Where a step can bring a task. -/
theorem Step.moves (hs : Step size ready p q) (j : α) :
    (q.Waits j → p.Waits j) ∧ (j ∈ p.running → j ∈ q.running ∨ ready j) ∧
      (p.Waits j → q.Waits j ∨ j ∈ q.running) := by
  cases hs with
  | @add i l qu r =>
      have heq : qu ++ [i] ++ l = qu ++ i :: l := by simp
      refine ⟨?_, .inl, ?_⟩
      · intro h
        rwa [Waits, heq] at h
      · intro h
        rw [Waits, heq]
        exact .inl h
  | @take i l qu r =>
      refine ⟨List.mem_cons_of_mem _, fun h => .inl (List.mem_cons_of_mem _ h), ?_⟩
      intro h
      rcases List.mem_cons.mp h with rfl | h
      · exact .inr List.mem_cons_self
      · exact .inl h
  | @finish i l qu r₁ r₂ hready =>
      refine ⟨id, ?_, .inl⟩
      intro h
      by_cases hij : j = i
      · subst hij
        exact .inr hready
      · refine .inl ?_
        simpa [hij] using h

/-- A pool in which no thread takes a task and none is through with one. -/
theorem full_of_no_step (h : ∀ q, ¬Step size ready p q) :
    p.pending = [] ∧ (p.queue ≠ [] → size ≤ p.running.length) ∧ ∀ j ∈ p.running, ¬ready j := by
  obtain ⟨l, qu, r⟩ := p
  refine ⟨?_, ?_, ?_⟩
  · cases l with
    | nil => rfl
    | cons j l => exact absurd .add (h _)
  · intro hne
    obtain ⟨j, qu', rfl⟩ := List.exists_cons_of_ne_nil hne
    by_contra hlt
    exact h _ (.take (not_le.mp hlt))
  · intro j hj hready
    obtain ⟨r₁, r₂, rfl⟩ := List.append_of_mem hj
    exact h _ (.finish hready)

/-- How many steps a pool can still take. -/
def weight (p : Pool α) : ℕ := 3 * p.pending.length + 2 * p.queue.length + p.running.length

theorem Step.weight (hs : Step size ready p q) : q.weight < p.weight := by
  cases hs with
  | add | take _ | finish _ =>
      simp only [Pool.weight, List.length_append, List.length_cons, List.length_nil]
      omega

/-- As long as no task is through, those that run are among the first. -/
theorem Inv.mem_take (h : Inv size order p) (ho : order.Nodup)
    (hall : ∀ j ∈ order, ¬p.Waits j → j ∈ p.running) {j : α} (hj : j ∈ p.running) :
    j ∈ order.take size := by
  obtain ⟨pre, hpre⟩ := h.waits
  have hnot : ∀ i ∈ pre, ¬p.Waits i := by
    intro i hi hw
    rw [← hpre, List.nodup_append] at ho
    exact ho.2.2 i hi i hw rfl
  have hlen : pre.length ≤ size := by
    have hsub : pre ⊆ p.running := by
      intro i hi
      apply hall i _ (hnot i hi)
      rw [← hpre]
      exact List.mem_append_left _ hi
    have hnd : pre.Nodup := by
      rw [← hpre, List.nodup_append] at ho
      exact ho.1
    exact (List.subperm_of_subset hnd hsub).length_le.trans h.bound
  obtain ⟨hmem, hwaits⟩ := h.running j hj
  rw [← hpre] at hmem ⊢
  have hj : j ∈ pre := (List.mem_append.mp hmem).resolve_right hwaits
  rw [List.take_append, List.take_of_length_le hlen]
  exact List.mem_append_left _ hj

/-! ## Windows -/

section Windows

variable {P : Type} [Fintype P] [DecidableEq α]

/-- **Pools with the same tasks run one of them together**, unless there are so many tasks that
every one can wait somewhere. -/
theorem exists_common {pool : P → Pool α} {U : Finset α} (hU : U.Nonempty)
    (hmem : ∀ p j, j ∈ U ↔ j ∈ (pool p).running ∨ j ∈ (pool p).queue)
    (hnodup : ∀ p, (pool p).queue.Nodup) (hrun : ∀ p, (pool p).running.Nodup)
    (hdisj : ∀ p, ∀ j ∈ (pool p).running, j ∉ (pool p).queue)
    (hfull : ∀ p, (pool p).queue ≠ [] → size ≤ (pool p).running.length)
    (hlt : (Fintype.card P - 1) * U.card < size * Fintype.card P) :
    ∃ j ∈ U, ∀ p, j ∈ (pool p).running := by
  classical
  by_contra hno
  -- every task waits somewhere
  have hwait : ∀ j ∈ U, ∃ p, j ∈ (pool p).queue := by
    intro j hj
    by_contra hnone
    refine hno ⟨j, hj, fun p => ?_⟩
    rcases (hmem p j).mp hj with h | h
    · exact h
    · exact absurd ⟨p, h⟩ hnone
  have hcard : ∀ p, (pool p).queue.length + (pool p).running.length = U.card := by
    intro p
    have hset : U = ((pool p).queue ++ (pool p).running).toFinset := by
      ext j
      rw [List.mem_toFinset, List.mem_append, hmem p j, or_comm]
    have hnd : ((pool p).queue ++ (pool p).running).Nodup := by
      rw [List.nodup_append]
      refine ⟨hnodup p, hrun p, ?_⟩
      intro a ha b hb heq
      exact hdisj p b hb (heq ▸ ha)
    rw [hset, List.toFinset_card_of_nodup hnd, List.length_append]
  have hle : ∀ p, (pool p).queue.length ≤ U.card - size := by
    intro p
    by_cases hq : (pool p).queue = []
    · rw [hq]
      exact Nat.zero_le _
    · have h₁ := hfull p hq
      have h₂ := hcard p
      omega
  have hsum : U.card ≤ ∑ p : P, (pool p).queue.length := by
    have hsub : U ⊆ Finset.univ.biUnion fun p => (pool p).queue.toFinset := by
      intro j hj
      obtain ⟨p, hp⟩ := hwait j hj
      exact Finset.mem_biUnion.mpr ⟨p, Finset.mem_univ p, List.mem_toFinset.mpr hp⟩
    calc U.card ≤ (Finset.univ.biUnion fun p => (pool p).queue.toFinset).card :=
          Finset.card_le_card hsub
      _ ≤ ∑ p : P, ((pool p).queue.toFinset).card := Finset.card_biUnion_le
      _ ≤ ∑ p : P, (pool p).queue.length := Finset.sum_le_sum fun p _ => List.toFinset_card_le _
  have hbound : U.card ≤ Fintype.card P * (U.card - size) := by
    calc U.card ≤ ∑ p : P, (pool p).queue.length := hsum
      _ ≤ ∑ _p : P, (U.card - size) := Finset.sum_le_sum fun p _ => hle p
      _ = Fintype.card P * (U.card - size) := by simp
  have hpos := Finset.card_pos.mpr hU
  have hsize : size ≤ U.card := by
    by_contra hlt'
    rw [Nat.sub_eq_zero_of_le (not_le.mp hlt').le, Nat.mul_zero] at hbound
    omega
  rw [Nat.mul_sub] at hbound
  have hn : Fintype.card P ≠ 0 := by
    intro hz
    rw [hz, Nat.zero_mul, Nat.zero_mul] at hbound
    omega
  have hmul : (Fintype.card P - 1) * U.card = Fintype.card P * U.card - U.card := by
    rw [Nat.sub_mul, Nat.one_mul]
  rw [Nat.mul_comm size] at hlt
  omega

end Windows

end Pool

end StdmlCollective

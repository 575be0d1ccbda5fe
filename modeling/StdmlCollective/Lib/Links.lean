import Mathlib.Algebra.BigOperators.Group.Finset.Piecewise
import Mathlib.Algebra.Order.BigOperators.Group.Finset
import Mathlib.Data.List.Basic
import Mathlib.Logic.Function.Basic
import Mathlib.Logic.Relation

/-!
# First-in first-out links

Threads post messages, each under a key, and under every key the messages are taken in the order in
which they have been posted. Nothing is lost, nothing is taken twice, and what a thread posts under
a key is taken in the order of the thread (`Reach.conserved`).
-/

namespace StdmlCollective

/-- What every thread has still to post, and under every key what has been posted and not been
taken, and what has been taken. -/
structure Links (ι κ M : Type) where
  todo : ι → List (κ × M)
  queue : κ → List (ι × M)
  got : κ → List (ι × M)

namespace Links

variable {ι κ M : Type} [DecidableEq ι] [DecidableEq κ] {todo : ι → List (κ × M)}
variable {s s' : Links ι κ M}

/-- A thread posts a message, or the oldest message under a key is taken. -/
inductive Step : Links ι κ M → Links ι κ M → Prop where
  | post {s : Links ι κ M} {i : ι} {k : κ} {m : M} {l : List (κ × M)} :
      s.todo i = (k, m) :: l →
      Step s { s with
        todo := Function.update s.todo i l
        queue := Function.update s.queue k (s.queue k ++ [(i, m)]) }
  | take {s : Links ι κ M} {k : κ} {x : ι × M} {q : List (ι × M)} :
      s.queue k = x :: q →
      Step s { s with
        queue := Function.update s.queue k q
        got := Function.update s.got k (s.got k ++ [x]) }

/-- Before anything has been posted. -/
def start (todo : ι → List (κ × M)) : Links ι κ M := ⟨todo, fun _ => [], fun _ => []⟩

/-- What the threads can have done. -/
abbrev Reach (todo : ι → List (κ × M)) : Links ι κ M → Prop :=
  Relation.ReflTransGen Step (start todo)

/-- The entries under `a`. -/
def select {α β : Type} [DecidableEq α] (a : α) (l : List (α × β)) : List β :=
  (l.filter fun x => x.1 = a).map Prod.snd

section select

variable {α β : Type} [DecidableEq α] (a : α)

@[simp] theorem select_nil : select a ([] : List (α × β)) = [] := rfl

@[simp] theorem select_cons_self (b : β) (l : List (α × β)) :
    select a ((a, b) :: l) = b :: select a l := by simp [select]

@[simp] theorem select_append (l l' : List (α × β)) :
    select a (l ++ l') = select a l ++ select a l' := by simp [select]

variable {a} in
theorem select_cons_ne {x : α × β} (h : x.1 ≠ a) (l : List (α × β)) :
    select a (x :: l) = select a l := by simp [select, h]

theorem mem_select {a : α} {b : β} {l : List (α × β)} : b ∈ select a l ↔ (a, b) ∈ l := by
  simp [select]

/-- Every entry is under one key. -/
theorem sum_countP_select [Fintype α] (f : β → Bool) (l : List (α × β)) :
    ∑ a, (select a l).countP f = l.countP fun x => f x.2 := by
  induction l with
  | nil => simp
  | cons x l ih =>
      have hcons : ∀ a, (select a (x :: l)).countP f =
          (select a l).countP f + if a = x.1 then (if f x.2 then 1 else 0) else 0 := by
        intro a
        by_cases ha : a = x.1
        · subst ha
          rw [show x = (x.1, x.2) from rfl, select_cons_self, List.countP_cons, if_pos rfl]
        · simp [select_cons_ne (Ne.symm ha), ha]
      rw [Finset.sum_congr rfl fun a _ => hcons a, Finset.sum_add_distrib, ih,
        Finset.sum_ite_eq' Finset.univ x.1, if_pos (Finset.mem_univ _), List.countP_cons]

end select

/-- **Nothing is lost, nothing is doubled, and the order of every thread is kept.** -/
theorem Reach.conserved (h : Reach todo s) (i : ι) (k : κ) :
    select i (s.got k ++ s.queue k) ++ select k (s.todo i) = select k (todo i) := by
  induction h with
  | refl => simp [start]
  | @tail s s' _ hs ih =>
      cases hs with
      | @post j k' m l hj =>
          by_cases hi : j = i <;> by_cases hk : k' = k
          · subst hi hk
            rw [hj] at ih
            simpa using ih
          · subst hi
            rw [hj, select_cons_ne hk] at ih
            simpa [Function.update_of_ne (Ne.symm hk)] using ih
          · subst hk
            have hnone : select i [(j, m)] = [] := select_cons_ne hi []
            simpa [Function.update_of_ne (Ne.symm hi), hnone] using ih
          · simpa [Function.update_of_ne (Ne.symm hi), Function.update_of_ne (Ne.symm hk)] using ih
      | @take k' x q hq =>
          by_cases hk : k' = k
          · subst hk
            rw [hq] at ih
            simpa using ih
          · simpa [Function.update_of_ne (Ne.symm hk)] using ih

/-- A thread posts nothing but what it had to post. -/
theorem Reach.mem_todo (h : Reach todo s) {i : ι} {x : κ × M} (hx : x ∈ s.todo i) : x ∈ todo i := by
  obtain ⟨k, m⟩ := x
  rw [← mem_select, ← h.conserved i k]
  exact List.mem_append_right _ (mem_select.mpr hx)

/-- What has been taken from a thread is what it posts first. -/
theorem Reach.ordered (h : Reach todo s) (i : ι) (k : κ) :
    select i (s.got k) <+: select k (todo i) := by
  rw [← h.conserved i k, select_append, List.append_assoc]
  exact List.prefix_append _ _

/-- At the end everything has been taken. -/
theorem Reach.all (h : Reach todo s) {i : ι} {k : κ} (htodo : s.todo i = [])
    (hqueue : s.queue k = []) : select i (s.got k) = select k (todo i) := by
  rw [← h.conserved i k, htodo, hqueue]
  simp

/-- No more is taken of any kind than the threads have to post. -/
theorem Reach.countP_le [Fintype ι] (h : Reach todo s) (k : κ) (f : M → Bool) :
    ((s.got k).countP fun x => f x.2) ≤ ∑ i, (select k (todo i)).countP f := by
  rw [← sum_countP_select f]
  exact Finset.sum_le_sum fun i _ => (h.ordered i k).sublist.countP_le

end Links

end StdmlCollective

import Mathlib.Algebra.BigOperators.Group.Finset.Basic
import Mathlib.Algebra.Order.BigOperators.Group.Finset
import Mathlib.Data.Fintype.Basic
import Mathlib.Logic.Function.Basic

/-!
# Threads and condition variables

A system of threads is a function that says where every thread is. A thread moves by
`Function.update`, and what is counted over all threads changes by what that one thread
contributes (`total_update`).

A condition variable is given by `wake`: where a thread goes on that sleeps at it, and `none` for a
thread that does not. `notify_one` wakes any one of those that sleep; a thread can also wake up
without having been notified.
-/

namespace StdmlCollective.Threads

variable {θ σ M : Type}

/-- The sum over all threads. -/
def total [Fintype θ] [AddCommMonoid M] (w : σ → M) (f : θ → σ) : M := ∑ t, w (f t)

/-- One of several threads moves. -/
theorem sum_update [DecidableEq θ] [AddCommMonoid M] (w : σ → M) (f : θ → σ) {S : Finset θ} {t : θ}
    (ht : t ∈ S) (s : σ) :
    ∑ u ∈ S, w (Function.update f t s u) + w (f t) = ∑ u ∈ S, w (f u) + w s := by
  have hrest : ∑ u ∈ S.erase t, w (Function.update f t s u) = ∑ u ∈ S.erase t, w (f u) := by
    refine Finset.sum_congr rfl fun u hu => ?_
    rw [Function.update_of_ne (Finset.ne_of_mem_erase hu)]
  have hnew := Finset.add_sum_erase S (fun u => w (Function.update f t s u)) ht
  have hold := Finset.add_sum_erase S (fun u => w (f u)) ht
  simp only [Function.update_self] at hnew
  rw [← hnew, ← hold, hrest]
  rw [add_right_comm, add_comm (w s) (w (f t)), add_right_comm]

section Total

variable [Fintype θ]

theorem total_update [DecidableEq θ] [AddCommMonoid M] (w : σ → M) (f : θ → σ) (t : θ) (s : σ) :
    total w (Function.update f t s) + w (f t) = total w f + w s :=
  sum_update w f (Finset.mem_univ t) s

/-- A thread that contributes as much as before. -/
theorem total_update_of_eq [DecidableEq θ] [AddCommMonoid M] {w : σ → M} {f : θ → σ} {t : θ} {s : σ}
    (h : w s = w (f t)) : total w (Function.update f t s) = total w f := by
  refine Finset.sum_congr rfl fun u _ => ?_
  by_cases hu : u = t
  · rw [hu, Function.update_self, h]
  · rw [Function.update_of_ne hu]

theorem total_update_lt [DecidableEq θ] {w : σ → ℕ} {f : θ → σ} {t : θ} {s : σ}
    (h : w s < w (f t)) :
    total w (Function.update f t s) < total w f := by
  have hup := total_update w f t s
  omega

theorem total_le_total {w v : σ → ℕ} (h : ∀ s, w s ≤ v s) (f : θ → σ) : total w f ≤ total v f :=
  Finset.sum_le_sum fun t _ => h (f t)

theorem le_total (w : σ → ℕ) (f : θ → σ) (t : θ) : w (f t) ≤ total w f :=
  Finset.single_le_sum (f := fun u => w (f u)) (fun _ _ => Nat.zero_le _) (Finset.mem_univ t)

theorem total_eq_zero {w : σ → ℕ} {f : θ → σ} (h : ∀ t, w (f t) = 0) : total w f = 0 :=
  Finset.sum_eq_zero fun t _ => h t

theorem exists_of_total_pos {w : σ → ℕ} {f : θ → σ} (h : 0 < total w f) : ∃ t, 0 < w (f t) := by
  by_contra hno
  have hzero := total_eq_zero (w := w) (f := f) fun t => by
    by_contra hne
    exact hno ⟨t, Nat.pos_of_ne_zero hne⟩
  omega

end Total

/-! ## Where a thread is after another one has moved -/

section Update

variable [DecidableEq θ] {f : θ → σ} {t u : θ} {s a : σ}

theorem of_update_eq (h : Function.update f t s u = a) (hs : s ≠ a) : u ≠ t ∧ f u = a := by
  have hut : u ≠ t := by
    rintro rfl
    rw [Function.update_self] at h
    exact hs h
  rw [Function.update_of_ne hut] at h
  exact ⟨hut, h⟩

theorem update_eq_of_ne (h : f u = a) (ht : f t ≠ a) : Function.update f t s u = a := by
  rw [Function.update_of_ne, h]
  rintro rfl
  exact ht h

end Update

/-! ## Condition variables -/

section CondVar

variable [DecidableEq θ] {wake : σ → Option σ} {f g : θ → σ}

/-- A thread that sleeps wakes up. -/
def Wakes (wake : σ → Option σ) (f g : θ → σ) : Prop :=
  ∃ t s, wake (f t) = some s ∧ g = Function.update f t s

/-- `notify_one`. -/
def NotifyOne (wake : σ → Option σ) (f g : θ → σ) : Prop :=
  Wakes wake f g ∨ (∀ t, wake (f t) = none) ∧ g = f

/-- `notify_all`. -/
def notifyAll (wake : σ → Option σ) (f : θ → σ) : θ → σ := fun t => (wake (f t)).getD (f t)

theorem exists_notifyOne (wake : σ → Option σ) (f : θ → σ) : ∃ g, NotifyOne wake f g := by
  by_cases h : ∃ t s, wake (f t) = some s
  · obtain ⟨t, s, hs⟩ := h
    exact ⟨_, .inl ⟨t, s, hs, rfl⟩⟩
  · refine ⟨f, .inr ⟨fun t => ?_, rfl⟩⟩
    cases hs : wake (f t) with
    | none => rfl
    | some s => exact absurd ⟨t, s, hs⟩ h

/-- A thread that does not sleep is not woken. -/
theorem Wakes.eq_of_none (h : Wakes wake f g) {t : θ} (ht : wake (f t) = none) : g t = f t := by
  obtain ⟨u, s, hu, rfl⟩ := h
  refine Function.update_of_ne ?_ _ _
  rintro rfl
  rw [ht] at hu
  cases hu

theorem NotifyOne.eq_of_none (h : NotifyOne wake f g) {t : θ} (ht : wake (f t) = none) :
    g t = f t := by
  rcases h with h | ⟨-, rfl⟩
  · exact h.eq_of_none ht
  · rfl

/-- What does not change when a thread wakes up. -/
theorem Wakes.total_eq [Fintype θ] [AddCommMonoid M] {w : σ → M} (h : Wakes wake f g)
    (hw : ∀ s s', wake s = some s' → w s' = w s) : total w g = total w f := by
  obtain ⟨t, s, ht, rfl⟩ := h
  exact total_update_of_eq (hw _ _ ht)

theorem NotifyOne.total_eq [Fintype θ] [AddCommMonoid M] {w : σ → M} (h : NotifyOne wake f g)
    (hw : ∀ s s', wake s = some s' → w s' = w s) : total w g = total w f := by
  rcases h with h | ⟨-, rfl⟩
  · exact h.total_eq hw
  · rfl

end CondVar

end StdmlCollective.Threads

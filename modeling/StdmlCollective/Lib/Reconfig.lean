import Mathlib.Data.List.Basic

/-!
# Processes of members that come and go

A sequence of configurations says which ids are members at which version. An id that stays a
member keeps its process; one that comes back gets a new one. The process of a member is named by
its id and by the version it was started for, `born`.
-/

namespace StdmlCollective.Reconfig

variable {α : Type} [DecidableEq α] (cfg : ℕ → List α)

/-- The version for which the process that `x` has at version `v` was started. -/
def born (x : α) : ℕ → ℕ
  | 0 => 0
  | v + 1 => if x ∈ cfg v then born x v else v + 1

variable {cfg} {x : α} {u v : ℕ}

variable (cfg) in
theorem born_le (x : α) (v : ℕ) : born cfg x v ≤ v := by
  induction v with
  | zero => exact Nat.le_refl _
  | succ v ih =>
      rw [born]
      split
      · omega
      · exact Nat.le_refl _

/-- From the start of its process on a member stays one. -/
theorem mem_of_born_le (h : born cfg x u ≤ v) (hv : v < u) : x ∈ cfg v := by
  induction u with
  | zero => omega
  | succ u ih =>
      rw [born] at h
      split at h
      · next hmem =>
        by_cases heq : v = u
        · exact heq ▸ hmem
        · exact ih h (by omega)
      · omega

/-- From its start on the process stays the same. -/
theorem born_eq (h : born cfg x u ≤ v) (hv : v ≤ u) : born cfg x v = born cfg x u := by
  induction u with
  | zero =>
      obtain rfl : v = 0 := by omega
      rfl
  | succ u ih =>
      by_cases heq : v = u + 1
      · rw [heq]
      · have hmem : x ∈ cfg u := mem_of_born_le (Nat.le_trans h (by omega)) (Nat.lt_succ_self u)
        rw [born, if_pos hmem] at h ⊢
        exact ih h (by omega)

/-- A process that was started later was started for an id that was no member before. -/
theorem not_mem_born (h : born cfg x u ≠ 0) : x ∉ cfg (born cfg x u - 1) := by
  induction u with
  | zero => exact absurd rfl h
  | succ u ih =>
      rw [born] at h ⊢
      split
      · next hmem =>
        rw [if_pos hmem] at h
        exact ih h
      · next hmem => exact hmem

/-- When an id has another process later on, that process was started in between. -/
theorem lt_born_of_ne (hvu : v ≤ u) (h : born cfg x v ≠ born cfg x u) : v < born cfg x u := by
  by_contra hle
  exact h (born_eq (by omega) hvu)

end StdmlCollective.Reconfig

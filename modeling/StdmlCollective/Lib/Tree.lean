import Mathlib.Data.Fin.Basic
import Mathlib.Logic.ExistsUnique
import Mathlib.Logic.Relation

/-!
# Rooted spanning trees

A relation whose edges all lead towards one vertex: the root has no edge, every other vertex has
exactly one, and from every vertex there is a path to the root. Read backwards it is a tree whose
edges lead away from the root.
-/

namespace StdmlCollective.Tree

open Relation

variable {V : Type} {E : V → V → Prop} {r : V}

/-- A spanning tree whose edges lead towards `r`. -/
structure InTree (E : V → V → Prop) (r : V) : Prop where
  root : ∀ w, ¬E r w
  next : ∀ v, v ≠ r → ∃! w, E v w
  path : ∀ v, ReflTransGen E v r

namespace InTree

theorem eq_of_edge (h : InTree E r) {v w w' : V} (hw : E v w) (hw' : E v w') : w = w' := by
  have hne : v ≠ r := by
    intro hv
    subst hv
    exact h.root w hw
  exact (h.next v hne).unique hw hw'

/-- There is no cycle: it would have to pass through the root. -/
theorem acyclic (h : InTree E r) (v : V) : ¬TransGen E v v := by
  have hpath := h.path v
  induction hpath using ReflTransGen.head_induction_on with
  | refl =>
      intro hcycle
      obtain ⟨w, hw, -⟩ := TransGen.head'_iff.mp hcycle
      exact h.root w hw
  | @head v w hvw _ ih =>
      intro hcycle
      apply ih
      obtain ⟨w', hvw', hback⟩ := TransGen.head'_iff.mp hcycle
      rw [h.eq_of_edge hvw hvw']
      exact TransGen.tail' hback hvw'

/-- What reaches a vertex reaches it through one of the vertices before it only. -/
theorem disjoint (h : InTree E r) {u v q q' : V} (hq : E q v) (hq' : E q' v) (hne : q ≠ q')
    (hu : ReflTransGen E u q) : ¬ReflTransGen E u q' := by
  have hcycle : ∀ {a b}, E a v → E b v → a ≠ b → ¬ReflTransGen E a b := by
    intro a b ha hb hab hpath
    rcases ReflTransGen.cases_head hpath with heq | ⟨w, haw, hwb⟩
    · exact hab heq
    · rw [h.eq_of_edge haw ha] at hwb
      exact h.acyclic v (TransGen.tail' hwb hb)
  intro hu'
  have hunique : Relator.RightUnique E := fun a b c hb hc => h.eq_of_edge hb hc
  rcases ReflTransGen.total_of_right_unique hunique hu hu' with hpath | hpath
  · exact hcycle hq hq' hne hpath
  · exact hcycle hq' hq hne.symm hpath

theorem root_unique (h : InTree E r) {r' : V} (h' : InTree E r') : r = r' := by
  by_contra hne
  obtain ⟨w, hw, -⟩ := h'.next r hne
  exact h.root w hw

/-- A tree given by the distance of its vertices to the root. -/
theorem of_dist {d : V → ℕ} (hroot : ∀ v, d v = 0 ↔ v = r) (hedge : ∀ v w, E v w → d v = d w + 1)
    (hnext : ∀ v, d v ≠ 0 → ∃! w, E v w) : InTree E r where
  root w hw := by
    have hd := hedge r w hw
    rw [(hroot r).mpr rfl] at hd
    omega
  next v hv := by
    apply hnext
    intro hd
    exact hv ((hroot v).mp hd)
  path v := by
    induction hd : d v generalizing v with
    | zero =>
        rw [(hroot v).mp hd]
    | succ k ih =>
        obtain ⟨w, hw, -⟩ := hnext v (by omega)
        have hdw := hedge v w hw
        exact ReflTransGen.head hw (ih w (by omega))

/-- Distances for a relation given by lists of successors. -/
theorem of_succs {f : V → List V} {d : V → ℕ} (hroot : ∀ v, d v = 0 ↔ v = r)
    (hnil : f r = []) (hnext : ∀ v, d v ≠ 0 → ∃ w, f v = [w] ∧ d v = d w + 1) :
    InTree (fun v w => w ∈ f v) r := by
  apply of_dist hroot
  · intro v w hvw
    by_cases hd : d v = 0
    · rw [(hroot v).mp hd, hnil] at hvw
      exact absurd hvw List.not_mem_nil
    · obtain ⟨w', hf, hd'⟩ := hnext v hd
      rw [hf, List.mem_singleton] at hvw
      rw [hd', hvw]
  · intro v hd
    obtain ⟨w, hf, -⟩ := hnext v hd
    refine ⟨w, by simp [hf], ?_⟩
    intro w' hw'
    simpa [hf] using hw'

end InTree

end StdmlCollective.Tree

import Mathlib.Algebra.BigOperators.Group.Finset.Basic
import Mathlib.Algebra.Order.BigOperators.Group.Finset

/-!
# Balanced loads

Bins with loads, and items that go one by one to the bin with the least load, to the first of them
when there are several. The loads of the bins that get an item end up within one of all others,
and how many of the first items a bin gets can be read off the loads at the start.
-/

namespace StdmlCollective.Balance

/-! ## The smallest entry -/

section MinElement

variable {α β : Type}

/-- The first entry of a list that no other entry is smaller than. -/
def minElement (lt : α → α → Bool) : List α → Option α
  | [] => none
  | x :: xs => some (xs.foldl (fun smallest y => if lt y smallest then y else smallest) x)

theorem minElement_eq_none {lt : α → α → Bool} {xs : List α} :
    minElement lt xs = none ↔ xs = [] := by
  cases xs <;> simp [minElement]

theorem minElement_concat (lt : α → α → Bool) (xs : List α) (y : α) :
    minElement lt (xs ++ [y]) =
      (minElement lt xs).elim (some y) fun x => some (if lt y x then y else x) := by
  cases xs with
  | nil => rfl
  | cons x xs => simp [minElement, List.foldl_append]

/-- Entries that are compared by what `f` makes of them. -/
theorem minElement_map (f : α → β) (lt : β → β → Bool) (xs : List α) :
    minElement lt (xs.map f) = (minElement (fun x y => lt (f x) (f y)) xs).map f := by
  induction xs using List.reverseRecOn with
  | nil => rfl
  | append_singleton xs y ih =>
      rw [List.map_append, List.map_singleton, minElement_concat, minElement_concat, ih]
      cases minElement (fun x y => lt (f x) (f y)) xs with
      | none => rfl
      | some x =>
          simp only [Option.map_some, Option.elim_some]
          split <;> rfl

/-- Entries that are compared by a key: the result has the least key, and among the entries with
this key it comes first. -/
theorem minElement_spec [DecidableEq α] {κ : Type} [LinearOrder κ] {key : α → κ} {xs : List α}
    {x : α} (h : minElement (fun p q => decide (key p < key q)) xs = some x) :
    x ∈ xs ∧ ∀ y ∈ xs, key x ≤ key y ∧ (key y = key x → xs.idxOf x ≤ xs.idxOf y) := by
  induction xs using List.reverseRecOn generalizing x with
  | nil => simp [minElement] at h
  | append_singleton xs z ih =>
      rw [minElement_concat] at h
      cases hmin : minElement (fun p q => decide (key p < key q)) xs with
      | none =>
          obtain rfl := minElement_eq_none.mp hmin
          simp only [hmin, Option.elim_none, Option.some.injEq] at h
          simp [h]
      | some m =>
          obtain ⟨hm, hle⟩ := ih hmin
          simp only [hmin, Option.elim_some, decide_eq_true_eq, Option.some.injEq] at h
          split at h
          · next hlt =>
            subst h
            -- `z` is smaller than everything before it
            have hbefore : ∀ y ∈ xs, key z < key y := fun y hy => lt_of_lt_of_le hlt (hle y hy).1
            refine ⟨by simp, ?_⟩
            intro y hy
            rcases List.mem_append.mp hy with hy | hy
            · exact ⟨(hbefore y hy).le, fun heq => absurd heq (hbefore y hy).ne'⟩
            · obtain rfl := List.mem_singleton.mp hy
              exact ⟨le_refl _, fun _ => le_refl _⟩
          · next hlt =>
            subst h
            refine ⟨List.mem_append_left _ hm, ?_⟩
            intro y hy
            rw [List.idxOf_append_of_mem hm]
            by_cases hyx : y ∈ xs
            · rw [List.idxOf_append_of_mem hyx]
              exact hle y hyx
            · have hyz : y = z := by simpa [hyx] using hy
              subst hyz
              rw [List.idxOf_append_of_notMem hyx]
              have hidx := List.idxOf_lt_length_of_mem hm
              exact ⟨not_lt.mp hlt, fun _ => by omega⟩

end MinElement

/-! ## Items to the least loaded bin -/

section Fills

variable {β : Type} [DecidableEq β] {bins : List β} {load : β → ℕ} {bs : List β} {b : β}

/-- No bin has a smaller load than `b`, and no earlier bin the same. -/
def Least (bins : List β) (load : β → ℕ) (b : β) : Prop :=
  b ∈ bins ∧ ∀ g ∈ bins, load b ≤ load g ∧ (load g = load b → bins.idxOf b ≤ bins.idxOf g)

theorem Least.unique {b' : β} (h : Least bins load b) (h' : Least bins load b') : b = b' := by
  obtain ⟨hle, hidx⟩ := h.2 b' h'.1
  obtain ⟨hle', hidx'⟩ := h'.2 b h.1
  have heq : load b = load b' := by omega
  exact (List.idxOf_inj h.1).mp (Nat.le_antisymm (hidx heq.symm) (hidx' heq))

/-- `minElement` finds it. -/
theorem minElement_eq_some_iff :
    minElement (fun p q => decide (load p < load q)) bins = some b ↔ Least bins load b := by
  constructor
  · exact minElement_spec
  · intro h
    cases hmin : minElement (fun p q => decide (load p < load q)) bins with
    | none =>
        rw [minElement_eq_none] at hmin
        simp [Least, hmin] at h
    | some b' => rw [h.unique (minElement_spec hmin)]

theorem exists_least (h : bins ≠ []) : ∃ b, Least bins load b := by
  cases hmin : minElement (fun p q => decide (load p < load q)) bins with
  | none => exact absurd (minElement_eq_none.mp hmin) h
  | some b => exact ⟨b, minElement_eq_some_iff.mp hmin⟩

/-- One more item in `b`. -/
def put (load : β → ℕ) (b : β) : β → ℕ := fun g => load g + if g = b then 1 else 0

@[simp] theorem put_self : put load b b = load b + 1 := by simp [put]

theorem put_of_ne {g : β} (h : g ≠ b) : put load b g = load g := by simp [put, h]

/-- `Fills bins load bs`: from the loads `load` on, items go to the bins `bs` in turn. -/
inductive Fills (bins : List β) : (β → ℕ) → List β → Prop where
  | nil {load : β → ℕ} : Fills bins load []
  | cons {load : β → ℕ} {b : β} {bs : List β} :
      Least bins load b → Fills bins (put load b) bs → Fills bins load (b :: bs)

/-- The number of items before the one that finds `b` with load `t`. -/
def turn (bins : List β) (load : β → ℕ) (b : β) (t : ℕ) : ℕ :=
  ∑ g ∈ bins.toFinset, ((t + if bins.idxOf g < bins.idxOf b then 1 else 0) - load g)

theorem turn_mono {t t' : ℕ} (h : t ≤ t') : turn bins load b t ≤ turn bins load b t' := by
  apply Finset.sum_le_sum
  intro g _
  omega

/-- The least loaded bin is served at once. -/
theorem Least.turn_eq_zero (h : Least bins load b) : turn bins load b (load b) = 0 := by
  apply Finset.sum_eq_zero
  intro g hg
  obtain ⟨hle, hidx⟩ := h.2 g (List.mem_toFinset.mp hg)
  split <;> omega

/-- An item that goes to another bin, or to this one at a smaller load, was one of those before. -/
theorem Least.turn_eq {b₀ : β} {t : ℕ} (h : Least bins load b₀) (hb : b ∈ bins) (ht : load b ≤ t)
    (hne : ¬(b₀ = b ∧ load b = t)) :
    turn bins load b t = turn bins (put load b₀) b t + 1 := by
  have hmem : b₀ ∈ bins.toFinset := List.mem_toFinset.mpr h.1
  obtain ⟨hle, hidx⟩ := h.2 b hb
  have hlt : load b₀ < t + if bins.idxOf b₀ < bins.idxOf b then 1 else 0 := by
    by_cases heq : b₀ = b
    · subst heq
      rw [if_neg (lt_irrefl _)]
      have hlt : load b₀ ≠ t := fun e => hne ⟨rfl, e⟩
      omega
    · have hne' : bins.idxOf b₀ ≠ bins.idxOf b := fun e => heq ((List.idxOf_inj h.1).mp e)
      split <;> omega
  have hrest : ∀ g ∈ bins.toFinset.erase b₀, (t + if bins.idxOf g < bins.idxOf b then 1 else 0) -
      put load b₀ g = (t + if bins.idxOf g < bins.idxOf b then 1 else 0) - load g := by
    intro g hg
    rw [put_of_ne (Finset.ne_of_mem_erase hg)]
  rw [turn, turn, ← Finset.add_sum_erase _ _ hmem, ← Finset.add_sum_erase _ _ hmem,
    Finset.sum_congr rfl hrest, put_self]
  omega

/-- **How many items a bin gets**: more than `j` exactly when its turn to get one at the load
`load b + j` is among those that were served. -/
theorem Fills.lt_count_iff (h : Fills bins load bs) (hb : b ∈ bins) (j : ℕ) :
    j < bs.count b ↔ turn bins load b (load b + j) < bs.length := by
  induction h generalizing j with
  | nil => simp
  | @cons load b₀ bs hleast _ ih =>
      by_cases hfirst : b₀ = b ∧ load b = load b + j
      · obtain ⟨rfl, hj⟩ := hfirst
        obtain rfl : j = 0 := by omega
        rw [Nat.add_zero, hleast.turn_eq_zero]
        simp
      · rw [hleast.turn_eq hb (Nat.le_add_right _ _) hfirst, List.count_cons, List.length_cons]
        by_cases heq : b₀ = b
        · subst heq
          obtain ⟨i, rfl⟩ : ∃ i, j = i + 1 := Nat.exists_eq_succ_of_ne_zero (by
            rintro rfl
            exact hfirst ⟨rfl, rfl⟩)
          have hrest := ih i
          rw [put_self, Nat.add_right_comm] at hrest
          simp only [beq_self_eq_true, if_true, Nat.add_lt_add_iff_right]
          exact hrest
        · have hrest := ih j
          rw [put_of_ne (Ne.symm heq)] at hrest
          simp only [beq_iff_eq, heq, if_false, Nat.add_zero, Nat.add_lt_add_iff_right]
          exact hrest

theorem fills_concat : Fills bins load (bs ++ [b]) ↔
    Fills bins load bs ∧ Least bins (fun g => load g + bs.count g) b := by
  induction bs generalizing load with
  | nil =>
      constructor
      · rintro (_ | ⟨h, _⟩)
        exact ⟨.nil, by simpa using h⟩
      · rintro ⟨_, h⟩
        exact .cons (by simpa using h) .nil
  | cons a bs ih =>
      have hload : (fun g => put load a g + bs.count g) =
          fun g => load g + (a :: bs).count g := by
        funext g
        by_cases hg : g = a
        · subst hg
          rw [put_self, List.count_cons_self]
          omega
        · rw [put_of_ne hg, List.count_cons_of_ne (Ne.symm hg)]
      constructor
      · rintro (_ | ⟨ha, hrest⟩)
        obtain ⟨hbs, hb⟩ := ih.mp hrest
        exact ⟨.cons ha hbs, hload ▸ hb⟩
      · rintro ⟨_ | ⟨ha, hbs⟩, hb⟩
        exact .cons ha (ih.mpr ⟨hbs, hload ▸ hb⟩)

/-- **Balance**: a bin that got an item ends up at most one above any other. -/
theorem Fills.balanced (h : Fills bins load bs) (hb : b ∈ bs) {q : β} (hq : q ∈ bins) :
    load b + bs.count b ≤ load q + bs.count q + 1 := by
  induction bs using List.reverseRecOn with
  | nil => simp at hb
  | append_singleton bs a ih =>
      obtain ⟨hbs, hleast⟩ := fills_concat.mp h
      have hqa : load a + bs.count a ≤ load q + bs.count q := (hleast.2 q hq).1
      rw [List.count_append, List.count_append]
      by_cases hba : a = b
      · subst hba
        rw [List.count_singleton_self]
        omega
      · have hmem : b ∈ bs := by simpa [Ne.symm hba] using hb
        have hzero : [a].count b = 0 := by simp [hba]
        have hbefore := ih hbs hmem
        omega

end Fills

end StdmlCollective.Balance

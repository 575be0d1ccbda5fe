import Mathlib.Algebra.GroupWithZero.Nat
import Mathlib.Data.Finset.Card
import Mathlib.Data.Finset.Range

/-!
# Free words in cyclic order

The 16-bit words in the order in which a counter that starts at `s` runs through them, and words
that are taken one by one, always the first free one in this order.
-/

namespace StdmlCollective.WordSearch

/-- The steps from `s` up to `x`, over the end of the range if need be. -/
def offset (s x : UInt16) : ℕ := (x - s).toNat

section Offset

variable {s x y : UInt16}

theorem offset_lt (s x : UInt16) : offset s x < 2 ^ 16 := UInt16.toNat_lt _

@[simp] theorem offset_self (s : UInt16) : offset s s = 0 := by simp [offset]

theorem offset_of_le (h : s.toNat ≤ x.toNat) : offset s x = x.toNat - s.toNat := by
  have hs := s.toNat_lt
  have hx := x.toNat_lt
  rw [offset, UInt16.toNat_sub]
  omega

theorem offset_of_lt (h : x.toNat < s.toNat) : offset s x = 2 ^ 16 - s.toNat + x.toNat := by
  have hs := s.toNat_lt
  have hx := x.toNat_lt
  rw [offset, UInt16.toNat_sub]
  omega

theorem add_offset (s x : UInt16) : s + UInt16.ofNat (offset s x) = x := by
  rw [offset, UInt16.ofNat_toNat, UInt16.add_comm, UInt16.sub_add_cancel]

theorem offset_add {d : ℕ} (s : UInt16) (hd : d < 2 ^ 16) : offset s (s + UInt16.ofNat d) = d := by
  rw [offset, UInt16.add_comm, UInt16.add_sub_cancel, UInt16.toNat_ofNat', Nat.mod_eq_of_lt hd]

theorem offset_inj (h : offset s x = offset s y) : x = y := by
  rw [← add_offset s x, h, add_offset]

/-- One step nearer. -/
theorem offset_succ (h : x ≠ s) : offset (s + 1) x + 1 = offset s x := by
  have hs := s.toNat_lt
  have hx := x.toNat_lt
  have hne : x.toNat ≠ s.toNat := fun e => h (UInt16.toNat_inj.mp e)
  have hsucc : (s + 1).toNat = (s.toNat + 1) % 2 ^ 16 := by rw [UInt16.toNat_add]; rfl
  rw [offset, offset, UInt16.toNat_sub, UInt16.toNat_sub, hsucc]
  omega

end Offset

/-! ## The first free word -/

section Free

variable {used xs : List UInt16} {s x : UInt16}

/-- The first word from `s` on that is not used. -/
def FirstFree (used : List UInt16) (s x : UInt16) : Prop :=
  x ∉ used ∧ ∀ y, y ∉ used → offset s x ≤ offset s y

/-- A used word at the start is passed over. -/
theorem firstFree_succ (hs : s ∈ used) : FirstFree used (s + 1) x ↔ FirstFree used s x := by
  have hne : ∀ {y}, y ∉ used → y ≠ s := fun hy e => hy (e ▸ hs)
  apply and_congr_right
  intro hx
  apply forall₂_congr
  intro y hy
  have h₁ := offset_succ (hne hx)
  have h₂ := offset_succ (hne hy)
  omega

/-- The number of free words among the `d` words from `s` on. -/
def freeWithin (used : List UInt16) (s : UInt16) (d : ℕ) : ℕ :=
  ((Finset.range d).filter fun i => s + UInt16.ofNat i ∉ used).card

/-- `Takes s used xs`: beside the words `used`, the words `xs` are taken in turn. -/
inductive Takes (s : UInt16) : List UInt16 → List UInt16 → Prop where
  | nil {used : List UInt16} : Takes s used []
  | cons {used xs : List UInt16} {x : UInt16} :
      FirstFree used s x → Takes s (used ++ [x]) xs → Takes s used (x :: xs)

/-- Taking a word leaves one free word less before those behind it. -/
theorem FirstFree.freeWithin_eq {d : ℕ} (h : FirstFree used s x) (hd : offset s x < d)
    (hlt : d ≤ 2 ^ 16) : freeWithin used s d = freeWithin (used ++ [x]) s d + 1 := by
  have herase : (Finset.range d).filter (fun i => s + UInt16.ofNat i ∉ used ++ [x]) =
      ((Finset.range d).filter fun i => s + UInt16.ofNat i ∉ used).erase (offset s x) := by
    ext i
    have hiff : i < d → (s + UInt16.ofNat i = x ↔ i = offset s x) := by
      intro hi
      constructor
      · rintro rfl
        exact (offset_add s (by omega)).symm
      · rintro rfl
        exact add_offset s x
    simp only [Finset.mem_filter, Finset.mem_range, List.mem_append, List.mem_singleton,
      Finset.mem_erase]
    tauto
  have hmem : offset s x ∈ (Finset.range d).filter fun i => s + UInt16.ofNat i ∉ used := by
    simpa [add_offset, hd] using h.1
  rw [freeWithin, freeWithin, herase, Finset.card_erase_add_one hmem]

/-- **When a word is taken**: when less free words lie before it than are taken. -/
theorem Takes.mem_iff (h : Takes s used xs) (hx : x ∉ used) :
    x ∈ xs ↔ freeWithin used s (offset s x) < xs.length := by
  induction h with
  | nil => simp
  | @cons used xs x₀ hfirst _ ih =>
      by_cases heq : x = x₀
      · subst heq
        have hzero : freeWithin used s (offset s x) = 0 := by
          rw [freeWithin, Finset.card_eq_zero, Finset.filter_eq_empty_iff]
          intro i hi
          rw [Finset.mem_range] at hi
          intro hfree
          have hlt := offset_lt s x
          have hle := hfirst.2 _ hfree
          rw [offset_add s (by omega)] at hle
          omega
        simp [hzero]
      · have hlt : offset s x₀ < offset s x :=
          lt_of_le_of_ne (hfirst.2 x hx) fun e => heq (offset_inj e.symm)
        have hrest := ih (by simpa [heq] using hx)
        have hstep := hfirst.freeWithin_eq hlt (offset_lt s x).le
        rw [List.mem_cons, or_iff_right heq, hrest, hstep, List.length_cons]
        omega

/-- No more words are taken among the `d` words from `s` on than were free there. -/
theorem Takes.length_le {d : ℕ} (h : Takes s used xs) (hall : ∀ x ∈ xs, offset s x < d)
    (hd : d ≤ 2 ^ 16) : xs.length ≤ freeWithin used s d := by
  induction h with
  | nil => simp
  | cons hfirst _ ih =>
      have hrest := ih fun y hy => hall y (List.mem_cons_of_mem _ hy)
      have hstep := hfirst.freeWithin_eq (hall _ List.mem_cons_self) hd
      rw [List.length_cons]
      omega

/-- As long as less words are taken than were free, one of them is still free. -/
theorem exists_free_within {d : ℕ} (hd : d ≤ 2 ^ 16) (h : xs.length < freeWithin used s d) :
    ∃ x, x ∉ used ++ xs ∧ offset s x < d := by
  have hcard : (xs.map (offset s)).toFinset.card <
      ((Finset.range d).filter fun i => s + UInt16.ofNat i ∉ used).card := by
    have hle := List.toFinset_card_le (xs.map (offset s))
    rw [List.length_map] at hle
    exact lt_of_le_of_lt hle h
  obtain ⟨i, hi, hnot⟩ := Finset.exists_mem_notMem_of_card_lt_card hcard
  rw [Finset.mem_filter, Finset.mem_range] at hi
  rw [List.mem_toFinset, List.mem_map, not_exists] at hnot
  have hoff : offset s (s + UInt16.ofNat i) = i := offset_add s (by omega)
  refine ⟨s + UInt16.ofNat i, ?_, by omega⟩
  rw [List.mem_append, not_or]
  exact ⟨hi.2, fun hmem => hnot _ ⟨hmem, hoff⟩⟩

/-- There is a free word as long as less than `2 ^ 16` words are used. -/
theorem exists_free (h : used.length < 2 ^ 16) : ∃ x, x ∉ used := by
  by_contra hall
  simp only [not_exists, not_not] at hall
  have hsub : Finset.range (2 ^ 16) ⊆ (used.map UInt16.toNat).toFinset := by
    intro i hi
    rw [Finset.mem_range] at hi
    rw [List.mem_toFinset, List.mem_map]
    exact ⟨UInt16.ofNat i, hall _, by rw [UInt16.toNat_ofNat', Nat.mod_eq_of_lt hi]⟩
  have hcard := Finset.card_le_card hsub
  have hle := List.toFinset_card_le (used.map UInt16.toNat)
  rw [Finset.card_range] at hcard
  rw [List.length_map] at hle
  omega

end Free

/-! ## Searching from the smallest used word

The smallest word changes when the search has gone over the end of the range. It goes on from
there through the same words. -/

section FromSmallest

variable {used : List UInt16} {m m' x : UInt16}

/-- The smallest used word. -/
def Smallest (used : List UInt16) (m : UInt16) : Prop := m ∈ used ∧ ∀ p ∈ used, m.toNat ≤ p.toNat

/-- `m` is the smallest used word, or it was: 0 and all words from `m` on are used now. -/
def Based (used : List UInt16) (m : UInt16) : Prop :=
  m ∈ used ∧ ((∀ p ∈ used, m.toNat ≤ p.toNat) ∨ 0 ∈ used ∧ ∀ p, m.toNat ≤ p.toNat → p ∈ used)

theorem Smallest.based (h : Smallest used m) : Based used m := ⟨h.1, .inl h.2⟩

theorem Based.firstFree (h : Based used m) (hm : Smallest used m') (hx : FirstFree used m' x) :
    FirstFree used m x := by
  rcases h.2 with hmin | ⟨hzero, habove⟩
  · have heq : m' = m := UInt16.toNat_inj.mp (Nat.le_antisymm (hm.2 m h.1) (hmin m' hm.1))
    rwa [← heq]
  · -- the search starts at 0, and what is free lies below `m`
    have hm' : m'.toNat = 0 := Nat.le_zero.mp (hm.2 0 hzero)
    have hbelow : ∀ y, y ∉ used → y.toNat < m.toNat := by
      intro y hy
      by_contra hge
      exact hy (habove y (by omega))
    refine ⟨hx.1, fun y hy => ?_⟩
    have hle := hx.2 y hy
    rw [offset_of_le (by omega), offset_of_le (by omega)] at hle
    rw [offset_of_lt (hbelow x hx.1), offset_of_lt (hbelow y hy)]
    omega

theorem Based.push (h : Based used m) (hx : FirstFree used m x) : Based (used ++ [x]) m := by
  refine ⟨List.mem_append_left _ h.1, ?_⟩
  rcases h.2 with hmin | ⟨hzero, habove⟩
  · rcases Nat.lt_or_ge x.toNat m.toNat with hlt | hge
    · -- the search has gone over the end: everything from `m` on is used, and `x` is 0
      have hm := m.toNat_lt
      have hoff := offset_of_lt hlt
      have hzero : (0 : UInt16) ∉ used := by
        intro hmem
        have hle := hmin 0 hmem
        rw [UInt16.toNat_zero] at hle
        omega
      have hle := hx.2 0 hzero
      have hoff₀ : offset m 0 = 2 ^ 16 - m.toNat + (0 : UInt16).toNat :=
        offset_of_lt (by rw [UInt16.toNat_zero]; omega)
      rw [UInt16.toNat_zero] at hoff₀
      have hx₀ : x = 0 := UInt16.toNat_inj.mp (by rw [UInt16.toNat_zero]; omega)
      refine .inr ⟨by simp [hx₀], fun p hp => List.mem_append_left _ ?_⟩
      by_contra hfree
      have hlep := hx.2 p hfree
      have hoffp := offset_of_le hp
      have hplt := p.toNat_lt
      omega
    · left
      intro p hp
      rcases List.mem_append.mp hp with hp | hp
      · exact hmin p hp
      · rwa [List.mem_singleton.mp hp]
  · exact .inr ⟨List.mem_append_left _ hzero, fun p hp => List.mem_append_left _ (habove p hp)⟩

theorem Based.takes {xs : List UInt16} (h : Based used m) (hxs : Takes m used xs) :
    Based (used ++ xs) m := by
  induction hxs with
  | nil => simpa using h
  | cons hfirst _ ih => simpa using ih (h.push hfirst)

end FromSmallest

end StdmlCollective.WordSearch

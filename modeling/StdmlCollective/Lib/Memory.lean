import Mathlib.Data.List.Basic

/-!
# Flat byte memory

Memory is a function from addresses to bytes; a buffer is an address and a length. Two
buffers are `Apart` when they do not overlap.
-/

namespace StdmlCollective.Memory

/-- Memory, as far as anybody looks at it. -/
abbrev Mem := ℕ → UInt8

/-- The `len` bytes at address `a`. -/
def read (a len : ℕ) (m : Mem) : List UInt8 := (List.range len).map fun i => m (a + i)

/-- Put the bytes `d` at address `a` (`memcpy`). -/
def write (a : ℕ) (d : List UInt8) (m : Mem) : Mem :=
  fun x => if a ≤ x then d[x - a]?.getD (m x) else m x

/-- The buffers `[a, a + k)` and `[b, b + l)` do not overlap. -/
def Apart (a k b l : ℕ) : Prop := a + k ≤ b ∨ b + l ≤ a

@[simp] theorem length_read (a len : ℕ) (m : Mem) : (read a len m).length = len := by
  simp [read]

@[simp] theorem getElem_read {a len i : ℕ} {m : Mem} (h : i < (read a len m).length) :
    (read a len m)[i] = m (a + i) := by
  simp [read]

theorem write_of_lt {a x : ℕ} (d : List UInt8) (m : Mem) (h : x < a) : write a d m x = m x := by
  rw [write, if_neg (by omega)]

theorem write_of_ge {a x : ℕ} {d : List UInt8} (m : Mem) (h : a + d.length ≤ x) :
    write a d m x = m x := by
  rw [write, List.getElem?_eq_none (by omega)]
  simp

theorem write_inside {a i : ℕ} {d : List UInt8} (m : Mem) (h : i < d.length) :
    write a d m (a + i) = d[i] := by
  simp [write, h]

@[simp] theorem write_nil (a : ℕ) (m : Mem) : write a [] m = m := by
  funext x
  simp [write]

theorem read_congr {a len : ℕ} {m m' : Mem} (h : ∀ i < len, m (a + i) = m' (a + i)) :
    read a len m = read a len m' := by
  rw [read, read, List.map_inj_left]
  intro i hi
  exact h i (List.mem_range.mp hi)

/-- Reading back what was written. -/
theorem read_write (a : ℕ) (d : List UInt8) (m : Mem) : read a d.length (write a d m) = d := by
  refine List.ext_getElem (by simp) fun i _ hi => ?_
  rw [getElem_read, write_inside m hi]

/-- A write changes nothing outside its buffer. -/
theorem read_write_apart {a k b : ℕ} {d : List UInt8} (m : Mem) (h : Apart a k b d.length) :
    read a k (write b d m) = read a k m := by
  refine read_congr fun i hi => ?_
  rcases h with h | h
  · exact write_of_lt d m (by omega)
  · exact write_of_ge m (by omega)

/-- Two writes side by side are one. -/
theorem write_append (a : ℕ) (d e : List UInt8) (m : Mem) :
    write a (d ++ e) m = write (a + d.length) e (write a d m) := by
  funext x
  by_cases h₁ : x < a
  · rw [write_of_lt _ _ h₁, write_of_lt _ _ (by omega), write_of_lt _ _ h₁]
  obtain ⟨i, rfl⟩ : ∃ i, x = a + i := ⟨x - a, by omega⟩
  by_cases h₂ : i < d.length
  · rw [write_inside m (by rw [List.length_append]; omega), write_of_lt _ _ (by omega),
      write_inside m h₂, List.getElem_append_left h₂]
  by_cases h₃ : i < d.length + e.length
  · obtain ⟨j, rfl⟩ : ∃ j, i = d.length + j := ⟨i - d.length, by omega⟩
    have hj : j < e.length := by omega
    rw [write_inside m (by rw [List.length_append]; omega), ← Nat.add_assoc,
      write_inside _ hj, List.getElem_append_right (by omega)]
    simp
  · rw [write_of_ge m (by rw [List.length_append]; omega), write_of_ge _ (by omega),
      write_of_ge m (by omega)]

/-- A second write to the same buffer wins. -/
theorem write_write {a : ℕ} {d e : List UInt8} (m : Mem) (h : d.length = e.length) :
    write a e (write a d m) = write a e m := by
  funext x
  by_cases h₁ : x < a
  · rw [write_of_lt _ _ h₁, write_of_lt _ _ h₁, write_of_lt _ _ h₁]
  obtain ⟨i, rfl⟩ : ∃ i, x = a + i := ⟨x - a, by omega⟩
  by_cases h₂ : i < e.length
  · rw [write_inside _ h₂, write_inside _ h₂]
  · rw [write_of_ge _ (by omega), write_of_ge _ (by omega), write_of_ge _ (by omega)]

/-- Writing back what is there changes nothing. -/
theorem write_read (a len : ℕ) (m : Mem) : write a (read a len m) m = m := by
  funext x
  by_cases h₁ : x < a
  · exact write_of_lt _ _ h₁
  obtain ⟨i, rfl⟩ : ∃ i, x = a + i := ⟨x - a, by omega⟩
  by_cases h₂ : i < len
  · rw [write_inside m (by simpa using h₂), getElem_read]
  · exact write_of_ge m (by simp; omega)

/-- A write to a slice changes nothing outside the row of slices. -/
theorem write_slice_of_outside {a s k i x : ℕ} {d : List UInt8} (m : Mem) (hd : d.length = s)
    (hi : i < k) (hx : x < a ∨ a + s * k ≤ x) : write (a + s * i) d m x = m x := by
  have hle : s * i + s ≤ s * k := by
    rw [← Nat.mul_succ]
    exact Nat.mul_le_mul_left s hi
  rcases hx with hx | hx
  · exact write_of_lt d m (by omega)
  · exact write_of_ge m (by omega)

/-- What a write is: the data is in the buffer, and nothing else has changed. -/
theorem eq_write {a : ℕ} {d : List UInt8} {m m' : Mem} (hread : read a d.length m' = d)
    (hframe : ∀ x, x < a ∨ a + d.length ≤ x → m' x = m x) : m' = write a d m := by
  funext x
  by_cases h₁ : x < a
  · rw [write_of_lt d m h₁, hframe x (.inl h₁)]
  by_cases h₂ : a + d.length ≤ x
  · rw [write_of_ge m h₂, hframe x (.inr h₂)]
  · obtain ⟨i, rfl⟩ : ∃ i, x = a + i := ⟨x - a, by omega⟩
    have hi : i < d.length := by omega
    rw [write_inside m hi]
    conv_rhs => rw [← List.getElem_of_eq hread (by simpa using hi)]
    rw [getElem_read]

/-- A buffer in two parts. -/
theorem read_add (a k l : ℕ) (m : Mem) : read a (k + l) m = read a k m ++ read (a + k) l m := by
  refine List.ext_getElem (by simp) fun i hi _ => ?_
  rw [length_read] at hi
  rw [getElem_read]
  by_cases h : i < k
  · rw [List.getElem_append_left (by simpa using h), getElem_read]
  · rw [List.getElem_append_right (by simpa using h), getElem_read]
    simp only [length_read]
    congr 1
    omega

/-- A part of a buffer. -/
theorem take_drop_read {i k len : ℕ} (a : ℕ) (m : Mem) (h : i + k ≤ len) :
    ((read a len m).drop i).take k = read (a + i) k m := by
  obtain ⟨l, rfl⟩ : ∃ l, len = i + (k + l) := ⟨len - i - k, by omega⟩
  rw [read_add, List.drop_left' (by simp), read_add, List.take_left' (by simp)]

end StdmlCollective.Memory

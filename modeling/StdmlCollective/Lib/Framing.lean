import Mathlib.Data.List.Basic

/-!
# Records in a stream that is cut

Records are written one after the other and only a prefix of the stream arrives. `whole` are the
records that lie in it from the first to the last symbol.
-/

namespace StdmlCollective.Framing

variable {α β : Type} {encode : α → List β}

/-- The records that lie wholly in a prefix of their stream. -/
def whole (encode : α → List β) : List α → List β → List α
  | [], _ => []
  | x :: xs, bs =>
      if (encode x).length ≤ bs.length then x :: whole encode xs (bs.drop (encode x).length) else []

theorem whole_cons {x : α} {xs : List α} (bs : List β) :
    whole encode (x :: xs) (encode x ++ bs) = x :: whole encode xs bs := by
  simp [whole]

/-- Either the first record is there or the stream is cut within it. -/
theorem split_prefix {x : α} {xs : List α} {bs : List β}
    (h : bs <+: (x :: xs).flatMap encode) :
    (∃ rest, bs = encode x ++ rest ∧ rest <+: xs.flatMap encode) ∨
      (bs <+: encode x ∧ bs.length < (encode x).length) := by
  rw [List.flatMap_cons] at h
  by_cases hle : (encode x).length ≤ bs.length
  · obtain ⟨rest, rfl⟩ := List.prefix_of_prefix_length_le (List.prefix_append _ _) h hle
    exact Or.inl ⟨rest, rfl, (List.prefix_append_right_inj _).mp h⟩
  · right
    have hlt := Nat.lt_of_not_le hle
    exact ⟨List.prefix_of_prefix_length_le h (List.prefix_append _ _) (Nat.le_of_lt hlt), hlt⟩

/-- **`whole` is the longest sequence of records that has arrived.** -/
theorem whole_spec {xs : List α} {bs : List β} (h : bs <+: xs.flatMap encode) :
    whole encode xs bs <+: xs ∧ (whole encode xs bs).flatMap encode <+: bs ∧
      ∀ ys, ys <+: xs → ys.flatMap encode <+: bs → ys <+: whole encode xs bs := by
  induction xs generalizing bs with
  | nil => exact ⟨List.nil_prefix, List.nil_prefix, fun ys hys _ => hys⟩
  | cons x xs ih =>
      rcases split_prefix h with ⟨rest, rfl, hrest⟩ | ⟨-, hlt⟩
      · obtain ⟨hpre, hin, hmax⟩ := ih hrest
        rw [whole_cons]
        refine ⟨List.cons_prefix_cons.mpr ⟨rfl, hpre⟩, ?_, ?_⟩
        · rw [List.flatMap_cons]
          exact (List.prefix_append_right_inj _).mpr hin
        · intro ys hys hyin
          cases ys with
          | nil => exact List.nil_prefix
          | cons y ys =>
              obtain ⟨rfl, htail⟩ := List.cons_prefix_cons.mp hys
              rw [List.flatMap_cons] at hyin
              exact List.cons_prefix_cons.mpr
                ⟨rfl, hmax ys htail ((List.prefix_append_right_inj _).mp hyin)⟩
      · have hnone : whole encode (x :: xs) bs = [] := by
          rw [whole, if_neg (Nat.not_le.mpr hlt)]
        rw [hnone]
        refine ⟨List.nil_prefix, List.nil_prefix, ?_⟩
        intro ys hys hyin
        cases ys with
        | nil => exact List.nil_prefix
        | cons y ys =>
            -- the first record alone is longer than what has arrived
            obtain ⟨rfl, -⟩ := List.cons_prefix_cons.mp hys
            have hle := hyin.length_le
            rw [List.flatMap_cons, List.length_append] at hle
            omega

end StdmlCollective.Framing

import Mathlib.Data.Nat.Digits.Defs
import Mathlib.Data.Nat.Digits.Lemmas

/-!
# Decimal numerals

The decimal text of a number, and the number a string of digits stands for.
-/

namespace StdmlCollective.Decimal

/-- The character of a digit. -/
def digit (d : ℕ) : UInt8 := UInt8.ofNat (48 + d)

/-- The characters `0` to `9`. -/
def isDigit (c : UInt8) : Bool := 48 ≤ c.toNat && c.toNat ≤ 57

/-- The number a string of digits stands for. -/
def value (cs : List UInt8) : ℕ := cs.foldl (fun v c => 10 * v + (c.toNat - 48)) 0

/-- At least one digit, and no leading zero. -/
def Numeral (cs : List UInt8) : Prop :=
  cs ≠ [] ∧ (∀ c ∈ cs, isDigit c) ∧ (cs.head? = some 48 → cs.length = 1)

instance (cs : List UInt8) : Decidable (Numeral cs) :=
  have : Decidable (∀ c ∈ cs, isDigit c) := List.decidableBAll (fun c => isDigit c) cs
  inferInstanceAs (Decidable (_ ∧ _ ∧ _))

theorem toNat_digit {d : ℕ} (hd : d < 10) : (digit d).toNat = 48 + d := by
  rw [digit, UInt8.toNat_ofNat']
  omega

theorem isDigit_digit {d : ℕ} (hd : d < 10) : isDigit (digit d) := by
  simp only [isDigit, toNat_digit hd, Bool.and_eq_true, decide_eq_true_eq]
  omega

theorem value_digits {ds : List ℕ} (hds : ∀ d ∈ ds, d < 10) :
    value (ds.map digit).reverse = Nat.ofDigits 10 ds := by
  induction ds with
  | nil => rfl
  | cons d ds ih =>
      have htail := ih fun d' hd' => hds d' (List.mem_cons_of_mem d hd')
      have hd := toNat_digit (hds d List.mem_cons_self)
      rw [value, List.foldl_reverse] at htail ⊢
      rw [List.map_cons, List.foldr_cons, htail, hd, Nat.ofDigits_cons]
      omega

/-- The digits of a positive number make a numeral. -/
theorem numeral_digits {n : ℕ} (hn : n ≠ 0) : Numeral ((Nat.digits 10 n).map digit).reverse := by
  have hlt : ∀ d ∈ Nat.digits 10 n, d < 10 := fun d hd => Nat.digits_lt_base (by omega) hd
  have hne : Nat.digits 10 n ≠ [] := Nat.digits_ne_nil_iff_ne_zero.mpr hn
  refine ⟨by simpa using hne, ?_, ?_⟩
  · intro c hc
    rw [List.mem_reverse, List.mem_map] at hc
    obtain ⟨d, hd, rfl⟩ := hc
    exact isDigit_digit (hlt d hd)
  · intro hzero
    rw [List.head?_reverse, List.getLast?_map, List.getLast?_eq_getLast_of_ne_nil hne,
      Option.map_some, Option.some.injEq] at hzero
    have hlast := Nat.getLast_digit_ne_zero 10 hn
    have hval := toNat_digit (hlt _ (List.getLast_mem hne))
    rw [hzero] at hval
    simp at hval
    omega

/-- The value of digits has no more digits. -/
theorem value_lt {cs : List UInt8} (h : ∀ c ∈ cs, isDigit c) : value cs < 10 ^ cs.length := by
  suffices hfold :
      ∀ v, cs.foldl (fun v c => 10 * v + (c.toNat - 48)) v < (v + 1) * 10 ^ cs.length by
    simpa [value] using hfold 0
  induction cs with
  | nil => simp
  | cons c cs ih =>
      intro v
      have hc := h c List.mem_cons_self
      simp only [isDigit, Bool.and_eq_true, decide_eq_true_eq] at hc
      have hrest := ih (fun d hd => h d (List.mem_cons_of_mem c hd)) (10 * v + (c.toNat - 48))
      calc (c :: cs).foldl (fun v c => 10 * v + (c.toNat - 48)) v
          < (10 * v + (c.toNat - 48) + 1) * 10 ^ cs.length := hrest
        _ ≤ (v + 1) * 10 * 10 ^ cs.length := Nat.mul_le_mul_right _ (by omega)
        _ = (v + 1) * 10 ^ (c :: cs).length := by
          rw [List.length_cons, Nat.pow_succ', Nat.mul_assoc]

/-- The text does not go on with a digit. -/
def Stops (t : List UInt8) : Prop := ∀ c ∈ t.head?, isDigit c = false

/-- The digits at the head of a text, and what follows them. -/
theorem span_digits {ds rest : List UInt8} (hds : ∀ c ∈ ds, isDigit c) (hrest : Stops rest) :
    (ds ++ rest).takeWhile isDigit = ds ∧ (ds ++ rest).dropWhile isDigit = rest := by
  have hstop : rest.takeWhile isDigit = [] ∧ rest.dropWhile isDigit = rest := by
    cases rest with
    | nil => simp
    | cons c rest =>
        have hc : isDigit c = false := hrest c (by simp)
        simp [hc]
  constructor
  · rw [List.takeWhile_append_of_pos hds, hstop.1, List.append_nil]
  · rw [List.dropWhile_append_of_pos hds, hstop.2]

end StdmlCollective.Decimal

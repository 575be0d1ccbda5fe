import Mathlib.Data.List.TakeWhile
import StdmlCollective.Lib.Decimal

/-!
# Scan formats

`sscanf` with unsigned conversions and literal characters, as glibc has it: a conversion skips
white space, takes a sign and the longest run of digits, reads them as an `unsigned long` and
stores the low bits. What follows the last conversion is not looked at. `%d` and `%s` stand alone.
-/

namespace StdmlCollective.Scanf

open Decimal

/-- A literal character, or a conversion like `%hu` to an unsigned type of so many bits. -/
inductive Directive where
  | lit (c : UInt8)
  | unsigned (bits : ℕ)

/-- `isspace`. -/
def isSpace (c : UInt8) : Bool := c = 32 || 9 ≤ c.toNat && c.toNat ≤ 13

/-- `strtoul` of a number and its sign. A number that does not fit becomes the largest one. -/
def strtoul (minus : Bool) (v : ℕ) : ℕ :=
  if 2 ^ 64 ≤ v then 2 ^ 64 - 1 else if minus then (2 ^ 64 - v) % 2 ^ 64 else v

/-- A sign, and what follows it. -/
def sign : List UInt8 → Bool × List UInt8
  | 45 :: t => (true, t)
  | 43 :: t => (false, t)
  | t => (false, t)

/-- An unsigned conversion: the number, and what is left of the text. -/
def scanUnsigned (t : List UInt8) : Option (ℕ × List UInt8) :=
  let (minus, t) := sign (t.dropWhile isSpace)
  let ds := t.takeWhile isDigit
  if ds = [] then none else some (strtoul minus (value ds), t.dropWhile isDigit)

/-- `sscanf`: what has been stored, up to the first directive that fails. -/
def scan : List Directive → List UInt8 → List ℕ
  | [], _ => []
  | .lit _ :: _, [] => []
  | .lit c :: fmt, x :: t => if x = c then scan fmt t else []
  | .unsigned bits :: fmt, t =>
      match scanUnsigned t with
      | none => []
      | some (v, rest) => v % 2 ^ bits :: scan fmt rest

/-! ## The texts of a format -/

/-- At least one digit. -/
def Digits (ds : List UInt8) : Prop := ds ≠ [] ∧ ∀ c ∈ ds, isDigit c

/-- The texts of one conversion: white space, a sign and digits. -/
inductive Field : List UInt8 → ℕ → Prop where
  | mk {sp sg ds : List UInt8} : (∀ c ∈ sp, isSpace c) → sg = [] ∨ sg = [43] ∨ sg = [45] →
      Digits ds → Field (sp ++ (sg ++ ds)) (strtoul (sg = [45]) (value ds))

/-- `Matches fmt t vs`: the text begins with what the format describes, and the numbers there are
`vs`. -/
inductive Matches : List Directive → List UInt8 → List ℕ → Prop where
  | nil {t : List UInt8} : Matches [] t []
  | lit {c : UInt8} {fmt : List Directive} {t : List UInt8} {vs : List ℕ} :
      Matches fmt t vs → Matches (.lit c :: fmt) (c :: t) vs
  | unsigned {bits : ℕ} {fmt : List Directive} {f t : List UInt8} {v : ℕ} {vs : List ℕ} :
      Field f v → Stops t → Matches fmt t vs →
        Matches (.unsigned bits :: fmt) (f ++ t) (v % 2 ^ bits :: vs)

/-- The number of conversions. -/
def conversions : List Directive → ℕ
  | [] => 0
  | .lit _ :: fmt => conversions fmt
  | .unsigned _ :: fmt => conversions fmt + 1

/-- Every literal has a conversion behind it, so that the number of conversions that were made
tells whether it was found. -/
def Tight : List Directive → Prop
  | [] => True
  | .lit _ :: fmt => 0 < conversions fmt ∧ Tight fmt
  | .unsigned _ :: fmt => Tight fmt

section Scan

variable {t rest f ds : List UInt8} {v : ℕ} {fmt : List Directive} {vs : List ℕ}

/-- A digit is no white space and no sign. -/
theorem digit_head {c : UInt8} (hc : isDigit c) : isSpace c = false ∧ c ≠ 43 ∧ c ≠ 45 := by
  simp only [isDigit, Bool.and_eq_true, decide_eq_true_eq] at hc
  refine ⟨?_, ?_, ?_⟩
  · simp only [isSpace, Bool.or_eq_false_iff, Bool.and_eq_false_iff, decide_eq_false_iff_not]
    constructor
    · rintro rfl
      simp at hc
    · omega
  · rintro rfl
    simp at hc
  · rintro rfl
    simp at hc

theorem Digits.exists_cons (h : Digits ds) : ∃ c ds', ds = c :: ds' ∧ isDigit c := by
  obtain ⟨c, ds', rfl⟩ := List.exists_cons_of_ne_nil h.1
  exact ⟨c, ds', rfl, h.2 c List.mem_cons_self⟩

/-- The sign in front of digits. -/
theorem sign_append {sg : List UInt8} (hsg : sg = [] ∨ sg = [43] ∨ sg = [45]) (hds : Digits ds) :
    sign (sg ++ (ds ++ rest)) = (decide (sg = [45]), ds ++ rest) := by
  rcases hsg with rfl | rfl | rfl
  · obtain ⟨c, ds', rfl, hc⟩ := hds.exists_cons
    obtain ⟨-, h₁, h₂⟩ := digit_head hc
    simp [sign, h₁, h₂]
  · simp [sign]
  · simp [sign]

/-- White space in front of a sign or digits. -/
theorem dropWhile_space {sp sg : List UInt8} (hsp : ∀ c ∈ sp, isSpace c)
    (hsg : sg = [] ∨ sg = [43] ∨ sg = [45]) (hds : Digits ds) :
    (sp ++ (sg ++ (ds ++ rest))).dropWhile isSpace = sg ++ (ds ++ rest) := by
  rw [List.dropWhile_append_of_pos hsp]
  rcases hsg with rfl | rfl | rfl
  · obtain ⟨c, ds', rfl, hc⟩ := hds.exists_cons
    simp [(digit_head hc).1]
  · simp [isSpace]
  · simp [isSpace]

/-- A conversion reads its field, up to where the digits end. -/
theorem Field.scanUnsigned (h : Field f v) (hrest : Stops rest) :
    scanUnsigned (f ++ rest) = some (v, rest) := by
  obtain ⟨hsp, hsg, hds⟩ := h
  obtain ⟨htake, hdrop⟩ := span_digits hds.2 hrest
  simp only [Scanf.scanUnsigned, List.append_assoc, dropWhile_space hsp hsg hds,
    sign_append hsg hds, htake, hdrop, if_neg hds.1]

/-- Digits alone are a field. -/
theorem Digits.field (h : Digits ds) (hlt : value ds < 2 ^ 64) : Field ds (value ds) := by
  have hspace : ∀ c ∈ ([] : List UInt8), isSpace c := by simp
  have hvalue : strtoul false (value ds) = value ds := by
    rw [strtoul, if_neg (not_le.mpr hlt)]
    rfl
  have hfield := Field.mk hspace (.inl rfl) h
  simpa [hvalue] using hfield

theorem sign_eq (t : List UInt8) :
    ∃ sg, (sg = [] ∨ sg = [43] ∨ sg = [45]) ∧ t = sg ++ (sign t).2 ∧
      (sign t).1 = decide (sg = [45]) := by
  unfold sign
  split
  · exact ⟨[45], by simp, rfl, by simp⟩
  · exact ⟨[43], by simp, rfl, by simp⟩
  · exact ⟨[], by simp, rfl, by simp⟩

/-- What a conversion reads is a field. -/
theorem field_of_scanUnsigned (h : scanUnsigned t = some (v, rest)) :
    ∃ f, Field f v ∧ Stops rest ∧ t = f ++ rest := by
  simp only [Scanf.scanUnsigned] at h
  obtain ⟨sg, hsg, ht, hminus⟩ := sign_eq (t.dropWhile isSpace)
  rw [hminus] at h
  generalize (sign (t.dropWhile isSpace)).2 = u at h ht
  split at h
  · exact absurd h (by simp)
  · next hne =>
    rw [Option.some.injEq, Prod.mk.injEq] at h
    obtain ⟨rfl, rfl⟩ := h
    refine ⟨t.takeWhile isSpace ++ (sg ++ u.takeWhile isDigit), .mk ?_ hsg ⟨hne, ?_⟩, ?_, ?_⟩
    · exact fun c hc => List.mem_takeWhile_imp hc
    · exact fun c hc => List.mem_takeWhile_imp hc
    · intro c hc
      have hhead := List.head?_dropWhile_not isDigit u
      rwa [Option.mem_def.mp hc] at hhead
    · rw [List.append_assoc, List.append_assoc, List.takeWhile_append_dropWhile, ← ht,
        List.takeWhile_append_dropWhile]

/-- A text that matches is read to the end of the format. -/
theorem Matches.scan (h : Matches fmt t vs) : scan fmt t = vs := by
  induction h with
  | nil => rfl
  | lit _ ih => simpa [Scanf.scan] using ih
  | unsigned hf hstop _ ih => simp only [Scanf.scan, hf.scanUnsigned hstop, ih]

theorem Matches.length_eq (h : Matches fmt t vs) : vs.length = conversions fmt := by
  induction h with
  | nil => rfl
  | lit _ ih => exact ih
  | unsigned _ _ _ ih => rw [List.length_cons, conversions, ih]

/-- When all conversions have been made the text matches. -/
theorem matches_of_scan (htight : Tight fmt) (hlen : (scan fmt t).length = conversions fmt) :
    Matches fmt t (scan fmt t) := by
  induction fmt generalizing t with
  | nil => exact .nil
  | cons d fmt ih =>
      cases d with
      | lit c =>
          obtain ⟨hpos, htight⟩ := htight
          cases t with
          | nil =>
              simp only [Scanf.scan, conversions, List.length_nil] at hlen
              omega
          | cons x t =>
              rw [conversions] at hlen
              by_cases hx : x = c
              · subst hx
                simp only [Scanf.scan, if_true] at hlen ⊢
                exact .lit (ih htight hlen)
              · simp only [Scanf.scan, if_neg hx, List.length_nil] at hlen
                omega
      | unsigned bits =>
          cases hscan : scanUnsigned t with
          | none => simp [Scanf.scan, hscan, conversions] at hlen
          | some p =>
              obtain ⟨v, rest⟩ := p
              obtain ⟨f, hf, hstop, rfl⟩ := field_of_scanUnsigned hscan
              simp only [Scanf.scan, hscan, conversions, List.length_cons, Nat.add_right_cancel_iff]
                at hlen ⊢
              exact .unsigned hf hstop (ih htight hlen)

/-- `strtol` of a number and its sign. A number that does not fit becomes the nearest one. -/
def strtol (minus : Bool) (v : ℕ) : ℤ := if minus then max (-2 ^ 63) (-v) else min (2 ^ 63 - 1) v

/-- `%d`: the number as an `int`, and what is left of the text. -/
def scanInt (t : List UInt8) : Option (ℤ × List UInt8) :=
  let (minus, t) := sign (t.dropWhile isSpace)
  let ds := t.takeWhile isDigit
  if ds = [] then none else some ((strtol minus (value ds)).bmod (2 ^ 32), t.dropWhile isDigit)

/-- `%s`: the next word, and what is left of the text. -/
def scanWord (t : List UInt8) : Option (List UInt8 × List UInt8) :=
  let t := t.dropWhile isSpace
  let w := t.takeWhile fun c => !isSpace c
  if w = [] then none else some (w, t.dropWhile fun c => !isSpace c)

/-- White space and digits. -/
theorem scanInt_digits {sp : List UInt8} (hsp : ∀ c ∈ sp, isSpace c) (hds : Digits ds)
    (hrest : Stops rest) (hlt : value ds < 2 ^ 31) :
    scanInt (sp ++ (ds ++ rest)) = some ((value ds : ℤ), rest) := by
  obtain ⟨htake, hdrop⟩ := span_digits hds.2 hrest
  have hspace : (sp ++ ([] ++ (ds ++ rest))).dropWhile isSpace = [] ++ (ds ++ rest) :=
    dropWhile_space hsp (.inl rfl) hds
  have hsign : sign ([] ++ (ds ++ rest)) = (decide (([] : List UInt8) = [45]), ds ++ rest) :=
    sign_append (.inl rfl) hds
  rw [List.nil_append] at hspace hsign
  have hvalue : (strtol false (value ds)).bmod (2 ^ 32) = value ds := by
    rw [strtol, if_neg Bool.false_ne_true, min_eq_right (by omega)]
    exact Int.bmod_eq_of_le (by omega) (by omega)
  have hminus : decide (([] : List UInt8) = [45]) = false := by decide
  simp only [scanInt, hspace, hsign, htake, hdrop, if_neg hds.1, hminus, hvalue]

/-- A word at the head of the text. -/
theorem scanWord_append {w : List UInt8} (hne : w ≠ []) (hw : ∀ c ∈ w, isSpace c = false)
    (hrest : ∀ c ∈ rest.head?, isSpace c) : scanWord (w ++ rest) = some (w, rest) := by
  have hnot : ∀ c ∈ w, (!isSpace c) = true := fun c hc => by rw [hw c hc]; rfl
  have hstart : (w ++ rest).dropWhile isSpace = w ++ rest := by
    obtain ⟨c, w', rfl⟩ := List.exists_cons_of_ne_nil hne
    rw [List.cons_append, List.dropWhile_cons_of_neg]
    rw [hw c List.mem_cons_self]
    exact Bool.false_ne_true
  have hend : rest.takeWhile (fun c => !isSpace c) = [] ∧
      rest.dropWhile (fun c => !isSpace c) = rest := by
    cases rest with
    | nil => simp
    | cons c rest =>
        have hc : isSpace c = true := hrest c (by simp)
        simp [hc]
  simp only [scanWord, hstart, List.takeWhile_append_of_pos hnot, hend.1, List.append_nil,
    List.dropWhile_append_of_pos hnot, hend.2, if_neg hne]

end Scan

end StdmlCollective.Scanf

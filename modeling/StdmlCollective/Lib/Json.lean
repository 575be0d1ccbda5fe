import Mathlib.Data.Int.Notation
import Mathlib.Data.List.Forall2
import StdmlCollective.Lib.Decimal

/-!
# Reading JSON

A reader for JSON text: objects, arrays, strings without escapes and integers, white space
wherever it may stand. A text that it accepts is well formed. `Reads t v` says that the reader
takes the text `t` for the value `v` wherever it meets it; the lemmas say this of integers, and of
arrays and objects whose parts are read.
-/

namespace StdmlCollective.Json

open Decimal (isDigit Numeral)

/-- JSON values; the members of an object in the order of the text. -/
inductive Value where
  | int (x : ℤ)
  | str (s : List UInt8)
  | arr (vs : List Value)
  | obj (ms : List (List UInt8 × Value))

/-- Space, tab, line feed and carriage return. -/
def isSpace (c : UInt8) : Bool := c = 32 || c = 9 || c = 10 || c = 13

def skipSpace (t : List UInt8) : List UInt8 := t.dropWhile isSpace

/-- A natural number at the head of the text. -/
def natural (t : List UInt8) : Option (ℕ × List UInt8) :=
  if Numeral (t.takeWhile isDigit) then
    some (Decimal.value (t.takeWhile isDigit), t.dropWhile isDigit)
  else none

/-- What follows an opening quote: the characters up to the closing one. -/
def string : List UInt8 → Option (List UInt8 × List UInt8)
  | [] => none
  | c :: t =>
      if c = 34 then some ([], t)
      else if c = 92 ∨ c.toNat < 32 then none
      else (string t).map fun p => (c :: p.1, p.2)

mutual

/-- A value at the head of the text, and what follows it; `f` bounds the depth of the calls. -/
def value : ℕ → List UInt8 → Option (Value × List UInt8)
  | 0, _ => none
  | f + 1, t =>
      match skipSpace t with
      | [] => none
      | c :: r =>
          if c = 34 then (string r).map fun p => (.str p.1, p.2)
          else if c = 91 then
            if (skipSpace r).head? = some 93 then some (.arr [], (skipSpace r).tail)
            else (elements f r).map fun p => (.arr p.1, p.2)
          else if c = 123 then
            if (skipSpace r).head? = some 125 then some (.obj [], (skipSpace r).tail)
            else (members f r).map fun p => (.obj p.1, p.2)
          else if c = 45 then (natural r).map fun p => (.int (-p.1), p.2)
          else (natural (c :: r)).map fun p => (.int p.1, p.2)

/-- The elements of an array up to the closing bracket. -/
def elements : ℕ → List UInt8 → Option (List Value × List UInt8)
  | 0, _ => none
  | f + 1, t => do
      let (v, r) ← value f t
      match skipSpace r with
      | 44 :: r => do
          let (vs, r) ← elements f r
          return (v :: vs, r)
      | 93 :: r => return ([v], r)
      | _ => none

/-- The members of an object up to the closing brace. -/
def members : ℕ → List UInt8 → Option (List (List UInt8 × Value) × List UInt8)
  | 0, _ => none
  | f + 1, t => do
      match skipSpace t with
      | 34 :: r => do
          let (k, r) ← string r
          match skipSpace r with
          | 58 :: r => do
              let (v, r) ← value f r
              match skipSpace r with
              | 44 :: r => do
                  let (ms, r) ← members f r
                  return ((k, v) :: ms, r)
              | 125 :: r => return ([(k, v)], r)
              | _ => none
          | _ => none
      | _ => none

end

/-- The value of a whole text. -/
def parse (t : List UInt8) : Option Value := do
  let (v, r) ← value (t.length + 1) t
  if skipSpace r = [] then return v else none

/-! ## What is read -/

/-- A text that does not go on with a digit. -/
def Ends (rest : List UInt8) : Prop := ∀ c ∈ rest.head?, isDigit c = false

/-- The reader takes `t` for `v`, whatever follows. -/
def Reads (t : List UInt8) (v : Value) : Prop :=
  ∀ f rest, t.length < f → Ends rest → value f (t ++ rest) = some (v, rest)

theorem Reads.parse {t : List UInt8} {v : Value} (h : Reads t v) : parse t = some v := by
  have hv := h (t.length + 1) [] (Nat.lt_succ_self _) (by simp [Ends])
  rw [List.append_nil] at hv
  simp [Json.parse, hv, skipSpace]

/-- A text is read as one value only. -/
theorem Reads.unique {t : List UInt8} {v v' : Value} (h : Reads t v) (h' : Reads t v') :
    v = v' := by
  have heq := h.parse
  rw [h'.parse] at heq
  exact (Option.some.inj heq).symm

theorem skipSpace_cons {c : UInt8} (t : List UInt8) (h : isSpace c = false) :
    skipSpace (c :: t) = c :: t := by
  simp [skipSpace, h]

theorem natural_append {ds rest : List UInt8} (hnum : Numeral ds) (hrest : Ends rest) :
    natural (ds ++ rest) = some (Decimal.value ds, rest) := by
  obtain ⟨htake, hdrop⟩ := Decimal.span_digits hnum.2.1 hrest
  simp [natural, htake, hdrop, hnum]

/-- A numeral is read as the number it stands for. -/
theorem reads_natural {ds : List UInt8} (hnum : Numeral ds) :
    Reads ds (.int (Decimal.value ds)) := by
  intro f rest hf hrest
  obtain ⟨f, rfl⟩ := Nat.exists_eq_add_of_lt (Nat.zero_lt_of_lt hf)
  obtain ⟨c, ds', rfl⟩ := List.exists_cons_of_ne_nil hnum.1
  have hc : isDigit c = true := hnum.2.1 c List.mem_cons_self
  have hne : ∀ b : UInt8, isDigit b = false → c ≠ b := by
    intro b hb heq
    rw [heq, hb] at hc
    exact absurd hc (by simp)
  have hspace : isSpace c = false := by
    simp [isSpace, hne 32 (by decide), hne 9 (by decide), hne 10 (by decide), hne 13 (by decide)]
  have hnat := natural_append hnum hrest
  rw [List.cons_append] at hnat
  rw [Nat.zero_add, value, List.cons_append, skipSpace_cons _ hspace]
  simp [hne 34 (by decide), hne 91 (by decide), hne 123 (by decide), hne 45 (by decide), hnat]

/-- A numeral behind a minus is read as the negative number. -/
theorem reads_negative {ds : List UInt8} (hnum : Numeral ds) :
    Reads (45 :: ds) (.int (-Decimal.value ds)) := by
  intro f rest hf hrest
  obtain ⟨f, rfl⟩ := Nat.exists_eq_add_of_lt (Nat.zero_lt_of_lt hf)
  rw [Nat.zero_add, value, List.cons_append, skipSpace_cons _ (by decide)]
  simp [natural_append hnum hrest]

/-- Every character stands for itself in a string. -/
def Plain (s : List UInt8) : Prop := ∀ c ∈ s, c ≠ 34 ∧ c ≠ 92 ∧ 32 ≤ c.toNat

instance (s : List UInt8) : Decidable (Plain s) :=
  List.decidableBAll (fun c : UInt8 => c ≠ 34 ∧ c ≠ 92 ∧ 32 ≤ c.toNat) s

theorem string_append {s : List UInt8} (hs : Plain s) (rest : List UInt8) :
    string (s ++ 34 :: rest) = some (s, rest) := by
  induction s with
  | nil => simp [string]
  | cons c s ih =>
      obtain ⟨h₁, h₂, h₃⟩ := hs c List.mem_cons_self
      have hlt : ¬c.toNat < 32 := by omega
      have htail := ih fun c' hc' => hs c' (List.mem_cons_of_mem c hc')
      simp [string, h₁, h₂, hlt, htail]

theorem ends_cons {c : UInt8} (rest : List UInt8) (h : isDigit c = false) : Ends (c :: rest) := by
  simp [Ends, h]

/-- The texts with commas between them. -/
def commas : List (List UInt8) → List UInt8
  | [] => []
  | [t] => t
  | t :: t' :: ts => t ++ 44 :: commas (t' :: ts)

private theorem elements_append {t : List UInt8} {v : Value} {ts : List (List UInt8)}
    {vs : List Value} (h : Reads t v) (hs : List.Forall₂ Reads ts vs) (f : ℕ) (rest : List UInt8)
    (hf : (commas (t :: ts)).length + 1 < f) :
    elements f (commas (t :: ts) ++ 93 :: rest) = some (v :: vs, rest) := by
  induction hs generalizing t v f with
  | nil =>
      obtain ⟨f, rfl⟩ := Nat.exists_eq_add_of_lt (Nat.zero_lt_of_lt hf)
      rw [commas] at hf
      have hv := h f (93 :: rest) (by omega) (ends_cons rest (by decide))
      simp [elements, commas, hv, skipSpace_cons rest (show isSpace 93 = false by decide)]
  | @cons t' v' ts vs h' _ ih =>
      obtain ⟨f, rfl⟩ := Nat.exists_eq_add_of_lt (Nat.zero_lt_of_lt hf)
      rw [commas, List.length_append, List.length_cons] at hf
      have htail := ih h' f (by omega)
      have hv := h f (44 :: (commas (t' :: ts) ++ 93 :: rest)) (by omega)
        (ends_cons _ (by decide))
      simp [elements, commas, hv, htail, skipSpace_cons _ (show isSpace 44 = false by decide)]

/-- No value starts with a closing bracket. -/
private theorem Reads.head_ne {t : List UInt8} {v : Value} (h : Reads t v) {rest : List UInt8}
    (hrest : Ends rest) : (skipSpace (t ++ rest)).head? ≠ some 93 := by
  intro hhead
  have hv := h (t.length + 1) rest (Nat.lt_succ_self _) hrest
  rw [value] at hv
  cases hskip : skipSpace (t ++ rest) with
  | nil => simp [hskip] at hhead
  | cons c r =>
      rw [hskip, List.head?_cons, Option.some.injEq] at hhead
      subst hhead
      have hdigit : isDigit 93 = false := by decide
      simp [hskip, natural, Numeral, hdigit] at hv

/-- An array of texts that are read. -/
theorem reads_arr {ts : List (List UInt8)} {vs : List Value} (h : List.Forall₂ Reads ts vs) :
    Reads (91 :: (commas ts ++ [93])) (.arr vs) := by
  intro f rest hf hrest
  obtain ⟨f, rfl⟩ := Nat.exists_eq_add_of_lt (Nat.zero_lt_of_lt hf)
  rw [Nat.zero_add, value, List.cons_append, skipSpace_cons _ (by decide)]
  cases h with
  | nil => simp [commas, skipSpace_cons rest (show isSpace 93 = false by decide)]
  | @cons t v ts vs h hs =>
      have hlen : (commas (t :: ts)).length + 1 < f := by
        simp only [List.length_cons, List.length_append, List.length_nil] at hf
        omega
      have helems := elements_append h hs f rest hlen
      have hends : Ends ((commas (t :: ts)).drop t.length ++ 93 :: rest) := by
        cases ts with
        | nil => simpa [commas] using ends_cons rest (show isDigit 93 = false by decide)
        | cons t' ts => simpa [commas] using ends_cons _ (show isDigit 44 = false by decide)
      have hsplit : commas (t :: ts) = t ++ (commas (t :: ts)).drop t.length := by
        cases ts with
        | nil => simp [commas]
        | cons t' ts => simp [commas]
      have hne := h.head_ne hends
      rw [← List.append_assoc, ← hsplit] at hne
      simp [hne, helems]

/-- The text of a member of an object. -/
def member (m : List UInt8 × List UInt8) : List UInt8 := 34 :: (m.1 ++ 34 :: 58 :: m.2)

/-- A member is read: its key stands for itself, its value is read. -/
def ReadsMember (m : List UInt8 × List UInt8) (v : List UInt8 × Value) : Prop :=
  Plain m.1 ∧ m.1 = v.1 ∧ Reads m.2 v.2

private theorem members_append {m : List UInt8 × List UInt8} {v : List UInt8 × Value}
    {ms : List (List UInt8 × List UInt8)} {vs : List (List UInt8 × Value)} (h : ReadsMember m v)
    (hs : List.Forall₂ ReadsMember ms vs) (f : ℕ) (rest : List UInt8)
    (hf : (commas ((m :: ms).map member)).length + 1 < f) :
    members f (commas ((m :: ms).map member) ++ 125 :: rest) = some (v :: vs, rest) := by
  have hquote : isSpace 34 = false := by decide
  have hcolon : isSpace 58 = false := by decide
  have hcomma : isSpace 44 = false := by decide
  have hbrace : isSpace 125 = false := by decide
  induction hs generalizing m v f with
  | nil =>
      obtain ⟨k, v⟩ := v
      obtain ⟨hplain, rfl, hread⟩ := h
      obtain ⟨f, rfl⟩ := Nat.exists_eq_add_of_lt (Nat.zero_lt_of_lt hf)
      simp only [List.map_cons, List.map_nil, commas, member, List.length_cons,
        List.length_append] at hf
      have hv := hread f (125 :: rest) (by omega) (ends_cons rest (by decide))
      simp [members, commas, member, skipSpace_cons, hquote, hcolon, hbrace,
        string_append hplain, hv]
  | @cons m' v' ms vs h' _ ih =>
      obtain ⟨k, v⟩ := v
      obtain ⟨hplain, rfl, hread⟩ := h
      obtain ⟨f, rfl⟩ := Nat.exists_eq_add_of_lt (Nat.zero_lt_of_lt hf)
      have hlen := hf
      simp only [List.map_cons, commas, List.length_append, List.length_cons, member] at hlen
      have htail := ih h' f (by simp only [List.map_cons]; rw [member]; omega)
      rw [List.map_cons] at htail
      have hv := hread f (44 :: (commas (member m' :: ms.map member) ++ 125 :: rest)) (by omega)
        (ends_cons _ (by decide))
      simp only [List.map_cons, commas]
      rw [show member m = 34 :: (m.1 ++ 34 :: 58 :: m.2) from rfl]
      simp [members, skipSpace_cons, hquote, hcolon, hcomma, string_append hplain, hv, htail]

/-- An object whose members are read. -/
theorem reads_obj {ms : List (List UInt8 × List UInt8)} {vs : List (List UInt8 × Value)}
    (h : List.Forall₂ ReadsMember ms vs) :
    Reads (123 :: (commas (ms.map member) ++ [125])) (.obj vs) := by
  intro f rest hf hrest
  obtain ⟨f, rfl⟩ := Nat.exists_eq_add_of_lt (Nat.zero_lt_of_lt hf)
  rw [Nat.zero_add, value, List.cons_append, skipSpace_cons _ (by decide)]
  cases h with
  | nil => simp [commas, skipSpace_cons rest (show isSpace 125 = false by decide)]
  | @cons m v ms vs h hs =>
      have hlen : (commas ((m :: ms).map member)).length + 1 < f := by
        simp only [List.length_cons, List.length_append, List.length_nil] at hf
        omega
      have hmembers := members_append h hs f rest hlen
      have hhead : ∀ r, (skipSpace (commas ((m :: ms).map member) ++ r)).head? = some 34 := by
        intro r
        cases ms with
        | nil => simp [commas, member, skipSpace_cons, show isSpace 34 = false by decide]
        | cons m' ms => simp [commas, member, skipSpace_cons, show isSpace 34 = false by decide]
      rw [List.map_cons] at hmembers hhead
      simp [hhead, hmembers]

end StdmlCollective.Json

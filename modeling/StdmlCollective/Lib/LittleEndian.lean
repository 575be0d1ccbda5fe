import Mathlib.Algebra.GroupWithZero.Nat
import Mathlib.Data.List.Basic
import Mathlib.Tactic.Ring

/-!
# Little-endian numbers and arrays of them

`leBytes k v` is the `k`-byte little-endian representation of `v` modulo `256 ^ k` and
`leNat` reads one back. An array of `count` numbers of `s` bytes each is a byte string of
length `count * s`; `elem s b i` is its entry `i` and `ofElems s count f` the array with
entries `f i`.
-/

namespace StdmlCollective.LittleEndian

/-- The `k` bytes of `v`, least significant first. -/
def leBytes : ℕ → ℕ → List UInt8
  | 0, _ => []
  | k + 1, v => UInt8.ofNat v :: leBytes k (v / 256)

/-- The number a byte string stands for, least significant byte first. -/
def leNat : List UInt8 → ℕ
  | [] => 0
  | b :: bs => b.toNat + 256 * leNat bs

@[simp] theorem length_leBytes (k v : ℕ) : (leBytes k v).length = k := by
  induction k generalizing v with
  | zero => rfl
  | succ k ih => simp [leBytes, ih]

theorem leNat_leBytes (k v : ℕ) : leNat (leBytes k v) = v % 256 ^ k := by
  induction k generalizing v with
  | zero => simp [leBytes, leNat, Nat.mod_one]
  | succ k ih =>
      have hb : (UInt8.ofNat v).toNat = v % 256 := by simp
      rw [leBytes, leNat, ih, hb, pow_succ', Nat.mod_mul]

theorem leNat_lt (bs : List UInt8) : leNat bs < 256 ^ bs.length := by
  induction bs with
  | nil => simp [leNat]
  | cons b bs ih =>
      have hb := b.toNat_lt
      rw [leNat, List.length_cons, pow_succ']
      omega

theorem leBytes_leNat (bs : List UInt8) : leBytes bs.length (leNat bs) = bs := by
  induction bs with
  | nil => rfl
  | cons b bs ih =>
      have hb := b.toNat_lt
      have h₁ : UInt8.ofNat (leNat (b :: bs)) = b := by
        apply UInt8.toNat_inj.mp
        simp [leNat]
      have h₂ : leNat (b :: bs) / 256 = leNat bs := by
        rw [leNat]
        omega
      rw [List.length_cons, leBytes, h₁, h₂, ih]

/-! ## Arrays -/

/-- The bytes of entry `i`. -/
def entry (s : ℕ) (b : List UInt8) (i : ℕ) : List UInt8 := (b.drop (i * s)).take s

/-- Entry `i` of an array of `s`-byte numbers. -/
def elem (s : ℕ) (b : List UInt8) (i : ℕ) : ℕ := leNat (entry s b i)

theorem elem_lt (s : ℕ) (b : List UInt8) (i : ℕ) : elem s b i < 256 ^ s := by
  have hlen : (entry s b i).length ≤ s := List.length_take_le _ _
  exact (leNat_lt _).trans_le (Nat.pow_le_pow_right (by omega) hlen)

/-- The array of `s`-byte numbers with the entries `f 0, …, f (count - 1)`. -/
def ofElems (s count : ℕ) (f : ℕ → ℕ) : List UInt8 :=
  (List.range count).flatMap fun i => leBytes s (f i)

@[simp] theorem length_ofElems (s count : ℕ) (f : ℕ → ℕ) :
    (ofElems s count f).length = count * s := by
  simp [ofElems]

theorem ofElems_succ (s count : ℕ) (f : ℕ → ℕ) :
    ofElems s (count + 1) f = ofElems s count f ++ leBytes s (f count) := by
  simp [ofElems, List.range_succ]

/-- An array in two parts. -/
theorem ofElems_add (s m n : ℕ) (f : ℕ → ℕ) :
    ofElems s (m + n) f = ofElems s m f ++ ofElems s n fun i => f (m + i) := by
  induction n with
  | zero => simp [ofElems]
  | succ n ih => rw [← Nat.add_assoc, ofElems_succ, ih, ofElems_succ, List.append_assoc]

theorem ofElems_congr {s count : ℕ} {f g : ℕ → ℕ} (h : ∀ i < count, f i = g i) :
    ofElems s count f = ofElems s count g := by
  induction count with
  | zero => rfl
  | succ n ih =>
      rw [ofElems_succ, ofElems_succ, ih fun i hi => h i (by omega), h n (by omega)]

/-- The entries from `m` on. -/
theorem drop_ofElems (s m n : ℕ) (f : ℕ → ℕ) :
    (ofElems s (m + n) f).drop (m * s) = ofElems s n fun i => f (m + i) := by
  rw [ofElems_add, List.drop_left' (length_ofElems s m f)]

/-- The first `m` entries. -/
theorem take_ofElems (s m n : ℕ) (f : ℕ → ℕ) :
    (ofElems s (m + n) f).take (m * s) = ofElems s m f := by
  rw [ofElems_add, List.take_left' (length_ofElems s m f)]

theorem elem_ofElems {s count i : ℕ} (f : ℕ → ℕ) (hi : i < count) :
    elem s (ofElems s count f) i = f i % 256 ^ s := by
  obtain ⟨n, rfl⟩ : ∃ n, count = i + (1 + n) := ⟨count - i - 1, by omega⟩
  rw [elem, entry, drop_ofElems]
  have h := take_ofElems s 1 n fun j => f (i + j)
  rw [Nat.one_mul] at h
  rw [h, ofElems_succ]
  simp [ofElems, leNat_leBytes]

/-- An array is the array of its entries. -/
theorem ofElems_elem {s count : ℕ} {b : List UInt8} (h : b.length = count * s) :
    ofElems s count (elem s b) = b := by
  induction count generalizing b with
  | zero => simpa [ofElems, eq_comm] using h
  | succ n ih =>
      rw [Nat.succ_mul] at h
      have htake : (b.take (n * s)).length = n * s := by rw [List.length_take]; omega
      have hlast : (b.drop (n * s)).length = s := by rw [List.length_drop]; omega
      have helem : ∀ i < n, elem s (b.take (n * s)) i = elem s b i := by
        intro i hi
        have hle : i * s + s ≤ n * s := by rw [← Nat.succ_mul]; exact Nat.mul_le_mul_right s hi
        rw [elem, elem, entry, entry, List.drop_take, List.take_take, Nat.min_eq_left (by omega)]
      have hen : leBytes s (elem s b n) = b.drop (n * s) := by
        rw [elem, entry, List.take_of_length_le hlast.le]
        have := leBytes_leNat (b.drop (n * s))
        rwa [hlast] at this
      rw [ofElems_succ, ← ofElems_congr helem, ih htake, hen, List.take_append_drop]

end StdmlCollective.LittleEndian

import Mathlib.Data.List.Basic

/-!
# Packed records

A record type with a fixed size in bytes, and arrays of such records without padding, as
`memcpy` copies them.
-/

namespace StdmlCollective.Packed

/-- A type whose values are the byte strings of one length. -/
structure Record (α : Type) where
  size : ℕ
  encode : α → List UInt8
  decode : List UInt8 → α
  length_encode : ∀ a, (encode a).length = size
  decode_encode : ∀ a, decode (encode a) = a
  encode_decode : ∀ b, b.length = size → encode (decode b) = b

namespace Record

variable {α : Type} (r : Record α)

/-- The bytes of an array. -/
def pack (xs : List α) : List UInt8 := xs.flatMap r.encode

/-- The first `k` records that start at the head of `b`. -/
def unpack : ℕ → List UInt8 → List α
  | 0, _ => []
  | k + 1, b => r.decode (b.take r.size) :: unpack k (b.drop r.size)

@[simp] theorem pack_nil : r.pack [] = [] := rfl

@[simp] theorem pack_cons (x : α) (xs : List α) : r.pack (x :: xs) = r.encode x ++ r.pack xs := by
  simp [pack]

@[simp] theorem length_pack (xs : List α) : (r.pack xs).length = xs.length * r.size := by
  induction xs with
  | nil => simp
  | cons x xs ih => rw [pack_cons, List.length_append, r.length_encode, ih, List.length_cons,
      Nat.succ_mul, Nat.add_comm]

@[simp] theorem length_unpack (k : ℕ) (b : List UInt8) : (r.unpack k b).length = k := by
  induction k generalizing b with
  | zero => rfl
  | succ k ih => rw [unpack, List.length_cons, ih]

/-- What was packed is unpacked, whatever follows. -/
theorem unpack_pack (xs : List α) (rest : List UInt8) :
    r.unpack xs.length (r.pack xs ++ rest) = xs := by
  induction xs with
  | nil => rfl
  | cons x xs ih =>
      rw [List.length_cons, unpack, pack_cons, List.append_assoc,
        List.take_left' (r.length_encode x), List.drop_left' (r.length_encode x),
        r.decode_encode, ih]

/-- What was unpacked packs to the bytes it was read from. -/
theorem pack_unpack {k : ℕ} {b : List UInt8} (h : k * r.size ≤ b.length) :
    r.pack (r.unpack k b) = b.take (k * r.size) := by
  induction k generalizing b with
  | zero => simp [unpack]
  | succ k ih =>
      rw [Nat.succ_mul] at h
      have hhead : (b.take r.size).length = r.size := by rw [List.length_take]; omega
      have htail : k * r.size ≤ (b.drop r.size).length := by rw [List.length_drop]; omega
      rw [unpack, pack_cons, r.encode_decode _ hhead, ih htail, Nat.succ_mul, Nat.add_comm,
        List.take_add]

/-- Only the bytes of the records are looked at. -/
theorem unpack_take (k : ℕ) (b : List UInt8) : r.unpack k (b.take (k * r.size)) = r.unpack k b := by
  induction k generalizing b with
  | zero => rfl
  | succ k ih =>
      have hmin : min r.size ((k + 1) * r.size) = r.size := by
        rw [Nat.succ_mul]
        omega
      have hsub : (k + 1) * r.size - r.size = k * r.size := by rw [Nat.succ_mul]; omega
      rw [unpack, unpack, List.take_take, hmin, List.drop_take, hsub, ih]

end Record

/-! ## Reads from memory

A vector is the head of a piece of memory, and a read from it may go beyond its end. -/

/-- `len` bytes are read from offset `off` on. The state are the indices read so far. -/
def readAt (mem : ℕ → UInt8) (off len : ℕ) : StateM (List ℕ) (List UInt8) := fun seen =>
  ((List.range len).map fun i => mem (off + i), seen ++ (List.range len).map fun i => off + i)

/-- The memory begins with `bs`. -/
def Backs (mem : ℕ → UInt8) (bs : List UInt8) : Prop := ∀ i, ∀ h : i < bs.length, mem i = bs[i]

/-- `bs` with something behind it. -/
theorem backs_getD (bs : List UInt8) (behind : ℕ → UInt8) :
    Backs (fun i => bs.getD i (behind i)) bs := by
  intro i hi
  simp [hi]

/-- A read inside the vector. -/
theorem Backs.readAt {mem : ℕ → UInt8} {bs : List UInt8} (h : Backs mem bs) {off len : ℕ}
    (hle : off + len ≤ bs.length) :
    (List.range len).map (fun i => mem (off + i)) = (bs.drop off).take len := by
  apply List.ext_getElem
  · simp
    omega
  · intro i hi _
    have hlen : i < len := by simpa using hi
    simpa using h (off + i) (by omega)

end StdmlCollective.Packed

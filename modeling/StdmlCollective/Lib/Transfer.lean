import Mathlib.Data.List.Basic
import StdmlCollective.Lib.Memory

/-!
# Moving bytes piece by piece

A buffer is filled from a stream, or emptied into one, in pieces that lie side by side. What comes
out does not depend on the pieces (`move_move`): the bytes go through in order, each of them once,
and no other address is touched (`Moved`).
-/

namespace StdmlCollective.Transfer

open Memory

/-- From the stream to memory, or from memory to the stream. -/
inductive Direction where
  | read
  | write
deriving DecidableEq, Repr

/-- Memory, the bytes that have gone through the stream and the addresses that have been read or
written for them, in this order. -/
structure State where
  mem : Mem
  passed : List UInt8
  touched : List ℕ

/-- Move `len` bytes between the stream and the address `a`. The byte `i` that comes from the stream
is `stream i`. -/
def move (d : Direction) (stream : ℕ → UInt8) (a len : ℕ) (s : State) : State :=
  match d with
  | .read =>
      let bytes := read s.passed.length len stream
      ⟨write a bytes s.mem, s.passed ++ bytes, s.touched ++ List.range' a len⟩
  | .write => ⟨s.mem, s.passed ++ read a len s.mem, s.touched ++ List.range' a len⟩

variable {d : Direction} {stream : ℕ → UInt8} {a k l : ℕ} {s : State}

@[simp] theorem read_zero (a : ℕ) (m : Mem) : read a 0 m = [] := rfl

@[simp] theorem move_zero : move d stream a 0 s = s := by
  cases d <;> simp [move]

@[simp] theorem touched_move : (move d stream a l s).touched = s.touched ++ List.range' a l := by
  cases d <;> rfl

@[simp] theorem length_passed_move :
    (move d stream a l s).passed.length = s.passed.length + l := by
  cases d <;> simp [move]

/-- Two pieces side by side are one. -/
theorem move_move : move d stream (a + k) l (move d stream a k s) = move d stream a (k + l) s := by
  cases d with
  | read =>
      simp only [move, List.length_append, length_read, read_add, List.append_assoc,
        List.range'_append_1, write_append]
  | write => simp only [move, read_add, List.append_assoc, List.range'_append_1]

/-- `len` bytes have been moved between the stream and the address `a`: in order, at the addresses
from `a` on, each once, and nothing else. -/
structure Moved (d : Direction) (stream : ℕ → UInt8) (a len : ℕ) (s s' : State) : Prop where
  touched : s'.touched = s.touched ++ List.range' a len
  passed : s'.passed = s.passed ++ read a len s'.mem
  bytes : d = .read → ∀ i < len, s'.mem (a + i) = stream (s.passed.length + i)
  kept : d = .write → s'.mem = s.mem
  outside : ∀ x, x < a ∨ a + len ≤ x → s'.mem x = s.mem x

theorem moved_move (d : Direction) (stream : ℕ → UInt8) (a len : ℕ) (s : State) :
    Moved d stream a len s (move d stream a len s) := by
  cases d with
  | write =>
      refine ⟨rfl, rfl, ?_, fun _ => rfl, fun _ _ => rfl⟩
      simp
  | read =>
      have hlen : (read s.passed.length len stream).length = len := length_read ..
      refine ⟨rfl, ?_, ?_, ?_, ?_⟩
      · have hread := read_write a (read s.passed.length len stream) s.mem
        rw [hlen] at hread
        simp [move, hread]
      · intro _ i hi
        rw [← hlen] at hi
        simp only [move]
        rw [write_inside _ hi, getElem_read]
      · simp
      · rintro x (hx | hx)
        · exact write_of_lt _ _ hx
        · exact write_of_ge _ (by rwa [hlen])

end StdmlCollective.Transfer

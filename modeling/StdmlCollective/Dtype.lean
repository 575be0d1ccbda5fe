import Mathlib.Data.List.Perm.Basic
import Mathlib.Order.Basic
import StdmlCollective.Lib.LittleEndian

/-!
# Element types and reduce operations

`dtype`, `reduce_op` and the element operation `reduce` applies at every index. Elements
are little-endian numbers of `dtypeSize` bytes. Integer arithmetic wraps at the width of
the type, and on integer types every operation is commutative and associative, which is
what makes the result of a reduction independent of the order of arrival.
-/

namespace StdmlCollective

open LittleEndian

/-- `enum dtype`, without `bf16` and `f16`, for which `dtype_size` throws. -/
inductive Dtype where
  | i8 | i16 | i32 | i64
  | u8 | u16 | u32 | u64
  | f32 | f64
deriving DecidableEq, Repr

/-- `dtype_size`. -/
def dtypeSize : Dtype → ℕ
  | .i8 | .u8 => 1
  | .i16 | .u16 => 2
  | .i32 | .u32 | .f32 => 4
  | .i64 | .u64 | .f64 => 8

/-- `enum reduce_op`. -/
inductive ReduceOp where
  | sum | min | max | prod | bitXor
deriving DecidableEq, Repr

/-- The integer types. -/
def Dtype.isInt : Dtype → Bool
  | .f32 | .f64 => false
  | _ => true

/-- The integer types with a sign. -/
def Dtype.isSigned : Dtype → Bool
  | .i8 | .i16 | .i32 | .i64 => true
  | _ => false

theorem dtypeSize_pos (dt : Dtype) : 0 < dtypeSize dt := by cases dt <;> decide

theorem dtypeSize_le (dt : Dtype) : dtypeSize dt ≤ 8 := by cases dt <;> decide

/-- `x < y` on a `w`-bit integer type. -/
def intLt {w : ℕ} (signed : Bool) (x y : BitVec w) : Bool :=
  if signed then x.slt y else x.ult y

/-- `__workspace::call_as<T>` at one index, for an integer type `T` of `w` bits. The order
of the arguments of `<` is that of `std::min` and `std::max`. -/
def intOp {w : ℕ} (signed : Bool) : ReduceOp → BitVec w → BitVec w → BitVec w
  | .sum, x, y => x + y
  | .min, x, y => if intLt signed y x then y else x
  | .max, x, y => if intLt signed x y then y else x
  | .prod, x, y => x * y
  | .bitXor, x, y => x ^^^ y

/-- `__workspace::call_as<float>` at one index; `std_xor<float>` throws. -/
def floatOp : ReduceOp → Option (Float32 → Float32 → Float32)
  | .sum => some fun x y => x + y
  | .min => some fun x y => if y < x then y else x
  | .max => some fun x y => if x < y then y else x
  | .prod => some fun x y => x * y
  | .bitXor => none

/-- `__workspace::call_as<double>` at one index; `std_xor<double>` throws. -/
def doubleOp : ReduceOp → Option (Float → Float → Float)
  | .sum => some fun x y => x + y
  | .min => some fun x y => if y < x then y else x
  | .max => some fun x y => if x < y then y else x
  | .prod => some fun x y => x * y
  | .bitXor => none

/-- An integer operation on elements as numbers. -/
def intElemOp (dt : Dtype) (op : ReduceOp) (x y : ℕ) : ℕ :=
  (intOp dt.isSigned op (BitVec.ofNat (8 * dtypeSize dt) x) (BitVec.ofNat _ y)).toNat

/-- The operation `reduce` applies at every index, on elements as numbers; `none` when it
throws. -/
def elemOp (dt : Dtype) (op : ReduceOp) : Option (ℕ → ℕ → ℕ) :=
  match dt with
  | .f32 => (floatOp op).map fun f x y =>
      (f (Float32.ofBits (UInt32.ofNat x)) (Float32.ofBits (UInt32.ofNat y))).toBits.toNat
  | .f64 => (doubleOp op).map fun f x y =>
      (f (Float.ofBits (UInt64.ofNat x)) (Float.ofBits (UInt64.ofNat y))).toBits.toNat
  | dt => some (intElemOp dt op)

theorem elemOp_of_isInt {dt : Dtype} (h : dt.isInt) (op : ReduceOp) :
    elemOp dt op = some (intElemOp dt op) := by
  cases dt <;> simp_all [Dtype.isInt, elemOp]

/-! ## Integer operations commute and associate -/

/-- What an integer stands for. -/
def intKey {w : ℕ} (signed : Bool) (x : BitVec w) : ℤ := if signed then x.toInt else x.toNat

theorem intKey_injective {w : ℕ} (signed : Bool) :
    Function.Injective (intKey signed : BitVec w → ℤ) := by
  intro x y h
  cases signed with
  | false => exact BitVec.eq_of_toNat_eq (by simpa [intKey] using h)
  | true => exact BitVec.eq_of_toInt_eq (by simpa [intKey] using h)

theorem intLt_iff {w : ℕ} (signed : Bool) (x y : BitVec w) :
    intLt signed x y = true ↔ intKey signed x < intKey signed y := by
  cases signed with
  | false => simp [intLt, intKey, BitVec.ult_iff_lt, BitVec.lt_def]
  | true => simp [intLt, intKey, BitVec.slt_iff_toInt_lt]

theorem intOp_comm {w : ℕ} (signed : Bool) (op : ReduceOp) (x y : BitVec w) :
    intOp signed op x y = intOp signed op y x := by
  have hinj := @intKey_injective w signed x y
  cases op with
  | sum => exact BitVec.add_comm x y
  | prod => exact BitVec.mul_comm x y
  | bitXor => exact BitVec.xor_comm x y
  | min | max =>
      simp only [intOp, intLt_iff]
      split <;> split
      · omega
      · rfl
      · rfl
      · exact hinj (by omega)

theorem intOp_assoc {w : ℕ} (signed : Bool) (op : ReduceOp) (x y z : BitVec w) :
    intOp signed op (intOp signed op x y) z = intOp signed op x (intOp signed op y z) := by
  cases op with
  | sum => exact BitVec.add_assoc x y z
  | prod => exact BitVec.mul_assoc x y z
  | bitXor => exact BitVec.xor_assoc x y z
  | min | max =>
      simp only [intOp, intLt_iff]
      split <;> split <;> (try split) <;> first | rfl | omega

instance (dt : Dtype) (op : ReduceOp) : Std.Commutative (intElemOp dt op) where
  comm x y := by rw [intElemOp, intElemOp, intOp_comm]

instance (dt : Dtype) (op : ReduceOp) : Std.Associative (intElemOp dt op) where
  assoc x y z := by simp [intElemOp, intOp_assoc]

theorem intElemOp_lt (dt : Dtype) (op : ReduceOp) (x y : ℕ) :
    intElemOp dt op x y < 256 ^ dtypeSize dt := by
  have h := (intOp dt.isSigned op (BitVec.ofNat (8 * dtypeSize dt) x) (BitVec.ofNat _ y)).isLt
  rw [pow_mul] at h
  exact h

end StdmlCollective

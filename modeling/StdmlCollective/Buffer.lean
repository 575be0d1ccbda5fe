import StdmlCollective.Dtype
import StdmlCollective.Lib.Decimal
import StdmlCollective.Lib.Memory
import StdmlCollective.Network

/-!
# Workspaces

`workspace`, its slices, and `workspace_state`: the accumulator of a reduction, whose
`recv_count_` says whether the value so far is in the `recv` buffer or still in the `send`
buffer. `recv_count_` is a `uint32_t`.
-/

namespace StdmlCollective

open LittleEndian
open Memory (Mem Apart)

/-! ## Names -/

/-- `std::to_string` of a `size_t`. -/
def toDecimal (n : ℕ) : Bytes :=
  if n = 0 then [48] else ((Nat.digits 10 n).map fun d => UInt8.ofNat (48 + d)).reverse

theorem numeral_toDecimal (n : ℕ) : Decimal.Numeral (toDecimal n) := by
  unfold toDecimal
  split
  · decide
  · next h => exact Decimal.numeral_digits h

theorem value_toDecimal (n : ℕ) : Decimal.value (toDecimal n) = n := by
  unfold toDecimal
  split
  · next h =>
    rw [h]
    rfl
  · have hlt : ∀ d ∈ Nat.digits 10 n, d < 10 := fun d hd => Nat.digits_lt_base (by omega) hd
    exact (Decimal.value_digits hlt).trans (Nat.ofDigits_digits 10 n)

theorem toDecimal_injective : Function.Injective toDecimal := by
  intro m n h
  rw [← value_toDecimal m, h, value_toDecimal]

theorem not_mem_toDecimal (n : ℕ) {c : UInt8} (hc : Decimal.isDigit c = false) :
    c ∉ toDecimal n := by
  intro hmem
  have hdigit := (numeral_toDecimal n).2.1 c hmem
  rw [hc] at hdigit
  exact absurd hdigit (by simp)

theorem nulFree_toDecimal (n : ℕ) : NulFree (toDecimal n) := by
  intro c hc hz
  rw [hz] at hc
  exact not_mem_toDecimal n (by decide) hc

/-- The name of a slice: `"part::" + name + "[" + i + ":" + j + "]"`. -/
def partName (name : Bytes) (i j : ℕ) : Bytes :=
  [112, 97, 114, 116, 58, 58] ++ name ++ [91] ++ toDecimal i ++ [58] ++ toDecimal j ++ [93]

theorem nulFree_partName {name : Bytes} (h : NulFree name) (i j : ℕ) :
    NulFree (partName name i j) := by
  intro c hc
  simp only [partName, List.mem_append] at hc
  rcases hc with (((((hc | hc) | hc) | hc) | hc) | hc) | hc
  · exact (show NulFree _ by decide) c hc
  · exact h c hc
  · exact (show NulFree _ by decide) c hc
  · exact nulFree_toDecimal i c hc
  · exact (show NulFree _ by decide) c hc
  · exact nulFree_toDecimal j c hc
  · exact (show NulFree _ by decide) c hc

/-- Two strings that agree are cut alike at the last occurrence of `x`. -/
private theorem append_cons_inj_right {x : UInt8} {l₁ l₂ d₁ d₂ : Bytes} (h₁ : x ∉ d₁) (h₂ : x ∉ d₂)
    (h : l₁ ++ x :: d₁ = l₂ ++ x :: d₂) : l₁ = l₂ ∧ d₁ = d₂ := by
  rcases List.append_eq_append_iff.mp h with ⟨a, hl, hd⟩ | ⟨a, hl, hd⟩
  · cases a with
    | nil => simp_all
    | cons y a => simp_all
  · cases a with
    | nil => simp_all
    | cons y a => simp_all

/-- The name of a slice says which slice of which workspace it is. -/
theorem partName_inj {name name' : Bytes} {i j i' j' : ℕ}
    (h : partName name i j = partName name' i' j') : name = name' ∧ i = i' ∧ j = j' := by
  have hcolon : ∀ k, (58 : UInt8) ∉ toDecimal k := fun k => not_mem_toDecimal k (by decide)
  have hbracket : ∀ k, (91 : UInt8) ∉ toDecimal k := fun k => not_mem_toDecimal k (by decide)
  have h₁ : (name ++ 91 :: toDecimal i) ++ 58 :: toDecimal j =
      (name' ++ 91 :: toDecimal i') ++ 58 :: toDecimal j' := by
    have htail := List.append_cancel_right h
    simpa using htail
  obtain ⟨h₂, hj⟩ := append_cons_inj_right (hcolon j) (hcolon j') h₁
  obtain ⟨hname, hi⟩ := append_cons_inj_right (hbracket i) (hbracket i') h₂
  exact ⟨hname, toDecimal_injective hi, toDecimal_injective hj⟩

/-! ## Partition -/

/-- The loop of `even_partition`: `k` intervals are left, the next one is number `j` and
starts at `off`. -/
def evenPartitionFrom (q r : ℕ) : ℕ → ℕ → ℕ → List (ℕ × ℕ)
  | 0, _, _ => []
  | k + 1, j, off =>
      let size := if j < r then q + 1 else q
      (off, off + size) :: evenPartitionFrom q r k (j + 1) (off + size)

/-- `even_partition`: `k` intervals of almost equal length. -/
def evenPartition (b e k : ℕ) : List (ℕ × ℕ) :=
  evenPartitionFrom ((e - b) / k) ((e - b) - k * ((e - b) / k)) k 0 b

/-- The intervals follow one another from `b` to `e`. -/
inductive Covers : ℕ → ℕ → List (ℕ × ℕ) → Prop where
  | nil {b : ℕ} : Covers b b []
  | cons {b c e : ℕ} {l : List (ℕ × ℕ)} : b ≤ c → Covers c e l → Covers b e ((b, c) :: l)

theorem Covers.le {b e : ℕ} {l : List (ℕ × ℕ)} (h : Covers b e l) : b ≤ e := by
  induction h with
  | nil => exact le_rfl
  | cons hbc _ ih => exact hbc.trans ih

theorem Covers.mem {b e : ℕ} {l : List (ℕ × ℕ)} (h : Covers b e l) {i : ℕ × ℕ} (hi : i ∈ l) :
    i.1 ≤ i.2 ∧ i.2 ≤ e := by
  induction h with
  | nil => simp at hi
  | cons hbc hl ih =>
      rcases List.mem_cons.mp hi with rfl | hi
      · exact ⟨hbc, hl.le⟩
      · exact ih hi

theorem evenPartitionFrom_covers (q r k j off : ℕ) :
    Covers off (off + (k * q + (min r (j + k) - min r j))) (evenPartitionFrom q r k j off) := by
  induction k generalizing j off with
  | zero =>
      simp only [evenPartitionFrom, Nat.zero_mul, Nat.add_zero, Nat.sub_self]
      exact .nil
  | succ k ih =>
      have h := ih (j + 1) (off + if j < r then q + 1 else q)
      rw [evenPartitionFrom]
      refine .cons (by omega) ?_
      convert h using 1
      split <;> grind

/-- The intervals cover the whole. -/
theorem evenPartition_covers {b e k : ℕ} (h : b ≤ e) (hk : 0 < k) :
    Covers b e (evenPartition b e k) := by
  have hc := evenPartitionFrom_covers ((e - b) / k) ((e - b) - k * ((e - b) / k)) k 0 b
  have hdiv := Nat.div_add_mod (e - b) k
  have hmod := Nat.mod_lt (e - b) hk
  unfold evenPartition
  convert hc using 1
  omega

theorem length_evenPartitionFrom_le {q r k j off : ℕ} {i : ℕ × ℕ}
    (h : i ∈ evenPartitionFrom q r k j off) : i.2 - i.1 ≤ q + 1 := by
  induction k generalizing j off with
  | zero => simp [evenPartitionFrom] at h
  | succ k ih =>
      rw [evenPartitionFrom, List.mem_cons] at h
      rcases h with rfl | h
      · simp only
        split <;> omega
      · exact ih h

/-! ## Workspaces -/

/-- `struct workspace`. Pointers are addresses of the peer that owns the workspace. -/
structure Workspace where
  send : Addr
  recv : Addr
  count : ℕ
  dt : Dtype
  op : ReduceOp
  name : Bytes

namespace Workspace

/-- `workspace::data_size`. -/
def dataSize (w : Workspace) : ℕ := w.count * dtypeSize w.dt

/-- `workspace::slice`. -/
def slice (w : Workspace) (i j : ℕ) : Workspace where
  send := w.send + i * dtypeSize w.dt
  recv := w.recv + i * dtypeSize w.dt
  count := j - i
  dt := w.dt
  op := w.op
  name := partName w.name i j

/-- `workspace::split`. -/
def split (w : Workspace) (k : ℕ) : List Workspace :=
  (evenPartition 0 w.count k).map fun i => w.slice i.1 i.2

/-- The two buffers are one, or do not overlap. -/
def Separate (w : Workspace) : Prop :=
  w.send = w.recv ∨ Apart w.send w.dataSize w.recv w.dataSize

theorem dataSize_slice (w : Workspace) (i j : ℕ) :
    (w.slice i j).dataSize = (j - i) * dtypeSize w.dt := rfl

/-- A slice lies inside the workspace. -/
theorem slice_le {w : Workspace} {i j : ℕ} (hij : i ≤ j) (hj : j ≤ w.count) :
    i * dtypeSize w.dt + (w.slice i j).dataSize = j * dtypeSize w.dt ∧
      j * dtypeSize w.dt ≤ w.dataSize := by
  rw [dataSize_slice, ← Nat.add_mul, Nat.add_sub_cancel' hij]
  exact ⟨rfl, Nat.mul_le_mul_right _ hj⟩

theorem Separate.slice {w : Workspace} (h : w.Separate) {i j : ℕ} (hij : i ≤ j)
    (hj : j ≤ w.count) : (w.slice i j).Separate := by
  have hle := slice_le hij hj
  rcases h with h | h | h
  · exact .inl (by simp only [Workspace.slice, h])
  · refine .inr (.inl ?_)
    simp only [Workspace.slice] at hle ⊢
    omega
  · refine .inr (.inr ?_)
    simp only [Workspace.slice] at hle ⊢
    omega

end Workspace

/-! ## State -/

/-- The memory of a peer, and `recv_count_` of the `workspace_state` at work. -/
structure Store where
  mem : Mem
  recvCount : UInt32

/-- A handler reads a message body into a buffer. -/
def Store.writeBody (a : Addr) (d : Bytes) (σ : Store) : Store :=
  { σ with mem := Memory.write a d σ.mem }

namespace Workspace

/-- `workspace_state::workspace_state`. -/
def start (_ : Workspace) (σ : Store) : Store := { σ with recvCount := 0 }

/-- `workspace_state::effective_data`. -/
def effectiveData (w : Workspace) (σ : Store) : Addr :=
  if 0 < σ.recvCount then w.recv else w.send

/-- `workspace::forward`. -/
def forward (w : Workspace) (σ : Store) : Store :=
  if w.recv ≠ w.send then
    { σ with mem := Memory.write w.recv (Memory.read w.send w.dataSize σ.mem) σ.mem }
  else σ

end Workspace

/-- `reduce(x, y, z, count, dt, op)`: `std::transform` over the indices, `y` a received
buffer, `x` and `z` addresses, `f` the operation on elements. -/
def reduce (f : ℕ → ℕ → ℕ) (s : ℕ) (x : Addr) (y : Bytes) (z : Addr) : ℕ → Mem → Mem
  | 0, m => m
  | n + 1, m =>
      let m := reduce f s x y z n m
      Memory.write (x + n * s)
        (leBytes s (f (elem s y n) (leNat (Memory.read (z + n * s) s m)))) m

/-- `workspace_state::add_to`. -/
def Workspace.addTo (f : ℕ → ℕ → ℕ) (w : Workspace) (data : Bytes) (σ : Store) : Store where
  mem := reduce f (dtypeSize w.dt) w.recv data (w.effectiveData σ) w.count σ.mem
  recvCount := σ.recvCount + 1

/-! ## What `reduce` computes -/

/-- Two arrays of `s`-byte elements combined index by index. -/
def zipElems (f : ℕ → ℕ → ℕ) (s count : ℕ) (x y : Bytes) : Bytes :=
  ofElems s count fun i => f (elem s x i) (elem s y i)

@[simp] theorem length_zipElems (f : ℕ → ℕ → ℕ) (s count : ℕ) (x y : Bytes) :
    (zipElems f s count x y).length = count * s := by simp [zipElems]

theorem elem_read {s i count : ℕ} (a : Addr) (m : Mem) (h : i < count) :
    elem s (Memory.read a (count * s) m) i = leNat (Memory.read (a + i * s) s m) := by
  rw [elem, entry, Memory.take_drop_read a m]
  rw [← Nat.succ_mul]
  exact Nat.mul_le_mul_right s h

/-- `reduce` writes the combination of its two inputs, when the input in memory is the
output or does not overlap it. -/
theorem reduce_eq (f : ℕ → ℕ → ℕ) (s : ℕ) {x z : Addr} (y : Bytes) (count : ℕ) (m : Mem)
    (h : z = x ∨ Apart z (count * s) x (count * s)) :
    reduce f s x y z count m =
      Memory.write x (zipElems f s count y (Memory.read z (count * s) m)) m := by
  suffices hn : ∀ n ≤ count, reduce f s x y z n m =
      Memory.write x (ofElems s n fun i => f (elem s y i)
        (elem s (Memory.read z (count * s) m) i)) m from hn count le_rfl
  intro n hn
  induction n with
  | zero => simp [reduce, ofElems]
  | succ n ih =>
      have hlt : n * s + s ≤ count * s := by
        rw [← Nat.succ_mul]
        exact Nat.mul_le_mul_right s hn
      -- index `n` of the input has not been overwritten yet
      have happart : Apart (z + n * s) s x (ofElems s n fun i => f (elem s y i)
          (elem s (Memory.read z (count * s) m) i)).length := by
        rw [length_ofElems]
        rcases h with rfl | h | h
        · exact .inr (by omega)
        · exact .inl (by omega)
        · exact .inr (by omega)
      rw [reduce, ih (by omega), ofElems_succ, Memory.write_append, length_ofElems,
        Memory.read_write_apart m happart, elem_read z m (by omega)]

end StdmlCollective

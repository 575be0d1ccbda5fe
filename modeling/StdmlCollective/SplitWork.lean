import Mathlib.Algebra.Order.Floor.Div
import Mathlib.GroupTheory.GroupAction.Ring
import StdmlCollective.Runner

/-!
# How the work is split

`split_work` cuts a workspace into slices of at most `chunk_size` bytes and gives each a graph
pair by the hash of its name. Here every division of its path is an operation that has no result
when the divisor is 0, and the size in bytes is a `size_t`. Where nothing goes wrong the outcome is
that of `splitWork`.
-/

namespace StdmlCollective

variable {n : ℕ}

/-! ## Divisions -/

namespace SizeT

/-- `a / b`. -/
def div (a b : ℕ) : Option ℕ := if b = 0 then none else some (a / b)

/-- `a % b`. -/
def mod (a b : ℕ) : Option ℕ := if b = 0 then none else some (a % b)

/-- `ceil_div`. -/
def ceilDiv (a b : ℕ) : Option ℕ := do
  let q ← div a b
  let r ← mod a b
  return q + if r ≠ 0 then 1 else 0

/-- `divide`. -/
def divide (a b : ℕ) : Option (ℕ × ℕ) := do
  let q ← div a b
  return (q, a - b * q)

/-- `even_partition`. -/
def evenPartition (b e k : ℕ) : Option (List (ℕ × ℕ)) := do
  let (q, r) ← divide (e - b) k
  return evenPartitionFrom q r k 0 b

/-- `workspace::split`. -/
def split (w : Workspace) (k : ℕ) : Option (List Workspace) := do
  let is ← evenPartition 0 w.count k
  return is.map fun i => w.slice i.1 i.2

/-- `graph_pair_list::choose`. -/
def choose (gps : List (GraphPair n)) (i : ℕ) : Option (GraphPair n) := do
  let j ← mod i gps.length
  gps[j]?

/-- `split_work`. -/
def splitWork (w : Workspace) (gps : List (GraphPair n)) (chunkSize : ℕ) :
    Option (List (Workspace × List (Graph n))) := do
  let k ← ceilDiv (w.dataSize % 2 ^ 64) chunkSize
  let ws ← split w k
  ws.mapM fun w => do
    let p ← choose gps (nameBasedHash w.name)
    return (w, [p.reduceGraph, p.broadcastGraph])

/-! ### Results -/

theorem ceilDiv_eq {a b : ℕ} (hb : 0 < b) : ceilDiv a b = some (StdmlCollective.ceilDiv a b) := by
  simp [ceilDiv, div, mod, hb.ne', StdmlCollective.ceilDiv]

theorem evenPartition_eq (b e : ℕ) {k : ℕ} (hk : 0 < k) :
    evenPartition b e k = some (StdmlCollective.evenPartition b e k) := by
  simp [evenPartition, divide, div, hk.ne', StdmlCollective.evenPartition]

theorem evenPartition_zero (b e : ℕ) : evenPartition b e 0 = none := by
  simp [evenPartition, divide, div]

theorem choose_eq (gps : GraphPairList n) (i : ℕ) : choose gps.pairs i = some (gps.choose i) := by
  have hlt := Nat.mod_lt i gps.nonempty
  simp [choose, mod, gps.nonempty.ne', GraphPairList.choose, hlt]

/-- `split_work` once the number of slices is known. -/
private theorem splitWork_of_ceilDiv {w : Workspace} (gps : GraphPairList n) {chunkSize k : ℕ}
    (hk : ceilDiv (w.dataSize % 2 ^ 64) chunkSize = some k) :
    splitWork w gps.pairs chunkSize =
      (evenPartition 0 w.count k).map fun is => is.map fun i =>
        let p := gps.choose (nameBasedHash (w.slice i.1 i.2).name)
        (w.slice i.1 i.2, [p.reduceGraph, p.broadcastGraph]) := by
  have hmap : ∀ ws : List Workspace,
      (ws.mapM fun w => do
        let p ← choose gps.pairs (nameBasedHash w.name)
        return (w, [p.reduceGraph, p.broadcastGraph])) =
      some (ws.map fun w =>
        let p := gps.choose (nameBasedHash w.name)
        (w, [p.reduceGraph, p.broadcastGraph])) := by
    intro ws
    induction ws with
    | nil => rfl
    | cons w ws ih => simp [choose_eq] at ih ⊢; simp [ih]
  rw [splitWork, hk]
  cases his : evenPartition 0 w.count k with
  | none => simp [split, his]
  | some is =>
      simp only [split, his, Option.bind_eq_bind, Option.bind_some, Option.pure_def] at hmap ⊢
      rw [hmap]
      simp [Function.comp_def]

/-- Every part is a slice of the workspace, named as such. -/
theorem name_of_mem_splitWork {w : Workspace} {gps : GraphPairList n} {chunkSize : ℕ}
    {parts : List (Workspace × List (Graph n))}
    (h : splitWork w gps.pairs chunkSize = some parts) {p : Workspace × List (Graph n)}
    (hp : p ∈ parts) : ∃ i j, p.1.name = partName w.name i j := by
  cases hk : ceilDiv (w.dataSize % 2 ^ 64) chunkSize with
  | none =>
      rw [splitWork, hk] at h
      exact absurd h (by simp)
  | some k =>
      rw [splitWork_of_ceilDiv gps hk, Option.map_eq_some_iff] at h
      obtain ⟨is, -, rfl⟩ := h
      obtain ⟨i, -, rfl⟩ := List.mem_map.mp hp
      exact ⟨i.1, i.2, rfl⟩

/-- Names and graphs of the parts depend on name, count and type only. -/
theorem splitWork_congr {w w' : Workspace} (gps : GraphPairList n) (chunkSize : ℕ)
    (hname : w'.name = w.name) (hcount : w'.count = w.count) (hdt : w'.dt = w.dt) :
    (splitWork w' gps.pairs chunkSize).map (List.map fun p => (p.1.name, p.2)) =
      (splitWork w gps.pairs chunkSize).map (List.map fun p => (p.1.name, p.2)) := by
  have hsize : w'.dataSize = w.dataSize := by rw [Workspace.dataSize, hcount, hdt]; rfl
  cases hk : ceilDiv (w.dataSize % 2 ^ 64) chunkSize with
  | none => rw [splitWork, splitWork, hsize, hk]; rfl
  | some k =>
      rw [splitWork_of_ceilDiv gps hk, splitWork_of_ceilDiv gps (by rw [hsize, hk]), hcount]
      simp [Function.comp_def, Workspace.slice, hname]

/-- Where the size in bytes does not wrap, the slices are those of `splitWork`. -/
theorem splitWork_eq {w : Workspace} (gps : GraphPairList n) {chunkSize : ℕ} (hc : 1 ≤ w.count)
    (hsize : w.dataSize < 2 ^ 64) (hchunk : 0 < chunkSize) :
    splitWork w gps.pairs chunkSize = some (StdmlCollective.splitWork w gps chunkSize) := by
  have hpos : 0 < StdmlCollective.ceilDiv w.dataSize chunkSize :=
    ceilDiv_pos (Nat.mul_pos hc (dtypeSize_pos w.dt)) hchunk
  have hk := ceilDiv_eq (a := w.dataSize % 2 ^ 64) hchunk
  rw [splitWork_of_ceilDiv gps hk, Nat.mod_eq_of_lt hsize, evenPartition_eq 0 w.count hpos]
  simp [StdmlCollective.splitWork, Workspace.split, Function.comp_def]

/-- The path of `split_work` divides by zero exactly when the size in bytes is 0 as a `size_t`:
there are then no slices to divide the elements among. -/
theorem splitWork_isSome_iff (w : Workspace) (s : Strategy) [NeZero n] {chunkSize : ℕ}
    (hchunk : 1 ≤ chunkSize) :
    (splitWork w (makeGraphPairList s n).pairs chunkSize).isSome ↔
      (w.count * dtypeSize w.dt) % 2 ^ 64 ≠ 0 := by
  have hk := ceilDiv_eq (a := w.dataSize % 2 ^ 64) hchunk
  rw [splitWork_of_ceilDiv _ hk, Option.isSome_map]
  constructor
  · intro h hz
    have hzero : StdmlCollective.ceilDiv (w.dataSize % 2 ^ 64) chunkSize = 0 := by
      rw [Workspace.dataSize, hz]
      simp [StdmlCollective.ceilDiv]
    rw [hzero, evenPartition_zero] at h
    exact absurd h (by simp)
  · intro h
    have hpos := ceilDiv_pos (Nat.pos_of_ne_zero h) hchunk
    rw [Workspace.dataSize, evenPartition_eq 0 w.count hpos]
    rfl

/-- An `i32` tensor on two peers: one element is reduced, an empty tensor is divided by zero. -/
theorem splitWork_isSome_iff_one :
    (splitWork ⟨0, 0, 1, .i32, .sum, []⟩ (makeGraphPairList .ring 2).pairs (2 ^ 20)).isSome ↔
      (1 * dtypeSize .i32) % 2 ^ 64 ≠ 0 :=
  splitWork_isSome_iff ⟨0, 0, 1, .i32, .sum, []⟩ .ring (by decide)

theorem splitWork_empty :
    ¬(splitWork ⟨0, 0, 0, .i32, .sum, []⟩ (makeGraphPairList .star 2).pairs (2 ^ 20)).isSome := by
  simp [splitWork, Workspace.dataSize, ceilDiv, div, mod, split, evenPartition, divide]

end SizeT

/-! ## Slices -/

/-- Where slice number `i` of `k` starts when `count` elements are shared out. -/
def cut (count k i : ℕ) : ℕ := i * (count / k) + min i (count % k)

theorem cut_zero (count k : ℕ) : cut count k 0 = 0 := by simp [cut]

theorem cut_last (count : ℕ) {k : ℕ} (hk : 0 < k) : cut count k k = count := by
  have hmod := Nat.mod_lt count hk
  have hdiv := Nat.div_add_mod count k
  rw [cut, min_eq_right hmod.le, hdiv]

theorem cut_succ (count k i : ℕ) :
    cut count k (i + 1) = cut count k i + (count / k + if i < count % k then 1 else 0) := by
  rw [cut, cut, Nat.succ_mul]
  split <;> omega

theorem length_evenPartitionFrom (q r k j off : ℕ) :
    (evenPartitionFrom q r k j off).length = k := by
  induction k generalizing j off with
  | zero => rfl
  | succ k ih => rw [evenPartitionFrom, List.length_cons, ih]

theorem length_evenPartition (b e k : ℕ) : (evenPartition b e k).length = k :=
  length_evenPartitionFrom _ _ _ _ _

/-- The loop of `even_partition`, interval by interval. -/
private theorem getElem_evenPartitionFrom (q r k j off i : ℕ)
    (hi : i < (evenPartitionFrom q r k j off).length) :
    (evenPartitionFrom q r k j off)[i] =
      (off + (i * q + (min r (j + i) - min r j)),
        off + ((i + 1) * q + (min r (j + (i + 1)) - min r j))) := by
  induction k generalizing j off i with
  | zero => simp [evenPartitionFrom] at hi
  | succ k ih =>
      cases i with
      | zero =>
          simp only [evenPartitionFrom, List.getElem_cons_zero]
          ext
          · simp
          · simp only
            split <;> omega
      | succ i =>
          simp only [evenPartitionFrom, List.getElem_cons_succ]
          rw [ih]
          ext
          · simp only [Nat.succ_mul]
            split <;> omega
          · simp only [Nat.succ_mul]
            split <;> omega

theorem getElem_evenPartition (count k i : ℕ) (hi : i < (evenPartition 0 count k).length) :
    (evenPartition 0 count k)[i] = (cut count k i, cut count k (i + 1)) := by
  have hmod : count - k * (count / k) = count % k := by
    have hdiv := Nat.div_add_mod count k
    omega
  simp only [evenPartition, Nat.sub_zero, hmod]
  rw [getElem_evenPartitionFrom]
  simp [cut, Nat.min_comm]

theorem length_splitWork (w : Workspace) (gps : GraphPairList n) (chunkSize : ℕ) :
    (splitWork w gps chunkSize).length = ceilDiv w.dataSize chunkSize := by
  simp [splitWork, Workspace.split, length_evenPartition]

/-- Slice number `i`. -/
theorem getElem_splitWork (w : Workspace) (gps : GraphPairList n) {chunkSize i : ℕ}
    (hi : i < (splitWork w gps chunkSize).length) :
    (splitWork w gps chunkSize)[i].1 =
      w.slice (cut w.count (ceilDiv w.dataSize chunkSize) i)
        (cut w.count (ceilDiv w.dataSize chunkSize) (i + 1)) := by
  simp [splitWork, Workspace.split, getElem_evenPartition]

theorem ceilDiv_eq_ceilDiv (a : ℕ) {b : ℕ} (hb : 0 < b) : ceilDiv a b = a ⌈/⌉ b := by
  have hdiv := Nat.div_add_mod a b
  have hmod := Nat.mod_lt a hb
  rw [Nat.ceilDiv_eq_add_pred_div, ceilDiv]
  generalize a / b = q at hdiv ⊢
  generalize a % b = r at hdiv hmod ⊢
  subst hdiv
  by_cases hr : r = 0
  · subst hr
    rw [if_neg (by simp), Nat.add_zero, Nat.add_zero, Nat.add_sub_assoc hb, Nat.mul_add_div hb,
      Nat.div_eq_of_lt (by omega), Nat.add_zero]
  · rw [if_pos hr, show b * q + r + b - 1 = b * (q + 1) + (r - 1) by rw [Nat.mul_succ]; omega,
      Nat.mul_add_div hb, Nat.div_eq_of_lt (by omega), Nat.add_zero]

/-- The number of slices and the size of a slice, when the size of a chunk is a multiple of that
of an element: there are no more slices than elements, and `count / k` rounded up fits a chunk. -/
private theorem slices_fit {count s m : ℕ} (hc : 1 ≤ count) (hs : 0 < s) (hm : 0 < m) :
    0 < ceilDiv (count * s) (m * s) ∧ ceilDiv (count * s) (m * s) ≤ count ∧
      count ≤ ceilDiv (count * s) (m * s) * m := by
  have hms : 0 < m * s := Nat.mul_pos hm hs
  refine ⟨ceilDiv_pos (Nat.mul_pos hc hs) hms, ?_, ?_⟩
  · rw [ceilDiv_eq_ceilDiv _ hms, ceilDiv_le_iff_le_mul hms]
    calc count * s = 1 * s * count := by rw [Nat.one_mul, Nat.mul_comm]
      _ ≤ m * s * count := Nat.mul_le_mul_right _ (Nat.mul_le_mul_right _ hm)
  · have hle := le_ceilDiv_mul (count * s) hms
    rw [← Nat.mul_assoc] at hle
    exact Nat.le_of_mul_le_mul_right hle hs

/-- `ws` are slices of `w`, cut at the places `c`: none empty, one behind the other from 0 to
`count`, equally long up to one element, none larger than a chunk, no two of the same name. -/
structure Workspace.IsSplit (w : Workspace) (chunkSize : ℕ) (ws : List Workspace) (c : ℕ → ℕ) :
    Prop where
  first : c 0 = 0
  last : c ws.length = w.count
  lt : ∀ i, i < ws.length → c i < c (i + 1)
  part : ∀ i : Fin ws.length, (ws.get i).send = w.send + c i * dtypeSize w.dt ∧
    (ws.get i).recv = w.recv + c i * dtypeSize w.dt ∧ (ws.get i).count = c (i + 1) - c i ∧
    (ws.get i).dt = w.dt ∧ (ws.get i).op = w.op
  balanced : ∀ u ∈ ws, ∀ v ∈ ws, u.count ≤ v.count + 1
  fits : ∀ u ∈ ws, u.dataSize ≤ chunkSize
  nodup : (ws.map Workspace.name).Nodup

private theorem cut_lt_of_le {count k i j : ℕ} (hk : 0 < k) (hle : k ≤ count) (hij : i < j) :
    cut count k i < cut count k j := by
  have hq : 0 < count / k := Nat.div_pos hle hk
  have hmono : StrictMono (cut count k) := by
    apply strictMono_nat_of_lt_succ
    intro i
    rw [cut_succ]
    omega
  exact hmono hij

/-- `splitWork` splits. -/
theorem splitWork_isSplit {w : Workspace} (gps : GraphPairList n) {m : ℕ} (hc : 1 ≤ w.count)
    (hm : 0 < m) :
    w.IsSplit (m * dtypeSize w.dt) ((splitWork w gps (m * dtypeSize w.dt)).map Prod.fst)
      (cut w.count (ceilDiv w.dataSize (m * dtypeSize w.dt))) := by
  obtain ⟨hpos, hle, hfit⟩ := slices_fit hc (dtypeSize_pos w.dt) hm
  have hlen : ((splitWork w gps (m * dtypeSize w.dt)).map Prod.fst).length =
      ceilDiv w.dataSize (m * dtypeSize w.dt) := by rw [List.length_map, length_splitWork]
  have hget : ∀ i : Fin ((splitWork w gps (m * dtypeSize w.dt)).map Prod.fst).length,
      ((splitWork w gps (m * dtypeSize w.dt)).map Prod.fst).get i =
        w.slice (cut w.count (ceilDiv w.dataSize (m * dtypeSize w.dt)) i)
          (cut w.count (ceilDiv w.dataSize (m * dtypeSize w.dt)) (i + 1)) := by
    intro i
    rw [List.get_eq_getElem, List.getElem_map, getElem_splitWork]
  rw [← Workspace.dataSize] at hpos hle hfit
  generalize (splitWork w gps (m * dtypeSize w.dt)).map Prod.fst = ws at hlen hget
  generalize ceilDiv w.dataSize (m * dtypeSize w.dt) = k at hpos hle hfit hlen hget
  -- the length of a slice is `count / k`, or one more while elements are left over
  have hcount : ∀ i : Fin ws.length,
      (ws.get i).count = w.count / k + if (i : ℕ) < w.count % k then 1 else 0 := by
    intro i
    rw [hget]
    change cut w.count k (i + 1) - cut w.count k i = _
    rw [cut_succ, Nat.add_sub_cancel_left]
  constructor
  · exact cut_zero _ _
  · rw [hlen, cut_last _ hpos]
  · intro i _
    exact cut_lt_of_le hpos hle (Nat.lt_succ_self i)
  · intro i
    rw [hget]
    exact ⟨rfl, rfl, rfl, rfl, rfl⟩
  · intro u hu v hv
    obtain ⟨i, rfl⟩ := List.get_of_mem hu
    obtain ⟨j, rfl⟩ := List.get_of_mem hv
    rw [hcount, hcount]
    split <;> split <;> omega
  · intro u hu
    obtain ⟨i, rfl⟩ := List.get_of_mem hu
    have hdt : (ws.get i).dt = w.dt := by
      rw [hget]
      rfl
    rw [Workspace.dataSize, hdt, hcount]
    apply Nat.mul_le_mul_right
    have hdiv := Nat.div_add_mod w.count k
    have hmod := Nat.mod_lt w.count hpos
    split
    · -- `k * q < count ≤ k * m`
      have hlt : k * (w.count / k) < k * m := by
        rw [Nat.mul_comm k m] at *
        omega
      exact Nat.lt_of_mul_lt_mul_left hlt
    · rw [Nat.add_zero]
      apply Nat.le_of_mul_le_mul_left _ hpos
      rw [Nat.mul_comm k m] at *
      omega
  · rw [List.nodup_iff_injective_get]
    intro i j hij
    simp only [List.get_eq_getElem, List.getElem_map] at hij
    have hi := hget ⟨i, by simpa using i.isLt⟩
    have hj := hget ⟨j, by simpa using j.isLt⟩
    rw [List.get_eq_getElem] at hi hj
    rw [hi, hj] at hij
    obtain ⟨-, hcut, -⟩ := partName_inj hij
    apply Fin.ext
    rcases Nat.lt_trichotomy i j with h | h | h
    · have := cut_lt_of_le hpos hle h
      simp only at hcut
      omega
    · exact h
    · have := cut_lt_of_le hpos hle h
      simp only at hcut
      omega

/-- `split_work` partitions the work exactly, names the parts apart from each other and from the
parts of any other workspace, and gives all peers the same names and graphs. -/
theorem splitWork_exact {w : Workspace} (gps : GraphPairList n) {chunkSize : ℕ}
    (hc : 1 ≤ w.count) (hsize : w.dataSize < 2 ^ 64) (hpos : 0 < chunkSize)
    (hdvd : dtypeSize w.dt ∣ chunkSize) :
    ∃ parts, SizeT.splitWork w gps.pairs chunkSize = some parts ∧
      parts.length = w.dataSize ⌈/⌉ chunkSize ∧
      (∃ c, w.IsSplit chunkSize (parts.map Prod.fst) c) ∧
      (∀ (w' : Workspace) (n' : ℕ) (gps' : GraphPairList n') (chunkSize' : ℕ), w'.name ≠ w.name →
        ∀ parts', SizeT.splitWork w' gps'.pairs chunkSize' = some parts' →
          ∀ p ∈ parts, ∀ p' ∈ parts', p.1.name ≠ p'.1.name) ∧
      ∀ w' : Workspace, w'.name = w.name → w'.count = w.count → w'.dt = w.dt →
        ∃ parts', SizeT.splitWork w' gps.pairs chunkSize = some parts' ∧
          parts'.map (fun p => (p.1.name, p.2)) = parts.map fun p => (p.1.name, p.2) := by
  have hsome := SizeT.splitWork_eq gps hc hsize hpos
  refine ⟨splitWork w gps chunkSize, hsome, ?_, ?_, ?_, ?_⟩
  · rw [length_splitWork, ceilDiv_eq_ceilDiv _ hpos]
  · obtain ⟨m, rfl⟩ := hdvd
    rw [Nat.mul_comm] at hpos ⊢
    exact ⟨_, splitWork_isSplit gps hc (Nat.pos_of_mul_pos_right hpos)⟩
  · intro w' n' gps' chunkSize' hname parts' hparts' p hp p' hp' heq
    obtain ⟨i, j, hpart⟩ := SizeT.name_of_mem_splitWork hsome hp
    obtain ⟨i', j', hpart'⟩ := SizeT.name_of_mem_splitWork hparts' hp'
    rw [hpart, hpart'] at heq
    exact hname (partName_inj heq).1.symm
  · intro w' hname hcount hdt
    have hcongr := SizeT.splitWork_congr gps chunkSize hname hcount hdt
    rw [hsome, Option.map_some, Option.map_eq_some_iff] at hcongr
    exact hcongr

/-- Three `i64` elements in chunks of two, on two peers of a ring. -/
theorem splitWork_exact_three :
    let w : Workspace := ⟨0, 64, 3, .i64, .sum, [97]⟩
    ∃ parts, SizeT.splitWork w (makeGraphPairList .ring 2).pairs 16 = some parts ∧
      parts.length = w.dataSize ⌈/⌉ 16 ∧
      (∃ c, w.IsSplit 16 (parts.map Prod.fst) c) ∧
      (∀ (w' : Workspace) (n' : ℕ) (gps' : GraphPairList n') (chunkSize' : ℕ), w'.name ≠ w.name →
        ∀ parts', SizeT.splitWork w' gps'.pairs chunkSize' = some parts' →
          ∀ p ∈ parts, ∀ p' ∈ parts', p.1.name ≠ p'.1.name) ∧
      ∀ w' : Workspace, w'.name = w.name → w'.count = w.count → w'.dt = w.dt →
        ∃ parts', SizeT.splitWork w' (makeGraphPairList .ring 2).pairs 16 = some parts' ∧
          parts'.map (fun p => (p.1.name, p.2)) = parts.map fun p => (p.1.name, p.2) :=
  splitWork_exact (makeGraphPairList .ring 2) (by decide) (by decide) (by decide) (by decide)

end StdmlCollective

import StdmlCollective.AllReduce
import StdmlCollective.Refine.Blocked

/-!
# `all_gather`

`session::all_gather` runs one thread for each of `2 n` indices: index `2 i` sends the own
input to rank `i`, index `2 i + 1` receives the slice of rank `i`, and the own slice is
copied. The list of indices comes from `seq`, whose parameter is an `int`.

With less than `2 ^ 30` peers all indices are there, and every sequence of calls is right
under every schedule. From `2 ^ 30` peers on the number of indices does not fit an `int`.
-/

namespace StdmlCollective

open BlockNet
open Memory (Mem)

variable {P T O : Type} {n : ℕ}

/-- `seq<size_t>(int n)`, called with `k`: the argument is narrowed to an `int`, and the
constructor of `std::vector` throws when that is negative. -/
def seq (k : ℕ) : Option (List ℕ) :=
  let i := BitVec.ofNat 32 k
  if i.msb then none else some (List.range i.toNat)

/-- The arguments of a call of `all_gather`. -/
structure GatherArgs where
  input : Addr
  output : Addr
  count : ℕ
  dt : Dtype
  name : Bytes

namespace GatherArgs

/-- The number of bytes of one input. -/
def size (g : GatherArgs) : ℕ := g.count * dtypeSize g.dt

/-- `ws[i]`; its `op` and `name` are not used. -/
def slice (g : GatherArgs) (i : ℕ) : Workspace :=
  ⟨g.input, g.output + g.size * i, g.count, g.dt, .sum, []⟩

/-- The input lies outside the output, or it is the own slice of it. -/
def Separate (g : GatherArgs) (n : ℕ) (rank : Fin n) : Prop :=
  g.input = g.output + g.size * rank ∨ Memory.Apart g.input g.size g.output (g.size * n)

end GatherArgs

/-- What the thread of index `idx` does. -/
def allGatherTask (peers : Fin n → P) (rank : Fin n) (g : GatherArgs) (idx : ℕ) :
    Thread P T Store O :=
  if idx / 2 = rank.val then
    if idx % 2 = 0 then .act (g.slice (idx / 2)).forward else .act fun σ => σ
  else if h : idx / 2 < n then
    let w := g.slice (idx / 2)
    if idx % 2 = 0 then
      .send (peers ⟨idx / 2, h⟩) g.name waitRecvBuf fun σ => Memory.read w.send w.dataSize σ.mem
    else .slotGet (peers ⟨idx / 2, h⟩) g.name w.recv
  -- `seq` has no such index
  else .throws

/-- `session::all_gather`. -/
def allGather (peers : Fin n → P) (rank : Fin n) (g : GatherArgs) :
    List (Thread P T Store O) :=
  match seq (n * 2) with
  | some l => l.map (allGatherTask peers rank g)
  | none => [.throws]

theorem seq_eq (k : ℕ) :
    seq k = if k % 2 ^ 32 < 2 ^ 31 then some (List.range (k % 2 ^ 32)) else none := by
  have hnat : (BitVec.ofNat 32 k).toNat = k % 2 ^ 32 := BitVec.toNat_ofNat _ _
  have hmsb : (BitVec.ofNat 32 k).msb = false ↔ k % 2 ^ 32 < 2 ^ 31 := by
    rw [BitVec.msb_eq_false_iff_two_mul_lt, hnat]
    omega
  rw [seq, hnat]
  by_cases h : k % 2 ^ 32 < 2 ^ 31
  · rw [if_pos h, hmsb.mpr h]
    rfl
  · rw [if_neg h, Bool.eq_true_of_not_eq_false fun hc => h (hmsb.mp hc)]
    rfl

theorem seq_of_lt {k : ℕ} (h : k < 2 ^ 31) : seq k = some (List.range k) := by
  rw [seq_eq, Nat.mod_eq_of_lt (by omega), if_pos h]

theorem allGather_eq (hn : n < 2 ^ 30) (peers : Fin n → P) (rank : Fin n) (g : GatherArgs) :
    (allGather peers rank g : List (Thread P T Store O)) =
      (List.range (n * 2)).map (allGatherTask peers rank g) := by
  rw [allGather, seq_of_lt (by omega)]

theorem plain_allGather {peers : Fin n → P} {rank : Fin n} {g : GatherArgs}
    {th : Thread P T Store O} (h : th ∈ allGather peers rank g) : th.Plain := by
  unfold allGather at h
  split at h
  · obtain ⟨idx, -, rfl⟩ := List.mem_map.mp h
    unfold allGatherTask
    split_ifs <;> trivial
  · obtain rfl := List.mem_singleton.mp h
    trivial

/-! ## Compatibility -/

/-- `all_gather` as process `p` runs it, in a section at time `t`. -/
def allGatherRun (t : T) (peers : Fin n → P) (rank : P → Option (Fin n)) (g : Fin n → GatherArgs)
    (p : P) : List (Par P T Store O) :=
  match rank p with
  | some r => [⟨t, allGather peers r (g r)⟩]
  | none => []

/-- A list of indices of which one is picked. -/
theorem filterMap_range_single {κ : Type} (N j : ℕ) (k : κ) {f : ℕ → Option κ}
    (h : ∀ i < N, f i = if i = j then some k else none) :
    (List.range N).filterMap f = if j < N then [k] else [] := by
  induction N with
  | zero => simp
  | succ N ih =>
      rw [List.range_succ, List.filterMap_append, ih fun i hi => h i (by omega)]
      rw [List.filterMap_cons, h N (by omega), List.filterMap_nil]
      by_cases hj : j = N
      · subst hj
        simp
      · have hlt : j < N + 1 ↔ j < N := by omega
        simp [Ne.symm hj, hlt]

section Compat

variable {peers : Fin n → P} {rank : P → Option (Fin n)} {g : Fin n → GatherArgs} {name : Bytes}

/-- The calls of all members have one name. -/
structure GatherOk (g : Fin n → GatherArgs) (name : Bytes) : Prop where
  name_eq : ∀ r, (g r).name = name
  nulFree : NulFree name

/-- The inputs fit a message, and no slice of another member overlaps them. -/
structure GatherFits (g : Fin n → GatherArgs) : Prop where
  size : ∀ r, (g r).size < 2 ^ 32
  separate : ∀ r, (g r).Separate n r

theorem GatherOk.nulFree' (h : GatherOk g name) (r : Fin n) : NulFree (g r).name := by
  rw [h.name_eq r]
  exact h.nulFree

/-- The index of a thread, by the rank it works for. -/
theorem exists_rank {idx : ℕ} (h : idx < n * 2) :
    ∃ q : Fin n, idx = 2 * q.val ∨ idx = 2 * q.val + 1 :=
  ⟨⟨idx / 2, by omega⟩, by simp only; omega⟩

theorem allGatherTask_even (t : T) (r q : Fin n) (u : GatherArgs) (hname : NulFree u.name) :
    Thread.job Store.writeBody t (allGatherTask peers r u (2 * q.val) : Thread P T Store O) =
      if q = r then .act (u.slice r).forward
      else .send (peers q) (u.name, true) fun σ => wireData (Memory.read u.input u.size σ.mem) := by
  have hdiv : 2 * q.val / 2 = q.val := by omega
  simp only [allGatherTask, hdiv, Nat.mul_mod_right, if_true, q.isLt, dite_true, Fin.val_inj]
  split
  · next h => rw [h, Thread.job_act]
  · simp only [Thread.job, cStr_eq_self hname]
    rfl

theorem allGatherTask_odd (t : T) (r q : Fin n) (u : GatherArgs) :
    Thread.job Store.writeBody t (allGatherTask peers r u (2 * q.val + 1) : Thread P T Store O) =
      if q = r then .act fun σ => σ
      else .recv (peers q) (u.name, true) (Store.writeBody (u.slice q).recv) := by
  have hdiv : (2 * q.val + 1) / 2 = q.val := by omega
  have hmod : (2 * q.val + 1) % 2 ≠ 0 := by omega
  simp only [allGatherTask, hdiv, hmod, if_false, q.isLt, dite_true, Fin.val_inj]
  split
  · rw [Thread.job_act]
  · rfl

theorem allGatherRun_blocks (hn : n < 2 ^ 30) (t : T) (p : P) :
    blocks Store.writeBody (allGatherRun t peers rank g p : List (Par P T Store O)) =
      match rank p with
      | some r => [⟨t, (List.range (n * 2)).map fun idx =>
          Thread.job Store.writeBody t (allGatherTask peers r (g r) idx)⟩]
      | none => [] := by
  unfold allGatherRun
  cases rank p with
  | none => rfl
  | some r =>
      simp only [blocks, List.map_cons, List.map_nil, Par.block, allGather_eq hn, List.map_map]
      rfl

variable [DecidableEq P]

/-- The index at which member `r` sends (`o = 0`) to the process of rank `x`, or receives
(`o = 1`) from it; none if that is not another member. -/
def gatherIdx (r : Fin n) (o : ℕ) : Option (Fin n) → ℕ
  | some q => if q = r then n * 2 else 2 * q + o
  | none => n * 2

omit [DecidableEq P] in
theorem gatherIdx_lt {r : Fin n} {o : ℕ} (ho : o < 2) {x : Option (Fin n)} :
    gatherIdx r o x < n * 2 ↔ ∃ q, x = some q ∧ q ≠ r := by
  cases x with
  | none => simp [gatherIdx]
  | some q =>
      by_cases hq : q = r
      · simp [gatherIdx, hq]
      · have hlt : 2 * q.val + o < n * 2 := by omega
        simp [gatherIdx, hq, hlt]

omit [DecidableEq P] in
/-- Index `2 u + o` is picked for a process exactly when that process is `peers u`. -/
theorem gatherIdx_eq (hm : Members peers rank) {r u : Fin n} (hu : u ≠ r) {o : ℕ} (ho : o < 2)
    (d : P) : 2 * u.val + o = gatherIdx r o (rank d) ↔ peers u = d := by
  rw [← hm.rank_eq]
  cases rank d with
  | none =>
      simp only [gatherIdx, reduceCtorEq, iff_false]
      omega
  | some q =>
      rw [gatherIdx, Option.some.injEq]
      split
      · next hq =>
        subst hq
        constructor
        · intro h
          omega
        · intro h
          exact absurd h.symm hu
      · rw [← Fin.val_inj]
        omega

omit [DecidableEq P] in
theorem gatherIdx_ne {r : Fin n} {o : ℕ} (ho : o < 2) {idx : ℕ} (hidx : idx < n * 2)
    {x : Option (Fin n)} (h : idx / 2 = r ∨ idx % 2 ≠ o) : idx ≠ gatherIdx r o x := by
  cases x with
  | none =>
      rw [gatherIdx]
      omega
  | some q =>
      rw [gatherIdx]
      split
      · omega
      · next hq =>
        have hne : q.val ≠ r.val := fun hv => hq (Fin.ext hv)
        omega

/-- The keys member `r` sends to `d`. -/
theorem allGather_sendKey (hm : Members peers rank) (hg : GatherOk g name) (t : T) (r : Fin n)
    (d : P) :
    ((List.range (n * 2)).map fun idx => Thread.job Store.writeBody t
        (allGatherTask peers r (g r) idx : Thread P T Store O)).filterMap (Job.sendKey d) =
      if gatherIdx r 0 (rank d) < n * 2 then [(name, true)] else [] := by
  rw [List.filterMap_map]
  refine filterMap_range_single _ _ _ fun idx hidx => ?_
  obtain ⟨u, rfl | rfl⟩ := exists_rank hidx
  · rw [Function.comp_apply, allGatherTask_even t r u _ (hg.nulFree' r)]
    by_cases hu : u = r
    · rw [if_pos hu, if_neg (gatherIdx_ne (by omega) hidx (.inl (by rw [hu]; omega)))]
      rfl
    · have hiff := gatherIdx_eq hm hu (o := 0) (by omega) d
      rw [Nat.add_zero] at hiff
      rw [if_neg hu, Job.sendKey, hg.name_eq]
      simp only [hiff]
  · rw [Function.comp_apply, allGatherTask_odd,
      if_neg (gatherIdx_ne (by omega) hidx (.inr (by omega)))]
    split <;> rfl

/-- The keys member `r` receives from `s`. -/
theorem allGather_recvKey (hm : Members peers rank) (hg : GatherOk g name) (t : T) (r : Fin n)
    (s : P) :
    ((List.range (n * 2)).map fun idx => Thread.job Store.writeBody t
        (allGatherTask peers r (g r) idx : Thread P T Store O)).filterMap (Job.recvKey s) =
      if gatherIdx r 1 (rank s) < n * 2 then [(name, true)] else [] := by
  rw [List.filterMap_map]
  refine filterMap_range_single _ _ _ fun idx hidx => ?_
  obtain ⟨u, rfl | rfl⟩ := exists_rank hidx
  · rw [Function.comp_apply, allGatherTask_even t r u _ (hg.nulFree' r),
      if_neg (gatherIdx_ne (by omega) hidx (.inr (by omega)))]
    split <;> rfl
  · rw [Function.comp_apply, allGatherTask_odd]
    by_cases hu : u = r
    · rw [if_pos hu, if_neg (gatherIdx_ne (by omega) hidx (.inl (by rw [hu]; omega)))]
      rfl
    · rw [if_neg hu, Job.recvKey, hg.name_eq]
      simp only [gatherIdx_eq hm hu (o := 1) (by omega) s]

/-- `all_gather` is compatible: every member sends to every other one and receives from it. -/
theorem allGather_compat [LinearOrder T] (hn : n < 2 ^ 30) (t : T) (hm : Members peers rank)
    (hg : GatherOk g name) :
    Compat fun p => blocks Store.writeBody
      (allGatherRun t peers rank g p : List (Par P T Store O)) where
  matched s d := by
    rw [allGatherRun_blocks hn, allGatherRun_blocks hn]
    cases hs : rank s with
    | none =>
        cases hd : rank d with
        | none => rfl
        | some q =>
            simp [Block.recvs, allGather_recvKey hm hg, gatherIdx_lt, hs]
    | some r =>
        cases hd : rank d with
        | none => simp [Block.sends, allGather_sendKey hm hg, gatherIdx_lt, hd]
        | some q => simp [Block.sends, Block.recvs, allGather_sendKey hm hg,
            allGather_recvKey hm hg, gatherIdx_lt, hs, hd, eq_comm]
  valid p := by
    rw [allGatherRun_blocks hn]
    cases rank p with
    | none => exact .nil
    | some r =>
        refine .cons ⟨fun d => ?_, fun s => ?_, fun qs u h => ?_⟩ .nil (by simp)
        · simp only [allGather_sendKey hm hg]
          split <;> simp
        · simp only [allGather_recvKey hm hg]
          split <;> simp
        · obtain ⟨idx, hidx, h⟩ := List.mem_map.mp h
          obtain ⟨q, rfl | rfl⟩ := exists_rank (List.mem_range.mp hidx)
          · rw [allGatherTask_even t r q _ (hg.nulFree' r)] at h
            split at h <;> simp at h
          · rw [allGatherTask_odd] at h
            split at h <;> simp at h

end Compat

/-! ## What one call computes -/

section Good

variable {peers : Fin n → P} {rank : P → Option (Fin n)} {g : Fin n → GatherArgs} {name : Bytes}

/-- Two slices of a buffer do not overlap. -/
theorem slices_apart (a s : ℕ) {i j : ℕ} (h : i ≠ j) :
    Memory.Apart (a + s * i) s (a + s * j) s := by
  rcases Nat.lt_or_gt_of_ne h with h | h
  · have := Nat.mul_le_mul_left s h
    rw [Nat.succ_eq_add_one, Nat.mul_add, Nat.mul_one] at this
    exact .inl (by omega)
  · have := Nat.mul_le_mul_left s h
    rw [Nat.succ_eq_add_one, Nat.mul_add, Nat.mul_one] at this
    exact .inr (by omega)

/-- A buffer of slices. -/
theorem read_slices (a s : ℕ) (m : Mem) {k : ℕ} {f : Fin k → Bytes}
    (h : ∀ q : Fin k, Memory.read (a + s * q) s m = f q) :
    Memory.read a (s * k) m = (List.finRange k).flatMap f := by
  induction k with
  | zero => rfl
  | succ k ih =>
      rw [Nat.mul_add, Nat.mul_one, Memory.read_add, List.finRange_succ_last, List.flatMap_append,
        ih fun q => h q.castSucc, List.flatMap_map]
      have hlast := h (Fin.last k)
      rw [Fin.val_last] at hlast
      simp [hlast]

/-- The input of member `r`. -/
def GatherArgs.data (u : GatherArgs) (m : Mem) : Bytes := Memory.read u.input u.size m

@[simp] theorem GatherArgs.length_data (u : GatherArgs) (m : Mem) : (u.data m).length = u.size :=
  Memory.length_read _ _ _

/-- A write to another slice leaves the input alone. -/
theorem GatherArgs.Separate.apart {u : GatherArgs} {r q : Fin n} (h : u.Separate n r) (hq : q ≠ r) :
    Memory.Apart u.input u.size (u.output + u.size * q) u.size := by
  have hne : r.val ≠ q.val := fun hv => hq (Fin.ext hv.symm)
  rcases h with h | h
  · rw [h]
    exact slices_apart u.output u.size hne
  · have hle := Nat.mul_le_mul_left u.size q.isLt
    rw [Nat.succ_eq_add_one, Nat.mul_add, Nat.mul_one] at hle
    rcases h with h | h
    · exact .inl (by omega)
    · exact .inr (by omega)

/-- What memory holds when the indices `rem` are left: the input is still there, and every
slice is there whose index is not left. -/
structure Gathered (u : GatherArgs) (r : Fin n) (inp : Fin n → Bytes) (rem : List ℕ) (m : Mem) :
    Prop where
  input : Memory.read u.input u.size m = inp r
  slices : ∀ q : Fin n, (if q = r then 2 * q.val else 2 * q.val + 1) ∉ rem →
    Memory.read (u.output + u.size * q) u.size m = inp q

/-- A slice is written; the index `idx` that has done it is not left any more. -/
theorem Gathered.write {u : GatherArgs} {r q : Fin n} {inp : Fin n → Bytes} {r₁ r₂ : List ℕ}
    {idx : ℕ} {m : Mem} (h : Gathered u r inp (r₁ ++ idx :: r₂) m)
    (hlen : (inp q).length = u.size) (hidx : idx = if q = r then 2 * q.val else 2 * q.val + 1)
    (hinput : Memory.Apart u.input u.size (u.output + u.size * q) u.size) :
    Gathered u r inp (r₁ ++ r₂) (Memory.write (u.output + u.size * q) (inp q) m) where
  input := by
    rw [Memory.read_write_apart m (by rw [hlen]; exact hinput), h.input]
  slices q' hq' := by
    by_cases heq : q' = q
    · subst heq
      have := Memory.read_write (u.output + u.size * q') (inp q') m
      rwa [hlen] at this
    · have hne : q'.val ≠ q.val := fun hv => heq (Fin.ext hv)
      rw [Memory.read_write_apart m (by rw [hlen]; exact slices_apart _ _ hne)]
      refine h.slices q' fun hmem => ?_
      rcases List.mem_append.mp hmem with hmem | hmem
      · exact hq' (List.mem_append_left _ hmem)
      rcases List.mem_cons.mp hmem with hmem | hmem
      · -- the two indices belong to different slices
        rw [hidx] at hmem
        split at hmem <;> split at hmem <;> omega
      · exact hq' (List.mem_append_right _ hmem)

/-- Nothing is written; the index `idx` is not left any more. -/
theorem Gathered.erase {u : GatherArgs} {r : Fin n} {inp : Fin n → Bytes} {r₁ r₂ : List ℕ}
    {idx : ℕ} {m : Mem} (h : Gathered u r inp (r₁ ++ idx :: r₂) m)
    (hidx : ∀ q : Fin n, idx = (if q = r then 2 * q.val else 2 * q.val + 1) →
      Memory.read (u.output + u.size * q) u.size m = inp q) :
    Gathered u r inp (r₁ ++ r₂) m where
  input := h.input
  slices q hq := by
    by_cases heq : idx = if q = r then 2 * q.val else 2 * q.val + 1
    · exact hidx q heq
    · refine h.slices q fun hmem => ?_
      rcases List.mem_append.mp hmem with hmem | hmem
      · exact hq (List.mem_append_left _ hmem)
      rcases List.mem_cons.mp hmem with hmem | hmem
      · exact heq hmem.symm
      · exact hq (List.mem_append_right _ hmem)

/-- The own slice is copied. -/
theorem Gathered.forward {u : GatherArgs} {r : Fin n} {inp : Fin n → Bytes} {r₁ r₂ : List ℕ}
    {τ : Store} (h : Gathered u r inp (r₁ ++ 2 * r.val :: r₂) τ.mem)
    (hlen : (inp r).length = u.size) (hsep : u.Separate n r) :
    Gathered u r inp (r₁ ++ r₂) ((u.slice r).forward τ).mem := by
  have hread : Memory.read (u.slice r).send (u.slice r).dataSize τ.mem = inp r := h.input
  rw [Workspace.forward]
  split
  · next hne =>
    rw [hread]
    refine h.write hlen (by rw [if_pos rfl]) ?_
    rcases hsep with heq | happart
    · exact absurd heq.symm hne
    · have hle := Nat.mul_le_mul_left u.size r.isLt
      rw [Nat.succ_eq_add_one, Nat.mul_add, Nat.mul_one] at hle
      rcases happart with happart | happart
      · exact .inl (by omega)
      · exact .inr (by omega)
  · next heq =>
    have heq : u.output + u.size * r = u.input := not_not.mp heq
    refine h.erase fun q hq => ?_
    obtain rfl : q = r := by
      split at hq
      · assumption
      · omega
    rw [heq, h.input]

/-- **One call of `all_gather`**: every member ends with the inputs of all of them, in the
order of their ranks. -/
theorem allGather_good {C : Contract P T Key Bytes O} {t : T} {M : Fin n → Mem}
    (hn : n < 2 ^ 30) (hm : Members peers rank) (hg : GatherOk g name) (hfit : GatherFits g) {s : ℕ}
    (hsize : ∀ r, (g r).size = s)
    (hC : ∀ q r, q ≠ r → ∀ d,
      C.msg (peers q) (peers r) ⟨t, (name, true), d⟩ ↔ d = (g q).data (M q))
    (r : Fin n) {σ : Store} (hσ : σ.mem = M r) :
    Good C (peers r) (fun τ => Memory.read (g r).output (s * n) τ.mem =
        (List.finRange n).flatMap fun q => (g q).data (M q))
      (blocks Store.writeBody (allGatherRun t peers rank g (peers r) :
        List (Par P T Store O))) σ := by
  have hlen : ∀ q, ((g q).data (M q)).length = (g r).size := by
    intro q
    rw [GatherArgs.length_data, hsize, hsize]
  rw [allGatherRun_blocks hn, hm.rank_peers]
  refine Good.block (fun js τ => ∃ rem : List ℕ, (∀ i ∈ rem, i < n * 2) ∧
    js = rem.map (fun idx => Thread.job Store.writeBody t (allGatherTask peers r (g r) idx)) ∧
    Gathered (g r) r (fun q => (g q).data (M q)) rem τ.mem) ?_ ?_ _ σ
    ⟨List.range (n * 2), fun i => List.mem_range.mp, rfl, ?_⟩
  · rintro l₁ j l₂ τ ⟨rem, hlt, hjs, hgath⟩
    obtain ⟨r₁, r₂', rfl, hr₁, hr₂⟩ := List.map_eq_append_iff.mp hjs.symm
    obtain ⟨idx, r₂, rfl, rfl, hr₂'⟩ := List.map_eq_cons_iff.mp hr₂
    have hrest : l₁ ++ l₂ = (r₁ ++ r₂).map fun idx =>
        Thread.job Store.writeBody t (allGatherTask peers r (g r) idx) := by
      rw [← hr₁, ← hr₂', List.map_append]
    have hlt' : ∀ i ∈ r₁ ++ r₂, i < n * 2 := by
      intro i hi
      refine hlt i ?_
      rcases List.mem_append.mp hi with hi | hi <;> simp [hi]
    obtain ⟨q, rfl | rfl⟩ := exists_rank (hlt idx (by simp))
    · rw [allGatherTask_even t r q _ (hg.nulFree' r)]
      by_cases hq : q = r
      · subst hq
        rw [if_pos rfl]
        exact ⟨r₁ ++ r₂, hlt', hrest, hgath.forward (hlen q) (hfit.separate q)⟩
      · rw [if_neg hq]
        refine ⟨?_, r₁ ++ r₂, hlt', hrest, hgath.erase fun q' hq' => ?_⟩
        · rw [hg.name_eq, hC r q (Ne.symm hq)]
          exact (wireData_eq_self (by rw [Memory.length_read]; exact hfit.size r)).trans hgath.input
        · split at hq'
          · next h =>
            subst h
            exact absurd (Fin.ext (by omega)) hq
          · omega
    · rw [allGatherTask_odd]
      by_cases hq : q = r
      · subst hq
        rw [if_pos rfl]
        refine ⟨r₁ ++ r₂, hlt', hrest, hgath.erase fun q' hq' => ?_⟩
        split at hq'
        · omega
        · next h => exact absurd (Fin.ext (by omega)) h
      · rw [if_neg hq]
        intro d hd
        rw [hg.name_eq, hC q r hq] at hd
        rw [hd]
        exact ⟨r₁ ++ r₂, hlt', hrest,
          hgath.write (hlen q) (by rw [if_neg hq]) ((hfit.separate r).apart hq)⟩
  · rintro τ ⟨rem, -, hjs, hgath⟩
    obtain rfl : rem = [] := by simpa using hjs
    refine .done ?_
    rw [← hsize r]
    exact read_slices _ _ _ fun q => hgath.slices q List.not_mem_nil
  · refine ⟨by rw [hσ]; rfl, fun q hq => absurd ?_ hq⟩
    rw [List.mem_range]
    split <;> omega

/-- **All that one call of `all_gather` does** is to write the inputs of all members to the
output. -/
theorem allGather_writes {C : Contract P T Key Bytes O} {t : T} {M : Fin n → Mem}
    (hn : n < 2 ^ 30) (hm : Members peers rank) (hg : GatherOk g name) (hfit : GatherFits g) {s : ℕ}
    (hsize : ∀ r, (g r).size = s)
    (hC : ∀ q r, q ≠ r → ∀ d,
      C.msg (peers q) (peers r) ⟨t, (name, true), d⟩ ↔ d = (g q).data (M q))
    (r : Fin n) {σ : Store} (hσ : σ.mem = M r) :
    Good C (peers r) (fun τ => τ.mem = Memory.write (g r).output
        ((List.finRange n).flatMap fun q => (g q).data (M q)) (M r))
      (blocks Store.writeBody (allGatherRun t peers rank g (peers r) :
        List (Par P T Store O))) σ := by
  have hlen : ((List.finRange n).flatMap fun q => (g q).data (M q)).length = s * n := by
    simp [List.length_flatMap, hsize, Nat.mul_comm]
  have hwrite : ∀ (q : Fin n) (d : Bytes) (m : Mem), d.length = s →
      (∀ x, x < (g r).output ∨ (g r).output + s * n ≤ x → m x = M r x) →
      ∀ x, x < (g r).output ∨ (g r).output + s * n ≤ x →
        Memory.write ((g r).output + (g r).size * q) d m x = M r x := by
    intro q d m hd hm x hx
    rw [hsize r, Memory.write_slice_of_outside m hd q.isLt hx, hm x hx]
  refine ((allGather_good hn hm hg hfit hsize hC r hσ).keeping (I := fun τ => ∀ x,
    x < (g r).output ∨ (g r).output + s * n ≤ x → τ.mem x = M r x) ?_ (by simp [hσ])).mono ?_
  · rw [allGatherRun_blocks hn, hm.rank_peers]
    intro b hb j hj
    obtain rfl := List.mem_singleton.mp hb
    obtain ⟨idx, hidx, rfl⟩ := List.mem_map.mp hj
    obtain ⟨q, rfl | rfl⟩ := exists_rank (List.mem_range.mp hidx)
    · rw [allGatherTask_even t r q _ (hg.nulFree' r)]
      split
      · intro τ hτ
        unfold Workspace.forward
        split
        · exact hwrite r _ _ ((Memory.length_read _ _ _).trans (hsize r)) hτ
        · exact hτ
      · trivial
    · rw [allGatherTask_odd]
      split
      · exact fun τ hτ => hτ
      · next hq =>
        intro d τ hd hτ
        rw [hg.name_eq, hC q r hq] at hd
        exact hwrite q d _ (by rw [hd, GatherArgs.length_data, hsize]) hτ
  · rintro τ ⟨hread, hframe⟩
    exact Memory.eq_write (by rw [hlen, hread]) (by rw [hlen]; exact hframe)

end Good

/-! ## Sequences of calls -/

/-- One call of `all_gather`, made by all `n` peers; `mem r` is the memory of peer `r` when it
makes the call. -/
structure AllGatherCall (n : ℕ) where
  count : ℕ
  dt : Dtype
  name : Bytes
  input : Fin n → Addr
  output : Fin n → Addr
  mem : Fin n → Mem

namespace AllGatherCall

/-- The arguments of peer `r`. -/
def args (c : AllGatherCall n) (r : Fin n) : GatherArgs :=
  ⟨c.input r, c.output r, c.count, c.dt, c.name⟩

/-- The number of bytes of one input. -/
def size (c : AllGatherCall n) : ℕ := c.count * dtypeSize c.dt

/-- The inputs of all peers, in the order of their ranks. -/
def result (c : AllGatherCall n) : Bytes :=
  (List.finRange n).flatMap fun r => (c.args r).data (c.mem r)

/-- Less than `2 ^ 32` bytes a peer, a name without NUL, and an input outside the output or in
its place there. -/
structure Ok (c : AllGatherCall n) : Prop where
  size_lt : c.size < 2 ^ 32
  nulFree : NulFree c.name
  separate : ∀ r, (c.args r).Separate n r

theorem Ok.gather {c : AllGatherCall n} (hc : c.Ok) : GatherOk c.args c.name where
  name_eq _ := rfl
  nulFree := hc.nulFree

theorem Ok.fits {c : AllGatherCall n} (hc : c.Ok) : GatherFits c.args where
  size _ := hc.size_lt
  separate := hc.separate

/-- Call number `k` as peer `rank` makes it: the application leaves its memory as it is,
`all_gather` runs, and the application sees its output buffer. -/
def program (rank : Fin n) (c : AllGatherCall n) (k : ℕ) : List (Par (Fin n) Time Store Bytes) :=
  [⟨Time.at k 0, [.act fun σ => { σ with mem := c.mem rank }]⟩] ++
    (allGatherRun (Time.at k 1) id some c.args rank ++
      [⟨Time.at k 2, [.ret k fun σ => Memory.read (c.output rank) (c.size * n) σ.mem]⟩])

end AllGatherCall

/-- The program of peer `rank`: the calls `cs`, one after the other. -/
def allGatherProgram (cs : List (AllGatherCall n)) (rank : Fin n) :
    List (Par (Fin n) Time Store Bytes) :=
  stepsFrom (AllGatherCall.program rank) 0 cs

/-- Every sequence of `all_gather` calls is right in every state it can reach: what a call has
returned is the row of its inputs, and no state before the end is stuck. -/
def AllGatherCorrect (n : ℕ) (ident : Fin n → PeerId) : Prop :=
  ∀ cs : List (AllGatherCall n), (∀ c ∈ cs, c.Ok) → ∀ (σ : Fin n → Store)
    (x : Cluster (Fin n) PeerId Time Store Bytes),
    CReach ident Store.writeBody (allGatherProgram cs) σ x →
      (∀ r i v, (i, v) ∈ (x r).returned → ∃ c, cs[i]? = some c ∧ v = c.result) ∧
      (¬x.Final → ∃ x', CStep ident Store.writeBody x x')

section Calls

variable {cs : List (AllGatherCall n)}

theorem AllGatherCall.program_blocks (rank : Fin n) (c : AllGatherCall n) (k : ℕ) :
    blocks Store.writeBody (c.program rank k) =
      [⟨Time.at k 0, [.act fun σ => { σ with mem := c.mem rank }]⟩] ++
        (blocks Store.writeBody (allGatherRun (Time.at k 1) id some c.args rank) ++
          [⟨Time.at k 2, [.emit k fun σ => Memory.read (c.output rank) (c.size * n) σ.mem]⟩]) :=
  rfl

theorem allGatherProgram_blocks (cs : List (AllGatherCall n)) (rank : Fin n) :
    blocks Store.writeBody (allGatherProgram cs rank) =
      stepsFrom (fun c k => blocks Store.writeBody (AllGatherCall.program rank c k)) 0 cs := by
  rw [allGatherProgram, blocks, map_stepsFrom]
  rfl

theorem allGatherProgram_compat (hn : n < 2 ^ 30) (hcs : ∀ c ∈ cs, c.Ok) :
    Compat fun r => blocks Store.writeBody (allGatherProgram cs r) := by
  simp only [allGatherProgram_blocks]
  refine Compat.numbered (F := fun r c k => blocks Store.writeBody (AllGatherCall.program r c k))
    Time.step (fun t u h => Time.lt_of_step_lt h) (fun r c k b hb => ?_) (fun c hc k => ?_) 0
  · rw [AllGatherCall.program_blocks, allGatherRun_blocks hn] at hb
    simp only [List.mem_append, List.mem_singleton] at hb
    rcases hb with rfl | rfl | rfl <;> rfl
  · have hlt := Time.at_strictMono k
    simp only [AllGatherCall.program_blocks]
    refine Compat.append ?_
      (Compat.append (allGather_compat hn _ members_id (hcs c hc).gather) ?_ ?_) ?_
    · exact ⟨fun p => .cons (Block.valid_act _ _) .nil (by simp), fun s d => by simp⟩
    · exact ⟨fun p => .cons (Block.valid_emit _ _ _) .nil (by simp), fun s d => by simp⟩
    · intro p a ha b hb
      rw [allGatherRun_blocks hn] at ha
      obtain rfl := List.mem_singleton.mp ha
      obtain rfl := List.mem_singleton.mp hb
      exact hlt (by omega)
    · intro p a ha b hb
      rw [allGatherRun_blocks hn] at hb
      obtain rfl := List.mem_singleton.mp ha
      rcases List.mem_append.mp hb with hb | hb
      · obtain rfl := List.mem_singleton.mp hb
        exact hlt (by omega)
      · obtain rfl := List.mem_singleton.mp hb
        exact hlt (by omega)

theorem allGatherProgram_fresh (cs : List (AllGatherCall n)) (r : Fin n)
    {b : Par (Fin n) Time Store Bytes} (hb : b ∈ allGatherProgram cs r)
    {th : Thread (Fin n) Time Store Bytes} (hth : th ∈ b.threads) : th.Fresh := by
  obtain ⟨i, c, -, hb⟩ := mem_stepsFrom hb
  simp only [AllGatherCall.program, List.mem_append, List.mem_singleton] at hb
  rcases hb with rfl | hb | rfl
  · obtain rfl := List.mem_singleton.mp hth
    trivial
  · obtain rfl := List.mem_singleton.mp hb
    exact (plain_allGather hth).fresh
  · obtain rfl := List.mem_singleton.mp hth
    trivial

/-- What the messages of the calls carry and what the calls return. -/
def allGatherContract (cs : List (AllGatherCall n)) :
    Contract (Fin n) Time Key Bytes Bytes where
  msg s _ m := ∀ c, cs[m.time.step]? = some c → m.data = (c.args s).data (c.mem s)
  out _ i v := ∃ c, cs[i]? = some c ∧ v = c.result

/-- **The calls keep the contract.** -/
theorem allGatherProgram_good (hn : n < 2 ^ 30) (hcs : ∀ c ∈ cs, c.Ok) (r : Fin n) (σ : Store) :
    Good (allGatherContract cs) r (fun _ => True)
      (blocks Store.writeBody (allGatherProgram cs r)) σ := by
  rw [allGatherProgram_blocks]
  refine Good.steps (fun _ _ => True) cs 0 (fun k c hk τ _ => ?_) trivial
  have hc := hcs c (List.mem_of_getElem? hk)
  rw [Nat.zero_add, AllGatherCall.program_blocks]
  refine Good.append (Good.single (.done (Good.append ?_)))
  refine (allGather_good (M := c.mem) (s := c.size) hn members_id hc.gather hc.fits (fun _ => rfl)
    (fun q r _ d => ?_) r
    rfl).mono fun τ' hτ' => ?_
  · simp only [allGatherContract, Time.step_at, hk, Option.some.injEq]
    exact ⟨fun h => h c rfl, fun h c' hc' => hc' ▸ h⟩
  · exact Good.single ⟨⟨c, hk, hτ'⟩, .done trivial⟩

/-- With less than `2 ^ 30` peers the list of indices is complete. -/
theorem allGatherCorrect_of_lt {ident : Fin n → PeerId} (hid : Function.Injective ident)
    (hn : n < 2 ^ 30) : AllGatherCorrect n ident := by
  intro cs hcs σ x hx
  have hcompat := allGatherProgram_compat hn hcs
  obtain ⟨a, ha, hsim⟩ := simulate (tidy_of_compat hid (allGatherProgram_fresh cs) hcompat)
    hcompat (fun a _ => excl_of_injective hid a) hx
  have hkept := Kept.reach (Q := fun _ _ => True)
    (fun r => allGatherProgram_good hn hcs r (σ r)) ha
  refine ⟨fun r i v hv => ?_, hsim.progress (hcompat.matched_reach ha) (excl_of_injective hid a)⟩
  rw [← (hsim r).out] at hv
  exact hkept.out r i v hv

end Calls

/-! ## From `2 ^ 30` peers on -/

section Narrowed

/-- Every peer contributes the byte 1, and its output is zero before the call. -/
def gatherOnes (n : ℕ) : AllGatherCall n where
  count := 1
  dt := .u8
  name := []
  input _ := 0
  output _ := 8
  mem _ a := if a = 0 then 1 else 0

theorem gatherOnes_ok : (gatherOnes n).Ok where
  size_lt := by simp [AllGatherCall.size, gatherOnes, dtypeSize]
  nulFree := by simp [NulFree, gatherOnes]
  separate _ := .inr (.inl (Nat.le_of_ble_eq_true rfl))

theorem gatherOnes_program (r : Fin n) :
    allGatherProgram [gatherOnes n] r =
      [⟨Time.at 0 0, [.act fun σ => { σ with mem := (gatherOnes n).mem r }]⟩,
        ⟨Time.at 0 1, allGather id r ((gatherOnes n).args r)⟩,
        ⟨Time.at 0 2, [.ret 0 fun σ => Memory.read 8 ((gatherOnes n).size * n) σ.mem]⟩] := rfl

theorem gatherOnes_section (r : Fin n) :
    ⟨Time.at 0 1, allGather id r ((gatherOnes n).args r)⟩ ∈ allGatherProgram [gatherOnes n] r := by
  rw [gatherOnes_program]
  exact List.mem_cons_of_mem _ List.mem_cons_self

/-- Only the threads of `all_gather` send or receive. -/
theorem gatherOnes_mem {r : Fin n} {Q : Thread (Fin n) Time Store Bytes → Prop}
    (hact : ∀ f, Q (.act f)) (hret : ∀ i f, Q (.ret i f))
    (hgather : ∀ th ∈ allGather id r ((gatherOnes n).args r), Q th) :
    ∀ b ∈ allGatherProgram [gatherOnes n] r, ∀ th ∈ b.threads, Q th := by
  intro b hb th hth
  rw [gatherOnes_program] at hb
  simp only [List.mem_cons, List.not_mem_nil, or_false] at hb
  rcases hb with rfl | rfl | rfl
  · obtain rfl := List.mem_singleton.mp hth
    exact hact _
  · exact hgather th hth
  · obtain rfl := List.mem_singleton.mp hth
    exact hret _ _

variable {ident : Fin n → PeerId}

/-- The constructor of the index vector throws. -/
theorem gatherOnes_throws (hid : Function.Injective ident) (hpos : 0 < n)
    (hseq : seq (n * 2) = none) {σ : Fin n → Store} {x : Cluster (Fin n) PeerId Time Store Bytes}
    (hx : CReach ident Store.writeBody (allGatherProgram [gatherOnes n]) σ x) : ¬x.Final := by
  have hgather : ∀ r : Fin n, (allGather id r ((gatherOnes n).args r) :
      List (Thread (Fin n) Time Store Bytes)) = [.throws] := by
    intro r
    rw [allGather, hseq]
  refine not_final_of_starved hid ⟨0, hpos⟩ ⟨0, hpos⟩ [] ?_ ?_ hx
  · refine gatherOnes_mem (fun _ h => h) (fun _ _ h => h) fun th hth => ?_
    rw [hgather, List.mem_singleton] at hth
    subst hth
    exact fun h => h
  · refine ⟨_, gatherOnes_section _, .throws, ?_, trivial⟩
    rw [hgather]
    exact List.mem_cons_self

/-- The list of indices stops before the last peer, which waits for peer 0 in vain. -/
theorem gatherOnes_starves (hid : Function.Injective ident) {k : ℕ} (hk : 1 < k) (hlt : k < n * 2)
    (hseq : seq (n * 2) = some (List.range k)) (heven : k % 2 = 0) {σ : Fin n → Store}
    {x : Cluster (Fin n) PeerId Time Store Bytes}
    (hx : CReach ident Store.writeBody (allGatherProgram [gatherOnes n]) σ x) : ¬x.Final := by
  have hgather : ∀ r : Fin n, (allGather id r ((gatherOnes n).args r) :
      List (Thread (Fin n) Time Store Bytes)) =
      (List.range k).map (allGatherTask id r ((gatherOnes n).args r)) := by
    intro r
    rw [allGather, hseq]
  refine not_final_of_starved hid ⟨0, by omega⟩ ⟨n - 1, by omega⟩ [] ?_ ?_ hx
  · refine gatherOnes_mem (fun _ h => h) (fun _ _ h => h) fun th hth => ?_
    rw [hgather] at hth
    obtain ⟨idx, hidx, rfl⟩ := List.mem_map.mp hth
    have hidx := List.mem_range.mp hidx
    unfold allGatherTask
    split_ifs
    · exact fun h => h
    · exact fun h => h
    · intro h
      have hval : idx / 2 = n - 1 := congrArg Fin.val h
      omega
    · exact fun h => h
    · exact fun h => h
  · refine ⟨_, gatherOnes_section _,
      allGatherTask id ⟨n - 1, by omega⟩ ((gatherOnes n).args ⟨n - 1, by omega⟩) 1, ?_, ?_⟩
    · rw [hgather]
      exact List.mem_map_of_mem (List.mem_range.mpr hk)
    · have h₁ : ¬1 / 2 = n - 1 := by omega
      have h₂ : 1 / 2 < n := by omega
      simp only [allGatherTask, h₁, if_false, h₂, dite_true]
      exact ⟨rfl, rfl⟩

/-- There are no indices at all, and peer 0 returns with nothing gathered. -/
theorem gatherOnes_empty (ident : Fin n → PeerId) (hpos : 0 < n) (hseq : seq (n * 2) = some [])
    (σ : Fin n → Store) :
    ∃ x : Cluster (Fin n) PeerId Time Store Bytes,
      CReach ident Store.writeBody (allGatherProgram [gatherOnes n]) σ x ∧
        (0, Memory.read 8 ((gatherOnes n).size * n) ((gatherOnes n).mem ⟨0, hpos⟩)) ∈
          (x ⟨0, hpos⟩).returned := by
  have hgather : (allGather id ⟨0, hpos⟩ ((gatherOnes n).args ⟨0, hpos⟩) :
      List (Thread (Fin n) Time Store Bytes)) = [] := by
    rw [allGather, hseq]
    rfl
  have hcode : ((Cluster.start (allGatherProgram [gatherOnes n]) σ : Cluster _ PeerId _ _ _)
      ⟨0, hpos⟩).code = _ := gatherOnes_program _
  rw [hgather] at hcode
  -- set up memory, join the section without threads, return
  refine ⟨_, CReach.node .refl (((NRun.act hcode).tail (NStep.join rfl)).trans (NRun.ret rfl)), ?_⟩
  rw [Function.update_self]
  exact List.mem_cons_self

/-- From `2 ^ 30` peers on `seq` throws or leaves out indices. -/
theorem not_allGatherCorrect_of_ge (hid : Function.Injective ident) (hn : 2 ^ 30 ≤ n) :
    ¬AllGatherCorrect n ident := by
  intro h
  have hpos : 0 < n := by omega
  have hok : ∀ c ∈ [gatherOnes n], c.Ok := by simpa using gatherOnes_ok
  obtain ⟨x, hx, -, hfinal⟩ := exists_final_of_progress
    (fun c hr => (h [gatherOnes n] hok (fun _ => ⟨fun _ => 0, 0⟩) c hr).2) .refl
  have hseq := seq_eq (n * 2)
  split at hseq
  · next hlt =>
    by_cases hz : n * 2 % 2 ^ 32 = 0
    · rw [hz] at hseq
      obtain ⟨y, hy, hret⟩ := gatherOnes_empty ident hpos hseq fun _ => ⟨fun _ => 0, 0⟩
      obtain ⟨c, hc, hv⟩ := (h [gatherOnes n] hok _ y hy).1 _ _ _ hret
      obtain rfl : gatherOnes n = c := by simpa using hc
      -- the first byte has not been written
      have hsize : (gatherOnes n).size = 1 := rfl
      have hres : (gatherOnes n).result = List.replicate n 1 := by
        have hone : ∀ r, ((gatherOnes n).args r).data ((gatherOnes n).mem r) = [1] := fun r => rfl
        rw [AllGatherCall.result, List.eq_replicate_iff]
        simp [hone]
      rw [hres, hsize, Nat.one_mul] at hv
      have hmem : (0 : UInt8) ∈ List.replicate n (1 : UInt8) := by
        rw [← hv, Memory.read, List.mem_map]
        exact ⟨0, List.mem_range.mpr hpos, rfl⟩
      exact absurd (List.eq_of_mem_replicate hmem) (by decide)
    · exact gatherOnes_starves hid (by omega) (by omega) hseq (by omega) hx hfinal
  · exact gatherOnes_throws hid hpos hseq hx hfinal

end Narrowed

/-- As many peers as `seq` cannot count. -/
def billionPeers (i : Fin (2 ^ 30)) : PeerId := ⟨UInt32.ofNat i, 10000⟩

theorem billionPeers_injective : Function.Injective billionPeers := by
  intro i j h
  have hi := i.isLt
  have hj := j.isLt
  simp only [billionPeers, PeerId.mk.injEq, and_true] at h
  have hnat := congrArg UInt32.toNat h
  rw [UInt32.toNat_ofNat', UInt32.toNat_ofNat'] at hnat
  exact Fin.ext (by omega)

end StdmlCollective

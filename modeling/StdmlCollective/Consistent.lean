import StdmlCollective.AllReduce
import StdmlCollective.Lib.Spmd

/-!
# `session::consistent`

Do all peers pass the same bytes? They compare the sizes by `all_reduce` with `min` and `max`, and
then, if the sizes are the same and not zero, the bytes. The early returns depend on what a peer
has locally; that they are taken by all peers or by none is what makes the collectives match.

A peer is a program that meets the others in `all_reduce`, and `all_reduce` is its specification:
when all peers ask for the same reduction, all get it.
-/

namespace StdmlCollective

open LittleEndian Spmd

variable {n : ℕ}

/-- The arguments of an `all_reduce`; `data` is what `input` points to. -/
structure ReduceRequest where
  count : ℕ
  dt : Dtype
  op : ReduceOp
  name : Bytes
  data : Bytes

/-- What a peer does with the collectives of its session. -/
abbrev SessionProg (α : Type) := Prog ReduceRequest (fun _ => Bytes) α

/-- The specification of `all_reduce` on integer types. The calls of a session meet it over a star
(`star_replies`). -/
def allReduceService (n : ℕ) : Service (Fin n) ReduceRequest fun _ => Bytes where
  accepts rs := ∃ count dt op name, 1 ≤ count ∧ dt.isInt = true ∧ ∀ i, ∃ data,
    data.length = count * dtypeSize dt ∧ rs i = ⟨count, dt, op, name, data⟩
  reply rs i := reduceAll (intElemOp (rs i).dt (rs i).op) (dtypeSize (rs i).dt) (rs i).count
    ((List.finRange n).map fun j => (rs j).data)

/-- The call of `all_reduce` that answers the requests: the data are at the start of the memory, and
the result is put behind them. -/
def reduceCall [NeZero n] (rs : Fin n → ReduceRequest) : AllReduceCall n where
  count := (rs 0).count
  dt := (rs 0).dt
  op := (rs 0).op
  name := (rs 0).name
  send _ := 0
  recv _ := (rs 0).count * dtypeSize (rs 0).dt
  mem i := Memory.write 0 (rs i).data fun _ => 0

/-- Requests that are accepted are answered by a call. -/
theorem reduceCall_of_accepts [NeZero n] {rs : Fin n → ReduceRequest}
    (h : (allReduceService n).accepts rs) (hname : NulFree (rs 0).name) :
    (reduceCall rs).Ok ∧ ∀ i, (allReduceService n).reply rs i = (reduceCall rs).result := by
  obtain ⟨count, dt, op, name, hcount, hint, hdata⟩ := h
  have heq : ∀ i, (rs i).count = count ∧ (rs i).dt = dt ∧ (rs i).op = op ∧
      (rs i).data.length = count * dtypeSize dt := by
    intro i
    obtain ⟨data, hlen, hi⟩ := hdata i
    rw [hi]
    exact ⟨rfl, rfl, rfl, hlen⟩
  obtain ⟨hcount₀, hdt₀, hop₀, -⟩ := heq 0
  have hinput : ∀ i, (reduceCall rs).input i = (rs i).data := by
    intro i
    obtain ⟨-, -, -, hlen⟩ := heq i
    change Memory.read 0 ((rs 0).count * dtypeSize (rs 0).dt) _ = _
    rw [hcount₀, hdt₀, ← hlen]
    exact Memory.read_write 0 _ _
  refine ⟨⟨?_, ?_, hname, fun r => .inr (.inl ?_)⟩, fun i => ?_⟩
  · exact hcount.trans_eq hcount₀.symm
  · exact (congrArg Dtype.isInt hdt₀).trans hint
  · exact Nat.le_of_eq (Nat.zero_add _)
  · obtain ⟨hcount', hdt', hop', -⟩ := heq i
    rw [AllReduceCall.result, funext hinput]
    simp only [allReduceService, AllReduceCall.elemOp, reduceCall, hcount₀, hdt₀, hop₀, hcount',
      hdt', hop']

/-- **What the peers do together over the specification they do over a star**, with up to `2 ^ 32`
peers: the calls that their requests make return the replies, under every schedule, and no state
before the end is stuck. Over a ring of three peers or more this is not so. -/
theorem star_replies {α : Type} [NeZero n] {ident : Fin n → PeerId}
    (hid : Function.Injective ident) (hn : n ≤ 2 ^ 32) {prog : Fin n → SessionProg α}
    {tr : List (Fin n → ReduceRequest)} {out : Fin n → α}
    (h : Runs (allReduceService n) prog tr out) (hname : ∀ rs ∈ tr, NulFree (rs 0).name)
    {σ : Fin n → Store} {x : Cluster (Fin n) PeerId Time Store Bytes}
    (hx : CReach ident Store.writeBody (allReduceProgram (tr.map reduceCall)) σ x) :
    (∀ r i v, (i, v) ∈ (x r).returned →
      ∃ rs, tr[i]? = some rs ∧ v = (allReduceService n).reply rs r) ∧
      (¬x.Final → ∃ x', CStep ident Store.writeBody x x') := by
  have hcall : ∀ rs ∈ tr, (reduceCall rs).Ok ∧
      ∀ i, (allReduceService n).reply rs i = (reduceCall rs).result := fun rs hrs =>
    reduceCall_of_accepts (h.accepted rs hrs) (hname rs hrs)
  have hok : ∀ c ∈ tr.map reduceCall, c.Ok := by
    intro c hc
    obtain ⟨rs, hrs, rfl⟩ := List.mem_map.mp hc
    exact (hcall rs hrs).1
  obtain ⟨hreturned, hstuck, -⟩ := allReduceCorrect_of_le hid hn _ hok σ x hx
  refine ⟨fun r i v hv => ?_, hstuck⟩
  obtain ⟨c, hc, rfl⟩ := hreturned r i v hv
  rw [List.getElem?_map, Option.map_eq_some_iff] at hc
  obtain ⟨rs, hrs, rfl⟩ := hc
  exact ⟨rs, hrs, ((hcall rs (List.mem_of_getElem? hrs)).2 r).symm⟩

/-- Bytes whose number is a `size_t`. -/
abbrev Sized := { xs : Bytes // xs.length < 2 ^ 64 }

/-- `session::all_reduce(const T &x, reduce_op op)` for `size_t`. -/
def allReduceSize (x : ℕ) (op : ReduceOp) : SessionProg ℕ := do
  let y ← Prog.request ⟨1, .u64, op, [], leBytes 8 x⟩
  return leNat y

/-- `session::consistent`. -/
def consistent (xs : Sized) : SessionProg Bool := do
  let size := xs.1.length
  let size₁ ← allReduceSize size .min
  let size₂ ← allReduceSize size .max
  if size₁ ≠ size₂ then return false
  else if size = 0 then return true
  else
    let y ← Prog.request ⟨size, .u8, .min, [], xs.1⟩
    let z ← Prog.request ⟨size, .u8, .max, [], xs.1⟩
    return y == z

/-! ## Least and greatest -/

section MinMax

variable (dt : Dtype)

/-- `std_min` and `std_max` on an unsigned type. -/
theorem intElemOp_minmax (hdt : dt.isSigned = false) {x y : ℕ} (hx : x < 256 ^ dtypeSize dt)
    (hy : y < 256 ^ dtypeSize dt) :
    intElemOp dt .min x y = min x y ∧ intElemOp dt .max x y = max x y := by
  have hval : ∀ {a : ℕ}, a < 256 ^ dtypeSize dt →
      (BitVec.ofNat (8 * dtypeSize dt) a).toNat = a := by
    intro a ha
    rw [BitVec.toNat_ofNat, pow_mul]
    exact Nat.mod_eq_of_lt ha
  have hult : ∀ {a b : ℕ}, a < 256 ^ dtypeSize dt → b < 256 ^ dtypeSize dt →
      ((BitVec.ofNat (8 * dtypeSize dt) a).ult (BitVec.ofNat _ b) = true ↔ a < b) := by
    intro a b ha hb
    rw [BitVec.ult_iff_lt, BitVec.lt_def, hval ha, hval hb]
  simp only [intElemOp, intOp, intLt, hdt, Bool.false_eq_true, if_false, hult hy hx, hult hx hy]
  constructor <;> split <;> rw [hval (by assumption)] <;> omega

/-- Folding with the two is folding with the least and with the greatest. -/
theorem foldl_minmax (hdt : dt.isSigned = false) {x : ℕ} {l : List ℕ}
    (hx : x < 256 ^ dtypeSize dt) (hl : ∀ y ∈ l, y < 256 ^ dtypeSize dt) :
    l.foldl (intElemOp dt .min) x = l.foldl min x ∧
      l.foldl (intElemOp dt .max) x = l.foldl max x := by
  -- a fold with `f` is a fold with `g` when both agree on numbers of the type
  have hfold : ∀ {f g : ℕ → ℕ → ℕ}, (∀ {a b}, a < 256 ^ dtypeSize dt → b < 256 ^ dtypeSize dt →
      f a b = g a b) → (∀ a b, f a b < 256 ^ dtypeSize dt) → l.foldl f x = l.foldl g x := by
    intro f g hfg hlt
    induction l generalizing x with
    | nil => rfl
    | cons y l ih =>
        have hy := hl y List.mem_cons_self
        rw [List.foldl_cons, List.foldl_cons,
          ih (hlt x y) fun z hz => hl z (List.mem_cons_of_mem _ hz),
          hfg hx hy]
  exact ⟨hfold (fun ha hb => (intElemOp_minmax dt hdt ha hb).1) (intElemOp_lt dt .min),
    hfold (fun ha hb => (intElemOp_minmax dt hdt ha hb).2) (intElemOp_lt dt .max)⟩

theorem foldl_min_le {x : ℕ} {l : List ℕ} : ∀ y ∈ x :: l, l.foldl min x ≤ y := by
  induction l generalizing x with
  | nil => simp
  | cons z l ih =>
      intro y hy
      have hmin := ih (x := min x z) (min x z) List.mem_cons_self
      simp only [List.mem_cons] at hy
      rcases hy with rfl | rfl | hy
      · exact hmin.trans (min_le_left _ _)
      · exact hmin.trans (min_le_right _ _)
      · exact ih y (List.mem_cons_of_mem _ hy)

theorem le_foldl_max {x : ℕ} {l : List ℕ} : ∀ y ∈ x :: l, y ≤ l.foldl max x := by
  induction l generalizing x with
  | nil => simp
  | cons z l ih =>
      intro y hy
      have hmax := ih (x := max x z) (max x z) List.mem_cons_self
      simp only [List.mem_cons] at hy
      rcases hy with rfl | rfl | hy
      · exact (le_max_left _ _).trans hmax
      · exact (le_max_right _ _).trans hmax
      · exact ih y (List.mem_cons_of_mem _ hy)

/-- **The least is the greatest when all are the same.** -/
theorem foldl1_min_eq_max (hdt : dt.isSigned = false) {l : List ℕ}
    (hl : ∀ y ∈ l, y < 256 ^ dtypeSize dt) :
    foldl1 (intElemOp dt .min) l = foldl1 (intElemOp dt .max) l ↔ ∀ y ∈ l, ∀ z ∈ l, y = z := by
  cases l with
  | nil => simp [foldl1]
  | cons x l =>
      obtain ⟨hmin, hmax⟩ := foldl_minmax dt hdt (hl x List.mem_cons_self)
        fun y hy => hl y (List.mem_cons_of_mem _ hy)
      rw [foldl1, foldl1, hmin, hmax]
      constructor
      · intro heq y hy z hz
        have h₁ := foldl_min_le y hy
        have h₂ := le_foldl_max y hy
        have h₃ := foldl_min_le z hz
        have h₄ := le_foldl_max z hz
        omega
      · intro hall
        have hx : l = List.replicate l.length x :=
          List.eq_replicate_of_mem fun y hy =>
            hall y (List.mem_cons_of_mem _ hy) x List.mem_cons_self
        have hfix : ∀ (f : ℕ → ℕ → ℕ), f x x = x → ∀ k, (List.replicate k x).foldl f x = x := by
          intro f hf k
          induction k with
          | zero => rfl
          | succ k ih => rw [List.replicate_succ, List.foldl_cons, hf, ih]
        rw [hx, hfix min (min_self x), hfix max (max_self x)]

end MinMax

/-! ## Exactness -/

theorem foldl1_lt (dt : Dtype) {op : ReduceOp} {l : List ℕ} (hl : ∀ y ∈ l, y < 256 ^ dtypeSize dt) :
    foldl1 (intElemOp dt op) l < 256 ^ dtypeSize dt := by
  cases l with
  | nil => exact Nat.pow_pos (by omega)
  | cons x l =>
      rw [foldl1]
      have hx := hl x List.mem_cons_self
      clear hl
      induction l generalizing x with
      | nil => exact hx
      | cons y l ih => exact ih _ (intElemOp_lt dt op x y)

section Exact

/-- What the peers get for the sizes. -/
theorem allReduceSize_runs (op : ReduceOp) {s : Fin n → ℕ} (hs : ∀ i, s i < 2 ^ 64) :
    Runs (allReduceService n) (fun i => allReduceSize (s i) op)
      [fun i => ⟨1, .u64, op, [], leBytes 8 (s i)⟩]
      fun _ => foldl1 (intElemOp .u64 op) ((List.finRange n).map s) := by
  have hlt : foldl1 (intElemOp .u64 op) ((List.finRange n).map s) < 256 ^ 8 := by
    refine foldl1_lt .u64 fun y hy => ?_
    obtain ⟨i, -, rfl⟩ := List.mem_map.mp hy
    exact hs i
  have helem : ∀ i, elem 8 (leBytes 8 (s i)) 0 = s i := by
    intro i
    rw [elem, entry, Nat.zero_mul, List.drop_zero, List.take_of_length_le (by simp), leNat_leBytes]
    exact Nat.mod_eq_of_lt (hs i)
  have hreply : ∀ i, (allReduceService n).reply (fun i => ⟨1, .u64, op, [], leBytes 8 (s i)⟩) i =
      leBytes 8 (foldl1 (intElemOp .u64 op) ((List.finRange n).map s)) := by
    intro i
    simp only [allReduceService, reduceAll, dtypeSize, ofElems, List.map_map, Function.comp_def]
    simp [helem]
  refine .call ⟨1, .u64, op, [], le_refl 1, rfl, fun i => ⟨_, length_leBytes 8 (s i), rfl⟩⟩ ?_
  have hret : ∀ i, leNat ((allReduceService n).reply
      (fun i => ⟨1, .u64, op, [], leBytes 8 (s i)⟩) i) =
        foldl1 (intElemOp .u64 op) ((List.finRange n).map s) := by
    intro i
    rw [hreply, leNat_leBytes, Nat.mod_eq_of_lt hlt]
  rw [← funext hret]
  exact .ret

/-- Two arrays of bytes are one when their entries are. -/
theorem ofElems_inj {m : ℕ} {f g : ℕ → ℕ} (hf : ∀ i < m, f i < 256) (hg : ∀ i < m, g i < 256) :
    ofElems 1 m f = ofElems 1 m g ↔ ∀ i < m, f i = g i := by
  constructor
  · intro heq i hi
    have h := congrArg (elem 1 · i) heq
    simp only [elem_ofElems _ hi, pow_one] at h
    rwa [Nat.mod_eq_of_lt (hf i hi), Nat.mod_eq_of_lt (hg i hi)] at h
  · exact ofElems_congr

/-- **The least bytes are the greatest bytes when all peers have the same.** -/
theorem reduceAll_min_eq_max {m : ℕ} {xs : Fin n → Bytes} (hlen : ∀ i, (xs i).length = m) :
    reduceAll (intElemOp .u8 .min) 1 m ((List.finRange n).map xs) =
      reduceAll (intElemOp .u8 .max) 1 m ((List.finRange n).map xs) ↔ ∀ i j, xs i = xs j := by
  have hbyte : ∀ k, ∀ y ∈ ((List.finRange n).map xs).map (elem 1 · k), y < 256 := by
    intro k y hy
    obtain ⟨b, -, rfl⟩ := List.mem_map.mp hy
    have hlt := leNat_lt (entry 1 b k)
    have hle : (entry 1 b k).length ≤ 1 := by
      rw [entry]
      exact List.length_take_le _ _
    exact hlt.trans_le (Nat.pow_le_pow_right (by omega) hle)
  rw [reduceAll, reduceAll, ofElems_inj (fun k _ => foldl1_lt .u8 (hbyte k))
    fun k _ => foldl1_lt .u8 (hbyte k)]
  constructor
  · intro h i j
    rw [← ofElems_elem (b := xs i) (s := 1) (by rw [hlen, Nat.mul_one]),
      ← ofElems_elem (b := xs j) (s := 1) (by rw [hlen, Nat.mul_one])]
    refine ofElems_congr fun k hk => ?_
    refine (foldl1_min_eq_max .u8 rfl (hbyte k)).mp (h k hk) _ ?_ _ ?_ <;>
      exact List.mem_map_of_mem (List.mem_map_of_mem (List.mem_finRange _))
  · intro h k _
    refine (foldl1_min_eq_max .u8 rfl (hbyte k)).mpr fun y hy z hz => ?_
    simp only [List.map_map, List.mem_map, List.mem_finRange, true_and,
      Function.comp_apply] at hy hz
    obtain ⟨i, rfl⟩ := hy
    obtain ⟨j, rfl⟩ := hz
    rw [h i j]

/-- The requests for the sizes. -/
def sizeRequest (op : ReduceOp) (xs : Fin n → Sized) (i : Fin n) : ReduceRequest :=
  ⟨1, .u64, op, [], leBytes 8 (xs i).1.length⟩

/-- The requests for the bytes. -/
def bytesRequest (op : ReduceOp) (xs : Fin n → Sized) (i : Fin n) : ReduceRequest :=
  ⟨(xs i).1.length, .u8, op, [], (xs i).1⟩

/-- All peers pass equally many bytes. -/
def SameSize (xs : Fin n → Sized) : Prop := ∀ i j, (xs i).1.length = (xs j).1.length

instance (xs : Fin n → Sized) : Decidable (SameSize xs) :=
  inferInstanceAs (Decidable (∀ i j, (xs i).1.length = (xs j).1.length))

/-- What the peers ask for together. -/
def consistentTrace (xs : Fin n → Sized) : List (Fin n → ReduceRequest) :=
  [sizeRequest .min xs, sizeRequest .max xs] ++
    if SameSize xs ∧ ∃ i, (xs i).1.length ≠ 0 then [bytesRequest .min xs, bytesRequest .max xs]
    else []

/-- The sizes that the peers get are the same when their own are. -/
theorem sizes_eq_iff (xs : Fin n → Sized) :
    foldl1 (intElemOp .u64 .min) ((List.finRange n).map fun i => (xs i).1.length) =
      foldl1 (intElemOp .u64 .max) ((List.finRange n).map fun i => (xs i).1.length) ↔
        SameSize xs := by
  rw [foldl1_min_eq_max .u64 rfl]
  · simp [SameSize]
  · intro y hy
    obtain ⟨i, -, rfl⟩ := List.mem_map.mp hy
    exact (xs i).2

/-- **The peers run through `consistent` together**, and all get the same verdict. -/
theorem consistent_runs (xs : Fin n → Sized) :
    Runs (allReduceService n) (fun i => consistent (xs i)) (consistentTrace xs)
      fun _ => decide (∀ i j, xs i = xs j) := by
  have hsize : ∀ i, (xs i).1.length < 2 ^ 64 := fun i => (xs i).2
  unfold consistentTrace
  refine Runs.bind (allReduceSize_runs .min hsize) (Runs.bind (allReduceSize_runs .max hsize) ?_)
  simp only [ne_eq, sizes_eq_iff]
  by_cases hsame : SameSize xs
  · by_cases hzero : ∃ i, (xs i).1.length ≠ 0
    · -- equally many bytes: the peers compare them
      obtain ⟨i₀, hi₀⟩ := hzero
      have hlen : ∀ i, (xs i).1.length = (xs i₀).1.length := fun i => hsame i i₀
      have hne : ∀ i, ¬(xs i).1.length = 0 := fun i => by rw [hlen i]; exact hi₀
      have hverdict : (fun i => (allReduceService n).reply (bytesRequest .min xs) i ==
          (allReduceService n).reply (bytesRequest .max xs) i) =
            fun _ => decide (∀ i j, xs i = xs j) := by
        funext i
        simp only [allReduceService, bytesRequest, dtypeSize, hlen i]
        have hbytes : ∀ i, ((fun i => (xs i).1) i).length = (xs i₀).1.length := hlen
        rw [Bool.beq_eq_decide_eq, decide_eq_decide, reduceAll_min_eq_max hbytes]
        simp [Subtype.ext_iff]
      have hacc : ∀ op, (allReduceService n).accepts (bytesRequest op xs) := fun op =>
        ⟨(xs i₀).1.length, .u8, op, [], Nat.one_le_iff_ne_zero.mpr hi₀, rfl, fun i =>
          ⟨(xs i).1, by rw [hlen i]; exact (Nat.mul_one _).symm, by rw [bytesRequest, hlen i]⟩⟩
      rw [if_pos ⟨hsame, i₀, hi₀⟩, ← hverdict]
      simp only [hsame, not_true, if_false, hne]
      exact .call (hacc .min) (.call (hacc .max) .ret)
    · -- no bytes at all
      have hall : ∀ i j, xs i = xs j := by
        intro i j
        have hnil : ∀ i, (xs i).1 = [] := by simpa using hzero
        exact Subtype.ext ((hnil i).trans (hnil j).symm)
      have hlen : ∀ i, (xs i).1.length = 0 := fun i => not_not.mp fun h => hzero ⟨i, h⟩
      rw [if_neg fun h => hzero h.2]
      simp only [hsame, hlen, not_true, if_false, if_true, decide_eq_true hall]
      exact .ret
  · -- different sizes
    have hne : ¬∀ i j, xs i = xs j := fun h => hsame fun i j => by rw [h i j]
    simp only [hsame, not_false_eq_true, false_and, if_false, if_true, decide_eq_false hne]
    exact .ret

end Exact

/-- **`consistent` is exact and unanimous.** Whatever one peer or more pass, there is exactly one
way they run through `consistent` together: in it all make the same calls, with the same counts,
and all return whether what they passed is the same. -/
theorem consistent_exact (n : ℕ) (xs : Fin (n + 1) → Sized) :
    ∃ tr verdict,
      Runs (allReduceService (n + 1)) (fun i => consistent (xs i)) tr (fun _ => verdict) ∧
      (verdict = true ↔ ∀ i j, xs i = xs j) ∧
      (∀ rs ∈ tr, ∀ i j, (rs i).count = (rs j).count) ∧
      ∀ tr' vs, Runs (allReduceService (n + 1)) (fun i => consistent (xs i)) tr' vs →
        tr' = tr ∧ vs = fun _ => verdict := by
  have hruns := consistent_runs xs
  refine ⟨_, _, hruns, by simp, fun rs hrs i j => ?_, fun tr' vs h => h.unique hruns⟩
  obtain ⟨count, dt, op, name, -, -, h⟩ := hruns.accepted rs hrs
  obtain ⟨d, -, hi⟩ := h i
  obtain ⟨d', -, hj⟩ := h j
  rw [hi, hj]

end StdmlCollective

import StdmlCollective.Buffer

/-!
# Accumulating a reduction

What a `workspace_state` holds after it has been given a list of buffers. Its value is
`accum`: each buffer is combined with the value so far, which is taken from the `send`
buffer whenever `recv_count_` is zero. `recv_count_` counts modulo `2 ^ 32`, so this is the
reduction of all of them as long as the two buffers are one or there are at most `2 ^ 32`
(`accum_eq_foldl`), in whatever order they arrive (`foldl_zipElems_perm`).
-/

namespace StdmlCollective

open LittleEndian

/-! ## The specification -/

/-- Combine the entries of a list from the left. -/
def foldl1 (f : ℕ → ℕ → ℕ) : List ℕ → ℕ
  | [] => 0
  | x :: xs => xs.foldl f x

/-- The element-wise reduction of arrays of `count` elements of `s` bytes. -/
def reduceAll (f : ℕ → ℕ → ℕ) (s count : ℕ) (bufs : List Bytes) : Bytes :=
  ofElems s count fun i => foldl1 f (bufs.map (elem s · i))

@[simp] theorem length_reduceAll (f : ℕ → ℕ → ℕ) (s count : ℕ) (bufs : List Bytes) :
    (reduceAll f s count bufs).length = count * s := by simp [reduceAll]

theorem foldl1_perm {f : ℕ → ℕ → ℕ} [Std.Commutative f] [Std.Associative f] {l l' : List ℕ}
    (h : l.Perm l') : foldl1 f l = foldl1 f l' := by
  induction h with
  | nil => rfl
  | cons x h _ => exact h.foldl_op_eq
  | swap x y l =>
      have hxy : f x y = f y x := Std.Commutative.comm x y
      rw [foldl1, foldl1, List.foldl_cons, List.foldl_cons, hxy]
  | trans _ _ ih₁ ih₂ => exact ih₁.trans ih₂

/-- The order of the arrays does not matter. -/
theorem reduceAll_perm {f : ℕ → ℕ → ℕ} [Std.Commutative f] [Std.Associative f] {s count : ℕ}
    {bufs bufs' : List Bytes} (h : bufs.Perm bufs') :
    reduceAll f s count bufs = reduceAll f s count bufs' :=
  ofElems_congr fun _ _ => foldl1_perm (h.map _)

/-- The reduction of the same slice of every array is the slice of the reduction. -/
theorem reduceAll_slice (f : ℕ → ℕ → ℕ) {s : ℕ} (i k l : ℕ) {bufs bufs' : List Bytes}
    (h : ∀ j < k, bufs'.map (elem s · j) = bufs.map (elem s · (i + j))) :
    ((reduceAll f s (i + (k + l)) bufs).drop (i * s)).take (k * s) = reduceAll f s k bufs' := by
  rw [reduceAll, drop_ofElems, take_ofElems]
  exact ofElems_congr fun j hj => by rw [h j hj]

/-! ## Accumulation -/

section Accumulate

variable (f : ℕ → ℕ → ℕ) (s count : ℕ) (inplace : Bool) (inp : Bytes)

/-- One more buffer `d` is added. Out of place the value starts again from `inp` whenever
`recv_count_` is zero; in place it is where it always is. -/
def accumStep (a : ℕ × Bytes) (d : Bytes) : ℕ × Bytes :=
  (a.1 + 1, zipElems f s count d (if a.1 % 2 ^ 32 = 0 ∧ ¬inplace then inp else a.2))

/-- The value of a `workspace_state` that has been given the buffers `l`. -/
def accum (l : List Bytes) : Bytes := (l.foldl (accumStep f s count inplace inp) (0, inp)).2

private theorem foldl_accumStep_fst (l : List Bytes) (a : ℕ × Bytes) :
    (l.foldl (accumStep f s count inplace inp) a).1 = a.1 + l.length := by
  induction l generalizing a with
  | nil => rfl
  | cons d l ih =>
      rw [List.foldl_cons, ih, List.length_cons, accumStep]
      omega

@[simp] theorem accum_nil : accum f s count inplace inp [] = inp := rfl

theorem accum_concat (l : List Bytes) (d : Bytes) :
    accum f s count inplace inp (l ++ [d]) = zipElems f s count d
      (if l.length % 2 ^ 32 = 0 ∧ ¬inplace then inp else accum f s count inplace inp l) := by
  have h := foldl_accumStep_fst f s count inplace inp l (0, inp)
  rw [Nat.zero_add] at h
  simp only [accum, List.foldl_append, List.foldl_cons, List.foldl_nil, accumStep, h]

/-- At most `2 ^ 32` buffers are all taken into account, and in place any number. -/
theorem accum_eq_foldl {l : List Bytes} (h : l.length ≤ 2 ^ 32 ∨ inplace) :
    accum f s count inplace inp l = l.foldl (fun a d => zipElems f s count d a) inp := by
  induction l using List.reverseRecOn with
  | nil => rfl
  | append_singleton l d ih =>
      rw [List.length_append, List.length_singleton] at h
      rw [accum_concat, List.foldl_append, List.foldl_cons, List.foldl_nil,
        ← ih (h.imp (by omega) id)]
      rcases l with _ | ⟨d', l⟩
      · simp
      · rw [if_neg]
        rintro ⟨hz, hin⟩
        have hlt : (d' :: l).length < 2 ^ 32 := by
          rcases h with h | h
          · omega
          · exact absurd h hin
        rw [Nat.mod_eq_of_lt hlt] at hz
        simp at hz

theorem length_accum (h : inp.length = count * s) (l : List Bytes) :
    (accum f s count inplace inp l).length = count * s := by
  induction l using List.reverseRecOn with
  | nil => exact h
  | append_singleton l d _ => rw [accum_concat, length_zipElems]

variable {f s count}

theorem foldl_zipElems (hf : ∀ x y, f x y < 256 ^ s) {inp : Bytes} (h : inp.length = count * s)
    (l : List Bytes) :
    l.foldl (fun a d => zipElems f s count d a) inp =
      ofElems s count fun i => (l.map (elem s · i)).foldl (fun a x => f x a) (elem s inp i) := by
  induction l generalizing inp with
  | nil => exact (ofElems_elem h).symm
  | cons d l ih =>
      rw [List.foldl_cons, ih (length_zipElems f s count d inp)]
      refine ofElems_congr fun i hi => ?_
      rw [List.map_cons, List.foldl_cons]
      congr 1
      rw [zipElems, elem_ofElems _ hi, Nat.mod_eq_of_lt (hf _ _)]

/-- The reduction of a first array with others, which come in any order. -/
theorem foldl_zipElems_perm [Std.Commutative f] [Std.Associative f] (hf : ∀ x y, f x y < 256 ^ s)
    {inp : Bytes} (h : inp.length = count * s) {l bufs : List Bytes}
    (hl : (inp :: l).Perm bufs) :
    l.foldl (fun a d => zipElems f s count d a) inp = reduceAll f s count bufs := by
  rw [foldl_zipElems hf h, ← reduceAll_perm hl]
  refine ofElems_congr fun i _ => ?_
  have hswap : (fun a x => f x a) = f := by
    funext a x
    exact Std.Commutative.comm x a
  rw [hswap, List.map_cons, foldl1]

/-- An element of a reduction, as long as there is something to reduce. -/
theorem elem_reduceAll (hf : ∀ x y, f x y < 256 ^ s) {bufs : List Bytes} (hne : bufs ≠ []) {i : ℕ}
    (hi : i < count) : elem s (reduceAll f s count bufs) i = foldl1 f (bufs.map (elem s · i)) := by
  have hlt : foldl1 f (bufs.map (elem s · i)) < 256 ^ s := by
    obtain ⟨b, bs, rfl⟩ := List.exists_cons_of_ne_nil hne
    rw [List.map_cons, foldl1]
    induction bs using List.reverseRecOn with
    | nil => exact elem_lt s b i
    | append_singleton bs b' _ =>
        rw [List.map_append, List.map_singleton, List.foldl_append]
        exact hf _ _
  rw [reduceAll, elem_ofElems _ hi, Nat.mod_eq_of_lt hlt]

/-- **Partial reductions combine**: adding the reductions of several groups to an array reduces
the array and all members of the groups. -/
theorem foldl_zipElems_reduceAll [Std.Commutative f] [Std.Associative f]
    (hf : ∀ x y, f x y < 256 ^ s) {inp : Bytes} (h : inp.length = count * s)
    {groups : List (List Bytes)} (hne : ∀ g ∈ groups, g ≠ []) :
    (groups.map (reduceAll f s count)).foldl (fun a d => zipElems f s count d a) inp =
      reduceAll f s count (inp :: groups.flatten) := by
  have hgroup : ∀ (xs : List ℕ) (a : ℕ), xs ≠ [] → f (foldl1 f xs) a = xs.foldl f a := by
    intro xs a hxs
    obtain ⟨x, xs, rfl⟩ := List.exists_cons_of_ne_nil hxs
    have hcomm : f (foldl1 f (x :: xs)) a = f a (xs.foldl f x) := Std.Commutative.comm _ _
    rw [hcomm, List.foldl_cons]
    induction xs generalizing x with
    | nil => rfl
    | cons y xs ih =>
        have hassoc : f (f a x) y = f a (f x y) := Std.Associative.assoc a x y
        rw [List.foldl_cons, List.foldl_cons, hassoc]
        exact ih (f x y) (by simp) (Std.Commutative.comm _ _)
  rw [foldl_zipElems hf h, reduceAll]
  refine ofElems_congr fun i hi => ?_
  rw [List.map_cons, foldl1]
  generalize elem s inp i = a
  induction groups generalizing a with
  | nil => rfl
  | cons g groups ih =>
      have hg := hne g List.mem_cons_self
      have hmap : g.map (elem s · i) ≠ [] := by simpa using hg
      rw [List.map_cons, List.map_cons, List.foldl_cons, elem_reduceAll hf hg hi, hgroup _ a hmap,
        List.flatten_cons, List.map_append, List.foldl_append]
      exact ih (fun g' hg' => hne g' (List.mem_cons_of_mem _ hg')) _

end Accumulate

/-! ## `workspace_state` -/

namespace Workspace

variable (f : ℕ → ℕ → ℕ) (w : Workspace)

/-- The input of this peer. -/
def input (m : Memory.Mem) : Bytes := Memory.read w.send w.dataSize m

@[simp] theorem length_input (m : Memory.Mem) : (w.input m).length = w.count * dtypeSize w.dt := by
  simp [input, dataSize]

theorem ofNat_eq_zero_iff (k : ℕ) : (UInt32.ofNat k = 0) ↔ k % 2 ^ 32 = 0 := by
  rw [← UInt32.toNat_inj]
  simp

theorem effectiveData_eq (σ : Store) (k : ℕ) (h : σ.recvCount = UInt32.ofNat k) :
    w.effectiveData σ = if k % 2 ^ 32 = 0 then w.send else w.recv := by
  have hpos : 0 < σ.recvCount ↔ k % 2 ^ 32 ≠ 0 := by
    rw [UInt32.pos_iff_ne_zero, h]
    exact not_congr (ofNat_eq_zero_iff k)
  rw [effectiveData]
  by_cases hz : k % 2 ^ 32 = 0
  · rw [if_pos hz, if_neg (by rw [hpos]; exact not_not.mpr hz)]
  · rw [if_neg hz, if_pos (by rw [hpos]; exact hz)]

/-- The two buffers are one. -/
def inplace : Bool := w.send = w.recv

/-- The value after the buffers `l` have been added to memory `m`. -/
def value (m : Memory.Mem) (l : List Bytes) : Bytes :=
  accum f (dtypeSize w.dt) w.count w.inplace (w.input m) l

@[simp] theorem length_value (m : Memory.Mem) (l : List Bytes) :
    (w.value f m l).length = w.dataSize :=
  length_accum _ _ _ _ _ (w.length_input m) l

theorem value_concat (m : Memory.Mem) (l : List Bytes) (d : Bytes) :
    w.value f m (l ++ [d]) = zipElems f (dtypeSize w.dt) w.count d
      (if l.length % 2 ^ 32 = 0 ∧ ¬w.inplace then w.input m else w.value f m l) :=
  accum_concat _ _ _ _ _ l d

/-- A state that has been given the buffers `l` on memory `m`. -/
structure Added (m : Memory.Mem) (l : List Bytes) (σ : Store) : Prop where
  recvCount : σ.recvCount = UInt32.ofNat l.length
  mem : σ.mem = if l = [] then m else Memory.write w.recv (w.value f m l) m

variable {f w}

/-- What `effective_data` points to when the counter is zero: the value in place, the input
out of place. -/
theorem Added.read_send (hw : w.Separate) {m : Memory.Mem} {l : List Bytes} {σ : Store}
    (h : w.Added f m l σ) :
    Memory.read w.send w.dataSize σ.mem = if w.inplace then w.value f m l else w.input m := by
  rw [h.mem]
  by_cases hl : l = []
  · subst hl
    simp [value, input]
  · rw [if_neg hl]
    have hlen := w.length_value f m l
    rcases hw with heq | happart
    · rw [if_pos (by simp [inplace, heq]), heq]
      have := Memory.read_write w.recv (w.value f m l) m
      rwa [hlen] at this
    · rw [Memory.read_write_apart m (by rw [hlen]; exact happart)]
      split
      · next hin =>
        -- a buffer in place that does not overlap itself is empty
        have heq : w.send = w.recv := by simpa [inplace] using hin
        have hzero : w.dataSize = 0 := by
          rw [heq] at happart
          unfold Memory.Apart at happart
          omega
        rw [List.eq_nil_of_length_eq_zero (hlen.trans hzero)]
        exact List.eq_nil_of_length_eq_zero (by rw [Memory.length_read, hzero])
      · rfl

theorem Added.read_recv {m : Memory.Mem} {l : List Bytes} {σ : Store} (h : w.Added f m l σ)
    (hl : l ≠ []) : Memory.read w.recv w.dataSize σ.mem = w.value f m l := by
  rw [h.mem, if_neg hl]
  have := Memory.read_write w.recv (w.value f m l) m
  rwa [length_value] at this

/-- What `effective_data` points to: the next value starts from there. -/
theorem Added.read_effective (hw : w.Separate) {m : Memory.Mem} {l : List Bytes} {σ : Store}
    (h : w.Added f m l σ) :
    Memory.read (w.effectiveData σ) w.dataSize σ.mem =
      if l.length % 2 ^ 32 = 0 ∧ ¬w.inplace then w.input m else w.value f m l := by
  rw [w.effectiveData_eq σ _ h.recvCount]
  by_cases hz : l.length % 2 ^ 32 = 0
  · rw [if_pos hz, h.read_send hw]
    by_cases hin : w.inplace
    · rw [if_pos hin, if_neg fun hc => hc.2 hin]
    · rw [if_neg hin, if_pos ⟨hz, hin⟩]
  · have hl : l ≠ [] := by
      rintro rfl
      simp at hz
    rw [if_neg hz, h.read_recv hl, if_neg (fun hc => hz hc.1)]

/-- `add_to` takes one more buffer. -/
theorem Added.addTo (hw : w.Separate) {m : Memory.Mem} {l : List Bytes} {σ : Store}
    (h : w.Added f m l σ) (d : Bytes) : w.Added f m (l ++ [d]) (w.addTo f d σ) where
  recvCount := by
    rw [Workspace.addTo, h.recvCount, List.length_append, List.length_singleton]
    apply UInt32.toNat_inj.mp
    simp
  mem := by
    have hz : w.effectiveData σ = w.recv ∨ Memory.Apart (w.effectiveData σ)
        (w.count * dtypeSize w.dt) w.recv (w.count * dtypeSize w.dt) := by
      rw [effectiveData]
      split
      · exact .inl rfl
      · exact hw
    have hread := h.read_effective hw
    rw [dataSize] at hread
    rw [if_neg (by simp), value_concat, Workspace.addTo, reduce_eq f _ d w.count σ.mem hz, hread,
      h.mem]
    by_cases hl : l = []
    · rw [if_pos hl]
    · rw [if_neg hl, Memory.write_write m (by simp [dataSize])]

/-- The value forwarded in place of a reduction of nothing, or of as many buffers as wrap
the counter. -/
def settled (f : ℕ → ℕ → ℕ) (w : Workspace) (m : Memory.Mem) (l : List Bytes) : Bytes :=
  if l.length % 2 ^ 32 = 0 ∧ ¬w.inplace then w.input m else w.value f m l

variable (f w) in
theorem length_settled (m : Memory.Mem) (l : List Bytes) :
    (w.settled f m l).length = w.dataSize := by
  rw [settled]
  split
  · exact w.length_input m
  · exact w.length_value f m l

/-- A vertex without predecessors, before it sends: it forwards its input when the counter
is zero. -/
theorem Added.forward (hw : w.Separate) {m : Memory.Mem} {l : List Bytes} {σ : Store}
    (h : w.Added f m l σ) :
    (if σ.recvCount = 0 then w.forward σ else σ).mem =
      Memory.write w.recv (w.settled f m l) m ∧
    (if σ.recvCount = 0 then w.forward σ else σ).recvCount = σ.recvCount := by
  have hmem : ∀ d : Bytes, d.length = w.dataSize →
      Memory.write w.recv d σ.mem = Memory.write w.recv d m := by
    intro d hd
    rw [h.mem]
    split
    · rfl
    · rw [Memory.write_write m (by rw [length_value, hd])]
  have hcount : σ.recvCount = 0 ↔ l.length % 2 ^ 32 = 0 := by
    rw [h.recvCount]
    exact ofNat_eq_zero_iff _
  have hin : ∀ hne : w.recv = w.send, w.inplace = true := fun hne => by simp [inplace, hne]
  by_cases hz : σ.recvCount = 0
  · rw [if_pos hz, Workspace.forward]
    split
    · next hne =>
      have hout : w.inplace = false := by simpa [inplace] using Ne.symm hne
      refine ⟨?_, rfl⟩
      rw [h.read_send hw, hmem _ (by simp [hout, dataSize]), settled, if_neg (by simp [hout]),
        if_pos ⟨hcount.mp hz, by simp [hout]⟩]
    · next heq =>
      have heq : w.recv = w.send := not_not.mp heq
      refine ⟨?_, rfl⟩
      rw [settled, if_neg (by simp [hin heq]), h.mem]
      split
      · next hl =>
        subst hl
        rw [heq]
        exact (Memory.write_read _ _ m).symm
      · rfl
  · have hl : l ≠ [] := by
      rintro rfl
      exact hz (by rw [h.recvCount]; rfl)
    rw [if_neg hz, settled, if_neg (fun hc => hz (hcount.mpr hc.1)), h.mem, if_neg hl]
    exact ⟨rfl, rfl⟩

/-- What a vertex sends once `d` is in its `recv` buffer: out of place its own input as long
as the counter is zero. -/
theorem read_written (hw : w.Separate) {m : Memory.Mem} {k : ℕ} {d : Bytes} {τ : Store}
    (hd : d.length = w.dataSize) (hmem : τ.mem = Memory.write w.recv d m)
    (hcount : τ.recvCount = UInt32.ofNat k) :
    Memory.read (w.effectiveData τ) w.dataSize τ.mem =
      if k % 2 ^ 32 = 0 ∧ ¬w.inplace then w.input m else d := by
  have hrecv : Memory.read w.recv w.dataSize τ.mem = d := by
    have := Memory.read_write w.recv d m
    rwa [hd, ← hmem] at this
  rw [w.effectiveData_eq τ k hcount]
  by_cases hz : k % 2 ^ 32 = 0
  · rw [if_pos hz]
    by_cases hin : w.inplace
    · have heq : w.send = w.recv := by simpa [inplace] using hin
      rw [if_neg fun hc => hc.2 hin, heq, hrecv]
    · have happart : Memory.Apart w.send w.dataSize w.recv d.length := by
        rw [hd]
        exact hw.resolve_left fun heq => hin (by simp [inplace, heq])
      rw [if_pos ⟨hz, hin⟩, hmem, Memory.read_write_apart m happart, input]
  · rw [if_neg hz, if_neg fun hc => hz hc.1, hrecv]

/-- After it has settled, a vertex sends the value it has settled on. -/
theorem Added.read_settled (hw : w.Separate) {m : Memory.Mem} {l : List Bytes} {σ τ : Store}
    (h : w.Added f m l σ) (hmem : τ.mem = Memory.write w.recv (w.settled f m l) m)
    (hcount : τ.recvCount = σ.recvCount) :
    Memory.read (w.effectiveData τ) w.dataSize τ.mem = w.settled f m l := by
  rw [read_written hw (w.length_settled f m l) hmem (hcount.trans h.recvCount), settled]
  split <;> rfl

/-- A vertex that receives `d` into its `recv` buffer. -/
theorem Added.receive {m : Memory.Mem} {l : List Bytes} {σ : Store} (h : w.Added f m l σ)
    {d : Bytes} (hd : d.length = w.dataSize) :
    (Store.writeBody w.recv d σ).mem = Memory.write w.recv d m := by
  rw [Store.writeBody, h.mem]
  split
  · rfl
  · rw [Memory.write_write m (by rw [length_value, hd])]

/-- Up to `2 ^ 32 - 1` buffers, the value settled on is the reduction of all of them. -/
theorem settled_eq (m : Memory.Mem) {l : List Bytes} (h : l.length < 2 ^ 32 ∨ w.inplace) :
    w.settled f m l =
      l.foldl (fun a d => zipElems f (dtypeSize w.dt) w.count d a) (w.input m) := by
  rw [settled]
  split
  · next hz =>
    have hlt : l.length < 2 ^ 32 := h.resolve_right hz.2
    rw [Nat.mod_eq_of_lt hlt] at hz
    rw [List.eq_nil_of_length_eq_zero hz.1]
    rfl
  · exact accum_eq_foldl _ _ _ _ _ (h.imp le_of_lt id)

end Workspace

end StdmlCollective

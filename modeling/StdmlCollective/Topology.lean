import Mathlib.Algebra.GroupWithZero.Nat
import Mathlib.Data.Finset.Sort
import Mathlib.Data.Fintype.Basic
import Mathlib.Data.List.FinRange
import StdmlCollective.Lib.Tree

/-!
# Topologies

`graph_builder`, the graphs it builds and the two strategies. A reduce graph and a
broadcast graph together make an all-reduce: the star sends everything to a root and back,
the ring passes it along a path that ends in the root and then along one that starts
there.
-/

namespace StdmlCollective

variable {n : ℕ}

/-- `class graph`. -/
structure Graph (n : ℕ) where
  selfLoop : Fin n → Bool
  nexts : Fin n → List (Fin n)
  prevs : Fin n → List (Fin n)

/-- `class graph_builder`; a `std::set` of vertices is a finite set. -/
structure GraphBuilder (n : ℕ) where
  selfLoop : Fin n → Bool
  nexts : Fin n → Finset (Fin n)
  prevs : Fin n → Finset (Fin n)

namespace GraphBuilder

/-- `graph_builder::graph_builder`. -/
def new (n : ℕ) : GraphBuilder n where
  selfLoop _ := false
  nexts _ := ∅
  prevs _ := ∅

/-- `graph_builder::edeg_exists`. -/
def edegExists (g : GraphBuilder n) (i j : Fin n) : Bool :=
  if i = j then g.selfLoop i else decide (j ∈ g.nexts i)

/-- `graph_builder::add_edge`, with what it returns. -/
def addEdgeReturn (g : GraphBuilder n) (i j : Fin n) : Bool × GraphBuilder n :=
  if g.edegExists i j then (false, g)
  else
    (true,
      if i = j then { g with selfLoop := Function.update g.selfLoop i true }
      else
        { g with
          nexts := Function.update g.nexts i (insert j (g.nexts i))
          prevs := Function.update g.prevs j (insert i (g.prevs j)) })

/-- A call of `add_edge` that does not look at what it returns. -/
def addEdge (g : GraphBuilder n) (i j : Fin n) : GraphBuilder n := (g.addEdgeReturn i j).2

/-- `graph_builder::build`. -/
def build (g : GraphBuilder n) (reverse addSelfLoops : Bool) : Graph n where
  selfLoop i := if addSelfLoops then true else g.selfLoop i
  nexts i := if reverse then (g.prevs i).sort else (g.nexts i).sort
  prevs i := if reverse then (g.nexts i).sort else (g.prevs i).sort

/-- One call after the other, for the edges `es`, with what every call has returned. -/
def addEdgesReturn (g : GraphBuilder n) : List (Fin n × Fin n) → List Bool × GraphBuilder n
  | [] => ([], g)
  | e :: es =>
      let r := g.addEdgeReturn e.1 e.2
      let q := r.2.addEdgesReturn es
      (r.1 :: q.1, q.2)

/-- A builder that has been given the edges `es`. -/
def addEdges (g : GraphBuilder n) (es : List (Fin n × Fin n)) : GraphBuilder n :=
  (g.addEdgesReturn es).2

end GraphBuilder

/-- `start_broadcast_graph_builder`. -/
def startBroadcastGraphBuilder (n : ℕ) (root : Fin n) : GraphBuilder n :=
  (List.finRange n).foldl (fun g i => if i ≠ root then g.addEdge root i else g)
    (GraphBuilder.new n)

/-- `struct graph_pair`. -/
structure GraphPair (n : ℕ) where
  reduceGraph : Graph n
  broadcastGraph : Graph n

/-- `make_circular_graph_pair`. -/
def makeCircularGraphPair (n : ℕ) [NeZero n] (r : ℕ) : GraphPair n :=
  let is := List.range' 1 (n - 1)
  let rg := is.foldl (fun g i => g.addEdge (Fin.ofNat n (r + i)) (Fin.ofNat n (r + i + 1)))
    (GraphBuilder.new n)
  let bg := is.foldl (fun g i => g.addEdge (Fin.ofNat n (r + i - 1)) (Fin.ofNat n (r + i)))
    (GraphBuilder.new n)
  ⟨rg.build false true, bg.build false false⟩

/-- `struct graph_pair_list`; there is always a pair to choose. -/
structure GraphPairList (n : ℕ) where
  pairs : List (GraphPair n)
  nonempty : 0 < pairs.length

/-- `graph_pair_list::choose`. -/
def GraphPairList.choose (l : GraphPairList n) (i : ℕ) : GraphPair n :=
  l.pairs.get ⟨i % l.pairs.length, Nat.mod_lt i l.nonempty⟩

/-- The pair of `make_graph_pair_list_star`. -/
def starPair (n : ℕ) (root : Fin n) : GraphPair n :=
  let g := startBroadcastGraphBuilder n root
  ⟨g.build true true, g.build false false⟩

/-- `make_graph_pair_list_star`. -/
def makeGraphPairListStar (n : ℕ) (root : Fin n) : GraphPairList n :=
  ⟨[starPair n root], by simp⟩

/-- `make_graph_pair_list_ring`. -/
def makeGraphPairListRing (n : ℕ) [NeZero n] : GraphPairList n where
  pairs := (List.range n).map (makeCircularGraphPair n)
  nonempty := by simpa using Nat.pos_of_ne_zero (NeZero.ne n)

/-- `enum strategy`. -/
inductive Strategy where
  | star | ring
deriving DecidableEq, Repr

/-- `make_graph_pair_list`. -/
def makeGraphPairList (s : Strategy) (n : ℕ) [NeZero n] : GraphPairList n :=
  match s with
  | .star => makeGraphPairListStar n 0
  | .ring => makeGraphPairListRing n

/-! ## What a builder holds -/

namespace GraphBuilder

theorem addEdge_eq (g : GraphBuilder n) (i j : Fin n) : g.addEdge i j =
    if g.edegExists i j then g
    else if i = j then { g with selfLoop := Function.update g.selfLoop i true }
    else
      { g with
        nexts := Function.update g.nexts i (insert j (g.nexts i))
        prevs := Function.update g.prevs j (insert i (g.prevs j)) } := by
  unfold addEdge addEdgeReturn
  split <;> rfl

theorem addEdges_eq (g : GraphBuilder n) (es : List (Fin n × Fin n)) :
    g.addEdges es = es.foldl (fun g e => g.addEdge e.1 e.2) g := by
  induction es generalizing g with
  | nil => rfl
  | cons e es ih => exact ih _

/-- What one edge adds to the lists. -/
theorem mem_nexts_addEdge (g : GraphBuilder n) (i j u v : Fin n) :
    v ∈ (g.addEdge i j).nexts u ↔ v ∈ g.nexts u ∨ (i ≠ j ∧ u = i ∧ v = j) := by
  rw [addEdge_eq]
  split
  · next h =>
    constructor
    · exact .inl
    · rintro (h' | ⟨hij, rfl, rfl⟩)
      · exact h'
      · simpa [edegExists, hij] using h
  · split
    · next hij => simp [hij]
    · next hij =>
      by_cases hu : u = i
      · subst hu
        simp [hij, or_comm]
      · simp [hu]

/-- What one edge adds to the loops. -/
theorem selfLoop_addEdge (g : GraphBuilder n) (i j u : Fin n) :
    (g.addEdge i j).selfLoop u = true ↔ g.selfLoop u = true ∨ (u = i ∧ u = j) := by
  rw [addEdge_eq]
  split
  · next h =>
    constructor
    · exact .inl
    · rintro (h' | ⟨rfl, rfl⟩)
      · exact h'
      · simpa [edegExists] using h
  · split
    · next hij =>
      subst hij
      by_cases hu : u = i
      · subst hu
        simp
      · simp [hu]
    · next hij =>
      simp only [iff_self_or]
      rintro ⟨rfl, rfl⟩
      exact absurd rfl hij

/-- Whatever has been added, the two tables agree. -/
def Consistent (g : GraphBuilder n) : Prop := ∀ u v, u ∈ g.prevs v ↔ v ∈ g.nexts u

theorem consistent_new : (new n).Consistent := by simp [Consistent, new]

theorem Consistent.addEdge {g : GraphBuilder n} (h : g.Consistent) (i j : Fin n) :
    (g.addEdge i j).Consistent := by
  intro u v
  rw [addEdge_eq]
  split
  · exact h u v
  · split
    · exact h u v
    · have := h u v
      by_cases hu : u = i <;> by_cases hv : v = j <;> subst_vars <;> simp_all

theorem Consistent.addEdges {g : GraphBuilder n} (h : g.Consistent) (es : List (Fin n × Fin n)) :
    (g.addEdges es).Consistent := by
  induction es generalizing g with
  | nil => exact h
  | cons e es ih => exact ih (h.addEdge e.1 e.2)

theorem mem_nexts_addEdges (g : GraphBuilder n) (es : List (Fin n × Fin n)) (u v : Fin n) :
    v ∈ (g.addEdges es).nexts u ↔ v ∈ g.nexts u ∨ (u ≠ v ∧ (u, v) ∈ es) := by
  induction es generalizing g with
  | nil => simp [addEdges_eq]
  | cons e es ih =>
      change v ∈ ((g.addEdge e.1 e.2).addEdges es).nexts u ↔ _
      rw [ih, mem_nexts_addEdge, List.mem_cons, Prod.ext_iff]
      constructor
      · rintro ((h | ⟨hne, rfl, rfl⟩) | ⟨hne, h⟩)
        · exact .inl h
        · exact .inr ⟨hne, .inl ⟨rfl, rfl⟩⟩
        · exact .inr ⟨hne, .inr h⟩
      · rintro (h | ⟨hne, ⟨rfl, rfl⟩ | h⟩)
        · exact .inl (.inl h)
        · exact .inl (.inr ⟨hne, rfl, rfl⟩)
        · exact .inr ⟨hne, h⟩

theorem selfLoop_addEdges (g : GraphBuilder n) (es : List (Fin n × Fin n)) (u : Fin n) :
    (g.addEdges es).selfLoop u = true ↔ g.selfLoop u = true ∨ (u, u) ∈ es := by
  induction es generalizing g with
  | nil => simp [addEdges_eq]
  | cons e es ih =>
      change ((g.addEdge e.1 e.2).addEdges es).selfLoop u = true ↔ _
      rw [ih, selfLoop_addEdge, List.mem_cons, Prod.ext_iff, or_assoc]

/-- What a builder holds after it has been given the edges `es`, none of them a loop. -/
theorem addEdges_spec (es : List (Fin n × Fin n)) (h : ∀ e ∈ es, e.1 ≠ e.2) :
    (∀ u v, v ∈ ((new n).addEdges es).nexts u ↔ (u, v) ∈ es) ∧
      (∀ u v, u ∈ ((new n).addEdges es).prevs v ↔ (u, v) ∈ es) ∧
      ((new n).addEdges es).selfLoop = fun _ => false := by
  have hnexts : ∀ u v, v ∈ ((new n).addEdges es).nexts u ↔ (u, v) ∈ es := by
    intro u v
    rw [mem_nexts_addEdges]
    simpa [new] using fun he => h (u, v) he
  refine ⟨hnexts, fun u v => (consistent_new.addEdges es u v).trans (hnexts u v), ?_⟩
  funext u
  rw [Bool.eq_false_iff, ne_eq, selfLoop_addEdges]
  simpa [new] using fun he => h (u, u) he rfl

/-! ## What `add_edge` returns -/

theorem addEdgeReturn_fst (g : GraphBuilder n) (i j : Fin n) :
    (g.addEdgeReturn i j).1 = !g.edegExists i j := by
  unfold addEdgeReturn
  cases g.edegExists i j <;> simp

/-- The test looks at one table only, and finds every edge that has been added. -/
theorem edegExists_addEdges (es : List (Fin n × Fin n)) (i j : Fin n) :
    ((new n).addEdges es).edegExists i j = decide ((i, j) ∈ es) := by
  unfold edegExists
  split
  · next hij =>
    subst hij
    rw [Bool.eq_iff_iff, selfLoop_addEdges]
    simp [new]
  · next hij =>
    congr 1
    rw [mem_nexts_addEdges]
    simp [new, hij]

theorem length_addEdgesReturn (g : GraphBuilder n) (es : List (Fin n × Fin n)) :
    (g.addEdgesReturn es).1.length = es.length := by
  induction es generalizing g with
  | nil => rfl
  | cons e es ih => simp [addEdgesReturn, ih]

/-- The call for the edge number `k`. -/
theorem addEdgesReturn_fst (es : List (Fin n × Fin n)) (g : GraphBuilder n) {k : ℕ}
    {e : Fin n × Fin n} (he : es[k]? = some e) :
    (g.addEdgesReturn es).1[k]? = some (!(g.addEdges (es.take k)).edegExists e.1 e.2) := by
  induction es generalizing g k with
  | nil => simp at he
  | cons e' es ih =>
      rw [addEdgesReturn]
      cases k with
      | zero =>
          obtain rfl : e' = e := by simpa using he
          simp [addEdgeReturn_fst, addEdges_eq]
      | succ k =>
          rw [List.getElem?_cons_succ] at he
          rw [List.getElem?_cons_succ, List.take_succ_cons, ih _ he]
          rfl

end GraphBuilder

/-! ## The star -/

theorem startBroadcastGraphBuilder_eq (root : Fin n) :
    startBroadcastGraphBuilder n root =
      (GraphBuilder.new n).addEdges (((List.finRange n).filter (· ≠ root)).map (root, ·)) := by
  simp [startBroadcastGraphBuilder, GraphBuilder.addEdges_eq, List.foldl_map, List.foldl_filter]

private theorem star_spec (root : Fin n) :
    (∀ u v, v ∈ (startBroadcastGraphBuilder n root).nexts u ↔ u = root ∧ v ≠ root) ∧
      (∀ u v, u ∈ (startBroadcastGraphBuilder n root).prevs v ↔ u = root ∧ v ≠ root) ∧
      (startBroadcastGraphBuilder n root).selfLoop = fun _ => false := by
  have h := GraphBuilder.addEdges_spec (((List.finRange n).filter (· ≠ root)).map (root, ·))
    (by simp; intro a ha; exact Ne.symm ha)
  rw [startBroadcastGraphBuilder_eq]
  have hmem : ∀ u v, (u, v) ∈ ((List.finRange n).filter (· ≠ root)).map (root, ·) ↔
      u = root ∧ v ≠ root := by
    intro u v
    simp only [List.mem_map, List.mem_filter, List.mem_finRange, true_and, decide_eq_true_eq,
      Prod.mk.injEq]
    constructor
    · rintro ⟨w, hw, rfl, rfl⟩
      exact ⟨rfl, hw⟩
    · rintro ⟨rfl, hv⟩
      exact ⟨v, hv, rfl, rfl⟩
  exact ⟨fun u v => (h.1 u v).trans (hmem u v), fun u v => (h.2.1 u v).trans (hmem u v), h.2.2⟩

/-- The vertices of the star other than its centre, in order. -/
def others (root : Fin n) : List (Fin n) := (Finset.univ.erase root).sort

@[simp] theorem mem_others {root v : Fin n} : v ∈ others root ↔ v ≠ root := by simp [others]

theorem nodup_others (root : Fin n) : (others root).Nodup := Finset.sort_nodup _ _

theorem length_others (root : Fin n) : (others root).length = n - 1 := by
  simp [others, Finset.card_erase_of_mem]

private theorem star_sets (root : Fin n) :
    (startBroadcastGraphBuilder n root).nexts root = Finset.univ.erase root ∧
      (startBroadcastGraphBuilder n root).prevs root = ∅ ∧
      ∀ v, v ≠ root → (startBroadcastGraphBuilder n root).nexts v = ∅ ∧
        (startBroadcastGraphBuilder n root).prevs v = {root} := by
  obtain ⟨h₁, h₂, -⟩ := star_spec root
  refine ⟨?_, ?_, fun v hv => ⟨?_, ?_⟩⟩ <;> ext u <;> simp [h₁, h₂]
  · exact fun h => absurd h hv
  · exact fun _ => hv

/-- Edges and loops of the star. -/
theorem starPair_root (root : Fin n) :
    (starPair n root).reduceGraph.prevs root = others root ∧
      (starPair n root).reduceGraph.nexts root = [] ∧
      (starPair n root).broadcastGraph.prevs root = [] ∧
      (starPair n root).broadcastGraph.nexts root = others root := by
  obtain ⟨h₁, h₂, -⟩ := star_sets root
  simp [starPair, GraphBuilder.build, h₁, h₂, others]

theorem starPair_leaf {root v : Fin n} (hv : v ≠ root) :
    (starPair n root).reduceGraph.prevs v = [] ∧
      (starPair n root).reduceGraph.nexts v = [root] ∧
      (starPair n root).broadcastGraph.prevs v = [root] ∧
      (starPair n root).broadcastGraph.nexts v = [] := by
  obtain ⟨-, -, h⟩ := star_sets root
  simp [starPair, GraphBuilder.build, (h v hv).1, (h v hv).2]

theorem starPair_selfLoop (root v : Fin n) :
    (starPair n root).reduceGraph.selfLoop v = true ∧
      (starPair n root).broadcastGraph.selfLoop v = false := by
  simp [starPair, GraphBuilder.build, (star_spec root).2.2]

/-! ## The ring -/

section Ring

variable [NeZero n]

/-- How far `v` lies behind vertex `s` on the circle. -/
def pos (s : ℕ) (v : Fin n) : ℕ := (v + (n - s % n)) % n

theorem pos_lt (s : ℕ) (v : Fin n) : pos s v < n :=
  Nat.mod_lt _ (Nat.pos_of_ne_zero (NeZero.ne n))

theorem pos_ofNat (s : ℕ) {k : ℕ} (hk : k < n) : pos s (Fin.ofNat n (s + k)) = k := by
  have hlt : s % n < n := Nat.mod_lt _ (Nat.pos_of_ne_zero (NeZero.ne n))
  have hsum : s % n + k + (n - s % n) = k + n := by omega
  rw [pos, Fin.val_ofNat, Nat.mod_add_mod, ← Nat.mod_add_mod, ← Nat.mod_add_mod s n k,
    Nat.mod_add_mod, hsum, Nat.add_mod_right, Nat.mod_eq_of_lt hk]

theorem ofNat_pos (s : ℕ) (v : Fin n) : Fin.ofNat n (s + pos s v) = v := by
  have hlt : s % n < n := Nat.mod_lt _ (Nat.pos_of_ne_zero (NeZero.ne n))
  have hsum : s % n + (v + (n - s % n)) = v + n := by omega
  apply Fin.ext
  rw [Fin.val_ofNat, pos, Nat.add_mod_mod, ← Nat.mod_add_mod, hsum, Nat.add_mod_right,
    Nat.mod_eq_of_lt v.isLt]

theorem pos_injective (s : ℕ) {u v : Fin n} (h : pos s u = pos s v) : u = v := by
  rw [← ofNat_pos s u, h, ofNat_pos]

/-- The vertex behind `u` on the path that starts at `s` and goes once round. -/
def pathNext (s : ℕ) (u : Fin n) : List (Fin n) :=
  if pos s u + 1 < n then [Fin.ofNat n (s + (pos s u + 1))] else []

/-- The vertex before `v` on that path. -/
def pathPrev (s : ℕ) (v : Fin n) : List (Fin n) :=
  if pos s v = 0 then [] else [Fin.ofNat n (s + (pos s v - 1))]

theorem mem_pathNext {s : ℕ} {u v : Fin n} : v ∈ pathNext s u ↔ pos s v = pos s u + 1 := by
  have hlt := pos_lt s v
  unfold pathNext
  split
  · next h =>
    rw [List.mem_singleton]
    constructor
    · intro hv
      rw [hv, pos_ofNat s h]
    · intro hv
      rw [← hv, ofNat_pos]
  · next h =>
    constructor
    · intro hv
      exact absurd hv List.not_mem_nil
    · intro hv
      omega

theorem mem_pathPrev {s : ℕ} {u v : Fin n} : u ∈ pathPrev s v ↔ pos s v = pos s u + 1 := by
  have hlt := pos_lt s v
  unfold pathPrev
  split
  · next h =>
    constructor
    · intro hu
      exact absurd hu List.not_mem_nil
    · intro hu
      omega
  · next h =>
    rw [List.mem_singleton]
    constructor
    · intro hu
      rw [hu, pos_ofNat s (by omega)]
      omega
    · intro hu
      rw [hu, Nat.add_sub_cancel, ofNat_pos]

theorem nodup_pathNext (s : ℕ) (u : Fin n) : (pathNext s u).Nodup := by
  unfold pathNext
  split <;> simp

theorem nodup_pathPrev (s : ℕ) (v : Fin n) : (pathPrev s v).Nodup := by
  unfold pathPrev
  split <;> simp

/-- The edges of the path. -/
private def pathEdges (n : ℕ) [NeZero n] (s : ℕ) : List (Fin n × Fin n) :=
  (List.range (n - 1)).map fun i => (Fin.ofNat n (s + i), Fin.ofNat n (s + (i + 1)))

private theorem mem_pathEdges {s : ℕ} {u v : Fin n} :
    (u, v) ∈ pathEdges n s ↔ pos s v = pos s u + 1 := by
  simp only [pathEdges, List.mem_map, List.mem_range, Prod.mk.injEq]
  constructor
  · rintro ⟨i, hi, rfl, rfl⟩
    rw [pos_ofNat s (by omega), pos_ofNat s (by omega)]
  · intro h
    have hlt := pos_lt s v
    refine ⟨pos s u, by omega, ofNat_pos s u, ?_⟩
    rw [← h, ofNat_pos]

omit [NeZero n] in
/-- A sorted set that has the members of a list of at most one vertex is that list. -/
private theorem sort_eq_of_mem {A : Finset (Fin n)} {l : List (Fin n)} (hl : l.length ≤ 1)
    (h : ∀ v, v ∈ A ↔ v ∈ l) : A.sort = l := by
  have hA : A = l.toFinset := by
    ext v
    rw [h, List.mem_toFinset]
  match l, hl with
  | [], _ => simp [hA]
  | [v], _ => simp [hA]

private theorem path_spec (s : ℕ) (u : Fin n) :
    (((GraphBuilder.new n).addEdges (pathEdges n s)).nexts u).sort = pathNext s u ∧
      (((GraphBuilder.new n).addEdges (pathEdges n s)).prevs u).sort = pathPrev s u ∧
      ((GraphBuilder.new n).addEdges (pathEdges n s)).selfLoop u = false := by
  obtain ⟨h₁, h₂, h₃⟩ := GraphBuilder.addEdges_spec (pathEdges n s) (by
    rintro ⟨u, v⟩ he heq
    have hpos := mem_pathEdges.mp he
    simp only at heq
    rw [heq] at hpos
    omega)
  refine ⟨sort_eq_of_mem ?_ fun v => ?_, sort_eq_of_mem ?_ fun v => ?_, congrFun h₃ u⟩
  · unfold pathNext
    split <;> simp
  · rw [h₁, mem_pathEdges, mem_pathNext]
  · unfold pathPrev
    split <;> simp
  · rw [h₂, mem_pathEdges, mem_pathPrev]

private theorem makeCircularGraphPair_eq (r : ℕ) :
    makeCircularGraphPair n r =
      ⟨((GraphBuilder.new n).addEdges (pathEdges n (r + 1))).build false true,
        ((GraphBuilder.new n).addEdges (pathEdges n r)).build false false⟩ := by
  have hsub : ∀ i, r + (i + 1) - 1 = r + i := fun i => rfl
  simp only [makeCircularGraphPair, pathEdges, GraphBuilder.addEdges_eq, List.range'_eq_map_range,
    List.foldl_map, Nat.add_assoc, Nat.add_comm 1, hsub]

/-- The reduce graph of a circular pair is the path that starts behind the root, the
broadcast graph is the path that starts at the root. -/
theorem makeCircularGraphPair_spec (r : ℕ) (v : Fin n) :
    (makeCircularGraphPair n r).reduceGraph.prevs v = pathPrev (r + 1) v ∧
      (makeCircularGraphPair n r).reduceGraph.nexts v = pathNext (r + 1) v ∧
      (makeCircularGraphPair n r).reduceGraph.selfLoop v = true ∧
      (makeCircularGraphPair n r).broadcastGraph.prevs v = pathPrev r v ∧
      (makeCircularGraphPair n r).broadcastGraph.nexts v = pathNext r v ∧
      (makeCircularGraphPair n r).broadcastGraph.selfLoop v = false := by
  obtain ⟨h₁, h₂, -⟩ := path_spec (r + 1) v
  obtain ⟨h₃, h₄, h₅⟩ := path_spec r v
  rw [makeCircularGraphPair_eq]
  simp [GraphBuilder.build, h₁, h₂, h₃, h₄, h₅]

/-- The pair the ring chooses. -/
theorem choose_star (i : ℕ) : (makeGraphPairList .star n).choose i = starPair n 0 := by
  simp [makeGraphPairList, makeGraphPairListStar, GraphPairList.choose]

theorem choose_ring (i : ℕ) :
    (makeGraphPairList .ring n).choose i = makeCircularGraphPair n (i % n) := by
  simp [makeGraphPairList, makeGraphPairListRing, GraphPairList.choose]

/-- One step behind the root is the first vertex of the reduce path. -/
theorem pos_succ (r : ℕ) (v : Fin n) :
    pos r v = if pos (r + 1) v + 1 = n then 0 else pos (r + 1) v + 1 := by
  have hlt := pos_lt (r + 1) v
  have hv := ofNat_pos (r + 1) v
  split
  · next h =>
    have hpos : Fin.ofNat n (r + 0) = v := by
      rw [← hv]
      apply Fin.ext
      rw [Fin.val_ofNat, Fin.val_ofNat, Nat.add_assoc, Nat.add_comm 1, h, Nat.add_mod_right,
        Nat.add_zero]
    rw [← hpos, pos_ofNat r (Nat.pos_of_ne_zero (NeZero.ne n))]
  · next h =>
    conv_lhs => rw [← hv, Nat.add_assoc, Nat.add_comm 1]
    exact pos_ofNat r (by omega)

end Ring

/-! ## Trees -/

open Relation StdmlCollective.Tree

/-- The edges of a graph. -/
def Graph.Edge (g : Graph n) (u v : Fin n) : Prop := v ∈ g.nexts u

/-- The two tables of a graph agree. -/
def Graph.Mirror (g : Graph n) : Prop := ∀ u v, v ∈ g.nexts u ↔ u ∈ g.prevs v

/-- The reduce graph is a spanning tree with all edges towards `r`, the broadcast graph one with
all edges away from `r`; a vertex adds its own input in the first and not in the second. -/
structure GraphPair.Rooted (p : GraphPair n) (r : Fin n) : Prop where
  reduce_selfLoop : ∀ v, p.reduceGraph.selfLoop v = true
  reduce_root : p.reduceGraph.nexts r = []
  reduce_next : ∀ v, v ≠ r → ∃ w, p.reduceGraph.nexts v = [w]
  reduce_path : ∀ v, ReflTransGen p.reduceGraph.Edge v r
  reduce_mirror : p.reduceGraph.Mirror
  broadcast_selfLoop : ∀ v, p.broadcastGraph.selfLoop v = false
  broadcast_root : p.broadcastGraph.prevs r = []
  broadcast_prev : ∀ v, v ≠ r → ∃ w, p.broadcastGraph.prevs v = [w]
  broadcast_path : ∀ v, ReflTransGen p.broadcastGraph.Edge r v
  broadcast_mirror : p.broadcastGraph.Mirror

/-- A pair is rooted when the lists of its two graphs lead to `r` by two distances. -/
private theorem GraphPair.Rooted.of_dist {p : GraphPair n} {r : Fin n} {d e : Fin n → ℕ}
    (hloop : ∀ v, p.reduceGraph.selfLoop v = true ∧ p.broadcastGraph.selfLoop v = false)
    (hmirror : p.reduceGraph.Mirror ∧ p.broadcastGraph.Mirror)
    (hroot : p.reduceGraph.nexts r = [] ∧ p.broadcastGraph.prevs r = [])
    (hd : ∀ v, d v = 0 ↔ v = r) (he : ∀ v, e v = 0 ↔ v = r)
    (hnext : ∀ v, d v ≠ 0 → ∃ w, p.reduceGraph.nexts v = [w] ∧ d v = d w + 1)
    (hprev : ∀ v, e v ≠ 0 → ∃ w, p.broadcastGraph.prevs v = [w] ∧ e v = e w + 1) :
    p.Rooted r where
  reduce_selfLoop v := (hloop v).1
  reduce_root := hroot.1
  reduce_next v hv := by
    obtain ⟨w, hw, -⟩ := hnext v (mt (hd v).mp hv)
    exact ⟨w, hw⟩
  reduce_path v := (InTree.of_succs hd hroot.1 hnext).path v
  reduce_mirror := hmirror.1
  broadcast_selfLoop v := (hloop v).2
  broadcast_root := hroot.2
  broadcast_prev v hv := by
    obtain ⟨w, hw, -⟩ := hprev v (mt (he v).mp hv)
    exact ⟨w, hw⟩
  broadcast_path v := by
    have hpath := (InTree.of_succs he hroot.2 hprev).path v
    have hsub : (fun v w => w ∈ p.broadcastGraph.prevs v) ≤
        Function.swap p.broadcastGraph.Edge := by
      intro u w hw
      exact (hmirror.2 w u).mpr hw
    apply reflTransGen_swap.mp
    exact ReflTransGen.mono hsub v r hpath
  broadcast_mirror := hmirror.2

namespace GraphPair.Rooted

variable {p : GraphPair n} {r : Fin n}

theorem inTree (h : p.Rooted r) : InTree p.reduceGraph.Edge r where
  root w hw := by
    rw [Graph.Edge, h.reduce_root] at hw
    exact List.not_mem_nil hw
  next v hv := by
    obtain ⟨w, hw⟩ := h.reduce_next v hv
    refine ⟨w, by simp [Graph.Edge, hw], ?_⟩
    intro w' hw'
    simpa [Graph.Edge, hw] using hw'
  path := h.reduce_path

theorem outTree (h : p.Rooted r) : InTree (Function.swap p.broadcastGraph.Edge) r where
  root w hw := by
    have hmem := (h.broadcast_mirror w r).mp hw
    rw [h.broadcast_root] at hmem
    exact List.not_mem_nil hmem
  next v hv := by
    obtain ⟨w, hw⟩ := h.broadcast_prev v hv
    refine ⟨w, (h.broadcast_mirror w v).mpr (by simp [hw]), ?_⟩
    intro w' hw'
    have hmem := (h.broadcast_mirror w' v).mp hw'
    simpa [hw] using hmem
  path v := reflTransGen_swap.mpr (h.broadcast_path v)

theorem unique (h : p.Rooted r) {r' : Fin n} (h' : p.Rooted r') : r = r' :=
  h.inTree.root_unique h'.inTree

theorem reduce_acyclic (h : p.Rooted r) (v : Fin n) : ¬TransGen p.reduceGraph.Edge v v :=
  h.inTree.acyclic v

theorem broadcast_acyclic (h : p.Rooted r) (v : Fin n) : ¬TransGen p.broadcastGraph.Edge v v := by
  intro hcycle
  exact h.outTree.acyclic v (transGen_swap.mpr hcycle)

end GraphPair.Rooted

/-- The star has its centre as root. -/
theorem starPair_rooted (root : Fin n) : (starPair n root).Rooted root := by
  have hroot := starPair_root root
  have hleaf : ∀ v, v ≠ root → _ := fun v hv => starPair_leaf (n := n) hv
  have hone : ∀ v, (if v = root then 0 else 1) ≠ 0 → v ≠ root := by
    intro v hv heq
    exact hv (if_pos heq)
  apply GraphPair.Rooted.of_dist (d := fun v => if v = root then 0 else 1)
    (e := fun v => if v = root then 0 else 1) (starPair_selfLoop root)
  · constructor
    · intro u v
      by_cases hu : u = root <;> by_cases hv : v = root <;> simp_all
    · intro u v
      by_cases hu : u = root <;> by_cases hv : v = root <;> simp_all
  · exact ⟨hroot.2.1, hroot.2.2.1⟩
  · simp
  · simp
  · intro v hv
    refine ⟨root, (hleaf v (hone v hv)).2.1, ?_⟩
    simp [hone v hv]
  · intro v hv
    refine ⟨root, (hleaf v (hone v hv)).2.2.1, ?_⟩
    simp [hone v hv]

section Ring

variable [NeZero n]

theorem pos_eq_zero_iff {r : ℕ} {v : Fin n} : pos r v = 0 ↔ v = Fin.ofNat n r := by
  have hn := Nat.pos_of_ne_zero (NeZero.ne n)
  constructor
  · intro h
    rw [← ofNat_pos r v, h, Nat.add_zero]
  · intro h
    rw [h]
    exact pos_ofNat r hn

theorem pos_succ_eq_iff {r : ℕ} {v : Fin n} : pos (r + 1) v + 1 = n ↔ v = Fin.ofNat n r := by
  have hsucc := pos_succ r v
  rw [← pos_eq_zero_iff, hsucc]
  split
  · next h => simp [h]
  · next h => simp [h]

/-- A circular pair has the vertex it is made for as root. -/
theorem makeCircularGraphPair_rooted (r : ℕ) :
    (makeCircularGraphPair n r).Rooted (Fin.ofNat n r) := by
  have hspec := fun v => makeCircularGraphPair_spec (n := n) r v
  have hlast : ∀ v : Fin n, n - 1 - pos (r + 1) v = 0 ↔ v = Fin.ofNat n r := by
    intro v
    have hlt := pos_lt (r + 1) v
    rw [← pos_succ_eq_iff]
    omega
  apply GraphPair.Rooted.of_dist (d := fun v => n - 1 - pos (r + 1) v) (e := fun v => pos r v)
  · intro v
    exact ⟨(hspec v).2.2.1, (hspec v).2.2.2.2.2⟩
  · constructor
    · intro u v
      rw [(hspec u).2.1, (hspec v).1, mem_pathNext, mem_pathPrev]
    · intro u v
      rw [(hspec u).2.2.2.2.1, (hspec v).2.2.2.1, mem_pathNext, mem_pathPrev]
  · constructor
    · rw [(hspec _).2.1, pathNext, if_neg]
      have h := pos_succ_eq_iff (n := n) (r := r).mpr rfl
      omega
    · rw [(hspec _).2.2.2.1, pathPrev, if_pos (pos_eq_zero_iff.mpr rfl)]
  · exact hlast
  · intro v
    exact pos_eq_zero_iff
  · intro v hv
    have hlt := pos_lt (r + 1) v
    have hnext : pos (r + 1) v + 1 < n := by omega
    refine ⟨Fin.ofNat n (r + 1 + (pos (r + 1) v + 1)), ?_, ?_⟩
    · rw [(hspec v).2.1, pathNext, if_pos hnext]
    · rw [pos_ofNat (r + 1) hnext]
      omega
  · intro v hv
    have hlt := pos_lt r v
    refine ⟨Fin.ofNat n (r + (pos r v - 1)), ?_, ?_⟩
    · rw [(hspec v).2.2.2.1, pathPrev, if_neg hv]
    · rw [pos_ofNat r (by omega)]
      omega

end Ring

/-- The topology: every pair of either strategy has exactly one root, its graphs have no cycle;
the root is 0 for the star, and the ring has for every vertex exactly one pair with that root. -/
theorem makeGraphPairList_rooted (n : ℕ) [NeZero n] :
    (∀ s, ∀ p ∈ (makeGraphPairList s n).pairs, ∃! r, p.Rooted r ∧
      ∀ v, ¬TransGen p.reduceGraph.Edge v v ∧ ¬TransGen p.broadcastGraph.Edge v v) ∧
    (∀ i, ((makeGraphPairList .star n).pairs.get i).Rooted 0) ∧
    (makeGraphPairList .ring n).pairs.length = n ∧
    (∀ i, ((makeGraphPairList .ring n).pairs.get i).Rooted (Fin.ofNat n i)) ∧
    ∀ r, ∃! i, ((makeGraphPairList .ring n).pairs.get i).Rooted r := by
  have hstar : ∀ i, ((makeGraphPairList .star n).pairs.get i).Rooted 0 := by
    intro i
    have hp : (makeGraphPairList .star n).pairs.get i = starPair n 0 :=
      List.mem_singleton.mp (List.get_mem _ i)
    rw [hp]
    exact starPair_rooted 0
  have hlen : (makeGraphPairList .ring n).pairs.length = n := by
    simp [makeGraphPairList, makeGraphPairListRing]
  have hring : ∀ i, ((makeGraphPairList .ring n).pairs.get i).Rooted (Fin.ofNat n i) := by
    intro i
    have hp : (makeGraphPairList .ring n).pairs.get i = makeCircularGraphPair n i := by
      rw [List.get_eq_getElem]
      simp [makeGraphPairList, makeGraphPairListRing]
    rw [hp]
    exact makeCircularGraphPair_rooted i
  refine ⟨?_, hstar, hlen, hring, ?_⟩
  · intro s p hp
    have hrooted : ∃ r, p.Rooted r := by
      obtain ⟨i, rfl⟩ := List.get_of_mem hp
      cases s with
      | star => exact ⟨0, hstar i⟩
      | ring => exact ⟨_, hring i⟩
    obtain ⟨r, hr⟩ := hrooted
    refine ⟨r, ⟨hr, fun v => ⟨hr.reduce_acyclic v, hr.broadcast_acyclic v⟩⟩, ?_⟩
    intro r' hr'
    exact hr'.1.unique hr
  · intro r
    refine ⟨⟨r, by omega⟩, ?_, ?_⟩
    · have h := hring ⟨r, by omega⟩
      rwa [show Fin.ofNat n r = r from Fin.ofNat_val_eq_self r] at h
    · intro i hi
      have heq := (hring i).unique hi
      apply Fin.ext
      rw [← heq, Fin.val_ofNat, Nat.mod_eq_of_lt]
      have := i.isLt
      omega

/-- Both strategies for three peers. -/
theorem makeGraphPairList_rooted_three :
    (∀ s, ∀ p ∈ (makeGraphPairList s 3).pairs, ∃! r, p.Rooted r ∧
      ∀ v, ¬TransGen p.reduceGraph.Edge v v ∧ ¬TransGen p.broadcastGraph.Edge v v) ∧
    (∀ i, ((makeGraphPairList .star 3).pairs.get i).Rooted 0) ∧
    (makeGraphPairList .ring 3).pairs.length = 3 ∧
    (∀ i, ((makeGraphPairList .ring 3).pairs.get i).Rooted (Fin.ofNat 3 i)) ∧
    ∀ r, ∃! i, ((makeGraphPairList .ring 3).pairs.get i).Rooted r :=
  makeGraphPairList_rooted 3

/-! ## What `graph_builder` keeps -/

/-- The graph with all edges the other way. -/
def Graph.transpose (g : Graph n) : Graph n := ⟨g.selfLoop, g.prevs, g.nexts⟩

namespace GraphBuilder

/-- The graphs that a builder with the edges `es` builds: an edge is in both tables or in none, the
lists are sorted and without repetitions, and `reverse` gives the transpose. -/
structure Coherent (g : GraphBuilder n) (es : List (Fin n × Fin n)) : Prop where
  edge : ∀ reverse loops i j, j ∈ (g.build reverse loops).nexts i ↔
    i ≠ j ∧ (if reverse then (j, i) else (i, j)) ∈ es
  mirror : ∀ reverse loops, (g.build reverse loops).Mirror
  sorted : ∀ reverse loops i,
    ((g.build reverse loops).nexts i).SortedLT ∧ ((g.build reverse loops).prevs i).SortedLT
  loop : ∀ reverse loops i,
    (g.build reverse loops).selfLoop i = true ↔ (i, i) ∈ es ∨ loops = true
  transpose : ∀ loops, g.build true loops = (g.build false loops).transpose

theorem coherent_addEdges (es : List (Fin n × Fin n)) : ((new n).addEdges es).Coherent es := by
  have hprevs : ((new n).addEdges es).Consistent := consistent_new.addEdges es
  have hnexts : ∀ u v, v ∈ ((new n).addEdges es).nexts u ↔ u ≠ v ∧ (u, v) ∈ es := by
    intro u v
    rw [mem_nexts_addEdges]
    simp [new]
  refine ⟨?_, ?_, ?_, ?_, fun _ => rfl⟩
  · intro reverse loops i j
    cases reverse with
    | false => simp [build, hnexts]
    | true => simp [build, hprevs j i, hnexts, ne_comm]
  · intro reverse loops u v
    cases reverse with
    | false => simpa [build] using (hprevs u v).symm
    | true => simpa [build] using hprevs v u
  · intro reverse loops i
    cases reverse <;> exact ⟨Finset.sortedLT_sort _, Finset.sortedLT_sort _⟩
  · intro reverse loops i
    cases loops with
    | false => simp [build, selfLoop_addEdges, new]
    | true => simp [build]

/-- **A coherent graph, whatever is added.** `add_edge` returns `true` for the first insertion of an
edge and `false` for the others. -/
theorem graph_builder_coherent (es : List (Fin n × Fin n)) :
    ((new n).addEdgesReturn es).1 = List.ofFn (fun k => decide (es.get k ∉ es.take k)) ∧
      ((new n).addEdgesReturn es).2.Coherent es := by
  constructor
  · apply List.ext_getElem?
    intro k
    rw [List.getElem?_ofFn]
    split
    · next hk =>
      rw [addEdgesReturn_fst es _ (List.getElem?_eq_getElem hk), edegExists_addEdges, decide_not]
      rfl
    · next hk =>
      rw [List.getElem?_eq_none]
      rw [length_addEdgesReturn]
      omega
  · exact coherent_addEdges es

example : ((new 3).addEdgesReturn [(0, 1), (1, 1), (0, 1), (1, 0), (1, 1)]).1 =
    [true, true, false, true, false] := by decide

end GraphBuilder

end StdmlCollective

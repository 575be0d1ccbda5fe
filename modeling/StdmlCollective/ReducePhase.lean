import StdmlCollective.AllReduce

/-!
# The reduce phase

What `run_graphs_multi_thread` does over a reduce graph, whichever of the two strategies it comes
from. The graph is a tree: every vertex adds what its children send, in whatever order it arrives,
and sends the sum on. What it sends is then the reduction of all inputs below it, each counted
once, as long as its `uint32_t` counter does not come back to zero.
-/

namespace StdmlCollective

open BlockNet LittleEndian Relation

variable {n : ℕ} [NeZero n]

/-- The label of the section in which a vertex receives: it sends one later, when the next vertex
receives. -/
def reduceLab (s : Strategy) (i : ℕ) (v : Fin n) : ℕ :=
  match s with
  | .star => if v = 0 then 2 else 1
  | .ring => pos (i + 1) v + 1

/-- The reduce graph of pair number `i`. -/
def reduceGraphAt (s : Strategy) (i : Fin (makeGraphPairList s n).pairs.length) : Graph n :=
  ((makeGraphPairList s n).pairs.get i).reduceGraph

/-- `run_graphs_multi_thread` over a reduce graph; then the peer shows what `effective_data` points
to. -/
def reducePhase (s : Strategy) (i : Fin (makeGraphPairList s n).pairs.length)
    (w : Fin n → Workspace) (v : Fin n) : List (Par (Fin n) ℕ Store Bytes) :=
  stamp (fun j => if j = 0 then 0 else if j ≤ 2 then reduceLab s i v + (j - 1) else n + 3)
    (runGraphsMultiThread id v (w v) [reduceGraphAt s i] ++
      [[.ret 0 fun σ => Memory.read ((w v).effectiveData σ) (w v).dataSize σ.mem]])

/-- The workspaces of part `e` of a call. -/
def AllReduceCall.partWorkspace (c : AllReduceCall n) (e : ℕ × ℕ) (v : Fin n) : Workspace :=
  (c.workspace v).slice e.1 e.2

/-- The reduce phase is right: what a vertex sends is the reduction of the inputs of the vertices
that reach it, the root ends with the reduction of all, and no input is overwritten unless it is
where the result goes. -/
def ReducePhaseCorrect (s : Strategy) (n : ℕ) [NeZero n] (ident : Fin n → PeerId) : Prop :=
  ∀ c : AllReduceCall n, c.Ok → ∀ e ∈ c.parts, ∀ i, ∀ (k : Fin n → UInt32)
    (x : Cluster (Fin n) PeerId ℕ Store Bytes),
    CReach ident Store.writeBody (reducePhase s i (c.partWorkspace e)) (fun v => ⟨c.mem v, k v⟩) x →
      (∀ v d m y, NStep ident Store.writeBody v (x v) (.send d m) y →
        d ∈ (reduceGraphAt s i).nexts v ∧
          ∀ l : List (Fin n), l.Nodup → (∀ u, u ∈ l ↔ ReflTransGen (reduceGraphAt s i).Edge u v) →
            m.data = reduceAll c.elemOp (dtypeSize c.dt) (e.2 - e.1) (l.map (c.partInput e))) ∧
      (∀ r, ((makeGraphPairList s n).pairs.get i).Rooted r →
        ∀ j v, (j, v) ∈ (x r).returned → v = c.partResult e) ∧
      (∀ v, c.send v ≠ c.recv v → (c.partWorkspace e v).input (x v).store.mem = c.partInput e v) ∧
      (¬x.Final → ∃ x', CStep ident Store.writeBody x x')

/-! ## Graphs and labels -/

/-- What the proofs need to know about a reduce graph and its labels. -/
structure Graph.Labelled (g : Graph n) (L : Fin n → ℕ) : Prop where
  selfLoop : ∀ v, g.selfLoop v = true
  mirror : g.Mirror
  nodup_nexts : ∀ v, (g.nexts v).Nodup
  nodup_prevs : ∀ v, (g.prevs v).Nodup
  edge : ∀ u v, v ∈ g.nexts u → L v = L u + 1
  pos : ∀ v, 0 < L v
  lt : ∀ v, L v + 1 < n + 3

theorem get_rooted {s : Strategy} (i : Fin (makeGraphPairList s n).pairs.length) :
    ∃ r, ((makeGraphPairList s n).pairs.get i).Rooted r := by
  cases s with
  | star =>
      have hp : (makeGraphPairList .star n).pairs.get i = starPair n 0 :=
        List.mem_singleton.mp (List.get_mem _ i)
      rw [hp]
      exact ⟨0, starPair_rooted 0⟩
  | ring =>
      have hp : (makeGraphPairList .ring n).pairs.get i = makeCircularGraphPair n i := by
        rw [List.get_eq_getElem]
        simp [makeGraphPairList, makeGraphPairListRing]
      rw [hp]
      exact ⟨_, makeCircularGraphPair_rooted i⟩

theorem labelled_reduceGraphAt (s : Strategy) (i : Fin (makeGraphPairList s n).pairs.length) :
    (reduceGraphAt s i).Labelled (reduceLab s i) := by
  obtain ⟨r, hr⟩ := get_rooted i
  cases s with
  | star =>
      have hg : reduceGraphAt .star i = (starPair n 0).reduceGraph := by
        rw [reduceGraphAt, List.mem_singleton.mp (List.get_mem _ i)]
      have hroot := starPair_root (0 : Fin n)
      have hpos := Nat.pos_of_ne_zero (NeZero.ne n)
      refine ⟨hr.reduce_selfLoop, hr.reduce_mirror, fun v => ?_, fun v => ?_, fun u v h => ?_,
        fun v => ?_, fun v => ?_⟩
      · rw [hg]
        by_cases hv : v = 0
        · rw [hv, hroot.2.1]
          exact List.nodup_nil
        · rw [(starPair_leaf hv).2.1]
          exact List.nodup_singleton _
      · rw [hg]
        by_cases hv : v = 0
        · rw [hv, hroot.1]
          exact nodup_others 0
        · rw [(starPair_leaf hv).1]
          exact List.nodup_nil
      · rw [hg] at h
        by_cases hu : u = 0
        · rw [hu, hroot.2.1] at h
          exact absurd h List.not_mem_nil
        · rw [(starPair_leaf hu).2.1, List.mem_singleton] at h
          simp [reduceLab, h, hu]
      · simp only [reduceLab]
        split <;> omega
      · simp only [reduceLab]
        split <;> omega
  | ring =>
      have hg : reduceGraphAt .ring i = (makeCircularGraphPair n i).reduceGraph := by
        rw [reduceGraphAt, List.get_eq_getElem]
        simp [makeGraphPairList, makeGraphPairListRing]
      have hspec := fun v => makeCircularGraphPair_spec (n := n) i v
      refine ⟨hr.reduce_selfLoop, hr.reduce_mirror, fun v => ?_, fun v => ?_, fun u v h => ?_,
        fun v => ?_, fun v => ?_⟩
      · rw [hg, (hspec v).2.1]
        exact nodup_pathNext _ _
      · rw [hg, (hspec v).1]
        exact nodup_pathPrev _ _
      · rw [hg, (hspec u).2.1, mem_pathNext] at h
        simp only [reduceLab, h]
      · simp [reduceLab]
      · have hlt := pos_lt (i + 1) v
        simp only [reduceLab]
        omega

/-! ## Blocks -/

section Blocks

variable {s : Strategy} {i : Fin (makeGraphPairList s n).pairs.length}
variable {w : Fin n → Workspace} {name : Bytes} {f : ℕ → ℕ → ℕ}

/-- What a peer shows at the end of the phase. -/
def Workspace.shown (w : Workspace) (σ : Store) : Bytes :=
  Memory.read (w.effectiveData σ) w.dataSize σ.mem

theorem reducePhase_blocks (hw : Agree w name) (v : Fin n)
    (hf : elemOp (w v).dt (w v).op = some f) :
    blocks Store.writeBody (reducePhase s i w v) =
      [⟨0, [.act (w v).start]⟩,
        ⟨reduceLab s i v, ((reduceGraphAt s i).prevs v).map fun q =>
          .recv q (name, false) ((w v).addTo f)⟩,
        ⟨reduceLab s i v + 1, ((reduceGraphAt s i).nexts v).map fun q =>
          .send q (name, false) (w v).payload⟩,
        ⟨n + 3, [.emit 0 (w v).shown]⟩] := by
  have hloop := (labelled_reduceGraphAt s i).selfLoop v
  have hname := hw.name_eq v
  have hnul := hw.nulFree' v
  simp [reducePhase, runGraphsMultiThread, runGraph, hloop, stamp, blocks, Par.block,
    recvTask_job_reduce hf, sendTask_job hnul, Function.comp_def, hname]
  rfl

theorem reducePhase_compat (hw : Agree w name) (hf : ∀ v, elemOp (w v).dt (w v).op = some f) :
    Compat fun v => blocks Store.writeBody (reducePhase s i w v) := by
  have hg := labelled_reduceGraphAt s i
  constructor
  · intro v
    rw [reducePhase_blocks hw v (hf v)]
    have hpos := hg.pos v
    have hlt := hg.lt v
    refine .cons (Block.valid_act _ _) (.cons
      (Block.valid_recvs _ (hg.nodup_prevs v) _ fun _ => (w v).addTo f) (.cons
        (Block.valid_sends _ (hg.nodup_nexts v) _ _) (.cons (Block.valid_emit _ _ _) .nil ?_) ?_)
          ?_) ?_
    all_goals simp
    all_goals omega
  · intro u v
    rw [reducePhase_blocks hw u (hf u), reducePhase_blocks hw v (hf v)]
    simp only [sends_cons, sends_nil, recvs_cons, recvs_nil, Block.sends_act, Block.recvs_act,
      Block.sends_emit, Block.recvs_emit, Block.recvs_send,
      Block.sends_recv _ _ _ _ fun _ => (w u).addTo f, Block.sends_map _ (hg.nodup_nexts u),
      Block.recvs_map _ (hg.nodup_prevs v) _ fun _ => (w v).addTo f, ← hg.mirror u v]
    by_cases hedge : v ∈ (reduceGraphAt s i).nexts u
    · simp [hedge, hg.edge u v hedge]
    · simp [hedge]

theorem reducePhase_fresh (v : Fin n) {b : Par (Fin n) ℕ Store Bytes}
    (hb : b ∈ reducePhase s i w v) {th : Thread (Fin n) ℕ Store Bytes} (hth : th ∈ b.threads) :
    th.Fresh := by
  refine fresh_stamp (fun ths hths th hth => ?_) hb hth
  rcases List.mem_append.mp hths with hths | hths
  · exact fresh_runGraphs hths hth
  · obtain rfl := List.mem_singleton.mp hths
    obtain rfl := List.mem_singleton.mp hth
    trivial

/-! ## Values -/

/-- Every vertex sends `val`: this is what it settles on when its children send theirs, whatever
order they arrive in. -/
def Values (g : Graph n) (w : Fin n → Workspace) (f : ℕ → ℕ → ℕ) (M : Fin n → Memory.Mem)
    (val : Fin n → Bytes) : Prop :=
  ∀ v, ∀ l : List (Fin n), l.Perm (g.prevs v) → (w v).settled f (M v) (l.map val) = val v

/-- The contract of the phase: messages and shown values are `val`. -/
def reduceContract (g : Graph n) (val : Fin n → Bytes) : Contract (Fin n) ℕ Key Bytes Bytes where
  msg u v m := v ∈ g.nexts u ∧ m.data = val u
  out v _ o := o = val v

theorem reducePhase_good (hw : Agree w name) (hfit : Fits w)
    (hf : ∀ v, elemOp (w v).dt (w v).op = some f) {M : Fin n → Memory.Mem} {val : Fin n → Bytes}
    (hval : Values (reduceGraphAt s i) w f M val) (v : Fin n) {σ : Store} (hσ : σ.mem = M v) :
    Good (reduceContract (reduceGraphAt s i) val) v (fun _ => True)
      (blocks Store.writeBody (reducePhase s i w v)) σ := by
  rw [reducePhase_blocks hw v (hf v)]
  have hstart := start_added (w v) f σ
  rw [hσ] at hstart
  have hid : (reduceGraphAt s i).prevs v = ((reduceGraphAt s i).prevs v).map id := by simp
  have hmsg : ∀ q ∈ (reduceGraphAt s i).prevs v, ∀ d,
      (reduceContract (reduceGraphAt s i) val).msg (id q) v ⟨reduceLab s i v, (name, false), d⟩ →
        d = val q := fun q _ d hd => hd.2
  rw [hid]
  refine Good.single (star_good_reduce (hfit.separate v) hmsg (fun l hl τ hτ => ?_) hstart)
  -- what `effective_data` points to now is what the vertex settles on
  have hread : Memory.read ((w v).effectiveData τ) (w v).dataSize τ.mem = val v := by
    rw [hτ.read_effective (hfit.separate v), ← hval v l hl, Workspace.settled, List.length_map]
  refine Good.frame (fun j hj R hR => ?_) (Good.single ⟨hread, .done trivial⟩)
  obtain ⟨q, hq, rfl⟩ := List.mem_map.mp hj
  exact ⟨⟨hq, hfit.payload_eq v hread⟩, hR⟩

/-- **The phase in every state it can reach**, when `val` is what the vertices settle on. -/
theorem reducePhase_reach {ident : Fin n → PeerId} (hid : Function.Injective ident)
    (hw : Agree w name) (hfit : Fits w) (hf : ∀ v, elemOp (w v).dt (w v).op = some f)
    {σ : Fin n → Store} {val : Fin n → Bytes}
    (hval : Values (reduceGraphAt s i) w f (fun v => (σ v).mem) val)
    {x : Cluster (Fin n) PeerId ℕ Store Bytes}
    (hx : CReach ident Store.writeBody (reducePhase s i w) σ x) :
    (∀ v d m y, NStep ident Store.writeBody v (x v) (.send d m) y →
      d ∈ (reduceGraphAt s i).nexts v ∧ m.data = val v) ∧
    (∀ v j o, (j, o) ∈ (x v).returned → o = val v) ∧
    (¬x.Final → ∃ x', CStep ident Store.writeBody x x') := by
  have hcompat := reducePhase_compat (i := i) hw hf
  obtain ⟨a, ha, hsim⟩ := simulate
    (tidy_of_compat hid (fun v b hb th hth => reducePhase_fresh v hb hth) hcompat) hcompat
    (fun a _ => excl_of_injective hid a) hx
  have hkept := Kept.reach (Q := fun _ _ => True)
    (fun v => reducePhase_good hw hfit hf hval v rfl) ha
  refine ⟨fun v d m y hstep => ?_, fun v j o ho => ?_,
    hsim.progress (hcompat.matched_reach ha) (excl_of_injective hid a)⟩
  · obtain ⟨-, a', hl, -⟩ := (hsim v).send hstep
    exact (hkept.good v).grants hl
  · rw [← (hsim v).out] at ho
    exact hkept.out v j o ho

/-- An input out of place is left as it is. -/
theorem reducePhase_input {ident : Fin n → PeerId} (hid : Function.Injective ident)
    (hw : Agree w name) (hfit : Fits w) (hf : ∀ v, elemOp (w v).dt (w v).op = some f)
    {σ : Fin n → Store} {x : Cluster (Fin n) PeerId ℕ Store Bytes}
    (hx : CReach ident Store.writeBody (reducePhase s i w) σ x) (v : Fin n)
    (hne : (w v).send ≠ (w v).recv) : (w v).input (x v).store.mem = (w v).input (σ v).mem := by
  have hcompat := reducePhase_compat (i := i) hw hf
  obtain ⟨a, ha, hsim⟩ := simulate
    (tidy_of_compat hid (fun v b hb th hth => reducePhase_fresh v hb hth) hcompat) hcompat
    (fun a _ => excl_of_injective hid a) hx
  have hkeep := Reach.keeps (I := fun v τ => (w v).send ≠ (w v).recv →
    (w v).input τ.mem = (w v).input (σ v).mem) (fun v _ => rfl) (fun v b hb j hj => ?_) ha v hne
  · rwa [(hsim v).store] at hkeep
  · rw [reducePhase_blocks hw v (hf v)] at hb
    simp only [List.mem_cons, List.not_mem_nil, or_false] at hb
    rcases hb with rfl | rfl | rfl | rfl
    · obtain rfl := List.mem_singleton.mp hj
      exact fun τ h => h
    · -- `add_to` writes the `recv` buffer only
      obtain ⟨q, -, rfl⟩ := List.mem_map.mp hj
      intro d τ h hne
      have happart := (hfit.separate v).resolve_left hne
      have heff : (w v).effectiveData τ = (w v).recv ∨ Memory.Apart ((w v).effectiveData τ)
          (w v).dataSize (w v).recv (w v).dataSize := by
        rw [Workspace.effectiveData]
        split
        · exact .inl rfl
        · exact .inr happart
      rw [← h hne, Workspace.addTo, reduce_eq f _ d (w v).count τ.mem heff]
      exact Memory.read_write_apart τ.mem (by rw [length_zipElems]; exact happart)
    · obtain ⟨q, -, rfl⟩ := List.mem_map.mp hj
      trivial
    · obtain rfl := List.mem_singleton.mp hj
      trivial

end Blocks

/-! ## Subtrees -/

section Subtree

open Classical in
/-- The vertices that reach `v`. -/
noncomputable def Graph.below (g : Graph n) (v : Fin n) : List (Fin n) :=
  (List.finRange n).filter fun u => ReflTransGen g.Edge u v

omit [NeZero n] in
theorem Graph.mem_below {g : Graph n} {u v : Fin n} : u ∈ g.below v ↔ ReflTransGen g.Edge u v := by
  simp [Graph.below]

omit [NeZero n] in
theorem Graph.nodup_below (g : Graph n) (v : Fin n) : (g.below v).Nodup :=
  (List.nodup_finRange n).filter _

omit [NeZero n] in
theorem Graph.perm_below {g : Graph n} {v : Fin n} {l : List (Fin n)} (hl : l.Nodup)
    (h : ∀ u, u ∈ l ↔ ReflTransGen g.Edge u v) : l.Perm (g.below v) := by
  rw [List.perm_ext_iff_of_nodup hl (g.nodup_below v)]
  intro u
  rw [h, Graph.mem_below]

omit [NeZero n] in
/-- Below a vertex are the vertex itself and, apart from each other, what is below its children. -/
theorem Graph.below_perm {g : Graph n} {r : Fin n} (htree : Tree.InTree g.Edge r)
    (hmirror : g.Mirror) {v : Fin n} (hnodup : (g.prevs v).Nodup) {l : List (Fin n)}
    (hl : l.Perm (g.prevs v)) : (v :: (l.map g.below).flatten).Perm (g.below v) := by
  have hedge : ∀ q, q ∈ l ↔ g.Edge q v := by
    intro q
    rw [hl.mem_iff, ← hmirror q v]
    rfl
  apply Graph.perm_below
  · rw [List.nodup_cons]
    constructor
    · intro hv
      simp only [List.mem_flatten, List.mem_map] at hv
      obtain ⟨_, ⟨q, hq, rfl⟩, hv⟩ := hv
      exact htree.acyclic v (TransGen.tail' (Graph.mem_below.mp hv) ((hedge q).mp hq))
    · rw [List.nodup_flatten]
      constructor
      · intro b hb
        obtain ⟨q, -, rfl⟩ := List.mem_map.mp hb
        exact g.nodup_below q
      · rw [List.pairwise_map]
        apply (hl.nodup_iff.mpr hnodup).imp_of_mem
        intro q q' hq hq' hne u hu hu'
        exact htree.disjoint ((hedge q).mp hq) ((hedge q').mp hq') hne (Graph.mem_below.mp hu)
          (Graph.mem_below.mp hu')
  · intro u
    rw [List.mem_cons, List.mem_flatten]
    constructor
    · rintro (rfl | ⟨_, hb, hu⟩)
      · exact .refl
      · obtain ⟨q, hq, rfl⟩ := List.mem_map.mp hb
        exact (Graph.mem_below.mp hu).tail ((hedge q).mp hq)
    · intro hu
      rcases ReflTransGen.cases_tail hu with heq | ⟨q, huq, hqv⟩
      · exact .inl heq.symm
      · exact .inr ⟨g.below q, List.mem_map_of_mem ((hedge q).mpr hqv), Graph.mem_below.mpr huq⟩

variable {c : AllReduceCall n} {e : ℕ × ℕ}

/-- The reduction of what is below a vertex. -/
noncomputable def AllReduceCall.belowResult (c : AllReduceCall n) (e : ℕ × ℕ) (g : Graph n)
    (v : Fin n) : Bytes :=
  reduceAll c.elemOp (dtypeSize c.dt) (e.2 - e.1) ((g.below v).map (c.partInput e))

omit [NeZero n] in
/-- A vertex that does not wrap its counter settles on the reduction of what is below it. -/
theorem values_below {g : Graph n} {r : Fin n} (htree : Tree.InTree g.Edge r)
    (hmirror : g.Mirror) (hnodup : ∀ v, (g.prevs v).Nodup)
    (hlt : ∀ v, (g.prevs v).length < 2 ^ 32) :
    Values g (c.partWorkspace e) c.elemOp c.mem (c.belowResult e g) := by
  intro v l hl
  have hcomm : Std.Commutative c.elemOp := inferInstanceAs (Std.Commutative (intElemOp _ _))
  have hassoc : Std.Associative c.elemOp := inferInstanceAs (Std.Associative (intElemOp _ _))
  have hlen : (l.map (c.belowResult e g)).length < 2 ^ 32 := by
    rw [List.length_map, hl.length_eq]
    exact hlt v
  have hgroups : l.map (c.belowResult e g) =
      (l.map fun q => (g.below q).map (c.partInput e)).map
        (reduceAll c.elemOp (dtypeSize c.dt) (e.2 - e.1)) := by
    rw [List.map_map]
    rfl
  have hne : ∀ b ∈ l.map fun q => (g.below q).map (c.partInput e), b ≠ [] := by
    intro b hb
    obtain ⟨q, -, rfl⟩ := List.mem_map.mp hb
    simp only [ne_eq, List.map_eq_nil_iff]
    exact List.ne_nil_of_mem (Graph.mem_below.mpr .refl)
  have hflat : c.partInput e v :: (l.map fun q => (g.below q).map (c.partInput e)).flatten =
      (v :: (l.map g.below).flatten).map (c.partInput e) := by
    simp [List.map_flatten, Function.comp_def]
  rw [Workspace.settled_eq _ (.inl hlen), hgroups]
  refine (foldl_zipElems_reduceAll (intElemOp_lt c.dt c.op) (Workspace.length_input _ _)
    hne).trans ?_
  change reduceAll _ _ _ (c.partInput e v :: _) = _
  rw [hflat]
  exact reduceAll_perm ((Graph.below_perm htree hmirror (hnodup v) hl).map _)

omit [NeZero n] in
/-- All vertices are below the root. -/
theorem belowResult_root {g : Graph n} {r : Fin n} (htree : Tree.InTree g.Edge r) :
    c.belowResult e g r = c.partResult e := by
  have hcomm : Std.Commutative c.elemOp := inferInstanceAs (Std.Commutative (intElemOp _ _))
  have hassoc : Std.Associative c.elemOp := inferInstanceAs (Std.Associative (intElemOp _ _))
  apply reduceAll_perm
  apply List.Perm.map
  apply List.Perm.symm
  apply Graph.perm_below (List.nodup_finRange n)
  intro u
  exact iff_of_true (List.mem_finRange u) (htree.path u)

end Subtree

/-! ## Up to `2 ^ 32` peers, or over the ring -/

theorem AllReduceCall.Ok.agree {c : AllReduceCall n} (hc : c.Ok) (e : ℕ × ℕ) :
    Agree (c.partWorkspace e) (partName c.name e.1 e.2) := (hc.part e).toAgree

/-- No counter wraps: over the ring a vertex receives from one other, over the star from
`n - 1`. -/
theorem length_prevs_lt {s : Strategy} (hs : s = .ring ∨ n ≤ 2 ^ 32)
    (i : Fin (makeGraphPairList s n).pairs.length) (v : Fin n) :
    ((reduceGraphAt s i).prevs v).length < 2 ^ 32 := by
  have hpos := Nat.pos_of_ne_zero (NeZero.ne n)
  have hle : ((reduceGraphAt s i).prevs v).length ≤ n :=
    ((labelled_reduceGraphAt s i).nodup_prevs v).length_le_card.trans_eq (Fintype.card_fin n)
  cases s with
  | ring =>
      have hg : (reduceGraphAt .ring i).prevs v = pathPrev (i + 1) v := by
        rw [← (makeCircularGraphPair_spec (n := n) i v).1, reduceGraphAt, List.get_eq_getElem]
        simp [makeGraphPairList, makeGraphPairListRing]
      rw [hg, pathPrev]
      split <;> simp
  | star =>
      have hn := hs.resolve_left (by simp)
      have hg : reduceGraphAt .star i = (starPair n 0).reduceGraph := by
        rw [reduceGraphAt, List.mem_singleton.mp (List.get_mem _ i)]
      rw [hg]
      by_cases hv : v = 0
      · rw [hv, (starPair_root 0).1, length_others]
        omega
      · rw [(starPair_leaf hv).1]
        simp

theorem reducePhaseCorrect_of_ok {s : Strategy} {ident : Fin n → PeerId}
    (hid : Function.Injective ident) (hs : s = .ring ∨ n ≤ 2 ^ 32) :
    ReducePhaseCorrect s n ident := by
  intro c hc e he i k x hx
  obtain ⟨r, hr⟩ := get_rooted i
  have hg := labelled_reduceGraphAt s i
  have hf : ∀ v, elemOp (c.partWorkspace e v).dt (c.partWorkspace e v).op = some c.elemOp :=
    fun v => elemOp_of_isInt hc.isInt _
  have hfit : Fits (c.partWorkspace e) := hc.fits he
  have hlt := length_prevs_lt hs i
  have hval : Values (reduceGraphAt s i) (c.partWorkspace e) c.elemOp c.mem
      (c.belowResult e (reduceGraphAt s i)) := by
    apply values_below hr.inTree hg.mirror hg.nodup_prevs
    exact hlt
  obtain ⟨hsend, hout, hprog⟩ := reducePhase_reach (σ := fun v => ⟨c.mem v, k v⟩) hid
    (hc.agree e) hfit hf hval hx
  refine ⟨fun v d m y hstep => ?_, fun r' hr' j o ho => ?_, fun v hne => ?_, hprog⟩
  · obtain ⟨hd, hdata⟩ := hsend v d m y hstep
    refine ⟨hd, fun l hl hmem => ?_⟩
    have hcomm : Std.Commutative c.elemOp := inferInstanceAs (Std.Commutative (intElemOp _ _))
    have hassoc : Std.Associative c.elemOp := inferInstanceAs (Std.Associative (intElemOp _ _))
    rw [hdata]
    exact reduceAll_perm ((Graph.perm_below hl hmem).symm.map _)
  · rw [hout r' j o ho, hr'.unique hr]
    exact belowResult_root hr.inTree
  · have hne' : (c.partWorkspace e v).send ≠ (c.partWorkspace e v).recv := by
      intro heq
      exact hne (Nat.add_right_cancel heq)
    exact reducePhase_input hid (hc.agree e) hfit hf hx v hne'

/-- A run of the phase can end, and then every peer has shown its value. -/
theorem reducePhase_returns {s : Strategy} {i : Fin (makeGraphPairList s n).pairs.length}
    {w : Fin n → Workspace} {name : Bytes} {f : ℕ → ℕ → ℕ} {ident : Fin n → PeerId}
    (hid : Function.Injective ident) (hw : Agree w name)
    (hf : ∀ v, elemOp (w v).dt (w v).op = some f) (σ : Fin n → Store) (v : Fin n) :
    ∃ x : Cluster (Fin n) PeerId ℕ Store Bytes,
      CReach ident Store.writeBody (reducePhase s i w) σ x ∧ ∃ o, (0, o) ∈ (x v).returned := by
  have hcompat := reducePhase_compat (i := i) hw hf
  have htidy := tidy_of_compat hid (fun v b hb th hth => reducePhase_fresh v hb hth) hcompat
  obtain ⟨x, hx, -, hfinal⟩ := exists_final (c := Cluster.start (reducePhase s i w) σ) htidy
    hcompat (fun a _ => excl_of_injective hid a) .refl
  obtain ⟨a, ha, hsim⟩ := simulate htidy hcompat (fun a _ => excl_of_injective hid a) hx
  have hdone : emits (a.proc v).blocks = [] := by
    rw [(hsim v).code, Node.abs, hfinal v]
    rfl
  have hperm := emitted_perm ha v
  rw [hdone, List.append_nil, (hsim v).out] at hperm
  have hmem : 0 ∈ emits (blocks Store.writeBody (reducePhase s i w v)) := by
    rw [reducePhase_blocks hw v (hf v)]
    simp [emits, Job.emitIdx]
  obtain ⟨⟨j, o⟩, ho, rfl⟩ := List.mem_map.mp (hperm.symm.subset hmem)
  exact ⟨x, hx, o, ho⟩

/-- What the vertices of the star settle on when every peer contributes one. -/
theorem values_countPeers (i : Fin (makeGraphPairList .star n).pairs.length) :
    Values (reduceGraphAt .star i) ((countPeers n).partWorkspace (0, 1)) (countPeers n).elemOp
      (countPeers n).mem fun v => leBytes 8 (if v = 0 then 1 + (n - 1) % 2 ^ 32 else 1) := by
  have hg : reduceGraphAt .star i = (starPair n 0).reduceGraph := by
    rw [reduceGraphAt, List.mem_singleton.mp (List.get_mem _ i)]
  have hin : ∀ q, ((countPeers n).partWorkspace (0, 1) q).input ((countPeers n).mem q) =
      leBytes 8 1 := fun q => rfl
  intro v l hl
  rw [hg] at hl
  by_cases hv : v = 0
  · subst hv
    rw [(starPair_root 0).1] at hl
    have hsettled := countPeers_settles.settled (0, 1) (by simp [countPeers_parts]) l hl
    have hmap : (l.map fun v => leBytes 8 (if v = 0 then 1 + (n - 1) % 2 ^ 32 else 1)) =
        l.map fun _ => leBytes 8 1 := by
      apply List.map_congr_left
      intro q hq
      rw [if_neg (mem_others.mp (hl.subset hq))]
    simp only [AllReduceCall.before_zero] at hsettled
    rw [hmap]
    refine hsettled.trans ?_
    beta_reduce
    rw [if_pos rfl, Nat.zero_mul, List.drop_zero]
    apply List.take_of_length_le
    rw [length_leBytes]
    exact Nat.le_refl 8
  · rw [(starPair_leaf hv).1, List.perm_nil] at hl
    subst hl
    beta_reduce
    rw [if_neg hv, List.map_nil, Workspace.settled_eq _ (.inl (by decide)), List.foldl_nil, hin]

/-- With more than `2 ^ 32` peers the counter of the centre comes back to zero. -/
theorem not_reducePhaseCorrect_of_gt {ident : Fin n → PeerId} (hid : Function.Injective ident)
    (hn : 2 ^ 32 < n) : ¬ReducePhaseCorrect .star n ident := by
  intro h
  have hle := card_le_of_injective hid
  have hc := countPeers_ok n
  have he : (0, 1) ∈ (countPeers n).parts := by simp [countPeers_parts]
  have hf : ∀ v, elemOp ((countPeers n).partWorkspace (0, 1) v).dt
      ((countPeers n).partWorkspace (0, 1) v).op = some (countPeers n).elemOp :=
    fun v => elemOp_of_isInt hc.isInt _
  have hi : 0 < (makeGraphPairList .star n).pairs.length := (makeGraphPairList .star n).nonempty
  obtain ⟨x, hx, o, ho⟩ := reducePhase_returns (i := ⟨0, hi⟩) hid (hc.agree (0, 1)) hf
    (fun v => ⟨(countPeers n).mem v, 0⟩) 0
  have hroot : ((makeGraphPairList .star n).pairs.get ⟨0, hi⟩).Rooted 0 := starPair_rooted 0
  have h₁ := (h _ hc (0, 1) he ⟨0, hi⟩ (fun _ => 0) x hx).2.1 0 hroot 0 o ho
  have h₂ := (reducePhase_reach (σ := fun v => ⟨(countPeers n).mem v, 0⟩) hid (hc.agree (0, 1))
    (hc.fits he) hf (values_countPeers ⟨0, hi⟩) hx).2.1 0 0 o ho
  have hres : (countPeers n).partResult (0, 1) = leBytes 8 n := countPeers_result (by omega)
  rw [h₁, if_pos rfl, hres] at h₂
  have hnat := congrArg leNat h₂
  rw [leNat_leBytes, leNat_leBytes, Nat.mod_eq_of_lt (by omega),
    Nat.mod_eq_of_lt (by omega)] at hnat
  omega

end StdmlCollective

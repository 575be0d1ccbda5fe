import StdmlCollective.AllReduce

/-!
# `all_reduce` over the ring

With strategy `ring` every part of an `all_reduce` has a root of its own, picked by the
hash of its name. The reduce graph is a path that starts behind the root, goes once round
and ends in the root; the broadcast graph is a path that starts at the root. The first
vertex of the reduce path is the first one behind the root on the broadcast path: it has
received nothing to reduce, so `effective_data` still points to its `send` buffer when it
relays the result.
-/

namespace StdmlCollective

open BlockNet LittleEndian
open Memory (Mem)

variable {T O : Type} {n : ℕ} [NeZero n]

/-- The labels of the sections: the reduce path first, then the broadcast path. -/
def ringLab (r : ℕ) (v : Fin n) : ℕ → ℕ
  | 0 => 0
  | 1 => pos (r + 1) v + 1
  | 2 => pos (r + 1) v + 2
  | i => n + i + pos r v

/-- `run_graphs_multi_thread` over the ring with root `r`, as peer `v` runs it. -/
def ringRun (lab : ℕ → T) (r : ℕ) (w : Fin n → Workspace) (v : Fin n) :
    List (Par (Fin n) T Store O) :=
  stamp (fun i => lab (ringLab r v i)) (runGraphsMultiThread id v (w v)
    [(makeCircularGraphPair n r).reduceGraph, (makeCircularGraphPair n r).broadcastGraph])

section Blocks

variable {w : Fin n → Workspace} {name : Bytes} {f : ℕ → ℕ → ℕ}

/-- What a vertex does first in the broadcast graph. -/
def relayJobs (r : ℕ) (name : Bytes) (w : Workspace) (v : Fin n) :
    List (Job (Fin n) T Key Bytes Store O) :=
  if pos r v = 0 then [.act w.settle]
  else (pathPrev r v).map fun q => .recv q (name, true) (Store.writeBody w.recv)

/-- The sections of the broadcast graph, of a path that starts at `r`. -/
theorem relay_sections (r : ℕ) (v : Fin n) (u : Workspace) (g : Graph n)
    (hprevs : g.prevs v = pathPrev r v) (hnexts : g.nexts v = pathNext r v)
    (hloop : g.selfLoop v = false) :
    (runGraph id v u g : List (List (Thread (Fin n) T Store O))) =
      [if pos r v = 0 then [.act u.settle] else (pathPrev r v).map (recvTask u false),
        (pathNext r v).map (sendTask u false)] := by
  simp only [runGraph, hprevs, hnexts, hloop, List.map_id, Bool.false_eq_true, if_false]
  by_cases h : pos r v = 0
  · simp [pathPrev, h]
    rfl
  · simp [pathPrev, h]

/-- The program of one vertex. -/
theorem ringRun_blocks (lab : ℕ → T) (r : ℕ) (hw : ∀ v, PartOk w name v f) (v : Fin n) :
    blocks Store.writeBody (ringRun lab r w v : List (Par (Fin n) T Store O)) =
      [⟨lab 0, [.act (w v).start]⟩,
        ⟨lab (pos (r + 1) v + 1), (pathPrev (r + 1) v).map fun q =>
          .recv q (name, false) ((w v).addTo f)⟩,
        ⟨lab (pos (r + 1) v + 2), (pathNext (r + 1) v).map fun q =>
          .send q (name, false) (w v).payload⟩,
        ⟨lab (n + 3 + pos r v), relayJobs r name (w v) v⟩,
        ⟨lab (n + 4 + pos r v), (pathNext r v).map fun q =>
          .send q (name, true) (w v).payload⟩] := by
  obtain ⟨h₁, h₂, h₃, h₄, h₅, h₆⟩ := makeCircularGraphPair_spec r v
  have hname := (hw v).name_eq v
  rw [ringRun, runGraphsMultiThread, List.flatMap_cons, List.flatMap_cons, List.flatMap_nil,
    relay_sections r v (w v) _ h₄ h₅ h₆]
  simp only [runGraph, h₁, h₂, h₃, stamp, blocks, relayJobs, ringLab]
  by_cases h : pos r v = 0
  · simp [h, Par.block, recvTask_job_reduce (hw v).op, sendTask_job ((hw v).toAgree.nulFree' v),
      hname,
      Function.comp_def, Thread.job_act]
  · simp [h, Par.block, recvTask_job_reduce (hw v).op, sendTask_job ((hw v).toAgree.nulFree' v),
      hname,
      Function.comp_def, recvTask_job_slot, Thread.job_act]

end Blocks

/-! ## Compatibility -/

section Compat

variable {w : Fin n → Workspace} {name : Bytes} {f : ℕ → ℕ → ℕ}

/-- The tags of what vertex `s` sends to vertex `d`: one along each path. -/
def ringTag (lab : ℕ → T) (r : ℕ) (name : Bytes) (s d : Fin n) : List (T × Key) :=
  (if pos (r + 1) d = pos (r + 1) s + 1 then [(lab (pos (r + 1) s + 2), (name, false))] else []) ++
    if pos r d = pos r s + 1 then [(lab (n + 4 + pos r s), (name, true))] else []

theorem relayJobs_sends (t : T) (r : ℕ) (name : Bytes) (u : Workspace) (v d : Fin n) :
    (⟨t, relayJobs r name u v⟩ : Block (Fin n) T Key Bytes Store O).sends d = [] := by
  unfold relayJobs
  split
  · exact Block.sends_act t d _
  · exact Block.sends_recv t d _ _ fun _ => Store.writeBody u.recv

theorem relayJobs_recvs (t : T) (r : ℕ) (name : Bytes) (u : Workspace) (v s : Fin n) :
    (⟨t, relayJobs r name u v⟩ : Block (Fin n) T Key Bytes Store O).recvs s =
      if pos r v = pos r s + 1 then [(t, (name, true))] else [] := by
  unfold relayJobs
  split
  · next h =>
    rw [if_neg (by omega)]
    exact Block.recvs_act t s _
  · rw [Block.recvs_map t (nodup_pathPrev r v) _ fun _ => Store.writeBody u.recv]
    simp only [mem_pathPrev]

theorem relayJobs_valid [LT T] (t : T) (r : ℕ) (name : Bytes) (u : Workspace) (v : Fin n) :
    (⟨t, relayJobs r name u v⟩ : Block (Fin n) T Key Bytes Store O).Valid := by
  unfold relayJobs
  split
  · exact Block.valid_act t _
  · exact Block.valid_recvs t (nodup_pathPrev r v) _ fun _ => Store.writeBody u.recv

/-- The ring is compatible: along both paths every vertex receives what the one before it
sends. -/
theorem ring_compat [LinearOrder T] {lab : ℕ → T} (hlab : StrictMono lab) (r : ℕ)
    (hw : ∀ v, PartOk w name v f) :
    Compat fun v => blocks Store.writeBody (ringRun lab r w v : List (Par (Fin n) T Store O)) where
  matched s d := by
    have hsends : sends (blocks Store.writeBody (ringRun lab r w s : List (Par (Fin n) T Store O)))
        d = ringTag lab r name s d := by
      rw [ringRun_blocks lab r hw]
      simp only [sends_cons, sends_nil, Block.sends_act, relayJobs_sends,
        Block.sends_recv _ _ _ _ fun _ => (w s).addTo f, Block.sends_map _ (nodup_pathNext _ s),
        mem_pathNext, List.nil_append, List.append_nil, ringTag]
    have hrecvs : recvs (blocks Store.writeBody (ringRun lab r w d : List (Par (Fin n) T Store O)))
        s = ringTag lab r name s d := by
      rw [ringRun_blocks lab r hw]
      simp only [recvs_cons, recvs_nil, Block.recvs_act, relayJobs_recvs, Block.recvs_send,
        Block.recvs_map _ (nodup_pathPrev _ d) _ fun _ => (w d).addTo f, mem_pathPrev,
        List.nil_append, List.append_nil, ringTag]
      congr 1
      · split
        · next h => rw [h]
        · rfl
      · split
        · next h =>
          have hlabel : n + 3 + (pos r s + 1) = n + 4 + pos r s := by omega
          rw [h, hlabel]
        · rfl
    rw [hsends, hrecvs]
  valid v := by
    have hlt : ∀ {i j}, i < j → lab i < lab j := fun h => hlab h
    have hpos := pos_lt (r + 1) v
    rw [ringRun_blocks lab r hw]
    refine .cons (Block.valid_act _ _) (.cons
      (Block.valid_recvs _ (nodup_pathPrev _ v) _ fun _ => (w v).addTo f) (.cons
        (Block.valid_sends _ (nodup_pathNext _ v) _ _) (.cons (relayJobs_valid _ _ _ _ _) (.cons
          (Block.valid_sends _ (nodup_pathNext _ v) _ _) .nil ?_) ?_) ?_) ?_) ?_
    all_goals
      simp only [List.forall_mem_cons, List.not_mem_nil, false_imp_iff, implies_true, and_true]
    all_goals simp only [hlab.lt_iff_lt]
    all_goals omega

end Compat

/-! ## What one part computes -/

section Part

variable {w : Fin n → Workspace} {name : Bytes} {f : ℕ → ℕ → ℕ} {M : Fin n → Mem} {r : ℕ}

/-- `A v` is what vertex `v` has reduced, `D v` what it holds in the end. A vertex that has
received nothing to reduce, and works out of place, relays its own input. -/
structure RingValues (w : Fin n → Workspace) (f : ℕ → ℕ → ℕ) (M : Fin n → Mem) (r : ℕ)
    (A D : Fin n → Bytes) : Prop where
  first : ∀ v, pos (r + 1) v = 0 → A v = (w v).input (M v)
  next : ∀ u v, pos (r + 1) v = pos (r + 1) u + 1 →
    A v = zipElems f (dtypeSize (w v).dt) (w v).count (A u) ((w v).input (M v))
  root : ∀ v, pos r v = 0 → D v = A v
  relay : ∀ u v, pos r v = pos r u + 1 →
    D v = if pos (r + 1) u = 0 ∧ ¬(w u).inplace then (w u).input (M u) else D u
  length : ∀ v, (D v).length = (w v).dataSize

/-- What the messages of one part carry. -/
structure RingContract (C : Contract (Fin n) T Key Bytes O) (lab : ℕ → T) (r : ℕ) (name : Bytes)
    (A D : Fin n → Bytes) : Prop where
  up : ∀ u v, pos (r + 1) v = pos (r + 1) u + 1 → ∀ d,
    C.msg u v ⟨lab (pos (r + 1) u + 2), (name, false), d⟩ ↔ d = A u
  down : ∀ u v, pos r v = pos r u + 1 → ∀ d,
    C.msg u v ⟨lab (n + 4 + pos r u), (name, true), d⟩ ↔ d = D v

variable {C : Contract (Fin n) T Key Bytes O} {lab : ℕ → T} {A D : Fin n → Bytes}

omit [NeZero n] in
/-- At most one buffer does not wrap the counter. -/
theorem Workspace.settled_of_le_one (u : Workspace) (m : Mem) {l : List Bytes}
    (hl : l.length ≤ 1) : u.settled f m l = u.value f m l := by
  rw [Workspace.settled]
  split
  · next h =>
    have hlen : l.length = 0 := by omega
    rw [List.eq_nil_of_length_eq_zero hlen]
    rfl
  · rfl

/-- What a vertex holds in its `recv` buffer is `d`, and it sends to the next one. -/
theorem send_good {Q : Store → Prop} {u : Fin n → Workspace} (hu : Fits u)
    (v : Fin n) {m : Mem} {k : ℕ} {d : Bytes} {t : T} {τ : Store}
    (hd : d.length = (u v).dataSize) (hmem : τ.mem = Memory.write (u v).recv d m)
    (hcount : τ.recvCount = UInt32.ofNat k)
    (hnext : ∀ q, pos r q = pos r v + 1 → C.msg v q ⟨t, (name, true),
      if k % 2 ^ 32 = 0 ∧ ¬(u v).inplace then (u v).input m else d⟩) (hQ : Q τ) :
    Good C v Q [⟨t, (pathNext r v).map fun q => .send q (name, true) (u v).payload⟩] τ := by
  refine Good.frame (fun j hj R hR => ?_) (.done hQ)
  obtain ⟨q, hq, rfl⟩ := List.mem_map.mp hj
  refine ⟨?_, hR⟩
  rw [hu.payload_eq v (Workspace.read_written (hu.separate v) hd hmem hcount)]
  exact hnext q (mem_pathNext.mp hq)

/-- The broadcast path, from a vertex that has been given the buffers `l`: the root settles,
any other vertex receives, and the vertex sends on what `effective_data` points to. -/
theorem relay_good {u : Fin n → Workspace} (hu : Fits u) (v : Fin n) {m : Mem}
    {l : List Bytes} {d : Bytes} {t₁ t₂ : T} {σ : Store} (hσ : (u v).Added f m l σ)
    (hd : d.length = (u v).dataSize) (hroot : pos r v = 0 → (u v).settled f m l = d)
    (hprev : ∀ q, pos r v = pos r q + 1 → ∀ d', C.msg q v ⟨t₁, (name, true), d'⟩ → d' = d)
    (hnext : ∀ q, pos r q = pos r v + 1 → C.msg v q ⟨t₂, (name, true),
      if l.length % 2 ^ 32 = 0 ∧ ¬(u v).inplace then (u v).input m else d⟩) :
    Good C v (fun τ => τ.mem = Memory.write (u v).recv d m)
      [⟨t₁, relayJobs r name (u v) v⟩,
        ⟨t₂, (pathNext r v).map fun q => .send q (name, true) (u v).payload⟩] σ := by
  unfold relayJobs
  by_cases hz : pos r v = 0
  · obtain ⟨hmem, hcount⟩ := hσ.forward (hu.separate v)
    rw [hroot hz] at hmem
    rw [if_pos hz]
    exact Good.single (send_good hu v hd hmem (hcount.trans hσ.recvCount) hnext hmem)
  · obtain ⟨q, hq⟩ : ∃ q, pathPrev r v = [q] := by
      rw [pathPrev, if_neg hz]
      exact ⟨_, rfl⟩
    have hedge : pos r v = pos r q + 1 := mem_pathPrev.mp (by rw [hq]; exact List.mem_cons_self)
    rw [if_neg hz, hq]
    refine Good.single fun d' hd' => ?_
    have hmem := hσ.receive hd
    rw [hprev q hedge d' hd']
    exact send_good hu v hd hmem hσ.recvCount hnext hmem

/-- The rest of the program, once a vertex has reduced what it receives. -/
theorem ring_good_tail (hfit : Fits w) (hC : RingContract C lab r name A D)
    (hv : RingValues w f M r A D) (v : Fin n) {l : List Bytes} {σ : Store}
    (hl : l.length = if pos (r + 1) v = 0 then 0 else 1) (hA : (w v).value f (M v) l = A v)
    (hσ : (w v).Added f (M v) l σ) :
    Good C v (fun τ => τ.mem = Memory.write (w v).recv (D v) (M v))
      [⟨lab (pos (r + 1) v + 2), (pathNext (r + 1) v).map fun q =>
          .send q (name, false) (w v).payload⟩,
        ⟨lab (n + 3 + pos r v), relayJobs r name (w v) v⟩,
        ⟨lab (n + 4 + pos r v), (pathNext r v).map fun q =>
          .send q (name, true) (w v).payload⟩] σ := by
  have hle : l.length ≤ 1 := by
    rw [hl]
    split <;> omega
  have hcount : l.length % 2 ^ 32 = 0 ↔ pos (r + 1) v = 0 := by
    rw [hl]
    split <;> simp_all
  have hsettled : (w v).settled f (M v) l = A v :=
    ((w v).settled_of_le_one (M v) hle).trans hA
  refine Good.frame (fun j hj R hR => ?_) (relay_good hfit v hσ (hv.length v) ?_ ?_ ?_)
  · obtain ⟨q, hq, rfl⟩ := List.mem_map.mp hj
    refine ⟨(hC.up v q (mem_pathNext.mp hq) _).mpr (hfit.payload_eq v ?_), hR⟩
    rw [hσ.read_effective (hfit.separate v), ← Workspace.settled, hsettled]
  · intro hroot
    rw [hsettled, hv.root v hroot]
  · intro q hedge d hd
    have hlabel : n + 3 + pos r v = n + 4 + pos r q := by omega
    rw [hlabel, hC.down q v hedge] at hd
    exact hd
  · intro q hedge
    rw [hC.down v q hedge, hv.relay v q hedge]
    simp only [hcount]

/-- **One part of an `all_reduce` over the ring**: every vertex that starts it with memory
`M v` ends it with `D v` in its `recv` buffer. -/
theorem ring_good (hw : ∀ v, PartOk w name v f) (hfit : Fits w)
    (hC : RingContract C lab r name A D) (hv : RingValues w f M r A D) (v : Fin n) {σ : Store}
    (hσ : σ.mem = M v) :
    Good C v (fun τ => τ.mem = Memory.write (w v).recv (D v) (M v))
      (blocks Store.writeBody (ringRun lab r w v : List (Par (Fin n) T Store O))) σ := by
  have hstart := start_added (w v) f σ
  rw [hσ] at hstart
  rw [ringRun_blocks lab r hw]
  refine Good.single ?_
  by_cases hfirst : pos (r + 1) v = 0
  · have hprev : pathPrev (r + 1) v = [] := by rw [pathPrev, if_pos hfirst]
    rw [hprev]
    refine Good.empty (ring_good_tail hfit hC hv v (l := []) ?_ ?_ hstart)
    · rw [if_pos hfirst, List.length_nil]
    · exact (hv.first v hfirst).symm
  · obtain ⟨u, hu⟩ : ∃ u, pathPrev (r + 1) v = [u] := by
      rw [pathPrev, if_neg hfirst]
      exact ⟨_, rfl⟩
    have hedge : pos (r + 1) v = pos (r + 1) u + 1 :=
      mem_pathPrev.mp (by rw [hu]; exact List.mem_cons_self)
    rw [hu]
    refine Good.single fun d hd => ?_
    rw [hedge, hC.up u v hedge] at hd
    rw [hd]
    refine ring_good_tail hfit hC hv v (l := [A u]) ?_ ?_ (hstart.addTo (hfit.separate v) (A u))
    · rw [if_neg hfirst, List.length_singleton]
    · rw [← List.nil_append [A u], Workspace.value_concat, hv.next u v hedge]
      simp [Workspace.value]

end Part

/-! ## The values of a part -/

section Values

variable (f : ℕ → ℕ → ℕ) (s count : ℕ) (inp : Fin n → Bytes) (r : ℕ)

/-- What the vertex at place `k` of the reduce path has reduced. -/
def ringReduced : ℕ → Bytes
  | 0 => inp (Fin.ofNat n (r + 1))
  | k + 1 => zipElems f s count (ringReduced k) (inp (Fin.ofNat n (r + 1 + (k + 1))))

theorem ringReduced_eq_foldl [Std.Commutative f] (k : ℕ) :
    ringReduced f s count inp r k =
      (((List.range k).map fun i => Fin.ofNat n (r + 1 + (i + 1))).map inp).foldl
        (fun a d => zipElems f s count d a) (inp (Fin.ofNat n (r + 1))) := by
  induction k with
  | zero => rfl
  | succ k ih =>
      have hcomm : ∀ x y, zipElems f s count x y = zipElems f s count y x := fun x y =>
        ofElems_congr fun i _ => Std.Commutative.comm _ _
      rw [ringReduced, ih, List.range_succ]
      simp only [List.map_append, List.map_cons, List.map_nil, List.foldl_append, List.foldl_cons,
        List.foldl_nil]
      exact hcomm _ _

/-- The reduce path visits every vertex once. -/
theorem reducePath_perm :
    (Fin.ofNat n (r + 1) :: (List.range (n - 1)).map fun i => Fin.ofNat n (r + 1 + (i + 1))).Perm
      (List.finRange n) := by
  have hpos := Nat.pos_of_ne_zero (NeZero.ne n)
  have hpath : (Fin.ofNat n (r + 1) :: (List.range (n - 1)).map fun i =>
      Fin.ofNat n (r + 1 + (i + 1))) = (List.range n).map fun i => Fin.ofNat n (r + 1 + i) := by
    have hrange : List.range n = 0 :: (List.range (n - 1)).map (· + 1) := by
      rw [← List.range_succ_eq_map, Nat.sub_add_cancel hpos]
    rw [hrange, List.map_cons, List.map_map, Nat.add_zero]
    rfl
  rw [hpath]
  refine (List.perm_ext_iff_of_nodup ?_ (List.nodup_finRange n)).mpr fun v => ?_
  · refine List.Nodup.map_on (fun i hi j hj heq => ?_) List.nodup_range
    rw [← pos_ofNat (n := n) (r + 1) (List.mem_range.mp hi), heq,
      pos_ofNat (r + 1) (List.mem_range.mp hj)]
  · simp only [List.mem_map, List.mem_range, List.mem_finRange, iff_true]
    exact ⟨pos (r + 1) v, pos_lt _ v, ofNat_pos _ v⟩

end Values

namespace AllReduceCall

variable (c : AllReduceCall n) (e : ℕ × ℕ)

/-- The root of part `e`, by the hash of its name. -/
def ringRoot : ℕ := nameBasedHash (partName c.name e.1 e.2) % n

/-- The peer behind the root of part `e`, where its reduce path begins. -/
def ringStart : Fin n := Fin.ofNat n (c.ringRoot e + 1)

/-- What peer `v` has of part `e` in the end. -/
def ringOut (v : Fin n) : Bytes :=
  if pos (c.ringRoot e) v ≤ 1 ∨ c.send (c.ringStart e) = c.recv (c.ringStart e) then c.partResult e
  else c.partInput e (c.ringStart e)

variable {c e}

omit [NeZero n] in
theorem length_partInput (v : Fin n) : (c.partInput e v).length = (e.2 - e.1) * dtypeSize c.dt :=
  Workspace.length_input _ _

theorem length_ringOut (v : Fin n) : (c.ringOut e v).length = (e.2 - e.1) * dtypeSize c.dt := by
  unfold ringOut
  split
  · exact length_reduceAll _ _ _ _
  · exact length_partInput _

/-- What peer `v` has of part `e` in the end. -/
def partOut (c : AllReduceCall n) (s : Strategy) (e : ℕ × ℕ) (v : Fin n) : Bytes :=
  match s with
  | .star => c.partResult e
  | .ring => c.ringOut e v

theorem length_partOut (s : Strategy) (v : Fin n) :
    (c.partOut s e v).length = (e.2 - e.1) * dtypeSize c.dt := by
  cases s with
  | star => exact length_reduceAll _ _ _ _
  | ring => exact length_ringOut v

theorem ringReduced_root :
    ringReduced c.elemOp (dtypeSize c.dt) (e.2 - e.1) (c.partInput e) (c.ringRoot e) (n - 1) =
      c.partResult e := by
  have hcomm : Std.Commutative c.elemOp := inferInstanceAs (Std.Commutative (intElemOp _ _))
  rw [ringReduced_eq_foldl]
  exact foldl_partInput (reducePath_perm _)

omit [NeZero n] in
theorem inplace_slice (v : Fin n) :
    ((c.workspace v).slice e.1 e.2).inplace = true ↔ c.send v = c.recv v := by
  simp [Workspace.inplace, Workspace.slice, workspace]

/-- The values of a part, on memory that still has the inputs. -/
theorem ringValues {M : Fin n → Mem}
    (hM : ∀ v, ((c.workspace v).slice e.1 e.2).input (M v) = c.partInput e v) :
    RingValues (fun v => (c.workspace v).slice e.1 e.2) c.elemOp M (c.ringRoot e)
      (fun v => ringReduced c.elemOp (dtypeSize c.dt) (e.2 - e.1) (c.partInput e) (c.ringRoot e)
        (pos (c.ringRoot e + 1) v))
      (c.ringOut e) where
  first v hv := by
    have hstart := ofNat_pos (c.ringRoot e + 1) v
    rw [hv, Nat.add_zero] at hstart
    rw [hv, ringReduced, hstart, hM]
  next u v huv := by
    rw [huv, ringReduced, hM, ← huv, ofNat_pos]
    rfl
  root v hv := by
    have hlast := pos_succ (c.ringRoot e) v
    have hlt := pos_lt (c.ringRoot e + 1) v
    have hn : pos (c.ringRoot e + 1) v = n - 1 := by
      split at hlast <;> omega
    rw [hn, ringReduced_root, ringOut, if_pos (.inl (by omega))]
  relay u v huv := by
    have hu := pos_succ (c.ringRoot e) u
    have hlt := pos_lt (c.ringRoot e) v
    have hlt' := pos_lt (c.ringRoot e + 1) u
    rw [hM]
    simp only [inplace_slice]
    by_cases hfirst : pos (c.ringRoot e + 1) u = 0
    · -- `u` is where the reduce path begins
      have hstart : c.ringStart e = u := by
        have := ofNat_pos (c.ringRoot e + 1) u
        rwa [hfirst, Nat.add_zero] at this
      have hpos : pos (c.ringRoot e) u = 1 := by
        split at hu <;> omega
      rw [ringOut, ringOut, hstart]
      by_cases hin : c.send u = c.recv u
      · rw [if_pos (.inr hin), if_neg fun hc => hc.2 hin, if_pos (.inr hin)]
      · rw [if_neg fun hc => hc.elim (by omega) hin, if_pos ⟨hfirst, hin⟩]
    · -- any other vertex relays what it has received
      have hiff : pos (c.ringRoot e) v ≤ 1 ↔ pos (c.ringRoot e) u ≤ 1 := by
        split at hu <;> omega
      rw [if_neg fun hc => hfirst hc.1]
      simp only [ringOut, hiff]
  length := length_ringOut

end AllReduceCall

/-! ## The whole call -/

/-- `session::all_reduce` with strategy `ring`: the parts of the work one after the other. -/
def ringAllReduce (c : AllReduceCall n) (rank : Fin n) : List (Par (Fin n) Time Store Bytes) :=
  stepsFrom (fun p k => stamp (fun i => Time.at k (ringLab (nameBasedHash p.1.name % n) rank i))
      (runGraphsMultiThread id rank p.1 p.2)) 0
    (splitWork (c.workspace rank) (makeGraphPairList .ring n) allReduceChunkSize)

/-- But for the times these are the sections of `run_graph_pair_list_multi_thread`. -/
theorem ringAllReduce_threads (c : AllReduceCall n) (rank : Fin n) :
    (ringAllReduce c rank).map Par.threads =
      (runGraphPairListMultiThread id rank (c.workspace rank) (makeGraphPairList .ring n)
        allReduceChunkSize).flatten := by
  rw [ringAllReduce, map_stepsFrom, runGraphPairListMultiThread]
  simp only [stamp_threads]
  exact stepsFrom_const _ _ _

theorem ringAllReduce_eq (c : AllReduceCall n) (rank : Fin n) :
    ringAllReduce c rank = stepsFrom (fun e k => ringRun (Time.at k) (c.ringRoot e)
      (fun v => (c.workspace v).slice e.1 e.2) rank) 0 c.parts := by
  rw [ringAllReduce, splitWork, Workspace.split, List.map_map, stepsFrom_map]
  simp only [Function.comp_def, choose_ring]
  rfl

section Call

variable {c : AllReduceCall n}

theorem AllReduceCall.Ok.ringPart (hc : c.Ok) (e : ℕ × ℕ) (v : Fin n) :
    PartOk (fun v => (c.workspace v).slice e.1 e.2) (partName c.name e.1 e.2) v c.elemOp :=
  { hc.part e with op := elemOp_of_isInt hc.isInt _ }

theorem ringAllReduce_blocks (c : AllReduceCall n) (rank : Fin n) :
    blocks Store.writeBody (ringAllReduce c rank) =
      stepsFrom (fun e k => blocks Store.writeBody (ringRun (Time.at k) (c.ringRoot e)
        (fun v => (c.workspace v).slice e.1 e.2) rank)) 0 c.parts := by
  rw [ringAllReduce_eq, blocks, map_stepsFrom]
  rfl

theorem ringAllReduce_compat (hc : c.Ok) :
    Compat fun v => blocks Store.writeBody (ringAllReduce c v) := by
  simp only [ringAllReduce_blocks]
  refine Compat.numbered (F := fun v e k => blocks Store.writeBody (ringRun (Time.at k)
    (c.ringRoot e) (fun v => (c.workspace v).slice e.1 e.2) v)) Time.step
    (fun t u h => Time.lt_of_step_lt h) (fun v e k b hb => ?_) (fun e he k => ?_) 0
  · exact time_of_mem_stamp hb
  · exact ring_compat (Time.at_strictMono k) _ (hc.ringPart e)

theorem ringAllReduce_fresh (c : AllReduceCall n) (v : Fin n)
    {b : Par (Fin n) Time Store Bytes} (hb : b ∈ ringAllReduce c v)
    {th : Thread (Fin n) Time Store Bytes} (hth : th ∈ b.threads) : th.Fresh := by
  rw [ringAllReduce_eq] at hb
  obtain ⟨i, e, -, hb⟩ := mem_stepsFrom hb
  exact fresh_stamp (fun ths hths th hth => fresh_runGraphs hths hth) hb hth

/-- What the messages of the call carry. -/
def ringContract (c : AllReduceCall n) : Contract (Fin n) Time Key Bytes Bytes where
  msg s d m :=
    match c.parts[m.time.step]? with
    | some e =>
        m.data = if m.key.2 then c.ringOut e d
          else ringReduced c.elemOp (dtypeSize c.dt) (e.2 - e.1) (c.partInput e) (c.ringRoot e)
            (pos (c.ringRoot e + 1) s)
    | none => True
  out _ _ _ := True

/-- The intervals of a cover before one of them reach up to it. -/
theorem Covers.take {a b : ℕ} {l : List (ℕ × ℕ)} (h : Covers a b l) {i : ℕ} {e : ℕ × ℕ}
    (hi : l[i]? = some e) : Covers a e.1 (l.take i) := by
  induction h generalizing i with
  | nil => simp at hi
  | cons hab _ ih =>
      cases i with
      | zero =>
          obtain rfl := Option.some.inj hi
          exact .nil
      | succ i => exact .cons hab (ih (by simpa using hi))

/-- The length of what the intervals of a cover contribute. -/
theorem Covers.length_flatMap {a b : ℕ} {l : List (ℕ × ℕ)} (h : Covers a b l) {s : ℕ}
    {g : ℕ × ℕ → Bytes} (hg : ∀ e, (g e).length = (e.2 - e.1) * s) :
    (l.flatMap g).length = (b - a) * s := by
  induction h with
  | nil => simp
  | cons hab hl ih =>
      have hle := hl.le
      rw [List.flatMap_cons, List.length_append, ih, hg, ← Nat.add_mul]
      congr 1
      simp only
      omega

/-- **The call keeps the contract**, and leaves the parts of `ringOut` one after the other in
the `recv` buffer. -/
theorem ringAllReduce_good (hc : c.Ok) (v : Fin n) {σ : Store} (hσ : σ.mem = c.mem v) :
    Good (ringContract c) v (fun τ => τ.mem =
        Memory.write (c.recv v) (c.parts.flatMap fun e => c.ringOut e v) (c.mem v))
      (blocks Store.writeBody (ringAllReduce c v)) σ := by
  have hcovers := c.parts_covers hc.count_pos
  -- the memory of peer `u` before part number `i`
  let M : ℕ → Fin n → Mem := fun i u =>
    Memory.write (c.recv u) ((c.parts.take i).flatMap fun e => c.ringOut e u) (c.mem u)
  have hgood := Good.steps (C := ringContract c) (p := v) (F := fun e k => blocks Store.writeBody
    (ringRun (Time.at k) (c.ringRoot e) (fun v => (c.workspace v).slice e.1 e.2) v))
    (fun i τ => τ.mem = M i v) c.parts 0 (fun i e hi τ hτ => ?_)
    (show σ.mem = M 0 v by simpa [M] using hσ)
  · rw [ringAllReduce_blocks]
    refine hgood.mono fun τ hτ => ?_
    rw [hτ]
    simp only [M, List.take_length]
  · have he := List.mem_of_getElem? hi
    obtain ⟨hab, hb⟩ := hcovers.mem he
    have hlen : ∀ u, ((c.parts.take i).flatMap fun e => c.ringOut e u).length =
        e.1 * dtypeSize c.dt := by
      intro u
      rw [(hcovers.take hi).length_flatMap fun e => AllReduceCall.length_ringOut u, Nat.sub_zero]
    have hinput : ∀ u, ((c.workspace u).slice e.1 e.2).input (M i u) = c.partInput e u := by
      intro u
      have hbefore : ((c.workspace u).slice e.1 e.2).input
          (c.before ((c.parts.take i).flatMap fun e => c.ringOut e u) e.1 u) = c.partInput e u :=
        AllReduceCall.input_before hc hab hb u
      rwa [AllReduceCall.before, ← hlen u, List.take_length] at hbefore
    have hC : RingContract (ringContract c) (Time.at i) (c.ringRoot e) (partName c.name e.1 e.2)
        (fun v => ringReduced c.elemOp (dtypeSize c.dt) (e.2 - e.1) (c.partInput e) (c.ringRoot e)
          (pos (c.ringRoot e + 1) v)) (c.ringOut e) := by
      constructor
      · intro u v _ d
        simp [ringContract, hi]
      · intro u v _ d
        simp [ringContract, hi]
    rw [Nat.zero_add]
    refine (ring_good (hc.ringPart e) (hc.fits he) hC (AllReduceCall.ringValues hinput) v hτ).mono
      fun τ' hτ' => ?_
    have hnext : c.parts.take (i + 1) = c.parts.take i ++ [e] := by
      rw [List.take_add_one, hi, Option.toList_some]
    simp only [M, hnext, List.flatMap_append, List.flatMap_cons, List.flatMap_nil, List.append_nil]
    rw [hτ', Memory.write_append, hlen v]
    rfl

/-- Every run of the call that has come to its end leaves the reduction of all send buffers in
every `recv` buffer. -/
def RingCorrect (ident : Fin n → PeerId) (c : AllReduceCall n) : Prop :=
  ∀ σ : Fin n → Store, (∀ v, (σ v).mem = c.mem v) →
    ∀ x : Cluster (Fin n) PeerId Time Store Bytes,
      CReach ident Store.writeBody (ringAllReduce c) σ x → x.Final →
        ∀ v, Memory.read (c.recv v) (c.workspace v).dataSize (x v).store.mem = c.result

/-- What every run of the call leaves in the `recv` buffers. -/
theorem ringAllReduce_final {ident : Fin n → PeerId} (hid : Function.Injective ident)
    (hc : c.Ok) {σ : Fin n → Store} (hσ : ∀ v, (σ v).mem = c.mem v)
    {x : Cluster (Fin n) PeerId Time Store Bytes}
    (hx : CReach ident Store.writeBody (ringAllReduce c) σ x) (hfinal : x.Final) (v : Fin n) :
    Memory.read (c.recv v) (c.workspace v).dataSize (x v).store.mem =
      c.parts.flatMap fun e => c.ringOut e v := by
  have hcompat := ringAllReduce_compat hc
  obtain ⟨a, ha, hsim⟩ := simulate (tidy_of_compat hid (ringAllReduce_fresh c) hcompat)
    hcompat (fun a _ => excl_of_injective hid a) hx
  have hkept := Kept.reach (fun v => ringAllReduce_good hc v (hσ v)) ha
  have hdone : (a.proc v).blocks = [] := by
    rw [(hsim v).code, Node.abs, hfinal v]
  have hmem := (hkept.good v).post hdone
  have hlen : (c.parts.flatMap fun e => c.ringOut e v).length = (c.workspace v).dataSize :=
    (c.parts_covers hc.count_pos).length_flatMap fun e => AllReduceCall.length_ringOut v
  rw [← (hsim v).store, hmem, ← hlen, Memory.read_write]

omit [NeZero n] in
/-- The reduction, part by part. -/
theorem AllReduceCall.result_eq_flatMap (hc : c.Ok) : c.result = c.parts.flatMap c.partResult := by
  suffices h : ∀ (a : ℕ) (l : List (ℕ × ℕ)), Covers a c.count l →
      c.result.drop (a * dtypeSize c.dt) = l.flatMap c.partResult by
    have := h 0 _ (c.parts_covers hc.count_pos)
    rwa [Nat.zero_mul, List.drop_zero] at this
  intro a l hl
  generalize hb : c.count = b at hl
  induction hl with
  | nil =>
      subst hb
      exact List.drop_eq_nil_of_le (by simp [result])
  | @cons a d b l had hl ih =>
      have hle := hl.le
      subst hb
      rw [List.flatMap_cons, ← ih rfl, ← result_slice (e := (a, d)) had hle]
      have hd : d * dtypeSize c.dt = a * dtypeSize c.dt + (d - a) * dtypeSize c.dt := by
        rw [← Nat.add_mul, Nat.add_sub_cancel' had]
      rw [hd, ← List.drop_drop, List.take_append_drop]

omit [NeZero n] in
/-- Two rows of pieces of the same lengths are equal when all pieces are. -/
theorem flatMap_eq_iff {α : Type} {l : List α} {g h : α → Bytes}
    (hlen : ∀ e, (g e).length = (h e).length) :
    l.flatMap g = l.flatMap h ↔ ∀ e ∈ l, g e = h e := by
  induction l with
  | nil => simp
  | cons e l ih =>
      rw [List.flatMap_cons, List.flatMap_cons, List.forall_mem_cons, ← ih]
      constructor
      · intro heq
        exact List.append_inj heq (hlen e)
      · rintro ⟨h₁, h₂⟩
        rw [h₁, h₂]

/-- When the parts of the result are at every peer. -/
theorem AllReduceCall.ringOut_eq_iff (e : ℕ × ℕ) :
    (∀ v, c.ringOut e v = c.partResult e) ↔
      n ≤ 2 ∨ c.send (c.ringStart e) = c.recv (c.ringStart e) ∨
        c.partInput e (c.ringStart e) = c.partResult e := by
  constructor
  · intro h
    by_contra hno
    obtain ⟨hn, hin, hne⟩ : 2 < n ∧ c.send (c.ringStart e) ≠ c.recv (c.ringStart e) ∧
        c.partInput e (c.ringStart e) ≠ c.partResult e := by
      simpa only [not_or, not_le] using hno
    -- the second vertex behind the root has the input of the first one
    have hpos := pos_ofNat (c.ringRoot e) hn
    have h₂ := h (Fin.ofNat n (c.ringRoot e + 2))
    rw [ringOut, if_neg fun hc => hc.elim (by omega) hin] at h₂
    exact hne h₂
  · intro h v
    have hlt := pos_lt (c.ringRoot e) v
    unfold ringOut
    rcases h with h | h | h
    · exact if_pos (.inl (by omega))
    · exact if_pos (.inr h)
    · split
      · rfl
      · exact h

/-- A run of the call can end, so the call is correct when every part is right everywhere. -/
theorem ringCorrect_iff_ringOut {ident : Fin n → PeerId} (hid : Function.Injective ident)
    (hc : c.Ok) :
    RingCorrect ident c ↔ ∀ e ∈ c.parts, ∀ v, c.ringOut e v = c.partResult e := by
  have hlen : ∀ v e, (c.ringOut e v).length = (c.partResult e).length := by
    intro v e
    rw [AllReduceCall.length_ringOut, AllReduceCall.partResult, length_reduceAll]
  have hout : (∀ v, c.parts.flatMap (fun e => c.ringOut e v) = c.result) ↔
      ∀ e ∈ c.parts, ∀ v, c.ringOut e v = c.partResult e := by
    rw [AllReduceCall.result_eq_flatMap hc]
    simp only [flatMap_eq_iff (hlen _)]
    exact ⟨fun h e he v => h v e he, fun h v e he => h e he v⟩
  rw [← hout]
  constructor
  · intro h v
    have hcompat := ringAllReduce_compat hc
    obtain ⟨x, hx, -, hfinal⟩ := exists_final
      (c := Cluster.start (ringAllReduce c) fun v => ⟨c.mem v, 0⟩)
      (tidy_of_compat hid (ringAllReduce_fresh c) hcompat) hcompat
      (fun a _ => excl_of_injective hid a) .refl
    rw [← ringAllReduce_final hid hc (fun _ => rfl) hx hfinal v]
    exact h _ (fun _ => rfl) x hx hfinal v
  · intro h σ hσ x hx hfinal v
    rw [ringAllReduce_final hid hc hσ hx hfinal v]
    exact h v

end Call

/-- Every peer contributes the byte 1 to a sum, out of place. -/
def sumOnes (n : ℕ) : AllReduceCall n where
  count := 1
  dt := .u8
  op := .sum
  name := []
  send _ := 0
  recv _ := 8
  mem _ _ := 1

omit [NeZero n] in
theorem sumOnes_ok : (sumOnes n).Ok where
  count_pos := le_rfl
  isInt := rfl
  nulFree := by simp [NulFree, sumOnes]
  separate _ := .inr (.inl (Nat.le_of_ble_eq_true rfl))

omit [NeZero n] in
theorem sumOnes_parts : (sumOnes n).parts = [(0, 1)] := by
  simp [AllReduceCall.parts, sumOnes, dtypeSize, ceilDiv, allReduceChunkSize, evenPartition,
    evenPartitionFrom]

end StdmlCollective

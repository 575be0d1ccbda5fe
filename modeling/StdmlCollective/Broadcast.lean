import StdmlCollective.Ring

/-!
# `broadcast`

`session::broadcast` runs a workspace over the broadcast graph of the first pair. In the
star the root sends to every other peer itself. In the ring the data passes through all of
them, and a vertex on the way sends on what `effective_data` points to: nothing has been
reduced, so that is its own input unless it works in place.
-/

namespace StdmlCollective

open BlockNet
open Memory (Mem)

variable {P T O : Type} {n : ℕ}

/-- `session::broadcast`. -/
def broadcast [NeZero n] (s : Strategy) (peers : Fin n → P) (rank : Fin n) (w : Workspace) :
    List (List (Thread P T Store O)) :=
  let topo := makeGraphPairList s n
  runGraphsMultiThread peers rank w [(topo.pairs.get ⟨0, topo.nonempty⟩).broadcastGraph]

theorem broadcast_ring [NeZero n] (peers : Fin n → P) (rank : Fin n) (w : Workspace) :
    (broadcast .ring peers rank w : List (List (Thread P T Store O))) =
      runGraphsMultiThread peers rank w [(makeCircularGraphPair n 0).broadcastGraph] := by
  simp [broadcast, makeGraphPairList, makeGraphPairListRing]

/-! ## The star -/

/-- The labels of the sections: the root sends at 2. -/
def starBroadcastLab (root rank : Fin n) (i : ℕ) : ℕ :=
  if rank = root then i else if i = 0 then 0 else i + 1

/-- `run_graphs_multi_thread` over the broadcast graph of the star, as process `p` runs it. -/
def starBroadcastRun (lab : ℕ → T) (peers : Fin n → P) (rank : P → Option (Fin n))
    (root : Fin n) (w : Fin n → Workspace) (p : P) : List (Par P T Store O) :=
  match rank p with
  | some r => stamp (fun i => lab (starBroadcastLab root r i))
      (runGraphsMultiThread peers r (w r) [(starPair n root).broadcastGraph])
  | none => []

section Star

variable {peers : Fin n → P} {rank : P → Option (Fin n)} {root : Fin n}
variable {w : Fin n → Workspace} {name : Bytes}

/-- The program of one process, by its rank. -/
theorem starBroadcastRun_blocks (lab : ℕ → T) (hw : Agree w name) (p : P) :
    blocks Store.writeBody (starBroadcastRun lab peers rank root w p : List (Par P T Store O)) =
      match rank p with
      | some r =>
          if r = root then
            [⟨lab 0, [.act (w root).start]⟩,
              ⟨lab 1, [.act (w root).settle]⟩,
              ⟨lab 2, ((others root).map peers).map fun q =>
                .send q (name, true) (w root).payload⟩]
          else
            [⟨lab 0, [.act (w r).start]⟩,
              ⟨lab 2, [peers root].map fun q =>
                .recv q (name, true) (Store.writeBody (w r).recv)⟩,
              ⟨lab 3, []⟩]
      | none => [] := by
  unfold starBroadcastRun
  cases rank p with
  | none => rfl
  | some r =>
      have hloop := (starPair_selfLoop root r).2
      by_cases h : r = root
      · subst h
        obtain ⟨-, -, h₃, h₄⟩ := starPair_root r
        simp [runGraphsMultiThread, runGraph, h₃, h₄, hloop, stamp, blocks, Par.block,
          sendTask_job (hw.nulFree' r), starBroadcastLab, hw.name_eq, Function.comp_def]
        rfl
      · obtain ⟨-, -, h₃, h₄⟩ := starPair_leaf h
        simp [runGraphsMultiThread, runGraph, h, h₃, h₄, hloop, stamp, blocks, Par.block,
          recvTask_job_slot, starBroadcastLab, hw.name_eq]

variable [DecidableEq P]

/-- The tag of what process `s` sends to process `d`. -/
def starBroadcastTag (lab : ℕ → T) (root : Fin n) (name : Bytes) :
    Option (Fin n) → Option (Fin n) → List (T × Key)
  | some r, some q => if r = root ∧ q ≠ root then [(lab 2, (name, true))] else []
  | _, _ => []

/-- The star is compatible: what the root sends every other member receives. -/
theorem starBroadcast_compat [LinearOrder T] {lab : ℕ → T} (hlab : StrictMono lab)
    (hm : Members peers rank) (hw : Agree w name) :
    Compat fun p => blocks Store.writeBody
      (starBroadcastRun lab peers rank root w p : List (Par P T Store O)) where
  matched s d := by
    have hroot : s = peers root ↔ rank s = some root := by rw [hm.rank_eq, eq_comm]
    have hsends : sends (blocks Store.writeBody
        (starBroadcastRun lab peers rank root w s : List (Par P T Store O))) d =
        starBroadcastTag lab root name (rank s) (rank d) := by
      rw [starBroadcastRun_blocks lab hw]
      cases hs : rank s with
      | none => rfl
      | some r =>
          by_cases h : r = root
          · simp only [if_pos h, sends_cons, sends_nil, Block.sends_act,
              Block.sends_map _ (nodup_others_map hm), mem_others_map hm]
            cases hd : rank d with
            | none => simp [starBroadcastTag]
            | some q => by_cases hq : q = root <;> simp [starBroadcastTag, h, hq]
          · simp only [if_neg h, sends_cons, sends_nil, Block.sends_act, Block.sends_nil,
              Block.sends_recv _ _ _ _ fun _ => Store.writeBody (w r).recv]
            cases hd : rank d <;> simp [starBroadcastTag, h]
    have hrecvs : recvs (blocks Store.writeBody
        (starBroadcastRun lab peers rank root w d : List (Par P T Store O))) s =
        starBroadcastTag lab root name (rank s) (rank d) := by
      rw [starBroadcastRun_blocks lab hw]
      cases hd : rank d with
      | none => cases rank s <;> rfl
      | some r =>
          by_cases h : r = root
          · simp only [if_pos h, recvs_cons, recvs_nil, Block.recvs_act, Block.recvs_send]
            cases hs : rank s <;> simp [starBroadcastTag, h]
          · simp only [if_neg h, recvs_cons, recvs_nil, Block.recvs_act, Block.recvs_nil,
              List.mem_singleton, hroot,
              Block.recvs_map _ (List.nodup_singleton _) _ fun _ => Store.writeBody (w r).recv]
            cases hs : rank s with
            | none => simp [starBroadcastTag]
            | some q => by_cases hq : q = root <;> simp [starBroadcastTag, h, hq]
    rw [hsends, hrecvs]
  valid p := by
    rw [starBroadcastRun_blocks lab hw]
    cases rank p with
    | none => exact .nil
    | some r =>
        by_cases h : r = root
        · simp only [if_pos h]
          refine .cons (Block.valid_act _ _) (.cons (Block.valid_act _ _) (.cons
            (Block.valid_sends _ (nodup_others_map hm) _ _) .nil ?_) ?_) ?_
          all_goals simp [hlab.lt_iff_lt]
        · simp only [if_neg h]
          refine .cons (Block.valid_act _ _) (.cons (Block.valid_recvs _ (List.nodup_singleton _) _
            fun _ => Store.writeBody (w r).recv) (.cons (Block.valid_nil _) .nil ?_) ?_) ?_
          all_goals simp [hlab.lt_iff_lt]

omit [DecidableEq P] in
/-- **`broadcast` over the star**: every member ends with the input of the root. -/
theorem starBroadcast_good {C : Contract P T Key Bytes O} {lab : ℕ → T} {M : Fin n → Mem}
    (hm : Members peers rank) (hw : Agree w name) (hfit : Fits w)
    (hsize : ∀ r, (w r).dataSize = (w root).dataSize)
    (hC : ∀ q, q ≠ root → ∀ d,
      C.msg (peers root) (peers q) ⟨lab 2, (name, true), d⟩ ↔ d = (w root).input (M root))
    (r : Fin n) {σ : Store} (hσ : σ.mem = M r) :
    Good C (peers r) (fun τ => τ.mem = Memory.write (w r).recv ((w root).input (M root)) (M r))
      (blocks Store.writeBody (starBroadcastRun lab peers rank root w (peers r) :
        List (Par P T Store O))) σ := by
  have hstart := start_added (w r) (fun x _ => x) σ
  rw [hσ] at hstart
  rw [starBroadcastRun_blocks lab hw, hm.rank_peers]
  by_cases hr : r = root
  · subst hr
    obtain ⟨hmem, hcount⟩ := hstart.forward (hfit.separate r)
    have hsettled : (w r).settled (fun x _ => x) (M r) [] = (w r).input (M r) := by
      simp [Workspace.settled, Workspace.value]
    rw [hsettled] at hmem
    have hread := hstart.read_settled (hfit.separate r) (by rw [hsettled]; exact hmem) hcount
    rw [hsettled] at hread
    simp only [if_true]
    refine Good.single (Good.single (Good.frame (fun j hj R hR => ?_) (.done hmem)))
    simp only [List.map_map, List.mem_map, Function.comp_apply] at hj
    obtain ⟨q, hq, rfl⟩ := hj
    exact ⟨(hC q (mem_others.mp hq) _).mpr (hfit.payload_eq r hread), hR⟩
  · simp only [if_neg hr]
    refine Good.single (Good.single fun d hd => Good.empty (.done ?_))
    rw [(hC r hr d).mp hd, hstart.receive]
    rw [hsize r]
    exact Workspace.length_input _ _

end Star

/-! ## The ring -/

/-- `run_graphs_multi_thread` over the broadcast path that starts at peer 0. -/
def ringBroadcastRun [NeZero n] (lab : ℕ → T) (w : Fin n → Workspace) (v : Fin n) :
    List (Par (Fin n) T Store O) :=
  stamp (fun i => lab (if i = 0 then 0 else i + pos 0 v)) (runGraphsMultiThread id v (w v)
    [(makeCircularGraphPair n 0).broadcastGraph])

section Ring

variable [NeZero n] {w : Fin n → Workspace} {name : Bytes}

/-- The program of one vertex. -/
theorem ringBroadcastRun_blocks (lab : ℕ → T) (hw : Agree w name) (v : Fin n) :
    blocks Store.writeBody (ringBroadcastRun lab w v : List (Par (Fin n) T Store O)) =
      [⟨lab 0, [.act (w v).start]⟩,
        ⟨lab (1 + pos 0 v), relayJobs 0 name (w v) v⟩,
        ⟨lab (2 + pos 0 v), (pathNext 0 v).map fun q => .send q (name, true) (w v).payload⟩] := by
  obtain ⟨-, -, -, h₄, h₅, h₆⟩ := makeCircularGraphPair_spec 0 v
  rw [ringBroadcastRun, runGraphsMultiThread, List.flatMap_cons, List.flatMap_nil,
    relay_sections 0 v (w v) _ h₄ h₅ h₆]
  simp only [stamp, blocks, relayJobs]
  by_cases h : pos 0 v = 0
  · simp [h, Par.block, sendTask_job (hw.nulFree' v), hw.name_eq, Function.comp_def,
      Thread.job_act]
  · simp [h, Par.block, sendTask_job (hw.nulFree' v), hw.name_eq, Function.comp_def,
      recvTask_job_slot, Thread.job_act]

theorem ringBroadcast_compat [LinearOrder T] {lab : ℕ → T} (hlab : StrictMono lab)
    (hw : Agree w name) :
    Compat fun v => blocks Store.writeBody
      (ringBroadcastRun lab w v : List (Par (Fin n) T Store O)) where
  matched s d := by
    rw [ringBroadcastRun_blocks lab hw, ringBroadcastRun_blocks lab hw]
    simp only [sends_cons, sends_nil, Block.sends_act, relayJobs_sends, List.nil_append,
      List.append_nil, Block.sends_map _ (nodup_pathNext _ s), mem_pathNext, recvs_cons, recvs_nil,
      Block.recvs_act, relayJobs_recvs, Block.recvs_send]
    split
    · next h =>
      have hlabel : 1 + pos 0 d = 2 + pos 0 s := by omega
      rw [hlabel]
    · rfl
  valid v := by
    rw [ringBroadcastRun_blocks lab hw]
    refine .cons (Block.valid_act _ _) (.cons (relayJobs_valid _ _ _ _ _) (.cons
      (Block.valid_sends _ (nodup_pathNext _ v) _ _) .nil ?_) ?_) ?_
    all_goals
      simp only [List.forall_mem_cons, List.not_mem_nil, false_imp_iff, implies_true, and_true,
        hlab.lt_iff_lt]
    all_goals omega

/-- What the vertex at place `k` of the path ends with. -/
def passedOn (w : Fin n → Workspace) (M : Fin n → Mem) : ℕ → Bytes
  | 0 => (w 0).input (M 0)
  | k + 1 =>
      let u := Fin.ofNat n k
      if (w u).inplace then passedOn w M k else (w u).input (M u)

theorem length_passedOn {M : Fin n → Mem} (hsize : ∀ r, (w r).dataSize = (w 0).dataSize) (k : ℕ) :
    (passedOn w M k).length = (w 0).dataSize := by
  induction k with
  | zero => exact Workspace.length_input _ _
  | succ k ih =>
      rw [passedOn]
      split
      · exact ih
      · rw [← hsize (Fin.ofNat n k)]
        exact Workspace.length_input _ _

/-- **`broadcast` over the ring**: what every vertex ends with. -/
theorem ringBroadcast_good {C : Contract (Fin n) T Key Bytes O} {lab : ℕ → T} {M : Fin n → Mem}
    (hw : Agree w name) (hfit : Fits w) (hsize : ∀ r, (w r).dataSize = (w 0).dataSize)
    (hC : ∀ u v, pos 0 v = pos 0 u + 1 → ∀ d,
      C.msg u v ⟨lab (2 + pos 0 u), (name, true), d⟩ ↔ d = passedOn w M (pos 0 v))
    (v : Fin n) {σ : Store} (hσ : σ.mem = M v) :
    Good C v (fun τ => τ.mem = Memory.write (w v).recv (passedOn w M (pos 0 v)) (M v))
      (blocks Store.writeBody (ringBroadcastRun lab w v : List (Par (Fin n) T Store O))) σ := by
  have hstart := start_added (w v) (fun x _ => x) σ
  rw [hσ] at hstart
  have hself : Fin.ofNat n (pos 0 v) = v := by
    have := ofNat_pos 0 v
    rwa [Nat.zero_add] at this
  rw [ringBroadcastRun_blocks lab hw]
  refine Good.single (relay_good hfit v hstart ?_ ?_ ?_ ?_)
  · rw [length_passedOn hsize, hsize v]
  · intro hz
    have hv : v = 0 := by
      rw [hz] at hself
      exact hself.symm
    rw [hz, passedOn, hv]
    simp [Workspace.settled, Workspace.value]
  · intro q hedge d hd
    have hlabel : 1 + pos 0 v = 2 + pos 0 q := by omega
    rw [hlabel, hC q v hedge] at hd
    exact hd
  · intro q hedge
    rw [hC v q hedge, hedge, passedOn, hself]
    by_cases hin : (w v).inplace <;> simp [hin]

end Ring

/-! ## `session::broadcast` -/

/-- One call of `broadcast`, made by all `n` peers; `mem r` is the memory of peer `r` when it
makes the call. -/
structure BroadcastCall (n : ℕ) where
  count : ℕ
  dt : Dtype
  name : Bytes
  input : Fin n → Addr
  output : Fin n → Addr
  mem : Fin n → Mem

namespace BroadcastCall

/-- The workspace of peer `r`; its `op` is not used. -/
def workspace (c : BroadcastCall n) (r : Fin n) : Workspace :=
  ⟨c.input r, c.output r, c.count, c.dt, .sum, c.name⟩

/-- What peer `r` passes as input. -/
def inputData (c : BroadcastCall n) (r : Fin n) : Bytes := (c.workspace r).input (c.mem r)

/-- Less than `2 ^ 32` bytes, a name without NUL, and buffers in place or out of place. -/
structure Ok (c : BroadcastCall n) : Prop where
  size : c.count * dtypeSize c.dt < 2 ^ 32
  nulFree : NulFree c.name
  separate : ∀ r, (c.workspace r).Separate

theorem Ok.agree {c : BroadcastCall n} (hc : c.Ok) : Agree c.workspace c.name where
  name_eq _ := rfl
  nulFree := hc.nulFree

theorem Ok.fits {c : BroadcastCall n} (hc : c.Ok) : Fits c.workspace where
  size _ := hc.size
  separate := hc.separate

end BroadcastCall

section Call

variable [NeZero n] {c : BroadcastCall n}

/-- The labels of the sections, which have no part in what they do. -/
def broadcastLab (s : Strategy) (rank : Fin n) (i : ℕ) : ℕ :=
  match s with
  | .star => starBroadcastLab 0 rank i
  | .ring => if i = 0 then 0 else i + pos 0 rank

/-- The program of peer `rank`. -/
def broadcastProgram (s : Strategy) (c : BroadcastCall n) (rank : Fin n) :
    List (Par (Fin n) ℕ Store Unit) :=
  stamp (broadcastLab s rank) (broadcast s id rank (c.workspace rank))

/-- Every run of the call that has come to its end leaves the input of rank 0 in every output
buffer. -/
def BroadcastCorrect (ident : Fin n → PeerId) (s : Strategy) (c : BroadcastCall n) : Prop :=
  ∀ σ : Fin n → Store, (∀ v, (σ v).mem = c.mem v) →
    ∀ x : Cluster (Fin n) PeerId ℕ Store Unit,
      CReach ident Store.writeBody (broadcastProgram s c) σ x → x.Final →
        ∀ v, Memory.read (c.output v) (c.workspace v).dataSize (x v).store.mem = c.inputData 0

theorem broadcastProgram_star (c : BroadcastCall n) (v : Fin n) :
    broadcastProgram .star c v = starBroadcastRun id id some 0 c.workspace v := rfl

theorem broadcastProgram_ring (c : BroadcastCall n) (v : Fin n) :
    broadcastProgram .ring c v = ringBroadcastRun id c.workspace v := by
  rw [broadcastProgram, broadcast_ring]
  rfl

theorem broadcast_compat (hc : c.Ok) (s : Strategy) :
    Compat fun v => blocks Store.writeBody (broadcastProgram s c v) := by
  cases s with
  | star => exact starBroadcast_compat strictMono_id members_id hc.agree
  | ring =>
      simp only [broadcastProgram_ring]
      exact ringBroadcast_compat strictMono_id hc.agree

theorem broadcast_fresh (s : Strategy) (c : BroadcastCall n) (v : Fin n)
    {b : Par (Fin n) ℕ Store Unit} (hb : b ∈ broadcastProgram s c v)
    {th : Thread (Fin n) ℕ Store Unit} (hth : th ∈ b.threads) : th.Fresh :=
  fresh_stamp (fun _ hths _ hth => fresh_runGraphs hths hth) hb hth

/-- What peer `v` ends with. -/
def BroadcastCall.received (s : Strategy) (c : BroadcastCall n) (v : Fin n) : Bytes :=
  match s with
  | .star => c.inputData 0
  | .ring => passedOn c.workspace c.mem (pos 0 v)

theorem BroadcastCall.length_received (s : Strategy) (c : BroadcastCall n) (v : Fin n) :
    (c.received s v).length = (c.workspace v).dataSize := by
  cases s with
  | star => exact Workspace.length_input _ _
  | ring => exact length_passedOn (fun _ => rfl) _

/-- Every message carries what its receiver ends with. -/
def broadcastContract (s : Strategy) (c : BroadcastCall n) :
    Contract (Fin n) ℕ Key Bytes Unit where
  msg _ d m := m.data = c.received s d
  out _ _ _ := True

/-- **The call keeps the contract.** -/
theorem broadcast_good (hc : c.Ok) (s : Strategy) (v : Fin n) {σ : Store} (hσ : σ.mem = c.mem v) :
    Good (broadcastContract s c) v
      (fun τ => τ.mem = Memory.write (c.output v) (c.received s v) (c.mem v))
      (blocks Store.writeBody (broadcastProgram s c v)) σ := by
  cases s with
  | star =>
      rw [broadcastProgram_star]
      exact starBroadcast_good members_id hc.agree hc.fits (fun _ => rfl)
        (fun _ _ _ => Iff.rfl) v hσ
  | ring =>
      rw [broadcastProgram_ring]
      exact ringBroadcast_good hc.agree hc.fits (fun _ => rfl) (fun _ _ _ _ => Iff.rfl) v hσ

/-- What every run of the call leaves in the output buffers. -/
theorem broadcast_final {ident : Fin n → PeerId} (hid : Function.Injective ident) (hc : c.Ok)
    {s : Strategy} {σ : Fin n → Store} (hσ : ∀ v, (σ v).mem = c.mem v)
    {x : Cluster (Fin n) PeerId ℕ Store Unit}
    (hx : CReach ident Store.writeBody (broadcastProgram s c) σ x) (hfinal : x.Final) (v : Fin n) :
    Memory.read (c.output v) (c.workspace v).dataSize (x v).store.mem = c.received s v := by
  have hcompat := broadcast_compat hc s
  obtain ⟨a, ha, hsim⟩ := simulate (tidy_of_compat hid (broadcast_fresh s c) hcompat)
    hcompat (fun a _ => excl_of_injective hid a) hx
  have hkept := Kept.reach (fun v => broadcast_good hc s v (hσ v)) ha
  have hdone : (a.proc v).blocks = [] := by
    rw [(hsim v).code, Node.abs, hfinal v]
  have hmem := (hkept.good v).post hdone
  rw [← (hsim v).store, hmem, ← c.length_received s v, Memory.read_write]

/-- A run of the call can end, so the call is correct when every peer ends with the right
data. -/
theorem broadcastCorrect_iff_received {ident : Fin n → PeerId} (hid : Function.Injective ident)
    (hc : c.Ok) (s : Strategy) :
    BroadcastCorrect ident s c ↔ ∀ v, c.received s v = c.inputData 0 := by
  constructor
  · intro h v
    have hcompat := broadcast_compat hc s
    obtain ⟨x, hx, -, hfinal⟩ := exists_final
      (c := Cluster.start (broadcastProgram s c) fun v => ⟨c.mem v, 0⟩)
      (tidy_of_compat hid (broadcast_fresh s c) hcompat) hcompat
      (fun a _ => excl_of_injective hid a) .refl
    rw [← broadcast_final hid hc (fun _ => rfl) hx hfinal v]
    exact h _ (fun _ => rfl) x hx hfinal v
  · intro h σ hσ x hx hfinal v
    rw [broadcast_final hid hc hσ hx hfinal v]
    exact h v

/-- When every vertex of the path ends with the input of the first. -/
theorem BroadcastCall.passedOn_eq_iff :
    (∀ v, c.received .ring v = c.inputData 0) ↔
      ∀ v : Fin n, 0 < v.val → v.val + 1 < n →
        c.input v = c.output v ∨ c.inputData v = c.inputData 0 := by
  have hinplace : ∀ v, (c.workspace v).inplace = true ↔ c.input v = c.output v := by
    intro v
    exact decide_eq_true_iff
  have hself : ∀ v : Fin n, Fin.ofNat n v.val = v := by
    intro v
    exact Fin.ext (Nat.mod_eq_of_lt v.isLt)
  have hpos : ∀ v : Fin n, pos 0 v = v.val := by
    intro v
    have := pos_ofNat (n := n) 0 v.isLt
    rwa [Nat.zero_add, hself] at this
  simp only [received, hpos]
  constructor
  · intro h v hv hlt
    have hnext := h ⟨v.val + 1, hlt⟩
    simp only [passedOn, hself] at hnext
    by_cases hin : (c.workspace v).inplace
    · exact .inl ((hinplace v).mp hin)
    · rw [if_neg hin] at hnext
      exact .inr hnext
  · intro h v
    -- along the path, every vertex hands on the data it has received
    obtain ⟨k, hk⟩ := v
    induction k with
    | zero => rfl
    | succ k ih =>
        have hu := hself ⟨k, by omega⟩
        simp only at hu
        simp only [passedOn, hu]
        split
        · exact ih (by omega)
        · next hout =>
          by_cases hz : k = 0
          · subst hz
            rfl
          · exact (h ⟨k, by omega⟩ (by simp; omega) hk).resolve_left
              fun heq => hout ((hinplace _).mpr heq)

end Call

/-- Peer `v` passes the byte `v`, out of place. -/
def broadcastRanks (n : ℕ) : BroadcastCall n where
  count := 1
  dt := .u8
  name := []
  input _ := 0
  output _ := 8
  mem v _ := UInt8.ofNat v

theorem broadcastRanks_ok : (broadcastRanks n).Ok where
  size := by simp [broadcastRanks, dtypeSize]
  nulFree := by simp [NulFree, broadcastRanks]
  separate _ := .inr (.inl (Nat.le_of_ble_eq_true rfl))

end StdmlCollective

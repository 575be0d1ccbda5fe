import StdmlCollective.Refine.Chunk
import StdmlCollective.Ring

/-!
# Star and ring as chunks

What a vertex does in a reduce graph and a broadcast graph is its role: it receives and adds, it
sends, it settles or receives into its buffer, and it sends again. Whatever the graphs are, the
programs of the vertices fit the runtime when a message for a buffer can only arrive after the
vertex has sent what it has reduced (`chunk_of_roles`). In the star the root has heard from all
leaves before it sends; in the ring the message has come round from the end of the reduce path.
-/

namespace StdmlCollective

open BlockNet

variable {P T O : Type} {n : ℕ}

/-! ## Roles -/

/-- What a vertex does: from whom it receives what it reduces and to whom it sends it, from whom it
receives the result and to whom it sends it on. -/
structure Role (P : Type) where
  prevs : List P
  nexts : List P
  source : Option P
  targets : List P

/-- The section between reducing and sending the result on. -/
def Role.middle (ρ : Role P) (u : Workspace) : List (Thread P T Store O) :=
  match ρ.source with
  | some q => [.slotGet q u.name u.recv]
  | none => [.act u.settle]

/-- The sections of a vertex. -/
def Role.sections (ρ : Role P) (u : Workspace) : List (List (Thread P T Store O)) :=
  [[.act u.start], ρ.prevs.map (recvTask u true), ρ.nexts.map (sendTask u true), ρ.middle u,
    ρ.targets.map (sendTask u false)]

/-- The program of a vertex, with the times of its sections. -/
def Role.run (ρ : Role P) (t : ℕ → T) (u : Workspace) : List (Par P T Store O) :=
  stamp t (ρ.sections u)

/-- The role of vertex `v` in two graphs. -/
def roleOf (peers : Fin n → P) (v : Fin n) (reduce broadcast : Graph n) : Role P where
  prevs := (reduce.prevs v).map peers
  nexts := (reduce.nexts v).map peers
  source := ((broadcast.prevs v).map peers).head?
  targets := (broadcast.nexts v).map peers

theorem runGraphs_role {peers : Fin n → P} {v : Fin n} {reduce broadcast : Graph n} (u : Workspace)
    (hr : reduce.selfLoop v = true) (hb : broadcast.selfLoop v = false)
    (hone : (broadcast.prevs v).length ≤ 1) :
    (runGraphsMultiThread peers v u [reduce, broadcast] : List (List (Thread P T Store O))) =
      (roleOf peers v reduce broadcast).sections u := by
  have hsource : broadcast.prevs v = [] ∨ ∃ q, broadcast.prevs v = [q] := by
    rcases hprevs : broadcast.prevs v with _ | ⟨q, _ | ⟨q', l⟩⟩
    · exact .inl rfl
    · exact .inr ⟨q, rfl⟩
    · rw [hprevs] at hone
      simp at hone
  rcases hsource with hprevs | ⟨q, hprevs⟩
  · simp [runGraphsMultiThread, runGraph, hr, hb, hprevs, Role.sections, Role.middle, roleOf]
    rfl
  · simp [runGraphsMultiThread, runGraph, hr, hb, hprevs, Role.sections, Role.middle, roleOf,
      recvTask]

/-- What the workspaces of a chunk have in common. -/
structure SameWork (u : P → Workspace) (name : Bytes) (f : ℕ → ℕ → ℕ) : Prop where
  name_eq : ∀ p, (u p).name = name
  nulFree : NulFree name
  op : ∀ p, elemOp (u p).dt (u p).op = some f

theorem SameWork.nulFree' {u : P → Workspace} {name : Bytes} {f : ℕ → ℕ → ℕ}
    (h : SameWork u name f) (p : P) : NulFree (u p).name := by
  rw [h.name_eq p]
  exact h.nulFree

/-- Nobody is named twice. -/
structure Role.Nodup (ρ : Role P) : Prop where
  prevs : ρ.prevs.Nodup
  nexts : ρ.nexts.Nodup
  targets : ρ.targets.Nodup

section Run

variable {ρ : Role P} {t : ℕ → T} {w : Workspace}

theorem Role.run_eq (ρ : Role P) (t : ℕ → T) (w : Workspace) :
    (ρ.run t w : List (Par P T Store O)) = [⟨t 0, [.act w.start]⟩,
      ⟨t 1, ρ.prevs.map (recvTask w true)⟩, ⟨t 2, ρ.nexts.map (sendTask w true)⟩,
      ⟨t 3, ρ.middle w⟩, ⟨t 4, ρ.targets.map (sendTask w false)⟩] := rfl

theorem Role.fresh_run {b : Par P T Store O} (hb : b ∈ ρ.run t w) {th : Thread P T Store O}
    (hth : th ∈ b.threads) : th.Fresh := by
  refine fresh_stamp (fun ths hths th hth => ?_) hb hth
  simp only [Role.sections, List.mem_cons, List.not_mem_nil, or_false] at hths
  rcases hths with rfl | rfl | rfl | rfl | rfl
  · obtain rfl := List.mem_singleton.mp hth
    trivial
  · obtain ⟨q, -, rfl⟩ := List.mem_map.mp hth
    exact (plain_recvTask w true q).fresh
  · obtain ⟨q, -, rfl⟩ := List.mem_map.mp hth
    trivial
  · unfold Role.middle at hth
    split at hth <;> obtain rfl := List.mem_singleton.mp hth <;> trivial
  · obtain ⟨q, -, rfl⟩ := List.mem_map.mp hth
    trivial

theorem peers_sends (t : T) (reduce : Bool) (l : List P) :
    (⟨t, l.map (sendTask w reduce)⟩ : Par P T Store O).peers = l := by
  rw [Par.peers, List.filterMap_map]
  exact List.filterMap_some

theorem peers_recvs {f : ℕ → ℕ → ℕ} (hf : elemOp w.dt w.op = some f) (t : T) (l : List P) :
    (⟨t, l.map (recvTask w true)⟩ : Par P T Store O).peers = l := by
  have hpeer : Thread.peer? ∘ (recvTask w true : P → Thread P T Store O) = some := by
    funext q
    simp [recvTask, hf, Thread.peer?]
  rw [Par.peers, List.filterMap_map, hpeer]
  exact List.filterMap_some

theorem tasks_sends (t : T) (reduce : Bool) (l : List P) :
    (⟨t, l.map (sendTask w reduce)⟩ : Par P T Store O).Tasks := by
  intro th hth
  obtain ⟨q, -, rfl⟩ := List.mem_map.mp hth
  rfl

theorem tasks_recvs {f : ℕ → ℕ → ℕ} (hf : elemOp w.dt w.op = some f) (t : T) (l : List P) :
    (⟨t, l.map (recvTask w true)⟩ : Par P T Store O).Tasks := by
  intro th hth
  obtain ⟨q, -, rfl⟩ := List.mem_map.mp hth
  simp [recvTask, hf, Thread.peer?]

theorem Role.proper_run {f : ℕ → ℕ → ℕ} (hf : elemOp w.dt w.op = some f) (hρ : ρ.Nodup)
    {b : Par P T Store O} (hb : b ∈ ρ.run t w) : b.Proper := by
  rw [Role.run_eq] at hb
  simp only [List.mem_cons, List.not_mem_nil, or_false] at hb
  rcases hb with rfl | rfl | rfl | rfl | rfl
  · exact ⟨.inr (Nat.le_refl 1), List.nodup_nil⟩
  · exact ⟨.inl (tasks_recvs hf _ _), by rw [peers_recvs hf]; exact hρ.prevs⟩
  · exact ⟨.inl (tasks_sends _ _ _), by rw [peers_sends]; exact hρ.nexts⟩
  · unfold Role.middle
    split <;> exact ⟨.inr (Nat.le_refl 1), List.nodup_nil⟩
  · exact ⟨.inl (tasks_sends _ _ _), by rw [peers_sends]; exact hρ.targets⟩

theorem slotted_recvTask {f : ℕ → ℕ → ℕ} (hf : elemOp w.dt w.op = some f) (q : P) :
    (recvTask w true q : Thread P T Store O).slotted = false := by
  simp [recvTask, hf, Thread.slotted]

theorem Role.oneSlot_run {f : ℕ → ℕ → ℕ} (hf : elemOp w.dt w.op = some f) :
    OneSlot (ρ.run t w : List (Par P T Store O)) := by
  have hpre : SlotFree ([⟨t 0, [.act w.start]⟩, ⟨t 1, ρ.prevs.map (recvTask w true)⟩,
      ⟨t 2, ρ.nexts.map (sendTask w true)⟩] : List (Par P T Store O)) := by
    intro b hb th hth
    simp only [List.mem_cons, List.not_mem_nil, or_false] at hb
    rcases hb with rfl | rfl | rfl
    · obtain rfl := List.mem_singleton.mp hth
      rfl
    · obtain ⟨q, -, rfl⟩ := List.mem_map.mp hth
      exact slotted_recvTask hf q
    · obtain ⟨q, -, rfl⟩ := List.mem_map.mp hth
      rfl
  have hpost : SlotFree ([⟨t 4, ρ.targets.map (sendTask w false)⟩] : List (Par P T Store O)) := by
    intro b hb th hth
    obtain rfl := List.mem_singleton.mp hb
    obtain ⟨q, -, rfl⟩ := List.mem_map.mp hth
    rfl
  rw [Role.run_eq]
  unfold Role.middle
  cases ρ.source with
  | some q => exact .inr ⟨_, t 3, q, w.name, w.recv, _, rfl, hpre, hpost⟩
  | none =>
      left
      intro b hb
      have hsplit : b ∈ [_, _, _] ++ [⟨t 3, [.act w.settle]⟩, _] := hb
      rcases List.mem_append.mp hsplit with hb | hb
      · exact hpre b hb
      · rcases List.mem_cons.mp hb with rfl | hb
        · intro th hth
          obtain rfl := List.mem_singleton.mp hth
          rfl
        · exact hpost b hb

end Run

section Tags

variable {ρ : Role P} {t : ℕ → T} {w : Workspace} {f : ℕ → ℕ → ℕ}

/-- The jobs of the section between reducing and sending the result on. -/
def Role.middleJobs (ρ : Role P) (w : Workspace) : List (Job P T Key Bytes Store O) :=
  match ρ.source with
  | some q => [.recv q (w.name, true) (Store.writeBody w.recv)]
  | none => [.act w.settle]

/-- The program of a vertex as blocks. -/
theorem Role.run_blocks (hf : elemOp w.dt w.op = some f) (hname : NulFree w.name) :
    blocks Store.writeBody (ρ.run t w : List (Par P T Store O)) =
      [⟨t 0, [.act w.start]⟩,
        ⟨t 1, ρ.prevs.map fun q => .recv q (w.name, false) (w.addTo f)⟩,
        ⟨t 2, ρ.nexts.map fun q => .send q (w.name, false) w.payload⟩,
        ⟨t 3, ρ.middleJobs w⟩,
        ⟨t 4, ρ.targets.map fun q => .send q (w.name, true) w.payload⟩] := by
  have hmiddle : (⟨t 3, ρ.middle w⟩ : Par P T Store O).block Store.writeBody =
      ⟨t 3, ρ.middleJobs w⟩ := by
    unfold Role.middle Role.middleJobs
    cases ρ.source <;> rfl
  rw [Role.run_eq]
  simp only [blocks, List.map_cons, List.map_nil, hmiddle]
  simp [Par.block, recvTask_job_reduce hf, sendTask_job hname, Function.comp_def, Thread.job_act]

variable [DecidableEq P]

theorem Role.sends_middle (a : T) (ρ : Role P) (w : Workspace) (d : P) :
    (⟨a, ρ.middleJobs w⟩ : Block P T Key Bytes Store O).sends d = [] := by
  unfold Role.middleJobs
  split <;> rfl

theorem Role.recvs_middle (a : T) (ρ : Role P) (w : Workspace) (s : P) :
    (⟨a, ρ.middleJobs w⟩ : Block P T Key Bytes Store O).recvs s =
      if ρ.source = some s then [(a, (w.name, true))] else [] := by
  unfold Role.middleJobs
  cases hsource : ρ.source with
  | none => simp [Block.recvs_act]
  | some q =>
      have hmap := Block.recvs_map (O := O) a (List.nodup_singleton q) (w.name, true)
        (fun _ => Store.writeBody w.recv) s
      simp only [List.map_cons, List.map_nil, List.mem_singleton] at hmap
      rw [hmap]
      simp [eq_comm]

theorem Role.recvs_run (hf : elemOp w.dt w.op = some f) (hname : NulFree w.name)
    (hρ : ρ.Nodup) (s : P) :
    recvs (blocks Store.writeBody (ρ.run t w : List (Par P T Store O))) s =
      (if s ∈ ρ.prevs then [(t 1, (w.name, false))] else []) ++
        if ρ.source = some s then [(t 3, (w.name, true))] else [] := by
  rw [Role.run_blocks hf hname]
  simp only [recvs_cons, recvs_nil, Block.recvs_act, Block.recvs_send, Role.recvs_middle,
    Block.recvs_map _ hρ.prevs _ fun _ => w.addTo f, List.nil_append, List.append_nil]

/-- What a vertex receives it receives once. -/
theorem Role.nodup_recvs (hf : elemOp w.dt w.op = some f) (hname : NulFree w.name) (hρ : ρ.Nodup)
    (s : P) : (recvs (blocks Store.writeBody (ρ.run t w : List (Par P T Store O))) s).Nodup := by
  rw [Role.recvs_run hf hname hρ]
  split <;> split <;> simp

theorem Role.sends_run (hf : elemOp w.dt w.op = some f) (hname : NulFree w.name)
    (hρ : ρ.Nodup) (d : P) :
    sends (blocks Store.writeBody (ρ.run t w : List (Par P T Store O))) d =
      (if d ∈ ρ.nexts then [(t 2, (w.name, false))] else []) ++
        if d ∈ ρ.targets then [(t 4, (w.name, true))] else [] := by
  rw [Role.run_blocks hf hname]
  simp only [sends_cons, sends_nil, Block.sends_act, Role.sends_middle, Block.sends_map _ hρ.nexts,
    Block.sends_map _ hρ.targets, Block.sends_recv _ _ _ _ fun _ => w.addTo f, List.nil_append]
  simp

end Tags

section Times

variable [DecidableEq P] [LinearOrder T] {ρ : Role P} {t : ℕ → T} {w : Workspace}

/-- The times of the sections increase. -/
theorem Role.times_run (hv : Valid (blocks Store.writeBody (ρ.run t w : List (Par P T Store O)))) :
    t 0 < t 1 ∧ t 1 < t 2 ∧ t 2 < t 3 ∧ t 3 < t 4 := by
  have htimes := hv.times
  simp only [Role.run_eq, blocks, List.map_cons, List.map_nil, Par.block, List.pairwise_cons,
    List.mem_cons, List.not_mem_nil, or_false, forall_eq_or_imp, forall_eq] at htimes
  exact ⟨htimes.1.1, htimes.2.1.1, htimes.2.2.1.1, htimes.2.2.2.1⟩

end Times

section Chunk

variable [DecidableEq P] [LinearOrder T] {ρ : P → Role P} {t : P → ℕ → T} {w : P → Workspace}
  {name : Bytes} {f : ℕ → ℕ → ℕ}

/-- What vertex `p` has reduced is on its way, or further. -/
def SentUp (ρ : P → Role P) (t : P → ℕ → T) (name : Bytes) (a : State P T Key Bytes Store O)
    (p : P) : Prop :=
  (∀ b ∈ (a.proc p).blocks, t p 2 ≤ b.time) ∧
    ∀ q ∈ (ρ p).nexts, (t p 2, (name, false)) ∉ sends (a.proc p).blocks q

/-- **When the programs of the vertices fit the runtime.** -/
theorem chunk_of_roles (hw : SameWork w name f) (hρ : ∀ p, (ρ p).Nodup)
    (hcompat : Compat fun p => blocks Store.writeBody ((ρ p).run (t p) (w p) :
      List (Par P T Store O)))
    (hup : ∀ {σ a}, Reach (fun p => blocks Store.writeBody ((ρ p).run (t p) (w p) :
      List (Par P T Store O))) σ a → ∀ {s p}, ∀ pk ∈ a.link s p, pk.key.2 = true →
        SentUp ρ t name a p) :
    Chunk fun p => ((ρ p).run (t p) (w p) : List (Par P T Store O)) where
  compat := hcompat
  fresh p b hb th hth := Role.fresh_run hb hth
  proper p b hb := Role.proper_run (hw.op p) (hρ p) hb
  oneSlot p := Role.oneSlot_run (hw.op p)
  keys s d := by
    rw [Role.recvs_run (hw.op d) (hw.nulFree' d) (hρ d)]
    split <;> split <;> simp
  last s d := by
    rw [Role.recvs_run (hw.op d) (hw.nulFree' d) (hρ d)]
    split <;> split <;> simp
  before {q s d t₁ t₂ nm nm'} hrecv hsend := by
    obtain ⟨-, -, hlt, -⟩ := Role.times_run (hcompat.valid q)
    rw [Role.recvs_run (hw.op q) (hw.nulFree' q) (hρ q)] at hrecv
    rw [Role.sends_run (hw.op q) (hw.nulFree' q) (hρ q)] at hsend
    have h₁ : t₁ = t q 3 := by
      rcases List.mem_append.mp hrecv with hrecv | hrecv <;> split at hrecv <;> simp_all
    have h₂ : t₂ = t q 2 := by
      rcases List.mem_append.mp hsend with hsend | hsend <;> split at hsend <;> simp_all
    rw [h₁, h₂]
    exact hlt
  ahead {σ a} ha {s p} pk hpk hslot b hb hlt := by
    obtain ⟨hreached, hsent⟩ := hup ha pk hpk hslot
    obtain ⟨h₀₁, h₁₂, h₂₃, h₃₄⟩ := Role.times_run (hcompat.valid p)
    have hm := hcompat.matched_reach ha
    have htime : pk.time = t p 3 := by
      have hmem : pk.tag ∈ recvs (a.proc p).blocks s := by
        rw [← hm.tags s p]
        exact List.mem_append_left _ (List.mem_map_of_mem hpk)
      have hprog := ((ha.remains p).recvs_sublist s).subset hmem
      rw [Role.recvs_run (hw.op p) (hw.nulFree' p) (hρ p)] at hprog
      obtain ⟨time, ⟨nm, waits⟩, data⟩ := pk
      simp only at hslot
      subst hslot
      rcases List.mem_append.mp hprog with hprog | hprog <;> split at hprog <;>
        simp_all [BlockNet.Packet.tag]
    -- of the sections before the receive only the one that sends up is left
    obtain ⟨b', hb', htime', hsub⟩ := (ha.remains p).block_mem hb
    have hge := hreached b hb
    rw [htime] at hlt
    rw [Role.run_blocks (hw.op p) (hw.nulFree' p)] at hb'
    simp only [List.mem_cons, List.not_mem_nil, or_false] at hb'
    rw [← htime'] at hge hlt
    rcases hb' with rfl | rfl | rfl | rfl | rfl
    · exact absurd hge (not_le.mpr (h₀₁.trans h₁₂))
    · exact absurd hge (not_le.mpr h₁₂)
    · rw [List.eq_nil_iff_forall_not_mem]
      intro j hj
      obtain ⟨q, hq, rfl⟩ := List.mem_map.mp (hsub.subset hj)
      refine hsent q hq (List.mem_flatMap.mpr ⟨b, hb, ?_⟩)
      rw [Block.sends, ← htime', ← hw.name_eq p]
      exact List.mem_map_of_mem (List.mem_filterMap.mpr ⟨_, hj, by simp [Job.sendKey]⟩)
    · exact absurd hlt (lt_irrefl _)
    · exact absurd hlt (not_lt.mpr h₃₄.le)

end Chunk

/-! ## The star -/

section Star

variable {root : Fin n} {w : Fin n → Workspace} {name : Bytes} {f : ℕ → ℕ → ℕ}

/-- The root receives from all others and sends to all others. -/
def starRole (root v : Fin n) : Role (Fin n) :=
  if v = root then ⟨others root, [], none, others root⟩ else ⟨[], [root], some root, []⟩

theorem starRole_nodup (root v : Fin n) : (starRole root v).Nodup := by
  unfold starRole
  split
  · exact ⟨nodup_others root, List.nodup_nil, nodup_others root⟩
  · exact ⟨List.nodup_nil, List.nodup_singleton _, List.nodup_nil⟩

theorem starRun_role (lab : ℕ → T) (root : Fin n) (w : Fin n → Workspace) (v : Fin n) :
    (starRun lab id some root w v : List (Par (Fin n) T Store O)) =
      (starRole root v).run (fun i => lab (starLab root v i)) (w v) := by
  obtain ⟨hr, hb⟩ := starPair_selfLoop root v
  have hrole : roleOf id v (starPair n root).reduceGraph (starPair n root).broadcastGraph =
      starRole root v := by
    unfold starRole roleOf
    split
    · next h =>
      obtain ⟨h₁, h₂, h₃, h₄⟩ := starPair_root root
      rw [h, h₁, h₂, h₃, h₄]
      simp
    · next h =>
      obtain ⟨h₁, h₂, h₃, h₄⟩ := starPair_leaf h
      rw [h₁, h₂, h₃, h₄]
      simp
  have hone : ((starPair n root).broadcastGraph.prevs v).length ≤ 1 := by
    by_cases h : v = root
    · rw [h, (starPair_root root).2.2.1]
      exact Nat.zero_le 1
    · rw [(starPair_leaf h).2.2.1]
      exact Nat.le_refl 1
  rw [Role.run, ← hrole, ← runGraphs_role (w v) hr hb hone]
  rfl

theorem SameWork.partOk (h : SameWork w name f) (root : Fin n) : PartOk w name root f where
  name_eq := h.name_eq
  nulFree := h.nulFree
  op := h.op root

variable [LinearOrder T] {lab : ℕ → T}

/-- **The star fits the runtime**: the root sends only after it has heard from all leaves. -/
theorem star_chunk (hlab : StrictMono lab) (hw : SameWork w name f) (root : Fin n) :
    Chunk fun v => (starRun lab id some root w v : List (Par (Fin n) T Store O)) := by
  have hcompat := star_compat (O := O) hlab members_id (hw.partOk root)
  have hrecvs := starRun_recvs (O := O) lab members_id (hw.partOk root)
  simp only [starRun_role] at hcompat hrecvs ⊢
  refine chunk_of_roles hw (starRole_nodup root) hcompat ?_
  intro σ a ha s p pk hpk hslot
  have hm := hcompat.matched_reach ha
  have hmem : pk.tag ∈ starTag lab root name (some s) (some p) := by
    rw [← hrecvs p s]
    refine ((ha.remains p).recvs_sublist s).subset ?_
    rw [← hm.tags s p]
    exact List.mem_append_left _ (List.mem_map_of_mem hpk)
  obtain ⟨rfl, hp, htime⟩ : s = root ∧ p ≠ root ∧ pk.time = lab 5 := by
    obtain ⟨time, ⟨nm, waits⟩, data⟩ := pk
    simp only at hslot
    subst hslot
    unfold starTag at hmem
    dsimp only at hmem
    split at hmem <;> split at hmem <;> simp_all [BlockNet.Packet.tag]
  have hroot := hm.reached_of_link ha hcompat
    (Role.nodup_recvs (hw.op p) (hw.nulFree' p) (starRole_nodup s p) s) hpk
  have hup : (lab 2, (name, false)) ∈ starTag lab s name (some p) (some s) := by
    simp [starTag, hp]
  rw [← hrecvs s p] at hup
  obtain ⟨hreached, hsent⟩ := hm.reached_of_recvs ha hcompat hup fun b hb =>
    (hlab (show 2 < 5 by omega)).trans_le (htime ▸ hroot b hb)
  have hlab₂ : starLab s p 2 = 2 := by simp [starLab, hp]
  refine ⟨?_, ?_⟩
  · simp only [hlab₂]
    exact hreached
  · intro q hq
    simp only [starRole, if_neg hp, List.mem_singleton] at hq
    subst hq
    simp only [hlab₂]
    exact hsent

end Star

/-! ## The ring -/

section Ring

variable [NeZero n] {w : Fin n → Workspace} {name : Bytes} {f : ℕ → ℕ → ℕ}

/-- A vertex has a place on two paths. -/
def ringRole (r : ℕ) (v : Fin n) : Role (Fin n) :=
  ⟨pathPrev (r + 1) v, pathNext (r + 1) v, (pathPrev r v).head?, pathNext r v⟩

theorem ringRole_nodup (r : ℕ) (v : Fin n) : (ringRole r v).Nodup :=
  ⟨nodup_pathPrev _ v, nodup_pathNext _ v, nodup_pathNext _ v⟩

theorem length_pathPrev_le (r : ℕ) (v : Fin n) : (pathPrev r v).length ≤ 1 := by
  unfold pathPrev
  split <;> simp

theorem head_pathPrev {r : ℕ} {u v : Fin n} :
    (pathPrev r v).head? = some u ↔ pos r v = pos r u + 1 := by
  rw [← mem_pathPrev]
  unfold pathPrev
  split <;> simp [eq_comm]

theorem ringRun_role (lab : ℕ → T) (r : ℕ) (w : Fin n → Workspace) (v : Fin n) :
    (ringRun lab r w v : List (Par (Fin n) T Store O)) =
      (ringRole r v).run (fun i => lab (ringLab r v i)) (w v) := by
  obtain ⟨h₁, h₂, h₃, h₄, h₅, h₆⟩ := makeCircularGraphPair_spec r v
  have hrole : roleOf id v (makeCircularGraphPair n r).reduceGraph
      (makeCircularGraphPair n r).broadcastGraph = ringRole r v := by
    unfold ringRole roleOf
    rw [h₁, h₂, h₄, h₅]
    simp
  have hone := length_pathPrev_le r v
  rw [← h₄] at hone
  rw [Role.run, ← hrole, ← runGraphs_role (w v) h₃ h₆ hone]
  rfl

variable [LinearOrder T] {lab : ℕ → T} {r : ℕ} {σ : Fin n → Store}
  {a : State (Fin n) T Key Bytes Store O}

/-- The network of the ring. -/
abbrev RingReach (lab : ℕ → T) (r : ℕ) (w : Fin n → Workspace) (σ : Fin n → Store)
    (a : State (Fin n) T Key Bytes Store O) : Prop :=
  Reach (fun v => blocks Store.writeBody ((ringRole r v).run (fun i => lab (ringLab r v i)) (w v)))
    σ a

theorem ringRole_compat (hlab : StrictMono lab) (hw : SameWork w name f) (r : ℕ) :
    Compat fun v => blocks Store.writeBody
      ((ringRole r v).run (fun i => lab (ringLab r v i)) (w v) :
        List (Par (Fin n) T Store O)) := by
  have hcompat := ring_compat (O := O) hlab r hw.partOk
  simp only [ringRun_role] at hcompat
  exact hcompat

section Causes

variable (hlab : StrictMono lab) (hw : SameWork w name f) (ha : RingReach lab r w σ a)
include hlab hw ha

/-- A vertex that has sent the result on has had it from the vertex before it, and so on up to the
root. -/
theorem ring_root_sent {k : ℕ} {u : Fin n} (hu : pos r u = k)
    (hsent : ∀ b ∈ (a.proc u).blocks, lab (n + 4 + k) ≤ b.time) {z : Fin n} (hz : pos r z = 0) :
    ∀ b ∈ (a.proc z).blocks, lab (n + 4) ≤ b.time := by
  have hcompat := ringRole_compat (O := O) hlab hw r
  induction k generalizing u with
  | zero =>
      obtain rfl : u = z := pos_injective r (hu.trans hz.symm)
      exact hsent
  | succ k ih =>
      obtain ⟨y, hy⟩ : ∃ y : Fin n, pos r y = k :=
        ⟨_, pos_ofNat r (by have := pos_lt r u; omega)⟩
      refine ih hy ?_
      have hrecv : (lab (n + 3 + (k + 1)), (name, true)) ∈ recvs (blocks Store.writeBody
          ((ringRole r u).run (fun i => lab (ringLab r u i)) (w u) : List (Par (Fin n) T Store O)))
            y := by
        have hsource : (ringRole r u).source = some y := head_pathPrev.mpr (by rw [hy, hu])
        have hlabel : ringLab r u 3 = n + 3 + (k + 1) := by rw [← hu]; rfl
        rw [Role.recvs_run (hw.op u) (hw.nulFree' u) (ringRole_nodup r u), if_pos hsource,
          hw.name_eq, hlabel]
        exact List.mem_append_right _ (List.mem_singleton_self _)
      have hreached := (hcompat.matched_reach ha).reached_of_recvs ha hcompat hrecv fun b hb =>
        (hlab (by omega)).trans_le (hsent b hb)
      rw [show n + 4 + k = n + 3 + (k + 1) by omega]
      exact hreached.1

/-- When the root has sent the result every vertex has sent what it has reduced. -/
theorem ring_sentUp (hroot : ∀ z, pos r z = 0 → ∀ b ∈ (a.proc z).blocks, lab (n + 4) ≤ b.time)
    {k : ℕ} {v : Fin n} (hv : pos (r + 1) v + k + 1 = n) :
    SentUp (ringRole r) (fun v i => lab (ringLab r v i)) name a v := by
  have hcompat := ringRole_compat (O := O) hlab hw r
  induction k generalizing v with
  | zero =>
      have hz : pos r v = 0 := by rw [pos_succ, if_pos (by omega)]
      refine ⟨fun b hb => (hlab.monotone ?_).trans (hroot v hz b hb), fun q hq => ?_⟩
      · simp only [ringLab]
        omega
      · have hlt := pos_lt (r + 1) q
        have hnext : pos (r + 1) q = pos (r + 1) v + 1 := mem_pathNext.mp hq
        omega
  | succ k ih =>
      obtain ⟨y, hy⟩ : ∃ y : Fin n, pos (r + 1) y = pos (r + 1) v + 1 := ⟨_, pos_ofNat _ (by omega)⟩
      have hlater := ih (v := y) (by omega)
      have hrecv : (lab (pos (r + 1) v + 2), (name, false)) ∈ recvs (blocks Store.writeBody
          ((ringRole r y).run (fun i => lab (ringLab r y i)) (w y) :
            List (Par (Fin n) T Store O))) v := by
        have hprev : v ∈ (ringRole r y).prevs := mem_pathPrev.mpr hy
        rw [Role.recvs_run (hw.op y) (hw.nulFree' y) (ringRole_nodup r y), if_pos hprev, hw.name_eq,
          ringLab, hy]
        exact List.mem_append_left _ (List.mem_singleton_self _)
      obtain ⟨hreached, hsent⟩ := (hcompat.matched_reach ha).reached_of_recvs ha hcompat hrecv
        fun b hb => (hlab (by simp only [ringLab]; omega)).trans_le (hlater.1 b hb)
      refine ⟨hreached, fun q hq => ?_⟩
      obtain rfl : q = y := pos_injective (r + 1) ((mem_pathNext.mp hq).trans hy.symm)
      exact hsent

end Causes

/-- **The ring fits the runtime**: the result comes round from the end of the reduce path. -/
theorem ring_chunk (hlab : StrictMono lab) (hw : SameWork w name f) (r : ℕ) :
    Chunk fun v => (ringRun lab r w v : List (Par (Fin n) T Store O)) := by
  have hcompat := ringRole_compat (O := O) hlab hw r
  simp only [ringRun_role]
  refine chunk_of_roles hw (ringRole_nodup r) hcompat ?_
  intro σ a ha u v pk hpk hslot
  have hm := hcompat.matched_reach ha
  have hmem : pk.tag ∈ recvs (blocks Store.writeBody ((ringRole r v).run
      (fun i => lab (ringLab r v i)) (w v) : List (Par (Fin n) T Store O))) u := by
    refine ((ha.remains v).recvs_sublist u).subset ?_
    rw [← hm.tags u v]
    exact List.mem_append_left _ (List.mem_map_of_mem hpk)
  rw [Role.recvs_run (hw.op v) (hw.nulFree' v) (ringRole_nodup r v)] at hmem
  obtain ⟨hedge, htime⟩ : pos r v = pos r u + 1 ∧ pk.time = lab (n + 3 + pos r v) := by
    obtain ⟨time, ⟨nm, waits⟩, data⟩ := pk
    simp only at hslot
    subst hslot
    rcases List.mem_append.mp hmem with hmem | hmem <;> split at hmem
    · simp [BlockNet.Packet.tag] at hmem
    · simp at hmem
    · next h =>
      simp only [BlockNet.Packet.tag, List.mem_singleton, Prod.mk.injEq] at hmem
      exact ⟨head_pathPrev.mp h, hmem.1⟩
    · simp at hmem
  have hsent := hm.reached_of_link ha hcompat
    (Role.nodup_recvs (hw.op v) (hw.nulFree' v) (ringRole_nodup r v) u) hpk
  rw [htime, hedge, show n + 3 + (pos r u + 1) = n + 4 + pos r u by omega] at hsent
  have hlt := pos_lt (r + 1) v
  exact ring_sentUp hlab hw ha (fun z hz => ring_root_sent hlab hw ha rfl hsent hz)
    (k := n - 1 - pos (r + 1) v) (by omega)

end Ring

end StdmlCollective

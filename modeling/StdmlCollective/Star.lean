import StdmlCollective.Accumulate
import StdmlCollective.Lib.Causality
import StdmlCollective.Runner

/-!
# One workspace over the star

`run_graphs_multi_thread` over the reduce graph and the broadcast graph of the star, for
one part of an `all_reduce`. The leaves send their input to the root; the root adds what
arrives in whatever order, settles on a value, and sends it back.

The members of the session are `peers 0, …, peers (n - 1)`; a process that is no member
runs nothing.
-/

namespace StdmlCollective

open BlockNet

variable {P T O : Type} {n : ℕ}

/-- The labels of the sections: a message and its receive have the same one. The root
receives at 2 and sends at 5. -/
def starLab (root rank : Fin n) (i : ℕ) : ℕ :=
  if rank = root then (if i = 0 then 0 else i + 1) else (if i ≤ 2 then i else i + 2)

/-- What a vertex sends. -/
def Workspace.payload (w : Workspace) (σ : Store) : Bytes :=
  wireData (Memory.read (w.effectiveData σ) w.dataSize σ.mem)

/-- What a vertex without predecessors does in the broadcast graph. -/
def Workspace.settle (w : Workspace) (σ : Store) : Store :=
  if σ.recvCount = 0 then w.forward σ else σ

section Blocks

variable {w : Workspace}

theorem sendTask_job (hname : NulFree w.name) (reduce : Bool) (t : T) (id : P) :
    Thread.job Store.writeBody t (sendTask w reduce id : Thread P T Store O) =
      .send id (w.name, !reduce) w.payload := by
  have hcs := cStr_eq_self hname
  cases reduce <;> simp only [sendTask, Thread.job, hcs] <;> rfl

theorem recvTask_job_reduce {f : ℕ → ℕ → ℕ} (hf : elemOp w.dt w.op = some f) (t : T) (id : P) :
    Thread.job Store.writeBody t (recvTask w true id : Thread P T Store O) =
      .recv id (w.name, false) (w.addTo f) := by
  simp [recvTask, hf, Thread.job]

theorem recvTask_job_slot (t : T) (id : P) :
    Thread.job Store.writeBody t (recvTask w false id : Thread P T Store O) =
      .recv id (w.name, true) (Store.writeBody w.recv) := rfl

/-- The program of the root. -/
theorem star_root (lab : ℕ → T) (peers : Fin n → P) (root : Fin n) {f : ℕ → ℕ → ℕ}
    (hf : elemOp w.dt w.op = some f) (hname : NulFree w.name) :
    blocks Store.writeBody (stamp lab (runGraphsMultiThread peers root w
        [(starPair n root).reduceGraph, (starPair n root).broadcastGraph]) :
          List (Par P T Store O)) =
      [⟨lab 0, [.act w.start]⟩,
        ⟨lab 1, (others root).map fun q => .recv (peers q) (w.name, false) (w.addTo f)⟩,
        ⟨lab 2, []⟩,
        ⟨lab 3, [.act w.settle]⟩,
        ⟨lab 4, (others root).map fun q => .send (peers q) (w.name, true) w.payload⟩] := by
  obtain ⟨h₁, h₂, h₃, h₄⟩ := starPair_root root
  obtain ⟨hs₁, hs₂⟩ := starPair_selfLoop root root
  simp [runGraphsMultiThread, runGraph, h₁, h₂, h₃, h₄, hs₁, hs₂, stamp, blocks, Par.block,
    recvTask_job_reduce hf, sendTask_job hname, Function.comp_def]
  rfl

/-- The program of a leaf. -/
theorem star_leaf (lab : ℕ → T) (peers : Fin n → P) {root rank : Fin n} (hne : rank ≠ root)
    (hname : NulFree w.name) :
    blocks Store.writeBody (stamp lab (runGraphsMultiThread peers rank w
        [(starPair n root).reduceGraph, (starPair n root).broadcastGraph]) :
          List (Par P T Store O)) =
      [⟨lab 0, [.act w.start]⟩,
        ⟨lab 1, []⟩,
        ⟨lab 2, [.send (peers root) (w.name, false) w.payload]⟩,
        ⟨lab 3, [.recv (peers root) (w.name, true) (Store.writeBody w.recv)]⟩,
        ⟨lab 4, []⟩] := by
  obtain ⟨h₁, h₂, h₃, h₄⟩ := starPair_leaf hne
  obtain ⟨hs₁, hs₂⟩ := starPair_selfLoop root rank
  simp [runGraphsMultiThread, runGraph, h₁, h₂, h₃, h₄, hs₁, hs₂, stamp, blocks, Par.block,
    recvTask_job_slot, sendTask_job hname]

end Blocks

/-! ## Compatibility -/

/-- `run_graphs_multi_thread` over the star, as process `p` runs it. -/
def starRun (f : ℕ → T) (peers : Fin n → P) (rank : P → Option (Fin n)) (root : Fin n)
    (w : Fin n → Workspace) (p : P) : List (Par P T Store O) :=
  match rank p with
  | some r => stamp (fun i => f (starLab root r i)) (runGraphsMultiThread peers r (w r)
      [(starPair n root).reduceGraph, (starPair n root).broadcastGraph])
  | none => []

/-- The members of a session: `rank` finds the place of a process in the list. -/
structure Members (peers : Fin n → P) (rank : P → Option (Fin n)) : Prop where
  rank_eq : ∀ p r, rank p = some r ↔ peers r = p

theorem Members.rank_peers {peers : Fin n → P} {rank : P → Option (Fin n)}
    (h : Members peers rank) (r : Fin n) : rank (peers r) = some r := (h.rank_eq _ r).mpr rfl

theorem Members.injective {peers : Fin n → P} {rank : P → Option (Fin n)}
    (h : Members peers rank) : Function.Injective peers := by
  intro r r' heq
  have h₁ := h.rank_peers r
  rw [heq, h.rank_peers r'] at h₁
  exact (Option.some.inj h₁).symm

/-- The workspaces of one call have one name. -/
structure Agree (w : Fin n → Workspace) (name : Bytes) : Prop where
  name_eq : ∀ r, (w r).name = name
  nulFree : NulFree name

theorem Agree.nulFree' {w : Fin n → Workspace} {name : Bytes} (h : Agree w name) (r : Fin n) :
    NulFree (w r).name := by
  rw [h.name_eq r]
  exact h.nulFree

/-- The workspaces of one part of an `all_reduce`; the root combines with `f`. -/
structure PartOk (w : Fin n → Workspace) (name : Bytes) (root : Fin n) (f : ℕ → ℕ → ℕ) : Prop
    extends Agree w name where
  op : elemOp (w root).dt (w root).op = some f

/-- The buffers are in place or out of place, and fit a message. -/
structure Fits (w : Fin n → Workspace) : Prop where
  size : ∀ r, (w r).dataSize < 2 ^ 32
  separate : ∀ r, (w r).Separate

/-- What a vertex sends is what `effective_data` points to. -/
theorem Fits.payload_eq {w : Fin n → Workspace} (h : Fits w) (r : Fin n) {σ : Store} {d : Bytes}
    (hd : Memory.read ((w r).effectiveData σ) (w r).dataSize σ.mem = d) :
    (w r).payload σ = d := by
  rw [Workspace.payload, wireData_eq_self (by simpa using h.size r), hd]

section Star

variable {peers : Fin n → P} {rank : P → Option (Fin n)} {root : Fin n}
variable {w : Fin n → Workspace} {name : Bytes} {f : ℕ → ℕ → ℕ}

/-- The program of one process, by its rank. -/
theorem starRun_blocks (lab : ℕ → T) (hw : PartOk w name root f) (p : P) :
    blocks Store.writeBody (starRun lab peers rank root w p : List (Par P T Store O)) =
      match rank p with
      | some r =>
          if r = root then
            [⟨lab 0, [.act (w root).start]⟩,
              ⟨lab 2, ((others root).map peers).map fun q =>
                .recv q (name, false) ((w root).addTo f)⟩,
              ⟨lab 3, []⟩,
              ⟨lab 4, [.act (w root).settle]⟩,
              ⟨lab 5, ((others root).map peers).map fun q =>
                .send q (name, true) (w root).payload⟩]
          else
            [⟨lab 0, [.act (w r).start]⟩,
              ⟨lab 1, []⟩,
              ⟨lab 2, [peers root].map fun q => .send q (name, false) (w r).payload⟩,
              ⟨lab 5, [peers root].map fun q =>
                .recv q (name, true) (Store.writeBody (w r).recv)⟩,
              ⟨lab 6, []⟩]
      | none => [] := by
  unfold starRun
  cases rank p with
  | none => rfl
  | some r =>
      by_cases h : r = root
      · subst h
        simp only [if_true]
        rw [star_root (fun i => lab (starLab r r i)) peers r hw.op (hw.toAgree.nulFree' r)]
        simp [starLab, hw.name_eq, Function.comp_def]
      · simp only [if_neg h]
        rw [star_leaf (fun i => lab (starLab root r i)) peers h (hw.toAgree.nulFree' r)]
        simp [starLab, hw.name_eq, h]

theorem mem_others_map (hm : Members peers rank) (p : P) :
    p ∈ (others root).map peers ↔ ∃ r, rank p = some r ∧ r ≠ root := by
  simp only [List.mem_map, mem_others, hm.rank_eq]
  constructor
  · rintro ⟨r, hr, rfl⟩
    exact ⟨r, rfl, hr⟩
  · rintro ⟨r, rfl, hr⟩
    exact ⟨r, hr, rfl⟩

theorem nodup_others_map (hm : Members peers rank) : ((others root).map peers).Nodup :=
  (nodup_others root).map hm.injective

variable [DecidableEq P]

/-- The tag of what process `s` sends to process `d`. -/
def starTag (lab : ℕ → T) (root : Fin n) (name : Bytes) :
    Option (Fin n) → Option (Fin n) → List (T × Key)
  | some r, some q =>
      if r = root then (if q = root then [] else [(lab 5, (name, true))])
      else (if q = root then [(lab 2, (name, false))] else [])
  | _, _ => []

theorem starRun_sends (lab : ℕ → T) (hm : Members peers rank) (hw : PartOk w name root f)
    (s d : P) :
    sends (blocks Store.writeBody (starRun lab peers rank root w s : List (Par P T Store O))) d =
      starTag lab root name (rank s) (rank d) := by
  rw [starRun_blocks lab hw]
  cases hs : rank s with
  | none => rfl
  | some r =>
      have hroot : d = peers root ↔ rank d = some root := by rw [hm.rank_eq, eq_comm]
      by_cases h : r = root
      · simp only [if_pos h, sends_cons, sends_nil, Block.sends_act, Block.sends_nil,
          Block.sends_recv _ _ _ _ fun _ => (w root).addTo f,
          Block.sends_map _ (nodup_others_map hm), mem_others_map hm]
        cases hd : rank d with
        | none => simp [starTag]
        | some q => by_cases hq : q = root <;> simp [starTag, h, hq]
      · simp only [if_neg h, sends_cons, sends_nil, Block.sends_act, Block.sends_nil,
          Block.sends_recv _ _ _ _ fun _ => Store.writeBody (w r).recv,
          Block.sends_map _ (List.nodup_singleton _), List.mem_singleton, hroot]
        cases hd : rank d with
        | none => simp [starTag]
        | some q => by_cases hq : q = root <;> simp [starTag, h, hq]

theorem starRun_recvs (lab : ℕ → T) (hm : Members peers rank) (hw : PartOk w name root f)
    (d s : P) :
    recvs (blocks Store.writeBody (starRun lab peers rank root w d : List (Par P T Store O))) s =
      starTag lab root name (rank s) (rank d) := by
  rw [starRun_blocks lab hw]
  cases hd : rank d with
  | none => cases rank s <;> rfl
  | some r =>
      have hroot : s = peers root ↔ rank s = some root := by rw [hm.rank_eq, eq_comm]
      by_cases h : r = root
      · simp only [if_pos h, recvs_cons, recvs_nil, Block.recvs_act, Block.recvs_nil,
          Block.recvs_send, mem_others_map hm,
          Block.recvs_map _ (nodup_others_map hm) _ fun _ => (w root).addTo f]
        cases hs : rank s with
        | none => simp [starTag]
        | some q => by_cases hq : q = root <;> simp [starTag, h, hq]
      · simp only [if_neg h, recvs_cons, recvs_nil, Block.recvs_act, Block.recvs_nil,
          Block.recvs_send, List.mem_singleton, hroot,
          Block.recvs_map _ (List.nodup_singleton _) _ fun _ => Store.writeBody (w r).recv]
        cases hs : rank s with
        | none => simp [starTag]
        | some q => by_cases hq : q = root <;> simp [starTag, h, hq]

/-- The star is compatible: what a leaf sends the root receives, and back. -/
theorem star_compat [LinearOrder T] {lab : ℕ → T} (hlab : StrictMono lab)
    (hm : Members peers rank) (hw : PartOk w name root f) :
    Compat fun p => blocks Store.writeBody
      (starRun lab peers rank root w p : List (Par P T Store O)) where
  matched s d := by rw [starRun_sends lab hm hw, starRun_recvs lab hm hw]
  valid p := by
    have hlt : ∀ {i j}, i < j → lab i < lab j := fun h => hlab h
    rw [starRun_blocks lab hw]
    cases rank p with
    | none => exact .nil
    | some r =>
        by_cases h : r = root
        · simp only [if_pos h]
          refine .cons (Block.valid_act _ _) (.cons
            (Block.valid_recvs _ (nodup_others_map hm) _ fun _ => (w root).addTo f)
            (.cons (Block.valid_nil _) (.cons (Block.valid_act _ _) (.cons
              (Block.valid_sends _ (nodup_others_map hm) _ _) .nil ?_) ?_) ?_) ?_) ?_
          all_goals simp [hlt]
        · simp only [if_neg h]
          refine .cons (Block.valid_act _ _) (.cons (Block.valid_nil _) (.cons
            (Block.valid_sends _ (List.nodup_singleton _) _ _) (.cons
              (Block.valid_recvs _ (List.nodup_singleton _) _ fun _ => Store.writeBody (w r).recv)
              (.cons (Block.valid_nil _) .nil ?_) ?_) ?_) ?_) ?_
          all_goals simp [hlt]

/-- The root that has heard from all members knows that they have begun. -/
theorem star_heard [LinearOrder T] {lab : ℕ → T} (hm : Members peers rank)
    (hw : PartOk w name root f) {prog : P → List (Block P T Key Bytes Store O)} {σ : P → Store}
    {c : State P T Key Bytes Store O} (hc : Reach prog σ c) (hmat : Matched c)
    (hv : ∀ p, Valid (prog p))
    (hsub : ∀ p, blocks Store.writeBody (starRun lab peers rank root w p) ⊆ prog p)
    (hroot : ∀ b ∈ (c.proc (peers root)).blocks, lab 2 < b.time) (r : Fin n) :
    ∀ b ∈ (c.proc (peers r)).blocks, lab 2 ≤ b.time := by
  by_cases hne : r = root
  · subst hne
    intro b hb
    exact (hroot b hb).le
  · have hmem : (⟨lab 2, [peers root].map fun q => .send q (name, false) (w r).payload⟩ :
        Block P T Key Bytes Store O) ∈ prog (peers r) := by
      apply hsub
      rw [starRun_blocks lab hw, hm.rank_peers]
      simp [hne]
    have hkey : (name, false) ∈ ([peers root].map fun q =>
        (Job.send q (name, false) (w r).payload : Job P T Key Bytes Store O)).filterMap
          (Job.sendKey (peers root)) := by simp [Job.sendKey]
    exact hmat.reached_of_recv hc (hv _) hmem hkey fun b' hb' => (hroot b' hb').ne'

/-- **A member that is through knows that every member has begun**: the root sends only after it
has heard from all of them. -/
theorem star_synced [LinearOrder T] {lab : ℕ → T} (hlab : StrictMono lab)
    (hm : Members peers rank) (hw : PartOk w name root f)
    {prog : P → List (Block P T Key Bytes Store O)} {σ : P → Store}
    {c : State P T Key Bytes Store O} (hc : Reach prog σ c) (hmat : Matched c)
    (hv : ∀ p, Valid (prog p))
    (hsub : ∀ p, blocks Store.writeBody (starRun lab peers rank root w p) ⊆ prog p)
    {q : Fin n} (hq : Passed c (peers q) (lab 5)) (r : Fin n) :
    ∀ b ∈ (c.proc (peers r)).blocks, lab 2 ≤ b.time := by
  have h₂₅ : lab 2 < lab 5 := hlab (by omega)
  apply star_heard hm hw hc hmat hv hsub
  by_cases hne : q = root
  · subst hne
    intro b hb
    exact h₂₅.trans (hq b hb)
  · have hmem : (⟨lab 5, ((others root).map peers).map fun q =>
        .send q (name, true) (w root).payload⟩ : Block P T Key Bytes Store O) ∈
          prog (peers root) := by
      apply hsub
      rw [starRun_blocks lab hw, hm.rank_peers]
      simp
    have hkey : (name, true) ∈ (((others root).map peers).map fun q =>
        (Job.send q (name, true) (w root).payload : Job P T Key Bytes Store O)).filterMap
          (Job.sendKey (peers q)) := by
      rw [sendKey_map (nodup_others_map hm),
        if_pos ((mem_others_map hm _).mpr ⟨q, hm.rank_peers q, hne⟩)]
      exact List.mem_singleton_self _
    intro b hb
    exact h₂₅.trans_le (hmat.reached_of_recv hc (hv _) hmem hkey
      (fun b' hb' => (hq b' hb').ne') b hb)

/-! ## What one part computes -/

/-- What the messages of one part carry: a leaf's input to the root, the result back. -/
structure PartContract (C : Contract P T Key Bytes O) (lab : ℕ → T) (peers : Fin n → P)
    (root : Fin n) (name : Bytes) (inp : Fin n → Bytes) (res : Bytes) : Prop where
  up : ∀ q, q ≠ root → ∀ d,
    C.msg (peers q) (peers root) ⟨lab 2, (name, false), d⟩ ↔ d = inp q
  down : ∀ q, q ≠ root → ∀ d,
    C.msg (peers root) (peers q) ⟨lab 5, (name, true), d⟩ ↔ d = res

variable {C : Contract P T Key Bytes O} {lab : ℕ → T} {M : Fin n → Memory.Mem} {res : Bytes}

omit [DecidableEq P] in
theorem start_added (u : Workspace) (g : ℕ → ℕ → ℕ) (σ : Store) :
    u.Added g σ.mem [] (u.start σ) := ⟨rfl, by simp [Workspace.start]⟩

omit [DecidableEq P] in
/-- The reduce section of the root: whatever order the inputs arrive in, all are added. -/
theorem star_good_reduce {Q : Store → Prop} {bs : List (Block P T Key Bytes Store O)} {t : T}
    {l : List (Fin n)} {u : Workspace} {k : Key} {m : Memory.Mem} {inp : Fin n → Bytes} {p : P}
    (hu : u.Separate) (hmsg : ∀ q ∈ l, ∀ d, C.msg (peers q) p ⟨t, k, d⟩ → d = inp q)
    (hnext : ∀ l' : List (Fin n), l'.Perm l → ∀ τ, u.Added f m (l'.map inp) τ →
      Good C p Q bs τ)
    {σ : Store} (hσ : u.Added f m [] σ) :
    Good C p Q (⟨t, (l.map peers).map fun q => .recv q k (u.addTo f)⟩ :: bs) σ := by
  -- `rem` is left to be received, `don` has been, in this order
  refine Good.block (fun js τ => ∃ don rem : List (Fin n), (don ++ rem).Perm l ∧
    js = (rem.map peers).map (fun q => .recv q k (u.addTo f)) ∧ u.Added f m (don.map inp) τ)
    ?_ ?_ _ σ ⟨[], l, by simp, rfl, hσ⟩
  · rintro l₁ j l₂ τ ⟨don, rem, hperm, hjs, hadd⟩
    rw [List.map_map] at hjs
    obtain ⟨r₁, r₂', rfl, hr₁, hr₂⟩ := List.map_eq_append_iff.mp hjs.symm
    obtain ⟨q, r₂, rfl, rfl, hr₂'⟩ := List.map_eq_cons_iff.mp hr₂
    intro d hd
    have hq : q ∈ l := hperm.subset (by simp)
    refine ⟨don ++ [q], r₁ ++ r₂, ?_, by rw [← hr₁, ← hr₂']; simp, ?_⟩
    · refine List.Perm.trans ?_ hperm
      simp only [List.append_assoc, List.singleton_append]
      exact List.Perm.append_left don List.perm_middle.symm
    · rw [hmsg q hq d hd, List.map_append]
      exact hadd.addTo hu (inp q)
  · rintro τ ⟨don, rem, hperm, hjs, hadd⟩
    obtain rfl : rem = [] := by simpa using hjs
    rw [List.append_nil] at hperm
    exact hnext don hperm τ hadd

omit [DecidableEq P] in
/-- **One part of an `all_reduce` over the star**: every member that starts it with memory
`M r` ends it with the result in its `recv` buffer, the result being what the root settles
on. -/
theorem star_good (hm : Members peers rank) (hw : PartOk w name root f) (hfit : Fits w)
    (hC : PartContract C lab peers root name (fun q => (w q).input (M q)) res)
    (hres : ∀ l : List (Fin n), l.Perm (others root) →
      (w root).settled f (M root) (l.map fun q => (w q).input (M q)) = res)
    (r : Fin n) {σ : Store} (hσ : σ.mem = M r) :
    Good C (peers r) (fun τ => τ.mem = Memory.write (w r).recv res (M r))
      (blocks Store.writeBody (starRun lab peers rank root w (peers r) :
        List (Par P T Store O))) σ := by
  rw [starRun_blocks lab hw, hm.rank_peers]
  have hstart := fun u : Workspace => start_added u f σ
  rw [hσ] at hstart
  by_cases hr : r = root
  · subst hr
    simp only [if_true]
    refine Good.single (star_good_reduce (hfit.separate r) (fun q hq d => (hC.up q ?_ d).mp)
      (fun l hl τ hτ => ?_) (hstart (w r)))
    · exact mem_others.mp hq
    · obtain ⟨hmem, hcount⟩ := hτ.forward (hfit.separate r)
      have hread := hτ.read_settled (hfit.separate r) hmem hcount
      rw [hres l hl] at hmem hread
      refine Good.empty (Good.single (Good.frame (fun j hj R hR => ?_) (.done hmem)))
      simp only [List.map_map, List.mem_map, Function.comp_apply] at hj
      obtain ⟨q, hq, rfl⟩ := hj
      refine ⟨(hC.down q (mem_others.mp hq) _).mpr ?_, hR⟩
      exact hfit.payload_eq r hread
  · simp only [if_neg hr]
    have heff := (hstart (w r)).read_effective (hfit.separate r)
    have hpay : (w r).payload ((w r).start σ) = (w r).input (M r) := by
      rw [hfit.payload_eq r heff]
      simp [Workspace.value]
    refine Good.single (Good.empty (Good.single ⟨(hC.up r hr _).mpr hpay, ?_⟩))
    refine Good.single fun d hd => Good.empty (.done ?_)
    rw [(hC.down r hr d).mp hd, Store.writeBody, Workspace.start, hσ]

end Star

end StdmlCollective

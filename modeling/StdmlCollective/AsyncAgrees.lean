import StdmlCollective.AsyncProgress
import StdmlCollective.StarOrder

/-!
# The async runner against the threaded one

A chunk that is through has left in its part of the `recv` buffer what it would have left alone,
and the parts are those that the threaded runner goes through one after the other. So the two
runners leave the same behind, whatever the schedules, as long as what the root of a star settles
on does not depend on the order in which the inputs arrive.
-/

namespace StdmlCollective

open BlockNet

variable {n : ℕ} [NeZero n]

/-- `session::all_reduce` on the threaded runner: the parts one after the other. -/
def multiThreadAllReduce (s : Strategy) (c : AllReduceCall n) (rank : Fin n) :
    List (Par (Fin n) Time Store Bytes) :=
  match s with
  | .star => allReduceTask c rank
  | .ring => ringAllReduce c rank

/-- But for the times these are the sections of `run_graph_pair_list_multi_thread`. -/
theorem multiThreadAllReduce_threads (s : Strategy) (c : AllReduceCall n) (rank : Fin n) :
    (multiThreadAllReduce s c rank).map Par.threads =
      (runGraphPairListMultiThread id rank (c.workspace rank) (makeGraphPairList s n)
        allReduceChunkSize).flatten := by
  cases s with
  | star =>
      change (allReduceTask c rank).map Par.threads = _
      rw [allReduceTask, map_stepsFrom]
      simp only [stamp_threads]
      rw [stepsFrom_const, List.map_id']
  | ring => exact ringAllReduce_threads c rank

/-- Any two completed runs, one on each runner, leave the same in all `recv` buffers. -/
def AsyncAgrees (ident : Fin n → PeerId) (s : Strategy) (c : AllReduceCall n) : Prop :=
  ∀ x : CallState c, AsyncReach ident s c x → x.Returned →
    ∀ σ : Fin n → Store, (∀ v, (σ v).mem = c.mem v) →
      ∀ y : Cluster (Fin n) PeerId Time Store Bytes,
        CReach ident Store.writeBody (multiThreadAllReduce s c) σ y → y.Final →
          ∀ v, Memory.read (c.recv v) (c.workspace v).dataSize (x.peer v).rest.store.mem =
            Memory.read (c.recv v) (c.workspace v).dataSize (y v).store.mem

section Agree

variable {c : AllReduceCall n} {ident : Fin n → PeerId} {s : Strategy}

/-- What the messages of part `e` carry. -/
def partContract (s : Strategy) (c : AllReduceCall n) (e : ℕ × ℕ) :
    Contract (Fin n) ℕ Key Bytes Bytes where
  msg u v m :=
    m.data = if m.key.2 then c.partOut s e v
      else match s with
        | .star => c.partInput e u
        | .ring => ringReduced c.elemOp (dtypeSize c.dt) (e.2 - e.1) (c.partInput e)
            (c.ringRoot e) (pos (c.ringRoot e + 1) u)
  out _ _ _ := True

/-- **One part, whoever runs it.** -/
theorem partRun_good (hc : c.Ok) (hs : s = .ring ∨ n ≤ 2 ^ 32 ∨ c.send 0 = c.recv 0) {e : ℕ × ℕ}
    (he : e ∈ c.parts) (v : Fin n) :
    Good (partContract s c e) v
      (fun τ => τ.mem =
        Memory.write ((c.workspace v).slice e.1 e.2).recv (c.partOut s e v) (c.mem v))
      (blocks Store.writeBody (partRun s c e v)) ⟨c.mem v, 0⟩ := by
  cases s with
  | star =>
      have hn := hs.resolve_left (by simp)
      have hC : PartContract (partContract .star c e) id id 0 (partName c.name e.1 e.2)
          (fun q => ((c.workspace q).slice e.1 e.2).input (c.mem q)) (c.partResult e) :=
        ⟨fun q _ d => Iff.rfl, fun q _ d => Iff.rfl⟩
      have hres := fun (l : List (Fin n)) (hl : l.Perm (others 0)) =>
        AllReduceCall.settled_part (e := e) (M := c.mem) hn (fun _ => rfl) hl
      rw [partRun_star]
      exact star_good members_id (hc.part e) (hc.fits he) hC hres v rfl
  | ring =>
      have hC : RingContract (partContract .ring c e) id (c.ringRoot e) (partName c.name e.1 e.2)
          (fun v => ringReduced c.elemOp (dtypeSize c.dt) (e.2 - e.1) (c.partInput e)
            (c.ringRoot e) (pos (c.ringRoot e + 1) v)) (c.ringOut e) :=
        ⟨fun u v _ d => by simp [partContract],
          fun u v _ d => by simp [partContract, AllReduceCall.partOut]⟩
      exact ring_good (hc.ringPart e) (hc.fits he) hC
        (AllReduceCall.ringValues (M := c.mem) fun _ => rfl) v (σ := ⟨c.mem v, 0⟩) rfl

omit [NeZero n] in
/-- A buffer is what its parts are. -/
theorem Covers.read_eq {a b k : ℕ} {l : List (ℕ × ℕ)} (h : Covers a b l) (r : Addr) (m : Memory.Mem)
    {g : ℕ × ℕ → Bytes}
    (hg : ∀ e ∈ l, Memory.read (r + e.1 * k) ((e.2 - e.1) * k) m = g e) :
    Memory.read (r + a * k) ((b - a) * k) m = l.flatMap g := by
  induction h with
  | nil => simp [Memory.read]
  | @cons a b' b l hab hcov ih =>
      have hle := hcov.le
      have hsplit : (b - a) * k = (b' - a) * k + (b - b') * k := by
        rw [← Nat.add_mul]
        congr 1
        omega
      have hoff : r + a * k + (b' - a) * k = r + b' * k := by
        rw [Nat.add_assoc, ← Nat.add_mul, Nat.add_sub_cancel' hab]
      rw [hsplit, Memory.read_add, hoff, ih fun e he => hg e (List.mem_cons_of_mem _ he),
        hg _ List.mem_cons_self, List.flatMap_cons]

/-- **What the async runner leaves behind.** -/
theorem async_final (hid : Function.Injective ident) (hc : c.Ok)
    (hs : s = .ring ∨ n ≤ 2 ^ 32 ∨ c.send 0 = c.recv 0) {x : CallState c}
    (hx : AsyncReach ident s c x) (hret : x.Returned) (v : Fin n) :
    Memory.read (c.recv v) (c.workspace v).dataSize (x.peer v).rest.store.mem =
      c.parts.flatMap fun e => c.partOut s e v := by
  have hinv := hx.inv hid hc.runs
  have hpart : ∀ e ∈ c.parts, Memory.read (c.recv v + e.1 * dtypeSize c.dt)
      ((e.2 - e.1) * dtypeSize c.dt) (x.peer v).rest.store.mem = c.partOut s e v := by
    intro e he
    obtain ⟨j, rfl⟩ := List.get_of_mem he
    have hcode : (x.peer v).code j = [] := by
      obtain ⟨-, hpend, hqueue, hrun⟩ := hret v
      have htodo := (hinv.peer v).todo j
      rw [hpend, hqueue, hrun] at htodo
      exact htodo.resolve_left List.not_mem_nil
    obtain ⟨τ, hτ, hmem⟩ := hinv.chunk_post (hc.runs.asyncPlan hid s)
      (fun v => partRun_good hc hs (c.parts.get_mem j) v) hcode
    have hread := Memory.read_write (c.recv v + (c.parts.get j).1 * dtypeSize c.dt)
      (c.partOut s (c.parts.get j) v) (c.mem v)
    rw [AllReduceCall.length_partOut] at hread
    rw [← hread]
    refine Memory.read_congr fun i hi => ?_
    have hin : (c.chunk j v).reads (c.recv v + (c.parts.get j).1 * dtypeSize c.dt + i) :=
      .inr ⟨i, hi, rfl⟩
    rw [← hmem _ hin, hτ]
    rfl
  have hread := (c.parts_covers hc.count_pos).read_eq (k := dtypeSize c.dt) (c.recv v)
    (x.peer v).rest.store.mem hpart
  rwa [Nat.zero_mul, Nat.add_zero, Nat.sub_zero] at hread

/-- **What the threaded runner leaves behind.** -/
theorem multiThread_final (hid : Function.Injective ident) (hc : c.Ok)
    (hs : s = .ring ∨ n ≤ 2 ^ 32 ∨ c.send 0 = c.recv 0) {σ : Fin n → Store}
    (hσ : ∀ v, (σ v).mem = c.mem v) {y : Cluster (Fin n) PeerId Time Store Bytes}
    (hy : CReach ident Store.writeBody (multiThreadAllReduce s c) σ y) (hfinal : y.Final)
    (v : Fin n) :
    Memory.read (c.recv v) (c.workspace v).dataSize (y v).store.mem =
      c.parts.flatMap fun e => c.partOut s e v := by
  cases s with
  | star =>
      have hn := hs.resolve_left (by simp)
      have hmem := allReduceTask_final hid hc (hc.settles hn) hσ hy v (hfinal v)
      have hread := Memory.read_write (c.recv v) c.result (c.mem v)
      rw [(hc.settles hn).length] at hread
      rw [hmem]
      exact hread.trans (AllReduceCall.result_eq_flatMap hc)
  | ring => exact ringAllReduce_final hid hc hσ hy hfinal v

/-- **The async runner computes what the threaded runner computes.** -/
theorem asyncAgrees_of_settled (hid : Function.Injective ident) (hc : c.Ok)
    (hs : s = .ring ∨ n ≤ 2 ^ 32 ∨ c.send 0 = c.recv 0) : AsyncAgrees ident s c := by
  intro x hx hret σ hσ y hy hfinal v
  rw [async_final hid hc hs hx hret v, multiThread_final hid hc hs hσ hy hfinal v]

/-- Two peers sum one byte each over the star. -/
theorem asyncAgrees_byte :
    (Function.Injective (genPeers 2) ∧ (sumOnes 2).Ok ∧
      (Strategy.star = .ring ∨ 2 ≤ 2 ^ 32 ∨ (sumOnes 2).send 0 = (sumOnes 2).recv 0)) ∧
      AsyncAgrees (genPeers 2) .star (sumOnes 2) :=
  ⟨⟨by decide, sumOnes_ok, .inr (.inl (by decide))⟩,
    asyncAgrees_of_settled (by decide) sumOnes_ok (.inr (.inl (by decide)))⟩

end Agree

/-! ## Where the counter wraps -/

section Wrap

/-- Peer 1 contributes the byte 1 to a sum and all others the byte 0, out of place. -/
def oneByte (n : ℕ) : AllReduceCall n where
  count := 1
  dt := .u8
  op := .sum
  name := []
  send _ := 0
  recv _ := 8
  mem v a := if a = 0 ∧ v.val = 1 then 1 else 0

omit [NeZero n] in
theorem oneByte_ok : (oneByte n).Ok where
  count_pos := Nat.le_refl 1
  isInt := rfl
  nulFree := by simp [NulFree, oneByte]
  separate _ := .inr (.inl (Nat.le_of_ble_eq_true rfl))

omit [NeZero n] in
theorem oneByte_parts : (oneByte n).parts = [(0, 1)] := by
  simp [AllReduceCall.parts, oneByte, dtypeSize, ceilDiv, allReduceChunkSize, evenPartition,
    evenPartitionFrom]

theorem multiThread_oneByte :
    multiThreadAllReduce .star (oneByte n) =
      starRun (Time.at 0) id some 0 fun v => ((oneByte n).workspace v).slice 0 1 := by
  funext v
  change allReduceTask (oneByte n) v = _
  rw [allReduceTask, runGraphPairList_eq, oneByte_parts]
  simp only [List.map_cons, List.map_nil, stepsFrom, List.append_nil]
  rfl

/-- The part of peer `v`. -/
abbrev oneByteWork (n : ℕ) (v : Fin n) : Workspace := ((oneByte n).workspace v).slice 0 1

omit [NeZero n] in
/-- What a leaf sends is its input. -/
theorem leafData_eq {w : Fin n → Workspace} (hfit : Fits w) (σ : Fin n → Store) (q : Fin n) :
    leafData w σ q = (w q).input (σ q).mem := by
  refine hfit.payload_eq q ?_
  rw [Workspace.Added.read_effective (f := fun _ _ => 0) (hfit.separate q)
    (start_added (w q) _ (σ q))]
  simp [Workspace.value]

omit [NeZero n] in
theorem oneByte_input (v : Fin n) :
    (oneByteWork n v).input ((oneByte n).mem v) = [if v.val = 1 then 1 else 0] := by
  simp [Workspace.input, Memory.read, Workspace.slice, oneByte, AllReduceCall.workspace,
    Workspace.dataSize, dtypeSize]

/-- **The input that arrives last is the only one that is left** when the counter has wrapped. -/
theorem settled_oneByte (hn : n = 2 ^ 32 + 2) {q : Fin n} {l : List (Fin n)}
    (hl : (l ++ [q]).Perm (others 0)) :
    (oneByteWork n 0).settled (oneByte n).elemOp ((oneByte n).mem 0)
      ((l ++ [q]).map fun v => (oneByteWork n v).input ((oneByte n).mem v)) =
        [if q.val = 1 then 1 else 0] := by
  have hlen := hl.length_eq
  rw [length_others, List.length_append, List.length_singleton] at hlen
  have hout : ¬(oneByteWork n 0).inplace = true := by
    simp [Workspace.inplace, Workspace.slice, AllReduceCall.workspace, oneByte]
  rw [Workspace.settled, if_neg, List.map_append, List.map_singleton,
    Workspace.value_concat, if_pos]
  · have hroot : ¬(0 : Fin n).val = 1 := by simp
    rw [oneByte_input, oneByte_input, if_neg hroot]
    change zipElems (intElemOp .u8 .sum) 1 1 _ [0] = _
    split <;> decide
  · refine ⟨?_, hout⟩
    rw [List.length_map]
    omega
  · rw [List.length_map, List.length_append, List.length_singleton]
    omega

/-- Any leaf can be the last one to be heard. -/
theorem exists_last {ident : Fin n → PeerId} (hid : Function.Injective ident)
    (hn : n = 2 ^ 32 + 2) {q : Fin n} (hq : q ≠ 0) :
    ∃ y : Cluster (Fin n) PeerId Time Store Bytes,
      CReach ident Store.writeBody (multiThreadAllReduce .star (oneByte n))
        (fun v => ⟨(oneByte n).mem v, 0⟩) y ∧ y.Final ∧
      Memory.read ((oneByte n).recv 0) ((oneByte n).workspace 0).dataSize (y 0).store.mem =
        [if q.val = 1 then 1 else 0] := by
  have hc := oneByte_ok (n := n)
  have hfit : Fits (oneByteWork n) := hc.fits (e := (0, 1)) (by rw [oneByte_parts]; simp)
  have hw : SameWork (oneByteWork n) (partName [] 0 1) (oneByte n).elemOp :=
    ⟨fun _ => rfl, (hc.part (0, 1)).nulFree, fun v => elemOp_of_isInt hc.isInt _⟩
  have hl : ((others 0).erase q ++ [q]).Perm (others 0) :=
    (List.perm_append_singleton q _).trans (List.perm_cons_erase (mem_others.mpr hq)).symm
  obtain ⟨y, hy, hfinal, hmem⟩ := exists_run_order (O := Bytes)
    (σ := fun v => ⟨(oneByte n).mem v, 0⟩) hid (Time.at_strictMono 0) hw (hfit.separate 0) hl
  refine ⟨y, by rw [multiThread_oneByte]; exact hy, hfinal, ?_⟩
  rw [funext (leafData_eq hfit _), settled_oneByte hn hl] at hmem
  rw [hmem]
  exact Memory.read_write 8 [if q.val = 1 then 1 else 0] _

/-- **Where the counter wraps the two runners need not agree**: the root settles on what the last
input makes of its own, and any input can be the last one. -/
theorem not_asyncAgrees_of_wrap {ident : Fin n → PeerId} (hid : Function.Injective ident)
    (hn : n = 2 ^ 32 + 2) : ¬AsyncAgrees ident .star (oneByte n) := by
  intro hagree
  have hroom : (oneByte n).Roomy .star := by
    rw [AllReduceCall.Roomy, oneByte_parts]
    decide
  obtain ⟨x, hx, hret⟩ := (asyncLive_of_roomy hid oneByte_ok.runs hroom).exists_returned hid
    oneByte_ok.runs
  have hread : ∀ q : Fin n, q ≠ 0 → Memory.read ((oneByte n).recv 0)
      ((oneByte n).workspace 0).dataSize (x.peer 0).rest.store.mem =
        [if q.val = 1 then 1 else 0] := by
    intro q hq
    obtain ⟨y, hy, hfinal, hlast⟩ := exists_last hid hn hq
    exact (hagree x hx hret _ (fun _ => rfl) y hy hfinal 0).trans hlast
  have hone := hread ⟨1, by omega⟩ fun h => absurd (congrArg Fin.val h) (by simp)
  have htwo := hread ⟨2, by omega⟩ fun h => absurd (congrArg Fin.val h) (by simp)
  rw [hone] at htwo
  simp at htwo

/-- Two peers more than the counter of the root can tell apart. -/
def crowd (i : Fin (2 ^ 32 + 2)) : PeerId := ⟨UInt32.ofNat i, UInt16.ofNat (i / 2 ^ 32)⟩

theorem crowd_injective : Function.Injective crowd := peerId_injective (by decide)

/-- Two runs of `2 ^ 32 + 2` peers in which different leaves are heard last. -/
theorem not_asyncAgrees_crowd :
    (Function.Injective crowd ∧ (oneByte (2 ^ 32 + 2)).Ok) ∧
      ¬AsyncAgrees crowd .star (oneByte (2 ^ 32 + 2)) :=
  ⟨⟨crowd_injective, oneByte_ok⟩, not_asyncAgrees_of_wrap crowd_injective rfl⟩

end Wrap

end StdmlCollective

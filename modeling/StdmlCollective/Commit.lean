import StdmlCollective.ClientSend
import StdmlCollective.ClusterJson
import StdmlCollective.Lib.Outbox
import StdmlCollective.ElasticRun

/-!
# The commits of an elastic program

When a `resize` changes the cluster, every worker of the session calls `commit_cluster_config`: it
dials every runner of the new config and sends it the new stage as JSON, to all runners at the same
time. A worker that is kept goes on when all of them have been told. One that is removed is waited
for by nobody, so that its messages can be late by any number of versions.
-/

namespace StdmlCollective

open Json Spmd

/-- `conn_control`. -/
def connControl : UInt16 := 1

/-- `"Version"`. -/
def versionKey : Bytes := [86, 101, 114, 115, 105, 111, 110]

/-- `"Cluster"`. -/
def clusterKey : Bytes := [67, 108, 117, 115, 116, 101, 114]

/-- `"update"`. -/
def updateName : Bytes := [117, 112, 100, 97, 116, 101]

/-- `struct stage`. -/
structure ClusterStage where
  version : Int32
  cluster : ClusterConfig

/-- `stage::json`. -/
def ClusterStage.json (s : ClusterStage) : Bytes :=
  [123] ++ pairToJson (versionKey, s.version) ++ [44] ++ strToJson clusterKey ++ [58] ++
    s.cluster.json ++ [125]

/-- A message on a connection of its own: whom it is for, as what and as whom the connection is
dialled, and what is sent. -/
structure Notice where
  target : PeerId
  type : UInt16
  self : PeerId
  packet : Packet

/-- All that is written to the connection. -/
def Notice.wire (n : Notice) : Bytes := connHeader n.type n.self ++ n.packet.encode

/-- `notify` in `commit_cluster_config`. The peer is not filled in. -/
def ClusterStage.notify (s : ClusterStage) (id : PeerId) : Notice :=
  ⟨id, connControl, ⟨0, 0⟩, ⟨updateName, 0, s.json⟩⟩

/-- `commit_cluster_config`: what is sent, by as many threads as there are runners. -/
def commitClusterConfig (newCluster : ClusterConfig) (newVersion : UInt64) : List Notice :=
  let s : ClusterStage := ⟨newVersion.toUInt32.toInt32, newCluster⟩
  newCluster.runners.map s.notify

/-- What the call of `commit_config` sends; the `int` becomes a `size_t`. -/
def Resized.commit (r : Resized) : List Notice :=
  r.committed.elim [] fun p => commitClusterConfig p.1 p.2.toInt64.toUInt64

/-- A runner that reads the connection with the functions of the library: as what and by whom it
has been dialled, and the message, when there is one. -/
def readNotice (net : Transport) : Reading (UInt16 × PeerId × Option Delivery) := do
  let (type, src) ← readConnHeader net
  let d ← handleNext net
  return (type, src, d)

/-- The peers of an array. -/
def asPeers : Value → Option (List (ℕ × ℕ))
  | .arr vs => vs.mapM asPeer
  | _ => none

/-- The version, the runners and the workers of a stage. -/
def asStage : Value → Option (ℤ × List (ℕ × ℕ) × List (ℕ × ℕ))
  | .obj [(k, .int v), (k', .obj [(r, rs), (w, ws)])] =>
      if k = versionKey ∧ k' = clusterKey ∧ r = runnersKey ∧ w = workersKey then do
        return (v, ← asPeers rs, ← asPeers ws)
      else none
  | _ => none

/-- A resize that has changed the cluster: the session it was made in, and the new config. -/
structure Change where
  sess : SessionInfo
  config : ClusterConfig

/-- What is committed then. -/
def Change.stage (ch : Change) : ClusterStage := ⟨Int32.ofNat (ch.sess.version + 1), ch.config⟩

/-- What every worker has to send, and who is kept. -/
def Change.round (ch : Change) : Outbox.Round PeerId Notice where
  due id := if id ∈ ch.sess.cluster.workers then ch.config.runners.map ch.stage.notify else []
  stays id := id ∈ ch.config.workers

/-- The changes so far, the session the workers are in when there is one, and the messages. -/
structure CommitRun where
  changes : List Change
  sess : Option SessionInfo
  box : Outbox PeerId Notice

namespace CommitRun

/-- The first session. -/
def start (first : SessionInfo) : CommitRun := ⟨[], some first, .empty⟩

/-- All workers of the session call `resize` together, or a worker sends one of its messages. -/
inductive Step : CommitRun → CommitRun → Prop where
  /-- The resize changes the cluster. Who has been kept is in the session after it has committed
  the change before. Who is kept now goes over to the session `next`. -/
  | resize {w : CommitRun} {sess : SessionInfo} {get : Fin sess.size → ℕ → Option ServedConfig}
      {f : ℕ} {tr : List (Fin sess.size → ReduceRequest)} {out : Fin sess.size → Resized}
      {due : PeerId → List Notice} {next : Option SessionInfo} :
      w.sess = some sess → w.box.Ready →
      Runs (allReduceService sess.size)
        (fun i => StdmlCollective.resize (sess.cluster.workers.get i) sess (get i) f) tr
        (fun i => some (out i)) →
      (out sess.someWorker).result.changed = true →
      (∀ i, due (sess.cluster.workers.get i) = (out i).commit) →
      (∀ id, id ∉ sess.cluster.workers → due id = []) →
      (∀ new ∈ next, ∃ i, (out i).result.detached = false ∧
        (out i).session = (new.version, new.cluster)) →
      Step w ⟨w.changes ++ [⟨sess, (out sess.someWorker).config⟩], next,
        w.box.post ⟨due, fun id => id ∈ (out sess.someWorker).config.workers⟩⟩
  | send {w : CommitRun} {k : ℕ} {id : PeerId} {n : Notice} {l l' : List Notice} :
      w.box.todo k id = l ++ n :: l' →
      Step w { w with box := w.box.send k id n (l ++ l') }

/-- What can have happened. -/
abbrev Reach (first : SessionInfo) : CommitRun → Prop := Relation.ReflTransGen Step (start first)

end CommitRun

/-! ## The text -/

/-- The value of the text. -/
def ClusterStage.jsonValue (s : ClusterStage) : Value :=
  .obj [(versionKey, .int s.version.toInt), (clusterKey, s.cluster.jsonValue)]

theorem ClusterStage.reads_json (s : ClusterStage) : Reads s.json s.jsonValue := by
  have hversion : Plain versionKey := by decide
  have hcluster : Plain clusterKey := by decide
  have hmembers : List.Forall₂ ReadsMember
      [(versionKey, intToJson s.version), (clusterKey, s.cluster.json)]
      [(versionKey, .int s.version.toInt), (clusterKey, s.cluster.jsonValue)] :=
    .cons ⟨hversion, rfl, reads_intToJson _⟩ (.cons ⟨hcluster, rfl, s.cluster.reads_json⟩ .nil)
  have hread := reads_obj hmembers
  unfold jsonValue json
  simpa [commas, member, pairToJson, strToJson] using hread

/-- Different stages never have the same text. -/
theorem ClusterStage.json_injective : Function.Injective ClusterStage.json := by
  intro s s' h
  have hread := s.reads_json
  rw [h] at hread
  have hval := hread.unique s'.reads_json
  simp only [jsonValue, Value.obj.injEq, List.cons.injEq, Prod.mk.injEq, Value.int.injEq,
    true_and, and_true] at hval
  have hversion := Int32.toInt_inj.mp hval.1
  have hcluster := ClusterConfig.jsonValue_injective hval.2
  cases s
  cases s'
  simp_all

theorem asPeers_iff (ids : List PeerId) :
    asPeers (.arr (ids.map peerValue)) = some (ids.map fun id => (id.ipv4.toNat, id.port.toNat)) ↔
      ∀ id ∈ ids, id.ipv4.toNat < 2 ^ 31 := by
  induction ids with
  | nil => simp [asPeers]
  | cons id ids ih =>
      rw [List.forall_mem_cons, ← ih, ← asPeer_peerValue_iff]
      simp [asPeers, Option.bind_eq_some_iff]

/-- The stage is read from its text exactly when every `ipv4` is below `2 ^ 31`. -/
theorem ClusterStage.asStage_iff (s : ClusterStage) :
    asStage s.jsonValue = some (s.version.toInt,
        s.cluster.runners.map (fun id => (id.ipv4.toNat, id.port.toNat)),
        s.cluster.workers.map fun id => (id.ipv4.toNat, id.port.toNat)) ↔
      ∀ id, id ∈ s.cluster.runners ∨ id ∈ s.cluster.workers → id.ipv4.toNat < 2 ^ 31 := by
  have hpeers : (∀ id, id ∈ s.cluster.runners ∨ id ∈ s.cluster.workers → id.ipv4.toNat < 2 ^ 31) ↔
      (∀ id ∈ s.cluster.runners, id.ipv4.toNat < 2 ^ 31) ∧
        ∀ id ∈ s.cluster.workers, id.ipv4.toNat < 2 ^ 31 := by
    simp only [or_imp, forall_and]
  rw [hpeers, ← asPeers_iff, ← asPeers_iff]
  simp [asStage, jsonValue, ClusterConfig.jsonValue, Option.bind_eq_some_iff]

/-! ## A connection to a runner -/

section Connection

variable {net : Transport} {limit : ℕ} {clean : Prop}

theorem ClusterStage.fits (s : ClusterStage) (id : PeerId) (hlow : 14 < limit)
    (hlen : s.json.length < limit) : (s.notify id).packet.Fits limit :=
  ⟨show NulFree updateName by decide, hlow, hlen⟩

theorem readNotice_append (hnet : net.Exact limit clean) (hl : limit ≤ 2 ^ 32) (hlow : 8 < limit)
    {n : Notice} (hn : n.packet.Fits limit) (frag : ℕ → ℕ) (rest : Bytes) :
    ∃ s, readNotice net ⟨n.wire ++ rest, frag, 0⟩ =
        .ok ((n.type, n.self, some n.packet.delivery), s) ∧ s.bytes = rest := by
  obtain ⟨s₁, hread₁, hs₁⟩ := readConnHeader_append (s := ⟨n.wire ++ rest, frag, 0⟩) hnet hlow
    (List.append_assoc ..)
  obtain ⟨s₂, hread₂, hs₂⟩ := hn.handleNext_append hl hnet hs₁
  refine ⟨s₂, ?_, hs₂⟩
  simp [readNotice, bind, StateT.bind, Except.bind, hread₁, hread₂, Reading.pure_run]

/-- Nothing is made of a message that is not all there. -/
theorem readNotice_cut (hnet : net.Exact limit clean) (hl : limit ≤ 2 ^ 32) (hlow : 8 < limit)
    {n : Notice} (hn : n.packet.Fits limit) {frag : ℕ → ℕ} {bs : Bytes} (hbs : bs <+: n.wire)
    (hne : bs ≠ n.wire) {r : UInt16 × PeerId × Option Delivery} {s : Socket}
    (hr : readNotice net ⟨bs, frag, 0⟩ = .ok (r, s)) : r.2.2 = none := by
  by_cases hhead : bs.length < 8
  · obtain ⟨f, hread⟩ := readConnHeader_cut (s := ⟨bs, frag, 0⟩) hnet hlow hhead
    simp [readNotice, bind, StateT.bind, Except.bind, hread] at hr
  · have hlen := length_connHeader n.type n.self
    obtain ⟨cut, rfl⟩ := List.prefix_of_prefix_length_le (List.prefix_append _ _) hbs
      (by rw [hlen]; omega)
    rw [Notice.wire, List.prefix_append_right_inj] at hbs
    obtain ⟨s₁, hread₁, hs₁⟩ :=
      readConnHeader_append (s := ⟨connHeader n.type n.self ++ cut, frag, 0⟩) hnet hlow rfl
    have hlt : s₁.bytes.length < n.packet.encode.length := by
      rw [hs₁]
      refine lt_of_le_of_ne hbs.length_le fun heq => hne ?_
      rw [hbs.eq_of_length heq, Notice.wire]
    rcases hn.handleNext_cut hl hnet (hs₁ ▸ hbs) hlt with ⟨s', hread₂⟩ | ⟨f, hread₂⟩
    · simp [readNotice, bind, StateT.bind, Except.bind, hread₁, hread₂, Reading.pure_run] at hr
      rw [← hr.1]
    · simp [readNotice, bind, StateT.bind, Except.bind, hread₁, hread₂] at hr

/-- **An update arrives whole or not at all**, and says what is committed when no `ipv4` is
printed as a negative number. -/
theorem update_exact (hnet : net.Exact limit clean) (hl : limit ≤ 2 ^ 32) (hlow : 14 < limit)
    (s : ClusterStage) (hlen : s.json.length < limit) (id : PeerId) :
    (∀ frag rest, ∃ s', readNotice net ⟨(s.notify id).wire ++ rest, frag, 0⟩ =
      .ok ((connControl, ⟨0, 0⟩, some (s.notify id).packet.delivery), s') ∧ s'.bytes = rest) ∧
    (∀ frag bs r s', bs <+: (s.notify id).wire → bs ≠ (s.notify id).wire →
      readNotice net ⟨bs, frag, 0⟩ = .ok (r, s') → r.2.2 = none) ∧
    ((parse (s.notify id).packet.delivery.data).bind asStage = some (s.version.toInt,
        s.cluster.runners.map (fun id => (id.ipv4.toNat, id.port.toNat)),
        s.cluster.workers.map fun id => (id.ipv4.toNat, id.port.toNat)) ↔
      ∀ id, id ∈ s.cluster.runners ∨ id ∈ s.cluster.workers → id.ipv4.toNat < 2 ^ 31) := by
  have hfits := s.fits id hlow hlen
  refine ⟨fun frag rest => ?_, fun frag bs r s' hbs hne hr => ?_, ?_⟩
  · exact readNotice_append hnet hl (by omega) hfits frag rest
  · exact readNotice_cut hnet hl (by omega) hfits hbs hne hr
  · have hparse : parse (s.notify id).packet.delivery.data = some s.jsonValue := s.reads_json.parse
    rw [hparse, Option.bind_some]
    exact s.asStage_iff

/-- Version 1, with a runner and a worker on one host. -/
def smallStage : ClusterStage := ⟨1, ⟨[⟨2130706433, 38080⟩], [⟨2130706433, 10000⟩]⟩⟩

theorem update_exact_small :
    (parse (smallStage.notify ⟨2130706433, 38080⟩).packet.delivery.data).bind asStage =
      some (1, [(2130706433, 38080)], [(2130706433, 10000)]) := by
  have hlen : smallStage.json.length < 2 ^ 32 := by decide +kernel
  have hexact := update_exact (Cxx20.exact (2 ^ 32)) le_rfl (by norm_num) smallStage hlen
    ⟨2130706433, 38080⟩
  exact hexact.2.2.mpr (by simp [smallStage])

end Connection

/-! ## What is committed -/

/-- From `int` to `size_t` and back. -/
theorem toUInt32_toInt64 (x : Int32) : x.toInt64.toUInt64.toUInt32.toInt32 = x := by
  rw [← Int32.toBitVec_inj]
  ext i hi
  simp [BitVec.getLsbD_signExtend, hi]
  omega

theorem int32_ofNat_inj {a b : ℕ} : Int32.ofNat a = Int32.ofNat b ↔ a % 2 ^ 32 = b % 2 ^ 32 := by
  rw [← Int32.toBitVec_inj, ← BitVec.toNat_inj]
  simp [Int32.toBitVec_ofNat']

/-- Every worker commits the same stage. -/
theorem SessionInfo.commit_goOver {sess : SessionInfo} {c : ClusterConfig} (id : PeerId) (k : ℕ)
    (h : (sess.goOver id k c).result.changed = true) :
    (sess.goOver id k c).commit = c.runners.map (Change.stage ⟨sess, c⟩).notify := by
  have hne : sess.cluster ≠ c := by
    intro heq
    simp [goOver, heq] at h
  have hver : Int32.ofNat ((sess.version + 1) % 2 ^ 64) = Int32.ofNat (sess.version + 1) :=
    int32_ofNat_inj.mpr (by omega)
  rw [goOver, if_neg hne, Resized.commit, Option.elim_some, commitClusterConfig, toUInt32_toInt64,
    hver]
  rfl

/-- The session of a worker that is kept. -/
theorem SessionInfo.session_goOver {sess : SessionInfo} {c : ClusterConfig} {id : PeerId} {k : ℕ}
    (h : (sess.goOver id k c).result.changed = true)
    (hkept : (sess.goOver id k c).result.detached = false) :
    (sess.goOver id k c).session = ((sess.version + 1) % 2 ^ 64, c) := by
  have hne : sess.cluster ≠ c := by
    intro heq
    simp [goOver, heq] at h
  simp only [goOver, if_neg hne] at hkept ⊢
  rw [if_neg (by simpa using hkept)]

theorem SessionInfo.config_goOver {sess : SessionInfo} {c : ClusterConfig} {id : PeerId} {k : ℕ} :
    (sess.goOver id k c).config = c := by
  unfold goOver
  split <;> rfl

/-- The workers come out of `resize` with the same config. -/
theorem goOver_of_runs {sess : SessionInfo} {get : Fin sess.size → ℕ → Option ServedConfig} {f : ℕ}
    {tr : List (Fin sess.size → ReduceRequest)} {out : Fin sess.size → Resized}
    (h : Runs (allReduceService sess.size)
      (fun i => resize (sess.cluster.workers.get i) sess (get i) f) tr (fun i => some (out i))) :
    ∃ k c, ∀ i, out i = sess.goOver (sess.cluster.workers.get i) k c := by
  have hne : Nonempty (Fin sess.size) := ⟨sess.someWorker⟩
  obtain ⟨tr', hruns⟩ := resize_runs get f
  have hout := (h.unique hruns).2
  cases hfound : firstUnanimous sess get f 0 with
  | none =>
      have hsome := congrFun hout sess.someWorker
      simp [hfound] at hsome
  | some p =>
      refine ⟨p.1, p.2, fun i => ?_⟩
      have hi := congrFun hout i
      simpa [hfound] using hi

/-- What the workers send after a `resize` is the round of the change. -/
theorem round_of_runs {sess : SessionInfo} {get : Fin sess.size → ℕ → Option ServedConfig} {f : ℕ}
    {tr : List (Fin sess.size → ReduceRequest)} {out : Fin sess.size → Resized}
    {due : PeerId → List Notice}
    (h : Runs (allReduceService sess.size)
      (fun i => resize (sess.cluster.workers.get i) sess (get i) f) tr (fun i => some (out i)))
    (hchanged : (out sess.someWorker).result.changed = true)
    (hdue : ∀ i, due (sess.cluster.workers.get i) = (out i).commit)
    (hother : ∀ id, id ∉ sess.cluster.workers → due id = []) :
    (⟨due, fun id => id ∈ (out sess.someWorker).config.workers⟩ : Outbox.Round PeerId Notice) =
      Change.round ⟨sess, (out sess.someWorker).config⟩ := by
  obtain ⟨k, c, hout⟩ := goOver_of_runs h
  have hconfig : (out sess.someWorker).config = c := by rw [hout, SessionInfo.config_goOver]
  have hall : ∀ i, (out i).result.changed = true := by
    intro i
    rw [hout, SessionInfo.changed_goOver] at hchanged ⊢
    exact hchanged
  rw [hconfig, Change.round, Outbox.Round.mk.injEq]
  refine ⟨funext fun id => ?_, rfl⟩
  split
  · next hid =>
    obtain ⟨i, rfl⟩ := List.get_of_mem hid
    have hi := hall i
    rw [hout] at hi
    rw [hdue, hout, SessionInfo.commit_goOver _ _ hi]
  · next hid => exact hother id hid

/-! ## Runs -/

namespace CommitRun

variable {first : SessionInfo} {w w' : CommitRun}

/-- What holds at every moment: the rounds of messages are those of the changes, and every session
has the version and the cluster that the one before went over to. -/
structure Inv (first : SessionInfo) (w : CommitRun) : Prop where
  box : w.box.Reach
  rounds : w.box.rounds = w.changes.map Change.round
  version : ∀ k ch, w.changes[k]? = some ch → ch.sess.version = (first.version + k) % 2 ^ 64
  chain : ∀ k ch ch', w.changes[k]? = some ch → w.changes[k + 1]? = some ch' →
    ch'.sess.cluster = ch.config
  sess : ∀ s, w.sess = some s → s.version = (first.version + w.changes.length) % 2 ^ 64 ∧
    ∀ k ch, w.changes.length = k + 1 → w.changes[k]? = some ch → s.cluster = ch.config

theorem inv_start (first : SessionInfo) : Inv first (start first) where
  box := .refl
  rounds := rfl
  version k ch h := by simp [start] at h
  chain k ch ch' h := by simp [start] at h
  sess := by
    rintro s ⟨⟩
    exact ⟨(Nat.mod_eq_of_lt first.version_lt).symm, by simp [start]⟩

theorem getElem?_concat_eq_some {α : Type} {l : List α} {a x : α} {k : ℕ} :
    (l ++ [a])[k]? = some x ↔ l[k]? = some x ∨ k = l.length ∧ x = a := by
  rcases Nat.lt_trichotomy k l.length with hlt | rfl | hgt
  · simp [List.getElem?_append_left hlt, hlt.ne]
  · simp [eq_comm]
  · have hle : (l ++ [a]).length ≤ k := by
      rw [List.length_append, List.length_singleton]
      omega
    simp [List.getElem?_eq_none hle, List.getElem?_eq_none hgt.le, hgt.ne']

theorem Inv.step (h : Inv first w) (hstep : Step w w') : Inv first w' := by
  cases hstep with
  | @resize sess get f tr out due next hsess hready hruns hchanged hdue hother hnext =>
      have hround := round_of_runs hruns hchanged hdue hother
      obtain ⟨hversion, hcluster⟩ := h.sess sess hsess
      refine ⟨h.box.tail (.post hready), ?_, ?_, ?_, ?_⟩
      · simp [Outbox.post, h.rounds, hround]
      · intro k ch hk
        rcases getElem?_concat_eq_some.mp hk with hk | ⟨rfl, rfl⟩
        · exact h.version k ch hk
        · exact hversion
      · intro k ch ch' hk hk'
        rcases getElem?_concat_eq_some.mp hk' with hk' | ⟨hlen, rfl⟩
        · have hlt := (List.getElem?_eq_some_iff.mp hk').1
          rw [List.getElem?_append_left (by omega)] at hk
          exact h.chain k ch ch' hk hk'
        · rw [List.getElem?_append_left (by omega)] at hk
          exact hcluster k ch hlen.symm hk
      · intro s hs
        obtain ⟨c, k', hout⟩ := goOver_of_runs hruns
        obtain ⟨i, hkept, hsession⟩ := hnext s hs
        have hi : (out i).result.changed = true := by
          rw [hout, SessionInfo.changed_goOver] at hchanged ⊢
          exact hchanged
        rw [hout] at hi hkept hsession
        rw [SessionInfo.session_goOver hi hkept, Prod.mk.injEq] at hsession
        constructor
        · rw [← hsession.1, hversion, List.length_append, List.length_singleton]
          omega
        · intro k ch hlen hk
          rcases getElem?_concat_eq_some.mp hk with hk | ⟨-, rfl⟩
          · have hlt := (List.getElem?_eq_some_iff.mp hk).1
            simp at hlen
            omega
          · rw [hout, SessionInfo.config_goOver, hsession.2]
  | @send k id n l l' hl =>
      exact ⟨h.box.tail (.send hl), h.rounds, h.version, h.chain, h.sess⟩

theorem Reach.inv (h : Reach first w) : Inv first w := by
  induction h with
  | refl => exact inv_start first
  | tail _ hs ih => exact ih.step hs

/-- What the workers of an elastic program that starts in the session `first` have sent. -/
structure Exact (first : SessionInfo) (w : CommitRun) : Prop where
  /-- The versions follow one another. -/
  version : ∀ k ch, w.changes[k]? = some ch → ch.sess.version = (first.version + k) % 2 ^ 64
  /-- Every change starts from the config of the one before. -/
  chain : ∀ k ch ch', w.changes[k]? = some ch → w.changes[k + 1]? = some ch' →
    ch'.sess.cluster = ch.config
  /-- Every worker tells every runner of a change, and once. -/
  once : ∀ k ch, w.changes[k]? = some ch → ∀ id,
    (Links.select (k, id) w.box.sent ++ w.box.todo k id).Perm
      (if id ∈ ch.sess.cluster.workers then ch.config.runners.map ch.stage.notify else [])
  /-- Nothing else is sent. -/
  known : ∀ x ∈ w.box.sent, x.1.1 < w.changes.length
  /-- What is sent after a message of a later change is from a worker that has been removed. -/
  late : w.box.sent.Pairwise fun y x => x.1.1 < y.1.1 → ∀ ch, w.changes[x.1.1]? = some ch →
    x.1.2 ∉ ch.config.workers
  /-- The texts of two changes are different. -/
  apart : w.changes.length ≤ 2 ^ 32 → ∀ x ∈ w.box.sent, ∀ y ∈ w.box.sent,
    x.2.packet.data = y.2.packet.data → x.1.1 = y.1.1

section Exact

variable {k : ℕ} {ch : Change}

theorem Inv.round_eq (h : Inv first w) (hk : w.changes[k]? = some ch) :
    w.box.rounds[k]? = some ch.round := by
  simp [h.rounds, hk]

theorem Inv.due_eq (h : Inv first w) (hk : w.changes[k]? = some ch) (id : PeerId) :
    w.box.due k id = ch.round.due id := by
  simp [Outbox.due, h.round_eq hk]

/-- The change of a message, and its text. -/
theorem Inv.text (h : Inv first w) {x : (ℕ × PeerId) × Notice} (hx : x ∈ w.box.sent) :
    ∃ ch, w.changes[x.1.1]? = some ch ∧ x.2.packet.data = ch.stage.json := by
  have hlt := h.box.sent_lt_length hx
  rw [h.rounds, List.length_map] at hlt
  have hk := List.getElem?_eq_getElem hlt
  refine ⟨_, hk, ?_⟩
  have hdue := h.box.mem_due hx
  rw [h.due_eq hk] at hdue
  simp only [Change.round] at hdue
  split at hdue
  · obtain ⟨r, -, hr⟩ := List.mem_map.mp hdue
    rw [← hr]
    rfl
  · cases hdue

/-- **Every runner is told about every change, once by every worker, and in the order of the
versions but for the workers that have been removed.** -/
theorem commits_exact (h : Reach first w) : w.Exact first := by
  have hinv := Reach.inv h
  refine ⟨hinv.version, hinv.chain, ?_, ?_, ?_, ?_⟩
  · intro k ch hk id
    have hperm := hinv.box.conserved k id
    rwa [hinv.due_eq hk] at hperm
  · intro x hx
    have hlt := hinv.box.sent_lt_length hx
    rwa [hinv.rounds, List.length_map] at hlt
  · apply hinv.box.ordered.imp
    intro y x hno hlt ch hk hin
    exact hno hlt ⟨ch.round, hinv.round_eq hk, hin⟩
  · intro hlen x hx y hy heq
    obtain ⟨ch, hch, htext⟩ := hinv.text hx
    obtain ⟨ch', hch', htext'⟩ := hinv.text hy
    rw [htext, htext'] at heq
    have hversion := congrArg ClusterStage.version (ClusterStage.json_injective heq)
    rw [Change.stage, Change.stage, int32_ofNat_inj, hinv.version _ _ hch,
      hinv.version _ _ hch'] at hversion
    have hlt := (List.getElem?_eq_some_iff.mp hch).1
    have hlt' := (List.getElem?_eq_some_iff.mp hch').1
    omega

end Exact

/-- A runner and two workers, of which the second has this port. -/
def smallConfig (port : UInt16) : ServedConfig :=
  ⟨⟨[⟨2130706433, 38080⟩], [⟨2130706433, 20000⟩, ⟨2130706433, port⟩]⟩, by
    simp [ClusterConfig.Small]⟩

/-- The first session. -/
def smallSession : SessionInfo :=
  ⟨0, (smallConfig 20001).1, Nat.two_pow_pos 64, (smallConfig 20001).size_lt,
    List.cons_ne_nil _ _⟩

/-- What is committed. -/
def smallChange : Change := ⟨smallSession, (smallConfig 20002).1⟩

/-- After the resize. -/
def smallRun : CommitRun := ⟨[smallChange], none, Outbox.empty.post smallChange.round⟩

theorem reach_small : ∃ w, Reach smallSession w ∧ w.box.sent =
    [((0, ⟨2130706433, 20001⟩), smallChange.stage.notify ⟨2130706433, 38080⟩)] := by
  have hfound : firstUnanimous smallSession (fun _ _ => some (smallConfig 20002)) 1 0 =
      some (0, (smallConfig 20002).1) :=
    firstUnanimous_eq (Nat.zero_le 0) (by omega) (fun i _ hi => absurd hi (Nat.not_lt_zero i))
      fun i => rfl
  obtain ⟨tr, hruns⟩ :=
    resize_runs (fun (_ : Fin smallSession.size) _ => some (smallConfig 20002)) 1
  simp only [hfound, Option.map_some] at hruns
  have hchanged : ∀ id, (smallSession.goOver id 0 (smallConfig 20002).1).result.changed = true := by
    intro id
    rw [SessionInfo.changed_goOver]
    decide
  have hdue : ∀ i : Fin smallSession.size,
      smallChange.round.due (smallSession.cluster.workers.get i) =
        (smallSession.goOver (smallSession.cluster.workers.get i) 0
          (smallConfig 20002).1).commit := by
    intro i
    rw [SessionInfo.commit_goOver _ _ (hchanged _)]
    exact if_pos (List.get_mem ..)
  have hready : (start smallSession).box.Ready := fun k r hk => by simp [start, Outbox.empty] at hk
  have hresize := Step.resize rfl hready hruns (hchanged _) hdue (fun id hid => if_neg hid)
    (fun new (h : new ∈ (none : Option SessionInfo)) => absurd h (Option.not_mem_none new))
  simp only [SessionInfo.config_goOver] at hresize
  have htodo : smallRun.box.todo 0 ⟨2130706433, 20001⟩ =
      [] ++ smallChange.stage.notify ⟨2130706433, 38080⟩ :: [] := rfl
  have hreach : Reach smallSession smallRun := .single hresize
  exact ⟨_, hreach.tail (.send htodo), rfl⟩

theorem commits_exact_small : ∃ w : CommitRun, w.box.sent ≠ [] ∧ w.Exact smallSession := by
  obtain ⟨w, hreach, hsent⟩ := reach_small
  exact ⟨w, by simp [hsent], commits_exact hreach⟩

end CommitRun

end StdmlCollective

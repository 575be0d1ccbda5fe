import StdmlCollective.ElasticState

/-!
# An elastic program

All workers run `while (!state.should_stop()) { ++state; }`. A worker moves on its own as long as
it makes no request. An `all_reduce` and a `peer::resize` are made by all workers of the session
together: the first is answered with the maximum, the second with what every worker makes of the
same config. After a resize the new workers enter with fresh objects, and the workers that are not
in the config any more go on by themselves.

A worker that has been removed finds nobody to answer its requests: at least one worker of each
session goes on to the next one.
-/

namespace StdmlCollective

open Spmd

/-- Where a worker is in the loop. -/
inductive ElasticPhase where
  | check (p : ElasticProg (ElasticState × Bool))
  | step (p : ElasticProg ElasticState)
  | done (s : ElasticState)

/-- The object at the time of a request. -/
def ElasticRequest.state : ElasticRequest → ElasticState
  | .allReduceMax s => s
  | .resize s => s
  | .overflow s => s

/-- The object in the midst of a method and after it. -/
def ElasticPhase.state : ElasticPhase → ElasticState
  | .check (.ret (s, _)) => s
  | .check (.call r _) => r.state
  | .step (.ret s) => s
  | .step (.call r _) => r.state
  | .done s => s

/-- What the worker does with a reply. -/
inductive ElasticPhase.Resumes : ElasticPhase → (r : ElasticRequest) → r.Reply → ElasticPhase → Prop
    where
  | check {r : ElasticRequest} {k : r.Reply → ElasticProg (ElasticState × Bool)} {x : r.Reply} :
      Resumes (.check (.call r k)) r x (.check (k x))
  | step {r : ElasticRequest} {k : r.Reply → ElasticProg ElasticState} {x : r.Reply} :
      Resumes (.step (.call r k)) r x (.step (k x))

theorem ElasticPhase.Resumes.state_eq {ph ph' : ElasticPhase} {r : ElasticRequest} {x : r.Reply}
    (h : ph.Resumes r x ph') : ph.state = r.state := by
  cases h <;> rfl

/-- A process of a worker, and how often `++state` has returned in it. -/
structure ElasticProcess where
  incs : ℕ
  phase : ElasticPhase

/-- An evaluation of `should_stop`: by whom, in the process that has entered after how many steps
and has made how many; how many steps there have been, what the object is and what the answer. -/
structure Evaluation where
  worker : PeerId
  entered : ℕ
  incs : ℕ
  steps : ℕ
  state : ElasticState
  answer : Bool

/-- The current session and how many `++` have been made; the processes, by worker and by the
number of steps before they entered; for every worker the process that entered last; and the
evaluations of `should_stop` so far. -/
structure ElasticWorld where
  sess : SessionInfo
  steps : ℕ
  entered : PeerId → ℕ
  procs : PeerId → ℕ → Option ElasticProcess
  log : List Evaluation

namespace ElasticWorld

/-- The workers of the current session. -/
abbrev workers (w : ElasticWorld) : List PeerId := w.sess.cluster.workers

/-- A process that enters the current session. -/
def fresh (max : Option Int64) (sess : SessionInfo) : ElasticProcess :=
  ⟨0, .check (ElasticState.new max (sess.version, sess.cluster)).shouldStop⟩

/-- The first session. -/
def start (max : Option Int64) (sess : SessionInfo) : ElasticWorld where
  sess := sess
  steps := 0
  entered _ := 0
  procs id t := if id ∈ sess.cluster.workers ∧ t = 0 then some (fresh max sess) else none
  log := []

/-- One process moves. -/
def set (w : ElasticWorld) (id : PeerId) (t : ℕ) (pr : ElasticProcess) : ElasticWorld :=
  { w with procs := fun id' t' => if id' = id ∧ t' = t then some pr else w.procs id' t' }

/-- All workers of the session move. -/
def resume (w : ElasticWorld) (phase : PeerId → ElasticPhase) : ElasticWorld :=
  { w with procs := fun id t =>
      if id ∈ w.workers ∧ t = w.entered id then
        (w.procs id t).map fun pr => { pr with phase := phase id }
      else w.procs id t }

/-- The workers go over to another session, and the new ones among them enter. -/
def enter (w : ElasticWorld) (max : Option Int64) (sess : SessionInfo) : ElasticWorld where
  sess := sess
  steps := w.steps + 1
  entered id := if id ∈ sess.cluster.workers ∧ id ∉ w.workers then w.steps + 1 else w.entered id
  procs id t :=
    if (id ∈ sess.cluster.workers ∧ id ∉ w.workers) ∧ t = w.steps + 1 then some (fresh max sess)
    else w.procs id t
  log := w.log

/-- The worker makes the request `r` in the current session and goes on with `x` to `phase`. -/
def Meets (w : ElasticWorld) (id : PeerId) (r : ElasticRequest) (x : r.Reply)
    (phase : ElasticPhase) :
    Prop :=
  r.state.sess = (w.sess.version, w.sess.cluster) ∧
    ∃ pr, w.procs id (w.entered id) = some pr ∧ pr.phase.Resumes r x phase

/-- What can happen next, when the configs keep at least one worker each. -/
inductive Step (max : Option Int64) : ElasticWorld → ElasticWorld → Prop where
  /-- `should_stop` returns. -/
  | check {w : ElasticWorld} {id : PeerId} {t n : ℕ} {s : ElasticState} {b : Bool} :
      w.procs id t = some ⟨n, .check (.ret (s, b))⟩ →
      Step max w { w.set id t ⟨n, if b then .done s else .step s.increment⟩ with
        log := ⟨id, t, n, w.steps, s, b⟩ :: w.log }
  /-- `++state` returns. -/
  | next {w : ElasticWorld} {id : PeerId} {t n : ℕ} {s : ElasticState} :
      w.procs id t = some ⟨n, .step (.ret s)⟩ →
      Step max w (w.set id t ⟨n + 1, .check s.shouldStop⟩)
  /-- `sess_->all_reduce(progress_, max)`. -/
  | sync {w : ElasticWorld} {obj : PeerId → ElasticState} {y : Int64}
      {phase : PeerId → ElasticPhase} :
      (∀ id ∈ w.workers, w.Meets id (.allReduceMax (obj id)) y (phase id)) →
      (∀ id ∈ w.workers, (obj id).progress ≤ y) → (∃ id ∈ w.workers, (obj id).progress = y) →
      Step max w (w.resume phase)
  /-- `peer_.resize(sess_, get_config_)`; `kept` goes over to the session `new`. -/
  | resize {w : ElasticWorld} {obj : PeerId → ElasticState} {phase : PeerId → ElasticPhase}
      {round : ℕ}
      {config : ClusterConfig} {kept : PeerId} {new : SessionInfo} :
      (∀ id ∈ w.workers, w.Meets id (.resize (obj id)) (w.sess.goOver id round config) (phase id)) →
      kept ∈ w.workers → kept ∈ config.workers →
      (w.sess.goOver kept round config).session = (new.version, new.cluster) →
      Step max w ((w.resume phase).enter max new)

/-- The worlds that an elastic program can get into. -/
abbrev Reach (max : Option Int64) : ElasticWorld → ElasticWorld → Prop :=
  Relation.ReflTransGen (Step max)

end ElasticWorld

/-! ## One worker -/

theorem toInt_add_one {x : Int64} (h : x ≠ Int64.maxValue) : (x + 1).toInt = x.toInt + 1 := by
  have hlt := x.toInt_lt
  have hle := x.le_toInt
  have hne : x.toInt ≠ 2 ^ 63 - 1 := by
    intro heq
    apply h
    apply Int64.toInt_inj.mp
    rw [heq]
    rfl
  have hone : (1 : Int64).toInt = 1 := rfl
  rw [Int64.toInt_add, hone]
  apply Int.bmod_eq_of_le <;> omega

namespace ElasticState

/-- After the `all_reduce`. -/
def synchronised (s : ElasticState) (y : Int64) : ElasticState :=
  { s with progress := y, synced := true }

theorem shouldStop_of_synced {s : ElasticState} (h : s.synced = true) :
    s.shouldStop = .ret (s, s.detached || s.finished) := by
  simp [shouldStop, sync_of_synced h]

theorem shouldStop_of_not_synced {s : ElasticState} (h : s.synced = false) :
    s.shouldStop = .call (.allReduceMax s) fun y =>
      .ret (s.synchronised y, (s.synchronised y).detached || (s.synchronised y).finished) := by
  simp [shouldStop, sync_of_not_synced h, synchronised]

/-- `++progress_`. -/
def advanced (s : ElasticState) : ElasticState :=
  { s with progress := s.progress + 1 }

theorem increment_of_synced {s : ElasticState} (h : s.synced = true)
    (hmax : s.progress ≠ Int64.maxValue) :
    s.increment = .call (.resize s.advanced) fun r => .ret (s.advanced.resized r) := by
  simp [increment, sync_of_synced h, hmax, checkResize, advanced]

/-- What the objects of the members of a session have in common. -/
structure IsMember (max : Option Int64) (s : ElasticState) : Prop where
  limit : s.maxProgress = max
  attached : s.detached = false

end ElasticState

/-- Where a member of the session can be after `j` steps: it has entered or made a step for the
`c`-th time. `b` tells whether the session has been synchronised. -/
inductive ElasticPhase.Member (max : Option Int64) (j : ℕ) : Bool → ℕ → ElasticPhase → Prop where
  | resized {b : Bool} {c : ℕ} {s : ElasticState} : s.IsMember max → s.synced = b →
      s.progress.toInt = j → c + 1 = j → Member max j b c (.step (.ret s))
  | asks {s : ElasticState} : s.IsMember max → s.synced = false → s.progress.toInt ≤ j →
      Member max j false j (.check (.call (.allReduceMax s) fun y =>
        .ret (s.synchronised y, (s.synchronised y).detached || (s.synchronised y).finished)))
  | answered {s : ElasticState} : s.IsMember max → s.synced = true → s.progress.toInt = j →
      Member max j true j (.check (.ret (s, s.finished)))
  | steps {s : ElasticState} : s.IsMember max → s.synced = true →
      s.progress.toInt = (j : ℤ) + 1 →
      Member max j true j (.step (.call (.resize s) fun r => .ret (s.resized r)))
  | overflows {s : ElasticState} {k : Empty → ElasticProg ElasticState} : s.progress.toInt = j →
      Member max j true j (.step (.call (.overflow s) k))
  | done {s : ElasticState} : s.progress.toInt = j → Member max j true j (.done s)

/-- Where a worker can be that has been removed. -/
inductive ElasticPhase.Removed : ElasticPhase → Prop where
  | resized {s : ElasticState} : s.detached = true → s.synced = false → Removed (.step (.ret s))
  | asks {s : ElasticState} {k : Int64 → ElasticProg (ElasticState × Bool)} :
      Removed (.check (.call (.allReduceMax s) k))

namespace ElasticPhase

variable {max : Option Int64} {j c : ℕ} {b : Bool} {ph ph' : ElasticPhase}

/-- A member that makes no request and has a new answer of `should_stop`. -/
theorem Member.check {s : ElasticState} {a : Bool} (h : Member max j b c (.check (.ret (s, a)))) :
    b = true ∧ c = j ∧ s.IsMember max ∧ s.progress.toInt = j ∧ a = s.finished ∧
      Member max j b c (if a then .done s else .step s.increment) := by
  cases h with
  | answered hm hs hp =>
      refine ⟨rfl, rfl, hm, hp, rfl, ?_⟩
      by_cases ha : s.finished = true
      · rw [if_pos ha]
        exact .done hp
      · rw [if_neg ha]
        by_cases hmax : s.progress = Int64.maxValue
        · obtain ⟨k, hover⟩ : ∃ k, s.increment = .call (.overflow s) k := by
            rw [ElasticState.increment, ElasticState.sync_of_synced hs, Prog.ret_bind, if_pos hmax]
            exact ⟨_, rfl⟩
          rw [hover]
          exact .overflows hp
        · rw [ElasticState.increment_of_synced hs hmax]
          apply Member.steps (s := s.advanced) ⟨hm.limit, hm.attached⟩ hs
          rw [ElasticState.advanced, toInt_add_one hmax, hp]

/-- A member whose `++` returns. -/
theorem Member.next {s : ElasticState} (h : Member max j b c (.step (.ret s))) :
    Member max j b (c + 1) (.check s.shouldStop) := by
  cases h with
  | resized hm hs hp hc =>
      subst hc
      cases b with
      | true =>
          rw [ElasticState.shouldStop_of_synced hs, hm.attached, Bool.false_or]
          exact .answered hm hs hp
      | false =>
          rw [ElasticState.shouldStop_of_not_synced hs]
          exact .asks hm hs hp.le

theorem Member.asks_of_resumes {s : ElasticState} {y : Int64} (h : Member max j b c ph)
    (hres : ph.Resumes (.allReduceMax s) y ph') : b = false ∧ s.progress.toInt ≤ j := by
  cases hres with
  | check =>
      cases h with
      | asks _ _ hp => exact ⟨rfl, hp⟩
  | step => cases h

theorem Member.sync {s : ElasticState} {y : Int64} (h : Member max j b c ph)
    (hres : ph.Resumes (.allReduceMax s) y ph') (hy : y.toInt = j) :
    Member max j true c ph' ∧ ph'.state.progress = y := by
  cases hres with
  | check =>
      cases h with
      | asks hm hs hp =>
          have hatt : (s.synchronised y).detached = false := hm.attached
          refine ⟨?_, rfl⟩
          beta_reduce
          rw [hatt, Bool.false_or]
          exact .answered ⟨hm.limit, hm.attached⟩ rfl hy
  | step => cases h

theorem Member.resize {s : ElasticState} {r : Resized} (h : Member max j b c ph)
    (hres : ph.Resumes (.resize s) r ph') :
    b = true ∧ c = j ∧ ph' = .step (.ret (s.resized r)) ∧ s.IsMember max ∧ s.synced = true ∧
      s.progress.toInt = (j : ℤ) + 1 := by
  cases hres with
  | check => cases h
  | step =>
      cases h with
      | steps hm hs hp => exact ⟨rfl, rfl, rfl, hm, hs, hp⟩

end ElasticPhase

theorem SessionInfo.detached_goOver {sess : SessionInfo} {id : PeerId} {round : ℕ}
    {config : ClusterConfig} (hid : id ∈ sess.cluster.workers) :
    (sess.goOver id round config).result.detached = true ↔ id ∉ config.workers := by
  unfold SessionInfo.goOver
  split
  · next heq => simpa [← heq] using hid
  · simp [← rank_lt_iff]

theorem SessionInfo.changed_goOver {sess : SessionInfo} {id : PeerId} {round : ℕ}
    {config : ClusterConfig} :
    (sess.goOver id round config).result.changed = true ↔ sess.cluster ≠ config := by
  unfold SessionInfo.goOver
  split
  · next heq => simp [heq]
  · next hne => simp [hne]

/-- A worker that is kept is in the session of the new config. -/
theorem SessionInfo.cluster_goOver {sess new : SessionInfo} {id : PeerId} {round : ℕ}
    {config : ClusterConfig} (hid : id ∈ config.workers)
    (h : (sess.goOver id round config).session = (new.version, new.cluster)) :
    new.cluster = config := by
  unfold SessionInfo.goOver at h
  split at h
  · next heq => rw [← (Prod.mk.inj h).2, heq]
  · have hrank := rank_lt_iff.mpr hid
    simp only [decide_eq_true_eq, if_neg (not_le.mpr hrank)] at h
    exact (Prod.mk.inj h).2.symm

namespace ElasticState

@[simp] theorem resized_progress (s : ElasticState) (r : Resized) :
    (s.resized r).progress = s.progress := by
  unfold resized
  split <;> split <;> rfl

theorem resized_detached (s : ElasticState) (r : Resized) :
    (s.resized r).detached = (r.result.detached || s.detached) := by
  unfold resized
  split <;> split <;> simp_all

theorem resized_synced (s : ElasticState) (r : Resized) :
    (s.resized r).synced = (!r.result.changed && s.synced) := by
  unfold resized
  split <;> split <;> simp_all

theorem resized_maxProgress (s : ElasticState) (r : Resized) :
    (s.resized r).maxProgress = s.maxProgress := by
  unfold resized
  split <;> split <;> rfl

end ElasticState

namespace ElasticPhase

variable {max : Option Int64} {j c : ℕ} {b : Bool} {ph ph' : ElasticPhase} {s : ElasticState}
  {sess : SessionInfo} {id : PeerId} {round : ℕ} {config : ClusterConfig}

/-- A member that is kept has made the next step. -/
theorem Member.keep (h : Member max j b c ph) (hid : id ∈ sess.cluster.workers)
    (hkeep : id ∈ config.workers)
    (hres : ph.Resumes (.resize s) (sess.goOver id round config) ph') :
    Member max (j + 1) (decide (sess.cluster = config)) c ph' ∧
      ph'.state.progress = s.progress ∧ ph'.state.progress.toInt = (j + 1 : ℕ) := by
  obtain ⟨-, rfl, rfl, hm, hs, hp⟩ := h.resize hres
  have hdet : (sess.goOver id round config).result.detached = false := by
    have hiff : (sess.goOver id round config).result.detached = true ↔ id ∉ config.workers :=
      SessionInfo.detached_goOver hid
    simpa [hkeep] using hiff
  have hch : (sess.goOver id round config).result.changed = true ↔ sess.cluster ≠ config :=
    SessionInfo.changed_goOver
  have hp' : (s.resized (sess.goOver id round config)).progress.toInt = (c + 1 : ℕ) := by
    rw [ElasticState.resized_progress, hp]
    omega
  refine ⟨.resized ⟨?_, ?_⟩ ?_ hp' rfl, ElasticState.resized_progress .., hp'⟩
  · rw [ElasticState.resized_maxProgress, hm.limit]
  · rw [ElasticState.resized_detached, hdet, hm.attached]
    rfl
  · rw [ElasticState.resized_synced, hs, Bool.and_true]
    by_cases heq : sess.cluster = config
    · simpa [heq] using hch
    · simpa [heq] using hch

/-- A member that is not kept has been removed. -/
theorem Member.remove (h : Member max j b c ph) (hid : id ∈ sess.cluster.workers)
    (hkeep : id ∉ config.workers)
    (hres : ph.Resumes (.resize s) (sess.goOver id round config) ph') :
    ph'.Removed ∧ ph'.state.progress = s.progress := by
  obtain ⟨-, -, rfl, -, -, -⟩ := h.resize hres
  have hdet : (sess.goOver id round config).result.detached = true :=
    (SessionInfo.detached_goOver hid).mpr hkeep
  have hch : (sess.goOver id round config).result.changed = true := by
    rw [SessionInfo.changed_goOver]
    intro heq
    rw [heq] at hid
    exact hkeep hid
  refine ⟨.resized ?_ ?_, ElasticState.resized_progress ..⟩
  · rw [ElasticState.resized_detached, hdet]
    rfl
  · rw [ElasticState.resized_synced, hch]
    rfl

/-- A worker that has been removed asks for an `all_reduce` and nothing else. -/
theorem Removed.next (h : Removed (.step (.ret s))) : Removed (.check s.shouldStop) := by
  cases h with
  | resized _ hs =>
      rw [ElasticState.shouldStop_of_not_synced hs]
      exact .asks

theorem state_shouldStop : (ElasticPhase.check s.shouldStop).state = s := by
  cases hs : s.synced with
  | true =>
      rw [ElasticState.shouldStop_of_synced hs]
      rfl
  | false =>
      rw [ElasticState.shouldStop_of_not_synced hs]
      rfl

theorem le_increment : s.progress ≤ (ElasticPhase.step s.increment).state.progress := by
  cases hs : s.synced with
  | true =>
      by_cases hmax : s.progress = Int64.maxValue
      · rw [ElasticState.increment, ElasticState.sync_of_synced hs, Prog.ret_bind, if_pos hmax]
        exact Int64.le_refl _
      · rw [ElasticState.increment_of_synced hs hmax]
        apply Int64.le_iff_toInt_le.mpr
        have hadv : (ElasticPhase.step (.call (.resize s.advanced)
            fun r => .ret (s.advanced.resized r))).state.progress = s.progress + 1 := rfl
        rw [hadv, toInt_add_one hmax]
        omega
  | false =>
      rw [ElasticState.increment, ElasticState.sync_of_not_synced hs]
      exact Int64.le_refl _

/-- A new worker waits for the others. -/
theorem Member.fresh (max : Option Int64) (sess : SessionInfo) (j : ℕ) :
    Member max j false j (ElasticWorld.fresh max sess).phase := by
  rw [ElasticWorld.fresh, ElasticState.shouldStop_of_not_synced rfl]
  exact .asks ⟨rfl, rfl⟩ rfl (Int.natCast_nonneg j)

end ElasticPhase

/-! ## All workers -/

/-- What holds in every world: either no member has been synchronised since the session began, and
one of them has the progress of all steps, or all of them have. -/
structure ElasticWorld.Inv (max : Option Int64) (w : ElasticWorld) : Prop where
  members : ∃ b,
    (∀ id ∈ w.workers, ∃ pr, w.procs id (w.entered id) = some pr ∧
      pr.phase.Member max w.steps b (w.entered id + pr.incs)) ∧
    (b = false → ∃ id ∈ w.workers, ∃ pr, w.procs id (w.entered id) = some pr ∧
      pr.phase.state.progress.toInt = w.steps)
  removed : ∀ {id t pr}, w.procs id t = some pr → ¬(id ∈ w.workers ∧ t = w.entered id) →
    pr.phase.Removed
  entered_le : ∀ {id t pr}, w.procs id t = some pr → t ≤ w.steps

namespace ElasticWorld

variable {max : Option Int64} {w w' : ElasticWorld}

@[simp] theorem set_self (w : ElasticWorld) (id : PeerId) (t : ℕ) (pr : ElasticProcess) :
    (w.set id t pr).procs id t = some pr := by
  simp [set]

theorem set_of_ne (w : ElasticWorld) {id id' : PeerId} {t t' : ℕ} (pr : ElasticProcess)
    (h : ¬(id' = id ∧ t' = t)) : (w.set id t pr).procs id' t' = w.procs id' t' := by
  simp [set, h]

theorem resume_member {phase : PeerId → ElasticPhase} {id : PeerId} (hid : id ∈ w.workers)
    {pr : ElasticProcess} (hpr : w.procs id (w.entered id) = some pr) :
    (w.resume phase).procs id (w.entered id) = some { pr with phase := phase id } := by
  simp [resume, hid, hpr]

theorem resume_other (phase : PeerId → ElasticPhase) {id : PeerId} {t : ℕ}
    (h : ¬(id ∈ w.workers ∧ t = w.entered id)) :
    (w.resume phase).procs id t = w.procs id t := by
  simp only [resume, if_neg h]

theorem Inv.start (max : Option Int64) (sess : SessionInfo) : (start max sess).Inv max := by
  have hprocs : ∀ id ∈ sess.cluster.workers,
      (ElasticWorld.start max sess).procs id 0 = some (fresh max sess) := by
    intro id hid
    simp [ElasticWorld.start, hid]
  refine ⟨⟨false, ?_, ?_⟩, ?_, ?_⟩
  · intro id hid
    exact ⟨_, hprocs id hid, .fresh max sess 0⟩
  · intro _
    obtain ⟨id, hid⟩ := List.exists_mem_of_ne_nil _ sess.workers_ne
    refine ⟨id, hid, _, hprocs id hid, ?_⟩
    rw [fresh, ElasticPhase.state_shouldStop]
    rfl
  · intro id t pr hpr hnot
    have hnone : (ElasticWorld.start max sess).procs id t = none := if_neg hnot
    rw [hnone] at hpr
    exact absurd hpr (by simp)
  · intro id t pr hpr
    simp only [ElasticWorld.start] at hpr
    split at hpr
    · next h => exact h.2.le
    · exact absurd hpr (by simp)

/-- A step of one process. -/
theorem Inv.set (h : w.Inv max) {id : PeerId} {t : ℕ} {pr pr' : ElasticProcess}
    (hpr : w.procs id t = some pr)
    (hmem : ∀ {b}, pr.phase.Member max w.steps b (t + pr.incs) →
      pr'.phase.Member max w.steps b (t + pr'.incs) ∧
        (b = false → pr'.phase.state.progress = pr.phase.state.progress))
    (hrem : pr.phase.Removed → pr'.phase.Removed) : (w.set id t pr').Inv max := by
  obtain ⟨b, hall, hsome⟩ := h.members
  refine ⟨⟨b, ?_, ?_⟩, ?_, ?_⟩
  · intro id' hid
    obtain ⟨q, hq, hm⟩ := hall id' hid
    by_cases hkey : id' = id ∧ w.entered id' = t
    · obtain ⟨rfl, rfl⟩ := hkey
      obtain rfl : pr = q := Option.some.inj (hpr.symm.trans hq)
      exact ⟨pr', set_self .., (hmem hm).1⟩
    · exact ⟨q, (set_of_ne w pr' hkey).trans hq, hm⟩
  · intro hb
    obtain ⟨id', hid, q, hq, hp⟩ := hsome hb
    by_cases hkey : id' = id ∧ w.entered id' = t
    · obtain ⟨rfl, rfl⟩ := hkey
      obtain rfl : pr = q := Option.some.inj (hpr.symm.trans hq)
      obtain ⟨q', hq', hm⟩ := hall id' hid
      obtain rfl : pr = q' := Option.some.inj (hpr.symm.trans hq')
      exact ⟨id', hid, pr', set_self .., ((hmem hm).2 hb) ▸ hp⟩
    · exact ⟨id', hid, q, (set_of_ne w pr' hkey).trans hq, hp⟩
  · intro id' t' q hq hnot
    by_cases hkey : id' = id ∧ t' = t
    · obtain ⟨rfl, rfl⟩ := hkey
      rw [set_self, Option.some.injEq] at hq
      subst hq
      exact hrem (h.removed hpr hnot)
    · rw [set_of_ne w pr' hkey] at hq
      exact h.removed hq hnot
  · intro id' t' q hq
    by_cases hkey : id' = id ∧ t' = t
    · obtain ⟨rfl, rfl⟩ := hkey
      exact h.entered_le hpr
    · rw [set_of_ne w pr' hkey] at hq
      exact h.entered_le hq

/-- The maximum that the `all_reduce` returns is the number of steps, and the members are all
before their synchronisation. -/
theorem Inv.maximum (h : w.Inv max) {obj : PeerId → ElasticState} {y : Int64}
    {phase : PeerId → ElasticPhase}
    (hmeets : ∀ id ∈ w.workers, w.Meets id (.allReduceMax (obj id)) y (phase id))
    (hle : ∀ id ∈ w.workers, (obj id).progress ≤ y)
    (hmax : ∃ id ∈ w.workers, (obj id).progress = y) : y.toInt = w.steps := by
  obtain ⟨b, hall, hsome⟩ := h.members
  have hasks : ∀ id ∈ w.workers, b = false ∧ (obj id).progress.toInt ≤ w.steps ∧
      ∀ pr, w.procs id (w.entered id) = some pr → pr.phase.state = obj id := by
    intro id hid
    obtain ⟨-, pr, hpr, hres⟩ := hmeets id hid
    obtain ⟨q, hq, hm⟩ := hall id hid
    obtain rfl : pr = q := Option.some.inj (hpr.symm.trans hq)
    obtain ⟨hb, hp⟩ := hm.asks_of_resumes hres
    refine ⟨hb, hp, ?_⟩
    intro pr' hpr'
    rw [hpr, Option.some.injEq] at hpr'
    rw [← hpr', hres.state_eq]
    rfl
  obtain ⟨id₁, hid₁, hy⟩ := hmax
  obtain ⟨id₂, hid₂, pr, hpr, hp⟩ := hsome (hasks id₁ hid₁).1
  have hupper := (hasks id₁ hid₁).2.1
  have hlower := Int64.le_iff_toInt_le.mp (hle id₂ hid₂)
  rw [(hasks id₂ hid₂).2.2 pr hpr] at hp
  rw [hy] at hupper
  omega

theorem Inv.sync (h : w.Inv max) {obj : PeerId → ElasticState} {y : Int64}
    {phase : PeerId → ElasticPhase}
    (hmeets : ∀ id ∈ w.workers, w.Meets id (.allReduceMax (obj id)) y (phase id))
    (hy : y.toInt = w.steps) : (w.resume phase).Inv max := by
  obtain ⟨b, hall, -⟩ := h.members
  refine ⟨⟨true, ?_, by simp⟩, ?_, ?_⟩
  · intro id hid
    obtain ⟨-, pr, hpr, hres⟩ := hmeets id hid
    obtain ⟨q, hq, hm⟩ := hall id hid
    obtain rfl : pr = q := Option.some.inj (hpr.symm.trans hq)
    exact ⟨_, resume_member (w := w) hid hpr, (hm.sync hres hy).1⟩
  · intro id t pr hpr hnot
    rw [resume_other (w := w) phase hnot] at hpr
    exact h.removed hpr hnot
  · intro id t pr hpr
    by_cases hkey : id ∈ w.workers ∧ t = w.entered id
    · obtain ⟨hid, rfl⟩ := hkey
      obtain ⟨q, hq, -⟩ := hall id hid
      exact h.entered_le hq
    · rw [resume_other phase hkey] at hpr
      exact h.entered_le hpr

theorem enter_stays {sess : SessionInfo} {id : PeerId} (hid : id ∈ w.workers) (t : ℕ) :
    (w.enter max sess).entered id = w.entered id ∧
      (w.enter max sess).procs id t = w.procs id t := by
  simp [enter, hid]

theorem Inv.resize (h : w.Inv max) {obj : PeerId → ElasticState}
    {phase : PeerId → ElasticPhase} {round : ℕ} {config : ClusterConfig} {kept : PeerId}
    {new : SessionInfo}
    (hmeets : ∀ id ∈ w.workers,
      w.Meets id (.resize (obj id)) (w.sess.goOver id round config) (phase id))
    (hold : kept ∈ w.workers) (hnew : kept ∈ config.workers) (hcluster : new.cluster = config) :
    ((w.resume phase).enter max new).Inv max := by
  obtain ⟨b, hall, -⟩ := h.members
  subst hcluster
  have hprocs : ∀ id ∈ w.workers, ∃ pr, w.procs id (w.entered id) = some pr ∧
      ((w.resume phase).enter max new).procs id (w.entered id) =
        some { pr with phase := phase id } ∧
      pr.phase.Member max w.steps b (w.entered id + pr.incs) ∧
      pr.phase.Resumes (.resize (obj id)) (w.sess.goOver id round new.cluster) (phase id) := by
    intro id hid
    obtain ⟨-, pr, hpr, hres⟩ := hmeets id hid
    obtain ⟨q, hq, hm⟩ := hall id hid
    obtain rfl : pr = q := Option.some.inj (hpr.symm.trans hq)
    refine ⟨pr, hpr, ?_, hm, hres⟩
    rw [(enter_stays (w := w.resume phase) hid _).2, resume_member hid hpr]
  refine ⟨⟨decide (w.sess.cluster = new.cluster), ?_, ?_⟩, ?_, ?_⟩
  · intro id (hid : id ∈ new.cluster.workers)
    by_cases hmem : id ∈ w.workers
    · obtain ⟨pr, -, hpr, hm, hres⟩ := hprocs id hmem
      refine ⟨{ pr with phase := phase id }, ?_⟩
      rw [(enter_stays (w := w.resume phase) hmem 0).1]
      exact ⟨hpr, (hm.keep hmem hid hres).1⟩
    · -- who was not in the old session has entered just now
      have hne : w.sess.cluster ≠ new.cluster := by
        intro heq
        rw [workers, heq] at hmem
        exact hmem hid
      refine ⟨fresh max new, ?_, ?_⟩
      · simp [enter, resume, hid, hmem]
      · have hent : ((w.resume phase).enter max new).entered id = w.steps + 1 := by
          simp [enter, resume, hid, hmem]
        rw [hent, decide_eq_false hne]
        exact .fresh max new (w.steps + 1)
  · intro _
    obtain ⟨pr, -, hpr, hm, hres⟩ := hprocs kept hold
    refine ⟨kept, hnew, { pr with phase := phase kept }, ?_, (hm.keep hold hnew hres).2.2⟩
    rw [(enter_stays (w := w.resume phase) hold 0).1]
    exact hpr
  · intro id t pr hpr hnot
    by_cases hmem : id ∈ w.workers
    · have hold : id ∈ (w.resume phase).workers := hmem
      have hstays : ((w.resume phase).enter max new).entered id = _ ∧
          ((w.resume phase).enter max new).procs id t = _ := enter_stays hold t
      by_cases ht : t = w.entered id
      · obtain ⟨q, -, hq, hm, hres⟩ := hprocs id hmem
        subst ht
        rw [hq, Option.some.injEq] at hpr
        subst hpr
        have hgone : id ∉ new.cluster.workers := by
          intro hin
          exact hnot ⟨hin, hstays.1.symm⟩
        exact (hm.remove hmem hgone hres).1
      · rw [hstays.2, resume_other phase (fun hk => ht hk.2)] at hpr
        exact h.removed hpr fun hk => ht hk.2
    · by_cases hjoin : id ∈ new.cluster.workers ∧ t = w.steps + 1
      · refine absurd ⟨hjoin.1, ?_⟩ hnot
        simp [enter, resume, hjoin, hmem]
      · have hsame : ((w.resume phase).enter max new).procs id t = w.procs id t := by
          rw [← resume_other (w := w) phase fun hk => hmem hk.1]
          exact if_neg fun hk => hjoin ⟨hk.1.1, hk.2⟩
        rw [hsame] at hpr
        exact h.removed hpr fun hk => hmem hk.1
  · intro id t pr hpr
    change t ≤ w.steps + 1
    simp only [enter] at hpr
    split at hpr
    · next hk => exact hk.2.le
    · by_cases hkey : id ∈ w.workers ∧ t = w.entered id
      · obtain ⟨q, hq, -⟩ := hall id hkey.1
        rw [hkey.2]
        exact (h.entered_le hq).trans (Nat.le_succ _)
      · rw [resume_other phase hkey] at hpr
        exact (h.entered_le hpr).trans (Nat.le_succ _)

theorem Inv.step (h : w.Inv max) (hstep : Step max w w') : w'.Inv max := by
  cases hstep with
  | @check id t n s b hpr =>
      have hset : (w.set id t ⟨n, if b then .done s else .step s.increment⟩).Inv max := by
        refine h.set hpr (fun hm => ⟨hm.check.2.2.2.2.2, fun hb => ?_⟩) (fun hrem => nomatch hrem)
        rw [hm.check.1] at hb
        exact absurd hb (by simp)
      exact ⟨hset.members, hset.removed, hset.entered_le⟩
  | next hpr =>
      refine h.set hpr (fun hm => ⟨?_, fun _ => ?_⟩) (fun hrem => hrem.next)
      · exact hm.next
      · rw [ElasticPhase.state_shouldStop]
        rfl
  | sync hmeets hle hmax => exact h.sync hmeets (h.maximum hmeets hle hmax)
  | resize hmeets hold hnew hsess =>
      exact h.resize hmeets hold hnew (SessionInfo.cluster_goOver hnew hsess)

theorem Inv.reach {sess : SessionInfo} (h : Reach max (ElasticWorld.start max sess) w) :
    w.Inv max := by
  induction h with
  | refl => exact .start max sess
  | tail _ hstep ih => exact ih.step hstep

end ElasticWorld

/-- The progress that a worker sees when it evaluates `should_stop` is the number of steps, counted
in the session or by the worker itself, and the answer depends on nothing else. -/
structure Evaluation.Agreed (max : Option Int64) (e : Evaluation) : Prop where
  progress : e.state.progress.toInt = e.steps
  count : e.steps = e.entered + e.incs
  answer : e.answer = true ↔ ∃ m, max = some m ∧ m.toInt ≤ e.steps

theorem Evaluation.Agreed.same {max : Option Int64} {e e' : Evaluation} (h : e.Agreed max)
    (h' : e'.Agreed max) (hsteps : e.steps = e'.steps) :
    e.state.progress = e'.state.progress ∧ e.answer = e'.answer := by
  constructor
  · apply Int64.toInt_inj.mp
    rw [h.progress, h'.progress, hsteps]
  · apply Bool.eq_iff_iff.mpr
    rw [h.answer, h'.answer, hsteps]

theorem ElasticState.finished_iff {max : Option Int64} {s : ElasticState} (h : s.IsMember max)
    {j : ℕ} (hp : s.progress.toInt = j) :
    s.finished = true ↔ ∃ m, max = some m ∧ m.toInt ≤ j := by
  rw [finished, h.limit]
  cases max with
  | none => simp
  | some m => simp [Int64.le_iff_toInt_le, hp]

namespace ElasticWorld

variable {max : Option Int64} {w w' : ElasticWorld}

theorem Inv.member (h : w.Inv max) {id : PeerId} (hid : id ∈ w.workers) {pr : ElasticProcess}
    (hpr : w.procs id (w.entered id) = some pr) :
    ∃ b, pr.phase.Member max w.steps b (w.entered id + pr.incs) := by
  obtain ⟨b, hall, -⟩ := h.members
  obtain ⟨q, hq, hm⟩ := hall id hid
  obtain rfl : pr = q := Option.some.inj (hpr.symm.trans hq)
  exact ⟨b, hm⟩

theorem Inv.agreed (h : w.Inv max) {id : PeerId} {t n : ℕ} {s : ElasticState} {b : Bool}
    (hpr : w.procs id t = some ⟨n, .check (.ret (s, b))⟩) :
    Evaluation.Agreed max ⟨id, t, n, w.steps, s, b⟩ := by
  by_cases hkey : id ∈ w.workers ∧ t = w.entered id
  · obtain ⟨hid, rfl⟩ := hkey
    obtain ⟨_, hm⟩ := h.member hid hpr
    obtain ⟨-, hc, hmem, hp, rfl, -⟩ := hm.check
    exact ⟨hp, hc.symm, ElasticState.finished_iff hmem hp⟩
  · exact nomatch h.removed hpr hkey

theorem agreed_of_reach {sess : SessionInfo} (h : Reach max (ElasticWorld.start max sess) w) :
    ∀ e ∈ w.log, e.Agreed max := by
  induction h with
  | refl => exact fun e he => absurd he List.not_mem_nil
  | tail hreach hstep ih =>
      cases hstep with
      | check hpr =>
          intro e he
          rcases List.mem_cons.mp he with rfl | he
          · exact (Inv.reach hreach).agreed hpr
          · exact ih e he
      | next => exact ih
      | sync => exact ih
      | resize => exact ih

/-- No process loses progress. -/
theorem Inv.progress_le (h : w.Inv max) (hstep : Step max w w') {id : PeerId} {t : ℕ}
    {pr : ElasticProcess} (hpr : w.procs id t = some pr) :
    ∃ pr', w'.procs id t = some pr' ∧ pr.phase.state.progress ≤ pr'.phase.state.progress := by
  have hset : ∀ {id' t' q q'}, w.procs id' t' = some q →
      q.phase.state.progress ≤ q'.phase.state.progress →
      ∃ pr', (w.set id' t' q').procs id t = some pr' ∧
        pr.phase.state.progress ≤ pr'.phase.state.progress := by
    intro id' t' q q' hq hle
    by_cases hkey : id = id' ∧ t = t'
    · obtain ⟨rfl, rfl⟩ := hkey
      obtain rfl : pr = q := Option.some.inj (hpr.symm.trans hq)
      exact ⟨q', set_self .., hle⟩
    · exact ⟨pr, (set_of_ne w q' hkey).trans hpr, Int64.le_refl _⟩
  cases hstep with
  | @check id' t' n s b hq =>
      have hle : s.progress ≤
          (if b then ElasticPhase.done s else .step s.increment).state.progress := by
        split
        · exact Int64.le_refl _
        · exact ElasticPhase.le_increment
      exact hset hq hle
  | next hq =>
      refine hset hq ?_
      rw [ElasticPhase.state_shouldStop]
      exact Int64.le_refl _
  | sync hmeets hle hmax =>
      by_cases hkey : id ∈ w.workers ∧ t = w.entered id
      · obtain ⟨hid, rfl⟩ := hkey
        obtain ⟨_, hm⟩ := h.member hid hpr
        obtain ⟨-, q, hq, hres⟩ := hmeets id hid
        obtain rfl : pr = q := Option.some.inj (hpr.symm.trans hq)
        refine ⟨_, resume_member hid hpr, ?_⟩
        rw [(hm.sync hres (h.maximum hmeets hle hmax)).2, hres.state_eq]
        exact hle id hid
      · exact ⟨pr, (resume_other _ hkey).trans hpr, Int64.le_refl _⟩
  | @resize obj phase round config kept new hmeets hold hnew hsess =>
      have hcluster := SessionInfo.cluster_goOver hnew hsess
      by_cases hid : id ∈ w.workers
      · rw [(enter_stays (w := w.resume phase) hid t).2]
        by_cases ht : t = w.entered id
        · subst ht
          obtain ⟨_, hm⟩ := h.member hid hpr
          obtain ⟨-, q, hq, hres⟩ := hmeets id hid
          obtain rfl : pr = q := Option.some.inj (hpr.symm.trans hq)
          refine ⟨_, resume_member hid hpr, ?_⟩
          have hsame : (phase id).state.progress = (obj id).progress := by
            by_cases hkeep : id ∈ config.workers
            · exact (hm.keep hid hkeep hres).2.1
            · exact (hm.remove hid hkeep hres).2
          rw [hsame, hres.state_eq]
          exact Int64.le_refl _
        · exact ⟨pr, (resume_other phase fun hk => ht hk.2).trans hpr, Int64.le_refl _⟩
      · -- a process that enters has a number of its own
        have ht : t ≠ w.steps + 1 := by
          have hle := h.entered_le hpr
          omega
        refine ⟨pr, ?_, Int64.le_refl _⟩
        rw [← hpr, ← resume_other (w := w) phase fun hk => hid hk.1]
        exact if_neg fun hk => ht hk.2

/-- **Elastic progress is agreed on and never lost.** -/
theorem progress_agreed (max : Option Int64) (sess : SessionInfo) (w : ElasticWorld)
    (h : Reach max (ElasticWorld.start max sess) w) :
    (∀ e ∈ w.log, e.Agreed max) ∧
      (∀ e ∈ w.log, ∀ e' ∈ w.log, e.steps = e'.steps →
        e.state.progress = e'.state.progress ∧ e.answer = e'.answer) ∧
      ∀ w', Step max w w' → ∀ id t pr, w.procs id t = some pr →
        ∃ pr', w'.procs id t = some pr' ∧
          pr.phase.state.progress ≤ pr'.phase.state.progress := by
  have hlog := agreed_of_reach h
  refine ⟨hlog, ?_, ?_⟩
  · intro e he e' he' hsteps
    exact (hlog e he).same (hlog e' he') hsteps
  · intro w' hstep id t pr hpr
    exact (Inv.reach h).progress_le hstep hpr

/-- Two workers. -/
def pair : SessionInfo :=
  ⟨0, ⟨[], [⟨2130706433, 10000⟩, ⟨2130706433, 10001⟩]⟩, by decide, by decide, by decide⟩

/-- The session of a config that keeps the first of them and has another worker. -/
def pairNext : SessionInfo :=
  ⟨1, ⟨[], [⟨2130706433, 10000⟩, ⟨2130706433, 10002⟩]⟩, by decide, by decide, by decide⟩

/-- Both workers make a step, the second one is removed and a third one enters, and then the first
and the third evaluate `should_stop`. -/
theorem reach_pairNext : ∃ w, Reach none (ElasticWorld.start none pair) w ∧
    ∃ e ∈ w.log, ∃ e' ∈ w.log, e.worker = ⟨2130706433, 10000⟩ ∧ e.incs = 1 ∧
      e'.worker = ⟨2130706433, 10002⟩ ∧ e'.entered = 1 := by
  let s : ElasticState := .new none (pair.version, pair.cluster)
  let s₀ := s.synchronised 0
  have hinc : s₀.increment = _ := ElasticState.increment_of_synced rfl (by decide)
  have hres : ∀ r, ElasticPhase.Resumes (.step s₀.increment) (.resize s₀.advanced) r
      (.step (.ret (s₀.advanced.resized r))) := by
    intro r
    rw [hinc]
    exact .step
  have h₁ : Reach none (ElasticWorld.start none pair) _ :=
    .single (@Step.sync none _ (fun _ => s) 0 (fun _ => .check (.ret (s₀, false)))
      (fun id hid => ⟨rfl, fresh none pair, if_pos ⟨hid, rfl⟩, .check⟩)
      (fun _ _ => Int64.le_refl _) ⟨⟨2130706433, 10000⟩, List.mem_cons_self, rfl⟩)
  have h₂ := h₁.tail (@Step.check none _ ⟨2130706433, 10000⟩ 0 0 s₀ false rfl)
  have h₃ := h₂.tail (@Step.check none _ ⟨2130706433, 10001⟩ 0 0 s₀ false rfl)
  -- the first and the second worker after the resize
  let s₁ : PeerId → ElasticState := fun id =>
    s₀.advanced.resized (pair.goOver id 0 pairNext.cluster)
  have h₄ := h₃.tail (@Step.resize none _ (fun _ => s₀.advanced) (fun id => .step (.ret (s₁ id))) 0
    pairNext.cluster ⟨2130706433, 10000⟩ pairNext
    (List.forall_mem_cons.mpr ⟨⟨rfl, ⟨0, .step s₀.increment⟩, rfl, hres _⟩,
      List.forall_mem_singleton.mpr ⟨rfl, ⟨0, .step s₀.increment⟩, rfl, hres _⟩⟩)
    (by decide) (by decide) rfl)
  have h₅ := h₄.tail (@Step.next none _ ⟨2130706433, 10000⟩ 0 0 (s₁ ⟨2130706433, 10000⟩) rfl)
  -- the third worker begins at 0
  let s' : ElasticState := .new none (pairNext.version, pairNext.cluster)
  let obj : PeerId → ElasticState := fun id => if id = ⟨2130706433, 10002⟩ then s' else s₁ id
  have h₆ := h₅.tail (@Step.sync none _ obj 1
    (fun id => .check (.ret ((obj id).synchronised 1, false)))
    (List.forall_mem_cons.mpr ⟨⟨rfl, ⟨1, _⟩, rfl, .check⟩,
      List.forall_mem_singleton.mpr ⟨rfl, ⟨0, _⟩, rfl, .check⟩⟩)
    (List.forall_mem_cons.mpr ⟨by decide, List.forall_mem_singleton.mpr (by decide)⟩)
    ⟨⟨2130706433, 10000⟩, List.mem_cons_self, rfl⟩)
  have h₇ := h₆.tail (@Step.check none _ ⟨2130706433, 10000⟩ 0 1
    ((s₁ ⟨2130706433, 10000⟩).synchronised 1) false rfl)
  have h₈ := h₇.tail (@Step.check none _ ⟨2130706433, 10002⟩ 1 0 (s'.synchronised 1) false rfl)
  exact ⟨_, h₈, _, List.mem_cons_of_mem _ List.mem_cons_self, _, List.mem_cons_self, rfl, rfl, rfl,
    rfl⟩

theorem progress_agreed_pairNext : ∃ w, Reach none (ElasticWorld.start none pair) w ∧
    ∃ e ∈ w.log, ∃ e' ∈ w.log, e.worker = ⟨2130706433, 10000⟩ ∧ e.incs = 1 ∧
      e'.worker = ⟨2130706433, 10002⟩ ∧ e'.entered = 1 ∧ e.Agreed none ∧ e'.Agreed none := by
  obtain ⟨w, hreach, e, he, e', he', hworker, hincs, hworker', hentered⟩ := reach_pairNext
  have hlog := (progress_agreed none pair w hreach).1
  exact ⟨w, hreach, e, he, e', he', hworker, hincs, hworker', hentered, hlog e he, hlog e' he'⟩

end ElasticWorld

end StdmlCollective

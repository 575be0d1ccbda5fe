import Mathlib.Algebra.BigOperators.Group.List.Basic
import Mathlib.Data.List.Basic

/-!
# Task trees

A task is polled until it is finished. `task::seq` polls its children one after the other and keeps
an index, `task::par` polls in every round all its children that are not finished, and keeps a bit
for every child and the number of children that are left. Every poll goes down from the root.

A record of the polls of the leaves shows what has been done: a poll is known by the path from the
root to the leaf, the indices of the children on the way.
-/

namespace StdmlCollective

/-- A poll of a leaf, and whether it has run the function of a `simple_task`. -/
structure Poll where
  path : List ℕ
  ran : Bool
deriving DecidableEq, Repr

/-- A poll of the child `i`. -/
def Poll.under (i : ℕ) (e : Poll) : Poll := ⟨i :: e.path, e.ran⟩

/-- A task: one that is finished after `need` polls, a `simple_task`, a `sequence_tasks`, or a
`parallel_tasks` without a runtime. -/
inductive Task where
  | leaf (need polled : ℕ)
  | simple (finished : Bool)
  | seq (tasks : List Task) (finished : ℕ)
  | par (tasks : List Task) (finished : List Bool) (running : ℕ)

namespace Task

/-- `task::finished`. -/
def finished : Task → Bool
  | .leaf need polled => need ≤ polled
  | .simple finished => finished
  | .seq tasks finished => finished = tasks.length
  | .par _ _ running => running = 0

mutual

/-- `task::poll`. -/
def poll : Task → Task × List Poll
  | .leaf need polled => (.leaf need (polled + 1), [⟨[], false⟩])
  | .simple finished => (.simple true, [⟨[], !finished⟩])
  | .seq tasks finished =>
      if tasks.length ≤ finished then (.seq tasks finished, [])
      else
        let q := pollAt finished tasks
        (.seq q.1 (if q.2.1 then finished + 1 else finished), q.2.2.map (Poll.under finished))
  | .par tasks finished running =>
      if running ≤ 0 then (.par tasks finished running, [])
      else
        let q := pollEach 0 tasks finished running
        (.par q.1 q.2.1 q.2.2.1, q.2.2.2)

/-- Poll one child of a sequence, and see whether it is finished. -/
def pollAt : ℕ → List Task → List Task × Bool × List Poll
  | _, [] => ([], false, [])
  | 0, t :: ts =>
      let q := t.poll
      (q.1 :: ts, q.1.finished, q.2)
  | i + 1, t :: ts =>
      let q := pollAt i ts
      (t :: q.1, q.2)

/-- The loop of `parallel_tasks::poll`, from index `i` on. -/
def pollEach : ℕ → List Task → List Bool → ℕ → List Task × List Bool × ℕ × List Poll
  | i, t :: ts, f :: fs, running =>
      if f then
        let q := pollEach (i + 1) ts fs running
        (t :: q.1, f :: q.2.1, q.2.2)
      else
        let p := t.poll
        let q := pollEach (i + 1) ts fs (if p.1.finished then running - 1 else running)
        (p.1 :: q.1, p.1.finished :: q.2.1, q.2.2.1, p.2.map (Poll.under i) ++ q.2.2.2)
  | _, ts, fs, running => (ts, fs, running, [])

end

/-- `task::finish`, for at most `fuel` rounds. -/
def finish : ℕ → Task → Option (Task × List Poll)
  | 0, _ => none
  | fuel + 1, t =>
      if t.finished then some (t, [])
      else (finish fuel t.poll.1).map fun q => (q.1, t.poll.2 ++ q.2)

/-- The children of a node. -/
def children : Task → List Task
  | .leaf _ _ | .simple _ => []
  | .seq tasks _ | .par tasks _ _ => tasks

/-- The task at the end of a path. -/
def descend : List ℕ → Task → Option Task
  | [], t => some t
  | i :: path, t => t.children[i]?.bind (Task.descend path)

/-- Whether a task is a sequence or parallel tasks. -/
def isNode : Task → Bool
  | .leaf _ _ | .simple _ => false
  | .seq _ _ | .par _ _ _ => true

end Task

/-! ## Trees as they are built -/

/-- A tree: a leaf that is finished after one poll and so many more, a `simple_task`, a sequence,
parallel tasks. -/
inductive TaskPlan where
  | leaf (more : ℕ)
  | simple
  | seq (plans : List TaskPlan)
  | par (plans : List TaskPlan)

namespace TaskPlan

mutual

/-- The tree is built, with `task::seq` and `task::par`. -/
def build : TaskPlan → Task
  | .leaf more => .leaf (more + 1) 0
  | .simple => .simple false
  | .seq plans => .seq (buildAll plans) 0
  | .par plans =>
      let tasks := buildAll plans
      .par tasks (List.replicate tasks.length false) tasks.length

/-- The children are built. -/
def buildAll : List TaskPlan → List Task
  | [] => []
  | p :: ps => p.build :: buildAll ps

end

/-- The children of a node. -/
def children : TaskPlan → List TaskPlan
  | .leaf _ | .simple => []
  | .seq plans | .par plans => plans

/-- The tree at the end of a path. -/
def descend : List ℕ → TaskPlan → Option TaskPlan
  | [], p => some p
  | i :: path, p => p.children[i]?.bind (TaskPlan.descend path)

/-- The polls of a leaf that is run, and whether they run a function. -/
def polls : TaskPlan → Option (List Bool)
  | .leaf more => some (List.replicate (more + 1) false)
  | .simple => some [true]
  | .seq _ | .par _ => none

theorem buildAll_eq (ps : List TaskPlan) : buildAll ps = ps.map build := by
  induction ps with
  | nil => rfl
  | cons p ps ih => rw [buildAll, ih, List.map_cons]

/-- A task that is finished when it is built has no leaves. -/
theorem isNode_build {p : TaskPlan} (h : p.build.finished) : p.build.isNode := by
  cases p with
  | leaf more => simp [build, Task.finished] at h
  | simple => cases h
  | seq ps => rfl
  | par ps => rfl

end TaskPlan

mutual

/-- The tree from which a task has come about. -/
def Task.plan : Task → TaskPlan
  | .leaf need _ => .leaf (need - 1)
  | .simple _ => .simple
  | .seq tasks _ => .seq (planAll tasks)
  | .par tasks _ _ => .par (planAll tasks)

/-- The trees of the children. -/
def Task.planAll : List Task → List TaskPlan
  | [] => []
  | t :: ts => t.plan :: planAll ts

end

theorem Task.planAll_eq (ts : List Task) : planAll ts = ts.map plan := by
  induction ts with
  | nil => rfl
  | cons t ts ih => rw [planAll, ih, List.map_cons]

/-! ## Records -/

/-- The child to which a poll belongs. -/
def Poll.child (e : Poll) : ℕ := e.path.headD 0

/-- A poll as the child `i` sees it. -/
def Poll.below? (i : ℕ) (e : Poll) : Option Poll :=
  match e.path with
  | [] => none
  | j :: path => if j = i then some ⟨path, e.ran⟩ else none

/-- The polls of the child `i`. -/
def recordOf (i : ℕ) (log : List Poll) : List Poll := log.filterMap (Poll.below? i)

/-- The polls below the task at the end of a path. -/
def recordAt : List ℕ → List Poll → List Poll
  | [], log => log
  | i :: path, log => recordAt path (recordOf i log)

/-- The polls of the leaf at the end of a path. -/
def pollsAt (path : List ℕ) (log : List Poll) : List Bool :=
  (log.filter (·.path = path)).map Poll.ran

section Record

variable {i j : ℕ} {log log' : List Poll} {path : List ℕ} {e : Poll}

@[simp] theorem recordOf_nil : recordOf i [] = [] := rfl

@[simp] theorem recordOf_append : recordOf i (log ++ log') = recordOf i log ++ recordOf i log' :=
  List.filterMap_append

theorem recordOf_under : recordOf i (log.map (Poll.under i)) = log := by
  rw [recordOf, List.filterMap_map]
  exact (List.filterMap_congr fun e _ => if_pos rfl).trans List.filterMap_some

theorem recordOf_under_ne (h : j ≠ i) : recordOf i (log.map (Poll.under j)) = [] := by
  rw [recordOf, List.filterMap_map, List.filterMap_eq_nil_iff]
  exact fun e _ => if_neg h

theorem recordOf_eq_nil (h : ∀ e ∈ log, e.child ≠ i) : recordOf i log = [] := by
  rw [recordOf, List.filterMap_eq_nil_iff]
  intro e he
  have hne := h e he
  rw [Poll.below?]
  split
  · rfl
  · next j path hpath =>
      rw [Poll.child, hpath] at hne
      exact if_neg hne

theorem mem_recordOf (h : e ∈ log) (hpath : e.path = i :: path) :
    (⟨path, e.ran⟩ : Poll) ∈ recordOf i log := by
  refine List.mem_filterMap.mpr ⟨e, h, ?_⟩
  rw [Poll.below?, hpath]
  exact if_pos rfl

@[simp] theorem recordAt_append :
    recordAt path (log ++ log') = recordAt path log ++ recordAt path log' := by
  induction path generalizing log log' with
  | nil => rfl
  | cons i path ih => rw [recordAt, recordOf_append, ih, recordAt, recordAt]

theorem mem_recordAt {rest : List ℕ} (h : e ∈ log) (hpath : e.path = path ++ rest) :
    (⟨rest, e.ran⟩ : Poll) ∈ recordAt path log := by
  induction path generalizing log e with
  | nil =>
      obtain ⟨_, ran⟩ := e
      obtain rfl : _ = rest := hpath
      exact h
  | cons i path ih => exact ih (e := ⟨path ++ rest, e.ran⟩) (mem_recordOf h hpath) rfl

theorem pollsAt_append : pollsAt path (log ++ log') = pollsAt path log ++ pollsAt path log' := by
  rw [pollsAt, List.filter_append, List.map_append]
  rfl

theorem pollsAt_cons : pollsAt (i :: path) log = pollsAt path (recordOf i log) := by
  induction log with
  | nil => rfl
  | cons e log ih =>
      have hsplit : pollsAt (i :: path) (e :: log) = pollsAt (i :: path) [e] ++
          pollsAt (i :: path) log := by
        rw [← pollsAt_append]
        rfl
      have hsplit' : recordOf i (e :: log) = recordOf i [e] ++ recordOf i log := by
        rw [← recordOf_append]
        rfl
      rw [hsplit, hsplit', pollsAt_append, ih, List.append_cancel_right_eq]
      obtain ⟨p, ran⟩ := e
      cases p with
      | nil => rfl
      | cons j p =>
          by_cases hj : j = i
          · by_cases hp : p = path <;> simp [pollsAt, recordOf, Poll.below?, hj, hp]
          · simp [pollsAt, recordOf, Poll.below?, hj]

theorem pollsAt_eq : pollsAt path log = pollsAt [] (recordAt path log) := by
  induction path generalizing log with
  | nil => rfl
  | cons i path ih => rw [pollsAt_cons, ih, recordAt]

end Record

/-! ## One poll -/

namespace Task

variable {t : Task} {ts : List Task} {fs : List Bool} {i j running : ℕ}

/-- A node that is finished is not changed. -/
theorem poll_of_finished (hnode : t.isNode) (h : t.finished) : t.poll = (t, []) := by
  cases t with
  | leaf | simple => cases hnode
  | seq tasks k =>
      have hk : k = tasks.length := of_decide_eq_true h
      rw [poll, if_pos (Nat.le_of_eq hk.symm)]
  | par tasks fs running =>
      have hr : running = 0 := of_decide_eq_true h
      rw [poll, if_pos (Nat.le_of_eq hr)]

theorem pollAt_eq (h : ts[i]? = some t) :
    pollAt i ts = (ts.set i t.poll.1, t.poll.1.finished, t.poll.2) := by
  induction ts generalizing i with
  | nil => cases h
  | cons u ts ih =>
      cases i with
      | zero =>
          obtain rfl := Option.some.inj h
          rfl
      | succ i =>
          rw [pollAt, ih h]
          rfl

/-- What the loop of `parallel_tasks::poll` does with the child `i`: nothing when it is finished,
and otherwise a poll. -/
structure Polled (t : Task) (f : Bool) (t' : Task) (f' : Bool) (record : List Poll) : Prop where
  task : t' = if f then t else t.poll.1
  flag : f' = (f || t.poll.1.finished)
  record : record = if f then [] else t.poll.2

/-- What the loop of `parallel_tasks::poll` does, from index `i` on. -/
structure PolledEach (i : ℕ) (ts : List Task) (fs : List Bool) (running : ℕ)
    (q : List Task × List Bool × ℕ × List Poll) : Prop where
  tasks : q.1.length = ts.length
  flags : q.2.1.length = fs.length
  each : ∀ j t f, ts[j]? = some t → fs[j]? = some f →
    ∃ t' f', q.1[j]? = some t' ∧ q.2.1[j]? = some f' ∧ Polled t f t' f' (recordOf (i + j) q.2.2.2)
  inside : ∀ e ∈ q.2.2.2, e.path ≠ [] ∧ i ≤ e.child ∧ e.child < i + ts.length
  running : fs.count false ≤ running →
    q.2.2.1 + fs.count false = running + q.2.1.count false

/-- The child `i`, and then the others. -/
theorem PolledEach.cons {q : List Task × List Bool × ℕ × List Poll} {f : Bool} {t' : Task} {r : ℕ}
    {f' : Bool} {head : List Poll} (h : PolledEach (i + 1) ts fs r q)
    (hhead : Polled t f t' f' head)
    (hr : r = if f || !f' then running else running - 1) :
    PolledEach i (t :: ts) (f :: fs) running
      (t' :: q.1, f' :: q.2.1, q.2.2.1, head.map (Poll.under i) ++ q.2.2.2) where
  tasks := congrArg (· + 1) h.tasks
  flags := congrArg (· + 1) h.flags
  each := by
    intro j u g hu hg
    cases j with
    | zero =>
        obtain rfl := Option.some.inj hu
        obtain rfl := Option.some.inj hg
        refine ⟨t', f', rfl, rfl, ?_⟩
        have htail : recordOf i q.2.2.2 = [] :=
          recordOf_eq_nil fun e he => Nat.ne_of_gt (h.inside e he).2.1
        rwa [Nat.add_zero, recordOf_append, htail, List.append_nil, recordOf_under]
    | succ j =>
        obtain ⟨u', g', hu', hg', hp⟩ := h.each j u g hu hg
        refine ⟨u', g', hu', hg', ?_⟩
        rwa [recordOf_append, recordOf_under_ne (by omega), List.nil_append,
          ← Nat.add_assoc, Nat.add_right_comm]
  inside := by
    intro e he
    rcases List.mem_append.mp he with he | he
    · obtain ⟨e', -, rfl⟩ := List.mem_map.mp he
      exact ⟨nofun, Nat.le_refl i, by simp [Poll.under, Poll.child]⟩
    · obtain ⟨hne, hle, hlt⟩ := h.inside e he
      refine ⟨hne, by omega, ?_⟩
      rw [List.length_cons]
      omega
  running := by
    intro hle
    have hflag := hhead.flag
    have hrun := h.running
    cases f with
    | true =>
        obtain rfl : f' = true := hflag
        obtain rfl : r = running := hr
        simp only [List.count_cons, beq_false, Bool.not_true, Bool.false_eq_true, if_false,
          Nat.add_zero] at hle ⊢
        exact hrun hle
    | false =>
        simp only [List.count_cons_self] at hle ⊢
        cases f' with
        | true =>
            obtain rfl : r = running - 1 := hr
            have heq := hrun (by omega)
            rw [List.count_cons_of_ne (by decide)]
            omega
        | false =>
            obtain rfl : r = running := hr
            have heq := hrun (by omega)
            rw [List.count_cons_self]
            omega

theorem polledEach (i : ℕ) (h : ts.length = fs.length) (running : ℕ) :
    PolledEach i ts fs running (pollEach i ts fs running) := by
  induction ts generalizing i fs running with
  | nil =>
      obtain rfl := List.length_eq_zero_iff.mp h.symm
      exact ⟨rfl, rfl, nofun, nofun, fun _ => rfl⟩
  | cons t ts ih =>
      cases fs with
      | nil => cases h
      | cons f fs =>
          have htail : ∀ r, PolledEach (i + 1) ts fs r (pollEach (i + 1) ts fs r) :=
            ih (i + 1) (Nat.succ.inj h)
          rw [pollEach]
          cases f with
          | true =>
              have hhead : Polled t true t true [] := ⟨rfl, rfl, rfl⟩
              exact (htail running).cons hhead rfl
          | false =>
              refine (htail _).cons ⟨rfl, rfl, rfl⟩ ?_
              cases t.poll.1.finished <;> rfl

/-- A child after the round comes from a child before it. -/
theorem PolledEach.exists_before {q : List Task × List Bool × ℕ × List Poll} {t' : Task}
    (h : PolledEach i ts fs running q) (hlen : ts.length = fs.length) (ht' : q.1[j]? = some t') :
    ∃ t f f', ts[j]? = some t ∧ fs[j]? = some f ∧ q.2.1[j]? = some f' ∧
      Polled t f t' f' (recordOf (i + j) q.2.2.2) := by
  have hj := (List.getElem?_eq_some_iff.mp ht').1
  rw [h.tasks] at hj
  have ht := List.getElem?_eq_getElem hj
  have hf := List.getElem?_eq_getElem (l := fs) (i := j) (by omega)
  obtain ⟨u, f', hu, hf', hp⟩ := h.each j _ _ ht hf
  rw [ht'] at hu
  obtain rfl := Option.some.inj hu
  exact ⟨_, _, f', ht, hf, hf', hp⟩

end Task

/-! ## What has been done -/

/-- A child that may be polled: it is not finished, or it is as it was built. -/
def Pollable (p : TaskPlan) (t : Task) : Prop := t.finished = false ∨ t = p.build

/-- The children of a sequence at index `k`: those before it are finished and those behind it are
as they were built, and the record has the polls of the children one after the other. -/
structure SeqRuns (ps : List TaskPlan) (ts : List Task) (k : ℕ) (log : List Poll) : Prop where
  length : ts.length = ps.length
  le : k ≤ ps.length
  done : ∀ (i : ℕ) (t : Task), i < k → ts[i]? = some t → t.finished
  current : ∀ p t, ps[k]? = some p → ts[k]? = some t → Pollable p t
  fresh : ∀ i p t, k < i → ps[i]? = some p → ts[i]? = some t → t = p.build
  inside : ∀ e ∈ log, e.path ≠ [] ∧ e.child < ps.length ∧ e.child ≤ k
  order : log.Pairwise fun a b => a.child ≤ b.child

/-- The children of parallel tasks: those whose bit is set are finished. -/
structure ParRuns (ps : List TaskPlan) (ts : List Task) (fs : List Bool) (running : ℕ)
    (log : List Poll) : Prop where
  length : ts.length = ps.length
  flags : fs.length = ps.length
  running : running = fs.count false
  done : ∀ (i : ℕ) (t : Task), ts[i]? = some t → fs[i]? = some true → t.finished
  current : ∀ (i : ℕ) (p : TaskPlan) (t : Task), ps[i]? = some p → ts[i]? = some t →
    fs[i]? = some false → Pollable p t
  inside : ∀ e ∈ log, e.path ≠ [] ∧ e.child < ps.length

/-- `TaskRun p t log`: the polls that are recorded have made the task `t` of the tree `p`. -/
inductive TaskRun : TaskPlan → Task → List Poll → Prop where
  | leaf {more k : ℕ} : k ≤ more + 1 →
      TaskRun (.leaf more) (.leaf (more + 1) k) (List.replicate k ⟨[], false⟩)
  | simple {finished : Bool} :
      TaskRun .simple (.simple finished) (if finished then [⟨[], true⟩] else [])
  | seq {ps : List TaskPlan} {ts : List Task} {k : ℕ} {log : List Poll} :
      SeqRuns ps ts k log →
      (∀ i p t, ps[i]? = some p → ts[i]? = some t → TaskRun p t (recordOf i log)) →
      TaskRun (.seq ps) (.seq ts k) log
  | par {ps : List TaskPlan} {ts : List Task} {fs : List Bool} {running : ℕ} {log : List Poll} :
      ParRuns ps ts fs running log →
      (∀ i p t, ps[i]? = some p → ts[i]? = some t → TaskRun p t (recordOf i log)) →
      TaskRun (.par ps) (.par ts fs running) log

section TaskRun

variable {p : TaskPlan} {t : Task} {ps : List TaskPlan} {ts : List Task} {fs : List Bool}
  {k running : ℕ} {log : List Poll}

theorem Pollable.isNode (h : Pollable p t) (hf : t.finished) : t.isNode := by
  rcases h with h | rfl
  · rw [h] at hf
    cases hf
  · exact TaskPlan.isNode_build hf

/-- A poll of the current child of a sequence. -/
theorem SeqRuns.poll (h : SeqRuns ps ts k log) (hk : k < ts.length) (t : Task) :
    SeqRuns ps (ts.set k t.poll.1) (if t.poll.1.finished then k + 1 else k)
      (log ++ t.poll.2.map (Poll.under k)) where
  length := by rw [List.length_set, h.length]
  le := by
    have hlen := h.length
    split <;> omega
  done := by
    intro i u hi hu
    rw [List.getElem?_set] at hu
    split at hu
    · next heq =>
        obtain rfl := heq
        obtain rfl := Option.some.inj hu
        by_contra hnot
        rw [if_neg hnot] at hi
        exact Nat.lt_irrefl _ hi
    · next hne =>
        refine h.done i u ?_ hu
        split at hi <;> omega
  current := by
    intro p u hp hu
    by_cases hfin : t.poll.1.finished
    · rw [if_pos hfin] at hp hu
      rw [List.getElem?_set_ne (by omega)] at hu
      exact .inr (h.fresh (k + 1) p u (by omega) hp hu)
    · rw [if_neg hfin, List.getElem?_set_self hk] at hu
      obtain rfl := Option.some.inj hu
      exact .inl (Bool.not_eq_true _ ▸ hfin)
  fresh := by
    intro i p u hi hp hu
    have hlt : k < i := by split at hi <;> omega
    rw [List.getElem?_set_ne (by omega)] at hu
    exact h.fresh i p u hlt hp hu
  inside := by
    intro e he
    rcases List.mem_append.mp he with he | he
    · obtain ⟨hne, hlt, hle⟩ := h.inside e he
      refine ⟨hne, hlt, ?_⟩
      split <;> omega
    · obtain ⟨e', -, rfl⟩ := List.mem_map.mp he
      have hlen := h.length
      refine ⟨nofun, ?_, ?_⟩
      · simp only [Poll.under, Poll.child, List.headD_cons]
        omega
      · simp only [Poll.under, Poll.child, List.headD_cons]
        split <;> omega
  order := by
    refine List.pairwise_append.mpr ⟨h.order, ?_, ?_⟩
    · exact List.pairwise_map.mpr (List.pairwise_of_forall fun _ _ => Nat.le_refl k)
    · intro a ha b hb
      obtain ⟨b', -, rfl⟩ := List.mem_map.mp hb
      exact (h.inside a ha).2.2

/-- A round over the children of parallel tasks. -/
theorem ParRuns.poll (h : ParRuns ps ts fs running log)
    {q : List Task × List Bool × ℕ × List Poll} (hq : Task.PolledEach 0 ts fs running q) :
    ParRuns ps q.1 q.2.1 q.2.2.1 (log ++ q.2.2.2) := by
  have hlen := h.length
  have hflags := h.flags
  have hsame : ts.length = fs.length := hlen.trans hflags.symm
  refine ⟨hq.tasks.trans hlen, hq.flags.trans hflags, ?_, ?_, ?_, ?_⟩
  · have hrun := hq.running (Nat.le_of_eq h.running.symm)
    have hold := h.running
    omega
  · intro i t' ht' hf'
    obtain ⟨t, f, f', ht, hf, hg, hp⟩ := hq.exists_before hsame ht'
    rw [hf'] at hg
    obtain rfl := Option.some.inj hg
    have htask := hp.task
    cases f with
    | true =>
        rw [htask]
        exact h.done i t ht hf
    | false =>
        rw [htask]
        exact hp.flag.symm
  · intro i p t' hps ht' hf'
    obtain ⟨t, f, f', ht, hf, hg, hp⟩ := hq.exists_before hsame ht'
    rw [hf'] at hg
    obtain rfl := Option.some.inj hg
    have htask := hp.task
    have hflag := hp.flag
    cases f with
    | true => cases hflag
    | false =>
        rw [htask]
        exact .inl hflag.symm
  · intro e he
    rcases List.mem_append.mp he with he | he
    · exact h.inside e he
    · obtain ⟨hne, -, hlt⟩ := hq.inside e he
      exact ⟨hne, by omega⟩

/-- **One poll.** -/
theorem TaskRun.poll (h : TaskRun p t log) (hnode : t.finished → t.isNode) :
    TaskRun p t.poll.1 (log ++ t.poll.2) := by
  induction h with
  | @leaf more k hk =>
      have hlt : k ≤ more := by
        by_contra hgt
        have hfin : (Task.leaf (more + 1) k).finished := decide_eq_true (by omega)
        cases hnode hfin
      rw [Task.poll, ← List.replicate_succ']
      exact .leaf (Nat.succ_le_succ hlt)
  | @simple finished =>
      cases finished with
      | true => cases hnode rfl
      | false => exact @TaskRun.simple true
  | @seq ps ts k log hs hkids ih =>
      rw [Task.poll]
      split
      · rw [List.append_nil]
        exact .seq hs hkids
      · next hk =>
          have hlt : k < ts.length := Nat.lt_of_not_le hk
          have ht := List.getElem?_eq_getElem hlt
          rw [Task.pollAt_eq ht]
          refine .seq (hs.poll hlt _) ?_
          intro i q u hq hu
          rw [recordOf_append]
          by_cases hi : k = i
          · subst hi
            rw [List.getElem?_set_self hlt] at hu
            obtain rfl := Option.some.inj hu
            rw [recordOf_under]
            exact ih k q _ hq ht (hs.current q _ hq ht).isNode
          · rw [List.getElem?_set_ne hi] at hu
            rw [recordOf_under_ne hi, List.append_nil]
            exact hkids i q u hq hu
  | @par ps ts fs running log hs hkids ih =>
      rw [Task.poll]
      split
      · rw [List.append_nil]
        exact .par hs hkids
      · have hsame := hs.length.trans hs.flags.symm
        have hq := Task.polledEach 0 hsame running
        refine .par (hs.poll hq) ?_
        intro i q u' hps hu'
        obtain ⟨u, f, f', hu, hf, -, hp⟩ := hq.exists_before hsame hu'
        rw [Nat.zero_add] at hp
        rw [recordOf_append, hp.record, hp.task]
        cases f with
        | true =>
            rw [if_pos rfl, if_pos rfl, List.append_nil]
            exact hkids i q u hps hu
        | false => exact ih i q u hps hu (hs.current i q u hps hu hf).isNode

/-- Induction over a tree and its children. -/
theorem TaskPlan.induction {motive : TaskPlan → Prop} (leaf : ∀ more, motive (.leaf more))
    (simple : motive .simple) (seq : ∀ ps, (∀ p ∈ ps, motive p) → motive (.seq ps))
    (par : ∀ ps, (∀ p ∈ ps, motive p) → motive (.par ps)) (p : TaskPlan) : motive p := by
  refine @TaskPlan.rec motive (fun ps => ∀ p ∈ ps, motive p) leaf simple seq par ?_ ?_ p
  · exact fun _ hp => absurd hp List.not_mem_nil
  · intro p ps hp hps q hq
    rcases List.mem_cons.mp hq with rfl | hq
    · exact hp
    · exact hps q hq

/-- The children as they are built. -/
theorem TaskPlan.eq_build (hp : ps[k]? = some p) (ht : (buildAll ps)[k]? = some t) :
    t = p.build := by
  rw [buildAll_eq, List.getElem?_map, hp] at ht
  exact (Option.some.inj ht).symm

/-- Nothing has been done. -/
theorem TaskPlan.runs_build (p : TaskPlan) : TaskRun p p.build [] := by
  induction p using TaskPlan.induction with
  | leaf more => exact .leaf (k := 0) (Nat.zero_le _)
  | simple => exact @TaskRun.simple false
  | seq ps ih =>
      have hlen : (buildAll ps).length = ps.length := by rw [buildAll_eq, List.length_map]
      refine .seq ⟨hlen, Nat.zero_le _, nofun, ?_, ?_, nofun, .nil⟩ ?_
      · exact fun p t hp ht => .inr (eq_build hp ht)
      · exact fun i p t _ hp ht => eq_build hp ht
      · intro i p t hp ht
        rw [eq_build hp ht]
        exact ih p (List.mem_of_getElem? hp)
  | par ps ih =>
      have hlen : (buildAll ps).length = ps.length := by rw [buildAll_eq, List.length_map]
      refine .par ⟨hlen, ?_, ?_, ?_, ?_, nofun⟩ ?_
      · rw [List.length_replicate, hlen]
      · rw [List.count_replicate_self]
      · intro i t _ hf
        exact absurd (List.eq_of_mem_replicate (List.mem_of_getElem? hf)) (by decide)
      · exact fun i p t hp ht _ => .inr (eq_build hp ht)
      · intro i p t hp ht
        rw [eq_build hp ht]
        exact ih p (List.mem_of_getElem? hp)

/-! ## The end -/

namespace Task

mutual

/-- A bound on the number of polls that are left. -/
def left : Task → ℕ
  | .leaf need polled => need - polled
  | .simple finished => if finished then 0 else 1
  | .seq tasks finished => leftAll tasks + (tasks.length - finished)
  | .par tasks _ running => leftAll tasks + running

/-- The sum over the children. -/
def leftAll : List Task → ℕ
  | [] => 0
  | t :: ts => t.left + leftAll ts

end

theorem leftAll_set (h : ts[k]? = some t) (u : Task) :
    leftAll (ts.set k u) + t.left = leftAll ts + u.left := by
  induction ts generalizing k with
  | nil => cases h
  | cons v ts ih =>
      cases k with
      | zero =>
          obtain rfl := Option.some.inj h
          simp only [List.set_cons_zero, leftAll]
          omega
      | succ k =>
          have hrest := ih h
          simp only [List.set_cons_succ, leftAll]
          omega

/-- Every child has a poll less to go, or one when it is not done. -/
theorem leftAll_le {ts' : List Task} (hts : ts'.length = ts.length) (hfs : fs.length = ts.length)
    (h : ∀ (i : ℕ) (t t' : Task) (f : Bool), ts[i]? = some t → ts'[i]? = some t' →
      fs[i]? = some f → t'.left + (if f then 0 else 1) ≤ t.left) :
    leftAll ts' + fs.count false ≤ leftAll ts := by
  induction ts generalizing ts' fs with
  | nil =>
      rw [List.length_eq_zero_iff.mp hts, List.length_eq_zero_iff.mp hfs]
      exact Nat.le_refl 0
  | cons t ts ih =>
      obtain ⟨t', ts', rfl⟩ := List.exists_cons_of_length_eq_add_one hts
      obtain ⟨f, fs, rfl⟩ := List.exists_cons_of_length_eq_add_one hfs
      have hhead := h 0 t t' f rfl rfl rfl
      have htail := ih (Nat.succ.inj hts) (Nat.succ.inj hfs) fun i => h (i + 1)
      simp only [leftAll]
      cases f with
      | true =>
          rw [List.count_cons_of_ne (by decide)]
          simp only [if_true] at hhead
          omega
      | false =>
          rw [List.count_cons_self]
          simp only [Bool.false_eq_true, if_false] at hhead
          omega

end Task

/-- A poll of a child brings it closer to its end, when it is not there yet. -/
theorem Pollable.left_poll (h : Pollable p t)
    (hlt : t.finished = false → t.poll.1.left < t.left) :
    t.poll.1.left + (if t.poll.1.finished then 0 else 1) ≤ t.left := by
  cases hf : t.finished with
  | false =>
      have hless := hlt hf
      split <;> omega
  | true =>
      rw [Task.poll_of_finished (h.isNode hf) hf, if_pos hf]
      exact Nat.le_refl _

theorem TaskRun.left_poll_lt (h : TaskRun p t log) (hf : t.finished = false) :
    t.poll.1.left < t.left := by
  induction h with
  | @leaf more k hk =>
      have hlt : ¬more + 1 ≤ k := of_decide_eq_false hf
      simp only [Task.poll, Task.left]
      omega
  | @simple finished =>
      obtain rfl : finished = false := hf
      exact Nat.one_pos
  | @seq ps ts k log hs hkids ih =>
      have hne : k ≠ ts.length := of_decide_eq_false hf
      have hlen := hs.length
      have hle := hs.le
      have hlt : k < ts.length := by omega
      have ht := List.getElem?_eq_getElem hlt
      have hp := List.getElem?_eq_getElem (l := ps) (i := k) (by omega)
      have hset := Task.leftAll_set ht ts[k].poll.1
      have hchild := (hs.current _ _ hp ht).left_poll (ih k _ _ hp ht)
      rw [Task.poll, if_neg (by omega), Task.pollAt_eq ht]
      simp only [Task.left, List.length_set]
      cases hfin : ts[k].poll.1.finished with
      | true =>
          rw [if_pos rfl]
          rw [hfin, if_pos rfl] at hchild
          omega
      | false =>
          rw [if_neg Bool.false_ne_true]
          rw [hfin, if_neg Bool.false_ne_true] at hchild
          omega
  | @par ps ts fs running log hs hkids ih =>
      have hpos : running ≠ 0 := of_decide_eq_false hf
      have hsame := hs.length.trans hs.flags.symm
      have hq := Task.polledEach 0 hsame running
      have hrun := (hs.poll hq).running
      have hle : Task.leftAll (Task.pollEach 0 ts fs running).1 +
          (Task.pollEach 0 ts fs running).2.1.count false ≤ Task.leftAll ts := by
        refine Task.leftAll_le hq.tasks (hq.flags.trans hsame.symm) ?_
        intro i u u' g hu hu' hg
        obtain ⟨v, f, f', hv, hfs, hf', hp⟩ := hq.exists_before hsame hu'
        rw [hu] at hv
        rw [hg] at hf'
        obtain rfl := Option.some.inj hv
        obtain rfl := Option.some.inj hf'
        rw [hp.task, hp.flag]
        cases f with
        | true => exact Nat.le_refl _
        | false =>
            have hi := (List.getElem?_eq_some_iff.mp hu).1
            have hps := List.getElem?_eq_getElem (l := ps) (i := i) (hs.length ▸ hi)
            exact (hs.current i _ u hps hu hfs).left_poll (ih i _ u hps hu)
      rw [Task.poll, if_neg (by omega)]
      simp only [Task.left]
      omega

/-- `task::finish` comes to an end. -/
theorem TaskRun.finish (h : TaskRun p t log) :
    ∃ t' log', t'.finished ∧ TaskRun p t' (log ++ log') ∧
      ∀ fuel, t.left < fuel → Task.finish fuel t = some (t', log') := by
  generalize hn : t.left = n
  induction n using Nat.strongRecOn generalizing t log with
  | ind n ih =>
      cases hf : t.finished with
      | true =>
          refine ⟨t, [], hf, by rwa [List.append_nil], ?_⟩
          intro fuel hfuel
          obtain ⟨fuel, rfl⟩ := Nat.exists_eq_add_one_of_ne_zero (Nat.ne_zero_of_lt hfuel)
          rw [Task.finish, if_pos hf]
      | false =>
          have hlt := h.left_poll_lt hf
          obtain ⟨t', log', hdone, hruns, hfinish⟩ :=
            ih _ (hn ▸ hlt) (h.poll fun htrue => by rw [hf] at htrue; cases htrue) rfl
          refine ⟨t', t.poll.2 ++ log', hdone, by rwa [← List.append_assoc], ?_⟩
          intro fuel hfuel
          obtain ⟨fuel, rfl⟩ := Nat.exists_eq_add_one_of_ne_zero (Nat.ne_zero_of_lt hfuel)
          rw [Task.finish, if_neg (by rw [hf]; exact Bool.false_ne_true),
            hfinish fuel (by omega)]
          rfl

/-! ## Every leaf once and in order -/

theorem TaskRun.child {q : TaskPlan} {i : ℕ} (h : TaskRun p t log) (hq : p.children[i]? = some q) :
    ∃ u, t.children[i]? = some u ∧ TaskRun q u (recordOf i log) ∧ (t.finished → u.finished) := by
  cases h with
  | leaf | simple => cases hq
  | @seq ps ts k log hs hkids =>
      have hi : i < ps.length := (List.getElem?_eq_some_iff.mp hq).1
      have hlen := hs.length
      have hu := List.getElem?_eq_getElem (l := ts) (i := i) (by omega)
      refine ⟨_, hu, hkids i q _ hq hu, fun hf => ?_⟩
      have hk : k = ts.length := of_decide_eq_true hf
      exact hs.done i _ (by omega) hu
  | @par ps ts fs running log hs hkids =>
      have hi : i < ps.length := (List.getElem?_eq_some_iff.mp hq).1
      have hlen := hs.length
      have hflags := hs.flags
      have hu := List.getElem?_eq_getElem (l := ts) (i := i) (by omega)
      have hg := List.getElem?_eq_getElem (l := fs) (i := i) (by omega)
      refine ⟨_, hu, hkids i q _ hq hu, fun hf => hs.done i _ hu ?_⟩
      have hzero : fs.count false = 0 := hs.running.symm.trans (of_decide_eq_true hf)
      have hne : fs[i] ≠ false := fun heq =>
        List.count_eq_zero.mp hzero (heq ▸ List.getElem_mem _)
      rw [hg, (Bool.eq_false_or_eq_true fs[i]).resolve_right hne]

/-- What has been done below a node of a tree that is finished. -/
theorem TaskRun.descend {q : TaskPlan} {path : List ℕ} (h : TaskRun p t log) (hf : t.finished)
    (hq : p.descend path = some q) :
    ∃ u, t.descend path = some u ∧ TaskRun q u (recordAt path log) ∧ u.finished := by
  induction path generalizing p t log with
  | nil =>
      obtain rfl := Option.some.inj hq
      exact ⟨t, rfl, h, hf⟩
  | cons i path ih =>
      obtain ⟨c, hc, hq⟩ := Option.bind_eq_some_iff.mp hq
      obtain ⟨u, hu, hruns, hfin⟩ := h.child hc
      obtain ⟨v, hv, hbelow⟩ := ih hruns (hfin hf) hq
      exact ⟨v, Option.bind_eq_some_iff.mpr ⟨u, hu, hv⟩, hbelow⟩

/-- The tree keeps its shape. -/
theorem TaskRun.plan (h : TaskRun p t log) : t.plan = p := by
  have hkids : ∀ {ps : List TaskPlan} {ts : List Task}, ts.length = ps.length →
      (∀ (i : ℕ) (q : TaskPlan) (u : Task), ps[i]? = some q → ts[i]? = some u → u.plan = q) →
        Task.planAll ts = ps := by
    intro ps ts hlen hall
    rw [Task.planAll_eq]
    refine List.ext_getElem (by rw [List.length_map, hlen]) fun i hi hi' => ?_
    rw [List.getElem_map]
    rw [List.length_map] at hi
    exact hall i _ _ (List.getElem?_eq_getElem hi') (List.getElem?_eq_getElem hi)
  induction h with
  | leaf | simple => rfl
  | seq hs _ ih | par hs _ ih => rw [Task.plan, hkids hs.length ih]

/-- So there is nothing in it that was not in the tree it is from. -/
theorem TaskRun.exists_plan {u : Task} {path : List ℕ} (h : TaskRun p t log)
    (hu : t.descend path = some u) : ∃ q, p.descend path = some q := by
  induction path generalizing p t log with
  | nil => exact ⟨p, rfl⟩
  | cons i path ih =>
      obtain ⟨c, hc, hu⟩ := Option.bind_eq_some_iff.mp hu
      have hlt : i < p.children.length := by
        have hi := (List.getElem?_eq_some_iff.mp hc).1
        cases h with
        | leaf | simple => exact hi
        | seq hs _ | par hs _ => exact hs.length ▸ hi
      have hq := List.getElem?_eq_getElem hlt
      obtain ⟨v, hv, hruns, -⟩ := h.child hq
      rw [hc] at hv
      obtain rfl := Option.some.inj hv
      obtain ⟨q, hq'⟩ := ih hruns hu
      exact ⟨q, Option.bind_eq_some_iff.mpr ⟨_, hq, hq'⟩⟩

/-- The polls of a leaf that is finished. -/
theorem TaskRun.pollsAt_nil {l : List Bool} (h : TaskRun p t log) (hf : t.finished)
    (hl : p.polls = some l) : pollsAt [] log = l := by
  cases h with
  | @leaf more k hk =>
      obtain rfl := Option.some.inj hl
      have hle : more + 1 ≤ k := of_decide_eq_true hf
      obtain rfl : k = more + 1 := by omega
      simp [pollsAt]
  | @simple finished =>
      obtain rfl := Option.some.inj hl
      obtain rfl : finished = true := hf
      rfl
  | seq | par => cases hl

/-- Only leaves are recorded. -/
theorem TaskRun.exists_leaf (h : TaskRun p t log) {e : Poll} (he : e ∈ log) :
    ∃ q l, p.descend e.path = some q ∧ q.polls = some l := by
  -- a poll below a child is in the record of the child
  have hkid : ∀ {ps : List TaskPlan} {ts : List Task} {log : List Poll} {e : Poll},
      ts.length = ps.length → e ∈ log → e.path ≠ [] → e.child < ps.length →
      (∀ i p t, ps[i]? = some p → ts[i]? = some t → ∀ {e : Poll}, e ∈ recordOf i log →
        ∃ q l, p.descend e.path = some q ∧ q.polls = some l) →
      ∃ q l, ps[e.child]?.bind (TaskPlan.descend e.path.tail) = some q ∧ q.polls = some l := by
    intro ps ts log e hlen he hne hlt ih
    obtain ⟨_ | ⟨i, path⟩, ran⟩ := e
    · exact absurd rfl hne
    · have hp := List.getElem?_eq_getElem hlt
      have ht := List.getElem?_eq_getElem (hlen ▸ hlt)
      obtain ⟨q, l, hq, hl⟩ := ih i _ _ hp ht (mem_recordOf he rfl)
      exact ⟨q, l, Option.bind_eq_some_iff.mpr ⟨_, hp, hq⟩, hl⟩
  have hpath : ∀ {ps : List TaskPlan} {e : Poll} {p : TaskPlan}, e.path ≠ [] → p.children = ps →
      p.descend e.path = ps[e.child]?.bind (TaskPlan.descend e.path.tail) := by
    rintro ps ⟨_ | ⟨i, path⟩, ran⟩ p hne rfl
    · exact absurd rfl hne
    · rfl
  induction h generalizing e with
  | leaf hk =>
      rw [List.eq_of_mem_replicate he]
      exact ⟨_, _, rfl, rfl⟩
  | @simple finished =>
      cases finished with
      | true =>
          rw [List.mem_singleton.mp he]
          exact ⟨_, _, rfl, rfl⟩
      | false => cases he
  | seq hs _ ih =>
      obtain ⟨hne, hlt, -⟩ := hs.inside e he
      rw [hpath hne rfl]
      exact hkid hs.length he hne hlt ih
  | par hs _ ih =>
      obtain ⟨hne, hlt⟩ := hs.inside e he
      rw [hpath hne rfl]
      exact hkid hs.length he hne hlt ih

/-- The children of a sequence are polled one after the other. -/
theorem TaskRun.order {path rest path' : List ℕ} {i j : ℕ} {a b : List Poll} {e : Poll}
    (h : TaskRun (.seq ps) t (recordAt path (a ++ e :: b))) (hpath : e.path = path ++ j :: rest)
    (hij : i < j) : pollsAt (path ++ i :: path') (e :: b) = [] := by
  rw [pollsAt, List.map_eq_nil_iff, List.filter_eq_nil_iff]
  intro x hx hxpath
  have hxpath : x.path = path ++ i :: path' := of_decide_eq_true hxpath
  cases h with
  | @seq _ ts k _ hs _ =>
      have horder := hs.order
      rw [recordAt_append] at horder
      have htail := (List.pairwise_append.mp horder).2.1
      rcases List.mem_cons.mp hx with rfl | hx
      · rw [hpath, List.append_cancel_left_eq, List.cons.injEq] at hxpath
        omega
      · have hsplit : recordAt path (e :: b) = recordAt path [e] ++ recordAt path b := by
          rw [← recordAt_append]
          rfl
        rw [hsplit] at htail
        have hle := (List.pairwise_append.mp htail).2.2 _
          (mem_recordAt (List.mem_singleton_self e) hpath) _ (mem_recordAt hx hxpath)
        exact absurd hle (Nat.not_le_of_lt hij)

end TaskRun

/-- The task and the record of a tree that has been run: every leaf has been polled until it was
finished and no more, the function of a `simple_task` has run once, nothing else has been polled,
when a child of a sequence was polled the leaves of the children before it were finished, and the
tree still has its shape and all its nodes are finished. -/
structure TaskPlan.Complete (p : TaskPlan) (t : Task) (log : List Poll) : Prop where
  polls : ∀ path q l, p.descend path = some q → q.polls = some l → pollsAt path log = l
  leaves : ∀ e ∈ log, ∃ q l, p.descend e.path = some q ∧ q.polls = some l
  order : ∀ path ps, p.descend path = some (.seq ps) → ∀ a e b, log = a ++ e :: b →
    ∀ i j rest, e.path = path ++ j :: rest → i < j → ∀ path' q l,
      p.descend (path ++ i :: path') = some q → q.polls = some l →
        pollsAt (path ++ i :: path') a = l
  shape : t.plan = p
  finished : ∀ path u, t.descend path = some u → u.finished

theorem TaskRun.complete {p : TaskPlan} {t : Task} {log : List Poll} (h : TaskRun p t log)
    (hf : t.finished) : p.Complete t log := by
  have hpolls : ∀ path q l, p.descend path = some q → q.polls = some l → pollsAt path log = l := by
    intro path q l hq hl
    obtain ⟨u, -, hruns, hu⟩ := h.descend hf hq
    rw [pollsAt_eq]
    exact hruns.pollsAt_nil hu hl
  refine ⟨hpolls, fun e he => h.exists_leaf he, ?_, h.plan, ?_⟩
  · intro path ps hps a e b hlog i j rest he hij path' q l hq hl
    obtain ⟨u, -, hruns, -⟩ := h.descend hf hps
    rw [hlog] at hruns
    have hall := hpolls _ q l hq hl
    rwa [hlog, pollsAt_append, hruns.order he hij, List.append_nil] at hall
  · intro path u hu
    obtain ⟨q, hq⟩ := h.exists_plan hu
    obtain ⟨v, hv, -, hfin⟩ := h.descend hf hq
    rw [hu] at hv
    obtain rfl := Option.some.inj hv
    exact hfin

/-- **Every leaf once and in order.** `finish()` of a tree that has been built comes to an end, with
everything done as it should be. -/
theorem finish_complete (p : TaskPlan) :
    ∃ t log, p.Complete t log ∧
      ∃ rounds, ∀ fuel, rounds ≤ fuel → Task.finish fuel p.build = some (t, log) := by
  obtain ⟨t, log, hf, hruns, hfinish⟩ := p.runs_build.finish
  exact ⟨t, log, hruns.complete hf, p.build.left + 1, hfinish⟩

example : Task.finish 9 (TaskPlan.par [.seq [.simple, .leaf 1], .seq [], .simple]).build =
    some (Task.par [.seq [.simple true, .leaf 2 2] 2, .seq [] 0, .simple true] [true, true, true] 0,
      [⟨[0, 0], true⟩, ⟨[2], true⟩, ⟨[0, 1], false⟩, ⟨[0, 1], false⟩]) := rfl

end StdmlCollective

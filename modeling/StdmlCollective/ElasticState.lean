import StdmlCollective.Resize

/-!
# `elastic_state`

The progress of an elastic program on one worker. Its methods synchronise lazily: a worker that
has not been synchronised since it entered its session first takes part in an `all_reduce` of the
progress. A method is a program that makes requests: the `all_reduce` on `sess_` and
`peer::resize`.

`check_resize` unsets `synced_` also when the worker has been detached, and `sync` does not look at
`detached_`: the next method called on a detached worker is an `all_reduce` on the session that the
other workers have left.
-/

namespace StdmlCollective

open Spmd

/-- `class elastic_state`; `sess` is version and cluster of `*sess_`. -/
structure ElasticState where
  maxProgress : Option Int64
  progress : Int64
  synced : Bool
  detached : Bool
  sess : ℕ × ClusterConfig

/-- What the methods ask for, with the object as it is at the call: `sess_->all_reduce(progress_,
max)`, `peer_.resize(sess_, get_config_)`; and the increment of the largest `int64_t`, which is
undefined. -/
inductive ElasticRequest where
  | allReduceMax (s : ElasticState)
  | resize (s : ElasticState)
  | overflow (s : ElasticState)

/-- What the requests are answered with; what is undefined has no answer. -/
abbrev ElasticRequest.Reply : ElasticRequest → Type
  | .allReduceMax _ => Int64
  | .resize _ => Resized
  | .overflow _ => Empty

/-- What a method does. -/
abbrev ElasticProg (α : Type) := Prog ElasticRequest ElasticRequest.Reply α

namespace ElasticState

/-- `elastic_state::elastic_state`. -/
def new (maxProgress : Option Int64) (sess : ℕ × ClusterConfig) : ElasticState where
  maxProgress := maxProgress
  progress := 0
  synced := false
  detached := false
  sess := sess

/-- `elastic_state::sync`. -/
def sync (s : ElasticState) : ElasticProg ElasticState :=
  if s.synced then return s
  else do
    let progress ← Prog.request (.allReduceMax s)
    return { s with progress := progress, synced := true }

/-- `elastic_state::operator int64_t`. -/
def toInt64 (s : ElasticState) : ElasticProg (ElasticState × Int64) := do
  let s ← s.sync
  return (s, s.progress)

/-- `progress_ >= max_progress_`, when there is one. -/
def finished (s : ElasticState) : Bool :=
  match s.maxProgress with
  | some m => m ≤ s.progress
  | none => false

/-- `elastic_state::should_stop`. -/
def shouldStop (s : ElasticState) : ElasticProg (ElasticState × Bool) := do
  let s ← s.sync
  return (s, s.detached || s.finished)

/-- `check_resize` once `peer::resize` has returned. -/
def resized (s : ElasticState) (r : Resized) : ElasticState :=
  let s := if r.result.detached then { s with detached := true } else s
  let s := if r.result.changed then { s with synced := false } else s
  { s with sess := r.session }

/-- `elastic_state::check_resize`. -/
def checkResize (s : ElasticState) : ElasticProg ElasticState := do
  let r ← Prog.request (.resize s)
  return s.resized r

/-- `elastic_state::operator++`. -/
def increment (s : ElasticState) : ElasticProg ElasticState := do
  let s ← s.sync
  if s.progress = Int64.maxValue then
    let r ← Prog.request (.overflow s)
    nomatch r
  else checkResize { s with progress := s.progress + 1 }

/-- `elastic_state::sess`. -/
def getSess (s : ElasticState) : ElasticProg (ElasticState × (ℕ × ClusterConfig)) := do
  let s ← s.sync
  return (s, s.sess)

end ElasticState

/-! ## What a worker can reach on its own -/

/-- The public methods. -/
inductive ElasticMethod where
  | shouldStop | increment | toInt64 | sess
deriving DecidableEq, Repr

/-- A method, as far as it changes the object. -/
def ElasticMethod.run : ElasticMethod → ElasticState → ElasticProg ElasticState
  | .shouldStop, s => do return (← s.shouldStop).1
  | .increment, s => s.increment
  | .toInt64, s => do return (← s.toInt64).1
  | .sess, s => do return (← s.getSess).1

/-- The replies a worker can get: from the `all_reduce` any value, from `peer::resize` what it
returns for some config. -/
def ElasticRequest.Replies (self : PeerId) : (r : ElasticRequest) → r.Reply → Prop
  | .allReduceMax _, _ => True
  | .resize s, r => ∃ (sess : SessionInfo) (round : ℕ) (config : ClusterConfig),
      s.sess = (sess.version, sess.cluster) ∧ r = sess.goOver self round config
  | .overflow _, _ => False

/-- What happens to the object of one worker, by any sequence of calls: the states it has been in,
the last one first. -/
inductive ElasticState.Run (self : PeerId) : List ElasticState → Prop where
  | new (m : Option Int64) (sess : ℕ × ClusterConfig) : Run self [ElasticState.new m sess]
  | call {s s' : ElasticState} {ss : List ElasticState} {tr : List ElasticRequest}
      (m : ElasticMethod) : Run self (s :: ss) →
      Prog.Exec (ElasticRequest.Replies self) (m.run s) tr s' → Run self (s' :: s :: ss)

/-- The object knows without communicating that the worker must stop, and how far it has come. -/
def ElasticState.StopsSilently (s : ElasticState) : Prop :=
  s.shouldStop = .ret (s, true) ∧ s.toInt64 = .ret (s, s.progress)

namespace ElasticState

theorem sync_of_synced {s : ElasticState} (h : s.synced = true) : s.sync = .ret s := by
  simp [sync, h]

theorem sync_of_not_synced {s : ElasticState} (h : s.synced = false) :
    s.sync = .call (.allReduceMax s) fun y => .ret { s with progress := y, synced := true } := by
  simp [sync, h]

theorem stopsSilently_iff {s : ElasticState} (hd : s.detached = true) :
    s.StopsSilently ↔ s.synced = true := by
  constructor
  · intro h
    by_contra hs
    have hcall := h.2
    rw [toInt64, sync_of_not_synced (by simpa using hs)] at hcall
    simp at hcall
  · intro h
    constructor
    · simp [shouldStop, sync_of_synced h, hd]
    · simp [toInt64, sync_of_synced h]

/-- A call of `operator++` that detaches the worker leaves it unsynchronised. -/
theorem not_synced_of_detaches {self : PeerId} {s s' : ElasticState} {tr : List ElasticRequest}
    (hd : s.detached = false) (h : Prog.Exec (ElasticRequest.Replies self) s.increment tr s')
    (hd' : s'.detached = true) : s'.synced = false := by
  -- whatever comes before `check_resize` leaves `detached_` as it is
  have hresize : ∀ {u : ElasticState} {tr}, u.detached = false →
      Prog.Exec (ElasticRequest.Replies self) u.checkResize tr s' → s'.synced = false := by
    intro u tr hu hexec
    cases hexec with
    | @call _ _ r _ _ hr hret =>
        obtain ⟨sess, round, config, -, rfl⟩ := hr
        cases hret with
        | ret =>
            unfold SessionInfo.goOver at hd' ⊢
            split at hd'
            · simp [resized, hu] at hd'
            · next hne => simp only [resized, if_neg hne, if_true]
  have hstep : ∀ {u : ElasticState} {tr}, u.detached = false →
      Prog.Exec (ElasticRequest.Replies self) (do
        if u.progress = Int64.maxValue then
          let r ← Prog.request (.overflow u)
          nomatch r
        else checkResize { u with progress := u.progress + 1 }) tr s' → s'.synced = false := by
    intro u tr hu hexec
    split at hexec
    · cases hexec with
      | call hr _ => exact absurd hr id
    · exact @hresize { u with progress := u.progress + 1 } _ hu hexec
  by_cases hs : s.synced = true
  · rw [increment, sync_of_synced hs] at h
    exact hstep hd h
  · rw [increment, sync_of_not_synced (by simpa using hs)] at h
    cases h with
    | @call _ _ y _ _ _ hexec =>
        exact @hstep { s with progress := y, synced := true } _ hd hexec

/-- The other methods leave `detached_` as it is. -/
theorem detached_of_sync {self : PeerId} {s s' : ElasticState} {tr : List ElasticRequest}
    {m : ElasticMethod} (hm : m ≠ .increment)
    (h : Prog.Exec (ElasticRequest.Replies self) (m.run s) tr s') : s'.detached = s.detached := by
  have hrun : m.run s = s.sync := by
    by_cases hs : s.synced = true
    · cases m <;> simp_all [ElasticMethod.run, shouldStop, toInt64, getSess, sync_of_synced hs]
    · have hsync := sync_of_not_synced (s := s) (by simpa using hs)
      cases m <;> simp_all [ElasticMethod.run, shouldStop, toInt64, getSess]
  rw [hrun] at h
  by_cases hs : s.synced = true
  · rw [sync_of_synced hs] at h
    cases h
    rfl
  · rw [sync_of_not_synced (by simpa using hs)] at h
    cases h with
    | call _ hret =>
        cases hret
        rfl

theorem not_synced_of_call_detaches {self : PeerId} {s s' : ElasticState}
    {tr : List ElasticRequest} {m : ElasticMethod} (hd : s.detached = false)
    (h : Prog.Exec (ElasticRequest.Replies self) (m.run s) tr s') (hd' : s'.detached = true) :
    s'.synced = false := by
  by_cases hm : m = .increment
  · subst hm
    exact not_synced_of_detaches hd h hd'
  · rw [detached_of_sync hm h, hd] at hd'
    exact absurd hd' (by simp)

/-- In a run that meets a detached state, the first one of them is not synchronised. -/
theorem Run.exists_not_synced {self : PeerId} {ss : List ElasticState} (h : Run self ss)
    (hd : ∃ s ∈ ss, s.detached = true) : ∃ s ∈ ss, s.detached = true ∧ s.synced = false := by
  induction h with
  | new m sess =>
      obtain ⟨s, hs, hd⟩ := hd
      rw [List.mem_singleton] at hs
      subst hs
      exact absurd hd (by simp [ElasticState.new])
  | @call s s' ss tr m _ hexec ih =>
      by_cases hold : ∃ u ∈ s :: ss, u.detached = true
      · obtain ⟨u, hu, hdu⟩ := ih hold
        exact ⟨u, List.mem_cons_of_mem _ hu, hdu⟩
      · -- no state before is detached, so that this call has done it
        have hbefore : s.detached = false := by
          by_contra hds
          exact hold ⟨s, List.mem_cons_self, by simpa using hds⟩
        obtain ⟨u, hu, hdu⟩ := hd
        rcases List.mem_cons.mp hu with rfl | hu
        · exact ⟨u, List.mem_cons_self, hdu, not_synced_of_call_detaches hbefore hexec hdu⟩
        · exact absurd ⟨u, hu, hdu⟩ hold

/-- **A detached worker learns that it must stop without communicating exactly when it has been
synchronised since.** A run has a state in which it has not as soon as the worker is detached. -/
theorem stopsSilently_iff_synced (self : PeerId) (ss : List ElasticState) (h : Run self ss) :
    (∀ s ∈ ss, s.detached = true → (s.StopsSilently ↔ s.synced = true)) ∧
      ((∀ s ∈ ss, s.detached = true → s.StopsSilently) ↔ ∀ s ∈ ss, s.detached = false) := by
  refine ⟨fun s _ hd => stopsSilently_iff hd, ?_, ?_⟩
  · intro hall s hs
    by_contra hd
    obtain ⟨u, hu, hdu, hsync⟩ := h.exists_not_synced ⟨s, hs, by simpa using hd⟩
    have hstop := (stopsSilently_iff hdu).mp (hall u hu hdu)
    exact absurd hstop (by simp [hsync])
  · intro hnone s hs hd
    rw [hnone s hs] at hd
    exact absurd hd (by simp)

/-- The first of two workers, alone left out of the next config. -/
def removed : ElasticState where
  maxProgress := none
  progress := 1
  synced := false
  detached := true
  sess := (0, ⟨[], [⟨2130706433, 10000⟩, ⟨2130706433, 10001⟩]⟩)

theorem run_removed : Run ⟨2130706433, 10000⟩ [removed, new none removed.sess] := by
  let sess : SessionInfo := ⟨0, removed.sess.2, by decide, by decide, by decide⟩
  let reply := sess.goOver ⟨2130706433, 10000⟩ 0 ⟨[], [⟨2130706433, 10001⟩]⟩
  have hresize : Prog.Exec (ElasticRequest.Replies ⟨2130706433, 10000⟩)
      (checkResize ⟨none, 1, true, false, removed.sess⟩) [_] removed :=
    .call (x := reply) ⟨sess, 0, _, rfl, rfl⟩ .ret
  exact .call .increment (.new _ _) (.call (x := 0) trivial hresize)

theorem stopsSilently_iff_synced_removed :
    removed.detached = true ∧ (removed.StopsSilently ↔ removed.synced = true) :=
  ⟨rfl, (stopsSilently_iff_synced _ _ run_removed).1 removed List.mem_cons_self rfl⟩

/-- The first of two workers increments its progress and is removed: to learn that it must stop, it
asks for an `all_reduce` in the session of the two. -/
theorem not_stopsSilently_removed :
    ¬∀ self ss, Run self ss → ∀ s ∈ ss, s.detached = true → s.StopsSilently := by
  intro h
  have hstop := h _ _ run_removed removed List.mem_cons_self rfl
  exact absurd ((stopsSilently_iff rfl).mp hstop) (by simp [removed])

end ElasticState

end StdmlCollective

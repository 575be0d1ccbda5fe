import StdmlCollective.ClusterConfig
import StdmlCollective.Consistent

/-!
# `peer::resize`

The workers of a session poll the config server until all of them have read the same config, and
then go over to it. They find out by `consistent` on the digest of what they have read, so that
they leave the loop in the same round and with the same config.

The barrier of the new session is a collective of the new session and not part of this one.
-/

namespace StdmlCollective

open Spmd

/-- What a `session` knows about itself. It has at least one worker, the one it belongs to, and
the sizes are those of vectors in memory. -/
structure SessionInfo where
  version : ℕ
  cluster : ClusterConfig
  version_lt : version < 2 ^ 64
  size_lt : cluster.bytes.length < 2 ^ 64
  workers_ne : cluster.workers ≠ []

/-- `struct resize_result`. -/
structure ResizeResult where
  changed : Bool
  detached : Bool
deriving DecidableEq

/-- A config that `get_config` returns: its lists are shorter than `2 ^ 32`. -/
abbrev ServedConfig := { c : ClusterConfig // c.Small }

theorem ServedConfig.size_lt (c : ServedConfig) : c.1.bytes.length < 2 ^ 64 := by
  have hsmall := c.2
  unfold ClusterConfig.Small at hsmall
  rw [ClusterConfig.length_bytes]
  omega

/-- `get_config().value_or(old_cluster)`, as bytes whose number is a `size_t`. -/
def SessionInfo.valueOr (sess : SessionInfo) (config : Option ServedConfig) :
    { c : ClusterConfig // c.bytes.length < 2 ^ 64 } :=
  match config with
  | some c => ⟨c.1, c.size_lt⟩
  | none => ⟨sess.cluster, sess.size_lt⟩

/-- The polling loop of `peer::resize`: `get k` is what the config server answers in round `k`.
The result is the round in which the loop is left and the config, or none when it is still running
after `f` rounds. -/
def poll (sess : SessionInfo) (get : ℕ → Option ServedConfig) :
    ℕ → ℕ → SessionProg (Option (ℕ × ClusterConfig))
  | 0, _ => return none
  | f + 1, k => do
      let config := sess.valueOr (get k)
      if ← consistent ⟨config.1.bytes, config.2⟩ then return some (k, config.1)
      else poll sess get f (k + 1)

/-- What one worker has done when `peer::resize` returns: the round it left the loop in, the
config it found, the result, what it has passed to `commit_config`, and version and cluster of the
session it is in. -/
structure Resized where
  round : ℕ
  config : ClusterConfig
  result : ResizeResult
  committed : Option (ClusterConfig × Int32)
  session : ℕ × ClusterConfig

/-- `peer::resize` behind the loop. `commit_config` takes the version as an `int`. -/
def SessionInfo.goOver (sess : SessionInfo) (self : PeerId) (round : ℕ)
    (newCluster : ClusterConfig) : Resized :=
  if sess.cluster = newCluster then
    ⟨round, newCluster, ⟨false, false⟩, none, (sess.version, sess.cluster)⟩
  else
    let detached : Bool := newCluster.workers.length ≤ rank newCluster.workers self
    let newVersion := (sess.version + 1) % 2 ^ 64
    ⟨round, newCluster, ⟨true, detached⟩, some (newCluster, Int32.ofNat newVersion),
      if detached then (sess.version, sess.cluster) else (newVersion, newCluster)⟩

/-- `peer::resize`, for at most `f` rounds. -/
def resize (self : PeerId) (sess : SessionInfo) (get : ℕ → Option ServedConfig) (f : ℕ) :
    SessionProg (Option Resized) := do
  let found ← poll sess get f 0
  return found.map fun p => sess.goOver self p.1 p.2

/-! ## Agreement -/

/-- The number of workers. -/
abbrev SessionInfo.size (sess : SessionInfo) : ℕ := sess.cluster.workers.length

/-- What the workers read in a round is the same config. -/
def SessionInfo.Unanimous (sess : SessionInfo) (get : Fin sess.size → ℕ → Option ServedConfig)
    (k : ℕ) (c : ClusterConfig) : Prop :=
  ∀ i, (sess.valueOr (get i k)).1 = c

/-- What is expected of a worker that goes over to `new` in round `k`. -/
structure SessionInfo.GoesOver (sess : SessionInfo) (id : PeerId) (k : ℕ) (new : ClusterConfig)
    (r : Resized) : Prop where
  round : r.round = k
  config : r.config = new
  changed : r.result.changed = true ↔ new ≠ sess.cluster
  detached : r.result.detached = true ↔ new ≠ sess.cluster ∧ id ∉ new.workers
  committed : new ≠ sess.cluster →
    ∃ v, r.committed = some (new, v) ∧ v.toInt = (sess.version : ℤ) + 1
  ignored : new = sess.cluster → r.committed = none

/-- Whatever the workers read, there is one way they run through `resize` together: they leave the
loop in the first round in which they read the same, all with that config, and go over to it; as
long as there was no such round all of them are in the loop. -/
def ResizeAgreement (sess : SessionInfo) : Prop :=
  ∀ (get : Fin sess.size → ℕ → Option ServedConfig) (f : ℕ), ∃ tr out,
    Runs (allReduceService sess.size)
      (fun i => resize (sess.cluster.workers.get i) sess (get i) f) tr out ∧
    (∀ tr' out', Runs (allReduceService sess.size)
      (fun i => resize (sess.cluster.workers.get i) sess (get i) f) tr' out' →
        tr' = tr ∧ out' = out) ∧
    (∀ k < f, (∀ j < k, ∀ c, ¬sess.Unanimous get j c) → ∀ new, sess.Unanimous get k new →
      ∀ i, ∃ r, out i = some r ∧ sess.GoesOver (sess.cluster.workers.get i) k new r) ∧
    ((∀ k < f, ∀ c, ¬sess.Unanimous get k c) → ∀ i, out i = none)

/-! ## The loop -/

section Loop

variable {sess : SessionInfo} {get : Fin sess.size → ℕ → Option ServedConfig}

/-- A worker, to read the agreed config from. -/
def SessionInfo.someWorker (sess : SessionInfo) : Fin sess.size :=
  ⟨0, List.length_pos_of_ne_nil sess.workers_ne⟩

/-- What a worker compares in round `k`. -/
def SessionInfo.digest (sess : SessionInfo) (get : Fin sess.size → ℕ → Option ServedConfig) (k : ℕ)
    (i : Fin sess.size) : Sized :=
  ⟨(sess.valueOr (get i k)).1.bytes, (sess.valueOr (get i k)).2⟩

/-- Two digests are the same only when the configs are: one of the two was served, or both are the
cluster of the session. -/
theorem digest_inj {k : ℕ} {i j : Fin sess.size} (h : sess.digest get k i = sess.digest get k j) :
    (sess.valueOr (get i k)).1 = (sess.valueOr (get j k)).1 := by
  have hbytes := congrArg Subtype.val h
  simp only [SessionInfo.digest] at hbytes
  cases hi : get i k with
  | some c =>
      rw [hi] at hbytes
      exact ClusterConfig.bytes_injective c.2 hbytes
  | none =>
      cases hj : get j k with
      | some c =>
          rw [hi, hj] at hbytes
          exact (ClusterConfig.bytes_injective c.2 hbytes.symm).symm
      | none => rfl

theorem unanimous_iff (k : ℕ) :
    (∀ i j, sess.digest get k i = sess.digest get k j) ↔
      sess.Unanimous get k (sess.valueOr (get sess.someWorker k)).1 := by
  constructor
  · intro h i
    exact digest_inj (h i sess.someWorker)
  · intro h i j
    apply Subtype.ext
    simp only [SessionInfo.digest, h i, h j]

/-- The round in which the loop is left, starting with round `k`, and the config. -/
def firstUnanimous (sess : SessionInfo) (get : Fin sess.size → ℕ → Option ServedConfig) :
    ℕ → ℕ → Option (ℕ × ClusterConfig)
  | 0, _ => none
  | f + 1, k =>
      if ∀ i j, sess.digest get k i = sess.digest get k j then
        some (k, (sess.valueOr (get sess.someWorker k)).1)
      else firstUnanimous sess get f (k + 1)

/-- **The workers run through the loop together.** -/
theorem poll_runs (f k : ℕ) :
    ∃ tr, Runs (allReduceService sess.size) (fun i => poll sess (get i) f k) tr
      fun _ => firstUnanimous sess get f k := by
  induction f generalizing k with
  | zero => exact ⟨[], .ret⟩
  | succ f ih =>
      have hcons := consistent_runs (sess.digest get k)
      by_cases h : ∀ i j, sess.digest get k i = sess.digest get k j
      · have hconf := (unanimous_iff k).mp h
        refine ⟨_ ++ [], Runs.bind (b := fun _ => firstUnanimous sess get (f + 1) k) hcons ?_⟩
        have hret : ∀ i, firstUnanimous sess get (f + 1) k =
            some (k, (sess.valueOr (get i k)).1) := by
          intro i
          rw [firstUnanimous, if_pos h, hconf i]
        rw [decide_eq_true h, funext hret]
        exact .ret
      · obtain ⟨tr, hruns⟩ := ih (k + 1)
        refine ⟨_ ++ tr, Runs.bind (b := fun _ => firstUnanimous sess get (f + 1) k) hcons ?_⟩
        rw [decide_eq_false h, firstUnanimous, if_neg h]
        exact hruns

/-- The loop is left in the first round in which all read the same. -/
theorem firstUnanimous_eq {f k j : ℕ} {c : ClusterConfig} (hj : k ≤ j) (hlt : j < k + f)
    (hfirst : ∀ i, k ≤ i → i < j → ∀ c, ¬sess.Unanimous get i c) (hc : sess.Unanimous get j c) :
    firstUnanimous sess get f k = some (j, c) := by
  induction f generalizing k with
  | zero => omega
  | succ f ih =>
      rw [firstUnanimous]
      by_cases hkj : k = j
      · subst hkj
        have hsome := hc sess.someWorker
        rw [if_pos, hsome]
        rw [unanimous_iff, hsome]
        exact hc
      · rw [if_neg]
        · exact ih (by omega) (by omega) fun i hi => hfirst i (by omega)
        · rw [unanimous_iff]
          exact hfirst k le_rfl (by omega) _

theorem firstUnanimous_eq_none {f k : ℕ}
    (h : ∀ i, k ≤ i → i < k + f → ∀ c, ¬sess.Unanimous get i c) :
    firstUnanimous sess get f k = none := by
  induction f generalizing k with
  | zero => rfl
  | succ f ih =>
      rw [firstUnanimous, if_neg]
      · exact ih fun i hi hlt => h i (by omega) (by omega)
      · rw [unanimous_iff]
        exact h k le_rfl (by omega) _

end Loop

/-! ## The version -/

/-- The version as the `int` of `commit_config`. -/
theorem toInt_version {v : ℕ} (hv : v < 2 ^ 64) :
    (Int32.ofNat ((v + 1) % 2 ^ 64)).toInt = (v : ℤ) + 1 ↔ v + 1 < 2 ^ 31 := by
  have hbit : (Int32.ofNat ((v + 1) % 2 ^ 64)).toInt =
      (BitVec.ofNat 32 ((v + 1) % 2 ^ 64)).toInt := rfl
  rw [hbit, BitVec.toInt_ofNat', Int.bmod_def]
  omega

theorem goOver_goesOver {sess : SessionInfo} (hv : sess.version + 1 < 2 ^ 31) (self : PeerId)
    (k : ℕ) (new : ClusterConfig) : sess.GoesOver self k new (sess.goOver self k new) := by
  unfold SessionInfo.goOver
  by_cases h : sess.cluster = new
  · rw [if_pos h]
    exact ⟨rfl, rfl, by simp [h], by simp [h], fun hne => absurd h.symm hne, fun _ => rfl⟩
  · have hne : new ≠ sess.cluster := fun heq => h heq.symm
    have hrank : rank new.workers self < new.workers.length ↔ self ∈ new.workers := rank_lt_iff
    rw [if_neg h]
    refine ⟨rfl, rfl, by simp [hne], ?_, fun _ => ⟨_, rfl, ?_⟩, fun heq => absurd heq hne⟩
    · rw [← hrank]
      simp [hne]
    · exact (toInt_version sess.version_lt).mpr hv

theorem resize_runs {sess : SessionInfo} (get : Fin sess.size → ℕ → Option ServedConfig) (f : ℕ) :
    ∃ tr, Runs (allReduceService sess.size)
      (fun i => resize (sess.cluster.workers.get i) sess (get i) f) tr
      fun i => (firstUnanimous sess get f 0).map fun p =>
        sess.goOver (sess.cluster.workers.get i) p.1 p.2 := by
  have hpoll : ∃ tr, Runs (allReduceService sess.size) (fun i => poll sess (get i) f 0) tr
      fun _ => firstUnanimous sess get f 0 := poll_runs f 0
  obtain ⟨tr, hruns⟩ := hpoll
  exact ⟨_, Runs.bind hruns .ret⟩

theorem resizeAgreement_of_lt {sess : SessionInfo} (hv : sess.version + 1 < 2 ^ 31) :
    ResizeAgreement sess := by
  intro get f
  have hne : Nonempty (Fin sess.size) := ⟨sess.someWorker⟩
  obtain ⟨tr, hruns⟩ := resize_runs get f
  refine ⟨tr, _, hruns, fun tr' out' h => h.unique hruns, ?_, ?_⟩
  · intro k hk hfirst new hnew i
    have hfound := firstUnanimous_eq (f := f) (k := 0) (Nat.zero_le k) (by omega)
      (fun i _ => hfirst i) hnew
    rw [hfound]
    exact ⟨_, rfl, goOver_goesOver hv _ k new⟩
  · intro h i
    rw [firstUnanimous_eq_none fun i _ hi => h i (by omega)]
    rfl

/-- Going over to the empty cluster shows the version that is committed. -/
theorem lt_of_resizeAgreement {sess : SessionInfo} (h : ResizeAgreement sess) :
    sess.version + 1 < 2 ^ 31 := by
  have hne : Nonempty (Fin sess.size) := ⟨sess.someWorker⟩
  let empty : ServedConfig := ⟨⟨[], []⟩, by simp [ClusterConfig.Small]⟩
  have hempty : sess.Unanimous (fun _ _ => some empty) 0 ⟨[], []⟩ := fun i => rfl
  have hchanged : (⟨[], []⟩ : ClusterConfig) ≠ sess.cluster := by
    intro heq
    have hworkers := sess.workers_ne
    rw [← heq] at hworkers
    exact hworkers rfl
  obtain ⟨tr, out, hruns, -, hfound, -⟩ := h (fun _ _ => some empty) 1
  obtain ⟨tr', hruns'⟩ := resize_runs (fun (_ : Fin sess.size) _ => some empty) 1
  obtain ⟨r, hr, hover⟩ := hfound 0 (by omega) (fun j hj => absurd hj (Nat.not_lt_zero j)) _ hempty
    sess.someWorker
  obtain ⟨v, hcommit, hint⟩ := hover.committed hchanged
  have hout := (hruns.unique hruns').2
  rw [hout, firstUnanimous_eq (f := 1) (k := 0) (Nat.zero_le 0) (by omega)
    (fun i _ hi => absurd hi (Nat.not_lt_zero i))
    hempty] at hr
  simp only [Option.map_some, Option.some.injEq] at hr
  have hv : r.committed = some (⟨[], []⟩, Int32.ofNat ((sess.version + 1) % 2 ^ 64)) := by
    rw [← hr, SessionInfo.goOver, if_neg (Ne.symm hchanged)]
  rw [hcommit, Option.some.injEq, Prod.mk.injEq] at hv
  rw [hv.2] at hint
  exact (toInt_version sess.version_lt).mp hint

/-- **Resizing is agreed on as long as the new version fits an `int`.** -/
theorem resizeAgreement_iff (sess : SessionInfo) :
    ResizeAgreement sess ↔ sess.version + 1 < 2 ^ 31 :=
  ⟨lt_of_resizeAgreement, resizeAgreement_of_lt⟩

/-- Two workers at version `2 ^ 31 - 1` commit the version `-2 ^ 31`. -/
theorem not_resizeAgreement_int_max :
    ¬ResizeAgreement ⟨2147483647, ⟨[], [⟨2130706433, 10000⟩, ⟨2130706433, 10001⟩]⟩, by decide,
      by decide, by decide⟩ := by
  intro h
  have hlt := lt_of_resizeAgreement h
  simp at hlt

end StdmlCollective

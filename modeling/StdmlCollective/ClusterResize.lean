import StdmlCollective.ClusterConfig
import StdmlCollective.Lib.Balance
import StdmlCollective.Lib.WordSearch

/-!
# `cluster_config::resize`

A config is cut to its first workers, or new workers are added one by one: on the runner host with
the fewest workers, on the first port above the smallest used one that is free there. The port is
a `uint16_t`, and the search goes on at 0 behind the last port.
-/

namespace StdmlCollective

open Balance WordSearch

/-- How `cluster_config::resize` does not return: it takes the minimum of an empty vector, or it
searches for an unused port without an end. -/
inductive ResizeFault where
  | emptyMin
  | spins
deriving DecidableEq, Repr

section NextUnused

variable {T : Type} [DecidableEq T] [LT T] [DecidableLT T] [Add T] [OfNat T 1]

/-- The loop of `next_unused`, for at most `fuel` rounds. -/
def findUnused (used : List T) : ℕ → T → Option T
  | 0, _ => none
  | fuel + 1, x => if x ∈ used then findUnused used fuel (x + 1) else some x

/-- `next_unused`. The type has `values` values: a loop of that many rounds has seen all of them
and does not end. -/
def nextUnused (values : ℕ) (used : List T) : Except ResizeFault T :=
  match minElement (fun x y => decide (x < y)) used with
  | none => .error .emptyMin
  | some m =>
      match findUnused used values (m + 1) with
      | none => .error .spins
      | some x => .ok x

end NextUnused

namespace ClusterConfig

/-- `std::map<uint32_t, std::vector<uint16_t>>`, in which every host without ports has an empty
vector. -/
abbrev PortMap := UInt32 → List UInt16

/-- `used_ports[w.ipv4].push_back(w.port)`. -/
def PortMap.push (used : PortMap) (w : PeerId) : PortMap :=
  Function.update used w.ipv4 (used w.ipv4 ++ [w.port])

/-- `used_ports` before the loop. -/
def usedPorts (workers : List PeerId) : PortMap := workers.foldl PortMap.push fun _ => []

/-- What one round of the loop of `resize` adds. -/
def nextWorker (runners : List PeerId) (used : PortMap) : Except ResizeFault PeerId :=
  match minElement (fun p q => decide ((used p.ipv4).length < (used q.ipv4).length)) runners with
  | none => .error .emptyMin
  | some r => do
      let port ← nextUnused (2 ^ 16) (used r.ipv4)
      return ⟨r.ipv4, port⟩

/-- The loop of `resize`, with the number of workers that are missing. -/
def addWorkers (runners : List PeerId) :
    ℕ → PortMap → List PeerId → Except ResizeFault (List PeerId)
  | 0, _, workers => .ok workers
  | k + 1, used, workers => do
      let w ← nextWorker runners used
      addWorkers runners k (used.push w) (workers ++ [w])

/-- `cluster_config::resize`. -/
def resize (c : ClusterConfig) (newSize : ℕ) : Except ResizeFault ClusterConfig :=
  if newSize ≤ c.workers.length then .ok ⟨c.runners, c.workers.take newSize⟩
  else if c.runners.length ≤ 0 then .ok c
  else do
    let workers ← addWorkers c.runners (newSize - c.workers.length) (usedPorts c.workers) c.workers
    return ⟨c.runners, workers⟩

/-- The number of workers on a host. -/
def load (workers : List PeerId) (h : UInt32) : ℕ := (workers.filter fun w => w.ipv4 = h).length

/-- The hosts of some peers, in their order. -/
abbrev hosts (ps : List PeerId) : List UInt32 := ps.map PeerId.ipv4

/-- Every runner host has a worker. -/
def Covers (runners workers : List PeerId) : Prop := ∀ r ∈ runners, ∃ w ∈ workers, w.ipv4 = r.ipv4

/-- The same for the lists of a config. -/
abbrev Covered (c : ClusterConfig) : Prop := Covers c.runners c.workers

/-! ## The search for a port -/

section Search

variable {used : List UInt16} {s x m : UInt16}

theorem findUnused_eq_some {fuel : ℕ} :
    findUnused used fuel s = some x ↔ FirstFree used s x ∧ offset s x < fuel := by
  induction fuel generalizing s with
  | zero => simp [findUnused]
  | succ fuel ih =>
      rw [findUnused]
      split
      · next hs =>
        rw [ih, firstFree_succ hs]
        apply and_congr_right
        intro hx
        have hsucc := offset_succ (s := s) (x := x) fun e => hx.1 (e ▸ hs)
        omega
      · next hs =>
        rw [Option.some.injEq]
        constructor
        · rintro rfl
          exact ⟨⟨hs, fun y _ => by rw [offset_self]; omega⟩, by rw [offset_self]; omega⟩
        · rintro ⟨hx, _⟩
          have hle := hx.2 s hs
          rw [offset_self] at hle
          exact offset_inj (s := s) (by rw [offset_self]; omega)

theorem findUnused_eq_none {fuel : ℕ} :
    findUnused used fuel s = none ↔ ∀ x, offset s x < fuel → x ∈ used := by
  induction fuel generalizing s with
  | zero => simp [findUnused]
  | succ fuel ih =>
      rw [findUnused]
      split
      · next hs =>
        rw [ih]
        apply forall_congr'
        intro x
        by_cases hxs : x = s
        · simp [hxs, hs]
        · have hsucc := offset_succ hxs
          rw [← hsucc, Nat.add_lt_add_iff_right]
      · next hs =>
        constructor
        · intro h
          exact absurd h (Option.some_ne_none s)
        · intro h
          exact absurd (h s (by rw [offset_self]; omega)) hs

/-- After `2 ^ 16` rounds the loop has seen every port: it does not end exactly when all of them
are used, and more rounds do not change that. -/
theorem findUnused_spins {fuel : ℕ} (hfuel : 2 ^ 16 ≤ fuel) :
    findUnused used fuel s = none ↔ ∀ x, x ∈ used := by
  rw [findUnused_eq_none]
  apply forall_congr'
  intro x
  have hlt := offset_lt s x
  exact ⟨fun h => h (by omega), fun h _ => h⟩

theorem minElement_eq_some :
    minElement (fun x y => decide (x < y)) used = some m ↔ Smallest used m := by
  have hspec : ∀ {m'}, minElement (fun x y => decide (x < y)) used = some m' →
      Smallest used m' := by
    intro m' h
    simp only [UInt16.lt_iff_toNat_lt] at h
    have hkey := minElement_spec h
    exact ⟨hkey.1, fun p hp => (hkey.2 p hp).1⟩
  constructor
  · exact hspec
  · intro h
    cases hmin : minElement (fun x y => decide (x < y)) used with
    | none =>
        rw [minElement_eq_none] at hmin
        simp [Smallest, hmin] at h
    | some m' =>
        have h' := hspec hmin
        have hle := h.2 m' h'.1
        have hge := h'.2 m h.1
        rw [UInt16.toNat_inj.mp (Nat.le_antisymm hge hle)]

/-- `next_unused` on ports: the first free port behind the smallest used one. -/
theorem nextUnused_eq_ok :
    nextUnused (2 ^ 16) used = .ok x ↔ ∃ m, Smallest used m ∧ FirstFree used m x := by
  rw [nextUnused]
  constructor
  · intro h
    split at h
    · exact absurd h (by simp)
    · next m hm =>
      split at h
      · exact absurd h (by simp)
      · next y hy =>
        obtain rfl := Except.ok.inj h
        have hmin := minElement_eq_some.mp hm
        exact ⟨m, hmin, (firstFree_succ hmin.1).mp (findUnused_eq_some.mp hy).1⟩
  · rintro ⟨m, hm, hx⟩
    have hfind : findUnused used (2 ^ 16) (m + 1) = some x :=
      findUnused_eq_some.mpr ⟨(firstFree_succ hm.1).mpr hx, offset_lt _ _⟩
    rw [minElement_eq_some.mpr hm]
    simp only [hfind]

theorem nextUnused_eq_emptyMin : nextUnused (2 ^ 16) used = .error .emptyMin ↔ used = [] := by
  rw [nextUnused]
  split
  · next h => simp [minElement_eq_none.mp h]
  · next m h =>
    have hne : used ≠ [] := List.ne_nil_of_mem (minElement_eq_some.mp h).1
    split <;> simp [hne]

theorem nextUnused_eq_spins : nextUnused (2 ^ 16) used = .error .spins ↔ ∀ x, x ∈ used := by
  rw [nextUnused]
  split
  · next h =>
    rw [minElement_eq_none] at h
    simp [h]
  · next m h =>
    rw [← findUnused_spins (s := m + 1) (le_refl _)]
    split <;> simp_all

end Search

/-! ## One round -/

section Round

variable {runners ws : List PeerId} {w : PeerId} {h : UInt32}

theorem usedPorts_concat (ws : List PeerId) (w : PeerId) :
    usedPorts (ws ++ [w]) = (usedPorts ws).push w := by
  simp [usedPorts]

theorem usedPorts_apply (ws : List PeerId) (h : UInt32) :
    usedPorts ws h = (ws.filter fun w => w.ipv4 = h).map PeerId.port := by
  induction ws using List.reverseRecOn with
  | nil => rfl
  | append_singleton ws w ih =>
      rw [usedPorts_concat, PortMap.push, List.filter_append, List.map_append]
      by_cases hw : w.ipv4 = h
      · subst hw
        simp [ih]
      · simp [Function.update_of_ne (Ne.symm hw), hw, ih]

theorem usedPorts_cons (w : PeerId) (ws : List PeerId) (h : UInt32) :
    usedPorts (w :: ws) h = if w.ipv4 = h then w.port :: usedPorts ws h else usedPorts ws h := by
  rw [usedPorts_apply, usedPorts_apply, List.filter_cons]
  by_cases hw : w.ipv4 = h <;> simp [hw]

theorem mem_usedPorts {p : UInt16} : p ∈ usedPorts ws h ↔ ⟨h, p⟩ ∈ ws := by
  rw [usedPorts_apply, List.mem_map]
  constructor
  · rintro ⟨w, hw, rfl⟩
    rw [List.mem_filter, decide_eq_true_eq] at hw
    obtain ⟨hw, rfl⟩ := hw
    exact hw
  · intro hp
    exact ⟨_, List.mem_filter.mpr ⟨hp, by simp⟩, rfl⟩

theorem length_usedPorts (ws : List PeerId) (h : UInt32) : (usedPorts ws h).length = load ws h := by
  rw [usedPorts_apply, List.length_map, load]

theorem usedPorts_append (ws added : List PeerId) (h : UInt32) :
    usedPorts (ws ++ added) h = usedPorts ws h ++ usedPorts added h := by
  simp only [usedPorts_apply, List.filter_append, List.map_append]

theorem length_usedPorts_eq_count (ws : List PeerId) (h : UInt32) :
    (usedPorts ws h).length = (hosts ws).count h := by
  rw [length_usedPorts, load, List.count, List.countP_map, List.countP_eq_length_filter]
  rfl

theorem load_le (ws : List PeerId) (h : UInt32) : load ws h ≤ ws.length := List.length_filter_le _ _

theorem load_concat (ws : List PeerId) (w : PeerId) : load (ws ++ [w]) = put (load ws) w.ipv4 := by
  funext h
  simp only [load, put, List.filter_append, List.length_append]
  by_cases hw : w.ipv4 = h
  · simp [hw]
  · simp [hw, Ne.symm hw]

theorem load_append (ws added : List PeerId) (h : UInt32) :
    load (ws ++ added) h = load ws h + (hosts added).count h := by
  rw [← length_usedPorts, usedPorts_append, List.length_append, length_usedPorts,
    length_usedPorts_eq_count]

theorem load_pos : 0 < load ws h ↔ ∃ w ∈ ws, w.ipv4 = h := by
  simp [load, List.length_pos_iff, List.filter_eq_nil_iff]

/-- What is added to `ws` next: on the first of the hosts with the least load, the first free port
behind the smallest. -/
structure Adds (runners ws : List PeerId) (w : PeerId) : Prop where
  host : Least (hosts runners) (load ws) w.ipv4
  port : ∃ m, Smallest (usedPorts ws w.ipv4) m ∧ FirstFree (usedPorts ws w.ipv4) m w.port

/-- The host that a round chooses. -/
theorem nextWorker_of_least (hl : Least (hosts runners) (load ws) h) :
    nextWorker runners (usedPorts ws) =
      match nextUnused (2 ^ 16) (usedPorts ws h) with
      | .ok port => .ok ⟨h, port⟩
      | .error e => .error e := by
  have hmin := minElement_eq_some_iff.mpr hl
  rw [minElement_map, Option.map_eq_some_iff] at hmin
  obtain ⟨r, hr, rfl⟩ := hmin
  simp only [nextWorker, length_usedPorts, hr]
  cases nextUnused (2 ^ 16) (usedPorts ws r.ipv4) <;> rfl

theorem nextWorker_eq_ok : nextWorker runners (usedPorts ws) = .ok w ↔ Adds runners ws w := by
  constructor
  · intro hw
    have hne : hosts runners ≠ [] := by
      intro hnil
      rw [List.map_eq_nil_iff.mp hnil] at hw
      simp [nextWorker, minElement] at hw
    obtain ⟨h, hl⟩ : ∃ h, Least (hosts runners) (load ws) h := exists_least hne
    rw [nextWorker_of_least hl] at hw
    cases hport : nextUnused (2 ^ 16) (usedPorts ws h) with
    | error e =>
        rw [hport] at hw
        exact absurd hw (by simp)
    | ok port =>
        rw [hport] at hw
        obtain rfl := Except.ok.inj hw
        exact ⟨hl, nextUnused_eq_ok.mp hport⟩
  · intro hw
    rw [nextWorker_of_least hw.host, nextUnused_eq_ok.mpr hw.port]

/-- A round fails on a host without a worker, or one on which every port is used. -/
theorem nextWorker_eq_error (hl : Least (hosts runners) (load ws) h) {e : ResizeFault} :
    nextWorker runners (usedPorts ws) = .error e ↔
      nextUnused (2 ^ 16) (usedPorts ws h) = .error e := by
  rw [nextWorker_of_least hl]
  cases nextUnused (2 ^ 16) (usedPorts ws h) <;> simp

theorem Covers.append (h : Covers runners ws) (added : List PeerId) :
    Covers runners (ws ++ added) := by
  intro r hr
  obtain ⟨w, hw, heq⟩ := h r hr
  exact ⟨w, List.mem_append_left _ hw, heq⟩

theorem Covers.usedPorts_ne_nil (hcov : Covers runners ws) (hh : h ∈ hosts runners) :
    usedPorts ws h ≠ [] := by
  obtain ⟨r, hr, rfl⟩ := List.mem_map.mp hh
  obtain ⟨w, hw, heq⟩ := hcov r hr
  rw [← heq]
  exact List.ne_nil_of_mem (mem_usedPorts.mpr hw)

/-- A covered host is chosen, and a port is found on it if one is free. -/
theorem Covers.exists_adds (hcov : Covers runners ws) (hl : Least (hosts runners) (load ws) h)
    {x : UInt16} (hx : x ∉ usedPorts ws h) : ∃ w, Adds runners ws w ∧ w.ipv4 = h := by
  cases hport : nextUnused (2 ^ 16) (usedPorts ws h) with
  | ok port => exact ⟨⟨h, port⟩, ⟨hl, nextUnused_eq_ok.mp hport⟩, rfl⟩
  | error e =>
      cases e with
      | emptyMin => exact absurd (nextUnused_eq_emptyMin.mp hport) (hcov.usedPorts_ne_nil hl.1)
      | spins => exact absurd (nextUnused_eq_spins.mp hport x) hx

theorem exists_least_host (ws : List PeerId) (hne : runners ≠ []) :
    ∃ h, Least (hosts runners) (load ws) h := by
  apply exists_least
  simpa using hne

/-- A port is free as long as there are less than `2 ^ 16` workers. -/
theorem exists_free_port (hlen : ws.length < 2 ^ 16) (h : UInt32) : ∃ x, x ∉ usedPorts ws h := by
  apply exists_free
  rw [length_usedPorts]
  exact lt_of_le_of_lt (load_le ws h) hlen

end Round

/-! ## The loop -/

section Loop

variable {runners ws added : List PeerId} {w : PeerId} {k : ℕ}

/-- `Grows runners ws added`: the loop adds `added` to `ws`. -/
inductive Grows (runners : List PeerId) : List PeerId → List PeerId → Prop where
  | nil {ws : List PeerId} : Grows runners ws []
  | cons {ws added : List PeerId} {w : PeerId} :
      Adds runners ws w → Grows runners (ws ++ [w]) added → Grows runners ws (w :: added)

theorem addWorkers_eq_ok {ws' : List PeerId} :
    addWorkers runners k (usedPorts ws) ws = .ok ws' ↔
      ∃ added, ws' = ws ++ added ∧ added.length = k ∧ Grows runners ws added := by
  induction k generalizing ws with
  | zero =>
      constructor
      · intro h
        obtain rfl := Except.ok.inj h
        exact ⟨[], by simp, rfl, .nil⟩
      · rintro ⟨added, rfl, hlen, _⟩
        rw [List.eq_nil_of_length_eq_zero hlen, List.append_nil, addWorkers]
  | succ k ih =>
      rw [addWorkers]
      constructor
      · intro h
        cases hw : nextWorker runners (usedPorts ws) with
        | error e => simp [hw, bind, Except.bind] at h
        | ok w =>
            simp only [hw, bind, Except.bind, ← usedPorts_concat] at h
            obtain ⟨added, rfl, hlen, hgrows⟩ := ih.mp h
            exact ⟨w :: added, by simp, by simp [hlen], .cons (nextWorker_eq_ok.mp hw) hgrows⟩
      · rintro ⟨_ | ⟨w, added⟩, rfl, hlen, hgrows⟩
        · simp at hlen
        · cases hgrows with
          | cons hw hgrows =>
              simp only [nextWorker_eq_ok.mpr hw, bind, Except.bind, ← usedPorts_concat]
              exact ih.mpr ⟨added, by simp, by simpa using hlen, hgrows⟩

theorem grows_append {added' : List PeerId} :
    Grows runners ws (added ++ added') ↔
      Grows runners ws added ∧ Grows runners (ws ++ added) added' := by
  induction added generalizing ws with
  | nil => simp [Grows.nil]
  | cons w added ih =>
      constructor
      · rintro (_ | ⟨hw, hrest⟩)
        obtain ⟨h₁, h₂⟩ := ih.mp hrest
        exact ⟨.cons hw h₁, by simpa using h₂⟩
      · rintro ⟨_ | ⟨hw, h₁⟩, h₂⟩
        exact .cons hw (ih.mpr ⟨h₁, by simpa using h₂⟩)

theorem Adds.unique {w' : PeerId} (h : Adds runners ws w) (h' : Adds runners ws w') : w = w' := by
  have heq := nextWorker_eq_ok.mpr h
  rw [nextWorker_eq_ok.mpr h'] at heq
  exact (Except.ok.inj heq).symm

theorem Grows.fills (h : Grows runners ws added) :
    Fills (hosts runners) (load ws) (hosts added) := by
  induction h with
  | nil => exact .nil
  | cons hw _ ih =>
      rw [load_concat] at ih
      exact .cons hw.host ih

theorem Adds.notMem (h : Adds runners ws w) : w ∉ ws := by
  obtain ⟨m, _, hfree⟩ := h.port
  exact fun hw => hfree.1 (mem_usedPorts.mpr hw)

theorem Grows.nodup (h : Grows runners ws added) (hws : ws.Nodup) : (ws ++ added).Nodup := by
  induction h with
  | nil => simpa using hws
  | @cons ws added w hw _ ih =>
      have hws' : (ws ++ [w]).Nodup := by
        rw [List.nodup_append]
        exact ⟨hws, List.nodup_singleton w, by
          intro a ha b hb
          rw [List.mem_singleton] at hb
          subst hb
          exact fun e => hw.notMem (e ▸ ha)⟩
      simpa using ih hws'

theorem Grows.mem_hosts (h : Grows runners ws added) (hw : w ∈ added) :
    w.ipv4 ∈ hosts runners := by
  induction h with
  | nil => simp at hw
  | cons hadds _ ih =>
      rcases List.mem_cons.mp hw with rfl | hw
      · exact hadds.host.1
      · exact ih hw

/-- The loop runs to its end while there are less than `2 ^ 16` workers. -/
theorem exists_grows (hne : runners ≠ []) (hcov : Covers runners ws)
    (hlen : ws.length + k ≤ 2 ^ 16) : ∃ added, added.length = k ∧ Grows runners ws added := by
  induction k generalizing ws with
  | zero => exact ⟨[], rfl, .nil⟩
  | succ k ih =>
      obtain ⟨h, hl⟩ := exists_least_host ws hne
      have hroom : ws.length < 2 ^ 16 := by omega
      obtain ⟨x, hx⟩ := exists_free_port hroom h
      obtain ⟨w, hw, _⟩ := hcov.exists_adds hl hx
      have hlen' : (ws ++ [w]).length + k ≤ 2 ^ 16 := by
        rw [List.length_append, List.length_singleton]
        omega
      obtain ⟨added, hk, hgrows⟩ := ih (hcov.append [w]) hlen'
      exact ⟨w :: added, by simp [hk], .cons hw hgrows⟩

theorem Grows.unique {added' : List PeerId} (h : Grows runners ws added)
    (h' : Grows runners ws added') (hlen : added.length = added'.length) : added = added' := by
  have heq := addWorkers_eq_ok.mpr ⟨added, rfl, rfl, h⟩
  rw [addWorkers_eq_ok.mpr ⟨added', rfl, hlen.symm, h'⟩] at heq
  exact (List.append_cancel_left (Except.ok.inj heq)).symm

end Loop

section Resize

variable {c c' : ClusterConfig} {n : ℕ}

theorem resize_of_le (h : n ≤ c.workers.length) :
    c.resize n = .ok ⟨c.runners, c.workers.take n⟩ := by
  rw [resize, if_pos h]

theorem resize_of_runners_nil (h : c.runners = []) (hn : c.workers.length ≤ n) :
    c.resize n = .ok c := by
  rw [resize]
  split
  · rw [List.take_of_length_le hn]
  · simp [h]

theorem resize_eq_error (hne : c.runners ≠ []) (hn : c.workers.length < n) {e : ResizeFault} :
    c.resize n = .error e ↔
      addWorkers c.runners (n - c.workers.length) (usedPorts c.workers) c.workers = .error e := by
  have hlen : ¬c.runners.length ≤ 0 := by
    have hpos := List.length_pos_of_ne_nil hne
    omega
  rw [resize, if_neg (by omega), if_neg hlen]
  cases addWorkers c.runners (n - c.workers.length) (usedPorts c.workers) c.workers <;>
    simp [bind, Except.bind, pure, Except.pure]

/-- What `resize` returns when it does not cut. -/
theorem resize_eq_ok (hne : c.runners ≠ []) (hn : c.workers.length ≤ n) :
    c.resize n = .ok c' ↔ ∃ added, c' = ⟨c.runners, c.workers ++ added⟩ ∧
      c.workers.length + added.length = n ∧ Grows c.runners c.workers added := by
  have hlen : ¬c.runners.length ≤ 0 := by
    have hpos := List.length_pos_of_ne_nil hne
    omega
  rw [resize]
  split
  · next hle =>
    obtain rfl : n = c.workers.length := by omega
    rw [List.take_length, Except.ok.injEq]
    constructor
    · rintro rfl
      exact ⟨[], by simp, by simp, .nil⟩
    · rintro ⟨added, rfl, hadd, _⟩
      rw [List.eq_nil_of_length_eq_zero (by omega : added.length = 0), List.append_nil]
  · constructor
    · intro h
      cases hws : addWorkers c.runners (n - c.workers.length) (usedPorts c.workers) c.workers with
      | error e => simp [hws, bind, Except.bind] at h
      | ok ws =>
          simp only [hws, bind, Except.bind, pure, Except.pure, Except.ok.injEq] at h
          obtain ⟨added, rfl, hk, hgrows⟩ := addWorkers_eq_ok.mp hws
          exact ⟨added, h.symm, by omega, hgrows⟩
    · rintro ⟨added, rfl, hk, hgrows⟩
      have hws := addWorkers_eq_ok.mpr ⟨added, rfl, rfl, hgrows⟩
      rw [show n - c.workers.length = added.length by omega, hws]
      rfl

/-! ## The specification -/

/-- What `resize` is for. -/
structure ResizesTo (c : ClusterConfig) (n : ℕ) (c' : ClusterConfig) : Prop where
  runners : c'.runners = c.runners
  length : c'.workers.length = n
  nodup : c'.workers.Nodup
  shrunk : n ≤ c.workers.length → c'.workers = c.workers.take n
  grown : c.workers.length ≤ n → ∃ added, c'.workers = c.workers ++ added ∧
    ∀ w ∈ added, (∃ r ∈ c.runners, w.ipv4 = r.ipv4) ∧
      ∀ r ∈ c.runners, load c'.workers w.ipv4 ≤ load c'.workers r.ipv4 + 1

/-- **`resize` meets its specification where it is defined**: with a worker on every runner host
and up to 65536 workers. -/
theorem resize_meets_spec (hws : c.workers.Nodup) (hne : c.runners ≠ []) (hcov : c.Covered)
    (hn : n ≤ 65536) : ∃ c', c.resize n = .ok c' ∧ ResizesTo c n c' := by
  rcases Nat.lt_or_ge c.workers.length n with hlt | hge
  · obtain ⟨added, hk, hgrows⟩ :=
      exists_grows (k := n - c.workers.length) hne hcov (by omega)
    have hlen : c.workers.length + added.length = n := by omega
    refine ⟨_, (resize_eq_ok hne hlt.le).mpr ⟨added, rfl, hlen, hgrows⟩, ?_⟩
    refine ⟨rfl, by simpa using hlen, hgrows.nodup hws, by omega, fun _ => ⟨added, rfl, ?_⟩⟩
    intro w hw
    obtain ⟨r, hr, heq⟩ := List.mem_map.mp (hgrows.mem_hosts hw)
    refine ⟨⟨r, hr, heq.symm⟩, fun q hq => ?_⟩
    have hbal := hgrows.fills.balanced (List.mem_map_of_mem hw) (List.mem_map_of_mem hq)
    rwa [← load_append, ← load_append] at hbal
  · refine ⟨_, resize_of_le hge, rfl, by simpa using hge, hws.sublist (List.take_sublist _ _),
      fun _ => rfl, fun hle => ⟨[], ?_, by simp⟩⟩
    rw [List.take_of_length_le hle, List.append_nil]

/-- A worker on each of two hosts. -/
def twoHosts : ClusterConfig :=
  ⟨[⟨2130706433, 7777⟩, ⟨2130706434, 7777⟩], [⟨2130706433, 10000⟩, ⟨2130706434, 10000⟩]⟩

theorem twoHosts_covered : twoHosts.Covered := by
  simp [Covers, twoHosts]

theorem resize_meets_spec_twoHosts : ∃ c', twoHosts.resize 5 = .ok c' ∧ ResizesTo twoHosts 5 c' :=
  resize_meets_spec (by decide) (by decide) twoHosts_covered (by decide)

/-! ## The empty port list -/

/-- On a covered cluster no round meets a host without a worker. -/
theorem addWorkers_ne_emptyMin {runners ws : List PeerId} {k : ℕ} (hne : runners ≠ [])
    (hcov : Covers runners ws) : addWorkers runners k (usedPorts ws) ws ≠ .error .emptyMin := by
  induction k generalizing ws with
  | zero => simp [addWorkers]
  | succ k ih =>
      obtain ⟨h, hl⟩ := exists_least_host ws hne
      rw [addWorkers]
      cases hw : nextWorker runners (usedPorts ws) with
      | error e =>
          intro he
          obtain rfl := Except.error.inj he
          rw [nextWorker_eq_error hl, nextUnused_eq_emptyMin] at hw
          exact hcov.usedPorts_ne_nil hl.1 hw
      | ok w =>
          simp only [bind, Except.bind, ← usedPorts_concat]
          exact ih (hcov.append [w])

/-- A host without a worker is the first to be chosen. -/
theorem addWorkers_emptyMin {runners ws : List PeerId} {k : ℕ} (hcov : ¬Covers runners ws) :
    addWorkers runners (k + 1) (usedPorts ws) ws = .error .emptyMin := by
  simp only [Covers, not_forall] at hcov
  obtain ⟨r, hr, hnone⟩ := hcov
  have hzero : load ws r.ipv4 = 0 := by
    rw [← load_pos] at hnone
    omega
  obtain ⟨h, hl⟩ := exists_least_host ws (List.ne_nil_of_mem hr)
  have hle := (hl.2 _ (List.mem_map_of_mem hr)).1
  have hnil : usedPorts ws h = [] := by
    apply List.eq_nil_of_length_eq_zero
    rw [length_usedPorts]
    omega
  rw [addWorkers, (nextWorker_eq_error hl).mpr (nextUnused_eq_emptyMin.mpr hnil)]
  rfl

/-- **When `resize` takes the minimum of no ports**: exactly when it grows a cluster with a runner
host that has no worker. -/
theorem resize_defined_iff (c : ClusterConfig) (n : ℕ) :
    c.resize n ≠ .error .emptyMin ↔ n ≤ c.workers.length ∨ c.Covered := by
  rcases Nat.lt_or_ge c.workers.length n with hlt | hge
  · by_cases hne : c.runners = []
    · rw [resize_of_runners_nil hne hlt.le]
      simp [Covers, hne]
    · rw [or_iff_right (by omega), ne_eq, resize_eq_error hne hlt]
      constructor
      · intro h
        by_contra hcov
        obtain ⟨k, hk⟩ := Nat.exists_eq_add_of_lt hlt
        rw [show n - c.workers.length = k + 1 by omega] at h
        exact h (addWorkers_emptyMin hcov)
      · exact addWorkers_ne_emptyMin hne
  · rw [resize_of_le hge]
    simp [hge]

/-- A worker on the host of the first runner, none on that of the second, and one more worker. -/
theorem not_resize_defined : ¬∀ (c : ClusterConfig) (n : ℕ), c.runners ≠ [] →
    c.resize n ≠ .error .emptyMin := by
  intro h
  exact h ⟨[⟨2130706433, 7777⟩, ⟨2130706434, 7777⟩], [⟨2130706433, 10000⟩]⟩ 2 (by decide) (by rfl)

/-! ## Which ports are given out

Host and port of every new worker can be read off the config: how many workers a host gets from
the loads, and in which order its ports are given out from the ports that are used. -/

/-- The smallest port that is used on a host. -/
def minPort (c : ClusterConfig) (h : UInt32) : UInt16 :=
  (minElement (fun x y => decide (x < y)) (usedPorts c.workers h)).getD 0

/-- The number of workers at which the host `h` gets its `j + 1`-st new worker. -/
def sizeAt (c : ClusterConfig) (h : UInt32) (j : ℕ) : ℕ :=
  c.workers.length + turn (hosts c.runners) (load c.workers) h (load c.workers h + j)

/-- The number of free ports that are given out before that of `r`. -/
def freeBefore (c : ClusterConfig) (r : PeerId) : ℕ :=
  freeWithin (usedPorts c.workers r.ipv4) (c.minPort r.ipv4) (offset (c.minPort r.ipv4) r.port)

/-- The number of free ports above the smallest used one. -/
def freeAbove (c : ClusterConfig) (h : UInt32) : ℕ :=
  freeWithin (usedPorts c.workers h) (c.minPort h) (2 ^ 16 - (c.minPort h).toNat)

theorem Covers.smallest {h : UInt32} (hcov : c.Covered) (hh : h ∈ hosts c.runners) :
    Smallest (usedPorts c.workers h) (c.minPort h) := by
  cases hmin : minElement (fun x y => decide (x < y)) (usedPorts c.workers h) with
  | none => exact absurd (minElement_eq_none.mp hmin) (hcov.usedPorts_ne_nil hh)
  | some m =>
      rw [minPort, hmin, Option.getD_some]
      exact minElement_eq_some.mp hmin

/-- How many workers a host gets. -/
theorem Grows.lt_load_iff {added : List PeerId} {h : UInt32}
    (hgrows : Grows c.runners c.workers added) (hh : h ∈ hosts c.runners) (j : ℕ) :
    j < (usedPorts added h).length ↔ c.sizeAt h j < c.workers.length + added.length := by
  rw [length_usedPorts_eq_count, hgrows.fills.lt_count_iff hh, List.length_map, sizeAt,
    Nat.add_lt_add_iff_left]

/-- The size at which the host that is next gets a worker is the size that was reached. -/
theorem Grows.sizeAt_le {added : List PeerId} {h : UInt32}
    (hgrows : Grows c.runners c.workers added)
    (hl : Least (hosts c.runners) (load (c.workers ++ added)) h) :
    c.sizeAt h (usedPorts added h).length ≤ c.workers.length + added.length := by
  have hload : load (c.workers ++ added) = fun g => load c.workers g + (hosts added).count g :=
    funext fun g => load_append _ _ g
  have hnext := fills_concat.mpr ⟨hgrows.fills, hload ▸ hl⟩
  have hiff := hnext.lt_count_iff hl.1 (usedPorts added h).length
  rw [List.count_append, List.count_singleton_self, ← length_usedPorts_eq_count,
    List.length_append, List.length_map, List.length_singleton] at hiff
  have hturn := hiff.mp (Nat.lt_succ_self _)
  rw [sizeAt]
  omega

theorem sizeAt_mono {h : UInt32} {j j' : ℕ} (hj : j ≤ j') : c.sizeAt h j ≤ c.sizeAt h j' :=
  Nat.add_le_add_left (turn_mono (Nat.add_le_add_left hj _)) _

/-- In which order the ports of a host are given out. -/
theorem Grows.takes {runners ws added : List PeerId} {h : UInt32} {m : UInt16}
    (hgrows : Grows runners ws added) (hb : Based (usedPorts ws h) m) :
    Takes m (usedPorts ws h) (usedPorts added h) := by
  induction hgrows with
  | nil => exact .nil
  | @cons ws added w hw _ ih =>
      obtain ⟨m', hm', hfree⟩ := hw.port
      rw [usedPorts_concat] at ih
      rw [usedPorts_cons]
      by_cases hh : w.ipv4 = h
      · subst hh
        have hfirst := hb.firstFree hm' hfree
        simp only [PortMap.push, Function.update_self] at ih
        rw [if_pos rfl]
        exact .cons hfirst (ih (hb.push hfirst))
      · simp only [PortMap.push, Function.update_of_ne (Ne.symm hh)] at ih
        rw [if_neg hh]
        exact ih hb

/-! ## Endpoints of runners -/

/-- **When `resize` puts a worker on the endpoint of a runner**: when there are more workers than
until the turn of its port comes. -/
theorem resize_avoids_runners_iff (hres : c.resize n = .ok c')
    (hdis : ∀ w ∈ c.workers, w ∉ c.runners) :
    (∀ w ∈ c'.workers, w ∉ c'.runners) ↔
      ∀ r ∈ c.runners, n ≤ c.sizeAt r.ipv4 (c.freeBefore r) := by
  rcases Nat.lt_or_ge c.workers.length n with hlt | hge
  · by_cases hne : c.runners = []
    · rw [resize_of_runners_nil hne hlt.le] at hres
      obtain rfl := Except.ok.inj hres
      simp [hne]
    · have hcov : c.Covered := by
        have hdef := (resize_defined_iff c n).mp (by simp [hres])
        exact hdef.resolve_left (by omega)
      obtain ⟨added, rfl, hlen, hgrows⟩ := (resize_eq_ok hne hlt.le).mp hres
      have hiff : ∀ r ∈ c.runners, r ∈ c.workers ++ added ↔
          c.sizeAt r.ipv4 (c.freeBefore r) < n := by
        intro r hr
        have hold : r ∉ c.workers := fun hw => hdis r hw hr
        have hh : r.ipv4 ∈ hosts c.runners := List.mem_map_of_mem hr
        have htakes := hgrows.takes (hcov.smallest hh).based
        rw [List.mem_append, or_iff_right hold, ← hlen, ← hgrows.lt_load_iff hh, freeBefore,
          ← htakes.mem_iff (mt mem_usedPorts.mp hold), mem_usedPorts]
      constructor
      · intro h r hr
        by_contra hgt
        exact h r ((hiff r hr).mpr (by omega)) hr
      · intro h r hr hrun
        have hlt' := (hiff r hrun).mp hr
        have hle := h r hrun
        omega
  · rw [resize_of_le hge] at hres
    obtain rfl := Except.ok.inj hres
    constructor
    · intro _ r _
      rw [sizeAt]
      omega
    · intro _ w hw
      exact hdis w (List.mem_of_mem_take hw)

theorem resize_avoids_runners_twoHosts :
    (∀ w ∈ (twoHosts.workers ++ [⟨2130706433, 10001⟩] : List PeerId), w ∉ twoHosts.runners) ↔
      ∀ r ∈ twoHosts.runners, 3 ≤ twoHosts.sizeAt r.ipv4 (twoHosts.freeBefore r) := by
  have hres : twoHosts.resize 3 =
      .ok ⟨twoHosts.runners, twoHosts.workers ++ [⟨2130706433, 10001⟩]⟩ := by rfl
  exact resize_avoids_runners_iff hres (by decide)

/-- A runner on the port behind that of the only worker, and one more worker. -/
def runnerBehind : ClusterConfig := ⟨[⟨2130706433, 10001⟩], [⟨2130706433, 10000⟩]⟩

theorem not_resize_avoids_runners : ¬∀ (c c' : ClusterConfig) (n : ℕ), c.resize n = .ok c' →
    (∀ w ∈ c.workers, w ∉ c.runners) → ∀ w ∈ c'.workers, w ∉ c'.runners := by
  intro h
  have hres : runnerBehind.resize 2 =
      .ok ⟨runnerBehind.runners, runnerBehind.workers ++ runnerBehind.runners⟩ := by rfl
  exact h _ _ 2 hres (by decide) ⟨2130706433, 10001⟩ (by decide) (by decide)

/-! ## Going over the end of the range -/

/-- Every worker of `added` has a larger port than some worker before it on its host. -/
def Rising : List PeerId → List PeerId → Prop
  | _, [] => True
  | ws, w :: added => (∃ v ∈ ws, v.ipv4 = w.ipv4 ∧ v.port < w.port) ∧ Rising (ws ++ [w]) added

theorem rising_append {ws added added' : List PeerId} :
    Rising ws (added ++ added') ↔ Rising ws added ∧ Rising (ws ++ added) added' := by
  induction added generalizing ws with
  | nil => simp [Rising]
  | cons w added ih => simp [Rising, ih, and_assoc]

/-- Ports that rise stay above the smallest one. -/
theorem Rising.above {ws added : List PeerId} {h : UInt32} {m : UInt16} (hrise : Rising ws added)
    (hm : ∀ p ∈ usedPorts ws h, m.toNat ≤ p.toNat) {p : UInt16} (hp : p ∈ usedPorts added h) :
    m.toNat < p.toNat := by
  induction added generalizing ws with
  | nil => simp [usedPorts] at hp
  | cons w added ih =>
      obtain ⟨⟨v, hv, hhost, hlt⟩, hrest⟩ := hrise
      have hw : w.ipv4 = h → m.toNat < w.port.toNat := by
        rintro rfl
        have hle := hm v.port (mem_usedPorts.mpr (by rwa [← hhost]))
        rw [UInt16.lt_iff_toNat_lt] at hlt
        omega
      rw [mem_usedPorts, List.mem_cons] at hp
      rcases hp with rfl | hp
      · exact hw rfl
      · refine ih hrest ?_ (mem_usedPorts.mpr hp)
        intro q hq
        rw [mem_usedPorts, List.mem_append, List.mem_singleton] at hq
        rcases hq with hq | rfl
        · exact hm q (mem_usedPorts.mpr hq)
        · exact (hw rfl).le

/-- As long as the sizes are not exceeded, the next port is above the smallest one. -/
theorem Grows.exists_rising {added : List PeerId} (hgrows : Grows c.runners c.workers added)
    (hcov : c.Covered) (hne : c.runners ≠ [])
    (hsize : ∀ r ∈ c.runners,
      c.workers.length + added.length < c.sizeAt r.ipv4 (c.freeAbove r.ipv4)) :
    ∃ w, Adds c.runners (c.workers ++ added) w ∧
      ∃ v ∈ c.workers ++ added, v.ipv4 = w.ipv4 ∧ v.port < w.port := by
  obtain ⟨h, hl⟩ := exists_least_host (c.workers ++ added) hne
  have hmin := hcov.smallest hl.1
  -- `h` has got less workers than there were free ports above the smallest
  have hfew : (usedPorts added h).length < c.freeAbove h := by
    obtain ⟨r, hr, rfl⟩ := List.mem_map.mp hl.1
    have hlt := hsize r hr
    have hle := hgrows.sizeAt_le hl
    by_contra hge
    have hmono := c.sizeAt_mono (h := r.ipv4) (not_lt.mp hge)
    omega
  obtain ⟨x, hx, hoff⟩ := exists_free_within (Nat.sub_le _ _) hfew
  rw [← usedPorts_append] at hx
  obtain ⟨w, hw, rfl⟩ := (hcov.append added).exists_adds hl hx
  have hbased := hmin.based.takes (hgrows.takes hmin.based)
  rw [← usedPorts_append] at hbased
  obtain ⟨m', hm', hfree⟩ := hw.port
  have hfirst := hbased.firstFree hm' hfree
  have hle := hfirst.2 x hx
  have hne' : w.port.toNat ≠ (c.minPort w.ipv4).toNat := by
    intro heq
    rw [UInt16.toNat_inj] at heq
    exact hfirst.1 (heq ▸ hbased.1)
  have habove : (c.minPort w.ipv4).toNat < w.port.toNat := by
    by_contra hge
    have hover := offset_of_lt (lt_of_le_of_ne (not_lt.mp hge) hne')
    omega
  exact ⟨w, hw, ⟨w.ipv4, c.minPort w.ipv4⟩, mem_usedPorts.mp hbased.1, rfl,
    UInt16.lt_iff_toNat_lt.mpr habove⟩

/-- A host that only gets ports above its smallest one gets no more than are free there. -/
theorem Grows.length_le_freeAbove {added : List PeerId} {h : UInt32}
    (hgrows : Grows c.runners c.workers added) (hcov : c.Covered) (hh : h ∈ hosts c.runners)
    (hrise : Rising c.workers added) : (usedPorts added h).length ≤ c.freeAbove h := by
  have hmin := hcov.smallest hh
  refine (hgrows.takes hmin.based).length_le ?_ (Nat.sub_le _ _)
  intro p hp
  have habove := hrise.above hmin.2 hp
  have hlt := p.toNat_lt
  rw [offset_of_le habove.le]
  omega

/-- The loop runs to its end, and the ports rise, as long as the sizes are not exceeded. -/
theorem exists_grows_rising (hcov : c.Covered) (hne : c.runners ≠ []) (k : ℕ)
    (hsize : ∀ r ∈ c.runners, c.workers.length + k ≤ c.sizeAt r.ipv4 (c.freeAbove r.ipv4)) :
    ∃ added, added.length = k ∧ Grows c.runners c.workers added ∧ Rising c.workers added := by
  induction k with
  | zero => exact ⟨[], rfl, .nil, trivial⟩
  | succ k ih =>
      obtain ⟨added, rfl, hgrows, hrise⟩ := ih fun r hr => by
        have hle := hsize r hr
        omega
      obtain ⟨w, hw, hport⟩ := hgrows.exists_rising hcov hne fun r hr => by
        have hle := hsize r hr
        omega
      exact ⟨added ++ [w], by simp, grows_append.mpr ⟨hgrows, .cons hw .nil⟩,
        rising_append.mpr ⟨hrise, hport, trivial⟩⟩

/-- **When the allocation of ports neither wraps nor spins**: when every runner host gets no more
workers than it had free ports above the smallest used one. -/
theorem port_allocation_iff (hcov : c.Covered) :
    (∃ c', c.resize n = .ok c' ∧ Rising c.workers (c'.workers.drop c.workers.length)) ↔
      ∀ r ∈ c.runners, n ≤ c.sizeAt r.ipv4 (c.freeAbove r.ipv4) := by
  rcases Nat.lt_or_ge c.workers.length n with hlt | hge
  · by_cases hne : c.runners = []
    · rw [resize_of_runners_nil hne hlt.le]
      simp [hne, Rising]
    · constructor
      · rintro ⟨c', hres, hrise⟩ r hr
        obtain ⟨added, rfl, hlen, hgrows⟩ := (resize_eq_ok hne hlt.le).mp hres
        rw [List.drop_left] at hrise
        have hh : r.ipv4 ∈ hosts c.runners := List.mem_map_of_mem hr
        have hle := hgrows.length_le_freeAbove hcov hh hrise
        have hiff := hgrows.lt_load_iff hh (c.freeAbove r.ipv4)
        by_contra hgt
        exact absurd (hiff.mpr (by omega)) (not_lt.mpr hle)
      · intro hsize
        obtain ⟨added, hk, hgrows, hrise⟩ := exists_grows_rising hcov hne (n - c.workers.length)
          fun r hr => by
            have hle := hsize r hr
            omega
        refine ⟨_, (resize_eq_ok hne hlt.le).mpr ⟨added, rfl, by omega, hgrows⟩, ?_⟩
        rwa [List.drop_left]
  · rw [resize_of_le hge]
    constructor
    · intro _ r _
      rw [sizeAt]
      omega
    · intro _
      refine ⟨_, rfl, ?_⟩
      rw [List.drop_eq_nil_of_le (by simp)]
      trivial

theorem port_allocation_twoHosts :
    (∃ c', twoHosts.resize 5 = .ok c' ∧ Rising twoHosts.workers (c'.workers.drop 2)) ↔
      ∀ r ∈ twoHosts.runners, 5 ≤ twoHosts.sizeAt r.ipv4 (twoHosts.freeAbove r.ipv4) :=
  port_allocation_iff twoHosts_covered

/-- The only worker has the last port; the next one gets port 0. -/
def lastPort : ClusterConfig := ⟨[⟨2130706433, 7777⟩], [⟨2130706433, 65535⟩]⟩

theorem not_port_allocation : ¬∀ (c : ClusterConfig) (n : ℕ), c.Covered →
    ∃ c', c.resize n = .ok c' ∧ Rising c.workers (c'.workers.drop c.workers.length) := by
  intro h
  have hres : lastPort.resize 2 =
      .ok ⟨lastPort.runners, lastPort.workers ++ [⟨2130706433, 0⟩]⟩ := by rfl
  have hcov : lastPort.Covered := by
    simp [Covers, lastPort]
  obtain ⟨c', hc', hrise⟩ := h lastPort 2 hcov
  rw [hres] at hc'
  obtain rfl := Except.ok.inj hc'
  obtain ⟨⟨v, hv, _, hlt⟩, _⟩ := hrise
  simp [UInt16.lt_iff_toNat_lt] at hlt

/-! ## Several steps -/

/-- The first workers that are added do not depend on how many there are. -/
theorem Grows.resize_take {added : List PeerId} {m : ℕ} (hgrows : Grows c.runners c.workers added)
    (hne : c.runners ≠ []) (hm : m ≤ added.length) :
    c.resize (c.workers.length + m) = .ok ⟨c.runners, c.workers ++ added.take m⟩ := by
  rw [← List.take_append_drop m added, grows_append] at hgrows
  refine (resize_eq_ok hne (Nat.le_add_right _ _)).mpr ⟨added.take m, rfl, ?_, hgrows.1⟩
  rw [List.length_take, min_eq_left hm]

/-- Growing in two steps. -/
theorem resize_grow_grow {m : ℕ} (hcov : c.Covered) (hm : c.workers.length ≤ m) (hmn : m ≤ n)
    (hn : n ≤ 65536) : ∃ d e, c.resize m = .ok d ∧ d.resize n = .ok e ∧ c.resize n = .ok e := by
  by_cases hne : c.runners = []
  · have hsame := resize_of_runners_nil hne (hm.trans hmn)
    exact ⟨c, c, resize_of_runners_nil hne hm, hsame, hsame⟩
  · obtain ⟨k, rfl⟩ := Nat.exists_eq_add_of_le hm
    obtain ⟨l, rfl⟩ := Nat.exists_eq_add_of_le hmn
    obtain ⟨added, hlen, hgrows⟩ := exists_grows (k := k + l) hne hcov (by omega)
    have hfirst := hgrows.resize_take hne (by omega : k ≤ added.length)
    have hall := hgrows.resize_take hne (by omega : k + l ≤ added.length)
    rw [← Nat.add_assoc, List.take_of_length_le hlen.le] at hall
    rw [← List.take_append_drop k added, grows_append] at hgrows
    have htake : (added.take k).length = k := by rw [List.length_take]; omega
    have hsecond : resize ⟨c.runners, c.workers ++ added.take k⟩ (c.workers.length + k + l) =
        .ok ⟨c.runners, c.workers ++ added⟩ := by
      apply (resize_eq_ok ?_ ?_).mpr
      · refine ⟨added.drop k, ?_, ?_, hgrows.2⟩
        · simp only [List.append_assoc, List.take_append_drop]
        · simp only [List.length_append, htake, List.length_drop]
          omega
      · exact hne
      · simp only [List.length_append, htake]
        omega
    exact ⟨_, _, hfirst, hsecond, hall⟩

/-- Growing and cutting again. -/
theorem resize_grow_cut {m : ℕ} (hcov : c.Covered) (hmn : m ≤ n) (hn : n ≤ 65536) :
    ∃ d e, c.resize n = .ok d ∧ d.resize m = .ok e ∧ c.resize m = .ok e := by
  rcases Nat.lt_or_ge c.workers.length n with hlt | hge
  · by_cases hne : c.runners = []
    · rcases Nat.lt_or_ge c.workers.length m with hlt' | hge'
      · have hsame := resize_of_runners_nil hne hlt'.le
        exact ⟨c, c, resize_of_runners_nil hne hlt.le, hsame, hsame⟩
      · have hcut := resize_of_le hge'
        exact ⟨c, _, resize_of_runners_nil hne hlt.le, hcut, hcut⟩
    · obtain ⟨k, rfl⟩ := Nat.exists_eq_add_of_le hlt.le
      obtain ⟨added, hlen, hgrows⟩ := exists_grows (k := k) hne hcov (by omega)
      have hall := hgrows.resize_take hne hlen.ge
      rw [List.take_of_length_le hlen.le] at hall
      have hcut : resize ⟨c.runners, c.workers ++ added⟩ m =
          .ok ⟨c.runners, (c.workers ++ added).take m⟩ := by
        apply resize_of_le
        rw [List.length_append]
        omega
      refine ⟨_, _, hall, hcut, ?_⟩
      rcases Nat.lt_or_ge c.workers.length m with hlt' | hge'
      · obtain ⟨l, rfl⟩ := Nat.exists_eq_add_of_le hlt'.le
        rw [List.take_length_add_append]
        exact hgrows.resize_take hne (by omega)
      · rw [List.take_append_of_le_length hge']
        exact resize_of_le hge'
  · have hcut : resize ⟨c.runners, c.workers.take n⟩ m =
        .ok ⟨c.runners, (c.workers.take n).take m⟩ := by
      apply resize_of_le
      rw [List.length_take]
      omega
    refine ⟨_, _, resize_of_le hge, hcut, ?_⟩
    rw [List.take_take, min_eq_left hmn]
    exact resize_of_le (hmn.trans hge)

/-- **The way does not matter**: growing in two steps, and growing and cutting again, gives what
the direct `resize` gives. -/
theorem resize_path_independent (hcov : c.Covered) :
    (∀ m n, c.workers.length ≤ m → m ≤ n → n ≤ 65536 →
      ∃ d e, c.resize m = .ok d ∧ d.resize n = .ok e ∧ c.resize n = .ok e) ∧
    ∀ m n, m ≤ n → n ≤ 65536 →
      ∃ d e, c.resize n = .ok d ∧ d.resize m = .ok e ∧ c.resize m = .ok e :=
  ⟨fun _ _ => resize_grow_grow hcov, fun _ _ => resize_grow_cut hcov⟩

theorem resize_path_independent_twoHosts :
    ∃ d e, twoHosts.resize 3 = .ok d ∧ d.resize 5 = .ok e ∧ twoHosts.resize 5 = .ok e :=
  (resize_path_independent twoHosts_covered).1 3 5 (by decide) (by decide) (by decide)

end Resize

end ClusterConfig

end StdmlCollective

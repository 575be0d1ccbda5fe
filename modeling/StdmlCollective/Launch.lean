import StdmlCollective.AddressText
import StdmlCollective.Http
import StdmlCollective.Lifetime

/-!
# How peers come about

A process learns from its environment who it is and who the others are: from the variables of the
kungfu launcher, or those of Open MPI, or it is alone; or it is forked with its number. It makes
its own list of the peers and its own place in it, and nothing but the way the lists are made says
that the processes of a job agree.
-/

namespace StdmlCollective

open Address Decimal Scanf
open Memory (Mem)

/-! ## The environment -/

/-- The variables that are looked at: `KUNGFU_SELF_SPEC`, `KUNGFU_INIT_PEERS`,
`KUNGFU_INIT_RUNNERS`, `KUNGFU_INIT_CLUSTER_VERSION`, `KUNGFU_ALLREDUCE_STRATEGY`,
`OMPI_COMM_WORLD_SIZE`, `OMPI_COMM_WORLD_RANK`, and those that begin with
`STDML_COLLECTIVE_USE_`. -/
inductive EnvVar where
  | selfSpec
  | initPeers
  | initRunners
  | initClusterVersion
  | allreduceStrategy
  | worldSize
  | worldRank
  | useThreadPool
  | useAsync
  | useGoRuntime
  | useAffinity
deriving DecidableEq, Repr

/-- `std::getenv`. -/
abbrev Env := EnvVar → Option Bytes

/-- What is thrown on the way to a peer: by `std::stoi`, by `std::vector::at`, by a `std::string`
made of a null pointer, or by `std::optional::value`; and an index out of range in `operator[]`,
for which the behaviour is undefined. -/
inductive StartError where
  | invalidArgument
  | outOfRange
  | nullString
  | noValue
  | undefinedIndex
deriving DecidableEq, Repr

/-- `safe_getenv`. -/
def safeGetenv (env : Env) (x : EnvVar) : Bytes := (env x).getD []

/-- `std::stoi`: white space, a sign and digits; what follows is not looked at. -/
def stoi (s : Bytes) : Except StartError ℤ :=
  let (minus, t) := sign ((cStr s).dropWhile isSpace)
  let ds := t.takeWhile isDigit
  if ds = [] then .error .invalidArgument
  else
    let v := strtol minus (value ds)
    if -2 ^ 31 ≤ v ∧ v < 2 ^ 31 then .ok v else .error .outOfRange

/-- `parse_env_int`. -/
def parseEnvInt (env : Env) (x : EnvVar) : Except StartError (Option ℤ) :=
  let v := safeGetenv env x
  if v = [] then .ok none else (stoi v).map some

/-- `parse_env_bool`: `true`, `on` or `1`. -/
def parseEnvBool (env : Env) (x : EnvVar) : Bool :=
  let v := (safeGetenv env x).map toLower
  v = [116, 114, 117, 101] || v = [111, 110] || v = [49]

/-- `runtime_type`. -/
inductive RuntimeType where
  | multiThread
  | threadPool
  | async
  | coro
  | go
deriving DecidableEq, Repr

/-- `system_config`. -/
structure SystemConfig where
  rt : RuntimeType
  threadPoolSize : ℕ
  useAffinity : Bool
deriving DecidableEq, Repr

/-- `parse_system_config_from_env`, with `std::thread::hardware_concurrency()` threads. -/
def parseSystemConfigFromEnv (cores : ℕ) (env : Env) : SystemConfig :=
  let (rt, size) : RuntimeType × ℕ :=
    if parseEnvBool env .useThreadPool then (.threadPool, cores) else (.multiThread, 0)
  let rt := if parseEnvBool env .useAsync then .async else rt
  let rt := if parseEnvBool env .useGoRuntime then .go else rt
  ⟨rt, size, parseEnvBool env .useAffinity⟩

/-- `"RING"`. -/
def ringText : Bytes := [82, 73, 78, 71]

/-- `parse_kungfu_startegy`: the table has `RING` and `STAR`, and `STAR` is what it is otherwise. -/
def parseKungfuStartegy (env : Env) : Except StartError Strategy :=
  match env .allreduceStrategy with
  | none => .error .nullString
  | some val => .ok (if val = ringText then .ring else .star)

/-! ## Peers and sessions -/

/-- A `peer`: what its constructor is given, and whether `start` has been called, which is taken to
find its port free. -/
structure Peer where
  config : SystemConfig
  initVersion : ℕ
  self : PeerId
  initPeers : List PeerId
  initRunners : List PeerId
  initStrategy : Strategy
  started : Bool
deriving DecidableEq, Repr

/-- What the constructor of a session is given by `peer::join`. -/
structure JoinArgs where
  config : SystemConfig
  version : ℕ
  rank : ℕ
  peers : List PeerId
  runners : List PeerId
  strategy : Strategy
deriving DecidableEq, Repr

/-- `peer::join`. -/
def Peer.join (p : Peer) : JoinArgs :=
  ⟨p.config, p.initVersion, rank p.initPeers p.self, p.initPeers, p.initRunners, p.initStrategy⟩

/-- `int` to `size_t`. -/
def sizeOfInt (z : ℤ) : ℕ := (z % 2 ^ 64).toNat

/-- `peer::single`: one peer, `127.0.0.1:10000`, without a server. -/
def Peer.single (cores : ℕ) (env : Env) : Except StartError Peer :=
  match parsePeerId (localhostText ++ toDecimal 10000) with
  | none => .error .noValue
  | some id => .ok ⟨parseSystemConfigFromEnv cores env, 0, id, [id], [], .star, false⟩

/-- `peer::from_kungfu_env`. -/
def fromKungfuEnv (cores : ℕ) (env : Env) : Except StartError Peer :=
  match parsePeerId (safeGetenv env .selfSpec) with
  | none => Peer.single cores env
  | some self =>
      match parsePeerList (safeGetenv env .initPeers) with
      | none => Peer.single cores env
      | some peers =>
          match parsePeerList (safeGetenv env .initRunners) with
          | none => Peer.single cores env
          | some runners => do
              let version ← parseEnvInt env .initClusterVersion
              let s ← parseKungfuStartegy env
              pure ⟨parseSystemConfigFromEnv cores env, sizeOfInt (version.getD 0), self, peers,
                runners, s, true⟩

/-- The end of `from_ompi_env` and of `from_fork`: process `r` of `n`, with the list that
`peer_list::gen` makes; `missing` is what happens when the list is too short. -/
def fromList (missing : StartError) (cores : ℕ) (env : Env) (r n : ℕ) : Except StartError Peer :=
  match genPeerList n with
  | none => .error .noValue
  | some ps =>
      match ps[r]? with
      | none => .error missing
      | some self => .ok ⟨parseSystemConfigFromEnv cores env, 0, self, ps, [], .star, true⟩

/-- `peer::from_ompi_env`: the peer is `ps[rank]`. -/
def fromOmpiEnv (cores : ℕ) (env : Env) : Except StartError Peer := do
  match ← parseEnvInt env .worldSize with
  | none => Peer.single cores env
  | some size =>
      match ← parseEnvInt env .worldRank with
      | none => Peer.single cores env
      | some r => fromList .undefinedIndex cores env (sizeOfInt r) (sizeOfInt size)

/-- `peer::from_fork`: the peer is `ps.at(rank)`. -/
def fromFork (cores : ℕ) (env : Env) (r n : ℕ) : Except StartError Peer :=
  fromList .outOfRange cores env r n

/-- `peer::from_env`. -/
def fromEnv (cores : ℕ) (env : Env) : Except StartError Peer :=
  if (env .selfSpec).isSome then fromKungfuEnv cores env
  else if (env .worldSize).isSome then fromOmpiEnv cores env
  else Peer.single cores env

/-! ## What is read -/

section Read

variable {env : Env} {x : EnvVar} {cores v : ℕ}

theorem stoi_toDecimal (hv : v < 2 ^ 31) : stoi (toDecimal v) = .ok (v : ℤ) := by
  have hds := digits_toDecimal v
  have hstop : Stops ([] : Bytes) := by simp [Stops]
  have hspace : ([] ++ ([] ++ (toDecimal v ++ []))).dropWhile isSpace =
      [] ++ (toDecimal v ++ []) := dropWhile_space (by simp) (.inl rfl) hds
  have hsign : sign ([] ++ (toDecimal v ++ [])) = (_, toDecimal v ++ []) :=
    sign_append (.inl rfl) hds
  have htake := (span_digits hds.2 hstop).1
  simp only [List.append_nil, List.nil_append] at hspace hsign htake
  have hminus : decide (([] : Bytes) = [45]) = false := by decide
  have hle : strtol false (value (toDecimal v)) = v := by
    rw [value_toDecimal, strtol, if_neg Bool.false_ne_true, min_eq_right (by omega)]
  simp only [stoi, cStr_eq_self (nulFree_toDecimal v), hspace, hsign, htake, if_neg hds.1, hminus,
    hle]
  rw [if_pos (by omega)]

theorem parseEnvInt_toDecimal (hv : v < 2 ^ 31) (h : env x = some (toDecimal v)) :
    parseEnvInt env x = .ok (some (v : ℤ)) := by
  have hne := (digits_toDecimal v).1
  simp [parseEnvInt, safeGetenv, h, hne, stoi_toDecimal hv, Except.map]

theorem sizeOfInt_natCast (hv : v < 2 ^ 31) : sizeOfInt v = v := by
  rw [sizeOfInt]
  omega

/-- The texts of peers with commas between them are read as the peers. -/
theorem parsePeerList_texts (ps : List PeerId) :
    parsePeerList (List.intercalate [44] (ps.map PeerId.text)) = some ps := by
  have hsplit : split (List.intercalate [44] (ps.map PeerId.text)) 44 = ps.map PeerId.text := by
    refine split_intercalate ?_ ?_
    · simpa using fun id _ => (denotes_text id).ne_nil
    · simpa using fun id _ => comma_notMem_text id
  have hall : ps.mapM (parsePeerId ∘ PeerId.text) = some (ps.map id) :=
    mapM_eq_some_map (fun id => (denotes_text id).parse) ps
  rw [parsePeerList, hsplit, List.mapM_map, hall, List.map_id]

end Read

/-! ## Lists that are made -/

section Gen

variable {n r : ℕ}

/-- The list of `peer_list::gen`. -/
def genList (n : ℕ) : List PeerId :=
  (List.range n).map fun i => ⟨2130706433, UInt16.ofNat ((i + 10000) % 2 ^ 64)⟩

@[simp] theorem length_genList : (genList n).length = n := by simp [genList]

theorem getElem_genList (hn : n < 2 ^ 31) (h : r < (genList n).length) :
    (genList n)[r] = ⟨2130706433, UInt16.ofNat (r + 10000)⟩ := by
  rw [length_genList] at h
  have hr : (r + 10000) % 2 ^ 64 = r + 10000 := Nat.mod_eq_of_lt (by omega)
  simp only [genList, List.getElem_map, List.getElem_range, hr]

/-- A number of a peer comes back after 65536 peers. -/
theorem port_eq_iff {i j : ℕ} : UInt16.ofNat (i + 10000) = UInt16.ofNat (j + 10000) ↔
    i % 65536 = j % 65536 := by
  rw [← UInt16.toNat_inj, UInt16.toNat_ofNat', UInt16.toNat_ofNat']
  omega

/-- A peer finds itself at the first place with its port. -/
theorem rank_genList (hn : n < 2 ^ 31) (hr : r < (genList n).length) :
    rank (genList n) (genList n)[r] = r % 65536 := by
  have hlen : r < n := by simpa using hr
  have hlt : r % 65536 < (genList n).length := by
    rw [length_genList]
    omega
  rw [rank, List.idxOf, List.findIdx_eq hlt, getElem_genList hn hr]
  simp only [getElem_genList hn, beq_iff_eq, PeerId.mk.injEq, true_and, port_eq_iff,
    beq_eq_false_iff_ne, ne_eq]
  exact ⟨by omega, fun j hj => by omega⟩

theorem nodup_genList (hn : n ≤ 65536) : (genList n).Nodup := by
  rw [List.nodup_iff_injective_get]
  rintro ⟨i, hi⟩ ⟨j, hj⟩ heq
  simp only [List.get_eq_getElem, getElem_genList (by omega : n < 2 ^ 31), PeerId.mk.injEq,
    true_and, port_eq_iff] at heq
  rw [length_genList] at hi hj
  exact Fin.ext (show i = j by omega)

end Gen

/-! ## Jobs -/

/-- What the kungfu launcher sets for the worker `id`. -/
structure KungfuEnv (ps rs : List PeerId) (v : ℕ) (s : Strategy) (id : PeerId) (env : Env) :
    Prop where
  self : env .selfSpec = some id.text
  peers : env .initPeers = some (List.intercalate [44] (ps.map PeerId.text))
  runners : env .initRunners = some (List.intercalate [44] (rs.map PeerId.text))
  version : env .initClusterVersion = some (toDecimal v)
  strategy : ∃ val, env .allreduceStrategy = some val ∧ (val = ringText ↔ s = .ring)

/-- What Open MPI sets for process `r` of `n`. -/
structure OmpiEnv (n r : ℕ) (env : Env) : Prop where
  self : env .selfSpec = none
  size : env .worldSize = some (toDecimal n)
  rank : env .worldRank = some (toDecimal r)

section Start

variable {env : Env} {cores n r v : ℕ}

theorem fromEnv_kungfu {ps rs : List PeerId} {s : Strategy} {id : PeerId} (hv : v < 2 ^ 31)
    (h : KungfuEnv ps rs v s id env) : fromEnv cores env =
      .ok ⟨parseSystemConfigFromEnv cores env, v, id, ps, rs, s, true⟩ := by
  obtain ⟨val, hval, hs⟩ := h.strategy
  have hself : parsePeerId (safeGetenv env .selfSpec) = some id := by
    simpa [safeGetenv, h.self] using (denotes_text id).parse
  have hpeers : parsePeerList (safeGetenv env .initPeers) = some ps := by
    simpa [safeGetenv, h.peers] using parsePeerList_texts ps
  have hrunners : parsePeerList (safeGetenv env .initRunners) = some rs := by
    simpa [safeGetenv, h.runners] using parsePeerList_texts rs
  have hstrategy : parseKungfuStartegy env = .ok s := by
    cases s <;> simp_all [parseKungfuStartegy]
  simp [fromEnv, h.self, fromKungfuEnv, hself, hpeers, hrunners, hstrategy,
    parseEnvInt_toDecimal hv h.version, sizeOfInt_natCast hv, bind, Except.bind, pure, Except.pure]

theorem fromList_eq (e : StartError) (hn : n < 2 ^ 31) (hr : r < n) : fromList e cores env r n =
    .ok ⟨parseSystemConfigFromEnv cores env, 0, ⟨2130706433, UInt16.ofNat (r + 10000)⟩, genList n,
      [], .star, true⟩ := by
  have hlt : r < (genList n).length := by simpa using hr
  have hgen : genPeerList n = some (genList n) := genPeerList_eq n
  simp [fromList, hgen, List.getElem?_eq_getElem hlt, getElem_genList hn hlt]

theorem fromEnv_ompi (hn : n < 2 ^ 31) (hr : r < n) (h : OmpiEnv n r env) :
    fromEnv cores env = fromList .undefinedIndex cores env r n := by
  have hr' : r < 2 ^ 31 := hr.trans hn
  simp [fromEnv, h.self, h.size, fromOmpiEnv, parseEnvInt_toDecimal hn h.size,
    parseEnvInt_toDecimal hr' h.rank, sizeOfInt_natCast hn, sizeOfInt_natCast hr', bind,
    Except.bind]

end Start

/-- The environment asks for no other runtime, so that `session::all_reduce` is
`run_graph_pair_list_multi_thread`, with a thread for every task. -/
structure OnThreads (env : Env) : Prop where
  pool : parseEnvBool env .useThreadPool = false
  async : parseEnvBool env .useAsync = false
  go : parseEnvBool env .useGoRuntime = false

/-- How the `n` processes of a job come to their peers: the launcher sets their environments, or
they are forked by `prun`. There are 55536 ports from 10000 on. -/
inductive Launched (cores : ℕ) :
    (n : ℕ) → List PeerId → Strategy → (Fin n → Except StartError Peer) → Prop where
  | kungfu {ps rs : List PeerId} {v : ℕ} {s : Strategy} {env : Fin ps.length → Env} :
      ps.Nodup → v < 2 ^ 31 → (∀ r, OnThreads (env r) ∧ KungfuEnv ps rs v s ps[r] (env r)) →
      Launched cores ps.length ps s fun r => fromEnv cores (env r)
  | ompi {n : ℕ} {env : Fin n → Env} :
      n ≤ 55536 → (∀ r, OnThreads (env r) ∧ OmpiEnv n r (env r)) →
      Launched cores n (genList n) .star fun r => fromEnv cores (env r)
  | fork {n : ℕ} {env : Env} :
      n ≤ 55536 → OnThreads env →
      Launched cores n (genList n) .star fun r => fromFork cores env r n

/-- Jobs whose processes make the list themselves: a `prun`, in whatever environment each of the
processes is, and an `mpirun`. -/
inductive Listed (cores n : ℕ) : (Fin n → Except StartError Peer) → Prop where
  | fork (env : Fin n → Env) : Listed cores n fun r : Fin n => fromFork cores (env r) r n
  | ompi {env : Fin n → Env} :
      (∀ r : Fin n, OmpiEnv n r (env r)) → Listed cores n fun r : Fin n => fromEnv cores (env r)

/-- What a process needs to know of its job. -/
structure Placed (ps : List PeerId) (s : Strategy) (r : ℕ) (p : Peer) : Prop where
  started : p.started = true
  self : ps[r]? = some p.self
  peers : p.join.peers = ps
  rank : p.join.rank = r
  strategy : p.join.strategy = s
  runtime : p.join.config.rt = .multiThread

section Launched

variable {cores n r : ℕ} {env : Env} {ps : List PeerId} {s : Strategy}
variable {boot : Fin n → Except StartError Peer}

theorem OnThreads.runtime (h : OnThreads env) :
    (parseSystemConfigFromEnv cores env).rt = .multiThread := by
  simp [parseSystemConfigFromEnv, h.pool, h.async, h.go]

theorem rank_getElem (h : ps.Nodup) (hr : r < ps.length) : rank ps ps[r] = r := h.idxOf_getElem r hr

/-- Process `r` of a list that is made. -/
theorem placed_fromList (e : StartError) (hn : n ≤ 55536) (hr : r < n) (henv : OnThreads env) :
    ∃ p, fromList e cores env r n = .ok p ∧ Placed (genList n) .star r p := by
  have hlt : r < (genList n).length := by simpa using hr
  have hself := getElem_genList (by omega) hlt
  refine ⟨_, fromList_eq e (by omega) hr, rfl, ?_, rfl, ?_, rfl, henv.runtime⟩
  · rw [List.getElem?_eq_getElem hlt, hself]
  · have hrank := rank_getElem (nodup_genList (by omega)) hlt
    rwa [hself] at hrank

/-- The place in its list of a process that makes it itself. -/
theorem Listed.rank (hn : n < 2 ^ 31) (h : Listed cores n boot) (r : Fin n) :
    ∃ p, boot r = .ok p ∧ p.join.peers = genList n ∧ p.join.rank = r % 65536 := by
  have hlt : r < (genList n).length := by simp
  have hrank := rank_genList hn hlt
  rw [getElem_genList hn hlt] at hrank
  cases h with
  | fork env =>
      refine ⟨_, fromList_eq _ hn r.isLt, ?_, ?_⟩
      · rfl
      · exact hrank
  | ompi henv =>
      refine ⟨_, (fromEnv_ompi hn r.isLt (henv r)).trans (fromList_eq _ hn r.isLt), ?_, ?_⟩
      · rfl
      · exact hrank

/-- **The processes of a job agree**, and each has a place of its own. -/
theorem Launched.placed (h : Launched cores n ps s boot) :
    ps.length = n ∧ ps.Nodup ∧ ∀ r, ∃ p, boot r = .ok p ∧ Placed ps s r p := by
  cases h with
  | kungfu hps hv henv =>
      refine ⟨rfl, hps, fun r => ⟨_, fromEnv_kungfu hv (henv r).2, rfl, ?_, rfl, ?_, rfl,
        (henv r).1.runtime⟩⟩
      · simp
      · exact rank_getElem hps r.isLt
  | ompi hn henv =>
      refine ⟨length_genList, nodup_genList (by omega), fun r => ?_⟩
      simp only [fromEnv_ompi (by omega) r.isLt (henv r).2]
      exact placed_fromList _ hn r.isLt (henv r).1
  | fork hn henv =>
      exact ⟨length_genList, nodup_genList (by omega), fun r => placed_fromList _ hn r.isLt henv⟩

end Launched

/-! ## What a job computes -/

section Job

variable {n : ℕ} [NeZero n]

/-- The id under which a process is known. -/
def bootIdent (boot : Fin n → Except StartError Peer) (r : Fin n) : PeerId :=
  match boot r with
  | .ok p => p.self
  | .error _ => ⟨0, 0⟩

/-- What a process runs: the barrier at the end of the constructor of its session, with its operands
at `x` and `y` on the stack, and the program, with the place and the strategy that it has found
out. -/
def bootProgram (boot : Fin n → Except StartError Peer) (x y : Fin n → Addr) (prog : List (Instr n))
    (r : Fin n) : List (Par (Fin n) Stamp Store Bytes) :=
  match boot r with
  | .ok p =>
      if h : p.join.rank < n then peerProgram p.join.strategy (barrier x y ++ prog) ⟨p.join.rank, h⟩
      else []
  | .error _ => []

variable {cores : ℕ} {ps : List PeerId} {s : Strategy} {boot : Fin n → Except StartError Peer}

theorem Launched.bootProgram_eq (h : Launched cores n ps s boot) (x y : Fin n → Addr)
    (prog : List (Instr n)) :
    bootProgram boot x y prog = peerProgram s (barrier x y ++ prog) := by
  funext r
  obtain ⟨p, hp, hplaced⟩ := h.placed.2.2 r
  simp [bootProgram, hp, hplaced.rank, hplaced.strategy]

omit [NeZero n] in
theorem Launched.bootIdent_injective (h : Launched cores n ps s boot) :
    Function.Injective (bootIdent boot) := by
  obtain ⟨hlen, hnodup, hplaced⟩ := h.placed
  intro r q heq
  obtain ⟨p, hp, hpr⟩ := hplaced r
  obtain ⟨p', hp', hpq⟩ := hplaced q
  have hself : p.self = p'.self := by simpa [bootIdent, hp, hp'] using heq
  have hat : ps[r.val]? = ps[q.val]? := by rw [hpr.self, hpq.self, hself]
  exact Fin.ext ((List.getElem?_inj (by rw [hlen]; exact r.isLt) hnodup).mp hat)

omit [NeZero n] in
/-- **Every process of an `mpirun` or a `prun` has a rank of its own as long as there are ports.**
Process `r` makes the list that the others make, and joins as the first process with its port. -/
theorem launch_ranks (cores : ℕ) (hn : n < 2 ^ 31) (h : Listed cores n boot) :
    (∀ r, ∃ p, boot r = .ok p ∧ p.join.peers = genList n ∧ p.join.rank = r % 65536) ∧
      ((∀ r r' p p', boot r = .ok p → boot r' = .ok p' → p.join.rank = p'.join.rank → r = r') ↔
        n ≤ 65536) := by
  have hboot := h.rank hn
  refine ⟨hboot, fun hown => ?_, fun hle r r' p p' hp hp' heq => ?_⟩
  · -- the process after the last port is taken for the first one
    by_contra hlt
    obtain ⟨p, hp, -, hrank⟩ := hboot ⟨0, by omega⟩
    obtain ⟨p', hp', -, hrank'⟩ := hboot ⟨65536, by omega⟩
    have hzero : p.join.rank = 0 := by simpa using hrank
    have hzero' : p'.join.rank = 0 := by simpa using hrank'
    have heq := hown _ _ p p' hp hp' (hzero.trans hzero'.symm)
    simp at heq
  · obtain ⟨q, hq, -, hrank⟩ := hboot r
    obtain ⟨q', hq', -, hrank'⟩ := hboot r'
    obtain rfl := Except.ok.inj (hp.symm.trans hq)
    obtain rfl := Except.ok.inj (hp'.symm.trans hq')
    rw [hrank, hrank'] at heq
    exact Fin.ext (by omega)

/-- What `mpirun` sets for three processes. -/
def threeEnvs (r : Fin 3) : Env
  | .worldSize => some (toDecimal 3)
  | .worldRank => some (toDecimal r)
  | _ => none

theorem ompiEnv_threeEnvs (r : Fin 3) : OmpiEnv 3 r (threeEnvs r) := ⟨rfl, rfl, rfl⟩

theorem launched_threeEnvs (cores : ℕ) :
    Launched cores 3 (genList 3) .star fun r => fromEnv cores (threeEnvs r) :=
  .ompi (by decide) fun r => ⟨⟨rfl, rfl, rfl⟩, ompiEnv_threeEnvs r⟩

/-- The last of three processes of an `mpirun` has rank 2. The last of 65537 forked processes has
the port of the first one. -/
theorem launch_ranks_three :
    (∃ p, fromEnv 8 (threeEnvs 2) = .ok p ∧ p.join.rank = 2) ∧
      ∃ p, fromFork 8 (fun _ => none) 65536 65537 = .ok p ∧ p.join.rank = 0 := by
  obtain ⟨p, hp, -, hrank⟩ := (launch_ranks (n := 3) 8 (by decide) (.ompi ompiEnv_threeEnvs)).1 2
  obtain ⟨q, hq, -, hrank'⟩ :=
    (launch_ranks (n := 65537) 8 (by norm_num) (.fork fun _ _ => none)).1 (Fin.last 65536)
  exact ⟨⟨p, hp, hrank⟩, q, hq, hrank'⟩

end Job

end StdmlCollective

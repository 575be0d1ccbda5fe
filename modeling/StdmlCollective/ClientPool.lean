import Mathlib.Logic.Relation
import StdmlCollective.Address

/-!
# The connection cache

A peer has one client for every type of connection, made when it is asked for first, and a client
has one connection for every target, dialled at the first `send` to it. When the cluster is resized
the connections to those workers that have left are dropped. Connections are found by a hash of the
target.

Connections are numbered in the order in which they are dialled, to tell them apart.
-/

namespace StdmlCollective

namespace PeerId

/-- `peer_id::operator<`. -/
def less (x y : PeerId) : Bool := x.ipv4 < y.ipv4 || (x.ipv4 == y.ipv4 && x.port < y.port)

/-- `peer_id::hash`. -/
def hash (x : PeerId) : UInt64 := x.ipv4.toUInt64 <<< 32 ||| x.port.toUInt64

theorem toNat_hash (x : PeerId) : x.hash.toNat = x.ipv4.toNat * 2 ^ 32 + x.port.toNat := by
  have hip := x.ipv4.toNat_lt
  have hport := x.port.toNat_lt
  have hshift : (x.ipv4.toUInt64 <<< 32).toNat = x.ipv4.toNat <<< 32 := by
    rw [UInt64.toNat_shiftLeft, UInt32.toNat_toUInt64, show (32 : UInt64).toNat % 64 = 32 from rfl]
    exact Nat.mod_eq_of_lt (by rw [Nat.shiftLeft_eq]; omega)
  rw [hash, UInt64.toNat_or, hshift, UInt16.toNat_toUInt64,
    ← Nat.shiftLeft_add_eq_or_of_lt (by omega), Nat.shiftLeft_eq]

theorem hash_injective : Function.Injective hash := by
  intro x y h
  have hnat := congrArg UInt64.toNat h
  rw [toNat_hash, toNat_hash] at hnat
  have hx := x.port.toNat_lt
  have hy := y.port.toNat_lt
  have hip : x.ipv4 = y.ipv4 := UInt32.toNat_inj.mp (by omega)
  have hport : x.port = y.port := UInt16.toNat_inj.mp (by omega)
  cases x
  cases y
  simp_all

/-- No two ids are equivalent. -/
theorem not_less_iff (x y : PeerId) : (!x.less y && !y.less x) = true ↔ x = y := by
  constructor
  · intro h
    simp only [less, Bool.and_eq_true, Bool.not_eq_true', Bool.or_eq_false_iff,
      Bool.and_eq_false_iff, decide_eq_false_iff_not, beq_eq_false_iff_ne, ne_eq] at h
    obtain ⟨⟨hxy, hport⟩, hyx, hport'⟩ := h
    have hip : x.ipv4 = y.ipv4 := UInt32.le_antisymm (UInt32.not_lt.mp hyx) (UInt32.not_lt.mp hxy)
    have hport : x.port = y.port := by
      refine UInt16.le_antisymm (UInt16.not_lt.mp ?_) (UInt16.not_lt.mp ?_)
      · exact hport'.resolve_left (not_not_intro hip.symm)
      · exact hport.resolve_left (not_not_intro hip)
    cases x
    cases y
    simp_all
  · rintro rfl
    simp [less]

end PeerId

/-- `s.count(id)` of a `std::set` made of `ps`. -/
def setCount (ps : List PeerId) (id : PeerId) : ℕ :=
  if ps.any fun p => !p.less id && !id.less p then 1 else 0

/-- `peer_list::operator-`. -/
def minus (xs ps : List PeerId) : List PeerId := xs.filter fun id => setCount ps id = 0

theorem mem_minus {xs ps : List PeerId} {id : PeerId} : id ∈ minus xs ps ↔ id ∈ xs ∧ id ∉ ps := by
  have hany : (ps.any fun p => !p.less id && !id.less p) = true ↔ id ∈ ps := by
    simp only [List.any_eq_true, PeerId.not_less_iff, exists_eq_right]
  rw [minus, List.mem_filter, setCount, decide_eq_true_eq, ite_eq_right_iff, hany]
  simp

/-! ## Clients -/

/-- What `connection::dial` has been called with, and the number of the call. -/
structure Connection where
  remote : PeerId
  type : UInt16
  self : PeerId
  serial : ℕ
deriving DecidableEq, Repr

/-- `client_impl`. -/
structure Client where
  self : PeerId
  type : UInt16
  conns : UInt64 → Option Connection

/-- `client_impl::require`, and the number of calls of `connection::dial` after it. When `dials` is
not set, the next one throws. -/
def Client.require (target : PeerId) (dials : Bool) (c : Client) (dialled : ℕ) :
    Option Connection × Client × ℕ :=
  match c.conns target.hash with
  | some conn => (some conn, c, dialled)
  | none =>
      if dials then
        let conn := ⟨target, c.type, c.self, dialled⟩
        (some conn, { c with conns := Function.update c.conns target.hash (some conn) },
          dialled + 1)
      else (none, c, dialled + 1)

/-- `client_impl::reset_peers`. -/
def Client.resetPeers (ids : List PeerId) (c : Client) : Client :=
  { c with conns := ids.foldl (fun conns id => Function.update conns id.hash none) c.conns }

/-- `client_pool`, with the number of calls of `connection::dial`. -/
structure ClientPool where
  self : PeerId
  clients : UInt16 → Option Client
  dialled : ℕ

namespace ClientPool

/-- The client of a type changes. -/
def put (type : UInt16) (c : Client) (dialled : ℕ) (s : ClientPool) : ClientPool :=
  { s with clients := Function.update s.clients type (some c), dialled := dialled }

/-- `client_pool::require`. -/
def require (type : UInt16) (s : ClientPool) : Client × ClientPool :=
  match s.clients type with
  | some c => (c, s)
  | none =>
      let c : Client := ⟨s.self, type, fun _ => none⟩
      (c, s.put type c s.dialled)

/-- `client_pool::require(type)->send(target, ..)`: the connection that is used, if any. -/
def send (type : UInt16) (target : PeerId) (dials : Bool) (s : ClientPool) :
    Option Connection × ClientPool :=
  let r := s.require type
  let q := r.1.require target dials s.dialled
  (q.1, r.2.put type q.2.1 q.2.2)

/-- `client_pool::reset_peers`. -/
def resetPeers (ids : List PeerId) (s : ClientPool) : ClientPool :=
  { s with clients := fun type => (s.clients type).map (Client.resetPeers ids) }

/-- The connection that is kept under a type and a hash. -/
def cached (s : ClientPool) (type : UInt16) (key : UInt64) : Option Connection :=
  (s.clients type).bind fun c => c.conns key

/-! ## What they do -/

variable {s : ClientPool} {type type' : UInt16} {target : PeerId} {key : UInt64} {dials : Bool}

/-- The clients are those of this peer and of their types. -/
def Own (s : ClientPool) : Prop :=
  ∀ type c, s.clients type = some c → c.self = s.self ∧ c.type = type

theorem clients_put (s : ClientPool) (type : UInt16) (c : Client) (n : ℕ) (type' : UInt16) :
    (s.put type c n).clients type' = if type' = type then some c else s.clients type' :=
  Function.update_apply ..

theorem cached_put (s : ClientPool) (type : UInt16) (c : Client) (n : ℕ) (type' : UInt16)
    (key : UInt64) : (s.put type c n).cached type' key =
      if type' = type then c.conns key else s.cached type' key := by
  rw [cached, clients_put]
  split <;> rfl

theorem Own.put (h : s.Own) {c : Client} (hself : c.self = s.self) (htype : c.type = type) (n : ℕ) :
    (s.put type c n).Own := by
  intro type' c' hc
  rw [clients_put] at hc
  split at hc
  · next ht =>
      obtain rfl := Option.some.inj hc
      exact ⟨hself, htype.trans ht.symm⟩
  · exact h type' c' hc

/-- `require` gives the client of the type, and the cache is as it was. -/
theorem Own.require (h : s.Own) (type : UInt16) :
    (s.require type).1.self = s.self ∧ (s.require type).1.type = type ∧
      (s.require type).1.conns = s.cached type ∧ (s.require type).2.self = s.self ∧
      (s.require type).2.cached = s.cached ∧ (s.require type).2.Own := by
  rw [ClientPool.require]
  split
  · next c hc =>
      obtain ⟨hself, htype⟩ := h type c hc
      refine ⟨hself, htype, ?_, rfl, rfl, h⟩
      funext key
      rw [cached, hc]
      rfl
  · next hc =>
      have hnone : (fun _ => none) = s.cached type := by
        funext key
        rw [cached, hc]
        rfl
      have hown := h.put (c := ⟨s.self, type, fun _ => none⟩) rfl rfl s.dialled
      refine ⟨rfl, rfl, hnone, rfl, ?_, hown⟩
      funext type' key
      rw [cached_put]
      split
      · next ht => rw [ht, ← hnone]
      · rfl

/-- What a `send` can do: find a connection, dial one and keep it, or fail to dial. -/
inductive Sent (s : ClientPool) (type : UInt16) (target : PeerId) :
    Bool → Option Connection → ClientPool → Prop where
  | found {s' : ClientPool} {dials : Bool} {conn : Connection} :
      s.cached type target.hash = some conn → s'.cached = s.cached → s'.dialled = s.dialled →
      Sent s type target dials (some conn) s'
  | dialled {s' : ClientPool} {conn : Connection} :
      s.cached type target.hash = none → conn = ⟨target, type, s.self, s.dialled⟩ →
      s'.cached type target.hash = some conn →
      (∀ type' key, (type', key) ≠ (type, target.hash) →
        s'.cached type' key = s.cached type' key) →
      s'.dialled = s.dialled + 1 → Sent s type target true (some conn) s'
  | failed {s' : ClientPool} :
      s.cached type target.hash = none → s'.cached = s.cached → s'.dialled = s.dialled + 1 →
      Sent s type target false none s'

theorem sent_send (h : s.Own) (type : UInt16) (target : PeerId) (dials : Bool) :
    Sent s type target dials (s.send type target dials).1 (s.send type target dials).2 := by
  obtain ⟨hself, htype, hconns, -, hcached, -⟩ := h.require type
  have hsame : ∀ n, ((s.require type).2.put type (s.require type).1 n).cached = s.cached := by
    intro n
    funext type' key
    rw [cached_put, hconns, hcached]
    split
    · next ht => rw [ht]
    · rfl
  rw [send, Client.require]
  cases hc : s.cached type target.hash with
  | some conn =>
      simp only [hconns, hc]
      exact .found hc (hsame _) rfl
  | none =>
      simp only [hconns, hc]
      cases dials with
      | false => exact .failed hc (hsame _) rfl
      | true =>
          refine .dialled hc (by rw [hself, htype]) ?_ ?_ rfl
          · rw [if_pos rfl, cached_put, if_pos rfl]
            exact Function.update_self ..
          · intro type' key hne
            rw [if_pos rfl, cached_put, hcached]
            split
            · next ht =>
                subst ht
                exact Function.update_of_ne (fun hk => hne (by rw [hk])) ..
            · rfl

theorem Own.send (h : s.Own) (type : UInt16) (target : PeerId) (dials : Bool) :
    (s.send type target dials).2.self = s.self ∧ (s.send type target dials).2.Own := by
  obtain ⟨hself, htype, -, hpool, -, hown⟩ := h.require type
  have hclient : ∀ n, ((s.require type).1.require target dials n).2.1.self = s.self ∧
      ((s.require type).1.require target dials n).2.1.type = type := by
    intro n
    rw [Client.require]
    split
    · exact ⟨hself, htype⟩
    · split <;> exact ⟨hself, htype⟩
  exact ⟨hpool, hown.put ((hclient _).1.trans hpool.symm) (hclient _).2 _⟩

theorem foldl_update (ids : List PeerId) (conns : UInt64 → Option Connection) (key : UInt64) :
    ids.foldl (fun (conns : UInt64 → Option Connection) id => Function.update conns id.hash none)
        conns key =
      if key ∈ ids.map PeerId.hash then none else conns key := by
  induction ids generalizing conns with
  | nil => rfl
  | cons id ids ih =>
      simp only [List.foldl_cons, ih, List.map_cons, List.mem_cons, Function.update_apply]
      by_cases hmem : key ∈ ids.map PeerId.hash
      · rw [if_pos hmem, if_pos (.inr hmem)]
      · simp only [hmem, if_false, or_false]

/-- The connections to the peers in the list are dropped and the others kept. -/
theorem cached_resetPeers (ids : List PeerId) (type : UInt16) (key : UInt64) :
    (s.resetPeers ids).cached type key =
      if key ∈ ids.map PeerId.hash then none else s.cached type key := by
  have hclient :
      (s.resetPeers ids).clients type = (s.clients type).map (Client.resetPeers ids) := rfl
  rw [cached, cached, hclient]
  cases s.clients type with
  | none => exact (ite_self none).symm
  | some c => exact foldl_update ids c.conns key

theorem Own.resetPeers (h : s.Own) (ids : List PeerId) : (s.resetPeers ids).Own := by
  intro type c hc
  obtain ⟨c', hc', rfl⟩ := Option.map_eq_some_iff.mp hc
  exact h type c' hc'

end ClientPool

/-! ## Runs -/

/-- A peer: its pool, and the workers of the current cluster. -/
structure CacheRun where
  pool : ClientPool
  workers : List PeerId

/-- A `send`, with whether a dial would succeed and the connection it has used, or a resize to other
workers. -/
inductive CacheOp where
  | send (type : UInt16) (target : PeerId) (dials : Bool) (conn : Option Connection)
  | resize (workers : List PeerId)

namespace CacheRun

/-- The operations, one after the other. A `send` goes to a worker of the current cluster. -/
inductive Step : CacheRun → CacheOp → CacheRun → Prop where
  | send {s : CacheRun} {type : UInt16} {target : PeerId} {dials : Bool} :
      target ∈ s.workers →
      Step s (.send type target dials (s.pool.send type target dials).1)
        { s with pool := (s.pool.send type target dials).2 }
  | resize {s : CacheRun} {workers : List PeerId} :
      Step s (.resize workers) ⟨s.pool.resetPeers (minus s.workers workers), workers⟩

/-- A run whose steps are all in `Q`. -/
def ReachBy (Q : CacheRun → CacheOp → CacheRun → Prop) : CacheRun → CacheRun → Prop :=
  Relation.ReflTransGen fun s s' => ∃ op, Step s op s' ∧ Q s op s'

/-- A peer that has not sent anything. -/
def start (self : PeerId) (workers : List PeerId) : CacheRun :=
  ⟨⟨self, fun _ => none, 0⟩, workers⟩

/-- A run from the start. -/
def Reach (self : PeerId) (workers : List PeerId) : CacheRun → Prop :=
  ReachBy (fun _ _ _ => True) (start self workers)

/-- A connection as it should be: to the peer with this hash, of this type, to a worker of the
current cluster. -/
structure Right (me : PeerId) (s : CacheRun) (type : UInt16) (key : UInt64) (conn : Connection) :
    Prop where
  remote : conn.remote.hash = key
  type : conn.type = type
  self : conn.self = me
  member : conn.remote ∈ s.workers
  serial : conn.serial < s.pool.dialled

/-- What holds all the time. -/
structure Inv (me : PeerId) (s : CacheRun) : Prop where
  own : s.pool.Own
  peer : s.pool.self = me
  right : ∀ type key conn, s.pool.cached type key = some conn → Right me s type key conn

section Inv

variable {me : PeerId} {s s' : CacheRun} {op : CacheOp} {type : UInt16} {target id : PeerId}
  {dials : Bool} {conn : Option Connection} {workers : List PeerId}

theorem Step.send_inv (hown : s.pool.Own) (h : Step s (.send type target dials conn) s') :
    target ∈ s.workers ∧ s'.workers = s.workers ∧ s.pool.Sent type target dials conn s'.pool ∧
      s'.pool.self = s.pool.self ∧ s'.pool.Own := by
  cases h with
  | send hmem =>
      obtain ⟨hself, hown'⟩ := hown.send type target dials
      exact ⟨hmem, rfl, ClientPool.sent_send hown type target dials, hself, hown'⟩

theorem Step.resize_inv (h : Step s (.resize workers) s') :
    s' = ⟨s.pool.resetPeers (minus s.workers workers), workers⟩ := by
  cases h
  rfl

/-- The hash of a peer that has left, and of no other, is dropped. -/
theorem hash_mem_minus : id.hash ∈ (minus s.workers workers).map PeerId.hash ↔
    id ∈ s.workers ∧ id ∉ workers := by
  rw [List.mem_map_of_injective PeerId.hash_injective, mem_minus]

theorem Inv.step (h : Inv me s) (hs : Step s op s') : Inv me s' := by
  cases op with
  | send type target dials conn =>
      obtain ⟨hmem, hworkers, hsent, hself, hown⟩ := hs.send_inv h.own
      refine ⟨hown, hself.trans h.peer, ?_⟩
      intro type' key c hc
      have hold : ∀ {n : ℕ}, s.pool.dialled ≤ n → s.pool.cached type' key = some c →
          s'.pool.dialled = n → Right me s' type' key c := by
        intro n hle hc hn
        obtain ⟨hremote, htype, hself, hmember, hserial⟩ := h.right type' key c hc
        exact ⟨hremote, htype, hself, hworkers ▸ hmember, by omega⟩
      cases hsent with
      | found _ hcached hdialled => exact hold (Nat.le_refl _) (hcached ▸ hc) hdialled
      | failed _ hcached hdialled => exact hold (Nat.le_succ _) (hcached ▸ hc) hdialled
      | @dialled _ conn _ hconn hnew hother hdialled =>
          by_cases hkey : (type', key) = (type, target.hash)
          · obtain ⟨rfl, rfl⟩ := Prod.mk.inj hkey
            rw [hnew] at hc
            obtain rfl := Option.some.inj hc
            subst hconn
            exact ⟨rfl, rfl, h.peer, hworkers ▸ hmem,
              show s.pool.dialled < s'.pool.dialled by omega⟩
          · rw [hother type' key hkey] at hc
            exact hold (Nat.le_succ _) hc hdialled
  | resize workers =>
      obtain rfl := hs.resize_inv
      refine ⟨h.own.resetPeers _, h.peer, ?_⟩
      intro type key c hc
      rw [ClientPool.cached_resetPeers] at hc
      split at hc
      · cases hc
      · next hkey =>
          obtain ⟨hremote, htype, hself, hmember, hserial⟩ := h.right type key c hc
          refine ⟨hremote, htype, hself, ?_, hserial⟩
          rw [← hremote, hash_mem_minus, not_and, not_not] at hkey
          exact hkey hmember

theorem Inv.start (me : PeerId) (workers : List PeerId) : Inv me (start me workers) :=
  ⟨nofun, rfl, nofun⟩

theorem Inv.reachBy {Q : CacheRun → CacheOp → CacheRun → Prop} (h : Inv me s)
    (hs : ReachBy Q s s') : Inv me s' := by
  induction hs with
  | refl => exact h
  | tail _ hs ih =>
      obtain ⟨op, hs, -⟩ := hs
      exact ih.step hs

/-- A `send` uses the connection that is kept for its target. -/
theorem Inv.sent {c : Connection} (h : Inv me s) (hs : Step s (.send type target dials (some c)) s') :
    s'.pool.cached type target.hash = some c ∧ c.remote = target ∧ c.type = type ∧ c.self = me := by
  obtain ⟨-, -, hsent, -, -⟩ := hs.send_inv h.own
  cases hsent with
  | found hc hcached _ =>
      have hright := h.right type target.hash c hc
      exact ⟨hcached ▸ hc, PeerId.hash_injective hright.remote, hright.type, hright.self⟩
  | dialled _ hconn hnew _ _ =>
      subst hconn
      exact ⟨hnew, rfl, rfl, h.peer⟩

/-- It does not dial when there is one. -/
theorem Inv.found {c : Connection} (h : Inv me s) (hc : s.pool.cached type target.hash = some c)
    (hs : Step s (.send type target dials conn) s') :
    conn = some c ∧ s'.pool.dialled = s.pool.dialled := by
  obtain ⟨-, -, hsent, -, -⟩ := hs.send_inv h.own
  cases hsent with
  | found hc' _ hdialled =>
      rw [hc] at hc'
      exact ⟨hc'.symm, hdialled⟩
  | dialled hnone _ _ _ _ | failed hnone _ _ =>
      rw [hc] at hnone
      cases hnone

/-- It dials when there is none. -/
theorem Inv.missing (h : Inv me s) (hnone : s.pool.cached type target.hash = none)
    (hs : Step s (.send type target dials conn) s') :
    s'.pool.dialled = s.pool.dialled + 1 ∧
      conn = if dials then some ⟨target, type, me, s.pool.dialled⟩ else none := by
  obtain ⟨-, -, hsent, -, -⟩ := hs.send_inv h.own
  cases hsent with
  | found hc _ _ =>
      rw [hnone] at hc
      cases hc
  | dialled _ hconn _ _ hdialled => exact ⟨hdialled, by rw [hconn, h.peer, if_pos rfl]⟩
  | failed _ _ hdialled => exact ⟨hdialled, rfl⟩

/-- A connection to a worker that stays is kept. -/
theorem Inv.kept_step {c : Connection} (h : Inv me s) (hs : Step s op s') (hstays : id ∈ s'.workers)
    (hc : s.pool.cached type id.hash = some c) :
    s'.pool.cached type id.hash = some c := by
  cases op with
  | send type' target dials conn =>
      obtain ⟨-, -, hsent, -, -⟩ := hs.send_inv h.own
      cases hsent with
      | found _ hcached _ | failed _ hcached _ => exact hcached ▸ hc
      | dialled hnone _ _ hother _ =>
          rw [hother type id.hash, hc]
          intro heq
          obtain ⟨rfl, hhash⟩ := Prod.mk.inj heq
          rw [hhash, hnone] at hc
          cases hc
  | resize workers =>
      obtain rfl := hs.resize_inv
      rw [ClientPool.cached_resetPeers, if_neg, hc]
      rw [hash_mem_minus]
      exact fun hleft => hleft.2 hstays

/-- There is no connection to a peer before something is sent to it. -/
theorem Inv.none_step (h : Inv me s) (hs : Step s op s')
    (hop : ∀ d c, op ≠ .send type target d (some c)) (hnone : s.pool.cached type target.hash = none) :
    s'.pool.cached type target.hash = none := by
  cases op with
  | send type' target' dials conn =>
      obtain ⟨-, -, hsent, -, -⟩ := hs.send_inv h.own
      cases hsent with
      | found _ hcached _ | failed _ hcached _ => exact hcached ▸ hnone
      | dialled _ _ _ hother _ =>
          rw [hother type target.hash, hnone]
          intro heq
          obtain ⟨rfl, hhash⟩ := Prod.mk.inj heq
          exact hop _ _ (by rw [PeerId.hash_injective hhash])
  | resize workers =>
      obtain rfl := hs.resize_inv
      rw [ClientPool.cached_resetPeers, hnone, ite_self]

theorem Inv.none_of_notMem (h : Inv me s) (hout : target ∉ s.workers) :
    s.pool.cached type target.hash = none := by
  by_contra hsome
  obtain ⟨c, hc⟩ := Option.ne_none_iff_exists'.mp hsome
  have hright := h.right type target.hash c hc
  exact hout (PeerId.hash_injective hright.remote ▸ hright.member)

end Inv

/-- The cache follows the membership: what is kept goes to workers of the current cluster, there is
one connection for a type and a target, a `send` uses a connection to its target, which is the one
that is kept if there is one, a connection to a worker that stays is kept, and the first `send` to a
peer after it has been away dials. -/
structure Follows (me : PeerId) (s : CacheRun) : Prop where
  right : ∀ type key conn, s.pool.cached type key = some conn → Right me s type key conn
  one : ∀ type key key' conn conn', s.pool.cached type key = some conn →
    s.pool.cached type key' = some conn' → conn.remote = conn'.remote → key = key' ∧ conn = conn'
  sends : ∀ type target dials conn s', Step s (.send type target dials (some conn)) s' →
    conn.remote = target ∧ conn.type = type ∧ conn.self = me ∧
      s'.pool.cached type target.hash = some conn
  works : ∀ type target conn s', Step s (.send type target true conn) s' → conn ≠ none
  found : ∀ type target dials c conn s', s.pool.cached type target.hash = some c →
    Step s (.send type target dials conn) s' → conn = some c ∧ s'.pool.dialled = s.pool.dialled
  kept : ∀ type id conn s', ReachBy (fun _ _ s' => id ∈ s'.workers) s s' →
    s.pool.cached type id.hash = some conn → s'.pool.cached type id.hash = some conn
  anew : ∀ type target dials conn s₁ s₂, target ∉ s.workers →
    ReachBy (fun _ op _ => ∀ d c, op ≠ .send type target d (some c)) s s₁ →
    Step s₁ (.send type target dials conn) s₂ → s₂.pool.dialled = s₁.pool.dialled + 1 ∧
      conn = if dials then some ⟨target, type, me, s₁.pool.dialled⟩ else none

/-- **The connection cache follows the membership.** -/
theorem cache_follows {me : PeerId} {workers : List PeerId} {s : CacheRun}
    (h : Reach me workers s) : s.Follows me := by
  have hinv : Inv me s := (Inv.start me workers).reachBy h
  refine ⟨hinv.right, ?_, ?_, ?_, ?_, ?_, ?_⟩
  · intro type key key' conn conn' hc hc' hremote
    have hkey : key = key' := by
      rw [← (hinv.right type key conn hc).remote, ← (hinv.right type key' conn' hc').remote,
        hremote]
    subst hkey
    rw [hc] at hc'
    exact ⟨rfl, Option.some.inj hc'⟩
  · intro type target dials conn s' hs
    obtain ⟨hc, hremote, htype, hself⟩ := hinv.sent hs
    exact ⟨hremote, htype, hself, hc⟩
  · intro type target conn s' hs
    cases hc : s.pool.cached type target.hash with
    | some c =>
        rw [(hinv.found hc hs).1]
        exact Option.some_ne_none c
    | none =>
        rw [(hinv.missing hc hs).2, if_pos rfl]
        exact Option.some_ne_none _
  · intro type target dials c conn s' hc hs
    exact hinv.found hc hs
  · intro type id conn s' hs hc
    induction hs with
    | refl => exact hc
    | tail hs' hs ih =>
        obtain ⟨op, hs, hstays⟩ := hs
        exact (hinv.reachBy hs').kept_step hs hstays ih
  · intro type target dials conn s₁ s₂ hout hs hsend
    have hnone : s₁.pool.cached type target.hash = none := by
      clear hsend
      induction hs with
      | refl => exact hinv.none_of_notMem hout
      | tail hs' hs ih =>
          obtain ⟨op, hs, hop⟩ := hs
          exact (hinv.reachBy hs').none_step hs hop ih
    exact (hinv.reachBy hs).missing hnone hsend

/-- A peer sends to another one, which leaves and comes back, and sends to it again, once in vain.
The message goes over a new connection, the third to be dialled. -/
theorem cache_follows_rejoin :
    ∃ s, Reach ⟨1, 10000⟩ [⟨1, 10000⟩, ⟨1, 10001⟩] s ∧ s.pool.dialled = 3 ∧
      s.pool.cached 2 (PeerId.hash ⟨1, 10001⟩) = some ⟨⟨1, 10001⟩, 2, ⟨1, 10000⟩, 2⟩ ∧
      s.Follows ⟨1, 10000⟩ := by
  have hreach : Reach ⟨1, 10000⟩ [⟨1, 10000⟩, ⟨1, 10001⟩] _ :=
    .tail (.tail (.tail (.tail (.single ⟨_, @Step.send _ 2 ⟨1, 10001⟩ true (by decide), trivial⟩)
      ⟨_, @Step.resize _ [⟨1, 10000⟩], trivial⟩)
      ⟨_, @Step.resize _ [⟨1, 10000⟩, ⟨1, 10001⟩], trivial⟩)
      ⟨_, @Step.send _ 2 ⟨1, 10001⟩ false (by decide), trivial⟩)
      ⟨_, @Step.send _ 2 ⟨1, 10001⟩ true (by decide), trivial⟩
  exact ⟨_, hreach, by decide, by decide, cache_follows hreach⟩

end CacheRun

end StdmlCollective

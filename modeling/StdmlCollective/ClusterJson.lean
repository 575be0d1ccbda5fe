import StdmlCollective.Buffer
import StdmlCollective.ClusterConfig
import StdmlCollective.Lib.Json

/-!
# `cluster_config` as JSON

`cluster_config::json` prints a config for the config server. The fields of a peer pass through
`std::pair<std::string, int>`, so that an `ipv4` is printed as the `int` with the same 32 bits:
from `128.0.0.0` on this is a negative number.
-/

namespace StdmlCollective

open Json

/-- `json::to_json(const std::string &)`. -/
def strToJson (s : Bytes) : Bytes := [34] ++ s ++ [34]

/-- `json::to_json(const int)`. -/
def intToJson (x : Int32) : Bytes :=
  if x.toInt < 0 then 45 :: toDecimal x.toInt.natAbs else toDecimal x.toInt.natAbs

/-- `json::to_json(const std::pair<K, V> &)`. -/
def pairToJson (p : Bytes × Int32) : Bytes := strToJson p.1 ++ [58] ++ intToJson p.2

/-- `"IPv4"`. -/
def ipv4Key : Bytes := [73, 80, 118, 52]

/-- `"Port"`. -/
def portKey : Bytes := [80, 111, 114, 116]

/-- `"Runners"`. -/
def runnersKey : Bytes := [82, 117, 110, 110, 101, 114, 115]

/-- `"Workers"`. -/
def workersKey : Bytes := [87, 111, 114, 107, 101, 114, 115]

/-- What an `ostream_joiner` with the delimiter `","` has written after the texts `ts`. -/
def ostreamJoiner : List Bytes → Bytes
  | [] => []
  | t :: ts => t ++ ts.flatMap fun t => 44 :: t

/-- `peer_to_json`. -/
def peerToJson (id : PeerId) : Bytes :=
  let pairs := [(ipv4Key, id.ipv4.toInt32), (portKey, id.port.toUInt32.toInt32)]
  [123] ++ ostreamJoiner (pairs.map pairToJson) ++ [125]

/-- `cluster_config::json`. -/
def ClusterConfig.json (c : ClusterConfig) : Bytes :=
  [123] ++ [34] ++ runnersKey ++ [34] ++ [58] ++
    [91] ++ ostreamJoiner (c.runners.map peerToJson) ++ [93] ++ [44] ++
    [34] ++ workersKey ++ [34] ++ [58] ++
    [91] ++ ostreamJoiner (c.workers.map peerToJson) ++ [93] ++ [125]

/-! ## Readers -/

/-- A non-negative integer. -/
def asNat : Value → Option ℕ
  | .int (.ofNat x) => some x
  | _ => none

/-- The numbers `IPv4` and `Port` of a peer. -/
def asPeer : Value → Option (ℕ × ℕ)
  | .obj ms => do
      let ipv4 ← ms.lookup ipv4Key
      let port ← ms.lookup portKey
      return (← asNat ipv4, ← asNat port)
  | _ => none

/-- The text is an object with the members `Runners` and `Workers`, both arrays, and the elements
of these are, in order, the peers of the config. -/
def ClusterConfig.JsonFaithful (c : ClusterConfig) : Prop :=
  ∃ rs ws, parse c.json = some (.obj [(runnersKey, .arr rs), (workersKey, .arr ws)]) ∧
    rs.map asPeer = c.runners.map (fun id => some (id.ipv4.toNat, id.port.toNat)) ∧
    ws.map asPeer = c.workers.map fun id => some (id.ipv4.toNat, id.port.toNat)

/-! ## What is read from the text -/

theorem ostreamJoiner_eq_commas (ts : List Bytes) : ostreamJoiner ts = commas ts := by
  induction ts with
  | nil => rfl
  | cons t ts ih =>
      cases ts with
      | nil => simp [ostreamJoiner, commas]
      | cons t' ts =>
          rw [commas, ← ih]
          simp [ostreamJoiner]

theorem reads_intToJson (x : Int32) : Reads (intToJson x) (.int x.toInt) := by
  unfold intToJson
  split
  · next h =>
    have hread := reads_negative (numeral_toDecimal x.toInt.natAbs)
    rw [value_toDecimal] at hread
    rwa [show -(x.toInt.natAbs : ℤ) = x.toInt by omega] at hread
  · next h =>
    have hread := reads_natural (numeral_toDecimal x.toInt.natAbs)
    rw [value_toDecimal] at hread
    rwa [show (x.toInt.natAbs : ℤ) = x.toInt by omega] at hread

/-- The value of a printed peer. -/
def peerValue (id : PeerId) : Value :=
  .obj [(ipv4Key, .int id.ipv4.toInt32.toInt), (portKey, .int id.port.toUInt32.toInt32.toInt)]

theorem reads_peerToJson (id : PeerId) : Reads (peerToJson id) (peerValue id) := by
  have hipv4 : Plain ipv4Key := by decide
  have hport : Plain portKey := by decide
  have hmembers : List.Forall₂ ReadsMember
      [(ipv4Key, intToJson id.ipv4.toInt32), (portKey, intToJson id.port.toUInt32.toInt32)]
      [(ipv4Key, .int id.ipv4.toInt32.toInt), (portKey, .int id.port.toUInt32.toInt32.toInt)] :=
    .cons ⟨hipv4, rfl, reads_intToJson _⟩ (.cons ⟨hport, rfl, reads_intToJson _⟩ .nil)
  have hread := reads_obj hmembers
  rw [peerValue]
  simpa [peerToJson, ostreamJoiner_eq_commas, commas, member, pairToJson, strToJson] using hread

/-- The value of a printed config. -/
def ClusterConfig.jsonValue (c : ClusterConfig) : Value :=
  .obj [(runnersKey, .arr (c.runners.map peerValue)), (workersKey, .arr (c.workers.map peerValue))]

/-- The text is well formed. -/
theorem ClusterConfig.reads_json (c : ClusterConfig) : Reads c.json c.jsonValue := by
  have hpeers : ∀ ids : List PeerId,
      Reads (91 :: (commas (ids.map peerToJson) ++ [93])) (.arr (ids.map peerValue)) := by
    intro ids
    apply reads_arr
    induction ids with
    | nil => exact .nil
    | cons id ids ih => exact .cons (reads_peerToJson id) ih
  have hrunners : Plain runnersKey := by decide
  have hworkers : Plain workersKey := by decide
  have hmembers : List.Forall₂ ReadsMember
      [(runnersKey, 91 :: (commas (c.runners.map peerToJson) ++ [93])),
        (workersKey, 91 :: (commas (c.workers.map peerToJson) ++ [93]))]
      [(runnersKey, .arr (c.runners.map peerValue)),
        (workersKey, .arr (c.workers.map peerValue))] :=
    .cons ⟨hrunners, rfl, hpeers _⟩ (.cons ⟨hworkers, rfl, hpeers _⟩ .nil)
  have hread := reads_obj hmembers
  unfold jsonValue ClusterConfig.json
  simpa [ostreamJoiner_eq_commas, commas, member] using hread

/-- The `int` an `ipv4` is printed as. -/
theorem toInt_ipv4 (x : UInt32) :
    x.toInt32.toInt = if x.toNat < 2 ^ 31 then (x.toNat : ℤ) else x.toNat - 2 ^ 32 := by
  have h := BitVec.toInt_eq_toNat_cond x.toBitVec
  change x.toBitVec.toInt = _
  rw [h, UInt32.toNat_toBitVec]
  split <;> split <;> omega

theorem toInt_port (x : UInt16) : x.toUInt32.toInt32.toInt = x.toNat := by
  have hlt := x.toNat_lt
  rw [toInt_ipv4, UInt16.toNat_toUInt32, if_pos (by omega)]

/-- A printed peer is read back exactly when its `ipv4` is not printed as a negative number. -/
theorem asPeer_peerValue_iff (id : PeerId) :
    asPeer (peerValue id) = some (id.ipv4.toNat, id.port.toNat) ↔ id.ipv4.toNat < 2 ^ 31 := by
  have hlt := id.ipv4.toNat_lt
  have hport : asNat (.int (id.port.toNat : ℤ)) = some id.port.toNat := rfl
  have hkeys : (portKey == ipv4Key) = false := by decide
  have hpeer : asPeer (peerValue id) =
      (asNat (.int id.ipv4.toInt32.toInt)).map fun x => (x, id.port.toNat) := by
    simp only [asPeer, peerValue, List.lookup_cons, toInt_port, hkeys, beq_self_eq_true,
      Option.bind_eq_bind, Option.bind_some, hport]
    cases asNat (.int id.ipv4.toInt32.toInt) with
    | none => rfl
    | some x => rfl
  rw [hpeer, toInt_ipv4]
  split
  · next h => exact iff_of_true rfl h
  · next h =>
    obtain ⟨k, hk⟩ := Int.eq_negSucc_of_lt_zero (show (id.ipv4.toNat : ℤ) - 2 ^ 32 < 0 by omega)
    rw [hk]
    exact iff_of_false (by simp [asNat]) h

theorem peerValue_injective : Function.Injective peerValue := by
  intro id id' h
  have hlt := id.ipv4.toNat_lt
  have hlt' := id'.ipv4.toNat_lt
  simp only [peerValue, Value.obj.injEq, List.cons.injEq, Prod.mk.injEq, Value.int.injEq, true_and,
    and_true, toInt_port] at h
  rw [toInt_ipv4, toInt_ipv4] at h
  have hipv4 : id.ipv4 = id'.ipv4 := UInt32.toNat_inj.mp (by split at h <;> split at h <;> omega)
  have hport : id.port = id'.port := UInt16.toNat_inj.mp (by omega)
  cases id
  cases id'
  simp_all

theorem ClusterConfig.jsonValue_injective : Function.Injective ClusterConfig.jsonValue := by
  intro c c' hval
  simp only [jsonValue, Value.obj.injEq, List.cons.injEq, Prod.mk.injEq, Value.arr.injEq, true_and,
    and_true] at hval
  have hr := List.map_injective_iff.mpr peerValue_injective hval.1
  have hw := List.map_injective_iff.mpr peerValue_injective hval.2
  cases c
  cases c'
  simp_all

/-- Different configs never print the same text. -/
theorem ClusterConfig.json_injective : Function.Injective ClusterConfig.json := by
  intro c c' h
  have hread := c.reads_json
  rw [h] at hread
  exact jsonValue_injective (hread.unique c'.reads_json)

/-- The text is faithful exactly when every `ipv4` is below `2 ^ 31`. -/
theorem ClusterConfig.jsonFaithful_iff (c : ClusterConfig) :
    c.JsonFaithful ↔ ∀ id, id ∈ c.runners ∨ id ∈ c.workers → id.ipv4.toNat < 2 ^ 31 := by
  have hpeers : ∀ ids : List PeerId,
      (ids.map peerValue).map asPeer = ids.map (fun id => some (id.ipv4.toNat, id.port.toNat)) ↔
        ∀ id ∈ ids, id.ipv4.toNat < 2 ^ 31 := by
    intro ids
    rw [List.map_map, List.map_inj_left]
    exact forall₂_congr fun id _ => asPeer_peerValue_iff id
  constructor
  · rintro ⟨rs, ws, hparse, hrs, hws⟩ id hid
    rw [c.reads_json.parse] at hparse
    simp only [jsonValue, Option.some.injEq, Value.obj.injEq, List.cons.injEq, Prod.mk.injEq,
      Value.arr.injEq, true_and, and_true] at hparse
    obtain ⟨rfl, rfl⟩ := hparse
    rcases hid with hid | hid
    · exact (hpeers c.runners).mp hrs id hid
    · exact (hpeers c.workers).mp hws id hid
  · intro h
    refine ⟨_, _, c.reads_json.parse, ?_, ?_⟩
    · exact (hpeers c.runners).mpr fun id hid => h id (.inl hid)
    · exact (hpeers c.workers).mpr fun id hid => h id (.inr hid)

/-- Texts tell configs apart, and they are faithful below `128.0.0.0`. -/
theorem ClusterConfig.json_exact (c : ClusterConfig) :
    (∀ c' : ClusterConfig, c.json = c'.json → c = c') ∧
      (c.JsonFaithful ↔ ∀ id, id ∈ c.runners ∨ id ∈ c.workers → id.ipv4.toNat < 2 ^ 31) := by
  constructor
  · intro c' h
    exact json_injective h
  · exact jsonFaithful_iff c

/-- A worker at `128.0.0.1:10000` is printed with `"IPv4":-2147483647`. -/
theorem ClusterConfig.not_jsonFaithful_high :
    ¬ClusterConfig.JsonFaithful ⟨[], [⟨2147483649, 10000⟩]⟩ := by
  intro h
  have hlt := (jsonFaithful_iff _).mp h ⟨2147483649, 10000⟩ (.inr List.mem_cons_self)
  exact absurd hlt (by decide)

end StdmlCollective

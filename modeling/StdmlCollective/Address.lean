import Mathlib.Data.Fintype.EquivFin
import StdmlCollective.Lib.LittleEndian
import StdmlCollective.Network

/-!
# Addresses

`peer_id` and the lists made of it.
-/

namespace StdmlCollective

open LittleEndian

/-- `struct peer_id`. -/
structure PeerId where
  ipv4 : UInt32
  port : UInt16
deriving DecidableEq, Repr

/-- The 48 bits of an id. -/
def PeerId.code (x : PeerId) : Fin (2 ^ 48) :=
  ⟨x.ipv4.toNat * 2 ^ 16 + x.port.toNat, by
    have h₁ := x.ipv4.toNat_lt
    have h₂ := x.port.toNat_lt
    omega⟩

theorem PeerId.code_injective : Function.Injective PeerId.code := by
  intro x y h
  have h₁ := x.port.toNat_lt
  have h₂ := y.port.toNat_lt
  simp only [PeerId.code, Fin.mk.injEq] at h
  have hip : x.ipv4 = y.ipv4 := UInt32.toNat_inj.mp (by omega)
  have hport : x.port = y.port := UInt16.toNat_inj.mp (by omega)
  cases x
  cases y
  simp_all

instance : Finite PeerId := Finite.of_injective _ PeerId.code_injective

/-- There are no more peers than ids. -/
theorem card_le_of_injective {n : ℕ} {ident : Fin n → PeerId} (h : Function.Injective ident) :
    n ≤ 2 ^ 48 := by
  simpa using Fintype.card_le_of_injective _ (PeerId.code_injective.comp h)

/-- `peer_list::rank`: the first place of `id`, or the length of the list. -/
def rank (ps : List PeerId) (id : PeerId) : ℕ := ps.idxOf id

theorem rank_lt_iff {ps : List PeerId} {id : PeerId} : rank ps id < ps.length ↔ id ∈ ps :=
  List.idxOf_lt_length_iff

end StdmlCollective

import StdmlCollective.Address
import StdmlCollective.Lib.Packed

/-!
# `cluster_config` as bytes

`cluster_config::bytes` writes two 32-bit counts and then the packed `peer_id`s of the two lists;
`cluster_config::from` reads them back and refuses a byte vector whose length does not fit the
counts. Up to `2 ^ 32` entries a list the two are inverse to each other. From there on the counts
are those modulo `2 ^ 32`.
-/

namespace StdmlCollective

open LittleEndian Packed

/-- `struct peer_id` is packed: four bytes of `ipv4` and two of `port`. -/
def peerIdRecord : Record PeerId where
  size := 6
  encode x := leBytes 4 x.ipv4.toNat ++ leBytes 2 x.port.toNat
  decode b := ⟨UInt32.ofNat (leNat (b.take 4)), UInt16.ofNat (leNat (b.drop 4))⟩
  length_encode x := by simp
  decode_encode x := by
    have h₁ : x.ipv4.toNat < 256 ^ 4 := x.ipv4.toNat_lt
    have h₂ : x.port.toNat < 256 ^ 2 := x.port.toNat_lt
    rw [List.take_left' (length_leBytes 4 _), List.drop_left' (length_leBytes 4 _), leNat_leBytes,
      leNat_leBytes, Nat.mod_eq_of_lt h₁, Nat.mod_eq_of_lt h₂, UInt32.ofNat_toNat,
      UInt16.ofNat_toNat]
  encode_decode b hb := by
    have htake : (b.take 4).length = 4 := by rw [List.length_take]; omega
    have hdrop : (b.drop 4).length = 2 := by rw [List.length_drop]; omega
    have h₁ : leNat (b.take 4) < 2 ^ 32 := by
      have h := leNat_lt (b.take 4)
      rwa [htake] at h
    have h₂ : leNat (b.drop 4) < 2 ^ 16 := by
      have h := leNat_lt (b.drop 4)
      rwa [hdrop] at h
    rw [UInt32.toNat_ofNat', UInt16.toNat_ofNat', Nat.mod_eq_of_lt h₁, Nat.mod_eq_of_lt h₂]
    have e₁ := leBytes_leNat (b.take 4)
    have e₂ := leBytes_leNat (b.drop 4)
    rw [htake] at e₁
    rw [hdrop] at e₂
    rw [e₁, e₂, List.take_append_drop]

/-- `struct cluster_config`. -/
structure ClusterConfig where
  runners : List PeerId
  workers : List PeerId
deriving DecidableEq, Repr

namespace ClusterConfig

/-- `cluster_config::bytes`. -/
def bytes (c : ClusterConfig) : Bytes :=
  leBytes 4 c.runners.length ++ (leBytes 4 c.workers.length ++
    (peerIdRecord.pack c.runners ++ peerIdRecord.pack c.workers))

/-- `cluster_config::from`. It reads the two counts before it looks at the length. -/
def «from» (bs : Bytes) : Option ClusterConfig :=
  let nw := leNat (bs.take 4)
  let nr := leNat ((bs.drop 4).take 4)
  let size₁ := 6 * nw
  let size₂ := 6 * nr
  if size₁ + size₂ + 4 * 2 ≠ bs.length then none
  else some ⟨peerIdRecord.unpack nw (bs.drop (4 * 2)),
    peerIdRecord.unpack nr (bs.drop (4 * 2 + size₁))⟩

/-- Both lists have less than `2 ^ 32` entries, so that the counts are exact. -/
def Small (c : ClusterConfig) : Prop := c.runners.length < 2 ^ 32 ∧ c.workers.length < 2 ^ 32

theorem length_bytes (c : ClusterConfig) :
    c.bytes.length = 6 * c.runners.length + 6 * c.workers.length + 8 := by
  simp only [bytes, List.length_append, length_leBytes, Record.length_pack, peerIdRecord]
  omega

/-! ## Encoder and decoder -/

/-- The two counts at the head of the encoding. -/
private theorem counts_bytes (c : ClusterConfig) :
    leNat (c.bytes.take 4) = c.runners.length % 2 ^ 32 ∧
      leNat ((c.bytes.drop 4).take 4) = c.workers.length % 2 ^ 32 := by
  constructor
  · rw [bytes, List.take_left' (length_leBytes 4 _)]
    exact leNat_leBytes 4 _
  · rw [bytes, List.drop_left' (length_leBytes 4 _), List.take_left' (length_leBytes 4 _)]
    exact leNat_leBytes 4 _

/-- What follows the two counts. -/
private theorem drop_bytes (c : ClusterConfig) :
    c.bytes.drop 8 = peerIdRecord.pack c.runners ++ peerIdRecord.pack c.workers := by
  have h : (leBytes 4 c.runners.length ++ leBytes 4 c.workers.length).length = 8 := by simp
  rw [bytes, ← List.append_assoc, List.drop_left' h]

/-- An encoding whose counts are exact is decoded to what was encoded. -/
theorem from_bytes {c : ClusterConfig} (h : c.Small) : «from» c.bytes = some c := by
  obtain ⟨h₁, h₂⟩ := counts_bytes c
  rw [Nat.mod_eq_of_lt h.1] at h₁
  rw [Nat.mod_eq_of_lt h.2] at h₂
  have hlen : ¬6 * c.runners.length + 6 * c.workers.length + 4 * 2 ≠ c.bytes.length := by
    rw [length_bytes]
    simp
  have hsize : (peerIdRecord.pack c.runners).length = 6 * c.runners.length := by
    rw [Record.length_pack, Nat.mul_comm]
    rfl
  have hr : peerIdRecord.unpack c.runners.length (c.bytes.drop 8) = c.runners := by
    rw [drop_bytes, Record.unpack_pack]
  have hw : peerIdRecord.unpack c.workers.length (c.bytes.drop (8 + 6 * c.runners.length)) =
      c.workers := by
    rw [← List.drop_drop, drop_bytes, List.drop_left' hsize]
    simpa using peerIdRecord.unpack_pack c.workers []
  simp only [«from», h₁, h₂, if_neg hlen, hr, hw]

/-- What is decoded encodes to the bytes it was read from, and its counts are exact. -/
theorem bytes_from {bs : Bytes} {c : ClusterConfig} (hbs : 8 ≤ bs.length)
    (h : «from» bs = some c) : c.bytes = bs ∧ c.Small := by
  have hlen₁ : (bs.take 4).length = 4 := by
    rw [List.length_take]
    omega
  have hlen₂ : ((bs.drop 4).take 4).length = 4 := by
    rw [List.length_take, List.length_drop]
    omega
  have hnw : leNat (bs.take 4) < 2 ^ 32 := by
    have hlt := leNat_lt (bs.take 4)
    rwa [hlen₁] at hlt
  have hnr : leNat ((bs.drop 4).take 4) < 2 ^ 32 := by
    have hlt := leNat_lt ((bs.drop 4).take 4)
    rwa [hlen₂] at hlt
  have hb₁ := leBytes_leNat (bs.take 4)
  have hb₂ := leBytes_leNat ((bs.drop 4).take 4)
  rw [hlen₁] at hb₁
  rw [hlen₂] at hb₂
  simp only [«from»] at h
  generalize leNat (bs.take 4) = nw at h hnw hb₁
  generalize leNat ((bs.drop 4).take 4) = nr at h hnr hb₂
  split at h
  · exact absurd h (by simp)
  · next hsize =>
    rw [not_not] at hsize
    obtain rfl := Option.some.inj h
    refine ⟨?_, by simpa [Small] using ⟨hnw, hnr⟩⟩
    have hr : peerIdRecord.pack (peerIdRecord.unpack nw (bs.drop 8)) =
        (bs.drop 8).take (nw * 6) := by
      apply Record.pack_unpack
      rw [List.length_drop, show peerIdRecord.size = 6 from rfl]
      omega
    have hw : peerIdRecord.pack (peerIdRecord.unpack nr (bs.drop (8 + 6 * nw))) =
        (bs.drop 8).drop (nw * 6) := by
      rw [Record.pack_unpack, List.drop_drop, Nat.mul_comm nw 6]
      · apply List.take_of_length_le
        rw [List.length_drop, show peerIdRecord.size = 6 from rfl]
        omega
      · rw [List.length_drop, show peerIdRecord.size = 6 from rfl]
        omega
    calc leBytes 4 (peerIdRecord.unpack nw (bs.drop 8)).length ++
          (leBytes 4 (peerIdRecord.unpack nr (bs.drop (8 + 6 * nw))).length ++
            (peerIdRecord.pack (peerIdRecord.unpack nw (bs.drop 8)) ++
              peerIdRecord.pack (peerIdRecord.unpack nr (bs.drop (8 + 6 * nw)))))
        = bs.take 4 ++ ((bs.drop 4).take 4 ++ bs.drop 8) := by
          rw [Record.length_unpack, Record.length_unpack, hb₁, hb₂, hr, hw,
            List.take_append_drop]
      _ = bs := by
          rw [show bs.drop 8 = (bs.drop 4).drop 4 by rw [List.drop_drop],
            List.take_append_drop, List.take_append_drop]

/-- One of the two encodings having exact counts is enough to tell configs apart: the length of
the text gives the sum of the lengths. -/
theorem bytes_injective {c c' : ClusterConfig} (h : c.Small) (heq : c.bytes = c'.bytes) :
    c = c' := by
  obtain ⟨hr, hw⟩ := counts_bytes c
  obtain ⟨hr', hw'⟩ := counts_bytes c'
  have hlen := length_bytes c
  have hlen' := length_bytes c'
  rw [heq] at hr hw hlen
  have h' : c'.Small := by
    unfold Small at h ⊢
    omega
  apply Option.some.inj
  rw [← from_bytes h, ← from_bytes h', heq]

/-- The binary codec of configs: encoder and decoder are inverse to each other, and what the
decoder refuses is not an encoding. -/
theorem codec_exact :
    (∀ c : ClusterConfig, c.Small → «from» c.bytes = some c) ∧
      (∀ c c' : ClusterConfig, c.Small → c'.Small → c.bytes = c'.bytes → c = c') ∧
      ∀ bs : Bytes, 8 ≤ bs.length →
        (∀ c, «from» bs = some c → c.bytes = bs) ∧
          («from» bs = none ↔ ¬∃ c : ClusterConfig, c.Small ∧ c.bytes = bs) := by
  refine ⟨fun c => from_bytes, fun c c' h _ => bytes_injective h, fun bs hbs => ⟨?_, ?_⟩⟩
  · intro c h
    exact (bytes_from hbs h).1
  · constructor
    · rintro h ⟨c, hc, rfl⟩
      rw [from_bytes hc] at h
      exact Option.some_ne_none c h
    · intro h
      rw [Option.eq_none_iff_forall_not_mem]
      intro c hc
      have hfrom := bytes_from hbs hc
      exact h ⟨c, hfrom.2, hfrom.1⟩

/-- A config with `2 ^ 32` runners is encoded with the count 0, and its encoding is refused. -/
theorem from_bytes_large (id : PeerId) :
    ¬(«from» (bytes ⟨List.replicate (2 ^ 32) id, []⟩) = none ↔
      ¬∃ c : ClusterConfig, c.bytes = bytes ⟨List.replicate (2 ^ 32) id, []⟩) := by
  have hlen := length_bytes ⟨List.replicate (2 ^ 32) id, []⟩
  obtain ⟨h₁, h₂⟩ := counts_bytes ⟨List.replicate (2 ^ 32) id, []⟩
  simp only [List.length_replicate, List.length_nil, Nat.mod_self, Nat.zero_mod] at h₁ h₂ hlen
  intro h
  refine h.mp ?_ ⟨_, rfl⟩
  simp only [«from», h₁, h₂]
  rw [if_pos]
  rw [hlen]
  decide

/-- The same with the peer `127.0.0.1:10000` in every place. -/
theorem not_codec_exact_large :
    ¬∀ bs : Bytes, 8 ≤ bs.length →
      («from» bs = none ↔ ¬∃ c : ClusterConfig, c.bytes = bs) := by
  intro h
  apply from_bytes_large ⟨2130706433, 10000⟩
  apply h
  rw [length_bytes]
  omega

/-! ## What the decoder reads

`bs.data()` is the start of a piece of memory of which only `bs.size()` bytes belong to `bs`. -/

/-- `cluster_config::from` on the memory at `bs.data()`, with `size_t` arithmetic. -/
def fromMemory (mem : ℕ → UInt8) (size : ℕ) : StateM (List ℕ) (Option ClusterConfig) := do
  let nw := leNat (← readAt mem 0 4)
  let nr := leNat (← readAt mem 4 4)
  let size₁ := 6 * nw % 2 ^ 64
  let size₂ := 6 * nr % 2 ^ 64
  if (size₁ + size₂ + 4 * 2) % 2 ^ 64 ≠ size then return none
  else
    let runners ← readAt mem (4 * 2) size₁
    let workers ← readAt mem (4 * 2 + size₁) size₂
    return some ⟨peerIdRecord.unpack nw runners, peerIdRecord.unpack nr workers⟩

/-- Whatever lies behind `bs`: every index read is one of `bs`, and the result, none or a config,
depends on `bs` only. -/
def Safe (bs : Bytes) : Prop :=
  ∃ r : Option ClusterConfig, ∀ mem, Backs mem bs →
    (∀ i ∈ (fromMemory mem bs.length []).2, i < bs.length) ∧ (fromMemory mem bs.length []).1 = r

section Reads

variable {mem : ℕ → UInt8} {bs : Bytes}

/-- A count of 32 bits. -/
private theorem count_lt (f : ℕ → UInt8) : leNat ((List.range 4).map f) < 2 ^ 32 := by
  simpa using leNat_lt ((List.range 4).map f)

/-- The products and their sum are below `2 ^ 64`. -/
theorem fromMemory_eq (mem : ℕ → UInt8) (size : ℕ) :
    fromMemory mem size [] =
      let nw := leNat ((List.range 4).map fun i => mem (0 + i))
      let nr := leNat ((List.range 4).map fun i => mem (4 + i))
      if 6 * nw + 6 * nr + 8 ≠ size then (none, [0, 1, 2, 3, 4, 5, 6, 7])
      else (some ⟨peerIdRecord.unpack nw ((List.range (6 * nw)).map fun i => mem (8 + i)),
          peerIdRecord.unpack nr ((List.range (6 * nr)).map fun i => mem (8 + 6 * nw + i))⟩,
        [0, 1, 2, 3, 4, 5, 6, 7] ++ (List.range (6 * nw)).map (fun i => 8 + i) ++
          (List.range (6 * nr)).map fun i => 8 + 6 * nw + i) := by
  have hnw := count_lt fun i => mem (0 + i)
  have hnr := count_lt fun i => mem (4 + i)
  have hseen : [] ++ (List.range 4).map (fun i => 0 + i) ++ (List.range 4).map (fun i => 4 + i) =
      [0, 1, 2, 3, 4, 5, 6, 7] := by decide
  simp only [fromMemory, bind, StateT.bind, readAt, pure, hseen]
  generalize leNat ((List.range 4).map fun i => mem (0 + i)) = nw at hnw ⊢
  generalize leNat ((List.range 4).map fun i => mem (4 + i)) = nr at hnr ⊢
  have h₁ : 6 * nw % 2 ^ 64 = 6 * nw := Nat.mod_eq_of_lt (by omega)
  have h₂ : 6 * nr % 2 ^ 64 = 6 * nr := Nat.mod_eq_of_lt (by omega)
  have h₃ : (6 * nw + 6 * nr + 4 * 2) % 2 ^ 64 = 6 * nw + 6 * nr + 8 :=
    Nat.mod_eq_of_lt (by omega)
  rw [h₁, h₂, h₃]
  split <;> rfl

/-- The header is always read. -/
theorem mem_reads (mem : ℕ → UInt8) (size : ℕ) {i : ℕ} (hi : i < 8) :
    i ∈ (fromMemory mem size []).2 := by
  have hhead : i ∈ [0, 1, 2, 3, 4, 5, 6, 7] := by
    simp only [List.mem_cons, List.not_mem_nil, or_false]
    omega
  rw [fromMemory_eq]
  dsimp only
  split
  · exact hhead
  · exact List.mem_append_left _ (List.mem_append_left _ hhead)

/-- What is read behind the header was accounted for by the length check. -/
theorem reads_lt (h : 8 ≤ bs.length) {i : ℕ} (hi : i ∈ (fromMemory mem bs.length []).2) :
    i < bs.length := by
  rw [fromMemory_eq] at hi
  dsimp only at hi
  split at hi
  · simp only [List.mem_cons, List.not_mem_nil, or_false] at hi
    omega
  · next hsize =>
    simp only [List.mem_append, List.mem_cons, List.not_mem_nil, or_false, List.mem_map,
      List.mem_range] at hi
    omega

/-- `from` on bytes and on memory agree when the header is in `bs`. -/
theorem fromMemory_backs (hb : Backs mem bs) (h : 8 ≤ bs.length) :
    (fromMemory mem bs.length []).1 = «from» bs := by
  have hnw : (List.range 4).map (fun i => mem (0 + i)) = bs.take 4 := hb.readAt (by omega)
  have hnr : (List.range 4).map (fun i => mem (4 + i)) = (bs.drop 4).take 4 := hb.readAt (by omega)
  have hunpack : ∀ k b, peerIdRecord.unpack k (List.take (6 * k) b) = peerIdRecord.unpack k b := by
    intro k b
    rw [Nat.mul_comm]
    exact peerIdRecord.unpack_take k b
  rw [fromMemory_eq, hnw, hnr]
  simp only [«from»]
  split
  · rfl
  · next hsize =>
    rw [hb.readAt (by omega), hb.readAt (by omega), hunpack, hunpack]

end Reads

/-- **What the decoder reads belongs to its argument exactly when the header does.** The header is
read before the length is looked at; everything else is read behind the length check, and the
counts are too small for it to overflow. -/
theorem from_safe_iff (bs : Bytes) : Safe bs ↔ 8 ≤ bs.length := by
  constructor
  · rintro ⟨r, h⟩
    have hlast := (h _ (backs_getD bs fun _ => 0)).1 7 (mem_reads _ _ (by omega))
    omega
  · intro h
    exact ⟨«from» bs, fun mem hb => ⟨fun i hi => reads_lt h hi, fromMemory_backs hb h⟩⟩

/-- Five bytes: the second count is read from index 4 to 7. -/
theorem not_from_safe_five : ¬∀ bs : Bytes, Safe bs := by
  intro h
  obtain ⟨r, hr⟩ := h [1, 0, 0, 0, 1]
  have hlast := (hr _ (backs_getD _ fun _ => 0)).1 7 (mem_reads _ _ (by omega))
  simp at hlast

end ClusterConfig

end StdmlCollective

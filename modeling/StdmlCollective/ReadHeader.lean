import StdmlCollective.Lib.Packed
import StdmlCollective.Rchan

/-!
# The fused header reader

`read_header` reads the name and the two numbers behind it with one call, into a buffer of
`name_len + 8` bytes. The sum is a `uint32_t`: for the eight largest names the buffer is almost
empty and the numbers are read from behind it. Otherwise the reader does what three calls do.
-/

namespace StdmlCollective

open LittleEndian Packed

/-- A header with what the reader has done to its buffer: its size, and the indices that were
read. -/
structure FusedHeader where
  header : ReceivedHeader
  size : ℕ
  seen : List ℕ

section Readers

variable (net : Transport)

/-- The two numbers behind the name. -/
def readNumbers (mem : ℕ → UInt8) (nameLen : ℕ) : StateM (List ℕ) (UInt32 × ℕ) := do
  let flags := leNat (← readAt mem nameLen 4)
  let len := leNat (← readAt mem (nameLen + 4) 4)
  return (UInt32.ofNat flags, len)

/-- `read_header` with `fusion`; `behind` is what lies in memory behind the buffer. The last
`resize` cuts the buffer to the name, or extends it by zeros. -/
def readHeaderFused (behind : ℕ → UInt8) : Reading (Option FusedHeader) := do
  match ← net.readEc 4 with
  | none => return none
  | some b =>
      let nameLen := leNat b
      let size := (nameLen + 8) % 2 ^ 32
      let buf ← net.read size
      let numbers := readNumbers (fun i => buf.getD i (behind i)) nameLen []
      let name := (buf ++ List.replicate (nameLen - size) 0).take nameLen
      return some ⟨⟨nameLen, name, numbers.1.1, numbers.1.2⟩, size, numbers.2⟩

/-- `read_header` without `fusion`. -/
def readHeaderUnfused : Reading (Option ReceivedHeader) := do
  match ← net.readEc 4 with
  | none => return none
  | some b =>
      let nameLen := leNat b
      let name ← net.read nameLen
      let flags ← net.read 4
      let len ← net.read 4
      return some ⟨nameLen, name, UInt32.ofNat (leNat flags), leNat len⟩

end Readers

/-- The two readers end in the same way: with the same header, the same rest of the stream and no
access outside the buffer, without a header, or with the same failure. -/
def SameHeader : Except Fault (Option FusedHeader × Socket) →
    Except Fault (Option ReceivedHeader × Socket) → Prop
  | .ok (some h, s), .ok (some h', s') =>
      h.header = h' ∧ s.bytes = s'.bytes ∧ ∀ i ∈ h.seen, i < h.size
  | .ok (none, s), .ok (none, s') => s.bytes = s'.bytes
  | .error f, .error f' => f = f'
  | _, _ => False

/-- The fused reader agrees with the other one on a stream, whatever lies behind its buffer. -/
def FusionAgrees (net : Transport) (s : Socket) : Prop :=
  ∀ behind, SameHeader (readHeaderFused net behind s) (readHeaderUnfused net s)

/-- `hdr.name_len`. -/
def nameLenOf (s : Socket) : ℕ := leNat (s.bytes.take 4)

/-- The header at the head of a stream. -/
def streamHeader (s : Socket) : ReceivedHeader :=
  ⟨nameLenOf s, (s.bytes.drop 4).take (nameLenOf s),
    UInt32.ofNat (leNat ((s.bytes.drop (4 + nameLenOf s)).take 4)),
    leNat ((s.bytes.drop (4 + nameLenOf s + 4)).take 4)⟩

/-! ## Exact transports -/

/-- On good sockets, reads of up to `2 ^ 32` bytes give the next bytes, or `fault` when there are
not enough of them. -/
structure Transport.ExactOn (net : Transport) (good : Socket → Prop) (fault : Fault) : Prop where
  read_le : ∀ {s : Socket} {n : ℕ}, n < 2 ^ 32 → good s → n ≤ s.bytes.length →
    ∃ s', net.read n s = .ok (s.bytes.take n, s') ∧ s'.bytes = s.bytes.drop n ∧ good s'
  read_lt : ∀ {s : Socket} {n : ℕ}, n < 2 ^ 32 → good s → s.bytes.length < n →
    net.read n s = .error fault
  readEc_le : ∀ {s : Socket}, good s → 4 ≤ s.bytes.length →
    ∃ s', net.readEc 4 s = .ok (some (s.bytes.take 4), s') ∧ s'.bytes = s.bytes.drop 4 ∧ good s'
  readEc_lt : ∀ {s : Socket}, good s → s.bytes.length < 4 → ∀ b s',
    net.readEc 4 s ≠ .ok (some b, s')

theorem Cxx20.exactOn : transport.ExactOn (fun _ => True) .throws where
  read_le := by
    intro s n hn _ hle
    obtain ⟨s', hread, hs'⟩ := (exact (2 ^ 32)).read_le hn hle
    exact ⟨s', hread, hs', trivial⟩
  read_lt := by
    intro s n _ _ hlt
    exact (read_eq n s).trans (by rw [readLoop_of_lt hlt])
  readEc_le := by
    intro s _ hle
    obtain ⟨s', hread, hs'⟩ := (exact 5).readEc_le (by omega) hle
    exact ⟨s', hread, hs', trivial⟩
  readEc_lt := by
    intro s _ hlt b s' heq
    rcases (exact 5).readEc_lt (by omega) hlt with ⟨s'', hnone⟩ | ⟨h, -⟩
    · rw [hnone] at heq
      simp at heq
    · exact h trivial

/-- How `TcpSocket::recv` fails at the end of the stream. -/
def Old.fault (errno : ℕ) : Fault := if errno = 35 then .spins else .throws

theorem Old.exactOn (errno : ℕ) :
    (transport errno).ExactOn (fun s => ∀ k, s.frag k < 2 ^ 31) (fault errno) where
  read_le := by
    intro s n _ hgood hle
    obtain ⟨s', hrec, hs', hfrag⟩ := recvAll_of_le errno (.inr hgood) hle 0
    refine ⟨s', ?_, hs', by rwa [hfrag]⟩
    simp [transport, recv, hrec, bind, Except.bind, pure, Except.pure]
  read_lt := by
    intro s n hn hgood hlt
    rcases recvAll_of_lt errno (.inr hgood) hlt 0 with ⟨⟨data, s', hrec⟩, herr⟩ | ⟨hrec, herr⟩
    · have hne : Int32.ofNat s.bytes.length ≠ Int32.ofNat n := fun heq =>
        absurd (ofNat_inj (by omega) hn heq) (by omega)
      simp [transport, recv, hrec, hne, herr, fault, bind, Except.bind, throw, throwThe,
        MonadExceptOf.throw]
    · subst herr
      simp [transport, recv, hrec, fault, bind, Except.bind]
  readEc_le := by
    intro s hgood hle
    obtain ⟨s', hrec, hs', hfrag⟩ := recvAll_of_le errno (.inr hgood) hle 0
    refine ⟨s', ?_, hs', by rwa [hfrag]⟩
    simp [transport, recvEc, hrec, bind, Except.bind, pure, Except.pure]
  readEc_lt := by
    intro s hgood hlt b s' heq
    rcases (exact errno).readEc_lt (by omega) hlt with ⟨s'', hnone⟩ | ⟨-, f, hf⟩
    · rw [hnone] at heq
      simp at heq
    · rw [hf] at heq
      simp at heq

/-! ## The two readers -/

section Agreement

variable {net : Transport} {good : Socket → Prop} {fault : Fault} {s : Socket}

theorem nameLenOf_lt (s : Socket) : nameLenOf s < 2 ^ 32 := by
  have hlt := leNat_lt (s.bytes.take 4)
  have hle : (256 : ℕ) ^ (s.bytes.take 4).length ≤ 256 ^ 4 := by
    apply Nat.pow_le_pow_right (by omega)
    rw [List.length_take]
    omega
  exact lt_of_lt_of_le hlt hle

/-- The header in a buffer with the bytes behind the length of the name. -/
theorem streamHeader_eq (s : Socket) :
    let buf := (s.bytes.drop 4).take (nameLenOf s + 8)
    (⟨nameLenOf s, buf.take (nameLenOf s),
      UInt32.ofNat (leNat ((buf.drop (nameLenOf s)).take 4)),
      leNat ((buf.drop (nameLenOf s + 4)).take 4)⟩ : ReceivedHeader) = streamHeader s := by
  dsimp only
  rw [List.take_take, List.drop_take, List.drop_take, List.take_take, List.take_take,
    List.drop_drop, List.drop_drop, ← Nat.add_assoc, min_eq_left (by omega),
    min_eq_left (by omega), min_eq_left (by omega), streamHeader]

/-- The header that the fused reader takes from its buffer. -/
def fusedHeader (behind : ℕ → UInt8) (nameLen : ℕ) (buf : Bytes) : FusedHeader :=
  let size := (nameLen + 8) % 2 ^ 32
  let numbers := readNumbers (fun i => buf.getD i (behind i)) nameLen []
  ⟨⟨nameLen, (buf ++ List.replicate (nameLen - size) 0).take nameLen, numbers.1.1, numbers.1.2⟩,
    size, numbers.2⟩

theorem readNumbers_eq (mem : ℕ → UInt8) (nameLen : ℕ) :
    readNumbers mem nameLen [] =
      ((UInt32.ofNat (leNat ((List.range 4).map fun i => mem (nameLen + i))),
        leNat ((List.range 4).map fun i => mem (nameLen + 4 + i))),
        (List.range 4).map (fun i => nameLen + i) ++
          (List.range 4).map fun i => nameLen + 4 + i) := rfl

/-- The eight indices behind the name are read. -/
theorem mem_seen (behind : ℕ → UInt8) (nameLen : ℕ) (buf : Bytes) {i : ℕ} :
    i ∈ (fusedHeader behind nameLen buf).seen ↔ nameLen ≤ i ∧ i < nameLen + 8 := by
  simp only [fusedHeader, readNumbers_eq, List.mem_append, List.mem_map, List.mem_range]
  constructor
  · rintro (⟨k, hk, rfl⟩ | ⟨k, hk, rfl⟩) <;> omega
  · rintro ⟨hle, hlt⟩
    by_cases h : i < nameLen + 4
    · exact .inl ⟨i - nameLen, by omega, by omega⟩
    · exact .inr ⟨i - (nameLen + 4), by omega, by omega⟩

/-- When the sum does not overflow, the numbers are the last eight bytes of the buffer. -/
theorem fusedHeader_eq (behind : ℕ → UInt8) {nameLen : ℕ} {buf : Bytes}
    (hlt : nameLen + 8 < 2 ^ 32) (hbuf : buf.length = nameLen + 8) :
    (fusedHeader behind nameLen buf).header =
      ⟨nameLen, buf.take nameLen, UInt32.ofNat (leNat ((buf.drop nameLen).take 4)),
        leNat ((buf.drop (nameLen + 4)).take 4)⟩ := by
  have hback := backs_getD buf behind
  have hflags : (List.range 4).map (fun i => buf.getD (nameLen + i) (behind (nameLen + i))) =
      (buf.drop nameLen).take 4 := hback.readAt (by omega)
  have hlen : (List.range 4).map (fun i => buf.getD (nameLen + 4 + i) (behind (nameLen + 4 + i))) =
      (buf.drop (nameLen + 4)).take 4 := hback.readAt (by omega)
  have hzero : nameLen - (nameLen + 8) % 2 ^ 32 = 0 := by omega
  simp only [fusedHeader, readNumbers_eq, hflags, hlen, hzero, List.replicate_zero,
    List.append_nil]

theorem fused_of_le (hnet : net.ExactOn good fault) (hs : good s) (behind : ℕ → UInt8)
    (hle : 4 + (nameLenOf s + 8) % 2 ^ 32 ≤ s.bytes.length) :
    ∃ s', readHeaderFused net behind s =
        .ok (some (fusedHeader behind (nameLenOf s)
          ((s.bytes.drop 4).take ((nameLenOf s + 8) % 2 ^ 32))), s') ∧
      s'.bytes = s.bytes.drop (4 + (nameLenOf s + 8) % 2 ^ 32) := by
  obtain ⟨s₁, hread₁, hs₁, hgood₁⟩ := hnet.readEc_le hs (by omega)
  obtain ⟨s₂, hread₂, hs₂, -⟩ := hnet.read_le (s := s₁) (n := (nameLenOf s + 8) % 2 ^ 32)
    (Nat.mod_lt _ (by omega)) hgood₁ (by rw [hs₁, List.length_drop]; omega)
  refine ⟨s₂, ?_, by rw [hs₂, hs₁, List.drop_drop]⟩
  rw [hs₁] at hread₂
  unfold nameLenOf at hread₂ ⊢
  simp only [readHeaderFused, bind, StateT.bind, Except.bind, hread₁, hread₂]
  rfl

theorem fused_of_lt (hnet : net.ExactOn good fault) (hs : good s) (behind : ℕ → UInt8)
    (hfour : 4 ≤ s.bytes.length) (hlt : s.bytes.length < 4 + (nameLenOf s + 8) % 2 ^ 32) :
    readHeaderFused net behind s = .error fault := by
  obtain ⟨s₁, hread₁, hs₁, hgood₁⟩ := hnet.readEc_le hs hfour
  have hread₂ := hnet.read_lt (s := s₁) (n := (nameLenOf s + 8) % 2 ^ 32)
    (Nat.mod_lt _ (by omega)) hgood₁ (by rw [hs₁, List.length_drop]; omega)
  unfold nameLenOf at hread₂
  simp only [readHeaderFused, bind, StateT.bind, Except.bind, hread₁, hread₂]

theorem unfused_of_le (hnet : net.ExactOn good fault) (hs : good s)
    (hle : 4 + (nameLenOf s + 8) ≤ s.bytes.length) :
    ∃ s', readHeaderUnfused net s = .ok (some (streamHeader s), s') ∧
      s'.bytes = s.bytes.drop (4 + (nameLenOf s + 8)) := by
  obtain ⟨s₁, hread₁, hs₁, hgood₁⟩ := hnet.readEc_le hs (by omega)
  obtain ⟨s₂, hread₂, hs₂, hgood₂⟩ := hnet.read_le (nameLenOf_lt s) hgood₁
    (by rw [hs₁, List.length_drop]; omega)
  obtain ⟨s₃, hread₃, hs₃, hgood₃⟩ := hnet.read_le (n := 4) (by omega) hgood₂
    (by rw [hs₂, hs₁, List.length_drop, List.length_drop]; omega)
  obtain ⟨s₄, hread₄, hs₄, -⟩ := hnet.read_le (n := 4) (by omega) hgood₃
    (by rw [hs₃, hs₂, hs₁, List.length_drop, List.length_drop, List.length_drop]; omega)
  refine ⟨s₄, ?_, by rw [hs₄, hs₃, hs₂, hs₁, List.drop_drop, List.drop_drop, List.drop_drop]⟩
  rw [hs₁] at hread₂
  rw [hs₂, hs₁, List.drop_drop] at hread₃
  rw [hs₃, hs₂, hs₁, List.drop_drop, List.drop_drop] at hread₄
  unfold streamHeader nameLenOf
  unfold nameLenOf at hread₂ hread₃ hread₄
  simp only [readHeaderUnfused, bind, StateT.bind, Except.bind, hread₁, hread₂, hread₃, hread₄]
  rfl

theorem unfused_of_lt (hnet : net.ExactOn good fault) (hs : good s) (hfour : 4 ≤ s.bytes.length)
    (hlt : s.bytes.length < 4 + (nameLenOf s + 8)) : readHeaderUnfused net s = .error fault := by
  obtain ⟨s₁, hread₁, hs₁, hgood₁⟩ := hnet.readEc_le hs hfour
  have hlen₁ : s₁.bytes.length = s.bytes.length - 4 := by rw [hs₁, List.length_drop]
  have hstart : readHeaderUnfused net s = (do
      let name ← net.read (nameLenOf s)
      let flags ← net.read 4
      let len ← net.read 4
      return some ⟨nameLenOf s, name, UInt32.ofNat (leNat flags), leNat len⟩ : Reading _) s₁ := by
    simp only [readHeaderUnfused, bind, StateT.bind, Except.bind, hread₁]
    rfl
  rw [hstart]
  -- one of the three reads fails
  by_cases hname : s₁.bytes.length < nameLenOf s
  · have hread₂ := hnet.read_lt (nameLenOf_lt s) hgood₁ hname
    simp only [bind, StateT.bind, Except.bind, hread₂]
  · obtain ⟨s₂, hread₂, hs₂, hgood₂⟩ := hnet.read_le (nameLenOf_lt s) hgood₁ (not_lt.mp hname)
    have hlen₂ : s₂.bytes.length = s₁.bytes.length - nameLenOf s := by rw [hs₂, List.length_drop]
    by_cases hflags : s₂.bytes.length < 4
    · have hread₃ := hnet.read_lt (by omega) hgood₂ hflags
      simp only [bind, StateT.bind, Except.bind, hread₂, hread₃]
    · obtain ⟨s₃, hread₃, hs₃, hgood₃⟩ := hnet.read_le (by omega) hgood₂ (not_lt.mp hflags)
      have hlen₃ : s₃.bytes.length = s₂.bytes.length - 4 := by rw [hs₃, List.length_drop]
      have hread₄ := hnet.read_lt (n := 4) (by omega) hgood₃ (by omega)
      simp only [bind, StateT.bind, Except.bind, hread₂, hread₃, hread₄]

/-- `readHeader`, without an overflow: the header that both of them read. -/
theorem readHeader_of_le (hnet : net.ExactOn good fault) (hs : good s)
    (hsum : nameLenOf s + 8 < 2 ^ 32) (hle : 4 + (nameLenOf s + 8) ≤ s.bytes.length) :
    ∃ s', readHeader net s = .ok (some (streamHeader s), s') ∧
      s'.bytes = s.bytes.drop (4 + (nameLenOf s + 8)) ∧ good s' := by
  obtain ⟨s₁, hread₁, hs₁, hgood₁⟩ := hnet.readEc_le hs (by omega)
  obtain ⟨s₂, hread₂, hs₂, hgood₂⟩ := hnet.read_le hsum hgood₁
    (by rw [hs₁, List.length_drop]; omega)
  refine ⟨s₂, ?_, by rw [hs₂, hs₁, List.drop_drop], hgood₂⟩
  have hmod : (nameLenOf s + 8) % 2 ^ 32 = nameLenOf s + 8 := Nat.mod_eq_of_lt hsum
  rw [← streamHeader_eq]
  rw [hs₁] at hread₂
  unfold nameLenOf at hread₂ hmod ⊢
  simp only [readHeader, bind, StateT.bind, Except.bind, hread₁, hmod, hread₂]
  rfl

/-- A stream that ends in the length of the name. -/
theorem agrees_of_short (hnet : net.ExactOn good fault) (hs : good s) (hlt : s.bytes.length < 4) :
    FusionAgrees net s := by
  intro behind
  cases hread : net.readEc 4 s with
  | error f => simp [readHeaderFused, readHeaderUnfused, bind, StateT.bind, Except.bind, hread,
      SameHeader]
  | ok p =>
      obtain ⟨b, s'⟩ := p
      cases b with
      | none => simp [readHeaderFused, readHeaderUnfused, bind, StateT.bind, Except.bind, hread,
          SameHeader, Reading.pure_run]
      | some b => exact absurd hread (hnet.readEc_lt hs hlt b s')

/-- A stream that ends before the bytes that the fused reader asks for. -/
theorem agrees_of_lt (hnet : net.ExactOn good fault) (hs : good s)
    (hlt : s.bytes.length < 4 + (nameLenOf s + 8) % 2 ^ 32) : FusionAgrees net s := by
  by_cases hfour : s.bytes.length < 4
  · exact agrees_of_short hnet hs hfour
  · intro behind
    have hmod := Nat.mod_le (nameLenOf s + 8) (2 ^ 32)
    rw [fused_of_lt hnet hs behind (by omega) hlt, unfused_of_lt hnet hs (by omega) (by omega)]
    rfl

/-- Without an overflow the three reads give the parts of the buffer. -/
theorem agrees_of_le (hnet : net.ExactOn good fault) (hs : good s)
    (hsum : nameLenOf s + 8 < 2 ^ 32) (hle : 4 + (nameLenOf s + 8) ≤ s.bytes.length) :
    FusionAgrees net s := by
  intro behind
  have hmod : (nameLenOf s + 8) % 2 ^ 32 = nameLenOf s + 8 := Nat.mod_eq_of_lt hsum
  obtain ⟨s₁, hfused, hs₁⟩ := fused_of_le hnet hs behind (by rwa [hmod])
  obtain ⟨s₂, hunfused, hs₂⟩ := unfused_of_le hnet hs hle
  rw [hmod] at hfused hs₁
  rw [hfused, hunfused]
  have hbuf : ((s.bytes.drop 4).take (nameLenOf s + 8)).length = nameLenOf s + 8 := by
    rw [List.length_take, List.length_drop]
    omega
  refine ⟨?_, by rw [hs₁, hs₂], ?_⟩
  · rw [fusedHeader_eq behind hsum hbuf, streamHeader_eq]
  · intro i hi
    rw [mem_seen] at hi
    change i < (nameLenOf s + 8) % 2 ^ 32
    omega

/-- With an overflow the numbers are read from behind the buffer. -/
theorem not_agrees_of_le (hnet : net.ExactOn good fault) (hs : good s)
    (hsum : 2 ^ 32 ≤ nameLenOf s + 8)
    (hle : 4 + (nameLenOf s + 8) % 2 ^ 32 ≤ s.bytes.length) : ¬FusionAgrees net s := by
  intro h
  have hname := nameLenOf_lt s
  have hsame := h fun _ => 0
  obtain ⟨s₁, hfused, -⟩ := fused_of_le hnet hs (fun _ => 0) hle
  rw [hfused] at hsame
  cases hread : readHeaderUnfused net s with
  | error f => simp [hread, SameHeader] at hsame
  | ok p =>
      obtain ⟨_ | h', s₂⟩ := p
      · simp [hread, SameHeader] at hsame
      · rw [hread] at hsame
        have hlt := hsame.2.2 (nameLenOf s) ((mem_seen _ _ _).mpr ⟨le_refl _, by omega⟩)
        change nameLenOf s < (nameLenOf s + 8) % 2 ^ 32 at hlt
        omega

theorem agrees_iff (hnet : net.ExactOn good fault) (hs : good s) :
    FusionAgrees net s ↔
      nameLenOf s + 8 < 2 ^ 32 ∨ s.bytes.length < 4 + (nameLenOf s + 8) % 2 ^ 32 := by
  constructor
  · intro h
    by_contra hnot
    rw [not_or, not_lt, not_lt] at hnot
    exact not_agrees_of_le hnet hs hnot.1 hnot.2 h
  · rintro (hsum | hlt)
    · have hmod : (nameLenOf s + 8) % 2 ^ 32 = nameLenOf s + 8 := Nat.mod_eq_of_lt hsum
      rcases Nat.lt_or_ge s.bytes.length (4 + (nameLenOf s + 8)) with hlt | hge
      · exact agrees_of_lt hnet hs (by rwa [hmod])
      · exact agrees_of_le hnet hs hsum hge
    · exact agrees_of_lt hnet hs hlt

end Agreement

/-- **When the fused reader agrees with the plain one**: when the sum `name_len + 8` does not
overflow, or the stream ends before the bytes that are read instead. One call of `recv` gives less
than `2 ^ 31` bytes. -/
theorem fusion_agrees_iff (s : Socket) :
    (FusionAgrees Cxx20.transport s ↔
      nameLenOf s + 8 < 2 ^ 32 ∨ s.bytes.length < 4 + (nameLenOf s + 8) % 2 ^ 32) ∧
    ∀ errno, (∀ k, s.frag k < 2 ^ 31) → (FusionAgrees (Old.transport errno) s ↔
      nameLenOf s + 8 < 2 ^ 32 ∨ s.bytes.length < 4 + (nameLenOf s + 8) % 2 ^ 32) :=
  ⟨agrees_iff Cxx20.exactOn trivial, fun errno hfrag => agrees_iff (Old.exactOn errno) hfrag⟩

/-- The length `2 ^ 32 - 8` and nothing else. -/
def longName : Socket := ⟨[248, 255, 255, 255], fun _ => 4096, 0⟩

theorem fusion_agrees_iff_longName :
    FusionAgrees (Old.transport 11) longName ↔
      nameLenOf longName + 8 < 2 ^ 32 ∨
        longName.bytes.length < 4 + (nameLenOf longName + 8) % 2 ^ 32 :=
  (fusion_agrees_iff longName).2 11 fun _ => by simp [longName]

/-- The buffer for this name is empty. -/
theorem not_fusion_agrees : ¬∀ s, FusionAgrees Cxx20.transport s := by
  intro h
  exact not_agrees_of_le Cxx20.exactOn trivial (by decide) (by decide) (h longName)

end StdmlCollective

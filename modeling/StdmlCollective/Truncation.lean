import StdmlCollective.AllGather
import StdmlCollective.Broadcast
import StdmlCollective.ReadHeader
import StdmlCollective.Refine.Blocked

/-!
# Messages that are too large

The session layer counts bytes in a `size_t`, the header of a message in a `uint32_t`.
`all_reduce` splits its buffer; `broadcast`, `all_gather` and `send` pass it as one message, and
`connection_impl::send` cuts its size to 32 bits. From `2 ^ 32` bytes on the receiver gets what is
left modulo `2 ^ 32`, and nobody notices.
-/

namespace StdmlCollective

open LittleEndian
open Memory (Mem)

/-! ## Writing -/

/-- The sending end: what has been written, and what the calls of the transport do, one after the
other. A call takes at most so many bytes, never more than `limit`, or it fails. -/
structure Outlet (limit : ℕ) where
  out : Bytes
  takes : ℕ → Option ℕ
  calls : ℕ

section Writing

variable {limit : ℕ}

/-- `write_some` and `::send`: how many bytes have been taken, if the call has not failed. -/
def Outlet.put (o : Outlet limit) (data : Bytes) : Option ℕ × Outlet limit :=
  let n := (o.takes o.calls).map fun k => min k (min limit data.length)
  (n, { o with out := o.out ++ data.take (n.getD 0), calls := o.calls + 1 })

/-- `ioutil::write`: `io_exact<io_write>`. -/
def Cxx20.write (data : Bytes) (o : Outlet limit) : Except Fault (Outlet limit) :=
  if _h : data = [] then .ok o
  else
    match (o.put data).1 with
    | none => .error .throws
    | some m =>
        if _hm : m = 0 then .error .throws else Cxx20.write (data.drop m) (o.put data).2
termination_by data.length
decreasing_by
  rw [List.length_drop]
  have := List.length_pos_of_ne_nil _h
  omega

/-- `TcpSocket::send`. A call that fails returns `-1`. -/
def Old.send (data : Bytes) (o : Outlet limit) : Except Fault (Outlet limit) :=
  let n : Int32 :=
    match (o.put data).1 with
    | none => -1
    | some m => Int32.ofNat m
  if n = Int32.ofNat data.length then .ok (o.put data).2 else .error .throws

/-- `connection_impl::send`. -/
def connectionSend (write : Bytes → Outlet limit → Except Fault (Outlet limit)) (p : Packet)
    (o : Outlet limit) : Except Fault (Outlet limit) := do
  let o ← write p.header o
  write (wireData p.data) o

theorem connectionSend_eq_ok {write : Bytes → Outlet limit → Except Fault (Outlet limit)}
    {p : Packet} {o o' : Outlet limit} :
    connectionSend write p o = .ok o' ↔
      ∃ o₁, write p.header o = .ok o₁ ∧ write (wireData p.data) o₁ = .ok o' := by
  cases h : write p.header o <;> simp [connectionSend, bind, Except.bind, h]

theorem Outlet.put_of_some {o : Outlet limit} {data : Bytes} {m : ℕ}
    (h : (o.put data).1 = some m) :
    m ≤ limit ∧ m ≤ data.length ∧ (o.put data).2.out = o.out ++ data.take m := by
  cases htakes : o.takes o.calls with
  | none => simp [Outlet.put, htakes] at h
  | some k =>
      simp only [Outlet.put, htakes, Option.map_some, Option.some.injEq] at h
      subst h
      refine ⟨by omega, by omega, ?_⟩
      simp [Outlet.put, htakes]

theorem Outlet.put_of_none {o : Outlet limit} {data : Bytes} (h : (o.put data).1 = none) :
    (o.put data).2.out = o.out := by
  cases htakes : o.takes o.calls with
  | none => simp [Outlet.put, htakes]
  | some k => simp [Outlet.put, htakes] at h

/-- When `ioutil::write` returns, everything is written. -/
theorem Cxx20.write_ok {data : Bytes} {o o' : Outlet limit} (h : Cxx20.write data o = .ok o') :
    o'.out = o.out ++ data := by
  induction data, o using Cxx20.write.induct with
  | case1 o =>
      rw [Cxx20.write, dif_pos rfl] at h
      cases h
      simp
  | case2 data o hne hput => simp [Cxx20.write, hne, hput] at h
  | case3 data o hne hput => simp [Cxx20.write, hne, hput] at h
  | case4 data o hne m hput hm ih =>
      rw [Cxx20.write, dif_neg hne, hput] at h
      simp only [hm, dite_false] at h
      rw [ih h, (Outlet.put_of_some hput).2.2, List.append_assoc, List.take_append_drop]

/-- When the calls take what they can, `ioutil::write` returns. -/
theorem Cxx20.write_of_takes (data : Bytes) {o : Outlet limit} (hlimit : 0 < limit)
    (h : o.takes = fun _ => some limit) :
    ∃ o', Cxx20.write data o = .ok o' ∧ o'.takes = o.takes := by
  induction data, o using Cxx20.write.induct with
  | case1 o => exact ⟨o, by simp [Cxx20.write], rfl⟩
  | case2 data o hne hput => simp [Outlet.put, h] at hput
  | case3 data o hne hput =>
      have hpos := List.length_pos_of_ne_nil hne
      simp only [Outlet.put, h, Option.map_some, Option.some.injEq] at hput
      omega
  | case4 data o hne m hput hm ih =>
      obtain ⟨o', ho', htakes⟩ := ih h
      refine ⟨o', ?_, htakes⟩
      rw [Cxx20.write, dif_neg hne, hput]
      simp only [hm, dite_false, ho']

/-- When `TcpSocket::send` returns, everything is written, and by one call. The number `-1` is the
last length below `2 ^ 32`. -/
theorem Old.send_ok {data : Bytes} {o o' : Outlet limit} (hlen : data.length + 1 < 2 ^ 32)
    (h : Old.send data o = .ok o') : o'.out = o.out ++ data ∧ data.length ≤ limit := by
  unfold Old.send at h
  cases hput : (o.put data).1 with
  | none =>
      simp only [hput] at h
      split at h
      · rename_i heq
        have hlast : data.length = 2 ^ 32 - 1 :=
          Old.ofNat_inj (by omega) (by omega) (heq.symm.trans (by decide))
        omega
      · cases h
  | some m =>
      obtain ⟨hlimit, hle, hout⟩ := Outlet.put_of_some hput
      simp only [hput] at h
      split at h
      · rename_i heq
        have hm : m = data.length := Old.ofNat_inj (by omega) (by omega) heq
        cases h
        rw [hout, hm, List.take_length]
        exact ⟨rfl, hm ▸ hlimit⟩
      · cases h

/-- A call that takes everything. -/
theorem Old.send_of_le (data : Bytes) {o : Outlet limit} (hlen : data.length ≤ limit)
    (h : o.takes o.calls = some limit) : Old.send data o = .ok (o.put data).2 := by
  have hput : (o.put data).1 = some data.length := by
    simp only [Outlet.put, h, Option.map_some, Option.some.injEq]
    omega
  simp [Old.send, hput]

/-- A call that fails and seems to have taken everything. -/
theorem Old.send_of_last (data : Bytes) {o : Outlet limit} (hlen : data.length = 2 ^ 32 - 1)
    (h : o.takes o.calls = none) : Old.send data o = .ok (o.put data).2 := by
  have hput : (o.put data).1 = none := by simp [Outlet.put, h]
  have hlast : (-1 : Int32) = Int32.ofNat (2 ^ 32 - 1) := by decide
  simp [Old.send, hput, hlen, hlast]

end Writing

/-! ## On the wire -/

section Wire

variable {net : Transport} {good : Socket → Prop} {fault : Fault} {s : Socket}

theorem take_cStr (name : Bytes) : name.take (cStr name).length = cStr name :=
  (List.prefix_iff_eq_take.mp (List.takeWhile_prefix _)).symm

theorem length_wireData (data : Bytes) : (wireData data).length = data.length % 2 ^ 32 := by
  rw [wireData, List.length_take]
  have hle := Nat.mod_le data.length (2 ^ 32)
  omega

/-- The header that `connection_impl::send` writes. -/
theorem Packet.header_parts {p : Packet} (h : (cStr p.name).length < 2 ^ 32) :
    p.header = leBytes 4 (cStr p.name).length ++ (cStr p.name ++ (leBytes 4 p.flags.toNat ++
      leBytes 4 (p.data.length % 2 ^ 32))) := by
  simp only [Packet.header, Nat.mod_eq_of_lt h, take_cStr, List.append_assoc]

theorem Packet.length_header {p : Packet} (h : (cStr p.name).length < 2 ^ 32) :
    p.header.length = (cStr p.name).length + 12 := by
  rw [Packet.header_parts h]
  simp only [List.length_append, length_leBytes]
  omega

/-- The reader finds the header, with the length of the data modulo `2 ^ 32`. -/
theorem readHeader_encode (hnet : net.ExactOn good fault) (hs : good s) {p : Packet}
    (hname : (cStr p.name).length + 8 < 2 ^ 32) {body : Bytes}
    (hbytes : s.bytes = p.header ++ body) :
    ∃ s', readHeader net s = .ok (some (streamHeader s), s') ∧ s'.bytes = body ∧ good s' ∧
      (streamHeader s).len = p.data.length % 2 ^ 32 := by
  rw [Packet.header_parts (by omega)] at hbytes
  simp only [List.append_assoc] at hbytes
  have hlt : p.data.length % 2 ^ 32 < 2 ^ 32 := Nat.mod_lt _ (by omega)
  have hnameLen : nameLenOf s = (cStr p.name).length := by
    rw [nameLenOf, hbytes, List.take_left' (length_leBytes 4 _), leNat_leBytes]
    exact Nat.mod_eq_of_lt (by omega)
  have hall : s.bytes.length = 4 + (nameLenOf s + 8) + body.length := by
    rw [hbytes, hnameLen]
    simp only [List.length_append, length_leBytes]
    omega
  have hdrop : s.bytes.drop (4 + nameLenOf s + 4) =
      leBytes 4 (p.data.length % 2 ^ 32) ++ body := by
    have hpre : (leBytes 4 (cStr p.name).length ++ (cStr p.name ++
        leBytes 4 p.flags.toNat)).length = 4 + nameLenOf s + 4 := by
      simp only [List.length_append, length_leBytes, hnameLen]
      omega
    have happ : s.bytes = (leBytes 4 (cStr p.name).length ++ (cStr p.name ++
        leBytes 4 p.flags.toNat)) ++ (leBytes 4 (p.data.length % 2 ^ 32) ++ body) := by
      rw [hbytes]
      simp only [List.append_assoc]
    rw [happ, List.drop_left' hpre]
  obtain ⟨s', hread, hs', hgood⟩ := readHeader_of_le hnet hs (by omega) (by omega)
  refine ⟨s', hread, ?_, hgood, ?_⟩
  · rw [hs', show 4 + (nameLenOf s + 8) = 4 + nameLenOf s + 4 + 4 by omega, ← List.drop_drop,
      hdrop, List.drop_left' (length_leBytes 4 _)]
  · rw [streamHeader, hdrop, List.take_left' (length_leBytes 4 _), leNat_leBytes]
    exact Nat.mod_eq_of_lt hlt

/-- **What the receiver gets** of a message that has been sent completely. -/
theorem handleNext_encode (hnet : net.ExactOn good fault) (hs : good s) {p : Packet}
    (hname : (cStr p.name).length + 8 < 2 ^ 32) {rest : Bytes}
    (hbytes : s.bytes = p.encode ++ rest) :
    ∃ d s', handleNext net s = .ok (some d, s') ∧ d.data = wireData p.data ∧ s'.bytes = rest := by
  rw [Packet.encode, List.append_assoc] at hbytes
  obtain ⟨s₁, hread₁, hbody, hgood₁, hlen⟩ := readHeader_encode hnet hs hname hbytes
  rw [← length_wireData] at hlen
  have hlt : (wireData p.data).length < 2 ^ 32 := by
    rw [length_wireData]
    exact Nat.mod_lt _ (by omega)
  obtain ⟨s₂, hread₂, hs₂, -⟩ := hnet.read_le (s := s₁) (n := (streamHeader s).len) (by omega)
    hgood₁ (by rw [hbody, List.length_append]; omega)
  rw [hbody, hlen, List.take_left] at hread₂
  rw [hbody, hlen, List.drop_left] at hs₂
  refine ⟨⟨(streamHeader s).name, (streamHeader s).flags, (streamHeader s).len, wireData p.data,
    (streamHeader s).flags &&& waitRecvBuf != 0⟩, s₂, ?_, rfl, hs₂⟩
  simp only [handleNext, handleMessage, bind, StateT.bind, Except.bind, hread₁, hlen, hread₂]
  rfl

/-- A header and nothing more: the reader fails. -/
theorem handleNext_header (hnet : net.ExactOn good fault) (hs : good s) {p : Packet}
    (hname : (cStr p.name).length + 8 < 2 ^ 32) (hpos : 0 < p.data.length % 2 ^ 32)
    (hbytes : s.bytes = p.header) : handleNext net s = .error fault := by
  obtain ⟨s₁, hread₁, hbody, hgood₁, hlen⟩ :=
    readHeader_encode hnet hs hname (hbytes.trans (List.append_nil _).symm)
  have hlt : p.data.length % 2 ^ 32 < 2 ^ 32 := Nat.mod_lt _ (by omega)
  have hread₂ : net.read (streamHeader s).len s₁ = .error fault :=
    hnet.read_lt (by omega) hgood₁ (by rw [hbody, List.length_nil]; omega)
  simp only [handleNext, handleMessage, bind, StateT.bind, Except.bind, hread₁, hread₂]

/-- **No silent truncation**: when `connection_impl::send` returns, the receiver gets the data. -/
def NoTruncation (limit : ℕ) (write : Bytes → Outlet limit → Except Fault (Outlet limit))
    (net : Transport) (good : Socket → Prop) (p : Packet) : Prop :=
  ∀ o o' : Outlet limit, connectionSend write p o = .ok o' →
    ∀ s rest, good s → o.out ++ s.bytes = o'.out ++ rest →
      ∃ d s', handleNext net s = .ok (some d, s') ∧ d.data = p.data

variable {limit : ℕ} {write : Bytes → Outlet limit → Except Fault (Outlet limit)} {p : Packet}

/-- A message below `2 ^ 32` bytes that is written completely arrives. -/
theorem noTruncation_of_writes (hnet : net.ExactOn good fault)
    (hname : (cStr p.name).length + 8 < 2 ^ 32)
    (hwrites : ∀ o o' : Outlet limit, connectionSend write p o = .ok o' →
      p.data.length < 2 ^ 32 ∧ o'.out = o.out ++ p.encode) :
    NoTruncation limit write net good p := by
  intro o o' hsend s rest hs hbytes
  obtain ⟨hlen, hout⟩ := hwrites o o' hsend
  rw [hout, List.append_assoc] at hbytes
  obtain ⟨d, s', hnext, hdata, -⟩ :=
    handleNext_encode hnet hs hname (List.append_cancel_left hbytes)
  exact ⟨d, s', hnext, by rw [hdata, wireData_eq_self hlen]⟩

/-- A larger one that is written completely does not. -/
theorem not_noTruncation_of_writes (hnet : net.ExactOn good fault)
    (hname : (cStr p.name).length + 8 < 2 ^ 32) (hlen : 2 ^ 32 ≤ p.data.length)
    (hs : good s) (hbytes : s.bytes = p.encode) {o o' : Outlet limit}
    (hsend : connectionSend write p o = .ok o') (hout : o'.out = o.out ++ p.encode) :
    ¬NoTruncation limit write net good p := by
  intro h
  obtain ⟨d, s', hnext, hdata⟩ := h o o' hsend s [] hs (by rw [hout, hbytes, List.append_nil])
  obtain ⟨d', s'', hnext', hdata', -⟩ :=
    handleNext_encode hnet hs hname (hbytes.trans (List.append_nil _).symm)
  rw [hnext] at hnext'
  cases hnext'
  have hcut := length_wireData p.data
  rw [← hdata', hdata] at hcut
  have := Nat.mod_lt p.data.length (show 0 < 2 ^ 32 by omega)
  omega

/-- `net/c++20`. -/
theorem Cxx20.noTruncation_iff (hlimit : 0 < limit) (hname : (cStr p.name).length + 8 < 2 ^ 32) :
    NoTruncation limit Cxx20.write transport (fun _ => True) p ↔
      p.data.length < 2 ^ 32 := by
  constructor
  · intro h
    by_contra hlen
    let o : Outlet limit := ⟨[], fun _ => some limit, 0⟩
    obtain ⟨o₁, hsend₁, htakes⟩ := Cxx20.write_of_takes p.header (o := o) hlimit rfl
    obtain ⟨o₂, hsend₂, -⟩ := Cxx20.write_of_takes (wireData p.data) (o := o₁) hlimit htakes
    refine not_noTruncation_of_writes (s := ⟨p.encode, fun _ => 1, 0⟩) Cxx20.exactOn hname
      (by omega) trivial rfl (connectionSend_eq_ok.mpr ⟨o₁, hsend₁, hsend₂⟩) ?_ h
    rw [Cxx20.write_ok hsend₂, Cxx20.write_ok hsend₁, List.append_assoc, Packet.encode]
  · intro hlen
    apply noTruncation_of_writes Cxx20.exactOn hname
    intro o o' hsend
    obtain ⟨o₁, hsend₁, hsend₂⟩ := connectionSend_eq_ok.mp hsend
    rw [Cxx20.write_ok hsend₂, Cxx20.write_ok hsend₁, List.append_assoc, Packet.encode]
    exact ⟨hlen, rfl⟩

/-- `net/old`, where a call of `recv` gives less than `2 ^ 31` bytes. A message whose length is cut
to more than one call of `send` takes is refused; one whose length is cut to `2 ^ 32 - 1` is lost
when the call fails. -/
theorem Old.noTruncation_iff (errno : ℕ) (hname : (cStr p.name).length + 13 < 2 ^ 32)
    (hlimit : (cStr p.name).length + 12 ≤ limit) :
    NoTruncation limit Old.send (transport errno) (fun s => ∀ k, s.frag k < 2 ^ 31) p ↔
      p.data.length % 2 ^ 32 ≠ 2 ^ 32 - 1 ∧
        (p.data.length < 2 ^ 32 ∨ limit < p.data.length % 2 ^ 32) := by
  have hheader := Packet.length_header (p := p) (by omega)
  have hwire := length_wireData p.data
  have hmod := Nat.mod_lt p.data.length (show 0 < 2 ^ 32 by omega)
  constructor
  · intro h
    have hlast : p.data.length % 2 ^ 32 ≠ 2 ^ 32 - 1 := by
      -- the header goes out, the call for the data fails
      intro hlast
      let o : Outlet limit := ⟨[], fun i => if i = 0 then some limit else none, 0⟩
      have hsend₁ := Old.send_of_le p.header (o := o) (by omega) rfl
      have hsend₂ := Old.send_of_last (wireData p.data) (o := (o.put p.header).2)
        (by omega) rfl
      have hnone : ((o.put p.header).2.put (wireData p.data)).1 = none := rfl
      obtain ⟨d, s', hnext, -⟩ := h o _ (connectionSend_eq_ok.mpr ⟨_, hsend₁, hsend₂⟩)
        ⟨p.header, fun _ => 1, 0⟩ [] (by simp)
        (by rw [Outlet.put_of_none hnone, (Old.send_ok (by omega) hsend₁).1, List.append_nil])
      rw [handleNext_header (Old.exactOn errno) (by simp) (by omega) (by omega) rfl] at hnext
      cases hnext
    refine ⟨hlast, ?_⟩
    by_contra hnot
    rw [not_or, not_lt, not_lt] at hnot
    let o : Outlet limit := ⟨[], fun _ => some limit, 0⟩
    have hsend₁ := Old.send_of_le p.header (o := o) (by omega) rfl
    have hsend₂ := Old.send_of_le (wireData p.data) (o := (o.put p.header).2)
      (by omega) rfl
    refine not_noTruncation_of_writes (s := ⟨p.encode, fun _ => 1, 0⟩) (Old.exactOn errno)
      (by omega) hnot.1 (by simp) rfl (connectionSend_eq_ok.mpr ⟨_, hsend₁, hsend₂⟩) ?_ h
    rw [(Old.send_ok (by omega) hsend₂).1, (Old.send_ok (by omega) hsend₁).1, List.append_assoc,
      Packet.encode]
  · rintro ⟨hlast, hlen⟩
    apply noTruncation_of_writes (Old.exactOn errno) (by omega)
    intro o o' hsend
    obtain ⟨o₁, hsend₁, hsend₂⟩ := connectionSend_eq_ok.mp hsend
    obtain ⟨hout₁, -⟩ := Old.send_ok (by omega) hsend₁
    obtain ⟨hout₂, hle⟩ := Old.send_ok (by omega) hsend₂
    rw [hout₂, hout₁, List.append_assoc, Packet.encode]
    exact ⟨by omega, rfl⟩

end Wire

/-! ## In flight -/

section InFlight

variable {P Id T S O : Type} {size : ℕ}

/-- A thread that sends, sends `size` bytes. -/
def Thread.SendsSize (size : ℕ) : Thread P T S O → Prop
  | .send _ _ _ data => ∀ σ, (data σ).length = size
  | _ => True

/-- Every send of the program is of `size` bytes. -/
def SendsSize (size : ℕ) (code : List (Par P T S O)) : Prop :=
  ∀ b ∈ code, ∀ th ∈ b.threads, th.SendsSize size

/-- A peer whose sends are of `size` bytes, and to which messages come with what is left of this
modulo `2 ^ 32`. -/
structure Node.InFlight (size : ℕ) (x : Node P Id T S O) : Prop where
  code : SendsSize size x.code
  conn : ∀ s, ∀ m ∈ x.conn s, m.data.length = size % 2 ^ 32
  held : ∀ s, ∀ m ∈ (x.handler s).held, m.data.length = size % 2 ^ 32

variable [DecidableEq P] [DecidableEq Id] {ident : P → Id} {write : Addr → Bytes → S → S}

omit [DecidableEq Id] in
/-- A handler that has moved on holds what it held. -/
theorem Node.InFlight.handler {x : Node P Id T S O} (h : x.InFlight size) {s : P} {u : Handler P T}
    (hu : ∀ m ∈ u.held, m.data.length = size % 2 ^ 32) :
    ∀ s', ∀ m ∈ (Function.update x.handler s u s').held, m.data.length = size % 2 ^ 32 := by
  intro s' m hm
  by_cases hs : s' = s
  · subst hs
    rw [Function.update_self] at hm
    exact hu m hm
  · rw [Function.update_of_ne hs] at hm
    exact h.held s' m hm

theorem NStep.inFlight {self : P} {x x' : Node P Id T S O} {e : Event P T}
    (h : NStep ident write self x e x') (hx : x.InFlight size) : x'.InFlight size := by
  have hcode : SendsSize size x'.code :=
    h.forall_threads (fun _ _ _ _ _ => trivial) (fun _ _ _ _ => trivial) hx.code
  cases h with
  | join | send | mailGet | mailGot | slotGet | slotWait | act | ret | launch =>
      exact ⟨hcode, hx.conn, hx.held⟩
  | @header s m ms hh hc =>
      have hm : ∀ m' ∈ m :: ms, m'.data.length = size % 2 ^ 32 := hc ▸ hx.conn s
      refine ⟨hcode, ?_, hx.handler ?_⟩
      · intro s' m' hm'
        by_cases hs : s' = s
        · subst hs
          simp only [Function.update_self] at hm'
          exact hm m' (List.mem_cons_of_mem _ hm')
        · simp only [Function.update_of_ne hs] at hm'
          exact hx.conn s' m' hm'
      · intro m' hm'
        rw [Handler.held_take, List.mem_singleton] at hm'
        exact hm m' (by simp [hm'])
  | mailPut | slotPut => exact ⟨hcode, hx.conn, hx.handler (by simp)⟩
  | @slotTake s m ptr q hh _ =>
      refine ⟨hcode, hx.conn, hx.handler ?_⟩
      have hheld := hx.held s
      rw [hh] at hheld
      simpa using hheld
  | body => exact ⟨hcode, hx.conn, hx.handler (by simp)⟩

/-- What a peer sends is cut to 32 bits of its size. -/
theorem NStep.length_send {self id : P} {x x' : Node P Id T S O} {m : Message P T}
    (h : NStep ident write self x (.send id m) x') (hx : x.InFlight size) :
    m.data.length = size % 2 ^ 32 := by
  cases h with
  | @send t l₁ l₂ bs id name flags data hc =>
      have hsize : (data x.store).length = size :=
        hx.code _ (hc ▸ List.mem_cons_self) (.send id name flags data) (by simp) x.store
      rw [length_wireData, hsize]

variable [LT T]

theorem CStep.inFlight {c c' : Cluster P Id T S O} (h : CStep ident write c c')
    (hc : ∀ q, (c q).InFlight size) : ∀ q, (c' q).InFlight size := by
  have hnode : ∀ {p : P} {x : Node P Id T S O}, x.InFlight size →
      ∀ q, (Function.update c p x q).InFlight size := by
    intro p x hx q
    by_cases hq : q = p
    · subst hq
      rwa [Function.update_self]
    · rw [Function.update_of_ne hq]
      exact hc q
  cases h with
  | tau hn => exact hnode (hn.inFlight (hc _))
  | launch hn _ => exact hnode (hn.inFlight (hc _))
  | @send _ p id x m hn heq =>
      subst heq
      have hm := hn.length_send (hc p)
      have hsent : ∀ q, (Function.update c p x q).InFlight size := hnode (hn.inFlight (hc p))
      intro q
      by_cases hq : q = id
      · subst hq
        rw [Function.update_self]
        refine ⟨(hsent q).code, ?_, (hsent q).held⟩
        intro s m' hm'
        by_cases hs : s = p
        · subst hs
          simp only [Node.receive, Function.update_self, List.mem_append, List.mem_singleton] at hm'
          rcases hm' with hm' | rfl
          · exact (hsent q).conn _ m' hm'
          · exact hm
        · simp only [Node.receive, Function.update_of_ne hs] at hm'
          exact (hsent q).conn s m' hm'
      · rw [Function.update_of_ne hq]
        exact hsent q

/-- **In every run**: what a handler is about to write into the buffer of a receiver is what is left
of the size modulo `2 ^ 32`. -/
theorem CReach.length_written {prog : P → List (Par P T S O)} {σ : P → S}
    {c : Cluster P Id T S O} (hprog : ∀ p, SendsSize size (prog p))
    (h : CReach ident write prog σ c) {q s : P} {m : Message P T} {ptr : Addr}
    (hw : (c q).handler s = .write m ptr) : m.data.length = size % 2 ^ 32 := by
  have hall : ∀ q, (c q).InFlight size := by
    clear hw
    induction h with
    | refl => exact fun p => ⟨hprog p, by simp [Cluster.start, Node.fresh],
        by simp [Cluster.start, Node.fresh]⟩
    | tail _ hstep ih => exact hstep.inFlight ih
  exact (hall q).held s m (by simp [hw])

end InFlight

/-! ## Calls of the session -/

section Calls

variable {P T O : Type} {n : ℕ}

/-- `session::send`. -/
def sessionSend (peers : Fin n → P) (input : Addr) (count : ℕ) (dt : Dtype) (target : Fin n)
    (name : Bytes) : Thread P T Store O :=
  .send (peers target) name waitRecvBuf fun σ => Memory.read input (count * dtypeSize dt) σ.mem

/-- `session::recv`. -/
def sessionRecv (peers : Fin n → P) (output : Addr) (target : Fin n) (name : Bytes) :
    Thread P T Store O :=
  .slotGet (peers target) name output

/-- A `send` of the peer `src` and the `recv` of the peer `dst`. -/
structure SendCall (n : ℕ) where
  count : ℕ
  dt : Dtype
  name : Bytes
  src : Fin n
  dst : Fin n
  input : Addr
  output : Addr

/-- The program of a peer: the `send`, the `recv`, or nothing. -/
def sendProgram (c : SendCall n) (rank : Fin n) : List (Par (Fin n) ℕ Store Unit) :=
  (if rank = c.src then [⟨0, [sessionSend id c.input c.count c.dt c.dst c.name]⟩] else []) ++
    if rank = c.dst then [⟨1, [sessionRecv id c.output c.src c.name]⟩] else []

theorem sendProgram_sends (c : SendCall n) (rank : Fin n) :
    SendsSize (c.count * dtypeSize c.dt) (sendProgram c rank) := by
  intro b hb th hth
  rcases List.mem_append.mp hb with hb | hb
  · split at hb
    · obtain rfl := List.mem_singleton.mp hb
      obtain rfl := List.mem_singleton.mp hth
      intro σ
      simp
    · exact absurd hb List.not_mem_nil
  · split at hb
    · obtain rfl := List.mem_singleton.mp hb
      obtain rfl := List.mem_singleton.mp hth
      trivial
    · exact absurd hb List.not_mem_nil

theorem sendsSize_stamp {S : Type} {size : ℕ} (lab : ℕ → T) {ss : List (List (Thread P T S O))}
    (h : ∀ ths ∈ ss, ∀ th ∈ ths, th.SendsSize size) : SendsSize size (stamp lab ss) := by
  intro b hb th hth
  obtain ⟨i, hi, rfl⟩ := List.mem_mapIdx.mp hb
  exact h _ (List.getElem_mem hi) th hth

theorem recvTask_sends (w : Workspace) (reduce : Bool) (id : P) (size : ℕ) :
    (recvTask w reduce id : Thread P T Store O).SendsSize size := by
  unfold recvTask
  split
  · split <;> trivial
  · trivial

/-- What a workspace sends over a graph. -/
theorem runGraph_sends (peers : Fin n → P) (rank : Fin n) (w : Workspace) (g : Graph n) :
    ∀ ths ∈ (runGraph peers rank w g : List (List (Thread P T Store O))), ∀ th ∈ ths,
      th.SendsSize w.dataSize := by
  have hsend : ∀ (reduce : Bool) (l : List P), ∀ th ∈ l.map (sendTask w reduce),
      (th : Thread P T Store O).SendsSize w.dataSize := by
    intro reduce l th hth
    obtain ⟨id, -, rfl⟩ := List.mem_map.mp hth
    intro σ
    simp
  have hrecv : ∀ (reduce : Bool) (l : List P), ∀ th ∈ l.map (recvTask w reduce),
      (th : Thread P T Store O).SendsSize w.dataSize := by
    intro reduce l th hth
    obtain ⟨id, -, rfl⟩ := List.mem_map.mp hth
    exact recvTask_sends w reduce id _
  intro ths hths th hth
  unfold runGraph at hths
  split at hths
  · rcases List.mem_cons.mp hths with rfl | hths
    · exact hrecv _ _ th hth
    · obtain rfl := List.mem_singleton.mp hths
      exact hsend _ _ th hth
  · rcases List.mem_append.mp hths with hths | hths
    · split at hths
      · obtain rfl := List.mem_singleton.mp hths
        obtain rfl := List.mem_singleton.mp hth
        trivial
      · obtain ⟨id, -, rfl⟩ := List.mem_map.mp hths
        obtain rfl := List.mem_singleton.mp hth
        exact recvTask_sends w false id _
    · obtain rfl := List.mem_singleton.mp hths
      exact hsend _ _ th hth

theorem broadcastProgram_sends [NeZero n] (s : Strategy) (c : BroadcastCall n) (rank : Fin n) :
    SendsSize (c.count * dtypeSize c.dt) (broadcastProgram s c rank) := by
  apply sendsSize_stamp
  intro ths hths th hth
  rcases List.mem_cons.mp hths with rfl | hths
  · obtain rfl := List.mem_singleton.mp hth
    trivial
  · obtain ⟨g, -, hths⟩ := List.mem_flatMap.mp hths
    exact runGraph_sends id rank (c.workspace rank) g ths hths th hth

theorem allGatherTask_sends (peers : Fin n → P) (rank : Fin n) (g : GatherArgs) (idx : ℕ) :
    (allGatherTask peers rank g idx : Thread P T Store O).SendsSize g.size := by
  unfold allGatherTask
  split
  · split <;> trivial
  · split
    · dsimp only
      split
      · intro σ
        simp [GatherArgs.slice, Workspace.dataSize, GatherArgs.size]
      · trivial
    · trivial

theorem allGatherProgram_sends (c : AllGatherCall n) (k : ℕ) (rank : Fin n) :
    SendsSize (c.count * dtypeSize c.dt) (c.program rank k) := by
  intro b hb th hth
  rcases List.mem_append.mp hb with hb | hb
  · obtain rfl := List.mem_singleton.mp hb
    obtain rfl := List.mem_singleton.mp hth
    trivial
  · rcases List.mem_append.mp hb with hb | hb
    · obtain rfl := List.mem_singleton.mp hb
      change th ∈ allGather id rank (c.args rank) at hth
      unfold allGather at hth
      split at hth
      · obtain ⟨idx, -, rfl⟩ := List.mem_map.mp hth
        exact allGatherTask_sends id rank (c.args rank) idx
      · obtain rfl := List.mem_singleton.mp hth
        trivial
    · obtain rfl := List.mem_singleton.mp hb
      obtain rfl := List.mem_singleton.mp hth
      trivial

end Calls

/-! ## Every size -/

section Sizes

variable {n : ℕ} {T O : Type} [LT T]

/-- In every run: what a handler is about to write into the buffer of a receiver. -/
def EveryBody (ident : Fin n → PeerId) (prog : Fin n → List (Par (Fin n) T Store O))
    (φ : Bytes → Prop) : Prop :=
  ∀ σ (x : Cluster (Fin n) PeerId T Store O), CReach ident Store.writeBody prog σ x →
    ∀ (q s : Fin n) (m : Message (Fin n) T) (ptr : Addr), (x q).handler s = .write m ptr → φ m.data

theorem everyBody_of_sends {ident : Fin n → PeerId} {prog : Fin n → List (Par (Fin n) T Store O)}
    {size : ℕ} (h : ∀ r, SendsSize size (prog r)) :
    EveryBody ident prog fun data => data.length = size ↔ size < 2 ^ 32 := by
  intro σ x hx q s m ptr hw
  have hlen := hx.length_written h hw
  have hlt := Nat.mod_lt size (show 0 < 2 ^ 32 by omega)
  omega

omit [LT T] in
/-- A receiver that is alone with a message for it gives its buffer to the handler. -/
theorem NRun.takes {ident : Fin n → PeerId} {self src : Fin n} {y : Node (Fin n) PeerId T Store O}
    {t : T} {ptr : Addr} {m : Message (Fin n) T} {bs : List (Par (Fin n) T Store O)}
    (hcode : y.code = ⟨t, [.slotGet src m.name ptr]⟩ :: bs)
    (hwait : y.waitQ (ident src) m.name = []) (hhandler : y.handler src = .idle)
    (hconn : y.conn src = [m]) (hm : m.waits = true) :
    ∃ y', NRun ident Store.writeBody self y y' ∧ y'.handler src = .write m ptr := by
  let y₁ : Node (Fin n) PeerId T Store O :=
    { y with
      code := ⟨t, [.slotWait src m.name ptr]⟩ :: bs
      waitQ := setBox y.waitQ (ident src) m.name (y.waitQ (ident src) m.name ++ [ptr]) }
  let y₂ : Node (Fin n) PeerId T Store O :=
    { y₁ with
      handler := Function.update y.handler src (Handler.take m)
      conn := Function.update y.conn src [] }
  have hcode' : y.code = ⟨t, [] ++ .slotGet src m.name ptr :: []⟩ :: bs := hcode
  have hget : NStep ident Store.writeBody self y .tau y₁ :=
    NStep.slotGet hcode' (by rw [hwait]; decide)
  have hheader : NStep ident Store.writeBody self y₁ .tau y₂ := NStep.header hhandler hconn
  have htake : y₂.handler src = .slot m := by simp [y₂, Handler.take, hm]
  have hptr : y₂.waitQ (ident src) m.name = ptr :: [] := by simp [y₂, y₁, hwait]
  refine ⟨_, ((Relation.ReflTransGen.single hget).tail hheader).tail
    (NStep.slotTake htake hptr), ?_⟩
  simp only [Function.update_self]

/-- The message of a `send` gets to the receiver, and the sender is done. -/
theorem sendProgram_reaches (ident : Fin n → PeerId) (c : SendCall n) (hne : c.src ≠ c.dst)
    (hname : cStr c.name = c.name) (σ : Fin n → Store) :
    ∃ (x : Cluster (Fin n) PeerId ℕ Store Unit) (m : Message (Fin n) ℕ),
      CReach ident Store.writeBody (sendProgram c) σ x ∧ (x c.src).code = [] ∧
      (x c.dst).handler c.src = .write m c.output ∧
      m.data.length = c.count * dtypeSize c.dt % 2 ^ 32 := by
  let x₀ : Cluster (Fin n) PeerId ℕ Store Unit := .start (sendProgram c) σ
  let m : Message (Fin n) ℕ := ⟨cStr c.name, waitRecvBuf,
    wireData (Memory.read c.input (c.count * dtypeSize c.dt) (σ c.src).mem), c.src, 0⟩
  have hsrc : (x₀ c.src).code =
      ⟨0, [] ++ sessionSend id c.input c.count c.dt c.dst c.name :: []⟩ :: [] := by
    simp [x₀, Cluster.start, Node.fresh, sendProgram, hne]
  have hdst : (x₀ c.dst).code = ⟨1, [.slotGet c.src m.name c.output]⟩ :: [] := by
    simp [x₀, m, hname, Cluster.start, Node.fresh, sendProgram, sessionRecv, hne.symm]
  let y₀ : Node (Fin n) PeerId ℕ Store Unit := { x₀ c.src with code := [⟨0, []⟩] }
  let x₁ : Cluster (Fin n) PeerId ℕ Store Unit := Function.update x₀ c.src y₀
  have hx₁ : x₁ c.dst = x₀ c.dst := Function.update_of_ne hne.symm _ _
  let x₂ : Cluster (Fin n) PeerId ℕ Store Unit :=
    Function.update x₁ c.dst ((x₁ c.dst).receive c.src m)
  have hsend : CReach ident Store.writeBody (sendProgram c) σ x₂ :=
    Relation.ReflTransGen.single (CStep.send (NStep.send hsrc) rfl)
  have hx₂ : x₂ c.src = y₀ := by simp [x₂, x₁, Function.update_of_ne hne]
  have hjoin : NRun ident Store.writeBody c.src (x₂ c.src) { y₀ with code := [] } := by
    rw [hx₂]
    exact Relation.ReflTransGen.single (NStep.join rfl)
  have hdone := hsend.node hjoin
  let x₃ := Function.update x₂ c.src { y₀ with code := [] }
  have hx₃ : x₃ c.dst = (x₀ c.dst).receive c.src m := by
    simp [x₃, x₂, Function.update_of_ne hne.symm, hx₁]
  obtain ⟨y, hrun, hy⟩ : ∃ y, NRun ident Store.writeBody c.dst (x₃ c.dst) y ∧
      y.handler c.src = .write m c.output := by
    rw [hx₃]
    exact NRun.takes hdst rfl rfl (by simp [Node.receive, x₀, Cluster.start, Node.fresh])
      (by simp [Message.waits, m, waitRecvBuf])
  refine ⟨Function.update x₃ c.dst y, m, hdone.node hrun, ?_, ?_, ?_⟩
  · rw [Function.update_of_ne hne]
    simp [x₃]
  · simp only [Function.update_self, hy]
  · rw [length_wireData, Memory.length_read]

end Sizes

/-- **When nothing is cut off silently.** On a connection: when the size is below `2 ^ 32`; of a
larger message `net/old` refuses only what is cut to more than one call of `send` takes, and it does
not see that a call for `2 ^ 32 - 1` bytes has failed. In the runs of `broadcast`, `all_gather` and
`send`: what arrives has the size of the buffer when this is below `2 ^ 32`, and only then. -/
theorem no_truncation_iff (count : ℕ) (dt : Dtype) :
    (∀ (p : Packet) (limit : ℕ), p.data.length = count * dtypeSize dt →
      (cStr p.name).length + 13 < 2 ^ 32 → (cStr p.name).length + 12 ≤ limit →
      (NoTruncation limit Cxx20.write Cxx20.transport (fun _ => True) p ↔
        count * dtypeSize dt < 2 ^ 32) ∧
      ∀ errno, (NoTruncation limit Old.send (Old.transport errno) (fun s => ∀ k, s.frag k < 2 ^ 31)
          p ↔ count * dtypeSize dt % 2 ^ 32 ≠ 2 ^ 32 - 1 ∧
            (count * dtypeSize dt < 2 ^ 32 ∨ limit < count * dtypeSize dt % 2 ^ 32))) ∧
    ∀ (n : ℕ) [NeZero n] (ident : Fin n → PeerId),
      (∀ (s : Strategy) (c : BroadcastCall n), c.count = count → c.dt = dt →
        EveryBody ident (broadcastProgram s c) fun data =>
          data.length = count * dtypeSize dt ↔ count * dtypeSize dt < 2 ^ 32) ∧
      (∀ (c : AllGatherCall n) (k : ℕ), c.count = count → c.dt = dt →
        EveryBody ident (fun rank => c.program rank k) fun data =>
          data.length = count * dtypeSize dt ↔ count * dtypeSize dt < 2 ^ 32) ∧
      ∀ c : SendCall n, c.count = count → c.dt = dt →
        EveryBody ident (sendProgram c) fun data =>
          data.length = count * dtypeSize dt ↔ count * dtypeSize dt < 2 ^ 32 := by
  refine ⟨?_, ?_⟩
  · intro p limit hlen hname hlimit
    rw [← hlen]
    exact ⟨Cxx20.noTruncation_iff (by omega) (by omega),
      fun errno => Old.noTruncation_iff errno hname hlimit⟩
  · intro n _ ident
    refine ⟨?_, ?_, ?_⟩
    · rintro s c rfl rfl
      exact everyBody_of_sends (broadcastProgram_sends s c)
    · rintro c k rfl rfl
      exact everyBody_of_sends (allGatherProgram_sends c k)
    · rintro c rfl rfl
      exact everyBody_of_sends (sendProgram_sends c)

/-- A message of four bytes arrives. -/
theorem no_truncation_iff_four :
    NoTruncation 4096 Cxx20.write Cxx20.transport (fun _ => True) ⟨[97], 1, [1, 2, 3, 4]⟩ ∧
    NoTruncation 4096 Old.send (Old.transport 11) (fun s => ∀ k, s.frag k < 2 ^ 31)
      ⟨[97], 1, [1, 2, 3, 4]⟩ := by
  have h := (no_truncation_iff 4 .u8).1 ⟨[97], 1, [1, 2, 3, 4]⟩ 4096 rfl (by decide) (by decide)
  exact ⟨h.1.mpr (by decide), (h.2 11).mpr (by decide)⟩

/-- Peer 0 sends `2 ^ 32` bytes to peer 1. -/
def sendWords : SendCall 2 := ⟨2 ^ 32, .u8, [97], 0, 1, 0, 0⟩

theorem size_sendWords : sendWords.count * dtypeSize sendWords.dt = 2 ^ 32 := Nat.mul_one _

/-- The `send` returns and the receiver gets nothing. -/
theorem not_no_truncation :
    ¬∀ (c : SendCall 2), EveryBody (fun r => ⟨UInt32.ofNat r, 10000⟩) (sendProgram c) fun data =>
      data.length = c.count * dtypeSize c.dt := by
  intro h
  obtain ⟨x, m, hx, -, hw, hlen⟩ := sendProgram_reaches (fun r => ⟨UInt32.ofNat r, 10000⟩)
    sendWords (by decide) (by decide) fun _ => ⟨fun _ => 0, 0⟩
  have hall := h sendWords _ x hx _ _ m _ hw
  dsimp only at hall
  rw [size_sendWords] at hall hlen
  omega

end StdmlCollective

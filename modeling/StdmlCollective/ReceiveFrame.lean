import StdmlCollective.AsyncReduce
import StdmlCollective.Truncation

/-!
# What a receive touches

A receive and the message it takes meet in a box. `session::recv`, `all_gather` and `broadcast`
leave a pointer in a slot box, and the handler of the connection reads the body to that pointer, as
many bytes as the header of the message says. A `reduce` takes from a mailbox the buffer which the
handler has made for the message, and `add_to` goes through as many elements of it as the workspace
has. Neither side knows the size of the other.

Memory here records the bytes that are written, and the bytes of a received buffer that are looked
at.
-/

namespace StdmlCollective

open LittleEndian Memory

/-! ## Recorded accesses -/

/-- A store with the addresses that have been written and those of a received buffer that have been
looked at. -/
structure Traced where
  store : Store
  written : List Addr
  looked : List Addr

/-- The addresses from `a` on, `len` of them. -/
def addrs (a : Addr) (len : ℕ) : List Addr := (List.range len).map (a + ·)

theorem mem_addrs {a x : Addr} {len : ℕ} : x ∈ addrs a len ↔ Region a len x := by
  simp only [addrs, List.mem_map, List.mem_range, Region, eq_comm]

namespace Traced

/-- Write the bytes `d` at `a`. -/
def write (a : Addr) (d : Bytes) (t : Traced) : Traced :=
  { t with store := t.store.writeBody a d, written := t.written ++ addrs a d.length }

/-- Look at `len` bytes of a received buffer. -/
def look (a : Addr) (len : ℕ) (t : Traced) : Traced :=
  { t with looked := t.looked ++ addrs a len }

/-- From `t` to `t'` only addresses in `W` are written and only addresses in `L` looked at. -/
structure Within (W L : Addr → Prop) (t t' : Traced) : Prop where
  written : ∀ a ∈ t'.written, a ∈ t.written ∨ W a
  looked : ∀ a ∈ t'.looked, a ∈ t.looked ∨ L a
  mem : ∀ a, ¬W a → t'.store.mem a = t.store.mem a

namespace Within

variable {W L W' L' : Addr → Prop} {t t' t'' : Traced}

theorem refl (W L : Addr → Prop) (t : Traced) : Within W L t t :=
  ⟨fun _ => .inl, fun _ => .inl, fun _ _ => rfl⟩

theorem trans (h : Within W L t t') (h' : Within W L t' t'') : Within W L t t'' where
  written a ha := (h'.written a ha).elim (h.written a) .inr
  looked a ha := (h'.looked a ha).elim (h.looked a) .inr
  mem a ha := (h'.mem a ha).trans (h.mem a ha)

theorem mono (h : Within W L t t') (hW : ∀ a, W a → W' a) (hL : ∀ a, L a → L' a) :
    Within W' L' t t' where
  written a ha := (h.written a ha).imp_right (hW a)
  looked a ha := (h.looked a ha).imp_right (hL a)
  mem a ha := h.mem a fun hw => ha (hW a hw)

end Within

theorem within_write (a : Addr) (d : Bytes) (t : Traced) :
    Within (Region a d.length) (fun _ => False) t (t.write a d) where
  written _ hx := (List.mem_append.mp hx).imp_right mem_addrs.mp
  looked _ := .inl
  mem _ hx := write_of_not_region hx

theorem within_look (a : Addr) (len : ℕ) (t : Traced) :
    Within (fun _ => False) (Region a len) t (t.look a len) where
  written _ := .inl
  looked _ hx := (List.mem_append.mp hx).imp_right mem_addrs.mp
  mem _ _ := rfl

end Traced

theorem region_iff {a x len : ℕ} : Region a len x ↔ a ≤ x ∧ x < a + len := by
  rw [← not_iff_not, not_region_iff]
  omega

theorem Region.sub {a b x k l : ℕ} (h : Region a k x) (hb : b ≤ a) (hle : a + k ≤ b + l) :
    Region b l x := by
  rw [region_iff] at h ⊢
  omega

/-! ## `read_body` -/

/-- A way to read a body of `n` bytes to the address `ptr`: how it fails, if it does, and what has
become of memory. -/
abbrev ReadBody := Socket → Addr → ℕ → Traced → Option Fault × Traced

/-- `ioutil::read(socket, ptr, n)`. -/
def Cxx20.readInto (s : Socket) (ptr : Addr) (n : ℕ) (t : Traced) : Option Fault × Traced :=
  if n = 0 then (none, t)
  else
    let r := s.readSome n
    if _h : r.1 = [] then (some .throws, t)
    else readInto r.2 (ptr + r.1.length) (n - r.1.length) (t.write ptr r.1)
termination_by s.bytes.length
decreasing_by exact Socket.length_readSome_lt _h

/-- `TcpSocket::recv_all(data, size)`; `none` when it does not come to an end. -/
def Old.recvAllInto (errno : ℕ) (s : Socket) (data : Addr) (size : ℕ) (got : Int32) (t : Traced) :
    Option Int32 × Traced :=
  if size = 0 then (some got, t)
  else
    let r := s.readSome size
    let n := Int32.ofNat r.1.length
    if n ≤ 0 then
      if errno = 35 then
        if _h : r.1 = [] then (none, t)
        else recvAllInto errno r.2 data size got (t.write data r.1)
      else (some got, t.write data r.1)
    else if _h : r.1 = [] then (some got, t) -- not reached, `n` is positive
    else
      recvAllInto errno r.2 (data + n.toInt.toNat) (size - n.toInt.toNat) (got + n)
        (t.write data r.1)
termination_by s.bytes.length
decreasing_by all_goals exact Socket.length_readSome_lt _h

/-- `TcpSocket::recv(data, size)`. -/
def Old.recvInto (errno : ℕ) : ReadBody := fun s data size t =>
  match recvAllInto errno s data size 0 t with
  | (none, t) => (some .spins, t)
  | (some got, t) => (if got = Int32.ofNat size then none else some .throws, t)

/-- The two implementations of the transport, the older one in a thread with this `errno`. -/
inductive Net where
  | cxx20
  | old (errno : ℕ)

/-- `message_reader_impl::read_body`. -/
def Net.readBody : Net → ReadBody
  | .cxx20 => Cxx20.readInto
  | .old errno => Old.recvInto errno

/-- What is known of `read_body`: whatever arrives, it stays inside the body, and when the whole
body arrives byte by byte, it writes all of it. -/
structure ReadBody.Stores (rd : ReadBody) : Prop where
  within : ∀ s ptr n t, Traced.Within (Region ptr n) (fun _ => False) t (rd s ptr n t).2
  whole : ∀ n, ∃ s, ∀ ptr t, (rd s ptr n t).1 = none ∧
    ∀ a, Region ptr n a → a ∈ (rd s ptr n t).2.written

theorem Socket.length_readSome_le (s : Socket) {n : ℕ} (h : n ≠ 0) :
    (s.readSome n).1.length ≤ n := by
  simp only [readSome, List.length_take]
  omega

/-- `n` bytes that come one by one. -/
def drip (n calls : ℕ) : Socket := ⟨List.replicate n 0, fun _ => 1, calls⟩

theorem readSome_drip (n k calls : ℕ) :
    (drip (n + 1) calls).readSome (k + 1) = ([0], drip n (calls + 1)) := by
  have hone : max 1 (min 1 (k + 1)) = 1 := by omega
  simp only [drip, Socket.readSome, hone]
  rfl

/-- The first byte and the rest. -/
theorem Traced.written_cons {ptr n a : ℕ} {b : UInt8} {t : Traced}
    (h : a ∈ t.written ∨ Region ptr (n + 1) a) :
    a ∈ (t.write ptr [b]).written ∨ Region (ptr + 1) n a := by
  rw [write, List.mem_append, mem_addrs, or_assoc]
  refine h.imp_right fun h => ?_
  simp only [region_iff, List.length_singleton] at h ⊢
  omega

theorem Traced.within_piece {ptr n : ℕ} {t : Traced} {d : Bytes} (hd : d.length ≤ n) :
    Within (Region ptr n) (fun _ => False) t (t.write ptr d) :=
  (within_write ptr d t).mono (fun _ ha => ha.sub le_rfl (Nat.add_le_add_left hd ptr)) fun _ => id

/-- The first bytes of a body, and then what is left of it. -/
theorem Traced.Within.after {ptr n k : ℕ} {t t' : Traced} {d : Bytes} (hd : d.length ≤ n)
    (hk : k ≤ n) (h : Within (Region (ptr + k) (n - k)) (fun _ => False) (t.write ptr d) t') :
    Within (Region ptr n) (fun _ => False) t t' := by
  refine (within_piece hd).trans (h.mono ?_ fun _ => id)
  exact fun _ ha => ha.sub (Nat.le_add_right ..) (by omega)

theorem Cxx20.within_readInto (s : Socket) (ptr n : ℕ) (t : Traced) :
    Traced.Within (Region ptr n) (fun _ => False) t (readInto s ptr n t).2 := by
  fun_induction readInto s ptr n t with
  | case1 => exact .refl ..
  | case2 => exact .refl ..
  | case3 s ptr n t hn r _ ih => exact .after (s.length_readSome_le hn) (s.length_readSome_le hn) ih

theorem Cxx20.readInto_drip (n calls ptr : ℕ) (t : Traced) :
    (readInto (drip n calls) ptr n t).1 = none ∧
      ∀ a, a ∈ t.written ∨ Region ptr n a → a ∈ (readInto (drip n calls) ptr n t).2.written := by
  induction n generalizing calls ptr t with
  | zero =>
      rw [readInto, if_pos rfl]
      refine ⟨rfl, ?_⟩
      rintro a (ha | ⟨i, hi, -⟩)
      · exact ha
      · exact absurd hi (Nat.not_lt_zero i)
  | succ n ih =>
      rw [readInto, if_neg (Nat.succ_ne_zero n)]
      simp only [readSome_drip, List.cons_ne_nil, dite_false, List.length_singleton,
        Nat.add_sub_cancel]
      obtain ⟨hnone, hall⟩ := ih (calls + 1) (ptr + 1) (t.write ptr [0])
      refine ⟨hnone, fun a ha => hall a ?_⟩
      exact Traced.written_cons ha

theorem Cxx20.stores_readInto : ReadBody.Stores Cxx20.readInto where
  within := within_readInto
  whole n := ⟨drip n 0, fun ptr t =>
    ⟨(readInto_drip n 0 ptr t).1, fun a ha => (readInto_drip n 0 ptr t).2 a (.inr ha)⟩⟩

namespace Old

/-- A count as an `int` is at most the count. -/
theorem toNat_ofNat_le (k : ℕ) : (Int32.ofNat k).toInt.toNat ≤ k := by
  have hbmod : (Int32.ofNat k).toInt = (k : ℤ).bmod (2 ^ 32) := Int32.toInt_ofNat'
  rw [Int.bmod_def] at hbmod
  split at hbmod <;> omega

theorem within_recvAllInto (errno : ℕ) (s : Socket) (data size : ℕ) (got : Int32) (t : Traced) :
    Traced.Within (Region data size) (fun _ => False) t
      (recvAllInto errno s data size got t).2 := by
  fun_induction recvAllInto errno s data size got t with
  | case1 => exact .refl ..
  | case2 => exact .refl ..
  | case3 s data size got t hsize r n _ _ _ ih =>
      -- the count is negative, and the next bytes go to the same place
      exact (Traced.within_piece (s.length_readSome_le hsize)).trans ih
  | case4 s data size got t hsize => exact Traced.within_piece (s.length_readSome_le hsize)
  | case5 => exact .refl ..
  | case6 s data size got t hsize r n hpos _ ih =>
      have hle := s.length_readSome_le hsize
      exact .after hle ((toNat_ofNat_le _).trans hle) ih

theorem within_recvInto (errno : ℕ) (s : Socket) (data size : ℕ) (t : Traced) :
    Traced.Within (Region data size) (fun _ => False) t (recvInto errno s data size t).2 := by
  have h := within_recvAllInto errno s data size 0 t
  rw [recvInto]
  split
  · next heq => rwa [heq] at h
  · next heq => rwa [heq] at h

theorem recvAllInto_drip (errno n calls data : ℕ) (got : Int32) (t : Traced) :
    (recvAllInto errno (drip n calls) data n got t).1 = some (got + Int32.ofNat n) ∧
      ∀ a, a ∈ t.written ∨ Region data n a →
        a ∈ (recvAllInto errno (drip n calls) data n got t).2.written := by
  induction n generalizing calls data got t with
  | zero =>
      rw [recvAllInto, if_pos rfl]
      refine ⟨congrArg some (Int32.add_zero got).symm, ?_⟩
      rintro a (ha | ⟨i, hi, -⟩)
      · exact ha
      · exact absurd hi (Nat.not_lt_zero i)
  | succ n ih =>
      obtain ⟨hpos, hone⟩ := int32_pos Nat.one_pos (by decide)
      rw [recvAllInto, if_neg (Nat.succ_ne_zero n)]
      simp only [readSome_drip, List.cons_ne_nil, dite_false, List.length_singleton, if_neg hpos,
        hone, Nat.add_sub_cancel]
      obtain ⟨hgot, hall⟩ := ih (calls + 1) (data + 1) (got + Int32.ofNat 1) (t.write data [0])
      refine ⟨?_, fun a ha => hall a (Traced.written_cons ha)⟩
      rw [hgot, Nat.add_comm n 1, Int32.ofNat_add, Int32.add_assoc]

theorem stores_recvInto (errno : ℕ) : ReadBody.Stores (recvInto errno) where
  within := within_recvInto errno
  whole n := by
    refine ⟨drip n 0, fun ptr t => ?_⟩
    obtain ⟨hgot, hall⟩ := recvAllInto_drip errno n 0 ptr 0 t
    rw [Int32.zero_add] at hgot
    rw [recvInto]
    split
    · next heq =>
        rw [heq] at hgot
        cases hgot
    · next got t' heq =>
        rw [heq] at hgot hall
        exact ⟨if_pos (Option.some.inj hgot), fun a ha => hall a (.inr ha)⟩

end Old

theorem Net.stores_readBody (net : Net) : net.readBody.Stores := by
  cases net with
  | cxx20 => exact Cxx20.stores_readInto
  | old errno => exact Old.stores_recvInto errno

/-! ## The receives -/

/-- `reduce(x, y, z, count, dt, op)`, `y` the address of the received buffer. -/
def reduceAt (f : ℕ → ℕ → ℕ) (s : ℕ) (x y z : Addr) : ℕ → Traced → Traced
  | 0, t => t
  | n + 1, t =>
      let t := (reduceAt f s x y z n t).look (y + n * s) s
      t.write (x + n * s) (leBytes s
        (f (leNat (Memory.read (y + n * s) s t.store.mem))
          (leNat (Memory.read (z + n * s) s t.store.mem))))

/-- `workspace_state::add_to` of a received buffer. An operation that is not supported throws at the
first element, before it looks at it. -/
def Workspace.addToAt (w : Workspace) (data : Addr) (t : Traced) : Option Fault × Traced :=
  let counted (t : Traced) : Traced :=
    { t with store := { t.store with recvCount := t.store.recvCount + 1 } }
  match elemOp w.dt w.op with
  | some f =>
      (none, counted
        (reduceAt f (dtypeSize w.dt) w.recv data (w.effectiveData t.store) w.count t))
  | none => if w.count = 0 then (none, counted t) else (some .throws, t)

/-- The four ways to receive: `session::recv`, the receive of a slice in `all_gather`, and the
receives of `recv_task` and of `recv_into` and `recv_onto`, without and with `reduce`. -/
inductive Receive where
  | recv (output : Addr) (count : ℕ) (dt : Dtype) (name : Bytes)
  | allGather (g : GatherArgs) (i : ℕ)
  | broadcast (w : Workspace)
  | reduce (w : Workspace)

namespace Receive

/-- Where the receive puts its result. -/
def output : Receive → Addr
  | .recv output _ _ _ => output
  | .allGather g i => (g.slice i).recv
  | .broadcast w | .reduce w => w.recv

/-- `count * dtype_size(dt)`. -/
def size : Receive → ℕ
  | .recv _ count dt _ => count * dtypeSize dt
  | .allGather g i => (g.slice i).dataSize
  | .broadcast w | .reduce w => w.dataSize

/-- What the handler and the receive do with a matching message, `len` being the length in its
header, `s` what comes after the header, and `heap` the address of the buffer that `alloc_buffer`
makes for a message without `wait_recv_buf`. -/
def take (rd : ReadBody) (heap : Addr) (len : UInt32) (s : Socket) (t : Traced) :
    Receive → Option Fault × Traced
  | .reduce w =>
      let r := rd s heap len.toNat t
      if r.1 = none then w.addToAt heap r.2 else r
  | r => rd s r.output len.toNat t

/-- The addresses the receive and the handler may write. -/
def Own (heap : Addr) (len : UInt32) : Receive → Addr → Prop
  | .reduce w => fun a => Region heap len.toNat a ∨ Region w.recv w.dataSize a
  | r => Region r.output r.size

/-- The addresses of the received buffer. -/
def Received (heap : Addr) (len : UInt32) : Receive → Addr → Prop
  | .reduce _ => Region heap len.toNat
  | _ => fun _ => False

/-- Whatever arrives after a header with this length, the receive stays inside its own buffers. -/
def Inside (rd : ReadBody) (len : UInt32) (r : Receive) : Prop :=
  ∀ heap s t, Traced.Within (r.Own heap len) (r.Received heap len) t (r.take rd heap len s t).2

/-- A message for a slot is not longer than the slot, and one that is reduced not shorter than the
workspace. -/
def Fits (len : UInt32) : Receive → Prop
  | .reduce w => elemOp w.dt w.op = none ∨ w.dataSize ≤ len.toNat
  | r => len.toNat ≤ r.size

/-! ## The same receives without the record -/

section Threads

variable {P T O : Type} {n : ℕ}

/-- The thread that receives from the peer `target`. -/
def thread (peers : Fin n → P) (rank target : Fin n) : Receive → Thread P T Store O
  | .recv output _ _ name => sessionRecv peers output target name
  | .allGather g i => allGatherTask peers rank g (2 * i + 1)
  | .broadcast w => recvTask w false (peers target)
  | .reduce w => recvTask w true (peers target)

/-- A receive that does not reduce posts the address of its result. -/
theorem thread_slotGet (peers : Fin n → P) {rank target : Fin n} (hne : target ≠ rank) {r : Receive}
    (hi : ∀ g i, r = .allGather g i → i = target) (hr : ∀ w, r ≠ .reduce w) :
    ∃ name, (r.thread peers rank target : Thread P T Store O) =
      .slotGet (peers target) name r.output := by
  cases r with
  | recv output count dt name => exact ⟨name, rfl⟩
  | allGather g i =>
      obtain rfl := hi g i rfl
      have hdiv : (2 * target.val + 1) / 2 = target.val := by omega
      have hmod : (2 * target.val + 1) % 2 ≠ 0 := by omega
      refine ⟨g.name, ?_⟩
      simp only [thread, allGatherTask, hdiv, hmod, if_false, target.isLt, dite_true,
        if_neg (Fin.val_ne_of_ne hne)]
      rfl
  | broadcast w => exact ⟨w.name, rfl⟩
  | reduce w => exact absurd rfl (hr w)

end Threads

end Receive

/-- A whole body is written where the handler of the message layer writes it. -/
theorem Cxx20.readInto_store {s : Socket} {ptr n : ℕ} {t : Traced} {d : Bytes}
    (hd : (readLoop s n).1 = some d) :
    (readInto s ptr n t).1 = none ∧ (readInto s ptr n t).2.store = t.store.writeBody ptr d := by
  fun_induction readInto s ptr n t generalizing d with
  | case1 =>
      rw [readLoop, if_pos rfl] at hd
      obtain rfl := Option.some.inj hd
      refine ⟨rfl, ?_⟩
      rw [Store.writeBody, Memory.write_nil]
  | case2 s ptr n t hn r =>
      rename_i hr
      rw [readLoop, if_neg hn, dif_pos hr] at hd
      cases hd
  | case3 s ptr n t hn r hr =>
      rename_i ih
      rw [readLoop, if_neg hn, dif_neg hr] at hd
      obtain ⟨e, he, rfl⟩ := Option.map_eq_some_iff.mp hd
      obtain ⟨hnone, hstore⟩ := ih he
      refine ⟨hnone, hstore.trans ?_⟩
      rw [Traced.write, Store.writeBody, Store.writeBody, Store.writeBody, Memory.write_append]

section Reduce

variable (f : ℕ → ℕ → ℕ) (s : ℕ) {x y z : ℕ}

theorem within_reduceAt (n : ℕ) (t : Traced) :
    Traced.Within (Region x (n * s)) (Region y (n * s)) t (reduceAt f s x y z n t) := by
  induction n with
  | zero => exact .refl ..
  | succ n ih =>
      have hmul : n * s + s = (n + 1) * s := (Nat.succ_mul n s).symm
      have hfirst : ∀ {b : ℕ} (a : ℕ), Region b (n * s) a → Region b ((n + 1) * s) a :=
        fun _ ha => ha.sub le_rfl (by omega)
      have hlast : ∀ {b : ℕ} (a : ℕ), Region (b + n * s) s a → Region b ((n + 1) * s) a :=
        fun _ ha => ha.sub (by omega) (by omega)
      have hlook : Traced.Within (Region x ((n + 1) * s)) (Region y ((n + 1) * s)) _ _ :=
        (Traced.within_look (y + n * s) s (reduceAt f s x y z n t)).mono nofun hlast
      refine ((ih.mono hfirst hfirst).trans hlook).trans ?_
      refine (Traced.within_write ..).mono (fun a ha => hlast a ?_) nofun
      rwa [length_leBytes] at ha

/-- Every byte of the elements is looked at. -/
theorem mem_looked_reduceAt (n : ℕ) (t : Traced) {a : ℕ} (ha : Region y (n * s) a) :
    a ∈ (reduceAt f s x y z n t).looked := by
  induction n with
  | zero =>
      rw [region_iff] at ha
      omega
  | succ n ih =>
      refine List.mem_append.mpr ?_
      by_cases hlt : Region y (n * s) a
      · exact .inl (ih hlt)
      · refine .inr (mem_addrs.mpr ?_)
        rw [region_iff] at ha hlt ⊢
        rw [Nat.succ_mul] at ha
        omega

theorem reduceAt_recvCount (n : ℕ) (t : Traced) :
    (reduceAt f s x y z n t).store.recvCount = t.store.recvCount := by
  induction n with
  | zero => rfl
  | succ n ih => exact ih

/-- When the received buffer lies elsewhere, the reduction is that of its bytes. -/
theorem reduceAt_mem (count n : ℕ) (hn : n ≤ count) (t : Traced)
    (h : Apart y (count * s) x (count * s)) :
    (reduceAt f s x y z n t).store.mem =
      reduce f s x (Memory.read y (count * s) t.store.mem) z n t.store.mem := by
  induction n with
  | zero => rfl
  | succ n ih =>
      have hle : n * s + s ≤ count * s := by
        rw [← Nat.succ_mul]
        exact Nat.mul_le_mul_right s hn
      have hkept : Memory.read (y + n * s) s (reduceAt f s x y z n t).store.mem =
          Memory.read (y + n * s) s t.store.mem := by
        refine read_congr fun i hi => (within_reduceAt f s n t).mem _ ?_
        rw [region_iff]
        rcases h with h | h <;> omega
      rw [reduce, ← ih (by omega), elem_read y t.store.mem (by omega), ← hkept]
      rfl

end Reduce

/-- The reduction of a mailbox buffer that is long enough and lies elsewhere is `add_to` of its
bytes. -/
theorem Workspace.addToAt_store {w : Workspace} {f : ℕ → ℕ → ℕ} (hf : elemOp w.dt w.op = some f)
    {data : ℕ} (t : Traced) (h : Apart data w.dataSize w.recv w.dataSize) :
    (w.addToAt data t).2.store =
      w.addTo f (Memory.read data w.dataSize t.store.mem) t.store := by
  have hmem := reduceAt_mem f (dtypeSize w.dt) (z := w.effectiveData t.store) w.count w.count le_rfl
    t h
  rw [addToAt, hf, addTo, Store.mk.injEq]
  exact ⟨hmem, congrArg (· + 1) (reduceAt_recvCount ..)⟩

theorem Workspace.within_addToAt (w : Workspace) (data : ℕ) (t : Traced) :
    Traced.Within (Region w.recv w.dataSize)
      (fun a => elemOp w.dt w.op ≠ none ∧ Region data w.dataSize a) t (w.addToAt data t).2 := by
  rw [addToAt]
  cases hf : elemOp w.dt w.op with
  | some f =>
      have h := within_reduceAt f (dtypeSize w.dt) (x := w.recv) (y := data)
        (z := w.effectiveData t.store) w.count t
      exact ⟨h.written, fun a ha => (h.looked a ha).imp_right fun hr => ⟨nofun, hr⟩, h.mem⟩
  | none =>
      simp only
      split
      · exact ⟨fun _ => .inl, fun _ => .inl, fun _ _ => rfl⟩
      · exact .refl ..

/-! ## When a receive stays inside -/

namespace Receive

variable {rd : ReadBody} {r : Receive} {len : UInt32}

/-- Nothing has been touched. -/
def empty : Traced := ⟨⟨fun _ => 0, 0⟩, [], []⟩

theorem Fits.inside (hrd : rd.Stores) (h : r.Fits len) : r.Inside rd len := by
  intro heap s t
  cases r with
  | recv | allGather | broadcast =>
      refine (hrd.within ..).mono ?_ fun _ => id
      exact fun _ ha => ha.sub le_rfl (Nat.add_le_add_left h _)
  | reduce w =>
      have hbody := hrd.within s heap len.toNat t
      simp only [take]
      split
      · refine (hbody.mono (fun _ => .inl) nofun).trans ?_
        refine (w.within_addToAt heap _).mono (fun _ => .inr) ?_
        rintro a ⟨hop, ha⟩
        rcases h with h | h
        · exact absurd h hop
        · exact ha.sub le_rfl (Nat.add_le_add_left h _)
      · exact hbody.mono (fun _ => .inl) nofun

/-- A whole body goes as far as its length. -/
theorem le_of_within (hrd : rd.Stores) {ptr n size : ℕ}
    (h : ∀ s t, Traced.Within (Region ptr size) (fun _ => False) t (rd s ptr n t).2) :
    n ≤ size := by
  obtain ⟨s, hs⟩ := hrd.whole n
  by_contra hlt
  have hmem := (hs ptr empty).2 (ptr + size) ⟨size, Nat.lt_of_not_le hlt, rfl⟩
  rcases (h s empty).written _ hmem with hold | hin
  · cases hold
  · rw [region_iff] at hin
    omega

theorem Inside.fits (hrd : rd.Stores) (h : r.Inside rd len) : r.Fits len := by
  cases r with
  | recv | allGather | broadcast => exact le_of_within hrd fun s t => h 0 s t
  | reduce w =>
      obtain ⟨s, hs⟩ := hrd.whole len.toNat
      obtain ⟨hnone, -⟩ := hs 0 empty
      cases hf : elemOp w.dt w.op with
      | none => exact .inl hf
      | some f =>
          refine .inr (Nat.le_of_not_lt fun hlt => ?_)
          have hlook : len.toNat ∈ ((Receive.reduce w).take rd 0 len s empty).2.looked := by
            simp only [take, hnone, if_true, Workspace.addToAt, hf]
            refine mem_looked_reduceAt f _ w.count _ (region_iff.mpr ?_)
            rw [Workspace.dataSize] at hlt
            omega
          rcases (h 0 s empty).looked _ hlook with hold | hin
          · cases hold
          · have hin' := region_iff.mp hin
            omega

/-- **When a receive touches only its own buffers.** A message for a slot must not be longer than
the receive says, and one that is reduced not shorter; no length is ever compared. -/
theorem inside_iff_fits (net : Net) (r : Receive) (len : UInt32) :
    r.Inside net.readBody len ↔ r.Fits len :=
  ⟨fun h => h.fits net.stores_readBody, fun h => h.inside net.stores_readBody⟩

/-- A message of two bytes for a receive of one byte, and a message of one byte that is added to
two. -/
theorem not_inside_mismatch :
    ¬(recv 8 1 .u8 []).Inside Net.cxx20.readBody 2 ∧
      ¬(reduce ⟨16, 16, 2, .u8, .sum, []⟩).Inside Net.cxx20.readBody 1 := by
  refine ⟨fun h => ?_, fun h => ?_⟩
  · exact absurd (h.fits Cxx20.stores_readInto) (by decide : ¬2 ≤ 1)
  · rcases h.fits Cxx20.stores_readInto with hop | hle
    · rw [elemOp_of_isInt rfl] at hop
      cases hop
    · exact absurd hle (by decide : ¬2 ≤ 1)

end Receive

end StdmlCollective

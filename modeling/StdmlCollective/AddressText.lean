import StdmlCollective.Address
import StdmlCollective.Buffer
import StdmlCollective.Lib.Scanf

/-!
# Addresses as text

A `peer_id` is written `a.b.c.d:port` and read back by `sscanf`, which takes more than what is
written: white space and a sign in front of a number, numbers that are too large, and anything
behind the port.
-/

namespace StdmlCollective

open Decimal LittleEndian Scanf

namespace Address

/-- `pack`: `p[3]` to `p[0]` are set. -/
def pack (a b c d : UInt8) : UInt32 := UInt32.ofNat (leNat [d, c, b, a])

/-- `unpack`: `p[3]` to `p[0]` of the bytes in memory. -/
def unpack (x : UInt32) : UInt8 × UInt8 × UInt8 × UInt8 :=
  let p := leBytes 4 x.toNat
  (p.getD 3 0, p.getD 2 0, p.getD 1 0, p.getD 0 0)

/-- `split`: the parts that `std::getline` gives, without the empty ones. -/
def split (text : Bytes) (sep : UInt8) : List Bytes := (text.splitOn sep).filter (· ≠ [])

/-- The numbers with dots between them. -/
def dotted (a b c d : ℕ) : Bytes :=
  toDecimal a ++ 46 :: (toDecimal b ++ 46 :: (toDecimal c ++ 46 :: toDecimal d))

/-- `"%hhu.%hhu.%hhu.%hhu:%hu"`. -/
def format : List Directive :=
  [.unsigned 8, .lit 46, .unsigned 8, .lit 46, .unsigned 8, .lit 46, .unsigned 8, .lit 58,
    .unsigned 16]

end Address

open Address

/-- `peer_id::hostname`. -/
def PeerId.hostname (id : PeerId) : Bytes :=
  let (a, b, c, d) := unpack id.ipv4
  dotted a.toNat b.toNat c.toNat d.toNat

/-- `peer_id::operator std::string`. -/
def PeerId.text (id : PeerId) : Bytes := id.hostname ++ 58 :: toDecimal id.port.toNat

/-- `parse_peer_id`. -/
def parsePeerId (s : Bytes) : Option PeerId :=
  match scan format (cStr s) with
  | [a, b, c, d, p] =>
      some ⟨pack (UInt8.ofNat a) (UInt8.ofNat b) (UInt8.ofNat c) (UInt8.ofNat d), UInt16.ofNat p⟩
  | _ => none

/-- `parse_peer_list`. -/
def parsePeerList (s : Bytes) : Option (List PeerId) := (split s 44).mapM parsePeerId

/-- `"127.0.0.1:"`. -/
def localhostText : Bytes := [49, 50, 55, 46, 48, 46, 48, 46, 49, 58]

/-- `peer_list::gen`, or none when `id.value()` throws. -/
def genPeerList (n : ℕ) : Option (List PeerId) :=
  (List.range n).mapM fun i => parsePeerId (localhostText ++ toDecimal ((i + 10000) % 2 ^ 64))

namespace Old

/-- `unpack` of `inet_addr.cpp`. -/
def unpack (n : UInt32) : UInt32 × UInt32 × UInt32 × UInt32 :=
  (n >>> 24, (n >>> 16) &&& 0xff, (n >>> 8) &&& 0xff, n &&& 0xff)

/-- `std::snprintf` into `size` bytes, the last of which is the NUL. -/
def snprintf (size : ℕ) (t : Bytes) : Bytes := t.take (size - 1)

/-- The text that `InetAddr::InetAddr` passes to `inet_pton`. The address 0 needs none. -/
def inetAddrText (host : UInt32) : Option Bytes :=
  if host ≠ 0 then
    let (a, b, c, d) := unpack host
    some (snprintf 16 (dotted a.toNat b.toNat c.toNat d.toNat))
  else none

end Old

/-! ## Addresses that are denoted -/

namespace Address

/-- The text is four decimal numbers up to 255 with dots between them, a colon and a decimal number
up to 65535, and `id` is the address it denotes. -/
def Denotes (s : Bytes) (id : PeerId) : Prop :=
  ∃ a b c d p : Bytes, (∀ t ∈ [a, b, c, d], Digits t ∧ value t ≤ 255) ∧
    (Digits p ∧ value p ≤ 65535) ∧ s = a ++ 46 :: (b ++ 46 :: (c ++ 46 :: (d ++ 58 :: p))) ∧
      id = ⟨pack (UInt8.ofNat (value a)) (UInt8.ofNat (value b)) (UInt8.ofNat (value c))
        (UInt8.ofNat (value d)), UInt16.ofNat (value p)⟩

/-- An address and nothing else. -/
def Strict (s : Bytes) : Prop := ∃ id, Denotes s id

/-- What comes before the first NUL begins with numbers, dots and a colon as `format` says. -/
def Loose (s : Bytes) : Prop := ∃ vs, Matches format (cStr s) vs

section Parse

variable {s : Bytes} {id : PeerId}

theorem stops_cons {c : UInt8} (hc : isDigit c = false) (t : Bytes) : Stops (c :: t) := by
  intro x hx
  rw [List.head?_cons, Option.mem_some_iff] at hx
  rwa [← hx]

theorem nulFree_digits {t : Bytes} (ht : Digits t) : NulFree t := by
  rintro x hx rfl
  exact absurd (ht.2 0 hx) (by decide)

/-- Numbers, dots and a colon are read, each number modulo the size of its target. -/
theorem parse_digits {a b c d p : Bytes} (h : ∀ t ∈ [a, b, c, d, p], Digits t ∧ value t < 2 ^ 64) :
    parsePeerId (a ++ 46 :: (b ++ 46 :: (c ++ 46 :: (d ++ 58 :: p)))) =
      some ⟨pack (UInt8.ofNat (value a)) (UInt8.ofNat (value b)) (UInt8.ofNat (value c))
        (UInt8.ofNat (value d)), UInt16.ofNat (value p)⟩ := by
  simp only [List.forall_mem_cons, List.not_mem_nil, false_imp_iff, implies_true, and_true] at h
  obtain ⟨⟨ha, hav⟩, ⟨hb, hbv⟩, ⟨hc, hcv⟩, ⟨hd, hdv⟩, hp, hpv⟩ := h
  have hdot : ∀ t, Stops (46 :: t) := stops_cons (by decide)
  have hcolon : ∀ t, Stops (58 :: t) := stops_cons (by decide)
  have hend : Stops ([] : Bytes) := by simp [Stops]
  have hport : Matches [.unsigned 16] (p ++ []) [value p % 2 ^ 16] :=
    .unsigned (hp.field hpv) hend .nil
  rw [List.append_nil] at hport
  have hmatch : Matches format _ _ :=
    .unsigned (ha.field hav) (hdot _) <| .lit <| .unsigned (hb.field hbv) (hdot _) <| .lit <|
      .unsigned (hc.field hcv) (hdot _) <| .lit <| .unsigned (hd.field hdv) (hcolon _) <| .lit hport
  have hnul : NulFree (a ++ 46 :: (b ++ 46 :: (c ++ 46 :: (d ++ 58 :: p)))) := by
    have hnums : ∀ t ∈ [a, b, c, d, p], NulFree t := by
      simp [nulFree_digits, ha, hb, hc, hd, hp]
    intro x hx
    simp only [List.mem_append, List.mem_cons] at hx
    rcases hx with hx | rfl | hx | rfl | hx | rfl | hx | rfl | hx
    any_goals decide
    all_goals exact hnums _ (by simp) x hx
  have hbyte : ∀ v, UInt8.ofNat (v % 2 ^ 8) = UInt8.ofNat v := fun v => UInt8.ofNat_mod_size
  have hword : UInt16.ofNat (value p % 2 ^ 16) = UInt16.ofNat (value p) := UInt16.ofNat_mod_size
  rw [parsePeerId, cStr_eq_self hnul, hmatch.scan]
  simp only [hbyte, hword]

/-- An address is read as what it denotes. -/
theorem Denotes.parse (h : Denotes s id) : parsePeerId s = some id := by
  obtain ⟨a, b, c, d, p, hnum, ⟨hp, hple⟩, rfl, rfl⟩ := h
  apply parse_digits
  intro t ht
  by_cases htp : t = p
  · exact ⟨htp ▸ hp, by rw [htp]; omega⟩
  · have ht' := hnum t (by simpa [htp] using ht)
    exact ⟨ht'.1, by omega⟩

/-- What is read at all. -/
theorem parsePeerId_ne_none : parsePeerId s ≠ none ↔ Loose s := by
  constructor
  · intro h
    refine ⟨_, matches_of_scan (by simp [format, Tight, conversions]) ?_⟩
    unfold parsePeerId at h
    split at h
    · next hscan => rw [hscan]; rfl
    · exact absurd rfl h
  · rintro ⟨vs, hmatch⟩
    have hlen : vs.length = 5 := hmatch.length_eq
    rw [parsePeerId, hmatch.scan]
    rcases vs with _ | ⟨a, _ | ⟨b, _ | ⟨c, _ | ⟨d, _ | ⟨p, _ | ⟨q, vs⟩⟩⟩⟩⟩⟩
    all_goals simp at hlen ⊢

end Parse

/-! ## Round trip -/

theorem pack_unpack (x : UInt32) :
    pack (unpack x).1 (unpack x).2.1 (unpack x).2.2.1 (unpack x).2.2.2 = x := by
  have hbytes : leNat (leBytes 4 x.toNat) = x.toNat := by
    rw [leNat_leBytes]
    exact Nat.mod_eq_of_lt x.toNat_lt
  have hlist : [(unpack x).2.2.2, (unpack x).2.2.1, (unpack x).2.1, (unpack x).1] =
      leBytes 4 x.toNat := rfl
  rw [pack, hlist, hbytes, UInt32.ofNat_toNat]

theorem digits_toDecimal (n : ℕ) : Digits (toDecimal n) :=
  ⟨(numeral_toDecimal n).1, (numeral_toDecimal n).2.1⟩

/-- Four bytes and a port in decimal. -/
theorem denotes_dotted (a b c d : UInt8) {p : ℕ} (hp : p ≤ 65535) :
    Denotes (dotted a.toNat b.toNat c.toNat d.toNat ++ 58 :: toDecimal p)
      ⟨pack a b c d, UInt16.ofNat p⟩ := by
  have hbyte : ∀ x : UInt8, Digits (toDecimal x.toNat) ∧ value (toDecimal x.toNat) ≤ 255 := by
    intro x
    have hlt := x.toNat_lt
    rw [value_toDecimal]
    exact ⟨digits_toDecimal _, by omega⟩
  refine ⟨toDecimal a.toNat, toDecimal b.toNat, toDecimal c.toNat, toDecimal d.toNat, toDecimal p,
    ?_, ⟨digits_toDecimal p, by rwa [value_toDecimal]⟩, ?_, ?_⟩
  · simp only [List.forall_mem_cons, hbyte, List.not_mem_nil, false_imp_iff, implies_true, and_true]
  · simp [dotted]
  · simp only [value_toDecimal, UInt8.ofNat_toNat]

/-- A peer is denoted by its text. -/
theorem denotes_text (id : PeerId) : Denotes id.text id := by
  have hport := id.port.toNat_lt
  have hden := denotes_dotted (unpack id.ipv4).1 (unpack id.ipv4).2.1 (unpack id.ipv4).2.2.1
    (unpack id.ipv4).2.2.2 (p := id.port.toNat) (by omega)
  rwa [pack_unpack, UInt16.ofNat_toNat] at hden

theorem Denotes.ne_nil {s : Bytes} {id : PeerId} (h : Denotes s id) : s ≠ [] := by
  obtain ⟨a, b, c, d, p, -, -, rfl, -⟩ := h
  simp

/-- The text of a peer has no comma. -/
theorem comma_notMem_text (id : PeerId) : 44 ∉ id.text := by
  have hnum : ∀ n, (44 : UInt8) ∉ toDecimal n := fun n => not_mem_toDecimal n (by decide)
  simp [PeerId.text, PeerId.hostname, dotted, hnum]

/-- Texts joined with commas are split into the texts. -/
theorem split_intercalate {ts : List Bytes} (hne : ∀ t ∈ ts, t ≠ []) (hcomma : ∀ t ∈ ts, 44 ∉ t) :
    split (List.intercalate [44] ts) 44 = ts := by
  have hall : ts.filter (· ≠ []) = ts := List.filter_eq_self.mpr (by simpa using hne)
  by_cases hnil : ts = []
  · subst hnil
    rfl
  · rw [split, List.splitOn_intercalate 44 hcomma hnil, hall]

theorem mapM_eq_some_map {α β : Type} {f : α → Option β} {g : α → β} (h : ∀ x, f x = some (g x))
    (xs : List α) : xs.mapM f = some (xs.map g) := by
  induction xs with
  | nil => rfl
  | cons x xs ih =>
      rw [List.mapM_cons, h x, ih]
      rfl

end Address

namespace Old

/-- The shifts give the same four numbers as the bytes in memory. -/
theorem unpack_eq (n : UInt32) :
    (unpack n).1.toNat = (Address.unpack n).1.toNat ∧
      (unpack n).2.1.toNat = (Address.unpack n).2.1.toNat ∧
      (unpack n).2.2.1.toNat = (Address.unpack n).2.2.1.toNat ∧
      (unpack n).2.2.2.toNat = (Address.unpack n).2.2.2.toNat := by
  have hn := n.toNat_lt
  have hand : ∀ x : ℕ, x &&& 255 = x % 256 := fun x => Nat.and_two_pow_sub_one_eq_mod x 8
  have h₁ : (Address.unpack n).1 = UInt8.ofNat (n.toNat / 256 / 256 / 256) := rfl
  have h₂ : (Address.unpack n).2.1 = UInt8.ofNat (n.toNat / 256 / 256) := rfl
  have h₃ : (Address.unpack n).2.2.1 = UInt8.ofNat (n.toNat / 256) := rfl
  have h₄ : (Address.unpack n).2.2.2 = UInt8.ofNat n.toNat := rfl
  simp only [h₁, h₂, h₃, h₄, unpack, UInt32.toNat_shiftRight, UInt32.toNat_and, UInt8.toNat_ofNat',
    UInt32.toNat_ofNat, hand, Nat.shiftRight_eq_div_pow, Nat.reduceMod, Nat.reducePow]
  exact ⟨by omega, by omega, trivial, trivial⟩

theorem length_toDecimal_le (x : UInt8) : (toDecimal x.toNat).length ≤ 3 := by
  have hlt := x.toNat_lt
  unfold toDecimal
  split
  · simp
  · rw [List.length_reverse, List.length_map, Nat.digits_length_le_iff (by omega)]
    omega

/-- Sixteen bytes are enough for the text. -/
theorem snprintf_dotted (a b c d : UInt8) :
    snprintf 16 (dotted a.toNat b.toNat c.toNat d.toNat) =
      dotted a.toNat b.toNat c.toNat d.toNat := by
  have ha := length_toDecimal_le a
  have hb := length_toDecimal_le b
  have hc := length_toDecimal_le c
  have hd := length_toDecimal_le d
  apply List.take_of_length_le
  simp only [dotted, List.length_append, List.length_cons]
  omega

theorem inetAddrText_eq (id : PeerId) :
    inetAddrText id.ipv4 = if id.ipv4 = 0 then none else some id.hostname := by
  obtain ⟨ha, hb, hc, hd⟩ := unpack_eq id.ipv4
  by_cases h : id.ipv4 = 0
  · simp [inetAddrText, h]
  · rw [inetAddrText, if_pos h, if_neg h]
    simp only [ha, hb, hc, hd, snprintf_dotted]
    rfl

end Old

/-- **Peer addresses survive text**: a peer is read back from its text, a list of peers from the
texts with commas between them, and both ways to print an address agree. -/
theorem address_text_round_trip :
    (∀ id : PeerId, parsePeerId id.text = some id) ∧
      (∀ ps : List PeerId, parsePeerList (List.intercalate [44] (ps.map PeerId.text)) = some ps) ∧
      ∀ id : PeerId, Old.inetAddrText id.ipv4 = if id.ipv4 = 0 then none else some id.hostname := by
  refine ⟨fun id => (denotes_text id).parse, fun ps => ?_, Old.inetAddrText_eq⟩
  rw [parsePeerList, split_intercalate, List.mapM_map]
  · have hall : ps.mapM (parsePeerId ∘ PeerId.text) = some (ps.map id) :=
      mapM_eq_some_map (fun id => (denotes_text id).parse) ps
    rw [hall, List.map_id]
  · intro t ht
    obtain ⟨id, -, rfl⟩ := List.mem_map.mp ht
    exact (denotes_text id).ne_nil
  · intro t ht
    obtain ⟨id, -, rfl⟩ := List.mem_map.mp ht
    exact comma_notMem_text id

/-! ## What is accepted -/

namespace Address

/-- Only addresses are accepted. -/
def AcceptsAddress (s : Bytes) : Prop := ∀ id, parsePeerId s = some id → Denotes s id

/-- A list with an entry that is not an address is rejected. -/
def RejectsList (s : Bytes) : Prop := (∃ e ∈ split s 44, ¬Strict e) → parsePeerList s = none

/-- `n` distinct peers with the ports from 10000 on, or a failure. -/
def GeneratesPorts (n : ℕ) : Prop :=
  ∀ ps, genPeerList n = some ps → ps.length = n ∧ ps.Nodup ∧
    ∀ i, ∀ h : i < ps.length, ps[i].port.toNat = 10000 + i

theorem acceptsAddress_iff (s : Bytes) : AcceptsAddress s ↔ Strict s ∨ ¬Loose s := by
  constructor
  · intro h
    by_cases hloose : Loose s
    · obtain ⟨id, hid⟩ := Option.ne_none_iff_exists'.mp (parsePeerId_ne_none.mpr hloose)
      exact .inl ⟨id, h id hid⟩
    · exact .inr hloose
  · rintro (⟨id, hid⟩ | hloose) id' hparse
    · rw [hid.parse] at hparse
      rwa [← Option.some.inj hparse]
    · exact absurd (parsePeerId_ne_none.mp (by simp [hparse])) hloose

theorem mapM_eq_none {α β : Type} {f : α → Option β} {xs : List α} :
    xs.mapM f = none ↔ ∃ x ∈ xs, f x = none := by
  induction xs with
  | nil => simp
  | cons x xs ih =>
      rw [List.mapM_cons]
      cases hx : f x with
      | none => simp [hx]
      | some y =>
          cases hxs : xs.mapM f with
          | none => simpa [hx, hxs] using ih.mp hxs
          | some ys => simpa [hx, hxs] using ih.not.mp (by simp [hxs])

theorem rejectsList_iff (s : Bytes) :
    RejectsList s ↔ (∀ e ∈ split s 44, Strict e) ∨ ∃ e ∈ split s 44, ¬Loose e := by
  have hnone : parsePeerList s = none ↔ ∃ e ∈ split s 44, ¬Loose e := by
    rw [parsePeerList, mapM_eq_none]
    simp only [← parsePeerId_ne_none, ne_eq, not_not]
  rw [RejectsList, hnone]
  constructor
  · intro h
    by_cases hstrict : ∀ e ∈ split s 44, Strict e
    · exact .inl hstrict
    · simp only [not_forall] at hstrict
      obtain ⟨e, he, hnot⟩ := hstrict
      exact .inr (h ⟨e, he, hnot⟩)
  · rintro (hstrict | hloose) ⟨e, he, hnot⟩
    · exact absurd (hstrict e he) hnot
    · exact hloose

/-- Every number is read, but its low 16 bits only become the port. -/
theorem parse_localhost {k : ℕ} (hk : k < 2 ^ 64) :
    parsePeerId (localhostText ++ toDecimal k) = some ⟨2130706433, UInt16.ofNat k⟩ := by
  have hnum : ∀ t ∈ [[49, 50, 55], [48], [48], [49], toDecimal k], Digits t ∧ value t < 2 ^ 64 := by
    simp only [List.forall_mem_cons, List.not_mem_nil, false_imp_iff, implies_true, and_true,
      value_toDecimal, hk, digits_toDecimal]
    simp [Digits, isDigit, value]
  have hparse := parse_digits hnum
  rw [value_toDecimal] at hparse
  exact hparse

/-- What `peer_list::gen` makes. -/
theorem genPeerList_eq (n : ℕ) : genPeerList n =
    some ((List.range n).map fun i => ⟨2130706433, UInt16.ofNat ((i + 10000) % 2 ^ 64)⟩) := by
  apply mapM_eq_some_map
  intro i
  exact parse_localhost (Nat.mod_lt _ (by omega))

theorem generatesPorts_iff (n : ℕ) : GeneratesPorts n ↔ n ≤ 55536 := by
  have hport : ∀ i, i < 55536 → (UInt16.ofNat ((i + 10000) % 2 ^ 64)).toNat = 10000 + i := by
    intro i hi
    rw [UInt16.toNat_ofNat']
    omega
  constructor
  · intro h
    by_contra hn
    obtain ⟨hlen, -, hports⟩ := h _ (genPeerList_eq n)
    have hlast := hports 55536 (by omega)
    have hlt := UInt16.toNat_lt (((List.range n).map fun i =>
      (⟨2130706433, UInt16.ofNat ((i + 10000) % 2 ^ 64)⟩ : PeerId))[55536].port)
    omega
  · intro hn ps hps
    rw [genPeerList_eq] at hps
    obtain rfl := Option.some.inj hps
    refine ⟨by simp, ?_, ?_⟩
    · apply List.Nodup.map_on _ List.nodup_range
      intro i hi j hj heq
      rw [List.mem_range] at hi hj
      have hi' := hport i (by omega)
      have hj' := hport j (by omega)
      rw [PeerId.mk.injEq] at heq
      rw [heq.2] at hi'
      omega
    · intro i hi
      rw [List.length_map, List.length_range] at hi
      rw [List.getElem_map, List.getElem_range]
      exact hport i (by omega)

/-- **What the parsers accept.** `parse_peer_id` accepts only addresses, `parse_peer_list` rejects
other entries, and `gen` makes the ports it should, except on entries that begin like an address
but are none, and from the port 65536 on. -/
theorem address_accepted_iff (s : Bytes) (n : ℕ) :
    (AcceptsAddress s ↔ Strict s ∨ ¬Loose s) ∧
      (RejectsList s ↔ (∀ e ∈ split s 44, Strict e) ∨ ∃ e ∈ split s 44, ¬Loose e) ∧
      (GeneratesPorts n ↔ n ≤ 55536) :=
  ⟨acceptsAddress_iff s, rejectsList_iff s, generatesPorts_iff n⟩

/-- `"127.0.0.1:80x"`. -/
def trailing : Bytes := localhostText ++ [56, 48, 120]

theorem not_denotes_trailing (id : PeerId) : ¬Denotes trailing id := by
  rintro ⟨a, b, c, d, p, -, ⟨hp, -⟩, htext, -⟩
  -- an address ends with a digit
  have hsplit : trailing = (a ++ 46 :: (b ++ 46 :: (c ++ 46 :: (d ++ [58])))) ++ p := by
    simpa using htext
  have hlast := congrArg List.getLast? hsplit
  rw [List.getLast?_append_of_ne_nil _ hp.1] at hlast
  have hmem : (120 : UInt8) ∈ p := List.mem_of_getLast? hlast.symm
  exact absurd (hp.2 120 hmem) (by decide)

theorem not_address_accepted : ¬((∀ s, AcceptsAddress s) ∧ (∀ s, RejectsList s) ∧
    ∀ n, GeneratesPorts n) := by
  rintro ⟨h, -, -⟩
  have hparse : parsePeerId trailing = some ⟨2130706433, 80⟩ := by decide
  exact not_denotes_trailing _ (h trailing _ hparse)

end Address

end StdmlCollective

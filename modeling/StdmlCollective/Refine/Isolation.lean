import StdmlCollective.Refine.Cluster

/-!
# Who consumes a message

A message is consumed when a thread has it in hand or when the handler of its connection
writes it to a posted pointer. A node is *isolated* when in both cases the receive is the one
the message was sent for: it asks for the peer the message comes from, under its name, and
belongs to the section with its time. Every node that stands for a process of a matched network
is so (`NSim.isolated`).

The rest of the module is about messages that nobody consumes: programs that go on after others
have come to an end (`CReach.extend`), and a slot message for a peer that posts no pointer for
it (`CStep.stranded`).
-/

namespace StdmlCollective

open BlockNet (Proc State Matched)

variable {P Id T S O : Type} {ident : P → Id} {write : Addr → Bytes → S → S}

/-- Whatever is being consumed was sent for the receive that consumes it. -/
structure Node.Isolated (x : Node P Id T S O) : Prop where
  mail : ∀ b bs id name add m, x.code = b :: bs → Thread.mailGot id name add m ∈ b.threads →
    m.src = id ∧ m.name = name ∧ m.time = b.time
  slot : ∀ s m ptr, x.handler s = .write m ptr → ∃ b bs, x.code = b :: bs ∧
    Thread.slotWait s m.name ptr ∈ b.threads ∧ m.src = s ∧ m.time = b.time

/-- No message is on its way or waits in a mailbox. -/
def Cluster.Quiet (c : Cluster P Id T S O) : Prop :=
  ∀ p, (∀ s, (c p).conn s = [] ∧ ((c p).handler s).held = []) ∧ ∀ x n, (c p).mailbox x n = []

theorem Cluster.Drained.quiet {c : Cluster P Id T S O} (h : c.Drained) : c.Quiet := by
  intro p
  refine ⟨fun s => ⟨((h p).1 s).1, ?_⟩, fun x n => ((h p).2 x n).1⟩
  rw [((h p).1 s).2]
  rfl

section Isolated

variable [DecidableEq P]

/-- **A node that stands for a process consumes what its receives ask for.** -/
theorem NSim.isolated {x : Node P Id T S O} {a : Proc P T Key Bytes S O} {o : List (ℕ × O)}
    {lk : P → List (BlockNet.Packet T Key Bytes)} (h : NSim ident write x a o lk)
    (hhead : HeadOk a lk) :
    x.Isolated where
  mail := by
    intro b bs id name add m hc hmem
    obtain ⟨l₁, l₂, hl⟩ := List.append_of_mem hmem
    have hc' : x.code = ⟨b.time, l₁ ++ .mailGot id name add m :: l₂⟩ :: bs := by rw [hc, ← hl]
    obtain ⟨D, hD⟩ := h.pipes
    obtain ⟨-, hpkt⟩ := h.hand_head hhead hD hc'
    have hsrc : m.src = id := by
      refine hD.got (id, m) ?_
      rw [Node.hand_eq hc']
      simp [Thread.hand?]
    rw [Message.packet, BlockNet.Packet.mk.injEq, Prod.mk.injEq] at hpkt
    exact ⟨hsrc, hpkt.2.1.1, hpkt.1⟩
  slot := by
    intro s m ptr hh
    obtain ⟨t, l₁, l₂, bs, hc⟩ := Node.mem_waiting (h.slots.busy s m ptr (.inl hh))
    obtain ⟨D, hD⟩ := h.pipes
    obtain ⟨-, -, -, -, -, hpkt⟩ := h.write_head hhead hD hh hc
    have hsrc : m.src = s := by
      apply hD.src s
      rw [hh]
      exact List.mem_cons_self
    rw [Message.packet, BlockNet.Packet.mk.injEq] at hpkt
    exact ⟨_, bs, hc, by simp, hsrc, hpkt.1⟩

end Isolated

variable [DecidableEq P] [DecidableEq Id]

/-! ## Programs that go on -/

/-- The node with more sections after its program. -/
def Node.extend (x : Node P Id T S O) (bs : List (Par P T S O)) : Node P Id T S O :=
  { x with code := x.code ++ bs }

/-- A step does not depend on what comes later. -/
theorem NStep.extend {self : P} {x x' : Node P Id T S O} {e : Event P T}
    (h : NStep ident write self x e x') (bs : List (Par P T S O)) :
    NStep ident write self (x.extend bs) e (x'.extend bs) := by
  have hcode : ∀ {b bs'}, x.code = b :: bs' → (x.extend bs).code = b :: (bs' ++ bs) := by
    intro b bs' hc
    rw [Node.extend, hc, List.cons_append]
  cases h with
  | join hc => exact .join (hcode hc)
  | send hc => exact .send (hcode hc)
  | mailGet hc hq => exact .mailGet (hcode hc) hq
  | mailGot hc => exact .mailGot (hcode hc)
  | slotGet hc hq => exact .slotGet (hcode hc) hq
  | slotWait hc hq => exact .slotWait (hcode hc) hq
  | act hc => exact .act (hcode hc)
  | ret hc => exact .ret (hcode hc)
  | launch hc => exact .launch (hcode hc)
  | header hh hq => exact .header hh hq
  | mailPut hh hq => exact .mailPut hh hq
  | slotTake hh hq => exact .slotTake hh hq
  | body hh => exact .body hh
  | slotPut hh hq => exact .slotPut hh hq

/-- A thread that has not begun was there before the step. -/
theorem NStep.fresh_mem {self : P} {x x' : Node P Id T S O} {e : Event P T}
    (h : NStep ident write self x e x') {b : Par P T S O} (hb : b ∈ x'.code)
    {th : Thread P T S O} (hth : th ∈ b.threads) (hf : th.Fresh) :
    ∃ b' ∈ x.code, th ∈ b'.threads := by
  -- some thread has moved on to `r`, which has begun
  have hmove : ∀ {t l₁ l₂ bs} {th₀ : Thread P T S O} (r : List (Thread P T S O)),
      x.code = ⟨t, l₁ ++ th₀ :: l₂⟩ :: bs → x'.code = ⟨t, l₁ ++ (r ++ l₂)⟩ :: bs →
      (∀ th' ∈ r, ¬th'.Fresh) → ∃ b' ∈ x.code, th ∈ b'.threads := by
    intro t l₁ l₂ bs th₀ r hc hc' hr
    rw [hc'] at hb
    rw [hc]
    rcases List.mem_cons.mp hb with rfl | hb
    · refine ⟨_, List.mem_cons_self, ?_⟩
      rcases List.mem_append.mp hth with hmem | hmem
      · exact List.mem_append_left _ hmem
      · rcases List.mem_append.mp hmem with hmem | hmem
        · exact absurd hf (hr th hmem)
        · exact List.mem_append_right _ (List.mem_cons_of_mem _ hmem)
    · exact ⟨b, List.mem_cons_of_mem _ hb, hth⟩
  cases h with
  | join hc => exact ⟨b, by rw [hc]; exact List.mem_cons_of_mem _ hb, hth⟩
  | send hc | mailGot hc | act hc | ret hc | launch hc => exact hmove [] hc rfl (by simp)
  | slotWait hc hq => exact hmove [] hc rfl (by simp)
  | @mailGet t l₁ l₂ bs id name add m q hc _ =>
      exact hmove [.mailGot id name add m] hc rfl (by simp [Thread.Fresh])
  | @slotGet t l₁ l₂ bs id name ptr hc _ =>
      exact hmove [.slotWait id name ptr] hc rfl (by simp [Thread.Fresh])
  | header | mailPut | slotTake | body | slotPut => exact ⟨b, hb, hth⟩

/-- No thread of the node waits for others to be launched. -/
def Node.Launched (x : Node P Id T S O) : Prop :=
  ∀ b ∈ x.code, ∀ qs u, Thread.launch qs u ∉ b.threads

section Extend

variable [LT T]

/-- Every node with more sections after its program. -/
def Cluster.extend (c : Cluster P Id T S O) (B : P → List (Par P T S O)) : Cluster P Id T S O :=
  fun p => (c p).extend (B p)

theorem CStep.extend {c c' : Cluster P Id T S O} (h : CStep ident write c c')
    (hl : ∀ p, (c p).Launched) (B : P → List (Par P T S O)) :
    CStep ident write (c.extend B) (c'.extend B) ∧ ∀ p, (c' p).Launched := by
  have hkeep : ∀ {p x e}, NStep ident write p (c p) e x → x.Launched := by
    intro p x e hn b hb qs u hmem
    obtain ⟨b', hb', hmem'⟩ := hn.fresh_mem hb hmem trivial
    exact hl p b' hb' qs u hmem'
  have hupd : ∀ {p x e}, NStep ident write p (c p) e x →
      ∀ q, (Function.update c p x q).Launched := by
    intro p x e hn q
    by_cases hq : q = p
    · subst hq
      rw [Function.update_self]
      exact hkeep hn
    · rw [Function.update_of_ne hq]
      exact hl q
  have hext : ∀ (d : Cluster P Id T S O) p x,
      Cluster.extend (Function.update d p x) B =
        Function.update (d.extend B) p (x.extend (B p)) := by
    intro d p x
    funext q
    by_cases hq : q = p
    · subst hq
      simp [Cluster.extend]
    · simp [Cluster.extend, hq]
  cases h with
  | @tau p x hn =>
      refine ⟨?_, hupd hn⟩
      rw [hext]
      exact .tau (hn.extend _)
  | @launch p x qs t hn _ =>
      generalize hy : c p = y at hn
      cases hn with
      | launch hc =>
          refine absurd ?_ (hl p _ (by rw [hy, hc]; exact List.mem_cons_self) qs t)
          simp
  | @send c₁ p id x m hn hc₁ =>
      subst hc₁
      constructor
      · have hstep := CStep.send (c := c.extend B) (p := p) (hn.extend (B p)) rfl
        rw [← hext] at hstep
        rw [hext]
        exact hstep
      · intro q
        by_cases hq : q = id
        · subst hq
          rw [Function.update_self]
          exact hupd hn q
        · rw [Function.update_of_ne hq]
          exact hupd hn q

/-- **A run of programs that wait for no launch is a run of longer programs.** -/
theorem CReach.extend {prog : P → List (Par P T S O)} {σ : P → S} {c : Cluster P Id T S O}
    (h : CReach ident write prog σ c)
    (hl : ∀ p, ∀ b ∈ prog p, ∀ qs u, Thread.launch qs u ∉ b.threads)
    (B : P → List (Par P T S O)) :
    CReach ident write (fun p => prog p ++ B p) σ (c.extend B) := by
  suffices hall : CReach ident write (fun p => prog p ++ B p) σ (c.extend B) ∧
      ∀ p, (c p).Launched from hall.1
  induction h with
  | refl => exact ⟨.refl, hl⟩
  | tail _ hs ih =>
      obtain ⟨hstep, hl'⟩ := hs.extend ih.2 B
      exact ⟨ih.1.tail hstep, hl'⟩

end Extend

/-- A peer whose next thread sends can send now. -/
theorem CReach.send_to [LT T] {prog : P → List (Par P T S O)} {σ : P → S} {c : Cluster P Id T S O}
    (h : CReach ident write prog σ c) {p id : P} (hne : id ≠ p) {t : T} {name : Bytes}
    {flags : UInt32} {data : S → Bytes} {l : List (Thread P T S O)} {bs : List (Par P T S O)}
    (hc : (c p).code = ⟨t, .send id name flags data :: l⟩ :: bs) :
    ∃ c', CReach ident write prog σ c' ∧
      c' id = (c id).receive p ⟨cStr name, flags, wireData (data (c p).store), p, t⟩ ∧
        ∀ v, v ≠ p → v ≠ id → c' v = c v := by
  have hc' : (c p).code = ⟨t, [] ++ .send id name flags data :: l⟩ :: bs := hc
  refine ⟨_, h.tail (.send (.send hc') rfl), ?_, ?_⟩
  · rw [Function.update_self, Function.update_of_ne hne]
  · intro v hp hid
    rw [Function.update_of_ne hid, Function.update_of_ne hp]

/-! ## A message that nobody consumes -/

/-- The thread receives at a slot. -/
def Thread.Slot : Thread P T S O → Prop
  | .slotGet _ _ _ | .slotWait _ _ _ => True
  | _ => False

/-- A slot message of `s` has reached the node, and no thread will ever post a pointer. -/
structure Node.Stranded (x : Node P Id T S O) (s : P) : Prop where
  threads : ∀ b ∈ x.code, ∀ th ∈ b.threads, ¬th.Slot
  waitQ : ∀ y n, x.waitQ y n = []
  handler : (x.handler s).busy = false ∧ (x.handler s).Fits
  left : ∃ m ∈ (x.handler s).held ++ x.conn s, m.waits = true

omit [DecidableEq P] [DecidableEq Id] in
theorem Handler.fits_take (m : Message P T) : (Handler.take m).busy = false ∧
    (Handler.take m).Fits := by
  unfold Handler.take
  split
  · next h => exact ⟨rfl, h⟩
  · next h => exact ⟨rfl, by simpa [Handler.Fits] using h⟩

omit [DecidableEq P] [DecidableEq Id] in
/-- Slot receives do not appear when a thread moves on to `r`. -/
private theorem slots_replace {x : Node P Id T S O} {t : T} {l₁ l₂ : List (Thread P T S O)}
    {th : Thread P T S O} {bs : List (Par P T S O)}
    (h : ∀ b ∈ x.code, ∀ th ∈ b.threads, ¬th.Slot) (hc : x.code = ⟨t, l₁ ++ th :: l₂⟩ :: bs)
    (r : List (Thread P T S O)) (hr : ∀ th ∈ r, ¬th.Slot) :
    ∀ b ∈ (⟨t, l₁ ++ (r ++ l₂)⟩ :: bs : List (Par P T S O)), ∀ th ∈ b.threads, ¬th.Slot := by
  intro b hb th' hth'
  rcases List.mem_cons.mp hb with rfl | hb
  · have hin := h _ (by rw [hc]; exact List.mem_cons_self)
    rcases List.mem_append.mp hth' with hmem | hmem
    · exact hin th' (List.mem_append_left _ hmem)
    · rcases List.mem_append.mp hmem with hmem | hmem
      · exact hr th' hmem
      · exact hin th' (List.mem_append_right _ (List.mem_cons_of_mem _ hmem))
  · exact h b (by rw [hc]; exact List.mem_cons_of_mem _ hb) th' hth'

theorem NStep.stranded {self : P} {x x' : Node P Id T S O} {e : Event P T}
    (h : NStep ident write self x e x') {s : P} (hs : x.Stranded s) : x'.Stranded s := by
  -- a step of a thread that leaves `waitQ` and the handlers alone
  have hthread : ∀ {t l₁ l₂ bs} {th : Thread P T S O} (r : List (Thread P T S O)),
      x.code = ⟨t, l₁ ++ th :: l₂⟩ :: bs → x'.code = ⟨t, l₁ ++ (r ++ l₂)⟩ :: bs →
      (∀ th ∈ r, ¬th.Slot) → x'.waitQ = x.waitQ → x'.handler = x.handler → x'.conn = x.conn →
      x'.Stranded s := by
    intro t l₁ l₂ bs th r hc hc' hr hw hh hcn
    refine ⟨?_, by rw [hw]; exact hs.waitQ, by rw [hh]; exact hs.handler,
      by rw [hh, hcn]; exact hs.left⟩
    rw [hc']
    exact slots_replace hs.threads hc r hr
  have hslot : ∀ {t l₁ l₂ bs} {th : Thread P T S O}, x.code = ⟨t, l₁ ++ th :: l₂⟩ :: bs →
      th.Slot → False := by
    intro t l₁ l₂ bs th hc hth
    exact hs.threads _ (by rw [hc]; exact List.mem_cons_self) th (by simp) hth
  -- a step of the handler of another connection
  have hother : ∀ {s' : P} {v : Handler P T}, s' ≠ s →
      (Function.update x.handler s' v) s = x.handler s := by
    intro s' v hne
    rw [Function.update_of_ne hne.symm]
  cases h with
  | join hc =>
      exact ⟨fun b hb => hs.threads b (by rw [hc]; exact List.mem_cons_of_mem _ hb), hs.waitQ,
        hs.handler, hs.left⟩
  | send hc | mailGot hc | act hc | ret hc | launch hc =>
      exact hthread [] hc rfl (by simp) rfl rfl rfl
  | @mailGet t l₁ l₂ bs id name add m q hc _ =>
      exact hthread [.mailGot id name add m] hc rfl (by simp [Thread.Slot]) rfl rfl rfl
  | slotGet hc _ => exact absurd trivial fun h => hslot hc h
  | slotWait hc _ => exact absurd trivial fun h => hslot hc h
  | @header s' m ms hh hcn =>
      refine ⟨hs.threads, hs.waitQ, ?_, ?_⟩
      · by_cases hne : s' = s
        · subst hne
          simpa using Handler.fits_take m
        · simpa [hother hne] using hs.handler
      · by_cases hne : s' = s
        · subst hne
          have hleft := hs.left
          rw [hh, hcn] at hleft
          simpa using hleft
        · simpa [hother hne, Function.update_of_ne (Ne.symm hne)] using hs.left
  | @mailPut s' m hh _ =>
      refine ⟨hs.threads, hs.waitQ, ?_, ?_⟩
      · by_cases hne : s' = s
        · subst hne
          simp [Handler.busy, Handler.Fits]
        · simpa [hother hne] using hs.handler
      · by_cases hne : s' = s
        · subst hne
          obtain ⟨m', hm', hw⟩ := hs.left
          have hfits := hs.handler.2
          rw [hh] at hm' hfits
          rcases List.mem_append.mp hm' with hm' | hm'
          · obtain rfl := List.mem_singleton.mp hm'
            exact absurd (hfits.symm.trans hw) (by simp)
          · exact ⟨m', by simpa using hm', hw⟩
        · simpa [hother hne] using hs.left
  | slotTake hh hq =>
      rw [hs.waitQ] at hq
      exact absurd hq.symm (List.cons_ne_nil _ _)
  | @body s' m ptr hh | @slotPut s' m ptr hh _ =>
      have hne : s' ≠ s := by
        intro heq
        subst heq
        have hbusy := hs.handler.1
        rw [hh] at hbusy
        exact absurd hbusy (by simp [Handler.busy])
      refine ⟨hs.threads, hs.waitQ, ?_, ?_⟩
      · simpa [hother hne] using hs.handler
      · simpa [hother hne] using hs.left

/-- **A stranded message stays where it is.** -/
theorem CStep.stranded [LT T] {c c' : Cluster P Id T S O} (h : CStep ident write c c') {s d : P}
    (hs : (c d).Stranded s) : (c' d).Stranded s := by
  have hupd : ∀ {p x e}, NStep ident write p (c p) e x →
      (Function.update c p x d).Stranded s := by
    intro p x e hn
    by_cases hd : d = p
    · subst hd
      rw [Function.update_self]
      exact hn.stranded hs
    · rwa [Function.update_of_ne hd]
  cases h with
  | tau hn => exact hupd hn
  | launch hn _ => exact hupd hn
  | @send c₁ p id x m hn hc₁ =>
      subst hc₁
      have h₁ := hupd hn
      by_cases hd : d = id
      · subst hd
        rw [Function.update_self]
        refine ⟨h₁.threads, h₁.waitQ, h₁.handler, ?_⟩
        obtain ⟨m', hm', hw⟩ := h₁.left
        refine ⟨m', ?_, hw⟩
        simp only [Node.receive]
        by_cases hp : s = p
        · subst hp
          rw [Function.update_self _ _ (Node.conn _), ← List.append_assoc]
          exact List.mem_append_left _ hm'
        · rwa [Function.update_of_ne hp _ (Node.conn _)]
      · rwa [Function.update_of_ne hd]

omit [DecidableEq P] [DecidableEq Id] in
theorem Node.Stranded.not_quiet {c : Cluster P Id T S O} {s d : P} (h : (c d).Stranded s) :
    ¬c.Quiet := by
  intro hq
  obtain ⟨m, hm, -⟩ := h.left
  rw [((hq d).1 s).1, ((hq d).1 s).2] at hm
  exact absurd hm List.not_mem_nil

end StdmlCollective

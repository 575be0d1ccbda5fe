import StdmlCollective.Refine.Tasks

/-!
# Buffers that are posted early

A receive into a buffer posts its pointer when it comes to it. A peer can also post the pointer
before, and only look for it in `recvQ` when it comes to the receive; then a handler may write the
buffer while the peer is still busy with what comes before.

Nothing is gained and nothing is lost by that, as long as a message that waits for a buffer finds
the peer with nothing else to do before the receive: what the early peer does is what a peer does
whose handler takes the pointer only when the peer has come to the receive (`Early`).
-/

namespace StdmlCollective

variable {P Id T S O : Type}

/-- A receive into a buffer. -/
def Thread.slotted : Thread P T S O → Bool
  | .slotGet _ _ _ | .slotWait _ _ _ => true
  | _ => false

/-- No section receives into a buffer. -/
def SlotFree (bs : List (Par P T S O)) : Prop := ∀ b ∈ bs, ∀ th ∈ b.threads, th.slotted = false

/-- At most one section receives into a buffer, and that is all it does. -/
def OneSlot (bs : List (Par P T S O)) : Prop :=
  SlotFree bs ∨ ∃ pre t s name ptr post,
    bs = pre ++ ⟨t, [.slotGet s name ptr]⟩ :: post ∧ SlotFree pre ∧ SlotFree post

theorem SlotFree.tail {b : Par P T S O} {bs : List (Par P T S O)} (h : SlotFree (b :: bs)) :
    SlotFree bs :=
  fun b' hb' => h b' (List.mem_cons_of_mem _ hb')

/-- There is one place where it does. -/
theorem split_unique {pre post pre' post' : List (Par P T S O)} {t t' : T} {s s' : P}
    {n n' : Bytes} {ptr ptr' : Addr} (hpre : SlotFree pre) (hpost : SlotFree post)
    (h : pre ++ ⟨t, [.slotGet s n ptr]⟩ :: post = pre' ++ ⟨t', [.slotGet s' n' ptr']⟩ :: post') :
    pre = pre' ∧ (⟨t, [.slotGet s n ptr]⟩ : Par P T S O) = ⟨t', [.slotGet s' n' ptr']⟩ ∧
      post = post' := by
  have hslot : ∀ {l : List (Par P T S O)}, SlotFree l → ⟨t', [.slotGet s' n' ptr']⟩ ∉ l := by
    intro l hl hmem
    exact absurd (hl _ hmem _ (List.mem_singleton_self _)) (by simp [Thread.slotted])
  induction pre generalizing pre' with
  | nil =>
      cases pre' with
      | nil =>
          obtain ⟨h₁, h₂⟩ := List.cons.inj h
          exact ⟨rfl, h₁, h₂⟩
      | cons b pre' =>
          obtain ⟨-, rfl⟩ := List.cons.inj h
          exact absurd (List.mem_append_right _ List.mem_cons_self) (hslot hpost)
  | cons b pre ih =>
      cases pre' with
      | nil =>
          obtain ⟨rfl, -⟩ := List.cons.inj h
          exact absurd List.mem_cons_self (hslot hpre)
      | cons b' pre' =>
          obtain ⟨rfl, htail⟩ := List.cons.inj h
          obtain ⟨rfl, h₁, h₂⟩ := ih hpre.tail htail
          exact ⟨rfl, h₁, h₂⟩

/-- Neither handlers nor queues are at work on a buffer. -/
structure Quiet (y : Node P Id T S O) : Prop where
  waitQ : ∀ id name, y.waitQ id name = []
  recvQ : ∀ id name, y.recvQ id name = []
  handler : ∀ s, (y.handler s).busy = false

/-- The section that receives into a buffer. -/
structure SlotAt (code pre : List (Par P T S O)) (t : T) (s : P) (name : Bytes) (ptr : Addr)
    (post : List (Par P T S O)) : Prop where
  code : code = pre ++ ⟨t, [.slotGet s name ptr]⟩ :: post
  pre : SlotFree pre
  post : SlotFree post

/-- The same peer, when the pointer has been posted. -/
def Node.early (y : Node P Id T S O) (pre : List (Par P T S O)) (t : T) (s : P) (name : Bytes)
    (ptr : Addr) (post : List (Par P T S O)) : Node P Id T S O :=
  { y with code := pre ++ ⟨t, [.slotWait s name ptr]⟩ :: post }

section Early

variable [DecidableEq P] [DecidableEq Id] (ident : P → Id) (write : Addr → Bytes → S → S)

/-- Somebody posts the pointer of a later section. -/
inductive Post : Node P Id T S O → Node P Id T S O → Prop where
  | mk {x : Node P Id T S O} {pre post : List (Par P T S O)} {t : T} {id : P} {name : Bytes}
      {ptr : Addr} : x.code = pre ++ ⟨t, [.slotGet id name ptr]⟩ :: post →
      (x.waitQ (ident id) name).length < cap →
      Post x { x with
        code := pre ++ ⟨t, [.slotWait id name ptr]⟩ :: post
        waitQ := setBox x.waitQ (ident id) name (x.waitQ (ident id) name ++ [ptr]) }

/-- The early peer `x` and the late peer `y`: before the pointer is posted they are the same;
while the handler of the early one takes the pointer, writes the buffer and puts the pointer in
`recvQ`, that of the late one waits with the message. -/
inductive Early : Node P Id T S O → Node P Id T S O → Prop where
  | same {y : Node P Id T S O} : Quiet y → OneSlot y.code → Early y y
  | posted {y : Node P Id T S O} {pre post : List (Par P T S O)} {t : T} {s : P} {name : Bytes}
      {ptr : Addr} : Quiet y → SlotAt y.code pre t s name ptr post →
      Early { y.early pre t s name ptr post with
        waitQ := setBox y.waitQ (ident s) name [ptr] } y
  | taken {y : Node P Id T S O} {pre post : List (Par P T S O)} {t : T} {s : P}
      {ptr : Addr} {m : Message P T} : Quiet y → SlotAt y.code pre t s m.name ptr post →
      y.handler s = .slot m →
      Early { y.early pre t s m.name ptr post with
        handler := Function.update y.handler s (.write m ptr) } y
  | written {y : Node P Id T S O} {pre post : List (Par P T S O)} {t : T} {s : P}
      {ptr : Addr} {m : Message P T} : Quiet y → SlotAt y.code pre t s m.name ptr post →
      y.handler s = .slot m →
      Early { y.early pre t s m.name ptr post with
        handler := Function.update y.handler s (.done m ptr)
        store := write ptr m.data y.store } y
  | stored {y : Node P Id T S O} {pre post : List (Par P T S O)} {t : T} {s : P}
      {ptr : Addr} {m : Message P T} : Quiet y → SlotAt y.code pre t s m.name ptr post →
      y.handler s = .slot m →
      Early { y.early pre t s m.name ptr post with
        handler := Function.update y.handler s .idle
        store := write ptr m.data y.store
        recvQ := setBox y.recvQ (ident s) m.name [ptr] } y

end Early

/-! ## One step -/

section Step

variable [DecidableEq P] [DecidableEq Id] {ident : P → Id} {write : Addr → Bytes → S → S} {self : P}

/-- A section whose threads do not receive into buffers. -/
def Par.Plain (b : Par P T S O) : Prop := ∀ th ∈ b.threads, th.slotted = false

omit [DecidableEq P] [DecidableEq Id] in
theorem OneSlot.head {b : Par P T S O} {bs : List (Par P T S O)} (h : OneSlot (b :: bs)) :
    (b.Plain ∧ OneSlot bs) ∨
      ∃ t s name ptr, b = ⟨t, [.slotGet s name ptr]⟩ ∧ SlotFree bs := by
  rcases h with h | ⟨pre, t, s, name, ptr, post, heq, hpre, hpost⟩
  · exact .inl ⟨h b List.mem_cons_self, .inl h.tail⟩
  · cases pre with
    | nil =>
        obtain ⟨rfl, rfl⟩ := List.cons.inj heq
        exact .inr ⟨t, s, name, ptr, rfl, hpost⟩
    | cons b' pre =>
        obtain ⟨rfl, rfl⟩ := List.cons.inj heq
        exact .inl ⟨hpre b List.mem_cons_self,
          .inr ⟨pre, t, s, name, ptr, post, rfl, hpre.tail, hpost⟩⟩

omit [DecidableEq P] [DecidableEq Id] in
theorem OneSlot.cons {hd bs : List (Par P T S O)} (hb : SlotFree hd) (h : OneSlot bs) :
    OneSlot (hd ++ bs) := by
  have happ : ∀ {l : List (Par P T S O)}, SlotFree l → SlotFree (hd ++ l) := by
    intro l hl b' hb'
    rcases List.mem_append.mp hb' with hb' | hb'
    · exact hb b' hb'
    · exact hl b' hb'
  rcases h with h | ⟨pre, t, s, name, ptr, post, rfl, hpre, hpost⟩
  · exact .inl (happ h)
  · exact .inr ⟨hd ++ pre, t, s, name, ptr, post, by simp, happ hpre, hpost⟩

/-- What a step of a thread that does not receive into a buffer does: the first section `b`
becomes `hd`, and a peer that has the same section before it, the same memory and the same
messages can do the same. -/
theorem NStep.mirror {x x' : Node P Id T S O} {e : Event P T}
    (hs : NStep ident write self x e x') {b : Par P T S O} {bs : List (Par P T S O)}
    (hx : x.code = b :: bs) (hb : b.Plain) :
    (∃ hd st mb rt, SlotFree hd ∧
      x' = { x with code := hd ++ bs, store := st, mailbox := mb, returned := rt } ∧
      ∀ (y : Node P Id T S O) (bs' : List (Par P T S O)), y.code = b :: bs' → y.store = x.store →
        y.mailbox = x.mailbox → y.returned = x.returned → NStep ident write self y e
          { y with code := hd ++ bs', store := st, mailbox := mb, returned := rt }) ∨
      (e = .tau ∧ x'.code = x.code) := by
  have hsub : ∀ {t : T} {l₁ l₂ : List (Thread P T S O)} {th : Thread P T S O},
      b = ⟨t, l₁ ++ th :: l₂⟩ → SlotFree [⟨t, l₁ ++ l₂⟩] := by
    intro t l₁ l₂ th hbt b' hb' th' hth'
    obtain rfl := List.mem_singleton.mp hb'
    apply hb th'
    rw [hbt]
    rcases List.mem_append.mp hth' with h | h
    · exact List.mem_append_left _ h
    · exact List.mem_append_right _ (List.mem_cons_of_mem _ h)
  have hnot : ∀ {t : T} {l₁ l₂ : List (Thread P T S O)} {th : Thread P T S O},
      b = ⟨t, l₁ ++ th :: l₂⟩ → th.slotted = false := by
    intro t l₁ l₂ th hbt
    apply hb th
    rw [hbt]
    simp
  cases hs with
  | @join _ _ hc =>
      obtain ⟨rfl, rfl⟩ := List.cons.inj (hx.symm.trans hc)
      refine .inl ⟨[], x.store, x.mailbox, x.returned, fun _ h => absurd h List.not_mem_nil, rfl,
        ?_⟩
      intro y bs' hy hst hmb hrt
      rw [← hst, ← hmb, ← hrt]
      exact .join hy
  | @send t l₁ l₂ _ id name flags data hc =>
      obtain ⟨hbt, rfl⟩ := List.cons.inj (hx.symm.trans hc)
      refine .inl ⟨[⟨t, l₁ ++ l₂⟩], x.store, x.mailbox, x.returned, hsub hbt, rfl, ?_⟩
      intro y bs' hy hst hmb hrt
      rw [hbt] at hy
      rw [← hst, ← hmb, ← hrt]
      exact .send hy
  | @mailGet t l₁ l₂ _ id name add m q hc hbox =>
      obtain ⟨hbt, rfl⟩ := List.cons.inj (hx.symm.trans hc)
      refine .inl ⟨[⟨t, l₁ ++ .mailGot id name add m :: l₂⟩], x.store, _, x.returned, ?_, rfl, ?_⟩
      · intro b' hb' th hth
        obtain rfl := List.mem_singleton.mp hb'
        rcases List.mem_append.mp hth with h | h
        · exact hsub hbt _ List.mem_cons_self th (List.mem_append_left _ h)
        · rcases List.mem_cons.mp h with rfl | h
          · rfl
          · exact hsub hbt _ List.mem_cons_self th (List.mem_append_right _ h)
      · intro y bs' hy hst hmb hrt
        rw [hbt] at hy
        rw [← hmb] at hbox
        rw [← hst, ← hmb, ← hrt]
        exact .mailGet hy hbox
  | @mailGot t l₁ l₂ _ id name add m hc =>
      obtain ⟨hbt, rfl⟩ := List.cons.inj (hx.symm.trans hc)
      refine .inl ⟨[⟨t, l₁ ++ l₂⟩], _, x.mailbox, x.returned, hsub hbt, rfl, ?_⟩
      intro y bs' hy hst hmb hrt
      rw [hbt] at hy
      rw [← hst, ← hmb, ← hrt]
      exact .mailGot hy
  | slotGet hc _ =>
      obtain ⟨hbt, rfl⟩ := List.cons.inj (hx.symm.trans hc)
      exact absurd (hnot hbt) (by simp [Thread.slotted])
  | slotWait hc _ =>
      obtain ⟨hbt, rfl⟩ := List.cons.inj (hx.symm.trans hc)
      exact absurd (hnot hbt) (by simp [Thread.slotted])
  | @act t l₁ l₂ _ f hc =>
      obtain ⟨hbt, rfl⟩ := List.cons.inj (hx.symm.trans hc)
      refine .inl ⟨[⟨t, l₁ ++ l₂⟩], _, x.mailbox, x.returned, hsub hbt, rfl, ?_⟩
      intro y bs' hy hst hmb hrt
      rw [hbt] at hy
      rw [← hst, ← hmb, ← hrt]
      exact .act hy
  | @ret t l₁ l₂ _ i f hc =>
      obtain ⟨hbt, rfl⟩ := List.cons.inj (hx.symm.trans hc)
      refine .inl ⟨[⟨t, l₁ ++ l₂⟩], x.store, x.mailbox, _, hsub hbt, rfl, ?_⟩
      intro y bs' hy hst hmb hrt
      rw [hbt] at hy
      rw [← hst, ← hmb, ← hrt]
      exact .ret hy
  | @launch t u l₁ l₂ _ qs hc =>
      obtain ⟨hbt, rfl⟩ := List.cons.inj (hx.symm.trans hc)
      refine .inl ⟨[⟨t, l₁ ++ l₂⟩], x.store, x.mailbox, x.returned, hsub hbt, rfl, ?_⟩
      intro y bs' hy hst hmb hrt
      rw [hbt] at hy
      rw [← hst, ← hmb, ← hrt]
      exact .launch hy
  | header | mailPut | slotTake | body | slotPut => exact .inr ⟨rfl, rfl⟩

end Step

/-! ## The early peer and the late one -/

/-- What is known of a late peer whose handler waits with a message for a buffer: it is the last
one from its sender, and the peer has nothing to do before it receives. -/
def Attends (y : Node P Id T S O) : Prop :=
  ∀ s m, y.handler s = .slot m → y.conn s = [] ∧ ∀ {pre t name ptr post},
    SlotAt y.code pre t s name ptr post → ∀ b ∈ pre, b.threads = []

section Simulation

variable [DecidableEq P] [DecidableEq Id] {ident : P → Id} {write : Addr → Bytes → S → S} {self : P}
  {x x' y : Node P Id T S O} {e : Event P T}

variable (ident write self) in
/-- The late peer follows a step of the early one. -/
def Follows (e : Event P T) (x' y : Node P Id T S O) : Prop :=
  ∃ y', Early ident write x' y' ∧
    ((e = .tau ∧ NRun ident write self y y') ∨ NStep ident write self y e y')

theorem Follows.stay (h : Early ident write x' y) : Follows ident write self .tau x' y :=
  ⟨y, h, .inl ⟨rfl, .refl⟩⟩

omit [DecidableEq P] [DecidableEq Id] in
theorem Quiet.not_busy (h : Quiet y) {s : P} {hd : Handler P T} (hh : y.handler s = hd)
    (hb : hd.busy = true) : False := by
  have hq := h.handler s
  rw [hh, hb] at hq
  cases hq

omit [DecidableEq Id] in
/-- The only handler that is at work on a buffer is the one that has been changed. -/
theorem Quiet.of_update (h : Quiet y) {s s' : P} {v hd : Handler P T}
    (hh : Function.update y.handler s' v s = hd) (hb : hd.busy = true) : s' = s ∧ v = hd := by
  by_cases hs : s = s'
  · subst hs
    exact ⟨rfl, (Function.update_self s v y.handler).symm.trans hh⟩
  · exact (h.not_busy ((Function.update_of_ne hs _ _).symm.trans hh) hb).elim

omit [DecidableEq Id] in
/-- A handler moves on, to a state in which it is not at work on a buffer either. -/
theorem Quiet.update (h : Quiet y) {s : P} {v : Handler P T} (hv : v.busy = false)
    (cn : P → List (Message P T)) (mb : Id → Bytes → List (Message P T)) :
    Quiet { y with handler := Function.update y.handler s v, conn := cn, mailbox := mb } where
  waitQ := h.waitQ
  recvQ := h.recvQ
  handler s' := by
    change (Function.update y.handler s v s').busy = false
    by_cases hs : s' = s
    · subst hs
      rw [Function.update_self, hv]
    · rw [Function.update_of_ne hs, h.handler s']

theorem Early.conn (h : Early ident write x y) : x.conn = y.conn := by
  cases h <;> rfl

theorem Early.mailbox (h : Early ident write x y) : x.mailbox = y.mailbox := by
  cases h <;> rfl

/-- The handlers are the same, but for one that the late peer lets wait. -/
theorem Early.handler (h : Early ident write x y) (s : P) :
    x.handler s = y.handler s ∨ ∃ m, y.handler s = .slot m ∧
      (x.handler s = .idle ∨ ∃ ptr, x.handler s = .write m ptr ∨ x.handler s = .done m ptr) := by
  have hupd : ∀ (s' : P) (v : Handler P T), s ≠ s' →
      Function.update y.handler s' v s = y.handler s := fun s' v hs => Function.update_of_ne hs _ _
  cases h with
  | same | posted => exact .inl rfl
  | @taken _ _ _ _ s' ptr m _ _ hm =>
      by_cases hs : s = s'
      · subst hs
        exact .inr ⟨m, hm, .inr ⟨ptr, .inl (Function.update_self _ _ _)⟩⟩
      · exact .inl (hupd s' _ hs)
  | @written _ _ _ _ s' ptr m _ _ hm =>
      by_cases hs : s = s'
      · subst hs
        exact .inr ⟨m, hm, .inr ⟨ptr, .inr (Function.update_self _ _ _)⟩⟩
      · exact .inl (hupd s' _ hs)
  | @stored _ _ _ _ s' ptr m _ _ hm =>
      by_cases hs : s = s'
      · subst hs
        exact .inr ⟨m, hm, .inl (Function.update_self _ _ _)⟩
      · exact .inl (hupd s' _ hs)

/-- A handler that is in the same state in both peers moves. -/
theorem Early.other (h : Early ident write x y) {s : P} {v : Handler P T} (hv : v.busy = false)
    (hsame : x.handler s = y.handler s) (cn : P → List (Message P T))
    (mb : Id → Bytes → List (Message P T)) :
    Early ident write
      { x with handler := Function.update x.handler s v, conn := cn, mailbox := mb }
      { y with handler := Function.update y.handler s v, conn := cn, mailbox := mb } := by
  have hne : ∀ {s' : P} {v' : Handler P T} {m : Message P T}, y.handler s' = .slot m →
      v' ≠ .slot m → Function.update y.handler s' v' s = y.handler s → s ≠ s' := by
    intro s' v' m hm hv' hupd hs
    subst hs
    rw [Function.update_self, hm] at hupd
    exact hv' hupd
  have hkeep : ∀ {s' : P} {m : Message P T}, y.handler s' = .slot m → s ≠ s' →
      Function.update y.handler s v s' = .slot m := by
    intro s' m hm hs
    rw [Function.update_of_ne hs.symm, hm]
  cases h with
  | same hq hslot => exact .same (hq.update hv cn mb) hslot
  | posted hq hslot => exact .posted (hq.update hv cn mb) hslot
  | taken hq hslot hm =>
      have hs := hne hm (by simp) hsame
      have hearly : Early ident write _ _ := .taken (hq.update (s := s) hv cn mb)
        hslot (hkeep hm hs)
      simpa only [Node.early, Function.update_comm hs] using hearly
  | written hq hslot hm =>
      have hs := hne hm (by simp) hsame
      have hearly : Early ident write _ _ := .written (hq.update (s := s) hv cn mb)
        hslot (hkeep hm hs)
      simpa only [Node.early, Function.update_comm hs] using hearly
  | stored hq hslot hm =>
      have hs := hne hm (by simp) hsame
      have hearly : Early ident write _ _ := .stored (hq.update (s := s) hv cn mb)
        hslot (hkeep hm hs)
      simpa only [Node.early, Function.update_comm hs] using hearly

omit [DecidableEq P] in
theorem setBox_nil {α : Type} {b : Id → Bytes → List α} (hb : ∀ id name, b id name = []) (id : Id)
    (name : Bytes) (v : List α) : setBox (setBox b id name v) id name [] = b := by
  funext id' name'
  by_cases hk : id' = id ∧ name' = name
  · obtain ⟨rfl, rfl⟩ := hk
    rw [setBox_self, hb]
  · rw [setBox_ne _ _ _ _ hk, setBox_ne _ _ _ _ hk]

/-- A handler of the early peer moves. -/
theorem Early.handler_step (hi : Function.Injective ident) (hat : Attends y)
    (h : Early ident write x y) (hs : NStep ident write self x .tau x') (hcode : x'.code = x.code) :
    Follows ident write self .tau x' y := by
  cases hs with
  | join hc =>
      have hlen := congrArg List.length hcode
      rw [hc] at hlen
      simp at hlen
  | mailGet hc | slotGet hc | mailGot hc | slotWait hc | act hc | ret hc =>
      rw [hc] at hcode
      simp at hcode
  | @header s m ms hh hcn =>
      rcases h.handler s with hsame | ⟨m', hm', -⟩
      · have hbusy : (Handler.take m).busy = false := by
          unfold Handler.take
          split <;> rfl
        refine ⟨_, h.other hbusy hsame (Function.update x.conn s ms) x.mailbox, .inr ?_⟩
        rw [h.conn, h.mailbox]
        rw [hsame] at hh
        rw [h.conn] at hcn
        exact .header hh hcn
      · rw [h.conn, (hat s m' hm').1] at hcn
        cases hcn
  | @mailPut s m hh hcap =>
      have hsame : x.handler s = y.handler s := by
        rcases h.handler s with hsame | ⟨m', -, hidle | ⟨ptr, hw | hw⟩⟩
        · exact hsame
        · rw [hh] at hidle
          cases hidle
        · rw [hh] at hw
          cases hw
        · rw [hh] at hw
          cases hw
      refine ⟨_, h.other (v := .idle) rfl hsame x.conn
        (setBox x.mailbox (ident s) m.name (x.mailbox (ident s) m.name ++ [m])), .inr ?_⟩
      rw [h.conn, h.mailbox]
      rw [hsame] at hh
      rw [h.mailbox] at hcap
      exact .mailPut hh hcap
  | @slotTake s m ptr q hh hwq =>
      cases h with
      | same hq _ =>
          rw [hq.waitQ] at hwq
          cases hwq
      | @posted _ pre post t s' name ptr' hq hslot =>
          by_cases hk : ident s = ident s' ∧ m.name = name
          · obtain ⟨hid, rfl⟩ := hk
            obtain rfl := hi hid
            simp only [setBox_self, List.cons.injEq] at hwq
            obtain ⟨rfl, rfl⟩ := hwq
            apply Follows.stay
            have hearly : Early ident write _ _ := .taken hq hslot hh
            simpa only [Node.early, setBox_nil hq.waitQ] using hearly
          · simp only [setBox_ne _ _ _ _ hk, hq.waitQ] at hwq
            cases hwq
      | taken hq _ _ | written hq _ _ | stored hq _ _ =>
          have hnil : y.waitQ (ident s) m.name = ptr :: q := hwq
          rw [hq.waitQ] at hnil
          cases hnil
  | @body s m ptr hh =>
      cases h with
      | same hq _ => exact (hq.not_busy hh rfl).elim
      | posted hq _ => exact (hq.not_busy (s := s) hh rfl).elim
      | @taken _ pre post t s' ptr' m' hq hslot hm =>
          obtain ⟨rfl, heq⟩ := hq.of_update hh rfl
          obtain ⟨rfl, rfl⟩ := Handler.write.inj heq
          apply Follows.stay
          have hearly : Early ident write _ _ := .written hq hslot hm
          simpa only [Node.early, Function.update_idem] using hearly
      | written hq | stored hq =>
          obtain ⟨-, heq⟩ := hq.of_update hh rfl
          cases heq
  | @slotPut s m ptr hh hcap =>
      cases h with
      | same hq _ => exact (hq.not_busy hh rfl).elim
      | posted hq _ => exact (hq.not_busy (s := s) hh rfl).elim
      | @written _ pre post t s' ptr' m' hq hslot hm =>
          obtain ⟨rfl, heq⟩ := hq.of_update hh rfl
          obtain ⟨rfl, rfl⟩ := Handler.done.inj heq
          apply Follows.stay
          have hearly : Early ident write _ _ := .stored hq hslot hm
          simpa only [Node.early, Function.update_idem, hq.recvQ, List.nil_append] using hearly
      | taken hq | stored hq =>
          obtain ⟨-, heq⟩ := hq.of_update hh rfl
          cases heq

/-! ### Threads -/

section Thread

omit [DecidableEq P] in
theorem singleton_of_append {l₁ l₂ : List (Thread P T S O)} {th th' : Thread P T S O}
    (h : [th] = l₁ ++ th' :: l₂) : l₁ = [] ∧ l₂ = [] ∧ th = th' := by
  cases l₁ with
  | nil =>
      obtain ⟨rfl, rfl⟩ := List.cons.inj h
      exact ⟨rfl, rfl, rfl⟩
  | cons a l₁ =>
      have hlen := congrArg List.length h
      simp at hlen

variable {t : T} {bs : List (Par P T S O)}

/-- Nothing is left to do in the section. -/
theorem NStep.of_empty (hs : NStep ident write self x e x') (hc : x.code = ⟨t, []⟩ :: bs)
    (hmove : ¬(e = .tau ∧ x'.code = x.code)) : e = .tau ∧ x' = { x with code := bs } := by
  have hno : ∀ {t' : T} {l₁ l₂ : List (Thread P T S O)} {th : Thread P T S O}
      {bs' : List (Par P T S O)}, x.code = ⟨t', l₁ ++ th :: l₂⟩ :: bs' → False := by
    intro t' l₁ l₂ th bs' h
    rw [hc] at h
    simp at h
  cases hs with
  | join h =>
      rw [hc] at h
      obtain ⟨-, rfl⟩ := List.cons.inj h
      exact ⟨rfl, rfl⟩
  | send h | mailGet h | mailGot h | slotGet h | slotWait h | act h | ret h | launch h =>
      exact (hno h).elim
  | header | mailPut | slotTake | body | slotPut => exact absurd ⟨rfl, rfl⟩ hmove

/-- A receive into a buffer is all there is in the section. -/
theorem NStep.of_slot {th : Thread P T S O} (hs : NStep ident write self x e x')
    (hc : x.code = ⟨t, [th]⟩ :: bs) (hth : th.slotted = true)
    (hmove : ¬(e = .tau ∧ x'.code = x.code)) :
    e = .tau ∧ ∃ s name ptr, (th = .slotGet s name ptr ∧
        (x.waitQ (ident s) name).length < cap ∧
        x' = { x with
          code := ⟨t, [.slotWait s name ptr]⟩ :: bs
          waitQ := setBox x.waitQ (ident s) name (x.waitQ (ident s) name ++ [ptr]) }) ∨
      ∃ q, th = .slotWait s name ptr ∧ x.recvQ (ident s) name = ptr :: q ∧
        x' = { x with code := ⟨t, []⟩ :: bs, recvQ := setBox x.recvQ (ident s) name q } := by
  have hone : ∀ {t' : T} {l₁ l₂ : List (Thread P T S O)} {th' : Thread P T S O}
      {bs' : List (Par P T S O)}, x.code = ⟨t', l₁ ++ th' :: l₂⟩ :: bs' →
      t' = t ∧ l₁ = [] ∧ l₂ = [] ∧ th = th' ∧ bs' = bs := by
    intro t' l₁ l₂ th' bs' h
    rw [hc] at h
    simp only [List.cons.injEq, Par.mk.injEq] at h
    obtain ⟨⟨rfl, h⟩, rfl⟩ := h
    obtain ⟨rfl, rfl, rfl⟩ := singleton_of_append h
    exact ⟨rfl, rfl, rfl, rfl, rfl⟩
  cases hs with
  | join h =>
      rw [hc] at h
      simp at h
  | send h | mailGet h | mailGot h | act h | ret h | launch h =>
      obtain ⟨-, -, -, rfl, -⟩ := hone h
      simp [Thread.slotted] at hth
  | slotGet h hcap =>
      obtain ⟨rfl, rfl, rfl, rfl, rfl⟩ := hone h
      exact ⟨rfl, _, _, _, .inl ⟨rfl, hcap, rfl⟩⟩
  | slotWait h hq =>
      obtain ⟨rfl, rfl, rfl, rfl, rfl⟩ := hone h
      exact ⟨rfl, _, _, _, .inr ⟨_, rfl, hq, rfl⟩⟩
  | header | mailPut | slotTake | body | slotPut => exact absurd ⟨rfl, rfl⟩ hmove

/-- A thread that waits for a buffer does not move while none is given back. -/
theorem NStep.not_slotWait {s : P} {name : Bytes} {ptr : Addr} (hs : NStep ident write self x e x')
    (hc : x.code = ⟨t, [.slotWait s name ptr]⟩ :: bs) (hempty : ∀ y n, x.recvQ y n = [])
    (hmove : ¬(e = .tau ∧ x'.code = x.code)) : False := by
  obtain ⟨-, s', name', ptr', ⟨hth, -⟩ | ⟨q, -, hrq, -⟩⟩ := hs.of_slot hc rfl hmove
  · cases hth
  · rw [hempty] at hrq
    cases hrq

end Thread

/-- The late peer does at once what the early one has done in the meantime. -/
theorem Quiet.catch_up (hq : Quiet y) {t : T} {s : P} {ptr : Addr} {m : Message P T}
    {post : List (Par P T S O)} (hc : y.code = ⟨t, [.slotGet s m.name ptr]⟩ :: post)
    (hm : y.handler s = .slot m) :
    NRun ident write self y { y with
      code := ⟨t, []⟩ :: post
      handler := Function.update y.handler s .idle
      store := write ptr m.data y.store } := by
  have hc' : y.code = ⟨t, [] ++ .slotGet s m.name ptr :: []⟩ :: post := hc
  let z : Node P Id T S O := { y with code := ⟨t, [] ++ .slotWait s m.name ptr :: []⟩ :: post }
  have hget : NStep ident write self y .tau
      { z with waitQ := setBox y.waitQ (ident s) m.name [ptr] } := by
    have h : NStep ident write self y .tau _ :=
      .slotGet hc' (by rw [hq.waitQ]; exact Nat.one_pos)
    simpa only [hq.waitQ, List.nil_append, z] using h
  have htake : NStep ident write self { z with waitQ := setBox y.waitQ (ident s) m.name [ptr] } .tau
      { z with handler := Function.update y.handler s (.write m ptr) } := by
    have h : NStep ident write self { z with waitQ := setBox y.waitQ (ident s) m.name [ptr] } .tau
        _ := .slotTake hm (setBox_self _ _ _ _)
    simpa only [setBox_nil hq.waitQ] using h
  have hbody : NStep ident write self
      { z with handler := Function.update y.handler s (.write m ptr) } .tau
      { z with
        handler := Function.update y.handler s (.done m ptr)
        store := write ptr m.data y.store } := by
    have h : NStep ident write self
        { z with handler := Function.update y.handler s (.write m ptr) } .tau _ :=
      .body (Function.update_self _ _ _)
    simpa only [Function.update_idem] using h
  have hput : NStep ident write self
      { z with
        handler := Function.update y.handler s (.done m ptr)
        store := write ptr m.data y.store } .tau
      { z with
        handler := Function.update y.handler s .idle
        store := write ptr m.data y.store
        recvQ := setBox y.recvQ (ident s) m.name [ptr] } := by
    have h : NStep ident write self
        { z with
          handler := Function.update y.handler s (.done m ptr)
          store := write ptr m.data y.store } .tau _ :=
      .slotPut (Function.update_self _ _ _)
        (by rw [show z.recvQ (ident s) m.name = [] from hq.recvQ _ _]; exact Nat.one_pos)
    simpa only [Function.update_idem, hq.recvQ, List.nil_append, z] using h
  have hwait : NStep ident write self
      { z with
        handler := Function.update y.handler s .idle
        store := write ptr m.data y.store
        recvQ := setBox y.recvQ (ident s) m.name [ptr] } .tau
      { y with
        code := ⟨t, []⟩ :: post
        handler := Function.update y.handler s .idle
        store := write ptr m.data y.store } := by
    have h : NStep ident write self
        { z with
          handler := Function.update y.handler s .idle
          store := write ptr m.data y.store
          recvQ := setBox y.recvQ (ident s) m.name [ptr] } .tau _ :=
      .slotWait rfl (setBox_self _ _ _ _)
    simpa only [setBox_nil hq.recvQ, List.nil_append, z] using h
  exact ((((Relation.ReflTransGen.single hget).tail htake).tail hbody).tail hput).tail hwait

/-- A thread of the early peer moves. -/
theorem Early.thread_step (hat : Attends y) (h : Early ident write x y)
    (hs : NStep ident write self x e x') (hmove : ¬(e = .tau ∧ x'.code = x.code)) :
    Follows ident write self e x' y := by
  have hcode : ∃ b bs, x.code = b :: bs := by
    apply List.exists_cons_of_ne_nil
    intro hnil
    cases hs with
    | join hc | send hc | mailGet hc | mailGot hc | slotGet hc | slotWait hc | act hc | ret hc
    | launch hc =>
        rw [hnil] at hc
        cases hc
    | header | mailPut | slotTake | body | slotPut => exact hmove ⟨rfl, rfl⟩
  obtain ⟨b, bs, hcode⟩ := hcode
  -- the late peer is before the same section, and has nothing to do there but to join
  have hjoin : ∀ {pre post : List (Par P T S O)} {t : T} {s : P} {name : Bytes} {ptr : Addr},
      SlotAt y.code (b :: pre) t s name ptr post → (∀ b' ∈ b :: pre, b'.threads = []) →
      SlotAt (pre ++ ⟨t, [.slotGet s name ptr]⟩ :: post) pre t s name ptr post ∧
        NStep ident write self y .tau
          { y with code := pre ++ ⟨t, [.slotGet s name ptr]⟩ :: post } ∧
        e = .tau ∧ x' = { x with code := bs } := by
    intro pre post t s name ptr hslot hempty
    have hb : b = ⟨b.time, []⟩ := by
      have hth := hempty b List.mem_cons_self
      cases b
      simp_all
    refine ⟨⟨rfl, hslot.pre.tail, hslot.post⟩, ?_, ?_⟩
    · have hc := hslot.code
      rw [hb] at hc
      exact .join hc
    · rw [hb] at hcode
      exact hs.of_empty hcode hmove
  cases h with
  | same hq hslot =>
      rw [hcode] at hslot
      rcases hslot.head with ⟨hplain, hrest⟩ | ⟨t, s, name, ptr, rfl, hfree⟩
      · rcases hs.mirror hcode hplain with ⟨hd, st, mb, rt, hhd, rfl, hy⟩ | hno
        · refine ⟨_, .same ⟨hq.waitQ, hq.recvQ, hq.handler⟩ (.cons hhd hrest), .inr ?_⟩
          exact hy x bs hcode rfl rfl rfl
        · exact absurd hno hmove
      · obtain ⟨rfl, s', name', ptr', ⟨hth, -, rfl⟩ | ⟨q, hth, -⟩⟩ := hs.of_slot hcode rfl hmove
        · cases hth
          apply Follows.stay
          have hslot' : SlotAt x.code [] t s name ptr bs :=
            ⟨hcode, fun _ h => absurd h List.not_mem_nil, hfree⟩
          have hearly : Early ident write _ x := .posted hq hslot'
          simpa only [Node.early, hq.waitQ, List.nil_append] using hearly
        · cases hth
  | @posted _ pre post t s name ptr hq hslot =>
      cases pre with
      | nil => exact (hs.not_slotWait rfl hq.recvQ hmove).elim
      | cons b' pre =>
          obtain ⟨rfl, -⟩ := List.cons.inj hcode
          have hplain : b'.Plain := hslot.pre b' List.mem_cons_self
          rcases hs.mirror rfl hplain with ⟨hd, st, mb, rt, hhd, rfl, hy⟩ | hno
          · have hstep := hy y _ hslot.code rfl rfl rfl
            have hfree : SlotFree (hd ++ pre) := by
              intro b'' hb''
              rcases List.mem_append.mp hb'' with hb'' | hb''
              · exact hhd b'' hb''
              · exact hslot.pre.tail b'' hb''
            refine ⟨_, ?_, .inr hstep⟩
            have hearly : Early ident write _ { y with
                code := hd ++ (pre ++ ⟨t, [.slotGet s name ptr]⟩ :: post)
                store := st, mailbox := mb, returned := rt } :=
              .posted ⟨hq.waitQ, hq.recvQ, hq.handler⟩
                ⟨(List.append_assoc hd pre _).symm, hfree, hslot.post⟩
            simpa only [Node.early, List.append_assoc, List.append_eq] using hearly
          · exact absurd hno hmove
  | @taken _ pre post t s ptr m hq hslot hm =>
      have hempty := (hat s m hm).2 hslot
      cases pre with
      | nil => exact (hs.not_slotWait rfl hq.recvQ hmove).elim
      | cons b' pre =>
          obtain ⟨rfl, rfl⟩ := List.cons.inj hcode
          obtain ⟨hslot', hstep, rfl, rfl⟩ := hjoin hslot hempty
          have hearly : Early ident write _ { y with
              code := pre ++ ⟨t, [.slotGet s m.name ptr]⟩ :: post } :=
            .taken ⟨hq.waitQ, hq.recvQ, hq.handler⟩ hslot' hm
          exact ⟨_, hearly, .inr hstep⟩
  | @written _ pre post t s ptr m hq hslot hm =>
      have hempty := (hat s m hm).2 hslot
      cases pre with
      | nil => exact (hs.not_slotWait rfl hq.recvQ hmove).elim
      | cons b' pre =>
          obtain ⟨rfl, rfl⟩ := List.cons.inj hcode
          obtain ⟨hslot', hstep, rfl, rfl⟩ := hjoin hslot hempty
          have hearly : Early ident write _ { y with
              code := pre ++ ⟨t, [.slotGet s m.name ptr]⟩ :: post } :=
            .written ⟨hq.waitQ, hq.recvQ, hq.handler⟩ hslot' hm
          exact ⟨_, hearly, .inr hstep⟩
  | @stored _ pre post t s ptr m hq hslot hm =>
      have hempty := (hat s m hm).2 hslot
      cases pre with
      | nil =>
          obtain ⟨rfl, s', name', ptr', ⟨hth, -⟩ | ⟨q, hth, hrq, rfl⟩⟩ := hs.of_slot rfl rfl hmove
          · cases hth
          · cases hth
            simp only [setBox_self, List.cons.injEq, true_and] at hrq
            subst hrq
            refine ⟨_, ?_, .inl ⟨rfl, hq.catch_up hslot.code hm⟩⟩
            have hquiet := hq.update (s := s) (v := .idle) rfl y.conn y.mailbox
            have hearly : Early ident write { y with
                code := ⟨t, []⟩ :: post
                handler := Function.update y.handler s .idle
                store := write ptr m.data y.store } _ :=
              .same ⟨hq.waitQ, hq.recvQ, hquiet.handler⟩
                (.inl (fun b hb => by
                  rcases List.mem_cons.mp hb with rfl | hb
                  · exact fun _ h => absurd h List.not_mem_nil
                  · exact hslot.post b hb))
            simpa only [Node.early, setBox_nil hq.recvQ] using hearly
      | cons b' pre =>
          obtain ⟨rfl, rfl⟩ := List.cons.inj hcode
          obtain ⟨hslot', hstep, rfl, rfl⟩ := hjoin hslot hempty
          have hearly : Early ident write _ { y with
              code := pre ++ ⟨t, [.slotGet s m.name ptr]⟩ :: post } :=
            .stored ⟨hq.waitQ, hq.recvQ, hq.handler⟩ hslot' hm
          exact ⟨_, hearly, .inr hstep⟩

/-- **A step of the early peer is a step, some steps or no step of the late one.** -/
theorem Early.step (hi : Function.Injective ident) (hat : Attends y) (h : Early ident write x y)
    (hs : NStep ident write self x e x') : Follows ident write self e x' y := by
  by_cases hmove : e = .tau ∧ x'.code = x.code
  · obtain ⟨rfl, hcode⟩ := hmove
    exact h.handler_step hi hat hs hcode
  · exact h.thread_step hat hs hmove

/-- The pointer is posted. -/
theorem Early.post (h : Early ident write x y) (hp : Post ident x x') : Early ident write x' y := by
  have hno : ∀ {pre post pre' post' : List (Par P T S O)} {t t' : T} {s s' : P} {n n' : Bytes}
      {ptr ptr' : Addr}, SlotFree pre → SlotFree post →
      pre ++ ⟨t, [.slotWait s n ptr]⟩ :: post = pre' ++ ⟨t', [.slotGet s' n' ptr']⟩ :: post' →
      False := by
    intro pre post pre' post' t t' s s' n n' ptr ptr' hpre hpost heq
    have hmem : (⟨t', [.slotGet s' n' ptr']⟩ : Par P T S O) ∈
        pre ++ ⟨t, [.slotWait s n ptr]⟩ :: post := by
      rw [heq]
      simp
    rcases List.mem_append.mp hmem with hmem | hmem
    · exact absurd (hpre _ hmem _ (List.mem_singleton_self _)) (by simp [Thread.slotted])
    · rcases List.mem_cons.mp hmem with hmem | hmem
      · simp at hmem
      · exact absurd (hpost _ hmem _ (List.mem_singleton_self _)) (by simp [Thread.slotted])
  cases hp with
  | @mk pre' post' t' id name ptr hc _ =>
      cases h with
      | same hq hslot =>
          have hslot' : SlotAt x.code pre' t' id name ptr post' := by
            rcases hslot with hfree | ⟨pre, t, s, n, p, post, heq, hpre, hpost⟩
            · refine absurd (hfree ⟨t', [.slotGet id name ptr]⟩ ?_ _ (List.mem_singleton_self _))
                (by simp [Thread.slotted])
              rw [hc]
              simp
            · obtain ⟨rfl, h₂, rfl⟩ := split_unique hpre hpost (heq.symm.trans hc)
              exact ⟨hc, hpre, hpost⟩
          have hearly : Early ident write _ x := .posted hq hslot'
          simpa only [Node.early, hq.waitQ, List.nil_append] using hearly
      | posted _ hslot | taken _ hslot _ | written _ hslot _ | stored _ hslot _ =>
          exact (hno hslot.pre hslot.post hc).elim

/-- A message arrives at both peers. -/
theorem Early.receive (h : Early ident write x y) (p : P) (m : Message P T) :
    Early ident write (x.receive p m) (y.receive p m) := by
  have hconn := h.conn
  simp only [Node.receive, hconn]
  generalize Function.update y.conn p (y.conn p ++ [m]) = cn
  cases h with
  | same hq hslot => exact .same ⟨hq.waitQ, hq.recvQ, hq.handler⟩ hslot
  | posted hq hslot =>
      exact .posted (y := { y with conn := cn }) ⟨hq.waitQ, hq.recvQ, hq.handler⟩ hslot
  | taken hq hslot hm =>
      exact .taken (y := { y with conn := cn }) ⟨hq.waitQ, hq.recvQ, hq.handler⟩ hslot hm
  | written hq hslot hm =>
      exact .written (y := { y with conn := cn }) ⟨hq.waitQ, hq.recvQ, hq.handler⟩ hslot hm
  | stored hq hslot hm =>
      exact .stored (y := { y with conn := cn }) ⟨hq.waitQ, hq.recvQ, hq.handler⟩ hslot hm

end Simulation

/-! ## Runs -/

section Runs

variable [DecidableEq P] [DecidableEq Id] (ident : P → Id) (write : Addr → Bytes → S → S)

/-- One step of peers that post early. -/
inductive EStep : Cluster P Id T S O → Cluster P Id T S O → Prop where
  | tau {c : Cluster P Id T S O} {p : P} {x : Node P Id T S O} :
      NStep ident write p (c p) .tau x → EStep c (Function.update c p x)
  | send {c c' : Cluster P Id T S O} {p id : P} {x : Node P Id T S O} {m : Message P T} :
      NStep ident write p (c p) (.send id m) x → c' = Function.update c p x →
      EStep c (Function.update c' id ((c' id).receive p m))
  | post {c : Cluster P Id T S O} {p : P} {x : Node P Id T S O} :
      Post ident (c p) x → EStep c (Function.update c p x)

/-- The states that peers that post early can reach. -/
def EReach (prog : P → List (Par P T S O)) (σ : P → S) (c : Cluster P Id T S O) : Prop :=
  Relation.ReflTransGen (EStep ident write) (Cluster.start prog σ) c

variable {ident write}

/-- **Every run of peers that post early is followed by a run of peers that post late.** -/
theorem EReach.late [LinearOrder T] (hi : Function.Injective ident) {prog : P → List (Par P T S O)}
    {σ : P → S} (hone : ∀ p, OneSlot (prog p))
    (hat : ∀ y : Cluster P Id T S O, CReach ident write prog σ y → ∀ p, Attends (y p))
    {x : Cluster P Id T S O} (hx : EReach ident write prog σ x) :
    ∃ y, CReach ident write prog σ y ∧ ∀ p, Early ident write (x p) (y p) := by
  induction hx with
  | refl =>
      refine ⟨_, .refl, fun p => .same ⟨?_, ?_, ?_⟩ (hone p)⟩
      · exact fun _ _ => rfl
      · exact fun _ _ => rfl
      · exact fun _ => rfl
  | @tail x x' _ hs ih =>
      obtain ⟨y, hy, hearly⟩ := ih
      -- one peer of each has moved
      have hupd : ∀ {p : P} {x₁ y₁ : Node P Id T S O}, Early ident write x₁ y₁ →
          ∀ q, Early ident write (Function.update x p x₁ q) (Function.update y p y₁ q) := by
        intro p x₁ y₁ h q
        by_cases hq : q = p
        · subst hq
          rw [Function.update_self, Function.update_self]
          exact h
        · rw [Function.update_of_ne hq, Function.update_of_ne hq]
          exact hearly q
      cases hs with
      | @tau p x₁ hn =>
          obtain ⟨y₁, h₁, ⟨-, hrun⟩ | hstep⟩ := (hearly p).step hi (hat y hy p) hn
          · exact ⟨_, hy.node hrun, hupd h₁⟩
          · exact ⟨_, hy.tail (.tau hstep), hupd h₁⟩
      | @post p x₁ hp =>
          have h := hupd (p := p) ((hearly p).post hp)
          rw [Function.update_eq_self] at h
          exact ⟨y, hy, h⟩
      | @send x₂ p id x₁ m hn hx₂ =>
          obtain ⟨y₁, h₁, ⟨htau, -⟩ | hstep⟩ := (hearly p).step hi (hat y hy p) hn
          · cases htau
          · refine ⟨_, hy.tail (.send hstep rfl), ?_⟩
            have h₂ := hupd (p := p) h₁
            rw [← hx₂] at h₂
            intro q
            by_cases hq : q = id
            · subst hq
              rw [Function.update_self, Function.update_self]
              exact (h₂ q).receive p m
            · rw [Function.update_of_ne hq, Function.update_of_ne hq]
              exact h₂ q

end Runs

/-! ## Tasks that post early -/

section Tasks

variable {J : Type} [DecidableEq J] [DecidableEq P] [DecidableEq Id] {ident : P → Id}

section Local

variable {own : Bytes → Bool} {len : Bytes → ℕ}

omit [DecidableEq P] in
theorem Post.local {R W : Addr → Prop} {x x' : Node P Id T Store O} (hp : Post ident x x')
    (h : Local own len R W x.code) : Local own len R W x'.code := by
  cases hp with
  | @mk pre post t id name ptr hc _ =>
      rw [hc] at h
      intro b hb th hth
      rcases List.mem_append.mp hb with hb | hb
      · exact h b (List.mem_append_left _ hb) th hth
      · rcases List.mem_cons.mp hb with rfl | hb
        · obtain rfl := List.mem_singleton.mp hth
          have hget := h ⟨t, [.slotGet id name ptr]⟩ (by simp) (.slotGet id name ptr)
            (List.mem_singleton_self _)
          exact hget
        · exact h b (List.mem_append_right _ (List.mem_cons_of_mem _ hb)) th hth

omit [DecidableEq P] in
theorem Post.typed {R W : Addr → Prop} {x x' : Node P Id T Store O} (hp : Post ident x x')
    (h : Local own len R W x.code) (ht : x.Typed len W) : x'.Typed len W := by
  cases hp with
  | @mk pre post t id name ptr hc _ =>
      have hslot : ∀ k < len name, W (ptr + k) := by
        have hth := h ⟨t, [.slotGet id name ptr]⟩ (by rw [hc]; simp) _ (List.mem_singleton_self _)
        exact hth.2
      refine ⟨ht.conn, ht.handler, ?_, ht.body⟩
      intro id' name' ptr' hptr k hk
      by_cases hkey : id' = ident id ∧ name' = name
      · obtain ⟨rfl, rfl⟩ := hkey
        simp only [setBox_self] at hptr
        rcases List.mem_append.mp hptr with hptr | hptr
        · exact ht.posted _ _ ptr' hptr k hk
        · obtain rfl := List.mem_singleton.mp hptr
          exact hslot k hk
      · simp only [setBox_ne _ _ _ _ hkey] at hptr
        exact ht.posted _ _ ptr' hptr k hk

/-- What peers that post early keep, too. -/
theorem EReach.local [LT T] {R W : P → Addr → Prop} {prog : P → List (Par P T Store O)}
    {σ : P → Store} {c : Cluster P Id T Store O} (hc : EReach ident Store.writeBody prog σ c)
    (h : ∀ p, Local own len (R p) (W p) (prog p)) :
    ∀ p, Local own len (R p) (W p) (c p).code ∧ (c p).Typed len (W p) := by
  induction hc with
  | refl => exact fun p => ⟨h p, .fresh _ _⟩
  | tail _ hs ih =>
      cases hs with
      | tau hn => exact CStep.local (.tau hn) ih
      | send hn hc' => exact CStep.local (.send hn hc') ih
      | @post p y hp =>
          intro q
          by_cases hq : q = p
          · subst hq
            rw [Function.update_self]
            exact ⟨hp.local (ih q).1, hp.typed (ih q).1 (ih q).2⟩
          · rw [Function.update_of_ne hq]
            exact ih q

/-- Peers that post early are closed under the steps of others. -/
theorem EReach.step [LT T] {R W : P → Addr → Prop} {prog : P → List (Par P T Store O)}
    {σ : P → Store} {c c' : Cluster P Id T Store O} (hc : EReach ident Store.writeBody prog σ c)
    (h : ∀ p, Local own len (R p) (W p) (prog p)) (hs : CStep ident Store.writeBody c c') :
    EReach ident Store.writeBody prog σ c' := by
  cases hs with
  | tau hn => exact hc.tail (.tau hn)
  | send hn hc' => exact hc.tail (.send hn hc')
  | @launch p y qs t hn _ =>
      cases hn with
      | launch hcode => exact absurd ((hc.local h p).1.thread hcode) id

end Local

section Post

variable {own : J → Bytes → Bool} {len : J → Bytes → ℕ} {R W : J → P → Addr → Prop}
  {reach : J → Cluster P Id T Store O → Prop} {x : P → Tasks J P Id T O}

/-- A task posts a pointer. -/
theorem TaskInv.post (hsep : Separated own R W)
    (hloc : ∀ j c, reach j c → ∀ p, Local (own j) (len j) (R j p) (W j p) (c p).code ∧
      (c p).Typed (len j) (W j p))
    (hreach : ∀ j c p y, reach j c → Post ident (c p) y → reach j (Function.update c p y))
    (h : TaskInv own R reach x) {p : P} {j : J} {y : Node P Id T Store O}
    (hp : Post ident ((x p).view j) y) :
    TaskInv own R reach (Function.update x p ((x p).put j y)) := by
  cases hp with
  | @mk pre post t id name ptr hc hcap =>
      have hc : (x p).code j = pre ++ ⟨t, [.slotGet id name ptr]⟩ :: post := hc
      obtain ⟨cj, hcj, hprojj⟩ := h.alone j
      obtain ⟨τj, hτj, hcjp⟩ := hprojj p
      have hown : own j name = true := by
        have hl := (hloc j cj hcj p).1
        rw [hcjp] at hl
        have hcode : (((x p).view j).only (own j) τj).code = _ := hc
        have hget := hl ⟨t, [.slotGet id name ptr]⟩ (by rw [hcode]; simp) (.slotGet id name ptr)
          (List.mem_singleton_self _)
        exact hget.1
      refine ⟨Tasks.Owned.update h.owned ⟨(h.owned p).conn, (h.owned p).handler⟩, fun i => ?_⟩
      by_cases hij : i = j
      · subst hij
        have hpost : Post ident (cj p) { cj p with
            code := pre ++ ⟨t, [.slotWait id name ptr]⟩ :: post
            waitQ := setBox (cj p).waitQ (ident id) name
              ((cj p).waitQ (ident id) name ++ [ptr]) } := by
          refine .mk ?_ ?_
          · rw [hcjp]
            exact hc
          · rw [hcjp]
            simp only [Node.only, onlyBox_own hown]
            exact hcap
        refine ⟨_, hreach i cj p _ hcj hpost, ?_⟩
        intro q
        by_cases hq : q = p
        · subst hq
          rw [Function.update_self, Function.update_self, Tasks.view_put_self]
          refine ⟨τj, hτj, ?_⟩
          rw [hcjp]
          simp only [Node.only, onlyBox_own hown, onlyBox_setBox hown]
        · rw [Function.update_of_ne hq, Function.update_of_ne hq]
          exact hprojj q
      · obtain ⟨c, hc', hproj⟩ := h.alone i
        refine ⟨c, hc', ?_⟩
        intro q
        by_cases hq : q = p
        · subst hq
          obtain ⟨τ, hτ, hcq⟩ := hproj q
          rw [Function.update_self, Tasks.view_put_ne hij]
          refine ⟨τ, hτ, ?_⟩
          rw [hcq]
          simp only [Node.only, onlyBox_setBox_other (hsep.names hij hown)]
          rfl
        · rw [Function.update_of_ne hq]
          exact hproj q

end Post

end Tasks

end StdmlCollective

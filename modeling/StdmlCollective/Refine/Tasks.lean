import StdmlCollective.Buffer
import StdmlCollective.Refine.Cluster

/-!
# Several tasks on one peer

A peer can run several tasks at once. They share memory, boxes, connections and handlers, and each
has sections of its own and its own `recv_count_`. Tasks that own different names and write to
different buffers do not notice each other: what one task sees of the peer (`Node.only`) moves as
if it were alone.

A task owns names (`own`), reads what is in `R` and writes what is in `W`; a message under one of
its names has a fixed length (`len`).
-/

namespace StdmlCollective

variable {J P Id T O : Type}

/-! ## What a task sees -/

/-- The stores agree as far as a task can tell. -/
structure Store.Agree (R : Addr → Prop) (σ τ : Store) : Prop where
  mem : ∀ a, R a → σ.mem a = τ.mem a
  count : σ.recvCount = τ.recvCount

theorem Store.Agree.refl (R : Addr → Prop) (σ : Store) : σ.Agree R σ := ⟨fun _ _ => rfl, rfl⟩

/-- What a function on stores does depends on `R`, and it writes to `W`. -/
structure Within (R W : Addr → Prop) (f : Store → Store) : Prop where
  agree : ∀ {σ τ : Store}, σ.Agree R τ → (f σ).Agree R (f τ)
  frame : ∀ (σ : Store) (a : Addr), ¬W a → (f σ).mem a = σ.mem a

/-- A handler writes a body the same in both stores. -/
theorem Store.Agree.writeBody {R : Addr → Prop} {σ τ : Store} (h : σ.Agree R τ) (ptr : Addr)
    (d : Bytes) : (σ.writeBody ptr d).Agree R (τ.writeBody ptr d) where
  mem a ha := by simp only [Store.writeBody, Memory.write, h.mem a ha]
  count := h.count

/-- A handler writes a body to the buffer it belongs to. -/
theorem writeBody_frame {W : Addr → Prop} {ptr : Addr} {d : Bytes}
    (h : ∀ k < d.length, W (ptr + k)) (σ : Store) (a : Addr) (ha : ¬W a) :
    (σ.writeBody ptr d).mem a = σ.mem a := by
  rcases Nat.lt_or_ge a ptr with hlt | hge
  · exact Memory.write_of_lt d σ.mem hlt
  · rcases Nat.lt_or_ge (a - ptr) d.length with hk | hk
    · have hin := h (a - ptr) hk
      rw [Nat.add_sub_cancel' hge] at hin
      exact absurd hin ha
    · exact Memory.write_of_ge σ.mem (Nat.le_trans (Nat.add_le_add_left hk ptr)
        (Nat.add_sub_cancel' hge).le)

/-- The name under which a handler is at work. -/
def Handler.name? : Handler P T → Option Bytes
  | .idle => none
  | .mail m | .slot m | .write m _ | .done m _ => some m.name

/-- The handler, if it is at work for a task. -/
def Handler.only (own : Bytes → Bool) (h : Handler P T) : Handler P T :=
  if h.name?.any own then h else .idle

/-- A box, as far as the names of a task go. -/
def onlyBox {α : Type} (own : Bytes → Bool) (b : Id → Bytes → List α) : Id → Bytes → List α :=
  fun id name => if own name then b id name else []

/-- What a task sees of a peer, with a store `τ` instead of the store of the peer. -/
def Node.only (own : Bytes → Bool) (τ : Store) (x : Node P Id T Store O) : Node P Id T Store O where
  code := x.code
  store := τ
  returned := x.returned
  mailbox := onlyBox own x.mailbox
  waitQ := onlyBox own x.waitQ
  recvQ := onlyBox own x.recvQ
  handler s := (x.handler s).only own
  conn s := (x.conn s).filter fun m => own m.name

section Only

variable {α : Type} {own : Bytes → Bool}

theorem Node.handler_only (τ : Store) (x : Node P Id T Store O) (s : P) :
    (x.only own τ).handler s = (x.handler s).only own := rfl

theorem onlyBox_own {b : Id → Bytes → List α} {id : Id} {name : Bytes} (h : own name = true) :
    onlyBox own b id name = b id name := by
  simp [onlyBox, h]

theorem onlyBox_setBox [DecidableEq Id] {b : Id → Bytes → List α} {id : Id} {name : Bytes}
    (h : own name = true) (v : List α) :
    onlyBox own (setBox b id name v) = setBox (onlyBox own b) id name v := by
  funext id' name'
  by_cases hkey : id' = id ∧ name' = name
  · obtain ⟨rfl, rfl⟩ := hkey
    simp [onlyBox, h]
  · rw [setBox_ne _ _ _ _ hkey, onlyBox, setBox_ne _ _ _ _ hkey]
    rfl

theorem onlyBox_setBox_other [DecidableEq Id] {b : Id → Bytes → List α} {id : Id} {name : Bytes}
    (h : own name = false) (v : List α) : onlyBox own (setBox b id name v) = onlyBox own b := by
  funext id' name'
  by_cases hkey : id' = id ∧ name' = name
  · obtain ⟨rfl, rfl⟩ := hkey
    simp [onlyBox, h]
  · rw [onlyBox, setBox_ne _ _ _ _ hkey]
    rfl

@[simp] theorem Handler.only_idle : (Handler.idle : Handler P T).only own = .idle := rfl

theorem Handler.only_own {h : Handler P T} {name : Bytes} (hn : h.name? = some name)
    (hown : own name = true) : h.only own = h := by
  simp [Handler.only, hn, hown]

theorem Handler.only_other {h : Handler P T} {name : Bytes} (hn : h.name? = some name)
    (hown : own name = false) : h.only own = .idle := by
  simp [Handler.only, hn, hown]

/-- A handler that is seen at work is at work, for the task that sees it. -/
theorem Handler.of_only {h h' : Handler P T} {name : Bytes} (hh : h.only own = h')
    (hn : h'.name? = some name) : h = h' ∧ own name = true := by
  unfold Handler.only at hh
  split at hh
  · rename_i hany
    subst hh
    rw [hn] at hany
    exact ⟨rfl, by simpa using hany⟩
  · subst hh
    exact absurd hn (by simp [Handler.name?])

@[simp] theorem Handler.name?_take (m : Message P T) : (Handler.take m).name? = some m.name := by
  unfold Handler.take
  split <;> rfl

theorem only_update [DecidableEq P] (h : P → Handler P T) (s : P) (v : Handler P T) :
    (fun s' => (Function.update h s v s').only own) =
      Function.update (fun s' => (h s').only own) s (v.only own) := by
  funext s'
  by_cases hs : s' = s
  · subst hs
    simp
  · simp [hs]

theorem filter_update [DecidableEq P] (cn : P → List (Message P T)) (s : P)
    (v : List (Message P T)) :
    (fun s' => (Function.update cn s v s').filter fun m => own m.name) =
      Function.update (fun s' => (cn s').filter fun m => own m.name) s
        (v.filter fun m => own m.name) := by
  funext s'
  by_cases hs : s' = s
  · subst hs
    simp
  · simp [hs]

end Only

/-! ## Threads of a task -/

/-- What a thread of a task does. -/
def Thread.Local (own : Bytes → Bool) (len : Bytes → ℕ) (R W : Addr → Prop) :
    Thread P T Store O → Prop
  | .send _ name _ data => own (cStr name) = true ∧
      (∀ σ τ : Store, σ.Agree R τ → data σ = data τ) ∧
      ∀ σ, (wireData (data σ)).length = len (cStr name)
  | .mailGet _ name add => own name = true ∧ ∀ d, Within R W (add d)
  | .mailGot _ name add _ => own name = true ∧ ∀ d, Within R W (add d)
  | .slotGet _ name ptr => own name = true ∧ ∀ k < len name, W (ptr + k)
  | .slotWait _ name ptr => own name = true ∧ ∀ k < len name, W (ptr + k)
  | .act f => Within R W f
  | _ => False

/-- The sections are those of a task. -/
def Local (own : Bytes → Bool) (len : Bytes → ℕ) (R W : Addr → Prop)
    (bs : List (Par P T Store O)) : Prop :=
  ∀ b ∈ bs, ∀ th ∈ b.threads, th.Local own len R W

/-- The messages have the lengths of their names, and the pointers lead to `W`. -/
structure Node.Typed (len : Bytes → ℕ) (W : Addr → Prop) (x : Node P Id T Store O) : Prop where
  conn : ∀ s, ∀ m ∈ x.conn s, m.data.length = len m.name
  handler : ∀ s m, x.handler s = .mail m ∨ x.handler s = .slot m → m.data.length = len m.name
  posted : ∀ id name, ∀ ptr ∈ x.waitQ id name, ∀ k < len name, W (ptr + k)
  body : ∀ s m ptr, x.handler s = .write m ptr → ∀ k < m.data.length, W (ptr + k)

section Local

variable {own : Bytes → Bool} {len : Bytes → ℕ} {R W : Addr → Prop}
  {x : Node P Id T Store O} {t : T} {l₁ l₂ : List (Thread P T Store O)} {th : Thread P T Store O}
  {bs : List (Par P T Store O)}

theorem Local.thread (h : Local own len R W x.code) (hc : x.code = ⟨t, l₁ ++ th :: l₂⟩ :: bs) :
    th.Local own len R W := by
  apply h ⟨t, l₁ ++ th :: l₂⟩
  · rw [hc]
    exact List.mem_cons_self
  · simp

theorem Local.remove (h : Local own len R W x.code) (hc : x.code = ⟨t, l₁ ++ th :: l₂⟩ :: bs) :
    Local own len R W (⟨t, l₁ ++ l₂⟩ :: bs) := by
  rw [hc] at h
  intro b hb th' hth
  rcases List.mem_cons.mp hb with rfl | hb
  · apply h ⟨t, l₁ ++ th :: l₂⟩ List.mem_cons_self
    rcases List.mem_append.mp hth with hth | hth
    · exact List.mem_append_left _ hth
    · exact List.mem_append_right _ (List.mem_cons_of_mem _ hth)
  · exact h b (List.mem_cons_of_mem _ hb) th' hth

theorem Local.replace (h : Local own len R W x.code) (hc : x.code = ⟨t, l₁ ++ th :: l₂⟩ :: bs)
    {th₁ : Thread P T Store O} (h₁ : th₁.Local own len R W) :
    Local own len R W (⟨t, l₁ ++ th₁ :: l₂⟩ :: bs) := by
  intro b hb th' hth
  rcases List.mem_cons.mp hb with rfl | hb
  · rcases List.mem_append.mp hth with hl | hl
    · exact h.remove hc ⟨t, l₁ ++ l₂⟩ List.mem_cons_self th' (List.mem_append_left _ hl)
    · rcases List.mem_cons.mp hl with rfl | hl
      · exact h₁
      · exact h.remove hc ⟨t, l₁ ++ l₂⟩ List.mem_cons_self th' (List.mem_append_right _ hl)
  · exact h.remove hc b (List.mem_cons_of_mem _ hb) th' hth

theorem Local.tail {b : Par P T Store O} (h : Local own len R W (b :: bs)) :
    Local own len R W bs :=
  fun b' hb' => h b' (List.mem_cons_of_mem _ hb')

variable [DecidableEq P] [DecidableEq Id] {ident : P → Id} {self : P} {e : Event P T}
  {x' : Node P Id T Store O}

theorem NStep.local (hs : NStep ident Store.writeBody self x e x')
    (h : Local own len R W x.code) : Local own len R W x'.code := by
  cases hs with
  | join hc =>
      rw [hc] at h
      exact h.tail
  | send hc => exact h.remove hc
  | mailGet hc =>
      have hth := h.thread hc
      exact h.replace hc hth
  | mailGot hc => exact h.remove hc
  | slotGet hc =>
      have hth := h.thread hc
      exact h.replace hc hth
  | slotWait hc => exact h.remove hc
  | act hc => exact h.remove hc
  | ret hc => exact absurd (h.thread hc) id
  | launch hc => exact absurd (h.thread hc) id
  | header | mailPut | slotTake | body | slotPut => exact h

/-- What a task sends is a message of its own. -/
theorem NStep.send_local {id : P} {m : Message P T}
    (hs : NStep ident Store.writeBody self x (.send id m) x') (h : Local own len R W x.code) :
    own m.name = true ∧ m.data.length = len m.name := by
  cases hs with
  | send hc =>
      obtain ⟨hown, -, hlen⟩ := h.thread hc
      exact ⟨hown, hlen _⟩

theorem NStep.typed (hs : NStep ident Store.writeBody self x e x')
    (h : Local own len R W x.code) (ht : x.Typed len W) : x'.Typed len W := by
  have hupd : ∀ (s : P) (v : Handler P T) (cn : P → List (Message P T))
      (wq : Id → Bytes → List Addr), (∀ s, ∀ m ∈ cn s, m.data.length = len m.name) →
      (∀ m, v = .mail m ∨ v = .slot m → m.data.length = len m.name) →
      (∀ id name, ∀ ptr ∈ wq id name, ∀ k < len name, W (ptr + k)) →
      (∀ m ptr, v = .write m ptr → ∀ k < m.data.length, W (ptr + k)) →
      ∀ y : Node P Id T Store O, y.handler = Function.update x.handler s v → y.conn = cn →
        y.waitQ = wq → y.Typed len W := by
    intro s v cn wq hcn hv hwq hw y hh hyc hyw
    refine ⟨hyc ▸ hcn, ?_, hyw ▸ hwq, ?_⟩
    · intro s' m hm
      by_cases hs' : s' = s
      · subst hs'
        rw [hh, Function.update_self] at hm
        exact hv m hm
      · rw [hh, Function.update_of_ne hs'] at hm
        exact ht.handler s' m hm
    · intro s' m ptr hm
      by_cases hs' : s' = s
      · subst hs'
        rw [hh, Function.update_self] at hm
        exact hw m ptr hm
      · rw [hh, Function.update_of_ne hs'] at hm
        exact ht.body s' m ptr hm
  cases hs with
  | join | send | mailGet | mailGot | slotWait | act | ret | launch =>
      exact ⟨ht.conn, ht.handler, ht.posted, ht.body⟩
  | @slotGet t l₁ l₂ bs id name ptr hc hcap =>
      refine ⟨ht.conn, ht.handler, ?_, ht.body⟩
      intro id' name' ptr' (hptr : ptr' ∈ setBox x.waitQ (ident id) name _ id' name')
      by_cases hkey : id' = ident id ∧ name' = name
      · obtain ⟨rfl, rfl⟩ := hkey
        rw [setBox_self] at hptr
        rcases List.mem_append.mp hptr with hptr | hptr
        · exact ht.posted _ _ ptr' hptr
        · rw [List.mem_singleton.mp hptr]
          exact (h.thread hc).2
      · rw [setBox_ne _ _ _ _ hkey] at hptr
        exact ht.posted id' name' ptr' hptr
  | @header s m ms hidle hcn =>
      have hmem : ∀ m' ∈ m :: ms, m'.data.length = len m'.name := by
        rw [← hcn]
        exact ht.conn s
      refine hupd s (Handler.take m) (Function.update x.conn s ms) _ ?_ ?_ ht.posted ?_ _ rfl rfl
        rfl
      · intro s' m' hm'
        by_cases hs' : s' = s
        · subst hs'
          rw [Function.update_self] at hm'
          exact hmem m' (List.mem_cons_of_mem _ hm')
        · rw [Function.update_of_ne hs'] at hm'
          exact ht.conn s' m' hm'
      · intro m' hm'
        have heq : m' = m := by
          unfold Handler.take at hm'
          split at hm' <;> simp_all
        rw [heq]
        exact hmem m List.mem_cons_self
      · intro m' ptr hm'
        unfold Handler.take at hm'
        split at hm' <;> cases hm'
  | mailPut hh =>
      exact hupd _ .idle _ _ ht.conn (by simp) ht.posted (by simp) _ rfl rfl rfl
  | @slotTake s m ptr q hh hq =>
      have hmem : ptr ∈ x.waitQ (ident s) m.name := by
        rw [hq]
        exact List.mem_cons_self
      refine hupd s (.write m ptr) _ (setBox x.waitQ (ident s) m.name q) ht.conn (by simp) ?_ ?_ _
        rfl rfl rfl
      · intro id' name' ptr' hptr
        by_cases hkey : id' = ident s ∧ name' = m.name
        · obtain ⟨rfl, rfl⟩ := hkey
          rw [setBox_self] at hptr
          exact ht.posted _ _ ptr' (hq ▸ List.mem_cons_of_mem _ hptr)
        · rw [setBox_ne _ _ _ _ hkey] at hptr
          exact ht.posted id' name' ptr' hptr
      · intro m' ptr' hm'
        cases hm'
        rw [ht.handler s m (.inr hh)]
        exact ht.posted _ _ ptr hmem
  | body hh =>
      exact hupd _ (.done _ _) _ _ ht.conn (by simp) ht.posted (by simp) _ rfl rfl rfl
  | slotPut hh =>
      exact hupd _ .idle _ _ ht.conn (by simp) ht.posted (by simp) _ rfl rfl rfl

omit [DecidableEq Id] in
theorem Node.Typed.receive (ht : x.Typed len W) {s : P} {m : Message P T}
    (hm : m.data.length = len m.name) : (x.receive s m).Typed len W := by
  refine ⟨?_, ht.handler, ht.posted, ht.body⟩
  intro s' m' (hm' : m' ∈ Function.update x.conn s (x.conn s ++ [m]) s')
  by_cases hs : s' = s
  · subst hs
    rw [Function.update_self] at hm'
    rcases List.mem_append.mp hm' with hm' | hm'
    · exact ht.conn s' m' hm'
    · rw [List.mem_singleton.mp hm']
      exact hm
  · rw [Function.update_of_ne hs] at hm'
    exact ht.conn s' m' hm'

/-- What peers that run one task alone keep. -/
theorem CStep.local [LT T] {R W : P → Addr → Prop} {c c' : Cluster P Id T Store O}
    (hs : CStep ident Store.writeBody c c')
    (h : ∀ p, Local own len (R p) (W p) (c p).code ∧ (c p).Typed len (W p)) :
    ∀ p, Local own len (R p) (W p) (c' p).code ∧ (c' p).Typed len (W p) := by
  have hupd : ∀ {p : P} {e : Event P T} {y : Node P Id T Store O},
      NStep ident Store.writeBody p (c p) e y →
      ∀ q, Local own len (R q) (W q) (Function.update c p y q).code ∧
        (Function.update c p y q).Typed len (W q) := by
    intro p e y hs q
    by_cases hq : q = p
    · subst hq
      rw [Function.update_self]
      exact ⟨hs.local (h q).1, hs.typed (h q).1 (h q).2⟩
    · rw [Function.update_of_ne hq]
      exact h q
  cases hs with
  | tau hs => exact hupd hs
  | launch hs _ => exact hupd hs
  | @send _ p id y m hs hc' =>
      subst hc'
      intro q
      by_cases hq : q = id
      · subst hq
        rw [Function.update_self]
        have hq := hupd hs q
        exact ⟨hq.1, hq.2.receive (hs.send_local (h p).1).2⟩
      · rw [Function.update_of_ne hq]
        exact hupd hs q

omit [DecidableEq P] [DecidableEq Id] in
theorem Node.Typed.fresh (code : List (Par P T Store O)) (σ : Store) :
    (Node.fresh code σ : Node P Id T Store O).Typed len W where
  conn _ _ hm := absurd hm List.not_mem_nil
  handler _ _ hm := by rcases hm with hm | hm <;> cases hm
  posted _ _ _ hptr := absurd hptr List.not_mem_nil
  body _ _ _ hm := nomatch hm

theorem CReach.local [LT T] {R W : P → Addr → Prop}
    {prog : P → List (Par P T Store O)} {σ : P → Store} {c : Cluster P Id T Store O}
    (hc : CReach ident Store.writeBody prog σ c) (h : ∀ p, Local own len (R p) (W p) (prog p)) :
    ∀ p, Local own len (R p) (W p) (c p).code ∧ (c p).Typed len (W p) := by
  induction hc with
  | refl => exact fun p => ⟨h p, .fresh _ _⟩
  | tail _ hs ih => exact hs.local ih

end Local

/-! ## A task moves as if it were alone -/

section Steps

variable [DecidableEq P] [DecidableEq Id] {ident : P → Id} {self : P} {own : Bytes → Bool}
  {len : Bytes → ℕ} {R W : Addr → Prop} {x x' : Node P Id T Store O}

/-- **A step of a thread of the task itself.** -/
theorem NStep.only_own {e : Event P T} (hs : NStep ident Store.writeBody self x e x')
    (hcode : x.code ≠ x'.code) (h : Local own len R W x.code) {τ : Store}
    (hτ : τ.Agree R x.store) :
    ∃ τ' : Store, τ'.Agree R x'.store ∧
      NStep ident Store.writeBody self (x.only own τ) e (x'.only own τ') := by
  cases hs with
  | join hc => exact ⟨τ, hτ, .join hc⟩
  | send hc =>
      obtain ⟨-, hdata, -⟩ := h.thread hc
      refine ⟨τ, hτ, ?_⟩
      rw [← hdata τ x.store hτ]
      exact .send (x := x.only own τ) hc
  | @mailGet t l₁ l₂ bs id name add m q hc hq =>
      obtain ⟨hown, -⟩ := h.thread hc
      refine ⟨τ, hτ, ?_⟩
      have hstep : NStep ident Store.writeBody self (x.only own τ) .tau _ :=
        .mailGet hc ((onlyBox_own hown).trans hq)
      simpa only [Node.only, onlyBox_setBox hown] using hstep
  | mailGot hc =>
      obtain ⟨-, hadd⟩ := h.thread hc
      exact ⟨_, (hadd _).agree hτ, .mailGot (x := x.only own τ) hc⟩
  | @slotGet t l₁ l₂ bs id name ptr hc hcap =>
      obtain ⟨hown, -⟩ := h.thread hc
      refine ⟨τ, hτ, ?_⟩
      have hbox : (x.only own τ).waitQ (ident id) name = x.waitQ (ident id) name :=
        onlyBox_own hown
      have hstep : NStep ident Store.writeBody self (x.only own τ) .tau _ :=
        .slotGet hc (by rwa [hbox])
      simpa only [Node.only, onlyBox_setBox hown, onlyBox_own hown] using hstep
  | @slotWait t l₁ l₂ bs id name ptr q hc hq =>
      obtain ⟨hown, -⟩ := h.thread hc
      refine ⟨τ, hτ, ?_⟩
      have hstep : NStep ident Store.writeBody self (x.only own τ) .tau _ :=
        .slotWait hc ((onlyBox_own hown).trans hq)
      simpa only [Node.only, onlyBox_setBox hown] using hstep
  | act hc => exact ⟨_, (h.thread hc).agree hτ, .act (x := x.only own τ) hc⟩
  | ret hc => exact absurd (h.thread hc) id
  | launch hc => exact absurd (h.thread hc) id
  | header | mailPut | slotTake | body | slotPut => exact absurd rfl hcode

/-- What a task sees of a peer is the same before and after. -/
structure Node.Same (own : Bytes → Bool) (R : Addr → Prop) (x x' : Node P Id T Store O) : Prop where
  returned : x'.returned = x.returned
  mailbox : onlyBox own x'.mailbox = onlyBox own x.mailbox
  waitQ : onlyBox own x'.waitQ = onlyBox own x.waitQ
  recvQ : onlyBox own x'.recvQ = onlyBox own x.recvQ
  handler : ∀ s, (x'.handler s).only own = (x.handler s).only own
  conn : ∀ s, (x'.conn s).filter (fun m => own m.name) = (x.conn s).filter fun m => own m.name
  mem : ∀ a, R a → x'.store.mem a = x.store.mem a

/-- **A step of a thread of another task.** -/
theorem NStep.same {own' : Bytes → Bool} {R' : Addr → Prop} {e : Event P T}
    (hs : NStep ident Store.writeBody self x e x') (hcode : x.code ≠ x'.code)
    (h : Local own' len R' W x.code) (hown : ∀ name, own' name = true → own name = false)
    (hW : ∀ a, R a → ¬W a) : x.Same own R x' := by
  cases hs with
  | join hc => exact ⟨rfl, rfl, rfl, rfl, fun _ => rfl, fun _ => rfl, fun _ _ => rfl⟩
  | send hc => exact ⟨rfl, rfl, rfl, rfl, fun _ => rfl, fun _ => rfl, fun _ _ => rfl⟩
  | mailGet hc hq =>
      obtain ⟨hname, -⟩ := h.thread hc
      exact ⟨rfl, onlyBox_setBox_other (hown _ hname) _, rfl, rfl, fun _ => rfl, fun _ => rfl,
        fun _ _ => rfl⟩
  | mailGot hc =>
      obtain ⟨-, hadd⟩ := h.thread hc
      exact ⟨rfl, rfl, rfl, rfl, fun _ => rfl, fun _ => rfl,
        fun a ha => (hadd _).frame _ a (hW a ha)⟩
  | slotGet hc hcap =>
      obtain ⟨hname, -⟩ := h.thread hc
      exact ⟨rfl, rfl, onlyBox_setBox_other (hown _ hname) _, rfl, fun _ => rfl, fun _ => rfl,
        fun _ _ => rfl⟩
  | slotWait hc hq =>
      obtain ⟨hname, -⟩ := h.thread hc
      exact ⟨rfl, rfl, rfl, onlyBox_setBox_other (hown _ hname) _, fun _ => rfl, fun _ => rfl,
        fun _ _ => rfl⟩
  | act hc =>
      exact ⟨rfl, rfl, rfl, rfl, fun _ => rfl, fun _ => rfl,
        fun a ha => (h.thread hc).frame _ a (hW a ha)⟩
  | ret hc => exact absurd (h.thread hc) id
  | launch hc => exact absurd (h.thread hc) id
  | header | mailPut | slotTake | body | slotPut => exact absurd rfl hcode

private theorem update_self' {α : Type} {f : P → α} {s : P} {v : α} (h : f s = v) :
    Function.update f s v = f := by
  rw [← h, Function.update_eq_self]

omit [DecidableEq P] in
/-- A thread that leaves its section changes the program. -/
theorem ne_of_leave {S : Type} {code bs : List (Par P T S O)} {t : T}
    {l₁ l₂ : List (Thread P T S O)} {th : Thread P T S O}
    (hc : code = ⟨t, l₁ ++ th :: l₂⟩ :: bs) : code ≠ ⟨t, l₁ ++ l₂⟩ :: bs := by
  intro heq
  rw [hc] at heq
  simp at heq

/-- **A step of a handler**: it moves for the task whose message it has. -/
theorem NStep.only_handler (hs : NStep ident Store.writeBody self x .tau x')
    (hcode : x.code = x'.code) (hmem : ∀ s m ptr, x.handler s = .write m ptr →
      own m.name = false → ∀ k < m.data.length, ¬R (ptr + k))
    {τ : Store} (hτ : τ.Agree R x.store) :
    ∃ τ' : Store, τ'.Agree R x'.store ∧ (x.only own τ = x'.only own τ' ∨
      NStep ident Store.writeBody self (x.only own τ) .tau (x'.only own τ')) := by
  cases hs with
  | join hc =>
      have hlen := congrArg List.length (hc.symm.trans hcode)
      simp at hlen
  | mailGot hc | slotWait hc | act hc | ret hc => exact absurd hcode (ne_of_leave hc)
  | mailGet hc =>
      rw [hc] at hcode
      simp at hcode
  | slotGet hc =>
      rw [hc] at hcode
      simp at hcode
  | @header s m ms hidle hcn =>
      refine ⟨τ, hτ, ?_⟩
      have hx : (x.only own τ).handler s = .idle := by
        rw [Node.handler_only, hidle, Handler.only_idle]
      cases hown : own m.name with
      | true =>
          right
          have hconn : (x.only own τ).conn s = m :: ms.filter fun m => own m.name := by
            simp [Node.only, hcn, hown]
          have hstep : NStep ident Store.writeBody self (x.only own τ) .tau _ := .header hx hconn
          simpa only [Node.only, only_update, filter_update,
            Handler.only_own (Handler.name?_take m) hown] using hstep
      | false =>
          left
          simp only [Node.only, only_update, filter_update,
            Handler.only_other (Handler.name?_take m) hown]
          rw [update_self' (by rw [hidle, Handler.only_idle]),
            update_self' (by simp [hcn, hown])]
  | @mailPut s m hh hcap =>
      refine ⟨τ, hτ, ?_⟩
      cases hown : own m.name with
      | true =>
          right
          have hx : (x.only own τ).handler s = .mail m := by
            rw [Node.handler_only, hh, Handler.only_own rfl hown]
          have hbox : (x.only own τ).mailbox (ident s) m.name = x.mailbox (ident s) m.name :=
            onlyBox_own hown
          have hstep : NStep ident Store.writeBody self (x.only own τ) .tau _ :=
            .mailPut hx (by rwa [hbox])
          simpa only [Node.only, only_update, onlyBox_setBox hown, onlyBox_own hown,
            Handler.only_idle] using hstep
      | false =>
          left
          simp only [Node.only, only_update, onlyBox_setBox_other hown, Handler.only_idle]
          rw [update_self' (by rw [hh, Handler.only_other rfl hown])]
  | @slotTake s m ptr q hh hq =>
      refine ⟨τ, hτ, ?_⟩
      cases hown : own m.name with
      | true =>
          right
          have hx : (x.only own τ).handler s = .slot m := by
            rw [Node.handler_only, hh, Handler.only_own rfl hown]
          have hstep : NStep ident Store.writeBody self (x.only own τ) .tau _ :=
            .slotTake hx ((onlyBox_own hown).trans hq)
          simpa only [Node.only, only_update, onlyBox_setBox hown,
            Handler.only_own (h := .write m ptr) rfl hown] using hstep
      | false =>
          left
          simp only [Node.only, only_update, onlyBox_setBox_other hown,
            Handler.only_other (h := .write m ptr) rfl hown]
          rw [update_self' (by rw [hh, Handler.only_other rfl hown])]
  | @body s m ptr hh =>
      cases hown : own m.name with
      | true =>
          refine ⟨_, hτ.writeBody ptr m.data, .inr ?_⟩
          have hx : (x.only own τ).handler s = .write m ptr := by
            rw [Node.handler_only, hh, Handler.only_own rfl hown]
          have hstep : NStep ident Store.writeBody self (x.only own τ) .tau _ := .body hx
          simpa only [Node.only, only_update, Handler.only_own (h := .done m ptr) rfl hown]
            using hstep
      | false =>
          refine ⟨τ, ⟨fun a ha => ?_, hτ.count⟩, .inl ?_⟩
          · -- the body goes to a buffer that the task does not look at
            rw [hτ.mem a ha, writeBody_frame (W := fun a => ¬R a) (hmem s m ptr hh hown) _ _
              (not_not.mpr ha)]
          · simp only [Node.only, only_update, Handler.only_other (h := .done m ptr) rfl hown]
            rw [update_self' (by rw [hh, Handler.only_other rfl hown])]
  | @slotPut s m ptr hh hcap =>
      refine ⟨τ, hτ, ?_⟩
      cases hown : own m.name with
      | true =>
          right
          have hx : (x.only own τ).handler s = .done m ptr := by
            rw [Node.handler_only, hh, Handler.only_own rfl hown]
          have hbox : (x.only own τ).recvQ (ident s) m.name = x.recvQ (ident s) m.name :=
            onlyBox_own hown
          have hstep : NStep ident Store.writeBody self (x.only own τ) .tau _ :=
            .slotPut hx (by rwa [hbox])
          simpa only [Node.only, only_update, onlyBox_setBox hown, onlyBox_own hown,
            Handler.only_idle] using hstep
      | false =>
          left
          simp only [Node.only, only_update, onlyBox_setBox_other hown, Handler.only_idle]
          rw [update_self' (by rw [hh, Handler.only_other rfl hown])]

/-- A task that can move when it is looked at alone can move, unless it waits for a handler that
is at work for another task. -/
theorem NStep.of_only {len : Bytes → ℕ} {R W : Addr → Prop} {τ : Store} {e : Event P T}
    {y : Node P Id T Store O} (hloc : Local own len R W x.code)
    (hs : NStep ident Store.writeBody self (x.only own τ) e y) :
    (∃ e' y', NStep ident Store.writeBody self x e' y' ∧ ∀ qs u, e' ≠ .launch qs u) ∨
      ∃ s, x.handler s ≠ .idle ∧ (x.only own τ).handler s = .idle ∧
        (x.only own τ).conn s ≠ [] := by
  have htau : ∀ {y'}, NStep ident Store.writeBody self x .tau y' →
      (∃ e' y', NStep ident Store.writeBody self x e' y' ∧ ∀ qs u, e' ≠ .launch qs u) ∨
        ∃ s, x.handler s ≠ .idle ∧ (x.only own τ).handler s = .idle ∧
          (x.only own τ).conn s ≠ [] :=
    fun {y'} hy => .inl ⟨.tau, y', hy, fun _ _ hl => nomatch hl⟩
  have hbox : ∀ {α : Type} {b : Id → Bytes → List α} {id : Id} {name : Bytes} {v : List α},
      own name = true → onlyBox own b id name = v → b id name = v := by
    intro α b id name v hown hv
    rwa [onlyBox_own hown] at hv
  cases hs with
  | join hc => exact htau (.join hc)
  | send hc => exact .inl ⟨_, _, .send (x := x) hc, fun _ _ hl => nomatch hl⟩
  | mailGet hc hb => exact htau (.mailGet hc (hbox (hloc.thread hc).1 hb))
  | mailGot hc => exact htau (.mailGot hc)
  | slotGet hc hcap =>
      have hown := (hloc.thread hc).1
      simp only [Node.only, onlyBox_own hown] at hcap
      exact htau (.slotGet hc hcap)
  | slotWait hc hb => exact htau (.slotWait hc (hbox (hloc.thread hc).1 hb))
  | act hc => exact htau (.act hc)
  | ret hc => exact absurd (hloc.thread hc) id
  | launch hc => exact absurd (hloc.thread hc) id
  | @header s m ms hh hcn =>
      by_cases hidle : x.handler s = .idle
      · obtain ⟨m', ms', hconn⟩ : ∃ m' ms', x.conn s = m' :: ms' := by
          apply List.exists_cons_of_ne_nil
          intro hnil
          simp [Node.only, hnil] at hcn
        exact htau (.header hidle hconn)
      · refine .inr ⟨s, hidle, hh, ?_⟩
        rw [hcn]
        exact List.cons_ne_nil _ _
  | @mailPut s m hh hcap =>
      obtain ⟨hh, hown⟩ := Handler.of_only hh rfl
      simp only [Node.only, onlyBox_own hown] at hcap
      exact htau (.mailPut hh hcap)
  | @slotTake s m ptr q hh hb =>
      obtain ⟨hh, hown⟩ := Handler.of_only hh rfl
      exact htau (.slotTake hh (hbox hown hb))
  | @body s m ptr hh => exact htau (.body (Handler.of_only hh rfl).1)
  | @slotPut s m ptr hh hcap =>
      obtain ⟨hh, hown⟩ := Handler.of_only hh rfl
      simp only [Node.only, onlyBox_own hown] at hcap
      exact htau (.slotPut hh hcap)

end Steps

/-! ## Peers with tasks -/

/-- A peer that runs tasks: the sections and the counter of each task, and what they share. -/
structure Tasks (J P Id T O : Type) where
  rest : Node P Id T Store O
  code : J → List (Par P T Store O)
  count : J → UInt32

namespace Tasks

/-- The peer as task `j` has it before it. -/
def view (x : Tasks J P Id T O) (j : J) : Node P Id T Store O :=
  { x.rest with code := x.code j, store := ⟨x.rest.store.mem, x.count j⟩ }

/-- Task `j` has brought the peer into state `y`. -/
def put [DecidableEq J] (x : Tasks J P Id T O) (j : J) (y : Node P Id T Store O) :
    Tasks J P Id T O where
  rest := y
  code := Function.update x.code j y.code
  count := Function.update x.count j y.store.recvCount

/-- The message `m` from `p` arrives. -/
def receive [DecidableEq P] (x : Tasks J P Id T O) (p : P) (m : Message P T) : Tasks J P Id T O :=
  { x with rest := x.rest.receive p m }

variable [DecidableEq J] {x : Tasks J P Id T O}

@[simp] theorem view_put_self (j : J) (y : Node P Id T Store O) : (x.put j y).view j = y := by
  simp [view, put]

theorem view_put_ne {i j : J} (h : i ≠ j) (y : Node P Id T Store O) :
    (x.put j y).view i = { y with code := x.code i, store := ⟨y.store.mem, x.count i⟩ } := by
  simp [view, put, h]

/-- A handler moves whatever task is looked at. -/
theorem handler_step [DecidableEq P] [DecidableEq Id] {ident : P → Id} {self : P} {j : J}
    {y : Node P Id T Store O} (hs : NStep ident Store.writeBody self (x.view j) .tau y)
    (hcode : x.code j = y.code) (i : J) :
    NStep ident Store.writeBody self (x.view i) .tau ((x.put j y).view i) := by
  by_cases hij : i = j
  · subst hij
    rwa [view_put_self]
  rw [view_put_ne hij]
  cases hs with
  | join hc =>
      have hlen := congrArg List.length (hc.symm.trans hcode)
      simp at hlen
  | mailGot hc | slotWait hc | act hc | ret hc => exact absurd hcode (ne_of_leave hc)
  | mailGet hc =>
      rw [show x.code j = _ from hc] at hcode
      simp at hcode
  | slotGet hc =>
      rw [show x.code j = _ from hc] at hcode
      simp at hcode
  | header hidle hcn => exact .header (x := x.view i) hidle hcn
  | mailPut hh hcap => exact .mailPut (x := x.view i) hh hcap
  | slotTake hh hq => exact .slotTake (x := x.view i) hh hq
  | body hh => exact .body (x := x.view i) hh
  | slotPut hh hcap => exact .slotPut (x := x.view i) hh hcap

end Tasks

section Machine

variable [DecidableEq J] [DecidableEq P] [DecidableEq Id] (ident : P → Id)
  (may : P → J → List (Par P T Store O) → Prop)

/-- A step of peers that run tasks. The threads of a task move when the sections they leave may
be the next ones, the handlers always. -/
inductive TStep : (P → Tasks J P Id T O) → (P → Tasks J P Id T O) → Prop where
  | tau {x : P → Tasks J P Id T O} {p : P} {j : J} {y : Node P Id T Store O} :
      may p j y.code ∨ (x p).code j = y.code → NStep ident Store.writeBody p ((x p).view j) .tau y →
      TStep x (Function.update x p ((x p).put j y))
  | send {x x' : P → Tasks J P Id T O} {p id : P} {j : J} {m : Message P T}
      {y : Node P Id T Store O} :
      may p j y.code → NStep ident Store.writeBody p ((x p).view j) (.send id m) y →
      x' = Function.update x p ((x p).put j y) →
      TStep x (Function.update x' id ((x' id).receive p m))

variable {ident may}

/-- A task that may not move keeps its sections. -/
theorem TStep.code_eq {x x' : P → Tasks J P Id T O} (hs : TStep ident may x x') {p : P} {j : J}
    (hmay : ∀ code, ¬may p j code) : (x' p).code j = (x p).code j := by
  have hput : ∀ {q : P} {i : J} {y : Node P Id T Store O},
      may q i y.code ∨ (x q).code i = y.code →
      (Function.update x q ((x q).put i y) p).code j = (x p).code j := by
    intro q i y hi
    by_cases hq : p = q
    · subst hq
      rw [Function.update_self]
      by_cases hj : j = i
      · subst hj
        exact (Function.update_self _ _ _).trans (hi.resolve_left (hmay _)).symm
      · exact Function.update_of_ne hj _ _
    · rw [Function.update_of_ne hq]
  cases hs with
  | tau hi _ => exact hput hi
  | @send x₁ q id i m y hi _ hx₁ =>
      have hcode := hput (.inl hi) (y := y)
      rw [← hx₁] at hcode
      rw [← hcode]
      by_cases hp : p = id
      · subst hp
        rw [Function.update_self]
        rfl
      · rw [Function.update_of_ne hp]

/-- A task that may move can move. -/
theorem TStep.of_node {x : P → Tasks J P Id T O} {p : P} {j : J} {e : Event P T}
    {y : Node P Id T Store O} (hmay : may p j y.code)
    (hs : NStep ident Store.writeBody p ((x p).view j) e y)
    (hl : ∀ qs u, e ≠ .launch qs u) : ∃ x', TStep ident may x x' := by
  cases e with
  | tau => exact ⟨_, .tau (.inl hmay) hs⟩
  | send id m => exact ⟨_, .send hmay hs rfl⟩
  | launch qs u => exact absurd rfl (hl qs u)

end Machine

/-! ## Termination -/

section Termination

variable [Fintype J] [Fintype P]

/-- How many steps a peer with tasks can still cause. -/
def Tasks.weight (x : Tasks J P Id T O) : ℕ :=
  ∑ j, ((x.code j).map Par.weight).sum +
    ∑ s, ((x.rest.handler s).weight + 5 * (x.rest.conn s).length)

theorem Tasks.weight_put [DecidableEq J] (x : Tasks J P Id T O) (j : J)
    (y : Node P Id T Store O) : (x.put j y).weight + (x.view j).weight = x.weight + y.weight := by
  have hcode := sum_update (fun _ (code : List (Par P T Store O)) => (code.map Par.weight).sum)
    x.code j y.code
  simp only [Tasks.weight, Node.weight, Tasks.put, Tasks.view]
  omega

theorem Tasks.weight_receive [DecidableEq P] (x : Tasks J P Id T O) (p : P) (m : Message P T) :
    (x.receive p m).weight = x.weight + 5 := by
  have hconn := sum_update (fun _ (l : List (Message P T)) => 5 * l.length) x.rest.conn p
    (x.rest.conn p ++ [m])
  simp only [Tasks.weight, Tasks.receive, Node.receive, Finset.sum_add_distrib]
  rw [List.length_append, List.length_singleton] at hconn
  omega

/-- Every step makes the peers lighter. -/
theorem TStep.weight [DecidableEq J] [DecidableEq P] [DecidableEq Id] {ident : P → Id}
    {may : P → J → List (Par P T Store O) → Prop} {x x' : P → Tasks J P Id T O}
    (hs : TStep ident may x x') : ∑ p, (x' p).weight < ∑ p, (x p).weight := by
  have hupd := fun (x : P → Tasks J P Id T O) p y =>
    sum_update (fun _ (x : Tasks J P Id T O) => x.weight) x p y
  cases hs with
  | @tau p j y _ hn =>
      have h₁ := hupd x p ((x p).put j y)
      have h₂ := (x p).weight_put j y
      have h₃ := hn.weight
      simp only [Event.weight] at h₃
      omega
  | @send x₁ p id j m y _ hn hx₁ =>
      have h₁ := hupd x p ((x p).put j y)
      have h₂ := (x p).weight_put j y
      have h₃ := hn.weight
      have h₄ := hupd x₁ id ((x₁ id).receive p m)
      have h₅ := (x₁ id).weight_receive p m
      subst hx₁
      simp only [Event.weight] at h₃
      omega

end Termination

/-- Tasks with names and buffers of their own. What one task writes no other one reads; they may
read the same. -/
structure Separated (own : J → Bytes → Bool) (R W : J → P → Addr → Prop) : Prop where
  names : ∀ {i j name}, i ≠ j → own j name = true → own i name = false
  buffers : ∀ {i j p a}, i ≠ j → R i p a → ¬W j p a

/-- What task `j` sees of the peers is the state `c` of peers that run it alone. -/
def Projects (own : J → Bytes → Bool) (R : J → P → Addr → Prop) (x : P → Tasks J P Id T O) (j : J)
    (c : Cluster P Id T Store O) : Prop :=
  ∀ p, ∃ τ : Store, τ.Agree (R j p) ((x p).view j).store ∧
    c p = ((x p).view j).only (own j) τ

/-- Every message belongs to a task. -/
structure Tasks.Owned (own : J → Bytes → Bool) (x : Tasks J P Id T O) : Prop where
  conn : ∀ s, ∀ m ∈ x.rest.conn s, ∃ j, own j m.name = true
  handler : ∀ s name, (x.rest.handler s).name? = some name → ∃ j, own j name = true

section Project

variable [DecidableEq P] {own : Bytes → Bool}

theorem only_receive {p : P} {m : Message P T} (h : own m.name = true) (τ : Store)
    (y : Node P Id T Store O) : (y.receive p m).only own τ = (y.only own τ).receive p m := by
  simp only [Node.only, Node.receive, filter_update, List.filter_append, List.filter_cons, h,
    if_true, List.filter_nil]

theorem only_receive_other {p : P} {m : Message P T} (h : own m.name = false) (τ : Store)
    (y : Node P Id T Store O) : (y.receive p m).only own τ = y.only own τ := by
  simp only [Node.only, Node.receive, filter_update, List.filter_append, List.filter_cons, h,
    Bool.false_eq_true, if_false, List.filter_nil, List.append_nil]
  rw [update_self' rfl]

end Project

section Project

variable [DecidableEq J] [DecidableEq P] [DecidableEq Id] {ident : P → Id}
  {may : P → J → List (Par P T Store O) → Prop} {own : J → Bytes → Bool} {len : J → Bytes → ℕ}
  {R W : J → P → Addr → Prop}
  {x x' : P → Tasks J P Id T O}

/-- What the tasks see when one of them moves on a peer, or a handler does. -/
theorem Tasks.view_step (hsep : Separated own R W) {p : P} {x : Tasks J P Id T O}
    (howned : x.Owned own) {τ : J → Store}
    (hτ : ∀ i, (τ i).Agree (R i p) (x.view i).store)
    (hloc : ∀ i, Local (own i) (len i) (R i p) (W i p) (x.code i))
    (htyped : ∀ i, ((x.view i).only (own i) (τ i)).Typed (len i) (W i p)) {e : Event P T} {j : J}
    {y : Node P Id T Store O} (hs : NStep ident Store.writeBody p (x.view j) e y) (i : J) :
    ∃ τ' : Store, τ'.Agree (R i p) ((x.put j y).view i).store ∧
      ((x.view i).only (own i) (τ i) = ((x.put j y).view i).only (own i) τ' ∧ (e = .tau ∨ i ≠ j) ∨
        NStep ident Store.writeBody p ((x.view i).only (own i) (τ i)) e
          (((x.put j y).view i).only (own i) τ')) := by
  by_cases hcode : x.code j = y.code
  · -- a handler: everybody looks at it
    have htau : e = .tau := by
      cases hs with
      | send hc =>
          rw [show x.code j = _ from hc] at hcode
          simp at hcode
      | launch hc => exact absurd ((hloc j).thread (x := x.view j) hc) id
      | _ => rfl
    subst htau
    have hmem : ∀ s m ptr, (x.view i).handler s = .write m ptr → own i m.name = false →
        ∀ k < m.data.length, ¬R i p (ptr + k) := by
      intro s m ptr hh hown k hk hR
      obtain ⟨j', hj'⟩ := howned.handler s m.name (by rw [show x.rest.handler s = _ from hh]; rfl)
      have hne : i ≠ j' := by
        intro heq
        rw [heq, hj'] at hown
        exact absurd hown (by simp)
      have hbody : ((x.view j').only (own j') (τ j')).handler s = .write m ptr := by
        rw [Node.handler_only, show (x.view j').handler s = _ from hh, Handler.only_own rfl hj']
      exact hsep.buffers hne hR ((htyped j').body s m ptr hbody k hk)
    obtain ⟨τ', hτ', hstep⟩ := (x.handler_step hs hcode i).only_handler
      (by
        by_cases hij : i = j
        · subst hij
          rwa [view_put_self]
        · rw [view_put_ne hij]
          rfl) hmem (hτ i)
    exact ⟨τ', hτ', hstep.imp (fun h => ⟨h, .inl rfl⟩) id⟩
  · by_cases hij : i = j
    · subst hij
      rw [view_put_self]
      obtain ⟨τ', hτ', hstep⟩ := hs.only_own hcode (hloc i) (hτ i)
      exact ⟨τ', hτ', .inr hstep⟩
    · have hsame : (x.view j).Same (own i) (R i p) y :=
        hs.same hcode (hloc j) (fun name hname => hsep.names hij hname)
          fun a ha => hsep.buffers hij ha
      rw [view_put_ne hij]
      refine ⟨τ i, ⟨fun a ha => ?_, (hτ i).count⟩, .inl ⟨?_, .inr hij⟩⟩
      · rw [(hτ i).mem a ha]
        exact (hsame.mem a ha).symm
      · simp only [Node.only, hsame.mailbox, hsame.waitQ, hsame.recvQ, hsame.handler, hsame.conn,
          hsame.returned]
        rfl

/-- What a handler has at hand, and what is on the connections, comes from the tasks. -/
theorem Tasks.Owned.put {p : P} {x : Tasks J P Id T O} (h : x.Owned own) {e : Event P T} {j : J}
    {y : Node P Id T Store O} (hs : NStep ident Store.writeBody p (x.view j) e y) :
    (x.put j y).Owned own := by
  have hupd : ∀ (s : P) (v : Handler P T),
      (∀ name, v.name? = some name → ∃ j, own j name = true) →
      ∀ s' name, (Function.update x.rest.handler s v s').name? = some name →
        ∃ j, own j name = true := by
    intro s v hv s' name hname
    by_cases hs' : s' = s
    · subst hs'
      rw [Function.update_self] at hname
      exact hv name hname
    · rw [Function.update_of_ne hs'] at hname
      exact h.handler s' name hname
  have hkeep : ∀ (s : P) (v : Handler P T), v.name? = (x.rest.handler s).name? →
      ∀ s' name, (Function.update x.rest.handler s v s').name? = some name →
        ∃ j, own j name = true :=
    fun s v hv => hupd s v fun name hname => h.handler s name (hv ▸ hname)
  have hidle : ∀ (s : P) (s' : P) (name : Bytes),
      (Function.update x.rest.handler s .idle s').name? = some name → ∃ j, own j name = true :=
    fun s => hupd s .idle fun name hname => absurd hname (by simp [Handler.name?])
  cases hs with
  | join | send | mailGet | mailGot | slotGet | slotWait | act | ret | launch =>
      exact ⟨h.conn, h.handler⟩
  | @header s m ms hi hcn =>
      have hcn' : x.rest.conn s = m :: ms := hcn
      refine ⟨?_, hupd s (Handler.take m) ?_⟩
      · intro s' m' (hm' : m' ∈ Function.update x.rest.conn s ms s')
        by_cases hs' : s' = s
        · subst hs'
          rw [Function.update_self] at hm'
          apply h.conn s' m'
          rw [hcn']
          exact List.mem_cons_of_mem _ hm'
        · rw [Function.update_of_ne hs'] at hm'
          exact h.conn s' m' hm'
      · intro name hname
        rw [Handler.name?_take, Option.some.injEq] at hname
        subst hname
        apply h.conn s m
        rw [hcn']
        exact List.mem_cons_self
  | mailPut hh => exact ⟨h.conn, hidle _⟩
  | slotTake hh => exact ⟨h.conn, hkeep _ _ (by rw [show x.rest.handler _ = _ from hh]; rfl)⟩
  | body hh => exact ⟨h.conn, hkeep _ _ (by rw [show x.rest.handler _ = _ from hh]; rfl)⟩
  | slotPut hh => exact ⟨h.conn, hidle _⟩

omit [DecidableEq J] [DecidableEq Id] in
theorem Tasks.Owned.receive {x : Tasks J P Id T O} (h : x.Owned own) {s : P} {m : Message P T}
    (hm : ∃ j, own j m.name = true) : (x.receive s m).Owned own := by
  refine ⟨?_, h.handler⟩
  intro s' m' (hm' : m' ∈ Function.update x.rest.conn s (x.rest.conn s ++ [m]) s')
  by_cases hs : s' = s
  · subst hs
    rw [Function.update_self] at hm'
    rcases List.mem_append.mp hm' with hm' | hm'
    · exact h.conn s' m' hm'
    · rw [List.mem_singleton.mp hm']
      exact hm
  · rw [Function.update_of_ne hs] at hm'
    exact h.conn s' m' hm'

omit [DecidableEq J] [DecidableEq Id] in
/-- One peer changes. -/
theorem Tasks.Owned.update (h : ∀ q, (x q).Owned own) {p : P} {z : Tasks J P Id T O}
    (hz : z.Owned own) (q : P) : (Function.update x p z q).Owned own := by
  by_cases hq : q = p
  · subst hq
    rwa [Function.update_self]
  · rw [Function.update_of_ne hq]
    exact h q

/-- What holds of peers that run tasks: every task is in a state that it reaches alone, too. -/
structure TaskInv (own : J → Bytes → Bool) (R : J → P → Addr → Prop)
    (reach : J → Cluster P Id T Store O → Prop) (x : P → Tasks J P Id T O) : Prop where
  owned : ∀ p, (x p).Owned own
  alone : ∀ j, ∃ c, reach j c ∧ Projects own R x j c

variable [LT T] {reach : J → Cluster P Id T Store O → Prop}

/-- **A step of the peers is, for every task, a step of the task alone or none.** -/
theorem TaskInv.step (hsep : Separated own R W)
    (hloc : ∀ j c, reach j c → ∀ p, Local (own j) (len j) (R j p) (W j p) (c p).code ∧
      (c p).Typed (len j) (W j p))
    (hreach : ∀ j c c', reach j c → CStep ident Store.writeBody c c' → reach j c')
    (h : TaskInv own R reach x) (hs : TStep ident may x x') : TaskInv own R reach x' := by
  choose c hc hproj using h.alone
  choose τ hτ hcτ using hproj
  have hlocal : ∀ j p, Local (own j) (len j) (R j p) (W j p) ((x p).code j) := by
    intro j p
    have hl := (hloc j _ (hc j) p).1
    rw [hcτ j p] at hl
    exact hl
  have hstep := fun (p : P) (e : Event P T) (j : J) (y : Node P Id T Store O)
      (hs : NStep ident Store.writeBody p ((x p).view j) e y) (i : J) =>
    Tasks.view_step hsep (h.owned p) (fun i => hτ i p) (fun i => hlocal i p)
      (fun i => by
        have ht := (hloc i _ (hc i) p).2
        rwa [hcτ i p] at ht) hs i
  -- a peer has moved, and the task `i` sees `c'` there
  have hproj : ∀ (p : P) (i : J) (z : Tasks J P Id T O) (τ' : Store),
      τ'.Agree (R i p) (z.view i).store →
      Projects own R (Function.update x p z) i
        (Function.update (c i) p ((z.view i).only (own i) τ')) := by
    intro p i z τ' hτ' q
    by_cases hq : q = p
    · subst hq
      rw [Function.update_self, Function.update_self]
      exact ⟨τ', hτ', rfl⟩
    · rw [Function.update_of_ne hq, Function.update_of_ne hq]
      exact ⟨τ i q, hτ i q, hcτ i q⟩
  cases hs with
  | @tau p j y _ hs =>
      refine ⟨Tasks.Owned.update h.owned ((h.owned p).put hs), fun i => ?_⟩
      obtain ⟨τ', hτ', ⟨heq, -⟩ | hn⟩ := hstep p .tau j y hs i
      · have hpr := hproj p i _ τ' hτ'
        rw [← heq, ← hcτ i p, Function.update_eq_self] at hpr
        exact ⟨c i, hc i, hpr⟩
      · rw [← hcτ i p] at hn
        exact ⟨_, hreach i _ _ (hc i) (.tau hn), hproj p i _ τ' hτ'⟩
  | @send x₁ p id j m y _ hs hx₁ =>
      obtain ⟨hown, -⟩ := hs.send_local (hlocal j p)
      have howned : ∀ q, (x₁ q).Owned own := by
        rw [hx₁]
        exact Tasks.Owned.update h.owned ((h.owned p).put hs)
      refine ⟨Tasks.Owned.update howned ((howned id).receive ⟨j, hown⟩), fun i => ?_⟩
      obtain ⟨τ', hτ', hn⟩ := hstep p (.send id m) j y hs i
      have hpr := hproj p i _ τ' hτ'
      rw [← hx₁] at hpr
      rcases hn with ⟨heq, htau | hij⟩ | hn
      · cases htau
      · rw [← heq, ← hcτ i p, Function.update_eq_self] at hpr
        refine ⟨c i, hc i, ?_⟩
        intro q
        by_cases hq : q = id
        · subst hq
          rw [Function.update_self]
          obtain ⟨τ₂, hτ₂, hc₂⟩ := hpr q
          refine ⟨τ₂, hτ₂, ?_⟩
          rw [hc₂]
          exact (only_receive_other (hsep.names hij hown) τ₂ ((x₁ q).view i)).symm
        · rw [Function.update_of_ne hq]
          exact hpr q
      · rw [← hcτ i p] at hn
        have hown' : own i m.name = true := (hn.send_local (hloc i _ (hc i) p).1).1
        refine ⟨_, hreach i _ _ (hc i) (.send hn rfl), ?_⟩
        intro q
        by_cases hq : q = id
        · subst hq
          rw [Function.update_self, Function.update_self]
          obtain ⟨τ₂, hτ₂, hc₂⟩ := hpr q
          refine ⟨τ₂, hτ₂, ?_⟩
          rw [hc₂]
          exact (only_receive hown' τ₂ ((x₁ q).view i)).symm
        · rw [Function.update_of_ne hq, Function.update_of_ne hq]
          exact hpr q

/-- Peers that are about to run the tasks. -/
def Tasks.start (prog : J → P → List (Par P T Store O)) (mem : P → Memory.Mem) (p : P) :
    Tasks J P Id T O where
  rest := Node.fresh [] ⟨mem p, 0⟩
  code j := prog j p
  count _ := 0

omit [DecidableEq J] [DecidableEq P] [DecidableEq Id] [LT T] in
theorem TaskInv.start {prog : J → P → List (Par P T Store O)} {mem : P → Memory.Mem}
    (hstart : ∀ j, reach j (Cluster.start (prog j) fun p => ⟨mem p, 0⟩)) :
    TaskInv own R reach (Tasks.start prog mem : P → Tasks J P Id T O) where
  owned p := ⟨fun _ _ hm => absurd hm List.not_mem_nil, fun _ _ hn => nomatch hn⟩
  alone j := by
    refine ⟨_, hstart j, ?_⟩
    intro p
    refine ⟨⟨mem p, 0⟩, .refl _ _, ?_⟩
    simp only [Cluster.start, Node.fresh, Node.only, Tasks.view, Tasks.start, Handler.only_idle,
      List.filter_nil]
    congr 1 <;> funext <;> simp [onlyBox]

end Project

end StdmlCollective

import StdmlCollective.Refine.Cluster

/-!
# Threads that never finish

A thread that has thrown, or that waits at a slot for a peer which has nothing to send, never
leaves its section, and its peer never comes to an end.
-/

namespace StdmlCollective

variable {P Id T S O : Type} {ident : P → Id} {write : Addr → Bytes → S → S}

/-- The thread sends to `d`. -/
def Thread.SendsTo (d : P) : Thread P T S O → Prop
  | .send id _ _ _ => id = d
  | _ => False

/-- The thread has thrown, or it waits for a slot message of `s` under `name`. -/
def Thread.Blocked (s : P) (name : Bytes) : Thread P T S O → Prop
  | .throws => True
  | .slotGet id nm _ | .slotWait id nm _ => id = s ∧ nm = name
  | _ => False

/-- The node has a thread that is blocked. -/
def Node.Blocked (x : Node P Id T S O) (s : P) (name : Bytes) : Prop :=
  ∃ b ∈ x.code, ∃ th ∈ b.threads, th.Blocked s name

/-- Nothing of `s` is on its way through the node, and no slot of `s` under `name` is filled. -/
structure Node.Silent (ident : P → Id) (x : Node P Id T S O) (s : P) (name : Bytes) : Prop where
  conn : x.conn s = []
  handler : x.handler s = .idle
  recvQ : x.recvQ (ident s) name = []

/-- A blocked thread of a section is still there when another thread has moved on to `r`. -/
theorem Node.Blocked.thread {x x' : Node P Id T S O} {s : P} {name : Bytes} {t : T}
    {l₁ l₂ r : List (Thread P T S O)} {th : Thread P T S O} {bs : List (Par P T S O)}
    (h : x.Blocked s name) (hc : x.code = ⟨t, l₁ ++ th :: l₂⟩ :: bs)
    (hc' : x'.code = ⟨t, l₁ ++ (r ++ l₂)⟩ :: bs)
    (hth : th.Blocked s name → ∃ th' ∈ r, th'.Blocked s name) : x'.Blocked s name := by
  obtain ⟨b, hb, th', hth', hbl⟩ := h
  rw [hc] at hb
  rcases List.mem_cons.mp hb with rfl | hb
  · suffices hex : ∃ th'' ∈ l₁ ++ (r ++ l₂), th''.Blocked s name from
      ⟨⟨t, l₁ ++ (r ++ l₂)⟩, by rw [hc']; exact List.mem_cons_self, hex⟩
    rcases List.mem_append.mp hth' with hmem | hmem
    · exact ⟨th', List.mem_append_left _ hmem, hbl⟩
    rcases List.mem_cons.mp hmem with rfl | hmem
    · obtain ⟨th'', hmem, hbl'⟩ := hth hbl
      exact ⟨th'', List.mem_append_right _ (List.mem_append_left _ hmem), hbl'⟩
    · exact ⟨th', List.mem_append_right _ (List.mem_append_right _ hmem), hbl⟩
  · exact ⟨b, by rw [hc']; exact List.mem_cons_of_mem _ hb, th', hth', hbl⟩

variable [DecidableEq P] [DecidableEq Id]

/-- A step of a node does not end a thread that is blocked. -/
theorem NStep.blocked {self : P} {x x' : Node P Id T S O} {e : Event P T}
    (h : NStep ident write self x e x') {s : P} {name : Bytes} (hs : x.Silent ident s name)
    (hb : x.Blocked s name) : x'.Blocked s name := by
  cases h with
  | join hc =>
      obtain ⟨b, hmem, th, hth, hbl⟩ := hb
      rw [hc] at hmem
      rcases List.mem_cons.mp hmem with rfl | hmem
      · exact absurd hth List.not_mem_nil
      · exact ⟨b, hmem, th, hth, hbl⟩
  | send hc | mailGot hc | act hc | ret hc | launch hc =>
      exact hb.thread (r := []) hc rfl fun hbl => absurd hbl id
  | @mailGet t l₁ l₂ bs id name' add m q hc _ =>
      exact hb.thread (r := [.mailGot id name' add m]) hc rfl fun hbl => absurd hbl fun h => h
  | @slotGet t l₁ l₂ bs id name' ptr hc _ =>
      exact hb.thread (r := [.slotWait id name' ptr]) hc rfl fun hbl =>
        ⟨_, List.mem_cons_self, hbl⟩
  | @slotWait t l₁ l₂ bs id name' ptr q hc hq =>
      refine hb.thread (r := []) hc rfl fun hbl => ?_
      obtain ⟨rfl, rfl⟩ := hbl
      rw [hs.recvQ] at hq
      exact absurd hq.symm (List.cons_ne_nil _ _)
  | header | mailPut | slotTake | body | slotPut => exact hb

/-- Nor does it fill a slot of a peer of which nothing has arrived. -/
theorem NStep.silent (hid : Function.Injective ident) {self : P} {x x' : Node P Id T S O}
    {e : Event P T} (h : NStep ident write self x e x') {s : P} {name : Bytes}
    (hs : x.Silent ident s name) : x'.Silent ident s name := by
  -- the handler of `s` cannot take a step
  have hne : ∀ {s' : P} {v : Handler P T}, x.handler s' = v → v ≠ .idle → s' ≠ s := by
    rintro s' v hv hidle rfl
    exact hidle (hv.symm.trans hs.handler)
  cases h with
  | join | send | mailGet | mailGot | slotGet | act | ret | launch =>
      exact ⟨hs.conn, hs.handler, hs.recvQ⟩
  | @slotWait t l₁ l₂ bs id name' ptr q hc hq =>
      refine ⟨hs.conn, hs.handler, ?_⟩
      have hkey : ¬(ident s = ident id ∧ name = name') := by
        rintro ⟨hkey, rfl⟩
        rw [← hkey, hs.recvQ] at hq
        exact absurd hq.symm (List.cons_ne_nil _ _)
      simpa only [setBox_ne _ _ _ _ hkey] using hs.recvQ
  | @header s' m ms hh hc =>
      have hs' : s ≠ s' := by
        rintro rfl
        rw [hs.conn] at hc
        exact absurd hc.symm (List.cons_ne_nil _ _)
      exact ⟨by simpa [hs'] using hs.conn, by simpa [hs'] using hs.handler, hs.recvQ⟩
  | @mailPut s' m hh _ =>
      have hs' := (hne hh (by simp)).symm
      exact ⟨hs.conn, by simpa [hs'] using hs.handler, hs.recvQ⟩
  | @slotTake s' m ptr q hh _ =>
      have hs' := (hne hh (by simp)).symm
      exact ⟨hs.conn, by simpa [hs'] using hs.handler, hs.recvQ⟩
  | @body s' m ptr hh =>
      have hs' := (hne hh (by simp)).symm
      exact ⟨hs.conn, by simpa [hs'] using hs.handler, hs.recvQ⟩
  | @slotPut s' m ptr hh _ =>
      have hs' := (hne hh (by simp)).symm
      have hkey : ¬(ident s = ident s' ∧ name = m.name) := fun h => hs' (hid h.1)
      exact ⟨hs.conn, by simpa [hs'] using hs.handler,
        by simpa only [setBox_ne _ _ _ _ hkey] using hs.recvQ⟩

/-- What is said of all threads, and does not depend on how far a receive has come, is kept by a
step of the node. -/
theorem NStep.forall_threads {Q : Thread P T S O → Prop}
    (hgot : ∀ id name add m, Q (.mailGet id name add) → Q (.mailGot id name add m))
    (hwait : ∀ id name ptr, Q (.slotGet id name ptr) → Q (.slotWait id name ptr)) {self : P}
    {x x' : Node P Id T S O} {e : Event P T} (h : NStep ident write self x e x')
    (hs : ∀ b ∈ x.code, ∀ th ∈ b.threads, Q th) : ∀ b ∈ x'.code, ∀ th ∈ b.threads, Q th := by
  -- the thread at work has moved on to `r`
  have hthread : ∀ {t : T} {l₁ l₂ : List (Thread P T S O)} {th : Thread P T S O}
      (r : List (Thread P T S O)) {bs : List (Par P T S O)},
      x.code = ⟨t, l₁ ++ th :: l₂⟩ :: bs → (Q th → ∀ th' ∈ r, Q th') →
      ∀ b ∈ (⟨t, l₁ ++ (r ++ l₂)⟩ :: bs : List (Par P T S O)), ∀ th ∈ b.threads, Q th := by
    intro t l₁ l₂ th r bs hc hr b hb th' hth'
    rw [hc] at hs
    rcases List.mem_cons.mp hb with rfl | hb
    · rcases List.mem_append.mp hth' with hmem | hmem
      · exact hs _ List.mem_cons_self th' (List.mem_append_left _ hmem)
      rcases List.mem_append.mp hmem with hmem | hmem
      · exact hr (hs _ List.mem_cons_self th (by simp)) th' hmem
      · exact hs _ List.mem_cons_self th'
          (List.mem_append_right _ (List.mem_cons_of_mem _ hmem))
    · exact hs b (List.mem_cons_of_mem _ hb) th' hth'
  cases h with
  | join hc =>
      rw [hc] at hs
      exact fun b hb => hs b (List.mem_cons_of_mem _ hb)
  | send hc | mailGot hc | act hc | ret hc | launch hc | slotWait hc _ =>
      exact hthread [] hc fun _ _ hmem => absurd hmem List.not_mem_nil
  | @mailGet t l₁ l₂ bs id name add m q hc _ =>
      refine hthread [.mailGot id name add m] hc fun hq th hmem => ?_
      obtain rfl := List.mem_singleton.mp hmem
      exact hgot id name add m hq
  | @slotGet t l₁ l₂ bs id name ptr hc _ =>
      refine hthread [.slotWait id name ptr] hc fun hq th hmem => ?_
      obtain rfl := List.mem_singleton.mp hmem
      exact hwait id name ptr hq
  | header | mailPut | slotTake | body | slotPut => exact hs

/-- A step of a node adds no send. -/
theorem NStep.sendsTo {self : P} {x x' : Node P Id T S O} {e : Event P T}
    (h : NStep ident write self x e x') {d : P}
    (hs : ∀ b ∈ x.code, ∀ th ∈ b.threads, ¬th.SendsTo d) :
    ∀ b ∈ x'.code, ∀ th ∈ b.threads, ¬th.SendsTo d :=
  h.forall_threads (fun _ _ _ _ _ => id) (fun _ _ _ _ => id) hs

variable [LT T]

/-- Peer `d` waits for a message that peer `s` does not send. -/
structure Cluster.Starved (ident : P → Id) (c : Cluster P Id T S O) (s d : P) (name : Bytes) :
    Prop where
  sends : ∀ b ∈ (c s).code, ∀ th ∈ b.threads, ¬th.SendsTo d
  silent : (c d).Silent ident s name
  blocked : (c d).Blocked s name

theorem Cluster.Starved.step (hid : Function.Injective ident) {c c' : Cluster P Id T S O} {s d : P}
    {name : Bytes} (h : c.Starved ident s d name) (hs : CStep ident write c c') :
    c'.Starved ident s d name := by
  -- one node has taken a step
  have hnode : ∀ {p : P} {x : Node P Id T S O} {e : Event P T}, NStep ident write p (c p) e x →
      Cluster.Starved ident (Function.update c p x) s d name := by
    intro p x e hn
    refine ⟨?_, ?_, ?_⟩
    · by_cases hp : s = p
      · subst hp
        simpa using hn.sendsTo h.sends
      · simpa [hp] using h.sends
    · by_cases hp : d = p
      · subst hp
        simpa using hn.silent hid h.silent
      · simpa [hp] using h.silent
    · by_cases hp : d = p
      · subst hp
        simpa using hn.blocked h.silent h.blocked
      · simpa [hp] using h.blocked
  cases hs with
  | tau hn => exact hnode hn
  | launch hn _ => exact hnode hn
  | @send c₁ p id x m hn hc₁ =>
      subst hc₁
      have h₁ := hnode hn
      -- the message is not one from `s` to `d`
      have hne : id = d → p ≠ s := by
        rintro rfl rfl
        cases hn with
        | @send t l₁ l₂ bs _ name' flags data hc =>
            refine h.sends ⟨t, _⟩ (by rw [hc]; exact List.mem_cons_self)
              (.send id name' flags data) (by simp) rfl
      refine ⟨?_, ?_, ?_⟩
      · by_cases hq : s = id
        · subst hq
          simpa [Node.receive] using h₁.sends
        · simpa [hq] using h₁.sends
      · by_cases hq : d = id
        · subst hq
          have hps := (hne rfl).symm
          have hsil := h₁.silent
          rw [Function.update_self]
          exact ⟨by simpa [Node.receive, hps] using hsil.conn, hsil.handler, hsil.recvQ⟩
        · simpa [hq] using h₁.silent
      · by_cases hq : d = id
        · subst hq
          rw [Function.update_self]
          exact h₁.blocked
        · simpa [hq] using h₁.blocked

/-- **A peer that waits for a message nobody sends never comes to its end.** -/
theorem not_final_of_starved (hid : Function.Injective ident) {prog : P → List (Par P T S O)}
    {σ : P → S} (s d : P) (name : Bytes)
    (hsends : ∀ b ∈ prog s, ∀ th ∈ b.threads, ¬th.SendsTo d)
    (hblocked : ∃ b ∈ prog d, ∃ th ∈ b.threads, th.Blocked s name)
    {c : Cluster P Id T S O} (hr : CReach ident write prog σ c) : ¬c.Final := by
  have hstarved : c.Starved ident s d name := by
    induction hr with
    | refl => exact ⟨hsends, ⟨rfl, rfl, rfl⟩, hblocked⟩
    | tail _ hs ih => exact ih.step hid hs
  intro hfinal
  obtain ⟨b, hb, -⟩ := hstarved.blocked
  rw [hfinal d] at hb
  exact absurd hb List.not_mem_nil

end StdmlCollective

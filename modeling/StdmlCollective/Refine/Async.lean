import StdmlCollective.Lib.Pool
import StdmlCollective.Refine.Early

/-!
# Chunks on one runtime

A peer with a `multi_thread_runtime` builds one task for every chunk of its work and hands all of
them to the pool of the runtime. A chunk is a sequence of sections. Its thread of the pool runs
what is not `par` by itself; for a `par` it hands the tasks of the section to the same pool, one
after the other, and waits until all of them are through, without giving its thread back.

A receive into a buffer posts the pointer when the task is built, which is before any chunk runs.
-/

namespace StdmlCollective

variable {J P Id T S O : Type}

/-! ## Who runs a thread -/

/-- What a thread of the pool has been given: the steps of a chunk, or the task of a section that
deals with peer `q`. -/
inductive Work (J P : Type) where
  | chunk (j : J)
  | task (j : J) (q : P)

/-- The peer that a task of a `par` deals with: `send_task` and `recv_onto`. -/
def Thread.peer? : Thread P T S O → Option P
  | .send id _ _ _ | .mailGet id _ _ | .mailGot id _ _ _ => some id
  | _ => none

/-- Who runs a thread of chunk `j`. -/
def Thread.work (j : J) (th : Thread P T S O) : Work J P :=
  match th.peer? with
  | some q => .task j q
  | none => .chunk j

/-- The peers that the tasks of a section deal with. -/
def Par.peers (b : Par P T S O) : List P := b.threads.filterMap Thread.peer?

/-- All threads of a section are tasks of a `par`. -/
def Par.Tasks (b : Par P T S O) : Prop := ∀ th ∈ b.threads, th.peer?.isSome = true

/-- How the sections of chunk `j` get on, and who brings them on. -/
inductive Advance (j : J) : List (Par P T S O) → List (Par P T S O) → Work J P → Prop where
  | join {t : T} {bs : List (Par P T S O)} : Advance j (⟨t, []⟩ :: bs) bs (.chunk j)
  | leave {t : T} {l₁ l₂ : List (Thread P T S O)} {th : Thread P T S O}
      {bs : List (Par P T S O)} :
      Advance j (⟨t, l₁ ++ th :: l₂⟩ :: bs) (⟨t, l₁ ++ l₂⟩ :: bs) (th.work j)
  | got {t : T} {l₁ l₂ : List (Thread P T S O)} {id : P} {name : Bytes} {add : Bytes → S → S}
      {m : Message P T} {bs : List (Par P T S O)} :
      Advance j (⟨t, l₁ ++ .mailGet id name add :: l₂⟩ :: bs)
        (⟨t, l₁ ++ .mailGot id name add m :: l₂⟩ :: bs) (.task j id)
  | post {t : T} {l₁ l₂ : List (Thread P T S O)} {id : P} {name : Bytes} {ptr : Addr}
      {bs : List (Par P T S O)} :
      Advance j (⟨t, l₁ ++ .slotGet id name ptr :: l₂⟩ :: bs)
        (⟨t, l₁ ++ .slotWait id name ptr :: l₂⟩ :: bs) (.chunk j)

/-- A step of a node is a step of a handler, or brings its sections on. -/
theorem NStep.advance [DecidableEq P] [DecidableEq Id] {ident : P → Id}
    {write : Addr → Bytes → S → S} {self : P} {x x' : Node P Id T S O} {e : Event P T}
    (hs : NStep ident write self x e x') (j : J) :
    x.code = x'.code ∨ ∃ w, Advance j x.code x'.code w := by
  cases hs with
  | join hc =>
      rw [hc]
      exact .inr ⟨_, .join⟩
  | send hc | mailGot hc | slotWait hc _ | act hc | ret hc | launch hc =>
      rw [hc]
      exact .inr ⟨_, .leave⟩
  | mailGet hc _ =>
      rw [hc]
      exact .inr ⟨_, .got⟩
  | slotGet hc _ =>
      rw [hc]
      exact .inr ⟨_, .post⟩
  | header | mailPut | slotTake | body | slotPut => exact .inl rfl

/-! ## The peers -/

/-- `runtime::New(8)`. -/
def runtimeSize : ℕ := 8

/-- The peers at work on their chunks. `build` lists the chunks whose tasks have still to be
built, and `adding` says which tasks of a `par` have still to be added to the pool. -/
structure AsyncState (J P Id T O : Type) where
  peer : P → Tasks J P Id T O
  build : P → List J
  pool : P → Pool (Work J P)
  adding : P → J → Option (List P)

/-- The pointers of all receives into buffers have been posted. -/
def Posted (bs : List (Par P T S O)) : Prop :=
  ∀ b ∈ bs, ∀ th ∈ b.threads, ∀ s name ptr, th ≠ .slotGet s name ptr

namespace AsyncState

/-- A thread of the pool is through with what it has been given. -/
def Through (code : J → List (Par P T S O)) : Work J P → Prop
  | .chunk j => code j = []
  | .task j q => ∀ b bs, code j = b :: bs → q ∉ b.peers

/-- The sections of chunk `j` of peer `p` may become `code`: who brings them on is at work, and
waits for nobody. -/
def May (s : AsyncState J P Id T O) (p : P) (j : J) (code : List (Par P T Store O)) : Prop :=
  ∃ w ∈ (s.pool p).running, Advance j ((s.peer p).code j) code w ∧
    (w = .chunk j → s.adding p j = none)

variable [DecidableEq J] [DecidableEq P] [DecidableEq Id]

/-- A step of the peers. The first three are those of the thread that makes the call: it builds
the tasks of the chunks, and adds the chunks to the pool (a step of the pool, as are those of its
threads). `fork`, `add` and `wait` are the call of `par` by the thread of a chunk. -/
inductive Step (ident : P → Id) : AsyncState J P Id T O → AsyncState J P Id T O → Prop where
  | post {s : AsyncState J P Id T O} {p : P} {j : J} {l : List J} {y : Node P Id T Store O} :
      s.build p = j :: l → Post ident ((s.peer p).view j) y →
      Step ident s { s with peer := Function.update s.peer p ((s.peer p).put j y) }
  | built {s : AsyncState J P Id T O} {p : P} {j : J} {l : List J} :
      s.build p = j :: l → Posted ((s.peer p).code j) →
      Step ident s { s with build := Function.update s.build p l }
  | pool {s : AsyncState J P Id T O} {p : P} {q : Pool (Work J P)} :
      s.build p = [] → Pool.Step runtimeSize (Through (s.peer p).code) (s.pool p) q →
      Step ident s { s with pool := Function.update s.pool p q }
  | fork {s : AsyncState J P Id T O} {p : P} {j : J} {b : Par P T Store O}
      {bs : List (Par P T Store O)} :
      .chunk j ∈ (s.pool p).running → s.adding p j = none → (s.peer p).code j = b :: bs →
      b.threads ≠ [] → b.Tasks →
      Step ident s { s with
        adding := Function.update s.adding p (Function.update (s.adding p) j (some b.peers)) }
  | add {s : AsyncState J P Id T O} {p q : P} {j : J} {l : List P} :
      s.adding p j = some (q :: l) →
      Step ident s { s with
        pool := Function.update s.pool p
          { s.pool p with queue := (s.pool p).queue ++ [.task j q] }
        adding := Function.update s.adding p (Function.update (s.adding p) j (some l)) }
  | wait {s : AsyncState J P Id T O} {p : P} {j : J} :
      s.adding p j = some [] → (∀ q, .task j q ∉ (s.pool p).running ++ (s.pool p).queue) →
      Step ident s { s with
        adding := Function.update s.adding p (Function.update (s.adding p) j none) }
  | run {s : AsyncState J P Id T O} {x : P → Tasks J P Id T O} :
      TStep ident s.May s.peer x → Step ident s { s with peer := x }

omit [DecidableEq J] [DecidableEq P] [DecidableEq Id] in
/-- Peer `p` has returned. -/
def ReturnedAt (s : AsyncState J P Id T O) (p : P) : Prop := s.build p = [] ∧ (s.pool p).Done

omit [DecidableEq J] [DecidableEq P] [DecidableEq Id] in
/-- Every peer has returned. -/
def Returned (s : AsyncState J P Id T O) : Prop := ∀ p, s.ReturnedAt p

omit [DecidableEq J] [DecidableEq P] [DecidableEq Id] in
/-- All peers are about to build the tasks of the chunks `order`. -/
def start (prog : J → P → List (Par P T Store O)) (mem : P → Memory.Mem) (order : List J) :
    AsyncState J P Id T O where
  peer := Tasks.start prog mem
  build _ := order
  pool _ := ⟨order.map .chunk, [], []⟩
  adding _ _ := none

/-- The states that the peers can reach. -/
def Reach (ident : P → Id) (prog : J → P → List (Par P T Store O)) (mem : P → Memory.Mem)
    (order : List J) (s : AsyncState J P Id T O) : Prop :=
  Relation.ReflTransGen (Step ident) (start prog mem order) s

end AsyncState

/-! ## Sections -/

/-- What a section of a chunk is like: the tasks of a `par`, each with a peer of its own, or one
thread that is none. -/
structure Par.Proper (b : Par P T S O) : Prop where
  kind : b.Tasks ∨ b.threads.length ≤ 1
  nodup : b.peers.Nodup

/-- The first section changes. -/
theorem forall_mem_head {α : Type} {p : α → Prop} {x y : α} {l : List α}
    (h : ∀ z ∈ x :: l, p z) (hy : p y) : ∀ z ∈ y :: l, p z :=
  List.forall_mem_cons.mpr ⟨hy, (List.forall_mem_cons.mp h).2⟩

/-- A thread of a section changes. -/
theorem forall_mem_middle {α : Type} {p : α → Prop} {x y : α} {l₁ l₂ : List α}
    (h : ∀ z ∈ l₁ ++ x :: l₂, p z) (hy : p y) : ∀ z ∈ l₁ ++ y :: l₂, p z := by
  obtain ⟨h₁, h₂⟩ := List.forall_mem_append.mp h
  exact List.forall_mem_append.mpr ⟨h₁, forall_mem_head h₂ hy⟩

section Advance

variable {j : J} {code code' : List (Par P T S O)} {w : Work J P}

theorem Advance.proper (h : Advance j code code' w) (hc : ∀ b ∈ code, b.Proper) :
    ∀ b ∈ code', b.Proper := by
  cases h with
  | join => exact fun b hb => hc b (List.mem_cons_of_mem _ hb)
  | @leave t l₁ l₂ th bs =>
      have hb := hc _ List.mem_cons_self
      have hsub : (l₁ ++ l₂).Sublist (l₁ ++ th :: l₂) := by simp
      refine forall_mem_head hc ⟨hb.kind.imp ?_ ?_, hb.nodup.sublist (hsub.filterMap _)⟩
      · intro htasks th' hth'
        exact htasks th' (hsub.subset hth')
      · exact hsub.length_le.trans
  | @got t l₁ l₂ id name add m bs =>
      have hb := hc _ List.mem_cons_self
      refine forall_mem_head hc ⟨hb.kind.imp ?_ ?_, ?_⟩
      · exact fun htasks => forall_mem_middle htasks rfl
      · intro hlen
        simpa using hlen
      · have hnodup := hb.nodup
        simpa [Par.peers, Thread.peer?] using hnodup
  | @post t l₁ l₂ id name ptr bs =>
      have hb := hc _ List.mem_cons_self
      refine forall_mem_head hc ⟨.inr ?_, ?_⟩
      · rcases hb.kind with htasks | hlen
        · exact absurd (htasks (.slotGet id name ptr) (by simp)) (by simp [Thread.peer?])
        · simpa using hlen
      · have hnodup := hb.nodup
        simpa [Par.peers, Thread.peer?, List.filterMap_cons] using hnodup

theorem Advance.posted (h : Advance j code code' w) (hc : Posted code) : Posted code' := by
  cases h with
  | join => exact fun b hb => hc b (List.mem_cons_of_mem _ hb)
  | @leave t l₁ l₂ th bs =>
      have hsub : (l₁ ++ l₂).Sublist (l₁ ++ th :: l₂) := by simp
      exact forall_mem_head hc fun th' hth' => hc _ List.mem_cons_self th' (hsub.subset hth')
  | @got t l₁ l₂ id name add m bs =>
      exact forall_mem_head hc (forall_mem_middle (hc _ List.mem_cons_self) (by simp))
  | @post t l₁ l₂ id name ptr bs =>
      exact absurd rfl (hc _ List.mem_cons_self (.slotGet id name ptr) (by simp) id name ptr)

/-- A chunk that is brought on by one of its tasks stays in the section, with fewer tasks. -/
theorem Advance.of_task {q : P} (h : Advance j code code' (.task j q)) :
    ∃ b b' bs, code = b :: bs ∧ code' = b' :: bs ∧ (b.Tasks → b'.Tasks) ∧ b'.peers ⊆ b.peers := by
  have hmem : ∀ {t : T} {l₁ l₂ : List (Thread P T S O)} {th : Thread P T S O},
      (⟨t, l₁ ++ l₂⟩ : Par P T S O).peers ⊆ (⟨t, l₁ ++ th :: l₂⟩ : Par P T S O).peers := by
    intro t l₁ l₂ th
    have hsub : (l₁ ++ l₂).Sublist (l₁ ++ th :: l₂) := by simp
    exact (hsub.filterMap _).subset
  generalize hw : Work.task j q = w at h
  cases h with
  | join => cases hw
  | post => cases hw
  | @leave t l₁ l₂ th bs =>
      refine ⟨_, _, bs, rfl, rfl, ?_, hmem⟩
      intro htasks th' hth'
      have hsub : (l₁ ++ l₂).Sublist (l₁ ++ th :: l₂) := by simp
      exact htasks th' (hsub.subset hth')
  | @got t l₁ l₂ id name add m bs =>
      refine ⟨_, _, bs, rfl, rfl, ?_, ?_⟩
      · exact fun htasks => forall_mem_middle htasks rfl
      · intro q' hq'
        simpa [Par.peers, Thread.peer?] using hq'

theorem Advance.work (h : Advance j code code' w) : w = .chunk j ∨ ∃ q, w = .task j q := by
  cases h with
  | join | post => exact .inl rfl
  | @got t l₁ l₂ id => exact .inr ⟨id, rfl⟩
  | @leave t l₁ l₂ th bs =>
      unfold Thread.work
      cases th.peer? with
      | none => exact .inl rfl
      | some q => exact .inr ⟨q, rfl⟩

theorem Advance.ne_nil (h : Advance j code code' w) : code ≠ [] := by
  cases h <;> exact List.cons_ne_nil _ _

end Advance

/-! ## What holds of a peer -/

/-- The thread of chunk `j` is in a `par`: the tasks of the section that are not through are still
to be added (`l`), or with the pool. -/
structure Forks (code : J → List (Par P T S O)) (pool : Pool (Work J P)) (j : J) (l : List P) :
    Prop where
  chunk : .chunk j ∈ pool.running
  nodup : l.Nodup
  todo : ∀ q ∈ l, .task j q ∉ pool.running ++ pool.queue
  cover : ∃ b bs, code j = b :: bs ∧ b.Tasks ∧
    ∀ q ∈ b.peers, q ∈ l ∨ .task j q ∈ pool.running ++ pool.queue

/-- What holds of the sections of a peer, its pool and the calls of `par`. -/
structure PeerInv (code : J → List (Par P T S O)) (build : List J) (pool : Pool (Work J P))
    (adding : J → Option (List P)) : Prop where
  idle : build ≠ [] → pool.queue = [] ∧ pool.running = [] ∧ ∀ j, adding j = none
  posted : ∀ j, j ∉ build → Posted (code j)
  proper : ∀ j, ∀ b ∈ code j, b.Proper
  pending : ∀ w ∈ pool.pending, ∃ j, w = .chunk j
  nodup : (pool.running ++ pool.queue ++ pool.pending).Nodup
  bound : pool.running.length ≤ runtimeSize
  todo : ∀ j, .chunk j ∈ pool.running ++ pool.queue ++ pool.pending ∨ code j = []
  forked : ∀ j q, .task j q ∈ pool.running ++ pool.queue → ∃ l, adding j = some l
  forks : ∀ j l, adding j = some l → Forks code pool j l

namespace PeerInv

variable {code : J → List (Par P T S O)} {build : List J} {q₀ q₁ : Pool (Work J P)}
  {adding : J → Option (List P)}

theorem start {prog : J → List (Par P T S O)} {order : List J} (hall : ∀ j, j ∈ order)
    (hnodup : order.Nodup) (hproper : ∀ j, ∀ b ∈ prog j, b.Proper) :
    PeerInv prog order ⟨order.map .chunk, [], []⟩ fun _ => none where
  idle _ := ⟨rfl, rfl, fun _ => rfl⟩
  posted j hj := absurd (hall j) hj
  proper := hproper
  pending w hw := by
    obtain ⟨j, -, rfl⟩ := List.mem_map.mp hw
    exact ⟨j, rfl⟩
  nodup := hnodup.map fun _ _ h => Work.chunk.inj h
  bound := Nat.zero_le _
  todo j := .inl (List.mem_map_of_mem (hall j))
  forked _ _ h := absurd h List.not_mem_nil
  forks _ _ h := nomatch h

/-- A thread of the pool takes something, or is through with something, or a chunk is added. -/
theorem pool (h : PeerInv code build q₀ adding) (hbuild : build = [])
    (hs : Pool.Step runtimeSize (AsyncState.Through code) q₀ q₁) :
    PeerInv code build q₁ adding := by
  cases hs with
  | @add w l q r =>
      have hall : r ++ (q ++ [w]) ++ l = r ++ q ++ w :: l := by simp
      obtain ⟨j₀, rfl⟩ := h.pending w List.mem_cons_self
      have htask : ∀ j q', .task j q' ∈ r ++ (q ++ [.chunk j₀]) ↔ .task j q' ∈ r ++ q := by
        intro j q'
        simp
      constructor
      · exact fun hne => absurd hbuild hne
      · exact h.posted
      · exact h.proper
      · exact fun w' hw' => h.pending w' (List.mem_cons_of_mem _ hw')
      · simp only [hall]
        exact h.nodup
      · exact h.bound
      · simp only [hall]
        exact h.todo
      · intro j q' hmem
        exact h.forked j q' ((htask j q').mp hmem)
      · intro j l' hl'
        obtain ⟨hchunk, hnd, htodo, b, bs, hc, hb, hcov⟩ := h.forks j l' hl'
        refine ⟨hchunk, hnd, ?_, b, bs, hc, hb, ?_⟩
        · intro q' hq' hmem
          exact htodo q' hq' ((htask j q').mp hmem)
        · intro q' hq'
          exact (hcov q' hq').imp id (htask j q').mpr
  | @take w l q r hlt =>
      have hmem : ∀ w', w' ∈ w :: r ++ q ↔ w' ∈ r ++ w :: q := by
        intro w'
        simp
        tauto
      have hperm : (w :: r ++ q ++ l).Perm (r ++ w :: q ++ l) :=
        (List.perm_middle.symm).append_right l
      constructor
      · exact fun hne => absurd hbuild hne
      · exact h.posted
      · exact h.proper
      · exact h.pending
      · exact hperm.nodup_iff.mpr h.nodup
      · exact hlt
      · intro j
        exact (h.todo j).imp hperm.mem_iff.mpr id
      · intro j q' hq'
        exact h.forked j q' ((hmem _).mp hq')
      · intro j l' hl'
        obtain ⟨hchunk, hnd, htodo, b, bs, hc, hb, hcov⟩ := h.forks j l' hl'
        refine ⟨List.mem_cons_of_mem _ hchunk, hnd, ?_, b, bs, hc, hb, ?_⟩
        · intro q' hq' hin
          exact htodo q' hq' ((hmem _).mp hin)
        · intro q' hq'
          exact (hcov q' hq').imp id (hmem _).mpr
  | @finish w l q r₁ r₂ hready =>
      have hsub : (r₁ ++ r₂).Sublist (r₁ ++ w :: r₂) := by simp
      have hrest : ∀ {l' : List (Work J P)} {w' : Work J P}, w' ≠ w →
          w' ∈ r₁ ++ w :: r₂ ++ l' → w' ∈ r₁ ++ r₂ ++ l' := by
        intro l' w' hne hw'
        simpa [hne] using hw'
      constructor
      · exact fun hne => absurd hbuild hne
      · exact h.posted
      · exact h.proper
      · exact h.pending
      · exact h.nodup.sublist ((hsub.append_right q).append_right l)
      · exact hsub.length_le.trans h.bound
      · intro j
        by_cases hw : Work.chunk j = w
        · subst hw
          exact .inr hready
        · refine (h.todo j).imp (fun hmem => ?_) id
          simp only [List.append_assoc] at hmem ⊢
          simpa [hw] using hmem
      · intro j q' hq'
        exact h.forked j q' ((hsub.append_right q).subset hq')
      · intro j l' hl'
        obtain ⟨hchunk, hnd, htodo, b, bs, hc, hb, hcov⟩ := h.forks j l' hl'
        have hne : Work.chunk j ≠ w := by
          rintro rfl
          exact absurd (hc.symm.trans hready) (List.cons_ne_nil _ _)
        refine ⟨?_, hnd, ?_, b, bs, hc, hb, ?_⟩
        · have hmem : Work.chunk j ∈ r₁ ++ r₂ ++ [] := hrest hne (by simpa using hchunk)
          simpa using hmem
        · intro q' hq' hin
          exact htodo q' hq' ((hsub.append_right q).subset hin)
        · intro q' hq'
          refine (hcov q' hq').imp id (hrest ?_)
          rintro rfl
          exact hready b bs hc hq'

/-- The tasks of a chunk have been built. -/
theorem built {j : J} {l : List J} (h : PeerInv code (j :: l) q₀ adding)
    (hposted : Posted (code j)) :
    PeerInv code l q₀ adding where
  idle _ := h.idle (List.cons_ne_nil _ _)
  posted i hi := by
    by_cases hij : i = j
    · subst hij
      exact hposted
    · refine h.posted i fun hmem => ?_
      rcases List.mem_cons.mp hmem with heq | hmem
      · exact hij heq
      · exact hi hmem
  proper := h.proper
  pending := h.pending
  nodup := h.nodup
  bound := h.bound
  todo := h.todo
  forked := h.forked
  forks := h.forks

section Update

variable [DecidableEq J] {j : J}

/-- The call of `par` of chunk `j` changes, and nothing else. -/
theorem update_adding {v : Option (List P)} (h : PeerInv code build q₀ adding)
    (hidle : build ≠ [] → v = none)
    (hforked : ∀ q, .task j q ∈ q₀.running ++ q₀.queue → ∃ l, v = some l)
    (hforks : ∀ l, v = some l → Forks code q₀ j l) :
    PeerInv code build q₀ (Function.update adding j v) where
  idle hne := by
    obtain ⟨hq, hrun, hnone⟩ := h.idle hne
    refine ⟨hq, hrun, fun i => ?_⟩
    by_cases hij : i = j
    · subst hij
      rw [Function.update_self, hidle hne]
    · rw [Function.update_of_ne hij]
      exact hnone i
  posted := h.posted
  proper := h.proper
  pending := h.pending
  nodup := h.nodup
  bound := h.bound
  todo := h.todo
  forked i q hq := by
    by_cases hij : i = j
    · subst hij
      rw [Function.update_self]
      exact hforked q hq
    · rw [Function.update_of_ne hij]
      exact h.forked i q hq
  forks i l hl := by
    by_cases hij : i = j
    · subst hij
      rw [Function.update_self] at hl
      exact hforks l hl
    · rw [Function.update_of_ne hij] at hl
      exact h.forks i l hl

/-- The thread of chunk `j` calls `par`. -/
theorem fork {b : Par P T S O} {bs : List (Par P T S O)} (h : PeerInv code build q₀ adding)
    (hchunk : .chunk j ∈ q₀.running) (hnone : adding j = none) (hc : code j = b :: bs)
    (hb : b.Tasks) :
    PeerInv code build q₀ (Function.update adding j (some b.peers)) := by
  have hno : ∀ q, .task j q ∉ q₀.running ++ q₀.queue := by
    intro q hq
    obtain ⟨l, hl⟩ := h.forked j q hq
    rw [hnone] at hl
    cases hl
  refine h.update_adding (fun hne => ?_) (fun q hq => absurd hq (hno q)) fun l hl => ?_
  · obtain ⟨-, hrun, -⟩ := h.idle hne
    rw [hrun] at hchunk
    exact absurd hchunk List.not_mem_nil
  · obtain rfl := Option.some.inj hl
    exact ⟨hchunk, (h.proper j b (by rw [hc]; exact List.mem_cons_self)).nodup,
      fun q _ => hno q, b, bs, hc, hb, fun q hq => .inl hq⟩

/-- A task of a `par` is added to the pool. -/
theorem add {q : P} {l : List P} (h : PeerInv code build q₀ adding)
    (hadd : adding j = some (q :: l)) :
    PeerInv code build { q₀ with queue := q₀.queue ++ [.task j q] }
      (Function.update adding j (some l)) := by
  obtain ⟨hchunk, hnd, htodo, b, bs, hc, hb, hcov⟩ := h.forks j _ hadd
  have hnew : .task j q ∉ q₀.running ++ q₀.queue ++ q₀.pending := by
    rw [List.mem_append, not_or]
    refine ⟨htodo q List.mem_cons_self, fun hp => ?_⟩
    obtain ⟨i, hi⟩ := h.pending _ hp
    cases hi
  have hmem : ∀ w, w ∈ q₀.running ++ (q₀.queue ++ [Work.task j q]) ↔
      w ∈ q₀.running ++ q₀.queue ∨ w = .task j q := by
    intro w
    simp [or_assoc]
  have hperm : (q₀.running ++ (q₀.queue ++ [Work.task j q]) ++ q₀.pending).Perm
      (.task j q :: (q₀.running ++ q₀.queue ++ q₀.pending)) := by
    have heq : q₀.running ++ (q₀.queue ++ [Work.task j q]) ++ q₀.pending =
        q₀.running ++ q₀.queue ++ Work.task j q :: q₀.pending := by simp
    rw [heq]
    exact List.perm_middle
  have hother : ∀ {i q'}, i ≠ j → Work.task i q' ≠ .task j q := by
    intro i q' hij heq
    exact hij (Work.task.inj heq).1
  constructor
  · intro hne
    obtain ⟨-, -, hnone⟩ := h.idle hne
    rw [hnone j] at hadd
    cases hadd
  · exact h.posted
  · exact h.proper
  · exact h.pending
  · exact hperm.nodup_iff.mpr (List.nodup_cons.mpr ⟨hnew, h.nodup⟩)
  · exact h.bound
  · intro i
    refine (h.todo i).imp (fun hi => ?_) id
    exact hperm.mem_iff.mpr (List.mem_cons_of_mem _ hi)
  · intro i q' hq'
    by_cases hij : i = j
    · subst hij
      exact ⟨_, Function.update_self _ _ _⟩
    · rw [Function.update_of_ne hij]
      exact h.forked i q' (((hmem _).mp hq').resolve_right (hother hij))
  · intro i l' hl'
    by_cases hij : i = j
    · subst hij
      rw [Function.update_self, Option.some.injEq] at hl'
      subst hl'
      obtain ⟨hq, hnd'⟩ := List.nodup_cons.mp hnd
      refine ⟨hchunk, hnd', ?_, b, bs, hc, hb, ?_⟩
      · intro q' hq' hin
        rcases (hmem _).mp hin with hin | heq
        · exact htodo q' (List.mem_cons_of_mem _ hq') hin
        · rw [(Work.task.inj heq).2] at hq'
          exact hq hq'
      · intro q' hq'
        rcases hcov q' hq' with hl | hin
        · rcases List.mem_cons.mp hl with rfl | hl
          · exact .inr ((hmem _).mpr (.inr rfl))
          · exact .inl hl
        · exact .inr ((hmem _).mpr (.inl hin))
    · rw [Function.update_of_ne hij] at hl'
      obtain ⟨hchunk', hnd', htodo', b', bs', hc', hb', hcov'⟩ := h.forks i l' hl'
      refine ⟨hchunk', hnd', ?_, b', bs', hc', hb', ?_⟩
      · intro q' hq' hin
        exact htodo' q' hq' (((hmem _).mp hin).resolve_right (hother hij))
      · intro q' hq'
        exact (hcov' q' hq').imp id fun hin => (hmem _).mpr (.inl hin)

/-- The call of `par` returns. -/
theorem wait (h : PeerInv code build q₀ adding)
    (hno : ∀ q, .task j q ∉ q₀.running ++ q₀.queue) :
    PeerInv code build q₀ (Function.update adding j none) := by
  refine h.update_adding (fun _ => rfl) (fun q hq => absurd hq (hno q)) fun l hl => ?_
  cases hl

/-- Chunk `j` gets on. -/
theorem advance {code' : List (Par P T S O)} {w : Work J P} (h : PeerInv code build q₀ adding)
    (hw : w ∈ q₀.running) (hnone : w = .chunk j → adding j = none)
    (ha : Advance j (code j) code' w) :
    PeerInv (Function.update code j code') build q₀ adding where
  idle := h.idle
  posted i hi := by
    by_cases hij : i = j
    · subst hij
      rw [Function.update_self]
      exact ha.posted (h.posted i hi)
    · rw [Function.update_of_ne hij]
      exact h.posted i hi
  proper i := by
    by_cases hij : i = j
    · subst hij
      rw [Function.update_self]
      exact ha.proper (h.proper i)
    · rw [Function.update_of_ne hij]
      exact h.proper i
  pending := h.pending
  nodup := h.nodup
  bound := h.bound
  todo i := by
    by_cases hij : i = j
    · subst hij
      exact .inl ((h.todo i).resolve_right ha.ne_nil)
    · rw [Function.update_of_ne hij]
      exact h.todo i
  forked := h.forked
  forks i l hl := by
    obtain ⟨hchunk, hnd, htodo, b, bs, hc, hb, hcov⟩ := h.forks i l hl
    by_cases hij : i = j
    · subst hij
      obtain ⟨q, rfl⟩ : ∃ q, w = .task i q := by
        refine ha.work.resolve_left fun hw => ?_
        rw [hnone hw] at hl
        cases hl
      obtain ⟨b₀, b', bs', hc₀, hc', htasks, hpeers⟩ := ha.of_task
      obtain ⟨rfl, rfl⟩ := List.cons.inj (hc.symm.trans hc₀)
      refine ⟨hchunk, hnd, htodo, b', bs, ?_, htasks hb, fun q' hq' => hcov q' (hpeers hq')⟩
      rw [Function.update_self]
      exact hc'
    · refine ⟨hchunk, hnd, htodo, b, bs, ?_, hb, hcov⟩
      rw [Function.update_of_ne hij]
      exact hc

/-- A pointer is posted. -/
theorem post {l : List J} {pre post : List (Par P T S O)} {t : T} {s : P} {name : Bytes}
    {ptr : Addr} (h : PeerInv code (j :: l) q₀ adding)
    (hc : code j = pre ++ ⟨t, [.slotGet s name ptr]⟩ :: post) :
    PeerInv (Function.update code j (pre ++ ⟨t, [.slotWait s name ptr]⟩ :: post)) (j :: l) q₀
      adding := by
  obtain ⟨hq, hrun, hnone⟩ := h.idle (List.cons_ne_nil _ _)
  constructor
  · exact h.idle
  · intro i hi
    have hij : i ≠ j := fun heq => hi (heq ▸ List.mem_cons_self)
    rw [Function.update_of_ne hij]
    exact h.posted i hi
  · intro i b hb
    by_cases hij : i = j
    · subst hij
      rw [Function.update_self] at hb
      have hold := h.proper i
      rw [hc] at hold
      rcases List.mem_append.mp hb with hb | hb
      · exact hold b (List.mem_append_left _ hb)
      · rcases List.mem_cons.mp hb with rfl | hb
        · exact ⟨.inr (Nat.le_refl 1), List.nodup_nil⟩
        · exact hold b (List.mem_append_right _ (List.mem_cons_of_mem _ hb))
    · rw [Function.update_of_ne hij] at hb
      exact h.proper i b hb
  · exact h.pending
  · exact h.nodup
  · exact h.bound
  · intro i
    by_cases hij : i = j
    · subst hij
      refine .inl ((h.todo i).resolve_right ?_)
      rw [hc]
      simp
    · rw [Function.update_of_ne hij]
      exact h.todo i
  · exact h.forked
  · intro i l' hl'
    rw [hnone i] at hl'
    cases hl'

end Update

end PeerInv

/-! ## What holds in every state -/

theorem Post.code [DecidableEq Id] {ident : P → Id} {x x' : Node P Id T S O}
    (hp : Post ident x x') : ∃ pre t s name ptr post,
      x.code = pre ++ ⟨t, [.slotGet s name ptr]⟩ :: post ∧
        x'.code = pre ++ ⟨t, [.slotWait s name ptr]⟩ :: post := by
  cases hp with
  | mk hc _ => exact ⟨_, _, _, _, _, _, hc, rfl⟩

/-- What a step of the peers does to the sections of the tasks. -/
theorem TStep.code_cases [DecidableEq J] [DecidableEq P] [DecidableEq Id] {ident : P → Id}
    {may : P → J → List (Par P T Store O) → Prop} {x x' : P → Tasks J P Id T O}
    (hs : TStep ident may x x') :
    ∃ p j code, (may p j code ∨ (x p).code j = code) ∧
      (x' p).code = Function.update (x p).code j code ∧
      ∀ q, q ≠ p → (x' q).code = (x q).code := by
  cases hs with
  | @tau p j y hmay hn =>
      refine ⟨p, j, y.code, hmay, ?_, ?_⟩
      · rw [Function.update_self]
        rfl
      · intro q hq
        rw [Function.update_of_ne hq]
  | @send x₁ p id j m y hmay hn hx₁ =>
      subst hx₁
      have hreceive : ∀ q, (Function.update (Function.update x p ((x p).put j y)) id
          ((Function.update x p ((x p).put j y) id).receive p m) q).code =
            (Function.update x p ((x p).put j y) q).code := by
        intro q
        by_cases hq : q = id
        · subst hq
          rw [Function.update_self]
          rfl
        · rw [Function.update_of_ne hq]
      refine ⟨p, j, y.code, .inl hmay, ?_, ?_⟩
      · rw [hreceive, Function.update_self]
        rfl
      · intro q hq
        rw [hreceive, Function.update_of_ne hq]

namespace AsyncState

variable [DecidableEq J] [DecidableEq P] [DecidableEq Id] {ident : P → Id}
  {own : J → Bytes → Bool} {len : J → Bytes → ℕ} {R W : J → P → Addr → Prop}
  {prog : J → P → List (Par P T Store O)} {mem : P → Memory.Mem} {order : List J}
  {s s' : AsyncState J P Id T O}

/-- What holds in every state: every chunk is where it could be alone, with peers that post early,
and the pools do their work. -/
structure Inv (ident : P → Id) (own : J → Bytes → Bool) (R : J → P → Addr → Prop)
    (prog : J → P → List (Par P T Store O)) (mem : P → Memory.Mem)
    (s : AsyncState J P Id T O) : Prop where
  tasks : TaskInv own R (fun j => EReach ident Store.writeBody (prog j) fun p => ⟨mem p, 0⟩) s.peer
  peer : ∀ p, PeerInv (s.peer p).code (s.build p) (s.pool p) (s.adding p)

omit [DecidableEq J] in
theorem Inv.start (hall : ∀ j, j ∈ order) (hnodup : order.Nodup)
    (hproper : ∀ j p, ∀ b ∈ prog j p, b.Proper) :
    Inv ident own R prog mem (AsyncState.start prog mem order) where
  tasks := TaskInv.start fun _ => .refl
  peer p := PeerInv.start hall hnodup fun j => hproper j p

variable [LT T]

theorem Inv.step (hsep : Separated own R W)
    (hlocal : ∀ j p, Local (own j) (len j) (R j p) (W j p) (prog j p))
    (h : Inv ident own R prog mem s) (hs : Step ident s s') : Inv ident own R prog mem s' := by
  have hpeer : ∀ {p : P} {x : Tasks J P Id T O} {l : List J} {q : Pool (Work J P)}
      {ad : J → Option (List P)}, PeerInv x.code l q ad →
      ∀ p', PeerInv (Function.update s.peer p x p').code (Function.update s.build p l p')
        (Function.update s.pool p q p') (Function.update s.adding p ad p') := by
    intro p x l q ad hinv p'
    by_cases hp : p' = p
    · subst hp
      simp only [Function.update_self]
      exact hinv
    · simp only [Function.update_of_ne hp]
      exact h.peer p'
  have hloc : ∀ j c, EReach ident Store.writeBody (prog j) (fun p => ⟨mem p, 0⟩) c → ∀ p,
      Local (own j) (len j) (R j p) (W j p) (c p).code ∧ (c p).Typed (len j) (W j p) :=
    fun j c hc => hc.local (hlocal j)
  cases hs with
  | @post p j l y hbuild hp =>
      refine ⟨h.tasks.post hsep hloc (fun i c q y hc hy => hc.tail (.post hy)) hp, ?_⟩
      intro p'
      obtain ⟨pre, t, id, name, ptr, post, hc, hy⟩ := hp.code
      have hinv := h.peer p
      rw [hbuild] at hinv
      have hnew : PeerInv ((s.peer p).put j y).code (j :: l) (s.pool p) (s.adding p) := by
        change PeerInv (Function.update (s.peer p).code j y.code) _ _ _
        rw [hy]
        exact hinv.post hc
      have hnext := hpeer (p := p) hnew p'
      rw [← hbuild, Function.update_eq_self, Function.update_eq_self,
        Function.update_eq_self] at hnext
      exact hnext
  | @built p j l hbuild hposted =>
      refine ⟨h.tasks, fun p' => ?_⟩
      have hinv := h.peer p
      rw [hbuild] at hinv
      have hnext := hpeer (p := p) (hinv.built hposted) p'
      rw [Function.update_eq_self, Function.update_eq_self, Function.update_eq_self] at hnext
      exact hnext
  | @pool p q hbuild hq =>
      refine ⟨h.tasks, fun p' => ?_⟩
      have hnext := hpeer (p := p) ((h.peer p).pool hbuild hq) p'
      rw [Function.update_eq_self, Function.update_eq_self, Function.update_eq_self] at hnext
      exact hnext
  | @fork p j b bs hchunk hnone hc hne hb =>
      refine ⟨h.tasks, fun p' => ?_⟩
      have hnext := hpeer (p := p) ((h.peer p).fork hchunk hnone hc hb) p'
      rw [Function.update_eq_self, Function.update_eq_self, Function.update_eq_self] at hnext
      exact hnext
  | @add p q j l hadd =>
      refine ⟨h.tasks, fun p' => ?_⟩
      have hnext := hpeer (p := p) ((h.peer p).add hadd) p'
      rw [Function.update_eq_self, Function.update_eq_self] at hnext
      exact hnext
  | @wait p j hadd hno =>
      refine ⟨h.tasks, fun p' => ?_⟩
      have hnext := hpeer (p := p) ((h.peer p).wait hno) p'
      rw [Function.update_eq_self, Function.update_eq_self, Function.update_eq_self] at hnext
      exact hnext
  | @run x ht =>
      refine ⟨h.tasks.step hsep hloc (fun j c c' hc hs => hc.step (hlocal j) hs) ht, ?_⟩
      intro p'
      obtain ⟨p, j, code, hmay, hp, hrest⟩ := ht.code_cases
      by_cases hpp : p' = p
      · subst hpp
        change PeerInv (x p').code _ _ _
        rw [hp]
        rcases hmay with ⟨w, hw, ha, hnone⟩ | heq
        · exact (h.peer p').advance hw hnone ha
        · rw [← heq, Function.update_eq_self]
          exact h.peer p'
      · change PeerInv (x p').code _ _ _
        rw [hrest p' hpp]
        exact h.peer p'

theorem Reach.inv (hsep : Separated own R W)
    (hlocal : ∀ j p, Local (own j) (len j) (R j p) (W j p) (prog j p)) (hall : ∀ j, j ∈ order)
    (hnodup : order.Nodup) (hproper : ∀ j p, ∀ b ∈ prog j p, b.Proper)
    (h : Reach ident prog mem order s) : Inv ident own R prog mem s := by
  induction h with
  | refl => exact .start hall hnodup hproper
  | tail _ hs ih => exact ih.step hsep hlocal hs

end AsyncState

/-! ## Termination -/

section Termination

/-- How many steps of the pool the section of a chunk can still cause. -/
def Par.cost (b : Par P T S O) : ℕ := 3 * b.peers.length + if b.peers.length = 0 then 1 else 3

/-- The same for the sections of a chunk. The tasks of the first one may be with the pool. -/
def forkCost (code : List (Par P T S O)) : Option (List P) → ℕ
  | none => (code.map Par.cost).sum
  | some l => 3 * l.length + 2 + (code.tail.map Par.cost).sum

theorem forkCost_none (code : List (Par P T S O)) :
    forkCost code none = (code.map Par.cost).sum := rfl

theorem forkCost_some (code : List (Par P T S O)) (l : List P) :
    forkCost code (some l) = 3 * l.length + 2 + (code.tail.map Par.cost).sum := rfl

theorem Par.cost_le {b b' : Par P T S O} (h : b'.peers.length ≤ b.peers.length) :
    b'.cost ≤ b.cost := by
  unfold Par.cost
  split <;> split <;> omega

/-- A chunk that gets on costs no more than before. -/
theorem Advance.forkCost_le {j : J} {code code' : List (Par P T S O)} {w : Work J P}
    (h : Advance j code code' w) {ad : Option (List P)} (hnone : w = .chunk j → ad = none) :
    forkCost code' ad ≤ forkCost code ad := by
  have hhead : ∀ {b b' : Par P T S O} {bs : List (Par P T S O)},
      b'.peers.length ≤ b.peers.length → forkCost (b' :: bs) ad ≤ forkCost (b :: bs) ad := by
    intro b b' bs hle
    cases ad with
    | none =>
        have hcost := Par.cost_le hle
        simp only [forkCost, List.map_cons, List.sum_cons]
        omega
    | some l => exact Nat.le_refl _
  cases h with
  | join =>
      rw [hnone rfl]
      simp only [forkCost, List.map_cons, List.sum_cons]
      omega
  | @leave t l₁ l₂ th bs =>
      have hsub : (l₁ ++ l₂).Sublist (l₁ ++ th :: l₂) := by simp
      exact hhead (hsub.filterMap _).length_le
  | got => exact hhead (by simp [Par.peers, Thread.peer?])
  | post => exact hhead (by simp [Par.peers, Thread.peer?, List.filterMap_cons])

variable [Fintype P]

/-- To post a pointer is a step, too. -/
theorem Post.weight [DecidableEq Id] {ident : P → Id} {x x' : Node P Id T S O}
    (hp : Post ident x x') : x'.weight < x.weight := by
  cases hp with
  | mk hc _ =>
      simp only [Node.weight, hc, List.map_append, List.map_cons, List.sum_append, List.sum_cons,
        Par.weight, Thread.weight, List.map_nil, List.sum_nil]
      omega

variable [Fintype J] [DecidableEq J] [DecidableEq P] [DecidableEq Id]

namespace AsyncState

variable {ident : P → Id} {own : J → Bytes → Bool} {R : J → P → Addr → Prop}
  {prog : J → P → List (Par P T Store O)} {mem : P → Memory.Mem} {s s' : AsyncState J P Id T O}

omit [Fintype P] [DecidableEq J] [DecidableEq P] [DecidableEq Id] in
/-- How many steps the thread of the call, the pool and the calls of `par` can still take. -/
def forkWeight (s : AsyncState J P Id T O) (p : P) : ℕ :=
  (s.build p).length + (s.pool p).weight + ∑ j, forkCost ((s.peer p).code j) (s.adding p j)

omit [DecidableEq J] [DecidableEq P] [DecidableEq Id] in
/-- How many steps a peer can still cause. -/
def weightAt (s : AsyncState J P Id T O) (p : P) : ℕ := (s.peer p).weight + s.forkWeight p

omit [Fintype P] [DecidableEq P] [DecidableEq Id] in
/-- The sum of the costs of the chunks when a call of `par` gets on. -/
theorem sum_forkCost (code : J → List (Par P T Store O)) (ad : J → Option (List P)) (j : J)
    (v : Option (List P)) :
    ∑ i, forkCost (code i) (Function.update ad j v i) + forkCost (code j) (ad j) =
      ∑ i, forkCost (code i) (ad i) + forkCost (code j) v :=
  sum_update (fun i a => forkCost (code i) a) ad j v

/-- **Every step makes the peers lighter.** -/
theorem Step.weight (h : Inv ident own R prog mem s) (hs : Step ident s s') :
    ∑ p, s'.weightAt p < ∑ p, s.weightAt p := by
  -- only one peer has moved
  have hone : ∀ p, (∀ q, q ≠ p → s'.weightAt q = s.weightAt q) → s'.weightAt p < s.weightAt p →
      ∑ p, s'.weightAt p < ∑ p, s.weightAt p := by
    intro p hrest hp
    refine Finset.sum_lt_sum (fun q _ => ?_) ⟨p, Finset.mem_univ p, hp⟩
    by_cases hq : q = p
    · subst hq
      exact hp.le
    · exact (hrest q hq).le
  cases hs with
  | @post p j l y hbuild hp =>
      refine hone p (fun q hq => ?_) ?_
      · simp only [weightAt, forkWeight, Function.update_of_ne hq]
      · have hy := hp.weight
        have hput := (s.peer p).weight_put j y
        obtain ⟨pre, t, id, name, ptr, post, hc, hyc⟩ := hp.code
        have hcost : ∀ ad, forkCost y.code ad = forkCost ((s.peer p).code j) ad := by
          have hpar : (⟨t, [.slotWait id name ptr]⟩ : Par P T Store O).cost =
              (⟨t, [.slotGet id name ptr]⟩ : Par P T Store O).cost := rfl
          rw [hyc, show (s.peer p).code j = _ from hc]
          intro ad
          cases ad with
          | none => simp [forkCost, hpar]
          | some l => cases pre <;> simp [forkCost, hpar]
        have hcode : ((s.peer p).put j y).code = Function.update (s.peer p).code j y.code := rfl
        have hsum := sum_update (fun i c => forkCost c (s.adding p i)) (s.peer p).code j y.code
        simp only [weightAt, forkWeight, Function.update_self, hcode]
        rw [hcost] at hsum
        omega
  | @built p j l hbuild hposted =>
      refine hone p (fun q hq => ?_) ?_
      · simp only [weightAt, forkWeight, Function.update_of_ne hq]
      · simp only [weightAt, forkWeight, Function.update_self, hbuild, List.length_cons]
        omega
  | @pool p q hbuild hq =>
      refine hone p (fun q' hq' => ?_) ?_
      · simp only [weightAt, forkWeight, Function.update_of_ne hq']
      · have hw := hq.weight
        simp only [weightAt, forkWeight, Function.update_self]
        omega
  | @fork p j b bs hchunk hnone hc hne hb =>
      refine hone p (fun q hq => ?_) ?_
      · simp only [weightAt, forkWeight, Function.update_of_ne hq]
      · have hpos : b.peers.length ≠ 0 := by
          obtain ⟨th, hth⟩ := List.exists_mem_of_ne_nil _ hne
          obtain ⟨q, hq⟩ := Option.isSome_iff_exists.mp (hb th hth)
          exact fun hz => List.ne_nil_of_mem (List.mem_filterMap.mpr ⟨th, hth, hq⟩)
            (List.eq_nil_of_length_eq_zero hz)
        have hsum := sum_forkCost (s.peer p).code (s.adding p) j (some b.peers)
        simp only [weightAt, forkWeight, Function.update_self]
        rw [hnone, hc] at hsum
        simp only [forkCost_none, forkCost_some, List.map_cons, List.sum_cons, List.tail_cons,
          Par.cost,
          if_neg hpos] at hsum
        omega
  | @add p q j l hadd =>
      refine hone p (fun q' hq' => ?_) ?_
      · simp only [weightAt, forkWeight, Function.update_of_ne hq']
      · have hsum := sum_forkCost (s.peer p).code (s.adding p) j (some l)
        rw [hadd] at hsum
        simp only [forkCost_some, List.length_cons] at hsum
        simp only [weightAt, forkWeight, Function.update_self, Pool.weight, List.length_append,
          List.length_singleton]
        omega
  | @wait p j hadd hno =>
      refine hone p (fun q' hq' => ?_) ?_
      · simp only [weightAt, forkWeight, Function.update_of_ne hq']
      · -- the tasks of the section are through
        obtain ⟨-, -, -, b, bs, hc, hb, hcov⟩ := (h.peer p).forks j _ hadd
        have hnil : b.peers.length = 0 := by
          rw [List.length_eq_zero_iff, List.eq_nil_iff_forall_not_mem]
          intro q hq
          rcases hcov q hq with hq | hq
          · exact List.not_mem_nil hq
          · exact hno q hq
        have hsum := sum_forkCost (s.peer p).code (s.adding p) j none
        rw [hadd, hc] at hsum
        simp only [forkCost_none, forkCost_some, List.map_cons, List.sum_cons, List.tail_cons,
          List.length_nil,
          Par.cost, hnil, if_true] at hsum
        simp only [weightAt, forkWeight, Function.update_self]
        omega
  | @run x ht =>
      have hlt := ht.weight
      obtain ⟨p, j, code, hmay, hp, hrest⟩ := ht.code_cases
      have hle : ∀ q, forkWeight { s with peer := x } q ≤ s.forkWeight q := by
        intro q
        refine Nat.add_le_add_left (Finset.sum_le_sum fun i _ => ?_) _
        change forkCost ((x q).code i) _ ≤ _
        by_cases hq : q = p
        · subst hq
          rw [hp]
          by_cases hi : i = j
          · subst hi
            rw [Function.update_self]
            rcases hmay with ⟨w, hw, ha, hnone⟩ | heq
            · exact ha.forkCost_le hnone
            · rw [heq]
          · rw [Function.update_of_ne hi]
        · rw [hrest q hq]
      simp only [weightAt, Finset.sum_add_distrib]
      exact Nat.add_lt_add_of_lt_of_le hlt (Finset.sum_le_sum fun q _ => hle q)

/-- **There is no infinite run.** -/
theorem wf (ident : P → Id) (own : J → Bytes → Bool) (R : J → P → Addr → Prop)
    (prog : J → P → List (Par P T Store O)) (mem : P → Memory.Mem) :
    WellFounded fun s' s : AsyncState J P Id T O =>
      Inv ident own R prog mem s ∧ Step ident s s' := by
  refine Subrelation.wf (r := InvImage (· < ·) fun s : AsyncState J P Id T O =>
    ∑ p, s.weightAt p) ?_ (InvImage.wf _ wellFounded_lt)
  intro s' s hs
  exact hs.2.weight hs.1

end AsyncState

end Termination

end StdmlCollective

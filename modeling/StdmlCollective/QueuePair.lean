import StdmlCollective.Channel
import StdmlCollective.Network

/-!
# `queue_pair`

A receiver puts its pointer into `waitQ`, a writer takes it from there, writes and puts it into
`recvQ`, and the receiver takes a pointer from `recvQ`. Nothing says that it takes its own: with two
receivers, one of them can take the pointer of the other.
-/

namespace StdmlCollective

/-- Where a receiver is: between two calls of `get`, in `waitQ.put(p)`, in `recvQ.get()`; `calls`
are the pointers of the calls to come. -/
inductive Receiver (A : Type) where
  | idle (calls : List A)
  | post (p : A) (calls : List A)
  | await (p : A) (calls : List A)

/-- Where a writer is: between two calls of `put`, in `waitQ.get()`, before `write(p)`, in
`recvQ.put(p)`; `calls` is the number of calls to come. -/
inductive Writer (A : Type) where
  | idle (calls : ℕ)
  | take (calls : ℕ)
  | write (p : A) (calls : ℕ)
  | give (p : A) (calls : ℕ)

/-- The pointers of the calls that have not returned. -/
def Receiver.pointers {A : Type} : Receiver A → List A
  | .idle l => l
  | .post p l => p :: l
  | .await p l => p :: l

/-- The pointers that are not in `waitQ` yet. -/
def Receiver.todo {A : Type} : Receiver A → List A
  | .idle l => l
  | .post p l => p :: l
  | .await _ l => l

/-- The calls of a writer in which it has not written yet. -/
def Writer.unwritten {A : Type} : Writer A → ℕ
  | .idle k => k
  | .take k => k + 1
  | .write _ k => k + 1
  | .give _ k => k

/-- The pointer a writer has. -/
def Writer.pointer {A : Type} : Writer A → Option A
  | .idle _ => none
  | .take _ => none
  | .write p _ => some p
  | .give p _ => some p

/-- `struct queue_pair` and the threads that use it. `returned` and `written` are auxiliary: the
argument of every `get` that has returned and the pointer `q` it took, and who has written where. -/
structure QueuePair (G W A : Type) where
  waitQ : Channel (G ⊕ W) A
  recvQ : Channel (G ⊕ W) A
  receiver : G → Receiver A
  writer : W → Writer A
  returned : List (A × A)
  written : List (W × A)

namespace QueuePair

variable {G W A : Type} [DecidableEq G] [DecidableEq W]

/-- The steps of receivers and writers. A thread goes from one channel to the other in the step in
which its call returns. -/
inductive Step : QueuePair G W A → QueuePair G W A → Prop where
  | get {s : QueuePair G W A} {g : G} {p : A} {l : List A} {q : Channel (G ⊕ W) A} :
      s.receiver g = .idle (p :: l) → Channel.Step cap s.waitQ (.callPut (.inl g) p) q →
      Step s { s with waitQ := q, receiver := Function.update s.receiver g (.post p l) }
  | posted {s : QueuePair G W A} {g : G} {p : A} {l : List A} {q r : Channel (G ⊕ W) A} :
      s.receiver g = .post p l → Channel.Step cap s.waitQ (.done (.inl g) p) q →
      Channel.Step cap s.recvQ (.callGet (.inl g)) r →
      Step s { s with
        waitQ := q, recvQ := r, receiver := Function.update s.receiver g (.await p l) }
  -- `assert(p == q)` comes here
  | received {s : QueuePair G W A} {g : G} {p x : A} {l : List A} {r : Channel (G ⊕ W) A} :
      s.receiver g = .await p l → Channel.Step cap s.recvQ (.got (.inl g) x) r →
      Step s { s with
        recvQ := r, receiver := Function.update s.receiver g (.idle l),
        returned := s.returned ++ [(p, x)] }
  | put {s : QueuePair G W A} {w : W} {k : ℕ} {q : Channel (G ⊕ W) A} :
      s.writer w = .idle (k + 1) → Channel.Step cap s.waitQ (.callGet (.inr w)) q →
      Step s { s with waitQ := q, writer := Function.update s.writer w (.take k) }
  | took {s : QueuePair G W A} {w : W} {k : ℕ} {p : A} {q : Channel (G ⊕ W) A} :
      s.writer w = .take k → Channel.Step cap s.waitQ (.got (.inr w) p) q →
      Step s { s with waitQ := q, writer := Function.update s.writer w (.write p k) }
  | write {s : QueuePair G W A} {w : W} {k : ℕ} {p : A} {r : Channel (G ⊕ W) A} :
      s.writer w = .write p k → Channel.Step cap s.recvQ (.callPut (.inr w) p) r →
      Step s { s with
        recvQ := r, writer := Function.update s.writer w (.give p k),
        written := s.written ++ [(w, p)] }
  | gave {s : QueuePair G W A} {w : W} {k : ℕ} {p : A} {r : Channel (G ⊕ W) A} :
      s.writer w = .give p k → Channel.Step cap s.recvQ (.done (.inr w) p) r →
      Step s { s with recvQ := r, writer := Function.update s.writer w (.idle k) }
  | waitQ {s : QueuePair G W A} {q : Channel (G ⊕ W) A} :
      Channel.Step cap s.waitQ .tau q → Step s { s with waitQ := q }
  | recvQ {s : QueuePair G W A} {r : Channel (G ⊕ W) A} :
      Channel.Step cap s.recvQ .tau r → Step s { s with recvQ := r }

/-- Every receiver is going to call `get` with its pointers, every writer `put` so many times. -/
def start (calls : G → List A) (puts : W → ℕ) : QueuePair G W A where
  waitQ := .start
  recvQ := .start
  receiver g := .idle (calls g)
  writer w := .idle (puts w)
  returned := []
  written := []

/-- The states of a run. -/
def Reach (calls : G → List A) (puts : W → ℕ) (s : QueuePair G W A) : Prop :=
  Relation.ReflTransGen Step (start calls puts) s

/-! ## What a receiver relies on -/

/-- The pointers that have been written to. -/
def targets (s : QueuePair G W A) : List A := s.written.map Prod.snd

/-- What the pair is for: a receiver takes its own pointer, after it has been written to; a writer
writes to a pointer that a receiver is waiting for, once in every call; and no pointer is written to
twice. -/
structure Serves (puts : W → ℕ) (s : QueuePair G W A) : Prop where
  own : ∀ r ∈ s.returned, r.1 = r.2
  after : ∀ r ∈ s.returned, r.1 ∈ s.targets
  pending : ∀ w p k, s.writer w = .write p k → ∃ g l, s.receiver g = .await p l
  one : ∀ w, (s.written.map Prod.fst).count w + (s.writer w).unwritten = puts w
  once : s.targets.Nodup

/-- All calls of `get` have different pointers. -/
structure Distinct (calls : G → List A) : Prop where
  nodup : ∀ g, (calls g).Nodup
  disjoint : ∀ g g', g ≠ g' → (calls g).Disjoint (calls g')

variable {calls : G → List A} {puts : W → ℕ} {s s' : QueuePair G W A}

/-- Every call of `put` writes once. -/
theorem Step.one (hs : Step s s') {w : W} {n : ℕ}
    (h : (s.written.map Prod.fst).count w + (s.writer w).unwritten = n) :
    (s'.written.map Prod.fst).count w + (s'.writer w).unwritten = n := by
  cases hs with
  | get _ _ | posted _ _ _ | received _ _ | waitQ _ | recvQ _ => exact h
  | @put v k _ hv _ | @took v k _ _ hv _ | @gave v k _ _ hv _ =>
      by_cases hwv : w = v
      · subst hwv
        rw [hv] at h
        simpa [Writer.unwritten] using h
      · simpa [Function.update_of_ne hwv] using h
  | @write v k p _ hv _ =>
      by_cases hwv : w = v
      · subst hwv
        rw [hv] at h
        simp only [Writer.unwritten] at h
        simp [Writer.unwritten]
        omega
      · simpa [Function.update_of_ne hwv, List.count_singleton, Ne.symm hwv] using h

theorem Reach.one (h : Reach calls puts s) (w : W) :
    (s.written.map Prod.fst).count w + (s.writer w).unwritten = puts w := by
  induction h with
  | refl => simp [start, Writer.unwritten]
  | tail _ hs ih => exact hs.one ih

/-! ## One receiver -/

/-- Where the pointer `p` of the receiver that waits is: in `waitQ`, with a writer that has not
written yet, with one that has, or in `recvQ`. -/
inductive Token (waitB recvB : List A) (writer : W → Writer A) (targets : List A) (p : A) :
    Prop where
  | waiting : waitB = [p] → recvB = [] → (∀ w, (writer w).pointer = none) → p ∉ targets →
      Token waitB recvB writer targets p
  | writing (w : W) (k : ℕ) : waitB = [] → recvB = [] → writer w = .write p k →
      (∀ v, v ≠ w → (writer v).pointer = none) → p ∉ targets →
      Token waitB recvB writer targets p
  | giving (w : W) (k : ℕ) : waitB = [] → recvB = [] → writer w = .give p k →
      (∀ v, v ≠ w → (writer v).pointer = none) → p ∈ targets →
      Token waitB recvB writer targets p
  | received : waitB = [] → recvB = [p] → (∀ w, (writer w).pointer = none) → p ∈ targets →
      Token waitB recvB writer targets p

/-- There is no pointer in the pair. -/
structure Empty (waitB recvB : List A) (writer : W → Writer A) : Prop where
  waitQ : waitB = []
  recvQ : recvB = []
  writers : ∀ w, (writer w).pointer = none

/-- The pair between two steps when only one thread receives. -/
structure Inv (calls : G → List A) (s : QueuePair G W A) : Prop where
  suffix : ∀ g, (s.receiver g).pointers <:+ calls g
  fresh : ∀ g, ∀ p ∈ (s.receiver g).todo, p ∉ s.targets
  token : Empty s.waitQ.buffer s.recvQ.buffer s.writer ∧ (∀ g p l, s.receiver g ≠ .await p l) ∨
    ∃ g p l, s.receiver g = .await p l ∧ Token s.waitQ.buffer s.recvQ.buffer s.writer s.targets p
  own : ∀ r ∈ s.returned, r.1 = r.2
  after : ∀ r ∈ s.returned, r.1 ∈ s.targets
  once : s.targets.Nodup

section Token

variable {waitB recvB ts : List A} {writer : W → Writer A} {p x : A} {w : W} {k : ℕ}

/-- A writer moves and has no pointer afterwards. -/
theorem pointer_update {wr : Writer A} {v : W} (hwr : wr.pointer = none)
    (h : (writer v).pointer = none) : (Function.update writer w wr v).pointer = none := by
  by_cases hv : v = w
  · rw [hv, Function.update_self, hwr]
  · rw [Function.update_of_ne hv, h]

omit [DecidableEq W] in
/-- A writer that has a pointer has the one of the receiver, and no other writer has one. -/
theorem Token.of_pointer (h : Token waitB recvB writer ts p) (hw : (writer w).pointer = some x) :
    waitB = [] ∧ recvB = [] ∧ (∀ v, v ≠ w → (writer v).pointer = none) ∧
      ((∃ k, writer w = .write p k) ∧ p ∉ ts ∨ (∃ k, writer w = .give p k) ∧ p ∈ ts) := by
  have honly : ∀ v, (∀ u, u ≠ v → (writer u).pointer = none) → w = v := by
    intro v h
    by_contra hne
    rw [h w hne] at hw
    cases hw
  cases h with
  | waiting _ _ h₃ | received _ _ h₃ =>
      rw [h₃ w] at hw
      cases hw
  | writing v j h₁ h₂ h₃ h₄ h₅ =>
      obtain rfl := honly v h₄
      exact ⟨h₁, h₂, h₄, .inl ⟨⟨j, h₃⟩, h₅⟩⟩
  | giving v j h₁ h₂ h₃ h₄ h₅ =>
      obtain rfl := honly v h₄
      exact ⟨h₁, h₂, h₄, .inr ⟨⟨j, h₃⟩, h₅⟩⟩

theorem Token.call (h : Token waitB recvB writer ts p) (hw : writer w = .idle (k + 1)) :
    Token waitB recvB (Function.update writer w (.take k)) ts p := by
  cases h with
  | waiting h₁ h₂ h₃ h₄ => exact .waiting h₁ h₂ (fun v => pointer_update rfl (h₃ v)) h₄
  | received h₁ h₂ h₃ h₄ => exact .received h₁ h₂ (fun v => pointer_update rfl (h₃ v)) h₄
  | writing v j h₁ h₂ h₃ h₄ h₅ =>
      exact .writing v j h₁ h₂ (Threads.update_eq_of_ne h₃ (by rw [hw]; nofun))
        (fun u hu => pointer_update rfl (h₄ u hu)) h₅
  | giving v j h₁ h₂ h₃ h₄ h₅ =>
      exact .giving v j h₁ h₂ (Threads.update_eq_of_ne h₃ (by rw [hw]; nofun))
        (fun u hu => pointer_update rfl (h₄ u hu)) h₅

/-- A writer takes a pointer: it is the one of the receiver. -/
theorem Token.took (h : Token (x :: waitB) recvB writer ts p) :
    x = p ∧ Token waitB recvB (Function.update writer w (.write x k)) ts p := by
  cases h with
  | waiting h₁ h₂ h₃ h₄ =>
      obtain ⟨rfl, rfl⟩ := List.cons.inj h₁
      refine ⟨rfl, .writing w k rfl h₂ (Function.update_self ..) ?_ h₄⟩
      intro v hv
      rw [Function.update_of_ne hv, h₃ v]
  | writing _ _ h₁ | giving _ _ h₁ | received h₁ => cases h₁

/-- A writer writes. -/
theorem Token.write (h : Token waitB recvB writer ts p) (hw : writer w = .write x k) :
    x = p ∧ p ∉ ts ∧ Token waitB recvB (Function.update writer w (.give x k)) (ts ++ [x]) p := by
  obtain ⟨h₁, h₂, h₄, ⟨⟨j, h₃⟩, h₅⟩ | ⟨⟨j, h₃⟩, -⟩⟩ := h.of_pointer (by rw [hw, Writer.pointer])
  · rw [hw] at h₃
    obtain ⟨rfl, rfl⟩ := Writer.write.inj h₃
    refine ⟨rfl, h₅, .giving w k h₁ h₂ (Function.update_self ..) ?_ (by simp)⟩
    intro v hv
    rw [Function.update_of_ne hv, h₄ v hv]
  · rw [hw] at h₃
    cases h₃

/-- A writer gives the pointer back. -/
theorem Token.gave (h : Token waitB recvB writer ts p) (hw : writer w = .give x k) :
    Token waitB (recvB ++ [x]) (Function.update writer w (.idle k)) ts p := by
  obtain ⟨h₁, h₂, h₄, ⟨⟨j, h₃⟩, -⟩ | ⟨⟨j, h₃⟩, h₅⟩⟩ := h.of_pointer (by rw [hw, Writer.pointer])
  · rw [hw] at h₃
    cases h₃
  · rw [hw] at h₃
    obtain ⟨rfl, rfl⟩ := Writer.give.inj h₃
    refine .received h₁ (by rw [h₂, List.nil_append]) ?_ h₅
    intro v
    by_cases hv : v = w
    · rw [hv, Function.update_self, Writer.pointer]
    · exact pointer_update rfl (h₄ v hv)

omit [DecidableEq W] in
/-- A receiver takes a pointer: it is its own. -/
theorem Token.take (h : Token waitB (x :: recvB) writer ts p) :
    x = p ∧ p ∈ ts ∧ Empty waitB recvB writer := by
  cases h with
  | received h₁ h₂ h₃ h₄ =>
      obtain ⟨rfl, rfl⟩ := List.cons.inj h₂
      exact ⟨rfl, h₄, h₁, rfl, h₃⟩
  | waiting _ h₂ | writing _ _ _ h₂ | giving _ _ _ h₂ => cases h₂

end Token

section Alone

variable (hd : Distinct calls) (hone : ∀ g g', calls g ≠ [] → calls g' ≠ [] → g = g')

omit [DecidableEq G] [DecidableEq W] in
include hone in
/-- Only one receiver has anything to do. -/
theorem Inv.unique (h : Inv calls s) {g g' : G} (hg : (s.receiver g).pointers ≠ [])
    (hg' : (s.receiver g').pointers ≠ []) : g = g' := by
  have hcalls : ∀ u, (s.receiver u).pointers ≠ [] → calls u ≠ [] := by
    intro u hu hnil
    have hsuffix := h.suffix u
    rw [hnil, List.suffix_nil] at hsuffix
    exact hu hsuffix
  exact hone g g' (hcalls g hg) (hcalls g' hg')

omit [DecidableEq G] [DecidableEq W] in
include hone in
/-- The pointer in the pair is the one of the receiver that waits. -/
theorem Inv.awaited (h : Inv calls s) {g : G} {p : A} {l : List A}
    (hg : s.receiver g = .await p l) :
    Token s.waitQ.buffer s.recvQ.buffer s.writer s.targets p := by
  rcases h.token with ⟨-, hno⟩ | ⟨g', p', l', hg', htoken⟩
  · exact absurd hg (hno g p l)
  · obtain rfl : g = g' := h.unique hone (by rw [hg]; nofun) (by rw [hg']; nofun)
    rw [hg] at hg'
    obtain ⟨rfl, rfl⟩ := Receiver.await.inj hg'
    exact htoken

omit [DecidableEq G] [DecidableEq W] in
include hone in
/-- No pointer is in the pair when the receiver does not wait. -/
theorem Inv.empty (h : Inv calls s) {g : G} (hg : (s.receiver g).pointers ≠ [])
    (hno : ∀ p l, s.receiver g ≠ .await p l) :
    Empty s.waitQ.buffer s.recvQ.buffer s.writer ∧ ∀ g p l, s.receiver g ≠ .await p l := by
  rcases h.token with hempty | ⟨g', p', l', hg', -⟩
  · exact hempty
  · obtain rfl : g = g' := h.unique hone hg (by rw [hg']; nofun)
    exact absurd hg' (hno p' l')

omit [DecidableEq W] in
theorem Inv.suffix_update (h : Inv calls s) {g : G} {r : Receiver A}
    (hr : r.pointers <:+ (s.receiver g).pointers) (g' : G) :
    (Function.update s.receiver g r g').pointers <:+ calls g' := by
  by_cases hg : g' = g
  · rw [hg, Function.update_self]
    exact hr.trans (h.suffix g)
  · rw [Function.update_of_ne hg]
    exact h.suffix g'

omit [DecidableEq W] in
theorem Inv.fresh_update (h : Inv calls s) {g : G} {r : Receiver A}
    (hr : ∀ p ∈ r.todo, p ∈ (s.receiver g).todo) (g' : G) (p : A)
    (hp : p ∈ (Function.update s.receiver g r g').todo) : p ∉ s.targets := by
  by_cases hg : g' = g
  · rw [hg, Function.update_self] at hp
    exact h.fresh g p (hr p hp)
  · rw [Function.update_of_ne hg] at hp
    exact h.fresh g' p hp

omit [DecidableEq W] in
include hone in
theorem Inv.get (h : Inv calls s) {g : G} {p : A} {l : List A} {q : Channel (G ⊕ W) A}
    (hg : s.receiver g = .idle (p :: l)) (hq : q.buffer = s.waitQ.buffer) :
    Inv calls { s with waitQ := q, receiver := Function.update s.receiver g (.post p l) } where
  suffix := h.suffix_update (by rw [hg]; exact List.suffix_rfl)
  fresh := h.fresh_update (by rw [hg]; exact fun _ => id)
  token := by
    obtain ⟨hempty, hno⟩ := h.empty hone (by rw [hg]; nofun) (by rw [hg]; nofun)
    refine .inl ⟨hq ▸ hempty, ?_⟩
    intro g' p' l' hg'
    exact hno g' p' l' (Threads.of_update_eq hg' nofun).2
  own := h.own
  after := h.after
  once := h.once

omit [DecidableEq W] in
include hone in
theorem Inv.posted (h : Inv calls s) {g : G} {p : A} {l : List A} {q r : Channel (G ⊕ W) A}
    (hg : s.receiver g = .post p l) (hq : q.buffer = s.waitQ.buffer ++ [p])
    (hr : r.buffer = s.recvQ.buffer) :
    Inv calls { s with
      waitQ := q, recvQ := r, receiver := Function.update s.receiver g (.await p l) } where
  suffix := h.suffix_update (by rw [hg]; exact List.suffix_rfl)
  fresh := h.fresh_update (by rw [hg]; exact fun _ => List.mem_cons_of_mem _)
  token := by
    obtain ⟨hempty, -⟩ := h.empty hone (by rw [hg]; nofun) (by rw [hg]; nofun)
    refine .inr ⟨g, p, l, Function.update_self .., .waiting ?_ ?_ hempty.writers ?_⟩
    · rw [hq, hempty.waitQ, List.nil_append]
    · rw [hr, hempty.recvQ]
    · exact h.fresh g p (by rw [hg]; exact List.mem_cons_self)
  own := h.own
  after := h.after
  once := h.once

omit [DecidableEq W] in
include hone in
theorem Inv.received (h : Inv calls s) {g : G} {p x : A} {l : List A} {r : Channel (G ⊕ W) A}
    (hg : s.receiver g = .await p l) (hr : s.recvQ.buffer = x :: r.buffer) :
    Inv calls { s with
      recvQ := r, receiver := Function.update s.receiver g (.idle l),
      returned := s.returned ++ [(p, x)] } := by
  have htoken := h.awaited hone hg
  rw [hr] at htoken
  obtain ⟨rfl, hmem, hempty⟩ := htoken.take
  refine ⟨h.suffix_update ?_, h.fresh_update ?_, .inl ⟨hempty, ?_⟩, ?_, ?_, h.once⟩
  · rw [hg]
    exact List.suffix_cons _ _
  · rw [hg]
    exact fun _ => id
  · intro g' p' l' hg'
    obtain ⟨hne, hg'⟩ := Threads.of_update_eq hg' nofun
    exact hne (h.unique hone (by rw [hg']; nofun) (by rw [hg]; nofun))
  · intro q hq
    rcases List.mem_append.mp hq with hq | hq
    · exact h.own q hq
    · rw [List.mem_singleton.mp hq]
  · intro q hq
    rcases List.mem_append.mp hq with hq | hq
    · exact h.after q hq
    · rw [List.mem_singleton.mp hq]
      exact hmem

omit [DecidableEq G] in
theorem Inv.put (h : Inv calls s) {w : W} {k : ℕ} {q : Channel (G ⊕ W) A}
    (hw : s.writer w = .idle (k + 1)) (hq : q.buffer = s.waitQ.buffer) :
    Inv calls { s with waitQ := q, writer := Function.update s.writer w (.take k) } where
  suffix := h.suffix
  fresh := h.fresh
  token := by
    rcases h.token with ⟨hempty, hno⟩ | ⟨g, p, l, hg, htoken⟩
    · refine .inl ⟨⟨hq.trans hempty.waitQ, hempty.recvQ, ?_⟩, hno⟩
      exact fun v => pointer_update rfl (hempty.writers v)
    · exact .inr ⟨g, p, l, hg, hq ▸ htoken.call hw⟩
  own := h.own
  after := h.after
  once := h.once

omit [DecidableEq G] in
theorem Inv.took (h : Inv calls s) {w : W} {k : ℕ} {x : A} {q : Channel (G ⊕ W) A}
    (hq : s.waitQ.buffer = x :: q.buffer) :
    Inv calls { s with waitQ := q, writer := Function.update s.writer w (.write x k) } where
  suffix := h.suffix
  fresh := h.fresh
  token := by
    rcases h.token with ⟨hempty, -⟩ | ⟨g, p, l, hg, htoken⟩
    · rw [hempty.waitQ] at hq
      cases hq
    · rw [hq] at htoken
      exact .inr ⟨g, p, l, hg, htoken.took.2⟩
  own := h.own
  after := h.after
  once := h.once

omit [DecidableEq G] [DecidableEq W] in
/-- A writer has a pointer, so a receiver waits for it. -/
theorem Inv.exists_awaited (h : Inv calls s) {w : W} {x : A}
    (hw : (s.writer w).pointer = some x) :
    ∃ g p l, s.receiver g = .await p l ∧
      Token s.waitQ.buffer s.recvQ.buffer s.writer s.targets p := by
  rcases h.token with ⟨hempty, -⟩ | htoken
  · rw [hempty.writers w] at hw
    cases hw
  · exact htoken

omit [DecidableEq G] in
include hd hone in
theorem Inv.write (h : Inv calls s) {w : W} {k : ℕ} {x : A} {r : Channel (G ⊕ W) A}
    (hw : s.writer w = .write x k) (hr : r.buffer = s.recvQ.buffer) :
    Inv calls { s with
      recvQ := r, writer := Function.update s.writer w (.give x k),
      written := s.written ++ [(w, x)] } := by
  obtain ⟨g, p, l, hg, htoken⟩ := h.exists_awaited (x := x) (by rw [hw, Writer.pointer])
  obtain ⟨rfl, hnot, htoken'⟩ := htoken.write hw
  have htargets : (s.written ++ [(w, x)]).map Prod.snd = s.targets ++ [x] := by
    simp [targets]
  constructor
  · exact h.suffix
  · intro g' p' hp'
    simp only [targets, htargets, List.mem_append, List.mem_singleton, not_or]
    refine ⟨h.fresh g' p' hp', ?_⟩
    rintro rfl
    -- the pointers that are still to come are different from the one that is waited for
    have hne : (s.receiver g').pointers ≠ [] := by
      intro hnil
      cases hr' : s.receiver g' with
      | idle l' => rw [hr'] at hnil hp'; rw [show l' = [] from hnil] at hp'; cases hp'
      | post _ _ | await _ _ => rw [hr'] at hnil; cases hnil
    obtain rfl : g' = g := h.unique hone hne (by rw [hg]; nofun)
    rw [hg] at hp'
    have hnodup := (hd.nodup g').sublist (h.suffix g').sublist
    rw [hg] at hnodup
    exact (List.nodup_cons.mp hnodup).1 hp'
  · refine .inr ⟨g, x, l, hg, ?_⟩
    simp only [targets, htargets, hr]
    exact htoken'
  · exact h.own
  · intro q hq
    simp only [targets, htargets]
    exact List.mem_append_left _ (h.after q hq)
  · simp only [targets, htargets]
    exact List.nodup_append.mpr ⟨h.once, List.nodup_singleton _, by
      intro a ha b hb
      rw [List.mem_singleton.mp hb]
      rintro rfl
      exact hnot ha⟩

omit [DecidableEq G] in
theorem Inv.gave (h : Inv calls s) {w : W} {k : ℕ} {x : A} {r : Channel (G ⊕ W) A}
    (hw : s.writer w = .give x k) (hr : r.buffer = s.recvQ.buffer ++ [x]) :
    Inv calls { s with recvQ := r, writer := Function.update s.writer w (.idle k) } where
  suffix := h.suffix
  fresh := h.fresh
  token := by
    obtain ⟨g, p, l, hg, htoken⟩ := h.exists_awaited (x := x) (by rw [hw, Writer.pointer])
    exact .inr ⟨g, p, l, hg, hr ▸ htoken.gave hw⟩
  own := h.own
  after := h.after
  once := h.once

include hd hone in
theorem Inv.step (h : Inv calls s) (hs : Step s s') : Inv calls s' := by
  cases hs with
  | get hg hq => exact h.get hone hg hq.moves
  | posted hg hq hr => exact h.posted hone hg hq.moves.2 hr.moves
  | received hg hr => exact h.received hone hg hr.moves
  | put hw hq => exact h.put hw hq.moves
  | took hw hq => exact h.took hq.moves
  | write hw hr => exact h.write hd hone hw hr.moves
  | gave hw hr => exact h.gave hw hr.moves.2
  | waitQ hq => exact ⟨h.suffix, h.fresh, by rw [hq.moves]; exact h.token, h.own, h.after, h.once⟩
  | recvQ hr => exact ⟨h.suffix, h.fresh, by rw [hr.moves]; exact h.token, h.own, h.after, h.once⟩

include hd hone in
theorem Inv.reach (h : Reach calls puts s) : Inv calls s := by
  induction h with
  | refl =>
      refine ⟨fun g => List.suffix_rfl, ?_, .inl ⟨⟨rfl, rfl, fun _ => rfl⟩, ?_⟩, ?_, ?_, ?_⟩
      · intro g p _ hp
        cases hp
      · intro g p l hg
        cases hg
      · intro r hr
        cases hr
      · intro r hr
        cases hr
      · exact List.nodup_nil
  | tail _ hs ih => exact ih.step hd hone hs

include hd hone in
/-- With one receiver the pair does what it is for. -/
theorem serves_of_unique (h : Reach calls puts s) : s.Serves puts := by
  have hinv := Inv.reach hd hone h
  refine ⟨hinv.own, hinv.after, ?_, h.one, hinv.once⟩
  intro w p k hw
  obtain ⟨g, p', l, hg, htoken⟩ := hinv.exists_awaited (x := p) (by rw [hw, Writer.pointer])
  obtain ⟨rfl, -⟩ := htoken.write hw
  exact ⟨g, l, hg⟩

end Alone

/-! ## No writer -/

/-- Nobody has written when nobody calls `put`. -/
theorem Reach.of_no_puts (hputs : ∀ w, puts w = 0) (h : Reach calls puts s) :
    (∀ w, s.writer w = .idle 0) ∧ s.recvQ.buffer = [] ∧ s.returned = [] ∧ s.written = [] := by
  induction h with
  | refl => exact ⟨fun w => congrArg Writer.idle (hputs w), rfl, rfl, rfl⟩
  | tail _ hs ih =>
      obtain ⟨hw, hbuf, hret, hwrit⟩ := ih
      cases hs with
      | get _ _ | waitQ _ => exact ⟨hw, hbuf, hret, hwrit⟩
      | posted _ _ hr | recvQ hr => exact ⟨hw, hr.moves.trans hbuf, hret, hwrit⟩
      | received _ hr =>
          have hmoves := hr.moves
          rw [ChannelEvent.Moves, hbuf] at hmoves
          cases hmoves
      | put hv _ | took hv _ | write hv _ | gave hv _ =>
          rw [hw] at hv
          cases hv

theorem serves_of_no_puts (hputs : ∀ w, puts w = 0) (h : Reach calls puts s) : s.Serves puts := by
  obtain ⟨hw, -, hret, hwrit⟩ := h.of_no_puts hputs
  refine ⟨by simp [hret], by simp [hret], ?_, h.one, by simp [targets, hwrit]⟩
  intro w p k hwk
  rw [hw w] at hwk
  cases hwk

/-! ## Two receivers -/

/-- A receiver puts its pointer into `waitQ` and comes to `recvQ.get()`. -/
theorem Reach.post (h : Reach calls puts s) {g : G} {p : A} {l : List A}
    (hg : s.receiver g = .idle (p :: l)) (hawake : s.waitQ.Awake)
    (hidle : s.waitQ.thread (.inl g) = .idle) (hbuf : s.waitQ.buffer = [])
    (hr : s.recvQ.thread (.inl g) = .idle) :
    ∃ s', Reach calls puts s' ∧ s'.waitQ.buffer = [p] ∧ s'.waitQ.thread = s.waitQ.thread ∧
      s'.recvQ.buffer = s.recvQ.buffer ∧
      s'.recvQ.thread = Function.update s.recvQ.thread (.inl g) (.get false) ∧
      s'.receiver = Function.update s.receiver g (.await p l) ∧ s'.writer = s.writer := by
  have h₁ := h.tail (.get hg (.callPut hidle))
  have h₂ := h₁.tail (.posted (Function.update_self ..)
    ((hawake.update fun _ => rfl).put (Function.update_self ..) (by simp [hbuf, cap]))
    (.callGet hr))
  refine ⟨_, h₂, by simp [hbuf], ?_, rfl, rfl, by simp, rfl⟩
  simp [← hidle]

/-- A writer serves the pointer in `waitQ`. -/
theorem Reach.serve (h : Reach calls puts s) {w : W} {k : ℕ} {p : A}
    (hw : s.writer w = .idle (k + 1)) (hawake : s.waitQ.Awake)
    (hidle : s.waitQ.thread (.inr w) = .idle) (hbuf : s.waitQ.buffer = [p])
    (hawake' : s.recvQ.Awake) (hidle' : s.recvQ.thread (.inr w) = .idle)
    (hbuf' : s.recvQ.buffer = []) :
    ∃ s', Reach calls puts s' ∧ s'.waitQ.buffer = [] ∧ s'.waitQ.thread = s.waitQ.thread ∧
      s'.recvQ.buffer = [p] ∧ s'.recvQ.thread = s.recvQ.thread ∧ s'.receiver = s.receiver := by
  have h₁ := h.tail (.put hw (.callGet hidle))
  have h₂ := h₁.tail (.took (Function.update_self ..)
    ((hawake.update fun _ => rfl).get (Function.update_self ..) hbuf))
  have h₃ := h₂.tail (.write (Function.update_self ..) (.callPut hidle'))
  have h₄ := h₃.tail (.gave (Function.update_self ..)
    ((hawake'.update fun _ => rfl).put (Function.update_self ..) (by simp [hbuf', cap])))
  refine ⟨_, h₄, rfl, ?_, by simp [hbuf'], ?_, rfl⟩
  · simp [← hidle]
  · simp [← hidle']

/-- The second receiver takes the pointer of the first. -/
theorem exists_swapped {g g' : G} {p p' : A} {l l' : List A} {w : W} (hne : g ≠ g')
    (hg : calls g = p :: l) (hg' : calls g' = p' :: l') (hw : puts w ≠ 0) :
    ∃ s, Reach calls puts s ∧ (p', p) ∈ s.returned := by
  obtain ⟨k, hk⟩ := Nat.exists_eq_succ_of_ne_zero hw
  have hawake : (Channel.start : Channel (G ⊕ W) A).Awake := fun _ _ => rfl
  have h₀ : Reach calls puts (start calls puts) := .refl
  obtain ⟨s₁, h₁, hq₁, ht₁, hr₁, hu₁, hrec₁, hwr₁⟩ :=
    h₀.post (g := g) (congrArg Receiver.idle hg) hawake rfl rfl rfl
  obtain ⟨s₂, h₂, hq₂, ht₂, hr₂, hu₂, hrec₂⟩ :=
    h₁.serve (w := w) (by rw [hwr₁]; exact congrArg Writer.idle hk)
      (by unfold Channel.Awake; rw [ht₁]; exact hawake) (by rw [ht₁]; rfl) hq₁
      (by unfold Channel.Awake; rw [hu₁]; exact hawake.update (fun _ => rfl)) (by rw [hu₁]; rfl) hr₁
  have hidle : s₂.recvQ.thread (.inl g') = .idle := by
    rw [hu₂, hu₁, Function.update_of_ne (by simpa using hne.symm)]
    rfl
  obtain ⟨s₃, h₃, hq₃, ht₃, hr₃, hu₃, hrec₃, hwr₃⟩ :=
    h₂.post (g := g') (p := p') (l := l')
      (by rw [hrec₂, hrec₁, Function.update_of_ne hne.symm]; exact congrArg Receiver.idle hg')
      (by unfold Channel.Awake; rw [ht₂, ht₁]; exact hawake) (by rw [ht₂, ht₁]; rfl) hq₂ hidle
  have hawake₃ : s₃.recvQ.Awake := by
    unfold Channel.Awake
    rw [hu₃, hu₂, hu₁]
    exact (hawake.update (t := .inl g) (s := .get false) fun _ => rfl).update (t := .inl g')
      (s := .get false) fun _ => rfl
  have h₄ := h₃.tail (.received (by rw [hrec₃, Function.update_self])
    (hawake₃.get (by rw [hu₃, Function.update_self]) (hr₃.trans hr₂)))
  exact ⟨_, h₄, by simp⟩

/-- **When every receiver gets its own buffer.** When only one thread receives, or when nobody
writes, and only then. -/
theorem serves_iff (hd : Distinct calls) :
    (∀ s, Reach calls puts s → s.Serves puts) ↔
      (∀ g g', calls g ≠ [] → calls g' ≠ [] → g = g') ∨ ∀ w, puts w = 0 := by
  constructor
  · intro hall
    by_contra hno
    push Not at hno
    obtain ⟨⟨g, g', hg, hg', hne⟩, w, hw⟩ := hno
    obtain ⟨p, l, hp⟩ := List.exists_cons_of_ne_nil hg
    obtain ⟨p', l', hp'⟩ := List.exists_cons_of_ne_nil hg'
    obtain ⟨s, hs, hmem⟩ := exists_swapped hne hp hp' hw
    have heq : p' = p := (hall s hs).own _ hmem
    refine hd.disjoint g g' hne (a := p) ?_ ?_
    · rw [hp]
      exact List.mem_cons_self
    · rw [hp', heq]
      exact List.mem_cons_self
  · rintro (hone | hputs) s hs
    · exact serves_of_unique hd hone hs
    · exact serves_of_no_puts hputs hs

/-- One thread receives twice, and two threads write. -/
theorem serves_iff_one :
    Distinct (fun _ : Unit => [4, 5]) ∧
      ∀ s : QueuePair Unit Bool ℕ, Reach (fun _ => [4, 5]) (fun _ => 1) s →
        s.Serves fun _ => 1 := by
  have hd : Distinct (fun _ : Unit => [4, 5]) := ⟨fun _ => by decide, fun _ _ hne => absurd rfl hne⟩
  exact ⟨hd, (serves_iff hd).mpr (.inl fun _ _ _ _ => rfl)⟩

/-- Two threads receive, and one writes once. -/
theorem not_serves_two :
    Distinct (fun b : Bool => [b.toNat]) ∧
      ¬∀ s : QueuePair Bool Unit ℕ, Reach (fun b => [b.toNat]) (fun _ => 1) s →
        s.Serves fun _ => 1 := by
  refine ⟨⟨by decide, ?_⟩, fun hall => ?_⟩
  · intro b b' hne
    cases b <;> cases b' <;> simp at hne ⊢
  · obtain ⟨s, hs, hmem⟩ : ∃ s : QueuePair Bool Unit ℕ,
        Reach (fun b => [b.toNat]) (fun _ => 1) s ∧ (1, 0) ∈ s.returned :=
      exists_swapped (w := ()) Bool.false_ne_true rfl rfl (by decide)
    exact absurd ((hall s hs).own _ hmem) (by decide)

end QueuePair

end StdmlCollective

import Mathlib.Data.List.Basic
import Mathlib.Data.List.Pairwise
import Mathlib.Data.Prod.Lex
import Mathlib.Logic.Function.Basic
import Mathlib.Logic.Relation
import Mathlib.Order.WellFounded

/-!
# Networks of block programs

A process runs a list of blocks. The jobs of a block run in parallel and in any
order; the next block starts when all of them are done (a fork-join section).
Processes exchange packets over one FIFO link per ordered pair.

Every block carries a `time`. Times are auxiliary: no step looks at them except
`await`, they only name the place of a block in an order on which all processes
agree. A program is *compatible* when, for every ordered pair, what the one side
sends to the other is, tag by tag and in order, what the other side receives.

## Main results

* `Matched.step` — the tags in flight followed by the tags still to be sent are
  the tags still to be received, and every step keeps it so.
* `Matched.progress` — a matched network is stuck only when every process is done.
* `Matched.link_eq_nil` — and then no packet is left.
-/

namespace StdmlCollective.BlockNet

/-- One job of a block: `send` and `recv` use the link to or from another process,
`act` changes the store, `emit` makes a value visible outside, and `await` waits
until one of the processes `qs` has left the blocks up to time `t` behind. -/
inductive Job (P T K D S O : Type) where
  | send (dst : P) (key : K) (payload : S → D)
  | recv (src : P) (key : K) (absorb : D → S → S)
  | act (f : S → S)
  | emit (i : ℕ) (f : S → O)
  | await (qs : List P) (t : T)

/-- Jobs that run in parallel, and the time that names the block. -/
structure Block (P T K D S O : Type) where
  time : T
  jobs : List (Job P T K D S O)

/-- What a link carries: the payload under the time and the key of its sender. -/
structure Packet (T K D : Type) where
  time : T
  key : K
  data : D

namespace Packet
variable {T K D : Type}

/-- The part of a packet that decides which receive it is for. -/
def tag (m : Packet T K D) : T × K := (m.time, m.key)

@[simp] theorem tag_mk (t : T) (k : K) (d : D) : (Packet.mk t k d).tag = (t, k) := rfl

end Packet

/-- What is left of a program, and the store it works on. -/
structure Proc (P T K D S O : Type) where
  blocks : List (Block P T K D S O)
  store : S

/-- What one local step shows to the rest of the network. -/
inductive Action (P T K D O : Type) where
  | tau
  | send (dst : P) (m : Packet T K D)
  | recv (src : P) (m : Packet T K D)
  | emit (i : ℕ) (v : O)
  | await (qs : List P) (t : T)

section Local

variable {P T K D S O : Type}

/-- The local steps of a process. A finished job leaves its block, an empty block
leaves the program. -/
inductive LStep : Proc P T K D S O → Action P T K D O → Proc P T K D S O → Prop where
  | pop {t : T} {bs : List (Block P T K D S O)} {σ : S} :
      LStep ⟨⟨t, []⟩ :: bs, σ⟩ .tau ⟨bs, σ⟩
  | send {t : T} {l₁ l₂ : List (Job P T K D S O)} {bs : List (Block P T K D S O)} {σ : S}
      {dst : P} {k : K} {f : S → D} :
      LStep ⟨⟨t, l₁ ++ .send dst k f :: l₂⟩ :: bs, σ⟩ (.send dst ⟨t, k, f σ⟩)
        ⟨⟨t, l₁ ++ l₂⟩ :: bs, σ⟩
  | recv {t : T} {l₁ l₂ : List (Job P T K D S O)} {bs : List (Block P T K D S O)} {σ : S}
      {src : P} {k : K} {g : D → S → S} {d : D} :
      LStep ⟨⟨t, l₁ ++ .recv src k g :: l₂⟩ :: bs, σ⟩ (.recv src ⟨t, k, d⟩)
        ⟨⟨t, l₁ ++ l₂⟩ :: bs, g d σ⟩
  | act {t : T} {l₁ l₂ : List (Job P T K D S O)} {bs : List (Block P T K D S O)} {σ : S}
      {f : S → S} :
      LStep ⟨⟨t, l₁ ++ .act f :: l₂⟩ :: bs, σ⟩ .tau ⟨⟨t, l₁ ++ l₂⟩ :: bs, f σ⟩
  | emit {t : T} {l₁ l₂ : List (Job P T K D S O)} {bs : List (Block P T K D S O)} {σ : S}
      {i : ℕ} {f : S → O} :
      LStep ⟨⟨t, l₁ ++ .emit i f :: l₂⟩ :: bs, σ⟩ (.emit i (f σ)) ⟨⟨t, l₁ ++ l₂⟩ :: bs, σ⟩
  | await {t u : T} {l₁ l₂ : List (Job P T K D S O)} {bs : List (Block P T K D S O)} {σ : S}
      {qs : List P} :
      LStep ⟨⟨t, l₁ ++ .await qs u :: l₂⟩ :: bs, σ⟩ (.await qs u) ⟨⟨t, l₁ ++ l₂⟩ :: bs, σ⟩

end Local

/-- Replace the entry of the ordered pair `(s, d)` of a table. -/
def setPair {P α : Type} [DecidableEq P] (l : P → P → α) (s d : P) (v : α) : P → P → α :=
  fun s' d' => if s' = s ∧ d' = d then v else l s' d'

section setPair
variable {P α : Type} [DecidableEq P] (l : P → P → α) (s d : P) (v : α)

@[simp] theorem setPair_self : setPair l s d v s d = v := by simp [setPair]

theorem setPair_ne {s' d' : P} (h : ¬(s' = s ∧ d' = d)) : setPair l s d v s' d' = l s' d' := by
  simp [setPair, h]

end setPair

section Network

variable {P T K D S O : Type}

/-- The network: every process, what it has emitted, and the links. -/
structure State (P T K D S O : Type) where
  proc : P → Proc P T K D S O
  out : P → List (ℕ × O)
  link : P → P → List (Packet T K D)

/-- Process `q` has left every block up to time `t` behind. -/
def Passed [LT T] (c : State P T K D S O) (q : P) (t : T) : Prop :=
  ∀ b ∈ (c.proc q).blocks, t < b.time

/-- One step of the network: one process moves, and the links follow. -/
inductive Step [DecidableEq P] [LT T] : State P T K D S O → State P T K D S O → Prop where
  | tau {c : State P T K D S O} {p : P} {x : Proc P T K D S O} :
      LStep (c.proc p) .tau x → Step c { c with proc := Function.update c.proc p x }
  | emit {c : State P T K D S O} {p : P} {x : Proc P T K D S O} {i : ℕ} {v : O} :
      LStep (c.proc p) (.emit i v) x →
      Step c { c with
        proc := Function.update c.proc p x
        out := Function.update c.out p (c.out p ++ [(i, v)]) }
  | await {c : State P T K D S O} {p : P} {x : Proc P T K D S O} {qs : List P} {t : T} :
      LStep (c.proc p) (.await qs t) x → (∃ q ∈ qs, Passed c q t) →
      Step c { c with proc := Function.update c.proc p x }
  | send {c : State P T K D S O} {p dst : P} {x : Proc P T K D S O} {m : Packet T K D} :
      LStep (c.proc p) (.send dst m) x →
      Step c { c with
        proc := Function.update c.proc p x
        link := setPair c.link p dst (c.link p dst ++ [m]) }
  | recv {c : State P T K D S O} {p src : P} {x : Proc P T K D S O} {m : Packet T K D}
      {ms : List (Packet T K D)} :
      LStep (c.proc p) (.recv src m) x → c.link src p = m :: ms →
      Step c { c with
        proc := Function.update c.proc p x
        link := setPair c.link src p ms }

/-- Every process starts its program on its store; nothing is in flight. -/
def init (prog : P → List (Block P T K D S O)) (σ : P → S) : State P T K D S O where
  proc p := ⟨prog p, σ p⟩
  out _ := []
  link _ _ := []

/-- The states the network can be in. -/
def Reach [DecidableEq P] [LT T] (prog : P → List (Block P T K D S O)) (σ : P → S)
    (c : State P T K D S O) : Prop :=
  Relation.ReflTransGen Step (init prog σ) c

/-- Every process has run its program to the end. -/
def Final (c : State P T K D S O) : Prop := ∀ p, (c.proc p).blocks = []

end Network

/-! ## Tags still to be sent and to be received -/

section Tags

variable {P T K D S O : Type} [DecidableEq P]

/-- The key a job sends to `d`. -/
def Job.sendKey (d : P) : Job P T K D S O → Option K
  | .send dst k _ => if dst = d then some k else none
  | _ => none

/-- The key a job receives from `s`. -/
def Job.recvKey (s : P) : Job P T K D S O → Option K
  | .recv src k _ => if src = s then some k else none
  | _ => none

/-- The tags a block sends to `d`. -/
def Block.sends (b : Block P T K D S O) (d : P) : List (T × K) :=
  (b.jobs.filterMap (Job.sendKey d)).map (b.time, ·)

/-- The tags a block receives from `s`. -/
def Block.recvs (b : Block P T K D S O) (s : P) : List (T × K) :=
  (b.jobs.filterMap (Job.recvKey s)).map (b.time, ·)

/-- The tags a program sends to `d`, in order. -/
def sends (bs : List (Block P T K D S O)) (d : P) : List (T × K) := bs.flatMap (·.sends d)

/-- The tags a program receives from `s`, in order. -/
def recvs (bs : List (Block P T K D S O)) (s : P) : List (T × K) := bs.flatMap (·.recvs s)

@[simp] theorem sends_nil (d : P) : sends ([] : List (Block P T K D S O)) d = [] := rfl
@[simp] theorem recvs_nil (s : P) : recvs ([] : List (Block P T K D S O)) s = [] := rfl

@[simp] theorem sends_cons (b : Block P T K D S O) (bs : List (Block P T K D S O)) (d : P) :
    sends (b :: bs) d = b.sends d ++ sends bs d := by simp [sends]
@[simp] theorem recvs_cons (b : Block P T K D S O) (bs : List (Block P T K D S O)) (s : P) :
    recvs (b :: bs) s = b.recvs s ++ recvs bs s := by simp [recvs]

@[simp] theorem sends_append (as bs : List (Block P T K D S O)) (d : P) :
    sends (as ++ bs) d = sends as d ++ sends bs d := by simp [sends]
@[simp] theorem recvs_append (as bs : List (Block P T K D S O)) (s : P) :
    recvs (as ++ bs) s = recvs as s ++ recvs bs s := by simp [recvs]

theorem time_of_mem_sends {bs : List (Block P T K D S O)} {d : P} {t : T} {k : K}
    (h : (t, k) ∈ sends bs d) :
    ∃ b ∈ bs, b.time = t ∧ ∃ f, Job.send d k f ∈ b.jobs := by
  obtain ⟨b, hb, hk⟩ := List.mem_flatMap.mp h
  obtain ⟨k', hk', heq⟩ := List.mem_map.mp hk
  obtain ⟨rfl, rfl⟩ := Prod.mk.inj heq
  obtain ⟨j, hj, hjk⟩ := List.mem_filterMap.mp hk'
  cases j with
  | send dst k₀ f =>
      simp only [Job.sendKey] at hjk
      split at hjk
      · next hd =>
        subst hd
        obtain rfl := Option.some.inj hjk
        exact ⟨b, hb, rfl, f, hj⟩
      · exact absurd hjk (by simp)
  | recv src k₀ g => simp [Job.sendKey] at hjk
  | act f => simp [Job.sendKey] at hjk
  | emit i f => simp [Job.sendKey] at hjk
  | await qs u => simp [Job.sendKey] at hjk

theorem time_of_mem_recvs {bs : List (Block P T K D S O)} {s : P} {t : T} {k : K}
    (h : (t, k) ∈ recvs bs s) :
    ∃ b ∈ bs, b.time = t ∧ ∃ g, Job.recv s k g ∈ b.jobs := by
  obtain ⟨b, hb, hk⟩ := List.mem_flatMap.mp h
  obtain ⟨k', hk', heq⟩ := List.mem_map.mp hk
  obtain ⟨rfl, rfl⟩ := Prod.mk.inj heq
  obtain ⟨j, hj, hjk⟩ := List.mem_filterMap.mp hk'
  cases j with
  | recv src k₀ g =>
      simp only [Job.recvKey] at hjk
      split at hjk
      · next hd =>
        subst hd
        obtain rfl := Option.some.inj hjk
        exact ⟨b, hb, rfl, g, hj⟩
      · exact absurd hjk (by simp)
  | send dst k₀ g => simp [Job.recvKey] at hjk
  | act f => simp [Job.recvKey] at hjk
  | emit i f => simp [Job.recvKey] at hjk
  | await qs u => simp [Job.recvKey] at hjk

/-- A block uses every link at most once in each direction, and waits only for
processes to pass an earlier time. -/
structure Block.Valid [LT T] (b : Block P T K D S O) : Prop where
  sends_le : ∀ d, (b.jobs.filterMap (Job.sendKey d)).length ≤ 1
  recvs_le : ∀ s, (b.jobs.filterMap (Job.recvKey s)).length ≤ 1
  await_lt : ∀ qs u, Job.await qs u ∈ b.jobs → qs ≠ [] ∧ u < b.time

/-- The blocks of a program are valid and their times increase. -/
structure Valid [LT T] (bs : List (Block P T K D S O)) : Prop where
  blocks : ∀ b ∈ bs, b.Valid
  times : (bs.map Block.time).Pairwise (· < ·)

/-- The programs of a network are valid, and for every ordered pair the sends of the
one are the receives of the other. -/
structure Compat [LT T] (prog : P → List (Block P T K D S O)) : Prop where
  valid : ∀ p, Valid (prog p)
  matched : ∀ s d, sends (prog s) d = recvs (prog d) s

theorem Valid.tail [LT T] {b : Block P T K D S O} {bs : List (Block P T K D S O)}
    (h : Valid (b :: bs)) : Valid bs where
  blocks b' hb' := h.blocks b' (List.mem_cons_of_mem _ hb')
  times := (List.pairwise_cons.mp h.times).2

/-- Removing a job keeps a program valid. -/
theorem Valid.erase [LT T] {t : T} {l₁ l₂ : List (Job P T K D S O)} {j : Job P T K D S O}
    {bs : List (Block P T K D S O)} (h : Valid (⟨t, l₁ ++ j :: l₂⟩ :: bs)) :
    Valid (⟨t, l₁ ++ l₂⟩ :: bs) where
  blocks := by
    intro b hb
    rcases List.mem_cons.mp hb with rfl | hb
    · have hv := h.blocks _ List.mem_cons_self
      have hsub : (l₁ ++ l₂).Sublist (l₁ ++ j :: l₂) := by simp
      exact {
        sends_le := fun d => ((hsub.filterMap _).length_le).trans (hv.sends_le d)
        recvs_le := fun s => ((hsub.filterMap _).length_le).trans (hv.recvs_le s)
        await_lt := fun qs u hm => hv.await_lt qs u (hsub.subset hm) }
    · exact h.blocks b (List.mem_cons_of_mem _ hb)
  times := by simpa using h.times

/-- In a valid program the head block's send to `d` is the next one to `d`. -/
theorem Valid.sends_erase [LT T] {t : T} {l₁ l₂ : List (Job P T K D S O)} {d : P} {k : K}
    {f : S → D} {bs : List (Block P T K D S O)}
    (h : Valid (⟨t, l₁ ++ .send d k f :: l₂⟩ :: bs)) :
    sends (⟨t, l₁ ++ .send d k f :: l₂⟩ :: bs) d
      = (t, k) :: sends (⟨t, l₁ ++ l₂⟩ :: bs) d := by
  have hle := (h.blocks _ List.mem_cons_self).sends_le d
  have h₁ : l₁.filterMap (Job.sendKey d) = [] := by
    rw [← List.length_eq_zero_iff]
    simp only [List.filterMap_append, List.length_append, List.filterMap_cons, Job.sendKey,
      if_true, List.length_cons] at hle
    omega
  simp [Block.sends, Job.sendKey, h₁]

/-- In a valid program the head block's receive from `s` is the next one from `s`. -/
theorem Valid.recvs_erase [LT T] {t : T} {l₁ l₂ : List (Job P T K D S O)} {s : P} {k : K}
    {g : D → S → S} {bs : List (Block P T K D S O)}
    (h : Valid (⟨t, l₁ ++ .recv s k g :: l₂⟩ :: bs)) :
    recvs (⟨t, l₁ ++ .recv s k g :: l₂⟩ :: bs) s
      = (t, k) :: recvs (⟨t, l₁ ++ l₂⟩ :: bs) s := by
  have hle := (h.blocks _ List.mem_cons_self).recvs_le s
  have h₁ : l₁.filterMap (Job.recvKey s) = [] := by
    rw [← List.length_eq_zero_iff]
    simp only [List.filterMap_append, List.length_append, List.filterMap_cons, Job.recvKey,
      if_true, List.length_cons] at hle
    omega
  simp [Block.recvs, Job.recvKey, h₁]

/-- A job that does not send to `d` leaves the sends to `d` as they are. -/
theorem sends_erase_of_none {t : T} {l₁ l₂ : List (Job P T K D S O)} {j : Job P T K D S O}
    {bs : List (Block P T K D S O)} {d : P} (h : j.sendKey d = none) :
    sends (⟨t, l₁ ++ l₂⟩ :: bs) d = sends (⟨t, l₁ ++ j :: l₂⟩ :: bs) d := by
  simp [Block.sends, h]

theorem recvs_erase_of_none {t : T} {l₁ l₂ : List (Job P T K D S O)} {j : Job P T K D S O}
    {bs : List (Block P T K D S O)} {s : P} (h : j.recvKey s = none) :
    recvs (⟨t, l₁ ++ l₂⟩ :: bs) s = recvs (⟨t, l₁ ++ j :: l₂⟩ :: bs) s := by
  simp [Block.recvs, h]

/-! ## What a local step does to the tags -/

theorem LStep.valid [LT T] {x y : Proc P T K D S O} {a : Action P T K D O} (h : LStep x a y)
    (hx : Valid x.blocks) : Valid y.blocks := by
  cases h with
  | pop => exact hx.tail
  | send => exact hx.erase
  | recv => exact hx.erase
  | act => exact hx.erase
  | emit => exact hx.erase
  | await => exact hx.erase

omit [DecidableEq P] in
/-- Times only leave a program. -/
theorem LStep.time_mem {x y : Proc P T K D S O} {a : Action P T K D O} (h : LStep x a y)
    {b : Block P T K D S O} (hb : b ∈ y.blocks) : ∃ b' ∈ x.blocks, b'.time = b.time := by
  cases h with
  | pop => exact ⟨b, List.mem_cons_of_mem _ hb, rfl⟩
  | send | recv | act | emit | await =>
      rcases List.mem_cons.mp hb with rfl | hb
      · exact ⟨_, List.mem_cons_self, rfl⟩
      · exact ⟨b, List.mem_cons_of_mem _ hb, rfl⟩

/-- Only a `send` step sends. -/
theorem LStep.sends_eq [LT T] {x y : Proc P T K D S O} {a : Action P T K D O} (h : LStep x a y)
    (hx : Valid x.blocks) (d : P) :
    sends x.blocks d =
      (match a with
        | .send dst m => if dst = d then [m.tag] else []
        | _ => []) ++ sends y.blocks d := by
  cases h with
  | pop => simp [Block.sends]
  | @send t l₁ l₂ bs σ dst k f =>
      by_cases hd : dst = d
      · subst hd
        simpa using hx.sends_erase
      · simp only [hd, if_false, List.nil_append]
        exact (sends_erase_of_none (by simp [Job.sendKey, hd])).symm
  | recv | act | emit | await => exact (sends_erase_of_none rfl).symm

/-- Only a `recv` step receives. -/
theorem LStep.recvs_eq [LT T] {x y : Proc P T K D S O} {a : Action P T K D O} (h : LStep x a y)
    (hx : Valid x.blocks) (s : P) :
    recvs x.blocks s =
      (match a with
        | .recv src m => if src = s then [m.tag] else []
        | _ => []) ++ recvs y.blocks s := by
  cases h with
  | pop => simp [Block.recvs]
  | @recv t l₁ l₂ bs σ src k g d =>
      by_cases hd : src = s
      · subst hd
        simpa using hx.recvs_erase
      · simp only [hd, if_false, List.nil_append]
        exact (recvs_erase_of_none (by simp [Job.recvKey, hd])).symm
  | send | act | emit | await => exact (recvs_erase_of_none rfl).symm

end Tags

/-! ## What a program emits -/

section Emits

variable {P T K D S O : Type}

/-- The index a job emits under. -/
def Job.emitIdx : Job P T K D S O → Option ℕ
  | .emit i _ => some i
  | _ => none

/-- The indices a program still emits under. -/
def emits (bs : List (Block P T K D S O)) : List ℕ :=
  bs.flatMap fun b => b.jobs.filterMap Job.emitIdx

/-- Whatever the order of steps, what has been emitted and what is left to be emitted
are together what the program says. -/
theorem emitted_perm [DecidableEq P] [LT T] {prog : P → List (Block P T K D S O)} {σ : P → S}
    {c : State P T K D S O} (hc : Reach prog σ c) (p : P) :
    ((c.out p).map Prod.fst ++ emits (c.proc p).blocks).Perm (emits (prog p)) := by
  have key : ∀ {x y : Proc P T K D S O} {a : Action P T K D O}, LStep x a y →
      (emits x.blocks).Perm ((match a with | .emit i _ => [i] | _ => []) ++ emits y.blocks) := by
    intro x y a hl
    cases hl with
    | pop => simp [emits]
    | send | recv | act | await => simp [emits, Job.emitIdx, List.filterMap_cons]
    | emit => simp [emits, Job.emitIdx, List.perm_middle]
  have hmove : ∀ {c : State P T K D S O} {q : P} {x : Proc P T K D S O} {a : Action P T K D O},
      LStep (c.proc q) a x → (emits (c.proc p).blocks).Perm
        ((match a with | .emit i _ => if p = q then [i] else [] | _ => []) ++
          emits (Function.update c.proc q x p).blocks) := by
    intro c q x a hl
    by_cases hp : p = q
    · subst hp
      simpa using key hl
    · rw [Function.update_of_ne hp]
      cases a <;> simp [hp]
  induction hc with
  | refl => simp [init]
  | tail _ hs ih =>
      cases hs with
      | tau hl | await hl _ | send hl | recv hl _ =>
          exact ((List.Perm.append_left _ (by simpa using (hmove hl).symm)).trans ih)
      | @emit q x i v hl =>
          refine List.Perm.trans ?_ ih
          refine List.Perm.trans ?_ (List.Perm.append_left _ (hmove hl).symm)
          by_cases hp : p = q
          · subst hp
            simp
          · simp [hp]

end Emits

/-! ## Matched networks -/

section Matched

variable {P T K D S O : Type} [DecidableEq P] [LinearOrder T]

/-- What is in flight on a link, followed by what its source still sends, is what its
target still receives. -/
structure Matched (c : State P T K D S O) : Prop where
  valid : ∀ p, Valid (c.proc p).blocks
  tags : ∀ s d, (c.link s d).map Packet.tag ++ sends (c.proc s).blocks d
    = recvs (c.proc d).blocks s

theorem Compat.matched_init {prog : P → List (Block P T K D S O)} (h : Compat prog)
    (σ : P → S) : Matched (init prog σ) where
  valid := h.valid
  tags s d := by simpa [init] using h.matched s d

/-- Validity survives the step of one process. -/
private theorem Matched.valid_update {c : State P T K D S O} (h : Matched c) {p : P}
    {x : Proc P T K D S O} {a : Action P T K D O} (hl : LStep (c.proc p) a x) (q : P) :
    Valid (Function.update c.proc p x q).blocks := by
  by_cases hq : q = p
  · subst hq
    simpa using hl.valid (h.valid q)
  · simpa [Function.update_of_ne hq] using h.valid q

/-- The sends that are left after one process has moved. -/
private theorem Matched.sends_update {c : State P T K D S O} (h : Matched c) {p : P}
    {x : Proc P T K D S O} {a : Action P T K D O} (hl : LStep (c.proc p) a x) (s d : P) :
    sends (c.proc s).blocks d =
      (match a with
        | .send dst m => if s = p ∧ dst = d then [m.tag] else []
        | _ => []) ++ sends (Function.update c.proc p x s).blocks d := by
  by_cases hs : s = p
  · subst hs
    rw [Function.update_self, hl.sends_eq (h.valid s) d]
    cases a <;> simp
  · rw [Function.update_of_ne hs]
    cases a <;> simp [hs]

/-- The receives that are left after one process has moved. -/
private theorem Matched.recvs_update {c : State P T K D S O} (h : Matched c) {p : P}
    {x : Proc P T K D S O} {a : Action P T K D O} (hl : LStep (c.proc p) a x) (d s : P) :
    recvs (c.proc d).blocks s =
      (match a with
        | .recv src m => if d = p ∧ src = s then [m.tag] else []
        | _ => []) ++ recvs (Function.update c.proc p x d).blocks s := by
  by_cases hd : d = p
  · subst hd
    rw [Function.update_self, hl.recvs_eq (h.valid d) s]
    cases a <;> simp
  · rw [Function.update_of_ne hd]
    cases a <;> simp [hd]

/-- **Every step keeps a network matched.** -/
theorem Matched.step {c c' : State P T K D S O} (h : Matched c) (hs : Step c c') :
    Matched c' := by
  cases hs with
  | @tau p x hl | @emit p x i v hl | @await p x qs t hl hq =>
      refine ⟨h.valid_update hl, fun s d => ?_⟩
      have hsd := h.tags s d
      rw [h.sends_update hl s d, h.recvs_update hl d s] at hsd
      simpa using hsd
  | @send p dst x m hl =>
      refine ⟨h.valid_update hl, fun s d => ?_⟩
      have hsd := h.tags s d
      rw [h.sends_update hl s d, h.recvs_update hl d s] at hsd
      by_cases hpair : s = p ∧ d = dst
      · obtain ⟨rfl, rfl⟩ := hpair
        simpa using hsd
      · have hne : ¬(s = p ∧ dst = d) := fun hc => hpair ⟨hc.1, hc.2.symm⟩
        simp only [hne, if_false, List.nil_append] at hsd
        simpa only [setPair_ne _ _ _ _ hpair] using hsd
  | @recv p src x m ms hl hlink =>
      refine ⟨h.valid_update hl, fun s d => ?_⟩
      have hsd := h.tags s d
      rw [h.sends_update hl s d, h.recvs_update hl d s] at hsd
      by_cases hpair : s = src ∧ d = p
      · obtain ⟨rfl, rfl⟩ := hpair
        simpa [hlink] using hsd
      · have hne : ¬(d = p ∧ src = s) := fun hc => hpair ⟨hc.2.symm, hc.1⟩
        simp only [hne, if_false, List.nil_append] at hsd
        simpa only [setPair_ne _ _ _ _ hpair] using hsd

theorem Compat.matched_reach {prog : P → List (Block P T K D S O)} (h : Compat prog)
    {σ : P → S} {c : State P T K D S O} (hc : Reach prog σ c) : Matched c := by
  induction hc with
  | refl => exact h.matched_init σ
  | tail _ hs ih => exact ih.step hs

/-- The first packet on a link is the one the next receive asks for. -/
theorem Matched.head_tag {c : State P T K D S O} (h : Matched c) {s d : P} {t : T}
    {l₁ l₂ : List (Job P T K D S O)} {k : K} {g : D → S → S} {bs : List (Block P T K D S O)}
    (hd : (c.proc d).blocks = ⟨t, l₁ ++ .recv s k g :: l₂⟩ :: bs)
    {m : Packet T K D} {ms : List (Packet T K D)} (hl : c.link s d = m :: ms) :
    m.tag = (t, k) := by
  have hv := h.valid d
  have hsd := h.tags s d
  rw [hd] at hv
  rw [hd, hl, hv.recvs_erase] at hsd
  simpa using congrArg List.head? hsd

/-- When the target has no receive left, nothing is in flight to it. -/
theorem Matched.link_eq_nil {c : State P T K D S O} (h : Matched c) {s d : P}
    (hd : recvs (c.proc d).blocks s = []) : c.link s d = [] := by
  have hsd := h.tags s d
  rw [hd] at hsd
  simpa using (List.append_eq_nil_iff.mp hsd).1

/-- What a target has already received its source has already sent. -/
theorem Matched.passed_of_sends {c : State P T K D S O} (h : Matched c) {s d : P} {t : T} {k : K}
    (hd : (t, k) ∉ recvs (c.proc d).blocks s) : (t, k) ∉ sends (c.proc s).blocks d := by
  intro hmem
  apply hd
  rw [← h.tags s d]
  exact List.mem_append_right _ hmem

/-- A job that can run now, or can run as soon as the packet at hand is taken. -/
def Ready (c : State P T K D S O) (p : P) : Job P T K D S O → Prop
  | .recv src _ _ => c.link src p ≠ []
  | .await qs t => ∃ q ∈ qs, Passed c q t
  | _ => True

theorem Valid.head_le {b : Block P T K D S O} {bs : List (Block P T K D S O)}
    (h : Valid (b :: bs)) {b' : Block P T K D S O} (hb : b' ∈ b :: bs) : b.time ≤ b'.time := by
  rcases List.mem_cons.mp hb with rfl | hb
  · exact le_refl _
  · exact le_of_lt ((List.pairwise_cons.mp h.times).1 _ (List.mem_map_of_mem hb))

/-- A send whose time is not after any time of the program is in the head block. -/
theorem Valid.head_send {bs : List (Block P T K D S O)} (h : Valid bs) {d : P} {t : T} {k : K}
    (hmem : (t, k) ∈ sends bs d) (hge : ∀ b ∈ bs, t ≤ b.time) :
    ∃ l₁ f l₂ bs', bs = ⟨t, l₁ ++ .send d k f :: l₂⟩ :: bs' := by
  obtain ⟨b, hb, ht, f, hf⟩ := time_of_mem_sends hmem
  obtain ⟨b', bs', rfl⟩ := List.exists_cons_of_ne_nil (List.ne_nil_of_mem hb)
  have heq : b = b' := by
    rcases List.mem_cons.mp hb with heq | htail
    · exact heq
    · have hlt := (List.pairwise_cons.mp h.times).1 _ (List.mem_map_of_mem htail)
      rw [ht] at hlt
      exact absurd hlt (not_lt.mpr (hge b' List.mem_cons_self))
  subst heq ht
  obtain ⟨l₁, l₂, hjobs⟩ := List.append_of_mem hf
  exact ⟨l₁, f, l₂, bs', by rw [← hjobs]⟩

/-- **A matched network is stuck only at the end.** Of the unfinished processes take one
whose block has the least time: its block is empty, or one of its jobs is ready, or the
process it receives from has the matching send ready. -/
theorem Matched.progress [WellFoundedLT T] {c : State P T K D S O} (h : Matched c)
    (hf : ¬Final c) :
    ∃ p t bs, (c.proc p).blocks = ⟨t, []⟩ :: bs ∨
      ∃ l₁ j l₂, (c.proc p).blocks = ⟨t, l₁ ++ j :: l₂⟩ :: bs ∧ Ready c p j := by
  obtain ⟨p₀, hp₀⟩ := not_forall.mp hf
  -- the least time at the head of a program that is not finished
  let times : Set T := {t | ∃ p b bs, (c.proc p).blocks = b :: bs ∧ b.time = t}
  have hne : times.Nonempty := by
    obtain ⟨b, bs, hb⟩ := List.exists_cons_of_ne_nil hp₀
    exact ⟨b.time, p₀, b, bs, hb, rfl⟩
  obtain ⟨_, ⟨p, ⟨t, jobs⟩, bs, hb, rfl⟩, hmin⟩ :=
    WellFounded.has_min wellFounded_lt times hne
  have hleast : ∀ q b', b' ∈ (c.proc q).blocks → t ≤ b'.time := by
    intro q b' hb'
    obtain ⟨b₁, bs₁, hq⟩ := List.exists_cons_of_ne_nil (List.ne_nil_of_mem hb')
    have h₁ : t ≤ b₁.time := not_lt.mp (hmin _ ⟨q, b₁, bs₁, hq, rfl⟩)
    have hv := h.valid q
    rw [hq] at hv hb'
    exact h₁.trans (hv.head_le hb')
  have hv := h.valid p
  rw [hb] at hv
  cases jobs with
  | nil => exact ⟨p, t, bs, .inl hb⟩
  | cons j js =>
      by_cases hr : Ready c p j
      · exact ⟨p, t, bs, .inr ⟨[], j, js, by simpa using hb, hr⟩⟩
      cases j with
      | send dst k f => exact absurd trivial hr
      | act f => exact absurd trivial hr
      | emit i f => exact absurd trivial hr
      | await qs u =>
          obtain ⟨hqs, hu⟩ := (hv.blocks _ List.mem_cons_self).await_lt qs u List.mem_cons_self
          obtain ⟨q, hq⟩ := List.exists_mem_of_ne_nil qs hqs
          refine absurd ⟨q, hq, fun b' hb' => ?_⟩ hr
          exact lt_of_lt_of_le hu (hleast q b' hb')
      | recv s k g =>
          -- the source has not sent yet: its send to `p` has the least time too
          have hl : c.link s p = [] := not_not.mp hr
          have htags := h.tags s p
          have herase : recvs (⟨t, [] ++ .recv s k g :: js⟩ :: bs) s
              = (t, k) :: recvs (⟨t, js⟩ :: bs) s := Valid.recvs_erase hv
          rw [List.nil_append] at herase
          rw [hb, hl, herase] at htags
          have hmem : (t, k) ∈ sends (c.proc s).blocks p := by
            simp only [List.map_nil, List.nil_append] at htags
            rw [htags]
            exact List.mem_cons_self
          obtain ⟨l₁, f, l₂, bs', hs⟩ := (h.valid s).head_send hmem (hleast s)
          exact ⟨s, t, bs', .inr ⟨l₁, .send p k f, l₂, hs, trivial⟩⟩

end Matched

end StdmlCollective.BlockNet

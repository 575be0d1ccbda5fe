import StdmlCollective.Lib.BlockNet

/-!
# Contracts for block programs

A contract says which packets may travel on a link and which values may be emitted.
A program is `Good` for it when every run of the program on its own, with packets
received as the contract promises, sends and emits only what the contract allows,
and ends in a store with a given property. If every process is good, the contract
holds in every state of the network: the packets a process relies on are the ones
another process has vouched for.

`Good.block` is the rule for one block: an invariant over the jobs that are left,
which every single job keeps.
-/

namespace StdmlCollective.BlockNet

variable {P T K D S O : Type}

/-- Which packets may travel from one process to another, and what may be emitted. -/
structure Contract (P T K D O : Type) where
  msg : P → P → Packet T K D → Prop
  out : P → ℕ → O → Prop

/-- What process `p` may rely on when it takes a step. -/
def Contract.Assumes (C : Contract P T K D O) (p : P) : Action P T K D O → Prop
  | .recv src m => C.msg src p m
  | _ => True

/-- What process `p` owes when it takes a step. -/
def Contract.Grants (C : Contract P T K D O) (p : P) : Action P T K D O → Prop
  | .send dst m => C.msg p dst m
  | .emit i v => C.out p i v
  | _ => True

/-- Every run of the program from the store keeps the contract and ends in `Q`. -/
inductive Good (C : Contract P T K D O) (p : P) (Q : S → Prop) :
    List (Block P T K D S O) → S → Prop where
  | done {σ : S} : Q σ → Good C p Q [] σ
  | step {bs : List (Block P T K D S O)} {σ : S} : bs ≠ [] →
      (∀ a y, LStep ⟨bs, σ⟩ a y → C.Grants p a) →
      (∀ a y, LStep ⟨bs, σ⟩ a y → C.Assumes p a → Good C p Q y.blocks y.store) →
      Good C p Q bs σ

theorem Good.grants {C : Contract P T K D O} {p : P} {Q : S → Prop} {x y : Proc P T K D S O}
    (h : Good C p Q x.blocks x.store) {a : Action P T K D O} (hl : LStep x a y) :
    C.Grants p a := by
  obtain ⟨bs, σ⟩ := x
  cases h with
  | done => cases hl
  | step _ hg _ => exact hg a y hl

theorem Good.next {C : Contract P T K D O} {p : P} {Q : S → Prop} {x y : Proc P T K D S O}
    (h : Good C p Q x.blocks x.store) {a : Action P T K D O} (hl : LStep x a y)
    (ha : C.Assumes p a) : Good C p Q y.blocks y.store := by
  obtain ⟨bs, σ⟩ := x
  cases h with
  | done => cases hl
  | step _ _ hn => exact hn a y hl ha

theorem Good.post {C : Contract P T K D O} {p : P} {Q : S → Prop} {bs : List (Block P T K D S O)}
    {σ : S} (h : Good C p Q bs σ) (hbs : bs = []) : Q σ := by
  cases h with
  | done hq => exact hq
  | step hne _ _ => exact absurd hbs hne

/-! ## Soundness -/

/-- Every process is good and everything in flight or emitted is as agreed. -/
structure Kept (C : Contract P T K D O) (Q : P → S → Prop) (c : State P T K D S O) : Prop where
  good : ∀ p, Good C p (Q p) (c.proc p).blocks (c.proc p).store
  msg : ∀ s d, ∀ m ∈ c.link s d, C.msg s d m
  out : ∀ p i v, (i, v) ∈ c.out p → C.out p i v

theorem Kept.init {C : Contract P T K D O} {Q : P → S → Prop}
    {prog : P → List (Block P T K D S O)} {σ : P → S}
    (h : ∀ p, Good C p (Q p) (prog p) (σ p)) : Kept C Q (init prog σ) where
  good := h
  msg := by intro s d m hm; simp [BlockNet.init] at hm
  out := by intro p i v hv; simp [BlockNet.init] at hv

variable [DecidableEq P]

private theorem Kept.good_update {C : Contract P T K D O} {Q : P → S → Prop}
    {c : State P T K D S O} (h : Kept C Q c) {p : P} {x : Proc P T K D S O}
    {a : Action P T K D O} (hl : LStep (c.proc p) a x) (ha : C.Assumes p a) (q : P) :
    Good C q (Q q) (Function.update c.proc p x q).blocks (Function.update c.proc p x q).store := by
  by_cases hq : q = p
  · subst hq
    simpa using (h.good q).next hl ha
  · simpa [Function.update_of_ne hq] using h.good q

variable [LinearOrder T]

/-- **The contract is kept by every step.** -/
theorem Kept.step {C : Contract P T K D O} {Q : P → S → Prop} {c c' : State P T K D S O}
    (h : Kept C Q c) (hs : Step c c') : Kept C Q c' := by
  cases hs with
  | tau hl => exact ⟨h.good_update hl trivial, h.msg, h.out⟩
  | await hl _ => exact ⟨h.good_update hl trivial, h.msg, h.out⟩
  | @emit p x i v hl =>
      refine ⟨h.good_update hl trivial, h.msg, fun q i' v' hv => ?_⟩
      by_cases hq : q = p
      · subst hq
        simp only [Function.update_self, List.mem_append, List.mem_singleton] at hv
        rcases hv with hv | hv
        · exact h.out q i' v' hv
        · obtain ⟨rfl, rfl⟩ := Prod.mk.inj hv
          exact (h.good q).grants hl
      · simp only [Function.update_of_ne hq] at hv
        exact h.out q i' v' hv
  | @send p dst x m hl =>
      refine ⟨h.good_update hl trivial, fun s d m' hm => ?_, h.out⟩
      by_cases hpair : s = p ∧ d = dst
      · obtain ⟨rfl, rfl⟩ := hpair
        simp only [setPair_self, List.mem_append, List.mem_singleton] at hm
        rcases hm with hm | rfl
        · exact h.msg s d m' hm
        · exact (h.good s).grants hl
      · simp only [setPair_ne _ _ _ _ hpair] at hm
        exact h.msg s d m' hm
  | @recv p src x m ms hl hlink =>
      have hm₀ : C.msg src p m := h.msg src p m (by rw [hlink]; exact List.mem_cons_self)
      refine ⟨h.good_update hl hm₀, fun s d m' hm => ?_, h.out⟩
      by_cases hpair : s = src ∧ d = p
      · obtain ⟨rfl, rfl⟩ := hpair
        simp only [setPair_self] at hm
        exact h.msg s d m' (by rw [hlink]; exact List.mem_cons_of_mem _ hm)
      · simp only [setPair_ne _ _ _ _ hpair] at hm
        exact h.msg s d m' hm

theorem Kept.reach {C : Contract P T K D O} {Q : P → S → Prop}
    {prog : P → List (Block P T K D S O)} {σ : P → S} (h : ∀ p, Good C p (Q p) (prog p) (σ p))
    {c : State P T K D S O} (hc : Reach prog σ c) : Kept C Q c := by
  induction hc with
  | refl => exact Kept.init h
  | tail _ hs ih => exact ih.step hs

/-! ## Assertions on stores -/

/-- The job keeps `I`, whatever it receives. -/
def Job.Keeps (I : S → Prop) : Job P T K D S O → Prop
  | .recv _ _ g => ∀ d σ, I σ → I (g d σ)
  | .act f => ∀ σ, I σ → I (f σ)
  | _ => True

omit [DecidableEq P] [LinearOrder T] in
theorem LStep.keeps {I : S → Prop} {x y : Proc P T K D S O} {a : Action P T K D O}
    (hl : LStep x a y) (hjobs : ∀ b ∈ x.blocks, ∀ j ∈ b.jobs, j.Keeps I) (hI : I x.store) :
    I y.store ∧ ∀ b ∈ y.blocks, ∀ j ∈ b.jobs, j.Keeps I := by
  have herase : ∀ {t : T} {l₁ l₂ : List (Job P T K D S O)} {i : Job P T K D S O}
      {bs : List (Block P T K D S O)},
      (∀ b ∈ (⟨t, l₁ ++ i :: l₂⟩ :: bs : List (Block P T K D S O)), ∀ j ∈ b.jobs, j.Keeps I) →
      i.Keeps I ∧
        ∀ b ∈ (⟨t, l₁ ++ l₂⟩ :: bs : List (Block P T K D S O)), ∀ j ∈ b.jobs, j.Keeps I := by
    intro t l₁ l₂ i bs h
    refine ⟨h _ List.mem_cons_self i (by simp), ?_⟩
    intro b hb j hj
    rcases List.mem_cons.mp hb with rfl | hb
    · apply h _ List.mem_cons_self j
      rcases List.mem_append.mp hj with hj | hj
      · exact List.mem_append_left _ hj
      · exact List.mem_append_right _ (List.mem_cons_of_mem _ hj)
    · exact h b (List.mem_cons_of_mem _ hb) j hj
  cases hl with
  | pop => exact ⟨hI, fun b hb => hjobs b (List.mem_cons_of_mem _ hb)⟩
  | send => exact ⟨hI, (herase hjobs).2⟩
  | recv => exact ⟨(herase hjobs).1 _ _ hI, (herase hjobs).2⟩
  | act => exact ⟨(herase hjobs).1 _ hI, (herase hjobs).2⟩
  | emit => exact ⟨hI, (herase hjobs).2⟩
  | await => exact ⟨hI, (herase hjobs).2⟩

/-- **What every job keeps holds in every state.** -/
theorem Reach.keeps {I : P → S → Prop} {prog : P → List (Block P T K D S O)} {σ : P → S}
    (h₀ : ∀ p, I p (σ p)) (hjobs : ∀ p, ∀ b ∈ prog p, ∀ j ∈ b.jobs, j.Keeps (I p))
    {c : State P T K D S O} (hc : Reach prog σ c) (p : P) : I p (c.proc p).store := by
  suffices h : ∀ p, I p (c.proc p).store ∧
      ∀ b ∈ (c.proc p).blocks, ∀ j ∈ b.jobs, j.Keeps (I p) from (h p).1
  induction hc with
  | refl => exact fun p => ⟨h₀ p, hjobs p⟩
  | tail _ hs ih =>
      intro q
      cases hs with
      | @tau p x hl | @emit p x _ _ hl | @await p x _ _ hl _ | @send p _ x _ hl
        | @recv p _ x _ _ hl _ =>
          by_cases hq : q = p
          · subst hq
            simpa using hl.keeps (ih q).2 (ih q).1
          · simpa [Function.update_of_ne hq] using ih q

omit [DecidableEq P] [LinearOrder T]

/-! ## Rules -/

section Rules

variable {C : Contract P T K D O} {p : P} {Q : S → Prop}

/-- What one job owes at store `σ`, and that it leads to `R`. -/
def JobOk (C : Contract P T K D O) (p : P) (t : T) (σ : S) (R : S → Prop) :
    Job P T K D S O → Prop
  | .send dst k f => C.msg p dst ⟨t, k, f σ⟩ ∧ R σ
  | .recv src k g => ∀ d, C.msg src p ⟨t, k, d⟩ → R (g d σ)
  | .act f => R (f σ)
  | .emit i f => C.out p i (f σ) ∧ R σ
  | .await _ _ => R σ

/-- **The rule for one block.** `I js σ` says what holds of the store when the jobs `js`
are left; whichever of them runs next keeps it. -/
theorem Good.block {t : T} {bs : List (Block P T K D S O)} (I : List (Job P T K D S O) → S → Prop)
    (hjob : ∀ l₁ j l₂ σ, I (l₁ ++ j :: l₂) σ → JobOk C p t σ (I (l₁ ++ l₂)) j)
    (hend : ∀ σ, I [] σ → Good C p Q bs σ) :
    ∀ js σ, I js σ → Good C p Q (⟨t, js⟩ :: bs) σ := by
  intro js
  induction hn : js.length using Nat.strong_induction_on generalizing js with
  | _ n ih =>
      intro σ hI
      have hlen : ∀ {l₁ l₂ : List (Job P T K D S O)} {j}, js = l₁ ++ j :: l₂ →
          (l₁ ++ l₂).length < n := by
        intro l₁ l₂ j hj
        rw [← hn, hj]
        simp
      refine .step (by simp) (fun a y hl => ?_) (fun a y hl ha => ?_)
      · cases hl with
        | send => exact (hjob _ _ _ _ hI).1
        | emit => exact (hjob _ _ _ _ hI).1
        | pop | recv | act | await => exact trivial
      · cases hl with
        | pop => exact hend σ hI
        | send => exact ih _ (hlen rfl) _ rfl _ (hjob _ _ _ _ hI).2
        | recv => exact ih _ (hlen rfl) _ rfl _ (hjob _ _ _ _ hI _ ha)
        | act => exact ih _ (hlen rfl) _ rfl _ (hjob _ _ _ _ hI)
        | emit => exact ih _ (hlen rfl) _ rfl _ (hjob _ _ _ _ hI).2
        | await => exact ih _ (hlen rfl) _ rfl _ (hjob _ _ _ _ hI)

/-- A block none of whose jobs changes the store. -/
theorem Good.frame {t : T} {bs : List (Block P T K D S O)} {js : List (Job P T K D S O)} {σ : S}
    (hjob : ∀ j ∈ js, ∀ R : S → Prop, R σ → JobOk C p t σ R j) (hend : Good C p Q bs σ) :
    Good C p Q (⟨t, js⟩ :: bs) σ := by
  refine Good.block (fun js' σ' => σ' = σ ∧ ∀ j ∈ js', ∀ R : S → Prop, R σ → JobOk C p t σ R j)
    ?_ ?_ js σ ⟨rfl, hjob⟩
  · rintro l₁ j l₂ σ' ⟨rfl, hj⟩
    refine hj j (by simp) _ ⟨rfl, fun i hi => hj i ?_⟩
    rcases List.mem_append.mp hi with hi | hi <;> simp [hi]
  · rintro σ' ⟨rfl, -⟩
    exact hend

/-- A block that is a single job. -/
theorem Good.single {t : T} {bs : List (Block P T K D S O)} {j : Job P T K D S O} {σ : S}
    (h : JobOk C p t σ (Good C p Q bs) j) : Good C p Q (⟨t, [j]⟩ :: bs) σ := by
  refine Good.block (fun js σ' => (js = [j] ∧ σ' = σ) ∨ (js = [] ∧ Good C p Q bs σ'))
    ?_ ?_ [j] σ (.inl ⟨rfl, rfl⟩)
  · rintro l₁ i l₂ σ' (⟨hjs, rfl⟩ | ⟨hjs, -⟩)
    · obtain ⟨rfl, rfl, rfl⟩ : l₁ = [] ∧ i = j ∧ l₂ = [] := by
        rcases l₁ with _ | ⟨a, l₁⟩ <;> simp_all
      cases i with
      | send => exact ⟨h.1, .inr ⟨rfl, h.2⟩⟩
      | recv => exact fun d hd => .inr ⟨rfl, h d hd⟩
      | act => exact .inr ⟨rfl, h⟩
      | emit => exact ⟨h.1, .inr ⟨rfl, h.2⟩⟩
      | await => exact .inr ⟨rfl, h⟩
    · simp at hjs
  · rintro σ' (⟨hjs, -⟩ | ⟨-, hg⟩)
    · simp at hjs
    · exact hg

/-- An empty block. -/
theorem Good.empty {t : T} {bs : List (Block P T K D S O)} {σ : S} (h : Good C p Q bs σ) :
    Good C p Q (⟨t, []⟩ :: bs) σ :=
  Good.frame (by simp) h

/-- A step of `as ++ bs` is a step of `as` as long as `as` is not finished. -/
private theorem LStep.of_append {as bs : List (Block P T K D S O)} {σ : S}
    {a : Action P T K D O} {y : Proc P T K D S O} (hne : as ≠ [])
    (hl : LStep ⟨as ++ bs, σ⟩ a y) :
    ∃ as', LStep ⟨as, σ⟩ a ⟨as', y.store⟩ ∧ y.blocks = as' ++ bs := by
  obtain ⟨b, as, rfl⟩ := List.exists_cons_of_ne_nil hne
  rw [List.cons_append] at hl
  cases hl with
  | pop => exact ⟨as, .pop, rfl⟩
  | send => exact ⟨_, .send, rfl⟩
  | recv => exact ⟨_, .recv, rfl⟩
  | act => exact ⟨_, .act, rfl⟩
  | emit => exact ⟨_, .emit, rfl⟩
  | await => exact ⟨_, .await, rfl⟩

/-- **Sequencing.** -/
theorem Good.append {as bs : List (Block P T K D S O)} {σ : S}
    (h : Good C p (fun τ => Good C p Q bs τ) as σ) : Good C p Q (as ++ bs) σ := by
  induction h with
  | done hq => exact hq
  | @step as σ hne hg _ ih =>
      refine .step (by simp [hne]) (fun a y hl => ?_) (fun a y hl ha => ?_)
      · obtain ⟨as', hl', -⟩ := LStep.of_append hne hl
        exact hg a _ hl'
      · obtain ⟨as', hl', hy⟩ := LStep.of_append hne hl
        rw [hy]
        exact ih a _ hl' ha

/-- The job keeps `I` when it receives what the contract promises. -/
def Job.KeepsBy (C : Contract P T K D O) (p : P) (t : T) (I : S → Prop) : Job P T K D S O → Prop
  | .recv src k g => ∀ d σ, C.msg src p ⟨t, k, d⟩ → I σ → I (g d σ)
  | .act f => ∀ σ, I σ → I (f σ)
  | _ => True

/-- **What every job of a good program keeps, the program keeps.** -/
theorem Good.keeping {I : S → Prop} {bs : List (Block P T K D S O)} {σ : S} (h : Good C p Q bs σ)
    (hjobs : ∀ b ∈ bs, ∀ j ∈ b.jobs, j.KeepsBy C p b.time I) (hI : I σ) :
    Good C p (fun τ => Q τ ∧ I τ) bs σ := by
  induction h with
  | done hq => exact .done ⟨hq, hI⟩
  | @step bs σ hne hg _ ih =>
      refine .step hne hg fun a y hl ha => ?_
      have hrest : ∀ {t : T} {l₁ l₂ : List (Job P T K D S O)} {i : Job P T K D S O}
          {bs' : List (Block P T K D S O)}, bs = ⟨t, l₁ ++ i :: l₂⟩ :: bs' →
          i.KeepsBy C p t I ∧
            ∀ b ∈ (⟨t, l₁ ++ l₂⟩ :: bs' : List (Block P T K D S O)), ∀ j ∈ b.jobs,
              j.KeepsBy C p b.time I := by
        rintro t l₁ l₂ i bs' rfl
        refine ⟨hjobs _ List.mem_cons_self i (by simp), fun b hb j hj => ?_⟩
        rcases List.mem_cons.mp hb with rfl | hb
        · exact hjobs _ List.mem_cons_self j (by simp at hj ⊢; tauto)
        · exact hjobs b (List.mem_cons_of_mem _ hb) j hj
      refine ih a y hl ha ?_ ?_
      · cases hl with
        | pop => exact fun b hb => hjobs b (List.mem_cons_of_mem _ hb)
        | send | recv | act | emit | await => exact (hrest rfl).2
      · cases hl with
        | recv => exact (hrest rfl).1 _ _ ha hI
        | act => exact (hrest rfl).1 _ hI
        | pop | send | emit | await => exact hI

end Rules

end StdmlCollective.BlockNet

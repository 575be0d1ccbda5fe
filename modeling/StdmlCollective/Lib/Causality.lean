import StdmlCollective.Lib.Sequence

/-!
# What one process knows of another

A process runs its blocks in order, so what is left of its program is an end of it
(`Remains`). With the tags of a matched network this carries over to others: a process that
has received what another one sends at time `t` knows that the other one has reached `t`
(`Matched.reached_of_recv`), and a process that waits for others to pass a time before it does
anything has done nothing before one of them has (`Reach.launched`).
-/

namespace StdmlCollective.BlockNet

variable {P T K D S O : Type}

/-- `bs` is what is left of the program `prog`. -/
def Remains (prog bs : List (Block P T K D S O)) : Prop :=
  bs = [] ∨ ∃ pre b js rest, prog = pre ++ b :: rest ∧ js.Sublist b.jobs ∧
    bs = ⟨b.time, js⟩ :: rest

theorem Remains.refl (prog : List (Block P T K D S O)) : Remains prog prog := by
  cases prog with
  | nil => exact .inl rfl
  | cons b rest => exact .inr ⟨[], b, b.jobs, rest, rfl, .refl _, rfl⟩

/-- What is left after a step was left before it. -/
theorem Remains.step {prog : List (Block P T K D S O)} {x y : Proc P T K D S O}
    {a : Action P T K D O} (h : Remains prog x.blocks) (hl : LStep x a y) :
    Remains prog y.blocks := by
  -- a job has left the first block
  have hjob : ∀ {t : T} {l₁ l₂ : List (Job P T K D S O)} {j : Job P T K D S O}
      {bs : List (Block P T K D S O)}, Remains prog (⟨t, l₁ ++ j :: l₂⟩ :: bs) →
      Remains prog (⟨t, l₁ ++ l₂⟩ :: bs) := by
    intro t l₁ l₂ j bs hr
    rcases hr with hr | ⟨pre, b, js, rest, hp, hsub, hr⟩
    · exact absurd hr (List.cons_ne_nil _ _)
    · obtain ⟨⟨rfl, rfl⟩, rfl⟩ : (t = b.time ∧ l₁ ++ j :: l₂ = js) ∧ bs = rest := by simpa using hr
      exact .inr ⟨pre, b, l₁ ++ l₂, bs, hp, .trans (by simp) hsub, rfl⟩
  cases hl with
  | @pop t bs σ =>
      rcases h with h | ⟨pre, b, js, rest, hp, -, h⟩
      · exact absurd h (List.cons_ne_nil _ _)
      · obtain ⟨-, rfl⟩ : _ ∧ bs = rest := by simpa using h
        have hcat := Remains.refl bs
        rcases hcat with hcat | ⟨pre', b', js', rest', hp', hsub', hb'⟩
        · exact .inl hcat
        · exact .inr ⟨pre ++ b :: pre', b', js', rest', by rw [hp, hp']; simp, hsub', hb'⟩
  | send | recv | act | emit | await => exact hjob h

/-- What is left of a block has the time of the block and some of its jobs. -/
theorem Remains.block_mem {prog bs : List (Block P T K D S O)} (h : Remains prog bs)
    {b : Block P T K D S O} (hb : b ∈ bs) :
    ∃ b' ∈ prog, b'.time = b.time ∧ b.jobs.Sublist b'.jobs := by
  rcases h with rfl | ⟨pre, b₀, js, rest, rfl, hsub, rfl⟩
  · exact absurd hb List.not_mem_nil
  · rcases List.mem_cons.mp hb with rfl | hb
    · exact ⟨b₀, by simp, rfl, hsub⟩
    · exact ⟨b, by simp [hb], rfl, .refl _⟩

/-- What is left to be received is an end of what was to be received. -/
theorem Remains.recvs_sublist [DecidableEq P] {prog bs : List (Block P T K D S O)}
    (h : Remains prog bs) (s : P) : (recvs bs s).Sublist (recvs prog s) := by
  rcases h with rfl | ⟨pre, b₀, js, rest, rfl, hsub, rfl⟩
  · exact List.nil_sublist _
  · rw [recvs_append, recvs_cons, recvs_cons]
    refine .trans ?_ (List.sublist_append_right _ _)
    exact ((hsub.filterMap _).map _).append_right _

/-- What is left to be sent is an end of what was to be sent. -/
theorem Remains.sends_sublist [DecidableEq P] {prog bs : List (Block P T K D S O)}
    (h : Remains prog bs) (d : P) : (sends bs d).Sublist (sends prog d) := by
  rcases h with rfl | ⟨pre, b₀, js, rest, rfl, hsub, rfl⟩
  · exact List.nil_sublist _
  · rw [sends_append, sends_cons, sends_cons]
    refine .trans ?_ (List.sublist_append_right _ _)
    exact ((hsub.filterMap _).map _).append_right _

section

variable [DecidableEq P] [LT T]

/-- What is left in a state of the network. -/
theorem Reach.remains {prog : P → List (Block P T K D S O)} {σ : P → S} {c : State P T K D S O}
    (hc : Reach prog σ c) (p : P) : Remains (prog p) (c.proc p).blocks := by
  have hmove : ∀ {c : State P T K D S O} {q : P} {x : Proc P T K D S O} {a : Action P T K D O},
      Remains (prog p) (c.proc p).blocks → LStep (c.proc q) a x →
        Remains (prog p) (Function.update c.proc q x p).blocks := by
    intro c q x a h hl
    by_cases hp : p = q
    · subst hp
      simpa using h.step hl
    · simpa [hp] using h
  induction hc with
  | refl => exact .refl _
  | tail _ hs ih =>
      cases hs with
      | tau hl | emit hl | await hl _ | send hl | recv hl _ => exact hmove ih hl

/-- A time that has been passed stays so. -/
theorem Passed.step {c c' : State P T K D S O} {q : P} {t : T} (h : Passed c q t)
    (hs : Step c c') : Passed c' q t := by
  have hmove : ∀ {p : P} {x : Proc P T K D S O} {a : Action P T K D O}, LStep (c.proc p) a x →
      ∀ b ∈ (Function.update c.proc p x q).blocks, t < b.time := by
    intro p x a hl b hb
    by_cases hq : q = p
    · subst hq
      rw [Function.update_self] at hb
      obtain ⟨b', hb', htime⟩ := hl.time_mem hb
      rw [← htime]
      exact h b' hb'
    · rw [Function.update_of_ne hq] at hb
      exact h b hb
  cases hs with
  | tau hl | emit hl | await hl _ | send hl | recv hl _ => exact hmove hl

/-- **A process that first waits for others has done nothing before one of them has passed.** -/
theorem Reach.launched {prog : P → List (Block P T K D S O)} {σ : P → S} {c : State P T K D S O}
    (hc : Reach prog σ c) {p : P} {t u : T} {qs : List P} {bs : List (Block P T K D S O)}
    (hp : prog p = ⟨t, [.await qs u]⟩ :: bs) :
    (c.proc p).blocks = prog p ∨ ∃ q ∈ qs, Passed c q u := by
  induction hc with
  | refl => exact .inl rfl
  | @tail c c' _ hs ih =>
      rcases ih with ih | ⟨q, hq, hpass⟩
      · -- the only step of `p` is the end of its waiting
        have hmove : ∀ {q : P} {x : Proc P T K D S O} {a : Action P T K D O},
            LStep (c.proc q) a x → (∀ qs u, a ≠ .await qs u) →
              (Function.update c.proc q x p).blocks = prog p := by
          intro q x a hl ha
          by_cases hpq : p = q
          · subst hpq
            generalize hx : c.proc p = y at hl
            rw [hx, hp] at ih
            cases hl with
            | pop => simp at ih
            | await => exact absurd rfl (ha _ _)
            | @send t' l₁ l₂ bs' σ' dst k f | @recv t' l₁ l₂ bs' σ' src k g d
            | @act t' l₁ l₂ bs' σ' f | @emit t' l₁ l₂ bs' σ' i f =>
                rcases l₁ with _ | ⟨j, l₁⟩ <;> simp at ih
          · rw [Function.update_of_ne hpq]
            exact ih
        cases hs with
        | tau hl => exact .inl (hmove hl (by simp))
        | emit hl => exact .inl (hmove hl (by simp))
        | send hl => exact .inl (hmove hl (by simp))
        | recv hl _ => exact .inl (hmove hl (by simp))
        | @await q x qs' u' hl hpass =>
            by_cases hpq : p = q
            · subst hpq
              refine .inr ?_
              generalize hx : c.proc p = y at hl
              rw [hx, hp] at ih
              cases hl with
              | @await _ _ l₁ l₂ bs' σ' _ =>
                  obtain ⟨rfl, rfl⟩ : qs' = qs ∧ u' = u := by
                    rcases l₁ with _ | ⟨j, l₁⟩ <;> simp at ih
                    exact ⟨ih.1.2.1.1, ih.1.2.1.2⟩
                  obtain ⟨q, hq, hpass⟩ := hpass
                  exact ⟨q, hq, hpass.step (.await (by rw [hx]; exact .await) ⟨q, hq, hpass⟩)⟩
            · exact .inl (by simpa [Function.update_of_ne hpq] using ih)
      · exact .inr ⟨q, hq, hpass.step hs⟩

end

section

variable [DecidableEq P] [LinearOrder T]

/-- A process that has something in flight has begun. -/
theorem Matched.link_eq_nil_of_prog {prog : P → List (Block P T K D S O)} {σ : P → S}
    {c : State P T K D S O} (hm : Matched c) (hc : Reach prog σ c) (hp : Compat prog) {s d : P}
    (hs : (c.proc s).blocks = prog s) : c.link s d = [] := by
  have hlen := ((hc.remains d).recvs_sublist s).length_le
  rw [← hm.tags s d, hs, ← hp.matched s d, List.length_append, List.length_map] at hlen
  exact List.length_eq_zero_iff.mp (by omega)

/-- What is left to be received from `s` is in the program of `s`. -/
theorem Reach.sender_time {prog : P → List (Block P T K D S O)} {σ : P → S}
    {c : State P T K D S O} (hc : Reach prog σ c) (hp : Compat prog) {s d : P} {t : T} {k : K}
    (h : (t, k) ∈ recvs (c.proc d).blocks s) : ∃ b ∈ prog s, b.time = t := by
  have hmem := ((hc.remains d).recvs_sublist s).subset h
  rw [← hp.matched s d] at hmem
  obtain ⟨b, hb, htime, -⟩ := time_of_mem_sends hmem
  exact ⟨b, hb, htime⟩

/-- A process that has done a send of block `b` has reached the time of `b`. -/
theorem Remains.reached {prog bs : List (Block P T K D S O)} (h : Remains prog bs)
    (hv : Valid prog) {b : Block P T K D S O} (hb : b ∈ prog) {d : P} {k : K}
    (hk : k ∈ b.jobs.filterMap (Job.sendKey d)) (hsent : (b.time, k) ∉ sends bs d) :
    ∀ b' ∈ bs, b.time ≤ b'.time := by
  intro b' hb'
  rcases h with rfl | ⟨pre, b₀, js, rest, rfl, -, rfl⟩
  · exact absurd hb' List.not_mem_nil
  by_contra hlt
  rw [not_le] at hlt
  have htimes := hv.times
  rw [List.map_append, List.map_cons, List.pairwise_append, List.pairwise_cons] at htimes
  obtain ⟨-, ⟨hrest, -⟩, hpre⟩ := htimes
  -- the first block that is left comes before `b`
  have h₀ : b₀.time < b.time := by
    rcases List.mem_cons.mp hb' with rfl | hb'
    · exact hlt
    · exact (hrest _ (List.mem_map_of_mem hb')).trans hlt
  have hmem : b ∈ rest := by
    rcases List.mem_append.mp hb with hb | hb
    · have := hpre _ (List.mem_map_of_mem hb) b₀.time (by simp)
      exact absurd (h₀.trans this) (lt_irrefl _)
    · rcases List.mem_cons.mp hb with rfl | hb
      · exact absurd h₀ (lt_irrefl _)
      · exact hb
  refine hsent (List.mem_flatMap.mpr ⟨b, List.mem_cons_of_mem _ hmem, ?_⟩)
  exact List.mem_map_of_mem hk

/-- **What has been received has been sent**: a process that has received what block `b` of
process `s` sends it knows that `s` has reached the time of `b`. -/
theorem Matched.reached_of_recv {prog : P → List (Block P T K D S O)} {σ : P → S}
    {c : State P T K D S O} (hm : Matched c) (hc : Reach prog σ c) {s d : P}
    (hv : Valid (prog s)) {b : Block P T K D S O} (hb : b ∈ prog s) {k : K}
    (hk : k ∈ b.jobs.filterMap (Job.sendKey d))
    (hd : ∀ b' ∈ (c.proc d).blocks, b'.time ≠ b.time) :
    ∀ b' ∈ (c.proc s).blocks, b.time ≤ b'.time := by
  refine (hc.remains s).reached hv hb hk (hm.passed_of_sends fun hmem => ?_)
  obtain ⟨b', hb', htime, -⟩ := time_of_mem_recvs hmem
  exact hd b' hb' htime

/-- The same by the tag of the message, which has left its sender. -/
theorem Matched.reached_of_recvs {prog : P → List (Block P T K D S O)} {σ : P → S}
    {c : State P T K D S O} (hm : Matched c) (hc : Reach prog σ c) (hp : Compat prog) {s d : P}
    {t : T} {k : K} (hmem : (t, k) ∈ recvs (prog d) s)
    (hd : ∀ b ∈ (c.proc d).blocks, t < b.time) :
    (∀ b ∈ (c.proc s).blocks, t ≤ b.time) ∧ (t, k) ∉ sends (c.proc s).blocks d := by
  rw [← hp.matched s d] at hmem
  obtain ⟨b, hb, rfl, f, hf⟩ := time_of_mem_sends hmem
  have hkey : k ∈ b.jobs.filterMap (Job.sendKey d) :=
    List.mem_filterMap.mpr ⟨_, hf, by simp [Job.sendKey]⟩
  refine ⟨hm.reached_of_recv hc (hp.valid s) hb hkey fun b' hb' => (hd b' hb').ne', ?_⟩
  apply hm.passed_of_sends
  intro hrecv
  obtain ⟨b', hb', htime, -⟩ := time_of_mem_recvs hrecv
  exact (hd b' hb').ne' htime

/-- **What is in flight has been sent**: its sender has reached the time of the message. -/
theorem Matched.reached_of_link {prog : P → List (Block P T K D S O)} {σ : P → S}
    {c : State P T K D S O} (hm : Matched c) (hc : Reach prog σ c) (hp : Compat prog) {s d : P}
    (hn : (recvs (prog d) s).Nodup) {pk : Packet T K D} (hpk : pk ∈ c.link s d) :
    ∀ b ∈ (c.proc s).blocks, pk.time ≤ b.time := by
  have hlink : pk.tag ∈ (c.link s d).map Packet.tag := List.mem_map_of_mem hpk
  have hsub := (hc.remains d).recvs_sublist s
  have hnodup := hn.sublist hsub
  rw [← hm.tags s d] at hnodup hsub
  have hmem := hsub.subset (List.mem_append_left _ hlink)
  rw [← hp.matched s d] at hmem
  obtain ⟨b, hb, htime, f, hf⟩ := time_of_mem_sends hmem
  have hkey : pk.key ∈ b.jobs.filterMap (Job.sendKey d) :=
    List.mem_filterMap.mpr ⟨_, hf, by simp [Job.sendKey]⟩
  have hsent : pk.tag ∉ sends (c.proc s).blocks d :=
    fun hmem => (List.nodup_append.mp hnodup).2.2 _ hlink _ hmem rfl
  rw [← htime]
  refine (hc.remains s).reached (hp.valid s) hb hkey ?_
  rw [htime]
  exact hsent

end

end StdmlCollective.BlockNet

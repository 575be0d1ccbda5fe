import StdmlCollective.Lib.Causality

/-!
# Progress with less freedom

A matched network is stuck only at the end (`Matched.progress`). Two restrictions do not change
that.

A process may have to stay in a block until what it has sent there has been received
(`Matched.progress_received`): no send relies on room for messages on their way.

A process may have to run the jobs of a block one after the other (`Matched.progress_inOrder`),
when the processes can be numbered so that a receive from `s` stands before a send to `d` only if
`s` comes before `d`.
-/

namespace StdmlCollective.BlockNet

variable {P T K D S O : Type} [DecidableEq P] [LinearOrder T]

/-- The network is at its least time `t` with process `p`. -/
structure Least (c : State P T K D S O) (p : P) (t : T) (js : List (Job P T K D S O))
    (bs : List (Block P T K D S O)) : Prop where
  head : (c.proc p).blocks = ⟨t, js⟩ :: bs
  le : ∀ q, ∀ b ∈ (c.proc q).blocks, t ≤ b.time

theorem Matched.exists_least [WellFoundedLT T] {c : State P T K D S O} (h : Matched c)
    (hf : ¬Final c) : ∃ p t js bs, Least c p t js bs := by
  obtain ⟨p₀, hp₀⟩ := not_forall.mp hf
  let times : Set T := {t | ∃ p b bs, (c.proc p).blocks = b :: bs ∧ b.time = t}
  have hne : times.Nonempty := by
    obtain ⟨b, bs, hb⟩ := List.exists_cons_of_ne_nil hp₀
    exact ⟨b.time, p₀, b, bs, hb, rfl⟩
  obtain ⟨_, ⟨p, ⟨t, js⟩, bs, hb, rfl⟩, hmin⟩ := WellFounded.has_min wellFounded_lt times hne
  refine ⟨p, t, js, bs, hb, fun q b' hb' => ?_⟩
  obtain ⟨b₁, bs₁, hq⟩ := List.exists_cons_of_ne_nil (List.ne_nil_of_mem hb')
  have h₁ : t ≤ b₁.time := not_lt.mp (hmin _ ⟨q, b₁, bs₁, hq, rfl⟩)
  have hv := h.valid q
  rw [hq] at hv hb'
  exact h₁.trans (hv.head_le hb')

/-- A receive whose time is not after any time of the program is in the head block. -/
theorem Valid.head_recv {bs : List (Block P T K D S O)} (h : Valid bs) {s : P} {t : T} {k : K}
    (hmem : (t, k) ∈ recvs bs s) (hge : ∀ b ∈ bs, t ≤ b.time) :
    ∃ l₁ g l₂ bs', bs = ⟨t, l₁ ++ .recv s k g :: l₂⟩ :: bs' := by
  obtain ⟨b, hb, ht, g, hg⟩ := time_of_mem_recvs hmem
  obtain ⟨b', bs', rfl⟩ := List.exists_cons_of_ne_nil (List.ne_nil_of_mem hb)
  have heq : b = b' := by
    rcases List.mem_cons.mp hb with heq | htail
    · exact heq
    · have hlt := (List.pairwise_cons.mp h.times).1 _ (List.mem_map_of_mem htail)
      rw [ht] at hlt
      exact absurd hlt (not_lt.mpr (hge b' List.mem_cons_self))
  subst heq ht
  obtain ⟨l₁, l₂, hjobs⟩ := List.append_of_mem hg
  exact ⟨l₁, g, l₂, bs', by rw [← hjobs]⟩

section Least

variable {c : State P T K D S O} {p : P} {t : T} {js : List (Job P T K D S O)}
variable {bs : List (Block P T K D S O)}

/-- What a job at the least time can wait for is a packet that has not been sent, and its sender
is about to send it. -/
theorem Least.ready_or_unsent (h : Least c p t js bs) (hm : Matched c) {l₁ l₂}
    {j : Job P T K D S O} (hj : js = l₁ ++ j :: l₂) :
    Ready c p j ∨ ∃ s k g, j = .recv s k g ∧
      ∃ m₁ f m₂ bs', (c.proc s).blocks = ⟨t, m₁ ++ .send p k f :: m₂⟩ :: bs' := by
  have hv := hm.valid p
  rw [h.head, hj] at hv
  by_cases hr : Ready c p j
  · exact .inl hr
  cases j with
  | send | act | emit => exact absurd trivial hr
  | await qs u =>
      obtain ⟨hqs, hu⟩ := (hv.blocks _ List.mem_cons_self).await_lt qs u (by simp)
      obtain ⟨q, hq⟩ := List.exists_mem_of_ne_nil qs hqs
      exact absurd ⟨q, hq, fun b hb => hu.trans_le (h.le q b hb)⟩ hr
  | recv s k g =>
      have hlink : c.link s p = [] := not_not.mp hr
      have htags := hm.tags s p
      rw [h.head, hj, hlink, Valid.recvs_erase hv, List.map_nil, List.nil_append] at htags
      have hmem : (t, k) ∈ sends (c.proc s).blocks p := by
        rw [htags]
        exact List.mem_cons_self
      exact .inr ⟨s, k, g, rfl, (hm.valid s).head_send hmem (h.le s)⟩

/-- A packet of the least time that is on its way can be received. -/
theorem Least.ready_of_link (h : Least c p t js bs) (hm : Matched c) {d : P} {m : Packet T K D}
    (hlink : m ∈ c.link p d) (htime : m.time = t) :
    ∃ l₁ j l₂ bs', (c.proc d).blocks = ⟨t, l₁ ++ j :: l₂⟩ :: bs' ∧ Ready c d j := by
  have hmem : (t, m.key) ∈ recvs (c.proc d).blocks p := by
    rw [← hm.tags p d, ← htime]
    exact List.mem_append_left _ (List.mem_map_of_mem hlink)
  obtain ⟨l₁, g, l₂, bs', hd⟩ := (hm.valid d).head_recv hmem (h.le d)
  exact ⟨l₁, _, l₂, bs', hd, List.ne_nil_of_mem hlink⟩

end Least

/-- **No send relies on room for what is on its way.** Unless all is done, a job is ready, or a
process can leave a block of which nothing is on its way any more. -/
theorem Matched.progress_received [WellFoundedLT T] {c : State P T K D S O} (h : Matched c)
    (hf : ¬Final c) :
    (∃ p t bs, (c.proc p).blocks = ⟨t, []⟩ :: bs ∧ ∀ d, ∀ m ∈ c.link p d, m.time ≠ t) ∨
      ∃ p t l₁ j l₂ bs, (c.proc p).blocks = ⟨t, l₁ ++ j :: l₂⟩ :: bs ∧ Ready c p j := by
  obtain ⟨p, t, js, bs, hl⟩ := h.exists_least hf
  cases js with
  | nil =>
      by_cases hlink : ∃ d, ∃ m ∈ c.link p d, m.time = t
      · obtain ⟨d, m, hm, htime⟩ := hlink
        obtain ⟨l₁, j, l₂, bs', hd, hr⟩ := hl.ready_of_link h hm htime
        exact .inr ⟨d, t, l₁, j, l₂, bs', hd, hr⟩
      · exact .inl ⟨p, t, bs, hl.head, fun d m hm htime => hlink ⟨d, m, hm, htime⟩⟩
  | cons j js =>
      refine .inr ?_
      rcases hl.ready_or_unsent h (List.nil_append _).symm with hr |
        ⟨s, k, g, -, m₁, f, m₂, bs', hs⟩
      · exact ⟨p, t, [], j, js, bs, hl.head, hr⟩
      · exact ⟨s, t, m₁, _, m₂, bs', hs, trivial⟩

/-- A receive from `s` stands before a send to `d` only if `s` comes before `d`. -/
def Block.InOrder (num : P → ℕ) (b : Block P T K D S O) : Prop :=
  b.jobs.Pairwise fun j j' => ∀ s k g d k' f, j = .recv s k g → j' = .send d k' f → num s < num d

omit [LinearOrder T] [DecidableEq P] in
theorem Block.InOrder.sublist {num : P → ℕ} {b b' : Block P T K D S O} (h : b'.InOrder num)
    (hsub : b.jobs.Sublist b'.jobs) : b.InOrder num :=
  List.Pairwise.sublist hsub h

/-- **The jobs of a block can be run one after the other.** Unless all is done, some process is
through with a block, or the first job it has left in a block is ready. -/
theorem Matched.progress_inOrder [WellFoundedLT T] {c : State P T K D S O} (h : Matched c)
    {num : P → ℕ} (hord : ∀ p, ∀ b ∈ (c.proc p).blocks, b.InOrder num) (hf : ¬Final c) :
    ∃ p t bs, (c.proc p).blocks = ⟨t, []⟩ :: bs ∨
      ∃ j js, (c.proc p).blocks = ⟨t, j :: js⟩ :: bs ∧ Ready c p j := by
  obtain ⟨p, t, js, bs, hl⟩ := h.exists_least hf
  cases js with
  | nil => exact ⟨p, t, bs, .inl hl.head⟩
  | cons j js =>
      -- along the senders that are waited for, the numbers of the two that are waiting fall
      suffices hmain : ∀ N, ∀ p j js bs, Least c p t (j :: js) bs →
          (∀ s k g, j = .recv s k g → num p + num s ≤ N) →
          ∃ p t bs, (c.proc p).blocks = ⟨t, []⟩ :: bs ∨
            ∃ j js, (c.proc p).blocks = ⟨t, j :: js⟩ :: bs ∧ Ready c p j by
        cases j with
        | recv s k g =>
            refine hmain (num p + num s) p _ js bs hl fun s' k' g' heq => ?_
            obtain ⟨rfl, -, -⟩ := Job.recv.inj heq
            exact le_rfl
        | send | act | emit | await => exact hmain 0 p _ js bs hl (by simp)
      intro N
      induction N using Nat.strong_induction_on with
      | _ N ih =>
          intro p j js bs hl hN
          rcases hl.ready_or_unsent h (List.nil_append _).symm with hr |
            ⟨s, k, g, rfl, m₁, f, m₂, bs', hs⟩
          · exact ⟨p, t, bs, .inr ⟨j, js, hl.head, hr⟩⟩
          have hsum := hN s k g rfl
          cases m₁ with
          | nil => exact ⟨s, t, bs', .inr ⟨_, m₂, hs, trivial⟩⟩
          | cons i m₁ =>
              have hleast : Least c s t (i :: (m₁ ++ .send p k f :: m₂)) bs' := ⟨hs, hl.le⟩
              cases i with
              | send | act | emit => exact ⟨s, t, bs', .inr ⟨_, _, hs, trivial⟩⟩
              | await qs u =>
                  rcases hleast.ready_or_unsent h (List.nil_append _).symm with hr |
                    ⟨_, _, _, heq, -⟩
                  · exact ⟨s, t, bs', .inr ⟨_, _, hs, hr⟩⟩
                  · cases heq
              | recv s' k' g' =>
                  -- this receive stands before the send to `p`
                  have hblock := hord s ⟨t, .recv s' k' g' :: m₁ ++ .send p k f :: m₂⟩
                    (by rw [hs]; exact List.mem_cons_self)
                  have hlt : num s' < num p :=
                    (List.pairwise_cons.mp hblock).1 _ (by simp) s' k' g' p k f rfl rfl
                  refine ih (num s + num s') (by omega) s _ _ bs' hleast fun s'' k'' g'' heq => ?_
                  obtain ⟨rfl, -, -⟩ := Job.recv.inj heq
                  exact le_rfl

end StdmlCollective.BlockNet

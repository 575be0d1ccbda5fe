import Mathlib.Data.List.Chain
import StdmlCollective.Lib.Contract

/-!
# Block programs in sequence

A program that is made of steps, every step a block program of its own with times later
than those of the steps before: it is compatible when every step is, and good when every
step leads from its own precondition to that of any step that may follow.
-/

namespace StdmlCollective.BlockNet

/-- The steps of a list in a row, numbered from `k` on. -/
def stepsFrom {α β : Type} (F : α → ℕ → List β) : ℕ → List α → List β
  | _, [] => []
  | k, a :: as => F a k ++ stepsFrom F (k + 1) as

section stepsFrom

variable {α β γ : Type} {F : α → ℕ → List β}

theorem map_stepsFrom (g : β → γ) (k : ℕ) (l : List α) :
    (stepsFrom F k l).map g = stepsFrom (fun a k => (F a k).map g) k l := by
  induction l generalizing k with
  | nil => rfl
  | cons a l ih => rw [stepsFrom, List.map_append, ih, stepsFrom]

/-- Steps that do not depend on their number. -/
theorem stepsFrom_const (g : α → List β) (k : ℕ) (l : List α) :
    stepsFrom (fun a _ => g a) k l = (l.map g).flatten := by
  induction l generalizing k with
  | nil => rfl
  | cons a l ih => rw [stepsFrom, ih, List.map_cons, List.flatten_cons]

theorem mem_stepsFrom {k : ℕ} {l : List α} {b : β} (h : b ∈ stepsFrom F k l) :
    ∃ i a, l[i]? = some a ∧ b ∈ F a (k + i) := by
  induction l generalizing k with
  | nil => simp [stepsFrom] at h
  | cons a l ih =>
      rcases List.mem_append.mp h with h | h
      · exact ⟨0, a, rfl, h⟩
      · obtain ⟨i, a', ha', hb⟩ := ih h
        refine ⟨i + 1, a', by simpa using ha', ?_⟩
        rwa [Nat.add_assoc, Nat.add_comm 1 i] at hb

theorem mem_stepsFrom_of_getElem {k i : ℕ} {l : List α} {a : α} {b : β} (hi : l[i]? = some a)
    (h : b ∈ F a (k + i)) : b ∈ stepsFrom F k l := by
  induction l generalizing k i with
  | nil => simp at hi
  | cons a' l ih =>
      cases i with
      | zero =>
          obtain rfl : a' = a := by simpa using hi
          exact List.mem_append_left _ h
      | succ i =>
          refine List.mem_append_right _ (ih (by simpa using hi) ?_)
          rwa [Nat.add_assoc, Nat.add_comm 1 i]

theorem mem_stepsFrom_middle {k : ℕ} {l₁ l₂ : List α} {a : α} {b : β} (h : ∀ k, b ∈ F a k) :
    b ∈ stepsFrom F k (l₁ ++ a :: l₂) := by
  induction l₁ generalizing k with
  | nil => exact List.mem_append_left _ (h k)
  | cons a' l₁ ih => exact List.mem_append_right _ ih

/-- The first step that is not empty comes first. -/
theorem stepsFrom_of_nil {k i : ℕ} {l : List α} {a : α} (hi : l[i]? = some a)
    (h : ∀ j < i, ∀ a', l[j]? = some a' → F a' (k + j) = []) :
    ∃ rest, stepsFrom F k l = F a (k + i) ++ rest := by
  induction l generalizing k i with
  | nil => simp at hi
  | cons a' l ih =>
      cases i with
      | zero =>
          obtain rfl : a' = a := by simpa using hi
          exact ⟨stepsFrom F (k + 1) l, rfl⟩
      | succ i =>
          have hk : ∀ j, k + 1 + j = k + (j + 1) := by omega
          have hnil := h 0 (by omega) a' rfl
          obtain ⟨rest, hrest⟩ := ih (k := k + 1) (by simpa using hi) fun j hj a'' ha'' => by
            rw [hk]
            exact h (j + 1) (by omega) a'' (by simpa using ha'')
          rw [Nat.add_zero] at hnil
          rw [hk] at hrest
          exact ⟨rest, by rw [stepsFrom, hnil, List.nil_append, hrest]⟩

theorem stepsFrom_append (k : ℕ) (l₁ l₂ : List α) :
    stepsFrom F k (l₁ ++ l₂) = stepsFrom F k l₁ ++ stepsFrom F (k + l₁.length) l₂ := by
  induction l₁ generalizing k with
  | nil => rfl
  | cons a l₁ ih =>
      rw [List.cons_append, stepsFrom, ih, stepsFrom, List.append_assoc, List.length_cons,
        Nat.add_assoc, Nat.add_comm 1]

theorem stepsFrom_map (g : γ → α) (k : ℕ) (l : List γ) :
    stepsFrom F k (l.map g) = stepsFrom (fun a => F (g a)) k l := by
  induction l generalizing k with
  | nil => rfl
  | cons a l ih => rw [List.map_cons, stepsFrom, ih, stepsFrom]

theorem flatMap_stepsFrom (g : β → List γ) (k : ℕ) (l : List α) :
    (stepsFrom F k l).flatMap g = stepsFrom (fun a k => (F a k).flatMap g) k l := by
  induction l generalizing k with
  | nil => rfl
  | cons a l ih => rw [stepsFrom, List.flatMap_append, ih, stepsFrom]

end stepsFrom

variable {P T K D S O : Type}

section Compat

variable [DecidableEq P] [LT T]

theorem Valid.append {as bs : List (Block P T K D S O)} (ha : Valid as) (hb : Valid bs)
    (hlt : ∀ a ∈ as, ∀ b ∈ bs, a.time < b.time) : Valid (as ++ bs) where
  blocks b hmem := (List.mem_append.mp hmem).elim (ha.blocks b) (hb.blocks b)
  times := by
    rw [List.map_append, List.pairwise_append]
    refine ⟨ha.times, hb.times, fun t ht u hu => ?_⟩
    obtain ⟨a, hmem, rfl⟩ := List.mem_map.mp ht
    obtain ⟨b, hmem', rfl⟩ := List.mem_map.mp hu
    exact hlt a hmem b hmem'

theorem Compat.append {A B : P → List (Block P T K D S O)} (hA : Compat A) (hB : Compat B)
    (hlt : ∀ p, ∀ a ∈ A p, ∀ b ∈ B p, a.time < b.time) : Compat fun p => A p ++ B p where
  valid p := (hA.valid p).append (hB.valid p) (hlt p)
  matched s d := by rw [sends_append, recvs_append, hA.matched, hB.matched]

/-- **Compatible steps in a row are compatible**, when later steps have later times. -/
theorem Compat.stepsFrom {α : Type} {F : P → α → ℕ → List (Block P T K D S O)} {l : List α}
    (hlt : ∀ p a a' k k', k < k' → ∀ b ∈ F p a k, ∀ b' ∈ F p a' k', b.time < b'.time) (k : ℕ)
    (hF : ∀ i a, l[i]? = some a → Compat fun p => F p a (k + i)) :
    Compat fun p => stepsFrom (F p) k l := by
  induction l generalizing k with
  | nil => exact ⟨fun p => ⟨by simp [BlockNet.stepsFrom], by simp [BlockNet.stepsFrom]⟩,
      fun s d => rfl⟩
  | cons a l ih =>
      refine (hF 0 a rfl).append (ih (k + 1) fun i a' hi => ?_) fun p b hb b' hb' => ?_
      · have hk : k + 1 + i = k + (i + 1) := by omega
        rw [hk]
        exact hF (i + 1) a' (by simpa using hi)
      · obtain ⟨i, a', -, hmem⟩ := mem_stepsFrom hb'
        exact hlt p a a' k (k + 1 + i) (by omega) b hb b' hmem

/-- `num t` is the number of the step that the time `t` belongs to. -/
theorem Compat.numbered {α : Type} {F : P → α → ℕ → List (Block P T K D S O)} {l : List α}
    (num : T → ℕ) (hnum : ∀ t u, num t < num u → t < u)
    (htime : ∀ p a k, ∀ b ∈ F p a k, num b.time = k)
    (hF : ∀ a ∈ l, ∀ k, Compat fun p => F p a k) (k : ℕ) :
    Compat fun p => BlockNet.stepsFrom (F p) k l := by
  refine Compat.stepsFrom (fun p a a' k k' hk b hb b' hb' => hnum _ _ ?_) k fun i a hi => ?_
  · rw [htime p a k b hb, htime p a' k' b' hb']
    exact hk
  · exact hF a (List.mem_of_getElem? hi) (k + i)

end Compat

section Good

variable {C : Contract P T K D O} {p : P}

theorem Good.mono {Q Q' : S → Prop} {bs : List (Block P T K D S O)} {σ : S} (h : Good C p Q bs σ)
    (hQ : ∀ σ, Q σ → Q' σ) : Good C p Q' bs σ := by
  induction h with
  | done hq => exact .done (hQ _ hq)
  | step hne hg _ ih => exact .step hne hg ih

/-- **Steps that lead from one precondition to the next.** `Pre a` is the precondition of
step `a`, and `Next a b` says that `b` may follow `a`. -/
theorem Good.chain {α : Type} {F : α → ℕ → List (Block P T K D S O)} (Pre : α → S → Prop)
    {Next : α → α → Prop} (l : List α) (k : ℕ)
    (hF : ∀ i a, l[i]? = some a → ∀ σ, Pre a σ →
      Good C p (fun τ => ∀ b, Next a b → Pre b τ) (F a (k + i)) σ)
    (hl : l.IsChain Next) {σ : S} (h₀ : ∀ a ∈ l.head?, Pre a σ) :
    Good C p (fun _ => True) (stepsFrom F k l) σ := by
  induction l generalizing k σ with
  | nil => exact .done trivial
  | cons a l ih =>
      refine Good.append ((hF 0 a rfl σ (h₀ a rfl)).mono fun τ hτ => ?_)
      refine ih (k + 1) (fun i b hb σ' => ?_) hl.tail fun b hb => hτ b (hl.rel_head? hb)
      have := hF (i + 1) b (by simpa using hb) σ'
      rwa [Nat.add_comm i 1, ← Nat.add_assoc] at this

/-- **Steps that lead through a row of assertions.** `Pre i` holds before step `i`. -/
theorem Good.steps {α : Type} {F : α → ℕ → List (Block P T K D S O)} (Pre : ℕ → S → Prop)
    (l : List α) (k : ℕ)
    (hF : ∀ i a, l[i]? = some a → ∀ σ, Pre i σ → Good C p (Pre (i + 1)) (F a (k + i)) σ)
    {σ : S} (h₀ : Pre 0 σ) : Good C p (Pre l.length) (stepsFrom F k l) σ := by
  induction l generalizing k σ Pre with
  | nil => exact .done h₀
  | cons a l ih =>
      refine Good.append ((hF 0 a rfl σ h₀).mono fun τ hτ => ?_)
      refine ih (fun i => Pre (i + 1)) (k + 1) (fun i b hb σ' hσ' => ?_) hτ
      have hk : k + (i + 1) = k + 1 + i := by omega
      have := hF (i + 1) b (by simpa using hb) σ' hσ'
      rwa [hk] at this

end Good

/-! ## Jobs over a list of processes -/

section Keys

variable [DecidableEq P]

/-- One send to each of `l`. -/
theorem sendKey_map {l : List P} (hl : l.Nodup) (k : K) (f : S → D) (d : P) :
    (l.map fun q => (Job.send q k f : Job P T K D S O)).filterMap (Job.sendKey d) =
      if d ∈ l then [k] else [] := by
  induction l with
  | nil => rfl
  | cons q l ih =>
      obtain ⟨hq, hl⟩ := List.nodup_cons.mp hl
      rw [List.map_cons, List.filterMap_cons, ih hl]
      by_cases hd : q = d
      · subst hd
        simp [Job.sendKey, hq]
      · simp [Job.sendKey, hd, Ne.symm hd]

/-- One receive from each of `l`. -/
theorem recvKey_map {l : List P} (hl : l.Nodup) (k : K) (g : P → D → S → S) (s : P) :
    (l.map fun q => (Job.recv q k (g q) : Job P T K D S O)).filterMap (Job.recvKey s) =
      if s ∈ l then [k] else [] := by
  induction l with
  | nil => rfl
  | cons q l ih =>
      obtain ⟨hq, hl⟩ := List.nodup_cons.mp hl
      rw [List.map_cons, List.filterMap_cons, ih hl]
      by_cases hd : q = s
      · subst hd
        simp [Job.recvKey, hq]
      · simp [Job.recvKey, hd, Ne.symm hd]

variable [LT T]

theorem Block.valid_nil (t : T) : Block.Valid (⟨t, []⟩ : Block P T K D S O) :=
  ⟨by simp, by simp, by simp⟩

theorem Block.valid_act (t : T) (f : S → S) :
    Block.Valid (⟨t, [.act f]⟩ : Block P T K D S O) :=
  ⟨fun _ => Nat.zero_le 1, fun _ => Nat.zero_le 1, by simp⟩

theorem Block.valid_emit (t : T) (i : ℕ) (f : S → O) :
    Block.Valid (⟨t, [.emit i f]⟩ : Block P T K D S O) :=
  ⟨fun _ => Nat.zero_le 1, fun _ => Nat.zero_le 1, by simp⟩

theorem Block.valid_await {t u : T} {qs : List P} (hqs : qs ≠ []) (hu : u < t) :
    Block.Valid (⟨t, [.await qs u]⟩ : Block P T K D S O) where
  sends_le _ := Nat.zero_le 1
  recvs_le _ := Nat.zero_le 1
  await_lt qs' u' h := by
    obtain ⟨rfl, rfl⟩ : qs' = qs ∧ u' = u := by simpa using h
    exact ⟨hqs, hu⟩

theorem Block.valid_sends (t : T) {l : List P} (hl : l.Nodup) (k : K) (f : S → D) :
    Block.Valid (⟨t, l.map fun q => .send q k f⟩ : Block P T K D S O) where
  sends_le d := by
    rw [sendKey_map hl]
    split <;> simp
  recvs_le s := by simp [List.filterMap_map, Function.comp_def, Job.recvKey]
  await_lt qs u h := by simp at h

theorem Block.valid_recvs (t : T) {l : List P} (hl : l.Nodup) (k : K) (g : P → D → S → S) :
    Block.Valid (⟨t, l.map fun q => .recv q k (g q)⟩ : Block P T K D S O) where
  sends_le d := by simp [List.filterMap_map, Function.comp_def, Job.sendKey]
  recvs_le s := by
    rw [recvKey_map hl]
    split <;> simp
  await_lt qs u h := by simp at h

omit [LT T] in
theorem Block.sends_map (t : T) {l : List P} (hl : l.Nodup) (k : K) (f : S → D) (d : P) :
    (⟨t, l.map fun q => .send q k f⟩ : Block P T K D S O).sends d =
      if d ∈ l then [(t, k)] else [] := by
  rw [Block.sends, sendKey_map hl]
  split <;> simp

omit [LT T] in
theorem Block.recvs_map (t : T) {l : List P} (hl : l.Nodup) (k : K) (g : P → D → S → S) (s : P) :
    (⟨t, l.map fun q => .recv q k (g q)⟩ : Block P T K D S O).recvs s =
      if s ∈ l then [(t, k)] else [] := by
  rw [Block.recvs, recvKey_map hl]
  split <;> simp

section Tags

omit [LT T]
variable (t : T) (d : P)

@[simp] theorem Block.sends_nil : (⟨t, []⟩ : Block P T K D S O).sends d = [] := rfl
@[simp] theorem Block.recvs_nil : (⟨t, []⟩ : Block P T K D S O).recvs d = [] := rfl

@[simp] theorem Block.sends_act (f : S → S) :
    (⟨t, [.act f]⟩ : Block P T K D S O).sends d = [] := rfl
@[simp] theorem Block.recvs_act (f : S → S) :
    (⟨t, [.act f]⟩ : Block P T K D S O).recvs d = [] := rfl

@[simp] theorem Block.sends_emit (i : ℕ) (f : S → O) :
    (⟨t, [.emit i f]⟩ : Block P T K D S O).sends d = [] := rfl
@[simp] theorem Block.recvs_emit (i : ℕ) (f : S → O) :
    (⟨t, [.emit i f]⟩ : Block P T K D S O).recvs d = [] := rfl

@[simp] theorem Block.sends_await (qs : List P) (u : T) :
    (⟨t, [.await qs u]⟩ : Block P T K D S O).sends d = [] := rfl
@[simp] theorem Block.recvs_await (qs : List P) (u : T) :
    (⟨t, [.await qs u]⟩ : Block P T K D S O).recvs d = [] := rfl

@[simp] theorem Block.sends_recv (l : List P) (k : K) (g : P → D → S → S) :
    (⟨t, l.map fun q => .recv q k (g q)⟩ : Block P T K D S O).sends d = [] := by
  simp [Block.sends, List.filterMap_map, Function.comp_def, Job.sendKey]

@[simp] theorem Block.recvs_send (l : List P) (k : K) (f : S → D) :
    (⟨t, l.map fun q => .send q k f⟩ : Block P T K D S O).recvs d = [] := by
  simp [Block.recvs, List.filterMap_map, Function.comp_def, Job.recvKey]

end Tags

theorem Valid.nil : Valid ([] : List (Block P T K D S O)) := ⟨by simp, by simp⟩

theorem Valid.cons {b : Block P T K D S O} {bs : List (Block P T K D S O)} (hb : b.Valid)
    (hbs : Valid bs) (hlt : ∀ b' ∈ bs, b.time < b'.time) : Valid (b :: bs) where
  blocks := by
    intro b' hb'
    rcases List.mem_cons.mp hb' with rfl | hb'
    · exact hb
    · exact hbs.blocks b' hb'
  times := by
    rw [List.map_cons, List.pairwise_cons]
    refine ⟨fun t ht => ?_, hbs.times⟩
    obtain ⟨b', hb', rfl⟩ := List.mem_map.mp ht
    exact hlt b' hb'

end Keys

end StdmlCollective.BlockNet

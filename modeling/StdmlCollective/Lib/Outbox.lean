import StdmlCollective.Lib.Links
import Mathlib.Order.Nat

/-!
# Rounds of messages

In every round each member has messages to send, which it sends in any order. The next round begins
when those have sent all of theirs that take part in it; the others send when they like, and so it
happens that a message of an old round is sent after one of a new round. Nothing is lost, nothing
is sent twice (`Reach.conserved`), and only those who have left are late (`Reach.ordered`).
-/

namespace StdmlCollective

/-- What the members have to send in a round, and which of them take part in the next one. -/
structure Outbox.Round (ι M : Type) where
  due : ι → List M
  stays : ι → Prop

/-- The rounds so far, what is still to be sent, by round and member, and what has been sent. -/
structure Outbox (ι M : Type) where
  rounds : List (Outbox.Round ι M)
  todo : ℕ → ι → List M
  sent : List ((ℕ × ι) × M)

namespace Outbox

variable {ι M : Type} [DecidableEq ι] {b b' : Outbox ι M} {k : ℕ} {i : ι}

/-- Before the first round. -/
def empty : Outbox ι M := ⟨[], fun _ _ => [], []⟩

/-- Whoever takes part in the next round has sent what it had to send in the last one. -/
def Ready (b : Outbox ι M) : Prop :=
  ∀ k r, b.rounds.length = k + 1 → b.rounds[k]? = some r → ∀ i, r.stays i → b.todo k i = []

/-- A round begins. -/
def post (b : Outbox ι M) (r : Round ι M) : Outbox ι M :=
  { b with rounds := b.rounds ++ [r], todo := Function.update b.todo b.rounds.length r.due }

/-- A member sends a message, and has `l` left. -/
def send (b : Outbox ι M) (k : ℕ) (i : ι) (m : M) (l : List M) : Outbox ι M :=
  { b with
    todo := Function.update b.todo k (Function.update (b.todo k) i l)
    sent := b.sent ++ [((k, i), m)] }

/-- A round begins, or a message is sent. -/
inductive Step : Outbox ι M → Outbox ι M → Prop where
  | post {b : Outbox ι M} {r : Round ι M} : b.Ready → Step b (b.post r)
  | send {b : Outbox ι M} {k : ℕ} {i : ι} {m : M} {l l' : List M} :
      b.todo k i = l ++ m :: l' → Step b (b.send k i m (l ++ l'))

/-- What can have happened. -/
abbrev Reach : Outbox ι M → Prop := Relation.ReflTransGen Step empty

/-- What a member had to send in a round. -/
def due (b : Outbox ι M) (k : ℕ) (i : ι) : List M := (b.rounds[k]?).elim [] fun r => r.due i

/-- The member takes part in the round after round `k`. -/
def Stays (b : Outbox ι M) (k : ℕ) (i : ι) : Prop := ∃ r, b.rounds[k]? = some r ∧ r.stays i

omit [DecidableEq ι] in
theorem due_eq_nil (h : b.rounds.length ≤ k) : b.due k i = [] := by
  simp [due, List.getElem?_eq_none h]

omit [DecidableEq ι] in
theorem due_post (r : Round ι M) :
    (b.post r).due k i = if k = b.rounds.length then r.due i else b.due k i := by
  by_cases hk : k = b.rounds.length
  · simp [due, post, hk]
  · rcases Nat.lt_or_ge k b.rounds.length with hlt | hge
    · simp [due, post, hk, List.getElem?_append_left hlt]
    · rw [if_neg hk, due_eq_nil hge, due_eq_nil]
      simp only [post, List.length_append, List.length_singleton]
      omega

omit [DecidableEq ι] in
theorem stays_post {r : Round ι M} (h : k < b.rounds.length) :
    (b.post r).Stays k i ↔ b.Stays k i := by
  simp [Stays, post, List.getElem?_append_left h]

/-- **Nothing is lost and nothing is sent twice.** -/
theorem Reach.conserved (h : Reach b) (k : ℕ) (i : ι) :
    (Links.select (k, i) b.sent ++ b.todo k i).Perm (b.due k i) := by
  induction h generalizing k i with
  | refl => simp [empty, due]
  | @tail b b' _ hs ih =>
      cases hs with
      | @post r _ =>
          rw [due_post]
          by_cases hk : k = b.rounds.length
          · -- a new round, of which nothing has been sent
            subst hk
            have hnil := ih b.rounds.length i
            rw [due_eq_nil le_rfl, List.perm_nil, List.append_eq_nil_iff] at hnil
            simp [post, hnil.1]
          · simpa [post, hk] using ih k i
      | @send j i' m l l' hl =>
          have hsame : (b.send j i' m (l ++ l')).due k i = b.due k i := rfl
          rw [hsame]
          refine List.Perm.trans ?_ (ih k i)
          by_cases hki : j = k ∧ i' = i
          · obtain ⟨rfl, rfl⟩ := hki
            simp only [send, Links.select_append, Links.select_cons_self, Links.select_nil,
              Function.update_self, List.append_assoc, List.singleton_append, hl]
            exact (List.perm_middle.symm).append_left _
          · have hne : ((j, i'), m).1 ≠ (k, i) := fun heq => hki (Prod.mk.inj heq)
            have htodo : (b.send j i' m (l ++ l')).todo k i = b.todo k i := by
              by_cases hk : k = j
              · subst hk
                have hi : i ≠ i' := fun heq => hki ⟨rfl, heq.symm⟩
                simp [send, hi]
              · simp [send, hk]
            rw [htodo]
            simp [send, Links.select_cons_ne hne]

/-- What is sent is due. -/
theorem Reach.mem_due (h : Reach b) {x : (ℕ × ι) × M} (hx : x ∈ b.sent) :
    x.2 ∈ b.due x.1.1 x.1.2 := by
  rw [← (h.conserved _ _).mem_iff]
  exact List.mem_append_left _ (Links.mem_select.mpr hx)

theorem Reach.sent_lt_length (h : Reach b) {x : (ℕ × ι) × M} (hx : x ∈ b.sent) :
    x.1.1 < b.rounds.length := by
  by_contra hk
  have hdue := h.mem_due hx
  rw [due_eq_nil (not_lt.mp hk)] at hdue
  cases hdue

/-- Whoever took part in a round had sent all of the round before. -/
theorem Reach.todo_eq_nil (h : Reach b) (hk : k + 1 < b.rounds.length) (hstays : b.Stays k i) :
    b.todo k i = [] := by
  induction h with
  | refl => simp [empty] at hk
  | @tail b b' _ hs ih =>
      cases hs with
      | @post r hready =>
          have hlt : k < b.rounds.length := by
            simp only [post, List.length_append, List.length_singleton] at hk
            omega
          rw [stays_post hlt] at hstays
          have hold : b.todo k i = [] := by
            rcases Nat.lt_or_ge (k + 1) b.rounds.length with hlt' | hge
            · exact ih hlt' hstays
            · obtain ⟨r', hr', hin⟩ := hstays
              exact hready k r' (by omega) hr' i hin
          simpa [post, hlt.ne] using hold
      | @send j i' m l l' hl =>
          have hold := ih hk hstays
          have hne : ¬(k = j ∧ i = i') := by
            rintro ⟨rfl, rfl⟩
            simp [hold] at hl
          by_cases hj : k = j
          · subst hj
            have hi : i ≠ i' := fun heq => hne ⟨rfl, heq⟩
            simpa [send, hi] using hold
          · simpa [send, hj] using hold

/-- **A message that is sent after one of a later round is from somebody who has left.** -/
theorem Reach.ordered (h : Reach b) :
    b.sent.Pairwise fun y x => x.1.1 < y.1.1 → ¬b.Stays x.1.1 x.1.2 := by
  induction h with
  | refl => exact .nil
  | @tail b b' hr hs ih =>
      cases hs with
      | @post r _ =>
          apply ih.imp_of_mem
          intro y x _ hx hno hlt
          rw [stays_post (Reach.sent_lt_length hr hx)]
          exact hno hlt
      | @send k i m l l' hl =>
          refine List.pairwise_append.mpr ⟨ih, List.pairwise_singleton .., ?_⟩
          intro y hy x hx hlt hstays
          rw [List.mem_singleton] at hx
          subst hx
          have hbound := Reach.sent_lt_length hr hy
          have hnil := Reach.todo_eq_nil hr (by omega) hstays
          simp [hnil] at hl

end Outbox

end StdmlCollective

import Mathlib.Logic.Basic

/-!
# Programs that meet in requests

One program, many members: every member runs a `Prog`, which returns a value or makes a request
and goes on with the reply. `Prog.Exec` is a member on its own, with any reply the environment
allows. `Runs` is all members together: a request is answered when all of them make one and the
service accepts what they ask for, so a joint run exists only if no member makes a request that
another one does not make, or makes differently.
-/

namespace StdmlCollective.Spmd

/-- What a member does: return, or make a request and go on with the reply. -/
inductive Prog (ρ : Type) (R : ρ → Type) (α : Type) where
  | ret (a : α)
  | call (r : ρ) (k : R r → Prog ρ R α)

variable {ρ : Type} {R : ρ → Type} {α β ι : Type}

namespace Prog

/-- Sequential composition. -/
def bind : Prog ρ R α → (α → Prog ρ R β) → Prog ρ R β
  | .ret a, f => f a
  | .call r k, f => .call r fun x => (k x).bind f

instance : Monad (Prog ρ R) where
  pure := .ret
  bind := .bind

/-- Make a request. -/
def request (r : ρ) : Prog ρ R (R r) := .call r .ret

@[simp] theorem pure_eq (a : α) : (pure a : Prog ρ R α) = .ret a := rfl

@[simp] theorem ret_bind (a : α) (f : α → Prog ρ R β) : (Prog.ret a >>= f) = f a := rfl

@[simp] theorem call_bind (r : ρ) (k : R r → Prog ρ R α) (f : α → Prog ρ R β) :
    (Prog.call r k >>= f) = .call r fun x => k x >>= f := rfl

@[simp] theorem request_bind (r : ρ) (f : R r → Prog ρ R β) :
    (request r >>= f) = .call r f := rfl

/-- A member on its own makes the requests `tr` and returns `a`, with replies that `ok` allows. -/
inductive Exec (ok : (r : ρ) → R r → Prop) : Prog ρ R α → List ρ → α → Prop where
  | ret {a : α} : Exec ok (.ret a) [] a
  | call {r : ρ} {k : R r → Prog ρ R α} {x : R r} {tr : List ρ} {a : α} :
      ok r x → Exec ok (k x) tr a → Exec ok (.call r k) (r :: tr) a

end Prog

/-- What answers the requests of all members. -/
structure Service (ι ρ : Type) (R : ρ → Type) where
  accepts : (ι → ρ) → Prop
  reply : (rs : ι → ρ) → (i : ι) → R (rs i)

/-- All members together make the requests `tr`, and each returns its value. -/
inductive Runs (S : Service ι ρ R) : (ι → Prog ρ R α) → List (ι → ρ) → (ι → α) → Prop where
  | ret {a : ι → α} : Runs S (fun i => .ret (a i)) [] a
  | call {rs : ι → ρ} {k : (i : ι) → R (rs i) → Prog ρ R α} {tr : List (ι → ρ)} {a : ι → α} :
      S.accepts rs → Runs S (fun i => k i (S.reply rs i)) tr a →
      Runs S (fun i => .call (rs i) (k i)) (rs :: tr) a

variable {S : Service ι ρ R}

/-- **Sequential composition of joint runs.** -/
theorem Runs.bind {p : ι → Prog ρ R α} {tr tr' : List (ι → ρ)} {a : ι → α} {b : ι → β}
    (h : Runs S p tr a) {f : ι → α → Prog ρ R β} (hf : Runs S (fun i => f i (a i)) tr' b) :
    Runs S (fun i => p i >>= f i) (tr ++ tr') b := by
  induction h with
  | ret => exact hf
  | call hacc _ ih => exact .call hacc (ih hf)

/-- Every request of a joint run was accepted. -/
theorem Runs.accepted {p : ι → Prog ρ R α} {tr : List (ι → ρ)} {a : ι → α} (h : Runs S p tr a) :
    ∀ rs ∈ tr, S.accepts rs := by
  induction h with
  | ret => exact fun rs hrs => absurd hrs List.not_mem_nil
  | call hacc _ ih =>
      intro rs hrs
      rcases List.mem_cons.mp hrs with rfl | hrs
      · exact hacc
      · exact ih rs hrs

/-- **There is at most one joint run.** -/
theorem Runs.unique [Nonempty ι] {p : ι → Prog ρ R α} {tr tr' : List (ι → ρ)} {a a' : ι → α}
    (h : Runs S p tr a) (h' : Runs S p tr' a') : tr = tr' ∧ a = a' := by
  obtain ⟨i⟩ : Nonempty ι := inferInstance
  induction h generalizing tr' a' with
  | @ret a =>
      generalize hq : (fun i => Prog.ret (a i) : ι → Prog ρ R α) = q at h'
      cases h' with
      | ret =>
          refine ⟨rfl, funext fun j => ?_⟩
          simpa using congrFun hq j
      | call => exact absurd (congrFun hq i) (by simp)
  | @call rs k tr a hacc _ ih =>
      generalize hq : (fun i => Prog.call (rs i) (k i) : ι → Prog ρ R α) = q at h'
      cases h' with
      | ret => exact absurd (congrFun hq i) (by simp)
      | @call rs' k' tr' _ _ h' =>
          obtain rfl : rs = rs' := funext fun j => (Prog.call.inj (congrFun hq j)).1
          obtain rfl : k = k' := funext fun j => eq_of_heq (Prog.call.inj (congrFun hq j)).2
          obtain ⟨rfl, rfl⟩ := ih h'
          exact ⟨rfl, rfl⟩

end StdmlCollective.Spmd

import StdmlCollective.Truncation

/-!
# One peer sends to another

`session::send` and `session::recv` of two peers, as a step of a program: the one puts its buffer on
the connection, the other posts its own and waits for it. What the receiver then has is what the
sender had, as long as the two agree and the size fits into the header.
-/

namespace StdmlCollective

open BlockNet
open Memory (Mem)

variable {T O : Type} {n : ℕ}

namespace SendCall

/-- What is sent. -/
def data (c : SendCall n) (M : Fin n → Mem) : Bytes :=
  Memory.read c.input (c.count * dtypeSize c.dt) (M c.src)

/-- What the `send` and the `recv` make of the memories. -/
def apply (c : SendCall n) (M : Fin n → Mem) (r : Fin n) : Mem :=
  if r = c.dst then Memory.write c.output (c.data M) (M r) else M r

/-- Two peers, and a name without NUL. -/
structure Legal (c : SendCall n) : Prop where
  ne : c.src ≠ c.dst
  nulFree : NulFree c.name

/-- And less than `2 ^ 32` bytes, so that all of them fit into the message. -/
structure Ok (c : SendCall n) : Prop extends c.Legal where
  size : c.count * dtypeSize c.dt < 2 ^ 32

/-- What a peer runs: the `send`, the `recv`, or nothing. -/
def sections (c : SendCall n) (rank : Fin n) : List (List (Thread (Fin n) T Store O)) :=
  (if rank = c.src then [[sessionSend id c.input c.count c.dt c.dst c.name]] else []) ++
    if rank = c.dst then [[sessionRecv id c.output c.src c.name]] else []

/-- The sections at the times `lab`. -/
def run (lab : ℕ → T) (c : SendCall n) (rank : Fin n) : List (Par (Fin n) T Store O) :=
  stamp lab (c.sections rank)

variable {c : SendCall n}

theorem sections_fresh {rank : Fin n} {ths : List (Thread (Fin n) T Store O)}
    (h : ths ∈ c.sections rank) {th : Thread (Fin n) T Store O} (hth : th ∈ ths) : th.Fresh := by
  simp only [sections, List.mem_append, List.mem_ite_nil_right, List.mem_singleton] at h
  rcases h with ⟨-, rfl⟩ | ⟨-, rfl⟩
  all_goals
    obtain rfl := List.mem_singleton.mp hth
    trivial

/-- The program of one peer. -/
theorem run_blocks (lab : ℕ → T) (hc : c.Legal) (r : Fin n) :
    blocks Store.writeBody (c.run lab r : List (Par (Fin n) T Store O)) =
      if r = c.src then
        [⟨lab 0, [.send c.dst (c.name, true) fun σ =>
          wireData (Memory.read c.input (c.count * dtypeSize c.dt) σ.mem)]⟩]
      else if r = c.dst then
        [⟨lab 0, [.recv c.src (c.name, true) (Store.writeBody c.output)]⟩]
      else [] := by
  by_cases hsrc : r = c.src
  · have hdst : ¬r = c.dst := fun h => hc.ne (hsrc.symm.trans h)
    simp only [run, sections, if_pos hsrc, if_neg hdst, List.append_nil]
    simp [stamp, blocks, Par.block, sessionSend, Thread.job, cStr_eq_self hc.nulFree,
      waitsFlag, waitRecvBuf]
  · by_cases hdst : r = c.dst
    · simp only [run, sections, if_neg hsrc, if_pos hdst, List.nil_append]
      simp [stamp, blocks, Par.block, sessionRecv, Thread.job]
    · simp [run, sections, hsrc, hdst, stamp, blocks]

theorem run_sends (lab : ℕ → T) (hc : c.Legal) (r d : Fin n) :
    sends (blocks Store.writeBody (c.run lab r : List (Par (Fin n) T Store O))) d =
      if r = c.src ∧ d = c.dst then [(lab 0, (c.name, true))] else [] := by
  rw [run_blocks lab hc]
  split
  · rename_i hsrc
    by_cases hd : d = c.dst
    · simp [hsrc, hd, sends, Block.sends, Job.sendKey]
    · simp [hsrc, hd, Ne.symm hd, sends, Block.sends, Job.sendKey]
  · rename_i hsrc
    split <;> simp [hsrc, sends, Block.sends, Job.sendKey]

theorem run_recvs (lab : ℕ → T) (hc : c.Legal) (r s : Fin n) :
    recvs (blocks Store.writeBody (c.run lab r : List (Par (Fin n) T Store O))) s =
      if s = c.src ∧ r = c.dst then [(lab 0, (c.name, true))] else [] := by
  rw [run_blocks lab hc]
  split
  · rename_i hsrc
    simp [hsrc, hc.ne, recvs, Block.recvs, Job.recvKey]
  · split
    · rename_i hdst
      by_cases hs : s = c.src
      · simp [hdst, hs, recvs, Block.recvs, Job.recvKey]
      · simp [hs, Ne.symm hs, recvs, Block.recvs, Job.recvKey]
    · rename_i hdst
      simp [hdst, recvs]

theorem mem_sends (lab : ℕ → T) (hc : c.Legal) : (lab 0, (c.name, true)) ∈
    sends (blocks Store.writeBody (c.run lab c.src : List (Par (Fin n) T Store O))) c.dst := by
  rw [run_sends lab hc, if_pos ⟨rfl, rfl⟩]
  exact List.mem_singleton_self _

/-- What is sent is received. -/
theorem run_compat [LinearOrder T] (lab : ℕ → T) (hc : c.Legal) :
    Compat fun r => blocks Store.writeBody (c.run lab r : List (Par (Fin n) T Store O)) where
  matched s d := by
    rw [run_sends lab hc, run_recvs lab hc]
  valid p := by
    rw [run_blocks lab hc]
    split
    · exact .cons (Block.valid_sends _ (List.nodup_singleton c.dst) _ _) .nil (by simp)
    · split
      · exact .cons (Block.valid_recvs _ (List.nodup_singleton c.src) _
          fun _ => Store.writeBody c.output) .nil (by simp)
      · exact .nil

/-- **The receiver ends with what the sender had.** -/
theorem run_good {C : Contract (Fin n) T Key Bytes O} {lab : ℕ → T} {M : Fin n → Mem} (hc : c.Ok)
    (hC : ∀ d, C.msg c.src c.dst ⟨lab 0, (c.name, true), d⟩ ↔ d = c.data M) (r : Fin n) {σ : Store}
    (hσ : σ.mem = M r) :
    Good C r (fun τ => τ.mem = c.apply M r)
      (blocks Store.writeBody (c.run lab r : List (Par (Fin n) T Store O))) σ := by
  have hwire : wireData (c.data M) = c.data M := by
    apply wireData_eq_self
    rw [data, Memory.length_read]
    exact hc.size
  rw [run_blocks lab hc.toLegal]
  by_cases hsrc : r = c.src
  · have hdst : ¬r = c.dst := fun h => hc.ne (hsrc.symm.trans h)
    subst hsrc
    rw [if_pos rfl]
    refine Good.single ⟨(hC _).mpr ?_, .done ?_⟩
    · simp only [hσ]
      exact hwire
    · rw [hσ, apply, if_neg hdst]
  · by_cases hdst : r = c.dst
    · subst hdst
      rw [if_neg hsrc, if_pos rfl]
      refine Good.single fun d hd => .done ?_
      rw [(hC d).mp hd, apply, if_pos rfl, ← hσ]
      rfl
    · rw [if_neg hsrc, if_neg hdst]
      refine .done ?_
      rw [hσ, apply, if_neg hdst]

end SendCall

end StdmlCollective

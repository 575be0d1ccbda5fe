import StdmlCollective.Refine.Lifetime
import StdmlCollective.Synchronize

/-!
# The life of the peers of a program

The peers of a program start when they are started, dial each other when they first have something
to send, and stop as soon as they are through. Nobody waits for the others to have started, and
nobody tells the others before it stops.
-/

namespace StdmlCollective

open Memory (Mem)

variable {n : ℕ} [NeZero n] {s : Strategy} {prog : List (Instr n)}

section Runs

variable {ident : Fin n → PeerId} {σ : Fin n → Store} {flagged : Prop}
variable {w : Lifetime (Fin n) PeerId Stamp Store Bytes}

/-- No run is stuck before all peers have stopped. -/
theorem program_not_stuck (hid : Function.Injective ident) (hn : n < 2 ^ 30)
    (hlegal : ∀ ins ∈ prog, ins.Legal)
    (hw : Lifetime.Reach ident Store.writeBody flagged (peerProgram s prog) σ w)
    (hover : ¬w.Over) : ∃ w', Lifetime.Step ident Store.writeBody flagged w w' := by
  obtain ⟨a, -, hsim, hmatch, hexcl⟩ := program_matched hid hn hlegal (Lifetime.Reach.net hw)
  exact (Lifetime.Reach.inv hw).progress hsim hmatch hexcl hover

/-- Nothing is left when all peers have stopped. -/
theorem program_over (hid : Function.Injective ident) (hn : n < 2 ^ 30)
    (hlegal : ∀ ins ∈ prog, ins.Legal)
    (hw : Lifetime.Reach ident Store.writeBody flagged (peerProgram s prog) σ w)
    (hover : w.Over) : w.net.Drained ∧ ∀ e ∈ w.dialled, e ∈ w.closed ∧ e ∈ w.exited := by
  obtain ⟨a, -, hsim, hmatch, -⟩ := program_matched hid hn hlegal (Lifetime.Reach.net hw)
  have hinv := Lifetime.Reach.inv hw
  refine ⟨hsim.drained hmatch (hinv.final hover), fun e he => ?_⟩
  exact ⟨hinv.shut e.1 (.inr (hover e.1)) e.2 he, hinv.joined e.2 (hover e.2) e.1 he⟩

/-- What the peers have when they have stopped. -/
theorem program_over_values (hid : Function.Injective ident) (hn : n < 2 ^ 30)
    (hok : ∀ ins ∈ prog, ins.Ok)
    (hw : Lifetime.Reach ident Store.writeBody flagged (peerProgram s prog) σ w)
    (hover : w.Over) (r : Fin n) :
    (w.net r).store.mem = outcome s prog (fun q => (σ q).mem) r :=
  (program_values hid hn hok (Lifetime.Reach.net hw)).2 ((Lifetime.Reach.inv hw).final hover) r

/-- When a peer is past an instruction, all that it waits for there have started. -/
theorem started_of_past (hid : Function.Injective ident) (hn : n < 2 ^ 30)
    (hlegal : ∀ ins ∈ prog, ins.Legal)
    (hw : Lifetime.Reach ident Store.writeBody flagged (peerProgram s prog) σ w) {k : ℕ}
    {ins : Instr n} (hk : prog[k]? = some ins) {r q : Fin n}
    (hpast : ∀ b ∈ (w.net r).code, k < b.time.version) (hq : ins.Awaits r q) :
    w.phase q ≠ .down := by
  intro hdown
  obtain ⟨a, ha, hsim, -⟩ := program_matched hid hn hlegal (Lifetime.Reach.net hw)
  refine Instr.begun hn hlegal ha hk (r := r) (fun b hb => ?_) hq ?_
  · have hmem : b.time ∈ (w.net r).code.map Par.time := by
      rw [← hsim.times r]
      exact List.mem_map_of_mem hb
    obtain ⟨b', hb', htime⟩ := List.mem_map.mp hmem
    exact htime ▸ hpast b' hb'
  · have hcode := Lifetime.Reach.code_of_down hw hdown
    have hfresh : ∀ b ∈ (w.net q).code, ∀ th ∈ b.threads, th.Fresh := by
      rw [hcode]
      exact fun b hb th hth => peerProgram_fresh s prog q hb hth
    rw [(hsim q).code, Node.abs_of_fresh ident Store.writeBody hfresh, hcode]

end Runs

/-- **Nobody gets past an instruction before everybody it waits for there has started.** -/
theorem program_waits {ident : Fin n → PeerId} (hid : Function.Injective ident)
    (hn : n < 2 ^ 30) (hlegal : ∀ ins ∈ prog, ins.Legal) {σ : Fin n → Store} {flagged : Prop}
    {w : Lifetime (Fin n) PeerId Stamp Store Bytes}
    (hw : Lifetime.Reach ident Store.writeBody flagged (peerProgram s prog) σ w) {k : ℕ}
    {ins : Instr n} (hk : prog[k]? = some ins) {r q : Fin n} (hq : ins.Awaits r q)
    (hdown : w.phase q = .down) : ∃ b ∈ (w.net r).code, b.time.version ≤ k := by
  by_contra hpast
  push Not at hpast
  exact started_of_past hid hn hlegal hw hk hpast hq hdown

/-- In the middle of a sum over the star: peers 0 and 1 have started, and peer 1 has dialled the root
and sent its number. -/
theorem sumRanks_halfway : ∃ w : Lifetime (Fin 3) PeerId Stamp Store Bytes,
    Lifetime.Reach (genPeers 3) Store.writeBody False (peerProgram .star (sumRanks 3))
        (fun _ => ⟨fun _ => 0, 0⟩) w ∧
      w.phase 0 = .up ∧ w.phase 1 = .up ∧ w.phase 2 = .down ∧ (w.net 0).conn 1 ≠ [] := by
  obtain ⟨y, u, bs, hrun, hcode⟩ := sumRanks_send ⟨fun _ => 0, 0⟩
  have h0 : Lifetime.Reach (genPeers 3) Store.writeBody False (peerProgram .star (sumRanks 3))
      (fun _ => ⟨fun _ => 0, 0⟩) _ := .single (.start (p := 0) rfl)
  have h1 := h0.tail (.start (p := 1) rfl)
  have halive : LifePhase.up ≠ .down ∧ LifePhase.up ≠ .stopped := by decide
  have hy := Lifetime.Reach.node (p := 1) h1 halive hrun
  have hnext : y.code = ⟨Stamp.at 1 (Time.at 0 2), [] ++ sendTask u true 0 :: []⟩ :: bs := hcode
  have hreach : (1, 0) ∉ (∅ : Finset (Fin 3 × Fin 3)) := by simp
  have hw := hy.tail (.send (p := 1) halive (.send hnext) (.inr ⟨hreach, rfl⟩) rfl)
  refine ⟨_, hw, rfl, rfl, rfl, ?_⟩
  exact List.append_ne_nil_of_right_ne_nil _ (List.cons_ne_nil _ _)

/-- The root and peer 1 are up, and the number of peer 1 is on its way. The root is not through with
the sum before peer 2 has started. -/
theorem program_waits_sumRanks :
    ∃ w : Lifetime (Fin 3) PeerId Stamp Store Bytes,
      Lifetime.Reach (genPeers 3) Store.writeBody False (peerProgram .star (sumRanks 3))
        (fun _ => ⟨fun _ => 0, 0⟩) w ∧
      w.phase 0 = .up ∧ w.phase 1 = .up ∧ w.phase 2 = .down ∧ (w.net 0).conn 1 ≠ [] ∧
      ∃ b ∈ (w.net 0).code, b.time.version ≤ 1 := by
  obtain ⟨w, hw, h0, h1, h2, hconn⟩ := sumRanks_halfway
  refine ⟨w, hw, h0, h1, h2, hconn, ?_⟩
  exact program_waits (by decide) (by decide) sumRanks_legal hw (k := 1) rfl (r := 0) (q := 2)
    trivial h2

end StdmlCollective

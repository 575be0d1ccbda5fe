import StdmlCollective.Refine.Chunk

/-!
# Runtimes that starve

Before anything has been sent a chunk can only call `par` for the first section that has tasks:
those that receive find nothing, and those that send find no thread when all threads of the pool
are taken by chunks and by tasks that receive. Where every peer has enough of these, the peers can
come into a state in which nothing can be done any more (`exists_stuck`): they have to take the
tasks that receive first.
-/

namespace StdmlCollective

open BlockNet

variable {J P Id T O : Type}

/-! ## The first section with tasks -/

/-- The thread receives (`gets`), or sends. -/
def Thread.Opens (gets : Bool) : Thread P T Store O → Prop
  | .mailGet _ _ _ => gets = true
  | .send _ _ _ _ => gets = false
  | _ => False

/-- The first section that has tasks is one that receives (`gets`), or one that sends. -/
def Opening (gets : Bool) (code : List (Par P T Store O)) : Prop :=
  ∃ pre b bs, code = pre ++ b :: bs ∧ (∀ e ∈ pre, e.threads = []) ∧ b.threads ≠ [] ∧
    ∀ th ∈ b.threads, th.Opens gets

section Opening

variable {gets : Bool} {code bs : List (Par P T Store O)} {t : T}
  {l₁ l₂ : List (Thread P T Store O)} {th : Thread P T Store O}

theorem Thread.Opens.isSome (h : th.Opens gets) : th.peer?.isSome = true := by
  cases th <;> first | rfl | exact h.elim

theorem Opening.ne_nil (h : Opening gets code) : code ≠ [] := by
  obtain ⟨pre, b, bs, rfl, -⟩ := h
  simp

/-- A section that has threads is the first one that has tasks. -/
theorem Opening.head {b : Par P T Store O} (h : Opening gets (b :: bs)) (hb : b.threads ≠ []) :
    ∀ th ∈ b.threads, th.Opens gets := by
  obtain ⟨pre, b', bs', hc, hpre, -, hopens⟩ := h
  cases pre with
  | nil =>
      obtain ⟨rfl, -⟩ := List.cons.inj hc
      exact hopens
  | cons e pre =>
      obtain ⟨rfl, -⟩ := List.cons.inj hc
      exact absurd (hpre b List.mem_cons_self) hb

theorem Opening.thread (h : Opening gets (⟨t, l₁ ++ th :: l₂⟩ :: bs)) : th.Opens gets :=
  h.head (by simp) th (by simp)

/-- The thread of the chunk has gone past a section without tasks. -/
theorem Opening.tail (h : Opening gets (⟨t, []⟩ :: bs)) : Opening gets bs := by
  obtain ⟨pre, b, bs', hc, hpre, hne, hopens⟩ := h
  cases pre with
  | nil =>
      obtain ⟨rfl, -⟩ := List.cons.inj hc
      exact absurd rfl hne
  | cons e pre =>
      obtain ⟨-, rfl⟩ := List.cons.inj hc
      exact ⟨pre, b, bs', rfl, fun e he => hpre e (List.mem_cons_of_mem _ he), hne, hopens⟩

/-- What is brought on in a section with tasks is brought on by one of them. -/
theorem Advance.task_of_opening {j : J} {code' : List (Par P T Store O)} {w : Work J P}
    {b : Par P T Store O} (ha : Advance j (b :: bs) code' w) (h : Opening gets (b :: bs))
    (hb : b.threads ≠ []) : ∃ q, w = .task j q := by
  have hopens := h.head hb
  cases ha with
  | join => exact absurd rfl hb
  | got => exact ⟨_, rfl⟩
  | @post t l₁ l₂ id name ptr bs => exact (hopens (.slotGet id name ptr) (by simp)).elim
  | @leave t l₁ l₂ th bs =>
      obtain ⟨q, hq⟩ := Option.isSome_iff_exists.mp (hopens th (by simp)).isSome
      exact ⟨q, by rw [Thread.work, hq]⟩

/-- A pointer is posted behind the first section that has tasks. -/
theorem Opening.post {pre post : List (Par P T Store O)} {s : P} {name : Bytes} {ptr : Addr}
    (h : Opening gets (pre ++ ⟨t, [.slotGet s name ptr]⟩ :: post)) :
    Opening gets (pre ++ ⟨t, [.slotWait s name ptr]⟩ :: post) := by
  induction pre with
  | nil => exact (h.head (by simp) (.slotGet s name ptr) (by simp)).elim
  | cons e pre ih =>
      by_cases he : e.threads = []
      · obtain ⟨t', ths⟩ := e
        obtain rfl : ths = [] := he
        obtain ⟨pre', b, bs, hc, hpre, hne, hopens⟩ := ih h.tail
        refine ⟨⟨t', []⟩ :: pre', b, bs, by rw [List.cons_append, hc]; rfl, ?_, hne, hopens⟩
        intro e he'
        rcases List.mem_cons.mp he' with rfl | he'
        · rfl
        · exact hpre e he'
      · exact ⟨[], e, _, rfl, fun _ hmem => absurd hmem List.not_mem_nil, he, h.head he⟩

end Opening

/-! ## Peers that have sent nothing -/

section Put

variable [DecidableEq J] (y : Tasks J P Id T O) (z : Node P Id T Store O)

theorem Tasks.put_code_self (j : J) : (y.put j z).code j = z.code := Function.update_self _ _ _

theorem Tasks.put_code_ne {i j : J} (hij : i ≠ j) : (y.put j z).code i = y.code i :=
  Function.update_of_ne hij _ _

end Put

/-- A peer that has received nothing and sent nothing. It has called `par` for a section that
sends only when all threads of its pool were taken. -/
structure PeerJam (gets : J → Bool) (y : Tasks J P Id T O) (pool : Pool (Work J P))
    (adding : J → Option (List P)) : Prop where
  conn : ∀ q, y.rest.conn q = []
  handler : ∀ q, y.rest.handler q = .idle
  mailbox : ∀ id name, y.rest.mailbox id name = []
  opening : ∀ j, Opening (gets j) (y.code j)
  forked : ∀ j l, adding j = some l → ∃ b bs, y.code j = b :: bs ∧ b.threads ≠ [] ∧ l ⊆ b.peers
  tasks : ∀ j q, .task j q ∈ pool.running ++ pool.queue →
    ∃ b bs, y.code j = b :: bs ∧ q ∈ b.peers
  receives : ∀ j q, .task j q ∈ pool.running → gets j = true
  room : pool.running.length < runtimeSize → ∀ j l, adding j = some l → gets j = true

namespace PeerJam

variable {gets : J → Bool} {y : Tasks J P Id T O} {q₀ q₁ : Pool (Work J P)}
  {adding : J → Option (List P)} {build : List J}

theorem start {prog : J → P → List (Par P T Store O)} {mem : P → Memory.Mem} {p : P}
    {order : List J} (hopening : ∀ j, Opening (gets j) (prog j p)) :
    PeerJam gets (Tasks.start prog mem p : Tasks J P Id T O) ⟨order.map .chunk, [], []⟩
      fun _ => none where
  conn _ := rfl
  handler _ := rfl
  mailbox _ _ := rfl
  opening := hopening
  forked _ _ h := nomatch h
  tasks _ _ h := absurd h List.not_mem_nil
  receives _ _ h := absurd h List.not_mem_nil
  room _ _ _ h := nomatch h

theorem pool (h : PeerJam gets y q₀ adding) (hinv : PeerInv y.code build q₀ adding)
    (hs : Pool.Step runtimeSize (AsyncState.Through y.code) q₀ q₁) : PeerJam gets y q₁ adding := by
  cases hs with
  | @add w l q r =>
      obtain ⟨j₀, rfl⟩ := hinv.pending w List.mem_cons_self
      refine { h with tasks := fun j q' hmem => h.tasks j q' ?_ }
      simpa using hmem
  | @take w l q r hlt =>
      refine { h with
        tasks := fun j q' hmem => h.tasks j q' ?_,
        receives := fun j q' hmem => ?_, room := fun _ => h.room hlt }
      · simp only [List.cons_append, List.mem_cons, List.mem_append] at hmem ⊢
        tauto
      · rcases List.mem_cons.mp hmem with rfl | hmem
        · obtain ⟨l', hl'⟩ := hinv.forked j q' (List.mem_append_right _ List.mem_cons_self)
          exact h.room hlt j l' hl'
        · exact h.receives j q' hmem
  | @finish w l q r₁ r₂ hready =>
      -- nobody is through
      cases w with
      | chunk j => exact absurd hready (h.opening j).ne_nil
      | task j q' =>
          obtain ⟨b, bs, hc, hq'⟩ := h.tasks j q' (by simp)
          exact absurd hq' (hready b bs hc)

section Update

variable [DecidableEq J] {j : J}

theorem fork {b : Par P T Store O} {bs : List (Par P T Store O)} (h : PeerJam gets y q₀ adding)
    (hc : y.code j = b :: bs) (hb : b.threads ≠ [])
    (hroom : q₀.running.length < runtimeSize → gets j = true) :
    PeerJam gets y q₀ (Function.update adding j (some b.peers)) := by
  refine { h with forked := fun i l hl => ?_, room := fun hlt i l hl => ?_ }
  · by_cases hij : i = j
    · subst hij
      rw [Function.update_self] at hl
      exact ⟨b, bs, hc, hb, (Option.some.inj hl) ▸ List.Subset.refl _⟩
    · rw [Function.update_of_ne hij] at hl
      exact h.forked i l hl
  · by_cases hij : i = j
    · subst hij
      exact hroom hlt
    · rw [Function.update_of_ne hij] at hl
      exact h.room hlt i l hl

theorem add {q : P} {l : List P} (h : PeerJam gets y q₀ adding)
    (hadd : adding j = some (q :: l)) :
    PeerJam gets y { q₀ with queue := q₀.queue ++ [.task j q] }
      (Function.update adding j (some l)) := by
  obtain ⟨b, bs, hc, hb, hsub⟩ := h.forked j _ hadd
  refine { h with
    forked := fun i l' hl => ?_, tasks := fun i q' hmem => ?_, room := fun hlt i l' hl => ?_ }
  · by_cases hij : i = j
    · subst hij
      rw [Function.update_self] at hl
      obtain rfl := Option.some.inj hl
      exact ⟨b, bs, hc, hb, fun q' hq' => hsub (List.mem_cons_of_mem _ hq')⟩
    · rw [Function.update_of_ne hij] at hl
      exact h.forked i l' hl
  · simp only [List.mem_append, List.mem_singleton] at hmem
    rcases hmem with hmem | hmem | hmem
    · exact h.tasks i q' (List.mem_append_left _ hmem)
    · exact h.tasks i q' (List.mem_append_right _ hmem)
    · obtain ⟨rfl, rfl⟩ := Work.task.inj hmem
      exact ⟨b, bs, hc, hsub List.mem_cons_self⟩
  · by_cases hij : i = j
    · subst hij
      exact h.room hlt i _ hadd
    · rw [Function.update_of_ne hij] at hl
      exact h.room hlt i l' hl

omit [DecidableEq J] in
/-- The call of `par` does not return. -/
theorem not_wait (h : PeerJam gets y q₀ adding) (hinv : PeerInv y.code build q₀ adding)
    (hadd : adding j = some []) : ∃ q, .task j q ∈ q₀.running ++ q₀.queue := by
  obtain ⟨b, bs, hc, hb, -⟩ := h.forked j _ hadd
  obtain ⟨-, -, -, b', bs', hc', htasks, hcov⟩ := hinv.forks j _ hadd
  obtain ⟨rfl, -⟩ := List.cons.inj (hc.symm.trans hc')
  obtain ⟨th, hth⟩ := List.exists_mem_of_ne_nil _ hb
  obtain ⟨q, hq⟩ := Option.isSome_iff_exists.mp (htasks th hth)
  exact ⟨q, (hcov q (List.mem_filterMap.mpr ⟨th, hth, hq⟩)).resolve_left List.not_mem_nil⟩

/-- A pointer is posted. -/
theorem post [DecidableEq Id] {ident : P → Id} {l : List J} {z : Node P Id T Store O}
    (h : PeerJam gets y q₀ adding) (hinv : PeerInv y.code (j :: l) q₀ adding)
    (hp : Post ident (y.view j) z) : PeerJam gets (y.put j z) q₀ adding := by
  obtain ⟨hqueue, hrun, hnone⟩ := hinv.idle (List.cons_ne_nil _ _)
  cases hp with
  | mk hc _ =>
      refine { h with
        conn := h.conn, handler := h.handler, mailbox := h.mailbox, opening := fun i => ?_
        forked := fun i l hl => ?_, tasks := fun i q hmem => ?_ }
      · by_cases hij : i = j
        · subst hij
          have hopen := h.opening i
          rw [show y.code i = _ from hc] at hopen
          rw [Tasks.put_code_self]
          exact hopen.post
        · rw [Tasks.put_code_ne _ _ hij]
          exact h.opening i
      · rw [hnone i] at hl
        cases hl
      · rw [hqueue, hrun] at hmem
        exact absurd hmem List.not_mem_nil

/-- The thread of a chunk has gone past a section without tasks. -/
theorem join {t : T} {bs : List (Par P T Store O)} (h : PeerJam gets y q₀ adding)
    (hc : y.code j = ⟨t, []⟩ :: bs) :
    PeerJam gets (y.put j { y.view j with code := bs }) q₀ adding := by
  have hhead : ∀ {b bs'}, y.code j = b :: bs' → b.threads = [] := by
    intro b bs' hb
    obtain ⟨rfl, -⟩ := List.cons.inj (hb.symm.trans hc)
    rfl
  refine { h with
    conn := h.conn, handler := h.handler, mailbox := h.mailbox, opening := fun i => ?_
    forked := fun i l hl => ?_, tasks := fun i q hmem => ?_ }
  · by_cases hij : i = j
    · subst hij
      have hopen := h.opening i
      rw [hc] at hopen
      rw [Tasks.put_code_self]
      exact hopen.tail
    · rw [Tasks.put_code_ne _ _ hij]
      exact h.opening i
  · by_cases hij : i = j
    · subst hij
      obtain ⟨b, bs', hb, hne, -⟩ := h.forked i l hl
      exact absurd (hhead hb) hne
    · rw [Tasks.put_code_ne _ _ hij]
      exact h.forked i l hl
  · by_cases hij : i = j
    · subst hij
      obtain ⟨b, bs', hb, hq⟩ := h.tasks i q hmem
      rw [Par.peers, hhead hb] at hq
      exact absurd hq List.not_mem_nil
    · rw [Tasks.put_code_ne _ _ hij]
      exact h.tasks i q hmem

end Update

end PeerJam

/-! ## Runs that end in a jam -/

namespace AsyncState

variable [DecidableEq J] [DecidableEq P] [DecidableEq Id] {ident : P → Id} {gets : J → P → Bool}
  {x x' : AsyncState J P Id T O}

omit [DecidableEq J] [DecidableEq P] [DecidableEq Id] in
/-- Nobody has sent anything. -/
def Jam (gets : J → P → Bool) (x : AsyncState J P Id T O) : Prop :=
  ∀ p, PeerJam (fun j => gets j p) (x.peer p) (x.pool p) (x.adding p)

/-- What threads and handlers can do: the thread of a chunk goes past sections without tasks. -/
theorem Jam.run (h : Jam gets x) {y : P → Tasks J P Id T O} (hs : TStep ident x.May x.peer y) :
    ∃ p j t bs, (x.peer p).code j = ⟨t, []⟩ :: bs ∧
      y = Function.update x.peer p ((x.peer p).put j { (x.peer p).view j with code := bs }) := by
  cases hs with
  | @tau p j z hmay hn =>
      have hopen := (h p).opening j
      have hidle := (h p).handler
      have hthread : ∀ {t : T} {l₁ l₂ : List (Thread P T Store O)} {th : Thread P T Store O}
          {bs : List (Par P T Store O)}, ((x.peer p).view j).code = ⟨t, l₁ ++ th :: l₂⟩ :: bs →
          th.Opens (gets j p) := by
        intro t l₁ l₂ th bs hc
        rw [show (x.peer p).code j = _ from hc] at hopen
        exact hopen.thread
      cases hn with
      | join hc => exact ⟨p, j, _, _, hc, rfl⟩
      | mailGet hc hbox => exact absurd ((h p).mailbox _ _ ▸ hbox) (by simp)
      | mailGot hc | slotGet hc | slotWait hc | act hc | ret hc => exact (hthread hc).elim
      | @header s m ms hh hconn => exact absurd ((h p).conn s ▸ hconn) (by simp)
      | @mailPut s m hh | @slotTake s m ptr q hh | @body s m ptr hh | @slotPut s m ptr hh =>
          exact absurd ((hidle s).symm.trans hh) (by simp)
  | @send x₁ p id j m z hmay hn hx₁ =>
      -- who sends is a task at work, and these receive
      obtain ⟨w, hw, ha, -⟩ := hmay
      have hopen := (h p).opening j
      cases hn with
      | @send t l₁ l₂ bs _ name flags data hc =>
          rw [show (x.peer p).code j = _ from hc] at hopen ha
          obtain ⟨q, rfl⟩ := ha.task_of_opening hopen (by simp)
          have hsend : gets j p = false := hopen.thread
          rw [(h p).receives j q hw] at hsend
          cases hsend

omit [DecidableEq J] [DecidableEq Id] in
/-- One peer has moved. -/
theorem Jam.update (h : Jam gets x) {p : P} {y : Tasks J P Id T O} {q : Pool (Work J P)}
    {ad : J → Option (List P)} (hp : PeerJam (fun j => gets j p) y q ad) (build : P → List J) :
    Jam gets ⟨Function.update x.peer p y, build, Function.update x.pool p q,
      Function.update x.adding p ad⟩ := by
  intro p'
  by_cases hpp : p' = p
  · subst hpp
    simp only [Function.update_self]
    exact hp
  · simp only [Function.update_of_ne hpp]
    exact h p'

section Step

variable (h : Jam gets x)
  (hinv : ∀ p, PeerInv (x.peer p).code (x.build p) (x.pool p) (x.adding p))
include h

omit [DecidableEq J] [DecidableEq Id] in
theorem Jam.put {p : P} {y : Tasks J P Id T O}
    (hp : PeerJam (fun j => gets j p) y (x.pool p) (x.adding p)) :
    Jam gets { x with peer := Function.update x.peer p y } := by
  have hjam := h.update hp x.build
  rwa [Function.update_eq_self, Function.update_eq_self] at hjam

omit [DecidableEq J] [DecidableEq Id] in
theorem Jam.putPool {p : P} {q : Pool (Work J P)}
    (hp : PeerJam (fun j => gets j p) (x.peer p) q (x.adding p)) :
    Jam gets { x with pool := Function.update x.pool p q } := by
  have hjam := h.update hp x.build
  rwa [Function.update_eq_self, Function.update_eq_self] at hjam

omit [DecidableEq J] [DecidableEq Id] in
theorem Jam.putAdding {p : P} {ad : J → Option (List P)}
    (hp : PeerJam (fun j => gets j p) (x.peer p) (x.pool p) ad) :
    Jam gets { x with adding := Function.update x.adding p ad } := by
  have hjam := h.update hp x.build
  rwa [Function.update_eq_self, Function.update_eq_self] at hjam

omit [DecidableEq Id] in
theorem Jam.addTask {p q : P} {j : J} {l : List P} (hadd : x.adding p j = some (q :: l)) :
    Jam gets { x with
      pool := Function.update x.pool p { x.pool p with queue := (x.pool p).queue ++ [.task j q] }
      adding := Function.update x.adding p (Function.update (x.adding p) j (some l)) } := by
  have hjam := h.update ((h p).add hadd) x.build
  rwa [Function.update_eq_self] at hjam

include hinv

/-- Nothing is sent in a step, and a section is begun that may send only if no thread is free. -/
theorem Jam.step (hs : Step ident x x') :
    Jam gets x' ∨ ∃ p, x.build p = [] ∧ (x.pool p).running.length < runtimeSize := by
  cases hs with
  | @post p j l y hbuild hp =>
      have hpeer := hinv p
      rw [hbuild] at hpeer
      exact .inl (h.put ((h p).post hpeer hp))
  | built hbuild hposted => exact .inl h
  | @pool p q hbuild hq => exact .inl (h.putPool ((h p).pool (hinv p) hq))
  | @fork p j b bs hchunk hnone hc hb htasks =>
      by_cases hlt : (x.pool p).running.length < runtimeSize
      · refine .inr ⟨p, ?_, hlt⟩
        by_contra hne
        rw [((hinv p).idle hne).2.1] at hchunk
        exact absurd hchunk List.not_mem_nil
      · exact .inl (h.putAdding ((h p).fork hc hb fun hlt' => absurd hlt' hlt))
  | @add p q j l hadd => exact .inl (h.addTask hadd)
  | @wait p j hadd hno =>
      obtain ⟨q, hq⟩ := (h p).not_wait (hinv p) hadd
      exact absurd hq (hno q)
  | @run y ht =>
      obtain ⟨p, j, t, bs, hc, rfl⟩ := h.run ht
      exact .inl (h.put ((h p).join hc))

/-- **A pool fills up** while there are chunks and tasks that receive for all its threads. -/
theorem Jam.full [Fintype J] (hmin : ∀ x', Step ident x x' → ¬Jam gets x') {p : P}
    (hbuild : x.build p = [])
    (hcount : runtimeSize ≤ Fintype.card J + (Finset.univ.filter fun j => gets j p = true).card) :
    runtimeSize ≤ (x.pool p).running.length := by
  by_contra hlt
  rw [not_le] at hlt
  obtain ⟨hpend, hqueue, -⟩ := Pool.full_of_no_step fun _ hq =>
    hmin _ (.pool hbuild hq) (h.putPool ((h p).pool (hinv p) hq))
  have hnil : (x.pool p).queue = [] := by
    by_contra hne
    exact absurd (hqueue hne) (not_le.mpr hlt)
  have hchunk : ∀ j, .chunk j ∈ (x.pool p).running := by
    intro j
    have hmem := ((hinv p).todo j).resolve_right ((h p).opening j).ne_nil
    rwa [hnil, hpend, List.append_nil, List.append_nil] at hmem
  -- every chunk that receives first has got as far as to add all its tasks
  have hadded : ∀ j, gets j p = true → x.adding p j = some [] := by
    intro j hj
    rcases hadd : x.adding p j with _ | _ | ⟨q, l⟩
    · exfalso
      obtain ⟨pre, b, bs, hc, hpre, hne, hopens⟩ := (h p).opening j
      rcases pre with _ | ⟨⟨t, ths⟩, pre⟩
      · exact hmin _ (.fork (hchunk j) hadd hc hne fun th hth => (hopens th hth).isSome)
          (h.putAdding ((h p).fork hc hne fun _ => hj))
      · obtain rfl : ths = [] := hpre _ List.mem_cons_self
        have hmay : x.May p j (pre ++ b :: bs) :=
          ⟨.chunk j, hchunk j, by rw [hc]; exact .join, fun _ => hadd⟩
        exact hmin _ (.run (.tau (.inl hmay) (.join (x := (x.peer p).view j) hc)))
          (h.put ((h p).join hc))
    · rfl
    · exact (hmin _ (.add hadd) (h.addTask hadd)).elim
  have htask : ∀ j, gets j p = true → ∃ q, .task j q ∈ (x.pool p).running := by
    intro j hj
    obtain ⟨q, hq⟩ := (h p).not_wait (hinv p) (hadded j hj)
    rw [hnil, List.append_nil] at hq
    exact ⟨q, hq⟩
  have hsub : Finset.univ.disjSum (Finset.univ.filter fun j => gets j p = true) ⊆
      ((x.pool p).running.map Work.side).toFinset := by
    intro w hw
    rw [List.mem_toFinset, List.mem_map]
    rcases w with j | j
    · exact ⟨.chunk j, hchunk j, rfl⟩
    · rw [Finset.inr_mem_disjSum, Finset.mem_filter] at hw
      obtain ⟨q, hq⟩ := htask j hw.2
      exact ⟨.task j q, hq, rfl⟩
  have hcard := (Finset.card_le_card hsub).trans (List.toFinset_card_le _)
  rw [Finset.card_disjSum, Finset.card_univ, List.length_map] at hcard
  omega

end Step

section Exists

variable [LinearOrder T] [Fintype P] [Fintype J] {own : J → Bytes → Bool} {len : J → Bytes → ℕ}
  {R W : J → P → Addr → Prop} {full rest : J → P → List (Par P T Store O)} {mem : P → Memory.Mem}
  {order : List J}

/-- **Peers that starve**: when there are chunks and tasks that receive for all threads of every
pool, the peers can come into a state in which nothing can be done. -/
theorem exists_stuck (hplan : Plan ident own len R W full rest mem) (hall : ∀ j, j ∈ order)
    (hnodup : order.Nodup) (hopening : ∀ j p, Opening (gets j p) (rest j p))
    (hcount : ∀ p, runtimeSize ≤
      Fintype.card J + (Finset.univ.filter fun j => gets j p = true).card) :
    ∃ x : AsyncState J P Id T O, Reach ident rest mem order x ∧ (∀ x', ¬Step ident x x') ∧
      ∀ p j, (x.peer p).code j ≠ [] := by
  obtain ⟨x, ⟨hx, hjam⟩, hmin⟩ := (wf ident own R rest mem).has_min
    {x | Reach ident rest mem order x ∧ Jam gets x}
    ⟨start rest mem order, .refl, fun p => .start fun j => hopening j p⟩
  have hinv := hx.planned hplan hall hnodup
  have hno : ∀ x', Step ident x x' → ¬Jam gets x' :=
    fun x' hs hjam' => hmin x' ⟨hx.tail hs, hjam'⟩ ⟨hinv, hs⟩
  refine ⟨x, hx, fun x' hs => ?_, fun p j => ((hjam p).opening j).ne_nil⟩
  rcases hjam.step hinv.peer hs with hjam' | ⟨p, hbuild, hlt⟩
  · exact hno x' hs hjam'
  · exact absurd (hjam.full hinv.peer hno hbuild (hcount p)) (not_le.mpr hlt)

end Exists

end AsyncState

end StdmlCollective

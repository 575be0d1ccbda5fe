import StdmlCollective.ClientSend
import StdmlCollective.Lib.Links
import StdmlCollective.Lib.Threads

/-!
# The links that a client makes

What comes of threads that send through one client is a first-in first-out link for every target
(`Links`). A message is posted when the lock of the connection is taken for it, and taken when the
other end has handled it. Where no handler has to wait for a receive, no run gets stuck before every
message has been handled; and every run comes to an end.
-/

namespace StdmlCollective

namespace ClientRun

variable {ι : Type} {me : PeerId} {type : UInt16} {limit : ℕ} {s s' : ClientRun ι}
variable [DecidableEq ι] {i : ι} {r : PeerId} {p : Packet} {n : ℕ}
variable {net : Transport} {clean : Prop} {write : ℕ → ℕ → Prop} {listening : PeerId → Prop}

/-! ## The links -/

section Links

omit [DecidableEq ι]

/-- What has not been posted: where the call has not taken the lock, and the calls to come. -/
def unposted (s : ClientRun ι) (i : ι) : List (PeerId × Packet) :=
  (match s.caller i with
    | .require r p => [(r, p)]
    | .upgrade n _ p | .found n p => [((s.pipe n).remote, p)]
    | .idle | .sending _ => []) ++ s.todo i

/-- Some of the messages of the connection to `r`, if there is one. -/
def through (s : ClientRun ι) (f : Pipe ι → List (ι × Packet)) (r : PeerId) :
    List (ι × Packet) :=
  match s.conns r.hash with
  | some n => f (s.pipe n)
  | none => []

/-- The links that the connections make. -/
def links (s : ClientRun ι) : Links ι PeerId Packet :=
  ⟨s.unposted, s.through Pipe.left, s.through Pipe.done⟩

/-- The connections change, but not what has been sent and handled on those that are entered. -/
theorem through_congr {s s' : ClientRun ι} {f : Pipe ι → List (ι × Packet)}
    (hconns : ∀ key, s'.conns key = s.conns key)
    (hpipe : ∀ key n, s.conns key = some n → f (s'.pipe n) = f (s.pipe n)) :
    s'.through f = s.through f := by
  funext r
  rw [through, through, hconns]
  cases hr : s.conns r.hash with
  | none => rfl
  | some n => exact hpipe _ n hr

theorem links_congr {s s' : ClientRun ι} (htodo : ∀ i, s'.unposted i = s.unposted i)
    (hconns : ∀ key, s'.conns key = s.conns key)
    (hpipe : ∀ key n, s.conns key = some n →
      (s'.pipe n).left = (s.pipe n).left ∧ (s'.pipe n).done = (s.pipe n).done) :
    s'.links = s.links := by
  rw [links, links, funext htodo, through_congr hconns fun key n hn => (hpipe key n hn).1,
    through_congr hconns fun key n hn => (hpipe key n hn).2]

/-- Nothing but the bytes on the way, the lock and the other end change. -/
theorem links_setPipe {n : ℕ} {x : Pipe ι} (hremote : x.remote = (s.pipe n).remote)
    (hsent : x.sent = (s.pipe n).sent) (hhandled : x.handled = (s.pipe n).handled) :
    (s.setPipe n x).links = s.links := by
  refine links_congr (fun i => ?_) (fun key => rfl) fun key m _ => ?_
  · simp only [unposted, caller_setPipe, todo_setPipe, remote_setPipe hremote]
  · by_cases hm : m = n
    · subst hm
      simp [Pipe.left, Pipe.done, hsent, hhandled]
    · simp [hm]

end Links

omit [DecidableEq ι] in
/-- A thread that stays where it is has the same to post. -/
theorem Inv.unposted_congr (h : Inv me type limit s) {j : ι} (hcaller : s'.caller j = s.caller j)
    (htodo : s'.todo j = s.todo j)
    (hremote : ∀ m, m < s.dialled → (s'.pipe m).remote = (s.pipe m).remote) :
    s'.unposted j = s.unposted j := by
  rw [unposted, unposted, hcaller, htodo]
  cases hj : s.caller j with
  | upgrade m w q => simp [hremote m (h.dialling j m w q hj).1]
  | found m q => simp [hremote m (h.entered _ m (h.uses j m (by simp [hj, Caller.uses]))).1]
  | idle | require r q | sending m => rfl

theorem Inv.links_goTo (h : Inv me type limit s) {y : Caller}
    (hi : (s.goTo i y).unposted i = s.unposted i) : (s.goTo i y).links = s.links := by
  refine links_congr (fun j => ?_) (fun _ => rfl) fun _ _ _ => ⟨rfl, rfl⟩
  by_cases hj : j = i
  · subst hj
    exact hi
  · exact h.unposted_congr (by simp [hj]) rfl fun _ _ => rfl

omit [DecidableEq ι] in
/-- A connection on which nothing has been sent is entered. -/
theorem Inv.through_enter (h : Inv me type limit s) (hn : s.conns (s.pipe n).remote.hash = none)
    (hconns : s'.conns = Function.update s.conns (s.pipe n).remote.hash (some n))
    (hpipe : ∀ m, m ≠ n → s'.pipe m = s.pipe m) {f : Pipe ι → List (ι × Packet)}
    (hf : f (s'.pipe n) = []) : s'.through f = s.through f := by
  funext r
  rw [through, through, hconns]
  by_cases hr : r.hash = (s.pipe n).remote.hash
  · rw [hr, Function.update_self, hn]
    exact hf
  · rw [Function.update_of_ne hr]
    cases hm : s.conns r.hash with
    | none => rfl
    | some m =>
        have hmn : m ≠ n := by
          rintro rfl
          exact hr (h.entered _ _ hm).2.1.symm
        simp [hpipe m hmn]

omit [DecidableEq ι] in
/-- The messages under `r` when connection `n` is the only one that changes. -/
theorem Inv.through_setPipe (h : Inv me type limit s) {n : ℕ} {x : Pipe ι}
    (hn : s.conns (s.pipe n).remote.hash = some n) {f : Pipe ι → List (ι × Packet)} :
    (s.setPipe n x).through f =
      Function.update (s.through f) (s.pipe n).remote (f x) := by
  funext r
  by_cases hr : r = (s.pipe n).remote
  · subst hr
    simp [through, hn]
  · rw [Function.update_of_ne hr, through, through, conns_setPipe]
    cases hm : s.conns r.hash with
    | none => rfl
    | some m =>
        have hmn : m ≠ n := by
          rintro rfl
          exact hr (PeerId.hash_injective (h.entered _ _ hm).2.1).symm
        simp [hmn]

omit [DecidableEq ι] in
theorem through_of_entered {n : ℕ} (hn : s.conns (s.pipe n).remote.hash = some n)
    (f : Pipe ι → List (ι × Packet)) : s.through f (s.pipe n).remote = f (s.pipe n) := by
  rw [through, hn]

omit [DecidableEq ι] in
/-- A connection at which messages are handled is entered. -/
theorem Inv.entered_of_handle (h : Inv me type limit s) (hnet : net.Exact limit clean)
    (hfour : 8 < limit) (hn : n < s.dialled) {type' : UInt16} {src : PeerId}
    (hserver : (s.pipe n).server = .serving type' src) {frag : ℕ → ℕ} {d : Delivery}
    {rest : Socket} (hnext : handleNext net ⟨(s.pipe n).up, frag, 0⟩ = .ok (some d, rest)) :
    s.conns (s.pipe n).remote.hash = some n := by
  rcases h.known n hn with hk | ⟨j, w, q, hj⟩
  · exact hk
  · exact absurd hnext ((h.dialling j n w q hj).2.2.not_handle hnet hfour hserver)

omit [DecidableEq ι] in
/-- Connection `n` is the only one that changes. -/
theorem Inv.links_change (h : Inv me type limit s) (hn : s.conns (s.pipe n).remote.hash = some n)
    {x : Pipe ι} (hremote : x.remote = (s.pipe n).remote) :
    (s.setPipe n x).links = ⟨s.unposted, Function.update s.links.queue (s.pipe n).remote x.left,
      Function.update s.links.got (s.pipe n).remote x.done⟩ := by
  rw [links, h.through_setPipe hn, h.through_setPipe hn]
  congr 1
  funext j
  exact h.unposted_congr rfl rfl fun m _ => remote_setPipe hremote m

/-- **Every step posts a message, or takes one, or does neither.** -/
theorem Inv.simulates (h : Inv me type limit s) (hnet : net.Exact limit clean)
    (hl : limit ≤ 2 ^ 32) (hfour : 8 < limit) (hs : Step net write me type listening s s') :
    Relation.ReflGen Links.Step s.links s'.links := by
  -- a thread goes on, and what it has not posted stays the same
  have hstay : ∀ {s' : ClientRun ι}, s'.links = s.links →
      Relation.ReflGen Links.Step s.links s'.links := by
    intro s' heq
    rw [heq]
  cases hs with
  | @call i r p l hi htodo hmu =>
      refine hstay (links_congr (fun j => ?_) (fun _ => rfl) fun _ _ _ => ⟨rfl, rfl⟩)
      by_cases hj : j = i
      · subst hj
        simp [unposted, hi, htodo]
      · exact h.unposted_congr (by simp [hj]) (by simp [hj]) fun _ _ => rfl
  | @found i r p n hi hn =>
      refine hstay (links_congr (fun j => ?_) (fun _ => rfl) fun _ _ _ => ⟨rfl, rfl⟩)
      by_cases hj : j = i
      · subst hj
        simp [unposted, hi, PeerId.hash_injective (h.entered _ _ hn).2.1]
      · exact h.unposted_congr (by simp [hj]) rfl fun _ _ => rfl
  | @connect i r p hi hn _ =>
      refine hstay (links_congr (fun j => ?_) (fun _ => rfl) fun key m hm => ?_)
      · by_cases hj : j = i
        · subst hj
          simp [unposted, hi, Pipe.fresh]
        · exact h.unposted_congr (by simp [hj]) rfl fun m hm => by simp [hm.ne]
      · simp [(h.entered key m hm).1.ne]
  | @writeHeader i n k w p hi _ _ =>
      have hgo : (s.goTo i (.upgrade n (w.drop k) p)).links = s.links :=
        h.links_goTo (by simp [unposted, hi])
      refine hstay (Eq.trans ?_ hgo)
      exact links_setPipe rfl rfl rfl
  | readHeader _ _ _ => exact hstay (links_setPipe rfl rfl rfl)
  | writeAck _ _ _ _ => exact hstay (links_setPipe rfl rfl rfl)
  | serve _ _ => exact hstay (links_setPipe rfl rfl rfl)
  | @readAck i n p frag rest hi hread =>
      obtain ⟨-, hnone, hshake⟩ := h.dialling i n [] p hi
      have hthrough : ∀ f : Pipe ι → List (ι × Packet),
          f { s.pipe n with down := rest.bytes } = [] →
          ClientRun.through { (s.goTo i (.found n p)).setPipe n
            { s.pipe n with down := rest.bytes } with
            conns := Function.update s.conns (s.pipe n).remote.hash (some n), mu := none } f =
              s.through f := by
        intro f hf
        exact h.through_enter hnone rfl (fun m hm => by simp [hm]) (by simpa using hf)
      refine hstay ?_
      rw [links, links, hthrough _ (by simp [Pipe.left, hshake.sent]),
        hthrough _ (by simp [Pipe.done, hshake.sent])]
      congr 1
      funext j
      by_cases hj : j = i
      · subst hj
        simp [unposted, hi]
      · refine h.unposted_congr (by simp [hj]) rfl fun m _ => ?_
        exact remote_setPipe (s := s.goTo i (.found n p)) (by rfl) m
  | @lock i n p hi hfree =>
      have hn := h.uses i n (by simp [hi, Caller.uses])
      let x : Pipe ι :=
        { s.pipe n with holder := some (i, p.writes), sent := (s.pipe n).sent ++ [(i, p)] }
      obtain ⟨done, left, hsent, hhandled, -⟩ := (h.entered _ n hn).2.2.stream
      obtain ⟨hdone, hleft⟩ := Pipe.done_left hsent hhandled
      have hsent' : x.sent = done ++ (left ++ [(i, p)]) := by simp [x, hsent]
      obtain ⟨hdone', hleft'⟩ := Pipe.done_left hsent' hhandled
      have hunposted : ((s.goTo i (.sending n)).setPipe n x).unposted =
          Function.update s.unposted i (s.todo i) := by
        funext j
        by_cases hj : j = i
        · subst hj
          simp [unposted]
        · rw [Function.update_of_ne hj]
          exact h.unposted_congr (by simp [hj]) rfl fun m _ =>
            remote_setPipe (s := s.goTo i (.sending n)) (by rfl) m
      have hlinks : ((s.goTo i (.sending n)).setPipe n x).links =
          ⟨Function.update s.unposted i (s.todo i),
            Function.update (s.through Pipe.left) (s.pipe n).remote (left ++ [(i, p)]),
            s.through Pipe.done⟩ := by
        rw [links, hunposted, ← hleft', ← h.through_setPipe hn]
        congr 1
        refine (h.through_setPipe (x := x) hn (f := Pipe.done)).trans ?_
        rw [hdone', ← hdone, ← through_of_entered hn Pipe.done, Function.update_eq_self]
      have hpost := Links.Step.post (s := s.links) (i := i) (k := (s.pipe n).remote) (m := p)
        (l := s.todo i) (by simp [links, unposted, hi])
      rw [show s.links.queue (s.pipe n).remote = left from
        (through_of_entered hn _).trans hleft] at hpost
      exact .single (hlinks ▸ hpost)
  | write _ _ _ => exact hstay (links_setPipe rfl rfl rfl)
  | next _ => exact hstay (links_setPipe rfl rfl rfl)
  | @unlock i n hheld =>
      have hi := (h.sending i n).mpr ⟨[], hheld⟩
      have hgo : (s.goTo i .idle).links = s.links := h.links_goTo (by simp [unposted, hi])
      refine hstay (Eq.trans ?_ hgo)
      exact links_setPipe rfl rfl rfl
  | @handle n frag src d rest hlt hserver hnext =>
      have hn := h.entered_of_handle hnet hfour hlt hserver hnext
      obtain ⟨-, z, hleft, hdone⟩ := (h.entered _ n hn).2.2.handle hnet hl hfour hnext
      have htake := Links.Step.take (s := s.links) (k := (s.pipe n).remote)
        ((through_of_entered hn Pipe.left).trans hleft)
      have hlinks := h.links_change hn
        (x := { s.pipe n with up := rest.bytes, handled := (s.pipe n).handled ++ [d] }) rfl
      rw [hdone, ← through_of_entered hn Pipe.done] at hlinks
      exact .single (hlinks ▸ htake)

/-! ## Runs -/

/-- What the threads and the other ends can have done. -/
abbrev Reach (net : Transport) (write : ℕ → ℕ → Prop) (me : PeerId) (type : UInt16)
    (listening : PeerId → Prop) (todo : ι → List (PeerId × Packet)) : ClientRun ι → Prop :=
  Relation.ReflTransGen (Step net write me type listening) (start todo)

section Reach

variable {todo : ι → List (PeerId × Packet)}

theorem Reach.inv (h : Reach net write me type listening todo s) (hnet : net.Exact limit clean)
    (hl : limit ≤ 2 ^ 32) (hfour : 8 < limit) (hfits : ∀ i, ∀ y ∈ todo i, y.2.Fits limit) :
    Inv me type limit s := by
  induction h with
  | refl => exact .start hfits
  | tail _ hs ih => exact ih.step hnet hl hfour hs

/-- **A run of the client is a run of the links.** -/
theorem Reach.links (h : Reach net write me type listening todo s) (hnet : net.Exact limit clean)
    (hl : limit ≤ 2 ^ 32) (hfour : 8 < limit) (hfits : ∀ i, ∀ y ∈ todo i, y.2.Fits limit) :
    Links.Reach todo s.links := by
  induction h with
  | refl => exact .refl
  | tail h hs ih =>
      exact ih.trans ((Reach.inv h hnet hl hfour hfits).simulates hnet hl hfour hs).to_reflTransGen

end Reach

omit [DecidableEq ι] in
/-- A target has one connection. -/
theorem Inv.eq_of_remote (h : Inv me type limit s) {n m : ℕ} (hn : n < s.dialled)
    (hm : m < s.dialled) (hr : (s.pipe n).remote = (s.pipe m).remote) : n = m := by
  have hdial : ∀ {k}, s.conns (s.pipe k).remote.hash = none → k < s.dialled →
      ∃ i w p, s.caller i = .upgrade k w p := by
    intro k hnone hk
    rcases h.known k hk with he | hd
    · simp [hnone] at he
    · exact hd
  cases hc : s.conns (s.pipe n).remote.hash with
  | some k =>
      have hsame : ∀ {l}, l < s.dialled → s.conns (s.pipe l).remote.hash = some k → l = k := by
        intro l hl hlk
        rcases h.known l hl with he | ⟨i, w, p, hi⟩
        · exact Option.some.inj (he.symm.trans hlk)
        · simp [(h.dialling i l w p hi).2.1] at hlk
      rw [hsame hn hc, hsame hm (hr ▸ hc)]
  | none =>
      obtain ⟨i, w, p, hi⟩ := hdial hc hn
      obtain ⟨j, w', q, hj⟩ := hdial (hr ▸ hc) hm
      exact (h.dials_unique hi hj).2.symm

omit [DecidableEq ι] in
/-- What the other end has handled is what has been taken from the link, and it has been told who
the peer is. -/
theorem Inv.handled (h : Inv me type limit s) {n : ℕ} (hn : n < s.dialled) :
    (s.pipe n).handled = (s.links.got (s.pipe n).remote).map (fun y => y.2.delivery) ∧
      ∀ type' src, (s.pipe n).server = .serving type' src → type' = type ∧ src = me := by
  rcases h.known n hn with he | ⟨i, w, p, hi⟩
  · obtain ⟨-, -, hopen⟩ := h.entered _ n he
    obtain ⟨done, left, hsent, hhandled, -⟩ := hopen.stream
    refine ⟨?_, fun type' src hserver => ?_⟩
    · rw [show s.links.got _ = _ from through_of_entered he _, (Pipe.done_left hsent hhandled).1,
        hhandled]
    · rcases hopen.server with hs | hs <;> simp_all
  · obtain ⟨-, hnone, hshake⟩ := h.dialling i n w p hi
    refine ⟨?_, fun type' src hserver => ?_⟩
    · simp [links, through, hnone, hshake.handled]
    · rcases hshake.stage with ⟨hs, -⟩ | ⟨-, -, a, -, hs | ⟨-, hs⟩⟩ <;> simp_all

omit [DecidableEq ι] in
/-- Nothing has been taken from a link without a connection. -/
theorem Inv.got_of_none (h : Inv me type limit s)
    (hr : ∀ n, n < s.dialled → (s.pipe n).remote ≠ r) : s.links.got r = [] := by
  change s.through Pipe.done r = []
  rw [through]
  cases hn : s.conns r.hash with
  | none => rfl
  | some n =>
      obtain ⟨hlt, hkey, -⟩ := h.entered _ n hn
      exact absurd (PeerId.hash_injective hkey) (hr n hlt)

/-- All calls have returned, and all messages have been handled. -/
def Done (s : ClientRun ι) : Prop :=
  (∀ i, s.caller i = .idle ∧ s.todo i = []) ∧ ∀ n, n < s.dialled → (s.pipe n).left = []

/-- A thread that dials, or the other end, can go on. -/
theorem Inv.dial_step (h : Inv me type limit s) (hnet : net.Exact limit clean) (hfour : 8 < limit)
    (hwrite : ∀ n, 0 < n → ∃ k, write k n) {w : Bytes} (hi : s.caller i = .upgrade n w p) :
    ∃ s', Step net write me type listening s s' := by
  obtain ⟨hlt, -, hshake⟩ := h.dialling i n w p hi
  rcases hshake.stage with ⟨hserver, hup, -⟩ | ⟨rfl, -, a, hdown, hserver | ⟨rfl, hserver⟩⟩
  · by_cases hw : w = []
    · subst hw
      rw [List.append_nil] at hup
      have hbytes : (s.pipe n).up = connHeader type me ++ [] := by simpa using hup
      obtain ⟨rest, hread, -⟩ := readConnHeader_append hnet hfour
        (s := ⟨(s.pipe n).up, fun _ => 0, 0⟩) hbytes
      exact ⟨_, .readHeader hlt hserver hread⟩
    · obtain ⟨k, hk⟩ := hwrite w.length (List.length_pos_of_ne_nil hw)
      exact ⟨_, .writeHeader hi hw hk⟩
  · by_cases ha : a = []
    · subst ha
      exact ⟨_, .serve hlt hserver⟩
    · obtain ⟨k, hk⟩ := hwrite a.length (List.length_pos_of_ne_nil ha)
      exact ⟨_, .writeAck hlt hserver ha hk⟩
  · have hbytes : (s.pipe n).down = connectionAck ++ [] := by simpa using hdown
    obtain ⟨rest, hread, -⟩ := readAck_append hnet hfour
      (s := ⟨(s.pipe n).down, fun _ => 0, 0⟩) hbytes
    exact ⟨_, .readAck hi hread⟩

omit [DecidableEq ι] in
/-- Whoever holds the lock of a connection can go on. -/
theorem exists_step_of_holder [DecidableEq ι] (hwrite : ∀ n, 0 < n → ∃ k, write k n)
    {ws : List Bytes} (hheld : (s.pipe n).holder = some (i, ws)) :
    ∃ s', Step net write me type listening s s' := by
  cases ws with
  | nil => exact ⟨_, .unlock hheld⟩
  | cons w ws =>
      by_cases hw : w = []
      · subst hw
        exact ⟨_, .next hheld⟩
      · obtain ⟨k, hk⟩ := hwrite w.length (List.length_pos_of_ne_nil hw)
        exact ⟨_, .write hheld hw hk⟩

/-- A message of which nothing is left to be written can be handled. -/
theorem Inv.handle_step (h : Inv me connCollective limit s) (hnet : net.Exact limit clean)
    (hl : limit ≤ 2 ^ 32) (hn : s.conns (s.pipe n).remote.hash = some n)
    (hfree : (s.pipe n).holder = none) (hleft : (s.pipe n).left ≠ []) :
    ∃ s', Step net write me connCollective listening s s' := by
  obtain ⟨hlt, -, hopen⟩ := h.entered _ n hn
  rcases hopen.server with hserver | hserver
  · exact ⟨_, .serve hlt hserver⟩
  · obtain ⟨done, left, hsent, hhandled, hstream⟩ := hopen.stream
    rw [(Pipe.done_left hsent hhandled).2] at hleft
    obtain ⟨z, left, rfl⟩ := List.exists_cons_of_ne_nil hleft
    rw [Pipe.rest_of_none hfree, List.append_nil, List.flatMap_cons] at hstream
    have hz := hopen.fits z (by simp [hsent])
    obtain ⟨rest, hnext, -⟩ :=
      hz.handleNext_append hl hnet (s := ⟨(s.pipe n).up, fun _ => 0, 0⟩) hstream
    exact ⟨_, .handle hlt hserver hnext⟩

/-- **No state before the end is stuck**, when the servers of all targets are up. -/
theorem Inv.progress (h : Inv me connCollective limit s) (hnet : net.Exact limit clean)
    (hl : limit ≤ 2 ^ 32) (hfour : 8 < limit) (hwrite : ∀ n, 0 < n → ∃ k, write k n)
    (hup : ∀ i, ∀ y ∈ s.unposted i, listening y.1) (hdone : ¬s.Done) :
    ∃ s', Step net write me connCollective listening s s' := by
  by_contra hstuck
  have hdial : ∀ i n w p, s.caller i ≠ .upgrade n w p := fun i n w p hi =>
    hstuck (h.dial_step hnet hfour hwrite hi)
  have hfree : ∀ n, (s.pipe n).holder = none := by
    intro n
    cases hheld : (s.pipe n).holder with
    | none => rfl
    | some y => exact absurd (exists_step_of_holder hwrite hheld) hstuck
  have hidle : ∀ i, s.caller i = .idle := by
    intro i
    cases hi : s.caller i with
    | idle => rfl
    | require r p =>
        cases hr : s.conns r.hash with
        | some n => exact absurd ⟨_, .found hi hr⟩ hstuck
        | none =>
            exact absurd ⟨_, .connect hi hr (hup i (r, p) (by simp [unposted, hi]))⟩ hstuck
    | upgrade n w p => exact absurd hi (hdial i n w p)
    | found n p => exact absurd ⟨_, .lock hi (hfree n)⟩ hstuck
    | sending n =>
        obtain ⟨ws, hheld⟩ := (h.sending i n).mp hi
        simp [hfree] at hheld
  have hmu : s.mu = none := by
    cases hm : s.mu with
    | none => rfl
    | some i =>
        have := (h.holds i).mpr hm
        simp [hidle, Caller.Holds] at this
  refine hdone ⟨fun i => ⟨hidle i, ?_⟩, fun n hn => ?_⟩
  · by_contra htodo
    obtain ⟨⟨r, p⟩, l, htodo⟩ := List.exists_cons_of_ne_nil htodo
    exact hstuck ⟨_, .call (hidle i) htodo hmu⟩
  · by_contra hleft
    rcases h.known n hn with he | ⟨i, w, p, hi⟩
    · exact hstuck (h.handle_step hnet hl he (hfree n) hleft)
    · exact hdial i n w p hi

end ClientRun

/-! ## The end of a run -/

/-- How many steps a thread can still cause with this call. -/
def Caller.weight : Caller → ℕ
  | .idle => 0
  | .require _ p => p.encode.length + 23
  | .upgrade _ w p => p.encode.length + 7 + w.length
  | .found _ p => p.encode.length + 6
  | .sending _ => 1

/-- How many steps the other end has to take before it reads messages. -/
def ServerEnd.weight : ServerEnd → ℕ
  | .reading => 7
  | .acking _ _ a => a.length + 2
  | .serving _ _ => 0

/-- How many steps are left on a connection. -/
def Pipe.weight {ι : Type} (x : Pipe ι) : ℕ :=
  x.server.weight + x.left.length +
    match x.holder with
    | some (_, ws) => ws.flatten.length + ws.length + 1
    | none => 0

namespace ClientRun

variable {ι : Type} {me : PeerId} {type : UInt16} {limit : ℕ} {s s' : ClientRun ι}
variable [DecidableEq ι] {i : ι} {r : PeerId} {p : Packet} {n : ℕ}
variable {net : Transport} {clean : Prop} {write : ℕ → ℕ → Prop} {listening : PeerId → Prop}

section Weight

open Threads

variable [Fintype ι]

/-- How many steps a client has still to take. -/
def weight (s : ClientRun ι) : ℕ :=
  total Caller.weight s.caller +
    total (fun l => (l.map fun y : PeerId × Packet => y.2.encode.length + 24).sum) s.todo +
    ∑ n ∈ Finset.range s.dialled, (s.pipe n).weight

omit [DecidableEq ι] in
/-- A connection that exists changes. -/
theorem weight_setPipe (hn : n < s.dialled) (x : Pipe ι) :
    (s.setPipe n x).weight + (s.pipe n).weight = s.weight + x.weight := by
  have hsum := sum_update Pipe.weight s.pipe (Finset.mem_range.mpr hn) x
  simp only [weight, setPipe]
  omega

omit [DecidableEq ι] in
/-- A connection is made. -/
theorem weight_dial (x : Pipe ι) :
    ClientRun.weight { s.setPipe s.dialled x with dialled := s.dialled + 1 } =
      s.weight + x.weight := by
  have hold : ∑ m ∈ Finset.range s.dialled, (Function.update s.pipe s.dialled x m).weight =
      ∑ m ∈ Finset.range s.dialled, (s.pipe m).weight := by
    refine Finset.sum_congr rfl fun m hm => ?_
    rw [Function.update_of_ne (Finset.mem_range.mp hm).ne]
  simp only [weight, setPipe, Finset.sum_range_succ, hold, Function.update_self]
  omega

theorem weight_goTo (y : Caller) :
    (s.goTo i y).weight + (s.caller i).weight = s.weight + y.weight := by
  have hsum := total_update Caller.weight s.caller i y
  simp only [weight, goTo]
  omega

omit [DecidableEq ι] in
theorem weight_setPipe_lt {x : Pipe ι} (hn : n < s.dialled) (hx : x.weight < (s.pipe n).weight) :
    (s.setPipe n x).weight < s.weight := by
  have hpipe := weight_setPipe hn x
  omega

/-- A thread goes on, and the connection it uses changes. -/
theorem weight_move {y : Caller} {x : Pipe ι} (hn : n < s.dialled)
    (hx : y.weight + x.weight < (s.caller i).weight + (s.pipe n).weight) :
    ((s.goTo i y).setPipe n x).weight < s.weight := by
  have hgo := weight_goTo (s := s) (i := i) y
  have hpipe := weight_setPipe (s := s.goTo i y) hn x
  rw [pipe_goTo] at hpipe
  omega

/-- What is written gets shorter. -/
theorem length_drop_lt {k : ℕ} {w : Bytes} (hk : 0 < k) (hw : w ≠ []) :
    (w.drop k).length < w.length := by
  have := List.length_pos_of_ne_nil hw
  rw [List.length_drop]
  omega

/-- **Every step leaves less to be done.** -/
theorem Inv.weight_step (h : Inv me type limit s) (hnet : net.Exact limit clean)
    (hl : limit ≤ 2 ^ 32) (hfour : 8 < limit) (hwrite : ∀ k n, write k n → 0 < k)
    (hs : Step net write me type listening s s') : s'.weight < s.weight := by
  have hheld : ∀ {i n ws}, (s.pipe n).holder = some (i, ws) → n < s.dialled := by
    intro i n ws hheld
    have hi := (h.sending i n).mpr ⟨ws, hheld⟩
    exact (h.entered _ n (h.uses i n (by simp [hi, Caller.uses]))).1
  cases hs with
  | @call i r p l hi htodo hmu =>
      have hsum := total_update
        (fun l => (l.map fun y : PeerId × Packet => y.2.encode.length + 24).sum) s.todo i l
      have hgo := weight_goTo (s := s) (i := i) (.require r p)
      simp only [hi, htodo, Caller.weight, List.map_cons, List.sum_cons, weight, goTo] at hsum hgo ⊢
      omega
  | @found i r p n hi hn =>
      have hgo := weight_goTo (s := s) (i := i) (.found n p)
      simp only [hi, Caller.weight, weight] at hgo ⊢
      omega
  | @connect i r p hi hn _ =>
      have hgo := weight_goTo (s := s) (i := i) (.upgrade s.dialled (connHeader type me) p)
      have hdial := weight_dial (s := s.goTo i (.upgrade s.dialled (connHeader type me) p))
        (.fresh r)
      have hfresh : (Pipe.fresh r : Pipe ι).weight = 7 := rfl
      simp only [hi, Caller.weight, length_connHeader] at hgo
      rw [dialled_goTo] at hdial
      omega
  | @writeHeader i n k w p hi hw hk =>
      have hlt := length_drop_lt (hwrite _ _ hk) hw
      refine weight_move (h.dialling i n w p hi).1 ?_
      simp only [hi, Caller.weight, Pipe.weight, Pipe.left]
      omega
  | readHeader hn hserver _ =>
      refine weight_setPipe_lt hn ?_
      simp [Pipe.weight, Pipe.left, hserver, ServerEnd.weight, connectionAck]
  | @writeAck n k w type' src hn hserver hw hk =>
      have hlt := length_drop_lt (hwrite _ _ hk) hw
      refine weight_setPipe_lt hn ?_
      simp only [Pipe.weight, Pipe.left, hserver, ServerEnd.weight]
      omega
  | serve hn hserver =>
      refine weight_setPipe_lt hn ?_
      simp [Pipe.weight, Pipe.left, hserver, ServerEnd.weight]
  | @readAck i n p frag rest hi _ =>
      refine weight_move (y := .found n p) (h.dialling i n [] p hi).1 ?_
      simp [hi, Caller.weight, Pipe.weight, Pipe.left]
  | @lock i n p hi hfree =>
      have hn := h.entered _ n (h.uses i n (by simp [hi, Caller.uses]))
      obtain ⟨done, left, hsent, hhandled, -⟩ := hn.2.2.stream
      refine weight_move hn.1 ?_
      simp only [hi, Caller.weight, Pipe.weight, Pipe.left, hfree, hsent, hhandled, Packet.writes,
        Packet.encode, List.length_drop, List.length_append, List.length_map, List.length_cons,
        List.length_nil, List.flatten_cons, List.flatten_nil]
      omega
  | @write i n k w ws hi hw hk =>
      have hlt := length_drop_lt (hwrite _ _ hk) hw
      refine weight_setPipe_lt (hheld hi) ?_
      simp only [Pipe.weight, Pipe.left, hi, List.flatten_cons, List.length_append,
        List.length_cons]
      omega
  | next hi =>
      refine weight_setPipe_lt (hheld hi) ?_
      simp [Pipe.weight, Pipe.left, hi]
  | @unlock i n hi =>
      refine weight_move (hheld hi) ?_
      simp only [Pipe.weight, Pipe.left, hi, (h.sending i n).mpr ⟨[], hi⟩, Caller.weight,
        List.flatten_nil, List.length_nil]
      omega
  | @handle n frag src d rest hlt hserver hnext =>
      have hn := h.entered_of_handle hnet hfour hlt hserver hnext
      obtain ⟨-, z, hleft, -⟩ := (h.entered _ n hn).2.2.handle hnet hl hfour hnext
      refine weight_setPipe_lt hlt ?_
      simp only [Pipe.weight, hleft, List.length_cons]
      omega

/-- **Every run ends.** -/
theorem Reach.acc {todo : ι → List (PeerId × Packet)}
    (h : Reach net write me type listening todo s) (hnet : net.Exact limit clean)
    (hl : limit ≤ 2 ^ 32) (hfour : 8 < limit) (hfits : ∀ i, ∀ y ∈ todo i, y.2.Fits limit)
    (hwrite : ∀ k n, write k n → 0 < k) :
    Acc (fun y x => Step net write me type listening x y) s := by
  generalize hw : s.weight = w
  induction w using Nat.strong_induction_on generalizing s with
  | _ w ih =>
      refine Acc.intro _ fun s' hs => ?_
      have hlt := (Reach.inv h hnet hl hfour hfits).weight_step hnet hl hfour hwrite hs
      exact ih _ (hw ▸ hlt) (h.tail hs) rfl

end Weight

section Exact

variable {todo : ι → List (PeerId × Packet)}

/-- The targets of what has not been posted are up. -/
theorem Reach.targets_up (hs : Reach net write me type listening todo s)
    (hnet : net.Exact limit clean) (hl : limit ≤ 2 ^ 32) (hfour : 8 < limit)
    (hfits : ∀ i, ∀ y ∈ todo i, y.2.Fits limit) (hup : ∀ i, ∀ y ∈ todo i, listening y.1) (i : ι) :
    ∀ y ∈ s.unposted i, listening y.1 := by
  intro y hy
  exact hup i y (Links.Reach.mem_todo (Reach.links hs hnet hl hfour hfits) hy)

/-- At the end every target has handled all that every thread has sent to it. -/
theorem all_of_done (hs : Reach net write me type listening todo s)
    (hnet : net.Exact limit clean) (hl : limit ≤ 2 ^ 32) (hfour : 8 < limit)
    (hfits : ∀ i, ∀ y ∈ todo i, y.2.Fits limit) (hdone : s.Done) (i : ι) (r : PeerId) :
    Links.select i (s.links.got r) = Links.select r (todo i) := by
  refine Links.Reach.all (Reach.links hs hnet hl hfour hfits) ?_ ?_
  · simp [links, unposted, hdone.1 i]
  · change s.through Pipe.left r = []
    rw [through]
    cases hr : s.conns r.hash with
    | none => rfl
    | some n =>
        exact hdone.2 n ((Reach.inv hs hnet hl hfour hfits).entered _ n hr).1

/-- A run can be carried to its end. -/
theorem Reach.exists_done [Fintype ι] (hs : Reach net write me connCollective listening todo s)
    (hnet : net.Exact limit clean) (hl : limit ≤ 2 ^ 32) (hfour : 8 < limit)
    (hfits : ∀ i, ∀ y ∈ todo i, y.2.Fits limit) (hwrite : ∀ k n, write k n → 0 < k)
    (hsome : ∀ n, 0 < n → ∃ k, write k n) (hup : ∀ i, ∀ y ∈ todo i, listening y.1) :
    ∃ s', Reach net write me connCollective listening todo s' ∧ s'.Done := by
  induction Reach.acc hs hnet hl hfour hfits hwrite with
  | intro s _ ih =>
      by_cases hdone : s.Done
      · exact ⟨s, hs, hdone⟩
      · obtain ⟨s', hstep⟩ := (Reach.inv hs hnet hl hfour hfits).progress hnet hl hfour hsome
          (Reach.targets_up hs hnet hl hfour hfits hup) hdone
        exact ih s' hstep (hs.tail hstep)

/-- **Threads that send through one client use one link for every target.** Every target has one
connection; its server knows whose it is; what it has handled is, from every thread, what the
thread sends to it first; and every run is a run of first-in first-out links. -/
theorem client_links (hnet : net.Exact limit clean) (hl : limit ≤ 2 ^ 32) (hfour : 8 < limit)
    (hfits : ∀ i, ∀ y ∈ todo i, y.2.Fits limit)
    (hs : Reach net write me type listening todo s) :
    Links.Reach todo s.links ∧
      (∀ n m, n < s.dialled → m < s.dialled → (s.pipe n).remote = (s.pipe m).remote → n = m) ∧
      ∀ n, n < s.dialled →
        (s.pipe n).handled = (s.links.got (s.pipe n).remote).map (fun y => y.2.delivery) ∧
          (∀ type' src, (s.pipe n).server = .serving type' src → type' = type ∧ src = me) ∧
          ∀ i, Links.select i (s.links.got (s.pipe n).remote) <+:
            Links.select (s.pipe n).remote (todo i) := by
  have hinv := Reach.inv hs hnet hl hfour hfits
  have hlinks := Reach.links hs hnet hl hfour hfits
  refine ⟨hlinks, fun n m hn hm => hinv.eq_of_remote hn hm, fun n hn => ?_⟩
  obtain ⟨hhandled, hserver⟩ := hinv.handled hn
  exact ⟨hhandled, hserver, fun i => Links.Reach.ordered hlinks i _⟩

end Exact

/-- Two threads that both send the message to two targets. -/
def smallTodo : Bool → List (PeerId × Packet) := fun _ =>
  [(⟨1, 1⟩, Sender.small), (⟨2, 2⟩, Sender.small)]

theorem smallTodo_fits (i : Bool) : ∀ y ∈ smallTodo i, y.2.Fits (2 ^ 32) := by
  have hsmall := (Sender.twoThreads_fits true _ (List.mem_singleton_self _)).mono
    (by omega : 2 ^ 31 ≤ 2 ^ 32)
  simp only [smallTodo, List.mem_cons, List.not_mem_nil, or_false]
  rintro y (rfl | rfl) <;> exact hsmall

/-- The two threads come to an end. -/
theorem exists_smallDone : ∃ s, Reach Cxx20.transport writeSome ⟨3, 3⟩ connCollective
    (fun _ => True) smallTodo s ∧ s.Done :=
  Reach.exists_done .refl (Cxx20.exact (2 ^ 32)) le_rfl (by omega) smallTodo_fits
    (fun _ _ h => h.1) (fun n hn => ⟨n, hn, le_rfl⟩) fun _ _ _ => trivial

theorem client_links_small : ∃ s, Reach Cxx20.transport writeSome ⟨3, 3⟩ connCollective
    (fun _ => True) smallTodo s ∧ s.Done ∧ Links.Reach smallTodo s.links := by
  obtain ⟨s, hs, hdone⟩ := exists_smallDone
  exact ⟨s, hs, hdone,
    (client_links (Cxx20.exact (2 ^ 32)) le_rfl (by omega) smallTodo_fits hs).1⟩

end ClientRun

end StdmlCollective

import StdmlCollective.Chunks
import StdmlCollective.Refine.Isolation

/-!
# Every order of arrival

The leaves of a star send without waiting for anybody, so their inputs can arrive at the root in
any order, and the root adds them in the order of their arrival. Once it has settled on a value its
own memory does not change any more. So for every order there is a run in which the root ends with
what it settles on when the inputs come in this order.
-/

namespace StdmlCollective

open BlockNet

/-! ## A message that is taken at once -/

section Take

variable {P Id T S O : Type} [DecidableEq P] [DecidableEq Id] {ident : P → Id}
  {write : Addr → Bytes → S → S}

theorem NStep.of_eq {p : P} {x y z : Node P Id T S O} {e : Event P T}
    (h : NStep ident write p x e y) (hz : z = y) : NStep ident write p x e z := hz ▸ h

/-- A node that has nothing else to deal with hands a message to the thread that waits for it. -/
theorem NRun.take_mail {p q : P} {m : Message P T} (hm : m.waits = false) {t : T}
    {l₁ l₂ : List (Thread P T S O)} {add : Bytes → S → S} {bs : List (Par P T S O)} (τ : S) :
    NRun ident write p
      ((Node.fresh (⟨t, l₁ ++ .mailGet q m.name add :: l₂⟩ :: bs) τ).receive q m)
      (Node.fresh (⟨t, l₁ ++ l₂⟩ :: bs) (add m.data τ)) := by
  have hconn : ((Node.fresh (⟨t, l₁ ++ .mailGet q m.name add :: l₂⟩ :: bs) τ :
      Node P Id T S O).receive q m).conn q = m :: [] := by simp [Node.receive, Node.fresh]
  have htake : Handler.take m = .mail m := by simp [Handler.take, hm]
  refine (((Relation.ReflTransGen.single (NStep.header rfl hconn)).tail
    (NStep.mailPut (s := q) (m := m) ?_ ?_)).tail (NStep.mailGet (m := m) (q := []) rfl ?_)).tail ?_
  · simp [htake]
  · simp [Node.receive, Node.fresh, cap]
  · simp [Node.receive, Node.fresh]
  · refine NStep.of_eq (NStep.mailGot rfl) ?_
    simp [Node.receive, Node.fresh, setBox_nil]

end Take

/-! ## The root hears from the leaves -/

section Star

variable {T O : Type} {n : ℕ} {root : Fin n} {w : Fin n → Workspace} {name : Bytes}
  {f : ℕ → ℕ → ℕ} {lab : ℕ → T} {σ : Fin n → Store} {ident : Fin n → PeerId}

/-- What the root does when it has heard from all leaves. -/
def rootRest (lab : ℕ → T) (root : Fin n) (u : Workspace) : List (Par (Fin n) T Store O) :=
  [⟨lab 3, []⟩, ⟨lab 4, [.act u.settle]⟩, ⟨lab 5, (others root).map (sendTask u false)⟩]

/-- What a leaf does when it has sent its input. -/
def leafRest (lab : ℕ → T) (root : Fin n) (u : Workspace) : List (Par (Fin n) T Store O) :=
  [⟨lab 5, [.slotGet root u.name u.recv]⟩, ⟨lab 6, []⟩]

theorem starRun_root (lab : ℕ → T) (root : Fin n) (w : Fin n → Workspace) :
    (starRun lab id some root w root : List (Par (Fin n) T Store O)) =
      ⟨lab 0, [.act (w root).start]⟩ :: ⟨lab 2, (others root).map (recvTask (w root) true)⟩ ::
        rootRest lab root (w root) := by
  rw [starRun_role, Role.run_eq]
  simp [starRole, starLab, Role.middle, rootRest]

theorem starRun_leaf (lab : ℕ → T) {v : Fin n} (hv : v ≠ root) (w : Fin n → Workspace) :
    (starRun lab id some root w v : List (Par (Fin n) T Store O)) =
      ⟨lab 0, [.act (w v).start]⟩ :: ⟨lab 1, []⟩ :: ⟨lab 2, [sendTask (w v) true root]⟩ ::
        leafRest lab root (w v) := by
  rw [starRun_role, Role.run_eq]
  simp [starRole, starLab, Role.middle, leafRest, hv]

/-- What leaf `q` sends. -/
def leafData (w : Fin n → Workspace) (σ : Fin n → Store) (q : Fin n) : Bytes :=
  (w q).payload ((w q).start (σ q))

/-- The root has heard from the leaves `l`, in this order, and waits for the leaves `rem`; these
have not begun. -/
structure Heard (lab : ℕ → T) (root : Fin n) (w : Fin n → Workspace) (f : ℕ → ℕ → ℕ)
    (σ : Fin n → Store) (c : Cluster (Fin n) PeerId T Store O) (rem l : List (Fin n)) : Prop where
  perm : (rem ++ l).Perm (others root)
  atRoot : ∃ τ, (w root).Added f (σ root).mem (l.map (leafData w σ)) τ ∧ c root =
    Node.fresh (⟨lab 2, rem.map (recvTask (w root) true)⟩ :: rootRest lab root (w root)) τ
  atLeaf : ∀ v ∈ rem, c v = Node.fresh (starRun lab id some root w v) (σ v)

theorem Heard.ne {c : Cluster (Fin n) PeerId T Store O} {rem l : List (Fin n)}
    (h : Heard lab root w f σ c rem l) {q : Fin n} (hq : q ∈ rem) : q ≠ root :=
  mem_others.mp (h.perm.subset (List.mem_append_left _ hq))

variable [LinearOrder T]

/-- The states of a star. -/
abbrev StarReach (ident : Fin n → PeerId) (lab : ℕ → T) (root : Fin n) (w : Fin n → Workspace)
    (σ : Fin n → Store) (c : Cluster (Fin n) PeerId T Store O) : Prop :=
  CReach ident Store.writeBody (starRun lab id some root w) σ c

/-- The next leaf is heard. -/
theorem Heard.step (hw : SameWork w name f) (hsep : (w root).Separate)
    {c : Cluster (Fin n) PeerId T Store O} {a b l : List (Fin n)} {q : Fin n}
    (hc : StarReach ident lab root w σ c) (h : Heard lab root w f σ c (a ++ q :: b) l) :
    ∃ c' : Cluster (Fin n) PeerId T Store O,
      StarReach ident lab root w σ c' ∧ Heard lab root w f σ c' (a ++ b) (l ++ [q]) := by
  have hq := h.ne (List.mem_append_right _ List.mem_cons_self)
  obtain ⟨τ, hτ, hroot⟩ := h.atRoot
  have hleaf := h.atLeaf q (List.mem_append_right _ List.mem_cons_self)
  -- the leaf goes on until it sends
  have hrun : NRun ident Store.writeBody q (c q) (Node.fresh
      (⟨lab 2, [sendTask (w q) true root]⟩ :: leafRest lab root (w q)) ((w q).start (σ q))) := by
    rw [hleaf, starRun_leaf lab hq]
    exact (NRun.act rfl).tail (.join rfl)
  have hc₁ := hc.node hrun
  obtain ⟨c₂, hc₂, hroot₂, hrest₂⟩ := hc₁.send_to hq.symm (by rw [Function.update_self]; rfl)
  rw [Function.update_of_ne hq.symm, Function.update_self, hroot] at hroot₂
  -- the root takes what it has been sent
  have hname : cStr (w q).name = (w root).name := by
    rw [cStr_eq_self (hw.nulFree' q), hw.name_eq, hw.name_eq]
  have hget : (recvTask (w root) true q : Thread (Fin n) T Store O) =
      .mailGet q (cStr (w q).name) ((w root).addTo f) := by
    rw [hname]
    simp [recvTask, hw.op root]
  have htake : NRun ident Store.writeBody root (c₂ root)
      (Node.fresh (⟨lab 2, (a ++ b).map (recvTask (w root) true)⟩ :: rootRest lab root (w root))
        ((w root).addTo f (leafData w σ q) τ)) := by
    rw [hroot₂, List.map_append, List.map_append, List.map_cons, hget]
    exact NRun.take_mail (m := ⟨cStr (w q).name, 0, leafData w σ q, q, lab 2⟩)
      (by simp [Message.waits]) τ
  have hc₃ := hc₂.node htake
  refine ⟨_, hc₃, ?_, ⟨_, ?_, Function.update_self _ _ _⟩, ?_⟩
  · refine .trans ?_ h.perm
    simp only [List.append_assoc]
    refine List.Perm.append_left a ?_
    rw [← List.append_assoc]
    exact List.perm_append_singleton q (b ++ l)
  · rw [List.map_append, List.map_singleton]
    exact hτ.addTo hsep _
  · intro v hv
    have hmem : v ∈ a ++ q :: b := by
      simp only [List.mem_append, List.mem_cons] at hv ⊢
      tauto
    have hnodup : (a ++ q :: b).Nodup := by
      have hall := h.perm.nodup_iff.mpr (nodup_others root)
      exact (List.nodup_append.mp hall).1
    have hvq : v ≠ q := by
      rintro rfl
      rw [List.nodup_middle, List.nodup_cons] at hnodup
      exact hnodup.1 hv
    rw [Function.update_of_ne (h.ne hmem), hrest₂ v hvq (h.ne hmem), Function.update_of_ne hvq]
    exact h.atLeaf v hmem

variable (ident lab σ) in
/-- The leaves `l` can be heard in this order. -/
theorem exists_heard (hw : SameWork w name f) (hsep : (w root).Separate) {l : List (Fin n)}
    (hnodup : l.Nodup) (hl : ∀ q ∈ l, q ≠ root) :
    ∃ (c : Cluster (Fin n) PeerId T Store O) (rem : List (Fin n)),
      StarReach ident lab root w σ c ∧ Heard lab root w f σ c rem l := by
  induction l using List.reverseRecOn with
  | nil =>
      have hstart : ((Cluster.start (starRun lab id some root w) σ :
          Cluster (Fin n) PeerId T Store O) root).code = ⟨lab 0, [.act (w root).start]⟩ ::
            ⟨lab 2, (others root).map (recvTask (w root) true)⟩ :: rootRest lab root (w root) :=
        starRun_root lab root w
      refine ⟨_, others root, CReach.node .refl (NRun.act hstart), ?_,
        ⟨(w root).start (σ root), start_added (w root) f (σ root), ?_⟩, ?_⟩
      · rw [List.append_nil]
      · rw [Function.update_self]
        rfl
      · intro v hv
        rw [Function.update_of_ne (mem_others.mp hv)]
        rfl
  | append_singleton l q ih =>
      rw [List.nodup_append] at hnodup
      obtain ⟨c, rem, hc, h⟩ := ih hnodup.1 fun v hv => hl v (List.mem_append_left _ hv)
      have hq : q ∈ rem := by
        have hmem : q ∈ rem ++ l := h.perm.mem_iff.mpr (mem_others.mpr (hl q (by simp)))
        rcases List.mem_append.mp hmem with hq | hq
        · exact hq
        · exact absurd rfl (hnodup.2.2 q hq q (List.mem_singleton_self q))
      obtain ⟨a, b, rfl⟩ := List.append_of_mem hq
      obtain ⟨c', hc', h'⟩ := h.step hw hsep hc
      exact ⟨c', a ++ b, hc', h'⟩

end Star

/-! ## A node that only sends -/

section Mute

variable {P Id T S O : Type} [DecidableEq P] [DecidableEq Id] {ident : P → Id}
  {write : Addr → Bytes → S → S} {σ : S}

/-- The node has nothing to do but to send, and nobody has a pointer to its memory. -/
structure Node.Mute (σ : S) (x : Node P Id T S O) : Prop where
  store : x.store = σ
  sends : ∀ b ∈ x.code, ∀ th ∈ b.threads, ∃ id name flags data, th = .send id name flags data
  waitQ : ∀ id name, x.waitQ id name = []
  handler : ∀ q, (x.handler q).busy = false

theorem NStep.mute {p : P} {x x' : Node P Id T S O} {e : Event P T}
    (hs : NStep ident write p x e x') (h : x.Mute σ) : x'.Mute σ := by
  have hthread : ∀ {t l₁ l₂ bs} {th : Thread P T S O}, x.code = ⟨t, l₁ ++ th :: l₂⟩ :: bs →
      ∃ id name flags data, th = .send id name flags data := by
    intro t l₁ l₂ bs th hc
    exact h.sends ⟨t, l₁ ++ th :: l₂⟩ (by rw [hc]; exact List.mem_cons_self) th (by simp)
  have hhandler : ∀ {s : P} {v : Handler P T}, v.busy = false →
      ∀ q, (Function.update x.handler s v q).busy = false := by
    intro s v hv q
    by_cases hq : q = s
    · subst hq
      rwa [Function.update_self]
    · rw [Function.update_of_ne hq]
      exact h.handler q
  cases hs with
  | join hc =>
      exact { h with sends := fun b hb => h.sends b (by rw [hc]; exact List.mem_cons_of_mem _ hb) }
  | @send t l₁ l₂ bs id name flags data hc =>
      refine { h with sends := fun b hb th hth => ?_ }
      rcases List.mem_cons.mp hb with rfl | hb
      · refine h.sends _ (by rw [hc]; exact List.mem_cons_self) th ?_
        exact (show (l₁ ++ l₂).Sublist (l₁ ++ .send id name flags data :: l₂) by simp).subset hth
      · exact h.sends b (by rw [hc]; exact List.mem_cons_of_mem _ hb) th hth
  | mailGet hc _ | mailGot hc | slotGet hc _ | slotWait hc _ | act hc | ret hc | launch hc =>
      obtain ⟨_, _, _, _, heq⟩ := hthread hc
      cases heq
  | @header s m ms _ _ => exact { h with handler := hhandler (Handler.fits_take m).1 }
  | mailPut _ _ => exact { h with handler := hhandler rfl }
  | slotTake _ hq =>
      rw [h.waitQ] at hq
      exact absurd hq.symm (List.cons_ne_nil _ _)
  | @body s m ptr hh | @slotPut s m ptr hh _ =>
      have hbusy := h.handler s
      rw [hh] at hbusy
      cases hbusy

/-- What happens elsewhere does not change it either. -/
theorem CStep.mute [LT T] {c c' : Cluster P Id T S O} (hs : CStep ident write c c') {d : P}
    (h : (c d).Mute σ) : (c' d).Mute σ := by
  have hnode : ∀ {p : P} {x : Node P Id T S O} {e : Event P T}, NStep ident write p (c p) e x →
      (Function.update c p x d).Mute σ := by
    intro p x e hn
    by_cases hd : d = p
    · subst hd
      rw [Function.update_self]
      exact hn.mute h
    · rwa [Function.update_of_ne hd]
  cases hs with
  | tau hn | launch hn _ => exact hnode hn
  | @send c₁ p id x m hn hc₁ =>
      subst hc₁
      have hmute := hnode hn
      by_cases hd : d = id
      · subst hd
        rw [Function.update_self]
        exact { hmute with }
      · rwa [Function.update_of_ne hd]

theorem mute_of_run [LT T] {c c' : Cluster P Id T S O}
    (hs : Relation.ReflTransGen (CStep ident write) c c') {d : P} (h : (c d).Mute σ) :
    (c' d).Mute σ := by
  induction hs with
  | refl => exact h
  | tail _ hs ih => exact hs.mute ih

end Mute

/-! ## Runs for every order -/

section Order

variable {T O : Type} [LinearOrder T] [WellFoundedLT T] {n : ℕ} {root : Fin n}
  {w : Fin n → Workspace} {name : Bytes} {f : ℕ → ℕ → ℕ} {lab : ℕ → T} {σ : Fin n → Store}
  {ident : Fin n → PeerId}

/-- **Whatever the order in which the inputs arrive**, there is a run in which they do, and the root
ends with what it settles on then. -/
theorem exists_run_order (hid : Function.Injective ident) (hlab : StrictMono lab)
    (hw : SameWork w name f) (hsep : (w root).Separate) {l : List (Fin n)}
    (hl : l.Perm (others root)) :
    ∃ c : Cluster (Fin n) PeerId T Store O, StarReach ident lab root w σ c ∧ c.Final ∧
      (c root).store.mem = Memory.write (w root).recv
        ((w root).settled f (σ root).mem (l.map (leafData w σ))) (σ root).mem := by
  obtain ⟨c, rem, hc, h⟩ := exists_heard lab σ ident (O := O) hw hsep
    (hl.nodup_iff.mpr (nodup_others root)) fun q hq => mem_others.mp (hl.subset hq)
  obtain rfl : rem = [] := by
    have hlen := h.perm.length_eq.trans hl.length_eq.symm
    rw [List.length_append] at hlen
    exact List.eq_nil_of_length_eq_zero (by omega)
  obtain ⟨τ, hτ, hroot⟩ := h.atRoot
  -- the root settles
  have hjoin : NRun ident Store.writeBody root (c root) (Node.fresh
      (⟨lab 4, [.act (w root).settle]⟩ :: [⟨lab 5, (others root).map (sendTask (w root) false)⟩])
        τ) := by
    rw [hroot]
    exact (Relation.ReflTransGen.single (.join rfl)).tail (.join rfl)
  have hsettle : NRun ident Store.writeBody root (c root) (Node.fresh
      [⟨lab 5, (others root).map (sendTask (w root) false)⟩] ((w root).settle τ)) :=
    Relation.ReflTransGen.trans hjoin (NRun.act rfl)
  have hc₁ := hc.node hsettle
  have hchunk := star_chunk (O := O) hlab hw root
  obtain ⟨c', hc', hrun, hfinal⟩ := exists_final (tidy_of_compat hid hchunk.fresh hchunk.compat)
    hchunk.compat (fun a _ => excl_of_injective hid a) hc₁
  have hmute : (c' root).Mute ((w root).settle τ) := by
    refine mute_of_run hrun ?_
    rw [Function.update_self]
    refine ⟨rfl, fun b hb th hth => ?_, fun _ _ => rfl, fun _ => rfl⟩
    obtain rfl := List.mem_singleton.mp hb
    obtain ⟨q, -, rfl⟩ := List.mem_map.mp hth
    exact ⟨_, _, _, _, rfl⟩
  refine ⟨c', hc', hfinal, ?_⟩
  rw [hmute.store]
  exact (hτ.forward hsep).1

end Order

end StdmlCollective

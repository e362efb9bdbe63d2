import Miniraft.Verify.Move

/-!
# Invariants of a cluster

An invariant of a cluster is a `Family`: a predicate on the core and history of each node and one
on each message, both relative to a ghost state. To show that a family holds along every run it is
enough to answer each move of a single node with a ghost state that keeps what is said about the
other nodes and about older messages (`Family.Holds.step`, `Family.Holds.run`).
-/

namespace Miniraft

variable {NodeID Cmd : Type} [DecidableEq NodeID] [Wire Cmd]

namespace Move

variable {a : Action NodeID Cmd} {k k' : Core NodeID Cmd} {h h' : History NodeID Cmd}
  {recv : Option (NodeID × RaftMessage Cmd)} {fresh : Outgoing NodeID Cmd}

theorem id_eq (hm : Move a k h recv k' h' fresh) : k'.id = k.id := by
  cases hm <;> rfl

theorem peers_eq (hm : Move a k h recv k' h' fresh) : k'.peers = k.peers := by
  cases hm <;> rfl

theorem term_le (hm : Move a k h recv k' h' fresh) : k.term ≤ k'.term := by
  cases hm with
  | stepDown hlt => exact hlt.le
  | stand hlt _ => exact hlt.le
  | _ => exact le_rfl

/-- A node that changes its commit index stays in its term. -/
theorem term_eq (hm : Move a k h recv k' h' fresh) (hne : k'.commit ≠ k.commit) :
    k'.term = k.term := by
  cases hm with
  | stepDown _ => exact absurd rfl hne
  | stand _ _ => exact absurd rfl hne
  | _ => rfl

end Move

namespace Node

variable {n n' : Node NodeID Cmd} {a : Action NodeID Cmd} {msgs : Outgoing NodeID Cmd}
  {p : NodeID} {m : RaftMessage Cmd}

/-- A message is in the hands of the Raft-message loop after a step if it was before, or if it was
just received. -/
theorem step_stepped (hs : n.step a = .ok (n', msgs)) (hm : n'.raftLoop = .stepped p m) :
    (n.raftLoop = .stepped p m ∧ a ≠ .crash) ∨
      (a = .receive p m ∧ m.term ≤ n'.state.c.currentTerm) := by
  cases a with
  | receive q m' =>
    simp only [step] at hs
    split at hs
    · simp only [Except.bind_eq_ok_iff, Except.pure_eq_ok_iff, Prod.mk.injEq, locked_eq_ok] at hs
      obtain ⟨s', hs, rfl, rfl⟩ := hs
      cases hm
      exact .inr ⟨rfl, State.maybeStepDown_le hs⟩
    · simp at hs
  | election clk =>
    obtain ⟨-, -, hloop, -⟩ := election_move (a := .crash) hs
    exact .inl ⟨hloop ▸ hm, by simp⟩
  | replicate clk =>
    simp only [step, Except.bind_eq_ok_iff, Except.pure_eq_ok_iff, Prod.mk.injEq] at hs
    obtain ⟨_, -, rfl, -⟩ := hs
    exact .inl ⟨hm, by simp⟩
  | clientRequest _ | clientAppend | clientReplicate _ =>
    simp only [step] at hs
    split at hs
    · simp only [Except.bind_eq_ok_iff, Except.pure_eq_ok_iff, Prod.mk.injEq] at hs
      first
        | obtain ⟨rfl, -⟩ := hs
          exact .inl ⟨hm, by simp⟩
        | obtain ⟨_, -, rfl, -⟩ := hs
          exact .inl ⟨hm, by simp⟩
    · simp at hs
  | handle _ | snapshot =>
    simp only [step] at hs
    split at hs
    · simp only [Except.bind_eq_ok_iff, Except.pure_eq_ok_iff, Prod.mk.injEq] at hs
      obtain ⟨_, -, rfl, -⟩ := hs
      cases hm
    · simp at hs
  | persist ok =>
    simp only [step] at hs
    split at hs
    · split at hs
      · simp only [Except.pure_eq_ok_iff, Prod.mk.injEq] at hs
        obtain ⟨rfl, -⟩ := hs
        cases hm
      · simp only [Except.pure_eq_ok_iff, Prod.mk.injEq] at hs
        obtain ⟨rfl, -⟩ := hs
        cases hm
    · simp at hs
  | respond =>
    simp only [step] at hs
    split at hs
    · simp only [Except.pure_eq_ok_iff, Prod.mk.injEq] at hs
      obtain ⟨rfl, -⟩ := hs
      cases hm
    · simp at hs
  | crash =>
    simp only [step, Except.pure_eq_ok_iff, Prod.mk.injEq] at hs
    obtain ⟨rfl, -⟩ := hs
    cases hm

end Node

/-- What holds of every cluster, whatever its nodes do. -/
structure Cluster.WellFormed (cfg : Config NodeID) (c : Cluster NodeID Cmd) : Prop where
  id : ∀ i, (c.nodes i).state.c.id = i
  peers : ∀ i, (c.nodes i).state.c.nodeIds = cfg.peers i
  sent : ∀ e ∈ c.network, e.source ∈ cfg.ids ∧ e.body.wire = e.body
  stepped : ∀ {i p m}, (c.nodes i).raftLoop = .stepped p m →
    ⟨p, i, m⟩ ∈ c.network ∧ m.term ≤ (c.nodes i).state.c.currentTerm

namespace Cluster

variable {cfg : Config NodeID} {c c' : Cluster NodeID Cmd} {i : NodeID} {a : Action NodeID Cmd}

@[simp] theorem update_self (c : Cluster NodeID Cmd) (i : NodeID) (n : Node NodeID Cmd)
    (msgs : Outgoing NodeID Cmd) : (c.update i n msgs).nodes i = n := if_pos rfl

theorem update_of_ne {j : NodeID} (h : j ≠ i) (n : Node NodeID Cmd) (msgs : Outgoing NodeID Cmd) :
    (c.update i n msgs).nodes j = c.nodes j := if_neg h

theorem mem_update {e : Envelope NodeID Cmd} {n : Node NodeID Cmd} {msgs : Outgoing NodeID Cmd} :
    e ∈ (c.update i n msgs).network ↔
      e ∈ c.network ∨ ∃ x ∈ msgs, e = ⟨i, x.1, x.2.wire⟩ := by
  simp [update, eq_comm]

theorem WellFormed.boot : (boot cfg : Cluster NodeID Cmd).WellFormed cfg :=
  ⟨fun _ => rfl, fun _ => rfl, by simp [Cluster.boot], by simp [Cluster.boot, Node.boot]⟩

theorem WellFormed.ready (H : c.WellFormed cfg) : (c.nodes i).Ready := by
  intro p m hm
  obtain ⟨hmem, hle⟩ := H.stepped hm
  exact ⟨(H.sent _ hmem).2, hle⟩

/-- A message a node handles was sent to it. -/
theorem WellFormed.handles (H : c.WellFormed cfg) {p : NodeID} {m : RaftMessage Cmd}
    (hr : (c.nodes i).Handles a p m) : ⟨p, i, m⟩ ∈ c.network :=
  (H.stepped hr.1).1

variable [DecidableEq Cmd]

theorem step_eq_ok (hs : c.step cfg (i, a) = .ok c') :
    i ∈ cfg.ids ∧ c.Deliverable i a ∧
      ∃ n msgs, (c.nodes i).step a = .ok (n, msgs) ∧ c' = c.update i n msgs := by
  simp only [step] at hs
  split at hs
  · next hi =>
    simp only [Except.bind_eq_ok_iff, Except.pure_eq_ok_iff, Prod.exists] at hs
    obtain ⟨n, msgs, hn, rfl⟩ := hs
    exact ⟨hi.1, hi.2, n, msgs, hn, rfl⟩
  · simp at hs

/-- The core of a node stays that of the same node, whatever it does. -/
theorem WellFormed.step (H : c.WellFormed cfg) (hs : c.step cfg (i, a) = .ok c') :
    c'.WellFormed cfg := by
  obtain ⟨hi, hdel, n, msgs, hn, rfl⟩ := step_eq_ok hs
  have hkept : n.state.c.id = i ∧ n.state.c.nodeIds = cfg.peers i ∧
      (a ≠ .crash → (c.nodes i).state.c.currentTerm ≤ n.state.c.currentTerm) := by
    by_cases ha : a = .crash
    · subst ha
      simp only [Node.step, Except.pure_eq_ok_iff, Prod.mk.injEq] at hn
      obtain ⟨rfl, -⟩ := hn
      exact ⟨H.id i, H.peers i, by simp⟩
    · obtain ⟨recv, fresh, hm, -⟩ := Node.step_move H.ready hn ha
      exact ⟨hm.id_eq.trans (H.id i), hm.peers_eq.trans (H.peers i), fun _ => hm.term_le⟩
  refine ⟨fun j => ?_, fun j => ?_, fun e he => ?_, fun {j p m} hm => ?_⟩
  · by_cases hj : j = i
    · subst hj
      simpa using hkept.1
    · simpa [update_of_ne hj] using H.id j
  · by_cases hj : j = i
    · subst hj
      simpa using hkept.2.1
    · simpa [update_of_ne hj] using H.peers j
  · rcases mem_update.mp he with he | ⟨x, -, rfl⟩
    · exact H.sent e he
    · exact ⟨hi, x.2.wire_wire⟩
  · by_cases hj : j = i
    · subst hj
      rw [update_self] at hm ⊢
      rcases Node.step_stepped hn hm with ⟨hold, ha⟩ | ⟨rfl, hle⟩
      · obtain ⟨hmem, hle⟩ := H.stepped hold
        exact ⟨mem_update.mpr (.inl hmem), hle.trans (hkept.2.2 ha)⟩
      · obtain ⟨e, he, rfl, rfl, rfl⟩ := hdel
        exact ⟨mem_update.mpr (.inl he), hle⟩
    · rw [update_of_ne hj] at hm ⊢
      obtain ⟨hmem, hle⟩ := H.stepped hm
      exact ⟨mem_update.mpr (.inl hmem), hle⟩

end Cluster

/-! ## Families -/

/-- A predicate on nodes and one on messages, relative to a ghost state in `G`. -/
structure Family (G NodeID Cmd : Type) where
  node : G → NodeID → Core NodeID Cmd → History NodeID Cmd → Prop
  msg : G → Envelope NodeID Cmd → Prop

namespace Family

variable {G : Type} {F : Family G NodeID Cmd}

structure Holds (F : Family G NodeID Cmd) (cfg : Config NodeID) (g : G) (c : Cluster NodeID Cmd) :
    Prop where
  wf : c.WellFormed cfg
  node : ∀ i ∈ cfg.ids, F.node g i (c.nodes i).state.core (c.nodes i).history
  sent : ∀ e ∈ c.network, F.msg g e
  pending : ∀ i ∈ cfg.ids, ∀ x ∈ (c.nodes i).pending, F.msg g ⟨i, x.1, x.2.wire⟩

/-- The ghost state `g'` accounts for a move of node `i` to `k'` and `h'`. -/
structure Answers (F : Family G NodeID Cmd) (g g' : G) (i : NodeID) (k' : Core NodeID Cmd)
    (h' : History NodeID Cmd) (fresh : Outgoing NodeID Cmd) : Prop where
  node : F.node g' i k' h'
  fresh : ∀ x ∈ fresh, F.msg g' ⟨i, x.1, x.2⟩
  frame : ∀ {j k h}, j ≠ i → F.node g j k h → F.node g' j k h
  sent : ∀ {e}, F.msg g e → F.msg g' e

variable [DecidableEq Cmd] {cfg : Config NodeID} {c c' : Cluster NodeID Cmd} {g : G} {i : NodeID}
  {a : Action NodeID Cmd} {R : G → G → Prop}

/-- A family is kept by a step if the move of the step is answered. -/
theorem Holds.step (H : F.Holds cfg g c) (hs : c.step cfg (i, a) = .ok c') (ha : a ≠ .crash)
    (hmove : ∀ {recv k' h' fresh},
      Move a (c.nodes i).state.core (c.nodes i).history recv k' h' fresh → i ∈ cfg.ids →
      (c.nodes i).state.core.id = i → (c.nodes i).state.core.peers = cfg.peers i →
      (∀ p m, recv = some (p, m) →
        p ∈ cfg.ids ∧ (c.nodes i).Handles a p m ∧ F.msg g ⟨p, i, m⟩) →
      ∃ g', R g g' ∧ F.Answers g g' i k' h' fresh) :
    ∃ g', R g g' ∧ F.Holds cfg g' c' := by
  obtain ⟨hi, -, n, msgs, hn, rfl⟩ := Cluster.step_eq_ok hs
  obtain ⟨recv, fresh, hm, hrecv, hout⟩ := Node.step_move H.wf.ready hn ha
  obtain ⟨g', hR, hans⟩ := hmove hm hi (H.wf.id i) (H.wf.peers i) fun p m hpm => by
    have hmem := H.wf.handles (hrecv p m hpm)
    exact ⟨(H.wf.sent _ hmem).1, hrecv p m hpm, H.sent _ hmem⟩
  have hout' : ∀ x, x ∈ n.pending ∨ x ∈ msgs → F.msg g' ⟨i, x.1, x.2.wire⟩ := by
    intro x hx
    rcases hout x hx with hx | hx
    · exact hans.sent (H.pending i hi x hx)
    · exact hans.fresh _ hx
  refine ⟨g', hR, H.wf.step hs, fun j hj => ?_, fun e he => ?_, fun j hj x hx => ?_⟩
  · by_cases hji : j = i
    · subst hji
      simpa using hans.node
    · rw [Cluster.update_of_ne hji]
      exact hans.frame hji (H.node j hj)
  · rcases Cluster.mem_update.mp he with he | ⟨x, hx, rfl⟩
    · exact hans.sent (H.sent e he)
    · exact hout' x (.inr hx)
  · by_cases hji : j = i
    · subst hji
      rw [Cluster.update_self] at hx
      exact hout' x (.inl hx)
    · rw [Cluster.update_of_ne hji] at hx
      exact hans.sent (H.pending j hj x hx)

end Family

end Miniraft

import Miniraft.Verify.Durability

/-!
# Leaders across crashes

A leader has the votes of a majority, and each of them is a message that was sent. So a term has at
most one leader whenever a node supports one candidate a term, which does not take that nodes do not
crash: it is enough that a node crashes when the terms of its elections are in its persistence file
(`Cluster.one_leader_per_term`).
-/

namespace Miniraft

open Consensus

variable {NodeID Cmd : Type} [Wire Cmd]

/-- All votes of a candidate are from supporters, and a leader has a majority of supporters. -/
def Stance.Supported (cfg : Config NodeID) (supports : NodeID → Prop) : Stance NodeID → Prop
  | .follower _ => True
  | .candidate votes => ∀ v ∈ votes, v ∈ cfg.ids ∧ supports v
  | .leader .. => ∃ votes : Finset NodeID, (∀ v ∈ votes, v ∈ cfg.ids ∧ supports v) ∧
      cfg.ids.length < 2 * votes.card

namespace Stance

variable {cfg : Config NodeID} {supports supports' : NodeID → Prop} {st : Stance NodeID}

theorem Supported.mono (h : st.Supported cfg supports) (hmono : ∀ v, supports v → supports' v) :
    st.Supported cfg supports' := by
  cases st with
  | follower v => exact h
  | candidate votes => exact fun v hv => ⟨(h v hv).1, hmono v (h v hv).2⟩
  | leader next mtch =>
    obtain ⟨votes, hvotes, hmaj⟩ := h
    exact ⟨votes, fun v hv => ⟨(hvotes v hv).1, hmono v (hvotes v hv).2⟩, hmaj⟩

theorem supported_stepDown (v : Option NodeID) : (st.stepDown v).Supported cfg supports := by
  cases st <;> exact trivial

end Stance

variable [DecidableEq NodeID]

namespace Node

variable {n n' : Node NodeID Cmd} {a : Action NodeID Cmd} {msgs : Outgoing NodeID Cmd}

/-- A node that starts an election asks its peers for their votes; other steps start none. -/
theorem step_elections (hs : n.step a = .ok (n', msgs)) :
    n'.history.elections = n.history.elections ∨
      ∃ T, n'.state.core = { n.state.core with term := T, stance := .candidate {n.state.core.id} } ∧
        msgs = n.state.core.peers.map fun p => (p, n.state.core.voteRequest T) := by
  cases a with
  | election clk =>
    simp only [step, Except.bind_eq_ok_iff, Except.pure_eq_ok_iff, Prod.mk.injEq, Prod.exists,
      locked_eq_ok] at hs
    obtain ⟨s', msgs', hs, rfl, rfl⟩ := hs
    rcases State.maybeBeginElection_eq_ok hs with ⟨hcore, -⟩ | ⟨T, -, -, hcore, rfl⟩
    · have hterm : s'.c.currentTerm = n.state.c.currentTerm := congrArg Core.term hcore
      exact .inl (if_neg (by rw [hterm]; exact lt_irrefl _))
    · exact .inr ⟨T, hcore, rfl⟩
  | replicate clk =>
    simp only [step, Except.bind_eq_ok_iff, Except.pure_eq_ok_iff, Prod.mk.injEq] at hs
    obtain ⟨_, -, rfl, -⟩ := hs
    exact .inl rfl
  | receive _ _ | handle _ | snapshot | clientReplicate _ =>
    simp only [step] at hs
    split at hs
    · simp only [Except.bind_eq_ok_iff, Except.pure_eq_ok_iff, Prod.mk.injEq] at hs
      obtain ⟨_, -, rfl, -⟩ := hs
      exact .inl rfl
    · cases hs
  | respond | clientRequest _ | clientAppend =>
    simp only [step] at hs
    split at hs
    · simp only [Except.pure_eq_ok_iff, Prod.mk.injEq] at hs
      obtain ⟨rfl, -⟩ := hs
      exact .inl rfl
    · cases hs
  | persist ok =>
    simp only [step] at hs
    split at hs
    · split at hs
      · simp only [Except.pure_eq_ok_iff, Prod.mk.injEq] at hs
        obtain ⟨rfl, -⟩ := hs
        exact .inl rfl
      · simp only [Except.pure_eq_ok_iff, Prod.mk.injEq] at hs
        obtain ⟨rfl, -⟩ := hs
        exact .inl rfl
    · cases hs
  | crash =>
    simp only [step, Except.pure_eq_ok_iff, Prod.mk.injEq] at hs
    obtain ⟨rfl, -⟩ := hs
    exact .inl rfl

end Node

namespace Cluster

variable {cfg : Config NodeID} {c c' : Cluster NodeID Cmd} {i j : NodeID}
  {a : Action NodeID Cmd} {T : Term}

/-- What a candidate or a leader has are votes that were sent. -/
def Supported (cfg : Config NodeID) (c : Cluster NodeID Cmd) (i : NodeID) : Prop :=
  (c.nodes i).state.core.stance.Supported cfg fun v => c.Supports v (c.nodes i).state.core.term i

omit [DecidableEq NodeID] [Wire Cmd] in
theorem Supports.mono {p : NodeID} (h : c.Supports i T p) (hsub : c.network ⊆ c'.network) :
    c'.Supports i T p := by
  obtain ⟨e, he, hsource⟩ := h
  exact ⟨e, hsub he, hsource⟩

theorem subset_update (n : Node NodeID Cmd) (msgs : Outgoing NodeID Cmd) :
    c.network ⊆ (c.update i n msgs).network := fun _ he => mem_update.mpr (.inl he)

variable [DecidableEq Cmd]

/-- The votes of the node that makes a step. -/
theorem supported_step (hwf : c.WellFormed cfg) (H : c.Supported cfg i)
    (hs : c.step cfg (i, a) = .ok c') : c'.Supported cfg i := by
  obtain ⟨hi, -, n, msgs, hn, rfl⟩ := step_eq_ok hs
  have hmono : ∀ {v T}, c.Supports v T i → (c.update i n msgs).Supports v T i :=
    fun h => h.mono (subset_update n msgs)
  rw [Supported, update_self]
  by_cases ha : a = .crash
  · subst ha
    simp only [Node.step, Except.pure_eq_ok_iff, Prod.mk.injEq] at hn
    obtain ⟨rfl, -⟩ := hn
    exact trivial
  have helections := Node.step_elections hn
  obtain ⟨recv, fresh, hm, hrecv, -⟩ := Node.step_move hwf.ready hn ha
  have hid : (c.nodes i).state.core.id = i := hwf.id i
  have hpeers : (c.nodes i).state.core.peers = cfg.peers i := hwf.peers i
  -- A vote that is counted was sent.
  have hvote : ∀ {p}, recv = some (p, .requestVoteResponse (c.nodes i).state.core.term true) →
      p ∈ cfg.ids ∧ c.Supports p (c.nodes i).state.core.term i := by
    intro p hp
    have hmem := hwf.handles (hrecv _ _ hp)
    exact ⟨(hwf.sent _ hmem).1, _, hmem, rfl, rfl, rfl⟩
  have hinsert : ∀ {p votes}, (c.nodes i).state.core.stance = .candidate votes →
      recv = some (p, .requestVoteResponse (c.nodes i).state.core.term true) →
      ∀ v ∈ insert p votes, v ∈ cfg.ids ∧
        (c.update i n msgs).Supports v (c.nodes i).state.core.term i := by
    intro p votes hst hp v hv
    rcases Finset.mem_insert.mp hv with rfl | hv
    · exact ⟨(hvote hp).1, hmono (hvote hp).2⟩
    · rw [Supported, hst] at H
      exact ⟨(H v hv).1, hmono (H v hv).2⟩
  generalize hk : n.state.core = k' at hm
  generalize hh : n.history = h' at hm
  cases hm with
  | stand hlt _ =>
    rcases helections with hsame | ⟨T, hcore, rfl⟩
    · rw [hh] at hsame
      exact absurd hsame (List.cons_ne_self _ _)
    · obtain ⟨p, hp⟩ := cfg.exists_mem_peers hi
      rw [hk] at hcore
      rw [hcore]
      intro v hv
      obtain rfl : v = i := (Finset.mem_singleton.mp hv).trans hid
      rw [← hpeers] at hp
      exact ⟨hi, _, mem_update.mpr (.inr ⟨_, List.mem_map_of_mem hp, rfl⟩), rfl, rfl, rfl⟩
  | count hst => exact hinsert hst rfl
  | win hst _ hmaj _ _ =>
    refine ⟨_, hinsert hst rfl, ?_⟩
    have hlength := cfg.length_peers hi
    have hcard : cfg.members.card = cfg.ids.length := List.toFinset_card_of_nodup cfg.nodup
    rw [hpeers] at hmaj
    omega
  | stepDown _ => exact Stance.supported_stepDown _
  | mismatch _ => exact Stance.supported_stepDown _
  | accept _ _ _ => exact Stance.supported_stepDown _
  | grant _ _ _ _ => exact trivial
  | retreat hst _ _ | ack hst _ _ _ _ =>
    rw [Supported, hst] at H
    obtain ⟨votes, hvotes, hmaj⟩ := H
    exact ⟨votes, fun v hv => ⟨(hvotes v hv).1, hmono (hvotes v hv).2⟩, hmaj⟩
  | quiet | replicate _ _ | refuse | stale _ | append _ _ => exact H.mono fun v => hmono

theorem supported_run {P : Cluster NodeID Cmd → Label NodeID Cmd → Prop}
    (hrun : Run (step cfg) P c c') (hwf : c.WellFormed cfg) (H : ∀ i, c.Supported cfg i) :
    c'.WellFormed cfg ∧ c.network ⊆ c'.network ∧ ∀ i, c'.Supported cfg i := by
  refine Run.invariant (I := fun c' => c'.WellFormed cfg ∧ c.network ⊆ c'.network ∧
    ∀ i, c'.Supported cfg i) hrun ⟨hwf, List.Subset.refl _, H⟩ ?_
  rintro c₁ ⟨i, a⟩ c₂ ⟨hwf, hsub, H⟩ - hs
  refine ⟨hwf.step hs, ?_, fun j => ?_⟩
  · obtain ⟨-, -, n, msgs, -, rfl⟩ := step_eq_ok hs
    exact List.Subset.trans hsub (subset_update n msgs)
  · by_cases hj : j = i
    · exact hj ▸ supported_step hwf (H i) hs
    · obtain ⟨-, -, n, msgs, -, rfl⟩ := step_eq_ok hs
      rw [Supported, update_of_ne hj]
      exact (H j).mono fun v hv => hv.mono (subset_update n msgs)

omit [DecidableEq Cmd] in
/-- A leader has the support of a majority. -/
theorem Supported.majority (H : c.Supported cfg i) (hlead : (c.nodes i).state.isLeader) :
    ∃ Q, Majority cfg.members Q ∧ ∀ v ∈ Q, c.Supports v (c.nodes i).state.c.currentTerm i := by
  have hstance : (c.nodes i).state.core.stance.IsLeader := State.isLeader_iff.mp hlead
  rw [Supported] at H
  cases hst : (c.nodes i).state.core.stance with
  | follower v =>
    rw [hst] at hstance
    cases hstance
  | candidate votes =>
    rw [hst] at hstance
    cases hstance
  | leader next mtch =>
    rw [hst] at H
    obtain ⟨votes, hvotes, hmaj⟩ := H
    have hcard : cfg.members.card = cfg.ids.length := List.toFinset_card_of_nodup cfg.nodup
    refine ⟨votes, ⟨fun v hv => cfg.mem_members.mpr (hvotes v hv).1, ?_⟩,
      fun v hv => (hvotes v hv).2⟩
    omega

omit [DecidableEq Cmd] in
/-- A node supports one candidate a term. -/
theorem supports_unique (H : (c.nodes i).Durable i (c.sentBy i)) {p q : NodeID}
    (hp : c.Supports i T p) (hq : c.Supports i T q) : p = q := by
  obtain ⟨e, he, hi, hT, hp⟩ := hp
  obtain ⟨e', he', hi', hT', hq⟩ := hq
  have hsent : ∀ e ∈ c.network, e.source = i → e ∈ c.sentBy i ++ (c.nodes i).held i :=
    fun e he hi => List.mem_append_left _ (List.mem_filter.mpr ⟨he, by simpa using hi⟩)
  exact H.unique e (hsent e he hi) e' (hsent e' he' hi') (hT.trans hT'.symm) p hp q hq

/-- **Election safety** with crashes: a term has at most one leader, now or later. -/
theorem one_leader_per_term (hrun : Run (step cfg) CrashesPersisted (boot cfg) c)
    (hrun' : Run (step cfg) CrashesPersisted c c')
    (hlead : (c.nodes i).state.isLeader) (hlead' : (c'.nodes j).state.isLeader)
    (hterm : (c.nodes i).state.c.currentTerm = (c'.nodes j).state.c.currentTerm) : i = j := by
  obtain ⟨hwf, -, H⟩ := supported_run hrun .boot fun _ => trivial
  obtain ⟨-, hsub, H'⟩ := supported_run hrun' hwf H
  obtain ⟨Q, hQ, hvotes⟩ := (H i).majority hlead
  obtain ⟨Q', hQ', hvotes'⟩ := (H' j).majority hlead'
  obtain ⟨v, hv, hv'⟩ := hQ.exists_mem hQ'
  have hdurable := (durable_run (hrun.trans hrun')).2 v
  refine supports_unique hdurable ((hvotes v hv).mono hsub) ?_
  rw [hterm]
  exact hvotes' v hv'

end Cluster

end Miniraft

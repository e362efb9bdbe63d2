import Miniraft.Verify.Cluster
import Miniraft.Verify.Persistence

/-!
# Terms stay in range

Terms are `u64`s, which the model does not say of them. It does not have to: from a cluster that has
just been booted, no step leads to a term that is out of range, wherever it is: in a node, in its log,
in its file or in a message (`Cluster.terms_fit`). So every snapshot that a node takes can be
restored.
-/

namespace Miniraft

open Consensus

variable {NodeID Cmd : Type}

theorem Term.step_lt {t t' : Term} (h : Term.step t = .ok t') : t' < 2 ^ 64 := by
  obtain ⟨-, rfl⟩ := Term.set_eq_ok h
  exact Nat.mod_lt _ (by decide)

/-- The terms of the entries are those of `u64`s. -/
def Log.TermsFit (l : Log Cmd) : Prop := ∀ e ∈ l.inner, e.term < 2 ^ 64

def RaftMessage.TermsFit (m : RaftMessage Cmd) : Prop :=
  m.term < 2 ^ 64 ∧ match m with
    | .appendEntries _ _ _ _ entries => entries.TermsFit
    | _ => True

def Core.TermsFit (k : Core NodeID Cmd) : Prop := k.term < 2 ^ 64 ∧ k.log.TermsFit

variable [Wire Cmd]

theorem Log.termsFit_wire {l : Log Cmd} : l.wire.TermsFit ↔ l.TermsFit := by
  simp [TermsFit, wire, LogEntry.wire]

theorem Persistent.InRange.wire {p : Persistent NodeID Cmd} (h : p.InRange) : p.wire.InRange :=
  ⟨h.1, Log.termsFit_wire.mpr h.2⟩

variable [DecidableEq NodeID]

namespace Move

variable {a : Action NodeID Cmd} {k k' : Core NodeID Cmd} {h h' : History NodeID Cmd}
  {recv : Option (NodeID × RaftMessage Cmd)} {fresh : Outgoing NodeID Cmd}

/-- The term of a node does not change while it handles a message. -/
theorem term_eq_of_recv {x : NodeID × RaftMessage Cmd} (hm : Move a k h (some x) k' h' fresh) :
    k'.term = k.term := by
  cases hm <;> rfl

omit [Wire Cmd] in
theorem termsFit_appends {next : Map NodeID LogIndex} {x : NodeID × RaftMessage Cmd}
    (hk : k.TermsFit) (hx : k.Appends next x) : x.2.TermsFit := by
  obtain ⟨ni, ci, -, -, hbody⟩ := hx.body
  rw [hbody]
  exact ⟨hk.1, fun e he => hk.2 e (List.mem_of_mem_drop he)⟩

/-- A move does not leave the range, if the term of the node does not. -/
theorem termsFit (hm : Move a k h recv k' h' fresh) (hk : k.TermsFit) (hterm : k'.term < 2 ^ 64)
    (hrecv : ∀ p m, recv = some (p, m) → m.TermsFit) :
    k'.TermsFit ∧ ∀ x ∈ fresh, x.2.TermsFit := by
  cases hm with
  | quiet | stepDown _ | count _ | ack _ _ _ _ _ => exact ⟨⟨hterm, hk.2⟩, by simp⟩
  | stand _ _ =>
    refine ⟨⟨hterm, hk.2⟩, fun x hx => ?_⟩
    obtain ⟨p, -, rfl⟩ := List.mem_map.mp hx
    exact ⟨hterm, trivial⟩
  | replicate _ happ | retreat _ _ happ | win _ _ _ _ happ =>
    exact ⟨⟨hterm, hk.2⟩, fun x hx => termsFit_appends hk (happ x hx)⟩
  | refuse | grant _ _ _ _ | stale _ | mismatch _ =>
    refine ⟨⟨hterm, hk.2⟩, fun x hx => ?_⟩
    obtain rfl := List.mem_singleton.mp hx
    exact ⟨hterm, trivial⟩
  | @accept p ci pi pt es log commit applied apps drops _ _ hacc =>
    have hes : es.TermsFit := (hrecv _ _ rfl).2
    have hlog : log.TermsFit := by
      rcases hacc.spliced with ⟨-, rfl, -⟩ | ⟨-, hsplice, -⟩
      · exact hk.2
      · intro e he
        rw [hsplice] at he
        exact (mem_of_mem_splice he).elim (hk.2 e) (hes e)
    refine ⟨⟨hterm, hlog⟩, fun x hx => ?_⟩
    obtain rfl := List.mem_singleton.mp hx
    exact ⟨hterm, trivial⟩
  | append _ _ =>
    refine ⟨⟨hterm, fun e he => ?_⟩, by simp⟩
    rcases List.mem_append.mp he with he | he
    · exact hk.2 e he
    · obtain rfl := List.mem_singleton.mp he
      exact hterm

end Move

omit [Wire Cmd] [DecidableEq NodeID] in
theorem State.maybeBeginElection_term {s s' : State NodeID Cmd} {clk : Clock}
    {msgs : Outgoing NodeID Cmd} (hs : s.maybeBeginElection clk = .ok (s', msgs)) :
    s'.c.currentTerm = s.c.currentTerm ∨ s'.c.currentTerm < 2 ^ 64 := by
  unfold maybeBeginElection becomeCandidate at hs
  split at hs
  · simp only [Except.pure_eq_ok_iff, Prod.mk.injEq] at hs
    exact .inl (hs.1 ▸ rfl)
  split at hs
  · simp only [Except.pure_eq_ok_iff, Prod.mk.injEq] at hs
    exact .inl (hs.1 ▸ rfl)
  split at hs
  · cases hs
  split at hs
  · simp only [Except.bind_eq_ok_iff, Except.pure_eq_ok_iff, Prod.mk.injEq] at hs
    obtain ⟨T, hT, rfl, -⟩ := hs
    exact .inr (Term.step_lt hT)
  · simp only [Except.bind_eq_ok_iff, Except.pure_eq_ok_iff, Prod.mk.injEq] at hs
    obtain ⟨T, hT, rfl, -⟩ := hs
    exact .inr (Term.step_lt hT)
  · cases hs

namespace Node

variable {n n' : Node NodeID Cmd} {a : Action NodeID Cmd} {msgs : Outgoing NodeID Cmd}

/-- Where the term of a node comes from. -/
theorem step_term (hready : n.Ready) (hs : n.step a = .ok (n', msgs)) (ha : a ≠ .crash) :
    n'.state.c.currentTerm = n.state.c.currentTerm ∨ n'.state.c.currentTerm < 2 ^ 64 ∨
      ∃ p m, a = .receive p m ∧ n'.state.c.currentTerm = m.term := by
  cases a with
  | election clk =>
    simp only [step, Except.bind_eq_ok_iff, Except.pure_eq_ok_iff, Prod.mk.injEq, Prod.exists,
      locked_eq_ok] at hs
    obtain ⟨s', msgs', hs, rfl, -⟩ := hs
    exact (State.maybeBeginElection_term hs).imp id .inl
  | replicate clk =>
    simp only [step, Except.bind_eq_ok_iff, Except.pure_eq_ok_iff, Prod.mk.injEq, Prod.exists,
      locked_eq_ok] at hs
    obtain ⟨s', msgs', hs, rfl, -⟩ := hs
    exact .inl (congrArg Core.term (State.replicateLog_eq_ok hs).1)
  | clientReplicate clk =>
    simp only [step] at hs
    split at hs
    · simp only [Except.bind_eq_ok_iff, Except.pure_eq_ok_iff, Prod.mk.injEq, Prod.exists,
        locked_eq_ok] at hs
      obtain ⟨s', msgs', hs, rfl, -⟩ := hs
      exact .inl (congrArg Core.term (State.replicateLog_eq_ok hs).1)
    · cases hs
  | receive p m =>
    simp only [step] at hs
    split at hs
    · simp only [Except.bind_eq_ok_iff, Except.pure_eq_ok_iff, Prod.mk.injEq, locked_eq_ok] at hs
      obtain ⟨s', hs, rfl, -⟩ := hs
      rcases State.maybeStepDown_eq_ok hs with ⟨rfl, -⟩ | ⟨-, hcore⟩
      · exact .inl rfl
      · exact .inr (.inr ⟨p, m, rfl, congrArg Core.term hcore⟩)
    · cases hs
  | handle clk =>
    simp only [step] at hs
    split at hs
    · next p m hloop =>
      obtain ⟨hwire, hterm⟩ := hready p m hloop
      simp only [Except.bind_eq_ok_iff, Except.pure_eq_ok_iff, Prod.mk.injEq, Prod.exists,
        locked_eq_ok] at hs
      obtain ⟨s', responses, effects, hs, rfl, -⟩ := hs
      obtain ⟨fresh, hmove, -⟩ := State.handle_move (a := .crash) (h := n.history) hwire hterm hs
      exact .inl hmove.term_eq_of_recv
    · cases hs
  | snapshot =>
    simp only [step] at hs
    split at hs
    · simp only [Except.bind_eq_ok_iff, Except.pure_eq_ok_iff, Prod.mk.injEq] at hs
      obtain ⟨_, -, rfl, -⟩ := hs
      exact .inl rfl
    · cases hs
  | respond | clientRequest _ | clientAppend =>
    simp only [step] at hs
    split at hs
    · simp only [Except.pure_eq_ok_iff, Prod.mk.injEq] at hs
      obtain ⟨rfl, -⟩ := hs
      exact .inl rfl
    · cases hs
  | persist ok =>
    simp only [step] at hs
    split at hs
    · split at hs
      · simp only [Except.pure_eq_ok_iff, Prod.mk.injEq] at hs
        obtain ⟨rfl, -⟩ := hs
        exact .inl rfl
      · simp only [Except.pure_eq_ok_iff, Prod.mk.injEq] at hs
        obtain ⟨rfl, -⟩ := hs
        exact .inl rfl
    · cases hs
  | crash => exact absurd rfl ha

/-- Where the file of a node and the snapshot that is on its way there come from. -/
theorem step_file (hs : n.step a = .ok (n', msgs)) :
    (n'.stored = n.stored ∨ ∃ p rs, n.raftLoop = .snapshotted p rs ∧ n'.stored = p.wire) ∧
      ∀ p rs, n'.raftLoop = .snapshotted p rs →
        n.raftLoop = .snapshotted p rs ∨ n.state.persistent = .ok p := by
  cases a with
  | election clk | replicate clk =>
    simp only [step, Except.bind_eq_ok_iff, Except.pure_eq_ok_iff, Prod.mk.injEq] at hs
    obtain ⟨_, -, rfl, -⟩ := hs
    exact ⟨.inl rfl, fun p rs h => .inl h⟩
  | clientReplicate clk =>
    simp only [step] at hs
    split at hs
    · simp only [Except.bind_eq_ok_iff, Except.pure_eq_ok_iff, Prod.mk.injEq] at hs
      obtain ⟨_, -, rfl, -⟩ := hs
      exact ⟨.inl rfl, fun p rs h => .inl h⟩
    · cases hs
  | receive _ _ | handle _ =>
    simp only [step] at hs
    split at hs
    · simp only [Except.bind_eq_ok_iff, Except.pure_eq_ok_iff, Prod.mk.injEq] at hs
      obtain ⟨_, -, rfl, -⟩ := hs
      exact ⟨.inl rfl, by simp⟩
    · cases hs
  | snapshot =>
    simp only [step] at hs
    split at hs
    · simp only [Except.bind_eq_ok_iff, Except.pure_eq_ok_iff, Prod.mk.injEq, locked_eq_ok] at hs
      obtain ⟨q, hq, rfl, -⟩ := hs
      refine ⟨.inl rfl, fun p rs h => ?_⟩
      cases h
      exact .inr hq
    · cases hs
  | persist ok =>
    simp only [step] at hs
    split at hs
    · next p rs hloop =>
      split at hs
      · simp only [Except.pure_eq_ok_iff, Prod.mk.injEq] at hs
        obtain ⟨rfl, -⟩ := hs
        exact ⟨.inr ⟨p, rs, hloop, rfl⟩, by simp⟩
      · simp only [Except.pure_eq_ok_iff, Prod.mk.injEq] at hs
        obtain ⟨rfl, -⟩ := hs
        exact ⟨.inl rfl, by simp⟩
    · cases hs
  | respond =>
    simp only [step] at hs
    split at hs
    · simp only [Except.pure_eq_ok_iff, Prod.mk.injEq] at hs
      obtain ⟨rfl, -⟩ := hs
      exact ⟨.inl rfl, by simp⟩
    · cases hs
  | clientRequest _ | clientAppend =>
    simp only [step] at hs
    split at hs
    · simp only [Except.pure_eq_ok_iff, Prod.mk.injEq] at hs
      obtain ⟨rfl, -⟩ := hs
      exact ⟨.inl rfl, fun p rs h => .inl h⟩
    · cases hs
  | crash =>
    simp only [step, Except.pure_eq_ok_iff, Prod.mk.injEq] at hs
    obtain ⟨rfl, -⟩ := hs
    exact ⟨.inl rfl, by simp⟩

/-- The terms in a node and in its file are those of `u64`s. -/
structure TermsFit (n : Node NodeID Cmd) : Prop where
  core : n.state.core.TermsFit
  stored : n.stored.InRange
  snapshot : ∀ p rs, n.raftLoop = .snapshotted p rs → p.InRange

end Node

/-- The terms in a cluster are those of `u64`s. -/
structure Cluster.TermsFit (c : Cluster NodeID Cmd) : Prop where
  node : ∀ i, (c.nodes i).TermsFit
  sent : ∀ e ∈ c.network, e.body.TermsFit
  pending : ∀ i, ∀ x ∈ (c.nodes i).pending, x.2.wire.TermsFit

theorem State.inRange_persistent {s : State NodeID Cmd} {p : Persistent NodeID Cmd}
    (hs : s.core.TermsFit) (hp : s.persistent = .ok p) : p.InRange := by
  have hrange : ∀ v : Option NodeID, Persistent.InRange ⟨s.c.currentTerm, v, s.c.log⟩ :=
    fun v => ⟨hs.1, Log.termsFit_wire.mp hs.2⟩
  unfold persistent at hp
  split at hp
  · cases hp
    exact hrange _
  · split at hp
    · cases hp
    · cases hp
      exact hrange _
  · cases hp
    exact hrange _

namespace Cluster

variable [DecidableEq Cmd] {cfg : Config NodeID} {c c' : Cluster NodeID Cmd} {i : NodeID}
  {a : Action NodeID Cmd}

theorem TermsFit.step (H : c.TermsFit) (hwf : c.WellFormed cfg) (hs : c.step cfg (i, a) = .ok c') :
    c'.TermsFit := by
  obtain ⟨-, hdel, n, msgs, hn, rfl⟩ := step_eq_ok hs
  obtain ⟨hcore, hstored, hsnapshot⟩ := H.node i
  obtain ⟨hfile, hloop⟩ := Node.step_file hn
  have hstored' : n.stored.InRange := by
    rcases hfile with hfile | ⟨p, rs, hloop, hfile⟩
    · exact hfile ▸ hstored
    · exact hfile ▸ (hsnapshot p rs hloop).wire
  have hsnapshot' : ∀ p rs, n.raftLoop = .snapshotted p rs → p.InRange := by
    intro p rs hp
    rcases hloop p rs hp with hp | hp
    · exact hsnapshot p rs hp
    · exact State.inRange_persistent hcore hp
  have hself : n.state.core.TermsFit ∧
      ∀ x, x ∈ n.pending ∨ x ∈ msgs → x.2.wire.TermsFit := by
    by_cases ha : a = .crash
    · subst ha
      simp only [Node.step, Except.pure_eq_ok_iff, Prod.mk.injEq] at hn
      obtain ⟨rfl, rfl⟩ := hn
      exact ⟨⟨hstored.1, Log.termsFit_wire.mpr hstored.2⟩, by simp [Node.pending]⟩
    have hterm : n.state.core.term < 2 ^ 64 := by
      rcases Node.step_term hwf.ready hn ha with hterm | hterm | ⟨p, m, rfl, hterm⟩
      · exact lt_of_eq_of_lt hterm hcore.1
      · exact hterm
      · obtain ⟨e, he, -, -, rfl⟩ := hdel
        exact lt_of_eq_of_lt hterm (H.sent e he).1
    obtain ⟨recv, fresh, hm, hrecv, hout⟩ := Node.step_move hwf.ready hn ha
    obtain ⟨hcore', hfresh⟩ := hm.termsFit hcore hterm fun p m hpm =>
      H.sent _ (hwf.handles (hrecv p m hpm))
    refine ⟨hcore', fun x hx => ?_⟩
    rcases hout x hx with hx | hx
    · exact H.pending i x hx
    · exact hfresh _ hx
  refine ⟨fun j => ?_, fun e he => ?_, fun j x hx => ?_⟩
  · by_cases hj : j = i
    · subst hj
      rw [update_self]
      exact ⟨hself.1, hstored', hsnapshot'⟩
    · rw [update_of_ne hj]
      exact H.node j
  · rcases mem_update.mp he with he | ⟨x, hx, rfl⟩
    · exact H.sent e he
    · exact hself.2 x (.inr hx)
  · by_cases hj : j = i
    · subst hj
      rw [update_self] at hx
      exact hself.2 x (.inl hx)
    · rw [update_of_ne hj] at hx
      exact H.pending j x hx

omit [DecidableEq Cmd] in
theorem termsFit_boot (cfg : Config NodeID) : (boot cfg : Cluster NodeID Cmd).TermsFit where
  node i := by
    have hrange : (Persistent.default : Persistent NodeID Cmd).InRange :=
      ⟨Nat.two_pow_pos 64, by simp [Persistent.default]⟩
    exact ⟨⟨hrange.1, Log.termsFit_wire.mpr hrange.2⟩, hrange, nofun⟩
  sent := by simp [boot]
  pending := by simp [boot, Node.boot, Node.pending]

/-- Whatever happens, terms stay in range. -/
theorem terms_fit {P : Cluster NodeID Cmd → Label NodeID Cmd → Prop}
    (hrun : Run (step cfg) P c c') (hwf : c.WellFormed cfg) (H : c.TermsFit) :
    c'.WellFormed cfg ∧ c'.TermsFit := by
  refine Run.invariant (I := fun c => c.WellFormed cfg ∧ c.TermsFit) hrun ⟨hwf, H⟩ ?_
  rintro c ⟨i, a⟩ c' ⟨hwf, H⟩ - hs
  exact ⟨hwf.step hs, H.step hwf hs⟩

end Cluster

end Miniraft

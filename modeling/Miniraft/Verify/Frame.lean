import Miniraft.Verify.Move

/-!
# What a step leaves alone

The core of a node forgets the known leader and the reply fields of commands. Only the handling of
a request to append entries and the client loop touch the log, and only the former makes a node
believe in a leader (`Node.step_frame`).
-/

namespace Miniraft

open Consensus

variable {NodeID Cmd : Type}

/-- What happens to a log: it is kept or extended, or the first thing that changes has another
term. -/
def Log.Becomes (l l' : Log Cmd) : Prop :=
  l.inner <+: l'.inner ∨ ∃ n t w, l'.inner.take n = l.inner.take n ∧ l.inner[n]? = some t ∧
    l'.inner[n]? = some w ∧ t.term ≠ w.term

theorem Log.Becomes.of_eq {l l' : Log Cmd} (h : l' = l) : l.Becomes l' :=
  .inl (h ▸ List.prefix_refl _)

theorem Log.becomes_replaceFrom {l l' : Log Cmd} {i : LogIndex} {ws : List (LogEntry Cmd)}
    {d : List (LogEntry Cmd × ℕ)} (h : l.replaceFrom i ws = .ok (l', d)) : l.Becomes l' := by
  rcases Log.replaceFrom_eq_ok h with ⟨-, rfl, -⟩ | ⟨-, hsplice, -⟩
  · exact .of_eq rfl
  · unfold Becomes
    rw [hsplice]
    exact splice_cases

namespace State

variable {s s' : State NodeID Cmd} {clk : Clock} {p q : NodeID} {msgs : Outgoing NodeID Cmd}
  {apps : List (LogIndex × LogEntry Cmd)}

/-- The log is the same, and there is no new belief about the leader. -/
structure Keeps (s s' : State NodeID Cmd) : Prop where
  log : s'.c.log = s.c.log
  leader : ∀ {p}, s'.currentLeader = some p → s.currentLeader = some p

theorem Keeps.of_eq (h : s' = s) : Keeps s s' := ⟨h ▸ rfl, fun hp => h ▸ hp⟩

theorem keeps_becomeFollower (v : Option NodeID) : Keeps s (s.becomeFollower v) := by
  unfold becomeFollower
  split
  · exact ⟨rfl, fun hp => by cases hp⟩
  · exact ⟨rfl, fun hp => by cases hp⟩
  · exact .of_eq rfl

theorem cancelCandidacy_c (s : State NodeID Cmd) : s.cancelCandidacy.c = s.c := by
  unfold cancelCandidacy becomeFollower
  cases s.r <;> rfl

theorem keeps_maybeStepDown {T : Term} (hs : s.maybeStepDown T = .ok s') : Keeps s s' := by
  unfold maybeStepDown at hs
  split at hs
  · simp only [Except.bind_eq_ok_iff, Except.pure_eq_ok_iff] at hs
    obtain ⟨T', -, rfl⟩ := hs
    have hkeeps := keeps_becomeFollower (s := { s with c := { s.c with currentTerm := T' } }) none
    exact ⟨hkeeps.log, hkeeps.leader⟩
  · simp only [Except.pure_eq_ok_iff] at hs
    exact .of_eq hs.symm

theorem keeps_maybeBeginElection (hs : s.maybeBeginElection clk = .ok (s', msgs)) :
    Keeps s s' := by
  unfold maybeBeginElection becomeCandidate at hs
  split at hs
  · simp only [Except.pure_eq_ok_iff, Prod.mk.injEq] at hs
    exact .of_eq hs.1.symm
  split at hs
  · simp only [Except.pure_eq_ok_iff, Prod.mk.injEq] at hs
    obtain ⟨rfl, -⟩ := hs
    exact ⟨rfl, id⟩
  split at hs
  · simp at hs
  split at hs
  · simp only [Except.bind_eq_ok_iff, Except.pure_eq_ok_iff, Prod.mk.injEq] at hs
    obtain ⟨T, -, rfl, -⟩ := hs
    exact ⟨rfl, fun hp => by cases hp⟩
  · simp only [Except.bind_eq_ok_iff, Except.pure_eq_ok_iff, Prod.mk.injEq] at hs
    obtain ⟨T, -, rfl, -⟩ := hs
    exact ⟨rfl, fun hp => by cases hp⟩
  · simp at hs

theorem keeps_advanceStateMachine (hs : s.advanceStateMachine = .ok (s', apps)) : Keeps s s' := by
  obtain ⟨last, rfl, -⟩ := advanceStateMachine_eq_ok hs
  exact ⟨rfl, id⟩

theorem keeps_followCommitIndex {ci : Option LogIndex}
    (hs : s.followCommitIndex ci = .ok (s', apps)) : Keeps s s' := by
  unfold followCommitIndex at hs
  split at hs
  · have hkeeps := keeps_advanceStateMachine hs
    exact ⟨hkeeps.log, hkeeps.leader⟩
  · simp only [Except.pure_eq_ok_iff, Prod.mk.injEq] at hs
    exact .of_eq hs.1.symm

theorem keeps_advanceCommitIndex (hs : s.advanceCommitIndex = .ok (s', apps)) : Keeps s s' := by
  cases hr : s.r with
  | follower _ _ | candidate _ => simp [advanceCommitIndex, hr] at hs
  | leader next mtch lr =>
    rcases advanceCommitIndex_cases hr hs with ⟨rfl, -⟩ | ⟨values, n, e, -, -, -, -, hs⟩
    · exact .of_eq rfl
    · have hkeeps := keeps_advanceStateMachine hs
      exact ⟨hkeeps.log, hkeeps.leader⟩

variable [DecidableEq NodeID]

theorem keeps_replicateLog (hs : s.replicateLog clk = .ok (s', msgs)) : Keeps s s' := by
  unfold replicateLog at hs
  split at hs
  · split at hs
    · simp only [Except.pure_eq_ok_iff, Prod.mk.injEq] at hs
      exact .of_eq hs.1.symm
    · simp only [Except.bind_eq_ok_iff, Except.pure_eq_ok_iff, Prod.mk.injEq] at hs
      obtain ⟨xs, -, rfl, -⟩ := hs
      exact ⟨rfl, fun hp => by cases hp⟩
  · simp only [Except.pure_eq_ok_iff, Prod.mk.injEq] at hs
    exact .of_eq hs.1.symm

theorem keeps_becomeLeader (hs : s.becomeLeader clk = .ok (s', msgs)) : Keeps s s' := by
  unfold becomeLeader at hs
  split at hs
  · split at hs
    · simp at hs
    · simp only [Except.bind_eq_ok_iff] at hs
      obtain ⟨next, -, hs⟩ := hs
      have hkeeps := keeps_replicateLog hs
      exact ⟨hkeeps.log, fun hp => by cases hkeeps.leader hp⟩
  · simp at hs

theorem keeps_handleVoteRequest {T : Term} {li : Option LogIndex} {lt : Option Term}
    {m : RaftMessage Cmd} (hs : s.handleVoteRequest clk q T li lt = .ok (s', m)) :
    Keeps s s' := by
  unfold handleVoteRequest at hs
  split at hs
  · simp at hs
  split at hs
  · next leader v hr =>
    simp only [Except.pure_eq_ok_iff, Prod.mk.injEq] at hs
    obtain ⟨rfl, -⟩ := hs
    split
    · exact ⟨rfl, fun hp => by simpa [currentLeader, hr] using hp⟩
    · exact .of_eq rfl
  · simp only [Except.pure_eq_ok_iff, Prod.mk.injEq] at hs
    exact .of_eq hs.1.symm

theorem keeps_handleVoteResponse {T : Term} {granted : Bool}
    (hs : s.handleVoteResponse clk q T granted = .ok (s', msgs)) : Keeps s s' := by
  unfold handleVoteResponse at hs
  split at hs
  · simp only [Except.pure_eq_ok_iff, Prod.mk.injEq] at hs
    exact .of_eq hs.1.symm
  split at hs
  · split at hs
    · simp at hs
    split at hs
    · simp at hs
    · simp only at hs
      split at hs
      · have hkeeps := keeps_becomeLeader hs
        exact ⟨hkeeps.log, fun hp => by cases hkeeps.leader hp⟩
      · simp only [Except.pure_eq_ok_iff, Prod.mk.injEq] at hs
        obtain ⟨rfl, -⟩ := hs
        exact ⟨rfl, fun hp => by cases hp⟩
    · simp only [Except.pure_eq_ok_iff, Prod.mk.injEq] at hs
      exact .of_eq hs.1.symm
  · simp only [Except.pure_eq_ok_iff, Prod.mk.injEq] at hs
    exact .of_eq hs.1.symm

theorem keeps_handleAppendEntriesResponse {success : Bool} {i : Option LogIndex}
    (hs : s.handleAppendEntriesResponse clk q success i = .ok (s', msgs, apps)) :
    Keeps s s' := by
  unfold handleAppendEntriesResponse at hs
  split at hs
  · split at hs
    · simp only [Except.pure_eq_ok_iff, Prod.mk.injEq] at hs
      exact .of_eq hs.1.symm
    split at hs
    · simp only [Except.bind_eq_ok_iff, Except.pure_eq_ok_iff, Prod.mk.injEq, Prod.exists] at hs
      obtain ⟨s'', msgs', hrep, rfl, -, -⟩ := hs
      have hkeeps := keeps_replicateLog hrep
      exact ⟨hkeeps.log, fun hp => by cases hkeeps.leader hp⟩
    split at hs
    · simp only [Except.pure_eq_ok_iff, Prod.mk.injEq] at hs
      exact .of_eq hs.1.symm
    split at hs
    · simp only [Except.pure_eq_ok_iff, Prod.mk.injEq] at hs
      exact .of_eq hs.1.symm
    · simp only [Except.bind_eq_ok_iff, Except.pure_eq_ok_iff, Prod.mk.injEq, Prod.exists] at hs
      obtain ⟨nj, -, s'', apps', hadv, rfl, -, -⟩ := hs
      have hkeeps := keeps_advanceCommitIndex hadv
      exact ⟨hkeeps.log, fun hp => by cases hkeeps.leader hp⟩
  · simp only [Except.pure_eq_ok_iff, Prod.mk.injEq] at hs
    exact .of_eq hs.1.symm

/-- What handling a message of `q` does to the log and to the belief about the leader. -/
structure Follows (s : State NodeID Cmd) (q : NodeID) (m : RaftMessage Cmd)
    (s' : State NodeID Cmd) : Prop where
  log : s.c.log.Becomes s'.c.log
  leader : ∀ {p}, s'.currentLeader = some p → s.currentLeader = some p ∨
    p = q ∧ ∃ ci pi pt es, m = .appendEntries s.c.currentTerm ci pi pt es

omit [DecidableEq NodeID] in
theorem Keeps.follows {m : RaftMessage Cmd} (h : Keeps s s') : Follows s q m s' :=
  ⟨.of_eq h.log, fun hp => .inl (h.leader hp)⟩

theorem follows_handleAppendEntries {T : Term} {ci pi : Option LogIndex} {pt : Option Term}
    {es : Log Cmd} {m : RaftMessage Cmd} {effects : Effects Cmd}
    (hs : s.handleAppendEntries clk q T ci pi pt es = .ok (s', m, effects)) :
    Follows s q (.appendEntries T ci pi pt es) s' := by
  unfold handleAppendEntries at hs
  simp only at hs
  split at hs
  · simp only [Except.pure_eq_ok_iff, Prod.mk.injEq] at hs
    exact (Keeps.of_eq hs.1.symm).follows
  split at hs
  · simp at hs
  next heq =>
  obtain rfl : T = s.c.currentTerm := not_ne_iff.mp heq
  have hnew : ∀ {p}, p = q → s.currentLeader = some p ∨ p = q ∧ ∃ ci' pi' pt' es',
      RaftMessage.appendEntries s.c.currentTerm ci pi pt es =
        .appendEntries s.c.currentTerm ci' pi' pt' es' :=
    fun hp => .inr ⟨hp, ci, pi, pt, es, rfl⟩
  split at hs
  · split at hs
    · simp at hs
    simp only [cancelCandidacy_c] at hs
    split at hs
    · simp only [Except.pure_eq_ok_iff, Prod.mk.injEq] at hs
      obtain ⟨rfl, -⟩ := hs
      exact ⟨.of_eq rfl, fun hp => hnew (Option.some.inj hp).symm⟩
    · simp only [Except.bind_eq_ok_iff, Except.pure_eq_ok_iff, Prod.mk.injEq, Prod.exists] at hs
      obtain ⟨start, -, log, drops, hlog, s'', apps, hfollow, rfl, -, -⟩ := hs
      have hkeeps := keeps_followCommitIndex hfollow
      refine ⟨?_, fun hp => hnew (Option.some.inj (hkeeps.leader hp)).symm⟩
      rw [hkeeps.log]
      exact Log.becomes_replaceFrom hlog
  · simp at hs

theorem handle_follows {m : RaftMessage Cmd} {effects : Effects Cmd}
    (hs : s.handle clk q m = .ok (s', msgs, effects)) : Follows s q m s' := by
  cases m with
  | requestVote T li lt =>
    simp only [handle, Except.bind_eq_ok_iff, Except.pure_eq_ok_iff, Prod.mk.injEq,
      Prod.exists] at hs
    obtain ⟨s'', m', hs, rfl, -, -⟩ := hs
    exact (keeps_handleVoteRequest hs).follows
  | requestVoteResponse T granted =>
    simp only [handle, Except.bind_eq_ok_iff, Except.pure_eq_ok_iff, Prod.mk.injEq,
      Prod.exists] at hs
    obtain ⟨s'', msgs', hs, rfl, -, -⟩ := hs
    exact (keeps_handleVoteResponse hs).follows
  | appendEntries T ci pi pt es =>
    simp only [handle, Except.bind_eq_ok_iff, Except.pure_eq_ok_iff, Prod.mk.injEq,
      Prod.exists] at hs
    obtain ⟨s'', m', effects', hs, rfl, -, -⟩ := hs
    exact follows_handleAppendEntries hs
  | appendEntriesResponse T i success =>
    simp only [handle, Except.bind_eq_ok_iff, Except.pure_eq_ok_iff, Prod.mk.injEq,
      Prod.exists] at hs
    obtain ⟨s'', msgs', apps, hs, rfl, -, -⟩ := hs
    exact (keeps_handleAppendEntriesResponse hs).follows

end State

/-- What a step does to the log and to the belief about the leader. -/
theorem Node.step_frame [DecidableEq NodeID] [Wire Cmd] {n n' : Node NodeID Cmd}
    {a : Action NodeID Cmd} {msgs : Outgoing NodeID Cmd} (hs : n.step a = .ok (n', msgs))
    (ha : a ≠ .crash) : n.state.c.log.Becomes n'.state.c.log ∧
      ∀ {p}, n'.state.currentLeader = some p → n.state.currentLeader = some p ∨
        ∃ ci pi pt es, n.Handles a p (.appendEntries n.state.c.currentTerm ci pi pt es) := by
  have hkeeps : State.Keeps n.state n'.state → n.state.c.log.Becomes n'.state.c.log ∧
      ∀ {p}, n'.state.currentLeader = some p → n.state.currentLeader = some p ∨
        ∃ ci pi pt es, n.Handles a p (.appendEntries n.state.c.currentTerm ci pi pt es) :=
    fun h => ⟨.of_eq h.log, fun hp => .inl (h.leader hp)⟩
  cases a with
  | election clk =>
    simp only [step, Except.bind_eq_ok_iff, Except.pure_eq_ok_iff, Prod.mk.injEq, Prod.exists,
      locked_eq_ok] at hs
    obtain ⟨s', msgs', hs, rfl, -⟩ := hs
    exact hkeeps (State.keeps_maybeBeginElection hs)
  | replicate clk =>
    simp only [step, Except.bind_eq_ok_iff, Except.pure_eq_ok_iff, Prod.mk.injEq, Prod.exists,
      locked_eq_ok] at hs
    obtain ⟨s', msgs', hs, rfl, -⟩ := hs
    exact hkeeps (State.keeps_replicateLog hs)
  | receive q m =>
    simp only [step] at hs
    split at hs
    · simp only [Except.bind_eq_ok_iff, Except.pure_eq_ok_iff, Prod.mk.injEq, locked_eq_ok] at hs
      obtain ⟨s', hs, rfl, -⟩ := hs
      exact hkeeps (State.keeps_maybeStepDown hs)
    · simp at hs
  | handle clk =>
    simp only [step] at hs
    split at hs
    · next q m hloop =>
      simp only [Except.bind_eq_ok_iff, Except.pure_eq_ok_iff, Prod.mk.injEq, Prod.exists,
        locked_eq_ok] at hs
      obtain ⟨s', responses, effects, hs, rfl, -⟩ := hs
      have hfollows := State.handle_follows hs
      refine ⟨hfollows.log, fun hp => ?_⟩
      rcases hfollows.leader hp with hp | ⟨rfl, ci, pi, pt, es, rfl⟩
      · exact .inl hp
      · exact .inr ⟨ci, pi, pt, es, hloop, clk, rfl⟩
    · simp at hs
  | clientAppend =>
    simp only [step] at hs
    split at hs
    · simp only [Except.pure_eq_ok_iff, Prod.mk.injEq] at hs
      obtain ⟨rfl, -⟩ := hs
      exact ⟨.inl (List.prefix_append ..), .inl⟩
    · simp at hs
  | clientReplicate clk =>
    simp only [step] at hs
    split at hs
    · simp only [Except.bind_eq_ok_iff, Except.pure_eq_ok_iff, Prod.mk.injEq, Prod.exists,
        locked_eq_ok] at hs
      obtain ⟨s', msgs', hs, rfl, -⟩ := hs
      exact hkeeps (State.keeps_replicateLog hs)
    · simp at hs
  | snapshot =>
    simp only [step] at hs
    split at hs
    · simp only [Except.bind_eq_ok_iff, Except.pure_eq_ok_iff, Prod.mk.injEq] at hs
      obtain ⟨_, -, rfl, -⟩ := hs
      exact hkeeps (.of_eq rfl)
    · simp at hs
  | persist ok =>
    simp only [step] at hs
    split at hs
    · split at hs
      · simp only [Except.pure_eq_ok_iff, Prod.mk.injEq] at hs
        obtain ⟨rfl, -⟩ := hs
        exact hkeeps (.of_eq rfl)
      · simp only [Except.pure_eq_ok_iff, Prod.mk.injEq] at hs
        obtain ⟨rfl, -⟩ := hs
        exact hkeeps (.of_eq rfl)
    · simp at hs
  | respond | clientRequest _ =>
    simp only [step] at hs
    split at hs
    · simp only [Except.pure_eq_ok_iff, Prod.mk.injEq] at hs
      obtain ⟨rfl, -⟩ := hs
      exact hkeeps (.of_eq rfl)
    · simp at hs
  | crash => exact absurd rfl ha

end Miniraft

import Miniraft.Raft.Store
import Miniraft.Verify.Frame
import Miniraft.Verify.Safety

/-!
# What the store does with its entries

Entries are applied in the order of the log and without gaps (`Node.step_executes`), so the map of
a node is that of the entries up to `last_applied`. An entry has fields for a reply only in the log
of the node that created it.
-/

namespace Miniraft

open Consensus

variable {NodeID Cmd : Type}

/-- The entries at the positions from `lo` on, below `hi`, with their indexes. -/
def Log.segment (l : Log Cmd) (lo hi : ℕ) : List (LogIndex × LogEntry Cmd) :=
  (List.range' lo (hi - lo)).filterMap fun n => l.inner[n]?.map fun e => (n.succPNat, e)

namespace Log

variable {l : Log Cmd} {lo hi : ℕ}

@[simp] theorem segment_self (l : Log Cmd) (n : ℕ) : l.segment n n = [] := by
  simp [segment]

theorem segment_of_lt {e : LogEntry Cmd} (h : lo < hi) (he : l.inner[lo]? = some e) :
    l.segment lo hi = (lo.succPNat, e) :: l.segment (lo + 1) hi := by
  obtain ⟨k, hk⟩ : ∃ k, hi - lo = k + 1 := ⟨hi - lo - 1, by omega⟩
  have hk' : hi - (lo + 1) = k := by omega
  rw [segment, segment, hk, hk', List.range'_succ, List.filterMap_cons_some (by rw [he]; rfl)]

theorem mem_of_mem_segment {x : LogIndex × LogEntry Cmd} (h : x ∈ l.segment lo hi) :
    x.2 ∈ l.inner := by
  obtain ⟨n, -, hn⟩ := List.mem_filterMap.mp h
  obtain ⟨e, he, rfl⟩ := Option.map_eq_some_iff.mp hn
  exact List.mem_of_getElem? he

end Log

namespace State

variable {s s' : State NodeID Cmd} {clk : Clock} {q : NodeID} {msgs : Outgoing NodeID Cmd}
  {apps : List (LogIndex × LogEntry Cmd)}

theorem applyLoop_segment {log : Log Cmd} {commit last last' : Option LogIndex} {fuel : ℕ}
    (h : applyLoop log commit fuel last = .ok (last', apps)) :
    upTo last ≤ upTo last' ∧ apps = log.segment (upTo last) (upTo last') := by
  induction fuel generalizing last last' apps with
  | zero =>
    simp only [applyLoop, Except.pure_eq_ok_iff, Prod.mk.injEq] at h
    obtain ⟨rfl, rfl⟩ := h
    exact ⟨le_rfl, (log.segment_self _).symm⟩
  | succ fuel ih =>
    simp only [applyLoop] at h
    split at h
    · obtain ⟨next, hnext, h⟩ := Except.bind_eq_ok_iff.mp h
      have hpred := LogIndex.incOrDefault_eq_ok hnext
      split at h
      · simp at h
      · next e he =>
        simp only [Except.bind_eq_ok_iff, Except.pure_eq_ok_iff, Prod.mk.injEq, Prod.exists] at h
        obtain ⟨last'', apps', hrec, rfl, rfl⟩ := h
        obtain ⟨hle, rfl⟩ := ih hrec
        have hval : upTo (some next) = upTo last + 1 := by
          rw [← hpred]
          exact next.natPred_add_one.symm
        have hget : log.inner[upTo last]? = some e := hpred ▸ he
        refine ⟨by omega, ?_⟩
        rw [Log.segment_of_lt (by omega) hget, hval, ← hpred, PNat.succPNat_natPred]
    · simp only [Except.pure_eq_ok_iff, Prod.mk.injEq] at h
      obtain ⟨rfl, rfl⟩ := h
      exact ⟨le_rfl, (log.segment_self _).symm⟩

/-- From `s` to `s'` the entries `apps` were applied: those after the last applied one. -/
structure Executes (s s' : State NodeID Cmd) (apps : List (LogIndex × LogEntry Cmd)) : Prop where
  le : upTo s.c.lastApplied ≤ upTo s'.c.lastApplied
  apps_eq : apps = s'.c.log.segment (upTo s.c.lastApplied) (upTo s'.c.lastApplied)

theorem Executes.of_eq (h : upTo s'.c.lastApplied = upTo s.c.lastApplied) : Executes s s' [] :=
  ⟨h.ge, by rw [h, Log.segment_self]⟩

theorem executes_advanceStateMachine (hs : s.advanceStateMachine = .ok (s', apps)) :
    Executes s s' apps := by
  unfold advanceStateMachine at hs
  split at hs
  · simp at hs
  · simp only [Except.bind_eq_ok_iff, Except.pure_eq_ok_iff, Prod.mk.injEq, Prod.exists] at hs
    obtain ⟨last, apps', hloop, rfl, rfl⟩ := hs
    obtain ⟨hle, heq⟩ := applyLoop_segment hloop
    exact ⟨hle, heq⟩

theorem executes_followCommitIndex {ci : Option LogIndex}
    (hs : s.followCommitIndex ci = .ok (s', apps)) : Executes s s' apps := by
  unfold followCommitIndex at hs
  split at hs
  · obtain ⟨hle, heq⟩ := executes_advanceStateMachine hs
    exact ⟨hle, heq⟩
  · simp only [Except.pure_eq_ok_iff, Prod.mk.injEq] at hs
    obtain ⟨rfl, rfl⟩ := hs
    exact .of_eq rfl

theorem executes_advanceCommitIndex (hs : s.advanceCommitIndex = .ok (s', apps)) :
    Executes s s' apps := by
  cases hr : s.r with
  | follower _ _ | candidate _ => simp [advanceCommitIndex, hr] at hs
  | leader next mtch lr =>
    rcases advanceCommitIndex_cases hr hs with ⟨rfl, rfl⟩ | ⟨values, n, e, -, -, -, -, hs⟩
    · exact .of_eq rfl
    · obtain ⟨hle, heq⟩ := executes_advanceStateMachine hs
      exact ⟨hle, heq⟩

variable [DecidableEq NodeID]

theorem executes_handleAppendEntries {T : Term} {ci pi : Option LogIndex} {pt : Option Term}
    {es : Log Cmd} {m : RaftMessage Cmd} {effects : Effects Cmd}
    (hs : s.handleAppendEntries clk q T ci pi pt es = .ok (s', m, effects)) :
    Executes s s' effects.applied ∧
      ∀ {n : ℕ} {e : LogEntry Cmd}, s'.c.log.inner[n]? = some e →
        s.c.log.inner[n]? = some e ∨ e ∈ es.inner := by
  unfold handleAppendEntries at hs
  simp only at hs
  split at hs
  · simp only [Except.pure_eq_ok_iff, Prod.mk.injEq] at hs
    obtain ⟨rfl, -, rfl⟩ := hs
    exact ⟨.of_eq rfl, .inl⟩
  split at hs
  · simp at hs
  split at hs
  · split at hs
    · simp at hs
    simp only [cancelCandidacy_c] at hs
    split at hs
    · simp only [Except.pure_eq_ok_iff, Prod.mk.injEq] at hs
      obtain ⟨rfl, -, rfl⟩ := hs
      exact ⟨.of_eq rfl, .inl⟩
    · simp only [Except.bind_eq_ok_iff, Except.pure_eq_ok_iff, Prod.mk.injEq, Prod.exists] at hs
      obtain ⟨start, -, log, drops, hlog, s'', apps, hfollow, rfl, -, rfl⟩ := hs
      obtain ⟨hle, heq⟩ := executes_followCommitIndex hfollow
      refine ⟨⟨hle, heq⟩, fun {n e} he => ?_⟩
      rw [(keeps_followCommitIndex hfollow).log] at he
      rcases Log.replaceFrom_eq_ok hlog with ⟨-, rfl, -⟩ | ⟨hle, hsplice, -⟩
      · exact .inl he
      · rw [hsplice] at he
        exact (getElem?_splice hle he).imp_right fun h => List.mem_of_getElem? h.2
  · simp at hs

variable [Wire Cmd]

theorem executes_handleAppendEntriesResponse {success : Bool} {i : Option LogIndex}
    (hs : s.handleAppendEntriesResponse clk q success i = .ok (s', msgs, apps)) :
    Executes s s' apps := by
  unfold handleAppendEntriesResponse at hs
  split at hs
  · split at hs
    · simp only [Except.pure_eq_ok_iff, Prod.mk.injEq] at hs
      obtain ⟨rfl, -, rfl⟩ := hs
      exact .of_eq rfl
    split at hs
    · simp only [Except.bind_eq_ok_iff, Except.pure_eq_ok_iff, Prod.mk.injEq, Prod.exists] at hs
      obtain ⟨s'', msgs', hrep, rfl, -, rfl⟩ := hs
      exact .of_eq (congrArg Core.applied (replicateLog_eq_ok hrep).1)
    split at hs
    · simp only [Except.pure_eq_ok_iff, Prod.mk.injEq] at hs
      obtain ⟨rfl, -, rfl⟩ := hs
      exact .of_eq rfl
    split at hs
    · simp only [Except.pure_eq_ok_iff, Prod.mk.injEq] at hs
      obtain ⟨rfl, -, rfl⟩ := hs
      exact .of_eq rfl
    · simp only [Except.bind_eq_ok_iff, Except.pure_eq_ok_iff, Prod.mk.injEq, Prod.exists] at hs
      obtain ⟨nj, -, s'', apps', hadv, rfl, -, rfl⟩ := hs
      obtain ⟨hle, heq⟩ := executes_advanceCommitIndex hadv
      exact ⟨hle, heq⟩
  · simp only [Except.pure_eq_ok_iff, Prod.mk.injEq] at hs
    obtain ⟨rfl, -, rfl⟩ := hs
    exact .of_eq rfl

end State

variable [DecidableEq NodeID] [Wire Cmd]

/-- Only requests to append entries and responses to them make a node apply anything. -/
theorem Move.applied_eq {a : Action NodeID Cmd} {k k' : Core NodeID Cmd} {h h' : History NodeID Cmd}
    {recv : Option (NodeID × RaftMessage Cmd)} {fresh : Outgoing NodeID Cmd}
    (hm : Move a k h recv k' h' fresh) : k'.applied = k.applied ∨ ∃ p m, recv = some (p, m) ∧
      ((∃ T ci pi pt es, m = .appendEntries T ci pi pt es) ∨
        ∃ T i, m = .appendEntriesResponse T i true) := by
  cases hm with
  | accept _ _ _ => exact .inr ⟨_, _, rfl, .inl ⟨_, _, _, _, _, rfl⟩⟩
  | ack _ _ _ _ _ => exact .inr ⟨_, _, rfl, .inr ⟨_, _, rfl⟩⟩
  | _ => exact .inl rfl

/-- What handling a message that was received over the wire applies, and where the entries of the
log then come from. -/
theorem State.executes_handle {s s' : State NodeID Cmd} {clk : Clock} {q : NodeID}
    {m : RaftMessage Cmd} {msgs : Outgoing NodeID Cmd} {effects : Effects Cmd}
    (hwire : m.wire = m) (hterm : m.term ≤ s.c.currentTerm)
    (hs : s.handle clk q m = .ok (s', msgs, effects)) : Executes s s' effects.applied ∧
      ∀ {n : ℕ} {e : LogEntry Cmd}, s'.c.log.inner[n]? = some e →
        s.c.log.inner[n]? = some e ∨ e.wire = e := by
  obtain ⟨fresh, hmove, -⟩ := handle_move (a := .crash) (h := .empty) hwire hterm hs
  cases m with
  | requestVote T li lt =>
    simp only [handle, Except.bind_eq_ok_iff, Except.pure_eq_ok_iff, Prod.mk.injEq,
      Prod.exists] at hs
    obtain ⟨s'', m', hs', rfl, -, rfl⟩ := hs
    refine ⟨.of_eq (hmove.applied_eq.resolve_right (by simp)), fun he => .inl ?_⟩
    rwa [(keeps_handleVoteRequest hs').log] at he
  | requestVoteResponse T granted =>
    simp only [handle, Except.bind_eq_ok_iff, Except.pure_eq_ok_iff, Prod.mk.injEq,
      Prod.exists] at hs
    obtain ⟨s'', msgs', hs', rfl, -, rfl⟩ := hs
    refine ⟨.of_eq (hmove.applied_eq.resolve_right (by simp)), fun he => .inl ?_⟩
    rwa [(keeps_handleVoteResponse hs').log] at he
  | appendEntries T ci pi pt es =>
    simp only [handle, Except.bind_eq_ok_iff, Except.pure_eq_ok_iff, Prod.mk.injEq,
      Prod.exists] at hs
    obtain ⟨s'', m', effects', hs', rfl, -, rfl⟩ := hs
    obtain ⟨hexec, hlog⟩ := executes_handleAppendEntries hs'
    refine ⟨hexec, fun he => (hlog he).imp_right fun hmem => ?_⟩
    simp only [RaftMessage.wire, Log.wire, RaftMessage.appendEntries.injEq, true_and] at hwire
    rw [← congrArg Log.inner hwire] at hmem
    obtain ⟨e', -, rfl⟩ := List.mem_map.mp hmem
    exact e'.wire_wire
  | appendEntriesResponse T i success =>
    simp only [handle, Except.bind_eq_ok_iff, Except.pure_eq_ok_iff, Prod.mk.injEq,
      Prod.exists] at hs
    obtain ⟨s'', msgs', apps, hs', rfl, -, rfl⟩ := hs
    refine ⟨executes_handleAppendEntriesResponse hs', fun he => .inl ?_⟩
    rwa [(keeps_handleAppendEntriesResponse hs').log] at he

omit [Wire Cmd] in
/-- Dismissed commands were in the log. -/
theorem State.mem_dismissed {s s' : State NodeID Cmd} {clk : Clock} {q : NodeID}
    {m : RaftMessage Cmd} {msgs : Outgoing NodeID Cmd} {effects : Effects Cmd}
    (hs : s.handle clk q m = .ok (s', msgs, effects)) {x : LogEntry Cmd × ℕ}
    (hx : x ∈ effects.dismissed) : x.1 ∈ s.c.log.inner := by
  cases m with
  | appendEntries T ci pi pt es =>
    simp only [handle, Except.bind_eq_ok_iff, Except.pure_eq_ok_iff, Prod.mk.injEq,
      Prod.exists] at hs
    obtain ⟨s'', m', effects', hs, rfl, -, rfl⟩ := hs
    unfold handleAppendEntries at hs
    simp only at hs
    split at hs
    · cases hs
      cases hx
    split at hs
    · simp at hs
    split at hs
    · split at hs
      · simp at hs
      simp only [cancelCandidacy_c] at hs
      split at hs
      · cases hs
        cases hx
      · simp only [Except.bind_eq_ok_iff, Except.pure_eq_ok_iff, Prod.mk.injEq, Prod.exists] at hs
        obtain ⟨start, -, log, drops, hlog, s'', apps, -, -, -, rfl⟩ := hs
        rcases Log.replaceFrom_eq_ok hlog with ⟨-, -, rfl⟩ | ⟨-, -, rfl⟩
        · cases hx
        · obtain ⟨k, -, -, hget⟩ := mem_dropped hx
          exact List.mem_of_getElem? hget
    · simp at hs
  | requestVote T li lt | requestVoteResponse T granted | appendEntriesResponse T i success =>
    simp only [handle, Except.bind_eq_ok_iff, Except.pure_eq_ok_iff, Prod.mk.injEq,
      Prod.exists] at hs
    grind

namespace Node

variable {n n' : Node NodeID Cmd} {a : Action NodeID Cmd} {msgs : Outgoing NodeID Cmd}

theorem step_clientAppend (hs : n.step .clientAppend = .ok (n', msgs)) :
    ∃ cmd, n.clientLoop = .checked cmd ∧ n'.state = n.state.append cmd ∧
      n'.history.created = ⟨n.state.c.log.inner.length, ⟨cmd, n.state.c.currentTerm⟩,
        n.state.isLeader⟩ :: n.history.created := by
  simp only [step] at hs
  split at hs
  · next cmd hloop =>
    simp only [Except.pure_eq_ok_iff, Prod.mk.injEq] at hs
    obtain ⟨rfl, -⟩ := hs
    exact ⟨cmd, hloop, rfl, rfl⟩
  · simp at hs

/-- The log of a node only gets entries that came over the wire, or were there before. -/
structure Receives (n n' : Node NodeID Cmd) : Prop where
  created : n'.history.created = n.history.created
  log : ∀ {k : ℕ} {e : LogEntry Cmd}, n'.state.c.log.inner[k]? = some e →
    n.state.c.log.inner[k]? = some e ∨ e.wire = e

omit [DecidableEq NodeID] in
theorem Receives.of_keeps (h : State.Keeps n.state n'.state)
    (hcreated : n'.history.created = n.history.created) : Receives n n' :=
  ⟨hcreated, fun he => .inl (h.log ▸ he)⟩

theorem step_receives (hready : n.Ready) (hs : n.step a = .ok (n', msgs)) (ha : a ≠ .crash)
    (happend : a ≠ .clientAppend) : Receives n n' := by
  cases a with
  | election clk =>
    simp only [step, Except.bind_eq_ok_iff, Except.pure_eq_ok_iff, Prod.mk.injEq, Prod.exists,
      locked_eq_ok] at hs
    obtain ⟨s', msgs', hs, rfl, -⟩ := hs
    exact .of_keeps (State.keeps_maybeBeginElection hs) rfl
  | replicate clk =>
    simp only [step, Except.bind_eq_ok_iff, Except.pure_eq_ok_iff, Prod.mk.injEq, Prod.exists,
      locked_eq_ok] at hs
    obtain ⟨s', msgs', hs, rfl, -⟩ := hs
    exact .of_keeps (State.keeps_replicateLog hs) rfl
  | receive p m =>
    simp only [step] at hs
    split at hs
    · simp only [Except.bind_eq_ok_iff, Except.pure_eq_ok_iff, Prod.mk.injEq, locked_eq_ok] at hs
      obtain ⟨s', hs, rfl, -⟩ := hs
      exact .of_keeps (State.keeps_maybeStepDown hs) rfl
    · simp at hs
  | handle clk =>
    simp only [step] at hs
    split at hs
    · next p m hloop =>
      obtain ⟨hwire, hterm⟩ := hready p m hloop
      simp only [Except.bind_eq_ok_iff, Except.pure_eq_ok_iff, Prod.mk.injEq, Prod.exists,
        locked_eq_ok] at hs
      obtain ⟨s', responses, effects, hs, rfl, -⟩ := hs
      exact ⟨rfl, (State.executes_handle hwire hterm hs).2⟩
    · simp at hs
  | snapshot =>
    simp only [step] at hs
    split at hs
    · simp only [Except.bind_eq_ok_iff, Except.pure_eq_ok_iff, Prod.mk.injEq] at hs
      obtain ⟨p, -, rfl, -⟩ := hs
      exact .of_keeps (.of_eq rfl) rfl
    · simp at hs
  | persist ok =>
    simp only [step] at hs
    split at hs
    · split at hs
      · simp only [Except.pure_eq_ok_iff, Prod.mk.injEq] at hs
        obtain ⟨rfl, -⟩ := hs
        exact .of_keeps (.of_eq rfl) rfl
      · simp only [Except.pure_eq_ok_iff, Prod.mk.injEq] at hs
        obtain ⟨rfl, -⟩ := hs
        exact .of_keeps (.of_eq rfl) rfl
    · simp at hs
  | respond | clientRequest _ =>
    simp only [step] at hs
    split at hs
    · simp only [Except.pure_eq_ok_iff, Prod.mk.injEq] at hs
      obtain ⟨rfl, -⟩ := hs
      exact .of_keeps (.of_eq rfl) rfl
    · simp at hs
  | clientReplicate clk =>
    simp only [step] at hs
    split at hs
    · simp only [Except.bind_eq_ok_iff, Except.pure_eq_ok_iff, Prod.mk.injEq, Prod.exists,
        locked_eq_ok] at hs
      obtain ⟨s', msgs', hs, rfl, -⟩ := hs
      exact .of_keeps (State.keeps_replicateLog hs) rfl
    · simp at hs
  | clientAppend => exact absurd rfl happend
  | crash => exact absurd rfl ha

/-- What a step applies. -/
theorem step_executes (hready : n.Ready) (hs : n.step a = .ok (n', msgs)) (ha : a ≠ .crash) :
    State.Executes n.state n'.state (n.effects a).applied := by
  obtain ⟨recv, fresh, hmove, hrecv, -⟩ := step_move hready hs ha
  by_cases hhandle : ∃ clk, a = .handle clk
  · obtain ⟨clk, rfl⟩ := hhandle
    simp only [step] at hs
    split at hs
    · next p m hloop =>
      obtain ⟨hwire, hterm⟩ := hready p m hloop
      simp only [Except.bind_eq_ok_iff, Except.pure_eq_ok_iff, Prod.mk.injEq, Prod.exists,
        locked_eq_ok] at hs
      obtain ⟨s', responses, effects, hs, rfl, -⟩ := hs
      have heffects : n.effects (.handle clk) = effects := by
        simp only [Node.effects, hloop, hs]
      rw [heffects]
      exact (State.executes_handle hwire hterm hs).1
    · simp at hs
  · have heffects : n.effects a = ⟨[], []⟩ := by
      cases a with
      | handle clk => exact absurd ⟨clk, rfl⟩ hhandle
      | _ => rfl
    rw [heffects]
    refine .of_eq ?_
    rcases hmove.applied_eq with h | ⟨p, m, rfl, -⟩
    · exact h
    · obtain ⟨-, clk, rfl⟩ := hrecv p m rfl
      exact absurd ⟨clk, rfl⟩ hhandle

theorem mem_dismissed (hs : n.step a = .ok (n', msgs)) {x : LogEntry Cmd × ℕ}
    (hx : x ∈ (n.effects a).dismissed) : x.1 ∈ n.state.c.log.inner := by
  cases a with
  | handle clk =>
    simp only [step] at hs
    split at hs
    · next p m hloop =>
      simp only [Except.bind_eq_ok_iff, Except.pure_eq_ok_iff, Prod.mk.injEq, Prod.exists,
        locked_eq_ok] at hs
      obtain ⟨s', responses, effects, hs, -, -⟩ := hs
      simp only [Node.effects, hloop, hs] at hx
      exact State.mem_dismissed hs hx
    · simp at hs
  | _ => cases hx

/-- Only a request of a client gives the client loop a command to append. -/
theorem step_checked (hs : n.step a = .ok (n', msgs)) {cmd : Cmd}
    (hloop : n'.clientLoop = .checked cmd) :
    a = .clientRequest cmd ∨ n.clientLoop = .checked cmd := by
  cases a with
  | clientRequest cmd' =>
    simp only [step] at hs
    split at hs
    · simp only [Except.pure_eq_ok_iff, Prod.mk.injEq] at hs
      obtain ⟨rfl, -⟩ := hs
      simp only at hloop
      split at hloop
      · exact .inl (by simpa using hloop)
      · cases hloop
    · simp at hs
  | election clk | replicate clk =>
    simp only [step, Except.bind_eq_ok_iff, Except.pure_eq_ok_iff, Prod.mk.injEq,
      Prod.exists] at hs
    obtain ⟨s', msgs', -, rfl, -⟩ := hs
    exact .inr hloop
  | receive p m | snapshot =>
    simp only [step] at hs
    split at hs
    · simp only [Except.bind_eq_ok_iff, Except.pure_eq_ok_iff, Prod.mk.injEq] at hs
      obtain ⟨s', -, rfl, -⟩ := hs
      exact .inr hloop
    · simp at hs
  | handle clk =>
    simp only [step] at hs
    split at hs
    · simp only [Except.bind_eq_ok_iff, Except.pure_eq_ok_iff, Prod.mk.injEq, Prod.exists] at hs
      obtain ⟨s', responses, effects, -, rfl, -⟩ := hs
      exact .inr hloop
    · simp at hs
  | persist ok =>
    simp only [step] at hs
    split at hs
    · split at hs
      · simp only [Except.pure_eq_ok_iff, Prod.mk.injEq] at hs
        obtain ⟨rfl, -⟩ := hs
        exact .inr hloop
      · simp only [Except.pure_eq_ok_iff, Prod.mk.injEq] at hs
        obtain ⟨rfl, -⟩ := hs
        exact .inr hloop
    · simp at hs
  | respond =>
    simp only [step] at hs
    split at hs
    · simp only [Except.pure_eq_ok_iff, Prod.mk.injEq] at hs
      obtain ⟨rfl, -⟩ := hs
      exact .inr hloop
    · simp at hs
  | clientAppend =>
    simp only [step] at hs
    split at hs
    · simp only [Except.pure_eq_ok_iff, Prod.mk.injEq] at hs
      obtain ⟨rfl, -⟩ := hs
      cases hloop
    · simp at hs
  | clientReplicate clk =>
    simp only [step] at hs
    split at hs
    · simp only [Except.bind_eq_ok_iff, Except.pure_eq_ok_iff, Prod.mk.injEq, Prod.exists] at hs
      obtain ⟨s', msgs', -, rfl, -⟩ := hs
      cases hloop
    · simp at hs
  | crash =>
    simp only [step, Except.pure_eq_ok_iff, Prod.mk.injEq] at hs
    obtain ⟨rfl, -⟩ := hs
    cases hloop

end Node

/-! ## Steps of the store -/

namespace Store

variable {K V : Type} {s s' : Store NodeID K V} {i : NodeID}

/-- The maps and the history are the same. -/
structure Rests (s s' : Store NodeID K V) : Prop where
  machine : ∀ j, (s'.apps j).machine = (s.apps j).machine
  trace : s'.trace = s.trace

omit [Wire Cmd] in
theorem rests_update {app : Application NodeID K V} {sent : List (NodeID × ClientMessage K V)}
    (h : app.machine = (s.apps i).machine) : Rests s (s.update i app sent) := by
  refine ⟨fun j => ?_, rfl⟩
  by_cases hj : j = i
  · subst hj
    simpa [update] using h
  · simp [update, hj]

theorem rests_dispatch (s : Store NodeID K V) (i : NodeID) (front : ClientFront NodeID)
    (served : Served NodeID K V) :
    Rests s (s.dispatch i front served) ∧ (s.dispatch i front served).cluster = s.cluster := by
  cases served <;> exact ⟨rests_update rfl, rfl⟩

variable [DecidableEq K] [DecidableEq V] {debug : V → String} {cfg : Config NodeID}
  {l : StoreLabel NodeID K V} {client : NodeID} {msg : ClientMessage K V}

theorem take_eq_ok (hs : s.take cfg i client msg = .ok s') : Rests s s' ∧
    (s'.cluster = s.cluster ∨ ∃ cmd, s.cluster.step cfg (i, .clientRequest cmd) = .ok s'.cluster) := by
  unfold take at hs
  simp only at hs
  split at hs
  · simp only [Except.pure_eq_ok_iff] at hs
    exact ⟨hs ▸ rests_update rfl, .inl (hs ▸ rfl)⟩
  · simp only [Except.bind_eq_ok_iff, Prod.exists] at hs
    obtain ⟨front, served, -, hs⟩ := hs
    split at hs
    · next cmd =>
      split at hs
      · next cluster hc =>
        simp only [Except.pure_eq_ok_iff] at hs
        subst hs
        obtain ⟨hrests, hcluster⟩ := rests_dispatch { s with cluster } i front (.append cmd)
        exact ⟨⟨hrests.machine, hrests.trace⟩, .inr ⟨cmd, hcluster ▸ hc⟩⟩
      · simp at hs
    · simp only [Except.pure_eq_ok_iff] at hs
      subst hs
      obtain ⟨hrests, hcluster⟩ := rests_dispatch s i front served
      exact ⟨hrests, .inl hcluster⟩

omit [DecidableEq K] [DecidableEq V] in
theorem relay_eq_ok (hs : s.relay i = .ok s') : Rests s s' ∧ s'.cluster = s.cluster := by
  unfold relay at hs
  split at hs
  · simp only [Except.bind_eq_ok_iff, Except.pure_eq_ok_iff, Prod.exists] at hs
    obtain ⟨front, served, -, rfl⟩ := hs
    exact rests_dispatch ..
  · simp at hs

/-- A step of the store is one of its cluster, with what it does to the map and to the clients, or
leaves maps and history alone. -/
theorem step_eq_ok (hs : s.step debug cfg l = .ok s') :
    (∃ i a c, l = .node i (.engine a) ∧ s.cluster.step cfg (i, a) = .ok c ∧
      s' = { s.react debug i a with cluster := c }) ∨
    (Rests s s' ∧ (s'.cluster = s.cluster ∨
      ∃ i cmd, s.cluster.step cfg (i, .clientRequest cmd) = .ok s'.cluster)) := by
  unfold step at hs
  split at hs
  · split at hs
    · simp only [Except.pure_eq_ok_iff] at hs
      subst hs
      exact .inr ⟨⟨fun _ => rfl, rfl⟩, .inl rfl⟩
    · simp at hs
  · simp at hs
  · split at hs
    · next c hc =>
      simp only [Except.pure_eq_ok_iff] at hs
      exact .inl ⟨_, _, c, rfl, hc, hs.symm⟩
    · simp at hs
  · next i client msg =>
    split at hs
    · obtain ⟨hrests, hcluster⟩ := take_eq_ok hs
      exact .inr ⟨hrests, hcluster.imp_right fun h => ⟨i, h⟩⟩
    · simp at hs
  · split at hs
    · obtain ⟨hrests, hcluster⟩ := relay_eq_ok hs
      exact .inr ⟨hrests, .inl hcluster⟩
    · simp at hs

end Store

end Miniraft

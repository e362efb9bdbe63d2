import Mathlib.Data.List.ReduceOption
import Miniraft.Raft.Engine
import Miniraft.Verify.Log

/-!
# What a step can do

The part of a node's state the protocol is about is its `Core`: deadlines, the times of
replication, the known leader and the reply fields of commands are forgotten. A `Move` is what one
step can do to the core and the history of a node, with the message it reacts to and the messages
it produces. Every step of a node other than a crash is a move (`Node.step_move`); what holds of
all runs is proved from the moves.
-/

namespace Miniraft

open Consensus

variable {NodeID Cmd : Type}

/-- The role of a node as far as other nodes can tell. -/
inductive Stance (NodeID : Type) where
  | follower (votedFor : Option NodeID)
  | candidate (votes : Finset NodeID)
  | leader (nextIndexes : Map NodeID LogIndex) (matchIndexes : Map NodeID (Option LogIndex))

def Role.stance : Role NodeID → Stance NodeID
  | .follower _ votedFor => .follower votedFor
  | .candidate votes => .candidate votes
  | .leader nextIndexes matchIndexes _ => .leader nextIndexes matchIndexes

namespace Stance

/-- `become_follower` -/
def stepDown (votedFor : Option NodeID) : Stance NodeID → Stance NodeID
  | .follower v => .follower v
  | .candidate _ | .leader .. => .follower votedFor

def IsLeader : Stance NodeID → Prop
  | .leader .. => True
  | _ => False

end Stance

structure Core (NodeID Cmd : Type) where
  id : NodeID
  peers : List NodeID
  term : Term
  /-- The log as it goes over the wire. -/
  log : Log Cmd
  commit : ℕ
  applied : ℕ
  stance : Stance NodeID

/-- The request a candidate sends. -/
def Core.voteRequest (k : Core NodeID Cmd) (T : Term) : RaftMessage Cmd :=
  .requestVote T k.log.highestIndex (k.log.last.map (·.term))

variable [Wire Cmd]

/-! ## What the wire keeps -/

namespace Log

@[simp] theorem length_wire (l : Log Cmd) : l.wire.inner.length = l.inner.length := by
  simp [wire]

theorem getElem?_wire (l : Log Cmd) (i : ℕ) : l.wire.inner[i]? = l.inner[i]?.map LogEntry.wire := by
  simp [wire]

theorem get_wire (l : Log Cmd) (i : LogIndex) : l.wire.get i = (l.get i).map LogEntry.wire := by
  simp [wire, get]

@[simp] theorem get_wire_term (l : Log Cmd) (i : LogIndex) :
    (l.wire.get i).map (·.term) = (l.get i).map (·.term) := by
  rw [get_wire, Option.map_map]
  rfl

@[simp] theorem highestIndex_wire (l : Log Cmd) : l.wire.highestIndex = l.highestIndex := by
  simp [highestIndex, wire]

@[simp] theorem last_wire_term (l : Log Cmd) :
    l.wire.last.map (·.term) = l.last.map (·.term) := by
  simp only [last, wire, List.getLast?_map, Option.map_map]
  rfl

theorem append_wire (l : Log Cmd) (e : LogEntry Cmd) :
    (l.append e).wire = l.wire.append e.wire := by
  simp [append, wire]

end Log

@[simp] theorem LogEntry.wire_wire (e : LogEntry Cmd) : e.wire.wire = e.wire := by
  simp [wire, Miniraft.wire_wire]

@[simp] theorem RaftMessage.wire_wire (m : RaftMessage Cmd) : m.wire.wire = m.wire := by
  cases m with
  | appendEntries T ci pi pt es => simp [wire, Log.wire]
  | _ => rfl

theorem Applies.wire {log : Log Cmd} {lo hi : ℕ} {apps : List (LogIndex × LogEntry Cmd)}
    (h : Applies log lo hi apps) : Applies log.wire lo hi (apps.map (Prod.map id LogEntry.wire)) := by
  rintro x hx
  obtain ⟨y, hy, rfl⟩ := List.mem_map.mp hx
  obtain ⟨h1, h2, he⟩ := h y hy
  refine ⟨h1, h2, (Log.get_wire ..).trans ?_⟩
  rw [show (Prod.map id LogEntry.wire y).1 = y.1 from rfl, he]
  rfl

def State.core (s : State NodeID Cmd) : Core NodeID Cmd where
  id := s.c.id
  peers := s.c.nodeIds
  term := s.c.currentTerm
  log := s.c.log.wire
  commit := upTo s.c.commitIndex
  applied := upTo s.c.lastApplied
  stance := s.r.stance

namespace State

variable {s s' : State NodeID Cmd} {clk : Clock} {msgs : Outgoing NodeID Cmd}

theorem upToDate_wire (l : Log Cmd) (li : Option LogIndex) (lt : Option Term) :
    upToDate l.wire li lt = upToDate l li lt := by
  simp [upToDate]

theorem isLeader_iff : s.isLeader = true ↔ s.core.stance.IsLeader := by
  unfold isLeader
  cases hr : s.r <;> simp [core, hr, Role.stance, Stance.IsLeader]

theorem core_becomeFollower (v : Option NodeID) (s : State NodeID Cmd) :
    (s.becomeFollower v).core = { s.core with stance := s.core.stance.stepDown v } := by
  unfold becomeFollower
  cases hr : s.r <;> simp [core, hr, Role.stance, Stance.stepDown]

theorem maybeStepDown_eq_ok {T : Term} (hs : s.maybeStepDown T = .ok s') :
    (s' = s ∧ T ≤ s.c.currentTerm) ∨ (s.c.currentTerm < T ∧
      s'.core = { s.core with term := T, stance := s.core.stance.stepDown none }) := by
  unfold maybeStepDown at hs
  split at hs
  · next hlt =>
    simp only [Except.bind_eq_ok_iff, Except.pure_eq_ok_iff] at hs
    obtain ⟨T', hT', rfl⟩ := hs
    obtain ⟨-, rfl⟩ := Term.set_eq_ok hT'
    exact .inr ⟨hlt, core_becomeFollower ..⟩
  · next hge =>
    simp only [Except.pure_eq_ok_iff] at hs
    exact .inl ⟨hs.symm, not_lt.mp hge⟩

theorem maybeStepDown_le {T : Term} (hs : s.maybeStepDown T = .ok s') :
    T ≤ s'.c.currentTerm := by
  rcases maybeStepDown_eq_ok hs with ⟨rfl, hle⟩ | ⟨-, hcore⟩
  · exact hle
  · exact (congrArg Core.term hcore).ge

/-! ## Elections -/

theorem maybeBeginElection_eq_ok (hs : s.maybeBeginElection clk = .ok (s', msgs)) :
    (s'.core = s.core ∧ msgs = []) ∨ ∃ T, s.core.term < T ∧ ¬ s.core.stance.IsLeader ∧
      s'.core = { s.core with term := T, stance := .candidate {s.core.id} } ∧
      msgs = s.core.peers.map fun p => (p, s.core.voteRequest T) := by
  unfold maybeBeginElection becomeCandidate at hs
  split at hs
  · simp only [Except.pure_eq_ok_iff, Prod.mk.injEq] at hs
    exact .inl ⟨hs.1 ▸ rfl, hs.2.symm⟩
  split at hs
  · simp only [Except.pure_eq_ok_iff, Prod.mk.injEq] at hs
    exact .inl ⟨hs.1 ▸ rfl, hs.2.symm⟩
  split at hs
  · simp at hs
  split at hs
  · next hr =>
    simp only [Except.bind_eq_ok_iff, Except.pure_eq_ok_iff, Prod.mk.injEq] at hs
    obtain ⟨T, hT, rfl, rfl⟩ := hs
    refine .inr ⟨T, Term.step_eq_ok hT, ?_, rfl, ?_⟩
    · simp [core, hr, Role.stance, Stance.IsLeader]
    · simp [requestVotes, Common.extendElectionDeadline, core, Core.voteRequest]
  · next hr =>
    simp only [Except.bind_eq_ok_iff, Except.pure_eq_ok_iff, Prod.mk.injEq] at hs
    obtain ⟨T, hT, rfl, rfl⟩ := hs
    refine .inr ⟨T, Term.step_eq_ok hT, ?_, rfl, ?_⟩
    · simp [core, hr, Role.stance, Stance.IsLeader]
    · simp [requestVotes, Common.extendElectionDeadline, core, Core.voteRequest]
  · simp at hs

/-! ## Following a leader -/

theorem advanceStateMachine_core {apps : List (LogIndex × LogEntry Cmd)}
    (hs : s.advanceStateMachine = .ok (s', apps)) :
    s'.core = { s.core with applied := s.core.commit } ∧ s.core.applied ≤ s.core.commit ∧
      Applies s.core.log s.core.applied s.core.commit (apps.map (Prod.map id LogEntry.wire)) := by
  obtain ⟨last, rfl, hlast, hle, happ⟩ := advanceStateMachine_eq_ok hs
  exact ⟨by simp [core, hlast], hle, happ.wire⟩

theorem cancelCandidacy_eq {leader v : Option NodeID} (hr : s.cancelCandidacy.r = .follower leader v) :
    ¬ s.core.stance.IsLeader ∧ s.core.stance.stepDown (some s.c.id) = .follower v ∧
      s.cancelCandidacy.c = s.c := by
  unfold cancelCandidacy becomeFollower at hr ⊢
  cases hs : s.r with
  | follower _ _ => simp_all [core, Role.stance, Stance.stepDown, Stance.IsLeader]
  | candidate _ => simp_all [core, Role.stance, Stance.stepDown, Stance.IsLeader]
  | leader _ _ _ => simp_all

theorem followCommitIndex_eq_ok {ci : Option LogIndex} {apps : List (LogIndex × LogEntry Cmd)}
    (hs : s.followCommitIndex ci = .ok (s', apps)) : ∃ commit applied,
    s'.core = { s.core with commit, applied } ∧
      ((upTo ci ≤ s.core.commit ∧ commit = s.core.commit ∧ applied = s.core.applied ∧ apps = []) ∨
        (s.core.commit < upTo ci ∧ commit = min (upTo ci) s.core.log.inner.length ∧
          applied = commit ∧ s.core.applied ≤ commit ∧
          Applies s.core.log s.core.applied commit (apps.map (Prod.map id LogEntry.wire)))) := by
  unfold followCommitIndex at hs
  split at hs
  · next hlt =>
    obtain ⟨hcore, hle, happ⟩ := advanceStateMachine_core hs
    have hcommit : upTo (min ci s.c.log.highestIndex) = min (upTo ci) s.core.log.inner.length := by
      simp [core]
    simp only [core, hcommit] at hcore hle happ
    exact ⟨_, _, hcore, .inr ⟨hlt, rfl, rfl, hle, happ⟩⟩
  · next hge =>
    simp only [Except.pure_eq_ok_iff, Prod.mk.injEq] at hs
    obtain ⟨rfl, rfl⟩ := hs
    exact ⟨_, _, rfl, .inl ⟨not_lt.mp hge, rfl, rfl, rfl⟩⟩

end State

/-! ## Moves -/

variable [DecidableEq NodeID]

/-- A request a leader sends to a peer: everything from the peer's next index on. -/
structure Core.Appends (k : Core NodeID Cmd) (nextIndexes : Map NodeID LogIndex)
    (x : NodeID × RaftMessage Cmd) : Prop where
  peer : x.1 ∈ k.peers
  body : ∃ next commitIndex, nextIndexes.lookup x.1 = some next ∧ upTo commitIndex = k.commit ∧
    x.2 = .appendEntries k.term commitIndex next.dec
      (next.dec.bind fun idx => (k.log.get idx).map (·.term)) ⟨k.log.inner.drop next.natPred⟩

/-- The log of a node and what it applied after a successful AppendEntries request. -/
structure Accepts (k : Core NodeID Cmd) (commitIndex prevLogIndex : Option LogIndex)
    (prevLogTerm : Option Term) (entries log : Log Cmd) (commit applied : ℕ)
    (apps : List (LogIndex × LogEntry Cmd)) (drops : List (LogEntry Cmd × ℕ)) : Prop where
  consistent : (prevLogIndex.bind fun idx => (k.log.get idx).map (·.term)) = prevLogTerm
  spliced : (k.log.inner.length < upTo prevLogIndex ∧ log = k.log ∧ drops = []) ∨
    (upTo prevLogIndex ≤ k.log.inner.length ∧
      log.inner = splice (·.term) k.log.inner (upTo prevLogIndex) entries.inner ∧
      drops.map (Prod.map LogEntry.wire id) =
        dropped (·.term) k.log.inner (upTo prevLogIndex) entries.inner)
  advanced : (upTo commitIndex ≤ k.commit ∧ commit = k.commit ∧ applied = k.applied ∧ apps = []) ∨
    (k.commit < upTo commitIndex ∧ commit = min (upTo commitIndex) log.inner.length ∧
      applied = commit ∧ k.applied ≤ commit ∧
      Applies log k.applied commit (apps.map (Prod.map id LogEntry.wire)))

/-- What `advance_commit_index` does under the match indexes `matchIndexes`. -/
def Commits (k : Core NodeID Cmd) (matchIndexes : Map NodeID (Option LogIndex))
    (commit applied : ℕ) (apps : List (LogIndex × LogEntry Cmd)) : Prop :=
  (commit = k.commit ∧ applied = k.applied ∧ apps = []) ∨
    ∃ values n e, matchIndexes.values.mapM id = some values ∧ lowerMedian values = some n ∧
      k.log.get n = some e ∧ e.term = k.term ∧ commit = max k.commit n ∧ applied = commit ∧
      k.applied ≤ commit ∧ Applies k.log k.applied commit (apps.map (Prod.map id LogEntry.wire))

/-- What action `a` can do at a node with core `k` and history `h`: the message it reacts to, the
core and the history after it, and the messages it produces. -/
inductive Move (a : Action NodeID Cmd) (k : Core NodeID Cmd) (h : History NodeID Cmd) :
    Option (NodeID × RaftMessage Cmd) → Core NodeID Cmd → History NodeID Cmd →
      Outgoing NodeID Cmd → Prop
  | quiet {recv} : Move a k h recv k h []
  | stepDown {T} : k.term < T →
    Move a k h none { k with term := T, stance := k.stance.stepDown none } h []
  | stand {T} : k.term < T → ¬ k.stance.IsLeader →
    Move a k h none { k with term := T, stance := .candidate {k.id} }
      { h with elections := T :: h.elections } (k.peers.map fun p => (p, k.voteRequest T))
  | replicate {next mtch fresh} : k.stance = .leader next mtch → (∀ x ∈ fresh, k.Appends next x) →
    Move a k h none k h fresh
  | refuse {p T li lt} :
    Move a k h (some (p, .requestVote T li lt)) k h [(p, .requestVoteResponse k.term false)]
  | grant {p li lt v} : k.id ≠ p → k.stance = .follower v → v = none ∨ v = some p →
    State.upToDate k.log li lt = true →
    Move a k h (some (p, .requestVote k.term li lt)) { k with stance := .follower (some p) }
      { h with granted := (k.term, p) :: h.granted } [(p, .requestVoteResponse k.term true)]
  | count {p votes} : k.stance = .candidate votes →
    Move a k h (some (p, .requestVoteResponse k.term true))
      { k with stance := .candidate (insert p votes) } h []
  | win {p votes next fresh} : k.stance = .candidate votes → k.id ∉ k.peers →
    k.peers.length + 1 < 2 * (insert p votes).card → next.natPred = k.log.inner.length →
    (∀ x ∈ fresh, k.Appends (.ofKeys k.peers next) x) →
    Move a k h (some (p, .requestVoteResponse k.term true))
      { k with stance := .leader (.ofKeys k.peers next) (.ofKeys k.peers none) } h fresh
  | stale {p T ci pi pt es} : T < k.term →
    Move a k h (some (p, .appendEntries T ci pi pt es)) k h
      [(p, .appendEntriesResponse k.term k.log.highestIndex false)]
  | mismatch {p ci pi pt es} : ¬ k.stance.IsLeader →
    Move a k h (some (p, .appendEntries k.term ci pi pt es))
      { k with stance := k.stance.stepDown (some k.id) } h
      [(p, .appendEntriesResponse k.term k.log.highestIndex false)]
  | accept {p ci pi pt es log commit applied apps drops} : ¬ k.stance.IsLeader → k.id ≠ p →
    Accepts k ci pi pt es log commit applied apps drops →
    Move a k h (some (p, .appendEntries k.term ci pi pt es))
      { k with log, commit, applied, stance := k.stance.stepDown (some k.id) }
      { h with
        applied := h.applied ++ apps
        dismissed := h.dismissed ++ drops
        accepted := (k.term, upTo pi + es.inner.length) :: h.accepted }
      [(p, .appendEntriesResponse k.term log.highestIndex true)]
  | retreat {p T i next mtch ni fresh} : k.stance = .leader next mtch → next.lookup p = some ni →
    (∀ x ∈ fresh, k.Appends (next.insert p (ni.dec.getD 1)) x) →
    Move a k h (some (p, .appendEntriesResponse T i false))
      { k with stance := .leader (next.insert p (ni.dec.getD 1)) mtch } h fresh
  | ack {p T next mtch ni commit applied apps} {i : LogIndex} : k.stance = .leader next mtch →
    (next.lookup p).isSome → (mtch.lookup p).isSome → ni.natPred = (i : ℕ) →
    Commits k (mtch.insert p (some i)) commit applied apps →
    Move a k h (some (p, .appendEntriesResponse T (some i) true))
      { k with commit, applied, stance := .leader (next.insert p ni) (mtch.insert p (some i)) }
      { h with applied := h.applied ++ apps } []
  | append {cmd byLeader} : a = .clientAppend → (byLeader = true ↔ k.stance.IsLeader) →
    Move a k h none { k with log := k.log.append ⟨wire cmd, k.term⟩ }
      { h with created := ⟨k.log.inner.length, ⟨cmd, k.term⟩, byLeader⟩ :: h.created } []

namespace History

variable {h : History NodeID Cmd} {p : NodeID} {T U : Term} {li : Option LogIndex}
  {lt : Option Term}

omit [DecidableEq NodeID] [Wire Cmd] in
theorem handled_granted : h.handled (.requestVote T li lt) [(p, .requestVoteResponse U true)]
    ⟨[], []⟩ = { h with granted := (T, p) :: h.granted } := by
  simp [handled]

omit [DecidableEq NodeID] [Wire Cmd] in
theorem handled_refused : h.handled (.requestVote T li lt) [(p, .requestVoteResponse U false)]
    ⟨[], []⟩ = h := by
  simp [handled]

end History

namespace State

variable {s s' : State NodeID Cmd} {a : Action NodeID Cmd} {clk : Clock} {p : NodeID}
  {msgs : Outgoing NodeID Cmd} {h : History NodeID Cmd} {next : Map NodeID LogIndex}
  {mtch : Map NodeID (Option LogIndex)}

theorem replicateTo_eq_ok {hb : Bool} {x : NodeID × RaftMessage Cmd} (hp : p ∈ s.c.nodeIds)
    (hs : replicateTo s.c next hb p = .ok (some x)) : s.core.Appends next (x.1, x.2.wire) := by
  unfold replicateTo at hs
  split at hs
  · simp at hs
  · next ni hni =>
    simp only at hs
    split at hs
    · simp at hs
    · simp only [Except.pure_eq_ok_iff, Option.some.injEq] at hs
      subst hs
      refine ⟨hp, ni, s.c.commitIndex, hni, rfl, ?_⟩
      simp only [RaftMessage.wire, core, Log.getFrom_getD, Log.get_wire_term]
      simp [Log.wire, List.map_drop]

theorem replicateLog_eq_ok (hs : s.replicateLog clk = .ok (s', msgs)) :
    s'.core = s.core ∧ ((msgs = [] ∧ s' = s) ∨ ∃ next mtch, s.core.stance = .leader next mtch ∧
      ∀ x ∈ msgs, s.core.Appends next (x.1, x.2.wire)) := by
  unfold replicateLog at hs
  split at hs
  · next next mtch lr hr =>
    split at hs
    · simp only [Except.pure_eq_ok_iff, Prod.mk.injEq] at hs
      exact ⟨hs.1 ▸ rfl, .inl ⟨hs.2.symm, hs.1.symm⟩⟩
    · next hb _ =>
      simp only [Except.bind_eq_ok_iff, Except.pure_eq_ok_iff, Prod.mk.injEq] at hs
      obtain ⟨xs, hxs, rfl, rfl⟩ := hs
      refine ⟨by simp [core, hr, Role.stance], .inr ⟨next, mtch, by simp [core, hr, Role.stance], ?_⟩⟩
      intro x hx
      obtain ⟨q, hq, hqx⟩ := Except.mem_of_mapM_eq_ok hxs (List.reduceOption_mem_iff.mp hx)
      exact replicateTo_eq_ok hq hqx
  · simp only [Except.pure_eq_ok_iff, Prod.mk.injEq] at hs
    exact ⟨hs.1 ▸ rfl, .inl ⟨hs.2.symm, hs.1.symm⟩⟩

theorem becomeLeader_eq_ok {votes : Finset NodeID} (hr : s.r = .candidate votes)
    (hs : s.becomeLeader clk = .ok (s', msgs)) : s.core.id ∉ s.core.peers ∧
      ∃ next : LogIndex, next.natPred = s.core.log.inner.length ∧
        s'.core = { s.core with
          stance := .leader (.ofKeys s.core.peers next) (.ofKeys s.core.peers none) } ∧
        ∀ x ∈ msgs, s.core.Appends (.ofKeys s.core.peers next) (x.1, x.2.wire) := by
  unfold becomeLeader at hs
  simp only [hr] at hs
  split at hs
  · simp at hs
  · next hid =>
    simp only [Except.bind_eq_ok_iff] at hs
    obtain ⟨next, hnext, hs⟩ := hs
    have hlen := LogIndex.incOrDefault_eq_ok hnext
    obtain ⟨hcore, hmsgs⟩ := replicateLog_eq_ok hs
    refine ⟨hid, next, by simpa [core] using hlen, hcore, fun x hx => ?_⟩
    rcases hmsgs with ⟨rfl, -⟩ | ⟨next', mtch, hstance, happ⟩
    · cases hx
    · cases hstance
      exact ⟨(happ x hx).peer, (happ x hx).body⟩

/-! ## Handlers -/

theorem handleVoteRequest_move {T : Term} {li : Option LogIndex} {lt : Option Term}
    {m : RaftMessage Cmd} (hT : T ≤ s.c.currentTerm)
    (hs : s.handleVoteRequest clk p T li lt = .ok (s', m)) :
    Move a s.core h (some (p, .requestVote T li lt)) s'.core
      (h.handled (.requestVote T li lt) [(p, m)] ⟨[], []⟩) [(p, m)] ∧ m.wire = m := by
  unfold handleVoteRequest at hs
  split at hs
  · simp at hs
  next hid =>
  split at hs
  · next leader v hr =>
    simp only [Except.pure_eq_ok_iff, Prod.mk.injEq] at hs
    obtain ⟨rfl, rfl⟩ := hs
    cases hgrant : voteGranted s.c v p T li lt with
    | true =>
      have hstance : s.core.stance = .follower v := by simp [core, hr, Role.stance]
      simp only [voteGranted, Bool.if_false_left, Bool.and_eq_true, Bool.not_eq_true',
        decide_eq_false_iff_not, not_lt] at hgrant
      obtain ⟨hle, hv, hup⟩ := hgrant
      obtain rfl : s.c.currentTerm = T := le_antisymm hle hT
      rw [← upToDate_wire] at hup
      have hvote : v = none ∨ v = some p := by
        cases v with
        | none => exact .inl rfl
        | some w => exact .inr (by simpa using Eq.symm (a := p) (by simpa using hv))
      simp only [if_true]
      rw [History.handled_granted]
      exact ⟨.grant hid hstance hvote hup, rfl⟩
    | false =>
      rw [History.handled_refused]
      exact ⟨.refuse, rfl⟩
  · simp only [Except.pure_eq_ok_iff, Prod.mk.injEq] at hs
    obtain ⟨rfl, rfl⟩ := hs
    rw [History.handled_refused]
    exact ⟨.refuse, rfl⟩

theorem handleVoteResponse_move {T : Term} {granted : Bool}
    (hs : s.handleVoteResponse clk p T granted = .ok (s', msgs)) :
    ∃ fresh, Move a s.core h (some (p, .requestVoteResponse T granted)) s'.core h fresh ∧
      ∀ x ∈ msgs, (x.1, x.2.wire) ∈ fresh := by
  unfold handleVoteResponse at hs
  split at hs
  · simp only [Except.pure_eq_ok_iff, Prod.mk.injEq] at hs
    obtain ⟨rfl, rfl⟩ := hs
    exact ⟨[], .quiet, by simp⟩
  next hgranted =>
  obtain rfl : granted = true := by simpa using hgranted
  split at hs
  · next votes hr =>
    split at hs
    · simp at hs
    split at hs
    · simp at hs
    · next heq =>
      obtain rfl : s.c.currentTerm = T := compare_eq_iff_eq.mp heq
      have hstance : s.core.stance = .candidate votes := by simp [core, hr, Role.stance]
      simp only at hs
      split at hs
      · next hwon =>
        obtain ⟨hid, next, hnext, hcore, hmsgs⟩ := becomeLeader_eq_ok rfl hs
        refine ⟨msgs.map fun x => (x.1, x.2.wire), ?_, fun x hx => List.mem_map_of_mem hx⟩
        rw [hcore]
        refine .win hstance hid ?_ hnext ?_
        · simp only [wonElection, decide_eq_true_eq] at hwon
          simp only [core]
          omega
        · intro x hx
          obtain ⟨y, hy, rfl⟩ := List.mem_map.mp hx
          exact ⟨(hmsgs y hy).peer, (hmsgs y hy).body⟩
      · simp only [Except.pure_eq_ok_iff, Prod.mk.injEq] at hs
        obtain ⟨rfl, rfl⟩ := hs
        exact ⟨[], .count hstance, by simp⟩
    · simp only [Except.pure_eq_ok_iff, Prod.mk.injEq] at hs
      obtain ⟨rfl, rfl⟩ := hs
      exact ⟨[], .quiet, by simp⟩
  · simp only [Except.pure_eq_ok_iff, Prod.mk.injEq] at hs
    obtain ⟨rfl, rfl⟩ := hs
    exact ⟨[], .quiet, by simp⟩

omit [DecidableEq NodeID] in
theorem highestIndex_of_core {k : Core NodeID Cmd} (hs : s.core = k) :
    s.c.log.highestIndex = k.log.highestIndex := by
  rw [← hs, ← Log.highestIndex_wire]
  rfl

theorem handleAppendEntries_move {T : Term} {ci pi : Option LogIndex} {pt : Option Term}
    {es : Log Cmd} {m : RaftMessage Cmd} {effects : Effects Cmd} (hes : es.wire = es)
    (hs : s.handleAppendEntries clk p T ci pi pt es = .ok (s', m, effects)) :
    Move a s.core h (some (p, .appendEntries T ci pi pt es)) s'.core
      (h.handled (.appendEntries T ci pi pt es) [(p, m)] effects) [(p, m)] ∧ m.wire = m := by
  unfold handleAppendEntries at hs
  simp only at hs
  split at hs
  · next hlt =>
    simp only [Except.pure_eq_ok_iff, Prod.mk.injEq] at hs
    obtain ⟨rfl, rfl, rfl⟩ := hs
    have : Move a s.core h (some (p, .appendEntries T ci pi pt es)) s.core h _ := .stale hlt
    exact ⟨by simpa [History.handled, core] using this, rfl⟩
  split at hs
  · simp at hs
  next heq =>
  obtain rfl : T = s.c.currentTerm := not_ne_iff.mp heq
  split at hs
  · next leader v hr =>
    obtain ⟨hlead, hstance, hc⟩ := cancelCandidacy_eq hr
    change ¬ s.core.stance.IsLeader at hlead
    change s.core.stance.stepDown (some s.core.id) = .follower v at hstance
    split at hs
    · simp at hs
    next hid =>
    simp only [hc] at hid hs
    split at hs
    · simp only [Except.pure_eq_ok_iff, Prod.mk.injEq] at hs
      obtain ⟨rfl, rfl, rfl⟩ := hs
      have : Move a s.core h (some (p, .appendEntries s.core.term ci pi pt es)) _ h _ :=
        .mismatch hlead
      rw [hstance] at this
      exact ⟨by simpa [History.handled, core, Role.stance, Common.extendElectionDeadline] using this,
        rfl⟩
    · next hcons =>
      simp only [Common.extendElectionDeadline] at hid hs hcons
      simp only [Except.bind_eq_ok_iff, Except.pure_eq_ok_iff, Prod.mk.injEq, Prod.exists] at hs
      obtain ⟨start, hstart, log, drops, hlog, s'', apps, hfollow, rfl, rfl, rfl⟩ := hs
      obtain ⟨commit, applied, hcore, hadv⟩ := followCommitIndex_eq_ok hfollow
      have hi := LogIndex.incOrDefault_eq_ok hstart
      have hacc : Accepts s.core ci pi pt es log.wire commit applied apps drops := by
        refine ⟨?_, ?_, hadv⟩
        · simpa [core] using hcons
        · rw [← hi]
          rcases Log.replaceFrom_eq_ok hlog with ⟨hgap, rfl, rfl⟩ | ⟨hle, hsplice, hdrop⟩
          · exact .inl ⟨by simpa [core] using hgap, rfl, rfl⟩
          · refine .inr ⟨by simpa [core] using hle, ?_, ?_⟩
            · rw [← hes]
              exact (congrArg (List.map LogEntry.wire) hsplice).trans (splice_map LogEntry.term _).symm
            · rw [← hes]
              exact (congrArg (List.map (Prod.map LogEntry.wire id)) hdrop).trans
                (dropped_map LogEntry.term _).symm
      have := Move.accept (a := a) (h := h) (p := p) hlead hid hacc
      rw [hstance] at this
      rw [hcore, highestIndex_of_core hcore]
      exact ⟨by simpa [History.handled, core, Role.stance] using this, rfl⟩
  · simp at hs

omit [DecidableEq NodeID] in
theorem advanceCommitIndex_eq_ok {lr : Option Instant} {apps : List (LogIndex × LogEntry Cmd)}
    (hr : s.r = .leader next mtch lr) (hs : s.advanceCommitIndex = .ok (s', apps)) :
    ∃ commit applied, s'.core = { s.core with commit, applied } ∧
      Commits s.core mtch commit applied apps := by
  rcases advanceCommitIndex_cases hr hs with ⟨rfl, rfl⟩ | ⟨values, n, e, hvalues, hn, he, hterm, hs⟩
  · exact ⟨_, _, rfl, .inl ⟨rfl, rfl, rfl⟩⟩
  · obtain ⟨hcore, hle, happ⟩ := advanceStateMachine_core hs
    have hcommit : upTo (max s.c.commitIndex (some n)) = max s.core.commit n := by simp [core]
    simp only [core, hcommit] at hcore hle happ
    refine ⟨_, _, hcore.trans (by rw [core]), .inr
      ⟨values, n, e.wire, hvalues, hn, ?_, hterm, rfl, rfl, hle, happ⟩⟩
    simp [core, Log.get_wire, he]

theorem handleAppendEntriesResponse_move {T : Term} {success : Bool} {i : Option LogIndex}
    {apps : List (LogIndex × LogEntry Cmd)}
    (hs : s.handleAppendEntriesResponse clk p success i = .ok (s', msgs, apps)) :
    ∃ fresh, Move a s.core h (some (p, .appendEntriesResponse T i success)) s'.core
      { h with applied := h.applied ++ apps } fresh ∧ ∀ x ∈ msgs, (x.1, x.2.wire) ∈ fresh := by
  have hquiet : s' = s → msgs = [] → apps = [] → ∃ fresh,
      Move a s.core h (some (p, .appendEntriesResponse T i success)) s'.core
        { h with applied := h.applied ++ apps } fresh ∧
        ∀ x ∈ msgs, (x.1, x.2.wire) ∈ fresh := by
    rintro rfl rfl rfl
    exact ⟨[], by simpa using .quiet, by simp⟩
  unfold handleAppendEntriesResponse at hs
  split at hs
  · next next mtch lr hr =>
    have hstance : s.core.stance = .leader next mtch := by simp [core, hr, Role.stance]
    split at hs
    · simp only [Except.pure_eq_ok_iff, Prod.mk.injEq] at hs
      exact hquiet hs.1.symm hs.2.1.symm hs.2.2.symm
    next ni hni =>
    split at hs
    · next hfail =>
      obtain rfl : success = false := by simpa using hfail
      simp only [Except.bind_eq_ok_iff, Except.pure_eq_ok_iff, Prod.mk.injEq, Prod.exists] at hs
      obtain ⟨s'', msgs', hrep, rfl, rfl, rfl⟩ := hs
      obtain ⟨hcore, hmsgs⟩ := replicateLog_eq_ok hrep
      refine ⟨msgs'.map fun x => (x.1, x.2.wire), ?_, fun x hx => List.mem_map_of_mem hx⟩
      rw [hcore, List.append_nil]
      refine .retreat hstance hni fun x hx => ?_
      obtain ⟨y, hy, rfl⟩ := List.mem_map.mp hx
      rcases hmsgs with ⟨rfl, -⟩ | ⟨next', mtch', hst, happ⟩
      · cases hy
      · cases hst
        exact ⟨(happ y hy).peer, (happ y hy).body⟩
    next hsucc =>
    obtain rfl : success = true := by simpa using hsucc
    split at hs
    · simp only [Except.pure_eq_ok_iff, Prod.mk.injEq] at hs
      exact hquiet hs.1.symm hs.2.1.symm hs.2.2.symm
    next hmtch =>
    split at hs
    · simp only [Except.pure_eq_ok_iff, Prod.mk.injEq] at hs
      exact hquiet hs.1.symm hs.2.1.symm hs.2.2.symm
    · next j =>
      simp only [Except.bind_eq_ok_iff, Except.pure_eq_ok_iff, Prod.mk.injEq, Prod.exists] at hs
      obtain ⟨nj, hnj, s'', apps', hadv, rfl, rfl, rfl⟩ := hs
      obtain ⟨commit, applied, hcore, hcommits⟩ := advanceCommitIndex_eq_ok rfl hadv
      refine ⟨[], ?_, by simp⟩
      rw [hcore]
      refine .ack hstance (by simp [hni]) (by simp [hmtch]) ?_ hcommits
      have := LogIndex.inc_eq_ok hnj
      have := nj.natPred_add_one
      omega
  · simp only [Except.pure_eq_ok_iff, Prod.mk.injEq] at hs
    exact hquiet hs.1.symm hs.2.1.symm hs.2.2.symm

/-- Every handler makes a move. -/
theorem handle_move {m : RaftMessage Cmd} {effects : Effects Cmd} (hm : m.wire = m)
    (hT : m.term ≤ s.c.currentTerm) (hs : s.handle clk p m = .ok (s', msgs, effects)) :
    ∃ fresh, Move a s.core h (some (p, m)) s'.core (h.handled m msgs effects) fresh ∧
      ∀ x ∈ msgs, (x.1, x.2.wire) ∈ fresh := by
  cases m with
  | requestVote T li lt =>
    simp only [handle, Except.bind_eq_ok_iff, Except.pure_eq_ok_iff, Prod.mk.injEq,
      Prod.exists] at hs
    obtain ⟨s'', m', hs, rfl, rfl, rfl⟩ := hs
    obtain ⟨hmove, hwire⟩ := handleVoteRequest_move hT hs
    exact ⟨_, hmove, by simp [hwire]⟩
  | requestVoteResponse T granted =>
    simp only [handle, Except.bind_eq_ok_iff, Except.pure_eq_ok_iff, Prod.mk.injEq,
      Prod.exists] at hs
    obtain ⟨s'', msgs', hs, rfl, rfl, rfl⟩ := hs
    simpa [History.handled] using handleVoteResponse_move hs
  | appendEntries T ci pi pt es =>
    simp only [handle, Except.bind_eq_ok_iff, Except.pure_eq_ok_iff, Prod.mk.injEq,
      Prod.exists] at hs
    obtain ⟨s'', m', effects', hs, rfl, rfl, rfl⟩ := hs
    have hes : es.wire = es := by simpa [RaftMessage.wire] using hm
    obtain ⟨hmove, hwire⟩ := handleAppendEntries_move hes hs
    exact ⟨_, hmove, by simp [hwire]⟩
  | appendEntriesResponse T i success =>
    simp only [handle, Except.bind_eq_ok_iff, Except.pure_eq_ok_iff, Prod.mk.injEq,
      Prod.exists] at hs
    obtain ⟨s'', msgs', apps, hs, rfl, rfl, rfl⟩ := hs
    simpa [History.handled] using handleAppendEntriesResponse_move hs

end State

namespace Node

variable {n n' : Node NodeID Cmd} {a : Action NodeID Cmd} {msgs : Outgoing NodeID Cmd}

/-- The responses that wait for the state to be persisted. -/
def pending (n : Node NodeID Cmd) : Outgoing NodeID Cmd :=
  match n.raftLoop with
  | .handled responses | .snapshotted _ responses | .persisted responses => responses
  | _ => []

/-- The message that the Raft-message loop is handling came over the wire, and the node has
stepped down if it had to. -/
def Ready (n : Node NodeID Cmd) : Prop :=
  ∀ p m, n.raftLoop = .stepped p m → m.wire = m ∧ m.term ≤ n.state.c.currentTerm

/-- The message a step handles. -/
def Handles (n : Node NodeID Cmd) (a : Action NodeID Cmd) (p : NodeID) (m : RaftMessage Cmd) :
    Prop :=
  n.raftLoop = .stepped p m ∧ ∃ clk, a = .handle clk

theorem election_move {clk : Clock} (hs : n.step (.election clk) = .ok (n', msgs)) :
    ∃ fresh, Move a n.state.core n.history none n'.state.core n'.history fresh ∧
      n'.raftLoop = n.raftLoop ∧ ∀ x ∈ msgs, (x.1, x.2.wire) ∈ fresh := by
  simp only [step, Except.bind_eq_ok_iff, Except.pure_eq_ok_iff, Prod.mk.injEq, Prod.exists,
    locked_eq_ok] at hs
  obtain ⟨s', msgs', hs, rfl, rfl⟩ := hs
  rcases State.maybeBeginElection_eq_ok hs with ⟨hcore, rfl⟩ | ⟨T, hT, hlead, hcore, rfl⟩
  · have hterm : s'.c.currentTerm = n.state.c.currentTerm := congrArg Core.term hcore
    refine ⟨[], ?_, rfl, by simp⟩
    simpa [hcore, hterm] using Move.quiet
  · have hterm : s'.c.currentTerm = T := congrArg Core.term hcore
    refine ⟨n.state.core.peers.map fun p => (p, n.state.core.voteRequest T), ?_, rfl, ?_⟩
    · have hlt : n.state.c.currentTerm < T := hT
      simpa [hcore, hterm, hlt] using Move.stand hT hlead
    · intro x hx
      obtain ⟨p, hp, rfl⟩ := List.mem_map.mp hx
      exact List.mem_map_of_mem (f := fun p => (p, n.state.core.voteRequest T)) hp

theorem replicateLog_move {clk : Clock} {s' : State NodeID Cmd}
    (hs : n.state.replicateLog clk = .ok (s', msgs)) :
    ∃ fresh, Move a n.state.core n.history none s'.core n.history fresh ∧
      ∀ x ∈ msgs, (x.1, x.2.wire) ∈ fresh := by
  obtain ⟨hcore, hmsgs⟩ := State.replicateLog_eq_ok hs
  rw [hcore]
  rcases hmsgs with ⟨rfl, -⟩ | ⟨next, mtch, hst, happ⟩
  · exact ⟨[], .quiet, by simp⟩
  · refine ⟨msgs.map fun x => (x.1, x.2.wire), .replicate hst ?_, fun x hx => List.mem_map_of_mem hx⟩
    intro x hx
    obtain ⟨y, hy, rfl⟩ := List.mem_map.mp hx
    exact happ y hy

omit [Wire Cmd] [DecidableEq NodeID] in
theorem pending_eq (h : n'.raftLoop = n.raftLoop) : n'.pending = n.pending := by
  simp only [pending, h]

/-- Every step but a crash makes a move, and what it sends or holds back was held back before or
is produced by the move. -/
theorem step_move (hready : n.Ready) (hs : n.step a = .ok (n', msgs)) (ha : a ≠ .crash) :
    ∃ recv fresh, Move a n.state.core n.history recv n'.state.core n'.history fresh ∧
      (∀ p m, recv = some (p, m) → n.Handles a p m) ∧
      ∀ x, x ∈ n'.pending ∨ x ∈ msgs → x ∈ n.pending ∨ (x.1, x.2.wire) ∈ fresh := by
  cases a with
  | election clk =>
    obtain ⟨fresh, hmove, hloop, hmsgs⟩ := election_move hs
    refine ⟨none, fresh, hmove, by simp, fun x hx => ?_⟩
    rw [pending_eq hloop] at hx
    exact hx.imp_right (hmsgs x)
  | replicate clk =>
    simp only [step, Except.bind_eq_ok_iff, Except.pure_eq_ok_iff, Prod.mk.injEq, Prod.exists,
      locked_eq_ok] at hs
    obtain ⟨s', msgs', hs, rfl, rfl⟩ := hs
    obtain ⟨fresh, hmove, hmsgs⟩ := replicateLog_move hs
    exact ⟨none, fresh, hmove, by simp, fun x hx => hx.imp_right (hmsgs x)⟩
  | receive p m =>
    simp only [step] at hs
    split at hs
    · simp only [Except.bind_eq_ok_iff, Except.pure_eq_ok_iff, Prod.mk.injEq, locked_eq_ok] at hs
      obtain ⟨s', hs, rfl, rfl⟩ := hs
      refine ⟨none, [], ?_, by simp, by simp [pending]⟩
      rcases State.maybeStepDown_eq_ok hs with ⟨rfl, -⟩ | ⟨hlt, hcore⟩
      · exact .quiet
      · rw [hcore]
        exact .stepDown hlt
    · simp at hs
  | handle clk =>
    simp only [step] at hs
    split at hs
    · next p m hloop =>
      obtain ⟨hwire, hterm⟩ := hready p m hloop
      simp only [Except.bind_eq_ok_iff, Except.pure_eq_ok_iff, Prod.mk.injEq, Prod.exists,
        locked_eq_ok] at hs
      obtain ⟨s', responses, effects, hs, rfl, rfl⟩ := hs
      obtain ⟨fresh, hmove, hfresh⟩ := State.handle_move hwire hterm hs
      refine ⟨some (p, m), fresh, hmove, ?_, ?_⟩
      · rintro q m' ⟨⟩
        exact ⟨hloop, clk, rfl⟩
      · rintro x (hx | hx)
        · exact .inr (hfresh x hx)
        · cases hx
    · simp at hs
  | snapshot =>
    simp only [step] at hs
    split at hs
    · next responses hloop =>
      simp only [Except.bind_eq_ok_iff, Except.pure_eq_ok_iff, Prod.mk.injEq, locked_eq_ok] at hs
      obtain ⟨p, -, rfl, rfl⟩ := hs
      exact ⟨none, [], .quiet, by simp, by simp [pending, hloop]⟩
    · simp at hs
  | persist ok =>
    simp only [step] at hs
    split at hs
    · next p responses hloop =>
      split at hs
      · simp only [Except.pure_eq_ok_iff, Prod.mk.injEq] at hs
        obtain ⟨rfl, rfl⟩ := hs
        exact ⟨none, [], .quiet, by simp, by simp [pending, hloop]⟩
      · simp only [Except.pure_eq_ok_iff, Prod.mk.injEq] at hs
        obtain ⟨rfl, rfl⟩ := hs
        exact ⟨none, [], .quiet, by simp, by simp [pending]⟩
    · simp at hs
  | respond =>
    simp only [step] at hs
    split at hs
    · next responses hloop =>
      simp only [Except.pure_eq_ok_iff, Prod.mk.injEq] at hs
      obtain ⟨rfl, rfl⟩ := hs
      exact ⟨none, [], .quiet, by simp, by simp [pending, hloop]⟩
    · simp at hs
  | clientRequest cmd =>
    simp only [step] at hs
    split at hs
    · simp only [Except.pure_eq_ok_iff, Prod.mk.injEq] at hs
      obtain ⟨rfl, rfl⟩ := hs
      exact ⟨none, [], .quiet, by simp, fun x hx => .inl (by simpa [pending] using hx)⟩
    · simp at hs
  | clientAppend =>
    simp only [step] at hs
    split at hs
    · next cmd hloop =>
      simp only [Except.pure_eq_ok_iff, Prod.mk.injEq] at hs
      obtain ⟨rfl, rfl⟩ := hs
      refine ⟨none, [], ?_, by simp, fun x hx => .inl (by simpa [pending] using hx)⟩
      have hcore : (n.state.append cmd).core = { n.state.core with
          log := n.state.core.log.append ⟨wire cmd, n.state.core.term⟩ } := by
        simp [State.append, State.core, Log.append_wire, LogEntry.wire]
      have hlen : n.state.c.log.inner.length = n.state.core.log.inner.length :=
        (Log.length_wire _).symm
      simp only [hcore, hlen]
      exact .append rfl n.state.isLeader_iff
    · simp at hs
  | clientReplicate clk =>
    simp only [step] at hs
    split at hs
    · simp only [Except.bind_eq_ok_iff, Except.pure_eq_ok_iff, Prod.mk.injEq, Prod.exists,
        locked_eq_ok] at hs
      obtain ⟨s', msgs', hs, rfl, rfl⟩ := hs
      obtain ⟨fresh, hmove, hmsgs⟩ := replicateLog_move hs
      exact ⟨none, fresh, hmove, by simp, fun x hx => hx.imp_right (hmsgs x)⟩
    · simp at hs
  | crash => exact absurd rfl ha

end Node

end Miniraft

import Mathlib.Data.Finset.Card
import Mathlib.Data.List.AList
import Mathlib.Data.List.Sort
import Miniraft.Raft.Log

/-!
# The state of a Raft node

`raft/src/state.rs` from `Common` on, with the messages of `raft/src/rpc.rs` and the persistent
part of `raft/src/persistence.rs`. A method that takes `&mut self` is a function from the old
state to the new one; what it returns and what it does to the outside (messages, calls of
`StateMachine::apply` and `Dismiss::dismiss`) are further results.
-/

namespace Miniraft

/-- Readings of the monotonic clock, in nanoseconds. -/
abbrev Instant := ℕ

/-- What one critical section reads from outside: two successive readings of the clock and the
randomised extension of the election deadline. -/
structure Clock where
  now : Instant
  later : Instant
  extension : ℕ
  now_le_later : now ≤ later := by decide
  deriving DecidableEq

/-- 50 ms -/
def heartbeatInterval : ℕ := 50000000

/-- 5 ms -/
def minReplicationInterval : ℕ := 5000000

/-- A `HashMap`. No function below depends on the order of the entries. -/
abbrev Map (K V : Type) := AList fun _ : K => V

namespace Map

variable {K V : Type} [DecidableEq K]

/-- Every key mapped to the same value. -/
def ofKeys (ks : List K) (v : V) : Map K V := (ks.map fun k => (⟨k, v⟩ : Σ _ : K, V)).toAList

def values (m : Map K V) : List V := m.entries.map (·.2)

end Map

inductive RaftMessage (Cmd : Type) where
  | appendEntries (term : Term) (commitIndex prevLogIndex : Option LogIndex)
      (prevLogTerm : Option Term) (entries : Log Cmd)
  | appendEntriesResponse (currentTerm : Term) (index : Option LogIndex) (success : Bool)
  | requestVote (candidateTerm : Term) (lastLogIndex : Option LogIndex)
      (lastLogTerm : Option Term)
  | requestVoteResponse (term : Term) (voteGranted : Bool)
  deriving DecidableEq

/-- All message envelopes contain a term. Extract it. -/
def RaftMessage.term {Cmd : Type} : RaftMessage Cmd → Term
  | .appendEntries term .. => term
  | .appendEntriesResponse currentTerm .. => currentTerm
  | .requestVote candidateTerm .. => candidateTerm
  | .requestVoteResponse term _ => term

/-- Persistent node state. -/
structure Persistent (NodeID Cmd : Type) where
  currentTerm : Term
  votedFor : Option NodeID
  log : Log Cmd
  deriving DecidableEq

/-- `Persistent::default()`: start from scratch. -/
def Persistent.default {NodeID Cmd : Type} : Persistent NodeID Cmd := ⟨0, none, ⟨[]⟩⟩

/-- State common to any role. -/
structure Common (NodeID Cmd : Type) where
  currentTerm : Term
  log : Log Cmd
  commitIndex : Option LogIndex
  lastApplied : Option LogIndex
  id : NodeID
  /-- IDs of all other nodes in the cluster. -/
  nodeIds : List NodeID
  electionDeadline : Instant
  deriving DecidableEq

inductive Role (NodeID : Type) where
  | follower (leader votedFor : Option NodeID)
  | candidate (votes : Finset NodeID)
  | leader (nextIndexes : Map NodeID LogIndex) (matchIndexes : Map NodeID (Option LogIndex))
      (lastReplication : Option Instant)

/-- The entire state of this Raft node. -/
structure State (NodeID Cmd : Type) where
  c : Common NodeID Cmd
  r : Role NodeID

/-- The calls made on the state machine and on dropped commands: the entries whose commands were
passed to `StateMachine::apply`, with their indexes, and those whose commands were dismissed, with
their machine indexes. -/
structure Effects (Cmd : Type) where
  applied : List (LogIndex × LogEntry Cmd)
  dismissed : List (LogEntry Cmd × ℕ)

/-- Compute median of slice, picking the lower value for even-sized inputs.
`select_nth_unstable(mid)` is the element at `mid` of the sorted slice. -/
def lowerMedian {α : Type} [LinearOrder α] (items : List α) : Option α :=
  (items.insertionSort (· ≤ ·))[(items.length - 1) / 2]?

/-- Messages with their receivers. -/
abbrev Outgoing (NodeID Cmd : Type) := List (NodeID × RaftMessage Cmd)

variable {NodeID Cmd : Type}

/-- Extends election deadline, with randomness to break candidacy live-locks. -/
def Common.extendElectionDeadline (clk : Clock) (c : Common NodeID Cmd) : Common NodeID Cmd :=
  { c with electionDeadline := clk.later + clk.extension }

namespace State

/-- `State::new` with `Common::new`. Its assertion that there are peers is a field of the
configuration of a cluster. -/
def new (id : NodeID) (nodeIds : List NodeID) (p : Persistent NodeID Cmd) : State NodeID Cmd where
  c := {
    currentTerm := p.currentTerm
    log := p.log
    commitIndex := none
    lastApplied := none
    id := id
    nodeIds := nodeIds
    electionDeadline := 0 }
  r := .follower none p.votedFor

/-! ## Transitions -/

variable [DecidableEq NodeID]

def becomeFollower (votedFor : Option NodeID) (s : State NodeID Cmd) : State NodeID Cmd :=
  match s.r with
  | .candidate _ | .leader .. => { s with r := .follower none votedFor }
  -- Remaining follower: neither the leader nor the vote is reset.
  | .follower .. => s

/-- If the remote term is ahead, step down as we're behind. -/
def maybeStepDown (remote : Term) (s : State NodeID Cmd) : Except Panic (State NodeID Cmd) :=
  if s.c.currentTerm < remote then do
    let currentTerm ← Term.set s.c.currentTerm remote
    return becomeFollower none { s with c := { s.c with currentTerm } }
  else
    return s

/-- Request votes from *all* other nodes. -/
def requestVotes (s : State NodeID Cmd) : Outgoing NodeID Cmd :=
  s.c.nodeIds.map fun node =>
    (node, .requestVote s.c.currentTerm s.c.log.highestIndex (s.c.log.last.map (·.term)))

/-- Become a candidate and start an election. -/
def becomeCandidate (clk : Clock) (s : State NodeID Cmd) :
    Except Panic (State NodeID Cmd × Outgoing NodeID Cmd) :=
  if ¬ s.c.electionDeadline < clk.later then throw .electionTimeoutNotPassed else
  match s.r with
  | .follower .. | .candidate _ => do
    let currentTerm ← Term.step s.c.currentTerm
    let s' : State NodeID Cmd := {
      c := { s.c with currentTerm }.extendElectionDeadline clk
      r := .candidate {s.c.id} }
    return (s', s'.requestVotes)
  | .leader .. => throw .invalidTransition

/-- Begin a new election if the election deadline has passed. -/
def maybeBeginElection (clk : Clock) (s : State NodeID Cmd) :
    Except Panic (State NodeID Cmd × Outgoing NodeID Cmd) :=
  if ¬ s.c.electionDeadline < clk.now then return (s, []) else
  match s.r with
  | .leader .. => return ({ s with c := s.c.extendElectionDeadline clk }, [])
  | _ => s.becomeCandidate clk

/-! ## Log handling -/

/-- The message of `replicate_log` to one peer, if one is due. -/
def replicateTo (c : Common NodeID Cmd) (nextIndexes : Map NodeID LogIndex)
    (heartbeatNeeded : Bool) (nodeId : NodeID) :
    Except Panic (Option (NodeID × RaftMessage Cmd)) :=
  match nextIndexes.lookup nodeId with
  | none => throw .missingNextIndex
  | some nextIndex =>
    let entries := (c.log.getFrom nextIndex).getD []
    let prevLogIndex := nextIndex.dec
    let prevLogTerm := prevLogIndex.bind fun idx => (c.log.get idx).map (·.term)
    if entries.isEmpty && !heartbeatNeeded then
      return none
    else
      return some (nodeId,
        .appendEntries c.currentTerm c.commitIndex prevLogIndex prevLogTerm ⟨entries⟩)

/-- `None` if the last replication was too recent, else whether a heartbeat is needed. -/
def heartbeatNeeded (clk : Clock) : Option Instant → Option Bool
  | none => some true
  | some lr =>
    -- `Instant` subtraction saturates.
    let elapsed := clk.now - lr
    if elapsed < minReplicationInterval then none else some (heartbeatInterval < elapsed)

/-- During leadership, replicate local log to all relevant peers, potentially sending an empty
replication request for heartbeat. -/
def replicateLog (clk : Clock) (s : State NodeID Cmd) :
    Except Panic (State NodeID Cmd × Outgoing NodeID Cmd) :=
  match s.r with
  | .leader nextIndexes matchIndexes lastReplication =>
    match heartbeatNeeded clk lastReplication with
    | none => return (s, [])
    | some heartbeat => do
      let msgs ← s.c.nodeIds.mapM (replicateTo s.c nextIndexes heartbeat)
      let msgs := msgs.reduceOption
      let lastReplication := if msgs.isEmpty then lastReplication else some clk.later
      return ({ s with r := .leader nextIndexes matchIndexes lastReplication }, msgs)
  | _ => return (s, [])

/-- Become a leader, initiating necessary state. -/
def becomeLeader (clk : Clock) (s : State NodeID Cmd) :
    Except Panic (State NodeID Cmd × Outgoing NodeID Cmd) :=
  match s.r with
  | .candidate _ => do
    if s.c.id ∈ s.c.nodeIds then throw .peerIsSelf
    let next ← LogIndex.incOrDefault s.c.log.highestIndex
    replicateLog clk { s with
      r := .leader (.ofKeys s.c.nodeIds next) (.ofKeys s.c.nodeIds none) none }
  | _ => throw .needToBeCandidate

def append (cmd : Cmd) (s : State NodeID Cmd) : State NodeID Cmd :=
  { s with c := { s.c with log := s.c.log.append ⟨cmd, s.c.currentTerm⟩ } }

/-- The loop of `advance_state_machine`, one unfolding for each entry that is still to be
applied. `fuel` bounds the number of unfoldings. -/
def applyLoop (log : Log Cmd) (commitIndex : Option LogIndex) :
    (fuel : ℕ) → (lastApplied : Option LogIndex) →
      Except Panic (Option LogIndex × List (LogIndex × LogEntry Cmd))
  | 0, lastApplied => return (lastApplied, [])
  | fuel + 1, lastApplied =>
    if upTo lastApplied < upTo commitIndex then do
      let next ← LogIndex.incOrDefault lastApplied
      match log.get next with
      | none => throw .missingEntry
      | some entry =>
        let (lastApplied, applied) ← applyLoop log commitIndex fuel (some next)
        return (lastApplied, (next, entry) :: applied)
    else
      return (lastApplied, [])

/-- Applies all outstanding log entries below the commit index to the state machine. The steps are
not counted: the counter is there for the log output only, and as an `i32` it overflows if
`2 ^ 31 - 1` entries are applied in one call. -/
def advanceStateMachine (s : State NodeID Cmd) :
    Except Panic (State NodeID Cmd × List (LogIndex × LogEntry Cmd)) :=
  if upTo s.c.commitIndex < upTo s.c.lastApplied then throw .overtaken else do
    let (lastApplied, applied) ← applyLoop s.c.log s.c.commitIndex
      (upTo s.c.commitIndex - upTo s.c.lastApplied) s.c.lastApplied
    return ({ s with c := { s.c with lastApplied } }, applied)

/-- During leadership, advance the commit index to the highest possible watermark among all
peers. -/
def advanceCommitIndex (s : State NodeID Cmd) :
    Except Panic (State NodeID Cmd × List (LogIndex × LogEntry Cmd)) :=
  match s.r with
  | .leader _ matchIndexes _ =>
    -- We might not have match indexes for _all_ peers yet. If at least one is missing, abort.
    match matchIndexes.values.mapM id with
    | none => return (s, [])
    | some matchIndex =>
      match lowerMedian matchIndex with
      | none => throw .noMedian
      | some n =>
        match s.c.log.get n with
        | none => return (s, [])
        | some entry =>
          -- It is unsafe to advance entries with stale terms.
          if entry.term ≠ s.c.currentTerm then return (s, []) else
          advanceStateMachine
            { s with c := { s.c with commitIndex := max s.c.commitIndex (some n) } }
  | _ => throw .needToBeLeader

/-! ## Handlers -/

/-- Whether a log with the given last index and term is at least as up-to-date as `log`. -/
def upToDate (log : Log Cmd) (lastLogIndex : Option LogIndex) (lastLogTerm : Option Term) :
    Bool :=
  match compare lastLogTerm (log.last.map (·.term)) with
  | .lt => false
  | .eq => upTo log.highestIndex ≤ upTo lastLogIndex
  | .gt => true

/-- The value of `vote_granted` at a follower. -/
def voteGranted (c : Common NodeID Cmd) (votedFor : Option NodeID) (candidateId : NodeID)
    (candidateTerm : Term) (candidateLastLogIndex : Option LogIndex)
    (candidateLastLogTerm : Option Term) : Bool :=
  if candidateTerm < c.currentTerm then false
  else if votedFor.any (candidateId ≠ ·) then false
  else upToDate c.log candidateLastLogIndex candidateLastLogTerm

/-- Handle a request for a leadership vote from some remote candidate. -/
def handleVoteRequest (clk : Clock) (candidateId : NodeID) (candidateTerm : Term)
    (candidateLastLogIndex : Option LogIndex) (candidateLastLogTerm : Option Term)
    (s : State NodeID Cmd) : Except Panic (State NodeID Cmd × RaftMessage Cmd) :=
  if s.c.id = candidateId then throw .voteForSelf else
  match s.r with
  | .follower leader votedFor =>
    let voteGranted := voteGranted s.c votedFor candidateId candidateTerm candidateLastLogIndex
      candidateLastLogTerm
    let s' : State NodeID Cmd :=
      if voteGranted then
        { c := s.c.extendElectionDeadline clk, r := .follower leader (some candidateId) }
      else s
    return (s', .requestVoteResponse s.c.currentTerm voteGranted)
  | _ => return (s, .requestVoteResponse s.c.currentTerm false)

def wonElection (s : State NodeID Cmd) (votesReceived : ℕ) : Bool :=
  let clusterSize := s.c.nodeIds.length + 1
  let nMajority := clusterSize / 2 + 1
  nMajority ≤ votesReceived

/-- Handle a response to a previous vote request we sent. -/
def handleVoteResponse (clk : Clock) (peer : NodeID) (remoteTerm : Term) (voteGranted : Bool)
    (s : State NodeID Cmd) : Except Panic (State NodeID Cmd × Outgoing NodeID Cmd) :=
  if !voteGranted then return (s, []) else
  match s.r with
  | .candidate votes =>
    if s.c.id ∉ votes then throw .missingSelfVote else
    match compare s.c.currentTerm remoteTerm with
    | .lt => throw .remoteTermAhead
    | .eq =>
      let s' : State NodeID Cmd := { s with r := .candidate (insert peer votes) }
      if s'.wonElection (insert peer votes).card then s'.becomeLeader clk else return (s', [])
    | .gt => return (s, [])
  | _ => return (s, [])

/-- A candidate that hears from the leader of its term gets in line. "Voted for" is retained, as
in this term, as a candidate, we did vote for ourselves. -/
def cancelCandidacy (s : State NodeID Cmd) : State NodeID Cmd :=
  match s.r with
  | .candidate _ => s.becomeFollower (some s.c.id)
  | _ => s

/-- The last part of `handle_append_entries`: advance, but clamp to the local log. -/
def followCommitIndex (leaderCommitIndex : Option LogIndex) (s : State NodeID Cmd) :
    Except Panic (State NodeID Cmd × List (LogIndex × LogEntry Cmd)) :=
  if upTo s.c.commitIndex < upTo leaderCommitIndex then
    advanceStateMachine { s with
      c := { s.c with commitIndex := min leaderCommitIndex s.c.log.highestIndex } }
  else return (s, [])

/-- Handle a request to append entries to our log, sent by leaders. -/
def handleAppendEntries (clk : Clock) (peer : NodeID) (leaderTerm : Term)
    (leaderCommitIndex leaderPrevLogIndex : Option LogIndex) (leaderPrevLogTerm : Option Term)
    (entries : Log Cmd) (s : State NodeID Cmd) :
    Except Panic (State NodeID Cmd × RaftMessage Cmd × Effects Cmd) :=
  let currentTerm := s.c.currentTerm
  let failureMsg := RaftMessage.appendEntriesResponse currentTerm s.c.log.highestIndex false
  if leaderTerm < currentTerm then return (s, failureMsg, ⟨[], []⟩) else
  let s := { s with c := s.c.extendElectionDeadline clk }.cancelCandidacy
  if leaderTerm ≠ currentTerm then throw .leaderTermAhead else
  match s.r with
  | .follower _ votedFor =>
    if s.c.id = peer then throw .leaderIsSelf else
    let s := { s with r := .follower (some peer) votedFor }
    -- Two `Option`s are compared: a missing term matches a missing entry.
    if (leaderPrevLogIndex.bind fun idx => (s.c.log.get idx).map (·.term)) ≠ leaderPrevLogTerm then
      return (s, failureMsg, ⟨[], []⟩)
    else do
      let start ← LogIndex.incOrDefault leaderPrevLogIndex
      let (log, dismissed) ← s.c.log.replaceFrom start entries.inner
      let (s, applied) ← followCommitIndex leaderCommitIndex { s with c := { s.c with log } }
      return (s, .appendEntriesResponse currentTerm s.c.log.highestIndex true,
        ⟨applied, dismissed⟩)
  | _ => throw .canOnlyBeFollower

/-- Handle a response to a previous AppendEntries request. Note that the response's term is not
among the arguments. -/
def handleAppendEntriesResponse (clk : Clock) (peer : NodeID) (success : Bool)
    (index : Option LogIndex) (s : State NodeID Cmd) :
    Except Panic (State NodeID Cmd × Outgoing NodeID Cmd × List (LogIndex × LogEntry Cmd)) :=
  match s.r with
  | .leader nextIndexes matchIndexes lastReplication =>
    match nextIndexes.lookup peer with
    | none => return (s, [], [])
    | some nextIndex =>
      if !success then do
        -- Decrement, floor it to minimum permissible index, and retry right away.
        let nextIndex := nextIndex.dec.getD 1
        let (s, msgs) ← replicateLog clk { s with
          r := .leader (nextIndexes.insert peer nextIndex) matchIndexes lastReplication }
        return (s, msgs, [])
      else
        match matchIndexes.lookup peer with
        | none => return (s, [], [])
        | some _ =>
          match index with
          | none => return (s, [], [])
          | some index => do
            let next ← index.inc
            let (s, applied) ← advanceCommitIndex { s with
              r := .leader (nextIndexes.insert peer next)
                (matchIndexes.insert peer (some index)) lastReplication }
            return (s, [], applied)
  | _ => return (s, [], [])

/-- The dispatch of the Raft-message loop on one message. -/
def handle (clk : Clock) (peer : NodeID) (s : State NodeID Cmd) : RaftMessage Cmd →
    Except Panic (State NodeID Cmd × Outgoing NodeID Cmd × Effects Cmd)
  | .requestVote candidateTerm lastLogIndex lastLogTerm => do
    let (s, msg) ← s.handleVoteRequest clk peer candidateTerm lastLogIndex lastLogTerm
    return (s, [(peer, msg)], ⟨[], []⟩)
  | .requestVoteResponse term voteGranted => do
    let (s, msgs) ← s.handleVoteResponse clk peer term voteGranted
    return (s, msgs, ⟨[], []⟩)
  | .appendEntries term commitIndex prevLogIndex prevLogTerm entries => do
    let (s, msg, effects) ←
      s.handleAppendEntries clk peer term commitIndex prevLogIndex prevLogTerm entries
    return (s, [(peer, msg)], effects)
  | .appendEntriesResponse _ index success => do
    let (s, msgs, applied) ← s.handleAppendEntriesResponse clk peer success index
    return (s, msgs, ⟨applied, []⟩)

def isLeader (s : State NodeID Cmd) : Bool :=
  match s.r with
  | .leader .. => true
  | _ => false

def currentLeader (s : State NodeID Cmd) : Option NodeID :=
  match s.r with
  | .follower leader _ => leader
  | _ => none

/-- `From<&State> for Persistent`. -/
def persistent (s : State NodeID Cmd) : Except Panic (Persistent NodeID Cmd) :=
  match s.r with
  | .follower _ votedFor => return ⟨s.c.currentTerm, votedFor, s.c.log⟩
  | .candidate votes =>
    if s.c.id ∉ votes then throw .candidateWithoutSelfVote
    else return ⟨s.c.currentTerm, some s.c.id, s.c.log⟩
  | .leader .. => return ⟨s.c.currentTerm, some s.c.id, s.c.log⟩

end State

end Miniraft

import Miniraft.Std.Run
import Miniraft.Raft.State

/-!
# The engine: threads, lock acquisitions and the network

`Engine` of `raft/src/lib.rs`. Four loops share the state of a node behind a mutex; an `Action`
is what one of them does between acquiring and releasing the lock (with the sends it makes while
holding it), or one step of the Raft-message loop outside of it. The cluster interleaves the
actions of its nodes arbitrarily.
-/

namespace Miniraft

/-- What is left of a command after serialization and deserialization: its in-memory reply fields
do not travel (`Serialize` and `Deserialize` for `Command`). -/
class Wire (Cmd : Type) where
  wire : Cmd → Cmd
  wire_wire : ∀ c, wire (wire c) = wire c

export Wire (wire wire_wire)

section Wire

variable {Cmd : Type} [Wire Cmd]

def LogEntry.wire (e : LogEntry Cmd) : LogEntry Cmd := { e with cmd := Miniraft.wire e.cmd }

def Log.wire (l : Log Cmd) : Log Cmd := ⟨l.inner.map LogEntry.wire⟩

def RaftMessage.wire : RaftMessage Cmd → RaftMessage Cmd
  | .appendEntries term commitIndex prevLogIndex prevLogTerm entries =>
    .appendEntries term commitIndex prevLogIndex prevLogTerm entries.wire
  | m => m

def Persistent.wire {NodeID : Type} (p : Persistent NodeID Cmd) : Persistent NodeID Cmd :=
  { p with log := p.log.wire }

end Wire

/-- Where the Raft-message loop is in the handling of a message. -/
inductive RaftLoop (NodeID Cmd : Type) where
  /-- Waiting for the next message. -/
  | idle
  /-- `maybe_step_down` done, the handler is next. -/
  | stepped (peer : NodeID) (msg : RaftMessage Cmd)
  /-- Handler done, the snapshot of the state is next. -/
  | handled (responses : Outgoing NodeID Cmd)
  /-- Snapshot taken, persisting it is next. -/
  | snapshotted (p : Persistent NodeID Cmd) (responses : Outgoing NodeID Cmd)
  /-- Snapshot persisted, sending the responses is next. -/
  | persisted (responses : Outgoing NodeID Cmd)

/-- Where the client loop is in the handling of a request. -/
inductive ClientLoop (Cmd : Type) where
  | idle
  /-- `is_leader()` answered true, `append()` is next. -/
  | checked (cmd : Cmd)
  /-- `append()` done, the opportunistic `replicate_log()` is next. -/
  | appended

/-- One call of `State::append`: the length of the log it found, the entry it added, and whether
the node was leader. -/
structure Creation (Cmd : Type) where
  position : ℕ
  entry : LogEntry Cmd
  byLeader : Bool
  deriving DecidableEq

/-- What a node has done so far. These are history variables: no step reads them. -/
structure History (NodeID Cmd : Type) where
  /-- The calls of `StateMachine::apply`. -/
  applied : List (LogIndex × LogEntry Cmd)
  /-- The entries whose commands were dismissed. -/
  dismissed : List (LogEntry Cmd × ℕ)
  /-- The calls of `State::append`. -/
  created : List (Creation Cmd)
  /-- For each AppendEntries request answered with success, its term and the last index it
  covers. -/
  accepted : List (Term × ℕ)
  /-- The terms of the elections the node started. -/
  elections : List Term
  /-- For each request for a vote that was granted, its term and the candidate. -/
  granted : List (Term × NodeID)

structure Node (NodeID Cmd : Type) where
  state : State NodeID Cmd
  raftLoop : RaftLoop NodeID Cmd
  clientLoop : ClientLoop Cmd
  /-- What the persistence file holds. -/
  stored : Persistent NodeID Cmd
  history : History NodeID Cmd

/-- What a thread of a node does in one step. -/
inductive Action (NodeID Cmd : Type) where
  /-- One round of the election loop. -/
  | election (clk : Clock)
  /-- One round of the log replication loop. -/
  | replicate (clk : Clock)
  /-- The Raft-message loop takes a message and steps down if its term is ahead. -/
  | receive (peer : NodeID) (msg : RaftMessage Cmd)
  | handle (clk : Clock)
  | snapshot
  /-- Rewind, write and flush; not `ok` if one of them failed. -/
  | persist (ok : Bool)
  | respond
  /-- The client loop takes a request and asks whether the node is leader. If it is not, the
  request is proxied and the state is not changed. -/
  | clientRequest (cmd : Cmd)
  | clientAppend
  | clientReplicate (clk : Clock)
  /-- The process dies and is restarted from its persistence file. -/
  | crash

def Action.isCrash {NodeID Cmd : Type} : Action NodeID Cmd → Bool
  | .crash => true
  | _ => false

def Action.isClientAppend {NodeID Cmd : Type} : Action NodeID Cmd → Bool
  | .clientAppend => true
  | _ => false

/-- Why a step does not happen. -/
inductive Halt where
  | notEnabled
  | panicked (p : Panic)
  deriving DecidableEq, Repr

/-- Run a critical section. -/
def locked {α : Type} : Except Panic α → Except Halt α
  | .ok a => .ok a
  | .error p => .error (.panicked p)

@[simp] theorem locked_eq_ok {α : Type} {x : Except Panic α} {a : α} :
    locked x = .ok a ↔ x = .ok a := by
  cases x <;> simp [locked]

variable {NodeID Cmd : Type} [DecidableEq NodeID] [Wire Cmd]

namespace History

omit [Wire Cmd] in
def empty : History NodeID Cmd := ⟨[], [], [], [], [], []⟩

/-- Record what the handling of a message did. -/
def handled (h : History NodeID Cmd) (msg : RaftMessage Cmd) (responses : Outgoing NodeID Cmd)
    (effects : Effects Cmd) : History NodeID Cmd :=
  { h with
    applied := h.applied ++ effects.applied
    dismissed := h.dismissed ++ effects.dismissed
    accepted := match msg, responses with
      | .appendEntries term _ prevLogIndex _ entries, [(_, .appendEntriesResponse _ _ true)] =>
        (term, upTo prevLogIndex + entries.inner.length) :: h.accepted
      | _, _ => h.accepted
    granted := match msg, responses with
      | .requestVote term _ _, [(candidate, .requestVoteResponse _ true)] =>
        (term, candidate) :: h.granted
      | _, _ => h.granted }

end History

namespace Node

def boot (id : NodeID) (peers : List NodeID) : Node NodeID Cmd where
  state := .new id peers .default
  raftLoop := .idle
  clientLoop := .idle
  stored := .default
  history := .empty

/-- One step of a node: the new node and the messages it sends. -/
def step (n : Node NodeID Cmd) :
    Action NodeID Cmd → Except Halt (Node NodeID Cmd × Outgoing NodeID Cmd)
  | .election clk => do
    let (state, msgs) ← locked (n.state.maybeBeginElection clk)
    let elections :=
      if n.state.c.currentTerm < state.c.currentTerm then
        state.c.currentTerm :: n.history.elections
      else n.history.elections
    return ({ n with state, history := { n.history with elections } }, msgs)
  | .replicate clk => do
    let (state, msgs) ← locked (n.state.replicateLog clk)
    return ({ n with state }, msgs)
  | .receive peer msg =>
    match n.raftLoop with
    | .idle => do
      let state ← locked (n.state.maybeStepDown msg.term)
      return ({ n with state, raftLoop := .stepped peer msg }, [])
    | _ => throw .notEnabled
  | .handle clk =>
    match n.raftLoop with
    | .stepped peer msg => do
      let (state, responses, effects) ← locked (n.state.handle clk peer msg)
      return ({ n with
        state
        raftLoop := .handled responses
        history := n.history.handled msg responses effects }, [])
    | _ => throw .notEnabled
  | .snapshot =>
    match n.raftLoop with
    | .handled responses => do
      let p ← locked n.state.persistent
      return ({ n with raftLoop := .snapshotted p responses }, [])
    | _ => throw .notEnabled
  | .persist ok =>
    match n.raftLoop with
    | .snapshotted p responses =>
      -- On an error the responses are dropped.
      if ok then return ({ n with stored := p.wire, raftLoop := .persisted responses }, [])
      else return ({ n with raftLoop := .idle }, [])
    | _ => throw .notEnabled
  | .respond =>
    match n.raftLoop with
    | .persisted responses => return ({ n with raftLoop := .idle }, responses)
    | _ => throw .notEnabled
  | .clientRequest cmd =>
    match n.clientLoop with
    | .idle => return ({ n with clientLoop := if n.state.isLeader then .checked cmd else .idle }, [])
    | _ => throw .notEnabled
  | .clientAppend =>
    match n.clientLoop with
    | .checked cmd =>
      let creation : Creation Cmd :=
        ⟨n.state.c.log.inner.length, ⟨cmd, n.state.c.currentTerm⟩, n.state.isLeader⟩
      return ({ n with
        state := n.state.append cmd
        clientLoop := .appended
        history := { n.history with created := creation :: n.history.created } }, [])
    | _ => throw .notEnabled
  | .clientReplicate clk =>
    match n.clientLoop with
    | .appended => do
      let (state, msgs) ← locked (n.state.replicateLog clk)
      return ({ n with state, clientLoop := .idle }, msgs)
    | _ => throw .notEnabled
  | .crash =>
    return ({ n with
      state := .new n.state.c.id n.state.c.nodeIds n.stored
      raftLoop := .idle
      clientLoop := .idle }, [])

end Node

/-- The membership of a cluster: at least two nodes with distinct IDs. -/
structure Config (NodeID : Type) where
  ids : List NodeID
  nodup : ids.Nodup
  two_le : 2 ≤ ids.length

/-- All members but the node itself. -/
def Config.peers (cfg : Config NodeID) (i : NodeID) : List NodeID := cfg.ids.filter (· ≠ i)

/-- `MessageEnvelope` -/
structure Envelope (NodeID Cmd : Type) where
  source : NodeID
  destination : NodeID
  body : RaftMessage Cmd

/-- The nodes and every message ever sent. A message may be delivered at any time after it was
sent and any number of times, or never: so the network loses, delays, reorders and duplicates. -/
structure Cluster (NodeID Cmd : Type) where
  nodes : NodeID → Node NodeID Cmd
  network : List (Envelope NodeID Cmd)

/-- A node of the cluster and what it does. -/
abbrev Label (NodeID Cmd : Type) := NodeID × Action NodeID Cmd

namespace Cluster

def boot (cfg : Config NodeID) : Cluster NodeID Cmd where
  nodes i := .boot i (cfg.peers i)
  network := []

/-- A message can be received if it was sent. -/
def Deliverable (c : Cluster NodeID Cmd) (i : NodeID) : Action NodeID Cmd → Prop
  | .receive peer msg => ∃ e ∈ c.network, e.source = peer ∧ e.destination = i ∧ e.body = msg
  | _ => True

instance [DecidableEq Cmd] (c : Cluster NodeID Cmd) (i : NodeID) (a : Action NodeID Cmd) :
    Decidable (c.Deliverable i a) :=
  match a with
  | .receive peer msg => inferInstanceAs <| Decidable
      (∃ e ∈ c.network, e.source = peer ∧ e.destination = i ∧ e.body = msg)
  | .election _ | .replicate _ | .handle _ | .snapshot | .persist _ | .respond
  | .clientRequest _ | .clientAppend | .clientReplicate _ | .crash =>
    inferInstanceAs (Decidable True)

/-- The cluster after node `i` has become `n` and has sent `msgs`. -/
def update (c : Cluster NodeID Cmd) (i : NodeID) (n : Node NodeID Cmd)
    (msgs : Outgoing NodeID Cmd) : Cluster NodeID Cmd where
  nodes j := if j = i then n else c.nodes j
  network := c.network ++ msgs.map fun m => ⟨i, m.1, m.2.wire⟩

variable [DecidableEq Cmd]

/-- One step of the cluster. -/
def step (cfg : Config NodeID) (c : Cluster NodeID Cmd) :
    Label NodeID Cmd → Except Halt (Cluster NodeID Cmd)
  | (i, a) =>
    if i ∈ cfg.ids ∧ c.Deliverable i a then do
      let (n, msgs) ← (c.nodes i).step a
      return c.update i n msgs
    else throw .notEnabled

end Cluster

end Miniraft

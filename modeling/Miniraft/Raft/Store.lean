import Miniraft.Raft.Client
import Miniraft.Theory.Linear

/-!
# The key-value store

`Engine<HashMap<K, V>>` of `raft/src/lib.rs` as a whole: the threads of Raft with the map they
drive, and the client loop, which passes requests on to the log of the node or to another node.
The map belongs to the Raft-message loop alone, and only the handling of a message applies or
dismisses commands.
-/

namespace Miniraft

open Linearizability (Event)

variable {NodeID K V : Type} [DecidableEq NodeID]

/-- An operation of a client is known by the entry it has in the log of the leader that took it: the
machine index and the term. -/
abbrev OpId := ℕ × Term

/-- What a node has besides the state of Raft. -/
structure Application (NodeID K V : Type) where
  machine : Map K V
  front : ClientFront NodeID
  /-- A request for which the client loop has found that the node does not lead, and for which it
  is to ask for the leader. -/
  relaying : Option (NodeID × ClientMessage K V)

def Application.new : Application NodeID K V := ⟨∅, .new, none⟩

/-- A message to a client, or from one. -/
structure Parcel (NodeID K V : Type) where
  source : NodeID
  destination : NodeID
  body : ClientMessage K V
  deriving DecidableEq

structure Store (NodeID K V : Type) where
  cluster : Cluster NodeID (Command NodeID K V)
  apps : NodeID → Application NodeID K V
  /-- Every message ever sent by a client or to one. -/
  parcels : List (Parcel NodeID K V)
  /-- The operations that were put into logs and the answers that applying them gave, the oldest
  first. This is history: no step reads it. -/
  trace : List (Event OpId (Command NodeID K V) (ClientMessage K V))

inductive StoreAction (NodeID K V : Type) where
  /-- A step of a thread, other than the client loop taking a message. -/
  | engine (a : Action NodeID (Command NodeID K V))
  /-- The client loop takes a message and asks whether the node is leader. -/
  | take (client : NodeID) (msg : ClientMessage K V)
  /-- The client loop of a node that is not leader asks for the leader, and passes the request on. -/
  | relay

inductive StoreLabel (NodeID K V : Type) where
  | request (client node : NodeID) (msg : ClientMessage K V)
  | node (i : NodeID) (a : StoreAction NodeID K V)

/-- What a step does to the map of the node and to dropped commands. -/
def Node.effects {Cmd : Type} (n : Node NodeID Cmd) : Action NodeID Cmd → Effects Cmd
  | .handle clk =>
    match n.raftLoop with
    | .stepped peer msg =>
      match n.state.handle clk peer msg with
      | .ok (_, _, effects) => effects
      | .error _ => ⟨[], []⟩
    | _ => ⟨[], []⟩
  | _ => ⟨[], []⟩

/-- The entries are applied one after the other: the map after that, and the answers, each with its
operation and its receiver. -/
def applyAll [DecidableEq K] [DecidableEq V] (debug : V → String) :
    Map K V → List (LogIndex × LogEntry (Command NodeID K V)) →
      Map K V × List (OpId × NodeID × ClientMessage K V)
  | machine, [] => (machine, [])
  | machine, (index, entry) :: entries =>
    let (machine, answer) := entry.cmd.apply debug machine
    let (machine, answers) := applyAll debug machine entries
    (machine, (answer.map fun x => ((index.natPred, entry.term), x)).toList ++ answers)

namespace Store

def boot (cfg : Config NodeID) : Store NodeID K V := ⟨.boot cfg, fun _ => .new, [], []⟩

/-- The store after node `i` has become `app` and has sent `sent` to clients. -/
def update (s : Store NodeID K V) (i : NodeID) (app : Application NodeID K V)
    (sent : List (NodeID × ClientMessage K V)) : Store NodeID K V :=
  { s with
    apps := fun j => if j = i then app else s.apps j
    parcels := s.parcels ++ sent.map fun x => ⟨i, x.1, x.2⟩ }

/-- What the client loop of node `i` does once it knows what to do. -/
def dispatch (s : Store NodeID K V) (i : NodeID) (front : ClientFront NodeID) :
    Served NodeID K V → Store NodeID K V
  | .append _ => s.update i { s.apps i with front, relaying := none } []
  | .send destination msg =>
    s.update i { s.apps i with front, relaying := none } [(destination, msg)]
  | .drop => s.update i { s.apps i with front, relaying := none } []

variable [DecidableEq K] [DecidableEq V]

/-- What a step of a thread at node `i` does outside of Raft. -/
def react (debug : V → String) (s : Store NodeID K V) (i : NodeID)
    (a : Action NodeID (Command NodeID K V)) : Store NodeID K V :=
  let effects := (s.cluster.nodes i).effects a
  let (machine, answers) := applyAll debug (s.apps i).machine effects.applied
  let app := if a.isCrash then .new else { s.apps i with machine }
  let invoked := match a, (s.cluster.nodes i).clientLoop with
    | .clientAppend, .checked cmd =>
      let c := (s.cluster.nodes i).state.c
      [.invoke (c.log.inner.length, c.currentTerm) cmd]
    | _, _ => []
  { s.update i app (effects.dismissed.filterMap (·.1.cmd.dismiss) ++ answers.map (·.2)) with
    trace := s.trace ++ invoked ++ answers.map fun x => .answer x.1 x.2.2 }

/-- The client loop of node `i` is free for the next message. -/
def Idle (s : Store NodeID K V) (i : NodeID) : Prop :=
  (s.apps i).relaying = none ∧
    match (s.cluster.nodes i).clientLoop with
    | .idle => True
    | _ => False

instance (s : Store NodeID K V) (i : NodeID) : Decidable (s.Idle i) :=
  match h : (s.cluster.nodes i).clientLoop with
  | .idle => decidable_of_iff ((s.apps i).relaying = none) (by simp [Idle, h])
  | .checked _ | .appended => isFalse (by simp [Idle, h])

/-- `ClientFront.serve`, with a panic as the end of the step. -/
def serve (s : Store NodeID K V) (i : NodeID) (isLeader : Bool) (leader : Option NodeID)
    (client : NodeID) (msg : ClientMessage K V) :
    Except ClientHalt (ClientFront NodeID × Served NodeID K V) :=
  ((s.apps i).front.serve i isLeader leader client msg).mapError .panicked

/-- A message is taken: a response goes to its client, a request into the log of a leader. -/
def take (cfg : Config NodeID) (s : Store NodeID K V) (i : NodeID) (client : NodeID)
    (msg : ClientMessage K V) : Except ClientHalt (Store NodeID K V) := do
  let isLeader := (s.cluster.nodes i).state.isLeader
  if msg.inReplyTo = none ∧ isLeader = false then
    return s.update i { s.apps i with relaying := some (client, msg) } []
  else
    let (front, served) ← s.serve i isLeader none client msg
    match served with
    | .append cmd =>
      match s.cluster.step cfg (i, .clientRequest cmd) with
      | .ok cluster => return { s with cluster }.dispatch i front served
      | .error _ => throw .notEnabled
    | _ => return s.dispatch i front served

def relay (s : Store NodeID K V) (i : NodeID) : Except ClientHalt (Store NodeID K V) :=
  match (s.apps i).relaying with
  | some (client, msg) => do
    let leader := (s.cluster.nodes i).state.currentLeader
    let (front, served) ← s.serve i false leader client msg
    return s.dispatch i front served
  | none => throw .notEnabled

/-- One step of the store. -/
def step (debug : V → String) (cfg : Config NodeID) (s : Store NodeID K V) :
    StoreLabel NodeID K V → Except ClientHalt (Store NodeID K V)
  | .request client node msg =>
    if client ∉ cfg.ids ∧ msg.inReplyTo = none then
      return { s with parcels := s.parcels ++ [⟨client, node, msg⟩] }
    else throw .notEnabled
  | .node _ (.engine (.clientRequest _)) => throw .notEnabled
  | .node i (.engine a) =>
    match s.cluster.step cfg (i, a) with
    | .ok cluster => return { s.react debug i a with cluster }
    | .error _ => throw .notEnabled
  | .node i (.take client msg) =>
    if i ∈ cfg.ids ∧ s.Idle i ∧ ⟨client, i, msg⟩ ∈ s.parcels then s.take cfg i client msg
    else throw .notEnabled
  | .node i .relay => if i ∈ cfg.ids then s.relay i else throw .notEnabled

end Store

end Miniraft

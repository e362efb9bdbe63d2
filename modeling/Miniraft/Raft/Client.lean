import Miniraft.Raft.Engine

/-!
# The client side

The client messages of `raft/src/rpc.rs`, the commands of the key-value store and the loop of
`raft/src/lib.rs` that takes the messages of clients and passes them on. A client message that is
processed, a command that is applied or dropped: each has an origin, the request of a client it
stems from. Origins are history: no step reads them.
-/

namespace Miniraft

/-- A `u64`. -/
abbrev MessageID := ℕ

/-- `CURRENT_MESSAGE_ID.fetch_add(1)` leaves the counter so. -/
def MessageID.next (id : MessageID) : MessageID := (id + 1) % 2 ^ 64

inductive ClientMessage (K V : Type) where
  | readRequest (key : K) (id : MessageID)
  | writeRequest (key : K) (value : V) (id : MessageID)
  | casRequest (key : K) (fromValue toValue : V) (id : MessageID)
  | readResponse (inReplyTo : MessageID) (value : V) (id : MessageID)
  | writeResponse (inReplyTo id : MessageID)
  | casResponse (inReplyTo id : MessageID)
  | errorResponse (inReplyTo id : MessageID) (code : ℕ) (text : String)
  deriving DecidableEq

namespace ClientMessage

variable {K V : Type}

def id : ClientMessage K V → MessageID
  | .readRequest _ id | .writeRequest _ _ id | .casRequest _ _ _ id | .readResponse _ _ id
  | .writeResponse _ id | .casResponse _ id | .errorResponse _ id _ _ => id

def setId (newId : MessageID) : ClientMessage K V → ClientMessage K V
  | .readRequest key _ => .readRequest key newId
  | .writeRequest key value _ => .writeRequest key value newId
  | .casRequest key fromValue toValue _ => .casRequest key fromValue toValue newId
  | .readResponse inReplyTo value _ => .readResponse inReplyTo value newId
  | .writeResponse inReplyTo _ => .writeResponse inReplyTo newId
  | .casResponse inReplyTo _ => .casResponse inReplyTo newId
  | .errorResponse inReplyTo _ code text => .errorResponse inReplyTo newId code text

/-- Only responses have one. -/
def inReplyTo : ClientMessage K V → Option MessageID
  | .readRequest .. | .writeRequest .. | .casRequest .. => none
  | .readResponse inReplyTo .. | .writeResponse inReplyTo _ | .casResponse inReplyTo _
  | .errorResponse inReplyTo .. => some inReplyTo

end ClientMessage

/-- The error codes in use. -/
inductive ReservedErrorCode where
  | temporarilyUnavailable
  | abort
  | keyDoesNotExist
  | preconditionFailed

def ReservedErrorCode.code : ReservedErrorCode → ℕ
  | .temporarilyUnavailable => 11
  | .abort => 14
  | .keyDoesNotExist => 20
  | .preconditionFailed => 22

/-! ## Commands -/

inductive WireCommand (K V : Type) where
  | read (key : K)
  | write (key : K) (value : V)
  | cas (key : K) (fromValue toValue : V)
  deriving DecidableEq

/-- A command for the Raft log. The fields for the reply are in memory only; `respond` is whether
there is a channel to send it on. -/
structure Command (NodeID K V : Type) where
  inner : WireCommand K V
  responseId : Option MessageID
  inReplyTo : Option MessageID
  client : Option NodeID
  respond : Bool
  deriving DecidableEq

instance (NodeID K V : Type) : Wire (Command NodeID K V) where
  wire cmd := ⟨cmd.inner, none, none, none, false⟩
  wire_wire _ := rfl

/-- The panics of the client loop. -/
inductive ClientPanic where
  /-- "leader should always be someone else" -/
  | leaderIsSelf
  /-- "node IDs are unique per process" -/
  | messageIdReused
  /-- "client responses cannot be turned in Raft log commands" -/
  | responseAsCommand
  deriving DecidableEq

namespace Command

variable {NodeID K V : Type}

/-- `From<(NodeID, NodeMessageID, ClientMessage, PeerSender)> for Command` -/
def ofRequest (client : NodeID) (responseId : MessageID) :
    ClientMessage K V → Except ClientPanic (Command NodeID K V)
  | .readRequest key id => return ⟨.read key, some responseId, some id, some client, true⟩
  | .writeRequest key value id =>
    return ⟨.write key value, some responseId, some id, some client, true⟩
  | .casRequest key fromValue toValue id =>
    return ⟨.cas key fromValue toValue, some responseId, some id, some client, true⟩
  | .readResponse .. | .writeResponse .. | .casResponse .. | .errorResponse .. =>
    throw .responseAsCommand

/-- What `StateMachine::apply` for `HashMap` does to the map and answers. `debug` is the `Debug`
format of values. -/
def outcome [DecidableEq K] [DecidableEq V] (debug : V → String) (machine : Map K V)
    (cmd : Command NodeID K V) : Map K V × ClientMessage K V :=
  let id := cmd.responseId.getD 0
  let inReplyTo := cmd.inReplyTo.getD 0
  match cmd.inner with
  | .read key =>
    match machine.lookup key with
    | some v => (machine, .readResponse inReplyTo v id)
    | none =>
      (machine, .errorResponse inReplyTo id ReservedErrorCode.keyDoesNotExist.code "no such key")
  | .write key value => (machine.insert key value, .writeResponse inReplyTo id)
  | .cas key fromValue toValue =>
    match machine.lookup key with
    | some v =>
      if v = fromValue then (machine.insert key toValue, .casResponse inReplyTo id)
      else (machine, .errorResponse inReplyTo id ReservedErrorCode.preconditionFailed.code
        ("values for key differ (found " ++ debug v ++ ")"))
    | none =>
      (machine, .errorResponse inReplyTo id ReservedErrorCode.keyDoesNotExist.code "no such key")

/-- `StateMachine::apply` for `HashMap`: the map and what is sent to the client. -/
def apply [DecidableEq K] [DecidableEq V] (debug : V → String) (machine : Map K V)
    (cmd : Command NodeID K V) : Map K V × Option (NodeID × ClientMessage K V) :=
  let (machine, resp) := cmd.outcome debug machine
  match cmd.client, cmd.respond with
  | some client, true => (machine, some (client, resp))
  | _, _ => (machine, none)

/-- `Dismiss::dismiss` -/
def dismiss (cmd : Command NodeID K V) : Option (NodeID × ClientMessage K V) :=
  match cmd.responseId, cmd.inReplyTo, cmd.client, cmd.respond with
  | some responseId, some inReplyTo, some client, true =>
    some (client, .errorResponse inReplyTo responseId ReservedErrorCode.abort.code
      "dismissing command")
  | _, _, _, _ => none

end Command

/-! ## The client loop -/

def maxInflightProxies : ℕ := 1024

/-- `BTreeMap::pop_first` -/
def Map.popFirst {V : Type} (m : Map MessageID V) : Map MessageID V :=
  match m.keys.min? with
  | some key => m.erase key
  | none => m

/-- Drop the oldest request if the table is full. -/
def Map.makeRoom {V : Type} (m : Map MessageID V) : Map MessageID V :=
  if maxInflightProxies < m.keys.length then m.popFirst else m

/-- What the client loop keeps: the next message ID of the process and, under the IDs of the
requests it has forwarded, the original IDs and the clients. -/
structure ClientFront (NodeID : Type) where
  nextId : MessageID
  proxies : Map MessageID (MessageID × NodeID)

/-- What the client loop does with a message. -/
inductive Served (NodeID K V : Type) where
  | append (cmd : Command NodeID K V)
  | send (destination : NodeID) (msg : ClientMessage K V)
  | drop

variable {NodeID K V O : Type}

def ClientFront.new : ClientFront NodeID := ⟨1, ∅⟩

/-- One round of `incoming_client_rpcs_loop` at the node `self`. `isLeader` and `leader` are what
the state answers to `is_leader()` and `current_leader()`. -/
def ClientFront.serve [DecidableEq NodeID] (f : ClientFront NodeID) (self : NodeID)
    (isLeader : Bool) (leader : Option NodeID) (client : NodeID) (msg : ClientMessage K V) :
    Except ClientPanic (ClientFront NodeID × Served NodeID K V) :=
  let responseId := f.nextId
  let f := { f with nextId := f.nextId.next }
  match msg.inReplyTo with
  | none =>
    if isLeader then do
      let cmd ← Command.ofRequest client responseId msg
      return (f, .append cmd)
    else
      match leader with
      | some leader =>
        let proxies := f.proxies.makeRoom
        if leader = self then throw .leaderIsSelf
        else if (proxies.lookup responseId).isSome then throw .messageIdReused
        else
          return ({ f with proxies := proxies.insert responseId (msg.id, client) },
            .send leader (msg.setId responseId))
      | none =>
        return (f, .send client (.errorResponse msg.id responseId
          ReservedErrorCode.temporarilyUnavailable.code "not a leader and current leader unknown"))
  | some inReplyTo =>
    match f.proxies.lookup inReplyTo with
    | some (originalId, originalClient) =>
      return ({ f with proxies := f.proxies.erase inReplyTo },
        .send originalClient (msg.setId originalId))
    | none => return (f, .drop)

/-- A message on its way, with its origin. -/
structure Dispatch (NodeID K V O : Type) where
  destination : NodeID
  body : ClientMessage K V
  origin : O
  deriving DecidableEq

/-- The client side of a node: the loop and the commands it has appended to the log, which alone
have the fields for a reply. -/
structure ClientNode (NodeID K V O : Type) where
  front : ClientFront NodeID
  log : List (Command NodeID K V × O)

/-- What the client side of a node does in one step. Raft decides when a command in the log is
applied, and to which map, or dismissed. -/
inductive ClientAction (NodeID K V O : Type) where
  | serve (isLeader : Bool) (leader : Option NodeID) (client : NodeID) (msg : ClientMessage K V)
      (origin : O)
  | apply (position : ℕ) (machine : Map K V)
  | dismiss (position : ℕ)

namespace ClientNode

def new : ClientNode NodeID K V O := ⟨.new, []⟩

variable [DecidableEq NodeID] [DecidableEq K] [DecidableEq V]

/-- One step of the client side: what becomes of the node and what it sends. -/
def step (debug : V → String) (self : NodeID) (n : ClientNode NodeID K V O) :
    ClientAction NodeID K V O →
      Except ClientPanic (ClientNode NodeID K V O × List (Dispatch NodeID K V O))
  | .serve isLeader leader client msg origin => do
    let (front, served) ← n.front.serve self isLeader leader client msg
    match served with
    | .append cmd => return ({ front, log := n.log ++ [(cmd, origin)] }, [])
    | .send destination msg => return ({ n with front }, [⟨destination, msg, origin⟩])
    | .drop => return ({ n with front }, [])
  | .apply position machine =>
    match n.log[position]? with
    | some (cmd, origin) =>
      return (n, ((cmd.apply debug machine).2.map fun x => ⟨x.1, x.2, origin⟩).toList)
    | none => return (n, [])
  | .dismiss position =>
    match n.log[position]? with
    | some (cmd, origin) => return (n, (cmd.dismiss.map fun x => ⟨x.1, x.2, origin⟩).toList)
    | none => return (n, [])

end ClientNode

/-! ## Nodes and clients

Clients send requests to nodes and the nodes pass messages on to each other, as in
`raft/src/main.rs`. A message can be delivered at any time after it was sent and any number of
times. -/

structure Packet (NodeID K V O : Type) extends Dispatch NodeID K V O where
  source : NodeID
  deriving DecidableEq

/-- Why a step does not happen. -/
inductive ClientHalt where
  | notEnabled
  | panicked (p : ClientPanic)
  deriving DecidableEq

/-- The client sides of the nodes and every message ever sent. The origin of a message is the
client and its request. -/
structure Service (NodeID K V : Type) where
  nodes : NodeID → ClientNode NodeID K V (NodeID × ClientMessage K V)
  packets : List (Packet NodeID K V (NodeID × ClientMessage K V))

inductive ServiceLabel (NodeID K V : Type) where
  | request (client node : NodeID) (msg : ClientMessage K V)
  | node (i : NodeID) (a : ClientAction NodeID K V (NodeID × ClientMessage K V))

namespace Service

def boot : Service NodeID K V := ⟨fun _ => .new, []⟩

/-- A message can be served if it was sent. -/
def Deliverable (s : Service NodeID K V) (i : NodeID) :
    ClientAction NodeID K V (NodeID × ClientMessage K V) → Prop
  | .serve _ _ client msg origin => ⟨⟨i, msg, origin⟩, client⟩ ∈ s.packets
  | _ => True

variable [DecidableEq NodeID] [DecidableEq K] [DecidableEq V]

instance (s : Service NodeID K V) (i : NodeID)
    (a : ClientAction NodeID K V (NodeID × ClientMessage K V)) : Decidable (s.Deliverable i a) := by
  unfold Deliverable
  split <;> infer_instance

/-- The service after node `i` has become `n` and has sent `sent`. -/
def update (s : Service NodeID K V) (i : NodeID)
    (n : ClientNode NodeID K V (NodeID × ClientMessage K V))
    (sent : List (Dispatch NodeID K V (NodeID × ClientMessage K V))) : Service NodeID K V where
  nodes j := if j = i then n else s.nodes j
  packets := s.packets ++ sent.map (⟨·, i⟩)

def step (debug : V → String) (cfg : Config NodeID) (s : Service NodeID K V) :
    ServiceLabel NodeID K V → Except ClientHalt (Service NodeID K V)
  | .request client node msg =>
    if client ∉ cfg.ids ∧ msg.inReplyTo = none then
      return { s with packets := s.packets ++ [⟨⟨node, msg, (client, msg)⟩, client⟩] }
    else throw .notEnabled
  | .node i a =>
    if i ∈ cfg.ids ∧ s.Deliverable i a then
      match (s.nodes i).step debug i a with
      | .ok (n, sent) => return s.update i n sent
      | .error p => throw (.panicked p)
    else throw .notEnabled

end Service

end Miniraft

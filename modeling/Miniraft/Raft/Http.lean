import Miniraft.Raft.Client

/-!
# Requests over HTTP

`handle_connection` of `raft/src/http.rs`, as `raft/src/main-http.rs` runs it, a thread for each
connection: connections with HTTP requests wait in a table until a response for them arrives on
another connection. The ID of a node is its port, and to the client loop a request over HTTP is one
of the node itself.
-/

namespace Miniraft

variable {K V : Type}

/-- A `TcpStream` with an HTTP request, numbered at its node. -/
abbrev Stream := ℕ

/-- The key under which a stream waits at the node `id`. -/
def qid (id : String) (messageId : MessageID) : String :=
  "node-" ++ id ++ "-" ++ toString messageId

/-- A response written to a stream. -/
structure Written (K V : Type) where
  stream : Stream
  response : ClientMessage K V
  origin : String × Stream
  deriving DecidableEq

/-- A node that serves HTTP. The origin of a message is the node and the stream with the
request. -/
structure HttpNode (K V : Type) where
  client : ClientNode String K V (String × Stream)
  /-- The requests that were read, and whose streams are still to be put in the queue. -/
  parsed : List (ClientMessage K V × Stream)
  responseQueue : Map String Stream
  /-- What the threads are about to send to the client loop. -/
  submitting : List (String × ClientMessage K V × (String × Stream))
  /-- The channel to the client loop, the oldest message first. -/
  clientIncoming : List (String × ClientMessage K V × (String × Stream))
  /-- The requests that were read, with their streams. Like `written`, this is history. -/
  requests : List (MessageID × Stream)
  written : List (Written K V)

inductive HttpAction (K V : Type) where
  /-- A thread reads an HTTP request for `msg` and draws its ID; or the request turns out to be
  malformed after that. -/
  | request (stream : Stream) (msg : Option (ClientMessage K V))
  /-- A thread puts its stream in the queue. -/
  | enqueue (thread : ℕ)
  /-- A thread reads the client message `msg` of the node `source`. -/
  | json (source : String) (msg : ClientMessage K V) (origin : String × Stream)
  /-- A thread sends a message to the client loop. -/
  | submit (thread : ℕ)
  /-- The client loop takes a message. -/
  | serve (isLeader : Bool) (leader : Option String)
  | apply (position : ℕ) (machine : Map K V)
  | dismiss (position : ℕ)

namespace HttpNode

def new : HttpNode K V := ⟨.new, [], ∅, [], [], [], []⟩

/-- `TryFrom<Request>`: it shares the counter with the client loop. -/
def request (stream : Stream) (n : HttpNode K V) : Option (ClientMessage K V) → HttpNode K V
  | some msg =>
    let id := n.client.front.nextId
    { n with
      client.front.nextId := id.next
      parsed := n.parsed ++ [(msg.setId id, stream)]
      requests := (id, stream) :: n.requests }
  | none => { n with client.front.nextId := n.client.front.nextId.next }

def enqueue (self : String) (thread : ℕ) (n : HttpNode K V) : HttpNode K V :=
  match n.parsed[thread]? with
  | some (message, stream) =>
    { n with
      parsed := n.parsed.eraseIdx thread
      responseQueue := n.responseQueue.insert (qid self message.id) stream
      submitting := n.submitting ++ [(self, message, (self, stream))] }
  | none => n

/-- Take the stream out of the queue and answer it. -/
def answer (key : String) (stream : Stream) (msg : ClientMessage K V) (origin : String × Stream)
    (n : HttpNode K V) : HttpNode K V :=
  { n with
    responseQueue := n.responseQueue.erase key
    written := ⟨stream, msg, origin⟩ :: n.written }

def json (self source : String) (msg : ClientMessage K V) (origin : String × Stream)
    (n : HttpNode K V) : HttpNode K V :=
  match msg.inReplyTo with
  | none => { n with submitting := n.submitting ++ [(source, msg, origin)] }
  | some replyId =>
    let qidIfFollower := qid self msg.id
    let qidIfLeader := qid self replyId
    match n.responseQueue.lookup qidIfFollower with
    | some stream => n.answer qidIfFollower stream msg origin
    | none =>
      match n.responseQueue.lookup qidIfLeader with
      | some stream => n.answer qidIfLeader stream msg origin
      -- Another trip through the engine.
      | none => { n with submitting := n.submitting ++ [(self, msg, origin)] }

def submit (thread : ℕ) (n : HttpNode K V) : HttpNode K V :=
  match n.submitting[thread]? with
  | some x =>
    { n with
      submitting := n.submitting.eraseIdx thread
      clientIncoming := n.clientIncoming ++ [x] }
  | none => n

variable [DecidableEq K] [DecidableEq V]

/-- The client side makes a step. -/
def clientStep (debug : V → String) (self : String) (n : HttpNode K V)
    (a : ClientAction String K V (String × Stream)) :
    Except ClientHalt (HttpNode K V × List (Dispatch String K V (String × Stream))) :=
  match n.client.step debug self a with
  | .ok (client, sent) => return ({ n with client }, sent)
  | .error p => throw (.panicked p)

def step (debug : V → String) (self : String) (n : HttpNode K V) :
    HttpAction K V → Except ClientHalt (HttpNode K V × List (Dispatch String K V (String × Stream)))
  | .request stream msg => return (n.request stream msg, [])
  | .enqueue thread => return (n.enqueue self thread, [])
  | .json source msg origin => return (n.json self source msg origin, [])
  | .submit thread => return (n.submit thread, [])
  | .serve isLeader leader =>
    match n.clientIncoming with
    | (client, msg, origin) :: rest =>
      { n with clientIncoming := rest }.clientStep debug self
        (.serve isLeader leader client msg origin)
    | [] => throw .notEnabled
  | .apply position machine => n.clientStep debug self (.apply position machine)
  | .dismiss position => n.clientStep debug self (.dismiss position)

end HttpNode

/-- The nodes and every message they have sent to each other. -/
structure HttpCluster (K V : Type) where
  nodes : String → HttpNode K V
  packets : List (Packet String K V (String × Stream))

namespace HttpCluster

def boot : HttpCluster K V := ⟨fun _ => .new, []⟩

/-- A request over HTTP comes on a new stream and is no response. A message was sent. -/
def Deliverable (s : HttpCluster K V) (i : String) : HttpAction K V → Prop
  | .request stream msg => (∀ x ∈ (s.nodes i).requests, x.2 ≠ stream) ∧
    ∀ m ∈ msg, m.inReplyTo = none
  | .json source msg origin => ⟨⟨i, msg, origin⟩, source⟩ ∈ s.packets
  | _ => True

/-- The cluster after node `i` has become `n` and has sent `sent`. -/
def update (s : HttpCluster K V) (i : String) (n : HttpNode K V)
    (sent : List (Dispatch String K V (String × Stream))) : HttpCluster K V where
  nodes j := if j = i then n else s.nodes j
  packets := s.packets ++ sent.map (⟨·, i⟩)

variable [DecidableEq K] [DecidableEq V]

instance (s : HttpCluster K V) (i : String) (a : HttpAction K V) :
    Decidable (s.Deliverable i a) := by
  unfold Deliverable
  split <;> infer_instance

def step (debug : V → String) (cfg : Config String) (s : HttpCluster K V) :
    String × HttpAction K V → Except ClientHalt (HttpCluster K V)
  | (i, a) =>
    if i ∈ cfg.ids ∧ s.Deliverable i a then do
      let (n, sent) ← (s.nodes i).step debug i a
      return s.update i n sent
    else throw .notEnabled

end HttpCluster

end Miniraft

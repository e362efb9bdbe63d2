import Miniraft.Json.Parser
import Miniraft.Json.Serde
import Miniraft.Raft.Client

/-!
# Messages on the wire

The serialization of log entries, commands and messages in `raft/src/serde/mod.rs`,
`raft/src/lib.rs`, `raft/src/rpc.rs` and `raft/src/maelstrom/rpc.rs`, and the input and output of
`raft/src/maelstrom/infra.rs`: one message a line. Removing all keys before looking at what was
removed, as the source does, shows in the errors: they have what is left of the map.
-/

namespace Miniraft

open Json

variable {K V Cmd B : Type}

/-- The error for what is left of a map. -/
def invalidObject {α : Type} (map : Entries) : Except DeserializeError α :=
  throw (.invalidValue (.object map))

/-! ## Log entries -/

instance [Serialize Cmd] : Serialize (LogEntry Cmd) where
  serialize entry := .ofFields [("c", serialize entry.cmd), ("t", serialize entry.term)]

instance [Deserialize Cmd] : Deserialize (LogEntry Cmd) where
  deserialize
    | .object map =>
      let (cmd, map) := removeKey map "c"
      let (term, map) := removeKey map "t"
      match cmd, term with
      | some cmd, some term => return ⟨← deserialize cmd, ← deserialize term⟩
      | _, _ => invalidObject map
    | value => throw (.invalidValue value)

instance [Serialize Cmd] : Serialize (Log Cmd) where
  serialize log := serialize log.inner

instance [Deserialize Cmd] : Deserialize (Log Cmd) where
  deserialize value := return ⟨← deserialize value⟩

/-! ## Commands -/

instance [Serialize K] [Serialize V] : Serialize (WireCommand K V) where
  serialize
    | .read key => .ofFields [("T", serialize "r"), ("k", serialize key)]
    | .write key value =>
      .ofFields [("T", serialize "w"), ("k", serialize key), ("v", serialize value)]
    | .cas key fromValue toValue =>
      .ofFields [("T", serialize "c"), ("k", serialize key), ("f", serialize fromValue),
        ("t", serialize toValue)]

instance [Deserialize K] [Deserialize V] : Deserialize (WireCommand K V) where
  deserialize
    | .object map =>
      let (typ, map) := removeKey map "T"
      match typ with
      | some (.string "r") =>
        let (key, map) := removeKey map "k"
        match key with
        | some key => return .read (← deserialize key)
        | _ => invalidObject map
      | some (.string "w") =>
        let (key, map) := removeKey map "k"
        let (value, map) := removeKey map "v"
        match key, value with
        | some key, some value => return .write (← deserialize key) (← deserialize value)
        | _, _ => invalidObject map
      | some (.string "c") =>
        let (key, map) := removeKey map "k"
        let (fromValue, map) := removeKey map "f"
        let (toValue, map) := removeKey map "t"
        match key, fromValue, toValue with
        | some key, some fromValue, some toValue =>
          return .cas (← deserialize key) (← deserialize fromValue) (← deserialize toValue)
        | _, _, _ => invalidObject map
      | _ => invalidObject map
    | value => throw (.invalidValue value)

instance {NodeID : Type} [Serialize K] [Serialize V] : Serialize (Command NodeID K V) where
  serialize cmd := serialize cmd.inner

instance {NodeID : Type} [Deserialize K] [Deserialize V] : Deserialize (Command NodeID K V) where
  deserialize value := return ⟨← deserialize value, none, none, none, false⟩

/-! ## Messages -/

instance [Serialize Cmd] : Serialize (RaftMessage Cmd) where
  serialize
    | .appendEntries term commitIndex prevLogIndex prevLogTerm entries =>
      .ofFields [("type", serialize "append_entries"), ("leader_term", serialize term),
        ("prev_log_index", serialize prevLogIndex), ("prev_log_term", serialize prevLogTerm),
        ("entries", serialize entries), ("leader_commit", serialize commitIndex)]
    | .appendEntriesResponse currentTerm index success =>
      .ofFields [("type", serialize "append_entries_response"), ("index", serialize index),
        ("current_term", serialize currentTerm), ("success", serialize success)]
    | .requestVote candidateTerm lastLogIndex lastLogTerm =>
      .ofFields [("type", serialize "request_vote"),
        ("candidate_term", serialize candidateTerm), ("last_log_index", serialize lastLogIndex),
        ("last_log_term", serialize lastLogTerm)]
    | .requestVoteResponse term voteGranted =>
      .ofFields [("type", serialize "request_vote_response"), ("term", serialize term),
        ("vote_granted", serialize voteGranted)]

instance [Deserialize Cmd] : Deserialize (RaftMessage Cmd) where
  deserialize
    | .object body =>
      let (typ, body) := removeKey body "type"
      match typ with
      | some (.string "append_entries") =>
        let (leaderTerm, body) := removeKey body "leader_term"
        let (prevLogIndex, body) := removeKey body "prev_log_index"
        let (prevLogTerm, body) := removeKey body "prev_log_term"
        let (entries, body) := removeKey body "entries"
        let (leaderCommit, body) := removeKey body "leader_commit"
        match leaderTerm, prevLogIndex, prevLogTerm, entries, leaderCommit with
        | some leaderTerm, some prevLogIndex, some prevLogTerm, some entries,
          some leaderCommit => do
          let term ← deserialize leaderTerm
          let prevLogIndex ← deserialize prevLogIndex
          let prevLogTerm ← deserialize prevLogTerm
          let entries ← deserialize entries
          let commitIndex ← deserialize leaderCommit
          return .appendEntries term commitIndex prevLogIndex prevLogTerm entries
        | _, _, _, _, _ => invalidObject body
      | some (.string "append_entries_response") =>
        let (currentTerm, body) := removeKey body "current_term"
        let (index, body) := removeKey body "index"
        let (success, body) := removeKey body "success"
        match currentTerm, index, success with
        | some currentTerm, some index, some success =>
          return .appendEntriesResponse (← deserialize currentTerm) (← deserialize index)
            (← deserialize success)
        | _, _, _ => invalidObject body
      | some (.string "request_vote") =>
        let (candidateTerm, body) := removeKey body "candidate_term"
        let (lastLogIndex, body) := removeKey body "last_log_index"
        let (lastLogTerm, body) := removeKey body "last_log_term"
        match candidateTerm, lastLogIndex, lastLogTerm with
        | some candidateTerm, some lastLogIndex, some lastLogTerm =>
          return .requestVote (← deserialize candidateTerm) (← deserialize lastLogIndex)
            (← deserialize lastLogTerm)
        | _, _, _ => invalidObject body
      | some (.string "request_vote_response") =>
        let (term, body) := removeKey body "term"
        let (voteGranted, body) := removeKey body "vote_granted"
        match term, voteGranted with
        | some term, some voteGranted =>
          return .requestVoteResponse (← deserialize term) (← deserialize voteGranted)
        | _, _ => invalidObject body
      | _ => invalidObject body
    | value => throw (.invalidValue value)

instance [Serialize K] [Serialize V] : Serialize (ClientMessage K V) where
  serialize
    | .readRequest key id =>
      .ofFields [("type", serialize "read"), ("key", serialize key), ("msg_id", serialize id)]
    | .writeRequest key value id =>
      .ofFields [("type", serialize "write"), ("key", serialize key), ("value", serialize value),
        ("msg_id", serialize id)]
    | .casRequest key fromValue toValue id =>
      .ofFields [("type", serialize "cas"), ("key", serialize key), ("from", serialize fromValue),
        ("to", serialize toValue), ("msg_id", serialize id)]
    | .readResponse inReplyTo value id =>
      .ofFields [("type", serialize "read_ok"), ("in_reply_to", serialize inReplyTo),
        ("value", serialize value), ("msg_id", serialize id)]
    | .writeResponse inReplyTo id =>
      .ofFields [("type", serialize "write_ok"), ("in_reply_to", serialize inReplyTo),
        ("msg_id", serialize id)]
    | .casResponse inReplyTo id =>
      .ofFields [("type", serialize "cas_ok"), ("in_reply_to", serialize inReplyTo),
        ("msg_id", serialize id)]
    | .errorResponse inReplyTo id code text =>
      .ofFields [("type", serialize "error"), ("in_reply_to", serialize inReplyTo),
        ("msg_id", serialize id), ("code", serialize code), ("text", serialize text)]

instance [Deserialize K] [Deserialize V] : Deserialize (ClientMessage K V) where
  deserialize
    | .object body =>
      let (typ, body) := removeKey body "type"
      match typ with
      | some (.string "read") =>
        let (key, body) := removeKey body "key"
        let (messageId, body) := removeKey body "msg_id"
        match key, messageId with
        | some key, some messageId =>
          return .readRequest (← deserialize key) (← deserialize messageId)
        | _, _ => invalidObject body
      | some (.string "write") =>
        let (key, body) := removeKey body "key"
        let (value, body) := removeKey body "value"
        let (messageId, body) := removeKey body "msg_id"
        match key, value, messageId with
        | some key, some value, some messageId =>
          return .writeRequest (← deserialize key) (← deserialize value) (← deserialize messageId)
        | _, _, _ => invalidObject body
      | some (.string "cas") =>
        let (key, body) := removeKey body "key"
        let (fromValue, body) := removeKey body "from"
        let (toValue, body) := removeKey body "to"
        let (messageId, body) := removeKey body "msg_id"
        match key, fromValue, toValue, messageId with
        | some key, some fromValue, some toValue, some messageId =>
          return .casRequest (← deserialize key) (← deserialize fromValue) (← deserialize toValue)
            (← deserialize messageId)
        | _, _, _, _ => invalidObject body
      | some (.string "read_ok") =>
        let (inReplyTo, body) := removeKey body "in_reply_to"
        let (value, body) := removeKey body "value"
        let (messageId, body) := removeKey body "msg_id"
        match inReplyTo, value, messageId with
        | some inReplyTo, some value, some messageId =>
          return .readResponse (← deserialize inReplyTo) (← deserialize value)
            (← deserialize messageId)
        | _, _, _ => invalidObject body
      | some (.string "write_ok") =>
        let (inReplyTo, body) := removeKey body "in_reply_to"
        let (messageId, body) := removeKey body "msg_id"
        match inReplyTo, messageId with
        | some inReplyTo, some messageId =>
          return .writeResponse (← deserialize inReplyTo) (← deserialize messageId)
        | _, _ => invalidObject body
      | some (.string "cas_ok") =>
        let (inReplyTo, body) := removeKey body "in_reply_to"
        let (messageId, body) := removeKey body "msg_id"
        match inReplyTo, messageId with
        | some inReplyTo, some messageId =>
          return .casResponse (← deserialize inReplyTo) (← deserialize messageId)
        | _, _ => invalidObject body
      | some (.string "error") =>
        let (inReplyTo, body) := removeKey body "in_reply_to"
        let (messageId, body) := removeKey body "msg_id"
        let (code, body) := removeKey body "code"
        let (text, body) := removeKey body "text"
        match inReplyTo, messageId, code, text with
        | some inReplyTo, some messageId, some code, some text =>
          return .errorResponse (← deserialize inReplyTo) (← deserialize messageId)
            (← deserialize code) (← deserialize text)
        | _, _, _, _ => invalidObject body
      | _ => invalidObject body
    | value => throw (.invalidValue value)

inductive Message (K V Cmd : Type) where
  | raft (msg : RaftMessage Cmd)
  | client (msg : ClientMessage K V)

instance [Serialize K] [Serialize V] [Serialize Cmd] : Serialize (Message K V Cmd) where
  serialize
    | .raft r => serialize r
    | .client kv => serialize kv

/-- There is no enum tag on this level. -/
instance [Deserialize K] [Deserialize V] [Deserialize Cmd] : Deserialize (Message K V Cmd) where
  deserialize value :=
    match deserialize value with
    | .ok msg => return .raft msg
    | .error _ =>
      match deserialize value with
      | .ok msg => return .client msg
      | .error _ => throw (.invalidValue value)

/-! ## Lines -/

structure MessageEnvelope (B : Type) where
  source : String
  destination : String
  body : B

instance [Serialize B] : Serialize (MessageEnvelope B) where
  serialize msg :=
    .ofFields [("src", serialize msg.source), ("dest", serialize msg.destination),
      ("body", serialize msg.body)]

instance [Deserialize B] : Deserialize (MessageEnvelope B) where
  deserialize
    | .object msg =>
      let (source, msg) := removeKey msg "src"
      let (destination, msg) := removeKey msg "dest"
      let (body, msg) := removeKey msg "body"
      match source, destination, body with
      | some source, some destination, some body =>
        return ⟨← deserialize source, ← deserialize destination, ← deserialize body⟩
      | _, _, _ => invalidObject msg
    | value => throw (.invalidValue value)

/-- The order in which the maps of a value are iterated when it is printed. -/
structure Iteration where
  reorder : Value → Value
  same : ∀ v, Same v (reorder v)

inductive SendPanic where
  /-- "routing bug: sending to self" -/
  | sendingToSelf
  deriving DecidableEq

/-- Responds on stdout: what is written there. -/
def send [Serialize B] (order : Iteration) (msg : MessageEnvelope B) :
    Except SendPanic (List UInt8) :=
  if msg.source = msg.destination then throw .sendingToSelf
  else return asBytes (order.reorder (serialize msg)).print ++ [ascii '\n']

/-- What is still to be read from stdin, and the buffer for lines. -/
structure Input where
  stdin : List UInt8
  buf : String

inductive ReadError where
  /-- `read_line`: "stream did not contain valid UTF-8" -/
  | invalidUtf8
  | invalidJson (e : Json.Failure)
  | invalidMessage (e : DeserializeError)

/-- The bytes up to and including the next newline, and those behind it. -/
def splitLine : List UInt8 → List UInt8 × List UInt8
  | [] => ([], [])
  | b :: bytes =>
    if b = ascii '\n' then ([b], bytes)
    else
      let (line, rest) := splitLine bytes
      (b :: line, rest)

/-- `BufRead::read_line`: the line is appended to the buffer. -/
def readLine (input : Input) : Except ReadError Unit × Input :=
  let (line, rest) := splitLine input.stdin
  match String.fromUTF8? line.toByteArray with
  | some s => (.ok (), ⟨rest, input.buf ++ s⟩)
  | none => (.error .invalidUtf8, ⟨rest, input.buf⟩)

/-- Reads a line from stdin, parses to JSON, then deserializes into the provided type. The buffer
is cleared only if this succeeds. -/
def read (M : Type) [Deserialize M] (input : Input) : Except ReadError M × Input :=
  match readLine input with
  | (.error e, input) => (.error e, input)
  | (.ok (), input) =>
    match parse (asBytes input.buf) with
    | .error e => (.error (.invalidJson e), input)
    | .ok jval =>
      match deserialize jval with
      | .error e => (.error (.invalidMessage e), input)
      | .ok m => (.ok m, ⟨input.stdin, ""⟩)

/-- The loop of `main` over incoming messages, for at most `fuel` of them: the messages that were
read, and the error that has ended it. -/
def readAll (M : Type) [Deserialize M] : ℕ → Input → List M × Option ReadError × Input
  | 0, input => ([], none, input)
  | fuel + 1, input =>
    match read M input with
    | (.ok m, input) =>
      let (ms, result) := readAll M fuel input
      (m :: ms, result)
    | (.error e, input) => ([], some e, input)

end Miniraft

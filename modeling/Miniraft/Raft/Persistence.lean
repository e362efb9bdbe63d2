import Miniraft.Raft.Wire

/-!
# The snapshot of a node as bytes

The serialization of `Persistent`, and `persist` and `restore`, in `raft/src/persistence.rs`.
-/

namespace Miniraft

open Json

variable {NodeID Cmd : Type}

instance [Serialize NodeID] [Serialize Cmd] : Serialize (Persistent NodeID Cmd) where
  serialize p :=
    .ofFields [("current_term", serialize p.currentTerm), ("voted_for", serialize p.votedFor),
      ("log", serialize p.log)]

instance [Deserialize NodeID] [Deserialize Cmd] : Deserialize (Persistent NodeID Cmd) where
  deserialize
    | .object map =>
      let (currentTerm, map) := removeKey map "current_term"
      let (votedFor, map) := removeKey map "voted_for"
      let (log, map) := removeKey map "log"
      match currentTerm, votedFor, log with
      | some currentTerm, some votedFor, some log =>
        return ⟨← deserialize currentTerm, ← deserialize votedFor, ← deserialize log⟩
      | _, _, _ => invalidObject map
    | value => throw (.invalidValue value)

/-- The errors of restoring from bytes: there, reading does not fail. -/
inductive PersistenceError where
  /-- "JSON parsing error while restoring" -/
  | parse (e : Json.Failure)
  /-- "deserialization error while restoring" -/
  | deserialize (e : DeserializeError)

/-- What `persist` writes out. -/
def Persistent.persist [Serialize NodeID] [Serialize Cmd] (order : Iteration)
    (p : Persistent NodeID Cmd) : List UInt8 :=
  asBytes (order.reorder (serialize p)).print

/-- `restore` from a reader that has these bytes until EOF. -/
def Persistent.restore [Deserialize NodeID] [Deserialize Cmd] (buf : List UInt8) :
    Except PersistenceError (Persistent NodeID Cmd) := do
  let jval ← (parse buf).mapError .parse
  (deserialize jval).mapError .deserialize

end Miniraft

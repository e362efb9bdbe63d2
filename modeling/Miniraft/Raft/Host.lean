import Miniraft.Raft.Engine
import Miniraft.Raft.FileMoF
import Miniraft.Raft.Persistence
import Miniraft.Raft.Request

/-!
# Hosts

A node on a disk: `main` of `raft/src/main.rs` up to the start of the engine, which
`raft/src/main-http.rs` repeats, and the engine with its file. A process can die at any time (the
supervisor of `raft/src/supervisor.rs` sets a time bomb in each), also while a snapshot is written,
and then the supervisor starts another one.
-/

namespace Miniraft

open Calls (Method)
open Files (Call Disk ErrorKind Path)
open Files.Disk (machine)
open Json (Serialize Deserialize asBytes)

variable {NodeID Cmd : Type}

/-- `fs::read_to_string`, for what reading the file gave. -/
def readToString (read : Except ErrorKind (List UInt8)) : Except ErrorKind String :=
  match read with
  | .ok bytes =>
    match utf8 bytes with
    | some s => .ok s
    -- `InvalidData`
    | none => .error .other
  | .error e => .error e

inductive BootError where
  | io (e : ErrorKind)
  | persistence (e : PersistenceError)

/-- The durable state from past runs. It starts from scratch if the file is missing, and also if it
is empty, since it may have been created but never written to. -/
def restoreState [Deserialize NodeID] [Deserialize Cmd] (read : Except ErrorKind (List UInt8)) :
    Except BootError (Persistent NodeID Cmd) :=
  match readToString read with
  | .ok s =>
    if s.isEmpty then return .default
    else (Persistent.restore (asBytes s)).mapError .persistence
  | .error .notFound => return .default
  | .error e => throw (.io e)

/-- `Path::new("./node").join(&this_node)` -/
def persistencePath (thisNode : String) : Path := ⟨"./node", thisNode⟩

/-- The process of a node. The thread of its Raft-message loop owns the file, which is dropped when
that thread panics. -/
inductive Process where
  | down
  | running (file : Option FileMoF)

structure Host (Cmd : Type) where
  /-- What is in memory, or was there when the process died. -/
  node : Node String Cmd
  process : Process
  disk : Disk

/-- What a process finds on its machine: the directory for temporary files, and the random numbers
it may draw. -/
structure Site where
  tempDir : String
  draws : List ℕ → Bool

inductive HostAction (Cmd : Type) where
  /-- A step of a thread that leaves the disk alone. -/
  | thread (a : Action String Cmd)
  /-- The Raft-message loop persists its snapshot, with maps iterated in this order. -/
  | persist (order : Iteration)
  /-- The thread of the Raft-message loop panics, but not while it persists. -/
  | unwind
  | kill
  /-- The supervisor starts a process. -/
  | start
  /-- The process fails, or is killed, before it has started the engine. -/
  | abort

/-- The actions of the Raft-message loop. -/
def Action.inRaftLoop : Action NodeID Cmd → Bool
  | .receive _ _ | .handle _ | .snapshot | .persist _ | .respond => true
  | _ => false

/-- The actions that have to do with the disk. -/
def Action.onDisk : Action NodeID Cmd → Bool
  | .persist _ | .crash => true
  | _ => false

variable [Wire Cmd] [Serialize Cmd] [Deserialize Cmd]

namespace Host

/-- What a process that is started now will restore, if reading the file does not fail. -/
def restored (i : String) (h : Host Cmd) : Except BootError (Persistent String Cmd) :=
  restoreState (h.disk.read (persistencePath i))

/-- One step of the host of node `i`, and the messages the node sends. -/
inductive Step (site : Site) (cfg : Config String) (i : String) :
    Host Cmd → HostAction Cmd → Host Cmd → Outgoing String Cmd → Prop where
  | thread {n n' : Node String Cmd} {a : Action String Cmd} {msgs : Outgoing String Cmd}
    {file : Option FileMoF} {d : Disk} (hs : n.step a = .ok (n', msgs)) (ha : a.onDisk = false)
    (hfile : a.inRaftLoop → file.isSome) :
    Step site cfg i ⟨n, .running file, d⟩ (.thread a) ⟨n', .running file, d⟩ msgs
  | persist {n n' : Node String Cmd} {p : Persistent String Cmd}
    {responses msgs : Outgoing String Cmd} {order : Iteration} {f f' : FileMoF} {d d' : Disk}
    {r : Except Fault Unit} (hloop : n.raftLoop = .snapshotted p responses)
    (hcycle : (FileMoF.persistCycle site.tempDir (p.persist order)).Returns (machine site.draws)
      f d r f' d')
    (hr : r ≠ .error .panic) (hs : n.step (.persist r.isOk) = .ok (n', msgs)) :
    Step site cfg i ⟨n, .running (some f), d⟩ (.persist order) ⟨n', .running (some f'), d'⟩ msgs
  | panic {n : Node String Cmd} {p : Persistent String Cmd} {responses : Outgoing String Cmd}
    {order : Iteration} {f f' : FileMoF} {d d' : Disk}
    (hloop : n.raftLoop = .snapshotted p responses)
    (hcycle : (FileMoF.persistCycle site.tempDir (p.persist order)).Returns (machine site.draws)
      f d (.error .panic) f' d') :
    Step site cfg i ⟨n, .running (some f), d⟩ (.persist order) ⟨n, .running none, d'⟩ []
  | unwind {n : Node String Cmd} {f : FileMoF} {d d' : Disk}
    (hdrop : (f.inner.2.drop : Method Call Fault Unit Unit).Moment (machine site.draws) () d d') :
    Step site cfg i ⟨n, .running (some f), d⟩ .unwind ⟨n, .running none, d'⟩ []
  | kill {n : Node String Cmd} {file : Option FileMoF} {d : Disk} :
    Step site cfg i ⟨n, .running file, d⟩ .kill ⟨n, .down, d⟩ []
  | killPersisting {n : Node String Cmd} {p : Persistent String Cmd}
    {responses : Outgoing String Cmd} {order : Iteration} {f : FileMoF} {d d' : Disk}
    (hloop : n.raftLoop = .snapshotted p responses)
    (hcycle : (FileMoF.persistCycle site.tempDir (p.persist order)).Moment (machine site.draws)
      f d d') :
    Step site cfg i ⟨n, .running (some f), d⟩ .kill ⟨n, .down, d'⟩ []
  | start {n : Node String Cmd} {read : Except ErrorKind (List UInt8)} {p : Persistent String Cmd}
    {f : FileMoF} {d d' : Disk}
    (hread : read = d.read (persistencePath i) ∨ ∃ e, e ≠ .notFound ∧ read = .error e)
    (hp : restoreState read = .ok p)
    (hnew : (FileMoF.new site.tempDir (persistencePath i)).Returns (machine site.draws)
      () d (.ok f) () d') :
    Step site cfg i ⟨n, .down, d⟩ .start
      ⟨⟨.new i (cfg.peers i) p, .idle, .idle, p, n.history⟩, .running (some f), d'⟩ []
  | abort {n : Node String Cmd} {d d' : Disk}
    (hnew : (FileMoF.new site.tempDir (persistencePath i)).Moment (machine site.draws) () d d') :
    Step site cfg i ⟨n, .down, d⟩ .abort ⟨n, .down, d'⟩ []

end Host

/-- The hosts of a cluster and every message ever sent. -/
structure Hosts (Cmd : Type) where
  hosts : String → Host Cmd
  network : List (Envelope String Cmd)

namespace Hosts

/-- Every host is down, and has nothing from past runs. -/
structure Fresh (cfg : Config String) (c : Hosts Cmd) : Prop where
  node : ∀ i, (c.hosts i).node = .boot i (cfg.peers i)
  process : ∀ i, (c.hosts i).process = .down
  disk : ∀ i, (c.hosts i).disk.content (persistencePath i) = none ∨
    (c.hosts i).disk.content (persistencePath i) = some []
  network : c.network = []

/-- The nodes, with what they would restore as what is stored. -/
def view (c : Hosts Cmd) : Cluster String Cmd where
  nodes i := { (c.hosts i).node with
    stored := ((c.hosts i).restored i).toOption.getD .default }
  network := c.network

def update (c : Hosts Cmd) (i : String) (h : Host Cmd) (msgs : Outgoing String Cmd) :
    Hosts Cmd where
  hosts j := if j = i then h else c.hosts j
  network := c.network ++ msgs.map fun m => ⟨i, m.1, m.2.wire⟩

/-- One step of a cluster of hosts. -/
inductive Step (site : Site) (cfg : Config String) (c : Hosts Cmd) :
    String × HostAction Cmd → Hosts Cmd → Prop where
  | host {i : String} {a : HostAction Cmd} {h : Host Cmd} {msgs : Outgoing String Cmd}
    (hi : i ∈ cfg.ids) (hdel : ∀ b, a = .thread b → c.view.Deliverable i b)
    (hs : Host.Step site cfg i (c.hosts i) a h msgs) : Step site cfg c (i, a) (c.update i h msgs)

end Hosts

/-- What a step of a host is to the cluster: a process that is started is a node after a crash. -/
def HostAction.action : HostAction Cmd → Option (Action String Cmd)
  | .thread a => some a
  | .start => some .crash
  | .persist _ | .unwind | .kill | .abort => none

namespace Hosts

/-- A run in which every step meets `P`, as seen by the cluster. -/
abbrev Reaches (site : Site) (cfg : Config String)
    (P : Cluster String Cmd → Label String Cmd → Prop) :
    Hosts Cmd → Hosts Cmd → Prop :=
  Relation.ReflTransGen fun c c' =>
    ∃ l, (∀ a, l.2.action = some a → P c.view (l.1, a)) ∧ Step site cfg c l c'

end Hosts

end Miniraft

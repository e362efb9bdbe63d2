import Miniraft.Raft.Engine
import Miniraft.Raft.Client
import Miniraft.Raft.Http
import Miniraft.Raft.Request
import Miniraft.Theory.Election
import Miniraft.Theory.Replication
import Miniraft.Theory.Preservation
import Miniraft.Theory.Completeness
import Miniraft.Theory.Splice
import Miniraft.Theory.Ballot
import Miniraft.Verify.Log
import Miniraft.Verify.Append
import Miniraft.Verify.Quorum
import Miniraft.Verify.Map
import Miniraft.Verify.Move
import Miniraft.Verify.Cluster
import Miniraft.Verify.Election
import Miniraft.Verify.Replication
import Miniraft.Verify.Commit
import Miniraft.Verify.Safety
import Miniraft.Verify.Origin
import Miniraft.Verify.Dismissal
import Miniraft.Verify.Durability
import Miniraft.Verify.Client
import Miniraft.Verify.Proxy
import Miniraft.Verify.Http
import Miniraft.Verify.Request
import Miniraft.Verify.Header
import Miniraft.Verify.Acknowledge
import Miniraft.Verify.Leadership
import Miniraft.Verify.Order
import Miniraft.Verify.Requests
import Miniraft.Verify.Bookkeeping
import Miniraft.Verify.Panics
import Miniraft.Verify.Vote
import Miniraft.Json.Parser
import Miniraft.Theory.Grammar
import Miniraft.Verify.Utf8
import Miniraft.Verify.Lexeme
import Miniraft.Verify.StringLit
import Miniraft.Verify.Parse
import Miniraft.Verify.Robust
import Miniraft.Verify.Print
import Miniraft.Verify.RoundTrip
import Miniraft.Json.Serde
import Miniraft.Raft.Wire
import Miniraft.Verify.Serde
import Miniraft.Verify.Wire
import Miniraft.Raft.Persistence
import Miniraft.Verify.Persistence
import Miniraft.Verify.Stale
import Miniraft.Verify.Repair
import Miniraft.Theory.Calls
import Miniraft.Theory.Files
import Miniraft.Raft.FileMoF
import Miniraft.Verify.FileMoF
import Miniraft.Json.Diff
import Miniraft.Std.Blocks
import Miniraft.Verify.Diff
import Miniraft.Verify.Stable
import Miniraft.Base64.Codec
import Miniraft.Std.Radix
import Miniraft.Verify.Base64
import Miniraft.Theory.Linear
import Miniraft.Raft.Store
import Miniraft.Verify.Store
import Miniraft.Verify.Linear
import Miniraft.Verify.Service
import Miniraft.Verify.Restart
import Miniraft.Verify.Terms
import Miniraft.Verify.Votes
import Miniraft.Raft.Host
import Miniraft.Verify.Host
import Miniraft.Verify.Stall
import Miniraft.Verify.Deliver
import Miniraft.Verify.Elect
import Miniraft.Verify.Sync
import Miniraft.Verify.Recover

import Miniraft.Verify.Append
import Miniraft.Verify.Stale
import Miniraft.Verify.Election

/-!
# Log repair

A leader and one of its followers, with nothing else going on: the leader sends what
`replicate_log` builds for the follower, and moves the follower's next index back each time the
follower rejects it. After at most as many rounds as the next index the follower accepts, and from
then on it has the log of the leader (`rounds_repair`).
-/

namespace Miniraft

open Consensus

variable {NodeID Cmd : Type} [DecidableEq NodeID]

namespace State

variable {s s' : State NodeID Cmd} {next : Map NodeID LogIndex}
  {mtch : Map NodeID (Option LogIndex)} {lr : Option Instant} {clk : Clock} {nx : LogIndex}

/-- The request that `replicate_log` builds for a peer with this next index. -/
def request (c : Common NodeID Cmd) (nx : LogIndex) : RaftMessage Cmd :=
  .appendEntries c.currentTerm c.commitIndex nx.dec
    (nx.dec.bind fun idx => (c.log.get idx).map (·.term)) ⟨c.log.inner.drop nx.natPred⟩

theorem reduceOption_map_some {α : Type} (l : List α) : (l.map some).reduceOption = l := by
  simp [List.reduceOption, List.filterMap_map]

/-- If a heartbeat is due, `replicate_log` sends every peer its request. -/
theorem replicateLog_due (hr : s.r = .leader next mtch lr)
    (hdue : heartbeatNeeded clk lr = some true) (hnext : ∀ p ∈ s.c.nodeIds, p ∈ next)
    (hpeers : s.c.nodeIds ≠ []) :
    s.replicateLog clk = .ok ({ s with r := .leader next mtch (some clk.later) },
      s.c.nodeIds.map fun p => (p, request s.c ((next.lookup p).getD 1))) := by
  have hmsgs : s.c.nodeIds.mapM (replicateTo s.c next true) =
      .ok ((s.c.nodeIds.map fun p => (p, request s.c ((next.lookup p).getD 1))).map some) := by
    rw [List.map_map]
    refine Except.mapM_eq_ok_map fun p hp => ?_
    obtain ⟨nx, hnx⟩ := Option.isSome_iff_exists.mp (AList.lookup_isSome.mpr (hnext p hp))
    simp only [replicateTo, hnx, Log.getFrom_getD, Bool.not_true, Bool.and_false,
      Bool.false_eq_true, if_false, Function.comp_apply, Option.getD_some]
    rfl
  unfold replicateLog
  simp only [hr, hdue]
  refine Except.bind_eq_ok_iff.mpr ⟨_, hmsgs, ?_⟩
  rw [reduceOption_map_some, if_neg (by simpa using hpeers)]
  rfl

/-! ## The two sides -/

/-- A leader with the next index `nx` for a peer. -/
structure Leads (l : State NodeID Cmd) (peer : NodeID) (nx : LogIndex) : Prop where
  role : ∃ next mtch lr, l.r = .leader next mtch lr ∧ next.lookup peer = some nx ∧
    ∀ p ∈ l.c.nodeIds, p ∈ next
  peer : peer ∈ l.c.nodeIds
  applied : upTo l.c.lastApplied ≤ upTo l.c.commitIndex
  committed : upTo l.c.commitIndex ≤ l.c.log.inner.length
  memory : l.c.log.InMemory

/-- A follower in the term of a leader. -/
structure Heeds (f l : State NodeID Cmd) : Prop where
  role : ∃ leader votedFor, f.r = .follower leader votedFor
  term : f.c.currentTerm = l.c.currentTerm
  other : f.c.id ≠ l.c.id
  applied : upTo f.c.lastApplied ≤ upTo f.c.commitIndex

variable {l l' f f' : State NodeID Cmd} {peer : NodeID} {ci : Option LogIndex}

/-- What a leader keeps in a round. -/
structure Kept (l l' : State NodeID Cmd) : Prop where
  log : l'.c.log = l.c.log
  term : l'.c.currentTerm = l.c.currentTerm
  id : l'.c.id = l.c.id

omit [DecidableEq NodeID] in
theorem Heeds.of_kept (h : f.Heeds l) (hl : Kept l l') : f.Heeds l' :=
  ⟨h.role, h.term.trans hl.term.symm, hl.id ▸ h.other, h.applied⟩

/-- The leader sends its request to the peer. -/
theorem Leads.send (hl : l.Leads peer nx)
    (hdue : ∀ next mtch lr, l.r = .leader next mtch lr → heartbeatNeeded clk lr = some true) :
    ∃ l' msgs, l.replicateLog clk = .ok (l', msgs) ∧ l'.Leads peer nx ∧ Kept l l' ∧
      msgs.lookup peer = some (request l.c nx) := by
  obtain ⟨next, mtch, lr, hr, hnx, hall⟩ := hl.role
  refine ⟨_, _, replicateLog_due hr (hdue next mtch lr hr) hall (List.ne_nil_of_mem hl.peer),
    ⟨⟨next, mtch, _, rfl, hnx, hall⟩, hl.peer, hl.applied, hl.committed, hl.memory⟩,
    ⟨rfl, rfl, rfl⟩, ?_⟩
  have hpeer := hl.peer
  generalize l.c.nodeIds = ps at hpeer
  induction ps with
  | nil => cases hpeer
  | cons p ps ih =>
    by_cases hp : peer = p
    · subst hp
      simp [hnx]
    · rw [List.map_cons, List.lookup_cons, beq_eq_false_iff_ne.mpr hp]
      exact ih ((List.mem_cons.mp hpeer).resolve_left hp)

/-- After a rejection the leader moves the next index back. -/
theorem Leads.rejected (hl : l.Leads peer nx) (clk : Clock) (index : Option LogIndex) :
    ∃ l' msgs, l.handleAppendEntriesResponse clk peer false index = .ok (l', msgs, []) ∧
      l'.Leads peer (nx.dec.getD 1) ∧ Kept l l' := by
  obtain ⟨next, mtch, lr, hr, hnx, hall⟩ := hl.role
  have hall' : ∀ p ∈ l.c.nodeIds, p ∈ next.insert peer (nx.dec.getD 1) := fun p hp =>
    AList.mem_insert _ |>.mpr (.inr (hall p hp))
  obtain ⟨⟨l', msgs⟩, h⟩ := (replicateLog_ok_iff clk
    (s := { l with r := .leader (next.insert peer (nx.dec.getD 1)) mtch lr }) rfl).mpr (.inr hall')
  obtain ⟨lr', rfl⟩ := replicateLog_frame rfl h
  have hok : l.handleAppendEntriesResponse clk peer false index =
      .ok ({ l with r := .leader (next.insert peer (nx.dec.getD 1)) mtch lr' }, msgs, []) := by
    rw [handleAppendEntriesResponse_failure hr hnx, h]
    rfl
  exact ⟨_, msgs, hok, ⟨⟨_, mtch, lr', rfl, AList.lookup_insert _, hall'⟩, hl.peer, hl.applied,
    hl.committed, hl.memory⟩, ⟨rfl, rfl, rfl⟩⟩

/-- After a success it knows where the peer's log ends, or leaves the next index as it was. -/
theorem Leads.accepted (hl : l.Leads peer nx) (clk : Clock) {index : Option LogIndex}
    (hindex : upTo index + 1 < 2 ^ 64) :
    ∃ l' apps nx', l.handleAppendEntriesResponse clk peer true index = .ok (l', [], apps) ∧
      l'.Leads peer nx' ∧ Kept l l' ∧ (nx' = nx ∨ nx'.natPred = upTo index) := by
  obtain ⟨next, mtch, lr, hr, hnx, hall⟩ := hl.role
  have hstay : l.handleAppendEntriesResponse clk peer true index = .ok (l, [], []) →
      ∃ l' apps nx', l.handleAppendEntriesResponse clk peer true index = .ok (l', [], apps) ∧
        l'.Leads peer nx' ∧ Kept l l' ∧ (nx' = nx ∨ nx'.natPred = upTo index) := fun h =>
    ⟨l, [], nx, h, hl, ⟨rfl, rfl, rfl⟩, .inl rfl⟩
  cases hm : mtch.lookup peer with
  | none => exact hstay (by simp [handleAppendEntriesResponse, hr, hnx, hm])
  | some m =>
    cases index with
    | none => exact hstay (by simp [handleAppendEntriesResponse, hr, hnx, hm])
    | some i =>
      have hall' : ∀ p ∈ l.c.nodeIds, p ∈ next.insert peer (i + 1) := fun p hp =>
        AList.mem_insert _ |>.mpr (.inr (hall p hp))
      have hvalues : Map.values (mtch.insert peer (some i)) ≠ [] :=
        Map.values_ne_nil (AList.lookup_insert mtch)
      obtain ⟨⟨l', apps⟩, h⟩ := exists_advanceCommitIndex
        (s := { l with r := .leader (next.insert peer (i + 1)) (mtch.insert peer (some i)) lr }) rfl
        (hl.memory.length_lt.trans (by decide)) hvalues hl.applied hl.committed
      obtain ⟨happlied, hcommitted⟩ := advanceCommitIndex_bounds rfl h hl.applied hl.committed
      have hok : l.handleAppendEntriesResponse clk peer true (some i) = .ok (l', [], apps) := by
        rw [handleAppendEntriesResponse_success hr hnx hm]
        simp only [Except.bind_eq_ok_iff, Except.pure_eq_ok_iff, Prod.mk.injEq, Prod.exists]
        exact ⟨i + 1, LogIndex.inc_of_lt hindex, l', apps, h, rfl, trivial, rfl⟩
      obtain ⟨commitIndex, lastApplied, rfl⟩ := advanceCommitIndex_frame rfl h
      refine ⟨_, apps, i + 1, hok, ?_, ⟨rfl, rfl, rfl⟩, .inr ?_⟩
      · exact ⟨⟨_, _, lr, rfl, AList.lookup_insert _, hall'⟩, hl.peer, happlied, hcommitted, hl.memory⟩
      · rw [PNat.natPred, PNat.add_coe, PNat.one_coe, upTo_some, Nat.add_sub_cancel]

omit [DecidableEq NodeID] in
theorem Heeds.following (hf : f.Heeds l) (clk : Clock) : (f.following clk l.c.id).Heeds l :=
  ⟨⟨_, _, rfl⟩, hf.term, hf.other, hf.applied⟩

/-- A follower without the previous entry rejects. -/
theorem Heeds.rejects (hf : f.Heeds l) (clk : Clock) (ci : Option LogIndex)
    {pi : Option LogIndex} {pt : Option Term} (es : Log Cmd)
    (hc : f.Inconsistent pi pt) :
    f.handleAppendEntries clk l.c.id l.c.currentTerm ci pi pt es = .ok (f.following clk l.c.id,
      .appendEntriesResponse f.c.currentTerm f.c.log.highestIndex false, ⟨[], []⟩) := by
  obtain ⟨leader, votedFor, hr⟩ := hf.role
  rw [← hf.term, handleAppendEntries_eq (by simp [isLeader, hr]), if_neg hf.other, if_pos hc]
  rfl

/-- A follower with the previous entry accepts. -/
theorem Heeds.accepts (hf : f.Heeds l) (clk : Clock) {pi : Option LogIndex} {pt : Option Term}
    {es : Log Cmd} (hc : ¬ f.Inconsistent pi pt) (hpi : upTo pi ≤ f.c.log.inner.length)
    (hlog : f.c.log.inner.length < 2 ^ 62)
    (hlen : (splice (·.term) f.c.log.inner (upTo pi) es.inner).length < 2 ^ 62)
    (hci : upTo ci ≤ (splice (·.term) f.c.log.inner (upTo pi) es.inner).length) :
    ∃ f' effects, f.handleAppendEntries clk l.c.id l.c.currentTerm ci pi pt es = .ok (f',
        .appendEntriesResponse f.c.currentTerm f'.c.log.highestIndex true, effects) ∧
      f'.Heeds l ∧ f'.c.id = f.c.id ∧
      f'.c.log.inner = splice (·.term) f.c.log.inner (upTo pi) es.inner := by
  obtain ⟨leader, votedFor, hr⟩ := hf.role
  rw [← hf.term, handleAppendEntries_of_le (by simp [isLeader, hr]) hf.other hc hlog hpi]
  rcases Nat.lt_or_ge (upTo f.c.commitIndex) (upTo ci) with hlt | hge
  · have hlast : upTo f.c.lastApplied ≤
        min (upTo ci) (f.spliced clk l.c.id pi es).c.log.inner.length :=
      le_min (hf.applied.trans hlt.le) ((hf.applied.trans hlt.le).trans hci)
    obtain ⟨apps, h⟩ := followCommitIndex_of_lt (s := f.spliced clk l.c.id pi es) hlt hlen hlast
    rw [h]
    exact ⟨_, _, rfl, ⟨⟨_, _, rfl⟩, hf.term, hf.other, le_rfl⟩, rfl, rfl⟩
  · rw [followCommitIndex_of_le (s := f.spliced clk l.c.id pi es) hge]
    exact ⟨_, _, rfl, ⟨⟨_, _, rfl⟩, hf.term, hf.other, hf.applied⟩, rfl, rfl⟩

end State

/-! ## Rounds -/

/-- The clocks of a round: when the leader sends, the follower receives, and the leader gets the
response. -/
structure Ticks where
  send : Clock
  receive : Clock
  respond : Clock

variable [Wire Cmd]

open State

/-- One round of a leader and a follower: the request that `replicate_log` builds for the follower,
its handling, and that of the response. The response handler's own retry is not delivered, the
next round sends the same request. Also says whether the follower has accepted. -/
def exchange (t : Ticks) (l f : State NodeID Cmd) :
    Except Panic (State NodeID Cmd × State NodeID Cmd × Bool) := do
  let (l, msgs) ← l.replicateLog t.send
  match (msgs.lookup f.c.id).map RaftMessage.wire with
  | some (.appendEntries term commitIndex prevLogIndex prevLogTerm entries) => do
    let (f, reply, _) ← f.handleAppendEntries t.receive l.c.id term commitIndex prevLogIndex
      prevLogTerm entries
    match reply with
    | .appendEntriesResponse _ index success => do
      let (l, _, _) ← l.handleAppendEntriesResponse t.respond f.c.id success index
      return (l, f, success)
    | _ => return (l, f, false)
  | _ => return (l, f, false)

/-- Rounds, and which of them the follower has accepted. -/
def rounds : List Ticks → (l f : State NodeID Cmd) →
    Except Panic (State NodeID Cmd × State NodeID Cmd × List Bool)
  | [], l, f => return (l, f, [])
  | t :: ts, l, f => do
    let (l, f, success) ← exchange t l f
    let (l, f, successes) ← rounds ts l f
    return (l, f, success :: successes)

/-- A heartbeat is due at the start of each round. -/
def AllDue : List Ticks → (l f : State NodeID Cmd) → Prop
  | [], _, _ => True
  | t :: ts, l, f =>
    (∀ next mtch lr, l.r = .leader next mtch lr → heartbeatNeeded t.send lr = some true) ∧
      ∀ l' f' success, exchange t l f = .ok (l', f', success) → AllDue ts l' f'

/-- Two logs match: entries of one term at one index have the same logs up to them. -/
def Matching (l f : Log Cmd) : Prop :=
  ∀ i a b, l.wire.inner[i]? = some a → f.wire.inner[i]? = some b → a.term = b.term →
    l.wire.inner.take (i + 1) = f.wire.inner.take (i + 1)

/-- The follower has rejected so far. -/
structure Searching (l f : State NodeID Cmd) (nx : LogIndex) : Prop where
  leads : l.Leads f.c.id nx
  follows : f.Heeds l
  bound : (nx : ℕ) ≤ l.c.log.inner.length + 1
  matching : Matching l.c.log f.c.log
  memory : f.c.log.InMemory

/-- The follower has accepted. -/
structure Synced (l f : State NodeID Cmd) (nx : LogIndex) : Prop where
  leads : l.Leads f.c.id nx
  follows : f.Heeds l
  bound : nx.natPred ≤ f.c.log.inner.length
  synced : l.c.log.wire.inner <+: f.c.log.wire.inner
  memory : f.c.log.inner.length < 2 ^ 61

/-! ## What a round does -/

variable {l l' f f' : State NodeID Cmd} {t : Ticks} {nx : LogIndex}

/-- The entries of the request that the follower gets. -/
def sent (l : State NodeID Cmd) (nx : LogIndex) : Log Cmd := ⟨l.c.log.wire.inner.drop nx.natPred⟩

/-- Its previous term. -/
def prevTerm (l : State NodeID Cmd) (nx : LogIndex) : Option Term :=
  nx.dec.bind fun idx => (l.c.log.get idx).map (·.term)

omit [DecidableEq NodeID] in
theorem wire_request (l : State NodeID Cmd) (nx : LogIndex) :
    (request l.c nx).wire =
      .appendEntries l.c.currentTerm l.c.commitIndex nx.dec (prevTerm l nx) (sent l nx) := by
  simp [request, RaftMessage.wire, Log.wire, sent, prevTerm, List.map_drop]

theorem exchange_eq_ok {l₁ : State NodeID Cmd} {msgs msgs' : Outgoing NodeID Cmd} {T : Term}
    {index : Option LogIndex} {success : Bool} {effects : Effects Cmd}
    {apps : List (LogIndex × LogEntry Cmd)} (hsend : l.replicateLog t.send = .ok (l₁, msgs))
    (hlookup : msgs.lookup f.c.id = some (request l.c nx))
    (hhandle : f.handleAppendEntries t.receive l₁.c.id l.c.currentTerm l.c.commitIndex nx.dec
      (prevTerm l nx) (sent l nx) = .ok (f', .appendEntriesResponse T index success, effects))
    (hrespond : l₁.handleAppendEntriesResponse t.respond f'.c.id success index =
      .ok (l', msgs', apps)) : exchange t l f = .ok (l', f', success) := by
  have hmsg : (msgs.lookup f.c.id).map RaftMessage.wire = some (.appendEntries l.c.currentTerm
      l.c.commitIndex nx.dec (prevTerm l nx) (sent l nx)) := by
    rw [hlookup, Option.map_some, wire_request]
  refine Except.bind_eq_ok_iff.mpr ⟨_, hsend, ?_⟩
  simp only [hmsg]
  refine Except.bind_eq_ok_iff.mpr ⟨_, hhandle, ?_⟩
  exact Except.bind_eq_ok_iff.mpr ⟨_, hrespond, rfl⟩

/-- A round in which the follower rejects. -/
theorem exchange_rejected (hl : l.Leads f.c.id nx) (hf : f.Heeds l)
    (hdue : ∀ next mtch lr, l.r = .leader next mtch lr → heartbeatNeeded t.send lr = some true)
    (hc : f.Inconsistent nx.dec (prevTerm l nx)) :
    ∃ l' f', exchange t l f = .ok (l', f', false) ∧ l'.Leads f'.c.id (nx.dec.getD 1) ∧
      f'.Heeds l' ∧ Kept l l' ∧ f'.c.log = f.c.log := by
  obtain ⟨l₁, msgs, hsend, hl₁, hkept₁, hlookup⟩ := hl.send hdue
  obtain ⟨l', msgs', hrespond, hl', hkept'⟩ := hl₁.rejected t.respond f.c.log.highestIndex
  have hhandle := hf.rejects t.receive l.c.commitIndex (sent l nx) hc
  rw [← hkept₁.id] at hhandle
  have hkept : Kept l l' := ⟨hkept'.log.trans hkept₁.log, hkept'.term.trans hkept₁.term,
    hkept'.id.trans hkept₁.id⟩
  refine ⟨l', _, exchange_eq_ok hsend hlookup hhandle hrespond, hl', ?_, hkept, rfl⟩
  rw [hkept₁.id]
  exact (hf.following t.receive).of_kept hkept

/-- A round in which the follower accepts. -/
theorem exchange_accepted (hl : l.Leads f.c.id nx) (hf : f.Heeds l)
    (hdue : ∀ next mtch lr, l.r = .leader next mtch lr → heartbeatNeeded t.send lr = some true)
    (hc : ¬ f.Inconsistent nx.dec (prevTerm l nx)) (hpi : nx.natPred ≤ f.c.log.inner.length)
    (hlog : f.c.log.inner.length < 2 ^ 62)
    (hlen : (splice (·.term) f.c.log.inner nx.natPred (sent l nx).inner).length < 2 ^ 61)
    (hci : l.c.log.inner.length ≤
      (splice (·.term) f.c.log.inner nx.natPred (sent l nx).inner).length) :
    ∃ l' f' nx', exchange t l f = .ok (l', f', true) ∧ l'.Leads f'.c.id nx' ∧ f'.Heeds l' ∧
      Kept l l' ∧ f'.c.log.inner = splice (·.term) f.c.log.inner nx.natPred (sent l nx).inner ∧
      (nx' = nx ∨ nx'.natPred = f'.c.log.inner.length) := by
  obtain ⟨l₁, msgs, hsend, hl₁, hkept₁, hlookup⟩ := hl.send hdue
  rw [← upTo_dec] at hpi hlen hci ⊢
  obtain ⟨f', effects, hhandle, hf', hid, hsplice⟩ := hf.accepts t.receive hc hpi hlog
    (hlen.trans (by decide)) (hl.committed.trans hci)
  rw [← hkept₁.id] at hhandle
  have hindex : upTo f'.c.log.highestIndex + 1 < 2 ^ 64 := by
    rw [Log.upTo_highestIndex, hsplice]
    omega
  obtain ⟨l', apps, nx', hrespond, hl', hkept', hnx'⟩ := hl₁.accepted t.respond hindex
  have hkept : Kept l l' := ⟨hkept'.log.trans hkept₁.log, hkept'.term.trans hkept₁.term,
    hkept'.id.trans hkept₁.id⟩
  rw [← hid] at hrespond hl'
  rw [Log.upTo_highestIndex] at hnx'
  exact ⟨l', f', nx', exchange_eq_ok hsend hlookup hhandle hrespond, hl', hf'.of_kept hkept, hkept,
    hsplice, hnx'⟩

omit [DecidableEq NodeID] in
/-- The splice as it is on the wire. -/
theorem map_wire_splice (l f : State NodeID Cmd) (nx : LogIndex) :
    (splice (·.term) f.c.log.inner nx.natPred (sent l nx).inner).map LogEntry.wire =
      splice (·.term) f.c.log.wire.inner nx.natPred (l.c.log.wire.inner.drop nx.natPred) := by
  have hsent : (sent l nx).inner.map LogEntry.wire = (sent l nx).inner := by
    have hwire : (LogEntry.wire ∘ LogEntry.wire : LogEntry Cmd → LogEntry Cmd) = LogEntry.wire :=
      funext LogEntry.wire_wire
    rw [sent, Log.wire, List.map_drop, List.map_map, hwire]
  refine (splice_map LogEntry.term LogEntry.wire).symm.trans ?_
  rw [hsent]
  rfl

omit [DecidableEq NodeID] in
/-- If the check passes, the follower has what comes before the request. -/
theorem take_eq_of_consistent (hm : Matching l.c.log f.c.log)
    (hbound : nx.natPred ≤ l.c.log.inner.length)
    (hc : ¬ f.Inconsistent nx.dec (prevTerm l nx)) :
    nx.natPred ≤ f.c.log.inner.length ∧
      f.c.log.wire.inner.take nx.natPred = l.c.log.wire.inner.take nx.natPred := by
  have hprev := not_ne_iff.mp hc
  rw [← upTo_dec] at hbound ⊢
  cases hdec : nx.dec with
  | none => simp
  | some idx =>
    rw [hdec, upTo_some] at hbound
    have hpred := idx.natPred_add_one
    have hl : l.c.log.get idx = some l.c.log.inner[idx.natPred] :=
      List.getElem?_eq_getElem (by omega)
    simp only [prevTerm, hdec, Option.bind_some, hl, Option.map_some, Option.map_eq_some_iff] at hprev
    obtain ⟨e, hf, hterm⟩ := hprev
    have hlt := (List.getElem?_eq_some_iff.mp hf).1
    have hl' : l.c.log.wire.inner[idx.natPred]? = some l.c.log.inner[idx.natPred].wire :=
      (Log.get_wire l.c.log idx).trans (congrArg (Option.map LogEntry.wire) hl)
    have hf' : f.c.log.wire.inner[idx.natPred]? = some e.wire :=
      (Log.get_wire f.c.log idx).trans (congrArg (Option.map LogEntry.wire) hf)
    have htake := hm _ _ _ hl' hf' hterm.symm
    rw [hpred] at htake
    exact ⟨by rw [upTo_some]; omega, htake.symm⟩

/-- A follower that accepts has taken over the log of the leader. -/
theorem synced_of_consistent (hl : l.Leads f.c.id nx) (hf : f.Heeds l)
    (hdue : ∀ next mtch lr, l.r = .leader next mtch lr → heartbeatNeeded t.send lr = some true)
    (hm : Matching l.c.log f.c.log) (hbound : nx.natPred ≤ l.c.log.inner.length)
    (hc : ¬ f.Inconsistent nx.dec (prevTerm l nx))
    (hlog : (takeOver f.c.log.wire.inner l.c.log.wire.inner).length < 2 ^ 61)
    (hlog' : f.c.log.inner.length < 2 ^ 62) :
    ∃ l' f' nx', exchange t l f = .ok (l', f', true) ∧ Kept l l' ∧ Synced l' f' nx' := by
  obtain ⟨hpi, htake⟩ := take_eq_of_consistent hm hbound hc
  have hsplice : (splice (·.term) f.c.log.inner nx.natPred (sent l nx).inner).map LogEntry.wire =
      takeOver f.c.log.wire.inner l.c.log.wire.inner := by
    rw [map_wire_splice, splice_eq_takeOver htake (by simpa using hpi)]
    intro j a b ha hb hterm
    exact (hm j b a hb ha hterm.symm).symm
  have hover := le_takeOver f.c.log.wire.inner l.c.log.wire.inner
  rw [← hsplice] at hlog hover
  have hlen := hover.length_le
  rw [List.length_map] at hlog hlen
  rw [Log.length_wire] at hlen
  obtain ⟨l', f', nx', h, hl', hf', hkept, hlog₁, hnx'⟩ :=
    exchange_accepted hl hf hdue hc hpi hlog' hlog hlen
  refine ⟨l', f', nx', h, hkept, hl', hf', ?_, ?_, by rwa [hlog₁]⟩
  · rw [hlog₁] at hnx' ⊢
    rcases hnx' with rfl | hnx'
    · exact hbound.trans hlen
    · exact hnx'.le
  · have hwire : f'.c.log.wire.inner = _ := congrArg (List.map LogEntry.wire) hlog₁
    rw [hkept.log, hwire]
    exact hover

theorem Searching.step (h : Searching l f nx)
    (hdue : ∀ next mtch lr, l.r = .leader next mtch lr → heartbeatNeeded t.send lr = some true) :
    ∃ l' f' success nx', exchange t l f = .ok (l', f', success) ∧ Kept l l' ∧
      if success then Synced l' f' nx' else (nx' : ℕ) + 1 = nx ∧ Searching l' f' nx' := by
  have hpred := nx.natPred_add_one
  have hbound := h.bound
  by_cases hc : f.Inconsistent nx.dec (prevTerm l nx)
  · obtain ⟨l', f', hex, hl', hf', hkept, hlog⟩ := exchange_rejected h.leads h.follows hdue hc
    cases hdec : nx.dec with
    | none => simp [Inconsistent, prevTerm, hdec] at hc
    | some idx =>
      have hidx := upTo_dec nx
      rw [hdec, upTo_some] at hidx
      rw [hdec, Option.getD_some] at hl'
      refine ⟨l', f', false, idx, hex, hkept, by omega, hl', hf', ?_, ?_, hlog ▸ h.memory⟩
      · rw [hkept.log]
        omega
      · rw [hkept.log, hlog]
        exact h.matching
  · have hlen := h.memory.length_lt
    have hlen' := h.leads.memory.length_lt
    have hover : (takeOver f.c.log.wire.inner l.c.log.wire.inner).length < 2 ^ 61 := by
      rcases takeOver_cases f.c.log.wire.inner l.c.log.wire.inner with he | he
      · rw [he, Log.length_wire]
        omega
      · rw [he, Log.length_wire]
        omega
    obtain ⟨l', f', nx', hex, hkept, hsynced⟩ := synced_of_consistent h.leads h.follows hdue
      h.matching (by omega) hc hover (by omega)
    exact ⟨l', f', true, nx', hex, hkept, hsynced⟩

omit [DecidableEq NodeID] [Wire Cmd] in
/-- Behind the leader's log the follower has an entry and the leader has none. -/
theorem inconsistent_of_lt (hlt : l.c.log.inner.length < nx.natPred)
    (hf : nx.natPred ≤ f.c.log.inner.length) : f.Inconsistent nx.dec (prevTerm l nx) := by
  intro he
  rw [← upTo_dec] at hlt hf
  cases hdec : nx.dec with
  | none =>
    rw [hdec] at hlt
    exact absurd hlt (Nat.not_lt_zero _)
  | some idx =>
    rw [hdec, upTo_some] at hlt hf
    have hpred := idx.natPred_add_one
    have hl : l.c.log.get idx = none := List.getElem?_eq_none (by omega)
    have hf' : f.c.log.get idx = some f.c.log.inner[idx.natPred] :=
      List.getElem?_eq_getElem (by omega)
    simp [prevTerm, hdec, hl, hf'] at he

omit [DecidableEq NodeID] in
theorem Matching.of_synced {l f : Log Cmd} (h : l.wire.inner <+: f.wire.inner) : Matching l f := by
  intro i a b ha _ _
  exact (h.take_eq (List.getElem?_eq_some_iff.mp ha).1).symm

theorem Synced.step (h : Synced l f nx)
    (hdue : ∀ next mtch lr, l.r = .leader next mtch lr → heartbeatNeeded t.send lr = some true) :
    ∃ l' f' success nx', exchange t l f = .ok (l', f', success) ∧ Kept l l' ∧ Synced l' f' nx' := by
  by_cases hc : f.Inconsistent nx.dec (prevTerm l nx)
  · obtain ⟨l', f', hex, hl', hf', hkept, hlog⟩ := exchange_rejected h.leads h.follows hdue hc
    refine ⟨l', f', false, _, hex, hkept, hl', hf', ?_, ?_, hlog ▸ h.memory⟩
    · rw [hlog]
      exact nx.natPred_dec_getD_le.trans h.bound
    · rw [hkept.log, hlog]
      exact h.synced
  · have hbound : nx.natPred ≤ l.c.log.inner.length := by
      by_contra hlt
      exact hc (inconsistent_of_lt (not_le.mp hlt) h.bound)
    have hover : (takeOver f.c.log.wire.inner l.c.log.wire.inner).length < 2 ^ 61 := by
      rw [takeOver_of_le h.synced, Log.length_wire]
      exact h.memory
    obtain ⟨l', f', nx', hex, hkept, hsynced⟩ := synced_of_consistent h.leads h.follows hdue
      (Matching.of_synced h.synced) hbound hc hover (h.memory.trans (by decide))
    exact ⟨l', f', true, nx', hex, hkept, hsynced⟩

/-! ## Runs of rounds -/

theorem rounds_cons {ts : List Ticks} {l'' f'' : State NodeID Cmd} {success : Bool}
    {successes : List Bool} (h : exchange t l f = .ok (l', f', success))
    (hs : rounds ts l' f' = .ok (l'', f'', successes)) :
    rounds (t :: ts) l f = .ok (l'', f'', success :: successes) :=
  Except.bind_eq_ok_iff.mpr ⟨_, h, Except.bind_eq_ok_iff.mpr ⟨_, hs, rfl⟩⟩

/-- Once synced, the follower stays so. -/
theorem rounds_synced (ts : List Ticks) (h : Synced l f nx) (hdue : AllDue ts l f) :
    ∃ l' f' successes, rounds ts l f = .ok (l', f', successes) ∧
      successes.length = ts.length ∧ l.c.log.wire.inner <+: f'.c.log.wire.inner := by
  induction ts generalizing l f nx with
  | nil => exact ⟨l, f, [], rfl, rfl, h.synced⟩
  | cons t ts ih =>
    obtain ⟨l₁, f₁, success, nx₁, hex, hkept, h₁⟩ := h.step hdue.1
    obtain ⟨l', f', successes, hs, hlen, hsynced⟩ := ih h₁ (hdue.2 l₁ f₁ success hex)
    rw [hkept.log] at hsynced
    exact ⟨l', f', _, rounds_cons hex hs, congrArg (· + 1) hlen, hsynced⟩

theorem rounds_searching (ts : List Ticks) (h : Searching l f nx) (hdue : AllDue ts l f) :
    ∃ l' f' successes, rounds ts l f = .ok (l', f', successes) ∧ successes.length = ts.length ∧
      ((nx : ℕ) ≤ ts.length → true ∈ successes.take nx) ∧
      (true ∈ successes → l.c.log.wire.inner <+: f'.c.log.wire.inner) := by
  induction ts generalizing l f nx with
  | nil => exact ⟨l, f, [], rfl, rfl, fun hle => absurd hle (by simp), by simp⟩
  | cons t ts ih =>
    obtain ⟨l₁, f₁, success, nx₁, hex, hkept, h₁⟩ := h.step hdue.1
    have hdue₁ := hdue.2 l₁ f₁ success hex
    have hpred := nx.natPred_add_one
    cases success with
    | true =>
      obtain ⟨l', f', successes, hs, hlen, hsynced⟩ := rounds_synced ts h₁ hdue₁
      rw [hkept.log] at hsynced
      refine ⟨l', f', _, rounds_cons hex hs, congrArg (· + 1) hlen, fun _ => ?_, fun _ => hsynced⟩
      rw [← hpred, List.take_succ_cons]
      exact List.mem_cons_self
    | false =>
      obtain ⟨hnx₁, h₁⟩ := h₁
      obtain ⟨l', f', successes, hs, hlen, htrue, hsynced⟩ := ih h₁ hdue₁
      rw [hkept.log] at hsynced
      refine ⟨l', f', _, rounds_cons hex hs, congrArg (· + 1) hlen, fun hle => ?_, fun hmem => ?_⟩
      · rw [← hnx₁, List.take_succ_cons]
        rw [List.length_cons] at hle
        exact List.mem_cons_of_mem _ (htrue (by omega))
      · exact hsynced ((List.mem_cons.mp hmem).resolve_left (by simp))

/-- Log repair. Of the rounds of a leader and a follower whose logs match, one of the first as many
as the next index succeeds, and after a round that has succeeded the follower's log begins with the
leader's. -/
theorem rounds_repair (ts : List Ticks) (l f : State NodeID Cmd) (m : LogIndex)
    (h : Searching l f m) (hdue : AllDue ts l f) :
    ∃ l' f' successes, rounds ts l f = .ok (l', f', successes) ∧ successes.length = ts.length ∧
      ((m : ℕ) ≤ ts.length → true ∈ successes.take m) ∧
      (true ∈ successes →
        f'.c.log.wire.inner.take l.c.log.inner.length = l.c.log.wire.inner) := by
  obtain ⟨l', f', successes, hs, hlen, htrue, hsynced⟩ := rounds_searching ts h hdue
  refine ⟨l', f', successes, hs, hlen, htrue, fun hmem => ?_⟩
  rw [← Log.length_wire]
  exact (List.prefix_iff_eq_take.mp (hsynced hmem)).symm

namespace Example

/-- The leader "a" in term 2, which takes its log to be matched by "b". -/
def hopeful : State String ℕ :=
  { State.new "a" ["b"] ⟨2, some "a", ⟨[⟨20, 2⟩]⟩⟩ with
    r := .leader (.ofKeys ["b"] 2) (.ofKeys ["b"] none) none }

/-- A follower with another entry of an earlier term. -/
def diverged : State String ℕ := State.new "b" ["a"] ⟨2, some "a", ⟨[⟨21, 1⟩, ⟨31, 1⟩]⟩⟩

def lastReplication (s : State String ℕ) : Option Instant :=
  match s.r with
  | .leader _ _ lr => lr
  | _ => none

def ticks (n : ℕ) : Ticks := ⟨⟨n, n, 0, le_rfl⟩, ⟨n, n, 0, le_rfl⟩, ⟨n, n, 0, le_rfl⟩⟩

theorem searching_hopeful : Searching hopeful diverged 2 where
  leads := {
    role := ⟨_, _, _, rfl, by decide, by decide⟩
    peer := by decide
    applied := by decide
    committed := by decide
    memory := by decide }
  follows := ⟨⟨_, _, rfl⟩, rfl, by decide, le_rfl⟩
  bound := by decide
  matching := by
    intro i a b ha hb hterm
    cases i with
    | zero =>
      cases ha
      cases hb
      cases hterm
    | succ i => cases ha
  memory := by decide

theorem repair_second : ∃ l' f' successes,
    rounds [ticks 0, ticks 100000000] hopeful diverged = .ok (l', f', successes) ∧
      f'.c.log.wire.inner.take 1 = [⟨20, 2⟩] := by
  -- The retry comes too early, so the leader has last replicated at the start of the round.
  have hlast : (exchange (ticks 0) hopeful diverged).map (lastReplication ·.1) = .ok (some 0) := by
    decide +kernel
  have hdue : AllDue [ticks 0, ticks 100000000] hopeful diverged := by
    refine ⟨fun next mtch lr hr => ?_, fun l' f' success h => ⟨fun next mtch lr hr => ?_, ?_⟩⟩
    · cases hr
      rfl
    · rw [h] at hlast
      have hlr : lastReplication l' = some 0 := Except.ok.inj hlast
      rw [lastReplication, hr] at hlr
      obtain rfl : lr = some 0 := hlr
      decide
    · exact fun _ _ _ _ => trivial
  obtain ⟨l', f', successes, h, hlen, htrue, hsynced⟩ := rounds_repair
    [ticks 0, ticks 100000000] hopeful diverged 2 searching_hopeful hdue
  exact ⟨l', f', successes, h, hsynced (List.mem_of_mem_take (htrue le_rfl))⟩

end Example

end Miniraft

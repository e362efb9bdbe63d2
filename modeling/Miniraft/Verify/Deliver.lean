import Miniraft.Verify.Repair
import Miniraft.Verify.Store
import Miniraft.Verify.Vote

/-!
# Runs that are built

What nodes can be made to do, and when: a message that was sent is delivered and handled, persisted
and answered (`Timed.run_processes`), a node that does not lead stands for election once its deadline
has passed (`Node.Resting.stand`), one that is asked for its vote moves to the term of the candidate,
and gives it if its vote is not taken (`Node.Resting.asked`). All steps are orderly, so the guarantees
for orderly runs hold along the way, and time does not go back.
-/

namespace Miniraft

variable {NodeID Cmd : Type} [DecidableEq NodeID] [Wire Cmd]

/-- 100 ms: an election deadline is extended by this, and by up to as much again. -/
def electionTimeout : ℕ := 100000000

/-- What a critical section reads that takes no time. -/
def Clock.still (t : Instant) : Clock := ⟨t, t, electionTimeout, le_rfl⟩

/-- The clock that an action reads. -/
def Action.clock : Action NodeID Cmd → Option Clock
  | .election clk | .replicate clk | .handle clk | .clientReplicate clk => some clk
  | _ => none

/-- A cluster and the time. -/
structure Timed (NodeID Cmd : Type) extends Cluster NodeID Cmd where
  /-- The last reading of a clock. -/
  now : Instant

namespace Timed

variable {cfg : Config NodeID} {c c' : Timed NodeID Cmd} {i j : NodeID} {n n' : Node NodeID Cmd}
  {msgs : Outgoing NodeID Cmd} {t : Instant}

/-- The cluster after node `i` has become `n` and has sent `msgs`, at time `t`. -/
def after (c : Timed NodeID Cmd) (i : NodeID) (n : Node NodeID Cmd) (msgs : Outgoing NodeID Cmd)
    (t : Instant) : Timed NodeID Cmd := ⟨c.update i n msgs, t⟩

@[simp] theorem nodes_after : (c.after i n msgs t).nodes i = n := Cluster.update_self ..

theorem nodes_after_of_ne (h : j ≠ i) : (c.after i n msgs t).nodes j = c.nodes j :=
  Cluster.update_of_ne h ..

theorem mem_after {e : Envelope NodeID Cmd} : e ∈ (c.after i n msgs t).network ↔
    e ∈ c.network ∨ ∃ x ∈ msgs, e = ⟨i, x.1, x.2.wire⟩ := Cluster.mem_update

theorem after_after {msgs' : Outgoing NodeID Cmd} {t' : Instant} :
    (c.after i n msgs t).after i n' msgs' t' = c.after i n' (msgs ++ msgs') t' := by
  unfold after Cluster.update
  congr 2
  · funext j
    by_cases hj : j = i <;> simp [hj]
  · simp

variable [DecidableEq Cmd]

/-- A step of the cluster at a time that is not before the last one. -/
def step (cfg : Config NodeID) (c : Timed NodeID Cmd) (l : Label NodeID Cmd) :
    Except Halt (Timed NodeID Cmd) :=
  match l.2.clock with
  | none => do return ⟨← c.toCluster.step cfg l, c.now⟩
  | some clk =>
    if c.now ≤ clk.now ∧ electionTimeout ≤ clk.extension ∧ clk.extension < 2 * electionTimeout then do
      return ⟨← c.toCluster.step cfg l, clk.later⟩
    else throw .notEnabled

def Orderly (c : Timed NodeID Cmd) (l : Label NodeID Cmd) : Prop := c.toCluster.Orderly l

/-- Runs in time are runs. -/
theorem run_untimed (hrun : Run (step cfg) Orderly c c') :
    Run (Cluster.step cfg) Cluster.Orderly c.toCluster c'.toCluster := by
  induction hrun with
  | refl => exact .refl
  | tail _ hs ih =>
    obtain ⟨l, hl, hs⟩ := hs
    refine ih.tail ⟨l, hl, ?_⟩
    unfold step at hs
    split at hs
    · simp only [Except.bind_eq_ok_iff, Except.pure_eq_ok_iff] at hs
      obtain ⟨c'', hs, rfl⟩ := hs
      exact hs
    · split at hs
      · simp only [Except.bind_eq_ok_iff, Except.pure_eq_ok_iff] at hs
        obtain ⟨c'', hs, rfl⟩ := hs
        exact hs
      · cases hs

theorem network_run (hrun : Run (step cfg) Orderly c c') (hwf : c.WellFormed cfg) :
    c'.WellFormed cfg ∧ c.network ⊆ c'.network :=
  Cluster.network_run (run_untimed hrun) hwf

end Timed

namespace State

variable {s : State NodeID Cmd} {T : Term}

omit [DecidableEq NodeID] [Wire Cmd] in
theorem maybeStepDown_of_le (h : T ≤ s.c.currentTerm) : s.maybeStepDown T = .ok s :=
  if_neg (not_lt.mpr h)

omit [DecidableEq NodeID] [Wire Cmd] in
theorem maybeStepDown_of_lt (h : s.c.currentTerm < T) : s.maybeStepDown T =
    .ok (becomeFollower none { s with c := { s.c with currentTerm := T } }) := by
  unfold maybeStepDown Term.set
  rw [if_pos h, if_pos h]
  rfl

omit [Wire Cmd] in
/-- A candidate that becomes leader takes it that its peers have its log, and knows nothing. -/
theorem becomeLeader_fresh {votes : Finset NodeID} (clk : Clock) (hr : s.r = .candidate votes)
    (hpeer : s.c.id ∉ s.c.nodeIds) (hpeers : s.c.nodeIds ≠ [])
    (hlog : s.c.log.inner.length + 1 < 2 ^ 64) :
    ∃ nx : LogIndex, ∃ lr msgs, nx.natPred = s.c.log.inner.length ∧ s.becomeLeader clk =
      .ok ({ s with r := .leader (.ofKeys s.c.nodeIds nx) (.ofKeys s.c.nodeIds none) lr }, msgs) := by
  rw [← Log.upTo_highestIndex] at hlog
  let nx := Nat.succPNat (upTo s.c.log.highestIndex)
  let s₁ : State NodeID Cmd :=
    { s with r := .leader (.ofKeys s.c.nodeIds nx) (.ofKeys s.c.nodeIds none) none }
  obtain ⟨lr, msgs, hlead⟩ : ∃ lr msgs, s₁.replicateLog clk = .ok ({ s₁ with
      r := .leader (.ofKeys s.c.nodeIds nx) (.ofKeys s.c.nodeIds none) lr }, msgs) :=
    ⟨_, _, replicateLog_due rfl rfl (fun q hq => (Map.mem_ofKeys ..).mpr hq) hpeers⟩
  refine ⟨nx, lr, msgs, by simp [nx], ?_⟩
  unfold becomeLeader
  simp only [hr]
  rw [if_neg hpeer, LogIndex.incOrDefault_of_lt hlog]
  exact hlead

omit [Wire Cmd] in
/-- Only a candidate that has not voted for itself cannot be persisted. -/
theorem exists_persistent (h : ∀ votes, s.r = .candidate votes → s.c.id ∈ votes) :
    ∃ q, s.persistent = .ok q := by
  unfold persistent
  split
  · exact ⟨_, rfl⟩
  · next votes hr => exact ⟨_, if_neg (not_not.mpr (h votes hr))⟩
  · exact ⟨_, rfl⟩

end State

namespace Node

variable {n n' : Node NodeID Cmd} {p : NodeID} {m : RaftMessage Cmd} {rs : Outgoing NodeID Cmd}

/-- At time `t` the Raft-message loop of `n` can take message `m` of `p` and persist what comes of it:
the node is then `n'` and sends `rs`. -/
def Processes (t : Instant) (n : Node NodeID Cmd) (p : NodeID) (m : RaftMessage Cmd)
    (n' : Node NodeID Cmd) (rs : Outgoing NodeID Cmd) : Prop :=
  n.raftLoop = .idle ∧ ∃ s₁ s₂ effects q, n.state.maybeStepDown m.term = .ok s₁ ∧
    s₁.handle (.still t) p m = .ok (s₂, rs, effects) ∧ s₂.persistent = .ok q ∧
    n' = { n with
      state := s₂
      stored := q.wire
      history := n.history.handled m rs effects }

end Node

namespace Cluster

variable {c : Cluster NodeID Cmd} {i p : NodeID} {a : Action NodeID Cmd} {m : RaftMessage Cmd}

omit [DecidableEq NodeID] [Wire Cmd] in
theorem ackBacked_handle {clk : Clock} (hloop : (c.nodes i).raftLoop = .stepped p m)
    (h : ∀ T idx, m = .appendEntriesResponse T (some idx) true →
      ∃ x ∈ (c.nodes p).history.accepted, x.1 = (c.nodes i).state.c.currentTerm ∧
        (idx : ℕ) ≤ x.2) : AckBacked c (i, .handle clk) := by
  unfold AckBacked
  simp only [hloop]
  split
  · next heq =>
    cases heq
    exact fun _ => h _ _ rfl
  · trivial

omit [DecidableEq NodeID] [Wire Cmd] in
/-- Nothing but the client loop appends. -/
theorem appendsAsLeader_of_not (h : a.isClientAppend = false) : AppendsAsLeader c (i, a) := by
  simp [AppendsAsLeader, h]

end Cluster

namespace Timed

open Cluster

variable {cfg : Config NodeID} {c c' : Timed NodeID Cmd} {i p : NodeID} {a : Action NodeID Cmd}
  {n n' : Node NodeID Cmd} {m : RaftMessage Cmd} {msgs rs : Outgoing NodeID Cmd} {t u : Instant}
  [DecidableEq Cmd]

/-- A step at time `t`, or now. -/
theorem run_step (hi : i ∈ cfg.ids) (hdel : c.Deliverable i a) (hP : c.toCluster.Orderly (i, a))
    (hclock : a.clock = some (.still t) ∧ c.now ≤ t ∨ a.clock = none ∧ t = c.now)
    (hs : (c.nodes i).step a = .ok (n, msgs)) :
    Run (step cfg) Orderly c (c.after i n msgs t) := by
  have hstep : c.toCluster.step cfg (i, a) = .ok (c.update i n msgs) := by
    simp only [Cluster.step]
    rw [if_pos ⟨hi, hdel⟩, hs]
    rfl
  refine .single ⟨(i, a), hP, ?_⟩
  rcases hclock with ⟨hclock, hle⟩ | ⟨hclock, rfl⟩
  · simp only [step, hclock]
    rw [if_pos ⟨hle, le_rfl, show electionTimeout < 2 * electionTimeout by decide⟩, hstep]
    rfl
  · simp only [step, hclock]
    rw [hstep]
    rfl

/-- A further step of the node that has made the last ones. -/
theorem run_step_after (hi : i ∈ cfg.ids) (hrun : Run (step cfg) Orderly c (c'.after i n [] t))
    (hdel : (c'.after i n [] t).Deliverable i a)
    (hP : (c'.after i n [] t).toCluster.Orderly (i, a))
    (hclock : a.clock = some (.still u) ∧ t ≤ u ∨ a.clock = none ∧ u = t)
    (hs : n.step a = .ok (n', msgs)) : Run (step cfg) Orderly c (c'.after i n' msgs u) := by
  have hlast := run_step hi hdel hP hclock (by rwa [nodes_after])
  rw [after_after, List.nil_append] at hlast
  exact hrun.trans hlast

/-- A node takes a message through its Raft-message loop. If it is a success, it has to be backed:
the leader is still in the term in which the sender has accepted what it reports. -/
theorem run_processes (hi : i ∈ cfg.ids) (hmem : ⟨p, i, m⟩ ∈ c.network)
    (h : (c.nodes i).Processes c.now p m n' rs)
    (hack : ∀ T idx, m = .appendEntriesResponse T (some idx) true →
      T = (c.nodes i).state.c.currentTerm ∧
        ∃ x ∈ (c.nodes p).history.accepted, x.1 = T ∧ (idx : ℕ) ≤ x.2) :
    Run (step cfg) Orderly c (c.after i n' rs c.now) := by
  obtain ⟨hidle, s₁, s₂, effects, q, hdown, hhandle, hpersist, rfl⟩ := h
  let n₁ : Node NodeID Cmd := { c.nodes i with state := s₁, raftLoop := .stepped p m }
  let n₂ : Node NodeID Cmd := { c.nodes i with
    state := s₂
    raftLoop := .handled rs
    history := (c.nodes i).history.handled m rs effects }
  let n₃ : Node NodeID Cmd := { n₂ with raftLoop := .snapshotted q rs }
  let n₄ : Node NodeID Cmd := { n₂ with raftLoop := .persisted rs, stored := q.wire }
  have hreceive : (c.nodes i).step (.receive p m) = .ok (n₁, []) := by
    simp only [Node.step, hidle, hdown]
    rfl
  have hhandle : n₁.step (.handle (.still c.now)) = .ok (n₂, []) := by
    simp only [Node.step, n₁, hhandle]
    rfl
  have hsnapshot : n₂.step .snapshot = .ok (n₃, []) := by
    simp only [Node.step, n₂, hpersist]
    rfl
  have hpersist : n₃.step (.persist true) = .ok (n₄, []) := rfl
  have hrespond : n₄.step .respond =
      .ok ({ n₂ with raftLoop := .idle, stored := q.wire }, rs) := rfl
  have hbacked : AckBacked (c.after i n₁ [] c.now).toCluster (i, .handle (.still c.now)) := by
    refine ackBacked_handle (p := p) (m := m) (by rw [nodes_after]) ?_
    rintro T idx rfl
    obtain ⟨rfl, x, hx, hxT, hle⟩ := hack T idx rfl
    have hstay : (c.nodes i).state = s₁ :=
      Except.ok.inj ((State.maybeStepDown_of_le le_rfl).symm.trans hdown)
    refine ⟨x, ?_, ?_, hle⟩
    · by_cases hp : p = i
      · subst hp
        rw [nodes_after]
        exact hx
      · rwa [nodes_after_of_ne hp]
    · rw [nodes_after]
      exact hxT.trans (congrArg (·.c.currentTerm) hstay)
  have h₁ := run_step hi (a := .receive p m) ⟨_, hmem, rfl, rfl, rfl⟩
    ⟨rfl, appendsAsLeader_of_not rfl, trivial⟩ (.inr ⟨rfl, rfl⟩) hreceive
  have h₂ := run_step_after hi h₁ (a := .handle (.still c.now)) trivial
    ⟨rfl, appendsAsLeader_of_not rfl, hbacked⟩ (.inl ⟨rfl, le_rfl⟩) hhandle
  have h₃ := run_step_after hi h₂ (a := .snapshot) trivial
    ⟨rfl, appendsAsLeader_of_not rfl, trivial⟩ (.inr ⟨rfl, rfl⟩) hsnapshot
  have h₄ := run_step_after hi h₃ (a := .persist true) trivial
    ⟨rfl, appendsAsLeader_of_not rfl, trivial⟩ (.inr ⟨rfl, rfl⟩) hpersist
  have h₅ := run_step_after hi h₄ (a := .respond) trivial
    ⟨rfl, appendsAsLeader_of_not rfl, trivial⟩ (.inr ⟨rfl, rfl⟩) hrespond
  have hend : ({ n₂ with raftLoop := .idle, stored := q.wire } : Node NodeID Cmd) =
      { c.nodes i with
        state := s₂
        stored := q.wire
        history := (c.nodes i).history.handled m rs effects } := by
    simp only [n₂, ← hidle]
  rwa [hend] at h₅

end Timed

/-! ## Elections -/

/-- What a node has: its log, and how far it is committed and applied. -/
structure Holdings (Cmd : Type) where
  log : Log Cmd
  commitIndex : Option LogIndex
  lastApplied : Option LogIndex

def State.holdings (s : State NodeID Cmd) : Holdings Cmd :=
  ⟨s.c.log, s.c.commitIndex, s.c.lastApplied⟩

/-- A node in term `T` with holdings `x`, between two messages and two requests. -/
structure Node.Resting (T : Term) (x : Holdings Cmd) (n : Node NodeID Cmd) : Prop where
  term : n.state.c.currentTerm = T
  holdings : n.state.holdings = x
  raftLoop : n.raftLoop = .idle
  clientLoop : n.clientLoop = .idle

/-- A candidate has been elected, and its peers have not reported anything. -/
def Node.Fresh (n : Node NodeID Cmd) : Prop :=
  ∃ nx : LogIndex, ∃ lr, nx.natPred = n.state.c.log.inner.length ∧
    n.state.r = .leader (.ofKeys n.state.c.nodeIds nx) (.ofKeys n.state.c.nodeIds none) lr

/-- The request for votes in term `T` of a candidate with this log. -/
def Log.voteRequest (l : Log Cmd) (T : Term) : RaftMessage Cmd :=
  .requestVote T l.highestIndex (l.last.map (·.term))

namespace Node.Resting

variable {n : Node NodeID Cmd} {T U : Term} {x : Holdings Cmd} {p : NodeID}

/-- A node that does not lead can start an election. -/
theorem stand (h : n.Resting T x) (hlead : n.state.isLeader = false) (hT : T + 1 < 2 ^ 64)
    (t : Instant) : ∃ u n', t ≤ u ∧ n.step (.election (.still u)) =
      .ok (n', n.state.c.nodeIds.map fun p => (p, x.log.voteRequest (T + 1))) ∧
      n'.Resting (T + 1) x ∧ n'.state.r = .candidate {n.state.c.id} := by
  obtain ⟨rfl, rfl, hraft, hclient⟩ := h
  have hstep : Term.step n.state.c.currentTerm = .ok (n.state.c.currentTerm + 1) := by
    unfold Term.step Term.set
    rw [Nat.mod_eq_of_lt hT, if_pos (Nat.lt_succ_self _)]
    rfl
  let u : Instant := max t (n.state.c.electionDeadline + 1)
  let clk := Clock.still u
  have hnow : n.state.c.electionDeadline < clk.now := Nat.lt_of_succ_le (le_max_right ..)
  have hlater : n.state.c.electionDeadline < clk.later := hnow
  let s' : State NodeID Cmd := {
    c := { n.state.c with currentTerm := n.state.c.currentTerm + 1 }.extendElectionDeadline clk
    r := .candidate {n.state.c.id} }
  have hbegin : n.state.maybeBeginElection clk = .ok (s', n.state.c.nodeIds.map fun p =>
      (p, n.state.c.log.voteRequest (n.state.c.currentTerm + 1))) := by
    unfold State.maybeBeginElection State.becomeCandidate
    rw [if_neg (not_not.mpr hnow), if_neg (not_not.mpr hlater), hstep]
    cases hr : n.state.r with
    | leader _ _ _ => simp [State.isLeader, hr] at hlead
    | follower _ _ | candidate _ => rfl
  let elections := if n.state.c.currentTerm < s'.c.currentTerm then
    s'.c.currentTerm :: n.history.elections else n.history.elections
  refine ⟨u, { n with state := s', history := { n.history with elections } }, le_max_left .., ?_,
    ⟨rfl, rfl, hraft, hclient⟩, rfl⟩
  rw [Node.step, hbegin]
  rfl

/-- A node that is asked for its vote in a later term moves there as a follower. If it was none
before it has no vote to keep, and gives it to a candidate that is up-to-date. -/
theorem asked (h : n.Resting U x) (hp : n.state.c.id ≠ p) (hlt : U < T) (li : Option LogIndex)
    (lt : Option Term) (t : Instant) :
    ∃ n' rs, n.Processes t p (.requestVote T li lt) n' rs ∧ n'.Resting T x ∧
      (∃ leader v, n'.state.r = .follower leader v) ∧
      ((∀ leader v, n.state.r ≠ .follower leader v) → State.AtLeast x.log li lt →
        rs = [(p, .requestVoteResponse T true)]) := by
  obtain ⟨rfl, rfl, hraft, hclient⟩ := h
  let s₁ := State.becomeFollower none { n.state with c := { n.state.c with currentTerm := T } }
  have hdown : n.state.maybeStepDown T = .ok s₁ := State.maybeStepDown_of_lt hlt
  have hc : s₁.c = { n.state.c with currentTerm := T } := by
    unfold s₁ State.becomeFollower
    split <;> rfl
  obtain ⟨leader, v, hr, hv⟩ : ∃ leader v, s₁.r = .follower leader v ∧
      ((∀ leader v, n.state.r ≠ .follower leader v) → v = none) := by
    unfold s₁ State.becomeFollower
    cases hr : n.state.r with
    | follower leader v => exact ⟨leader, v, hr, fun hne => absurd rfl (hne leader v)⟩
    | candidate _ | leader _ _ _ => exact ⟨none, none, rfl, fun _ => rfl⟩
  let granted := State.voteGranted s₁.c v p T li lt
  let s₂ : State NodeID Cmd :=
    if granted then
      { c := s₁.c.extendElectionDeadline (.still t), r := .follower leader (some p) }
    else s₁
  have hhandle : s₁.handle (.still t) p (.requestVote T li lt) =
      .ok (s₂, [(p, .requestVoteResponse T granted)], ⟨[], []⟩) := by
    have hid : s₁.c.id ≠ p := by
      rw [hc]
      exact hp
    have hterm : s₁.c.currentTerm = T := by rw [hc]
    simp only [State.handle, State.handleVoteRequest, if_neg hid, hr, hterm]
    rfl
  have hfollower : ∃ leader v, s₂.r = .follower leader v := by
    unfold s₂
    split
    · exact ⟨_, _, rfl⟩
    · exact ⟨_, _, hr⟩
  have hkept : s₂.c.currentTerm = T ∧ s₂.holdings = n.state.holdings := by
    unfold s₂ State.holdings
    split
    · simp only [Common.extendElectionDeadline, hc, and_self]
    · simp only [hc, and_self]
  obtain ⟨q, hq⟩ : ∃ q, s₂.persistent = .ok q := by
    obtain ⟨leader, v, hr⟩ := hfollower
    exact State.exists_persistent (by simp [hr])
  refine ⟨_, _, ⟨hraft, _, _, _, _, hdown, hhandle, hq, rfl⟩,
    ⟨hkept.1, hkept.2, hraft, hclient⟩, hfollower, fun hne hup => ?_⟩
  have hgrant : granted = true := by
    unfold granted State.voteGranted
    rw [hv hne, hc, if_neg (lt_irrefl T)]
    exact State.upToDate_of_atLeast hup
  rw [hgrant]

/-- A candidate counts a vote, and is elected when that makes a majority. -/
theorem counted (h : n.Resting T x) {votes : Finset NodeID} (hr : n.state.r = .candidate votes)
    (hself : n.state.c.id ∈ votes) (hpeer : n.state.c.id ∉ n.state.c.nodeIds)
    (hpeers : n.state.c.nodeIds ≠ []) (hlog : x.log.inner.length + 1 < 2 ^ 64) (t : Instant) :
    ∃ n' rs, n.Processes t p (.requestVoteResponse T true) n' rs ∧ n'.Resting T x ∧
      if n.state.wonElection (insert p votes).card then n'.Fresh
      else n'.state.r = .candidate (insert p votes) := by
  obtain ⟨rfl, rfl, hraft, hclient⟩ := h
  let s₁ : State NodeID Cmd := { n.state with r := .candidate (insert p votes) }
  have hcmp : compare n.state.c.currentTerm n.state.c.currentTerm = .eq :=
    compare_eq_iff_eq.mpr rfl
  have hcount : n.state.handleVoteResponse (.still t) p n.state.c.currentTerm true =
      if n.state.wonElection (insert p votes).card then s₁.becomeLeader (.still t)
      else return (s₁, []) := by
    unfold State.handleVoteResponse
    simp only [hr, not_not.mpr hself, hcmp, Bool.not_true, if_false, Bool.false_eq_true]
    rfl
  have hdown : n.state.maybeStepDown n.state.c.currentTerm = .ok n.state :=
    State.maybeStepDown_of_le le_rfl
  by_cases hwon : n.state.wonElection (insert p votes).card
  · obtain ⟨nx, lr, msgs, hnx, hlead⟩ := State.becomeLeader_fresh (s := s₁) (.still t) rfl hpeer
      hpeers hlog
    have hhandle : n.state.handle (.still t) p (.requestVoteResponse n.state.c.currentTerm true) =
        .ok ({ n.state with
          r := .leader (.ofKeys n.state.c.nodeIds nx) (.ofKeys n.state.c.nodeIds none) lr },
          msgs, ⟨[], []⟩) := by
      simp only [State.handle, hcount]
      rw [if_pos hwon, hlead]
      rfl
    obtain ⟨q, hq⟩ := State.exists_persistent (s := { n.state with
      r := .leader (.ofKeys n.state.c.nodeIds nx) (.ofKeys n.state.c.nodeIds none) lr })
      (fun votes hr => by cases hr)
    refine ⟨_, _, ⟨hraft, _, _, _, _, hdown, hhandle, hq, rfl⟩,
      ⟨rfl, rfl, hraft, hclient⟩, ?_⟩
    rw [if_pos hwon]
    exact ⟨nx, lr, hnx, rfl⟩
  · have hhandle : n.state.handle (.still t) p
        (.requestVoteResponse n.state.c.currentTerm true) = .ok (s₁, [], ⟨[], []⟩) := by
      simp only [State.handle, hcount]
      rw [if_neg hwon]
      rfl
    obtain ⟨q, hq⟩ := State.exists_persistent (s := s₁) (fun votes hr => by
      cases hr
      exact Finset.mem_insert_of_mem hself)
    refine ⟨_, _, ⟨hraft, _, _, _, _, hdown, hhandle, hq, rfl⟩,
      ⟨rfl, rfl, hraft, hclient⟩, ?_⟩
    rw [if_neg hwon]

/-- A leader does not count votes any more. -/
theorem ignored (h : n.Resting T x) (hlead : n.state.isLeader = true) (t : Instant) :
    ∃ n' rs, n.Processes t p (.requestVoteResponse T true) n' rs ∧ n'.Resting T x ∧
      n'.state = n.state := by
  obtain ⟨rfl, rfl, hraft, hclient⟩ := h
  cases hr : n.state.r with
  | follower _ _ | candidate _ => simp [State.isLeader, hr] at hlead
  | leader next mtch lr =>
    have hhandle : n.state.handle (.still t) p
        (.requestVoteResponse n.state.c.currentTerm true) = .ok (n.state, [], ⟨[], []⟩) := by
      simp only [State.handle, State.handleVoteResponse, hr, Bool.not_true, Bool.false_eq_true,
        if_false]
      rfl
    obtain ⟨q, hq⟩ := State.exists_persistent (s := n.state) (by simp [hr])
    exact ⟨_, _, ⟨hraft, _, _, _, _, State.maybeStepDown_of_le le_rfl, hhandle, hq, rfl⟩,
      ⟨rfl, rfl, hraft, hclient⟩, rfl⟩

end Node.Resting

end Miniraft

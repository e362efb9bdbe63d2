import Miniraft.Verify.Log

/-!
# Messages of older terms

What a message of an older term does to a node. Requests for votes, votes and AppendEntries
requests do nothing, but the term of a response to an AppendEntries request is not looked at: at a
leader it moves the indexes of the peer, as if it were about the current term.
`State.inert_iff` says when it does not.
-/

namespace Miniraft

namespace State

variable {NodeID Cmd : Type} [DecidableEq NodeID] {s s' : State NodeID Cmd} {clk : Clock}
  {peer : NodeID}

/-- One message in the Raft-message loop. -/
def process (clk : Clock) (peer : NodeID) (m : RaftMessage Cmd) (s : State NodeID Cmd) :
    Except Panic (State NodeID Cmd × Outgoing NodeID Cmd × Effects Cmd) := do
  let s ← s.maybeStepDown m.term
  s.handle clk peer m

/-- The same role with the same vote, leader, votes and indexes. The time of the last replication
is left out. -/
def SameRole : Role NodeID → Role NodeID → Prop
  | .follower leader votedFor, .follower leader' votedFor' => leader = leader' ∧ votedFor = votedFor'
  | .candidate votes, .candidate votes' => votes = votes'
  | .leader next mtch _, .leader next' mtch' _ =>
    (∀ p, next.lookup p = next'.lookup p) ∧ ∀ p, mtch.lookup p = mtch'.lookup p
  | _, _ => False

theorem SameRole.refl (r : Role NodeID) : SameRole r r := by
  cases r with
  | follower leader votedFor => exact ⟨rfl, rfl⟩
  | candidate votes => exact rfl
  | leader next mtch lr => exact ⟨fun _ => rfl, fun _ => rfl⟩

/-- Nothing that the protocol is about changes. -/
structure Unchanged (s s' : State NodeID Cmd) (applied : List (LogIndex × LogEntry Cmd)) : Prop where
  currentTerm : s'.c.currentTerm = s.c.currentTerm
  role : SameRole s.r s'.r
  log : s'.c.log = s.c.log
  commitIndex : s'.c.commitIndex = s.c.commitIndex
  lastApplied : s'.c.lastApplied = s.c.lastApplied
  machine : applied = []

theorem Unchanged.refl (s : State NodeID Cmd) : Unchanged s s [] :=
  ⟨rfl, .refl _, rfl, rfl, rfl, rfl⟩

/-- The message is inert. -/
def Inert (clk : Clock) (peer : NodeID) (m : RaftMessage Cmd) (s : State NodeID Cmd) : Prop :=
  ∃ s' msgs effects, s.process clk peer m = .ok (s', msgs, effects) ∧
    Unchanged s s' effects.applied

/-- Nobody steps down for it, so it comes down to the handlers. -/
theorem inert_iff_handle {m : RaftMessage Cmd} (h : m.term < s.c.currentTerm) :
    s.Inert clk peer m ↔ ∃ s' msgs effects, s.handle clk peer m = .ok (s', msgs, effects) ∧
      Unchanged s s' effects.applied := by
  have hstay : s.maybeStepDown m.term = .ok s := if_neg h.not_gt
  unfold Inert process
  rw [hstay]
  rfl

/-! ## Votes and requests -/

theorem inert_requestVote {T : Term} {li : Option LogIndex} {lt : Option Term}
    (hT : T < s.c.currentTerm) : s.Inert clk peer (.requestVote T li lt) ↔ s.c.id ≠ peer := by
  rw [inert_iff_handle (m := .requestVote T li lt) hT, handle, handleVoteRequest]
  constructor
  · rintro ⟨s', msgs, effects, h, -⟩ hid
    rw [if_pos hid] at h
    cases h
  · intro hid
    rw [if_neg hid]
    cases hr : s.r with
    | follower leader votedFor =>
      simp only [voteGranted, hT, if_true, Bool.false_eq_true, if_false]
      exact ⟨s, _, _, rfl, .refl s⟩
    | candidate _ | leader _ _ _ => exact ⟨s, _, _, rfl, .refl s⟩

theorem inert_requestVoteResponse {T : Term} {granted : Bool} (hT : T < s.c.currentTerm) :
    s.Inert clk peer (.requestVoteResponse T granted) ↔
      (granted = true → ∀ votes, s.r = .candidate votes → s.c.id ∈ votes) := by
  rw [inert_iff_handle (m := .requestVoteResponse T granted) hT, handle, handleVoteResponse]
  cases granted with
  | false => exact iff_of_true ⟨s, _, _, rfl, .refl s⟩ (by simp)
  | true =>
    cases hr : s.r with
    | follower _ _ | leader _ _ _ => exact iff_of_true ⟨s, _, _, rfl, .refl s⟩ (by simp)
    | candidate votes =>
      by_cases hid : s.c.id ∈ votes
      · refine iff_of_true ?_ (by simpa using hid)
        simp only [hid, not_true_eq_false, if_false, Nat.compare_eq_gt.mpr hT]
        exact ⟨s, _, _, rfl, .refl s⟩
      · refine iff_of_false ?_ (by simpa using hid)
        rintro ⟨s', msgs, effects, h, -⟩
        simp only [hid, not_false_eq_true, if_true] at h
        cases h

theorem inert_appendEntries {T : Term} {ci pi : Option LogIndex} {pt : Option Term} {es : Log Cmd}
    (hT : T < s.c.currentTerm) : s.Inert clk peer (.appendEntries T ci pi pt es) := by
  rw [inert_iff_handle (m := .appendEntries T ci pi pt es) hT, handle, handleAppendEntries]
  simp only [hT, if_true]
  exact ⟨s, _, _, rfl, .refl s⟩

/-! ## Responses -/

variable {next next' : Map NodeID LogIndex} {mtch mtch' : Map NodeID (Option LogIndex)}
  {lr : Option Instant} {msgs : Outgoing NodeID Cmd} {apps : List (LogIndex × LogEntry Cmd)}

/-- The commit rule has nothing left to do. -/
def Settled (s : State NodeID Cmd) (mtch : Map NodeID (Option LogIndex)) : Prop :=
  ∀ values n e, mtch.values.mapM id = some values → lowerMedian values = some n →
    s.c.log.get n = some e → e.term = s.c.currentTerm →
    (n : ℕ) ≤ upTo s.c.commitIndex ∧ s.c.lastApplied = s.c.commitIndex

/-- It does not depend on the order of the map. -/
theorem Settled.of_lookup (h : s.Settled mtch) (hsame : ∀ p, mtch.lookup p = mtch'.lookup p) :
    s.Settled mtch' := by
  intro values' n e hvalues' hn he hterm
  obtain ⟨values, hvalues, hperm⟩ := mapM_perm (Map.values_perm hsame).symm hvalues'
  exact h values n e hvalues (by rwa [← lowerMedian_perm hperm]) he hterm

omit [DecidableEq NodeID] in
theorem advanceStateMachine_of_eq (h : s.c.lastApplied = s.c.commitIndex) :
    s.advanceStateMachine = .ok (s, []) := by
  have hloop : applyLoop s.c.log s.c.commitIndex
      (upTo s.c.commitIndex - upTo s.c.lastApplied) s.c.lastApplied = .ok (s.c.lastApplied, []) := by
    rw [h, Nat.sub_self]
    rfl
  rw [advanceStateMachine, if_neg (h ▸ lt_irrefl _), hloop]
  rfl

omit [DecidableEq NodeID] in
theorem advanceCommitIndex_of_settled (hr : s.r = .leader next mtch lr)
    (hvalues : mtch.values ≠ []) (h : s.Settled mtch) : s.advanceCommitIndex = .ok (s, []) := by
  obtain ⟨c, r⟩ := s
  obtain rfl : r = .leader next mtch lr := hr
  simp only [advanceCommitIndex]
  split
  · rfl
  next values hmapM =>
  split
  · next hnone =>
    rw [lowerMedian_eq_none hnone] at hmapM
    exact absurd (eq_map_some_of_mapM hmapM) hvalues
  next n hn =>
  split
  · rfl
  next e he =>
  split
  · rfl
  next hterm =>
  obtain ⟨hle, hlast⟩ := h values n e hmapM hn he (not_ne_iff.mp hterm)
  have hmax : max c.commitIndex (some n) = c.commitIndex :=
    upTo_inj (by rw [upTo_max, upTo_some]; exact max_eq_left hle)
  rw [hmax]
  exact advanceStateMachine_of_eq (s := ⟨c, .leader next mtch lr⟩) hlast

omit [DecidableEq NodeID] in
theorem settled_of_advanceCommitIndex (hr : s.r = .leader next mtch lr)
    (h : s.advanceCommitIndex = .ok (s', apps)) (hcommit : s'.c.commitIndex = s.c.commitIndex)
    (hlast : s'.c.lastApplied = s.c.lastApplied) : s.Settled mtch := by
  intro values n e hvalues hn he hterm
  rw [advanceCommitIndex_of_median hr hvalues hn he hterm] at h
  obtain ⟨last, rfl, hup, -, -⟩ := advanceStateMachine_eq_ok h
  simp only at hcommit hlast hup
  rw [hcommit] at hup
  have hmax := congrArg upTo hcommit
  rw [upTo_max, upTo_some] at hmax
  exact ⟨by omega, hlast ▸ upTo_inj hup⟩

/-- `replicate_log` runs into no missing index: it has run too recently, or every peer has one. -/
def Replicates (clk : Clock) (lr : Option Instant) (next : Map NodeID LogIndex)
    (s : State NodeID Cmd) : Prop :=
  heartbeatNeeded clk lr = none ∨ ∀ p ∈ s.c.nodeIds, p ∈ next

theorem exists_replicateTo_iff (c : Common NodeID Cmd) (heartbeat : Bool) {p : NodeID} :
    (∃ x, replicateTo c next heartbeat p = .ok x) ↔ p ∈ next := by
  rw [← AList.lookup_isSome, Option.isSome_iff_exists]
  unfold replicateTo
  split
  · next hnone => simp [hnone]
  · next n hn =>
    refine iff_of_true ?_ ⟨n, hn⟩
    simp only
    split
    · exact ⟨_, rfl⟩
    · exact ⟨_, rfl⟩

theorem replicateLog_ok_iff (clk : Clock) (hr : s.r = .leader next mtch lr) :
    (∃ r, s.replicateLog clk = .ok r) ↔ s.Replicates clk lr next := by
  unfold replicateLog Replicates
  simp only [hr]
  cases hh : heartbeatNeeded clk lr with
  | none => simp
  | some heartbeat =>
    simp only [reduceCtorEq, false_or, ← exists_replicateTo_iff s.c heartbeat,
      ← Except.exists_mapM_eq_ok_iff]
    constructor
    · rintro ⟨r, h⟩
      obtain ⟨xs, hxs, -⟩ := Except.bind_eq_ok_iff.mp h
      exact ⟨xs, hxs⟩
    · rintro ⟨xs, hxs⟩
      rw [hxs]
      exact ⟨_, rfl⟩

theorem replicateLog_frame (hr : s.r = .leader next mtch lr)
    (h : s.replicateLog clk = .ok (s', msgs)) : ∃ lr', s' = { s with r := .leader next mtch lr' } := by
  unfold replicateLog at h
  simp only [hr] at h
  split at h
  · simp only [Except.pure_eq_ok_iff, Prod.mk.injEq] at h
    exact ⟨lr, by rw [← h.1, ← hr]⟩
  · simp only [Except.bind_eq_ok_iff, Except.pure_eq_ok_iff, Prod.mk.injEq] at h
    obtain ⟨xs, -, rfl, -⟩ := h
    exact ⟨_, rfl⟩

/-- A failure moves the next index of the peer back, and replicates the log. -/
theorem handleAppendEntriesResponse_failure {nx : LogIndex} {index : Option LogIndex}
    (hr : s.r = .leader next mtch lr) (hnx : next.lookup peer = some nx) :
    s.handleAppendEntriesResponse clk peer false index = (do
      let (s', msgs) ← replicateLog clk
        { s with r := .leader (next.insert peer (nx.dec.getD 1)) mtch lr }
      return (s', msgs, [])) := by
  simp [handleAppendEntriesResponse, hr, hnx]

/-- A success sets both indexes of the peer, and commits. -/
theorem handleAppendEntriesResponse_success {nx i : LogIndex} {m : Option LogIndex}
    (hr : s.r = .leader next mtch lr) (hnx : next.lookup peer = some nx)
    (hm : mtch.lookup peer = some m) :
    s.handleAppendEntriesResponse clk peer true (some i) = (do
      let nx' ← i.inc
      let (s', applied) ← advanceCommitIndex
        { s with r := .leader (next.insert peer nx') (mtch.insert peer (some i)) lr }
      return (s', [], applied)) := by
  simp [handleAppendEntriesResponse, hr, hnx, hm]

/-- A response that leaves the indexes of its sender as they are. -/
def Harmless (clk : Clock) (peer : NodeID) (success : Bool) (index : Option LogIndex)
    (s : State NodeID Cmd) : Prop :=
  ∀ next mtch lr, s.r = .leader next mtch lr → ∀ nx, next.lookup peer = some nx →
    match success, index with
    | false, _ => nx = 1 ∧ s.Replicates clk lr next
    | true, none => True
    | true, some i => ∀ m, mtch.lookup peer = some m →
      i.inc = .ok nx ∧ m = some i ∧ s.Settled mtch

theorem eq_one_of_dec {i : LogIndex} (h : i.dec.getD 1 = i) : i = 1 := by
  have hpred := i.natPred_add_one
  unfold LogIndex.dec at h
  split at h
  · next hpos =>
    have hval : i.natPred = i := congrArg PNat.val h
    omega
  · exact h.symm

theorem replicates_insert (h : peer ∈ next) (n : LogIndex) :
    s.Replicates clk lr (next.insert peer n) ↔ s.Replicates clk lr next := by
  refine or_congr_right (forall₂_congr fun p _ => ?_)
  rw [AList.mem_insert]
  exact or_iff_right_of_imp fun hp => hp ▸ h

theorem unchanged_failure_iff {nx : LogIndex} {index : Option LogIndex}
    (hr : s.r = .leader next mtch lr) (hnx : next.lookup peer = some nx) :
    (∃ s' msgs applied, s.handleAppendEntriesResponse clk peer false index =
        .ok (s', msgs, applied) ∧ Unchanged s s' applied) ↔
      nx = 1 ∧ s.Replicates clk lr next := by
  have hmem : peer ∈ next := AList.lookup_isSome.mp (by rw [hnx]; rfl)
  rw [handleAppendEntriesResponse_failure hr hnx]
  have hreplicates := replicateLog_ok_iff clk
    (s := { s with r := .leader (next.insert peer (nx.dec.getD 1)) mtch lr }) rfl
  constructor
  · rintro ⟨s', msgs, applied, h, hsame⟩
    simp only [Except.bind_eq_ok_iff, Except.pure_eq_ok_iff, Prod.mk.injEq, Prod.exists] at h
    obtain ⟨s₁, msgs₁, h, rfl, rfl, rfl⟩ := h
    have hok := hreplicates.mp ⟨_, h⟩
    obtain ⟨lr', rfl⟩ := replicateLog_frame rfl h
    have hrole := hsame.role
    rw [hr] at hrole
    have hpeer := hrole.1 peer
    rw [hnx, AList.lookup_insert] at hpeer
    exact ⟨eq_one_of_dec (Option.some.inj hpeer).symm, (replicates_insert hmem _).mp hok⟩
  · rintro ⟨rfl, hok⟩
    obtain ⟨⟨s', msgs⟩, h⟩ := hreplicates.mpr ((replicates_insert hmem _).mpr hok)
    obtain ⟨lr', rfl⟩ := replicateLog_frame rfl h
    rw [h]
    refine ⟨_, _, _, rfl, rfl, ?_, rfl, rfl, rfl, rfl⟩
    rw [hr]
    exact ⟨fun p => (Map.lookup_insert_self hnx p).symm, fun _ => rfl⟩

theorem unchanged_success_iff {nx i : LogIndex} {m : Option LogIndex}
    (hr : s.r = .leader next mtch lr) (hnx : next.lookup peer = some nx)
    (hm : mtch.lookup peer = some m) :
    (∃ s' msgs applied, s.handleAppendEntriesResponse clk peer true (some i) =
        .ok (s', msgs, applied) ∧ Unchanged s s' applied) ↔
      i.inc = .ok nx ∧ m = some i ∧ s.Settled mtch := by
  rw [handleAppendEntriesResponse_success hr hnx hm]
  constructor
  · rintro ⟨s', msgs, applied, h, hsame⟩
    simp only [Except.bind_eq_ok_iff, Except.pure_eq_ok_iff, Prod.mk.injEq, Prod.exists] at h
    obtain ⟨nx', hinc, s₁, applied₁, h, rfl, rfl, rfl⟩ := h
    have hsettled := settled_of_advanceCommitIndex rfl h hsame.commitIndex hsame.lastApplied
    obtain ⟨commitIndex, lastApplied, rfl⟩ := advanceCommitIndex_frame rfl h
    have hrole := hsame.role
    rw [hr] at hrole
    obtain ⟨hnext, hmtch⟩ := hrole
    have hpeer := hnext peer
    have hpeer' := hmtch peer
    rw [AList.lookup_insert, hnx] at hpeer
    rw [AList.lookup_insert, hm] at hpeer'
    refine ⟨hinc.trans (congrArg Except.ok (Option.some.inj hpeer).symm), Option.some.inj hpeer', ?_⟩
    exact hsettled.of_lookup fun p => (hmtch p).symm
  · rintro ⟨hinc, rfl, hsettled⟩
    have hnext := Map.lookup_insert_self hnx
    have hmtch := Map.lookup_insert_self hm
    have hadvance := advanceCommitIndex_of_settled
      (s := { s with r := .leader (next.insert peer nx) (mtch.insert peer (some i)) lr }) rfl
      (Map.values_ne_nil (hmtch peer ▸ hm)) (hsettled.of_lookup fun p => (hmtch p).symm)
    simp only [Except.bind_eq_ok_iff, Except.pure_eq_ok_iff, Prod.mk.injEq, Prod.exists]
    refine ⟨_, [], [], ⟨nx, hinc, _, _, hadvance, rfl, rfl, rfl⟩, rfl, ?_, rfl, rfl, rfl, rfl⟩
    rw [hr]
    exact ⟨fun p => (hnext p).symm, fun p => (hmtch p).symm⟩

theorem unchanged_of_ignored {success : Bool} {index : Option LogIndex}
    (h : s.handleAppendEntriesResponse clk peer success index = .ok (s, [], [])) :
    ∃ s' msgs applied, s.handleAppendEntriesResponse clk peer success index =
      .ok (s', msgs, applied) ∧ Unchanged s s' applied :=
  ⟨s, [], [], h, .refl s⟩

theorem inert_appendEntriesResponse {T : Term} {index : Option LogIndex} {success : Bool}
    (hT : T < s.c.currentTerm) :
    s.Inert clk peer (.appendEntriesResponse T index success) ↔
      s.Harmless clk peer success index := by
  have hhandle : s.Inert clk peer (.appendEntriesResponse T index success) ↔
      ∃ s' msgs applied, s.handleAppendEntriesResponse clk peer success index =
        .ok (s', msgs, applied) ∧ Unchanged s s' applied := by
    rw [inert_iff_handle (m := .appendEntriesResponse T index success) hT, handle]
    constructor
    · rintro ⟨s', msgs, effects, h, hsame⟩
      simp only [Except.bind_eq_ok_iff, Except.pure_eq_ok_iff, Prod.mk.injEq, Prod.exists] at h
      obtain ⟨s₁, msgs₁, applied, h, rfl, rfl, rfl⟩ := h
      exact ⟨s₁, msgs₁, applied, h, hsame⟩
    · rintro ⟨s', msgs, applied, h, hsame⟩
      rw [h]
      exact ⟨s', msgs, _, rfl, hsame⟩
  rw [hhandle]
  cases hr : s.r with
  | follower _ _ | candidate _ =>
    refine iff_of_true (unchanged_of_ignored ?_) (by simp [Harmless, hr])
    simp [handleAppendEntriesResponse, hr]
  | leader next mtch lr =>
    cases hnx : next.lookup peer with
    | none =>
      refine iff_of_true (unchanged_of_ignored ?_) (by simp [Harmless, hr, hnx])
      simp [handleAppendEntriesResponse, hr, hnx]
    | some nx =>
      cases success with
      | false =>
        rw [unchanged_failure_iff hr hnx]
        simp [Harmless, hr, hnx]
      | true =>
        cases index with
        | none =>
          refine iff_of_true (unchanged_of_ignored ?_) (by simp [Harmless])
          cases hm : mtch.lookup peer <;> simp [handleAppendEntriesResponse, hr, hnx, hm]
        | some i =>
          cases hm : mtch.lookup peer with
          | none =>
            refine iff_of_true (unchanged_of_ignored ?_) (by simp [Harmless, hr, hm])
            simp [handleAppendEntriesResponse, hr, hnx, hm]
          | some m =>
            rw [unchanged_success_iff hr hnx hm]
            simp [Harmless, hr, hnx, hm]

/-- When a message of an older term is inert. -/
def IgnoresStale (clk : Clock) (peer : NodeID) (s : State NodeID Cmd) : RaftMessage Cmd → Prop
  | .requestVote .. => s.c.id ≠ peer
  | .requestVoteResponse _ granted => granted = true → ∀ votes, s.r = .candidate votes → s.c.id ∈ votes
  | .appendEntries .. => True
  | .appendEntriesResponse _ index success => s.Harmless clk peer success index

/-- Messages of an older term are inert, except for responses to AppendEntries requests that move
the indexes of their sender. -/
theorem inert_iff (clk : Clock) (peer : NodeID) (m : RaftMessage Cmd) (s : State NodeID Cmd)
    (hstale : m.term < s.c.currentTerm) : s.Inert clk peer m ↔ s.IgnoresStale clk peer m := by
  cases m with
  | requestVote T li lt => exact inert_requestVote hstale
  | requestVoteResponse T granted => exact inert_requestVoteResponse hstale
  | appendEntries T ci pi pt es => exact iff_of_true (inert_appendEntries hstale) trivial
  | appendEntriesResponse T index success => exact inert_appendEntriesResponse hstale

end State

namespace Example

open State

/-- The leader "a" of three nodes in term 3. -/
def third : State String ℕ :=
  { State.new "a" ["b", "c"] ⟨3, some "a", ⟨[⟨10, 1⟩, ⟨20, 2⟩]⟩⟩ with
    r := .leader (.ofKeys ["b", "c"] 3) (.ofKeys ["b", "c"] none) none }

/-- Responses to requests of term 1 move the indexes in term 3. -/
theorem not_inert :
    ¬ Inert ⟨0, 0, 0, by decide⟩ "b" (.appendEntriesResponse 1 none false) third ∧
    ¬ Inert ⟨0, 0, 0, by decide⟩ "b" (.appendEntriesResponse 1 (some 2) true) third := by
  have hnext : (Map.ofKeys ["b", "c"] (3 : LogIndex)).lookup "b" = some 3 := by decide
  have hmtch : (Map.ofKeys ["b", "c"] (none : Option LogIndex)).lookup "b" = some none := by decide
  constructor
  · rw [inert_appendEntriesResponse (by decide)]
    intro h
    exact absurd (h _ _ _ rfl 3 hnext).1 (by decide)
  · rw [inert_appendEntriesResponse (by decide)]
    intro h
    exact absurd (h _ _ _ rfl 3 hnext none hmtch).2.1 (by decide)

/-- The leader with the next index `next` and the match index `index` for "b". -/
def tracking (next : LogIndex) (index : Option LogIndex) : State String ℕ :=
  { third with
    r := .leader ((Map.ofKeys ["b", "c"] 3).insert "b" next)
      ((Map.ofKeys ["b", "c"] none).insert "b" index) none }

/-- Late messages: a request for a vote, a success that is known already, and a failure of a peer
that is sent the whole log anyway. -/
theorem inert_late : Inert ⟨0, 0, 0, by decide⟩ "b" (.requestVote 1 (some 5) (some 1)) third ∧
    Inert ⟨0, 0, 0, by decide⟩ "b" (.appendEntriesResponse 1 (some 2) true) (tracking 3 (some 2)) ∧
    Inert ⟨0, 0, 0, by decide⟩ "b" (.appendEntriesResponse 1 none false) (tracking 1 none) := by
  have hnext (next : LogIndex) (index : Option LogIndex) {nx : LogIndex}
      (h : ((Map.ofKeys ["b", "c"] (3 : LogIndex)).insert "b" next).lookup "b" = some nx) :
      nx = next := by
    rw [AList.lookup_insert] at h
    exact (Option.some.inj h).symm
  refine ⟨(inert_iff _ _ _ _ (by decide)).mpr (show "a" ≠ "b" by decide),
    (inert_iff _ _ _ _ (by decide)).mpr ?_, (inert_iff _ _ _ _ (by decide)).mpr ?_⟩
  · rintro _ _ _ ⟨⟩ nx hnx m hm
    obtain rfl := hnext 3 none hnx
    rw [AList.lookup_insert] at hm
    obtain rfl := Option.some.inj hm
    -- "c" has not reported yet.
    have hsilent : (Map.values ((Map.ofKeys ["b", "c"] none).insert "b"
        (some (2 : LogIndex)))).mapM id = none := by decide
    refine ⟨by decide, rfl, fun values n e hvalues => ?_⟩
    rw [hsilent] at hvalues
    cases hvalues
  · rintro _ _ _ ⟨⟩ nx hnx
    obtain rfl := hnext 1 none hnx
    exact ⟨rfl, .inr (by decide)⟩

end Example

end Miniraft

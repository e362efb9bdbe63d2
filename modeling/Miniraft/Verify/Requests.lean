import Miniraft.Verify.Leadership
import Miniraft.Verify.Safety

/-!
# Requests are slices of the leader's log

A leader sends to each peer what its log has from the peer's next index on, together with the
index and term before it. If a reported index never exceeds the log of the leader it is reported
to (`Cluster.AcksWithinLog`), then next indexes stay within the log and every request describes a
contiguous slice of it (`Cluster.requests_slice_log`). An index that a peer reports may exceed the
log, since it is the length of the peer's log and not how far the request reached.
-/

namespace Miniraft

open Consensus

variable {NodeID Cmd : Type}

/-- A request with this previous index, previous term and these entries describes a contiguous
slice of the log, up to its end. -/
structure Log.Slices (log : Log Cmd) (prevLogIndex : Option LogIndex) (prevLogTerm : Option Term)
    (entries : Log Cmd) : Prop where
  prev_none : prevLogTerm = none ↔ prevLogIndex = none
  prev_some : ∀ idx ∈ prevLogIndex, ∃ e, log.get idx = some e ∧ prevLogTerm = some e.term
  entries : entries.inner = log.inner.drop (upTo prevLogIndex)

variable [DecidableEq NodeID]

/-- The next indexes of a leader are within its log or right behind it. -/
def Stance.NextWithin (peers : List NodeID) (length : ℕ) : Stance NodeID → Prop
  | .leader nextIndexes _ => ∀ p ∈ peers, ∃ next : LogIndex, nextIndexes.lookup p = some next ∧
    next.natPred ≤ length
  | _ => True

/-- The same of a core. -/
def Core.NextWithin (k : Core NodeID Cmd) : Prop :=
  k.stance.NextWithin k.peers k.log.inner.length

theorem nextWithin_mono {peers : List NodeID} {length length' : ℕ} {st : Stance NodeID}
    (h : st.NextWithin peers length) (hle : length ≤ length') : st.NextWithin peers length' := by
  cases st with
  | leader next mtch =>
    intro p hp
    obtain ⟨ni, hni, hni'⟩ := h p hp
    exact ⟨ni, hni, hni'.trans hle⟩
  | _ => trivial

theorem nextWithin_insert {peers : List NodeID} {length : ℕ} {next : Map NodeID LogIndex}
    {mtch mtch' : Map NodeID (Option LogIndex)} {p : NodeID} {ni : LogIndex}
    (h : (Stance.leader next mtch).NextWithin peers length)
    (hni : p ∈ peers → ni.natPred ≤ length) :
    (Stance.leader (next.insert p ni) mtch').NextWithin peers length := by
  intro q hq
  rcases eq_or_ne q p with rfl | hqp
  · exact ⟨ni, AList.lookup_insert _, hni hq⟩
  · obtain ⟨nq, hnq, hle⟩ := h q hq
    exact ⟨nq, (AList.lookup_insert_ne hqp).trans hnq, hle⟩

variable [Wire Cmd]

namespace Move

variable {a : Action NodeID Cmd} {k k' : Core NodeID Cmd} {h h' : History NodeID Cmd}
  {recv : Option (NodeID × RaftMessage Cmd)} {fresh : Outgoing NodeID Cmd}

/-- A move keeps next indexes within the log, if the index it is told does not exceed it. -/
theorem nextWithin (hm : Move a k h recv k' h' fresh) (hk : k.NextWithin)
    (hack : ∀ p T (index : LogIndex), recv = some (p, .appendEntriesResponse T (some index) true) →
      k.stance.IsLeader → (index : ℕ) ≤ k.log.inner.length) : k'.NextWithin := by
  have hdown : ∀ v length, (k.stance.stepDown v).NextWithin k.peers length := by
    intro v length
    cases k.stance <;> trivial
  cases hm with
  | stepDown _ | mismatch _ | accept _ _ _ => exact hdown _ _
  | stand _ _ | grant _ _ _ _ | count _ => trivial
  | win _ _ _ hnext _ =>
    intro p hp
    exact ⟨_, (Map.lookup_ofKeys ..).trans (if_pos hp), hnext.le⟩
  | @retreat p _ _ next mtch ni _ hst hlookup _ =>
    unfold Core.NextWithin at hk
    rw [hst] at hk
    refine nextWithin_insert hk fun hp => ?_
    obtain ⟨np, hnp, hle⟩ := hk p hp
    obtain rfl : np = ni := Option.some.inj (hnp.symm.trans hlookup)
    exact np.natPred_dec_getD_le.trans hle
  | @ack p T next mtch ni _ _ _ i hst _ _ hni _ =>
    unfold Core.NextWithin at hk
    rw [hst] at hk
    exact nextWithin_insert hk fun _ => hni.trans_le (hack p T i rfl (hst ▸ trivial))
  | append _ _ => exact nextWithin_mono hk (by simp [Log.append])
  | _ => exact hk

end Move

/-- The requests among the messages describe slices of the log. -/
def Log.SlicedBy (log : Log Cmd) (msgs : Outgoing NodeID Cmd) : Prop :=
  ∀ x ∈ msgs, ∀ T commitIndex prevLogIndex prevLogTerm entries,
    x.2 = .appendEntries T commitIndex prevLogIndex prevLogTerm entries →
      log.Slices prevLogIndex prevLogTerm entries

namespace State

variable {s s' : State NodeID Cmd} {clk : Clock} {p : NodeID} {msgs : Outgoing NodeID Cmd}
  {next : Map NodeID LogIndex}

omit [Wire Cmd] [DecidableEq NodeID] in
theorem slices_of_next {log : Log Cmd} {ni : LogIndex} (hni : ni.natPred ≤ log.inner.length) :
    log.Slices ni.dec (ni.dec.bind fun idx => (log.get idx).map (·.term))
      ⟨(log.getFrom ni).getD []⟩ := by
  have hdrop : (log.getFrom ni).getD [] = log.inner.drop (upTo ni.dec) := by
    rw [Log.getFrom_getD, upTo_dec]
  cases hdec : ni.dec with
  | none => exact ⟨by simp, by simp, by rw [← hdec]; exact hdrop⟩
  | some idx =>
    have hidx : (idx : ℕ) = ni.natPred := by
      have := upTo_dec ni
      rwa [hdec, upTo_some] at this
    have hpos := idx.natPred_add_one
    obtain ⟨e, he⟩ : ∃ e, log.get idx = some e := ⟨_, List.getElem?_eq_getElem (by omega)⟩
    refine ⟨by simp [he], ?_, by rw [← hdec]; exact hdrop⟩
    rintro j hj
    cases hj
    exact ⟨e, he, by simp [he]⟩

omit [Wire Cmd] in
theorem replicateTo_slices {hb : Bool} {x : NodeID × RaftMessage Cmd}
    (hs : replicateTo s.c next hb p = .ok (some x))
    (hnext : ∀ ni, next.lookup p = some ni → ni.natPred ≤ s.c.log.inner.length) :
    s.c.log.SlicedBy [x] := by
  unfold replicateTo at hs
  split at hs
  · simp at hs
  · next ni hni =>
    simp only at hs
    split at hs
    · simp at hs
    · simp only [Except.pure_eq_ok_iff, Option.some.injEq] at hs
      subst hs
      intro y hy T ci pi pt es hbody
      obtain rfl := List.mem_singleton.mp hy
      cases hbody
      exact slices_of_next (hnext ni hni)

theorem replicateLog_slices (hs : s.replicateLog clk = .ok (s', msgs)) (hk : s.core.NextWithin) :
    s'.c.log.SlicedBy msgs := by
  unfold replicateLog at hs
  split at hs
  · next next mtch lr hr =>
    split at hs
    · simp only [Except.pure_eq_ok_iff, Prod.mk.injEq] at hs
      obtain ⟨-, rfl⟩ := hs
      intro x hx
      cases hx
    · simp only [Except.bind_eq_ok_iff, Except.pure_eq_ok_iff, Prod.mk.injEq] at hs
      obtain ⟨xs, hxs, rfl, rfl⟩ := hs
      intro x hx
      obtain ⟨q, hq, hqx⟩ := Except.mem_of_mapM_eq_ok hxs (List.reduceOption_mem_iff.mp hx)
      refine replicateTo_slices (s := s) hqx (fun ni hni => ?_) x (List.mem_singleton_self x)
      have hstance : s.core.stance = .leader next mtch := by simp [core, hr, Role.stance]
      unfold Core.NextWithin at hk
      rw [hstance] at hk
      obtain ⟨nq, hnq, hle⟩ := hk q hq
      obtain rfl : nq = ni := Option.some.inj (hnq.symm.trans hni)
      simpa [core] using hle
  · simp only [Except.pure_eq_ok_iff, Prod.mk.injEq] at hs
    obtain ⟨-, rfl⟩ := hs
    intro x hx
    cases hx

theorem becomeLeader_slices (hs : s.becomeLeader clk = .ok (s', msgs)) :
    s'.c.log.SlicedBy msgs := by
  unfold becomeLeader at hs
  split at hs
  · split at hs
    · simp at hs
    · simp only [Except.bind_eq_ok_iff] at hs
      obtain ⟨next, hnext, hs⟩ := hs
      have hlen := LogIndex.incOrDefault_eq_ok hnext
      refine replicateLog_slices hs fun p hp => ⟨next, (Map.lookup_ofKeys ..).trans (if_pos hp), ?_⟩
      simpa [core] using hlen.le
  · simp at hs

omit [Wire Cmd] [DecidableEq NodeID] in
theorem slicedBy_nil {log : Log Cmd} : log.SlicedBy ([] : Outgoing NodeID Cmd) := by
  intro x hx
  cases hx

theorem handleVoteResponse_slices {T : Term} {granted : Bool}
    (hs : s.handleVoteResponse clk p T granted = .ok (s', msgs)) : s'.c.log.SlicedBy msgs := by
  have hquiet : ∀ {msgs : Outgoing NodeID Cmd}, msgs = [] → s'.c.log.SlicedBy msgs := by
    rintro _ rfl
    exact slicedBy_nil
  unfold handleVoteResponse at hs
  split at hs
  · simp only [Except.pure_eq_ok_iff, Prod.mk.injEq] at hs
    exact hquiet hs.2.symm
  split at hs
  · split at hs
    · simp at hs
    split at hs
    · simp at hs
    · simp only at hs
      split at hs
      · exact becomeLeader_slices hs
      · simp only [Except.pure_eq_ok_iff, Prod.mk.injEq] at hs
        exact hquiet hs.2.symm
    · simp only [Except.pure_eq_ok_iff, Prod.mk.injEq] at hs
      exact hquiet hs.2.symm
  · simp only [Except.pure_eq_ok_iff, Prod.mk.injEq] at hs
    exact hquiet hs.2.symm

theorem handleAppendEntriesResponse_slices {success : Bool} {i : Option LogIndex}
    {apps : List (LogIndex × LogEntry Cmd)} (hk : s.core.NextWithin)
    (hs : s.handleAppendEntriesResponse clk p success i = .ok (s', msgs, apps)) :
    s'.c.log.SlicedBy msgs := by
  have hquiet : ∀ {msgs : Outgoing NodeID Cmd}, msgs = [] → s'.c.log.SlicedBy msgs := by
    rintro _ rfl
    exact slicedBy_nil
  unfold handleAppendEntriesResponse at hs
  split at hs
  · next next mtch lr hr =>
    split at hs
    · simp only [Except.pure_eq_ok_iff, Prod.mk.injEq] at hs
      exact hquiet hs.2.1.symm
    next ni hni =>
    split at hs
    · simp only [Except.bind_eq_ok_iff, Except.pure_eq_ok_iff, Prod.mk.injEq, Prod.exists] at hs
      obtain ⟨s'', msgs', hrep, rfl, rfl, -⟩ := hs
      have hstance : s.core.stance = .leader next mtch := by simp [core, hr, Role.stance]
      unfold Core.NextWithin at hk
      rw [hstance] at hk
      refine replicateLog_slices hrep (nextWithin_insert hk fun hp => ?_)
      obtain ⟨np, hnp, hle⟩ := hk p hp
      obtain rfl : np = ni := Option.some.inj (hnp.symm.trans hni)
      exact np.natPred_dec_getD_le.trans hle
    split at hs
    · simp only [Except.pure_eq_ok_iff, Prod.mk.injEq] at hs
      exact hquiet hs.2.1.symm
    split at hs
    · simp only [Except.pure_eq_ok_iff, Prod.mk.injEq] at hs
      exact hquiet hs.2.1.symm
    · simp only [Except.bind_eq_ok_iff, Except.pure_eq_ok_iff, Prod.mk.injEq, Prod.exists] at hs
      obtain ⟨nj, -, s'', apps', -, rfl, rfl, -⟩ := hs
      exact slicedBy_nil
  · simp only [Except.pure_eq_ok_iff, Prod.mk.injEq] at hs
    exact hquiet hs.2.1.symm

omit [Wire Cmd] in
theorem handleVoteRequest_response {T : Term} {li : Option LogIndex} {lt : Option Term}
    {m : RaftMessage Cmd} (hs : s.handleVoteRequest clk p T li lt = .ok (s', m)) :
    ∃ granted, m = .requestVoteResponse s.c.currentTerm granted := by
  unfold handleVoteRequest at hs
  split at hs
  · simp at hs
  split at hs
  · simp only [Except.pure_eq_ok_iff, Prod.mk.injEq] at hs
    exact ⟨_, hs.2.symm⟩
  · simp only [Except.pure_eq_ok_iff, Prod.mk.injEq] at hs
    exact ⟨_, hs.2.symm⟩

omit [Wire Cmd] in
theorem handleAppendEntries_response {T : Term} {ci pi : Option LogIndex} {pt : Option Term}
    {es : Log Cmd} {m : RaftMessage Cmd} {effects : Effects Cmd}
    (hs : s.handleAppendEntries clk p T ci pi pt es = .ok (s', m, effects)) :
    ∃ index success, m = .appendEntriesResponse s.c.currentTerm index success := by
  unfold handleAppendEntries at hs
  simp only at hs
  split at hs
  · simp only [Except.pure_eq_ok_iff, Prod.mk.injEq] at hs
    exact ⟨_, _, hs.2.1.symm⟩
  split at hs
  · simp at hs
  split at hs
  · split at hs
    · simp at hs
    split at hs
    · simp only [Except.pure_eq_ok_iff, Prod.mk.injEq] at hs
      exact ⟨_, _, hs.2.1.symm⟩
    · simp only [Except.bind_eq_ok_iff, Except.pure_eq_ok_iff, Prod.mk.injEq, Prod.exists] at hs
      obtain ⟨start, -, log, drops, -, s'', apps, -, -, rfl, -⟩ := hs
      exact ⟨_, _, rfl⟩
  · simp at hs

theorem handle_slices {m : RaftMessage Cmd} {effects : Effects Cmd} (hk : s.core.NextWithin)
    (hs : s.handle clk p m = .ok (s', msgs, effects)) : s'.c.log.SlicedBy msgs := by
  cases m with
  | requestVote T li lt =>
    simp only [handle, Except.bind_eq_ok_iff, Except.pure_eq_ok_iff, Prod.mk.injEq,
      Prod.exists] at hs
    obtain ⟨s'', m', hs, rfl, rfl, -⟩ := hs
    obtain ⟨granted, rfl⟩ := handleVoteRequest_response hs
    intro x hx _ _ _ _ _ hbody
    obtain rfl := List.mem_singleton.mp hx
    cases hbody
  | requestVoteResponse T granted =>
    simp only [handle, Except.bind_eq_ok_iff, Except.pure_eq_ok_iff, Prod.mk.injEq,
      Prod.exists] at hs
    obtain ⟨s'', msgs', hs, rfl, rfl, -⟩ := hs
    exact handleVoteResponse_slices hs
  | appendEntries T ci pi pt es =>
    simp only [handle, Except.bind_eq_ok_iff, Except.pure_eq_ok_iff, Prod.mk.injEq,
      Prod.exists] at hs
    obtain ⟨s'', m', effects', hs, rfl, rfl, -⟩ := hs
    obtain ⟨index, success, rfl⟩ := handleAppendEntries_response hs
    intro x hx _ _ _ _ _ hbody
    obtain rfl := List.mem_singleton.mp hx
    cases hbody
  | appendEntriesResponse T i success =>
    simp only [handle, Except.bind_eq_ok_iff, Except.pure_eq_ok_iff, Prod.mk.injEq,
      Prod.exists] at hs
    obtain ⟨s'', msgs', apps, hs, rfl, rfl, -⟩ := hs
    exact handleAppendEntriesResponse_slices hk hs

end State

namespace Node

variable {n n' : Node NodeID Cmd} {a : Action NodeID Cmd} {msgs : Outgoing NodeID Cmd}

/-- The messages a step to `n'` comes up with: what it sends, or holds back until the state is
persisted. Responses that are sent have been held back before. -/
def produced (a : Action NodeID Cmd) (n' : Node NodeID Cmd) (msgs : Outgoing NodeID Cmd) :
    Outgoing NodeID Cmd :=
  match a with
  | .handle _ => n'.pending
  | .respond => []
  | _ => msgs

/-- A node whose next indexes are within its log produces requests that are slices of it. -/
theorem step_slices (hs : n.step a = .ok (n', msgs)) (hk : n.state.core.NextWithin) :
    n'.state.c.log.SlicedBy (produced a n' msgs) := by
  have hnil : ∀ {log : Log Cmd} {msgs : Outgoing NodeID Cmd}, msgs = [] → log.SlicedBy msgs := by
    rintro log _ rfl
    exact State.slicedBy_nil
  cases a with
  | election clk =>
    simp only [step, Except.bind_eq_ok_iff, Except.pure_eq_ok_iff, Prod.mk.injEq, Prod.exists,
      locked_eq_ok] at hs
    obtain ⟨s', msgs', hs, rfl, rfl⟩ := hs
    rcases State.maybeBeginElection_eq_ok hs with ⟨-, rfl⟩ | ⟨T, -, -, -, rfl⟩
    · exact hnil rfl
    · intro x hx _ _ _ _ _ hbody
      obtain ⟨p, -, rfl⟩ := List.mem_map.mp hx
      cases hbody
  | replicate clk =>
    simp only [step, Except.bind_eq_ok_iff, Except.pure_eq_ok_iff, Prod.mk.injEq, Prod.exists,
      locked_eq_ok] at hs
    obtain ⟨s', msgs', hs, rfl, rfl⟩ := hs
    exact State.replicateLog_slices hs hk
  | handle clk =>
    simp only [step] at hs
    split at hs
    · simp only [Except.bind_eq_ok_iff, Except.pure_eq_ok_iff, Prod.mk.injEq, Prod.exists,
        locked_eq_ok] at hs
      obtain ⟨s', responses, effects, hs, rfl, rfl⟩ := hs
      exact State.handle_slices hk hs
    · simp at hs
  | clientReplicate clk =>
    simp only [step] at hs
    split at hs
    · simp only [Except.bind_eq_ok_iff, Except.pure_eq_ok_iff, Prod.mk.injEq, Prod.exists,
        locked_eq_ok] at hs
      obtain ⟨s', msgs', hs, rfl, rfl⟩ := hs
      exact State.replicateLog_slices hs hk
    · simp at hs
  | receive _ _ | snapshot =>
    simp only [step] at hs
    split at hs
    · simp only [Except.bind_eq_ok_iff, Except.pure_eq_ok_iff, Prod.mk.injEq] at hs
      obtain ⟨_, -, -, rfl⟩ := hs
      exact hnil rfl
    · simp at hs
  | persist ok =>
    simp only [step] at hs
    split at hs
    · split at hs
      · simp only [Except.pure_eq_ok_iff, Prod.mk.injEq] at hs
        exact hnil hs.2.symm
      · simp only [Except.pure_eq_ok_iff, Prod.mk.injEq] at hs
        exact hnil hs.2.symm
    · simp at hs
  | respond => exact hnil rfl
  | clientRequest _ | clientAppend =>
    simp only [step] at hs
    split at hs
    · simp only [Except.pure_eq_ok_iff, Prod.mk.injEq] at hs
      exact hnil hs.2.symm
    · simp at hs
  | crash =>
    simp only [step, Except.pure_eq_ok_iff, Prod.mk.injEq] at hs
    exact hnil hs.2.symm

end Node

namespace Cluster

variable {cfg : Config NodeID} {c c' : Cluster NodeID Cmd}

/-- When a leader handles a successful response, the reported index does not exceed its log. -/
def AcksWithinLog (c : Cluster NodeID Cmd) (l : Label NodeID Cmd) : Prop :=
  match l.2, (c.nodes l.1).raftLoop with
  | .handle _, .stepped _ (.appendEntriesResponse _ (some index) true) =>
    (c.nodes l.1).state.isLeader → (index : ℕ) ≤ (c.nodes l.1).state.c.log.inner.length
  | _, _ => True

/-- The index that a successful response reports when it is handled. -/
def reported : Action NodeID Cmd → RaftLoop NodeID Cmd → Option LogIndex
  | .handle _, .stepped _ (.appendEntriesResponse _ (some index) true) => some index
  | _, _ => none

omit [DecidableEq NodeID] [Wire Cmd] in
theorem acksWithinLog_iff {l : Label NodeID Cmd} : AcksWithinLog c l ↔
    ∀ index ∈ reported l.2 (c.nodes l.1).raftLoop, (c.nodes l.1).state.isLeader →
      (index : ℕ) ≤ (c.nodes l.1).state.c.log.inner.length := by
  unfold AcksWithinLog reported
  split <;> simp

instance (c : Cluster NodeID Cmd) (l : Label NodeID Cmd) : Decidable (AcksWithinLog c l) :=
  decidable_of_iff _ acksWithinLog_iff.symm

/-- The next indexes of leaders are within their logs or right behind them, and the requests that
any step produces are slices of the log of their sender. -/
structure RequestsSliceLog (cfg : Config NodeID) (c : Cluster NodeID Cmd) : Prop where
  next : ∀ i ∈ cfg.ids, ∀ nextIndexes matchIndexes lastReplication,
    (c.nodes i).state.r = .leader nextIndexes matchIndexes lastReplication →
    ∀ p ∈ cfg.peers i, ∃ next : LogIndex, nextIndexes.lookup p = some next ∧ 1 ≤ (next : ℕ) ∧
      (next : ℕ) ≤ (c.nodes i).state.c.log.inner.length + 1
  requests : ∀ i ∈ cfg.ids, ∀ a n msgs, (c.nodes i).step a = .ok (n, msgs) →
    n.state.c.log.SlicedBy (Node.produced a n msgs)

variable [DecidableEq Cmd]

theorem nextWithin_step {i : NodeID} {a : Action NodeID Cmd} (hwf : c.WellFormed cfg)
    (hk : ∀ i, (c.nodes i).state.core.NextWithin) (hP : AcksWithinLog c (i, a))
    (hs : c.step cfg (i, a) = .ok c') : ∀ i, (c'.nodes i).state.core.NextWithin := by
  intro j
  obtain ⟨-, -, n, msgs, hn, rfl⟩ := step_eq_ok hs
  rcases eq_or_ne j i with rfl | hj
  · rw [update_self]
    rcases Classical.em (a = .crash) with rfl | ha
    · simp only [Node.step, Except.pure_eq_ok_iff, Prod.mk.injEq] at hn
      obtain ⟨rfl, -⟩ := hn
      trivial
    · obtain ⟨recv, fresh, hm, hrecv, -⟩ := Node.step_move hwf.ready hn ha
      refine hm.nextWithin (hk j) fun p T index hpm hlead => ?_
      obtain ⟨hloop, clk, rfl⟩ := hrecv _ _ hpm
      simp only [AcksWithinLog, hloop] at hP
      simpa [State.core] using hP (State.isLeader_iff.mpr hlead)
  · rw [update_of_ne hj]
    exact hk j

/-- If reported indexes do not exceed the logs of leaders, requests are slices of these logs. -/
theorem requests_slice_log (hrun : Run (step cfg) AcksWithinLog (boot cfg) c) :
    RequestsSliceLog cfg c := by
  have hall : c.WellFormed cfg ∧ ∀ i, (c.nodes i).state.core.NextWithin := by
    refine Run.invariant (I := fun c => c.WellFormed cfg ∧ ∀ i, (c.nodes i).state.core.NextWithin)
      hrun ⟨.boot, fun i => trivial⟩ ?_
    rintro c ⟨i, a⟩ c' ⟨hwf, hk⟩ hP hs
    exact ⟨hwf.step hs, nextWithin_step hwf hk hP hs⟩
  obtain ⟨hwf, hk⟩ := hall
  refine ⟨fun i hi next mtch lr hr p hp => ?_, fun i hi a n msgs hs => Node.step_slices hs (hk i)⟩
  have hki := hk i
  simp only [Core.NextWithin, State.core, hr, Role.stance] at hki
  obtain ⟨ni, hni, hle⟩ := hki p (hwf.peers i ▸ hp)
  have := ni.natPred_add_one
  simp only [Log.length_wire] at hle
  exact ⟨ni, hni, ni.pos, by omega⟩

end Cluster

namespace Example

open Cluster

/-- What the log replication loop of `i` would send at `t`. -/
def heartbeats (i : String) (t : ℕ) (c : Cluster String ℕ) : List (String × RaftMessage ℕ) :=
  match (c.nodes i).step (.replicate (at_ t)) with
  | .ok (_, msgs) => msgs
  | .error _ => []

theorem heartbeats_eq {c : Cluster String ℕ} {i : String} {t : ℕ} {x : String × RaftMessage ℕ}
    (hx : x ∈ heartbeats i t c) :
    ∃ n msgs, (c.nodes i).step (.replicate (at_ t)) = .ok (n, msgs) ∧ x ∈ msgs := by
  unfold heartbeats at hx
  split at hx
  · next n msgs hs => exact ⟨n, msgs, hs, hx⟩
  · cases hx

theorem requests_slice_log_replicated : ∃ c, Run (step pair) AcksWithinLog (boot pair) c ∧
    heartbeats "a" 300000000 c = [("b", .appendEntries 1 (some 1) (some 1) (some 1) ⟨[]⟩)] ∧
    RequestsSliceLog pair c := by
  have hexec : (Run.exec (step pair) (fun c l => decide (AcksWithinLog c l)) replicated
      (boot pair)).map (heartbeats "a" 300000000) =
      some [("b", .appendEntries 1 (some 1) (some 1) (some 1) ⟨[]⟩)] := by
    decide +kernel
  obtain ⟨c, hrun, hc⟩ := Run.exists_of_exec hexec fun _ _ => of_decide_eq_true
  exact ⟨c, hrun, hc, requests_slice_log hrun⟩

/-- `c` has an empty log, but tells `a` that index 1 precedes its entries. -/
theorem requests_slice_log_leftover : ¬ ∀ c : Cluster String ℕ,
    Run (step three) CrashFree (boot three) c → RequestsSliceLog three c := by
  intro hall
  have hexec : (Run.exec (step three) crashFree leftover (boot three)).map
      (heartbeats "c" 100000000) = some [("a", .appendEntries 3 none (some 1) none ⟨[]⟩),
        ("b", .appendEntries 3 none none none ⟨[]⟩)] := by
    decide +kernel
  obtain ⟨c, hrun, hc⟩ := Run.exists_of_exec hexec fun _ _ => of_decide_eq_true
  have hx : ("a", RaftMessage.appendEntries 3 none (some 1) none ⟨[]⟩) ∈
      heartbeats "c" 100000000 c := by
    rw [hc]
    exact List.mem_cons_self
  obtain ⟨n, msgs, hs, hmem⟩ := heartbeats_eq hx
  have hslice := (hall c hrun).requests "c" (by decide) _ n msgs hs _ hmem _ _ _ _ _ rfl
  exact absurd (hslice.prev_none.mp rfl) (by simp)

end Example

end Miniraft

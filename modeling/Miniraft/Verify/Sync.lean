import Miniraft.Verify.Elect

/-!
# A leader can replicate its log

What the Raft-message loops of a leader and of a follower do with the requests of the leader and the
responses of the follower, and the runs that come of it: the follower rejects until the leader has
moved far enough back, then takes over what it is sent (`Timed.run_sync`). When the last peer has
done so the leader commits its log.
-/

namespace Miniraft

open Consensus

variable {NodeID Cmd : Type} [DecidableEq NodeID] [Wire Cmd]

omit [DecidableEq NodeID] [Wire Cmd] in
theorem Log.mem_segment {l : Log Cmd} {idx : LogIndex} {e : LogEntry Cmd} {lo hi : ℕ}
    (he : l.get idx = some e) (hlo : lo < idx) (hhi : idx ≤ hi) : (idx, e) ∈ l.segment lo hi := by
  have hpred := idx.natPred_add_one
  refine List.mem_filterMap.mpr ⟨idx.natPred, List.mem_range'_1.mpr ⟨by omega, by omega⟩, ?_⟩
  rw [show l.inner[idx.natPred]? = some e from he, Option.map_some, PNat.succPNat_natPred]

/-- The holdings of a follower after it has got the log `log` and the commit index of its leader. -/
def Holdings.followed (x : Holdings Cmd) (log : Log Cmd) (ci : Option LogIndex) : Holdings Cmd :=
  if upTo x.commitIndex < upTo ci then ⟨log, min ci log.highestIndex, min ci log.highestIndex⟩
  else ⟨log, x.commitIndex, x.lastApplied⟩

def Node.Follows (n : Node NodeID Cmd) : Prop := ∃ leader v, n.state.r = .follower leader v

/-! ## The follower -/

namespace Node.Resting

variable {n : Node NodeID Cmd} {T : Term} {x : Holdings Cmd} {i : NodeID}
  {ci pi : Option LogIndex} {pt : Option Term} {es : Log Cmd} {t : Instant}

omit [DecidableEq NodeID] [Wire Cmd] in
theorem isLeader_of_follows (h : n.Follows) : n.state.isLeader = false := by
  obtain ⟨leader, v, hr⟩ := h
  simp [State.isLeader, hr]

/-- A follower without the previous entry rejects. -/
theorem rejects (ci : Option LogIndex) (es : Log Cmd) (h : n.Resting T x) (hr : n.Follows)
    (hi : n.state.c.id ≠ i)
    (hc : n.state.Inconsistent pi pt) :
    ∃ n', n.Processes t i (.appendEntries T ci pi pt es) n'
        [(i, .appendEntriesResponse T x.log.highestIndex false)] ∧
      n'.Resting T x ∧ n'.Follows := by
  obtain ⟨rfl, rfl, hraft, hclient⟩ := h
  have hhandle : n.state.handle (.still t) i (.appendEntries n.state.c.currentTerm ci pi pt es) =
      .ok (n.state.following (.still t) i, [(i, .appendEntriesResponse n.state.c.currentTerm
        n.state.c.log.highestIndex false)], ⟨[], []⟩) := by
    simp only [State.handle]
    rw [State.handleAppendEntries_eq (isLeader_of_follows hr), if_neg hi, if_pos hc]
    rfl
  obtain ⟨q, hq⟩ := State.exists_persistent (s := n.state.following (.still t) i)
    (by simp [State.following])
  exact ⟨_, ⟨hraft, _, _, _, _, State.maybeStepDown_of_le le_rfl, hhandle, hq, rfl⟩,
    ⟨rfl, rfl, hraft, hclient⟩, _, _, rfl⟩

omit [DecidableEq NodeID] [Wire Cmd] in
/-- The commit index of the leader is followed. -/
theorem followCommitIndex_followed {s : State NodeID Cmd}
    (hlog : s.c.log.inner.length < 2 ^ 62) (hci : upTo ci ≤ s.c.log.inner.length)
    (hle : upTo s.c.lastApplied ≤ upTo s.c.commitIndex) :
    ∃ s' apps, s.followCommitIndex ci = .ok (s', apps) ∧ s'.r = s.r ∧
      s'.c.currentTerm = s.c.currentTerm ∧
      s'.holdings = s.holdings.followed s.c.log ci := by
  unfold Holdings.followed
  split
  · next hlt =>
    obtain ⟨apps, happs⟩ := State.followCommitIndex_of_lt hlt hlog
      (le_min (hle.trans hlt.le) ((hle.trans hlt.le).trans hci))
    exact ⟨_, _, happs, rfl, rfl, rfl⟩
  · next hge => exact ⟨_, _, State.followCommitIndex_of_le (not_lt.mp hge), rfl, rfl, rfl⟩

/-- A follower with the previous entry accepts. -/
theorem accepts (ci : Option LogIndex) (es : Log Cmd) (h : n.Resting T x) (hr : n.Follows)
    (hi : n.state.c.id ≠ i)
    (hc : ¬ n.state.Inconsistent pi pt) (hpi : upTo pi ≤ x.log.inner.length)
    (hlog : x.log.inner.length < 2 ^ 62) {l : Log Cmd}
    (hl : l.inner = splice (·.term) x.log.inner (upTo pi) es.inner)
    (hlen : l.inner.length < 2 ^ 62) (hci : upTo ci ≤ l.inner.length)
    (hle : upTo x.lastApplied ≤ upTo x.commitIndex) :
    ∃ n', n.Processes t i (.appendEntries T ci pi pt es) n'
        [(i, .appendEntriesResponse T l.highestIndex true)] ∧
      n'.Resting T (x.followed l ci) ∧ n'.Follows ∧
      (T, upTo pi + es.inner.length) ∈ n'.history.accepted ∧
      ∀ idx e, l.get idx = some e → upTo x.lastApplied < idx →
        idx ≤ upTo (x.followed l ci).lastApplied → (idx, e) ∈ n'.history.applied := by
  obtain ⟨rfl, rfl, hraft, hclient⟩ := h
  obtain ⟨l⟩ := l
  obtain rfl := hl
  let s₁ := n.state.spliced (.still t) i pi es
  obtain ⟨s₂, apps, hfollow, hr₂, hterm₂, hx₂⟩ := followCommitIndex_followed (s := s₁) hlen hci hle
  have hlog₂ : s₂.c.log = s₁.c.log := (State.keeps_followCommitIndex hfollow).log
  have happend : n.state.handleAppendEntries (.still t) i n.state.c.currentTerm ci pi pt es =
      .ok (s₂, .appendEntriesResponse n.state.c.currentTerm s₂.c.log.highestIndex true,
        ⟨apps, dropped (·.term) n.state.c.log.inner (upTo pi) es.inner⟩) := by
    rw [State.handleAppendEntries_of_le (isLeader_of_follows hr) hi hc hlog hpi, hfollow]
    rfl
  obtain ⟨hexec, -⟩ := State.executes_handleAppendEntries happend
  have hhandle : n.state.handle (.still t) i (.appendEntries n.state.c.currentTerm ci pi pt es) =
      .ok (s₂, [(i, .appendEntriesResponse n.state.c.currentTerm s₂.c.log.highestIndex true)],
        ⟨apps, dropped (·.term) n.state.c.log.inner (upTo pi) es.inner⟩) := by
    simp only [State.handle, happend]
    rfl
  obtain ⟨q, hq⟩ := State.exists_persistent (s := s₂) (fun votes hr => by
    rw [hr₂] at hr
    cases hr)
  rw [hlog₂] at hhandle
  refine ⟨_, ⟨hraft, _, _, _, _, State.maybeStepDown_of_le le_rfl, hhandle, hq, rfl⟩,
    ⟨hterm₂, hx₂, hraft, hclient⟩, ⟨_, _, hr₂⟩, List.mem_cons_self, fun idx e he hlo hhi => ?_⟩
  refine List.mem_append_right _ ?_
  rw [show apps = _ from hexec.apps_eq, hlog₂]
  exact Log.mem_segment he hlo (hhi.trans_eq (congrArg (upTo ·.lastApplied) hx₂.symm))

end Node.Resting

/-! ## The leader -/

namespace State

variable {s : State NodeID Cmd} {next : Map NodeID LogIndex} {mtch : Map NodeID (Option LogIndex)}
  {lr : Option Instant} {p : NodeID} {idx : LogIndex}

omit [Wire Cmd] in
/-- As long as a peer has not reported anything, nothing is committed. -/
theorem advanceCommitIndex_of_missing (hr : s.r = .leader next mtch lr)
    (hp : mtch.lookup p = some none) : s.advanceCommitIndex = .ok (s, []) := by
  have hnone : mtch.values.mapM id = none := by
    cases hvs : mtch.values.mapM id with
    | none => rfl
    | some vs =>
      have hmem : none ∈ mtch.values := List.mem_map.mpr ⟨_, AList.mem_lookup_iff.mp hp, rfl⟩
      rw [eq_map_some_of_mapM hvs] at hmem
      simp at hmem
  simp only [advanceCommitIndex, hr, hnone]
  rfl

omit [Wire Cmd] in
/-- If all peers have reported the same index, it is committed. -/
theorem advanceCommitIndex_of_all {e : LogEntry Cmd} (hr : s.r = .leader next mtch lr)
    (hp : mtch.lookup p = some (some idx))
    (hall : ∀ q m, mtch.lookup q = some m → m = some idx) (he : s.c.log.get idx = some e)
    (hterm : e.term = s.c.currentTerm) : s.advanceCommitIndex = advanceStateMachine
      { s with c := { s.c with commitIndex := max s.c.commitIndex (some idx) } } := by
  have hvalues : ∀ m ∈ mtch.values, m = some idx := by
    intro m hm
    obtain ⟨⟨q, m⟩, hmem, rfl⟩ := List.mem_map.mp hm
    exact hall q m (AList.mem_lookup_iff.mpr hmem)
  obtain ⟨vs, hvs⟩ := exists_mapM_of_forall fun m hm => ⟨idx, hvalues m hm⟩
  have hmap := eq_map_some_of_mapM hvs
  have hsame : ∀ v ∈ vs, v = idx := fun v hv =>
    Option.some.inj (hvalues (some v) (hmap ▸ List.mem_map_of_mem hv))
  have hne : vs ≠ [] := by
    rintro rfl
    exact Map.values_ne_nil hp hmap
  obtain ⟨n, hn⟩ : ∃ n, lowerMedian vs = some n := by
    cases h : lowerMedian vs with
    | none => exact absurd (lowerMedian_eq_none h) hne
    | some n => exact ⟨n, rfl⟩
  have hcount : ∀ m, m ≤ n ↔ vs.length < 2 * vs.countP (m ≤ ·) := le_lowerMedian_iff hn
  have hpos := List.length_pos_of_ne_nil hne
  have hle : idx ≤ n := by
    rw [hcount, List.countP_eq_length.mpr fun v hv => by simp [hsame v hv]]
    omega
  have hge : n ≤ idx := by
    by_contra hlt
    have hzero : vs.countP (n ≤ ·) = 0 := List.countP_eq_zero.mpr fun v hv => by
      rw [hsame v hv]
      simpa using hlt
    have := (hcount n).mp le_rfl
    omega
  obtain rfl := le_antisymm hle hge
  exact advanceCommitIndex_of_median hr hvs hn he hterm

omit [Wire Cmd] in
/-- If the peers in `ys` have reported the last index, it is committed once these are all. -/
theorem advanceCommitIndex_reported {peers ys : List NodeID} {e : LogEntry Cmd}
    (hr : s.r = .leader next mtch lr) (hmtch : ∀ q, mtch.lookup q =
      if q ∈ peers then some (if q ∈ ys then some idx else none) else none)
    (hp : p ∈ peers) (hpy : p ∈ ys) (hlen : s.c.log.inner.length = idx) (hmem : (idx : ℕ) < 2 ^ 62)
    (he : s.c.log.get idx = some e) (hterm : e.term = s.c.currentTerm)
    (hle : upTo s.c.lastApplied ≤ upTo s.c.commitIndex) (hlt : upTo s.c.commitIndex < idx) :
    ∃ ci la apps, s.advanceCommitIndex =
        .ok ({ s with c := { s.c with commitIndex := ci, lastApplied := la } }, apps) ∧
      upTo la ≤ upTo ci ∧ ((∃ q ∈ peers, q ∉ ys) → upTo ci < idx) ∧
      ((∀ q ∈ peers, q ∈ ys) → ci = some idx ∧ la = some idx ∧ (idx, e) ∈ apps) := by
  by_cases hall : ∀ q ∈ peers, q ∈ ys
  · have hsame : ∀ q m, mtch.lookup q = some m → m = some idx := by
      intro q m hm
      rw [hmtch q] at hm
      split at hm
      · next hq => rw [← Option.some.inj hm, if_pos (hall q hq)]
      · cases hm
    have hadv := advanceCommitIndex_of_all hr
      ((hmtch p).trans (by rw [if_pos hp, if_pos hpy])) hsame he hterm
    have hmax : max s.c.commitIndex (some idx) = some idx := by
      apply upTo_inj
      rw [upTo_max, upTo_some]
      omega
    rw [hmax] at hadv
    obtain ⟨apps, happs⟩ := advanceStateMachine_of_le
      (s := { s with c := { s.c with commitIndex := some idx } }) (by simp only; omega)
      (by simp only [upTo_some]; omega) (by simp only [upTo_some]; omega)
    have hexec := executes_advanceStateMachine happs
    refine ⟨some idx, some idx, apps, hadv.trans happs, le_rfl,
      fun hq => absurd hall (by push Not; exact hq), fun _ => ⟨rfl, rfl, ?_⟩⟩
    rw [hexec.apps_eq]
    exact Log.mem_segment he (hle.trans_lt hlt) le_rfl
  · have hsome : ∃ q ∈ peers, q ∉ ys := by
      push Not at hall
      exact hall
    obtain ⟨q, hq, hqy⟩ := hsome
    have hadv := advanceCommitIndex_of_missing hr
      ((hmtch q).trans (by rw [if_pos hq, if_neg hqy]))
    exact ⟨s.c.commitIndex, s.c.lastApplied, [], hadv, hle, fun _ => hlt, fun h => absurd h hall⟩

end State

/-- The leader `i` of term `T` has the log `l`, whose last index is `idx`. It takes the peers in
`xs` to have all of it, and sends a peer `p` what it has from index `f p` on. -/
structure Node.Replicates (cfg : Config NodeID) (i : NodeID) (T : Term) (l : Log Cmd)
    (idx : LogIndex) (f : NodeID → LogIndex) (xs : List NodeID) (n : Node NodeID Cmd) :
    Prop where
  term : n.state.c.currentTerm = T
  log : n.state.c.log = l
  raftLoop : n.raftLoop = .idle
  clientLoop : n.clientLoop = .idle
  role : ∃ next mtch lr, n.state.r = .leader next mtch lr ∧
    (∀ p ∈ cfg.peers i, next.lookup p = some (f p)) ∧ ∀ p, mtch.lookup p =
      if p ∈ cfg.peers i then some (if p ∈ xs then some idx else none) else none
  applied_le : upTo n.state.c.lastApplied ≤ upTo n.state.c.commitIndex
  uncommitted : (∃ p ∈ cfg.peers i, p ∉ xs) → upTo n.state.c.commitIndex < idx
  done : (∀ p ∈ cfg.peers i, p ∈ xs) → n.state.c.commitIndex = some idx ∧
    n.state.c.lastApplied = some idx ∧ ∀ e, l.get idx = some e → (idx, e) ∈ n.history.applied

namespace Node.Replicates

variable {cfg : Config NodeID} {i p : NodeID} {T : Term} {l : Log Cmd} {idx : LogIndex}
  {f : NodeID → LogIndex} {xs : List NodeID} {n : Node NodeID Cmd} {t : Instant}

omit [DecidableEq NodeID] [Wire Cmd] in
theorem exists_due (lr : Option Instant) (t : Instant) :
    ∃ u, t ≤ u ∧ State.heartbeatNeeded (.still u) lr = some true := by
  cases lr with
  | none => exact ⟨t, le_rfl, rfl⟩
  | some r =>
    let u : Instant := max t (r + (heartbeatInterval + 1))
    have helapsed : heartbeatInterval < u - r := Nat.lt_sub_of_add_lt (by
      rw [Nat.add_comm]
      exact (Nat.lt_succ_self _).trans_le (le_max_right ..))
    have hrecent : ¬ u - r < minReplicationInterval := not_lt.mpr
      ((show minReplicationInterval ≤ heartbeatInterval by decide).trans helapsed.le)
    refine ⟨u, le_max_left .., ?_⟩
    simp only [State.heartbeatNeeded, Clock.still, if_neg hrecent, helapsed, decide_true]

/-- The leader sends each peer its request. -/
theorem sends (h : n.Replicates cfg i T l idx f xs) (hpeers : n.state.c.nodeIds = cfg.peers i)
    (hi : i ∈ cfg.ids) (t : Instant) : ∃ u n', t ≤ u ∧ n.step (.replicate (.still u)) =
        .ok (n', (cfg.peers i).map fun p => (p, State.request n.state.c (f p))) ∧
      n'.state.c = n.state.c ∧ n'.Replicates cfg i T l idx f xs := by
  obtain ⟨next, mtch, lr, hr, hnext, hmtch⟩ := h.role
  obtain ⟨u, hu, hdue⟩ := exists_due lr t
  obtain ⟨p, hp⟩ := cfg.exists_mem_peers hi
  have hrep := State.replicateLog_due (s := n.state) hr hdue
    (fun p hp => AList.lookup_isSome.mp (by simp [hnext p (hpeers ▸ hp)]))
    (by rw [hpeers]; exact List.ne_nil_of_mem hp)
  have hmsgs : (n.state.c.nodeIds.map fun p =>
      (p, State.request n.state.c ((next.lookup p).getD 1))) =
      (cfg.peers i).map fun p => (p, State.request n.state.c (f p)) := by
    rw [hpeers]
    exact List.map_congr_left fun p hp => by rw [hnext p hp, Option.getD_some]
  refine ⟨u, { n with state := { n.state with r := .leader next mtch (some u) } }, hu, ?_, rfl,
    { h with role := ⟨next, mtch, _, rfl, hnext, hmtch⟩ }⟩
  rw [Node.step, hrep, hmsgs]
  rfl

/-- After a rejection it moves the next index of the peer back. -/
theorem rejected (h : n.Replicates cfg i T l idx f xs) (hpeers : n.state.c.nodeIds = cfg.peers i)
    (hp : p ∈ cfg.peers i) (m : Option LogIndex) :
    ∃ n' rs, n.Processes t p (.appendEntriesResponse T m false) n' rs ∧
      n'.Replicates cfg i T l idx (Function.update f p ((f p).dec.getD 1)) xs := by
  obtain ⟨next, mtch, lr, hr, hnext, hmtch⟩ := h.role
  let nx := (f p).dec.getD 1
  let s₁ : State NodeID Cmd := { n.state with r := .leader (next.insert p nx) mtch lr }
  have hnext' : ∀ q ∈ cfg.peers i,
      (next.insert p nx).lookup q = some (Function.update f p nx q) := by
    intro q hq
    by_cases hqp : q = p
    · subst hqp
      rw [AList.lookup_insert, Function.update_self]
    · rw [AList.lookup_insert_ne hqp, Function.update_of_ne hqp, hnext q hq]
  obtain ⟨⟨s₂, msgs⟩, hrep⟩ := (State.replicateLog_ok_iff (.still t) (s := s₁) rfl).mpr
    (.inr fun q hq => AList.lookup_isSome.mp (by simp [hnext' q (hpeers ▸ hq)]))
  obtain ⟨lr', rfl⟩ := State.replicateLog_frame rfl hrep
  have hhandle : n.state.handle (.still t) p (.appendEntriesResponse T m false) =
      .ok ({ n.state with r := .leader (next.insert p nx) mtch lr' }, msgs, ⟨[], []⟩) := by
    simp only [State.handle, State.handleAppendEntriesResponse_failure hr (hnext p hp)]
    simp only [s₁, nx] at hrep
    rw [hrep]
    rfl
  obtain ⟨q, hq⟩ := State.exists_persistent
    (s := { n.state with r := .leader (next.insert p nx) mtch lr' }) (fun votes hr => by cases hr)
  refine ⟨_, _, ⟨h.raftLoop, _, _, _, _, State.maybeStepDown_of_le h.term.ge, hhandle, hq, rfl⟩,
    ⟨h.term, h.log, h.raftLoop, h.clientLoop, ⟨_, _, _, rfl, hnext', hmtch⟩, h.applied_le,
      h.uncommitted, fun hall => ?_⟩⟩
  simpa [History.handled] using h.done hall

/-- After a success it takes the peer to have the log, and commits the log if it was the last. -/
theorem acked (h : n.Replicates cfg i T l idx f xs) (hp : p ∈ cfg.peers i) (hpxs : p ∉ xs)
    (hlen : l.inner.length = idx) (hmem : (idx : ℕ) < 2 ^ 62) {e : LogEntry Cmd}
    (he : l.get idx = some e) (hterm : e.term = T) :
    ∃ n' rs, n.Processes t p (.appendEntriesResponse T (some idx) true) n' rs ∧
      n'.Replicates cfg i T l idx (Function.update f p (idx + 1)) (xs ++ [p]) := by
  obtain ⟨next, mtch, lr, hr, hnext, hmtch⟩ := h.role
  have hlt := h.uncommitted ⟨p, hp, hpxs⟩
  let s₁ : State NodeID Cmd := { n.state with
    r := .leader (next.insert p (idx + 1)) (mtch.insert p (some idx)) lr }
  have hnext' : ∀ q ∈ cfg.peers i,
      (next.insert p (idx + 1)).lookup q = some (Function.update f p (idx + 1) q) := by
    intro q hq
    by_cases hqp : q = p
    · subst hqp
      rw [AList.lookup_insert, Function.update_self]
    · rw [AList.lookup_insert_ne hqp, Function.update_of_ne hqp, hnext q hq]
  have hmtch' : ∀ q, (mtch.insert p (some idx)).lookup q =
      if q ∈ cfg.peers i then some (if q ∈ xs ++ [p] then some idx else none) else none := by
    intro q
    by_cases hqp : q = p
    · subst hqp
      rw [AList.lookup_insert, if_pos hp, if_pos (by simp)]
    · rw [AList.lookup_insert_ne hqp, hmtch q]
      simp [hqp]
  obtain ⟨ci, la, apps, hadv, hle, hopen, hdone⟩ := State.advanceCommitIndex_reported (s := s₁) rfl
    hmtch' hp (by simp) (h.log ▸ hlen) hmem (h.log ▸ he) (hterm.trans h.term.symm) h.applied_le hlt
  let s₂ : State NodeID Cmd :=
    { s₁ with c := { s₁.c with commitIndex := ci, lastApplied := la } }
  have hhandle : n.state.handle (.still t) p (.appendEntriesResponse T (some idx) true) =
      .ok (s₂, [], ⟨apps, []⟩) := by
    have hrespond : n.state.handleAppendEntriesResponse (.still t) p true (some idx) =
        .ok (s₂, [], apps) := by
      rw [State.handleAppendEntriesResponse_success hr (hnext p hp) ((hmtch p).trans (if_pos hp)),
        LogIndex.inc_of_lt (by omega)]
      refine Except.bind_eq_ok_iff.mpr ⟨_, rfl, ?_⟩
      exact Except.bind_eq_ok_iff.mpr ⟨_, hadv, rfl⟩
    simp only [State.handle, hrespond]
    rfl
  obtain ⟨q, hq⟩ := State.exists_persistent (s := s₂) (fun votes hr => by cases hr)
  refine ⟨_, _, ⟨h.raftLoop, _, _, _, _, State.maybeStepDown_of_le h.term.ge, hhandle, hq, rfl⟩,
    ⟨h.term, h.log, h.raftLoop, h.clientLoop, ⟨_, _, _, rfl, hnext', hmtch'⟩, hle, hopen,
      fun hall => ?_⟩⟩
  obtain ⟨hci, hla, happs⟩ := hdone hall
  refine ⟨hci, hla, fun e' he' => ?_⟩
  obtain rfl : e' = e := Option.some.inj (he'.symm.trans he)
  exact List.mem_append_right _ happs

end Node.Replicates

/-! ## A leader and a peer -/

/-- What a follower may have before it gets the log of the leader of term `T`, whose last index is
`idx`: nothing of this term, and nothing committed from there on. -/
structure Holdings.Behind (T : Term) (idx : LogIndex) (x : Holdings Cmd) : Prop where
  applied_le : upTo x.lastApplied ≤ upTo x.commitIndex
  commit_lt : upTo x.commitIndex < idx
  older : ∀ e ∈ x.log.inner, e.term < T
  memory : x.log.inner.length < 2 ^ 62

/-- A follower has the last entry `e` of the leader's log, and not committed it. -/
def Node.Synced (T : Term) (idx : LogIndex) (e : LogEntry Cmd) (n : Node NodeID Cmd) : Prop :=
  n.Follows ∧ ∃ y, n.Resting T y ∧ upTo y.lastApplied ≤ upTo y.commitIndex ∧
    upTo y.commitIndex < idx ∧ y.log.inner.length = idx ∧ y.log.get idx = some e.wire

/-- The leader's log has the entry `e` of its term last. -/
structure Log.EndsWith (l : Log Cmd) (T : Term) (idx : LogIndex) (e : LogEntry Cmd) : Prop where
  length : l.inner.length = idx
  entry : l.get idx = some e
  term : e.term = T
  memory : (idx : ℕ) < 2 ^ 62

namespace Log.EndsWith

variable {l : Log Cmd} {T : Term} {idx : LogIndex} {e : LogEntry Cmd} {x : Holdings Cmd}

omit [DecidableEq NodeID] in
/-- What a follower that is behind has after it has accepted. -/
theorem followed {n : LogIndex} {ci : Option LogIndex} (hl : l.EndsWith T idx e)
    (hn : n ≤ idx) (hx : x.Behind T idx) (hpi : n.natPred ≤ x.log.inner.length)
    (hci : upTo ci < idx) {l' : Log Cmd}
    (hl' : l'.inner = splice (·.term) x.log.inner n.natPred (l.wire.inner.drop n.natPred)) :
    l'.inner.length = idx ∧ l'.get idx = some e.wire ∧
      upTo (x.followed l' ci).lastApplied ≤ upTo (x.followed l' ci).commitIndex ∧
      upTo (x.followed l' ci).commitIndex < idx := by
  have hpred := idx.natPred_add_one
  have hpred' := n.natPred_add_one
  have hle : (n : ℕ) ≤ idx := hn
  have hwlen : l.wire.inner.length = idx := (List.length_map _).trans hl.length
  have hlast : (l.wire.inner.drop n.natPred)[idx.natPred - n.natPred]? = some e.wire := by
    rw [List.getElem?_drop, Nat.add_sub_cancel' (by omega)]
    exact (Log.get_wire ..).trans (by rw [hl.entry]; rfl)
  have hnewer : ∀ e' ∈ x.log.inner, e'.term ≠ e.wire.term := fun e' he' =>
    ((hx.older e' he').trans_eq hl.term.symm).ne
  obtain ⟨hlen, hget⟩ := splice_of_newer hpi hlast (by rw [List.length_drop]; omega) hnewer
  rw [← hl', List.length_drop] at hlen
  rw [← hl', Nat.add_sub_cancel' (by omega)] at hget
  refine ⟨by omega, hget, ?_⟩
  unfold Holdings.followed
  split
  · refine ⟨le_rfl, ?_⟩
    rw [upTo_min]
    omega
  · exact ⟨hx.applied_le, hx.commit_lt⟩

omit [DecidableEq NodeID] [Wire Cmd] in
/-- A follower that passes the consistency check has the previous entry. -/
theorem length_of_consistent {n : LogIndex} {m : Node NodeID Cmd}
    (hl : l.EndsWith T idx e) (hn : n ≤ idx) (hm : m.Resting T x)
    (hc : ¬ m.state.Inconsistent n.dec (n.dec.bind fun j => (l.get j).map (·.term))) :
    n.natPred ≤ x.log.inner.length := by
  obtain ⟨-, rfl, -, -⟩ := hm
  have hdec := upTo_dec n
  have hlen := hl.length
  have hle : (n : ℕ) ≤ idx := hn
  have hpred := n.natPred_add_one
  cases hd : n.dec with
  | none =>
    rw [hd, upTo_none] at hdec
    omega
  | some j =>
    rw [hd, upTo_some] at hdec
    have hpred' := j.natPred_add_one
    have hget : l.get j = some l.inner[j.natPred] := List.getElem?_eq_getElem (by omega)
    simp only [State.Inconsistent, hd, Option.bind_some, hget, Option.map_some, ne_eq,
      not_not, Option.map_eq_some_iff] at hc
    obtain ⟨e', he', -⟩ := hc
    have hlt := (List.getElem?_eq_some_iff.mp he').1
    rw [← hdec, ← hpred']
    exact hlt

end Log.EndsWith

namespace Timed

open Cluster

variable {cfg : Config NodeID} {c : Timed NodeID Cmd} {i p : NodeID} {T : Term} {l : Log Cmd}
  {idx : LogIndex} {e : LogEntry Cmd} {f : NodeID → LogIndex} {xs : List NodeID}
  {x : Holdings Cmd} [DecidableEq Cmd]

/-- The leader sends all peers what they do not have. -/
theorem run_send (hwf : c.WellFormed cfg) (hi : i ∈ cfg.ids)
    (h : (c.nodes i).Replicates cfg i T l idx f xs) :
    ∃ c', Run (step cfg) Orderly c c' ∧ (c'.nodes i).Replicates cfg i T l idx f xs ∧
      (c'.nodes i).state.c = (c.nodes i).state.c ∧ (∀ q, q ≠ i → c'.nodes q = c.nodes q) ∧
      ∀ p ∈ cfg.peers i, ⟨i, p, .appendEntries T (c.nodes i).state.c.commitIndex (f p).dec
        ((f p).dec.bind fun j => (l.get j).map (·.term)) ⟨l.wire.inner.drop (f p).natPred⟩⟩ ∈
        c'.network := by
  obtain ⟨u, n, hu, hs, hc, hn⟩ := h.sends (hwf.peers i) hi c.now
  have hrun := run_step hi (a := .replicate (.still u)) trivial
    ⟨rfl, appendsAsLeader_of_not rfl, trivial⟩ (.inl ⟨rfl, hu⟩) hs
  refine ⟨_, hrun, by rwa [nodes_after], by rwa [nodes_after], fun q hq => nodes_after_of_ne hq,
    fun p hp => mem_after.mpr (.inr ⟨_, List.mem_map_of_mem hp, ?_⟩)⟩
  rw [wire_request]
  simp only [prevTerm, sent, h.term, h.log]

/-- A round with a peer that rejects. -/
theorem run_rejected (hwf : c.WellFormed cfg) (hi : i ∈ cfg.ids) (hp : p ∈ cfg.peers i)
    (h : (c.nodes i).Replicates cfg i T l idx f xs) (hn : (c.nodes p).Resting T x)
    (hfollow : (c.nodes p).Follows) (hc : (c.nodes p).state.Inconsistent (f p).dec
      ((f p).dec.bind fun j => (l.get j).map (·.term))) :
    ∃ c', Run (step cfg) Orderly c c' ∧
      (c'.nodes i).Replicates cfg i T l idx (Function.update f p ((f p).dec.getD 1)) xs ∧
      (c'.nodes p).Resting T x ∧ (c'.nodes p).Follows ∧
      ∀ q, q ≠ p → q ≠ i → c'.nodes q = c.nodes q := by
  obtain ⟨hpi, hne⟩ := cfg.mem_peers.mp hp
  obtain ⟨c₁, hrun₁, h₁, -, hkept, hsent⟩ := run_send hwf hi h
  obtain ⟨hwf₁, -⟩ := Timed.network_run hrun₁ hwf
  obtain ⟨n, hproc, hn', hfollow'⟩ := Node.Resting.rejects (i := i) _ _ hn hfollow
    (by rw [hwf.id]; exact hne) hc
  have hrun₂ := run_processes hpi (hsent p hp) (hkept p hne ▸ hproc) (fun _ _ heq => by cases heq)
  obtain ⟨n', rs, hproc', h'⟩ := h₁.rejected (hwf₁.peers i) hp x.log.highestIndex
  have hmem : ⟨p, i, .appendEntriesResponse T x.log.highestIndex false⟩ ∈ (c₁.after p n
      [(i, .appendEntriesResponse T x.log.highestIndex false)] c₁.now).network :=
    mem_after.mpr (.inr ⟨_, List.mem_singleton_self _, rfl⟩)
  have hrun₃ := run_processes hi hmem (by rwa [nodes_after_of_ne hne.symm])
    (fun _ _ heq => by simp at heq)
  refine ⟨_, (hrun₁.trans hrun₂).trans hrun₃, by rwa [nodes_after], ?_, ?_, fun q hqp hqi => ?_⟩
  · rwa [nodes_after_of_ne hne, nodes_after]
  · rwa [nodes_after_of_ne hne, nodes_after]
  · rw [nodes_after_of_ne hqi, nodes_after_of_ne hqp, hkept q hqi]

/-- A round with a peer that accepts. -/
theorem run_accepted (hwf : c.WellFormed cfg) (hi : i ∈ cfg.ids) (hp : p ∈ cfg.peers i)
    (hpxs : p ∉ xs) (hl : l.EndsWith T idx e) (h : (c.nodes i).Replicates cfg i T l idx f xs)
    (hf : f p ≤ idx) (hn : (c.nodes p).Resting T x) (hfollow : (c.nodes p).Follows)
    (hx : x.Behind T idx) (hc : ¬ (c.nodes p).state.Inconsistent (f p).dec
      ((f p).dec.bind fun j => (l.get j).map (·.term))) :
    ∃ c', Run (step cfg) Orderly c c' ∧ (c'.nodes i).Replicates cfg i T l idx
        (Function.update f p (idx + 1)) (xs ++ [p]) ∧
      (c'.nodes p).Synced T idx e ∧ ∀ q, q ≠ p → q ≠ i → c'.nodes q = c.nodes q := by
  obtain ⟨hpi, hne⟩ := cfg.mem_peers.mp hp
  obtain ⟨c₁, hrun₁, h₁, -, hkept, hsent⟩ := run_send hwf hi h
  have hci := h.uncommitted ⟨p, hp, hpxs⟩
  have hmem := hl.memory
  have hdec := upTo_dec (f p)
  have hlen := hl.length_of_consistent hf hn hc
  let es : Log Cmd := ⟨l.wire.inner.drop (f p).natPred⟩
  let l' : Log Cmd := ⟨splice (·.term) x.log.inner (f p).natPred es.inner⟩
  obtain ⟨hlen', hget, hle', hlt'⟩ := hl.followed hf hx hlen hci (show l'.inner = _ from rfl)
  obtain ⟨n, hproc, hn', hfollow', hacc, -⟩ := Node.Resting.accepts (i := i) _ es hn hfollow
    (by rw [hwf.id]; exact hne) hc (hdec.trans_le hlen) hx.memory (show l'.inner = _ by rw [hdec])
    (by omega) (hci.le.trans_eq hlen'.symm) hx.applied_le
  have hrun₂ := run_processes hpi (hsent p hp) (hkept p hne ▸ hproc) (fun _ _ heq => by cases heq)
  have hlast : l'.highestIndex = some idx := by
    apply upTo_inj
    rw [Log.upTo_highestIndex, hlen', upTo_some]
  rw [hlast] at hrun₂
  obtain ⟨n', rs, hproc', h'⟩ := h₁.acked hp hpxs hl.length hl.memory hl.entry hl.term
  have hback : (f p).natPred + es.inner.length = idx := by
    have hpred := (f p).natPred_add_one
    have hle : (f p : ℕ) ≤ idx := hf
    rw [List.length_drop, Log.length_wire, hl.length]
    omega
  rw [hdec, hback] at hacc
  have hsent' : ⟨p, i, .appendEntriesResponse T (some idx) true⟩ ∈ (c₁.after p n
      [(i, .appendEntriesResponse T (some idx) true)] c₁.now).network :=
    mem_after.mpr (.inr ⟨_, List.mem_singleton_self _, rfl⟩)
  have hrun₃ := run_processes hi hsent' (by rwa [nodes_after_of_ne hne.symm]) (fun _ _ heq => by
    cases heq
    rw [nodes_after_of_ne hne.symm, nodes_after]
    exact ⟨h₁.term.symm, _, hacc, rfl, le_rfl⟩)
  refine ⟨_, (hrun₁.trans hrun₂).trans hrun₃, by rwa [nodes_after], ?_, fun q hqp hqi => ?_⟩
  · rw [nodes_after_of_ne hne, nodes_after]
    refine ⟨hfollow', _, hn', hle', hlt', ?_⟩
    have hlog : (x.followed l' (c.nodes i).state.c.commitIndex).log = l' := by
      unfold Holdings.followed
      split <;> rfl
    rw [hlog]
    exact ⟨hlen', hget⟩
  · rw [nodes_after_of_ne hqi, nodes_after_of_ne hqp, hkept q hqi]

/-- Rounds until the peer accepts. -/
theorem run_sync (hwf : c.WellFormed cfg) (hi : i ∈ cfg.ids) (hp : p ∈ cfg.peers i)
    (hpxs : p ∉ xs) (hl : l.EndsWith T idx e) (h : (c.nodes i).Replicates cfg i T l idx f xs)
    (hf : f p ≤ idx) (hn : (c.nodes p).Resting T x) (hfollow : (c.nodes p).Follows)
    (hx : x.Behind T idx) :
    ∃ c' f', Run (step cfg) Orderly c c' ∧ (c'.nodes i).Replicates cfg i T l idx f' (xs ++ [p]) ∧
      f' p = idx + 1 ∧ (∀ q, q ≠ p → f' q = f q) ∧ (c'.nodes p).Synced T idx e ∧
      ∀ q, q ≠ p → q ≠ i → c'.nodes q = c.nodes q := by
  -- Each rejection moves the next index back, and the first index is not rejected.
  induction hk : (f p).natPred using Nat.strong_induction_on generalizing c f with
  | h k ih =>
    subst hk
    by_cases hc : (c.nodes p).state.Inconsistent (f p).dec
        ((f p).dec.bind fun j => (l.get j).map (·.term))
    · obtain ⟨c₁, hrun, h₁, hn₁, hfollow₁, hkept⟩ := run_rejected hwf hi hp h hn hfollow hc
      have hdec := upTo_dec (f p)
      have hpred := (f p).natPred_add_one
      obtain ⟨j, hj⟩ : ∃ j, (f p).dec = some j := by
        cases hd : (f p).dec with
        | none => simp [State.Inconsistent, hd] at hc
        | some j => exact ⟨j, rfl⟩
      rw [hj, upTo_some] at hdec
      rw [hj, Option.getD_some] at h₁
      have hpred' := j.natPred_add_one
      have hle : (f p : ℕ) ≤ idx := hf
      obtain ⟨c', f', hrun', h', hp', hother, hsync, hkept'⟩ := ih j.natPred (by omega)
        (Timed.network_run hrun hwf).1 h₁
        (by rw [Function.update_self, ← PNat.coe_le_coe]; omega) hn₁ hfollow₁
        (by rw [Function.update_self])
      refine ⟨c', f', hrun.trans hrun', h', hp', fun q hq => ?_, hsync, fun q hqp hqi => ?_⟩
      · rw [hother q hq, Function.update_of_ne hq]
      · rw [hkept' q hqp hqi, hkept q hqp hqi]
    · obtain ⟨c', hrun, h', hsync, hkept⟩ := run_accepted hwf hi hp hpxs hl h hf hn hfollow hx hc
      exact ⟨c', _, hrun, h', Function.update_self .., fun q hq => Function.update_of_ne hq .., hsync,
        hkept⟩

end Timed

end Miniraft

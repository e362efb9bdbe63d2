import Miniraft.Verify.Commit

/-!
# Safety of the program

The guarantees of Raft for every run in which, besides, responses are backed by acknowledgements:
match indexes (`Cluster.match_index_sound`), leader completeness (`Cluster.leader_completeness`)
and state machine safety (`Cluster.state_machine_safety`). Each comes with a run that shows what
goes wrong without a condition.
-/

namespace Miniraft

open Consensus Cluster

variable {NodeID Cmd : Type} [DecidableEq NodeID] [Wire Cmd]

/-- Logs that agree on the first `n` entries have the same entries up to index `n`. -/
theorem Log.get_of_take {l l' : Log Cmd} {n : ℕ} (hle : l.wire.inner.take n <+: l'.wire.inner)
    (hn : n ≤ l.inner.length) {idx : LogIndex} (hidx : (idx : ℕ) ≤ n) :
    ∃ e, l.get idx = some e ∧ (l'.get idx).map LogEntry.wire = some e.wire := by
  have hpos := idx.natPred_add_one
  have hlt : idx.natPred < l.inner.length := by omega
  have he : l.get idx = some l.inner[idx.natPred] := List.getElem?_eq_getElem hlt
  refine ⟨_, he, ?_⟩
  rw [← Log.get_wire]
  refine hle.getElem?_eq ?_
  rw [List.getElem?_take_of_lt (by omega)]
  exact (Log.get_wire ..).trans (by rw [he]; rfl)

variable {cfg : Config NodeID} {c c' c'' : Cluster NodeID Cmd}
  {g : Replication NodeID (LogEntry Cmd)}

namespace Cluster

/-- A successful response that a leader handles is backed: its sender has accepted a request of
the leader's term that reaches the index it reports. -/
def AckBacked (c : Cluster NodeID Cmd) (l : Label NodeID Cmd) : Prop :=
  match l.2, (c.nodes l.1).raftLoop with
  | .handle _, .stepped p (.appendEntriesResponse _ (some idx) true) =>
    (c.nodes l.1).state.isLeader → ∃ x ∈ (c.nodes p).history.accepted,
      x.1 = (c.nodes l.1).state.c.currentTerm ∧ (idx : ℕ) ≤ x.2
  | _, _ => True

instance (c : Cluster NodeID Cmd) (l : Label NodeID Cmd) : Decidable (AckBacked c l) := by
  unfold AckBacked
  split <;> infer_instance

/-- The cluster shows a state of the replication protocol that could have been reached, and what
is committed in it. -/
structure Commits (cfg : Config NodeID) (c : Cluster NodeID Cmd)
    (g : Replication NodeID (LogEntry Cmd)) : Prop where
  inv : g.Inv LogEntry.term cfg.members
  holds : (commitment cfg).Holds cfg g c

theorem commits_boot (cfg : Config NodeID) : Commits cfg (boot cfg : Cluster NodeID Cmd) .start where
  inv := Replication.inv_start
  holds := {
    wf := .boot
    node := fun i hi => ⟨(replication.holds_boot cfg).node i hi, by
      refine ⟨by simp [boot, Node.boot, State.new, State.core], le_rfl, .inl ?_, ?_, ?_, ?_⟩
      · simp [boot, Node.boot, State.new, State.core]
      · simp [boot, Node.boot, State.new, State.core, Role.stance]
      · simp [boot, Node.boot, History.empty]
      · simp [boot, Node.boot, History.empty]⟩
    sent := by simp [boot]
    pending := by simp [boot, Node.boot, Node.pending] }

theorem Commits.leader_eq (H : Commits cfg c g) {i : NodeID} (hi : i ∈ cfg.ids)
    (hlead : (c.nodes i).state.isLeader) :
    g.leader (c.nodes i).state.c.currentTerm = some i ∧
      g.leaderLog (c.nodes i).state.c.currentTerm = (c.nodes i).state.c.log.wire.inner := by
  have hn := (H.holds.node i hi).1
  have hl := replication.leader_of_isLeader hn.elects (State.isLeader_iff.mp hlead)
  exact ⟨hl, replication.leader_log H.inv hn hl⟩

/-- What a node applied is in its log, in what is committed. -/
theorem Commits.applied (H : Commits cfg c g) {i : NodeID} (hi : i ∈ cfg.ids) {x : LogIndex × LogEntry Cmd}
    (hx : x ∈ (c.nodes i).history.applied) :
    ∃ T v, Settled cfg g T v ∧ v[x.1.natPred]? = some x.2.wire := by
  have ht := (H.holds.node i hi).2
  obtain ⟨hle, he⟩ := ht.applied x hx
  have hpos := x.1.natPred_add_one
  have := ht.applied_le
  refine ⟨_, _, ht.committed, ?_⟩
  rw [List.getElem?_take_of_lt (by omega)]
  exact he

end Cluster

variable [DecidableEq Cmd]

namespace Cluster

/-- No crash, commands are appended by leaders only, and responses are backed. -/
def Orderly (c : Cluster NodeID Cmd) (l : Label NodeID Cmd) : Prop :=
  CrashFree c l ∧ AppendsAsLeader c l ∧ AckBacked c l

instance (c : Cluster NodeID Cmd) (l : Label NodeID Cmd) : Decidable (Orderly c l) :=
  inferInstanceAs (Decidable (_ ∧ _))

theorem commitment_run (hrun : Run (step cfg) Orderly c c') (H : Commits cfg c g) :
    ∃ g', Relation.ReflTransGen (Replication.Step LogEntry.term cfg.members) g g' ∧
      Commits cfg c' g' := by
  refine Run.simulation hrun H fun c l c' g H hl hs => ?_
  obtain ⟨i, a⟩ := l
  obtain ⟨hcrash, happend, hacked⟩ := hl
  obtain ⟨g', hsteps, hholds⟩ := H.holds.step (R := Relation.ReflTransGen _) hs hcrash.ne
    fun hm hi hid hpeers hrecv => by
      refine commitment.answer H.inv hm happend.isLeader ?_ hi hid hpeers (H.holds.node i hi).1
        (H.holds.node i hi).2 fun p m hpm => ⟨(hrecv p m hpm).1, (hrecv p m hpm).2.2⟩
      intro p T idx hpm hleader
      obtain ⟨hp, ⟨hloop, clk, rfl⟩, -⟩ := hrecv p _ hpm
      simp only [AckBacked, hloop] at hacked
      obtain ⟨x, hx, hxT, hle⟩ := hacked (State.isLeader_iff.mpr hleader)
      have hacc := (H.holds.node p hp).2.accepted (T := x.1) (n := x.2) hx
      rw [hxT] at hacc
      exact hle.trans hacc
  exact ⟨g', hsteps, (H.inv.steps hsteps).1, hholds⟩

/-- What the match indexes of the leaders of a cluster are worth: a peer in the leader's term
shares the leader's log up to the match index. -/
def MatchIndexesSound (cfg : Config NodeID) (c : Cluster NodeID Cmd) : Prop :=
  ∀ i ∈ cfg.ids, ∀ p ∈ cfg.ids, ∀ next mtch lr, ∀ idx : LogIndex,
    (c.nodes i).state.r = .leader next mtch lr →
    (c.nodes p).state.c.currentTerm = (c.nodes i).state.c.currentTerm →
    mtch.lookup p = some (some idx) →
    (idx : ℕ) ≤ (c.nodes i).state.c.log.inner.length ∧
      ∀ j ≤ idx, ((c.nodes p).state.c.log.get j).map LogEntry.wire =
        ((c.nodes i).state.c.log.get j).map LogEntry.wire

theorem match_index_sound (hrun : Run (step cfg) Orderly (boot cfg) c) :
    MatchIndexesSound cfg c := by
  intro i hi p hp next mtch lr idx hr hterm hm
  obtain ⟨g, -, H⟩ := commitment_run hrun (commits_boot cfg)
  have hlead : (c.nodes i).state.isLeader := by simp [State.isLeader, hr]
  obtain ⟨hl, hlog⟩ := H.leader_eq hi hlead
  have hst : (c.nodes i).state.core.stance = .leader next mtch := by
    simp [State.core, hr, Role.stance]
  have hack : (idx : ℕ) ≤ g.acked p (c.nodes i).state.c.currentTerm :=
    ((H.holds.node i hi).2.leads hst).match_le hm
  have hlen : (idx : ℕ) ≤ (c.nodes i).state.c.log.inner.length := by
    have := hack.trans (H.inv.acked_le ..)
    rwa [hlog, Log.length_wire] at this
  have hkept : (c.nodes i).state.c.log.wire.inner.take idx <+:
      (c.nodes p).state.c.log.wire.inner := by
    have hn := (H.holds.node p hp).1
    rcases H.inv.acked_log hack with hpre | hlost
    · rw [hlog, hn.log] at hpre
      exact hpre
    · exact absurd (hlost.false_of_le (hn.term.trans hterm).le) id
  refine ⟨hlen, fun j hj => ?_⟩
  obtain ⟨e, he, he'⟩ := Log.get_of_take hkept hlen (PNat.coe_le_coe _ _ |>.mpr hj)
  rw [he', he]
  rfl

end Cluster

namespace Example

def matchIndex (c : Cluster String ℕ) (i p : String) : Option (Option LogIndex) :=
  match (c.nodes i).state.r with
  | .leader _ mtch _ => mtch.lookup p
  | _ => none

theorem matchIndex_eq_some {c : Cluster String ℕ} {i p : String} {x : Option LogIndex}
    (h : matchIndex c i p = some x) :
    ∃ next mtch lr, (c.nodes i).state.r = .leader next mtch lr ∧ mtch.lookup p = some x := by
  unfold matchIndex at h
  split at h
  · next hr => exact ⟨_, _, _, hr, h⟩
  · cases h

/-- After command 7 was replicated, `a` knows that `b` has it. -/
theorem match_index_sound_replicated : ∃ c, Run (step pair) Orderly (boot pair) c ∧
    matchIndex c "a" "b" = some (some 1) ∧ ((c.nodes "b").state.c.log.get 1).map LogEntry.wire =
      ((c.nodes "a").state.c.log.get 1).map LogEntry.wire := by
  have hexec : (Run.exec (step pair) (fun c l => decide (Orderly c l)) replicated
      (boot pair)).map (fun c => (matchIndex c "a" "b", (c.nodes "a").state.c.currentTerm,
        (c.nodes "b").state.c.currentTerm)) = some (some (some 1), 1, 1) := by
    decide +kernel
  obtain ⟨c, hrun, hc⟩ := Run.exists_of_exec hexec fun _ _ => of_decide_eq_true
  simp only [Prod.mk.injEq] at hc
  obtain ⟨hmatch, hta, htb⟩ := hc
  obtain ⟨next, mtch, lr, hr, hm⟩ := matchIndex_eq_some hmatch
  exact ⟨c, hrun, hmatch, (match_index_sound hrun "a" (by decide) "b" (by decide) next mtch lr 1 hr
    (htb.trans hta.symm) hm).2 1 le_rfl⟩

/-- The leader `a` of term 1 has an entry nobody else has when `c`, with an empty log, becomes the
leader of term 3. The heartbeat of `c` succeeds at `a`, which reports the index of its entry. -/
def leftover : List (Label String ℕ) :=
  List.flatten [
    elected,
    [("a", .clientRequest 7), ("a", .clientAppend), ("b", .election (at_ 1000)),
      ("c", .election (at_ 1)), ("c", .election (at_ 1000)), ("c", .election (at_ 2000))],
    deliver "b" "c" (.requestVote 3 none none), deliver "c" "b" (.requestVoteResponse 3 true),
    deliver "a" "c" (.appendEntries 3 none none none ⟨[]⟩),
    deliver "c" "a" (.appendEntriesResponse 3 (some 1) true)]

theorem match_index_leftover : ¬ ∀ c : Cluster String ℕ,
    Run (step three) (fun c l => CrashFree c l ∧ AppendsAsLeader c l) (boot three) c →
      MatchIndexesSound three c := by
  intro hall
  have hexec : (Run.exec (step three) (fun c l => decide (CrashFree c l ∧ AppendsAsLeader c l))
      leftover (boot three)).map (fun c => (matchIndex c "c" "a",
        (c.nodes "a").state.c.currentTerm, (c.nodes "c").state.c.currentTerm,
        (c.nodes "c").state.c.log)) = some (some (some 1), 3, 3, ⟨[]⟩) := by
    decide +kernel
  obtain ⟨c, hrun, hc⟩ := Run.exists_of_exec hexec fun _ _ => of_decide_eq_true
  simp only [Prod.mk.injEq] at hc
  obtain ⟨hmatch, hta, htc, hlog⟩ := hc
  obtain ⟨next, mtch, lr, hr, hm⟩ := matchIndex_eq_some hmatch
  have hle := (hall c hrun "c" (by decide) "a" (by decide) next mtch lr 1 hr
    (hta.trans htc.symm) hm).1
  rw [hlog] at hle
  exact absurd hle (by decide)

end Example

namespace Cluster

/-- What a leader commits stays: `c'` is the cluster after node `i` has raised its commit index as
a leader, and `c''` any later one. -/
def LeaderComplete (cfg : Config NodeID) (c c' c'' : Cluster NodeID Cmd) (i : NodeID) : Prop :=
  (c.nodes i).state.isLeader →
  upTo (c.nodes i).state.c.commitIndex < upTo (c'.nodes i).state.c.commitIndex →
  ∀ j ∈ cfg.ids, (c''.nodes j).state.isLeader →
    (c.nodes i).state.c.currentTerm < (c''.nodes j).state.c.currentTerm →
    ∀ idx : LogIndex, (idx : ℕ) ≤ upTo (c'.nodes i).state.c.commitIndex →
      ∃ e, (c'.nodes i).state.c.log.get idx = some e ∧
        ((c''.nodes j).state.c.log.get idx).map LogEntry.wire = some e.wire

theorem leader_completeness (hrun : Run (step cfg) Orderly (boot cfg) c) {i : NodeID}
    {a : Action NodeID Cmd} (hP : Orderly c (i, a)) (hs : c.step cfg (i, a) = .ok c')
    (hrun' : Run (step cfg) Orderly c' c'') : LeaderComplete cfg c c' c'' i := by
  intro hlead hraise j hj hlead' hterm idx hidx
  obtain ⟨g, -, H⟩ := commitment_run hrun (commits_boot cfg)
  obtain ⟨g', -, H'⟩ := commitment_run (.single ⟨(i, a), hP, hs⟩) H
  obtain ⟨g'', hsteps, H''⟩ := commitment_run hrun' H'
  obtain ⟨hi, -, n, msgs, hn, rfl⟩ := step_eq_ok hs
  have hT : ((c.update i n msgs).nodes i).state.c.currentTerm =
      (c.nodes i).state.c.currentTerm := by
    obtain ⟨recv, fresh, hm, -⟩ := Node.step_move H.holds.wf.ready hn hP.1.ne
    rw [update_self] at hraise ⊢
    exact hm.term_eq hraise.ne'
  have ht := (H'.holds.node i hi).2
  have hset := ht.committed.mono H'.inv (H'.inv.steps hsteps).2 le_rfl
  obtain ⟨hl, hlog⟩ := H''.leader_eq hj hlead'
  have hle := H''.inv.committed_le_leaderLog hset (hT.trans_lt hterm).le (by rw [hl]; simp)
  rw [hlog] at hle
  exact Log.get_of_take hle (by simpa [State.core] using ht.commit_le) hidx

end Cluster

namespace Example

/-- The run of `replicated` up to the response of `b`. -/
def unacknowledged : List (Label String ℕ) :=
  elected ++ [("a", .clientRequest 7), ("a", .clientAppend), ("a", .clientReplicate (at_ 100000000))] ++
    deliver "b" "a" (.appendEntries 1 none none none ⟨[⟨7, 1⟩]⟩) ++
    [("a", .receive "b" (.appendEntriesResponse 1 (some 1) true))]

/-- `b` is elected in term 2. -/
def succeeded : List (Label String ℕ) :=
  [("a", .snapshot), ("a", .persist true), ("a", .respond), ("b", .election (at_ 1000))] ++
    deliver "a" "b" (.requestVote 2 (some 1) (some 1)) ++
    deliver "b" "a" (.requestVoteResponse 2 true)

/-- Who leads in which term, and how far the commit index of the old leader `i` reaches before and
after its step. -/
def succession (i j : String) (c c' c'' : Cluster String ℕ) : List Bool × List ℕ :=
  ([(c.nodes i).state.isLeader, (c''.nodes j).state.isLeader],
    [(c.nodes i).state.c.currentTerm, upTo (c.nodes i).state.c.commitIndex,
      upTo (c'.nodes i).state.c.commitIndex, (c''.nodes j).state.c.currentTerm])

/-- Command 7 is committed by `a` in term 1 and in the log of `b`, the leader of term 2. -/
theorem leader_completeness_succeeded : ∃ c c' c'' : Cluster String ℕ,
    Run (step pair) Orderly (boot pair) c ∧ c.step pair ("a", .handle (at_ 0)) = .ok c' ∧
    Run (step pair) Orderly c' c'' ∧
    succession "a" "b" c c' c'' = ([true, true], [1, 0, 1, 2]) ∧
    ∃ e, (c'.nodes "a").state.c.log.get 1 = some e ∧
      ((c''.nodes "b").state.c.log.get 1).map LogEntry.wire = some e.wire := by
  have hexec : ((Run.exec (step pair) (fun c l => decide (Orderly c l)) unacknowledged
      (boot pair)).bind fun c => (Run.exec (step pair) (fun c l => decide (Orderly c l))
        [("a", .handle (at_ 0))] c).bind fun c' =>
      (Run.exec (step pair) (fun c l => decide (Orderly c l)) succeeded c').map
        (succession "a" "b" c c')) = some ([true, true], [1, 0, 1, 2]) := by
    decide +kernel
  obtain ⟨c, c', c'', hrun, hP, hs, hrun', hc⟩ :=
    Run.exists_of_exec_step hexec fun _ _ => of_decide_eq_true
  refine ⟨c, c', c'', hrun, hs, hrun', hc, ?_⟩
  simp only [succession, Prod.mk.injEq, List.cons.injEq, and_true] at hc
  obtain ⟨⟨hl, hl'⟩, hT, hk, hk', hT'⟩ := hc
  exact leader_completeness hrun hP hs hrun' hl (by omega) "b" (by decide) hl'
    (by rw [hT, hT']; decide) 1 (by rw [hk']; rfl)

def five : Config String := ⟨["a", "b", "c", "d", "e"], by decide, by decide⟩

/-- `d` leads term 1 and replicates command 10 to all, but 11 only to `e`. Then `a` leads term 2
without 11. Its heartbeat succeeds at `d` and `e`, which report index 2. Command 12 of `a` goes to
index 2 and is only replicated to `b`; its response is about to be handled. -/
def overcounted : List (Label String ℕ) :=
  List.flatten [
    [("d", .election (at_ 1))], deliver "a" "d" (.requestVote 1 none none),
    deliver "e" "d" (.requestVote 1 none none), deliver "d" "a" (.requestVoteResponse 1 true),
    deliver "d" "e" (.requestVoteResponse 1 true),
    [("d", .clientRequest 10), ("d", .clientAppend), ("d", .clientReplicate (at_ 100000000))],
    deliver "a" "d" (.appendEntries 1 none none none ⟨[⟨10, 1⟩]⟩),
    deliver "b" "d" (.appendEntries 1 none none none ⟨[⟨10, 1⟩]⟩),
    deliver "c" "d" (.appendEntries 1 none none none ⟨[⟨10, 1⟩]⟩),
    [("d", .clientRequest 11), ("d", .clientAppend), ("d", .clientReplicate (at_ 200000000))],
    deliver "e" "d" (.appendEntries 1 none none none ⟨[⟨10, 1⟩, ⟨11, 1⟩]⟩),
    [("a", .election (at_ 1000))], deliver "b" "a" (.requestVote 2 (some 1) (some 1)),
    deliver "c" "a" (.requestVote 2 (some 1) (some 1)),
    deliver "a" "b" (.requestVoteResponse 2 true), deliver "a" "c" (.requestVoteResponse 2 true),
    deliver "b" "a" (.appendEntries 2 none (some 1) (some 1) ⟨[]⟩),
    deliver "c" "a" (.appendEntries 2 none (some 1) (some 1) ⟨[]⟩),
    deliver "d" "a" (.appendEntries 2 none (some 1) (some 1) ⟨[]⟩),
    deliver "e" "a" (.appendEntries 2 none (some 1) (some 1) ⟨[]⟩),
    deliver "a" "c" (.appendEntriesResponse 2 (some 1) true),
    deliver "a" "d" (.appendEntriesResponse 2 (some 2) true),
    deliver "a" "e" (.appendEntriesResponse 2 (some 2) true),
    deliver "a" "b" (.appendEntriesResponse 2 (some 1) true),
    [("a", .clientRequest 12), ("a", .clientAppend), ("a", .clientReplicate (at_ 300000000))],
    deliver "b" "a" (.appendEntries 2 none (some 1) (some 1) ⟨[⟨12, 2⟩]⟩),
    [("a", .receive "b" (.appendEntriesResponse 2 (some 2) true))]]

/-- `d` is elected in term 4 by `c`, which has stood for election itself meanwhile, and `e`. -/
def overtaken : List (Label String ℕ) :=
  List.flatten [
    [("c", .election (at_ 100000000000)), ("d", .election (at_ 100000000000)),
      ("d", .election (at_ 200000000000))],
    deliver "c" "d" (.requestVote 4 (some 2) (some 1)),
    deliver "e" "d" (.requestVote 4 (some 2) (some 1)),
    deliver "d" "c" (.requestVoteResponse 4 true), deliver "d" "e" (.requestVoteResponse 4 true)]

theorem leader_completeness_overtaken : ¬ ∀ (c c' c'' : Cluster String ℕ) (i : String)
    (a : Action String ℕ),
    Run (step five) (fun c l => CrashFree c l ∧ AppendsAsLeader c l) (boot five) c →
    CrashFree c (i, a) ∧ AppendsAsLeader c (i, a) → c.step five (i, a) = .ok c' →
    Run (step five) (fun c l => CrashFree c l ∧ AppendsAsLeader c l) c' c'' →
      LeaderComplete five c c' c'' i := by
  intro hall
  have hexec : ((Run.exec (step five) (fun c l => decide (CrashFree c l ∧ AppendsAsLeader c l))
      overcounted (boot five)).bind fun c =>
      (Run.exec (step five) (fun c l => decide (CrashFree c l ∧ AppendsAsLeader c l))
        [("a", .handle (at_ 0))] c).bind fun c' =>
      (Run.exec (step five) (fun c l => decide (CrashFree c l ∧ AppendsAsLeader c l))
        overtaken c').map fun c'' => (succession "a" "d" c c' c'',
          (c'.nodes "a").state.c.log.get 2, (c''.nodes "d").state.c.log.get 2)) =
      some (([true, true], [2, 0, 2, 4]), some ⟨12, 2⟩, some ⟨11, 1⟩) := by
    decide +kernel
  obtain ⟨c, c', c'', hrun, hP, hs, hrun', hc⟩ :=
    Run.exists_of_exec_step hexec fun _ _ => of_decide_eq_true
  simp only [succession, Prod.mk.injEq, List.cons.injEq, and_true] at hc
  obtain ⟨⟨⟨hl, hl'⟩, hT, hk, hk', hT'⟩, hlog, hlog'⟩ := hc
  obtain ⟨e, he, he'⟩ := hall c c' c'' "a" _ hrun hP hs hrun' hl (by omega) "d" (by decide) hl'
    (by rw [hT, hT']; decide) 2 (by rw [hk']; rfl)
  rw [hlog] at he
  rw [hlog', ← Option.some.inj he] at he'
  exact absurd he' (by decide)

end Example

namespace Cluster

/-- Commands that were applied at one index are the same command. -/
def AppliedAgree (cfg : Config NodeID) (c : Cluster NodeID Cmd) : Prop :=
  ∀ i ∈ cfg.ids, ∀ j ∈ cfg.ids, ∀ x ∈ (c.nodes i).history.applied,
    ∀ y ∈ (c.nodes j).history.applied, x.1 = y.1 → wire x.2.cmd = wire y.2.cmd

/-- **State machine safety**. -/
theorem state_machine_safety (hrun : Run (step cfg) Orderly (boot cfg) c) :
    AppliedAgree cfg c := by
  intro i hi j hj x hx y hy hxy
  obtain ⟨g, -, H⟩ := commitment_run hrun (commits_boot cfg)
  obtain ⟨T, v, hset, he⟩ := H.applied hi hx
  obtain ⟨T', v', hset', he'⟩ := H.applied hj hy
  rw [← hxy] at he'
  have heq : x.2.wire = y.2.wire := by
    rcases H.inv.committed_total hset hset' with hle | hle
    · rw [hle.getElem?_eq he] at he'
      exact Option.some.inj he'
    · rw [hle.getElem?_eq he'] at he
      exact (Option.some.inj he).symm
  exact congrArg LogEntry.cmd heq

end Cluster

namespace Example

/-- Both nodes have applied command 7 at index 1. -/
theorem state_machine_safety_replicated : ∃ c, Run (step pair) Orderly (boot pair) c ∧
    (c.nodes "a").history.applied = [(1, ⟨7, 1⟩)] ∧ (c.nodes "b").history.applied = [(1, ⟨7, 1⟩)] ∧
    AppliedAgree pair c := by
  have hexec : (Run.exec (step pair) (fun c l => decide (Orderly c l)) replicated
      (boot pair)).map (fun c => ((c.nodes "a").history.applied, (c.nodes "b").history.applied)) =
      some ([(1, ⟨7, 1⟩)], [(1, ⟨7, 1⟩)]) := by
    decide +kernel
  obtain ⟨c, hrun, hc⟩ := Run.exists_of_exec hexec fun _ _ => of_decide_eq_true
  obtain ⟨ha, hb⟩ := Prod.mk.inj hc
  exact ⟨c, hrun, ha, hb, state_machine_safety hrun⟩

/-- The client loop of the leader `a` of term 1 has found that `a` is leader. Then `b` is elected
in term 2, and only now the client loop of `a` appends command 7, stamped with term 2. Command 8
of the leader `b` has the same index and term, so `a` keeps its own. -/
def raced : List (Label String ℕ) :=
  List.flatten [
    elected, [("a", .clientRequest 7), ("b", .election (at_ 1000))],
    deliver "a" "b" (.requestVote 2 none none), deliver "b" "a" (.requestVoteResponse 2 true),
    [("a", .clientAppend), ("b", .clientRequest 8), ("b", .clientAppend),
      ("b", .clientReplicate (at_ 100000000))],
    deliver "a" "b" (.appendEntries 2 none none none ⟨[⟨8, 2⟩]⟩),
    deliver "b" "a" (.appendEntriesResponse 2 (some 1) true), [("b", .replicate (at_ 200000000))],
    deliver "a" "b" (.appendEntries 2 (some 1) (some 1) (some 2) ⟨[]⟩)]

theorem state_machine_safety_raced : ¬ ∀ c : Cluster String ℕ,
    Run (step pair) CrashFree (boot pair) c → AppliedAgree pair c := by
  intro hall
  have hexec : (Run.exec (step pair) crashFree raced (boot pair)).map (fun c =>
      ((c.nodes "a").history.applied, (c.nodes "b").history.applied)) =
      some ([(1, ⟨7, 2⟩)], [(1, ⟨8, 2⟩)]) := by
    decide +kernel
  obtain ⟨c, hrun, hc⟩ := Run.exists_of_exec hexec fun _ _ => of_decide_eq_true
  obtain ⟨ha, hb⟩ := Prod.mk.inj hc
  exact absurd (hall c hrun "a" (by decide) "b" (by decide) (1, ⟨7, 2⟩) (by simp [ha]) (1, ⟨8, 2⟩)
    (by simp [hb]) rfl) (by decide)

end Example

end Miniraft

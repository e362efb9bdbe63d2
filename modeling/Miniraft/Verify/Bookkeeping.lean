import Miniraft.Verify.Frame
import Miniraft.Verify.Safety

/-!
# Commit bookkeeping

`replace_from` does not look at the commit index, and a follower computes its commit index from
the length of its log. Along orderly runs nothing below the commit index is ever replaced, so that
`last_applied` and the commit index stay within the log and do not decrease
(`Cluster.commit_bookkeeping`).
-/

namespace Miniraft

open Consensus

variable {NodeID Cmd : Type} [DecidableEq NodeID]

variable [Wire Cmd]

/-- A log that keeps its first `n` entries over the wire keeps them. -/
theorem Log.Becomes.take_eq {l l' : Log Cmd} {n : ℕ} (h : l.Becomes l') (hn : n ≤ l.inner.length)
    (hkept : l.wire.inner.take n <+: l'.wire.inner) : l'.inner.take n = l.inner.take n := by
  rcases h with hpre | ⟨m, t, w, htake, ht, hw, hne⟩
  · exact hpre.take_eq hn
  rcases Nat.lt_or_ge m n with hlt | hge
  · -- The first change has another term, also over the wire.
    have ht' : (l.wire.inner.take n)[m]? = some t.wire := by
      rw [List.getElem?_take_of_lt hlt, Log.getElem?_wire, ht]
      rfl
    have hw' := hkept.getElem?_eq ht'
    rw [Log.getElem?_wire, hw] at hw'
    exact absurd (congrArg LogEntry.term (Option.some.inj hw')).symm hne
  · have := congrArg (List.take n) htake
    rwa [List.take_take, List.take_take, min_eq_left hge] at this

namespace commitment

variable {cfg : Config NodeID} {g : Replication NodeID (LogEntry Cmd)} {i : NodeID}
  {a : Action NodeID Cmd} {k k' : Core NodeID Cmd} {h h' : History NodeID Cmd}
  {recv : Option (NodeID × RaftMessage Cmd)} {fresh : Outgoing NodeID Cmd}

/-- A move keeps what is committed. -/
theorem kept (H : g.Inv LogEntry.term cfg.members) (hm : Move a k h recv k' h' fresh)
    (hn : k.Replicates cfg g i) (ht : k.Tracks cfg g i h)
    (hrecv : ∀ p m, recv = some (p, m) → m.Reports g p i) :
    k.log.inner.take k.commit <+: k'.log.inner := by
  have hpre : k.log.inner.take k.commit <+: k.log.inner := List.take_prefix ..
  cases hm with
  | @accept p ci pi pt es log commit applied apps drops hlead hne hacc =>
    obtain ⟨hl, v, hseg⟩ := hrecv p _ rfl
    have hsome : g.leader k.term ≠ none := by simp [hl]
    rcases replication.accept_cases H hn hsome hseg hacc with ⟨-, rfl⟩ | ⟨-, hlog⟩
    · exact hpre
    · rw [show log.inner = _ from hlog]
      exact H.committed_takeOver ht.committed hpre hseg.le hsome
  | append _ _ => exact hpre.trans (List.prefix_append ..)
  | _ => exact hpre

end commitment

/-- Commit and apply indexes do not decrease as long as what is committed is kept. -/
theorem Move.commit_mono {a : Action NodeID Cmd} {k k' : Core NodeID Cmd}
    {h h' : History NodeID Cmd} {recv : Option (NodeID × RaftMessage Cmd)}
    {fresh : Outgoing NodeID Cmd}
    (hm : Move a k h recv k' h' fresh) (hle : k.commit ≤ k.log.inner.length)
    (hkept : k.log.inner.take k.commit <+: k'.log.inner) :
    k.commit ≤ k'.commit ∧ k.applied ≤ k'.applied := by
  have hlen : k.commit ≤ k'.log.inner.length := by
    have := hkept.length_le
    rwa [List.length_take, min_eq_left hle] at this
  cases hm with
  | accept _ _ hacc =>
    rcases hacc.advanced with ⟨-, rfl, rfl, -⟩ | ⟨hlt, rfl, rfl, happ, -⟩
    · exact ⟨le_rfl, le_rfl⟩
    · exact ⟨le_min hlt.le hlen, happ⟩
  | ack _ _ _ _ hc =>
    rcases hc with ⟨rfl, rfl, -⟩ | ⟨values, n, e, -, -, -, -, rfl, rfl, happ, -⟩
    · exact ⟨le_rfl, le_rfl⟩
    · exact ⟨le_max_left .., happ⟩
  | _ => exact ⟨le_rfl, le_rfl⟩

namespace Cluster

variable [DecidableEq Cmd] {cfg : Config NodeID} {c c' c'' : Cluster NodeID Cmd}
  {g : Replication NodeID (LogEntry Cmd)}

/-- On every node `last_applied` is up to the commit index, which is within the log. -/
def IndexesBounded (cfg : Config NodeID) (c : Cluster NodeID Cmd) : Prop :=
  ∀ i ∈ cfg.ids, upTo (c.nodes i).state.c.lastApplied ≤ upTo (c.nodes i).state.c.commitIndex ∧
    upTo (c.nodes i).state.c.commitIndex ≤ (c.nodes i).state.c.log.inner.length

/-- From `c` to `c'` the indexes do not decrease, and what is below the commit index in `c` is
neither removed nor replaced. -/
def CommitKept (cfg : Config NodeID) (c c' : Cluster NodeID Cmd) : Prop :=
  ∀ i ∈ cfg.ids,
    upTo (c.nodes i).state.c.commitIndex ≤ upTo (c'.nodes i).state.c.commitIndex ∧
    upTo (c.nodes i).state.c.lastApplied ≤ upTo (c'.nodes i).state.c.lastApplied ∧
    ∀ idx : LogIndex, (idx : ℕ) ≤ upTo (c.nodes i).state.c.commitIndex →
      (c'.nodes i).state.c.log.get idx = (c.nodes i).state.c.log.get idx

omit [DecidableEq NodeID] [Wire Cmd] [DecidableEq Cmd] in
theorem CommitKept.refl (c : Cluster NodeID Cmd) : CommitKept cfg c c :=
  fun _ _ => ⟨le_rfl, le_rfl, fun _ _ => rfl⟩

omit [DecidableEq NodeID] [Wire Cmd] [DecidableEq Cmd] in
theorem CommitKept.trans (h : CommitKept cfg c c') (h' : CommitKept cfg c' c'') :
    CommitKept cfg c c'' := by
  intro i hi
  obtain ⟨hcommit, happlied, hlog⟩ := h i hi
  obtain ⟨hcommit', happlied', hlog'⟩ := h' i hi
  exact ⟨hcommit.trans hcommit', happlied.trans happlied',
    fun idx hidx => (hlog' idx (hidx.trans hcommit)).trans (hlog idx hidx)⟩

omit [DecidableEq Cmd] in
theorem Commits.bounded (H : Commits cfg c g) : IndexesBounded cfg c := by
  intro i hi
  have ht := (H.holds.node i hi).2
  exact ⟨ht.applied_le, by simpa [State.core] using ht.commit_le⟩

theorem commitKept_step {i : NodeID} {a : Action NodeID Cmd} (H : Commits cfg c g)
    (ha : a ≠ .crash) (hs : c.step cfg (i, a) = .ok c') : CommitKept cfg c c' := by
  intro j hj
  obtain ⟨-, -, n, msgs, hn, rfl⟩ := step_eq_ok hs
  rcases eq_or_ne j i with rfl | hji
  · rw [update_self]
    obtain ⟨recv, fresh, hm, hrecv, -⟩ := Node.step_move H.holds.wf.ready hn ha
    obtain ⟨hrep, ht⟩ := H.holds.node j hj
    have hkept := commitment.kept H.inv hm hrep ht fun p m hpm =>
      commitment.reports_of_tracks (H.holds.sent _ (H.holds.wf.handles (hrecv p m hpm)))
    obtain ⟨hcommit, happlied⟩ := hm.commit_mono ht.commit_le hkept
    refine ⟨hcommit, happlied, fun idx hidx => ?_⟩
    have hlen : upTo (c.nodes j).state.c.commitIndex ≤ (c.nodes j).state.c.log.inner.length :=
      (H.bounded j hj).2
    have htake := (Node.step_frame hn ha).1.take_eq hlen hkept
    have hlt : idx.natPred < upTo (c.nodes j).state.c.commitIndex := by
      have := idx.natPred_add_one
      omega
    rw [Log.get, Log.get, ← List.getElem?_take_of_lt hlt, htake, List.getElem?_take_of_lt hlt]
  · rw [update_of_ne hji]
    exact ⟨le_rfl, le_rfl, fun _ _ => rfl⟩

/-- Along orderly runs commit indexes and what is below them are kept. -/
theorem commit_bookkeeping (hrun : Run (step cfg) Orderly (boot cfg) c)
    (hrun' : Run (step cfg) Orderly c c') : IndexesBounded cfg c ∧ CommitKept cfg c c' := by
  obtain ⟨g, -, H⟩ := commitment_run hrun (commits_boot cfg)
  refine ⟨H.bounded, ?_⟩
  induction hrun' with
  | refl => exact .refl c
  | tail hrun' hs ih =>
    obtain ⟨⟨i, a⟩, hP, hs⟩ := hs
    obtain ⟨g', -, H'⟩ := commitment_run hrun' H
    exact ih.trans (commitKept_step H' hP.1.ne hs)

end Cluster

namespace Example

open Cluster

/-- The indexes of `i`, and its entry at `idx`. -/
def booked (i : String) (idx : LogIndex) (c : Cluster String ℕ) : ℕ × ℕ × Option (LogEntry ℕ) :=
  (upTo (c.nodes i).state.c.lastApplied, upTo (c.nodes i).state.c.commitIndex,
    (c.nodes i).state.c.log.get idx)

theorem commit_bookkeeping_replicated : ∃ c c', Run (step pair) Orderly (boot pair) c ∧
    Run (step pair) Orderly c c' ∧ booked "a" 1 c = (1, 1, some ⟨7, 1⟩) ∧
    booked "a" 1 c' = (1, 1, some ⟨7, 1⟩) ∧
    IndexesBounded pair c ∧ CommitKept pair c c' := by
  have hexec : ((Run.exec (step pair) (fun c l => decide (Orderly c l)) replicated
      (boot pair)).bind fun c => (Run.exec (step pair) (fun c l => decide (Orderly c l))
        [("a", .clientRequest 8), ("a", .clientAppend)] c).map fun c' =>
          (booked "a" 1 c, booked "a" 1 c')) =
      some ((1, 1, some ⟨7, 1⟩), (1, 1, some ⟨7, 1⟩)) := by
    decide +kernel
  obtain ⟨c, c', hrun, hrun', hc⟩ := Run.exists_of_exec_exec hexec fun _ _ => of_decide_eq_true
  obtain ⟨hc, hc'⟩ := Prod.mk.inj hc
  exact ⟨c, c', hrun, hrun', hc, hc', commit_bookkeeping hrun hrun'⟩

/-- `d`, elected as in `overtaken`, finds that `a` has another entry at index 2 and sends its
own. -/
def undone : List (Label String ℕ) :=
  List.flatten [
    overtaken, deliver "a" "d" (.appendEntries 4 none (some 2) (some 1) ⟨[]⟩),
    deliver "d" "a" (.appendEntriesResponse 4 (some 2) false),
    [("d", .replicate (at_ 300000000000))],
    deliver "a" "d" (.appendEntries 4 none (some 1) (some 1) ⟨[⟨11, 1⟩]⟩)]

theorem commit_bookkeeping_undone : ¬ ∀ c c' : Cluster String ℕ,
    Run (step five) (fun c l => CrashFree c l ∧ AppendsAsLeader c l) (boot five) c →
    Run (step five) (fun c l => CrashFree c l ∧ AppendsAsLeader c l) c c' →
      IndexesBounded five c ∧ CommitKept five c c' := by
  intro hall
  have hexec : ((Run.exec (step five) (fun c l => decide (CrashFree c l ∧ AppendsAsLeader c l))
      (overcounted ++ [("a", .handle (at_ 0)), ("a", .snapshot), ("a", .persist true),
        ("a", .respond)]) (boot five)).bind fun c =>
      (Run.exec (step five) (fun c l => decide (CrashFree c l ∧ AppendsAsLeader c l)) undone
        c).map fun c' => (booked "a" 2 c, booked "a" 2 c')) =
      some ((2, 2, some ⟨12, 2⟩), (2, 2, some ⟨11, 1⟩)) := by
    decide +kernel
  obtain ⟨c, c', hrun, hrun', hc⟩ := Run.exists_of_exec_exec hexec fun _ _ => of_decide_eq_true
  simp only [booked, Prod.mk.injEq] at hc
  obtain ⟨⟨-, hcommit, hlog⟩, -, -, hlog'⟩ := hc
  have hkept := ((hall c c' hrun hrun').2 "a" (by decide)).2.2 2 (by rw [hcommit]; rfl)
  rw [hlog, hlog'] at hkept
  exact absurd hkept (by decide)

end Example

end Miniraft

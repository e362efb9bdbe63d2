import Miniraft.Theory.Splice
import Miniraft.Verify.Acknowledge

/-!
# The terms of a log are ordered

On every node, in every snapshot and in every request to append entries the terms do not decrease
and do not exceed the current one. This holds along all runs, with crashes and with commands that
are appended after the node has lost its leadership (`Cluster.log_terms_ordered`).
-/

namespace Miniraft

open Consensus

variable {NodeID Cmd : Type}

def Persistent.Ordered (p : Persistent NodeID Cmd) : Prop :=
  Consensus.Ordered LogEntry.term p.log.inner p.currentTerm

/-- The entries of a request follow its previous term and do not exceed its term. -/
def RaftMessage.Ordered : RaftMessage Cmd → Prop
  | .appendEntries T _ _ prevLogTerm entries => Consensus.Ordered LogEntry.term entries.inner T ∧
    ∀ t ∈ prevLogTerm, t ≤ T ∧ ∀ e ∈ entries.inner, t ≤ e.term
  | _ => True

def Core.Ordered (k : Core NodeID Cmd) : Prop :=
  Consensus.Ordered LogEntry.term k.log.inner k.term

variable [Wire Cmd]

theorem ordered_wire {l : Log Cmd} {T : Term} :
    Ordered LogEntry.term l.wire.inner T ↔ Ordered LogEntry.term l.inner T := by
  have hterm : ∀ e : LogEntry Cmd, e.wire.term = e.term := fun _ => rfl
  constructor
  · rintro ⟨hs, hle⟩
    simp only [Log.wire, List.pairwise_map, List.mem_map, forall_exists_index, and_imp,
      forall_apply_eq_imp_iff₂, hterm] at hs hle
    exact ⟨hs, hle⟩
  · rintro ⟨hs, hle⟩
    refine ⟨List.pairwise_map.mpr hs, fun e he => ?_⟩
    obtain ⟨e', he', rfl⟩ := List.mem_map.mp he
    exact hle e' he'

theorem RaftMessage.ordered_wire {m : RaftMessage Cmd} : m.wire.Ordered ↔ m.Ordered := by
  cases m with
  | appendEntries T ci pi pt es =>
    have hentries : ∀ t : Term, (∀ e ∈ es.wire.inner, t ≤ e.term) ↔ ∀ e ∈ es.inner, t ≤ e.term := by
      intro t
      simp [Log.wire, LogEntry.wire]
    simp only [wire, Ordered, Miniraft.ordered_wire, hentries]
  | _ => exact Iff.rfl

variable [DecidableEq NodeID]

namespace Move

variable {a : Action NodeID Cmd} {k k' : Core NodeID Cmd} {h h' : History NodeID Cmd}
  {recv : Option (NodeID × RaftMessage Cmd)} {fresh : Outgoing NodeID Cmd}

omit [Wire Cmd] in
/-- What a leader sends from an ordered log is ordered. -/
theorem ordered_appends {next : Map NodeID LogIndex} {x : NodeID × RaftMessage Cmd}
    (hk : k.Ordered) (hx : k.Appends next x) : x.2.Ordered := by
  obtain ⟨ni, ci, -, -, hbody⟩ := hx.body
  rw [hbody]
  refine ⟨Consensus.Ordered.drop hk _, fun t ht => ?_⟩
  obtain ⟨idx, hidx, e, he, rfl⟩ : ∃ idx, ni.dec = some idx ∧ ∃ e, k.log.get idx = some e ∧
      e.term = t := by
    simpa [Option.bind_eq_some_iff] using ht
  have hlt : idx.natPred < ni.natPred := by
    have := upTo_dec ni
    rw [hidx, upTo_some] at this
    have := idx.natPred_add_one
    omega
  exact ⟨hk.le e (List.mem_of_getElem? he), fun e' he' => hk.le_drop he hlt he'⟩

omit [DecidableEq NodeID] in
/-- The check of the previous term makes the splice keep the order. -/
theorem ordered_accept {ci pi : Option LogIndex} {pt : Option Term} {es log : Log Cmd}
    {commit applied : ℕ} {apps : List (LogIndex × LogEntry Cmd)}
    {drops : List (LogEntry Cmd × ℕ)} (hk : k.Ordered)
    (hm : RaftMessage.Ordered (.appendEntries k.term ci pi pt es))
    (hacc : Accepts k ci pi pt es log commit applied apps drops) :
    Consensus.Ordered LogEntry.term log.inner k.term := by
  rcases hacc.spliced with ⟨-, rfl, -⟩ | ⟨hle, hlog, -⟩
  · exact hk
  rw [hlog]
  refine Consensus.Ordered.splice hk hm.1 hle fun e he w hw => ?_
  cases pi with
  | none => simp at he
  | some idx =>
    have hpos : idx.natPred + 1 = idx := idx.natPred_add_one
    simp only [upTo_some] at hle he
    obtain ⟨last, hlast⟩ : ∃ last, k.log.inner[idx.natPred]? = some last :=
      ⟨_, List.getElem?_eq_getElem (by omega)⟩
    have hpt : pt = some last.term := by
      rw [← hacc.consistent]
      simp [Log.get, hlast]
    obtain ⟨j, hj, rfl⟩ := List.mem_take_iff_getElem.mp he
    have hej : k.log.inner[j]? = some k.log.inner[j] := List.getElem?_eq_getElem _
    refine le_trans ?_ ((hm.2 last.term hpt).2 w hw)
    rcases Nat.lt_or_eq_of_le (show j ≤ idx.natPred by omega) with hlt | rfl
    · refine hk.le_drop hej hlt (List.mem_of_getElem? (i := 0) ?_)
      simpa [List.getElem?_drop] using hlast
    · exact le_of_eq (congrArg LogEntry.term (Option.some.inj (hej.symm.trans hlast)))

/-- Every move keeps logs ordered and sends ordered requests. -/
theorem ordered (hm : Move a k h recv k' h' fresh) (hk : k.Ordered)
    (hrecv : ∀ p m, recv = some (p, m) → m.Ordered) :
    k'.Ordered ∧ ∀ x ∈ fresh, x.2.Ordered := by
  have hsingle : ∀ {p : NodeID} {m : RaftMessage Cmd}, m.Ordered →
      ∀ x ∈ [(p, m)], RaftMessage.Ordered x.2 := by
    intro p m hm x hx
    obtain rfl := List.mem_singleton.mp hx
    exact hm
  cases hm with
  | quiet => exact ⟨hk, by simp⟩
  | stepDown hlt => exact ⟨Consensus.Ordered.mono hk hlt.le, by simp⟩
  | stand hlt _ =>
    refine ⟨Consensus.Ordered.mono hk hlt.le, fun x hx => ?_⟩
    obtain ⟨p, -, rfl⟩ := List.mem_map.mp hx
    trivial
  | replicate _ happ => exact ⟨hk, fun x hx => ordered_appends hk (happ x hx)⟩
  | win _ _ _ _ happ | retreat _ _ happ => exact ⟨hk, fun x hx => ordered_appends hk (happ x hx)⟩
  | refuse | grant _ _ _ _ | stale _ | mismatch _ => exact ⟨hk, hsingle trivial⟩
  | count _ | ack _ _ _ _ _ => exact ⟨hk, by simp⟩
  | accept _ _ hacc =>
    have hlog := ordered_accept hk (hrecv _ _ rfl) hacc
    exact ⟨hlog, hsingle trivial⟩
  | append _ _ => exact ⟨Consensus.Ordered.append hk rfl, by simp⟩

end Move

namespace Node

variable {n n' : Node NodeID Cmd} {a : Action NodeID Cmd} {msgs : Outgoing NodeID Cmd}

/-- Everything a node has is ordered: its log, what is or soon will be in the file, and what it
holds back. -/
structure Ordered (n : Node NodeID Cmd) : Prop where
  log : n.state.core.Ordered
  stored : n.stored.Ordered
  snapshot : ∀ {p rs}, n.raftLoop = .snapshotted p rs → p.Ordered
  pending : ∀ x ∈ n.pending, RaftMessage.Ordered x.2

theorem ordered_persistent {s : State NodeID Cmd} {p : Persistent NodeID Cmd}
    (hs : s.persistent = .ok p) (hlog : s.core.Ordered) : p.Ordered := by
  have hterm : p.currentTerm = s.core.term := congrArg Ballot.term (ballot_of_persistent hs)
  unfold Persistent.Ordered
  rw [log_of_persistent hs, hterm]
  exact Miniraft.ordered_wire.mp hlog

/-- What is in the file or a snapshot after a step was so before, or it is the state of the
node. -/
theorem Ordered.files (H : n.Ordered) (hs : n.step a = .ok (n', msgs)) :
    n'.stored.Ordered ∧ ∀ {p rs}, n'.raftLoop = .snapshotted p rs → p.Ordered := by
  cases a with
  | election clk | replicate clk =>
    simp only [step, Except.bind_eq_ok_iff, Except.pure_eq_ok_iff, Prod.mk.injEq] at hs
    obtain ⟨_, -, rfl, -⟩ := hs
    exact ⟨H.stored, H.snapshot⟩
  | receive p m | handle clk =>
    simp only [step] at hs
    split at hs
    · simp only [Except.bind_eq_ok_iff, Except.pure_eq_ok_iff, Prod.mk.injEq] at hs
      obtain ⟨_, -, rfl, -⟩ := hs
      exact ⟨H.stored, by simp⟩
    · simp at hs
  | snapshot =>
    simp only [step] at hs
    split at hs
    · simp only [Except.bind_eq_ok_iff, Except.pure_eq_ok_iff, Prod.mk.injEq, locked_eq_ok] at hs
      obtain ⟨p, hp, rfl, -⟩ := hs
      refine ⟨H.stored, fun hloop => ?_⟩
      cases hloop
      exact ordered_persistent hp H.log
    · simp at hs
  | persist ok =>
    simp only [step] at hs
    split at hs
    · next p rs hloop =>
      split at hs
      · simp only [Except.pure_eq_ok_iff, Prod.mk.injEq] at hs
        obtain ⟨rfl, -⟩ := hs
        exact ⟨Miniraft.ordered_wire.mpr (H.snapshot hloop), by simp⟩
      · simp only [Except.pure_eq_ok_iff, Prod.mk.injEq] at hs
        obtain ⟨rfl, -⟩ := hs
        exact ⟨H.stored, by simp⟩
    · simp at hs
  | respond =>
    simp only [step] at hs
    split at hs
    · simp only [Except.pure_eq_ok_iff, Prod.mk.injEq] at hs
      obtain ⟨rfl, -⟩ := hs
      exact ⟨H.stored, by simp⟩
    · simp at hs
  | clientRequest _ | clientAppend =>
    simp only [step] at hs
    split at hs
    · simp only [Except.pure_eq_ok_iff, Prod.mk.injEq] at hs
      obtain ⟨rfl, -⟩ := hs
      exact ⟨H.stored, H.snapshot⟩
    · simp at hs
  | clientReplicate clk =>
    simp only [step] at hs
    split at hs
    · simp only [Except.bind_eq_ok_iff, Except.pure_eq_ok_iff, Prod.mk.injEq] at hs
      obtain ⟨_, -, rfl, -⟩ := hs
      exact ⟨H.stored, H.snapshot⟩
    · simp at hs
  | crash =>
    simp only [step, Except.pure_eq_ok_iff, Prod.mk.injEq] at hs
    obtain ⟨rfl, -⟩ := hs
    exact ⟨H.stored, by simp⟩

/-- A step keeps everything ordered and sends ordered requests, if it handles an ordered one. -/
theorem Ordered.step (H : n.Ordered) (hready : n.Ready) (hs : n.step a = .ok (n', msgs))
    (hm : ∀ p m, n.Handles a p m → m.Ordered) :
    n'.Ordered ∧ ∀ x ∈ msgs, RaftMessage.Ordered x.2 := by
  obtain ⟨hstored, hsnapshot⟩ := H.files hs
  rcases Classical.em (a = .crash) with rfl | ha
  · simp only [Node.step, Except.pure_eq_ok_iff, Prod.mk.injEq] at hs
    obtain ⟨rfl, rfl⟩ := hs
    exact ⟨⟨Miniraft.ordered_wire.mpr H.stored, hstored, hsnapshot, by simp [Node.pending]⟩, by simp⟩
  · obtain ⟨recv, fresh, hmove, hrecv, hout⟩ := step_move hready hs ha
    obtain ⟨hlog, hfresh⟩ := hmove.ordered H.log fun p m hpm => hm p m (hrecv p m hpm)
    have hsent : ∀ x, x ∈ n'.pending ∨ x ∈ msgs → RaftMessage.Ordered x.2 := by
      intro x hx
      rcases hout x hx with hx | hx
      · exact H.pending x hx
      · exact RaftMessage.ordered_wire.mp (hfresh _ hx)
    exact ⟨⟨hlog, hstored, hsnapshot, fun x hx => hsent x (.inl hx)⟩, fun x hx => hsent x (.inr hx)⟩

end Node

namespace Cluster

variable {cfg : Config NodeID} {c c' : Cluster NodeID Cmd}

/-- Terms are ordered on every node, in its file and its snapshot, and in every message. -/
structure TermsOrdered (c : Cluster NodeID Cmd) : Prop where
  log : ∀ i, Ordered LogEntry.term (c.nodes i).state.c.log.inner (c.nodes i).state.c.currentTerm
  stored : ∀ i, (c.nodes i).stored.Ordered
  snapshot : ∀ i p rs, (c.nodes i).raftLoop = .snapshotted p rs → p.Ordered
  sent : ∀ e ∈ c.network, e.body.Ordered

variable [DecidableEq Cmd]

theorem ordered_step {i : NodeID} {a : Action NodeID Cmd} (hwf : c.WellFormed cfg)
    (hnodes : ∀ i, (c.nodes i).Ordered) (hsent : ∀ e ∈ c.network, e.body.Ordered)
    (hs : c.step cfg (i, a) = .ok c') :
    (∀ i, (c'.nodes i).Ordered) ∧ ∀ e ∈ c'.network, e.body.Ordered := by
  obtain ⟨-, -, n, msgs, hn, rfl⟩ := step_eq_ok hs
  obtain ⟨hn', hmsgs⟩ := (hnodes i).step hwf.ready hn fun p m hh => hsent _ (hwf.handles hh)
  constructor
  · intro j
    rcases eq_or_ne j i with rfl | hj
    · rwa [update_self]
    · rw [update_of_ne hj]
      exact hnodes j
  · intro e he
    rcases mem_update.mp he with he | ⟨x, hx, rfl⟩
    · exact hsent e he
    · exact RaftMessage.ordered_wire.mpr (hmsgs x hx)

/-- Along every run the terms of logs, snapshots and requests are ordered. -/
theorem log_terms_ordered (hrun : Run (step cfg) (fun _ _ => True) (boot cfg) c) :
    TermsOrdered c := by
  have hall : c.WellFormed cfg ∧ (∀ i, (c.nodes i).Ordered) ∧ ∀ e ∈ c.network, e.body.Ordered := by
    refine Run.invariant (I := fun c => c.WellFormed cfg ∧ (∀ i, (c.nodes i).Ordered) ∧
      ∀ e ∈ c.network, e.body.Ordered) hrun ⟨.boot, fun i => ?_, by simp [boot]⟩ ?_
    · exact ⟨ordered_nil, ordered_nil, by simp [boot, Node.boot], by simp [boot, Node.boot, Node.pending]⟩
    · rintro c ⟨i, a⟩ c' ⟨hwf, hnodes, hsent⟩ - hs
      exact ⟨hwf.step hs, ordered_step hwf hnodes hsent hs⟩
  obtain ⟨-, hnodes, hsent⟩ := hall
  exact ⟨fun i => ordered_wire.mp (hnodes i).log, fun i => (hnodes i).stored,
    fun i p rs hloop => (hnodes i).snapshot hloop, hsent⟩

end Cluster

namespace Example

open Cluster

/-- The leader `a` of term 1 is asked to vote in term 2 and appends command 7 after it has stepped
down. It refuses its vote, and crashes. -/
def belated : List (Label String ℕ) :=
  List.flatten [
    elected, [("a", .clientRequest 7), ("b", .election (at_ 1000)),
      ("a", .receive "b" (.requestVote 2 none none)), ("a", .clientAppend), ("a", .handle (at_ 0)),
      ("a", .snapshot), ("a", .persist true), ("a", .respond), ("a", .crash)]]

def logOf (i : String) (c : Cluster String ℕ) : Term × List (LogEntry ℕ) :=
  ((c.nodes i).state.c.currentTerm, (c.nodes i).state.c.log.inner)

theorem log_terms_ordered_belated : ∃ c, Run (step pair) (fun _ _ => True) (boot pair) c ∧
    logOf "a" c = (2, [⟨7, 2⟩]) ∧ TermsOrdered c := by
  have hexec : (Run.exec (step pair) (fun _ _ => true) belated (boot pair)).map (logOf "a") =
      some (2, [⟨7, 2⟩]) := by
    decide +kernel
  obtain ⟨c, hrun, hc⟩ := Run.exists_of_exec hexec fun _ _ _ => trivial
  exact ⟨c, hrun, hc, log_terms_ordered hrun⟩

end Example

end Miniraft

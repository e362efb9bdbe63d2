import Miniraft.Verify.Leadership

/-!
# Role assertions never fire

The assertions about roles, terms, votes and the tables of a leader hold in every crash-free run
(`Cluster.role_assertions_hold`): a node only handles a message after it has stepped down to its
term, a second leader of a term would contradict election safety, and candidates and leaders are
equipped with what they need (`Stance.Furnished`). What is left are the limit of the log's length
and the two assertions of `advance_state_machine`.
-/

namespace Miniraft

open Consensus

variable {NodeID Cmd : Type}

/-- The assertions about roles, terms, votes and the tables of a leader. -/
def Panic.ofRole : Panic → Bool
  | .logLengthLimit | .overtaken | .missingEntry => false
  | _ => true

/-- The computation does not run into one of them. -/
abbrev Holds {α : Type} (x : Except Panic α) : Prop := x.Raises fun p => p.ofRole = false

theorem Term.holds_step {t : Term} (h : t + 1 < 2 ^ 64) : Holds (Term.step t) := by
  have hlt : t < (t + 1) % 2 ^ 64 := by
    rw [Nat.mod_eq_of_lt h]
    exact Nat.lt_succ_self t
  unfold Term.step Term.set
  rw [if_pos hlt]
  exact .pure _

theorem LogIndex.holds_inc (i : LogIndex) : Holds i.inc := by
  unfold inc
  split
  · exact .pure _
  · exact .throw rfl

theorem LogIndex.holds_incOrDefault (i : Option LogIndex) : Holds (incOrDefault i) := by
  cases i with
  | none => exact .pure _
  | some i => exact i.holds_inc

theorem Log.holds_replaceLoop {l : Log Cmd} {i : LogIndex} {ts ws : List (LogEntry Cmd)} :
    Holds (l.replaceLoop i ts ws) := by
  induction ts generalizing i ws with
  | nil => exact .pure _
  | cons t ts ih =>
    cases ws with
    | nil => exact .pure _
    | cons w ws =>
      simp only [replaceLoop]
      split
      · exact .pure _
      · exact (i.holds_inc).bind fun _ _ => ih

theorem Log.holds_replaceFrom {l : Log Cmd} {i : LogIndex} {ws : List (LogEntry Cmd)} :
    Holds (l.replaceFrom i ws) := by
  unfold replaceFrom
  split
  · exact .pure _
  · exact holds_replaceLoop

namespace State

variable {s : State NodeID Cmd} {clk : Clock} {p : NodeID}

theorem holds_applyLoop {log : Log Cmd} {ci : Option LogIndex} {fuel : ℕ} {la : Option LogIndex} :
    Holds (applyLoop log ci fuel la) := by
  induction fuel generalizing la with
  | zero => exact .pure _
  | succ fuel ih =>
    simp only [applyLoop]
    split
    · refine (LogIndex.holds_incOrDefault la).bind fun next _ => ?_
      split
      · exact .throw rfl
      · exact ih.bind fun _ _ => .pure _
    · exact .pure _

theorem holds_advanceStateMachine : Holds s.advanceStateMachine := by
  unfold advanceStateMachine
  split
  · exact .throw rfl
  · exact holds_applyLoop.bind fun _ _ => .pure _

theorem holds_followCommitIndex {ci : Option LogIndex} : Holds (s.followCommitIndex ci) := by
  unfold followCommitIndex
  split
  · exact holds_advanceStateMachine
  · exact .pure _

theorem holds_maybeStepDown {T : Term} : Holds (s.maybeStepDown T) := by
  unfold maybeStepDown
  split
  · next hlt =>
    unfold Term.set
    rw [if_pos hlt]
    exact .pure _
  · exact .pure _

theorem holds_maybeBeginElection (hT : s.c.currentTerm + 1 < 2 ^ 64) :
    Holds (s.maybeBeginElection clk) := by
  unfold maybeBeginElection
  split
  · exact .pure _
  next hpassed =>
  have hlater : s.c.electionDeadline < clk.later :=
    (not_not.mp hpassed).trans_le clk.now_le_later
  cases hr : s.r with
  | leader _ _ _ => exact .pure _
  | follower _ _ | candidate _ =>
    simp only [becomeCandidate, hlater, not_true_eq_false, if_false, hr]
    exact (Term.holds_step hT).bind fun _ _ => .pure _

/-- What the assertions about roles rely on: the node has peers, is none of them, and is
equipped for its role. -/
structure Equipped [DecidableEq NodeID] (s : State NodeID Cmd) : Prop where
  peers : s.c.nodeIds ≠ []
  self : s.c.id ∉ s.c.nodeIds
  furnished : s.r.stance.Furnished s.c.id s.c.nodeIds

variable [DecidableEq NodeID]

theorem holds_persistent (hs : s.Equipped) : Holds s.persistent := by
  unfold persistent
  cases hr : s.r with
  | follower _ _ | leader _ _ _ => exact .pure _
  | candidate votes =>
    have hself := hs.furnished
    rw [hr] at hself
    simp only [not_not.mpr (show s.c.id ∈ votes from hself), if_false]
    exact .pure _

theorem holds_replicateLog (hs : s.Equipped) : Holds (s.replicateLog clk) := by
  unfold replicateLog
  cases hr : s.r with
  | follower _ _ | candidate _ => exact .pure _
  | leader next mtch lr =>
    have hf := hs.furnished
    rw [hr] at hf
    simp only
    split
    · exact .pure _
    · refine Except.Raises.bind (.mapM fun p hp => ?_) fun _ _ => .pure _
      obtain ⟨ni, hni⟩ := Option.isSome_iff_exists.mp (AList.lookup_isSome.mpr (hf.1 p hp))
      simp only [replicateTo, hni]
      split
      · exact .pure _
      · exact .pure _

theorem equipped_leader {mtch : Map NodeID (Option LogIndex)} {next : Map NodeID LogIndex}
    {lr : Option Instant} (hs : s.Equipped) (hnext : ∀ p ∈ s.c.nodeIds, p ∈ next)
    (hmtch : ∀ p ∈ s.c.nodeIds, p ∈ mtch) :
    Equipped { s with r := .leader next mtch lr } :=
  ⟨hs.peers, hs.self, hnext, hmtch⟩

theorem holds_becomeLeader {votes : Finset NodeID} (hs : s.Equipped)
    (hr : s.r = .candidate votes) : Holds (s.becomeLeader clk) := by
  unfold becomeLeader
  simp only [hr, hs.self, if_false]
  refine (LogIndex.holds_incOrDefault _).bind fun next _ => ?_
  apply holds_replicateLog
  exact equipped_leader hs (fun p hp => (Map.mem_ofKeys ..).mpr hp)
    fun p hp => (Map.mem_ofKeys ..).mpr hp

theorem holds_advanceCommitIndex {next : Map NodeID LogIndex}
    {mtch : Map NodeID (Option LogIndex)} {lr : Option Instant} (hs : s.Equipped)
    (hr : s.r = .leader next mtch lr) : Holds s.advanceCommitIndex := by
  unfold advanceCommitIndex
  simp only [hr]
  split
  · exact .pure _
  next values hvalues =>
  split
  · next hnone =>
    -- There is a peer, so there is a match index.
    obtain ⟨p, hp⟩ := List.exists_mem_of_ne_nil _ hs.peers
    have hf := hs.furnished
    rw [hr] at hf
    have hmem : p ∈ mtch := hf.2 p hp
    have hlen : values.length = mtch.keys.length := by
      have := congrArg List.length (eq_map_some_of_mapM hvalues)
      simpa [Map.values, AList.keys, List.keys] using this.symm
    have hpos : 0 < mtch.keys.length := List.length_pos_of_mem hmem
    unfold lowerMedian at hnone
    rw [List.getElem?_eq_none_iff, List.length_insertionSort] at hnone
    omega
  split
  · exact .pure _
  split
  · exact .pure _
  · exact holds_advanceStateMachine

/-! ## Handlers -/

theorem holds_handleVoteRequest {T : Term} {li : Option LogIndex} {lt : Option Term}
    (hp : s.c.id ≠ p) : Holds (s.handleVoteRequest clk p T li lt) := by
  unfold handleVoteRequest
  simp only [hp, if_false]
  split
  · exact .pure _
  · exact .pure _

theorem holds_handleVoteResponse {T : Term} {granted : Bool} (hs : s.Equipped)
    (hT : T ≤ s.c.currentTerm) : Holds (s.handleVoteResponse clk p T granted) := by
  unfold handleVoteResponse
  split
  · exact .pure _
  cases hr : s.r with
  | follower _ _ | leader _ _ _ => exact .pure _
  | candidate votes =>
    have hself : s.c.id ∈ votes := by
      have := hs.furnished
      rwa [hr] at this
    simp only [not_not.mpr hself, if_false]
    split
    · next hlt => exact absurd (compare_lt_iff_lt.mp hlt) (not_lt.mpr hT)
    · split
      · exact holds_becomeLeader ⟨hs.peers, hs.self, Finset.mem_insert_of_mem hself⟩ rfl
      · exact .pure _
    · exact .pure _

theorem holds_handleAppendEntries {T : Term} {ci pi : Option LogIndex} {pt : Option Term}
    {es : Log Cmd} (hT : T ≤ s.c.currentTerm) (hp : s.c.id ≠ p)
    (hlead : T = s.c.currentTerm → s.isLeader = false) :
    Holds (s.handleAppendEntries clk p T ci pi pt es) := by
  unfold handleAppendEntries
  simp only
  split
  · exact .pure _
  next hge =>
  have heq : T = s.c.currentTerm := le_antisymm hT (not_lt.mp hge)
  simp only [heq, ne_eq, not_true_eq_false, if_false, cancelCandidacy_c]
  split
  · simp only [Common.extendElectionDeadline, hp, if_false]
    refine .ite (fun _ => .pure _) fun _ => ?_
    refine (LogIndex.holds_incOrDefault _).bind fun _ _ => ?_
    refine Log.holds_replaceFrom.bind fun _ _ => ?_
    exact holds_followCommitIndex.bind fun _ _ => .pure _
  · next hnot =>
    -- After the candidacy is cancelled, only a leader is not a follower.
    have hl := hlead heq
    cases hr : s.r with
    | follower leader v => exact absurd (by simp [cancelCandidacy, hr]) (hnot leader v)
    | candidate votes =>
      exact absurd (by simp [cancelCandidacy, becomeFollower, hr]; rfl) (hnot none (some s.c.id))
    | leader _ _ _ => simp [isLeader, hr] at hl

theorem holds_handleAppendEntriesResponse {success : Bool} {i : Option LogIndex}
    (hs : s.Equipped) : Holds (s.handleAppendEntriesResponse clk p success i) := by
  unfold handleAppendEntriesResponse
  cases hr : s.r with
  | follower _ _ | candidate _ => exact .pure _
  | leader next mtch lr =>
    have hf := hs.furnished
    rw [hr] at hf
    simp only
    split
    · exact .pure _
    split
    · refine (holds_replicateLog (equipped_leader hs (fun q hq => ?_) hf.2)).bind
        fun _ _ => .pure _
      exact AList.mem_insert _ |>.mpr (.inr (hf.1 q hq))
    split
    · exact .pure _
    split
    · exact .pure _
    · refine (LogIndex.holds_inc _).bind fun ni _ => ?_
      refine (holds_advanceCommitIndex (equipped_leader hs (fun q hq => ?_) fun q hq => ?_)
        rfl).bind fun _ _ => .pure _
      · exact AList.mem_insert _ |>.mpr (.inr (hf.1 q hq))
      · exact AList.mem_insert _ |>.mpr (.inr (hf.2 q hq))

/-- A handler does not run into the assertions about roles, if the message is of no later term and
from another node, and is not a second leader's. -/
theorem holds_handle {m : RaftMessage Cmd} (hs : s.Equipped) (hT : m.term ≤ s.c.currentTerm)
    (hp : s.c.id ≠ p)
    (hlead : ∀ ci pi pt es, m = .appendEntries s.c.currentTerm ci pi pt es → s.isLeader = false) :
    Holds (s.handle clk p m) := by
  cases m with
  | requestVote T li lt => exact (holds_handleVoteRequest hp).bind fun _ _ => .pure _
  | requestVoteResponse T granted =>
    exact (holds_handleVoteResponse hs hT).bind fun _ _ => .pure _
  | appendEntries T ci pi pt es =>
    refine (holds_handleAppendEntries hT hp fun heq => ?_).bind fun _ _ => .pure _
    obtain rfl : T = s.c.currentTerm := heq
    exact hlead ci pi pt es rfl
  | appendEntriesResponse T i success =>
    exact (holds_handleAppendEntriesResponse hs).bind fun _ _ => .pure _

end State

/-- A step does not run into an assertion about roles. -/
abbrev Runs {α : Type} (x : Except Halt α) : Prop :=
  x.Raises fun h => ∀ p, h = .panicked p → p.ofRole = false

theorem Holds.locked {α : Type} {x : Except Panic α} (h : Holds x) : Runs (locked x) := by
  intro e he p hp
  subst hp
  cases x with
  | ok a => cases he
  | error q =>
    cases he
    exact h _ rfl

theorem runs_notEnabled {α : Type} : Runs (throw .notEnabled : Except Halt α) :=
  .throw (by simp)

variable [DecidableEq NodeID]

/-- What a node relies on about the message it is about to handle. -/
structure Node.Expects (n : Node NodeID Cmd) (p : NodeID) (m : RaftMessage Cmd) : Prop where
  term : m.term ≤ n.state.c.currentTerm
  other : n.state.c.id ≠ p
  leader : ∀ ci pi pt es, m = .appendEntries n.state.c.currentTerm ci pi pt es →
    n.state.isLeader = false

theorem Node.runs_step [Wire Cmd] {n : Node NodeID Cmd} {a : Action NodeID Cmd}
    (hs : n.state.Equipped) (hT : n.state.c.currentTerm + 1 < 2 ^ 64)
    (hm : ∀ p m, n.raftLoop = .stepped p m → n.Expects p m) : Runs (n.step a) := by
  cases a with
  | election clk =>
    simp only [step]
    exact (State.holds_maybeBeginElection hT).locked.bind fun _ _ => .pure _
  | replicate clk =>
    simp only [step]
    exact (State.holds_replicateLog hs).locked.bind fun _ _ => .pure _
  | receive p m =>
    simp only [step]
    split
    · exact State.holds_maybeStepDown.locked.bind fun _ _ => .pure _
    · exact runs_notEnabled
  | handle clk =>
    simp only [step]
    split
    · next p m hloop =>
      have he := hm p m hloop
      exact (State.holds_handle hs he.term he.other he.leader).locked.bind fun _ _ => .pure _
    · exact runs_notEnabled
  | snapshot =>
    simp only [step]
    split
    · exact (State.holds_persistent hs).locked.bind fun _ _ => .pure _
    · exact runs_notEnabled
  | persist ok =>
    simp only [step]
    split
    · exact .ite (fun _ => .pure _) fun _ => .pure _
    · exact runs_notEnabled
  | respond | clientRequest _ | clientAppend =>
    simp only [step]
    split
    · exact .pure _
    · exact runs_notEnabled
  | clientReplicate clk =>
    simp only [step]
    split
    · exact (State.holds_replicateLog hs).locked.bind fun _ _ => .pure _
    · exact runs_notEnabled
  | crash => exact .pure _

namespace Cluster

variable [Wire Cmd] {cfg : Config NodeID} {c : Cluster NodeID Cmd} {e : Election NodeID}
  {i : NodeID}

theorem Leads.equipped (H : Leads cfg c e) (hi : i ∈ cfg.ids) : (c.nodes i).state.Equipped where
  peers := by
    have hlen := cfg.length_peers hi
    have hcard : cfg.members.card = cfg.ids.length := List.toFinset_card_of_nodup cfg.nodup
    have htwo := cfg.two_le
    rw [H.holds.wf.peers i]
    intro hnil
    rw [hnil, List.length_nil] at hlen
    omega
  self := by
    rw [H.holds.wf.peers i, H.holds.wf.id i, Config.peers]
    simp
  furnished := (H.holds.node i hi).2.2

theorem Leads.expects (H : Leads cfg c e) (hi : i ∈ cfg.ids) {p : NodeID} {m : RaftMessage Cmd}
    (hloop : (c.nodes i).raftLoop = .stepped p m) : (c.nodes i).Expects p m := by
  obtain ⟨hmem, hle⟩ := H.holds.wf.stepped hloop
  obtain ⟨-, hne, hlead⟩ := H.holds.sent _ hmem
  refine ⟨hle, ?_, ?_⟩
  · rw [H.holds.wf.id i]
    exact hne.symm
  · rintro ci pi pt es rfl
    cases hl : (c.nodes i).state.isLeader with
    | false => rfl
    | true =>
      -- The sender and this node would both lead the term.
      have hself := elections.leader_of_isLeader (H.holds.node i hi).1 hl
      exact absurd (Option.some.inj (hlead.symm.trans hself)) hne

variable [DecidableEq Cmd]

/-- In crash-free runs of fewer than `2^64` terms no step runs into an assertion about roles,
terms, votes or the tables of a leader. -/
theorem role_assertions_hold (hrun : Run (step cfg) CrashFree (boot cfg) c)
    (hterms : ∀ i ∈ cfg.ids, (c.nodes i).state.c.currentTerm + 1 < 2 ^ 64) (l : Label NodeID Cmd)
    {p : Panic} (hp : p.ofRole) : c.step cfg l ≠ .error (.panicked p) := by
  obtain ⟨e, -, H⟩ := leads_run hrun (leads_boot cfg)
  obtain ⟨i, a⟩ := l
  intro herror
  have hruns : Runs (c.step cfg (i, a)) := by
    simp only [step]
    refine .ite (fun hi => ?_) fun _ => runs_notEnabled
    refine (Node.runs_step (H.equipped hi.1) (hterms i hi.1) ?_).bind fun _ _ => .pure _
    exact fun p m hloop => H.expects hi.1 hloop
  rw [hruns _ herror p rfl] at hp
  cases hp

end Cluster

namespace Example

def termsOf (c : Cluster String ℕ) : List Term :=
  pair.ids.map fun i => (c.nodes i).state.c.currentTerm

/-- After the election of `a` both nodes are in term 1, and no next step trips an assertion. -/
theorem role_assertions_hold_elected : ∃ c, Run (Cluster.step pair) Cluster.CrashFree (.boot pair) c ∧
    leads c = (true, 1) ∧ termsOf c = [1, 1] ∧
    ∀ l p, Panic.ofRole p → c.step pair l ≠ .error (.panicked p) := by
  have hexec : (Run.exec (Cluster.step pair) crashFree elected (.boot pair)).map
      (fun c => (leads c, termsOf c)) = some ((true, 1), [1, 1]) := by
    decide +kernel
  obtain ⟨c, hrun, hc⟩ := Run.exists_of_exec hexec fun _ _ => of_decide_eq_true
  obtain ⟨hlead, hterms⟩ := Prod.mk.inj hc
  refine ⟨c, hrun, hlead, hterms, fun l p hp => ?_⟩
  refine Cluster.role_assertions_hold hrun (fun i hi => ?_) l hp
  have hmem : (c.nodes i).state.c.currentTerm ∈ termsOf c := List.mem_map.mpr ⟨i, hi, rfl⟩
  rw [hterms] at hmem
  simp only [List.mem_cons, List.not_mem_nil, or_false, or_self] at hmem
  rw [hmem]
  decide

end Example

end Miniraft

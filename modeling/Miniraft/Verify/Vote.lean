import Miniraft.Verify.Durability

/-!
# Votes of the current term

`maybe_step_down` asks `become_follower` to forget the vote, which a candidate or leader does. A
follower stays as it is, and so does its vote of an older term. If no node that is a follower with
a vote is moved to a later term by a message (`Cluster.StepsDownVoteless`), then a vote is always
one of the current term, and a follower that has not voted grants its vote to any candidate that is
up-to-date (`Cluster.votes_current`).
-/

namespace Miniraft

open Consensus

variable {NodeID Cmd : Type} [DecidableEq NodeID]

namespace State

variable {s s' : State NodeID Cmd} {clk : Clock} {p : NodeID}

/-- What `handle_vote_request` does to the vote. -/
theorem handleVoteRequest_vote [Wire Cmd] {T : Term} {li : Option LogIndex} {lt : Option Term}
    {m : RaftMessage Cmd} (hT : T ≤ s.c.currentTerm)
    (hs : s.handleVoteRequest clk p T li lt = .ok (s', m)) :
    s' = s ∨ T = s.c.currentTerm ∧ s'.core = { s.core with stance := .follower (some p) } ∧
      m = .requestVoteResponse s.c.currentTerm true := by
  unfold handleVoteRequest at hs
  split at hs
  · simp at hs
  split at hs
  · next leader v hr =>
    simp only [Except.pure_eq_ok_iff, Prod.mk.injEq] at hs
    obtain ⟨rfl, rfl⟩ := hs
    cases hgrant : voteGranted s.c v p T li lt with
    | false => exact .inl rfl
    | true =>
      refine .inr ⟨le_antisymm hT ?_, rfl, rfl⟩
      simp only [voteGranted, Bool.if_false_left, Bool.and_eq_true, Bool.not_eq_true',
        decide_eq_false_iff_not, not_lt] at hgrant
      exact hgrant.1
  · simp only [Except.pure_eq_ok_iff, Prod.mk.injEq] at hs
    exact .inl hs.1.symm

/-- A log with last term `lt` and last index `li` is at least as up-to-date as `log`, in the order
of pairs. -/
def AtLeast (log : Log Cmd) (li : Option LogIndex) (lt : Option Term) : Prop :=
  log.last.map (·.term) < lt ∨ log.last.map (·.term) = lt ∧ upTo log.highestIndex ≤ upTo li

omit [DecidableEq NodeID] in
theorem upToDate_of_atLeast {log : Log Cmd} {li : Option LogIndex} {lt : Option Term}
    (h : AtLeast log li lt) : upToDate log li lt = true := by
  unfold upToDate
  rcases h with hlt | ⟨heq, hle⟩
  · have hgt : compare lt (log.last.map (·.term)) = .gt := by
      cases lt with
      | none => cases h : log.last.map (·.term) <;> simp [h] at hlt
      | some t =>
        cases h : log.last.map (·.term) with
        | none => rfl
        | some u =>
          rw [h] at hlt
          exact compare_gt_iff_gt.mpr (Option.some_lt_some.mp hlt)
    rw [hgt]
  · have hcmp : compare lt (log.last.map (·.term)) = .eq := by
      rw [heq]
      cases lt with
      | none => rfl
      | some t => exact compare_eq_iff_eq.mpr (rfl : t = t)
    rw [hcmp]
    exact decide_eq_true hle

/-- A follower without a vote grants it to an up-to-date candidate of its term. -/
theorem handleVoteRequest_granted {leader : Option NodeID} {li : Option LogIndex}
    {lt : Option Term} (hr : s.r = .follower leader none) (hp : s.c.id ≠ p)
    (hup : AtLeast s.c.log li lt) : ∃ s', s.handleVoteRequest clk p s.c.currentTerm li lt =
      .ok (s', .requestVoteResponse s.c.currentTerm true) := by
  have hgrant : voteGranted s.c none p s.c.currentTerm li lt = true := by
    simp [voteGranted, upToDate_of_atLeast hup]
  unfold handleVoteRequest
  simp only [hp, hr, hgrant, if_true, if_false]
  exact ⟨_, rfl⟩

end State

variable [Wire Cmd]

theorem Move.granted_subset {a : Action NodeID Cmd} {k k' : Core NodeID Cmd}
    {h h' : History NodeID Cmd} {recv : Option (NodeID × RaftMessage Cmd)}
    {fresh : Outgoing NodeID Cmd} (hm : Move a k h recv k' h' fresh) : h.granted ⊆ h'.granted := by
  cases hm with
  | grant _ _ _ _ => exact List.subset_cons_self _ _
  | _ => exact List.Subset.refl _

/-- What handling anything but a request for a vote does to the stance. -/
theorem Move.stance_cases {a : Action NodeID Cmd} {k k' : Core NodeID Cmd}
    {h h' : History NodeID Cmd} {q : NodeID} {m : RaftMessage Cmd} {fresh : Outgoing NodeID Cmd}
    (hm : Move a k h (some (q, m)) k' h' fresh) (hne : ∀ T li lt, m ≠ .requestVote T li lt) :
    k'.term = k.term ∧ (k'.stance = k.stance ∨
      (¬ k.stance.IsLeader ∧ k'.stance = k.stance.stepDown (some k.id)) ∨
      ∀ v, k'.stance ≠ .follower v) := by
  cases hm with
  | quiet | stale _ => exact ⟨rfl, .inl rfl⟩
  | refuse | grant _ _ _ _ => exact absurd rfl (hne _ _ _)
  | count _ | win _ _ _ _ _ | retreat _ _ _ | ack _ _ _ _ _ => exact ⟨rfl, .inr (.inr (by simp))⟩
  | mismatch hlead | accept hlead _ _ => exact ⟨rfl, .inr (.inl ⟨hlead, rfl⟩)⟩

namespace Node

variable {n n' : Node NodeID Cmd} {a : Action NodeID Cmd} {msgs : Outgoing NodeID Cmd}
  {p : NodeID}

/-- Where the vote of a follower comes from. -/
inductive Votes (n : Node NodeID Cmd) (a : Action NodeID Cmd) (n' : Node NodeID Cmd)
    (p : NodeID) : Prop
  | kept : n.state.core.stance = .follower (some p) →
    n'.state.core.term = n.state.core.term → Votes n a n' p
  /-- A message of a later term has moved the follower to this term. -/
  | stale {q m} : n.state.core.stance = .follower (some p) → a = .receive q m →
    n.state.core.term < m.term → Votes n a n' p
  | granted : (n.state.core.term, p) ∈ n'.history.granted →
    n'.state.core.term = n.state.core.term → Votes n a n' p
  /-- A candidate gets in line behind the leader of its term. -/
  | own {votes} : n.state.core.stance = .candidate votes → p = n.state.core.id →
    n'.state.core.term = n.state.core.term → Votes n a n' p

omit [DecidableEq NodeID] in
theorem votes_of_core (hcore : n'.state.core = n.state.core)
    (hv : n'.state.core.stance = .follower (some p)) : Votes n a n' p :=
  .kept (hcore ▸ hv) (congrArg Core.term hcore)

omit [DecidableEq NodeID] in
/-- Getting in line gives a candidate its own vote. -/
theorem votes_of_stepDown (hid : n'.state.core.term = n.state.core.term)
    (hlead : ¬ n.state.core.stance.IsLeader)
    (hv : n.state.core.stance.stepDown (some n.state.core.id) = .follower (some p)) :
    Votes n a n' p := by
  cases hst : n.state.core.stance with
  | follower v =>
    rw [hst] at hv
    exact .kept (hst.trans hv) hid
  | candidate votes =>
    rw [hst] at hv
    cases hv
    exact .own hst rfl hid
  | leader next mtch => exact absurd (hst ▸ trivial) hlead

theorem votes_handle {clk : Clock} (hready : n.Ready) (hs : n.step (.handle clk) = .ok (n', msgs))
    (hv : n'.state.core.stance = .follower (some p)) : Votes n (.handle clk) n' p := by
  simp only [step] at hs
  split at hs
  · next q m hloop =>
    obtain ⟨hwire, hterm⟩ := hready q m hloop
    simp only [Except.bind_eq_ok_iff, Except.pure_eq_ok_iff, Prod.mk.injEq, Prod.exists,
      locked_eq_ok] at hs
    obtain ⟨s', responses, effects, hs, rfl, -⟩ := hs
    cases m with
    | requestVote T li lt =>
      simp only [State.handle, Except.bind_eq_ok_iff, Except.pure_eq_ok_iff, Prod.mk.injEq,
        Prod.exists] at hs
      obtain ⟨s'', m', hs, rfl, rfl, -⟩ := hs
      rcases State.handleVoteRequest_vote hterm hs with rfl | ⟨rfl, hcore, rfl⟩
      · exact votes_of_core rfl hv
      · obtain rfl : q = p := by
          have hst : s''.core.stance = .follower (some q) := congrArg Core.stance hcore
          exact Option.some.inj (Stance.follower.inj (hst.symm.trans hv))
        have hT := congrArg Core.term hcore
        exact .granted List.mem_cons_self hT
    | _ =>
      obtain ⟨fresh, hm, -⟩ := State.handle_move (a := .handle clk) (h := n.history) hwire hterm hs
      obtain ⟨hT, hst | ⟨hlead, hst⟩ | hst⟩ := hm.stance_cases (by simp)
      · exact .kept (hst.symm.trans hv) hT
      · exact votes_of_stepDown hT hlead (hst.symm.trans hv)
      · exact absurd hv (hst _)
  · simp at hs

/-- Where the vote of a follower comes from after a step. -/
theorem step_votes (hready : n.Ready) (hs : n.step a = .ok (n', msgs)) (ha : a ≠ .crash)
    (hv : n'.state.core.stance = .follower (some p)) : Votes n a n' p := by
  cases a with
  | election clk =>
    simp only [step, Except.bind_eq_ok_iff, Except.pure_eq_ok_iff, Prod.mk.injEq, Prod.exists,
      locked_eq_ok] at hs
    obtain ⟨s', msgs', hs, rfl, -⟩ := hs
    rcases State.maybeBeginElection_eq_ok hs with ⟨hcore, -⟩ | ⟨T, -, -, hcore, -⟩
    · exact votes_of_core hcore hv
    · have hst := congrArg Core.stance hcore
      cases hst.symm.trans hv
  | replicate clk =>
    simp only [step, Except.bind_eq_ok_iff, Except.pure_eq_ok_iff, Prod.mk.injEq, Prod.exists,
      locked_eq_ok] at hs
    obtain ⟨s', msgs', hs, rfl, -⟩ := hs
    exact votes_of_core (State.replicateLog_eq_ok hs).1 hv
  | receive q m =>
    simp only [step] at hs
    split at hs
    · simp only [Except.bind_eq_ok_iff, Except.pure_eq_ok_iff, Prod.mk.injEq, locked_eq_ok] at hs
      obtain ⟨s', hs, rfl, -⟩ := hs
      rcases State.maybeStepDown_eq_ok hs with ⟨rfl, -⟩ | ⟨hlt, hcore⟩
      · exact votes_of_core rfl hv
      · have hst := congrArg Core.stance hcore
        have hdown := hst.symm.trans hv
        cases hk : n.state.core.stance with
        | follower v =>
          simp only [hk, Stance.stepDown] at hdown
          exact .stale (hk.trans hdown) rfl hlt
        | candidate _ | leader _ _ =>
          simp only [hk, Stance.stepDown] at hdown
          cases hdown
    · simp at hs
  | handle clk => exact votes_handle hready hs hv
  | snapshot =>
    simp only [step] at hs
    split at hs
    · simp only [Except.bind_eq_ok_iff, Except.pure_eq_ok_iff, Prod.mk.injEq] at hs
      obtain ⟨_, -, rfl, -⟩ := hs
      exact votes_of_core rfl hv
    · simp at hs
  | persist ok =>
    simp only [step] at hs
    split at hs
    · split at hs
      · simp only [Except.pure_eq_ok_iff, Prod.mk.injEq] at hs
        obtain ⟨rfl, -⟩ := hs
        exact votes_of_core rfl hv
      · simp only [Except.pure_eq_ok_iff, Prod.mk.injEq] at hs
        obtain ⟨rfl, -⟩ := hs
        exact votes_of_core rfl hv
    · simp at hs
  | respond | clientRequest _ =>
    simp only [step] at hs
    split at hs
    · simp only [Except.pure_eq_ok_iff, Prod.mk.injEq] at hs
      obtain ⟨rfl, -⟩ := hs
      exact votes_of_core rfl hv
    · simp at hs
  | clientAppend =>
    simp only [step] at hs
    split at hs
    · simp only [Except.pure_eq_ok_iff, Prod.mk.injEq] at hs
      obtain ⟨rfl, -⟩ := hs
      exact .kept hv rfl
    · simp at hs
  | clientReplicate clk =>
    simp only [step] at hs
    split at hs
    · simp only [Except.bind_eq_ok_iff, Except.pure_eq_ok_iff, Prod.mk.injEq, Prod.exists,
        locked_eq_ok] at hs
      obtain ⟨s', msgs', hs, rfl, -⟩ := hs
      exact votes_of_core (State.replicateLog_eq_ok hs).1 hv
    · simp at hs
  | crash => exact absurd rfl ha

end Node

namespace Cluster

variable {cfg : Config NodeID} {c c' : Cluster NodeID Cmd} {i : NodeID}

/-- No message of a later term moves a follower that has a vote. -/
def StepsDownVoteless (c : Cluster NodeID Cmd) (l : Label NodeID Cmd) : Prop :=
  match l.2, (c.nodes l.1).state.r with
  | .receive _ m, .follower _ (some _) => m.term ≤ (c.nodes l.1).state.c.currentTerm
  | _, _ => True

/-- The term of a message that a follower with a vote receives. -/
def heard : Action NodeID Cmd → Role NodeID → Option Term
  | .receive _ m, .follower _ (some _) => some m.term
  | _, _ => none

omit [DecidableEq NodeID] [Wire Cmd] in
theorem stepsDownVoteless_iff {l : Label NodeID Cmd} : StepsDownVoteless c l ↔
    ∀ T ∈ heard l.2 (c.nodes l.1).state.r, T ≤ (c.nodes l.1).state.c.currentTerm := by
  unfold StepsDownVoteless heard
  split <;> simp

instance (c : Cluster NodeID Cmd) (l : Label NodeID Cmd) : Decidable (StepsDownVoteless c l) :=
  decidable_of_iff _ stepsDownVoteless_iff.symm

/-- Node `i` has voted for `p` in term `T`: it has granted a request of `p`, or it is `p` and has
started an election. -/
def HasVoted (c : Cluster NodeID Cmd) (i : NodeID) (T : Term) (p : NodeID) : Prop :=
  (p = i ∧ T ∈ (c.nodes i).history.elections) ∨ (T, p) ∈ (c.nodes i).history.granted

/-- The vote of a follower is one of its term, and a follower that has not voted in its term
grants the request of any candidate that is up-to-date. -/
structure VotesCurrent (cfg : Config NodeID) (c : Cluster NodeID Cmd) : Prop where
  cast : ∀ i ∈ cfg.ids, ∀ leader p, (c.nodes i).state.r = .follower leader (some p) →
    HasVoted c i (c.nodes i).state.c.currentTerm p
  grants : ∀ i ∈ cfg.ids, ∀ leader votedFor, (c.nodes i).state.r = .follower leader votedFor →
    (∀ p, ¬ HasVoted c i (c.nodes i).state.c.currentTerm p) →
    ∀ clk candidate li lt, candidate ≠ i → State.AtLeast (c.nodes i).state.c.log li lt →
      ∃ s, (c.nodes i).state.handleVoteRequest clk candidate (c.nodes i).state.c.currentTerm li lt =
        .ok (s, .requestVoteResponse (c.nodes i).state.c.currentTerm true)

/-- No crash, and no follower that has a vote is moved to a later term by a message. -/
def Fresh (c : Cluster NodeID Cmd) (l : Label NodeID Cmd) : Prop :=
  CrashFree c l ∧ StepsDownVoteless c l

instance (c : Cluster NodeID Cmd) (l : Label NodeID Cmd) : Decidable (Fresh c l) :=
  inferInstanceAs (Decidable (_ ∧ _))

/-- What the votes and candidacies of a cluster rest on. -/
structure Voted (cfg : Config NodeID) (c : Cluster NodeID Cmd) : Prop where
  wf : c.WellFormed cfg
  stood : ∀ i, (c.nodes i).state.core.stance.IsFollower ∨
    (c.nodes i).state.core.term ∈ (c.nodes i).history.elections
  cast : ∀ i p, (c.nodes i).state.core.stance = .follower (some p) →
    HasVoted c i (c.nodes i).state.core.term p

theorem voted_boot (cfg : Config NodeID) : Voted cfg (boot cfg : Cluster NodeID Cmd) where
  wf := .boot
  stood _ := .inl trivial
  cast i p h := by cases h

/-- A vote is not forgotten. -/
theorem HasVoted.update {j : NodeID} {T : Term} {p : NodeID} {a : Action NodeID Cmd}
    {n : Node NodeID Cmd} {msgs : Outgoing NodeID Cmd} (h : HasVoted c i T p)
    (hready : (c.nodes j).Ready) (hs : (c.nodes j).step a = .ok (n, msgs)) (ha : a ≠ .crash) :
    HasVoted (c.update j n msgs) i T p := by
  unfold HasVoted
  rcases eq_or_ne i j with rfl | hij
  · obtain ⟨recv, fresh, hm, -⟩ := Node.step_move hready hs ha
    rw [update_self]
    exact h.imp (fun h => ⟨h.1, hm.elections_subset h.2⟩) fun h => hm.granted_subset h
  · rwa [update_of_ne hij]

variable [DecidableEq Cmd]

theorem Voted.step {j : NodeID} {a : Action NodeID Cmd} (H : Voted cfg c) (hl : Fresh c (j, a))
    (hs : c.step cfg (j, a) = .ok c') : Voted cfg c' := by
  have hwf := H.wf.step hs
  obtain ⟨-, -, n, msgs, hn, rfl⟩ := step_eq_ok hs
  have hmono : ∀ {i T p}, HasVoted c i T p → HasVoted (c.update j n msgs) i T p :=
    fun h => h.update H.wf.ready hn hl.1.ne
  refine ⟨hwf, fun i => ?_, fun i p hv => ?_⟩
  · rcases eq_or_ne i j with rfl | hij
    · rw [update_self]
      obtain ⟨recv, fresh, hm, -⟩ := Node.step_move H.wf.ready hn hl.1.ne
      exact hm.stood (H.stood i)
    · rw [update_of_ne hij]
      exact H.stood i
  · rcases eq_or_ne i j with rfl | hij
    · rw [update_self] at hv ⊢
      cases Node.step_votes H.wf.ready hn hl.1.ne hv with
      | kept hst hT => exact hT ▸ hmono (H.cast i p hst)
      | @stale q m hst ha hlt =>
        -- The condition on the run excludes this.
        subst ha
        have hvoteless := hl.2
        cases hr : (c.nodes i).state.r with
        | follower leader v =>
          simp only [State.core, hr, Role.stance, Stance.follower.injEq] at hst
          simp only [StepsDownVoteless, hr, hst] at hvoteless
          exact absurd hlt (not_lt.mpr hvoteless)
        | candidate _ | leader _ _ _ =>
          simp only [State.core, hr, Role.stance] at hst
          cases hst
      | granted hgrant hT =>
        right
        rw [hT, update_self]
        exact hgrant
      | own hst hp hT =>
        rw [hT]
        apply hmono
        refine .inl ⟨hp.trans (H.wf.id i), ?_⟩
        apply (H.stood i).resolve_left
        rw [hst]
        exact id
    · rw [update_of_ne hij] at hv ⊢
      exact hmono (H.cast i p hv)

theorem voted_run (hrun : Run (step cfg) Fresh (boot cfg) c) : Voted cfg c :=
  Run.invariant hrun (voted_boot cfg) fun _ _ _ H hl hs => H.step hl hs

/-- If no follower that has a vote is moved to a later term by a message, votes are of the current
term. -/
theorem votes_current (hrun : Run (step cfg) Fresh (boot cfg) c) : VotesCurrent cfg c := by
  have H := voted_run hrun
  have hcast : ∀ i leader p, (c.nodes i).state.r = .follower leader (some p) →
      HasVoted c i (c.nodes i).state.c.currentTerm p := by
    intro i leader p hr
    exact H.cast i p (by simp [State.core, hr, Role.stance])
  refine ⟨fun i _ => hcast i, fun i _ leader votedFor hr hnone clk candidate li lt hne hup => ?_⟩
  cases votedFor with
  | none =>
    refine State.handleVoteRequest_granted hr ?_ hup
    rw [H.wf.id i]
    exact hne.symm
  | some p => exact absurd (hcast i leader p hr) (hnone p)

/-- A run does not take messages back, and keeps the cluster well-formed. -/
theorem network_run {P : Cluster NodeID Cmd → Label NodeID Cmd → Prop}
    (hrun : Run (step cfg) P c c') (hwf : c.WellFormed cfg) :
    c'.WellFormed cfg ∧ c.network ⊆ c'.network := by
  refine Run.invariant (I := fun c' => c'.WellFormed cfg ∧ c.network ⊆ c'.network) hrun
    ⟨hwf, List.Subset.refl _⟩ ?_
  rintro c₁ ⟨i, a⟩ c₂ ⟨hwf, hsub⟩ - hs
  refine ⟨hwf.step hs, fun e he => ?_⟩
  obtain ⟨-, -, n, msgs, -, rfl⟩ := step_eq_ok hs
  exact mem_update.mpr (.inl (hsub he))

end Cluster

namespace Example

open Cluster

/-- The term of `i` and, if it is a follower, its vote, with the votes that it has granted and the
elections that it has started. -/
def votes (i : String) (c : Cluster String ℕ) :
    Term × Option (Option String) × List (Term × String) × List Term :=
  ((c.nodes i).state.c.currentTerm,
    match (c.nodes i).state.r with
    | .follower _ votedFor => some votedFor
    | _ => none,
    (c.nodes i).history.granted, (c.nodes i).history.elections)

theorem votes_eq {c : Cluster String ℕ} {i : String} {T : Term} {v : Option String}
    {granted : List (Term × String)} {elections : List Term}
    (h : votes i c = (T, some v, granted, elections)) :
    (c.nodes i).state.c.currentTerm = T ∧ (∃ leader, (c.nodes i).state.r = .follower leader v) ∧
      (c.nodes i).history.granted = granted ∧ (c.nodes i).history.elections = elections := by
  obtain ⟨hT, hv, hgranted, helections⟩ := by simpa only [votes, Prod.mk.injEq] using h
  refine ⟨hT, ?_, hgranted, helections⟩
  split at hv
  · next leader v' hr =>
    obtain rfl := Option.some.inj hv
    exact ⟨leader, hr⟩
  · cases hv

theorem votes_current_elected : ∃ c, Run (step pair) Fresh (boot pair) c ∧
    votes "b" c = (1, some (some "a"), [(1, "a")], []) ∧ VotesCurrent pair c := by
  have hexec : (Run.exec (step pair) (fun c l => decide (Fresh c l)) elected (boot pair)).map
      (votes "b") = some (1, some (some "a"), [(1, "a")], []) := by
    decide +kernel
  obtain ⟨c, hrun, hc⟩ := Run.exists_of_exec hexec fun _ _ => of_decide_eq_true
  exact ⟨c, hrun, hc, votes_current hrun⟩

/-- `b` votes for `a` in term 1 and is asked by `c` for its vote in term 2. -/
def stuck : List (Label String ℕ) :=
  List.flatten [
    [("a", .election (at_ 1))], deliver "b" "a" (.requestVote 1 none none),
    [("c", .election (at_ 1)), ("c", .election (at_ 1000)),
      ("b", .receive "c" (.requestVote 2 none none))]]

/-- `b` is in term 2 with its vote of term 1. -/
theorem votes_current_stuck : ¬ ∀ c : Cluster String ℕ, Run (step three) CrashFree (boot three) c →
    VotesCurrent three c := by
  intro hall
  have hexec : (Run.exec (step three) crashFree stuck (boot three)).map (votes "b") =
      some (2, some (some "a"), [(1, "a")], []) := by
    decide +kernel
  obtain ⟨c, hrun, hc⟩ := Run.exists_of_exec hexec fun _ _ => of_decide_eq_true
  obtain ⟨hT, ⟨leader, hr⟩, hgranted, helections⟩ := votes_eq hc
  have hvoted := (hall c hrun).cast "b" (by decide) leader "a" hr
  rw [HasVoted, hT, hgranted, helections] at hvoted
  simp at hvoted

end Example

end Miniraft

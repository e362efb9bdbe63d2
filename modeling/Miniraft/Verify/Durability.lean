import Miniraft.Theory.Ballot
import Miniraft.Verify.Election

/-!
# Votes across crashes

A node restarts from its persistence file, which the Raft-message loop writes before it sends its
responses. The election loop sends its requests for votes without writing anything. If no node
crashes before the term of its last election is in the file, then a node supports one candidate a
term and does not forget the term of a message it has sent (`Cluster.one_vote_per_term`).
-/

namespace Miniraft

open Consensus

variable {NodeID Cmd : Type}

namespace Stance

/-- The vote of a node in its term; candidates and leaders have voted for themselves. -/
def vote (id : NodeID) : Stance NodeID → Option NodeID
  | .follower votedFor => votedFor
  | .candidate _ | .leader .. => some id

def IsFollower : Stance NodeID → Prop
  | .follower _ => True
  | _ => False

end Stance

def Core.ballot (k : Core NodeID Cmd) : Ballot NodeID := ⟨k.term, k.stance.vote k.id⟩

def Persistent.ballot (p : Persistent NodeID Cmd) : Ballot NodeID := ⟨p.currentTerm, p.votedFor⟩

def RaftMessage.isResponse : RaftMessage Cmd → Bool
  | .appendEntriesResponse .. | .requestVoteResponse .. => true
  | .appendEntries .. | .requestVote .. => false

/-- The candidate the source of the message supports with it: the destination of a granted vote,
or itself if it asks for votes. -/
def Envelope.support (e : Envelope NodeID Cmd) : Option NodeID :=
  match e.body with
  | .requestVoteResponse _ true => some e.destination
  | .requestVote .. => some e.source
  | _ => none

/-- The ballot accounts for the message. -/
def Knows (b : Ballot NodeID) (e : Envelope NodeID Cmd) : Prop :=
  e.body.term ≤ b.term ∧ ∀ p ∈ e.support, b.Admits e.body.term p

/-- The ballot in the persistence file accounts for the message, which is not said of the term of
a request. -/
def Backs (b : Ballot NodeID) (e : Envelope NodeID Cmd) : Prop :=
  (e.body.isResponse → e.body.term ≤ b.term) ∧ ∀ p ∈ e.support, b.Admits e.body.term p

section

variable {b b' : Ballot NodeID} {e e' : Envelope NodeID Cmd} {p q : NodeID}

theorem Knows.mono (h : Knows b e) (hle : b.Le b') : Knows b' e :=
  ⟨h.1.trans hle.term_le, fun p hp => (h.2 p hp).mono h.1 hle⟩

theorem Knows.backs (h : Knows b e) : Backs b e := ⟨fun _ => h.1, h.2⟩

/-- Messages of the current term support one candidate. -/
theorem Knows.unique (h : Knows b e) (h' : Knows b e') (hb : e.body.term = b.term)
    (hT : e.body.term = e'.body.term) (hp : p ∈ e.support) (hq : q ∈ e'.support) : p = q :=
  (h.2 p hp).unique (hT ▸ h'.2 q hq) hb

/-- A request of a later term does not have to be in the file. -/
theorem Backs.of_lt (hr : e.body.isResponse = false) (hlt : b.term < e.body.term) : Backs b e :=
  ⟨by simp [hr], fun _ _ => Ballot.admits_of_lt hlt⟩

theorem Backs.of_request (hr : e.body.isResponse = false) (hs : e.support = none) : Backs b e :=
  ⟨by simp [hr], by simp [hs]⟩

end

variable [Wire Cmd]

namespace Node

/-- The messages a node holds back, as they will be sent. -/
def held (i : NodeID) (n : Node NodeID Cmd) : List (Envelope NodeID Cmd) :=
  n.pending.map fun x => ⟨i, x.1, x.2.wire⟩

/-- What is or soon will be in the persistence file, with the messages that wait for it. -/
def backups (i : NodeID) (n : Node NodeID Cmd) :
    List (Ballot NodeID × List (Envelope NodeID Cmd)) :=
  match n.raftLoop with
  | .snapshotted p _ => [(n.stored.ballot, []), (p.ballot, n.held i)]
  | .persisted _ => [(n.stored.ballot, n.held i)]
  | _ => [(n.stored.ballot, [])]

/-- What node `i` and its persistence file know, if it has sent `sent`. -/
structure Durable (i : NodeID) (n : Node NodeID Cmd) (sent : List (Envelope NodeID Cmd)) :
    Prop where
  known : ∀ e ∈ sent ++ n.held i, Knows n.state.core.ballot e
  unique : ∀ e ∈ sent ++ n.held i, ∀ e' ∈ sent ++ n.held i, e.body.term = e'.body.term →
    ∀ p ∈ e.support, ∀ q ∈ e'.support, p = q
  requests : ∀ e ∈ sent ++ n.held i, e.body.isResponse = false →
    e.body.term ∈ n.history.elections
  stood : n.state.core.stance.IsFollower ∨ n.state.core.term ∈ n.history.elections
  backups_le : ∀ b ∈ n.backups i, b.1.term ≤ n.state.core.term
  backed : ∀ b ∈ n.backups i, ∀ e ∈ sent ++ b.2, Backs b.1 e

end Node

namespace Move

variable [DecidableEq NodeID] {a : Action NodeID Cmd} {k k' : Core NodeID Cmd}
  {h h' : History NodeID Cmd} {recv : Option (NodeID × RaftMessage Cmd)}
  {fresh : Outgoing NodeID Cmd}

omit [Wire Cmd] [DecidableEq NodeID] in
theorem ballot_stepDown (hlead : ¬ k.stance.IsLeader) :
    (k.stance.stepDown (some k.id)).vote k.id = k.stance.vote k.id := by
  cases hst : k.stance with
  | follower v => rfl
  | candidate votes => rfl
  | leader next mtch => simp [hst, Stance.IsLeader] at hlead

theorem ballot_le (hm : Move a k h recv k' h' fresh) : k.ballot.Le k'.ballot := by
  cases hm with
  | stepDown hlt => exact .inl hlt
  | stand hlt _ => exact .inl hlt
  | grant _ hst hv _ =>
    refine .inr ⟨rfl, ?_⟩
    simp only [Core.ballot, hst, Stance.vote]
    rcases hv with rfl | rfl
    · exact .inl rfl
    · exact .inr rfl
  | count hst => exact .inr ⟨rfl, .inr (by simp [Core.ballot, hst, Stance.vote])⟩
  | win hst _ _ _ _ => exact .inr ⟨rfl, .inr (by simp [Core.ballot, hst, Stance.vote])⟩
  | mismatch hlead => exact .inr ⟨rfl, .inr (ballot_stepDown hlead)⟩
  | accept hlead _ _ => exact .inr ⟨rfl, .inr (ballot_stepDown hlead)⟩
  | retreat hst _ _ => exact .inr ⟨rfl, .inr (by simp [Core.ballot, hst, Stance.vote])⟩
  | ack hst _ _ _ _ => exact .inr ⟨rfl, .inr (by simp [Core.ballot, hst, Stance.vote])⟩
  | _ => exact .refl _

theorem elections_subset (hm : Move a k h recv k' h' fresh) : h.elections ⊆ h'.elections := by
  cases hm with
  | stand _ _ => exact List.subset_cons_self _ _
  | _ => exact List.Subset.refl _

/-- Candidates and leaders have started an election in their term. -/
theorem stood (hm : Move a k h recv k' h' fresh)
    (hst : k.stance.IsFollower ∨ k.term ∈ h.elections) :
    k'.stance.IsFollower ∨ k'.term ∈ h'.elections := by
  have hdown : ∀ v, (k.stance.stepDown v).IsFollower := by
    intro v
    cases k.stance <;> trivial
  have hstood : ¬ k.stance.IsFollower → k.term ∈ h.elections := hst.resolve_left
  cases hm with
  | stepDown _ | mismatch _ | accept _ _ _ => exact .inl (hdown _)
  | stand _ _ => exact .inr (List.mem_cons_self ..)
  | grant _ _ _ _ => exact .inl trivial
  | count hk | win hk _ _ _ _ | retreat hk _ _ | ack hk _ _ _ _ =>
    apply Or.inr
    apply hstood
    rw [hk]
    exact id
  | _ => exact hst

/-- What a move produces is of the term of the node, and its ballot accounts for it. -/
theorem fresh_known (hm : Move a k h recv k' h' fresh) {x : NodeID × RaftMessage Cmd}
    (hx : x ∈ fresh) : x.2.term = k'.term ∧ Knows k'.ballot ⟨k.id, x.1, x.2⟩ := by
  have happends : ∀ {next st}, k.Appends next x →
      x.2.term = k.term ∧ Knows { k with stance := st }.ballot ⟨k.id, x.1, x.2⟩ := by
    intro next st hx
    obtain ⟨ni, ci, -, -, hbody⟩ := hx.body
    rw [hbody]
    exact ⟨rfl, le_rfl, by simp [Envelope.support]⟩
  cases hm with
  | quiet | stepDown _ | count _ | ack _ _ _ _ _ | append _ _ => cases hx
  | stand _ _ =>
    obtain ⟨p, -, rfl⟩ := List.mem_map.mp hx
    refine ⟨rfl, le_rfl, fun p hp _ => ?_⟩
    exact hp
  | replicate _ happ | retreat _ _ happ | win _ _ _ _ happ => exact happends (happ x hx)
  | grant _ _ _ _ =>
    obtain rfl := List.mem_singleton.mp hx
    exact ⟨rfl, le_rfl, fun p hp _ => hp⟩
  | refuse | stale _ | mismatch _ | accept _ _ _ =>
    obtain rfl := List.mem_singleton.mp hx
    exact ⟨rfl, le_rfl, by simp [Envelope.support]⟩

/-- A node that sends a request has started an election in its term. -/
theorem fresh_request (hm : Move a k h recv k' h' fresh)
    (hst : k.stance.IsFollower ∨ k.term ∈ h.elections) {x : NodeID × RaftMessage Cmd}
    (hx : x ∈ fresh) (hr : x.2.isResponse = false) : k'.term ∈ h'.elections := by
  have hstood : ¬ k.stance.IsFollower → k.term ∈ h.elections := hst.resolve_left
  cases hm with
  | quiet | stepDown _ | count _ | ack _ _ _ _ _ | append _ _ => cases hx
  | stand _ _ => exact List.mem_cons_self ..
  | replicate hk _ | retreat hk _ _ | win hk _ _ _ _ =>
    apply hstood
    rw [hk]
    exact id
  | refuse | grant _ _ _ _ | stale _ | mismatch _ | accept _ _ _ =>
    obtain rfl := List.mem_singleton.mp hx
    cases hr

end Move

namespace Node

variable [DecidableEq NodeID] {i : NodeID} {n n' : Node NodeID Cmd} {a : Action NodeID Cmd}
  {msgs : Outgoing NodeID Cmd} {sent : List (Envelope NodeID Cmd)}

theorem ballot_of_persistent {s : State NodeID Cmd} {p : Persistent NodeID Cmd}
    (hs : s.persistent = .ok p) : p.ballot = s.core.ballot := by
  unfold State.persistent at hs
  split at hs
  · next hr =>
    cases hs
    simp [Persistent.ballot, Core.ballot, State.core, hr, Role.stance, Stance.vote]
  · next hr =>
    split at hs
    · simp at hs
    · cases hs
      simp [Persistent.ballot, Core.ballot, State.core, hr, Role.stance, Stance.vote]
  · next hr =>
    cases hs
    simp [Persistent.ballot, Core.ballot, State.core, hr, Role.stance, Stance.vote]

/-- A message that may be sent when `waiting` has waited for the file to be written. -/
def Sendable (n : Node NodeID Cmd) (waiting : List (Envelope NodeID Cmd))
    (e : Envelope NodeID Cmd) : Prop :=
  e ∈ waiting ∨ e.body.isResponse = false ∧ (e.support = none ∨ n.state.core.term < e.body.term)

theorem sendable_election {clk : Clock} (hs : n.step (.election clk) = .ok (n', msgs))
    (w : List (Envelope NodeID Cmd)) :
    n'.backups i = n.backups i ∧ ∀ x ∈ msgs, n.Sendable w ⟨i, x.1, x.2.wire⟩ := by
  simp only [step, Except.bind_eq_ok_iff, Except.pure_eq_ok_iff, Prod.mk.injEq, Prod.exists,
    locked_eq_ok] at hs
  obtain ⟨s', msgs', hs, rfl, rfl⟩ := hs
  refine ⟨rfl, fun x hx => ?_⟩
  rcases State.maybeBeginElection_eq_ok hs with ⟨-, rfl⟩ | ⟨T, hT, -, -, rfl⟩
  · cases hx
  · obtain ⟨p, -, rfl⟩ := List.mem_map.mp hx
    exact .inr ⟨rfl, .inr hT⟩

omit [DecidableEq NodeID] in
theorem sendable_appendEntries {waiting : List (Envelope NodeID Cmd)} {d : NodeID} {T : Term}
    {ci pi : Option LogIndex} {pt : Option Term} {es : Log Cmd} :
    n.Sendable waiting ⟨i, d, .appendEntries T ci pi pt es⟩ :=
  .inr ⟨rfl, .inl rfl⟩

theorem sendable_replicate {clk : Clock} {s' : State NodeID Cmd}
    (hs : n.state.replicateLog clk = .ok (s', msgs)) {waiting : List (Envelope NodeID Cmd)} :
    ∀ x ∈ msgs, n.Sendable waiting ⟨i, x.1, x.2.wire⟩ := by
  intro x hx
  obtain ⟨-, hmsgs⟩ := State.replicateLog_eq_ok hs
  rcases hmsgs with ⟨rfl, -⟩ | ⟨next, mtch, -, happ⟩
  · cases hx
  · obtain ⟨ni, ci, -, -, hbody⟩ := (happ x hx).body
    change x.2.wire = _ at hbody
    rw [hbody]
    exact sendable_appendEntries

/-- What is or will be in the file after a step was so before, with the messages that are sent, or
it is the ballot of the node. -/
theorem step_backups (hs : n.step a = .ok (n', msgs)) (ha : a ≠ .crash) :
    ∀ b' ∈ n'.backups i,
      (∃ b ∈ n.backups i, b'.1 = b.1 ∧ b'.2 ⊆ b.2 ∧
        ∀ x ∈ msgs, n.Sendable b.2 ⟨i, x.1, x.2.wire⟩) ∨
      (b'.1 = n.state.core.ballot ∧ b'.2 ⊆ n.held i ∧ msgs = []) := by
  intro b' hb'
  cases a with
  | election clk =>
    obtain ⟨heq, hmsgs⟩ := sendable_election hs (i := i) b'.2
    exact .inl ⟨b', heq ▸ hb', rfl, List.Subset.refl _, hmsgs⟩
  | replicate clk =>
    simp only [step, Except.bind_eq_ok_iff, Except.pure_eq_ok_iff, Prod.mk.injEq, Prod.exists,
      locked_eq_ok] at hs
    obtain ⟨s', msgs', hs, rfl, rfl⟩ := hs
    exact .inl ⟨b', hb', rfl, List.Subset.refl _, sendable_replicate hs⟩
  | clientReplicate clk =>
    simp only [step] at hs
    split at hs
    · simp only [Except.bind_eq_ok_iff, Except.pure_eq_ok_iff, Prod.mk.injEq, Prod.exists,
        locked_eq_ok] at hs
      obtain ⟨s', msgs', hs, rfl, rfl⟩ := hs
      exact .inl ⟨b', hb', rfl, List.Subset.refl _, sendable_replicate hs⟩
    · simp at hs
  | clientRequest _ | clientAppend =>
    simp only [step] at hs
    split at hs
    · simp only [Except.pure_eq_ok_iff, Prod.mk.injEq] at hs
      obtain ⟨rfl, rfl⟩ := hs
      exact .inl ⟨b', hb', rfl, List.Subset.refl _, by simp⟩
    · simp at hs
  | receive _ _ | handle _ =>
    simp only [step] at hs
    split at hs
    · next hloop =>
      simp only [Except.bind_eq_ok_iff, Except.pure_eq_ok_iff, Prod.mk.injEq] at hs
      obtain ⟨_, -, rfl, rfl⟩ := hs
      obtain rfl := List.mem_singleton.mp hb'
      exact .inl ⟨_, by simp [backups, hloop], rfl, List.Subset.refl _, by simp⟩
    · simp at hs
  | snapshot =>
    simp only [step] at hs
    split at hs
    · next responses hloop =>
      simp only [Except.bind_eq_ok_iff, Except.pure_eq_ok_iff, Prod.mk.injEq, locked_eq_ok] at hs
      obtain ⟨p, hp, rfl, rfl⟩ := hs
      simp only [backups, List.mem_cons, List.not_mem_nil, or_false] at hb'
      rcases hb' with rfl | rfl
      · exact .inl ⟨_, by simp [backups, hloop], rfl, List.Subset.refl _, by simp⟩
      · refine .inr ⟨ballot_of_persistent hp, ?_, rfl⟩
        simp [held, pending, hloop]
    · simp at hs
  | persist ok =>
    simp only [step] at hs
    split at hs
    · next p responses hloop =>
      split at hs
      · simp only [Except.pure_eq_ok_iff, Prod.mk.injEq] at hs
        obtain ⟨rfl, rfl⟩ := hs
        obtain rfl := List.mem_singleton.mp hb'
        refine .inl ⟨(p.ballot, n.held i), by simp [backups, hloop], rfl, ?_, by simp⟩
        simp [held, pending, hloop]
      · simp only [Except.pure_eq_ok_iff, Prod.mk.injEq] at hs
        obtain ⟨rfl, rfl⟩ := hs
        obtain rfl := List.mem_singleton.mp hb'
        exact .inl ⟨_, by simp [backups, hloop], rfl, List.Subset.refl _, by simp⟩
    · simp at hs
  | respond =>
    simp only [step] at hs
    split at hs
    · next responses hloop =>
      simp only [Except.pure_eq_ok_iff, Prod.mk.injEq] at hs
      obtain ⟨rfl, rfl⟩ := hs
      obtain rfl := List.mem_singleton.mp hb'
      refine .inl ⟨(n.stored.ballot, n.held i), by simp [backups, hloop], rfl, by simp, ?_⟩
      intro x hx
      refine .inl (List.mem_map.mpr ⟨x, ?_, rfl⟩)
      simpa [pending, hloop] using hx
    · simp at hs
  | crash => exact absurd rfl ha

/-- A step keeps what a node and its file know. -/
theorem Durable.step (H : n.Durable i sent) (hid : n.state.c.id = i) (hready : n.Ready)
    (hs : n.step a = .ok (n', msgs)) (ha : a ≠ .crash) :
    n'.Durable i (sent ++ msgs.map fun x => ⟨i, x.1, x.2.wire⟩) := by
  obtain ⟨recv, fresh, hm, -, hout⟩ := step_move hready hs ha
  have hid : n.state.core.id = i := hid
  have hmem : ∀ e ∈ (sent ++ msgs.map fun x => ⟨i, x.1, x.2.wire⟩) ++ n'.held i,
      e ∈ sent ++ n.held i ∨ ∃ x ∈ fresh, e = ⟨i, x.1, x.2⟩ := by
    intro e he
    have hnew : ∀ x, x ∈ n'.pending ∨ x ∈ msgs → e = ⟨i, x.1, x.2.wire⟩ →
        e ∈ sent ++ n.held i ∨ ∃ x ∈ fresh, e = ⟨i, x.1, x.2⟩ := by
      rintro x hx rfl
      rcases hout x hx with hx | hx
      · exact .inl (List.mem_append_right _ (List.mem_map_of_mem hx))
      · exact .inr ⟨_, hx, rfl⟩
    rcases List.mem_append.mp he with he | he
    · rcases List.mem_append.mp he with he | he
      · exact .inl (List.mem_append_left _ he)
      · obtain ⟨x, hx, rfl⟩ := List.mem_map.mp he
        exact hnew x (.inr hx) rfl
    · obtain ⟨x, hx, rfl⟩ := List.mem_map.mp he
      exact hnew x (.inl hx) rfl
  have hknown : ∀ e ∈ (sent ++ msgs.map fun x => ⟨i, x.1, x.2.wire⟩) ++ n'.held i,
      Knows n'.state.core.ballot e := by
    intro e he
    rcases hmem e he with he | ⟨x, hx, rfl⟩
    · exact (H.known e he).mono hm.ballot_le
    · exact hid ▸ (hm.fresh_known hx).2
  refine ⟨hknown, ?_, ?_, hm.stood H.stood, ?_, ?_⟩
  · intro e he e' he' hT p hp q hq
    -- A message the move has produced is of the term of the node.
    rcases hmem e he with hold | ⟨x, hx, rfl⟩
    · rcases hmem e' he' with hold' | ⟨x, hx, rfl⟩
      · exact H.unique e hold e' hold' hT p hp q hq
      · exact ((hknown _ he').unique (hknown e he) (hm.fresh_known hx).1 hT.symm hq hp).symm
    · exact (hknown _ he).unique (hknown e' he') (hm.fresh_known hx).1 hT hp hq
  · intro e he hr
    rcases hmem e he with he | ⟨x, hx, rfl⟩
    · exact hm.elections_subset (H.requests e he hr)
    · exact (hm.fresh_known hx).1 ▸ hm.fresh_request H.stood hx hr
  · intro b' hb'
    rcases step_backups hs ha b' hb' with ⟨b, hb, heq, -, -⟩ | ⟨heq, -, -⟩
    · exact heq ▸ (H.backups_le b hb).trans hm.term_le
    · exact heq ▸ hm.term_le
  · intro b' hb' e he
    rcases step_backups hs ha b' hb' with ⟨b, hb, heq, hsub, hmsgs⟩ | ⟨heq, hsub, rfl⟩
    · rw [heq]
      rcases List.mem_append.mp he with he | he
      · rcases List.mem_append.mp he with he | he
        · exact H.backed b hb e (List.mem_append_left _ he)
        · obtain ⟨x, hx, rfl⟩ := List.mem_map.mp he
          rcases hmsgs x hx with hw | ⟨hr, hs | hlt⟩
          · exact H.backed b hb _ (List.mem_append_right _ hw)
          · exact .of_request hr hs
          · exact .of_lt hr ((H.backups_le b hb).trans_lt hlt)
      · exact H.backed b hb e (List.mem_append_right _ (hsub he))
    · rw [heq]
      refine (H.known e ?_).backs
      simp only [List.map_nil, List.append_nil] at he
      rcases List.mem_append.mp he with he | he
      · exact List.mem_append_left _ he
      · exact List.mem_append_right _ (hsub he)

/-- A node may crash when the terms of its elections are in the file. -/
theorem Durable.crash (H : n.Durable i sent) (hs : n.step .crash = .ok (n', msgs))
    (hstored : ∀ T ∈ n.history.elections, T ≤ n.stored.currentTerm) :
    n'.Durable i (sent ++ msgs.map fun x => ⟨i, x.1, x.2.wire⟩) := by
  simp only [Node.step, Except.pure_eq_ok_iff, Prod.mk.injEq] at hs
  obtain ⟨rfl, rfl⟩ := hs
  have hfile : ∃ b ∈ n.backups i, b.1 = n.stored.ballot := by
    unfold backups
    split <;> simp
  obtain ⟨b, hb, hbal⟩ := hfile
  have hbacks : ∀ e ∈ sent, Backs n.stored.ballot e := fun e he =>
    hbal ▸ H.backed b hb e (List.mem_append_left _ he)
  have hold : ∀ e ∈ sent, e ∈ sent ++ n.held i := fun e he => List.mem_append_left _ he
  simp only [List.map_nil, List.append_nil]
  refine ⟨?_, ?_, ?_, .inl trivial, ?_, ?_⟩
  all_goals simp only [held, pending, backups, List.map_nil, List.append_nil, List.mem_singleton,
    forall_eq]
  · intro e he
    refine ⟨?_, (hbacks e he).2⟩
    cases hr : e.body.isResponse with
    | true => exact (hbacks e he).1 hr
    | false => exact hstored _ (H.requests e (hold e he) hr)
  · exact fun e he e' he' => H.unique e (hold e he) e' (hold e' he')
  · exact fun e he => H.requests e (hold e he)
  · exact le_rfl
  · exact hbacks

end Node

namespace Cluster

variable {i : NodeID} {a : Action NodeID Cmd} {c c' : Cluster NodeID Cmd}

/-- A node crashes only when the terms of the elections it has started are in its persistence
file. -/
def CrashesPersisted (c : Cluster NodeID Cmd) (l : Label NodeID Cmd) : Prop :=
  l.2.isCrash → ∀ T ∈ (c.nodes l.1).history.elections, T ≤ (c.nodes l.1).stored.currentTerm

instance (c : Cluster NodeID Cmd) (l : Label NodeID Cmd) : Decidable (CrashesPersisted c l) :=
  inferInstanceAs (Decidable (_ → _))

/-- Node `i` has supported candidate `p` in term `T`: it has sent a vote for it or, if it is `p`
itself, has asked for votes. -/
def Supports (c : Cluster NodeID Cmd) (i : NodeID) (T : Term) (p : NodeID) : Prop :=
  ∃ e ∈ c.network, e.source = i ∧ e.body.term = T ∧ e.support = some p

/-- A node supports one candidate a term, and its term is not below that of a message it has
sent. -/
def OneVotePerTerm (cfg : Config NodeID) (c : Cluster NodeID Cmd) : Prop :=
  ∀ i ∈ cfg.ids, (∀ T p q, c.Supports i T p → c.Supports i T q → p = q) ∧
    ∀ e ∈ c.network, e.source = i → e.body.term ≤ (c.nodes i).state.c.currentTerm

variable [DecidableEq NodeID]

def sentBy (c : Cluster NodeID Cmd) (i : NodeID) : List (Envelope NodeID Cmd) :=
  c.network.filter (·.source = i)

theorem sentBy_update_self (n : Node NodeID Cmd) (msgs : Outgoing NodeID Cmd) :
    (c.update i n msgs).sentBy i = c.sentBy i ++ msgs.map fun x => ⟨i, x.1, x.2.wire⟩ := by
  simp only [sentBy, update, List.filter_append, List.append_cancel_left_eq, List.filter_eq_self]
  intro e he
  obtain ⟨x, -, rfl⟩ := List.mem_map.mp he
  simp

theorem sentBy_update_of_ne {j : NodeID} (h : j ≠ i) (n : Node NodeID Cmd)
    (msgs : Outgoing NodeID Cmd) : (c.update i n msgs).sentBy j = c.sentBy j := by
  simp only [sentBy, update, List.filter_append]
  apply List.append_right_eq_self.mpr
  apply List.filter_eq_nil_iff.mpr
  intro e he
  obtain ⟨x, -, rfl⟩ := List.mem_map.mp he
  simpa using h.symm

variable [DecidableEq Cmd] {cfg : Config NodeID}

theorem durable_step (H : ∀ i, (c.nodes i).Durable i (c.sentBy i)) (hwf : c.WellFormed cfg)
    (hP : CrashesPersisted c (i, a)) (hs : c.step cfg (i, a) = .ok c') :
    ∀ j, (c'.nodes j).Durable j (c'.sentBy j) := by
  intro j
  obtain ⟨-, -, n, msgs, hn, rfl⟩ := step_eq_ok hs
  rcases eq_or_ne j i with rfl | hj
  · rw [update_self, sentBy_update_self]
    rcases Classical.em (a = .crash) with rfl | ha
    · exact (H j).crash hn (hP rfl)
    · exact (H j).step (hwf.id j) hwf.ready hn ha
  · rw [update_of_ne hj, sentBy_update_of_ne hj]
    exact H j

theorem durable_run (hrun : Run (step cfg) CrashesPersisted (boot cfg) c) :
    c.WellFormed cfg ∧ ∀ i, (c.nodes i).Durable i (c.sentBy i) := by
  refine Run.invariant (I := fun c => c.WellFormed cfg ∧
    ∀ i, (c.nodes i).Durable i (c.sentBy i)) hrun ⟨.boot, fun i => ?_⟩ ?_
  · refine ⟨?_, ?_, ?_, .inl trivial, ?_, ?_⟩
    all_goals simp [sentBy, boot, Node.boot, Node.held, Node.pending, Node.backups,
      Persistent.ballot, Persistent.default, State.core, State.new]
  · rintro c ⟨i, a⟩ c' ⟨hwf, H⟩ hP hs
    exact ⟨hwf.step hs, durable_step H hwf hP hs⟩

theorem one_vote_per_term (hrun : Run (step cfg) CrashesPersisted (boot cfg) c) :
    OneVotePerTerm cfg c := by
  intro i _
  have H := (durable_run hrun).2 i
  have hsent : ∀ e ∈ c.network, e.source = i → e ∈ c.sentBy i ++ (c.nodes i).held i := by
    intro e he hi
    exact List.mem_append_left _ (List.mem_filter.mpr ⟨he, by simpa using hi⟩)
  refine ⟨?_, fun e he hi => (H.known e (hsent e he hi)).1⟩
  rintro T p q ⟨e, he, hi, rfl, hp⟩ ⟨e', he', hi', hT, hq⟩
  exact H.unique e (hsent e he hi) e' (hsent e' he' hi') hT.symm p hp q hq

end Cluster

namespace Example

open Cluster

/-- `a` and `b` crash after `a` was elected, and `b` votes for `a` once more. -/
def restarted : List (Label String ℕ) :=
  elected ++ [("a", .crash), ("b", .crash)] ++ deliver "b" "a" (.requestVote 1 none none)

/-- What `i` has sent, with the receivers. -/
def sent (c : Cluster String ℕ) (i : String) : List (String × RaftMessage ℕ) :=
  (c.sentBy i).map fun e => (e.destination, e.body)

theorem one_vote_per_term_restarted : ∃ c, Run (step pair) CrashesPersisted (boot pair) c ∧
    sent c "a" = [("b", .requestVote 1 none none), ("b", .appendEntries 1 none none none ⟨[]⟩)] ∧
    sent c "b" = [("a", .requestVoteResponse 1 true), ("a", .requestVoteResponse 1 true)] ∧
    OneVotePerTerm pair c := by
  have hexec : (Run.exec (step pair) (fun c l => decide (CrashesPersisted c l)) restarted
      (boot pair)).map (fun c => (sent c "a", sent c "b")) =
      some ([("b", .requestVote 1 none none), ("b", .appendEntries 1 none none none ⟨[]⟩)],
        [("a", .requestVoteResponse 1 true), ("a", .requestVoteResponse 1 true)]) := by
    decide +kernel
  obtain ⟨c, hrun, hc⟩ := Run.exists_of_exec hexec fun _ _ => of_decide_eq_true
  obtain ⟨ha, hb⟩ := Prod.mk.inj hc
  exact ⟨c, hrun, ha, hb, one_vote_per_term hrun⟩

/-- `a` asks for votes in term 1, crashes, and votes for `b` in term 1. -/
def forgotten : List (Label String ℕ) :=
  [("a", .election (at_ 1)), ("a", .crash), ("b", .election (at_ 1))] ++
    deliver "a" "b" (.requestVote 1 none none)

theorem supports_of_mem_sent {c : Cluster String ℕ} {i d p : String} {m : RaftMessage ℕ}
    (hm : (d, m) ∈ sent c i) (hp : Envelope.support ⟨i, d, m⟩ = some p) :
    c.Supports i m.term p := by
  obtain ⟨e, he, heq⟩ := List.mem_map.mp hm
  obtain ⟨hnet, hi⟩ := List.mem_filter.mp he
  obtain rfl : e.source = i := by simpa using hi
  cases heq
  exact ⟨e, hnet, rfl, rfl, hp⟩

theorem one_vote_per_term_forgotten : ¬ ∀ c : Cluster String ℕ,
    Run (step pair) (fun _ _ => True) (boot pair) c → OneVotePerTerm pair c := by
  intro hall
  have hexec : (Run.exec (step pair) (fun _ _ => true) forgotten (boot pair)).map
      (fun c => sent c "a") =
      some [("b", .requestVote 1 none none), ("b", .requestVoteResponse 1 true)] := by
    decide +kernel
  obtain ⟨c, hrun, hc⟩ := Run.exists_of_exec hexec fun _ _ _ => trivial
  have hself := supports_of_mem_sent (c := c) (i := "a") (d := "b")
    (m := .requestVote 1 none none) (by simp [hc]) rfl
  have hother := supports_of_mem_sent (c := c) (i := "a") (d := "b")
    (m := .requestVoteResponse 1 true) (by simp [hc]) rfl
  exact absurd ((hall c hrun "a" (by decide)).1 1 "a" "b" hself hother) (by decide)

end Example

end Miniraft

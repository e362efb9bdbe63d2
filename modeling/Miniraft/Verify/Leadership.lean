import Miniraft.Verify.Election
import Miniraft.Verify.Frame
import Miniraft.Verify.Map

/-!
# Who leads and who is followed

Beyond `elections`, the messages of a leader say that it leads their term, nobody sends to itself,
and a node does not lead a term ahead of its own. A follower keeps its belief about the leader when
it moves to a later term, so the belief may be stale, but whoever it believes in has led a term
after all terms it has led itself. So proxied requests cannot go round in circles
(`Cluster.routing_acyclic`).
-/

namespace Miniraft

open Consensus

variable {NodeID Cmd : Type} [DecidableEq NodeID] [Wire Cmd]

/-- What a candidate or leader is equipped with. -/
def Stance.Furnished (id : NodeID) (peers : List NodeID) : Stance NodeID → Prop
  | .follower _ => True
  | .candidate votes => id ∈ votes
  | .leader nextIndexes matchIndexes => (∀ p ∈ peers, p ∈ nextIndexes) ∧
    ∀ p ∈ peers, p ∈ matchIndexes

/-- The cores and messages of a cluster show who leads. -/
def leaderships (cfg : Config NodeID) : Family (Election NodeID) NodeID Cmd where
  node e i k h := (elections cfg).node e i k h ∧
    (∀ T, e.leader T = some i → T < k.term ∨ T = k.term ∧ k.stance.IsLeader) ∧
    k.stance.Furnished k.id k.peers
  msg e env := (elections cfg).msg e env ∧ env.source ≠ env.destination ∧
    match env.body with
    | .appendEntries T .. => e.leader T = some env.source
    | _ => True

namespace leaderships

variable {cfg : Config NodeID} {e e' : Election NodeID} {i : NodeID} {k k' : Core NodeID Cmd}
  {h h' : History NodeID Cmd} {a : Action NodeID Cmd} {recv : Option (NodeID × RaftMessage Cmd)}
  {fresh : Outgoing NodeID Cmd}

omit [Wire Cmd] in
theorem msg_mono (hle : e.Le e') {env : Envelope NodeID Cmd} (h : (leaderships cfg).msg e env) :
    (leaderships cfg).msg e' env := by
  obtain ⟨hvote, hne, hlead⟩ := h
  refine ⟨elections.msg_mono hle hvote, hne, ?_⟩
  revert hlead
  split
  · exact hle.leader
  · exact id

theorem furnished_move (hm : Move a k h recv k' h' fresh)
    (hst : k.stance.Furnished k.id k.peers) : k'.stance.Furnished k'.id k'.peers := by
  have hdown : ∀ v, (k.stance.stepDown v).Furnished k.id k.peers := by
    intro v
    cases k.stance <;> trivial
  cases hm with
  | stepDown _ | mismatch _ | accept _ _ _ => exact hdown _
  | stand _ _ => exact Finset.mem_singleton_self _
  | grant _ _ _ _ => trivial
  | count hk =>
    rw [hk] at hst
    exact Finset.mem_insert_of_mem hst
  | win _ _ _ _ _ =>
    exact ⟨fun p hp => (Map.mem_ofKeys ..).mpr hp, fun p hp => (Map.mem_ofKeys ..).mpr hp⟩
  | retreat hk _ _ =>
    rw [hk] at hst
    exact ⟨fun p hp => AList.mem_insert _ |>.mpr (.inr (hst.1 p hp)), hst.2⟩
  | ack hk _ _ _ _ =>
    rw [hk] at hst
    exact ⟨fun p hp => AList.mem_insert _ |>.mpr (.inr (hst.1 p hp)),
      fun p hp => AList.mem_insert _ |>.mpr (.inr (hst.2 p hp))⟩
  | _ => exact hst

/-- Who leads a term leads it until it moves to a later one. -/
theorem isLeader_move (hm : Move a k h recv k' h' fresh) (hlead : k.stance.IsLeader) :
    k.term < k'.term ∨ k.term = k'.term ∧ k'.stance.IsLeader := by
  cases hm with
  | stepDown hlt | stand hlt _ => exact .inl hlt
  | grant _ hk _ _ | count hk =>
    rw [hk] at hlead
    cases hlead
  | mismatch hnl | accept hnl _ _ => exact absurd hlead hnl
  | win _ _ _ _ _ | retreat _ _ _ | ack _ _ _ _ _ => exact .inr ⟨rfl, trivial⟩
  | _ => exact .inr ⟨rfl, hlead⟩

/-- Messages go to peers, or back to where a message came from. -/
theorem fresh_destination (hm : Move a k h recv k' h' fresh) {x : NodeID × RaftMessage Cmd}
    (hx : x ∈ fresh) : x.1 ∈ k.peers ∨ ∃ m, recv = some (x.1, m) := by
  cases hm with
  | quiet | stepDown _ | count _ | ack _ _ _ _ _ | append _ _ => cases hx
  | stand _ _ =>
    obtain ⟨p, hp, rfl⟩ := List.mem_map.mp hx
    exact .inl hp
  | replicate _ happ | retreat _ _ happ | win _ _ _ _ happ => exact .inl (happ x hx).peer
  | refuse | grant _ _ _ _ | stale _ | mismatch _ | accept _ _ _ =>
    obtain rfl := List.mem_singleton.mp hx
    exact .inr ⟨_, rfl⟩

/-- Requests to append entries come from leaders and are of their term. -/
theorem fresh_leader (hm : Move a k h recv k' h' fresh) {x : NodeID × RaftMessage Cmd}
    (hx : x ∈ fresh) {T : Term} {ci pi : Option LogIndex} {pt : Option Term} {es : Log Cmd}
    (hbody : x.2 = .appendEntries T ci pi pt es) : k'.stance.IsLeader ∧ T = k'.term := by
  have happends : ∀ {next}, k.Appends next x → T = k.term := by
    intro next hx
    obtain ⟨ni, ci, -, -, hx⟩ := hx.body
    rw [hbody] at hx
    cases hx
    rfl
  cases hm with
  | quiet | stepDown _ | count _ | ack _ _ _ _ _ | append _ _ => cases hx
  | stand _ _ =>
    obtain ⟨p, -, rfl⟩ := List.mem_map.mp hx
    cases hbody
  | replicate hk happ => exact ⟨hk ▸ trivial, happends (happ x hx)⟩
  | retreat _ _ happ | win _ _ _ _ happ => exact ⟨trivial, happends (happ x hx)⟩
  | refuse | grant _ _ _ _ | stale _ | mismatch _ | accept _ _ _ =>
    obtain rfl := List.mem_singleton.mp hx
    cases hbody

omit [Wire Cmd] in
theorem leader_of_elects {T : Term} {st : Stance NodeID} (hst : st.Elects cfg e i T)
    (hlead : st.IsLeader) : e.leader T = some i := by
  cases st with
  | leader _ _ => exact hst.2
  | _ => cases hlead

/-- Every move of a node is answered by the election protocol. -/
theorem answer (H : e.Inv cfg.members) (hm : Move a k h recv k' h' fresh) (hi : i ∈ cfg.ids)
    (hid : k.id = i) (hpeers : k.peers = cfg.peers i) (hn : (leaderships cfg).node e i k h)
    (hrecv : ∀ p m, recv = some (p, m) → p ∈ cfg.ids ∧ (leaderships cfg).msg e ⟨p, i, m⟩) :
    ∃ e', Relation.ReflTransGen (Election.Step cfg.members) e e' ∧
      (leaderships cfg).Answers e e' i k' h' fresh ∧
      ∀ {T j}, e'.leader T = some j →
        e.leader T = some j ∨ j = i ∧ T = k'.term ∧ k'.stance.IsLeader := by
  obtain ⟨hnode, hled, hst⟩ := hn
  obtain ⟨e', hsteps, hans, hnew⟩ := elections.answer H hm hi hid hpeers hnode
    fun p m hpm => ⟨(hrecv p m hpm).1, (hrecv p m hpm).2.1⟩
  have hle := (H.steps hsteps).2
  refine ⟨e', hsteps, ⟨⟨hans.node, fun T hl => ?_, furnished_move hm hst⟩, fun x hx => ?_,
    fun {j k h} hj hn => ?_, msg_mono hle⟩, hnew⟩
  · rcases hnew hl with hl | ⟨-, rfl, hlead⟩
    · rcases hled T hl with hlt | ⟨rfl, hlead⟩
      · exact .inl (hlt.trans_le hm.term_le)
      · exact isLeader_move hm hlead
    · exact .inr ⟨rfl, hlead⟩
  · refine ⟨hans.fresh x hx, ?_, ?_⟩
    · rcases fresh_destination hm hx with hp | ⟨m, hm⟩
      · rw [hpeers, Config.peers, List.mem_filter] at hp
        exact fun heq => of_decide_eq_true hp.2 heq.symm
      · exact (hrecv _ _ hm).2.2.1.symm
    · split
      · next T ci pi pt es hbody =>
        obtain ⟨hlead, rfl⟩ := fresh_leader hm hx hbody
        exact leader_of_elects hans.node.2 hlead
      · trivial
  · refine ⟨hans.frame hj hn.1, fun T hl => ?_, hn.2.2⟩
    rcases hnew hl with hl | ⟨rfl, -, -⟩
    · exact hn.2.1 T hl
    · exact absurd rfl hj

theorem holds_boot : (leaderships cfg).Holds cfg .start (Cluster.boot cfg : Cluster NodeID Cmd) where
  wf := .boot
  node i hi := ⟨elections.holds_boot.node i hi, by simp [Election.start], trivial⟩
  sent := by simp [Cluster.boot]
  pending := by simp [Cluster.boot, Node.boot, Node.pending]

end leaderships

/-! ## Beliefs about the leader -/

omit [DecidableEq NodeID] in
theorem State.currentLeader_of_isLeader {s : State NodeID Cmd} (h : s.core.stance.IsLeader) :
    s.currentLeader = none := by
  unfold currentLeader
  cases hr : s.r with
  | follower l v => simp [core, hr, Role.stance, Stance.IsLeader] at h
  | _ => rfl

namespace Cluster

variable {cfg : Config NodeID} {c c' : Cluster NodeID Cmd} {e : Election NodeID}

/-- The edges along which requests are proxied: from a follower to the leader it believes in. -/
def Proxies (cfg : Config NodeID) (c : Cluster NodeID Cmd) (i p : NodeID) : Prop :=
  i ∈ cfg.ids ∧ (c.nodes i).state.currentLeader = some p

/-- The cluster shows an election in which every node has yielded to the leader it believes in. -/
structure Leads (cfg : Config NodeID) (c : Cluster NodeID Cmd) (e : Election NodeID) : Prop where
  inv : e.Inv cfg.members
  holds : (leaderships cfg).Holds cfg e c
  yields : ∀ {i p}, Proxies cfg c i p → e.Yields i p

theorem leads_boot (cfg : Config NodeID) : Leads cfg (boot cfg : Cluster NodeID Cmd) .start where
  inv := Election.inv_start
  holds := leaderships.holds_boot
  yields hp := by cases hp.2

/-- A belief is formed when the leader of the term sends a request. -/
theorem Leads.yields_of_handles {i p : NodeID} {a : Action NodeID Cmd} {ci pi : Option LogIndex}
    {pt : Option Term} {es : Log Cmd} (H : Leads cfg c e) (hi : i ∈ cfg.ids)
    (hh : (c.nodes i).Handles a p
      (.appendEntries (c.nodes i).state.c.currentTerm ci pi pt es)) : e.Yields i p := by
  obtain ⟨-, hne, hl⟩ := H.holds.sent _ (H.holds.wf.handles hh)
  refine ⟨_, hl, fun U hU hlead => ?_⟩
  rcases (H.holds.node i hi).2.1 U hlead with hlt | ⟨rfl, -⟩
  · exact absurd hlt (not_lt.mpr hU)
  · exact hne (Option.some.inj (hl.symm.trans hlead))

omit [DecidableEq NodeID] in
/-- Who believes in a leader is not leader itself. -/
theorem Proxies.not_leader {i p : NodeID} (hp : Proxies cfg c i p) :
    ¬ (c.nodes i).state.core.stance.IsLeader := by
  intro hlead
  have := hp.2
  rw [State.currentLeader_of_isLeader hlead] at this
  cases this

variable [DecidableEq Cmd]

theorem leads_run (hrun : Run (step cfg) CrashFree c c') (H : Leads cfg c e) :
    ∃ e', Relation.ReflTransGen (Election.Step cfg.members) e e' ∧ Leads cfg c' e' := by
  refine Run.simulation hrun H fun c l c' e H hl hs => ?_
  obtain ⟨i, a⟩ := l
  obtain ⟨e', ⟨hsteps, hnew⟩, hholds⟩ := H.holds.step
    (R := fun e e' => Relation.ReflTransGen (Election.Step cfg.members) e e' ∧
      ∀ T j, e'.leader T = some j → e.leader T = some j ∨ j = i ∧ T = e'.term i)
    hs hl.ne fun hm hi hid hpeers hrecv => by
      obtain ⟨e', hsteps, hans, hnew⟩ := leaderships.answer H.inv hm hi hid hpeers
        (H.holds.node i hi) fun p m hpm => ⟨(hrecv p m hpm).1, (hrecv p m hpm).2.2⟩
      refine ⟨e', ⟨hsteps, fun T j hl => ?_⟩, hans⟩
      exact (hnew hl).imp_right fun ⟨hj, hT, _⟩ => ⟨hj, hT.trans hans.node.1.1.symm⟩
  obtain ⟨hinv, hle⟩ := H.inv.steps hsteps
  refine ⟨e', hsteps, hinv, hholds, fun {j p} hp => ?_⟩
  have hold : e.Yields j p := by
    obtain ⟨-, -, n, msgs, hn, rfl⟩ := step_eq_ok hs
    rcases eq_or_ne j i with rfl | hj
    · have hbelief := hp.2
      rw [update_self] at hbelief
      rcases (Node.step_frame hn hl.ne).2 hbelief with hbelief | ⟨ci, pi, pt, es, hh⟩
      · exact H.yields ⟨hp.1, hbelief⟩
      · exact H.yields_of_handles hp.1 hh
    · have hbelief := hp.2
      rw [update_of_ne hj] at hbelief
      exact H.yields ⟨hp.1, hbelief⟩
  -- A follower has not become leader in this step.
  refine hold.mono hle fun {T} hl => ?_
  rcases hnew T j hl with hl' | ⟨rfl, rfl⟩
  · exact hl'
  · obtain ⟨⟨hterm, -⟩, hled, -⟩ := hholds.node j hp.1
    rcases hled _ hl with hlt | ⟨-, hlead⟩
    · exact absurd hterm hlt.ne
    · exact absurd hlead hp.not_leader

/-- Requests are not proxied in circles. -/
theorem routing_acyclic (hrun : Run (step cfg) CrashFree (boot cfg) c) (i : NodeID) :
    ¬ Relation.TransGen (Proxies cfg c) i i := by
  obtain ⟨e, -, H⟩ := leads_run hrun (leads_boot cfg)
  intro hcycle
  have hyields : ∀ {p q}, Relation.TransGen (Proxies cfg c) p q → e.Yields p q := by
    intro p q hpath
    induction hpath with
    | single hedge => exact H.yields hedge
    | tail _ hedge ih => exact ih.trans (H.yields hedge)
  exact (hyields hcycle).irrefl

end Cluster

namespace Example

open Cluster

/-- `a` leads term 1 and `c` hears of it. Then `b` leads term 2 and `a` hears of it. -/
def outdated : List (Label String ℕ) :=
  List.flatten [
    [("a", .election (at_ 1))], deliver "c" "a" (.requestVote 1 none none),
    deliver "a" "c" (.requestVoteResponse 1 true),
    deliver "c" "a" (.appendEntries 1 none none none ⟨[]⟩),
    [("b", .election (at_ 1)), ("b", .election (at_ 1000))],
    deliver "a" "b" (.requestVote 2 none none), deliver "b" "a" (.requestVoteResponse 2 true),
    deliver "a" "b" (.appendEntries 2 none none none ⟨[]⟩)]

def beliefs (c : Cluster String ℕ) : List (Option String) :=
  three.ids.map fun i => (c.nodes i).state.currentLeader

/-- A request at `c` goes to `a` and from there to `b`. -/
theorem routing_acyclic_outdated : ∃ c, Run (step three) CrashFree (boot three) c ∧
    beliefs c = [some "b", none, some "a"] ∧
    ∀ i, ¬ Relation.TransGen (Proxies three c) i i := by
  have hexec : (Run.exec (step three) crashFree outdated (boot three)).map beliefs =
      some [some "b", none, some "a"] := by
    decide +kernel
  obtain ⟨c, hrun, hc⟩ := Run.exists_of_exec hexec fun _ _ => of_decide_eq_true
  exact ⟨c, hrun, hc, routing_acyclic hrun⟩

end Example

end Miniraft

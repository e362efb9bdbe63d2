import Miniraft.Theory.Election
import Miniraft.Verify.Cluster

/-!
# Elections of the program are elections by majority

Every crash-free run of a cluster is a run of the abstract election protocol
(`Cluster.election_run`): the vote of a node in its term is what `voted_for` says at a follower,
and the node itself at a candidate or leader. `voted_for` may also hold a vote of an older term,
so the converse fails at followers.
-/

namespace Miniraft

open Consensus

variable {NodeID Cmd : Type} [DecidableEq NodeID] [Wire Cmd]

namespace Config

variable (cfg : Config NodeID)

def members : Finset NodeID := cfg.ids.toFinset

theorem length_peers {i : NodeID} (hi : i ∈ cfg.ids) :
    (cfg.peers i).length + 1 = cfg.members.card := by
  have hcard : cfg.members.card = cfg.ids.length := List.toFinset_card_of_nodup cfg.nodup
  have herase : cfg.peers i = cfg.ids.erase i := by
    rw [cfg.nodup.erase_eq_filter, peers]
    exact List.filter_congr fun x _ => by by_cases hx : x = i <;> simp [hx]
  have := List.length_pos_of_mem hi
  rw [hcard, herase, List.length_erase_of_mem hi]
  omega

theorem mem_members {i : NodeID} : i ∈ cfg.members ↔ i ∈ cfg.ids := List.mem_toFinset

theorem mem_peers {i p : NodeID} : p ∈ cfg.peers i ↔ p ∈ cfg.ids ∧ p ≠ i := by
  simp [peers]

/-- In a cluster of two nodes at least, a node has a peer. -/
theorem exists_mem_peers {i : NodeID} (hi : i ∈ cfg.ids) : ∃ p, p ∈ cfg.peers i := by
  refine List.exists_mem_of_length_pos ?_
  have hlength := cfg.length_peers hi
  have hcard : cfg.members.card = cfg.ids.length := List.toFinset_card_of_nodup cfg.nodup
  have := cfg.two_le
  omega

end Config

/-- What the stance of node `i` in term `T` says about votes and leaders. -/
def Stance.Elects (cfg : Config NodeID) (e : Election NodeID) (i : NodeID) (T : Term) :
    Stance NodeID → Prop
  | .follower votedFor => ∀ c, e.vote i T = some c → votedFor = some c
  | .candidate votes => e.vote i T = some i ∧ ∀ p ∈ votes, p ∈ cfg.members ∧ e.vote p T = some i
  | .leader .. => e.vote i T = some i ∧ e.leader T = some i

/-- The cores of a cluster show the votes and leaders of an election. -/
def elections (cfg : Config NodeID) : Family (Election NodeID) NodeID Cmd where
  node e i k _ := e.term i = k.term ∧ k.stance.Elects cfg e i k.term
  msg e env := match env.body with
    | .requestVoteResponse T true => e.vote env.source T = some env.destination
    | _ => True

namespace elections

variable {cfg : Config NodeID} {e e' : Election NodeID} {i j : NodeID} {T : Term}
  {st : Stance NodeID} {k k' : Core NodeID Cmd} {h h' : History NodeID Cmd} {a : Action NodeID Cmd}
  {recv : Option (NodeID × RaftMessage Cmd)} {fresh : Outgoing NodeID Cmd}

theorem elects_mono (hle : e.Le e') (hvote : e'.vote j T = e.vote j T)
    (h : st.Elects cfg e j T) : st.Elects cfg e' j T := by
  cases st with
  | follower v => exact fun c hc => h c (hvote ▸ hc)
  | candidate votes => exact ⟨hle.vote h.1, fun p hp => ⟨(h.2 p hp).1, hle.vote (h.2 p hp).2⟩⟩
  | leader _ _ => exact ⟨hle.vote h.1, hle.leader h.2⟩

/-- A candidate that gets in line keeps its vote for itself. -/
theorem elects_stepDown (hst : ¬ st.IsLeader) (h : st.Elects cfg e i T) :
    (st.stepDown (some i)).Elects cfg e i T := by
  cases st with
  | follower v => exact h
  | candidate votes => exact fun c hc => h.1 ▸ hc
  | leader _ _ => exact absurd trivial hst

/-- Who has not voted in a term can step down into it with any stale vote. -/
theorem elects_of_none (hnone : e.vote i T = none) (v : Option NodeID) :
    (st.stepDown v).Elects cfg e i T := by
  cases st with
  | _ =>
    intro c hc
    rw [hnone] at hc
    cases hc

omit [Wire Cmd] in
theorem msg_mono (hle : e.Le e') {env : Envelope NodeID Cmd} (h : (elections cfg).msg e env) :
    (elections cfg).msg e' env := by
  revert h
  simp only [elections]
  split
  · exact hle.vote
  · exact id

omit [Wire Cmd] in
theorem answers_of_le (hle : e.Le e')
    (honly : ∀ {q}, q ≠ i → e'.term q = e.term q ∧ e'.vote q = e.vote q)
    (hnode : (elections cfg).node e' i k' h')
    (hfresh : ∀ x ∈ fresh, (elections cfg).msg e' ⟨i, x.1, x.2⟩) :
    (elections cfg).Answers e e' i k' h' fresh where
  node := hnode
  fresh := hfresh
  frame hj hn := ⟨(honly hj).1.trans hn.1, elects_mono hle (by rw [(honly hj).2]) hn.2⟩
  sent := msg_mono hle

omit [Wire Cmd] in
/-- Moves that change neither the term nor the stance of a node leave the election alone. -/
theorem answers_self (hnode : (elections cfg).node e i k' h')
    (hfresh : ∀ x ∈ fresh, (elections cfg).msg e ⟨i, x.1, x.2⟩) :
    (elections cfg).Answers e e i k' h' fresh :=
  answers_of_le (.refl e) (fun _ => ⟨rfl, rfl⟩) hnode hfresh

omit [Wire Cmd] in
theorem msg_appends {next : Map NodeID LogIndex} {x : NodeID × RaftMessage Cmd}
    (hx : k.Appends next x) : (elections cfg).msg e ⟨i, x.1, x.2⟩ := by
  obtain ⟨ni, ci, -, -, hbody⟩ := hx.body
  simp [elections, hbody]

theorem elects_insert {p : NodeID} {votes : Finset NodeID}
    (hst : (Stance.candidate votes).Elects cfg e i T) (hp : p ∈ cfg.ids)
    (hv : e.vote p T = some i) : (Stance.candidate (insert p votes)).Elects cfg e i T := by
  refine ⟨hst.1, fun q hq => ?_⟩
  rcases Finset.mem_insert.mp hq with rfl | hq
  · exact ⟨cfg.mem_members.mpr hp, hv⟩
  · exact hst.2 q hq

/-- Every move of a node is answered by the election protocol. The only leader it can add is the
node itself. -/
theorem answer (H : e.Inv cfg.members) (hm : Move a k h recv k' h' fresh) (hi : i ∈ cfg.ids)
    (hid : k.id = i) (hpeers : k.peers = cfg.peers i) (hn : (elections cfg).node e i k h)
    (hrecv : ∀ p m, recv = some (p, m) → p ∈ cfg.ids ∧ (elections cfg).msg e ⟨p, i, m⟩) :
    ∃ e', Relation.ReflTransGen (Election.Step cfg.members) e e' ∧
      (elections cfg).Answers e e' i k' h' fresh ∧
      ∀ {T j}, e'.leader T = some j →
        e.leader T = some j ∨ j = i ∧ T = k'.term ∧ k'.stance.IsLeader := by
  have hself : ∀ {k' : Core NodeID Cmd} {h' : History NodeID Cmd} {fresh : Outgoing NodeID Cmd},
      (elections cfg).node e i k' h' → (∀ x ∈ fresh, (elections cfg).msg e ⟨i, x.1, x.2⟩) →
      ∃ e', Relation.ReflTransGen (Election.Step cfg.members) e e' ∧
        (elections cfg).Answers e e' i k' h' fresh ∧ ∀ {T j}, e'.leader T = some j →
          e.leader T = some j ∨ j = i ∧ T = k'.term ∧ k'.stance.IsLeader :=
    fun hn hf => ⟨e, .refl, answers_self hn hf, .inl⟩
  obtain ⟨hterm, hst⟩ := hn
  cases hm with
  | quiet => exact hself ⟨hterm, hst⟩ (by simp)
  | @stepDown T hlt =>
    have hstep : Election.Step cfg.members e (e.advance i T) := .advance (hterm ▸ hlt)
    refine ⟨_, .single hstep, answers_of_le (H.step_le hstep) ?_ ⟨?_, ?_⟩ (by simp), .inl⟩
    · intro q hq
      simp [Election.advance, hq]
    · simp [Election.advance]
    · exact elects_of_none (e := e.advance i T) (H.vote_eq_none (hterm ▸ hlt)) none
  | @stand T hlt hlead =>
    have hstep : Election.Step cfg.members e ((e.advance i T).cast i T i) := .stand (hterm ▸ hlt)
    refine ⟨_, .single hstep, answers_of_le (H.step_le hstep) ?_ ⟨?_, ?_⟩ ?_, .inl⟩
    · intro q hq
      constructor
      · simp [Election.advance, Election.cast, hq]
      · funext U
        simp [Election.advance, Election.cast, hq]
    · simp [Election.advance, Election.cast]
    · have hself : ((e.advance i T).cast i T i).vote i T = some i := by simp [Election.cast]
      refine ⟨hself, fun p hp => ?_⟩
      obtain rfl : p = i := (Finset.mem_singleton.mp hp).trans hid
      exact ⟨cfg.mem_members.mpr hi, hself⟩
    · intro x hx
      obtain ⟨p, -, rfl⟩ := List.mem_map.mp hx
      trivial
  | replicate hlead happ =>
    exact hself ⟨hterm, hst⟩ fun x hx => msg_appends (happ x hx)
  | refuse =>
    refine hself ⟨hterm, hst⟩ fun x hx => ?_
    obtain rfl := List.mem_singleton.mp hx
    trivial
  | @grant p li lt v hne hstance hv hup =>
    rw [hstance] at hst
    cases hvote : e.vote i k.term with
    | some c =>
      have hcp : c = p := by
        rcases hv with rfl | rfl
        · exact absurd (hst c hvote) (by simp)
        · exact (Option.some.inj (hst c hvote)).symm
      subst hcp
      refine hself ⟨hterm, fun d hd => hvote ▸ hd⟩ fun x hx => ?_
      obtain rfl := List.mem_singleton.mp hx
      exact hvote
    | none =>
      have hstep : Election.Step cfg.members e (e.cast i k.term p) := hterm ▸ .grant (hterm ▸ hvote)
      have hcast : (e.cast i k.term p).vote i k.term = some p := by simp [Election.cast]
      refine ⟨_, .single hstep, answers_of_le (H.step_le hstep) ?_ ⟨hterm, ?_⟩ fun x hx => ?_, .inl⟩
      · intro q hq
        refine ⟨rfl, ?_⟩
        funext U
        simp [Election.cast, hq]
      · exact fun d hd => hcast ▸ hd
      · obtain rfl := List.mem_singleton.mp hx
        exact hcast
  | @count p votes hstance =>
    rw [hstance] at hst
    obtain ⟨hp, hv⟩ := hrecv p _ rfl
    exact hself ⟨hterm, elects_insert hst hp hv⟩ (by simp)
  | @win p votes next fresh hstance hself hmaj hnext happ =>
    rw [hstance] at hst
    obtain ⟨hp, hv⟩ := hrecv p _ rfl
    have hvotes := elects_insert hst hp hv
    have hQ : Majority cfg.members (insert p votes) := by
      refine ⟨fun q hq => (hvotes.2 q hq).1, ?_⟩
      rwa [hpeers, cfg.length_peers hi] at hmaj
    have hstep : Election.Step cfg.members e (e.elect i k.term) :=
      .elect hQ fun q hq => (hvotes.2 q hq).2
    refine ⟨_, .single hstep, answers_of_le (H.step_le hstep) (fun _ => ⟨rfl, rfl⟩)
      ⟨hterm, hst.1, ?_⟩ fun x hx => msg_appends (happ x hx), fun {T j} hl => ?_⟩
    · simp [Election.elect]
    · rcases eq_or_ne T k.term with rfl | hT
      · have hj : i = j := by simpa [Election.elect] using hl
        exact .inr ⟨hj.symm, rfl, trivial⟩
      · exact .inl (by simpa [Election.elect, hT] using hl)
  | stale hlt =>
    refine hself ⟨hterm, hst⟩ fun x hx => ?_
    obtain rfl := List.mem_singleton.mp hx
    trivial
  | mismatch hlead =>
    refine hself ⟨hterm, hid ▸ elects_stepDown hlead (hid ▸ hst)⟩ fun x hx => ?_
    obtain rfl := List.mem_singleton.mp hx
    trivial
  | accept hlead hne hacc =>
    refine hself ⟨hterm, hid ▸ elects_stepDown hlead (hid ▸ hst)⟩ fun x hx => ?_
    obtain rfl := List.mem_singleton.mp hx
    trivial
  | retreat hstance hni happ =>
    rw [hstance] at hst
    exact hself ⟨hterm, hst⟩ fun x hx => msg_appends (happ x hx)
  | ack hstance hni hmi hi hc =>
    rw [hstance] at hst
    exact hself ⟨hterm, hst⟩ (by simp)
  | append ha hl => exact hself ⟨hterm, hst⟩ (by simp)

theorem holds_boot : (elections cfg).Holds cfg .start (Cluster.boot cfg : Cluster NodeID Cmd) where
  wf := .boot
  node _ _ := ⟨rfl, by simp [Cluster.boot, Node.boot, State.new, State.core, Role.stance,
    Stance.Elects, Election.start]⟩
  sent := by simp [Cluster.boot]
  pending := by simp [Cluster.boot, Node.boot, Node.pending]

theorem leader_of_isLeader {s : State NodeID Cmd} (hn : (elections cfg).node e i s.core h)
    (hlead : s.isLeader) : e.leader s.c.currentTerm = some i := by
  unfold State.isLeader at hlead
  split at hlead
  · next hr =>
    obtain ⟨-, hst⟩ := hn
    simp only [State.core, hr, Role.stance] at hst
    exact hst.2
  · cases hlead

end elections

namespace Cluster

variable {cfg : Config NodeID} {c c' : Cluster NodeID Cmd} {e : Election NodeID}

/-- No node crashes. -/
def CrashFree (_ : Cluster NodeID Cmd) (l : Label NodeID Cmd) : Prop := l.2.isCrash = false

instance (c : Cluster NodeID Cmd) (l : Label NodeID Cmd) : Decidable (CrashFree c l) :=
  inferInstanceAs (Decidable (_ = _))

omit [DecidableEq NodeID] [Wire Cmd] in
theorem CrashFree.ne {i : NodeID} {a : Action NodeID Cmd} (h : CrashFree c (i, a)) :
    a ≠ .crash := by
  rintro rfl
  cases h

/-- The cluster shows an election that could have happened. -/
structure Elects (cfg : Config NodeID) (c : Cluster NodeID Cmd) (e : Election NodeID) : Prop where
  inv : e.Inv cfg.members
  holds : (elections cfg).Holds cfg e c

variable [DecidableEq Cmd]

/-- Every crash-free run of the cluster is a run of the election protocol. -/
theorem election_run (hrun : Run (step cfg) CrashFree c c') (H : Elects cfg c e) :
    ∃ e', Relation.ReflTransGen (Election.Step cfg.members) e e' ∧ Elects cfg c' e' := by
  refine Run.simulation hrun H fun c l c' e H hl hs => ?_
  obtain ⟨i, a⟩ := l
  obtain ⟨e', hsteps, hholds⟩ := H.holds.step (R := Relation.ReflTransGen _) hs hl.ne
    fun hm hi hid hpeers hrecv => by
      obtain ⟨e', hsteps, hans, -⟩ := elections.answer H.inv hm hi hid hpeers (H.holds.node i hi)
        fun p m hpm => ⟨(hrecv p m hpm).1, (hrecv p m hpm).2.2⟩
      exact ⟨e', hsteps, hans⟩
  exact ⟨e', hsteps, (H.inv.steps hsteps).1, hholds⟩

/-- **Election safety**: along a crash-free run, a term has at most one leader, now or later. -/
theorem election_safety (hrun : Run (step cfg) CrashFree (boot cfg) c)
    (hrun' : Run (step cfg) CrashFree c c') {i j : NodeID} (hi : i ∈ cfg.ids) (hj : j ∈ cfg.ids)
    (hlead : (c.nodes i).state.isLeader) (hlead' : (c'.nodes j).state.isLeader)
    (hterm : (c.nodes i).state.c.currentTerm = (c'.nodes j).state.c.currentTerm) : i = j := by
  obtain ⟨e, -, H⟩ := election_run hrun ⟨Election.inv_start, elections.holds_boot⟩
  obtain ⟨e', hsteps, H'⟩ := election_run hrun' H
  have hl := (H.inv.steps hsteps).2.leader (elections.leader_of_isLeader (H.holds.node i hi) hlead)
  have hl' := elections.leader_of_isLeader (H'.holds.node j hj) hlead'
  change e'.leader (c.nodes i).state.c.currentTerm = some i at hl
  rw [hterm] at hl
  exact Option.some.inj (hl.symm.trans hl')

end Cluster

/-! ## A run of two nodes -/

namespace Example

instance : Wire ℕ := ⟨id, fun _ => rfl⟩

def pair : Config String := ⟨["a", "b"], by decide, by decide⟩

def three : Config String := ⟨["a", "b", "c"], by decide, by decide⟩

def at_ (t : ℕ) : Clock := ⟨t, t, 100, le_rfl⟩

/-- Node `i` takes message `m` of `p` through the whole Raft-message loop. -/
def deliver (i p : String) (m : RaftMessage ℕ) : List (Label String ℕ) :=
  [(i, .receive p m), (i, .handle (at_ 0)), (i, .snapshot), (i, .persist true), (i, .respond)]

/-- Node `a` is elected in term 1. -/
def elected : List (Label String ℕ) :=
  [("a", .election (at_ 1))] ++ deliver "b" "a" (.requestVote 1 none none) ++
    deliver "a" "b" (.requestVoteResponse 1 true)

def crashFree (c : Cluster String ℕ) (l : Label String ℕ) : Bool := decide (Cluster.CrashFree c l)

def leads (c : Cluster String ℕ) : Bool × Term :=
  ((c.nodes "a").state.isLeader, (c.nodes "a").state.c.currentTerm)

/-- After its election, and after it has replicated its log, `a` is the leader of term 1. -/
theorem election_safety_elected : ∃ c c', Run (Cluster.step pair) Cluster.CrashFree (.boot pair) c ∧
    Run (Cluster.step pair) Cluster.CrashFree c c' ∧ leads c = (true, 1) ∧ leads c' = (true, 1) ∧
    ∀ j ∈ pair.ids, (c'.nodes j).state.isLeader → 1 = (c'.nodes j).state.c.currentTerm → "a" = j := by
  have hexec : ((Run.exec (Cluster.step pair) crashFree elected (.boot pair)).bind fun c =>
      (Run.exec (Cluster.step pair) crashFree [("a", .replicate (at_ 5000002))] c).map fun c' =>
        (leads c, leads c')) = some ((true, 1), (true, 1)) := by
    decide +kernel
  obtain ⟨c, c', hrun, hrun', hc⟩ := Run.exists_of_exec_exec hexec fun _ _ => of_decide_eq_true
  obtain ⟨hc, hc'⟩ := Prod.mk.inj hc
  refine ⟨c, c', hrun, hrun', hc, hc', fun j hj hlead hterm => ?_⟩
  exact Cluster.election_safety hrun hrun' (by decide) hj (congrArg Prod.fst hc) hlead
    ((congrArg Prod.snd hc).trans hterm)

end Example

end Miniraft

import Miniraft.Verify.Safety

/-!
# Restarts

A node that crashes while its persistence file holds its current term, its vote and its log loses
its role, its commit index and its count of applied entries, and nothing else. To the replication
protocol that is no step at all, so the safety of Raft extends to runs in which nodes crash and
restart (`Cluster.survival_run`, `Cluster.raft_safety`).
-/

namespace Miniraft

open Consensus

variable {NodeID Cmd : Type} [DecidableEq NodeID] [Wire Cmd]

/-- The persistence file is up to date. -/
def Node.Saved (n : Node NodeID Cmd) : Prop :=
  n.state.persistent.toOption.map Persistent.wire = some n.stored

instance [DecidableEq Cmd] (n : Node NodeID Cmd) : Decidable n.Saved :=
  inferInstanceAs (Decidable (_ = _))

/-- What is left of a core after a crash. -/
def Core.restarted (k : Core NodeID Cmd) : Core NodeID Cmd :=
  { k with commit := 0, applied := 0, stance := k.stance.stepDown (some k.id) }

/-- A history in which nothing has been applied. -/
def History.restarted (h : History NodeID Cmd) : History NodeID Cmd := { h with applied := [] }

omit [DecidableEq NodeID] in
@[simp] theorem Log.wire_wire (l : Log Cmd) : l.wire.wire = l.wire := by
  simp [Log.wire]

namespace State

variable {s : State NodeID Cmd} {p : Persistent NodeID Cmd}

omit [Wire Cmd] in
theorem persistent_eq_ok (hp : s.persistent = .ok p) : p.currentTerm = s.c.currentTerm ∧
    p.log = s.c.log ∧ s.r.stance.stepDown (some s.c.id) = .follower p.votedFor := by
  unfold persistent at hp
  split at hp
  · next hr =>
    cases hp
    exact ⟨rfl, rfl, by rw [hr]; rfl⟩
  · next hr =>
    split at hp
    · cases hp
    · cases hp
      exact ⟨rfl, rfl, by rw [hr]; rfl⟩
  · next hr =>
    cases hp
    exact ⟨rfl, rfl, by rw [hr]; rfl⟩

theorem core_new_of_persistent (hp : s.persistent = .ok p) :
    (new s.c.id s.c.nodeIds p.wire : State NodeID Cmd).core = s.core.restarted := by
  obtain ⟨hterm, hlog, hvote⟩ := persistent_eq_ok hp
  simp only [core, Core.restarted, hvote, new, Persistent.wire, hterm, hlog, Log.wire_wire]
  rfl

end State

namespace Node

variable {n n' : Node NodeID Cmd} {msgs : Outgoing NodeID Cmd}

omit [DecidableEq NodeID] in
theorem Saved.exists_persistent [DecidableEq NodeID] (h : n.Saved) :
    ∃ p, n.state.persistent = .ok p ∧ p.wire = n.stored := by
  obtain ⟨p, hp, hstored⟩ := Option.map_eq_some_iff.mp h
  cases hs : n.state.persistent with
  | error e =>
    rw [hs] at hp
    cases hp
  | ok q =>
    rw [hs] at hp
    cases hp
    exact ⟨p, rfl, hstored⟩

/-- What a crash leaves of a node whose file is up to date. -/
theorem step_crash (hs : n.step .crash = .ok (n', msgs)) (hsaved : n.Saved) :
    msgs = [] ∧ n'.pending = [] ∧ n'.history = n.history ∧
      n'.state.core = n.state.core.restarted ∧ n'.state.c.log = n.state.c.log.wire := by
  simp only [step, Except.pure_eq_ok_iff, Prod.mk.injEq] at hs
  obtain ⟨rfl, rfl⟩ := hs
  obtain ⟨p, hp, hstored⟩ := hsaved.exists_persistent
  refine ⟨rfl, rfl, rfl, ?_, ?_⟩
  · simp only [← hstored]
    exact State.core_new_of_persistent hp
  · simp only [← hstored, State.new, Persistent.wire, (State.persistent_eq_ok hp).2.1]

end Node

/-! ## What survives -/

/-- Moves do not read what was applied before. -/
theorem Move.restarted {a : Action NodeID Cmd} {k k' : Core NodeID Cmd} {h h' : History NodeID Cmd}
    {recv : Option (NodeID × RaftMessage Cmd)} {fresh : Outgoing NodeID Cmd}
    (hm : Move a k h recv k' h' fresh) :
    ∃ apps, h'.applied = h.applied ++ apps ∧
      Move a k h.restarted recv k' { h' with applied := apps } fresh := by
  cases hm with
  | quiet => exact ⟨[], by simp, .quiet⟩
  | stepDown hlt => exact ⟨[], by simp, .stepDown hlt⟩
  | stand hlt hlead => exact ⟨[], by simp, .stand hlt hlead⟩
  | replicate hst happ => exact ⟨[], by simp, .replicate hst happ⟩
  | refuse => exact ⟨[], by simp, .refuse⟩
  | grant hne hst hv hup => exact ⟨[], by simp, .grant hne hst hv hup⟩
  | count hst => exact ⟨[], by simp, .count hst⟩
  | win hst hself hmaj hnext happ => exact ⟨[], by simp, .win hst hself hmaj hnext happ⟩
  | stale hlt => exact ⟨[], by simp, .stale hlt⟩
  | mismatch hlead => exact ⟨[], by simp, .mismatch hlead⟩
  | accept hlead hne hacc => exact ⟨_, rfl, .accept hlead hne hacc⟩
  | retreat hst hni happ => exact ⟨[], by simp, .retreat hst hni happ⟩
  | ack hst hni hmi hi hc => exact ⟨_, rfl, .ack hst hni hmi hi hc⟩
  | append ha hl => exact ⟨[], by simp, .append ha hl⟩

/-- What a node shows of the protocol, whether it has crashed or not: what it has applied at any
time was committed. -/
structure Core.Survives (cfg : Config NodeID) (g : Replication NodeID (LogEntry Cmd))
    (i : NodeID) (k : Core NodeID Cmd) (h : History NodeID Cmd) : Prop where
  replicates : k.Replicates cfg g i
  tracks : k.Tracks cfg g i h.restarted
  applied : ∀ x ∈ h.applied, ∃ T v, Settled cfg g T v ∧ v[x.1.natPred]? = some x.2.wire

def survival (cfg : Config NodeID) :
    Family (Replication NodeID (LogEntry Cmd)) NodeID Cmd where
  node g i k h := k.Survives cfg g i h
  msg := (commitment cfg).msg

namespace survival

variable {cfg : Config NodeID} {g g' : Replication NodeID (LogEntry Cmd)} {i p : NodeID}
  {k k' : Core NodeID Cmd} {h h' : History NodeID Cmd} {fresh : Outgoing NodeID Cmd}
  {a : Action NodeID Cmd} {recv : Option (NodeID × RaftMessage Cmd)}

theorem tracks_restarted (ht : k.Tracks cfg g i h) : k.Tracks cfg g i h.restarted where
  commit_le := ht.commit_le
  applied_le := ht.applied_le
  committed := ht.committed
  leads := ht.leads
  accepted := ht.accepted
  applied := by simp [History.restarted]

/-- Applied entries are committed. -/
theorem settled_of_tracks (ht : k.Tracks cfg g i h) {x : LogIndex × LogEntry Cmd}
    (hx : x ∈ h.applied) : ∃ T v, Settled cfg g T v ∧ v[x.1.natPred]? = some x.2.wire := by
  obtain ⟨hle, he⟩ := ht.applied x hx
  have hpos := x.1.natPred_add_one
  have := ht.applied_le
  refine ⟨_, _, ht.committed, ?_⟩
  rw [List.getElem?_take_of_lt (by omega)]
  exact he

omit [Wire Cmd] in
theorem elects_restarted {e : Election NodeID} {T : Term} {st : Stance NodeID}
    (h : st.Elects cfg e i T) : (st.stepDown (some i)).Elects cfg e i T := by
  cases st with
  | follower v => exact h
  | candidate votes => exact fun c hc => h.1 ▸ hc
  | leader next mtch => exact fun c hc => h.1 ▸ hc

/-- A crash is no step of the protocol. -/
theorem crash (hn : k.Survives cfg g i h) (hid : k.id = i) :
    k.restarted.Survives cfg g i h where
  replicates := {
    term := hn.replicates.term
    log := hn.replicates.log
    elects := by
      subst hid
      exact elects_restarted hn.replicates.elects
    candidate := fun {votes} hs => by
      have hst : k.stance.stepDown (some k.id) = .candidate votes := hs
      cases hk : k.stance <;> simp [hk, Stance.stepDown] at hst }
  tracks := {
    commit_le := Nat.zero_le _
    applied_le := le_rfl
    committed := .inl (List.take_zero ..)
    leads := fun hs => absurd hs commitment.not_leader_stepDown
    accepted := hn.tracks.accepted
    applied := by simp [History.restarted] }
  applied := hn.applied

variable (H : g.Inv LogEntry.term cfg.members)

include H

omit [Wire Cmd] in
theorem settled_mono (hle : g.Le g') {n : ℕ} {e : LogEntry Cmd}
    (h : ∃ T v, Settled cfg g T v ∧ v[n]? = some e) :
    ∃ T v, Settled cfg g' T v ∧ v[n]? = some e := by
  obtain ⟨T, v, hset, he⟩ := h
  exact ⟨T, v, hset.mono H hle le_rfl, he⟩

/-- Every move is answered, as in runs without crashes. -/
theorem answer (hm : Move a k h recv k' h' fresh) (ha : a = .clientAppend → k.stance.IsLeader)
    (hback : ∀ {p T} {idx : LogIndex}, recv = some (p, .appendEntriesResponse T (some idx) true) →
      k.stance.IsLeader → (idx : ℕ) ≤ g.acked p k.term)
    (hi : i ∈ cfg.ids) (hid : k.id = i) (hpeers : k.peers = cfg.peers i)
    (hn : k.Survives cfg g i h)
    (hrecv : ∀ p m, recv = some (p, m) → p ∈ cfg.ids ∧ m.Tracks cfg g p i) :
    ∃ g', Relation.ReflTransGen (Replication.Step LogEntry.term cfg.members) g g' ∧
      (survival cfg).Answers g g' i k' h' fresh := by
  obtain ⟨apps, happs, hm'⟩ := hm.restarted
  obtain ⟨g', hsteps, hans⟩ := commitment.answer H hm' ha hback hi hid hpeers hn.replicates
    hn.tracks hrecv
  have hle := (H.steps hsteps).2
  have htracks : k'.Tracks cfg g' i { h' with applied := apps } := hans.node.2
  have hrestarted : k'.Tracks cfg g' i h'.restarted := by
    have hrestarted := tracks_restarted htracks
    exact hrestarted
  refine ⟨g', hsteps, ⟨hans.node.1, hrestarted, fun x hx => ?_⟩, hans.fresh,
    fun {j k h} hj hn => ?_, hans.sent⟩
  · rw [happs] at hx
    rcases List.mem_append.mp hx with hx | hx
    · exact settled_mono H hle (hn.applied x hx)
    · exact settled_of_tracks htracks hx
  · obtain ⟨hrep, htracks⟩ := hans.frame hj ⟨hn.replicates, hn.tracks⟩
    exact ⟨hrep, htracks, fun x hx => settled_mono H hle (hn.applied x hx)⟩

end survival

/-! ## Runs with restarts -/

namespace Cluster

variable {cfg : Config NodeID} {c c' c'' : Cluster NodeID Cmd}
  {g g' : Replication NodeID (LogEntry Cmd)} {i j : NodeID} {a : Action NodeID Cmd}

structure Survives (cfg : Config NodeID) (c : Cluster NodeID Cmd)
    (g : Replication NodeID (LogEntry Cmd)) : Prop where
  inv : g.Inv LogEntry.term cfg.members
  holds : (survival cfg).Holds cfg g c

theorem survives_boot (cfg : Config NodeID) :
    Survives cfg (boot cfg : Cluster NodeID Cmd) .start := by
  have H : Commits cfg (boot cfg : Cluster NodeID Cmd) .start := commits_boot cfg
  refine ⟨H.inv, H.holds.wf, fun i hi => ?_, H.holds.sent, H.holds.pending⟩
  obtain ⟨hrep, htracks⟩ := H.holds.node i hi
  exact ⟨hrep, survival.tracks_restarted htracks, by simp [boot, Node.boot, History.empty]⟩

theorem Survives.leader_eq (H : Survives cfg c g) (hi : i ∈ cfg.ids)
    (hlead : (c.nodes i).state.isLeader) :
    g.leader (c.nodes i).state.c.currentTerm = some i ∧
      g.leaderLog (c.nodes i).state.c.currentTerm = (c.nodes i).state.c.log.wire.inner := by
  have hn := (H.holds.node i hi).replicates
  have hl := replication.leader_of_isLeader hn.elects (State.isLeader_iff.mp hlead)
  exact ⟨hl, replication.leader_log H.inv hn hl⟩

/-- Nodes crash only while their files are up to date. -/
def CrashesSaved (c : Cluster NodeID Cmd) (l : Label NodeID Cmd) : Prop :=
  l.2.isCrash = true → (c.nodes l.1).Saved

variable [DecidableEq Cmd]

instance (c : Cluster NodeID Cmd) (l : Label NodeID Cmd) : Decidable (CrashesSaved c l) :=
  inferInstanceAs (Decidable (_ → _))

/-- Crashed nodes have their state in their files, commands are appended by leaders only, and
responses are backed. -/
def Recoverable (c : Cluster NodeID Cmd) (l : Label NodeID Cmd) : Prop :=
  CrashesSaved c l ∧ AppendsAsLeader c l ∧ AckBacked c l

instance (c : Cluster NodeID Cmd) (l : Label NodeID Cmd) : Decidable (Recoverable c l) :=
  inferInstanceAs (Decidable (_ ∧ _))

/-- A node restarts from a file that is up to date. -/
theorem Survives.crash (H : Survives cfg c g) (hsaved : (c.nodes i).Saved)
    (hs : c.step cfg (i, .crash) = .ok c') : Survives cfg c' g := by
  obtain ⟨hi, -, n, msgs, hn, rfl⟩ := step_eq_ok hs
  obtain ⟨rfl, hpending, hhistory, hcore, -⟩ := Node.step_crash hn hsaved
  refine ⟨H.inv, H.holds.wf.step hs, fun j hj => ?_, fun e he => ?_, fun j hj x hx => ?_⟩
  · by_cases hji : j = i
    · subst hji
      rw [update_self, hcore, hhistory]
      exact survival.crash (H.holds.node j hj) (H.holds.wf.id j)
    · rw [update_of_ne hji]
      exact H.holds.node j hj
  · exact H.holds.sent e (by simpa [update] using he)
  · by_cases hji : j = i
    · subst hji
      rw [update_self, hpending] at hx
      cases hx
    · rw [update_of_ne hji] at hx
      exact H.holds.pending j hj x hx

theorem Survives.step (H : Survives cfg c g) (hP : Recoverable c (i, a))
    (hs : c.step cfg (i, a) = .ok c') :
    ∃ g', Relation.ReflTransGen (Replication.Step LogEntry.term cfg.members) g g' ∧
      Survives cfg c' g' := by
  obtain ⟨hcrash, happend, hacked⟩ := hP
  by_cases ha : a = .crash
  · subst ha
    exact ⟨g, .refl, H.crash (hcrash rfl) hs⟩
  obtain ⟨g', hsteps, hholds⟩ := H.holds.step (R := Relation.ReflTransGen _) hs ha
    fun hm hi hid hpeers hrecv => by
      refine survival.answer H.inv hm happend.isLeader ?_ hi hid hpeers (H.holds.node i hi)
        fun p m hpm => ⟨(hrecv p m hpm).1, (hrecv p m hpm).2.2⟩
      intro p T idx hpm hleader
      obtain ⟨hp, ⟨hloop, clk, rfl⟩, -⟩ := hrecv p _ hpm
      simp only [AckBacked, hloop] at hacked
      obtain ⟨x, hx, hxT, hle⟩ := hacked (State.isLeader_iff.mpr hleader)
      have hacc := (H.holds.node p hp).tracks.accepted (T := x.1) (n := x.2) hx
      rw [hxT] at hacc
      exact hle.trans hacc
  exact ⟨g', hsteps, (H.inv.steps hsteps).1, hholds⟩

/-- Runs with restarts are runs of the replication protocol. -/
theorem survival_run (hrun : Run (step cfg) Recoverable c c') (H : Survives cfg c g) :
    ∃ g', Relation.ReflTransGen (Replication.Step LogEntry.term cfg.members) g g' ∧
      Survives cfg c' g' :=
  Run.simulation hrun H fun _ _ _ _ H hP hs => H.step hP hs

/-- What Raft promises of a cluster `c` and any later state `c'` of it. -/
structure Safe (cfg : Config NodeID) (c c' : Cluster NodeID Cmd) : Prop where
  election : ∀ i ∈ cfg.ids, ∀ j ∈ cfg.ids, (c.nodes i).state.isLeader →
    (c'.nodes j).state.isLeader →
    (c.nodes i).state.c.currentTerm = (c'.nodes j).state.c.currentTerm → i = j
  matching : ∀ i ∈ cfg.ids, ∀ j ∈ cfg.ids, ∀ (idx idx' : LogIndex) (e e' : LogEntry Cmd),
    (c.nodes i).state.c.log.get idx = some e → (c'.nodes j).state.c.log.get idx = some e' →
    e.term = e'.term → idx' ≤ idx →
    ((c.nodes i).state.c.log.get idx').map LogEntry.wire =
      ((c'.nodes j).state.c.log.get idx').map LogEntry.wire
  completeness : ∀ i ∈ cfg.ids, ∀ j ∈ cfg.ids, (c'.nodes j).state.isLeader →
    (c.nodes i).state.c.currentTerm ≤ (c'.nodes j).state.c.currentTerm →
    ∀ idx : LogIndex, (idx : ℕ) ≤ upTo (c.nodes i).state.c.commitIndex →
      ∃ e, (c.nodes i).state.c.log.get idx = some e ∧
        ((c'.nodes j).state.c.log.get idx).map LogEntry.wire = some e.wire
  application : ∀ i ∈ cfg.ids, ∀ j ∈ cfg.ids, ∀ x ∈ (c.nodes i).history.applied,
    ∀ y ∈ (c'.nodes j).history.applied, x.1 = y.1 → x.2.wire = y.2.wire

omit [DecidableEq Cmd] in
theorem Survives.election (H : Survives cfg c g) (H' : Survives cfg c' g') (hle : g.Le g')
    (hi : i ∈ cfg.ids) (hj : j ∈ cfg.ids) (hlead : (c.nodes i).state.isLeader)
    (hlead' : (c'.nodes j).state.isLeader)
    (hterm : (c.nodes i).state.c.currentTerm = (c'.nodes j).state.c.currentTerm) : i = j := by
  have hl := hle.election.leader (H.leader_eq hi hlead).1
  rw [hterm] at hl
  exact Option.some.inj (hl.symm.trans (H'.leader_eq hj hlead').1)

omit [DecidableEq Cmd] in
theorem Survives.sound (H : Survives cfg c g) (hi : i ∈ cfg.ids) :
    g.Sound LogEntry.term (c.nodes i).state.c.log.wire.inner :=
  (H.holds.node i hi).replicates.log ▸ H.inv.log_sound i

omit [DecidableEq NodeID] [DecidableEq Cmd] in
/-- Logs that agree on the wire up to an index agree at the indexes up to there. -/
theorem get_of_take_eq {l l' : Log Cmd} {idx idx' : LogIndex} (hle : idx' ≤ idx)
    (h : l.wire.inner.take (idx.natPred + 1) = l'.wire.inner.take (idx.natPred + 1)) :
    (l.get idx').map LogEntry.wire = (l'.get idx').map LogEntry.wire := by
  have hlt : idx'.natPred < idx.natPred + 1 := by
    have := idx.natPred_add_one
    have := idx'.natPred_add_one
    have := PNat.coe_le_coe _ _ |>.mpr hle
    omega
  rw [← Log.get_wire, ← Log.get_wire, Log.get, Log.get, ← List.getElem?_take_of_lt hlt, h,
    List.getElem?_take_of_lt hlt]

omit [DecidableEq Cmd] in
theorem Survives.matching (H : Survives cfg c g) (H' : Survives cfg c' g') (hle : g.Le g')
    (hi : i ∈ cfg.ids) (hj : j ∈ cfg.ids) {idx idx' : LogIndex} {e e' : LogEntry Cmd}
    (he : (c.nodes i).state.c.log.get idx = some e)
    (he' : (c'.nodes j).state.c.log.get idx = some e') (hterm : e.term = e'.term)
    (hidx : idx' ≤ idx) : ((c.nodes i).state.c.log.get idx').map LogEntry.wire =
      ((c'.nodes j).state.c.log.get idx').map LogEntry.wire := by
  have hget : ∀ {l : Log Cmd} {e}, l.get idx = some e →
      l.wire.inner[idx.natPred]? = some e.wire := by
    intro l e he
    exact (Log.get_wire ..).trans (by rw [he]; rfl)
  exact get_of_take_eq hidx
    (((H.sound hi).mono hle).matching (H'.sound hj) (hget he) (hget he') hterm)

omit [DecidableEq Cmd] in
theorem Survives.completeness (H : Survives cfg c g) (H' : Survives cfg c' g') (hle : g.Le g')
    (hi : i ∈ cfg.ids) (hj : j ∈ cfg.ids) (hlead : (c'.nodes j).state.isLeader)
    (hterm : (c.nodes i).state.c.currentTerm ≤ (c'.nodes j).state.c.currentTerm)
    {idx : LogIndex} (hidx : (idx : ℕ) ≤ upTo (c.nodes i).state.c.commitIndex) :
    ∃ e, (c.nodes i).state.c.log.get idx = some e ∧
      ((c'.nodes j).state.c.log.get idx).map LogEntry.wire = some e.wire := by
  have ht := (H.holds.node i hi).tracks
  have hset := ht.committed.mono H.inv hle le_rfl
  obtain ⟨hl, hlog⟩ := H'.leader_eq hj hlead
  have hpre := H'.inv.committed_le_leaderLog hset hterm (by rw [hl]; simp)
  rw [hlog] at hpre
  exact Log.get_of_take hpre (by simpa [State.core] using ht.commit_le) hidx

omit [DecidableEq Cmd] in
theorem Survives.application (H : Survives cfg c g) (H' : Survives cfg c' g') (hle : g.Le g')
    (hi : i ∈ cfg.ids) (hj : j ∈ cfg.ids) {x y : LogIndex × LogEntry Cmd}
    (hx : x ∈ (c.nodes i).history.applied) (hy : y ∈ (c'.nodes j).history.applied)
    (hxy : x.1 = y.1) : x.2.wire = y.2.wire := by
  obtain ⟨T, v, hset, he⟩ := (H.holds.node i hi).applied x hx
  obtain ⟨T', v', hset', he'⟩ := (H'.holds.node j hj).applied y hy
  rw [← hxy] at he'
  rcases H'.inv.committed_total (hset.mono H.inv hle le_rfl) hset' with hpre | hpre
  · rw [hpre.getElem?_eq he] at he'
    exact Option.some.inj he'
  · rw [hpre.getElem?_eq he'] at he
    exact (Option.some.inj he).symm

omit [DecidableEq Cmd] in
theorem Survives.safe (H : Survives cfg c g) (H' : Survives cfg c' g') (hle : g.Le g') :
    Safe cfg c c' where
  election _ hi _ hj hlead hlead' := H.election H' hle hi hj hlead hlead'
  matching _ hi _ hj _ _ _ _ he he' := H.matching H' hle hi hj he he'
  completeness _ hi _ hj hlead hterm _ := H.completeness H' hle hi hj hlead hterm
  application _ hi _ hj _ hx _ hy := H.application H' hle hi hj hx hy

/-- **Safety of Raft**, in runs in which nodes crash and restart. -/
theorem raft_safety (hrun : Run (step cfg) Recoverable (boot cfg) c)
    (hrun' : Run (step cfg) Recoverable c c') : Safe cfg c c' := by
  obtain ⟨g, -, H⟩ := survival_run hrun (survives_boot cfg)
  obtain ⟨g', hsteps, H'⟩ := survival_run hrun' H
  exact H.safe H' (H.inv.steps hsteps).2

end Cluster

namespace Example

open Cluster

/-- `b` restarts, and the leader `a` makes it apply command 7 once more. -/
def reapplied : List (Label String ℕ) :=
  [("b", .crash), ("a", .replicate (at_ 300000000))] ++
    deliver "b" "a" (.appendEntries 1 (some 1) (some 1) (some 1) ⟨[]⟩)

/-- What `b` has applied at any time, and what it knows to have applied. -/
def applications (c : Cluster String ℕ) : List (LogIndex × LogEntry ℕ) × ℕ :=
  ((c.nodes "b").history.applied, upTo (c.nodes "b").state.c.lastApplied)

theorem raft_safety_reapplied : ∃ c c', Run (step pair) Recoverable (boot pair) c ∧
    Run (step pair) Recoverable c c' ∧ applications c = ([(1, ⟨7, 1⟩)], 1) ∧
    applications c' = ([(1, ⟨7, 1⟩), (1, ⟨7, 1⟩)], 1) ∧ Safe pair c c' := by
  have hexec : ((Run.exec (step pair) (fun c l => decide (Recoverable c l)) replicated
      (boot pair)).bind fun c =>
        (Run.exec (step pair) (fun c l => decide (Recoverable c l)) reapplied c).map fun c' =>
          (applications c, applications c')) =
      some (([(1, ⟨7, 1⟩)], 1), ([(1, ⟨7, 1⟩), (1, ⟨7, 1⟩)], 1)) := by
    decide +kernel
  obtain ⟨c, c', hrun, hrun', hc⟩ := Run.exists_of_exec_exec hexec fun _ _ => of_decide_eq_true
  obtain ⟨hc, hc'⟩ := Prod.mk.inj hc
  exact ⟨c, c', hrun, hrun', hc, hc', raft_safety hrun hrun'⟩

end Example

end Miniraft

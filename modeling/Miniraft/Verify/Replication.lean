import Miniraft.Theory.Completeness
import Miniraft.Theory.Splice
import Miniraft.Verify.Election

/-!
# Replication of the program is replication under elected leaders

Every crash-free run in which commands are only appended at leaders is a run of the abstract
replication protocol over the logs as they go over the wire (`Cluster.replication_run`). A request
to append entries carries a slice of a log the leader of its term once had; the check of the
previous term and the splice of the entries then amount to taking that log over.
-/

namespace Miniraft

open Consensus

variable {NodeID Cmd : Type} [DecidableEq NodeID]

/-- The request of the leader of `T` carries what its log `v` had behind `prevLogIndex`. If the
index lies beyond `v`, there are no entries and no previous term. -/
structure Segment (g : Replication NodeID (LogEntry Cmd)) (T : Term)
    (prevLogIndex : Option LogIndex) (prevLogTerm : Option Term) (entries : Log Cmd)
    (v : List (LogEntry Cmd)) : Prop where
  base : g.base T <+: v
  le : v <+: g.leaderLog T
  entries : entries.inner = v.drop (upTo prevLogIndex)
  prev : prevLogTerm = prevLogIndex.bind fun idx => v[idx.natPred]?.map (·.term)

/-- What a message says about the protocol. -/
def RaftMessage.Reports (g : Replication NodeID (LogEntry Cmd)) (source destination : NodeID) :
    RaftMessage Cmd → Prop
  | .requestVote T lastLogIndex lastLogTerm => ∃ l, g.cand source T = some l ∧
    upTo lastLogIndex = l.length ∧ lastLogTerm = l.getLast?.map (·.term)
  | .requestVoteResponse T granted => granted = true → g.vote source T = some destination
  | .appendEntries T _ prevLogIndex prevLogTerm entries => g.leader T = some source ∧
    ∃ v, Segment g T prevLogIndex prevLogTerm entries v
  | .appendEntriesResponse .. => True

/-- What the core of node `i` says about the protocol. -/
structure Core.Replicates (cfg : Config NodeID) (g : Replication NodeID (LogEntry Cmd))
    (i : NodeID) (k : Core NodeID Cmd) : Prop where
  term : g.term i = k.term
  log : g.log i = k.log.inner
  elects : k.stance.Elects cfg g.toElection i k.term
  candidate : ∀ {votes}, k.stance = .candidate votes →
    g.cand i k.term = some k.log.inner ∧ g.leader k.term ≠ some i

/-- The cores and messages of a cluster show a state of the replication protocol. -/
def replication (cfg : Config NodeID) :
    Family (Replication NodeID (LogEntry Cmd)) NodeID Cmd where
  node g i k _ := k.Replicates cfg g i
  msg g env := env.body.Reports g env.source env.destination

/-- The check of the candidate's log is the one of the protocol. -/
theorem State.upToDate_eq_true {log : Log Cmd} {l : List (LogEntry Cmd)} {li : Option LogIndex}
    {lt : Option Term} (hli : upTo li = l.length) (hlt : lt = l.getLast?.map (·.term))
    (h : State.upToDate log li lt = true) : UpToDate LogEntry.term l log.inner := by
  intro e' he'
  have hlast : log.last = some e' := he'
  unfold State.upToDate at h
  rw [hlast, hlt] at h
  cases hl : l.getLast? with
  | none =>
    rw [hl] at h
    simp [compare] at h
  | some e =>
    rw [hl] at h
    have hc : compare (some e.term) (some e'.term) = compare e.term e'.term := rfl
    simp only [Option.map_some, hc] at h
    refine ⟨e, rfl, ?_⟩
    split at h
    · cases h
    · next heq =>
      exact .inr ⟨(compare_eq_iff_eq.mp heq).symm, by simpa [hli] using h⟩
    · next hgt => exact .inl (compare_gt_iff_gt.mp hgt)

namespace replication

variable {cfg : Config NodeID} {g g' : Replication NodeID (LogEntry Cmd)} {i p : NodeID}
  {k k' : Core NodeID Cmd} {h h' : History NodeID Cmd} {fresh : Outgoing NodeID Cmd}

omit [DecidableEq NodeID] in
theorem reports_mono (hle : g.Le g') {s d : NodeID} {m : RaftMessage Cmd} (hm : m.Reports g s d) :
    m.Reports g' s d := by
  cases m with
  | requestVote T li lt =>
    obtain ⟨l, hl, h⟩ := hm
    exact ⟨l, hle.cand hl, h⟩
  | requestVoteResponse T granted => exact fun hg => hle.election.vote (hm hg)
  | appendEntries T ci pi pt es =>
    obtain ⟨hl, v, hv⟩ := hm
    have hne : g.leader T ≠ none := by simp [hl]
    exact ⟨hle.election.leader hl, v, (hle.base hne).symm ▸ hv.base,
      hv.le.trans (hle.leaderLog hne), hv.entries, hv.prev⟩
  | appendEntriesResponse _ _ _ => trivial

/-- A step of node `i` does not matter to what another node shows. -/
theorem replicates_frame {j : NodeID} (hle : g.Le g') (honly : g.Only i g') (hj : j ≠ i)
    (hn : k.Replicates cfg g j) : k.Replicates cfg g' j where
  term := (honly.term hj).trans hn.term
  log := (honly.log hj).trans hn.log
  elects := elections.elects_mono hle.election (by rw [honly.vote hj]) hn.elects
  candidate hc := ⟨hle.cand (hn.candidate hc).1,
    fun hl => (hn.candidate hc).2 (honly.leader hj hl)⟩

/-- The protocol state `g'` accounts for a move of node `i` to `k'`. -/
structure Reply (cfg : Config NodeID) (g g' : Replication NodeID (LogEntry Cmd)) (i : NodeID)
    (k' : Core NodeID Cmd) (fresh : Outgoing NodeID Cmd) : Prop where
  steps : Relation.ReflTransGen (Replication.Step LogEntry.term cfg.members) g g'
  only : g.Only i g'
  node : k'.Replicates cfg g' i
  fresh : ∀ x ∈ fresh, x.2.Reports g' i x.1

theorem Reply.answers (H : g.Inv LogEntry.term cfg.members) (hr : Reply cfg g g' i k' fresh) :
    (replication cfg).Answers g g' i k' h' fresh where
  node := hr.node
  fresh := hr.fresh
  frame hj hn := replicates_frame (H.steps hr.steps).2 hr.only hj hn
  sent := reports_mono (H.steps hr.steps).2

/-! ## Moves -/

omit [DecidableEq NodeID] in
theorem not_candidate_stepDown {st : Stance NodeID} {v : Option NodeID} {votes : Finset NodeID} :
    st.stepDown v ≠ .candidate votes := by
  cases st <;> simp [Stance.stepDown]

/-- A node that gets in line behind the leader of its term shows the same state. -/
theorem replicates_stepDown {commit applied : ℕ} (hn : k.Replicates cfg g i) (hid : k.id = i)
    (hnl : ¬ k.stance.IsLeader) :
    { k with commit, applied, stance := k.stance.stepDown (some k.id) }.Replicates cfg g i where
  term := hn.term
  log := hn.log
  elects := by
    rw [hid]
    exact elections.elects_stepDown hnl hn.elects
  candidate hc := absurd hc not_candidate_stepDown

/-- A node that stays in its term and keeps its log shows the same state if its stance does. -/
theorem replicates_stance {st : Stance NodeID} {commit applied : ℕ} (hn : k.Replicates cfg g i)
    (hst : st.Elects cfg g.toElection i k.term)
    (hcand : ∀ {votes}, st = .candidate votes → ∃ votes', k.stance = .candidate votes') :
    { k with commit, applied, stance := st }.Replicates cfg g i where
  term := hn.term
  log := hn.log
  elects := hst
  candidate hc := by
    obtain ⟨votes', hc'⟩ := hcand hc
    exact hn.candidate hc'

omit [DecidableEq NodeID] in
/-- The check of the previous term makes sure that the node has what the leader's log has up to
there. -/
theorem take_eq_of_consistent {pi : Option LogIndex} {v : List (LogEntry Cmd)}
    (hlog : g.Sound LogEntry.term k.log.inner) (hv : g.Sound LogEntry.term v)
    (hcons : (pi.bind fun idx => (k.log.get idx).map (·.term)) =
      pi.bind fun idx => v[idx.natPred]?.map (·.term))
    (hle : upTo pi ≤ k.log.inner.length) :
    k.log.inner.take (upTo pi) = v.take (upTo pi) := by
  cases pi with
  | none => simp
  | some idx =>
    have hpos : idx.natPred + 1 = idx := idx.natPred_add_one
    simp only [upTo_some] at hle ⊢
    have hlt : idx.natPred < k.log.inner.length := by omega
    have he : k.log.inner[idx.natPred]? = some k.log.inner[idx.natPred] :=
      List.getElem?_eq_getElem hlt
    simp only [Option.bind_some, Log.get, he, Option.map_some] at hcons
    obtain ⟨e', he', ht⟩ := Option.map_eq_some_iff.mp hcons.symm
    rw [← hpos]
    exact hlog.matching hv he he' ht.symm

theorem leader_of_isLeader {st : Stance NodeID} {T : Term}
    (hst : st.Elects cfg g.toElection i T) (hlead : st.IsLeader) : g.leader T = some i := by
  cases st with
  | leader _ _ => exact hst.2
  | _ => cases hlead

theorem replicates_append {e : LogEntry Cmd} (hn : k.Replicates cfg g i)
    (hlead : k.stance.IsLeader) (he : e.term = k.term) :
    Replication.Step LogEntry.term cfg.members g (g.append i e) ∧
      { k with log := k.log.append e }.Replicates cfg (g.append i e) i := by
  have hl : g.leader k.term = some i := leader_of_isLeader hn.elects hlead
  refine ⟨.append (by rw [hn.term, hl]) (he.trans hn.term.symm), hn.term, ?_, hn.elects, ?_⟩
  · simp [Replication.append, Log.append, hn.log]
  · rintro votes hc
    simp only at hc
    simp [hc, Stance.IsLeader] at hlead

theorem replicates_accept {v : List (LogEntry Cmd)} {log : Log Cmd} {commit applied : ℕ}
    (hn : k.Replicates cfg g i) (hid : k.id = i) (hnl : ¬ k.stance.IsLeader)
    (hlog : log.inner = takeOver k.log.inner v) :
    { k with log, commit, applied, stance := k.stance.stepDown (some k.id) }.Replicates cfg
      (g.accept i v) i where
  term := hn.term
  log := by simp [Replication.accept, hn.log, hlog]
  elects := by
    rw [hid]
    exact elections.elects_stepDown hnl hn.elects
  candidate hc := absurd hc not_candidate_stepDown

variable (H : g.Inv LogEntry.term cfg.members)

include H

theorem leader_log (hn : k.Replicates cfg g i) (hl : g.leader k.term = some i) :
    g.leaderLog k.term = k.log.inner := by
  rw [← (H.leader_log hl).2 hn.term, hn.log]

/-- What a leader sends is a slice of its log. -/
theorem segment_of_appends {next : Map NodeID LogIndex} {x : NodeID × RaftMessage Cmd}
    (hn : k.Replicates cfg g i) (hl : g.leader k.term = some i) (hx : k.Appends next x) :
    ∃ ni ci, next.lookup x.1 = some ni ∧ upTo ci = k.commit ∧ ∃ pt es,
      x.2 = .appendEntries k.term ci ni.dec pt es ∧ Segment g k.term ni.dec pt es k.log.inner := by
  obtain ⟨ni, ci, hni, hci, hbody⟩ := hx.body
  have hlog := leader_log H hn hl
  have hne : g.leader k.term ≠ none := by simp [hl]
  refine ⟨ni, ci, hni, hci, _, _, hbody, ?_, ?_, ?_, rfl⟩
  · rw [← hlog]
    exact H.base_le hne
  · rw [hlog]
  · simp

theorem reports_of_appends {next : Map NodeID LogIndex} {x : NodeID × RaftMessage Cmd}
    (hn : k.Replicates cfg g i) (hl : g.leader k.term = some i) (hx : k.Appends next x) :
    x.2.Reports g i x.1 := by
  obtain ⟨ni, ci, -, -, pt, es, hbody, hseg⟩ := segment_of_appends H hn hl hx
  rw [hbody]
  exact ⟨hl, _, hseg⟩

theorem replicates_advance {T : Term} (hn : k.Replicates cfg g i) (hT : k.term < T) :
    { k with term := T, stance := k.stance.stepDown none }.Replicates cfg (g.advance i T) i where
  term := by simp [Replication.advance, Election.advance]
  log := hn.log
  elects := elections.elects_of_none (H.election.vote_eq_none (hn.term ▸ hT)) none
  candidate hc := absurd hc not_candidate_stepDown

theorem replicates_stand {T : Term} (hn : k.Replicates cfg g i) (hT : k.term < T)
    (hi : i ∈ cfg.ids) (hid : k.id = i) :
    { k with term := T, stance := .candidate {k.id} }.Replicates cfg (g.stand i T) i where
  term := by simp [Replication.stand, Election.cast, Election.advance]
  log := hn.log
  elects := by
    have hself : (g.stand i T).vote i T = some i := by simp [Replication.stand, Election.cast]
    refine ⟨hself, fun p hp => ?_⟩
    obtain rfl : p = i := (Finset.mem_singleton.mp hp).trans hid
    exact ⟨cfg.mem_members.mpr hi, hself⟩
  candidate _ := by
    refine ⟨by simp [Replication.stand, ← hn.log], fun hl => ?_⟩
    have := (H.leader_log (T := T) (c := i) hl).1
    rw [hn.term] at this
    exact absurd hT (not_lt.mpr this)

/-- A candidate with a majority of votes becomes the leader of its term. -/
theorem elect_of_win {votes : Finset NodeID} (next : Map NodeID LogIndex)
    (mtch : Map NodeID (Option LogIndex)) (hi : i ∈ cfg.ids) (hpeers : k.peers = cfg.peers i)
    (hn : k.Replicates cfg g i) (hcand : k.stance = .candidate votes) (hp : p ∈ cfg.ids)
    (hv : g.vote p k.term = some i) (hmaj : k.peers.length + 1 < 2 * (insert p votes).card) :
    Replication.Step LogEntry.term cfg.members g (g.elect i) ∧
      { k with stance := .leader next mtch }.Replicates cfg (g.elect i) i := by
  have hst := elections.elects_insert (hcand ▸ hn.elects) hp hv
  have hQ : Majority cfg.members (insert p votes) := by
    refine ⟨fun q hq => (hst.2 q hq).1, ?_⟩
    rwa [hpeers, cfg.length_peers hi] at hmaj
  have hvotes : ∀ q ∈ insert p votes, g.vote q (g.term i) = some i := by
    intro q hq
    rw [hn.term]
    exact (hst.2 q hq).2
  obtain ⟨hc, hl⟩ := hn.candidate hcand
  have hnone : g.leader (g.term i) = none := by
    cases hl' : g.leader (g.term i) with
    | none => rfl
    | some d =>
      rw [hn.term] at hl' hvotes
      exact absurd (H.election.leader_unique hl' hQ hvotes ▸ hl') hl
  refine ⟨.elect hnone hQ hvotes (by rw [hn.term, hn.log, hc]), hn.term, hn.log, ?_, by simp⟩
  exact ⟨hst.1, by simp [Replication.elect, Election.elect, hn.term]⟩

omit H in
theorem step_accept {pi : Option LogIndex} {pt : Option Term} {es : Log Cmd}
    {v : List (LogEntry Cmd)} (hn : k.Replicates cfg g i) (hne : g.leader k.term ≠ none)
    (hseg : Segment g k.term pi pt es v) :
    Replication.Step LogEntry.term cfg.members g (g.accept i v) := by
  rw [← hn.term] at hne hseg
  exact .accept hne hseg.base hseg.le

/-- A successful request either changes nothing because its index lies beyond both logs, or the
node takes over the log the leader had. -/
theorem accept_cases [Wire Cmd] {ci pi : Option LogIndex} {pt : Option Term} {es log : Log Cmd}
    {commit applied : ℕ} {apps : List (LogIndex × LogEntry Cmd)}
    {drops : List (LogEntry Cmd × ℕ)}
    {v : List (LogEntry Cmd)} (hn : k.Replicates cfg g i) (hne : g.leader k.term ≠ none)
    (hseg : Segment g k.term pi pt es v)
    (hacc : Accepts k ci pi pt es log commit applied apps drops) :
    (v.length < upTo pi ∧ log = k.log) ∨
      (upTo pi ≤ v.length ∧ log.inner = takeOver k.log.inner v) := by
  have hlog : g.Sound LogEntry.term k.log.inner := hn.log ▸ H.log_sound i
  have hv : g.Sound LogEntry.term v := (H.leaderLog_sound hne).of_le hseg.le
  have hcons := hacc.consistent.trans hseg.prev
  rcases hacc.spliced with ⟨hgap, rfl, -⟩ | ⟨hle, hsplice, -⟩
  · refine .inl ⟨?_, rfl⟩
    cases pi with
    | none => simp at hgap
    | some idx =>
      have hpos : idx.natPred + 1 = idx := idx.natPred_add_one
      simp only [upTo_some] at hgap ⊢
      by_contra hlen
      have h1 : k.log.inner[idx.natPred]? = none := List.getElem?_eq_none (by omega)
      have h2 : v[idx.natPred]? = some v[idx.natPred] := List.getElem?_eq_getElem (by omega)
      simp [Log.get, h1, h2] at hcons
  · have htake := take_eq_of_consistent hlog hv hcons hle
    have hlen : upTo pi ≤ v.length := by
      have := congrArg List.length htake
      simp only [List.length_take] at this
      omega
    refine .inr ⟨hlen, ?_⟩
    rw [hsplice, hseg.entries]
    exact splice_eq_takeOver htake hle (hlog.matching hv)

variable [Wire Cmd] {a : Action NodeID Cmd} {recv : Option (NodeID × RaftMessage Cmd)}

/-- Every move of a node is answered by the replication protocol, if commands are only appended at
leaders. -/
theorem answer (hm : Move a k h recv k' h' fresh) (ha : a = .clientAppend → k.stance.IsLeader)
    (hi : i ∈ cfg.ids) (hid : k.id = i) (hpeers : k.peers = cfg.peers i)
    (hn : k.Replicates cfg g i)
    (hrecv : ∀ p m, recv = some (p, m) → p ∈ cfg.ids ∧ m.Reports g p i) :
    ∃ g', Reply cfg g g' i k' fresh := by
  have hself : ∀ {k' : Core NodeID Cmd} {fresh : Outgoing NodeID Cmd}, k'.Replicates cfg g i →
      (∀ x ∈ fresh, x.2.Reports g i x.1) → ∃ g', Reply cfg g g' i k' fresh :=
    fun hk hf => ⟨g, .refl, .refl i g, hk, hf⟩
  have hstep : ∀ {g' : Replication NodeID (LogEntry Cmd)} {k' : Core NodeID Cmd}
      {fresh : Outgoing NodeID Cmd}, Replication.Step LogEntry.term cfg.members g g' →
      g.Only i g' → k'.Replicates cfg g' i → (∀ x ∈ fresh, x.2.Reports g' i x.1) →
      ∃ g', Reply cfg g g' i k' fresh :=
    fun hs ho hk hf => ⟨_, .single hs, ho, hk, hf⟩
  cases hm with
  | quiet => exact hself hn (by simp)
  | stepDown hlt =>
    exact hstep (.advance (hn.term ▸ hlt)) (Replication.only_advance ..)
      (replicates_advance H hn hlt) (by simp)
  | @stand T hlt hlead =>
    refine hstep (.stand (hn.term ▸ hlt)) (Replication.only_stand ..)
      (replicates_stand H hn hlt hi hid) fun x hx => ?_
    obtain ⟨p, -, rfl⟩ := List.mem_map.mp hx
    refine ⟨k.log.inner, ?_, by simp, rfl⟩
    simp [Replication.stand, hn.log]
  | replicate hlead happ =>
    have hl := leader_of_isLeader hn.elects (hlead ▸ trivial)
    exact hself hn fun x hx => reports_of_appends H hn hl (happ x hx)
  | refuse =>
    refine hself hn fun x hx => ?_
    obtain rfl := List.mem_singleton.mp hx
    simp [RaftMessage.Reports]
  | @grant p li lt v hne hstance hv hup =>
    have hst := hstance ▸ hn.elects
    obtain ⟨-, l, hcand, hli, hlt⟩ := hrecv p _ rfl
    cases hvote : g.vote i k.term with
    | some c =>
      have hcp : c = p := by
        rcases hv with rfl | rfl
        · exact absurd (hst c hvote) (by simp)
        · exact (Option.some.inj (hst c hvote)).symm
      subst hcp
      refine hself (replicates_stance hn (fun d hd => hvote ▸ hd) (by simp)) fun x hx => ?_
      obtain rfl := List.mem_singleton.mp hx
      exact fun _ => hvote
    | none =>
      have hs : Replication.Step LogEntry.term cfg.members g (g.grant i p) := by
        refine .grant (l := l) (by rw [hn.term, hvote]) (by rw [hn.term, hcand]) ?_
        rw [hn.log]
        exact State.upToDate_eq_true hli hlt hup
      have hcast : (g.grant i p).vote i k.term = some p := by
        simp [Replication.grant, Election.cast, hn.term]
      refine hstep hs (Replication.only_grant ..)
        ⟨hn.term, hn.log, fun d hd => hcast ▸ hd, by simp⟩ fun x hx => ?_
      obtain rfl := List.mem_singleton.mp hx
      exact fun _ => hcast
  | @count p votes hstance =>
    obtain ⟨hp, hv⟩ := hrecv p _ rfl
    have hst := elections.elects_insert (hstance ▸ hn.elects) hp (hv rfl)
    exact hself (replicates_stance hn hst fun _ => ⟨votes, hstance⟩) (by simp)
  | @win p votes next fresh hstance hnot hmaj hnext happ =>
    obtain ⟨hp, hv⟩ := hrecv p _ rfl
    obtain ⟨hs, hk⟩ := elect_of_win H (.ofKeys k.peers next) (.ofKeys k.peers none) hi
      hpeers hn hstance hp (hv rfl) hmaj
    refine hstep hs (Replication.only_elect ..) hk fun x hx => ?_
    have hl := leader_of_isLeader hk.elects trivial
    exact reports_of_appends (H.step hs) hk hl ⟨(happ x hx).peer, (happ x hx).body⟩
  | stale hlt =>
    refine hself hn fun x hx => ?_
    obtain rfl := List.mem_singleton.mp hx
    trivial
  | mismatch hlead =>
    refine hself (replicates_stepDown hn hid hlead) fun x hx => ?_
    obtain rfl := List.mem_singleton.mp hx
    trivial
  | @accept p ci pi pt es log commit applied apps drops hlead hne hacc =>
    obtain ⟨-, hl, v, hseg⟩ := hrecv p _ rfl
    have hsome : g.leader k.term ≠ none := by simp [hl]
    rcases accept_cases H hn hsome hseg hacc with ⟨-, rfl⟩ | ⟨-, hlog⟩
    · refine hself (replicates_stepDown hn hid hlead) fun x hx => ?_
      obtain rfl := List.mem_singleton.mp hx
      trivial
    · have hs := step_accept hn hsome hseg
      refine hstep hs (Replication.only_accept ..) (replicates_accept hn hid hlead hlog)
        fun x hx => ?_
      obtain rfl := List.mem_singleton.mp hx
      trivial
  | @retreat p T idx next mtch ni fresh hstance hni happ =>
    have hst := hstance ▸ hn.elects
    have hk : { k with stance := .leader (next.insert p (ni.dec.getD 1)) mtch }.Replicates cfg g i :=
      replicates_stance hn hst (by simp)
    exact hself hk fun x hx => reports_of_appends H hk hst.2 ⟨(happ x hx).peer, (happ x hx).body⟩
  | ack hstance hni hmi hi hc =>
    have hst := hstance ▸ hn.elects
    exact hself (replicates_stance hn hst (by simp)) (by simp)
  | @append cmd _ hact hl =>
    obtain ⟨hs, hk⟩ := replicates_append (e := ⟨wire cmd, k.term⟩) hn (ha hact) rfl
    exact hstep hs (Replication.only_append ..) hk (by simp)

omit H in
theorem holds_boot (cfg : Config NodeID) :
    (replication cfg).Holds cfg .start (Cluster.boot cfg : Cluster NodeID Cmd) where
  wf := .boot
  node i _ := ⟨rfl, rfl, by simp [Cluster.boot, Node.boot, State.new, State.core, Role.stance,
    Stance.Elects, Replication.start, Election.start], by simp [Cluster.boot, Node.boot, State.new,
      State.core, Role.stance]⟩
  sent := by simp [Cluster.boot]
  pending := by simp [Cluster.boot, Node.boot, Node.pending]

end replication

namespace Cluster

variable [Wire Cmd] {cfg : Config NodeID} {c c' : Cluster NodeID Cmd}
  {g : Replication NodeID (LogEntry Cmd)}

/-- Commands are appended by leaders only: `State::append` runs while the node is leader. -/
def AppendsAsLeader (c : Cluster NodeID Cmd) (l : Label NodeID Cmd) : Prop :=
  l.2.isClientAppend → (c.nodes l.1).state.isLeader

instance (c : Cluster NodeID Cmd) (l : Label NodeID Cmd) : Decidable (AppendsAsLeader c l) :=
  inferInstanceAs (Decidable (_ → _))

omit [DecidableEq NodeID] in
theorem AppendsAsLeader.isLeader {i : NodeID} {a : Action NodeID Cmd}
    (h : AppendsAsLeader c (i, a)) (ha : a = .clientAppend) :
    (c.nodes i).state.core.stance.IsLeader := by
  subst ha
  exact State.isLeader_iff.mp (h rfl)

/-- The cluster shows a state of the replication protocol that could have been reached. -/
structure Replicates (cfg : Config NodeID) (c : Cluster NodeID Cmd)
    (g : Replication NodeID (LogEntry Cmd)) : Prop where
  inv : g.Inv LogEntry.term cfg.members
  holds : (replication cfg).Holds cfg g c

theorem replicates_boot (cfg : Config NodeID) :
    Replicates cfg (boot cfg : Cluster NodeID Cmd) .start :=
  ⟨Replication.inv_start, replication.holds_boot cfg⟩

theorem Replicates.sound (H : Replicates cfg c g) {i : NodeID} (hi : i ∈ cfg.ids) :
    g.Sound LogEntry.term (c.nodes i).state.c.log.wire.inner :=
  (H.holds.node i hi).log ▸ H.inv.log_sound i

variable [DecidableEq Cmd]

/-- Every crash-free run in which commands are appended by leaders only is a run of the
replication protocol. -/
theorem replication_run
    (hrun : Run (step cfg) (fun c l => CrashFree c l ∧ AppendsAsLeader c l) c c')
    (H : Replicates cfg c g) :
    ∃ g', Relation.ReflTransGen (Replication.Step LogEntry.term cfg.members) g g' ∧
      Replicates cfg c' g' := by
  refine Run.simulation hrun H fun c l c' g H hl hs => ?_
  obtain ⟨i, a⟩ := l
  obtain ⟨g', hsteps, hholds⟩ := H.holds.step (R := Relation.ReflTransGen _) hs hl.1.ne
    fun hm hi hid hpeers hrecv => by
      obtain ⟨g', hr⟩ := replication.answer H.inv hm hl.2.isLeader hi hid hpeers (H.holds.node i hi)
        fun p m hpm => ⟨(hrecv p m hpm).1, (hrecv p m hpm).2.2⟩
      exact ⟨g', hr.steps, hr.answers H.inv⟩
  exact ⟨g', hsteps, (H.inv.steps hsteps).1, hholds⟩

/-- **Log matching**: along a crash-free run in which commands are appended by leaders only, logs
with entries of one term at an index have the same entries up to there. -/
theorem log_matching
    (hrun : Run (step cfg) (fun c l => CrashFree c l ∧ AppendsAsLeader c l) (boot cfg) c)
    {i j : NodeID} (hi : i ∈ cfg.ids) (hj : j ∈ cfg.ids) {idx idx' : LogIndex}
    {e e' : LogEntry Cmd} (he : (c.nodes i).state.c.log.get idx = some e)
    (he' : (c.nodes j).state.c.log.get idx = some e') (hterm : e.term = e'.term)
    (hle : idx' ≤ idx) :
    ((c.nodes i).state.c.log.get idx').map LogEntry.wire =
      ((c.nodes j).state.c.log.get idx').map LogEntry.wire := by
  obtain ⟨g, -, H⟩ := replication_run hrun (replicates_boot cfg)
  have hget : ∀ {q e}, (c.nodes q).state.c.log.get idx = some e →
      (c.nodes q).state.c.log.wire.inner[idx.natPred]? = some e.wire := by
    intro q e he
    exact (Log.get_wire ..).trans (by rw [he]; rfl)
  have htake := (H.sound hi).matching (H.sound hj) (hget he) (hget he') hterm
  have hlt : idx'.natPred < idx.natPred + 1 := by
    have := idx.natPred_add_one
    have := idx'.natPred_add_one
    have := PNat.coe_le_coe _ _ |>.mpr hle
    omega
  rw [← Log.get_wire, ← Log.get_wire, Log.get, Log.get, ← List.getElem?_take_of_lt hlt, htake,
    List.getElem?_take_of_lt hlt]

end Cluster

namespace Example

/-- The leader `a` takes command 7 from a client, `b` accepts it, `a` applies it and then `b`. -/
def replicated : List (Label String ℕ) :=
  List.flatten [
    elected,
    [("a", .clientRequest 7), ("a", .clientAppend), ("a", .clientReplicate (at_ 100000000))],
    deliver "b" "a" (.appendEntries 1 none none none ⟨[⟨7, 1⟩]⟩),
    deliver "a" "b" (.appendEntriesResponse 1 (some 1) true), [("a", .replicate (at_ 200000000))],
    deliver "b" "a" (.appendEntries 1 (some 1) (some 1) (some 1) ⟨[]⟩)]

/-- Then it takes command 8, which `b` accepts, too. -/
def replicatedTwice : List (Label String ℕ) :=
  replicated ++
    [("a", .clientRequest 8), ("a", .clientAppend), ("a", .clientReplicate (at_ 300000000))] ++
    deliver "b" "a" (.appendEntries 1 (some 1) (some 1) (some 1) ⟨[⟨8, 1⟩]⟩)

def logs (c : Cluster String ℕ) : List (LogEntry ℕ) × List (LogEntry ℕ) :=
  ((c.nodes "a").state.c.log.inner, (c.nodes "b").state.c.log.inner)

/-- The entries at index 2 have the same term, so those at index 1 are the same. -/
theorem log_matching_replicated : ∃ c, Run (Cluster.step pair)
    (fun c l => Cluster.CrashFree c l ∧ Cluster.AppendsAsLeader c l) (.boot pair) c ∧
    logs c = ([⟨7, 1⟩, ⟨8, 1⟩], [⟨7, 1⟩, ⟨8, 1⟩]) ∧
    ((c.nodes "a").state.c.log.get 1).map LogEntry.wire =
      ((c.nodes "b").state.c.log.get 1).map LogEntry.wire := by
  have hexec : (Run.exec (Cluster.step pair)
      (fun c l => decide (Cluster.CrashFree c l ∧ Cluster.AppendsAsLeader c l)) replicatedTwice
      (.boot pair)).map logs = some ([⟨7, 1⟩, ⟨8, 1⟩], [⟨7, 1⟩, ⟨8, 1⟩]) := by
    decide +kernel
  obtain ⟨c, hrun, hc⟩ := Run.exists_of_exec hexec fun _ _ => of_decide_eq_true
  have ha : (c.nodes "a").state.c.log.get 2 = some ⟨8, 1⟩ := by
    rw [Log.get, show (c.nodes "a").state.c.log.inner = _ from congrArg Prod.fst hc]
    rfl
  have hb : (c.nodes "b").state.c.log.get 2 = some ⟨8, 1⟩ := by
    rw [Log.get, show (c.nodes "b").state.c.log.inner = _ from congrArg Prod.snd hc]
    rfl
  exact ⟨c, hrun, hc,
    Cluster.log_matching hrun (by decide) (by decide) ha hb rfl (by decide)⟩

end Example

end Miniraft

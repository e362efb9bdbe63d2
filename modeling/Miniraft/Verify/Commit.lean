import Miniraft.Verify.Map
import Miniraft.Verify.Replication

/-!
# Commitment

A leader takes the index in a response to its request for what the follower shares with it. That
is so if the follower has accepted a request of the leader's term that reaches the index
(`Cluster.AckBacked`); then match indexes are acknowledgements of the abstract protocol, commit
indexes mark committed segments, and what nodes apply agrees.
-/

namespace Miniraft

open Consensus

variable {NodeID Cmd : Type} [DecidableEq NodeID]

/-- What is committed by term `T`, in the protocol of the cluster `cfg`. -/
abbrev Settled (cfg : Config NodeID) (g : Replication NodeID (LogEntry Cmd)) (T : Term)
    (l : List (LogEntry Cmd)) : Prop :=
  Replication.Committed LogEntry.term cfg.members g T l

/-- What a message says about the protocol: a leader's commit index marks a committed segment of
the log it sends from. -/
def RaftMessage.Tracks (cfg : Config NodeID) (g : Replication NodeID (LogEntry Cmd))
    (source destination : NodeID) : RaftMessage Cmd → Prop
  | .appendEntries T commitIndex prevLogIndex prevLogTerm entries => g.leader T = some source ∧
    ∃ v, Segment g T prevLogIndex prevLogTerm entries v ∧ upTo prevLogIndex ≤ v.length ∧
      upTo commitIndex ≤ v.length ∧ Settled cfg g T (v.take (upTo commitIndex))
  | m => m.Reports g source destination

/-- What the tables of a leader say about the protocol. -/
structure Core.Leads (g : Replication NodeID (LogEntry Cmd)) (i : NodeID)
    (k : Core NodeID Cmd) (next : Map NodeID LogIndex) (mtch : Map NodeID (Option LogIndex)) :
    Prop where
  next_le : ∀ {p ni}, next.lookup p = some ni → ni.natPred ≤ k.log.inner.length
  match_le : ∀ {p n}, mtch.lookup p = some (some n) → (n : ℕ) ≤ g.acked p k.term
  keys : ∀ p, p ∈ mtch ↔ p ∈ k.peers
  self : k.log.inner.length ≤ g.acked i k.term

/-- What a node has committed, applied and accepted. -/
structure Core.Tracks [Wire Cmd] (cfg : Config NodeID) (g : Replication NodeID (LogEntry Cmd))
    (i : NodeID) (k : Core NodeID Cmd) (h : History NodeID Cmd) : Prop where
  commit_le : k.commit ≤ k.log.inner.length
  applied_le : k.applied ≤ k.commit
  committed : Settled cfg g k.term (k.log.inner.take k.commit)
  leads : ∀ {next mtch}, k.stance = .leader next mtch → k.Leads g i next mtch
  accepted : ∀ {T n}, (T, n) ∈ h.accepted → n ≤ g.acked i T
  applied : ∀ x ∈ h.applied, (x.1 : ℕ) ≤ k.applied ∧
    k.log.get x.1 = some x.2.wire

/-- The cores and messages of a cluster show a state of the replication protocol and what is
committed in it. -/
def commitment [Wire Cmd] (cfg : Config NodeID) :
    Family (Replication NodeID (LogEntry Cmd)) NodeID Cmd where
  node g i k h := k.Replicates cfg g i ∧ k.Tracks cfg g i h
  msg g env := env.body.Tracks cfg g env.source env.destination

namespace commitment

variable {cfg : Config NodeID} {g g' : Replication NodeID (LogEntry Cmd)} {i p : NodeID}
  {k k' : Core NodeID Cmd} {h h' : History NodeID Cmd} {fresh : Outgoing NodeID Cmd} {T : Term}

theorem reports_of_tracks {s d : NodeID} {m : RaftMessage Cmd} (hm : m.Tracks cfg g s d) :
    m.Reports g s d := by
  cases m with
  | appendEntries T ci pi pt es =>
    obtain ⟨hl, v, hv, -⟩ := hm
    exact ⟨hl, v, hv⟩
  | _ => exact hm

omit [DecidableEq NodeID] in
theorem not_leader_stepDown {st : Stance NodeID} {v : Option NodeID} {next : Map NodeID LogIndex}
    {mtch : Map NodeID (Option LogIndex)} : st.stepDown v ≠ .leader next mtch := by
  cases st <;> simp [Stance.stepDown]

variable (H : g.Inv LogEntry.term cfg.members)

include H

theorem tracks_mono (hle : g.Le g') {s d : NodeID} {m : RaftMessage Cmd}
    (hm : m.Tracks cfg g s d) : m.Tracks cfg g' s d := by
  cases m with
  | appendEntries T ci pi pt es =>
    obtain ⟨hl, v, hv, hpi, hci, hset⟩ := hm
    have hne : g.leader T ≠ none := by simp [hl]
    exact ⟨hle.election.leader hl, v, ⟨(hle.base hne).symm ▸ hv.base,
      hv.le.trans (hle.leaderLog hne), hv.entries, hv.prev⟩, hpi, hci, hset.mono H hle le_rfl⟩
  | _ => exact replication.reports_mono hle (reports_of_tracks hm)

variable [Wire Cmd]

/-- A node that keeps its log, its indexes and its history keeps what it tracks; it may move on to
a later term, and stop leading. -/
theorem keep (hle : g.Le g') (ht : k.Tracks cfg g i h) (hT : k.term ≤ T) {st : Stance NodeID}
    (hst : ∀ {next mtch}, st = .leader next mtch → k.stance = .leader next mtch ∧ T = k.term)
    (happ : h'.applied = h.applied) (hacc : h'.accepted = h.accepted) :
    { k with term := T, stance := st }.Tracks cfg g' i h' where
  commit_le := ht.commit_le
  applied_le := ht.applied_le
  committed := ht.committed.mono H hle hT
  leads hs := by
    obtain ⟨hk, rfl⟩ := hst hs
    have hl := ht.leads hk
    exact ⟨hl.next_le, fun hm => (hl.match_le hm).trans (hle.acked ..), hl.keys,
      hl.self.trans (hle.acked ..)⟩
  accepted hm := (ht.accepted (hacc ▸ hm)).trans (hle.acked ..)
  applied x hx := ht.applied x (happ ▸ hx)

/-- What a leader sends says what it tracks. -/
theorem tracks_of_appends {next : Map NodeID LogIndex} {x : NodeID × RaftMessage Cmd}
    (hn : k.Replicates cfg g i) (hl : g.leader k.term = some i) (ht : k.Tracks cfg g i h)
    (hnext : ∀ {p ni}, next.lookup p = some ni → ni.natPred ≤ k.log.inner.length)
    (hx : k.Appends next x) : x.2.Tracks cfg g i x.1 := by
  obtain ⟨ni, ci, hni, hci, pt, es, hbody, hseg⟩ := replication.segment_of_appends H hn hl hx
  rw [hbody]
  refine ⟨hl, _, hseg, ?_, ?_, ?_⟩
  · simpa using hnext hni
  · rw [hci]
    exact ht.commit_le
  · rw [hci]
    exact ht.committed

omit H in
theorem appended {log : Log Cmd} {apps : List (LogIndex × LogEntry Cmd)} {lo hi : ℕ}
    (happ : Applies log lo hi (apps.map (Prod.map id LogEntry.wire))) :
    ∀ x ∈ apps, (x.1 : ℕ) ≤ hi ∧ log.get x.1 = some x.2.wire := by
  intro x hx
  obtain ⟨-, hle, he⟩ := happ _ (List.mem_map_of_mem hx)
  exact ⟨hle, he⟩

omit H in
/-- What was applied stays in the log if the log keeps what is committed. -/
theorem applied_mono {log : Log Cmd} {n : ℕ} (ht : k.Tracks cfg g i h)
    (hlog : k.log.inner.take k.commit <+: log.inner) (hn : k.applied ≤ n) :
    ∀ x ∈ h.applied, (x.1 : ℕ) ≤ n ∧ log.get x.1 = some x.2.wire := by
  intro x hx
  obtain ⟨hle, he⟩ := ht.applied x hx
  refine ⟨hle.trans hn, ?_⟩
  have hpos := x.1.natPred_add_one
  have := ht.applied_le
  exact hlog.getElem?_eq (by rwa [List.getElem?_take_of_lt (by omega)])

/-- A new leader knows nothing yet about its peers. -/
theorem win {next : LogIndex} (hle : g.Le (g.elect i)) (hn : k.Replicates cfg g i)
    (ht : k.Tracks cfg g i h) (hnext : next.natPred = k.log.inner.length) :
    { k with stance := .leader (.ofKeys k.peers next) (.ofKeys k.peers none) }.Tracks cfg
      (g.elect i) i h where
  commit_le := ht.commit_le
  applied_le := ht.applied_le
  committed := ht.committed.mono H hle le_rfl
  leads hs := by
    cases hs
    refine ⟨fun hp => ?_, fun hp => ?_, fun p => Map.mem_ofKeys .., ?_⟩
    · rw [Map.lookup_ofKeys] at hp
      split at hp
      · obtain rfl := Option.some.inj hp
        exact hnext.le
      · cases hp
    · rw [Map.lookup_ofKeys] at hp
      split at hp
      · cases Option.some.inj hp
      · cases hp
    · simp [Replication.elect, hn.term, hn.log]
  accepted hm := (ht.accepted hm).trans (hle.acked ..)
  applied := ht.applied

theorem append {e : LogEntry Cmd} {created : List (Creation Cmd)} (hle : g.Le (g.append i e))
    (hn : k.Replicates cfg g i) (ht : k.Tracks cfg g i h) :
    { k with log := k.log.append e }.Tracks cfg (g.append i e) i { h with created } where
  commit_le := by
    have := ht.commit_le
    simp only [Log.append, List.length_append, List.length_singleton]
    omega
  applied_le := ht.applied_le
  committed := by
    have : (k.log.append e).inner.take k.commit = k.log.inner.take k.commit :=
      List.take_append_of_le_length ht.commit_le
    simp only [this]
    exact ht.committed.mono H hle le_rfl
  leads hs := by
    have hl := ht.leads hs
    refine ⟨fun hp => ?_, fun hp => (hl.match_le hp).trans (hle.acked ..), hl.keys, ?_⟩
    · have := hl.next_le hp
      simp only [Log.append, List.length_append, List.length_singleton]
      omega
    · simp [Replication.append, Log.append, hn.term, hn.log]
  accepted hm := (ht.accepted hm).trans (hle.acked ..)
  applied := applied_mono (h := h) ht (( List.take_prefix ..).trans ( List.prefix_append ..)) le_rfl

/-- A follower that takes over what the leader had follows its commit index. -/
theorem accept {ci pi : Option LogIndex} {pt : Option Term} {es log : Log Cmd}
    {commit applied : ℕ} {apps : List (LogIndex × LogEntry Cmd)}
    {drops : List (LogEntry Cmd × ℕ)}
    {v : List (LogEntry Cmd)} (hle : g.Le (g.accept i v)) (hn : k.Replicates cfg g i)
    (ht : k.Tracks cfg g i h) (hne : g.leader k.term ≠ none)
    (hseg : Segment g k.term pi pt es v) (hpi : upTo pi ≤ v.length) (hci : upTo ci ≤ v.length)
    (hset : Settled cfg g k.term (v.take (upTo ci)))
    (hacc : Accepts k ci pi pt es log commit applied apps drops)
    (hlog : log.inner = takeOver k.log.inner v) :
    { k with log, commit, applied, stance := k.stance.stepDown (some k.id) }.Tracks cfg
      (g.accept i v) i
      { h with
        applied := h.applied ++ apps
        dismissed := h.dismissed ++ drops
        accepted := (k.term, upTo pi + es.inner.length) :: h.accepted } := by
  have hkeep : k.log.inner.take k.commit <+: log.inner := by
    rw [hlog]
    exact H.committed_takeOver ht.committed ( List.take_prefix ..) hseg.le hne
  have hv : v <+: log.inner := hlog ▸ le_takeOver ..
  have hlen : k.commit ≤ log.inner.length := by
    have := hkeep.length_le
    have := ht.commit_le
    simp only [List.length_take] at *
    omega
  have hacked : ∀ {T n}, (T, n) ∈ (k.term, upTo pi + es.inner.length) :: h.accepted →
      n ≤ (g.accept i v).acked i T := by
    intro T n hm
    rcases List.mem_cons.mp hm with heq | hm
    · obtain ⟨rfl, rfl⟩ := Prod.mk.inj heq
      have hlen : upTo pi + es.inner.length = v.length := by
        rw [hseg.entries, List.length_drop]
        omega
      simp [Replication.accept, hn.term, hlen]
    · exact (ht.accepted hm).trans (hle.acked ..)
  rcases hacc.advanced with ⟨-, rfl, rfl, rfl⟩ | ⟨hlt, hcommit, rfl, happlied, happs⟩
  · refine ⟨hlen, ht.applied_le, ?_, fun hs => absurd hs not_leader_stepDown, hacked, ?_⟩
    · have : log.inner.take k.commit = k.log.inner.take k.commit := by
        rw [hkeep.take_eq (by have := ht.commit_le; simp only [List.length_take]; omega)]
        simp
      simp only [this]
      exact ht.committed.mono H hle le_rfl
    · simpa using applied_mono ht hkeep le_rfl
  · have hcommit : applied = upTo ci := by
      have := hv.length_le
      omega
    refine ⟨?_, le_rfl, ?_, fun hs => absurd hs not_leader_stepDown, hacked, ?_⟩
    · have := hv.length_le
      simp only
      omega
    · simp only [hcommit, hv.take_eq hci]
      exact hset.mono H hle le_rfl
    · intro x hx
      rcases List.mem_append.mp hx with hx | hx
      · exact applied_mono ht hkeep happlied x hx
      · exact appended happs x hx

omit H in
/-- A failed response only lowers the next index of the peer. -/
theorem retreat {next : Map NodeID LogIndex} {mtch : Map NodeID (Option LogIndex)} {ni : LogIndex}
    (ht : k.Tracks cfg g i h) (hst : k.stance = .leader next mtch)
    (hni : next.lookup p = some ni) :
    { k with stance := .leader (next.insert p (ni.dec.getD 1)) mtch }.Tracks cfg g i h := by
  have hl := ht.leads hst
  refine ⟨ht.commit_le, ht.applied_le, ht.committed, fun hs => ?_, ht.accepted, ht.applied⟩
  cases hs
  refine ⟨fun {q nq} hq => ?_, hl.match_le, hl.keys, hl.self⟩
  by_cases hqp : q = p
  · subst hqp
    rw [AList.lookup_insert] at hq
    obtain rfl := Option.some.inj hq
    exact ni.natPred_dec_getD_le.trans (hl.next_le hni)
  · rw [AList.lookup_insert_ne hqp] at hq
    exact hl.next_le hq

omit [Wire Cmd] in
/-- What a majority of the match indexes reaches is chosen, if the entry is of the leader's own
term. -/
theorem chosen_of_median {next : Map NodeID LogIndex} {mtch : Map NodeID (Option LogIndex)}
    {values : List LogIndex} {n : LogIndex} {e : LogEntry Cmd} (hi : i ∈ cfg.ids)
    (hpeers : k.peers = cfg.peers i) (hn : k.Replicates cfg g i) (hl : g.leader k.term = some i)
    (hleads : k.Leads g i next mtch) (hvalues : mtch.values.mapM id = some values)
    (hmed : lowerMedian values = some n) (he : k.log.get n = some e) (hterm : e.term = k.term) :
    Replication.Chosen LogEntry.term cfg.members g k.term n := by
  have hlog := replication.leader_log H hn hl
  have hpos := n.natPred_add_one
  have hlt : n.natPred < k.log.inner.length := (List.getElem?_eq_some_iff.mp he).1
  obtain ⟨Q, hQ, hcard⟩ := Map.exists_of_lowerMedian hvalues hmed
  have hmem : ∀ {q}, q ∈ Q → q ∈ cfg.ids ∧ q ≠ i ∧ (n : ℕ) ≤ g.acked q k.term := by
    intro q hq
    obtain ⟨m, hm, hle⟩ := hQ q hq
    have hpeer : q ∈ cfg.peers i := by
      rw [← hpeers, ← hleads.keys, ← AList.lookup_isSome, hm]
      rfl
    obtain ⟨hids, hne⟩ := List.mem_filter.mp hpeer
    have := hleads.match_le hm
    have : (n : ℕ) ≤ m := hle
    exact ⟨hids, by simpa using hne, by omega⟩
  refine ⟨n.pos, ⟨e, ?_, hterm⟩, insert i Q, ⟨?_, ?_⟩, ?_⟩
  · rw [hlog]
    exact he
  · intro q hq
    rcases Finset.mem_insert.mp hq with rfl | hq
    · exact cfg.mem_members.mpr hi
    · exact cfg.mem_members.mpr (hmem hq).1
  · have hkeys : mtch.keys.length = k.peers.length := by
      have hnodup : k.peers.Nodup := hpeers ▸ cfg.nodup.filter _
      refine ((List.perm_ext_iff_of_nodup mtch.keys_nodup hnodup).mpr fun q => ?_).length_eq
      exact hleads.keys q
    have hnot : i ∉ Q := fun h => (hmem h).2.1 rfl
    rw [Finset.card_insert_of_notMem hnot, ← cfg.length_peers hi, ← hpeers, ← hkeys]
    omega
  · intro q hq
    rcases Finset.mem_insert.mp hq with rfl | hq
    · have := hleads.self
      omega
    · exact (hmem hq).2.2

omit [Wire Cmd] in
/-- The tables of a leader after a response that is backed by an acknowledgement. -/
theorem leads_ack {next : Map NodeID LogIndex} {mtch : Map NodeID (Option LogIndex)}
    {ni idx : LogIndex} (hn : k.Replicates cfg g i) (hl : g.leader k.term = some i)
    (hleads : k.Leads g i next mtch) (hmem : (mtch.lookup p).isSome) (hni : ni.natPred = (idx : ℕ))
    (hidx : (idx : ℕ) ≤ g.acked p k.term) :
    k.Leads g i (next.insert p ni) (mtch.insert p (some idx)) where
  next_le {q nq} hq := by
    by_cases hqp : q = p
    · subst hqp
      rw [AList.lookup_insert] at hq
      obtain rfl := Option.some.inj hq
      rw [hni, ← replication.leader_log H hn hl]
      exact hidx.trans (H.acked_le ..)
    · rw [AList.lookup_insert_ne hqp] at hq
      exact hleads.next_le hq
  match_le {q m} hq := by
    by_cases hqp : q = p
    · subst hqp
      rw [AList.lookup_insert] at hq
      obtain rfl := Option.some.inj (Option.some.inj hq)
      exact hidx
    · rw [AList.lookup_insert_ne hqp] at hq
      exact hleads.match_le hq
  keys q := by
    rw [AList.mem_insert, ← hleads.keys]
    constructor
    · rintro (rfl | hq)
      · exact AList.lookup_isSome.mp hmem
      · exact hq
    · exact .inr
  self := hleads.self

theorem ack {next : Map NodeID LogIndex} {mtch : Map NodeID (Option LogIndex)}
    {commit applied : ℕ} {apps : List (LogIndex × LogEntry Cmd)} (hi : i ∈ cfg.ids)
    (hpeers : k.peers = cfg.peers i) (hn : k.Replicates cfg g i) (hl : g.leader k.term = some i)
    (ht : k.Tracks cfg g i h) (hleads : k.Leads g i next mtch)
    (hcommits : Commits k mtch commit applied apps) :
    { k with commit, applied, stance := .leader next mtch }.Tracks cfg g i
      { h with applied := h.applied ++ apps } := by
  have hleads' : ∀ {next' mtch'}, Stance.leader next mtch = .leader next' mtch' →
      { k with commit, applied, stance := .leader next mtch }.Leads g i next' mtch' := by
    rintro _ _ ⟨⟩
    exact ⟨hleads.next_le, hleads.match_le, hleads.keys, hleads.self⟩
  rcases hcommits with ⟨rfl, rfl, rfl⟩ | ⟨values, n, e, hvalues, hmed, he, hterm, rfl, rfl, hle, happs⟩
  · exact ⟨ht.commit_le, ht.applied_le, ht.committed, hleads', ht.accepted,
      by simpa using ht.applied⟩
  · have hch := chosen_of_median H hi hpeers hn hl hleads hvalues hmed he hterm
    have hlog := replication.leader_log H hn hl
    have hlen : (n : ℕ) ≤ k.log.inner.length := hlog ▸ hch.le_length
    refine ⟨max_le ht.commit_le hlen, le_rfl, ?_, hleads', ht.accepted, ?_⟩
    · rcases max_choice k.commit n with hmax | hmax
      · simp only [hmax]
        exact ht.committed
      · simp only [hmax]
        exact hlog ▸ hch.committed
    · intro x hx
      rcases List.mem_append.mp hx with hx | hx
      · exact applied_mono ht ( List.take_prefix ..) hle x hx
      · exact appended happs x hx

theorem answers_of_le (hle : g.Le g') (honly : g.Only i g') (hrep : k'.Replicates cfg g' i)
    (htracks : k'.Tracks cfg g' i h') (hfresh : ∀ x ∈ fresh, x.2.Tracks cfg g' i x.1) :
    (commitment cfg).Answers g g' i k' h' fresh where
  node := ⟨hrep, htracks⟩
  fresh := hfresh
  frame {j k h} hj hn := by
    refine ⟨replication.replicates_frame hle honly hj hn.1, ?_⟩
    exact keep H hle hn.2 le_rfl (fun hs => ⟨hs, rfl⟩) rfl rfl
  sent := tracks_mono H hle

variable {a : Action NodeID Cmd} {recv : Option (NodeID × RaftMessage Cmd)}

/-- Every move of a node is answered, if commands are only appended at leaders and responses are
backed by acknowledgements. -/
theorem answer (hm : Move a k h recv k' h' fresh) (ha : a = .clientAppend → k.stance.IsLeader)
    (hback : ∀ {p T} {idx : LogIndex}, recv = some (p, .appendEntriesResponse T (some idx) true) →
      k.stance.IsLeader → (idx : ℕ) ≤ g.acked p k.term)
    (hi : i ∈ cfg.ids) (hid : k.id = i) (hpeers : k.peers = cfg.peers i)
    (hn : k.Replicates cfg g i) (ht : k.Tracks cfg g i h)
    (hrecv : ∀ p m, recv = some (p, m) → p ∈ cfg.ids ∧ m.Tracks cfg g p i) :
    ∃ g', Relation.ReflTransGen (Replication.Step LogEntry.term cfg.members) g g' ∧
      (commitment cfg).Answers g g' i k' h' fresh := by
  have hrecv' : ∀ p m, recv = some (p, m) → p ∈ cfg.ids ∧ m.Reports g p i := fun p m hpm =>
    ⟨(hrecv p m hpm).1, reports_of_tracks (hrecv p m hpm).2⟩
  obtain ⟨g', hr⟩ := replication.answer H hm ha hi hid hpeers hn hrecv'
  -- Moves that touch neither the log nor the tables of a leader.
  have hkeep : ∀ {T st}, k.term ≤ T →
      (∀ {next mtch}, st = .leader next mtch → k.stance = .leader next mtch ∧ T = k.term) →
      k' = { k with term := T, stance := st } → h'.applied = h.applied →
      h'.accepted = h.accepted → (∀ x ∈ fresh, x.2.Tracks cfg g' i x.1) →
      ∃ g', Relation.ReflTransGen (Replication.Step LogEntry.term cfg.members) g g' ∧
        (commitment cfg).Answers g g' i k' h' fresh := by
    rintro T st hT hst rfl happ hacc hfresh
    have hle := (H.steps hr.steps).2
    exact ⟨g', hr.steps, answers_of_le H hle hr.only hr.node (keep H hle ht hT hst happ hacc) hfresh⟩
  cases hm with
  | quiet => exact hkeep le_rfl (fun hs => ⟨hs, rfl⟩) rfl rfl rfl (by simp)
  | stepDown hlt =>
    exact hkeep hlt.le (fun hs => absurd hs not_leader_stepDown) rfl rfl rfl (by simp)
  | stand hlt hlead =>
    refine hkeep hlt.le (by simp) rfl rfl rfl fun x hx => ?_
    obtain ⟨p, -, rfl⟩ := List.mem_map.mp hx
    exact hr.fresh _ hx
  | @replicate next mtch fresh hst happ =>
    have hl := replication.leader_of_isLeader hn.elects (hst ▸ trivial)
    exact ⟨g, .refl, answers_of_le H (.refl g) (.refl i g) hn ht fun x hx =>
      tracks_of_appends H hn hl ht (ht.leads hst).next_le (happ x hx)⟩
  | refuse =>
    refine hkeep le_rfl (fun hs => ⟨hs, rfl⟩) rfl rfl rfl fun x hx => ?_
    obtain rfl := List.mem_singleton.mp hx
    exact hr.fresh _ hx
  | grant =>
    refine hkeep (T := k.term) le_rfl (by simp) rfl rfl rfl fun x hx => ?_
    obtain rfl := List.mem_singleton.mp hx
    exact hr.fresh _ hx
  | count => exact hkeep (T := k.term) le_rfl (by simp) rfl rfl rfl (by simp)
  | @win p votes next fresh hstance hnot hmaj hnext happ =>
    obtain ⟨hp, hv⟩ := hrecv' p _ rfl
    obtain ⟨hs, hk⟩ := replication.elect_of_win H (.ofKeys k.peers next)
      (.ofKeys k.peers none) hi hpeers hn hstance hp (hv rfl) hmaj
    have hle := H.step_le hs
    have hw := win H hle hn ht hnext
    refine ⟨_, .single hs, answers_of_le H hle (Replication.only_elect ..) hk hw fun x hx => ?_⟩
    have hl := replication.leader_of_isLeader hk.elects trivial
    exact tracks_of_appends (H.step hs) hk hl hw (hw.leads rfl).next_le
      ⟨(happ x hx).peer, (happ x hx).body⟩
  | stale =>
    refine hkeep le_rfl (fun hs => ⟨hs, rfl⟩) rfl rfl rfl fun x hx => ?_
    obtain rfl := List.mem_singleton.mp hx
    exact hr.fresh _ hx
  | mismatch =>
    refine hkeep (T := k.term) le_rfl (fun hs => absurd hs not_leader_stepDown) rfl rfl rfl
      fun x hx => ?_
    obtain rfl := List.mem_singleton.mp hx
    exact hr.fresh _ hx
  | @accept p ci pi pt es log commit applied apps drops hlead hne hacc =>
    obtain ⟨-, hl, v, hseg, hpi, hci, hset⟩ := hrecv p _ rfl
    have hsome : g.leader k.term ≠ none := by simp [hl]
    rcases replication.accept_cases H hn hsome hseg hacc with ⟨hgap, -⟩ | ⟨-, hlog⟩
    · exact absurd hpi (not_le.mpr hgap)
    · have hs := replication.step_accept hn hsome hseg
      have hle := H.step_le hs
      refine ⟨_, .single hs, answers_of_le H hle (Replication.only_accept ..)
        (replication.replicates_accept hn hid hlead hlog)
        (accept H hle hn ht hsome hseg hpi hci hset hacc hlog) fun x hx => ?_⟩
      obtain rfl := List.mem_singleton.mp hx
      trivial
  | @retreat p T idx next mtch ni fresh hstance hni happ =>
    have hst := hstance ▸ hn.elects
    have hk : { k with stance := .leader (next.insert p (ni.dec.getD 1)) mtch }.Replicates cfg g i :=
      replication.replicates_stance hn hst (by simp)
    have hw := retreat ht hstance hni
    exact ⟨g, .refl, answers_of_le H (.refl g) (.refl i g) hk hw fun x hx =>
      tracks_of_appends H hk hst.2 hw (hw.leads rfl).next_le ⟨(happ x hx).peer, (happ x hx).body⟩⟩
  | @ack p T next mtch ni commit applied apps idx hstance hni hmi hidx hc =>
    have hst := hstance ▸ hn.elects
    have hleads := leads_ack H hn hst.2 (ht.leads hstance) hmi hidx
      (hback rfl (hstance ▸ trivial))
    exact ⟨g, .refl, answers_of_le H (.refl g) (.refl i g)
      (replication.replicates_stance hn hst (by simp))
      (ack H hi hpeers hn hst.2 ht hleads hc) (by simp)⟩
  | @append cmd _ hact hl =>
    obtain ⟨hs, hk⟩ := replication.replicates_append (e := ⟨wire cmd, k.term⟩) hn (ha hact) rfl
    have hle := H.step_le hs
    exact ⟨_, .single hs, answers_of_le H hle (Replication.only_append ..) hk
      (append H hle hn ht) (by simp)⟩

end commitment

end Miniraft

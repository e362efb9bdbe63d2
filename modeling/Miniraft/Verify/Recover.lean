import Miniraft.Verify.Order
import Miniraft.Verify.Restart
import Miniraft.Verify.Sync

/-!
# The cluster can make progress

No run leads a cluster to where it cannot commit anything any more. From every state in which its
nodes are idle it can elect a leader, take a command, and have it committed and applied on all nodes
(`Cluster.can_commit`), and if all nodes are restarted it can whatever the run was
(`Cluster.restarts_recover`). Both follow from the same runs: `Timed.exists_elected`, then
`Timed.exists_served`.
-/

namespace Miniraft

open Consensus

variable {NodeID Cmd : Type} [DecidableEq NodeID] [Wire Cmd]

/-- Both loops of the node wait. -/
def Node.idle (n : Node NodeID Cmd) : Bool :=
  match n.raftLoop, n.clientLoop with
  | .idle, .idle => true
  | _, _ => false

/-- The node after a crash and a restart from its file. -/
def Node.restarted (n : Node NodeID Cmd) : Node NodeID Cmd :=
  { n with
    state := .new n.state.c.id n.state.c.nodeIds n.stored
    raftLoop := .idle
    clientLoop := .idle }

omit [DecidableEq NodeID] [Wire Cmd] in
theorem Node.resting_restarted (n : Node NodeID Cmd) : n.restarted.Resting n.stored.currentTerm
    ⟨n.stored.log, none, none⟩ ∧ n.restarted.Follows :=
  ⟨⟨rfl, rfl, rfl, rfl⟩, _, _, rfl⟩

omit [DecidableEq NodeID] [Wire Cmd] in
theorem Node.Resting.of_idle {n : Node NodeID Cmd} (h : n.idle = true) :
    n.Resting n.state.c.currentTerm n.state.holdings := by
  unfold Node.idle at h
  split at h
  · next hraft hclient => exact ⟨rfl, rfl, hraft, hclient⟩
  · cases h

/-- The log of a node ends with the entry `e` at index `idx`, and the node has committed and applied
all of it, this entry among them. -/
structure Node.Served (T : Term) (idx : LogIndex) (e : LogEntry Cmd) (n : Node NodeID Cmd) :
    Prop where
  term : n.state.c.currentTerm = T
  length : n.state.c.log.inner.length = idx
  commitIndex : n.state.c.commitIndex = some idx
  lastApplied : n.state.c.lastApplied = some idx
  entry : ∃ e', n.state.c.log.get idx = some e' ∧ e'.wire = e.wire ∧ (idx, e') ∈ n.history.applied

/-- A follower that has the log of the leader commits and applies it when it hears so. -/
theorem Node.Synced.commits {n : Node NodeID Cmd} {i : NodeID} {T : Term} {idx : LogIndex}
    {e : LogEntry Cmd} (h : n.Synced T idx e) (hi : n.state.c.id ≠ i) (hmem : (idx : ℕ) < 2 ^ 62)
    (t : Instant) :
    ∃ n', n.Processes t i (.appendEntries T (some idx) (some idx) (some e.term) ⟨[]⟩) n'
        [(i, .appendEntriesResponse T (some idx) true)] ∧ n'.Served T idx e := by
  obtain ⟨hfollow, y, hn, hle, hlt, hlen, hget⟩ := h
  have hlog : n.state.c.log = y.log := congrArg Holdings.log hn.holdings
  have hc : ¬ n.state.Inconsistent (some idx) (some e.term) := by
    simp only [State.Inconsistent, Option.bind_some, hlog, hget, Option.map_some]
    exact not_not.mpr rfl
  have hnil : Consensus.conflict (·.term) (y.log.inner.drop idx) ([] : List (LogEntry Cmd)) = none :=
    conflict_eq_none_iff.mpr (by simp)
  have hsplice := (splice_eq_self hnil hlen.ge).1
  obtain ⟨n', hproc, hn', -, -, happlied⟩ := Node.Resting.accepts (i := i) (t := t) (some idx) ⟨[]⟩ hn
    hfollow hi hc hlen.ge (by omega) hsplice.symm (by omega) hlen.ge hle
  have hlast : y.log.highestIndex = some idx := by
    apply upTo_inj
    rw [Log.upTo_highestIndex, hlen, upTo_some]
  have hy : y.followed y.log (some idx) = ⟨y.log, some idx, some idx⟩ := by
    unfold Holdings.followed
    rw [upTo_some, if_pos hlt, hlast, Option.min_some_some, min_self]
  rw [hlast] at hproc
  rw [hy] at hn' happlied
  obtain ⟨hterm, hholds, -, -⟩ := hn'
  have hlog' : n'.state.c.log = y.log := congrArg Holdings.log hholds
  exact ⟨n', hproc, hterm, by rw [hlog', hlen], congrArg Holdings.commitIndex hholds,
    congrArg Holdings.lastApplied hholds, _, by rw [hlog', hget], e.wire_wire,
    happlied idx _ hget (hle.trans_lt hlt) le_rfl⟩

namespace Timed

open Cluster

variable {cfg : Config NodeID} {c : Timed NodeID Cmd} {i p : NodeID} {T : Term}
  {x : NodeID → Holdings Cmd} [DecidableEq Cmd]

/-- A new leader takes a command. -/
theorem run_append {y : Holdings Cmd} (hwf : c.WellFormed cfg) (hi : i ∈ cfg.ids)
    (h : (c.nodes i).Resting T y) (hfresh : (c.nodes i).Fresh) (cmd : Cmd)
    (happlied : upTo y.lastApplied ≤ upTo y.commitIndex)
    (hcommit : upTo y.commitIndex ≤ y.log.inner.length) :
    ∃ c', Run (step cfg) Orderly c c' ∧ (∀ q, q ≠ i → c'.nodes q = c.nodes q) ∧
      (c'.nodes i).Replicates cfg i T (y.log.append ⟨cmd, T⟩) y.log.inner.length.succPNat
        (fun _ => y.log.inner.length.succPNat) [] := by
  obtain ⟨rfl, rfl, hraft, hclient⟩ := h
  obtain ⟨nx, lr, hnx, hr⟩ := hfresh
  let n := c.nodes i
  have hnext : nx = n.state.c.log.inner.length.succPNat := by
    rw [← hnx, PNat.succPNat_natPred]
  have hlead : n.state.isLeader = true := by simp [State.isLeader, n, hr]
  let n₁ : Node NodeID Cmd := { n with clientLoop := .checked cmd }
  let n₂ : Node NodeID Cmd := { n with
    state := n.state.append cmd
    clientLoop := .appended
    history := { n.history with created :=
      ⟨n.state.c.log.inner.length, ⟨cmd, n.state.c.currentTerm⟩, n.state.isLeader⟩ ::
        n.history.created } }
  have hr₂ : n₂.state.r = .leader (.ofKeys n.state.c.nodeIds nx) (.ofKeys n.state.c.nodeIds none) lr :=
    hr
  obtain ⟨⟨s₃, msgs⟩, hrep⟩ := (State.replicateLog_ok_iff (.still c.now) hr₂).mpr
    (.inr fun q hq => (Map.mem_ofKeys ..).mpr hq)
  obtain ⟨lr', rfl⟩ := State.replicateLog_frame hr₂ hrep
  have hrequest : n.step (.clientRequest cmd) = .ok (n₁, []) := by
    simp only [Node.step, n, hclient]
    rw [if_pos hlead]
    rfl
  have happend : n₁.step .clientAppend = .ok (n₂, []) := rfl
  have hreplicate : n₂.step (.clientReplicate (.still c.now)) = .ok ({ n₂ with
      state := { n₂.state with
        r := .leader (.ofKeys n.state.c.nodeIds nx) (.ofKeys n.state.c.nodeIds none) lr' }
      clientLoop := .idle }, msgs) := by
    simp only [Node.step, n₂]
    simp only [n₂] at hrep
    rw [hrep]
    rfl
  have h₁ := run_step hi (a := .clientRequest cmd) trivial
    ⟨rfl, appendsAsLeader_of_not rfl, trivial⟩ (.inr ⟨rfl, rfl⟩) hrequest
  have h₂ := run_step_after hi h₁ (a := .clientAppend) trivial
    ⟨rfl, fun _ => by rw [nodes_after]; exact hlead, trivial⟩ (.inr ⟨rfl, rfl⟩) happend
  have h₃ := run_step_after hi h₂ (a := .clientReplicate (.still c.now)) trivial
    ⟨rfl, appendsAsLeader_of_not rfl, trivial⟩ (.inl ⟨rfl, le_rfl⟩) hreplicate
  refine ⟨_, h₃, fun q hq => nodes_after_of_ne hq, ?_⟩
  rw [nodes_after]
  obtain ⟨p, hp⟩ := cfg.exists_mem_peers hi
  exact {
    term := rfl
    log := rfl
    raftLoop := hraft
    clientLoop := rfl
    role := by
      refine ⟨_, _, _, rfl, fun p hp => ?_, fun p => ?_⟩
      · rw [Map.lookup_ofKeys, hwf.peers, if_pos hp, hnext]
        rfl
      · rw [Map.lookup_ofKeys, hwf.peers]
        simp
    applied_le := happlied
    uncommitted := fun _ => Nat.lt_succ_of_le hcommit
    done := fun hall => absurd (hall p hp) (by simp) }

/-- All peers get the log of the leader. -/
theorem run_syncPeers {l : Log Cmd} {idx : LogIndex} {e : LogEntry Cmd} (hwf : c.WellFormed cfg)
    (hi : i ∈ cfg.ids) (hl : l.EndsWith T idx e)
    (h : (c.nodes i).Replicates cfg i T l idx (fun _ => idx) [])
    (hpeers : ∀ p ∈ cfg.peers i, (c.nodes p).Resting T (x p) ∧ (c.nodes p).Follows)
    (hx : ∀ p ∈ cfg.peers i, (x p).Behind T idx) :
    ∃ c' f, Run (step cfg) Orderly c c' ∧ (∀ p ∈ cfg.peers i, (c'.nodes p).Synced T idx e) ∧
      (c'.nodes i).Replicates cfg i T l idx f (cfg.peers i) ∧
      ∀ p ∈ cfg.peers i, f p = idx + 1 := by
  let P (p : NodeID) (n : Node NodeID Cmd) : Prop := n.Resting T (x p) ∧ n.Follows
  let Q (xs : List NodeID) (n : Node NodeID Cmd) : Prop := ∃ f,
    n.Replicates cfg i T l idx f xs ∧ (∀ p ∈ xs, f p = idx + 1) ∧ ∀ p, p ∉ xs → f p ≤ idx
  have h0 : Q [] (c.nodes i) := ⟨_, h, by simp, fun _ _ => le_rfl⟩
  obtain ⟨c', hrun, hsynced, f, hrep, hf, -⟩ := run_forPeers (P := P) hwf hpeers h0
    fun xs p c₁ hp hpxs hwf₁ _ hn hQ => by
      obtain ⟨f, hrep, hdone, hrest⟩ := hQ
      obtain ⟨c₂, f', hrun, hrep', hp', hother, hsync, hkept⟩ := run_sync hwf₁ hi hp hpxs hl hrep
        (hrest p hpxs) hn.1 hn.2 (hx p hp)
      refine ⟨c₂, hrun, hsync, ⟨f', hrep', fun q hq => ?_, fun q hq => ?_⟩, hkept⟩
      · by_cases hqp : q = p
        · exact hqp ▸ hp'
        · rw [hother q hqp]
          exact hdone q ((List.mem_append.mp hq).resolve_right (by simpa using hqp))
      · rw [List.mem_append, List.mem_singleton, not_or] at hq
        rw [hother q hq.2]
        exact hrest q hq.1
  exact ⟨c', f, hrun, hsynced, hrep, hf⟩

/-- They commit and apply it when they hear from the leader again. -/
theorem run_commits {l : Log Cmd} {idx : LogIndex} {e : LogEntry Cmd} {f : NodeID → LogIndex}
    (hwf : c.WellFormed cfg) (hi : i ∈ cfg.ids) (hl : l.EndsWith T idx e)
    (h : (c.nodes i).Replicates cfg i T l idx f (cfg.peers i))
    (hf : ∀ p ∈ cfg.peers i, f p = idx + 1)
    (hpeers : ∀ p ∈ cfg.peers i, (c.nodes p).Synced T idx e) :
    ∃ c', Run (step cfg) Orderly c c' ∧ (c'.nodes i).state.isLeader = true ∧
      (c'.nodes i).state.c.log = l ∧ ∀ j ∈ cfg.ids, (c'.nodes j).Served T idx e := by
  obtain ⟨c₁, hrun₁, h₁, hc₁, hkept, hsent⟩ := run_send hwf hi h
  obtain ⟨hwf₁, -⟩ := Timed.network_run hrun₁ hwf
  obtain ⟨hci, hla, happlied⟩ := h₁.done fun _ => id
  have hdec : (idx + 1).dec = some idx := by
    apply upTo_inj
    rw [upTo_dec, upTo_some, PNat.natPred, PNat.add_coe, PNat.one_coe, Nat.add_sub_cancel]
  have hmsg : ∀ p ∈ cfg.peers i, ⟨i, p, .appendEntries T (some idx) (some idx) (some e.term) ⟨[]⟩⟩ ∈
      c₁.network := by
    intro p hp
    have hmem := hsent p hp
    have hnil : l.wire.inner.drop (idx + 1).natPred = [] := by
      refine List.drop_eq_nil_of_le ?_
      rw [Log.length_wire, hl.length, PNat.natPred, PNat.add_coe, PNat.one_coe, Nat.add_sub_cancel]
    rwa [hf p hp, hdec, Option.bind_some, hl.entry, Option.map_some, hnil, ← hc₁, hci] at hmem
  obtain ⟨c₂, hrun₂, hserved, hsame⟩ := run_forPeers (P := fun _ n => n.Synced T idx e)
    (R := fun _ n => n.Served T idx e) (Q := fun _ n => n = c₁.nodes i) hwf₁
    (fun p hp => by
      rw [hkept p (cfg.mem_peers.mp hp).2]
      exact hpeers p hp) rfl
    fun xs p c' hp _ hwf' hnet hn hQ => by
      obtain ⟨hpi, hne⟩ := cfg.mem_peers.mp hp
      obtain ⟨n', hproc, hn'⟩ := hn.commits (i := i) (by rw [hwf'.id]; exact hne) hl.memory c'.now
      have hrun := run_processes hpi (hnet (hmsg p hp)) hproc (fun _ _ heq => by cases heq)
      refine ⟨_, hrun, by rwa [nodes_after], ?_, fun q hq _ => nodes_after_of_ne hq⟩
      rwa [nodes_after_of_ne hne.symm]
  refine ⟨c₂, hrun₁.trans hrun₂, ?_, by rw [hsame, h₁.log], fun j hj => ?_⟩
  · obtain ⟨next, mtch, lr, hr, -⟩ := h₁.role
    simp [hsame, State.isLeader, hr]
  · by_cases hji : j = i
    · subst hji
      rw [hsame]
      exact ⟨h₁.term, by rw [h₁.log, hl.length], hci, hla, e, by rw [h₁.log, hl.entry], rfl,
        happlied e hl.entry⟩
    · exact hserved j (cfg.mem_peers.mpr ⟨hj, hji⟩)

/-- After an election the cluster can commit a further command. -/
theorem exists_served (hwf : c.WellFormed cfg) (hi : i ∈ cfg.ids)
    (h : (c.nodes i).Resting T (x i)) (hfresh : (c.nodes i).Fresh)
    (hpeers : ∀ p ∈ cfg.peers i, (c.nodes p).Resting T (x p) ∧ (c.nodes p).Follows) (cmd : Cmd)
    (happlied : ∀ j ∈ cfg.ids, upTo (x j).lastApplied ≤ upTo (x j).commitIndex)
    (hcommit : ∀ j ∈ cfg.ids, upTo (x j).commitIndex ≤ (x i).log.inner.length)
    (holder : ∀ j ∈ cfg.ids, ∀ e ∈ (x j).log.inner, e.term < T)
    (hmem : ∀ j ∈ cfg.ids, (x j).log.InMemory) :
    ∃ c', Run (step cfg) Orderly c c' ∧ (c'.nodes i).state.isLeader = true ∧
      (c'.nodes i).state.c.log = (x i).log.append ⟨cmd, T⟩ ∧
      ∀ j ∈ cfg.ids, (c'.nodes j).Served T (x i).log.inner.length.succPNat ⟨cmd, T⟩ := by
  let idx := (x i).log.inner.length.succPNat
  have hidx : (idx : ℕ) = (x i).log.inner.length + 1 := Nat.succPNat_coe _
  have hlen := (hmem i hi).length_lt
  have hl : ((x i).log.append ⟨cmd, T⟩).EndsWith T idx ⟨cmd, T⟩ := by
    refine ⟨?_, ?_, rfl, by omega⟩
    · rw [hidx]
      exact List.length_append
    · rw [Log.get, Log.append, Nat.natPred_succPNat]
      simp
  obtain ⟨c₁, hrun₁, hkept, h₁⟩ := run_append hwf hi h hfresh cmd (happlied i hi) (hcommit i hi)
  obtain ⟨hwf₁, -⟩ := Timed.network_run hrun₁ hwf
  obtain ⟨c₂, f, hrun₂, hsynced, h₂, hf⟩ := run_syncPeers hwf₁ hi hl h₁
    (fun p hp => by
      rw [hkept p (cfg.mem_peers.mp hp).2]
      exact hpeers p hp)
    (fun p hp => by
      obtain ⟨hp, -⟩ := cfg.mem_peers.mp hp
      have hlen := (hmem p hp).length_lt
      exact ⟨happlied p hp, by have := hcommit p hp; omega, holder p hp, by omega⟩)
  obtain ⟨hwf₂, -⟩ := Timed.network_run hrun₂ hwf₁
  obtain ⟨c₃, hrun₃, h₃⟩ := run_commits hwf₂ hi hl h₂ hf hsynced
  exact ⟨c₃, (hrun₁.trans hrun₂).trans hrun₃, h₃⟩

end Timed

namespace Cluster

variable {cfg : Config NodeID} {c c' : Cluster NodeID Cmd} {i p : NodeID} {T : Term}

omit [Wire Cmd] in
theorem exists_term {ids : List NodeID} (hne : ids ≠ []) (t : NodeID → Term)
    (ht : ∀ i ∈ ids, t i + 3 < 2 ^ 64) : ∃ T, (∀ i ∈ ids, t i < T) ∧ T + 2 < 2 ^ 64 := by
  obtain ⟨i, hi, hmax⟩ := ids.toFinset.exists_max_image t (by simpa using hne)
  exact ⟨t i + 1, fun j hj => Nat.lt_succ_of_le (hmax j (List.mem_toFinset.mpr hj)),
    ht i (List.mem_toFinset.mp hi)⟩

/-- Someone else has voted for the leader of the highest term, and does not lead. -/
theorem Survives.exists_not_leader {g : Replication NodeID (LogEntry Cmd)}
    (H : Survives cfg c g) : ∃ d ∈ cfg.ids, (c.nodes d).state.isLeader = false := by
  by_contra hall
  push Not at hall
  simp only [ne_eq, Bool.not_eq_false] at hall
  have hne : cfg.ids.toFinset.Nonempty := by
    have := cfg.two_le
    exact List.toFinset_nonempty_iff _ |>.mpr (List.ne_nil_of_length_pos (by omega))
  obtain ⟨i, hi, hmax⟩ := cfg.ids.toFinset.exists_max_image
    (fun j => (c.nodes j).state.c.currentTerm) hne
  rw [List.mem_toFinset] at hi
  obtain ⟨hl, -⟩ := H.leader_eq hi (hall i hi)
  obtain ⟨Q, ⟨hsub, hcard⟩, hvotes⟩ := H.inv.election.quorum hl
  have htwo : 2 ≤ cfg.members.card :=
    cfg.two_le.trans_eq (List.toFinset_card_of_nodup cfg.nodup).symm
  obtain ⟨p, hp, hpi⟩ := Finset.exists_mem_ne (show 1 < Q.card by omega) i
  have hpids := (cfg.mem_members).mp (hsub hp)
  have hle : (c.nodes i).state.c.currentTerm ≤ (c.nodes p).state.c.currentTerm :=
    (H.inv.election.vote_le (hvotes p hp)).trans_eq (H.holds.node p hpids).replicates.term
  have heq := le_antisymm hle (hmax p (List.mem_toFinset.mpr hpids))
  obtain ⟨hl', -⟩ := H.leader_eq hpids (hall p hpids)
  rw [← heq, hl] at hl'
  exact hpi (Option.some.inj hl').symm

/-- A leader of the last term has all that is committed anywhere. -/
theorem Survives.commit_le {g g' : Replication NodeID (LogEntry Cmd)} (H : Survives cfg c g)
    (H' : Survives cfg c' g') (hle : g.Le g') (hi : i ∈ cfg.ids) (hp : p ∈ cfg.ids)
    (hlead : (c'.nodes i).state.isLeader = true)
    (hterm : (c.nodes p).state.c.currentTerm ≤ (c'.nodes i).state.c.currentTerm) :
    upTo (c.nodes p).state.c.commitIndex ≤ (c'.nodes i).state.c.log.inner.length := by
  by_contra hlt
  have hnext : ((c'.nodes i).state.c.log.inner.length.succPNat : ℕ) ≤
      upTo (c.nodes p).state.c.commitIndex := by
    rw [Nat.succPNat_coe]
    exact not_le.mp hlt
  obtain ⟨e, -, he⟩ := H.completeness H' hle hp hi hlead hterm hnext
  obtain ⟨e', he', -⟩ := Option.map_eq_some_iff.mp he
  have hbelow := (List.getElem?_eq_some_iff.mp he').1
  rw [Nat.natPred_succPNat] at hbelow
  omega

/-- Logs that end with entries of the same term at the same index are equal. -/
theorem Survives.log_eq {g : Replication NodeID (LogEntry Cmd)} (H : Survives cfg c g)
    (hi : i ∈ cfg.ids) (hp : p ∈ cfg.ids) {idx : LogIndex} {e : LogEntry Cmd}
    (h : (c.nodes i).Served T idx e) (h' : (c.nodes p).Served T idx e) :
    (c.nodes p).state.c.log.wire = (c.nodes i).state.c.log.wire := by
  obtain ⟨a, ha, hae, -⟩ := h.entry
  obtain ⟨b, hb, hbe, -⟩ := h'.entry
  have hget : ∀ {l : Log Cmd} {e}, l.get idx = some e →
      l.wire.inner[idx.natPred]? = some e.wire := by
    intro l e he
    exact (Log.get_wire ..).trans (by rw [he]; rfl)
  have htake := (H.sound hp).matching (H.sound hi) (hget hb) (hget ha)
    (congrArg LogEntry.term (hbe.trans hae.symm))
  have hlen : (c.nodes i).state.c.log.wire.inner.length = idx.natPred + 1 := by
    rw [Log.length_wire, h.length, idx.natPred_add_one]
  have hlen' : (c.nodes p).state.c.log.wire.inner.length = idx.natPred + 1 := by
    rw [Log.length_wire, h'.length, idx.natPred_add_one]
  rw [List.take_of_length_le hlen'.le, List.take_of_length_le hlen.le] at htake
  exact congrArg Log.mk htake

theorem Orderly.recoverable {l : Label NodeID Cmd}
    (h : Orderly c l) : Recoverable c l :=
  ⟨fun hc => absurd hc (by rw [h.1]; exact Bool.false_ne_true), h.2⟩

variable [DecidableEq Cmd]

theorem recoverable_run {c c' : Timed NodeID Cmd} (hrun : Run (Timed.step cfg) Timed.Orderly c c') :
    Run (step cfg) Recoverable c.toCluster c'.toCluster :=
  (Timed.run_untimed hrun).weaken fun _ _ => Orderly.recoverable

/-- All nodes are between two messages and two requests, and have room for three terms and an
entry. -/
def Quiet (cfg : Config NodeID) (c : Cluster NodeID Cmd) : Prop :=
  ∀ i ∈ cfg.ids, (c.nodes i).idle = true ∧ (c.nodes i).state.c.currentTerm + 3 < 2 ^ 64 ∧
    (c.nodes i).state.c.log.inner.length < Log.maxLength

instance (cfg : Config NodeID) (c : Cluster NodeID Cmd) : Decidable (Quiet cfg c) :=
  inferInstanceAs (Decidable (∀ i ∈ cfg.ids, _))

/-- **The cluster can always commit**. After any run in which nodes may crash and restart, once the
nodes are idle, at any time, there is an orderly run without crashes after which a further command
is committed and applied on all nodes, whose logs are then equal: the log that one of them has had,
and the command. -/
theorem can_commit (hrun : Run (step cfg) Recoverable (boot cfg) c) (hquiet : Quiet cfg c)
    (cmd : Cmd) (now : Instant) : ∃ c' i T, Run (Timed.step cfg) Timed.Orderly ⟨c, now⟩ c' ∧
      i ∈ cfg.ids ∧ (c'.nodes i).state.isLeader = true ∧
      (c'.nodes i).state.c.log = (c.nodes i).state.c.log.append ⟨cmd, T⟩ ∧
      ∀ j ∈ cfg.ids, (c'.nodes j).state.c.log.wire = (c'.nodes i).state.c.log.wire ∧
        (c'.nodes j).Served T (c.nodes i).state.c.log.inner.length.succPNat ⟨cmd, T⟩ := by
  obtain ⟨g, -, H⟩ := survival_run hrun (survives_boot cfg)
  obtain ⟨d, hd, hlead⟩ := H.exists_not_leader
  let t (i : NodeID) : Term := (c.nodes i).state.c.currentTerm
  let x (i : NodeID) : Holdings Cmd := (c.nodes i).state.holdings
  have hrest : ∀ i ∈ cfg.ids, (c.nodes i).Resting (t i) (x i) := fun i hi =>
    Node.Resting.of_idle (hquiet i hi).1
  have hmem : ∀ i ∈ cfg.ids, (x i).log.InMemory := fun i hi => (hquiet i hi).2.2.le
  obtain ⟨T, hlt, hT⟩ := exists_term (List.ne_nil_of_mem hd) t fun i hi => (hquiet i hi).2.1
  have hlt' : ∀ i ∈ cfg.ids, t i < T + 2 := fun i hi => (hlt i hi).trans_le (Nat.le_add_right ..)
  obtain ⟨c₁, i, hrun₁, hi, hn, hfresh, hpeers⟩ := Timed.exists_elected (c := ⟨c, now⟩)
    H.holds.wf hd hlead hrest hlt hT fun i hi => by
      have := (hmem i hi).length_lt
      omega
  obtain ⟨g₁, hsteps, H₁⟩ := survival_run (recoverable_run hrun₁) H
  obtain ⟨-, hle⟩ := H.inv.steps hsteps
  have hx : x i = (c₁.nodes i).state.holdings := hn.holdings.symm
  have hlead₁ : (c₁.nodes i).state.isLeader = true := by
    obtain ⟨nx, lr, -, hr⟩ := hfresh
    simp [State.isLeader, hr]
  have holder : ∀ j ∈ cfg.ids, ∀ e ∈ (x j).log.inner, e.term < T + 2 := by
    intro j hj e he
    have hrep := (H.holds.node j hj).replicates
    have hle := H.inv.log_le (p := j) e.wire (by
      rw [hrep.log]
      exact List.mem_map_of_mem he)
    rw [hrep.term] at hle
    exact hle.trans_lt (hlt' j hj)
  obtain ⟨c₂, hrun₂, hlead₂, hlog, hserved⟩ := Timed.exists_served H₁.holds.wf hi hn hfresh hpeers cmd
    (fun j hj => (H.holds.node j hj).tracks.applied_le)
    (fun j hj => by
      rw [hx]
      exact H.commit_le H₁ hle hi hj hlead₁ (hn.term ▸ (hlt' j hj).le)) holder hmem
  obtain ⟨g₂, -, H₂⟩ := survival_run (recoverable_run (hrun₁.trans hrun₂)) H
  exact ⟨c₂, i, T + 2, hrun₁.trans hrun₂, hi, hlead₂, hlog, fun j hj =>
    ⟨H₂.log_eq hi hj (hserved i hi) (hserved j hj), hserved j hj⟩⟩

end Cluster

namespace Example

open Cluster

/-- The commands in the logs of `a` and `b`, and whether the nodes are quiet. -/
def contents (c : Cluster String ℕ) : List ℕ × List ℕ × Bool :=
  ((c.nodes "a").state.c.log.inner.map (·.cmd), (c.nodes "b").state.c.log.inner.map (·.cmd),
    decide (Quiet pair c))

/-- After `b` has restarted, command 8 can be committed. -/
theorem can_commit_restarted : ∃ c c', Run (step pair) Recoverable (boot pair) c ∧
    contents c = ([7], [7], true) ∧ Run (Timed.step pair) Timed.Orderly ⟨c, 300000000⟩ c' ∧
    ∀ j ∈ pair.ids, ∃ T, (c'.nodes j).Served T 2 ⟨8, T⟩ := by
  have hexec : (Run.exec (step pair) (fun c l => decide (Recoverable c l))
      (replicated ++ [("b", .crash)]) (boot pair)).map contents = some ([7], [7], true) := by
    decide +kernel
  obtain ⟨c, hrun, hc⟩ := Run.exists_of_exec hexec fun _ _ => of_decide_eq_true
  obtain ⟨ha, hb, hquiet⟩ : (c.nodes "a").state.c.log.inner.map (·.cmd) = [7] ∧
      (c.nodes "b").state.c.log.inner.map (·.cmd) = [7] ∧ decide (Quiet pair c) = true := by
    simpa [contents] using hc
  obtain ⟨c', i, T, hrun', hi, -, -, hserved⟩ := can_commit hrun
    (of_decide_eq_true hquiet) 8 300000000
  have hlen : (c.nodes i).state.c.log.inner.length = 1 := by
    rcases List.mem_pair.mp hi with rfl | rfl
    · simpa using congrArg List.length ha
    · simpa using congrArg List.length hb
  refine ⟨c, c', hrun, hc, hrun', fun j hj => ⟨T, ?_⟩⟩
  have h := (hserved j hj).2
  rwa [hlen] at h

end Example

/-! ## Restarts -/

namespace Cluster

variable {cfg : Config NodeID} {c c' : Cluster NodeID Cmd} [DecidableEq Cmd]

/-- All nodes can be restarted. -/
theorem run_restarts (cfg : Config NodeID) (c : Cluster NodeID Cmd) :
    ∃ c', Run (step cfg) (fun _ l => l.2.isCrash = true) c c' ∧
      ∀ i ∈ cfg.ids, c'.nodes i = (c.nodes i).restarted := by
  let I (xs : List NodeID) (c' : Cluster NodeID Cmd) : Prop :=
    Run (step cfg) (fun _ l => l.2.isCrash = true) c c' ∧
      (∀ i, i ∉ xs → c'.nodes i = c.nodes i) ∧ ∀ i ∈ xs, c'.nodes i = (c.nodes i).restarted
  have h0 : I [] c := ⟨.refl, fun _ _ => rfl, by simp⟩
  obtain ⟨c', -, hrun, -, h⟩ :
      ∃ c', Run (step cfg) (fun _ l => l.2.isCrash = true) c c' ∧ I cfg.ids c' := by
    refine Run.forEach h0 ?_
    rintro xs i ys c' hl ⟨hrun, hrest, hdone⟩
    have hi : i ∈ cfg.ids := hl ▸ by simp
    have hnodup : (xs ++ i :: ys).Nodup := hl ▸ cfg.nodup
    have hixs : i ∉ xs := fun hmem =>
      (List.nodup_append.mp hnodup).2.2 i hmem i List.mem_cons_self rfl
    have hstep : StepOf (step cfg) (fun _ l => l.2.isCrash = true) c'
        (c'.update i (c'.nodes i).restarted []) := by
      refine ⟨(i, .crash), rfl, ?_⟩
      simp only [step]
      rw [if_pos ⟨hi, trivial⟩]
      rfl
    have hrun' := Relation.ReflTransGen.single hstep
    refine ⟨_, hrun', hrun.trans hrun', fun j hj => ?_, fun j hj => ?_⟩
    · rw [List.mem_append, List.mem_singleton, not_or] at hj
      rw [update_of_ne hj.2]
      exact hrest j hj.1
    · by_cases hji : j = i
      · subst hji
        rw [update_self, hrest j hixs]
      · rw [update_of_ne hji]
        exact hdone j ((List.mem_append.mp hj).resolve_right (by simpa using hji))
  exact ⟨c', hrun, h⟩

/-- **Restarts recover**. Whatever a run was, with crashes at any time, with commands appended by
nodes that do not lead, and with responses that report what is not there: once all nodes have been
restarted, at any time, there is an orderly run to where a further command is committed and applied
on all nodes. -/
theorem restarts_recover (hrun : Run (step cfg) (fun _ _ => True) (boot cfg) c)
    (hroom : ∀ i ∈ cfg.ids, (c.nodes i).stored.currentTerm + 3 < 2 ^ 64 ∧
      (c.nodes i).stored.log.inner.length < Log.maxLength) (cmd : Cmd) (now : Instant) :
    ∃ c₁ c₂ T idx, Run (step cfg) (fun _ l => l.2.isCrash = true) c c₁ ∧
      (∀ i ∈ cfg.ids, c₁.nodes i = (c.nodes i).restarted) ∧
      Run (Timed.step cfg) Timed.Orderly ⟨c₁, now⟩ c₂ ∧
      ∀ j ∈ cfg.ids, (c₂.nodes j).Served T idx ⟨cmd, T⟩ := by
  obtain ⟨hwf, hordered, -⟩ : c.WellFormed cfg ∧ (∀ i, (c.nodes i).Ordered) ∧
      ∀ e ∈ c.network, e.body.Ordered := by
    refine Run.invariant (I := fun c => c.WellFormed cfg ∧ (∀ i, (c.nodes i).Ordered) ∧
      ∀ e ∈ c.network, e.body.Ordered) hrun ⟨.boot, fun i => ?_, by simp [boot]⟩ ?_
    · exact ⟨ordered_nil, ordered_nil, by simp [boot, Node.boot],
        by simp [boot, Node.boot, Node.pending]⟩
    · rintro c ⟨i, a⟩ c' ⟨hwf, hnodes, hsent⟩ - hs
      exact ⟨hwf.step hs, ordered_step hwf hnodes hsent hs⟩
  obtain ⟨c₁, hrun₁, hrestarted⟩ := run_restarts cfg c
  have h₁ : ∀ i ∈ cfg.ids, (c₁.nodes i).Resting (c.nodes i).stored.currentTerm
      ⟨(c.nodes i).stored.log, none, none⟩ ∧ (c₁.nodes i).Follows := by
    intro i hi
    rw [hrestarted i hi]
    exact (c.nodes i).resting_restarted
  obtain ⟨hwf₁, -⟩ := network_run hrun₁ hwf
  let t (i : NodeID) : Term := (c.nodes i).stored.currentTerm
  let x (i : NodeID) : Holdings Cmd := ⟨(c.nodes i).stored.log, none, none⟩
  have hmem : ∀ i ∈ cfg.ids, (x i).log.InMemory := fun i hi => (hroom i hi).2.le
  obtain ⟨d, hd⟩ : ∃ d, d ∈ cfg.ids := by
    have := cfg.two_le
    exact List.exists_mem_of_length_pos (by omega)
  obtain ⟨T, hlt, hT⟩ := exists_term (List.ne_nil_of_mem hd) t fun i hi => (hroom i hi).1
  obtain ⟨c₂, i, hrun₂, hi, hn, hfresh, hpeers⟩ := Timed.exists_elected (c := ⟨c₁, now⟩) (x := x)
    hwf₁ hd (Node.Resting.isLeader_of_follows (h₁ d hd).2) (fun i hi => (h₁ i hi).1) hlt hT
    fun i hi => by
      have := (hmem i hi).length_lt
      omega
  obtain ⟨hwf₂, -⟩ := Timed.network_run hrun₂ hwf₁
  obtain ⟨c₃, hrun₃, -, -, hserved⟩ := Timed.exists_served hwf₂ hi hn hfresh hpeers cmd
    (fun _ _ => le_rfl) (fun _ _ => Nat.zero_le _)
    (fun j hj e he => by
      have hle := (hordered j).stored.le e he
      exact (hle.trans_lt (hlt j hj)).trans_le (Nat.le_add_right ..)) hmem
  exact ⟨c₁, c₃, T + 2, _, hrun₁, hrestarted, hrun₂.trans hrun₃, hserved⟩

end Cluster

namespace Example

open Cluster

/-- What the file of a node holds, and whether there is room for more. -/
def held (i : String) (c : Cluster String ℕ) : Term × List (LogEntry ℕ) × Bool :=
  ((c.nodes i).stored.currentTerm, (c.nodes i).stored.log.inner,
    decide (∀ i ∈ pair.ids, (c.nodes i).stored.currentTerm + 3 < 2 ^ 64 ∧
      (c.nodes i).stored.log.inner.length < Log.maxLength))

/-- `a` has appended command 7 after it had lost its leadership. -/
theorem restarts_recover_belated : ∃ c c₁ c₂ T idx,
    Run (step pair) (fun _ _ => True) (boot pair) c ∧ held "a" c = (2, [⟨7, 2⟩], true) ∧
    Run (step pair) (fun _ l => l.2.isCrash = true) c c₁ ∧
    (∀ i ∈ pair.ids, c₁.nodes i = (c.nodes i).restarted) ∧
    Run (Timed.step pair) Timed.Orderly ⟨c₁, 2000⟩ c₂ ∧
    ∀ j ∈ pair.ids, (c₂.nodes j).Served T idx ⟨8, T⟩ := by
  have hexec : (Run.exec (step pair) (fun _ _ => true) belated (boot pair)).map (held "a") =
      some (2, [⟨7, 2⟩], true) := by
    decide +kernel
  obtain ⟨c, hrun, hc⟩ := Run.exists_of_exec hexec fun _ _ _ => trivial
  have hroom := of_decide_eq_true (congrArg (·.2.2) hc)
  obtain ⟨c₁, c₂, T, idx, hcrash, hrestarted, hrun', hserved⟩ :=
    restarts_recover hrun hroom 8 2000
  exact ⟨c, c₁, c₂, T, idx, hrun, hc, hcrash, hrestarted, hrun', hserved⟩

end Example

end Miniraft

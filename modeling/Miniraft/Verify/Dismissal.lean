import Miniraft.Verify.Safety

/-!
# Dismissed commands

A follower dismisses the commands it drops from its log, although other nodes may still have them.
An entry is known by its index and term. A dismissed entry is never applied if its index is already
decided otherwise, or if the node drops the last copy of it (`Cluster.dismissed_unapplied`).
-/

namespace Miniraft

open Consensus Cluster

variable {NodeID Cmd : Type} [DecidableEq NodeID]

/-- The log has no entry of term `z.2` at position `z.1`. -/
def Free (z : ℕ × Term) (l : List (LogEntry Cmd)) : Prop :=
  (l[z.1]?).map (·.term) ≠ some z.2

instance (z : ℕ × Term) (l : List (LogEntry Cmd)) : Decidable (Free z l) :=
  inferInstanceAs (Decidable (_ ≠ _))

/-- The message does not carry an entry of term `z.2` for position `z.1`, or it comes too late for
a receiver in term `U`. -/
def RaftMessage.Spares (z : ℕ × Term) (U : Term) : RaftMessage Cmd → Prop
  | .appendEntries T _ prevLogIndex _ entries =>
    upTo prevLogIndex ≤ z.1 → Free (z.1 - upTo prevLogIndex, z.2) entries.inner ∨ T < U
  | _ => True

instance (z : ℕ × Term) (U : Term) (m : RaftMessage Cmd) : Decidable (m.Spares z U) := by
  unfold RaftMessage.Spares
  split <;> infer_instance

/-- The leader of term `z.2` has put something at position `z.1`. -/
def Taken (g : Replication NodeID (LogEntry Cmd)) (z : ℕ × Term) : Prop :=
  g.leader z.2 ≠ none ∧ z.1 < (g.leaderLog z.2).length

namespace RaftMessage

variable {z : ℕ × Term} {U U' : Term} {m : RaftMessage Cmd}

theorem Spares.mono (hm : m.Spares z U) (hU : U ≤ U') : m.Spares z U' := by
  cases m with
  | appendEntries T ci pi pt es => exact fun hle => (hm hle).imp_right fun hlt => hlt.trans_le hU
  | _ => trivial

end RaftMessage

section

variable {g g' : Replication NodeID (LogEntry Cmd)} {z : ℕ × Term} {l : List (LogEntry Cmd)}

omit [DecidableEq NodeID] in
theorem Taken.mono (hle : g.Le g') (ht : Taken g z) : Taken g' z :=
  ⟨hle.leader_ne_none ht.1, ht.2.trans_le (hle.leaderLog ht.1).length_le⟩

omit [DecidableEq NodeID] in
theorem Taken.of_sound (hl : g.Sound LogEntry.term l) (hz : ¬ Free z l) : Taken g z := by
  obtain ⟨e, he, ht⟩ := Option.map_eq_some_iff.mp (not_ne_iff.mp hz)
  obtain ⟨hlead, hle⟩ := hl.origin he
  have hlen := hle.length_le
  have hlt := (List.getElem?_eq_some_iff.mp he).1
  rw [List.length_take, ht] at hlen
  exact ⟨ht ▸ hlead, by omega⟩

theorem Free.splice {ws : List (LogEntry Cmd)} {n : ℕ} (hl : Free z l) (hn : n ≤ l.length)
    (hws : n ≤ z.1 → Free (z.1 - n, z.2) ws) : Free z (splice LogEntry.term l n ws) := by
  intro hz
  obtain ⟨e, he, ht⟩ := Option.map_eq_some_iff.mp hz
  rcases getElem?_splice hn he with he | ⟨hle, he⟩
  · exact hl (by rw [he, Option.map_some, ht])
  · exact hws hle (by rw [he, Option.map_some, ht])

omit [DecidableEq NodeID] in
/-- What a splice drops from a sound log is not in the log any more. -/
theorem free_of_dropped {ws : List (LogEntry Cmd)} {n : ℕ} {x : LogEntry Cmd × ℕ}
    (hl : g.Sound LogEntry.term l) (hl' : g.Sound LogEntry.term (splice LogEntry.term l n ws))
    (hx : x ∈ dropped LogEntry.term l n ws) :
    Free (x.2, x.1.term) (splice LogEntry.term l n ws) := by
  intro hz
  obtain ⟨q, hq, hle, he⟩ := mem_dropped hx
  obtain ⟨e, he', ht⟩ := Option.map_eq_some_iff.mp hz
  have htake := hl'.matching hl he' he ht
  obtain ⟨t, w, ht, hw, hne⟩ := conflict_eq_some hq
  rw [List.getElem?_drop] at ht
  have hkept : (splice LogEntry.term l n ws)[n + q]? = some w := getElem?_splice_conflict hq hw
  rw [← List.getElem?_take_of_lt (show n + q < x.2 + 1 by omega), htake,
    List.getElem?_take_of_lt (by omega), ht] at hkept
  exact hne (congrArg LogEntry.term (Option.some.inj hkept))

variable [Wire Cmd]

@[simp] theorem free_wire {l : Log Cmd} : Free z l.wire.inner ↔ Free z l.inner := by
  simp only [Free, Log.wire, List.getElem?_map, Option.map_map]
  rfl

@[simp] theorem RaftMessage.spares_wire {m : RaftMessage Cmd} {U : Term} :
    m.wire.Spares z U ↔ m.Spares z U := by
  cases m with
  | appendEntries T ci pi pt es => simp only [wire, Spares, free_wire]
  | _ => rfl

omit [Wire Cmd] in
/-- What a node sends from a log without the entry does not carry it. -/
theorem Core.Appends.spares {k : Core NodeID Cmd} {next : Map NodeID LogIndex}
    {x : NodeID × RaftMessage Cmd} {U : Term} (hx : k.Appends next x)
    (hfree : Free z k.log.inner) : x.2.Spares z U := by
  obtain ⟨ni, ci, -, -, hbody⟩ := hx.body
  rw [hbody]
  intro hle
  left
  rw [upTo_dec] at hle ⊢
  unfold Free at hfree ⊢
  rwa [List.getElem?_drop, Nat.add_sub_of_le hle]

end

namespace Move

variable [Wire Cmd] {cfg : Config NodeID} {g : Replication NodeID (LogEntry Cmd)} {z : ℕ × Term}
  {i : NodeID} {a : Action NodeID Cmd} {k k' : Core NodeID Cmd} {h h' : History NodeID Cmd}
  {recv : Option (NodeID × RaftMessage Cmd)} {fresh : Outgoing NodeID Cmd}

/-- An entry that a node does not have and does not receive, it does not have after a move. -/
theorem free (hm : Move a k h recv k' h' fresh) (H : g.Inv LogEntry.term cfg.members)
    (ha : a = .clientAppend → k.stance.IsLeader) (hn : k.Replicates cfg g i)
    (hfree : Free z k.log.inner) (htaken : Taken g z)
    (hrecv : ∀ p m, recv = some (p, m) → m.Spares z k.term) : Free z k'.log.inner := by
  cases hm with
  | @accept p ci pi pt es log commit applied apps drops hlead hne hacc =>
    rcases hacc.spliced with ⟨-, rfl, -⟩ | ⟨hle, hsplice, -⟩
    · exact hfree
    · rw [show log.inner = _ from hsplice]
      refine hfree.splice hle fun hz => ?_
      exact (hrecv p _ rfl hz).resolve_right (lt_irrefl _)
  | @append cmd _ hact _ =>
    intro hz
    have hl := replication.leader_of_isLeader hn.elects (ha hact)
    have hlog := replication.leader_log H hn hl
    obtain ⟨e, he, ht⟩ := Option.map_eq_some_iff.mp hz
    rcases Nat.lt_or_ge z.1 k.log.inner.length with hlt | hge
    · rw [show (k.log.append _).inner[z.1]? = _ from List.getElem?_append_left hlt] at he
      exact hfree (by rw [he, Option.map_some, ht])
    -- The leader of the term has something at the position of `z` already.
    · rw [show (k.log.append _).inner[z.1]? = _ from List.getElem?_append_right hge] at he
      obtain ⟨h0, rfl⟩ := List.getElem?_eq_some_iff.mp he
      have hterm : k.term = z.2 := by simpa using ht
      have := htaken.2
      rw [← hterm, hlog] at this
      omega
  | _ => exact hfree

/-- What a move produces does not carry an entry the node does not have. -/
theorem spares (hm : Move a k h recv k' h' fresh) (hfree : Free z k'.log.inner) :
    ∀ x ∈ fresh, ∀ U, x.2.Spares z U := by
  intro x hx U
  cases hm with
  | quiet | stepDown _ | count _ | ack _ _ _ _ _ | append _ _ => cases hx
  | stand _ _ =>
    obtain ⟨p, -, rfl⟩ := List.mem_map.mp hx
    trivial
  | replicate _ happ | retreat _ _ happ | win _ _ _ _ happ => exact (happ x hx).spares hfree
  | refuse | grant _ _ _ _ | stale _ | mismatch _ | accept _ _ _ =>
    obtain rfl := List.mem_singleton.mp hx
    trivial

/-- A move dismisses what the splice of an accepted request drops. -/
theorem dismissed (hm : Move a k h recv k' h' fresh) {x : LogEntry Cmd × ℕ}
    (hx : x ∈ h'.dismissed) : x ∈ h.dismissed ∨ ∃ p ci pi pt es,
      recv = some (p, .appendEntries k.term ci pi pt es) ∧
      (pi.bind fun idx => (k.log.get idx).map (·.term)) = pt ∧
      k'.log.inner = splice LogEntry.term k.log.inner (upTo pi) es.inner ∧
      (x.1.wire, x.2) ∈ dropped LogEntry.term k.log.inner (upTo pi) es.inner := by
  cases hm with
  | @accept p ci pi pt es log commit applied apps drops hlead hne hacc =>
    rcases List.mem_append.mp hx with hx | hx
    · exact .inl hx
    · rcases hacc.spliced with ⟨-, -, rfl⟩ | ⟨-, hsplice, hdrops⟩
      · cases hx
      · refine .inr ⟨p, ci, pi, pt, es, rfl, hacc.consistent, hsplice, ?_⟩
        rw [← hdrops]
        exact List.mem_map_of_mem (f := Prod.map LogEntry.wire id) hx
  | _ => exact .inl hx

end Move

/-- Some committed segment has an entry of another term at a position up to `z.1` of a log that has
the entry `z`. -/
def Refuted (cfg : Config NodeID) (g : Replication NodeID (LogEntry Cmd)) (z : ℕ × Term) : Prop :=
  ∃ T w l n, Settled cfg g T w ∧ g.Sound LogEntry.term l ∧ n ≤ z.1 ∧ ¬ Free z l ∧
    ∃ a b, l[n]? = some a ∧ w[n]? = some b ∧ a.term ≠ b.term

namespace Refuted

variable {cfg : Config NodeID} {g g' : Replication NodeID (LogEntry Cmd)} {z : ℕ × Term}

theorem mono (H : g.Inv LogEntry.term cfg.members) (hle : g.Le g') (h : Refuted cfg g z) :
    Refuted cfg g' z := by
  obtain ⟨T, w, l, n, hset, hl, h⟩ := h
  exact ⟨T, w, l, n, hset.mono H hle le_rfl, hl.mono hle, h⟩

/-- A refuted entry is not committed. -/
theorem free (H : g.Inv LogEntry.term cfg.members) (h : Refuted cfg g z) {T : Term}
    {v : List (LogEntry Cmd)} (hv : Settled cfg g T v) : Free z v := by
  intro hz
  obtain ⟨T', w, l, n, hset, hl, hn, hfree, a, b, ha, hb, hab⟩ := h
  obtain ⟨e, he, ht⟩ := Option.map_eq_some_iff.mp hz
  obtain ⟨e', he', ht'⟩ := Option.map_eq_some_iff.mp (not_ne_iff.mp hfree)
  have htake : v.take (z.1 + 1) = l.take (z.1 + 1) :=
    (hv.sound H).matching hl he he' (ht.trans ht'.symm)
  have hva : v[n]? = some a := by
    rw [← List.getElem?_take_of_lt (show n < z.1 + 1 by omega), htake,
      List.getElem?_take_of_lt (by omega), ha]
  have heq : a = b := by
    rcases H.committed_total hv hset with hle | hle
    · rw [hle.getElem?_eq hva] at hb
      exact Option.some.inj hb
    · rw [hle.getElem?_eq hb] at hva
      exact (Option.some.inj hva).symm
  exact hab (congrArg LogEntry.term heq)

end Refuted

/-! ## Clusters -/

/-- The position at which the request that a node is about to handle conflicts with its log. It
drops its log from there on. -/
def Node.conflict (n : Node NodeID Cmd) : Option ℕ :=
  match n.raftLoop with
  | .stepped _ (.appendEntries T _ prevLogIndex prevLogTerm entries) =>
    if T = n.state.c.currentTerm ∧
        (prevLogIndex.bind fun idx => (n.state.c.log.get idx).map (·.term)) = prevLogTerm then
      (Consensus.conflict LogEntry.term (n.state.c.log.inner.drop (upTo prevLogIndex))
        entries.inner).map (upTo prevLogIndex + ·)
    else none
  | _ => none

omit [DecidableEq NodeID] in
theorem Node.conflict_eq_some [Wire Cmd] {n : Node NodeID Cmd} {p : NodeID}
    {ci pi : Option LogIndex} {pt : Option Term} {es : Log Cmd} {q : ℕ}
    (hloop : n.raftLoop = .stepped p (.appendEntries n.state.core.term ci pi pt es))
    (hes : es.wire = es) (hprev : (pi.bind fun idx => (n.state.core.log.get idx).map (·.term)) = pt)
    (hq : Consensus.conflict LogEntry.term (n.state.core.log.inner.drop (upTo pi)) es.inner =
      some q) : n.conflict = some (upTo pi + q) := by
  simp only [State.core, Log.get_wire_term] at hprev
  rw [← hes, State.core, Log.wire, Log.wire, ← List.map_drop, conflict_map] at hq
  rw [Node.conflict, hloop]
  have hq' : Consensus.conflict LogEntry.term (n.state.c.log.inner.drop (upTo pi)) es.inner =
    some q := hq
  simp [State.core, hprev, hq']

namespace Cluster

/-- No message, sent or about to be sent, brings the entry `z` to a node of the cluster. -/
def Unsent (cfg : Config NodeID) (c : Cluster NodeID Cmd) (z : ℕ × Term) : Prop :=
  (∀ e ∈ c.network, e.destination ∈ cfg.ids →
    e.body.Spares z (c.nodes e.destination).state.c.currentTerm) ∧
  ∀ i ∈ cfg.ids, ∀ x ∈ (c.nodes i).pending, x.1 ∈ cfg.ids →
    x.2.Spares z (c.nodes x.1).state.c.currentTerm

/-- Only node `i` may have the entry `z`. -/
def LastCopy (cfg : Config NodeID) (c : Cluster NodeID Cmd) (i : NodeID) (z : ℕ × Term) : Prop :=
  (∀ j ∈ cfg.ids, j ≠ i → Free z (c.nodes j).state.c.log.inner) ∧ Unsent cfg c z

/-- Some node has committed something else than node `i` has at position `n`. -/
def DecidedOtherwise (cfg : Config NodeID) (c : Cluster NodeID Cmd) (i : NodeID) (n : ℕ) : Prop :=
  ∃ j ∈ cfg.ids, n < upTo (c.nodes j).state.c.commitIndex ∧
    ((c.nodes j).state.c.log.inner[n]?).map (·.term) ≠
      ((c.nodes i).state.c.log.inner[n]?).map (·.term)

/-- A node that drops entries has committed something else in their place, or has the last copies
of them. -/
def DismissesSafely (cfg : Config NodeID) (c : Cluster NodeID Cmd) (l : Label NodeID Cmd) : Prop :=
  match l.2, (c.nodes l.1).conflict with
  | .handle _, some n => DecidedOtherwise cfg c l.1 n ∨
    ∀ x ∈ (c.nodes l.1).state.c.log.inner.zipIdx.drop n, LastCopy cfg c l.1 (x.2, x.1.term)
  | _, _ => True

instance (cfg : Config NodeID) (c : Cluster NodeID Cmd) (z : ℕ × Term) :
    Decidable (Unsent cfg c z) :=
  inferInstanceAs (Decidable (_ ∧ _))

instance (cfg : Config NodeID) (c : Cluster NodeID Cmd) (i : NodeID) (z : ℕ × Term) :
    Decidable (LastCopy cfg c i z) :=
  inferInstanceAs (Decidable (_ ∧ _))

instance (cfg : Config NodeID) (c : Cluster NodeID Cmd) (i : NodeID) (n : ℕ) :
    Decidable (DecidedOtherwise cfg c i n) :=
  inferInstanceAs (Decidable (∃ j ∈ cfg.ids, _))

/-- The conflict that is found when a message is handled. -/
def foundConflict : Action NodeID Cmd → Option ℕ → Option ℕ
  | .handle _, some n => some n
  | _, _ => none

omit [DecidableEq NodeID] in
theorem dismissesSafely_iff {cfg : Config NodeID} {c : Cluster NodeID Cmd} {l : Label NodeID Cmd} :
    DismissesSafely cfg c l ↔ ∀ n ∈ foundConflict l.2 (c.nodes l.1).conflict,
      DecidedOtherwise cfg c l.1 n ∨ ∀ x ∈ (c.nodes l.1).state.c.log.inner.zipIdx.drop n,
        LastCopy cfg c l.1 (x.2, x.1.term) := by
  unfold DismissesSafely foundConflict
  split <;> simp

instance (cfg : Config NodeID) (c : Cluster NodeID Cmd) (l : Label NodeID Cmd) :
    Decidable (DismissesSafely cfg c l) :=
  decidable_of_iff _ dismissesSafely_iff.symm

/-- Why the entry `z` will never be applied. -/
def Dead [Wire Cmd] (cfg : Config NodeID) (c : Cluster NodeID Cmd) (z : ℕ × Term) : Prop :=
  ∃ g, Commits cfg c g ∧ (Refuted cfg g z ∨
    ((∀ i ∈ cfg.ids, Free z (c.nodes i).state.c.log.inner) ∧ Unsent cfg c z ∧ Taken g z))

variable [Wire Cmd] {cfg : Config NodeID} {c c' : Cluster NodeID Cmd} {i j : NodeID}
  {a : Action NodeID Cmd} {z : ℕ × Term} {g : Replication NodeID (LogEntry Cmd)}

/-- What is dead is not applied. -/
theorem Dead.not_applied (H : Dead cfg c z) (hj : j ∈ cfg.ids) {x : LogIndex × LogEntry Cmd}
    (hx : x ∈ (c.nodes j).history.applied) : (x.1.natPred, x.2.term) ≠ z := by
  rintro rfl
  obtain ⟨g, H, hr | ⟨hfree, -, -⟩⟩ := H
  · obtain ⟨T, v, hv, he⟩ := H.applied hj hx
    exact hr.free H.inv hv (by simp only [he]; rfl)
  · have he := ((H.holds.node j hj).2.applied x hx).2
    refine (free_wire.mpr (hfree j hj)) ?_
    simp only [show (c.nodes j).state.c.log.wire.inner[x.1.natPred]? = _ from he]
    rfl

/-- An entry of a log above a position that is decided otherwise is refuted. -/
theorem refuted_of_decided (H : Commits cfg c g) {n : ℕ} (hdec : DecidedOtherwise cfg c i n)
    (hsound : g.Sound LogEntry.term (c.nodes i).state.core.log.inner)
    (hhad : ¬ Free z (c.nodes i).state.core.log.inner) (hn : n ≤ z.1) : Refuted cfg g z := by
  obtain ⟨j, hj, hlt, hne⟩ := hdec
  have ht := (H.holds.node j hj).2
  obtain ⟨e, he, -⟩ := Option.map_eq_some_iff.mp (not_ne_iff.mp hhad)
  have hlen := (List.getElem?_eq_some_iff.mp he).1
  have hlen' : n < (c.nodes j).state.core.log.inner.length := hlt.trans_le ht.commit_le
  simp only [State.core, Log.length_wire] at hlen hlen'
  have ha := List.getElem?_eq_getElem (show n < (c.nodes i).state.c.log.inner.length by omega)
  have hb := List.getElem?_eq_getElem hlen'
  have hw : ((c.nodes j).state.core.log.inner.take (c.nodes j).state.core.commit)[n]? =
      some (c.nodes j).state.c.log.inner[n].wire := by
    refine (List.getElem?_take_of_lt hlt).trans ?_
    exact (Log.getElem?_wire ..).trans (congrArg _ hb)
  refine ⟨_, _, _, n, ht.committed, hsound, hn, hhad, _, _,
    (Log.getElem?_wire ..).trans (congrArg _ ha), hw, ?_⟩
  rw [ha, hb] at hne
  exact fun heq => hne (congrArg some heq.symm)

theorem Unsent.update (hi : i ∈ cfg.ids) {n : Node NodeID Cmd} {msgs fresh : Outgoing NodeID Cmd}
    (hu : Unsent cfg c z)
    (hterm : (c.nodes i).state.c.currentTerm ≤ n.state.c.currentTerm)
    (hout : ∀ x, x ∈ n.pending ∨ x ∈ msgs → x ∈ (c.nodes i).pending ∨ (x.1, x.2.wire) ∈ fresh)
    (hfresh : ∀ x ∈ fresh, ∀ U, x.2.Spares z U) : Unsent cfg (c.update i n msgs) z := by
  have hle : ∀ j, (c.nodes j).state.c.currentTerm ≤
      ((c.update i n msgs).nodes j).state.c.currentTerm := by
    intro j
    rcases eq_or_ne j i with rfl | hj
    · rwa [update_self]
    · rw [update_of_ne hj]
  have hnew : ∀ x, x ∈ n.pending ∨ x ∈ msgs → x.1 ∈ cfg.ids →
      x.2.Spares z ((c.update i n msgs).nodes x.1).state.c.currentTerm := by
    intro x hx hmem
    rcases hout x hx with hx | hx
    · exact (hu.2 i hi x hx hmem).mono (hle _)
    · exact RaftMessage.spares_wire.mp (hfresh _ hx _)
  refine ⟨fun e he hmem => ?_, fun j hj x hx hmem => ?_⟩
  · rcases mem_update.mp he with he | ⟨x, hx, rfl⟩
    · exact (hu.1 e he hmem).mono (hle _)
    · exact RaftMessage.spares_wire.mpr (hnew x (.inr hx) hmem)
  · rcases eq_or_ne j i with rfl | hj'
    · rw [update_self] at hx
      exact hnew x (.inl hx) hmem
    · rw [update_of_ne hj'] at hx
      exact (hu.2 j hj x hx hmem).mono (hle _)

variable [DecidableEq Cmd]

/-- What is dead stays dead. -/
theorem Dead.step (hz : Dead cfg c z) (hP : Orderly c (i, a))
    (hs : c.step cfg (i, a) = .ok c') : Dead cfg c' z := by
  obtain ⟨g, H, hz⟩ := hz
  obtain ⟨g', hsteps, H'⟩ := commitment_run (.single ⟨(i, a), hP, hs⟩) H
  have hle := (H.inv.steps hsteps).2
  refine ⟨g', H', ?_⟩
  rcases hz with hr | ⟨hfree, hu, ht⟩
  · exact .inl (hr.mono H.inv hle)
  right
  obtain ⟨hi, -, n, msgs, hn, rfl⟩ := step_eq_ok hs
  obtain ⟨recv, fresh, hm, hrecv, hout⟩ := Node.step_move H.holds.wf.ready hn hP.1.ne
  have hkept : Free z n.state.core.log.inner := by
    refine hm.free H.inv hP.2.1.isLeader (H.holds.node i hi).1 (free_wire.mpr (hfree i hi)) ht ?_
    intro p m hpm
    exact hu.1 _ (H.holds.wf.handles (hrecv p m hpm)) hi
  refine ⟨fun j hj => ?_, hu.update hi hm.term_le hout (hm.spares hkept), ht.mono hle⟩
  rcases eq_or_ne j i with rfl | hj'
  · rw [update_self]
    exact free_wire.mp hkept
  · rw [update_of_ne hj']
    exact hfree j hj

/-- What a node drops safely is dead. -/
theorem dead_of_dropped (H : Commits cfg c g) (hP : Orderly c (i, a))
    (hsafe : DismissesSafely cfg c (i, a)) (hs : c.step cfg (i, a) = .ok c')
    {x : LogEntry Cmd × ℕ} (hx : x ∈ (c'.nodes i).history.dismissed)
    (hnew : x ∉ (c.nodes i).history.dismissed) : Dead cfg c' (x.2, x.1.term) := by
  obtain ⟨g', hsteps, H'⟩ := commitment_run (.single ⟨(i, a), hP, hs⟩) H
  have hle := (H.inv.steps hsteps).2
  refine ⟨g', H', ?_⟩
  obtain ⟨hi, -, n, msgs, hn, rfl⟩ := step_eq_ok hs
  obtain ⟨recv, fresh, hm, hrecv, hout⟩ := Node.step_move H.holds.wf.ready hn hP.1.ne
  rw [update_self] at hx
  obtain ⟨p, ci, pi, pt, es, rfl, hprev, hsplice, hdrop⟩ := (hm.dismissed hx).resolve_left hnew
  obtain ⟨hloop, clk, rfl⟩ := hrecv p _ rfl
  obtain ⟨q, hq, hqle, he⟩ := mem_dropped hdrop
  have hsound : g.Sound LogEntry.term (c.nodes i).state.core.log.inner :=
    (H.holds.node i hi).1.log ▸ H.inv.log_sound i
  have hhad : ¬ Free (x.2, x.1.term) (c.nodes i).state.core.log.inner := by
    simp only [Free, he, not_ne_iff]
    rfl
  have hconf : (c.nodes i).conflict = some (upTo pi + q) :=
    Node.conflict_eq_some hloop (by simpa [RaftMessage.wire] using (H.holds.wf.ready p _ hloop).1)
      hprev hq
  simp only [DismissesSafely, hconf] at hsafe
  rcases hsafe with hdec | hlast
  · exact .inl ((refuted_of_decided H hdec hsound hhad hqle).mono H.inv hle)
  right
  obtain ⟨y, hy, hyx⟩ := Option.map_eq_some_iff.mp ((Log.getElem?_wire ..).symm.trans he)
  have hyterm : y.wire.term = x.1.wire.term := by rw [hyx]
  obtain ⟨hothers, hu⟩ := hlast (y, x.2) (List.mem_drop_zipIdx.mpr ⟨hqle, hy⟩)
  rw [show y.term = x.1.term from hyterm] at hothers hu
  have hkept : Free (x.2, x.1.term) n.state.core.log.inner := by
    have hlog := (H'.holds.node i hi).1.log
    rw [update_self, hsplice] at hlog
    rw [hsplice]
    exact free_of_dropped (x := (x.1.wire, x.2)) (hsound.mono hle) (hlog ▸ H'.inv.log_sound i) hdrop
  refine ⟨fun j hj => ?_, hu.update hi hm.term_le hout (hm.spares hkept),
    (Taken.of_sound hsound hhad).mono hle⟩
  rcases eq_or_ne j i with rfl | hj'
  · rw [update_self]
    exact free_wire.mp hkept
  · rw [update_of_ne hj']
    exact hothers j hj hj'

/-- No crash, commands are appended by leaders only, responses are backed and entries are dropped
safely. -/
def Careful (cfg : Config NodeID) (c : Cluster NodeID Cmd) (l : Label NodeID Cmd) : Prop :=
  Orderly c l ∧ DismissesSafely cfg c l

instance (cfg : Config NodeID) (c : Cluster NodeID Cmd) (l : Label NodeID Cmd) :
    Decidable (Careful cfg c l) :=
  inferInstanceAs (Decidable (_ ∧ _))

/-- No node applies an entry that a node has dismissed. -/
def DismissedUnapplied (cfg : Config NodeID) (c : Cluster NodeID Cmd) : Prop :=
  ∀ i ∈ cfg.ids, ∀ d ∈ (c.nodes i).history.dismissed,
    ∀ j ∈ cfg.ids, ∀ x ∈ (c.nodes j).history.applied, (x.1.natPred, x.2.term) ≠ (d.2, d.1.term)

theorem dismissed_dead (hrun : Run (step cfg) (Careful cfg) (boot cfg) c) :
    (∃ g, Commits cfg c g) ∧
      ∀ i ∈ cfg.ids, ∀ d ∈ (c.nodes i).history.dismissed, Dead cfg c (d.2, d.1.term) := by
  refine Run.invariant (I := fun c => (∃ g, Commits cfg c g) ∧
    ∀ i ∈ cfg.ids, ∀ d ∈ (c.nodes i).history.dismissed, Dead cfg c (d.2, d.1.term)) hrun
    ⟨⟨_, commits_boot cfg⟩, by simp [boot, Node.boot, History.empty]⟩ ?_
  rintro c ⟨i, a⟩ c' ⟨⟨g, H⟩, hdead⟩ ⟨hP, hsafe⟩ hs
  obtain ⟨g', -, H'⟩ := commitment_run (.single ⟨(i, a), hP, hs⟩) H
  refine ⟨⟨g', H'⟩, fun j hj d hd => ?_⟩
  rcases Classical.em (d ∈ (c.nodes j).history.dismissed) with hold | hnew
  · exact (hdead j hj d hold).step hP hs
  · obtain rfl : j = i := by
      by_contra hne
      obtain ⟨-, -, n, msgs, -, rfl⟩ := step_eq_ok hs
      rw [update_of_ne hne] at hd
      exact hnew hd
    exact dead_of_dropped H hP hsafe hs hd hnew

theorem dismissed_unapplied (hrun : Run (step cfg) (Careful cfg) (boot cfg) c) :
    DismissedUnapplied cfg c := by
  intro i hi d hd j hj x hx
  exact ((dismissed_dead hrun).2 i hi d hd).not_applied hj hx

end Cluster

namespace Example

/-- The leader `c` of term 3 has command 8 in place of command 7, which only `a` has. -/
def replaced : List (Label String ℕ) :=
  List.flatten [
    elected,
    [("a", .clientRequest 7), ("a", .clientAppend), ("b", .election (at_ 1000)),
      ("c", .election (at_ 1)), ("c", .election (at_ 1000)), ("c", .election (at_ 2000))],
    deliver "b" "c" (.requestVote 3 none none), deliver "c" "b" (.requestVoteResponse 3 true),
    [("c", .clientRequest 8), ("c", .clientAppend), ("c", .clientReplicate (at_ 100000000))],
    deliver "a" "c" (.appendEntries 3 none none none ⟨[⟨8, 3⟩]⟩),
    deliver "b" "c" (.appendEntries 3 none none none ⟨[⟨8, 3⟩]⟩),
    deliver "c" "b" (.appendEntriesResponse 3 (some 1) true),
    deliver "c" "a" (.appendEntriesResponse 3 (some 1) true)]

theorem dismissed_unapplied_replaced : ∃ c, Run (step three) (Careful three) (boot three) c ∧
    (c.nodes "a").history.dismissed = [(⟨7, 1⟩, 0)] ∧
    (c.nodes "c").history.applied = [(1, ⟨8, 3⟩)] ∧ DismissedUnapplied three c := by
  have hexec : (Run.exec (step three) (fun c l => decide (Careful three c l)) replaced
      (boot three)).map (fun c => ((c.nodes "a").history.dismissed, (c.nodes "c").history.applied)) =
      some ([(⟨7, 1⟩, 0)], [(1, ⟨8, 3⟩)]) := by
    decide +kernel
  obtain ⟨c, hrun, hc⟩ := Run.exists_of_exec hexec fun _ _ => of_decide_eq_true
  obtain ⟨ha, hc⟩ := Prod.mk.inj hc
  exact ⟨c, hrun, ha, hc, dismissed_unapplied hrun⟩

/-- `d` leads term 1 and replicates command 10 to `e` only. The leader `a` of term 2 makes `d`
dismiss it. Then `e` is elected in term 4, and its entry is committed with command 12. -/
def revived : List (Label String ℕ) :=
  List.flatten [
    [("d", .election (at_ 1))], deliver "a" "d" (.requestVote 1 none none),
    deliver "e" "d" (.requestVote 1 none none), deliver "d" "a" (.requestVoteResponse 1 true),
    deliver "d" "e" (.requestVoteResponse 1 true),
    [("d", .clientRequest 10), ("d", .clientAppend), ("d", .clientReplicate (at_ 100000000))],
    deliver "e" "d" (.appendEntries 1 none none none ⟨[⟨10, 1⟩]⟩), [("a", .election (at_ 1000))],
    deliver "b" "a" (.requestVote 2 none none), deliver "c" "a" (.requestVote 2 none none),
    deliver "a" "b" (.requestVoteResponse 2 true), deliver "a" "c" (.requestVoteResponse 2 true),
    [("a", .clientRequest 11), ("a", .clientAppend), ("a", .clientReplicate (at_ 200000000))],
    deliver "d" "a" (.appendEntries 2 none none none ⟨[⟨11, 2⟩]⟩),
    [("b", .election (at_ 100000000000)), ("c", .election (at_ 100000000000)),
      ("e", .election (at_ 100000000000)), ("e", .election (at_ 200000000000)),
      ("e", .election (at_ 300000000000))],
    deliver "b" "e" (.requestVote 4 (some 1) (some 1)),
    deliver "c" "e" (.requestVote 4 (some 1) (some 1)),
    deliver "e" "b" (.requestVoteResponse 4 true), deliver "e" "c" (.requestVoteResponse 4 true),
    ["a", "b", "c", "d"].flatMap (fun i =>
      deliver i "e" (.appendEntries 4 none (some 1) (some 1) ⟨[]⟩)),
    deliver "e" "a" (.appendEntriesResponse 4 (some 1) false),
    deliver "e" "b" (.appendEntriesResponse 4 none false),
    deliver "e" "c" (.appendEntriesResponse 4 none false),
    deliver "e" "d" (.appendEntriesResponse 4 (some 1) false),
    [("e", .clientRequest 12), ("e", .clientAppend),
      ("e", .clientReplicate (at_ 400000000000))],
    ["a", "b", "c", "d"].flatMap (fun i =>
      deliver i "e" (.appendEntries 4 none none none ⟨[⟨10, 1⟩, ⟨12, 4⟩]⟩) ++
      deliver "e" i (.appendEntriesResponse 4 (some 2) true))]

theorem dismissed_unapplied_revived : ¬ ∀ c : Cluster String ℕ,
    Run (step five) (fun c l => CrashFree c l ∧ AppendsAsLeader c l) (boot five) c →
      DismissedUnapplied five c := by
  intro hall
  have hexec : (Run.exec (step five) (fun c l => decide (CrashFree c l ∧ AppendsAsLeader c l))
      revived (boot five)).map (fun c =>
        ((c.nodes "d").history.dismissed, (c.nodes "e").history.applied)) =
      some ([(⟨10, 1⟩, 0), (⟨11, 2⟩, 0)], [(1, ⟨10, 1⟩), (2, ⟨12, 4⟩)]) := by
    decide +kernel
  obtain ⟨c, hrun, hc⟩ := Run.exists_of_exec hexec fun _ _ => of_decide_eq_true
  obtain ⟨hd, he⟩ := Prod.mk.inj hc
  exact hall c hrun "d" (by decide) (⟨10, 1⟩, 0) (by simp [hd]) "e" (by decide) (1, ⟨10, 1⟩)
    (by simp [he]) rfl

end Example

end Miniraft

import Miniraft.Verify.Safety

/-!
# A silent peer stops the cluster

A leader raises its commit index only when every peer has reported a match index, not a majority of
them. So as long as one node is silent no leader that has not heard from it commits, and as the
followers only take over what leaders have committed, nothing new is committed or applied anywhere,
whatever the other nodes do and however many of them have an entry (`Cluster.silence_stalls`).
-/

namespace Miniraft

variable {NodeID Cmd : Type}

/-- A success in response to AppendEntries. -/
def RaftMessage.isAck : RaftMessage Cmd → Bool
  | .appendEntriesResponse _ _ success => success
  | _ => false

/-- The message tells of no commit index above `b`. -/
def RaftMessage.CommitsWithin (b : ℕ) : RaftMessage Cmd → Prop
  | .appendEntries _ commitIndex _ _ _ => upTo commitIndex ≤ b
  | _ => True

variable [DecidableEq NodeID]

/-- If this is a leader, it has no match index for its peer `p`. -/
def Core.Unheard (p : NodeID) (k : Core NodeID Cmd) : Prop :=
  ∀ next mtch, k.stance = .leader next mtch → mtch.lookup p = some none

/-- Some commands were applied after `old`, all of them up to `b`. -/
def AppliedWithin (b : ℕ) (old new : List (LogIndex × LogEntry Cmd)) : Prop :=
  ∃ apps, new = old ++ apps ∧ ∀ x ∈ apps, (x.1 : ℕ) ≤ b

theorem AppliedWithin.refl (b : ℕ) (old : List (LogIndex × LogEntry Cmd)) :
    AppliedWithin b old old := ⟨[], by simp⟩

theorem AppliedWithin.trans {b : ℕ} {l₁ l₂ l₃ : List (LogIndex × LogEntry Cmd)}
    (h : AppliedWithin b l₁ l₂) (h' : AppliedWithin b l₂ l₃) : AppliedWithin b l₁ l₃ := by
  obtain ⟨apps, rfl, happs⟩ := h
  obtain ⟨apps', rfl, happs'⟩ := h'
  refine ⟨apps ++ apps', List.append_assoc .., fun x hx => ?_⟩
  exact (List.mem_append.mp hx).elim (happs x) (happs' x)

variable [Wire Cmd]

theorem AppliedWithin.of_applies {b lo hi : ℕ} {log : Log Cmd}
    {old apps : List (LogIndex × LogEntry Cmd)}
    (h : Applies log lo hi (apps.map (Prod.map id LogEntry.wire))) (hb : hi ≤ b) :
    AppliedWithin b old (old ++ apps) := by
  refine ⟨apps, rfl, fun x hx => ?_⟩
  obtain ⟨-, hle, -⟩ := h _ (List.mem_map_of_mem hx)
  exact hle.trans hb

namespace Move

variable {a : Action NodeID Cmd} {k k' : Core NodeID Cmd} {h h' : History NodeID Cmd}
  {recv : Option (NodeID × RaftMessage Cmd)} {fresh : Outgoing NodeID Cmd} {p : NodeID} {b : ℕ}

omit [Wire Cmd] in
theorem commitsWithin_appends {next : Map NodeID LogIndex} {x : NodeID × RaftMessage Cmd}
    (hk : k.commit ≤ b) (hx : k.Appends next x) : x.2.CommitsWithin b := by
  obtain ⟨ni, ci, -, hci, hbody⟩ := hx.body
  rw [hbody]
  exact hci.trans_le hk

omit [Wire Cmd] in
theorem unheard_stepDown {v : Option NodeID} (hst : k'.stance = k.stance.stepDown v) :
    k'.Unheard p := by
  intro next mtch hlead
  rw [hst] at hlead
  cases hs : k.stance with
  | _ => simp [hs, Stance.stepDown] at hlead

/-- A node that has not heard from `p`, and does not hear from it now, commits nothing of its
own. -/
theorem stalls (hm : Move a k h recv k' h' fresh) (hk : k.commit ≤ b) (hu : k.Unheard p)
    (hp : p ∈ k.peers)
    (hrecv : ∀ q m, recv = some (q, m) → m.CommitsWithin b ∧ (m.isAck = true → q ≠ p)) :
    k'.commit ≤ b ∧ k'.Unheard p ∧ (∀ x ∈ fresh, x.2.CommitsWithin b) ∧
      AppliedWithin b h.applied h'.applied := by
  have happends : ∀ {next : Map NodeID LogIndex}, (∀ x ∈ fresh, k.Appends next x) →
      ∀ x ∈ fresh, x.2.CommitsWithin b := fun happ x hx => commitsWithin_appends hk (happ x hx)
  have hsingle : ∀ {q : NodeID} {m : RaftMessage Cmd}, m.CommitsWithin b →
      ∀ x ∈ [(q, m)], RaftMessage.CommitsWithin b x.2 := by
    intro q m hm x hx
    obtain rfl := List.mem_singleton.mp hx
    exact hm
  cases hm with
  | quiet => exact ⟨hk, hu, by simp, .refl ..⟩
  | stepDown _ => exact ⟨hk, unheard_stepDown rfl, by simp, .refl ..⟩
  | stand _ _ =>
    refine ⟨hk, by simp [Core.Unheard], fun x hx => ?_, .refl ..⟩
    obtain ⟨q, -, rfl⟩ := List.mem_map.mp hx
    trivial
  | replicate _ happ => exact ⟨hk, hu, happends happ, .refl ..⟩
  | refuse => exact ⟨hk, hu, hsingle trivial, .refl ..⟩
  | grant _ _ _ _ => exact ⟨hk, by simp [Core.Unheard], hsingle trivial, .refl ..⟩
  | count _ => exact ⟨hk, by simp [Core.Unheard], by simp, .refl ..⟩
  | win _ _ _ _ happ =>
    refine ⟨hk, fun next mtch hst => ?_, happends happ, .refl ..⟩
    cases hst
    rw [Map.lookup_ofKeys, if_pos hp]
  | stale _ => exact ⟨hk, hu, hsingle trivial, .refl ..⟩
  | mismatch _ => exact ⟨hk, unheard_stepDown rfl, hsingle trivial, .refl ..⟩
  | @accept q ci pi pt es log commit applied apps drops _ _ hacc =>
    obtain ⟨hci, -⟩ := hrecv _ _ rfl
    rcases hacc.advanced with ⟨-, rfl, rfl, rfl⟩ | ⟨-, rfl, rfl, -, happ⟩
    · exact ⟨hk, unheard_stepDown rfl, hsingle trivial, [], rfl, by simp⟩
    · have hle := min_le_of_left_le (c := log.inner.length) hci
      exact ⟨hle, unheard_stepDown rfl, hsingle trivial, .of_applies happ hle⟩
  | @retreat q T i next mtch ni fresh hst hni happ =>
    refine ⟨hk, fun next' mtch' hst' => ?_, happends happ, .refl ..⟩
    cases hst'
    exact hu next mtch hst
  | @ack q T next mtch ni commit applied apps i hst hni hmi hi hc =>
    obtain ⟨-, hq⟩ := hrecv _ _ rfl
    have hlookup : (mtch.insert q (some i)).lookup p = some none := by
      rw [AList.lookup_insert_ne (hq rfl).symm]
      exact hu next mtch hst
    rcases hc with ⟨rfl, rfl, rfl⟩ | ⟨values, n, e, hvalues, -⟩
    · refine ⟨hk, fun next' mtch' hst' => ?_, by simp, [], rfl, by simp⟩
      cases hst'
      exact hlookup
    · -- The match index of `p` is among the values.
      have hmem : none ∈ Map.values (mtch.insert q (some i)) :=
        List.mem_map.mpr ⟨_, AList.mem_lookup_iff.mp hlookup, rfl⟩
      rw [eq_map_some_of_mapM hvalues] at hmem
      obtain ⟨v, -, hv⟩ := List.mem_map.mp hmem
      cases hv
  | append _ _ => exact ⟨hk, hu, by simp, .refl ..⟩

end Move

namespace Cluster

variable {cfg : Config NodeID} {c c₀ c' : Cluster NodeID Cmd} {i p : NodeID} {b : ℕ}

/-- No node and no message tells of a commit index above `b`. -/
structure CommitsWithin (cfg : Config NodeID) (b : ℕ) (c : Cluster NodeID Cmd) : Prop where
  node : ∀ i ∈ cfg.ids, upTo (c.nodes i).state.c.commitIndex ≤ b
  sent : ∀ e ∈ c.network, e.body.CommitsWithin b
  pending : ∀ i ∈ cfg.ids, ∀ x ∈ (c.nodes i).pending, x.2.wire.CommitsWithin b

/-- No leader has heard from `p`, or is about to. -/
structure Unheard (cfg : Config NodeID) (p : NodeID) (c : Cluster NodeID Cmd) : Prop where
  leader : ∀ i ∈ cfg.ids, i ≠ p → (c.nodes i).state.core.Unheard p
  handling : ∀ i ∈ cfg.ids, i ≠ p → ∀ m, (c.nodes i).raftLoop = .stepped p m → m.isAck = false

/-- Node `p` does nothing, and nobody receives a success from it. -/
def Silent (p : NodeID) (_ : Cluster NodeID Cmd) (l : Label NodeID Cmd) : Prop :=
  l.1 ≠ p ∧ match l.2 with
    | .receive q m => m.isAck = true → q ≠ p
    | _ => True

instance (p : NodeID) (c : Cluster NodeID Cmd) (l : Label NodeID Cmd) : Decidable (Silent p c l) :=
  match l with
  | (i, .receive q m) => inferInstanceAs (Decidable (i ≠ p ∧ (m.isAck = true → q ≠ p)))
  | (i, .election _) | (i, .replicate _) | (i, .handle _) | (i, .snapshot) | (i, .persist _)
  | (i, .respond) | (i, .clientRequest _) | (i, .clientAppend) | (i, .clientReplicate _)
  | (i, .crash) => inferInstanceAs (Decidable (i ≠ p ∧ True))

/-- What a silent node `p` keeps the others from, since `c₀`. -/
structure Stalled (cfg : Config NodeID) (p : NodeID) (b : ℕ) (c₀ c : Cluster NodeID Cmd) :
    Prop where
  wf : c.WellFormed cfg
  within : c.CommitsWithin cfg b
  unheard : c.Unheard cfg p
  applied : ∀ i, AppliedWithin b (c₀.nodes i).history.applied (c.nodes i).history.applied

variable [DecidableEq Cmd]

theorem Stalled.step {a : Action NodeID Cmd} (H : Stalled cfg p b c₀ c) (hp : p ∈ cfg.ids)
    (hP : Silent p c (i, a)) (hs : c.step cfg (i, a) = .ok c') : Stalled cfg p b c₀ c' := by
  have hwf := H.wf.step hs
  obtain ⟨hi, -, n, msgs, hn, rfl⟩ := step_eq_ok hs
  have hne : i ≠ p := hP.1
  have hhandling : ∀ m, n.raftLoop = .stepped p m → m.isAck = false := by
    intro m hm
    rcases Node.step_stepped hn hm with ⟨hold, -⟩ | ⟨rfl, -⟩
    · exact H.unheard.handling i hi hne m hold
    · exact Bool.eq_false_iff.mpr fun hack => hP.2 hack rfl
  have hself : n.state.core.commit ≤ b ∧ n.state.core.Unheard p ∧
      (∀ x, x ∈ n.pending ∨ x ∈ msgs → x.2.wire.CommitsWithin b) ∧
      AppliedWithin b (c.nodes i).history.applied n.history.applied := by
    by_cases ha : a = .crash
    · subst ha
      simp only [Node.step, Except.pure_eq_ok_iff, Prod.mk.injEq] at hn
      obtain ⟨rfl, rfl⟩ := hn
      exact ⟨Nat.zero_le b, by simp [Core.Unheard, State.core, State.new, Role.stance],
        by simp [Node.pending], .refl ..⟩
    · obtain ⟨recv, fresh, hm, hrecv, hout⟩ := Node.step_move H.wf.ready hn ha
      have hpeer : p ∈ (c.nodes i).state.core.peers := by
        rw [show (c.nodes i).state.core.peers = _ from H.wf.peers i, Config.peers]
        exact List.mem_filter.mpr ⟨hp, by simpa using hne.symm⟩
      obtain ⟨hcommit, hunheard, hfresh, happlied⟩ := hm.stalls (b := b)
        (H.within.node i hi) (H.unheard.leader i hi hne) hpeer fun q m hqm => by
          have hloop := (hrecv q m hqm).1
          refine ⟨H.within.sent _ (H.wf.handles (hrecv q m hqm)), ?_⟩
          rintro hack rfl
          rw [H.unheard.handling i hi hne m hloop] at hack
          cases hack
      refine ⟨hcommit, hunheard, fun x hx => ?_, happlied⟩
      exact (hout x hx).elim (H.within.pending i hi x) (hfresh _)
  obtain ⟨hcommit, hunheard, hout, happlied⟩ := hself
  refine ⟨hwf, ⟨fun j hj => ?_, fun e he => ?_, fun j hj x hx => ?_⟩,
    ⟨fun j hj hjp => ?_, fun j hj hjp m hm => ?_⟩, fun j => ?_⟩
  · by_cases hji : j = i
    · subst hji
      rw [update_self]
      exact hcommit
    · rw [update_of_ne hji]
      exact H.within.node j hj
  · rcases mem_update.mp he with he | ⟨x, hx, rfl⟩
    · exact H.within.sent e he
    · exact hout x (.inr hx)
  · by_cases hji : j = i
    · subst hji
      rw [update_self] at hx
      exact hout x (.inl hx)
    · rw [update_of_ne hji] at hx
      exact H.within.pending j hj x hx
  · by_cases hji : j = i
    · subst hji
      rw [update_self]
      exact hunheard
    · rw [update_of_ne hji]
      exact H.unheard.leader j hj hjp
  · by_cases hji : j = i
    · subst hji
      rw [update_self] at hm
      exact hhandling m hm
    · rw [update_of_ne hji] at hm
      exact H.unheard.handling j hj hjp m hm
  · by_cases hji : j = i
    · subst hji
      rw [update_self]
      exact (H.applied j).trans happlied
    · rw [update_of_ne hji]
      exact H.applied j

/-- As long as node `p` is silent, and no leader had heard from it before, no commit index exceeds
what was known before, and nothing is applied beyond that. -/
theorem silence_stalls {P : Cluster NodeID Cmd → Label NodeID Cmd → Prop}
    (hrun : Run (step cfg) P (boot cfg) c) (hp : p ∈ cfg.ids) (hb : c.CommitsWithin cfg b)
    (hu : c.Unheard cfg p) (hrun' : Run (step cfg) (Silent p) c c') :
    c'.CommitsWithin cfg b ∧
      ∀ i, AppliedWithin b (c.nodes i).history.applied (c'.nodes i).history.applied := by
  have hwf : c.WellFormed cfg :=
    Run.invariant hrun .boot fun _ _ _ hwf _ hs => WellFormed.step hwf hs
  have H : Stalled cfg p b c c' := by
    refine Run.invariant hrun' ⟨hwf, hb, hu, fun i => .refl b _⟩ ?_
    rintro c₁ ⟨i, a⟩ c₂ H hP hs
    exact H.step hp hP hs
  exact ⟨H.within, H.applied⟩

omit [DecidableEq Cmd] in
/-- In a cluster that has just been booted nothing is committed. -/
theorem commitsWithin_boot : (boot cfg : Cluster NodeID Cmd).CommitsWithin cfg 0 where
  node _ _ := le_rfl
  sent := by simp [boot]
  pending := by simp [boot, Node.boot, Node.pending]

omit [DecidableEq Cmd] in
theorem unheard_boot : (boot cfg : Cluster NodeID Cmd).Unheard cfg p where
  leader i _ _ := by simp [Core.Unheard, boot, Node.boot, State.core, State.new, Role.stance]
  handling i _ _ := by simp [boot, Node.boot]

end Cluster

namespace Example

open Cluster

/-- `a` is elected by `b` and replicates command 7 to it, and `c` is down. -/
def minority : List (Label String ℕ) :=
  List.flatten [
    elected,
    [("a", .clientRequest 7), ("a", .clientAppend), ("a", .clientReplicate (at_ 100000000))],
    deliver "b" "a" (.appendEntries 1 none none none ⟨[⟨7, 1⟩]⟩),
    deliver "a" "b" (.appendEntriesResponse 1 (some 1) true)]

/-- Two of three nodes have command 7, the leader knows it, and nothing is committed. -/
theorem silence_stalls_minority : ∃ c, Run (step three) (Silent "c") (boot three) c ∧
    leads c = (true, 1) ∧ matchIndex c "a" "b" = some (some 1) ∧
    c.CommitsWithin three 0 := by
  have hexec : (Run.exec (step three) (fun c l => decide (Silent "c" c l)) minority
      (boot three)).map (fun c => (leads c, matchIndex c "a" "b")) =
      some ((true, 1), some (some 1)) := by
    decide +kernel
  obtain ⟨c, hrun, hc⟩ := Run.exists_of_exec hexec fun _ _ => of_decide_eq_true
  obtain ⟨hlead, hmatch⟩ := Prod.mk.inj hc
  exact ⟨c, hrun, hlead, hmatch, (silence_stalls (P := Silent "c") .refl (by decide)
    commitsWithin_boot unheard_boot hrun).1⟩

end Example

end Miniraft

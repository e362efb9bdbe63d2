import Miniraft.Verify.Replication

/-!
# Where log entries come from

Every entry in a log or in a message goes back to a call of `State::append`, at its index. If the
calls are only made at leaders, every entry was created by a leader of its term
(`Cluster.entry_origin`).
-/

namespace Miniraft

open Consensus Cluster

variable {NodeID Cmd : Type} [DecidableEq NodeID] [Wire Cmd]

/-- Entry `e`, with `n` entries below it, was appended by a node of the cluster, as a leader. -/
def Created (cfg : Config NodeID) (g : NodeID → List (Creation Cmd)) (n : ℕ) (e : LogEntry Cmd) :
    Prop :=
  ∃ j ∈ cfg.ids, ∃ x ∈ g j, x.byLeader = true ∧ x.position = n ∧ x.entry.wire = e.wire

/-- The entries of all logs and messages were created by leaders; the ghost state is what each node
has created. -/
def origin (cfg : Config NodeID) : Family (NodeID → List (Creation Cmd)) NodeID Cmd where
  node g i k h := g i = h.created ∧
    ∀ {n e}, k.log.inner[n]? = some e → Created cfg g n e
  msg g env := match env.body with
    | .appendEntries _ _ prevLogIndex _ entries =>
      ∀ {n e}, entries.inner[n]? = some e → Created cfg g (upTo prevLogIndex + n) e
    | _ => True

namespace origin

variable {cfg : Config NodeID} {g g' : NodeID → List (Creation Cmd)} {i : NodeID}
  {k k' : Core NodeID Cmd} {h h' : History NodeID Cmd} {a : Action NodeID Cmd}
  {recv : Option (NodeID × RaftMessage Cmd)} {fresh : Outgoing NodeID Cmd}

omit [DecidableEq NodeID] in
theorem created_mono (hle : ∀ j, g j ⊆ g' j) {n : ℕ} {e : LogEntry Cmd} (hc : Created cfg g n e) :
    Created cfg g' n e := by
  obtain ⟨j, hj, x, hx, h⟩ := hc
  exact ⟨j, hj, x, hle j hx, h⟩

omit [DecidableEq NodeID] in
theorem answers_of_le (hle : ∀ j, g j ⊆ g' j) (honly : ∀ j, j ≠ i → g' j = g j)
    (hnode : (origin cfg).node g' i k' h') (hfresh : ∀ x ∈ fresh, (origin cfg).msg g' ⟨i, x.1, x.2⟩) :
    (origin cfg).Answers g g' i k' h' fresh where
  node := hnode
  fresh := hfresh
  frame hj hn := ⟨(honly _ hj).trans hn.1, fun he => created_mono hle (hn.2 he)⟩
  sent {env} hm := by
    revert hm
    simp only [origin]
    split
    · exact fun hm _ _ he => created_mono hle (hm he)
    · exact id

theorem msg_appends {next : Map NodeID LogIndex} {x : NodeID × RaftMessage Cmd}
    (hn : (origin cfg).node g i k h) (hx : k.Appends next x) : (origin cfg).msg g ⟨i, x.1, x.2⟩ := by
  obtain ⟨ni, ci, -, -, hbody⟩ := hx.body
  simp only [origin, hbody]
  intro n e he
  rw [List.getElem?_drop] at he
  simpa using hn.2 he

/-- Every move is answered, if commands are only appended at leaders. -/
theorem answer (hm : Move a k h recv k' h' fresh) (ha : a = .clientAppend → k.stance.IsLeader)
    (hi : i ∈ cfg.ids) (hn : (origin cfg).node g i k h)
    (hrecv : ∀ p m, recv = some (p, m) → (origin cfg).msg g ⟨p, i, m⟩) :
    ∃ g', (origin cfg).Answers g g' i k' h' fresh := by
  have hself : ∀ {k' : Core NodeID Cmd} {h' : History NodeID Cmd} {fresh : Outgoing NodeID Cmd},
      (origin cfg).node g i k' h' → (∀ x ∈ fresh, (origin cfg).msg g ⟨i, x.1, x.2⟩) →
      ∃ g', (origin cfg).Answers g g' i k' h' fresh :=
    fun hk hf => ⟨g, answers_of_le (fun _ _ hx => hx) (fun _ _ => rfl) hk hf⟩
  cases hm with
  | quiet | stepDown _ | count _ | ack _ _ _ _ _ => exact hself hn (by simp)
  | stand _ _ =>
    refine hself hn fun x hx => ?_
    obtain ⟨p, -, rfl⟩ := List.mem_map.mp hx
    trivial
  | replicate _ happ | retreat _ _ happ | win _ _ _ _ happ =>
    exact hself hn fun x hx => msg_appends hn (happ x hx)
  | refuse | grant _ _ _ _ | stale _ | mismatch _ =>
    refine hself hn fun x hx => ?_
    obtain rfl := List.mem_singleton.mp hx
    trivial
  | @accept p ci pi pt es log commit applied apps drops hlead hne hacc =>
    have hmsg : ∀ {n e}, es.inner[n]? = some e → Created cfg g (upTo pi + n) e := hrecv p _ rfl
    refine hself ⟨hn.1, fun {n e} he => ?_⟩ fun x hx => ?_
    · rcases hacc.spliced with ⟨-, rfl, -⟩ | ⟨hle, hsplice, -⟩
      · exact hn.2 he
      · rw [show log.inner = _ from hsplice] at he
        rcases getElem?_splice hle he with he | ⟨hge, he⟩
        · exact hn.2 he
        · simpa [Nat.add_sub_of_le hge] using hmsg he
    · obtain rfl := List.mem_singleton.mp hx
      trivial
  | @append cmd byLeader hact hlead =>
    let x : Creation Cmd := ⟨k.log.inner.length, ⟨cmd, k.term⟩, byLeader⟩
    refine ⟨Function.update g i (x :: g i), answers_of_le ?_ ?_ ⟨?_, ?_⟩ (by simp)⟩
    · intro j y hy
      by_cases hj : j = i
      · subst hj
        simpa using .inr hy
      · simpa [hj] using hy
    · intro j hj
      simp [hj]
    · simp [hn.1, x]
    · intro n e he
      rcases Nat.lt_or_ge n k.log.inner.length with hlt | hge
      · rw [show (k.log.append _).inner[n]? = _ from List.getElem?_append_left hlt] at he
        refine created_mono (fun j y hy => ?_) (hn.2 he)
        by_cases hj : j = i
        · subst hj
          simpa using .inr hy
        · simpa [hj] using hy
      · rw [show (k.log.append _).inner[n]? = _ from List.getElem?_append_right hge] at he
        obtain ⟨h0, rfl⟩ := List.getElem?_eq_some_iff.mp he
        have hlen : k.log.inner.length = n := by
          simp only [List.length_singleton] at h0
          omega
        refine ⟨i, hi, x, by simp, hlead.mpr (ha hact), hlen, ?_⟩
        simp [x, LogEntry.wire, wire_wire]

theorem holds_boot (cfg : Config NodeID) :
    (origin cfg).Holds cfg (fun _ => []) (boot cfg : Cluster NodeID Cmd) where
  wf := .boot
  node _ _ := ⟨rfl, by simp [boot, Node.boot, State.new, State.core, Persistent.default, Log.wire]⟩
  sent := by simp [boot]
  pending := by simp [boot, Node.boot, Node.pending]

end origin

namespace Cluster

variable [DecidableEq Cmd] {cfg : Config NodeID} {c c' : Cluster NodeID Cmd}

/-- Every entry in a log was created by `State::append` on a node that was leader at that moment.
The entry has the term of the node at that moment, so the node was leader of the entry's term. -/
def EntriesByLeaders (cfg : Config NodeID) (c : Cluster NodeID Cmd) : Prop :=
  ∀ i ∈ cfg.ids, ∀ idx e, (c.nodes i).state.c.log.get idx = some e →
    ∃ j ∈ cfg.ids, ∃ x ∈ (c.nodes j).history.created,
      x.byLeader = true ∧ x.position = idx.natPred ∧ x.entry.wire = e.wire

theorem entry_origin
    (hrun : Run (step cfg) (fun c l => CrashFree c l ∧ AppendsAsLeader c l) (boot cfg) c) :
    EntriesByLeaders cfg c := by
  have hholds : ∃ g, (origin cfg).Holds cfg g c := by
    refine Run.invariant (I := fun c => ∃ g, (origin cfg).Holds cfg g c) hrun
      ⟨_, origin.holds_boot cfg⟩ fun c l c' H hl hs => ?_
    obtain ⟨g, H⟩ := H
    obtain ⟨i, a⟩ := l
    obtain ⟨g', -, H'⟩ := H.step (R := fun _ _ => True) hs hl.1.ne fun hm hi _ _ hrecv => by
      obtain ⟨g', hg'⟩ := origin.answer hm hl.2.isLeader hi (H.node i hi)
        fun p m hpm => (hrecv p m hpm).2.2
      exact ⟨g', trivial, hg'⟩
    exact ⟨g', H'⟩
  obtain ⟨g, H⟩ := hholds
  intro i hi idx e he
  have hget : (c.nodes i).state.c.log.wire.inner[idx.natPred]? = some e.wire :=
    (Log.get_wire ..).trans (by rw [he]; rfl)
  obtain ⟨j, hj, x, hx, hlead, hpos, hentry⟩ := (H.node i hi).2 hget
  refine ⟨j, hj, x, ?_, hlead, hpos, by rw [hentry, LogEntry.wire_wire]⟩
  rw [← (H.node j hj).1]
  exact hx

end Cluster

namespace Example

/-- Command 7 was appended by the leader `a`, also as far as the log of `b` is concerned. -/
theorem entry_origin_replicated : ∃ c, Run (step pair)
    (fun c l => CrashFree c l ∧ AppendsAsLeader c l) (boot pair) c ∧
    logs c = ([⟨7, 1⟩], [⟨7, 1⟩]) ∧ EntriesByLeaders pair c := by
  have hexec : (Run.exec (step pair) (fun c l => decide (CrashFree c l ∧ AppendsAsLeader c l))
      replicated (boot pair)).map logs = some ([⟨7, 1⟩], [⟨7, 1⟩]) := by
    decide +kernel
  obtain ⟨c, hrun, hc⟩ := Run.exists_of_exec hexec fun _ _ => of_decide_eq_true
  exact ⟨c, hrun, hc, entry_origin hrun⟩

/-- Between the check of the client loop of `a` and its append, `a` steps down to term 2. -/
def deposed : List (Label String ℕ) :=
  elected ++ [("a", .clientRequest 7), ("b", .election (at_ 1000)),
    ("a", .receive "b" (.requestVote 2 none none)), ("a", .clientAppend)]

theorem entry_origin_deposed : ¬ ∀ c : Cluster String ℕ,
    Run (step pair) CrashFree (boot pair) c → EntriesByLeaders pair c := by
  intro hall
  have hexec : (Run.exec (step pair) crashFree deposed (boot pair)).map (fun c =>
      ((c.nodes "a").state.c.log.get 1, (c.nodes "a").history.created,
        (c.nodes "b").history.created)) = some (some ⟨7, 2⟩, [⟨0, ⟨7, 2⟩, false⟩], []) := by
    decide +kernel
  obtain ⟨c, hrun, hc⟩ := Run.exists_of_exec hexec fun _ _ => of_decide_eq_true
  simp only [Prod.mk.injEq] at hc
  obtain ⟨hlog, ha, hb⟩ := hc
  obtain ⟨j, hj, x, hx, hlead, -⟩ := hall c hrun "a" (by decide) 1 _ hlog
  simp only [pair, List.mem_cons, List.not_mem_nil, or_false] at hj
  rcases hj with rfl | rfl
  · rw [ha, List.mem_singleton] at hx
    rw [hx] at hlead
    cases hlead
  · rw [hb] at hx
    cases hx

end Example

end Miniraft

import Miniraft.Std.Prefix
import Miniraft.Verify.Durability

/-!
# What is acknowledged is in the file

The Raft-message loop handles a message, takes a snapshot of the state, writes it and sends its
responses, and the lock is released in between. Whatever the other threads do meanwhile, and
whether or not nodes crash or writes fail, the file covers every response at the time it is sent
(`Cluster.acknowledged_is_stored`).
-/

namespace Miniraft

open Consensus

variable {NodeID Cmd : Type} [Wire Cmd]

/-- The persistence file covers a response of a handler that left the log `log`. The file holds
commands without their reply fields. -/
def Persistent.Covers (p : Persistent NodeID Cmd) (log : Log Cmd) :
    NodeID × RaftMessage Cmd → Prop
  | (candidate, .requestVoteResponse T true) =>
    T < p.currentTerm ∨ p.currentTerm = T ∧ p.votedFor = some candidate
  | (_, .appendEntriesResponse _ (some index) true) =>
    index ≤ p.log.inner.length ∧ p.log.inner.take index = log.wire.inner.take index
  | _ => True

/-- A ballot and a log account for the responses of a handler of node `i` that left the log
`log`. -/
structure Secures (i : NodeID) (b : Ballot NodeID) (l log : Log Cmd)
    (responses : Outgoing NodeID Cmd) : Prop where
  knows : ∀ x ∈ responses, Knows b ⟨i, x.1, x.2.wire⟩
  kept : log.inner <+: l.inner
  reported : ∀ x ∈ responses, ∀ T index, x.2 = .appendEntriesResponse T index true →
    upTo index = log.inner.length

variable {i : NodeID} {b b' : Ballot NodeID} {l l' log : Log Cmd} {responses : Outgoing NodeID Cmd}

theorem Secures.mono (H : Secures i b l log responses) (hb : b.Le b') (hl : l.inner <+: l'.inner) :
    Secures i b' l' log responses :=
  ⟨fun x hx => (H.knows x hx).mono hb, H.kept.trans hl, H.reported⟩

theorem Secures.covers {p : Persistent NodeID Cmd} {log : Log Cmd}
    (H : Secures i p.ballot p.log log.wire responses) {x : NodeID × RaftMessage Cmd}
    (hx : x ∈ responses) : p.Covers log x := by
  obtain ⟨candidate, m⟩ := x
  cases m with
  | appendEntries _ _ _ _ _ => trivial
  | requestVote _ _ _ => trivial
  | requestVoteResponse T granted =>
    cases granted with
    | false => trivial
    | true =>
      obtain ⟨hle, hadmits⟩ := H.knows _ hx
      rcases Nat.lt_or_eq_of_le hle with hlt | heq
      · exact .inl hlt
      · exact .inr ⟨heq.symm, hadmits candidate rfl heq⟩
  | appendEntriesResponse T index success =>
    cases success with
    | false => cases index <;> trivial
    | true =>
      cases index with
      | none => trivial
      | some index =>
        have hlen : (index : ℕ) = log.wire.inner.length := H.reported _ hx T _ rfl
        have hle := H.kept.length_le
        exact ⟨by omega, H.kept.take_eq hlen.le⟩

namespace Move

variable [DecidableEq NodeID] {a : Action NodeID Cmd} {k k' : Core NodeID Cmd}
  {h h' : History NodeID Cmd} {recv : Option (NodeID × RaftMessage Cmd)}
  {fresh : Outgoing NodeID Cmd}

/-- Only the handling of a message can shorten a log. -/
theorem log_prefix (hm : Move a k h none k' h' fresh) : k.log.inner <+: k'.log.inner := by
  cases hm with
  | append _ _ => exact List.prefix_append ..
  | _ => exact List.prefix_refl _

/-- A successful response to AppendEntries reports the length of the log. -/
theorem fresh_reported (hm : Move a k h recv k' h' fresh) {x : NodeID × RaftMessage Cmd}
    (hx : x ∈ fresh) {T : Term} {index : Option LogIndex}
    (hbody : x.2 = .appendEntriesResponse T index true) : upTo index = k'.log.inner.length := by
  have happends : ∀ {next}, k.Appends next x → upTo index = k'.log.inner.length := by
    intro next hx
    obtain ⟨ni, ci, -, -, hx⟩ := hx.body
    rw [hbody] at hx
    cases hx
  cases hm with
  | quiet | stepDown _ | count _ | ack _ _ _ _ _ | append _ _ => cases hx
  | stand _ _ =>
    obtain ⟨p, -, rfl⟩ := List.mem_map.mp hx
    cases hbody
  | replicate _ happ | retreat _ _ happ | win _ _ _ _ happ => exact happends (happ x hx)
  | refuse | grant _ _ _ _ | stale _ | mismatch _ =>
    obtain rfl := List.mem_singleton.mp hx
    cases hbody
  | accept _ _ _ =>
    obtain rfl := List.mem_singleton.mp hx
    cases hbody
    exact Log.upTo_highestIndex _

end Move

namespace Node

variable [DecidableEq NodeID] {n n' : Node NodeID Cmd} {a : Action NodeID Cmd}
  {msgs : Outgoing NodeID Cmd} {clk : Clock}

/-- What the responses a node holds back rest on: the state before the snapshot, then the snapshot
and, once it is written, the file. -/
def Secured (i : NodeID) (log : Log Cmd) (responses : Outgoing NodeID Cmd)
    (n : Node NodeID Cmd) : Prop :=
  match n.raftLoop with
  | .handled rs => rs = responses ∧ Secures i n.state.core.ballot n.state.core.log log responses
  | .snapshotted p rs => rs = responses ∧ Secures i p.ballot p.log.wire log responses
  | .persisted rs => rs = responses ∧ Secures i n.stored.ballot n.stored.log log responses
  | .idle | .stepped .. => True

omit [Wire Cmd] in
theorem log_of_persistent {s : State NodeID Cmd} {p : Persistent NodeID Cmd}
    (hs : s.persistent = .ok p) : p.log = s.c.log := by
  unfold State.persistent at hs
  split at hs
  · cases hs; rfl
  · split at hs
    · simp at hs
    · cases hs; rfl
  · cases hs; rfl

/-- After the handler the responses rest on the state. -/
theorem secured_handle (hid : n.state.c.id = i) (hready : n.Ready)
    (hs : n.step (.handle clk) = .ok (n', msgs)) : ∃ responses, n'.raftLoop = .handled responses ∧
      n'.Secured i n'.state.c.log.wire responses := by
  obtain ⟨recv, fresh, hm, -, hout⟩ := step_move hready hs (by simp)
  simp only [step] at hs
  split at hs
  · next p m hloop =>
    simp only [Except.bind_eq_ok_iff, Except.pure_eq_ok_iff, Prod.mk.injEq, Prod.exists] at hs
    obtain ⟨s', responses, effects, -, rfl, rfl⟩ := hs
    have hfresh : ∀ x ∈ responses, (x.1, x.2.wire) ∈ fresh := by
      intro x hx
      rcases hout x (.inl hx) with hx | hx
      · simp [pending, hloop] at hx
      · exact hx
    refine ⟨responses, rfl, rfl, fun x hx => ?_, List.prefix_refl _, fun x hx T index hbody => ?_⟩
    · exact hid ▸ (hm.fresh_known (hfresh x hx)).2
    · exact hm.fresh_reported (hfresh x hx) (T := T) (by simp [hbody, RaftMessage.wire])
  · simp at hs

/-- A thread other than the Raft-message loop keeps what the responses rest on. -/
theorem Secured.move {h h' : History NodeID Cmd} {fresh : Outgoing NodeID Cmd} {log : Log Cmd}
    (H : n.Secured i log responses) (hm : Move a n.state.core h none n'.state.core h' fresh)
    (hloop : n'.raftLoop = n.raftLoop) (hstored : n'.stored = n.stored) :
    n'.Secured i log responses := by
  unfold Secured at H ⊢
  rw [hloop, hstored]
  cases hn : n.raftLoop with
  | handled rs =>
    simp only [hn] at H
    exact ⟨H.1, H.2.mono hm.ballot_le hm.log_prefix⟩
  | snapshotted _ _ | persisted _ =>
    simp only [hn] at H
    exact H
  | idle | stepped _ _ => trivial

/-- Until the next message is received, a step keeps what the responses rest on. -/
theorem Secured.step {log : Log Cmd} (H : n.Secured i log responses) (hready : n.Ready)
    (hs : n.step a = .ok (n', msgs)) (hrecv : ∀ p m, a ≠ .receive p m)
    (hhandle : ∀ clk, a ≠ .handle clk) (ha : a ≠ .crash) : n'.Secured i log responses := by
  obtain ⟨recv, fresh, hm, hhandles, -⟩ := step_move hready hs ha
  obtain rfl : recv = none := by
    cases recv with
    | none => rfl
    | some x =>
      obtain ⟨-, clk, rfl⟩ := hhandles x.1 x.2 rfl
      exact absurd rfl (hhandle clk)
  cases a with
  | election clk | replicate clk =>
    simp only [Node.step, Except.bind_eq_ok_iff, Except.pure_eq_ok_iff, Prod.mk.injEq] at hs
    obtain ⟨_, -, rfl, -⟩ := hs
    exact H.move hm rfl rfl
  | clientRequest _ | clientAppend =>
    simp only [Node.step] at hs
    split at hs
    · simp only [Except.pure_eq_ok_iff, Prod.mk.injEq] at hs
      obtain ⟨rfl, -⟩ := hs
      exact H.move hm rfl rfl
    · simp at hs
  | clientReplicate clk =>
    simp only [Node.step] at hs
    split at hs
    · simp only [Except.bind_eq_ok_iff, Except.pure_eq_ok_iff, Prod.mk.injEq] at hs
      obtain ⟨_, -, rfl, -⟩ := hs
      exact H.move hm rfl rfl
    · simp at hs
  | receive p m => exact absurd rfl (hrecv p m)
  | handle clk => exact absurd rfl (hhandle clk)
  | snapshot =>
    simp only [Node.step] at hs
    split at hs
    · next rs hloop =>
      simp only [Except.bind_eq_ok_iff, Except.pure_eq_ok_iff, Prod.mk.injEq, locked_eq_ok] at hs
      obtain ⟨p, hp, rfl, -⟩ := hs
      simp only [Secured, hloop] at H ⊢
      rw [ballot_of_persistent hp, log_of_persistent hp]
      exact H
    · simp at hs
  | persist ok =>
    simp only [Node.step] at hs
    split at hs
    · next p rs hloop =>
      split at hs
      · simp only [Except.pure_eq_ok_iff, Prod.mk.injEq] at hs
        obtain ⟨rfl, -⟩ := hs
        simp only [Secured, hloop] at H ⊢
        exact H
      · simp only [Except.pure_eq_ok_iff, Prod.mk.injEq] at hs
        obtain ⟨rfl, -⟩ := hs
        trivial
    · simp at hs
  | respond =>
    simp only [Node.step] at hs
    split at hs
    · simp only [Except.pure_eq_ok_iff, Prod.mk.injEq] at hs
      obtain ⟨rfl, -⟩ := hs
      trivial
    · simp at hs
  | crash => exact absurd rfl ha

/-- The responses of the current round of the Raft-message loop, once there are any. -/
def holding (n : Node NodeID Cmd) : Option (Outgoing NodeID Cmd) :=
  match n.raftLoop with
  | .handled rs | .snapshotted _ rs | .persisted rs => some rs
  | .idle | .stepped .. => none

/-- Responses come from the handler and stay until they are sent. -/
theorem step_holding (hs : n.step a = .ok (n', msgs)) (hn : n'.holding = some responses) :
    (∃ clk, a = .handle clk) ∨ a ≠ .crash ∧ (∀ p m, a ≠ .receive p m) ∧
      n.holding = some responses := by
  cases a with
  | election clk | replicate clk =>
    simp only [step, Except.bind_eq_ok_iff, Except.pure_eq_ok_iff, Prod.mk.injEq] at hs
    obtain ⟨_, -, rfl, -⟩ := hs
    exact .inr ⟨by simp, by simp, hn⟩
  | clientRequest _ | clientAppend =>
    simp only [step] at hs
    split at hs
    · simp only [Except.pure_eq_ok_iff, Prod.mk.injEq] at hs
      obtain ⟨rfl, -⟩ := hs
      exact .inr ⟨by simp, by simp, hn⟩
    · simp at hs
  | clientReplicate clk =>
    simp only [step] at hs
    split at hs
    · simp only [Except.bind_eq_ok_iff, Except.pure_eq_ok_iff, Prod.mk.injEq] at hs
      obtain ⟨_, -, rfl, -⟩ := hs
      exact .inr ⟨by simp, by simp, hn⟩
    · simp at hs
  | receive p m =>
    simp only [step] at hs
    split at hs
    · simp only [Except.bind_eq_ok_iff, Except.pure_eq_ok_iff, Prod.mk.injEq] at hs
      obtain ⟨_, -, rfl, -⟩ := hs
      cases hn
    · simp at hs
  | handle clk => exact .inl ⟨clk, rfl⟩
  | snapshot =>
    simp only [step] at hs
    split at hs
    · next rs hloop =>
      simp only [Except.bind_eq_ok_iff, Except.pure_eq_ok_iff, Prod.mk.injEq] at hs
      obtain ⟨_, -, rfl, -⟩ := hs
      exact .inr ⟨by simp, by simp, by simpa [holding, hloop] using hn⟩
    · simp at hs
  | persist ok =>
    simp only [step] at hs
    split at hs
    · next p rs hloop =>
      split at hs
      · simp only [Except.pure_eq_ok_iff, Prod.mk.injEq] at hs
        obtain ⟨rfl, -⟩ := hs
        exact .inr ⟨by simp, by simp, by simpa [holding, hloop] using hn⟩
      · simp only [Except.pure_eq_ok_iff, Prod.mk.injEq] at hs
        obtain ⟨rfl, -⟩ := hs
        cases hn
    · simp at hs
  | respond =>
    simp only [step] at hs
    split at hs
    · simp only [Except.pure_eq_ok_iff, Prod.mk.injEq] at hs
      obtain ⟨rfl, -⟩ := hs
      cases hn
    · simp at hs
  | crash =>
    simp only [step, Except.pure_eq_ok_iff, Prod.mk.injEq] at hs
    obtain ⟨rfl, -⟩ := hs
    cases hn

end Node

namespace Cluster

variable [DecidableEq NodeID] [DecidableEq Cmd] {cfg : Config NodeID} {c c' : Cluster NodeID Cmd}

/-- The Raft-message loop of node `i` does not receive a message, and the node does not crash. -/
def SameRound (i : NodeID) (_ : Cluster NodeID Cmd) (l : Label NodeID Cmd) : Prop :=
  l.1 = i → l.2 ≠ .crash ∧ ∀ p m, l.2 ≠ .receive p m

/-- The handler of node `i` was done in the state `c₁` of the current round of its Raft-message
loop. -/
structure HandledIn (cfg : Config NodeID) (i : NodeID) (responses : Outgoing NodeID Cmd)
    (c₁ c : Cluster NodeID Cmd) : Prop where
  handler : ∃ c₀ clk, Run (step cfg) (fun _ _ => True) (boot cfg) c₀ ∧
    c₀.step cfg (i, .handle clk) = .ok c₁
  produced : (c₁.nodes i).raftLoop = .handled responses
  round : Run (step cfg) (SameRound i) c₁ c

/-- The responses that node `i` holds back are secured. -/
def Acknowledges (cfg : Config NodeID) (c : Cluster NodeID Cmd) (i : NodeID) : Prop :=
  ∀ responses, (c.nodes i).holding = some responses → ∃ c₁, HandledIn cfg i responses c₁ c ∧
    (c.nodes i).Secured i (c₁.nodes i).state.c.log.wire responses

theorem acknowledges_step {j : NodeID} {a : Action NodeID Cmd} (hwf : c.WellFormed cfg)
    (hrun : Run (step cfg) (fun _ _ => True) (boot cfg) c) (H : Acknowledges cfg c i)
    (hs : c.step cfg (j, a) = .ok c') : Acknowledges cfg c' i := by
  intro responses hholding
  have hround : ∀ {c₁}, SameRound i c (j, a) → HandledIn cfg i responses c₁ c →
      HandledIn cfg i responses c₁ c' :=
    fun hsame h => ⟨h.handler, h.produced, h.round.tail ⟨(j, a), hsame, hs⟩⟩
  obtain ⟨-, -, n, msgs, hn, rfl⟩ := step_eq_ok hs
  rcases eq_or_ne i j with rfl | hij
  · rw [update_self] at hholding ⊢
    rcases Node.step_holding hn hholding with ⟨clk, rfl⟩ | ⟨hcrash, hrecv, hold⟩
    · obtain ⟨rs, hloop, hsec⟩ := Node.secured_handle (hwf.id i) hwf.ready hn
      obtain rfl : rs = responses := by simpa [Node.holding, hloop] using hholding
      refine ⟨_, ⟨⟨c, clk, hrun, hs⟩, ?_, .refl⟩, ?_⟩
      · simpa using hloop
      · simpa using hsec
    · obtain ⟨c₁, hin, hsec⟩ := H responses hold
      have hhandle : ∀ clk, a ≠ .handle clk := by
        rintro clk rfl
        simp only [Node.step] at hn
        split at hn
        · next hloop => simp [Node.holding, hloop] at hold
        · simp at hn
      exact ⟨c₁, hround (fun _ => ⟨hcrash, hrecv⟩) hin,
        hsec.step hwf.ready hn hrecv hhandle hcrash⟩
  · rw [update_of_ne hij] at hholding ⊢
    obtain ⟨c₁, hin, hsec⟩ := H responses hholding
    exact ⟨c₁, hround (fun hji => absurd hji.symm hij) hin, hsec⟩

theorem acknowledges_run (hrun : Run (step cfg) (fun _ _ => True) (boot cfg) c) :
    c.WellFormed cfg ∧ Acknowledges cfg c i := by
  induction hrun with
  | refl =>
    refine ⟨.boot, fun responses h => ?_⟩
    cases h
  | tail hrun hs ih =>
    obtain ⟨⟨j, a⟩, -, hs⟩ := hs
    exact ⟨ih.1.step hs, acknowledges_step ih.1 hrun ih.2 hs⟩

/-- When the Raft-message loop sends its responses, the file covers each of them. -/
theorem acknowledged_is_stored (hrun : Run (step cfg) (fun _ _ => True) (boot cfg) c)
    (hs : c.step cfg (i, .respond) = .ok c') : ∃ c₁ responses, HandledIn cfg i responses c₁ c ∧
      c'.network = c.network ++ responses.map (fun x => ⟨i, x.1, x.2.wire⟩) ∧
      ∀ x ∈ responses, (c.nodes i).stored.Covers (c₁.nodes i).state.c.log x := by
  obtain ⟨-, -, n, msgs, hn, rfl⟩ := step_eq_ok hs
  simp only [Node.step] at hn
  split at hn
  · next responses hloop =>
    simp only [Except.pure_eq_ok_iff, Prod.mk.injEq] at hn
    obtain ⟨rfl, rfl⟩ := hn
    have hholding : (c.nodes i).holding = some responses := by simp [Node.holding, hloop]
    obtain ⟨c₁, hin, hsec⟩ := (acknowledges_run hrun).2 responses hholding
    simp only [Node.Secured, hloop] at hsec
    exact ⟨c₁, responses, hin, rfl, fun x hx => hsec.2.covers hx⟩
  · simp at hn

end Cluster

namespace Example

open Cluster

/-- `b` votes for `a` in term 1 and starts an election of its own before the snapshot is taken. -/
def hurried : List (Label String ℕ) :=
  [("a", .election (at_ 1)), ("b", .receive "a" (.requestVote 1 none none)),
    ("b", .handle (at_ 0)), ("b", .election (at_ 101)), ("b", .snapshot), ("b", .persist true)]

def ballotStored (c : Cluster String ℕ) (i : String) : Term × Option String :=
  ((c.nodes i).stored.currentTerm, (c.nodes i).stored.votedFor)

theorem acknowledged_is_stored_hurried : ∃ c c', Run (step pair) (fun _ _ => True) (boot pair) c ∧
    c.step pair ("b", .respond) = .ok c' ∧ ballotStored c "b" = (2, some "b") ∧
    sent c' "b" = [("a", .requestVote 2 none none), ("a", .requestVoteResponse 1 true)] ∧
    ∃ c₁ responses, HandledIn pair "b" responses c₁ c ∧
      c'.network = c.network ++ responses.map (fun x => ⟨"b", x.1, x.2.wire⟩) ∧
      ∀ x ∈ responses, (c.nodes "b").stored.Covers (c₁.nodes "b").state.c.log x := by
  have hexec : ((Run.exec (step pair) (fun _ _ => true) hurried (boot pair)).bind fun c =>
      (Run.exec (step pair) (fun _ _ => true) [("b", .respond)] c).bind fun c' =>
        (Run.exec (step pair) (fun _ _ => true) [] c').map fun _ =>
          (ballotStored c "b", sent c' "b")) =
      some ((2, some "b"), [("a", .requestVote 2 none none), ("a", .requestVoteResponse 1 true)]) := by
    decide +kernel
  obtain ⟨c, c', -, hrun, -, hs, -, hc⟩ := Run.exists_of_exec_step hexec fun _ _ _ => trivial
  obtain ⟨hstored, hsent⟩ := Prod.mk.inj hc
  exact ⟨c, c', hrun, hs, hstored, hsent, acknowledged_is_stored hrun hs⟩

end Example

end Miniraft

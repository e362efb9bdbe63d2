import Miniraft.Verify.Origin
import Miniraft.Verify.Restart
import Miniraft.Verify.Store

/-!
# The store is linearizable

What the service is for: a map that many clients use as if there was only one copy of it
(`keyValue`). The entries that some node has applied are one growing sequence of operations. Every
map is what a part of this sequence gives, every answer is the one of the operation at its place,
and an operation that was put into a log after another one was answered has a later place
(`Store.linearizable`). A node that restarts begins with an empty map and goes through the sequence
once more; it answers nothing twice, because the fields for replies are not in its file.
-/

namespace Miniraft

open Consensus Linearizability

variable {NodeID K V : Type} [DecidableEq K] [DecidableEq V]

/-! ## The abstract store -/

inductive Answer (V : Type) where
  | value (v : V)
  | written
  | swapped
  | noSuchKey
  | differs (found : V)

/-- Reading, writing, and comparing and swapping the values of keys. -/
def keyValue : Object (K → Option V) (WireCommand K V) (Answer V) where
  init _ := none
  step s
    | .read key =>
      match s key with
      | some v => (s, .value v)
      | none => (s, .noSuchKey)
    | .write key value => (Function.update s key (some value), .written)
    | .cas key fromValue toValue =>
      match s key with
      | some v =>
        if v = fromValue then (Function.update s key (some toValue), .swapped)
        else (s, .differs v)
      | none => (s, .noSuchKey)

/-- How an answer is put for a client. -/
def Answer.message (debug : V → String) (inReplyTo id : MessageID) : Answer V → ClientMessage K V
  | .value v => .readResponse inReplyTo v id
  | .written => .writeResponse inReplyTo id
  | .swapped => .casResponse inReplyTo id
  | .noSuchKey =>
    .errorResponse inReplyTo id ReservedErrorCode.keyDoesNotExist.code "no such key"
  | .differs found =>
    .errorResponse inReplyTo id ReservedErrorCode.preconditionFailed.code
      ("values for key differ (found " ++ debug found ++ ")")

/-- The abstract store, used with commands. -/
def service (debug : V → String) :
    Object (K → Option V) (Command NodeID K V) (ClientMessage K V) where
  init := keyValue.init
  step s cmd :=
    ((keyValue.step s cmd.inner).1,
      (keyValue.step s cmd.inner).2.message debug (cmd.inReplyTo.getD 0) (cmd.responseId.getD 0))

theorem service_run (debug : V → String) (cmds : List (Command NodeID K V)) :
    (service debug).run cmds = keyValue.run (cmds.map (·.inner)) := by
  refine Object.run_sim keyValue (service debug) (R := fun s t => t = s) Command.inner rfl
    (fun s t cmd h => ?_) cmds
  subst h
  rfl

/-- What the map of a node shows. -/
def Map.view (m : Map K V) : K → Option V := fun key => m.lookup key

omit [DecidableEq V] in
theorem Map.view_insert (m : Map K V) (key : K) (value : V) :
    Map.view (m.insert key value) = Function.update m.view key (some value) := by
  funext key'
  by_cases h : key' = key
  · subst h
    simp [view]
  · simp [view, h]

/-- Applying a command to the map does what the abstract store does, and answers as it does. -/
theorem Command.outcome_eq (debug : V → String) (machine : Map K V) (cmd : Command NodeID K V) :
    Map.view (cmd.outcome debug machine).1 = ((service debug).step machine.view cmd).1 ∧
      (cmd.outcome debug machine).2 = ((service debug).step machine.view cmd).2 := by
  obtain ⟨inner, responseId, inReplyTo, client, respond⟩ := cmd
  cases inner with
  | read key =>
    cases h : machine.lookup key <;> simp [outcome, service, keyValue, Map.view, h, Answer.message]
  | write key value => simp [outcome, service, keyValue, Map.view_insert, Answer.message]
  | cas key fromValue toValue =>
    cases h : machine.lookup key with
    | none => simp [outcome, service, keyValue, Map.view, h, Answer.message]
    | some v =>
      have hview : machine.view key = some v := h
      by_cases hv : v = fromValue
      · simp [outcome, service, keyValue, h, hview, hv, Map.view_insert, Answer.message]
      · simp [outcome, service, keyValue, h, hview, hv, Answer.message]

/-! ## Applying a part of the log -/

section

variable {debug : V → String} {machine : Map K V}
  {l : Log (Command NodeID K V)} {ops : List (Command NodeID K V)} {lo hi : ℕ}

/-- The operations of a log, as far as another node can tell; where an entry has fields for a reply,
the operation is the command itself. -/
def Shows (ops : List (Command NodeID K V)) (l : Log (Command NodeID K V)) (hi : ℕ) : Prop :=
  ∀ n e, n < hi → l.inner[n]? = some e → ∃ cmd, ops[n]? = some cmd ∧
    wire cmd = wire e.cmd ∧ (e.cmd.respond = true → cmd = e.cmd)

/-- The answers to the operations from `lo` on, below `hi`. -/
structure AnswersOf (debug : V → String) (ops : List (Command NodeID K V))
    (l : Log (Command NodeID K V)) (lo hi : ℕ)
    (answers : List (OpId × NodeID × ClientMessage K V)) : Prop where
  increasing : (answers.map (·.1.1)).Pairwise (· < ·)
  answer : ∀ x ∈ answers, ∃ e, lo ≤ x.1.1 ∧ x.1.1 < hi ∧ l.inner[x.1.1]? = some e ∧
    x.1.2 = e.term ∧ e.cmd.respond = true ∧ (service debug).answer ops x.1.1 = some x.2.2

theorem service_step_of_wire {cmd cmd' : Command NodeID K V} (h : wire cmd = wire cmd')
    (s : K → Option V) : ((service debug).step s cmd).1 = ((service debug).step s cmd').1 := by
  have hinner : cmd.inner = cmd'.inner := (Command.mk.inj h).1
  simp only [service, hinner]

/-- What is sent is the outcome, if the command has the fields for it. -/
theorem Command.apply_eq (debug : V → String) (machine : Map K V) (cmd : Command NodeID K V) :
    (cmd.apply debug machine).1 = (cmd.outcome debug machine).1 ∧
      ∀ x ∈ (cmd.apply debug machine).2, cmd.respond = true ∧
        x.2 = (cmd.outcome debug machine).2 := by
  obtain ⟨inner, responseId, inReplyTo, client, respond⟩ := cmd
  unfold apply
  simp only
  split
  · simp
  · simp

/-- Applying the entries from `lo` on takes the map of the operations below `lo` to that of those
below `hi`, with their answers. -/
theorem applyAll_segment (hshow : Shows ops l hi) (hlen : hi ≤ l.inner.length) (hle : lo ≤ hi)
    (hm : machine.view = (service debug).run (ops.take lo)) :
    Map.view (applyAll debug machine (l.segment lo hi)).1 = (service debug).run (ops.take hi) ∧
      AnswersOf debug ops l lo hi (applyAll debug machine (l.segment lo hi)).2 := by
  induction h : hi - lo generalizing lo machine with
  | zero =>
    obtain rfl : lo = hi := by omega
    rw [Log.segment_self]
    exact ⟨hm, .nil, by simp [applyAll]⟩
  | succ k ih =>
    have hlt : lo < hi := by omega
    have he : l.inner[lo]? = some l.inner[lo] := List.getElem?_eq_getElem (by omega)
    obtain ⟨cmd, hcmd, hwire, hown⟩ := hshow lo _ hlt he
    obtain ⟨houtcome, hanswer⟩ := Command.outcome_eq debug machine l.inner[lo].cmd
    obtain ⟨hmap, hsent⟩ := Command.apply_eq debug machine l.inner[lo].cmd
    have hnext : Map.view (l.inner[lo].cmd.apply debug machine).1 =
        (service debug).run (ops.take (lo + 1)) := by
      rw [hmap, houtcome, hm, Object.run_take_succ _ hcmd, service_step_of_wire hwire]
    obtain ⟨hview, hinc, hall⟩ := ih (by omega) hnext (by omega)
    rw [Log.segment_of_lt hlt he]
    -- The answers are that to the first command, if it is sent, and those to the others.
    have hfirst : ∀ x ∈ ((l.inner[lo].cmd.apply debug machine).2.map fun x =>
        ((lo.succPNat.natPred, l.inner[lo].term), x)).toList, x.1 = (lo, l.inner[lo].term) ∧
          l.inner[lo].cmd.respond = true ∧
          x.2.2 = (l.inner[lo].cmd.outcome debug machine).2 := by
      intro x hx
      obtain ⟨y, hy, rfl⟩ := Option.map_eq_some_iff.mp (Option.mem_toList.mp hx)
      exact ⟨by simp, hsent y hy⟩
    refine ⟨hview, ?_, fun x hx => ?_⟩
    · rw [applyAll, List.map_append, List.pairwise_append]
      refine ⟨?_, hinc, fun n hn n' hn' => ?_⟩
      · cases (l.inner[lo].cmd.apply debug machine).2 <;> simp
      · obtain ⟨x, hx, rfl⟩ := List.mem_map.mp hn
        obtain ⟨x', hx', rfl⟩ := List.mem_map.mp hn'
        obtain ⟨e, hle', -⟩ := hall x' hx'
        rw [(hfirst x hx).1]
        exact hle'
    · rcases List.mem_append.mp hx with hx | hx
      · obtain ⟨hx1, hrespond, hx2⟩ := hfirst x hx
        rw [hx1, hx2]
        refine ⟨_, le_rfl, hlt, he, rfl, hrespond, ?_⟩
        rw [Object.answer_of_getElem? _ hcmd, hown hrespond, hanswer, hm]
      · obtain ⟨e, hle', h⟩ := hall x hx
        exact ⟨e, by omega, h⟩

end

/-! ## The order of the operations -/

section

variable {cfg : Config NodeID} {debug : V → String}
  {g g' : Replication NodeID (LogEntry (Command NodeID K V))}
  {order : List (OpId × Command NodeID K V)}

/-- The entries of the operations of an order, as they go over the wire. -/
def entries (order : List (OpId × Command NodeID K V)) : List (LogEntry (Command NodeID K V)) :=
  order.map fun x => ⟨wire x.2, x.1.2⟩

omit [DecidableEq K] [DecidableEq V] in
theorem getElem?_entries {n : ℕ} {e : LogEntry (Command NodeID K V)}
    (h : (entries order)[n]? = some e) :
    ∃ x, order[n]? = some x ∧ x.1.2 = e.term ∧ wire x.2 = e.cmd := by
  rw [entries, List.getElem?_map, Option.map_eq_some_iff] at h
  obtain ⟨x, hx, rfl⟩ := h
  exact ⟨x, hx, rfl, rfl⟩

/-- Every operation has the place its identity tells. -/
def Placed (order : List (OpId × Command NodeID K V)) : Prop :=
  ∀ (n : ℕ) (x : OpId × Command NodeID K V), order[n]? = some x → x.1.1 = n

/-- An order is extended to the operations of some more entries. -/
theorem exists_extension {h : List (Event OpId (Command NodeID K V) (ClientMessage K V))}
    {es : List (LogEntry (Command NodeID K V))} (H : Linearizes (service debug) order h)
    (hplaced : Placed order) (hes : ∀ n e, es[n]? = some e →
      ∃ cmd, .invoke (order.length + n, e.term) cmd ∈ h ∧ wire cmd = e.cmd) :
    ∃ order', Linearizes (service debug) order' h ∧ Placed order' ∧ order <+: order' ∧
      entries order' = entries order ++ es := by
  induction es generalizing order with
  | nil => exact ⟨order, H, hplaced, List.prefix_rfl, by simp⟩
  | cons e es ih =>
    obtain ⟨cmd, hinv, hwire⟩ := hes 0 e rfl
    have hplaced' : Placed (order ++ [((order.length, e.term), cmd)]) := by
      intro n x hx
      rcases Nat.lt_or_ge n order.length with hlt | hge
      · rw [List.getElem?_append_left hlt] at hx
        exact hplaced n x hx
      · rw [List.getElem?_append_right hge] at hx
        obtain ⟨h0, rfl⟩ := List.getElem?_eq_some_iff.mp hx
        simp only [List.length_singleton] at h0
        simp only [List.getElem_singleton]
        omega
    have hnew : (order.length, e.term) ∉ order.map Prod.fst := by
      intro hmem
      obtain ⟨x, hx, hid⟩ := List.mem_map.mp hmem
      obtain ⟨n, hn⟩ := List.getElem?_of_mem hx
      have hlt := (List.getElem?_eq_some_iff.mp hn).1
      have := hplaced n x hn
      rw [hid] at this
      omega
    have H' : Linearizes (service debug) (order ++ [((order.length, e.term), cmd)]) h := by
      refine H.extend ?_ (by simpa using hinv)
      rw [List.map_append, List.nodup_append]
      refine ⟨H.nodup, by simp, ?_⟩
      rintro a ha b hb rfl
      obtain rfl := List.mem_singleton.mp hb
      exact hnew ha
    obtain ⟨order', hlin, hplaced'', hpre, hentries⟩ := ih H' hplaced' fun n e' he' => by
      obtain ⟨cmd', hinv', hwire'⟩ := hes (n + 1) e' he'
      refine ⟨cmd', ?_, hwire'⟩
      rw [List.length_append, List.length_singleton, Nat.add_assoc, Nat.add_comm 1]
      exact hinv'
    refine ⟨order', hlin, hplaced'', (List.prefix_append ..).trans hpre, ?_⟩
    rw [hentries]
    simp [entries, hwire]

omit [DecidableEq K] [DecidableEq V] in
@[simp] theorem length_entries : (entries order).length = order.length := List.length_map _

/-- An order is extended such that it reaches over a committed segment. -/
theorem exists_order [DecidableEq NodeID] {v : List (LogEntry (Command NodeID K V))} {T T' : Term}
    {h : List (Event OpId (Command NodeID K V) (ClientMessage K V))}
    (Hinv : g.Inv LogEntry.term cfg.members) (H : Linearizes (service debug) order h)
    (hplaced : Placed order) (hset : Settled cfg g T (entries order)) (hv : Settled cfg g T' v)
    (hinv : ∀ n e, v[n]? = some e → ∃ cmd, .invoke (n, e.term) cmd ∈ h ∧ wire cmd = e.cmd) :
    ∃ order', Linearizes (service debug) order' h ∧ Placed order' ∧ order <+: order' ∧
      (∃ T, Settled cfg g T (entries order')) ∧ v <+: entries order' := by
  rcases Hinv.committed_total hset hv with hle | hle
  · obtain ⟨es, rfl⟩ := hle
    obtain ⟨order', hlin, hplaced', hpre, heq⟩ := exists_extension H hplaced fun n e he => by
      refine hinv (order.length + n) e ?_
      rw [List.getElem?_append_right (by simp)]
      simpa using he
    exact ⟨order', hlin, hplaced', hpre, ⟨T', heq ▸ hv⟩, heq ▸ List.prefix_rfl⟩
  · exact ⟨order, H, hplaced, List.prefix_rfl, ⟨T, hset⟩, hle⟩

end

/-! ## What holds of every state -/

section

variable [DecidableEq NodeID]

/-- If the node still has fields for a reply to the operation in its log, it has applied it. -/
def Node.Answered (n : Node NodeID (Command NodeID K V)) (id : OpId) : Prop :=
  ∀ e, n.state.c.log.inner[id.1]? = some e → e.term = id.2 → e.cmd.respond = true →
    id.1 < upTo n.state.c.lastApplied

/-- The map of node `i` is that of the operations up to `last_applied`. What it has created are
operations of the trace, and only that has fields for replies in its log. -/
structure Mirrors (debug : V → String) (g : Replication NodeID (LogEntry (Command NodeID K V)))
    (order : List (OpId × Command NodeID K V))
    (trace : List (Event OpId (Command NodeID K V) (ClientMessage K V))) (i : NodeID)
    (n : Node NodeID (Command NodeID K V)) (machine : Map K V) : Prop where
  reached : upTo n.state.c.lastApplied ≤ order.length
  machine : machine.view =
    (service debug).run ((order.map Prod.snd).take (upTo n.state.c.lastApplied))
  created : ∀ x ∈ n.history.created, g.leader x.entry.term = some i ∧
    .invoke (x.position, x.entry.term) x.entry.cmd ∈ trace
  own : ∀ (k : ℕ) (e : LogEntry (Command NodeID K V)), n.state.c.log.inner[k]? = some e →
    e.cmd.respond = true → ∃ x ∈ n.history.created, x.position = k ∧ x.entry = e

/-- The order explains the trace of a cluster with these maps. -/
structure Explains (debug : V → String) (cfg : Config NodeID)
    (c : Cluster NodeID (Command NodeID K V)) (machines : NodeID → Map K V)
    (trace : List (Event OpId (Command NodeID K V) (ClientMessage K V)))
    (g : Replication NodeID (LogEntry (Command NodeID K V)))
    (order : List (OpId × Command NodeID K V)) : Prop where
  survives : Cluster.Survives cfg c g
  origins : ∃ o, (origin cfg).Holds cfg o c
  wellFormed : WellFormed trace
  linearizes : Linearizes (service debug) order trace
  placed : Placed order
  settled : ∃ T, Settled cfg g T (entries order)
  node : ∀ i ∈ cfg.ids, Mirrors debug g order trace i (c.nodes i) (machines i)
  invoked : ∀ {id : OpId} {cmd}, .invoke id cmd ∈ trace → g.leader id.2 ≠ none ∧
    (g.leaderLog id.2)[id.1]? = some ⟨wire cmd, id.2⟩
  answered : ∀ {id : OpId} {msg}, .answer id msg ∈ trace →
    ∃ i ∈ cfg.ids, g.leader id.2 = some i ∧ (c.nodes i).Answered id

variable {debug : V → String} {cfg : Config NodeID} {c c' : Cluster NodeID (Command NodeID K V)}
  {machines : NodeID → Map K V}
  {trace trace' : List (Event OpId (Command NodeID K V) (ClientMessage K V))}
  {g g' : Replication NodeID (LogEntry (Command NodeID K V))}
  {order order' : List (OpId × Command NodeID K V)} {i : NodeID}
  {a : Action NodeID (Command NodeID K V)} {n n' : Node NodeID (Command NodeID K V)}
  {machine : Map K V}

omit [DecidableEq NodeID] in
theorem Mirrors.mono (h : Mirrors debug g order trace i n machine) (hle : g.Le g')
    (horder : order <+: order') (htrace : trace ⊆ trace') :
    Mirrors debug g' order' trace' i n machine where
  reached := h.reached.trans horder.length_le
  machine := by
    rw [(horder.map Prod.snd).take_eq (by simpa using h.reached)]
    exact h.machine
  created x hx := ⟨hle.election.leader (h.created x hx).1, htrace (h.created x hx).2⟩
  own := h.own

theorem explains_boot (debug : V → String) (cfg : Config NodeID) :
    Explains debug cfg (.boot cfg : Cluster NodeID (Command NodeID K V)) (fun _ => ∅) [] .start
      [] where
  survives := Cluster.survives_boot cfg
  origins := ⟨_, origin.holds_boot cfg⟩
  wellFormed := .nil
  linearizes := .nil
  placed := by simp [Placed]
  settled := ⟨0, .inl rfl⟩
  node i _ := ⟨Nat.zero_le _, rfl, by simp [Cluster.boot, Node.boot, History.empty],
    by simp [Cluster.boot, Node.boot, State.new, Persistent.default]⟩
  invoked := by simp
  answered := by simp

omit [DecidableEq K] [DecidableEq V] in
theorem origins_crash {o : NodeID → List (Creation (Command NodeID K V))}
    (H : (origin cfg).Holds cfg o c) [DecidableEq (Command NodeID K V)]
    (hsaved : (c.nodes i).Saved) (hs : c.step cfg (i, .crash) = .ok c') :
    (origin cfg).Holds cfg o c' := by
  obtain ⟨hi, -, n, msgs, hn, rfl⟩ := Cluster.step_eq_ok hs
  obtain ⟨rfl, hpending, hhistory, hcore, -⟩ := Node.step_crash hn hsaved
  refine ⟨H.wf.step hs, fun j hj => ?_, fun e he => ?_, fun j hj x hx => ?_⟩
  · by_cases hji : j = i
    · subst hji
      rw [Cluster.update_self, hcore, hhistory]
      exact H.node j hj
    · rw [Cluster.update_of_ne hji]
      exact H.node j hj
  · exact H.sent e (by simpa [Cluster.update] using he)
  · by_cases hji : j = i
    · subst hji
      rw [Cluster.update_self, hpending] at hx
      cases hx
    · rw [Cluster.update_of_ne hji] at hx
      exact H.pending j hj x hx

theorem origins_step (H : ∃ o, (origin cfg).Holds cfg o c) (hP : Cluster.Recoverable c (i, a))
    (hs : c.step cfg (i, a) = .ok c') : ∃ o, (origin cfg).Holds cfg o c' := by
  obtain ⟨o, H⟩ := H
  by_cases ha : a = .crash
  · subst ha
    exact ⟨o, origins_crash H (hP.1 rfl) hs⟩
  obtain ⟨o', -, H'⟩ := H.step (R := fun _ _ => True) hs ha fun hm hi _ _ hrecv => by
    obtain ⟨o', ho'⟩ := origin.answer hm hP.2.1.isLeader hi (H.node i hi)
      fun p m hpm => (hrecv p m hpm).2.2
    exact ⟨o', trivial, ho'⟩
  exact ⟨o', H'⟩

omit [DecidableEq NodeID] in
/-- Only a node that has created an entry has it with fields for a reply, and the trace has its
operation. -/
theorem Mirrors.invoked (h : Mirrors debug g order trace i n machine) {k : ℕ}
    {e : LogEntry (Command NodeID K V)} (he : n.state.c.log.inner[k]? = some e)
    (hrespond : e.cmd.respond = true) :
    g.leader e.term = some i ∧ .invoke (k, e.term) e.cmd ∈ trace := by
  obtain ⟨x, hx, rfl, rfl⟩ := h.own k e he hrespond
  exact h.created x hx

omit [DecidableEq NodeID] [DecidableEq K] [DecidableEq V] in
theorem respond_of_wire {e : LogEntry (Command NodeID K V)} (h : e.wire = e) :
    e.cmd.respond = false := by
  rw [← h]
  rfl

omit [DecidableEq NodeID] [DecidableEq K] [DecidableEq V] in
/-- Entries that are received have no fields for a reply. -/
theorem own_of_receives (hr : Node.Receives n n') {k : ℕ} {e : LogEntry (Command NodeID K V)}
    (he : n'.state.c.log.inner[k]? = some e) (hrespond : e.cmd.respond = true) :
    n.state.c.log.inner[k]? = some e := by
  rcases hr.log he with h | h
  · exact h
  · rw [respond_of_wire h] at hrespond
    cases hrespond

omit [DecidableEq K] [DecidableEq V] in
/-- The entries of all logs are those of operations of the trace. -/
theorem invoked_of_origins (H : ∃ o, (origin cfg).Holds cfg o c)
    (hnode : ∀ j ∈ cfg.ids, ∀ x ∈ (c.nodes j).history.created,
      .invoke (x.position, x.entry.term) x.entry.cmd ∈ trace) (hi : i ∈ cfg.ids) {k : ℕ}
    {e : LogEntry (Command NodeID K V)} (he : (c.nodes i).state.c.log.wire.inner[k]? = some e) :
    ∃ cmd, .invoke (k, e.term) cmd ∈ trace ∧ wire cmd = e.cmd := by
  obtain ⟨o, H⟩ := H
  obtain ⟨j, hj, x, hx, -, hpos, hwire⟩ := (H.node i hi).2 he
  rw [(H.node j hj).1] at hx
  obtain ⟨e', -, rfl⟩ := List.mem_map.mp (List.mem_of_getElem? he)
  rw [LogEntry.wire_wire] at hwire
  have hcmd : x.entry.wire.cmd = e'.wire.cmd := congrArg LogEntry.cmd hwire
  have hterm : x.entry.wire.term = e'.wire.term := congrArg LogEntry.term hwire
  exact ⟨_, hpos ▸ hterm ▸ hnode j hj x hx, hcmd⟩

theorem Explains.exists_invoke (H : Explains debug cfg c machines trace g order) {id : OpId}
    {msg : ClientMessage K V} (h : .answer id msg ∈ trace) : ∃ cmd, .invoke id cmd ∈ trace := by
  obtain ⟨n, cmd, hn, -⟩ := H.linearizes.answered h
  exact ⟨cmd, H.linearizes.invoked _ (List.mem_of_getElem? hn)⟩

/-- The client loop of a leader puts an operation into the log. -/
theorem Explains.append (H : Explains debug cfg c machines trace g order)
    (hP : Cluster.Recoverable c (i, .clientAppend)) (hs : c.step cfg (i, .clientAppend) = .ok c') :
    ∃ g' cmd, (c.nodes i).clientLoop = .checked cmd ∧ g.Le g' ∧
      Explains debug cfg c' machines (trace ++ [.invoke ((c.nodes i).state.c.log.inner.length,
        (c.nodes i).state.c.currentTerm) cmd]) g' order := by
  obtain ⟨g', hsteps, H'⟩ := H.survives.step hP hs
  have hle : g.Le g' := (H.survives.inv.steps hsteps).2
  have horigins := origins_step H.origins hP hs
  have hlead : (c.nodes i).state.isLeader := State.isLeader_iff.mpr (hP.2.1.isLeader rfl)
  obtain ⟨hi, -, n, msgs, hn, rfl⟩ := Cluster.step_eq_ok hs
  obtain ⟨cmd, hloop, hstate, hcreated⟩ := Node.step_clientAppend hn
  have hself : (c.update i n msgs).nodes i = n := Cluster.update_self ..
  have hother : ∀ {j}, j ≠ i → (c.update i n msgs).nodes j = c.nodes j :=
    fun hj => Cluster.update_of_ne hj ..
  have happlied : n.state.c.lastApplied = (c.nodes i).state.c.lastApplied := by
    rw [hstate]
    rfl
  have hlog : n.state.c.log =
      (c.nodes i).state.c.log.append ⟨cmd, (c.nodes i).state.c.currentTerm⟩ := by
    rw [hstate]
    rfl
  have hterm : n.state.c.currentTerm = (c.nodes i).state.c.currentTerm := by
    rw [hstate]
    rfl
  have hlead' : n.state.isLeader := by
    rw [hstate]
    exact hlead
  obtain ⟨hl, hgl⟩ := H.survives.leader_eq hi hlead
  obtain ⟨hl', hgl'⟩ := H'.leader_eq hi (hself.symm ▸ hlead')
  rw [hself] at hl' hgl'
  rw [hterm] at hl' hgl'
  -- The leader has not put anything at this place before.
  have hfresh : ∀ cmd', .invoke ((c.nodes i).state.c.log.inner.length,
      (c.nodes i).state.c.currentTerm) cmd' ∉ trace := by
    intro cmd' hmem
    have hget := (H.invoked hmem).2
    rw [hgl, List.getElem?_eq_none (by simp)] at hget
    cases hget
  refine ⟨g', cmd, hloop, hle, H', horigins, H.wellFormed.invoke hfresh, H.linearizes.invoke ?_,
    H.placed, ?_, fun j hj => ?_, fun {id cmd'} hmem => ?_, fun {id msg} hmem => ?_⟩
  · intro hmem
    obtain ⟨x, hx, hid⟩ := List.mem_map.mp hmem
    exact hfresh x.2 (hid ▸ H.linearizes.invoked x hx)
  · obtain ⟨T, hset⟩ := H.settled
    exact ⟨T, hset.mono H.survives.inv hle le_rfl⟩
  · have hmono := (H.node j hj).mono hle (List.prefix_refl order) (List.subset_append_left trace
      [.invoke ((c.nodes i).state.c.log.inner.length, (c.nodes i).state.c.currentTerm) cmd])
    by_cases hji : j = i
    · subst hji
      rw [hself]
      refine ⟨happlied ▸ hmono.reached, happlied ▸ hmono.machine, fun x hx => ?_,
        fun k e he hrespond => ?_⟩
      · rw [hcreated] at hx
        rcases List.mem_cons.mp hx with rfl | hx
        · exact ⟨hl', by simp⟩
        · exact hmono.created x hx
      · rw [hlog, Log.append] at he
        rcases Nat.lt_or_ge k (c.nodes j).state.c.log.inner.length with hlt | hge
        · rw [List.getElem?_append_left hlt] at he
          obtain ⟨x, hx, h⟩ := hmono.own k e he hrespond
          exact ⟨x, hcreated ▸ List.mem_cons_of_mem _ hx, h⟩
        · rw [List.getElem?_append_right hge] at he
          obtain ⟨h0, rfl⟩ := List.getElem?_eq_some_iff.mp he
          simp only [List.length_singleton] at h0
          obtain rfl : k = (c.nodes j).state.c.log.inner.length := by omega
          exact ⟨_, hcreated ▸ List.mem_cons_self, rfl, by simp⟩
    · rw [hother hji]
      exact hmono
  · rcases List.mem_append.mp hmem with hmem | hmem
    · obtain ⟨hne, hget⟩ := H.invoked hmem
      exact ⟨hle.leader_ne_none hne, (hle.leaderLog hne).getElem?_eq hget⟩
    · obtain ⟨rfl, rfl⟩ := Event.invoke.inj (List.mem_singleton.mp hmem)
      refine ⟨by rw [hl']; simp, ?_⟩
      rw [hgl', hlog, Log.append_wire, Log.append]
      simp [LogEntry.wire]
  · rcases List.mem_append.mp hmem with hans | hans
    · obtain ⟨j, hj, hlj, hlt⟩ := H.answered hans
      refine ⟨j, hj, hle.election.leader hlj, ?_⟩
      by_cases hji : j = i
      · subst hji
        rw [hself]
        intro e he ht hrespond
        rw [happlied]
        rw [hlog, Log.append] at he
        rcases Nat.lt_or_ge id.1 (c.nodes j).state.c.log.inner.length with hlt' | hge
        · rw [List.getElem?_append_left hlt'] at he
          exact hlt e he ht hrespond
        · -- The new entry has not been answered.
          rw [List.getElem?_append_right hge] at he
          obtain ⟨h0, rfl⟩ := List.getElem?_eq_some_iff.mp he
          simp only [List.length_singleton] at h0
          obtain ⟨cmd', hinv⟩ := H.exists_invoke hans
          have hid : id = ((c.nodes j).state.c.log.inner.length, (c.nodes j).state.c.currentTerm) :=
            Prod.ext (by omega) (by simpa using ht.symm)
          exact absurd (hid ▸ hinv) (hfresh cmd')
      · rwa [hother hji]
    · cases List.mem_singleton.mp hans

omit [DecidableEq K] [DecidableEq V] [DecidableEq NodeID] in
/-- Where a log agrees with an order, its entries tell the identities of the operations. -/
theorem order_of_prefix {l : Log (Command NodeID K V)} {hi k : ℕ} (hplaced : Placed order)
    (hpre : l.wire.inner.take hi <+: entries order) (hk : k < hi)
    {e : LogEntry (Command NodeID K V)} (he : l.inner[k]? = some e) :
    ∃ cmd, order[k]? = some ((k, e.term), cmd) ∧ wire cmd = wire e.cmd := by
  have hget : (l.wire.inner.take hi)[k]? = some e.wire := by
    rw [List.getElem?_take_of_lt hk, Log.wire, List.getElem?_map, he]
    rfl
  obtain ⟨x, hx, hterm, hwire⟩ := getElem?_entries (hpre.getElem?_eq hget)
  have hid : x.1 = (k, e.term) := Prod.ext (hplaced k x hx) hterm
  exact ⟨x.2, hid ▸ hx, hwire⟩

omit [DecidableEq K] [DecidableEq V] [DecidableEq NodeID] in
theorem shows_of_prefix {l : Log (Command NodeID K V)} {hi : ℕ} (hwf : WellFormed trace)
    (hinv : ∀ x ∈ order, .invoke x.1 x.2 ∈ trace) (hplaced : Placed order)
    (hpre : l.wire.inner.take hi <+: entries order)
    (hown : ∀ {k e}, l.inner[k]? = some e → e.cmd.respond = true →
      .invoke (k, e.term) e.cmd ∈ trace) : Shows (order.map Prod.snd) l hi := by
  intro k e hk he
  obtain ⟨cmd, hcmd, hwire⟩ := order_of_prefix hplaced hpre hk he
  refine ⟨cmd, by rw [List.getElem?_map, hcmd]; rfl, hwire, fun hrespond => ?_⟩
  exact hwf.unique (hinv _ (List.mem_of_getElem? hcmd)) (hown he hrespond)

/-- What a step other than that of the client loop applies gets its place in the order, and is
answered as it has to be. -/
theorem Explains.apply (H : Explains debug cfg c machines trace g order)
    (hP : Cluster.Recoverable c (i, a)) (happend : a ≠ .clientAppend) (ha : a ≠ .crash)
    (hs : c.step cfg (i, a) = .ok c')
    {r : Map K V × List (OpId × NodeID × ClientMessage K V)}
    (hr : applyAll debug (machines i) ((c.nodes i).effects a).applied = r) :
    ∃ g' order', g.Le g' ∧ order <+: order' ∧
      Explains debug cfg c' (fun j => if j = i then r.1 else machines j)
        (trace ++ r.2.map fun x => .answer x.1 x.2.2) g' order' := by
  obtain ⟨g', hsteps, H'⟩ := H.survives.step hP hs
  have hle : g.Le g' := (H.survives.inv.steps hsteps).2
  have horigins := origins_step H.origins hP hs
  obtain ⟨hi, -, n, msgs, hn, rfl⟩ := Cluster.step_eq_ok hs
  have hready := H.survives.holds.wf.ready (i := i)
  have hexec := Node.step_executes hready hn ha
  have hreceives := Node.step_receives hready hn ha happend
  have hself : (c.update i n msgs).nodes i = n := Cluster.update_self ..
  have hother : ∀ {j}, j ≠ i → (c.update i n msgs).nodes j = c.nodes j :=
    fun hj => Cluster.update_of_ne hj ..
  -- Everything in a log was invoked, by the node that leads the term of the entry.
  have hinvoked : ∀ {k e}, n.state.c.log.inner[k]? = some e → e.cmd.respond = true →
      g.leader e.term = some i ∧ .invoke (k, e.term) e.cmd ∈ trace :=
    fun he hrespond => (H.node i hi).invoked (own_of_receives hreceives he hrespond) hrespond
  have hcreated : ∀ j ∈ cfg.ids, ∀ x ∈ ((c.update i n msgs).nodes j).history.created,
      .invoke (x.position, x.entry.term) x.entry.cmd ∈ trace := by
    intro j hj x hx
    by_cases hji : j = i
    · subst hji
      rw [hself, hreceives.created] at hx
      exact ((H.node j hj).created x hx).2
    · rw [hother hji] at hx
      exact ((H.node j hj).created x hx).2
  -- The applied part of the log is settled, and the order is extended to reach over it.
  have ht := (H'.holds.node i hi).2
  rw [hself] at ht
  have hlen : upTo n.state.c.lastApplied ≤ n.state.c.log.inner.length := by
    have hlen := ht.applied_le.trans ht.commit_le
    simpa [State.core, Log.wire] using hlen
  have hdone : Settled cfg g' n.state.c.currentTerm
      (n.state.c.log.wire.inner.take (upTo n.state.c.lastApplied)) :=
    ht.committed.of_le (List.take_prefix_take_left ht.applied_le)
  obtain ⟨T, hset⟩ := H.settled
  obtain ⟨order', hlin, hplaced, hpre, hset', hv⟩ := exists_order H'.inv H.linearizes H.placed
    (hset.mono H.survives.inv hle le_rfl) hdone fun k e he => by
      refine invoked_of_origins horigins hcreated hi (i := i) ?_
      rw [hself]
      exact (List.take_prefix ..).getElem?_eq he
  have hshow := shows_of_prefix H.wellFormed hlin.invoked hplaced hv
    fun he hrespond => (hinvoked he hrespond).2
  have hmono := (H.node i hi).mono hle hpre (List.Subset.refl trace)
  obtain ⟨hview, hanswers⟩ := applyAll_segment hshow hlen hexec.le hmono.machine
  rw [← hexec.apps_eq, hr] at hview hanswers
  have hreached : upTo n.state.c.lastApplied ≤ order'.length := by
    have hlen' := hv.length_le
    rw [List.length_take, length_entries, Log.wire, List.length_map] at hlen'
    omega
  -- An answer is to an operation of this node above what it had applied before.
  have hnew : ∀ x ∈ r.2, (∃ cmd, .invoke x.1 cmd ∈ trace) ∧ (∀ res, .answer x.1 res ∉ trace) ∧
      g.leader x.1.2 = some i ∧ x.1.1 < upTo n.state.c.lastApplied := by
    intro x hx
    obtain ⟨e, hlo, hlt, he, hterm, hrespond, -⟩ := hanswers.answer x hx
    obtain ⟨hl, hinv⟩ := hinvoked he hrespond
    rw [← hterm] at hl hinv
    refine ⟨⟨_, hinv⟩, fun res hres => ?_, hl, hlt⟩
    obtain ⟨j, -, hlj, hltj⟩ := H.answered hres
    obtain rfl : j = i := Option.some_inj.mp (hlj.symm.trans hl)
    have hlt' := hltj e (own_of_receives hreceives he hrespond) hterm.symm hrespond
    omega
  have hanswered : ∀ x ∈ r.2, ∃ m cmd, order'[m]? = some (x.1, cmd) ∧
      (service debug).answer (order'.map Prod.snd) m = some x.2.2 := by
    intro x hx
    obtain ⟨e, -, hlt, he, hterm, -, hres⟩ := hanswers.answer x hx
    obtain ⟨cmd, hcmd, -⟩ := order_of_prefix hplaced hv hlt he
    rw [← hterm] at hcmd
    exact ⟨_, cmd, hcmd, hres⟩
  have hnodup : ((r.2.map fun x => (x.1, x.2.2)).map Prod.fst).Nodup := by
    rw [List.map_map, List.Nodup, List.pairwise_map]
    refine (List.pairwise_map.mp hanswers.increasing).imp fun hlt heq => ?_
    exact absurd (congrArg Prod.fst heq) hlt.ne
  have hmap : (r.2.map fun x => (x.1, x.2.2)).map (fun x => Event.answer x.1 x.2) =
      (r.2.map fun x => .answer x.1 x.2.2 : List (Event OpId (Command NodeID K V) _)) :=
    List.map_map ..
  refine ⟨g', order', hle, hpre, H', horigins, ?_, ?_, hplaced, hset', fun j hj => ?_,
    fun {id cmd} hmem => ?_, fun {id msg} hmem => ?_⟩
  · rw [← hmap]
    refine H.wellFormed.answers (fun x hx => ?_) (fun x hx => ?_) hnodup
    · obtain ⟨y, hy, rfl⟩ := List.mem_map.mp hx
      exact (hnew y hy).1
    · obtain ⟨y, hy, rfl⟩ := List.mem_map.mp hx
      exact (hnew y hy).2.1
  · rw [← hmap]
    refine hlin.answers fun x hx => ?_
    obtain ⟨y, hy, rfl⟩ := List.mem_map.mp hx
    exact hanswered y hy
  · by_cases hji : j = i
    · subst hji
      rw [hself, if_pos rfl]
      refine ⟨hreached, hview, fun x hx => ?_, fun k e he hrespond => ?_⟩
      · rw [hreceives.created] at hx
        obtain ⟨hl, hx⟩ := hmono.created x hx
        exact ⟨hl, List.mem_append_left _ hx⟩
      · rw [hreceives.created]
        exact hmono.own k e (own_of_receives hreceives he hrespond) hrespond
    · rw [hother hji, if_neg hji]
      exact (H.node j hj).mono hle hpre (List.subset_append_left ..)
  · rcases List.mem_append.mp hmem with hmem | hmem
    · obtain ⟨hne, hget⟩ := H.invoked hmem
      exact ⟨hle.leader_ne_none hne, (hle.leaderLog hne).getElem?_eq hget⟩
    · obtain ⟨x, -, hx⟩ := List.mem_map.mp hmem
      cases hx
  · rcases List.mem_append.mp hmem with hmem | hmem
    · obtain ⟨j, hj, hlj, hlt⟩ := H.answered hmem
      refine ⟨j, hj, hle.election.leader hlj, ?_⟩
      by_cases hji : j = i
      · subst hji
        rw [hself]
        intro e he ht hrespond
        exact (hlt e (own_of_receives hreceives he hrespond) ht hrespond).trans_le hexec.le
      · rwa [hother hji]
    · obtain ⟨x, hx, heq⟩ := List.mem_map.mp hmem
      obtain ⟨rfl, -⟩ := Event.answer.inj heq
      obtain ⟨-, -, hl, hlt⟩ := hnew x hx
      exact ⟨i, hi, hle.election.leader hl, fun e _ _ _ => by rwa [hself]⟩

/-- A node that restarts begins with an empty map, and it will not answer anything that it has in
its log. -/
theorem Explains.crash (H : Explains debug cfg c machines trace g order)
    (hsaved : (c.nodes i).Saved) (hs : c.step cfg (i, .crash) = .ok c') :
    Explains debug cfg c' (fun j => if j = i then ∅ else machines j) trace g order := by
  have H' := H.survives.crash hsaved hs
  have horigins : ∃ o, (origin cfg).Holds cfg o c' := by
    obtain ⟨o, ho⟩ := H.origins
    exact ⟨o, origins_crash ho hsaved hs⟩
  obtain ⟨hi, -, n, msgs, hn, rfl⟩ := Cluster.step_eq_ok hs
  obtain ⟨rfl, -, hhistory, hcore, hlog⟩ := Node.step_crash hn hsaved
  have happlied : upTo n.state.c.lastApplied = 0 := congrArg Core.applied hcore
  have hsilent : ∀ {k : ℕ} {e : LogEntry (Command NodeID K V)},
      n.state.c.log.inner[k]? = some e → e.cmd.respond = false := by
    intro k e he
    rw [hlog] at he
    obtain ⟨e', -, rfl⟩ := List.mem_map.mp (List.mem_of_getElem? he)
    rfl
  refine ⟨H', horigins, H.wellFormed, H.linearizes, H.placed, H.settled, fun j hj => ?_, H.invoked,
    fun {id msg} hans => ?_⟩
  · by_cases hji : j = i
    · subst hji
      rw [Cluster.update_self, if_pos rfl]
      refine ⟨by simp [happlied], ?_, hhistory ▸ (H.node j hj).created, fun k e he hrespond => ?_⟩
      · rw [happlied]
        rfl
      · rw [hsilent he] at hrespond
        cases hrespond
    · rw [Cluster.update_of_ne hji, if_neg hji]
      exact H.node j hj
  · obtain ⟨j, hj, hlj, hlt⟩ := H.answered hans
    refine ⟨j, hj, hlj, ?_⟩
    by_cases hji : j = i
    · subst hji
      rw [Cluster.update_self]
      intro e he _ hrespond
      rw [hsilent he] at hrespond
      cases hrespond
    · rwa [Cluster.update_of_ne hji]

end

/-! ## Runs of the store -/

namespace Store

variable [DecidableEq NodeID] {debug : V → String} {cfg : Config NodeID}
  {s s' : Store NodeID K V} {l : StoreLabel NodeID K V} {i : NodeID}
  {a : Action NodeID (Command NodeID K V)}
  {g g' : Replication NodeID (LogEntry (Command NodeID K V))}
  {order order' : List (OpId × Command NodeID K V)}

/-- The threads of Raft take recoverable steps. -/
def Recoverable (s : Store NodeID K V) : StoreLabel NodeID K V → Prop
  | .node i (.engine a) => s.cluster.Recoverable (i, a)
  | _ => True

instance (s : Store NodeID K V) (l : StoreLabel NodeID K V) : Decidable (s.Recoverable l) :=
  match l with
  | .node i (.engine a) => inferInstanceAs (Decidable (s.cluster.Recoverable (i, a)))
  | .node _ (.take _ _) | .node _ .relay | .request _ _ _ => isTrue trivial

abbrev machines (s : Store NodeID K V) (i : NodeID) : Map K V := (s.apps i).machine

abbrev Explained (debug : V → String) (cfg : Config NodeID) (s : Store NodeID K V)
    (g : Replication NodeID (LogEntry (Command NodeID K V)))
    (order : List (OpId × Command NodeID K V)) : Prop :=
  Explains debug cfg s.cluster s.machines s.trace g order

omit [DecidableEq K] [DecidableEq V] in
theorem ite_eq_machines (s : Store NodeID K V) (i : NodeID) :
    (fun j => if j = i then s.machines i else s.machines j) = s.machines := by
  funext j
  split
  · next hj => rw [hj]
  · rfl

theorem react_machines (ha : a ≠ .crash) : (s.react debug i a).machines = fun j =>
    if j = i then (applyAll debug (s.machines i) ((s.cluster.nodes i).effects a).applied).1
    else s.machines j := by
  funext j
  have hcrash : a.isCrash = false := by
    cases a with
    | crash => exact absurd rfl ha
    | _ => rfl
  by_cases hj : j = i
  · simp [machines, react, update, hcrash, hj]
  · simp [machines, react, update, hj]

theorem react_crash (debug : V → String) (s : Store NodeID K V) (i : NodeID) :
    (s.react debug i .crash).machines = (fun j => if j = i then ∅ else s.machines j) ∧
      (s.react debug i .crash).trace = s.trace := by
  refine ⟨?_, by simp [react, Node.effects, applyAll]⟩
  funext j
  by_cases hj : j = i
  · simp [machines, react, update, Action.isCrash, Application.new, hj]
  · simp [machines, react, update, hj]

theorem react_trace (ha : a ≠ .clientAppend) : (s.react debug i a).trace = s.trace ++
    (applyAll debug (s.machines i) ((s.cluster.nodes i).effects a).applied).2.map
      fun x => .answer x.1 x.2.2 := by
  cases a with
  | clientAppend => exact absurd rfl ha
  | _ => simp [react]

theorem react_clientAppend (debug : V → String) {cmd : Command NodeID K V}
    (hloop : (s.cluster.nodes i).clientLoop = .checked cmd) :
    (s.react debug i .clientAppend).machines = s.machines ∧
      (s.react debug i .clientAppend).trace = s.trace ++
        [.invoke ((s.cluster.nodes i).state.c.log.inner.length,
          (s.cluster.nodes i).state.c.currentTerm) cmd] := by
  refine ⟨?_, by simp [react, hloop, Node.effects, applyAll]⟩
  rw [react_machines (by simp)]
  exact ite_eq_machines s i

/-- A step of the store extends the order that explains it. -/
theorem explained_step (H : s.Explained debug cfg g order) (hP : s.Recoverable l)
    (hs : s.step debug cfg l = .ok s') :
    ∃ g' order', g.Le g' ∧ order <+: order' ∧ s'.Explained debug cfg g' order' := by
  rcases step_eq_ok hs with ⟨i, a, c, rfl, hc, rfl⟩ | ⟨hrests, hcluster⟩
  · by_cases ha : a = .clientAppend
    · subst ha
      obtain ⟨g', cmd, hloop, hle, H'⟩ := H.append hP hc
      obtain ⟨hmachines, htrace⟩ := react_clientAppend debug hloop
      rw [← hmachines, ← htrace] at H'
      exact ⟨g', order, hle, List.prefix_rfl, H'⟩
    by_cases hcrash : a = .crash
    · subst hcrash
      have H' := H.crash (hP.1 rfl) hc
      obtain ⟨hmachines, htrace⟩ := s.react_crash debug i
      rw [← hmachines, ← htrace] at H'
      exact ⟨g, order, .refl g, List.prefix_rfl, H'⟩
    · obtain ⟨g', order', hle, hpre, H'⟩ := H.apply hP ha hcrash hc rfl
      rw [← react_machines hcrash, ← react_trace ha] at H'
      exact ⟨g', order', hle, hpre, H'⟩
  · have hmachines : s'.machines = s.machines := funext hrests.machine
    unfold Explained
    rw [hmachines, hrests.trace]
    rcases hcluster with hc | ⟨i, cmd, hc⟩
    · rw [hc]
      exact ⟨g, order, .refl g, List.prefix_rfl, H⟩
    · have hP' : Cluster.Recoverable s.cluster (i, .clientRequest cmd) :=
        ⟨fun h => Bool.noConfusion h, fun h => Bool.noConfusion h, trivial⟩
      obtain ⟨g', order', hle, hpre, H'⟩ := H.apply hP' (by simp) (by simp) hc rfl
      refine ⟨g', order', hle, hpre, ?_⟩
      have happly : applyAll debug (s.machines i)
          ((s.cluster.nodes i).effects (.clientRequest cmd)).applied = (s.machines i, []) := rfl
      rw [happly, ite_eq_machines, List.map_nil, List.append_nil] at H'
      exact H'

theorem explained_run (hrun : Run (step debug cfg) Recoverable s s')
    (H : s.Explained debug cfg g order) :
    ∃ g' order', order <+: order' ∧ s'.Explained debug cfg g' order' := by
  induction hrun with
  | refl => exact ⟨g, order, List.prefix_rfl, H⟩
  | tail _ hs ih =>
    obtain ⟨l, hP, hs⟩ := hs
    obtain ⟨g₁, order₁, hpre, H₁⟩ := ih
    obtain ⟨g', order', -, hpre', H'⟩ := explained_step H₁ hP hs
    exact ⟨g', order', hpre.trans hpre', H'⟩

theorem explained_boot (debug : V → String) (cfg : Config NodeID) :
    (boot cfg : Store NodeID K V).Explained debug cfg .start [] :=
  explains_boot debug cfg

/-- The store is linearizable, also if nodes restart: an operation takes effect once, between its
entry into the log of a leader and its answer. -/
theorem linearizable (hrun : Run (step debug cfg) Recoverable (boot cfg) s) :
    WellFormed s.trace ∧ Linearizable (service debug) s.trace := by
  obtain ⟨g, order, -, H⟩ := explained_run hrun (explained_boot debug cfg)
  exact ⟨H.wellFormed, order, H.linearizes⟩

/-- Every map is what the first operations of `ops` give, up to `last_applied`. -/
def Replicas (cfg : Config NodeID) (s : Store NodeID K V) (ops : List (WireCommand K V)) : Prop :=
  ∀ i ∈ cfg.ids, upTo (s.cluster.nodes i).state.c.lastApplied ≤ ops.length ∧
    (s.machines i).view =
      keyValue.run (ops.take (upTo (s.cluster.nodes i).state.c.lastApplied))

theorem Explained.maps (H : s.Explained debug cfg g order) :
    s.Replicas cfg (order.map (·.2.inner)) := by
  intro i hi
  have hnode := H.node i hi
  refine ⟨by simpa using hnode.reached, ?_⟩
  rw [hnode.machine, service_run, ← List.map_take, ← List.map_take, List.map_map]
  rfl

/-- All nodes go through the same states of the map, at all times of a run. -/
theorem replicas (hrun : Run (step debug cfg) Recoverable (boot cfg) s)
    (hrun' : Run (step debug cfg) Recoverable s s') :
    ∃ ops ops', ops <+: ops' ∧ s.Replicas cfg ops ∧ s'.Replicas cfg ops' := by
  obtain ⟨g, order, -, H⟩ := explained_run hrun (explained_boot debug cfg)
  obtain ⟨g', order', hpre, H'⟩ := explained_run hrun' H
  exact ⟨_, _, hpre.map _, H.maps, H'.maps⟩

end Store

namespace Example

open Store

def engine (i : String) (as : List (Action String (Command String ℕ ℕ))) :
    List (StoreLabel String ℕ ℕ) := as.map fun a => .node i (.engine a)

/-- `deliver`, in the store. -/
def handled (i p : String) (m : RaftMessage (Command String ℕ ℕ)) : List (StoreLabel String ℕ ℕ) :=
  engine i [.receive p m, .handle (at_ 0), .snapshot, .persist true, .respond]

/-- A client writes 8 to key 7 at the leader `a`. -/
def writes : List (StoreLabel String ℕ ℕ) :=
  List.flatten [
    engine "a" [.election (at_ 1)], handled "b" "a" (.requestVote 1 none none),
    handled "a" "b" (.requestVoteResponse 1 true),
    [.request "c" "a" (.writeRequest 7 8 1), .node "a" (.take "c" (.writeRequest 7 8 1))],
    engine "a" [.clientAppend, .clientReplicate (at_ 100000000)],
    handled "b" "a"
      (.appendEntries 1 none none none ⟨[⟨⟨.write 7 8, none, none, none, false⟩, 1⟩]⟩),
    handled "a" "b" (.appendEntriesResponse 1 (some 1) true)]

/-- `b` restarts, and hears of the leader. -/
def restarts : List (StoreLabel String ℕ ℕ) :=
  engine "b" [.crash] ++ engine "a" [.replicate (at_ 200000000)] ++
    handled "b" "a" (.appendEntries 1 (some 1) (some 1) (some 1) ⟨[]⟩)

/-- The client reads the key at `b`, which asks `a`. -/
def reads : List (StoreLabel String ℕ ℕ) :=
  List.flatten [
    [.request "c" "b" (.readRequest 7 1), .node "b" (.take "c" (.readRequest 7 1)),
      .node "b" .relay, .node "a" (.take "b" (.readRequest 7 1))],
    engine "a" [.clientAppend, .clientReplicate (at_ 300000000)],
    handled "b" "a" (.appendEntries 1 (some 1) (some 1) (some 1)
      ⟨[⟨⟨.read 7, none, none, none, false⟩, 1⟩]⟩),
    handled "a" "b" (.appendEntriesResponse 1 (some 2) true),
    [.node "b" (.take "a" (.readResponse 1 8 2))]]

def history : List (Event OpId (Command String ℕ ℕ) (ClientMessage ℕ ℕ)) :=
  [.invoke (0, 1) ⟨.write 7 8, some 1, some 1, some "c", true⟩, .answer (0, 1) (.writeResponse 1 1),
    .invoke (1, 1) ⟨.read 7, some 2, some 1, some "b", true⟩, .answer (1, 1) (.readResponse 1 8 2)]

theorem linearizable_read : ∃ s, Run (step Nat.repr pair) Recoverable (boot pair) s ∧
    s.trace = history ∧ WellFormed s.trace ∧ Linearizable (service Nat.repr) s.trace := by
  have hexec : (Run.exec (step Nat.repr pair) (fun s l => decide (s.Recoverable l))
      (writes ++ restarts ++ reads) (boot pair)).map trace = some history := by
    decide +kernel
  obtain ⟨s, hrun, hs⟩ := Run.exists_of_exec hexec fun _ _ => of_decide_eq_true
  exact ⟨s, hrun, hs, linearizable hrun⟩

/-- The entries that `a` and `b` have applied, and what their maps show at key 7. -/
def shown (s : Store String ℕ ℕ) : List (Option LogIndex × Option ℕ) :=
  ["a", "b"].map fun i => ((s.cluster.nodes i).state.c.lastApplied, (s.machines i).lookup 7)

theorem replicas_read : ∃ s s' ops ops', Run (step Nat.repr pair) Recoverable (boot pair) s ∧
    Run (step Nat.repr pair) Recoverable s s' ∧ shown s = [(some 1, some 8), (none, none)] ∧
    shown s' = [(some 2, some 8), (some 1, some 8)] ∧
    ops <+: ops' ∧ s.Replicas pair ops ∧ s'.Replicas pair ops' := by
  have hexec : ((Run.exec (step Nat.repr pair) (fun s l => decide (s.Recoverable l)) writes
      (boot pair)).bind fun s =>
        (Run.exec (step Nat.repr pair) (fun s l => decide (s.Recoverable l)) (restarts ++ reads)
          s).map fun s' => (shown s, shown s')) =
      some ([(some 1, some 8), (none, none)], [(some 2, some 8), (some 1, some 8)]) := by
    decide +kernel
  obtain ⟨s, s', hrun, hrun', hs⟩ := Run.exists_of_exec_exec hexec fun _ _ => of_decide_eq_true
  obtain ⟨hs, hs'⟩ := Prod.mk.inj hs
  obtain ⟨ops, ops', h⟩ := replicas hrun hrun'
  exact ⟨s, s', ops, ops', hrun, hrun', hs, hs', h⟩

end Example

end Miniraft

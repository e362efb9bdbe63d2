import Miniraft.Verify.Client
import Miniraft.Verify.Linear

/-!
# The store refines its client side

`Service` is the client side with Raft left open: commands are applied or dismissed at any time, to
any map. Without crashes the store does what the service can do (`Store.refines`), and where it
keeps the IDs the service does so, too. So what holds of the service holds of it: the responses
clients get are those to their requests (`Store.replies_genuine`).
-/

namespace Miniraft

open Consensus Linearizability

variable {NodeID K V : Type} [DecidableEq NodeID] [DecidableEq K] [DecidableEq V]

def Packet.parcel {O : Type} (p : Packet NodeID K V O) : Parcel NodeID K V :=
  ⟨p.source, p.destination, p.body⟩

/-! ## What the service sends -/

namespace Service

variable {debug : V → String} {cfg : Config NodeID} {t t' t'' : Service NodeID K V} {i : NodeID}
  {sent sent' : List (NodeID × ClientMessage K V)} {cmd : Command NodeID K V} {p : Prop}

/-- From `t` to `t'` node `i` has sent `sent`, and nothing else has changed. -/
structure Emits (t t' : Service NodeID K V) (i : NodeID)
    (sent : List (NodeID × ClientMessage K V)) : Prop where
  nodes : t'.nodes = t.nodes
  packets : t'.packets.map Packet.parcel =
    t.packets.map Packet.parcel ++ sent.map fun x => ⟨i, x.1, x.2⟩

/-- The command was put into the log by node `i`. -/
def Knows (t : Service NodeID K V) (i : NodeID) (cmd : Command NodeID K V) : Prop :=
  ∃ o, (cmd, o) ∈ (t.nodes i).log

omit [DecidableEq K] [DecidableEq V] in
theorem Knows.update {n : ClientNode NodeID K V (NodeID × ClientMessage K V)}
    {out : List (Dispatch NodeID K V (NodeID × ClientMessage K V))} {j : NodeID}
    (h : t.Knows j cmd) (hlog : (t.nodes i).log <+: n.log) : (t.update i n out).Knows j cmd := by
  obtain ⟨o, ho⟩ := h
  by_cases hj : j = i
  · subst hj
    exact ⟨o, by simpa [Service.update] using hlog.subset ho⟩
  · exact ⟨o, by simpa [Service.update, hj] using ho⟩

omit [DecidableEq NodeID] [DecidableEq K] [DecidableEq V] in
theorem Knows.of_nodes (h : t.Knows i cmd) (hnodes : t'.nodes = t.nodes) : t'.Knows i cmd := by
  unfold Knows
  rw [hnodes]
  exact h

omit [DecidableEq K] [DecidableEq V] in
@[simp] theorem update_self (t : Service NodeID K V) (i : NodeID) :
    t.update i (t.nodes i) [] = t := by
  have hnodes : (fun j => if j = i then t.nodes i else t.nodes j) = t.nodes := by
    funext j
    split
    · next hj => rw [hj]
    · rfl
  simp only [update, hnodes, List.map_nil, List.append_nil]

/-- Some steps of the service, which keep the IDs if `p`. -/
abbrev Runs (debug : V → String) (cfg : Config NodeID) (p : Prop) :
    Service NodeID K V → Service NodeID K V → Prop :=
  Run (step debug cfg) fun t l => p → t.KeepsIds l

/-- Some of these steps by which node `i` sends `sent`. -/
def CanEmit (debug : V → String) (cfg : Config NodeID) (p : Prop) (t : Service NodeID K V)
    (i : NodeID) (sent : List (NodeID × ClientMessage K V)) : Prop :=
  ∃ t', Runs debug cfg p t t' ∧ t.Emits t' i sent

theorem canEmit_nil : CanEmit debug cfg p t i [] := ⟨t, .refl, rfl, by simp⟩

theorem CanEmit.append (h : CanEmit debug cfg p t i sent)
    (h' : ∀ t', t'.nodes = t.nodes → CanEmit debug cfg p t' i sent') :
    CanEmit debug cfg p t i (sent ++ sent') := by
  obtain ⟨t', hrun, hnodes, hpackets⟩ := h
  obtain ⟨t'', hrun', hnodes', hpackets'⟩ := h' t' hnodes
  refine ⟨t'', hrun.trans hrun', hnodes'.trans hnodes, ?_⟩
  rw [hpackets', hpackets, List.map_append, List.append_assoc]

/-- A step that leaves its node as it is. -/
theorem canEmit_step (a : ClientAction NodeID K V (NodeID × ClientMessage K V))
    (out : List (Dispatch NodeID K V (NodeID × ClientMessage K V))) (hi : i ∈ cfg.ids)
    (hdel : t.Deliverable i a) (hl : p → t.KeepsIds (.node i a))
    (hs : (t.nodes i).step debug i a = .ok (t.nodes i, out))
    (hout : out.map (fun d => (d.destination, d.body)) = sent) : CanEmit debug cfg p t i sent := by
  have hstep : t.step debug cfg (.node i a) = .ok (t.update i (t.nodes i) out) := by
    simp only [step]
    rw [if_pos ⟨hi, hdel⟩, hs]
    rfl
  refine ⟨_, .single ⟨_, hl, hstep⟩, ?_, ?_⟩
  · funext j
    by_cases hj : j = i
    · simp [update, hj]
    · simp [update, hj]
  · subst hout
    simp [update, Packet.parcel]

section

variable (hi : i ∈ cfg.ids) (hid : p → (t.nodes i).front.nextId + 1 < 2 ^ 64)
  (h : cmd.respond = true → t.Knows i cmd)

include hi hid h

theorem canEmit_apply (machine : Map K V) :
    CanEmit debug cfg p t i (cmd.apply debug machine).2.toList := by
  cases hx : (cmd.apply debug machine).2 with
  | none => exact canEmit_nil
  | some x =>
    obtain ⟨o, hmem⟩ := h ((Command.apply_eq debug machine cmd).2 x hx).1
    obtain ⟨position, hget⟩ := List.getElem?_of_mem hmem
    refine canEmit_step (.apply position machine) [⟨x.1, x.2, o⟩] hi trivial hid ?_ rfl
    simp only [ClientNode.step, hget, hx]
    rfl

theorem canEmit_dismiss : CanEmit debug cfg p t i cmd.dismiss.toList := by
  cases hx : cmd.dismiss with
  | none => exact canEmit_nil
  | some x =>
    have hrespond : cmd.respond = true := by
      unfold Command.dismiss at hx
      split at hx
      · assumption
      · cases hx
    obtain ⟨o, hmem⟩ := h hrespond
    obtain ⟨position, hget⟩ := List.getElem?_of_mem hmem
    refine canEmit_step (.dismiss position) [⟨x.1, x.2, o⟩] hi trivial hid ?_ rfl
    simp only [ClientNode.step, hget, hx]
    rfl

end

theorem canEmit_dismissed (hi : i ∈ cfg.ids) (hid : p → (t.nodes i).front.nextId + 1 < 2 ^ 64)
    {cmds : List (LogEntry (Command NodeID K V) × ℕ)}
    (h : ∀ x ∈ cmds, x.1.cmd.respond = true → t.Knows i x.1.cmd) :
    CanEmit debug cfg p t i (cmds.filterMap (·.1.cmd.dismiss)) := by
  induction cmds generalizing t with
  | nil => exact canEmit_nil
  | cons x cmds ih =>
    have hfirst : (x :: cmds).filterMap (·.1.cmd.dismiss) =
        x.1.cmd.dismiss.toList ++ cmds.filterMap (·.1.cmd.dismiss) := by
      cases hx : x.1.cmd.dismiss <;> simp [hx]
    rw [hfirst]
    refine (canEmit_dismiss hi hid (h x (by simp))).append fun t' hnodes => ?_
    exact ih (hnodes ▸ hid) fun y hy hr => (h y (by simp [hy]) hr).of_nodes hnodes

theorem canEmit_applied (hi : i ∈ cfg.ids) (hid : p → (t.nodes i).front.nextId + 1 < 2 ^ 64)
    {apps : List (LogIndex × LogEntry (Command NodeID K V))} (machine : Map K V)
    (h : ∀ x ∈ apps, x.2.cmd.respond = true → t.Knows i x.2.cmd) :
    CanEmit debug cfg p t i ((applyAll debug machine apps).2.map (·.2)) := by
  induction apps generalizing t machine with
  | nil => exact canEmit_nil
  | cons x apps ih =>
    have hfirst : (applyAll debug machine (x :: apps)).2.map (·.2) =
        (x.2.cmd.apply debug machine).2.toList ++
          (applyAll debug (x.2.cmd.apply debug machine).1 apps).2.map (·.2) := by
      cases hx : (x.2.cmd.apply debug machine).2 <;> simp [applyAll, hx]
    rw [hfirst]
    refine (canEmit_apply hi hid (h x (by simp)) machine).append fun t' hnodes => ?_
    exact ih (hnodes ▸ hid) _ fun y hy hr => (h y (by simp [hy]) hr).of_nodes hnodes

end Service

namespace Service

variable {debug : V → String} {cfg : Config NodeID} {t : Service NodeID K V}

theorem correlated_run (hrun : Run (step debug cfg) KeepsIds boot t) :
    t.Correlated cfg ∧ t.Conveyed debug := by
  refine Run.invariant (I := fun t => t.Correlated cfg ∧ t.Conveyed debug) hrun ?_
    fun t l t' H hl hs => ⟨H.1.step hl hs, H.2.step hs⟩
  refine ⟨⟨fun i _ => ⟨?_, ?_, ?_, ?_⟩, by simp [boot], by simp [boot]⟩, ?_, by simp [boot]⟩
  all_goals simp [boot, issued, ClientNode.new, ClientFront.new, ClientNode.Records]

end Service

/-! ## The simulation -/

namespace Store

variable {debug : V → String} {cfg : Config NodeID} {s s' : Store NodeID K V}
  {t t' : Service NodeID K V} {i client : NodeID} {l : StoreLabel NodeID K V}
  {a : Action NodeID (Command NodeID K V)} {msg : ClientMessage K V} {p : Prop}

/-- The service knows the commands that the nodes of the store will reply to. -/
structure Refines (s : Store NodeID K V) (t : Service NodeID K V) : Prop where
  front : ∀ i, (t.nodes i).front = (s.apps i).front
  parcels : t.packets.map Packet.parcel = s.parcels
  log : ∀ {i e}, e ∈ (s.cluster.nodes i).state.c.log.inner → e.cmd.respond = true → t.Knows i e.cmd
  checked : ∀ {i cmd}, (s.cluster.nodes i).clientLoop = .checked cmd → t.Knows i cmd
  relaying : ∀ {i client msg}, (s.apps i).relaying = some (client, msg) →
    msg.inReplyTo = none ∧ ⟨client, i, msg⟩ ∈ s.parcels

/-- No node crashes. -/
def CrashFree (_ : Store NodeID K V) : StoreLabel NodeID K V → Prop
  | .node _ (.engine a) => a.isCrash = false
  | _ => True

instance (s : Store NodeID K V) (l : StoreLabel NodeID K V) : Decidable (s.CrashFree l) := by
  unfold CrashFree
  split <;> infer_instance

/-- Nor does a counter wrap, and a response that a node relays answers a request that it has
forwarded under the original ID. -/
def KeepsIds (s : Store NodeID K V) : StoreLabel NodeID K V → Prop
  | .node i (.engine a) => a.isCrash = false ∧ (s.apps i).front.nextId + 1 < 2 ^ 64
  | .node i (.take _ msg) => (s.apps i).front.nextId + 1 < 2 ^ 64 ∧
    ∀ r ∈ msg.inReplyTo, ∀ x ∈ (s.apps i).front.proxies.lookup r, x.1 = r
  | .node i .relay => (s.apps i).front.nextId + 1 < 2 ^ 64
  | .request .. => True

instance (s : Store NodeID K V) (l : StoreLabel NodeID K V) : Decidable (s.KeepsIds l) := by
  unfold KeepsIds
  split <;> infer_instance

omit [DecidableEq NodeID] [DecidableEq K] [DecidableEq V] in
theorem KeepsIds.crashFree (h : s.KeepsIds l) : s.CrashFree l := by
  unfold KeepsIds at h
  split at h
  · exact h.1
  · trivial
  · trivial
  · trivial

omit [DecidableEq NodeID] [DecidableEq K] [DecidableEq V] in
theorem Refines.exists_packet (H : s.Refines t) (h : ⟨client, i, msg⟩ ∈ s.parcels) :
    ∃ o, ⟨⟨i, msg, o⟩, client⟩ ∈ t.packets := by
  rw [← H.parcels] at h
  obtain ⟨⟨⟨d, m, o⟩, p⟩, hx, heq⟩ := List.mem_map.mp h
  obtain ⟨rfl, rfl, rfl⟩ := Parcel.mk.inj heq
  exact ⟨o, hx⟩

omit [DecidableEq NodeID] [DecidableEq K] [DecidableEq V] in
/-- Another state of Raft, in which there is nothing that the service does not know. -/
theorem Refines.cluster (H : s.Refines t) {c : Cluster NodeID (Command NodeID K V)}
    (hlog : ∀ {i e}, e ∈ (c.nodes i).state.c.log.inner → e.cmd.respond = true → t.Knows i e.cmd)
    (hchecked : ∀ {i cmd}, (c.nodes i).clientLoop = .checked cmd → t.Knows i cmd) :
    Refines { s with cluster := c } t where
  front := H.front
  parcels := H.parcels
  log := hlog
  checked := hchecked
  relaying := H.relaying

omit [DecidableEq K] [DecidableEq V] in
/-- Node `i` has sent `sent`, and the service has, too. -/
theorem Refines.update (H : s.Refines t) {n : ClientNode NodeID K V (NodeID × ClientMessage K V)}
    {app : Application NodeID K V} {sent : List (NodeID × ClientMessage K V)}
    {out : List (Dispatch NodeID K V (NodeID × ClientMessage K V))}
    (hfront : n.front = app.front) (hlog : (t.nodes i).log <+: n.log)
    (hout : out.map (fun d => (d.destination, d.body)) = sent)
    (hrelaying : ∀ {client msg}, app.relaying = some (client, msg) →
      msg.inReplyTo = none ∧ ⟨client, i, msg⟩ ∈ s.parcels) :
    (s.update i app sent).Refines (t.update i n out) where
  front j := by
    by_cases hj : j = i
    · simp [Store.update, Service.update, hj, hfront]
    · simp [Store.update, Service.update, hj, H.front]
  parcels := by
    subst hout
    simp [Store.update, Service.update, ← H.parcels, Packet.parcel]
  log he hrespond := (H.log he hrespond).update hlog
  checked hloop := (H.checked hloop).update hlog
  relaying {j client msg} h := by
    have hkept : (msg.inReplyTo = none ∧ ⟨client, j, msg⟩ ∈ s.parcels) := by
      by_cases hj : j = i
      · subst hj
        exact hrelaying (by simpa [Store.update] using h)
      · exact H.relaying (by simpa [Store.update, hj] using h)
    exact ⟨hkept.1, List.mem_append_left _ hkept.2⟩

omit [DecidableEq K] [DecidableEq V] in
theorem serve_eq_ok {isLeader : Bool} {leader : Option NodeID}
    {r : ClientFront NodeID × Served NodeID K V}
    (hs : s.serve i isLeader leader client msg = .ok r) :
    (s.apps i).front.serve i isLeader leader client msg = .ok r := by
  unfold Store.serve at hs
  cases h : (s.apps i).front.serve i isLeader leader client msg with
  | error e =>
    rw [h] at hs
    cases hs
  | ok x =>
    rw [h] at hs
    cases hs
    rfl

/-- A message that is served, as the service does. -/
theorem Refines.serve (debug : V → String) (H : s.Refines t) (hi : i ∈ cfg.ids)
    (hmem : ⟨client, i, msg⟩ ∈ s.parcels) (hid : p → (s.apps i).front.nextId + 1 < 2 ^ 64)
    (hrelay : p → ∀ r ∈ msg.inReplyTo, ∀ x ∈ (s.apps i).front.proxies.lookup r, x.1 = r)
    {isLeader : Bool} {leader : Option NodeID} {front : ClientFront NodeID}
    {served : Served NodeID K V} (hs : s.serve i isLeader leader client msg = .ok (front, served)) :
    ∃ t', Service.Runs debug cfg p t t' ∧ (s.dispatch i front served).Refines t' ∧
      ∀ cmd, served = .append cmd → t'.Knows i cmd := by
  obtain ⟨o, hpacket⟩ := H.exists_packet hmem
  have hfront := H.front i
  have hserve : (t.nodes i).front.serve i isLeader leader client msg = .ok (front, served) := by
    rw [hfront]
    exact serve_eq_ok hs
  have hkeeps (h : p) : t.KeepsIds (.node i (.serve isLeader leader client msg o)) := by
    simp only [Service.KeepsIds, hfront]
    exact ⟨hid h, hrelay h⟩
  have hstep : ∀ {n out}, (t.nodes i).step debug i (.serve isLeader leader client msg o) =
      .ok (n, out) → Service.Runs debug cfg p t (t.update i n out) := by
    intro n out hn
    refine .single ⟨_, hkeeps, ?_⟩
    simp only [Service.step]
    rw [if_pos ⟨hi, hpacket⟩, hn]
    rfl
  cases served with
  | append cmd =>
    refine ⟨_, hstep (by simp only [ClientNode.step, hserve]; rfl), ?_, ?_⟩
    · exact H.update rfl (List.prefix_append ..) rfl (by simp)
    · rintro _ ⟨⟩
      exact ⟨o, by simp [Service.update]⟩
  | send destination msg' =>
    refine ⟨_, hstep (by simp only [ClientNode.step, hserve]; rfl), ?_, by simp⟩
    exact H.update rfl (List.prefix_refl _) rfl (by simp)
  | drop =>
    refine ⟨_, hstep (by simp only [ClientNode.step, hserve]; rfl), ?_, by simp⟩
    exact H.update rfl (List.prefix_refl _) rfl (by simp)

/-- What a thread of Raft does to the map and to clients, as the service does. -/
theorem Refines.engine (H : s.Refines t) (hwf : s.cluster.WellFormed cfg)
    (hid : p → (s.apps i).front.nextId + 1 < 2 ^ 64) (ha : a ≠ .crash)
    (hrequest : ∀ cmd, a ≠ .clientRequest cmd) {c : Cluster NodeID (Command NodeID K V)}
    (hc : s.cluster.step cfg (i, a) = .ok c) :
    ∃ t', Service.Runs debug cfg p t t' ∧
      Refines { s.react debug i a with cluster := c } t' := by
  obtain ⟨hi, -, n, msgs, hn, rfl⟩ := Cluster.step_eq_ok hc
  have hready := hwf.ready (i := i)
  have hknown : ∀ {e}, e ∈ n.state.c.log.inner → e.cmd.respond = true → t.Knows i e.cmd := by
    intro e he hrespond
    obtain ⟨k, hk⟩ := List.getElem?_of_mem he
    by_cases happend : a = .clientAppend
    · subst happend
      obtain ⟨cmd, hloop, hstate, -⟩ := Node.step_clientAppend hn
      rw [hstate] at he
      rcases List.mem_append.mp he with he | he
      · exact H.log he hrespond
      · obtain rfl := List.mem_singleton.mp he
        exact H.checked hloop
    · have hreceives := Node.step_receives hready hn ha happend
      exact H.log (List.mem_of_getElem? (own_of_receives hreceives hk hrespond)) hrespond
  have hfront : p → (t.nodes i).front.nextId + 1 < 2 ^ 64 := (H.front i).symm ▸ hid
  have hdismissed : Service.CanEmit debug cfg p t i
      (((s.cluster.nodes i).effects a).dismissed.filterMap (·.1.cmd.dismiss)) :=
    Service.canEmit_dismissed hi hfront fun x hx => H.log (Node.mem_dismissed hn hx)
  have happlied : ∀ t' : Service NodeID K V, t'.nodes = t.nodes →
      Service.CanEmit debug cfg p t' i ((applyAll debug (s.machines i)
        ((s.cluster.nodes i).effects a).applied).2.map (·.2)) := by
    intro t' hnodes
    refine Service.canEmit_applied hi (hnodes ▸ hfront) _ fun x hx hrespond => ?_
    refine Service.Knows.of_nodes (hknown ?_ hrespond) hnodes
    rw [(Node.step_executes hready hn ha).apps_eq] at hx
    exact Log.mem_of_mem_segment hx
  obtain ⟨t', hrun, hnodes, hpackets⟩ := hdismissed.append happlied
  refine ⟨t', hrun, ?_⟩
  have hcrash : a.isCrash = false := by
    cases a with
    | crash => exact absurd rfl ha
    | _ => rfl
  refine ⟨fun j => ?_, ?_, fun {j e} he hrespond => ?_, fun {j cmd} hloop => ?_,
    fun {j client msg} h => ?_⟩
  · rw [hnodes, H.front j]
    by_cases hj : j = i
    · simp [react, Store.update, hcrash, hj]
    · simp [react, Store.update, hj]
  · rw [hpackets, H.parcels]
    rfl
  · refine Service.Knows.of_nodes ?_ hnodes
    by_cases hj : j = i
    · subst hj
      exact hknown (by simpa using he) hrespond
    · exact H.log (by simpa [Cluster.update_of_ne hj] using he) hrespond
  · refine Service.Knows.of_nodes ?_ hnodes
    by_cases hj : j = i
    · subst hj
      rw [Cluster.update_self] at hloop
      exact H.checked ((Node.step_checked hn hloop).resolve_left (hrequest cmd))
    · exact H.checked (by simpa [Cluster.update_of_ne hj] using hloop)
  · have hkept : (s.apps j).relaying = some (client, msg) := by
      by_cases hj : j = i
      · simpa [react, Store.update, hcrash, hj] using h
      · simpa [react, Store.update, hj] using h
    exact ⟨(H.relaying hkept).1, List.mem_append_left _ (H.relaying hkept).2⟩

/-- The client loop has a command to append that the service knows. -/
theorem Refines.clientRequest (H : s.Refines t) (hwf : s.cluster.WellFormed cfg)
    {cmd : Command NodeID K V} {c : Cluster NodeID (Command NodeID K V)}
    (hc : s.cluster.step cfg (i, .clientRequest cmd) = .ok c) (hcmd : t.Knows i cmd) :
    Refines { s with cluster := c } t := by
  obtain ⟨hi, -, n, msgs, hn, rfl⟩ := Cluster.step_eq_ok hc
  have hreceives := Node.step_receives hwf.ready hn (by simp) (by simp)
  refine H.cluster (fun {j e} he hrespond => ?_) fun {j cmd'} hloop => ?_
  · by_cases hj : j = i
    · subst hj
      rw [Cluster.update_self] at he
      obtain ⟨k, hk⟩ := List.getElem?_of_mem he
      exact H.log (List.mem_of_getElem? (own_of_receives hreceives hk hrespond)) hrespond
    · rw [Cluster.update_of_ne hj] at he
      exact H.log he hrespond
  · by_cases hj : j = i
    · subst hj
      rw [Cluster.update_self] at hloop
      rcases Node.step_checked hn hloop with h | h
      · cases h
        exact hcmd
      · exact H.checked h
    · rw [Cluster.update_of_ne hj] at hloop
      exact H.checked hloop

/-- A step of the store is some steps of the service, which keep the IDs if it does. -/
theorem Refines.step (H : s.Refines t) (hwf : s.cluster.WellFormed cfg) (hl : s.CrashFree l)
    (hs : s.step debug cfg l = .ok s') :
    ∃ t', Service.Runs debug cfg (s.KeepsIds l) t t' ∧ s'.Refines t' := by
  unfold Store.step at hs
  split at hs
  · next client node msg =>
    split at hs
    · next h =>
      cases hs
      have hstep : t.step debug cfg (.request client node msg) = .ok
          { t with packets := t.packets ++ [⟨⟨node, msg, (client, msg)⟩, client⟩] } := by
        simp only [Service.step]
        exact if_pos h
      refine ⟨_, .single ⟨.request client node msg, fun _ => trivial, hstep⟩, H.front, ?_, H.log,
        H.checked, fun hr => ?_⟩
      · simp [H.parcels, Packet.parcel]
      · exact ⟨(H.relaying hr).1, List.mem_append_left _ (H.relaying hr).2⟩
    · cases hs
  · cases hs
  · next i a hrequest =>
    split at hs
    · next c hc =>
      cases hs
      have ha : a ≠ .crash := fun h => by
        subst h
        exact absurd hl (by simp [CrashFree, Action.isCrash])
      exact H.engine hwf And.right ha (fun cmd h => hrequest cmd h) hc
    · cases hs
  · next i client msg =>
    split at hs
    · next h =>
      obtain ⟨hi, -, hmem⟩ := h
      unfold take at hs
      simp only at hs
      split at hs
      · next hreq =>
        cases hs
        have H' : Refines (s.update i { s.apps i with relaying := some (client, msg) } [])
            (t.update i (t.nodes i) []) := by
          refine H.update (H.front i) (List.prefix_refl _) rfl fun h => ?_
          cases h
          exact ⟨hreq.1, hmem⟩
        rw [t.update_self] at H'
        exact ⟨t, .refl, H'⟩
      · simp only [Except.bind_eq_ok_iff, Prod.exists] at hs
        obtain ⟨front, served, hserve, hs⟩ := hs
        obtain ⟨t', hrun, H', hcmd⟩ := H.serve debug hi hmem And.left And.right hserve
        split at hs
        · next cmd =>
          split at hs
          · next c hc =>
            cases hs
            exact ⟨t', hrun, H'.clientRequest hwf hc (hcmd cmd rfl)⟩
          · cases hs
        · cases hs
          exact ⟨t', hrun, H'⟩
    · cases hs
  · next i =>
    split at hs
    · next hi =>
      unfold relay at hs
      split at hs
      · next client msg hrelay =>
        simp only [Except.bind_eq_ok_iff, Prod.exists] at hs
        obtain ⟨front, served, hserve, hs⟩ := hs
        cases hs
        obtain ⟨hreq, hmem⟩ := H.relaying hrelay
        obtain ⟨t', hrun, H', -⟩ := H.serve debug hi hmem id (by simp [hreq]) hserve
        exact ⟨t', hrun, H'⟩
      · cases hs
    · cases hs

theorem wellFormed_step (hwf : s.cluster.WellFormed cfg) (hs : s.step debug cfg l = .ok s') :
    s'.cluster.WellFormed cfg := by
  rcases step_eq_ok hs with ⟨i, a, c, -, hc, rfl⟩ | ⟨-, hc | ⟨i, cmd, hc⟩⟩
  · exact hwf.step hc
  · exact hc ▸ hwf
  · exact hwf.step hc

theorem refines_run {P : Store NodeID K V → StoreLabel NodeID K V → Prop}
    (hrun : Run (step debug cfg) P (boot cfg) s) (hcrash : ∀ s l, P s l → s.CrashFree l)
    (hkeeps : ∀ s l, P s l → p → s.KeepsIds l) :
    ∃ t, Service.Runs debug cfg p .boot t ∧ s.Refines t := by
  have h : s.cluster.WellFormed cfg ∧ ∃ t, Service.Runs debug cfg p .boot t ∧ s.Refines t := by
    refine Run.invariant (I := fun s => s.cluster.WellFormed cfg ∧ ∃ t,
      Service.Runs debug cfg p .boot t ∧ s.Refines t) hrun ?_ ?_
    · refine ⟨.boot, .boot, .refl, fun _ => rfl, rfl, ?_, ?_, ?_⟩
      all_goals simp [boot, Cluster.boot, Node.boot, State.new, Persistent.default, Application.new]
    · rintro s l s' ⟨hwf, t, hrun, H⟩ hl hs
      obtain ⟨t', hrun', H'⟩ := H.step hwf (hcrash s l hl) hs
      refine ⟨wellFormed_step hwf hs, t', hrun.trans (hrun'.weaken ?_), H'⟩
      exact fun t l' h hp => h (hkeeps s l hl hp)
  exact h.2

/-- The store refines the service. -/
theorem refines (hrun : Run (step debug cfg) CrashFree (boot cfg) s) :
    ∃ t, Run (Service.step debug cfg) (fun _ _ => True) .boot t ∧ s.Refines t := by
  obtain ⟨t, hrun', H⟩ := refines_run (p := False) hrun (fun _ _ => id) fun _ _ _ => False.elim
  exact ⟨t, hrun'.weaken fun _ _ _ => trivial, H⟩

/-- A response to a client is the outcome of a request that this client has sent under the ID that
it is in reply to. -/
def RepliesGenuine (debug : V → String) (cfg : Config NodeID) (s : Store NodeID K V) : Prop :=
  ∀ x ∈ s.parcels, ∀ r ∈ x.body.inReplyTo, x.destination ∉ cfg.ids →
    ∃ y ∈ s.parcels, y.source = x.destination ∧ y.body.inReplyTo = none ∧ y.body.id = r ∧
      ClientNode.Outcome NodeID debug y.body x.body

theorem replies_genuine (hrun : Run (step debug cfg) KeepsIds (boot cfg) s) :
    s.RepliesGenuine debug cfg := by
  obtain ⟨t, hrun', H⟩ :=
    refines_run (p := True) hrun (fun _ _ => KeepsIds.crashFree) fun _ _ h _ => h
  obtain ⟨hcorr, hconv⟩ := Service.correlated_run (hrun'.weaken fun _ _ h => h trivial)
  intro x hx r hr hdest
  rw [← H.parcels] at hx
  obtain ⟨z, hz, rfl⟩ := List.mem_map.mp hx
  have hr' : z.body.inReplyTo = some r := hr
  obtain ⟨y, hy, hsource, hreq, hid, horigin⟩ := hcorr.responses z hz r hr'
  have hclient := hcorr.clients y hy (hsource ▸ hdest)
  refine ⟨y.parcel, H.parcels ▸ List.mem_map_of_mem hy, hsource, hreq, hid, ?_⟩
  have hout := hconv.packets z hz
  rw [ClientNode.Conveys, hr', ← horigin, hclient] at hout
  exact hout

/-! ## What clients are told -/

/-- The response says that the operation was not executed, or may not have been. -/
def Refusal (msg : ClientMessage K V) : Prop :=
  ∃ r id code text, msg = .errorResponse r id code text ∧
    (code = ReservedErrorCode.temporarilyUnavailable.code ∨ code = ReservedErrorCode.abort.code)

/-- If the message is a response, it is a refusal or, up to its ID, an answer of the trace. -/
def Traced (trace : List (Event OpId (Command NodeID K V) (ClientMessage K V)))
    (msg : ClientMessage K V) : Prop :=
  msg.inReplyTo ≠ none → Refusal msg ∨ ∃ id m, .answer id m ∈ trace ∧ msg = m.setId msg.id

section

omit [DecidableEq NodeID] [DecidableEq K] [DecidableEq V]

variable {trace trace' : List (Event OpId (Command NodeID K V) (ClientMessage K V))}

theorem Traced.mono (h : Traced trace msg) (htrace : trace ⊆ trace') : Traced trace' msg := by
  intro hr
  refine (h hr).imp_right fun h => ?_
  obtain ⟨id, m, hmem, heq⟩ := h
  exact ⟨id, m, htrace hmem, heq⟩

theorem traced_of_request (h : msg.inReplyTo = none) : Traced trace msg := fun hr => absurd h hr

theorem Traced.setId (h : Traced trace msg) (id : MessageID) : Traced trace (msg.setId id) := by
  intro hr
  rw [ClientMessage.inReplyTo_setId] at hr
  rcases h hr with ⟨r, id', code, text, rfl, hcode⟩ | ⟨op, m, hmem, heq⟩
  · exact .inl ⟨r, id, code, text, rfl, hcode⟩
  · refine .inr ⟨op, m, hmem, ?_⟩
    rw [heq, ClientMessage.setId_setId, ClientMessage.id_setId]

theorem traced_of_dismiss {cmd : Command NodeID K V} {x : NodeID × ClientMessage K V}
    (h : cmd.dismiss = some x) : Traced trace x.2 := by
  intro _
  unfold Command.dismiss at h
  split at h
  · cases h
    exact .inl ⟨_, _, _, _, rfl, .inr rfl⟩
  · cases h

end

/-- All messages are traced, and the client loop only asks for the leader to pass on a request. -/
structure Tells (s : Store NodeID K V) : Prop where
  parcels : ∀ x ∈ s.parcels, Traced s.trace x.body
  relaying : ∀ {i client msg}, (s.apps i).relaying = some (client, msg) → msg.inReplyTo = none

omit [DecidableEq K] [DecidableEq V] in
theorem Tells.update (H : s.Tells) {app : Application NodeID K V}
    {sent : List (NodeID × ClientMessage K V)}
    {trace : List (Event OpId (Command NodeID K V) (ClientMessage K V))}
    {cluster : Cluster NodeID (Command NodeID K V)} (htrace : s.trace ⊆ trace)
    (hsent : ∀ x ∈ sent, Traced trace x.2)
    (hrelaying : ∀ {client msg}, app.relaying = some (client, msg) → msg.inReplyTo = none) :
    Tells { s.update i app sent with cluster, trace } where
  parcels x hx := by
    rcases List.mem_append.mp hx with hx | hx
    · exact (H.parcels x hx).mono htrace
    · obtain ⟨y, hy, rfl⟩ := List.mem_map.mp hx
      exact hsent y hy
  relaying {j client msg} h := by
    by_cases hj : j = i
    · subst hj
      exact hrelaying (by simpa [Store.update] using h)
    · exact H.relaying (by simpa [Store.update, hj] using h)

omit [DecidableEq K] [DecidableEq V] in
theorem Tells.dispatch (H : s.Tells) (hmsg : Traced s.trace msg) {isLeader : Bool}
    {leader : Option NodeID} {front : ClientFront NodeID} {served : Served NodeID K V}
    (hs : s.serve i isLeader leader client msg = .ok (front, served)) :
    (s.dispatch i front served).Tells := by
  obtain ⟨proxies, -, hserves⟩ := ClientFront.serve_eq_ok (serve_eq_ok hs)
  have hsend : ∀ {destination msg'}, Traced s.trace msg' →
      (s.dispatch i front (.send destination msg')).Tells := by
    intro destination msg' h
    refine H.update (List.Subset.refl _) (fun x hx => ?_) (by simp)
    obtain rfl := List.mem_singleton.mp hx
    exact h
  cases hserves with
  | append _ _ | drop _ => exact H.update (List.Subset.refl _) (by simp) (by simp)
  | forward hreq _ =>
    exact hsend (traced_of_request (by rw [ClientMessage.inReplyTo_setId, hreq]))
  | unavailable _ => exact hsend fun _ => .inl ⟨_, _, _, _, rfl, .inl rfl⟩
  | relay _ _ => exact hsend (hmsg.setId _)

theorem Tells.step (H : s.Tells) (hs : s.step debug cfg l = .ok s') : s'.Tells := by
  unfold Store.step at hs
  split at hs
  · split at hs
    · next h =>
      cases hs
      refine ⟨fun x hx => ?_, H.relaying⟩
      rcases List.mem_append.mp hx with hx | hx
      · exact H.parcels x hx
      · obtain rfl := List.mem_singleton.mp hx
        exact traced_of_request h.2
    · cases hs
  · cases hs
  · next i a hrequest =>
    split at hs
    · next c hc =>
      cases hs
      refine H.update ?_ (fun x hx => ?_) fun h => ?_
      · exact fun x hx => List.mem_append_left _ (List.mem_append_left _ hx)
      · rcases List.mem_append.mp hx with hx | hx
        · obtain ⟨y, -, hy⟩ := List.mem_filterMap.mp hx
          exact traced_of_dismiss hy
        · obtain ⟨y, hy, rfl⟩ := List.mem_map.mp hx
          intro _
          refine .inr ⟨y.1, y.2.2, List.mem_append_right _ (List.mem_map.mpr ⟨y, hy, rfl⟩), ?_⟩
          exact ClientMessage.setId_id.symm
      · split at h
        · cases h
        · exact H.relaying h
    · cases hs
  · next i client msg =>
    split at hs
    · next h =>
      unfold take at hs
      simp only at hs
      split at hs
      · next hreq =>
        cases hs
        refine H.update (List.Subset.refl _) (by simp) fun h => ?_
        cases h
        exact hreq.1
      · simp only [Except.bind_eq_ok_iff, Prod.exists] at hs
        obtain ⟨front, served, hserve, hs⟩ := hs
        have H' := H.dispatch (H.parcels _ h.2.2) hserve
        split at hs
        · split at hs
          · cases hs
            exact ⟨H'.parcels, H'.relaying⟩
          · cases hs
        · cases hs
          exact H'
    · cases hs
  · split at hs
    · unfold relay at hs
      split at hs
      · next hrelay =>
        simp only [Except.bind_eq_ok_iff, Prod.exists] at hs
        obtain ⟨front, served, hserve, hs⟩ := hs
        cases hs
        exact H.dispatch (traced_of_request (H.relaying hrelay)) hserve
      · cases hs
    · cases hs

/-- Clients are told what the operations give in one sequential order, which agrees with real time,
or that their operation was not executed. -/
theorem replies_linearized (hrun : Run (step debug cfg) Recoverable (boot cfg) s) :
    ∃ order, Linearizes (service debug) order s.trace ∧
      ∀ x ∈ s.parcels, x.body.inReplyTo ≠ none → Refusal x.body ∨ ∃ n id cmd msg,
        order[n]? = some (id, cmd) ∧ .invoke id cmd ∈ s.trace ∧
        (service debug).answer (order.map Prod.snd) n = some msg ∧ x.body = msg.setId x.body.id := by
  have H : s.Tells := by
    refine Run.invariant (I := Tells) hrun ?_ fun s l s' H _ hs => H.step hs
    exact ⟨by simp [boot], by simp [boot, Application.new]⟩
  obtain ⟨g, order, -, hexp⟩ := explained_run hrun (explained_boot debug cfg)
  refine ⟨order, hexp.linearizes, fun x hx hr => (H.parcels x hx hr).imp_right fun h => ?_⟩
  obtain ⟨id, msg, hmem, heq⟩ := h
  obtain ⟨n, cmd, hn, hres⟩ := hexp.linearizes.answered hmem
  exact ⟨n, id, cmd, msg, hn, hexp.linearizes.invoked _ (List.mem_of_getElem? hn), hres, heq⟩

end Store

namespace Example

open Store

/-- What was sent to `c`. -/
def told (s : Store String ℕ ℕ) : List (Parcel String ℕ ℕ) := s.parcels.filter (·.destination = "c")

def toldAfterRead : List (Parcel String ℕ ℕ) :=
  [⟨"a", "c", .writeResponse 1 1⟩, ⟨"b", "c", .readResponse 1 8 1⟩]

theorem replies_genuine_read : ∃ s, Run (step Nat.repr pair) KeepsIds (boot pair) s ∧
    told s = toldAfterRead ∧ s.RepliesGenuine Nat.repr pair := by
  have hexec : (Run.exec (step Nat.repr pair) (fun s l => decide (s.KeepsIds l)) (writes ++ reads)
      (boot pair)).map told = some toldAfterRead := by
    decide +kernel
  obtain ⟨s, hrun, hs⟩ := Run.exists_of_exec hexec fun _ _ => of_decide_eq_true
  exact ⟨s, hrun, hs, replies_genuine hrun⟩

theorem refines_read : ∃ s, Run (step Nat.repr pair) CrashFree (boot pair) s ∧
    told s = toldAfterRead ∧
    ∃ t, Run (Service.step Nat.repr pair) (fun _ _ => True) .boot t ∧ s.Refines t := by
  have hexec : (Run.exec (step Nat.repr pair) (fun s l => decide (s.CrashFree l)) (writes ++ reads)
      (boot pair)).map told = some toldAfterRead := by
    decide +kernel
  obtain ⟨s, hrun, hs⟩ := Run.exists_of_exec hexec fun _ _ => of_decide_eq_true
  exact ⟨s, hrun, hs, refines hrun⟩

theorem replies_linearized_read : ∃ s, Run (step Nat.repr pair) Recoverable (boot pair) s ∧
    told s = toldAfterRead ∧ ∃ order, Linearizes (service Nat.repr) order s.trace ∧
      ∀ x ∈ s.parcels, x.body.inReplyTo ≠ none → Refusal x.body ∨ ∃ n id cmd msg,
        order[n]? = some (id, cmd) ∧ .invoke id cmd ∈ s.trace ∧
        (service Nat.repr).answer (order.map Prod.snd) n = some msg ∧
        x.body = msg.setId x.body.id := by
  have hexec : (Run.exec (step Nat.repr pair) (fun s l => decide (s.Recoverable l)) (writes ++ reads)
      (boot pair)).map told = some toldAfterRead := by
    decide +kernel
  obtain ⟨s, hrun, hs⟩ := Run.exists_of_exec hexec fun _ _ => of_decide_eq_true
  exact ⟨s, hrun, hs, replies_linearized hrun⟩

end Example

end Miniraft

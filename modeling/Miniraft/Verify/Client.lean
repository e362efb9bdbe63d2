import Miniraft.Raft.Client
import Miniraft.Verify.Election

/-!
# Replies find their requests

A request is known by who has made it and under which ID, be it a client or a node that forwards
it. The client side of a node correlates if every entry of its proxy table and every command in
its log says for whom it stands (`ClientNode.Correlates`); the steps keep this up as long as the
counter does not wrap. A response that a node relays keeps the ID of the forwarded request in
`in_reply_to`. So clients get the right responses in every run in which the nodes forward requests
under the IDs they came with (`Service.replies_correlated`), and not else.
-/

namespace Miniraft

variable {NodeID K V O : Type}

namespace ClientMessage

variable {m : ClientMessage K V} {id id' : MessageID}

@[simp] theorem id_setId : (m.setId id).id = id := by
  cases m <;> rfl

@[simp] theorem inReplyTo_setId : (m.setId id).inReplyTo = m.inReplyTo := by
  cases m <;> rfl

@[simp] theorem setId_id : m.setId m.id = m := by
  cases m <;> rfl

@[simp] theorem setId_setId : (m.setId id').setId id = m.setId id := by
  cases m <;> rfl

end ClientMessage

theorem MessageID.next_eq {id : MessageID} (h : id + 1 < 2 ^ 64) : id.next = id + 1 :=
  Nat.mod_eq_of_lt h

namespace Command

variable {cmd : Command NodeID K V} {client : NodeID} {q : MessageID} {m resp : ClientMessage K V}

theorem ofRequest_eq_ok (h : ofRequest client q m = .ok cmd) :
    cmd.client = some client ∧ cmd.inReplyTo = some m.id ∧ cmd.responseId = some q := by
  cases m with
  | readRequest key id | writeRequest key value id | casRequest key f t id =>
    cases h
    exact ⟨rfl, rfl, rfl⟩
  | _ => cases h

variable [DecidableEq K] [DecidableEq V] {debug : V → String} {machine : Map K V}

theorem outcome_ids : (cmd.outcome debug machine).2.id = cmd.responseId.getD 0 ∧
    (cmd.outcome debug machine).2.inReplyTo = some (cmd.inReplyTo.getD 0) := by
  unfold outcome
  dsimp only
  split
  · split
    · exact ⟨rfl, rfl⟩
    · exact ⟨rfl, rfl⟩
  · exact ⟨rfl, rfl⟩
  · split
    · split
      · exact ⟨rfl, rfl⟩
      · exact ⟨rfl, rfl⟩
    · exact ⟨rfl, rfl⟩

theorem apply_eq_outcome (h : (cmd.apply debug machine).2 = some (client, resp)) :
    cmd.client = some client ∧ resp = (cmd.outcome debug machine).2 := by
  unfold apply at h
  dsimp only at h
  split at h
  · next hc _ =>
    cases h
    exact ⟨hc, rfl⟩
  · cases h

/-- A command is answered to its client, under the IDs it has. -/
theorem apply_eq_some (h : (cmd.apply debug machine).2 = some (client, resp)) :
    cmd.client = some client ∧ resp.id = cmd.responseId.getD 0 ∧
      resp.inReplyTo = some (cmd.inReplyTo.getD 0) := by
  obtain ⟨hc, rfl⟩ := apply_eq_outcome h
  exact ⟨hc, outcome_ids⟩

omit [DecidableEq K] [DecidableEq V] in
theorem dismiss_eq_some (h : cmd.dismiss = some (client, resp)) :
    cmd.client = some client ∧ resp.id = cmd.responseId.getD 0 ∧
      resp.inReplyTo = some (cmd.inReplyTo.getD 0) := by
  unfold dismiss at h
  split at h
  · next q r c hq hr hc _ =>
    cases h
    exact ⟨hc, by rw [hq]; rfl, by rw [hr]; rfl⟩
  · cases h

end Command

/-! ## The loop -/

theorem Map.lookup_of_erase {m : Map MessageID V} {k key : MessageID} {x : V}
    (h : AList.lookup k (m.erase key) = some x) : m.lookup k = some x := by
  rcases eq_or_ne k key with rfl | hne
  · rw [AList.lookup_erase] at h
    cases h
  · rwa [AList.lookup_erase_ne hne] at h

theorem Map.lookup_popFirst {m : Map MessageID V} {k : MessageID} {x : V}
    (h : m.popFirst.lookup k = some x) : m.lookup k = some x := by
  unfold popFirst at h
  split at h
  · exact lookup_of_erase h
  · exact h

theorem Map.lookup_makeRoom {m : Map MessageID V} {k : MessageID} {x : V}
    (h : m.makeRoom.lookup k = some x) : m.lookup k = some x := by
  unfold makeRoom at h
  split at h
  · exact lookup_popFirst h
  · exact h

namespace ClientFront

/-- What the loop can do with a message of `client`: the proxy table after it and what it does. -/
inductive Serves (f : ClientFront NodeID) (client : NodeID) (msg : ClientMessage K V) :
    Map MessageID (MessageID × NodeID) → Served NodeID K V → Prop
  | append {cmd} : msg.inReplyTo = none → Command.ofRequest client f.nextId msg = .ok cmd →
    Serves f client msg f.proxies (.append cmd)
  | forward {leader} {proxies : Map MessageID (MessageID × NodeID)} : msg.inReplyTo = none →
    (∀ {k x}, proxies.lookup k = some x → f.proxies.lookup k = some x) →
    Serves f client msg (proxies.insert f.nextId (msg.id, client))
      (.send leader (msg.setId f.nextId))
  | unavailable {text} : msg.inReplyTo = none →
    Serves f client msg f.proxies (.send client (.errorResponse msg.id f.nextId
      ReservedErrorCode.temporarilyUnavailable.code text))
  | relay {r originalId originalClient} : msg.inReplyTo = some r →
    f.proxies.lookup r = some (originalId, originalClient) →
    Serves f client msg (f.proxies.erase r) (.send originalClient (msg.setId originalId))
  | drop {r} : msg.inReplyTo = some r → Serves f client msg f.proxies .drop

variable [DecidableEq NodeID] {f f' : ClientFront NodeID} {self client : NodeID} {isLeader : Bool}
  {leader : Option NodeID} {msg : ClientMessage K V} {served : Served NodeID K V}

theorem serve_eq_ok (hs : f.serve self isLeader leader client msg = .ok (f', served)) :
    ∃ proxies, f' = ⟨f.nextId.next, proxies⟩ ∧ f.Serves client msg proxies served := by
  unfold serve at hs
  simp only at hs
  split at hs
  · next hreq =>
    split at hs
    · simp only [Except.bind_eq_ok_iff, Except.pure_eq_ok_iff, Prod.mk.injEq] at hs
      obtain ⟨cmd, hcmd, rfl, rfl⟩ := hs
      exact ⟨_, rfl, .append hreq hcmd⟩
    split at hs
    · split at hs
      · cases hs
      split at hs
      · cases hs
      · cases hs
        exact ⟨_, rfl, .forward hreq Map.lookup_makeRoom⟩
    · cases hs
      exact ⟨_, rfl, .unavailable hreq⟩
  · next r hresp =>
    split at hs
    · next hentry =>
      cases hs
      exact ⟨_, rfl, .relay hresp hentry⟩
    · cases hs
      exact ⟨_, rfl, .drop hresp⟩

end ClientFront

/-! ## Nodes -/

/-- `I p m o` is that `p` has made a request under the ID `m`, with origin `o`. -/
abbrev Issued (NodeID O : Type) := NodeID → MessageID → O → Prop

namespace ClientNode

/-- The requests that a node makes when it sends `sent`. -/
def issues (I : Issued NodeID O) (i : NodeID) (sent : List (Dispatch NodeID K V O)) :
    Issued NodeID O := fun p m o =>
  I p m o ∨ p = i ∧ ∃ d ∈ sent, d.body.inReplyTo = none ∧ d.body.id = m ∧ d.origin = o

/-- The client side of node `i` knows for whom it acts. -/
structure Correlates (I : Issued NodeID O) (i : NodeID) (n : ClientNode NodeID K V O) : Prop where
  ids : ∀ {m o}, I i m o → m < n.front.nextId
  unique : ∀ {m o o'}, I i m o → I i m o' → o = o'
  proxies : ∀ {k originalId originalClient},
    n.front.proxies.lookup k = some (originalId, originalClient) →
      ∃ o, I i k o ∧ I originalClient originalId o
  commands : ∀ {cmd o}, (cmd, o) ∈ n.log → ∃ client r q, cmd.client = some client ∧
    cmd.inReplyTo = some r ∧ cmd.responseId = some q ∧ I client r o ∧
    q < n.front.nextId ∧ ∀ o', ¬ I i q o'

/-- The message of `client` to node `i` is what it claims to be. -/
def Genuine (I : Issued NodeID O) (i client : NodeID) (msg : ClientMessage K V) (o : O) : Prop :=
  match msg.inReplyTo with
  | none => I client msg.id o
  | some r => I i r o

def Arrives (I : Issued NodeID O) (i : NodeID) : ClientAction NodeID K V O → Prop
  | .serve _ _ client msg origin => Genuine I i client msg origin
  | _ => True

/-- What a node sends: a request it forwards, a response to a request that was made, under an ID
that it has used for nothing else, or a response it relays. -/
inductive Sends (I : Issued NodeID O) (i : NodeID) (n n' : ClientNode NodeID K V O)
    (a : ClientAction NodeID K V O) (sent : List (Dispatch NodeID K V O))
    (d : Dispatch NodeID K V O) : Prop
  | forward : d.body.inReplyTo = none → d.body.id = n.front.nextId → Sends I i n n' a sent d
  | answer {r} : d.body.inReplyTo = some r → I d.destination r d.origin →
    d.body.id < n'.front.nextId → (∀ o, ¬ issues I i sent i d.body.id o) → Sends I i n n' a sent d
  | relay {isLeader leader client msg origin r} : a = .serve isLeader leader client msg origin →
    msg.inReplyTo = some r → d.body.inReplyTo = some r →
    n.front.proxies.lookup r = some (d.body.id, d.destination) → I i r d.origin →
    I d.destination d.body.id d.origin → Sends I i n n' a sent d

variable {I I' : Issued NodeID O} {i : NodeID} {n n' : ClientNode NodeID K V O}
  {sent : List (Dispatch NodeID K V O)} {a : ClientAction NodeID K V O}

theorem Genuine.mono {client : NodeID} {msg : ClientMessage K V} {o : O}
    (h : Genuine I i client msg o) (hle : ∀ {p m o}, I p m o → I' p m o) :
    Genuine I' i client msg o := by
  unfold Genuine at h ⊢
  split at h
  · exact hle h
  · exact hle h

/-- What others do is no matter. -/
theorem Correlates.mono (H : n.Correlates I i) (hle : ∀ {p m o}, I p m o → I' p m o)
    (hown : ∀ {m o}, I' i m o → I i m o) : n.Correlates I' i where
  ids h := H.ids (hown h)
  unique h h' := H.unique (hown h) (hown h')
  proxies h := by
    obtain ⟨o, hk, horig⟩ := H.proxies h
    exact ⟨o, hle hk, hle horig⟩
  commands h := by
    obtain ⟨client, r, q, hc, hr, hq, hI, hlt, hno⟩ := H.commands h
    exact ⟨client, r, q, hc, hr, hq, hle hI, hlt, fun o' h' => hno o' (hown h')⟩

/-- Responses are no requests. -/
theorem of_issues (hsent : ∀ d ∈ sent, d.body.inReplyTo ≠ none) {p : NodeID} {m : MessageID} {o : O}
    (h : issues I i sent p m o) : I p m o := by
  rcases h with h | ⟨-, d, hd, hnone, -⟩
  · exact h
  · exact absurd hnone (hsent d hd)

theorem Correlates.responses (H : n.Correlates I i)
    (hsent : ∀ d ∈ sent, d.body.inReplyTo ≠ none) : n.Correlates (issues I i sent) i :=
  H.mono .inl (of_issues hsent)

theorem Correlates.keep (H : n.Correlates I i) {proxies : Map MessageID (MessageID × NodeID)}
    (hsub : ∀ {k x}, proxies.lookup k = some x → n.front.proxies.lookup k = some x) :
    ClientNode.Correlates I i ⟨⟨n.front.nextId + 1, proxies⟩, n.log⟩ where
  ids h := (H.ids h).trans (Nat.lt_succ_self _)
  unique := H.unique
  proxies h := H.proxies (hsub h)
  commands h := by
    obtain ⟨client, r, q, hc, hr, hq, hI, hlt, hno⟩ := H.commands h
    exact ⟨client, r, q, hc, hr, hq, hI, hlt.trans (Nat.lt_succ_self _), hno⟩

theorem Correlates.append (H : n.Correlates I i) {client : NodeID} {msg : ClientMessage K V}
    {cmd : Command NodeID K V} {o : O} (hcmd : Command.ofRequest client n.front.nextId msg = .ok cmd)
    (hI : I client msg.id o) :
    ClientNode.Correlates I i
      ⟨⟨n.front.nextId + 1, n.front.proxies⟩, n.log ++ [(cmd, o)]⟩ where
  ids h := (H.ids h).trans (Nat.lt_succ_self _)
  unique := H.unique
  proxies := H.proxies
  commands h := by
    rcases List.mem_append.mp h with h | h
    · obtain ⟨client, r, q, hc, hr, hq, hI, hlt, hno⟩ := H.commands h
      exact ⟨client, r, q, hc, hr, hq, hI, hlt.trans (Nat.lt_succ_self _), hno⟩
    · cases List.mem_singleton.mp h
      obtain ⟨hc, hr, hq⟩ := Command.ofRequest_eq_ok hcmd
      exact ⟨client, _, _, hc, hr, hq, hI, Nat.lt_succ_self _, fun o' h => (H.ids h).false⟩

/-- A node may make a request under its next ID. -/
theorem Correlates.issue (H : n.Correlates I i) {o : O}
    (hle : ∀ {p m o'}, I p m o' → I' p m o')
    (hnew : ∀ {m o'}, I' i m o' → I i m o' ∨ m = n.front.nextId ∧ o' = o) :
    ClientNode.Correlates I' i ⟨⟨n.front.nextId + 1, n.front.proxies⟩, n.log⟩ := by
  have hfresh : ∀ o, ¬ I i n.front.nextId o := fun o h => (H.ids h).false
  refine ⟨fun {m o'} h => ?_, fun {m o' o''} h h' => ?_, fun {k orig c} h => ?_, fun {cmd o'} h => ?_⟩
  · rcases hnew h with h | ⟨rfl, -⟩
    · exact (H.ids h).trans (Nat.lt_succ_self _)
    · exact Nat.lt_succ_self _
  · rcases hnew h with hold | ⟨rfl, rfl⟩
    · rcases hnew h' with hold' | ⟨rfl, -⟩
      · exact H.unique hold hold'
      · exact absurd hold (hfresh _)
    · rcases hnew h' with hold' | ⟨-, rfl⟩
      · exact absurd hold' (hfresh _)
      · rfl
  · obtain ⟨o', hk, horig⟩ := H.proxies h
    exact ⟨o', hle hk, hle horig⟩
  · obtain ⟨client, r, q, hc, hr, hq, hI, hlt, hno⟩ := H.commands h
    refine ⟨client, r, q, hc, hr, hq, hle hI, hlt.trans (Nat.lt_succ_self _), fun o'' h => ?_⟩
    rcases hnew h with h | ⟨rfl, -⟩
    · exact hno o'' h
    · exact hlt.false

theorem Correlates.forward (H : n.Correlates I i) {client leader : NodeID}
    {msg : ClientMessage K V} {o : O} {proxies : Map MessageID (MessageID × NodeID)}
    (hreq : msg.inReplyTo = none)
    (hsub : ∀ {k x}, proxies.lookup k = some x → n.front.proxies.lookup k = some x)
    (hI : I client msg.id o) :
    ClientNode.Correlates (issues I i [⟨leader, msg.setId n.front.nextId, o⟩]) i
      ⟨⟨n.front.nextId + 1, proxies.insert n.front.nextId (msg.id, client)⟩, n.log⟩ := by
  have hissue : ClientNode.Correlates (issues I i [⟨leader, msg.setId n.front.nextId, o⟩]) i
      ⟨⟨n.front.nextId + 1, n.front.proxies⟩, n.log⟩ :=
    H.issue (o := o) .inl (by simp [issues, hreq, eq_comm])
  refine ⟨hissue.ids, hissue.unique, fun {k orig c} h => ?_, hissue.commands⟩
  rcases eq_or_ne k n.front.nextId with rfl | hne
  · rw [AList.lookup_insert] at h
    cases h
    exact ⟨o, .inr ⟨rfl, by simp [hreq]⟩, .inl hI⟩
  · rw [AList.lookup_insert_ne hne] at h
    exact hissue.proxies (hsub h)

/-- A command that is applied or dismissed is answered. -/
theorem Correlates.answer (H : n.Correlates I i) {cmd : Command NodeID K V} {o : O}
    (hmem : (cmd, o) ∈ n.log) {x : NodeID × ClientMessage K V} (hclient : cmd.client = some x.1)
    (hid : x.2.id = cmd.responseId.getD 0) (hr : x.2.inReplyTo = some (cmd.inReplyTo.getD 0)) :
    Sends I i n n a [⟨x.1, x.2, o⟩] ⟨x.1, x.2, o⟩ := by
  obtain ⟨client, r, q, hc, hr', hq, hI, hlt, hno⟩ := H.commands hmem
  obtain rfl : client = x.1 := Option.some.inj (hc.symm.trans hclient)
  have hresp : ∀ d ∈ [(⟨x.1, x.2, o⟩ : Dispatch NodeID K V O)], d.body.inReplyTo ≠ none := by
    simp [hr]
  rw [hr'] at hr
  rw [hq] at hid
  change x.2.id = q at hid
  exact .answer hr hI (hid ▸ hlt) fun o' h => hno o' (hid ▸ of_issues hresp h)

variable [DecidableEq NodeID] [DecidableEq K] [DecidableEq V] {debug : V → String}

theorem step_sends (hs : n.step debug i a = .ok (n', sent)) (H : n.Correlates I i)
    (hin : Arrives I i a) (hid : n.front.nextId + 1 < 2 ^ 64) :
    ∀ d ∈ sent, Sends I i n n' a sent d := by
  intro d hd
  have hnext := MessageID.next_eq hid
  cases a with
  | serve isLeader leader client msg origin =>
    simp only [step, Except.bind_eq_ok_iff, Prod.exists] at hs
    obtain ⟨f', served, hserve, hs⟩ := hs
    obtain ⟨proxies, rfl, hserves⟩ := ClientFront.serve_eq_ok hserve
    cases hserves with
    | append hreq hcmd =>
      cases hs
      cases hd
    | forward hreq hsub =>
      cases hs
      obtain rfl := List.mem_singleton.mp hd
      exact .forward (by simpa using hreq) (by simp)
    | unavailable hreq =>
      cases hs
      obtain rfl := List.mem_singleton.mp hd
      simp only [Arrives, Genuine, hreq] at hin
      refine .answer rfl hin (hnext ▸ Nat.lt_succ_self _) fun o h => ?_
      exact (H.ids (of_issues (by simp [ClientMessage.inReplyTo]) h)).false
    | relay hresp hentry =>
      cases hs
      obtain rfl := List.mem_singleton.mp hd
      simp only [Arrives, Genuine, hresp] at hin
      obtain ⟨o, hk, horig⟩ := H.proxies hentry
      obtain rfl := H.unique hk hin
      exact .relay rfl hresp (by simpa using hresp) (by simpa using hentry) hin (by simpa using horig)
    | drop hresp =>
      cases hs
      cases hd
  | apply position machine =>
    simp only [step] at hs
    split at hs
    · next cmd o hget =>
      cases hs
      obtain ⟨x, hx, rfl⟩ := Option.map_eq_some_iff.mp (Option.mem_toList.mp hd)
      obtain ⟨hc, hid, hr⟩ := Command.apply_eq_some hx
      rw [hx]
      exact H.answer (List.mem_of_getElem? hget) hc hid hr
    · cases hs
      cases hd
  | dismiss position =>
    simp only [step] at hs
    split at hs
    · next cmd o hget =>
      cases hs
      obtain ⟨x, hx, rfl⟩ := Option.map_eq_some_iff.mp (Option.mem_toList.mp hd)
      obtain ⟨hc, hid, hr⟩ := Command.dismiss_eq_some hx
      rw [hx]
      exact H.answer (List.mem_of_getElem? hget) hc hid hr
    · cases hs
      cases hd

theorem step_nextId_le (hs : n.step debug i a = .ok (n', sent))
    (hid : n.front.nextId + 1 < 2 ^ 64) : n.front.nextId ≤ n'.front.nextId := by
  cases a with
  | serve isLeader leader client msg origin =>
    simp only [step, Except.bind_eq_ok_iff, Prod.exists] at hs
    obtain ⟨f', served, hserve, hs⟩ := hs
    obtain ⟨proxies, rfl, -⟩ := ClientFront.serve_eq_ok hserve
    rw [MessageID.next_eq hid] at hs
    cases served with
    | append cmd | send d msg | drop =>
      cases hs
      exact Nat.le_succ _
  | apply position machine | dismiss position =>
    simp only [step] at hs
    split at hs
    · cases hs
      exact le_rfl
    · cases hs
      exact le_rfl

/-- The steps of a node keep it correlated, until its counter wraps. -/
theorem Correlates.step (H : n.Correlates I i) (hs : n.step debug i a = .ok (n', sent))
    (hin : Arrives I i a) (hid : n.front.nextId + 1 < 2 ^ 64) :
    n'.Correlates (issues I i sent) i := by
  have hnext := MessageID.next_eq hid
  cases a with
  | serve isLeader leader client msg origin =>
    simp only [ClientNode.step, Except.bind_eq_ok_iff, Prod.exists] at hs
    obtain ⟨f', served, hserve, hs⟩ := hs
    obtain ⟨proxies, rfl, hserves⟩ := ClientFront.serve_eq_ok hserve
    rw [hnext] at hs
    cases hserves with
    | append hreq hcmd =>
      cases hs
      simp only [Arrives, Genuine, hreq] at hin
      exact (H.append hcmd hin).responses (by simp)
    | forward hreq hsub =>
      cases hs
      simp only [Arrives, Genuine, hreq] at hin
      exact H.forward hreq hsub hin
    | unavailable hreq =>
      cases hs
      refine (H.keep id).responses fun d hd => ?_
      obtain rfl := List.mem_singleton.mp hd
      simp [ClientMessage.inReplyTo]
    | relay hresp hentry =>
      cases hs
      exact (H.keep Map.lookup_of_erase).responses (by simp [hresp])
    | drop hresp =>
      cases hs
      exact (H.keep id).responses (by simp)
  | apply position machine =>
    simp only [ClientNode.step] at hs
    split at hs
    · cases hs
      refine H.responses fun d hd => ?_
      obtain ⟨x, hx, rfl⟩ := Option.map_eq_some_iff.mp (Option.mem_toList.mp hd)
      rw [(Command.apply_eq_some hx).2.2]
      simp
    · cases hs
      exact H.responses (by simp)
  | dismiss position =>
    simp only [ClientNode.step] at hs
    split at hs
    · cases hs
      refine H.responses fun d hd => ?_
      obtain ⟨x, hx, rfl⟩ := Option.map_eq_some_iff.mp (Option.mem_toList.mp hd)
      rw [(Command.dismiss_eq_some hx).2.2]
      simp
    · cases hs
      exact H.responses (by simp)

/-! ### What the messages say -/

/-- `resp` is a response to `req`: what the store answers to the command, in some state of it, or
an error because the command was never executed. -/
inductive Outcome (NodeID : Type) {K V : Type} [DecidableEq K] [DecidableEq V] (debug : V → String)
    (req : ClientMessage K V) : ClientMessage K V → Prop
  | applied {client : NodeID} {q id cmd machine resp} :
    Command.ofRequest client q (req.setId id) = .ok cmd →
    resp.setId q = (cmd.outcome debug machine).2 → Outcome NodeID debug req resp
  | unavailable {r id text} : Outcome NodeID debug req
    (.errorResponse r id ReservedErrorCode.temporarilyUnavailable.code text)
  | dismissed {r id text} :
    Outcome NodeID debug req (.errorResponse r id ReservedErrorCode.abort.code text)

/-- The message is the request of its origin, under some ID, or a response to it. -/
def Conveys (debug : V → String) (o : NodeID × ClientMessage K V) (msg : ClientMessage K V) : Prop :=
  match msg.inReplyTo with
  | none => ∃ id, msg = o.2.setId id
  | some _ => Outcome NodeID debug o.2 msg

/-- The commands in the log are the requests of their origins. -/
def Records (n : ClientNode NodeID K V (NodeID × ClientMessage K V)) : Prop :=
  ∀ cmd o, (cmd, o) ∈ n.log → ∃ client q id, Command.ofRequest client q (o.2.setId id) = .ok cmd

omit [DecidableEq NodeID] in
theorem Conveys.setId {o : NodeID × ClientMessage K V} {msg : ClientMessage K V} {id : MessageID}
    (h : Conveys debug o msg) : Conveys debug o (msg.setId id) := by
  unfold Conveys at h ⊢
  rw [ClientMessage.inReplyTo_setId]
  split at h
  · obtain ⟨m, rfl⟩ := h
    exact ⟨id, ClientMessage.setId_setId⟩
  · cases h with
    | applied hcmd hresp => exact .applied hcmd (by rwa [ClientMessage.setId_setId])
    | unavailable => exact .unavailable
    | dismissed => exact .dismissed

omit [DecidableEq NodeID] in
/-- What is sent when the command of a request is applied. -/
theorem Conveys.apply {cmd : Command NodeID K V} {o : NodeID × ClientMessage K V} {client : NodeID}
    {q id : MessageID} {machine : Map K V} {x : NodeID × ClientMessage K V}
    (hcmd : Command.ofRequest client q (o.2.setId id) = .ok cmd)
    (hx : (cmd.apply debug machine).2 = some x) : Conveys debug o x.2 := by
  obtain ⟨-, hid, hr⟩ := Command.apply_eq_some hx
  simp only [Conveys, hr]
  have hq : x.2.id = q := by
    rw [hid, (Command.ofRequest_eq_ok hcmd).2.2, Option.getD_some]
  have hresp : x.2.setId q = (cmd.outcome debug machine).2 := by
    rw [← hq, ClientMessage.setId_id, (Command.apply_eq_outcome hx).2]
  exact .applied hcmd hresp

omit [DecidableEq NodeID] [DecidableEq K] [DecidableEq V] in
theorem Records.append {n : ClientNode NodeID K V (NodeID × ClientMessage K V)} (H : n.Records)
    {f : ClientFront NodeID} {cmd : Command NodeID K V} {o : NodeID × ClientMessage K V}
    (hcmd : ∃ client q id, Command.ofRequest client q (o.2.setId id) = .ok cmd) :
    ClientNode.Records ⟨f, n.log ++ [(cmd, o)]⟩ := by
  intro cmd' o' h
  rcases List.mem_append.mp h with h | h
  · exact H _ _ h
  · cases List.mem_singleton.mp h
    exact hcmd

theorem Records.step {n n' : ClientNode NodeID K V (NodeID × ClientMessage K V)}
    {a : ClientAction NodeID K V (NodeID × ClientMessage K V)}
    {sent : List (Dispatch NodeID K V (NodeID × ClientMessage K V))} (H : n.Records)
    (hs : n.step debug i a = .ok (n', sent))
    (hin : ∀ {isLeader leader client msg origin}, a = .serve isLeader leader client msg origin →
      Conveys debug origin msg) :
    n'.Records ∧ ∀ d ∈ sent, Conveys debug d.origin d.body := by
  cases a with
  | serve isLeader leader client msg origin =>
    have hmsg := hin rfl
    simp only [ClientNode.step, Except.bind_eq_ok_iff, Prod.exists] at hs
    obtain ⟨f', served, hserve, hs⟩ := hs
    obtain ⟨proxies, rfl, hserves⟩ := ClientFront.serve_eq_ok hserve
    cases hserves with
    | append hreq hcmd =>
      cases hs
      simp only [Conveys, hreq] at hmsg
      obtain ⟨id, rfl⟩ := hmsg
      exact ⟨H.append ⟨_, _, _, hcmd⟩, by simp⟩
    | forward hreq hsub =>
      cases hs
      exact ⟨H, by simpa using hmsg.setId⟩
    | unavailable hreq =>
      cases hs
      exact ⟨H, by simpa using .unavailable⟩
    | relay hresp hentry =>
      cases hs
      exact ⟨H, by simpa using hmsg.setId⟩
    | drop hresp =>
      cases hs
      exact ⟨H, by simp⟩
  | apply position machine =>
    simp only [ClientNode.step] at hs
    split at hs
    · next cmd o hget =>
      cases hs
      refine ⟨H, fun d hd => ?_⟩
      obtain ⟨x, hx, rfl⟩ := Option.map_eq_some_iff.mp (Option.mem_toList.mp hd)
      obtain ⟨client, q, id, hcmd⟩ := H _ _ (List.mem_of_getElem? hget)
      exact .apply hcmd hx
    · cases hs
      exact ⟨H, by simp⟩
  | dismiss position =>
    simp only [ClientNode.step] at hs
    split at hs
    · next cmd o hget =>
      cases hs
      refine ⟨H, fun d hd => ?_⟩
      obtain ⟨x, hx, rfl⟩ := Option.map_eq_some_iff.mp (Option.mem_toList.mp hd)
      unfold Command.dismiss at hx
      split at hx
      · cases hx
        exact .dismissed
      · cases hx
    · cases hs
      exact ⟨H, by simp⟩

end ClientNode

/-! ## Nodes and clients -/

namespace Service

/-- The requests that were made. -/
def issued (s : Service NodeID K V) : Issued NodeID (NodeID × ClientMessage K V) := fun p m o =>
  ∃ x ∈ s.packets, x.source = p ∧ x.body.inReplyTo = none ∧ x.body.id = m ∧ x.origin = o

structure Correlated (cfg : Config NodeID) (s : Service NodeID K V) : Prop where
  nodes : ∀ i ∈ cfg.ids, (s.nodes i).Correlates s.issued i
  clients : ∀ x ∈ s.packets, x.source ∉ cfg.ids → x.origin = (x.source, x.body)
  responses : ∀ x ∈ s.packets, ∀ r ∈ x.body.inReplyTo, s.issued x.destination r x.origin

variable [DecidableEq K] [DecidableEq V]

/-- The nodes and the messages say what their origins say. -/
structure Conveyed (debug : V → String) (s : Service NodeID K V) : Prop where
  nodes : ∀ i, (s.nodes i).Records
  packets : ∀ x ∈ s.packets, ClientNode.Conveys debug x.origin x.body

/-- Every response to a client answers a request of this client, and it is in reply to the ID of
that request. -/
def RepliesCorrelated (debug : V → String) (cfg : Config NodeID) (s : Service NodeID K V) : Prop :=
  ∀ x ∈ s.packets, ∀ r ∈ x.body.inReplyTo, x.destination ∉ cfg.ids →
    x.origin.1 = x.destination ∧ x.origin.2.id = r ∧
      ClientNode.Outcome NodeID debug x.origin.2 x.body

theorem Correlated.replies {debug : V → String} {cfg : Config NodeID} {s : Service NodeID K V}
    (H : s.Correlated cfg) (hconv : s.Conveyed debug) : s.RepliesCorrelated debug cfg := by
  intro x hx r hr hdest
  obtain ⟨y, hy, hsource, -, hid, horigin⟩ := H.responses x hx r hr
  have hclient := H.clients y hy (hsource ▸ hdest)
  rw [horigin] at hclient
  refine ⟨(congrArg Prod.fst hclient).trans hsource, (congrArg (·.2.id) hclient).trans hid, ?_⟩
  have := hconv.packets x hx
  rwa [ClientNode.Conveys, Option.mem_def.mp hr] at this

variable [DecidableEq NodeID]

/-- The counter of the node does not wrap, and a response that the node relays answers a request
that it has forwarded under the original ID. -/
def KeepsIds (s : Service NodeID K V) : ServiceLabel NodeID K V → Prop
  | .node i (.serve _ _ _ msg _) => (s.nodes i).front.nextId + 1 < 2 ^ 64 ∧
    ∀ r ∈ msg.inReplyTo, ∀ x ∈ (s.nodes i).front.proxies.lookup r, x.1 = r
  | .node i _ => (s.nodes i).front.nextId + 1 < 2 ^ 64
  | .request .. => True

instance (s : Service NodeID K V) (l : ServiceLabel NodeID K V) : Decidable (s.KeepsIds l) := by
  unfold KeepsIds
  split <;> infer_instance

variable {debug : V → String} {cfg : Config NodeID} {s s' : Service NodeID K V}
  {l : ServiceLabel NodeID K V}

omit [DecidableEq NodeID] [DecidableEq K] [DecidableEq V] in
theorem Correlated.request (H : s.Correlated cfg) {client node : NodeID} {msg : ClientMessage K V}
    (hclient : client ∉ cfg.ids) (hreq : msg.inReplyTo = none) :
    Correlated cfg { s with packets := s.packets ++ [⟨⟨node, msg, (client, msg)⟩, client⟩] } := by
  have hle : ∀ {p m o}, s.issued p m o → issued
      { s with packets := s.packets ++ [⟨⟨node, msg, (client, msg)⟩, client⟩] } p m o := by
    rintro p m o ⟨x, hx, h⟩
    exact ⟨x, List.mem_append_left _ hx, h⟩
  refine ⟨fun i hi => (H.nodes i hi).mono hle ?_, fun x hx hsource => ?_, fun x hx r hr => ?_⟩
  · rintro m o ⟨x, hx, hsource, h⟩
    rcases List.mem_append.mp hx with hx | hx
    · exact ⟨x, hx, hsource, h⟩
    · obtain rfl := List.mem_singleton.mp hx
      exact absurd ((show client = i from hsource) ▸ hi) hclient
  · rcases List.mem_append.mp hx with hx | hx
    · exact H.clients x hx hsource
    · obtain rfl := List.mem_singleton.mp hx
      rfl
  · rcases List.mem_append.mp hx with hx | hx
    · exact hle (H.responses x hx r hr)
    · obtain rfl := List.mem_singleton.mp hx
      rw [hreq] at hr
      cases hr

omit [DecidableEq NodeID] [DecidableEq K] [DecidableEq V] in
/-- A message that can be served is what it claims to be. -/
theorem Correlated.arrives (H : s.Correlated cfg) {i : NodeID}
    {a : ClientAction NodeID K V (NodeID × ClientMessage K V)} (hdel : s.Deliverable i a) :
    ClientNode.Arrives s.issued i a := by
  cases a with
  | serve isLeader leader client msg origin =>
    cases hmsg : msg.inReplyTo with
    | none =>
      simp only [ClientNode.Arrives, ClientNode.Genuine, hmsg]
      exact ⟨_, hdel, rfl, hmsg, rfl, rfl⟩
    | some r =>
      simp only [ClientNode.Arrives, ClientNode.Genuine, hmsg]
      exact H.responses _ hdel r hmsg
  | _ => trivial

omit [DecidableEq NodeID] [DecidableEq K] [DecidableEq V] in
theorem KeepsIds.nextId {i : NodeID} {a : ClientAction NodeID K V (NodeID × ClientMessage K V)}
    (hl : s.KeepsIds (.node i a)) : (s.nodes i).front.nextId + 1 < 2 ^ 64 := by
  cases a with
  | serve _ _ _ _ _ => exact hl.1
  | _ => exact hl

omit [DecidableEq K] [DecidableEq V] in
theorem issued_update {i p : NodeID} {n : ClientNode NodeID K V (NodeID × ClientMessage K V)}
    {m : MessageID} {o : NodeID × ClientMessage K V}
    {sent : List (Dispatch NodeID K V (NodeID × ClientMessage K V))} :
    (s.update i n sent).issued p m o ↔ ClientNode.issues s.issued i sent p m o := by
  constructor
  · rintro ⟨x, hx, rfl, h⟩
    rcases List.mem_append.mp hx with hx | hx
    · exact .inl ⟨x, hx, rfl, h⟩
    · obtain ⟨d, hd, rfl⟩ := List.mem_map.mp hx
      exact .inr ⟨rfl, d, hd, h⟩
  · rintro (⟨x, hx, h⟩ | ⟨rfl, d, hd, h⟩)
    · exact ⟨x, List.mem_append_left _ hx, h⟩
    · exact ⟨⟨d, p⟩, List.mem_append_right _ (List.mem_map_of_mem hd), rfl, h⟩

/-- A node that relays responses under the original ID only relays them correctly. -/
theorem KeepsIds.responses {i : NodeID} {a : ClientAction NodeID K V (NodeID × ClientMessage K V)}
    {n : ClientNode NodeID K V (NodeID × ClientMessage K V)}
    {sent : List (Dispatch NodeID K V (NodeID × ClientMessage K V))}
    (hl : s.KeepsIds (.node i a)) (H : s.Correlated cfg) (hi : i ∈ cfg.ids)
    (hdel : s.Deliverable i a) (hn : (s.nodes i).step debug i a = .ok (n, sent)) :
    ∀ d ∈ sent, ∀ r ∈ d.body.inReplyTo, s.issued d.destination r d.origin := by
  intro d hd r hr
  cases ClientNode.step_sends hn (H.nodes i hi) (H.arrives hdel) hl.nextId d hd with
  | forward hreq _ =>
    rw [hreq] at hr
    cases hr
  | answer hresp hI _ _ =>
    cases hr.symm.trans hresp
    exact hI
  | relay ha hmsg hresp hentry _ hI =>
    cases hr.symm.trans hresp
    subst ha
    have hid : d.body.id = r := hl.2 r hmsg _ hentry
    rwa [hid] at hI

theorem Correlated.step (H : s.Correlated cfg) (hl : s.KeepsIds l)
    (hs : s.step debug cfg l = .ok s') : s'.Correlated cfg := by
  cases l with
  | request client node msg =>
    simp only [Service.step] at hs
    split at hs
    · next h =>
      cases hs
      exact H.request h.1 h.2
    · cases hs
  | node i a =>
    simp only [Service.step] at hs
    split at hs
    · next h =>
      obtain ⟨hi, hdel⟩ := h
      split at hs
      · next n sent hn =>
        cases hs
        refine ⟨fun j hj => ?_, fun x hx hsource => ?_, fun x hx r hr => ?_⟩
        · rcases eq_or_ne j i with rfl | hne
          · rw [show (s.update j n sent).nodes j = n from if_pos rfl]
            exact ((H.nodes j hi).step hn (H.arrives hdel) hl.nextId).mono issued_update.mpr
              issued_update.mp
          · rw [show (s.update i n sent).nodes j = s.nodes j from if_neg hne]
            refine (H.nodes j hj).mono (issued_update.mpr ∘ .inl) fun {m o} h => ?_
            exact (issued_update.mp h).resolve_right fun h => hne h.1
        · rcases List.mem_append.mp hx with hx | hx
          · exact H.clients x hx hsource
          · obtain ⟨d, -, rfl⟩ := List.mem_map.mp hx
            exact absurd hi hsource
        · apply issued_update.mpr
          rcases List.mem_append.mp hx with hx | hx
          · exact .inl (H.responses x hx r hr)
          · obtain ⟨d, hd, rfl⟩ := List.mem_map.mp hx
            exact .inl (hl.responses H hi hdel hn d hd r hr)
      · cases hs
    · cases hs

theorem Conveyed.step (H : s.Conveyed debug) (hs : s.step debug cfg l = .ok s') :
    s'.Conveyed debug := by
  cases l with
  | request client node msg =>
    simp only [Service.step] at hs
    split at hs
    · next h =>
      cases hs
      refine ⟨H.nodes, fun x hx => ?_⟩
      rcases List.mem_append.mp hx with hx | hx
      · exact H.packets x hx
      · obtain rfl := List.mem_singleton.mp hx
        simp only [ClientNode.Conveys, h.2]
        exact ⟨msg.id, ClientMessage.setId_id.symm⟩
    · cases hs
  | node i a =>
    simp only [Service.step] at hs
    split at hs
    · next h =>
      split at hs
      · next n sent hn =>
        cases hs
        have hstep := (H.nodes i).step hn fun ha => H.packets _ (by subst ha; exact h.2)
        refine ⟨fun j => ?_, fun x hx => ?_⟩
        · rcases eq_or_ne j i with rfl | hne
          · rw [show (s.update j n sent).nodes j = n from if_pos rfl]
            exact hstep.1
          · rw [show (s.update i n sent).nodes j = s.nodes j from if_neg hne]
            exact H.nodes j
        · rcases List.mem_append.mp hx with hx | hx
          · exact H.packets x hx
          · obtain ⟨d, hd, rfl⟩ := List.mem_map.mp hx
            exact hstep.2 d hd
      · cases hs
    · cases hs

theorem replies_correlated (hrun : Run (step debug cfg) KeepsIds boot s) :
    s.RepliesCorrelated debug cfg := by
  have hcorr : s.Correlated cfg := by
    refine Run.invariant (I := fun s => s.Correlated cfg) hrun ?_ fun s l s' H hl hs => H.step hl hs
    refine ⟨fun i _ => ⟨?_, ?_, ?_, ?_⟩, by simp [boot], by simp [boot]⟩
    all_goals simp [boot, issued, ClientNode.new, ClientFront.new]
  have hconv : s.Conveyed debug := by
    refine Run.invariant (I := fun s => s.Conveyed debug) hrun ?_ fun s l s' H _ hs => H.step hs
    exact ⟨by simp [boot, ClientNode.new, ClientNode.Records], by simp [boot]⟩
  exact hcorr.replies hconv

end Service

namespace Example

open Service

/-- The client `c` writes 8 to key 7 under the ID `m`. It asks `b`, which forwards the request to
the leader `a` under the ID 1, and relays the response. -/
def proxied (m : MessageID) : List (ServiceLabel String ℕ ℕ) :=
  let origin := ("c", ClientMessage.writeRequest 7 8 m)
  [.request "c" "b" (.writeRequest 7 8 m),
    .node "b" (.serve false (some "a") "c" (.writeRequest 7 8 m) origin),
    .node "a" (.serve true none "b" (.writeRequest 7 8 1) origin), .node "a" (.apply 0 ∅),
    .node "b" (.serve false (some "a") "a" (.writeResponse 1 1) origin)]

/-- What was sent to `c`. -/
def received (s : Service String ℕ ℕ) : List (Packet String ℕ ℕ (String × ClientMessage ℕ ℕ)) :=
  s.packets.filter (·.destination = "c")

/-- A request under the ID 1 is forwarded under its own ID. -/
theorem replies_correlated_proxied : ∃ s, Run (step Nat.repr pair) KeepsIds boot s ∧
    received s = [⟨⟨"c", .writeResponse 1 1, "c", .writeRequest 7 8 1⟩, "b"⟩] ∧
    RepliesCorrelated Nat.repr pair s := by
  have hexec : (Run.exec (step Nat.repr pair) (fun s l => decide (KeepsIds s l)) (proxied 1)
      boot).map received = some [⟨⟨"c", .writeResponse 1 1, "c", .writeRequest 7 8 1⟩, "b"⟩] := by
    decide +kernel
  obtain ⟨s, hrun, hs⟩ := Run.exists_of_exec hexec fun _ _ => of_decide_eq_true
  exact ⟨s, hrun, hs, replies_correlated hrun⟩

/-- The response to a request under the ID 5 is in reply to 1. -/
theorem replies_correlated_swapped : ¬ ∀ s : Service String ℕ ℕ,
    Run (step Nat.repr pair) (fun _ _ => True) boot s → RepliesCorrelated Nat.repr pair s := by
  intro hall
  have hexec : (Run.exec (step Nat.repr pair) (fun _ _ => true) (proxied 5) boot).map received =
      some [⟨⟨"c", .writeResponse 1 5, "c", .writeRequest 7 8 5⟩, "b"⟩] := by
    decide +kernel
  obtain ⟨s, hrun, hs⟩ := Run.exists_of_exec hexec fun _ _ _ => trivial
  have hmem : ⟨⟨"c", .writeResponse 1 5, "c", .writeRequest 7 8 5⟩, "b"⟩ ∈ received s := by
    rw [hs]
    exact List.mem_singleton_self _
  exact absurd (hall s hrun _ (List.mem_filter.mp hmem).1 1 rfl (by decide)).2.1 (by decide)

end Example

end Miniraft

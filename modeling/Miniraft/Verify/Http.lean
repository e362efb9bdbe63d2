import Miniraft.Raft.Http
import Miniraft.Verify.Client

/-!
# HTTP responses find their streams

A stream waits under the ID of its request. A response is matched by its own ID first, which has
been set to the ID of the request if the node itself has relayed the response. If it comes from
another node, that node has drawn the ID, and it may be the ID of any request. The response that is
written to a stream answers the request on it in every run in which this does not happen
(`HttpCluster.streams_answered`).
-/

namespace Miniraft

open ClientNode

variable {K V : Type}

theorem qid_injective {i : String} {a b : MessageID} (h : qid i a = qid i b) : a = b := by
  have hrepr : Nat.repr a = Nat.repr b := (String.append_right_inj _).mp h
  rw [← Nat.ofDigitChars_ten_toDigits (n := a), ← Nat.toList_repr, hrepr, Nat.toList_repr,
    Nat.ofDigitChars_ten_toDigits]

namespace HttpNode

/-- What waits at node `i` waits for the right response. -/
structure Sound (I : Issued String (String × Stream)) (i : String) (n : HttpNode K V) : Prop where
  client : n.client.Correlates I i
  parsed : ∀ {msg stream}, (msg, stream) ∈ n.parsed →
    msg.inReplyTo = none ∧ I i msg.id (i, stream)
  queue : ∀ {key stream}, n.responseQueue.lookup key = some stream →
    ∃ m, key = qid i m ∧ I i m (i, stream)
  incoming : ∀ x ∈ n.submitting ++ n.clientIncoming, Genuine I i x.1 x.2.1 x.2.2
  written : ∀ w ∈ n.written, w.origin = (i, w.stream)

variable {I I' : Issued String (String × Stream)} {i : String} {n : HttpNode K V}

theorem enqueue_client {thread : ℕ} :
    (n.enqueue i thread).client = n.client ∧ (n.enqueue i thread).requests = n.requests := by
  unfold enqueue
  split
  · exact ⟨rfl, rfl⟩
  · exact ⟨rfl, rfl⟩

theorem submit_client {thread : ℕ} :
    (n.submit thread).client = n.client ∧ (n.submit thread).requests = n.requests := by
  unfold submit
  split
  · exact ⟨rfl, rfl⟩
  · exact ⟨rfl, rfl⟩

theorem json_client {source : String} {msg : ClientMessage K V} {origin : String × Stream} :
    (n.json i source msg origin).client = n.client ∧
      (n.json i source msg origin).requests = n.requests := by
  unfold json
  dsimp only
  split
  · exact ⟨rfl, rfl⟩
  · split
    · exact ⟨rfl, rfl⟩
    · split
      · exact ⟨rfl, rfl⟩
      · exact ⟨rfl, rfl⟩

theorem le_request {stream : Stream} {msg : Option (ClientMessage K V)}
    (hid : n.client.front.nextId + 1 < 2 ^ 64) :
    n.client.front.nextId ≤ (n.request stream msg).client.front.nextId := by
  have hle : n.client.front.nextId ≤ n.client.front.nextId.next :=
    (Nat.le_succ _).trans (MessageID.next_eq hid).ge
  cases msg with
  | none | some msg => exact hle

theorem Sound.mono (H : n.Sound I i) (hle : ∀ {p m o}, I p m o → I' p m o)
    (hown : ∀ {m o}, I' i m o → I i m o) : n.Sound I' i where
  client := H.client.mono hle hown
  parsed h := ⟨(H.parsed h).1, hle (H.parsed h).2⟩
  queue h := by
    obtain ⟨m, hkey, hI⟩ := H.queue h
    exact ⟨m, hkey, hle hI⟩
  incoming x hx := (H.incoming x hx).mono hle
  written := H.written

theorem Sound.request (H : n.Sound I i) {stream : Stream} {msg : ClientMessage K V}
    (hreq : msg.inReplyTo = none) (hid : n.client.front.nextId + 1 < 2 ^ 64)
    (hle : ∀ {p m o}, I p m o → I' p m o)
    (hnew : ∀ {m o}, I' i m o ↔ I i m o ∨ m = n.client.front.nextId ∧ o = (i, stream)) :
    (n.request stream (some msg)).Sound I' i where
  client := by
    have hclient := H.client.issue (o := (i, stream)) hle hnew.mp
    rwa [← MessageID.next_eq hid] at hclient
  parsed h := by
    rcases List.mem_append.mp h with h | h
    · exact ⟨(H.parsed h).1, hle (H.parsed h).2⟩
    · cases List.mem_singleton.mp h
      exact ⟨by simpa using hreq, hnew.mpr (.inr ⟨by simp, rfl⟩)⟩
  queue h := by
    obtain ⟨m, hkey, hI⟩ := H.queue h
    exact ⟨m, hkey, hle hI⟩
  incoming x hx := (H.incoming x hx).mono hle
  written := H.written

/-- The ID of a malformed request is lost. -/
theorem Sound.request_none (H : n.Sound I i) {stream : Stream}
    (hid : n.client.front.nextId + 1 < 2 ^ 64) : (n.request stream none).Sound I i := by
  refine ⟨?_, H.parsed, H.queue, H.incoming, H.written⟩
  have hclient : ClientNode.Correlates I i
      ⟨⟨n.client.front.nextId + 1, n.client.front.proxies⟩, n.client.log⟩ := H.client.keep id
  rwa [← MessageID.next_eq hid] at hclient

theorem Sound.enqueue (H : n.Sound I i) {thread : ℕ} : (n.enqueue i thread).Sound I i := by
  unfold HttpNode.enqueue
  split
  · next message stream hget =>
    obtain ⟨hreq, hI⟩ := H.parsed (List.mem_of_getElem? hget)
    refine ⟨H.client, fun h => H.parsed (List.mem_of_mem_eraseIdx h), fun {key s} h => ?_,
      fun x hx => ?_, H.written⟩
    · rcases eq_or_ne key (qid i message.id) with rfl | hne
      · rw [AList.lookup_insert] at h
        cases h
        exact ⟨_, rfl, hI⟩
      · rw [AList.lookup_insert_ne hne] at h
        exact H.queue h
    · simp only [List.append_assoc, List.mem_append, List.mem_singleton] at hx
      rcases hx with hx | rfl | hx
      · exact H.incoming x (List.mem_append_left _ hx)
      · simpa [Genuine, hreq] using hI
      · exact H.incoming x (List.mem_append_right _ hx)
  · exact H

theorem Sound.submit (H : n.Sound I i) {thread : ℕ} : (n.submit thread).Sound I i := by
  unfold HttpNode.submit
  split
  · next x hget =>
    refine ⟨H.client, H.parsed, H.queue, fun y hy => ?_, H.written⟩
    simp only [List.mem_append, List.mem_singleton] at hy
    rcases hy with hy | hy | rfl
    · exact H.incoming y (List.mem_append_left _ (List.mem_of_mem_eraseIdx hy))
    · exact H.incoming y (List.mem_append_right _ hy)
    · exact H.incoming y (List.mem_append_left _ (List.mem_of_getElem? hget))
  · exact H

/-- The stream that waits under the ID of the request is answered. -/
theorem Sound.answer (H : n.Sound I i) {m : MessageID} {stream : Stream} {msg : ClientMessage K V}
    {origin : String × Stream} (hwait : n.responseQueue.lookup (qid i m) = some stream)
    (hI : I i m (i, stream) → origin = (i, stream)) :
    (n.answer (qid i m) stream msg origin).Sound I i := by
  obtain ⟨m', hkey, hI'⟩ := H.queue hwait
  obtain rfl := qid_injective hkey
  refine ⟨H.client, H.parsed, fun {key s} h => ?_, H.incoming, fun w hw => ?_⟩
  · rcases eq_or_ne key (qid i m) with rfl | hne
    · rw [show AList.lookup (qid i m) (n.answer (qid i m) stream msg origin).responseQueue = none
        from AList.lookup_erase _ _] at h
      cases h
    · exact H.queue ((AList.lookup_erase_ne hne).symm.trans h)
  · rcases List.mem_cons.mp hw with rfl | hw
    · exact hI hI'
    · exact H.written w hw

theorem Sound.submitting (H : n.Sound I i) {client : String} {msg : ClientMessage K V}
    {origin : String × Stream} (hgen : Genuine I i client msg origin) :
    Sound I i { n with submitting := n.submitting ++ [(client, msg, origin)] } := by
  refine ⟨H.client, H.parsed, H.queue, fun x hx => ?_, H.written⟩
  simp only [List.append_assoc, List.mem_append, List.mem_singleton] at hx
  rcases hx with hx | rfl | hx
  · exact H.incoming x (List.mem_append_left _ hx)
  · exact hgen
  · exact H.incoming x (List.mem_append_right _ hx)

/-- A message is passed on, unless it is a response for which a stream waits. -/
theorem Sound.json (H : n.Sound I i) {source : String} {msg : ClientMessage K V}
    {origin : String × Stream} (hgen : Genuine I i source msg origin)
    (hid : ∀ {stream}, msg.inReplyTo ≠ none →
      n.responseQueue.lookup (qid i msg.id) = some stream → I i msg.id (i, stream) →
      origin = (i, stream)) :
    (n.json i source msg origin).Sound I i := by
  unfold HttpNode.json
  split
  · exact H.submitting hgen
  · next r hresp =>
    have hr : I i r origin := by simpa [Genuine, hresp] using hgen
    dsimp only
    split
    · next stream hwait =>
      exact H.answer hwait (hid (by simp [hresp]) hwait)
    · split
      · next stream hwait => exact H.answer hwait (H.client.unique hr)
      · exact H.submitting (by simpa [Genuine, hresp] using hr)

end HttpNode

/-! ## Clusters -/

namespace HttpCluster

/-- The requests that were made, over HTTP or by nodes that forward them. -/
def issued (s : HttpCluster K V) : Issued String (String × Stream) := fun p m o =>
  (∃ stream, (m, stream) ∈ (s.nodes p).requests ∧ o = (p, stream)) ∨
    ∃ x ∈ s.packets, x.source = p ∧ x.body.inReplyTo = none ∧ x.body.id = m ∧ x.origin = o

/-- The response `x` answers a request of its destination. If the destination has sent it itself,
its ID is not that of another request. -/
structure Answers (I : Issued String (String × Stream)) (nextId : MessageID)
    (x : Packet String K V (String × Stream)) (r : MessageID) : Prop where
  issued : I x.destination r x.origin
  own : x.source = x.destination → x.body.id < nextId ∧
    ∀ {o}, I x.destination x.body.id o → o = x.origin

structure Correlated (cfg : Config String) (s : HttpCluster K V) : Prop where
  nodes : ∀ i ∈ cfg.ids, (s.nodes i).Sound s.issued i
  responses : ∀ x ∈ s.packets, ∀ r ∈ x.body.inReplyTo,
    Answers s.issued (s.nodes x.destination).client.front.nextId x r

/-- The response that was written to a stream is the response to the request on it. -/
def StreamsAnswered (cfg : Config String) (s : HttpCluster K V) : Prop :=
  ∀ i ∈ cfg.ids, ∀ w ∈ (s.nodes i).written, w.origin = (i, w.stream)

/-- If a response of another node arrives, no stream waits under its ID, unless that is the
original ID of the request. If the node relays a response to another node, it has forwarded the
request under the original ID. -/
def Unambiguous (n : HttpNode K V) (i : String) : HttpAction K V → Prop
  | .json source msg _ => ∀ r ∈ msg.inReplyTo, source ≠ i →
    n.responseQueue.lookup (qid i msg.id) = none ∨
      n.client.front.proxies.lookup r = some (msg.id, i)
  | .serve .. => ∀ x ∈ n.clientIncoming.head?, ∀ r ∈ x.2.1.inReplyTo,
    ∀ y ∈ n.client.front.proxies.lookup r, y.2 ≠ i → y.1 = r
  | _ => True

instance (n : HttpNode K V) (i : String) : (a : HttpAction K V) → Decidable (Unambiguous n i a)
  | .json .. => inferInstanceAs (Decidable (∀ r ∈ _, _))
  | .serve .. => inferInstanceAs (Decidable (∀ x ∈ _, _))
  | .request .. | .enqueue _ | .submit _ | .apply .. | .dismiss _ => isTrue trivial

/-- The counter of the node does not wrap, and its IDs are unambiguous. -/
def KeepsStreams (s : HttpCluster K V) (l : String × HttpAction K V) : Prop :=
  (s.nodes l.1).client.front.nextId + 1 < 2 ^ 64 ∧ Unambiguous (s.nodes l.1) l.1 l.2

instance (s : HttpCluster K V) (l : String × HttpAction K V) : Decidable (s.KeepsStreams l) :=
  inferInstanceAs (Decidable (_ ∧ _))

variable {cfg : Config String} {s s' : HttpCluster K V} {i : String} {n : HttpNode K V}
  {sent : List (Dispatch String K V (String × Stream))}

theorem update_self : (s.update i n sent).nodes i = n := if_pos rfl

theorem update_of_ne {j : String} (h : j ≠ i) : (s.update i n sent).nodes j = s.nodes j := if_neg h

theorem issued_update (hreq : n.requests = (s.nodes i).requests) {p : String} {m : MessageID}
    {o : String × Stream} :
    (s.update i n sent).issued p m o ↔ issues s.issued i sent p m o := by
  have hrequests : ((s.update i n sent).nodes p).requests = (s.nodes p).requests := by
    rcases eq_or_ne p i with rfl | hp
    · rw [update_self, hreq]
    · rw [update_of_ne hp]
  simp only [issued, hrequests]
  constructor
  · rintro (h | ⟨x, hx, rfl, h⟩)
    · exact .inl (.inl h)
    · rcases List.mem_append.mp hx with hx | hx
      · exact .inl (.inr ⟨x, hx, rfl, h⟩)
      · obtain ⟨d, hd, rfl⟩ := List.mem_map.mp hx
        exact .inr ⟨rfl, d, hd, h⟩
  · rintro ((h | ⟨x, hx, h⟩) | ⟨rfl, d, hd, h⟩)
    · exact .inl h
    · exact .inr ⟨x, List.mem_append_left _ hx, h⟩
    · exact .inr ⟨⟨d, p⟩, List.mem_append_right _ (List.mem_map_of_mem hd), rfl, h⟩

theorem issued_request {stream : Stream}
    (hreq : n.requests = ((s.nodes i).client.front.nextId, stream) :: (s.nodes i).requests)
    {p : String} {m : MessageID} {o : String × Stream} :
    (s.update i n []).issued p m o ↔
      s.issued p m o ∨ p = i ∧ m = (s.nodes i).client.front.nextId ∧ o = (i, stream) := by
  simp only [issued, HttpCluster.update, List.map_nil, List.append_nil]
  rcases eq_or_ne p i with rfl | hp
  · simp only [if_true, hreq, List.mem_cons, Prod.mk.injEq, true_and]
    constructor
    · rintro (⟨t, ⟨rfl, rfl⟩ | ht, rfl⟩ | h)
      · exact .inr ⟨rfl, rfl⟩
      · exact .inl (.inl ⟨t, ht, rfl⟩)
      · exact .inl (.inr h)
    · rintro ((⟨t, ht, rfl⟩ | h) | ⟨rfl, rfl⟩)
      · exact .inl ⟨t, .inr ht, rfl⟩
      · exact .inr h
      · exact .inl ⟨stream, .inl ⟨rfl, rfl⟩, rfl⟩
  · simp [hp]

/-- The invariant is kept if a step of node `i` makes requests under new IDs only. -/
theorem Correlated.update {I : Issued String (String × Stream)} (H : s.Correlated cfg)
    (hI : ∀ {p m o}, (s.update i n sent).issued p m o ↔ I p m o)
    (hle : ∀ {p m o}, s.issued p m o → I p m o)
    (hnew : ∀ {p m o}, I p m o →
      s.issued p m o ∨ p = i ∧ (s.nodes i).client.front.nextId ≤ m)
    (hid : (s.nodes i).client.front.nextId ≤ n.client.front.nextId) (hn : n.Sound I i)
    (hsent : ∀ d ∈ sent, ∀ r ∈ d.body.inReplyTo, Answers I n.client.front.nextId ⟨d, i⟩ r) :
    (s.update i n sent).Correlated cfg := by
  refine ⟨fun j hj => ?_, fun x hx r hr => ?_⟩
  · rcases eq_or_ne j i with rfl | hne
    · rw [update_self]
      exact hn.mono hI.mpr hI.mp
    · rw [update_of_ne hne]
      refine (H.nodes j hj).mono (hI.mpr ∘ hle) fun {m o} h => ?_
      exact (hnew (hI.mp h)).resolve_right fun h => hne h.1
  · rcases List.mem_append.mp hx with hx | hx
    · have hold := H.responses x hx r hr
      refine ⟨hI.mpr (hle hold.issued), fun hsource => ?_⟩
      obtain ⟨hlt, hown⟩ := hold.own hsource
      rcases eq_or_ne x.destination i with h | hne
      · rw [h] at hlt hown ⊢
        rw [update_self]
        refine ⟨hlt.trans_le hid, fun {o} ho => hown ?_⟩
        exact (hnew (hI.mp ho)).resolve_right fun h => absurd hlt h.2.not_gt
      · rw [update_of_ne hne]
        refine ⟨hlt, fun {o} ho => hown ?_⟩
        exact (hnew (hI.mp ho)).resolve_right fun h => hne h.1
    · obtain ⟨d, hd, rfl⟩ := List.mem_map.mp hx
      have hans := hsent d hd r hr
      refine ⟨hI.mpr hans.issued, fun hsource => ?_⟩
      obtain ⟨hlt, hown⟩ := hans.own hsource
      obtain rfl : i = d.destination := hsource
      rw [update_self]
      exact ⟨hlt, fun {o} ho => hown (hI.mp ho)⟩

variable [DecidableEq K] [DecidableEq V] {debug : V → String} {a : HttpAction K V}

omit [DecidableEq K] [DecidableEq V] in
/-- A step of a node that neither reads a request over HTTP nor sends anything. -/
theorem Correlated.quiet (H : s.Correlated cfg) (hreq : n.requests = (s.nodes i).requests)
    (hid : (s.nodes i).client.front.nextId ≤ n.client.front.nextId) (hn : n.Sound s.issued i) :
    (s.update i n []).Correlated cfg := by
  refine H.update (I := s.issued) ?_ id .inl hid hn (by simp)
  intro p m o
  exact (issued_update hreq).trans ⟨of_issues (by simp), .inl⟩

/-- A step of the client side of a node. -/
theorem Correlated.client (H : s.Correlated cfg) {n₀ : HttpNode K V} (hn₀ : n₀.Sound s.issued i)
    (hclient : n₀.client = (s.nodes i).client) (hreq : n₀.requests = (s.nodes i).requests)
    {b : ClientAction String K V (String × Stream)} (hin : Arrives s.issued i b)
    (hid : n₀.client.front.nextId + 1 < 2 ^ 64)
    (hrelay : ∀ {isLeader leader client msg origin}, b = .serve isLeader leader client msg origin →
      ∀ r ∈ msg.inReplyTo, ∀ y ∈ n₀.client.front.proxies.lookup r, y.2 ≠ i → y.1 = r)
    (hs : n₀.clientStep debug i b = .ok (n, sent)) : (s.update i n sent).Correlated cfg := by
  unfold HttpNode.clientStep at hs
  split at hs
  · next client sent' hstep =>
    cases hs
    have hsends := step_sends hstep hn₀.client hin hid
    have hle := step_nextId_le hstep hid
    have hforward : ∀ {p m o}, issues s.issued i sent p m o →
        s.issued p m o ∨ p = i ∧ m = n₀.client.front.nextId := by
      rintro p m o (h | ⟨rfl, d, hd, hnone, rfl, rfl⟩)
      · exact .inl h
      · cases hsends d hd with
        | forward _ hid => exact .inr ⟨rfl, hid⟩
        | answer hresp _ _ _ => simp [hresp] at hnone
        | relay _ _ hresp _ _ _ => simp [hresp] at hnone
    refine H.update (I := issues s.issued i sent)
      (fun {p m o} => issued_update (n := { n₀ with client }) hreq) .inl (fun h => ?_)
      (hclient ▸ hle) ?_ fun d hd r hr => ?_
    · rw [← hclient]
      exact (hforward h).imp_right fun h => ⟨h.1, h.2.ge⟩
    · refine ⟨hn₀.client.step hstep hin hid, fun h => ?_, fun h => ?_, fun x hx => ?_, hn₀.written⟩
      · exact ⟨(hn₀.parsed h).1, .inl (hn₀.parsed h).2⟩
      · obtain ⟨m, hkey, hI⟩ := hn₀.queue h
        exact ⟨m, hkey, .inl hI⟩
      · exact (hn₀.incoming x hx).mono .inl
    · cases hsends d hd with
      | forward hnone _ =>
        rw [hnone] at hr
        cases hr
      | answer hresp hI hlt hno =>
        cases hr.symm.trans hresp
        refine ⟨.inl hI, fun hsource => ⟨hlt, fun {o} h => ?_⟩⟩
        obtain rfl : i = d.destination := hsource
        exact absurd h (hno o)
      | relay hb hmsg hresp hentry hIr hI =>
        cases hr.symm.trans hresp
        refine ⟨.inl ?_, fun hsource => ?_⟩
        · rcases eq_or_ne d.destination i with hdest | hdest
          · exact (show d.destination = i from hdest) ▸ hIr
          · have horig : d.body.id = r := hrelay hb r hmsg _ hentry hdest
            rwa [horig] at hI
        · obtain rfl : i = d.destination := hsource
          have hlt := hn₀.client.ids hI
          refine ⟨hlt.trans_le hle, fun {o} h => ?_⟩
          rcases hforward h with h | ⟨-, h⟩
          · exact hn₀.client.unique h hI
          · exact absurd h hlt.ne
  · cases hs

omit [DecidableEq K] [DecidableEq V] in
/-- A message that was sent is what it claims to be. -/
theorem Correlated.genuine (H : s.Correlated cfg) {source : String} {msg : ClientMessage K V}
    {origin : String × Stream} (hsent : ⟨⟨i, msg, origin⟩, source⟩ ∈ s.packets) :
    Genuine s.issued i source msg origin := by
  cases hmsg : msg.inReplyTo with
  | none =>
    simp only [Genuine, hmsg]
    exact .inr ⟨_, hsent, rfl, hmsg, rfl, rfl⟩
  | some r =>
    simp only [Genuine, hmsg]
    exact (H.responses _ hsent r hmsg).issued

omit [DecidableEq K] [DecidableEq V] in
/-- A stream that waits under the ID of a response waits for this response. -/
theorem Correlated.waiting (H : s.Correlated cfg) {source : String} {msg : ClientMessage K V}
    {origin : String × Stream} {stream : Stream} (hi : i ∈ cfg.ids)
    (hsent : ⟨⟨i, msg, origin⟩, source⟩ ∈ s.packets)
    (hl : Unambiguous (s.nodes i) i (.json source msg origin)) (hresp : msg.inReplyTo ≠ none)
    (hwait : (s.nodes i).responseQueue.lookup (qid i msg.id) = some stream)
    (hI : s.issued i msg.id (i, stream)) : origin = (i, stream) := by
  obtain ⟨r, hr⟩ := Option.ne_none_iff_exists'.mp hresp
  have hans := H.responses _ hsent r hr
  rcases eq_or_ne source i with rfl | hne
  · exact ((hans.own rfl).2 hI).symm
  have hclient := (H.nodes i hi).client
  rcases hl r hr hne with hnone | hproxy
  · exact absurd (hnone.symm.trans hwait) (by simp)
  · obtain ⟨o, hk, horig⟩ := hclient.proxies hproxy
    rw [hclient.unique hI horig, hclient.unique hk hans.issued]

theorem Correlated.step (H : s.Correlated cfg) (hl : s.KeepsStreams (i, a))
    (hs : s.step debug cfg (i, a) = .ok s') : s'.Correlated cfg := by
  simp only [HttpCluster.step] at hs
  split at hs
  · next h =>
    obtain ⟨hi, hdel⟩ := h
    simp only [Except.bind_eq_ok_iff, Except.pure_eq_ok_iff, Prod.exists] at hs
    obtain ⟨n, sent, hs, rfl⟩ := hs
    obtain ⟨hid, hl⟩ := hl
    have hn := H.nodes i hi
    cases a with
    | request stream msg =>
      cases hs
      cases msg with
      | none => exact H.quiet rfl (HttpNode.le_request hid) (hn.request_none hid)
      | some msg =>
        refine H.update (I := fun p m o => s.issued p m o ∨
          p = i ∧ m = (s.nodes i).client.front.nextId ∧ o = (i, stream)) (issued_request rfl) .inl
          (fun h => ?_) (HttpNode.le_request hid) ?_ (by simp)
        · exact h.imp_right fun h => ⟨h.1, h.2.1.ge⟩
        · exact hn.request (hdel.2 msg rfl) hid .inl (by simp)
    | enqueue thread =>
      cases hs
      exact H.quiet HttpNode.enqueue_client.2 (HttpNode.enqueue_client.1 ▸ le_rfl) hn.enqueue
    | json source msg origin =>
      cases hs
      exact H.quiet HttpNode.json_client.2 (HttpNode.json_client.1 ▸ le_rfl)
        (hn.json (H.genuine hdel) (H.waiting hi hdel hl))
    | submit thread =>
      cases hs
      exact H.quiet HttpNode.submit_client.2 (HttpNode.submit_client.1 ▸ le_rfl) hn.submit
    | serve isLeader leader =>
      simp only [HttpNode.step] at hs
      split at hs
      · next client msg origin rest hincoming =>
        have hrest : HttpNode.Sound s.issued i { s.nodes i with clientIncoming := rest } := by
          refine ⟨hn.client, hn.parsed, hn.queue, fun x hx => hn.incoming x ?_, hn.written⟩
          rw [hincoming]
          exact List.mem_append.mpr ((List.mem_append.mp hx).imp_right (List.mem_cons_of_mem _))
        have hin : Genuine s.issued i client msg origin :=
          hn.incoming (client, msg, origin) (by simp [hincoming])
        refine H.client hrest rfl rfl (b := .serve isLeader leader client msg origin) hin hid
          (fun hb => ?_) hs
        cases hb
        exact hl (client, msg, origin) (by simp [hincoming])
      · cases hs
    | apply position machine =>
      exact H.client hn rfl rfl (b := .apply position machine) trivial hid (fun hb => by cases hb) hs
    | dismiss position =>
      exact H.client hn rfl rfl (b := .dismiss position) trivial hid (fun hb => by cases hb) hs
  · cases hs

theorem streams_answered (hrun : Run (step debug cfg) KeepsStreams boot s) :
    s.StreamsAnswered cfg := by
  have H : s.Correlated cfg := by
    refine Run.invariant (I := fun s => s.Correlated cfg) hrun ?_ ?_
    · refine ⟨fun i _ => ⟨⟨?_, ?_, ?_, ?_⟩, ?_, ?_, ?_, ?_⟩, ?_⟩
      all_goals simp [boot, issued, HttpNode.new, ClientNode.new, ClientFront.new]
    · exact fun s l s' H hl hs => H.step hl hs
  exact fun i hi => (H.nodes i hi).written

end HttpCluster

namespace Example

open HttpCluster

def ports : Config String := ⟨["8000", "8001"], by decide, by decide⟩

/-- A request at the node 8001 is forwarded to the leader 8000, which has drawn an ID before. The
response takes another trip through the engine of 8001. -/
def relayed : List (String × HttpAction String String) :=
  let origin := ("8001", 0)
  [("8000", .request 0 none), ("8001", .request 0 (some (.readRequest "x" 0))),
    ("8001", .enqueue 0), ("8001", .submit 0), ("8001", .serve false (some "8000")),
    ("8000", .json "8001" (.readRequest "x" 2) origin), ("8000", .submit 0),
    ("8000", .serve true none), ("8000", .apply 0 (AList.insert "x" "1" ∅)),
    ("8001", .json "8000" (.readResponse 2 "1" 2) origin), ("8001", .submit 0),
    ("8001", .serve false (some "8000")), ("8001", .json "8001" (.readResponse 2 "1" 1) origin)]

theorem streams_answered_relayed : ∃ s : HttpCluster String String,
    Run (step String.quote ports) KeepsStreams boot s ∧
      (s.nodes "8001").written = [⟨0, .readResponse 2 "1" 1, "8001", 0⟩] ∧
      StreamsAnswered ports s := by
  have hexec : (Run.exec (step String.quote ports) (fun s l => decide (KeepsStreams s l)) relayed
      boot).map (fun s => (s.nodes "8001").written) =
        some [⟨0, .readResponse 2 "1" 1, "8001", 0⟩] := by
    decide +kernel
  obtain ⟨s, hrun, hs⟩ := Run.exists_of_exec hexec fun _ _ => of_decide_eq_true
  exact ⟨s, hrun, hs, streams_answered hrun⟩

/-- Two requests wait at 8001, under the IDs 1 and 2. The second is forwarded, and 8000 draws the ID
1 for the response. -/
def confused : List (String × HttpAction String String) :=
  let origin := ("8001", 1)
  [("8001", .request 0 (some (.readRequest "x" 0))), ("8001", .enqueue 0),
    ("8001", .request 1 (some (.readRequest "y" 0))), ("8001", .enqueue 0), ("8001", .submit 1),
    ("8001", .serve false (some "8000")), ("8000", .json "8001" (.readRequest "y" 3) origin),
    ("8000", .submit 0), ("8000", .serve true none),
    ("8000", .apply 0 (AList.insert "y" "1" ∅)),
    ("8001", .json "8000" (.readResponse 3 "1" 1) origin)]

/-- The first stream gets the response to the request on the second. -/
theorem streams_answered_confused : ¬ ∀ s : HttpCluster String String,
    Run (step String.quote ports) (fun _ _ => True) boot s → StreamsAnswered ports s := by
  intro hall
  have hexec : (Run.exec (step String.quote ports) (fun _ _ => true) confused boot).map
      (fun s => (s.nodes "8001").written) = some [⟨0, .readResponse 3 "1" 1, "8001", 1⟩] := by
    decide +kernel
  obtain ⟨s, hrun, hs⟩ := Run.exists_of_exec hexec fun _ _ _ => trivial
  have hmem : ⟨0, .readResponse 3 "1" 1, "8001", 1⟩ ∈ (s.nodes "8001").written := by
    rw [hs]
    exact List.mem_singleton_self _
  exact absurd (hall s hrun "8001" (by decide) _ hmem) (by decide)

end Example

end Miniraft

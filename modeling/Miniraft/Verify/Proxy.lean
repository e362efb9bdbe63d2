import Miniraft.Verify.Client

/-!
# The table of proxies

The rounds of the client loop are recorded (`ProxyLog`), so that one can speak about the order in
which requests are forwarded and answered. An entry of the table is always one that was registered
and has not been answered since (`ProxyLog.Waiting`). The test for a full table comes one request
late, so that the bound is kept in just those runs in which no request is forwarded while the table
holds `maxInflightProxies` entries (`ProxyLog.disciplined_iff`).
-/

namespace Miniraft

variable {NodeID K V : Type}

/-- A round of `incoming_client_rpcs_loop`: the message it takes, what the state answers to
`is_leader()` and `current_leader()`, and what comes of it. -/
structure Round (NodeID K V : Type) where
  before : ClientFront NodeID
  isLeader : Bool
  leader : Option NodeID
  client : NodeID
  msg : ClientMessage K V
  after : ClientFront NodeID
  served : Served NodeID K V

namespace Round

/-- The ID under which a request is forwarded, and its client. -/
def registers (r : Round NodeID K V) : Option (MessageID × NodeID) :=
  match r.msg.inReplyTo, r.isLeader, r.leader with
  | none, false, some _ => some (r.before.nextId, r.client)
  | _, _, _ => none

/-- The ID whose response is passed on, and the client it is passed on to. -/
def answers (r : Round NodeID K V) : Option (MessageID × NodeID) :=
  match r.msg.inReplyTo, r.served with
  | some id, .send client _ => some (id, client)
  | _, _ => none

def Bounded (r : Round NodeID K V) : Prop := r.after.proxies.keys.length ≤ maxInflightProxies

/-- An entry that is not answered stays, unless the table is full and it is the oldest one. -/
def DropsOldest (r : Round NodeID K V) : Prop :=
  ∀ id entry, r.before.proxies.lookup id = some entry → r.after.proxies.lookup id = some entry ∨
    r.answers = some (id, entry.2) ∨
    maxInflightProxies ≤ r.before.proxies.keys.length ∧ ∀ k ∈ r.before.proxies.keys, id ≤ k

/-- A request is forwarded while the table holds `maxInflightProxies` entries. -/
def Overfills (r : Round NodeID K V) : Prop :=
  r.registers ≠ none ∧ r.before.proxies.keys.length = maxInflightProxies

instance [DecidableEq NodeID] (r : Round NodeID K V) : Decidable r.Overfills :=
  inferInstanceAs (Decidable (_ ∧ _))

end Round

/-- The client loop with its rounds, the last one first. -/
structure ProxyLog (NodeID K V : Type) where
  front : ClientFront NodeID
  rounds : List (Round NodeID K V)

inductive ProxyAction (NodeID K V : Type) where
  /-- Another thread draws a message ID. -/
  | draw
  | serve (isLeader : Bool) (leader : Option NodeID) (client : NodeID) (msg : ClientMessage K V)

namespace ProxyLog

def new : ProxyLog NodeID K V := ⟨.new, []⟩

def step [DecidableEq NodeID] (self : NodeID) (s : ProxyLog NodeID K V) :
    ProxyAction NodeID K V → Except ClientPanic (ProxyLog NodeID K V)
  | .draw => return { s with front.nextId := s.front.nextId.next }
  | .serve isLeader leader client msg => do
    let (front, served) ← s.front.serve self isLeader leader client msg
    return ⟨front, ⟨s.front, isLeader, leader, client, msg, front, served⟩ :: s.rounds⟩

/-- The request of `client` was forwarded under `id`, and after that `id` was neither answered nor
used again. -/
def Waiting (id : MessageID) (client : NodeID) (rounds : List (Round NodeID K V)) : Prop :=
  ∃ since r earlier, rounds = since ++ r :: earlier ∧ r.registers = some (id, client) ∧
    ∀ q ∈ since, (∀ c, q.registers ≠ some (id, c)) ∧ ∀ c, q.answers ≠ some (id, c)

/-- Every answer goes to a client that waits for it: to one registration there is at most one. -/
def AnsweredOnce (rounds : List (Round NodeID K V)) : Prop :=
  ∀ later r earlier id client, rounds = later ++ r :: earlier → r.answers = some (id, client) →
    Waiting id client earlier

structure Disciplined (s : ProxyLog NodeID K V) : Prop where
  bounded : ∀ r ∈ s.rounds, r.Bounded
  dropsOldest : ∀ r ∈ s.rounds, r.DropsOldest
  answeredOnce : AnsweredOnce s.rounds

end ProxyLog

/-! ## Rounds -/

namespace Map

variable {m : Map MessageID V} {k : MessageID} {x : V}

theorem lookup_makeRoom_of_ne (h : m.lookup k = some x) : m.makeRoom.lookup k = some x ∨
    maxInflightProxies ≤ m.keys.length ∧ ∀ k' ∈ m.keys, k ≤ k' := by
  unfold makeRoom
  split
  · next hfull =>
    unfold popFirst
    split
    · next key hkey =>
      rcases eq_or_ne k key with rfl | hne
      · exact .inr ⟨hfull.le, fun k' hk' => (List.min?_eq_some_iff.mp hkey).2 k' hk'⟩
      · exact .inl (by rwa [AList.lookup_erase_ne hne])
    · exact .inl h
  · exact .inl h

theorem makeRoom_of_le (h : m.keys.length ≤ maxInflightProxies) : m.makeRoom = m :=
  if_neg (Nat.not_lt.mpr h)

theorem length_keys_insert (h : m.lookup k = none) :
    (m.insert k x).keys.length = m.keys.length + 1 := by
  rw [AList.keys_insert, List.erase_of_not_mem (AList.lookup_eq_none.mp h), List.length_cons]

theorem length_keys_erase_le : (m.erase k).keys.length ≤ m.keys.length := by
  rw [AList.keys_erase]
  exact List.length_erase_le

end Map

namespace Round

variable {r : Round NodeID K V}

/-- What a round does to the table. -/
inductive Shape (r : Round NodeID K V) : Prop
  | quiet : r.registers = none → r.answers = none → r.after.proxies = r.before.proxies → Shape r
  | forward {entry} : r.registers = some (r.before.nextId, entry.2) → r.answers = none →
    r.before.proxies.makeRoom.lookup r.before.nextId = none →
    r.after.proxies = r.before.proxies.makeRoom.insert r.before.nextId entry → Shape r
  | relay {id entry} : r.registers = none → r.answers = some (id, entry.2) →
    r.before.proxies.lookup id = some entry → r.after.proxies = r.before.proxies.erase id → Shape r

theorem Shape.dropsOldest (h : r.Shape) : r.DropsOldest := by
  intro id entry hentry
  cases h with
  | quiet _ _ htable => exact .inl (htable ▸ hentry)
  | @forward entry' _ _ hfresh htable =>
    rcases Map.lookup_makeRoom_of_ne hentry with hkept | hfull
    · have hne : id ≠ r.before.nextId := by
        rintro rfl
        rw [hfresh] at hkept
        cases hkept
      rw [htable, AList.lookup_insert_ne hne]
      exact .inl hkept
    · exact .inr (.inr hfull)
  | @relay id' entry' _ hanswers hlookup htable =>
    rcases eq_or_ne id id' with rfl | hne
    · obtain rfl := Option.some.inj (hentry.symm.trans hlookup)
      exact .inr (.inl hanswers)
    · rw [htable, AList.lookup_erase_ne hne]
      exact .inl hentry

theorem Shape.bounded (h : r.Shape) (hle : r.before.proxies.keys.length ≤ maxInflightProxies)
    (hroom : ¬ r.Overfills) : r.Bounded := by
  unfold Bounded
  cases h with
  | quiet _ _ htable => rwa [htable]
  | forward hregisters _ hfresh htable =>
    have hne : r.before.proxies.keys.length ≠ maxInflightProxies := fun hfull =>
      hroom ⟨by rw [hregisters]; exact Option.some_ne_none _, hfull⟩
    rw [Map.makeRoom_of_le hle] at hfresh htable
    rw [htable, Map.length_keys_insert hfresh]
    omega
  | relay _ _ _ htable =>
    rw [htable]
    exact Map.length_keys_erase_le.trans hle

theorem Shape.not_bounded (h : r.Shape) (hover : r.Overfills) : ¬ r.Bounded := by
  obtain ⟨hregisters, hfull⟩ := hover
  unfold Bounded
  cases h with
  | quiet hnone => exact absurd hnone hregisters
  | forward _ _ hfresh htable =>
    rw [Map.makeRoom_of_le hfull.le] at hfresh htable
    rw [htable, Map.length_keys_insert hfresh]
    omega
  | relay hnone => exact absurd hnone hregisters

variable [DecidableEq NodeID] {f f' : ClientFront NodeID} {self client : NodeID}
  {isLeader : Bool} {leader : Option NodeID} {msg : ClientMessage K V} {served : Served NodeID K V}

theorem shape_of_serve (h : f.serve self isLeader leader client msg = .ok (f', served)) :
    Shape ⟨f, isLeader, leader, client, msg, f', served⟩ := by
  unfold ClientFront.serve at h
  simp only at h
  split at h
  · next hreq =>
    split at h
    · next hleads =>
      simp only [Except.bind_eq_ok_iff, Except.pure_eq_ok_iff, Prod.mk.injEq] at h
      obtain ⟨cmd, -, rfl, rfl⟩ := h
      exact .quiet (by simp [registers, hreq, hleads]) (by simp [answers]) rfl
    next hfollows =>
    split at h
    · split at h
      · cases h
      split at h
      · cases h
      next hfresh =>
      cases h
      refine @Shape.forward _ _ _ _ (msg.id, client) ?_ (by simp [answers, hreq]) ?_ rfl
      · simp [registers, hreq, Bool.eq_false_of_not_eq_true hfollows]
      · simpa using hfresh
    · cases h
      exact .quiet (by simp [registers]) (by simp [answers, hreq]) rfl
  · next id hresp =>
    split at h
    · next originalId originalClient hentry =>
      cases h
      exact .relay (by simp [registers, hresp]) (by simp [answers, hresp]) hentry rfl
    · cases h
      exact .quiet (by simp [registers, hresp]) (by simp [answers]) rfl

end Round

/-! ## Runs -/

namespace ProxyLog

variable {id : MessageID} {client : NodeID} {r : Round NodeID K V}
  {rounds : List (Round NodeID K V)} {s t : ProxyLog NodeID K V}

theorem Waiting.of_registers (h : r.registers = some (id, client)) :
    Waiting id client (r :: rounds) :=
  ⟨[], r, rounds, rfl, h, fun _ hq => absurd hq List.not_mem_nil⟩

theorem Waiting.cons (h : Waiting id client rounds) (hregisters : ∀ c, r.registers ≠ some (id, c))
    (hanswers : ∀ c, r.answers ≠ some (id, c)) : Waiting id client (r :: rounds) := by
  obtain ⟨since, r', earlier, rfl, hr', hsince⟩ := h
  exact ⟨r :: since, r', earlier, rfl, hr', List.forall_mem_cons.mpr ⟨⟨hregisters, hanswers⟩, hsince⟩⟩

theorem AnsweredOnce.cons (h : AnsweredOnce rounds)
    (hr : ∀ id client, r.answers = some (id, client) → Waiting id client rounds) :
    AnsweredOnce (r :: rounds) := by
  intro later q earlier id client heq hq
  rcases List.cons_eq_append_iff.mp heq with ⟨-, heq⟩ | ⟨later, -, heq⟩
  · cases heq
    exact hr id client hq
  · exact h later q earlier id client heq hq

/-- The clients in the table wait for an answer, and every answer so far was due. -/
structure Consistent (s : ProxyLog NodeID K V) : Prop where
  shapes : ∀ r ∈ s.rounds, r.Shape
  waiting : ∀ id entry, s.front.proxies.lookup id = some entry → Waiting id entry.2 s.rounds
  answeredOnce : AnsweredOnce s.rounds
  bounded : (∀ r ∈ s.rounds, ¬ r.Overfills) →
    s.front.proxies.keys.length ≤ maxInflightProxies ∧ ∀ r ∈ s.rounds, r.Bounded

theorem Consistent.new : Consistent (new : ProxyLog NodeID K V) where
  shapes _ hr := absurd hr List.not_mem_nil
  waiting id entry h := by
    rw [show ProxyLog.new.front.proxies.lookup id = none from AList.lookup_empty id] at h
    cases h
  answeredOnce := by
    intro later r earlier id client heq
    exact absurd heq.symm (List.append_ne_nil_of_right_ne_nil _ (List.cons_ne_nil _ _))
  bounded _ := ⟨Nat.zero_le _, fun _ hr => absurd hr List.not_mem_nil⟩

theorem Consistent.draw (H : s.Consistent) :
    Consistent { s with front.nextId := s.front.nextId.next } :=
  ⟨H.shapes, H.waiting, H.answeredOnce, H.bounded⟩

/-- The invariant is kept by a round, by cases on what it does to the table. -/
theorem Consistent.round (H : s.Consistent) (hbefore : r.before = s.front) (hr : r.Shape) :
    Consistent ⟨r.after, r :: s.rounds⟩ where
  shapes := List.forall_mem_cons.mpr ⟨hr, H.shapes⟩
  waiting id entry h := by
    cases hr with
    | quiet hregisters hanswers htable =>
      rw [htable, hbefore] at h
      exact (H.waiting id entry h).cons (by simp [hregisters]) (by simp [hanswers])
    | @forward entry' hregisters hanswers _ htable =>
      rw [htable] at h
      rcases eq_or_ne id r.before.nextId with rfl | hne
      · rw [AList.lookup_insert] at h
        obtain rfl := Option.some.inj h
        exact .of_registers hregisters
      · rw [AList.lookup_insert_ne hne] at h
        have hlookup := Map.lookup_makeRoom h
        rw [hbefore] at hlookup
        exact (H.waiting id entry hlookup).cons (by simp [hregisters, hne.symm])
          (by simp [hanswers])
    | @relay id' entry' hregisters hanswers _ htable =>
      rw [htable] at h
      have hne : id' ≠ id := by
        rintro rfl
        rw [AList.lookup_erase] at h
        cases h
      have hlookup := Map.lookup_of_erase h
      rw [hbefore] at hlookup
      exact (H.waiting id entry hlookup).cons (by simp [hregisters]) (by simp [hanswers, hne])
  answeredOnce := by
    refine H.answeredOnce.cons fun id client hc => ?_
    cases hr with
    | quiet _ hanswers | forward _ hanswers =>
      rw [hanswers] at hc
      cases hc
    | relay _ hanswers hlookup =>
      rw [hanswers] at hc
      cases hc
      exact H.waiting _ _ (hbefore ▸ hlookup)
  bounded h := by
    obtain ⟨hroom, hrooms⟩ := List.forall_mem_cons.mp h
    obtain ⟨hle, hbounded⟩ := H.bounded hrooms
    have hafter := hr.bounded (hbefore ▸ hle) hroom
    exact ⟨hafter, List.forall_mem_cons.mpr ⟨hafter, hbounded⟩⟩

variable [DecidableEq NodeID] {self : NodeID}

theorem step_of_serve {isLeader : Bool} {leader : Option NodeID} {msg : ClientMessage K V}
    {front : ClientFront NodeID} {served : Served NodeID K V}
    (h : s.front.serve self isLeader leader client msg = .ok (front, served)) :
    step self s (.serve isLeader leader client msg) =
      .ok ⟨front, ⟨s.front, isLeader, leader, client, msg, front, served⟩ :: s.rounds⟩ := by
  rw [step, h]
  rfl

theorem consistent (hrun : Run (step self) (fun _ _ => True) new s) : s.Consistent := by
  refine hrun.invariant (I := Consistent) .new fun s a t H _ hs => ?_
  cases a with
  | draw =>
    cases hs
    exact H.draw
  | serve isLeader leader client msg =>
    simp only [step, Except.bind_eq_ok_iff, Except.pure_eq_ok_iff] at hs
    obtain ⟨⟨front, served⟩, hserve, rfl⟩ := hs
    exact H.round rfl (Round.shape_of_serve hserve)

/-- The table of proxies is in order in just those runs in which no request is forwarded while it
holds `maxInflightProxies` entries. -/
theorem disciplined_iff (hrun : Run (step self) (fun _ _ => True) new s) :
    s.Disciplined ↔ ∀ r ∈ s.rounds, ¬ r.Overfills := by
  have H := consistent hrun
  constructor
  · intro h r hr hover
    exact (H.shapes r hr).not_bounded hover (h.bounded r hr)
  · intro h
    exact ⟨(H.bounded h).2, fun r hr => (H.shapes r hr).dropsOldest, H.answeredOnce⟩

namespace Example

/-- Node 0 forwards two requests of client 2 to node 1, which answers one of them twice. -/
def proxied : List (ProxyAction ℕ ℕ ℕ) :=
  [.serve false (some 1) 2 (.readRequest 5 0), .draw,
    .serve false (some 1) 2 (.writeRequest 5 7 1), .serve false (some 1) 1 (.writeResponse 3 8),
    .serve true (some 1) 1 (.writeResponse 3 9)]

theorem disciplined_proxied : ∃ s : ProxyLog ℕ ℕ ℕ, Run (step 0) (fun _ _ => True) new s ∧
    s.rounds.map Round.answers = [none, some (3, 2), none, none] ∧ s.Disciplined := by
  have hexec : (Run.exec (step 0) (fun _ _ => true) proxied new).map (fun s =>
      (s.rounds.map Round.answers, decide (∀ r ∈ s.rounds, ¬ r.Overfills))) =
      some ([none, some (3, 2), none, none], true) := by
    decide +kernel
  obtain ⟨s, hrun, hs⟩ := Run.exists_of_exec hexec fun _ _ _ => trivial
  obtain ⟨hanswers, hroom⟩ := Prod.mk.inj hs
  exact ⟨s, hrun, hanswers, (disciplined_iff hrun).mpr (of_decide_eq_true hroom)⟩

/-- Node 0 knows node 1 as the leader and has forwarded a request of client 2 for `n` times. -/
theorem exists_forwarded {n : ℕ} (hn : n ≤ maxInflightProxies + 1) :
    ∃ s : ProxyLog ℕ ℕ ℕ, Run (step 0) (fun _ _ => True) new s ∧
      s.front.nextId = n + 1 ∧ s.front.proxies.keys.length = n ∧
      (∀ k ∈ s.front.proxies.keys, k ≤ n) ∧
      (0 < n → ∃ r ∈ s.rounds, r.after = s.front) := by
  induction n with
  | zero => exact ⟨new, .refl, rfl, rfl, fun _ hk => absurd hk List.not_mem_nil, nofun⟩
  | succ n ih =>
    obtain ⟨s, hrun, hid, hlen, hkeys, -⟩ := ih (Nat.le_of_succ_le hn)
    have hle : s.front.proxies.keys.length ≤ maxInflightProxies := hlen ▸ Nat.le_of_succ_le_succ hn
    have hfresh : s.front.proxies.lookup s.front.nextId = none := by
      refine AList.lookup_eq_none.mpr fun hmem => ?_
      have hlast := hkeys _ hmem
      rw [hid] at hlast
      exact Nat.not_succ_le_self n hlast
    have hlt : n + 1 + 1 < 2 ^ 64 := by
      unfold maxInflightProxies at hn
      omega
    have hnext : s.front.nextId.next = n + 1 + 1 := by
      rw [hid]
      exact MessageID.next_eq hlt
    have hserve : s.front.serve 0 false (some 1) 2 (.readRequest 0 0 : ClientMessage ℕ ℕ) =
        .ok (⟨n + 1 + 1, s.front.proxies.insert s.front.nextId (0, 2)⟩,
          .send 1 (.readRequest 0 s.front.nextId)) := by
      simp [ClientFront.serve, ClientMessage.inReplyTo, Map.makeRoom_of_le hle, hfresh, hnext,
        ClientMessage.id, ClientMessage.setId]
    refine ⟨_, hrun.tail ⟨_, trivial, step_of_serve hserve⟩, rfl, ?_, ?_,
      fun _ => ⟨_, List.mem_cons_self, rfl⟩⟩
    · exact (Map.length_keys_insert hfresh).trans (congrArg (· + 1) hlen)
    · intro k hk
      rcases AList.mem_insert _ |>.mp hk with rfl | hk
      · exact hid.le
      · exact (hkeys k hk).trans (Nat.le_succ n)

/-- The table grows to one entry more than it should. -/
theorem proxies_overfull : ∃ s : ProxyLog ℕ ℕ ℕ,
    Run (step 0) (fun _ _ => True) new s ∧ ¬ s.Disciplined := by
  obtain ⟨s, hrun, -, hlen, -, hlast⟩ := exists_forwarded le_rfl
  obtain ⟨r, hr, hafter⟩ := hlast (Nat.succ_pos _)
  refine ⟨s, hrun, fun h => ?_⟩
  have hle := h.bounded r hr
  rw [Round.Bounded, hafter, hlen] at hle
  exact Nat.not_succ_le_self _ hle

end Example

end ProxyLog

end Miniraft

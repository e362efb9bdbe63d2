import Miniraft.Verify.Log

/-!
# Appending entries

What `Log::replace_from` and `handle_append_entries` owe to Figure 2 of the Raft paper.
`replace_from` is rules 3 and 4 (`Log.replaceFrom_rules`), and replayed or overtaken appends do no
harm (`Log.replaceFrom_replay`). The handler's post-condition holds under a condition on the
request and the state (`State.handleAppendEntries_spec`): a previous index beyond the log must not
come without a term, and the leader must not have committed beyond what it sent while the local
log goes on.
-/

namespace Miniraft

open Consensus

variable {NodeID Cmd : Type}

namespace Log

/-- Both the log and the entries that go to index `i` have an entry at offset `k`, and their terms
differ. -/
def Conflicts (l : Log Cmd) (i : LogIndex) (ws : List (LogEntry Cmd)) (k : ℕ) : Prop :=
  ∃ t ∈ l.inner[i.natPred + k]?, ∃ w ∈ ws[k]?, t.term ≠ w.term

variable {l : Log Cmd} {i : LogIndex} {ws : List (LogEntry Cmd)} {k : ℕ}

theorem conflict_eq_none (l : Log Cmd) (i : LogIndex) (ws : List (LogEntry Cmd)) :
    conflict (·.term) (l.inner.drop i.natPred) ws = none ↔ ∀ k, ¬ l.Conflicts i ws k := by
  rw [conflict_eq_none_iff]
  simp only [List.getElem?_drop]
  constructor
  · rintro h k ⟨t, ht, w, hw, hne⟩
    exact hne (h k t w ht hw)
  · intro h k t w ht hw
    by_contra hne
    exact h k ⟨t, ht, w, hw, hne⟩

/-- The conflict that `replace_from` acts on is the first one. -/
theorem conflict_eq_some_of_first (hk : l.Conflicts i ws k)
    (hfirst : ∀ j < k, ¬ l.Conflicts i ws j) :
    conflict (·.term) (l.inner.drop i.natPred) ws = some k := by
  obtain ⟨t, ht, w, hw, hne⟩ := hk
  cases hc : conflict (·.term) (l.inner.drop i.natPred) ws with
  | none => exact absurd ⟨t, ht, w, hw, hne⟩ ((conflict_eq_none l i ws).mp hc k)
  | some j =>
    obtain ⟨t', w', ht', hw', hne'⟩ := conflict_eq_some hc
    rw [List.getElem?_drop] at ht'
    have hle : k ≤ j := by
      by_contra hlt
      exact hfirst j (by omega) ⟨t', ht', w', hw', hne'⟩
    rcases Nat.lt_or_ge k j with hlt | hge
    · have hbelow : ∀ n ∈ conflict (·.term) (l.inner.drop i.natPred) ws, k < n := by
        intro n hn
        rw [hc] at hn
        exact Option.some.inj hn ▸ hlt
      exact absurd (conflict_terms hbelow (by rwa [List.getElem?_drop]) hw) hne
    · exact congrArg some (by omega)

/-- Rules 3 and 4 of Figure 2. At the first conflict the rest of the log is dismissed, each entry
once and in order, and replaced; without one the log is kept, and gets what it does not have. -/
theorem replaceFrom_rules (l : Log Cmd) (i : LogIndex) (ws : List (LogEntry Cmd))
    (hl : l.InMemory) :
    ∃ l' d, l.replaceFrom i ws = .ok (l', d) ∧
      (l.inner.length + 1 < i → l' = l ∧ d = []) ∧
      ((i : ℕ) ≤ l.inner.length + 1 →
        (∀ k, l.Conflicts i ws k → (∀ j < k, ¬ l.Conflicts i ws j) →
          l'.inner = l.inner.take (i.natPred + k) ++ ws.drop k ∧
            d = (l.inner.drop (i.natPred + k)).zipIdx (i.natPred + k)) ∧
        ((∀ k, ¬ l.Conflicts i ws k) →
          l'.inner = l.inner ++ ws.drop (l.inner.length - i.natPred) ∧ d = [])) := by
  have hnext := i.natPred_add_one
  rcases Nat.lt_or_ge l.inner.length i.natPred with hgap | hle
  · exact ⟨l, [], replaceFrom_of_gap hgap ws, fun _ => ⟨rfl, rfl⟩, fun h => by omega⟩
  · refine ⟨_, _, replaceFrom_of_le (hl.length_lt.trans (by decide)) hle ws, fun h => by omega,
      fun _ => ⟨?_, ?_⟩⟩
    · intro k hk hfirst
      have hc := conflict_eq_some_of_first hk hfirst
      simp [splice, dropped, hc, List.drop_zipIdx]
    · intro hnone
      have hc := (conflict_eq_none l i ws).mpr hnone
      simp [splice, dropped, hc]

/-- An append that comes again, or after a longer one, changes nothing; one that comes before a
longer one makes no difference. -/
theorem replaceFrom_replay (l : Log Cmd) (i : LogIndex) (ws ws' : List (LogEntry Cmd))
    (hp : ws' <+: ws) (hi : (i : ℕ) ≤ l.inner.length + 1) (hl : l.InMemory)
    (hws : ws.length ≤ maxLength) :
    ∃ l₁ d₁, l.replaceFrom i ws = .ok (l₁, d₁) ∧ l₁.replaceFrom i ws' = .ok (l₁, []) ∧
      ∃ l₂ d₂ d₃, l.replaceFrom i ws' = .ok (l₂, d₂) ∧ l₂.replaceFrom i ws = .ok (l₁, d₃) ∧
        d₂ ++ d₃ = d₁ := by
  have hle : i.natPred ≤ l.inner.length := by
    have := i.natPred_add_one
    omega
  have hlen := hl.length_lt
  have hshort : ws.length < 2 ^ 60 := lt_of_le_of_lt hws (by decide)
  have hshort' := hp.length_le
  obtain ⟨hle₁, hbound₁⟩ := length_splice (·.term) ws hle
  obtain ⟨hle₂, hbound₂⟩ := length_splice (·.term) ws' hle
  obtain ⟨hsame, hnone⟩ := splice_splice_prefix (·.term) hp hle
  obtain ⟨hall, hdrop⟩ := splice_prefix_splice (·.term) hp hle
  refine ⟨⟨splice (·.term) l.inner i.natPred ws⟩, _, replaceFrom_of_le (by omega) hle ws, ?_,
    ⟨splice (·.term) l.inner i.natPred ws'⟩, _, _, replaceFrom_of_le (by omega) hle ws', ?_, hdrop⟩
  · rw [replaceFrom_of_le (l := ⟨splice (·.term) l.inner i.natPred ws⟩)
      (hbound₁.trans_lt (by omega)) ((Nat.le_add_right ..).trans hle₁) ws']
    simp only [hsame, hnone]
  · rw [replaceFrom_of_le (l := ⟨splice (·.term) l.inner i.natPred ws'⟩)
      (hbound₂.trans_lt (by omega)) ((Nat.le_add_right ..).trans hle₂) ws]
    simp only [hall]

end Log

namespace Example

theorem replaceFrom_third : ∃ l' d,
    (⟨[⟨10, 1⟩, ⟨20, 1⟩, ⟨30, 1⟩, ⟨40, 1⟩]⟩ : Log ℕ).replaceFrom 2 [⟨20, 1⟩, ⟨31, 2⟩] = .ok (l', d) ∧
      l'.inner = [⟨10, 1⟩, ⟨20, 1⟩, ⟨31, 2⟩] ∧ d = [(⟨30, 1⟩, 2), (⟨40, 1⟩, 3)] := by
  obtain ⟨l', d, h, -, hle⟩ := Log.replaceFrom_rules
    (⟨[⟨10, 1⟩, ⟨20, 1⟩, ⟨30, 1⟩, ⟨40, 1⟩]⟩ : Log ℕ) 2 [⟨20, 1⟩, ⟨31, 2⟩] (by decide)
  refine ⟨l', d, h, (hle (by decide)).1 1 ?_ ?_⟩
  · exact ⟨⟨30, 1⟩, rfl, ⟨31, 2⟩, rfl, by decide⟩
  · rintro j hj ⟨t, ht, w, hw, hne⟩
    obtain rfl : j = 0 := by omega
    cases ht
    cases hw
    exact hne rfl

/-- The shorter append does no harm after the longer one, nor before it. -/
theorem replaceFrom_overtaken : ∃ l₁ d₁,
    (⟨[⟨10, 1⟩, ⟨30, 1⟩]⟩ : Log ℕ).replaceFrom 1 [⟨10, 1⟩, ⟨31, 2⟩] = .ok (l₁, d₁) ∧
      (l₁.inner = [⟨10, 1⟩, ⟨31, 2⟩] ∧ d₁ = [(⟨30, 1⟩, 1)]) ∧
      l₁.replaceFrom 1 [⟨10, 1⟩] = .ok (l₁, []) ∧ ∃ l₂ d₂ d₃,
        (⟨[⟨10, 1⟩, ⟨30, 1⟩]⟩ : Log ℕ).replaceFrom 1 [⟨10, 1⟩] = .ok (l₂, d₂) ∧
          (l₂.inner = [⟨10, 1⟩, ⟨30, 1⟩] ∧ d₂ = []) ∧
          l₂.replaceFrom 1 [⟨10, 1⟩, ⟨31, 2⟩] = .ok (l₁, d₃) ∧ d₂ ++ d₃ = d₁ := by
  have hlong : (⟨[⟨10, 1⟩, ⟨30, 1⟩]⟩ : Log ℕ).replaceFrom 1 [⟨10, 1⟩, ⟨31, 2⟩] =
      .ok (⟨[⟨10, 1⟩, ⟨31, 2⟩]⟩, [(⟨30, 1⟩, 1)]) := rfl
  have hshort : (⟨[⟨10, 1⟩, ⟨30, 1⟩]⟩ : Log ℕ).replaceFrom 1 [⟨10, 1⟩] =
      .ok (⟨[⟨10, 1⟩, ⟨30, 1⟩]⟩, []) := rfl
  obtain ⟨l₁, d₁, h₁, hagain, l₂, d₂, d₃, h₂, h₃, hd⟩ := Log.replaceFrom_replay
    (⟨[⟨10, 1⟩, ⟨30, 1⟩]⟩ : Log ℕ) 1 [⟨10, 1⟩, ⟨31, 2⟩] [⟨10, 1⟩] ⟨[⟨31, 2⟩], rfl⟩ (by decide)
    (by decide) (by decide)
  obtain ⟨rfl, rfl⟩ := Prod.mk.inj (Except.ok.inj (h₁.symm.trans hlong))
  obtain ⟨rfl, rfl⟩ := Prod.mk.inj (Except.ok.inj (h₂.symm.trans hshort))
  exact ⟨_, _, h₁, ⟨rfl, rfl⟩, hagain, _, _, d₃, h₂, ⟨rfl, rfl⟩, h₃, hd⟩

end Example

/-! ## The handler -/

namespace State

variable {clk : Clock} {peer : NodeID} {ci pi : Option LogIndex} {pt : Option Term}
  {es : Log Cmd} {s s' : State NodeID Cmd}

theorem followCommitIndex_of_le (h : upTo ci ≤ upTo s.c.commitIndex) :
    s.followCommitIndex ci = .ok (s, []) :=
  if_neg (by omega)

/-- If everything applied is within the new commit index, the node catches up with it. -/
theorem followCommitIndex_of_lt (h : upTo s.c.commitIndex < upTo ci)
    (hlog : s.c.log.inner.length < 2 ^ 62)
    (hlast : upTo s.c.lastApplied ≤ min (upTo ci) s.c.log.inner.length) :
    ∃ apps, s.followCommitIndex ci = .ok ({ s with c := { s.c with
      commitIndex := min ci s.c.log.highestIndex
      lastApplied := min ci s.c.log.highestIndex } }, apps) := by
  unfold followCommitIndex
  rw [if_pos h]
  exact advanceStateMachine_of_le hlog (by simpa using hlast) (by simp)

theorem followCommitIndex_inv {apps : List (LogIndex × LogEntry Cmd)}
    (h : s.followCommitIndex ci = .ok (s', apps)) :
    s'.c.log = s.c.log ∧ (upTo ci ≤ upTo s.c.commitIndex ∨
      upTo s.c.lastApplied ≤ min (upTo ci) s.c.log.inner.length ∧
        upTo s'.c.commitIndex = min (upTo ci) s.c.log.inner.length) := by
  unfold followCommitIndex at h
  split at h
  · obtain ⟨last, rfl, -, hlast, -⟩ := advanceStateMachine_eq_ok h
    exact ⟨rfl, .inr ⟨by simpa using hlast, by simp⟩⟩
  · next hle =>
    simp only [Except.pure_eq_ok_iff, Prod.mk.injEq] at h
    obtain ⟨rfl, -⟩ := h
    exact ⟨rfl, .inl (by omega)⟩

/-- The node after it has recognised `peer` as the leader of its term. -/
def following (clk : Clock) (peer : NodeID) (s : State NodeID Cmd) : State NodeID Cmd where
  c := s.c.extendElectionDeadline clk
  r := .follower (some peer) (match s.r with
    | .follower _ votedFor => votedFor
    | _ => some s.c.id)

/-- The consistency check of the request fails. -/
def Inconsistent (pi : Option LogIndex) (pt : Option Term) (s : State NodeID Cmd) : Prop :=
  (pi.bind fun idx => (s.c.log.get idx).map (·.term)) ≠ pt

/-- The node after the entries of a request have been put behind the previous index. -/
def spliced (clk : Clock) (peer : NodeID) (pi : Option LogIndex) (es : Log Cmd)
    (s : State NodeID Cmd) : State NodeID Cmd :=
  { s.following clk peer with
    c := { (s.following clk peer).c with
      log := ⟨splice (·.term) s.c.log.inner (upTo pi) es.inner⟩ } }

/-- How long the log is after the splice. -/
theorem length_spliced (clk : Clock) (peer : NodeID) (es : Log Cmd)
    (hpi : upTo pi ≤ s.c.log.inner.length) :
    (∃ k, s.c.log.Conflicts (Nat.succPNat (upTo pi)) es.inner k) ∧
        (s.spliced clk peer pi es).c.log.inner.length = upTo pi + es.inner.length ∨
      (¬ ∃ k, s.c.log.Conflicts (Nat.succPNat (upTo pi)) es.inner k) ∧
        (s.spliced clk peer pi es).c.log.inner.length =
          max s.c.log.inner.length (upTo pi + es.inner.length) := by
  have hnone := Log.conflict_eq_none s.c.log (Nat.succPNat (upTo pi)) es.inner
  rw [Nat.natPred_succPNat, ← not_exists] at hnone
  cases hc : conflict (·.term) (s.c.log.inner.drop (upTo pi)) es.inner with
  | none => exact .inr ⟨hnone.mp hc, length_splice_of_none hc hpi⟩
  | some k =>
    refine .inl ⟨?_, length_splice_of_conflict hc⟩
    by_contra hno
    rw [hnone.mpr hno] at hc
    cases hc

/-- A rejected request leaves the log, what is committed and what is applied as they were. -/
structure Unaffected (s s' : State NodeID Cmd) (effects : Effects Cmd) : Prop where
  log : s'.c.log = s.c.log
  commitIndex : s'.c.commitIndex = s.c.commitIndex
  lastApplied : s'.c.lastApplied = s.c.lastApplied
  machine : effects.applied = []

/-- After an accepted request the log holds the previous entry and those of the request, and is
committed no further than it has been verified. -/
structure Appended (ci pi : Option LogIndex) (pt : Option Term) (es : Log Cmd)
    (s s' : State NodeID Cmd) : Prop where
  prev : ∀ p ∈ pi, ∃ e, s'.c.log.get p = some e ∧ pt = some e.term
  entries : ∀ j w, es.inner[j]? = some w →
    ∃ e, s'.c.log.get (Nat.succPNat (upTo pi + j)) = some e ∧ e.term = w.term
  commit : upTo s'.c.commitIndex ≤
    max (upTo s.c.commitIndex) (min (upTo ci) (upTo pi + es.inner.length))

/-- An accepted request leaves the previous entry and its own entries in the log. -/
theorem appended_of_spliced (hc : ¬ s.Inconsistent pi pt) (hpi : upTo pi ≤ s.c.log.inner.length)
    (hlog : s'.c.log.inner = splice (·.term) s.c.log.inner (upTo pi) es.inner)
    (hcommit : upTo s'.c.commitIndex ≤
      max (upTo s.c.commitIndex) (min (upTo ci) (upTo pi + es.inner.length))) :
    Appended ci pi pt es s s' := by
  refine ⟨fun p hp => ?_, fun j w hw => ?_, hcommit⟩
  · obtain rfl : pi = some p := hp
    have hpred := p.natPred_add_one
    have hbelow : p.natPred < upTo (some p) := by rw [upTo_some]; omega
    have hlt : p.natPred < s.c.log.inner.length := hbelow.trans_le hpi
    have hget : s'.c.log.get p = s.c.log.get p := by
      rw [Log.get, hlog]
      exact getElem?_splice_of_lt (·.term) es.inner hpi hbelow
    have hsome : s.c.log.get p = some s.c.log.inner[p.natPred] := List.getElem?_eq_getElem hlt
    refine ⟨_, hget.trans hsome, ?_⟩
    rw [← not_ne_iff.mp hc, Option.bind_some, hsome]
    rfl
  · obtain ⟨e, he, hterm⟩ := exists_splice (·.term) hpi hw
    refine ⟨e, ?_, hterm⟩
    rw [Log.get, hlog, Nat.natPred_succPNat]
    exact he

/-- The request comes from another node, and if its consistency check passes, then the previous
index is within the log, and a new commit index neither falls behind what is applied nor reaches
entries of the local log behind those of the request. -/
def WithinReach (peer : NodeID) (ci pi : Option LogIndex) (pt : Option Term) (es : Log Cmd)
    (s : State NodeID Cmd) : Prop :=
  peer ≠ s.c.id ∧ (s.Inconsistent pi pt ∨ upTo pi ≤ s.c.log.inner.length ∧
    (upTo ci ≤ upTo s.c.commitIndex ∨
      upTo s.c.lastApplied ≤ upTo ci ∧
      (upTo s.c.lastApplied ≤ upTo pi + es.inner.length ∨
        upTo s.c.lastApplied ≤ s.c.log.inner.length ∧
          ¬ ∃ k, s.c.log.Conflicts (Nat.succPNat (upTo pi)) es.inner k) ∧
      (upTo ci ≤ upTo pi + es.inner.length ∨ s.c.log.inner.length ≤ upTo pi + es.inner.length ∨
        s.c.log.inner.length ≤ upTo s.c.commitIndex ∨
        ∃ k, s.c.log.Conflicts (Nat.succPNat (upTo pi)) es.inner k)))

/-- The condition on a new commit index in terms of the log after the splice. -/
theorem withinReach_iff (hpeer : peer ≠ s.c.id) (hc : ¬ s.Inconsistent pi pt)
    (hpi : upTo pi ≤ s.c.log.inner.length) (hci : upTo s.c.commitIndex < upTo ci) {n : ℕ}
    (hn : (s.spliced clk peer pi es).c.log.inner.length = n) :
    s.WithinReach peer ci pi pt es ↔ upTo s.c.lastApplied ≤ min (upTo ci) n ∧
      min (upTo ci) n ≤ max (upTo s.c.commitIndex) (min (upTo ci) (upTo pi + es.inner.length)) := by
  have hlen := length_spliced clk peer es hpi
  simp only [WithinReach, ne_eq, hpeer, not_false_eq_true, hc, hpi, true_and, false_or]
  rcases hlen with ⟨hk, hlen⟩ | ⟨hk, hlen⟩
  · simp only [hk, not_true_eq_false, and_false, or_false, or_true, and_true]
    omega
  · simp only [hk, not_false_eq_true, and_true, or_false]
    omega

variable [DecidableEq NodeID]

instance : Decidable (s.Inconsistent pi pt) := inferInstanceAs (Decidable (_ ≠ _))

/-- The handler at a node that does not lead its term. -/
theorem handleAppendEntries_eq (hr : s.isLeader = false) :
    s.handleAppendEntries clk peer s.c.currentTerm ci pi pt es =
      if s.c.id = peer then throw .leaderIsSelf
      else if s.Inconsistent pi pt then
        return (s.following clk peer,
          .appendEntriesResponse s.c.currentTerm s.c.log.highestIndex false, ⟨[], []⟩)
      else do
        let start ← LogIndex.incOrDefault pi
        let (log, dismissed) ← s.c.log.replaceFrom start es.inner
        let s₁ := s.following clk peer
        let (s', applied) ← followCommitIndex ci { s₁ with c := { s₁.c with log } }
        return (s', .appendEntriesResponse s.c.currentTerm s'.c.log.highestIndex true,
          ⟨applied, dismissed⟩) := by
  unfold handleAppendEntries following Inconsistent
  cases h : s.r with
  | leader _ _ _ => simp [isLeader, h] at hr
  | follower _ _ => simp [cancelCandidacy, Common.extendElectionDeadline]
  | candidate _ => simp [cancelCandidacy, becomeFollower, Common.extendElectionDeadline]

theorem handleAppendEntries_of_le (hr : s.isLeader = false) (hpeer : s.c.id ≠ peer)
    (hc : ¬ s.Inconsistent pi pt) (hlog : s.c.log.inner.length < 2 ^ 62)
    (hpi : upTo pi ≤ s.c.log.inner.length) :
    s.handleAppendEntries clk peer s.c.currentTerm ci pi pt es = (do
      let (s', applied) ← (s.spliced clk peer pi es).followCommitIndex ci
      return (s', .appendEntriesResponse s.c.currentTerm s'.c.log.highestIndex true,
        ⟨applied, dropped (·.term) s.c.log.inner (upTo pi) es.inner⟩)) := by
  rw [handleAppendEntries_eq hr, if_neg hpeer, if_neg hc, LogIndex.incOrDefault_of_lt (by omega)]
  have hsplice := Log.replaceFrom_of_le (i := Nat.succPNat (upTo pi)) hlog (by simpa using hpi)
    es.inner
  rw [Nat.natPred_succPNat] at hsplice
  show (do
    let (log, dismissed) ← s.c.log.replaceFrom (Nat.succPNat (upTo pi)) es.inner
    _) = _
  rw [hsplice]
  rfl

/-- The node answers a request of its term as Figure 2 has it. -/
def AnswersAppend (clk : Clock) (peer : NodeID) (ci pi : Option LogIndex) (pt : Option Term)
    (es : Log Cmd) (s : State NodeID Cmd) : Prop :=
  ∃ s' index success effects,
    s.handleAppendEntries clk peer s.c.currentTerm ci pi pt es =
      .ok (s', .appendEntriesResponse s.c.currentTerm index success, effects) ∧
    if success then Appended ci pi pt es s s' else Unaffected s s' effects

/-- Beyond the log a missing term matches a missing entry, and the request is accepted although
the log stays as it is. -/
theorem not_answersAppend_of_gap (hr : s.isLeader = false) (hpeer : s.c.id ≠ peer)
    (hc : ¬ s.Inconsistent pi pt) (hgap : s.c.log.inner.length < upTo pi) :
    ¬ s.AnswersAppend clk peer ci pi pt es := by
  rintro ⟨s', index, success, effects, h, hpost⟩
  rw [handleAppendEntries_eq hr, if_neg hpeer, if_neg hc] at h
  obtain ⟨start, hstart, h⟩ := Except.bind_eq_ok_iff.mp h
  obtain ⟨⟨log, dismissed⟩, hreplace, h⟩ := Except.bind_eq_ok_iff.mp h
  obtain ⟨⟨s₂, applied⟩, hfollow, h⟩ := Except.bind_eq_ok_iff.mp h
  simp only [Except.pure_eq_ok_iff, Prod.mk.injEq, RaftMessage.appendEntriesResponse.injEq] at h
  obtain ⟨rfl, ⟨-, -, rfl⟩, -⟩ := h
  rw [Log.replaceFrom_of_gap (by rw [LogIndex.incOrDefault_eq_ok hstart]; exact hgap)] at hreplace
  obtain ⟨rfl, rfl⟩ := Prod.mk.inj (Except.ok.inj hreplace)
  have hlog : s₂.c.log = s.c.log := (followCommitIndex_inv hfollow).1
  cases pi with
  | none => exact absurd hgap (Nat.not_lt_zero _)
  | some p =>
    obtain ⟨e, he, -⟩ := Appended.prev hpost p rfl
    have hlt := (List.getElem?_eq_some_iff.mp (hlog ▸ he : s.c.log.get p = some e)).1
    have := p.natPred_add_one
    rw [upTo_some] at hgap
    omega

/-- Within the log it all depends on the new commit index. -/
theorem answersAppend_iff_of_lt (hr : s.isLeader = false) (hpeer : s.c.id ≠ peer)
    (hc : ¬ s.Inconsistent pi pt) (hlog : s.c.log.InMemory) (hes : es.InMemory)
    (hpi : upTo pi ≤ s.c.log.inner.length) (hci : upTo s.c.commitIndex < upTo ci) {n : ℕ}
    (hn : (s.spliced clk peer pi es).c.log.inner.length = n) :
    s.AnswersAppend clk peer ci pi pt es ↔ upTo s.c.lastApplied ≤ min (upTo ci) n ∧
      min (upTo ci) n ≤ max (upTo s.c.commitIndex) (min (upTo ci) (upTo pi + es.inner.length)) := by
  subst hn
  unfold AnswersAppend
  rw [handleAppendEntries_of_le hr hpeer hc (hlog.length_lt.trans (by decide)) hpi]
  constructor
  · rintro ⟨s', index, success, effects, h, hpost⟩
    obtain ⟨⟨s₂, applied⟩, hfollow, h⟩ := Except.bind_eq_ok_iff.mp h
    simp only [Except.pure_eq_ok_iff, Prod.mk.injEq, RaftMessage.appendEntriesResponse.injEq] at h
    obtain ⟨rfl, ⟨-, -, rfl⟩, -⟩ := h
    obtain ⟨-, hfollow⟩ := followCommitIndex_inv hfollow
    obtain ⟨hlast, hcommit⟩ := hfollow.resolve_left (not_le.mpr hci)
    exact ⟨hlast, hcommit ▸ Appended.commit hpost⟩
  · rintro ⟨hlast, hcommit⟩
    have hlen : (s.spliced clk peer pi es).c.log.inner.length < 2 ^ 62 := by
      have hle := (length_splice (·.term) es.inner hpi).2
      have := hlog.length_lt
      have := hes.length_lt
      exact hle.trans_lt (by omega)
    obtain ⟨apps, hfollow⟩ := followCommitIndex_of_lt (s := s.spliced clk peer pi es) hci hlen hlast
    rw [hfollow]
    refine ⟨_, _, true, _, rfl, appended_of_spliced hc hpi rfl ?_⟩
    rwa [upTo_min, Log.upTo_highestIndex]

/-- The node answers as in Figure 2 exactly if the request is within reach of its log. -/
theorem handleAppendEntries_spec (clk : Clock) (peer : NodeID) (ci pi : Option LogIndex)
    (pt : Option Term) (es : Log Cmd) (s : State NodeID Cmd) (hr : s.isLeader = false)
    (hlog : s.c.log.InMemory) (hes : es.InMemory) :
    s.AnswersAppend clk peer ci pi pt es ↔ s.WithinReach peer ci pi pt es := by
  by_cases hpeer : s.c.id = peer
  · refine iff_of_false ?_ fun h => h.1 hpeer.symm
    rintro ⟨s', index, success, effects, h, -⟩
    rw [handleAppendEntries_eq hr, if_pos hpeer] at h
    cases h
  by_cases hc : s.Inconsistent pi pt
  · refine iff_of_true ?_ ⟨Ne.symm hpeer, .inl hc⟩
    refine ⟨s.following clk peer, s.c.log.highestIndex, false, ⟨[], []⟩, ?_, rfl, rfl, rfl, rfl⟩
    rw [handleAppendEntries_eq hr, if_neg hpeer, if_pos hc]
    rfl
  rcases Nat.lt_or_ge s.c.log.inner.length (upTo pi) with hgap | hpi
  · refine iff_of_false (not_answersAppend_of_gap hr hpeer hc hgap) fun h => ?_
    exact absurd (h.2.resolve_left hc).1 (by omega)
  rcases Nat.lt_or_ge (upTo s.c.commitIndex) (upTo ci) with hci | hci
  · rw [answersAppend_iff_of_lt hr hpeer hc hlog hes hpi hci rfl,
      withinReach_iff (Ne.symm hpeer) hc hpi hci rfl]
  · refine iff_of_true ?_ ⟨Ne.symm hpeer, .inr ⟨hpi, .inl hci⟩⟩
    unfold AnswersAppend
    rw [handleAppendEntries_of_le hr hpeer hc (hlog.length_lt.trans (by decide)) hpi,
      followCommitIndex_of_le (s := s.spliced clk peer pi es) hci]
    exact ⟨_, _, true, _, rfl, appended_of_spliced hc hpi rfl (le_max_left ..)⟩

end State

namespace Example

open State

/-- A follower of "a" in term 2. -/
def follower (log : List (LogEntry ℕ)) (committed : Option LogIndex) : State String ℕ :=
  let s := State.new "b" ["a", "c"] ⟨2, some "a", ⟨log⟩⟩
  { s with c := { s.c with commitIndex := committed, lastApplied := committed } }

/-- An empty log takes a request behind index 1 for a success, and a log of term 1 is committed
behind the entry that a heartbeat verifies. -/
theorem not_answersAppend :
    ¬ AnswersAppend ⟨0, 0, 0, by decide⟩ "a" none (some 1) none ⟨[⟨20, 2⟩]⟩ (follower [] none) ∧
    ¬ AnswersAppend ⟨0, 0, 0, by decide⟩ "a" (some 2) (some 1) (some 1) ⟨[]⟩
      (follower [⟨10, 1⟩, ⟨21, 1⟩, ⟨31, 1⟩] none) := by
  refine ⟨not_answersAppend_of_gap rfl (by decide) (by decide) (by decide), ?_⟩
  rw [answersAppend_iff_of_lt rfl (by decide) (by decide) (by decide) (by decide) (by decide)
    (by decide) (n := 3) (by decide)]
  decide

theorem answersAppend_conflict :
    AnswersAppend ⟨0, 0, 0, by decide⟩ "a" (some 2) (some 1) (some 1) ⟨[⟨20, 2⟩]⟩
      (follower [⟨10, 1⟩, ⟨21, 1⟩, ⟨31, 1⟩] none) := by
  refine (handleAppendEntries_spec _ _ _ _ _ _ _ rfl (by decide) (by decide)).mpr ?_
  exact ⟨by decide, .inr ⟨by decide, .inr ⟨by decide, .inl (by decide), .inl (by decide)⟩⟩⟩

end Example

end Miniraft

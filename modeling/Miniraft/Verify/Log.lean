import Miniraft.Theory.Splice
import Miniraft.Verify.Map

/-!
# The log functions against their specification

`Log.replaceFrom` is the splice of the abstract protocol (`Log.replaceFrom_eq_ok`), and the loop
of `advance_state_machine` applies the entries between the two indexes (`State.applyLoop_eq_ok`).
-/

namespace Miniraft

open Consensus

variable {NodeID Cmd : Type}

theorem upTo_inj {a b : Option LogIndex} (h : upTo a = upTo b) : a = b := by
  cases a with
  | none =>
    cases b with
    | none => rfl
    | some j => exact absurd h j.pos.ne
  | some i =>
    cases b with
    | none => exact absurd h i.pos.ne'
    | some j => exact congrArg some (PNat.coe_injective h)

theorem LogIndex.inc_of_lt {i : LogIndex} (h : (i : ℕ) + 1 < 2 ^ 64) : i.inc = .ok (i + 1) :=
  if_pos h

theorem LogIndex.incOrDefault_of_lt {a : Option LogIndex} (h : upTo a + 1 < 2 ^ 64) :
    incOrDefault a = .ok (Nat.succPNat (upTo a)) := by
  cases a with
  | none => rfl
  | some i =>
    rw [incOrDefault, inc_of_lt h]
    exact congrArg Except.ok (PNat.coe_injective rfl)

namespace Log

theorem getFrom_getD (l : Log Cmd) (i : LogIndex) :
    (l.getFrom i).getD [] = l.inner.drop i.natPred := by
  unfold getFrom
  split
  · rfl
  · next h => exact (List.drop_eq_nil_of_le (by omega)).symm

theorem replaceLoop_eq_ok {l l' : Log Cmd} {i : LogIndex} {tail ws : List (LogEntry Cmd)}
    {d : List (LogEntry Cmd × ℕ)}
    (htail : tail = l.inner.drop i.natPred) (hi : i.natPred ≤ l.inner.length)
    (h : l.replaceLoop i tail ws = .ok (l', d)) :
    l'.inner = splice (·.term) l.inner i.natPred ws ∧
      d = dropped (·.term) l.inner i.natPred ws := by
  induction tail generalizing i ws with
  | nil =>
    simp only [replaceLoop, Except.pure_eq_ok_iff, Prod.mk.injEq] at h
    obtain ⟨rfl, rfl⟩ := h
    have hlen : l.inner.length ≤ i.natPred := List.drop_eq_nil_iff.mp htail.symm
    simp [splice, dropped, ← htail, show l.inner.length - i.natPred = 0 by omega]
  | cons t ts ih =>
    cases ws with
    | nil =>
      simp only [replaceLoop, Except.pure_eq_ok_iff, Prod.mk.injEq] at h
      obtain ⟨rfl, rfl⟩ := h
      simp [splice, dropped]
    | cons w ws =>
      simp only [replaceLoop] at h
      split at h
      · next hne =>
        simp only [Except.pure_eq_ok_iff, Prod.mk.injEq] at h
        obtain ⟨rfl, rfl⟩ := h
        simp [splice, dropped, ← htail, conflict, hne]
      · next heq =>
        simp only [Except.bind_eq_ok_iff] at h
        obtain ⟨i', hi', h⟩ := h
        have hnext : i'.natPred = i.natPred + 1 := by
          have := LogIndex.inc_eq_ok hi'
          have := i.natPred_add_one
          have := i'.natPred_add_one
          omega
        have hlt : i.natPred < l.inner.length := by
          by_contra hge
          rw [List.drop_eq_nil_of_le (by omega)] at htail
          cases htail
        have hts : ts = l.inner.drop i'.natPred := by
          rw [hnext, ← List.drop_drop, ← htail]
          rfl
        obtain ⟨h1, h2⟩ := ih hts (by omega) h
        have hconf : conflict (·.term) (l.inner.drop i.natPred) (w :: ws) =
            (conflict (·.term) (l.inner.drop i'.natPred) ws).map (· + 1) := by
          simp [← htail, ← hts, conflict, not_ne_iff.mp heq]
        rw [h1, h2]
        unfold splice dropped
        rw [hconf]
        cases conflict (·.term) (l.inner.drop i'.natPred) ws with
        | none =>
          have hk : l.inner.length - i.natPred = l.inner.length - i'.natPred + 1 := by omega
          simp only [Option.map_none, hk, List.drop_succ_cons, and_self]
        | some k =>
          have hk : i'.natPred + k = i.natPred + (k + 1) := by omega
          simp only [Option.map_some, hk, List.drop_succ_cons, and_self]

/-- `replace_from` leaves the log alone if it would leave a gap, and else is the splice. -/
theorem replaceFrom_eq_ok {l l' : Log Cmd} {i : LogIndex} {ws : List (LogEntry Cmd)}
    {d : List (LogEntry Cmd × ℕ)}
    (h : l.replaceFrom i ws = .ok (l', d)) :
    (l.inner.length < i.natPred ∧ l' = l ∧ d = []) ∨
      (i.natPred ≤ l.inner.length ∧ l'.inner = splice (·.term) l.inner i.natPred ws ∧
        d = dropped (·.term) l.inner i.natPred ws) := by
  unfold replaceFrom getFrom at h
  split at h
  · next hnone =>
    simp only [Except.pure_eq_ok_iff, Prod.mk.injEq] at h
    refine .inl ⟨?_, h.1.symm, h.2.symm⟩
    by_contra hle
    simp [show i.natPred ≤ l.inner.length by omega] at hnone
  · next tail htail =>
    split at htail
    · next hle =>
      exact .inr ⟨hle, replaceLoop_eq_ok (Option.some.inj htail).symm hle h⟩
    · cases htail

/-- Logs are far below the limit of `LogIndex::inc`, also after they have been extended. -/
theorem InMemory.length_lt {l : Log Cmd} (h : l.InMemory) : l.inner.length < 2 ^ 60 :=
  lt_of_le_of_lt h (by decide)

theorem exists_replaceLoop {l : Log Cmd} {i : LogIndex} {tail ws : List (LogEntry Cmd)}
    (h : (i : ℕ) + tail.length < 2 ^ 64) : ∃ r, l.replaceLoop i tail ws = .ok r := by
  induction tail generalizing i ws with
  | nil => exact ⟨_, rfl⟩
  | cons t ts ih =>
    cases ws with
    | nil => exact ⟨_, rfl⟩
    | cons w ws =>
      simp only [replaceLoop]
      split
      · exact ⟨_, rfl⟩
      · rw [List.length_cons] at h
        rw [LogIndex.inc_of_lt (by omega)]
        exact ih (by rw [PNat.add_coe, PNat.one_coe]; omega)

/-- `replace_from` returns. -/
theorem exists_replaceFrom {l : Log Cmd} (hl : l.inner.length < 2 ^ 62) (i : LogIndex)
    (ws : List (LogEntry Cmd)) : ∃ r, l.replaceFrom i ws = .ok r := by
  unfold replaceFrom getFrom
  split
  · exact ⟨_, rfl⟩
  · next tail htail =>
    split at htail
    · next hle =>
      obtain rfl := Option.some.inj htail
      have := i.natPred_add_one
      exact exists_replaceLoop (by rw [List.length_drop]; omega)
    · cases htail

/-- Within the log `replace_from` is the splice. -/
theorem replaceFrom_of_le {l : Log Cmd} (hl : l.inner.length < 2 ^ 62) {i : LogIndex}
    (hi : i.natPred ≤ l.inner.length) (ws : List (LogEntry Cmd)) :
    l.replaceFrom i ws = .ok (⟨splice (·.term) l.inner i.natPred ws⟩,
      dropped (·.term) l.inner i.natPred ws) := by
  obtain ⟨⟨l', d⟩, h⟩ := exists_replaceFrom hl i ws
  rcases replaceFrom_eq_ok h with ⟨hgap, -, -⟩ | ⟨-, hl', rfl⟩
  · omega
  · rw [h, ← hl']

/-- Beyond the log it would leave a gap. -/
theorem replaceFrom_of_gap {l : Log Cmd} {i : LogIndex} (hi : l.inner.length < i.natPred)
    (ws : List (LogEntry Cmd)) : l.replaceFrom i ws = .ok (l, []) := by
  unfold replaceFrom getFrom
  rw [if_neg (by omega)]
  rfl

end Log

/-- `apps` are calls of `StateMachine::apply` with the entries of `log` at indexes above `lo` and
up to `hi`. -/
def Applies (log : Log Cmd) (lo hi : ℕ) (apps : List (LogIndex × LogEntry Cmd)) : Prop :=
  ∀ x ∈ apps, lo < x.1 ∧ (x.1 : ℕ) ≤ hi ∧ log.get x.1 = some x.2

theorem Applies.nil (log : Log Cmd) (lo hi : ℕ) : Applies log lo hi [] := by
  simp [Applies]

namespace State

theorem applyLoop_eq_ok {log : Log Cmd} {commit last last' : Option LogIndex} {fuel : ℕ}
    {apps : List (LogIndex × LogEntry Cmd)} (h : applyLoop log commit fuel last = .ok (last', apps))
    (hle : upTo last ≤ upTo commit) (hfuel : upTo commit - upTo last ≤ fuel) :
    upTo last' = upTo commit ∧ Applies log (upTo last) (upTo commit) apps := by
  induction fuel generalizing last last' apps with
  | zero =>
    simp only [applyLoop, Except.pure_eq_ok_iff, Prod.mk.injEq] at h
    obtain ⟨rfl, rfl⟩ := h
    exact ⟨by omega, Applies.nil _ _ _⟩
  | succ fuel ih =>
    simp only [applyLoop] at h
    split at h
    · next hlt =>
      obtain ⟨next, hnext, h⟩ := Except.bind_eq_ok_iff.mp h
      have hval : (next : ℕ) = upTo last + 1 := by
        rw [← LogIndex.incOrDefault_eq_ok hnext, PNat.natPred_add_one]
      split at h
      · simp at h
      · next e he =>
        simp only [Except.bind_eq_ok_iff, Except.pure_eq_ok_iff, Prod.mk.injEq, Prod.exists] at h
        obtain ⟨last'', apps', hrec, rfl, rfl⟩ := h
        obtain ⟨h1, h2⟩ := ih hrec (by simp only [upTo_some]; omega) (by simp only [upTo_some]; omega)
        refine ⟨h1, fun x hx => ?_⟩
        rcases List.mem_cons.mp hx with rfl | hx
        · exact ⟨by simp only; omega, by simp only; omega, he⟩
        · obtain ⟨h3, h4, h5⟩ := h2 x hx
          simp only [upTo_some] at h3
          exact ⟨by omega, h4, h5⟩
    · simp only [Except.pure_eq_ok_iff, Prod.mk.injEq] at h
      obtain ⟨rfl, rfl⟩ := h
      exact ⟨by omega, Applies.nil _ _ _⟩

/-- `advance_state_machine` brings `last_applied` up to the commit index. -/
theorem advanceStateMachine_eq_ok {s s' : State NodeID Cmd} {apps : List (LogIndex × LogEntry Cmd)}
    (h : s.advanceStateMachine = .ok (s', apps)) :
    ∃ last, s' = { s with c := { s.c with lastApplied := last } } ∧
      upTo last = upTo s.c.commitIndex ∧ upTo s.c.lastApplied ≤ upTo s.c.commitIndex ∧
      Applies s.c.log (upTo s.c.lastApplied) (upTo s.c.commitIndex) apps := by
  unfold advanceStateMachine at h
  split at h
  · simp at h
  · next hlt =>
    simp only [Except.bind_eq_ok_iff, Except.pure_eq_ok_iff, Prod.mk.injEq, Prod.exists] at h
    obtain ⟨last, apps', hloop, rfl, rfl⟩ := h
    obtain ⟨h1, h2⟩ := applyLoop_eq_ok hloop (by omega) le_rfl
    exact ⟨last, rfl, h1, by omega, h2⟩

theorem exists_applyLoop {log : Log Cmd} {commit : Option LogIndex} (hlog : log.inner.length < 2 ^ 62)
    (hcommit : upTo commit ≤ log.inner.length) (fuel : ℕ) (last : Option LogIndex) :
    ∃ r, applyLoop log commit fuel last = .ok r := by
  induction fuel generalizing last with
  | zero => exact ⟨_, rfl⟩
  | succ fuel ih =>
    simp only [applyLoop]
    split
    · next hlt =>
      rw [LogIndex.incOrDefault_of_lt (by omega)]
      have hget : log.get (Nat.succPNat (upTo last)) = some log.inner[upTo last] := by
        rw [Log.get, Nat.natPred_succPNat]
        exact List.getElem?_eq_getElem (by omega)
      obtain ⟨⟨last', apps⟩, h⟩ := ih (some (Nat.succPNat (upTo last)))
      refine ⟨(last', (Nat.succPNat (upTo last), log.inner[upTo last]) :: apps), ?_⟩
      simp only [Except.bind_eq_ok_iff, Except.ok.injEq, exists_eq_left', hget]
      exact ⟨_, h, rfl⟩
    · exact ⟨_, rfl⟩

/-- If the committed entries are there, `advance_state_machine` catches up. -/
theorem advanceStateMachine_of_le {s : State NodeID Cmd}
    (hlog : s.c.log.inner.length < 2 ^ 62)
    (hlast : upTo s.c.lastApplied ≤ upTo s.c.commitIndex)
    (hcommit : upTo s.c.commitIndex ≤ s.c.log.inner.length) :
    ∃ apps, s.advanceStateMachine =
      .ok ({ s with c := { s.c with lastApplied := s.c.commitIndex } }, apps) := by
  have hok : ∃ r, s.advanceStateMachine = .ok r := by
    unfold advanceStateMachine
    rw [if_neg (by omega)]
    obtain ⟨r, hr⟩ := exists_applyLoop hlog hcommit
      (upTo s.c.commitIndex - upTo s.c.lastApplied) s.c.lastApplied
    rw [hr]
    exact ⟨_, rfl⟩
  obtain ⟨⟨s', apps⟩, h⟩ := hok
  obtain ⟨last, rfl, hup, -, -⟩ := advanceStateMachine_eq_ok h
  rw [h, upTo_inj hup]
  exact ⟨apps, rfl⟩

variable {next : Map NodeID LogIndex} {mtch : Map NodeID (Option LogIndex)} {lr : Option Instant}

/-- `advance_commit_index` at a lower median that is in the log and of the current term. -/
theorem advanceCommitIndex_of_median {s : State NodeID Cmd} {values : List LogIndex} {n : LogIndex}
    {e : LogEntry Cmd} (hr : s.r = .leader next mtch lr)
    (hvalues : mtch.values.mapM id = some values) (hn : lowerMedian values = some n)
    (he : s.c.log.get n = some e) (hterm : e.term = s.c.currentTerm) :
    s.advanceCommitIndex = advanceStateMachine
      { s with c := { s.c with commitIndex := max s.c.commitIndex (some n) } } := by
  simp only [advanceCommitIndex, hr, hvalues, hn, he]
  exact if_neg (not_ne_iff.mpr hterm)

/-- What else it does is nothing. -/
theorem advanceCommitIndex_cases {s s' : State NodeID Cmd}
    {apps : List (LogIndex × LogEntry Cmd)} (hr : s.r = .leader next mtch lr)
    (h : s.advanceCommitIndex = .ok (s', apps)) :
    (s' = s ∧ apps = []) ∨
      ∃ values n e, mtch.values.mapM id = some values ∧ lowerMedian values = some n ∧
        s.c.log.get n = some e ∧ e.term = s.c.currentTerm ∧
        advanceStateMachine { s with c := { s.c with
          commitIndex := max s.c.commitIndex (some n) } } = .ok (s', apps) := by
  obtain ⟨c, r⟩ := s
  obtain rfl : r = .leader next mtch lr := hr
  simp only [advanceCommitIndex] at h
  split at h
  · simp only [Except.pure_eq_ok_iff, Prod.mk.injEq] at h
    exact .inl ⟨h.1.symm, h.2.symm⟩
  next values hvalues =>
  split at h
  · simp at h
  next n hn =>
  split at h
  · simp only [Except.pure_eq_ok_iff, Prod.mk.injEq] at h
    exact .inl ⟨h.1.symm, h.2.symm⟩
  next e he =>
  split at h
  · simp only [Except.pure_eq_ok_iff, Prod.mk.injEq] at h
    exact .inl ⟨h.1.symm, h.2.symm⟩
  next hterm =>
  exact .inr ⟨values, n, e, hvalues, hn, he, not_ne_iff.mp hterm, h⟩

/-- It only touches what is committed and applied. -/
theorem advanceCommitIndex_frame {s s' : State NodeID Cmd} {apps : List (LogIndex × LogEntry Cmd)}
    (hr : s.r = .leader next mtch lr) (h : s.advanceCommitIndex = .ok (s', apps)) :
    ∃ commitIndex lastApplied, s' = { s with c := { s.c with commitIndex, lastApplied } } := by
  rcases advanceCommitIndex_cases hr h with ⟨rfl, -⟩ | ⟨values, n, e, -, -, -, -, h⟩
  · exact ⟨_, _, rfl⟩
  · obtain ⟨last, rfl, -, -, -⟩ := advanceStateMachine_eq_ok h
    exact ⟨_, _, rfl⟩

/-- It keeps what is applied within what is committed, and that within the log. -/
theorem advanceCommitIndex_bounds {s s' : State NodeID Cmd} {apps : List (LogIndex × LogEntry Cmd)}
    (hr : s.r = .leader next mtch lr) (h : s.advanceCommitIndex = .ok (s', apps))
    (hlast : upTo s.c.lastApplied ≤ upTo s.c.commitIndex)
    (hcommit : upTo s.c.commitIndex ≤ s.c.log.inner.length) :
    upTo s'.c.lastApplied ≤ upTo s'.c.commitIndex ∧
      upTo s'.c.commitIndex ≤ s.c.log.inner.length := by
  rcases advanceCommitIndex_cases hr h with ⟨rfl, -⟩ | ⟨values, n, e, -, -, he, -, h⟩
  · exact ⟨hlast, hcommit⟩
  · obtain ⟨last, rfl, hup, -, -⟩ := advanceStateMachine_eq_ok h
    have hlt := (List.getElem?_eq_some_iff.mp he).1
    have hpred := n.natPred_add_one
    refine ⟨hup.le, ?_⟩
    simp only [upTo_max, upTo_some]
    omega

/-- If the committed entries are there, `advance_commit_index` returns. -/
theorem exists_advanceCommitIndex {s : State NodeID Cmd} (hr : s.r = .leader next mtch lr)
    (hlog : s.c.log.inner.length < 2 ^ 62) (hmtch : mtch.values ≠ [])
    (hlast : upTo s.c.lastApplied ≤ upTo s.c.commitIndex)
    (hcommit : upTo s.c.commitIndex ≤ s.c.log.inner.length) :
    ∃ r, s.advanceCommitIndex = .ok r := by
  obtain ⟨c, r⟩ := s
  obtain rfl : r = .leader next mtch lr := hr
  simp only [advanceCommitIndex]
  split
  · exact ⟨_, rfl⟩
  next values hvalues =>
  split
  · next hnone =>
    rw [lowerMedian_eq_none hnone] at hvalues
    exact absurd (eq_map_some_of_mapM hvalues) hmtch
  next n hn =>
  split
  · exact ⟨_, rfl⟩
  next e he =>
  split
  · exact ⟨_, rfl⟩
  · have hlt := (List.getElem?_eq_some_iff.mp he).1
    have hpred := n.natPred_add_one
    have hlast' : upTo c.lastApplied ≤ upTo (max c.commitIndex (some n)) := by
      rw [upTo_max]
      exact hlast.trans (le_max_left ..)
    have hcommit' : upTo (max c.commitIndex (some n)) ≤ c.log.inner.length := by
      rw [upTo_max, upTo_some]
      exact max_le hcommit (by omega)
    obtain ⟨apps, h⟩ := advanceStateMachine_of_le
      (s := ⟨{ c with commitIndex := max c.commitIndex (some n) }, .leader next mtch lr⟩)
      hlog hlast' hcommit'
    exact ⟨_, h⟩

end State

end Miniraft

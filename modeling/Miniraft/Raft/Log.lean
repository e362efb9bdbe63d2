import Mathlib.Data.PNat.Basic
import Miniraft.Std.Except

/-!
# Log indexes, terms and the Raft log

`raft/src/state.rs`, from `LogIndex` to `Log`. Indexes are 1-based and never zero; the
machine index of `i` is `PNat.natPred i`. Everything that can panic runs in `Except Panic`.
-/

namespace Miniraft

/-- The assertions, `expect`s and `unreachable!`s of `state.rs` and `persistence.rs`. -/
inductive Panic where
  /-- `LogIndex::inc`: "log length should never exceed architecture limit" -/
  | logLengthLimit
  /-- `Term::set`: "need to advance forward" -/
  | needToAdvanceForward
  /-- `become_candidate`: the deadline is checked once more -/
  | electionTimeoutNotPassed
  /-- `become_candidate`: "invalid transition from ..." -/
  | invalidTransition
  /-- `become_leader`: a peer is the node itself -/
  | peerIsSelf
  /-- `become_leader`: "need to be candidate to become leader" -/
  | needToBeCandidate
  /-- `handle_vote_request`: "should never be requested to vote for self" -/
  | voteForSelf
  /-- `handle_vote_response`: "should always vote for ourselves" -/
  | missingSelfVote
  /-- `handle_vote_response`: "should have stepped down from candidacy beforehand" -/
  | remoteTermAhead
  /-- `handle_append_entries`: "should have stepped down already if remote were greater" -/
  | leaderTermAhead
  /-- `handle_append_entries`: "current leader can never be self" -/
  | leaderIsSelf
  /-- `handle_append_entries`: "... can only be follower" -/
  | canOnlyBeFollower
  /-- `replicate_log`: "should have entry for all known cluster nodes" -/
  | missingNextIndex
  /-- `advance_commit_index`: "need to be leader to advance commit index" -/
  | needToBeLeader
  /-- `advance_commit_index`: "... there is at least one peer" -/
  | noMedian
  /-- `advance_state_machine`: "can never overtake" -/
  | overtaken
  /-- `advance_state_machine`: "entries below commit index must exist" -/
  | missingEntry
  /-- `From<&State> for Persistent`: "candidates always vote for themselves" -/
  | candidateWithoutSelfVote
  deriving DecidableEq, Repr

/-- Index of log entries, 1-indexed: a `NonZero<u64>`. The bound `2^64` is checked where the
source checks it, in `LogIndex.inc`. -/
abbrev LogIndex := ℕ+

namespace LogIndex

instance neZero_one : NeZero (1 : ℕ) := ⟨Nat.one_ne_zero⟩

instance neZero_two : NeZero (2 : ℕ) := ⟨Nat.succ_ne_zero 1⟩

/-- Increment the index by 1. -/
def inc (i : LogIndex) : Except Panic LogIndex :=
  if (i : ℕ) + 1 < 2 ^ 64 then pure (i + 1) else throw .logLengthLimit

/-- `.map(|idx| idx.inc()).unwrap_or_default()` -/
def incOrDefault : Option LogIndex → Except Panic LogIndex
  | some i => i.inc
  | none => pure 1

/-- Decrement the index by 1, if the result is still an index. -/
def dec (i : LogIndex) : Option LogIndex :=
  if h : 0 < i.natPred then some ⟨i.natPred, h⟩ else none

theorem inc_eq_ok {i j : LogIndex} (h : inc i = .ok j) : (j : ℕ) = i + 1 := by
  unfold inc at h
  split at h
  · simp only [Except.pure_eq_ok_iff] at h
    simp [← h]
  · simp at h

end LogIndex

/-- How many entries an optional index reaches over. `Option`'s derived order puts `None` below
every `Some`, so it is the order of this number. -/
def upTo : Option LogIndex → ℕ
  | none => 0
  | some i => i

@[simp] theorem upTo_none : upTo none = 0 := rfl

@[simp] theorem upTo_some (i : LogIndex) : upTo (some i) = i := rfl

@[simp] theorem upTo_min (a b : Option LogIndex) : upTo (min a b) = min (upTo a) (upTo b) := by
  cases a with
  | none => simp
  | some i =>
    cases b with
    | none => simp
    | some j => simp only [Option.min_some_some, upTo_some]; rcases le_total i j with h | h <;> simp [h]

@[simp] theorem upTo_max (a b : Option LogIndex) : upTo (max a b) = max (upTo a) (upTo b) := by
  cases a with
  | none => simp
  | some i =>
    cases b with
    | none => simp
    | some j => simp only [Option.max_some_some, upTo_some]; rcases le_total i j with h | h <;> simp [h]

theorem LogIndex.incOrDefault_eq_ok {a : Option LogIndex} {i : LogIndex}
    (h : incOrDefault a = .ok i) : i.natPred = upTo a := by
  cases a with
  | none =>
    simp only [incOrDefault, Except.pure_eq_ok_iff] at h
    subst h
    rfl
  | some j =>
    have := inc_eq_ok h
    have := i.natPred_add_one
    simp only [upTo_some]
    omega

@[simp] theorem upTo_dec (i : LogIndex) : upTo i.dec = i.natPred := by
  unfold LogIndex.dec
  split
  · rfl
  · simp only [upTo_none]; omega

theorem LogIndex.natPred_dec_getD_le (i : LogIndex) : (i.dec.getD 1).natPred ≤ i.natPred := by
  unfold dec
  split
  · exact Nat.sub_le ..
  · exact Nat.zero_le _

/-- An election term: a `u64`. -/
abbrev Term := ℕ

namespace Term

/-- Set the term to a specific target. -/
def set (t target : Term) : Except Panic Term :=
  if t < target then pure target else throw .needToAdvanceForward

/-- Increment the term by 1. At the end of `u64` the sum wraps around (or overflows), and
either way the step panics. -/
def step (t : Term) : Except Panic Term := set t ((t + 1) % 2 ^ 64)

theorem set_eq_ok {t target t' : Term} (h : set t target = .ok t') : t < target ∧ t' = target := by
  unfold set at h
  split at h
  · simp only [Except.pure_eq_ok_iff] at h
    exact ⟨‹_›, h.symm⟩
  · simp at h

theorem step_eq_ok {t t' : Term} (h : step t = .ok t') : t < t' := by
  obtain ⟨hlt, rfl⟩ := set_eq_ok h
  exact hlt

end Term

/-- An entry in the Raft log. -/
structure LogEntry (Cmd : Type) where
  /-- Command to apply to the state machine once this entry is considered committed. -/
  cmd : Cmd
  /-- Term in which this entry was received by leader. -/
  term : Term
  deriving DecidableEq, Repr

/-- The Raft log. 1-indexed. -/
structure Log (Cmd : Type) where
  inner : List (LogEntry Cmd)
  deriving DecidableEq, Repr

namespace Log

variable {Cmd : Type}

/-- A `Vec` takes at most `isize::MAX` bytes, and every entry takes eight for its term. -/
def maxLength : ℕ := (2 ^ 63 - 1) / 8

/-- The entries fit into a `Vec`. -/
def InMemory (l : Log Cmd) : Prop := l.inner.length ≤ maxLength

instance (l : Log Cmd) : Decidable l.InMemory := inferInstanceAs (Decidable (_ ≤ _))

/-- Get entry at given index, if any. -/
def get (l : Log Cmd) (index : LogIndex) : Option (LogEntry Cmd) :=
  l.inner[index.natPred]?

/-- Get all entries starting from the given entry, if any. -/
def getFrom (l : Log Cmd) (index : LogIndex) : Option (List (LogEntry Cmd)) :=
  if index.natPred ≤ l.inner.length then some (l.inner.drop index.natPred) else none

/-- The loop of `replace_from`: `tail` and `with` are consumed in lockstep while `index` is the
index of `tail`'s head. Returns the new log and the entries whose commands were dismissed, each
with its machine index. -/
def replaceLoop (l : Log Cmd) (index : LogIndex) :
    (tail ents : List (LogEntry Cmd)) → Except Panic (Log Cmd × List (LogEntry Cmd × ℕ))
  -- Tail ended, add remaining entries, if any.
  | [], ws => pure (⟨l.inner ++ ws⟩, [])
  -- Entries to add exhausted. The tail is not truncated.
  | _ :: _, [] => pure (l, [])
  | t :: ts, w :: ws =>
    if t.term ≠ w.term then
      -- A conflict. `drain` from `index` on, dismissing each, then put `w` and the rest.
      pure (⟨l.inner.take index.natPred ++ w :: ws⟩, l.inner.zipIdx.drop index.natPred)
    else do
      replaceLoop l (← index.inc) ts ws

/-- Replace log entries starting at given index with new ones, dismissing replaced commands.
Entries are only replaced if they conflict with new ones (same index, different term). -/
def replaceFrom (l : Log Cmd) (index : LogIndex) (ents : List (LogEntry Cmd)) :
    Except Panic (Log Cmd × List (LogEntry Cmd × ℕ)) :=
  match l.getFrom index with
  -- Requested index too high, would leave a gap.
  | none => pure (l, [])
  | some tail => replaceLoop l index tail ents

/-- Gets the last log entry, if any. -/
def last (l : Log Cmd) : Option (LogEntry Cmd) := l.inner.getLast?

/-- Gets the index of the last log entry, if any. -/
def highestIndex (l : Log Cmd) : Option LogIndex :=
  if l.inner.isEmpty then none else some (Nat.succPNat (l.inner.length - 1))

def append (l : Log Cmd) (entry : LogEntry Cmd) : Log Cmd := ⟨l.inner ++ [entry]⟩

@[simp] theorem upTo_highestIndex (l : Log Cmd) : upTo l.highestIndex = l.inner.length := by
  unfold highestIndex
  split
  · simp_all
  · have : l.inner.length ≠ 0 := by simp_all
    simp only [upTo_some, Nat.succPNat_coe]; omega

end Log

end Miniraft

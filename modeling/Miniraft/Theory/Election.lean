import Mathlib.Data.Finset.Card
import Mathlib.Logic.Function.Basic
import Mathlib.Logic.Relation

/-!
# Elections by majority

The abstract election protocol: nodes move through terms, cast at most one vote a term, and a
node leads a term once a majority of the members has voted for it there. Nothing is said about
messages; `Election.leader` remembers every leader there has ever been.

The main facts are that majorities meet (`Majority.exists_mem`), so that a term has one leader
(`Election.Inv.leader_unique`), and that votes and leaders are never taken back
(`Election.Step.le`).
-/

namespace Consensus

/-- More than half of the members. -/
def Majority {N : Type*} (M Q : Finset N) : Prop := Q ⊆ M ∧ M.card < 2 * Q.card

theorem Majority.exists_mem {N : Type*} [DecidableEq N] {M Q Q' : Finset N}
    (h : Majority M Q) (h' : Majority M Q') : ∃ p, p ∈ Q ∧ p ∈ Q' := by
  have hmeet : (Q ∩ Q').Nonempty :=
    Finset.inter_nonempty_of_card_lt_card_add_card h.1 h'.1 (by have := h.2; have := h'.2; omega)
  obtain ⟨p, hp⟩ := hmeet
  exact ⟨p, Finset.mem_inter.mp hp⟩

structure Election (N : Type*) where
  term : N → ℕ
  vote : N → ℕ → Option N
  leader : ℕ → Option N

namespace Election

variable {N : Type*}

/-- No votes, no leaders, everybody in term 0. -/
def start : Election N := ⟨fun _ => 0, fun _ _ => none, fun _ => none⟩

structure Inv (M : Finset N) (e : Election N) : Prop where
  vote_le : ∀ {p T c}, e.vote p T = some c → T ≤ e.term p
  quorum : ∀ {T c}, e.leader T = some c → ∃ Q, Majority M Q ∧ ∀ p ∈ Q, e.vote p T = some c

/-- Terms do not decrease; votes and leaders stay. -/
structure Le (e e' : Election N) : Prop where
  term : ∀ p, e.term p ≤ e'.term p
  vote : ∀ {p T c}, e.vote p T = some c → e'.vote p T = some c
  leader : ∀ {T c}, e.leader T = some c → e'.leader T = some c

section

variable {M : Finset N} {e e' e'' : Election N}

theorem Le.refl (e : Election N) : Le e e := ⟨fun _ => le_rfl, id, id⟩

theorem Le.trans (h : Le e e') (h' : Le e' e'') : Le e e'' :=
  ⟨fun p => (h.term p).trans (h'.term p), fun hv => h'.vote (h.vote hv),
    fun hl => h'.leader (h.leader hl)⟩

theorem inv_start : (start : Election N).Inv M := ⟨by simp [start], by simp [start]⟩

theorem Inv.vote_eq_none (H : e.Inv M) (h : e.term p < T) : e.vote p T = none := by
  cases hv : e.vote p T with
  | none => rfl
  | some c => exact absurd (H.vote_le hv) (by omega)

/-- `c` has led a term from which on `p` has not led. -/
def Yields (e : Election N) (p c : N) : Prop :=
  ∃ T, e.leader T = some c ∧ ∀ U, T ≤ U → e.leader U ≠ some p

theorem Yields.irrefl : ¬ e.Yields p p := by
  rintro ⟨T, hl, hnone⟩
  exact hnone T le_rfl hl

theorem Yields.trans (h : e.Yields p c) (h' : e.Yields c d) : e.Yields p d := by
  obtain ⟨T, hl, hnone⟩ := h
  obtain ⟨T', hl', hnone'⟩ := h'
  have hlt : T < T' := not_le.mp fun hle => hnone' T hle hl
  exact ⟨T', hl', fun U hU => hnone U (hlt.le.trans hU)⟩

/-- Leaders that are added do not matter to who does not lead. -/
theorem Yields.mono (h : e.Yields p c) (hle : Le e e')
    (hp : ∀ {T}, e'.leader T = some p → e.leader T = some p) : e'.Yields p c := by
  obtain ⟨T, hl, hnone⟩ := h
  exact ⟨T, hle.leader hl, fun U hU hl' => hnone U hU (hp hl')⟩

end

variable [DecidableEq N]

/-- `p` moves to term `T`. -/
def advance (e : Election N) (p : N) (T : ℕ) : Election N :=
  { e with term := Function.update e.term p T }

/-- `p` votes for `c` in term `T`. -/
def cast (e : Election N) (p : N) (T : ℕ) (c : N) : Election N :=
  { e with vote := fun q U => if q = p ∧ U = T then some c else e.vote q U }

/-- `c` becomes leader of term `T`. -/
def elect (e : Election N) (c : N) (T : ℕ) : Election N :=
  { e with leader := Function.update e.leader T (some c) }

inductive Step (M : Finset N) : Election N → Election N → Prop
  | advance {e p T} : e.term p < T → Step M e (e.advance p T)
  | stand {e c T} : e.term c < T → Step M e ((e.advance c T).cast c T c)
  | grant {e p c} : e.vote p (e.term p) = none → Step M e (e.cast p (e.term p) c)
  | elect {e Q T c} : Majority M Q → (∀ p ∈ Q, e.vote p T = some c) → Step M e (e.elect c T)

variable {M : Finset N} {e e' : Election N}

/-- **Election safety**: a majority of votes for `c` excludes every other leader of the term. -/
theorem Inv.leader_unique (H : e.Inv M) (hl : e.leader T = some c) (hQ : Majority M Q)
    (hv : ∀ p ∈ Q, e.vote p T = some c') : c = c' := by
  obtain ⟨Q', hQ', hv'⟩ := H.quorum hl
  obtain ⟨p, hp, hp'⟩ := hQ'.exists_mem hQ
  exact Option.some.inj ((hv' p hp).symm.trans (hv p hp'))

theorem le_advance (h : e.term p ≤ T) : Le e (e.advance p T) := by
  refine ⟨fun q => ?_, id, id⟩
  by_cases hq : q = p
  · subst hq; simpa [advance] using h
  · simp [advance, hq]

theorem le_cast (h : e.vote p T = none) : Le e (e.cast p T c) := by
  refine ⟨fun _ => le_rfl, fun {q U d} hv => ?_, id⟩
  have : ¬ (q = p ∧ U = T) := by
    rintro ⟨rfl, rfl⟩
    rw [h] at hv
    cases hv
  simpa [cast, this] using hv

theorem Inv.step_le (H : e.Inv M) (h : Step M e e') : Le e e' := by
  cases h with
  | advance h => exact le_advance h.le
  | stand h => exact (le_advance h.le).trans (le_cast (H.vote_eq_none h))
  | grant h => exact le_cast h
  | @elect Q T c hQ hv =>
    refine ⟨fun _ => le_rfl, id, fun {U d} hl => ?_⟩
    by_cases hU : U = T
    · subst hU
      rw [H.leader_unique hl hQ hv]
      simp [elect]
    · simpa [elect, hU] using hl

theorem Inv.step (H : e.Inv M) (h : Step M e e') : e'.Inv M := by
  have hle := H.step_le h
  have hquorum : ∀ {T c}, e.leader T = some c →
      ∃ Q, Majority M Q ∧ ∀ p ∈ Q, e'.vote p T = some c := by
    intro T c hl
    obtain ⟨Q, hQ, hv⟩ := H.quorum hl
    exact ⟨Q, hQ, fun p hp => hle.vote (hv p hp)⟩
  cases h with
  | advance h => exact ⟨fun hv => (H.vote_le hv).trans (hle.term _), hquorum⟩
  | @stand c T h =>
    refine ⟨fun {q U d} hv => ?_, hquorum⟩
    by_cases hq : q = c ∧ U = T
    · simp [cast, advance, hq]
    · exact (H.vote_le (by simpa [cast, advance, hq] using hv)).trans (hle.term _)
  | @grant p c h =>
    refine ⟨fun {q U d} hv => ?_, hquorum⟩
    by_cases hq : q = p ∧ U = e.term p
    · simp [cast, hq]
    · exact H.vote_le (by simpa [cast, hq] using hv)
  | @elect Q T c hQ hv =>
    refine ⟨H.vote_le, fun {U d} hl => ?_⟩
    by_cases hU : U = T
    · subst hU
      have hd : c = d := by simpa [elect] using hl
      exact ⟨Q, hQ, hd ▸ hv⟩
    · exact hquorum (by simpa [elect, hU] using hl)

/-- Along every run the invariant holds and nothing is taken back. -/
theorem Inv.steps (H : e.Inv M) (h : Relation.ReflTransGen (Step M) e e') :
    e'.Inv M ∧ Le e e' := by
  induction h with
  | refl => exact ⟨H, .refl e⟩
  | tail _ hs ih => exact ⟨ih.1.step hs, ih.2.trans (ih.1.step_le hs)⟩

end Election

end Consensus

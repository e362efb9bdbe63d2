import Mathlib.Algebra.Order.Group.Nat

/-!
# Ballots

What a voter has to remember: its term and its vote in it. Of an earlier term nothing is kept, but
since terms do not go back, no vote is cast in it any more.
-/

namespace Consensus

structure Ballot (N : Type*) where
  term : ℕ
  vote : Option N

namespace Ballot

variable {N : Type*} {b b' : Ballot N} {T : ℕ} {p q : N}

/-- A later ballot of the same voter. -/
def Le (b b' : Ballot N) : Prop :=
  b.term < b'.term ∨ b.term = b'.term ∧ (b.vote = none ∨ b'.vote = b.vote)

/-- The ballot does not speak against a vote for `p` in term `T`. -/
def Admits (b : Ballot N) (T : ℕ) (p : N) : Prop := T = b.term → b.vote = some p

theorem Le.refl (b : Ballot N) : b.Le b := .inr ⟨rfl, .inr rfl⟩

theorem Le.term_le (h : b.Le b') : b.term ≤ b'.term := by
  rcases h with h | ⟨h, -⟩
  · exact h.le
  · exact h.le

theorem admits_of_lt (h : b.term < T) : b.Admits T p := fun hT => absurd hT h.ne'

/-- A vote that was remembered stays remembered. -/
theorem Admits.mono (ha : b.Admits T p) (hT : T ≤ b.term) (h : b.Le b') : b'.Admits T p := by
  intro hT'
  subst hT'
  rcases h with h | ⟨heq, hv⟩
  · exact absurd hT h.not_ge
  · have hb := ha heq.symm
    rcases hv with hv | hv
    · rw [hv] at hb
      cases hb
    · exact hv.trans hb

theorem Admits.unique (ha : b.Admits T p) (ha' : b.Admits T q) (hT : T = b.term) : p = q :=
  Option.some.inj ((ha hT).symm.trans (ha' hT))

end Ballot

end Consensus

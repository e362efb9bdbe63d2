import Mathlib.Data.Nat.Notation
import Miniraft.Std.Except

/-!
# Programs that read tokens

A program is a state transformer over `Except ε`; its states are tapes, from which tokens are read
off. `Tape.Takes s w t` says that reading the word `w` leads from `s` to `t`. What a program
recognises is a relation between words and results: `Reads` says that each successful run reads a
word of the relation, `Accepts` that on each such word the program succeeds.

`loop` iterates a body as long as it asks for it. Its fuel plays no role once it exceeds a measure
that every iteration lowers (`loop_eq_ok_iff`).

`StateT.Raises` speaks of the errors that a program ends with.
-/

variable {σ ε α β γ τ : Type}

namespace StateT

variable {x : StateT σ (Except ε) α} {f : α → StateT σ (Except ε) β} {s t : σ}

theorem run_bind_eq_ok_iff {r : β × σ} :
    (x >>= f).run s = .ok r ↔ ∃ a t, x.run s = .ok (a, t) ∧ (f a).run t = .ok r := by
  simp only [run_bind, Except.bind_eq_ok_iff, Prod.exists]

theorem run_pure_eq_ok_iff {a b : α} :
    (pure a : StateT σ (Except ε) α).run s = .ok (b, t) ↔ a = b ∧ s = t := by
  simp only [run_pure, Except.pure_eq_ok_iff, Prod.mk.injEq]

theorem run_bind_of_ok {a : α} (h : x.run s = .ok (a, t)) : (x >>= f).run s = (f a).run t := by
  rw [run_bind, h]
  rfl

theorem run_bind_of_error {e : ε} (h : x.run s = .error e) : (x >>= f).run s = .error e := by
  rw [run_bind, h]
  rfl

theorem run_throw_ne_ok {e : ε} {r : α × σ} :
    (throw e : StateT σ (Except ε) α).run s ≠ .ok r := by
  intro h
  cases h

/-- Every error that the program can end with, run from `s`, meets `E`. -/
def Raises (E : ε → Prop) (x : StateT σ (Except ε) α) (s : σ) : Prop := Except.Raises E (x.run s)

namespace Raises

variable {E : ε → Prop}

theorem pure (a : α) : Raises E (Pure.pure a : StateT σ (Except ε) α) s := by
  intro e h
  cases h

theorem bind (hx : Raises E x s) (hf : ∀ a t, x.run s = .ok (a, t) → Raises E (f a) t) :
    Raises E (x >>= f) s := by
  rw [Raises, run_bind]
  exact Except.Raises.bind hx fun r h => hf r.1 r.2 h

end Raises

end StateT

/-! ## Loops -/

/-- How an iteration ends: with the accumulator of the next one, or with the result. -/
inductive LoopFlow (α β : Type) where
  | next (a : α)
  | done (b : β)

/-- `loop`, for at most `fuel` iterations. -/
def loop (stuck : ε) (body : α → StateT σ (Except ε) (LoopFlow α β)) : ℕ → α → StateT σ (Except ε) β
  | 0, _ => throw stuck
  | fuel + 1, a => do
    match ← body a with
    | .next a' => loop stuck body fuel a'
    | .done b => return b

/-- Iterating `body` from accumulator `a` and state `s` ends with `b` and `t`. -/
inductive Loops (body : α → StateT σ (Except ε) (LoopFlow α β)) : α → σ → β → σ → Prop
  | done : (body a).run s = .ok (.done b, t) → Loops body a s b t
  | next : (body a).run s = .ok (.next a', s') → Loops body a' s' b t → Loops body a s b t

section Loop

variable {stuck : ε} {body : α → StateT σ (Except ε) (LoopFlow α β)} {a : α} {b : β} {s t : σ}
  {fuel : ℕ}

/-- Where the first iteration runs alike, so does the loop. -/
theorem Loops.of_run_eq {a' : α} {s' : σ} (h : (body a).run s = (body a').run s')
    (hl : Loops body a' s' b t) : Loops body a s b t := by
  cases hl with
  | done hbody => exact .done (h.trans hbody)
  | next hbody hl => exact .next (h.trans hbody) hl

theorem loops_of_loop (h : (loop stuck body fuel a).run s = .ok (b, t)) : Loops body a s b t := by
  induction fuel generalizing a s with
  | zero => exact absurd h StateT.run_throw_ne_ok
  | succ fuel ih =>
    obtain ⟨r, s', hbody, h⟩ := StateT.run_bind_eq_ok_iff.mp h
    cases r with
    | next a' => exact .next hbody (ih h)
    | done b' =>
      obtain ⟨rfl, rfl⟩ := StateT.run_pure_eq_ok_iff.mp h
      exact .done hbody

/-- If in the states of an invariant every iteration lowers a measure, fuel above it is enough. -/
theorem loop_eq_ok_iff (I : σ → Prop) (size : σ → ℕ)
    (hbody : ∀ a s a' s', I s → (body a).run s = .ok (.next a', s') → I s' ∧ size s' < size s)
    (hs : I s) (hfuel : size s < fuel) :
    (loop stuck body fuel a).run s = .ok (b, t) ↔ Loops body a s b t := by
  refine ⟨loops_of_loop, fun h => ?_⟩
  induction h generalizing fuel with
  | done hrun =>
    obtain ⟨fuel, rfl⟩ := Nat.exists_eq_add_of_lt (Nat.zero_lt_of_lt hfuel)
    rw [Nat.zero_add, loop, StateT.run_bind_of_ok hrun]
    rfl
  | next hrun _ ih =>
    obtain ⟨hI, hlt⟩ := hbody _ _ _ _ hs hrun
    obtain ⟨fuel, rfl⟩ := Nat.exists_eq_add_of_lt (Nat.zero_lt_of_lt hfuel)
    rw [Nat.zero_add] at hfuel ⊢
    rw [loop, StateT.run_bind_of_ok hrun]
    exact ih hI (by omega)

/-- A loop raises what its body does, if every iteration lowers a measure. -/
theorem raises_loop {E : ε → Prop} (I : σ → Prop) (size : σ → ℕ)
    (hbody : ∀ a s, I s → StateT.Raises E (body a) s)
    (hnext : ∀ a s a' s', I s → (body a).run s = .ok (.next a', s') → I s' ∧ size s' < size s)
    (hs : I s) (hfuel : size s < fuel) :
    StateT.Raises E (loop stuck body fuel a) s := by
  induction fuel generalizing a s with
  | zero => exact absurd hfuel (Nat.not_lt_zero _)
  | succ fuel ih =>
    rw [loop]
    refine (hbody a s hs).bind fun r t hrun => ?_
    cases r with
    | next a' =>
      obtain ⟨hI, hlt⟩ := hnext a s a' t hs hrun
      exact ih hI (by omega)
    | done b => exact .pure b

end Loop

/-! ## Tapes -/

/-- States with a rest of tokens that are still to read. -/
class Tape (σ : Type) (τ : outParam Type) where
  rest : σ → List τ
  /-- The state after `n` more tokens. -/
  skip : ℕ → σ → σ
  rest_skip : ∀ n s, rest (skip n s) = (rest s).drop n
  skip_zero : ∀ s, skip 0 s = s
  skip_skip : ∀ m n s, skip n (skip m s) = skip (m + n) s

namespace Tape

variable [Tape σ τ] {s t u : σ} {b : τ} {v w : List τ}

/-- Reading `w` leads from `s` to `t`. -/
structure Takes (s : σ) (w : List τ) (t : σ) : Prop where
  rest : rest s = w ++ rest t
  skip : t = skip w.length s

namespace Takes

theorem nil (s : σ) : Takes s [] s := ⟨rfl, (skip_zero s).symm⟩

theorem nil_iff : Takes s [] t ↔ s = t := by
  constructor
  · intro h
    rw [h.skip, List.length_nil, skip_zero]
  · rintro rfl
    exact nil s

theorem of_rest (h : Tape.rest s = w ++ v) : Takes s w (Tape.skip w.length s) := by
  refine ⟨?_, rfl⟩
  rw [rest_skip, h, List.drop_left]

theorem trans (h : Takes s v t) (h' : Takes t w u) : Takes s (v ++ w) u where
  rest := by rw [h.rest, h'.rest, List.append_assoc]
  skip := by rw [h'.skip, h.skip, skip_skip, List.length_append]

theorem split (h : Takes s (v ++ w) u) : ∃ t, Takes s v t ∧ Takes t w u := by
  have hrest := h.rest
  rw [List.append_assoc] at hrest
  have hv := of_rest hrest
  refine ⟨_, hv, ?_, ?_⟩
  · rw [rest_skip, hrest, List.drop_left]
  · rw [h.skip, skip_skip, List.length_append]

theorem cons (h : Takes s [b] t) (h' : Takes t w u) : Takes s (b :: w) u := h.trans h'

theorem uncons (h : Takes s (b :: w) u) : ∃ t, Takes s [b] t ∧ Takes t w u :=
  split (v := [b]) h

theorem length (h : Takes s w t) : (Tape.rest s).length = w.length + (Tape.rest t).length := by
  rw [h.rest, List.length_append]

end Takes

/-- From states that meet `Q`, every successful run reads a word that `L` relates to its result. -/
def Reads (Q : σ → Prop) (x : StateT σ (Except ε) α) (L : List τ → α → Prop) : Prop :=
  ∀ ⦃s a t⦄, Q s → x.run s = .ok (a, t) → ∃ w, Takes s w t ∧ L w a

/-- From states that meet `Q`, the program succeeds on every word that `L` relates to a result,
provided that what follows the word meets `F`. -/
def Accepts (Q : σ → Prop) (F : List τ → Prop) (x : StateT σ (Except ε) α)
    (L : List τ → α → Prop) : Prop :=
  ∀ ⦃s w a t⦄, Q s → Takes s w t → L w a → F (rest t) → x.run s = .ok (a, t)

end Tape

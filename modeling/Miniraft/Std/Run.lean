import Mathlib.Logic.Relation
import Miniraft.Std.Except

/-!
# Runs of a labelled transition system

A system is a partial step function `σ → α → Except ε σ`. Its runs are the chains of successful
steps whose labels meet a condition on the state they are taken in; the condition is how a result
says which runs it is about.
-/

variable {σ α ε : Type*}

/-- A successful step from `s` to `t` under a label that `P` allows in `s`. -/
def StepOf (step : σ → α → Except ε σ) (P : σ → α → Prop) (s t : σ) : Prop :=
  ∃ a, P s a ∧ step s a = .ok t

/-- A finite run, each of whose steps meets `P`. -/
abbrev Run (step : σ → α → Except ε σ) (P : σ → α → Prop) : σ → σ → Prop :=
  Relation.ReflTransGen (StepOf step P)

namespace Run

variable {step : σ → α → Except ε σ} {P Q : σ → α → Prop} {s t u : σ}

theorem weaken (h : Run step P s t) (hPQ : ∀ s a, P s a → Q s a) : Run step Q s t := by
  refine Relation.ReflTransGen.mono (fun s t hs => ?_) _ _ h
  obtain ⟨a, ha, hs⟩ := hs
  exact ⟨a, hPQ s a ha, hs⟩

/-- What holds at the start and is kept by every step holds at the end. -/
theorem invariant {I : σ → Prop} (h : Run step P s t) (h0 : I s)
    (hstep : ∀ s a t, I s → P s a → step s a = .ok t → I t) : I t := by
  induction h with
  | refl => exact h0
  | tail _ hs ih =>
    obtain ⟨a, ha, hs⟩ := hs
    exact hstep _ a _ ih ha hs

/-- Forward simulation: if every step from related states is answered by steps of `R` to a
related state, so is every run. -/
theorem simulation {τ : Type*} {R : τ → τ → Prop} {Sim : σ → τ → Prop} {x : τ}
    (h : Run step P s t) (h0 : Sim s x)
    (hstep : ∀ s a t x, Sim s x → P s a → step s a = .ok t →
      ∃ y, Relation.ReflTransGen R x y ∧ Sim t y) :
    ∃ y, Relation.ReflTransGen R x y ∧ Sim t y := by
  induction h with
  | refl => exact ⟨x, .refl, h0⟩
  | tail _ hs ih =>
    obtain ⟨a, ha, hs⟩ := hs
    obtain ⟨y, hxy, hy⟩ := ih
    obtain ⟨z, hyz, hz⟩ := hstep _ a _ y hy ha hs
    exact ⟨z, hxy.trans hyz, hz⟩

/-- Something is done for each element of a list in turn. -/
theorem forEach {β : Type*} {I : List β → σ → Prop} {l : List β} (h0 : I [] s)
    (hstep : ∀ xs x ys s, xs ++ x :: ys = l → I xs s → ∃ t, Run step P s t ∧ I (xs ++ [x]) t) :
    ∃ t, Run step P s t ∧ I l t := by
  have hrest : ∀ ys xs s, xs ++ ys = l → I xs s → ∃ t, Run step P s t ∧ I l t := by
    intro ys
    induction ys with
    | nil =>
      intro xs s hl h
      rw [List.append_nil] at hl
      exact ⟨s, .refl, hl ▸ h⟩
    | cons x ys ih =>
      intro xs s hl h
      obtain ⟨t, hst, ht⟩ := hstep xs x ys s hl h
      obtain ⟨u, htu, hu⟩ := ih (xs ++ [x]) t (by rwa [List.append_assoc]) ht
      exact ⟨u, hst.trans htu, hu⟩
  exact hrest l [] s rfl h0

/-- Execute a list of labels, checking the condition `p` at each. -/
def exec (step : σ → α → Except ε σ) (p : σ → α → Bool) : List α → σ → Option σ
  | [], s => some s
  | a :: as, s =>
    if p s a then
      match step s a with
      | .ok t => exec step p as t
      | .error _ => none
    else none

/-- An execution is a run, with labels from the list. -/
theorem of_exec_mem {p : σ → α → Bool} {as : List α} (h : exec step p as s = some t)
    (hp : ∀ s a, p s a = true → P s a) : Run step (fun s a => P s a ∧ a ∈ as) s t := by
  induction as generalizing s with
  | nil =>
    simp only [exec, Option.some.injEq] at h
    exact h ▸ .refl
  | cons a as ih =>
    simp only [exec] at h
    split at h
    · next ha =>
      split at h
      · next u hu =>
        refine .head ⟨a, ⟨hp _ _ ha, List.mem_cons_self⟩, hu⟩ ((ih h).weaken fun s b hb => ?_)
        exact ⟨hb.1, List.mem_cons_of_mem a hb.2⟩
      · cases h
    · cases h

theorem of_exec {p : σ → α → Bool} {as : List α} (h : exec step p as s = some t)
    (hp : ∀ s a, p s a = true → P s a) : Run step P s t :=
  (of_exec_mem h hp).weaken fun _ _ => And.left

theorem exec_singleton {p : σ → α → Bool} {a : α} (h : exec step p [a] s = some t) :
    p s a = true ∧ step s a = .ok t := by
  simp only [exec] at h
  split at h
  · next ha =>
    split at h
    · next u hu =>
      obtain rfl := Option.some.inj h
      exact ⟨ha, hu⟩
    · cases h
  · cases h

/-- An execution that ends in a state seen as `b` is a run to such a state. -/
theorem exists_of_exec {p : σ → α → Bool} {as : List α} {β : Type*} {f : σ → β} {b : β}
    (h : (exec step p as s).map f = some b) (hp : ∀ s a, p s a = true → P s a) :
    ∃ t, Run step P s t ∧ f t = b := by
  obtain ⟨t, ht, rfl⟩ := Option.map_eq_some_iff.mp h
  exact ⟨t, of_exec ht hp, rfl⟩

/-- The same with a state in between. -/
theorem exists_of_exec_exec {p : σ → α → Bool} {as bs : List α} {β : Type*} {f : σ → σ → β} {b : β}
    (h : ((exec step p as s).bind fun t => (exec step p bs t).map (f t)) = some b)
    (hp : ∀ s a, p s a = true → P s a) : ∃ t u, Run step P s t ∧ Run step P t u ∧ f t u = b := by
  obtain ⟨t, ht, h⟩ := Option.bind_eq_some_iff.mp h
  obtain ⟨u, hu, rfl⟩ := Option.map_eq_some_iff.mp h
  exact ⟨t, u, of_exec ht hp, of_exec hu hp, rfl⟩

/-- The same with a step in between. -/
theorem exists_of_exec_step {p : σ → α → Bool} {as bs : List α} {a : α} {β : Type*}
    {f : σ → σ → σ → β} {b : β}
    (h : ((exec step p as s).bind fun t => (exec step p [a] t).bind fun u =>
      (exec step p bs u).map (f t u)) = some b) (hp : ∀ s a, p s a = true → P s a) :
    ∃ t u v, Run step P s t ∧ P t a ∧ step t a = .ok u ∧ Run step P u v ∧ f t u v = b := by
  obtain ⟨t, ht, h⟩ := Option.bind_eq_some_iff.mp h
  obtain ⟨u, hu, h⟩ := Option.bind_eq_some_iff.mp h
  obtain ⟨v, hv, rfl⟩ := Option.map_eq_some_iff.mp h
  obtain ⟨ha, hu⟩ := exec_singleton hu
  exact ⟨t, u, v, of_exec ht hp, hp _ _ ha, hu, of_exec hv hp, rfl⟩

end Run

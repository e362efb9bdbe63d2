import Mathlib.Logic.Basic

/-! Inversion of computations in `Except ε`: a successful `bind`, conditional or traversal is
taken apart into the successful runs of its parts. `Except.Raises E` bounds the errors of a
computation by those of its parts. -/

namespace Except

variable {ε : Type u} {α β : Type v}

theorem ok_bind (a : α) (f : α → Except ε β) : Except.ok a >>= f = f a := rfl

@[simp] theorem bind_eq_ok_iff {x : Except ε α} {f : α → Except ε β} {b : β} :
    x >>= f = .ok b ↔ ∃ a, x = .ok a ∧ f a = .ok b := by
  cases x with
  | error e => simp [bind, Except.bind]
  | ok a => simp [bind, Except.bind]

@[simp] theorem pure_eq_ok_iff {a b : α} : (pure a : Except ε α) = .ok b ↔ a = b := by
  simp [pure, Except.pure]

/-- Every result of a successful traversal is the result at some element of the list. -/
theorem mem_of_mapM_eq_ok {f : α → Except ε β} {xs : List α} {ys : List β}
    (h : xs.mapM f = .ok ys) {y : β} (hy : y ∈ ys) : ∃ x ∈ xs, f x = .ok y := by
  induction xs generalizing ys with
  | nil =>
    simp only [List.mapM_nil, pure_eq_ok_iff] at h
    simp [← h] at hy
  | cons x xs ih =>
    simp only [List.mapM_cons, bind_eq_ok_iff, pure_eq_ok_iff] at h
    obtain ⟨z, hz, zs, hzs, rfl⟩ := h
    rcases List.mem_cons.mp hy with rfl | hy
    · exact ⟨x, List.mem_cons_self, hz⟩
    · obtain ⟨x', hx', he⟩ := ih hzs hy
      exact ⟨x', List.mem_cons_of_mem _ hx', he⟩

theorem mapM_eq_ok_map {f : α → Except ε β} {g : α → β} {xs : List α}
    (h : ∀ x ∈ xs, f x = .ok (g x)) : xs.mapM f = .ok (xs.map g) := by
  induction xs with
  | nil => rfl
  | cons x xs ih =>
    rw [List.mapM_cons, h x List.mem_cons_self, ih fun y hy => h y (List.mem_cons_of_mem _ hy)]
    rfl

/-- A traversal succeeds if it does at every element. -/
theorem exists_mapM_eq_ok_iff {f : α → Except ε β} {xs : List α} :
    (∃ ys, xs.mapM f = .ok ys) ↔ ∀ x ∈ xs, ∃ y, f x = .ok y := by
  induction xs with
  | nil => simp
  | cons x xs ih =>
    simp only [List.mapM_cons, bind_eq_ok_iff, pure_eq_ok_iff, List.forall_mem_cons, ← ih]
    constructor
    · rintro ⟨_, y, hy, ys, hys, rfl⟩
      exact ⟨⟨y, hy⟩, ys, hys⟩
    · rintro ⟨⟨y, hy⟩, ys, hys⟩
      exact ⟨y :: ys, y, hy, ys, hys, rfl⟩

/-! ## Errors -/

/-- Every error the computation can end with meets `E`. -/
def Raises (E : ε → Prop) (x : Except ε α) : Prop := ∀ e, x = .error e → E e

namespace Raises

variable {E : ε → Prop} {x : Except ε α}

theorem pure (a : α) : Raises E (Pure.pure a : Except ε α) := by
  intro e h
  cases h

theorem throw {e : ε} (he : E e) : Raises E (MonadExcept.throw e : Except ε α) := by
  intro e' h
  cases h
  exact he

theorem ite {c : Prop} [Decidable c] {y : Except ε α} (hx : c → Raises E x)
    (hy : ¬ c → Raises E y) : Raises E (if c then x else y) := by
  split
  · exact hx ‹_›
  · exact hy ‹_›

theorem bind {f : α → Except ε β} (hx : Raises E x)
    (hf : ∀ a, x = .ok a → Raises E (f a)) : Raises E (x >>= f) := by
  intro e h
  cases x with
  | error e' =>
    cases h
    exact hx e rfl
  | ok a => exact hf a rfl e h

theorem mapM {f : α → Except ε β} {xs : List α} (hf : ∀ a ∈ xs, Raises E (f a)) :
    Raises E (xs.mapM f) := by
  induction xs with
  | nil =>
    rw [List.mapM_nil]
    exact .pure _
  | cons a xs ih =>
    rw [List.mapM_cons]
    refine (hf a List.mem_cons_self).bind fun b _ => ?_
    refine (ih fun a' ha' => hf a' (List.mem_cons_of_mem _ ha')).bind fun bs _ => ?_
    exact .pure _

end Raises

end Except

import Mathlib.Data.List.Infix
import Mathlib.Data.List.Basic

/-! Initial segments of lists: what a list and its extension have in common. -/

namespace List

variable {α : Type*} {l l' v w : List α} {n : ℕ}

theorem IsPrefix.take_eq (h : l <+: l') (hn : n ≤ l.length) : l'.take n = l.take n := by
  obtain ⟨t, rfl⟩ := h
  exact take_append_of_le_length hn

theorem IsPrefix.getElem?_eq (h : l <+: l') (he : l[n]? = some a) : l'[n]? = some a := by
  obtain ⟨t, rfl⟩ := h
  obtain ⟨hlt, -⟩ := getElem?_eq_some_iff.mp he
  rw [getElem?_append_left hlt, he]

theorem IsPrefix.getElem?_of_lt (h : l <+: l') (hn : n < l.length) : l[n]? = l'[n]? := by
  obtain ⟨t, rfl⟩ := h
  rw [getElem?_append_left hn]

/-- Initial segments of one list, the shorter first. -/
theorem IsPrefix.of_le (h : l <+: w) (h' : l' <+: w) (hle : l.length ≤ l'.length) : l <+: l' :=
  prefix_of_prefix_length_le h h' hle

theorem IsPrefix.take_le (h : l.take n <+: w) (h' : l' <+: w) (hn : n ≤ l'.length) :
    l.take n <+: l' :=
  h.of_le h' (by simp only [length_take]; omega)

theorem drop_zipIdx (l : List α) (i n : ℕ) : (l.zipIdx i).drop n = (l.drop n).zipIdx (i + n) := by
  induction n generalizing l i with
  | zero => rfl
  | succ n ih =>
    cases l with
    | nil => rfl
    | cons a l =>
      rw [zipIdx_cons, drop_succ_cons, drop_succ_cons, ih, Nat.add_right_comm]
      rfl

theorem mem_drop_zipIdx {x : α × ℕ} : x ∈ l.zipIdx.drop n ↔ n ≤ x.2 ∧ l[x.2]? = some x.1 := by
  simp only [mem_iff_getElem?, getElem?_drop, getElem?_zipIdx, Option.map_eq_some_iff]
  constructor
  · rintro ⟨j, e, he, rfl⟩
    exact ⟨by simp, by simpa using he⟩
  · rintro ⟨hle, he⟩
    exact ⟨x.2 - n, x.1, by rwa [Nat.add_sub_of_le hle], by simp [Nat.add_sub_of_le hle]⟩

end List

import Mathlib.Data.Finset.Sort
import Mathlib.Data.List.Permutation

/-!
# Sorting by a key

A stable sort by a key leaves the elements of each key in their order (`block_mergeSort`). Thus what
is written for the elements of a sorted list, one after the other, depends on what is written for
each key (`flatMap_mergeSort_eq`), which for the permutations of one list can be told from it
(`flatMap_block_eq`).

Words that commute in pairs can be strung together in any order (`flatMap_eq_of_perm`).
-/

namespace Blocks

variable {α β κ : Type}

/-! ## Words that commute -/

theorem flatMap_eq_of_perm {write : α → List β} {l l' : List α} (h : l.Perm l')
    (hcomm : ∀ a ∈ l, ∀ b ∈ l, write a ++ write b = write b ++ write a) :
    l.flatMap write = l'.flatMap write := by
  induction h with
  | nil => rfl
  | cons a _ ih =>
    rw [List.flatMap_cons, List.flatMap_cons]
    exact congrArg _ (ih fun b hb c hc =>
      hcomm b (List.mem_cons_of_mem _ hb) c (List.mem_cons_of_mem _ hc))
  | swap a b l =>
    simp only [List.flatMap_cons, ← List.append_assoc]
    rw [hcomm b List.mem_cons_self a (List.mem_cons_of_mem _ List.mem_cons_self)]
  | trans h₁ _ ih₁ ih₂ =>
    rw [ih₁ hcomm]
    exact ih₂ fun a ha b hb => hcomm a (h₁.mem_iff.mpr ha) b (h₁.mem_iff.mpr hb)

/-! ## Blocks -/

section

variable [LinearOrder κ] (key : α → κ) {p : κ} {l l' : List α} {le : α → α → Bool}

/-- The elements with the key `p`. -/
def block (p : κ) (l : List α) : List α := l.filter fun a => key a = p

variable {key}

theorem sublist_block_mergeSort (hle : ∀ a b, le a b ↔ key a ≤ key b) :
    (block key p l).Sublist (l.mergeSort le) := by
  refine List.sublist_mergeSort ?_ ?_ ?_ List.filter_sublist
  · intro a b c hab hbc
    rw [hle] at hab hbc ⊢
    exact hab.trans hbc
  · intro a b
    rw [Bool.or_eq_true, hle, hle]
    exact le_total _ _
  · refine List.pairwise_of_forall_mem_list fun a ha b hb => (hle a b).mpr ?_
    rw [of_decide_eq_true (List.mem_filter.mp ha).2, of_decide_eq_true (List.mem_filter.mp hb).2]

/-- Sorting leaves the elements of a key in their order. -/
theorem block_mergeSort (hle : ∀ a b, le a b ↔ key a ≤ key b) :
    block key p (l.mergeSort le) = block key p l := by
  have hsub := (sublist_block_mergeSort (p := p) (l := l) hle).filter fun a => key a = p
  have hblock : (block key p l).filter (fun a => key a = p) = block key p l := by
    rw [block, List.filter_filter]
    simp
  rw [hblock] at hsub
  exact (hsub.eq_of_length ((l.mergeSort_perm le).filter _).length_eq.symm).symm

theorem eq_block_append (h : l.Pairwise fun a b => key a ≤ key b) (hp : ∀ a ∈ l, p ≤ key a) :
    l = block key p l ++ l.filter fun a => key a ≠ p := by
  induction l with
  | nil => rfl
  | cons a l ih =>
    obtain ⟨ha, hl⟩ := List.pairwise_cons.mp h
    by_cases heq : key a = p
    · have ih := ih hl fun b hb => hp b (List.mem_cons_of_mem _ hb)
      rw [block, List.filter_cons_of_pos (by simpa using heq),
        List.filter_cons_of_neg (by simpa using heq), List.cons_append]
      exact congrArg _ ih
    · have hlt : ∀ b ∈ a :: l, key b ≠ p := by
        have hpa : p < key a := lt_of_le_of_ne (hp a List.mem_cons_self) (Ne.symm heq)
        intro b hb
        rcases List.mem_cons.mp hb with rfl | hb
        · exact heq
        · exact (hpa.trans_le (ha b hb)).ne'
      rw [block, List.filter_eq_nil_iff.mpr (by simpa using hlt),
        List.filter_eq_self.mpr (by simpa using hlt)]
      rfl

/-- A sorted list is made of its blocks, in the order of their keys. -/
theorem eq_flatMap_block {ks : List κ} (hks : ks.Pairwise (· < ·))
    (h : l.Pairwise fun a b => key a ≤ key b) (hmem : ∀ a ∈ l, key a ∈ ks) :
    l = ks.flatMap fun p => block key p l := by
  induction ks generalizing l with
  | nil =>
    rw [List.flatMap_nil]
    exact List.eq_nil_iff_forall_not_mem.mpr fun a ha => List.not_mem_nil (hmem a ha)
  | cons p ks ih =>
    obtain ⟨hp, hks⟩ := List.pairwise_cons.mp hks
    have hle : ∀ a ∈ l, p ≤ key a := by
      intro a ha
      rcases List.mem_cons.mp (hmem a ha) with heq | hlater
      · exact heq.ge
      · exact (hp _ hlater).le
    have hrest := ih (l := l.filter fun a => key a ≠ p) hks (h.filter _) (by
      intro a ha
      obtain ⟨ha, hne⟩ := List.mem_filter.mp ha
      exact (List.mem_cons.mp (hmem a ha)).resolve_left (of_decide_eq_true hne))
    have hblocks : ∀ q ∈ ks, block key q (l.filter fun a => key a ≠ p) = block key q l := by
      intro q hq
      rw [block, block, List.filter_filter]
      refine List.filter_congr fun a _ => ?_
      by_cases heq : key a = q
      · simp [heq, (hp q hq).ne']
      · simp [heq]
    conv => lhs; rw [eq_block_append h hle, hrest]
    rw [List.flatMap_cons, List.flatMap_congr hblocks]

theorem pairwise_mergeSort (hle : ∀ a b, le a b ↔ key a ≤ key b) :
    (l.mergeSort le).Pairwise fun a b => key a ≤ key b := by
  have hsorted := @List.pairwise_mergeSort _ le ?_ ?_ l
  · exact hsorted.imp fun h => (hle _ _).mp h
  · intro a b c hab hbc
    rw [hle] at hab hbc ⊢
    exact hab.trans hbc
  · intro a b
    rw [Bool.or_eq_true, hle, hle]
    exact le_total _ _

/-- The sorted keys depend on the keys only. -/
theorem map_mergeSort_eq (hle : ∀ a b, le a b ↔ key a ≤ key b)
    (h : (l.map key).Perm (l'.map key)) : (l.mergeSort le).map key = (l'.mergeSort le).map key := by
  have hperm : ((l.mergeSort le).map key).Perm ((l'.mergeSort le).map key) :=
    ((l.mergeSort_perm le).map key).trans (h.trans ((l'.mergeSort_perm le).map key).symm)
  have hsorted (l : List α) : ((l.mergeSort le).map key).Pairwise (· ≤ ·) :=
    List.pairwise_map.mpr (pairwise_mergeSort hle)
  exact hperm.eq_of_pairwise' (hsorted l) (hsorted l')

theorem mergeSort_eq_flatMap {ks : List κ} (hle : ∀ a b, le a b ↔ key a ≤ key b)
    (hks : ks.Pairwise (· < ·)) (hmem : ∀ a ∈ l, key a ∈ ks) :
    l.mergeSort le = ks.flatMap fun p => block key p l := by
  have hsort := eq_flatMap_block hks (pairwise_mergeSort (l := l) hle) fun a ha =>
    hmem a (List.mem_mergeSort.mp ha)
  simpa only [block_mergeSort hle] using hsort

variable {write : α → List β}

/-- Some keys in order that comprise those of two lists. -/
theorem exists_keys (key : α → κ) (l l' : List α) :
    ∃ ks : List κ, ks.Pairwise (· < ·) ∧ (∀ a ∈ l, key a ∈ ks) ∧ ∀ a ∈ l', key a ∈ ks := by
  refine ⟨((l ++ l').map key).toFinset.sort, (Finset.sortedLT_sort _).pairwise, ?_, ?_⟩
  · intro a ha
    simp only [Finset.mem_sort, List.mem_toFinset]
    exact List.mem_map_of_mem (List.mem_append_left _ ha)
  · intro a ha
    simp only [Finset.mem_sort, List.mem_toFinset]
    exact List.mem_map_of_mem (List.mem_append_right _ ha)

theorem flatMap_mergeSort_eq (hle : ∀ a b, le a b ↔ key a ≤ key b)
    (h : ∀ p, (block key p l).flatMap write = (block key p l').flatMap write) :
    (l.mergeSort le).flatMap write = (l'.mergeSort le).flatMap write := by
  obtain ⟨ks, hks, hmem, hmem'⟩ := exists_keys key l l'
  rw [mergeSort_eq_flatMap hle hks hmem, mergeSort_eq_flatMap hle hks hmem',
    List.flatMap_assoc, List.flatMap_assoc]
  exact List.flatMap_congr fun p _ => h p

/-- Pieces of the same lengths are told apart in what they make up. -/
theorem eq_of_flatMap_eq {γ : Type} {f g : γ → List β} {ks : List γ}
    (h : ks.flatMap f = ks.flatMap g) (hlength : ∀ k ∈ ks, (f k).length = (g k).length) :
    ∀ k ∈ ks, f k = g k := by
  induction ks with
  | nil => exact List.forall_mem_nil _
  | cons k ks ih =>
    rw [List.flatMap_cons, List.flatMap_cons] at h
    obtain ⟨hk, hks⟩ := List.append_inj h (hlength k List.mem_cons_self)
    exact List.forall_mem_cons.mpr
      ⟨hk, ih hks fun k' hk' => hlength k' (List.mem_cons_of_mem _ hk')⟩

theorem flatMap_block_eq (hle : ∀ a b, le a b ↔ key a ≤ key b) (hperm : l.Perm l')
    (h : (l.mergeSort le).flatMap write = (l'.mergeSort le).flatMap write) (p : κ) :
    (block key p l).flatMap write = (block key p l').flatMap write := by
  obtain ⟨ks, hks, hmem, hmem'⟩ := exists_keys key l l'
  rw [mergeSort_eq_flatMap hle hks hmem, mergeSort_eq_flatMap hle hks hmem',
    List.flatMap_assoc, List.flatMap_assoc] at h
  by_cases hp : p ∈ ks
  · refine eq_of_flatMap_eq h (fun q _ => ?_) p hp
    exact ((hperm.filter _).flatMap_right write).length_eq
  · have hnil {l : List α} (hl : ∀ a ∈ l, key a ∈ ks) : block key p l = [] := by
      refine List.filter_eq_nil_iff.mpr fun a ha heq => hp ?_
      rw [← of_decide_eq_true heq]
      exact hl a ha
    rw [hnil hmem, hnil hmem']

end

end Blocks

import Miniraft.Raft.State

/-!
# Tables of indexes

`lowerMedian` is a value that at least half of the values reach (`lowerMedian_count`), so that a
leader's lower median of the match indexes is reached by a majority once it counts itself
(`Map.exists_of_lowerMedian`).
-/

namespace Miniraft

theorem lowerMedian_count {α : Type} [LinearOrder α] {items : List α} {n : α}
    (h : lowerMedian items = some n) : items.length + 1 ≤ 2 * items.countP (n ≤ ·) := by
  unfold lowerMedian at h
  set s := items.insertionSort (· ≤ ·) with hs
  have hperm : s.Perm items := List.perm_insertionSort ..
  have hsorted : s.Pairwise (· ≤ ·) := List.pairwise_insertionSort ..
  obtain ⟨hlt, hn⟩ := List.getElem?_eq_some_iff.mp h
  have hall : ∀ x ∈ s.drop ((items.length - 1) / 2), n ≤ x := by
    intro x hx
    obtain ⟨j, hj, rfl⟩ := List.mem_drop_iff_getElem.mp hx
    rw [← hn]
    rcases Nat.eq_zero_or_pos j with rfl | hpos
    · exact le_of_eq (by simp)
    · exact List.pairwise_iff_getElem.mp hsorted _ _ _ _ (by omega)
  have hcount : (s.drop ((items.length - 1) / 2)).countP (n ≤ ·) ≤ s.countP (n ≤ ·) :=
    (List.drop_sublist ..).countP_le
  rw [List.countP_eq_length.mpr (by simpa using hall), List.length_drop, hperm.countP_eq,
    hperm.length_eq] at hcount
  rw [hperm.length_eq] at hlt
  omega

/-- The lower median is the highest value that more than half of the values reach. -/
theorem le_lowerMedian_iff {α : Type} [LinearOrder α] {items : List α} {n : α}
    (h : lowerMedian items = some n) (m : α) :
    m ≤ n ↔ items.length < 2 * items.countP (m ≤ ·) := by
  constructor
  · intro hmn
    have hcount := lowerMedian_count h
    have hmono : items.countP (n ≤ ·) ≤ items.countP (m ≤ ·) := by
      refine List.countP_mono_left fun x _ hx => ?_
      simp only [decide_eq_true_eq] at hx ⊢
      exact hmn.trans hx
    omega
  · contrapose!
    intro hnm
    unfold lowerMedian at h
    set s := items.insertionSort (· ≤ ·) with hs
    have hperm : s.Perm items := List.perm_insertionSort ..
    have hsorted : s.Pairwise (· ≤ ·) := List.pairwise_insertionSort ..
    obtain ⟨hlt, hn⟩ := List.getElem?_eq_some_iff.mp h
    -- Up to the median no value reaches `m`.
    have hnone : (s.take ((items.length - 1) / 2 + 1)).countP (m ≤ ·) = 0 := by
      refine List.countP_eq_zero.mpr fun x hx => ?_
      obtain ⟨j, hj, rfl⟩ := List.mem_take_iff_getElem.mp hx
      have hle : s[j] ≤ n := by
        rw [← hn]
        rcases Nat.lt_or_ge j ((items.length - 1) / 2) with hjm | hjm
        · exact List.pairwise_iff_getElem.mp hsorted _ _ _ _ hjm
        · exact le_of_eq (by congr 1; omega)
      simpa using hle.trans_lt hnm
    have hcount : s.countP (m ≤ ·) ≤ s.length - ((items.length - 1) / 2 + 1) := by
      rw [← List.take_append_drop ((items.length - 1) / 2 + 1) s, List.countP_append, hnone]
      refine (Nat.zero_add _).trans_le (List.countP_le_length.trans_eq ?_)
      simp
    rw [hperm.countP_eq, hperm.length_eq] at hcount
    rw [hperm.length_eq] at hlt
    omega

/-- Only no values have no lower median. -/
theorem lowerMedian_eq_none {α : Type} [LinearOrder α] {items : List α}
    (h : lowerMedian items = none) : items = [] := by
  rw [lowerMedian, List.getElem?_eq_none_iff, List.length_insertionSort] at h
  exact List.length_eq_zero_iff.mp (by omega)

theorem lowerMedian_perm {α : Type} [LinearOrder α] {items items' : List α}
    (h : items.Perm items') : lowerMedian items = lowerMedian items' := by
  have hsort : items.insertionSort (· ≤ ·) = items'.insertionSort (· ≤ ·) := by
    refine List.Perm.eq_of_pairwise' (List.pairwise_insertionSort ..)
      (List.pairwise_insertionSort ..) ?_
    exact ((List.perm_insertionSort ..).trans h).trans (List.perm_insertionSort ..).symm
  rw [lowerMedian, lowerMedian, hsort, h.length_eq]

theorem exists_mapM_of_forall {α : Type} {l : List (Option α)} (h : ∀ o ∈ l, ∃ v, o = some v) :
    ∃ vs, l.mapM id = some vs := by
  induction l with
  | nil => exact ⟨[], rfl⟩
  | cons o l ih =>
    obtain ⟨v, rfl⟩ := h o List.mem_cons_self
    obtain ⟨vs, hvs⟩ := ih fun o' ho' => h o' (List.mem_cons_of_mem _ ho')
    exact ⟨v :: vs, by simp [hvs]⟩

theorem eq_map_some_of_mapM {α : Type} {l : List (Option α)} {vs : List α}
    (h : l.mapM id = some vs) : l = vs.map some := by
  induction l generalizing vs with
  | nil => simp_all
  | cons x l ih =>
    simp only [List.mapM_cons, Option.bind_eq_bind, Option.bind_eq_some_iff] at h
    obtain ⟨v, hv, vs', hvs', h⟩ := h
    obtain rfl := Option.some.inj h
    rw [ih hvs', show x = some v from hv]
    rfl

theorem mapM_perm {α : Type} {l l' : List (Option α)} (h : l.Perm l') {vs : List α}
    (hvs : l.mapM id = some vs) : ∃ vs', l'.mapM id = some vs' ∧ vs.Perm vs' := by
  obtain rfl := eq_map_some_of_mapM hvs
  obtain ⟨vs', hvs'⟩ := exists_mapM_of_forall fun o ho => by
    obtain ⟨v, -, hv⟩ := List.mem_map.mp (h.mem_iff.mpr ho)
    exact ⟨v, hv.symm⟩
  refine ⟨vs', hvs', (List.map_perm_map_iff (Option.some_injective α)).mp ?_⟩
  rwa [← eq_map_some_of_mapM hvs']

namespace Map

variable {K V : Type} [DecidableEq K]

/-- Maps with the same lookups have the same values, in some order. -/
theorem values_perm {m m' : Map K V} (h : ∀ k, m.lookup k = m'.lookup k) :
    m.values.Perm m'.values := by
  refine List.Perm.map _ (List.lookup_ext m.nodupKeys m'.nodupKeys fun k v => ?_)
  exact Eq.to_iff (congrArg (v ∈ ·) (h k))

theorem values_ne_nil {m : Map K V} {k : K} {v : V} (h : m.lookup k = some v) : m.values ≠ [] :=
  List.ne_nil_of_mem (List.mem_map.mpr ⟨_, AList.mem_lookup_iff.mp h, rfl⟩)

/-- Putting in what is there. -/
theorem lookup_insert_self {m : Map K V} {k : K} {v : V} (h : m.lookup k = some v) (k' : K) :
    (m.insert k v).lookup k' = m.lookup k' := by
  by_cases hk : k' = k
  · rw [hk, AList.lookup_insert, h]
  · exact AList.lookup_insert_ne hk

theorem lookup_ofKeys (ks : List K) (v : V) (k : K) :
    (ofKeys ks v).lookup k = if k ∈ ks then some v else none := by
  unfold ofKeys
  rw [AList.lookup_to_alist]
  induction ks with
  | nil => simp
  | cons k' ks ih =>
    by_cases hk : k = k'
    · subst hk
      simp
    · rw [List.map_cons, List.dlookup_cons_ne (β := fun _ => V) _ ⟨k', v⟩ hk, ih]
      simp [hk]

theorem mem_ofKeys (ks : List K) (v : V) (k : K) : k ∈ ofKeys ks v ↔ k ∈ ks := by
  rw [← AList.lookup_isSome, lookup_ofKeys]
  split <;> simp_all

theorem countP_values (m : Map K V) (f : V → Bool) :
    m.keys.countP (fun k => (m.lookup k).any f) = m.values.countP f := by
  rw [values, AList.keys, List.keys, List.countP_map, List.countP_map]
  refine List.countP_congr fun e he => ?_
  have hlookup : m.lookup e.1 = some e.2 := AList.mem_lookup_iff.mpr he
  simp [hlookup]

/-- At least half of the keys have values from the lower median on. -/
theorem exists_of_lowerMedian [LinearOrder V] {m : Map K (Option V)} {values : List V} {n : V}
    (hvalues : m.values.mapM id = some values) (hn : lowerMedian values = some n) :
    ∃ Q : Finset K, (∀ k ∈ Q, ∃ v, m.lookup k = some (some v) ∧ n ≤ v) ∧
      m.keys.length + 1 ≤ 2 * Q.card := by
  have hcount := lowerMedian_count hn
  have hmap := eq_map_some_of_mapM hvalues
  let es := m.entries.filter fun e => e.2.any (n ≤ ·)
  have hnodup : (es.map Sigma.fst).Nodup :=
    List.NodupKeys.sublist List.filter_sublist m.nodupKeys
  refine ⟨(es.map Sigma.fst).toFinset, ?_, ?_⟩
  · intro k hk
    obtain ⟨e, he, rfl⟩ := List.mem_map.mp (List.mem_toFinset.mp hk)
    obtain ⟨hmem, hany⟩ := List.mem_filter.mp he
    obtain ⟨k, o⟩ := e
    cases o with
    | none => simp at hany
    | some v => exact ⟨v, AList.mem_lookup_iff.mpr hmem, by simpa using hany⟩
  · have hlen : (es.map Sigma.fst).length = values.countP (n ≤ ·) := by
      rw [List.length_map, ← List.countP_eq_length_filter]
      have := congrArg (List.countP fun o => o.any (n ≤ ·)) hmap
      simpa [Map.values, List.countP_map, Function.comp_def] using this
    have hkeys : m.keys.length = values.length := by
      have := congrArg List.length hmap
      simpa [Map.values, AList.keys, List.keys] using this
    rw [List.toFinset_card_of_nodup hnodup, hlen, hkeys]
    exact hcount

end Map

end Miniraft

import Miniraft.Theory.Replication

/-!
# Splicing entries into a log

`splice tm l i ws` puts the entries `ws` at position `i` of `l`: at the first conflict (entries
of different terms at one position) the rest of `l` is replaced, without a conflict only what
`l` does not have is added. If agreement of terms means agreement of everything below, as between
sound logs, splicing the rest of a log is taking that log over (`splice_eq_takeOver`). Without any
such agreement the terms of a log stay ordered (`Ordered.splice`).
-/

namespace Consensus

variable {E : Type*} (tm : E → ℕ)

/-- The first position at which two lists have entries of different terms. -/
def conflict : List E → List E → Option ℕ
  | t :: ts, w :: ws => if tm t ≠ tm w then some 0 else (conflict ts ws).map (· + 1)
  | _, _ => none

/-- The log after the splice. -/
def splice (l : List E) (i : ℕ) (ws : List E) : List E :=
  match conflict tm (l.drop i) ws with
  | some k => l.take (i + k) ++ ws.drop k
  | none => l ++ ws.drop (l.length - i)

/-- What the splice removes from the log, with positions. -/
def dropped (l : List E) (i : ℕ) (ws : List E) : List (E × ℕ) :=
  match conflict tm (l.drop i) ws with
  | some k => l.zipIdx.drop (i + k)
  | none => []

variable {tm} {l v ws : List E} {i k : ℕ}

theorem mem_of_mem_splice {e : E} (h : e ∈ splice tm l i ws) : e ∈ l ∨ e ∈ ws := by
  unfold splice at h
  split at h
  · exact (List.mem_append.mp h).imp List.mem_of_mem_take List.mem_of_mem_drop
  · exact (List.mem_append.mp h).imp id List.mem_of_mem_drop

@[simp] theorem conflict_nil_left (ws : List E) : conflict tm [] ws = none := by
  simp [conflict]

@[simp] theorem conflict_nil_right (ts : List E) : conflict tm ts [] = none := by
  cases ts <;> simp [conflict]

theorem conflict_eq_some {ts : List E} (h : conflict tm ts ws = some k) :
    ∃ t w, ts[k]? = some t ∧ ws[k]? = some w ∧ tm t ≠ tm w := by
  induction ts generalizing ws k with
  | nil => simp at h
  | cons t ts ih =>
    cases ws with
    | nil => simp at h
    | cons w ws =>
      simp only [conflict] at h
      split at h
      · next hne =>
        obtain rfl := Option.some.inj h
        exact ⟨t, w, rfl, rfl, hne⟩
      · obtain ⟨j, hj, rfl⟩ := Option.map_eq_some_iff.mp h
        exact ih hj

theorem conflict_none_or_eq {ts : List E}
    (hmatch : ∀ {j t w}, ts[j]? = some t → ws[j]? = some w → tm t = tm w →
      ts.take (j + 1) = ws.take (j + 1)) :
    (conflict tm ts ws = none ∧ (ts <+: ws ∨ ws <+: ts)) ∨
      ∃ k, conflict tm ts ws = some k ∧ ts.take k = ws.take k := by
  induction ts generalizing ws with
  | nil => exact .inl ⟨by simp, .inl List.nil_prefix⟩
  | cons t ts ih =>
    cases ws with
    | nil => exact .inl ⟨by simp, .inr List.nil_prefix⟩
    | cons w ws =>
      by_cases hne : tm t = tm w
      · obtain rfl : t = w := by simpa using hmatch (j := 0) rfl rfl hne
        have htail : ∀ {j a b}, ts[j]? = some a → ws[j]? = some b → tm a = tm b →
            ts.take (j + 1) = ws.take (j + 1) := by
          intro j a b ha hb hab
          simpa using hmatch (j := j + 1) ha hb hab
        simp only [conflict, ne_eq, not_true_eq_false, if_false]
        rcases ih htail with ⟨hnone, hp⟩ | ⟨k, hk, he⟩
        · refine .inl ⟨by simp [hnone], ?_⟩
          simpa [List.cons_prefix_cons] using hp
        · exact .inr ⟨k + 1, by simp [hk], by simp [he]⟩
      · exact .inr ⟨0, by simp [conflict, hne], rfl⟩

/-! The splice only looks at terms. -/

variable {F : Type*} (tm) (f : F → E) {l' ws' : List F}

theorem conflict_map : conflict tm (l'.map f) (ws'.map f) = conflict (fun e => tm (f e)) l' ws' := by
  induction l' generalizing ws' with
  | nil => simp
  | cons t ts ih =>
    cases ws' with
    | nil => simp
    | cons w ws => simp [conflict, ih]

theorem splice_map :
    splice tm (l'.map f) i (ws'.map f) = (splice (fun e => tm (f e)) l' i ws').map f := by
  unfold splice
  rw [← List.map_drop, conflict_map tm f]
  split
  · simp
  · simp

theorem dropped_map :
    dropped tm (l'.map f) i (ws'.map f) =
      (dropped (fun e => tm (f e)) l' i ws').map (Prod.map f id) := by
  unfold dropped
  rw [← List.map_drop, conflict_map tm f]
  split
  · simp [List.zipIdx_map]
  · simp

variable {tm}

/-- Between logs that agree below entries of one term, splicing the rest of `v` behind what `l`
shares with it is taking `v` over. -/
theorem splice_eq_takeOver (hi : l.take i = v.take i) (hlen : i ≤ l.length)
    (hmatch : ∀ {j a b}, l[j]? = some a → v[j]? = some b → tm a = tm b →
      l.take (j + 1) = v.take (j + 1)) :
    splice tm l i (v.drop i) = takeOver l v := by
  have hv : i ≤ v.length := by
    have := congrArg List.length hi
    simp only [List.length_take] at this
    omega
  have hl : v.take i ++ l.drop i = l := by rw [← hi]; exact List.take_append_drop i l
  have hdrop : ∀ {j t w}, (l.drop i)[j]? = some t → (v.drop i)[j]? = some w → tm t = tm w →
      (l.drop i).take (j + 1) = (v.drop i).take (j + 1) := by
    intro j t w ht hw htw
    rw [List.getElem?_drop] at ht hw
    have := congrArg (List.drop i) (hmatch ht hw htw)
    simpa [List.drop_take, show i + j + 1 - i = j + 1 by omega] using this
  unfold splice
  rcases conflict_none_or_eq hdrop with ⟨hnone, hp⟩ | ⟨k, hk, he⟩
  · rw [hnone]
    rcases hp with hp | hp
    · have hlv := (List.prefix_append_right_inj (v.take i)).mpr hp
      rw [hl, List.take_append_drop] at hlv
      have : l ++ (v.drop i).drop (l.length - i) = v := by
        obtain ⟨t, rfl⟩ := hlv
        simp [List.drop_drop, show i + (l.length - i) = l.length by omega]
      simp only [this]
      rcases takeOver_cases l v with h | h
      · exact (h ▸ hlv.eq_of_length (le_antisymm hlv.length_le (h ▸ (le_takeOver l v).length_le))).symm
      · exact h.symm
    · have hvl := (List.prefix_append_right_inj (v.take i)).mpr hp
      rw [hl, List.take_append_drop] at hvl
      have : (v.drop i).drop (l.length - i) = [] := by
        have := hvl.length_le
        simp only [List.drop_drop, List.drop_eq_nil_iff]
        omega
      simp only [this, List.append_nil, takeOver_of_le hvl]
  · rw [hk]
    have hcut : l.take (i + k) = v.take (i + k) := by
      rw [List.take_add, List.take_add, hi, he]
    have hres : l.take (i + k) ++ (v.drop i).drop k = v := by
      rw [hcut, List.drop_drop]
      exact List.take_append_drop _ v
    simp only [hres]
    have hnot : ¬ v <+: l := by
      intro hvl
      obtain ⟨t, w, ht, hw, hne⟩ := conflict_eq_some hk
      rw [List.getElem?_drop] at ht hw
      rw [hvl.getElem?_eq hw] at ht
      exact hne (congrArg tm (Option.some.inj ht)).symm
    rcases takeOver_cases l v with h | h
    · exact absurd (h ▸ le_takeOver l v) hnot
    · exact h.symm

/-- Every entry after the splice was in the log or in the entries, at its place. -/
theorem getElem?_splice (hlen : i ≤ l.length) {j : ℕ} {e : E}
    (he : (splice tm l i ws)[j]? = some e) : l[j]? = some e ∨ i ≤ j ∧ ws[j - i]? = some e := by
  unfold splice at he
  split at he
  · next k hk =>
    obtain ⟨t, w, ht, hw, -⟩ := conflict_eq_some hk
    rw [List.getElem?_drop] at ht
    have hik : i + k < l.length := (List.getElem?_eq_some_iff.mp ht).1
    rcases Nat.lt_or_ge j (i + k) with hj | hj
    · left
      rwa [List.getElem?_append_left (by simp only [List.length_take]; omega),
        List.getElem?_take_of_lt hj] at he
    · right
      rw [List.getElem?_append_right (by simp only [List.length_take]; omega),
        List.getElem?_drop] at he
      refine ⟨by omega, ?_⟩
      rwa [show k + (j - (l.take (i + k)).length) = j - i by
        simp only [List.length_take]; omega] at he
  · rcases Nat.lt_or_ge j l.length with hj | hj
    · left
      rwa [List.getElem?_append_left hj] at he
    · right
      rw [List.getElem?_append_right hj, List.getElem?_drop] at he
      exact ⟨by omega, by rwa [show l.length - i + (j - l.length) = j - i by omega] at he⟩

/-- What a splice drops was in the log, behind a conflict. -/
theorem mem_dropped {x : E × ℕ} (hx : x ∈ dropped tm l i ws) :
    ∃ k, conflict tm (l.drop i) ws = some k ∧ i + k ≤ x.2 ∧ l[x.2]? = some x.1 := by
  unfold dropped at hx
  split at hx
  · next k hk => exact ⟨k, hk, List.mem_drop_zipIdx.mp hx⟩
  · cases hx

/-- At the conflict the splice puts the entry. -/
theorem getElem?_splice_conflict {w : E} (hk : conflict tm (l.drop i) ws = some k)
    (hw : ws[k]? = some w) : (splice tm l i ws)[i + k]? = some w := by
  obtain ⟨t, -, ht, -, -⟩ := conflict_eq_some hk
  rw [List.getElem?_drop] at ht
  have hlt := (List.getElem?_eq_some_iff.mp ht).1
  have hlen : (l.take (i + k)).length = i + k := List.length_take_of_le hlt.le
  simp only [splice, hk]
  rw [List.getElem?_append_right hlen.le, hlen, Nat.sub_self, List.getElem?_drop]
  exact hw

/-- A splice extends the log, or the first thing it changes has another term. -/
theorem splice_cases :
    l <+: splice tm l i ws ∨ ∃ n t w, (splice tm l i ws).take n = l.take n ∧ l[n]? = some t ∧
      (splice tm l i ws)[n]? = some w ∧ tm t ≠ tm w := by
  cases hc : conflict tm (l.drop i) ws with
  | none =>
    left
    simp [splice, hc]
  | some k =>
    obtain ⟨t, w, ht, hw, hne⟩ := conflict_eq_some hc
    rw [List.getElem?_drop] at ht
    have hlt := (List.getElem?_eq_some_iff.mp ht).1
    refine .inr ⟨i + k, t, w, ?_, ht, getElem?_splice_conflict hc hw, hne⟩
    simp only [splice, hc]
    rw [List.take_append_of_le_length (by simp only [List.length_take]; omega), List.take_take,
      min_self]

/-! ## Ordered logs -/

/-- The terms of a log are ordered, up to the current term. -/
structure Ordered (tm : E → ℕ) (l : List E) (T : ℕ) : Prop where
  sorted : l.Pairwise fun a b => tm a ≤ tm b
  le : ∀ e ∈ l, tm e ≤ T

variable {T T' : ℕ}

theorem ordered_nil : Ordered tm [] T := ⟨.nil, by simp⟩

theorem Ordered.mono (h : Ordered tm l T) (hT : T ≤ T') : Ordered tm l T' :=
  ⟨h.sorted, fun e he => (h.le e he).trans hT⟩

theorem Ordered.append (h : Ordered tm l T) {e : E} (he : tm e = T) :
    Ordered tm (l ++ [e]) T := by
  refine ⟨List.pairwise_append.mpr ⟨h.sorted, List.pairwise_singleton .., ?_⟩, ?_⟩
  · intro a ha b hb
    obtain rfl := List.mem_singleton.mp hb
    exact (h.le a ha).trans he.ge
  · intro a ha
    rcases List.mem_append.mp ha with ha | ha
    · exact h.le a ha
    · obtain rfl := List.mem_singleton.mp ha
      exact he.le

theorem Ordered.drop (h : Ordered tm l T) (n : ℕ) : Ordered tm (l.drop n) T :=
  ⟨h.sorted.sublist (List.drop_sublist ..), fun e he => h.le e (List.mem_of_mem_drop he)⟩

/-- Entries are ordered relative to the ones before them. -/
theorem Ordered.le_drop (h : Ordered tm l T) {n : ℕ} {e e' : E} (he : l[i]? = some e)
    (hi : i < n) (he' : e' ∈ l.drop n) : tm e ≤ tm e' := by
  obtain ⟨j, hj, rfl⟩ := List.mem_drop_iff_getElem.mp he'
  obtain ⟨hlt, rfl⟩ := List.getElem?_eq_some_iff.mp he
  exact List.pairwise_iff_getElem.mp h.sorted _ _ _ _ (by omega)

/-- Below a conflict the terms agree. -/
theorem conflict_terms {ts : List E} {j : ℕ} {t w : E}
    (hj : ∀ k ∈ conflict tm ts ws, j < k) (ht : ts[j]? = some t) (hw : ws[j]? = some w) :
    tm t = tm w := by
  induction ts generalizing ws j with
  | nil => simp at ht
  | cons t' ts ih =>
    cases ws with
    | nil => simp at hw
    | cons w' ws =>
      simp only [conflict] at hj
      split at hj
      · exact absurd (hj 0 rfl) (Nat.not_lt_zero _)
      · next heq =>
        cases j with
        | zero =>
          cases ht
          cases hw
          exact not_ne_iff.mp heq
        | succ j =>
          refine ih (fun k hk => ?_) ht hw
          have := hj (k + 1) (by rw [hk]; rfl)
          omega

/-- A splice keeps the log up to some place, as far as the terms agree, and has the entries from
there on. -/
theorem splice_eq_append (tm : E → ℕ) (ws : List E) (hlen : i ≤ l.length) :
    ∃ n, i ≤ n ∧ n ≤ l.length ∧ splice tm l i ws = l.take n ++ ws.drop (n - i) ∧
      ∀ {j t w}, i ≤ j → j < n → l[j]? = some t → ws[j - i]? = some w → tm t = tm w := by
  have hterms : ∀ {n}, (∀ k ∈ conflict tm (l.drop i) ws, n ≤ i + k) → ∀ {j t w}, i ≤ j → j < n →
      l[j]? = some t → ws[j - i]? = some w → tm t = tm w := by
    intro n hn j t w hij hjn ht hw
    have ht' : (l.drop i)[j - i]? = some t := by rwa [List.getElem?_drop, Nat.add_sub_of_le hij]
    refine conflict_terms (fun k hk => ?_) ht' hw
    have := hn k hk
    omega
  unfold splice
  cases hc : conflict tm (l.drop i) ws with
  | none => exact ⟨l.length, hlen, le_rfl, by simp, hterms (by simp [hc])⟩
  | some k =>
    obtain ⟨t, w, ht, -, -⟩ := conflict_eq_some hc
    rw [List.getElem?_drop] at ht
    have hlt := (List.getElem?_eq_some_iff.mp ht).1
    exact ⟨i + k, by omega, by omega, by simp, hterms (by simp [hc])⟩

/-- Splicing ordered entries behind entries that are no later keeps a log ordered. -/
theorem Ordered.splice (h : Ordered tm l T) (hw : Ordered tm ws T) (hlen : i ≤ l.length)
    (hprev : ∀ e ∈ l.take i, ∀ w ∈ ws, tm e ≤ tm w) : Ordered tm (splice tm l i ws) T := by
  obtain ⟨n, hin, hn, heq, hterms⟩ := splice_eq_append tm ws hlen
  rw [heq]
  constructor
  · refine List.pairwise_append.mpr ⟨h.sorted.sublist (List.take_sublist ..),
      (hw.drop _).sorted, fun a ha b hb => ?_⟩
    obtain ⟨j, hj, rfl⟩ := List.mem_take_iff_getElem.mp ha
    have hjl : l[j]? = some l[j] := List.getElem?_eq_getElem _
    rcases Nat.lt_or_ge j i with hji | hji
    · exact hprev _ (List.mem_take_iff_getElem.mpr ⟨j, by omega, rfl⟩) b (List.mem_of_mem_drop hb)
    · -- The entry has the term of one of `ws` that comes before `b`.
      have hlt : j - i < ws.length := by
        have := List.length_pos_of_mem hb
        rw [List.length_drop] at this
        omega
      have hwj : ws[j - i]? = some ws[j - i] := List.getElem?_eq_getElem hlt
      rw [hterms hji (by omega) hjl hwj]
      exact hw.le_drop hwj (by omega) hb
  · intro e he
    rcases List.mem_append.mp he with he | he
    · exact h.le e (List.mem_of_mem_take he)
    · exact hw.le e (List.mem_of_mem_drop he)

/-! ## Splicing again -/

/-- Lists without a conflict have the same terms as far as both go. -/
theorem conflict_eq_none_iff {ts : List E} :
    conflict tm ts ws = none ↔ ∀ (j : ℕ) (t w : E), ts[j]? = some t → ws[j]? = some w → tm t = tm w := by
  constructor
  · intro h j t w
    exact conflict_terms (by simp [h])
  · intro h
    cases hc : conflict tm ts ws with
    | none => rfl
    | some k =>
      obtain ⟨t, w, ht, hw, hne⟩ := conflict_eq_some hc
      exact absurd (h k t w ht hw) hne

/-- More entries do not move a conflict. -/
theorem conflict_of_prefix {ts ws' : List E} (h : conflict tm ts ws' = some k) (hp : ws' <+: ws) :
    conflict tm ts ws = some k := by
  induction ts generalizing ws ws' k with
  | nil => simp at h
  | cons t ts ih =>
    cases ws' with
    | nil => simp at h
    | cons w ws' =>
      obtain ⟨vs, rfl⟩ := hp
      simp only [List.cons_append, conflict] at h ⊢
      split at h
      · next hne => rw [if_pos hne, h]
      · next heq =>
        obtain ⟨j, hj, rfl⟩ := Option.map_eq_some_iff.mp h
        rw [if_neg heq, ih hj (List.prefix_append ..)]
        rfl

/-- Nothing changes below the splice. -/
theorem getElem?_splice_of_lt (tm : E → ℕ) (ws : List E) (hlen : i ≤ l.length) {j : ℕ}
    (hj : j < i) : (splice tm l i ws)[j]? = l[j]? := by
  obtain ⟨n, hin, hn, heq, -⟩ := splice_eq_append tm ws hlen
  rw [heq, List.getElem?_append_left (by rw [List.length_take]; omega),
    List.getElem?_take_of_lt (by omega)]

/-- After a splice the log has an entry with the term of each of the entries, at its place. -/
theorem exists_splice (tm : E → ℕ) (hlen : i ≤ l.length) {j : ℕ} {w : E} (hw : ws[j]? = some w) :
    ∃ e, (splice tm l i ws)[i + j]? = some e ∧ tm e = tm w := by
  obtain ⟨n, hin, hn, heq, hterms⟩ := splice_eq_append tm ws hlen
  have htake : (l.take n).length = n := List.length_take_of_le hn
  rw [heq]
  rcases Nat.lt_or_ge (i + j) n with hj | hj
  · have hlt : i + j < l.length := by omega
    have ht : l[i + j]? = some l[i + j] := List.getElem?_eq_getElem hlt
    refine ⟨l[i + j], ?_, hterms (Nat.le_add_right ..) hj ht (by simpa using hw)⟩
    rw [List.getElem?_append_left (by omega), List.getElem?_take_of_lt hj, ht]
  · refine ⟨w, ?_, rfl⟩
    rw [List.getElem?_append_right (by omega), List.getElem?_drop, htake,
      show n - i + (i + j - n) = j by omega, hw]

theorem length_splice_of_conflict (hc : conflict tm (l.drop i) ws = some k) :
    (splice tm l i ws).length = i + ws.length := by
  obtain ⟨t, w, ht, hw, -⟩ := conflict_eq_some hc
  rw [List.getElem?_drop] at ht
  have hl := (List.getElem?_eq_some_iff.mp ht).1
  have hk := (List.getElem?_eq_some_iff.mp hw).1
  simp only [splice, hc, List.length_append, List.length_take, List.length_drop]
  omega

theorem length_splice_of_none (hc : conflict tm (l.drop i) ws = none) (hlen : i ≤ l.length) :
    (splice tm l i ws).length = max l.length (i + ws.length) := by
  simp only [splice, hc, List.length_append, List.length_drop]
  omega

theorem length_splice (tm : E → ℕ) (ws : List E) (hlen : i ≤ l.length) :
    i + ws.length ≤ (splice tm l i ws).length ∧
      (splice tm l i ws).length ≤ l.length + ws.length := by
  cases hc : conflict tm (l.drop i) ws with
  | none =>
    rw [length_splice_of_none hc hlen]
    omega
  | some k =>
    rw [length_splice_of_conflict hc]
    omega

/-- If nothing in the log has the term of the last entry, the log ends with this entry. -/
theorem splice_of_newer {w : E} (hlen : i ≤ l.length) (hw : ws[k]? = some w)
    (hlast : ws.length = k + 1) (hnew : ∀ e ∈ l, tm e ≠ tm w) :
    (splice tm l i ws).length = i + ws.length ∧ (splice tm l i ws)[i + k]? = some w := by
  constructor
  · cases hc : conflict tm (l.drop i) ws with
    | some j => exact length_splice_of_conflict hc
    | none =>
      have hshort : l.length ≤ i + k := by
        by_contra hlt
        have ht : l[i + k]? = some l[i + k] := List.getElem?_eq_getElem (not_le.mp hlt)
        refine hnew _ (List.getElem_mem (not_le.mp hlt)) ?_
        exact conflict_eq_none_iff.mp hc k _ _ (by rwa [List.getElem?_drop]) hw
      rw [length_splice_of_none hc hlen]
      omega
  · obtain ⟨e, he, hterm⟩ := exists_splice tm hlen hw
    rcases getElem?_splice hlen he with hl | ⟨-, hws⟩
    · exact absurd hterm (hnew e (List.mem_of_getElem? hl))
    · rwa [he, ← hws, Nat.add_sub_cancel_left]

/-- A splice that agrees with the log and adds nothing to it. -/
theorem splice_eq_self (hc : conflict tm (l.drop i) ws = none) (hws : i + ws.length ≤ l.length) :
    splice tm l i ws = l ∧ dropped tm l i ws = [] := by
  have hnil : ws.drop (l.length - i) = [] := List.drop_eq_nil_of_le (by omega)
  simp [splice, dropped, hc, hnil]

/-- Splicing a part of the entries again changes nothing. -/
theorem splice_splice_prefix (tm : E → ℕ) {ws' : List E} (hp : ws' <+: ws) (hlen : i ≤ l.length) :
    splice tm (splice tm l i ws) i ws' = splice tm l i ws ∧
      dropped tm (splice tm l i ws) i ws' = [] := by
  refine splice_eq_self (conflict_eq_none_iff.mpr fun j t w ht hw => ?_) ?_
  · rw [List.getElem?_drop] at ht
    obtain ⟨e, he, htm⟩ := exists_splice tm hlen (hp.getElem?_eq hw)
    obtain rfl := Option.some.inj (ht.symm.trans he)
    exact htm
  · have := hp.length_le
    have := (length_splice tm ws hlen).1
    omega

/-- Splicing a part of the entries first is splicing all of them. -/
theorem splice_prefix_splice (tm : E → ℕ) {ws' : List E} (hp : ws' <+: ws) (hlen : i ≤ l.length) :
    splice tm (splice tm l i ws') i ws = splice tm l i ws ∧
      dropped tm l i ws' ++ dropped tm (splice tm l i ws') i ws = dropped tm l i ws := by
  obtain ⟨vs, rfl⟩ := hp
  -- The log ends with `ws'` after the first splice, and the second one only adds `vs`.
  have hadd : (splice tm l i ws').length = i + ws'.length →
      splice tm (splice tm l i ws') i (ws' ++ vs) = splice tm l i ws' ++ vs ∧
        dropped tm (splice tm l i ws') i (ws' ++ vs) = [] := by
    intro hend
    have hc : conflict tm ((splice tm l i ws').drop i) (ws' ++ vs) = none := by
      refine conflict_eq_none_iff.mpr fun j t w ht hw => ?_
      rw [List.getElem?_drop] at ht
      have hj := (List.getElem?_eq_some_iff.mp ht).1
      rw [List.getElem?_append_left (by omega)] at hw
      obtain ⟨e, he, htm⟩ := exists_splice tm hlen hw
      obtain rfl := Option.some.inj (ht.symm.trans he)
      exact htm
    refine ⟨?_, by simp [dropped, hc]⟩
    rw [splice, hc]
    simp [hend]
  cases hc : conflict tm (l.drop i) ws' with
  | some k =>
    obtain ⟨t, w, -, hw, -⟩ := conflict_eq_some hc
    have hk := (List.getElem?_eq_some_iff.mp hw).1
    have hall := conflict_of_prefix hc (List.prefix_append ws' vs)
    have hs : splice tm l i ws' = l.take (i + k) ++ ws'.drop k := by simp [splice, hc]
    obtain ⟨h1, h2⟩ := hadd (length_splice_of_conflict hc)
    rw [h1, h2, hs]
    simp [splice, dropped, hc, hall, List.drop_append_of_le_length hk.le]
  | none =>
    have hs : splice tm l i ws' = l ++ ws'.drop (l.length - i) := by simp [splice, hc]
    have hd : dropped tm l i ws' = [] := by simp [dropped, hc]
    rcases Nat.lt_or_ge (l.length - i) ws'.length with hlt | hge
    · have hall : conflict tm (l.drop i) (ws' ++ vs) = none := by
        refine conflict_eq_none_iff.mpr fun j t w ht hw => ?_
        have hj := (List.getElem?_eq_some_iff.mp ht).1
        rw [List.length_drop] at hj
        rw [List.getElem?_append_left (by omega)] at hw
        exact conflict_eq_none_iff.mp hc j t w ht hw
      obtain ⟨h1, h2⟩ := hadd (by rw [length_splice_of_none hc hlen]; omega)
      rw [h1, h2, hs]
      simp [splice, dropped, hc, hall, List.drop_append_of_le_length hlt.le]
    · rw [hd, hs, List.drop_eq_nil_of_le hge, List.append_nil]
      exact ⟨rfl, rfl⟩

end Consensus

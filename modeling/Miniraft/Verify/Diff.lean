import Miniraft.Json.Diff
import Miniraft.Std.Blocks
import Miniraft.Verify.Serde

/-!
# Soundness of diffs

For values that the parser returns, there are no findings exactly if the values are equal, and the
findings for the values exchanged are the findings exchanged (`diff_sound`). The way to a value is
no longer than the value is deep, so that the limit on the length of locations is not reached.
-/

namespace Miniraft

namespace Json

open Grammar

/-! ## Objects -/

section

variable {eq : Number → Number → Bool} {l r : Entries} {k : String} {v w : Value}

theorem mem_of_lookup (h : r.lookup k = some w) : (k, w) ∈ r := by
  obtain ⟨l₁, l₂, rfl, -⟩ := List.lookup_eq_some_iff.mp h
  exact List.mem_append_right _ List.mem_cons_self

theorem exists_lookup_iff : (∃ w, r.lookup k = some w) ↔ k ∈ r.map Prod.fst := by
  rw [← Option.isSome_iff_exists, List.lookup_isSome_iff]
  simp

theorem mem_commonKeys : k ∈ commonKeys l r ↔ k ∈ l.map Prod.fst ∧ k ∈ r.map Prod.fst := by
  rw [commonKeys, List.mem_filter, decide_eq_true_iff]

theorem nodup_commonKeys (hl : (l.map Prod.fst).Nodup) : (commonKeys l r).Nodup := hl.filter _

theorem commonKeys_perm (hl : (l.map Prod.fst).Nodup) (hr : (r.map Prod.fst).Nodup) :
    (commonKeys r l).Perm (commonKeys l r) := by
  refine (List.perm_ext_iff_of_nodup (nodup_commonKeys hr) (nodup_commonKeys hl)).mpr fun k => ?_
  rw [mem_commonKeys, mem_commonKeys, and_comm]

theorem entriesEqual_iff : entriesEqual eq r l ↔
    ∀ k v, (k, v) ∈ l → ∃ w, r.lookup k = some w ∧ v.equal eq w := by
  induction l with
  | nil => simp [entriesEqual]
  | cons e l ih =>
    obtain ⟨k, v⟩ := e
    rw [entriesEqual, Bool.and_eq_true, ih]
    constructor
    · rintro ⟨hv, hl⟩ k' v' hmem
      rcases List.mem_cons.mp hmem with heq | hmem
      · cases heq
        cases hw : r.lookup k with
        | none =>
          rw [hw] at hv
          cases hv
        | some w =>
          rw [hw] at hv
          exact ⟨w, rfl, hv⟩
      · exact hl k' v' hmem
    · intro hall
      obtain ⟨w, hw, hv⟩ := hall k v List.mem_cons_self
      rw [hw]
      exact ⟨hv, fun k' v' hmem => hall k' v' (List.mem_cons_of_mem _ hmem)⟩

/-- Maps with the same keys have the same number of them. -/
theorem keys_iff (hl : (l.map Prod.fst).Nodup) (hr : (r.map Prod.fst).Nodup)
    (hsub : ∀ k ∈ l.map Prod.fst, k ∈ r.map Prod.fst) :
    l.length = r.length ↔ ∀ k ∈ r.map Prod.fst, k ∈ l.map Prod.fst := by
  have hsubperm := hl.subperm hsub
  rw [← List.length_map Prod.fst, ← @List.length_map _ _ r Prod.fst]
  constructor
  · intro hlen k hk
    exact (hsubperm.perm_of_length_le hlen.ge).mem_iff.mpr hk
  · exact fun hsup => hsubperm.length_le.antisymm (hr.subperm hsup).length_le

end

/-! ## One level -/

section

variable {eq : Number → Number → Bool} {orders : Orders} {location : Loc} {l r : Entries}
  {vs ws : List Value} {left right v w : Value} {k : String} {verdict : Value → Verdict}

theorem onlyIn_eq_nil_iff :
    onlyIn verdict location l r = [] ↔ ∀ k ∈ l.map Prod.fst, k ∈ r.map Prod.fst := by
  rw [onlyIn, List.map_eq_nil_iff, List.filter_eq_nil_iff, List.forall_mem_map]
  simp

theorem diffRec_object (h : location.segments.length ≤ maxLocation) :
    diffRec eq orders location (.object l) (.object r) =
      onlyIn .onlyLeft location l r ++ onlyIn .onlyRight location r l ++
        (orders.order [] (commonKeys l r)).flatMap
          fun key => diffKey eq orders location key r l := by
  rw [diffRec, if_neg (Nat.not_lt.mpr h)]

theorem diffRec_array (h : location.segments.length ≤ maxLocation) :
    diffRec eq orders location (.array vs) (.array ws) = diffValues eq orders location 0 vs ws := by
  rw [diffRec, if_neg (Nat.not_lt.mpr h)]

/-- Values that are compared by what is in them. -/
def compound : Value → Value → Bool
  | .object _, .object _ | .array _, .array _ => true
  | _, _ => false

theorem compound_cases (left right : Value) :
    (∃ l r, left = .object l ∧ right = .object r) ∨
      (∃ vs ws, left = .array vs ∧ right = .array ws) ∨ compound left right = false := by
  cases left <;> cases right <;> simp [compound]

theorem diffRec_of_not_compound (h : location.segments.length ≤ maxLocation)
    (hcompound : compound left right = false) : diffRec eq orders location left right =
      if left.equal eq right then [] else [⟨location, .differ left right⟩] := by
  rw [diffRec.eq_def, if_neg (Nat.not_lt.mpr h)]
  cases left <;> cases right <;> first
    | rfl
    | exact Bool.noConfusion hcompound
    | simp [Value.equal]

theorem diffRec_of_lt (h : maxLocation < location.segments.length) :
    diffRec eq orders location left right = [] := by
  rw [diffRec.eq_def, if_pos h]

theorem diffKey_eq (hl : (l.map Prod.fst).Nodup) (hv : (k, v) ∈ l) (hw : r.lookup k = some w) :
    diffKey eq orders location k r l =
      diffRec eq (orders.beneath (.key k)) (location.with k) v w := by
  induction l with
  | nil => exact absurd hv List.not_mem_nil
  | cons e l ih =>
    obtain ⟨k', v'⟩ := e
    obtain ⟨hk', hl⟩ := List.nodup_cons.mp hl
    rw [diffKey]
    rcases List.mem_cons.mp hv with heq | hv
    · cases heq
      rw [if_pos rfl, hw]
    · have hne : k' ≠ k := by
        rintro rfl
        exact hk' (List.mem_map.mpr ⟨_, hv, rfl⟩)
      rw [if_neg hne, ih hl hv]

theorem length_with : (location.with k).segments.length = location.segments.length + 1 := by
  simp [Loc.with]

theorem length_index {i : ℕ} :
    (location.index i).segments.length ≤ location.segments.length + 1 := by
  rw [Loc.index]
  split
  · simp
  · simp

end

/-! ## No findings -/

section

variable {eq : Number → Number → Bool} {orders : Orders} {location : Loc} {l r : Entries}
  {vs ws : List Value} {left right : Value} {n : ℕ}

/-- The findings for an object, if those for its values say whether they are equal. -/
theorem diffRec_object_eq_nil_iff (hloc : location.segments.length ≤ maxLocation)
    (hl : (l.map Prod.fst).Nodup) (hr : (r.map Prod.fst).Nodup)
    (h : ∀ k v w orders, (k, v) ∈ l → (k, w) ∈ r →
      (diffRec eq orders (location.with k) v w = [] ↔ v.equal eq w)) :
    diffRec eq orders location (.object l) (.object r) = [] ↔
      (Value.object l).equal eq (.object r) := by
  have hcommon : ((orders.order [] (commonKeys l r)).flatMap
      fun key => diffKey eq orders location key r l) = [] ↔
        ∀ k v w, (k, v) ∈ l → r.lookup k = some w → v.equal eq w := by
    simp only [List.flatMap_eq_nil_iff, (orders.perm [] _).mem_iff, mem_commonKeys]
    constructor
    · intro hnil k v w hv hw
      have hmem := mem_of_lookup hw
      have hkey := hnil k ⟨List.mem_map.mpr ⟨_, hv, rfl⟩, List.mem_map.mpr ⟨_, hmem, rfl⟩⟩
      rw [diffKey_eq hl hv hw] at hkey
      exact (h k v w _ hv hmem).mp hkey
    · rintro hequal k ⟨hkl, hkr⟩
      obtain ⟨v, hv⟩ := exists_lookup_iff.mpr hkl
      obtain ⟨w, hw⟩ := exists_lookup_iff.mpr hkr
      have hv' := mem_of_lookup hv
      rw [diffKey_eq hl hv' hw]
      exact (h k v w _ hv' (mem_of_lookup hw)).mpr (hequal k v w hv' hw)
  rw [diffRec_object hloc, List.append_eq_nil_iff, List.append_eq_nil_iff, onlyIn_eq_nil_iff,
    onlyIn_eq_nil_iff, hcommon, Value.equal, Bool.and_eq_true, decide_eq_true_iff,
    entriesEqual_iff]
  constructor
  · rintro ⟨⟨hsub, hsup⟩, hequal⟩
    refine ⟨(keys_iff hl hr hsub).mpr hsup, fun k v hv => ?_⟩
    obtain ⟨w, hw⟩ := exists_lookup_iff.mpr (hsub k (List.mem_map.mpr ⟨_, hv, rfl⟩))
    exact ⟨w, hw, hequal k v w hv hw⟩
  · rintro ⟨hlen, hall⟩
    have hsub : ∀ k ∈ l.map Prod.fst, k ∈ r.map Prod.fst := by
      intro k hk
      obtain ⟨v, hv⟩ := exists_lookup_iff.mpr hk
      obtain ⟨w, hw, -⟩ := hall k v (mem_of_lookup hv)
      exact exists_lookup_iff.mp ⟨w, hw⟩
    refine ⟨⟨hsub, (keys_iff hl hr hsub).mp hlen⟩, fun k v w hv hw => ?_⟩
    obtain ⟨w', hw', hequal⟩ := hall k v hv
    obtain rfl := Option.some.inj (hw.symm.trans hw')
    exact hequal

theorem diffValues_eq_nil_iff {i : ℕ}
    (h : ∀ v ∈ vs, ∀ w ∈ ws, ∀ i orders,
      (diffRec eq orders (location.index i) v w = [] ↔ v.equal eq w)) :
    diffValues eq orders location i vs ws = [] ↔ valuesEqual eq vs ws := by
  induction vs generalizing ws i with
  | nil =>
    cases ws with
    | nil => simp [diffValues, valuesEqual]
    | cons w ws => simp [diffValues, valuesEqual]
  | cons v vs ih =>
    cases ws with
    | nil => simp [diffValues, valuesEqual]
    | cons w ws =>
      rw [diffValues, valuesEqual, List.append_eq_nil_iff, Bool.and_eq_true,
        h v List.mem_cons_self w List.mem_cons_self, ih]
      exact fun v hv w hw => h v (List.mem_cons_of_mem _ hv) w (List.mem_cons_of_mem _ hw)

/-- There are no findings exactly for equal values, as long as the locations are short enough. -/
theorem diffRec_eq_nil_iff (hl : Printable n left) (hr : Printable n right)
    (hloc : location.segments.length + n ≤ maxLocation) :
    diffRec eq orders location left right = [] ↔ left.equal eq right := by
  induction n generalizing orders location left right with
  | zero => exact hl.elim
  | succ n ih =>
    have hle : location.segments.length ≤ maxLocation := by omega
    obtain ⟨l, r, rfl, rfl⟩ | ⟨vs, ws, rfl, rfl⟩ | hcompound := compound_cases left right
    · refine diffRec_object_eq_nil_iff hle hl.1 hr.1 fun k v w orders hv hw => ?_
      refine ih (hl.2 _ hv) (hr.2 _ hw) ?_
      rw [length_with]
      omega
    · rw [diffRec_array hle, Value.equal]
      refine diffValues_eq_nil_iff fun v hv w hw i orders => ih (hl v hv) (hr w hw) ?_
      have hindex := @length_index location i
      omega
    · rw [diffRec_of_not_compound hle hcompound]
      split
      · next hequal => exact iff_of_true rfl hequal
      · next hequal => exact iff_of_false (List.cons_ne_nil _ _) hequal

end

/-! ## Exchange -/

def Verdict.swap : Verdict → Verdict
  | .onlyLeft v => .onlyRight v
  | .onlyRight v => .onlyLeft v
  | .differ l r => .differ r l

/-- The finding with the documents exchanged. -/
def Finding.swap (finding : Finding) : Finding := ⟨finding.loc, finding.verdict.swap⟩

section

variable {eq : Number → Number → Bool} {orders orders' : Orders} {location : Loc} {l r : Entries}
  {vs ws : List Value} {left right : Value} {n : ℕ}

theorem map_swap_onlyIn {verdict verdict' : Value → Verdict}
    (h : ∀ v, (verdict v).swap = verdict' v) :
    (onlyIn verdict location l r).map Finding.swap = onlyIn verdict' location l r := by
  rw [onlyIn, onlyIn, List.map_map]
  refine List.map_congr_left fun e _ => ?_
  rw [Function.comp, Finding.swap, h]

theorem equal_flip (h : compound left right = false) :
    right.equal (flip eq) left = left.equal eq right := by
  cases left <;> cases right <;> first
    | rfl
    | exact Bool.noConfusion h
    | simp [Value.equal, eq_comm]

theorem diffRec_object_swap (hl : (l.map Prod.fst).Nodup) (hr : (r.map Prod.fst).Nodup)
    (hloc : location.segments.length ≤ maxLocation)
    (h : ∀ k v w orders orders', (k, v) ∈ l → (k, w) ∈ r →
      (diffRec (flip eq) orders' (location.with k) w v).Perm
        ((diffRec eq orders (location.with k) v w).map Finding.swap)) :
    (diffRec (flip eq) orders' location (.object r) (.object l)).Perm
      ((diffRec eq orders location (.object l) (.object r)).map Finding.swap) := by
  rw [diffRec_object hloc, diffRec_object hloc, List.map_append, List.map_append,
    map_swap_onlyIn fun v => rfl, map_swap_onlyIn fun v => rfl, List.map_flatMap]
  refine List.perm_append_comm.append ?_
  have hkeys : (orders'.order [] (commonKeys r l)).Perm (orders.order [] (commonKeys l r)) :=
    (orders'.perm [] _).trans ((commonKeys_perm hl hr).trans (orders.perm [] _).symm)
  refine (hkeys.flatMap_right _).trans (List.Perm.flatMap_left _ fun k hk => ?_)
  obtain ⟨hkl, hkr⟩ := mem_commonKeys.mp ((orders.perm [] _).mem_iff.mp hk)
  obtain ⟨v, hv⟩ := exists_lookup_iff.mpr hkl
  obtain ⟨w, hw⟩ := exists_lookup_iff.mpr hkr
  rw [diffKey_eq hr (mem_of_lookup hw) hv, diffKey_eq hl (mem_of_lookup hv) hw]
  exact h k v w _ _ (mem_of_lookup hv) (mem_of_lookup hw)

theorem diffValues_nil_left {i : ℕ} :
    diffValues eq orders location i [] ws =
      (ws.zipIdx i).map fun x => ⟨location.index x.2, .onlyRight x.1⟩ := by
  cases ws <;> rfl

theorem diffValues_nil_right {i : ℕ} :
    diffValues eq orders location i vs [] =
      (vs.zipIdx i).map fun x => ⟨location.index x.2, .onlyLeft x.1⟩ := by
  induction vs generalizing i with
  | nil => rfl
  | cons v vs ih =>
    rw [diffValues, ih]
    rfl

theorem diffValues_swap {i : ℕ}
    (h : ∀ v ∈ vs, ∀ w ∈ ws, ∀ i orders orders',
      (diffRec (flip eq) orders' (location.index i) w v).Perm
        ((diffRec eq orders (location.index i) v w).map Finding.swap)) :
    (diffValues (flip eq) orders' location i ws vs).Perm
      ((diffValues eq orders location i vs ws).map Finding.swap) := by
  induction vs generalizing ws i with
  | nil =>
    rw [diffValues_nil_left, diffValues_nil_right, List.map_map]
    rfl
  | cons v vs ih =>
    cases ws with
    | nil =>
      rw [diffValues_nil_left, diffValues_nil_right, List.map_map]
      rfl
    | cons w ws =>
      rw [diffValues, diffValues, List.map_append]
      exact (h v List.mem_cons_self w List.mem_cons_self i _ _).append (ih fun v hv w hw =>
        h v (List.mem_cons_of_mem _ hv) w (List.mem_cons_of_mem _ hw))

/-- The findings for the values exchanged, up to their order. -/
theorem diffRec_swap (hl : Printable n left) (hr : Printable n right) :
    (diffRec (flip eq) orders' location right left).Perm
      ((diffRec eq orders location left right).map Finding.swap) := by
  induction n generalizing orders orders' location left right with
  | zero => exact hl.elim
  | succ n ih =>
    rcases Nat.lt_or_ge maxLocation location.segments.length with hlt | hle
    · rw [diffRec_of_lt hlt, diffRec_of_lt hlt]
      rfl
    obtain ⟨l, r, rfl, rfl⟩ | ⟨vs, ws, rfl, rfl⟩ | hcompound := compound_cases left right
    · exact diffRec_object_swap hl.1 hr.1 hle fun k v w _ _ hv hw =>
        ih (hl.2 _ hv) (hr.2 _ hw)
    · rw [diffRec_array hle, diffRec_array hle]
      exact diffValues_swap fun v hv w hw _ _ _ => ih (hl v hv) (hr w hw)
    · have hcompound' : compound right left = false := by
        rw [← hcompound]
        cases left <;> cases right <;> rfl
      rw [diffRec_of_not_compound hle hcompound, diffRec_of_not_compound hle hcompound',
        equal_flip hcompound]
      split
      · rfl
      · rfl

end

/-! ## Documents -/

/-- The common keys in the order of the left map. -/
def inOrder : Orders := ⟨fun _ keys => keys, fun _ keys => .refl keys⟩

section

variable {eq : Number → Number → Bool} {l r : Value}

/-- A value that the parser returns, with its maps in any order. -/
def Obtainable (v : Value) : Prop := ∃ data w, parse data = .ok w ∧ Same w v

theorem Obtainable.printable (h : Obtainable l) : Printable 255 l := by
  obtain ⟨data, w, hparse, hsame⟩ := h
  exact (printable_of_element (text_of_parse hparse)).same hsame

theorem Writable.obtainable {d : ℕ} (h : Writable d l) (hd : d ≤ 255) : Obtainable l := by
  obtain ⟨hprintable, hplain⟩ := h.mono hd
  exact ⟨_, l, parse_print (Nat.zero_add 255 ▸ hprintable 0) hplain Ws.nil, .refl l⟩

theorem print_le_iff (f g : Finding) :
    decide (f.loc.print ≤ g.loc.print) ↔ f.loc.print ≤ g.loc.print := decide_eq_true_iff

/-- For documents, there are no findings exactly if they are equal, and the findings for the
documents exchanged are the findings exchanged, up to the order of those with the same printed
location. -/
theorem diff_sound (hsymm : ∀ m n, eq m n = eq n m) (hl : Obtainable l) (hr : Obtainable r)
    (orders orders' : Orders) :
    (diff eq orders l r = [] ↔ l.equal eq r) ∧
      (diff eq orders' r l).Perm ((diff eq orders l r).map Finding.swap) ∧
      (diff eq orders' r l).map (·.loc.print) = (diff eq orders l r).map (·.loc.print) := by
  have hflip : flip eq = eq := funext fun m => funext fun n => hsymm n m
  have hswap : (diffRec (flip eq) orders' ⟨[]⟩ r l).Perm
      ((diffRec eq orders ⟨[]⟩ l r).map Finding.swap) := diffRec_swap hl.printable hr.printable
  rw [hflip] at hswap
  refine ⟨?_, ?_, ?_⟩
  · have hnil : diffRec eq orders ⟨[]⟩ l r = [] ↔ l.equal eq r :=
      diffRec_eq_nil_iff hl.printable hr.printable (by decide)
    rw [← hnil, ← List.length_eq_zero_iff, ← List.length_eq_zero_iff, diff,
      List.length_mergeSort]
  · exact (List.mergeSort_perm _ _).trans
      (hswap.trans ((List.mergeSort_perm _ _).map Finding.swap).symm)
  · refine Blocks.map_mergeSort_eq print_le_iff ?_
    have hkeys := hswap.map (·.loc.print)
    rwa [List.map_map] at hkeys

end

namespace Example

/-- Numbers compared by their texts. -/
def sameText (m n : Number) : Bool := m = n

def numbers (es : List (String × ℕ)) : Value := .ofFields (es.map fun e => (e.1, serialize e.2))

theorem writable_numbers {es : List (String × ℕ)} (hnodup : (es.map Prod.fst).Nodup)
    (hkeys : ∀ k ∈ es.map Prod.fst, plainKey k) : Writable 2 (numbers es) := by
  refine writable_ofFields ?_ ?_ ?_
  · rwa [List.map_map]
  · rwa [List.map_map]
  · simp only [List.forall_mem_map]
    exact fun e _ => writable_number (num_nat e.2)

theorem diff_sound_ab :
    (diff sameText inOrder (numbers [("a", 1)]) (numbers [("a", 2), ("b", 3)]) = [] ↔
      (numbers [("a", 1)]).equal sameText (numbers [("a", 2), ("b", 3)])) ∧
    (diff sameText inOrder (numbers [("a", 2), ("b", 3)]) (numbers [("a", 1)])).Perm
      ((diff sameText inOrder (numbers [("a", 1)]) (numbers [("a", 2), ("b", 3)])).map
        Finding.swap) ∧
    (diff sameText inOrder (numbers [("a", 2), ("b", 3)]) (numbers [("a", 1)])).map
        (·.loc.print) =
      (diff sameText inOrder (numbers [("a", 1)]) (numbers [("a", 2), ("b", 3)])).map
        (·.loc.print) :=
  diff_sound (fun m n => decide_eq_decide.mpr eq_comm)
    ((writable_numbers (by decide) (by decide)).obtainable (by decide))
    ((writable_numbers (by decide) (by decide)).obtainable (by decide)) inOrder inOrder

end Example

end Json

end Miniraft

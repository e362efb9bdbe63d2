import Miniraft.Verify.Diff

/-!
# Stability of diffs

Findings are sorted by what their locations are printed as, and those of different places may be
printed as the same, so that their order is that of the iteration over the common keys of two maps.
What is printed depends on no order exactly if what there is to report beneath any two common keys
can be exchanged at each printed location (`stable_iff`). This is the case if no key has a dot or a
bracket in it (`separable_of_undotted`).
-/

namespace Miniraft

namespace Json

/-! ## Places -/

/-- A place where two documents differ, by the way to it. -/
structure Place where
  path : List Step
  verdict : Verdict

def Place.beneath (step : Step) (place : Place) : Place := ⟨step :: place.path, place.verdict⟩

def Loc.follow (location : Loc) : List Step → Loc
  | [] => location
  | .key k :: path => (location.with k).follow path
  | .index i :: path => (location.index i).follow path

/-- What there is to report for a place in values at `location`. -/
def Place.finding (location : Loc) (place : Place) : Finding :=
  ⟨location.follow place.path, place.verdict⟩

/-- The places for the keys of `l` that `r` does not have. -/
def placesOnlyIn (verdict : Value → Verdict) (l r : Entries) : List Place :=
  (l.filter fun e => e.1 ∉ r.map Prod.fst).map fun e => ⟨[.key e.1], verdict e.2⟩

section

variable (eq : Number → Number → Bool)

mutual

/-- The places where two values differ, with common keys in the order of the left map. -/
def places : Value → Value → List Place
  | .object l, .object r =>
    placesOnlyIn .onlyLeft l r ++ placesOnlyIn .onlyRight r l ++ entryPlaces r l
  | .array l, .array r => elementPlaces 0 l r
  | left, right => if left.equal eq right then [] else [⟨[], .differ left right⟩]

def entryPlaces (r : List (String × Value)) : List (String × Value) → List Place
  | [] => []
  | (k, v) :: l =>
    (match r.lookup k with
      | some w => (places v w).map (Place.beneath (.key k))
      | none => []) ++ entryPlaces r l

def elementPlaces (i : ℕ) : List Value → List Value → List Place
  | v :: l, w :: r =>
    (places v w).map (Place.beneath (.index i)) ++ elementPlaces (i + 1) l r
  | v :: l, [] => ⟨[.index i], .onlyLeft v⟩ :: elementPlaces (i + 1) l []
  | [], r => (r.zipIdx i).map fun (w, j) => ⟨[.index j], .onlyRight w⟩

end

end

/-! ## Statement -/

mutual

/-- No map in the value has more than one key. -/
def Value.narrow : Value → Bool
  | .object entries => entries.length ≤ 1 && narrowEntries entries
  | .array values => narrowValues values
  | _ => true

def narrowEntries : List (String × Value) → Bool
  | [] => true
  | (_, v) :: entries => v.narrow && narrowEntries entries

def narrowValues : List Value → Bool
  | [] => true
  | v :: values => v.narrow && narrowValues values

end

def Verdict.narrow : Verdict → Bool
  | .onlyLeft v | .onlyRight v => v.narrow
  | .differ l r => l.narrow && r.narrow

/-- No map in a reported value has more than one key. -/
def Narrow (eq : Number → Number → Bool) (l r : Value) : Prop :=
  ∀ place ∈ places eq l r, place.verdict.narrow

instance (eq : Number → Number → Bool) (l r : Value) : Decidable (Narrow eq l r) :=
  inferInstanceAs (Decidable (∀ place ∈ places eq l r, place.verdict.narrow))

/-- What is printed is the same for all orders in which maps and common keys are iterated. -/
def Stable (eq : Number → Number → Bool) (l r : Value) : Prop :=
  ∀ orders orders' l₁ r₁ l₂ r₂, Same l l₁ → Same r r₁ → Same l l₂ → Same r r₂ →
    printDiff (diff eq orders l₁ r₁) = printDiff (diff eq orders' l₂ r₂)

/-- Values in two values that are compared with each other, and where. -/
inductive Meets : Loc → Value → Value → Loc → Value → Value → Prop
  | here : Meets location left right location left right
  | key : (k, v) ∈ l → (k, w) ∈ r → Meets (location.with k) v w location' left right →
    Meets location (.object l) (.object r) location' left right
  | index : vs[i]? = some v → ws[i]? = some w →
    Meets (location.index i) v w location' left right →
    Meets location (.array vs) (.array ws) location' left right

/-- The findings with the printed location `p`. -/
def findingsAt (p : String) (findings : List Finding) : List Finding :=
  findings.filter fun finding => finding.loc.print = p

/-- What there is to report at the printed location `p` for values at `location`. -/
def report (eq : Number → Number → Bool) (p : String) (location : Loc) (left right : Value) :
    String :=
  printDiff (findingsAt p ((places eq left right).map (Place.finding location)))

/-- For any two common keys of maps that are compared, what there is to report beneath them at one
printed location can be exchanged. -/
def Separable (eq : Number → Number → Bool) (location : Loc) (left right : Value) : Prop :=
  ∀ location' l r, Meets location left right location' (.object l) (.object r) →
    ∀ k v w k' v' w', (k, v) ∈ l → (k, w) ∈ r → (k', v') ∈ l → (k', w') ∈ r → k ≠ k' → ∀ p,
      report eq p (location'.with k) v w ++ report eq p (location'.with k') v' w' =
        report eq p (location'.with k') v' w' ++ report eq p (location'.with k) v w

/-! ## Places and findings -/

section

variable {eq : Number → Number → Bool} {location : Loc} {l r : Entries} {vs ws : List Value}
  {left right v w : Value} {k : String} {n : ℕ}

theorem map_finding_placesOnlyIn {verdict : Value → Verdict} :
    (placesOnlyIn verdict l r).map (Place.finding location) = onlyIn verdict location l r := by
  rw [placesOnlyIn, onlyIn, List.map_map]
  rfl

theorem places_of_not_compound (hcompound : compound left right = false) :
    places eq left right =
      if left.equal eq right then [] else [⟨[], .differ left right⟩] := by
  cases left <;> cases right <;> first
    | rfl
    | exact Bool.noConfusion hcompound

theorem map_finding_elementPlaces {i : ℕ}
    (h : ∀ v ∈ vs, ∀ w ∈ ws, ∀ i, (places eq v w).map (Place.finding (location.index i)) =
      diffRec eq inOrder (location.index i) v w) :
    (elementPlaces eq i vs ws).map (Place.finding location) =
      diffValues eq inOrder location i vs ws := by
  induction vs generalizing ws i with
  | nil =>
    rw [diffValues_nil_left]
    cases ws with
    | nil => rfl
    | cons w ws =>
      rw [elementPlaces, List.map_map]
      rfl
  | cons v vs ih =>
    cases ws with
    | nil =>
      rw [elementPlaces, diffValues, List.map_cons, ih fun v _ => List.forall_mem_nil _]
      rfl
    | cons w ws =>
      rw [elementPlaces, diffValues, List.map_append, List.map_map,
        ih fun v hv w hw => h v (List.mem_cons_of_mem _ hv) w (List.mem_cons_of_mem _ hw)]
      exact congrArg (· ++ _) (h v List.mem_cons_self w List.mem_cons_self i)

/-- The common keys of a part `es` of the map `l`. -/
theorem map_finding_entryPlaces {es : Entries} (hl : (l.map Prod.fst).Nodup) (hes : es ⊆ l)
    (h : ∀ k v w, (k, v) ∈ l → (k, w) ∈ r → (places eq v w).map (Place.finding (location.with k)) =
      diffRec eq inOrder (location.with k) v w) :
    (entryPlaces eq r es).map (Place.finding location) =
      (commonKeys es r).flatMap fun key => diffKey eq inOrder location key r l := by
  induction es with
  | nil => rfl
  | cons e es ih =>
    obtain ⟨k, v⟩ := e
    have hv : (k, v) ∈ l := hes List.mem_cons_self
    have ih := ih fun e he => hes (List.mem_cons_of_mem _ he)
    rw [entryPlaces, List.map_append, ih]
    by_cases hk : k ∈ r.map Prod.fst
    · obtain ⟨w, hw⟩ := exists_lookup_iff.mpr hk
      have hcommon : commonKeys ((k, v) :: es) r = k :: commonKeys es r :=
        List.filter_cons_of_pos (decide_eq_true hk)
      rw [hcommon, List.flatMap_cons, diffKey_eq hl hv hw, hw, List.map_map]
      exact congrArg (· ++ _) (h k v w hv (mem_of_lookup hw))
    · have hcommon : commonKeys ((k, v) :: es) r = commonKeys es r :=
        List.filter_cons_of_neg (by simpa using hk)
      have hnone : r.lookup k = none := by
        rw [← Option.not_isSome_iff_eq_none, Option.isSome_iff_exists, exists_lookup_iff]
        exact hk
      rw [hcommon, hnone]
      rfl

/-- The places are those of the findings, in one order. -/
theorem map_finding_places (hl : Printable n left) (hr : Printable n right)
    (hloc : location.segments.length + n ≤ maxLocation) :
    (places eq left right).map (Place.finding location) =
      diffRec eq inOrder location left right := by
  induction n generalizing location left right with
  | zero => exact hl.elim
  | succ n ih =>
    have hle : location.segments.length ≤ maxLocation := by omega
    obtain ⟨l, r, rfl, rfl⟩ | ⟨vs, ws, rfl, rfl⟩ | hcompound := compound_cases left right
    · rw [places, diffRec_object hle, List.map_append, List.map_append, map_finding_placesOnlyIn,
        map_finding_placesOnlyIn]
      refine congrArg _ (map_finding_entryPlaces hl.1 (List.Subset.refl l) fun k v w hv hw => ?_)
      refine ih (hl.2 _ hv) (hr.2 _ hw) ?_
      rw [length_with]
      omega
    · rw [places, diffRec_array hle]
      refine map_finding_elementPlaces fun v hv w hw i => ih (hl v hv) (hr w hw) ?_
      have hindex := @length_index location i
      omega
    · rw [places_of_not_compound hcompound, diffRec_of_not_compound hle hcompound]
      split
      · rfl
      · rfl

end

/-! ## Printed locations -/

section

variable {eq : Number → Number → Bool} {location : Loc} {l r : Entries} {k k' p : String}
  {fs gs : List Finding}

theorem toList_printDiff : (printDiff fs).toList = fs.flatMap fun f => f.print.toList := by
  induction fs with
  | nil => rfl
  | cons f fs ih => rw [printDiff, String.toList_append, ih, List.flatMap_cons]

/-- What is printed for the findings with the printed location `p`. -/
def word (p : String) (fs : List Finding) : List Char :=
  (findingsAt p fs).flatMap fun f => f.print.toList

theorem toList_printDiff_findingsAt : (printDiff (findingsAt p fs)).toList = word p fs :=
  toList_printDiff

theorem word_append : word p (fs ++ gs) = word p fs ++ word p gs := by
  rw [word, findingsAt, List.filter_append, List.flatMap_append]
  rfl

theorem word_flatMap {ks : List String} {f : String → List Finding} :
    word p (ks.flatMap f) = ks.flatMap fun key => word p (f key) := by
  induction ks with
  | nil => rfl
  | cons key ks ih => rw [List.flatMap_cons, List.flatMap_cons, word_append, ih]

theorem word_eq_of_perm (h : fs.Perm gs)
    (heq : ∀ f ∈ fs, ∀ g ∈ fs, f.loc.print = p → g.loc.print = p → f = g) :
    word p fs = word p gs := by
  refine Blocks.flatMap_eq_of_perm (h.filter _) fun f hf g hg => ?_
  obtain ⟨hf, hfp⟩ := List.mem_filter.mp hf
  obtain ⟨hg, hgp⟩ := List.mem_filter.mp hg
  rw [heq f hf g hg (of_decide_eq_true hfp) (of_decide_eq_true hgp)]

theorem join_append {segments : List String} (h : segments ≠ []) :
    Loc.join (segments ++ [k]) = Loc.join segments ++ "." ++ k := by
  induction segments with
  | nil => exact absurd rfl h
  | cons s segments ih =>
    cases segments with
    | nil => rfl
    | cons s' segments =>
      have hcons (t : List String) :
          Loc.join (s :: s' :: t) = s ++ "." ++ Loc.join (s' :: t) := rfl
      have ih : Loc.join (s' :: (segments ++ [k])) = Loc.join (s' :: segments) ++ "." ++ k :=
        ih (List.cons_ne_nil _ _)
      rw [List.cons_append, List.cons_append, hcons, hcons, ih]
      simp only [String.append_assoc]

theorem exists_print_with (location : Loc) : ∃ s, ∀ k, (location.with k).print = s ++ k := by
  by_cases h : location.segments = []
  · refine ⟨"$.", fun k => ?_⟩
    rw [Loc.print, Loc.with, h]
    rfl
  · refine ⟨"$." ++ (Loc.join location.segments ++ "."), fun k => ?_⟩
    rw [Loc.print, Loc.with, join_append h]
    simp only [String.append_assoc]

theorem print_with_inj (h : (location.with k).print = (location.with k').print) : k = k' := by
  obtain ⟨s, hs⟩ := exists_print_with location
  rw [hs, hs] at h
  exact String.append_right_inj s |>.mp h

end

/-! ## Narrow values -/

section

variable {v w : Value} {n : ℕ} {es fs l l₁ r r₁ : Entries} {vs ws : List Value}

theorem narrowEntries_iff : narrowEntries es ↔ ∀ e ∈ es, e.2.narrow := by
  induction es with
  | nil => simp [narrowEntries]
  | cons e es ih => simp [narrowEntries, ih]

theorem narrowValues_iff : narrowValues vs ↔ ∀ v ∈ vs, v.narrow := by
  induction vs with
  | nil => simp [narrowValues]
  | cons v vs ih => simp [narrowValues, ih]

theorem forall₂_eq (h : List.Forall₂ Same vs ws) (heq : ∀ v ∈ vs, ∀ w, Same v w → w = v) :
    ws = vs := by
  induction h with
  | nil => rfl
  | cons hsame _ ih =>
    rw [heq _ List.mem_cons_self _ hsame, ih fun v hv => heq v (List.mem_cons_of_mem _ hv)]

/-- A narrow value is iterated in one order only. -/
theorem Same.eq_of_narrow (hv : Printable n v) (hnarrow : v.narrow) (h : Same v w) : w = v := by
  induction n generalizing v w with
  | zero => exact hv.elim
  | succ n ih =>
    cases h with
    | string | number | bool | null => rfl
    | array h =>
      have hnarrow := narrowValues_iff.mp hnarrow
      rw [forall₂_eq h fun v hmem w hsame => ih (hv v hmem) (hnarrow v hmem) hsame]
    | object h =>
      rw [Value.narrow, Bool.and_eq_true, decide_eq_true_iff, narrowEntries_iff] at hnarrow
      obtain ⟨hlength, hnarrow⟩ := hnarrow
      cases h with
      | nil => rfl
      | @cons v w es fs gs k hsame hrest =>
        obtain rfl : es = [] := List.eq_nil_of_length_eq_zero (by simpa using hlength)
        generalize htail : fs ++ gs = tail at hrest
        cases hrest
        obtain ⟨rfl, rfl⟩ := List.append_eq_nil_iff.mp htail
        rw [ih (hv.2 _ List.mem_cons_self) (hnarrow _ List.mem_cons_self) hsame]
        rfl

/-- The same entries of a map in another order, if their values are iterated in one order only. -/
theorem Shuffled.perm_filter {P : String → Bool} (h : Shuffled Same es fs)
    (heq : ∀ e ∈ es, P e.1 → ∀ w, Same e.2 w → w = e.2) :
    (fs.filter fun e => P e.1).Perm (es.filter fun e => P e.1) := by
  induction h with
  | nil => exact .nil
  | @cons v w es fs gs k hsame _ ih =>
    have ih := ih fun e he => heq e (List.mem_cons_of_mem _ he)
    rw [List.filter_append] at ih ⊢
    rw [List.filter_cons, List.filter_cons]
    dsimp only
    split
    · next hk =>
      obtain rfl := heq _ List.mem_cons_self hk w hsame
      exact List.perm_middle.trans (ih.cons _)
    · exact ih

end

/-! ## All orders -/

section

variable {eq : Number → Number → Bool} {orders : Orders} {location : Loc} {n : ℕ} {p k : String}
  {l l₁ r r₁ : Entries} {vs vs₁ ws ws₁ : List Value} {left left₁ right right₁ v w : Value}
  {verdict : Value → Verdict}

theorem Narrow.key (h : Narrow eq (.object l) (.object r)) (hv : (k, v) ∈ l)
    (hw : r.lookup k = some w) : Narrow eq v w := by
  have hmem {es : Entries} (hes : (k, v) ∈ es) {place : Place} (hplace : place ∈ places eq v w) :
      place.beneath (.key k) ∈ entryPlaces eq r es := by
    induction es with
    | nil => exact absurd hes List.not_mem_nil
    | cons e es ih =>
      obtain ⟨k', v'⟩ := e
      rw [entryPlaces]
      rcases List.mem_cons.mp hes with heq | hes
      · cases heq
        rw [hw]
        exact List.mem_append_left _ (List.mem_map_of_mem hplace)
      · exact List.mem_append_right _ (ih hes)
  intro place hplace
  refine h (place.beneath (.key k)) ?_
  rw [places]
  exact List.mem_append_right _ (hmem hv hplace)

theorem narrow_onlyIn (h : ∀ place ∈ placesOnlyIn verdict l r, place.verdict.narrow) :
    ∀ e ∈ l, e.1 ∉ r.map Prod.fst → (verdict e.2).narrow := by
  intro e he hkey
  refine h ⟨[.key e.1], verdict e.2⟩ (List.mem_map.mpr ⟨e, List.mem_filter.mpr ⟨he, ?_⟩, rfl⟩)
  exact decide_eq_true hkey

theorem word_onlyIn (hl : (l.map Prod.fst).Nodup) (hv : ∀ e ∈ l, Printable n e.2)
    (hsl : Shuffled Same l l₁) (hsr : Shuffled Same r r₁)
    (hnarrow : ∀ e ∈ l, e.1 ∉ r.map Prod.fst → e.2.narrow) :
    word p (onlyIn verdict location l₁ r₁) = word p (onlyIn verdict location l r) := by
  have hkeys : (fun e : String × Value => decide (e.1 ∉ r₁.map Prod.fst)) =
      fun e => decide (e.1 ∉ r.map Prod.fst) := by
    funext e
    exact decide_eq_decide.mpr (not_congr hsr.perm.mem_iff.symm)
  have hperm : (onlyIn verdict location l₁ r₁).Perm (onlyIn verdict location l r) := by
    rw [onlyIn, hkeys]
    refine (hsl.perm_filter (P := fun k => decide (k ∉ r.map Prod.fst)) ?_).map _
    exact fun e he hkey w hsame =>
      hsame.eq_of_narrow (hv e he) (hnarrow e he (of_decide_eq_true hkey))
  refine (word_eq_of_perm hperm.symm fun f hf g hg hfp hgp => ?_).symm
  obtain ⟨⟨k, v⟩, he, rfl⟩ := List.mem_map.mp hf
  obtain ⟨⟨k', v'⟩, he', rfl⟩ := List.mem_map.mp hg
  obtain rfl : k = k' := print_with_inj (hfp.trans hgp.symm)
  have hlookup := lookup_eq_some hl (List.mem_of_mem_filter he)
  rw [lookup_eq_some hl (List.mem_of_mem_filter he')] at hlookup
  rw [Option.some.inj hlookup]

theorem commonKeys_same (hsl : Shuffled Same l l₁) (hsr : Shuffled Same r r₁) :
    (commonKeys l₁ r₁).Perm (commonKeys l r) := by
  have hkeys : (fun k => decide (k ∈ r₁.map Prod.fst)) = fun k => decide (k ∈ r.map Prod.fst) := by
    funext k
    exact decide_eq_decide.mpr hsr.perm.mem_iff.symm
  rw [commonKeys, hkeys]
  exact hsl.perm.symm.filter _

/-- The word of an object, from those of its parts. -/
theorem word_diffRec_object (hloc : location.segments.length ≤ maxLocation)
    (hl : Printable (n + 1) (.object l)) (hr : Printable (n + 1) (.object r))
    (hsl : Shuffled Same l l₁) (hsr : Shuffled Same r r₁)
    (hnarrow : Narrow eq (.object l) (.object r))
    (h : ∀ k v w v₁ w₁ orders, (k, v) ∈ l → (k, w) ∈ r → Same v v₁ → Same w w₁ →
      word p (diffRec eq orders (location.with k) v₁ w₁) =
        word p (diffRec eq inOrder (location.with k) v w))
    (hcomm : ∀ k v w k' v' w', (k, v) ∈ l → (k, w) ∈ r → (k', v') ∈ l → (k', w') ∈ r → k ≠ k' →
      word p (diffRec eq inOrder (location.with k) v w) ++
          word p (diffRec eq inOrder (location.with k') v' w') =
        word p (diffRec eq inOrder (location.with k') v' w') ++
          word p (diffRec eq inOrder (location.with k) v w)) :
    word p (diffRec eq orders location (.object l₁) (.object r₁)) =
      word p (diffRec eq inOrder location (.object l) (.object r)) := by
  have hl₁ := (hl.same (.object hsl)).1
  have hr₁ := (hr.same (.object hsr)).1
  have hkeys : (orders.order [] (commonKeys l₁ r₁)).Perm (commonKeys l r) :=
    (orders.perm [] _).trans (commonKeys_same hsl hsr)
  have hstep : ∀ key ∈ orders.order [] (commonKeys l₁ r₁),
      word p (diffKey eq orders location key r₁ l₁) =
        word p (diffKey eq inOrder location key r l) := by
    intro key hkey
    obtain ⟨hkl, hkr⟩ := mem_commonKeys.mp ((orders.perm [] _).mem_iff.mp hkey)
    obtain ⟨v₁, hv₁⟩ := exists_lookup_iff.mpr hkl
    obtain ⟨w₁, hw₁⟩ := exists_lookup_iff.mpr hkr
    obtain ⟨⟨k, v⟩, hv, rfl, hsv⟩ := hsl.mem _ (mem_of_lookup hv₁)
    obtain ⟨⟨k', w⟩, hw, hk', hsw⟩ := hsr.mem _ (mem_of_lookup hw₁)
    obtain rfl : k' = k := hk'
    rw [diffKey_eq hl₁ (mem_of_lookup hv₁) hw₁, diffKey_eq hl.1 hv (lookup_eq_some hr.1 hw)]
    exact h k' v w v₁ w₁ _ hv hw hsv hsw
  have hcommon : ((orders.order [] (commonKeys l₁ r₁)).flatMap
      fun key => word p (diffKey eq orders location key r₁ l₁)) =
        (commonKeys l r).flatMap fun key => word p (diffKey eq inOrder location key r l) := by
    rw [List.flatMap_congr hstep]
    refine Blocks.flatMap_eq_of_perm hkeys fun k hk k' hk' => ?_
    obtain ⟨hkl, hkr⟩ := mem_commonKeys.mp (hkeys.mem_iff.mp hk)
    obtain ⟨hkl', hkr'⟩ := mem_commonKeys.mp (hkeys.mem_iff.mp hk')
    obtain ⟨v, hv⟩ := exists_lookup_iff.mpr hkl
    obtain ⟨w, hw⟩ := exists_lookup_iff.mpr hkr
    obtain ⟨v', hv'⟩ := exists_lookup_iff.mpr hkl'
    obtain ⟨w', hw'⟩ := exists_lookup_iff.mpr hkr'
    by_cases hne : k = k'
    · rw [hne]
    · rw [diffKey_eq hl.1 (mem_of_lookup hv) hw, diffKey_eq hl.1 (mem_of_lookup hv') hw']
      exact hcomm k v w k' v' w' (mem_of_lookup hv) (mem_of_lookup hw) (mem_of_lookup hv')
        (mem_of_lookup hw') hne
  rw [Narrow, places, List.forall_mem_append, List.forall_mem_append] at hnarrow
  obtain ⟨⟨hleft, hright⟩, -⟩ := hnarrow
  rw [diffRec_object hloc, diffRec_object hloc, word_append, word_append, word_append, word_append,
    word_flatMap, word_flatMap, hcommon,
    word_onlyIn hl.1 hl.2 hsl hsr (narrow_onlyIn hleft),
    word_onlyIn hr.1 hr.2 hsr hsl (narrow_onlyIn hright)]
  rfl

/-- The word of elements, from those of the pairs at one index. -/
theorem word_diffValues {i : ℕ} (hv : ∀ v ∈ vs, Printable n v) (hw : ∀ w ∈ ws, Printable n w)
    (hvs : List.Forall₂ Same vs vs₁) (hws : List.Forall₂ Same ws ws₁)
    (hnarrow : ∀ place ∈ elementPlaces eq i vs ws, place.verdict.narrow)
    (h : ∀ j v w v₁ w₁ orders, vs[j]? = some v → ws[j]? = some w → Narrow eq v w →
      Same v v₁ → Same w w₁ → word p (diffRec eq orders (location.index (i + j)) v₁ w₁) =
        word p (diffRec eq inOrder (location.index (i + j)) v w)) :
    word p (diffValues eq orders location i vs₁ ws₁) =
      word p (diffValues eq inOrder location i vs ws) := by
  induction hvs generalizing i ws ws₁ with
  | nil =>
    obtain rfl : ws₁ = ws := by
      refine forall₂_eq hws fun w hmem w₁ hsame => hsame.eq_of_narrow (hw w hmem) ?_
      obtain ⟨j, hj⟩ := List.mem_iff_getElem?.mp hmem
      refine hnarrow ⟨[.index (i + j)], .onlyRight w⟩ ?_
      cases hws with
      | nil => cases hmem
      | cons hsame hws =>
        exact List.mem_map.mpr ⟨(w, i + j), List.mk_add_mem_zipIdx_iff_getElem?.mpr hj, rfl⟩
    rw [diffValues_nil_left, diffValues_nil_left]
  | @cons v v₁ vs vs₁ hsame hvs ih =>
    cases hws with
    | nil =>
      rw [elementPlaces, List.forall_mem_cons] at hnarrow
      obtain ⟨hhead, htail⟩ := hnarrow
      obtain rfl : v₁ = v := hsame.eq_of_narrow (hv v List.mem_cons_self) hhead
      have ih := ih (i := i + 1) (fun v hmem => hv v (List.mem_cons_of_mem _ hmem)) hw .nil htail
        fun j v w v₁ w₁ orders _ hnone => by cases hnone
      rw [diffValues, diffValues, ← List.singleton_append, word_append, ih, ← word_append]
      rfl
    | @cons w w₁ ws ws₁ hsame' hws =>
      rw [elementPlaces, List.forall_mem_append, List.forall_mem_map] at hnarrow
      obtain ⟨hhead, htail⟩ := hnarrow
      have ih := ih (i := i + 1) (fun v hmem => hv v (List.mem_cons_of_mem _ hmem))
        (fun w hmem => hw w (List.mem_cons_of_mem _ hmem)) hws htail
        fun j v w v₁ w₁ orders hv hw => by
          have hindex : i + 1 + j = i + (j + 1) := by omega
          rw [hindex]
          exact h (j + 1) v w v₁ w₁ orders hv hw
      rw [diffValues, diffValues, word_append, word_append, ih]
      exact congrArg (· ++ _) (h 0 v w v₁ w₁ _ rfl rfl hhead hsame hsame')

theorem compound_same (hsl : Same left left₁) (hsr : Same right right₁) :
    compound left₁ right₁ = compound left right := by
  cases hsl <;> cases hsr <;> rfl

theorem equal_same (hcompound : compound left right = false) (hsl : Same left left₁)
    (hsr : Same right right₁) : left₁.equal eq right₁ = left.equal eq right := by
  cases hsl <;> cases hsr <;> first
    | rfl
    | exact Bool.noConfusion hcompound

theorem Separable.key (h : Separable eq location (.object l) (.object r)) (hv : (k, v) ∈ l)
    (hw : (k, w) ∈ r) : Separable eq (location.with k) v w :=
  fun location' l' r' hmeets => h location' l' r' (.key hv hw hmeets)

theorem Separable.index {i : ℕ} (h : Separable eq location (.array vs) (.array ws))
    (hv : vs[i]? = some v) (hw : ws[i]? = some w) : Separable eq (location.index i) v w :=
  fun location' l' r' hmeets => h location' l' r' (.index hv hw hmeets)

theorem report_eq (hl : Printable n left) (hr : Printable n right)
    (hloc : location.segments.length + n ≤ maxLocation) :
    (report eq p location left right).toList =
      word p (diffRec eq inOrder location left right) := by
  rw [report, map_finding_places hl hr hloc, toList_printDiff_findingsAt]

/-- What is written at a printed location is the same for all orders. -/
theorem word_diffRec (hl : Printable n left) (hr : Printable n right)
    (hloc : location.segments.length + n ≤ maxLocation) (hnarrow : Narrow eq left right)
    (hsep : Separable eq location left right) (hsl : Same left left₁)
    (hsr : Same right right₁) :
    word p (diffRec eq orders location left₁ right₁) =
      word p (diffRec eq inOrder location left right) := by
  induction n generalizing location orders left left₁ right right₁ with
  | zero => exact hl.elim
  | succ n ih =>
    have hle : location.segments.length ≤ maxLocation := by omega
    obtain ⟨l, r, rfl, rfl⟩ | ⟨vs, ws, rfl, rfl⟩ | hcompound := compound_cases left right
    · cases hsl with
      | object hsl =>
        cases hsr with
        | object hsr =>
          have hwith (k : String) : (location.with k).segments.length + n ≤ maxLocation := by
            rw [length_with]
            omega
          refine word_diffRec_object hle hl hr hsl hsr hnarrow ?_ ?_
          · intro k v w v₁ w₁ orders hv hw hsv hsw
            exact ih (hl.2 _ hv) (hr.2 _ hw) (hwith k) (hnarrow.key hv (lookup_eq_some hr.1 hw))
              (hsep.key hv hw) hsv hsw
          · intro k v w k' v' w' hv hw hv' hw' hne
            have hreports := congrArg String.toList
              (hsep location l r .here k v w k' v' w' hv hw hv' hw' hne p)
            rwa [String.toList_append, String.toList_append,
              report_eq (hl.2 _ hv) (hr.2 _ hw) (hwith k),
              report_eq (hl.2 _ hv') (hr.2 _ hw') (hwith k')] at hreports
    · cases hsl with
      | array hvs =>
        cases hsr with
        | array hws =>
          rw [diffRec_array hle, diffRec_array hle]
          refine word_diffValues hl hr hvs hws hnarrow ?_
          intro j v w v₁ w₁ orders hv hw hnarrow hsv hsw
          rw [Nat.zero_add]
          have hindex := @length_index location j
          exact ih (hl v (List.mem_of_getElem? hv)) (hr w (List.mem_of_getElem? hw)) (by omega)
            hnarrow (hsep.index hv hw) hsv hsw
    · have hcompound₁ := (compound_same hsl hsr).trans hcompound
      rw [diffRec_of_not_compound hle hcompound, diffRec_of_not_compound hle hcompound₁,
        equal_same hcompound hsl hsr]
      split
      · rfl
      · next hequal =>
        rw [Narrow, places_of_not_compound hcompound, if_neg hequal, List.forall_mem_singleton]
          at hnarrow
        obtain ⟨hleft, hright⟩ := Bool.and_eq_true_iff.mp hnarrow
        rw [hsl.eq_of_narrow hl hleft, hsr.eq_of_narrow hr hright]

end

/-! ## Particular orders -/

/-- Orders at and behind a pair of objects. -/
def Orders.node (here : List String → List String) (perm : ∀ keys, (here keys).Perm keys)
    (below : Orders) : Orders where
  order
    | [], keys => here keys
    | _ :: path, keys => below.order path keys
  perm
    | [], keys => perm keys
    | _ :: path, keys => below.perm path keys

/-- `k` and `k'` first. -/
def front (k k' : String) (keys : List String) : List String :=
  if k ∈ keys ∧ k' ∈ keys.erase k then k :: k' :: (keys.erase k).erase k' else keys

section

variable {eq : Number → Number → Bool} {orders orders' : Orders} {location location' : Loc}
  {n : ℕ} {p k k' : String} {keys : List String} {l r : Entries} {vs ws : List Value}
  {left left' right right' v v' w w' : Value}

theorem front_perm : (front k k' keys).Perm keys := by
  rw [front]
  split
  · next h =>
    have hsecond := (List.perm_cons_erase h.2).symm
    exact (hsecond.cons k).trans (List.perm_cons_erase h.1).symm
  · exact .refl _

theorem front_eq (hk : k ∈ keys) (hk' : k' ∈ keys) (hne : k ≠ k') :
    front k k' keys = k :: k' :: (keys.erase k).erase k' :=
  if_pos ⟨hk, (List.mem_erase_of_ne hne.symm).mpr hk'⟩

theorem perm_diffRec (hl : Printable n left) (hr : Printable n right) :
    (diffRec eq orders location left right).Perm (diffRec eq orders' location left right) := by
  have hswap : (diffRec (flip eq) orders' location right left).Perm
      ((diffRec eq orders' location left right).map Finding.swap) := diffRec_swap hl hr
  have hback : (diffRec (flip (flip eq)) orders location left right).Perm
      ((diffRec (flip eq) orders' location right left).map Finding.swap) := diffRec_swap hr hl
  have hswap_swap : Finding.swap ∘ Finding.swap = id := by
    funext finding
    obtain ⟨loc, verdict⟩ := finding
    cases verdict <;> rfl
  have htwice := hback.trans (hswap.map Finding.swap)
  rwa [List.map_map, hswap_swap, List.map_id] at htwice

theorem length_word (hl : Printable n left) (hr : Printable n right) :
    (word p (diffRec eq orders location left right)).length =
      (word p (diffRec eq orders' location left right)).length :=
  (((perm_diffRec hl hr).filter _).flatMap_right _).length_eq

/-- What is written at a printed location does not depend on the orders of common keys. -/
def StableAt (eq : Number → Number → Bool) (location : Loc) (left right : Value) : Prop :=
  ∀ orders orders' p, word p (diffRec eq orders location left right) =
    word p (diffRec eq orders' location left right)

/-- The findings for a key do not depend on the order at the pair. -/
theorem diffKey_node {here : List String → List String} {perm : ∀ keys, (here keys).Perm keys} :
    diffKey eq (.node here perm orders) location k r l =
      diffKey eq (.node id (fun _ => .refl _) orders) location k r l := by
  induction l with
  | nil => rfl
  | cons e l ih =>
    rw [diffKey, diffKey, ih]
    rfl

theorem word_diffRec_node {here : List String → List String}
    {perm : ∀ keys, (here keys).Perm keys} (hloc : location.segments.length ≤ maxLocation) :
    word p (diffRec eq (.node here perm orders) location (.object l) (.object r)) =
      word p (onlyIn .onlyLeft location l r ++ onlyIn .onlyRight location r l) ++
        (here (commonKeys l r)).flatMap fun key =>
          word p (diffKey eq (.node id (fun _ => .refl _) orders) location key r l) := by
  rw [diffRec_object hloc, word_append, word_flatMap]
  exact congrArg _ (List.flatMap_congr fun key _ => by rw [diffKey_node])

theorem StableAt.key (h : StableAt eq location (.object l) (.object r))
    (hl : Printable (n + 1) (.object l)) (hr : Printable (n + 1) (.object r))
    (hloc : location.segments.length ≤ maxLocation) (hv : (k, v) ∈ l) (hw : (k, w) ∈ r) :
    StableAt eq (location.with k) v w := by
  intro orders orders' p
  have hwords := h (.node id (fun _ => .refl _) orders) (.node id (fun _ => .refl _) orders') p
  rw [word_diffRec_node hloc, word_diffRec_node hloc] at hwords
  have hcommon : k ∈ commonKeys l r :=
    mem_commonKeys.mpr ⟨List.mem_map_of_mem hv, List.mem_map_of_mem hw⟩
  have hkey := Blocks.eq_of_flatMap_eq (List.append_cancel_left hwords) ?_ k hcommon
  · rwa [diffKey_eq hl.1 hv (lookup_eq_some hr.1 hw),
      diffKey_eq hl.1 hv (lookup_eq_some hr.1 hw)] at hkey
  · intro key hkey
    obtain ⟨hkl, hkr⟩ := mem_commonKeys.mp hkey
    obtain ⟨v, hv⟩ := exists_lookup_iff.mpr hkl
    obtain ⟨w, hw⟩ := exists_lookup_iff.mpr hkr
    rw [diffKey_eq hl.1 (mem_of_lookup hv) hw, diffKey_eq hl.1 (mem_of_lookup hv) hw]
    exact length_word (hl.2 _ (mem_of_lookup hv)) (hr.2 _ (mem_of_lookup hw))

theorem StableAt.exchange (h : StableAt eq location (.object l) (.object r))
    (hl : (l.map Prod.fst).Nodup) (hr : (r.map Prod.fst).Nodup)
    (hloc : location.segments.length ≤ maxLocation) (hv : (k, v) ∈ l) (hw : (k, w) ∈ r)
    (hv' : (k', v') ∈ l) (hw' : (k', w') ∈ r) (hne : k ≠ k') :
    word p (diffRec eq inOrder (location.with k) v w) ++
        word p (diffRec eq inOrder (location.with k') v' w') =
      word p (diffRec eq inOrder (location.with k') v' w') ++
        word p (diffRec eq inOrder (location.with k) v w) := by
  have hwords := h (.node (front k k') (fun _ => front_perm) inOrder)
    (.node (front k' k) (fun _ => front_perm) inOrder) p
  have hk : k ∈ commonKeys l r :=
    mem_commonKeys.mpr ⟨List.mem_map_of_mem hv, List.mem_map_of_mem hw⟩
  have hk' : k' ∈ commonKeys l r :=
    mem_commonKeys.mpr ⟨List.mem_map_of_mem hv', List.mem_map_of_mem hw'⟩
  rw [word_diffRec_node hloc, word_diffRec_node hloc, front_eq hk hk' hne,
    front_eq hk' hk hne.symm, List.erase_comm] at hwords
  have hkeys := List.append_cancel_left hwords
  rw [List.flatMap_cons, List.flatMap_cons, List.flatMap_cons, List.flatMap_cons,
    ← List.append_assoc, ← List.append_assoc] at hkeys
  have hpair := List.append_cancel_right hkeys
  rwa [diffKey_eq hl hv (lookup_eq_some hr hw), diffKey_eq hl hv' (lookup_eq_some hr hw')] at hpair

theorem word_diffValues_inj {i : ℕ}
    (hlength : ∀ v ∈ vs, ∀ w ∈ ws, ∀ i, (word p (diffRec eq orders (location.index i) v w)).length =
      (word p (diffRec eq orders' (location.index i) v w)).length)
    (h : word p (diffValues eq (.node id (fun _ => .refl _) orders) location i vs ws) =
      word p (diffValues eq (.node id (fun _ => .refl _) orders') location i vs ws)) :
    ∀ j v w, vs[j]? = some v → ws[j]? = some w →
      word p (diffRec eq orders (location.index (i + j)) v w) =
        word p (diffRec eq orders' (location.index (i + j)) v w) := by
  induction vs generalizing ws i with
  | nil => exact fun j v w hv => by cases hv
  | cons v vs ih =>
    cases ws with
    | nil => exact fun j v w _ hw => by cases hw
    | cons w ws =>
      rw [diffValues, diffValues, word_append, word_append] at h
      obtain ⟨hhead, htail⟩ :=
        List.append_inj h (hlength v List.mem_cons_self w List.mem_cons_self i)
      intro j v' w' hv hw
      cases j with
      | zero =>
        obtain rfl := Option.some.inj hv
        obtain rfl := Option.some.inj hw
        exact hhead
      | succ j =>
        have hrest := ih (fun v hv w hw => hlength v (List.mem_cons_of_mem _ hv) w
          (List.mem_cons_of_mem _ hw)) htail j v' w' hv hw
        have hindex : i + 1 + j = i + (j + 1) := by omega
        rwa [hindex] at hrest

theorem StableAt.index {i : ℕ} (h : StableAt eq location (.array vs) (.array ws))
    (hl : Printable (n + 1) (.array vs)) (hr : Printable (n + 1) (.array ws))
    (hloc : location.segments.length ≤ maxLocation) (hv : vs[i]? = some v) (hw : ws[i]? = some w) :
    StableAt eq (location.index i) v w := by
  intro orders orders' p
  have hwords := h (.node id (fun _ => .refl _) orders) (.node id (fun _ => .refl _) orders') p
  rw [diffRec_array hloc, diffRec_array hloc] at hwords
  have hword := word_diffValues_inj (fun v hv w hw i => length_word (hl v hv) (hr w hw)) hwords i
    v w hv hw
  rwa [Nat.zero_add] at hword

/-- What is stable at two values is stable at values in them. -/
theorem StableAt.meets (hmeets : Meets location left right location' left' right')
    (h : StableAt eq location left right) (hl : Printable n left) (hr : Printable n right)
    (hloc : location.segments.length + n ≤ maxLocation) :
    ∃ m, Printable m left' ∧ Printable m right' ∧
      location'.segments.length + m ≤ maxLocation ∧ StableAt eq location' left' right' := by
  induction hmeets generalizing n with
  | here => exact ⟨n, hl, hr, hloc, h⟩
  | key hv hw _ ih =>
    cases n with
    | zero => exact hl.elim
    | succ n =>
      refine ih (h.key hl hr (by omega) hv hw) (hl.2 _ hv) (hr.2 _ hw) ?_
      rw [length_with]
      omega
  | @index vs i v ws w _ _ _ location hv hw _ ih =>
    cases n with
    | zero => exact hl.elim
    | succ n =>
      have hindex := @length_index location i
      exact ih (h.index hl hr (by omega) hv hw) (hl v (List.mem_of_getElem? hv))
        (hr w (List.mem_of_getElem? hw)) (by omega)

theorem StableAt.separable (h : StableAt eq location left right) (hl : Printable n left)
    (hr : Printable n right) (hloc : location.segments.length + n ≤ maxLocation) :
    Separable eq location left right := by
  intro location' l r hmeets k v w k' v' w' hv hw hv' hw' hne p
  obtain ⟨m, hl, hr, hloc, h⟩ := h.meets hmeets hl hr hloc
  cases m with
  | zero => exact hl.elim
  | succ m =>
    have hwith (k : String) : (location'.with k).segments.length + m ≤ maxLocation := by
      rw [length_with]
      omega
    refine String.toList_injective ?_
    rw [String.toList_append, String.toList_append,
      report_eq (hl.2 _ hv) (hr.2 _ hw) (hwith k), report_eq (hl.2 _ hv') (hr.2 _ hw') (hwith k')]
    exact h.exchange hl.1 hr.1 (by omega) hv hw hv' hw' hne

/-! ## The report -/

theorem printDiff_diff_eq (h : ∀ p, word p (diffRec eq orders ⟨[]⟩ left right) =
    word p (diffRec eq orders' ⟨[]⟩ left' right')) :
    printDiff (diff eq orders left right) = printDiff (diff eq orders' left' right') := by
  refine String.toList_injective ?_
  rw [toList_printDiff, toList_printDiff]
  exact Blocks.flatMap_mergeSort_eq print_le_iff h

theorem Stable.stableAt (h : Stable eq left right) (hl : Printable n left)
    (hr : Printable n right) : StableAt eq ⟨[]⟩ left right := by
  intro orders orders' p
  have hprint := congrArg String.toList
    (h orders orders' left right left right (.refl _) (.refl _) (.refl _) (.refl _))
  rw [toList_printDiff, toList_printDiff] at hprint
  exact Blocks.flatMap_block_eq print_le_iff (perm_diffRec hl hr) hprint p

/-- For documents with narrow differences, what is printed depends on no order of iteration exactly
if what there is to report beneath common keys can be exchanged at each printed location. -/
theorem stable_iff (hl : Obtainable left) (hr : Obtainable right)
    (hnarrow : Narrow eq left right) : Stable eq left right ↔ Separable eq ⟨[]⟩ left right := by
  have hloc : (⟨[]⟩ : Loc).segments.length + 255 ≤ maxLocation := by decide
  constructor
  · exact fun h => (h.stableAt hl.printable hr.printable).separable hl.printable hr.printable hloc
  · intro hsep orders orders' l₁ r₁ l₂ r₂ hsl₁ hsr₁ hsl₂ hsr₂
    refine printDiff_diff_eq fun p => ?_
    rw [word_diffRec hl.printable hr.printable hloc hnarrow hsep hsl₁ hsr₁,
      word_diffRec hl.printable hr.printable hloc hnarrow hsep hsl₂ hsr₂]

end

/-! ## Keys without dots and brackets -/

/-- Not a character that ends a key in a printed location. -/
def undottedChar (c : Char) : Bool := c ≠ '.' && c ≠ '['

mutual

/-- No key in the value has a dot or an opening bracket in it. -/
def Value.undotted : Value → Bool
  | .object entries => undottedEntries entries
  | .array values => undottedValues values
  | _ => true

def undottedEntries : List (String × Value) → Bool
  | [] => true
  | (k, v) :: entries => k.toList.all undottedChar && v.undotted && undottedEntries entries

def undottedValues : List Value → Bool
  | [] => true
  | v :: values => v.undotted && undottedValues values

end

section

variable {eq : Number → Number → Bool} {location location' : Loc} {p k k' : String}
  {path path' : List Step} {es : Entries} {vs : List Value} {left left' right right' : Value}

theorem undottedEntries_iff : undottedEntries es ↔
    ∀ e ∈ es, e.1.toList.all undottedChar ∧ e.2.undotted := by
  induction es with
  | nil => simp [undottedEntries]
  | cons e es ih => simp [undottedEntries, ih]

theorem undottedValues_iff : undottedValues vs ↔ ∀ v ∈ vs, v.undotted := by
  induction vs with
  | nil => simp [undottedValues]
  | cons v vs ih => simp [undottedValues, ih]

theorem Meets.undotted (h : Meets location left right location' left' right')
    (hleft : left.undotted) : left'.undotted := by
  induction h with
  | here => exact hleft
  | key hv _ _ ih => exact ih (undottedEntries_iff.mp hleft _ hv).2
  | index hv _ _ ih => exact ih (undottedValues_iff.mp hleft _ (List.mem_of_getElem? hv))

theorem join_append_tail {segments : List String} {s t : String} :
    Loc.join (segments ++ [s ++ t]) = Loc.join (segments ++ [s]) ++ t := by
  induction segments with
  | nil => rfl
  | cons s' segments ih =>
    cases segments with
    | nil =>
      change s' ++ "." ++ (s ++ t) = s' ++ "." ++ s ++ t
      simp only [String.append_assoc]
    | cons s'' segments =>
      have hcons (u : String) : Loc.join (s' :: s'' :: segments ++ [u]) =
        s' ++ "." ++ Loc.join (s'' :: segments ++ [u]) := rfl
      rw [hcons, hcons, ih]
      simp only [String.append_assoc]

/-- Behind a key, nothing, a dot or a bracket follows in a printed location. -/
theorem exists_print_follow (hne : location.segments ≠ []) : ∃ t : List Char,
    (location.follow path).print.toList = location.print.toList ++ t ∧
      t.takeWhile undottedChar = [] := by
  induction path generalizing location with
  | nil => exact ⟨[], (List.append_nil _).symm, rfl⟩
  | cons step path ih =>
    cases step with
    | key k =>
      have hstep : (location.with k).print = location.print ++ ("." ++ k) := by
        rw [Loc.print, Loc.with, join_append hne, Loc.print]
        simp only [String.append_assoc]
      obtain ⟨t, ht, -⟩ := @ih (location.with k) (by simp [Loc.with])
      refine ⟨'.' :: (k.toList ++ t), ?_, rfl⟩
      rw [Loc.follow, ht, hstep]
      simp
    | index i =>
      obtain ⟨tail, htail⟩ := Option.ne_none_iff_exists'.mp (mt List.getLast?_eq_none_iff.mp hne)
      obtain ⟨segments, hsegments⟩ := List.getLast?_eq_some_iff.mp htail
      have hindex : (location.index i).segments =
          segments ++ [tail ++ ("[" ++ toString i ++ "]")] := by
        rw [Loc.index, htail, hsegments, List.dropLast_concat]
        simp only [String.append_assoc]
      have hstep : (location.index i).print = location.print ++ ("[" ++ toString i ++ "]") := by
        rw [Loc.print, hindex, join_append_tail, Loc.print, hsegments]
        simp only [String.append_assoc]
      obtain ⟨t, ht, -⟩ := @ih (location.index i) (by simp [hindex])
      refine ⟨'[' :: ((toString i).toList ++ (']' :: t)), ?_, rfl⟩
      rw [Loc.follow, ht, hstep]
      simp

/-- Places beneath different keys without dots and brackets are printed differently. -/
theorem eq_of_print_follow (hk : k.toList.all undottedChar) (hk' : k'.toList.all undottedChar)
    (h : ((location.with k).follow path).print = ((location.with k').follow path').print) :
    k = k' := by
  have hne (k : String) : (location.with k).segments ≠ [] := by simp [Loc.with]
  obtain ⟨s, hs⟩ := exists_print_with location
  obtain ⟨t, ht, hnil⟩ := @exists_print_follow _ path (hne k)
  obtain ⟨t', ht', hnil'⟩ := @exists_print_follow _ path' (hne k')
  have hprint := congrArg String.toList h
  rw [ht, ht', hs, hs, String.toList_append, String.toList_append, List.append_assoc,
    List.append_assoc] at hprint
  have hkeys := congrArg (List.takeWhile undottedChar) (List.append_cancel_left hprint)
  rw [List.takeWhile_append_of_pos (List.all_eq_true.mp hk), hnil,
    List.takeWhile_append_of_pos (List.all_eq_true.mp hk'), hnil', List.append_nil,
    List.append_nil] at hkeys
  exact String.toList_injective hkeys

theorem report_eq_empty (h : ∀ place ∈ places eq left right,
    (place.finding location).loc.print ≠ p) : report eq p location left right = "" := by
  have hnil : findingsAt p ((places eq left right).map (Place.finding location)) = [] := by
    rw [findingsAt, List.filter_eq_nil_iff, List.forall_mem_map]
    exact fun place hplace hp => h place hplace (of_decide_eq_true hp)
  rw [report, hnil, printDiff]

/-- Without dots and brackets in keys, no two reported places are printed as the same location. -/
theorem separable_of_undotted (h : left.undotted) : Separable eq location left right := by
  intro location' l r hmeets k v w k' v' w' hv hw hv' hw' hne p
  have hkeys := undottedEntries_iff.mp (hmeets.undotted h)
  by_cases hp : ∃ place ∈ places eq v w, (place.finding (location'.with k)).loc.print = p
  · obtain ⟨place, -, hplace⟩ := hp
    have hempty : report eq p (location'.with k') v' w' = "" := by
      refine report_eq_empty fun place' _ hplace' => hne ?_
      exact eq_of_print_follow (hkeys _ hv).1 (hkeys _ hv').1 (hplace.trans hplace'.symm)
    rw [hempty, String.append_empty, String.empty_append]
  · have hempty : report eq p (location'.with k) v w = "" :=
      report_eq_empty fun place hplace heq => hp ⟨place, hplace, heq⟩
    rw [hempty, String.append_empty, String.empty_append]

end

namespace Example

def bools (es : List (String × Bool)) : Value := .ofFields (es.map fun e => (e.1, .bool e.2))

theorem writable_bools {es : List (String × Bool)} (hnodup : (es.map Prod.fst).Nodup)
    (hkeys : ∀ k ∈ es.map Prod.fst, plainKey k) : Writable 2 (bools es) := by
  refine writable_ofFields ?_ ?_ ?_
  · rwa [List.map_map]
  · rwa [List.map_map]
  · simp only [List.forall_mem_map]
    exact fun e _ => writable_bool e.2

theorem stable_iff_ab :
    Stable sameText (numbers [("a", 1), ("b", 2)]) (numbers [("b", 3), ("a", 4)]) :=
  (stable_iff ((writable_numbers (by decide) (by decide)).obtainable (by decide))
    ((writable_numbers (by decide) (by decide)).obtainable (by decide))
    (by decide +kernel)).mpr (separable_of_undotted (by decide +kernel))

/-- `b` of `a` and `a.b` have the same printed location. -/
def nested (b b' : Bool) : Value := .ofFields [("a.b", .bool b), ("a", bools [("b", b')])]

theorem writable_nested (b b' : Bool) : Writable 3 (nested b b') := by
  have hbools : Writable 2 (bools [("b", b')]) :=
    writable_bools (List.nodup_singleton _) (show ∀ k ∈ ["b"], plainKey k by decide)
  refine writable_ofFields (show ["a.b", "a"].Nodup by decide)
    (show ∀ k ∈ ["a.b", "a"], plainKey k by decide) ?_
  simp only [List.map_cons, List.map_nil, List.forall_mem_cons]
  exact ⟨(writable_bool b).mono (by decide), hbools, List.forall_mem_nil _⟩

theorem not_stable : Obtainable (nested true false) ∧ Obtainable (nested false true) ∧
    Narrow sameText (nested true false) (nested false true) ∧
    ¬ Stable sameText (nested true false) (nested false true) := by
  have hobtainable (b b' : Bool) : Obtainable (nested b b') :=
    (writable_nested b b').obtainable (by decide)
  refine ⟨hobtainable _ _, hobtainable _ _, by decide +kernel, fun h => ?_⟩
  have hword := h.stableAt (hobtainable _ _).printable (hobtainable _ _).printable inOrder
    (.node List.reverse List.reverse_perm inOrder) "$.a.b"
  exact absurd hword (by decide +kernel)

end Example

end Json

end Miniraft

import Mathlib.Algebra.GroupWithZero.Nat
import Miniraft.Verify.Print

/-!
# Print and parse

Printing and parsing give back a value that the parser has returned exactly if all its keys are
plain (`roundTrips_iff`). That plain keys are enough is `parse_print`. For the converse a text is
read with an eye on its quotes and backslashes only (`Walk`): the characters of a value that need
an escape cannot be more than the text has escapes for (`covers_element`), and where keys are
printed without escapes there are too few of them (`bounded_print`). The measure of the characters
is chosen such that an unescaped key loses even if it happens to look like one with escapes, and
even if a quote in it turns the inside of strings out.
-/

namespace Miniraft

namespace Json

open Grammar

variable {b : UInt8} {w x y : List UInt8} {v v' : Value} {n l : ℕ} {es fs : Entries}
  {vs ws : List Value}

/-! ## Measures of characters -/

/-- How much a character counts that needs an escape. A backslash counts more than the others: in
an unescaped key it stands at most for one of them. -/
def codeWeight (m : ℕ) : ℕ := if m = 0x5C then 2 else if m = 0x22 ∨ m < 0x20 then 1 else 0

/-- Counts the letter `u`, which an escape of four digits swallows, as much as a backslash. -/
def codeUs (m : ℕ) : ℕ := if m = 0x75 then 2 else 0

def tally (f : ℕ → ℕ) (w : List UInt8) : ℕ := (w.map fun b => f b.toNat).sum

section

variable {f : ℕ → ℕ}

@[simp] theorem tally_nil : tally f [] = 0 := rfl

@[simp] theorem tally_cons : tally f (b :: w) = f b.toNat + tally f w := by
  simp [tally]

@[simp] theorem tally_append : tally f (w ++ x) = tally f w + tally f x := by
  simp [tally]

theorem tally_eq_zero (h : ∀ b ∈ w, f b.toNat = 0) : tally f w = 0 := by
  induction w with
  | nil => rfl
  | cons b w ih =>
    obtain ⟨hb, hw⟩ := List.forall_mem_cons.mp h
    rw [tally_cons, hb, ih hw]

/-- A measure that only counts ASCII characters can be taken of characters or of bytes. -/
theorem tally_utf8EncodeChar (hf : ∀ m, 0x80 ≤ m → f m = 0) (c : Char) :
    tally f (String.utf8EncodeChar c) = f c.toNat := by
  rcases Nat.lt_or_ge c.toNat 0x80 with hlt | hge
  · rw [utf8EncodeChar_of_lt hlt]
    simp only [tally_cons, tally_nil, Nat.add_zero]
    rw [UInt8.toNat_ofNat_of_lt' (Nat.lt_trans hlt (by decide))]
  · rw [hf _ hge]
    exact tally_eq_zero fun b hb => hf _ (utf8EncodeChar_ge hge b hb)

end

theorem codeWeight_of_ge {m : ℕ} (h : 0x80 ≤ m) : codeWeight m = 0 := by
  rw [codeWeight, if_neg (by omega), if_neg (by omega)]

theorem codeUs_of_ge {m : ℕ} (h : 0x80 ≤ m) : codeUs m = 0 := by
  rw [codeUs, if_neg (by omega)]

theorem codeWeight_le (m : ℕ) : codeWeight m ≤ 2 := by
  unfold codeWeight
  split <;> [skip; split] <;> omega

theorem codeWeight_eq_two {m : ℕ} (h : codeWeight m = 2) : m = 0x5C := by
  unfold codeWeight at h
  split at h
  · assumption
  · split at h <;> omega

theorem codeWeight_of_plain {m : ℕ} (hctrl : 0x20 ≤ m) (hquote : m ≠ 0x22) (hescape : m ≠ 0x5C) :
    codeWeight m = 0 := by
  rw [codeWeight, if_neg hescape, if_neg (by omega)]

/-! ## Walks over a text -/

/-- A walk over the rest of a text, from inside or outside of a string to the end, which is outside
of all strings. Only the limits of strings and their escapes are looked at. `n` is the weight of
the characters that are escaped, `l` the number of letters `u` in strings. -/
inductive Walk : Bool → List UInt8 → ℕ → ℕ → Prop
  | nil : Walk false [] 0 0
  | skip : a ≠ 0x22 → a ≠ 0x5C → Walk false t i j → Walk false (a :: t) i j
  | opening : Walk true t i j → Walk false (0x22 :: t) i j
  | closing : Walk false t i j → Walk true (0x22 :: t) i j
  | raw : a ≠ 0x22 → a ≠ 0x5C → 0x20 ≤ a → Walk true t i j →
    Walk true (a :: t) i (codeUs a.toNat + j)
  | escape : Escape a c → Walk true t i j → Walk true (0x5C :: a :: t) (codeWeight c.toNat + i) j
  | unicode : Hex4 [a₁, a₂, a₃, a₄] m → Walk true t i j →
    Walk true (0x5C :: 0x75 :: a₁ :: a₂ :: a₃ :: a₄ :: t) (codeWeight m + i) (codeUs m + j)

theorem Walk.skips (hx : ∀ b ∈ x, b ≠ 0x22 ∧ b ≠ 0x5C) (h : Walk false w n l) :
    Walk false (x ++ w) n l := by
  induction x with
  | nil => exact h
  | cons b x ih =>
    obtain ⟨hb, hx⟩ := List.forall_mem_cons.mp hx
    exact .skip hb.1 hb.2 (ih hx)

theorem Walk.of_skips (hx : ∀ b ∈ x, b ≠ 0x22 ∧ b ≠ 0x5C) (h : Walk false (x ++ w) n l) :
    Walk false w n l := by
  induction x with
  | nil => exact h
  | cons b x ih =>
    obtain ⟨hb, hx⟩ := List.forall_mem_cons.mp hx
    rw [List.cons_append] at h
    cases h with
    | skip _ _ h => exact ih hx h
    | opening => exact absurd rfl hb.1

theorem Walk.raws (hx : ∀ b ∈ x, b ≠ 0x22 ∧ b ≠ 0x5C ∧ 0x20 ≤ b) (h : Walk true w n l) :
    Walk true (x ++ w) n (tally codeUs x + l) := by
  induction x with
  | nil => rwa [tally_nil, Nat.zero_add]
  | cons b x ih =>
    obtain ⟨⟨hquote, hescape, hctrl⟩, hx⟩ := List.forall_mem_cons.mp hx
    rw [tally_cons, Nat.add_assoc]
    exact .raw hquote hescape hctrl (ih hx)

theorem Walk.of_raws (hx : ∀ b ∈ x, b ≠ 0x22 ∧ b ≠ 0x5C) (h : Walk true (x ++ w) n l) :
    ∃ j, Walk true w n j ∧ l = tally codeUs x + j := by
  induction x generalizing l with
  | nil => exact ⟨l, h, (Nat.zero_add l).symm⟩
  | cons b x ih =>
    obtain ⟨hb, hx⟩ := List.forall_mem_cons.mp hx
    rw [List.cons_append] at h
    generalize ht : x ++ w = t at h
    cases h with
    | closing => exact absurd rfl hb.1
    | raw _ _ _ h =>
      subst ht
      obtain ⟨j, hrest, rfl⟩ := ih hx h
      exact ⟨j, hrest, by rw [tally_cons, Nat.add_assoc]⟩
    | escape => exact absurd rfl hb.2
    | unicode => exact absurd rfl hb.2

/-! ## Measures of values -/

mutual

/-- The sum of `f` over the keys and of `g` over the string values inside a value. -/
def Value.total (f g : ℕ → ℕ) : Value → ℕ
  | .string s => tally g (asBytes s)
  | .object entries => totalEntries f g entries
  | .array values => totalValues f g values
  | _ => 0

def totalEntries (f g : ℕ → ℕ) : List (String × Value) → ℕ
  | [] => 0
  | (k, v) :: entries => tally f (asBytes k) + v.total f g + totalEntries f g entries

def totalValues (f g : ℕ → ℕ) : List Value → ℕ
  | [] => 0
  | v :: values => v.total f g + totalValues f g values

end

section

variable {f g : ℕ → ℕ}

theorem totalEntries_append :
    totalEntries f g (es ++ fs) = totalEntries f g es + totalEntries f g fs := by
  induction es with
  | nil => rw [List.nil_append, totalEntries, Nat.zero_add]
  | cons e es ih =>
    rw [List.cons_append, totalEntries, totalEntries, ih]
    omega

theorem totalEntries_insert_le (es : Entries) (k : String) (v : Value) :
    totalEntries f g (es.insert k v) ≤ totalEntries f g es + totalEntries f g [(k, v)] := by
  induction es with
  | nil => exact Nat.le_add_left _ _
  | cons e es ih =>
    obtain ⟨k', v'⟩ := e
    rw [Entries.insert]
    split
    · next hk =>
      subst hk
      simp only [totalEntries]
      omega
    · simp only [totalEntries] at ih ⊢
      omega

/-- Of duplicate members only the last is kept. -/
theorem totalEntries_collect_le (ms : List (String × Value)) :
    totalEntries f g (collect ms) ≤ totalEntries f g ms := by
  have hfold : ∀ (ms : List (String × Value)) (es : Entries),
      totalEntries f g (ms.foldl (fun map m => Entries.insert map m.1 m.2) es) ≤
        totalEntries f g es + totalEntries f g ms := by
    intro ms
    induction ms with
    | nil => exact fun es => Nat.le_add_right _ _
    | cons m ms ih =>
      intro es
      have hinsert := totalEntries_insert_le (f := f) (g := g) es m.1 m.2
      have hrest := ih (es.insert m.1 m.2)
      simp only [List.foldl_cons, totalEntries] at hinsert hrest ⊢
      omega
  simpa [collect, totalEntries] using hfold ms []

theorem Shuffled.total {R : Value → Value → Prop} (h : Shuffled R es fs)
    (hR : ∀ e ∈ es, ∀ v, R e.2 v → v.total f g = e.2.total f g) :
    totalEntries f g fs = totalEntries f g es := by
  induction h with
  | nil => rfl
  | @cons v w es fs gs k hv _ ih =>
    obtain ⟨hhead, htail⟩ := List.forall_mem_cons.mp hR
    have hw : w.total f g = v.total f g := hhead w hv
    rw [totalEntries, ← ih htail, totalEntries_append, totalEntries_append, totalEntries, hw]
    omega

theorem total_same (hv : Printable n v) (h : Same v v') : v'.total f g = v.total f g := by
  induction n generalizing v v' with
  | zero => exact hv.elim
  | succ n ih =>
    cases h with
    | string | bool | null | number => rfl
    | array h =>
      rw [Value.total, Value.total]
      induction h with
      | nil => rfl
      | @cons v w vs ws hsame _ ih' =>
        obtain ⟨hhead, htail⟩ := List.forall_mem_cons.mp hv
        rw [totalValues, totalValues, ih hhead hsame, ih' htail]
    | object h => exact h.total fun e he v hsame => ih (hv.2 e he) hsame

end

/-! ## A text has an escape for each character that needs one -/

theorem codeWeight_of_ne {c : Char} (hctrl : 0x20 ≤ c.toNat) (hquote : c ≠ '"')
    (hescape : c ≠ '\\') : codeWeight c.toNat = 0 := by
  refine codeWeight_of_plain hctrl (fun h => hquote ?_) fun h => hescape ?_
  · exact Char.toNat_inj.mp h
  · exact Char.toNat_inj.mp h

theorem codeUs_escape {e : UInt8} {c : Char} (h : Escape e c) : codeUs c.toNat = 0 := by
  cases h <;> rfl

theorem toNat_ofNat {m : ℕ} (h : m.isValidChar) : (Char.ofNat m).toNat = m := by
  rw [Char.ofNat, dif_pos h]
  rfl

theorem Walk.chr {c : Char} (h : Chr x c) (hw : Walk true w n l) : ∃ i j,
    Walk true (x ++ w) (i + n) (j + l) ∧ codeWeight c.toNat ≤ i ∧ codeUs c.toNat ≤ j := by
  cases h with
  | unescaped hctrl hquote hescape =>
    refine ⟨0, _, Nat.zero_add n ▸ hw.raws (utf8EncodeChar_plain hctrl hquote hescape),
      Nat.le_of_eq (codeWeight_of_ne hctrl hquote hescape), ?_⟩
    exact Nat.le_of_eq (tally_utf8EncodeChar (fun _ => codeUs_of_ge) c).symm
  | escape he =>
    refine ⟨_, 0, ?_, Nat.le_refl _, Nat.le_of_eq (codeUs_escape he)⟩
    rw [Nat.zero_add]
    exact .escape he hw
  | @unicode _ m hhex hhigh hlow =>
    rw [toNat_ofNat (isValidChar_of_not_surrogate hhex.lt hhigh hlow)]
    cases hhex with
    | mk ha hb hc hd => exact ⟨_, _, .unicode (.mk ha hb hc hd) hw, Nat.le_refl _, Nat.le_refl _⟩
  | @surrogates _ m _ k hhex hhigh hhex' hlow =>
    have hge : 0x80 ≤ (ofSurrogates m k).toNat := by
      unfold HighSurrogate at hhigh
      unfold LowSurrogate at hlow
      rw [ofSurrogates, toNat_ofNat (.inr ⟨by omega, by omega⟩)]
      omega
    rw [codeWeight_of_ge hge, codeUs_of_ge hge]
    cases hhex with | mk ha hb hc hd =>
    cases hhex' with | mk ha' hb' hc' hd' =>
    have hwalk := Walk.unicode (.mk ha hb hc hd) (.unicode (.mk ha' hb' hc' hd') hw)
    rw [← Nat.add_assoc, ← Nat.add_assoc] at hwalk
    exact ⟨_, _, hwalk, Nat.zero_le _, Nat.zero_le _⟩

theorem Walk.chars {cs : List Char} (h : Chars x cs) (hw : Walk true w n l) : ∃ i j,
    Walk true (x ++ w) (i + n) (j + l) ∧
      tally codeWeight (cs.flatMap String.utf8EncodeChar) ≤ i ∧
      tally codeUs (cs.flatMap String.utf8EncodeChar) ≤ j := by
  induction h with
  | nil =>
    refine ⟨0, 0, ?_, Nat.le_refl _, Nat.le_refl _⟩
    rwa [Nat.zero_add, Nat.zero_add]
  | cons hc _ ih =>
    obtain ⟨i, j, hwalk, hi, hj⟩ := ih
    obtain ⟨i', j', hwalk', hi', hj'⟩ := hwalk.chr hc
    refine ⟨i' + i, j' + j, ?_, ?_, ?_⟩
    · rwa [List.append_assoc, Nat.add_assoc, Nat.add_assoc]
    · rw [List.flatMap_cons, tally_append, tally_utf8EncodeChar fun _ => codeWeight_of_ge]
      exact Nat.add_le_add hi' hi
    · rw [List.flatMap_cons, tally_append, tally_utf8EncodeChar fun _ => codeUs_of_ge]
      exact Nat.add_le_add hj' hj

/-- A stretch of text from outside to outside of strings, with escapes of at least the weight `n`
and at least `l` letters. -/
def Covers (x : List UInt8) (n l : ℕ) : Prop :=
  ∀ w i j, Walk false w i j → ∃ n' l', Walk false (x ++ w) (n' + i) (l' + j) ∧ n ≤ n' ∧ l ≤ l'

namespace Covers

variable {m k : ℕ}

theorem append (hx : Covers x n l) (hy : Covers y m k) : Covers (x ++ y) (n + m) (l + k) := by
  intro w i j hw
  obtain ⟨m', k', hw', hm, hk⟩ := hy w i j hw
  obtain ⟨n', l', hw'', hn, hl⟩ := hx _ _ _ hw'
  refine ⟨n' + m', l' + k', ?_, Nat.add_le_add hn hm, Nat.add_le_add hl hk⟩
  rwa [List.append_assoc, Nat.add_assoc, Nat.add_assoc]

theorem mono (h : Covers x n l) (hm : m ≤ n) (hk : k ≤ l) : Covers x m k := by
  intro w i j hw
  obtain ⟨n', l', hw', hn, hl⟩ := h w i j hw
  exact ⟨n', l', hw', Nat.le_trans hm hn, Nat.le_trans hk hl⟩

theorem plain (hx : ∀ b ∈ x, b ≠ 0x22 ∧ b ≠ 0x5C) : Covers x 0 0 := by
  intro w i j hw
  refine ⟨0, 0, ?_, Nat.le_refl _, Nat.le_refl _⟩
  rw [Nat.zero_add, Nat.zero_add]
  exact hw.skips hx

theorem space (hx : Ws x) : Covers x 0 0 := by
  refine plain fun b hb => ?_
  rcases hx b hb with rfl | rfl | rfl | rfl <;> decide

theorem pad (h : Covers x n l) (hy : Covers y 0 0) : Covers (x ++ y) n l := h.append hy

theorem cons (hb : b ≠ 0x22 ∧ b ≠ 0x5C) (h : Covers x n l) : Covers (b :: x) n l := by
  have hcons := (plain (List.forall_mem_singleton.mpr hb)).append h
  rwa [Nat.zero_add, Nat.zero_add] at hcons

theorem str {s : String} (h : Str x s) :
    Covers x (tally codeWeight (asBytes s)) (tally codeUs (asBytes s)) := by
  obtain ⟨hcs⟩ := h
  intro w i j hw
  obtain ⟨n', l', hwalk, hn, hl⟩ := hw.closing.chars hcs
  rw [asBytes_ofList]
  refine ⟨n', l', ?_, hn, hl⟩
  rw [List.append_assoc]
  exact .opening hwalk

end Covers

section

variable {E : List UInt8 → Value → Prop} {f : ℕ → ℕ}

theorem covers_elements
    (hE : ∀ w v, E w v → Covers w (v.total codeWeight codeWeight) (v.total codeUs codeUs))
    (h : Elements E w vs) :
    Covers w (totalValues codeWeight codeWeight vs) (totalValues codeUs codeUs vs) := by
  induction h with
  | one h => exact hE _ _ h
  | cons h _ ih =>
    rw [totalValues, totalValues]
    exact (hE _ _ h).append (ih.cons (by decide))

theorem covers_member
    (hE : ∀ w v, E w v → Covers w (v.total codeWeight codeWeight) (v.total codeUs codeUs))
    {m : String × Value} (h : Member E w m) :
    Covers w (totalEntries codeWeight codeWeight [m]) (totalEntries codeUs codeUs [m]) := by
  cases h with
  | mk hu hs hu' he =>
    have hkey := ((Covers.space hu).append (.str hs)).pad (.space hu')
    have hpair := hkey.append ((hE _ _ he).cons (b := 0x3A) (by decide))
    simpa only [totalEntries, Nat.zero_add, Nat.add_zero] using hpair

theorem covers_members
    (hE : ∀ w v, E w v → Covers w (v.total codeWeight codeWeight) (v.total codeUs codeUs))
    {ms : List (String × Value)} (h : Members E w ms) :
    Covers w (totalEntries codeWeight codeWeight ms) (totalEntries codeUs codeUs ms) := by
  induction h with
  | one h => exact covers_member hE h
  | cons h _ ih =>
    have hcons := (covers_member hE h).append (ih.cons (b := 0x2C) (by decide))
    rwa [← totalEntries_append, ← totalEntries_append] at hcons

end

theorem Grammar.Num.plain {m : Number} (h : Num w m) : ∀ b ∈ w, b ≠ 0x22 ∧ b ≠ 0x5C := by
  have hother : ∀ b ∈ [(0x2D : UInt8), 0x2B, 0x2E, 0x65, 0x45], b ≠ 0x22 ∧ b ≠ 0x5C :=
    forall_of_all (by decide)
  intro b hb
  rcases h.mem b hb with hb | hb
  · constructor
    · rintro rfl
      exact absurd hb.1 (by decide)
    · rintro rfl
      exact absurd hb.2 (by decide)
  · exact hother b hb

theorem covers_element (h : Element n w v) :
    Covers w (v.total codeWeight codeWeight) (v.total codeUs codeUs) := by
  induction n generalizing w v with
  | zero => exact h.elim
  | succ n ih =>
    obtain ⟨hu, hval, hu'⟩ := h
    have hbracket {x a b n l} (ha : a ≠ 0x22 ∧ a ≠ 0x5C) (hb : b ≠ 0x22 ∧ b ≠ 0x5C)
        (hx : Covers x n l) : Covers (a :: x ++ [b]) n l :=
      (hx.cons ha).pad (.plain (List.forall_mem_singleton.mpr hb))
    rename_i u _
    refine .pad ?_ (.space hu')
    have hcovers : Covers u (v.total codeWeight codeWeight) (v.total codeUs codeUs) := by
      cases hval with
      | string hs => exact .str hs
      | number hm => exact .plain hm.plain
      | true => exact .plain (forall_of_all (by decide))
      | false => exact .plain (forall_of_all (by decide))
      | null => exact .plain (forall_of_all (by decide))
      | emptyArray hu => exact hbracket (by decide) (by decide) (.space hu)
      | array hes => exact hbracket (by decide) (by decide) (covers_elements (fun _ _ => ih) hes)
      | emptyObject hu => exact hbracket (by decide) (by decide) (.space hu)
      | object hms =>
        exact (hbracket (by decide) (by decide) (covers_members (fun _ _ => ih) hms)).mono
          (totalEntries_collect_le _) (totalEntries_collect_le _)
    have hpad := (Covers.space hu).append hcovers
    rwa [Nat.zero_add, Nat.zero_add] at hpad

/-! ## What is printed has no escapes to spare -/

/-- A stretch of text in which escapes have at most the weight `n`. If they have this weight, then
from outside of strings it leads outside, and the letters in strings are at most `l` less `d`. -/
def Bounded (x : List UInt8) (n l d : ℕ) : Prop :=
  ∀ inside w i j, Walk inside (x ++ w) i j → ∃ inside' i₁ j₁ i₂ j₂,
    Walk inside' w i₂ j₂ ∧ i = i₁ + i₂ ∧ j = j₁ + j₂ ∧ i₁ ≤ n ∧
      (inside = false → i₁ = n → inside' = false ∧ j₁ + d ≤ l)

namespace Bounded

variable {m k d e : ℕ}

theorem append (hx : Bounded x n l d) (hy : Bounded y m k e) :
    Bounded (x ++ y) (n + m) (l + k) (d + e) := by
  intro inside w i j hw
  rw [List.append_assoc] at hw
  obtain ⟨inside₁, i₁, j₁, _, _, hw₁, rfl, rfl, hi₁, htight₁⟩ := hx _ _ _ _ hw
  obtain ⟨inside₂, i₂, j₂, i, j, hw₂, rfl, rfl, hi₂, htight₂⟩ := hy _ _ _ _ hw₁
  refine ⟨inside₂, i₁ + i₂, j₁ + j₂, i, j, hw₂, (Nat.add_assoc ..).symm, (Nat.add_assoc ..).symm,
    Nat.add_le_add hi₁ hi₂, fun hinside hi => ?_⟩
  obtain ⟨houtside, hj₁⟩ := htight₁ hinside (by omega)
  obtain ⟨houtside', hj₂⟩ := htight₂ houtside (by omega)
  exact ⟨houtside', by omega⟩

theorem plain (hx : ∀ b ∈ x, b ≠ 0x22 ∧ b ≠ 0x5C) : Bounded x 0 0 0 := by
  intro inside w i j hw
  cases inside with
  | false =>
    exact ⟨false, 0, 0, i, j, hw.of_skips hx, (Nat.zero_add i).symm, (Nat.zero_add j).symm,
      Nat.le_refl 0, fun _ _ => ⟨rfl, Nat.le_refl 0⟩⟩
  | true =>
    obtain ⟨j, hw', rfl⟩ := hw.of_raws hx
    exact ⟨true, 0, _, i, j, hw', (Nat.zero_add i).symm, rfl, Nat.le_refl 0, nofun⟩

theorem cons (hb : b ≠ 0x22 ∧ b ≠ 0x5C) (h : Bounded x n l d) : Bounded (b :: x) n l d := by
  have hcons := (plain (List.forall_mem_singleton.mpr hb)).append h
  simpa only [Nat.zero_add, List.singleton_append] using hcons

theorem bracket {a : UInt8} (ha : a ≠ 0x22 ∧ a ≠ 0x5C) (hb : b ≠ 0x22 ∧ b ≠ 0x5C)
    (h : Bounded x n l d) : Bounded (a :: x ++ [b]) n l d :=
  (h.cons ha).append (plain (List.forall_mem_singleton.mpr hb))

end Bounded

/-! ### String values -/

theorem Grammar.HexDigit.unique {i j : ℕ} (h : HexDigit b i) (h' : HexDigit b j) : i = j := by
  cases h with
  | digit h₁ h₂ =>
    cases h' with
    | digit => rfl
    | upper h₃ | lower h₃ => exact absurd (UInt8.le_trans h₃ h₂) (by decide)
  | upper h₁ h₂ =>
    cases h' with
    | upper => rfl
    | digit _ h₄ => exact absurd (UInt8.le_trans h₁ h₄) (by decide)
    | lower h₃ => exact absurd (UInt8.le_trans h₃ h₂) (by decide)
  | lower h₁ h₂ =>
    cases h' with
    | lower => rfl
    | digit _ h₄ | upper _ h₄ => exact absurd (UInt8.le_trans h₁ h₄) (by decide)

theorem Grammar.Hex4.unique {i j : ℕ} (h : Hex4 w i) (h' : Hex4 w j) : i = j := by
  cases h with | mk ha hb hc hd =>
  cases h' with | mk ha' hb' hc' hd' =>
  rw [ha.unique ha', hb.unique hb', hc.unique hc', hd.unique hd']

theorem Grammar.Escape.unique {e : UInt8} {c c' : Char} (h : Escape e c) (h' : Escape e c') :
    c = c' := by
  cases h <;> cases h' <;> rfl

/-- Inside of a string the escape that is printed for a character is read as this character. -/
theorem Walk.of_escape {c : Char} (h : Walk true (asBytes (Json.escape c) ++ w) n l) : ∃ i j,
    Walk true w i j ∧ n = codeWeight c.toNat + i ∧ l = codeUs c.toNat + j := by
  obtain ⟨e, he, hbytes⟩ | ⟨h₄, hhex, -, hbytes⟩ | ⟨hctrl, hquote, hescape, hbytes⟩ :=
    escape_cases c
  · rw [hbytes] at h
    cases h with
    | raw _ hne => exact absurd rfl hne
    | escape he' hw =>
      rw [he'.unique he, codeUs_escape he]
      exact ⟨_, _, hw, rfl, (Nat.zero_add _).symm⟩
    | unicode => nomatch he
  · rw [hbytes] at h
    generalize c.toNat = m at hhex ⊢
    cases hhex with | mk ha hb hc hd =>
    cases h with
    | raw _ hne => exact absurd rfl hne
    | escape he => nomatch he
    | unicode hhex' hw =>
      rw [hhex'.unique (.mk ha hb hc hd)]
      exact ⟨_, _, hw, rfl, rfl⟩
  · rw [hbytes] at h
    have hplain := utf8EncodeChar_plain hctrl hquote hescape
    obtain ⟨j, hw, rfl⟩ := h.of_raws fun b hb => ⟨(hplain b hb).1, (hplain b hb).2.1⟩
    rw [codeWeight_of_ne hctrl hquote hescape, tally_utf8EncodeChar fun _ => codeUs_of_ge]
    exact ⟨n, j, hw, (Nat.zero_add n).symm, rfl⟩

/-- Outside of strings only characters without escapes are skipped. -/
theorem Walk.of_escape_outside {c : Char}
    (h : Walk false (asBytes (Json.escape c) ++ w) n l) : Walk false w n l := by
  obtain ⟨e, -, hbytes⟩ | ⟨h₄, -, -, hbytes⟩ | ⟨hctrl, hquote, hescape, hbytes⟩ := escape_cases c
  · rw [hbytes] at h
    cases h with
    | skip _ hne => exact absurd rfl hne
  · rw [hbytes] at h
    cases h with
    | skip _ hne => exact absurd rfl hne
  · rw [hbytes] at h
    have hplain := utf8EncodeChar_plain hctrl hquote hescape
    exact h.of_skips fun b hb => ⟨(hplain b hb).1, (hplain b hb).2.1⟩

theorem Walk.of_escapes {cs : List Char}
    (h : Walk true ((cs.flatMap fun c => asBytes (Json.escape c)) ++ w) n l) : ∃ i j,
    Walk true w i j ∧ n = tally codeWeight (cs.flatMap String.utf8EncodeChar) + i ∧
      l = tally codeUs (cs.flatMap String.utf8EncodeChar) + j := by
  induction cs generalizing n l with
  | nil => exact ⟨n, l, h, (Nat.zero_add n).symm, (Nat.zero_add l).symm⟩
  | cons c cs ih =>
    rw [List.flatMap_cons, List.append_assoc] at h
    obtain ⟨_, _, hw, rfl, rfl⟩ := h.of_escape
    obtain ⟨i, j, hw', rfl, rfl⟩ := ih hw
    refine ⟨i, j, hw', ?_, ?_⟩
    · rw [List.flatMap_cons, tally_append, tally_utf8EncodeChar fun _ => codeWeight_of_ge,
        Nat.add_assoc]
    · rw [List.flatMap_cons, tally_append, tally_utf8EncodeChar fun _ => codeUs_of_ge,
        Nat.add_assoc]

theorem Walk.of_escapes_outside {cs : List Char}
    (h : Walk false ((cs.flatMap fun c => asBytes (Json.escape c)) ++ w) n l) :
    Walk false w n l := by
  induction cs with
  | nil => exact h
  | cons c cs ih =>
    rw [List.flatMap_cons, List.append_assoc] at h
    exact ih h.of_escape_outside

theorem bounded_printString (s : String) : Bounded (asBytes (printString s))
    (tally codeWeight (asBytes s)) (tally codeUs (asBytes s)) 0 := by
  have hbytes : asBytes (printString s) =
      0x22 :: ((s.toList.flatMap fun c => asBytes (escape c)) ++ [0x22]) := by
    rw [printString, asBytes_append, asBytes_append, asBytes_foldl]
    rfl
  intro inside w i j hw
  rw [hbytes, List.cons_append, List.append_assoc] at hw
  cases hw with
  | skip hne => exact absurd rfl hne
  | raw hne => exact absurd rfl hne
  | opening hw =>
    obtain ⟨i, j, hw', rfl, rfl⟩ := hw.of_escapes
    cases hw' with
    | raw hne => exact absurd rfl hne
    | closing hw'' =>
      exact ⟨false, _, _, i, j, hw'', rfl, rfl, Nat.le_refl _, fun _ _ => ⟨rfl, Nat.le_refl _⟩⟩
  | closing hw =>
    -- Inside and outside are exchanged, and there are no escapes.
    cases hw.of_escapes_outside with
    | skip hne => exact absurd rfl hne
    | opening hw' =>
      exact ⟨true, 0, 0, i, j, hw', (Nat.zero_add i).symm, (Nat.zero_add j).symm, Nat.zero_le _,
        fun hinside => by cases hinside⟩

/-! ### Keys -/

theorem Grammar.HexDigit.ne_quote {i : ℕ} (h : HexDigit b i) : b ≠ 0x22 := by
  rintro rfl
  cases h with
  | digit h | upper h | lower h => exact absurd h (by decide)

theorem exists_append_of_ne {k t : List UInt8} (h : k ++ 0x22 :: w = x ++ t)
    (hx : ∀ b ∈ x, b ≠ 0x22) : ∃ k', k = x ++ k' ∧ k' ++ 0x22 :: w = t := by
  obtain ⟨r, rfl, hr⟩ | ⟨k', rfl, ht⟩ := List.append_eq_append_iff.mp h
  · cases r with
    | nil => exact ⟨[], by rw [List.append_nil, List.append_nil], hr⟩
    | cons a r =>
      obtain ⟨rfl, -⟩ := List.cons.inj hr
      exact absurd rfl (hx _ (List.mem_append_right k List.mem_cons_self))
  · exact ⟨k', rfl, ht.symm⟩

/-- What there is in a walk over a printed key and its closing quote. If the backslashes of the key
are read as escapes, then these weigh less than the key, or each is a four-digit escape of a
backslash, and then letters `u` of the key are lost. -/
def KeyBounded (inside : Bool) (k w : List UInt8) (n l : ℕ) : Prop :=
  ∃ inside' i₁ j₁ i₂ j₂, Walk inside' w i₂ j₂ ∧ n = i₁ + i₂ ∧ l = j₁ + j₂ ∧
    i₁ ≤ tally codeWeight k ∧ (inside = true → i₁ = tally codeWeight k →
      inside' = false ∧ j₁ + tally codeWeight k ≤ tally codeUs k)

namespace KeyBounded

variable {inside : Bool} {k : List UInt8}

theorem outside (h : KeyBounded inside k w n l) (b : UInt8) : KeyBounded false (b :: k) w n l := by
  obtain ⟨inside', i₁, j₁, i₂, j₂, hw, hn, hl, hi₁, -⟩ := h
  refine ⟨inside', i₁, j₁, i₂, j₂, hw, hn, hl, ?_, nofun⟩
  rw [tally_cons]
  exact Nat.le_trans hi₁ (Nat.le_add_left _ _)

theorem closing (h : KeyBounded inside k w n l) : KeyBounded true (0x22 :: k) w n l := by
  have hquote : codeWeight (0x22 : UInt8).toNat = 1 := rfl
  obtain ⟨inside', i₁, j₁, i₂, j₂, hw, hn, hl, hi₁, -⟩ := h
  refine ⟨inside', i₁, j₁, i₂, j₂, hw, hn, hl, ?_, fun _ htight => ?_⟩
  · rw [tally_cons]
    omega
  · rw [tally_cons] at htight
    omega

theorem raw (hquote : b ≠ 0x22) (hescape : b ≠ 0x5C) (hctrl : 0x20 ≤ b)
    (h : KeyBounded true k w n l) : KeyBounded true (b :: k) w n (codeUs b.toNat + l) := by
  obtain ⟨inside', i₁, j₁, i₂, j₂, hw, hn, rfl, hi₁, htight⟩ := h
  have hb : codeWeight b.toNat = 0 :=
    codeWeight_of_plain (UInt8.le_iff_toNat_le.mp hctrl)
      (fun h => hquote (UInt8.toNat_inj.mp h)) fun h => hescape (UInt8.toNat_inj.mp h)
  refine ⟨inside', i₁, codeUs b.toNat + j₁, i₂, j₂, hw, hn, (Nat.add_assoc ..).symm, ?_,
    fun hinside hi => ?_⟩
  · rwa [tally_cons, hb, Nat.zero_add]
  · rw [tally_cons, hb, Nat.zero_add] at hi ⊢
    obtain ⟨houtside, hj₁⟩ := htight hinside hi
    rw [tally_cons]
    exact ⟨houtside, by omega⟩

theorem escape {e : UInt8} {c : Char} (he : Escape e c) (h : KeyBounded true k w n l) :
    KeyBounded true (0x5C :: e :: k) w (codeWeight c.toNat + n) l := by
  have hbackslash : codeWeight (0x5C : UInt8).toNat = 2 := rfl
  have hc : codeWeight c.toNat < 2 + codeWeight e.toNat := by
    cases he <;> decide
  obtain ⟨inside', i₁, j₁, i₂, j₂, hw, rfl, hl, hi₁, -⟩ := h
  refine ⟨inside', codeWeight c.toNat + i₁, j₁, i₂, j₂, hw, (Nat.add_assoc ..).symm, hl, ?_,
    fun _ htight => ?_⟩
  · simp only [tally_cons]
    omega
  · simp only [tally_cons] at htight
    omega

theorem unicode {a₁ a₂ a₃ a₄ : UInt8} (m : ℕ) (h : KeyBounded true k w n l) :
    KeyBounded true (0x5C :: 0x75 :: a₁ :: a₂ :: a₃ :: a₄ :: k) w (codeWeight m + n)
      (codeUs m + l) := by
  have hbackslash : codeWeight (0x5C : UInt8).toNat = 2 := rfl
  have hu : codeUs (0x75 : UInt8).toNat = 2 := rfl
  have hm := codeWeight_le m
  obtain ⟨inside', i₁, j₁, i₂, j₂, hw, rfl, rfl, hi₁, htight⟩ := h
  refine ⟨inside', codeWeight m + i₁, codeUs m + j₁, i₂, j₂, hw, (Nat.add_assoc ..).symm,
    (Nat.add_assoc ..).symm, ?_, fun hinside hi => ?_⟩
  · simp only [tally_cons]
    omega
  · simp only [tally_cons] at hi ⊢
    have hm' : m = 0x5C := codeWeight_eq_two (by omega)
    have hm'' : codeUs m = 0 := by rw [hm']; rfl
    obtain ⟨houtside, hj₁⟩ := htight hinside (by omega)
    exact ⟨houtside, by omega⟩

end KeyBounded

theorem keyBounded {k : List UInt8} {inside : Bool} (h : Walk inside (k ++ 0x22 :: w) n l) :
    KeyBounded inside k w n l := by
  induction hk : k.length using Nat.strongRecOn generalizing k inside n l with
  | ind len ih =>
    subst hk
    cases k with
    | nil =>
      have hzero {inside'} (hw : Walk inside' w n l) (hinside : inside = true → inside' = false) :
          KeyBounded inside [] w n l :=
        ⟨inside', 0, 0, n, l, hw, (Nat.zero_add n).symm, (Nat.zero_add l).symm, Nat.le_refl 0,
          fun h _ => ⟨hinside h, Nat.le_refl 0⟩⟩
      cases h with
      | skip hne => exact absurd rfl hne
      | raw hne => exact absurd rfl hne
      | opening h => exact hzero h nofun
      | closing h => exact hzero h fun _ => rfl
    | cons b k =>
      rw [List.cons_append] at h
      generalize ht : k ++ 0x22 :: w = t at h
      cases h with
      | skip _ _ h =>
        subst ht
        exact (ih _ (Nat.lt_succ_self _) h rfl).outside _
      | opening h =>
        subst ht
        exact (ih _ (Nat.lt_succ_self _) h rfl).outside _
      | closing h =>
        subst ht
        exact (ih _ (Nat.lt_succ_self _) h rfl).closing
      | raw hne hne' hctrl h =>
        subst ht
        exact (ih _ (Nat.lt_succ_self _) h rfl).raw hne hne' hctrl
      | @escape e c t i _ he h =>
        cases k with
        | nil =>
          -- The backslash at the end escapes the closing quote.
          obtain ⟨rfl, rfl⟩ := List.cons.inj ht
          cases he
          exact ⟨true, 1, 0, i, l, h, rfl, (Nat.zero_add l).symm, by decide,
            fun _ htight => absurd htight (by decide)⟩
        | cons e' k =>
          obtain ⟨rfl, rfl⟩ := List.cons.inj ht
          exact (ih k.length (Nat.lt_add_of_pos_right Nat.zero_lt_two) h rfl).escape he
      | @unicode a₁ a₂ a₃ a₄ m t i j hhex h =>
        have hne : ∀ b ∈ [0x75, a₁, a₂, a₃, a₄], b ≠ (0x22 : UInt8) := by
          cases hhex with
          | mk ha hb hc hd =>
            simp only [List.forall_mem_cons, List.not_mem_nil, false_implies, implies_true,
              and_true]
            exact ⟨by decide, ha.ne_quote, hb.ne_quote, hc.ne_quote, hd.ne_quote⟩
        obtain ⟨k, rfl, rfl⟩ := exists_append_of_ne (x := [0x75, a₁, a₂, a₃, a₄]) ht hne
        exact (ih k.length (by simp; omega) h rfl).unicode m

theorem bounded_key (k : String) : Bounded (0x22 :: asBytes k ++ [0x22])
    (tally codeWeight (asBytes k)) (tally codeUs (asBytes k)) (tally codeWeight (asBytes k)) := by
  intro inside w i j hw
  rw [List.cons_append, List.cons_append, List.append_assoc] at hw
  cases hw with
  | skip hne => exact absurd rfl hne
  | raw hne => exact absurd rfl hne
  | opening hw =>
    obtain ⟨inside', i₁, j₁, i₂, j₂, hw', hi, hj, hi₁, htight⟩ := keyBounded hw
    exact ⟨inside', i₁, j₁, i₂, j₂, hw', hi, hj, hi₁, fun _ => htight rfl⟩
  | closing hw =>
    obtain ⟨inside', i₁, j₁, i₂, j₂, hw', hi, hj, hi₁, -⟩ := keyBounded hw
    exact ⟨inside', i₁, j₁, i₂, j₂, hw', hi, hj, hi₁, nofun⟩

/-! ### Values -/

theorem tally_zero (w : List UInt8) : tally (fun _ => 0) w = 0 := tally_eq_zero fun _ _ => rfl

/-- `Bounded` for what is printed for `v`. The debt is the weight of the keys. -/
def PrintBounded (v : Value) : Prop :=
  Bounded (asBytes v.print) (v.total codeWeight codeWeight) (v.total codeUs codeUs)
    (v.total codeWeight fun _ => 0)

theorem bounded_printValues (hvs : ∀ v ∈ vs, PrintBounded v) (first : Bool) :
    Bounded (asBytes (printValues first vs)) (totalValues codeWeight codeWeight vs)
      (totalValues codeUs codeUs vs) (totalValues codeWeight (fun _ => 0) vs) := by
  induction vs generalizing first with
  | nil =>
    refine .plain ?_
    rw [printValues, asBytes_empty]
    exact List.forall_mem_nil _
  | cons v vs ih =>
    obtain ⟨hv, hvs⟩ := List.forall_mem_cons.mp hvs
    have hfirst := hv.append (ih hvs false)
    rw [← asBytes_printValues] at hfirst
    cases first with
    | true => exact hfirst
    | false =>
      rw [asBytes_printValues_more]
      exact (hfirst.cons (by decide)).cons (by decide)

theorem bounded_entry {k : String} (hv : PrintBounded v) :
    Bounded (entryBytes k v) (tally codeWeight (asBytes k) + v.total codeWeight codeWeight)
      (tally codeUs (asBytes k) + v.total codeUs codeUs)
      (tally codeWeight (asBytes k) + v.total codeWeight fun _ => 0) := by
  have hentry : entryBytes k v =
      (0x22 :: asBytes k ++ [0x22]) ++ (0x3A :: 0x20 :: asBytes v.print) := by
    rw [entryBytes, List.append_assoc]
    rfl
  rw [hentry]
  exact (bounded_key k).append ((hv.cons (by decide)).cons (by decide))

theorem bounded_printEntries (hes : ∀ e ∈ es, PrintBounded e.2) (first : Bool) :
    Bounded (asBytes (printEntries first es)) (totalEntries codeWeight codeWeight es)
      (totalEntries codeUs codeUs es) (totalEntries codeWeight (fun _ => 0) es) := by
  induction es generalizing first with
  | nil =>
    refine .plain ?_
    rw [printEntries, asBytes_empty]
    exact List.forall_mem_nil _
  | cons e es ih =>
    obtain ⟨k, v⟩ := e
    obtain ⟨hv, hes⟩ := List.forall_mem_cons.mp hes
    have hfirst := (bounded_entry (k := k) hv).append (ih hes false)
    rw [← asBytes_printEntries] at hfirst
    cases first with
    | true => exact hfirst
    | false =>
      rw [asBytes_printEntries_more]
      exact (hfirst.cons (by decide)).cons (by decide)

theorem bounded_print (hv : Printable n v) : PrintBounded v := by
  induction n generalizing v with
  | zero => exact hv.elim
  | succ n ih =>
    cases v with
    | string s =>
      have hstring := bounded_printString s
      rwa [← tally_zero (asBytes s)] at hstring
    | number m => exact .plain (Num.plain hv)
    | bool b =>
      cases b with
      | true => exact .plain (forall_of_all (by decide))
      | false => exact .plain (forall_of_all (by decide))
    | null => exact .plain (forall_of_all (by decide))
    | array vs =>
      rw [PrintBounded, asBytes_array]
      exact (bounded_printValues (fun v hmem => ih (hv v hmem)) true).bracket (by decide) (by decide)
    | object es =>
      rw [PrintBounded, asBytes_object]
      exact (bounded_printEntries (fun e hmem => ih (hv.2 e hmem)) true).bracket (by decide)
        (by decide)

/-! ## Round trips -/

theorem Walk.eq_zero (h : Walk inside [] n l) : inside = false ∧ n = 0 ∧ l = 0 := by
  cases h with
  | nil => exact ⟨rfl, rfl, rfl⟩

theorem plainKey_of_tally {k : String} (h : tally codeWeight (asBytes k) = 0) : plainKey k := by
  refine List.all_eq_true.mpr fun c hc => ?_
  have hle : tally codeWeight (String.utf8EncodeChar c) = 0 := by
    obtain ⟨s, t, hk⟩ := List.append_of_mem hc
    rw [asBytes, hk, List.flatMap_append, List.flatMap_cons, tally_append, tally_append] at h
    omega
  rw [tally_utf8EncodeChar fun _ => codeWeight_of_ge, codeWeight] at hle
  split at hle
  · cases hle
  · next hescape =>
    split at hle
    · cases hle
    · next hquote =>
      have hquote' : c ≠ '"' := fun h => hquote (.inl (congrArg Char.toNat h))
      have hescape' : c ≠ '\\' := fun h => hescape (congrArg Char.toNat h)
      simp only [ne_eq, hquote', hescape', not_false_eq_true, decide_true, Bool.and_true,
        decide_eq_true_eq]
      omega

theorem plainKeys_of_total (hv : Printable n v) (h : v.total codeWeight (fun _ => 0) = 0) :
    v.plainKeys := by
  induction n generalizing v with
  | zero => exact hv.elim
  | succ n ih =>
    cases v with
    | string | number | bool | null => rfl
    | array vs =>
      rw [Value.total] at h
      refine plainValues_iff.mpr ?_
      induction vs with
      | nil => exact nofun
      | cons v vs ih' =>
        obtain ⟨hhead, htail⟩ := List.forall_mem_cons.mp hv
        rw [totalValues] at h
        exact List.forall_mem_cons.mpr ⟨ih hhead (by omega), ih' htail (by omega)⟩
    | object es =>
      rw [Value.total] at h
      refine plainEntries_iff.mpr ?_
      replace hv := hv.2
      induction es with
      | nil => exact nofun
      | cons e es ih' =>
        obtain ⟨hhead, htail⟩ := List.forall_mem_cons.mp hv
        rw [totalEntries] at h
        exact List.forall_mem_cons.mpr
          ⟨⟨plainKey_of_tally (by omega), ih hhead (by omega)⟩, ih' (by omega) htail⟩

theorem plainKeys_of_element {m : ℕ} (hv : Printable n v) (h : Element m (asBytes v.print) v')
    (hsame : Same v v') : v.plainKeys := by
  obtain ⟨i, j, hwalk, hi, hj⟩ := covers_element h [] 0 0 .nil
  obtain ⟨inside, i₁, j₁, i₂, j₂, hrest, hi', hj', hle, htight⟩ := bounded_print hv _ _ _ _ hwalk
  obtain ⟨-, rfl, rfl⟩ := hrest.eq_zero
  rw [total_same hv hsame] at hi hj
  obtain ⟨-, hdebt⟩ := htight rfl (by omega)
  exact plainKeys_of_total hv (by omega)

/-- What is printed for `v`, in any order of iteration of its maps, is parsed as `v`. -/
def RoundTrips (v : Value) : Prop :=
  ∀ v', Same v v' → ∃ w, parse (asBytes v'.print) = .ok w ∧ Same v w

/-- Printing and parsing gives back what the parser has returned exactly if all keys are plain. -/
theorem roundTrips_iff {data : List UInt8} (h : parse data = .ok v) :
    RoundTrips v ↔ v.plainKeys := by
  have hv : Printable 255 v := printable_of_element (text_of_parse h)
  constructor
  · intro hround
    obtain ⟨w, hparse, hsame⟩ := hround v (.refl v)
    exact plainKeys_of_element hv (text_of_parse hparse) hsame
  · intro hplain v' hsame
    have hparse := parse_print (hv.same hsame) (plainKeys_same hv hsame hplain) Ws.nil
    rw [List.append_nil] at hparse
    exact ⟨v', hparse, hsame⟩

/-- With a plain key and a value that needs escapes. -/
theorem roundTrips_plain : ∃ v, parse (asBytes "\x7b\"a b\":\"\\\"\\\\\\n\"\x7d") = .ok v ∧
    v.plainKeys ∧ RoundTrips v := by
  have htest : (parse (asBytes "\x7b\"a b\":\"\\\"\\\\\\n\"\x7d")).toOption.any
      (fun v => v.plainKeys) = true := by
    decide +kernel
  cases hparse : parse (asBytes "\x7b\"a b\":\"\\\"\\\\\\n\"\x7d") with
  | error e =>
    rw [hparse] at htest
    cases htest
  | ok v =>
    rw [hparse] at htest
    have hplain : v.plainKeys := htest
    exact ⟨v, rfl, hplain, (roundTrips_iff hparse).mpr hplain⟩

/-- A key with a quote in it is parsed, but what is printed for it is not. -/
theorem not_roundTrips_quote : ∃ v, parse (asBytes "\x7b\"a\\\"b\":1\x7d") = .ok v ∧
    ¬ RoundTrips v := by
  have htest : (parse (asBytes "\x7b\"a\\\"b\":1\x7d")).toOption.any
      (fun v => asBytes v.print = asBytes "\x7b\"a\"b\": 1\x7d") = true := by
    decide +kernel
  cases hparse : parse (asBytes "\x7b\"a\\\"b\":1\x7d") with
  | error e =>
    rw [hparse] at htest
    cases htest
  | ok v =>
    rw [hparse] at htest
    have hprint : asBytes v.print = asBytes "\x7b\"a\"b\": 1\x7d" := of_decide_eq_true htest
    refine ⟨v, rfl, fun hround => ?_⟩
    have hfails : (parse (asBytes "\x7b\"a\"b\": 1\x7d")).isOk = false := by
      decide +kernel
    obtain ⟨w, hw, -⟩ := hround _ (.refl _)
    rw [hprint] at hw
    rw [hw] at hfails
    cases hfails

end Json

end Miniraft

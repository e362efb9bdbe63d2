import Miniraft.Verify.Request

/-!
# Spellings of HTTP requests

HTTP does not care for the case of field names and for the whitespace around field values; the
streams that spell the same message (`HttpMessage.Spells`) differ in nothing else. The headers of a
request are searched for exact names, and a value begins right behind the first colon and space, so
that the spellings of a message are the same request only if none of them is accepted, or if the
message is a GET request that announces no content, while spellings that write these names as they
are searched for always are (`HttpMessage.insensitive_iff`).
-/

namespace Miniraft

open Json (asBytes ascii)

/-! ## Texts of lines -/

section

variable {a w : List UInt8} {k v y cs : List Char} {p : Char → Bool} {c : Char}

/-- The text of bytes of ASCII. -/
def asciiText (a : List UInt8) : List Char := a.map Char.ofUInt8

theorem utf8_ascii_append (ha : ∀ b ∈ a, b ≤ 0x7F) :
    utf8 (a ++ w) = (utf8 w).map fun t => String.ofList (asciiText a ++ t.toList) := by
  induction a with
  | nil => simp [asciiText]
  | cons b a ih =>
    obtain ⟨hb, ha⟩ := List.forall_mem_cons.mp ha
    ext t
    rw [List.cons_append, utf8_eq_some_iff, Json.cons_eq_asBytes_iff hb]
    simp only [← utf8_eq_some_iff, ih ha, Option.map_eq_some_iff]
    constructor
    · rintro ⟨cs, ht, u, hu, heq⟩
      refine ⟨u, hu, ?_⟩
      rw [← String.toList_inj, String.toList_ofList, ht, ← String.ofList_inj.mp heq]
      rfl
    · rintro ⟨u, hu, rfl⟩
      exact ⟨_, String.toList_ofList, u, hu, rfl⟩

theorem utf8_concat {b : UInt8} (hb : b ≤ 0x7F) :
    utf8 (w ++ [b]) = (utf8 w).map fun t => String.ofList (t.toList ++ [Char.ofUInt8 b]) := by
  ext t
  rw [utf8_eq_some_iff, Json.concat_eq_asBytes_iff hb]
  simp only [← utf8_eq_some_iff, Option.map_eq_some_iff]
  constructor
  · rintro ⟨cs, ht, hcs⟩
    refine ⟨_, hcs, ?_⟩
    rw [← String.toList_inj, String.toList_ofList, String.toList_ofList, ht]
  · rintro ⟨u, hu, rfl⟩
    exact ⟨u.toList, String.toList_ofList, by rwa [String.ofList_toList]⟩

theorem utf8_append_ascii (ha : ∀ b ∈ a, b ≤ 0x7F) :
    utf8 (w ++ a) = (utf8 w).map fun t => String.ofList (t.toList ++ asciiText a) := by
  induction a generalizing w with
  | nil => simp [asciiText]
  | cons b a ih =>
    obtain ⟨hb, ha⟩ := List.forall_mem_cons.mp ha
    rw [List.append_cons, ih ha, utf8_concat hb, Option.map_map]
    refine congrArg (Option.map · _) (funext fun t => ?_)
    rw [Function.comp, String.toList_ofList, List.append_assoc]
    rfl

theorem splitOnce_append (hk : ':' ∉ k) : splitOnce (k ++ ':' :: y) =
    if y.head? = some ' ' then some (k, y.tail)
    else (splitOnce y).map fun x => (k ++ ':' :: x.1, x.2) := by
  induction k with
  | nil =>
    rw [List.nil_append, splitOnce]
    simp
  | cons c k ih =>
    have hc : c ≠ ':' := fun h => hk (h ▸ List.mem_cons_self)
    have hk' : ':' ∉ k := fun h => hk (List.mem_cons_of_mem _ h)
    rw [List.cons_append, splitOnce, if_neg fun h => hc h.1, ih hk']
    split
    · rfl
    · rw [Option.map_map]
      rfl

theorem rdropWhile_append : (k ++ v).rdropWhile p =
    if v.rdropWhile p = [] then k.rdropWhile p else k ++ v.rdropWhile p := by
  simp only [List.rdropWhile, List.reverse_append, List.dropWhile_append, List.isEmpty_iff,
    List.reverse_eq_nil_iff]
  split
  · rfl
  · rw [List.reverse_append, List.reverse_reverse]

theorem rdropWhile_append_of_all (h : ∀ c ∈ v, p c) : (k ++ v).rdropWhile p = k.rdropWhile p := by
  rw [rdropWhile_append, if_pos (List.rdropWhile_eq_nil_iff.mpr h)]

theorem rdropWhile_append_cons (h : p c = false) :
    (k ++ c :: v).rdropWhile p = k ++ c :: v.rdropWhile p := by
  rw [List.append_cons, rdropWhile_append]
  split
  · next hnil =>
    rw [hnil]
    exact List.rdropWhile_concat_neg _ _ _ (by rw [h]; exact Bool.false_ne_true)
  · rw [List.append_assoc]
    rfl

end

/-! ## Fields -/

/-- A space or a tab. -/
def isBlank (b : UInt8) : Bool := b = ascii ' ' || b = ascii '\t'

/-- A letter of ASCII in lower case. -/
def lower (b : UInt8) : UInt8 := if ascii 'A' ≤ b ∧ b ≤ ascii 'Z' then b + 0x20 else b

def isVisible (b : UInt8) : Bool := ascii '!' ≤ b && b ≤ ascii '~'

/-- A field of an HTTP message, the name in lower case and the value without the whitespace before
it. -/
structure HttpField where
  name : List UInt8
  value : List UInt8
  name_ne_nil : name ≠ []
  name_visible : ∀ b ∈ name, isVisible b ∧ b ≠ ascii ':'
  name_lower : name.map lower = name
  value_line : ascii '\n' ∉ value
  value_head : ∀ b ∈ value.head?, isBlank b = false
  deriving DecidableEq

/-- The line of a field: name, colon, whitespace, value, whitespace and the end of the line. -/
def fieldLine (name before value after : List UInt8) : List UInt8 :=
  name ++ ascii ':' :: (before ++ value ++ after ++ crlf)

/-- The line says what the field says. -/
def HttpField.Spells (f : HttpField) (line : List UInt8) : Prop :=
  ∃ name before after, name.map lower = f.name ∧ (∀ b ∈ before, isBlank b) ∧
    (∀ b ∈ after, isBlank b) ∧ line = fieldLine name before f.value after

/-- The headers that a request is searched for. -/
def HttpField.searched : List String := ["Content-Length", "If-Match"]

/-- The line says what the field says, and a name that is searched for is written so, with one space
behind the colon. -/
def HttpField.SpellsExactly (f : HttpField) (line : List UInt8) : Prop :=
  f.Spells line ∧ ∀ key ∈ searched, (asBytes key).map lower = f.name →
    ∃ after, (∀ b ∈ after, isBlank b) ∧ line = fieldLine (asBytes key) [ascii ' '] f.value after

section

variable {b : UInt8} {name before value after : List UInt8} {v : List Char} {t key val : String}

theorem isVisible_iff : isVisible b ↔ 0x21 ≤ b.toNat ∧ b.toNat ≤ 0x7E := by
  simp only [isVisible, Bool.and_eq_true, decide_eq_true_eq, UInt8.le_iff_toNat_le]
  rfl

theorem visible_of_lower (h : isVisible (lower b) ∧ lower b ≠ ascii ':') :
    isVisible b ∧ b ≠ ascii ':' := by
  unfold lower at h
  split at h
  · next hupper =>
    obtain ⟨hlo, hhi⟩ := hupper
    have hlo' : 0x41 ≤ b.toNat := UInt8.le_iff_toNat_le.mp hlo
    have hhi' : b.toNat ≤ 0x5A := UInt8.le_iff_toNat_le.mp hhi
    refine ⟨isVisible_iff.mpr ⟨by omega, by omega⟩, ?_⟩
    rintro rfl
    exact absurd hlo' (by decide)
  · exact h

theorem isWhitespace_of_visible (h : isVisible b) : isWhitespace (Char.ofUInt8 b) = false := by
  obtain ⟨hlo, hhi⟩ := isVisible_iff.mp h
  simp only [isWhitespace, Json.toNat_ofUInt8, Bool.or_eq_false_iff, Bool.and_eq_false_iff,
    decide_eq_false_iff_not]
  omega

theorem isWhitespace_of_blank (h : isBlank b) : isWhitespace (Char.ofUInt8 b) := by
  simp only [isBlank, Bool.or_eq_true, decide_eq_true_eq] at h
  rcases h with rfl | rfl
  · decide
  · decide

theorem ascii_of_visible (h : isVisible b) : b ≤ 0x7F := by
  rw [UInt8.le_iff_toNat_le]
  exact (isVisible_iff.mp h).2.trans (by decide)

theorem ascii_of_blank (h : isBlank b) : b ≤ 0x7F := by
  simp only [isBlank, Bool.or_eq_true, decide_eq_true_eq] at h
  rcases h with rfl | rfl
  · decide
  · decide

theorem asciiText_inj {a a' : List UInt8} (h : asciiText a = asciiText a') : a = a' := by
  refine List.map_injective_iff.mpr (fun b b' hb => ?_) h
  rw [← UInt8.toNat_inj, ← Json.toNat_ofUInt8, hb, Json.toNat_ofUInt8]

/-- The bytes of the name of a field line. -/
theorem HttpField.visible {f : HttpField} (h : name.map lower = f.name) :
    ∀ b ∈ name, isVisible b ∧ b ≠ ascii ':' := by
  intro b hb
  refine visible_of_lower (f.name_visible _ ?_)
  rw [← h]
  exact List.mem_map_of_mem hb

theorem HttpField.colon_notMem {f : HttpField} (h : name.map lower = f.name) :
    ':' ∉ asciiText name := by
  intro hmem
  obtain ⟨b, hb, hcolon⟩ := List.mem_map.mp hmem
  refine (HttpField.visible h b hb).2 ?_
  rw [← UInt8.toNat_inj, ← Json.toNat_ofUInt8, hcolon]
  rfl

theorem utf8_fieldLine {f : HttpField} (hname : name.map lower = f.name)
    (hbefore : ∀ b ∈ before, isBlank b) (hafter : ∀ b ∈ after, isBlank b) :
    utf8 (fieldLine name before value after) = (utf8 value).map fun v =>
      String.ofList (asciiText name ++ ':' :: (asciiText before ++ v.toList ++
        asciiText (after ++ crlf))) := by
  have hcrlf : ∀ b ∈ crlf, b ≤ 0x7F := Json.forall_of_all (by decide)
  have hpre : ∀ b ∈ name ++ ascii ':' :: before, b ≤ 0x7F := by
    intro b hb
    rcases List.mem_append.mp hb with hb | hb
    · exact ascii_of_visible (HttpField.visible hname b hb).1
    · rcases List.mem_cons.mp hb with rfl | hb
      · decide
      · exact ascii_of_blank (hbefore b hb)
  have hpost : ∀ b ∈ after ++ crlf, b ≤ 0x7F := by
    intro b hb
    rcases List.mem_append.mp hb with hb | hb
    · exact ascii_of_blank (hafter b hb)
    · exact hcrlf b hb
  have hline : fieldLine name before value after =
      (name ++ ascii ':' :: before) ++ (value ++ (after ++ crlf)) := by
    simp [fieldLine]
  rw [hline, utf8_ascii_append hpre, utf8_append_ascii hpost, Option.map_map]
  refine congrArg (Option.map · _) (funext fun v => ?_)
  simp [asciiText]
  rfl

theorem all_asciiText {a : List UInt8} {p : Char → Prop} :
    (∀ c ∈ asciiText a, p c) ↔ ∀ b ∈ a, p (Char.ofUInt8 b) :=
  List.forall_mem_map

/-- The line trimmed ends with the value trimmed. -/
theorem trim_fieldLine {f : HttpField} (hname : name.map lower = f.name)
    (hafter : ∀ b ∈ after, isBlank b) :
    trim (asciiText name ++ ':' :: (asciiText before ++ v ++ asciiText (after ++ crlf))) =
      asciiText name ++ ':' :: (asciiText before ++ v).rdropWhile isWhitespace := by
  have hcrlf : ∀ b ∈ crlf, isWhitespace (Char.ofUInt8 b) := Json.forall_of_all (by decide)
  have hend : ∀ c ∈ asciiText (after ++ crlf), isWhitespace c := by
    rw [all_asciiText]
    intro b hb
    rcases List.mem_append.mp hb with hb | hb
    · exact isWhitespace_of_blank (hafter b hb)
    · exact hcrlf b hb
  rw [trim, List.dropWhile_eq_self_iff.mpr, rdropWhile_append_cons (by decide),
    rdropWhile_append_of_all hend]
  intro hpos
  cases name with
  | nil => exact absurd hname.symm f.name_ne_nil
  | cons b name =>
    have hb := (HttpField.visible hname b List.mem_cons_self).1
    simp [asciiText, isWhitespace_of_visible hb]

end

/-! ## Headers of fields -/

/-- The text of the value, without the whitespace behind it. -/
def HttpField.text (f : HttpField) : Option (List Char) :=
  (utf8 f.value).map fun v => v.toList.rdropWhile isWhitespace

section

variable {f : HttpField} {line : List UInt8} {text key val : String} {cs : List Char}

theorem parseU64_of_blank (h : ∀ c ∈ cs.head?, c = ' ' ∨ c = '\t') (hne : cs ≠ []) :
    Json.parseU64 (String.ofList cs) = .error .invalidDigit := by
  cases cs with
  | nil => exact absurd rfl hne
  | cons c cs =>
    rcases h c rfl with rfl | rfl
    · rw [Json.parseU64, String.toList_ofList]
      rfl
    · rw [Json.parseU64, String.toList_ofList]
      rfl

theorem asBytes_asciiText {a : List UInt8} (ha : ∀ b ∈ a, b ≤ 0x7F) :
    asBytes (String.ofList (asciiText a)) = a := by
  have htext : utf8 (a ++ []) = some (String.ofList (asciiText a)) := by
    have hnil : utf8 [] = some "" := utf8_eq_some_iff.mpr rfl
    rw [utf8_ascii_append ha, hnil]
    simp
  rw [List.append_nil] at htext
  exact (utf8_eq_some_iff.mp htext).symm

/-- What the text of a line of `f` is made of. -/
structure HttpField.IsText (f : HttpField) (name before : List UInt8) (v : List Char)
    (text : String) : Prop where
  lower_name : name.map lower = f.name
  blank_before : ∀ b ∈ before, isBlank b
  value : (utf8 f.value).map String.toList = some v
  trim : trim text.toList =
    asciiText name ++ ':' :: (asciiText before ++ v).rdropWhile isWhitespace

theorem HttpField.IsText.of_fieldLine {name before after : List UInt8}
    (hname : name.map lower = f.name) (hbefore : ∀ b ∈ before, isBlank b)
    (hafter : ∀ b ∈ after, isBlank b)
    (htext : utf8 (fieldLine name before f.value after) = some text) :
    ∃ v, f.IsText name before v text := by
  rw [utf8_fieldLine hname hbefore hafter] at htext
  obtain ⟨v, hv, rfl⟩ := Option.map_eq_some_iff.mp htext
  refine ⟨v.toList, hname, hbefore, congrArg _ hv, ?_⟩
  rw [String.toList_ofList, trim_fieldLine hname hafter]

theorem HttpField.Spells.utf8_eq_none (h : f.Spells line) (hv : utf8 f.value = none) :
    utf8 line = none := by
  obtain ⟨name, before, after, hname, hbefore, hafter, rfl⟩ := h
  rw [utf8_fieldLine hname hbefore hafter, hv]
  rfl

theorem HttpField.Spells.isText (h : f.Spells line) (htext : utf8 line = some text) :
    ∃ name before v, f.IsText name before v text := by
  obtain ⟨name, before, after, hname, hbefore, hafter, rfl⟩ := h
  exact ⟨name, before, HttpField.IsText.of_fieldLine hname hbefore hafter htext⟩

theorem HttpField.IsText.isHeader_iff {name before : List UInt8} {v : List Char}
    (h : f.IsText name before v text) (hkey : ':' ∉ key.toList) :
    IsHeader key val text ↔ key.toList = asciiText name ∧
      (asciiText before ++ v).rdropWhile isWhitespace = ' ' :: val.toList := by
  rw [IsHeader, h.trim, splitOnce_append (HttpField.colon_notMem h.lower_name)]
  constructor
  · intro hsplit
    split at hsplit
    · next hhead =>
      obtain ⟨hname, hval⟩ := Prod.mk.inj (Option.some.inj hsplit)
      exact ⟨hname.symm, hval ▸ (List.cons_head?_tail hhead).symm⟩
    · obtain ⟨x, -, hx⟩ := Option.map_eq_some_iff.mp hsplit
      refine absurd ?_ hkey
      rw [← (Prod.mk.inj hx).1]
      simp
  · rintro ⟨hname, hval⟩
    rw [hval, hname]
    rfl

theorem HttpField.head_value {v : List Char} (h : (utf8 f.value).map String.toList = some v) :
    ∀ c ∈ v.head?, c ≠ ' ' := by
  obtain ⟨t, ht, rfl⟩ := Option.map_eq_some_iff.mp h
  rintro c hc rfl
  have hvalue : f.value = ascii ' ' :: asBytes (String.ofList t.toList.tail) := by
    rw [utf8_eq_some_iff.mp ht, eq_comm, Json.cons_eq_asBytes_iff (by decide)]
    exact ⟨t.toList.tail, (List.cons_head?_tail hc).symm, rfl⟩
  have hblank := f.value_head (ascii ' ') (by rw [hvalue]; rfl)
  exact absurd hblank (by decide)

theorem blank_of_isBlank {b : UInt8} (h : isBlank b) :
    Char.ofUInt8 b = ' ' ∨ Char.ofUInt8 b = '\t' := by
  simp only [isBlank, Bool.or_eq_true, decide_eq_true_eq] at h
  rcases h with rfl | rfl
  · exact .inl (by decide)
  · exact .inr (by decide)

theorem HttpField.IsText.text_eq {name before : List UInt8} {v : List Char}
    (h : f.IsText name before v text) : f.text = some (v.rdropWhile isWhitespace) := by
  obtain ⟨t, ht, rfl⟩ := Option.map_eq_some_iff.mp h.value
  rw [HttpField.text, ht]
  rfl

/-- A header has the name of the field. Its value is that of the field, but for whitespace before
it, which no number begins with. -/
theorem HttpField.IsText.of_isHeader {name before : List UInt8} {v : List Char}
    (h : f.IsText name before v text) (hkey : ':' ∉ key.toList) (hheader : IsHeader key val text) :
    f.name = (asBytes key).map lower ∧ f.text ≠ some [] ∧
      (f.text = some val.toList ∨ ∀ n, Json.parseU64 val ≠ .ok n) := by
  obtain ⟨hname, hval⟩ := (h.isHeader_iff hkey).mp hheader
  have hascii : ∀ b ∈ name, b ≤ 0x7F :=
    fun b hb => ascii_of_visible (HttpField.visible h.lower_name b hb).1
  have hbefore : ∀ c ∈ asciiText before, isWhitespace c :=
    all_asciiText.mpr fun b hb => isWhitespace_of_blank (h.blank_before b hb)
  rw [h.text_eq]
  rw [rdropWhile_append] at hval
  refine ⟨?_, ?_⟩
  · rw [← String.ofList_toList (s := key), hname, asBytes_asciiText hascii, h.lower_name]
  split at hval
  · rw [List.rdropWhile_eq_nil_iff.mpr hbefore] at hval
    cases hval
  next hne =>
    refine ⟨fun hnil => hne (Option.some.inj hnil), ?_⟩
    cases hb : before with
    | nil =>
      rw [hb] at hval
      have hv : v.rdropWhile isWhitespace = ' ' :: val.toList := hval
      obtain ⟨w, hw⟩ := List.rdropWhile_prefix isWhitespace v
      refine absurd rfl (HttpField.head_value h.value ' ' ?_)
      rw [← hw, hv]
      rfl
    | cons b bs =>
      rw [hb] at hval
      obtain ⟨-, hval⟩ := List.cons.inj hval
      rw [← String.ofList_toList (s := val), ← hval]
      cases bs with
      | nil => exact .inl (by rw [String.toList_ofList]; rfl)
      | cons b' bs =>
        refine .inr fun n hn => ?_
        have hblank : isBlank b' := h.blank_before b' (hb ▸ by simp)
        rw [parseU64_of_blank] at hn
        · cases hn
        · rintro c ⟨⟩
          exact blank_of_isBlank hblank
        · exact List.cons_ne_nil _ _

/-- The header that an exact line of the field is. -/
def HttpField.Says (f : HttpField) (key val : String) : Prop :=
  (asBytes key).map lower = f.name ∧ ∃ v, (utf8 f.value).map String.toList = some v ∧
    (asciiText [ascii ' '] ++ v).rdropWhile isWhitespace = ' ' :: val.toList

theorem HttpField.SpellsExactly.isHeader_iff (h : f.SpellsExactly line) (hkey : key ∈ searched)
    (htext : utf8 line = some text) : IsHeader key val text ↔ f.Says key val := by
  have hsearched : ':' ∉ key.toList ∧ key.toList = asciiText (asBytes key) := by
    rcases List.mem_pair.mp hkey with rfl | rfl
    · decide
    · decide
  have hblank : ∀ b ∈ [ascii ' '], isBlank b := Json.forall_of_all (by decide)
  constructor
  · intro hheader
    obtain ⟨name, before, v, hisText⟩ := h.1.isText htext
    have hname := (hisText.of_isHeader hsearched.1 hheader).1.symm
    obtain ⟨after, hafter, rfl⟩ := h.2 key hkey hname
    obtain ⟨v, hisText⟩ := HttpField.IsText.of_fieldLine hname hblank hafter htext
    exact ⟨hname, v, hisText.value, ((hisText.isHeader_iff hsearched.1).mp hheader).2⟩
  · rintro ⟨hname, v, hv, hval⟩
    obtain ⟨after, hafter, rfl⟩ := h.2 key hkey hname
    obtain ⟨v', hisText⟩ := HttpField.IsText.of_fieldLine hname hblank hafter htext
    obtain rfl := Option.some.inj (hv.symm.trans hisText.value)
    exact (hisText.isHeader_iff hsearched.1).mpr ⟨hsearched.2, hval⟩

end

/-! ## Lines of fields -/

section

variable {f : HttpField} {w rest line : List UInt8} {ls : List (List UInt8)}

theorem splitLine_crlf (hw : ascii '\n' ∉ w) :
    splitLine (w ++ crlf ++ rest) = (w ++ crlf, rest) := by
  have hw' : ascii '\n' ∉ w ++ [ascii '\r'] := by
    simp only [List.mem_append, List.mem_singleton, not_or]
    exact ⟨hw, by decide⟩
  have hcrlf : crlf = [ascii '\r', ascii '\n'] := by decide
  have hline := @splitLine_of_line _ rest hw'
  rw [hcrlf]
  simpa using hline

theorem lines_crlf (hw : ascii '\n' ∉ w) :
    lines (w ++ crlf ++ rest) = (w ++ crlf) :: lines rest := by
  have hne : w ++ crlf ++ rest ≠ [] := by
    rw [List.append_assoc]
    exact List.append_ne_nil_of_right_ne_nil _ (List.cons_ne_nil _ _)
  rw [lines_eq hne, splitLine_crlf hw]

theorem HttpField.Spells.exists_eq (h : f.Spells line) :
    ∃ w, ascii '\n' ∉ w ∧ w ≠ [] ∧ line = w ++ crlf := by
  obtain ⟨name, before, after, hname, hbefore, hafter, rfl⟩ := h
  have hlf : isBlank (ascii '\n') = false := by decide
  have hvisible : isVisible (ascii '\n') = false := by decide
  refine ⟨name ++ ascii ':' :: (before ++ f.value ++ after), ?_, by simp, by simp [fieldLine]⟩
  simp only [List.mem_append, List.mem_cons, not_or]
  refine ⟨fun hmem => ?_, by decide, ⟨fun hmem => ?_, f.value_line⟩, fun hmem => ?_⟩
  · exact absurd (HttpField.visible hname _ hmem).1 (by simp [hvisible])
  · exact absurd (hbefore _ hmem) (by simp [hlf])
  · exact absurd (hafter _ hmem) (by simp [hlf])

theorem lines_flatten (h : ∀ line ∈ ls, ∃ w, ascii '\n' ∉ w ∧ w ≠ [] ∧ line = w ++ crlf) :
    lines (ls.flatten ++ rest) = ls ++ lines rest := by
  induction ls with
  | nil => rfl
  | cons line ls ih =>
    obtain ⟨hline, hls⟩ := List.forall_mem_cons.mp h
    obtain ⟨w, hw, -, rfl⟩ := hline
    rw [List.flatten_cons, List.append_assoc, lines_crlf hw, ih hls]
    rfl

theorem exists_of_forall₂ {α β : Type} {R : α → β → Prop} {xs : List α} {ys : List β}
    (h : List.Forall₂ R xs ys) {y : β} (hy : y ∈ ys) : ∃ x ∈ xs, R x y := by
  induction h with
  | nil => exact absurd hy List.not_mem_nil
  | cons hxy _ ih =>
    rcases List.mem_cons.mp hy with rfl | hy
    · exact ⟨_, List.mem_cons_self, hxy⟩
    · obtain ⟨x, hx, hxy⟩ := ih hy
      exact ⟨x, List.mem_cons_of_mem _ hx, hxy⟩

theorem mapM_utf8_eq_some_iff {texts : List String} :
    ls.mapM utf8 = some texts ↔ List.Forall₂ (fun line text => utf8 line = some text) ls texts := by
  induction ls generalizing texts with
  | nil => simp [eq_comm]
  | cons line ls ih =>
    simp only [List.mapM_cons, Option.bind_eq_bind, Option.bind_eq_some_iff,
      List.forall₂_cons_left_iff, Option.pure_def, Option.some.injEq, ih]
    constructor
    · rintro ⟨text, htext, texts, htexts, rfl⟩
      exact ⟨text, texts, htext, htexts, rfl⟩
    · rintro ⟨text, texts, htext, htexts, rfl⟩
      exact ⟨text, htext, texts, htexts, rfl⟩

end

/-! ## Messages -/

structure HttpMessage where
  requestLine : List UInt8
  fields : List HttpField
  content : List UInt8
  requestLine_line : ascii '\n' ∉ requestLine

namespace HttpMessage

/-- The message with its fields in the lines `fieldLines`. -/
def stream (m : HttpMessage) (fieldLines : List (List UInt8)) : List UInt8 :=
  m.requestLine ++ crlf ++ (fieldLines.flatten ++ (crlf ++ m.content))

/-- The stream differs from others that spell the message in the case of field names and in the
whitespace around field values only. -/
def Spells (m : HttpMessage) (stream : List UInt8) : Prop :=
  ∃ fieldLines, List.Forall₂ HttpField.Spells m.fields fieldLines ∧ stream = m.stream fieldLines

section

variable {m : HttpMessage} {stream : List UInt8} {ls : List (List UInt8)} {texts : List String}
  {text : String}

theorem lines_stream (h : List.Forall₂ HttpField.Spells m.fields ls) :
    lines (splitLine (m.stream ls)).2 = ls ++ crlf :: lines m.content := by
  have hls : ∀ line ∈ ls, ∃ w, ascii '\n' ∉ w ∧ w ≠ [] ∧ line = w ++ crlf := by
    intro line hline
    obtain ⟨f, -, hf⟩ := exists_of_forall₂ h hline
    exact hf.exists_eq
  have hblank : lines (crlf ++ m.content) = crlf :: lines m.content := lines_crlf List.not_mem_nil
  rw [HttpMessage.stream, splitLine_crlf m.requestLine_line, lines_flatten hls]
  exact congrArg (ls ++ ·) hblank

theorem ne_crlf (h : List.Forall₂ HttpField.Spells m.fields ls) :
    ∀ line ∈ ls, decide (line ≠ crlf) := by
  intro line hline
  obtain ⟨f, -, hf⟩ := exists_of_forall₂ h hline
  obtain ⟨w, -, hw, rfl⟩ := hf.exists_eq
  rw [decide_eq_true_iff]
  exact fun heq => hw (List.append_left_eq_self.mp heq)

theorem headerLines_stream (h : List.Forall₂ HttpField.Spells m.fields ls) :
    headerLines (m.stream ls) = ls := by
  rw [headerLines, lines_stream h, List.takeWhile_append_of_pos (ne_crlf h)]
  simp

theorem afterBlank_stream (h : List.Forall₂ HttpField.Spells m.fields ls) :
    afterBlank (m.stream ls) = m.content := by
  rw [afterBlank, lines_stream h, List.dropWhile_append_of_pos (ne_crlf h)]
  simp [flatten_lines]

theorem requestWords_stream :
    requestWords (m.stream ls) = requestWords (m.requestLine ++ crlf) := by
  have hline := @splitLine_crlf _ [] m.requestLine_line
  rw [List.append_nil] at hline
  rw [requestWords, requestWords, HttpMessage.stream, splitLine_crlf m.requestLine_line, hline]

end

/-- The message asks for a key by the request `r`, as long as all values are texts. -/
structure Asks (m : HttpMessage) (r : Request) (key : String) : Prop where
  requestLine : ∃ word words, requestWords (m.requestLine ++ crlf) = some (word :: r.uri :: words) ∧
    Request.Method.fromStr word = .ok r.method
  getKey : r.getKey = .ok key
  text_ne_none : ∀ f ∈ m.fields, f.text ≠ none

def contentLength : List UInt8 := asBytes "content-length"

/-- The value of the field is a length that can be allocated, and so many bytes of the content (or
all of it) are a text. -/
def Readable (alloc : Request.Allocator) (m : HttpMessage) (f : HttpField) : Prop :=
  ∃ v cap body, f.text = some v ∧ Json.parseU64 (String.ofList v) = .ok cap ∧
    alloc.Provides cap ∧ m.content.take cap = asBytes body

/-- No spelling of a GET request announces anything, and no PUT request is accepted. -/
structure Indifferent (alloc : Request.Allocator) (m : HttpMessage) : Prop where
  get : ∀ r key, m.Asks r key → r.method = .get →
    ∀ f ∈ m.fields, f.name = contentLength → f.text = some []
  put : ∀ r key, m.Asks r key → r.method = .put →
    ∀ f ∈ m.fields, f.name = contentLength → ¬ m.Readable alloc f

/-- All spellings are the same client message, and no spelling of a conditional request writes
unconditionally. -/
structure Insensitive (alloc : Request.Allocator) (m : HttpMessage) : Prop where
  same : ∀ id s s', m.Spells s → m.Spells s' →
    (handleRequest alloc id s).toOption = (handleRequest alloc id s').toOption
  conditional : ∀ f ∈ m.fields, f.name = asBytes "if-match" → ∀ id s, m.Spells s →
    ∀ key value id', handleRequest alloc id s ≠ .ok (.writeRequest key value id')

section

variable {m : HttpMessage} {f : HttpField} {r : Request} {stream : List UInt8}
  {ls : List (List UInt8)} {texts : List String} {text key val body : String}
  {alloc : Request.Allocator}

theorem headerTexts_stream_iff (h : List.Forall₂ HttpField.Spells m.fields ls) :
    headerTexts (m.stream ls) = some texts ↔
      List.Forall₂ (fun line text => utf8 line = some text) ls texts := by
  rw [headerTexts, headerLines_stream h, mapM_utf8_eq_some_iff]

theorem text_eq_none_iff : f.text = none ↔ utf8 f.value = none := Option.map_eq_none_iff

theorem exists_texts_iff {fields : List HttpField}
    (h : List.Forall₂ HttpField.Spells fields ls) :
    (∃ texts, List.Forall₂ (fun line text => utf8 line = some text) ls texts) ↔
      ∀ f ∈ fields, f.text ≠ none := by
  induction h with
  | nil => exact iff_of_true ⟨[], .nil⟩ nofun
  | @cons f line fields ls hf _ ih =>
    rw [List.forall_mem_cons, ← ih]
    constructor
    · rintro ⟨_, hforall⟩
      cases hforall with
      | cons hline hls =>
        refine ⟨fun hnone => ?_, _, hls⟩
        rw [hf.utf8_eq_none (text_eq_none_iff.mp hnone)] at hline
        cases hline
    · rintro ⟨hsome, texts, hls⟩
      obtain ⟨name, before, after, hname, hbefore, hafter, rfl⟩ := hf
      obtain ⟨v, hv⟩ := Option.ne_none_iff_exists'.mp fun h => hsome (text_eq_none_iff.mpr h)
      have hline : utf8 (fieldLine name before f.value after) = _ :=
        utf8_fieldLine hname hbefore hafter
      rw [hv] at hline
      exact ⟨_ :: texts, .cons hline hls⟩

theorem exists_headerTexts_iff (h : List.Forall₂ HttpField.Spells m.fields ls) :
    (∃ texts, headerTexts (m.stream ls) = some texts) ↔ ∀ f ∈ m.fields, f.text ≠ none := by
  simp only [headerTexts_stream_iff h, exists_texts_iff h]

/-- The header for a content length comes from a field for it. -/
theorem exists_field (h : List.Forall₂ HttpField.Spells m.fields ls)
    (htexts : headerTexts (m.stream ls) = some texts)
    (hlookup : (headersOf texts).lookup "Content-Length" = some val) :
    ∃ f ∈ m.fields, f.name = contentLength ∧ f.text ≠ some [] ∧
      (f.text = some val.toList ∨ ∀ n, Json.parseU64 val ≠ .ok n) := by
  obtain ⟨text, hmem, hheader⟩ := exists_isHeader hlookup
  obtain ⟨line, hline, htext⟩ := exists_of_forall₂ ((headerTexts_stream_iff h).mp htexts) hmem
  obtain ⟨f, hf, hspells⟩ := exists_of_forall₂ h hline
  obtain ⟨name, before, v, hisText⟩ := hspells.isText htext
  obtain ⟨hname, hval⟩ := hisText.of_isHeader (by decide) hheader
  exact ⟨f, hf, hname.trans (by decide), hval⟩

theorem announced_eq_none (h : List.Forall₂ HttpField.Spells m.fields ls)
    (htexts : headerTexts (m.stream ls) = some texts)
    (hnil : ∀ f ∈ m.fields, f.name = contentLength → f.text = some []) :
    Request.announced (headersOf texts) = none := by
  rw [Request.announced, Option.map_eq_none_iff]
  by_contra hsome
  obtain ⟨val, hval⟩ := Option.ne_none_iff_exists'.mp hsome
  obtain ⟨f, hf, hname, hne, -⟩ := exists_field h htexts hval
  exact hne (hnil f hf hname)

theorem exists_readable (h : List.Forall₂ HttpField.Spells m.fields ls)
    (htexts : headerTexts (m.stream ls) = some texts)
    (hbody : Request.BodyIs alloc (headersOf texts) (afterBlank (m.stream ls)) (some body)) :
    ∃ f ∈ m.fields, f.name = contentLength ∧ m.Readable alloc f := by
  cases hbody with
  | @present cap _ hcap hle htake =>
    rw [afterBlank_stream h] at htake
    obtain ⟨val, hval, hparse⟩ := Option.map_eq_some_iff.mp hcap
    obtain ⟨f, hf, hname, -, htext⟩ := exists_field h htexts hval
    refine ⟨f, hf, hname, val.toList, cap, body, ?_, ?_, hle, htake⟩
    · exact htext.resolve_right fun hall => hall cap hparse
    · rwa [String.ofList_toList]

theorem Asks.of_readAs (h : List.Forall₂ HttpField.Spells m.fields ls)
    (hread : Request.ReadAs alloc (m.stream ls) r) (hkey : r.getKey = .ok key) : m.Asks r key := by
  obtain ⟨word, words, hwords, hmethod⟩ := hread.requestLine
  obtain ⟨texts, htexts, -⟩ := hread.headers
  rw [requestWords_stream] at hwords
  exact ⟨⟨word, words, hwords, hmethod⟩, hkey, (exists_headerTexts_iff h).mp ⟨texts, htexts⟩⟩

theorem Asks.readAs (hasks : m.Asks r key) (htexts : headerTexts (m.stream ls) = some texts)
    (hheaders : r.headers = headersOf texts)
    (hbody : Request.BodyIs alloc r.headers (afterBlank (m.stream ls)) r.body) :
    Request.ReadAs alloc (m.stream ls) r := by
  obtain ⟨word, words, hwords, hmethod⟩ := hasks.requestLine
  rw [← requestWords_stream] at hwords
  exact ⟨⟨word, words, hwords, hmethod⟩, ⟨texts, htexts, hheaders⟩, hbody⟩

theorem Asks.exists_with (h : m.Asks r key) (headers : Map String String)
    (body : Option String) :
    ∃ r', m.Asks r' key ∧ r'.method = r.method ∧ r'.headers = headers ∧ r'.body = body :=
  ⟨⟨r.method, r.uri, headers, body⟩, ⟨h.requestLine, h.getKey, h.text_ne_none⟩, rfl, rfl, rfl⟩

theorem Asks.method_eq {r' : Request} (h : m.Asks r key)
    (h' : Request.ReadAs alloc (m.stream ls) r') : r'.method = r.method := by
  obtain ⟨word, words, hwords, hmethod⟩ := h.requestLine
  obtain ⟨word', words', hwords', hmethod'⟩ := h'.requestLine
  rw [requestWords_stream, hwords] at hwords'
  obtain ⟨rfl, -⟩ := List.cons.inj (Option.some.inj hwords')
  exact (Except.ok.inj (hmethod.symm.trans hmethod')).symm

theorem tryInto_get (id : MessageID) (hget : r.method = .get) (hkey : r.getKey = .ok key) :
    r.tryInto id = .ok (.readRequest key id) := by
  rw [Request.tryInto, hget]
  dsimp only
  rw [hkey]
  rfl

/-- A PUT request is a message if it has a key and a body. -/
theorem exists_tryInto_put_iff (id : MessageID) (hput : r.method = .put) :
    (∃ message, r.tryInto id = .ok message) ↔
      ∃ key body, r.getKey = .ok key ∧ r.body = some body := by
  rw [Request.tryInto, hput]
  dsimp only
  cases r.getKey with
  | error e =>
    refine iff_of_false ?_ ?_
    · rintro ⟨message, h⟩
      split at h
      · cases h
      · cases h
    · rintro ⟨key, body, h, -⟩
      cases h
  | ok key =>
    rw [Request.requiredBody]
    cases r.body with
    | none =>
      refine iff_of_false ?_ ?_
      · rintro ⟨message, h⟩
        split at h
        · cases h
        · cases h
      · rintro ⟨key, body, -, h⟩
        cases h
    | some body =>
      refine iff_of_true ?_ ⟨key, body, rfl, rfl⟩
      split
      · exact ⟨_, rfl⟩
      · exact ⟨_, rfl⟩

/-- What all spellings of an indifferent message become. -/
theorem Indifferent.handleRequest_iff (h : m.Indifferent alloc) (hs : m.Spells stream)
    {id : MessageID} {message : ClientMessage String String} :
    handleRequest alloc id stream = .ok message ↔
      ∃ r key, m.Asks r key ∧ r.method = .get ∧ message = .readRequest key id := by
  obtain ⟨ls, hls, rfl⟩ := hs
  rw [Request.handleRequest_eq_ok_iff]
  constructor
  · rintro ⟨r, hread, hm⟩
    cases hmethod : r.method with
    | get =>
      rw [Request.tryInto, hmethod] at hm
      obtain ⟨key, hkey, hm⟩ := Except.bind_eq_ok_iff.mp hm
      exact ⟨r, key, .of_readAs hls hread hkey, hmethod, (Except.ok.inj hm).symm⟩
    | put =>
      obtain ⟨key, body, hkey, hbody⟩ := (exists_tryInto_put_iff id hmethod).mp ⟨message, hm⟩
      obtain ⟨texts, htexts, hheaders⟩ := hread.headers
      have hpresent := hread.body
      rw [hheaders, hbody] at hpresent
      obtain ⟨f, hf, hname, hreadable⟩ := exists_readable hls htexts hpresent
      exact absurd hreadable (h.put r key (.of_readAs hls hread hkey) hmethod f hf hname)
  · rintro ⟨r, key, hasks, hget, rfl⟩
    obtain ⟨texts, htexts⟩ := (exists_headerTexts_iff hls).mpr hasks.text_ne_none
    have hnone := announced_eq_none hls htexts (h.get r key hasks hget)
    obtain ⟨r', hasks', hmethod, hheaders, hbody⟩ := hasks.exists_with (headersOf texts) none
    refine ⟨r', hasks'.readAs htexts hheaders ?_, tryInto_get id (hmethod.trans hget) hasks'.getKey⟩
    rw [hheaders, hbody]
    exact .absent hnone

theorem Indifferent.insensitive (h : m.Indifferent alloc) : m.Insensitive alloc where
  same id s s' hs hs' := by
    have hiff {message : ClientMessage String String} :
        handleRequest alloc id s = .ok message ↔ handleRequest alloc id s' = .ok message :=
      (h.handleRequest_iff hs).trans (h.handleRequest_iff hs').symm
    cases hrun : handleRequest alloc id s with
    | ok message =>
      rw [hiff.mp hrun]
    | error e =>
      cases hrun' : handleRequest alloc id s' with
      | error e' => rfl
      | ok message =>
        rw [hiff.mpr hrun'] at hrun
        cases hrun
  conditional f _ _ id s hs key value id' hrun := by
    obtain ⟨r, key', -, -, hmessage⟩ := (h.handleRequest_iff hs).mp hrun
    cases hmessage

end

/-! ### Exact spellings -/

/-- The fields of the message in lines that have the names that are searched for as they are. -/
def SpellsExactly (m : HttpMessage) (stream : List UInt8) : Prop :=
  ∃ fieldLines, List.Forall₂ HttpField.SpellsExactly m.fields fieldLines ∧
    stream = m.stream fieldLines

section

variable {m : HttpMessage} {s s' : List UInt8} {ls ls' : List (List UInt8)}
  {texts texts' : List String} {key : String} {alloc : Request.Allocator}

theorem forall₂_isHeader_iff {fields : List HttpField} (hkey : key ∈ HttpField.searched)
    (h : List.Forall₂ HttpField.SpellsExactly fields ls)
    (h' : List.Forall₂ HttpField.SpellsExactly fields ls')
    (htexts : List.Forall₂ (fun line text => utf8 line = some text) ls texts)
    (htexts' : List.Forall₂ (fun line text => utf8 line = some text) ls' texts') :
    List.Forall₂ (fun text text' => ∀ val, IsHeader key val text ↔ IsHeader key val text')
      texts texts' := by
  induction h generalizing ls' texts texts' with
  | nil =>
    cases h'
    cases htexts
    cases htexts'
    exact .nil
  | cons hline _ ih =>
    cases h' with
    | cons hline' hls' =>
    cases htexts with
    | cons htext htexts =>
    cases htexts' with
    | cons htext' htexts' =>
    refine .cons (fun val => ?_) (ih hls' htexts htexts')
    exact (hline.isHeader_iff hkey htext).trans (hline'.isHeader_iff hkey htext').symm

/-- Two exact spellings of a message have the same headers, as far as they are searched for. -/
theorem SpellsExactly.same {id : MessageID} (hs : m.SpellsExactly s) (hs' : m.SpellsExactly s') :
    handleRequest alloc id s = handleRequest alloc id s' := by
  obtain ⟨ls, hls, rfl⟩ := hs
  obtain ⟨ls', hls', rfl⟩ := hs'
  have hspells := hls.imp fun _ _ h => h.1
  have hspells' := hls'.imp fun _ _ h => h.1
  have hwords : requestWords (m.stream ls) = requestWords (m.stream ls') :=
    requestWords_stream.trans requestWords_stream.symm
  have hafter : afterBlank (m.stream ls) = afterBlank (m.stream ls') :=
    (afterBlank_stream hspells).trans (afterBlank_stream hspells').symm
  by_cases hall : ∀ f ∈ m.fields, f.text ≠ none
  · obtain ⟨texts, htexts⟩ := (exists_headerTexts_iff hspells).mpr hall
    obtain ⟨texts', htexts'⟩ := (exists_headerTexts_iff hspells').mpr hall
    refine Request.handleRequest_congr hwords hafter (.inr ⟨texts, texts', htexts, htexts', ?_⟩)
    intro key hkey
    exact lookup_headersOf_congr (forall₂_isHeader_iff hkey hls hls'
      ((headerTexts_stream_iff hspells).mp htexts) ((headerTexts_stream_iff hspells').mp htexts'))
  · have hnone := mt (exists_headerTexts_iff hspells).mp hall
    have hnone' := mt (exists_headerTexts_iff hspells').mp hall
    rw [← Option.ne_none_iff_exists', not_not] at hnone hnone'
    exact Request.handleRequest_congr hwords hafter (.inl ⟨hnone, hnone'⟩)

end

/-! ### Two spellings -/

/-- The line of a field in lower case and without whitespace. -/
def plain (f : HttpField) : List UInt8 := fieldLine f.name [] f.value []

/-- The same lines, but for those of `f`, which have the name in another case and spaces. -/
def emphasized (f : HttpField) (before : List UInt8) (g : HttpField) : List UInt8 :=
  if g = f then fieldLine (asBytes "Content-Length") (ascii ' ' :: before) g.value [] else plain g

section

variable {m : HttpMessage} {f g : HttpField} {r : Request} {before : List UInt8}
  {texts : List String} {text key val body : String} {v : List Char}
  {spell : HttpField → List UInt8} {alloc : Request.Allocator}

theorem plain_spells (f : HttpField) : f.Spells (plain f) :=
  ⟨f.name, [], [], f.name_lower, nofun, nofun, rfl⟩

theorem emphasized_spells (hname : f.name = contentLength) (hbefore : ∀ b ∈ before, isBlank b)
    (g : HttpField) : g.Spells (emphasized f before g) := by
  rw [emphasized]
  split
  · next hg =>
    refine ⟨_, _, [], ?_, List.forall_mem_cons.mpr ⟨by decide, hbefore⟩, nofun, rfl⟩
    rw [hg, hname]
    decide
  · exact plain_spells g

theorem forall₂_map (h : ∀ f : HttpField, f.Spells (spell f)) :
    List.Forall₂ HttpField.Spells m.fields (m.fields.map spell) :=
  List.forall₂_map_right_iff.mpr (List.forall₂_same.mpr fun f _ => h f)

theorem not_isHeader_plain (htext : utf8 (plain f) = some text) :
    ¬ IsHeader "Content-Length" val text := by
  intro hheader
  obtain ⟨v, hisText⟩ := HttpField.IsText.of_fieldLine f.name_lower
    (List.forall_mem_nil _) (List.forall_mem_nil _) htext
  obtain ⟨hname, -⟩ := (hisText.isHeader_iff (by decide)).mp hheader
  have hkey : asciiText (asBytes "Content-Length") = "Content-Length".toList := by decide
  have hlower := f.name_lower
  rw [← asciiText_inj (hkey.trans hname)] at hlower
  exact absurd hlower (by decide)

theorem isHeader_emphasized_iff (hname : f.name = contentLength)
    (hbefore : ∀ b ∈ before, isBlank b) (hv : f.text = some v) (hne : v ≠ [])
    (htext : utf8 (emphasized f before f) = some text) :
    IsHeader "Content-Length" val text ↔ val.toList = asciiText before ++ v := by
  rw [emphasized, if_pos rfl] at htext
  have hname' : (asBytes "Content-Length").map lower = f.name := by
    rw [hname]
    decide
  obtain ⟨v', hisText⟩ := HttpField.IsText.of_fieldLine hname'
    (List.forall_mem_cons.mpr ⟨by decide, hbefore⟩) (List.forall_mem_nil _) htext
  obtain rfl := Option.some.inj (hv.symm.trans hisText.text_eq)
  rw [hisText.isHeader_iff (by decide), rdropWhile_append, if_neg hne]
  constructor
  · exact fun h => (List.cons.inj h.2).2.symm
  · intro h
    rw [h]
    exact ⟨by decide, rfl⟩

/-- Nothing is announced in lower case. -/
theorem announced_plain (htexts : headerTexts (m.stream (m.fields.map plain)) = some texts) :
    Request.announced (headersOf texts) = none := by
  rw [Request.announced, Option.map_eq_none_iff]
  by_contra hsome
  obtain ⟨val, hval⟩ := Option.ne_none_iff_exists'.mp hsome
  obtain ⟨text, hmem, hheader⟩ := exists_isHeader hval
  have hforall := (headerTexts_stream_iff (forall₂_map plain_spells)).mp htexts
  obtain ⟨line, hline, htext⟩ := exists_of_forall₂ hforall hmem
  obtain ⟨f, -, rfl⟩ := List.mem_map.mp hline
  exact not_isHeader_plain htext hheader

/-- The value of `f` is announced, but for the first space. -/
theorem announced_emphasized (hf : f ∈ m.fields) (hname : f.name = contentLength)
    (hbefore : ∀ b ∈ before, isBlank b) (hv : f.text = some v) (hne : v ≠ [])
    (htexts : headerTexts (m.stream (m.fields.map (emphasized f before))) = some texts) :
    Request.announced (headersOf texts) =
      some (Json.parseU64 (String.ofList (asciiText before ++ v))) := by
  have hspells := emphasized_spells hname hbefore
  have hforall := (headerTexts_stream_iff (forall₂_map hspells)).mp htexts
  obtain ⟨text, hmem, htext⟩ := exists_of_forall₂ (List.Forall₂.flip hforall)
    (List.mem_map_of_mem hf)
  rw [Request.announced, lookup_headersOf hmem]
  · rfl
  · rw [isHeader_emphasized_iff hname hbefore hv hne htext, String.toList_ofList]
  · intro text' hmem' val hheader
    obtain ⟨line, hline, htext'⟩ := exists_of_forall₂ hforall hmem'
    obtain ⟨g, -, rfl⟩ := List.mem_map.mp hline
    by_cases hg : g = f
    · subst hg
      rw [← String.toList_inj, String.toList_ofList]
      exact (isHeader_emphasized_iff hname hbefore hv hne htext').mp hheader
    · rw [emphasized, if_neg hg] at htext'
      exact absurd hheader (not_isHeader_plain htext')

theorem Insensitive.handleRequest {s s' : List UInt8} {id : MessageID}
    {message : ClientMessage String String} (h : m.Insensitive alloc) (hs : m.Spells s)
    (hs' : m.Spells s') (hrun : handleRequest alloc id s = .ok message) :
    Miniraft.handleRequest alloc id s' = .ok message := by
  have hsame := h.same id s s' hs hs'
  rw [hrun] at hsame
  cases hrun' : Miniraft.handleRequest alloc id s' with
  | error e =>
    rw [hrun'] at hsame
    cases hsame
  | ok message' =>
    rw [hrun'] at hsame
    exact congrArg _ (Option.some.inj hsame).symm

theorem spells_plain (m : HttpMessage) : m.Spells (m.stream (m.fields.map plain)) :=
  ⟨_, forall₂_map plain_spells, rfl⟩

theorem spells_emphasized (hname : f.name = contentLength) (hbefore : ∀ b ∈ before, isBlank b) :
    m.Spells (m.stream (m.fields.map (emphasized f before))) :=
  ⟨_, forall₂_map (emphasized_spells hname hbefore), rfl⟩

/-- With two spaces a length is no number, and in lower case it is not there at all. -/
theorem Insensitive.text_eq_nil (h : m.Insensitive alloc) (hasks : m.Asks r key)
    (hget : r.method = .get) (hf : f ∈ m.fields) (hname : f.name = contentLength) :
    f.text = some [] := by
  obtain ⟨v, hv⟩ := Option.ne_none_iff_exists'.mp (hasks.text_ne_none f hf)
  rcases eq_or_ne v [] with rfl | hne
  · exact hv
  have hbefore : ∀ b ∈ [ascii ' '], isBlank b := Json.forall_of_all (by decide)
  obtain ⟨texts, htexts⟩ :=
    (exists_headerTexts_iff (forall₂_map plain_spells)).mpr hasks.text_ne_none
  obtain ⟨r', hasks', hmethod, hheaders, hbody⟩ := hasks.exists_with (headersOf texts) none
  have hread : Request.ReadAs alloc _ r' := hasks'.readAs htexts hheaders (by
    rw [hheaders, hbody]
    exact .absent (announced_plain htexts))
  have hrun := Request.handleRequest_eq_ok_iff.mpr
    ⟨r', hread, tryInto_get 0 (hmethod.trans hget) hasks'.getKey⟩
  have hrun' := h.handleRequest (spells_plain m) (spells_emphasized hname hbefore) hrun
  obtain ⟨r'', hread'', -⟩ := Request.handleRequest_eq_ok_iff.mp hrun'
  obtain ⟨texts', htexts', hheaders'⟩ := hread''.headers
  have hannounced := announced_emphasized hf hname hbefore hv hne htexts'
  have herror : Json.parseU64 (String.ofList (asciiText [ascii ' '] ++ v)) =
      .error .invalidDigit := by
    refine parseU64_of_blank ?_ (List.cons_ne_nil _ _)
    rintro c ⟨⟩
    exact .inl (by decide)
  rw [← hheaders', herror] at hannounced
  have hbodyIs := hread''.body
  generalize r''.body = body at hbodyIs
  cases hbodyIs with
  | absent hnone =>
    rw [hannounced] at hnone
    cases hnone
  | present hcap =>
    rw [hannounced] at hcap
    cases hcap

/-- With one space a length is read, and in lower case it is not there. -/
theorem Insensitive.not_readable (h : m.Insensitive alloc) (hasks : m.Asks r key)
    (hput : r.method = .put) (hf : f ∈ m.fields) (hname : f.name = contentLength) :
    ¬ m.Readable alloc f := by
  rintro ⟨v, cap, body, hv, hparse, hle, htake⟩
  have hne : v ≠ [] := by
    rintro rfl
    cases hparse
  have hbefore : ∀ b ∈ [], isBlank b := List.forall_mem_nil _
  have hspells := forall₂_map (m := m) (emphasized_spells hname hbefore)
  obtain ⟨texts, htexts⟩ := (exists_headerTexts_iff hspells).mpr hasks.text_ne_none
  have hannounced := announced_emphasized hf hname hbefore hv hne htexts
  obtain ⟨r', hasks', hmethod, hheaders, hbody⟩ :=
    hasks.exists_with (headersOf texts) (some body)
  have hread := hasks'.readAs htexts hheaders (by
    rw [hheaders, hbody, afterBlank_stream hspells]
    exact .present (hannounced.trans (congrArg some hparse)) hle htake)
  obtain ⟨message, hm⟩ := (exists_tryInto_put_iff 0 (hmethod.trans hput)).mpr
    ⟨key, body, hasks'.getKey, hbody⟩
  have hrun := Request.handleRequest_eq_ok_iff.mpr ⟨r', hread, hm⟩
  have hrun' := h.handleRequest (spells_emphasized hname hbefore) (spells_plain m) hrun
  obtain ⟨r'', hread'', hm''⟩ := Request.handleRequest_eq_ok_iff.mp hrun'
  obtain ⟨-, body'', -, hbody''⟩ :=
    (exists_tryInto_put_iff 0 ((hasks.method_eq hread'').trans hput)).mp ⟨message, hm''⟩
  obtain ⟨texts', htexts', hheaders'⟩ := hread''.headers
  have hpresent := hread''.body
  rw [hbody'', hheaders'] at hpresent
  cases hpresent with
  | present hcap =>
    rw [announced_plain htexts'] at hcap
    cases hcap

/-- A message does not depend on how it is spelled if it is a GET request that announces nothing,
or a PUT request whose content cannot be read, or not accepted at all. It does not either if the
names that matter are written exactly. -/
theorem insensitive_iff : (m.Insensitive alloc ↔ m.Indifferent alloc) ∧
    ∀ id s s', m.SpellsExactly s → m.SpellsExactly s' →
      handleRequest alloc id s = handleRequest alloc id s' := by
  refine ⟨⟨fun h => ⟨?_, ?_⟩, Indifferent.insensitive⟩, fun id s s' hs hs' => hs.same hs'⟩
  · intro r key hasks hget f hf hname
    exact h.text_eq_nil hasks hget hf hname
  · intro r key hasks hput f hf hname
    exact h.not_readable hasks hput hf hname

end

namespace Example

open Request.Example (ample)

theorem head_of_all {o : Option UInt8} (h : o.all fun b => isBlank b = false) :
    ∀ b ∈ o, isBlank b = false := by
  rintro b rfl
  exact of_decide_eq_true h

/-- Compare and set, as `Request.Example.put`. -/
def put : HttpMessage where
  requestLine := asBytes "PUT /key/foo HTTP/1.1"
  fields := [⟨asBytes "content-length", asBytes "3", by decide, Json.forall_of_all (by decide),
    by decide, by decide, head_of_all (by decide)⟩,
    ⟨asBytes "if-match", asBytes "1", by decide, Json.forall_of_all (by decide), by decide,
      by decide, head_of_all (by decide)⟩]
  content := asBytes "bar"
  requestLine_line := by decide

theorem spells_fieldLine {f : HttpField} {name line : List UInt8} (hname : name.map lower = f.name)
    (hline : line = fieldLine name [ascii ' '] f.value []) : f.Spells line :=
  ⟨name, [ascii ' '], [], hname, Json.forall_of_all (by decide), List.forall_mem_nil _, hline⟩

theorem spells_put : put.Spells Request.Example.put := by
  refine ⟨[asBytes "Content-Length: 3\r\n", asBytes "If-Match: 1\r\n"], ?_, by decide⟩
  refine .cons ?_ (.cons ?_ .nil)
  · exact @spells_fieldLine _ (asBytes "Content-Length") _ (by decide) (by decide)
  · exact @spells_fieldLine _ (asBytes "If-Match") _ (by decide) (by decide)

def lowerPut : List UInt8 :=
  asBytes "PUT /key/foo HTTP/1.1\r\nContent-Length: 3\r\nif-match: 1\r\n\r\nbar"

theorem spells_lowerPut : put.Spells lowerPut := by
  refine ⟨[asBytes "Content-Length: 3\r\n", asBytes "if-match: 1\r\n"], ?_, by decide⟩
  refine .cons ?_ (.cons ?_ .nil)
  · exact @spells_fieldLine _ (asBytes "Content-Length") _ (by decide) (by decide)
  · exact @spells_fieldLine _ (asBytes "if-match") _ (by decide) (by decide)

/-- The line of a field for `key`, as a request is searched for it. -/
theorem spellsExactly_fieldLine {f : HttpField} {key : String} {after : List UInt8}
    (hkey : (asBytes key).map lower = f.name) (hafter : ∀ b ∈ after, isBlank b)
    (hother : ∀ key' ∈ HttpField.searched, (asBytes key').map lower = f.name → key' = key) :
    f.SpellsExactly (fieldLine (asBytes key) [ascii ' '] f.value after) := by
  refine ⟨⟨_, _, _, hkey, Json.forall_of_all (by decide), hafter, rfl⟩, fun key' hmem hname => ?_⟩
  obtain rfl := hother key' hmem hname
  exact ⟨after, hafter, rfl⟩

theorem spellsExactly_put {stream : List UInt8} (after : List UInt8)
    (hafter : ∀ b ∈ after, isBlank b)
    (hstream : stream = put.stream
      [fieldLine (asBytes "Content-Length") [ascii ' '] (asBytes "3") [],
        fieldLine (asBytes "If-Match") [ascii ' '] (asBytes "1") after]) :
    put.SpellsExactly stream := by
  refine ⟨_, .cons ?_ (.cons ?_ .nil), hstream⟩
  · refine spellsExactly_fieldLine (by decide) (List.forall_mem_nil _) fun key hkey hname => ?_
    rcases List.mem_pair.mp hkey with rfl | rfl
    · rfl
    · exact absurd hname (by decide)
  · refine spellsExactly_fieldLine (by decide) hafter fun key hkey hname => ?_
    rcases List.mem_pair.mp hkey with rfl | rfl
    · exact absurd hname (by decide)
    · rfl

def paddedPut : List UInt8 :=
  asBytes "PUT /key/foo HTTP/1.1\r\nContent-Length: 3\r\nIf-Match: 1 \t\r\n\r\nbar"

/-- Whitespace behind the condition does not matter. -/
theorem same_paddedPut : put.SpellsExactly Request.Example.put ∧ put.SpellsExactly paddedPut ∧
    handleRequest ample 1 paddedPut = .ok (.casRequest "foo" "1" "bar" 1) := by
  have hput : handleRequest ample 1 Request.Example.put = .ok (.casRequest "foo" "1" "bar" 1) := by
    decide +kernel
  have hexact : put.SpellsExactly Request.Example.put :=
    spellsExactly_put [] (List.forall_mem_nil _) (by decide)
  have hpadded : put.SpellsExactly paddedPut :=
    spellsExactly_put [ascii ' ', ascii '\t'] (Json.forall_of_all (by decide)) (by decide)
  exact ⟨hexact, hpadded, (insensitive_iff.2 1 _ _ hpadded hexact).trans hput⟩

/-- In lower case the condition is not found, and the value is set whatever there is. -/
theorem not_insensitive : (put.Spells Request.Example.put ∧
      handleRequest ample 1 Request.Example.put = .ok (.casRequest "foo" "1" "bar" 1)) ∧
    (put.Spells lowerPut ∧ handleRequest ample 1 lowerPut = .ok (.writeRequest "foo" "bar" 1)) ∧
    ¬ put.Insensitive ample := by
  have hput : handleRequest ample 1 Request.Example.put = .ok (.casRequest "foo" "1" "bar" 1) := by
    decide +kernel
  have hlower : handleRequest ample 1 lowerPut = .ok (.writeRequest "foo" "bar" 1) := by
    decide +kernel
  refine ⟨⟨spells_put, hput⟩, ⟨spells_lowerPut, hlower⟩, fun h => ?_⟩
  have hsame := h.same 1 _ _ spells_put spells_lowerPut
  rw [hput, hlower] at hsame
  cases hsame

end Example

end HttpMessage

end Miniraft

import Miniraft.Verify.Parse

/-!
# Printing

The printer writes string values with escapes, keys as they are. What it prints for a value whose
keys need no escapes is a JSON text for that value (`element_print`), whatever the order of the
entries; so it is parsed back.
-/

namespace Miniraft

namespace Json

open Grammar

variable {w : List UInt8} {v v' : Value} {n : ℕ} {es fs : Entries} {vs ws : List Value}

/-! ## Strings -/

theorem asBytes_empty : asBytes "" = [] := by
  simp [asBytes]

theorem hexDigit_digitChar {i : ℕ} (h : i < 16) :
    HexDigit (UInt8.ofNat (Nat.digitChar i).toNat) i := by
  have hdigit : ∀ i < 10, (UInt8.ofNat (Nat.digitChar i).toNat).toNat - 0x30 = i ∧
    0x30 ≤ UInt8.ofNat (Nat.digitChar i).toNat ∧ UInt8.ofNat (Nat.digitChar i).toNat ≤ 0x39 := by
    decide
  have hlower : ∀ i < 6, (UInt8.ofNat (Nat.digitChar (i + 10)).toNat).toNat - 0x61 + 10 = i + 10 ∧
    0x61 ≤ UInt8.ofNat (Nat.digitChar (i + 10)).toNat ∧
    UInt8.ofNat (Nat.digitChar (i + 10)).toNat ≤ 0x66 := by
    decide
  rcases Nat.lt_or_ge i 10 with hlt | hge
  · obtain ⟨heq, h₁, h₂⟩ := hdigit i hlt
    have := HexDigit.digit h₁ h₂
    rwa [heq] at this
  · obtain ⟨j, rfl⟩ := Nat.exists_eq_add_of_le' hge
    obtain ⟨heq, h₁, h₂⟩ := hlower j (by omega)
    have := HexDigit.lower h₁ h₂
    rwa [heq] at this

/-- The digits of a control character. -/
theorem hex4_hex04 (h : n < 0x100) : Hex4 (asBytes (hex04 n)) n := by
  have hchars : ∀ n < 0x100, List.leftpad 4 '0' (Nat.toDigits 16 n) =
      ['0', '0', Nat.digitChar (n / 16), Nat.digitChar (n % 16)] := by
    decide +kernel
  have hascii : ∀ i < 16, (Nat.digitChar i).toNat < 0x80 := by
    decide
  rw [hex04, asBytes_ofList, hchars n h]
  simp only [List.flatMap_cons, List.flatMap_nil]
  rw [utf8EncodeChar_of_lt (hascii _ (show n / 16 < 16 by omega)),
    utf8EncodeChar_of_lt (hascii _ (show n % 16 < 16 by omega))]
  have hhex : Hex4 [0x30, 0x30, UInt8.ofNat (Nat.digitChar (n / 16)).toNat,
      UInt8.ofNat (Nat.digitChar (n % 16)).toNat] (((0 * 16 + 0) * 16 + n / 16) * 16 + n % 16) :=
    .mk (.digit (by decide) (by decide)) (.digit (by decide) (by decide))
      (hexDigit_digitChar (by omega)) (hexDigit_digitChar (by omega))
  rwa [show ((0 * 16 + 0) * 16 + n / 16) * 16 + n % 16 = n by omega] at hhex

theorem escape_cases (c : Char) :
    (∃ e, Escape e c ∧ asBytes (escape c) = [0x5C, e]) ∨
      (∃ h, Hex4 h c.toNat ∧ c.toNat < 0xa0 ∧ asBytes (escape c) = 0x5C :: 0x75 :: h) ∨
      0x20 ≤ c.toNat ∧ c ≠ '"' ∧ c ≠ '\\' ∧ asBytes (escape c) = String.utf8EncodeChar c := by
  fun_cases escape c with
  | case1 h => exact .inl ⟨0x22, h ▸ .quote, by decide⟩
  | case2 _ h => exact .inl ⟨0x5C, h ▸ .backslash, by decide⟩
  | case3 _ _ h => exact .inl ⟨0x6E, h ▸ .lineFeed, by decide⟩
  | case4 _ _ _ h => exact .inl ⟨0x74, h ▸ .tab, by decide⟩
  | case5 _ _ _ _ h => exact .inl ⟨0x72, h ▸ .carriageReturn, by decide⟩
  | case6 _ _ _ _ _ h => exact .inl ⟨0x62, h ▸ .backspace, by decide⟩
  | case7 _ _ _ _ _ _ h => exact .inl ⟨0x66, h ▸ .formFeed, by decide⟩
  | case8 _ _ _ _ _ _ _ h =>
    have hlt : c.toNat < 0xa0 := by
      simp only [isControl, Bool.or_eq_true, Bool.and_eq_true, decide_eq_true_eq] at h
      omega
    have hopen : asBytes "\\u" = [0x5C, 0x75] := by decide
    rw [asBytes_append, hopen, List.cons_append, List.cons_append, List.nil_append]
    exact .inr (.inl ⟨asBytes (hex04 c.toNat), hex4_hex04 (by omega), hlt, rfl⟩)
  | case9 hquote hbackslash _ _ _ _ _ h =>
    have hge : 0x20 ≤ c.toNat := by
      simp only [isControl, Bool.or_eq_true, Bool.and_eq_true, decide_eq_true_eq, not_or] at h
      omega
    have hbytes : asBytes (String.singleton c) = String.utf8EncodeChar c := by
      simp [asBytes]
    exact .inr (.inr ⟨hge, hquote, hbackslash, hbytes⟩)

theorem chr_escape (c : Char) : Chr (asBytes (escape c)) c := by
  obtain ⟨e, he, hbytes⟩ | ⟨h, hhex, hlt, hbytes⟩ | ⟨hge, hquote, hbackslash, hbytes⟩ :=
    escape_cases c
  · exact hbytes ▸ .escape he
  · have hchr : Chr (0x5C :: 0x75 :: h) (Char.ofNat c.toNat) := by
      refine .unicode hhex (fun hhigh => ?_) fun hlow => ?_
      · exact absurd hhigh.1 (by omega)
      · exact absurd hlow.1 (by omega)
    rw [Char.ofNat_toNat] at hchr
    exact hbytes ▸ hchr
  · exact hbytes ▸ .unescaped hge hquote hbackslash

theorem chars_flatMap {f : Char → List UInt8} {cs : List Char} (h : ∀ c ∈ cs, Chr (f c) c) :
    Chars (cs.flatMap f) cs := by
  induction cs with
  | nil => exact .nil
  | cons c cs ih =>
    obtain ⟨hc, hcs⟩ := List.forall_mem_cons.mp h
    exact .cons hc (ih hcs)

theorem asBytes_foldl (buf : String) (cs : List Char) :
    asBytes (cs.foldl (fun buf c => buf ++ escape c) buf) =
      asBytes buf ++ cs.flatMap fun c => asBytes (escape c) := by
  induction cs generalizing buf with
  | nil => simp
  | cons c cs ih =>
    rw [List.foldl_cons, ih, asBytes_append, List.flatMap_cons, List.append_assoc]

theorem str_printString (s : String) : Str (asBytes (printString s)) s := by
  have hstr : Str (0x22 :: (s.toList.flatMap fun c => asBytes (escape c)) ++ [0x22])
      (String.ofList s.toList) :=
    .mk (chars_flatMap fun c _ => chr_escape c)
  rw [String.ofList_toList] at hstr
  rw [printString, asBytes_append, asBytes_append, asBytes_foldl]
  exact hstr

/-- A key without characters that would need an escape. -/
def plainKey (k : String) : Bool :=
  k.toList.all fun c => 0x20 ≤ c.toNat && c ≠ '"' && c ≠ '\\'

theorem str_key {k : String} (h : plainKey k) : Str (asBytes ("\"" ++ k ++ "\"")) k := by
  have hchars : Chars (k.toList.flatMap String.utf8EncodeChar) k.toList := by
    refine chars_flatMap fun c hc => ?_
    have hplain := List.all_eq_true.mp h c hc
    simp only [ne_eq, decide_not, Bool.and_eq_true, decide_eq_true_eq, Bool.not_eq_true',
      decide_eq_false_iff_not] at hplain
    exact .unescaped hplain.1.1 hplain.1.2 hplain.2
  have hstr := Str.mk hchars
  rw [String.ofList_toList] at hstr
  rw [asBytes_append, asBytes_append]
  exact hstr

/-! ## Values that are printed as texts -/

/-- Values with at most `n` levels of values, texts of numbers that are numbers, and distinct
keys: what the parser returns. -/
def Printable : ℕ → Value → Prop
  | 0, _ => False
  | _ + 1, .number m => Num (asBytes m.text) m
  | n + 1, .object es => (es.map Prod.fst).Nodup ∧ ∀ e ∈ es, Printable n e.2
  | n + 1, .array vs => ∀ v ∈ vs, Printable n v
  | _ + 1, _ => True

mutual

/-- All keys of all objects are plain. -/
def Value.plainKeys : Value → Bool
  | .object entries => plainEntries entries
  | .array values => plainValues values
  | _ => true

def plainEntries : Entries → Bool
  | [] => true
  | (k, v) :: entries => plainKey k && v.plainKeys && plainEntries entries

def plainValues : List Value → Bool
  | [] => true
  | v :: values => v.plainKeys && plainValues values

end

/-! ## Bytes of containers -/

/-- The bytes of an entry. -/
def entryBytes (k : String) (v : Value) : List UInt8 :=
  0x22 :: asBytes k ++ (0x22 :: 0x3A :: 0x20 :: asBytes v.print)

theorem asBytes_entry (k : String) (v : Value) :
    asBytes ("\"" ++ k ++ "\"" ++ asChar objectKvSep ++ " " ++ v.print) = entryBytes k v := by
  simp only [asBytes_append, entryBytes, List.append_assoc]
  rfl

theorem asBytes_printEntries (k : String) (v : Value) (es : Entries) :
    asBytes (printEntries true ((k, v) :: es)) =
      entryBytes k v ++ asBytes (printEntries false es) := by
  rw [printEntries, ← asBytes_entry, ← asBytes_append, if_pos rfl, String.empty_append]

theorem asBytes_printEntries_more (k : String) (v : Value) (es : Entries) :
    asBytes (printEntries false ((k, v) :: es)) =
      0x2C :: 0x20 :: asBytes (printEntries true ((k, v) :: es)) := by
  have hsep : asBytes (asChar objectEntriesSep ++ " ") = [0x2C, 0x20] := by decide
  simp only [printEntries, if_true, Bool.false_eq_true, if_false, String.append_assoc,
    String.empty_append]
  rw [← String.append_assoc, asBytes_append, hsep]
  rfl

theorem asBytes_printValues (v : Value) (vs : List Value) :
    asBytes (printValues true (v :: vs)) =
      asBytes v.print ++ asBytes (printValues false vs) := by
  rw [printValues, if_pos rfl, String.empty_append, asBytes_append]

theorem asBytes_printValues_more (v : Value) (vs : List Value) :
    asBytes (printValues false (v :: vs)) =
      0x2C :: 0x20 :: asBytes (printValues true (v :: vs)) := by
  have hsep : asBytes (asChar arraySep ++ " ") = [0x2C, 0x20] := by decide
  simp only [printValues, if_true, Bool.false_eq_true, if_false, String.append_assoc,
    String.empty_append]
  rw [← String.append_assoc, asBytes_append, hsep]
  rfl

theorem asBytes_object (es : Entries) : asBytes (Value.object es).print =
    0x7B :: asBytes (printEntries true es) ++ [0x7D] := by
  rw [Value.print, asBytes_append, asBytes_append]
  rfl

theorem asBytes_array (vs : List Value) : asBytes (Value.array vs).print =
    0x5B :: asBytes (printValues true vs) ++ [0x5D] := by
  rw [Value.print, asBytes_append, asBytes_append]
  rfl

/-! ## Texts of containers -/

section

variable {E : List UInt8 → Value → Prop}

theorem elements_print (hE : Elemental E) (hv : E (asBytes v.print) v)
    (hvs : ∀ v ∈ vs, E (asBytes v.print) v) :
    Elements E (asBytes (printValues true (v :: vs))) (v :: vs) := by
  rw [asBytes_printValues]
  induction vs generalizing v with
  | nil =>
    rw [printValues, asBytes_empty, List.append_nil]
    exact .one hv
  | cons v' vs ih =>
    obtain ⟨hv', hvs⟩ := List.forall_mem_cons.mp hvs
    rw [asBytes_printValues_more, asBytes_printValues]
    exact .cons hv ((ih hv' hvs).pad hE (u := [0x20]) (by simp [Ws]))

theorem member_print (hE : Elemental E) {k : String} (hk : plainKey k)
    (hv : E (asBytes v.print) v) : Member E (entryBytes k v) (k, v) := by
  have hpad : E (0x20 :: asBytes v.print) v := (hE.pad (u := [0x20]) (by simp [Ws])).mpr hv
  have hmember := Member.mk Ws.nil (str_key hk) Ws.nil hpad
  have hbytes : asBytes ("\"" ++ k ++ "\"") = 0x22 :: asBytes k ++ [0x22] := by
    rw [asBytes_append, asBytes_append]
    rfl
  rw [hbytes, List.nil_append, List.append_nil, List.append_assoc] at hmember
  exact hmember

theorem Grammar.Members.pad {u : List UInt8} {ms : List (String × Value)} (hu : Ws u)
    (h : Members E w ms) : Members E (u ++ w) ms := by
  have hmember {w m} (h : Member E w m) : Member E (u ++ w) m := by
    obtain ⟨u', t, rfl, hu', hpair⟩ := exists_pair h
    rw [← List.append_assoc]
    exact hpair.member (Ws.append hu hu')
  cases h with
  | one h => exact .one (hmember h)
  | cons h hs =>
    rw [← List.append_assoc]
    exact .cons (hmember h) hs

theorem members_print (hE : Elemental E) {k : String} (hk : plainKey k)
    (hv : E (asBytes v.print) v) (hes : ∀ e ∈ es, plainKey e.1 ∧ E (asBytes e.2.print) e.2) :
    Members E (asBytes (printEntries true ((k, v) :: es))) ((k, v) :: es) := by
  rw [asBytes_printEntries]
  induction es generalizing k v with
  | nil =>
    rw [printEntries, asBytes_empty, List.append_nil]
    exact .one (member_print hE hk hv)
  | cons e es ih =>
    obtain ⟨k', v'⟩ := e
    obtain ⟨⟨hk', hv'⟩, hes⟩ := List.forall_mem_cons.mp hes
    rw [asBytes_printEntries_more, asBytes_printEntries]
    exact .cons (member_print hE hk hv) ((ih hk' hv' hes).pad (u := [0x20]) (by simp [Ws]))

end

theorem foldl_insert (hnodup : ((es ++ fs).map Prod.fst).Nodup) :
    fs.foldl (fun map m => map.insert m.1 m.2) es = es ++ fs := by
  have hnew : ∀ {es : Entries} {k v}, k ∉ es.map Prod.fst → es.insert k v = es ++ [(k, v)] := by
    intro es k v hk
    induction es with
    | nil => rfl
    | cons e es ih =>
      obtain ⟨k', v'⟩ := e
      rw [List.map_cons, List.mem_cons, not_or] at hk
      rw [Entries.insert, if_neg (Ne.symm hk.1), ih hk.2]
      rfl
  induction fs generalizing es with
  | nil => simp
  | cons f fs ih =>
    have hf : f.1 ∉ es.map Prod.fst := by
      rw [List.map_append, List.map_cons] at hnodup
      exact fun hmem => (List.nodup_append.mp hnodup).2.2 _ hmem _ List.mem_cons_self rfl
    rw [List.foldl_cons, hnew hf, ih (by simpa using hnodup)]
    simp

theorem collect_of_nodup (h : (es.map Prod.fst).Nodup) : collect es = es :=
  @foldl_insert [] es h

theorem plainEntries_iff : plainEntries es ↔ ∀ e ∈ es, plainKey e.1 ∧ e.2.plainKeys := by
  induction es with
  | nil => simp [plainEntries]
  | cons e es ih => simp [plainEntries, ih]

theorem plainValues_iff : plainValues vs ↔ ∀ v ∈ vs, v.plainKeys := by
  induction vs with
  | nil => simp [plainValues]
  | cons v vs ih => simp [plainValues, ih]

/-- What is printed for a value with plain keys is an element that denotes the value. -/
theorem element_print (hv : Printable n v) (hplain : v.plainKeys) :
    Element n (asBytes v.print) v := by
  induction n generalizing v with
  | zero => exact hv.elim
  | succ n ih =>
    have hval : Val (Element n) (asBytes v.print) v := by
      cases v with
      | string s => exact .string (str_printString s)
      | number m => exact .number hv
      | bool b =>
        cases b with
        | true => exact .true
        | false => exact .false
      | null => exact .null
      | array vs =>
        have helem : ∀ v ∈ vs, Element n (asBytes v.print) v := fun v hmem =>
          ih (hv v hmem) (plainValues_iff.mp hplain v hmem)
        rw [asBytes_array]
        cases vs with
        | nil => exact .emptyArray Ws.nil
        | cons v vs =>
          obtain ⟨hv, hvs⟩ := List.forall_mem_cons.mp helem
          exact .array (elements_print (elemental_element n) hv hvs)
      | object es =>
        have hplain' := plainEntries_iff.mp hplain
        have helem : ∀ e ∈ es, plainKey e.1 ∧ Element n (asBytes e.2.print) e.2 := fun e hmem =>
          ⟨(hplain' e hmem).1, ih (hv.2 e hmem) (hplain' e hmem).2⟩
        rw [asBytes_object]
        cases es with
        | nil => exact .emptyObject Ws.nil
        | cons e es =>
          obtain ⟨⟨hk, hv'⟩, hes⟩ := List.forall_mem_cons.mp helem
          have hobject := Val.object (members_print (elemental_element n) hk hv' hes)
          rwa [collect_of_nodup hv.1] at hobject
    have hpadded := Padded.mk Ws.nil hval Ws.nil
    rwa [List.nil_append, List.append_nil] at hpadded

/-! ## What the parser returns -/

/-- The byte of a number as its text has it. -/
def lower (b : UInt8) : UInt8 := if b = 0x45 then 0x65 else b

theorem lower_ne (b : UInt8) : lower b ≠ 0x45 := by
  rw [lower]
  split
  · decide
  · next h => exact h

theorem lower_of_ne {b : UInt8} (h : b ≠ 0x45) : lower b = b := if_neg h

theorem numeral_eq (w : List UInt8) :
    numeral w = ⟨String.ofList ((w.map lower).map Char.ofUInt8)⟩ := by
  rw [numeral, List.map_map]
  congr 2
  refine List.map_congr_left fun b _ => ?_
  rw [Function.comp_apply, lower]
  split
  · rfl
  · rfl

theorem map_lower (h : ∀ b ∈ w, b ≠ 0x45) : w.map lower = w := by
  conv => rhs; rw [← List.map_id w]
  exact List.map_congr_left fun b hb => lower_of_ne (h b hb)

theorem numeral_lower (w : List UInt8) : numeral (w.map lower) = numeral w := by
  have hlower : (w.map lower).map lower = w.map lower :=
    map_lower fun b hb => by
      obtain ⟨c, -, rfl⟩ := List.mem_map.mp hb
      exact lower_ne c
  rw [numeral_eq, numeral_eq, hlower]

theorem map_lower_digits (h : ∀ b ∈ w, Digit b) : w.map lower = w :=
  map_lower fun b hb => (h b hb).ne

theorem Grammar.Exp.lower {e : List UInt8} (h : Exp e) : Exp (e.map lower) := by
  cases h with
  | none => exact .none
  | @digits e v w he hv hw =>
    rw [List.map_append, List.map_cons, map_lower_digits hw.2]
    have hsign : v.map Json.lower = v := by
      cases hv <;> rfl
    rw [hsign]
    refine .digits (.inl ?_) hv hw
    rcases he with rfl | rfl <;> rfl

/-- The bytes of a number. -/
theorem Grammar.Num.mem {m : Number} (h : Num w m) :
    ∀ b ∈ w, Digit b ∨ b ∈ [0x2D, 0x2B, 0x2E, 0x65, 0x45] := by
  have hdigits {w : List UInt8} (h : ∀ b ∈ w, Digit b) :
      ∀ b ∈ w, Digit b ∨ b ∈ [0x2D, 0x2B, 0x2E, 0x65, 0x45] :=
    fun b hb => .inl (h b hb)
  obtain ⟨hm, hi, hf, he⟩ := h
  simp only [List.forall_mem_append]
  refine ⟨⟨⟨?_, ?_⟩, ?_⟩, ?_⟩
  · cases hm with
    | none => simp
    | minus => simp
  · cases hi with
    | zero => exact hdigits (List.forall_mem_singleton.mpr ⟨by decide, by decide⟩)
    | digits h₁ h₂ hw =>
      exact hdigits (List.forall_mem_cons.mpr ⟨⟨UInt8.le_trans (by decide) h₁, h₂⟩, hw⟩)
  · cases hf with
    | none => simp
    | digits hw => exact List.forall_mem_cons.mpr ⟨.inr (by decide), hdigits hw.2⟩
  · cases he with
    | none => simp
    | digits he hv hw =>
      refine List.forall_mem_append.mpr ⟨List.forall_mem_cons.mpr ⟨?_, ?_⟩, hdigits hw.2⟩
      · rcases he with rfl | rfl <;> exact .inr (by decide)
      · cases hv <;> simp

theorem Grammar.Num.ascii {m : Number} (h : Num w m) : ∀ b ∈ w, b ≤ 0x7F := by
  have hother : ∀ b ∈ [(0x2D : UInt8), 0x2B, 0x2E, 0x65, 0x45], b ≤ 0x7F :=
    forall_of_all (by decide)
  intro b hb
  rcases h.mem b hb with hb | hb
  · exact UInt8.le_trans hb.2 (by decide)
  · exact hother b hb

theorem Grammar.Num.lower {m : Number} (h : Num w m) : Num (w.map lower) m := by
  obtain ⟨hm, hi, hf, he⟩ := h
  rename_i m i f e
  have hm' : m.map Json.lower = m := by
    cases hm <;> rfl
  have hi' : i.map Json.lower = i := by
    cases hi with
    | zero => rfl
    | @digits d _ h₁ h₂ hw =>
      rw [List.map_cons, map_lower_digits hw, lower_of_ne]
      exact Digit.ne ⟨UInt8.le_trans (by decide) h₁, h₂⟩
  have hf' : f.map Json.lower = f := by
    cases hf with
    | none => rfl
    | digits hw =>
      rw [List.map_cons, map_lower_digits hw.2]
      rfl
  have hnum := Num.mk hm hi hf he.lower
  rw [← numeral_lower (m ++ i ++ f ++ e)]
  simpa only [List.map_append, hm', hi', hf'] using hnum

theorem num_asBytes {m : Number} (h : Num w m) : Num (asBytes m.text) m := by
  have hbytes : asBytes m.text = w.map lower := by
    have hm : m = numeral w := by
      cases h with
      | mk => rfl
    have hascii : ∀ b ∈ w.map lower, b ≤ 0x7F := by
      intro b hb
      obtain ⟨c, hc, rfl⟩ := List.mem_map.mp hb
      rw [lower]
      split
      · decide
      · exact h.ascii c hc
    rw [hm, numeral_eq, asBytes_ofList, List.flatMap_map]
    conv => rhs; rw [← List.flatMap_singleton' (w.map lower)]
    exact List.flatMap_congr fun b hb => utf8EncodeChar_ofUInt8 (hascii b hb)
  rw [hbytes]
  exact h.lower

theorem mem_insert {k : String} {e : String × Value} (h : e ∈ es.insert k v) :
    e = (k, v) ∨ e ∈ es := by
  induction es with
  | nil => exact .inl (List.mem_singleton.mp h)
  | cons f es ih =>
    obtain ⟨k', v'⟩ := f
    rw [Entries.insert] at h
    split at h
    · next hk =>
      subst hk
      exact (List.mem_cons.mp h).imp_right (List.mem_cons_of_mem _)
    · rcases List.mem_cons.mp h with rfl | h
      · exact .inr List.mem_cons_self
      · exact (ih h).imp_right (List.mem_cons_of_mem _)

theorem nodup_insert {k : String} (h : (es.map Prod.fst).Nodup) :
    ((es.insert k v).map Prod.fst).Nodup := by
  induction es with
  | nil => simp [Entries.insert]
  | cons f es ih =>
    obtain ⟨k', v'⟩ := f
    rw [List.map_cons, List.nodup_cons] at h
    rw [Entries.insert]
    split
    · exact List.nodup_cons.mpr h
    · next hk =>
      refine List.nodup_cons.mpr ⟨fun hmem => ?_, ih h.2⟩
      obtain ⟨e, he, rfl⟩ := List.mem_map.mp hmem
      rcases mem_insert he with rfl | he
      · exact hk rfl
      · exact h.1 (List.mem_map.mpr ⟨e, he, rfl⟩)

theorem collect_spec (ms : List (String × Value)) :
    ((collect ms).map Prod.fst).Nodup ∧ ∀ e ∈ collect ms, e ∈ ms := by
  have hfold : ∀ (ms : List (String × Value)) {es : Entries}, (es.map Prod.fst).Nodup →
      ((ms.foldl (fun map m => map.insert m.1 m.2) es).map Prod.fst).Nodup ∧
        ∀ e ∈ ms.foldl (fun map m => map.insert m.1 m.2) es, e ∈ es ∨ e ∈ ms := by
    intro ms
    induction ms with
    | nil => exact fun hes => ⟨hes, fun e he => .inl he⟩
    | cons m ms ih =>
      intro es hes
      obtain ⟨hnodup, hmem⟩ := ih (nodup_insert (k := m.1) (v := m.2) hes)
      refine ⟨hnodup, fun e he => ?_⟩
      rcases hmem e he with he | he
      · rcases mem_insert he with rfl | he
        · exact .inr List.mem_cons_self
        · exact .inl he
      · exact .inr (List.mem_cons_of_mem _ he)
  obtain ⟨hnodup, hmem⟩ := @hfold ms [] List.nodup_nil
  exact ⟨hnodup, fun e he => (hmem e he).resolve_left List.not_mem_nil⟩

theorem Grammar.Elements.mem {E : List UInt8 → Value → Prop} (h : Elements E w vs) :
    ∀ v ∈ vs, ∃ u, E u v := by
  induction h with
  | one h => exact List.forall_mem_singleton.mpr ⟨_, h⟩
  | cons h _ ih => exact List.forall_mem_cons.mpr ⟨⟨_, h⟩, ih⟩

theorem Grammar.Members.mem {E : List UInt8 → Value → Prop} {ms : List (String × Value)}
    (h : Members E w ms) : ∀ m ∈ ms, ∃ u, E u m.2 := by
  have hmember {w m} (h : Member E w m) : ∃ u, E u m.2 := by
    cases h with
    | mk _ _ _ he => exact ⟨_, he⟩
  induction h with
  | one h => exact List.forall_mem_singleton.mpr (hmember h)
  | cons h _ ih => exact List.forall_mem_cons.mpr ⟨hmember h, ih⟩

theorem printable_of_element (h : Element n w v) : Printable n v := by
  induction n generalizing w v with
  | zero => exact h.elim
  | succ n ih =>
    obtain ⟨-, hval, -⟩ := h
    cases hval with
    | string | true | false | null => trivial
    | number h => exact num_asBytes h
    | emptyArray => exact fun _ h => absurd h List.not_mem_nil
    | array hes =>
      intro v hv
      obtain ⟨u, hu⟩ := hes.mem v hv
      exact ih hu
    | emptyObject => exact ⟨List.nodup_nil, fun _ h => absurd h List.not_mem_nil⟩
    | object hms =>
      obtain ⟨hnodup, hmem⟩ := collect_spec _
      refine ⟨hnodup, fun e he => ?_⟩
      obtain ⟨u, hu⟩ := hms.mem e (hmem e he)
      exact ih hu

/-! ## Orders of iteration -/

theorem Same.refl : ∀ v, Same v v := by
  -- The motives are for values, the entries of a map, the elements of an array, and one entry.
  refine @Value.rec (fun v => Same v v) (fun es => Shuffled Same es es)
    (fun vs => List.Forall₂ Same vs vs) (fun e => Same e.2 e.2) (fun _ => .string)
    (fun _ => .number) (fun _ => .object) (fun _ => .array) (fun _ => .bool) .null .nil ?_ .nil
    (fun _ _ => .cons) fun _ _ h => h
  exact fun e es he hes => @Shuffled.cons Same e.2 e.2 es [] es e.1 he hes

theorem Shuffled.perm {R : Value → Value → Prop} (h : Shuffled R es fs) :
    (es.map Prod.fst).Perm (fs.map Prod.fst) := by
  induction h with
  | nil => exact .nil
  | cons _ _ ih =>
    rw [List.map_cons, List.map_append, List.map_cons]
    rw [List.map_append] at ih
    exact (ih.cons _).trans List.perm_middle.symm

theorem Shuffled.mem {R : Value → Value → Prop} (h : Shuffled R es fs) :
    ∀ f ∈ fs, ∃ e ∈ es, e.1 = f.1 ∧ R e.2 f.2 := by
  induction h with
  | nil => exact fun _ h => absurd h List.not_mem_nil
  | @cons v w es fs gs k hR _ ih =>
    intro f hf
    rcases List.mem_append.mp hf with hf | hf
    · obtain ⟨e, he, h⟩ := ih f (List.mem_append_left _ hf)
      exact ⟨e, List.mem_cons_of_mem _ he, h⟩
    · rcases List.mem_cons.mp hf with rfl | hf
      · exact ⟨(k, v), List.mem_cons_self, rfl, hR⟩
      · obtain ⟨e, he, h⟩ := ih f (List.mem_append_right _ hf)
        exact ⟨e, List.mem_cons_of_mem _ he, h⟩

theorem forall₂_mem {R : Value → Value → Prop} (h : List.Forall₂ R vs ws) :
    ∀ w ∈ ws, ∃ v ∈ vs, R v w := by
  induction h with
  | nil => exact fun _ h => absurd h List.not_mem_nil
  | cons hR _ ih =>
    intro w hw
    rcases List.mem_cons.mp hw with rfl | hw
    · exact ⟨_, List.mem_cons_self, hR⟩
    · obtain ⟨v, hv, h⟩ := ih w hw
      exact ⟨v, List.mem_cons_of_mem _ hv, h⟩

theorem Printable.same (hv : Printable n v) (h : Same v v') : Printable n v' := by
  induction n generalizing v v' with
  | zero => exact hv.elim
  | succ n ih =>
    cases h with
    | string | bool | null => trivial
    | number => exact hv
    | array h =>
      intro w hw
      obtain ⟨v, hmem, hsame⟩ := forall₂_mem h w hw
      exact ih (hv v hmem) hsame
    | object h =>
      refine ⟨h.perm.nodup_iff.mp hv.1, fun f hf => ?_⟩
      obtain ⟨e, hmem, -, hsame⟩ := h.mem f hf
      exact ih (hv.2 e hmem) hsame

theorem plainKeys_same (hv : Printable n v) (h : Same v v') (hplain : v.plainKeys) :
    v'.plainKeys := by
  induction n generalizing v v' with
  | zero => exact hv.elim
  | succ n ih =>
    cases h with
    | string | bool | null | number => rfl
    | array h =>
      refine plainValues_iff.mpr fun w hw => ?_
      obtain ⟨v, hmem, hsame⟩ := forall₂_mem h w hw
      exact ih (hv v hmem) hsame (plainValues_iff.mp hplain v hmem)
    | object h =>
      refine plainEntries_iff.mpr fun f hf => ?_
      obtain ⟨e, hmem, hkey, hsame⟩ := h.mem f hf
      obtain ⟨hk, hv'⟩ := plainEntries_iff.mp hplain e hmem
      exact ⟨hkey ▸ hk, ih (hv.2 e hmem) hsame hv'⟩

/-- With plain keys, what is printed is parsed back, in any order of iteration and also with
whitespace behind it. -/
theorem parse_print (hv : Printable 255 v) (hplain : v.plainKeys) (hw : Ws w) :
    parse (asBytes v.print ++ w) = .ok v := by
  refine parse_of_text ?_
  have hprint := element_print hv hplain
  generalize asBytes v.print = t at hprint
  cases hprint with
  | mk hu hval hu' =>
    rw [List.append_assoc]
    exact .mk hu hval (Ws.append hu' hw)

/-! ## One line -/

theorem le_escape (c : Char) : ∀ b ∈ asBytes (escape c), 0x20 ≤ b := by
  have hhexDigit {b : UInt8} {i : ℕ} (h : HexDigit b i) : 0x20 ≤ b := by
    cases h with
    | digit h | upper h | lower h => exact UInt8.le_trans (by decide) h
  obtain ⟨e, he, hbytes⟩ | ⟨h, hhex, -, hbytes⟩ | ⟨hctrl, hquote, hescape, hbytes⟩ :=
    escape_cases c
  · rw [hbytes]
    cases he <;> exact forall_of_all (by decide)
  · rw [hbytes]
    generalize c.toNat = m at hhex
    cases hhex with
    | mk ha hb hc hd =>
      simp only [List.forall_mem_cons]
      exact ⟨by decide, by decide, hhexDigit ha, hhexDigit hb, hhexDigit hc, hhexDigit hd, nofun⟩
  · rw [hbytes]
    exact fun b hb => (utf8EncodeChar_plain hctrl hquote hescape b hb).2.2

theorem le_printString (s : String) : ∀ b ∈ asBytes (printString s), 0x20 ≤ b := by
  rw [printString, asBytes_append, asBytes_append, asBytes_foldl]
  refine List.forall_mem_append.mpr
    ⟨List.forall_mem_append.mpr ⟨forall_of_all (by decide), ?_⟩, forall_of_all (by decide)⟩
  refine List.forall_mem_append.mpr ⟨forall_of_all (by decide), fun b hb => ?_⟩
  obtain ⟨c, -, hb⟩ := List.mem_flatMap.mp hb
  exact le_escape c b hb

theorem le_key {k : String} (h : plainKey k) : ∀ b ∈ asBytes k, 0x20 ≤ b := by
  intro b hb
  obtain ⟨c, hc, hb⟩ := List.mem_flatMap.mp hb
  have hplain := List.all_eq_true.mp h c hc
  simp only [ne_eq, decide_not, Bool.and_eq_true, decide_eq_true_eq, Bool.not_eq_true',
    decide_eq_false_iff_not] at hplain
  exact (utf8EncodeChar_plain hplain.1.1 hplain.1.2 hplain.2 b hb).2.2

theorem le_printValues (h : ∀ v ∈ vs, ∀ b ∈ asBytes v.print, 0x20 ≤ b) (first : Bool) :
    ∀ b ∈ asBytes (printValues first vs), 0x20 ≤ b := by
  induction vs generalizing first with
  | nil =>
    rw [printValues, asBytes_empty]
    nofun
  | cons v vs ih =>
    obtain ⟨hv, hvs⟩ := List.forall_mem_cons.mp h
    have hfirst : ∀ b ∈ asBytes (printValues true (v :: vs)), 0x20 ≤ b := by
      rw [asBytes_printValues]
      exact List.forall_mem_append.mpr ⟨hv, ih hvs false⟩
    cases first with
    | true => exact hfirst
    | false =>
      rw [asBytes_printValues_more]
      simp only [List.forall_mem_cons]
      exact ⟨by decide, by decide, hfirst⟩

theorem le_printEntries
    (h : ∀ e ∈ es, plainKey e.1 ∧ ∀ b ∈ asBytes e.2.print, 0x20 ≤ b) (first : Bool) :
    ∀ b ∈ asBytes (printEntries first es), 0x20 ≤ b := by
  induction es generalizing first with
  | nil =>
    rw [printEntries, asBytes_empty]
    nofun
  | cons e es ih =>
    obtain ⟨k, v⟩ := e
    obtain ⟨⟨hk, hv⟩, hes⟩ := List.forall_mem_cons.mp h
    have hfirst : ∀ b ∈ asBytes (printEntries true ((k, v) :: es)), 0x20 ≤ b := by
      rw [asBytes_printEntries, entryBytes]
      simp only [List.forall_mem_append, List.forall_mem_cons]
      exact ⟨⟨⟨by decide, le_key hk⟩, by decide, by decide, by decide, hv⟩, ih hes false⟩
    cases first with
    | true => exact hfirst
    | false =>
      rw [asBytes_printEntries_more]
      simp only [List.forall_mem_cons]
      exact ⟨by decide, by decide, hfirst⟩

/-- With plain keys, a value is printed without control characters, and so on one line. -/
theorem le_print (hv : Printable n v) (hplain : v.plainKeys) :
    ∀ b ∈ asBytes v.print, 0x20 ≤ b := by
  have hbracket {w : List UInt8} {a b : UInt8} (ha : 0x20 ≤ a) (hb : 0x20 ≤ b)
      (hw : ∀ c ∈ w, 0x20 ≤ c) : ∀ c ∈ a :: w ++ [b], 0x20 ≤ c :=
    List.forall_mem_append.mpr
      ⟨List.forall_mem_cons.mpr ⟨ha, hw⟩, List.forall_mem_singleton.mpr hb⟩
  induction n generalizing v with
  | zero => exact hv.elim
  | succ n ih =>
    cases v with
    | string s => exact le_printString s
    | number m =>
      have hother : ∀ b ∈ [(0x2D : UInt8), 0x2B, 0x2E, 0x65, 0x45], 0x20 ≤ b :=
        forall_of_all (by decide)
      intro b hb
      rcases Num.mem hv b hb with hb | hb
      · exact UInt8.le_trans (by decide) hb.1
      · exact hother b hb
    | bool b =>
      cases b with
      | true => exact forall_of_all (by decide)
      | false => exact forall_of_all (by decide)
    | null => exact forall_of_all (by decide)
    | array vs =>
      rw [asBytes_array]
      exact hbracket (by decide) (by decide) (le_printValues
        (fun v hmem => ih (hv v hmem) (plainValues_iff.mp hplain v hmem)) true)
    | object es =>
      have hplain' := plainEntries_iff.mp hplain
      rw [asBytes_object]
      exact hbracket (by decide) (by decide) (le_printEntries
        (fun e hmem => ⟨(hplain' e hmem).1, ih (hv.2 e hmem) (hplain' e hmem).2⟩) true)

end Json

end Miniraft

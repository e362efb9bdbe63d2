import Miniraft.Json.Parser

/-!
# UTF-8 in strings

A start byte tells how many bytes follow it (`utf8Following`), as the encoding of a character does
(`utf8EncodeChar_cons`), so that the bytes taken together with a start byte are valid exactly if
they are the encoding of one character (`fromUTF8?_eq_some_iff`).
-/

namespace Miniraft

namespace Json

/-- To be decided for the members of the list only, and not for all bytes there are. -/
theorem forall_of_all {α : Type} {l : List α} {P : α → Prop} [DecidablePred P]
    (h : l.all fun b => P b) : ∀ b ∈ l, P b := by
  simpa using h

theorem asBytes_append (s t : String) : asBytes (s ++ t) = asBytes s ++ asBytes t := by
  simp [asBytes]

theorem asBytes_ofList (cs : List Char) :
    asBytes (String.ofList cs) = cs.flatMap String.utf8EncodeChar := by
  rw [asBytes, String.toList_ofList]

theorem toByteArray_eq (s : String) : s.toByteArray = (asBytes s).toByteArray := by
  rw [← String.utf8Encode_toList]
  rfl

theorem toByteArray_inj {v w : List UInt8} : v.toByteArray = w.toByteArray ↔ v = w := by
  constructor
  · intro h
    have hdata := congrArg ByteArray.data h
    rw [List.data_toByteArray, List.data_toByteArray] at hdata
    exact List.toArray_inj hdata
  · rintro rfl
    rfl

/-- `str::from_utf8` gives back a string from its bytes, and nothing from other bytes. -/
theorem fromUTF8?_eq_some_iff_asBytes {w : List UInt8} {t : String} :
    String.fromUTF8? w.toByteArray = some t ↔ w = asBytes t := by
  rw [← toByteArray_inj, ← toByteArray_eq, String.fromUTF8?]
  constructor
  · intro h
    split at h
    · obtain rfl := Option.some.inj h
      rfl
    · cases h
  · intro h
    rw [dif_pos (h ▸ t.isValidUTF8), Option.some.injEq, ← String.toByteArray_inj]
    exact h

theorem utf8EncodeChar_of_lt {c : Char} (h : c.toNat < 0x80) :
    String.utf8EncodeChar c = [UInt8.ofNat c.toNat] := by
  rw [String.utf8EncodeChar]
  exact if_pos (Nat.le_of_lt_succ h)

/-- The first byte of a character outside ASCII tells the number of the others. -/
theorem utf8EncodeChar_cons {c : Char} (h : 0x80 ≤ c.toNat) :
    ∃ b w, String.utf8EncodeChar c = b :: w ∧ 0x80 ≤ b ∧ utf8Following b = some w.length := by
  have h2 : ∀ x < 0x20, 0x80 ≤ UInt8.ofNat (x + 0xc0) ∧
    utf8Following (UInt8.ofNat (x + 0xc0)) = some 1 := by decide
  have h3 : ∀ x < 0x10, 0x80 ≤ UInt8.ofNat (x + 0xe0) ∧
    utf8Following (UInt8.ofNat (x + 0xe0)) = some 2 := by decide
  have h4 : ∀ x < 0x08, 0x80 ≤ UInt8.ofNat (x + 0xf0) ∧
    utf8Following (UInt8.ofNat (x + 0xf0)) = some 3 := by decide
  fun_cases String.utf8EncodeChar c with
  | case1 v hv => exact absurd h (Nat.not_le.mpr (Nat.lt_succ_of_le hv))
  | case2 v => exact ⟨_, _, rfl, h2 _ (Nat.mod_lt _ (by decide))⟩
  | case3 v => exact ⟨_, _, rfl, h3 _ (Nat.mod_lt _ (by decide))⟩
  | case4 v => exact ⟨_, _, rfl, h4 _ (Nat.mod_lt _ (by decide))⟩

theorem utf8EncodeChar_ge {c : Char} (h : 0x80 ≤ c.toNat) :
    ∀ b ∈ String.utf8EncodeChar c, 0x80 ≤ b.toNat := by
  have hge : ∀ x < 0x40, ∀ y ∈ [0x80, 0xc0], 0x80 ≤ (UInt8.ofNat (x + y)).toNat := by decide
  have hfirst : ∀ x < 0x10, 0x80 ≤ (UInt8.ofNat (x + 0xe0)).toNat := by decide
  have hfirst' : ∀ x < 0x08, 0x80 ≤ (UInt8.ofNat (x + 0xf0)).toNat := by decide
  fun_cases String.utf8EncodeChar c with
  | case1 v hv => exact absurd h (Nat.not_le.mpr (Nat.lt_succ_of_le hv))
  | case2 v =>
    simp only [List.forall_mem_cons, List.not_mem_nil, false_implies, implies_true, and_true]
    exact ⟨hge _ (by omega) _ (by simp), hge _ (Nat.mod_lt _ (by decide)) _ (by simp)⟩
  | case3 v =>
    simp only [List.forall_mem_cons, List.not_mem_nil, false_implies, implies_true, and_true]
    exact ⟨hfirst _ (Nat.mod_lt _ (by decide)), hge _ (Nat.mod_lt _ (by decide)) _ (by simp),
      hge _ (Nat.mod_lt _ (by decide)) _ (by simp)⟩
  | case4 v =>
    simp only [List.forall_mem_cons, List.not_mem_nil, false_implies, implies_true, and_true]
    exact ⟨hfirst' _ (Nat.mod_lt _ (by decide)), hge _ (Nat.mod_lt _ (by decide)) _ (by simp),
      hge _ (Nat.mod_lt _ (by decide)) _ (by simp), hge _ (Nat.mod_lt _ (by decide)) _ (by simp)⟩

theorem toNat_ofUInt8 {b : UInt8} : (Char.ofUInt8 b).toNat = b.toNat := UInt8.toNat_toUInt32 b

theorem utf8EncodeChar_ofUInt8 {b : UInt8} (hb : b ≤ 0x7F) :
    String.utf8EncodeChar (Char.ofUInt8 b) = [b] := by
  have hlt : b.toNat < 0x80 := Nat.lt_succ_of_le (UInt8.le_iff_toNat_le.mp hb)
  rw [utf8EncodeChar_of_lt (toNat_ofUInt8 ▸ hlt), toNat_ofUInt8, UInt8.ofNat_toNat]

theorem eq_ofUInt8 {b : UInt8} {c : Char} (hc : c.toNat < 0x80) (h : UInt8.ofNat c.toNat = b) :
    c = Char.ofUInt8 b := by
  rw [← Char.toNat_inj, toNat_ofUInt8, ← h, UInt8.toNat_ofNat_of_lt' (Nat.lt_trans hc (by decide))]

/-- A byte of ASCII in front of a text is a character of it. -/
theorem cons_eq_asBytes_iff {b : UInt8} {w : List UInt8} {t : String} (hb : b ≤ 0x7F) :
    b :: w = asBytes t ↔ ∃ cs, t.toList = Char.ofUInt8 b :: cs ∧ w = asBytes (String.ofList cs) := by
  constructor
  · intro h
    rw [asBytes] at h
    cases hcs : t.toList with
    | nil =>
      rw [hcs] at h
      cases h
    | cons c cs =>
      rw [hcs, List.flatMap_cons] at h
      rcases Nat.lt_or_ge c.toNat 0x80 with hlt | hge
      · rw [utf8EncodeChar_of_lt hlt] at h
        obtain ⟨hb', hw⟩ := List.cons.inj h
        exact ⟨cs, by rw [eq_ofUInt8 hlt hb'.symm], by rw [asBytes_ofList]; exact hw⟩
      · obtain ⟨b', w', henc, hb', -⟩ := utf8EncodeChar_cons hge
        rw [henc] at h
        obtain ⟨rfl, -⟩ := List.cons.inj h
        exact absurd (UInt8.le_trans hb' hb) (by decide)
  · rintro ⟨cs, ht, rfl⟩
    rw [asBytes_ofList, show asBytes t = t.toList.flatMap String.utf8EncodeChar from rfl, ht,
      List.flatMap_cons, utf8EncodeChar_ofUInt8 hb]
    rfl

/-- A byte of ASCII behind a text is a character of it. -/
theorem concat_eq_asBytes_iff {b : UInt8} {w : List UInt8} {t : String} (hb : b ≤ 0x7F) :
    w ++ [b] = asBytes t ↔
      ∃ cs, t.toList = cs ++ [Char.ofUInt8 b] ∧ w = asBytes (String.ofList cs) := by
  constructor
  · intro h
    rw [asBytes] at h
    rcases List.eq_nil_or_concat t.toList with hcs | ⟨cs, c, hcs⟩
    · rw [hcs] at h
      exact absurd h (List.append_ne_nil_of_right_ne_nil _ (List.cons_ne_nil _ _))
    · rw [List.concat_eq_append] at hcs
      rw [hcs, List.flatMap_append, List.flatMap_singleton] at h
      rcases Nat.lt_or_ge c.toNat 0x80 with hlt | hge
      · rw [utf8EncodeChar_of_lt hlt] at h
        obtain ⟨hw, hb'⟩ := List.append_inj' h rfl
        obtain ⟨hb', -⟩ := List.cons.inj hb'
        exact ⟨cs, by rw [hcs, eq_ofUInt8 hlt hb'.symm], by rw [asBytes_ofList]; exact hw⟩
      · have hlast : b ∈ String.utf8EncodeChar c := by
          obtain ⟨b', w', henc, -⟩ := utf8EncodeChar_cons hge
          have hmem := congrArg List.getLast? h
          rw [List.getLast?_concat, henc, List.getLast?_append_cons] at hmem
          rw [henc]
          exact List.mem_of_getLast? hmem.symm
        have hge' := utf8EncodeChar_ge hge b hlast
        exact absurd (UInt8.le_iff_toNat_le.mp hb) (Nat.not_le.mpr hge')
  · rintro ⟨cs, ht, rfl⟩
    rw [asBytes_ofList, show asBytes t = t.toList.flatMap String.utf8EncodeChar from rfl, ht,
      List.flatMap_append, List.flatMap_singleton, utf8EncodeChar_ofUInt8 hb]

/-- The bytes of a character that needs no escape in a string. -/
theorem utf8EncodeChar_plain {c : Char} (hctrl : 0x20 ≤ c.toNat) (hquote : c ≠ '"')
    (hescape : c ≠ '\\') :
    ∀ b ∈ String.utf8EncodeChar c, b ≠ 0x22 ∧ b ≠ 0x5C ∧ 0x20 ≤ b := by
  have hne : ∀ m < 0x80, UInt8.ofNat m = 0x22 → m = 0x22 := by decide
  have hne' : ∀ m < 0x80, UInt8.ofNat m = 0x5C → m = 0x5C := by decide
  have hle : ∀ m < 0x80, 0x20 ≤ m → 0x20 ≤ UInt8.ofNat m := by decide
  intro b hb
  rcases Nat.lt_or_ge c.toNat 0x80 with hlt | hge
  · rw [utf8EncodeChar_of_lt hlt, List.mem_singleton] at hb
    subst hb
    refine ⟨fun h => hquote ?_, fun h => hescape ?_, hle _ hlt hctrl⟩
    · exact Char.toNat_inj.mp (hne _ hlt h)
    · exact Char.toNat_inj.mp (hne' _ hlt h)
  · have hb' := utf8EncodeChar_ge hge b hb
    refine ⟨?_, ?_, UInt8.le_iff_toNat_le.mpr (Nat.le_trans (by decide) hb')⟩
    · rintro rfl
      exact absurd hb' (by decide)
    · rintro rfl
      exact absurd hb' (by decide)

theorem fromUTF8?_eq_some_iff {b : UInt8} {w : List UInt8} {t : String} (hb : 0x80 ≤ b)
    (hw : utf8Following b = some w.length) : String.fromUTF8? (b :: w).toByteArray = some t ↔
      ∃ c : Char, 0x80 ≤ c.toNat ∧ String.utf8EncodeChar c = b :: w ∧ t = String.singleton c := by
  rw [fromUTF8?_eq_some_iff_asBytes]
  constructor
  · intro h
    cases hcs : t.toList with
    | nil => simp [asBytes, hcs] at h
    | cons c cs =>
      rw [asBytes, hcs, List.flatMap_cons] at h
      rcases Nat.lt_or_ge c.toNat 0x80 with hlt | hge
      · rw [utf8EncodeChar_of_lt hlt, List.singleton_append] at h
        obtain ⟨rfl, -⟩ := List.cons.inj h
        rw [UInt8.le_iff_toNat_le, UInt8.toNat_ofNat_of_lt' (Nat.lt_trans hlt (by decide))] at hb
        exact absurd hb (Nat.not_le.mpr hlt)
      · obtain ⟨b', w', hc, -, hw'⟩ := utf8EncodeChar_cons hge
        rw [hc, List.cons_append] at h
        obtain ⟨rfl, rfl⟩ := List.cons.inj h
        -- The first character takes all the bytes.
        have hlen := Option.some.inj (hw'.symm.trans hw)
        rw [List.length_append, Nat.left_eq_add, List.length_eq_zero_iff] at hlen
        refine ⟨c, hge, by rw [hc, hlen, List.append_nil], ?_⟩
        have hnil : cs = [] := by
          cases cs with
          | nil => rfl
          | cons c' cs => simp at hlen
        rw [String.singleton_eq_ofList, ← hnil, ← hcs, String.ofList_toList]
  · rintro ⟨c, -, hc, rfl⟩
    simp [asBytes, hc]

end Json

end Miniraft

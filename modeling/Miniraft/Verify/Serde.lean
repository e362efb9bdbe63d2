import Miniraft.Json.Serde
import Miniraft.Verify.Print

/-!
# Serialized values

What `serialize` makes of a value of the standard library can be printed and is read back by
`deserialize` (`Codes`), also if maps are iterated in another order.
-/

namespace Miniraft

namespace Json

open Grammar

variable {v v' : Value} {n m d : ℕ} {es fs : Entries}

/-! ## Integers and their texts -/

/-- What holds of the ten digits holds of every digit. -/
theorem digit_cases {P : Char → Prop} (h : ∀ i < 10, P (Char.ofNat (48 + i))) {c : Char}
    (hc : c.isDigit) : P c := by
  simp only [Char.isDigit, Bool.and_eq_true, decide_eq_true_eq, ge_iff_le,
    UInt32.le_iff_toNat_le] at hc
  have hge : 48 ≤ c.toNat := hc.1
  have hle : c.toNat ≤ 57 := hc.2
  have hp := h (c.toNat - 48) (by omega)
  rwa [Nat.add_sub_cancel' hge, Char.ofNat_toNat] at hp

theorem isDigit_of_mem {c : Char} (h : c ∈ Nat.toDigits 10 n) : c.isDigit :=
  Nat.isDigit_of_mem_toDigits (by decide) (by decide) h

/-- Only zero has a leading zero. -/
theorem toDigits_eq_cons (hn : 0 < n) : ∃ c cs, Nat.toDigits 10 n = c :: cs ∧ c ≠ '0' := by
  induction n using Nat.base_induction 10 (by decide) with
  | single m hm =>
    have hne : ∀ m < 10, 0 < m → Nat.digitChar m ≠ '0' := by decide
    exact ⟨_, [], Nat.toDigits_of_lt_base hm, hne m hm hn⟩
  | digit m k hk hm ih =>
    obtain ⟨c, cs, hcs, hc⟩ := ih hm
    rw [← Nat.toDigits_append_toDigits (by decide) hm hk, hcs]
    exact ⟨c, _, rfl, hc⟩

theorem numeral_digits {cs : List Char} (h : ∀ c ∈ cs, c.isDigit) :
    numeral (cs.map Char.toUInt8) = ⟨String.ofList cs⟩ := by
  have hdigit {c : Char} (hc : c.isDigit) :
      (if c.toUInt8 = 0x45 then 'e' else Char.ofUInt8 c.toUInt8) = c :=
    digit_cases (P := fun c => (if c.toUInt8 = 0x45 then 'e' else Char.ofUInt8 c.toUInt8) = c)
      (by decide) hc
  rw [numeral, List.map_map]
  conv => rhs; rw [← List.map_id cs]
  congr 2
  exact List.map_congr_left fun c hc => hdigit (h c hc)

theorem int_digits (n : ℕ) : Int ((Nat.toDigits 10 n).map Char.toUInt8) := by
  have hdigit {c : Char} (hc : c.isDigit) : Digit c.toUInt8 :=
    digit_cases (P := fun c => 0x30 ≤ c.toUInt8 ∧ c.toUInt8 ≤ 0x39) (by decide) hc
  have hfirst {c : Char} (hc : c.isDigit) : c ≠ '0' → 0x31 ≤ c.toUInt8 :=
    digit_cases (P := fun c => c ≠ '0' → 0x31 ≤ c.toUInt8) (by decide) hc
  rcases Nat.eq_zero_or_pos n with rfl | hpos
  · exact .zero
  · obtain ⟨c, cs, hcs, hc⟩ := toDigits_eq_cons hpos
    have hall : ∀ c' ∈ Nat.toDigits 10 n, c'.isDigit := fun c' hc' => isDigit_of_mem hc'
    rw [hcs] at hall ⊢
    obtain ⟨hhead, htail⟩ := List.forall_mem_cons.mp hall
    refine .digits (hfirst hhead hc) (hdigit hhead).2 fun b hb => ?_
    obtain ⟨c', hc', rfl⟩ := List.mem_map.mp hb
    exact hdigit (htail c' hc')

theorem num_nat (n : ℕ) : Num (asBytes (toString n)) ⟨toString n⟩ := by
  have hnum := Num.mk .none (int_digits n) .none .none
  simp only [List.nil_append, List.append_nil] at hnum
  rw [numeral_digits fun c hc => isDigit_of_mem hc, ← Nat.toString_eq_ofList_toDigits] at hnum
  exact num_asBytes hnum

theorem num_neg (n : ℕ) : Num (asBytes ("-" ++ toString n)) ⟨"-" ++ toString n⟩ := by
  have hnum := Num.mk .minus (int_digits n) .none .none
  have hminus : numeral ([0x2D] ++ (Nat.toDigits 10 n).map Char.toUInt8) = ⟨"-" ++ toString n⟩ := by
    have hdigits := Number.mk.inj (numeral_digits fun c (hc : c ∈ Nat.toDigits 10 n) =>
      isDigit_of_mem hc)
    rw [numeral, List.map_append, String.ofList_append, hdigits,
      ← Nat.toString_eq_ofList_toDigits]
    rfl
  simp only [List.append_nil] at hnum
  rw [hminus] at hnum
  exact num_asBytes hnum

theorem parseDigits_eq {bound : ℕ} {overflow : ParseIntError} {cs : List Char}
    (hcs : ∀ c ∈ cs, c.isDigit) (hbound : Nat.ofDigitChars 10 cs n < bound) :
    parseDigits bound overflow n cs = .ok (Nat.ofDigitChars 10 cs n) := by
  induction cs generalizing n with
  | nil => rfl
  | cons c cs ih =>
    obtain ⟨hc, hcs⟩ := List.forall_mem_cons.mp hcs
    rw [Nat.ofDigitChars_cons, Nat.mul_comm] at hbound ⊢
    have hlt : n * 10 + (c.toNat - '0'.toNat) < bound := by
      refine Nat.lt_of_le_of_lt ?_ hbound
      rw [Nat.ofDigitChars_eq_ofDigitChars_zero]
      exact Nat.le_trans (Nat.le_mul_of_pos_left _ (Nat.pow_pos (by decide))) (Nat.le_add_right _ _)
    rw [parseDigits, toDigit, if_pos hc]
    simp only [hlt, if_true]
    exact ih hcs hbound

theorem parseDigits_toDigits {bound : ℕ} {overflow : ParseIntError} (h : n < bound) :
    parseDigits bound overflow 0 (Nat.toDigits 10 n) = .ok n := by
  rw [parseDigits_eq fun c hc => isDigit_of_mem hc]
  · rw [Nat.ofDigitChars_ten_toDigits]
  · rwa [Nat.ofDigitChars_ten_toDigits]

theorem toList_toString (n : ℕ) : (toString n).toList = Nat.toDigits 10 n := by
  rw [Nat.toString_eq_ofList_toDigits, String.toList_ofList]

/-- The first character of a number is no sign. -/
theorem toDigits_sign (n : ℕ) : ∃ c cs, Nat.toDigits 10 n = c :: cs ∧ c ≠ '+' ∧ c ≠ '-' := by
  obtain ⟨c, cs, hcs⟩ := List.exists_cons_of_ne_nil (Nat.toDigits_ne_nil (n := n) (b := 10))
  have hc : c.isDigit := isDigit_of_mem (hcs ▸ List.mem_cons_self)
  exact ⟨c, cs, hcs, digit_cases (P := fun c => c ≠ '+' ∧ c ≠ '-') (by decide) hc⟩

theorem parseU64_toString (h : n < 2 ^ 64) : parseU64 (toString n) = .ok n := by
  obtain ⟨c, cs, hcs, hplus, hminus⟩ := toDigits_sign n
  rw [parseU64, toList_toString, ← parseDigits_toDigits h, hcs]
  split
  · next h => cases h
  · next h => exact absurd (List.cons.inj h).1 hplus
  · next h => exact absurd (List.cons.inj h).1 hminus
  · next h => exact absurd (List.cons.inj h).1 hplus
  · rfl

theorem parseI64_toString (h : n < 2 ^ 63) : parseI64 (toString n) = .ok n := by
  obtain ⟨c, cs, hcs, hplus, hminus⟩ := toDigits_sign n
  have hparse : parseDigits (2 ^ 63) .posOverflow 0 (c :: cs) = .ok n :=
    hcs ▸ parseDigits_toDigits h
  rw [parseI64, toList_toString, hcs]
  split
  · next h => cases h
  · next h => exact absurd (List.cons.inj h).1 hplus
  · next h => exact absurd (List.cons.inj h).1 hminus
  · next h => exact absurd (List.cons.inj h).1 hminus
  · next h => exact absurd (List.cons.inj h).1 hplus
  · rw [hparse]
    rfl

theorem parseI64_neg (h : n < 2 ^ 63 + 1) : parseI64 ("-" ++ toString n) = .ok (-n) := by
  have hparse : parseDigits (2 ^ 63 + 1) .negOverflow 0 (Nat.toDigits 10 n) = .ok n :=
    parseDigits_toDigits h
  obtain ⟨c, cs, hcs, -⟩ := toDigits_sign n
  have hs : ("-" ++ toString n).toList = '-' :: c :: cs := by
    rw [String.toList_append, toList_toString, hcs]
    rfl
  rw [parseI64, hs]
  rw [hcs] at hparse
  simp only [hparse]
  rfl

/-! ## Values that can be printed -/

/-- A value with at most `d` levels that is printed as a JSON text. -/
def Writable (d : ℕ) (v : Value) : Prop := (∀ n, Printable (n + d) v) ∧ v.plainKeys

theorem Writable.mono {e : ℕ} (h : Writable d v) (hle : d ≤ e) : Writable e v := by
  obtain ⟨k, rfl⟩ := Nat.exists_eq_add_of_le' hle
  exact ⟨fun n => Nat.add_assoc n k d ▸ h.1 (n + k), h.2⟩

theorem writable_string (s : String) : Writable 1 (.string s) := ⟨fun _ => trivial, rfl⟩

theorem writable_bool (b : Bool) : Writable 1 (.bool b) := ⟨fun _ => trivial, rfl⟩

theorem writable_null : Writable 1 .null := ⟨fun _ => trivial, rfl⟩

theorem writable_number {m : Number} (h : Num (asBytes m.text) m) : Writable 1 (.number m) :=
  ⟨fun _ => h, rfl⟩

theorem writable_array {vs : List Value} (h : ∀ v ∈ vs, Writable d v) :
    Writable (d + 1) (.array vs) :=
  ⟨fun n v hv => (h v hv).1 n, plainValues_iff.mpr fun v hv => (h v hv).2⟩

/-- A map of fields with distinct names. -/
theorem ofFields_eq (h : (es.map Prod.fst).Nodup) : Value.ofFields es = .object es :=
  congrArg Value.object (collect_of_nodup h)

theorem writable_ofFields (hnodup : (es.map Prod.fst).Nodup)
    (hkeys : ∀ k ∈ es.map Prod.fst, plainKey k) (hvalues : ∀ v ∈ es.map Prod.snd, Writable d v) :
    Writable (d + 1) (.ofFields es) := by
  have hvalue (e) (he : e ∈ es) : Writable d e.2 := hvalues e.2 (List.mem_map_of_mem he)
  rw [ofFields_eq hnodup]
  refine ⟨fun n => ⟨hnodup, fun e he => (hvalue e he).1 n⟩, plainEntries_iff.mpr fun e he => ?_⟩
  exact ⟨hkeys e.1 (List.mem_map_of_mem he), (hvalue e he).2⟩

/-! ## Values that are read back -/

section

variable {α : Type} [Serialize α] [Deserialize α] {x y : α} {k k' : String}

/-- `x` is written with at most `d` levels and read back as `y`. -/
structure Codes (d : ℕ) (x y : α) : Prop where
  writable : Writable d (serialize x)
  reads : ∀ v, Same (serialize x) v → deserialize v = .ok y

/-- The text is that of a value, whatever the order in which maps are iterated. -/
theorem Codes.printable (h : Codes d x y) (hd : d ≤ 255) (hv : Same (serialize x) v) :
    Printable 255 v ∧ v.plainKeys := by
  obtain ⟨hprintable, hplain⟩ := h.writable.mono hd
  exact ⟨(Nat.zero_add 255 ▸ hprintable 0).same hv, plainKeys_same (hprintable 0) hv hplain⟩

theorem codes_bool (b : Bool) : Codes 1 b b where
  writable := writable_bool b
  reads v h := by
    cases h
    rfl

theorem codes_string (s : String) : Codes 1 s s where
  writable := writable_string s
  reads v h := by
    cases h
    rfl

theorem codes_nat (h : n < 2 ^ 64) : Codes 1 n n where
  writable := writable_number (num_nat n)
  reads v hv := by
    cases hv
    exact congrArg (Except.mapError _) (parseU64_toString h)

theorem codes_pnat {i : ℕ+} (h : (i : ℕ) < 2 ^ 64) : Codes 1 i i where
  writable := writable_number (num_nat i)
  reads v hv := by
    cases hv
    have hparse : Number.toU64 ⟨toString (i : ℕ)⟩ = .ok (i : ℕ) :=
      congrArg (Except.mapError _) (parseU64_toString h)
    show (Number.toU64 ⟨toString (i : ℕ)⟩ >>= fun v => _) = _
    rw [hparse]
    exact dif_pos i.2

theorem codes_uint64 (i : UInt64) : Codes 1 i i where
  writable := writable_number (num_nat i.toNat)
  reads v hv := by
    have hread := (codes_nat i.toNat_lt).reads v hv
    show (deserialize v >>= fun n => pure (UInt64.ofNat n)) = _
    rw [hread]
    exact congrArg Except.ok (UInt64.ofNat_toNat)

theorem num_int (i : ℤ) : Num (asBytes (toString i)) ⟨toString i⟩ := by
  cases i with
  | ofNat n => exact num_nat n
  | negSucc n => exact num_neg (n + 1)

theorem codes_int64 (i : Int64) : Codes 1 i i where
  writable := writable_number (num_int i.toInt)
  reads v hv := by
    cases hv
    have hparse : parseI64 (toString i.toInt) = .ok i.toInt := by
      have hlt := i.toInt_lt
      have hge := i.le_toInt
      cases hi : i.toInt with
      | ofNat n =>
        rw [hi] at hlt
        exact parseI64_toString (Int.ofNat_lt.mp hlt)
      | negSucc n => exact parseI64_neg (n := n + 1) (by omega)
    have hnumber : Number.toI64 ⟨toString i.toInt⟩ = .ok i.toInt :=
      congrArg (Except.mapError _) hparse
    show (Number.toI64 ⟨toString i.toInt⟩ >>= fun n => pure (Int64.ofInt n)) = _
    rw [hnumber]
    exact congrArg Except.ok i.ofInt_toInt

theorem codes_none : Codes 1 (none : Option α) none where
  writable := writable_null
  reads v h := by
    cases h
    rfl

theorem Codes.some (h : Codes d x y) (hnull : serialize x ≠ .null) :
    Codes d (some x) (some y) where
  writable := h.writable
  reads v hv := by
    have hsome : deserialize v >>= (fun x => pure (Option.some x)) =
        (.ok (Option.some y) : Except DeserializeError (Option α)) := by
      rw [h.reads v hv]
      rfl
    have hne : v ≠ .null := by
      rintro rfl
      have hv' : Same (serialize x) .null := hv
      generalize serialize x = u at hv' hnull
      cases hv'
      exact hnull rfl
    cases v with
    | null => exact absurd rfl hne
    | string | number | object | array | bool => exact hsome

theorem codes_option {o : Option α} (h : ∀ x ∈ o, Codes 1 x x ∧ serialize x ≠ .null) :
    Codes 1 o o := by
  cases o with
  | none => exact codes_none
  | some x => exact (h x rfl).1.some (h x rfl).2

theorem codes_list {xs ys : List α} (h : List.Forall₂ (Codes d) xs ys) : Codes (d + 1) xs ys where
  writable := by
    refine writable_array fun v hv => ?_
    obtain ⟨x, hx, rfl⟩ := List.mem_map.mp hv
    clear hv
    induction h with
    | nil => nomatch hx
    | cons hxy _ ih =>
      rcases List.mem_cons.mp hx with rfl | hx
      · exact hxy.writable
      · exact ih hx
  reads v hv := by
    cases hv with
    | @array _ ws hws =>
      show ws.mapM deserialize = .ok ys
      induction h generalizing ws with
      | nil =>
        cases hws
        rfl
      | cons hxy _ ih =>
        cases hws with
        | cons hhead htail =>
          rw [List.mapM_cons, hxy.reads _ hhead, ih htail]
          rfl

end

/-! ## Fields -/

theorem lookup_cons (map : Entries) (key k : String) (value : Value) :
    List.lookup k ((key, value) :: map) = if k = key then some value else map.lookup k := by
  rw [List.lookup_cons]
  cases h : k == key with
  | false => rw [if_neg (beq_eq_false_iff_ne.mp h)]
  | true => rw [if_pos (beq_iff_eq.mp h)]

theorem lookup_eq_some {k : String} (hnodup : (fs.map Prod.fst).Nodup) (h : (k, v) ∈ fs) :
    fs.lookup k = some v := by
  induction fs with
  | nil => nomatch h
  | cons f fs ih =>
    obtain ⟨k', v'⟩ := f
    rw [List.map_cons, List.nodup_cons] at hnodup
    rw [lookup_cons]
    rcases List.mem_cons.mp h with heq | h₁
    · cases heq
      exact if_pos rfl
    · have hne : k ≠ k' := by
        rintro rfl
        exact hnodup.1 (List.mem_map.mpr ⟨_, h₁, rfl⟩)
      rw [if_neg hne, ih hnodup.2 h₁]

theorem Shuffled.mem_right {R : Value → Value → Prop} (h : Shuffled R es fs) :
    ∀ e ∈ es, ∃ w, (e.1, w) ∈ fs ∧ R e.2 w := by
  induction h with
  | nil => exact fun _ h => absurd h List.not_mem_nil
  | cons hR _ ih =>
    intro e he
    rcases List.mem_cons.mp he with rfl | he
    · exact ⟨_, List.mem_append_right _ List.mem_cons_self, hR⟩
    · obtain ⟨w, hw, hsame⟩ := ih e he
      refine ⟨w, ?_, hsame⟩
      rcases List.mem_append.mp hw with hw | hw
      · exact List.mem_append_left _ hw
      · exact List.mem_append_right _ (List.mem_cons_of_mem _ hw)

/-- The fields of a map are found under their names, whatever the order of iteration. -/
theorem exists_fields (hnodup : (es.map Prod.fst).Nodup) (h : Same (.ofFields es) v) :
    ∃ fs, v = .object fs ∧ ∀ e ∈ es, ∃ w, List.lookup e.1 fs = some w ∧ Same e.2 w := by
  rw [ofFields_eq hnodup] at h
  cases h with
  | object h =>
    refine ⟨_, rfl, fun e he => ?_⟩
    obtain ⟨w, hw, hsame⟩ := h.mem_right e he
    exact ⟨w, lookup_eq_some (h.perm.nodup_iff.mp hnodup) hw, hsame⟩

theorem lookup_remove (k k' : String) :
    List.lookup k (Entries.remove fs k') = if k = k' then none else List.lookup k fs := by
  induction fs with
  | nil =>
    split
    · rfl
    · rfl
  | cons f fs ih =>
    obtain ⟨k₀, v⟩ := f
    rw [Entries.remove, List.filter_cons]
    rw [Entries.remove] at ih
    simp only [lookup_cons]
    split
    · next h =>
      have hk : k₀ ≠ k' := by simpa using h
      rw [lookup_cons, ih]
      grind
    · next h =>
      have hk : k₀ = k' := by simpa using h
      rw [ih]
      grind

section

variable {α β : Type} [Serialize α] [Deserialize α] [Serialize β] [Deserialize β] {x y : α}
  {a b : β} {P : Entries → Prop} {k : String}

theorem Codes.mono {e : ℕ} (h : Codes d x y) (hle : d ≤ e) : Codes e x y :=
  ⟨h.writable.mono hle, h.reads⟩

/-- Fields with at most `d` levels each. A map with such fields, in any order, satisfies `P`. -/
def Carries (d : ℕ) (es : Entries) (P : Entries → Prop) : Prop :=
  (∀ e ∈ es, Writable d e.2) ∧
    ∀ fs : Entries, (∀ e ∈ es, ∃ w, fs.lookup e.1 = some w ∧ Same e.2 w) → P fs

theorem Carries.nil : Carries d [] fun _ => True := ⟨nofun, fun _ _ => trivial⟩

theorem Carries.cons (h : Codes d x y) (hs : Carries d es P) :
    Carries d ((k, serialize x) :: es)
      fun fs => (∃ w, fs.lookup k = some w ∧ deserialize w = .ok y) ∧ P fs := by
  refine ⟨List.forall_mem_cons.mpr ⟨h.writable, hs.1⟩, fun fs hfs => ?_⟩
  obtain ⟨⟨w, hw, hsame⟩, hrest⟩ := List.forall_mem_cons.mp hfs
  exact ⟨⟨w, hw, h.reads w hsame⟩, hs.2 fs hrest⟩

/-- A field for the variant of an enumeration. -/
theorem Carries.tag {s : String} (hd : 1 ≤ d) (hs : Carries d es P) :
    Carries d ((k, serialize s) :: es) fun fs => fs.lookup k = some (.string s) ∧ P fs := by
  refine ⟨List.forall_mem_cons.mpr ⟨(writable_string s).mono hd, hs.1⟩, fun fs hfs => ?_⟩
  obtain ⟨⟨w, hw, hsame⟩, hrest⟩ := List.forall_mem_cons.mp hfs
  cases hsame
  exact ⟨hw, hs.2 fs hrest⟩

/-- A type is written and read field by field. -/
theorem codes_ofFields (keys : List String) (hx : serialize a = .ofFields es)
    (hkeys : es.map Prod.fst = keys) (hnames : keys.Nodup ∧ ∀ k ∈ keys, plainKey k) (h : Carries d es P)
    (hread : ∀ fs, P fs → deserialize (.object fs) = .ok b) : Codes (d + 1) a b := by
  subst hkeys
  refine ⟨hx ▸ writable_ofFields hnames.1 hnames.2 fun v hv => ?_, fun v hv => ?_⟩
  · obtain ⟨e, he, rfl⟩ := List.mem_map.mp hv
    exact h.1 e he
  · rw [hx] at hv
    obtain ⟨fs, rfl, hfs⟩ := exists_fields hnames.1 hv
    exact hread fs (h.2 fs hfs)

end

end Json

end Miniraft

import Miniraft.Base64.Codec
import Miniraft.Std.Except
import Miniraft.Std.Radix
import Miniraft.Verify.Utf8

/-!
# Round trips of Base64

Bytes are digits of base 256 that are regrouped to digits of base 64 (`symbols`), and back
(`assemble`). `Decodes` relates a text to the bytes it stands for: what `encode` writes is such a
text of the data (`decodes_encoded`), `decode` gives the bytes of each (`decodeChunks_of_decodes`),
and the texts are those that are padded (`padded_iff`).
-/

namespace Miniraft

namespace Base64

open Json (asBytes ascii)

/-! ## Texts -/

/-- `k` symbols for bytes, with a factor `c` for the unused bits of the last one. -/
def symbols (k c : ℕ) (bytes : List UInt8) : List UInt8 :=
  (Radix.regroup 256 64 k c (bytes.map UInt8.toNat)).map symbol

/-- `m` bytes from what symbols stand for. -/
def assemble (m c : ℕ) (vs : List ℕ) : List UInt8 :=
  (Radix.ungroup 256 64 m c vs).map Nat.toUInt8

/-- What `encode` writes. -/
def encoded : List UInt8 → List UInt8
  | x :: y :: z :: data => symbols 4 1 [x, y, z] ++ encoded data
  | [l, r] => symbols 3 4 [l, r] ++ [padding]
  | [b] => symbols 2 16 [b] ++ [padding, padding]
  | [] => []

/-- Texts and the bytes that they stand for. -/
inductive Decodes : List UInt8 → List UInt8 → Prop
  | nil : Decodes [] []
  | more : vs.length = 4 → (∀ v ∈ vs, v < 64) → Decodes w output →
    Decodes (vs.map symbol ++ w) (assemble 3 1 vs ++ output)
  | pair : vs.length = 3 → (∀ v ∈ vs, v < 64) →
    Decodes (vs.map symbol ++ [padding]) (assemble 2 4 vs)
  | single : vs.length = 2 → (∀ v ∈ vs, v < 64) →
    Decodes (vs.map symbol ++ [padding, padding]) (assemble 1 16 vs)

variable {v w : List UInt8} {vs : List ℕ} {b : UInt8} {m n i j count : ℕ}

/-! ## The alphabet -/

theorem getElem?_alphabet (n : ℕ) : alphabet[n % 64]? = some (symbol n) := by
  rw [← and_mask]
  exact List.getElem?_eq_getElem (and_mask_lt n)

theorem symbol_congr (h : m % 64 = n % 64) : symbol m = symbol n := by
  have hsymbol := getElem?_alphabet m
  rw [h, getElem?_alphabet] at hsymbol
  exact (Option.some.inj hsymbol).symm

theorem symbol_mem (n : ℕ) : symbol n ∈ alphabet := List.get_mem _ _

theorem mem_alphabet_iff : b ∈ alphabet ↔ ∃ n < 64, symbol n = b := by
  constructor
  · intro h
    obtain ⟨n, hn⟩ := List.mem_iff_getElem?.mp h
    have hlt : n < 64 := length_alphabet ▸ (List.getElem?_eq_some_iff.mp hn).1
    refine ⟨n, hlt, Option.some.inj ?_⟩
    rw [← getElem?_alphabet, Nat.mod_eq_of_lt hlt, hn]
  · rintro ⟨n, -, rfl⟩
    exact symbol_mem n

theorem padding_not_mem : padding ∉ alphabet := by decide +kernel

theorem symbol_ne_padding (n : ℕ) : symbol n ≠ padding := fun h =>
  padding_not_mem (h ▸ symbol_mem n)

theorem getElem?_foldl_set_of_not_mem {l : List (UInt8 × ℕ)} {map : List UInt8}
    (h : b ∉ l.map Prod.fst) :
    (l.foldl (fun map x => map.set x.1.toNat x.2.toUInt8) map)[b.toNat]? = map[b.toNat]? := by
  induction l generalizing map with
  | nil => rfl
  | cons x l ih =>
    obtain ⟨hne, hl⟩ := not_or.mp (mt List.mem_cons.mpr h)
    rw [List.foldl_cons, ih hl, List.getElem?_set_ne fun heq => hne (UInt8.toNat_inj.mp heq).symm]

theorem getElem?_foldl_set {l : List (UInt8 × ℕ)} {map : List UInt8}
    (hnodup : (l.map Prod.fst).Nodup) (h : (b, n) ∈ l) (hmap : b.toNat < map.length) :
    (l.foldl (fun map x => map.set x.1.toNat x.2.toUInt8) map)[b.toNat]? = some n.toUInt8 := by
  induction l generalizing map with
  | nil => exact absurd h List.not_mem_nil
  | cons x l ih =>
    obtain ⟨hx, hl⟩ := List.nodup_cons.mp hnodup
    rw [List.foldl_cons]
    rcases List.mem_cons.mp h with rfl | h
    · rw [getElem?_foldl_set_of_not_mem hx, List.getElem?_set_self hmap]
    · exact ih hl h (by rwa [List.length_set])

/-- The table has the values of the symbols. -/
theorem decodeMap_symbol (h : n < 64) : decodeMap[(symbol n).toNat]? = some n.toUInt8 := by
  refine getElem?_foldl_set ?_ (List.mk_mem_zipIdx_iff_getElem?.mpr ?_) ?_
  · rw [List.zipIdx_map_fst]
    decide +kernel
  · rw [← getElem?_alphabet, Nat.mod_eq_of_lt h]
  · rw [List.length_replicate]
    exact (symbol n).toNat_lt

theorem decodeMap_of_not_mem (h : b ∉ alphabet) : decodeMap[b.toNat]? = some 0xFF := by
  rw [decodeMap, getElem?_foldl_set_of_not_mem (by rwa [List.zipIdx_map_fst])]
  exact List.getElem?_replicate_of_lt b.toNat_lt

theorem getByte_symbol (h : n < 64) (i offset : ℕ) :
    getByte i offset (symbol n) = .ok n.toUInt8 := by
  have hval : decodeMap.get ⟨(symbol n).toNat, toNat_lt_decodeMap _⟩ = n.toUInt8 :=
    (List.getElem?_eq_some_iff.mp (decodeMap_symbol h)).2
  have hne : n.toUInt8 ≠ 0xFF := by
    intro heq
    have hmod : n % 256 = 255 := congrArg UInt8.toNat heq
    omega
  rw [getByte, hval]
  exact if_neg hne

theorem getByte_of_not_mem (h : b ∉ alphabet) (i offset : ℕ) :
    getByte i offset b = .error (.invalidByte (i * 4 + offset) b) := by
  have hval : decodeMap.get ⟨b.toNat, toNat_lt_decodeMap b⟩ = 0xFF :=
    (List.getElem?_eq_some_iff.mp (decodeMap_of_not_mem h)).2
  rw [getByte, hval]
  rfl

/-! ## Regrouping -/

theorem map_symbol_digits (k n : ℕ) : (Radix.digits 64 (k + 1) n).map symbol =
    (Radix.digits 64 k (n / 2 ^ 6)).map symbol ++ [symbol n] := by
  rw [Radix.digits, List.map_append, List.map_singleton, symbol_congr (Nat.mod_mod n 64)]
  rfl

theorem map_symbol_four (n : ℕ) : (Radix.digits 64 4 n).map symbol =
    [symbol (n / 2 ^ 18), symbol (n / 2 ^ 12), symbol (n / 2 ^ 6), symbol n] := by
  simp only [map_symbol_digits, Nat.div_div_eq_div_mul, ← Nat.pow_add]
  rfl

theorem map_symbol_three (n : ℕ) : (Radix.digits 64 3 n).map symbol =
    [symbol (n / 2 ^ 12), symbol (n / 2 ^ 6), symbol n] := by
  simp only [map_symbol_digits, Nat.div_div_eq_div_mul, ← Nat.pow_add]
  rfl

theorem map_symbol_two (n : ℕ) : (Radix.digits 64 2 n).map symbol =
    [symbol (n / 2 ^ 6), symbol n] := by
  simp only [map_symbol_digits]
  rfl

theorem value_one (x : ℕ) : Radix.value 256 [x] = x := Nat.ofDigits_singleton

theorem value_two (x y : ℕ) : Radix.value 256 [x, y] = x * 2 ^ 8 + y := by
  simp only [Radix.value, List.reverse_cons, List.reverse_nil, List.nil_append, List.cons_append,
    Nat.ofDigits_cons, Nat.ofDigits_nil]
  omega

theorem value_three (x y z : ℕ) :
    Radix.value 256 [x, y, z] = x * 2 ^ 16 + (y * 2 ^ 8 + z) := by
  simp only [Radix.value, List.reverse_cons, List.reverse_nil, List.nil_append, List.cons_append,
    Nat.ofDigits_cons, Nat.ofDigits_nil]
  omega

/-- Where the lower part leaves room, shifts and disjunctions are sums. -/
theorem toNat_shiftLeft_or {a b i : UInt32} (hi : i.toNat = n) (hn : n < 32)
    (ha : a.toNat * 2 ^ n < 2 ^ 32) (hb : b.toNat < 2 ^ n) :
    (a <<< i ||| b).toNat = a.toNat * 2 ^ n + b.toNat := by
  rw [UInt32.toNat_or, UInt32.toNat_shiftLeft, hi, Nat.mod_eq_of_lt hn, Nat.shiftLeft_eq,
    Nat.mod_eq_of_lt ha, ← Nat.shiftLeft_eq, Nat.shiftLeft_add_eq_or_of_lt hb]

theorem toNat_shiftRight {a i : UInt32} (hi : i.toNat = n) (hn : n < 32) :
    (a >>> i).toNat = a.toNat / 2 ^ n := by
  rw [UInt32.toNat_shiftRight, hi, Nat.mod_eq_of_lt hn, Nat.shiftRight_eq_div_pow]

theorem encodeChunk_eq (x y z : UInt8) : encodeChunk (x, y, z) = symbols 4 1 [x, y, z] := by
  have hx := x.toNat_lt
  have hy := y.toNat_lt
  have hz := z.toNat_lt
  have hlow : (y.toUInt32 <<< 8 ||| z.toUInt32).toNat = y.toNat * 2 ^ 8 + z.toNat :=
    toNat_shiftLeft_or (n := 8) rfl (by decide) (by simp; omega) (by simpa using hz)
  have hdatum : (x.toUInt32 <<< 16 ||| y.toUInt32 <<< 8 ||| z.toUInt32).toNat =
      x.toNat * 2 ^ 16 + (y.toNat * 2 ^ 8 + z.toNat) := by
    rw [UInt32.or_assoc, toNat_shiftLeft_or (n := 16) rfl (by decide) (by simp; omega)
      (by rw [hlow]; omega), hlow]
    rfl
  rw [encodeChunk, toNat_shiftRight (n := 18) rfl (by decide),
    toNat_shiftRight (n := 12) rfl (by decide), toNat_shiftRight (n := 6) rfl (by decide), hdatum,
    ← map_symbol_four, ← value_three, symbols, Radix.regroup, Nat.mul_one]
  rfl

theorem encodeRemainder_pair (l r : UInt8) :
    encodeRemainder [l, r] = .ok (symbols 3 4 [l, r] ++ [padding]) := by
  have hl := l.toNat_lt
  have hr := r.toNat_lt
  have hshift : (l.toUInt16 <<< 8).toNat = l.toNat <<< 8 := by
    have hdrop : (l.toUInt16 <<< 8).toNat = l.toNat <<< 8 % 2 ^ 16 := UInt16.toNat_shiftLeft _ 8
    rw [hdrop, Nat.shiftLeft_eq, Nat.mod_eq_of_lt]
    omega
  have hdatum : (l.toUInt16 <<< 8 ||| r.toUInt16).toNat = l.toNat * 2 ^ 8 + r.toNat := by
    rw [UInt16.toNat_or, hshift, UInt8.toNat_toUInt16, ← Nat.shiftLeft_add_eq_or_of_lt hr,
      Nat.shiftLeft_eq]
  -- the bits that the shift drops are above the mask
  have hlast : symbol ((l.toUInt16 <<< 8 ||| r.toUInt16) <<< 2).toNat =
      symbol ((l.toNat * 2 ^ 8 + r.toNat) * 4) := by
    refine symbol_congr ?_
    have hdrop : ((l.toUInt16 <<< 8 ||| r.toUInt16) <<< 2).toNat =
        (l.toNat * 2 ^ 8 + r.toNat) <<< 2 % 2 ^ 16 := hdatum ▸ UInt16.toNat_shiftLeft _ 2
    rw [hdrop, Nat.shiftLeft_eq]
    omega
  have hfirst : ((l.toUInt16 <<< 8 ||| r.toUInt16) >>> 10).toNat =
      (l.toNat * 2 ^ 8 + r.toNat) * 4 / 2 ^ 12 := by
    rw [UInt16.toNat_shiftRight, hdatum, Nat.shiftRight_eq_div_pow]
    change (l.toNat * 2 ^ 8 + r.toNat) / 2 ^ 10 = _
    omega
  have hsecond : ((l.toUInt16 <<< 8 ||| r.toUInt16) >>> 4).toNat =
      (l.toNat * 2 ^ 8 + r.toNat) * 4 / 2 ^ 6 := by
    rw [UInt16.toNat_shiftRight, hdatum, Nat.shiftRight_eq_div_pow]
    change (l.toNat * 2 ^ 8 + r.toNat) / 2 ^ 4 = _
    omega
  have hvals : [symbol ((l.toUInt16 <<< 8 ||| r.toUInt16) >>> 10).toNat,
      symbol ((l.toUInt16 <<< 8 ||| r.toUInt16) >>> 4).toNat,
      symbol ((l.toUInt16 <<< 8 ||| r.toUInt16) <<< 2).toNat, padding] =
        symbols 3 4 [l, r] ++ [padding] := by
    rw [hlast, hfirst, hsecond, symbols, List.map_cons, List.map_singleton, Radix.regroup,
      value_two, map_symbol_three]
    rfl
  exact congrArg Except.ok hvals

theorem encodeRemainder_single (b : UInt8) :
    encodeRemainder [b] = .ok (symbols 2 16 [b] ++ [padding, padding]) := by
  have hb := b.toNat_lt
  have hfirst : (b >>> 2).toNat = b.toNat * 16 / 2 ^ 6 := by
    rw [UInt8.toNat_shiftRight, Nat.shiftRight_eq_div_pow]
    change b.toNat / 2 ^ 2 = _
    omega
  have hlast : symbol (b <<< 4).toNat = symbol (b.toNat * 16) := by
    refine symbol_congr ?_
    have hdrop : (b <<< 4).toNat = b.toNat <<< 4 % 2 ^ 8 := UInt8.toNat_shiftLeft b 4
    rw [hdrop, Nat.shiftLeft_eq]
    omega
  have hvals : [symbol (b >>> 2).toNat, symbol (b <<< 4).toNat, padding, padding] =
      symbols 2 16 [b] ++ [padding, padding] := by
    rw [hfirst, hlast, symbols, List.map_singleton, Radix.regroup, value_one, map_symbol_two]
    rfl
  exact congrArg Except.ok hvals

/-! ## Encoding -/

theorem length_symbols {k c : ℕ} : (symbols k c v).length = k := by
  rw [symbols, List.length_map]
  exact Radix.length_digits

theorem length_encoded (data : List UInt8) :
    (encoded data).length = 4 * ((data.length + 2) / 3) := by
  fun_induction encoded data with
  | case1 x y z data ih =>
    rw [List.length_append, length_symbols, ih, List.length_cons, List.length_cons,
      List.length_cons]
    omega
  | case2 l r => simp [length_symbols]
  | case3 b => simp [length_symbols]
  | case4 => rfl

theorem mem_encoded {data : List UInt8} (h : b ∈ encoded data) : b ∈ alphabet ∨ b = padding := by
  have hsymbols {k c : ℕ} {bytes : List UInt8} (h : b ∈ symbols k c bytes) : b ∈ alphabet := by
    obtain ⟨n, -, rfl⟩ := List.mem_map.mp h
    exact symbol_mem n
  fun_induction encoded data with
  | case1 x y z data ih =>
    rcases List.mem_append.mp h with h | h
    · exact .inl (hsymbols h)
    · exact ih h
  | case2 l r =>
    rcases List.mem_append.mp h with h | h
    · exact .inl (hsymbols h)
    · exact .inr (List.mem_singleton.mp h)
  | case3 c =>
    rcases List.mem_append.mp h with h | h
    · exact .inl (hsymbols h)
    · exact .inr (by simpa using h)
  | case4 => exact absurd h List.not_mem_nil

theorem encode_parts (data : List UInt8) : ∃ last,
    encodeRemainder (asChunks3 data).2 = .ok last ∧
      (asChunks3 data).1.flatMap encodeChunk ++ last = encoded data := by
  fun_induction encoded data with
  | case1 x y z data ih =>
    obtain ⟨last, hlast, hencoded⟩ := ih
    refine ⟨last, hlast, ?_⟩
    rw [← hencoded, ← encodeChunk_eq]
    exact List.append_assoc ..
  | case2 l r => exact ⟨_, encodeRemainder_pair l r, rfl⟩
  | case3 b => exact ⟨_, encodeRemainder_single b, rfl⟩
  | case4 => exact ⟨[], rfl, rfl⟩

theorem asBytes_ofUInt8 (h : ∀ b ∈ w, b ≤ 0x7F) :
    asBytes (String.ofList (w.map Char.ofUInt8)) = w := by
  rw [Json.asBytes_ofList, List.flatMap_map,
    List.flatMap_congr fun b hb => Json.utf8EncodeChar_ofUInt8 (h b hb)]
  exact List.flatMap_singleton' w

/-- No panic, and no string that is not UTF-8. -/
theorem encode_returns (data : List UInt8) :
    ∃ s, encode data = .ok s ∧ asBytes s = encoded data := by
  obtain ⟨last, hlast, hencoded⟩ := encode_parts data
  have hascii : ∀ b ∈ encoded data, b ≤ 0x7F := by
    intro b hb
    rcases mem_encoded hb with h | rfl
    · exact Json.forall_of_all (P := fun b => b ≤ 0x7F) (by decide +kernel) b h
    · decide
  refine ⟨_, ?_, asBytes_ofUInt8 hascii⟩
  have hlength : (encoded data).length % 4 = 0 := by
    rw [length_encoded]
    exact Nat.mul_mod_right 4 _
  have hutf8 := Json.fromUTF8?_eq_some_iff_asBytes.mpr (asBytes_ofUInt8 hascii).symm
  rw [encode, hlast]
  change finish ((asChunks3 data).1.flatMap encodeChunk ++ last) = _
  rw [hencoded, finish, if_pos hlength, hutf8]

/-! ## Round trip -/

theorem assemble_regroup (v : List UInt8) (m k c : ℕ) (hv : v.length = m) (hc : 0 < c)
    (hroom : 256 ^ m * c ≤ 64 ^ k) :
    assemble m c (Radix.regroup 256 64 k c (v.map UInt8.toNat)) = v := by
  have hlt : ∀ n ∈ v.map UInt8.toNat, n < 256 := by
    rw [List.forall_mem_map]
    exact fun b _ => b.toNat_lt
  have hback := Radix.ungroup_regroup (B := 256) (b := 64) (k := k) (by decide) hc hlt
    (by rwa [List.length_map, hv])
  rw [List.length_map, hv] at hback
  rw [assemble, hback, List.map_map]
  exact List.map_id'' (fun b => UInt8.ofNat_toNat) v

theorem lt_of_mem_regroup {k c : ℕ} {ds : List ℕ} :
    ∀ n ∈ Radix.regroup 256 64 k c ds, n < 64 := fun _ h =>
  Radix.lt_of_mem_digits (by decide) h

theorem decodes_encoded (data : List UInt8) : Decodes (encoded data) data := by
  fun_induction encoded data with
  | case1 x y z data ih =>
    have hmore : Decodes (symbols 4 1 [x, y, z] ++ encoded data)
        (assemble 3 1 (Radix.regroup 256 64 4 1 ([x, y, z].map UInt8.toNat)) ++ data) :=
      .more Radix.length_digits lt_of_mem_regroup ih
    rwa [assemble_regroup [x, y, z] 3 4 1 rfl (by decide) (by decide)] at hmore
  | case2 l r =>
    have hpair : Decodes (symbols 3 4 [l, r] ++ [padding])
        (assemble 2 4 (Radix.regroup 256 64 3 4 ([l, r].map UInt8.toNat))) :=
      .pair Radix.length_digits lt_of_mem_regroup
    rwa [assemble_regroup [l, r] 2 3 4 rfl (by decide) (by decide)] at hpair
  | case3 b =>
    have hsingle : Decodes (symbols 2 16 [b] ++ [padding, padding])
        (assemble 1 16 (Radix.regroup 256 64 2 16 ([b].map UInt8.toNat))) :=
      .single Radix.length_digits lt_of_mem_regroup
    rwa [assemble_regroup [b] 1 2 16 rfl (by decide) (by decide)] at hsingle
  | case4 => exact .nil

/-! ## Decoding -/

theorem map_toUInt8_digits (k n : ℕ) : (Radix.digits 256 (k + 1) n).map Nat.toUInt8 =
    (Radix.digits 256 k (n / 2 ^ 8)).map Nat.toUInt8 ++ [n.toUInt8] := by
  have hmod : (n % 256).toUInt8 = n.toUInt8 := UInt8.toNat_inj.mp (Nat.mod_mod n 256)
  rw [Radix.digits, List.map_append, List.map_singleton, hmod]
  rfl

theorem map_toUInt8_three (n : ℕ) : (Radix.digits 256 3 n).map Nat.toUInt8 =
    [(n / 2 ^ 16).toUInt8, (n / 2 ^ 8).toUInt8, n.toUInt8] := by
  simp only [map_toUInt8_digits, Nat.div_div_eq_div_mul, ← Nat.pow_add]
  rfl

theorem map_toUInt8_two (n : ℕ) : (Radix.digits 256 2 n).map Nat.toUInt8 =
    [(n / 2 ^ 8).toUInt8, n.toUInt8] := by
  simp only [map_toUInt8_digits]
  rfl

theorem map_toUInt8_one (n : ℕ) : (Radix.digits 256 1 n).map Nat.toUInt8 = [n.toUInt8] := by
  rw [map_toUInt8_digits]
  rfl

theorem toUInt8_eq (a : UInt32) : a.toUInt8 = a.toNat.toUInt8 := rfl

theorem toUInt8_shiftRight {a i : UInt32} (hi : i.toNat = n) (hn : n < 32) :
    (a >>> i).toUInt8 = (a.toNat / 2 ^ n).toUInt8 := by
  refine UInt8.toNat_inj.mp ?_
  rw [UInt32.toNat_toUInt8, toNat_shiftRight hi hn]
  rfl

/-- Six bits are put below those that are there. -/
theorem toNat_or_shiftLeft {a b i : UInt32} (hi : i.toNat = n) (hn : n + 6 ≤ 32)
    (ha : 2 ^ (n + 6) ∣ a.toNat) (hb : b.toNat < 64) :
    (a ||| b <<< i).toNat = a.toNat + b.toNat * 2 ^ n := by
  obtain ⟨q, hq⟩ := ha
  have hlt : b.toNat * 2 ^ n < 2 ^ (n + 6) := by
    rw [Nat.pow_add, Nat.mul_comm]
    exact Nat.mul_lt_mul_of_pos_left hb (Nat.two_pow_pos n)
  have hfits : b.toNat * 2 ^ n < 2 ^ 32 := hlt.trans_le (Nat.pow_le_pow_right (by decide) hn)
  rw [UInt32.toNat_or, UInt32.toNat_shiftLeft, hi, Nat.mod_eq_of_lt (by omega : n < 32),
    Nat.shiftLeft_eq, Nat.mod_eq_of_lt hfits, hq, Nat.mul_comm, ← Nat.shiftLeft_eq,
    Nat.shiftLeft_add_eq_or_of_lt hlt]

theorem toNat_toUInt32 (h : n < 64) : n.toUInt8.toUInt32.toNat = n := by
  rw [UInt8.toNat_toUInt32]
  exact Nat.mod_eq_of_lt (by omega : n < 256)

theorem value_digits_two (x y : ℕ) : Radix.value 64 [x, y] = x * 2 ^ 6 + y := by
  simp only [Radix.value, List.reverse_cons, List.reverse_nil, List.nil_append, List.cons_append,
    Nat.ofDigits_cons, Nat.ofDigits_nil]
  omega

theorem value_digits_three (x y z : ℕ) :
    Radix.value 64 [x, y, z] = x * 2 ^ 12 + y * 2 ^ 6 + z := by
  rw [← List.singleton_append]
  simp only [Radix.value, List.reverse_cons, List.reverse_nil, List.nil_append, List.cons_append,
    Nat.ofDigits_cons, Nat.ofDigits_nil]
  omega

theorem value_digits_four (x y z t : ℕ) :
    Radix.value 64 [x, y, z, t] = x * 2 ^ 18 + y * 2 ^ 12 + z * 2 ^ 6 + t := by
  simp only [Radix.value, List.reverse_cons, List.reverse_nil, List.nil_append, List.cons_append,
    Nat.ofDigits_cons, Nat.ofDigits_nil]
  omega

section

variable {v₀ v₁ v₂ v₃ : ℕ} {output : List UInt8} {chunks : List (UInt8 × UInt8 × UInt8 × UInt8)}

theorem toNat_datum_two (h₀ : v₀ < 64) (h₁ : v₁ < 64) :
    ((0 : UInt32) ||| v₀.toUInt8.toUInt32 <<< 18 ||| v₁.toUInt8.toUInt32 <<< 12).toNat =
      v₀ * 2 ^ 18 + v₁ * 2 ^ 12 := by
  have hfirst : ((0 : UInt32) ||| v₀.toUInt8.toUInt32 <<< 18).toNat = v₀ * 2 ^ 18 := by
    rw [toNat_or_shiftLeft (n := 18) rfl (by decide) (Nat.dvd_zero _) (by rwa [toNat_toUInt32 h₀]),
      toNat_toUInt32 h₀]
    exact Nat.zero_add _
  rw [toNat_or_shiftLeft (n := 12) rfl (by decide) (by rw [hfirst]; omega)
    (by rwa [toNat_toUInt32 h₁]), toNat_toUInt32 h₁, hfirst]

theorem toNat_datum_three (h₀ : v₀ < 64) (h₁ : v₁ < 64) (h₂ : v₂ < 64) :
    ((0 : UInt32) ||| v₀.toUInt8.toUInt32 <<< 18 ||| v₁.toUInt8.toUInt32 <<< 12 |||
      v₂.toUInt8.toUInt32 <<< 6).toNat = v₀ * 2 ^ 18 + v₁ * 2 ^ 12 + v₂ * 2 ^ 6 := by
  rw [toNat_or_shiftLeft (n := 6) rfl (by decide) (by rw [toNat_datum_two h₀ h₁]; omega)
    (by rwa [toNat_toUInt32 h₂]), toNat_toUInt32 h₂, toNat_datum_two h₀ h₁]

theorem toNat_datum_four (h₀ : v₀ < 64) (h₁ : v₁ < 64) (h₂ : v₂ < 64) (h₃ : v₃ < 64) :
    ((0 : UInt32) ||| v₀.toUInt8.toUInt32 <<< 18 ||| v₁.toUInt8.toUInt32 <<< 12 |||
      v₂.toUInt8.toUInt32 <<< 6 ||| v₃.toUInt8.toUInt32).toNat =
      v₀ * 2 ^ 18 + v₁ * 2 ^ 12 + v₂ * 2 ^ 6 + v₃ := by
  rw [← UInt32.shiftLeft_zero (a := v₃.toUInt8.toUInt32),
    toNat_or_shiftLeft (n := 0) rfl (by decide) (by rw [toNat_datum_three h₀ h₁ h₂]; omega)
    (by rwa [toNat_toUInt32 h₃]), toNat_toUInt32 h₃, toNat_datum_three h₀ h₁ h₂]
  omega

/-- A chunk of symbols. -/
theorem decodeChunks_more (h₀ : v₀ < 64) (h₁ : v₁ < 64) (h₂ : v₂ < 64) (h₃ : v₃ < 64) :
    decodeChunks count i output ((symbol v₀, symbol v₁, symbol v₂, symbol v₃) :: chunks) =
      decodeChunks count (i + 1) (output ++ assemble 3 1 [v₀, v₁, v₂, v₃]) chunks := by
  simp only [decodeChunks, getByte_symbol h₀, getByte_symbol h₁, getByte_symbol h₂,
    getByte_symbol h₃, Except.ok_bind, if_neg (symbol_ne_padding _)]
  rw [toUInt8_shiftRight (n := 16) rfl (by decide), toUInt8_shiftRight (n := 8) rfl (by decide),
    toUInt8_eq, toNat_datum_four h₀ h₁ h₂ h₃, assemble, Radix.ungroup, value_digits_four,
    Nat.div_one, map_toUInt8_three]

/-- A last chunk with one byte of padding. -/
theorem decodeChunks_pair (h₀ : v₀ < 64) (h₁ : v₁ < 64) (h₂ : v₂ < 64) (hi : i = count - 1) :
    decodeChunks count i output ((symbol v₀, symbol v₁, symbol v₂, padding) :: chunks) =
      .ok (output ++ assemble 2 4 [v₀, v₁, v₂]) := by
  simp only [decodeChunks, getByte_symbol h₀, getByte_symbol h₁, getByte_symbol h₂,
    Except.ok_bind, if_neg (symbol_ne_padding _), if_pos, if_neg (not_not_intro hi)]
  have hbytes : assemble 2 4 [v₀, v₁, v₂] =
      [((v₀ * 2 ^ 18 + v₁ * 2 ^ 12 + v₂ * 2 ^ 6) / 2 ^ 16).toUInt8,
        ((v₀ * 2 ^ 18 + v₁ * 2 ^ 12 + v₂ * 2 ^ 6) / 2 ^ 8).toUInt8] := by
    have hquotient : (v₀ * 2 ^ 12 + v₁ * 2 ^ 6 + v₂) / 4 =
      (v₀ * 2 ^ 18 + v₁ * 2 ^ 12 + v₂ * 2 ^ 6) / 2 ^ 8 := by omega
    rw [assemble, Radix.ungroup, value_digits_three, map_toUInt8_two, hquotient,
      Nat.div_div_eq_div_mul, ← Nat.pow_add]
  rw [toUInt8_shiftRight (n := 16) rfl (by decide), toUInt8_shiftRight (n := 8) rfl (by decide),
    toNat_datum_three h₀ h₁ h₂, hbytes]
  rfl

/-- A last chunk with two bytes of padding. -/
theorem decodeChunks_single (h₀ : v₀ < 64) (h₁ : v₁ < 64) (hi : i = count - 1) :
    decodeChunks count i output ((symbol v₀, symbol v₁, padding, padding) :: chunks) =
      .ok (output ++ assemble 1 16 [v₀, v₁]) := by
  simp only [decodeChunks, getByte_symbol h₀, getByte_symbol h₁, Except.ok_bind, if_pos,
    if_neg (not_not_intro hi), ne_eq, not_true_eq_false, if_false]
  have hbytes : assemble 1 16 [v₀, v₁] = [((v₀ * 2 ^ 18 + v₁ * 2 ^ 12) / 2 ^ 16).toUInt8] := by
    have hquotient : (v₀ * 2 ^ 6 + v₁) / 16 = (v₀ * 2 ^ 18 + v₁ * 2 ^ 12) / 2 ^ 16 := by omega
    rw [assemble, Radix.ungroup, value_digits_two, map_toUInt8_one, hquotient]
  rw [toUInt8_shiftRight (n := 16) rfl (by decide), toNat_datum_two h₀ h₁, hbytes]
  rfl

theorem exists_four (h : vs.length = 4) : ∃ v₀ v₁ v₂ v₃, vs = [v₀, v₁, v₂, v₃] := by
  obtain ⟨v₀, vs, rfl⟩ := List.exists_cons_of_length_eq_add_one h
  obtain ⟨v₁, v₂, v₃, rfl⟩ := List.length_eq_three.mp (Nat.succ.inj h)
  exact ⟨v₀, v₁, v₂, v₃, rfl⟩

/-- The loop decodes texts. -/
theorem decodeChunks_of_decodes {bytes : List UInt8} (h : Decodes w bytes)
    (hcount : i + (asChunks4 w).1.length = count) :
    decodeChunks count i output (asChunks4 w).1 = .ok (output ++ bytes) := by
  induction h generalizing i output with
  | nil => exact congrArg Except.ok (List.append_nil output).symm
  | @more vs w bytes hlength hvs _ ih =>
    obtain ⟨v₀, v₁, v₂, v₃, rfl⟩ := exists_four hlength
    simp only [List.forall_mem_cons] at hvs
    obtain ⟨h₀, h₁, h₂, h₃, -⟩ := hvs
    have hrest : i + 1 + (asChunks4 w).1.length = count := by
      rw [← hcount]
      exact Nat.add_assoc i 1 _ |>.trans (congrArg _ (Nat.add_comm 1 _))
    change decodeChunks count i output ((_, _, _, _) :: (asChunks4 w).1) = _
    rw [decodeChunks_more h₀ h₁ h₂ h₃, ih hrest, List.append_assoc]
  | @pair vs hlength hvs =>
    obtain ⟨v₀, v₁, v₂, rfl⟩ := List.length_eq_three.mp hlength
    simp only [List.forall_mem_cons] at hvs
    obtain ⟨h₀, h₁, h₂, -⟩ := hvs
    exact decodeChunks_pair h₀ h₁ h₂ (Nat.eq_sub_of_add_eq hcount)
  | @single vs hlength hvs =>
    obtain ⟨v₀, v₁, rfl⟩ := List.length_eq_two.mp hlength
    simp only [List.forall_mem_cons] at hvs
    obtain ⟨h₀, h₁, -⟩ := hvs
    exact decodeChunks_single h₀ h₁ (Nat.eq_sub_of_add_eq hcount)

theorem length_asChunks4 (w : List UInt8) :
    w.length = 4 * (asChunks4 w).1.length + (asChunks4 w).2.length ∧
      (asChunks4 w).2.length < 4 := by
  fun_induction asChunks4 w with
  | case1 c₀ c₁ c₂ c₃ w ih =>
    simp only [List.length_cons]
    omega
  | case2 w hw =>
    refine ⟨(Nat.zero_add _).symm, Nat.lt_of_not_le fun hle => ?_⟩
    obtain ⟨c₀, w, rfl⟩ := List.exists_cons_of_length_pos (Nat.lt_of_lt_of_le (by decide) hle)
    obtain ⟨c₁, w, rfl⟩ := List.exists_cons_of_length_pos (l := w) (by simp at hle; omega)
    obtain ⟨c₂, w, rfl⟩ := List.exists_cons_of_length_pos (l := w) (by simp at hle; omega)
    obtain ⟨c₃, w, rfl⟩ := List.exists_cons_of_length_pos (l := w) (by simp at hle; omega)
    exact hw c₀ c₁ c₂ c₃ w rfl

/-- The bytes in front of `p` are in the alphabet. -/
def AcceptedTo (w : List UInt8) (p : ℕ) : Prop := ∀ q < p, ∃ c ∈ alphabet, w[q]? = some c

theorem acceptedTo_symbols (us : List ℕ) (w : List UInt8) :
    AcceptedTo (us.map symbol ++ w) us.length := by
  intro q hq
  refine ⟨symbol us[q], symbol_mem _, ?_⟩
  rw [List.getElem?_append_left (by rwa [List.length_map]), List.getElem?_map,
    List.getElem?_eq_getElem hq]
  rfl

/-- The loop stops at a byte that is not in the alphabet, with symbols in front of it. -/
theorem decodeChunks_invalidByte {c₀ c₁ c₂ c₃ : UInt8} (us : List ℕ) (hus : ∀ u ∈ us, u < 64)
    (hb : b ∉ alphabet) (hpadding : 2 ≤ us.length → b ≠ padding)
    (hchunk : [c₀, c₁, c₂, c₃] = us.map symbol ++ b :: w) :
    decodeChunks count i output ((c₀, c₁, c₂, c₃) :: chunks) =
      .error (.invalidByte (i * 4 + us.length) b) := by
  match us with
  | [] =>
    obtain ⟨rfl, -⟩ := List.cons.inj hchunk
    rw [decodeChunks, getByte_of_not_mem hb]
    rfl
  | [u₀] =>
    simp only [List.map_cons, List.map_nil, List.cons_append, List.nil_append,
      List.cons.injEq] at hchunk
    obtain ⟨rfl, rfl, -⟩ := hchunk
    simp only [List.forall_mem_cons] at hus
    rw [decodeChunks, getByte_symbol hus.1, getByte_of_not_mem hb]
    rfl
  | [u₀, u₁] =>
    simp only [List.map_cons, List.map_nil, List.cons_append, List.nil_append,
      List.cons.injEq] at hchunk
    obtain ⟨rfl, rfl, rfl, -⟩ := hchunk
    simp only [List.forall_mem_cons] at hus
    simp only [decodeChunks, getByte_symbol hus.1, getByte_symbol hus.2.1, Except.ok_bind,
      if_neg (hpadding (Nat.le_refl 2)), getByte_of_not_mem hb]
    rfl
  | [u₀, u₁, u₂] =>
    simp only [List.map_cons, List.map_nil, List.cons_append, List.nil_append,
      List.cons.injEq] at hchunk
    obtain ⟨rfl, rfl, rfl, rfl, -⟩ := hchunk
    simp only [List.forall_mem_cons] at hus
    simp only [decodeChunks, getByte_symbol hus.1, getByte_symbol hus.2.1,
      getByte_symbol hus.2.2.1, Except.ok_bind, if_neg (symbol_ne_padding u₂),
      if_neg (hpadding (Nat.le_succ 2)), getByte_of_not_mem hb]
    rfl
  | u₀ :: u₁ :: u₂ :: u₃ :: us =>
    have hlength := congrArg List.length hchunk
    simp only [List.length_cons, List.length_nil, List.length_append, List.length_map] at hlength
    omega

/-- Padding in the third place, without padding behind it or with more chunks. -/
theorem decodeChunks_padding {c₃ : UInt8} (h₀ : v₀ < 64) (h₁ : v₁ < 64)
    (h : ¬ (i = count - 1 ∧ c₃ = padding)) :
    decodeChunks count i output ((symbol v₀, symbol v₁, padding, c₃) :: chunks) =
      .error .invalidPadding := by
  simp only [decodeChunks, getByte_symbol h₀, getByte_symbol h₁, Except.ok_bind, if_pos]
  by_cases hi : i = count - 1
  · rw [if_neg (not_not_intro hi), if_pos fun hc₃ => h ⟨hi, hc₃⟩]
    rfl
  · rw [if_pos hi]
    rfl

/-- Padding in the fourth place, with more chunks. -/
theorem decodeChunks_inner (h₀ : v₀ < 64) (h₁ : v₁ < 64) (h₂ : v₂ < 64) (hi : i ≠ count - 1) :
    decodeChunks count i output ((symbol v₀, symbol v₁, symbol v₂, padding) :: chunks) =
      .error .invalidPadding := by
  simp only [decodeChunks, getByte_symbol h₀, getByte_symbol h₁, getByte_symbol h₂,
    Except.ok_bind, if_neg (symbol_ne_padding v₂), if_pos, if_pos hi]
  rfl

/-- The loop ends well for texts only, and otherwise with an error about padding or the first byte
that is not accepted. -/
theorem decodeChunks_cases (hlength : w.length % 4 = 0)
    (hcount : i + (asChunks4 w).1.length = count) :
    (∃ bytes, Decodes w bytes) ∨
      decodeChunks count i output (asChunks4 w).1 = .error .invalidPadding ∨
      ∃ p b, decodeChunks count i output (asChunks4 w).1 = .error (.invalidByte (i * 4 + p) b) ∧
        w[p]? = some b ∧ b ∉ alphabet ∧ AcceptedTo w p := by
  fun_induction asChunks4 w generalizing i output with
  | case1 c₀ c₁ c₂ c₃ w ih =>
    have htail : w.length % 4 = 0 := by
      simp only [List.length_cons] at hlength
      omega
    have hlast (hi : i = count - 1) : w = [] := by
      obtain ⟨hchunks, hremainder⟩ := length_asChunks4 w
      have hcount : i + ((asChunks4 w).1.length + 1) = count := hcount
      exact List.eq_nil_of_length_eq_zero (by omega)
    by_cases hc₀ : c₀ ∈ alphabet
    swap
    · refine .inr (.inr ⟨0, c₀, ?_, rfl, hc₀, acceptedTo_symbols [] _⟩)
      exact decodeChunks_invalidByte [] (List.forall_mem_nil _) hc₀ (fun h => absurd h (by decide)) rfl
    obtain ⟨v₀, h₀, rfl⟩ := mem_alphabet_iff.mp hc₀
    by_cases hc₁ : c₁ ∈ alphabet
    swap
    · refine .inr (.inr ⟨1, c₁, ?_, rfl, hc₁, acceptedTo_symbols [v₀] _⟩)
      exact decodeChunks_invalidByte [v₀] (by simpa) hc₁
        (fun h => absurd h (by decide : ¬ 2 ≤ 1)) rfl
    obtain ⟨v₁, h₁, rfl⟩ := mem_alphabet_iff.mp hc₁
    by_cases hpadding₂ : c₂ = padding
    · subst hpadding₂
      by_cases hend : i = count - 1 ∧ c₃ = padding
      · obtain ⟨hi, rfl⟩ := hend
        obtain rfl := hlast hi
        exact .inl ⟨_, @Decodes.single [v₀, v₁] rfl (by simp [h₀, h₁])⟩
      · exact .inr (.inl (decodeChunks_padding h₀ h₁ hend))
    by_cases hc₂ : c₂ ∈ alphabet
    swap
    · refine .inr (.inr ⟨2, c₂, ?_, rfl, hc₂, acceptedTo_symbols [v₀, v₁] _⟩)
      exact decodeChunks_invalidByte [v₀, v₁] (by simp [h₀, h₁]) hc₂ (fun _ => hpadding₂) rfl
    obtain ⟨v₂, h₂, rfl⟩ := mem_alphabet_iff.mp hc₂
    by_cases hpadding₃ : c₃ = padding
    · subst hpadding₃
      by_cases hi : i = count - 1
      · obtain rfl := hlast hi
        exact .inl ⟨_, @Decodes.pair [v₀, v₁, v₂] rfl (by simp [h₀, h₁, h₂])⟩
      · exact .inr (.inl (decodeChunks_inner h₀ h₁ h₂ hi))
    by_cases hc₃ : c₃ ∈ alphabet
    swap
    · refine .inr (.inr ⟨3, c₃, ?_, rfl, hc₃, acceptedTo_symbols [v₀, v₁, v₂] _⟩)
      exact decodeChunks_invalidByte [v₀, v₁, v₂] (by simp [h₀, h₁, h₂]) hc₃
        (fun _ => hpadding₃) rfl
    obtain ⟨v₃, h₃, rfl⟩ := mem_alphabet_iff.mp hc₃
    have hrest : i + 1 + (asChunks4 w).1.length = count :=
      (Nat.add_assoc i 1 _).trans ((congrArg _ (Nat.add_comm 1 _)).trans hcount)
    have hmore := @decodeChunks_more i count v₀ v₁ v₂ v₃ output (asChunks4 w).1 h₀ h₁ h₂ h₃
    rcases @ih (i + 1) (output ++ assemble 3 1 [v₀, v₁, v₂, v₃]) htail hrest with
      ⟨bytes, hbytes⟩ | herror | ⟨p, b, herror, hp, hb, haccepted⟩
    · exact .inl ⟨_, @Decodes.more [v₀, v₁, v₂, v₃] _ _ rfl (by simp [h₀, h₁, h₂, h₃]) hbytes⟩
    · exact .inr (.inl (hmore.trans herror))
    · refine .inr (.inr ⟨p + 4, b, ?_, hp, hb, fun q hq => ?_⟩)
      · have hpos : (i + 1) * 4 + p = i * 4 + (p + 4) := by omega
        rw [← hpos]
        exact hmore.trans herror
      · rcases Nat.lt_or_ge q 4 with hlt | hge
        · exact acceptedTo_symbols [v₀, v₁, v₂, v₃] w q hlt
        · obtain ⟨q, rfl⟩ := Nat.exists_eq_add_of_le' hge
          exact haccepted q (Nat.lt_of_add_lt_add_right hq)
  | case2 w hw =>
    have hnil : w = [] := by
      have hshort := (length_asChunks4 w).2
      rw [asChunks4.eq_2 w hw] at hshort
      exact List.eq_nil_of_length_eq_zero (Nat.mod_eq_of_lt hshort ▸ hlength)
    subst hnil
    exact .inl ⟨[], .nil⟩

end

/-! ## Padded texts -/

/-- All bytes are in the alphabet, except that the last one or the last two may be padding. -/
def Padded (w : List UInt8) : Prop :=
  w.length % 4 = 0 ∧ ∃ body pad, pad ≤ 2 ∧ (∀ b ∈ body, b ∈ alphabet) ∧
    w = body ++ List.replicate pad padding

/-- The second text is the first one with the unused bits of the last symbol in front of the
padding zeroed. -/
def Cleared (w t : List UInt8) : Prop :=
  w = [] ∧ t = [] ∨ ∃ body v pad, v < 64 ∧ pad ≤ 2 ∧
    w = body ++ symbol v :: List.replicate pad padding ∧
    t = body ++ symbol (v / 4 ^ pad * 4 ^ pad) :: List.replicate pad padding

section

variable {bytes : List UInt8} {pad c e : ℕ} {es : List ℕ}

theorem exists_symbols (h : ∀ b ∈ w, b ∈ alphabet) :
    ∃ vs : List ℕ, w = vs.map symbol ∧ ∀ v ∈ vs, v < 64 := by
  induction w with
  | nil => exact ⟨[], rfl, List.forall_mem_nil _⟩
  | cons b w ih =>
    obtain ⟨hb, hw⟩ := List.forall_mem_cons.mp h
    obtain ⟨v, hv, rfl⟩ := mem_alphabet_iff.mp hb
    obtain ⟨vs, rfl, hvs⟩ := ih hw
    exact ⟨v :: vs, rfl, List.forall_mem_cons.mpr ⟨hv, hvs⟩⟩

theorem exists_decodes (hpad : pad ≤ 2) : ∀ vs : List ℕ, (∀ v ∈ vs, v < 64) →
    (vs.length + pad) % 4 = 0 → ∃ bytes, Decodes (vs.map symbol ++ List.replicate pad padding) bytes
  | v₀ :: v₁ :: v₂ :: v₃ :: vs, hvs, hlength => by
    obtain ⟨h₀, hvs⟩ := List.forall_mem_cons.mp hvs
    obtain ⟨h₁, hvs⟩ := List.forall_mem_cons.mp hvs
    obtain ⟨h₂, hvs⟩ := List.forall_mem_cons.mp hvs
    obtain ⟨h₃, hvs⟩ := List.forall_mem_cons.mp hvs
    simp only [List.length_cons] at hlength
    obtain ⟨bytes, hbytes⟩ := exists_decodes hpad vs hvs (by omega)
    exact ⟨_, @Decodes.more [v₀, v₁, v₂, v₃] _ _ rfl (by simp [h₀, h₁, h₂, h₃]) hbytes⟩
  | [v₀, v₁, v₂], hvs, hlength => by
    simp only [List.length_cons, List.length_nil] at hlength
    obtain rfl : pad = 1 := by omega
    exact ⟨_, @Decodes.pair [v₀, v₁, v₂] rfl hvs⟩
  | [v₀, v₁], hvs, hlength => by
    simp only [List.length_cons, List.length_nil] at hlength
    obtain rfl : pad = 2 := by omega
    exact ⟨_, @Decodes.single [v₀, v₁] rfl hvs⟩
  | [v₀], hvs, hlength => by
    simp only [List.length_cons, List.length_nil] at hlength
    omega
  | [], hvs, hlength => by
    simp only [List.length_nil] at hlength
    obtain rfl : pad = 0 := by omega
    exact ⟨_, .nil⟩

theorem Decodes.padded (h : Decodes w bytes) : Padded w := by
  have hsymbols (vs : List ℕ) : ∀ b ∈ vs.map symbol, b ∈ alphabet := by
    rw [List.forall_mem_map]
    exact fun v _ => symbol_mem v
  induction h with
  | nil => exact ⟨rfl, [], 0, by decide, List.forall_mem_nil _, rfl⟩
  | @more vs w bytes hlength hvs _ ih =>
    obtain ⟨hmod, body, pad, hpad, hbody, rfl⟩ := ih
    refine ⟨?_, vs.map symbol ++ body, pad, hpad, ?_, (List.append_assoc ..).symm⟩
    · rw [List.length_append, List.length_map, hlength, Nat.add_mod_left, hmod]
    · exact List.forall_mem_append.mpr ⟨hsymbols vs, hbody⟩
  | @pair vs hlength hvs =>
    refine ⟨?_, vs.map symbol, 1, by decide, hsymbols vs, rfl⟩
    rw [List.length_append, List.length_map, hlength]
    rfl
  | @single vs hlength hvs =>
    refine ⟨?_, vs.map symbol, 2, by decide, hsymbols vs, rfl⟩
    rw [List.length_append, List.length_map, hlength]
    rfl

/-- The texts are those that are padded. -/
theorem padded_iff : Padded w ↔ ∃ bytes, Decodes w bytes := by
  constructor
  · rintro ⟨hmod, body, pad, hpad, hbody, rfl⟩
    obtain ⟨vs, rfl, hvs⟩ := exists_symbols hbody
    rw [List.length_append, List.length_map, List.length_replicate] at hmod
    exact exists_decodes hpad vs hvs hmod
  · rintro ⟨bytes, h⟩
    exact h.padded

theorem length_assemble : (assemble m c vs).length = m := by
  rw [assemble, List.length_map]
  exact Radix.length_digits

theorem Decodes.length (h : Decodes w bytes) :
    4 * (bytes.length + w.count padding) = 3 * w.length := by
  have hcount (vs : List ℕ) : (vs.map symbol).count padding = 0 := by
    refine List.count_eq_zero.mpr fun hmem => ?_
    obtain ⟨v, -, hv⟩ := List.mem_map.mp hmem
    exact symbol_ne_padding v hv
  induction h with
  | nil => rfl
  | more hlength _ _ ih =>
    rw [List.length_append, List.length_append, length_assemble, List.count_append, hcount,
      List.length_map, hlength]
    omega
  | pair hlength _ =>
    rw [List.length_append, length_assemble, List.count_append, hcount, List.length_map, hlength]
    rfl
  | single hlength _ =>
    rw [List.length_append, length_assemble, List.count_append, hcount, List.length_map, hlength]
    rfl

/-- The unused bits of the last symbol are lost. -/
theorem symbols_assemble {k : ℕ} (hvs : ∀ v ∈ es ++ [e], v < 64) (hk : es.length + 1 = k)
    (hc : c ∣ 64) (hroom : 64 ^ k ≤ 256 ^ m * c) :
    symbols k c (assemble m c (es ++ [e])) = es.map symbol ++ [symbol (e / c * c)] := by
  subst hk
  have hback : (assemble m c (es ++ [e])).map UInt8.toNat =
      Radix.ungroup 256 64 m c (es ++ [e]) := by
    rw [assemble, List.map_map]
    refine (List.map_congr_left fun n hn => ?_).trans (List.map_id _)
    exact Nat.mod_eq_of_lt (Radix.lt_of_mem_digits (by decide) hn)
  rw [symbols, hback, Radix.regroup_ungroup (by decide) hc hvs hroom, List.map_append]
  rfl

theorem encoded_append {v : List UInt8} (hv : v.length = 3) (data : List UInt8) :
    encoded (v ++ data) = symbols 4 1 v ++ encoded data := by
  obtain ⟨x, y, z, rfl⟩ := List.length_eq_three.mp hv
  rfl

theorem encoded_pair {v : List UInt8} (hv : v.length = 2) :
    encoded v = symbols 3 4 v ++ [padding] := by
  obtain ⟨l, r, rfl⟩ := List.length_eq_two.mp hv
  rfl

theorem encoded_single {v : List UInt8} (hv : v.length = 1) :
    encoded v = symbols 2 16 v ++ [padding, padding] := by
  obtain ⟨b, rfl⟩ := List.length_eq_one_iff.mp hv
  rfl

theorem exists_concat {k : ℕ} (h : vs.length = k + 1) :
    ∃ es e, vs = es ++ [e] ∧ es.length + 1 = k + 1 := by
  obtain rfl | ⟨es, e, rfl⟩ := List.eq_nil_or_concat' vs
  · cases h
  · exact ⟨es, e, rfl, by rwa [List.length_append] at h⟩

/-- What is decoded is encoded as the same text, but for unused bits. -/
theorem Decodes.cleared (h : Decodes w bytes) : Cleared w (encoded bytes) := by
  induction h with
  | nil => exact .inl ⟨rfl, rfl⟩
  | @more vs w bytes hlength hvs _ ih =>
    obtain ⟨es, e, rfl, hes⟩ := exists_concat hlength
    have hsymbols := symbols_assemble (c := 1) (m := 3) hvs hes (by decide) (by decide)
    rw [Nat.div_one, Nat.mul_one] at hsymbols
    rw [encoded_append length_assemble, hsymbols]
    obtain ⟨rfl, hnil⟩ | ⟨body, v, pad, hv, hpad, rfl, hencoded⟩ := ih
    · refine .inr ⟨es.map symbol, e, 0, hvs e (by simp), by decide, ?_, ?_⟩
      · simp
      · simp [hnil]
    · refine .inr ⟨es.map symbol ++ [symbol e] ++ body, v, pad, hv, hpad, ?_, ?_⟩
      · simp
      · simp [hencoded]
  | pair hlength hvs =>
    obtain ⟨es, e, rfl, hes⟩ := exists_concat hlength
    have hsymbols := symbols_assemble (c := 4) (m := 2) hvs hes (by decide) (by decide)
    rw [encoded_pair length_assemble, hsymbols]
    refine .inr ⟨es.map symbol, e, 1, hvs e (by simp), by decide, ?_, ?_⟩
    · simp
    · simp
  | single hlength hvs =>
    obtain ⟨es, e, rfl, hes⟩ := exists_concat hlength
    have hsymbols := symbols_assemble (c := 16) (m := 1) hvs hes (by decide) (by decide)
    rw [encoded_single length_assemble, hsymbols]
    refine .inr ⟨es.map symbol, e, 2, hvs e (by simp), by decide, ?_, ?_⟩
    · simp [List.replicate]
    · simp [List.replicate]

/-! ## The whole text -/

theorem decode_eq {s : String} (h : (asBytes s).length % 4 = 0) : decode s =
    .ok (decodeChunks (asChunks4 (asBytes s)).1.length 0 [] (asChunks4 (asBytes s)).1) := by
  obtain ⟨hchunks, hremainder⟩ := length_asChunks4 (asBytes s)
  have hnil : (asChunks4 (asBytes s)).2 = [] := List.eq_nil_of_length_eq_zero (by omega)
  rw [decode, if_pos h]
  dsimp only
  rw [hnil]
  rfl

theorem decode_of_decodes {s : String} (h : Decodes (asBytes s) bytes) :
    decode s = .ok (.ok bytes) := by
  rw [decode_eq h.padded.1, decodeChunks_of_decodes h (Nat.zero_add _)]
  rfl

/-- What is encoded is decoded again, and has four symbols for each three bytes. -/
theorem decode_encode (data : List UInt8) : ∃ s, encode data = .ok s ∧
    (asBytes s).length = 4 * ((data.length + 2) / 3) ∧ decode s = .ok (.ok data) := by
  obtain ⟨s, hencode, hs⟩ := encode_returns data
  refine ⟨s, hencode, hs ▸ length_encoded data, decode_of_decodes ?_⟩
  rw [hs]
  exact decodes_encoded data

/-- Decoding succeeds for padded texts only, and what it returns is encoded as the text again, but
for unused bits. Otherwise, an invalid byte is the first that is not accepted. -/
theorem decode_spec (s : String) : ∃ result, decode s = .ok result ∧
    ((∃ data, result = .ok data) ↔ Padded (asBytes s)) ∧
    (∀ data, result = .ok data →
      data.length = 3 * (asBytes s).length / 4 - (asBytes s).count padding ∧
      ∃ t, encode data = .ok t ∧ Cleared (asBytes s) (asBytes t)) ∧
    ∀ p b, result = .error (.invalidByte p b) →
      (asBytes s)[p]? = some b ∧ b ∉ alphabet ∧ AcceptedTo (asBytes s) p := by
  by_cases hpadded : Padded (asBytes s)
  · obtain ⟨bytes, hbytes⟩ := padded_iff.mp hpadded
    refine ⟨.ok bytes, decode_of_decodes hbytes, iff_of_true ⟨bytes, rfl⟩ hpadded, ?_, ?_⟩
    · rintro data hdata
      obtain rfl := Except.ok.inj hdata
      obtain ⟨t, hencode, ht⟩ := encode_returns bytes
      have hlength := hbytes.length
      exact ⟨by omega, t, hencode, ht ▸ hbytes.cleared⟩
    · exact fun p b h => by cases h
  by_cases hlength : (asBytes s).length % 4 = 0
  · obtain ⟨bytes, hbytes⟩ | herror | ⟨p, b, herror, hp⟩ :=
      @decodeChunks_cases (asBytes s) 0 _ [] hlength (Nat.zero_add _)
    · exact absurd hbytes.padded hpadded
    · refine ⟨_, (decode_eq hlength).trans (congrArg _ herror), ?_, ?_, ?_⟩
      · exact iff_of_false (fun ⟨data, h⟩ => by cases h) hpadded
      · exact fun data h => by cases h
      · exact fun p b h => by cases h
    · refine ⟨_, (decode_eq hlength).trans (congrArg _ herror), ?_, ?_, ?_⟩
      · exact iff_of_false (fun ⟨data, h⟩ => by cases h) hpadded
      · exact fun data h => by cases h
      · rintro p' b' h
        cases h
        rwa [Nat.zero_mul, Nat.zero_add]
  · refine ⟨.error .invalidLength, if_neg hlength, ?_, ?_, ?_⟩
    · exact iff_of_false (fun ⟨data, h⟩ => by cases h) hpadded
    · exact fun data h => by cases h
    · exact fun p b h => by cases h

end

end Base64

end Miniraft

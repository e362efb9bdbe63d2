import Mathlib.Algebra.GroupWithZero.Nat
import Mathlib.Data.List.Forall2
import Miniraft.Verify.Lexeme

/-!
# String literals

`visitString` reads exactly the strings of the grammar (`visitString_eq_ok_iff`). The escape of a
high surrogate takes one iteration of its loop, that of the low one the next: between the two the
surrogate is pending.
-/

namespace Miniraft

namespace Json

open Tape Grammar

variable {p q : Parser} {b c : UInt8} {w : List UInt8} {s : String}

/-! ## Hexadecimal digits -/

theorem toNat_sub {lo : UInt8} (h : lo ≤ c) : (c - lo).toUInt16.toNat = c.toNat - lo.toNat := by
  rw [UInt8.toNat_toUInt16, UInt8.toNat_sub_of_le _ _ h]

theorem toNat_sub_add_ten {lo : UInt8} (h : lo ≤ c) (hlt : c.toNat - lo.toNat < 6) :
    (c - lo + 10).toUInt16.toNat = c.toNat - lo.toNat + 10 := by
  rw [UInt8.toNat_toUInt16, UInt8.toNat_add, UInt8.toNat_sub_of_le _ _ h]
  exact Nat.mod_eq_of_lt (by change c.toNat - lo.toNat + 10 < 256; omega)

theorem toDigit16_eq_some_iff {d : UInt16} : toDigit16 c = some d ↔ HexDigit c d.toNat := by
  have hlower (h : c ≤ ascii 'f') : c.toNat - (ascii 'a').toNat < 6 := by
    have := UInt8.le_iff_toNat_le.mp h
    change c.toNat ≤ 0x66 at this
    change c.toNat - 0x61 < 6
    omega
  have hupper (h : c ≤ ascii 'F') : c.toNat - (ascii 'A').toNat < 6 := by
    have := UInt8.le_iff_toNat_le.mp h
    change c.toNat ≤ 0x46 at this
    change c.toNat - 0x41 < 6
    omega
  unfold toDigit16
  constructor
  · intro h
    split at h
    · next hc =>
      obtain rfl := Option.some.inj h
      rw [toNat_sub hc.1]
      exact .digit hc.1 hc.2
    split at h
    · next hc =>
      obtain rfl := Option.some.inj h
      rw [toNat_sub_add_ten hc.1 (hlower hc.2)]
      exact .lower hc.1 hc.2
    split at h
    · next hc =>
      obtain rfl := Option.some.inj h
      rw [toNat_sub_add_ten hc.1 (hupper hc.2)]
      exact .upper hc.1 hc.2
    · cases h
  · intro h
    generalize hn : d.toNat = n at h
    cases h with
    | digit h₁ h₂ =>
      rw [if_pos ⟨h₁, h₂⟩, Option.some.injEq, ← UInt16.toNat_inj, hn]
      exact toNat_sub h₁
    | upper h₁ h₂ =>
      have hdigit : ¬ (ascii '0' ≤ c ∧ c ≤ ascii '9') := fun h =>
        absurd (UInt8.le_trans h₁ h.2) (by decide)
      have hlower' : ¬ (ascii 'a' ≤ c ∧ c ≤ ascii 'f') := fun h =>
        absurd (UInt8.le_trans h.1 h₂) (by decide)
      rw [if_neg hdigit, if_neg hlower', if_pos ⟨h₁, h₂⟩, Option.some.injEq, ← UInt16.toNat_inj,
        hn]
      exact toNat_sub_add_ten h₁ (hupper h₂)
    | lower h₁ h₂ =>
      have hdigit : ¬ (ascii '0' ≤ c ∧ c ≤ ascii '9') := fun h =>
        absurd (UInt8.le_trans h₁ h.2) (by decide)
      rw [if_neg hdigit, if_pos ⟨h₁, h₂⟩, Option.some.injEq, ← UInt16.toNat_inj, hn]
      exact toNat_sub_add_ten h₁ (hlower h₂)

theorem Grammar.HexDigit.lt {n : ℕ} (h : HexDigit c n) : n < 16 := by
  cases h with
  | digit _ h =>
    have := UInt8.le_iff_toNat_le.mp h
    change c.toNat ≤ 0x39 at this
    omega
  | upper _ h =>
    have := UInt8.le_iff_toNat_le.mp h
    change c.toNat ≤ 0x46 at this
    omega
  | lower _ h =>
    have := UInt8.le_iff_toNat_le.mp h
    change c.toNat ≤ 0x66 at this
    omega

/-- One more digit. -/
theorem toNat_shiftLeft_or {val d : UInt16} (hval : (val.toNat + 1) * 16 ≤ 2 ^ 16)
    (hd : d.toNat < 16) : ((val <<< 4) ||| d).toNat = val.toNat * 16 + d.toNat := by
  have hshift : (val <<< 4).toNat = val.toNat <<< 4 := by
    rw [UInt16.toNat_shiftLeft]
    refine Nat.mod_eq_of_lt ?_
    change val.toNat <<< 4 < 2 ^ 16
    rw [Nat.shiftLeft_eq]
    omega
  rw [UInt16.toNat_or, hshift, ← Nat.shiftLeft_add_eq_or_of_lt hd, Nat.shiftLeft_eq]

theorem collectHex_eq_ok_iff {n : ℕ} {val code : UInt16} (hval : (val.toNat + 1) * 16 ^ n ≤ 2 ^ 16) :
    (collectHex n val).run p = .ok (code, q) ↔ ∃ w ds, Takes p w q ∧ List.Forall₂ HexDigit w ds ∧
      ds.length = n ∧ code.toNat = ds.foldl (· * 16 + ·) val.toNat := by
  induction n generalizing p val with
  | zero =>
    rw [collectHex, StateT.run_pure_eq_ok_iff]
    constructor
    · rintro ⟨rfl, rfl⟩
      exact ⟨[], [], .nil p, .nil, rfl, rfl⟩
    · rintro ⟨w, ds, htake, hds, hlen, hcode⟩
      obtain rfl := List.length_eq_zero_iff.mp hlen
      cases hds
      exact ⟨UInt16.toNat_inj.mp hcode.symm, Takes.nil_iff.mp htake⟩
  | succ n ih =>
    have hval' : (val.toNat + 1) * 16 ≤ 2 ^ 16 :=
      Nat.le_trans (Nat.mul_le_mul_left _ (Nat.le_self_pow (by omega) 16)) hval
    have hnext {d : UInt16} (hd : d.toNat < 16) :
        (((val <<< 4) ||| d).toNat + 1) * 16 ^ n ≤ 2 ^ 16 := by
      rw [toNat_shiftLeft_or hval' hd]
      refine Nat.le_trans (Nat.mul_le_mul_right _ (?_ : _ ≤ (val.toNat + 1) * 16)) ?_
      · omega
      · rwa [Nat.mul_assoc, ← Nat.pow_succ']
    rw [collectHex, StateT.run_bind_eq_ok_iff]
    constructor
    · rintro ⟨c, p', hadv, h⟩
      split at h
      · exact absurd h fail_ne_ok
      · next d hd =>
        have hc := toDigit16_eq_some_iff.mp hd
        obtain ⟨w, ds, htake, hds, rfl, hcode⟩ := (ih (hnext hc.lt)).mp h
        refine ⟨c :: w, d.toNat :: ds, (advance_eq_ok_iff.mp hadv).cons htake, .cons hc hds, rfl, ?_⟩
        rw [hcode, toNat_shiftLeft_or hval' hc.lt, List.foldl_cons]
    · rintro ⟨w, ds, htake, hds, hlen, hcode⟩
      cases hds with
      | nil => cases hlen
      | @cons c i w ds hc hds =>
        obtain ⟨p', hadv, hw⟩ := advance_of_takes htake
        refine ⟨c, p', hadv, ?_⟩
        have hi : (UInt16.ofNat i).toNat = i :=
          UInt16.toNat_ofNat_of_lt' (Nat.lt_trans hc.lt (by decide))
        rw [← hi] at hc
        rw [toDigit16_eq_some_iff.mpr hc]
        refine (ih (hnext hc.lt)).mpr ⟨w, ds, hw, hds, Nat.succ.inj hlen, ?_⟩
        rw [hcode, toNat_shiftLeft_or hval' hc.lt, List.foldl_cons, hi]

theorem collectUnicodeEscapeHexDigits_eq_ok_iff {code : UInt16} :
    collectUnicodeEscapeHexDigits.run p = .ok (code, q) ↔
      ∃ w, Takes p w q ∧ Hex4 w code.toNat := by
  rw [collectUnicodeEscapeHexDigits, collectHex_eq_ok_iff (by decide)]
  constructor
  · rintro ⟨w, ds, htake, hds, hlen, hcode⟩
    match ds, hlen with
    | [i, j, k, l], _ =>
      cases hds with | cons ha hds =>
      cases hds with | cons hb hds =>
      cases hds with | cons hc hds =>
      cases hds with | cons hd hds =>
      cases hds
      simp only [List.foldl_cons, List.foldl_nil, UInt16.toNat_zero, Nat.zero_mul,
        Nat.zero_add] at hcode
      exact ⟨_, htake, hcode ▸ .mk ha hb hc hd⟩
  · rintro ⟨w, htake, hhex⟩
    generalize hn : code.toNat = n at hhex
    cases hhex with
    | mk ha hb hc hd =>
      refine ⟨_, [_, _, _, _], htake, .cons ha (.cons hb (.cons hc (.cons hd .nil))), rfl, ?_⟩
      simp only [List.foldl_cons, List.foldl_nil, UInt16.toNat_zero, Nat.zero_mul, Nat.zero_add]

/-! ## Surrogates -/

theorem isHighSurrogate_iff {code : UInt16} : isHighSurrogate code ↔ HighSurrogate code.toNat := by
  rw [isHighSurrogate, Bool.and_eq_true, decide_eq_true_eq, decide_eq_true_eq,
    UInt16.le_iff_toNat_le, UInt16.le_iff_toNat_le]
  rfl

theorem isLowSurrogate_iff {code : UInt16} : isLowSurrogate code ↔ LowSurrogate code.toNat := by
  rw [isLowSurrogate, Bool.and_eq_true, decide_eq_true_eq, decide_eq_true_eq,
    UInt16.le_iff_toNat_le, UInt16.le_iff_toNat_le]
  rfl

/-- Two units are one character if they are a surrogate pair. -/
theorem decodeUtf16_pair_iff {high low : UInt16} {c : Char} :
    decodeUtf16 [high, low] = [.ok c] ↔ HighSurrogate high.toNat ∧ LowSurrogate low.toNat ∧
      c = ofSurrogates high.toNat low.toNat := by
  rw [← isHighSurrogate_iff, ← isLowSurrogate_iff, decodeUtf16]
  cases hhigh : isHighSurrogate high with
  | true =>
    cases hlow : isLowSurrogate low with
    | true => simp [decodeUtf16, ofSurrogates, eq_comm]
    | false => simp
  | false =>
    cases isLowSurrogate high with
    | true => simp
    | false =>
      have hne : decodeUtf16 [low] ≠ [] := by
        rw [decodeUtf16]
        split
        · exact List.cons_ne_nil _ _
        · exact List.cons_ne_nil _ _
      simp [hne]

theorem Grammar.Hex4.lt {n : ℕ} (h : Hex4 w n) : n < 2 ^ 16 := by
  cases h with
  | mk ha hb hc hd =>
    have := ha.lt
    have := hb.lt
    have := hc.lt
    have := hd.lt
    omega

theorem Grammar.Hex4.toNat {n : ℕ} (h : Hex4 w n) : (UInt16.ofNat n).toNat = n :=
  UInt16.toNat_ofNat_of_lt' h.lt

/-- The parser without a pending surrogate. -/
def Parser.calm (p : Parser) : Parser := p.within none p.depth

theorem pushPair_eq_ok_iff {chars : List (Except UInt16 Char)} {s' : String} :
    (pushPair s chars).run p = .ok (s', q) ↔
      ∃ c, chars = [.ok c] ∧ q = p.calm ∧ s' = s.push c := by
  cases chars with
  | nil => exact iff_of_false panicked_ne_ok nofun
  | cons r chars =>
    cases r with
    | error code => exact iff_of_false fail_ne_ok (by simp)
    | ok c =>
      rw [pushPair]
      split
      · next hne => exact iff_of_false panicked_ne_ok (by simp [hne])
      · next hnil =>
        obtain rfl := not_not.mp hnil
        rw [run_modify_bind, StateT.run_pure_eq_ok_iff]
        constructor
        · rintro ⟨rfl, rfl⟩
          exact ⟨c, rfl, rfl, rfl⟩
        · rintro ⟨c', hc, rfl, rfl⟩
          obtain rfl := Except.ok.inj (List.cons.inj hc).1
          exact ⟨rfl, rfl⟩

theorem visitLowSurrogate_none (h : p.pendingHighSurrogate = none) :
    (visitLowSurrogate s).run p = .ok (s, p) := by
  rw [visitLowSurrogate, run_get_bind, h]
  rfl

theorem visitLowSurrogate_eq_ok_iff {high : UInt16} {s' : String}
    (h : p.pendingHighSurrogate = some high) : (visitLowSurrogate s).run p = .ok (s', q) ↔
      HighSurrogate high.toNat ∧ ∃ l n, Hex4 l n ∧ LowSurrogate n ∧ Takes p.calm (0x5C :: 0x75 :: l) q ∧
        s' = s.push (ofSurrogates high.toNat n) := by
  rw [visitLowSurrogate, run_get_bind, h]
  constructor
  · intro hrun
    dsimp only at hrun
    obtain ⟨b, p₁, hadv₁, h₁⟩ := StateT.run_bind_eq_ok_iff.mp hrun
    obtain ⟨c, p₂, hadv₂, h₂⟩ := StateT.run_bind_eq_ok_iff.mp h₁
    split at h₂
    · next hescape =>
      obtain ⟨code, p₃, hcode, h₃⟩ := StateT.run_bind_eq_ok_iff.mp h₂
      obtain ⟨l, htake, hhex⟩ := collectUnicodeEscapeHexDigits_eq_ok_iff.mp hcode
      obtain ⟨ch, hch, rfl, rfl⟩ := pushPair_eq_ok_iff.mp h₃
      obtain ⟨hhigh, hlow, hpair⟩ := decodeUtf16_pair_iff.mp hch
      refine ⟨hhigh, l, code.toNat, hhex, hlow, ?_, by rw [hpair]⟩
      obtain ⟨rfl, rfl⟩ := hescape
      have hall := (advance_eq_ok_iff.mp hadv₁).cons ((advance_eq_ok_iff.mp hadv₂).cons htake)
      have hdepth : p.depth = p₃.depth := (takes_depth hall).symm
      rw [Parser.calm, Parser.calm, hdepth]
      exact takes_within hall none p₃.depth
    · exact absurd h₂ fail_ne_ok
  · rintro ⟨hhigh, l, n, hhex, hlow, hcalm, rfl⟩
    obtain ⟨q', htake, rfl⟩ := takes_of_within hcalm
    obtain ⟨p₁, hadv₁, htake₁⟩ := advance_of_takes htake
    obtain ⟨p₂, hadv₂, htake₂⟩ := advance_of_takes htake₁
    have hn := hhex.toNat
    rw [← hn] at hhex hlow ⊢
    have hdecode : decodeUtf16 [high, UInt16.ofNat n] = [.ok _] :=
      decodeUtf16_pair_iff.mpr ⟨hhigh, hlow, rfl⟩
    dsimp only
    rw [StateT.run_bind_of_ok hadv₁, StateT.run_bind_of_ok hadv₂, if_pos ⟨rfl, rfl⟩,
      StateT.run_bind_of_ok (collectUnicodeEscapeHexDigits_eq_ok_iff.mpr ⟨l, htake₂, hhex⟩)]
    refine pushPair_eq_ok_iff.mpr ⟨_, hdecode, ?_, rfl⟩
    rw [Parser.calm, ← takes_depth htake]

/-! ## Characters -/

theorem unescape_eq_some_iff {ch : Char} : unescape b = some ch ↔ Escape b ch := by
  constructor
  · intro h
    unfold unescape at h
    repeat'
      split at h
      · next hb =>
        subst hb
        obtain rfl := Option.some.inj h
        constructor
    cases h
  · intro h
    cases h <;> rfl

/-- A lexeme of one character that is not a surrogate pair. -/
inductive Single : List UInt8 → Char → Prop
  | unescaped : 0x20 ≤ ch.toNat → ch ≠ '"' → ch ≠ '\\' → Single (String.utf8EncodeChar ch) ch
  | escape : Escape e ch → Single [0x5C, e] ch
  | unicode : Hex4 h n → ¬ HighSurrogate n → ¬ LowSurrogate n →
    Single (0x5C :: 0x75 :: h) (Char.ofNat n)

theorem Single.chr {ch : Char} (h : Single w ch) : Chr w ch := by
  cases h with
  | unescaped h₁ h₂ h₃ => exact .unescaped h₁ h₂ h₃
  | escape h => exact .escape h
  | unicode h₁ h₂ h₃ => exact .unicode h₁ h₂ h₃

/-- What an iteration reads when no surrogate is pending. -/
inductive CharRead (s : String) (p : Parser) : LoopFlow String String → Parser → Prop
  | close : Takes p [0x22] t → CharRead s p (.done s) t
  | single : Single v ch → Takes p v t → CharRead s p (.next (s.push ch)) t
  | high : Hex4 h n → HighSurrogate n → Takes p (0x5C :: 0x75 :: h) t →
    CharRead s p (.next s) (t.within (some (UInt16.ofNat n)) t.depth)

theorem isValidChar_of_not_surrogate {n : ℕ} (hlt : n < 2 ^ 16) (hhigh : ¬ HighSurrogate n)
    (hlow : ¬ LowSurrogate n) : n.isValidChar := by
  simp only [HighSurrogate, LowSurrogate] at hhigh hlow
  simp only [Nat.isValidChar]
  omega

theorem visitUnicodeEscape_eq_ok_iff {r : LoopFlow String String} (hp : p.pendingHighSurrogate = none) :
    (visitUnicodeEscape s).run p = .ok (r, q) ↔ ∃ h n, Hex4 h n ∧
      (¬ HighSurrogate n ∧ ¬ LowSurrogate n ∧ Takes p h q ∧ r = .next (s.push (Char.ofNat n)) ∨
        HighSurrogate n ∧ ∃ q', Takes p h q' ∧ q = q'.within (some (UInt16.ofNat n)) q'.depth ∧
          r = .next s) := by
  rw [visitUnicodeEscape, StateT.run_bind_eq_ok_iff]
  constructor
  · rintro ⟨code, p', hcode, h⟩
    obtain ⟨l, htake, hhex⟩ := collectUnicodeEscapeHexDigits_eq_ok_iff.mp hcode
    refine ⟨l, code.toNat, hhex, ?_⟩
    rw [run_get_bind, takes_pending htake, hp] at h
    split at h
    · exact absurd h panicked_ne_ok
    split at h
    · next hhigh =>
      split at h
      · exact absurd h panicked_ne_ok
      rw [run_modify_bind] at h
      obtain ⟨rfl, rfl⟩ := StateT.run_pure_eq_ok_iff.mp h
      refine .inr ⟨isHighSurrogate_iff.mp hhigh, p', htake, ?_, rfl⟩
      rw [UInt16.ofNat_toNat]
      rfl
    split at h
    · exact absurd h fail_ne_ok
    split at h
    · next hhigh hlow _ =>
      obtain ⟨rfl, rfl⟩ := StateT.run_pure_eq_ok_iff.mp h
      exact .inl ⟨fun h => hhigh (isHighSurrogate_iff.mpr h),
        fun h => hlow (isLowSurrogate_iff.mpr h), htake, rfl⟩
    · exact absurd h panicked_ne_ok
  · rintro ⟨l, n, hhex, h⟩
    have hn := hhex.toNat
    have hlt := hhex.lt
    rw [← hn] at hhex
    rcases h with ⟨hhigh, hlow, htake, rfl⟩ | ⟨hhigh, q', htake, rfl, rfl⟩
    · refine ⟨_, q, collectUnicodeEscapeHexDigits_eq_ok_iff.mpr ⟨l, htake, hhex⟩, ?_⟩
      rw [run_get_bind, takes_pending htake, hp, if_neg (by simp), if_neg, if_neg, if_pos, hn]
      · rfl
      · rw [hn]
        exact isValidChar_of_not_surrogate hlt hhigh hlow
      · rw [isLowSurrogate_iff, hn]
        exact hlow
      · rw [isHighSurrogate_iff, hn]
        exact hhigh
    · refine ⟨_, q', collectUnicodeEscapeHexDigits_eq_ok_iff.mpr ⟨l, htake, hhex⟩, ?_⟩
      have hpos : ¬ UInt16.ofNat n = 0 := by
        intro hzero
        rw [hzero] at hn
        exact absurd (hn ▸ hhigh.1) (by decide)
      rw [run_get_bind, takes_pending htake, hp, if_neg (by simp), if_pos, if_neg hpos]
      · rfl
      · rw [isHighSurrogate_iff, hn]
        exact hhigh

theorem advances_eq_ok_iff {n : ℕ} :
    (advances n).run p = .ok (w, q) ↔ Takes p w q ∧ w.length = n := by
  induction n generalizing p w with
  | zero =>
    rw [advances, StateT.run_pure_eq_ok_iff, List.length_eq_zero_iff]
    constructor
    · rintro ⟨rfl, rfl⟩
      exact ⟨.nil p, rfl⟩
    · rintro ⟨htake, rfl⟩
      exact ⟨rfl, Takes.nil_iff.mp htake⟩
  | succ n ih =>
    simp only [advances, StateT.run_bind_eq_ok_iff, StateT.run_pure_eq_ok_iff]
    constructor
    · rintro ⟨b, p', hadv, w', q', h, rfl, rfl⟩
      obtain ⟨htake, rfl⟩ := ih.mp h
      exact ⟨(advance_eq_ok_iff.mp hadv).cons htake, rfl⟩
    · rintro ⟨htake, hlen⟩
      cases w with
      | nil => cases hlen
      | cons b w =>
        obtain ⟨p', hadv, hw⟩ := advance_of_takes htake
        exact ⟨b, p', hadv, w, q, ih.mpr ⟨hw, Nat.succ.inj hlen⟩, rfl, rfl⟩

/-- The bytes that have been set are those up to the index. -/
theorem getTo_set (hlen : w.length ≤ 3) :
    getTo (((b :: w).rightpad 4 0).take 4) (w.length + 1) = some (b :: w) := by
  have hle : w.length + 1 ≤ (((b :: w).rightpad 4 0).take 4).length := by
    rw [List.length_take, List.rightpad, List.length_append, List.length_replicate,
      List.length_cons]
    omega
  rw [getTo, if_pos hle, List.take_take, Nat.min_eq_left (by omega), List.rightpad,
    List.take_left' (List.length_cons ..)]

theorem continuation_ne_zero (hb : 0x80 ≤ b) : 0b10000000 &&& b ≠ 0 := by
  have h : ∀ x < 0x80, 0x80 &&& (x + 0x80) ≠ 0 := by decide
  have hle : 0x80 ≤ b.toNat := UInt8.le_iff_toNat_le.mp hb
  have hlt := b.toNat_lt
  intro hzero
  have hnat := congrArg UInt8.toNat hzero
  rw [UInt8.toNat_and, ← Nat.sub_add_cancel hle] at hnat
  exact h _ (by omega) hnat

theorem utf8Following_le {n : ℕ} (h : utf8Following b = some n) : n ≤ 3 := by
  unfold utf8Following at h
  split at h
  · exact Option.some.inj h ▸ by decide
  split at h
  · exact Option.some.inj h ▸ by decide
  split at h
  · exact Option.some.inj h ▸ by decide
  · cases h

theorem pushUtf8_of_none {n : ℕ} (hn : w.length = n) (hle : n ≤ 3)
    (h : String.fromUTF8? (b :: w).toByteArray = none) :
    pushUtf8 s (((b :: w).rightpad 4 0).take 4) (n + 1) =
      fail (.unicodeError .invalidUtf8) := by
  subst hn
  simp only [pushUtf8, getTo_set hle, h]

theorem pushUtf8_of_some {n : ℕ} {c : String} (hn : w.length = n) (hle : n ≤ 3)
    (h : String.fromUTF8? (b :: w).toByteArray = some c) :
    pushUtf8 s (((b :: w).rightpad 4 0).take 4) (n + 1) = return .next (s ++ c) := by
  subst hn
  simp only [pushUtf8, getTo_set hle, h]

theorem visitUtf8_eq_ok_iff {r : LoopFlow String String} (hb : 0x80 ≤ b) :
    (visitUtf8 s b).run p = .ok (r, q) ↔ ∃ ch w, 0x80 ≤ ch.toNat ∧
      String.utf8EncodeChar ch = b :: w ∧ Takes p w q ∧ r = .next (s.push ch) := by
  rw [visitUtf8, if_neg (continuation_ne_zero hb)]
  constructor
  · intro h
    split at h
    · exact absurd h fail_ne_ok
    · next n hn =>
      obtain ⟨w, p', hw, h'⟩ := StateT.run_bind_eq_ok_iff.mp h
      obtain ⟨htake, hlen⟩ := advances_eq_ok_iff.mp hw
      cases ht : String.fromUTF8? (b :: w).toByteArray with
      | none =>
        rw [pushUtf8_of_none hlen (utf8Following_le hn) ht] at h'
        exact absurd h' fail_ne_ok
      | some t =>
        rw [pushUtf8_of_some hlen (utf8Following_le hn) ht] at h'
        subst hlen
        obtain ⟨rfl, rfl⟩ := StateT.run_pure_eq_ok_iff.mp h'
        obtain ⟨ch, hge, hch, rfl⟩ := (fromUTF8?_eq_some_iff hb hn).mp ht
        exact ⟨ch, w, hge, hch, htake, by rw [String.append_singleton]⟩
  · rintro ⟨ch, w, hge, hch, htake, rfl⟩
    obtain ⟨b', w', hch', -, hn⟩ := utf8EncodeChar_cons hge
    obtain ⟨rfl, rfl⟩ := List.cons.inj (hch'.symm.trans hch)
    have ht := (fromUTF8?_eq_some_iff hb hn).mpr ⟨ch, hge, hch, rfl⟩
    rw [hn]
    dsimp only
    rw [StateT.run_bind_of_ok (advances_eq_ok_iff.mpr ⟨htake, rfl⟩),
      pushUtf8_of_some rfl (utf8Following_le hn) ht, ← String.append_singleton]
    rfl

theorem visitEscape_eq_ok_iff {r : LoopFlow String String} :
    (visitEscape s).run p = .ok (r, q) ↔ (∃ e ch, Escape e ch ∧ Takes p [e] q ∧
      r = .next (s.push ch)) ∨ ∃ p', Takes p [0x75] p' ∧ (visitUnicodeEscape s).run p' = .ok (r, q) := by
  rw [visitEscape, StateT.run_bind_eq_ok_iff]
  constructor
  · rintro ⟨e, p', hadv, h⟩
    split at h
    · next ch hch =>
      obtain ⟨rfl, rfl⟩ := StateT.run_pure_eq_ok_iff.mp h
      exact .inl ⟨e, ch, unescape_eq_some_iff.mp hch, advance_eq_ok_iff.mp hadv, rfl⟩
    · split at h
      · next he =>
        subst he
        exact .inr ⟨p', advance_eq_ok_iff.mp hadv, h⟩
      · exact absurd h fail_ne_ok
  · rintro (⟨e, ch, he, htake, rfl⟩ | ⟨p', htake, h⟩)
    · refine ⟨e, q, advance_eq_ok_iff.mpr htake, ?_⟩
      rw [unescape_eq_some_iff.mpr he]
      rfl
    · exact ⟨_, p', advance_eq_ok_iff.mpr htake, h⟩

theorem single_ascii (hquote : b ≠ 0x22) (hescape : b ≠ 0x5C) (hctrl : ¬ b ≤ 0x1F)
    (hascii : b ≤ 0x7F) : Single [b] (Char.ofUInt8 b) := by
  rw [← utf8EncodeChar_ofUInt8 hascii]
  refine .unescaped ?_ ?_ ?_
  · rw [toNat_ofUInt8]
    exact Nat.lt_of_not_le fun hle => hctrl (UInt8.le_iff_toNat_le.mpr hle)
  · intro heq
    have hnat := congrArg Char.toNat heq
    rw [toNat_ofUInt8] at hnat
    exact hquote (UInt8.toNat_inj.mp hnat)
  · intro heq
    have hnat := congrArg Char.toNat heq
    rw [toNat_ofUInt8] at hnat
    exact hescape (UInt8.toNat_inj.mp hnat)

theorem single_utf8 {ch : Char} (h : 0x80 ≤ ch.toNat) : Single (String.utf8EncodeChar ch) ch := by
  refine .unescaped (by omega) ?_ ?_
  · rintro rfl
    exact absurd h (by decide)
  · rintro rfl
    exact absurd h (by decide)

theorem charRead_of_visitEscape {p' : Parser} {r : LoopFlow String String}
    (hp : p.pendingHighSurrogate = none) (hb : Takes p [0x5C] p')
    (h : (visitEscape s).run p' = .ok (r, q)) : CharRead s p r q := by
  rcases visitEscape_eq_ok_iff.mp h with ⟨e, ch, he, htake, rfl⟩ | ⟨p'', hu, h'⟩
  · exact .single (.escape he) (hb.cons htake)
  · have hp' := (takes_pending hu).trans ((takes_pending hb).trans hp)
    obtain ⟨l, n, hhex, ⟨hhigh, hlow, htake, rfl⟩ | ⟨hhigh, q', htake, rfl, rfl⟩⟩ :=
      (visitUnicodeEscape_eq_ok_iff hp').mp h'
    · exact .single (.unicode hhex hhigh hlow) (hb.cons (hu.cons htake))
    · exact .high hhex hhigh (hb.cons (hu.cons htake))

theorem charRead_of_visitChar {r : LoopFlow String String} (hp : p.pendingHighSurrogate = none)
    (h : (visitChar s).run p = .ok (r, q)) : CharRead s p r q := by
  obtain ⟨b, p', hadv, h⟩ := StateT.run_bind_eq_ok_iff.mp h
  have hb := advance_eq_ok_iff.mp hadv
  split at h
  · next hquote =>
    subst hquote
    obtain ⟨rfl, rfl⟩ := StateT.run_pure_eq_ok_iff.mp h
    exact .close hb
  split at h
  · next hescape =>
    subst hescape
    exact charRead_of_visitEscape hp hb h
  split at h
  · exact absurd h fail_ne_ok
  split at h
  · next hquote hescape hctrl hascii =>
    obtain ⟨rfl, rfl⟩ := StateT.run_pure_eq_ok_iff.mp h
    exact .single (single_ascii hquote hescape hctrl hascii) hb
  · next hascii =>
    have hge : (0x80 : UInt8) ≤ b := by
      rw [UInt8.le_iff_toNat_le] at hascii ⊢
      change ¬ b.toNat ≤ 127 at hascii
      change 128 ≤ b.toNat
      omega
    obtain ⟨ch, w, hch, hencode, htake, rfl⟩ := (visitUtf8_eq_ok_iff hge).mp h
    exact .single (single_utf8 hch) (hencode ▸ hb.cons htake)

theorem visitChar_ascii {ch : Char} (hge : 0x20 ≤ ch.toNat) (hquote : ch ≠ '"')
    (hescape : ch ≠ '\\') (hlt : ch.toNat < 0x80) (h : Takes p [UInt8.ofNat ch.toNat] q) :
    (visitChar s).run p = .ok (.next (s.push ch), q) := by
  have hnat : (UInt8.ofNat ch.toNat).toNat = ch.toNat :=
    UInt8.toNat_ofNat_of_lt' (Nat.lt_trans hlt (by decide))
  have hch : Char.ofUInt8 (UInt8.ofNat ch.toNat) = ch := by
    rw [← Char.toNat_inj, toNat_ofUInt8, hnat]
  rw [visitChar, StateT.run_bind_of_ok (advance_eq_ok_iff.mpr h), if_neg, if_neg, if_neg, if_pos,
    hch]
  · rfl
  · rw [UInt8.le_iff_toNat_le, hnat]
    exact Nat.le_of_lt_succ hlt
  · rw [UInt8.le_iff_toNat_le, hnat]
    exact Nat.not_le.mpr hge
  · intro heq
    rw [heq] at hch
    exact hescape hch.symm
  · intro heq
    rw [heq] at hch
    exact hquote hch.symm

theorem visitChar_utf8 {ch : Char} (hge : 0x80 ≤ ch.toNat)
    (h : Takes p (String.utf8EncodeChar ch) q) :
    (visitChar s).run p = .ok (.next (s.push ch), q) := by
  obtain ⟨b, w, hencode, hb, -⟩ := utf8EncodeChar_cons hge
  rw [hencode] at h
  obtain ⟨p', hadv, hw⟩ := advance_of_takes h
  have hlow {c : UInt8} (hc : c ≤ 0x7F) : ¬ b ≤ c := fun hle =>
    absurd (UInt8.le_trans hb (UInt8.le_trans hle hc)) (by decide)
  have hne {c : UInt8} (hc : c ≤ 0x7F) : b ≠ c := fun heq => hlow hc (heq ▸ UInt8.le_refl b)
  rw [visitChar, StateT.run_bind_of_ok hadv, if_neg (hne (by decide)), if_neg (hne (by decide)),
    if_neg (hlow (by decide)), if_neg (hlow (by decide))]
  exact (visitUtf8_eq_ok_iff hb).mpr ⟨ch, w, hge, hencode, hw, rfl⟩

theorem visitChar_escape {r : LoopFlow String String} {p' : Parser} (hb : Takes p [0x5C] p')
    (h : (visitEscape s).run p' = .ok (r, q)) : (visitChar s).run p = .ok (r, q) := by
  rw [visitChar, StateT.run_bind_of_ok (advance_eq_ok_iff.mpr hb), if_neg (by decide),
    if_pos (by decide)]
  exact h

theorem visitChar_eq_ok_iff {r : LoopFlow String String} (hp : p.pendingHighSurrogate = none) :
    (visitChar s).run p = .ok (r, q) ↔ CharRead s p r q := by
  refine ⟨charRead_of_visitChar hp, fun h => ?_⟩
  cases h with
  | close htake => exact StateT.run_bind_of_ok (advance_eq_ok_iff.mpr htake)
  | single hsingle htake =>
    cases hsingle with
    | unescaped hge hquote hescape =>
      rcases Nat.lt_or_ge _ 0x80 with hlt | hge'
      · exact visitChar_ascii hge hquote hescape hlt (utf8EncodeChar_of_lt hlt ▸ htake)
      · exact visitChar_utf8 hge' htake
    | escape he =>
      obtain ⟨p', hb, htake'⟩ := htake.uncons
      exact visitChar_escape hb (visitEscape_eq_ok_iff.mpr (.inl ⟨_, _, he, htake', rfl⟩))
    | unicode hhex hhigh hlow =>
      obtain ⟨p', hb, htake'⟩ := htake.uncons
      obtain ⟨p'', hu, htake''⟩ := htake'.uncons
      have hp' := (takes_pending hu).trans ((takes_pending hb).trans hp)
      exact visitChar_escape hb (visitEscape_eq_ok_iff.mpr (.inr ⟨p'', hu,
        (visitUnicodeEscape_eq_ok_iff hp').mpr ⟨_, _, hhex, .inl ⟨hhigh, hlow, htake'', rfl⟩⟩⟩))
  | high hhex hhigh htake =>
    obtain ⟨p', hb, htake'⟩ := htake.uncons
    obtain ⟨p'', hu, htake''⟩ := htake'.uncons
    have hp' := (takes_pending hu).trans ((takes_pending hb).trans hp)
    exact visitChar_escape hb (visitEscape_eq_ok_iff.mpr (.inr ⟨p'', hu,
      (visitUnicodeEscape_eq_ok_iff hp').mpr
        ⟨_, _, hhex, .inr ⟨hhigh, _, htake'', rfl, rfl⟩⟩⟩))

/-! ## Strings -/

/-- What the loop still reads before the closing quote. -/
inductive CharsFrom : Option UInt16 → List UInt8 → List Char → Prop
  | calm : Chars v cs → CharsFrom none v cs
  | pending : Hex4 l n → LowSurrogate n → Chars v cs →
    CharsFrom (some high) (0x5C :: 0x75 :: l ++ v) (ofSurrogates high.toNat n :: cs)

theorem calm_of_pending (h : p.pendingHighSurrogate = none) : p.calm = p := by
  rw [Parser.calm, Parser.within, ← h]

theorem push_append_ofList {ch : Char} {cs : List Char} :
    s.push ch ++ String.ofList cs = s ++ String.ofList (ch :: cs) := by
  rw [← String.toList_inj]
  simp

theorem takes_of_visitLowSurrogate {s' : String} {p' : Parser}
    (h : (visitLowSurrogate s).run p = .ok (s', p')) : p'.pendingHighSurrogate = none ∧
      ∃ v cs, Takes p.calm v p' ∧ s' = s ++ String.ofList cs ∧
        ∀ v' cs', Chars v' cs' → CharsFrom p.pendingHighSurrogate (v ++ v') (cs ++ cs') := by
  cases hp : p.pendingHighSurrogate with
  | none =>
    rw [visitLowSurrogate_none hp] at h
    obtain ⟨rfl, rfl⟩ := Prod.mk.inj (Except.ok.inj h)
    refine ⟨hp, [], [], calm_of_pending hp ▸ .nil p, by simp, ?_⟩
    exact fun _ _ h => .calm h
  | some high =>
    obtain ⟨-, l, n, hhex, hlow, htake, rfl⟩ := (visitLowSurrogate_eq_ok_iff hp).mp h
    refine ⟨takes_pending htake, _, [ofSurrogates high.toNat n], htake, ?_, ?_⟩
    · rw [← String.append_singleton, String.singleton_eq_ofList]
    · exact fun _ _ h => .pending hhex hlow h

/-- An iteration: the partner of a pending surrogate, if one is pending, and what `CharRead`
says. -/
theorem visitStringStep_eq_ok {r : LoopFlow String String}
    (h : (visitStringStep s).run p = .ok (r, q)) : ∃ s' p', (visitLowSurrogate s).run p = .ok (s', p') ∧
      p'.pendingHighSurrogate = none ∧ CharRead s' p' r q := by
  obtain ⟨s', p', hlow, h⟩ := StateT.run_bind_eq_ok_iff.mp h
  have hp' := (takes_of_visitLowSurrogate hlow).1
  exact ⟨s', p', hlow, hp', (visitChar_eq_ok_iff hp').mp h⟩

theorem visitStringStep_of_charRead {r : LoopFlow String String} {s' : String} {p' : Parser}
    (hlow : (visitLowSurrogate s).run p = .ok (s', p')) (h : CharRead s' p' r q) :
    (visitStringStep s).run p = .ok (r, q) := by
  rw [visitStringStep, StateT.run_bind_of_ok hlow]
  exact (visitChar_eq_ok_iff (takes_of_visitLowSurrogate hlow).1).mpr h

theorem chars_of_loops {r : String} (h : Loops visitStringStep s p r q) :
    ∃ v cs, Takes p.calm (v ++ [0x22]) q ∧ CharsFrom p.pendingHighSurrogate v cs ∧
      r = s ++ String.ofList cs := by
  induction h with
  | done hstep =>
    obtain ⟨s', p', hlow, -, hread⟩ := visitStringStep_eq_ok hstep
    obtain ⟨-, v, cs, hv, rfl, hchars⟩ := takes_of_visitLowSurrogate hlow
    cases hread with
    | close htake =>
      have := hchars [] [] .nil
      rw [List.append_nil, List.append_nil] at this
      exact ⟨v, cs, hv.trans htake, this, rfl⟩
  | next hstep _ ih =>
    obtain ⟨s', p', hlow, hp', hread⟩ := visitStringStep_eq_ok hstep
    obtain ⟨-, v, cs, hv, rfl, hchars⟩ := takes_of_visitLowSurrogate hlow
    obtain ⟨v', cs', htake', hfrom, rfl⟩ := ih
    cases hread with
    | @single v₁ ch t hsingle htake =>
      have hp := (takes_pending htake).trans hp'
      rw [hp] at hfrom
      rw [calm_of_pending hp] at htake'
      cases hfrom with
      | calm h =>
        refine ⟨v ++ (v₁ ++ v'), cs ++ ch :: cs', ?_, hchars _ _ (.cons hsingle.chr h), ?_⟩
        · simpa only [List.append_assoc] using hv.trans (htake.trans htake')
        · rw [push_append_ofList, String.append_assoc, ← String.ofList_append]
    | @high h m t hhex hhigh htake =>
      have hcalm : (t.within (some (UInt16.ofNat m)) t.depth).calm = t :=
        calm_of_pending ((takes_pending htake).trans hp')
      rw [hcalm] at htake'
      cases hfrom with
      | @pending l n v'' cs'' _ hhex' hlow' hc =>
        rw [hhex.toNat]
        refine ⟨v ++ (0x5C :: 0x75 :: h ++ 0x5C :: 0x75 :: l ++ v''), cs ++ ofSurrogates m n :: cs'',
          ?_, hchars _ _ (.cons (.surrogates hhex hhigh hhex' hlow') hc), ?_⟩
        · simpa only [List.append_assoc, List.cons_append] using hv.trans (htake.trans htake')
        · rw [String.append_assoc, ← String.ofList_append]

theorem loops_of_chars {cs : List Char} (h : Chars w cs) (hp : p.pendingHighSurrogate = none)
    (htake : Takes p (w ++ [0x22]) q) : Loops visitStringStep s p (s ++ String.ofList cs) q := by
  induction h generalizing s p with
  | nil =>
    rw [String.ofList_nil, String.append_empty]
    exact .done (visitStringStep_of_charRead (visitLowSurrogate_none hp) (.close htake))
  | @cons v ch w cs hchr hchars ih =>
    rw [List.append_assoc] at htake
    obtain ⟨p', hv, hw⟩ := htake.split
    have hsingle (h : Single v ch) : Loops visitStringStep s p (s ++ String.ofList (ch :: cs)) q := by
      rw [← push_append_ofList]
      exact .next (visitStringStep_of_charRead (visitLowSurrogate_none hp) (.single h hv))
        (ih ((takes_pending hv).trans hp) hw)
    cases hchr with
    | unescaped h₁ h₂ h₃ => exact hsingle (.unescaped h₁ h₂ h₃)
    | escape h => exact hsingle (.escape h)
    | unicode h₁ h₂ h₃ => exact hsingle (.unicode h₁ h₂ h₃)
    | @surrogates h m l n hhex hhigh hhex' hlow =>
      obtain ⟨t, hh, hl⟩ := Takes.split (v := 0x5C :: 0x75 :: h) hv
      have hpt := (takes_pending hh).trans hp
      refine .next (visitStringStep_of_charRead (visitLowSurrogate_none hp) (.high hhex hhigh hh)) ?_
      have hlow' : (visitLowSurrogate s).run (t.within (some (UInt16.ofNat m)) t.depth) =
          .ok (s.push (ofSurrogates m n), p') := by
        have hhigh' : HighSurrogate (UInt16.ofNat m).toNat := by rwa [hhex.toNat]
        refine (visitLowSurrogate_eq_ok_iff rfl).mpr
          ⟨hhigh', l, n, hhex', hlow, ?_, by rw [hhex.toNat]⟩
        exact (calm_of_pending hpt).symm ▸ hl
      rw [← push_append_ofList]
      -- The second iteration goes on behind the pair as one that starts there.
      refine .of_run_eq ?_ (ih ((takes_pending hv).trans hp) hw)
      rw [visitStringStep, StateT.run_bind_of_ok hlow', visitStringStep,
        StateT.run_bind_of_ok (visitLowSurrogate_none ((takes_pending hv).trans hp))]

theorem Grammar.Chr.ne_nil {ch : Char} (h : Chr w ch) : w ≠ [] := by
  cases h with
  | unescaped => exact String.utf8EncodeChar_ne_nil
  | escape => simp
  | unicode => simp
  | surrogates => simp

theorem visitStringStep_shrinks {s' : String}
    (h : (visitStringStep s).run p = .ok (.next s', q)) : q.stream.length < p.stream.length := by
  obtain ⟨s₁, p', hlow, -, hread⟩ := visitStringStep_eq_ok h
  obtain ⟨-, v, cs, hv, -, -⟩ := takes_of_visitLowSurrogate hlow
  have hlen : p.stream.length = v.length + p'.stream.length := hv.length
  cases hread with
  | single hsingle htake =>
    have := List.length_pos_iff.mpr hsingle.chr.ne_nil
    have : p'.stream.length = _ + q.stream.length := htake.length
    omega
  | @high _ _ t _ _ htake =>
    have : p'.stream.length = _ + t.stream.length := htake.length
    change t.stream.length < _
    simp only [List.length_cons] at this
    omega

theorem visitString_eq_ok_iff (hp : p.pendingHighSurrogate = none) :
    visitString.run p = .ok (s, q) ↔ ∃ w, Takes p w q ∧ Str w s := by
  rw [visitString, StateT.run_bind_eq_ok_iff]
  constructor
  · rintro ⟨b, p', hadv, h⟩
    have hb := advance_eq_ok_iff.mp hadv
    split at h
    · exact absurd h fail_ne_ok
    · next hquote =>
      obtain rfl := not_not.mp hquote
      have h := loops_of_loop h
      obtain ⟨w, cs, htake, hchars, rfl⟩ := chars_of_loops h
      have hp' := (takes_pending hb).trans hp
      rw [calm_of_pending hp'] at htake
      rw [hp'] at hchars
      cases hchars with
      | calm hchars =>
        refine ⟨_, hb.cons htake, ?_⟩
        rw [String.empty_append]
        exact .mk hchars
  · rintro ⟨w, htake, hstr⟩
    cases hstr with
    | mk hchars =>
      obtain ⟨p', hadv, hw⟩ := advance_of_takes htake
      refine ⟨_, p', hadv, ?_⟩
      rw [if_neg (by decide), repeatedly_eq_ok_iff (fun _ => True)
        (fun _ _ _ _ _ h => ⟨trivial, visitStringStep_shrinks h⟩) trivial]
      have hb := advance_eq_ok_iff.mp hadv
      have hloops := loops_of_chars (s := "") hchars ((takes_pending hb).trans hp) hw
      rwa [String.empty_append] at hloops

end Json

end Miniraft

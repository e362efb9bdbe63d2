import Miniraft.Verify.Parse

/-!
# The parser on any reader

Every assertion of the parser holds whatever the reader yields (`Reader.parse_raises`): what a
function relies on has been peeked by its caller (`robust_visitPeeked`), and a pending surrogate is
a high one (`Parser.Pending`). If the reader fails, so does the parser, as it accepts a value only
at the end of the input (`Reader.error_eq_none`).
-/

namespace Miniraft

namespace Json

open Tape Grammar

/-- An error that is returned to the caller. -/
inductive Failure.Reported : Failure → Prop
  | mk (e : Error) : Reported (.error e)

/-- Run from `p`, the program neither panics nor loops forever. -/
abbrev Robust (x : Parse α) (p : Parser) : Prop := StateT.Raises Failure.Reported x p

variable {α β : Type} {p q : Parser} {b : UInt8} {w : List UInt8} {s : String} {d : ℕ}

/-! ## Lexemes -/

theorem robust_fail {kind : Kind} : Robust (fail kind : Parse α) p := by
  intro e h
  cases h
  exact .mk _

theorem robust_pure (a : α) : Robust (pure a : Parse α) p := .pure a

theorem robust_advance : Robust advance p := by
  intro e h
  rw [advance, run_get_bind] at h
  split at h
  · exact robust_fail e h
  · cases h

theorem robust_peek_bind {f : Option UInt8 → Parse α} (h : Robust (f p.stream.head?) p) :
    Robust (peek >>= f) p := h

theorem robust_get_bind {f : Parser → Parse α} (h : Robust (f p) p) : Robust (get >>= f) p := h

theorem robust_modify_bind {g : Parser → Parser} {f : PUnit → Parse α}
    (h : Robust (f ⟨⟩) (g p)) : Robust (modify g >>= f) p := h

/-- `advance`, and what the byte is used for. -/
theorem robust_advance_bind {f : UInt8 → Parse α}
    (h : ∀ b q, Takes p [b] q → Robust (f b) q) : Robust (advance >>= f) p :=
  robust_advance.bind fun b q hadv => h b q (advance_eq_ok_iff.mp hadv)

theorem robust_repeatedly {init : α} {body : α → Parse (LoopFlow α β)} (I : Parser → Prop)
    (hbody : ∀ a p, I p → Robust (body a) p)
    (hnext : ∀ a p a' p', I p → (body a).run p = .ok (.next a', p') →
      I p' ∧ p'.stream.length < p.stream.length) (hp : I p) : Robust (repeatedly init body) p :=
  raises_loop I (fun p => p.stream.length) hbody hnext hp (Nat.lt_succ_self _)

theorem robust_readWhile {kind : UInt8 → Bool} {f : α → UInt8 → α} {a : α} :
    Robust (readWhile kind f a) p := by
  refine robust_repeatedly (fun _ => True) (fun a p _ => ?_) (fun a p a' p' _ h => ?_) trivial
  · refine robust_peek_bind ?_
    cases p.stream.head? with
    | none => exact robust_pure _
    | some c =>
      dsimp only
      split
      · exact robust_advance_bind fun _ _ _ => robust_pure _
      · exact robust_pure _
  · refine ⟨trivial, ?_⟩
    obtain ⟨c, htake, -⟩ | ⟨-, -, h⟩ := readStep_eq_ok_iff.mp h
    · rw [takes_stream htake]
      simp
    · cases h

theorem robust_skipWhitespace : Robust skipWhitespace p := robust_readWhile

theorem robust_expect {what : UInt8 → UInt8 → String} : Robust (expect what w) p := by
  induction w generalizing p with
  | nil => exact robust_pure _
  | cons b w ih =>
    refine robust_advance_bind fun got q _ => ?_
    split
    · exact robust_fail
    · exact ih

theorem robust_visitNull : Robust visitNull p := robust_expect

/-- The boolean that has been peeked. -/
theorem robust_visitBool (h : ∀ c ∈ p.stream.head?, c = ascii 't' ∨ c = ascii 'f') :
    Robust visitBool p := by
  refine robust_advance_bind fun b q hb => ?_
  have hb' := h b (takes_head hb)
  dsimp only
  split
  · exact robust_expect.bind fun _ _ _ => robust_pure _
  · next ht =>
    rw [if_pos (hb'.resolve_left ht)]
    exact robust_expect.bind fun _ _ _ => robust_pure _

/-! ## Numbers -/

theorem robust_visitDigits {n : Number} : Robust (visitDigits n) p := robust_readWhile

/-- The number of which the first byte has been peeked. -/
theorem robust_visitNumberIntegralPart {n : Number}
    (h : ∀ c ∈ p.stream.head?, c = ascii '-' ∨ isDigit c) :
    Robust (visitNumberIntegralPart n) p := by
  refine robust_advance_bind fun b q hb => ?_
  have hb' := h b (takes_head hb)
  dsimp only
  split
  · refine robust_advance_bind fun c _ _ => ?_
    split
    · exact robust_pure _
    split
    · exact robust_visitDigits
    · exact robust_fail
  · next hminus =>
    split
    · exact robust_pure _
    · next hzero =>
      have hdigit : Digit b := isDigit_iff.mp (hb'.resolve_left hminus)
      have hone : ascii '1' ≤ b ∧ b ≤ ascii '9' := by
        refine ⟨?_, hdigit.2⟩
        have hne : b.toNat ≠ 0x30 := fun heq => hzero (UInt8.toNat_inj.mp heq)
        have hle : 0x30 ≤ b.toNat := UInt8.le_iff_toNat_le.mp hdigit.1
        refine UInt8.le_iff_toNat_le.mpr ?_
        change 0x31 ≤ b.toNat
        omega
      rw [if_pos hone]
      exact robust_visitDigits

theorem robust_visitNumberFractionalPart {n : Number} :
    Robust (visitNumberFractionalPart n) p := by
  refine robust_peek_bind ?_
  split
  · refine robust_advance_bind fun b _ _ => robust_advance_bind fun c _ _ => ?_
    split
    · exact robust_visitDigits
    · exact robust_fail
  · exact robust_pure _

theorem robust_visitExponent {n : Number} : Robust (visitExponent n) p := by
  refine robust_advance_bind fun b _ _ => ?_
  dsimp only
  split
  · refine robust_advance_bind fun c _ _ => ?_
    split
    · exact robust_visitDigits
    · exact robust_fail
  split
  · exact robust_visitDigits
  · exact robust_fail

theorem robust_visitNumberExponentPart {n : Number} : Robust (visitNumberExponentPart n) p := by
  refine robust_peek_bind ?_
  dsimp only
  split
  · exact robust_advance_bind fun _ _ _ => robust_visitExponent
  · exact robust_pure _

theorem robust_visitNumber (h : ∀ c ∈ p.stream.head?, c = ascii '-' ∨ isDigit c) :
    Robust visitNumber p := by
  refine (robust_visitNumberIntegralPart h).bind fun n₁ p₁ _ => ?_
  refine robust_visitNumberFractionalPart.bind fun n₂ p₂ _ => ?_
  refine robust_visitNumberExponentPart.bind fun n₃ p₃ _ => robust_peek_bind ?_
  cases p₃.stream.head? with
  | none => exact robust_pure _
  | some c =>
    dsimp only
    split
    · exact robust_fail
    · exact robust_pure _

/-! ## Strings -/

theorem robust_collectHex {n : ℕ} {val : UInt16} : Robust (collectHex n val) p := by
  induction n generalizing p val with
  | zero => exact robust_pure _
  | succ n ih =>
    refine robust_advance_bind fun c q _ => ?_
    split
    · exact robust_fail
    · exact ih

/-- The pending surrogate, if there is one, is a high one. -/
def Parser.Pending (p : Parser) : Prop := ∀ high ∈ p.pendingHighSurrogate, isHighSurrogate high

theorem robust_pushPair {high low : UInt16} (h : isHighSurrogate high) :
    Robust (pushPair s (decodeUtf16 [high, low])) p := by
  rw [decodeUtf16, if_pos h]
  split
  · exact robust_modify_bind (robust_pure _)
  · exact robust_fail

theorem robust_visitLowSurrogate (hp : p.Pending) : Robust (visitLowSurrogate s) p := by
  refine robust_get_bind ?_
  cases hpending : p.pendingHighSurrogate with
  | none => exact robust_pure _
  | some high =>
    refine robust_advance_bind fun open_ _ _ => robust_advance_bind fun u _ _ => ?_
    split
    · exact robust_collectHex.bind fun low _ _ => robust_pushPair (hp high hpending)
    · exact robust_fail

theorem robust_visitUnicodeEscape (hp : p.pendingHighSurrogate = none) :
    Robust (visitUnicodeEscape s) p := by
  refine robust_collectHex.bind fun code q hcode => robust_get_bind ?_
  obtain ⟨w, htake, -⟩ := collectUnicodeEscapeHexDigits_eq_ok_iff.mp hcode
  rw [takes_pending htake, hp, if_neg (by simp)]
  split
  · next hhigh =>
    have hne : ¬ code = 0 := by
      rintro rfl
      exact absurd hhigh (by decide)
    rw [if_neg hne]
    exact robust_modify_bind (robust_pure _)
  · next hhigh =>
    split
    · exact robust_fail
    · next hlow =>
      rw [isHighSurrogate_iff] at hhigh
      rw [isLowSurrogate_iff] at hlow
      rw [if_pos (isValidChar_of_not_surrogate code.toNat_lt hhigh hlow)]
      exact robust_pure _

theorem robust_visitEscape (hp : p.pendingHighSurrogate = none) : Robust (visitEscape s) p := by
  refine robust_advance_bind fun b q hb => ?_
  cases unescape b with
  | some c => exact robust_pure _
  | none =>
    dsimp only
    split
    · exact robust_visitUnicodeEscape ((takes_pending hb).trans hp)
    · exact robust_fail

theorem robust_advances {n : ℕ} : Robust (advances n) p := by
  induction n generalizing p with
  | zero => exact robust_pure _
  | succ n ih => exact robust_advance_bind fun _ _ _ => ih.bind fun _ _ _ => robust_pure _

theorem robust_visitUtf8 (hb : 0x80 ≤ b) : Robust (visitUtf8 s b) p := by
  rw [visitUtf8, if_neg (continuation_ne_zero hb)]
  cases hn : utf8Following b with
  | none => exact robust_fail
  | some n =>
    refine robust_advances.bind fun bytes q hbytes => ?_
    have hlength := (advances_eq_ok_iff.mp hbytes).2
    cases ht : String.fromUTF8? (b :: bytes).toByteArray with
    | none =>
      rw [pushUtf8_of_none hlength (utf8Following_le hn) ht]
      exact robust_fail
    | some t =>
      rw [pushUtf8_of_some hlength (utf8Following_le hn) ht]
      exact robust_pure _

theorem robust_visitChar (hp : p.pendingHighSurrogate = none) : Robust (visitChar s) p := by
  refine robust_advance_bind fun b q hb => ?_
  split
  · exact robust_pure _
  split
  · exact robust_visitEscape ((takes_pending hb).trans hp)
  split
  · exact robust_fail
  split
  · exact robust_pure _
  · next hascii =>
    refine robust_visitUtf8 (UInt8.le_iff_toNat_le.mpr ?_)
    rw [UInt8.le_iff_toNat_le] at hascii
    change ¬ b.toNat ≤ 0x7F at hascii
    change 0x80 ≤ b.toNat
    omega

theorem robust_visitStringStep (hp : p.Pending) : Robust (visitStringStep s) p :=
  (robust_visitLowSurrogate hp).bind fun _ _ hlow =>
    robust_visitChar (takes_of_visitLowSurrogate hlow).1

theorem pending_of_none (h : p.pendingHighSurrogate = none) : p.Pending := by
  intro high hhigh
  rw [h] at hhigh
  cases hhigh

theorem visitStringStep_pending {s' : String} (h : (visitStringStep s).run p = .ok (.next s', q)) :
    q.Pending := by
  obtain ⟨s₁, p', -, hp', hread⟩ := visitStringStep_eq_ok h
  cases hread with
  | single _ htake => exact pending_of_none ((takes_pending htake).trans hp')
  | high hhex hhigh _ =>
    rintro high ⟨⟩
    rw [isHighSurrogate_iff, hhex.toNat]
    exact hhigh

theorem robust_visitString (hp : p.pendingHighSurrogate = none) : Robust visitString p := by
  refine robust_advance_bind fun b q hb => ?_
  split
  · exact robust_fail
  · refine robust_repeatedly Parser.Pending (fun _ _ => robust_visitStringStep)
      (fun _ _ _ _ _ h => ⟨visitStringStep_pending h, visitStringStep_shrinks h⟩) ?_
    exact pending_of_none ((takes_pending hb).trans hp)

/-! ## Values -/

section Nested

variable {x : Parse Value} {E : List UInt8 → Value → Prop}

theorem robust_visitArrayStep {acc : List Value} (hx : Robust x p) :
    Robust (visitArrayStep x acc) p := by
  refine hx.bind fun v p₁ _ => robust_advance_bind fun b p₂ _ => ?_
  split
  · exact robust_pure _
  split
  · exact robust_pure _
  · exact robust_fail

theorem robust_visitArray (hr : Reads (Parser.Ready d) x E) (hx : ∀ p, p.Ready d → Robust x p)
    (hp : p.Ready d) (h : ∀ c ∈ p.stream.head?, c = arrayOpen) : Robust (visitArray x) p := by
  refine robust_advance_bind fun b p₁ hb => ?_
  rw [if_neg (not_not.mpr (h b (takes_head hb)))]
  refine robust_skipWhitespace.bind fun _ p₂ hws => robust_peek_bind ?_
  obtain ⟨w, hw, -⟩ := skipWhitespace_eq_ok_iff.mp hws
  split
  · exact robust_advance_bind fun _ _ _ => robust_pure _
  · exact robust_repeatedly (Parser.Ready d) (fun _ p hp => robust_visitArrayStep (hx p hp))
      (fun _ _ _ _ hp h => visitArrayStep_next hr hp h) ((hp.takes hb).takes hw)

theorem robust_visitObjectStep {map : Entries} (hx : ∀ p, p.Ready d → Robust x p)
    (hp : p.Ready d) : Robust (visitObjectStep x map) p := by
  refine (robust_visitString hp.1).bind fun key p₁ hkey => ?_
  obtain ⟨u, hu, -⟩ := (visitString_eq_ok_iff hp.1).mp hkey
  refine robust_skipWhitespace.bind fun _ p₂ hws => robust_advance_bind fun b p₃ hb => ?_
  obtain ⟨w, hw, -⟩ := skipWhitespace_eq_ok_iff.mp hws
  dsimp only
  split
  · exact robust_fail
  · refine (hx p₃ (((hp.takes hu).takes hw).takes hb)).bind fun v p₄ _ => ?_
    refine robust_advance_bind fun c p₅ _ => ?_
    split
    · exact robust_pure _
    split
    · exact robust_skipWhitespace.bind fun _ _ _ => robust_pure _
    · exact robust_fail

theorem robust_visitObject (hr : Reads (Parser.Ready d) x E) (hx : ∀ p, p.Ready d → Robust x p)
    (hp : p.Ready d) (h : ∀ c ∈ p.stream.head?, c = objectOpen) : Robust (visitObject x) p := by
  refine robust_advance_bind fun b p₁ hb => ?_
  rw [if_neg (not_not.mpr (h b (takes_head hb)))]
  refine robust_skipWhitespace.bind fun _ p₂ hws => robust_peek_bind ?_
  obtain ⟨w, hw, -⟩ := skipWhitespace_eq_ok_iff.mp hws
  split
  · exact robust_advance_bind fun _ _ _ => robust_pure _
  · exact robust_repeatedly (Parser.Ready d) (fun _ _ hp => robust_visitObjectStep hx hp)
      (fun _ _ _ _ hp h => visitObjectStep_next hr hp h) ((hp.takes hb).takes hw)

/-- The peeked byte is the one that the functions for the values rely on. -/
theorem robust_visitPeeked (hr : Reads (Parser.Ready d) x E)
    (hx : ∀ p, p.Ready d → Robust x p) (hp : p.Ready d) : Robust (visitPeeked x) p := by
  refine robust_peek_bind ?_
  cases hhead : p.stream.head? with
  | none => exact robust_fail
  | some byte =>
    have hstarts {P : UInt8 → Prop} (h : P byte) : ∀ c ∈ p.stream.head?, P c := by
      rintro c hc
      rw [hhead] at hc
      exact Option.some.inj hc ▸ h
    dsimp only
    split
    · exact (robust_visitString hp.1).bind fun _ _ _ => robust_pure _
    split
    · next h => exact (robust_visitObject hr hx hp (hstarts h)).bind fun _ _ _ => robust_pure _
    split
    · next h => exact (robust_visitArray hr hx hp (hstarts h)).bind fun _ _ _ => robust_pure _
    split
    · next h => exact (robust_visitBool (hstarts h)).bind fun _ _ _ => robust_pure _
    split
    · exact robust_visitNull.bind fun _ _ _ => robust_pure _
    split
    · next h => exact (robust_visitNumber (hstarts h)).bind fun _ _ _ => robust_pure _
    · exact robust_fail

end Nested

/-- The depth is checked before the budget runs out. -/
theorem robust_visitValue {budget : ℕ} (hbudget : budget + d = 255) (hp : p.Ready d) :
    Robust (visitValue (budget + 1)) p := by
  obtain ⟨hpending, rfl⟩ := hp
  induction budget generalizing p with
  | zero =>
    have hdepth : maxDepth ≤ p.depth + 1 := by
      change 256 ≤ p.depth + 1
      omega
    refine robust_modify_bind (robust_get_bind ?_)
    dsimp only
    rw [if_pos hdepth]
    exact robust_fail
  | succ budget ih =>
    refine robust_modify_bind (robust_get_bind ?_)
    dsimp only
    split
    · exact robust_fail
    refine robust_skipWhitespace.bind fun _ p₁ hws => ?_
    obtain ⟨w, hw, -⟩ := skipWhitespace_eq_ok_iff.mp hws
    have hp₀ : Parser.Ready (p.depth + 1) { p with depth := p.depth + 1 } := ⟨hpending, rfl⟩
    have hp₁ : p₁.Ready (p.depth + 1) := hp₀.takes hw
    have hr : Reads (Parser.Ready (p.depth + 1)) (visitValue (budget + 1)) (Element budget) :=
      reads_visitValue (by omega)
    have hx : ∀ p', p'.Ready (p.depth + 1) → Robust (visitValue (budget + 1)) p' := by
      rintro p' ⟨hpending', hdepth'⟩
      exact ih hpending' (by omega)
    refine (robust_visitPeeked hr hx hp₁).bind fun v p₂ _ => ?_
    exact robust_skipWhitespace.bind fun _ _ _ => robust_modify_bind (robust_pure _)

/-! ## Readers -/

theorem robust_parse {reader : Reader} : Robust Parser.parse (Parser.new reader) := by
  have hvalue : Robust (visitValue maxDepth) (Parser.new reader) :=
    robust_visitValue rfl ⟨rfl, rfl⟩
  refine hvalue.bind fun v q _ => robust_get_bind ?_
  split
  · exact robust_fail
  · exact robust_fail
  · exact robust_pure _

theorem takes_readError (h : Takes p w q) : q.readError = p.readError := by
  rw [h.skip]
  rfl

/-- A value is returned at the end of the input only. -/
theorem Reader.error_eq_none {reader : Reader} {v : Value} (h : reader.parse = .ok v) :
    reader.error = none := by
  obtain ⟨q, hv, -, hnone⟩ := parse_eq_ok_iff_run.mp h
  obtain ⟨w, hw, -⟩ := reads_visitValue (n := 255) rfl ⟨rfl, rfl⟩ hv
  exact (takes_readError hw).symm.trans hnone

theorem Reader.parse_raises (reader : Reader) :
    Except.Raises Failure.Reported reader.parse := by
  intro f hf
  rw [Reader.parse] at hf
  cases hrun : Parser.parse.run (Parser.new reader) with
  | error f' =>
    rw [hrun] at hf
    exact robust_parse f (hrun.trans (congrArg _ (Except.error.inj hf)))
  | ok r =>
    rw [hrun] at hf
    cases hf

/-- Whatever the reader yields, the parser returns an error or a value, and a value only if the
reader does not fail. -/
theorem Reader.parse_returns (reader : Reader) :
    (∃ e, reader.parse = .error (.error e)) ∨
      ∃ v, reader.parse = .ok v ∧ reader.error = none := by
  cases hparse : reader.parse with
  | ok v => exact .inr ⟨v, rfl, Reader.error_eq_none hparse⟩
  | error f =>
    cases reader.parse_raises f hparse with
    | mk e => exact .inl ⟨e, rfl⟩

end Json

end Miniraft

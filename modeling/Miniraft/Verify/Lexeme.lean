import Mathlib.Tactic.Tauto
import Miniraft.Theory.Grammar
import Miniraft.Verify.Utf8

/-!
# Lexemes

What the functions of the parser that do not recurse read: whitespace, literals, numbers and
strings. For those that stop at a delimiter of their own there is one equivalence. The others read
as much as they can, so that they succeed on a lexeme only if nothing after it could belong to it.
-/

namespace Miniraft

namespace Json

open Tape Grammar

variable {α β : Type} {p q : Parser} {b c : UInt8} {w : List UInt8}

/-! ## The tape -/

instance : Tape Parser UInt8 where
  rest p := p.stream
  skip n p := { p with stream := p.stream.drop n, streamPos := p.streamPos + n }
  rest_skip _ _ := rfl
  skip_zero _ := rfl
  skip_skip m n p := by simp [List.drop_drop, Nat.add_assoc]

theorem takes_stream (h : Takes p w q) : p.stream = w ++ q.stream := h.rest

theorem takes_head (h : Takes p (b :: w) q) : p.stream.head? = some b := by
  rw [takes_stream h]
  rfl

theorem takes_pending (h : Takes p w q) : q.pendingHighSurrogate = p.pendingHighSurrogate := by
  rw [h.skip]
  rfl

theorem takes_depth (h : Takes p w q) : q.depth = p.depth := by
  rw [h.skip]
  rfl

/-- The parser with other surroundings: a pending surrogate and a depth. -/
def Parser.within (p : Parser) (pending : Option UInt16) (depth : ℕ) : Parser :=
  { p with pendingHighSurrogate := pending, depth }

theorem takes_within (h : Takes p w q) (pending : Option UInt16) (depth : ℕ) :
    Takes (p.within pending depth) w (q.within pending depth) := by
  refine ⟨h.rest, ?_⟩
  conv => lhs; rw [h.skip]
  rfl

/-- What is read does not depend on the surroundings. -/
theorem takes_of_within {pending : Option UInt16} {depth : ℕ}
    (h : Takes (p.within pending depth) w q) :
    ∃ q', Takes p w q' ∧ q = q'.within pending depth := by
  refine ⟨_, takes_within h p.pendingHighSurrogate p.depth, ?_⟩
  have hpending : q.pendingHighSurrogate = pending := takes_pending h
  have hdepth : q.depth = depth := takes_depth h
  rw [← hpending, ← hdepth]
  rfl

theorem fail_ne_ok {kind : Kind} {r : α × Parser} : (fail kind).run p ≠ .ok r := by
  intro h
  cases h

theorem panicked_ne_ok {e : Panic} {r : α × Parser} : (panicked e).run p ≠ .ok r := by
  intro h
  cases h

theorem run_peek_bind (f : Option UInt8 → Parse α) :
    (peek >>= f).run p = (f p.stream.head?).run p := rfl

theorem run_get_bind (f : Parser → Parse α) : (get >>= f).run p = (f p).run p := rfl

theorem run_modify_bind (g : Parser → Parser) (f : PUnit → Parse α) :
    (modify g >>= f).run p = (f ⟨⟩).run (g p) := rfl

theorem advance_eq_ok_iff : advance.run p = .ok (b, q) ↔ Takes p [b] q := by
  rw [advance, run_get_bind]
  constructor
  · intro h
    split at h
    · exact absurd h fail_ne_ok
    · next byte stream hstream =>
      rw [run_modify_bind] at h
      obtain ⟨rfl, rfl⟩ := StateT.run_pure_eq_ok_iff.mp h
      refine ⟨hstream, ?_⟩
      simp [Tape.skip, hstream]
  · intro h
    have hstream := takes_stream h
    have hskip : q = { p with stream := q.stream, streamPos := p.streamPos + 1 } := by
      conv => lhs; rw [h.skip]
      simp [Tape.skip, hstream]
    rw [hstream, hskip]
    rfl

/-- The next token is read by `advance`. -/
theorem advance_of_takes (h : Takes p (b :: w) q) :
    ∃ p', advance.run p = .ok (b, p') ∧ Takes p' w q := by
  obtain ⟨p', hb, hw⟩ := h.uncons
  exact ⟨p', advance_eq_ok_iff.mpr hb, hw⟩

theorem repeatedly_eq_ok_iff {init : α} {body : α → Parse (LoopFlow α β)} {r : β} (I : Parser → Prop)
    (hbody : ∀ a p a' p', I p → (body a).run p = .ok (.next a', p') →
      I p' ∧ p'.stream.length < p.stream.length) (hp : I p) :
    (repeatedly init body).run p = .ok (r, q) ↔ Loops body init p r q :=
  loop_eq_ok_iff I (fun p => p.stream.length) hbody hp (Nat.lt_succ_self _)

/-! ## Runs of bytes of one kind -/

/-- The next byte, if any, is not one of `kind`. -/
def Stops (kind : UInt8 → Bool) (w : List UInt8) : Prop := ∀ c ∈ w.head?, kind c = false

section ReadWhile

variable {kind : UInt8 → Bool} {f : α → UInt8 → α} {a r : α}

theorem readStep_eq_ok_iff {r : LoopFlow α α} : (readStep kind f a).run p = .ok (r, q) ↔
    (∃ c, Takes p [c] q ∧ kind c ∧ r = .next (f a c)) ∨
      Stops kind p.stream ∧ q = p ∧ r = .done a := by
  rw [readStep, run_peek_bind]
  cases hstream : p.stream with
  | nil =>
    simp only [List.head?_nil, StateT.run_pure_eq_ok_iff]
    constructor
    · rintro ⟨rfl, rfl⟩
      exact .inr ⟨by simp [Stops], rfl, rfl⟩
    · rintro (⟨c, hc, -⟩ | ⟨-, rfl, rfl⟩)
      · simp [takes_stream hc] at hstream
      · exact ⟨rfl, rfl⟩
  | cons c w =>
    simp only [List.head?_cons]
    cases hkind : kind c with
    | false =>
      simp only [Bool.false_eq_true, if_false, StateT.run_pure_eq_ok_iff]
      constructor
      · rintro ⟨rfl, rfl⟩
        exact .inr ⟨by simp [Stops, hkind], rfl, rfl⟩
      · rintro (⟨c', hc', hk, -⟩ | ⟨-, rfl, rfl⟩)
        · rw [takes_stream hc', List.singleton_append, List.cons.injEq] at hstream
          rw [hstream.1, hkind] at hk
          cases hk
        · exact ⟨rfl, rfl⟩
    | true =>
      simp only [if_true, StateT.run_bind_eq_ok_iff, StateT.run_pure_eq_ok_iff, advance_eq_ok_iff]
      constructor
      · rintro ⟨c', q, htake, rfl, rfl⟩
        rw [takes_stream htake, List.singleton_append, List.cons.injEq] at hstream
        obtain ⟨rfl, -⟩ := hstream
        exact .inl ⟨c', htake, hkind, rfl⟩
      · rintro (⟨c', htake, -, rfl⟩ | ⟨hstop, -⟩)
        · have hc := takes_stream htake
          rw [hstream, List.singleton_append, List.cons.injEq] at hc
          obtain ⟨rfl, -⟩ := hc
          exact ⟨c, q, htake, rfl, rfl⟩
        · simp [Stops, hkind] at hstop

theorem readWhile_eq_ok_iff : (readWhile kind f a).run p = .ok (r, q) ↔
    ∃ w, Takes p w q ∧ (∀ c ∈ w, kind c) ∧ Stops kind q.stream ∧ r = w.foldl f a := by
  rw [readWhile, repeatedly_eq_ok_iff fun _ => True]
  · constructor
    · intro h
      induction h with
      | done hbody =>
        obtain ⟨c, -, -, h⟩ | ⟨hstop, rfl, h⟩ := readStep_eq_ok_iff.mp hbody
        · cases h
        · obtain rfl := LoopFlow.done.inj h
          exact ⟨[], .nil _, by simp, hstop, rfl⟩
      | next hbody _ ih =>
        obtain ⟨w, hw, hall, hstop, rfl⟩ := ih
        obtain ⟨c, htake, hkind, h⟩ | ⟨-, -, h⟩ := readStep_eq_ok_iff.mp hbody
        · obtain rfl := LoopFlow.next.inj h
          exact ⟨c :: w, htake.cons hw, List.forall_mem_cons.mpr ⟨hkind, hall⟩, hstop, rfl⟩
        · cases h
    · rintro ⟨w, hw, hall, hstop, rfl⟩
      induction w generalizing a p with
      | nil =>
        obtain rfl := Takes.nil_iff.mp hw
        exact .done (readStep_eq_ok_iff.mpr (.inr ⟨hstop, rfl, rfl⟩))
      | cons c w ih =>
        obtain ⟨p', hc, hw'⟩ := hw.uncons
        obtain ⟨hkind, hall⟩ := List.forall_mem_cons.mp hall
        exact .next (readStep_eq_ok_iff.mpr (.inl ⟨c, hc, hkind, rfl⟩)) (ih hw' hall)
  · intro a p a' p' _ h
    obtain ⟨c, htake, -⟩ | ⟨-, -, h⟩ := readStep_eq_ok_iff.mp h
    · rw [takes_stream htake]
      simp
    · cases h
  · trivial

end ReadWhile

/-! ## Whitespace and literals -/

theorem isJsonWhitespace_iff :
    isJsonWhitespace c ↔ c = 0x20 ∨ c = 0x09 ∨ c = 0x0A ∨ c = 0x0D := by
  change (c = 0x20 || c = 0x0A || c = 0x0D || c = 0x09) = true ↔ _
  simp only [Bool.or_eq_true, decide_eq_true_eq]
  tauto

theorem skipWhitespace_eq_ok_iff : skipWhitespace.run p = .ok ((), q) ↔
    ∃ w, Takes p w q ∧ Ws w ∧ Stops isJsonWhitespace q.stream := by
  simp only [skipWhitespace, readWhile_eq_ok_iff, isJsonWhitespace_iff, Ws, and_true]

theorem expect_eq_ok_iff {what : UInt8 → UInt8 → String} :
    (expect what w).run p = .ok ((), q) ↔ Takes p w q := by
  induction w generalizing p with
  | nil =>
    rw [expect, StateT.run_pure_eq_ok_iff, Takes.nil_iff]
    exact and_iff_right rfl
  | cons b w ih =>
    rw [expect, StateT.run_bind_eq_ok_iff]
    constructor
    · rintro ⟨c, p', hadv, h⟩
      split at h
      · exact absurd h fail_ne_ok
      · next heq =>
        obtain rfl := not_not.mp heq
        exact (advance_eq_ok_iff.mp hadv).cons (ih.mp h)
    · intro h
      obtain ⟨p', hadv, hw⟩ := advance_of_takes h
      refine ⟨b, p', hadv, ?_⟩
      rw [if_neg (not_not.mpr rfl)]
      exact ih.mpr hw

theorem visitNull_eq_ok_iff :
    visitNull.run p = .ok ((), q) ↔ Takes p [0x6E, 0x75, 0x6C, 0x6C] q :=
  expect_eq_ok_iff

theorem visitBool_eq_ok_iff {v : Bool} : visitBool.run p = .ok (v, q) ↔
    Takes p (if v then [0x74, 0x72, 0x75, 0x65] else [0x66, 0x61, 0x6C, 0x73, 0x65]) q := by
  rw [visitBool, StateT.run_bind_eq_ok_iff]
  constructor
  · rintro ⟨b, p', hadv, h⟩
    have hb := advance_eq_ok_iff.mp hadv
    split at h
    · next heq =>
      subst heq
      obtain ⟨_, p'', hexp, h⟩ := StateT.run_bind_eq_ok_iff.mp h
      obtain ⟨rfl, rfl⟩ := StateT.run_pure_eq_ok_iff.mp h
      exact hb.cons (expect_eq_ok_iff.mp hexp)
    · split at h
      · next heq =>
        subst heq
        obtain ⟨_, p'', hexp, h⟩ := StateT.run_bind_eq_ok_iff.mp h
        obtain ⟨rfl, rfl⟩ := StateT.run_pure_eq_ok_iff.mp h
        exact hb.cons (expect_eq_ok_iff.mp hexp)
      · exact absurd h panicked_ne_ok
  · intro h
    cases v with
    | true =>
      obtain ⟨p', hadv, hw⟩ := advance_of_takes h
      refine ⟨_, p', hadv, ?_⟩
      dsimp only
      rw [if_pos (by decide)]
      exact StateT.run_bind_eq_ok_iff.mpr ⟨(), q, expect_eq_ok_iff.mpr hw, rfl⟩
    | false =>
      obtain ⟨p', hadv, hw⟩ := advance_of_takes h
      refine ⟨_, p', hadv, ?_⟩
      dsimp only
      rw [if_neg (by decide), if_pos (by decide)]
      exact StateT.run_bind_eq_ok_iff.mpr ⟨(), q, expect_eq_ok_iff.mpr hw, rfl⟩

/-! ## Numbers -/

/-- The number with the bytes `w` behind it. -/
def Number.append (n : Number) (w : List UInt8) : Number := ⟨n.text ++ (numeral w).text⟩

namespace Number

variable {m n : Number}

theorem append_append (v : List UInt8) : (n.append v).append w = n.append (v ++ w) := by
  simp [append, numeral, String.append_assoc]

theorem append_nil : n.append [] = n := by
  simp [append, numeral]

theorem push_eq (h : b ≠ 0x45) : n.push b = n.append [b] := by
  rw [push, append, numeral, Number.mk.injEq, ← String.toList_inj]
  simp [h]

theorem push_e (h : b = 0x65 ∨ b = 0x45) : n.push (ascii 'e') = n.append [b] := by
  rw [push, append, numeral, Number.mk.injEq, ← String.toList_inj, String.toList_push,
    String.toList_append, String.toList_ofList]
  rcases h with rfl | rfl <;> rfl

end Number

theorem isDigit_iff : isDigit b ↔ Digit b := by
  change (decide (0x30 ≤ b) && decide (b ≤ 0x39)) = true ↔ _
  simp [Digit]

theorem Grammar.Digit.ne (h : Digit b) : b ≠ 0x45 := by
  rintro rfl
  exact absurd h.2 (by decide)

section Number

variable {m n : Number}

theorem foldl_push (hw : ∀ b ∈ w, Digit b) : w.foldl Number.push n = n.append w := by
  induction w generalizing n with
  | nil => exact Number.append_nil.symm
  | cons b w ih =>
    obtain ⟨hb, hw⟩ := List.forall_mem_cons.mp hw
    rw [List.foldl_cons, ih hw, Number.push_eq hb.ne, Number.append_append, List.singleton_append]

theorem visitDigits_eq_ok_iff : (visitDigits n).run p = .ok (m, q) ↔
    ∃ w, Takes p w q ∧ (∀ b ∈ w, Digit b) ∧ Stops isDigit q.stream ∧ m = n.append w := by
  simp only [visitDigits, readWhile_eq_ok_iff, isDigit_iff]
  constructor
  · rintro ⟨w, hw, hall, hstop, rfl⟩
    exact ⟨w, hw, hall, hstop, foldl_push hall⟩
  · rintro ⟨w, hw, hall, hstop, rfl⟩
    exact ⟨w, hw, hall, hstop, (foldl_push hall).symm⟩

/-- A digit that has been read, and the digits after it. -/
theorem visitDigits_push_eq_ok_iff (hb : Digit b) : (visitDigits (n.push b)).run p = .ok (m, q) ↔
    ∃ w, Takes p w q ∧ (∀ c ∈ w, Digit c) ∧ Stops isDigit q.stream ∧ m = n.append (b :: w) := by
  rw [visitDigits_eq_ok_iff, Number.push_eq hb.ne]
  simp only [Number.append_append, List.singleton_append]

/-- An integer without sign of which the first byte has been read. -/
theorem int_eq_ok_iff {x : Parse Number} (hx : ∀ r, x.run p ≠ .ok r) :
    (if b = ascii '0' then pure (n.push b)
      else if ascii '1' ≤ b ∧ b ≤ ascii '9' then visitDigits (n.push b) else x).run p = .ok (m, q) ↔
    ∃ w, Int (b :: w) ∧ Takes p w q ∧ (b = 0x30 ∨ Stops isDigit q.stream) ∧
      m = n.append (b :: w) := by
  split
  · next hb =>
    obtain rfl : b = 0x30 := hb
    rw [StateT.run_pure_eq_ok_iff, Number.push_eq (by decide)]
    constructor
    · rintro ⟨rfl, rfl⟩
      exact ⟨[], .zero, .nil p, .inl rfl, rfl⟩
    · rintro ⟨w, hint, htake, -, rfl⟩
      cases hint with
      | zero => exact ⟨rfl, Takes.nil_iff.mp htake⟩
      | digits h => exact absurd h (by decide)
  · next hb =>
    split
    · next hrange =>
      rw [visitDigits_push_eq_ok_iff ⟨UInt8.le_trans (by decide) hrange.1, hrange.2⟩]
      constructor
      · rintro ⟨w, htake, hall, hstop, rfl⟩
        exact ⟨w, .digits hrange.1 hrange.2 hall, htake, .inr hstop, rfl⟩
      · rintro ⟨w, hint, htake, hstop, rfl⟩
        cases hint with
        | zero => exact absurd rfl hb
        | digits _ _ hall => exact ⟨w, htake, hall, hstop.resolve_left hb, rfl⟩
    · next hrange =>
      constructor
      · exact fun h => absurd h (hx _)
      · rintro ⟨w, hint, -⟩
        cases hint with
        | zero => exact absurd rfl hb
        | digits h h' => exact absurd ⟨h, h'⟩ hrange

theorem visitNumberIntegralPart_eq_ok_iff :
    (visitNumberIntegralPart n).run p = .ok (m, q) ↔ ∃ v b w, Minus v ∧ Int (b :: w) ∧
      Takes p (v ++ b :: w) q ∧ (b = 0x30 ∨ Stops isDigit q.stream) ∧
      m = n.append (v ++ b :: w) := by
  rw [visitNumberIntegralPart, StateT.run_bind_eq_ok_iff]
  constructor
  · rintro ⟨c, p', hadv, h⟩
    have hc := advance_eq_ok_iff.mp hadv
    split at h
    · next heq =>
      obtain rfl : c = 0x2D := heq
      obtain ⟨b, p'', hadv', h⟩ := StateT.run_bind_eq_ok_iff.mp h
      obtain ⟨w, hint, htake, hstop, rfl⟩ := (int_eq_ok_iff fun r => fail_ne_ok).mp h
      refine ⟨[0x2D], b, w, .minus, hint, hc.cons ((advance_eq_ok_iff.mp hadv').cons htake), hstop,
        ?_⟩
      rw [Number.push_eq (by decide), Number.append_append]
    · obtain ⟨w, hint, htake, hstop, rfl⟩ := (int_eq_ok_iff fun r => panicked_ne_ok).mp h
      exact ⟨[], c, w, .none, hint, hc.cons htake, hstop, rfl⟩
  · rintro ⟨v, b, w, hminus, hint, htake, hstop, rfl⟩
    cases hminus with
    | none =>
      obtain ⟨p', hadv, hw⟩ := advance_of_takes htake
      refine ⟨b, p', hadv, ?_⟩
      have hne : b ≠ ascii '-' := by
        cases hint with
        | zero => decide
        | digits h =>
          rintro rfl
          exact absurd h (by decide)
      rw [if_neg hne]
      exact (int_eq_ok_iff fun r => panicked_ne_ok).mpr ⟨w, hint, hw, hstop, rfl⟩
    | minus =>
      obtain ⟨p', hadv, hbw⟩ := advance_of_takes htake
      obtain ⟨p'', hadv', hw⟩ := advance_of_takes hbw
      refine ⟨_, p', hadv, ?_⟩
      rw [if_pos (by decide), StateT.run_bind_of_ok hadv']
      refine (int_eq_ok_iff fun r => fail_ne_ok).mpr ⟨w, hint, hw, hstop, ?_⟩
      rw [Number.push_eq (by decide), Number.append_append]

/-- One mandatory digit and any number of further ones. -/
theorem digits_eq_ok_iff {x : UInt8 → Parse Number} (hx : ∀ b p r, (x b).run p ≠ .ok r) :
    (advance >>= fun b => if isDigit b then visitDigits (n.push b) else x b).run p = .ok (m, q) ↔
      ∃ w, Digits w ∧ Takes p w q ∧ Stops isDigit q.stream ∧ m = n.append w := by
  rw [StateT.run_bind_eq_ok_iff]
  constructor
  · rintro ⟨b, p', hadv, h⟩
    split at h
    · next hb =>
      obtain ⟨w, htake, hall, hstop, rfl⟩ := (visitDigits_push_eq_ok_iff (isDigit_iff.mp hb)).mp h
      refine ⟨b :: w, ⟨by simp, List.forall_mem_cons.mpr ⟨isDigit_iff.mp hb, hall⟩⟩,
        (advance_eq_ok_iff.mp hadv).cons htake, hstop, rfl⟩
    · exact absurd h (hx _ _ _)
  · rintro ⟨w, ⟨hne, hall⟩, htake, hstop, rfl⟩
    cases w with
    | nil => exact absurd rfl hne
    | cons b w =>
      obtain ⟨p', hadv, hw⟩ := advance_of_takes htake
      obtain ⟨hb, hall⟩ := List.forall_mem_cons.mp hall
      refine ⟨b, p', hadv, ?_⟩
      rw [if_pos (isDigit_iff.mpr hb)]
      exact (visitDigits_push_eq_ok_iff hb).mpr ⟨w, hw, hall, hstop, rfl⟩

theorem visitNumberFractionalPart_eq_ok_iff :
    (visitNumberFractionalPart n).run p = .ok (m, q) ↔ ∃ w, Frac w ∧ Takes p w q ∧
      (w = [] → q.stream.head? ≠ some 0x2E) ∧ (w ≠ [] → Stops isDigit q.stream) ∧
      m = n.append w := by
  rw [visitNumberFractionalPart, run_peek_bind]
  constructor
  · intro h
    split at h
    · next hhead =>
      obtain ⟨c, p', hadv, h⟩ := StateT.run_bind_eq_ok_iff.mp h
      have hc := advance_eq_ok_iff.mp hadv
      obtain rfl : c = 0x2E := Option.some.inj ((takes_head hc).symm.trans hhead)
      obtain ⟨w, hw, htake, hstop, rfl⟩ := (digits_eq_ok_iff fun _ _ _ => fail_ne_ok).mp h
      refine ⟨0x2E :: w, .digits hw, hc.cons htake, by simp, fun _ => hstop, ?_⟩
      rw [Number.push_eq (by decide), Number.append_append]
      rfl
    · next hhead =>
      obtain ⟨rfl, rfl⟩ := StateT.run_pure_eq_ok_iff.mp h
      exact ⟨[], .none, .nil p, fun _ => hhead, by simp, Number.append_nil.symm⟩
  · rintro ⟨w, hfrac, htake, hnil, hstop, rfl⟩
    cases hfrac with
    | none =>
      obtain rfl := Takes.nil_iff.mp htake
      have hhead : p.stream.head? ≠ some (ascii '.') := hnil rfl
      rw [if_neg hhead, Number.append_nil]
      rfl
    | @digits w hw =>
      obtain ⟨p', hadv, htake'⟩ := advance_of_takes htake
      have hhead : p.stream.head? = some (ascii '.') := takes_head htake
      rw [if_pos hhead, StateT.run_bind_of_ok hadv]
      refine (digits_eq_ok_iff fun _ _ _ => fail_ne_ok).mpr ⟨w, hw, htake', hstop (by simp), ?_⟩
      rw [Number.push_eq (by decide), Number.append_append]
      rfl

theorem visitExponent_signed (hb : b = ascii '+' ∨ b = ascii '-') (hw : Digits w)
    (htake : Takes p (b :: w) q) (hstop : Stops isDigit q.stream) :
    (visitExponent n).run p = .ok (n.append (b :: w), q) := by
  obtain ⟨p', hadv, htake'⟩ := advance_of_takes htake
  rw [visitExponent, StateT.run_bind_of_ok hadv, if_pos hb]
  refine (digits_eq_ok_iff fun _ _ _ => fail_ne_ok).mpr ⟨w, hw, htake', hstop, ?_⟩
  rw [Number.push_eq (by rcases hb with rfl | rfl <;> decide), Number.append_append]
  rfl

/-- Without a sign, the byte read first is already a digit. -/
theorem visitExponent_unsigned (hadv : advance.run p = .ok (b, q))
    (hb : ¬ (b = ascii '+' ∨ b = ascii '-')) : (visitExponent n).run p =
      (advance >>= fun b => if isDigit b then visitDigits (n.push b) else
        fail (.invalidByte b "expected digit or sign scanning number exponent")).run p := by
  rw [visitExponent, StateT.run_bind_of_ok hadv, StateT.run_bind_of_ok hadv, if_neg hb]

theorem visitExponent_eq_ok_iff : (visitExponent n).run p = .ok (m, q) ↔
    ∃ v w, Sign v ∧ Digits w ∧ Takes p (v ++ w) q ∧ Stops isDigit q.stream ∧
      m = n.append (v ++ w) := by
  constructor
  · intro h
    have h' := h
    rw [visitExponent] at h
    obtain ⟨b, p', hadv, h⟩ := StateT.run_bind_eq_ok_iff.mp h
    split at h
    · next hsign =>
      obtain ⟨w, hw, htake, hstop, rfl⟩ := (digits_eq_ok_iff fun _ _ _ => fail_ne_ok).mp h
      refine ⟨[b], w, ?_, hw, (advance_eq_ok_iff.mp hadv).cons htake, hstop, ?_⟩
      · rcases hsign with rfl | rfl
        · exact .plus
        · exact .minus
      · rw [Number.push_eq (by rcases hsign with rfl | rfl <;> decide), Number.append_append]
    · next hsign =>
      rw [visitExponent_unsigned hadv hsign] at h'
      obtain ⟨w, hw, htake, hstop, rfl⟩ := (digits_eq_ok_iff fun _ _ _ => fail_ne_ok).mp h'
      exact ⟨[], w, .none, hw, htake, hstop, rfl⟩
  · rintro ⟨v, w, hsign, hw, htake, hstop, rfl⟩
    cases hsign with
    | plus => exact visitExponent_signed (.inl rfl) hw htake hstop
    | minus => exact visitExponent_signed (.inr rfl) hw htake hstop
    | none =>
      cases w with
      | nil => exact absurd rfl hw.1
      | cons b w =>
        obtain ⟨p', hadv, -⟩ := advance_of_takes htake
        have hb := (hw.2 b List.mem_cons_self).1
        have hne : ¬ (b = ascii '+' ∨ b = ascii '-') := by
          rintro (rfl | rfl)
          · exact absurd hb (by decide)
          · exact absurd hb (by decide)
        rw [visitExponent_unsigned hadv hne]
        exact (digits_eq_ok_iff fun _ _ _ => fail_ne_ok).mpr ⟨b :: w, hw, htake, hstop, rfl⟩

theorem visitNumberExponentPart_eq_ok_iff :
    (visitNumberExponentPart n).run p = .ok (m, q) ↔ ∃ w, Exp w ∧ Takes p w q ∧
      (w = [] → q.stream.head? ≠ some 0x65 ∧ q.stream.head? ≠ some 0x45) ∧
      (w ≠ [] → Stops isDigit q.stream) ∧ m = n.append w := by
  rw [visitNumberExponentPart, run_peek_bind]
  constructor
  · intro h
    split at h
    · next hhead =>
      obtain ⟨e, p', hadv, h⟩ := StateT.run_bind_eq_ok_iff.mp h
      have hc := advance_eq_ok_iff.mp hadv
      rw [takes_head hc, Option.some.injEq, Option.some.injEq] at hhead
      obtain ⟨v, w, hv, hw, htake, hstop, rfl⟩ := visitExponent_eq_ok_iff.mp h
      refine ⟨e :: v ++ w, .digits hhead hv hw, hc.cons htake, by simp, fun _ => hstop, ?_⟩
      rw [Number.push_e hhead, Number.append_append]
      rfl
    · next hhead =>
      obtain ⟨rfl, rfl⟩ := StateT.run_pure_eq_ok_iff.mp h
      exact ⟨[], .none, .nil p, fun _ => not_or.mp hhead, by simp, Number.append_nil.symm⟩
  · rintro ⟨w, hexp, htake, hnil, hstop, rfl⟩
    cases hexp with
    | none =>
      obtain rfl := Takes.nil_iff.mp htake
      have hhead : ¬ (p.stream.head? = some (ascii 'e') ∨ p.stream.head? = some (ascii 'E')) :=
        not_or.mpr (hnil rfl)
      rw [if_neg hhead, Number.append_nil]
      rfl
    | @digits e v w he hv hw =>
      obtain ⟨p', hadv, htake'⟩ := advance_of_takes htake
      have hhead : p.stream.head? = some (ascii 'e') ∨ p.stream.head? = some (ascii 'E') := by
        rw [takes_head htake, Option.some.injEq, Option.some.injEq]
        exact he
      rw [if_pos hhead, StateT.run_bind_of_ok hadv]
      refine visitExponent_eq_ok_iff.mpr ⟨v, w, hv, hw, htake', hstop (by simp), ?_⟩
      rw [Number.push_e he, Number.append_append]
      rfl

/-- The bytes that a number can go on with. -/
def isNumberByte (b : UInt8) : Bool := isDigit b || b == 0x2E || b == 0x65 || b == 0x45

theorem Stops.mono {kind kind' : UInt8 → Bool} (h : Stops kind w)
    (hle : ∀ b, kind' b → kind b) : Stops kind' w := by
  intro b hb
  cases hkind : kind' b with
  | false => rfl
  | true =>
    rw [← hle b hkind]
    exact h b hb

theorem Stops.digit (h : Stops isNumberByte w) : Stops isDigit w :=
  h.mono fun b hb => by simp [isNumberByte, hb]

theorem Stops.head_ne (h : Stops isNumberByte w) (hb : isNumberByte b) : w.head? ≠ some b := by
  intro hw
  rw [h b hw] at hb
  cases hb

/-- Before an exponent, or where there is none and no number goes on, neither digits nor a point
follow. -/
theorem Grammar.Exp.stops {e : List UInt8} (he : Exp e) (h : Stops isNumberByte w) :
    Stops isDigit (e ++ w) ∧ (e ++ w).head? ≠ some 0x2E := by
  cases he with
  | none => exact ⟨h.digit, h.head_ne (by decide)⟩
  | digits hb =>
    simp only [Stops, List.cons_append, List.head?_cons, Option.mem_some, forall_eq', ne_eq,
      Option.some.injEq]
    rcases hb with rfl | rfl <;> decide

theorem Grammar.Frac.stops {f : List UInt8} (hf : Frac f) (h : Stops isDigit w) :
    Stops isDigit (f ++ w) := by
  cases hf with
  | none => exact h
  | digits hb =>
    simp only [Stops, List.cons_append, List.head?_cons, Option.mem_some, forall_eq']
    decide

theorem reads_visitNumber : Reads (fun _ => True) visitNumber Num := by
  intro p n q _ h
  rw [visitNumber] at h
  obtain ⟨n₁, p₁, h₁, h⟩ := StateT.run_bind_eq_ok_iff.mp h
  obtain ⟨n₂, p₂, h₂, h⟩ := StateT.run_bind_eq_ok_iff.mp h
  obtain ⟨n₃, p₃, h₃, h⟩ := StateT.run_bind_eq_ok_iff.mp h
  obtain ⟨rfl, rfl⟩ : n₃ = n ∧ p₃ = q := by
    rw [run_peek_bind] at h
    split at h
    · split at h
      · exact absurd h fail_ne_ok
      · exact StateT.run_pure_eq_ok_iff.mp h
    · exact StateT.run_pure_eq_ok_iff.mp h
  obtain ⟨v, b, w, hminus, hint, htake₁, -, rfl⟩ := visitNumberIntegralPart_eq_ok_iff.mp h₁
  obtain ⟨f, hfrac, htake₂, -, -, rfl⟩ := visitNumberFractionalPart_eq_ok_iff.mp h₂
  obtain ⟨e, hexp, htake₃, -, -, rfl⟩ := visitNumberExponentPart_eq_ok_iff.mp h₃
  refine ⟨v ++ b :: w ++ f ++ e, (htake₁.trans htake₂).trans htake₃, ?_⟩
  rw [Number.append_append, Number.append_append, Number.append, String.empty_append,
    ← List.append_assoc]
  exact .mk hminus hint hfrac hexp

theorem accepts_visitNumber :
    Tape.Accepts (fun _ => True) (Stops isNumberByte) visitNumber Num := by
  rintro p w n q - htake ⟨hminus, hint, hfrac, hexp⟩ hstop
  rename_i v i f e
  change Stops isNumberByte q.stream at hstop
  obtain ⟨p₂, htake, htake₃⟩ := htake.split
  obtain ⟨p₁, htake₁, htake₂⟩ := htake.split
  obtain ⟨hdigit, hpoint⟩ := hexp.stops hstop
  rw [← takes_stream htake₃] at hdigit hpoint
  obtain ⟨b, w, rfl⟩ : ∃ b w, i = b :: w := by
    cases hint with
    | zero => exact ⟨_, _, rfl⟩
    | digits => exact ⟨_, _, rfl⟩
  have h₁ (n : Number) : (visitNumberIntegralPart n).run p = .ok (n.append (v ++ b :: w), p₁) :=
    visitNumberIntegralPart_eq_ok_iff.mpr ⟨v, b, w, hminus, hint, htake₁,
      .inr (takes_stream htake₂ ▸ hfrac.stops hdigit), rfl⟩
  have h₂ (n : Number) : (visitNumberFractionalPart n).run p₁ = .ok (n.append f, p₂) :=
    visitNumberFractionalPart_eq_ok_iff.mpr ⟨f, hfrac, htake₂, fun _ => hpoint, fun _ => hdigit,
      rfl⟩
  have h₃ (n : Number) : (visitNumberExponentPart n).run p₂ = .ok (n.append e, q) :=
    visitNumberExponentPart_eq_ok_iff.mpr ⟨e, hexp, htake₃,
      fun _ => ⟨hstop.head_ne (by decide), hstop.head_ne (by decide)⟩, fun _ => hstop.digit, rfl⟩
  rw [visitNumber, StateT.run_bind_of_ok (h₁ _), StateT.run_bind_of_ok (h₂ _),
    StateT.run_bind_of_ok (h₃ _), run_peek_bind]
  simp only [Number.append_append]
  rw [Number.append, String.empty_append]
  split
  · next c hc =>
    rw [if_neg (by simp [hstop.digit c hc])]
    rfl
  · rfl

end Number

end Json

end Miniraft

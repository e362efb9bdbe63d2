import Miniraft.Verify.StringLit

/-!
# Parsing

`parse` accepts exactly the JSON texts, and returns what they denote (`parses_exactly_texts`). What is
proved of arrays, objects and values is relative to what the visits of the values inside read and
accept; the result for `visitValue` follows by induction on the depth that is left.
-/

namespace Miniraft

namespace Json

open Tape Grammar

variable {p q : Parser} {b c : UInt8} {u w : List UInt8} {v : Value} {d : ℕ}

/-! ## Elements -/

/-- The first bytes of values. -/
def startsValue (b : UInt8) : Bool :=
  b == 0x22 || b == 0x7B || b == 0x5B || b == 0x74 || b == 0x66 || b == 0x6E || b == 0x2D ||
    isDigit b

/-- What the parser relies on of the elements inside a value: whitespace before them does not
matter, and what follows it is the first byte of a value. -/
structure Elemental (E : List UInt8 → Value → Prop) : Prop where
  pad : ∀ {u w v}, Ws u → (E (u ++ w) v ↔ E w v)
  starts : ∀ {w v}, E w v → Stops isJsonWhitespace w → ∃ b t, w = b :: t ∧ startsValue b

theorem Ws.nil : Ws [] := by
  intro b hb
  cases hb

theorem Ws.append (hu : Ws u) (hw : Ws w) : Ws (u ++ w) := List.forall_mem_append.mpr ⟨hu, hw⟩

/-- The whitespace at the front. -/
theorem exists_ws (w : List UInt8) :
    ∃ u t, w = u ++ t ∧ Ws u ∧ Stops isJsonWhitespace t := by
  induction w with
  | nil => exact ⟨[], [], rfl, Ws.nil, by simp [Stops]⟩
  | cons b w ih =>
    cases hb : isJsonWhitespace b with
    | false => exact ⟨[], b :: w, rfl, Ws.nil, by simp [Stops, hb]⟩
    | true =>
      obtain ⟨u, t, rfl, hu, ht⟩ := ih
      exact ⟨b :: u, t, rfl, List.forall_mem_cons.mpr ⟨isJsonWhitespace_iff.mp hb, hu⟩, ht⟩

theorem Grammar.Num.starts {n : Number} (h : Num w n) :
    ∃ b t, w = b :: t ∧ (b = 0x2D ∨ isDigit b) := by
  cases h with
  | mk hminus hint _ _ =>
    cases hminus with
    | minus => exact ⟨_, _, rfl, .inl rfl⟩
    | none =>
      cases hint with
      | zero => exact ⟨_, _, rfl, .inr (by decide)⟩
      | @digits d _ h₁ h₂ =>
        exact ⟨d, _, rfl, .inr (isDigit_iff.mpr ⟨UInt8.le_trans (by decide) h₁, h₂⟩)⟩

theorem Grammar.Val.starts {E : List UInt8 → Value → Prop} (h : Val E w v) :
    ∃ b t, w = b :: t ∧ startsValue b := by
  cases h with
  | string h =>
    cases h with
    | mk => exact ⟨_, _, rfl, by decide⟩
  | number h =>
    obtain ⟨b, t, rfl, hb⟩ := h.starts
    refine ⟨b, t, rfl, ?_⟩
    rcases hb with rfl | hb
    · decide
    · simp [startsValue, hb]
  | true => exact ⟨_, _, rfl, by decide⟩
  | false => exact ⟨_, _, rfl, by decide⟩
  | null => exact ⟨_, _, rfl, by decide⟩
  | emptyArray => exact ⟨_, _, rfl, by decide⟩
  | array => exact ⟨_, _, rfl, by decide⟩
  | emptyObject => exact ⟨_, _, rfl, by decide⟩
  | object => exact ⟨_, _, rfl, by decide⟩

theorem not_ws_of_startsValue (h : startsValue b) : ¬ isJsonWhitespace b := by
  intro hws
  rcases isJsonWhitespace_iff.mp hws with rfl | rfl | rfl | rfl
  · exact absurd h (by decide)
  · exact absurd h (by decide)
  · exact absurd h (by decide)
  · exact absurd h (by decide)

theorem elemental_padded {L : List UInt8 → Value → Prop}
    (hL : ∀ {w v}, L w v → ∃ b t, w = b :: t ∧ startsValue b) : Elemental (Padded L) where
  pad {u w v} hu := by
    constructor
    · intro h
      generalize hw : u ++ w = uw at h
      cases h with
      | @mk a x v a' ha hx ha' =>
        rw [List.append_assoc] at hw
        rcases List.append_eq_append_iff.mp hw with ⟨a₁, rfl, rfl⟩ | ⟨t, rfl, ht⟩
        · rw [← List.append_assoc]
          exact .mk (List.forall_mem_append.mp ha).2 hx ha'
        · -- The whitespace reaches into the value only if none of it does.
          obtain ⟨b, x', rfl, hb⟩ := hL hx
          cases t with
          | nil =>
            rw [List.nil_append] at ht
            rw [← ht, ← List.nil_append (b :: x' ++ a'), ← List.append_assoc]
            exact .mk Ws.nil hx ha'
          | cons b' t =>
            obtain ⟨rfl, -⟩ := List.cons.inj ht
            have hws := hu b (List.mem_append_right _ List.mem_cons_self)
            exact absurd (isJsonWhitespace_iff.mpr hws) (not_ws_of_startsValue hb)
    · intro h
      cases h with
      | mk ha hx ha' =>
        rw [← List.append_assoc, ← List.append_assoc]
        exact .mk (Ws.append hu ha) hx ha'
  starts {w v} h hstop := by
    cases h with
    | @mk a x _ a' ha hx ha' =>
      obtain ⟨b, x', rfl, hb⟩ := hL hx
      cases a with
      | nil => exact ⟨b, _, rfl, hb⟩
      | cons b' a =>
        have hws := isJsonWhitespace_iff.mpr (ha b' List.mem_cons_self)
        have := hstop b' (by simp)
        rw [hws] at this
        cases this

theorem elemental_element : ∀ n, Elemental (Element n)
  | 0 => ⟨fun _ => Iff.rfl, fun h => h.elim⟩
  | _ + 1 => elemental_padded Val.starts

/-! ## Arrays -/

/-- The state at a value: its depth counts the values around it. -/
def Parser.Ready (d : ℕ) (p : Parser) : Prop := p.pendingHighSurrogate = none ∧ p.depth = d

theorem Parser.Ready.takes (hp : p.Ready d) (h : Takes p w q) : q.Ready d :=
  ⟨(takes_pending h).trans hp.1, (takes_depth h).trans hp.2⟩

/-- What may follow an element. -/
def Follows (w : List UInt8) : Prop := ∀ b ∈ w.head?, b = 0x2C ∨ b = 0x5D ∨ b = 0x7D

section Nested

variable {x : Parse Value} {E : List UInt8 → Value → Prop} {vs acc : List Value}

theorem visitArrayStep_eq_ok_iff {r : LoopFlow (List Value) (List Value)} :
    (visitArrayStep x acc).run p = .ok (r, q) ↔ ∃ v p', x.run p = .ok (v, p') ∧
      (Takes p' [0x5D] q ∧ r = .done (acc ++ [v]) ∨ Takes p' [0x2C] q ∧ r = .next (acc ++ [v])) := by
  rw [visitArrayStep, StateT.run_bind_eq_ok_iff]
  constructor
  · rintro ⟨v, p', hv, h⟩
    refine ⟨v, p', hv, ?_⟩
    obtain ⟨b, q', hadv, h⟩ := StateT.run_bind_eq_ok_iff.mp h
    split at h
    · next hb =>
      subst hb
      obtain ⟨rfl, rfl⟩ := StateT.run_pure_eq_ok_iff.mp h
      exact .inl ⟨advance_eq_ok_iff.mp hadv, rfl⟩
    split at h
    · next hb =>
      subst hb
      obtain ⟨rfl, rfl⟩ := StateT.run_pure_eq_ok_iff.mp h
      exact .inr ⟨advance_eq_ok_iff.mp hadv, rfl⟩
    · exact absurd h fail_ne_ok
  · rintro ⟨v, p', hv, ⟨htake, rfl⟩ | ⟨htake, rfl⟩⟩
    · refine ⟨v, p', hv, ?_⟩
      dsimp only
      rw [StateT.run_bind_of_ok (advance_eq_ok_iff.mpr htake), if_pos (by decide)]
      rfl
    · refine ⟨v, p', hv, ?_⟩
      dsimp only
      rw [StateT.run_bind_of_ok (advance_eq_ok_iff.mpr htake), if_neg (by decide),
        if_pos (by decide)]
      rfl

theorem visitArrayStep_next (hx : Reads (Parser.Ready d) x E) (hp : p.Ready d) {acc' : List Value}
    (h : (visitArrayStep x acc).run p = .ok (.next acc', q)) :
    q.Ready d ∧ q.stream.length < p.stream.length := by
  obtain ⟨v, p', hv, ⟨-, h⟩ | ⟨htake, -⟩⟩ := visitArrayStep_eq_ok_iff.mp h
  · cases h
  · obtain ⟨w, hw, -⟩ := hx hp hv
    have hall := hw.trans htake
    refine ⟨hp.takes hall, ?_⟩
    rw [takes_stream hall]
    simp only [List.length_append, List.length_singleton]
    omega

theorem elements_of_loops (hx : Reads (Parser.Ready d) x E) (hp : p.Ready d)
    (h : Loops (visitArrayStep x) acc p vs q) :
    ∃ w es, Takes p (w ++ [0x5D]) q ∧ Elements E w es ∧ vs = acc ++ es := by
  induction h with
  | done hstep =>
    obtain ⟨v, p', hv, ⟨htake, h⟩ | ⟨-, h⟩⟩ := visitArrayStep_eq_ok_iff.mp hstep
    · obtain ⟨w, hw, hE⟩ := hx hp hv
      obtain rfl := LoopFlow.done.inj h
      exact ⟨w, [v], hw.trans htake, .one hE, rfl⟩
    · cases h
  | next hstep _ ih =>
    obtain ⟨w', es, hw', hes, rfl⟩ := ih (visitArrayStep_next hx hp hstep).1
    obtain ⟨v, p', hv, ⟨-, h⟩ | ⟨htake, h⟩⟩ := visitArrayStep_eq_ok_iff.mp hstep
    · cases h
    · obtain ⟨w, hw, hE⟩ := hx hp hv
      obtain rfl := LoopFlow.next.inj h
      refine ⟨w ++ 0x2C :: w', v :: es, ?_, .cons hE hes, by simp⟩
      rw [List.append_assoc, List.cons_append]
      exact hw.trans (htake.cons hw')

theorem follows_cons (h : b = 0x2C ∨ b = 0x5D ∨ b = 0x7D) : Follows (b :: w) := by
  rintro _ ⟨⟩
  exact h

theorem loops_of_elements (hx : Tape.Accepts (Parser.Ready d) Follows x E) (hp : p.Ready d)
    (h : Elements E w vs) (htake : Takes p (w ++ [0x5D]) q) :
    Loops (visitArrayStep x) acc p (acc ++ vs) q := by
  induction h generalizing acc p with
  | one hE =>
    obtain ⟨p', hw, htake⟩ := htake.split
    have hfollow : Follows p'.stream := takes_stream htake ▸ follows_cons (.inr (.inl rfl))
    exact .done (visitArrayStep_eq_ok_iff.mpr ⟨_, p', hx hp hw hE hfollow, .inl ⟨htake, rfl⟩⟩)
  | @cons w v w' vs hE _ ih =>
    rw [List.append_assoc, List.cons_append] at htake
    obtain ⟨p', hw, htake⟩ := htake.split
    obtain ⟨p'', hsep, htake'⟩ := htake.uncons
    have hfollow : Follows p'.stream := takes_stream hsep ▸ follows_cons (.inl rfl)
    have hrest : Loops (visitArrayStep x) (acc ++ [v]) p'' (acc ++ [v] ++ vs) q :=
      ih (hp.takes (hw.trans hsep)) htake'
    rw [List.append_assoc, List.singleton_append] at hrest
    exact .next (visitArrayStep_eq_ok_iff.mpr ⟨v, p', hx hp hw hE hfollow, .inr ⟨hsep, rfl⟩⟩) hrest

theorem Grammar.Elements.pad (hE : Elemental E) (hu : Ws u) (h : Elements E w vs) :
    Elements E (u ++ w) vs := by
  cases h with
  | one h => exact .one ((hE.pad hu).mpr h)
  | cons h hs =>
    rw [← List.append_assoc]
    exact .cons ((hE.pad hu).mpr h) hs

/-- The whitespace before the first element. -/
theorem Grammar.Elements.strip (hE : Elemental E) (h : Elements E w vs) :
    ∃ u b t, w = u ++ b :: t ∧ Ws u ∧ startsValue b ∧ Elements E (b :: t) vs := by
  cases h with
  | one h =>
    obtain ⟨u, t, rfl, hu, hstop⟩ := exists_ws w
    have ht := (hE.pad hu).mp h
    obtain ⟨b, t, rfl, hb⟩ := hE.starts ht hstop
    exact ⟨u, b, t, rfl, hu, hb, .one ht⟩
  | @cons w _ w' _ h hs =>
    obtain ⟨u, t, rfl, hu, hstop⟩ := exists_ws w
    have ht := (hE.pad hu).mp h
    obtain ⟨b, t, rfl, hb⟩ := hE.starts ht hstop
    exact ⟨u, b, t ++ 0x2C :: w', by simp, hu, hb, .cons ht hs⟩

theorem stops_ws_of_startsValue (hb : startsValue b) : Stops isJsonWhitespace (b :: w) := by
  rintro _ ⟨⟩
  exact Bool.eq_false_iff.mpr (not_ws_of_startsValue hb)

/-- What comes between the brackets. -/
theorem visitArray_run (h : Takes p [0x5B] q) : (visitArray x).run p = (do
    skipWhitespace
    if (← peek) = some arrayClose then
      let _ ← advance
      return []
    else repeatedly [] (visitArrayStep x) : Parse (List Value)).run q := by
  rw [visitArray, StateT.run_bind_of_ok (advance_eq_ok_iff.mpr h)]
  rfl

theorem reads_visitArray (hE : Elemental E) (hx : Reads (Parser.Ready d) x E) (hp : p.Ready d)
    (h : (visitArray x).run p = .ok (vs, q)) : ∃ w, Takes p w q ∧ Val E w (.array vs) := by
  obtain ⟨b, p₁, hadv, h₁⟩ := StateT.run_bind_eq_ok_iff.mp h
  have hb := advance_eq_ok_iff.mp hadv
  split at h₁
  · exact absurd h₁ panicked_ne_ok
  · next hopen =>
    obtain rfl := not_not.mp hopen
    obtain ⟨_, p₂, hws, h₂⟩ := StateT.run_bind_eq_ok_iff.mp h₁
    obtain ⟨u, hu, huws, -⟩ := skipWhitespace_eq_ok_iff.mp hws
    rw [run_peek_bind] at h₂
    split at h₂
    · next hclose =>
      obtain ⟨c, p₃, hadv', h₃⟩ := StateT.run_bind_eq_ok_iff.mp h₂
      obtain ⟨rfl, rfl⟩ := StateT.run_pure_eq_ok_iff.mp h₃
      have hc := advance_eq_ok_iff.mp hadv'
      obtain rfl := Option.some.inj ((takes_head hc).symm.trans hclose)
      exact ⟨_, hb.cons (hu.trans hc), .emptyArray huws⟩
    · have hp₂ := (hp.takes hb).takes hu
      obtain ⟨w, es, hw, hes, rfl⟩ := elements_of_loops hx hp₂ (loops_of_loop h₂)
      refine ⟨0x5B :: (u ++ w) ++ [0x5D], ?_, .array (hes.pad hE huws)⟩
      rw [List.cons_append, List.append_assoc]
      exact hb.cons (hu.trans hw)

theorem accepts_visitArray (hE : Elemental E) (hr : Reads (Parser.Ready d) x E)
    (hx : Tape.Accepts (Parser.Ready d) Follows x E) (hp : p.Ready d) (htake : Takes p w q)
    (h : Val E w (.array vs)) : (visitArray x).run p = .ok (vs, q) := by
  cases h with
  | @emptyArray u hu =>
    rw [List.cons_append] at htake
    obtain ⟨p₁, hb, htake₁⟩ := htake.uncons
    obtain ⟨p₂, hu₁, hc⟩ := htake₁.split
    have hws := skipWhitespace_eq_ok_iff.mpr ⟨u, hu₁, hu, by
      rw [takes_stream hc]
      rintro _ ⟨⟩
      decide⟩
    have hclose : p₂.stream.head? = some arrayClose := takes_head hc
    rw [visitArray_run hb, StateT.run_bind_of_ok hws, run_peek_bind, if_pos hclose,
      StateT.run_bind_of_ok (advance_eq_ok_iff.mpr hc)]
    rfl
  | @array w _ hes =>
    obtain ⟨u, b, t, rfl, hu, hstart, hes⟩ := hes.strip hE
    rw [List.cons_append] at htake
    obtain ⟨p₁, hb, htake₁⟩ := htake.uncons
    rw [List.append_assoc] at htake₁
    obtain ⟨p₂, hu₁, htake₂⟩ := htake₁.split
    have hws := skipWhitespace_eq_ok_iff.mpr ⟨u, hu₁, hu, by
      rw [takes_stream htake₂]
      exact stops_ws_of_startsValue hstart⟩
    have hopen : p₂.stream.head? ≠ some arrayClose := by
      rw [takes_head htake₂]
      rintro ⟨⟩
      exact absurd hstart (by decide)
    have hp₂ := (hp.takes hb).takes hu₁
    rw [visitArray_run hb, StateT.run_bind_of_ok hws, run_peek_bind, if_neg hopen,
      repeatedly_eq_ok_iff (Parser.Ready d) (fun _ _ _ _ hp h => visitArrayStep_next hr hp h) hp₂]
    exact loops_of_elements hx hp₂ hes htake₂

/-! ## Objects -/

variable {map map' : Entries}

/-- A key and its value, with the whitespace between the key and the colon. -/
inductive Pair (E : List UInt8 → Value → Prop) : List UInt8 → String × Value → Prop
  | mk : Str s k → Ws a → E e value → Pair E (s ++ a ++ 0x3A :: e) (k, value)

theorem Pair.starts {m : String × Value} (h : Pair E w m) : ∃ t, w = 0x22 :: t := by
  cases h with
  | mk hs => cases hs with
    | mk => exact ⟨_, rfl⟩

theorem Pair.member {m : String × Value} (h : Pair E w m) (hu : Ws u) : Member E (u ++ w) m := by
  cases h with
  | mk hs ha he =>
    rw [← List.append_assoc, ← List.append_assoc]
    exact .mk hu hs ha he

theorem exists_pair {m : String × Value} (h : Member E w m) :
    ∃ u t, w = u ++ t ∧ Ws u ∧ Pair E t m := by
  cases h with
  | @mk u s k a e value hu hs ha he =>
    refine ⟨u, s ++ a ++ 0x3A :: e, by simp, hu, .mk hs ha he⟩

/-- An iteration up to the value. -/
theorem reads_pair (hx : Reads (Parser.Ready d) x E) (hp : p.Ready d) {p₁ p₂ p₃ : Parser}
    {key : String} (hkey : visitString.run p = .ok (key, p₁))
    (hws : skipWhitespace.run p₁ = .ok ((), p₂)) (hsep : Takes p₂ [0x3A] p₃)
    (hv : x.run p₃ = .ok (v, q)) : ∃ w, Takes p w q ∧ Pair E w (key, v) := by
  obtain ⟨s, hs, hstr⟩ := (visitString_eq_ok_iff hp.1).mp hkey
  obtain ⟨a, ha, hws, -⟩ := skipWhitespace_eq_ok_iff.mp hws
  have hall := (hs.trans ha).trans hsep
  obtain ⟨e, he, hE⟩ := hx (hp.takes hall) hv
  refine ⟨s ++ a ++ 0x3A :: e, ?_, .mk hstr hws hE⟩
  have := hall.trans he
  rwa [List.append_assoc (s ++ a)] at this

theorem visitObjectStep_eq_ok {r : LoopFlow Entries Entries} (hx : Reads (Parser.Ready d) x E)
    (hp : p.Ready d) (h : (visitObjectStep x map).run p = .ok (r, q)) :
    ∃ w m p', Takes p w p' ∧ Pair E w m ∧ (Takes p' [0x7D] q ∧ r = .done (map.insert m.1 m.2) ∨
      ∃ u, Ws u ∧ Takes p' (0x2C :: u) q ∧ r = .next (map.insert m.1 m.2)) := by
  obtain ⟨key, p₁, hkey, h⟩ := StateT.run_bind_eq_ok_iff.mp h
  obtain ⟨_, p₂, hws, h⟩ := StateT.run_bind_eq_ok_iff.mp h
  obtain ⟨b, p₃, hadv, h⟩ := StateT.run_bind_eq_ok_iff.mp h
  split at h
  · exact absurd h fail_ne_ok
  · next hb =>
    obtain rfl := not_not.mp hb
    obtain ⟨v, p₄, hv, h⟩ := StateT.run_bind_eq_ok_iff.mp h
    obtain ⟨w, hw, hpair⟩ := reads_pair hx hp hkey hws (advance_eq_ok_iff.mp hadv) hv
    refine ⟨w, (key, v), p₄, hw, hpair, ?_⟩
    obtain ⟨c, p₅, hadv', h⟩ := StateT.run_bind_eq_ok_iff.mp h
    have hc := advance_eq_ok_iff.mp hadv'
    split at h
    · next hclose =>
      subst hclose
      obtain ⟨rfl, rfl⟩ := StateT.run_pure_eq_ok_iff.mp h
      exact .inl ⟨hc, rfl⟩
    split at h
    · next hcomma =>
      subst hcomma
      obtain ⟨_, p₆, hws', h⟩ := StateT.run_bind_eq_ok_iff.mp h
      obtain ⟨rfl, rfl⟩ := StateT.run_pure_eq_ok_iff.mp h
      obtain ⟨u, hu, huws, -⟩ := skipWhitespace_eq_ok_iff.mp hws'
      exact .inr ⟨u, huws, hc.cons hu, rfl⟩
    · exact absurd h fail_ne_ok

theorem visitObjectStep_next (hx : Reads (Parser.Ready d) x E) (hp : p.Ready d)
    (h : (visitObjectStep x map).run p = .ok (.next map', q)) :
    q.Ready d ∧ q.stream.length < p.stream.length := by
  obtain ⟨w, m, p', hw, -, ⟨-, h⟩ | ⟨u, -, htake, -⟩⟩ := visitObjectStep_eq_ok hx hp h
  · cases h
  · have hall := hw.trans htake
    refine ⟨hp.takes hall, ?_⟩
    rw [takes_stream hall]
    simp only [List.length_append, List.length_cons]
    omega

/-- The members from where the parser is, the first one without whitespace before it. -/
theorem members_of_loops (hx : Reads (Parser.Ready d) x E) (hp : p.Ready d)
    (h : Loops (visitObjectStep x) map p map' q) :
    ∃ w ms, Takes p (w ++ [0x7D]) q ∧ (∀ u, Ws u → Members E (u ++ w) ms) ∧
      map' = ms.foldl (fun map m => map.insert m.1 m.2) map := by
  induction h with
  | done hstep =>
    obtain ⟨w, m, p', hw, hpair, ⟨htake, h⟩ | ⟨u, -, -, h⟩⟩ := visitObjectStep_eq_ok hx hp hstep
    · obtain rfl := LoopFlow.done.inj h
      exact ⟨w, [m], hw.trans htake, fun u hu => .one (hpair.member hu), rfl⟩
    · cases h
  | next hstep _ ih =>
    obtain ⟨w', ms, hw', hms, rfl⟩ := ih (visitObjectStep_next hx hp hstep).1
    obtain ⟨w, m, p', hw, hpair, ⟨-, h⟩ | ⟨u, hu, htake, h⟩⟩ := visitObjectStep_eq_ok hx hp hstep
    · cases h
    · obtain rfl := LoopFlow.next.inj h
      refine ⟨w ++ 0x2C :: (u ++ w'), m :: ms, ?_, fun u' hu' => ?_, rfl⟩
      · have := hw.trans (htake.trans hw')
        simpa only [List.append_assoc, List.cons_append] using this
      · rw [← List.append_assoc]
        exact .cons (hpair.member hu') (hms u hu)

/-- What is left of an iteration behind the value. -/
theorem visitObjectStep_run (hx : Tape.Accepts (Parser.Ready d) Follows x E) (hp : p.Ready d)
    {m : String × Value} (hpair : Pair E w m) (htake : Takes p w q) (hfollow : Follows q.stream) :
    (visitObjectStep x map).run p = (do
      let map := map.insert m.1 m.2
      let byte ← advance
      if byte = objectClose then return .done map
      else if byte = objectEntriesSep then
        skipWhitespace
        return .next map
      else fail (.invalidByte byte ("parsing object, expected " ++ asChar objectClose ++ " or " ++
        asChar objectEntriesSep ++ " after parsing a key/value pair")) :
        Parse (LoopFlow Entries Entries)).run q := by
  cases hpair with
  | @mk s k a e value hs ha he =>
    rw [List.append_assoc] at htake
    obtain ⟨p₁, hs', htake₁⟩ := htake.split
    obtain ⟨p₂, ha', htake₂⟩ := htake₁.split
    obtain ⟨p₃, hsep, he'⟩ := htake₂.uncons
    have hkey := (visitString_eq_ok_iff hp.1).mpr ⟨s, hs', hs⟩
    have hws := skipWhitespace_eq_ok_iff.mpr ⟨a, ha', ha, by
      rw [takes_stream hsep]
      rintro _ ⟨⟩
      decide⟩
    have hv := hx (hp.takes (hs'.trans (ha'.trans hsep))) he' he hfollow
    rw [visitObjectStep, StateT.run_bind_of_ok hkey, StateT.run_bind_of_ok hws,
      StateT.run_bind_of_ok (advance_eq_ok_iff.mpr hsep), if_neg (by decide),
      StateT.run_bind_of_ok hv]

theorem visitObjectStep_done (hx : Tape.Accepts (Parser.Ready d) Follows x E) (hp : p.Ready d)
    {m : String × Value} (hpair : Pair E w m) (htake : Takes p (w ++ [0x7D]) q) :
    (visitObjectStep x map).run p = .ok (.done (map.insert m.1 m.2), q) := by
  obtain ⟨p', hw, hclose⟩ := htake.split
  have hfollow : Follows p'.stream := takes_stream hclose ▸ follows_cons (.inr (.inr rfl))
  rw [visitObjectStep_run hx hp hpair hw hfollow]
  dsimp only
  rw [StateT.run_bind_of_ok (advance_eq_ok_iff.mpr hclose), if_pos (by decide)]
  rfl

theorem visitObjectStep_more (hx : Tape.Accepts (Parser.Ready d) Follows x E) (hp : p.Ready d)
    {m : String × Value} (hpair : Pair E w m) (hu : Ws u) (htake : Takes p (w ++ 0x2C :: u) q)
    (hstop : Stops isJsonWhitespace q.stream) :
    (visitObjectStep x map).run p = .ok (.next (map.insert m.1 m.2), q) := by
  obtain ⟨p', hw, htake'⟩ := htake.split
  obtain ⟨p'', hsep, hu'⟩ := htake'.uncons
  have hfollow : Follows p'.stream := takes_stream hsep ▸ follows_cons (.inl rfl)
  rw [visitObjectStep_run hx hp hpair hw hfollow]
  dsimp only
  rw [StateT.run_bind_of_ok (advance_eq_ok_iff.mpr hsep), if_neg (by decide), if_pos (by decide),
    StateT.run_bind_of_ok (skipWhitespace_eq_ok_iff.mpr ⟨u, hu', hu, hstop⟩)]
  rfl

theorem stops_ws_quote : Stops isJsonWhitespace (0x22 :: w) := stops_ws_of_startsValue (by decide)

theorem loops_of_members (hx : Tape.Accepts (Parser.Ready d) Follows x E) {ms : List (String × Value)}
    (h : Members E w ms) : ∃ u t, w = u ++ 0x22 :: t ∧ Ws u ∧ ∀ {p q map}, p.Ready d →
      Takes p (0x22 :: t ++ [0x7D]) q →
      Loops (visitObjectStep x) map p (ms.foldl (fun map m => map.insert m.1 m.2) map) q := by
  induction h with
  | one hm =>
    obtain ⟨u, t, rfl, hu, hpair⟩ := exists_pair hm
    obtain ⟨t, rfl⟩ := hpair.starts
    exact ⟨u, t, rfl, hu, fun hp htake => .done (visitObjectStep_done hx hp hpair htake)⟩
  | cons hm _ ih =>
    obtain ⟨u', t', rfl, hu', hloops⟩ := ih
    obtain ⟨u, t, rfl, hu, hpair⟩ := exists_pair hm
    obtain ⟨t, rfl⟩ := hpair.starts
    refine ⟨u, t ++ 0x2C :: (u' ++ 0x22 :: t'), by simp, hu, fun {p q map} hp htake => ?_⟩
    have htake' : Takes p ((0x22 :: t ++ 0x2C :: u') ++ (0x22 :: t' ++ [0x7D])) q := by
      simpa only [List.append_assoc, List.cons_append] using htake
    obtain ⟨p', hfirst, hrest⟩ := htake'.split
    refine .next (visitObjectStep_more hx hp hpair hu' hfirst ?_) (hloops (hp.takes hfirst) hrest)
    rw [takes_stream hrest]
    exact stops_ws_quote

theorem visitObject_run (h : Takes p [0x7B] q) : (visitObject x).run p = (do
    skipWhitespace
    if (← peek) = some objectClose then
      let _ ← advance
      return []
    else repeatedly [] (visitObjectStep x) : Parse Entries).run q := by
  rw [visitObject, StateT.run_bind_of_ok (advance_eq_ok_iff.mpr h)]
  rfl

theorem reads_visitObject (hx : Reads (Parser.Ready d) x E) (hp : p.Ready d)
    (h : (visitObject x).run p = .ok (map, q)) : ∃ w, Takes p w q ∧ Val E w (.object map) := by
  obtain ⟨b, p₁, hadv, h₁⟩ := StateT.run_bind_eq_ok_iff.mp h
  have hb := advance_eq_ok_iff.mp hadv
  split at h₁
  · exact absurd h₁ panicked_ne_ok
  · next hopen =>
    obtain rfl := not_not.mp hopen
    obtain ⟨_, p₂, hws, h₂⟩ := StateT.run_bind_eq_ok_iff.mp h₁
    obtain ⟨u, hu, huws, -⟩ := skipWhitespace_eq_ok_iff.mp hws
    rw [run_peek_bind] at h₂
    split at h₂
    · next hclose =>
      obtain ⟨c, p₃, hadv', h₃⟩ := StateT.run_bind_eq_ok_iff.mp h₂
      obtain ⟨rfl, rfl⟩ := StateT.run_pure_eq_ok_iff.mp h₃
      have hc := advance_eq_ok_iff.mp hadv'
      obtain rfl := Option.some.inj ((takes_head hc).symm.trans hclose)
      exact ⟨_, hb.cons (hu.trans hc), .emptyObject huws⟩
    · have hp₂ := (hp.takes hb).takes hu
      obtain ⟨w, ms, hw, hms, rfl⟩ := members_of_loops hx hp₂ (loops_of_loop h₂)
      refine ⟨0x7B :: (u ++ w) ++ [0x7D], ?_, .object (hms u huws)⟩
      rw [List.cons_append, List.append_assoc]
      exact hb.cons (hu.trans hw)

theorem accepts_visitObject (hr : Reads (Parser.Ready d) x E)
    (hx : Tape.Accepts (Parser.Ready d) Follows x E) (hp : p.Ready d) (htake : Takes p w q)
    (h : Val E w (.object map)) : (visitObject x).run p = .ok (map, q) := by
  cases h with
  | @emptyObject u hu =>
    rw [List.cons_append] at htake
    obtain ⟨p₁, hb, htake₁⟩ := htake.uncons
    obtain ⟨p₂, hu₁, hc⟩ := htake₁.split
    have hws := skipWhitespace_eq_ok_iff.mpr ⟨u, hu₁, hu, by
      rw [takes_stream hc]
      rintro _ ⟨⟩
      decide⟩
    have hclose : p₂.stream.head? = some objectClose := takes_head hc
    rw [visitObject_run hb, StateT.run_bind_of_ok hws, run_peek_bind, if_pos hclose,
      StateT.run_bind_of_ok (advance_eq_ok_iff.mpr hc)]
    rfl
  | @object w ms hms =>
    obtain ⟨u, t, rfl, hu, hloops⟩ := loops_of_members hx hms
    rw [List.cons_append] at htake
    obtain ⟨p₁, hb, htake₁⟩ := htake.uncons
    rw [List.append_assoc] at htake₁
    obtain ⟨p₂, hu₁, htake₂⟩ := htake₁.split
    have hws := skipWhitespace_eq_ok_iff.mpr ⟨u, hu₁, hu, by
      rw [takes_stream htake₂]
      exact stops_ws_quote⟩
    have hopen : p₂.stream.head? ≠ some objectClose := by
      rw [takes_head htake₂]
      decide
    have hp₂ := (hp.takes hb).takes hu₁
    rw [visitObject_run hb, StateT.run_bind_of_ok hws, run_peek_bind, if_neg hopen,
      repeatedly_eq_ok_iff (Parser.Ready d) (fun _ _ _ _ hp h => visitObjectStep_next hr hp h) hp₂]
    exact hloops hp₂ htake₂

/-! ## Values -/

theorem reads_visitPeeked (hE : Elemental E) (hx : Reads (Parser.Ready d) x E) :
    Reads (Parser.Ready d) (visitPeeked x) (Val E) := by
  intro p v q hp h
  rw [visitPeeked, run_peek_bind] at h
  split at h
  · split at h
    · obtain ⟨s, p', hs, h⟩ := StateT.run_bind_eq_ok_iff.mp h
      obtain ⟨rfl, rfl⟩ := StateT.run_pure_eq_ok_iff.mp h
      obtain ⟨w, hw, hstr⟩ := (visitString_eq_ok_iff hp.1).mp hs
      exact ⟨w, hw, .string hstr⟩
    split at h
    · obtain ⟨map, p', hmap, h⟩ := StateT.run_bind_eq_ok_iff.mp h
      obtain ⟨rfl, rfl⟩ := StateT.run_pure_eq_ok_iff.mp h
      exact reads_visitObject hx hp hmap
    split at h
    · obtain ⟨vs, p', hvs, h⟩ := StateT.run_bind_eq_ok_iff.mp h
      obtain ⟨rfl, rfl⟩ := StateT.run_pure_eq_ok_iff.mp h
      exact reads_visitArray hE hx hp hvs
    split at h
    · obtain ⟨b, p', hb, h⟩ := StateT.run_bind_eq_ok_iff.mp h
      obtain ⟨rfl, rfl⟩ := StateT.run_pure_eq_ok_iff.mp h
      refine ⟨_, visitBool_eq_ok_iff.mp hb, ?_⟩
      cases b with
      | true => exact .true
      | false => exact .false
    split at h
    · obtain ⟨_, p', hnull, h⟩ := StateT.run_bind_eq_ok_iff.mp h
      obtain ⟨rfl, rfl⟩ := StateT.run_pure_eq_ok_iff.mp h
      exact ⟨_, visitNull_eq_ok_iff.mp hnull, .null⟩
    split at h
    · obtain ⟨n, p', hn, h⟩ := StateT.run_bind_eq_ok_iff.mp h
      obtain ⟨rfl, rfl⟩ := StateT.run_pure_eq_ok_iff.mp h
      obtain ⟨w, hw, hnum⟩ := reads_visitNumber trivial hn
      exact ⟨w, hw, .number hnum⟩
    · exact absurd h fail_ne_ok
  · exact absurd h fail_ne_ok

theorem accepts_visitPeeked (hE : Elemental E) (hr : Reads (Parser.Ready d) x E)
    (hx : Tape.Accepts (Parser.Ready d) Follows x E) :
    Tape.Accepts (Parser.Ready d) (Stops isNumberByte) (visitPeeked x) (Val E) := by
  intro p w v q hp htake h hstop
  have hpeek {b t} (hw : w = b :: t) : p.stream.head? = some b := takes_head (hw ▸ htake)
  rw [visitPeeked, run_peek_bind]
  cases h with
  | string hs =>
    have hrun := (visitString_eq_ok_iff hp.1).mpr ⟨_, htake, hs⟩
    cases hs with
    | mk =>
      rw [hpeek rfl]
      dsimp only
      rw [if_pos (by decide), StateT.run_bind_of_ok hrun]
      rfl
  | number hn =>
    have hrun := accepts_visitNumber trivial htake hn hstop
    obtain ⟨b, t, hw, hb⟩ := hn.starts
    have hne {c : UInt8} (hc : ¬ (c = 0x2D ∨ isDigit c)) : b ≠ c := fun heq => hc (heq ▸ hb)
    rw [hpeek hw]
    dsimp only
    rw [if_neg (hne (by decide)), if_neg (hne (by decide)), if_neg (hne (by decide)),
      if_neg (not_or.mpr ⟨hne (by decide), hne (by decide)⟩), if_neg (hne (by decide)),
      if_pos (show b = ascii '-' ∨ isDigit b from hb), StateT.run_bind_of_ok hrun]
    rfl
  | true =>
    rw [hpeek rfl]
    dsimp only
    rw [if_neg (by decide), if_neg (by decide), if_neg (by decide), if_pos (by decide),
      StateT.run_bind_of_ok (visitBool_eq_ok_iff (v := true).mpr htake)]
    rfl
  | false =>
    rw [hpeek rfl]
    dsimp only
    rw [if_neg (by decide), if_neg (by decide), if_neg (by decide), if_pos (by decide),
      StateT.run_bind_of_ok (visitBool_eq_ok_iff (v := false).mpr htake)]
    rfl
  | null =>
    rw [hpeek rfl]
    dsimp only
    rw [if_neg (by decide), if_neg (by decide), if_neg (by decide), if_neg (by decide),
      if_pos (by decide), StateT.run_bind_of_ok (visitNull_eq_ok_iff.mpr htake)]
    rfl
  | emptyArray hu =>
    rw [hpeek rfl]
    dsimp only
    rw [if_neg (by decide), if_neg (by decide), if_pos (by decide),
      StateT.run_bind_of_ok (accepts_visitArray hE hr hx hp htake (.emptyArray hu))]
    rfl
  | array hes =>
    rw [hpeek rfl]
    dsimp only
    rw [if_neg (by decide), if_neg (by decide), if_pos (by decide),
      StateT.run_bind_of_ok (accepts_visitArray hE hr hx hp htake (.array hes))]
    rfl
  | emptyObject hu =>
    rw [hpeek rfl]
    dsimp only
    rw [if_neg (by decide), if_pos (by decide),
      StateT.run_bind_of_ok (accepts_visitObject hr hx hp htake (.emptyObject hu))]
    rfl
  | object hms =>
    rw [hpeek rfl]
    dsimp only
    rw [if_neg (by decide), if_pos (by decide),
      StateT.run_bind_of_ok (accepts_visitObject hr hx hp htake (.object hms))]
    rfl

end Nested

/-- A value can follow the one before it only after a byte that no number goes on with. -/
theorem stops_of_ws_append (hu : Ws u) (hw : Follows w) :
    Stops isNumberByte (u ++ w) ∧ Stops isJsonWhitespace w := by
  have hw' : ∀ b ∈ w.head?, isNumberByte b = false ∧ isJsonWhitespace b = false := by
    intro b hb
    rcases hw b hb with rfl | rfl | rfl
    · decide
    · decide
    · decide
  refine ⟨?_, fun b hb => (hw' b hb).2⟩
  cases u with
  | nil => exact fun b hb => (hw' b hb).1
  | cons b u =>
    rintro _ ⟨⟩
    rcases hu b List.mem_cons_self with rfl | rfl | rfl | rfl
    · decide
    · decide
    · decide
    · decide

theorem Parser.Ready.within (hp : p.Ready d) : p.within none d = p := by
  obtain ⟨hpending, rfl⟩ := hp
  rw [Parser.within, ← hpending]

theorem visitValue_eq_ok_iff {budget : ℕ} (hp : p.Ready d) :
    (visitValue (budget + 1)).run p = .ok (v, q) ↔ d + 1 < 256 ∧ ∃ p₁ p₂ p₃,
      skipWhitespace.run (p.within none (d + 1)) = .ok ((), p₁) ∧
      (visitPeeked (visitValue budget)).run p₁ = .ok (v, p₂) ∧
      skipWhitespace.run p₂ = .ok ((), p₃) ∧ q = { p₃ with depth := p₃.depth - 1 } := by
  obtain ⟨hpending, rfl⟩ := hp
  rw [visitValue, run_modify_bind, run_get_bind]
  dsimp only
  rw [hpending]
  constructor
  · intro h
    split at h
    · exact absurd h fail_ne_ok
    · next hdepth =>
      obtain ⟨_, p₁, hws, h⟩ := StateT.run_bind_eq_ok_iff.mp h
      obtain ⟨v', p₂, hv, h⟩ := StateT.run_bind_eq_ok_iff.mp h
      obtain ⟨_, p₃, hws', h⟩ := StateT.run_bind_eq_ok_iff.mp h
      rw [run_modify_bind] at h
      obtain ⟨rfl, rfl⟩ := StateT.run_pure_eq_ok_iff.mp h
      exact ⟨Nat.lt_of_not_le hdepth, p₁, p₂, p₃, hws, hv, hws', rfl⟩
  · rintro ⟨hdepth, p₁, p₂, p₃, hws, hv, hws', rfl⟩
    rw [Parser.within] at hws
    have hmax : ¬ maxDepth ≤ p.depth + 1 := Nat.not_le.mpr hdepth
    rw [if_neg hmax, StateT.run_bind_of_ok hws, StateT.run_bind_of_ok hv,
      StateT.run_bind_of_ok hws']
    rfl

theorem reads_visitValue {budget n : ℕ} (hn : n + d = 255) :
    Reads (Parser.Ready d) (visitValue budget) (Element n) := by
  induction budget generalizing d n with
  | zero =>
    intro p v q hp h
    exact absurd h StateT.run_throw_ne_ok
  | succ budget ih =>
    intro p v q hp h
    obtain ⟨hdepth, p₁, p₂, p₃, hws, hv, hws', rfl⟩ := (visitValue_eq_ok_iff hp).mp h
    obtain ⟨n, rfl⟩ : ∃ m, n = m + 1 := ⟨n - 1, by omega⟩
    obtain ⟨w, hw, hwws, -⟩ := skipWhitespace_eq_ok_iff.mp hws
    obtain ⟨w', hw', hwws', -⟩ := skipWhitespace_eq_ok_iff.mp hws'
    have hp₁ : p₁.Ready (d + 1) := Parser.Ready.takes ⟨rfl, rfl⟩ hw
    obtain ⟨u, hu, hval⟩ :=
      reads_visitPeeked (elemental_element n) (ih (show n + (d + 1) = 255 by omega)) hp₁ hv
    obtain ⟨q, hq, rfl⟩ := takes_of_within ((hw.trans hu).trans hw')
    have hback : q.within none d = q := (hp.takes hq).within
    refine ⟨w ++ u ++ w', ?_, .mk hwws hval hwws'⟩
    change Takes p _ (q.within none d)
    rw [hback]
    exact hq

theorem accepts_visitValue {budget n : ℕ} (hn : n + d = 255) (hbudget : n ≤ budget) :
    Tape.Accepts (Parser.Ready d) Follows (visitValue budget) (Element n) := by
  induction budget generalizing d n with
  | zero =>
    obtain rfl := Nat.le_zero.mp hbudget
    intro p w v q _ _ h
    exact h.elim
  | succ budget ih =>
    intro p w v q hp htake h hfollow
    cases n with
    | zero => exact h.elim
    | succ n =>
      cases h with
      | @mk w u _ w' hw hval hw' =>
        have hn' : n + (d + 1) = 255 := by omega
        have htake' := takes_within htake none (d + 1)
        obtain ⟨p₂, htake₂, htake₃⟩ := htake'.split
        obtain ⟨p₁, htake₁, htake₂⟩ := htake₂.split
        have hp₁ : p₁.Ready (d + 1) := Parser.Ready.takes ⟨rfl, rfl⟩ htake₁
        obtain ⟨hstop, hstop'⟩ := stops_of_ws_append hw' hfollow
        have hrest : Stops isNumberByte p₂.stream := by
          rw [takes_stream htake₃]
          exact hstop
        have hv := accepts_visitPeeked (elemental_element n) (reads_visitValue hn')
          (ih hn' (Nat.le_of_succ_le_succ hbudget)) hp₁ htake₂ hval hrest
        obtain ⟨b, t, rfl, hb⟩ := hval.starts
        refine (visitValue_eq_ok_iff hp).mpr ⟨by omega, p₁, p₂, q.within none (d + 1), ?_, hv, ?_, ?_⟩
        · refine skipWhitespace_eq_ok_iff.mpr ⟨w, htake₁, hw, ?_⟩
          rw [takes_stream htake₂]
          exact stops_ws_of_startsValue hb
        · exact skipWhitespace_eq_ok_iff.mpr ⟨w', htake₃, hw', hstop'⟩
        · exact (hp.takes htake).within.symm

theorem parse_eq_ok_iff_run {reader : Reader} : reader.parse = .ok v ↔
    ∃ q, (visitValue maxDepth).run (Parser.new reader) = .ok (v, q) ∧ q.stream = [] ∧
      q.readError = none := by
  have hmap : reader.parse = .ok v ↔
      ∃ q, Parser.parse.run (Parser.new reader) = .ok (v, q) := by
    rw [Reader.parse]
    cases h : Parser.parse.run (Parser.new reader) with
    | error e => simp [Except.map]
    | ok r =>
      obtain ⟨v', q⟩ := r
      simp [Except.map]
  rw [hmap]
  refine exists_congr fun q => ?_
  rw [Parser.parse, StateT.run_bind_eq_ok_iff]
  constructor
  · rintro ⟨v', q', hv, h⟩
    rw [run_get_bind] at h
    split at h
    · exact absurd h fail_ne_ok
    · exact absurd h fail_ne_ok
    · next hnil hnone =>
      obtain ⟨rfl, rfl⟩ := StateT.run_pure_eq_ok_iff.mp h
      exact ⟨hv, hnil, hnone⟩
  · rintro ⟨hv, hnil, hnone⟩
    refine ⟨v, q, hv, ?_⟩
    rw [run_get_bind, hnil, hnone]
    rfl

theorem text_of_parse {data : List UInt8} (h : parse data = .ok v) : Text data v := by
  obtain ⟨q, hv, hnil, -⟩ := parse_eq_ok_iff_run.mp h
  obtain ⟨w, hw, helement⟩ := reads_visitValue (n := 255) rfl ⟨rfl, rfl⟩ hv
  have hdata : data = w ++ q.stream := takes_stream hw
  rw [hnil, List.append_nil] at hdata
  exact hdata ▸ helement

theorem parse_of_text {data : List UInt8} (h : Text data v) : parse data = .ok v := by
  have htake : Takes (Parser.new ⟨data, none⟩) data
      (Tape.skip data.length (Parser.new ⟨data, none⟩)) :=
    .of_rest (List.append_nil data).symm
  have hnil : (Tape.skip data.length (Parser.new ⟨data, none⟩)).stream = [] := List.drop_length
  have hfollow : Follows (Tape.skip data.length (Parser.new ⟨data, none⟩)).stream := by
    rw [hnil]
    rintro _ ⟨⟩
  exact parse_eq_ok_iff_run.mpr
    ⟨_, accepts_visitValue (n := 255) rfl (by decide) ⟨rfl, rfl⟩ htake h hfollow, hnil, rfl⟩

/-- The parser accepts exactly the JSON texts and returns the value they denote. -/
theorem parses_exactly_texts (data : List UInt8) (v : Value) :
    parse data = .ok v ↔ Text data v :=
  ⟨text_of_parse, parse_of_text⟩

end Json

end Miniraft

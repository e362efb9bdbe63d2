import Miniraft.Json.Value

/-!
# The grammar of JSON

RFC 8259 as relations between bytes and what they denote. An element is a value with the whitespace
around it. What the grammar leaves open is fixed here as follows: surrogates are escaped in pairs,
of the members with one name the last one counts, a number denotes its own text with `e` for `E`,
and values are nested at most 255 levels deep (`Text`).

The relations for arrays, objects and values take the relation for the elements inside as a
parameter, so that `Element` is defined by recursion on the number of levels.
-/

namespace Miniraft

namespace Json

namespace Grammar

def Ws (w : List UInt8) : Prop := ∀ b ∈ w, b = 0x20 ∨ b = 0x09 ∨ b = 0x0A ∨ b = 0x0D

/-! ## Numbers -/

def Digit (b : UInt8) : Prop := 0x30 ≤ b ∧ b ≤ 0x39

/-- One or more digits. -/
def Digits (w : List UInt8) : Prop := w ≠ [] ∧ ∀ b ∈ w, Digit b

inductive Minus : List UInt8 → Prop
  | none : Minus []
  | minus : Minus [0x2D]

inductive Int : List UInt8 → Prop
  | zero : Int [0x30]
  | digits : 0x31 ≤ d → d ≤ 0x39 → (∀ b ∈ w, Digit b) → Int (d :: w)

inductive Frac : List UInt8 → Prop
  | none : Frac []
  | digits : Digits w → Frac (0x2E :: w)

inductive Sign : List UInt8 → Prop
  | none : Sign []
  | plus : Sign [0x2B]
  | minus : Sign [0x2D]

inductive Exp : List UInt8 → Prop
  | none : Exp []
  | digits : e = 0x65 ∨ e = 0x45 → Sign s → Digits w → Exp (e :: s ++ w)

/-- The text of a number: that of its bytes, with `e` for `E`. -/
def numeral (w : List UInt8) : Number :=
  ⟨String.ofList (w.map fun b => if b = 0x45 then 'e' else Char.ofUInt8 b)⟩

inductive Num : List UInt8 → Number → Prop
  | mk : Minus m → Int i → Frac f → Exp e → Num (m ++ i ++ f ++ e) (numeral (m ++ i ++ f ++ e))

/-! ## Strings -/

inductive HexDigit : UInt8 → ℕ → Prop
  | digit : 0x30 ≤ b → b ≤ 0x39 → HexDigit b (b.toNat - 0x30)
  | upper : 0x41 ≤ b → b ≤ 0x46 → HexDigit b (b.toNat - 0x41 + 10)
  | lower : 0x61 ≤ b → b ≤ 0x66 → HexDigit b (b.toNat - 0x61 + 10)

inductive Hex4 : List UInt8 → ℕ → Prop
  | mk : HexDigit a i → HexDigit b j → HexDigit c k → HexDigit d l →
    Hex4 [a, b, c, d] (((i * 16 + j) * 16 + k) * 16 + l)

def HighSurrogate (n : ℕ) : Prop := 0xD800 ≤ n ∧ n ≤ 0xDBFF

def LowSurrogate (n : ℕ) : Prop := 0xDC00 ≤ n ∧ n ≤ 0xDFFF

/-- The character of a surrogate pair. -/
def ofSurrogates (high low : ℕ) : Char :=
  Char.ofNat (0x10000 + (high - 0xD800) * 0x400 + (low - 0xDC00))

/-- The two-character escapes. -/
inductive Escape : UInt8 → Char → Prop
  | quote : Escape 0x22 '"'
  | backslash : Escape 0x5C '\\'
  | slash : Escape 0x2F '/'
  | backspace : Escape 0x62 '\x08'
  | formFeed : Escape 0x66 '\x0C'
  | lineFeed : Escape 0x6E '\n'
  | carriageReturn : Escape 0x72 '\r'
  | tab : Escape 0x74 '\t'

inductive Chr : List UInt8 → Char → Prop
  | unescaped : 0x20 ≤ c.toNat → c ≠ '"' → c ≠ '\\' → Chr (String.utf8EncodeChar c) c
  | escape : Escape e c → Chr [0x5C, e] c
  | unicode : Hex4 h n → ¬ HighSurrogate n → ¬ LowSurrogate n →
    Chr (0x5C :: 0x75 :: h) (Char.ofNat n)
  | surrogates : Hex4 h m → HighSurrogate m → Hex4 l n → LowSurrogate n →
    Chr (0x5C :: 0x75 :: h ++ 0x5C :: 0x75 :: l) (ofSurrogates m n)

inductive Chars : List UInt8 → List Char → Prop
  | nil : Chars [] []
  | cons : Chr w c → Chars w' cs → Chars (w ++ w') (c :: cs)

inductive Str : List UInt8 → String → Prop
  | mk : Chars w cs → Str (0x22 :: w ++ [0x22]) (String.ofList cs)

/-! ## Values -/

/-- The members one after the other: of those with one name the last one is kept. -/
def collect (members : List (String × Value)) : Entries :=
  members.foldl (fun map member => map.insert member.1 member.2) []

section

variable (E : List UInt8 → Value → Prop)

inductive Elements : List UInt8 → List Value → Prop
  | one : E w v → Elements w [v]
  | cons : E w v → Elements w' vs → Elements (w ++ 0x2C :: w') (v :: vs)

inductive Member : List UInt8 → String × Value → Prop
  | mk : Ws w → Str s k → Ws w' → E e v → Member (w ++ s ++ w' ++ 0x3A :: e) (k, v)

inductive Members : List UInt8 → List (String × Value) → Prop
  | one : Member E w m → Members w [m]
  | cons : Member E w m → Members w' ms → Members (w ++ 0x2C :: w') (m :: ms)

inductive Val : List UInt8 → Value → Prop
  | string : Str w s → Val w (.string s)
  | number : Num w n → Val w (.number n)
  | true : Val [0x74, 0x72, 0x75, 0x65] (.bool true)
  | false : Val [0x66, 0x61, 0x6C, 0x73, 0x65] (.bool false)
  | null : Val [0x6E, 0x75, 0x6C, 0x6C] .null
  | emptyArray : Ws w → Val (0x5B :: w ++ [0x5D]) (.array [])
  | array : Elements E w vs → Val (0x5B :: w ++ [0x5D]) (.array vs)
  | emptyObject : Ws w → Val (0x7B :: w ++ [0x7D]) (.object [])
  | object : Members E w ms → Val (0x7B :: w ++ [0x7D]) (.object (collect ms))

end

inductive Padded (L : List UInt8 → Value → Prop) : List UInt8 → Value → Prop
  | mk : Ws w → L u v → Ws w' → Padded L (w ++ u ++ w') v

/-- An element with at most `n` levels of values, itself included. -/
def Element : ℕ → List UInt8 → Value → Prop
  | 0 => fun _ _ => False
  | n + 1 => Padded (Val (Element n))

/-- The JSON texts and what they denote. -/
def Text : List UInt8 → Value → Prop := Element 255

end Grammar

end Json

end Miniraft

import Mathlib.Algebra.GroupWithZero.Nat
import Mathlib.Data.Int.Notation
import Mathlib.Data.PNat.Notation
import Miniraft.Json.Value

/-!
# Serialization and deserialization

The traits of `json/src/serde/mod.rs` and their implementations for the types of the standard
library. `SerializeError` has no values, so that serialization does not fail. A `u64` is a natural
number here or, where the bound matters, a `UInt64`.
-/

namespace Miniraft

namespace Json

/-- The kinds of `std::num::ParseIntError` that occur. -/
inductive ParseIntError where
  | empty
  | invalidDigit
  | posOverflow
  | negOverflow
  deriving DecidableEq

inductive DeserializeError where
  | invalidValue (v : Value)
  | invalidInteger (e : ParseIntError)

class Serialize (α : Type) where
  serialize : α → Value

class Deserialize (α : Type) where
  deserialize : Value → Except DeserializeError α

export Serialize (serialize)
export Deserialize (deserialize)

/-! ## Integers from texts -/

/-- `char::to_digit(10)` -/
def toDigit (c : Char) : Option ℕ := if c.isDigit then some (c.toNat - '0'.toNat) else none

/-- The digits from left to right, `n` standing for those before. -/
def parseDigits (bound : ℕ) (overflow : ParseIntError) (n : ℕ) :
    List Char → Except ParseIntError ℕ
  | [] => return n
  | c :: cs =>
    match toDigit c with
    | none => throw .invalidDigit
    | some d =>
      if n * 10 + d < bound then parseDigits bound overflow (n * 10 + d) cs else throw overflow

/-- `<u64 as FromStr>::from_str` -/
def parseU64 (s : String) : Except ParseIntError ℕ :=
  match s.toList with
  | [] => throw .empty
  | ['+'] | ['-'] => throw .invalidDigit
  | '+' :: cs | cs => parseDigits (2 ^ 64) .posOverflow 0 cs

/-- `<i64 as FromStr>::from_str` -/
def parseI64 (s : String) : Except ParseIntError ℤ :=
  match s.toList with
  | [] => throw .empty
  | ['+'] | ['-'] => throw .invalidDigit
  | '-' :: cs => return -Int.ofNat (← parseDigits (2 ^ 63 + 1) .negOverflow 0 cs)
  | '+' :: cs | cs => return Int.ofNat (← parseDigits (2 ^ 63) .posOverflow 0 cs)

/-- `TryFrom<Number> for u64`, with the error as `?` converts it. -/
def Number.toU64 (n : Number) : Except DeserializeError ℕ :=
  (parseU64 n.text).mapError .invalidInteger

/-- `TryFrom<Number> for i64` -/
def Number.toI64 (n : Number) : Except DeserializeError ℤ :=
  (parseI64 n.text).mapError .invalidInteger

/-! ## Primitives -/

instance : Serialize Bool where
  serialize b := .bool b

instance : Deserialize Bool where
  deserialize
    | .bool b => return b
    | value => throw (.invalidValue value)

instance : Serialize String where
  serialize s := .string s

instance : Deserialize String where
  deserialize
    | .string s => return s
    | value => throw (.invalidValue value)

/-- `Serialize for u64` -/
instance : Serialize ℕ where
  serialize n := .number ⟨toString n⟩

/-- `Deserialize for u64` -/
instance : Deserialize ℕ where
  deserialize
    | .number n => n.toU64
    | value => throw (.invalidValue value)

instance : Serialize UInt64 where
  serialize n := serialize n.toNat

instance : Deserialize UInt64 where
  deserialize value := return UInt64.ofNat (← deserialize value)

instance : Serialize Int64 where
  serialize n := .number ⟨toString n.toInt⟩

instance : Deserialize Int64 where
  deserialize
    | .number n => return Int64.ofInt (← n.toI64)
    | value => throw (.invalidValue value)

/-- `Serialize for NonZero<u64>` -/
instance : Serialize ℕ+ where
  serialize n := serialize (n : ℕ)

/-- `Deserialize for NonZero<u64>` -/
instance : Deserialize ℕ+ where
  deserialize
    | .number n => do
      let v ← n.toU64
      if h : 0 < v then return ⟨v, h⟩ else throw (.invalidValue (.number ⟨toString v⟩))
    | value => throw (.invalidValue value)

/-! ## Generics -/

section

variable {α : Type}

instance [Serialize α] : Serialize (List α) where
  serialize xs := .array (xs.map serialize)

instance [Deserialize α] : Deserialize (List α) where
  deserialize
    | .array values => values.mapM deserialize
    | value => throw (.invalidValue value)

instance [Serialize α] : Serialize (Option α) where
  serialize
    | some v => serialize v
    | none => .null

instance [Deserialize α] : Deserialize (Option α) where
  deserialize
    | .null => return none
    | value => return some (← deserialize value)

end

/-! ## Maps -/

/-- An object of a `HashMap` after one `insert` after the other, or of `HashMap::from`. -/
def Value.ofFields (fields : List (String × Value)) : Value :=
  .object (fields.foldl (fun map field => Entries.insert map field.1 field.2) [])

/-- `HashMap::remove`: the value that was removed and the map that is left. -/
def removeKey (map : Entries) (key : String) : Option Value × Entries :=
  (map.lookup key, map.remove key)

end Json

end Miniraft

import Mathlib.Data.List.Forall2
import Mathlib.Data.Nat.Notation

/-!
# JSON values

The values of `json/src/lib.rs` and their `Display`. A `HashMap` is the list of its entries in the
order of iteration, with distinct keys. `Same` is equality up to that order.
-/

namespace Miniraft

namespace Json

/-- A number, as the text it was parsed from. -/
structure Number where
  text : String
  deriving DecidableEq

inductive Value where
  | string (s : String)
  | number (n : Number)
  | object (entries : List (String × Value))
  | array (values : List Value)
  | bool (b : Bool)
  | null

abbrev Entries := List (String × Value)

namespace Entries

/-- `HashMap::insert`: the value of a key that is there already is replaced. -/
def insert : Entries → String → Value → Entries
  | [], key, value => [(key, value)]
  | (k, v) :: entries, key, value =>
    if k = key then (k, value) :: entries else (k, v) :: insert entries key value

/-- The entries without `key`, as `HashMap::remove` leaves them. -/
def remove (entries : Entries) (key : String) : Entries := entries.filter (·.1 ≠ key)

end Entries

/-- The entries of one map in two orders, with values that `R` relates. -/
inductive Shuffled (R : Value → Value → Prop) : Entries → Entries → Prop
  | nil : Shuffled R [] []
  | cons : R v w → Shuffled R es (fs ++ gs) → Shuffled R ((k, v) :: es) (fs ++ (k, w) :: gs)

/-- Values that differ at most in the iteration order of their maps. -/
inductive Same : Value → Value → Prop
  | string : Same (.string s) (.string s)
  | number : Same (.number n) (.number n)
  | object : Shuffled Same es fs → Same (.object es) (.object fs)
  | array : List.Forall₂ Same vs ws → Same (.array vs) (.array ws)
  | bool : Same (.bool b) (.bool b)
  | null : Same .null .null

/-! ## Display -/

abbrev ascii (c : Char) : UInt8 := c.toUInt8

def stringQuote : UInt8 := ascii '"'
def stringEscapeOpen : UInt8 := ascii '\\'

def objectOpen : UInt8 := ascii '\x7b'
def objectKvSep : UInt8 := ascii ':'
def objectEntriesSep : UInt8 := ascii ','
def objectClose : UInt8 := ascii '\x7d'

def arrayOpen : UInt8 := ascii '['
def arraySep : UInt8 := ascii ','
def arrayClose : UInt8 := ascii ']'

/-- `byte as char` in a text. -/
def asChar (byte : UInt8) : String := String.singleton (Char.ofUInt8 byte)

/-- `char::is_control`, the general category Cc. -/
def isControl (c : Char) : Bool := c.toNat < 0x20 || (0x7f ≤ c.toNat && c.toNat < 0xa0)

/-- A number in at least four lower-case hexadecimal digits: the format `:04x`. -/
def hex04 (n : ℕ) : String := String.ofList (List.leftpad 4 '0' (Nat.toDigits 16 n))

def escape (c : Char) : String :=
  if c = '"' then "\\\""
  else if c = '\\' then "\\\\"
  else if c = '\n' then "\\n"
  else if c = '\t' then "\\t"
  else if c = '\r' then "\\r"
  else if c = '\x08' then "\\b"
  else if c = '\x0c' then "\\f"
  else if isControl c then "\\u" ++ hex04 c.toNat
  else String.singleton c

/-- A string value is printed with escapes. -/
def printString (s : String) : String :=
  asChar stringQuote ++ s.toList.foldl (fun buf c => buf ++ escape c) "" ++ asChar stringQuote

mutual

def Value.print : Value → String
  | .string s => printString s
  | .number num => num.text
  | .object obj => asChar objectOpen ++ printEntries true obj ++ asChar objectClose
  | .array values => asChar arrayOpen ++ printValues true values ++ asChar arrayClose
  | .bool b => if b then "true" else "false"
  | .null => "null"

/-- Keys are printed as they are. -/
def printEntries : Bool → List (String × Value) → String
  | _, [] => ""
  | first, (k, v) :: entries =>
    (if first then "" else asChar objectEntriesSep ++ " ") ++
      ("\"" ++ k ++ "\"" ++ asChar objectKvSep ++ " ") ++ v.print ++ printEntries false entries

def printValues : Bool → List Value → String
  | _, [] => ""
  | first, v :: values =>
    (if first then "" else asChar arraySep ++ " ") ++ v.print ++ printValues false values

end

/-- `String::as_bytes` -/
def asBytes (s : String) : List UInt8 := s.toList.flatMap String.utf8EncodeChar

end Json

end Miniraft

import Miniraft.Json.Value
import Miniraft.Std.Scan

/-!
# The JSON parser

The parser of `json/src/lib.rs`, over a reader that yields finitely many bytes and then ends or
fails. A program of `Parse` stands for a method on `&mut Parser`. The loops of the source get as
much fuel as there are bytes; `Failure.diverged` stands for a loop that would not end.
-/

namespace Miniraft

namespace Json

inductive UnicodeError where
  | invalidUtf16 (code : UInt16)
  | unpairedHighSurrogate (code : UInt16)
  | unpairedLowSurrogate (code : UInt16)
  | invalidUtf8
  | invalidUtf8Start (byte : UInt8)

/-- An I/O error of a reader, by its code. -/
structure ReadError where
  code : Int

inductive Kind where
  | io (e : ReadError)
  | unexpectedEof
  | invalidByte (byte : UInt8) (reason : String)
  | invalidEscapeSequence (byte : UInt8)
  | invalidHexCharacter (c : Char)
  | unicodeError (e : UnicodeError)
  | nestingTooDeep (depth : ℕ)

structure Error where
  kind : Kind
  pos : ℕ

/-- The assertions of the parser. -/
inductive Panic where
  /-- "should only be reachable from visiting value" -/
  | notPeeked
  /-- "should have one (potentially error) element" -/
  | noCharacter
  /-- "should not yield more than 1 character from 1 surrogate pair" -/
  | moreCharacters
  | consecutiveSurrogates
  /-- "should have value > 0 in this branch" -/
  | zeroSurrogate
  | invalidChar
  /-- "continuation bit is set" -/
  | noContinuationBit
  /-- "should set indices correctly" -/
  | badIndices

inductive Failure where
  | error (e : Error)
  | panicked (p : Panic)
  | diverged

/-- The bytes of a reader, and the error after them or the end of the input. -/
structure Reader where
  bytes : List UInt8
  error : Option ReadError

structure Parser where
  stream : List UInt8
  readError : Option ReadError
  streamPos : ℕ
  pendingHighSurrogate : Option UInt16
  depth : ℕ

def maxDepth : ℕ := 256

abbrev Parse := StateT Parser (Except Failure)

def fail (kind : Kind) : Parse α := do
  throw (.error ⟨kind, (← get).streamPos⟩)

def panicked (p : Panic) : Parse α := throw (.panicked p)

/-- No call looks at a peeked error. -/
def peek : Parse (Option UInt8) := do
  return (← get).stream.head?

/-- Behind the last byte. -/
def Parser.ended (p : Parser) : Kind :=
  match p.readError with
  | none => .unexpectedEof
  | some e => .io e

def advance : Parse UInt8 := do
  let p ← get
  match p.stream with
  | [] => fail p.ended
  | byte :: stream =>
    modify fun p => { p with stream, streamPos := p.streamPos + 1 }
    return byte

/-- `loop`, whose every iteration but the last consumes a byte. -/
def repeatedly (init : α) (body : α → Parse (LoopFlow α β)) : Parse β := do
  loop .diverged body ((← get).stream.length + 1) init

/-- An iteration of a loop that goes on while the next byte is one of `kind`. -/
def readStep (kind : UInt8 → Bool) (f : α → UInt8 → α) (a : α) : Parse (LoopFlow α α) := do
  match ← peek with
  | some c =>
    if kind c then
      let _ ← advance
      return .next (f a c)
    else return .done a
  | none => return .done a

def readWhile (kind : UInt8 → Bool) (f : α → UInt8 → α) (init : α) : Parse α :=
  repeatedly init (readStep kind f)

def isJsonWhitespace (c : UInt8) : Bool :=
  c = ascii ' ' || c = ascii '\n' || c = ascii '\r' || c = ascii '\t'

def skipWhitespace : Parse Unit := readWhile isJsonWhitespace (fun _ _ => ()) ()

/-! ## Strings -/

/-- `char::to_digit(16)` of a byte. -/
def toDigit16 (c : UInt8) : Option UInt16 :=
  if ascii '0' ≤ c ∧ c ≤ ascii '9' then some (c - ascii '0').toUInt16
  else if ascii 'a' ≤ c ∧ c ≤ ascii 'f' then some (c - ascii 'a' + 10).toUInt16
  else if ascii 'A' ≤ c ∧ c ≤ ascii 'F' then some (c - ascii 'A' + 10).toUInt16
  else none

/-- `n` more digits after those that make up `val`. -/
def collectHex : ℕ → UInt16 → Parse UInt16
  | 0, val => return val
  | n + 1, val => do
    let c ← advance
    match toDigit16 c with
    | none => fail (.invalidHexCharacter (Char.ofUInt8 c))
    | some digit => collectHex n ((val <<< 4) ||| digit)

def collectUnicodeEscapeHexDigits : Parse UInt16 := collectHex 4 0

def isHighSurrogate (code : UInt16) : Bool := 0xD800 ≤ code && code ≤ 0xDBFF

def isLowSurrogate (code : UInt16) : Bool := 0xDC00 ≤ code && code ≤ 0xDFFF

/-- `char::decode_utf16` of all units: the characters, and the unpaired surrogates as errors. -/
def decodeUtf16 : List UInt16 → List (Except UInt16 Char)
  | [] => []
  | [u] =>
    if isHighSurrogate u || isLowSurrogate u then [.error u] else [.ok (Char.ofNat u.toNat)]
  | u :: low :: us =>
    if isHighSurrogate u then
      if isLowSurrogate low then
        .ok (Char.ofNat (0x10000 + (u.toNat - 0xD800) * 0x400 + (low.toNat - 0xDC00))) ::
          decodeUtf16 us
      else .error u :: decodeUtf16 (low :: us)
    else if isLowSurrogate u then .error u :: decodeUtf16 (low :: us)
    else .ok (Char.ofNat u.toNat) :: decodeUtf16 (low :: us)

/-- `s` with the one character of a surrogate pair. -/
def pushPair (s : String) : List (Except UInt16 Char) → Parse String
  | [] => panicked .noCharacter
  | .error code :: _ => fail (.unicodeError (.invalidUtf16 code))
  | .ok c :: chars =>
    if chars ≠ [] then panicked .moreCharacters
    else do
      modify fun p => { p with pendingHighSurrogate := none }
      return s.push c

/-- A pending high surrogate needs its partner before anything else. -/
def visitLowSurrogate (s : String) : Parse String := do
  match (← get).pendingHighSurrogate with
  | none => return s
  | some high =>
    let open_ ← advance
    let u ← advance
    if open_ = stringEscapeOpen ∧ u = ascii 'u' then
      let candidate ← collectUnicodeEscapeHexDigits
      pushPair s (decodeUtf16 [high, candidate])
    else fail (.unicodeError (.unpairedHighSurrogate high))

def visitUnicodeEscape (s : String) : Parse (LoopFlow String String) := do
  let codepoint ← collectUnicodeEscapeHexDigits
  if (← get).pendingHighSurrogate.isSome then panicked .consecutiveSurrogates
  else if isHighSurrogate codepoint then
    if codepoint = 0 then panicked .zeroSurrogate
    else
      modify fun p => { p with pendingHighSurrogate := some codepoint }
      return .next s
  else if isLowSurrogate codepoint then
    fail (.unicodeError (.unpairedLowSurrogate codepoint))
  else if codepoint.toNat.isValidChar then return .next (s.push (Char.ofNat codepoint.toNat))
  else panicked .invalidChar

/-- The escapes of one character. -/
def unescape (b : UInt8) : Option Char :=
  if b = ascii '"' then some '"'
  else if b = ascii '\\' then some '\\'
  else if b = ascii '/' then some '/'
  else if b = ascii 'b' then some '\x08'
  else if b = ascii 'f' then some '\x0C'
  else if b = ascii 'n' then some '\n'
  else if b = ascii 'r' then some '\r'
  else if b = ascii 't' then some '\t'
  else none

def visitEscape (s : String) : Parse (LoopFlow String String) := do
  let b ← advance
  match unescape b with
  | some c => return .next (s.push c)
  | none =>
    if b = ascii 'u' then visitUnicodeEscape s else fail (.invalidEscapeSequence b)

def advances : ℕ → Parse (List UInt8)
  | 0 => return []
  | n + 1 => do
    let byte ← advance
    return byte :: (← advances n)

/-- How many bytes follow a start byte. -/
def utf8Following (utf8Byte : UInt8) : Option ℕ :=
  if 0b00100000 &&& utf8Byte = 0 then some 1
  else if 0b00010000 &&& utf8Byte = 0 then some 2
  else if 0b00001000 &&& utf8Byte = 0 then some 3
  else none

/-- `slice::get` of the range up to `i`. -/
def getTo (bytes : List UInt8) (i : ℕ) : Option (List UInt8) :=
  if i ≤ bytes.length then some (bytes.take i) else none

/-- The code point of the first `i` of four bytes. -/
def pushUtf8 (s : String) (bytes : List UInt8) (i : ℕ) : Parse (LoopFlow String String) :=
  match getTo bytes i with
  | none => panicked .badIndices
  | some bytes =>
    match String.fromUTF8? bytes.toByteArray with
    | none => fail (.unicodeError .invalidUtf8)
    | some c => return .next (s ++ c)

def visitUtf8 (s : String) (utf8Byte : UInt8) : Parse (LoopFlow String String) := do
  if 0b10000000 &&& utf8Byte = 0 then panicked .noContinuationBit
  else
    match utf8Following utf8Byte with
    | none => fail (.unicodeError (.invalidUtf8Start utf8Byte))
    | some n =>
      let bytes ← advances n
      pushUtf8 s (((utf8Byte :: bytes).rightpad 4 0).take 4) (n + 1)

/-- A character, or the end of the string. -/
def visitChar (s : String) : Parse (LoopFlow String String) := do
  let byte ← advance
  if byte = stringQuote then return .done s
  else if byte = stringEscapeOpen then visitEscape s
  else if byte ≤ 0x1F then fail (.invalidByte byte "unescaped control character")
  else if byte ≤ 0x7F then return .next (s.push (Char.ofUInt8 byte))
  else visitUtf8 s byte

def visitStringStep (s : String) : Parse (LoopFlow String String) := do
  visitChar (← visitLowSurrogate s)

def visitString : Parse String := do
  let byte ← advance
  if byte ≠ stringQuote then
    fail (.invalidByte byte ("expected " ++ asChar stringQuote ++ " for start of string"))
  else repeatedly "" visitStringStep

/-! ## Literals -/

/-- The bytes of `expected` one after the other; `what` is how the source calls the value. -/
def expect (what : UInt8 → UInt8 → String) : List UInt8 → Parse Unit
  | [] => return ()
  | expected :: remainder => do
    let got ← advance
    if expected ≠ got then fail (.invalidByte got (what expected got))
    else expect what remainder

def visitBool : Parse Bool := do
  let byte ← advance
  let what := fun expected got =>
    "expected " ++ asChar expected ++ " scanning boolean value, got " ++ asChar got
  if byte = ascii 't' then
    expect what [ascii 'r', ascii 'u', ascii 'e']
    return true
  else if byte = ascii 'f' then
    expect what [ascii 'a', ascii 'l', ascii 's', ascii 'e']
    return false
  else panicked .notPeeked

def visitNull : Parse Unit :=
  expect (fun expected got =>
    "expected " ++ asChar expected ++ " scanning for null, got " ++ asChar got)
    [ascii 'n', ascii 'u', ascii 'l', ascii 'l']

/-! ## Numbers -/

def isDigit (byte : UInt8) : Bool := ascii '0' ≤ byte && byte ≤ ascii '9'

/-- `number.0.push(byte as char)` -/
def Number.push (number : Number) (byte : UInt8) : Number :=
  ⟨number.text.push (Char.ofUInt8 byte)⟩

/-- Further digits are optional. -/
def visitDigits (number : Number) : Parse Number := readWhile isDigit Number.push number

def visitNumberIntegralPart (number : Number) : Parse Number := do
  let byte ← advance
  if byte = ascii '-' then
    let number := number.push byte
    let byte ← advance
    if byte = ascii '0' then return number.push byte
    else if ascii '1' ≤ byte ∧ byte ≤ ascii '9' then visitDigits (number.push byte)
    else fail (.invalidByte byte "expected digit after - sign scanning number")
  else if byte = ascii '0' then return number.push byte
  else if ascii '1' ≤ byte ∧ byte ≤ ascii '9' then visitDigits (number.push byte)
  else panicked .notPeeked

def visitNumberFractionalPart (number : Number) : Parse Number := do
  if (← peek) = some (ascii '.') then
    let point ← advance
    let number := number.push point
    let byte ← advance
    if isDigit byte then visitDigits (number.push byte)
    else fail (.invalidByte byte "expected at least one digit for fractional part")
  else return number

/-- What comes behind the `e` of an exponent. -/
def visitExponent (number : Number) : Parse Number := do
  let byte ← advance
  if byte = ascii '+' ∨ byte = ascii '-' then
    let number := number.push byte
    let byte ← advance
    if isDigit byte then visitDigits (number.push byte)
    else fail (.invalidByte byte "expected digit after sign scanning number exponent")
  else if isDigit byte then visitDigits (number.push byte)
  else fail (.invalidByte byte "expected digit or sign scanning number exponent")

def visitNumberExponentPart (number : Number) : Parse Number := do
  let next ← peek
  if next = some (ascii 'e') ∨ next = some (ascii 'E') then
    let number := number.push (ascii 'e')
    let _ ← advance
    visitExponent number
  else return number

def visitNumber : Parse Number := do
  let number ← visitNumberIntegralPart ⟨""⟩
  let number ← visitNumberFractionalPart number
  let number ← visitNumberExponentPart number
  match ← peek with
  | some byte =>
    if isDigit byte then
      fail (.invalidByte byte ("unexpected digit remaining after processing number ('Number(\"" ++
        number.text ++ "\")')"))
    else return number
  | none => return number

/-! ## Values -/

def visitArrayStep (visitValue : Parse Value) (array : List Value) :
    Parse (LoopFlow (List Value) (List Value)) := do
  let array := array ++ [← visitValue]
  let byte ← advance
  if byte = arrayClose then return .done array
  else if byte = arraySep then return .next array
  else fail (.invalidByte byte ("parsing array, need " ++ asChar arrayClose ++ " or " ++
    asChar arraySep ++ " after parsing an array element"))

/-- `visitValue` visits the elements. -/
def visitArray (visitValue : Parse Value) : Parse (List Value) := do
  if (← advance) ≠ arrayOpen then panicked .notPeeked
  else
    skipWhitespace
    if (← peek) = some arrayClose then
      let _ ← advance
      return []
    else repeatedly [] (visitArrayStep visitValue)

def visitObjectStep (visitValue : Parse Value) (map : Entries) : Parse (LoopFlow Entries Entries) := do
  let key ← visitString
  skipWhitespace
  let byte ← advance
  if byte ≠ objectKvSep then
    fail (.invalidByte byte ("parsing object, expected " ++ asChar objectKvSep ++ " after key"))
  else
    let value ← visitValue
    let map := map.insert key value
    let byte ← advance
    if byte = objectClose then return .done map
    else if byte = objectEntriesSep then
      skipWhitespace
      return .next map
    else fail (.invalidByte byte ("parsing object, expected " ++ asChar objectClose ++ " or " ++
      asChar objectEntriesSep ++ " after parsing a key/value pair"))

def visitObject (visitValue : Parse Value) : Parse Entries := do
  if (← advance) ≠ objectOpen then panicked .notPeeked
  else
    skipWhitespace
    if (← peek) = some objectClose then
      let _ ← advance
      return []
    else repeatedly [] (visitObjectStep visitValue)

/-- The value whose first byte has been peeked. -/
def visitPeeked (visitValue : Parse Value) : Parse Value := do
  match ← peek with
  | some byte =>
    if byte = stringQuote then return .string (← visitString)
    else if byte = objectOpen then return .object (← visitObject visitValue)
    else if byte = arrayOpen then return .array (← visitArray visitValue)
    else if byte = ascii 't' ∨ byte = ascii 'f' then return .bool (← visitBool)
    else if byte = ascii 'n' then do
      visitNull
      return .null
    else if byte = ascii '-' ∨ isDigit byte then return .number (← visitNumber)
    else fail (.invalidByte byte "invalid byte looking for beginning of value")
  | none => fail .unexpectedEof

/-- `budget` bounds the depth of the recursion; the check of the depth comes first when it starts
at `maxDepth`. -/
def visitValue : ℕ → Parse Value
  | 0 => throw .diverged
  | budget + 1 => do
    modify fun p => { p with depth := p.depth + 1 }
    let depth := (← get).depth
    if maxDepth ≤ depth then fail (.nestingTooDeep depth)
    else
      skipWhitespace
      let val ← visitPeeked (visitValue budget)
      skipWhitespace
      modify fun p => { p with depth := p.depth - 1 }
      return val

def Parser.new (reader : Reader) : Parser := ⟨reader.bytes, reader.error, 0, none, 0⟩

/-- Nothing may come behind the value, not even an error of the reader. -/
def Parser.parse : Parse Value := do
  let value ← visitValue maxDepth
  let p ← get
  match p.stream, p.readError with
  | more :: _, _ =>
    fail (.invalidByte more "excessive data in input after parsing one JSON value")
  | [], some e => fail (.io e)
  | [], none => return value

def Reader.parse (reader : Reader) : Except Failure Value :=
  (Parser.parse.run (Parser.new reader)).map (·.1)

/-- Reading from a byte slice does not fail. -/
def parse (data : List UInt8) : Except Failure Value := Reader.parse ⟨data, none⟩

end Json

end Miniraft

import Mathlib.Data.List.DropRight
import Miniraft.Raft.Wire
import Miniraft.Std.Scan

/-!
# HTTP requests

`Request` of `raft/src/http.rs`: reading one from a stream and turning it into a client message. A
stream is the list of the bytes up to its end; reading it does not fail, so that the errors are
those of the contents. Whether there is memory for a body is up to the allocator, which is a
parameter, and its length must be an `isize`.
-/

namespace Miniraft

/-! ## Texts -/

/-- `char::is_whitespace`, the property White_Space. -/
def isWhitespace (c : Char) : Bool :=
  let n := c.toNat
  (0x9 ≤ n && n ≤ 0xD) || n = 0x20 || n = 0x85 || n = 0xA0 || n = 0x1680 ||
    (0x2000 ≤ n && n ≤ 0x200A) || n = 0x2028 || n = 0x2029 || n = 0x202F || n = 0x205F ||
    n = 0x3000

/-- `str::split_whitespace` -/
def splitWhitespace (cs : List Char) : List (List Char) :=
  (cs.splitOnP isWhitespace).filter (· ≠ [])

/-- `str::trim` -/
def trim (cs : List Char) : List Char := (cs.dropWhile isWhitespace).rdropWhile isWhitespace

/-- `split_once(": ")` -/
def splitOnce : List Char → Option (List Char × List Char)
  | [] => none
  | c :: cs =>
    if c = ':' ∧ cs.head? = some ' ' then some ([], cs.tail)
    else (splitOnce cs).map fun (key, value) => (c :: key, value)

/-- `String::from_utf8` -/
def utf8 (bytes : List UInt8) : Option String := String.fromUTF8? bytes.toByteArray

/-! ## Errors -/

/-- The `io::Error`s, by what they are made of. -/
inductive IoError where
  /-- "stream did not contain valid UTF-8" -/
  | invalidUtf8
  | invalidData (text : String)
  | invalidInput (e : Json.ParseIntError)
  deriving DecidableEq

inductive RequestPanic where
  /-- "should have http method" -/
  | noMethod
  /-- "should have uri" -/
  | noUri
  /-- Of `String::with_capacity`. -/
  | capacityOverflow
  deriving DecidableEq

inductive RequestFailure where
  | error (e : IoError)
  | panicked (p : RequestPanic)
  /-- The process has run out of memory, which ends it. -/
  | aborted
  | diverged
  deriving DecidableEq

/-! ## Requests -/

inductive Request.Method where
  | get
  | put
  deriving DecidableEq

/-- `Method::from_str` -/
def Request.Method.fromStr (s : String) : Except IoError Method :=
  if s = "GET" then return .get
  else if s = "PUT" then return .put
  else throw (.invalidData s)

structure Request where
  method : Request.Method
  uri : String
  headers : Map String String
  body : Option String

namespace Request

abbrev FromStream := StateT (List UInt8) (Except RequestFailure)

/-- `read_line`: how many bytes were read, and their text. -/
def readLine : FromStream (ℕ × String) := do
  let (line, rest) := splitLine (← get)
  set rest
  match utf8 line with
  | some text => return (line.length, text)
  | none => throw (.error .invalidUtf8)

def readHeadersStep (incomingHeaders : Map String String) :
    FromStream (LoopFlow (Map String String) (Map String String)) := do
  let (incomingSize, headerElement) ← readLine
  if headerElement = "\r\n" ∨ incomingSize = 0 then return .done incomingHeaders
  else
    match splitOnce (trim headerElement.toList) with
    | none => return .next incomingHeaders
    | some (key, value) =>
      return .next (incomingHeaders.insert (String.ofList key) (String.ofList value))

def readHeaders : FromStream (Map String String) := do
  loop .diverged readHeadersStep ((← get).length + 1) ∅

/-- `isize::MAX` -/
def isizeMax : ℕ := 2 ^ 63 - 1

/-- Whether there is memory for so many bytes. -/
abbrev Allocator := ℕ → Bool

/-- `String::with_capacity`, `take(cap)` and `read_to_string`. A capacity of 0 is not allocated. -/
def readBody (alloc : Allocator) (cap : ℕ) : FromStream String := do
  if isizeMax < cap then throw (.panicked .capacityOverflow)
  else if 0 < cap ∧ alloc cap = false then throw .aborted
  else
    let bytes ← get
    set (bytes.drop cap)
    match utf8 (bytes.take cap) with
    | some body => return body
    | none => throw (.error .invalidUtf8)

/-- Reading the body if any, which requires a Content-Length header. -/
def readAnnounced (alloc : Allocator) (incomingHeaders : Map String String) :
    FromStream (Option String) :=
  match incomingHeaders.lookup "Content-Length" with
  | none => return none
  | some value =>
    match Json.parseU64 value with
    | .error e => throw (.error (.invalidInput e))
    | .ok cap => some <$> readBody alloc cap

/-- What follows the request line. -/
def readRest (alloc : Allocator) (method : Method) (uri : String) : FromStream Request := do
  let headers ← readHeaders
  let body ← readAnnounced alloc headers
  return ⟨method, uri, headers, body⟩

def fromStream (alloc : Allocator) : FromStream Request := do
  let (_, request) ← readLine
  let requestLine := (splitWhitespace request.toList).map String.ofList
  match requestLine with
  | [] => throw (.panicked .noMethod)
  | method :: requestLine =>
    match Method.fromStr method with
    | .error e => throw (.error e)
    | .ok incomingMethod =>
      match requestLine with
      | [] => throw (.panicked .noUri)
      | incomingUri :: _ => readRest alloc incomingMethod incomingUri

def getKey (item : Request) : Except IoError String :=
  match "/key/".toList.isPrefixOf? item.uri.toList with
  | none => throw (.invalidData "path must start with /key/")
  | some key =>
    if key = [] ∨ '/' ∈ key then
      throw (.invalidData "key after /key/ in path, not empty or another path")
    else return String.ofList key

/-- `item.body.ok_or(..)` -/
def requiredBody (item : Request) : Except IoError String :=
  match item.body with
  | some body => return body
  | none => throw (.invalidData "no body, but required for post")

/-- `TryFrom<Request>`, with the ID that is drawn first. -/
def tryInto (id : MessageID) (item : Request) : Except IoError (ClientMessage String String) :=
  match item.method with
  | .get => do
    let key ← item.getKey
    return .readRequest key id
  | .put =>
    match item.headers.lookup "If-Match" with
    | some fromValue => do
      let key ← item.getKey
      let toValue ← item.requiredBody
      return .casRequest key fromValue toValue id
    | none => do
      let key ← item.getKey
      let value ← item.requiredBody
      return .writeRequest key value id

end Request

/-! ## Connections -/

inductive IncomingMessageType where
  | httpRequest
  | json
  | unidentified
  deriving DecidableEq

/-- `sniff_message_type`, which peeks at up to seven bytes of the stream. -/
def sniffMessageType (stream : List UInt8) : IncomingMessageType :=
  let buf := (stream.take 7).rightpad 7 0
  if (Json.asBytes "GET").isPrefixOf buf || (Json.asBytes "POST").isPrefixOf buf ||
      (Json.asBytes "PUT").isPrefixOf buf then .httpRequest
  else if (Json.asBytes "\x7b").isPrefixOf buf then .json
  else .unidentified

/-- `handle_connection`, up to the client message of an HTTP request. -/
def handleRequest (alloc : Request.Allocator) (id : MessageID) (stream : List UInt8) :
    Except RequestFailure (ClientMessage String String) := do
  let (request, _) ← (Request.fromStream alloc).run stream
  match request.tryInto id with
  | .ok message => return message
  | .error e => throw (.error e)

end Miniraft

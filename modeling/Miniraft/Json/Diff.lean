import Miniraft.Json.Value
import Mathlib.Data.String.Basic

/-!
# JSON diffs

The diff of `json/src/diff.rs`. A `HashMap` is iterated in the order of its entries; the order of a
set of common keys is not that of any map, and given by `Orders`. Whether two numbers are equal is
given by `eq`. The index in an array is an `i32` in the source, which overflows at the end of an
array of `2 ^ 31 - 1` elements; here it is a number.
-/

namespace Miniraft

namespace Json

/-! ## Equality -/

section

variable (eq : Number → Number → Bool)

mutual

/-- `PartialEq` of values. -/
def Value.equal : Value → Value → Bool
  | .string l, .string r => l = r
  | .number l, .number r => eq l r
  | .object l, .object r => l.length = r.length && entriesEqual r l
  | .array l, .array r => valuesEqual l r
  | .bool l, .bool r => l = r
  | .null, .null => true
  | _, _ => false

/-- Each entry has an equal one in the other map. -/
def entriesEqual (r : List (String × Value)) : List (String × Value) → Bool
  | [] => true
  | (k, v) :: l =>
    (match r.lookup k with
      | some w => v.equal w
      | none => false) && entriesEqual r l

def valuesEqual : List Value → List Value → Bool
  | [], [] => true
  | v :: l, w :: r => v.equal w && valuesEqual l r
  | _, _ => false

end

end

/-! ## Findings -/

/-- A location in a JSON document. -/
structure Loc where
  segments : List String
  deriving DecidableEq

namespace Loc

def «with» (loc : Loc) (tail : String) : Loc := ⟨loc.segments ++ [tail]⟩

/-- If this is not top-level, array indexing notation is attached to the current location. -/
def index (loc : Loc) (i : ℕ) : Loc :=
  match loc.segments.getLast? with
  | some tail => ⟨loc.segments.dropLast ++ [tail ++ "[" ++ toString i ++ "]"]⟩
  | none => ⟨["[" ++ toString i ++ "]"]⟩

/-- `join(".")` -/
def join : List String → String
  | [] => ""
  | [s] => s
  | s :: segments => s ++ "." ++ join segments

def print (loc : Loc) : String := "$." ++ join loc.segments

end Loc

inductive Verdict where
  | onlyLeft (v : Value)
  | onlyRight (v : Value)
  | differ (l r : Value)

structure Finding where
  loc : Loc
  verdict : Verdict

def Verdict.what : Verdict → String
  | .onlyLeft _ => "only in left document"
  | .onlyRight _ => "only in right document"
  | .differ _ _ => "values differ"

def Verdict.print : Verdict → String
  | .onlyLeft v | .onlyRight v => "\t" ++ v.print ++ "\n\n"
  | .differ l r => "\tleft:\n\t\t" ++ l.print ++ "\n\tright:\n\t\t" ++ r.print ++ "\n\n"

def Finding.print (finding : Finding) : String :=
  finding.loc.print ++ ": " ++ finding.verdict.what ++ ":\n" ++ finding.verdict.print

/-- `Display` of a diff. -/
def printDiff : List Finding → String
  | [] => ""
  | finding :: findings => finding.print ++ printDiff findings

/-! ## Diffs -/

/-- A step from a value to one in it. -/
inductive Step where
  | key (k : String)
  | index (i : ℕ)
  deriving DecidableEq

/-- The orders in which the common keys of two objects are iterated, by the way to the objects. -/
structure Orders where
  order : List Step → List String → List String
  perm : ∀ path keys, (order path keys).Perm keys

/-- The orders behind a step. -/
def Orders.beneath (orders : Orders) (step : Step) : Orders :=
  ⟨fun path => orders.order (step :: path), fun path => orders.perm (step :: path)⟩

/-- `l_keys.intersection(&r_keys)` -/
def commonKeys (l r : Entries) : List String :=
  (l.map Prod.fst).filter fun k => k ∈ r.map Prod.fst

/-- The findings for the keys of `l` that `r` does not have. -/
def onlyIn (verdict : Value → Verdict) (location : Loc) (l r : Entries) : List Finding :=
  (l.filter fun e => e.1 ∉ r.map Prod.fst).map fun e => ⟨location.with e.1, verdict e.2⟩

def maxLocation : ℕ := 256

section

variable (eq : Number → Number → Bool)

mutual

def diffRec (orders : Orders) (location : Loc) (left right : Value) : List Finding :=
  if maxLocation < location.segments.length then []
  else
    match left, right with
    | .object l, .object r =>
      onlyIn .onlyLeft location l r ++ onlyIn .onlyRight location r l ++
        (orders.order [] (commonKeys l r)).flatMap fun key => diffKey orders location key r l
    | .array l, .array r => diffValues orders location 0 l r
    | .number l, .number r => if eq l r then [] else [⟨location, .differ left right⟩]
    | .string l, .string r => if l = r then [] else [⟨location, .differ left right⟩]
    | .bool l, .bool r => if l = r then [] else [⟨location, .differ left right⟩]
    | .null, .null => []
    | _, _ => [⟨location, .differ left right⟩]

/-- The findings for a key, which has been checked to be in both maps. -/
def diffKey (orders : Orders) (location : Loc) (key : String) (r : List (String × Value)) :
    List (String × Value) → List Finding
  | [] => []
  | (k, v) :: l =>
    if k = key then
      match r.lookup key with
      | some w => diffRec (orders.beneath (.key key)) (location.with key) v w
      | none => []
    else diffKey orders location key r l

/-- The findings for the elements from the index `i` on. -/
def diffValues (orders : Orders) (location : Loc) (i : ℕ) :
    List Value → List Value → List Finding
  | v :: l, w :: r =>
    diffRec (orders.beneath (.index i)) (location.index i) v w ++
      diffValues orders location (i + 1) l r
  | v :: l, [] => ⟨location.index i, .onlyLeft v⟩ :: diffValues orders location (i + 1) l []
  | [], r => (r.zipIdx i).map fun (w, j) => ⟨location.index j, .onlyRight w⟩

end

/-- Sorting by the printed location makes diff reporting stable. -/
def diff (orders : Orders) (left right : Value) : List Finding :=
  (diffRec eq orders ⟨[]⟩ left right).mergeSort fun f g => f.loc.print ≤ g.loc.print

end

end Json

end Miniraft

import Miniraft.Json.Value

/-!
# Base64

`encode` and `decode` of `base64/src/lib.rs`, with the standard alphabet and padding. A `usize` is a
natural number, the other integers have their widths.
-/

namespace Miniraft

namespace Base64

open Json (asBytes ascii)

/-- `ALPHABET` -/
def alphabet : List UInt8 :=
  asBytes "ABCDEFGHIJKLMNOPQRSTUVWXYZabcdefghijklmnopqrstuvwxyz0123456789+/"

/-- `PADDING` -/
def padding : UInt8 := ascii '='

/-- `MASK` -/
def mask : ℕ := 0b111111

/-- What ends the program. The bytes that `encode` makes a string of are not checked there;
`unchecked` stands for bytes that are not UTF-8. -/
inductive Panic where
  | remainder
  | padding
  | unchecked
  deriving DecidableEq

inductive DecodeError where
  | invalidLength
  | invalidByte (pos : ℕ) (byte : UInt8)
  | invalidPadding
  deriving DecidableEq

/-! ## Encoding -/

theorem length_alphabet : alphabet.length = 64 := by decide

theorem and_mask (n : ℕ) : n &&& mask = n % 64 := Nat.and_two_pow_sub_one_eq_mod n 6

theorem and_mask_lt (n : ℕ) : n &&& mask < alphabet.length := by
  rw [length_alphabet, and_mask]
  exact Nat.mod_lt n (by decide)

/-- `ALPHABET[n & MASK]` -/
def symbol (n : ℕ) : UInt8 := alphabet.get ⟨n &&& mask, and_mask_lt n⟩

/-- `as_chunks::<3>` -/
def asChunks3 : List UInt8 → List (UInt8 × UInt8 × UInt8) × List UInt8
  | c₀ :: c₁ :: c₂ :: data => ((c₀, c₁, c₂) :: (asChunks3 data).1, (asChunks3 data).2)
  | data => ([], data)

def encodeChunk : UInt8 × UInt8 × UInt8 → List UInt8
  | (c₀, c₁, c₂) =>
    let datum : UInt32 := c₀.toUInt32 <<< 16 ||| c₁.toUInt32 <<< 8 ||| c₂.toUInt32
    [symbol (datum >>> 18).toNat, symbol (datum >>> 12).toNat, symbol (datum >>> 6).toNat,
      symbol datum.toNat]

def encodeRemainder : List UInt8 → Except Panic (List UInt8)
  | [l, r] =>
    let datum : UInt16 := l.toUInt16 <<< 8 ||| r.toUInt16
    .ok [symbol (datum >>> 10).toNat, symbol (datum >>> 4).toNat, symbol (datum <<< 2).toNat,
      padding]
  | [b] => .ok [symbol (b >>> 2).toNat, symbol (b <<< 4).toNat, padding, padding]
  | [] => .ok []
  | _ => .error .remainder

/-- `String::from_utf8_unchecked`, behind the assertion on the length. -/
def finish (vals : List UInt8) : Except Panic String :=
  if vals.length % 4 = 0 then
    match String.fromUTF8? vals.toByteArray with
    | some s => .ok s
    | none => .error .unchecked
  else .error .padding

def encode (data : List UInt8) : Except Panic String := do
  let last ← encodeRemainder (asChunks3 data).2
  finish ((asChunks3 data).1.flatMap encodeChunk ++ last)

/-! ## Decoding -/

/-- `DECODE_MAP` -/
def decodeMap : List UInt8 :=
  alphabet.zipIdx.foldl (fun map x => map.set x.1.toNat x.2.toUInt8) (List.replicate 256 0xFF)

theorem length_foldl_set (l : List (UInt8 × ℕ)) (map : List UInt8) :
    (l.foldl (fun map x => map.set x.1.toNat x.2.toUInt8) map).length = map.length := by
  induction l generalizing map with
  | nil => rfl
  | cons x l ih => rw [List.foldl_cons, ih, List.length_set]

theorem length_decodeMap : decodeMap.length = 256 :=
  (length_foldl_set _ _).trans List.length_replicate

theorem toNat_lt_decodeMap (b : UInt8) : b.toNat < decodeMap.length := by
  rw [length_decodeMap]
  exact b.toNat_lt

/-- `get_byte`, for the chunk `i` with the byte `b` at `offset`. -/
def getByte (i offset : ℕ) (b : UInt8) : Except DecodeError UInt8 :=
  let val := decodeMap.get ⟨b.toNat, toNat_lt_decodeMap b⟩
  if val = 0xFF then .error (.invalidByte (i * 4 + offset) b) else .ok val

/-- `as_chunks::<4>` -/
def asChunks4 : List UInt8 → List (UInt8 × UInt8 × UInt8 × UInt8) × List UInt8
  | c₀ :: c₁ :: c₂ :: c₃ :: bytes =>
    ((c₀, c₁, c₂, c₃) :: (asChunks4 bytes).1, (asChunks4 bytes).2)
  | bytes => ([], bytes)

/-- The loop from the chunk `i` of `count` on. -/
def decodeChunks (count i : ℕ) (output : List UInt8) :
    List (UInt8 × UInt8 × UInt8 × UInt8) → Except DecodeError (List UInt8)
  | [] => .ok output
  | (c₀, c₁, c₂, c₃) :: chunks => do
    let datum : UInt32 := 0
    let datum := datum ||| (← getByte i 0 c₀).toUInt32 <<< 18
    let datum := datum ||| (← getByte i 1 c₁).toUInt32 <<< 12
    if c₂ = padding then
      -- This must be at the very end
      if i ≠ count - 1 then throw .invalidPadding
      else if c₃ ≠ padding then throw .invalidPadding
      else return output ++ [(datum >>> 16).toUInt8]
    else
      let datum := datum ||| (← getByte i 2 c₂).toUInt32 <<< 6
      if c₃ = padding then
        if i ≠ count - 1 then throw .invalidPadding
        else return output ++ [(datum >>> 16).toUInt8, (datum >>> 8).toUInt8]
      else
        let datum := datum ||| (← getByte i 3 c₃).toUInt32
        decodeChunks count (i + 1)
          (output ++ [(datum >>> 16).toUInt8, (datum >>> 8).toUInt8, datum.toUInt8]) chunks

def decode (input : String) : Except Panic (Except DecodeError (List UInt8)) :=
  let bytes := asBytes input
  if bytes.length % 4 = 0 then
    let (chunks, remainder) := asChunks4 bytes
    if remainder.isEmpty then .ok (decodeChunks chunks.length 0 [] chunks) else .error .remainder
  else .ok (.error .invalidLength)

end Base64

end Miniraft

import Mathlib.Data.Nat.Digits.Defs
import Registry.Core.Record

/-! # JSON values and the libraries that read them

The parsed form of a JSON text, and the third-party functions the write path
calls: the JSON parser and printer, the CID parser, unpadded base32 and the
range of representable times.
-/

namespace Registry

/-- A parsed JSON value. An object lists its fields in iteration order. -/
inductive Json
  | null
  | bool (value : Bool)
  | integer (value : Int)
  | float (text : String)
  | string (text : String)
  | array (items : List Json)
  | object (fields : List (String × Json))

namespace Json

def isObject : Json → Bool
  | .object _ => true
  | _ => false

/-- The field of an object, if the value is one and has it. -/
def get (value : Json) (name : String) : Option Json :=
  match value with
  | .object fields => (fields.find? fun field => field.1 = name).map Prod.snd
  | _ => none

/-- The value as a signed 64-bit integer. -/
def asI64 : Json → Option Int
  | .integer value => if -2 ^ 63 ≤ value ∧ value < 2 ^ 63 then some value else none
  | _ => none

def asStr : Json → Option String
  | .string text => some text
  | _ => none

end Json

/-- Third-party functions of the write path, all arbitrary. `cidVersion` is the
version of a text that parses as a CID. -/
structure Libraries where
  parseJson : String → Except String Json
  printJson : Json → String
  cidVersion : String → Option Nat
  base32Decode : Bytes → Except String Bytes
  timestampMillis : Int → Option Timestamp

namespace Libraries

variable (lib : Libraries)

/-- The declaration's own timestamp, when the value carries one. -/
def declarationTimestamp (valueText : String) : Option Timestamp :=
  match lib.parseJson valueText with
  | .error _ => none
  | .ok value => do
      let field ← value.get "timestamp"
      let millis ← field.asI64
      lib.timestampMillis millis

end Libraries

/-! ## Record keys -/

/-- The base-x alphabet of legacy declaration identifiers. -/
def base32Alphabet : Bytes := utf8 "abcdefghijklmnopqrstuvwxyz234567"

/-- Multiply a little-endian number by 32 and add a carry. -/
def shiftIn (carry : Nat) : Bytes → Bytes
  | [] => (Nat.digits 256 carry).map UInt8.ofNat
  | byte :: rest =>
      let total := carry + byte.toNat * 32
      UInt8.ofNat (total % 256) :: shiftIn (total / 256) rest

/-- Big-integer decoding over the base-x alphabet: one leading zero byte per
leading first letter. -/
def baseXDecodeB32 (input : String) : Option Bytes := do
  let littleEndian ← (utf8 input).foldlM (fun bytes char => do
    let digit ← base32Alphabet.findIdx? (· == char)
    pure (shiftIn digit bytes)) []
  let leadingZeros := ((utf8 input).takeWhile fun char => base32Alphabet.head? = some char).length
  pure (littleEndian ++ List.replicate leadingZeros 0).reverse

/-- The legacy identifier flavor: 36 bytes with a fixed four-byte header. -/
def isLegacyDeclarationId (key : String) : Bool :=
  if (utf8 key).length ≠ 57 then false
  else
    match baseXDecodeB32 key with
    | none => false
    | some bytes => bytes.length = 36 ∧ bytes.take 4 = [0x01, 0x0c, 0x12, 0x20]

def Libraries.isValidCidv1 (lib : Libraries) (key : String) : Bool :=
  lib.cidVersion key = some 1

/-- The key syntax the write path accepts. -/
def Libraries.isValidRecordKey (lib : Libraries) (key : String) : Bool :=
  lib.isValidCidv1 key || isLegacyDeclarationId key

end Registry

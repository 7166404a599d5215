import Registry.Core.Libraries

/-! # Content codes of ISCC strings

Decoding an ISCC string to the 64-bit content code it carries, and reading it
from a record's value. A value without a decodable code simply has none.
-/

namespace Registry

inductive IsccError
  | empty
  | base32 (message : String)
  | tooShort
  | unsupportedMainType (mainType : UInt8)
  | unexpectedBodyLength (length : Nat)
  deriving DecidableEq, Repr

def mainTypeContent : UInt8 := 2
def mainTypeIscc : UInt8 := 5

/-- The characters `trim` removes: Unicode white space. -/
def isTrimmed (char : Char) : Bool :=
  let code := char.toNat
  (0x09 ≤ code ∧ code ≤ 0x0d) ∨ code = 0x20 ∨ code = 0x85 ∨ code = 0xa0 ∨ code = 0x1680 ∨
    (0x2000 ≤ code ∧ code ≤ 0x200a) ∨ code = 0x2028 ∨ code = 0x2029 ∨ code = 0x202f ∨
    code = 0x205f ∨ code = 0x3000

def trim (text : List Char) : List Char :=
  ((text.dropWhile isTrimmed).reverse.dropWhile isTrimmed).reverse

def toAsciiUppercase (char : Char) : Char :=
  if 'a' ≤ char ∧ char ≤ 'z' then Char.ofNat (char.toNat - 32) else char

def toAsciiLowercase (char : Char) : Char :=
  if 'A' ≤ char ∧ char ≤ 'Z' then Char.ofNat (char.toNat + 32) else char

/-- Drop the scheme, which is accepted in all upper or all lower case. -/
def stripScheme (text : List Char) : List Char :=
  match "ISCC:".toList.isPrefixOf? text with
  | some rest => rest
  | none => ("iscc:".toList.isPrefixOf? text).getD text

/-- The number that eight bytes spell, the most significant first. -/
def fromBigEndian (bytes : Bytes) : UInt64 :=
  bytes.foldl (fun code byte => code * 256 + byte.toUInt64) 0

namespace Libraries

variable (lib : Libraries)

def decodeContentCode (iscc : String) : Except IsccError UInt64 :=
  let trimmed := trim iscc.toList
  if trimmed = [] then .error .empty
  else
    let normalized := (trim (stripScheme trimmed)).map toAsciiUppercase
    match lib.base32Decode (utf8 (String.ofList normalized)) with
    | .error message => .error (.base32 message)
    | .ok [] => .error .tooShort
    | .ok [_] => .error .tooShort
    | .ok (header :: _ :: body) =>
        let mainType := header >>> 4
        if mainType = mainTypeContent then
          if body.length < 8 then .error (.unexpectedBodyLength body.length)
          else .ok (fromBigEndian (body.take 8))
        else if mainType = mainTypeIscc then
          -- Meta, Content, Data and Instance units of eight bytes each.
          if body.length ≠ 32 then .error (.unexpectedBodyLength body.length)
          else .ok (fromBigEndian ((body.drop 8).take 8))
        else .error (.unsupportedMainType mainType)

/-- The content code of a record's value: its `ISCC` field, or else the first
field whose name matches without regard to case. -/
def extractFromJson (value : String) : Option UInt64 :=
  match lib.parseJson value with
  | .ok (.object fields) => do
      let exact := (fields.find? fun field => field.1 = "ISCC").map Prod.snd
      let folded := (fields.find? fun field =>
        field.1.toList.map toAsciiLowercase = "iscc".toList).map Prod.snd
      let field ← exact.or folded
      let iscc ← field.asStr
      (lib.decodeContentCode iscc).toOption
  | .ok _ => none
  | .error _ => none

end Libraries

end Registry

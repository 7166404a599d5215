import Mathlib.Data.Nat.Digits.Lemmas
import Mathlib.Logic.Equiv.List
import Registry.Core.Libraries

/-! # Primitives given by tables

Primitives that agree with listed SHA-256 digests, BLAKE3 hashes and JSON texts.
An entry without a listed text is written as a numeral behind a `#`, which no
listed text starts with, so the laws of the JSON text hold for every entry.
-/

namespace Registry

/-- The 32 bytes of a number, the most significant first. -/
def bytes32 (number : Nat) : Vector UInt8 32 :=
  Vector.ofFn fun index => UInt8.ofNat (number >>> (8 * (31 - index.val)))

/-- A leaf entry as a tuple of numbers. -/
def LeafEntry.toCode (entry : LeafEntry) : List Nat × List Nat × Nat × Int × Option Nat :=
  (entry.key.toList.map Char.toNat, entry.hash.bytes.toList.map UInt8.toNat, entry.size.toNat,
    entry.addedAt, entry.contentCode.map UInt64.toNat)

def LeafEntry.ofCode (code : List Nat × List Nat × Nat × Int × Option Nat) : LeafEntry where
  key := String.ofList (code.1.map Char.ofNat)
  hash := ⟨Vector.ofFn fun index => UInt8.ofNat (code.2.1.getD index.val 0)⟩
  size := UInt64.ofNat code.2.2.1
  addedAt := code.2.2.2.1
  contentCode := code.2.2.2.2.map UInt64.ofNat

theorem LeafEntry.ofCode_toCode (entry : LeafEntry) : LeafEntry.ofCode entry.toCode = entry := by
  obtain ⟨key, ⟨bytes⟩, size, addedAt, contentCode⟩ := entry
  have hkey : String.ofList ((key.toList.map Char.toNat).map Char.ofNat) = key := by
    simp [List.map_map, Function.comp_def, String.ofList_toList]
  have hbytes : (Vector.ofFn fun index : Fin 32 =>
      UInt8.ofNat ((bytes.toList.map UInt8.toNat).getD index.val 0)) = bytes := by
    ext index hindex
    simp
  have hcode : (contentCode.map UInt64.toNat).map UInt64.ofNat = contentCode := by
    cases contentCode <;> simp
  simp only [toCode, ofCode, hkey, hbytes, hcode, UInt64.ofNat_toNat]

/-- A number in decimal digits. -/
def numeral (number : Nat) : Bytes :=
  (Nat.digits 10 number).map fun digit => UInt8.ofNat (48 + digit)

def numeralValue (bytes : Bytes) : Nat :=
  Nat.ofDigits 10 (bytes.map fun byte => byte.toNat - 48)

theorem numeral_digit {number : Nat} {byte : UInt8} (hbyte : byte ∈ numeral number) :
    ∃ digit < 10, byte = UInt8.ofNat (48 + digit) := by
  obtain ⟨digit, hdigit, rfl⟩ := List.mem_map.mp hbyte
  exact ⟨digit, Nat.digits_lt_base (by decide) hdigit, rfl⟩

theorem numeralValue_numeral (number : Nat) : numeralValue (numeral number) = number := by
  have hdigits : (numeral number).map (fun byte => byte.toNat - 48) = Nat.digits 10 number := by
    rw [numeral, List.map_map]
    refine (List.map_congr_left fun digit hdigit => ?_).trans (List.map_id _)
    have hlt : digit < 10 := Nat.digits_lt_base (by decide) hdigit
    simp only [Function.comp_apply, UInt8.toNat_ofNat', id_eq]
    omega
  rw [numeralValue, hdigits, Nat.ofDigits_digits]

/-- The mark in front of an entry without a listed text. -/
def unlistedMark : UInt8 := 35

/-- The entry with a listed text. -/
def entryOf (texts : List (LeafEntry × String)) (bytes : Bytes) : Option LeafEntry :=
  (texts.find? fun row => utf8 row.2 = bytes).map Prod.fst

/-- What third-party code computes on listed inputs. Every listed text is one
nonempty line, starts without the mark, and is listed for one entry only. -/
structure Tables where
  texts : List (LeafEntry × String)
  digests : List (String × Digest)
  hashes : List (Bytes × Hash)
  texts_valid : ∀ row ∈ texts, utf8 row.2 ≠ [] ∧ newline ∉ utf8 row.2 ∧
    (utf8 row.2).head? ≠ some unlistedMark ∧ entryOf texts (utf8 row.2) = some row.1

namespace Tables

variable (tables : Tables)

def textOf (entry : LeafEntry) : Bytes :=
  match tables.texts.find? fun row => row.1 = entry with
  | some row => utf8 row.2
  | none => unlistedMark :: numeral (Encodable.encode entry.toCode)

def parse (bytes : Bytes) : Except String LeafEntry :=
  match entryOf tables.texts bytes with
  | some entry => .ok entry
  | none =>
      match bytes with
      | [] => .error "EOF while parsing a value"
      | mark :: digits =>
          if mark = unlistedMark then
            match Encodable.decode (numeralValue digits) with
            | some code => .ok (LeafEntry.ofCode code)
            | none => .error "expected value"
          else .error "expected value"

theorem entryOf_unlisted (rest : Bytes) :
    entryOf tables.texts (unlistedMark :: rest) = none := by
  rw [entryOf, Option.map_eq_none_iff, List.find?_eq_none]
  intro row hrow htext
  have hhead := (tables.texts_valid row hrow).2.2.1
  rw [of_decide_eq_true htext] at hhead
  exact hhead rfl

theorem parse_textOf (entry : LeafEntry) : tables.parse (tables.textOf entry) = .ok entry := by
  unfold textOf
  split
  next row hrow =>
    have hentry : row.1 = entry := by simpa using List.find?_some hrow
    have hparse := (tables.texts_valid row (List.mem_of_find?_eq_some hrow)).2.2.2
    rw [parse.eq_def, hparse, hentry]
  next =>
    simp only [parse, tables.entryOf_unlisted, ↓reduceIte, numeralValue_numeral,
      Encodable.encodek, LeafEntry.ofCode_toCode]

theorem newline_notMem_textOf (entry : LeafEntry) : newline ∉ tables.textOf entry := by
  unfold textOf
  split
  next row hrow => exact (tables.texts_valid row (List.mem_of_find?_eq_some hrow)).2.1
  next =>
    intro hmem
    rcases List.mem_cons.mp hmem with hmark | hdigit
    · exact absurd hmark (by decide)
    · obtain ⟨digit, hlt, heq⟩ := numeral_digit hdigit
      have hvalue := congrArg UInt8.toNat heq
      simp only [newline, UInt8.toNat_ofNat', UInt8.reduceToNat] at hvalue
      omega

theorem textOf_ne_nil (entry : LeafEntry) : tables.textOf entry ≠ [] := by
  unfold textOf
  split
  next row hrow => exact (tables.texts_valid row (List.mem_of_find?_eq_some hrow)).1
  next => exact List.cons_ne_nil _ _

/-- The primitives of a table. Unlisted inputs hash to zero. -/
def primitives : Primitives where
  sha256 key := ((tables.digests.find? fun row => row.1 = key).map Prod.snd).getD (bytes32 0)
  blake3 bytes := ((tables.hashes.find? fun row => row.1 = bytes).map Prod.snd).getD Hash.zero
  leafToJson := tables.textOf
  leafFromJson := tables.parse
  leafFromJson_toJson := tables.parse_textOf
  newline_notMem_leafToJson := tables.newline_notMem_textOf
  leafToJson_ne_nil := tables.textOf_ne_nil

/-- A listed text hashes as listed, if no text is listed twice. -/
theorem blake3_of_mem (hnodup : (tables.hashes.map Prod.fst).Nodup) {text : Bytes} {hash : Hash}
    (hrow : (text, hash) ∈ tables.hashes) : tables.primitives.blake3 text = hash := by
  have hfound : tables.hashes.find? (fun row => row.1 = text) = some (text, hash) := by
    cases hsearch : tables.hashes.find? fun row => row.1 = text with
    | none => exact absurd (decide_eq_true rfl) (List.find?_eq_none.mp hsearch _ hrow)
    | some row =>
        have htext : row.1 = text := by simpa using List.find?_some hsearch
        exact congrArg some
          (List.inj_on_of_nodup_map hnodup (List.mem_of_find?_eq_some hsearch) hrow htext)
  change ((tables.hashes.find? fun row => row.1 = text).map Prod.snd).getD Hash.zero = hash
  rw [hfound]
  rfl

/-- The listed texts do not collide, if no text and no hash is listed twice. -/
theorem collisionFree (htexts : (tables.hashes.map Prod.fst).Nodup)
    (hhashes : (Hash.zero :: tables.hashes.map Prod.snd).Nodup) :
    tables.primitives.CollisionFree {held | held ∈ tables.hashes.map Prod.fst} := by
  obtain ⟨hzero, hnodup⟩ := List.nodup_cons.mp hhashes
  constructor
  · intro left hleft right hright hsame
    obtain ⟨row, hrow, rfl⟩ := List.mem_map.mp hleft
    obtain ⟨other, hother, rfl⟩ := List.mem_map.mp hright
    rw [tables.blake3_of_mem htexts hrow, tables.blake3_of_mem htexts hother] at hsame
    rw [List.inj_on_of_nodup_map hnodup hrow hother hsame]
  · intro text htext
    obtain ⟨row, hrow, rfl⟩ := List.mem_map.mp htext
    rw [tables.blake3_of_mem htexts hrow]
    intro heq
    exact hzero (heq ▸ List.mem_map_of_mem hrow)

end Tables

/-! ## Two records

Two records with their actual digests, hashes and leaf texts, both created at
the start of 1 May 2024. -/

namespace Sample

def firstKey : String := "bafybeigdyrzt5sfp7udm7hu76uh7y26nf3efuylqabf3oclgtqy55fbzdi"
def secondKey : String := "bbqjcbw6mxhqxyl2tkvnxkud4osyy5wcpgkrowp7vp2qxgms2mvrkfxam"

def firstValue : String := "\x7b\"a\":1\x7d"
def secondValue : String := "\x7b\"b\":2\x7d"

def createdAt : Timestamp := 1714521600 * 1000000000

def first : LeafEntry where
  key := firstKey
  hash := ⟨bytes32 0xd59b6562d7c9b121bc9760873d787890ef4d429aad33a70b405baa0fa08a1f53⟩
  size := 7
  addedAt := createdAt
  contentCode := none

def second : LeafEntry where
  key := secondKey
  hash := ⟨bytes32 0x4e956258c272ca82cad635c0a39862b0366c81d5f708e7b8520604022ff03994⟩
  size := 7
  addedAt := createdAt
  contentCode := none

def firstText : String :=
  "\x7b\"key\":\"bafybeigdyrzt5sfp7udm7hu76uh7y26nf3efuylqabf3oclgtqy55fbzdi\"," ++
  "\"hash\":\"d59b6562d7c9b121bc9760873d787890ef4d429aad33a70b405baa0fa08a1f53\"," ++
  "\"size\":7,\"added_at\":\"2024-05-01T00:00:00Z\"\x7d"

def secondText : String :=
  "\x7b\"key\":\"bbqjcbw6mxhqxyl2tkvnxkud4osyy5wcpgkrowp7vp2qxgms2mvrkfxam\"," ++
  "\"hash\":\"4e956258c272ca82cad635c0a39862b0366c81d5f708e7b8520604022ff03994\"," ++
  "\"size\":7,\"added_at\":\"2024-05-01T00:00:00Z\"\x7d"

/-- The blob of a leaf node with these lines. -/
def leafBlob (lines : List String) : Bytes :=
  0 :: lines.flatMap fun line => utf8 line ++ [newline]

def emptyRoot : Vector UInt8 32 :=
  bytes32 0x2d3adedff11b61f14c886e35afa036736dcd87a74d27b5c1510225d0f592e213
def firstRoot : Vector UInt8 32 :=
  bytes32 0xa4b03a782df3381b5b7ddd0dbf33bce4b5f95bd27bd5fe9507f51ee2ae28c4ac
def secondRoot : Vector UInt8 32 :=
  bytes32 0x06af5de6361dc98519681ccf6f870968af11b53e5f6e30a99773643364699f90
def bothRoot : Vector UInt8 32 :=
  bytes32 0xca5e0b6a9842881b1c437f6e90561ea4ac58178727d4d79d7f174a7bfd354f28

/-- The values, the leaves they can be published in, and the 32-byte contents
of pointer-document entries that name those leaves. -/
def tables : Tables where
  texts := [(first, firstText), (second, secondText)]
  digests :=
    [(firstKey, bytes32 0xf949678d01a2be0f04702bde3844308f2b21f56571023294eb0566e0abc4f629),
      (secondKey, bytes32 0xcd12103125f3ada16f1b7be85dbf818425b5b8824513be84fc845f162133ef76)]
  hashes :=
    [(utf8 firstValue, first.hash), (utf8 secondValue, second.hash),
      (leafBlob [], ⟨emptyRoot⟩), (leafBlob [firstText], ⟨firstRoot⟩),
      (leafBlob [secondText], ⟨secondRoot⟩), (leafBlob [firstText, secondText], ⟨bothRoot⟩),
      (firstRoot.toList,
        ⟨bytes32 0xa438df4a59cf7fe54490e5881f6f3204e536eb0aacc1cce574cdf3143b7ed2f2⟩),
      (secondRoot.toList,
        ⟨bytes32 0x2d7d0d0f946ff90d0c2db2493372bafefa139f96ce05db75e3c999a07775f381⟩),
      (bothRoot.toList,
        ⟨bytes32 0xb52f359ac0a9c875a903c347190548d26031cf2f353908778d0e462dd13a1e64⟩)]
  texts_valid := by decide +kernel

def prim : Primitives := tables.primitives

def firstJson : Json := .object [("a", .integer 1)]
def secondJson : Json := .object [("b", .integer 2)]

/-- The libraries on the two records: the first key is a CIDv1, the second a
legacy identifier, and neither value carries a timestamp. -/
def lib : Libraries where
  parseJson text :=
    if text = firstValue then .ok firstJson
    else if text = secondValue then .ok secondJson
    else .error "expected value at line 1 column 1"
  printJson
    | .object [("a", .integer 1)] => firstValue
    | .object [("b", .integer 2)] => secondValue
    | _ => "null"
  cidVersion text := if text = firstKey then some 1 else none
  base32Decode _ := .error "invalid symbol"
  timestampMillis _ := none

end Sample

end Registry

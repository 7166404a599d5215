import Mathlib.Data.Set.Function
import Mathlib.Data.List.Sort
import Mathlib.Data.Fintype.Basic

/-! # Hashes, leaf entries and key partitioning

The data types shared by every component, and the third-party primitives they
rest on: SHA-256 of keys, BLAKE3 of blobs, and the JSON text of a leaf entry.
-/

namespace Registry

abbrev Bytes := List UInt8

/-- A BLAKE3 content hash, the address of a blob. -/
structure Hash where
  bytes : Vector UInt8 32
  deriving DecidableEq, Repr

/-- The all-zero hash, which an intermediate node uses for "no child". -/
def Hash.zero : Hash := ⟨Vector.replicate 32 0⟩

def Hash.toHex (hash : Hash) : String :=
  String.ofList (hash.bytes.toList.flatMap fun byte =>
    [Nat.digitChar (byte.toNat / 16), Nat.digitChar (byte.toNat % 16)])

/-- The form of a hash in the write API's responses. -/
def Hash.toPrefixed (hash : Hash) : String := "b3-" ++ hash.toHex

/-- A SHA-256 digest of a record key. -/
abbrev Digest := Vector UInt8 32

/-- A point in time, in nanoseconds since the Unix epoch. -/
abbrev Timestamp := Int

/-- One entry inside a HAMT leaf node. -/
structure LeafEntry where
  key : String
  hash : Hash
  size : UInt64
  addedAt : Timestamp
  contentCode : Option UInt64
  deriving DecidableEq, Repr

/-- Lifecycle status of a record in the record index. -/
inductive RecordStatus
  | pending
  | published
  | denylisted
  deriving DecidableEq, Repr

/-- The line separator of a leaf node's body. -/
def newline : UInt8 := 10

/-- The UTF-8 bytes of a text. -/
def utf8 (text : String) : Bytes := text.toByteArray.data.toList

theorem utf8_ofList (chars : List Char) :
    utf8 (String.ofList chars) = chars.flatMap String.utf8EncodeChar := by
  rw [utf8, String.toByteArray_ofList, List.utf8Encode]
  simp

theorem utf8_injective : Function.Injective utf8 := by
  intro first second hsame
  apply String.toByteArray_inj.mp
  exact ByteArray.ext (Array.toList_inj.mp hsame)

/-- Third-party code the registry calls. SHA-256 and BLAKE3 are arbitrary
functions here. Of the JSON library, a leaf entry's text is one nonempty line
and parses back to the entry. -/
structure Primitives where
  sha256 : String → Digest
  blake3 : Bytes → Hash
  leafToJson : LeafEntry → Bytes
  leafFromJson : Bytes → Except String LeafEntry
  leafFromJson_toJson : ∀ entry, leafFromJson (leafToJson entry) = .ok entry
  newline_notMem_leafToJson : ∀ entry, newline ∉ leafToJson entry
  leafToJson_ne_nil : ∀ entry, leafToJson entry ≠ []

namespace Primitives

variable (prim : Primitives)

/-- BLAKE3 tells these blobs apart and hashes none of them to zero. -/
def CollisionFree (blobs : Set Bytes) : Prop :=
  Set.InjOn prim.blake3 blobs ∧ ∀ blob ∈ blobs, prim.blake3 blob ≠ Hash.zero

theorem CollisionFree.mono {prim : Primitives} {small large : Set Bytes}
    (hsubset : small ⊆ large) (hlarge : prim.CollisionFree large) :
    prim.CollisionFree small :=
  ⟨hlarge.1.mono hsubset, fun blob hblob => hlarge.2 blob (hsubset hblob)⟩

def contentHash (value : String) : Hash := prim.blake3 (utf8 value)

def keyDigest (key : String) : Digest := prim.sha256 key

end Primitives

def partitionId (digest : Digest) (topLevelPartitions : Nat) : Nat :=
  digest[0].toNat % topLevelPartitions

def Primitives.partitionIdForKey (prim : Primitives) (key : String)
    (topLevelPartitions : Nat) : Nat :=
  partitionId (prim.keyDigest key) topLevelPartitions

/-- The pointer-document key of a partition, its number padded to three digits. -/
def partitionKey (partitionId : Nat) : String :=
  let digits := toString partitionId
  "partition/" ++ String.ofList (List.replicate (3 - digits.length) '0') ++ digits

/-- The digest byte that selects a child slot at depth `depth`. Byte 0 is spent
on the partition, so a digest has 31 levels. -/
def descentByte (digest : Digest) (depth : Nat) : Option UInt8 :=
  digest[1 + depth]?

/-- The number of levels a digest can address. -/
def maxDepth : Nat := 31

theorem descentByte_eq_none_iff (digest : Digest) (depth : Nat) :
    descentByte digest depth = none ↔ maxDepth ≤ depth := by
  simp only [descentByte, maxDepth, Vector.getElem?_eq_none_iff]
  omega

theorem descentByte_isSome_iff (digest : Digest) (depth : Nat) :
    (descentByte digest depth).isSome ↔ depth < maxDepth := by
  rw [← not_iff_not, Bool.not_eq_true, Option.isSome_eq_false_iff, Option.isNone_iff_eq_none,
    descentByte_eq_none_iff, not_lt]

theorem exists_descentByte (digest : Digest) {depth : Nat} (hdepth : depth < maxDepth) :
    ∃ byte, descentByte digest depth = some byte :=
  Option.isSome_iff_exists.mp ((descentByte_isSome_iff digest depth).mpr hdepth)

end Registry

import Mathlib.Data.Countable.Basic
import Registry.Core.IsccStore
import Registry.Core.Tabulated

/-! # An index format given by tables

The JSON texts of listed directories, manifests and member lists. As with leaf
entries, what is not listed is written as a numeral behind a mark that no listed
text starts with, so the laws of the format hold for every value.
-/

namespace Registry

open Effect

/-- Listed texts, no two of them alike and none behind the mark. -/
structure TextTable (α : Type) where
  rows : List (α × String)
  nodup : (rows.map fun row => utf8 row.2).Nodup
  unmarked : ∀ row ∈ rows, (utf8 row.2).head? ≠ some unlistedMark

namespace TextTable

variable {α : Type} [DecidableEq α] [Encodable α] (table : TextTable α)

def print (value : α) : Bytes :=
  match table.rows.find? fun row => row.1 = value with
  | some row => utf8 row.2
  | none => unlistedMark :: numeral (Encodable.encode value)

def parse (bytes : Bytes) : Except String α :=
  match table.rows.find? fun row => utf8 row.2 = bytes with
  | some row => .ok row.1
  | none =>
      match bytes with
      | [] => .error "EOF while parsing a value"
      | mark :: digits =>
          if mark = unlistedMark then
            match (Encodable.decode (numeralValue digits) : Option α) with
            | some value => .ok value
            | none => .error "expected value"
          else .error "expected value"

omit [DecidableEq α] [Encodable α] in
theorem find_text {row : α × String} (hrow : row ∈ table.rows) :
    table.rows.find? (fun other => utf8 other.2 = utf8 row.2) = some row := by
  cases hfound : table.rows.find? fun other => utf8 other.2 = utf8 row.2 with
  | none => exact absurd (List.find?_eq_none.mp hfound row hrow) (by simp)
  | some other =>
      have htext : utf8 other.2 = utf8 row.2 := by simpa using List.find?_some hfound
      rw [List.inj_on_of_nodup_map table.nodup (List.mem_of_find?_eq_some hfound) hrow htext]

theorem parse_print (value : α) : table.parse (table.print value) = .ok value := by
  unfold print
  split
  next row hrow =>
    have hvalue : row.1 = value := by simpa using List.find?_some hrow
    rw [parse.eq_def, table.find_text (List.mem_of_find?_eq_some hrow), ← hvalue]
  next =>
    have hunlisted : table.rows.find? (fun row => utf8 row.2 =
        unlistedMark :: numeral (Encodable.encode value)) = none := by
      rw [List.find?_eq_none]
      intro row hrow htext
      refine table.unmarked row hrow ?_
      rw [of_decide_eq_true htext]
      rfl
    simp only [parse, hunlisted, ↓reduceIte, numeralValue_numeral, Encodable.encodek]

end TextTable

/-! ## Countability of the indexed types -/

theorem toNat_toList_injective :
    Function.Injective fun text : String => text.toList.map Char.toNat := by
  intro first second heq
  have hchars : Function.Injective Char.toNat := fun _ _ hchar => Char.toNat_inj.mp hchar
  exact String.toList_inj.mp (List.map_injective_iff.mpr hchars heq)

instance : Countable IsccMember := by
  apply Function.Injective.countable (β := List Nat × Nat)
    (f := fun member => (member.key.toList.map Char.toNat, member.contentCode.toNat))
  rintro ⟨firstKey, firstCode⟩ ⟨secondKey, secondCode⟩ heq
  obtain ⟨hkey, hcode⟩ := Prod.mk.inj heq
  obtain rfl : firstKey = secondKey := toNat_toList_injective hkey
  obtain rfl : firstCode = secondCode := UInt64.toNat_inj.mp hcode
  rfl

instance : Countable Hash := by
  apply Function.Injective.countable (β := List Nat)
    (f := fun hash => hash.bytes.toList.map UInt8.toNat)
  rintro ⟨first⟩ ⟨second⟩ heq
  have hbytes : Function.Injective UInt8.toNat := fun _ _ hbyte => UInt8.toNat_inj.mp hbyte
  obtain rfl : first = second := Vector.toList_inj.mp (List.map_injective_iff.mpr hbytes heq)
  rfl

instance countableString : Countable String := toNat_toList_injective.countable

instance : Countable BucketManifest := by
  apply Function.Injective.countable (β := Nat × List Hash)
    (f := fun manifest => (manifest.count.toNat, manifest.segments))
  rintro ⟨firstCount, firstSegments⟩ ⟨secondCount, secondSegments⟩ heq
  obtain ⟨hcount, hsegments⟩ := Prod.mk.inj heq
  obtain rfl : firstCount = secondCount := UInt64.toNat_inj.mp hcount
  obtain rfl : firstSegments = secondSegments := hsegments
  rfl

instance : Countable DirectoryV2 := by
  apply Function.Injective.countable (β := Nat × List (String × Hash))
    (f := fun directory => (directory.v.toNat, directory.buckets.toList))
  rintro ⟨firstV, firstBuckets⟩ ⟨secondV, secondBuckets⟩ heq
  obtain ⟨hv, hbuckets⟩ := Prod.mk.inj heq
  obtain rfl : firstV = secondV := UInt32.toNat_inj.mp hv
  obtain rfl : firstBuckets = secondBuckets := Std.ExtTreeMap.toList_inj.mp hbuckets
  rfl

/-- Tables of the texts of an index, the listed directories of the first format not
among them. -/
structure IndexTables where
  directories : TextTable DirectoryV2
  manifests : TextTable BucketManifest
  members : TextTable (List IsccMember)
  legacy : List (Std.ExtTreeMap String Hash compare × String)
  legacy_unlisted : ∀ row ∈ legacy, utf8 row.2 ≠ [] ∧ (utf8 row.2).head? ≠ some unlistedMark ∧
    ∀ other ∈ directories.rows, utf8 other.2 ≠ utf8 row.2

namespace IndexTables

noncomputable instance : Encodable DirectoryV2 := Encodable.ofCountable _
noncomputable instance : Encodable BucketManifest := Encodable.ofCountable _
noncomputable instance : Encodable (List IsccMember) := Encodable.ofCountable _

variable (tables : IndexTables)

def parseLegacy (bytes : Bytes) : Except String (Std.ExtTreeMap String Hash compare) :=
  match tables.legacy.find? fun row => utf8 row.2 = bytes with
  | some row => .ok row.1
  | none => .error "invalid type"

theorem parseDirectory_legacy (bytes : Bytes) (legacy : Std.ExtTreeMap String Hash compare)
    (hlegacy : tables.parseLegacy bytes = .ok legacy) :
    ∃ message, tables.directories.parse bytes = .error message := by
  unfold parseLegacy at hlegacy
  split at hlegacy
  next row hrow =>
    obtain rfl : utf8 row.2 = bytes := by simpa using List.find?_some hrow
    obtain ⟨hne, hmark, hother⟩ := tables.legacy_unlisted row (List.mem_of_find?_eq_some hrow)
    have hunlisted :
        tables.directories.rows.find? (fun other => utf8 other.2 = utf8 row.2) = none := by
      rw [List.find?_eq_none]
      exact fun other hmem htext => hother other hmem (of_decide_eq_true htext)
    rw [TextTable.parse.eq_def, hunlisted]
    cases hbytes : utf8 row.2 with
    | nil => exact absurd hbytes hne
    | cons mark digits =>
        rw [hbytes] at hmark
        have hplain : mark ≠ unlistedMark := fun heq => hmark (by rw [heq]; rfl)
        exact ⟨_, if_neg hplain⟩
  next => cases hlegacy

noncomputable def format : IndexFormat where
  printDirectory := tables.directories.print
  parseDirectory := tables.directories.parse
  parseLegacy := tables.parseLegacy
  printManifest := tables.manifests.print
  parseManifest := tables.manifests.parse
  printMembers := tables.members.print
  parseMembers := tables.members.parse
  parseDirectory_print := tables.directories.parse_print
  parseManifest_print := tables.manifests.parse_print
  parseMembers_print := tables.members.parse_print
  parseDirectory_legacy := tables.parseDirectory_legacy

end IndexTables

/-! ## One key with two codes

A key with codes that differ in two bits, in an index of two bands: both members, and an
index of the first format that holds the first of them, before and after the second is
inserted. The texts are those that the JSON library writes, with their actual hashes. -/

namespace Sample

def params : BandParams := ⟨2, by decide, by decide⟩

def zeroMember : IsccMember := ⟨firstKey, 0⟩
def threeMember : IsccMember := ⟨firstKey, 3⟩

/-- A hash with its hexadecimal text, as it stands in a JSON text. -/
structure NamedHash where
  hash : Hash
  text : String

def bothList : NamedHash where
  hash := ⟨bytes32 0x459c24bf21aa62b6bfcda60f6dd828f8318ce1ab0f07de6bd5ecafb8a5a072f3⟩
  text := "459c24bf21aa62b6bfcda60f6dd828f8318ce1ab0f07de6bd5ecafb8a5a072f3"

def zeroList : NamedHash where
  hash := ⟨bytes32 0x515fdd96288cb2fb1230365f7f0cbfb181d5b87855ae8ee5b567e488527c5c05⟩
  text := "515fdd96288cb2fb1230365f7f0cbfb181d5b87855ae8ee5b567e488527c5c05"

def threeList : NamedHash where
  hash := ⟨bytes32 0x43a1e6af4051c04bba554e03d64c5cc118997acb5311c13bd8b65700afdd0a76⟩
  text := "43a1e6af4051c04bba554e03d64c5cc118997acb5311c13bd8b65700afdd0a76"

def bothManifest : NamedHash where
  hash := ⟨bytes32 0xd1616b95a518effc6da13a4649256b362822806d146c3b705333a41c570b975b⟩
  text := "d1616b95a518effc6da13a4649256b362822806d146c3b705333a41c570b975b"

def zeroManifest : NamedHash where
  hash := ⟨bytes32 0xdbd3c2631895b234e8c6cba8a09f2f0a3a0de7721900ce361b985bc3b98b00c7⟩
  text := "dbd3c2631895b234e8c6cba8a09f2f0a3a0de7721900ce361b985bc3b98b00c7"

def threeManifest : NamedHash where
  hash := ⟨bytes32 0xf5d9230c81e87468063613cffb9c47a388e4330f95771116295f03e6e0c0bb4b⟩
  text := "f5d9230c81e87468063613cffb9c47a388e4330f95771116295f03e6e0c0bb4b"

def builtRoot : Hash :=
  ⟨bytes32 0x9acf0658b0dddfe23cff9094e167bf5720ef942aa95f3f9e8d098771b11904c0⟩
def legacyRoot : Hash :=
  ⟨bytes32 0x51ce7dee4ea447c3ea60ebe1feb05ec5c2438aeb4c8449894153dee80a1f975a⟩
def migratedRoot : Hash :=
  ⟨bytes32 0xd9bfdc8211a2ca3866cff5be3a73e848ce0da7bd9be31c8b9e0f87fd15a28760⟩

def grownRoot : Hash :=
  ⟨bytes32 0xd0bacb35602c9429a0c67f8f597141fb876a70654c665420c3d1f0eb31c2e35a⟩

def quoted (text : String) : String := "\"" ++ text ++ "\""

def membersText (codes : List String) : String :=
  "[" ++ ",".intercalate (codes.map fun code =>
    "\x7b\"key\":" ++ quoted firstKey ++ ",\"content_code\":" ++ code ++ "\x7d") ++ "]"

def manifestText (count : String) (segment : NamedHash) : String :=
  "\x7b\"count\":" ++ count ++ ",\"segments\":[" ++ quoted segment.text ++ "]\x7d"

def bucketsText (rows : List (String × NamedHash)) : String :=
  "\x7b" ++ ",".intercalate (rows.map fun row => quoted row.1 ++ ":" ++ quoted row.2.text) ++ "\x7d"

def directoryText (rows : List (String × NamedHash)) : String :=
  "\x7b\"v\":2,\"buckets\":" ++ bucketsText rows ++ "\x7d"

def bucketsOf (rows : List (String × NamedHash)) : Std.ExtTreeMap String Hash compare :=
  rows.foldl (fun buckets row => buckets.insert row.1 row.2.hash) ∅

def builtRows : List (String × NamedHash) :=
  [("iscc/00/0000000000000000", bothManifest), ("iscc/01/0000000000000000", zeroManifest),
    ("iscc/01/0000000000000003", threeManifest)]

def legacyRows : List (String × NamedHash) := [("iscc/00/0000000000000000", zeroList)]

def migratedRows : List (String × NamedHash) := [("iscc/00/0000000000000000", zeroManifest)]

def grownRows : List (String × NamedHash) :=
  [("iscc/00/0000000000000000", bothManifest), ("iscc/01/0000000000000003", threeManifest)]

def indexTables : IndexTables where
  directories :=
    { rows := [(⟨2, bucketsOf builtRows⟩, directoryText builtRows),
        (⟨2, bucketsOf migratedRows⟩, directoryText migratedRows),
        (⟨2, bucketsOf grownRows⟩, directoryText grownRows)]
      nodup := by decide +kernel
      unmarked := by decide +kernel }
  manifests :=
    { rows := [(⟨2, [bothList.hash]⟩, manifestText "2" bothList),
        (⟨1, [zeroList.hash]⟩, manifestText "1" zeroList),
        (⟨1, [threeList.hash]⟩, manifestText "1" threeList)]
      nodup := by decide +kernel
      unmarked := by decide +kernel }
  members :=
    { rows := [([zeroMember, threeMember], membersText ["0", "3"]),
        ([zeroMember], membersText ["0"]), ([threeMember], membersText ["3"])]
      nodup := by decide +kernel
      unmarked := by decide +kernel }
  legacy := [(bucketsOf legacyRows, bucketsText legacyRows)]
  legacy_unlisted := by decide +kernel

noncomputable def indexFormat : IndexFormat := indexTables.format

def isccTables : Tables where
  texts := []
  digests := []
  hashes :=
    [(utf8 (membersText ["0", "3"]), bothList.hash), (utf8 (membersText ["0"]), zeroList.hash),
      (utf8 (membersText ["3"]), threeList.hash),
      (utf8 (manifestText "2" bothList), bothManifest.hash),
      (utf8 (manifestText "1" zeroList), zeroManifest.hash),
      (utf8 (manifestText "1" threeList), threeManifest.hash),
      (utf8 (directoryText builtRows), builtRoot), (utf8 (bucketsText legacyRows), legacyRoot),
      (utf8 (directoryText migratedRows), migratedRoot),
      (utf8 (directoryText grownRows), grownRoot)]
  texts_valid := by decide

def isccPrim : Primitives := isccTables.primitives

/-- The listed blobs, no two of which hash alike. -/
def isccBlobs : Blobs := isccTables.hashes.map Prod.fst

theorem isccTables_nodup : (isccTables.hashes.map Prod.fst).Nodup ∧
    (Hash.zero :: isccTables.hashes.map Prod.snd).Nodup := by decide +kernel

theorem isccPrim_collisionFree : isccPrim.CollisionFree {held | held ∈ isccBlobs} :=
  isccTables.collisionFree isccTables_nodup.1 isccTables_nodup.2

theorem collisionFree_of_listed {blobs : Blobs} (hlisted : ∀ blob ∈ blobs, blob ∈ isccBlobs) :
    isccPrim.CollisionFree {held | held ∈ blobs} :=
  isccPrim_collisionFree.mono hlisted

/-- The blobs of the index of the first format. -/
def legacyBlobs : Blobs := [utf8 (bucketsText legacyRows), utf8 (membersText ["0"])]

end Sample

end Registry

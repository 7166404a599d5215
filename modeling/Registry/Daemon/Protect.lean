import Registry.Core.TabulatedIndex
import Registry.Daemon.Gc

/-! # What a collection protects

Everything that the partitions' trees lead to is protected, as long as the walks
read what they meet: a node has a tag byte where the text of an admitted value has
the start of a JSON object, so the values collected first never hide a node. The
blobs of the similarity index are JSON objects themselves, and a record may spell
one out.
-/

namespace Registry

open Effect

/-- A text that one of the write paths stores as a value. -/
def Admitted (lib : Libraries) (text : String) : Prop :=
  (∃ value, lib.canonicalValue value = .ok text) ∨ ∃ value, lib.canonicalValueStr value = some text

/-- The bytes that the text of a JSON object can start with: white space or a brace. -/
def objectStarts : Bytes := [0x20, 0x09, 0x0a, 0x0d, 0x7b]

/-- Of the JSON library: a text accepted as an object starts like one, and an object is
printed from its opening brace on. -/
structure ObjectTexts (lib : Libraries) : Prop where
  starts : ∀ text value, lib.parseJson text = .ok value → value.isObject →
    ∃ byte ∈ objectStarts, (utf8 text).head? = some byte
  printed : ∀ fields, (utf8 (lib.printJson (.object fields))).head? = some 0x7b

theorem ObjectTexts.of_canonicalValue {lib : Libraries} (hjson : ObjectTexts lib) {value : Json}
    {text : String} (hvalue : lib.canonicalValue value = .ok text) :
    ∃ byte ∈ objectStarts, (utf8 text).head? = some byte := by
  cases value with
  | object fields =>
      obtain rfl : lib.printJson (.object fields) = text := Except.ok.inj hvalue
      exact ⟨0x7b, by decide, hjson.printed fields⟩
  | string raw =>
      simp only [Libraries.canonicalValue] at hvalue
      cases hparsed : lib.parseJson raw with
      | error message => rw [hparsed] at hvalue; cases hvalue
      | ok parsed =>
          rw [hparsed] at hvalue
          dsimp only at hvalue
          split at hvalue
          next hobject =>
            obtain rfl : raw = text := Except.ok.inj hvalue
            exact hjson.starts _ parsed hparsed hobject
          next => cases hvalue
  | null => cases hvalue
  | bool value => cases hvalue
  | integer value => cases hvalue
  | float text => cases hvalue
  | array items => cases hvalue

/-- An admitted value starts like a JSON object, whichever path admitted it. -/
theorem Admitted.starts {lib : Libraries} (hjson : ObjectTexts lib) {text : String}
    (hadmitted : Admitted lib text) : ∃ byte ∈ objectStarts, (utf8 text).head? = some byte := by
  rcases hadmitted with ⟨value, hvalue⟩ | ⟨value, hvalue⟩
  · exact hjson.of_canonicalValue hvalue
  · exact hjson.of_canonicalValue ((lib.canonicalValueStr_eq_some_iff value text).mp hvalue)

namespace Primitives

variable {prim : Primitives} {lib : Libraries} {config : Config} {world : World}

/-- A blob that decodes as a node starts with a tag byte. -/
theorem head_of_decode {bytes : Bytes} {hash : Hash} {node : HamtNode}
    (hdecode : prim.decode bytes hash = .ok node) :
    bytes.head? = some tagLeaf ∨ bytes.head? = some tagIntermediate := by
  cases bytes with
  | nil => cases hdecode
  | cons tag body =>
      rw [decode] at hdecode
      split at hdecode
      next hleaf => exact Or.inl (congrArg some hleaf)
      next =>
        split at hdecode
        next hintermediate => exact Or.inr (congrArg some hintermediate)
        next => cases hdecode

/-- No value that starts like a JSON object has the hash of a node, where BLAKE3 tells
them apart. -/
theorem nodeAt_ne_value (hjson : ObjectTexts lib) {blobs : Blobs} {values : Set String}
    (hadmitted : ∀ text ∈ values, Admitted lib text)
    (hfree : prim.CollisionFree ({held | held ∈ blobs} ∪ Set.image utf8 values))
    {hash : Hash} (hnode : (prim.nodeAt blobs hash).isSome) {text : String}
    (htext : text ∈ values) :
    hash ≠ prim.contentHash text := by
  rintro rfl
  obtain ⟨node, hnode⟩ := Option.isSome_iff_exists.mp hnode
  obtain ⟨bytes, hbytes, hdecode⟩ := Option.bind_eq_some_iff.mp hnode
  obtain ⟨hheld, hhash⟩ := prim.mem_of_blobAt hbytes
  obtain rfl : bytes = utf8 text :=
    hfree.1 (Or.inl hheld) (Or.inr (Set.mem_image_of_mem utf8 htext)) hhash
  obtain ⟨byte, hbyte, hhead⟩ := (hadmitted text htext).starts hjson
  have htag : byte = tagLeaf ∨ byte = tagIntermediate := by
    cases hdecoded : prim.decode (utf8 text) (prim.contentHash text) with
    | error error => rw [hdecoded] at hdecode; cases hdecode
    | ok decoded =>
        refine (head_of_decode hdecoded).imp (fun htag => ?_) fun htag => ?_
        · exact Option.some.inj (hhead.symm.trans htag)
        · exact Option.some.inj (hhead.symm.trans htag)
  rcases htag with rfl | rfl
  · exact absurd hbyte (by decide)
  · exact absurd hbyte (by decide)

/-- The indexed values are among these admitted ones. -/
def IndexedValues (prim : Primitives) (values : Set String) (index : RecordIndex) : Prop :=
  ∀ (key : String) (record : IndexRecord), index.records[key]? = some record →
    ∃ text ∈ values, record.contentHash = prim.contentHash text

/-- A root under which every node is held and decodes, with leaves of these values. -/
structure WellFormedTree (prim : Primitives) (values : Set String) (blobs : Blobs) (root : Hash) :
    Prop where
  decodes : ∀ hash, prim.ReachesNode blobs root hash → (prim.nodeAt blobs hash).isSome
  entries : ∀ value, prim.ReachesValue blobs root value → ∃ text ∈ values,
    value = prim.contentHash text

theorem treesReadable {values : Set String}
    (htrees : ∀ partitionId root, prim.CurrentRoot config world partitionId root →
      WellFormedTree prim values world.blobs root) :
    TreesReadable prim config Set.univ world := by
  rintro hash ⟨partitionId, root, hroot, hreaches⟩
  exact ⟨Set.mem_univ _, (htrees partitionId root hroot).decodes hash hreaches⟩

theorem nodesApart (hjson : ObjectTexts lib) {values : Set String}
    (hadmitted : ∀ text ∈ values, Admitted lib text)
    (hindex : IndexedValues prim values world.index)
    (htrees : ∀ partitionId root, prim.CurrentRoot config world partitionId root →
      WellFormedTree prim values world.blobs root)
    (hfree : prim.CollisionFree ({held | held ∈ world.blobs} ∪ Set.image utf8 values)) :
    NodesApart prim config world := by
  rintro hash ⟨partitionId, root, hroot, hreaches⟩
  have hnode := (htrees partitionId root hroot).decodes hash hreaches
  constructor
  · intro hcontent
    obtain ⟨row, hrow, rfl⟩ := List.mem_map.mp hcontent
    obtain ⟨text, htext, hhash⟩ := hindex row.1 row.2
      (Std.ExtTreeMap.mem_toList_iff_getElem?_eq_some.mp hrow)
    exact nodeAt_ne_value hjson hadmitted hfree hnode htext hhash
  · rintro ⟨otherId, otherRoot, hother, hvalue⟩
    obtain ⟨text, htext, hhash⟩ := (htrees otherId otherRoot hother).entries hash hvalue
    exact nodeAt_ne_value hjson hadmitted hfree hnode htext hhash

/-- Without faults of the store, every read is answered by what the store holds. -/
theorem DaemonStep.gcStep {faults : Faults} (hstore : ¬faults.store) {op : DaemonOp}
    {before after : World} {response : daemonSig.Res op}
    (hstep : prim.DaemonStep faults op before response after) :
    prim.GcStep faults Set.univ op before response after := by
  refine ⟨hstep, ?_⟩
  match op with
  | .store (.get hash) =>
      obtain ⟨blobs, ⟨-, hanswer | ⟨hfault, -⟩⟩, -⟩ := hstep
      · exact fun _ => hanswer
      · exact absurd hfault hstore
  | .store (.put bytes) => trivial
  | .index op => trivial
  | .doc op => trivial
  | .now => trivial
  | .beginWrite => trivial
  | .endWrite => trivial
  | .pick others => trivial

/-! ## The trees -/

section Trees

variable {format : IndexFormat} {faults : Faults} {final : World}
  {outcome : Prog.Outcome DaemonError (Finset Hash)}

/-- If no walk meets a node that is missing, corrupt or not read, and no value passes
for a node, then a protect set that is handed to the sweep has all that the trees
lead to. -/
theorem protect_set_complete {readable : Set Hash}
    (hreadable : TreesReadable prim config readable world) (hapart : NodesApart prim config world)
    (hruns : Prog.Runs (prim.GcStep faults readable) (prim.collectLive format config) world outcome
      final) :
    outcome ≠ .diverged ∧ ∀ live, outcome = .ok live →
      (∀ hash, prim.TreeNode config world hash → hash ∈ live) ∧
      ∀ value, prim.TreeValue config world value → value ∈ live := by
  have hmeets := collectLive_outcome (collectLive_covers format hreadable hapart) hruns
  cases outcome with
  | diverged => exact hmeets.elim
  | error error => exact ⟨nofun, nofun⟩
  | ok live =>
      obtain ⟨-, -, hnodes, hvalues, -⟩ := hmeets
      refine ⟨nofun, fun other heq => ?_⟩
      obtain rfl := Prog.Outcome.ok.inj heq
      exact ⟨hnodes, hvalues⟩

/-- The protect set covers every well-formed partition tree. The collection fails only
on a fault of the tables or an unreadable entry of the pointer document. -/
theorem protect_set_covers_trees (hjson : ObjectTexts lib) {values : Set String}
    (hadmitted : ∀ text ∈ values, Admitted lib text)
    (hindex : IndexedValues prim values world.index)
    (htrees : ∀ partitionId root, prim.CurrentRoot config world partitionId root →
      WellFormedTree prim values world.blobs root)
    (hfree : prim.CollisionFree ({held | held ∈ world.blobs} ∪ Set.image utf8 values))
    (hstore : ¬faults.store)
    (hruns : Prog.Runs (prim.DaemonStep faults) (prim.collectLive format config) world outcome
      final) :
    outcome.Meets
      (fun live after => after = world ∧
        ∀ partitionId root, prim.CurrentRoot config world partitionId root →
          (∀ hash, prim.ReachesNode world.blobs root hash → hash ∈ live) ∧
          ∀ value, prim.ReachesValue world.blobs root value → value ∈ live)
      (fun _ _ => prim.Failing faults Set.univ world) final := by
  have hreadable := treesReadable htrees
  have hapart := nodesApart hjson hadmitted hindex htrees hfree
  have hgc := hruns.imp fun op before response after hstep => hstep.gcStep hstore
  have hmeets := collectLive_outcome (collectLive_covers format hreadable hapart) hgc
  cases outcome with
  | diverged => exact hmeets
  | error error => exact hmeets
  | ok live =>
      obtain ⟨hfinal, -, hnodes, hvalues, -⟩ := hmeets
      refine ⟨hfinal,
        fun partitionId root hroot => ⟨fun hash hreaches => ?_, fun value hreaches => ?_⟩⟩
      · exact hnodes hash ⟨partitionId, root, hroot, hreaches⟩
      · exact hvalues value ⟨partitionId, root, hroot, hreaches⟩

/-! ## The similarity index -/

/-- What is protected before the walk over the similarity index. -/
def NamedBefore (prim : Primitives) (config : Config) (world : World) (hash : Hash) : Prop :=
  hash ∈ world.index.allContentHashes ∨ prim.TreeNode config world hash ∨
    prim.TreeValue config world hash

/-- The blobs of a readable similarity index are protected exactly if its root is not
the hash of a record's value or of anything in the trees, or if all its blobs are
protected without the walk. -/
theorem similarity_index_protected_iff (hjson : ObjectTexts lib) {values : Set String}
    (hadmitted : ∀ text ∈ values, Admitted lib text)
    (hindex : IndexedValues prim values world.index)
    (htrees : ∀ partitionId root, prim.CurrentRoot config world partitionId root →
      WellFormedTree prim values world.blobs root)
    (hfree : prim.CollisionFree ({held | held ∈ world.blobs} ∪ Set.image utf8 values))
    (hstore : ¬faults.store) {root : Hash} (hroot : prim.docRootAt world .isccIndex = some root)
    (hiscc : IndexReadable prim format world.blobs root) {live : Finset Hash}
    (hruns : Prog.Runs (prim.DaemonStep faults) (prim.collectLive format config) world (.ok live)
      final) :
    (∀ hash, IndexBlob prim format world.blobs root hash → hash ∈ live) ↔
      ¬NamedBefore prim config world root ∨
        ∀ hash, IndexBlob prim format world.blobs root hash →
          NamedBefore prim config world hash ∨ hash ∈ world.doc.entryContentHashes := by
  have hreadable := treesReadable htrees
  have hapart := nodesApart hjson hadmitted hindex htrees hfree
  have hgc := hruns.imp fun op before response after hstep => hstep.gcStep hstore
  obtain ⟨-, trees, hbefore, hlive⟩ := collectLive_outcome
    (collectLive_exact hreadable hapart hroot hiscc fun _ _ => Set.mem_univ _) hgc
  simp only [hlive]
  rw [← show root ∈ trees ↔ NamedBefore prim config world root from hbefore root]
  by_cases hmem : root ∈ trees
  · simp only [hmem, not_true_eq_false, false_and, or_false, false_or]
    exact forall_congr' fun hash => imp_congr_right fun _ => or_congr_left (hbefore hash)
  · simp only [hmem, not_false_eq_true, true_and, true_or, iff_true]
    exact fun hash hblob => Or.inr (Or.inr hblob)

end Trees

end Primitives

/-! ## Runs on one partition -/

namespace Sample

mutual

/-- The text of a value without white space, its strings as they are. -/
def printText : Json → String
  | .null => "null"
  | .bool value => toString value
  | .integer value => toString value
  | .float text => text
  | .string text => quoted text
  | .array items => "[" ++ ",".intercalate (printItems items) ++ "]"
  | .object fields => "\x7b" ++ ",".intercalate (printFields fields) ++ "\x7d"

def printItems : List Json → List String
  | [] => []
  | item :: rest => printText item :: printItems rest

def printFields : List (String × Json) → List String
  | [] => []
  | (name, value) :: rest => (quoted name ++ ":" ++ printText value) :: printFields rest

end

/-- The text of a similarity index's directory, which is a JSON object. -/
def directory : String := directoryText migratedRows

/-- The directory as a value: a parsed object lists its fields by their names. -/
def directoryJson : Json :=
  .object [("buckets", .object [("iscc/00/0000000000000000", .string zeroManifest.text)]),
    ("v", .integer 2)]

/-- The content of the pointer-document entry that names the directory. -/
def rootContent : Bytes := migratedRoot.bytes.toList

def gcTables : Tables where
  texts := tables.texts
  digests := tables.digests
  hashes := (rootContent,
      ⟨bytes32 0x4c6d4bad830fd88eb15e5a7b206095c363bba3609431a5f4983cfd71ed07495a⟩) ::
    (tables.hashes ++ isccTables.hashes)
  texts_valid := tables.texts_valid

def gcPrim : Primitives := gcTables.primitives

/-- The JSON library on the values of the samples: it accepts the listed texts and
prints any value. -/
def gcLib : Libraries :=
  { lib with
    parseJson := fun text => if text = directory then .ok directoryJson else lib.parseJson text
    printJson := printText }

theorem gcLib_objectTexts : ObjectTexts gcLib where
  starts text value hparse _ := by
    by_cases hdirectory : text = directory
    · exact ⟨0x7b, by decide, by rw [hdirectory]; decide +kernel⟩
    · by_cases hfirst : text = firstValue
      · exact ⟨0x7b, by decide, by rw [hfirst]; decide +kernel⟩
      · by_cases hsecond : text = secondValue
        · exact ⟨0x7b, by decide, by rw [hsecond]; decide +kernel⟩
        · simp [gcLib, lib, hdirectory, hfirst, hsecond] at hparse
  printed fields := by
    have hbrace : "\x7b".toByteArray.data.toList.head? = some 0x7b := by decide +kernel
    simp [gcLib, printText, utf8, hbrace]

def indexOf (value : String) : RecordIndex :=
  { RecordIndex.empty with
    records := (∅ : Std.ExtTreeMap String IndexRecord).insert firstKey
      { newRecord gcPrim gcLib single firstKey value createdAt with status := .published } }

/-- One published record, and a similarity index. -/
def collected : World where
  blobs := [leafBlob [firstText], utf8 firstValue, rootContent, utf8 directory,
    utf8 (manifestText "1" zeroList), utf8 (membersText ["0"])]
  index :=
    { indexOf firstValue with localRoots := (∅ : Std.ExtTreeMap Nat Hash).insert 0 ⟨firstRoot⟩ }
  doc := { PointerDoc.empty with isccIndex := some (gcPrim.blake3 rootContent) }
  activeWrites := 0

/-- The values of the record and of its leaf. -/
def values : Set String := {firstValue}

theorem values_admitted : ∀ text ∈ values, Admitted gcLib text := by
  rintro text rfl
  have hprinted : printText firstJson = firstValue := by decide +kernel
  exact Or.inl ⟨firstJson, congrArg Except.ok hprinted⟩

theorem indexOf_indexed (value : String) :
    Primitives.IndexedValues gcPrim {value} (indexOf value) := by
  intro key record hrecord
  have hrow : firstKey = key ∧
      { newRecord gcPrim gcLib single firstKey value createdAt with status := .published } =
        record := by
    simpa [indexOf, Std.ExtTreeMap.getElem?_insert, RecordIndex.empty] using hrecord
  exact ⟨value, rfl, hrow.2 ▸ rfl⟩

theorem collected_indexed : Primitives.IndexedValues gcPrim values collected.index :=
  indexOf_indexed firstValue

theorem gcTables_nodup : (gcTables.hashes.map Prod.fst).Nodup ∧
    (Hash.zero :: gcTables.hashes.map Prod.snd).Nodup := by decide +kernel

theorem collected_listed : ∀ blob ∈ collected.blobs, blob ∈ gcTables.hashes.map Prod.fst := by
  simp [collected, gcTables, tables, isccTables, directory]

theorem collected_blobs : gcPrim.CollisionFree {held | held ∈ collected.blobs} :=
  (gcTables.collisionFree gcTables_nodup.1 gcTables_nodup.2).mono collected_listed

/-- A listed blob is read under its hash. -/
theorem collected_blobAt {blob : Bytes} {hash : Hash} (hrow : (blob, hash) ∈ gcTables.hashes)
    (hheld : blob ∈ collected.blobs) : gcPrim.blobAt collected.blobs hash = some blob := by
  have hhash : gcPrim.blake3 blob = hash := gcTables.blake3_of_mem gcTables_nodup.1 hrow
  rw [← hhash]
  exact gcPrim.blobAt_blake3 collected_blobs hheld

/-- What the texts of the collected world are printed from. -/
theorem collected_texts : gcPrim.encode (.leaf [first]) = leafBlob [firstText] ∧
    indexFormat.parseDirectory (utf8 directory) = .ok ⟨2, bucketsOf migratedRows⟩ ∧
    indexFormat.parseManifest (utf8 (manifestText "1" zeroList)) = .ok ⟨1, [zeroList.hash]⟩ ∧
    indexFormat.parseMembers (utf8 (membersText ["0"])) = .ok [zeroMember] := by
  decide +kernel

theorem collected_node : gcPrim.nodeAt collected.blobs ⟨firstRoot⟩ = some (.leaf [first]) := by
  have hblob : gcPrim.blobAt collected.blobs ⟨firstRoot⟩ = some (leafBlob [firstText]) :=
    collected_blobAt (by simp [gcTables, tables]) (by simp [collected])
  have hencoded := collected_texts.1
  simp only [Primitives.nodeAt, hblob, ← hencoded, Option.bind_eq_bind, Option.bind_some,
    gcPrim.decode_encode_leaf]
  rfl

theorem collected_root {partitionId : Nat} {root : Hash}
    (hroot : gcPrim.CurrentRoot single collected partitionId root) : root = ⟨firstRoot⟩ := by
  have hlocal : collected.index.localRoots[partitionId]? =
      if partitionId = 0 then some ⟨firstRoot⟩ else none := by
    by_cases hzero : partitionId = 0
    · subst hzero
      rfl
    · have hne : 0 ≠ partitionId := fun heq => hzero heq.symm
      simp [collected, hzero, hne]
  rcases hroot with hknown | ⟨hnone, hbound, -⟩
  · rw [hlocal] at hknown
    split at hknown
    · exact (Option.some.inj hknown).symm
    · cases hknown
  · obtain rfl : partitionId = 0 := by
      have hpartitions : single.topLevelPartitions = 1 := rfl
      omega
    rw [hlocal] at hnone
    cases hnone

theorem collected_reached {hash : Hash}
    (hreaches : gcPrim.ReachesNode collected.blobs ⟨firstRoot⟩ hash) : hash = ⟨firstRoot⟩ := by
  induction hreaches with
  | root => rfl
  | child parent held named ih =>
      subst ih
      obtain rfl := Option.some.inj (collected_node.symm.trans held)
      cases named

theorem collected_value {value : Hash}
    (hreaches : gcPrim.ReachesValue collected.blobs ⟨firstRoot⟩ value) : value = first.hash := by
  obtain ⟨hash, node, hhash, hnode, hvalue⟩ := hreaches
  rw [collected_reached hhash, collected_node] at hnode
  obtain rfl := Option.some.inj hnode
  simpa [HamtNode.values] using hvalue

theorem collected_trees (partitionId : Nat) (root : Hash)
    (hroot : gcPrim.CurrentRoot single collected partitionId root) :
    Primitives.WellFormedTree gcPrim values collected.blobs root := by
  obtain rfl := collected_root hroot
  constructor
  · intro hash hreaches
    rw [collected_reached hreaches, collected_node]
    rfl
  · intro value hreaches
    rw [collected_value hreaches]
    have hhash : gcPrim.blake3 (utf8 firstValue) = first.hash :=
      gcTables.blake3_of_mem gcTables_nodup.1 (by simp [gcTables, tables])
    exact ⟨firstValue, rfl, hhash.symm⟩

theorem collected_collisionFree :
    gcPrim.CollisionFree ({held | held ∈ collected.blobs} ∪ Set.image utf8 values) := by
  refine collected_blobs.mono ?_
  rintro blob (hheld | ⟨text, rfl, rfl⟩)
  · exact hheld
  · exact List.mem_cons_of_mem _ (List.mem_cons_self ..)

/-- The record is gone from the index, and the read of its leaf reports a miss. -/
def unindexed : World := { collected with index := { collected.index with records := ∅ } }

def missing (root : Hash) : Prog.Handler daemonSig World
  | .store (.get hash), world =>
      if hash = root then (.ok none, world) else gcPrim.daemonHandler 0 (.store (.get hash)) world
  | op, world => gcPrim.daemonHandler 0 op world

theorem missing_runs {α : Type} (root : Hash) (prog : DaemonProg α) (world : World) :
    Prog.Runs (gcPrim.DaemonStep ⟨True, False, False⟩) prog world
      (prog.run (missing root) world).1 (prog.run (missing root) world).2 := by
  refine (Prog.run_runs (missing root) prog world).imp ?_
  rintro op before response after hcall
  have hstep := gcPrim.daemonStep_daemonHandler ⟨True, False, False⟩ 0 op before
  match op with
  | .store (.get hash) =>
      rw [missing] at hcall
      split at hcall
      · obtain ⟨rfl, rfl⟩ := Prod.mk.inj hcall
        exact ⟨before.blobs, ⟨rfl, Or.inr ⟨trivial, Or.inl rfl⟩⟩, rfl⟩
      · rwa [hcall] at hstep
  | .store (.put bytes) => rwa [show gcPrim.daemonHandler 0 _ before = _ from hcall] at hstep
  | .index op => rwa [show gcPrim.daemonHandler 0 _ before = _ from hcall] at hstep
  | .doc op => rwa [show gcPrim.daemonHandler 0 _ before = _ from hcall] at hstep
  | .now => rwa [show gcPrim.daemonHandler 0 _ before = _ from hcall] at hstep
  | .beginWrite => rwa [show gcPrim.daemonHandler 0 _ before = _ from hcall] at hstep
  | .endWrite => rwa [show gcPrim.daemonHandler 0 _ before = _ from hcall] at hstep
  | .pick others => rwa [show gcPrim.daemonHandler 0 _ before = _ from hcall] at hstep

/-- Whether a collection came to a set without this hash. -/
def leavesOut (hash : Hash) : Prog.Outcome DaemonError (Finset Hash) → Bool
  | .ok live => hash ∉ live
  | _ => false

theorem exists_of_leavesOut {hash : Hash} {outcome : Prog.Outcome DaemonError (Finset Hash)}
    (hleaves : leavesOut hash outcome = true) : ∃ live, outcome = .ok live ∧ hash ∉ live := by
  cases outcome with
  | ok live => exact ⟨live, rfl, of_decide_eq_true hleaves⟩
  | error error => cases hleaves
  | diverged => cases hleaves

/-- The record's value spells out the directory of the similarity index. -/
def shadowed : World where
  blobs := collected.blobs
  index := indexOf directory
  doc := collected.doc
  activeWrites := 0

theorem isccRoot_of_doc {world : World} (hblobs : world.blobs = collected.blobs)
    (hdoc : world.doc = collected.doc) : gcPrim.docRootAt world .isccIndex = some migratedRoot := by
  have hheld : rootContent ∈ collected.blobs := by simp [collected]
  have hread := gcPrim.blobAt_blake3 collected_blobs hheld
  have hentry : collected.doc.entry .isccIndex = some (gcPrim.blake3 rootContent) := rfl
  have hcontent : (if hlength : rootContent.length = 32 then some (hashOfBytes rootContent hlength)
      else none) = some migratedRoot := by decide +kernel
  simp only [Primitives.docRootAt, hblobs, hdoc, hentry, Option.bind_eq_bind,
    Option.bind_some, hread]
  exact hcontent

theorem collected_isccRoot : gcPrim.docRootAt collected .isccIndex = some migratedRoot :=
  isccRoot_of_doc rfl rfl

theorem shadowed_isccRoot : gcPrim.docRootAt shadowed .isccIndex = some migratedRoot :=
  isccRoot_of_doc rfl rfl

theorem directory_reads :
    ReadsAs gcPrim collected.blobs indexFormat.directoryOf migratedRoot
      ((bucketsOf migratedRows).map fun _ hash => .manifest hash) := by
  have hheld : gcPrim.blobAt collected.blobs migratedRoot = some (utf8 directory) :=
    collected_blobAt (by simp [gcTables, isccTables, directory]) (by simp [collected])
  refine ⟨utf8 directory, hheld, ?_⟩
  rw [IndexFormat.directoryOf, collected_texts.2.1]
  rfl

theorem zeroManifest_reads :
    ReadsAs gcPrim collected.blobs indexFormat.parseManifest zeroManifest.hash
      ⟨1, [zeroList.hash]⟩ := by
  have hheld : gcPrim.blobAt collected.blobs zeroManifest.hash =
      some (utf8 (manifestText "1" zeroList)) :=
    collected_blobAt (by simp [gcTables, isccTables]) (by simp [collected])
  exact ⟨utf8 (manifestText "1" zeroList), hheld, collected_texts.2.2.1⟩

theorem collected_isccReadable : IndexReadable gcPrim indexFormat collected.blobs migratedRoot := by
  refine ⟨_, directory_reads, fun key bucket hnamed => ?_⟩
  have hbucket : bucket = .manifest zeroManifest.hash := by
    have hrow : "iscc/00/0000000000000000" = key ∧
        BucketRef.manifest zeroManifest.hash = bucket := by
      simpa [bucketsOf, migratedRows, Std.ExtTreeMap.getElem?_insert] using hnamed
    exact hrow.2.symm
  subst hbucket
  refine ⟨⟨1, [zeroList.hash]⟩, zeroManifest_reads, ?_⟩
  rintro segment hsegment
  obtain rfl : segment = zeroList.hash := by simpa using hsegment
  have hheld : gcPrim.blobAt collected.blobs zeroList.hash = some (utf8 (membersText ["0"])) :=
    collected_blobAt (by simp [gcTables, isccTables]) (by simp [collected])
  exact ⟨[zeroMember], utf8 (membersText ["0"]), hheld, collected_texts.2.2.2⟩

theorem zeroList_indexBlob :
    IndexBlob gcPrim indexFormat collected.blobs migratedRoot zeroList.hash := by
  refine Or.inr ⟨_, directory_reads, "iscc/00/0000000000000000", .manifest zeroManifest.hash, ?_,
    Or.inr ⟨⟨1, [zeroList.hash]⟩, rfl, ?_, List.mem_singleton_self _⟩⟩
  · simp [bucketsOf, migratedRows]
  · exact zeroManifest_reads

theorem collected_notFailing : ¬gcPrim.Failing .none Set.univ collected := by
  rintro (hfault | hfault | ⟨name, content, hentry, hcontent | hnone⟩)
  · exact hfault
  · exact hfault
  · exact hcontent (Set.mem_univ _)
  · cases name with
    | partition partitionId => cases hentry
    | isccIndex => rw [collected_isccRoot] at hnone; cases hnone

theorem collected_apart : Primitives.NodesApart gcPrim single collected :=
  Primitives.nodesApart gcLib_objectTexts values_admitted collected_indexed collected_trees
    collected_collisionFree

/-- The collection comes to a set. -/
theorem collected_ends :
    ∃ live, ((gcPrim.collectLive indexFormat single).run (gcPrim.daemonHandler 0) collected).1 =
      .ok live := by
  have hruns := (gcPrim.daemonHandler_runs .none 0 (gcPrim.collectLive indexFormat single)
    collected).imp fun op before response after hstep => Primitives.DaemonStep.gcStep id hstep
  generalize (gcPrim.collectLive indexFormat single).run (gcPrim.daemonHandler 0) collected = result
    at hruns ⊢
  have hmeets := Primitives.collectLive_outcome (Primitives.collectLive_covers indexFormat
    (Primitives.treesReadable collected_trees) collected_apart) hruns
  generalize result.1 = outcome at hmeets ⊢
  cases outcome with
  | diverged => exact hmeets.elim
  | error error => exact absurd hmeets collected_notFailing
  | ok live => exact ⟨live, rfl⟩

end Sample

namespace Primitives

/-- Both the leaf and its value are protected. -/
theorem protect_set_covers_trees_sample :
    ∃ live, ((Sample.gcPrim.collectLive Sample.indexFormat Sample.single).run
        (Sample.gcPrim.daemonHandler 0) Sample.collected).1 = .ok live ∧
      ⟨Sample.firstRoot⟩ ∈ live ∧ Sample.first.hash ∈ live := by
  have hruns := Sample.gcPrim.daemonHandler_runs .none 0
    (Sample.gcPrim.collectLive Sample.indexFormat Sample.single) Sample.collected
  obtain ⟨live, hlive⟩ := Sample.collected_ends
  rw [hlive] at hruns
  have hroot : Sample.gcPrim.CurrentRoot Sample.single Sample.collected 0 ⟨Sample.firstRoot⟩ :=
    Or.inl rfl
  have hmeets := protect_set_covers_trees Sample.gcLib_objectTexts Sample.values_admitted
    Sample.collected_indexed Sample.collected_trees Sample.collected_collisionFree id hruns
  obtain ⟨hnodes, hvalues⟩ := hmeets.2 0 ⟨Sample.firstRoot⟩ hroot
  refine ⟨live, hlive, hnodes _ .root, hvalues _ ⟨_, _, .root, Sample.collected_node, ?_⟩⟩
  exact List.mem_singleton_self _

/-- With every node read, the set that goes to the sweep has the leaf and its value. -/
theorem protect_set_complete_sample :
    ∃ live, ((Sample.gcPrim.collectLive Sample.indexFormat Sample.single).run
        (Sample.gcPrim.daemonHandler 0) Sample.collected).1 = .ok live ∧
      ⟨Sample.firstRoot⟩ ∈ live ∧ Sample.first.hash ∈ live := by
  have hruns := (Sample.gcPrim.daemonHandler_runs .none 0
    (Sample.gcPrim.collectLive Sample.indexFormat Sample.single) Sample.collected).imp
      fun op before response after hstep => DaemonStep.gcStep id hstep
  obtain ⟨live, hlive⟩ := Sample.collected_ends
  have hroot : Sample.gcPrim.CurrentRoot Sample.single Sample.collected 0 ⟨Sample.firstRoot⟩ :=
    Or.inl rfl
  obtain ⟨hnodes, hvalues⟩ :=
    (protect_set_complete (treesReadable Sample.collected_trees) Sample.collected_apart hruns).2
      live hlive
  refine ⟨live, hlive, hnodes _ ⟨0, _, hroot, .root⟩, hvalues _ ⟨0, _, hroot, _, _, .root,
    Sample.collected_node, ?_⟩⟩
  exact List.mem_singleton_self _

/-- A miss on the leaf is passed over, and the value it names is left to the sweep. -/
theorem protect_set_incomplete :
    ∃ live final, Prog.Runs (Sample.gcPrim.DaemonStep ⟨True, False, False⟩)
        (Sample.gcPrim.collectLive Sample.indexFormat Sample.single) Sample.unindexed (.ok live)
        final ∧
      Sample.gcPrim.TreeValue Sample.single Sample.unindexed Sample.first.hash ∧
      Sample.first.hash ∉ live := by
  have hruns := Sample.missing_runs ⟨Sample.firstRoot⟩
    (Sample.gcPrim.collectLive Sample.indexFormat Sample.single) Sample.unindexed
  have hleaves : Sample.leavesOut Sample.first.hash
      ((Sample.gcPrim.collectLive Sample.indexFormat Sample.single).run
        (Sample.missing ⟨Sample.firstRoot⟩) Sample.unindexed).1 = true := by decide +kernel
  obtain ⟨live, hlive, hleft⟩ := Sample.exists_of_leavesOut hleaves
  rw [hlive] at hruns
  exact ⟨live, _, hruns, ⟨0, ⟨Sample.firstRoot⟩, Or.inl rfl, _, _, .root, Sample.collected_node,
    List.mem_singleton_self _⟩, hleft⟩

/-- A directory that no record spells out is walked, so the segment is protected. -/
theorem similarity_index_protected_sample :
    ∃ live, ((Sample.gcPrim.collectLive Sample.indexFormat Sample.single).run
        (Sample.gcPrim.daemonHandler 0) Sample.collected).1 = .ok live ∧
      Sample.zeroList.hash ∈ live := by
  have hruns := Sample.gcPrim.daemonHandler_runs .none 0
    (Sample.gcPrim.collectLive Sample.indexFormat Sample.single) Sample.collected
  obtain ⟨live, hlive⟩ := Sample.collected_ends
  rw [hlive] at hruns
  have hunnamed :
      ¬NamedBefore Sample.gcPrim Sample.single Sample.collected Sample.migratedRoot := by
    rintro (hvalue | ⟨partitionId, root, hroot, hreaches⟩ | ⟨partitionId, root, hroot, hreaches⟩)
    · revert hvalue
      decide +kernel
    · rw [Sample.collected_root hroot] at hreaches
      exact absurd (Sample.collected_reached hreaches) (by decide +kernel)
    · rw [Sample.collected_root hroot] at hreaches
      exact absurd (Sample.collected_value hreaches) (by decide +kernel)
  have hprotected := (similarity_index_protected_iff Sample.gcLib_objectTexts Sample.values_admitted
    Sample.collected_indexed Sample.collected_trees Sample.collected_collisionFree id
    Sample.collected_isccRoot Sample.collected_isccReadable hruns).mpr (Or.inl hunnamed)
  exact ⟨live, hlive, hprotected _ Sample.zeroList_indexBlob⟩

/-- A record whose value is the directory's own text keeps the walk from being
entered, and the manifest and the segment are left to the sweep. -/
theorem similarity_index_unprotected :
    Sample.gcLib.canonicalValue (.string Sample.directory) = .ok Sample.directory ∧
      IndexedValues Sample.gcPrim {Sample.directory} Sample.shadowed.index ∧
      Sample.gcPrim.docRootAt Sample.shadowed .isccIndex = some Sample.migratedRoot ∧
      IndexReadable Sample.gcPrim Sample.indexFormat Sample.shadowed.blobs Sample.migratedRoot ∧
      ∃ live final, Prog.Runs (Sample.gcPrim.DaemonStep .none)
          (Sample.gcPrim.collectLive Sample.indexFormat Sample.single) Sample.shadowed (.ok live)
          final ∧
        ∃ hash, IndexBlob Sample.gcPrim Sample.indexFormat Sample.shadowed.blobs Sample.migratedRoot
          hash ∧ hash ∉ live := by
  have hruns := Sample.gcPrim.daemonHandler_runs .none 0
    (Sample.gcPrim.collectLive Sample.indexFormat Sample.single) Sample.shadowed
  have hleaves : Sample.leavesOut Sample.zeroList.hash
      ((Sample.gcPrim.collectLive Sample.indexFormat Sample.single).run
        (Sample.gcPrim.daemonHandler 0) Sample.shadowed).1 = true := by decide +kernel
  obtain ⟨live, hlive, hleft⟩ := Sample.exists_of_leavesOut hleaves
  rw [hlive] at hruns
  have hblobs : Sample.shadowed.blobs = Sample.collected.blobs := rfl
  rw [hblobs]
  refine ⟨?_, ?_, Sample.shadowed_isccRoot, Sample.collected_isccReadable, live, _, hruns,
    Sample.zeroList.hash, Sample.zeroList_indexBlob, hleft⟩
  · simp [Libraries.canonicalValue, Sample.gcLib, Sample.directoryJson, Json.isObject]
  · exact Sample.indexOf_indexed Sample.directory

end Primitives

end Registry

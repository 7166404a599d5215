import Registry.Core.BulkTree
import Registry.Daemon.Alone
import Registry.Daemon.Ingest

/-! # Building the trees from the spill files

The last step of a load writes the tree of each partition from its spill file, and then
its root. Of the lines with one key in a spill file the first goes into the tree, while
the index has been bound batch by batch; the two agree where no batch brings a key with
two different entries.
-/

namespace Registry

open Effect

inductive BuildError
  | missingSpill (partitionId : Nat)
  | spillLine (message : String)
  | daemon (error : DaemonError)
  deriving DecidableEq, Repr

abbrev BuildProg := Prog daemonSig BuildError

def carriageReturn : UInt8 := 13

def stripReturn (line : Bytes) : Bytes :=
  if line.getLast? = some carriageReturn then line.dropLast else line

/-- The lines of a file, without their endings. What follows the last newline is kept as
it stands. -/
def withoutReturns : List Bytes → List Bytes
  | [] => []
  | [last] => [last]
  | line :: rest => stripReturn line :: withoutReturns rest

section Build

variable (prim : Primitives) (config : Config)

def parseEntries : List Bytes → Except BuildError (List LeafEntry)
  | [] => .ok []
  | line :: rest =>
      if line = [] then parseEntries rest
      else
        match prim.leafFromJson line with
        | .error message => .error (.spillLine message)
        | .ok entry => (parseEntries rest).map (entry :: ·)

/-- The entries of a spill file. Empty lines are skipped. -/
def readSpill (text : Bytes) : Except BuildError (List LeafEntry) :=
  parseEntries prim (withoutReturns (text.splitOnP (· == newline)))

def openSpill (spills : List Bytes) (partitionId : Nat) : Except BuildError Bytes :=
  match spills[partitionId]? with
  | none => .error (.missingSpill partitionId)
  | some text => .ok text

/-- Build one partition's tree and write its root. -/
def buildPartition (spills : List Bytes) (partitionId : Nat) : BuildProg Unit := do
  let text ← .ofExcept (openSpill spills partitionId)
  let entries ← .ofExcept (readSpill prim text)
  let root ← (onStore (prim.buildFromEntries entries config.leafMaxEntries)).mapError .daemon
  (setPartitionRoot partitionId root).mapError .daemon
  (callIndex (.setLocalRoot partitionId root)).mapError .daemon

/-- `registryd bulk-build`. -/
def buildTrees (spills : List Bytes) : BuildProg Unit :=
  (List.range config.topLevelPartitions).foldlM (fun _ partitionId =>
    buildPartition prim config spills partitionId) ()

end Build

/-! ## Reading a spill file -/

/-- No leaf entry's text ends in a carriage return. -/
def Primitives.TextsEndPlain (prim : Primitives) : Prop :=
  ∀ entry, (prim.leafToJson entry).getLast? ≠ some carriageReturn

section Reading

variable {prim : Primitives}

theorem withoutReturns_spillText (hplain : prim.TextsEndPlain)
    (rows : List (String × IndexRecord)) :
    withoutReturns ((spillText prim rows).splitOnP (· == newline)) =
      rows.map (fun row => prim.leafToJson (row.2.leafEntry row.1)) ++ [[]] := by
  induction rows with
  | nil => rfl
  | cons row rest ih =>
      have hline : ∀ byte ∈ prim.leafToJson (row.2.leafEntry row.1), (byte == newline) = false := by
        intro byte hbyte
        rw [beq_eq_false_iff_ne]
        exact fun heq => prim.newline_notMem_leafToJson _ (heq ▸ hbyte)
      have hstrip : stripReturn (prim.leafToJson (row.2.leafEntry row.1)) =
          prim.leafToJson (row.2.leafEntry row.1) := if_neg (hplain _)
      rw [spillText, List.flatMap_cons, List.append_assoc, List.singleton_append,
        List.splitOnP_append_cons_of_forall_mem hline newline (beq_self_eq_true newline),
        ← spillText]
      cases hrest : (spillText prim rest).splitOnP (· == newline) with
      | nil => exact absurd hrest (List.splitOnP_ne_nil _ _)
      | cons first others =>
          have hunfold :
              withoutReturns (prim.leafToJson (row.2.leafEntry row.1) :: first :: others) =
              stripReturn (prim.leafToJson (row.2.leafEntry row.1)) ::
                withoutReturns (first :: others) := rfl
          rw [hunfold, ← hrest, ih, hstrip, List.map_cons, List.cons_append]

/-- What was spilled is read back. -/
theorem readSpill_spillText (hplain : prim.TextsEndPlain) (rows : List (String × IndexRecord)) :
    readSpill prim (spillText prim rows) = .ok (rows.map fun row => row.2.leafEntry row.1) := by
  rw [readSpill, withoutReturns_spillText hplain]
  induction rows with
  | nil => rfl
  | cons row rest ih =>
      rw [List.map_cons, List.cons_append, parseEntries, if_neg (prim.leafToJson_ne_nil _),
        prim.leafFromJson_toJson, ih]
      rfl

end Reading

/-! ## What a build leaves -/

section Building

variable {prim : Primitives} {config : Config} {spills : List Bytes} {blobUniverse : Set Bytes}

/-- A partition whose root names the tree that its spill file gives. -/
structure TreeBuilt (prim : Primitives) (config : Config) (spills : List Bytes)
    (partitionId : Nat) (world : World) (text : Bytes) (entries : List LeafEntry) (root : Hash) :
    Prop where
  opened : spills[partitionId]? = some text
  read : readSpill prim text = .ok entries
  separates : prim.scheme.Separates config.leafMaxEntries (prim.scheme.firsts [] entries)
  known : world.index.localRoots[partitionId]? = some root
  named : NamesRoot prim world (.partition partitionId) (some root)
  tree : prim.Represents world.blobs (some root) (prim.bulkTrie config.leafMaxEntries entries)

/-- The trees of the first partitions are built, and nothing else has changed. -/
structure TreesBuilt (prim : Primitives) (config : Config) (spills : List Bytes) (start : World)
    (count : Nat) (world : World) : Prop where
  blobs : start.blobs ⊆ world.blobs
  index : world.index = { start.index with localRoots := world.index.localRoots }
  trees : ∀ partitionId < count, ∃ text entries root,
    TreeBuilt prim config spills partitionId world text entries root
  others : ∀ partitionId : Nat, count ≤ partitionId →
    world.index.localRoots[partitionId]? = start.index.localRoots[partitionId]? ∧
      world.doc.entry (.partition partitionId) = start.doc.entry (.partition partitionId)

/-- Why a partition cannot be built: its spill file is missing or is not one, or its keys
cannot be separated. -/
def Unbuildable (prim : Primitives) (config : Config) (spills : List Bytes) (partitionId : Nat) :
    Prop :=
  spills[partitionId]? = none ∨ ∃ text, spills[partitionId]? = some text ∧
    ((∃ error, readSpill prim text = .error error) ∨ ∃ entries, readSpill prim text = .ok entries ∧
      ¬ prim.scheme.Separates config.leafMaxEntries (prim.scheme.firsts [] entries))

theorem TreeBuilt.sameTables {partitionId : Nat} {before after : World} {text : Bytes}
    {entries : List LeafEntry} {root : Hash} (hsame : SameTables before after)
    (hbuilt : TreeBuilt prim config spills partitionId before text entries root) :
    TreeBuilt prim config spills partitionId after text entries root where
  opened := hbuilt.opened
  read := hbuilt.read
  separates := hbuilt.separates
  known := hsame.index ▸ hbuilt.known
  named := hbuilt.named.steady hsame.steady
  tree := hbuilt.tree.mono hsame.blobs

theorem TreesBuilt.sameTables {start before after : World} {count : Nat}
    (hsame : SameTables before after) (hbuilt : TreesBuilt prim config spills start count before) :
    TreesBuilt prim config spills start count after where
  blobs := List.Subset.trans hbuilt.blobs hsame.blobs
  index := hsame.index ▸ hbuilt.index
  trees partitionId hlt := by
    obtain ⟨text, entries, root, htree⟩ := hbuilt.trees partitionId hlt
    exact ⟨text, entries, root, htree.sameTables hsame⟩
  others partitionId hle := by
    rw [hsame.index, hsame.doc]
    exact hbuilt.others partitionId hle

/-- A root that is written to the pointer document and then to the index. -/
theorem TreesBuilt.write {start before : World} {count : Nat}
    (hbuilt : TreesBuilt prim config spills start count before) {text : Bytes}
    {entries : List LeafEntry} {root : Hash} (hopened : spills[count]? = some text)
    (hread : readSpill prim text = .ok entries)
    (hseparates : prim.scheme.Separates config.leafMaxEntries (prim.scheme.firsts [] entries))
    (htree : prim.Represents before.blobs (some root)
      (prim.bulkTrie config.leafMaxEntries entries)) :
    TreesBuilt prim config spills start (count + 1)
      ((prim.setDocBytes before (.partition count) root.bytes.toList).setLocalRoot count root) where
  blobs := List.Subset.trans hbuilt.blobs (List.subset_cons_self _ _)
  index := by
    have hindex := hbuilt.index
    simp only [Primitives.setDocBytes, RecordIndex.setLocalRoot] at hindex ⊢
    rw [hindex]
  trees partitionId hlt := by
    by_cases hlast : partitionId = count
    · subst hlast
      refine ⟨text, entries, root, hopened, hread, hseparates, ?_, ⟨?_, ?_⟩,
        htree.mono (List.subset_cons_self _ _)⟩
      · simp [RecordIndex.setLocalRoot]
      · simp [Primitives.setDocBytes]
      · intro hash hhash
        obtain rfl : root = hash := Option.some.inj hhash
        exact List.mem_cons_self
    · obtain ⟨text, entries, other, htree⟩ := hbuilt.trees partitionId (by omega)
      have hne : count ≠ partitionId := fun heq => hlast heq.symm
      refine ⟨text, entries, other, htree.opened, htree.read, htree.separates, ?_, ⟨?_, ?_⟩,
        htree.tree.mono (List.subset_cons_self _ _)⟩
      · simpa [RecordIndex.setLocalRoot, Primitives.setDocBytes,
          Std.ExtTreeMap.getElem?_insert, hne] using htree.known
      · simpa [Primitives.setDocBytes, hne] using htree.named.entry
      · exact fun hash hhash => List.mem_cons_of_mem _ (htree.named.content hash hhash)
  others partitionId hle := by
    have hne : count ≠ partitionId := by omega
    obtain ⟨hlocal, hdoc⟩ := hbuilt.others partitionId (by omega)
    constructor
    · simpa [RecordIndex.setLocalRoot, Primitives.setDocBytes, Std.ExtTreeMap.getElem?_insert, hne]
        using hlocal
    · simpa [Primitives.setDocBytes, hne] using hdoc

/-- The build runs alone and without faults. -/
abbrev buildSetting (prim : Primitives) (blobUniverse : Set Bytes) : Setting daemonSig World :=
  aloneSetting prim .none blobUniverse fun _ => True

theorem setPartitionRoot_build_valid {fails : DaemonError → World → Prop} (partitionId : Nat)
    (root : Hash) (world : World) :
    Valid (buildSetting prim blobUniverse)
      (fun _ after => after = prim.setDocBytes world (.partition partitionId) root.bytes.toList)
      fails (setPartitionRoot partitionId root) world := by
  rintro before rfl - response after ⟨hstep, hblobs⟩
  rcases hstep with ⟨rfl, rfl⟩ | ⟨hfault, -⟩
  · exact ⟨⟨hblobs, trivial⟩, trivial, rfl⟩
  · exact hfault.elim

theorem buildPartition_valid (start : World) {count : Nat} {world : World}
    (hworld : TreesBuilt prim config spills start count world) :
    Valid (buildSetting prim blobUniverse)
      (fun _ after => TreesBuilt prim config spills start (count + 1) after)
      (fun _ after => TreesBuilt prim config spills start count after ∧
        Unbuildable prim config spills count)
      (buildPartition prim config spills count) world := by
  apply Valid.bind
  refine Valid.ofExcept ?_ ?_
  · intro text htext
    have hopened : spills[count]? = some text := by
      unfold openSpill at htext
      split at htext
      next => cases htext
      next found hfound => exact hfound.trans (congrArg some (Except.ok.inj htext))
    apply Valid.bind
    refine Valid.ofExcept ?_ fun error herror =>
      ⟨hworld, Or.inr ⟨text, hopened, Or.inl ⟨error, herror⟩⟩⟩
    intro entries hread
    apply Valid.bind
    apply Valid.mapError
    have hkept : Kept (buildSetting prim blobUniverse) TreeOp
        (TreesBuilt prim config spills start count) :=
      (aloneSetting_kept (fun _ _ _ _ => trivial)
        (fun _ _ hsame _ hbuilt => hbuilt.sameTables hsame)).mono fun _ hop => hop.keepsTables
    have hbuild : Valid (prim.storeSetting Faults.none.store blobUniverse) _ _
        (prim.buildFromEntries entries config.leafMaxEntries) world.blobs :=
      Primitives.buildFromEntries_valid config.leafMaxEntries entries
    refine Valid.mono ?_ ?_ (onStore_valid (S := buildSetting prim blobUniverse)
      (fun _ _ _ _ hsem => hsem.1) (fun _ hinv => hinv.1) hkept
      (fun _ _ hlater => hlater ▸ List.Subset.refl _) hworld hbuild)
    · rintro root stored ⟨hstored, ⟨hhash, hheld⟩, hseparates⟩
      have htree : prim.Represents stored.blobs (some root)
          (prim.bulkTrie config.leafMaxEntries entries) :=
        ⟨hhash, hheld, Primitives.wellFormed_bulkTrie config.leafMaxEntries entries⟩
      apply Valid.bind
      apply Valid.mapError
      refine Valid.mono ?_ (fun _ _ h => h)
        (setPartitionRoot_build_valid count root stored)
      rintro - pointed rfl
      apply Valid.mapError
      exact callIndex_alone fun _ => ⟨trivial, hstored.write hopened hread hseparates htree⟩
    · rintro error after ⟨hafter, inner, -, hfault | ⟨-, hclash⟩⟩
      · exact hfault.elim
      · exact ⟨hafter, Or.inr ⟨text, hopened, Or.inr ⟨entries, hread, hclash⟩⟩⟩
  · intro error herror
    refine ⟨hworld, Or.inl ?_⟩
    unfold openSpill at herror
    split at herror
    next hnone => exact hnone
    next => cases herror

variable (blobUniverse) in
/-- The trees are built one after the other, up to the first that cannot be built. -/
theorem buildTrees_valid (start : World) :
    Valid (buildSetting prim blobUniverse)
      (fun _ after => TreesBuilt prim config spills start config.topLevelPartitions after)
      (fun _ after => ∃ count < config.topLevelPartitions,
        TreesBuilt prim config spills start count after ∧ Unbuildable prim config spills count)
      (buildTrees prim config spills) start := by
  let I : List Nat → Unit → World → Prop := fun rest _ world => ∃ count left,
    count + left = config.topLevelPartitions ∧ rest = List.range' count left ∧
      TreesBuilt prim config spills start count world
  have hinit : I (List.range config.topLevelPartitions) () start := by
    refine ⟨0, config.topLevelPartitions, Nat.zero_add _, List.range_eq_range', ?_⟩
    exact ⟨List.Subset.refl _, rfl, fun _ hlt => absurd hlt (Nat.not_lt_zero _),
      fun _ _ => ⟨rfl, rfl⟩⟩
  refine Valid.mono ?_ (fun _ _ h => h) (Valid.foldlM I ?_ hinit)
  · rintro - after ⟨count, left, hcount, hrest, hafter⟩
    obtain rfl : left = 0 := by simpa using hrest.symm
    exact hcount ▸ hafter
  · rintro partitionId rest - world ⟨count, left, hcount, hrest, hworld⟩
    cases left with
    | zero => cases hrest
    | succ left =>
        obtain ⟨rfl, rfl⟩ := List.cons.inj hrest
        refine Valid.mono ?_ ?_ (buildPartition_valid start hworld)
        · exact fun _ after hafter => ⟨partitionId + 1, left, by omega, rfl, hafter⟩
        · exact fun _ after ⟨hafter, hfull⟩ => ⟨partitionId, by omega, hafter, hfull⟩

end Building

end Registry

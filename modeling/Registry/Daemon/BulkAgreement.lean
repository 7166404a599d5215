import Registry.Daemon.BuildTrees
import Registry.Daemon.Retimestamp

/-! # The index and the trees after a load

The tree of a partition has the first line of each key. The index has the last line of
the batch that brought the key, so that the two agree exactly where these lines give the
same leaf entry.
-/

namespace Registry

open Effect

section Agreement

variable (prim : Primitives) (lib : Libraries) (config : Config) (readLine : DumpReader)
  (clock : Nat → ClockReading)

/-- A root of a partition, in the index or in the pointer document. -/
def IsRoot (world : World) (partitionId : Nat) (root : Hash) : Prop :=
  world.index.localRoots[partitionId]? = some root ∨
    NamesRoot prim world (.partition partitionId) (some root)

/-- Every key that resolves in a tree resolves to the entry of its record, which is the
entry of its first valid line. -/
def BulkAgrees (dump : String) (world : World) : Prop :=
  ∀ partitionId root key entry, IsRoot prim world partitionId root →
    (prim.lookup (some root) key).run prim.memoryStore world.blobs =
      (.ok (some entry), world.blobs) →
    ∃ (record : IndexRecord) (row : IngestRow), world.index.records[key]? = some record ∧
      entry = record.leafEntry key ∧
      (dumpRows prim lib config readLine clock dump).find? (fun row => row.key = key) = some row ∧
      record.leafEntry key = row.record.leafEntry key

/-- In the batch that brings a key, its last line gives the entry that its first gives. -/
def LinesSettle (batches : List (List IngestRow)) : Prop :=
  ∀ key first last, firstLine batches key = some first → lastLine batches key = some last →
    last.record.leafEntry key = first.record.leafEntry key

/-- The data directory and the spill files after chunks of these lengths. -/
def bulkLoaded (dump : String) (limits : List Nat) : Loaded :=
  ingestChunks prim lib config readLine clock dump 0 limits .empty

variable {prim lib config readLine clock} {dump : String} {limits : List Nat}

/-- What the load has bound and spilled. -/
theorem bulkLoaded_eq :
    (bulkLoaded prim lib config readLine clock dump limits).openSpills config.topLevelPartitions =
      (chunkBatches prim lib config readLine clock dump 0 limits).foldl (flushBatch prim)
        (Loaded.empty.openSpills config.topLevelPartitions) :=
  ingestChunks_eq dump 0 limits .empty

theorem bulkLoaded_records (key : String) :
    (bulkLoaded prim lib config readLine clock dump limits).world.index.records[key]? =
      (lastLine (chunkBatches prim lib config readLine clock dump 0 limits) key).map
        IngestRow.record := by
  have hrecords := load_records prim
    (chunkBatches prim lib config readLine clock dump 0 limits)
    (Loaded.empty.openSpills config.topLevelPartitions) key
  rw [← bulkLoaded_eq] at hrecords
  simpa [Loaded.openSpills, Loaded.empty, World.empty, RecordIndex.empty] using hrecords

theorem bulkLoaded_roots :
    (bulkLoaded prim lib config readLine clock dump limits).world.doc = .empty ∧
      (bulkLoaded prim lib config readLine clock dump limits).world.index.localRoots = ∅ := by
  obtain ⟨hdoc, hindex⟩ := load_rest prim
    (chunkBatches prim lib config readLine clock dump 0 limits)
    (Loaded.empty.openSpills config.topLevelPartitions)
  rw [← bulkLoaded_eq] at hdoc hindex
  exact ⟨hdoc, congrArg RecordIndex.localRoots hindex⟩

/-- The rows that the load spills, in order. -/
abbrev bulkSpilled (prim : Primitives) (lib : Libraries) (config : Config) (readLine : DumpReader)
    (clock : Nat → ClockReading) (dump : String) (limits : List Nat) :
    List (String × IndexRecord) :=
  spilled prim (Loaded.empty.openSpills config.topLevelPartitions)
    (chunkBatches prim lib config readLine clock dump 0 limits)

theorem bulkLoaded_spills {partitionId : Nat} {text : Bytes}
    (hlt : partitionId < config.topLevelPartitions)
    (hopened : (bulkLoaded prim lib config readLine clock dump limits).spills[partitionId]? =
      some text) :
    text = spillText prim (ofPartition partitionId
      (bulkSpilled prim lib config readLine clock dump limits)) := by
  have hspills := load_spills prim
    (chunkBatches prim lib config readLine clock dump 0 limits)
    (Loaded.empty.openSpills config.topLevelPartitions) partitionId
  rw [← bulkLoaded_eq] at hspills
  have hread : ((bulkLoaded prim lib config readLine clock dump limits).openSpills
      config.topLevelPartitions).spills[partitionId]? = some text := by
    simp [Loaded.openSpills, hlt, hopened]
  have hempty :
      (Loaded.empty.openSpills config.topLevelPartitions).spills[partitionId]? = some [] := by
    simp [Loaded.openSpills, Loaded.empty, hlt]
  rw [hread, hempty] at hspills
  simpa using hspills

theorem placed_bulkSpilled :
    Placed (fun key => prim.partitionIdForKey key config.topLevelPartitions)
      (bulkSpilled prim lib config readLine clock dump limits) := by
  apply placed_spilled
  · intro key record hrecord
    simp [Loaded.openSpills, Loaded.empty, World.empty, RecordIndex.empty] at hrecord
  · intro row hrow
    rw [flatten_chunkBatches, chunkRows, List.drop_zero] at hrow
    obtain ⟨line, hline, hrow⟩ := List.mem_filterMap.mp hrow
    have hmem : row ∈ dumpRows prim lib config readLine clock dump :=
      List.mem_filterMap.mpr ⟨line, List.mem_of_mem_take hline, hrow⟩
    exact partitionId_of_mem_dumpRows hmem

/-- The tree of a partition has the first lines of its keys. -/
theorem TreeBuilt.lookup (hplain : prim.TextsEndPlain) {partitionId : Nat} {world : World}
    {text : Bytes} {entries : List LeafEntry} {root : Hash}
    (hfree : prim.CollisionFree {held | held ∈ world.blobs})
    (hlt : partitionId < config.topLevelPartitions)
    (hbuilt : TreeBuilt prim config (bulkLoaded prim lib config readLine clock dump limits).spills
      partitionId world text entries root) (key : String) :
    (prim.lookup (some root) key).run prim.memoryStore world.blobs =
      (.ok (if prim.partitionIdForKey key config.topLevelPartitions = partitionId then
        (firstLine (chunkBatches prim lib config readLine clock dump 0 limits) key).map fun row =>
          row.record.leafEntry key
        else none), world.blobs) := by
  have hread := hbuilt.read
  rw [bulkLoaded_spills hlt hbuilt.opened, readSpill_spillText hplain, Except.ok.injEq] at hread
  have hnew :
      (Loaded.empty.openSpills config.topLevelPartitions).world.index.records[key]? = none := by
    simp [Loaded.openSpills, Loaded.empty, World.empty, RecordIndex.empty]
  have hfind : entries.find? (fun entry => entry.key = key) =
      ((ofPartition partitionId (bulkSpilled prim lib config readLine clock dump limits)).find?
        fun row => row.1 = key).map fun row => row.2.leafEntry row.1 := by
    rw [← hread, List.find?_map]
    rfl
  rw [Primitives.lookup_run hfree key hbuilt.tree, Primitives.find_bulkTrie, hfind,
    find?_ofPartition placed_bulkSpilled]
  split
  next =>
    rw [find?_spilled _ hnew, Option.map_map]
    rfl
  next => rfl

/-- Every root is that of a tree that was built. -/
theorem TreesBuilt.of_isRoot {world : World} {count partitionId : Nat} {root : Hash}
    (hfree : prim.CollisionFree {held | held ∈ world.blobs})
    (hbuilt : TreesBuilt prim config (bulkLoaded prim lib config readLine clock dump limits).spills
      (bulkLoaded prim lib config readLine clock dump limits).world count world)
    (hroot : IsRoot prim world partitionId root) :
    partitionId < count ∧ ∃ text entries, TreeBuilt prim config
      (bulkLoaded prim lib config readLine clock dump limits).spills partitionId world text entries
      root := by
  obtain ⟨hdoc, hlocal⟩ :
      (bulkLoaded prim lib config readLine clock dump limits).world.doc = .empty ∧
        (bulkLoaded prim lib config readLine clock dump limits).world.index.localRoots = ∅ :=
    bulkLoaded_roots
  by_cases hlt : partitionId < count
  · obtain ⟨text, entries, other, htree⟩ := hbuilt.trees partitionId hlt
    have hsame : other = root := by
      rcases hroot with hknown | hnamed
      · exact Option.some.inj (htree.known.symm.trans hknown)
      · exact Option.some.inj (htree.named.unique hfree hnamed)
    exact ⟨hlt, text, entries, hsame ▸ htree⟩
  · obtain ⟨hknown, hentry⟩ := hbuilt.others partitionId (not_lt.mp hlt)
    rcases hroot with hroot | hroot
    · rw [hknown, hlocal] at hroot
      simp at hroot
    · have hnone := hroot.entry
      rw [hentry, hdoc] at hnone
      simp [PointerDoc.empty, PointerDoc.entry] at hnone

/-- After a load and a build, index and trees agree if and, where the build has come to
its end, only if in every batch that brings a key the last line of the key gives the leaf
entry that the first gives. -/
theorem bulkLoad_agrees_iff (hplain : prim.TextsEndPlain)
    (hpartitions : 0 < config.topLevelPartitions)
    (clock : Nat → ClockReading) (dump : String) (limits : List Nat)
    {outcome : Prog.Outcome BuildError Unit} {final : World}
    (hruns : Prog.Runs (prim.DaemonStep .none)
      (buildTrees prim config (bulkLoaded prim lib config readLine clock dump limits).spills)
      (bulkLoaded prim lib config readLine clock dump limits).world outcome final)
    (hfree : prim.CollisionFree {held | held ∈ final.blobs}) :
    (LinesSettle (chunkBatches prim lib config readLine clock dump 0 limits) →
      BulkAgrees prim lib config readLine clock dump final) ∧
    (outcome = .ok () → BulkAgrees prim lib config readLine clock dump final →
      LinesSettle (chunkBatches prim lib config readLine clock dump 0 limits)) := by
  let loaded := bulkLoaded prim lib config readLine clock dump limits
  have hwithin : ∀ blob ∈ final.blobs, blob ∈ {held | held ∈ final.blobs} :=
    fun _ hblob => hblob
  have hended : outcome.Meets
      (fun _ after => TreesBuilt prim config loaded.spills loaded.world config.topLevelPartitions
        after)
      (fun _ after => ∃ count < config.topLevelPartitions,
        TreesBuilt prim config loaded.spills loaded.world count after ∧
          Unbuildable prim config loaded.spills count) final :=
    aloneSetting_outcome (buildTrees_valid {held | held ∈ final.blobs} loaded.world) hruns hwithin
      trivial
  have hcount : ∃ count ≤ config.topLevelPartitions,
      TreesBuilt prim config loaded.spills loaded.world count final ∧
        (outcome = .ok () → count = config.topLevelPartitions) := by
    cases outcome with
    | ok value => exact ⟨_, le_rfl, hended, fun _ => rfl⟩
    | error error =>
        obtain ⟨count, hlt, hbuilt, -⟩ := hended
        exact ⟨count, hlt.le, hbuilt, nofun⟩
    | diverged => exact hended.elim
  obtain ⟨count, hle, hbuilt, hall⟩ := hcount
  have hrecords : ∀ key : String, final.index.records[key]? =
      (lastLine (chunkBatches prim lib config readLine clock dump 0 limits) key).map
        IngestRow.record := by
    intro key
    rw [hbuilt.index]
    exact bulkLoaded_records key
  constructor
  · intro hsettle partitionId root key entry hroot hlookup
    obtain ⟨hlt, text, entries, htree⟩ := hbuilt.of_isRoot hfree hroot
    have hfound := (htree.lookup hplain hfree (hlt.trans_le hle) key).symm.trans hlookup
    rw [Prod.mk.injEq, Prog.Outcome.ok.injEq, Option.ite_none_right_eq_some] at hfound
    obtain ⟨first, hfirst, hentry⟩ := Option.map_eq_some_iff.mp hfound.1.2
    have hbrought :
        (lastLine (chunkBatches prim lib config readLine clock dump 0 limits) key).isSome := by
      rw [lastLine_isSome, hfirst]
      rfl
    obtain ⟨last, hlast⟩ := Option.isSome_iff_exists.mp hbrought
    have hsame := hsettle key first last hfirst hlast
    refine ⟨last.record, first, ?_, hentry.symm.trans hsame.symm, find?_dumpRows hfirst, hsame⟩
    rw [hrecords, hlast]
    rfl
  · intro hok hagrees key first last hfirst hlast
    let partitionId := prim.partitionIdForKey key config.topLevelPartitions
    have hlt : partitionId < config.topLevelPartitions := Nat.mod_lt _ hpartitions
    obtain ⟨text, entries, root, htree⟩ := hbuilt.trees partitionId (hall hok ▸ hlt)
    have hlookup := htree.lookup hplain hfree hlt key
    rw [if_pos rfl, hfirst, Option.map_some] at hlookup
    obtain ⟨record, row, hrecord, hentry, -, -⟩ :=
      hagrees partitionId root key _ (Or.inl htree.known) hlookup
    rw [hrecords, hlast] at hrecord
    rw [hentry, ← Option.some.inj hrecord]

end Agreement

/-! ## A dump with one key -/

theorem Tables.textsEndPlain (tables : Tables)
    (htexts : tables.texts.all fun row => (utf8 row.2).getLast? ≠ some carriageReturn) :
    tables.primitives.TextsEndPlain := by
  intro entry
  change (tables.textOf entry).getLast? ≠ some carriageReturn
  unfold Tables.textOf
  split
  next row hrow =>
    simpa using List.all_eq_true.mp htexts row (List.mem_of_find?_eq_some hrow)
  next =>
    intro hlast
    rcases List.mem_cons.mp (List.mem_of_getLast? hlast) with hmark | hdigit
    · exact absurd hmark (by decide)
    · obtain ⟨digit, hlt, heq⟩ := numeral_digit hdigit
      have hvalue := congrArg UInt8.toNat heq
      simp only [carriageReturn, UInt8.toNat_ofNat', UInt8.reduceToNat] at hvalue
      omega

namespace Sample

def earlyEntry : LeafEntry := ⟨firstKey, earlyHash, 27, createdAt, none⟩
def lateEntry : LeafEntry := ⟨firstKey, lateHash, 27, 1714608000 * 1000000000, none⟩

def earlyText : String :=
  "\x7b\"key\":\"bafybeigdyrzt5sfp7udm7hu76uh7y26nf3efuylqabf3oclgtqy55fbzdi\"," ++
  "\"hash\":\"117a35a06d48120e717fc9530558aa02ea22b2b08f543211e3734e691aa4a00a\"," ++
  "\"size\":27,\"added_at\":\"2024-05-01T00:00:00Z\"\x7d"

def lateText : String :=
  "\x7b\"key\":\"bafybeigdyrzt5sfp7udm7hu76uh7y26nf3efuylqabf3oclgtqy55fbzdi\"," ++
  "\"hash\":\"a2ddf8ac11bff2c553d912afca17e02cf70738e99fccbe1973281f0da8174195\"," ++
  "\"size\":27,\"added_at\":\"2024-05-02T00:00:00Z\"\x7d"

def earlyRoot : Vector UInt8 32 :=
  bytes32 0x809ec1f3136ce760165df31e26602f75ddc5ecf7332f1040c059050ad9f8e789

/-- The two values, the tree that holds the earlier one, and its pointer-document entry. -/
def bulkTables : Tables where
  texts := [(earlyEntry, earlyText), (lateEntry, lateText)]
  digests := tables.digests
  hashes :=
    [(utf8 earlyValue, earlyHash), (utf8 lateValue, lateHash), (leafBlob [earlyText], ⟨earlyRoot⟩),
      (earlyRoot.toList,
        ⟨bytes32 0xdd6991b3305dbd447a00f49b50c5a0a84f402b3018dfd73978d10c14b1a27fac⟩)]
  texts_valid := by decide +kernel

def bulkPrim : Primitives := bulkTables.primitives

def bulkClock (_ : Nat) : ClockReading := ⟨createdAt, createdAt⟩

/-- The data directory after one chunk with the whole dump. -/
def bulkLoad (dump : String) : Loaded :=
  bulkLoaded bulkPrim stampLib single stampReader bulkClock dump [100000]

def bulkBuild (dump : String) : Prog.Outcome BuildError Unit × World :=
  (buildTrees bulkPrim single (bulkLoad dump).spills).run (bulkPrim.daemonHandler createdAt)
    (bulkLoad dump).world

/-- The earlier value twice. -/
def repeatedDump : String := dumpLine earlyValue ++ "\n" ++ dumpLine earlyValue ++ "\n"

theorem textsEndPlain_bulkPrim : bulkPrim.TextsEndPlain :=
  bulkTables.textsEndPlain (by decide +kernel)

/-- What the line of the earlier value gives. -/
def earlyRow : IngestRow where
  key := firstKey
  value := earlyValue
  record := ⟨earlyHash, 27, 0, .published, createdAt, none, some createdAt⟩

theorem bulkTables_collisionFree : bulkPrim.CollisionFree
    {held | held ∈ bulkTables.hashes.map Prod.fst} :=
  bulkTables.collisionFree (by decide +kernel) (by decide +kernel)

end Sample

/-- A value that differs from an earlier one in the same batch takes the earlier one's
place in the index, while the tree keeps the earlier one. -/
theorem bulkLoad_disagrees :
    (Sample.bulkBuild Sample.stampDump).1 = .ok () ∧
      Sample.bulkPrim.CollisionFree {held | held ∈ (Sample.bulkBuild Sample.stampDump).2.blobs} ∧
      ¬ BulkAgrees Sample.bulkPrim Sample.stampLib Sample.single Sample.stampReader Sample.bulkClock
        Sample.stampDump (Sample.bulkBuild Sample.stampDump).2 := by
  have hbuild : (Sample.bulkBuild Sample.stampDump).1 = .ok () ∧
      (∀ blob ∈ (Sample.bulkBuild Sample.stampDump).2.blobs,
        blob ∈ Sample.bulkTables.hashes.map Prod.fst) ∧
      (Sample.bulkBuild Sample.stampDump).2.index.localRoots[0]? = some ⟨Sample.earlyRoot⟩ ∧
      ((Sample.bulkBuild Sample.stampDump).2.index.records[Sample.firstKey]?.map
        IndexRecord.contentHash) = some Sample.lateHash ∧
      (Sample.bulkPrim.lookup (some ⟨Sample.earlyRoot⟩) Sample.firstKey).run
          Sample.bulkPrim.memoryStore (Sample.bulkBuild Sample.stampDump).2.blobs =
        (.ok (some Sample.earlyEntry), (Sample.bulkBuild Sample.stampDump).2.blobs) := by
    decide +kernel
  obtain ⟨hended, hblobs, hroot, hindexed, hlookup⟩ := hbuild
  refine ⟨hended, Sample.bulkTables_collisionFree.mono hblobs, fun hagrees => ?_⟩
  obtain ⟨record, row, hrecord, hentry, -⟩ := hagrees 0 _ _ _ (Or.inl hroot) hlookup
  rw [hrecord, Option.map_some, Option.some.injEq] at hindexed
  have hhash : Sample.earlyHash = record.contentHash := congrArg LeafEntry.hash hentry
  rw [hindexed] at hhash
  exact absurd hhash (by decide +kernel)

/-- A line that is repeated as it is does no harm. -/
theorem bulkLoad_agrees_repeated :
    (Sample.bulkBuild Sample.repeatedDump).1 = .ok () ∧
      BulkAgrees Sample.bulkPrim Sample.stampLib Sample.single Sample.stampReader Sample.bulkClock
        Sample.repeatedDump (Sample.bulkBuild Sample.repeatedDump).2 := by
  have hbuild : (Sample.bulkBuild Sample.repeatedDump).1 = .ok () ∧
      (∀ blob ∈ (Sample.bulkBuild Sample.repeatedDump).2.blobs,
        blob ∈ Sample.bulkTables.hashes.map Prod.fst) ∧
      chunkBatches Sample.bulkPrim Sample.stampLib Sample.single Sample.stampReader Sample.bulkClock
        Sample.repeatedDump 0 [100000] = [[Sample.earlyRow, Sample.earlyRow]] := by
    decide +kernel
  obtain ⟨hended, hblobs, hbatches⟩ := hbuild
  have hruns : Prog.Runs (Sample.bulkPrim.DaemonStep .none)
      (buildTrees Sample.bulkPrim Sample.single (Sample.bulkLoad Sample.repeatedDump).spills)
      (Sample.bulkLoad Sample.repeatedDump).world (Sample.bulkBuild Sample.repeatedDump).1
      (Sample.bulkBuild Sample.repeatedDump).2 :=
    Sample.bulkPrim.daemonHandler_runs .none Sample.createdAt _ _
  have hfree : Sample.bulkPrim.CollisionFree
      {held | held ∈ (Sample.bulkBuild Sample.repeatedDump).2.blobs} :=
    Sample.bulkTables_collisionFree.mono hblobs
  refine ⟨hended, (bulkLoad_agrees_iff Sample.textsEndPlain_bulkPrim Nat.one_pos
    Sample.bulkClock Sample.repeatedDump [100000] hruns hfree).1 ?_⟩
  rw [hbatches]
  intro key first last hfirst hlast
  have hone : first = Sample.earlyRow := by simpa using List.mem_of_find?_eq_some hfirst
  obtain ⟨batch, hbatch, hrow⟩ := List.exists_of_findSome?_eq_some hlast
  have hother : last = Sample.earlyRow := by
    have hmem := List.mem_reverse.mp (List.mem_of_find?_eq_some hrow)
    rw [List.mem_singleton.mp hbatch] at hmem
    simpa using hmem
  rw [hone, hother]

end Registry

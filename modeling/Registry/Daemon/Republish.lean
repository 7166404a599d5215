import Registry.Daemon.BulkAgreement
import Registry.Daemon.Durability
import Registry.Daemon.Readable
import Registry.Daemon.Verify

/-! # Rebuilding the trees from the index

After its dump pass, `retimestamp` writes every published record of the index to a spill
file and builds the trees of all partitions from these files. The trees that were there
before play no part in it: a key resolves afterwards if and only if its record is
published, and to the entry of that record.
-/

namespace Registry

open Effect

/-! ## The spill files of the index -/

namespace RecordIndex

variable (index : RecordIndex)

/-- One line for each published record, in the file of its partition. A record of a
partition that has no file is an index out of bounds, and there is no answer. -/
def spillPublishedEntries (prim : Primitives) (partitions : Nat) : Option (List Bytes) :=
  index.records.toList.foldlM (fun spills (key, record) =>
    if record.status ≠ .published then some spills
    else if record.partitionId < spills.length then some (spillEntry prim spills key record)
    else none) (List.replicate partitions [])

/-- The published records of the index, in the order of their keys. -/
def publishedRecords : List (String × IndexRecord) :=
  index.records.toList.filter fun row => row.2.status = .published

/-- The leaf entry of a published record in a partition. -/
def publishedEntry (partitionId : Nat) (key : String) : Option LeafEntry :=
  match index.records[key]? with
  | none => none
  | some record =>
      if record.status = .published ∧ record.partitionId = partitionId then
        some (record.leafEntry key)
      else none

theorem publishedEntry_eq_some_iff {partitionId : Nat} {key : String} {entry : LeafEntry} :
    index.publishedEntry partitionId key = some entry ↔
      ∃ record : IndexRecord, index.records[key]? = some record ∧ record.status = .published ∧
        record.partitionId = partitionId ∧ record.leafEntry key = entry := by
  unfold publishedEntry
  cases hrecord : index.records[key]? with
  | none => simp
  | some record => simp [and_assoc]

theorem mem_publishedRecords {key : String} {record : IndexRecord} :
    (key, record) ∈ index.publishedRecords ↔
      index.records[key]? = some record ∧ record.status = .published := by
  simp [publishedRecords, Std.ExtTreeMap.mem_toList_iff_getElem?_eq_some]

variable {index} {prim : Primitives} {partitions : Nat}

/-- If every published record has a file, each file gets the records of its partition. -/
theorem spillPublishedEntries_eq
    (hfiles : ∀ (key : String) (record : IndexRecord), index.records[key]? = some record →
      record.status = .published → record.partitionId < partitions) :
    ∃ spills, index.spillPublishedEntries prim partitions = some spills ∧
      spills.length = partitions ∧ ∀ partitionId < partitions, spills[partitionId]? =
        some (spillText prim (ofPartition partitionId index.publishedRecords)) := by
  -- The loop appends to the files, and leaves their number as it is.
  have hloop : ∀ (rows : List (String × IndexRecord)) (spills : List Bytes),
      (∀ row ∈ rows, row.2.status = .published → row.2.partitionId < spills.length) →
      rows.foldlM (fun spills row =>
        if row.2.status ≠ .published then some spills
        else if row.2.partitionId < spills.length then some (spillEntry prim spills row.1 row.2)
        else none) spills =
      some ((rows.filter fun row => row.2.status = .published).foldl
        (fun spills row => spillEntry prim spills row.1 row.2) spills) := by
    intro rows
    induction rows with
    | nil => exact fun _ _ => rfl
    | cons row rest ih =>
        intro spills hrows
        have hrest : ∀ other ∈ rest, other.2.status = .published →
            other.2.partitionId < spills.length :=
          fun other hother => hrows other (List.mem_cons_of_mem _ hother)
        rw [List.foldlM_cons]
        by_cases hstatus : row.2.status = .published
        · have hlt := hrows row List.mem_cons_self hstatus
          rw [if_neg (not_not.mpr hstatus), if_pos hlt,
            List.filter_cons_of_pos (by simpa using hstatus), List.foldl_cons]
          refine ih _ fun other hother hpublished => ?_
          rw [spillEntry, List.length_modify]
          exact hrest other hother hpublished
        · rw [if_pos hstatus, List.filter_cons_of_neg (by simpa using hstatus)]
          exact ih spills hrest
  have hrows : ∀ row ∈ index.records.toList, row.2.status = .published →
      row.2.partitionId < (List.replicate partitions ([] : Bytes)).length := by
    intro row hrow hstatus
    rw [List.length_replicate]
    exact hfiles row.1 row.2 (Std.ExtTreeMap.mem_toList_iff_getElem?_eq_some.mp hrow) hstatus
  refine ⟨_, hloop index.records.toList _ hrows, ?_, fun partitionId hlt => ?_⟩
  · generalize (index.records.toList.filter fun row => row.2.status = .published) = rows
    have hlength : ∀ spills : List Bytes, (rows.foldl
        (fun spills row => spillEntry prim spills row.1 row.2) spills).length = spills.length := by
      induction rows with
      | nil => exact fun _ => rfl
      | cons row rest ih =>
          intro spills
          rw [List.foldl_cons, ih, spillEntry, List.length_modify]
    rw [hlength, List.length_replicate]
  · rw [getElem?_spillEntries, List.getElem?_replicate_of_lt hlt, Option.map_some, List.nil_append]
    rfl

/-- The records of a partition have different keys, so that looking a key up in their list
is looking it up in the index. -/
theorem find?_publishedRecords (index : RecordIndex) (partitionId : Nat) (key : String) :
    ((ofPartition partitionId index.publishedRecords).map fun row => row.2.leafEntry row.1).find?
      (fun entry => entry.key = key) = index.publishedEntry partitionId key := by
  have hmem : ∀ entry : LeafEntry,
      entry ∈ (ofPartition partitionId index.publishedRecords).map
        (fun row => row.2.leafEntry row.1) ↔
      index.publishedEntry partitionId entry.key = some entry := by
    intro entry
    rw [publishedEntry_eq_some_iff]
    simp only [ofPartition, List.mem_map, List.mem_filter, Prod.exists, mem_publishedRecords,
      decide_eq_true_eq]
    constructor
    · rintro ⟨other, record, ⟨⟨hrecord, hstatus⟩, hpartition⟩, rfl⟩
      exact ⟨record, hrecord, hstatus, hpartition, rfl⟩
    · rintro ⟨record, hrecord, hstatus, hpartition, hentry⟩
      exact ⟨entry.key, record, ⟨⟨hrecord, hstatus⟩, hpartition⟩, hentry⟩
  cases hfound : ((ofPartition partitionId index.publishedRecords).map
      fun row => row.2.leafEntry row.1).find? (fun entry => entry.key = key) with
  | some entry =>
      have hkey : entry.key = key := by simpa using List.find?_some hfound
      rw [← hkey, (hmem entry).mp (List.mem_of_find?_eq_some hfound)]
  | none =>
      cases hentry : index.publishedEntry partitionId key with
      | none => rfl
      | some entry =>
          obtain ⟨record, -, -, -, hleaf⟩ := index.publishedEntry_eq_some_iff.mp hentry
          have hkey : entry.key = key := by
            rw [← hleaf]
            rfl
          have hnone := List.find?_eq_none.mp hfound entry ((hmem entry).mpr (hkey ▸ hentry))
          simp [hkey] at hnone

end RecordIndex

/-! ## The command -/

section Command

variable (prim : Primitives) (lib : Libraries) (config : Config) (readLine : DumpReader)

/-- `registryd retimestamp`: the data directory after the dump pass, and the build that is
then run on it. -/
def retimestamp (dump : String) (world : World) : Option (World × BuildProg Unit) := do
  let index := retimestampPass lib readLine world.index dump
  let spills ← index.spillPublishedEntries prim config.topLevelPartitions
  pure ({ world with index := index }, buildTrees prim config spills)

/-- A partition whose two roots name one tree, in which exactly the published records of
the partition resolve. -/
structure Republished (partitionId : Nat) (root : Hash) (world : World) : Prop where
  known : world.index.localRoots[partitionId]? = some root
  named : NamesRoot prim world (.partition partitionId) (some root)
  stored : ∃ trie, prim.Represents world.blobs (some root) trie
  lookup : ∀ key, (prim.lookup (some root) key).run prim.memoryStore world.blobs =
    (.ok (world.index.publishedEntry partitionId key), world.blobs)

end Command

section Rebuilding

variable {prim : Primitives} {lib : Libraries} {config : Config} {readLine : DumpReader}
  {faults : Faults}

/-- The tree of a partition that was built from the spill file of some records. -/
theorem TreeBuilt.lookup_rows (hplain : prim.TextsEndPlain) {partitionId : Nat} {world : World}
    {spills : List Bytes} {text : Bytes} {entries : List LeafEntry} {root : Hash}
    {rows : List (String × IndexRecord)} (hfree : prim.CollisionFree {held | held ∈ world.blobs})
    (hspill : spills[partitionId]? = some (spillText prim rows))
    (hbuilt : TreeBuilt prim config spills partitionId world text entries root) (key : String) :
    (prim.lookup (some root) key).run prim.memoryStore world.blobs =
      (.ok ((rows.map fun row => row.2.leafEntry row.1).find? fun entry => entry.key = key),
        world.blobs) := by
  obtain rfl : spillText prim rows = text := Option.some.inj (hspill.symm.trans hbuilt.opened)
  have hread := hbuilt.read
  rw [readSpill_spillText hplain, Except.ok.injEq] at hread
  rw [Primitives.lookup_run hfree key hbuilt.tree, Primitives.find_bulkTrie, hread]

/-- What the build leaves of a partition whose tree it has written. -/
theorem TreeBuilt.republished (hplain : prim.TextsEndPlain) {partitionId : Nat} {world : World}
    {spills : List Bytes} {text : Bytes} {entries : List LeafEntry} {root : Hash}
    {index : RecordIndex} (hfree : prim.CollisionFree {held | held ∈ world.blobs})
    (hspill : spills[partitionId]? =
      some (spillText prim (ofPartition partitionId index.publishedRecords)))
    (hindex : world.index = { index with localRoots := world.index.localRoots })
    (hbuilt : TreeBuilt prim config spills partitionId world text entries root) :
    Republished prim partitionId root world where
  known := hbuilt.known
  named := hbuilt.named
  stored := ⟨_, hbuilt.tree⟩
  lookup key := by
    rw [hbuilt.lookup_rows hplain hfree hspill key, index.find?_publishedRecords]
    have hsame : world.index.publishedEntry partitionId key =
        index.publishedEntry partitionId key := by
      rw [hindex]
      rfl
    rw [hsame]

theorem Unbuildable.clash (hplain : prim.TextsEndPlain) {partitionId : Nat} {spills : List Bytes}
    {rows : List (String × IndexRecord)}
    (hspill : spills[partitionId]? = some (spillText prim rows))
    (hfull : Unbuildable prim config spills partitionId) :
    prim.DigestsClash config.leafMaxEntries (rows.map fun row => row.2.leafEntry row.1) := by
  rcases hfull with hnone | ⟨text, htext, hread⟩
  · rw [hnone] at hspill
    cases hspill
  · obtain rfl : spillText prim rows = text := Option.some.inj (hspill.symm.trans htext)
    rw [readSpill_spillText hplain] at hread
    rcases hread with ⟨error, herror⟩ | ⟨entries, hentries, hclash⟩
    · cases herror
    · rw [Except.ok.inj hentries]
      exact Primitives.digestsClash_of_not_separates hclash

/-- The dump pass changes the time of a record, and neither its status nor its place. -/
theorem getElem?_retimestampPass {index : RecordIndex} {dump key : String} {record : IndexRecord}
    (hrecord : (retimestampPass lib readLine index dump).records[key]? = some record) :
    ∃ earlier : IndexRecord, index.records[key]? = some earlier ∧
      earlier.status = record.status ∧ earlier.partitionId = record.partitionId := by
  rw [retimestampPass_eq, (index.updateCreatedAt_eq _).1] at hrecord
  obtain ⟨earlier, hearlier, rfl⟩ := Option.map_eq_some_iff.mp hrecord
  exact ⟨earlier, hearlier, rfl, rfl⟩

variable (prim config) in
/-- The trees of the first partitions are rebuilt from an index, and those of the others are
as they were. -/
structure RebuiltTo (count : Nat) (index : RecordIndex) (before after : World) : Prop where
  blobs : before.blobs ⊆ after.blobs
  index : after.index = { index with localRoots := after.index.localRoots }
  rebuilt : ∀ partitionId < count, ∃ root, Republished prim partitionId root after
  kept : ∀ partitionId : Nat, count ≤ partitionId →
    after.index.localRoots[partitionId]? = before.index.localRoots[partitionId]? ∧
      after.doc.entry (.partition partitionId) = before.doc.entry (.partition partitionId)

/-- Every published record of a stopped daemon has a spill file. -/
theorem retimestamp_files (hpartitions : 0 < config.topLevelPartitions) {state : DaemonState}
    (hreachable : Reachable prim lib config faults state) (dump key : String) (record : IndexRecord)
    (hrecord : (retimestampPass lib readLine state.world.index dump).records[key]? = some record) :
    record.partitionId < config.topLevelPartitions := by
  have hdurable : Durable prim config state.world := (durable_steps hreachable .refl).1
  obtain ⟨earlier, hearlier, -, hplace⟩ := getElem?_retimestampPass hrecord
  rw [← hplace, hdurable.index.partitions key earlier hearlier]
  exact Nat.mod_lt _ hpartitions

/-- The build rebuilds one partition after the other, up to the first that has too many
published keys with the same digest. -/
theorem retimestamp_rebuilds (hplain : prim.TextsEndPlain)
    (hpartitions : 0 < config.topLevelPartitions) {state : DaemonState}
    (hreachable : Reachable prim lib config faults state) {dump : String} {start final : World}
    {build : BuildProg Unit} {outcome : Prog.Outcome BuildError Unit}
    (hcommand : retimestamp prim lib config readLine dump state.world = some (start, build))
    (hruns : Prog.Runs (prim.DaemonStep .none) build start outcome final)
    (hfree : prim.CollisionFree {held | held ∈ final.blobs}) :
    ∃ count ≤ config.topLevelPartitions, RebuiltTo prim count
        (retimestampPass lib readLine state.world.index dump) state.world final ∧
      (outcome = .ok () → count = config.topLevelPartitions) ∧
      (outcome ≠ .ok () → count < config.topLevelPartitions ∧
        prim.DigestsClash config.leafMaxEntries
          ((ofPartition count final.index.publishedRecords).map fun row =>
            row.2.leafEntry row.1)) := by
  let index := retimestampPass lib readLine state.world.index dump
  have hplaced : ∀ (key : String) (record : IndexRecord), index.records[key]? = some record →
      record.status = .published → record.partitionId < config.topLevelPartitions :=
    fun key record hrecord _ => retimestamp_files hpartitions hreachable dump key record hrecord
  obtain ⟨spills, hspills, -, hfile⟩ := @RecordIndex.spillPublishedEntries_eq index prim _ hplaced
  rw [retimestamp, hspills] at hcommand
  obtain ⟨rfl, rfl⟩ := Prod.mk.inj (Option.some.inj hcommand)
  have hended := aloneSetting_outcome (buildTrees_valid {held | held ∈ final.blobs} _) hruns
    (fun _ hblob => hblob) trivial
  have hcount : ∃ count ≤ config.topLevelPartitions,
      TreesBuilt prim config spills { state.world with index := index } count final ∧
        (outcome = .ok () → count = config.topLevelPartitions) ∧
        (outcome ≠ .ok () → count < config.topLevelPartitions ∧
          Unbuildable prim config spills count) := by
    cases outcome with
    | ok value => exact ⟨_, le_rfl, hended, fun _ => rfl, fun hne => absurd rfl hne⟩
    | error error =>
        obtain ⟨count, hlt, hbuilt, hfull⟩ := hended
        exact ⟨count, hlt.le, hbuilt, nofun, fun _ => ⟨hlt, hfull⟩⟩
    | diverged => exact hended.elim
  obtain ⟨count, hle, hbuilt, hall, hfails⟩ := hcount
  have hlocalRoots : index.localRoots = state.world.index.localRoots := by
    rw [show index = _ from retimestampPass_eq .., (RecordIndex.updateCreatedAt_eq ..).2]
  refine ⟨count, hle, ⟨hbuilt.blobs, hbuilt.index, fun partitionId hlt => ?_,
    fun partitionId hge => ?_⟩, hall, fun hne => ?_⟩
  · obtain ⟨text, entries, root, htree⟩ := hbuilt.trees partitionId hlt
    exact ⟨root, htree.republished hplain hfree (hfile partitionId (hlt.trans_le hle)) hbuilt.index⟩
  · rw [← hlocalRoots]
    exact hbuilt.others partitionId hge
  · obtain ⟨hlt, hfull⟩ := hfails hne
    have hrows : final.index.publishedRecords = index.publishedRecords := by
      rw [hbuilt.index]
      rfl
    exact ⟨hlt, hrows ▸ hfull.clash hplain (hfile count hlt)⟩

/-- A daemon that has stopped in a reachable state is stamped again, without faults. All its
published records can be spilled. The build fails only on too many published keys of one
partition with the same digest, and then the other partitions have their new tree or the
roots they had. When it has come to its end, exactly the published records resolve, each to
its entry in the index, under both roots of every partition. -/
theorem retimestamp_republishes (hplain : prim.TextsEndPlain)
    (hpartitions : 0 < config.topLevelPartitions) {state : DaemonState}
    (hreachable : Reachable prim lib config faults state) (dump : String) :
    ∃ start build, retimestamp prim lib config readLine dump state.world = some (start, build) ∧
      ∀ outcome final, Prog.Runs (prim.DaemonStep .none) build start outcome final →
        prim.CollisionFree {held | held ∈ final.blobs} →
        final.index = { retimestampPass lib readLine state.world.index dump with
          localRoots := final.index.localRoots } ∧
        (∀ partitionId, (∃ root, Republished prim partitionId root final) ∨
          final.index.localRoots[partitionId]? = state.world.index.localRoots[partitionId]? ∧
            final.doc.entry (.partition partitionId) =
              state.world.doc.entry (.partition partitionId)) ∧
        (outcome = .ok () → ∀ partitionId < config.topLevelPartitions,
          ∃ root, Republished prim partitionId root final) ∧
        (outcome ≠ .ok () → ∃ partitionId < config.topLevelPartitions,
          prim.DigestsClash config.leafMaxEntries
            ((ofPartition partitionId final.index.publishedRecords).map fun row =>
              row.2.leafEntry row.1)) := by
  let index := retimestampPass lib readLine state.world.index dump
  have hplaced : ∀ (key : String) (record : IndexRecord), index.records[key]? = some record →
      record.status = .published → record.partitionId < config.topLevelPartitions :=
    fun key record hrecord _ => retimestamp_files hpartitions hreachable dump key record hrecord
  obtain ⟨spills, hspills, -, -⟩ := @RecordIndex.spillPublishedEntries_eq index prim _ hplaced
  have hcommand : retimestamp prim lib config readLine dump state.world = some
      ({ state.world with index := retimestampPass lib readLine state.world.index dump },
        buildTrees prim config spills) := by
    rw [retimestamp, hspills]
    rfl
  refine ⟨_, _, hcommand, fun outcome final hruns hfree => ?_⟩
  obtain ⟨count, hle, hbuilt, hall, hfails⟩ :=
    retimestamp_rebuilds hplain hpartitions hreachable hcommand hruns hfree
  refine ⟨hbuilt.index, fun partitionId => ?_, fun hok => hall hok ▸ hbuilt.rebuilt, fun hne =>
    ⟨count, hfails hne⟩⟩
  by_cases hlt : partitionId < count
  · exact Or.inl (hbuilt.rebuilt partitionId hlt)
  · exact Or.inr (hbuilt.kept partitionId (not_lt.mp hlt))

/-! ## What an audit then finds -/

theorem Republished.rooted {partitionId : Nat} {root : Hash} {world : World}
    (hrepublished : Republished prim partitionId root world) :
    ∃ trie, Rooted (.readback prim) partitionId (some root) none trie world ∧
      prim.Represents world.blobs (some root) trie := by
  obtain ⟨trie, htrie⟩ := hrepublished.stored
  refine ⟨trie, ⟨hrepublished.known, nofun, ?_⟩, htrie⟩
  exact (Primitives.Naming.canonical prim).reads ⟨htrie.hash, htrie.stored⟩

/-- The tree has the keys that an audit expects in it. -/
theorem Republished.holdsKey_iff {partitionId : Nat} {root : Hash} {world : World}
    (hfree : prim.CollisionFree {held | held ∈ world.blobs})
    (hrepublished : Republished prim partitionId root world) (key : String) :
    HoldsKey prim world partitionId key ↔ world.index.Publishes partitionId key := by
  obtain ⟨trie, hrooted, htrie⟩ := hrepublished.rooted
  have hfind : prim.scheme.find key trie 0 = world.index.publishedEntry partitionId key := by
    have hlookup := (Primitives.lookup_run hfree key htrie).symm.trans (hrepublished.lookup key)
    exact Prog.Outcome.ok.inj (congrArg Prod.fst hlookup)
  have hpublishes : world.index.Publishes partitionId key ↔
      ∃ entry, world.index.publishedEntry partitionId key = some entry := by
    constructor
    · rintro ⟨record, hrecord, hstatus, hpartition⟩
      exact ⟨_, world.index.publishedEntry_eq_some_iff.mpr
        ⟨record, hrecord, hstatus, hpartition, rfl⟩⟩
    · rintro ⟨entry, hentry⟩
      obtain ⟨record, hrecord, hstatus, hpartition, -⟩ :=
        world.index.publishedEntry_eq_some_iff.mp hentry
      exact ⟨record, hrecord, hstatus, hpartition⟩
  rw [hrooted.holdsKey_iff hfree, hpublishes, ← hfind]
  simp only [htrie.wellFormed.find_eq_some_iff]
  rfl

/-- A partition that no tree was built for is still readable, as it was. -/
theorem Rooted.of_legible {partitionId : Nat} {trees : Trees} {before after : World}
    (hlegible : Legible prim partitionId trees before) (hblobs : before.blobs ⊆ after.blobs)
    (hlocal : after.index.localRoots[partitionId]? = before.index.localRoots[partitionId]?)
    (hdoc : after.doc.entry (.partition partitionId) = before.doc.entry (.partition partitionId)) :
    ∃ localRoot docRoot trie, Rooted (.readback prim) partitionId localRoot docRoot trie after := by
  have hnamed : NamesRoot prim after (.partition partitionId) trees.docRoot :=
    ⟨hdoc.trans hlegible.docRoot.entry,
      fun hash hhash => hblobs (hlegible.docRoot.content hash hhash)⟩
  have hreads : ∀ {root : Option Hash} {trie : HamtTrie}, prim.Represents before.blobs root trie →
      prim.Reads after.blobs trie root := fun htrie =>
    (Primitives.Naming.canonical prim).reads ⟨htrie.hash, htrie.stored.mono hblobs⟩
  cases hroot : before.index.localRoots[partitionId]? with
  | none =>
      exact ⟨none, trees.docRoot, trees.docTrie, hlocal.trans hroot, fun _ => hnamed,
        hreads hlegible.docTrie⟩
  | some root =>
      have htree := hlegible.localRoot
      rw [hroot] at htree
      exact ⟨some root, trees.docRoot, trees.localTrie, hlocal.trans hroot, fun _ => hnamed,
        hreads htree⟩

/-- After a rebuild that has come to its end, no audit of any partition finds a missing or a
foreign key, nor puts anything into the queue. -/
theorem audit_clean_after_retimestamp (hplain : prim.TextsEndPlain)
    (hpartitions : 0 < config.topLevelPartitions) {state : DaemonState}
    (hreachable : Reachable prim lib config faults state) {dump : String} {start final : World}
    {build : BuildProg Unit}
    (hcommand : retimestamp prim lib config readLine dump state.world = some (start, build))
    (hruns : Prog.Runs (prim.DaemonStep .none) build start (.ok ()) final)
    {onlyPartition : Option Nat} (honly : ∀ partitionId ∈ onlyPartition,
      partitionId < config.topLevelPartitions)
    (hlines : onlyPartition = none → ∀ partitionId < config.topLevelPartitions, ∀ key,
      final.index.Publishes partitionId key → Text.IsLine key) {fix : Bool}
    {outcome : Prog.Outcome DaemonError VerifyReport} {audited : World}
    (haudit : Prog.Runs (prim.DaemonStep .none) (prim.verify config onlyPartition fix) final
      outcome audited) (hfree : prim.CollisionFree {held | held ∈ audited.blobs}) :
    ∃ report, outcome = .ok report ∧ report.missingTotal = 0 ∧ report.foreignTotal = 0 ∧
      (fix = true → report.requeuedTotal = 0) ∧
      report.expectedTotal = report.inTreeTotal := by
  have hfinal : prim.CollisionFree {held | held ∈ final.blobs} :=
    hfree.mono (Primitives.blobs_subset_of_visits haudit.visits)
  obtain ⟨count, -, hbuilt, hall, -⟩ :=
    retimestamp_rebuilds hplain hpartitions hreachable hcommand hruns hfinal
  obtain rfl := hall rfl
  have hlegible := allLegible_of_reachable hreachable (hfinal.mono hbuilt.blobs)
  have hreadable : AllReadable prim final := by
    intro partitionId
    by_cases hlt : partitionId < config.topLevelPartitions
    · obtain ⟨root, hrepublished⟩ := hbuilt.rebuilt partitionId hlt
      obtain ⟨trie, hrooted, -⟩ := hrepublished.rooted
      exact ⟨_, _, trie, hrooted⟩
    · obtain ⟨trees, htrees⟩ := hlegible.partitions partitionId
      obtain ⟨hlocal, hdoc⟩ := hbuilt.kept partitionId (not_lt.mp hlt)
      exact Rooted.of_legible htrees hbuilt.blobs hlocal hdoc
  obtain ⟨report, hreport, haudited⟩ := verify_outcome hreadable hlines haudit hfree
  -- Where the two sets of keys are the same, neither has a key that the other lacks.
  have hsame : ∀ partitionId ∈ Registry.audited config onlyPartition,
      {key | final.index.Publishes partitionId key} =
        {key | HoldsKey prim final partitionId key} := by
    intro partitionId hmem
    have hlt : partitionId < config.topLevelPartitions := by
      cases onlyPartition with
      | none => exact List.mem_range.mp hmem
      | some only => exact honly partitionId (congrArg some (List.mem_singleton.mp hmem).symm)
    obtain ⟨root, hrepublished⟩ := hbuilt.rebuilt partitionId hlt
    exact Set.ext fun key => (hrepublished.holdsKey_iff hfinal key).symm
  have hzero : ∀ {counts : Nat → Nat}, (∀ partitionId ∈ Registry.audited config onlyPartition,
      counts partitionId = 0) → ((Registry.audited config onlyPartition).map counts).sum = 0 := by
    intro counts hcounts
    rw [List.map_congr_left hcounts]
    simp
  have hmissing : report.missingTotal = 0 := by
    rw [haudited.missingTotal]
    exact hzero fun partitionId hmem => by
      rw [hsame partitionId hmem, sdiff_self, Set.bot_eq_empty, Set.ncard_empty]
  refine ⟨report, hreport, hmissing, ?_, fun hfix => ?_, ?_⟩
  · rw [haudited.foreignTotal]
    exact hzero fun partitionId hmem => by
      rw [hsame partitionId hmem, sdiff_self, Set.bot_eq_empty, Set.ncard_empty]
  · exact (haudited.requeuedTotal hfix).trans hmissing
  · rw [haudited.expectedTotal, haudited.inTreeTotal]
    exact congrArg List.sum (List.map_congr_left fun partitionId hmem => by
      rw [hsame partitionId hmem])

end Rebuilding

/-! ## A record that was taken down after it had been published -/

namespace Sample

def cycleOn (denylist : Finset String) (world : World) : World :=
  ((prim.publishCycle single denylist).run (prim.daemonHandler createdAt) world).2

/-- Both are published, and then the second is put back into the queue. -/
def requeued : World :=
  let world := cycleOn ∅ accepted.world
  { world with index := (world.index.requeue secondKey).2 }

/-- The next cycle finds it on the denylist. -/
def withdrawn : DaemonState := { accepted with world := cycleOn {secondKey} requeued }

theorem withdrawn_reachable (faults : Faults) : Reachable prim lib single faults withdrawn := by
  have hpublished : GuidedSteps prim lib single faults (fun _ => True) accepted
      { accepted with world := cycleOn ∅ accepted.world } :=
    @guidedSteps_run prim lib single faults _ createdAt accepted rfl (.cycle ∅) trivial
  have hrequeued : SystemSteps prim lib single faults
      { accepted with world := cycleOn ∅ accepted.world } { accepted with world := requeued } :=
    .single (.requeue _ secondKey)
  have hdenied : GuidedSteps prim lib single faults (fun _ => True)
      { accepted with world := requeued } withdrawn :=
    @guidedSteps_run prim lib single faults _ createdAt { accepted with world := requeued } rfl
      (.cycle {secondKey}) trivial
  exact (((accepted_reached faults fun _ => True).systemSteps.trans hpublished.systemSteps).trans
    hrequeued).trans hdenied.systemSteps

def noDump : DumpReader := fun _ => .error "EOF while parsing a value at line 1 column 0"

def rebuild : Option (Prog.Outcome BuildError Unit × World) :=
  (retimestamp prim lib single noDump "" withdrawn.world).map fun (start, build) =>
    build.run (prim.daemonHandler createdAt) start

theorem textsEndPlain_prim : prim.TextsEndPlain := tables.textsEndPlain (by decide +kernel)

def rootBefore : Hash := ⟨bothRoot⟩

end Sample

/-- The tree has the record until it is rebuilt, and then it does not. -/
theorem retimestamp_republishes_sample :
    Sample.withdrawn.world.index.localRoots[0]? = some Sample.rootBefore ∧
      (Sample.prim.lookup (some Sample.rootBefore) Sample.secondKey).run Sample.prim.memoryStore
          Sample.withdrawn.world.blobs = (.ok (some Sample.second), Sample.withdrawn.world.blobs) ∧
      ∃ final root, Sample.rebuild = some (.ok (), final) ∧
        Republished Sample.prim 0 root final ∧
        (Sample.prim.lookup (some root) Sample.secondKey).run Sample.prim.memoryStore final.blobs =
          (.ok none, final.blobs) := by
  have hfacts : Sample.withdrawn.world.index.localRoots[0]? = some Sample.rootBefore ∧
      (Sample.prim.lookup (some Sample.rootBefore) Sample.secondKey).run Sample.prim.memoryStore
          Sample.withdrawn.world.blobs = (.ok (some Sample.second), Sample.withdrawn.world.blobs) ∧
      Sample.rebuild.map Prod.fst = some (.ok ()) ∧
      (∀ final ∈ Sample.rebuild.map Prod.snd,
        final.index.publishedEntry 0 Sample.secondKey = none ∧
        (∀ left ∈ final.blobs, ∀ right ∈ final.blobs,
          Sample.prim.blake3 left = Sample.prim.blake3 right → left = right) ∧
        ∀ blob ∈ final.blobs, Sample.prim.blake3 blob ≠ Hash.zero) := by decide +kernel
  obtain ⟨hroot, hfound, hended, hfinal⟩ := hfacts
  obtain ⟨start, build, hcommand, hrebuilt⟩ :=
    @retimestamp_republishes _ _ Sample.single Sample.noDump _ Sample.textsEndPlain_prim (by decide)
      _ (Sample.withdrawn_reachable .all) ""
  have hrebuild : Sample.rebuild =
      some (build.run (Sample.prim.daemonHandler Sample.createdAt) start) := by
    rw [Sample.rebuild, hcommand]
    rfl
  have hruns : Prog.Runs (Sample.prim.DaemonStep .none) build start _ _ :=
    Sample.prim.daemonHandler_runs .none Sample.createdAt build start
  rw [hrebuild] at hended hfinal ⊢
  obtain ⟨hnone, hblobs⟩ := hfinal _ rfl
  have hok := Option.some.inj hended
  obtain ⟨-, -, hall, -⟩ := hrebuilt _ _ hruns (Primitives.collisionFree_of_blobs hblobs)
  obtain ⟨root, hrepublished⟩ := hall hok 0 (by decide)
  refine ⟨hroot, hfound, _, root, congrArg some (Prod.ext hok rfl), hrepublished, ?_⟩
  rw [hrepublished.lookup, hnone]

/-- What an audit finds in the tree before the rebuild, and after it. -/
theorem audit_clean_after_retimestamp_sample :
    ((Sample.prim.verify Sample.single none true).run (Sample.prim.daemonHandler Sample.createdAt)
        Sample.withdrawn.world).1 = .ok ⟨1, 0, 1, 2, 0, 1, 0⟩ ∧
      ∃ final report, Sample.rebuild = some (.ok (), final) ∧
        ((Sample.prim.verify Sample.single none true).run
          (Sample.prim.daemonHandler Sample.createdAt) final).1 = .ok report ∧
        report.missingTotal = 0 ∧ report.foreignTotal = 0 ∧ report.expectedTotal = 1 ∧
        report.inTreeTotal = 1 := by
  have hfacts : ((Sample.prim.verify Sample.single none true).run
        (Sample.prim.daemonHandler Sample.createdAt) Sample.withdrawn.world).1 =
          .ok ⟨1, 0, 1, 2, 0, 1, 0⟩ ∧
      Sample.rebuild.map Prod.fst = some (.ok ()) ∧
      (∀ final ∈ Sample.rebuild.map Prod.snd,
        ((Sample.prim.verify Sample.single none true).run
          (Sample.prim.daemonHandler Sample.createdAt) final).1 = .ok ⟨1, 0, 1, 1, 0, 0, 0⟩ ∧
        (∀ row ∈ final.index.records.toList, Text.IsLine row.1) ∧
        (∀ left ∈ ((Sample.prim.verify Sample.single none true).run
            (Sample.prim.daemonHandler Sample.createdAt) final).2.blobs,
          ∀ right ∈ ((Sample.prim.verify Sample.single none true).run
            (Sample.prim.daemonHandler Sample.createdAt) final).2.blobs,
          Sample.prim.blake3 left = Sample.prim.blake3 right → left = right) ∧
        ∀ blob ∈ ((Sample.prim.verify Sample.single none true).run
            (Sample.prim.daemonHandler Sample.createdAt) final).2.blobs,
          Sample.prim.blake3 blob ≠ Hash.zero) := by decide +kernel
  obtain ⟨hbefore, hended, hfinal⟩ := hfacts
  obtain ⟨⟨start, build⟩, hcommand⟩ : ∃ command, retimestamp Sample.prim Sample.lib Sample.single
      Sample.noDump "" Sample.withdrawn.world = some command := by
    cases hcommand : retimestamp Sample.prim Sample.lib Sample.single Sample.noDump ""
        Sample.withdrawn.world with
    | some command => exact ⟨command, rfl⟩
    | none =>
        rw [Sample.rebuild, hcommand] at hended
        cases hended
  have hrebuild : Sample.rebuild =
      some (build.run (Sample.prim.daemonHandler Sample.createdAt) start) := by
    rw [Sample.rebuild, hcommand]
    rfl
  have hruns : Prog.Runs (Sample.prim.DaemonStep .none) build start _ _ :=
    Sample.prim.daemonHandler_runs .none Sample.createdAt build start
  rw [hrebuild] at hended hfinal ⊢
  obtain ⟨haudit, hlines, hblobs⟩ := hfinal _ rfl
  have hok := Option.some.inj hended
  rw [hok] at hruns
  have haudited : Prog.Runs (Sample.prim.DaemonStep .none)
      (Sample.prim.verify Sample.single none true)
      (build.run (Sample.prim.daemonHandler Sample.createdAt) start).2 _ _ :=
    Sample.prim.daemonHandler_runs .none Sample.createdAt _ _
  obtain ⟨report, hreport, hmissing, hforeign, -, -⟩ := audit_clean_after_retimestamp
    Sample.textsEndPlain_prim (by decide) (Sample.withdrawn_reachable .all) hcommand hruns (by simp)
    (fun _ _ _ key hkey => by
      obtain ⟨record, hrecord, -, -⟩ := hkey
      exact hlines (key, record) (Std.ExtTreeMap.mem_toList_iff_getElem?_eq_some.mpr hrecord))
    haudited (Primitives.collisionFree_of_blobs hblobs)
  refine ⟨hbefore, _, report, congrArg some (Prod.ext hok rfl), hreport, hmissing, hforeign, ?_⟩
  obtain rfl := Prog.Outcome.ok.inj (haudit.symm.trans hreport)
  exact ⟨rfl, rfl⟩

end Registry

import Mathlib.Data.List.Find
import Registry.Daemon.BulkLoad
import Registry.Text.Lines

/-! # Ingesting a dump

A chunk of a dump goes through batches into the index, the store and the spill files of
the partitions. Within a batch all lines are compared with the index as it was before, so
that of several new lines with one key the index keeps the last, and the spill file has
them all.
-/

namespace Registry

/-- What the clock says while a line is read. -/
structure ClockReading where
  createdAt : Timestamp
  publishedAt : Timestamp

/-- A line of the dump that is loaded. -/
structure IngestRow where
  key : String
  value : String
  record : IndexRecord
  deriving DecidableEq

/-- The index, the store and the texts of the spill files. -/
structure Loaded where
  world : World
  spills : List Bytes

/-- An empty data directory and no spill files. -/
def Loaded.empty : Loaded := ⟨.empty, []⟩

/-- Open the spill files, creating those that are missing. -/
def Loaded.openSpills (loaded : Loaded) (partitions : Nat) : Loaded :=
  { loaded with spills := (List.range partitions).map fun place => loaded.spills[place]?.getD [] }

/-- A batch on its way to the index, the store and the spill files. -/
structure Flush where
  toInsert : List (String × IndexRecord)
  toPut : List String
  spills : List Bytes

section Ingest

variable (prim : Primitives) (lib : Libraries) (config : Config) (readLine : DumpReader)

/-- Append a record's line to the spill file of its partition. -/
def spillEntry (spills : List Bytes) (key : String) (record : IndexRecord) : List Bytes :=
  spills.modify record.partitionId fun text =>
    text ++ (prim.leafToJson (record.leafEntry key) ++ [newline])

/-- The record that a valid line gives, or none for a line that is passed over. -/
def ingestRow (clock : ClockReading) (line : String) : Option IngestRow :=
  match readLine line with
  | .error _ => none
  | .ok parsed =>
      match lib.canonicalValueStr parsed.value with
      | none => none
      | some value =>
          if !lib.isValidRecordKey parsed.key ∨ config.maxValueBytes < (utf8 value).length then none
          else some {
            key := parsed.key
            value := value
            record := {
              contentHash := prim.contentHash value
              size := UInt64.ofNat (utf8 value).length
              partitionId := prim.partitionIdForKey parsed.key config.topLevelPartitions
              status := .published
              createdAt := (lib.declarationTimestamp value).getD clock.createdAt
              contentCode := lib.extractFromJson value
              publishedAt := some clock.publishedAt } }

/-- Sort one line of a batch. The binding of a known key wins, and a value that differs
from it is not stored. -/
def flushRow (flush : Flush) (row : IngestRow) (known : Option IndexRecord) : Flush :=
  match known with
  | some prior =>
      { flush with
        toPut := if prior.contentHash = row.record.contentHash then flush.toPut ++ [row.value]
          else flush.toPut
        spills := spillEntry prim flush.spills row.key prior }
  | none =>
      { toInsert := flush.toInsert ++ [(row.key, row.record)]
        toPut := flush.toPut ++ [row.value]
        spills := spillEntry prim flush.spills row.key row.record }

/-- Write a batch to the index, the store and the spill files. -/
def flushBatch (loaded : Loaded) (batch : List IngestRow) : Loaded :=
  let existing := loaded.world.index.getMany (batch.map IngestRow.key)
  let flush := (batch.zip existing).foldl (fun flush pair => flushRow prim flush pair.1 pair.2)
    ⟨[], [], loaded.spills⟩
  { world := { loaded.world with
      index := loaded.world.index.bulkMarkPublished flush.toInsert
      blobs := flush.toPut.foldl (fun blobs value => utf8 value :: blobs) loaded.world.blobs }
    spills := flush.spills }

/-- Where the loop over the lines stands. -/
structure IngestState where
  loaded : Loaded
  batch : List IngestRow
  seenLines : Nat
  total : Nat

/-- The loop over the lines of the dump. Empty lines are not counted. -/
def ingestLines (clock : Nat → ClockReading) (skip limit : Nat) :
    List String → IngestState → IngestState
  | [], state => state
  | line :: rest, state =>
      if line = "" then ingestLines clock skip limit rest state
      else
        let seen := state.seenLines + 1
        if seen ≤ skip then ingestLines clock skip limit rest { state with seenLines := seen }
        else if limit ≤ state.total then { state with seenLines := seen }
        else
          match ingestRow prim lib config readLine (clock seen) line with
          | none => ingestLines clock skip limit rest
              { state with seenLines := seen, total := state.total + 1 }
          | some row =>
              let batch := state.batch ++ [row]
              ingestLines clock skip limit rest <|
                if 2000 ≤ batch.length then
                  { loaded := flushBatch prim state.loaded batch, batch := []
                    seenLines := seen, total := state.total + 1 }
                else { state with batch := batch, seenLines := seen, total := state.total + 1 }

/-- One chunk of the dump: `limit` lines behind the first `skip`. -/
def ingest (clock : Nat → ClockReading) (dump : String) (skip limit : Nat) (loaded : Loaded) :
    Loaded :=
  let state := ingestLines prim lib config readLine clock skip limit (Text.lines dump)
    ⟨loaded.openSpills config.topLevelPartitions, [], 0, 0⟩
  flushBatch prim state.loaded state.batch

/-- Chunks of these lengths, one after the other. -/
def ingestChunks (clock : Nat → ClockReading) (dump : String) :
    Nat → List Nat → Loaded → Loaded
  | _, [], loaded => loaded
  | skip, limit :: rest, loaded =>
      ingestChunks clock dump (skip + limit) rest
        (ingest prim lib config readLine clock dump skip limit loaded)

end Ingest

/-! ## The batches of a dump -/

section Batches

variable {α : Type}

/-- Cut a list into batches of a size, the first of which has begun. -/
def inBatches (size : Nat) : List α → List α → List (List α)
  | batch, [] => [batch]
  | batch, item :: rest =>
      if size ≤ (batch ++ [item]).length then (batch ++ [item]) :: inBatches size [] rest
      else inBatches size (batch ++ [item]) rest

theorem flatten_inBatches (size : Nat) (batch items : List α) :
    (inBatches size batch items).flatten = batch ++ items := by
  induction items generalizing batch with
  | nil => simp [inBatches]
  | cons item rest ih =>
      rw [inBatches]
      split
      next => rw [List.flatten_cons, ih, List.nil_append, List.append_assoc, List.singleton_append]
      next => rw [ih, List.append_assoc, List.singleton_append]

end Batches

/-- The lines of a dump that are counted, with their numbers. -/
def numberedLines (dump : String) : List (String × Nat) :=
  ((Text.lines dump).filter fun line => line ≠ "").zipIdx 1

section Chunks

variable (prim : Primitives) (lib : Libraries) (config : Config) (readLine : DumpReader)
  (clock : Nat → ClockReading)

def rowAt (line : String × Nat) : Option IngestRow :=
  ingestRow prim lib config readLine (clock line.2) line.1

/-- The valid lines of a dump. -/
def dumpRows (dump : String) : List IngestRow :=
  (numberedLines dump).filterMap (rowAt prim lib config readLine clock)

/-- The valid lines of a chunk. -/
def chunkRows (dump : String) (skip limit : Nat) : List IngestRow :=
  (((numberedLines dump).drop skip).take limit).filterMap (rowAt prim lib config readLine clock)

/-- The batches in which chunks of these lengths are flushed. -/
def chunkBatches (dump : String) : Nat → List Nat → List (List IngestRow)
  | _, [] => []
  | skip, limit :: rest =>
      inBatches 2000 [] (chunkRows prim lib config readLine clock dump skip limit) ++
        chunkBatches dump (skip + limit) rest

variable {prim lib config readLine clock}

/-- The loop flushes the batches of the lines that are left, and leaves the last one. -/
theorem flushBatch_ingestLines (skip limit : Nat) (lines : List String) (state : IngestState) :
    flushBatch prim (ingestLines prim lib config readLine clock skip limit lines state).loaded
        (ingestLines prim lib config readLine clock skip limit lines state).batch =
      (inBatches 2000 state.batch
        (((((lines.filter fun line => line ≠ "").zipIdx (state.seenLines + 1)).drop
          (skip - state.seenLines)).take (limit - state.total)).filterMap
            (rowAt prim lib config readLine clock))).foldl (flushBatch prim) state.loaded := by
  induction lines generalizing state with
  | nil => simp [ingestLines, inBatches]
  | cons line rest ih =>
      rw [ingestLines]
      by_cases hempty : line = ""
      · rw [if_pos hempty, ih, List.filter_cons_of_neg (by simpa using hempty)]
      rw [if_neg hempty, List.filter_cons_of_pos (by simpa using hempty), List.zipIdx_cons]
      dsimp only
      by_cases hskip : state.seenLines + 1 ≤ skip
      · have hdrop : skip - state.seenLines = skip - (state.seenLines + 1) + 1 := by omega
        rw [if_pos hskip, ih, hdrop, List.drop_succ_cons]
      have hdrop : skip - state.seenLines = 0 := by omega
      have hnext : skip - (state.seenLines + 1) = 0 := by omega
      rw [if_neg hskip, hdrop, List.drop_zero]
      by_cases hlimit : limit ≤ state.total
      · have htake : limit - state.total = 0 := by omega
        rw [if_pos hlimit, htake]
        simp [inBatches]
      have htake : limit - state.total = limit - (state.total + 1) + 1 := by omega
      rw [if_neg hlimit, htake, List.take_succ_cons]
      cases hrow : ingestRow prim lib config readLine (clock (state.seenLines + 1)) line with
      | none =>
          have hnone : rowAt prim lib config readLine clock (line, state.seenLines + 1) = none :=
            hrow
          rw [List.filterMap_cons_none hnone]
          dsimp only
          rw [ih, hnext, List.drop_zero]
      | some row =>
          have hsome :
              rowAt prim lib config readLine clock (line, state.seenLines + 1) = some row :=
            hrow
          rw [List.filterMap_cons_some hsome, inBatches]
          dsimp only
          rw [ih]
          split
          next => rw [List.foldl_cons, hnext, List.drop_zero]
          next => rw [hnext, List.drop_zero]

theorem ingest_eq (dump : String) (skip limit : Nat) (loaded : Loaded) :
    ingest prim lib config readLine clock dump skip limit loaded =
      (inBatches 2000 [] (chunkRows prim lib config readLine clock dump skip limit)).foldl
        (flushBatch prim) (loaded.openSpills config.topLevelPartitions) :=
  flushBatch_ingestLines skip limit (Text.lines dump) _

end Chunks

/-! ## What a batch leaves -/

namespace RecordIndex

/-- Of several records with a key the last one stays. -/
theorem bulkMarkPublished_getElem? (index : RecordIndex) (records : List (String × IndexRecord))
    (key : String) :
    (index.bulkMarkPublished records).records[key]? =
      ((records.reverse.find? fun row => row.1 = key).map Prod.snd).or index.records[key]? := by
  induction records generalizing index with
  | nil => rfl
  | cons row rest ih =>
      have hrest := ih (index.bulkMarkPublished [row])
      rw [List.reverse_cons, List.find?_append]
      refine Eq.trans hrest ?_
      cases rest.reverse.find? fun row => row.1 = key with
      | some found => rfl
      | none =>
          simp only [bulkMarkPublished, List.foldl_cons, List.foldl_nil,
            Std.ExtTreeMap.getElem?_insert, Std.compare_eq_iff_eq, List.find?_singleton,
            decide_eq_true_eq, Option.map_none, Option.none_or]
          by_cases hkey : row.1 = key
          · rw [if_pos hkey, if_pos hkey]
            rfl
          · rw [if_neg hkey, if_neg hkey]
            rfl

end RecordIndex

section Flushing

variable {prim : Primitives}

/-- The record that the spill file gets for a line. -/
def boundRecord (index : RecordIndex) (row : IngestRow) : IndexRecord :=
  (index.records[row.key]?).getD row.record

/-- The lines of a batch whose keys the index does not have. -/
def newRows (index : RecordIndex) (batch : List IngestRow) : List (String × IndexRecord) :=
  (batch.filter fun row => (index.records[row.key]?).isNone).map fun row => (row.key, row.record)

variable (prim) in
theorem foldl_flushRow (index : RecordIndex) (batch : List IngestRow) (flush : Flush) :
    ∃ toPut, (batch.zip (index.getMany (batch.map IngestRow.key))).foldl
      (fun flush pair => flushRow prim flush pair.1 pair.2) flush =
        { toInsert := flush.toInsert ++ newRows index batch
          toPut := flush.toPut ++ toPut
          spills := batch.foldl (fun spills row =>
            spillEntry prim spills row.key (boundRecord index row)) flush.spills } := by
  induction batch generalizing flush with
  | nil => exact ⟨[], by simp [newRows]⟩
  | cons row rest ih =>
      rw [List.map_cons, RecordIndex.getMany, List.map_cons, ← RecordIndex.getMany,
        List.zip_cons_cons, List.foldl_cons]
      obtain ⟨toPut, htoPut⟩ := ih (flushRow prim flush row index.records[row.key]?)
      rw [htoPut]
      cases hknown : index.records[row.key]? with
      | none =>
          refine ⟨row.value :: toPut, ?_⟩
          simp [flushRow, newRows, boundRecord, hknown]
      | some prior =>
          refine ⟨(if prior.contentHash = row.record.contentHash then [row.value] else []) ++ toPut,
            ?_⟩
          split
          next hsame => simp [flushRow, newRows, boundRecord, hknown, hsame]
          next hother => simp [flushRow, newRows, boundRecord, hknown, hother]

theorem find?_reverse_newRows (index : RecordIndex) (batch : List IngestRow) (key : String) :
    ((newRows index batch).reverse.find? fun row => row.1 = key).map Prod.snd =
      if (index.records[key]?).isNone then
        (batch.reverse.find? fun row => row.key = key).map IngestRow.record
      else none := by
  rw [newRows, ← List.map_reverse, ← List.filter_reverse, List.find?_map, List.find?_filter,
    Option.map_map]
  split
  next hnone =>
    refine congrArg (fun test => (batch.reverse.find? test).map IngestRow.record) ?_
    funext row
    by_cases hkey : row.key = key
    · simp [hkey, hnone]
    · simp [hkey]
  next hsome =>
    rw [Option.map_eq_none_iff, List.find?_eq_none]
    intro row _ hrow
    simp only [Function.comp_apply, Bool.decide_and, Bool.and_eq_true, decide_eq_true_eq] at hrow
    exact hsome (hrow.2 ▸ hrow.1)

theorem flushBatch_records (loaded : Loaded) (batch : List IngestRow) (key : String) :
    (flushBatch prim loaded batch).world.index.records[key]? =
      loaded.world.index.records[key]?.or
        ((batch.reverse.find? fun row => row.key = key).map IngestRow.record) := by
  obtain ⟨toPut, htoPut⟩ := foldl_flushRow prim loaded.world.index batch
    ⟨[], [], loaded.spills⟩
  simp only [flushBatch, htoPut, List.nil_append, RecordIndex.bulkMarkPublished_getElem?,
    find?_reverse_newRows]
  cases loaded.world.index.records[key]? with
  | none => simp
  | some record => simp

theorem flushBatch_spills (loaded : Loaded) (batch : List IngestRow) :
    (flushBatch prim loaded batch).spills = batch.foldl (fun spills row =>
      spillEntry prim spills row.key (boundRecord loaded.world.index row)) loaded.spills := by
  obtain ⟨toPut, htoPut⟩ := foldl_flushRow prim loaded.world.index batch
    ⟨[], [], loaded.spills⟩
  simp only [flushBatch, htoPut]

end Flushing

/-! ## What a load leaves -/

section Load

variable {prim : Primitives}

/-- The first line of a key. -/
def firstLine (batches : List (List IngestRow)) (key : String) : Option IngestRow :=
  batches.flatten.find? fun row => row.key = key

/-- The last line of a key in the batch that brings the key. -/
def lastLine (batches : List (List IngestRow)) (key : String) : Option IngestRow :=
  batches.findSome? fun batch => batch.reverse.find? fun row => row.key = key

theorem firstLine_cons (batch : List IngestRow) (rest : List (List IngestRow)) (key : String) :
    firstLine (batch :: rest) key =
      (batch.find? fun row => row.key = key).or (firstLine rest key) := by
  rw [firstLine, List.flatten_cons, List.find?_append, firstLine]

theorem lastLine_cons (batch : List IngestRow) (rest : List (List IngestRow)) (key : String) :
    lastLine (batch :: rest) key =
      (batch.reverse.find? fun row => row.key = key).or (lastLine rest key) := by
  rw [lastLine, List.findSome?_cons, lastLine]
  cases batch.reverse.find? fun row => row.key = key <;> rfl

theorem lastLine_isSome (batches : List (List IngestRow)) (key : String) :
    (lastLine batches key).isSome = (firstLine batches key).isSome := by
  induction batches with
  | nil => rfl
  | cons batch rest ih =>
      have hbatch : (batch.reverse.find? fun row => row.key = key).isSome =
          (batch.find? fun row => row.key = key).isSome := by
        rw [Bool.eq_iff_iff, List.find?_isSome, List.find?_isSome]
        simp only [List.mem_reverse]
      rw [lastLine_cons, firstLine_cons, Option.isSome_or, Option.isSome_or, ih, hbatch]

variable (prim) in
/-- The index binds a new key to the last line of the batch that brings it. -/
theorem load_records (batches : List (List IngestRow)) (loaded : Loaded) (key : String) :
    (batches.foldl (flushBatch prim) loaded).world.index.records[key]? =
      loaded.world.index.records[key]?.or ((lastLine batches key).map IngestRow.record) := by
  induction batches generalizing loaded with
  | nil => exact Option.or_none.symm
  | cons batch rest ih =>
      rw [List.foldl_cons, ih, flushBatch_records, lastLine_cons, Option.or_assoc, Option.map_or]

variable (prim) in
/-- All that the load writes to the spill files, in order. -/
def spilled : Loaded → List (List IngestRow) → List (String × IndexRecord)
  | _, [] => []
  | loaded, batch :: rest =>
      batch.map (fun row => (row.key, boundRecord loaded.world.index row)) ++
        spilled (flushBatch prim loaded batch) rest

/-- The first thing that is spilled for a new key is its first line. -/
theorem find?_spilled (batches : List (List IngestRow)) {loaded : Loaded} {key : String}
    (hnew : loaded.world.index.records[key]? = none) :
    (spilled prim loaded batches).find? (fun row => row.1 = key) =
      (firstLine batches key).map fun row => (key, row.record) := by
  induction batches generalizing loaded with
  | nil => rfl
  | cons batch rest ih =>
      rw [spilled, List.find?_append, List.find?_map, firstLine_cons]
      cases hfirst : batch.find? fun row => row.key = key with
      | some row =>
          have hkey : row.key = key := by simpa using List.find?_some hfirst
          have hfound : batch.find? ((fun row : String × IndexRecord => decide (row.1 = key)) ∘
              fun row => (row.key, boundRecord loaded.world.index row)) = some row := hfirst
          rw [hfound, Option.map_some, Option.some_or, Option.some_or, boundRecord, hkey, hnew]
          rfl
      | none =>
          have hfound : batch.find? ((fun row : String × IndexRecord => decide (row.1 = key)) ∘
              fun row => (row.key, boundRecord loaded.world.index row)) = none := hfirst
          have hlast : batch.reverse.find? (fun row => row.key = key) = none := by
            rw [List.find?_eq_none] at hfirst ⊢
            exact fun row hrow => hfirst row (List.mem_reverse.mp hrow)
          rw [hfound]
          refine ih ?_
          rw [flushBatch_records, hnew, hlast]
          rfl

variable (prim) in
/-- The text of a spill file. -/
def spillText (rows : List (String × IndexRecord)) : Bytes :=
  rows.flatMap fun row => prim.leafToJson (row.2.leafEntry row.1) ++ [newline]

/-- The rows that go to one spill file. -/
def ofPartition (place : Nat) (rows : List (String × IndexRecord)) : List (String × IndexRecord) :=
  rows.filter fun row => row.2.partitionId = place

variable (prim) in
theorem getElem?_spillEntries (rows : List (String × IndexRecord)) (spills : List Bytes)
    (place : Nat) :
    (rows.foldl (fun spills row => spillEntry prim spills row.1 row.2) spills)[place]? =
      spills[place]?.map (· ++ spillText prim (ofPartition place rows)) := by
  induction rows generalizing spills with
  | nil => simp [ofPartition, spillText]
  | cons row rest ih =>
      rw [List.foldl_cons, ih, spillEntry, List.getElem?_modify]
      by_cases hplace : row.2.partitionId = place
      · simp [hplace, ofPartition, spillText, Function.comp_def]
      · simp [hplace, ofPartition]

variable (prim) in
/-- Each spill file has got what was spilled for its partition. -/
theorem load_spills (batches : List (List IngestRow)) (loaded : Loaded) (place : Nat) :
    (batches.foldl (flushBatch prim) loaded).spills[place]? =
      loaded.spills[place]?.map
        (· ++ spillText prim (ofPartition place (spilled prim loaded batches))) := by
  induction batches generalizing loaded with
  | nil => simp [spilled, ofPartition, spillText]
  | cons batch rest ih =>
      have hbatch := getElem?_spillEntries prim
        (batch.map fun row => (row.key, boundRecord loaded.world.index row)) loaded.spills place
      rw [List.foldl_map] at hbatch
      rw [List.foldl_cons, ih, flushBatch_spills, hbatch, Option.map_map, spilled]
      simp [ofPartition, spillText, Function.comp_def]

/-- Every record lies in the partition of its key. -/
def Placed (partitionOf : String → Nat) (rows : List (String × IndexRecord)) : Prop :=
  ∀ row ∈ rows, row.2.partitionId = partitionOf row.1

theorem placed_spilled {partitionOf : String → Nat} (batches : List (List IngestRow))
    {loaded : Loaded}
    (hindex : ∀ (key : String) (record : IndexRecord),
      loaded.world.index.records[key]? = some record → record.partitionId = partitionOf key)
    (hbatches : ∀ row ∈ batches.flatten, row.record.partitionId = partitionOf row.key) :
    Placed partitionOf (spilled prim loaded batches) := by
  induction batches generalizing loaded with
  | nil => simp [Placed, spilled]
  | cons batch rest ih =>
      have hbatch : ∀ row ∈ batch, row.record.partitionId = partitionOf row.key := fun row hrow =>
        hbatches row (List.mem_append_left _ hrow)
      intro row hrow
      rcases List.mem_append.mp hrow with hnow | hlater
      · obtain ⟨line, hline, rfl⟩ := List.mem_map.mp hnow
        cases hknown : loaded.world.index.records[line.key]? with
        | none => simpa [boundRecord, hknown] using hbatch line hline
        | some record => simpa [boundRecord, hknown] using hindex line.key record hknown
      · refine ih ?_ (fun line hline => hbatches line (List.mem_append_right _ hline)) row hlater
        intro key record hrecord
        rw [flushBatch_records, Option.or_eq_some_iff] at hrecord
        rcases hrecord with hold | ⟨-, hnew⟩
        · exact hindex key record hold
        · obtain ⟨line, hline, rfl⟩ := Option.map_eq_some_iff.mp hnew
          have hkey : line.key = key := by simpa using List.find?_some hline
          rw [← hkey]
          exact hbatch line (List.mem_reverse.mp (List.mem_of_find?_eq_some hline))

variable (prim) in
/-- A load binds keys and stores values, and touches nothing else. -/
theorem load_rest (batches : List (List IngestRow)) (loaded : Loaded) :
    (batches.foldl (flushBatch prim) loaded).world.doc = loaded.world.doc ∧
      (batches.foldl (flushBatch prim) loaded).world.index = { loaded.world.index with
        records := (batches.foldl (flushBatch prim) loaded).world.index.records } := by
  induction batches generalizing loaded with
  | nil => exact ⟨rfl, rfl⟩
  | cons batch rest ih =>
      obtain ⟨hdoc, hindex⟩ := ih (flushBatch prim loaded batch)
      rw [List.foldl_cons]
      exact ⟨hdoc, hindex⟩

/-- A key is looked for in its own partition only. -/
theorem find?_ofPartition {partitionOf : String → Nat} {rows : List (String × IndexRecord)}
    (hrows : Placed partitionOf rows) (place : Nat) (key : String) :
    (ofPartition place rows).find? (fun row => row.1 = key) =
      if partitionOf key = place then rows.find? fun row => row.1 = key else none := by
  rw [ofPartition, List.find?_filter]
  split
  next hplace =>
    apply List.find?_congr
    intro row hrow
    by_cases hkey : row.1 = key
    · simp [hkey, hrows row hrow, hplace]
    · simp [hkey]
  next hplace =>
    rw [List.find?_eq_none]
    intro row hrow hfound
    simp only [Bool.decide_and, decide_eq_true_eq, Bool.and_eq_true] at hfound
    exact hplace (by rw [← hfound.2, ← hrows row hrow, hfound.1])

end Load

/-! ## The chunks of a load -/

section Chunked

variable {prim : Primitives} {lib : Libraries} {config : Config} {readLine : DumpReader}
  {clock : Nat → ClockReading}

theorem flatten_chunkBatches (dump : String) (skip : Nat) (limits : List Nat) :
    (chunkBatches prim lib config readLine clock dump skip limits).flatten =
      chunkRows prim lib config readLine clock dump skip limits.sum := by
  induction limits generalizing skip with
  | nil => simp [chunkBatches, chunkRows]
  | cons limit rest ih =>
      rw [chunkBatches, List.flatten_append, flatten_inBatches, ih, List.nil_append, chunkRows,
        chunkRows, chunkRows, ← List.filterMap_append, List.sum_cons, List.take_add, List.drop_drop]

/-- The first line of a key in the chunks is its first line in the dump. -/
theorem find?_dumpRows {dump : String} {limits : List Nat} {key : String} {row : IngestRow}
    (hfirst : firstLine (chunkBatches prim lib config readLine clock dump 0 limits)
      key = some row) :
    (dumpRows prim lib config readLine clock dump).find? (fun row => row.key = key) = some row := by
  rw [firstLine, flatten_chunkBatches, chunkRows, List.drop_zero] at hfirst
  rw [dumpRows, ← List.take_append_drop limits.sum (numberedLines dump), List.filterMap_append,
    List.find?_append, hfirst, Option.some_or]

theorem partitionId_of_mem_dumpRows {dump : String} {row : IngestRow}
    (hrow : row ∈ dumpRows prim lib config readLine clock dump) :
    row.record.partitionId = prim.partitionIdForKey row.key config.topLevelPartitions := by
  obtain ⟨line, -, hline⟩ := List.mem_filterMap.mp hrow
  unfold rowAt ingestRow at hline
  split at hline
  next => cases hline
  next =>
    split at hline
    next => cases hline
    next =>
      split at hline
      next => cases hline
      next =>
        cases hline
        rfl

theorem openSpills_of_length {loaded : Loaded} {partitions : Nat}
    (hlength : loaded.spills.length = partitions) : loaded.openSpills partitions = loaded := by
  have hspills : ((List.range partitions).map fun place => loaded.spills[place]?.getD []) =
      loaded.spills := by
    refine List.ext_getElem (by simpa using hlength.symm) fun place _ hplace => ?_
    simp [hplace]
  rw [Loaded.openSpills, hspills]

theorem length_flushBatch_spills (loaded : Loaded) (batch : List IngestRow) :
    (flushBatch prim loaded batch).spills.length = loaded.spills.length := by
  rw [flushBatch_spills]
  generalize loaded.spills = spills
  induction batch generalizing spills with
  | nil => rfl
  | cons row rest ih => rw [List.foldl_cons, ih, spillEntry, List.length_modify]

theorem length_load_spills (batches : List (List IngestRow)) (loaded : Loaded) :
    (batches.foldl (flushBatch prim) loaded).spills.length = loaded.spills.length := by
  induction batches generalizing loaded with
  | nil => rfl
  | cons batch rest ih => rw [List.foldl_cons, ih, length_flushBatch_spills]

/-- Chunks are loaded batch by batch. -/
theorem ingestChunks_eq (dump : String) (skip : Nat) (limits : List Nat) (loaded : Loaded) :
    (ingestChunks prim lib config readLine clock dump skip limits loaded).openSpills
        config.topLevelPartitions =
      (chunkBatches prim lib config readLine clock dump skip limits).foldl (flushBatch prim)
        (loaded.openSpills config.topLevelPartitions) := by
  induction limits generalizing skip loaded with
  | nil => rfl
  | cons limit rest ih =>
      have hlength : (ingest prim lib config readLine clock dump skip limit loaded).spills.length =
          config.topLevelPartitions := by
        rw [ingest_eq, length_load_spills, Loaded.openSpills, List.length_map, List.length_range]
      rw [ingestChunks, ih, openSpills_of_length hlength, ingest_eq, chunkBatches,
        List.foldl_append]

end Chunked

end Registry

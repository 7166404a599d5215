import Registry.Daemon.BulkLoad
import Registry.Daemon.KeyLines

/-! # Stamping records again

The dump pass of `retimestamp` takes the timestamps of all lines whose value is a
declaration and writes them to the index by key, in batches. So the last stamped line of
a key decides, whether or not its value is the one that the record is bound to.
-/

namespace Registry

section Pass

variable (lib : Libraries) (readLine : DumpReader)

/-- The key and the timestamp that a line of the dump gives. -/
def stampOf (line : String) : Option (String × Timestamp) :=
  match readLine line with
  | .error _ => none
  | .ok parsed => do
      let value ← lib.canonicalValueStr parsed.value
      let createdAt ← lib.declarationTimestamp value
      pure (parsed.key, createdAt)

/-- Take in one line. A full batch is written to the index. -/
def retimestampLine (state : RecordIndex × List (String × Timestamp)) (line : String) :
    RecordIndex × List (String × Timestamp) :=
  if line = "" then state
  else
    match stampOf lib readLine line with
    | none => state
    | some row =>
        let batch := state.2 ++ [row]
        if 10000 ≤ batch.length then ((state.1.updateCreatedAt batch).2, [])
        else (state.1, batch)

/-- The dump pass of `retimestamp`. -/
def retimestampPass (index : RecordIndex) (dump : String) : RecordIndex :=
  let (index, batch) := (Text.lines dump).foldl (retimestampLine lib readLine) (index, [])
  (index.updateCreatedAt batch).2

/-- What a line stamps. An empty one is passed over. -/
def lineStamp (line : String) : Option (String × Timestamp) :=
  if line = "" then none else stampOf lib readLine line

/-- The stamps of a dump in the order of its lines. -/
def stamps (dump : String) : List (String × Timestamp) :=
  (Text.lines dump).filterMap (lineStamp lib readLine)

end Pass

/-- The last stamp of a key. -/
def lastStamp (rows : List (String × Timestamp)) (key : String) : Option Timestamp :=
  (rows.reverse.find? fun row => row.1 = key).map Prod.snd

theorem lastStamp_concat (rows : List (String × Timestamp)) (row : String × Timestamp)
    (key : String) :
    lastStamp (rows ++ [row]) key = if row.1 = key then some row.2 else lastStamp rows key := by
  rw [lastStamp, List.reverse_append, List.reverse_singleton, List.singleton_append,
    List.find?_cons]
  split
  next hkey => rw [if_pos (of_decide_eq_true hkey)]; rfl
  next hkey => rw [if_neg (of_decide_eq_false hkey)]; rfl

/-- A record with the timestamp that it is given, if any. -/
def restamped (stamp : Option Timestamp) (record : IndexRecord) : IndexRecord :=
  { record with createdAt := stamp.getD record.createdAt }

namespace RecordIndex

variable (index : RecordIndex)

theorem updateCreatedAt_concat (batch : List (String × Timestamp)) (row : String × Timestamp) :
    (index.updateCreatedAt (batch ++ [row])).2 =
      (match (index.updateCreatedAt batch).2.records[row.1]? with
        | none => (index.updateCreatedAt batch).2
        | some record =>
            if record.createdAt = row.2 then (index.updateCreatedAt batch).2
            else { (index.updateCreatedAt batch).2 with
              records := (index.updateCreatedAt batch).2.records.insert row.1
                { record with createdAt := row.2 } }) := by
  rw [updateCreatedAt, List.foldl_append, List.foldl_cons, List.foldl_nil, ← updateCreatedAt]
  dsimp only
  cases (index.updateCreatedAt batch).2.records[row.1]? with
  | none => rfl
  | some record => rfl

/-- Records get the last stamp of their key, and nothing else changes. -/
theorem updateCreatedAt_eq (batch : List (String × Timestamp)) :
    (∀ key : String, (index.updateCreatedAt batch).2.records[key]? =
      index.records[key]?.map (restamped (lastStamp batch key))) ∧
    (index.updateCreatedAt batch).2 =
      { index with records := (index.updateCreatedAt batch).2.records } := by
  induction batch using List.reverseRecOn with
  | nil =>
      refine ⟨fun key => ?_, rfl⟩
      change index.records[key]? = index.records[key]?.map (restamped none)
      cases index.records[key]? <;> rfl
  | append_singleton batch row ih =>
      obtain ⟨hrecords, hrest⟩ := ih
      have hrow := hrecords row.1
      rw [updateCreatedAt_concat]
      constructor
      · intro key
        rw [lastStamp_concat]
        by_cases hkey : row.1 = key
        · subst hkey
          rw [if_pos rfl]
          cases hold : index.records[row.1]? with
          | none =>
              rw [hold] at hrow
              rw [hrow]
              exact hrow
          | some record =>
              rw [hold] at hrow
              simp only [hrow, Option.map_some]
              split
              next hsame =>
                rw [hrow]
                exact congrArg some (by rw [restamped, restamped, Option.getD_some, ← hsame]; rfl)
              next =>
                rw [Std.ExtTreeMap.getElem?_insert_self]
                rfl
        · rw [if_neg hkey, ← hrecords key]
          split
          next => rfl
          next =>
            split
            next => rfl
            next => simp only [Std.ExtTreeMap.getElem?_insert, Std.compare_eq_iff_eq, if_neg hkey]
      · split
        next => exact hrest
        next =>
          split
          next => exact hrest
          next => rw [hrest]

/-- Two batches are one. -/
theorem updateCreatedAt_append (first second : List (String × Timestamp)) :
    ((index.updateCreatedAt first).2.updateCreatedAt second).2 =
      (index.updateCreatedAt (first ++ second)).2 := by
  induction second using List.reverseRecOn with
  | nil => rw [List.append_nil]; rfl
  | append_singleton second row ih =>
      rw [← List.append_assoc, updateCreatedAt_concat, updateCreatedAt_concat, ih]

end RecordIndex

section Stamping

variable (prim : Primitives) (lib : Libraries) (readLine : DumpReader)

/-- The batches of the pass write all stamps of the dump, one after the other. -/
theorem retimestampPass_eq (index : RecordIndex) (dump : String) :
    retimestampPass lib readLine index dump =
      (index.updateCreatedAt (stamps lib readLine dump)).2 := by
  suffices hlines : ∀ (todo : List String) (state : RecordIndex × List (String × Timestamp)),
      ((todo.foldl (retimestampLine lib readLine) state).1.updateCreatedAt
        (todo.foldl (retimestampLine lib readLine) state).2).2 =
      (state.1.updateCreatedAt (state.2 ++ todo.filterMap (lineStamp lib readLine))).2
    from hlines _ (index, [])
  intro todo
  induction todo with
  | nil =>
      intro state
      rw [List.filterMap_nil, List.append_nil]
      rfl
  | cons line rest ih =>
      intro state
      rw [List.foldl_cons, ih, retimestampLine]
      by_cases hempty : line = ""
      · have hnone : lineStamp lib readLine line = none := if_pos hempty
        rw [if_pos hempty, List.filterMap_cons_none hnone]
      · have hline : lineStamp lib readLine line = stampOf lib readLine line := if_neg hempty
        rw [if_neg hempty]
        cases hstamp : stampOf lib readLine line with
        | none => rw [List.filterMap_cons_none (hline.trans hstamp)]
        | some row =>
            rw [List.filterMap_cons_some (hline.trans hstamp), List.append_cons]
            dsimp only
            split
            next => rw [List.nil_append, RecordIndex.updateCreatedAt_append]
            next => rfl

/-- The dump has a line with the key whose value is the record's own, and which carries
this timestamp. -/
def OwnStamp (dump key : String) (record : IndexRecord) (stamp : Timestamp) : Prop :=
  ∃ line ∈ Text.lines dump, line ≠ "" ∧ ∃ parsed value, readLine line = .ok parsed ∧
    parsed.key = key ∧ lib.canonicalValueStr parsed.value = some value ∧
    prim.contentHash value = record.contentHash ∧ lib.declarationTimestamp value = some stamp

/-- Every record gets the timestamp of its own value, or keeps its own, and nothing else
changes. -/
structure StampedByOwnValue (dump : String) (before after : RecordIndex) : Prop where
  stamped : ∀ (key : String) (record : IndexRecord), before.records[key]? = some record →
    ∃ later : IndexRecord, after.records[key]? = some later ∧
      later = { record with createdAt := later.createdAt } ∧
      (∀ stamp, OwnStamp prim lib readLine dump key record stamp → later.createdAt = stamp) ∧
      ((¬ ∃ stamp, OwnStamp prim lib readLine dump key record stamp) →
        later.createdAt = record.createdAt)
  absent : ∀ key : String, before.records[key]? = none → after.records[key]? = none
  rest : after = { before with records := after.records }

/-- The last stamp of the key is that of the record's own value, or else the record's
own. -/
def LastStampIsOwn (dump key : String) (record : IndexRecord) : Prop :=
  ∀ last, lastStamp (stamps lib readLine dump) key = some last →
    (∀ stamp, OwnStamp prim lib readLine dump key record stamp → last = stamp) ∧
      ((¬ ∃ stamp, OwnStamp prim lib readLine dump key record stamp) → last = record.createdAt)

variable {prim lib readLine} {dump : String}

theorem exists_lastStamp {key : String} {record : IndexRecord} {stamp : Timestamp}
    (hown : OwnStamp prim lib readLine dump key record stamp) :
    ∃ last, lastStamp (stamps lib readLine dump) key = some last := by
  obtain ⟨line, hline, hnonempty, parsed, value, hparsed, rfl, hvalue, -, hstamp⟩ := hown
  have hrow : (parsed.key, stamp) ∈ stamps lib readLine dump := by
    refine List.mem_filterMap.mpr ⟨line, hline, ?_⟩
    rw [lineStamp, if_neg hnonempty, stampOf, hparsed]
    simp [hvalue, hstamp]
  rw [← Option.isSome_iff_exists, lastStamp, Option.isSome_map, List.find?_isSome]
  exact ⟨_, List.mem_reverse.mpr hrow, decide_eq_true rfl⟩

/-- The dump pass stamps every record by its own value exactly when, for every indexed
key that a line stamps, the last such line gives the timestamp of the record's own
value, or, where no line has that value, the timestamp that the record has. -/
theorem retimestampPass_ownValue_iff (index : RecordIndex) :
    StampedByOwnValue prim lib readLine dump index (retimestampPass lib readLine index dump) ↔
      ∀ (key : String) (record : IndexRecord), index.records[key]? = some record →
        LastStampIsOwn prim lib readLine dump key record := by
  obtain ⟨hrecords, hrest⟩ := index.updateCreatedAt_eq (stamps lib readLine dump)
  rw [← retimestampPass_eq] at hrecords hrest
  constructor
  · intro hstamped key record hrecord last hlast
    obtain ⟨later, hlater, -, hown, hnone⟩ := hstamped.stamped key record hrecord
    rw [hrecords, hrecord, hlast] at hlater
    obtain rfl : restamped (some last) record = later := Option.some.inj hlater
    exact ⟨hown, hnone⟩
  · intro hlast
    refine ⟨fun key record hrecord => ?_, fun key hnone => ?_, hrest⟩
    · have hlater := hrecords key
      rw [hrecord, Option.map_some] at hlater
      refine ⟨_, hlater, rfl, ?_, ?_⟩
      · intro stamp hown
        obtain ⟨last, hsome⟩ := exists_lastStamp hown
        rw [hsome]
        exact (hlast key record hrecord last hsome).1 stamp hown
      · intro hnone
        cases hsome : lastStamp (stamps lib readLine dump) key with
        | none => rfl
        | some last => exact (hlast key record hrecord last hsome).2 hnone
    · rw [hrecords, hnone]
      rfl

end Stamping

/-! ## A rejected value that is stamped

A record whose key occurs in the dump a second time, with another value, which the
ingest had rejected as a conflict. -/

namespace Sample

def earlyValue : String := "\x7b\"timestamp\":1714521600000\x7d"
def lateValue : String := "\x7b\"timestamp\":1714608000000\x7d"

def earlyJson : Json := .object [("timestamp", .integer 1714521600000)]
def lateJson : Json := .object [("timestamp", .integer 1714608000000)]

/-- The line of a dump for the first key. -/
def dumpLine (value : String) : String :=
  "\x7b\"key\":\"" ++ firstKey ++ "\",\"value\":" ++ value ++ "\x7d"

def stampReader : DumpReader := fun line =>
  if line = dumpLine earlyValue then .ok ⟨firstKey, earlyJson⟩
  else if line = dumpLine lateValue then .ok ⟨firstKey, lateJson⟩
  else .error "expected value at line 1 column 1"

def stampLib : Libraries where
  __ := lib
  parseJson text :=
    if text = earlyValue then .ok earlyJson
    else if text = lateValue then .ok lateJson
    else .error "expected value at line 1 column 1"
  printJson
    | .object [("timestamp", .integer 1714521600000)] => earlyValue
    | .object [("timestamp", .integer 1714608000000)] => lateValue
    | _ => "null"
  timestampMillis millis := some (millis * 1000000)

def earlyHash : Hash := ⟨bytes32 0x117a35a06d48120e717fc9530558aa02ea22b2b08f543211e3734e691aa4a00a⟩
def lateHash : Hash := ⟨bytes32 0xa2ddf8ac11bff2c553d912afca17e02cf70738e99fccbe1973281f0da8174195⟩

def stampPrim : Primitives where
  __ := prim
  blake3 bytes :=
    if bytes = utf8 earlyValue then earlyHash
    else if bytes = utf8 lateValue then lateHash
    else prim.blake3 bytes

/-- An index that binds the first key to the earlier value. -/
def stampIndex : RecordIndex :=
  RecordIndex.empty.bulkMarkPublished [(firstKey, { keyRecord with contentHash := earlyHash })]

/-- The earlier value, and then the later one. -/
def stampDump : String := dumpLine earlyValue ++ "\n" ++ dumpLine lateValue ++ "\n"

end Sample

/-- The record gets the timestamp of the value that was rejected. -/
theorem retimestampPass_foreign_value :
    ¬ StampedByOwnValue Sample.stampPrim Sample.stampLib Sample.stampReader Sample.stampDump
      Sample.stampIndex
      (retimestampPass Sample.stampLib Sample.stampReader Sample.stampIndex Sample.stampDump) := by
  intro hstamped
  have hrecord : Sample.stampIndex.records[Sample.firstKey]? =
      some { Sample.keyRecord with contentHash := Sample.earlyHash } := by decide +kernel
  obtain ⟨later, hlater, -, hown, -⟩ := hstamped.stamped _ _ hrecord
  have hstamp : OwnStamp Sample.stampPrim Sample.stampLib Sample.stampReader Sample.stampDump
      Sample.firstKey { Sample.keyRecord with contentHash := Sample.earlyHash } Sample.createdAt :=
    ⟨Sample.dumpLine Sample.earlyValue, by decide +kernel, by decide +kernel,
      ⟨Sample.firstKey, Sample.earlyJson⟩, Sample.earlyValue, by rfl, rfl, by rfl,
      by decide +kernel, by decide +kernel⟩
  have hfound : ((retimestampPass Sample.stampLib Sample.stampReader Sample.stampIndex
      Sample.stampDump).records[Sample.firstKey]?.map IndexRecord.createdAt) =
        some (1714608000 * 1000000000) := by decide +kernel
  rw [hlater, Option.map_some, hown _ hstamp] at hfound
  exact absurd hfound (by decide)

end Registry

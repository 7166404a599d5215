import Registry.Daemon.Converge
import Registry.Daemon.Linearize
import Registry.Daemon.Republish

/-! # Two ways to import a dump

A dump can be sent to the write API in batches and published by the cycles, or loaded
into the data directory and built. Both validate a line in their own code, decide between
repeated keys at another place, and build their trees by another algorithm. Either way a
key resolves to the value of its first valid line.
-/

namespace Registry

open Effect

/-! ## The first valid value of a key -/

section Values

variable (prim : Primitives) (lib : Libraries) (config : Config)

/-- The value of the first valid record of a key. -/
def firstValue (requests : List SubmitRecordRequest) (key : String) : Option String :=
  requests.findSome? fun request =>
    if request.key = key then (checkRequest lib config request).toOption else none

/-- The record for a value, at this time if the value carries none. -/
def datedRecord (key : String) (now : Timestamp) (value : String) : IndexRecord :=
  newRecord prim lib config key value ((lib.declarationTimestamp value).getD now)

/-- The records of a dump, as they are sent to the write API. -/
def dumpRequests (readLine : DumpReader) (dump : String) : List SubmitRecordRequest :=
  ((Text.lines dump).filter fun line => line ≠ "").filterMap fun line =>
    (readLine line).toOption.map fun parsed => ⟨parsed.key, parsed.value⟩

variable {prim lib config}

theorem firstValue_append (first second : List SubmitRecordRequest) (key : String) :
    firstValue lib config (first ++ second) key =
      (firstValue lib config first key).or (firstValue lib config second key) := by
  rw [firstValue, List.findSome?_append]
  rfl

theorem firstValue_cons (request : SubmitRecordRequest) (rest : List SubmitRecordRequest)
    (key : String) : firstValue lib config (request :: rest) key =
      (if request.key = key then (checkRequest lib config request).toOption else none).or
        (firstValue lib config rest key) := by
  rw [firstValue, List.findSome?_cons, firstValue]
  cases (if request.key = key then (checkRequest lib config request).toOption else none) <;> rfl

theorem exists_of_firstValue {requests : List SubmitRecordRequest} {key value : String}
    (hvalue : firstValue lib config requests key = some value) :
    ∃ request ∈ requests, request.key = key := by
  obtain ⟨request, hmem, hfound⟩ := List.exists_of_findSome?_eq_some hvalue
  split at hfound
  next hkey => exact ⟨request, hmem, hkey⟩
  next => cases hfound

/-- The first candidate of a key is its first valid record. -/
theorem ValidatedFrom.find?_candidates {slot : Nat} {requests : List SubmitRecordRequest}
    {results : Results} {candidates : List Candidate}
    (hvalidated : ValidatedFrom prim lib config slot requests results candidates) (key : String) :
    ∃ now, (candidates.find? fun candidate => candidate.key = key).map Candidate.record =
      (firstValue lib config requests key).map (datedRecord prim lib config key now) := by
  induction hvalidated with
  | nil slot => exact ⟨0, rfl⟩
  | @invalid slot request rest results candidates error hrejected _ ih =>
      have hnone : (checkRequest lib config request).toOption = none := by
        rw [hrejected]
        rfl
      rw [firstValue_cons, hnone, ite_self, Option.none_or]
      exact ih
  | @valid slot request rest results candidates value record haccepted _ ih =>
      rw [firstValue_cons]
      by_cases hkey : request.key = key
      · obtain ⟨hvalue, createdAt, hstamp, hrecord⟩ := haccepted
        have hsome : (checkRequest lib config request).toOption = some value := by
          rw [hvalue]
          rfl
        refine ⟨createdAt, ?_⟩
        rw [List.find?_cons_of_pos (by simpa using hkey), if_pos hkey, hsome, Option.some_or,
          Option.map_some, Option.map_some, datedRecord, hstamp, ← hkey, hrecord]
      · rw [List.find?_cons_of_neg (by simpa using hkey), if_neg hkey, Option.none_or]
        exact ih

end Values

/-! ## Batches without faults -/

section Batches

variable {prim : Primitives} {lib : Libraries} {config : Config}

theorem find?_unknownTasks {rows : List (Candidate × Option IndexRecord)} {key : String}
    (hrows : ∀ row ∈ rows, row.1.key = key → row.2 = none) :
    (unknownTasks rows).find? (fun candidate => candidate.key = key) =
      (rows.map Prod.fst).find? fun candidate => candidate.key = key := by
  induction rows with
  | nil => rfl
  | cons row rest ih =>
      have hrest := ih fun other hother => hrows other (List.mem_cons_of_mem _ hother)
      obtain ⟨candidate, existing⟩ := row
      by_cases hkey : candidate.key = key
      · obtain rfl : existing = none := hrows _ List.mem_cons_self hkey
        rw [List.map_cons, List.find?_cons_of_pos (by simpa using hkey)]
        exact List.find?_cons_of_pos (by simpa using hkey)
      · rw [List.map_cons, List.find?_cons_of_neg (by simpa using hkey), ← hrest]
        cases existing with
        | none => exact List.find?_cons_of_neg (by simpa using hkey)
        | some prior => rfl

/-- If every value is stored, the first submission of a new key is its first candidate. -/
theorem BatchPlan.Fits.find?_submissions {plan : BatchPlan} {requests : List SubmitRecordRequest}
    (hfits : plan.Fits prim lib config (fun _ _ => False) requests) {key : String}
    (hunseen : ∀ prior, (key, prior) ∉ plan.seen) :
    (plan.submissions.find? fun submission => submission.1 = key).map Prod.snd =
      (plan.candidates.find? fun candidate => candidate.key = key).map Candidate.record := by
  have hslots : (plan.tasks.map Candidate.slot).Nodup :=
    ((plan.tasks_sublist hfits.existing).map Candidate.slot).nodup hfits.validated.slots_nodup
  have hprepared : plan.prepared = plan.tasks := by
    refine List.filter_eq_self.mpr fun task htask => ?_
    cases houtcome : taskOutcome plan.done task.slot with
    | ok hash => rfl
    | error error =>
        have hdone := mem_done_of_mem hslots hfits.done htask
        exact (hfits.failures _ hdone error houtcome).elim
  have hrows : plan.rows.map Prod.fst = plan.candidates := List.map_fst_zip hfits.existing.ge
  have hnone : ∀ row ∈ plan.rows, row.1.key = key → row.2 = none := by
    intro row hrow hkey
    cases hexisting : row.2 with
    | none => rfl
    | some prior =>
        refine absurd ?_ (hunseen prior)
        rw [seen, seenRecords, List.zip_map_left]
        refine List.mem_filterMap.mpr ⟨_, List.mem_map_of_mem hrow, ?_⟩
        simp [hexisting, hkey]
  rw [submissions, hprepared, List.find?_map, Option.map_map, ← hrows, tasks,
    ← find?_unknownTasks hnone]
  rfl

/-- What a batch knows that runs alone from a data directory. -/
structure SubmitsFrom (start : World) (seen : List (String × IndexRecord)) (index : RecordIndex)
    (world : World) : Prop where
  index : world.index = index
  doc : world.doc = start.doc
  seen : ∀ row ∈ seen, start.index.records[row.1]? = some row.2

theorem submitsFrom_kept (start : World) (seen : List (String × IndexRecord))
    (index : RecordIndex) :
    Kept (aloneSetting prim .none Set.univ fun _ => True) ReadsOrStores
      (SubmitsFrom start seen index) :=
  (aloneSetting_kept (fun _ _ _ _ => trivial) fun _ _ hsame _ hbefore =>
    ⟨hsame.index.trans hbefore.index, hsame.doc.trans hbefore.doc, hbefore.seen⟩).mono
      fun _ hop => hop.keepsTables

variable (prim lib config) in
/-- A batch that runs alone and without faults writes once. -/
def submittingRules (start : World) :
    RequestRules (aloneSetting prim .none Set.univ fun _ => True) prim lib config where
  knows seen _ := SubmitsFrom start seen start.index
  wrote seen submissions _ := SubmitsFrom start seen (start.index.submitMany submissions).2
  putFailed _ _ _ := False
  indexFailed _ := False
  quiet := (aloneSetting_kept (fun _ _ _ _ => trivial) fun _ _ _ _ _ => trivial).mono
    fun _ hop => hop.keepsTables
  keep seen _ := submitsFrom_kept start seen start.index
  put := by
    intro seen stored value before hash after hinv hknows hsem
    exact ((submitsFrom_kept start seen start.index).call (.store (.put (utf8 value))) _ _ _ trivial
      hinv hknows hsem).2.2
  putError := by
    intro value before error after hsem failure hfailure
    obtain ⟨blobs, ⟨hanswer, -⟩ | ⟨hfault, -⟩, -⟩ := hsem.1
    · cases hanswer
    · exact hfault
  failedRely _ hfailed := hfailed
  failedCall _ hfailed := hfailed
  read := by
    intro keys before existing after hinv hknows hsem
    have hafter := ((submitsFrom_kept start [] start.index).call (.index (.getMany keys)) _ _ _
      trivial hinv hknows hsem).2.2
    obtain ⟨rfl, -⟩ := hsem.1.index_ok
    refine ⟨List.length_map _, hafter.index, hafter.doc, fun row hrow => ?_⟩
    rw [← hknows.index]
    exact mem_seenRecords hrow
  write := by
    intro seen stored submissions before response after hinv hknows _ hsem
    refine ⟨⟨hsem.2, trivial⟩, trivial, ?_⟩
    intro outcomes hanswer
    subst hanswer
    obtain ⟨rfl, rfl⟩ := hsem.1.index_ok
    refine ⟨before.index.submitMany_length _, ?_, hknows.doc, hknows.seen⟩
    rw [← hknows.index]
    rfl
  indexError := by
    intro op before message after hsem
    rcases hsem.1 with ⟨hanswer, -⟩ | ⟨hfault, -⟩
    · cases hanswer
    · exact hfault
  keepWrote seen submissions _ :=
    (submitsFrom_kept start seen (start.index.submitMany submissions).2).mono
      fun _ hop => hop ▸ trivial

/-- A batch within its limit that runs alone and without faults. -/
theorem submitBatch_alone {batch : List SubmitRecordRequest}
    (hcount : batch.length ≤ config.batchMaxRecords) {start final : World}
    {outcome : Prog.Outcome ApiError Response}
    (hruns : Prog.Runs (prim.DaemonStep .none) (handle prim lib config (.batch batch)) start outcome
      final) :
    ∃ results, outcome = .ok (.batch 207 results) ∧
      (submittingRules prim lib config start).Answered batch results final := by
  have hknows : (submittingRules prim lib config start).knows [] [] start := ⟨rfl, rfl, by simp⟩
  have hvalid : Valid (aloneSetting prim .none Set.univ fun _ => True)
      (fun response after => ∃ results, response = .batch 207 results ∧
        (submittingRules prim lib config start).Answered batch results after)
      (fun _ _ => False) (handle prim lib config (.batch batch)) start := by
    apply Valid.bind
    refine Valid.mono ?_ (fun _ _ herror => herror)
      ((submittingRules prim lib config start).submitBatch_valid hcount hknows)
    intro answer after hanswer
    obtain ⟨status, results⟩ := answer
    obtain ⟨hstatus, hanswered⟩ := hanswer
    obtain rfl : status = 207 := hstatus
    exact ⟨results, rfl, hanswered⟩
  have hmeets := aloneSetting_outcome hvalid hruns (fun _ _ => trivial) trivial
  cases outcome with
  | ok response =>
      obtain ⟨results, hresponse, hanswered⟩ := hmeets
      exact ⟨results, congrArg _ hresponse, hanswered⟩
  | error error => exact hmeets.elim
  | diverged => exact hmeets.elim

end Batches

/-! ## Consecutive batches -/

section Feeding

variable (prim : Primitives) (lib : Libraries) (config : Config)

/-- Batches sent one after the other, each answered before the next, without faults. -/
inductive Feeds : World → List (List SubmitRecordRequest) → World → Prop
  | nil (world : World) : Feeds world [] world
  | cons {start middle final : World} {batch : List SubmitRecordRequest}
      {rest : List (List SubmitRecordRequest)} {outcome : Prog.Outcome ApiError Response}
      (answered : Prog.Runs (prim.DaemonStep .none) (handle prim lib config (.batch batch)) start
        outcome middle)
      (others : Feeds middle rest final) : Feeds start (batch :: rest) final

/-- A data directory with nothing but what these records claim, all of it queued. -/
structure Fed (requests : List SubmitRecordRequest) (world : World) : Prop where
  doc : world.doc = .empty
  localRoots : world.index.localRoots = ∅
  consistent : RecordIndex.Consistent (fun key =>
    prim.partitionIdForKey key config.topLevelPartitions) world.index
  records : ∀ key : String, ∃ now, world.index.records[key]? =
    (firstValue lib config requests key).map (datedRecord prim lib config key now)

variable {prim lib config}

theorem Fed.empty : Fed prim lib config [] .empty where
  doc := rfl
  localRoots := rfl
  consistent := RecordIndex.Consistent.empty
  records key := ⟨0, by simp [World.empty, RecordIndex.empty, firstValue]⟩

theorem Fed.batch {requests batch : List SubmitRecordRequest} {start final : World}
    (hfed : Fed prim lib config requests start) (hcount : batch.length ≤ config.batchMaxRecords)
    {outcome : Prog.Outcome ApiError Response}
    (hruns : Prog.Runs (prim.DaemonStep .none) (handle prim lib config (.batch batch)) start outcome
      final) : Fed prim lib config (requests ++ batch) final := by
  obtain ⟨results, -, plan, hfits, -, hwrote⟩ := submitBatch_alone hcount hruns
  have hindex : final.index = (start.index.submitMany plan.submissions).2 := hwrote.index
  refine ⟨hwrote.doc.trans hfed.doc, ?_, ?_, fun key => ?_⟩
  · rw [hindex, RecordIndex.submitMany_localRoots]
    exact hfed.localRoots
  · rw [hindex]
    refine hfed.consistent.submitMany fun submission hsubmission => ?_
    obtain ⟨task, htask, rfl⟩ := List.mem_map.mp hsubmission
    have hcandidate := (plan.tasks_sublist hfits.existing).subset (List.mem_filter.mp htask).1
    obtain ⟨request, -, hkey, -, createdAt, -, hrecord⟩ := hfits.candidate_valid hcandidate
    rw [hrecord, hkey]
    rfl
  · obtain ⟨before, hbefore⟩ := hfed.records key
    rw [hindex, RecordIndex.submitMany_getElem?, firstValue_append]
    cases hknown : firstValue lib config requests key with
    | some value =>
        refine ⟨before, ?_⟩
        rw [hbefore, hknown]
        rfl
    | none =>
        -- The key is new, so the precheck has not seen it.
        rw [hknown] at hbefore
        have hunseen : ∀ prior, (key, prior) ∉ plan.seen := by
          intro prior hprior
          have hrecord := hwrote.seen _ hprior
          rw [hbefore] at hrecord
          cases hrecord
        obtain ⟨now, hfirst⟩ := hfits.validated.find?_candidates key
        refine ⟨now, ?_⟩
        rw [hbefore, hfits.find?_submissions hunseen, hfirst]
        rfl

theorem Feeds.fed {requests : List SubmitRecordRequest} {start final : World}
    {batches : List (List SubmitRecordRequest)} (hfeeds : Feeds prim lib config start batches final)
    (hcounts : ∀ batch ∈ batches, batch.length ≤ config.batchMaxRecords)
    (hfed : Fed prim lib config requests start) :
    Fed prim lib config (requests ++ batches.flatten) final := by
  induction hfeeds generalizing requests with
  | nil world =>
      rw [List.flatten_nil, List.append_nil]
      exact hfed
  | cons answered _ ih =>
      rw [List.flatten_cons, ← List.append_assoc]
      exact ih (fun batch hbatch => hcounts batch (List.mem_cons_of_mem _ hbatch))
        (hfed.batch (hcounts _ List.mem_cons_self) answered)

variable (prim lib config) in
/-- The entry of a key in the tree of a partition, after these records. -/
def importedEntry (requests : List SubmitRecordRequest) (partitionId : Nat) (now : Timestamp)
    (key : String) : Option LeafEntry :=
  if prim.partitionIdForKey key config.topLevelPartitions = partitionId then
    (firstValue lib config requests key).map fun value =>
      (datedRecord prim lib config key now value).leafEntry key
  else none

/-- All records are queued, with their entries. -/
theorem Fed.find?_dueSlips {requests : List SubmitRecordRequest} {world : World}
    (hfed : Fed prim lib config requests world) (partitionId : Nat) (key : String) :
    ∃ now, ((world.index.dueSlips ∅ partitionId).map Slip.entry).find?
        (fun entry => entry.key = key) =
      importedEntry prim lib config requests partitionId now key := by
  obtain ⟨now, hrecord⟩ := hfed.records key
  refine ⟨now, ?_⟩
  -- A slip with this key is one of the record.
  have hslips : ∀ slip ∈ world.index.dueSlips ∅ partitionId, slip.entry.key = key →
      ∃ value, firstValue lib config requests key = some value ∧
        prim.partitionIdForKey key config.topLevelPartitions = partitionId ∧
        slip.entry = (datedRecord prim lib config key now value).leafEntry key := by
    intro slip hslip hkey
    obtain ⟨hmem, hplace, -⟩ := RecordIndex.mem_dueSlips.mp hslip
    obtain ⟨-, record, hfound, hpartition, hentry⟩ := RecordIndex.mem_slips.mp hmem
    rw [hkey] at hfound hentry
    rw [hrecord] at hfound
    obtain ⟨value, hvalue, rfl⟩ := Option.map_eq_some_iff.mp hfound
    exact ⟨value, hvalue, hpartition.trans hplace, hentry.symm⟩
  cases hfind : ((world.index.dueSlips ∅ partitionId).map Slip.entry).find?
      fun entry => entry.key = key with
  | some entry =>
      obtain ⟨slip, hslip, rfl⟩ := List.mem_map.mp (List.mem_of_find?_eq_some hfind)
      obtain ⟨value, hvalue, hplace, hentry⟩ :=
        hslips slip hslip (by simpa using List.find?_some hfind)
      rw [importedEntry, if_pos hplace, hvalue, hentry]
      rfl
  | none =>
      rw [importedEntry]
      split
      next hplace =>
        cases hvalue : firstValue lib config requests key with
        | none => rfl
        | some value =>
            rw [hvalue, Option.map_some] at hrecord
            obtain ⟨seq, hrow⟩ := hfed.consistent.queued key _ hrecord rfl
            have hslip : ⟨seq, partitionId,
                (datedRecord prim lib config key now value).leafEntry key⟩ ∈
                world.index.dueSlips ∅ partitionId :=
              RecordIndex.mem_dueSlips.mpr
                ⟨RecordIndex.mem_slips.mpr ⟨hrow, _, hrecord, hplace, rfl⟩, rfl, by simp⟩
            have hnone := List.find?_eq_none.mp hfind _ (List.mem_map_of_mem hslip)
            simp [IndexRecord.leafEntry] at hnone
      next => rfl

end Feeding

/-! ## What the cycles publish -/

section Draining

variable {prim : Primitives} {lib : Libraries} {config : Config}

variable (prim) in
/-- A root of a partition, or that it has none, in the index or in the pointer document. -/
def HasRoot (world : World) (partitionId : Nat) (root : Option Hash) : Prop :=
  world.index.localRoots[partitionId]? = root ∨ NamesRoot prim world (.partition partitionId) root

variable (prim) in
/-- The keys of these records differ in digest bytes 1 to 31. -/
def DigestsDiffer (requests : List SubmitRecordRequest) : Prop :=
  ∀ first ∈ requests, ∀ second ∈ requests, first.key ≠ second.key →
    ∃ byte : Fin 32, 0 < byte.val ∧
      (prim.keyDigest first.key).get byte ≠ (prim.keyDigest second.key).get byte

theorem DigestsDiffer.not_clash {requests : List SubmitRecordRequest} {entries : List LeafEntry}
    {leafMaxEntries : Nat} (hdiffer : DigestsDiffer prim requests) (hleaf : 1 ≤ leafMaxEntries)
    (hentries : ∀ entry ∈ entries, ∃ request ∈ requests, request.key = entry.key) :
    ¬ prim.DigestsClash leafMaxEntries entries := by
  intro hclash
  obtain ⟨keys, hlength, hnodup, hkeys, hdigests⟩ := hclash
  have hrequest : ∀ key ∈ keys, ∃ request ∈ requests, request.key = key := by
    intro key hkey
    obtain ⟨entry, hentry, rfl⟩ := hkeys key hkey
    exact hentries entry hentry
  obtain ⟨first, second, rest, rfl⟩ : ∃ first second rest, keys = first :: second :: rest := by
    cases keys with
    | nil => simp at hlength
    | cons first others =>
        cases others with
        | nil =>
            simp only [List.length_singleton] at hlength
            omega
        | cons second rest => exact ⟨first, second, rest, rfl⟩
  have hne : first ≠ second := fun heq => by simp [heq] at hnodup
  obtain ⟨left, hleft, rfl⟩ := hrequest first (by simp)
  obtain ⟨right, hright, rfl⟩ := hrequest second (by simp)
  obtain ⟨byte, hbyte, hdigest⟩ := hdiffer left hleft right hright hne
  exact hdigest (hdigests _ (by simp) _ (by simp) byte (Fin.pos_iff_ne_zero.mp hbyte))

theorem Fed.rooted {requests : List SubmitRecordRequest} {world : World}
    (hfed : Fed prim lib config requests world) (partitionId : Nat) :
    Rooted (.canonical prim) partitionId none none .empty world where
  known := by
    rw [hfed.localRoots]
    simp
  named _ := by
    refine ⟨?_, nofun⟩
    rw [hfed.doc]
    simp [PointerDoc.empty, PointerDoc.entry]
  names := (Primitives.Naming.canonical prim).empty.mpr rfl

/-- Every slip has the key of a record. -/
theorem Fed.requested {requests : List SubmitRecordRequest} {world : World}
    (hfed : Fed prim lib config requests world) {partitionId : Nat} {entry : LeafEntry}
    (hentry : entry ∈ (world.index.dueSlips ∅ partitionId).map Slip.entry) :
    ∃ request ∈ requests, request.key = entry.key := by
  obtain ⟨slip, hslip, rfl⟩ := List.mem_map.mp hentry
  obtain ⟨-, record, hrecord, -, -⟩ :=
    RecordIndex.mem_slips.mp (RecordIndex.mem_dueSlips.mp hslip).1
  obtain ⟨now, hfound⟩ := hfed.records slip.entry.key
  rw [hrecord] at hfound
  obtain ⟨value, hvalue, -⟩ := Option.map_eq_some_iff.mp hfound.symm
  exact exists_of_firstValue hvalue

theorem Fed.not_exhausted {requests : List SubmitRecordRequest} {world : World}
    (hfed : Fed prim lib config requests world) (hdiffer : DigestsDiffer prim requests)
    (hleaf : 1 ≤ config.leafMaxEntries) :
    ¬ Exhausted prim config ∅ world fun _ => .empty := by
  intro hexhausted
  obtain ⟨partitionId, error, hinsert⟩ := hexhausted
  have hwf : prim.scheme.WellFormed 0 .empty := trivial
  have hclash : prim.DigestsClash config.leafMaxEntries
      ([] ++ (world.index.dueSlips ∅ partitionId).map Slip.entry) :=
    Primitives.digestsClash_of_insertAll hwf (fun present hpresent => by cases hpresent) hinsert
  rw [List.nil_append] at hclash
  exact hdiffer.not_clash hleaf (fun entry hentry => hfed.requested hentry) hclash

/-- Once the queue is empty, the trees have the first valid value of each key. -/
theorem Fed.lookup_drained {requests : List SubmitRecordRequest} {start drained : World}
    (hfed : Fed prim lib config requests start)
    (hunderway : Underway prim config ∅ start (fun _ => .empty) drained)
    (hempty : drained.index.slips = []) (hfree : prim.CollisionFree {held | held ∈ drained.blobs})
    {partitionId : Nat} {root : Option Hash} (hroot : HasRoot prim drained partitionId root)
    (key : String) :
    ∃ now, (prim.lookup root key).run prim.memoryStore drained.blobs =
      (.ok (importedEntry prim lib config requests partitionId now key), drained.blobs) := by
  obtain ⟨now, hfind⟩ := hfed.find?_dueSlips partitionId key
  refine ⟨now, ?_⟩
  rw [← hfind]
  obtain ⟨hnothing, hknown, hnamed⟩ | ⟨-, grown, settled, hinsert, hnames, hknown, hnamed⟩ :=
    hunderway.settled hempty partitionId
  · -- Nothing was due to this partition, and it has no root.
    have hnone : root = none := by
      have hstart := hfed.rooted partitionId
      rcases hroot with hlocal | hdoc
      · exact hlocal.symm.trans (hknown.trans hstart.known)
      · exact hdoc.unique hfree (hnamed none (hstart.named rfl))
    rw [hnone, hnothing, Primitives.lookup_run hfree key Primitives.Represents.none]
    rfl
  · have hsettled : root = some settled := by
      rcases hroot with hlocal | hdoc
      · exact hlocal.symm.trans hknown
      · exact hdoc.unique hfree hnamed
    have hstart : prim.scheme.WellFormed 0 .empty := trivial
    obtain ⟨hwf, -, hgrown⟩ := prim.scheme.insertAll_ok hstart hinsert
    rw [hsettled, Primitives.lookup_run hfree key ⟨hnames.1, hnames.2, hwf⟩, hgrown]
    rfl

end Draining

/-! ## What the build publishes -/

section Building

variable {prim : Primitives} {lib : Libraries} {config : Config} {readLine : DumpReader}
  {clock : Nat → ClockReading} {dump : String} {limits : List Nat}

/-- A line is loaded if and only if its record passes the checks of a request. -/
theorem ingestRow_eq (reading : ClockReading) (line : String) :
    ingestRow prim lib config readLine reading line =
      (readLine line).toOption.bind fun parsed =>
        (checkRequest lib config ⟨parsed.key, parsed.value⟩).toOption.map fun value =>
          { key := parsed.key
            value := value
            record := { datedRecord prim lib config parsed.key reading.createdAt value with
              status := .published
              publishedAt := some reading.publishedAt } } := by
  unfold ingestRow checkRequest
  cases readLine line with
  | error message => rfl
  | ok parsed =>
      simp only [Except.toOption, Option.bind_some]
      cases hvalid : lib.isValidRecordKey parsed.key with
      | false => cases lib.canonicalValueStr parsed.value <;> simp
      | true =>
          cases hcanonical : lib.canonicalValueStr parsed.value with
          | none =>
              cases hother : lib.canonicalValue parsed.value with
              | error error => rfl
              | ok value =>
                  rw [(lib.canonicalValueStr_eq_some_iff _ _).mpr hother] at hcanonical
                  cases hcanonical
          | some value =>
              rw [(lib.canonicalValueStr_eq_some_iff _ _).mp hcanonical]
              simp only [Bool.not_true, Bool.false_eq_true, false_or, if_false]
              split <;> rfl

variable (prim lib config readLine clock dump) in
/-- The first valid line of a key has its first valid value. -/
theorem find?_dumpRows_eq (key : String) :
    ∃ now, ((dumpRows prim lib config readLine clock dump).find? fun row => row.key = key).map
        (fun row => row.record.leafEntry key) =
      (firstValue lib config (dumpRequests readLine dump) key).map fun value =>
        (datedRecord prim lib config key now value).leafEntry key := by
  rw [dumpRows, numberedLines, dumpRequests]
  generalize ((Text.lines dump).filter fun line => line ≠ "") = lines
  generalize 1 = number
  induction lines generalizing number with
  | nil => exact ⟨0, rfl⟩
  | cons line rest ih =>
      obtain ⟨now, hrest⟩ := ih (number + 1)
      have hrow : rowAt prim lib config readLine clock (line, number) = _ :=
        ingestRow_eq (clock number) line
      rw [List.zipIdx_cons]
      cases hparsed : (readLine line).toOption with
      | none =>
          rw [hparsed, Option.bind_none] at hrow
          rw [List.filterMap_cons_none hrow, List.filterMap_cons_none (by rw [hparsed]; rfl)]
          exact ⟨now, hrest⟩
      | some parsed =>
          rw [hparsed, Option.bind_some] at hrow
          rw [List.filterMap_cons_some
            (f := fun line => (readLine line).toOption.map fun parsed =>
              (⟨parsed.key, parsed.value⟩ : SubmitRecordRequest)) (by rw [hparsed]; rfl),
            firstValue_cons]
          dsimp only
          cases hchecked : (checkRequest lib config ⟨parsed.key, parsed.value⟩).toOption with
          | none =>
              rw [hchecked, Option.map_none] at hrow
              rw [List.filterMap_cons_none hrow, ite_self, Option.none_or]
              exact ⟨now, hrest⟩
          | some value =>
              rw [hchecked, Option.map_some] at hrow
              rw [List.filterMap_cons_some hrow]
              by_cases hkey : parsed.key = key
              · refine ⟨(clock number).createdAt, ?_⟩
                rw [List.find?_cons_of_pos (by simpa using hkey), if_pos hkey, Option.some_or,
                  Option.map_some, Option.map_some, ← hkey]
                rfl
              · rw [List.find?_cons_of_neg (by simpa using hkey), if_neg hkey, Option.none_or]
                exact ⟨now, hrest⟩

theorem firstLine_eq (hlines : (numberedLines dump).length ≤ limits.sum) (key : String) :
    firstLine (chunkBatches prim lib config readLine clock dump 0 limits) key =
      (dumpRows prim lib config readLine clock dump).find? fun row => row.key = key := by
  rw [firstLine, flatten_chunkBatches, chunkRows, List.drop_zero, List.take_of_length_le hlines,
    dumpRows]

theorem length_ingestChunks_spills (skip : Nat) {limits : List Nat} (hchunks : limits ≠ [])
    (loaded : Loaded) :
    (ingestChunks prim lib config readLine clock dump skip limits loaded).spills.length =
      config.topLevelPartitions := by
  induction limits generalizing skip loaded with
  | nil => exact absurd rfl hchunks
  | cons limit rest ih =>
      rw [ingestChunks]
      cases rest with
      | nil =>
          rw [ingestChunks, ingest_eq, length_load_spills, Loaded.openSpills, List.length_map,
            List.length_range]
      | cons next others => exact ih (skip + limit) (by simp) _

/-- Every line that is spilled has the key of a record of the dump. -/
theorem requested_of_spilled (hlines : (numberedLines dump).length ≤ limits.sum)
    {row : String × IndexRecord}
    (hrow : row ∈ bulkSpilled prim lib config readLine clock dump limits) :
    ∃ request ∈ dumpRequests readLine dump, request.key = row.1 := by
  have hnew : (Loaded.empty.openSpills config.topLevelPartitions).world.index.records[row.1]? =
      none := by
    simp [Loaded.openSpills, Loaded.empty, World.empty, RecordIndex.empty]
  have hsome : ((bulkSpilled prim lib config readLine clock dump limits).find? fun other =>
      other.1 = row.1).isSome := by
    rw [List.find?_isSome]
    exact ⟨row, hrow, by simp⟩
  rw [find?_spilled _ hnew, firstLine_eq hlines, Option.isSome_map] at hsome
  obtain ⟨now, hfirst⟩ := find?_dumpRows_eq prim lib config readLine clock dump row.1
  have hvalue := congrArg Option.isSome hfirst
  rw [Option.isSome_map, Option.isSome_map, hsome] at hvalue
  obtain ⟨value, hvalue⟩ := Option.isSome_iff_exists.mp hvalue.symm
  exact exists_of_firstValue hvalue

/-- A load of the whole dump can be built, and its trees have the first valid value of each
key. -/
theorem bulkLoad_lookup (hplain : prim.TextsEndPlain) (hleaf : 1 ≤ config.leafMaxEntries)
    (hchunks : limits ≠ []) (hlines : (numberedLines dump).length ≤ limits.sum)
    (hdiffer : DigestsDiffer prim (dumpRequests readLine dump))
    {outcome : Prog.Outcome BuildError Unit} {built : World}
    (hruns : Prog.Runs (prim.DaemonStep .none)
      (buildTrees prim config (bulkLoaded prim lib config readLine clock dump limits).spills)
      (bulkLoaded prim lib config readLine clock dump limits).world outcome built)
    (hfree : prim.CollisionFree {held | held ∈ built.blobs}) :
    outcome = .ok () ∧ ∀ partitionId < config.topLevelPartitions, ∀ root,
      HasRoot prim built partitionId root → ∀ key, ∃ now,
        (prim.lookup root key).run prim.memoryStore built.blobs =
          (.ok (importedEntry prim lib config (dumpRequests readLine dump) partitionId now key),
            built.blobs) := by
  let loaded := bulkLoaded prim lib config readLine clock dump limits
  have hended := aloneSetting_outcome (buildTrees_valid {held | held ∈ built.blobs} loaded.world)
    hruns (fun _ hblob => hblob) trivial
  have hlength : loaded.spills.length = config.topLevelPartitions :=
    length_ingestChunks_spills 0 hchunks .empty
  have hbuilt : outcome = .ok () ∧
      TreesBuilt prim config loaded.spills loaded.world config.topLevelPartitions built := by
    cases outcome with
    | ok value => exact ⟨rfl, hended⟩
    | error error =>
        obtain ⟨count, hlt, -, hfull⟩ := hended
        let rows := ofPartition count (bulkSpilled prim lib config readLine clock dump limits)
        have hspill : loaded.spills[count]? = some (spillText prim rows) := by
          have hopened := List.getElem?_eq_getElem (hlength.symm ▸ hlt)
          rw [hopened, bulkLoaded_spills hlt hopened]
        have hrequested : ∀ entry ∈ rows.map fun row => row.2.leafEntry row.1,
            ∃ request ∈ dumpRequests readLine dump, request.key = entry.key := by
          intro entry hentry
          obtain ⟨row, hrow, rfl⟩ := List.mem_map.mp hentry
          exact requested_of_spilled hlines (List.mem_filter.mp hrow).1
        exact absurd (hfull.clash hplain hspill) (hdiffer.not_clash hleaf hrequested)
    | diverged => exact hended.elim
  refine ⟨hbuilt.1, fun partitionId hlt root hroot key => ?_⟩
  obtain ⟨text, entries, settled, htree⟩ := hbuilt.2.trees partitionId hlt
  have hsettled : root = some settled := by
    rcases hroot with hlocal | hdoc
    · exact hlocal.symm.trans htree.known
    · exact hdoc.unique hfree htree.named
  obtain ⟨now, hfirst⟩ := find?_dumpRows_eq prim lib config readLine clock dump key
  refine ⟨now, ?_⟩
  rw [hsettled, htree.lookup hplain hfree hlt key, firstLine_eq hlines, importedEntry, hfirst]

end Building

/-! ## Both ways at once -/

section Agreement

variable {prim : Primitives} {lib : Libraries} {config : Config} {readLine : DumpReader}
  {dump : String} {limits : List Nat}

/-- An entry without the time at which it was added. -/
def LeafEntry.undated (entry : LeafEntry) : LeafEntry := { entry with addedAt := 0 }

theorem importedEntry_undated (requests : List SubmitRecordRequest) (partitionId : Nat)
    (early late : Timestamp) (key : String) :
    (importedEntry prim lib config requests partitionId early key).map LeafEntry.undated =
      (importedEntry prim lib config requests partitionId late key).map LeafEntry.undated := by
  unfold importedEntry
  split
  next => simp only [Option.map_map]; rfl
  next => rfl

/-- A value that carries a timestamp has it whenever it is imported. -/
theorem importedEntry_dated {requests : List SubmitRecordRequest} {key : String}
    (hdated : ∀ value, firstValue lib config requests key = some value →
      (lib.declarationTimestamp value).isSome) (partitionId : Nat) (early late : Timestamp) :
    importedEntry prim lib config requests partitionId early key =
      importedEntry prim lib config requests partitionId late key := by
  unfold importedEntry
  split
  next =>
    cases hvalue : firstValue lib config requests key with
    | none => rfl
    | some value =>
        obtain ⟨stamp, hstamp⟩ := Option.isSome_iff_exists.mp (hdated value hvalue)
        simp only [Option.map_some, datedRecord, hstamp, Option.getD_some]
  next => rfl

/-- A dump whose keys differ in digest bytes 1 to 31 is sent in batches and published by
cycles without faults and with an empty denylist, and the same dump is loaded in chunks and
built. The build comes to its end, the cycles end well and shorten the queue, and once it is
empty, a key resolves in the trees of both as its first valid line says, to entries that are
the same but for the time of a value that carries none. -/
theorem import_paths_agree (hplain : prim.TextsEndPlain) (hleaf : 1 ≤ config.leafMaxEntries)
    (hmax : 1 ≤ config.publishMaxPending)
    (hdiffer : DigestsDiffer prim (dumpRequests readLine dump))
    {batches : List (List SubmitRecordRequest)}
    (hbatches : batches.flatten = dumpRequests readLine dump)
    (hcounts : ∀ batch ∈ batches, batch.length ≤ config.batchMaxRecords) {submitted drained : World}
    (hfeeds : Feeds prim lib config .empty batches submitted)
    (hcycles : Relation.ReflTransGen (FaultlessCycle prim config ∅) submitted drained)
    (hdrained : prim.CollisionFree {held | held ∈ drained.blobs})
    (clock : Nat → ClockReading) (hchunks : limits ≠ [])
    (hlines : (numberedLines dump).length ≤ limits.sum)
    {outcome : Prog.Outcome BuildError Unit} {built : World}
    (hbuild : Prog.Runs (prim.DaemonStep .none)
      (buildTrees prim config (bulkLoaded prim lib config readLine clock dump limits).spills)
      (bulkLoaded prim lib config readLine clock dump limits).world outcome built)
    (hbuilt : prim.CollisionFree {held | held ∈ built.blobs}) :
    outcome = .ok () ∧
    (∀ cycle after,
      Prog.Runs (prim.DaemonStep .none) (prim.publishCycle config ∅) drained cycle after →
      prim.CollisionFree {held | held ∈ after.blobs} →
      (∃ published, cycle = .ok published) ∧ (drained.index.pendingItems ≠ [] →
        after.index.pendingItems.length < drained.index.pendingItems.length)) ∧
    (drained.index.pendingItems = [] → ∀ partitionId < config.topLevelPartitions,
      ∀ drainedRoot builtRoot, HasRoot prim drained partitionId drainedRoot →
        HasRoot prim built partitionId builtRoot → ∀ key, ∃ first second,
          (prim.lookup drainedRoot key).run prim.memoryStore drained.blobs =
            (.ok first, drained.blobs) ∧
          (prim.lookup builtRoot key).run prim.memoryStore built.blobs = (.ok second, built.blobs) ∧
          (first.isSome ↔ prim.partitionIdForKey key config.topLevelPartitions = partitionId ∧
            (firstValue lib config (dumpRequests readLine dump) key).isSome) ∧
          first.map LeafEntry.undated = second.map LeafEntry.undated ∧
          ((∀ value, firstValue lib config (dumpRequests readLine dump) key = some value →
            (lib.declarationTimestamp value).isSome) → first = second)) := by
  have hfed : Fed prim lib config (dumpRequests readLine dump) submitted := by
    have hstart := hfeeds.fed hcounts Fed.empty
    rwa [List.nil_append, hbatches] at hstart
  have hwf : ∀ partitionId : Nat,
      prim.scheme.WellFormed 0 ((fun _ => .empty : Nat → HamtTrie) partitionId) :=
    fun _ => trivial
  have hunderway : Underway prim config ∅ submitted (fun _ => .empty) drained :=
    (Underway.at_start fun partitionId => ⟨none, none, hfed.rooted partitionId⟩).parts hwf hdrained
      (Relation.ReflTransGen.mono (fun _ _ => FaultlessCycle.part) _ _ hcycles) fun _ hblob => hblob
  obtain ⟨hended, hbuiltLookup⟩ :=
    bulkLoad_lookup hplain hleaf hchunks hlines hdiffer hbuild hbuilt
  refine ⟨hended, fun cycle after hruns hafter => ?_, fun hempty => ?_⟩
  · obtain ⟨hok, hshorter⟩ := hunderway.shortens hwf hafter hmax
      (hfed.not_exhausted hdiffer hleaf) hruns fun _ hblob => hblob
    refine ⟨hok, fun hqueued => ?_⟩
    have hlength := hshorter fun hnone => hqueued (List.map_eq_nil_iff.mp hnone)
    simpa only [RecordIndex.slips, List.length_map] using hlength
  · intro partitionId hlt drainedRoot builtRoot hdrainedRoot hbuiltRoot key
    obtain ⟨early, hfirst⟩ :=
      hfed.lookup_drained hunderway (List.map_eq_nil_iff.mpr hempty) hdrained hdrainedRoot key
    obtain ⟨late, hsecond⟩ := hbuiltLookup partitionId hlt builtRoot hbuiltRoot key
    refine ⟨_, _, hfirst, hsecond, ?_, importedEntry_undated _ partitionId early late key,
      fun hdated => importedEntry_dated hdated partitionId early late⟩
    rw [importedEntry]
    split
    next hplace => simp [hplace]
    next hplace => simp [hplace]

end Agreement

/-! ## A dump with a conflict -/

namespace Sample

def pairedEntry : LeafEntry := ⟨secondKey, lateHash, 27, 1714608000 * 1000000000, none⟩

def pairedText : String :=
  "\x7b\"key\":\"bbqjcbw6mxhqxyl2tkvnxkud4osyy5wcpgkrowp7vp2qxgms2mvrkfxam\"," ++
  "\"hash\":\"a2ddf8ac11bff2c553d912afca17e02cf70738e99fccbe1973281f0da8174195\"," ++
  "\"size\":27,\"added_at\":\"2024-05-02T00:00:00Z\"\x7d"

def pairedRoot : Vector UInt8 32 :=
  bytes32 0x4335317777e6d983be7d2182eb0590eaac24f1ff690a2d14a969d38ac2517cba

/-- The earlier value under the first key, and the later one under the second. -/
def pairedTables : Tables where
  texts := [(earlyEntry, earlyText), (pairedEntry, pairedText)]
  digests := tables.digests
  hashes :=
    [(utf8 earlyValue, earlyHash), (utf8 lateValue, lateHash), (leafBlob [earlyText], ⟨earlyRoot⟩),
      (leafBlob [earlyText, pairedText], ⟨pairedRoot⟩),
      (pairedRoot.toList,
        ⟨bytes32 0xdd4231a0024b221c87f2b0dc747864972d907528a9d2629c5ab2f0c1771d2594⟩)]
  texts_valid := by decide +kernel

def pairedPrim : Primitives := pairedTables.primitives

theorem pairedTables_collisionFree : pairedPrim.CollisionFree
    {held | held ∈ pairedTables.hashes.map Prod.fst} :=
  pairedTables.collisionFree (by decide +kernel) (by decide +kernel)

def pairedLine : String :=
  "\x7b\"key\":\"" ++ secondKey ++ "\",\"value\":" ++ lateValue ++ "\x7d"

def pairedReader : DumpReader := fun line =>
  if line = pairedLine then .ok ⟨secondKey, lateJson⟩ else stampReader line

/-- Two values under the first key, and then one under the second. -/
def pairedDump : String := stampDump ++ pairedLine ++ "\n"

def pairedRequests : List SubmitRecordRequest := dumpRequests pairedReader pairedDump

/-- The digests of the two keys differ in byte 1. -/
theorem digestsDiffer_of_keys {requests : List SubmitRecordRequest}
    (hkeys : ∀ request ∈ requests, request.key ∈ [firstKey, secondKey]) :
    DigestsDiffer pairedPrim requests := by
  have hdigests : ∀ first ∈ [firstKey, secondKey], ∀ second ∈ [firstKey, secondKey],
      first ≠ second →
        (pairedPrim.keyDigest first).get 1 ≠ (pairedPrim.keyDigest second).get 1 := by
    decide +kernel
  intro first hfirst second hsecond hne
  exact ⟨1, Nat.one_pos, hdigests _ (hkeys first hfirst) _ (hkeys second hsecond) hne⟩

/-- Each record in a batch of its own. -/
def sendAll (requests : List SubmitRecordRequest) (world : World) : World :=
  requests.foldl (fun world request =>
    ((handle pairedPrim stampLib single (.batch [request])).run (pairedPrim.daemonHandler createdAt)
      world).2) world

/-- The earlier value of the first key is accepted, and the later one is then a conflict. -/
def sent : World := sendAll pairedRequests .empty

def sentCycle : Prog.Outcome DaemonError Nat × World :=
  (pairedPrim.publishCycle single ∅).run (pairedPrim.daemonHandler createdAt) sent

/-- Each line in a chunk of its own. -/
def chunked : Loaded :=
  bulkLoaded pairedPrim stampLib single pairedReader bulkClock pairedDump [1, 1, 1]

def chunkedBuild : Prog.Outcome BuildError Unit × World :=
  (buildTrees pairedPrim single chunked.spills).run
    (pairedPrim.daemonHandler createdAt) chunked.world

theorem sendAll_feeds (requests : List SubmitRecordRequest) (world : World) :
    Feeds pairedPrim stampLib single world (requests.map fun request => [request])
      (sendAll requests world) := by
  induction requests generalizing world with
  | nil => exact .nil world
  | cons request rest ih =>
      have hfirst : Prog.Runs (pairedPrim.DaemonStep .none)
          (handle pairedPrim stampLib single (.batch [request])) world _
          (sendAll [request] world) :=
        pairedPrim.daemonHandler_runs .none createdAt _ _
      exact .cons hfirst (ih _)

/-- The trees of both imports hold the key, with the same entry but for its time. -/
def HeldByBoth (key : String) : Prop :=
  ∃ first second,
    (pairedPrim.lookup (some ⟨pairedRoot⟩) key).run pairedPrim.memoryStore sentCycle.2.blobs =
        (.ok first, sentCycle.2.blobs) ∧
      (pairedPrim.lookup (some ⟨pairedRoot⟩) key).run pairedPrim.memoryStore
        chunkedBuild.2.blobs = (.ok second, chunkedBuild.2.blobs) ∧
      first.isSome ∧ first.map LeafEntry.undated = second.map LeafEntry.undated

end Sample

theorem import_paths_agree_sample :
    Sample.HeldByBoth Sample.firstKey ∧ Sample.HeldByBoth Sample.secondKey := by
  have hfacts : Sample.sentCycle.2.index.pendingItems = [] ∧
      Sample.sentCycle.2.index.localRoots[0]? = some ⟨Sample.pairedRoot⟩ ∧
      Sample.chunkedBuild.2.index.localRoots[0]? = some ⟨Sample.pairedRoot⟩ ∧
      (∀ blob ∈ Sample.sentCycle.2.blobs, blob ∈ Sample.pairedTables.hashes.map Prod.fst) ∧
      (∀ blob ∈ Sample.chunkedBuild.2.blobs, blob ∈ Sample.pairedTables.hashes.map Prod.fst) ∧
      (numberedLines Sample.pairedDump).length ≤ [1, 1, 1].sum ∧
      (∀ request ∈ Sample.pairedRequests, request.key ∈ [Sample.firstKey, Sample.secondKey]) ∧
      ∀ key ∈ [Sample.firstKey, Sample.secondKey],
        Sample.pairedPrim.partitionIdForKey key Sample.single.topLevelPartitions = 0 ∧
        (firstValue Sample.stampLib Sample.single Sample.pairedRequests key).isSome := by
    decide +kernel
  obtain ⟨hempty, hdrainedRoot, hbuiltRoot, hdrained, hbuilt, hlines, hkeys, hvalues⟩ := hfacts
  have hrequests : (Sample.pairedRequests.map fun request => [request]).flatten =
      Sample.pairedRequests := by
    rw [← List.flatMap_def, List.flatMap_singleton']
  have hcounts : ∀ batch ∈ Sample.pairedRequests.map fun request => [request],
      batch.length ≤ Sample.single.batchMaxRecords := by
    intro batch hbatch
    obtain ⟨request, -, rfl⟩ := List.mem_map.mp hbatch
    exact (by decide : 1 ≤ Sample.single.batchMaxRecords)
  have hplain : Sample.pairedPrim.TextsEndPlain :=
    Sample.pairedTables.textsEndPlain (by decide +kernel)
  have hcycle : Prog.Runs (Sample.pairedPrim.DaemonStep .none)
      (Sample.pairedPrim.publishCycle Sample.single ∅) Sample.sent Sample.sentCycle.1
      Sample.sentCycle.2 :=
    Sample.pairedPrim.daemonHandler_runs .none Sample.createdAt _ _
  have hbuild : Prog.Runs (Sample.pairedPrim.DaemonStep .none)
      (buildTrees Sample.pairedPrim Sample.single Sample.chunked.spills) Sample.chunked.world
      Sample.chunkedBuild.1 Sample.chunkedBuild.2 :=
    Sample.pairedPrim.daemonHandler_runs .none Sample.createdAt _ _
  obtain ⟨-, -, hlookups⟩ := import_paths_agree hplain (by decide) (by decide)
    (Sample.digestsDiffer_of_keys hkeys) hrequests hcounts (Sample.sendAll_feeds _ .empty)
    (.single ⟨_, hcycle⟩) (Sample.pairedTables_collisionFree.mono hdrained) Sample.bulkClock
    (by simp) hlines hbuild (Sample.pairedTables_collisionFree.mono hbuilt)
  have hheld : ∀ key ∈ [Sample.firstKey, Sample.secondKey], Sample.HeldByBoth key := by
    intro key hkey
    obtain ⟨hplace, hvalue⟩ := hvalues key hkey
    obtain ⟨first, second, hfirst, hsecond, hsome, hsame, -⟩ := hlookups hempty 0 (by decide) _ _
      (Or.inl hdrainedRoot) (Or.inl hbuiltRoot) key
    exact ⟨first, second, hfirst, hsecond, hsome.mpr ⟨hplace, hvalue⟩, hsame⟩
  exact ⟨hheld _ List.mem_cons_self, hheld _ (List.mem_cons_of_mem _ List.mem_cons_self)⟩

end Registry

import Registry.Core.Tabulated
import Registry.Daemon.Requests
import Registry.Effect.Pool

/-! # Concurrent submissions behave like single submissions in some order

Any number of single and batched submissions run interleaved. Each key is
claimed by exactly one of them, each record gets one answer at its own position,
and the answers and tables are those of the records submitted one by one.
-/

namespace Registry

open Effect

abbrev Trace := List (Event daemonSig)

/-- A committed write transaction of a request. -/
structure Write where
  number : Nat
  submissions : List (String × IndexRecord)
  outcomes : List SubmitOutcome

def writeOf : Event daemonSig → Option Write
  | ⟨number, .index (.submitMany submissions), .ok outcomes⟩ => some ⟨number, submissions, outcomes⟩
  | _ => none

/-- The write transactions of a run, in the order they were committed. -/
def writes (trace : Trace) : List Write := trace.filterMap writeOf

@[simp] theorem writes_append (first second : Trace) :
    writes (first ++ second) = writes first ++ writes second :=
  List.filterMap_append

theorem writeOf_eq_none {number : Nat} {op : DaemonOp} {response : daemonSig.Res op}
    (hop : ReadsOrStores op) : writeOf ⟨number, op, response⟩ = none := by
  match op with
  | .now => rfl
  | .beginWrite => rfl
  | .endWrite => rfl
  | .pick _ => rfl
  | .store _ => rfl
  | .index (.getMany _) => rfl

theorem number_of_mem_writes {trace : Trace} {write : Write} (hwrite : write ∈ writes trace) :
    ∃ event ∈ trace, event.number = write.number := by
  obtain ⟨event, hevent, heq⟩ := List.mem_filterMap.mp hwrite
  refine ⟨event, hevent, ?_⟩
  unfold writeOf at heq
  split at heq
  · rw [← Option.some.inj heq]
  · cases heq

/-! ## What the requests of a pool promise each other -/

section Pool

variable (prim : Primitives) (lib : Libraries) (config : Config) (faults : Faults)
  (start : RecordIndex)

/-- The index is what the committed transactions make of it, with their answers. -/
def Replayed (trace : Trace) (index : RecordIndex) : Prop :=
  start.submitMany ((writes trace).flatMap Write.submissions) =
    ((writes trace).flatMap Write.outcomes, index)

/-- Requests only add records. -/
def submitters : Team daemonSig World where
  sem := prim.DaemonStep faults
  inv world trace := Replayed start trace world.index
  guar before after := ∀ (key : String) (record : IndexRecord),
    before.index.records[key]? = some record → after.index.records[key]? = some record
  guar_refl _ _ _ := id
  guar_trans hfirst hsecond key record hrecord := hsecond key record (hfirst key record hrecord)

/-- The request has not committed its transaction. -/
def Unwritten (number : Nat) (trace : Trace) : Prop :=
  ∀ write ∈ writes trace, write.number ≠ number

/-- The request has committed exactly this transaction. -/
def Wrote (number : Nat) (submissions : List (String × IndexRecord))
    (outcomes : List SubmitOutcome) (trace : Trace) : Prop :=
  ∃ before after, writes trace = before ++ ⟨number, submissions, outcomes⟩ :: after ∧
    ∀ write ∈ before ++ after, write.number ≠ number

/-- The store failed to take a value of this request. -/
def PutFailed (number : Nat) (value : String) (error : ApiError) (trace : Trace) : Prop :=
  faults.store ∧ ∃ message,
    (⟨number, .store (.put (utf8 value)), .error (.io message)⟩ : Event daemonSig) ∈ trace ∧
      putOutcome (.error (.io message)) = .error error

variable {prim lib config faults start}

theorem unwritten_append {number : Nat} {trace more : Trace} (htrace : Unwritten number trace)
    (hmore : ∀ event ∈ more, event.number ≠ number) : Unwritten number (trace ++ more) := by
  intro write hwrite
  rw [writes_append, List.mem_append] at hwrite
  rcases hwrite with hold | hnew
  · exact htrace write hold
  · obtain ⟨event, hevent, hnumber⟩ := number_of_mem_writes hnew
    exact hnumber ▸ hmore event hevent

theorem wrote_append {number : Nat} {submissions : List (String × IndexRecord)}
    {outcomes : List SubmitOutcome} {trace more : Trace}
    (htrace : Wrote number submissions outcomes trace) (hmore : Unwritten number more) :
    Wrote number submissions outcomes (trace ++ more) := by
  obtain ⟨before, after, hwrites, hothers⟩ := htrace
  refine ⟨before, after ++ writes more, ?_, fun write hwrite => ?_⟩
  · rw [writes_append, hwrites, List.append_assoc, List.cons_append]
  · rw [← List.append_assoc, List.mem_append] at hwrite
    exact hwrite.elim (hothers write) (hmore write)

theorem replayed_append {trace : Trace} {index : RecordIndex} {event : Event daemonSig}
    (htrace : Replayed start trace index) (hevent : writeOf event = none) :
    Replayed start (trace ++ [event]) index := by
  have hwrites : writes (trace ++ [event]) = writes trace := by
    rw [writes_append, writes, writes]
    simp [hevent]
  rw [Replayed, hwrites]
  exact htrace

theorem submitters_kept {number : Nat} {assertion : World × Trace → Prop}
    (hrely : ∀ state later, ((submitters prim faults start).setting number).rely state later →
      assertion state → assertion later)
    (hown : ∀ (before after : World) (trace : Trace) (event : Event daemonSig),
      after.index = before.index → writeOf event = none → assertion (before, trace) →
        assertion (after, trace ++ [event])) :
    Kept ((submitters prim faults start).setting number) ReadsOrStores assertion where
  rely := hrely
  call op before response after hop hinv hassertion hsem := by
    obtain ⟨world, trace⟩ := before
    obtain ⟨next, later⟩ := after
    obtain ⟨hstep, hlater⟩ := hsem
    obtain ⟨hindex, -⟩ := hstep.keepsTables hop.keepsTables
    dsimp only at hstep hlater hindex
    subst hlater
    refine ⟨?_, ?_, hown world next trace _ hindex (writeOf_eq_none hop) hassertion⟩
    · change Replayed start _ next.index
      rw [hindex]
      exact replayed_append hinv (writeOf_eq_none hop)
    · intro key record hrecord
      change next.index.records[key]? = some record
      rw [hindex]
      exact hrecord

/-- The request has not written, and the records it has seen are there. -/
structure Knows (number : Nat) (seen : List (String × IndexRecord)) (state : World × Trace) :
    Prop where
  unwritten : Unwritten number state.2
  seen : ∀ row ∈ seen, state.1.index.records[row.1]? = some row.2

/-- The request has written, and the records it had seen are there. -/
structure Committed (number : Nat) (seen submissions : List (String × IndexRecord))
    (outcomes : List SubmitOutcome) (state : World × Trace) : Prop where
  wrote : Wrote number submissions outcomes state.2
  seen : ∀ row ∈ seen, state.1.index.records[row.1]? = some row.2

theorem unwritten_of_none {number : Nat} {event : Event daemonSig}
    (hevent : writeOf event = none) : Unwritten number [event] := by
  intro write hwrite
  simp [writes, hevent] at hwrite

theorem Knows.own {number : Nat} {seen : List (String × IndexRecord)} {before after : World}
    {trace : Trace} {event : Event daemonSig} (hsame : after.index = before.index)
    (hevent : writeOf event = none) (hbefore : Knows number seen (before, trace)) :
    Knows number seen (after, trace ++ [event]) := by
  refine ⟨fun write hwrite => ?_, fun row hrow => hsame ▸ hbefore.seen row hrow⟩
  rw [writes_append, List.mem_append] at hwrite
  exact hwrite.elim (hbefore.unwritten write) (unwritten_of_none hevent write)

theorem knows_kept (number : Nat) (seen : List (String × IndexRecord)) :
    Kept ((submitters prim faults start).setting number) ReadsOrStores (Knows number seen) := by
  refine submitters_kept ?_ fun _ _ _ _ => Knows.own
  rintro ⟨world, trace⟩ ⟨next, later⟩ ⟨hguar, more, hmore, hothers⟩ hknows
  dsimp only at hmore
  subst hmore
  exact ⟨unwritten_append hknows.unwritten hothers,
    fun row hrow => hguar _ _ (hknows.seen row hrow)⟩

theorem committed_kept (number : Nat) (seen submissions : List (String × IndexRecord))
    (outcomes : List SubmitOutcome) :
    Kept ((submitters prim faults start).setting number) ReadsOrStores
      (Committed number seen submissions outcomes) := by
  refine submitters_kept ?_ ?_
  · rintro ⟨world, trace⟩ ⟨next, later⟩ ⟨hguar, more, hmore, hothers⟩ hcommitted
    dsimp only at hmore
    subst hmore
    refine ⟨wrote_append hcommitted.wrote fun write hwrite => ?_,
      fun row hrow => hguar _ _ (hcommitted.seen row hrow)⟩
    obtain ⟨event, hevent, hnumber⟩ := number_of_mem_writes hwrite
    exact hnumber ▸ hothers event hevent
  · intro before after trace event hsame hevent hcommitted
    exact ⟨wrote_append hcommitted.wrote (unwritten_of_none hevent),
      fun row hrow => hsame ▸ hcommitted.seen row hrow⟩

theorem mem_seenRecords {keys : List String} {row : String × IndexRecord} {index : RecordIndex}
    (hrow : row ∈ seenRecords keys (index.getMany keys)) :
    index.records[row.1]? = some row.2 := by
  obtain ⟨⟨key, prior⟩, hmem, heq⟩ := List.mem_filterMap.mp hrow
  obtain ⟨record, hrecord, rfl⟩ := Option.map_eq_some_iff.mp heq
  rw [RecordIndex.getMany, ← List.map_prod_left_eq_zip, List.mem_map] at hmem
  obtain ⟨_, -, heq⟩ := hmem
  obtain ⟨rfl, rfl⟩ := Prod.mk.inj heq
  exact hrecord

variable (prim lib config start) in
/-- A request of the pool writes once, and the index never forgets what it saw. -/
def submitterRules (hindex : ¬ faults.index) (number : Nat) :
    RequestRules ((submitters prim faults start).setting number) prim lib config where
  knows seen _ := Knows number seen
  wrote := Committed number
  putFailed value error state := PutFailed faults number value error state.2
  indexFailed _ := False
  quiet := submitters_kept (fun _ _ _ => id) fun _ _ _ _ _ _ => id
  keep seen _ := knows_kept number seen
  put := by
    rintro seen stored value ⟨world, trace⟩ hash ⟨next, later⟩ hinv hknows hsem
    exact ((knows_kept number seen).call (.store (.put (utf8 value))) _ _ _ trivial hinv hknows
      hsem).2.2
  putError := by
    rintro value ⟨world, trace⟩ ⟨message⟩ ⟨next, later⟩ ⟨hstep, hlater⟩ failure hfailure
    dsimp only at hstep hlater
    subst hlater
    refine ⟨?_, message, List.mem_append_right _ (List.mem_singleton_self _), hfailure⟩
    obtain ⟨blobs, ⟨hanswer, -⟩ | ⟨hfault, -⟩, -⟩ := hstep
    · cases hanswer
    · exact hfault
  failedRely := by
    rintro value failure ⟨world, trace⟩ ⟨next, later⟩ ⟨-, more, hmore, -⟩
      ⟨hfault, message, hmem, heq⟩
    dsimp only at hmore
    subst hmore
    exact ⟨hfault, message, List.mem_append_left _ hmem, heq⟩
  failedCall := by
    rintro value failure op ⟨world, trace⟩ response ⟨next, later⟩ ⟨-, hlater⟩
      ⟨hfault, message, hmem, heq⟩
    dsimp only at hlater
    subst hlater
    exact ⟨hfault, message, List.mem_append_left _ hmem, heq⟩
  read := by
    rintro keys ⟨world, trace⟩ existing ⟨next, later⟩ hinv hknows hsem
    have hafter := ((knows_kept number []).call (.index (.getMany keys)) _ _ _ trivial hinv hknows
      hsem).2.2
    have hread : prim.DaemonStep faults (.index (.getMany keys)) world (.ok existing) next := hsem.1
    obtain ⟨rfl, hnext⟩ := hread.index_ok
    refine ⟨List.length_map _, hafter.unwritten, fun row hrow => ?_⟩
    rw [hnext]
    exact mem_seenRecords hrow
  write := by
    rintro seen stored submissions ⟨world, trace⟩ response ⟨next, later⟩ hinv hknows -
      ⟨hstep, hlater⟩
    dsimp only at hstep hlater
    subst hlater
    cases response with
    | error message =>
        rcases hstep with ⟨hanswer, -⟩ | ⟨hfault, -⟩
        · cases hanswer
        · exact absurd hfault hindex
    | ok outcomes =>
        have hcommit : prim.DaemonStep faults (.index (.submitMany submissions)) world
          (.ok outcomes) next := hstep
        obtain ⟨rfl, rfl⟩ := hcommit.index_ok
        refine ⟨?_, fun key record hrecord => world.index.submitMany_keeps hrecord, ?_⟩
        · change Replayed start _ _
          rw [Replayed, writes_append]
          simp only [List.flatMap_append]
          rw [RecordIndex.submitMany_append, hinv]
          simp [writes, writeOf, IndexOp.commit]
        · rintro outcomes ⟨⟩
          refine ⟨world.index.submitMany_length _,
            ⟨writes trace, [], by simp [writes, writeOf], ?_⟩,
            fun row hrow => world.index.submitMany_keeps (hknows.seen row hrow)⟩
          rw [List.append_nil]
          exact hknows.unwritten
  indexError := by
    rintro op ⟨world, trace⟩ message ⟨next, later⟩ ⟨hstep, -⟩
    rcases hstep with ⟨hanswer, -⟩ | ⟨hfault, -⟩
    · cases hanswer
    · exact hindex hfault
  keepWrote seen submissions outcomes :=
    (committed_kept number seen submissions outcomes).mono fun _ hop => hop ▸ trivial

/-! ## How one request is answered -/

/-- A record that reached its request's write transaction. -/
structure Row where
  slot : Nat
  key : String
  record : IndexRecord
  outcome : SubmitOutcome

def Row.submission (row : Row) : String × IndexRecord := (row.key, row.record)

end Pool

/-- The records of a request, by position. -/
def Request.records : Request → List SubmitRecordRequest
  | .single record => [record]
  | .batch records => records

/-- A batch over the limit is refused as a whole. -/
def Request.Admitted (config : Config) : Request → Prop
  | .single _ => True
  | .batch records => records.length ≤ config.batchMaxRecords

/-- An error response in the form of a batch's result. -/
def errorResult (key : String) : ApiError → RecordResult
  | .conflict existingHash => .conflict key existingHash
  | error => failedResult key error

/-- The result that a response gives the record at a position. -/
def resultAt (request : Request) (answer : Except ApiError Response) (slot : Nat) :
    Option RecordResult :=
  match answer with
  | .ok (.single _ result) => if slot = 0 then some result else none
  | .ok (.batch _ results) => results[slot]?.join
  | .error error => request.records[slot]?.map fun record => errorResult record.key error

section Answers

variable (prim : Primitives) (lib : Libraries) (config : Config) (faults : Faults)

/-- Why a record never reached a write transaction, and what it was answered. -/
inductive Settled (number : Nat) (state : World × Trace) (request : SubmitRecordRequest) :
    RecordResult → Prop
  | rejected {error : ApiError} (invalid : checkRequest lib config request = .error error) :
      Settled number state request (failedResult request.key error)
  | notStored {value : String} {error : ApiError}
      (valid : checkRequest lib config request = .ok value)
      (failed : PutFailed faults number value error state.2) :
      Settled number state request (failedResult request.key error)
  | known {value : String} {record prior : IndexRecord}
      (valid : ValidRecord prim lib config request value record)
      (present : state.1.index.records[request.key]? = some prior) :
      Settled number state request
        (outcomeResult request.key record (RecordIndex.knownOutcome prior record))

/-- Every record of a request is answered, either from the request's one write
transaction or without one. -/
structure Explained (number : Nat) (request : Request) (answer : Except ApiError Response)
    (rows : List Row) (state : World × Trace) : Prop where
  nodup : (rows.map Row.slot).Nodup
  written : ∀ row ∈ rows, ∃ record value, request.records[row.slot]? = some record ∧
    row.key = record.key ∧ ValidRecord prim lib config record value row.record ∧
      resultAt request answer row.slot = some (outcomeResult row.key row.record row.outcome)
  settled : ∀ slot record, request.records[slot]? = some record → slot ∉ rows.map Row.slot →
    ∃ result, resultAt request answer slot = some result ∧
      Settled prim lib config faults number state record result
  wrote : (rows = [] ∧ Unwritten number state.2) ∨
    Wrote number (rows.map Row.submission) (rows.map Row.outcome) state.2

/-- How a request ends. -/
structure Explains (number : Nat) (request : Request) (answer : Except ApiError Response)
    (state : World × Trace) : Prop where
  admitted : request.Admitted config → ∃ rows,
    Explained prim lib config faults number request answer rows state
  refused : ¬ request.Admitted config →
    answer = .error (.batchTooLarge config.batchMaxRecords) ∧ Unwritten number state.2
  batch : ∀ records, request = .batch records → request.Admitted config →
    ∃ results, answer = .ok (.batch 207 results) ∧ results.length = records.length

variable {prim lib config faults} {start : RecordIndex} {number : Nat} {request : Request}
  {answer : Except ApiError Response}

theorem PutFailed.append {value : String} {error : ApiError} {trace : Trace}
    (hfailed : PutFailed faults number value error trace) (more : Trace) :
    PutFailed faults number value error (trace ++ more) := by
  obtain ⟨hfault, message, hmem, heq⟩ := hfailed
  exact ⟨hfault, message, List.mem_append_left _ hmem, heq⟩

theorem Explains.rely {state later : World × Trace}
    (hrely : ((submitters prim faults start).setting number).rely state later)
    (hstate : Explains prim lib config faults number request answer state) :
    Explains prim lib config faults number request answer later := by
  obtain ⟨world, trace⟩ := state
  obtain ⟨next, longer⟩ := later
  obtain ⟨hguar, more, hmore, hothers⟩ := hrely
  dsimp only at hmore
  subst hmore
  refine ⟨fun hadmitted => ?_, fun hrefused => ?_, hstate.batch⟩
  · obtain ⟨rows, hrows⟩ := hstate.admitted hadmitted
    refine ⟨rows, hrows.nodup, hrows.written, fun slot record hrecord hslot => ?_, ?_⟩
    · obtain ⟨result, hresult, hsettled⟩ := hrows.settled slot record hrecord hslot
      refine ⟨result, hresult, ?_⟩
      cases hsettled with
      | rejected invalid => exact .rejected invalid
      | notStored valid failed => exact .notStored valid (failed.append more)
      | known valid present => exact .known valid (hguar _ _ present)
    · rcases hrows.wrote with ⟨hnil, hunwritten⟩ | hwrote
      · exact Or.inl ⟨hnil, unwritten_append hunwritten hothers⟩
      · refine Or.inr (wrote_append hwrote fun write hwrite => ?_)
        obtain ⟨event, hevent, hnumber⟩ := number_of_mem_writes hwrite
        exact hnumber ▸ hothers event hevent
  · obtain ⟨hanswer, hunwritten⟩ := hstate.refused hrefused
    exact ⟨hanswer, unwritten_append hunwritten hothers⟩

theorem errorResult_eq_failedResult {key : String} {error : ApiError}
    (hconflict : ∀ existingHash, error ≠ .conflict existingHash) :
    errorResult key error = failedResult key error := by
  cases error with
  | conflict existingHash => exact absurd rfl (hconflict existingHash)
  | _ => rfl

theorem checkRequest_ne_conflict {record : SubmitRecordRequest} {error : ApiError}
    (herror : checkRequest lib config record = .error error) (existingHash : String) :
    error ≠ .conflict existingHash := by
  rintro rfl
  unfold checkRequest at herror
  split at herror
  · cases herror
  · split at herror
    next failure hvalue =>
      unfold Libraries.canonicalValue at hvalue
      split at hvalue
      · cases hvalue
      · split at hvalue
        · cases hvalue; cases herror
        · split at hvalue
          · cases hvalue
          · cases hvalue; cases herror
      · cases hvalue; cases herror
    · split at herror <;> cases herror

theorem explains_single_written {record : SubmitRecordRequest} {value : String}
    {claimed : IndexRecord} {outcome : SubmitOutcome} {state : World × Trace}
    (hvalid : ValidRecord prim lib config record value claimed)
    (hcommitted : Committed number [] [(record.key, claimed)] [outcome] state)
    (hanswer : resultAt (.single record) answer 0 =
      some (outcomeResult record.key claimed outcome)) :
    Explains prim lib config faults number (.single record) answer state where
  admitted _ := by
    refine ⟨[⟨0, record.key, claimed, outcome⟩], List.nodup_singleton _, fun row hrow => ?_,
      fun slot other hother hslot => ?_, Or.inr hcommitted.wrote⟩
    · rw [List.mem_singleton.mp hrow]
      exact ⟨record, value, rfl, rfl, hvalid, hanswer⟩
    · refine absurd ?_ hslot
      have hlt := (List.getElem?_eq_some_iff.mp hother).1
      exact List.mem_singleton.mpr (Nat.lt_one_iff.mp hlt)
  refused hrefused := absurd trivial hrefused
  batch records hbatch := by cases hbatch

theorem explains_single_settled {record : SubmitRecordRequest} {result : RecordResult}
    {state : World × Trace} (hunwritten : Unwritten number state.2)
    (hsettled : Settled prim lib config faults number state record result)
    (hanswer : resultAt (.single record) answer 0 = some result) :
    Explains prim lib config faults number (.single record) answer state where
  admitted _ := by
    refine ⟨[], List.nodup_nil, fun row hrow => absurd hrow List.not_mem_nil,
      fun slot other hother _ => ?_, Or.inl ⟨rfl, hunwritten⟩⟩
    have hlt := (List.getElem?_eq_some_iff.mp hother).1
    obtain rfl : slot = 0 := Nat.lt_one_iff.mp hlt
    obtain rfl : record = other := Option.some.inj hother
    exact ⟨result, hanswer, hsettled⟩
  refused hrefused := absurd trivial hrefused
  batch records hbatch := by cases hbatch

/-- The rows of a batch that reached its write transaction. -/
def BatchPlan.writtenRows (plan : BatchPlan) : List Row :=
  (plan.prepared.zip plan.outcomes).map fun row => ⟨row.1.slot, row.1.key, row.1.record, row.2⟩

theorem explains_batch {records : List SubmitRecordRequest} {plan : BatchPlan}
    {state : World × Trace} (hcount : records.length ≤ config.batchMaxRecords)
    (hfits : plan.Fits prim lib config
      (fun value error => PutFailed faults number value error state.2) records)
    (hcommitted : Committed number plan.seen plan.submissions plan.outcomes state) :
    Explains prim lib config faults number (.batch records) (.ok (.batch 207 plan.answers))
      state where
  admitted _ := by
    have hresult : ∀ slot, resultAt (.batch records) (.ok (.batch 207 plan.answers)) slot =
        plan.answers[slot]?.join := fun _ => rfl
    have hsub : ∀ row ∈ plan.prepared.zip plan.outcomes, row.1 ∈ plan.candidates :=
      fun row hrow => (plan.tasks_sublist hfits.existing).subset
        (List.mem_filter.mp (List.of_mem_zip hrow).1).1
    have hslots : plan.writtenRows.map Row.slot = plan.prepared.map Candidate.slot := by
      rw [BatchPlan.writtenRows, List.map_map]
      conv_rhs => rw [← List.map_fst_zip hfits.outcomes.ge, List.map_map]
      rfl
    have hsubmissions : plan.writtenRows.map Row.submission = plan.submissions := by
      rw [BatchPlan.writtenRows, List.map_map, BatchPlan.submissions]
      conv_rhs => rw [← List.map_fst_zip hfits.outcomes.ge, List.map_map]
      rfl
    have houtcomes : plan.writtenRows.map Row.outcome = plan.outcomes := by
      rw [BatchPlan.writtenRows, List.map_map]
      exact List.map_snd_zip hfits.outcomes.le
    refine ⟨plan.writtenRows, ?_, ?_, ?_, Or.inr ?_⟩
    · rw [hslots]
      have hsublist : plan.prepared.Sublist plan.candidates :=
        List.filter_sublist.trans (plan.tasks_sublist hfits.existing)
      exact (hsublist.map Candidate.slot).nodup hfits.validated.slots_nodup
    · intro row hrow
      obtain ⟨⟨task, outcome⟩, hmem, rfl⟩ := List.mem_map.mp hrow
      obtain ⟨record, hrecord, hkey, hvalid⟩ := hfits.candidate_valid (hsub _ hmem)
      refine ⟨record, task.value, hrecord, hkey, hvalid, ?_⟩
      rw [hresult, hfits.answer_written hmem]
      rfl
    · intro slot record hrecord hslot
      rcases hfits.answer hrecord with ⟨error, hrejected, hanswer⟩ |
        ⟨candidate, -, rfl, hkey, hvalid, ⟨prior, hseen, hanswer⟩ | ⟨error, hfailed, hanswer⟩ |
          ⟨outcome, hmem⟩⟩
      · exact ⟨_, by rw [hresult, hanswer]; rfl, .rejected hrejected⟩
      · refine ⟨_, by rw [hresult, hanswer, hkey]; rfl, .known hvalid ?_⟩
        rw [← hkey]
        exact hcommitted.seen _ hseen
      · exact ⟨_, by rw [hresult, hanswer, hkey]; rfl, .notStored hvalid.1 hfailed⟩
      · exact absurd (List.mem_map.mpr ⟨_, List.mem_map.mpr ⟨_, hmem, rfl⟩, rfl⟩) hslot
    · rw [hsubmissions, houtcomes]
      exact hcommitted.wrote
  refused hrefused := absurd hcount hrefused
  batch others hbatch _ := by
    obtain rfl : records = others := Request.batch.inj hbatch
    exact ⟨plan.answers, rfl, hfits.length_answers⟩

/-- Whatever the other requests do, a request ends explained. -/
theorem handle_explained (hindex : ¬ faults.index) (request : Request) {state : World × Trace}
    (hstate : Unwritten number state.2) :
    Valid ((submitters prim faults start).setting number)
      (fun value => Explains prim lib config faults number request (.ok value))
      (fun error => Explains prim lib config faults number request (.error error))
      (handle prim lib config request) state := by
  have hknows : Knows number [] state := ⟨hstate, fun row hrow => absurd hrow List.not_mem_nil⟩
  cases request with
  | single record =>
      apply Valid.bind
      refine Valid.mono ?_ ?_
        ((submitterRules prim lib config start hindex number).submitRecord_valid record hknows)
      · rintro _ after ⟨outcome, partition, ⟨value, claimed, hvalid, rfl, hwrote⟩,
          ⟨rfl, rfl⟩ | ⟨rfl, rfl⟩⟩
        · exact explains_single_written hvalid hwrote rfl
        · exact explains_single_written hvalid hwrote rfl
      · rintro error after
          (hfails | ⟨existingHash, partition, ⟨value, claimed, hvalid, -, hwrote⟩, rfl⟩)
        · rcases hfails with hindexFailed | ⟨hrejected | ⟨value, hvalid, hfailed⟩, hafter⟩
          · exact hindexFailed.elim
          · refine explains_single_settled hafter.unwritten (.rejected hrejected) ?_
            exact congrArg some (errorResult_eq_failedResult (checkRequest_ne_conflict hrejected))
          · refine explains_single_settled hafter.unwritten (.notStored hvalid hfailed) ?_
            refine congrArg some (errorResult_eq_failedResult fun existingHash => ?_)
            obtain ⟨-, message, -, heq⟩ := hfailed
            rw [← Except.error.inj heq]
            exact ApiError.noConfusion
        · exact explains_single_written hvalid hwrote rfl
  | batch records =>
      apply Valid.bind
      by_cases hcount : records.length ≤ config.batchMaxRecords
      · refine Valid.mono ?_ (fun _ _ hfailed => hfailed.elim)
          ((submitterRules prim lib config start hindex number).submitBatch_valid hcount hknows)
        rintro ⟨status, results⟩ after ⟨rfl, plan, hfits, rfl, hwrote⟩
        exact explains_batch hcount hfits hwrote
      · rw [submitBatch, if_pos (not_le.mp hcount)]
        refine ⟨fun hadmitted => absurd hadmitted hcount, fun _ => ⟨rfl, hstate⟩, ?_⟩
        exact fun others _ hadmitted => absurd hadmitted hcount

end Answers

/-! ## Single submissions, one after another -/

section Sequential

variable {prim : Primitives} {lib : Libraries} {config : Config} {faults : Faults}

/-- The answer of a single submission whose key the index has decided. -/
def singleAnswer (key : String) (partition : Nat) :
    SubmitOutcome → Except ApiError (Nat × RecordResult)
  | .queued => .ok (202, .queued key partition false)
  | .duplicateIdentical => .ok (200, .queued key partition true)
  | .conflict existingHash => .error (.conflict existingHash.toPrefixed)

/-- A single submission's answer in the form of a batch's result. -/
def singleResult (key : String) : Except ApiError (Nat × RecordResult) → RecordResult
  | .ok answer => answer.2
  | .error error => errorResult key error

theorem singleResult_singleAnswer (key : String) (record : IndexRecord) (outcome : SubmitOutcome) :
    singleResult key (singleAnswer key record.partitionId outcome) =
      outcomeResult key record outcome := by
  cases outcome <;> rfl

theorem validateOne_runs {record : SubmitRecordRequest} {value : String} {claimed : IndexRecord}
    (hvalid : ValidRecord prim lib config record value claimed) (world : World) :
    Prog.Runs (prim.DaemonStep faults) (validateOne prim lib config record) world
      (.ok (value, claimed)) world := by
  obtain ⟨hcheck, createdAt, htimestamp, rfl⟩ := hvalid
  rw [validateOne, hcheck]
  refine Prog.Runs.bind_ok (.pure value world) ?_
  cases hdeclared : lib.declarationTimestamp value with
  | some timestamp =>
      rw [hdeclared] at htimestamp
      obtain rfl : timestamp = createdAt := htimestamp
      exact .pure _ _
  | none => exact .call rfl (.pure _ _)

theorem prepareOne_runs {record : SubmitRecordRequest} {value : String} {claimed : IndexRecord}
    (hvalid : ValidRecord prim lib config record value claimed) (world : World) :
    Prog.Runs (prim.DaemonStep faults) (prepareOne prim lib config record) world
      (.ok (record.key, claimed)) { world with blobs := utf8 value :: world.blobs } := by
  have hput : prim.DaemonStep faults (.store (.put (utf8 value))) world
      (.ok (prim.blake3 (utf8 value))) { world with blobs := utf8 value :: world.blobs } :=
    ⟨_, Or.inl ⟨rfl, rfl⟩, rfl⟩
  refine (validateOne_runs hvalid world).bind_ok ?_
  exact Prog.Runs.bind_ok (.call hput (.pure _ _)) (Prog.Runs.bind_ok (.pure _ _) (.pure _ _))

theorem prepareOne_runs_error {record : SubmitRecordRequest} {value : String} {error : ApiError}
    {number : Nat} {trace : Trace} (hvalid : checkRequest lib config record = .ok value)
    (hfailed : PutFailed faults number value error trace) (world : World) :
    Prog.Runs (prim.DaemonStep faults) (prepareOne prim lib config record) world
      (.error error) world := by
  obtain ⟨hfault, message, -, heq⟩ := hfailed
  have hput : prim.DaemonStep faults (.store (.put (utf8 value))) world
      (.error (.io message)) world :=
    ⟨world.blobs, Or.inr ⟨hfault, ⟨_, rfl⟩, Or.inl rfl⟩, rfl⟩
  have hclaimed : ∃ claimed, ValidRecord prim lib config record value claimed := by
    refine ⟨_, hvalid, (lib.declarationTimestamp value).getD 0, ?_, rfl⟩
    cases lib.declarationTimestamp value <;> rfl
  obtain ⟨claimed, hclaimed⟩ := hclaimed
  refine (validateOne_runs hclaimed world).bind_ok ?_
  refine Prog.Runs.bind_ok (.call hput (.pure _ _)) ?_
  rw [heq]
  exact Prog.Runs.bind_error (.throw _ _)

/-- A submission that reaches the index, run alone. -/
theorem submitRecord_runs (faults : Faults) {record : SubmitRecordRequest} {value : String}
    {claimed : IndexRecord} (hvalid : ValidRecord prim lib config record value claimed)
    (world : World) :
    ∃ after, Prog.Runs (prim.DaemonStep faults) (submitRecord prim lib config record) world
      (.ofExcept (singleAnswer record.key claimed.partitionId
        (world.index.submitOne record.key claimed).1)) after ∧
      after.index = (world.index.submitOne record.key claimed).2 := by
  let guarded : World := { world with
    blobs := utf8 value :: world.blobs
    activeWrites := world.activeWrites + 1 }
  have hcommit : prim.DaemonStep faults (.index (.submitMany [(record.key, claimed)])) guarded
      (.ok [(world.index.submitOne record.key claimed).1])
      { guarded with index := (world.index.submitOne record.key claimed).2 } :=
    Or.inl ⟨rfl, rfl⟩
  obtain ⟨after, hingest, hindex⟩ : ∃ after, Prog.Runs (prim.DaemonStep faults)
      (ingestOne prim lib config record) world
      (.ofExcept (.ok ((world.index.submitOne record.key claimed).1, claimed.partitionId))) after ∧
      after.index = World.index
        { guarded with index := (world.index.submitOne record.key claimed).2 } := by
    apply withWriteGuard_runs
    refine (prepareOne_runs hvalid _).bind_ok ?_
    exact Prog.Runs.bind_ok (.call hcommit (.pure _ _)) (.pure _ _)
  refine ⟨after, Prog.Runs.bind_ok hingest ?_, hindex⟩
  dsimp only
  cases (world.index.submitOne record.key claimed).1 with
  | queued => exact .pure _ _
  | duplicateIdentical => exact .pure _ _
  | conflict existingHash => exact .throw _ _

/-- A submission that never reaches the index, run alone. -/
theorem submitRecord_runs_error {record : SubmitRecordRequest} {error : ApiError}
    (hprepare : ∀ world : World, Prog.Runs (prim.DaemonStep faults)
      (prepareOne prim lib config record) world (.error error) world) (world : World) :
    ∃ after, Prog.Runs (prim.DaemonStep faults) (submitRecord prim lib config record) world
      (.ofExcept (.error error)) after ∧ after.index = world.index := by
  obtain ⟨after, hingest, hindex⟩ : ∃ after, Prog.Runs (prim.DaemonStep faults)
      (ingestOne prim lib config record) world (.ofExcept (.error error)) after ∧
      after.index = World.index { world with activeWrites := world.activeWrites + 1 } :=
    withWriteGuard_runs (Prog.Runs.bind_error (hprepare _))
  exact ⟨after, Prog.Runs.bind_error hingest, hindex⟩

/-- A single submission of the record at a position of a request, with its answer. -/
structure SingleStep where
  number : Nat
  slot : Nat
  record : SubmitRecordRequest
  answer : Except ApiError (Nat × RecordResult)

def SingleStep.place (step : SingleStep) : Nat × Nat := (step.number, step.slot)

variable (prim lib config faults) in
/-- Single submissions, each run to its end before the next one starts. -/
inductive SingleRuns : World → List SingleStep → World → Prop
  | none (world : World) : SingleRuns world [] world
  | step {world middle final : World} {step : SingleStep} {rest : List SingleStep}
      (run : Prog.Runs (prim.DaemonStep faults) (submitRecord prim lib config step.record) world
        (.ofExcept step.answer) middle)
      (others : SingleRuns middle rest final) : SingleRuns world (step :: rest) final

theorem SingleRuns.append {start middle final : World} {first second : List SingleStep}
    (hfirst : SingleRuns prim lib config faults start first middle)
    (hsecond : SingleRuns prim lib config faults middle second final) :
    SingleRuns prim lib config faults start (first ++ second) final := by
  induction hfirst with
  | none world => exact hsecond
  | step run _ ih => exact .step run (ih hsecond)

/-- The record at a position of a request that the pool admits. -/
def IsRecord (config : Config) (requests : List Request) (number slot : Nat)
    (record : SubmitRecordRequest) : Prop :=
  ∃ request, requests[number]? = some request ∧ request.Admitted config ∧
    request.records[slot]? = some record

/-- The result of the record at a position of a request. -/
def resultOf (requests : List Request) (answers : List (Except ApiError Response))
    (number slot : Nat) : Option RecordResult := do
  let request ← requests[number]?
  let answer ← answers[number]?
  resultAt request answer slot

variable {requests : List Request} {answers : List (Except ApiError Response)}

theorem resultOf_eq {number : Nat} {request : Request} {answer : Except ApiError Response}
    (hrequest : requests[number]? = some request) (hanswer : answers[number]? = some answer)
    (slot : Nat) : resultOf requests answers number slot = resultAt request answer slot := by
  simp [resultOf, hrequest, hanswer]

theorem IsRecord.unique {number slot : Nat} {first second : SubmitRecordRequest}
    (hfirst : IsRecord config requests number slot first)
    (hsecond : IsRecord config requests number slot second) : first = second := by
  obtain ⟨request, hrequest, -, hrecord⟩ := hfirst
  obtain ⟨other, hother, -, hrecord'⟩ := hsecond
  obtain rfl : request = other := Option.some.inj (hrequest.symm.trans hother)
  exact Option.some.inj (hrecord.symm.trans hrecord')

/-- A step that answers its record as the pool did. -/
def SingleStep.Agrees (config : Config) (requests : List Request)
    (answers : List (Except ApiError Response)) (step : SingleStep) : Prop :=
  IsRecord config requests step.number step.slot step.record ∧
    resultOf requests answers step.number step.slot =
      some (singleResult step.record.key step.answer)

/-- The records of the write transactions, submitted one by one. -/
theorem singleRuns_written {rows : List (Nat × Row)} {world : World} {index : RecordIndex}
    (hrows : ∀ row ∈ rows, ∃ record value, IsRecord config requests row.1 row.2.slot record ∧
      row.2.key = record.key ∧ ValidRecord prim lib config record value row.2.record ∧
      resultOf requests answers row.1 row.2.slot =
        some (outcomeResult row.2.key row.2.record row.2.outcome))
    (hindex : world.index.submitMany (rows.map fun row => row.2.submission) =
      (rows.map fun row => row.2.outcome, index)) :
    ∃ steps last, SingleRuns prim lib config faults world steps last ∧ last.index = index ∧
      steps.map SingleStep.place = rows.map (fun row => (row.1, row.2.slot)) ∧
      ∀ step ∈ steps, step.Agrees config requests answers := by
  induction rows generalizing world with
  | nil => exact ⟨[], world, .none world, congrArg Prod.snd hindex, rfl, by simp⟩
  | cons row rest ih =>
      obtain ⟨record, value, hrecord, hkey, hvalid, hresult⟩ := hrows row List.mem_cons_self
      rw [List.map_cons, List.map_cons, RecordIndex.submitMany_cons, Prod.mk.injEq,
        List.cons.injEq] at hindex
      obtain ⟨⟨houtcome, houtcomes⟩, hlast⟩ := hindex
      simp only [Row.submission, hkey] at houtcome houtcomes hlast
      obtain ⟨middle, hruns, hmiddle⟩ := submitRecord_runs faults hvalid world
      rw [houtcome] at hruns
      rw [← hmiddle] at houtcomes hlast
      obtain ⟨steps, last, hsteps, hindex, hplaces, hagrees⟩ :=
        ih (fun other hother => hrows other (List.mem_cons_of_mem _ hother))
          (Prod.ext houtcomes hlast)
      let step : SingleStep := ⟨row.1, row.2.slot, record,
        singleAnswer record.key row.2.record.partitionId row.2.outcome⟩
      refine ⟨step :: steps, last, .step hruns hsteps, hindex, ?_, ?_⟩
      · rw [List.map_cons, hplaces]
        rfl
      · intro other hother
        rcases List.mem_cons.mp hother with rfl | hrest
        · refine ⟨hrecord, ?_⟩
          rw [singleResult_singleAnswer, ← hkey]
          exact hresult
        · exact hagrees other hrest

/-- The other records, submitted one by one after all transactions. -/
theorem singleRuns_settled {places : List (Nat × Nat)} {final : World} {trace : Trace}
    (hplaces : ∀ place ∈ places, ∃ record result,
      IsRecord config requests place.1 place.2 record ∧
      resultOf requests answers place.1 place.2 = some result ∧
      Settled prim lib config faults place.1 (final, trace) record result)
    {world : World} (hworld : world.index = final.index) :
    ∃ steps last, SingleRuns prim lib config faults world steps last ∧ last.index = final.index ∧
      steps.map SingleStep.place = places ∧
      ∀ step ∈ steps, step.Agrees config requests answers := by
  induction places generalizing world with
  | nil => exact ⟨[], world, .none world, hworld, rfl, by simp⟩
  | cons place rest ih =>
      obtain ⟨record, result, hrecord, hresult, hsettled⟩ := hplaces place List.mem_cons_self
      have hstep : ∃ answer middle, Prog.Runs (prim.DaemonStep faults)
          (submitRecord prim lib config record) world (.ofExcept answer) middle ∧
          middle.index = world.index ∧ singleResult record.key answer = result := by
        cases hsettled with
        | @rejected error invalid =>
            have hprepare : ∀ world : World, Prog.Runs (prim.DaemonStep faults)
                (prepareOne prim lib config record) world (.error error) world := by
              intro world
              rw [prepareOne, validateOne, invalid]
              exact Prog.Runs.bind_error (Prog.Runs.bind_error (.throw _ _))
            obtain ⟨middle, hruns, hmiddle⟩ := submitRecord_runs_error hprepare world
            exact ⟨_, middle, hruns, hmiddle,
              errorResult_eq_failedResult (checkRequest_ne_conflict invalid)⟩
        | @notStored value error valid failed =>
            obtain ⟨middle, hruns, hmiddle⟩ := submitRecord_runs_error
              (prepareOne_runs_error valid failed) world
            refine ⟨_, middle, hruns, hmiddle, errorResult_eq_failedResult fun existingHash => ?_⟩
            obtain ⟨-, message, -, heq⟩ := failed
            rw [← Except.error.inj heq]
            exact ApiError.noConfusion
        | @known value claimed prior valid present =>
            obtain ⟨middle, hruns, hmiddle⟩ := submitRecord_runs faults valid world
            rw [world.index.submitOne_known (hworld ▸ present)] at hruns hmiddle
            exact ⟨_, middle, hruns, hmiddle, singleResult_singleAnswer _ _ _⟩
      obtain ⟨answer, middle, hruns, hmiddle, rfl⟩ := hstep
      obtain ⟨steps, last, hsteps, hindex, hmap, hagrees⟩ :=
        ih (fun other hother => hplaces other (List.mem_cons_of_mem _ hother))
          (hmiddle.trans hworld)
      refine ⟨⟨place.1, place.2, record, answer⟩ :: steps, last, .step hruns hsteps, hindex, ?_, ?_⟩
      · rw [List.map_cons, hmap]
        rfl
      · intro step hstep
        rcases List.mem_cons.mp hstep with rfl | hrest
        · exact ⟨hrecord, hresult⟩
        · exact hagrees step hrest

end Sequential

/-! ## The whole pool -/

section Run

variable {prim : Primitives} {lib : Libraries} {config : Config} {faults : Faults}
  {requests : List Request} {answers : List (Except ApiError Response)} {start final : World}
  {trace : Trace} {rowsOf : Nat → List Row}

/-- The rows that each request wrote, and how they explain its answers. -/
structure Accounts (prim : Primitives) (lib : Libraries) (config : Config) (faults : Faults)
    (requests : List Request) (answers : List (Except ApiError Response)) (final : World)
    (trace : Trace) (rowsOf : Nat → List Row) : Prop where
  bound : answers.length = requests.length
  explained : ∀ number request answer, requests[number]? = some request →
    answers[number]? = some answer → request.Admitted config →
      Explained prim lib config faults number request answer (rowsOf number) (final, trace)
  wrote : ∀ number, (rowsOf number = [] ∧ Unwritten number trace) ∨
    Wrote number ((rowsOf number).map Row.submission) ((rowsOf number).map Row.outcome) trace
  owner : ∀ number, rowsOf number ≠ [] →
    ∃ request, requests[number]? = some request ∧ request.Admitted config

/-- The rows of all transactions, in the order they were committed. -/
def committedRows (trace : Trace) (rowsOf : Nat → List Row) : List (Nat × Row) :=
  (writes trace).flatMap fun write => (rowsOf write.number).map fun row => (write.number, row)

namespace Accounts

variable (haccounts : Accounts prim lib config faults requests answers final trace rowsOf)

include haccounts

theorem write_eq {write : Write} (hwrite : write ∈ writes trace) :
    write.submissions = (rowsOf write.number).map Row.submission ∧
      write.outcomes = (rowsOf write.number).map Row.outcome := by
  rcases haccounts.wrote write.number with ⟨-, hunwritten⟩ | ⟨before, after, heq, hothers⟩
  · exact absurd rfl (hunwritten write hwrite)
  · rw [heq, List.mem_append, List.mem_cons] at hwrite
    rcases hwrite with hbefore | hsame | hafter
    · exact absurd rfl (hothers write (List.mem_append_left _ hbefore))
    · exact ⟨congrArg Write.submissions hsame, congrArg Write.outcomes hsame⟩
    · exact absurd rfl (hothers write (List.mem_append_right _ hafter))

theorem numbers_nodup : ((writes trace).map Write.number).Nodup := by
  rw [List.nodup_iff_count_le_one]
  intro number
  rcases haccounts.wrote number with ⟨-, hunwritten⟩ | ⟨before, after, heq, hothers⟩
  · rw [List.count_eq_zero_of_not_mem]
    · exact Nat.zero_le _
    · intro hmem
      obtain ⟨write, hwrite, rfl⟩ := List.mem_map.mp hmem
      exact hunwritten write hwrite rfl
  · have hnone : ∀ part : List Write, (∀ write ∈ part, write ∈ before ++ after) →
        (part.map Write.number).count number = 0 := by
      intro part hpart
      refine List.count_eq_zero_of_not_mem fun hmem => ?_
      obtain ⟨write, hwrite, hnumber⟩ := List.mem_map.mp hmem
      exact hothers write (hpart write hwrite) hnumber
    rw [heq, List.map_append, List.map_cons, List.count_append, List.count_cons,
      hnone before fun _ => List.mem_append_left _, hnone after fun _ => List.mem_append_right _]
    simp

theorem mem_committedRows {number : Nat} {row : Row} :
    (number, row) ∈ committedRows trace rowsOf ↔ row ∈ rowsOf number := by
  constructor
  · intro hmem
    obtain ⟨write, -, hwrite⟩ := List.mem_flatMap.mp hmem
    obtain ⟨other, hother, heq⟩ := List.mem_map.mp hwrite
    obtain ⟨rfl, rfl⟩ := Prod.mk.inj heq
    exact hother
  · intro hrow
    rcases haccounts.wrote number with ⟨hnil, -⟩ | ⟨before, after, heq, -⟩
    · rw [hnil] at hrow
      exact absurd hrow List.not_mem_nil
    · have hwrite : (⟨number, (rowsOf number).map Row.submission,
          (rowsOf number).map Row.outcome⟩ : Write) ∈ writes trace := by
        rw [heq]
        exact List.mem_append_right _ List.mem_cons_self
      exact List.mem_flatMap.mpr ⟨_, hwrite, List.mem_map.mpr ⟨row, hrow, rfl⟩⟩

theorem submissions_eq : (writes trace).flatMap Write.submissions =
    (committedRows trace rowsOf).map fun row => row.2.submission := by
  rw [committedRows, List.map_flatMap]
  refine List.flatMap_congr fun write hwrite => ?_
  rw [List.map_map, (haccounts.write_eq hwrite).1]
  rfl

theorem outcomes_eq : (writes trace).flatMap Write.outcomes =
    (committedRows trace rowsOf).map fun row => row.2.outcome := by
  rw [committedRows, List.map_flatMap]
  refine List.flatMap_congr fun write hwrite => ?_
  rw [List.map_map, (haccounts.write_eq hwrite).2]
  rfl

/-- Every request with a row was admitted and answered. -/
theorem explained_of_mem {number : Nat} {row : Row} (hrow : row ∈ rowsOf number) :
    ∃ request answer, requests[number]? = some request ∧ answers[number]? = some answer ∧
      request.Admitted config ∧
      Explained prim lib config faults number request answer (rowsOf number) (final, trace) := by
  obtain ⟨request, hrequest, hadmitted⟩ := haccounts.owner number (List.ne_nil_of_mem hrow)
  have hlt : number < answers.length := by
    rw [haccounts.bound]
    exact (List.getElem?_eq_some_iff.mp hrequest).1
  exact ⟨request, answers[number], hrequest, List.getElem?_eq_getElem hlt, hadmitted,
    haccounts.explained number request _ hrequest (List.getElem?_eq_getElem hlt) hadmitted⟩

theorem places_nodup :
    ((committedRows trace rowsOf).map fun row => (row.1, row.2.slot)).Nodup := by
  rw [committedRows, List.map_flatMap, List.nodup_flatMap]
  refine ⟨fun write hwrite => ?_, ?_⟩
  · have hslots : ((rowsOf write.number).map Row.slot).Nodup := by
      cases hrows : rowsOf write.number with
      | nil => exact List.nodup_nil
      | cons row rest =>
          have hmem : row ∈ rowsOf write.number := hrows ▸ List.mem_cons_self
          obtain ⟨_, _, -, -, -, hexplained⟩ := haccounts.explained_of_mem hmem
          exact hrows ▸ hexplained.nodup
    rw [List.map_map]
    have hinjective : Function.Injective fun slot : Nat => (write.number, slot) :=
      fun first second heq => (Prod.mk.inj heq).2
    have hpairs := hslots.map hinjective
    rwa [List.map_map] at hpairs
  · have hnumbers := List.pairwise_map.mp haccounts.numbers_nodup
    refine hnumbers.imp fun {first second} hne => ?_
    intro place hfirst hsecond
    dsimp only at hfirst hsecond
    rw [List.map_map] at hfirst hsecond
    obtain ⟨row, -, hrow⟩ := List.mem_map.mp hfirst
    obtain ⟨other, -, hother⟩ := List.mem_map.mp hsecond
    exact hne ((congrArg Prod.fst hrow).trans (congrArg Prod.fst hother).symm)

end Accounts

/-- The answer of the request with this number is explained. -/
def ExplainsAt (prim : Primitives) (lib : Libraries) (config : Config) (faults : Faults)
    (requests : List Request) (number : Nat) (answer : Except ApiError Response)
    (state : World × Trace) : Prop :=
  ∀ request, requests[number]? = some request →
    Explains prim lib config faults number request answer state

theorem pool_valid {last : List (ApiProg Response)} {earlier : Trace}
    {middle : World} {pool : List (ApiProg Response)}
    (hinv : Replayed start.index earlier middle.index)
    (hpool : ∀ number prog, pool[number]? = some prog →
      Valid ((submitters prim faults start.index).setting number)
        (fun value => ExplainsAt prim lib config faults requests number (.ok value))
        (fun error => ExplainsAt prim lib config faults requests number (.error error)) prog
        (middle, earlier))
    (hrun : PoolRun (prim.DaemonStep faults) middle pool trace final last) :
    Replayed start.index (earlier ++ trace) final.index ∧
      (submitters prim faults start.index).guar middle final ∧
      ∀ number prog, last[number]? = some prog →
        Valid ((submitters prim faults start.index).setting number)
          (fun value => ExplainsAt prim lib config faults requests number (.ok value))
          (fun error => ExplainsAt prim lib config faults requests number (.error error)) prog
          (final, earlier ++ trace) := by
  refine Team.run_valid (fun number value state later hrely hstate request hrequest => ?_)
    (fun number error state later hrely hstate request hrequest => ?_) hinv hpool hrun
  · exact (hstate request hrequest).rely hrely
  · exact (hstate request hrequest).rely hrely

/-- Every request starts out to be explained. -/
theorem handles_explained (hindex : ¬ faults.index) (number : Nat) (prog : ApiProg Response)
    (hprog : (requests.map (handle prim lib config))[number]? = some prog) :
    Valid ((submitters prim faults start.index).setting number)
      (fun value => ExplainsAt prim lib config faults requests number (.ok value))
      (fun error => ExplainsAt prim lib config faults requests number (.error error)) prog
      (start, []) := by
  rw [List.getElem?_map] at hprog
  obtain ⟨request, hrequest, rfl⟩ := Option.map_eq_some_iff.mp hprog
  have hunwritten : Unwritten number [] := fun write hwrite => absurd hwrite List.not_mem_nil
  refine Valid.mono ?_ ?_ (handle_explained hindex request hunwritten)
  · intro value state hstate other hother
    obtain rfl : request = other := Option.some.inj (hrequest.symm.trans hother)
    exact hstate
  · intro error state hstate other hother
    obtain rfl : request = other := Option.some.inj (hrequest.symm.trans hother)
    exact hstate

theorem explains_of_run (hindex : ¬ faults.index)
    (hrun : PoolRun (prim.DaemonStep faults) start (requests.map (handle prim lib config)) trace
      final (answers.map Prog.ofExcept)) :
    Replayed start.index trace final.index ∧
      ∀ number request answer, requests[number]? = some request → answers[number]? = some answer →
        Explains prim lib config faults number request answer (final, trace) := by
  obtain ⟨hreplayed, -, hanswers⟩ :=
    pool_valid (by exact rfl) (handles_explained hindex) hrun
  refine ⟨hreplayed, fun number request answer hrequest hanswer => ?_⟩
  have hended := hanswers number (Prog.ofExcept answer) (by simp [hanswer])
  cases answer with
  | ok value => exact hended request hrequest
  | error error => exact hended request hrequest

/-- A record that the index has at any moment of a run is there at its end. -/
theorem record_kept_of_run (hindex : ¬ faults.index) {early late : Trace} {middle : World}
    {pool last : List (ApiProg Response)}
    (hearly : PoolRun (prim.DaemonStep faults) start (requests.map (handle prim lib config)) early
      middle pool)
    (hlate : PoolRun (prim.DaemonStep faults) middle pool late final last) {key : String}
    {record : IndexRecord} (hrecord : middle.index.records[key]? = some record) :
    final.index.records[key]? = some record := by
  obtain ⟨hreplayed, -, hpool⟩ :=
    pool_valid (by exact rfl) (handles_explained hindex) hearly
  exact (pool_valid hreplayed hpool hlate).2.1 key record hrecord

theorem exists_accounts
    (hrun : PoolRun (prim.DaemonStep faults) start (requests.map (handle prim lib config)) trace
      final (answers.map Prog.ofExcept))
    (hexplains : ∀ number request answer, requests[number]? = some request →
      answers[number]? = some answer →
        Explains prim lib config faults number request answer (final, trace)) :
    ∃ rowsOf, Accounts prim lib config faults requests answers final trace rowsOf := by
  have hlength : answers.length = requests.length := by simpa using hrun.length_eq
  have hrows : ∀ number, ∃ rows : List Row,
      (∀ request answer, requests[number]? = some request → answers[number]? = some answer →
        request.Admitted config →
          Explained prim lib config faults number request answer rows (final, trace)) ∧
      ((rows = [] ∧ Unwritten number trace) ∨
        Wrote number (rows.map Row.submission) (rows.map Row.outcome) trace) ∧
      (rows ≠ [] → ∃ request, requests[number]? = some request ∧ request.Admitted config) := by
    intro number
    cases hrequest : requests[number]? with
    | none =>
        refine ⟨[], fun request answer hsome => (Option.some_ne_none _ hsome.symm).elim,
          Or.inl ⟨rfl, fun write hwrite => ?_⟩, fun hne => absurd rfl hne⟩
        obtain ⟨event, hevent, hnumber⟩ := number_of_mem_writes hwrite
        have hlt := hrun.number_lt event hevent
        rw [List.length_map] at hlt
        have hle := List.getElem?_eq_none_iff.mp hrequest
        omega
    | some request =>
        have hlt : number < answers.length := by
          rw [hlength]
          exact (List.getElem?_eq_some_iff.mp hrequest).1
        have hanswer : answers[number]? = some answers[number] := List.getElem?_eq_getElem hlt
        have hexplain := hexplains number request _ hrequest hanswer
        by_cases hadmitted : request.Admitted config
        · obtain ⟨rows, hexplained⟩ := hexplain.admitted hadmitted
          refine ⟨rows, fun other answer hother hanswer' _ => ?_, hexplained.wrote,
            fun _ => ⟨request, rfl, hadmitted⟩⟩
          obtain rfl : request = other := Option.some.inj hother
          obtain rfl : answers[number] = answer := Option.some.inj (hanswer.symm.trans hanswer')
          exact hexplained
        · refine ⟨[], fun other answer hother _ hother' => ?_,
            Or.inl ⟨rfl, (hexplain.refused hadmitted).2⟩, fun hne => absurd rfl hne⟩
          obtain rfl : request = other := Option.some.inj hother
          exact absurd hother' hadmitted
  choose rowsOf hexplained hwrote howner using hrows
  exact ⟨rowsOf, hlength, hexplained, hwrote, howner⟩

namespace Accounts

variable (haccounts : Accounts prim lib config faults requests answers final trace rowsOf)

include haccounts

theorem replay (hreplayed : Replayed start.index trace final.index) :
    start.index.submitMany ((committedRows trace rowsOf).map fun row => row.2.submission) =
      ((committedRows trace rowsOf).map fun row => row.2.outcome, final.index) := by
  rw [← haccounts.submissions_eq, ← haccounts.outcomes_eq]
  exact hreplayed

/-- What is known of a row of a write transaction. -/
theorem row_spec {row : Nat × Row} (hrow : row ∈ committedRows trace rowsOf) :
    ∃ record value, IsRecord config requests row.1 row.2.slot record ∧ row.2.key = record.key ∧
      ValidRecord prim lib config record value row.2.record ∧
      resultOf requests answers row.1 row.2.slot =
        some (outcomeResult row.2.key row.2.record row.2.outcome) := by
  obtain ⟨number, row⟩ := row
  have hmem := haccounts.mem_committedRows.mp hrow
  obtain ⟨request, answer, hrequest, hanswer, hadmitted, hexplained⟩ :=
    haccounts.explained_of_mem hmem
  obtain ⟨record, value, hrecord, hkey, hvalid, hresult⟩ := hexplained.written row hmem
  exact ⟨record, value, ⟨request, hrequest, hadmitted, hrecord⟩, hkey, hvalid,
    (resultOf_eq hrequest hanswer _).trans hresult⟩

/-- A record is a row of a write transaction or is settled without one. -/
theorem row_or_settled {number slot : Nat} {record : SubmitRecordRequest}
    (hrecord : IsRecord config requests number slot record) :
    (∃ row, (number, row) ∈ committedRows trace rowsOf ∧ row.slot = slot) ∨
      ((number, slot) ∉ (committedRows trace rowsOf).map (fun row => (row.1, row.2.slot)) ∧
        ∃ result, resultOf requests answers number slot = some result ∧
          Settled prim lib config faults number (final, trace) record result) := by
  obtain ⟨request, hrequest, hadmitted, hslot⟩ := hrecord
  have hlt : number < answers.length := by
    rw [haccounts.bound]
    exact (List.getElem?_eq_some_iff.mp hrequest).1
  have hanswer : answers[number]? = some answers[number] := List.getElem?_eq_getElem hlt
  have hexplained := haccounts.explained number request _ hrequest hanswer hadmitted
  by_cases hmem : slot ∈ (rowsOf number).map Row.slot
  · obtain ⟨row, hrow, rfl⟩ := List.mem_map.mp hmem
    exact Or.inl ⟨row, haccounts.mem_committedRows.mpr hrow, rfl⟩
  · obtain ⟨result, hresult, hsettled⟩ := hexplained.settled slot record hslot hmem
    refine Or.inr ⟨fun hplace => hmem ?_, result,
      (resultOf_eq hrequest hanswer slot).trans hresult, hsettled⟩
    obtain ⟨⟨_, row⟩, hrow, heq⟩ := List.mem_map.mp hplace
    obtain ⟨rfl, rfl⟩ := Prod.mk.inj heq
    exact List.mem_map_of_mem (haccounts.mem_committedRows.mp hrow)

/-- The pool answers as the records submitted one by one would be answered, first
those of the write transactions in commit order, then the others. -/
theorem sequential (hreplayed : Replayed start.index trace final.index) :
    ∃ steps last, SingleRuns prim lib config faults start steps last ∧
      last.index = final.index ∧ (steps.map SingleStep.place).Nodup ∧
      (∀ number slot record, IsRecord config requests number slot record ↔
        ∃ step ∈ steps, step.number = number ∧ step.slot = slot ∧ step.record = record) ∧
      ∀ step ∈ steps, step.Agrees config requests answers := by
  classical
  obtain ⟨written, middle, hwritten, hmiddle, hplaces, hagrees⟩ := singleRuns_written
    (fun row hrow => haccounts.row_spec hrow) (haccounts.replay hreplayed)
  let all : List (Nat × Nat) := (List.range requests.length).flatMap fun number =>
    (List.range ((requests[number]?.map fun request => request.records.length).getD 0)).map
      fun slot => (number, slot)
  let settled := (all.filter fun place =>
    (∃ record, IsRecord config requests place.1 place.2 record) ∧
      place ∉ written.map SingleStep.place).dedup
  have hall : ∀ number slot record, IsRecord config requests number slot record →
      (number, slot) ∈ all := by
    rintro number slot record ⟨request, hrequest, -, hrecord⟩
    refine List.mem_flatMap.mpr ⟨number, ?_, List.mem_map.mpr ⟨slot, ?_, rfl⟩⟩
    · exact List.mem_range.mpr (List.getElem?_eq_some_iff.mp hrequest).1
    · rw [hrequest, List.mem_range]
      exact (List.getElem?_eq_some_iff.mp hrecord).1
  have hsettled : ∀ place ∈ settled, ∃ record result,
      IsRecord config requests place.1 place.2 record ∧
      resultOf requests answers place.1 place.2 = some result ∧
      Settled prim lib config faults place.1 (final, trace) record result := by
    intro place hplace
    obtain ⟨-, hcondition⟩ := List.mem_filter.mp (List.mem_dedup.mp hplace)
    obtain ⟨⟨record, hrecord⟩, hnot⟩ := of_decide_eq_true hcondition
    rcases haccounts.row_or_settled hrecord with ⟨row, hrow, hslot⟩ | ⟨-, result, hresult, hwhy⟩
    · refine absurd ?_ hnot
      rw [hplaces]
      exact List.mem_map.mpr ⟨_, hrow, Prod.ext rfl hslot⟩
    · exact ⟨record, result, hrecord, hresult, hwhy⟩
  obtain ⟨others, last, hothers, hlast, hrest, hagreesRest⟩ :=
    singleRuns_settled hsettled hmiddle
  have hagreesAll : ∀ step ∈ written ++ others, step.Agrees config requests answers := by
    intro step hstep
    exact (List.mem_append.mp hstep).elim (hagrees step) (hagreesRest step)
  refine ⟨written ++ others, last, hwritten.append hothers, hlast, ?_, ?_, hagreesAll⟩
  · rw [List.map_append, List.nodup_append]
    refine ⟨hplaces ▸ haccounts.places_nodup, hrest ▸ List.nodup_dedup _, ?_⟩
    intro place hplace other hother heq
    rw [hrest] at hother
    obtain ⟨-, hcondition⟩ := List.mem_filter.mp (List.mem_dedup.mp hother)
    exact (of_decide_eq_true hcondition).2 (heq ▸ hplace)
  · intro number slot record
    constructor
    · intro hrecord
      have hplace : (number, slot) ∈ (written ++ others).map SingleStep.place := by
        rw [List.map_append, hrest, List.mem_append]
        by_cases hmem : (number, slot) ∈ written.map SingleStep.place
        · exact Or.inl hmem
        · refine Or.inr (List.mem_dedup.mpr (List.mem_filter.mpr ⟨hall _ _ _ hrecord, ?_⟩))
          exact decide_eq_true ⟨⟨record, hrecord⟩, hmem⟩
      obtain ⟨step, hstep, heq⟩ := List.mem_map.mp hplace
      obtain ⟨rfl, rfl⟩ := Prod.mk.inj heq
      exact ⟨step, hstep, rfl, rfl, (hagreesAll step hstep).1.unique hrecord⟩
    · rintro ⟨step, hstep, rfl, rfl, rfl⟩
      exact (hagreesAll step hstep).1

/-- An unknown key that reaches a write transaction is claimed by one record, and
every other valid record of the key is answered by the claim. -/
theorem claim (hreplayed : Replayed start.index trace final.index) {key : String}
    (hnone : start.index.records[key]? = none)
    (hcarried : ∃ write ∈ writes trace, ∃ submission ∈ write.submissions, submission.1 = key) :
    ∃ number slot record value claimed, IsRecord config requests number slot record ∧
      record.key = key ∧ ValidRecord prim lib config record value claimed ∧
      resultOf requests answers number slot = some (.queued key claimed.partitionId false) ∧
      final.index.records[key]? = some claimed ∧
      ∀ number' slot' other value', IsRecord config requests number' slot' other →
        other.key = key → (number', slot') ≠ (number, slot) →
        checkRequest lib config other = .ok value' →
        (∃ error, PutFailed faults number' value' error trace ∧
          resultOf requests answers number' slot' = some (failedResult key error)) ∨
        (prim.contentHash value' = claimed.contentHash ∧
          resultOf requests answers number' slot' =
            some (.queued key claimed.partitionId true)) ∨
        (prim.contentHash value' ≠ claimed.contentHash ∧
          resultOf requests answers number' slot' =
            some (.conflict key claimed.contentHash.toPrefixed)) := by
  have hrow : ∃ row ∈ committedRows trace rowsOf, row.2.submission.1 = key := by
    obtain ⟨write, hwrite, submission, hsubmission, rfl⟩ := hcarried
    rw [(haccounts.write_eq hwrite).1] at hsubmission
    obtain ⟨row, hrow, rfl⟩ := List.mem_map.mp hsubmission
    exact ⟨(write.number, row), haccounts.mem_committedRows.mpr hrow, rfl⟩
  obtain ⟨before, first, after, hrows, hfirstKey, hbefore, hqueued, hfinal, hafter⟩ :=
    start.index.submitMany_claim (haccounts.replay hreplayed) hnone hrow
  have hfirst : first ∈ committedRows trace rowsOf := by
    rw [hrows]
    exact List.mem_append_right _ List.mem_cons_self
  obtain ⟨record, value, hrecord, hkey, hvalid, hresult⟩ := haccounts.row_spec hfirst
  have hrecordKey : record.key = key := hkey.symm.trans hfirstKey
  refine ⟨first.1, first.2.slot, record, value, first.2.record, hrecord, hrecordKey, hvalid, ?_,
    hfinal, ?_⟩
  · rw [hresult, hqueued, hkey, hrecordKey]
    rfl
  intro number slot other content hother hotherKey hplace hcontent
  -- A record that is answered by the claimed one, whichever way it got there.
  have hanswered : ∀ otherRecord otherValue,
      ValidRecord prim lib config other otherValue otherRecord →
      resultOf requests answers number slot = some (outcomeResult key otherRecord
        (RecordIndex.knownOutcome first.2.record otherRecord)) →
      (prim.contentHash content = first.2.record.contentHash ∧
        resultOf requests answers number slot =
          some (.queued key first.2.record.partitionId true)) ∨
      (prim.contentHash content ≠ first.2.record.contentHash ∧
        resultOf requests answers number slot =
          some (.conflict key first.2.record.contentHash.toPrefixed)) := by
    rintro otherRecord otherValue ⟨hcheck, createdAt, -, rfl⟩ hresult
    obtain rfl : content = otherValue := Except.ok.inj (hcontent.symm.trans hcheck)
    obtain ⟨-, firstCreatedAt, -, hclaimed⟩ := hvalid
    have hpartition : first.2.record.partitionId =
        prim.partitionIdForKey other.key config.topLevelPartitions := by
      rw [hclaimed, hotherKey, ← hrecordKey]
      rfl
    by_cases hhash : first.2.record.contentHash = prim.contentHash content
    · refine Or.inl ⟨hhash.symm, ?_⟩
      have hknown : RecordIndex.knownOutcome first.2.record
          (newRecord prim lib config other.key content createdAt) = .duplicateIdentical :=
        if_pos hhash
      rw [hresult, hknown, hpartition]
      rfl
    · refine Or.inr ⟨fun heq => hhash heq.symm, ?_⟩
      have hknown : RecordIndex.knownOutcome first.2.record
          (newRecord prim lib config other.key content createdAt) =
            .conflict first.2.record.contentHash := if_neg hhash
      rw [hresult, hknown]
      rfl
  rcases haccounts.row_or_settled hother with ⟨row, hrow, rfl⟩ | ⟨-, result, hresult, hsettled⟩
  · obtain ⟨found, otherValue, hfound, hrowKey, hrowValid, hrowResult⟩ := haccounts.row_spec hrow
    obtain rfl : found = other := hfound.unique hother
    have hsameKey : row.key = key := hrowKey.trans hotherKey
    refine Or.inr (hanswered row.record otherValue hrowValid ?_)
    have hposition : (number, row) ∈ after := by
      rw [hrows, List.mem_append, List.mem_cons] at hrow
      rcases hrow with hearly | hsame | hlate
      · exact absurd hsameKey (hbefore _ hearly)
      · exact absurd (by rw [← hsame]) hplace
      · exact hlate
    have houtcome := hafter _ hposition hsameKey
    dsimp only at houtcome hrowResult
    rw [hrowResult, houtcome, hsameKey]
    rfl
  · cases hsettled with
    | rejected invalid =>
        rw [hcontent] at invalid
        cases invalid
    | @notStored otherValue error valid failed =>
        obtain rfl : content = otherValue := Except.ok.inj (hcontent.symm.trans valid)
        exact Or.inl ⟨error, failed, hotherKey ▸ hresult⟩
    | @known otherValue otherRecord prior valid present =>
        have hprior : prior = first.2.record := by
          rw [hotherKey] at present
          exact Option.some.inj (present.symm.trans hfinal)
        subst hprior
        refine Or.inr (hanswered otherRecord otherValue valid ?_)
        rw [← hotherKey]
        exact hresult

/-- Only a record that a write transaction claimed its key for is answered as new. -/
theorem row_of_queued {number slot : Nat} {record : SubmitRecordRequest} {partition : Nat}
    (hrecord : IsRecord config requests number slot record)
    (hqueued : resultOf requests answers number slot = some (.queued record.key partition false)) :
    ∃ value, checkRequest lib config record = .ok value := by
  rcases haccounts.row_or_settled hrecord with ⟨row, hrow, rfl⟩ | ⟨-, result, hresult, hsettled⟩
  · obtain ⟨found, value, hfound, -, hvalid, -⟩ := haccounts.row_spec hrow
    obtain rfl : found = record := hfound.unique hrecord
    exact ⟨value, hvalid.1⟩
  · obtain rfl := Option.some.inj (hresult.symm.trans hqueued)
    cases hcheck : checkRequest lib config record with
    | ok value => exact ⟨value, rfl⟩
    | error error =>
        generalize hanswer : RecordResult.queued record.key partition false = answer at hsettled
        cases hsettled with
        | rejected invalid => cases hanswer
        | notStored valid failed => cases hanswer
        | known valid present => exact absurd (hcheck.symm.trans valid.1) (by simp)

end Accounts

theorem key_of_settled {number : Nat} {state : World × Trace} {record : SubmitRecordRequest}
    {result : RecordResult}
    (hsettled : Settled prim lib config faults number state record result) :
    result.key = record.key := by
  cases hsettled with
  | rejected invalid => rfl
  | notStored valid failed => rfl
  | @known value claimed prior valid present =>
      cases RecordIndex.knownOutcome prior claimed <;> rfl

/-- Every record of an admitted batch has its own result at its own position. -/
theorem Explains.results {number : Nat} {records : List SubmitRecordRequest}
    {answer : Except ApiError Response} {state : World × Trace}
    (hexplains : Explains prim lib config faults number (.batch records) answer state)
    (hcount : records.length ≤ config.batchMaxRecords) :
    ∃ results : List (Option RecordResult), answer = .ok (.batch 207 results) ∧
      results.length = records.length ∧
      ∀ (slot : Nat) (record : SubmitRecordRequest), records[slot]? = some record →
        ∃ result : RecordResult, results[slot]? = some (some result) ∧
          result.key = record.key := by
  obtain ⟨results, rfl, hlength⟩ := hexplains.batch records rfl hcount
  refine ⟨results, rfl, hlength, fun slot record hrecord => ?_⟩
  obtain ⟨rows, hrows⟩ := hexplains.admitted hcount
  have hresult : ∃ result, results[slot]?.join = some result ∧ result.key = record.key := by
    by_cases hslot : slot ∈ rows.map Row.slot
    · obtain ⟨row, hrow, rfl⟩ := List.mem_map.mp hslot
      obtain ⟨found, value, hfound, hkey, -, hresult⟩ := hrows.written row hrow
      obtain rfl : found = record := Option.some.inj (hfound.symm.trans hrecord)
      refine ⟨_, hresult, Eq.trans ?_ hkey⟩
      cases row.outcome <;> rfl
    · obtain ⟨result, hresult, hsettled⟩ := hrows.settled slot record hrecord hslot
      exact ⟨result, hresult, key_of_settled hsettled⟩
  obtain ⟨result, hjoin, hkey⟩ := hresult
  exact ⟨result, Option.join_eq_some_iff.mp hjoin, hkey⟩

/-- Concurrent submissions, run to their ends without index failures. Every
admitted batch answers each of its records at its own position. An unknown key
that reaches a write transaction is queued for exactly one record, whose content
it keeps, and every other valid record of that key is answered as a duplicate or
a conflict by its content, unless the store failed to take its value. A record,
once in the index, stays as it is. Answers and tables are those of the records
submitted one by one in some order. -/
theorem submissions_linearizable (hindex : ¬ faults.index)
    (hrun : PoolRun (prim.DaemonStep faults) start (requests.map (handle prim lib config)) trace
      final (answers.map Prog.ofExcept)) :
    (∀ (number : Nat) (records : List SubmitRecordRequest),
      requests[number]? = some (.batch records) → records.length ≤ config.batchMaxRecords →
      ∃ results : List (Option RecordResult),
        answers[number]? = some (.ok (.batch 207 results)) ∧
        results.length = records.length ∧
        ∀ (slot : Nat) (record : SubmitRecordRequest), records[slot]? = some record →
          ∃ result : RecordResult, results[slot]? = some (some result) ∧
            result.key = record.key) ∧
    (∀ key : String, start.index.records[key]? = none →
      (∃ write ∈ writes trace, ∃ submission ∈ write.submissions, submission.1 = key) →
      ∃ number slot record value claimed, IsRecord config requests number slot record ∧
        record.key = key ∧ ValidRecord prim lib config record value claimed ∧
        resultOf requests answers number slot = some (.queued key claimed.partitionId false) ∧
        final.index.records[key]? = some claimed ∧
        (∀ number' slot' other partition, IsRecord config requests number' slot' other →
          other.key = key → resultOf requests answers number' slot' =
            some (.queued key partition false) → (number', slot') = (number, slot)) ∧
        ∀ number' slot' other value', IsRecord config requests number' slot' other →
          other.key = key → (number', slot') ≠ (number, slot) →
          checkRequest lib config other = .ok value' →
          (∃ error, PutFailed faults number' value' error trace ∧
            resultOf requests answers number' slot' = some (failedResult key error)) ∨
          (prim.contentHash value' = claimed.contentHash ∧
            resultOf requests answers number' slot' =
              some (.queued key claimed.partitionId true)) ∨
          (prim.contentHash value' ≠ claimed.contentHash ∧
            resultOf requests answers number' slot' =
              some (.conflict key claimed.contentHash.toPrefixed))) ∧
    (∀ (early late : Trace) (middle : World) (pool : List (ApiProg Response)),
      PoolRun (prim.DaemonStep faults) start (requests.map (handle prim lib config)) early middle
        pool →
      PoolRun (prim.DaemonStep faults) middle pool late final (answers.map Prog.ofExcept) →
      ∀ (key : String) (record : IndexRecord), middle.index.records[key]? = some record →
        final.index.records[key]? = some record) ∧
    ∃ steps last, SingleRuns prim lib config faults start steps last ∧
      last.index = final.index ∧ (steps.map SingleStep.place).Nodup ∧
      (∀ number slot record, IsRecord config requests number slot record ↔
        ∃ step ∈ steps, step.number = number ∧ step.slot = slot ∧ step.record = record) ∧
      ∀ step ∈ steps, resultOf requests answers step.number step.slot =
        some (singleResult step.record.key step.answer) := by
  obtain ⟨hreplayed, hexplains⟩ := explains_of_run hindex hrun
  obtain ⟨rowsOf, haccounts⟩ := exists_accounts hrun hexplains
  refine ⟨?_, ?_, ?_, ?_⟩
  · intro number records hrequest hcount
    have hlt : number < answers.length := by
      rw [haccounts.bound]
      exact (List.getElem?_eq_some_iff.mp hrequest).1
    have hanswer : answers[number]? = some answers[number] := List.getElem?_eq_getElem hlt
    obtain ⟨results, hresults, hlength, hslots⟩ :=
      (hexplains number _ _ hrequest hanswer).results hcount
    exact ⟨results, by rw [hanswer, hresults], hlength, hslots⟩
  · intro key hnone hcarried
    obtain ⟨number, slot, record, value, claimed, hrecord, hkey, hvalid, hresult,
        hfinal, hothers⟩ :=
      haccounts.claim hreplayed hnone hcarried
    refine ⟨number, slot, record, value, claimed, hrecord, hkey, hvalid, hresult, hfinal, ?_,
      hothers⟩
    intro number' slot' other partition hother hotherKey hqueued
    by_contra hplace
    obtain ⟨value', hcheck⟩ := haccounts.row_of_queued hother (hotherKey ▸ hqueued)
    rcases hothers number' slot' other value' hother hotherKey hplace hcheck with
      ⟨error, -, hfailed⟩ | ⟨-, hduplicate⟩ | ⟨-, hconflict⟩
    · simp [failedResult, hfailed] at hqueued
    · simp [hduplicate] at hqueued
    · simp [hconflict] at hqueued
  · exact fun early late middle pool hearly hlate key record =>
      record_kept_of_run hindex hearly hlate
  · obtain ⟨steps, last, hsteps, hlast, hnodup, hplaces, hagrees⟩ := haccounts.sequential hreplayed
    exact ⟨steps, last, hsteps, hlast, hnodup, hplaces, fun step hstep => (hagrees step hstep).2⟩

end Run

namespace Sample

/-- A single submission of the first record, and a batch of both. -/
def pooled : List Request :=
  [.single ⟨firstKey, firstJson⟩, .batch [⟨firstKey, firstJson⟩, ⟨secondKey, secondJson⟩]]

/-- The batch runs first, then the single submission. -/
def batchRun : Prog.Outcome ApiError Response × World :=
  (handle prim lib .default (.batch [⟨firstKey, firstJson⟩, ⟨secondKey, secondJson⟩])).run
    (prim.daemonHandler createdAt) .empty

def singleRun : Prog.Outcome ApiError Response × World :=
  (handle prim lib .default (.single ⟨firstKey, firstJson⟩)).run (prim.daemonHandler createdAt)
    batchRun.2

def pooledAnswers : List (Except ApiError Response) :=
  [.ok (.single 200 (.queued firstKey 249 true)),
    .ok (.batch 207 [some (.queued firstKey 249 false), some (.queued secondKey 205 false)])]

theorem pooled_run (faults : Faults) : ∃ trace, PoolRun (prim.DaemonStep faults) .empty
    (pooled.map (handle prim lib .default)) trace singleRun.2
    (pooledAnswers.map Prog.ofExcept) := by
  have hbatch := prim.daemonHandler_runs faults createdAt
    (handle prim lib .default (.batch [⟨firstKey, firstJson⟩, ⟨secondKey, secondJson⟩])) .empty
  have hsingle := prim.daemonHandler_runs faults createdAt
    (handle prim lib .default (.single ⟨firstKey, firstJson⟩)) batchRun.2
  have hbatchAnswer : batchRun.1 = .ofExcept (.ok (.batch 207
      [some (.queued firstKey 249 false), some (.queued secondKey 205 false)])) := by
    decide +kernel
  have hsingleAnswer : singleRun.1 = .ofExcept (.ok (.single 200 (.queued firstKey 249 true))) := by
    decide +kernel
  have hstart : PoolRun (prim.DaemonStep faults) .empty (pooled.map (handle prim lib .default)) []
      .empty (pooled.map (handle prim lib .default)) := .none
  have hsecond : (pooled.map (handle prim lib .default))[1]? =
      some (handle prim lib .default (.batch [⟨firstKey, firstJson⟩, ⟨secondKey, secondJson⟩])) :=
    rfl
  obtain ⟨early, hearly⟩ := hstart.extend hsecond hbatch
  have hfirst : ((pooled.map (handle prim lib .default)).set 1 batchRun.1.prog)[0]? =
      some (handle prim lib .default (.single ⟨firstKey, firstJson⟩)) := rfl
  obtain ⟨trace, htrace⟩ := hearly.extend hfirst hsingle
  refine ⟨trace, ?_⟩
  change PoolRun _ _ _ _ _ [singleRun.1.prog, batchRun.1.prog] at htrace
  rw [hbatchAnswer, hsingleAnswer] at htrace
  exact htrace

end Sample

/-- A batch of two records, then a repeat of the first, run as one pool while blob
puts may fail: three single submissions leave the same tables. -/
theorem submissions_linearizable_sample : ∃ trace,
    PoolRun (Sample.prim.DaemonStep ⟨True, False, False⟩) .empty
      (Sample.pooled.map (handle Sample.prim Sample.lib .default)) trace Sample.singleRun.2
      (Sample.pooledAnswers.map Prog.ofExcept) ∧
    Sample.singleRun.2.index.records.keys = [Sample.firstKey, Sample.secondKey] ∧
    resultOf Sample.pooled Sample.pooledAnswers 0 0 = some (.queued Sample.firstKey 249 true) ∧
    ∃ steps last,
      SingleRuns Sample.prim Sample.lib .default ⟨True, False, False⟩ .empty steps last ∧
      last.index = Sample.singleRun.2.index ∧
      ∀ step ∈ steps, resultOf Sample.pooled Sample.pooledAnswers step.number step.slot =
        some (singleResult step.record.key step.answer) := by
  obtain ⟨trace, htrace⟩ := Sample.pooled_run ⟨True, False, False⟩
  obtain ⟨-, -, -, steps, last, hsteps, hlast, -, -, hanswers⟩ :=
    submissions_linearizable (fun hfalse => hfalse) htrace
  exact ⟨trace, htrace, by decide +kernel, by decide +kernel, steps, last, hsteps, hlast, hanswers⟩

end Registry

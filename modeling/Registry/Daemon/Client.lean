import Registry.Daemon.Durability
import Registry.Daemon.Linearize
import Registry.Effect.Interpret

/-! # What a client is told

A client submits records and then asks for one of them, while the daemon serves
others, publishes, fails and is re-queued. What its submission was answered holds
when it asks: the record is there, with the hash that the answer stood for.
-/

namespace Registry

open Effect

/-! ## Asking for a record -/

/-- The body of an answer about a record. -/
structure RecordView where
  key : String
  status : RecordStatus
  hash : String
  partition : Nat
  size : UInt64
  createdAt : Timestamp
  publishedAt : Option Timestamp
  value : Option Json

inductive RecordAnswer
  | notFound (key : String)
  | found (view : RecordView)

/-- Parse the bytes of a blob as JSON. -/
def Libraries.fromSlice (lib : Libraries) (bytes : Bytes) : Option Json :=
  match String.fromUTF8? ⟨bytes.toArray⟩ with
  | none => none
  | some text => (lib.parseJson text).toOption

/-- The value of a record, as far as it can be read. -/
def recordValue (lib : Libraries) (hash : Hash) : ApiProg (Option Json) :=
  .call (.store (.get hash)) fun
    | .ok (some bytes) => .pure (lib.fromSlice bytes)
    | _ => .pure none

/-- `GET /v1/records/:key`. The value is left out if it cannot be read. -/
def getRecord (lib : Libraries) (key : String) : ApiProg RecordAnswer := do
  match (← callIndexApi (.getMany [key])).head?.join with
  | none => pure (.notFound key)
  | some record =>
      let value ← recordValue lib record.contentHash
      pure (.found {
        key := key
        status := record.status
        hash := record.contentHash.toPrefixed
        partition := record.partitionId
        size := record.size
        createdAt := record.createdAt
        publishedAt := record.publishedAt
        value := value })

theorem fromSlice_utf8 (lib : Libraries) (text : String) :
    lib.fromSlice (utf8 text) = (lib.parseJson text).toOption := by
  have hbytes : (⟨(utf8 text).toArray⟩ : ByteArray) = text.toByteArray := by simp [utf8]
  have hvalid : text.toByteArray.IsValidUTF8 := text.isValidUTF8
  rw [Libraries.fromSlice, hbytes, String.fromUTF8?, dif_pos hvalid]
  rfl

/-- A client submits a request and then asks for a key. -/
def exchange (prim : Primitives) (lib : Libraries) (config : Config) (request : Request)
    (key : String) : ApiProg (Except ApiError Response × Except ApiError RecordAnswer) := do
  let answer ← (handle prim lib config request).attempt
  let found ← (getRecord lib key).attempt
  pure (answer, found)

/-! ## What the index has decided -/

/-- What the outcome of a submission says about the record that holds its key. -/
def SubmitOutcome.Decides (record held : IndexRecord) : SubmitOutcome → Prop
  | .conflict existingHash => held.contentHash = existingHash
  | _ => held.contentHash = record.contentHash

namespace RecordIndex

theorem submitOne_decides (index : RecordIndex) (key : String) (record : IndexRecord) :
    ∃ held, (index.submitOne key record).2.records[key]? = some held ∧
      (index.submitOne key record).1.Decides record held := by
  unfold submitOne
  cases hknown : index.records[key]? with
  | none => exact ⟨record, by simp, rfl⟩
  | some existing =>
      dsimp only
      split
      next hsame => exact ⟨existing, hknown, hsame⟩
      next => exact ⟨existing, hknown, rfl⟩

/-- Every outcome of a transaction is about the record that holds the key after it. -/
theorem submitMany_decides (index : RecordIndex) (submissions : List (String × IndexRecord)) :
    ∀ row ∈ submissions.zip (index.submitMany submissions).1,
      ∃ held, (index.submitMany submissions).2.records[row.1.1]? = some held ∧
        row.2.Decides row.1.2 held := by
  induction submissions generalizing index with
  | nil => exact fun row hrow => absurd hrow List.not_mem_nil
  | cons submission rest ih =>
      rw [submitMany_cons, List.zip_cons_cons]
      intro row hrow
      rcases List.mem_cons.mp hrow with rfl | hrest
      · obtain ⟨held, hheld, hdecides⟩ := index.submitOne_decides submission.1 submission.2
        exact ⟨held, submitMany_keeps _ hheld, hdecides⟩
      · exact ih _ row hrest

end RecordIndex

section Rules

variable {prim : Primitives} {lib : Libraries} {config : Config} {faults : Faults}

/-- Each of these keys is held by a record with this hash. -/
def HoldsHash (world : World) (key : String) (hash : Hash) : Prop :=
  ∃ held : IndexRecord, world.index.records[key]? = some held ∧ held.contentHash = hash

theorem HoldsHash.later {before after : World} (hlater : before.Later after) {key : String}
    {hash : Hash} (hholds : HoldsHash before key hash) : HoldsHash after key hash := by
  obtain ⟨held, hheld, rfl⟩ := hholds
  obtain ⟨later, hrecord, hbinding⟩ := hlater.index.binding key held hheld
  exact ⟨later, hrecord, congrArg Prod.fst hbinding⟩

/-- What a client may take an outcome for. -/
def Settles (world : World) (submission : String × IndexRecord) : SubmitOutcome → Prop
  | .conflict existingHash => HoldsHash world submission.1 existingHash
  | _ => HoldsHash world submission.1 submission.2.contentHash

theorem settles_of_decides {world : World} {submission : String × IndexRecord} {held : IndexRecord}
    {outcome : SubmitOutcome} (hheld : world.index.records[submission.1]? = some held)
    (hdecides : outcome.Decides submission.2 held) : Settles world submission outcome := by
  cases outcome with
  | queued => exact ⟨held, hheld, hdecides⟩
  | duplicateIdentical => exact ⟨held, hheld, hdecides⟩
  | conflict existingHash => exact ⟨held, hheld, hdecides⟩

theorem Settles.later {before after : World} (hlater : before.Later after)
    {submission : String × IndexRecord} {outcome : SubmitOutcome}
    (hsettles : Settles before submission outcome) : Settles after submission outcome := by
  cases outcome with
  | queued => exact HoldsHash.later hlater hsettles
  | duplicateIdentical => exact HoldsHash.later hlater hsettles
  | conflict existingHash => exact HoldsHash.later hlater hsettles

/-- The hashes of the records that a request has seen. -/
def StillHeld (seen : List (String × IndexRecord)) (world : World) : Prop :=
  ∀ row ∈ seen, HoldsHash world row.1 row.2.contentHash

theorem StillHeld.later {before after : World} (hlater : before.Later after)
    {seen : List (String × IndexRecord)} (hheld : StillHeld seen before) : StillHeld seen after :=
  fun row hrow => (hheld row hrow).later hlater

variable (prim lib config faults) in
/-- A request knows that what it has seen or claimed is still there. -/
def clientRules : RequestRules (durability prim config faults).requestSetting prim lib config where
  knows seen stored world := StillHeld seen world ∧ ∀ value ∈ stored, utf8 value ∈ world.blobs
  wrote seen submissions outcomes world := StillHeld seen world ∧
    ∀ row ∈ submissions.zip outcomes, Settles world row.1 row.2
  putFailed _ error _ := ∃ message, error = .internal message
  indexFailed error := ∃ message, error = .internal message
  quiet := (durableRequests prim lib config faults).quiet
  keep seen stored := (durability_kept fun world later hlater hworld =>
    ⟨hworld.1.later hlater, fun value hvalue => hlater.blobs (hworld.2 value hvalue)⟩).mono
      fun _ hop => hop.keepsTables.harmless
  put {seen stored value before hash after} hinv hknows hsem := by
    have hkept : Kept (durability prim config faults).requestSetting Harmless fun _ => True :=
      durability_kept fun _ _ _ => id
    obtain ⟨-, hlater, -⟩ := hkept.call (.store (.put (utf8 value))) before (.ok hash) after
      trivial hinv trivial hsem
    have hstored : (durableRequests prim lib config faults).knows seen (value :: stored) after :=
      (durableRequests prim lib config faults).put hinv hknows.2 hsem
    exact ⟨hknows.1.later hlater, hstored⟩
  putError {value before error after} _ failure hfailure := by
    obtain ⟨message⟩ := error
    exact ⟨_, (Except.error.inj hfailure).symm⟩
  failedRely _ := id
  failedCall _ := id
  read := by
    intro keys before existing after hinv hknows hsem
    obtain ⟨hlength, hstored⟩ := (durableRequests prim lib config faults).read hinv hknows.2 hsem
    obtain ⟨rfl, rfl⟩ := hsem.1.index_ok
    exact ⟨hlength, fun row hrow => ⟨row.2, mem_seenRecords hrow, rfl⟩, hstored⟩
  write := by
    intro seen stored submissions before response after hinv hknows hsubmissions hsem
    have hstored : (durableRequests prim lib config faults).knows seen stored before := hknows.2
    obtain ⟨hafter, hlater, hlength⟩ :=
      (durableRequests prim lib config faults).write hinv hstored hsubmissions hsem
    refine ⟨hafter, hlater, fun outcomes houtcomes =>
      ⟨(hlength outcomes houtcomes).1, hknows.1.later hlater, ?_⟩⟩
    subst houtcomes
    obtain ⟨rfl, rfl⟩ := hsem.1.index_ok
    intro row hrow
    obtain ⟨held, hheld, hdecides⟩ := before.index.submitMany_decides submissions row hrow
    exact settles_of_decides hheld hdecides
  indexError _ := ⟨_, rfl⟩
  keepWrote seen submissions outcomes := (durability_kept fun world later hlater hworld =>
    ⟨hworld.1.later hlater, fun row hrow => (hworld.2 row hrow).later hlater⟩).mono
      fun _ hop => hop ▸ trivial

/-! ## What an answer promises -/

variable (prim lib config) in
/-- What the result for a record says about the index. -/
def Promises (record : SubmitRecordRequest) (world : World) : RecordResult → Prop
  | .queued _ partition _ =>
      partition = prim.partitionIdForKey record.key config.topLevelPartitions ∧
        ∃ text, checkRequest lib config record = .ok text ∧
          HoldsHash world record.key (prim.contentHash text)
  | .conflict _ existingHash => ∃ hash, HoldsHash world record.key hash ∧
      hash.toPrefixed = existingHash
  | .error _ _ _ => True

variable (prim lib config) in
/-- All results of an answer hold. -/
def Promised (request : Request) (answer : Except ApiError Response) (world : World) : Prop :=
  ∀ slot record result, request.records[slot]? = some record →
    resultAt request answer slot = some result → Promises prim lib config record world result

theorem Promises.later {before after : World} (hlater : before.Later after)
    {record : SubmitRecordRequest} {result : RecordResult}
    (hpromises : Promises prim lib config record before result) :
    Promises prim lib config record after result := by
  cases result with
  | queued key partition duplicate =>
      obtain ⟨hpartition, text, hcheck, hholds⟩ := hpromises
      exact ⟨hpartition, text, hcheck, hholds.later hlater⟩
  | conflict key existingHash =>
      obtain ⟨hash, hholds, hprefixed⟩ := hpromises
      exact ⟨hash, hholds.later hlater, hprefixed⟩
  | error key code message => trivial

theorem Promised.later {before after : World} (hlater : before.Later after) {request : Request}
    {answer : Except ApiError Response}
    (hpromised : Promised prim lib config request answer before) :
    Promised prim lib config request answer after :=
  fun slot record result hrecord hresult =>
    (hpromised slot record result hrecord hresult).later hlater

/-- The outcome of a valid record's submission, as it is answered. -/
theorem promises_of_settles {world : World} {record : SubmitRecordRequest} {text : String}
    {claimed : IndexRecord} (hvalid : ValidRecord prim lib config record text claimed)
    {outcome : SubmitOutcome} (hsettles : Settles world (record.key, claimed) outcome) :
    Promises prim lib config record world (outcomeResult record.key claimed outcome) := by
  obtain ⟨hcheck, createdAt, -, rfl⟩ := hvalid
  cases outcome with
  | queued => exact ⟨rfl, text, hcheck, hsettles⟩
  | duplicateIdentical => exact ⟨rfl, text, hcheck, hsettles⟩
  | conflict existingHash => exact ⟨existingHash, hsettles, rfl⟩

theorem settles_knownOutcome {world : World} {key : String} {prior record : IndexRecord}
    (hholds : HoldsHash world key prior.contentHash) :
    Settles world (key, record) (RecordIndex.knownOutcome prior record) := by
  unfold RecordIndex.knownOutcome
  split
  next hsame =>
    show HoldsHash world key record.contentHash
    rw [← hsame]
    exact hholds
  next => exact hholds

theorem promised_of_error {request : Request} {error : ApiError} (world : World)
    (hconflict : ∀ existingHash, error ≠ .conflict existingHash) :
    Promised prim lib config request (.error error) world := by
  intro slot record result _ hresult
  obtain ⟨other, -, rfl⟩ := Option.map_eq_some_iff.mp hresult
  rw [errorResult_eq_failedResult hconflict]
  trivial

theorem promised_single {record : SubmitRecordRequest} {result : RecordResult}
    {answer : Except ApiError Response} {world : World}
    (hanswer : resultAt (.single record) answer 0 = some result)
    (hpromises : Promises prim lib config record world result) :
    Promised prim lib config (.single record) answer world := by
  intro slot other given hother hgiven
  obtain rfl : slot = 0 := Nat.lt_one_iff.mp (List.getElem?_eq_some_iff.mp hother).1
  obtain rfl : record = other := Option.some.inj hother
  obtain rfl : result = given := Option.some.inj (hanswer.symm.trans hgiven)
  exact hpromises

theorem promised_batch {records : List SubmitRecordRequest} {plan : BatchPlan}
    {putFailed : String → ApiError → Prop} {world : World} {status : Nat}
    (hfits : plan.Fits prim lib config putFailed records)
    (hseen : StillHeld plan.seen world)
    (hwritten : ∀ row ∈ plan.submissions.zip plan.outcomes, Settles world row.1 row.2) :
    Promised prim lib config (.batch records) (.ok (.batch status plan.answers)) world := by
  intro slot record result hrecord hresult
  have hsome : ∀ other, plan.answers[slot]? = some (some other) → result = other := by
    intro other hother
    rw [resultAt, hother] at hresult
    exact (Option.some.inj hresult).symm
  rcases hfits.answer hrecord with ⟨error, -, hanswer⟩ | ⟨candidate, -, rfl, hkey, hvalid, hcase⟩
  · rw [hsome _ hanswer]
    trivial
  -- A valid record is settled by the precheck, by its failed put, or by the transaction.
  rcases hcase with ⟨prior, hprior, hanswer⟩ | ⟨error, -, hanswer⟩ | ⟨outcome, hrow⟩
  · rw [hsome _ hanswer, hkey]
    rw [hkey] at hprior
    exact promises_of_settles hvalid (settles_knownOutcome (hseen _ hprior))
  · rw [hsome _ hanswer]
    trivial
  · rw [hsome _ (hfits.answer_written hrow), hkey]
    refine promises_of_settles hvalid ?_
    have hsubmitted : ((candidate.key, candidate.record), outcome) ∈
        plan.submissions.zip plan.outcomes := by
      rw [BatchPlan.submissions, List.zip_map_left]
      exact List.mem_map_of_mem
        (f := Prod.map (fun task : Candidate => (task.key, task.record)) id) hrow
    rw [← hkey]
    exact hwritten _ hsubmitted

/-- What a write request is answered holds of the index. -/
theorem handle_promises (request : Request) (world : World) :
    Valid (durability prim config faults).requestSetting
      (fun response after => Promised prim lib config request (.ok response) after)
      (fun error after => Promised prim lib config request (.error error) after)
      (handle prim lib config request) world := by
  have hstart : (clientRules prim lib config faults).knows [] [] world :=
    ⟨fun _ hrow => absurd hrow List.not_mem_nil, fun _ hvalue => absurd hvalue List.not_mem_nil⟩
  have hinternal : ∀ message existingHash, ApiError.internal message ≠ .conflict existingHash := by
    intro message existingHash hconflict
    cases hconflict
  cases request with
  | single record =>
      -- A conflict is answered as an error, and speaks of the record that holds the key.
      apply Valid.bind
      refine Valid.mono ?_ ?_
        ((clientRules prim lib config faults).submitRecord_valid record hstart)
      · rintro ⟨status, result⟩ after
          ⟨outcome, partition, ⟨text, claimed, hvalid, rfl, -, hwrote⟩, hanswer⟩
        have hpromises := promises_of_settles hvalid
          (hwrote ((record.key, claimed), outcome) List.mem_cons_self)
        refine promised_single rfl ?_
        rcases hanswer with ⟨rfl, hanswer⟩ | ⟨rfl, hanswer⟩
        · obtain ⟨-, rfl⟩ := Prod.mk.inj hanswer
          exact hpromises
        · obtain ⟨-, rfl⟩ := Prod.mk.inj hanswer
          exact hpromises
      · rintro error after
          (hfails | ⟨existingHash, partition, ⟨text, claimed, hvalid, rfl, -, hwrote⟩, rfl⟩)
        · refine promised_of_error after ?_
          rcases hfails with ⟨message, rfl⟩ | ⟨hrejected | ⟨value, -, message, rfl⟩, -⟩
          · exact hinternal message
          · exact checkRequest_ne_conflict hrejected
          · exact hinternal message
        · exact promised_single rfl (promises_of_settles hvalid
            (hwrote ((record.key, claimed), .conflict existingHash) List.mem_cons_self))
  | batch records =>
      apply Valid.bind
      by_cases hcount : records.length ≤ config.batchMaxRecords
      · refine Valid.mono ?_ ?_
          ((clientRules prim lib config faults).submitBatch_valid hcount hstart)
        · rintro ⟨status, results⟩ after ⟨-, plan, hfits, rfl, hseen, hwritten⟩
          exact promised_batch hfits hseen hwritten
        · rintro error after ⟨message, rfl⟩
          exact promised_of_error after (hinternal message)
      · rw [submitBatch, if_pos (not_le.mp hcount)]
        have hlarge : ∀ existingHash,
            ApiError.batchTooLarge config.batchMaxRecords ≠ .conflict existingHash := by
          intro existingHash hconflict
          cases hconflict
        exact promised_of_error world hlarge

/-! ## What a client finds -/

variable (prim lib faults) in
/-- An answer about a key is true of a moment. Only faults hide a record or its value. -/
def Reflects (key : String) (moment : World) (blobs : Blobs) : Except ApiError RecordAnswer → Prop
  | .error error => faults.index ∧ ∃ message, error = .internal message
  | .ok (.notFound _) => moment.index.records[key]? = none
  | .ok (.found view) => ∃ record : IndexRecord, moment.index.records[key]? = some record ∧
      view.key = key ∧ view.status = record.status ∧
        view.hash = record.contentHash.toPrefixed ∧ view.partition = record.partitionId ∧
        view.size = record.size ∧ view.createdAt = record.createdAt ∧
        view.publishedAt = record.publishedAt ∧
        (faults.store ∧ view.value = none ∨
          ∃ bytes ∈ blobs, prim.blake3 bytes = record.contentHash ∧
            view.value = lib.fromSlice bytes)

variable (prim lib config faults) in
/-- What a client was answered about a key, next to an assertion about the moment of the answer. -/
def Answered (key : String) (assertion : World → Prop) (found : Except ApiError RecordAnswer)
    (world : World) : Prop :=
  ∃ moment : World, moment.Later world ∧ Durable prim config moment ∧ assertion moment ∧
    Reflects prim lib faults key moment world.blobs found

theorem Answered.later {key : String} {assertion : World → Prop}
    {found : Except ApiError RecordAnswer} {before after : World} (hlater : before.Later after)
    (hfound : Answered prim lib config faults key assertion found before) :
    Answered prim lib config faults key assertion found after := by
  obtain ⟨moment, hmoment, hdurable, hassertion, hreflects⟩ := hfound
  refine ⟨moment, hmoment.trans hlater, hdurable, hassertion, ?_⟩
  match found with
  | .error error => exact hreflects
  | .ok (.notFound _) => exact hreflects
  | .ok (.found view) =>
      obtain ⟨record, hrecord, hkey, hstatus, hhash, hpartition, hsize, hcreated, hpublished,
        hvalue⟩ := hreflects
      refine ⟨record, hrecord, hkey, hstatus, hhash, hpartition, hsize, hcreated, hpublished, ?_⟩
      refine hvalue.imp_right ?_
      rintro ⟨bytes, hbytes, hread⟩
      exact ⟨bytes, hlater.blobs hbytes, hread⟩

/-- The value of a record whose value is stored. -/
theorem recordValue_valid {world : World} {record : IndexRecord}
    (hheld : HoldsValue prim world.blobs record) :
    Valid (durability prim config faults).requestSetting
      (fun value after => world.Later after ∧ (faults.store ∧ value = none ∨
        ∃ bytes ∈ after.blobs, prim.blake3 bytes = record.contentHash ∧
          value = lib.fromSlice bytes))
      (fun _ _ => False) (recordValue lib record.contentHash) world := by
  intro before hbefore hinv response after hsem
  obtain ⟨⟨blobs, ⟨rfl, hread⟩, rfl⟩, -⟩ := hsem
  refine ⟨hinv, World.Later.refl _, ?_⟩
  -- The value may have gained twins under its hash, but it has not gone.
  rcases hread with rfl | ⟨hfault, hfailed⟩
  · obtain ⟨held, hmem, hhash, -⟩ := hheld.mono hbefore.blobs
    have hsome : (prim.blobAt before.blobs record.contentHash).isSome := by
      simp only [Primitives.blobAt, List.find?_isSome, decide_eq_true_eq]
      exact ⟨held, hmem, hhash⟩
    obtain ⟨bytes, hbytes⟩ := Option.isSome_iff_exists.mp hsome
    obtain ⟨hstored, haddress⟩ := prim.mem_of_blobAt hbytes
    rw [hbytes]
    exact ⟨hbefore, Or.inr ⟨bytes, hstored, haddress, rfl⟩⟩
  · rcases hfailed with rfl | ⟨error, rfl⟩
    · exact ⟨hbefore, Or.inl ⟨hfault, rfl⟩⟩
    · exact ⟨hbefore, Or.inl ⟨hfault, rfl⟩⟩

/-- The answer about a key is true of a moment of the request. -/
theorem getRecord_valid {assertion : World → Prop}
    (hstable : ∀ world later : World, world.Later later → assertion world → assertion later)
    (key : String) {world : World} (hworld : assertion world) :
    Valid (durability prim config faults).requestSetting
      (fun answer after => Answered prim lib config faults key assertion (.ok answer) after)
      (fun error after => Answered prim lib config faults key assertion (.error error) after)
      (getRecord lib key) world := by
  apply Valid.bind
  intro before hbefore hinv response after hsem
  obtain ⟨hstep, -⟩ := hsem
  have hsame : after = before := by
    obtain ⟨rfl, -⟩ | ⟨rfl, -⟩ := hstep.index_cases <;> rfl
  subst hsame
  have hassertion := hstable world after hbefore hworld
  refine ⟨hinv, World.Later.refl _, ?_⟩
  rcases hstep with ⟨rfl, -⟩ | ⟨hfault, ⟨message, rfl⟩, -⟩
  · have hrecord : ((IndexOp.getMany [key]).commit after.index).1.head?.join =
        after.index.records[key]? := rfl
    simp only [Valid]
    rw [hrecord]
    cases hheld : after.index.records[key]? with
    | none => exact ⟨after, World.Later.refl _, hinv, hassertion, hheld⟩
    | some record =>
        apply Valid.bind
        refine Valid.mono ?_ (fun _ _ hfalse => hfalse.elim)
          (recordValue_valid (hinv.values key record hheld))
        rintro value last ⟨hlast, hvalue⟩
        exact ⟨after, hlast, hinv, hassertion, record, hheld, rfl, rfl, rfl, rfl, rfl, rfl, rfl,
          hvalue⟩
  · exact ⟨after, World.Later.refl _, hinv, hassertion, hfault, message, rfl⟩

/-- The two answers of an exchange. -/
theorem exchange_valid (request : Request) (key : String) (world : World) :
    Valid (durability prim config faults).requestSetting
      (fun answers after => Answered prim lib config faults key
        (Promised prim lib config request answers.1) answers.2 after)
      (fun _ _ => False) (exchange prim lib config request key) world := by
  apply Valid.bind
  refine Valid.attempt ?_
  have hfind : ∀ (answer : Except ApiError Response) (world : World),
      Promised prim lib config request answer world →
      Valid (durability prim config faults).requestSetting
        (fun answers after => Answered prim lib config faults key
          (Promised prim lib config request answers.1) answers.2 after)
        (fun _ _ => False)
        (do let found ← (getRecord lib key).attempt
            pure (answer, found) : ApiProg _) world := by
    intro answer world hanswer
    apply Valid.bind
    refine Valid.attempt ?_
    exact getRecord_valid (fun _ _ hlater => Promised.later hlater) key hanswer
  exact Valid.mono (fun response after hresponse => hfind (.ok response) after hresponse)
    (fun error after herror => hfind (.error error) after herror) (handle_promises request world)

/-! ## Every run -/

variable (prim faults) in
/-- An operation of a client's request, next to the daemon's tasks. -/
def ClientStep (op : DaemonOp) (state : DaemonState) (response : daemonSig.Res op)
    (after : DaemonState) : Prop :=
  prim.DaemonStep faults op state.world response after.world ∧
    after = { state with world := after.world }

variable (prim config faults) in
/-- A client between the steps of the daemon. -/
def clientSetting : Setting daemonSig DaemonState where
  sem := ClientStep prim faults
  rely state later := state.world.Later later.world
  inv := (durability prim config faults).Secure
  guar _ _ := True
  rely_refl state := World.Later.refl state.world
  rely_trans := World.Later.trans

theorem secure_systemStep {state next : DaemonState}
    (hstep : SystemStep prim lib config faults state next)
    (hstate : (durability prim config faults).Secure state) :
    (durability prim config faults).Secure next ∧ state.world.Later next.world :=
  Discipline.secure_step
    (fun request _ _ => (durableRequests prim lib config faults).handle_valid request
      fun _ hvalue => absurd hvalue List.not_mem_nil)
    (fun task _ world _ => task_durable task world) (fun _ _ _ _ => trivial) hstep
    hstep.starts trivial hstate

/-- What an exchange is answered holds, whatever the daemon does meanwhile. -/
theorem exchange_answered {state final : DaemonState}
    (hreachable : Reachable prim lib config faults state) {request : Request} {key : String}
    {answer : Except ApiError Response} {found : Except ApiError RecordAnswer}
    (hturns : Prog.Turns (ClientStep prim faults) (SystemStep prim lib config faults)
      (exchange prim lib config request key, state) (.pure (answer, found), final)) :
    Answered prim lib config faults key (Promised prim lib config request answer) found
      final.world := by
  have hstate : (durability prim config faults).Secure state :=
    hreachable.recOn (Discipline.secure_initial Durable.empty)
      fun _ hstep ih => (secure_systemStep hstep ih).1
  let post : Except ApiError Response × Except ApiError RecordAnswer → DaemonState → Prop :=
    fun answers after => Answered prim lib config faults key
      (Promised prim lib config request answers.1) answers.2 after.world
  have hvalid : Valid (clientSetting prim config faults) post (fun _ _ => False)
      (exchange prim lib config request key) state := by
    refine Valid.lift (S := (durability prim config faults).requestSetting)
      (T := clientSetting prim config faults) DaemonState.world
      (fun _ _ hlater => hlater) (fun _ hinv => hinv.inv)
      (fun op before response after hstep => ⟨hstep.1, trivial⟩) ?_
      (exchange_valid request key state.world)
    intro op before response after hstep hbefore hafter hguar
    rw [hstep.2]
    exact ⟨hbefore.interfere hafter hguar, trivial⟩
  have hlater : ∀ answers (world later : DaemonState), world.world.Later later.world →
      post answers world → post answers later := fun _ _ _ => Answered.later
  have hfinal : Valid (clientSetting prim config faults) post (fun _ _ => False)
      (.pure (answer, found)) final :=
    (Valid.turns (fun _ => True) (fun _ _ _ _ _ _ => trivial) (fun _ _ _ _ => trivial)
      (fun _ _ _ _ hstep _ => hstep) (fun _ _ hstep _ hinv => secure_systemStep hstep hinv)
      hlater (fun _ _ _ _ hfalse => hfalse) hturns trivial hstate hvalid).2
  exact hfinal

variable (prim lib config faults) in
/-- A client that was answered this result finds its record, unless a fault hides it. -/
def Confirms (record : SubmitRecordRequest) (found : Except ApiError RecordAnswer) :
    RecordResult → Prop
  | .queued _ partition _ => ∃ text, checkRequest lib config record = .ok text ∧
      ((faults.index ∧ ∃ message, found = .error (.internal message)) ∨
        ∃ view, found = .ok (.found view) ∧ view.key = record.key ∧
          view.hash = (prim.contentHash text).toPrefixed ∧ view.partition = partition ∧
          (view.value = (lib.parseJson text).toOption ∨ faults.store ∧ view.value = none))
  | .conflict _ existingHash => (faults.index ∧ ∃ message, found = .error (.internal message)) ∨
      ∃ view, found = .ok (.found view) ∧ view.key = record.key ∧ view.hash = existingHash
  | .error _ _ _ => True

variable (lib config) in
/-- The values that a request submits. -/
def Request.values (request : Request) : Set Bytes :=
  {bytes | ∃ record ∈ request.records, ∃ text, checkRequest lib config record = .ok text ∧
    bytes = utf8 text}

/-- A client whose record was answered as queued finds it, with the hash and the partition of
its value; one whose record was refused finds the record that holds its key. Other requests,
the publisher, crashes and re-queued keys may come between. -/
theorem read_your_writes {state final : DaemonState}
    (hreachable : Reachable prim lib config faults state) {request : Request} {key : String}
    {answer : Except ApiError Response} {found : Except ApiError RecordAnswer}
    (hturns : Prog.Turns (ClientStep prim faults) (SystemStep prim lib config faults)
      (exchange prim lib config request key, state) (.pure (answer, found), final))
    (hfree : prim.CollisionFree ({held | held ∈ final.world.blobs} ∪ request.values lib config))
    {slot : Nat} {record : SubmitRecordRequest} (hrecord : request.records[slot]? = some record)
    (hkey : record.key = key) {result : RecordResult}
    (hresult : resultAt request answer slot = some result) :
    Confirms prim lib config faults record found result := by
  obtain ⟨moment, -, hdurable, hpromised, hreflects⟩ := exchange_answered hreachable hturns
  have hpromises := hpromised slot record result hrecord hresult
  -- The record that the answer is about is the one that the read has found.
  have hview : ∀ hash, HoldsHash moment record.key hash →
      (faults.index ∧ ∃ message, found = .error (.internal message)) ∨
        ∃ view held, found = .ok (.found view) ∧ moment.index.records[key]? = some held ∧
          held.contentHash = hash ∧ view.key = record.key ∧ view.hash = hash.toPrefixed ∧
          view.partition = held.partitionId ∧ (faults.store ∧ view.value = none ∨
            ∃ bytes ∈ final.world.blobs, prim.blake3 bytes = hash ∧
              view.value = lib.fromSlice bytes) := by
    rintro hash ⟨held, hheld, rfl⟩
    rw [hkey] at hheld
    match found with
    | .error error =>
        obtain ⟨hfault, message, rfl⟩ := hreflects
        exact Or.inl ⟨hfault, message, rfl⟩
    | .ok (.notFound _) =>
        have hnone : moment.index.records[key]? = none := hreflects
        rw [hnone] at hheld
        cases hheld
    | .ok (.found view) =>
        obtain ⟨other, hother, hviewKey, -, hhash, hpartition, -, -, -, hvalue⟩ := hreflects
        obtain rfl := Option.some.inj (hheld.symm.trans hother)
        exact Or.inr ⟨view, held, rfl, hother, rfl, hviewKey.trans hkey.symm, hhash, hpartition,
          hvalue⟩
  cases result with
  | queued resultKey partition duplicate =>
      obtain ⟨hpartition, text, hcheck, hholds⟩ := hpromises
      refine ⟨text, hcheck, ?_⟩
      refine (hview _ hholds).imp_right ?_
      rintro ⟨view, held, hfound, hheld, -, hviewKey, hhash, hviewPartition, hvalue⟩
      refine ⟨view, hfound, hviewKey, hhash, ?_, ?_⟩
      · rw [hviewPartition, hpartition, hkey]
        exact hdurable.index.partitions key held hheld
      · rcases hvalue with hfault | ⟨bytes, hbytes, haddress, hvalue⟩
        · exact Or.inr hfault
        · have htext : bytes = utf8 text := hfree.1 (Or.inl hbytes)
            (Or.inr ⟨record, List.mem_of_getElem? hrecord, text, hcheck, rfl⟩) haddress
          rw [hvalue, htext, fromSlice_utf8]
          exact Or.inl rfl
  | conflict resultKey existingHash =>
      obtain ⟨hash, hholds, rfl⟩ := hpromises
      refine (hview _ hholds).imp_right ?_
      rintro ⟨view, held, hfound, -, -, hviewKey, hhash, -⟩
      exact ⟨view, hfound, hviewKey, hhash⟩
  | error resultKey code message => trivial

end Rules

/-- An exchange that is left alone. -/
theorem clientTurns_of_runs {prim : Primitives} {faults : Faults} {ε α : Type}
    {others : DaemonState → DaemonState → Prop} {prog : Prog daemonSig ε α} {world after : World}
    {outcome : Prog.Outcome ε α}
    (hruns : Prog.Runs (prim.DaemonStep faults) prog world outcome after) (state : DaemonState) :
    Prog.Turns (ClientStep prim faults) others (prog, { state with world := world })
      (outcome.prog, { state with world := after }) := by
  induction hruns with
  | pure value world => exact .refl
  | throw error world => exact .refl
  | diverge world => exact .refl
  | call answered _ ih => exact .head (.call ⟨answered, rfl⟩) ih

namespace Sample

/-- A client submits both records in a batch and asks for the first. -/
def both : Request := .batch [⟨firstKey, firstJson⟩, ⟨secondKey, secondJson⟩]

def asked :
    Prog.Outcome ApiError (Except ApiError Response × Except ApiError RecordAnswer) × World :=
  (exchange prim lib .default both firstKey).run (prim.daemonHandler createdAt) .empty

/-- What the client was answered about the first record. -/
def askedResult : Option RecordResult :=
  match asked.1 with
  | .ok answers => resultAt both answers.1 0
  | _ => none

theorem both_values : both.values lib .default ⊆ {utf8 firstValue, utf8 secondValue} := by
  have hchecked : checkRequest lib .default ⟨firstKey, firstJson⟩ = .ok firstValue ∧
      checkRequest lib .default ⟨secondKey, secondJson⟩ = .ok secondValue := by decide +kernel
  rintro bytes ⟨record, hrecord, text, hcheck, rfl⟩
  rcases List.mem_cons.mp hrecord with rfl | hsecond
  · obtain rfl := Except.ok.inj (hchecked.1.symm.trans hcheck)
    exact Or.inl rfl
  · rw [List.mem_singleton.mp hsecond] at hcheck
    obtain rfl := Except.ok.inj (hchecked.2.symm.trans hcheck)
    exact Or.inr rfl

end Sample

/-- The client finds the first record under the hash of its value. -/
theorem read_your_writes_sample : ∃ answer view,
    Sample.asked.1 = .ok (answer, .ok (.found view)) ∧
      resultAt Sample.both answer 0 = some (.queued Sample.firstKey 249 false) ∧
      view.key = Sample.firstKey ∧
      view.hash = (Sample.prim.contentHash Sample.firstValue).toPrefixed ∧ view.partition = 249 ∧
      view.value = some Sample.firstJson := by
  have hfacts : Sample.askedResult = some (.queued Sample.firstKey 249 false) ∧
      (∀ left ∈ Sample.asked.2.blobs, ∀ right ∈ Sample.asked.2.blobs,
        Sample.prim.blake3 left = Sample.prim.blake3 right → left = right) ∧
      (∀ blob ∈ Sample.asked.2.blobs, Sample.prim.blake3 blob ≠ Hash.zero) ∧
      utf8 Sample.firstValue ∈ Sample.asked.2.blobs ∧
      utf8 Sample.secondValue ∈ Sample.asked.2.blobs ∧
      checkRequest Sample.lib .default ⟨Sample.firstKey, Sample.firstJson⟩ =
        .ok Sample.firstValue := by decide +kernel
  obtain ⟨hresult, hinjective, hnonzero, hfirst, hsecond, hchecked⟩ := hfacts
  have hfree : Sample.prim.CollisionFree
      ({held | held ∈ Sample.asked.2.blobs} ∪ Sample.both.values Sample.lib .default) := by
    refine (Primitives.collisionFree_of_blobs ⟨hinjective, hnonzero⟩).mono ?_
    rintro blob (hheld | hvalue)
    · exact hheld
    · rcases Sample.both_values hvalue with rfl | rfl
      · exact hfirst
      · exact hsecond
  have hruns : Prog.Runs (Sample.prim.DaemonStep .none)
      (exchange Sample.prim Sample.lib .default Sample.both Sample.firstKey) .empty
      Sample.asked.1 Sample.asked.2 :=
    Sample.prim.daemonHandler_runs .none Sample.createdAt _ .empty
  have hturns : Prog.Turns (ClientStep Sample.prim .none)
      (SystemStep Sample.prim Sample.lib .default .none)
      (exchange Sample.prim Sample.lib .default Sample.both Sample.firstKey, .initial)
      (Sample.asked.1.prog, { DaemonState.initial with world := Sample.asked.2 }) :=
    clientTurns_of_runs hruns .initial
  unfold Sample.askedResult at hresult
  cases hasked : Sample.asked.1 with
  | error error => rw [hasked] at hresult; cases hresult
  | diverged => rw [hasked] at hresult; cases hresult
  | ok answers =>
      rw [hasked] at hresult hturns
      obtain ⟨answer, found⟩ := answers
      obtain ⟨text, htext, hfound⟩ := read_your_writes .refl hturns hfree rfl rfl hresult
      obtain rfl := Except.ok.inj (hchecked.symm.trans htext)
      rcases hfound with ⟨hfault, -⟩ | ⟨view, rfl, hkey, hhash, hpartition, hvalue⟩
      · exact hfault.elim
      · refine ⟨answer, view, rfl, hresult, hkey, hhash, hpartition, ?_⟩
        rcases hvalue with hvalue | ⟨hfault, -⟩
        · rw [hvalue, Sample.lib]
          rfl
        · exact hfault.elim

end Registry

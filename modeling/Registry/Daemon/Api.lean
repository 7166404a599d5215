import Registry.Core.Iscc
import Registry.Daemon.Publisher

/-! # The write API

Submitting single records and batches. A record's value is stored before its
key is claimed in the index. A batch answers records the index already knows
from one read transaction, stores the other values as concurrent tasks, and
claims all keys whose value was stored in one write transaction.
-/

namespace Registry

open Effect

inductive ApiError
  | invalidKey (detail : String)
  | invalidValue (detail : String)
  | valueTooLarge (limit : Nat)
  | unauthorized
  | conflict (existingHash : String)
  | batchTooLarge (limit : Nat)
  | internal (detail : String)
  deriving DecidableEq, Repr

namespace ApiError

def code : ApiError → String
  | .invalidKey _ => "invalid_key"
  | .invalidValue _ => "invalid_value"
  | .valueTooLarge _ => "value_too_large"
  | .unauthorized => "unauthorized"
  | .conflict _ => "conflict"
  | .batchTooLarge _ => "batch_too_large"
  | .internal _ => "internal_error"

def message : ApiError → String
  | .invalidKey detail => s!"invalid record key: {detail}"
  | .invalidValue detail => s!"invalid value: {detail}"
  | .valueTooLarge limit => s!"value too large (limit {limit} bytes)"
  | .unauthorized => "missing or unknown bearer token"
  | .conflict _ => "key already exists with different content"
  | .batchTooLarge limit => s!"too many records in batch (limit {limit})"
  | .internal detail => s!"internal error: {detail}"

def status : ApiError → Nat
  | .invalidKey _ => 400
  | .invalidValue _ => 400
  | .valueTooLarge _ => 413
  | .unauthorized => 401
  | .conflict _ => 409
  | .batchTooLarge _ => 400
  | .internal _ => 500

end ApiError

abbrev ApiProg := Prog daemonSig ApiError

/-- One record of a request. -/
structure SubmitRecordRequest where
  key : String
  value : Json

/-- The answer for one record, in the words of its JSON body. A single submission
prints `duplicate` only when it is true. -/
inductive RecordResult
  | queued (key : String) (partition : Nat) (duplicate : Bool)
  | conflict (key : String) (existingHash : String)
  | error (key : String) (code : String) (message : String)
  deriving DecidableEq, Repr

def RecordResult.key : RecordResult → String
  | .queued key _ _ => key
  | .conflict key _ => key
  | .error key _ _ => key

def failedResult (key : String) (error : ApiError) : RecordResult :=
  .error key error.code error.message

/-- The answer of the index to a batch's record. -/
def outcomeResult (key : String) (record : IndexRecord) : SubmitOutcome → RecordResult
  | .queued => .queued key record.partitionId false
  | .duplicateIdentical => .queued key record.partitionId true
  | .conflict existingHash => .conflict key existingHash.toPrefixed

def callIndexApi (op : IndexOp) : ApiProg op.Answer :=
  .call (.index op) fun
    | .error message => .throw (.internal message)
    | .ok answer => .pure answer

/-- What a request makes of the store's answer to a value blob. -/
def putOutcome : Except BlobStoreError Hash → Except ApiError Hash
  | .error (.io message) => .error (.internal
      s!"failed to store value blob: blob I/O error: {message}")
  | .ok hash => .ok hash

/-- Store a value blob. -/
def putValue (value : String) : ApiProg (Except ApiError Hash) :=
  .call (.store (.put (utf8 value))) fun response => .pure (putOutcome response)

/-- Normalize a submitted value to its stored text: a JSON object is printed, a
string that spells one is kept verbatim. -/
def Libraries.canonicalValue (lib : Libraries) : Json → Except ApiError String
  | .object fields => .ok (lib.printJson (.object fields))
  | .string raw =>
      match lib.parseJson raw with
      | .error message => .error (.invalidValue s!"string value is not JSON: {message}")
      | .ok parsed =>
          if parsed.isObject then .ok raw
          else .error (.invalidValue "value must be a JSON object")
  | _ => .error (.invalidValue "value must be a JSON object")

/-- A valid record of a batch, with its position in the request. -/
structure Candidate where
  slot : Nat
  key : String
  value : String
  record : IndexRecord

/-- The JSON results of a batch, by position; `none` is not yet answered. -/
abbrev Results := List (Option RecordResult)

/-- Run the spawned blob writes to their ends, in the order the scheduler picks,
and pair each with its outcome. -/
def putTasks : Nat → List Candidate → List (Candidate × Except ApiError Hash) →
    ApiProg (List (Candidate × Except ApiError Hash))
  | 0, _, done => pure done
  | _ + 1, [], done => pure done
  | fuel + 1, first :: others, done => do
      let choice ← (DaemonOp.pick others.length).perform
      let task := (first :: others).get choice
      let outcome ← putValue task.value
      putTasks fuel ((first :: others).eraseIdx choice) ((task, outcome) :: done)

/-- The outcome of the task in a slot. -/
def taskOutcome (done : List (Candidate × Except ApiError Hash)) (slot : Nat) :
    Except ApiError Hash :=
  match done.find? fun row => row.1.slot = slot with
  | some row => row.2
  | none => .error (.internal "task was cancelled")

/-- Answer the candidates the index already knows; the others are left to store. -/
def precheck : List (Candidate × Option IndexRecord) → Results → Results × List Candidate
  | [], results => (results, [])
  | (candidate, some prior) :: rest, results =>
      if prior.contentHash = candidate.record.contentHash then
        precheck rest (results.set candidate.slot
          (some (.queued candidate.key candidate.record.partitionId true)))
      else
        precheck rest (results.set candidate.slot
          (some (.conflict candidate.key prior.contentHash.toPrefixed)))
  | (candidate, none) :: rest, results =>
      let (answered, tasks) := precheck rest results
      (answered, candidate :: tasks)

/-- Answer the candidates whose value could not be stored; the others go to the
index. -/
def collectStored (done : List (Candidate × Except ApiError Hash)) :
    List Candidate → Results → Results × List Candidate
  | [], results => (results, [])
  | task :: rest, results =>
      match taskOutcome done task.slot with
      | .ok _ =>
          let (answered, prepared) := collectStored done rest results
          (answered, task :: prepared)
      | .error error =>
          collectStored done rest (results.set task.slot (some (failedResult task.key error)))

/-- Answer the candidates the index has decided. -/
def fillOutcomes (prepared : List (Candidate × SubmitOutcome)) (results : Results) : Results :=
  prepared.foldl (fun results row =>
    results.set row.1.slot (some (outcomeResult row.1.key row.1.record row.2))) results

section Requests

variable (prim : Primitives) (lib : Libraries) (config : Config)

/-- The record a valid request would claim its key with. -/
def newRecord (key value : String) (createdAt : Timestamp) : IndexRecord where
  contentHash := prim.contentHash value
  size := UInt64.ofNat (utf8 value).length
  partitionId := prim.partitionIdForKey key config.topLevelPartitions
  status := .pending
  createdAt := createdAt
  contentCode := lib.extractFromJson value
  publishedAt := none

/-- Check a request, and answer the text to store for it. -/
def checkRequest (request : SubmitRecordRequest) : Except ApiError String :=
  if !lib.isValidRecordKey request.key then
    .error (.invalidKey s!"'{request.key}' is not a valid CIDv1 or declaration id")
  else
    match lib.canonicalValue request.value with
    | .error error => .error error
    | .ok value =>
        if config.maxValueBytes < (utf8 value).length then
          .error (.valueTooLarge config.maxValueBytes)
        else .ok value

/-- Validation and canonicalization only. The clock is read only for a value
that carries no timestamp. -/
def validateOne (request : SubmitRecordRequest) : ApiProg (String × IndexRecord) := do
  let value ← .ofExcept (checkRequest lib config request)
  match lib.declarationTimestamp value with
  | some timestamp => pure (value, newRecord prim lib config request.key value timestamp)
  | none => do
      let now ← DaemonOp.now.perform
      pure (value, newRecord prim lib config request.key value now)

/-- Validate and store one record; its key is still to be claimed. -/
def prepareOne (request : SubmitRecordRequest) : ApiProg (String × IndexRecord) := do
  let (value, record) ← validateOne prim lib config request
  let stored ← putValue value
  let _ ← .ofExcept stored
  pure (request.key, record)

def ingestOne (request : SubmitRecordRequest) : ApiProg (SubmitOutcome × Nat) :=
  withWriteGuard do
    let (key, record) ← prepareOne prim lib config request
    match ← callIndexApi (.submitMany [(key, record)]) with
    | [] => .throw (.internal "one submission yields one outcome")
    | outcome :: _ => pure (outcome, record.partitionId)

/-- `POST /v1/records`, with the status of its response. A conflict is an error. -/
def submitRecord (request : SubmitRecordRequest) : ApiProg (Nat × RecordResult) := do
  let (outcome, partition) ← ingestOne prim lib config request
  match outcome with
  | .queued => pure (202, .queued request.key partition false)
  | .duplicateIdentical => pure (200, .queued request.key partition true)
  | .conflict existingHash => .throw (.conflict existingHash.toPrefixed)

/-- Validate the records of a batch in order, from position `slot` on. -/
def validateAll : Nat → List SubmitRecordRequest → ApiProg (Results × List Candidate)
  | _, [] => pure ([], [])
  | slot, request :: rest => do
      match ← (validateOne prim lib config request).attempt with
      | .ok (value, record) => do
          let (results, candidates) ← validateAll (slot + 1) rest
          pure (none :: results, ⟨slot, request.key, value, record⟩ :: candidates)
      | .error error => do
          let (results, candidates) ← validateAll (slot + 1) rest
          pure (some (failedResult request.key error) :: results, candidates)

/-- `POST /v1/records/batch`, with the status of its response. -/
def submitBatch (requests : List SubmitRecordRequest) : ApiProg (Nat × Results) :=
  if config.batchMaxRecords < requests.length then
    .throw (.batchTooLarge config.batchMaxRecords)
  else
    withWriteGuard do
      let (results, candidates) ← validateAll prim lib config 0 requests
      let existing ← callIndexApi (.getMany (candidates.map Candidate.key))
      let (results, tasks) := precheck (candidates.zip existing) results
      let done ← putTasks tasks.length tasks []
      let (results, prepared) := collectStored done tasks results
      let outcomes ← callIndexApi (.submitMany (prepared.map fun task => (task.key, task.record)))
      pure (207, fillOutcomes (prepared.zip outcomes) results)

/-- A request to a write endpoint. -/
inductive Request
  | single (record : SubmitRecordRequest)
  | batch (records : List SubmitRecordRequest)

inductive Response
  | single (status : Nat) (result : RecordResult)
  | batch (status : Nat) (results : Results)
  deriving DecidableEq, Repr

def handle : Request → ApiProg Response
  | .single record => do
      let (status, result) ← submitRecord prim lib config record
      pure (.single status result)
  | .batch records => do
      let (status, results) ← submitBatch prim lib config records
      pure (.batch status results)

end Requests

end Registry

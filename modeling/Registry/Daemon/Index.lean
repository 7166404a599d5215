import Registry.Core.Record

/-! # The record index and the pending queue

The tables of the embedded index and its transactions, each a function on the
whole index. A key, once claimed, stays bound to its content; queue rows are
numbered by a counter that only grows and are removed one by one.
-/

namespace Registry

/-- A row of the record table. -/
structure IndexRecord where
  contentHash : Hash
  size : UInt64
  partitionId : Nat
  status : RecordStatus
  createdAt : Timestamp
  contentCode : Option UInt64
  publishedAt : Option Timestamp
  deriving DecidableEq, Repr

namespace IndexRecord

def leafEntry (record : IndexRecord) (key : String) : LeafEntry where
  key := key
  hash := record.contentHash
  size := record.size
  addedAt := record.createdAt
  contentCode := record.contentCode

/-- The part of a record that is written once, when its key is claimed. -/
def binding (record : IndexRecord) : Hash × UInt64 × Nat × Timestamp × Option UInt64 :=
  (record.contentHash, record.size, record.partitionId, record.createdAt, record.contentCode)

theorem leafEntry_eq_of_binding_eq {first second : IndexRecord}
    (hbinding : first.binding = second.binding) (key : String) :
    first.leafEntry key = second.leafEntry key := by
  simp only [binding, Prod.mk.injEq] at hbinding
  simp only [leafEntry, LeafEntry.mk.injEq]
  tauto

theorem partitionId_eq_of_binding_eq {first second : IndexRecord}
    (hbinding : first.binding = second.binding) : first.partitionId = second.partitionId :=
  congrArg (fun part => part.2.2.1) hbinding

end IndexRecord

inductive SubmitOutcome
  | queued
  | duplicateIdentical
  | conflict (existingHash : Hash)
  deriving DecidableEq, Repr

/-- A queue row joined with its record. -/
abbrev PendingItem := Nat × String × IndexRecord

/-- The tables of one database file. -/
structure RecordIndex where
  records : Std.ExtTreeMap String IndexRecord
  queue : Std.ExtTreeMap Nat String
  nextSeq : Nat
  localRoots : Std.ExtTreeMap Nat Hash
  deriving DecidableEq

namespace RecordIndex

/-- A fresh database. -/
def empty : RecordIndex where
  records := ∅
  queue := ∅
  nextSeq := 0
  localRoots := ∅

variable (index : RecordIndex)

/-- Claim one key and enqueue it, unless the key is bound already. -/
def submitOne (key : String) (record : IndexRecord) : SubmitOutcome × RecordIndex :=
  match index.records[key]? with
  | some existing =>
      if existing.contentHash = record.contentHash then (.duplicateIdentical, index)
      else (.conflict existing.contentHash, index)
  | none =>
      (.queued, { index with
        records := index.records.insert key record
        queue := index.queue.insert index.nextSeq key
        nextSeq := index.nextSeq + 1 })

/-- Many submissions in one transaction, with one outcome for each. -/
def submitMany : RecordIndex → List (String × IndexRecord) → List SubmitOutcome × RecordIndex
  | index, [] => ([], index)
  | index, (key, record) :: rest =>
      let (outcome, next) := index.submitOne key record
      let (outcomes, final) := submitMany next rest
      (outcome :: outcomes, final)

def getMany (keys : List String) : List (Option IndexRecord) :=
  keys.map fun key => index.records[key]?

/-- The queue in sequence order, joined with the records. A row whose record is
missing is skipped. -/
def pendingItems : List PendingItem :=
  index.queue.toList.filterMap fun (seq, key) =>
    index.records[key]?.map fun record => (seq, key, record)

/-- The oldest rows of the queue, at most `max` of them. -/
def pendingBatch (max : Nat) : List PendingItem :=
  index.pendingItems.take max

/-- A record as `finish` leaves it. -/
def finished (now : Timestamp) (status : RecordStatus) (record : IndexRecord) : IndexRecord :=
  { record with
    status := status
    publishedAt := if status = .published then some now else record.publishedAt }

def finishOne (now : Timestamp) (status : RecordStatus) (item : Nat × String) : RecordIndex :=
  { index with
    records :=
      match index.records[item.2]? with
      | some record => index.records.insert item.2 (finished now status record)
      | none => index.records
    queue := index.queue.erase item.1 }

/-- Set the status of a batch of records and drop their queue rows. -/
def finish (now : Timestamp) (items : List (Nat × String)) (status : RecordStatus) :
    RecordIndex :=
  items.foldl (fun index item => index.finishOne now status item) index

/-- Enqueue a known record again. -/
def requeue (key : String) : Bool × RecordIndex :=
  match index.records[key]? with
  | none => (false, index)
  | some _ => (true, { index with
      queue := index.queue.insert index.nextSeq key
      nextSeq := index.nextSeq + 1 })

/-- Insert records directly, without queue rows. -/
def bulkMarkPublished (records : List (String × IndexRecord)) : RecordIndex :=
  { index with
    records := records.foldl (fun table row => table.insert row.1 row.2) index.records }

/-- Rewrite `created_at` for the given keys, counting those that are in the index and
those that are not. -/
def updateCreatedAt (batch : List (String × Timestamp)) : (Nat × Nat) × RecordIndex :=
  batch.foldl (fun (counts, index) (key, createdAt) =>
    match index.records[key]? with
    | none => ((counts.1, counts.2 + 1), index)
    | some record =>
        ((counts.1 + 1, counts.2),
          if record.createdAt = createdAt then index
          else { index with
            records := index.records.insert key { record with createdAt := createdAt } }))
    ((0, 0), index)

def setLocalRoot (partitionId : Nat) (root : Hash) : RecordIndex :=
  { index with localRoots := index.localRoots.insert partitionId root }

def getLocalRoot (partitionId : Nat) : Option Hash := index.localRoots[partitionId]?

def allLocalRoots : List (Nat × Hash) := index.localRoots.toList

/-- Every value hash the index knows, whatever the status of its record. -/
def allContentHashes : List Hash := index.records.toList.map fun row => row.2.contentHash

/-- Every published key of one partition. -/
def publishedKeysForPartition (partitionId : Nat) : List String :=
  index.records.toList.filterMap fun (key, record) =>
    if record.partitionId = partitionId ∧ record.status = .published then some key else none

/-- The texts of the spill files, one for each partition, after one pass over the
records. -/
def spillPublishedKeys (partitions : Nat) : List String :=
  index.records.toList.foldl (fun files (key, record) =>
    if record.status = .published ∧ record.partitionId < partitions then
      files.modify record.partitionId fun text => text ++ key ++ "\n"
    else files) (List.replicate partitions "")

/-! ## What a transaction can do -/

/-- How the tables may change over time: no record is removed or bound anew, no
sequence number is used twice. -/
structure Evolves (before after : RecordIndex) : Prop where
  binding : ∀ (key : String) (record : IndexRecord), before.records[key]? = some record →
    ∃ later : IndexRecord, after.records[key]? = some later ∧ later.binding = record.binding
  nextSeq : before.nextSeq ≤ after.nextSeq
  rows : ∀ seq : Nat, seq < before.nextSeq →
    after.queue[seq]? = before.queue[seq]? ∨ after.queue[seq]? = none

theorem Evolves.refl (index : RecordIndex) : Evolves index index where
  binding _ record hrecord := ⟨record, hrecord, rfl⟩
  nextSeq := le_rfl
  rows _ _ := Or.inl rfl

theorem Evolves.trans {first second third : RecordIndex} (hfirst : Evolves first second)
    (hsecond : Evolves second third) : Evolves first third where
  binding key record hrecord := by
    obtain ⟨middle, hmiddle, hbinding⟩ := hfirst.binding key record hrecord
    obtain ⟨last, hlast, hlater⟩ := hsecond.binding key middle hmiddle
    exact ⟨last, hlast, hlater.trans hbinding⟩
  nextSeq := hfirst.nextSeq.trans hsecond.nextSeq
  rows seq hseq := by
    rcases hsecond.rows seq (lt_of_lt_of_le hseq hfirst.nextSeq) with hkept | hgone
    · rw [hkept]
      exact hfirst.rows seq hseq
    · exact Or.inr hgone

/-- A single submission leaves the index alone or appends one new key. -/
theorem submitOne_cases (key : String) (record : IndexRecord) :
    (∃ existing, index.records[key]? = some existing ∧
      index.submitOne key record = (if existing.contentHash = record.contentHash
        then .duplicateIdentical else .conflict existing.contentHash, index)) ∨
    (index.records[key]? = none ∧ index.submitOne key record =
      (.queued, { index with
        records := index.records.insert key record
        queue := index.queue.insert index.nextSeq key
        nextSeq := index.nextSeq + 1 })) := by
  unfold submitOne
  cases hrecord : index.records[key]? with
  | none => exact Or.inr ⟨rfl, rfl⟩
  | some existing =>
      refine Or.inl ⟨existing, rfl, ?_⟩
      dsimp only
      split <;> rfl

theorem submitOne_evolves (key : String) (record : IndexRecord) :
    Evolves index (index.submitOne key record).2 := by
  obtain ⟨existing, -, heq⟩ | ⟨hnone, heq⟩ := index.submitOne_cases key record
  · rw [heq]
    exact Evolves.refl index
  · rw [heq]
    refine ⟨fun other present hpresent => ⟨present, ?_, rfl⟩, Nat.le_succ _, fun seq hseq => ?_⟩
    · have hne : key ≠ other := by
        rintro rfl
        rw [hnone] at hpresent
        cases hpresent
      simp only [Std.ExtTreeMap.getElem?_insert, Std.compare_eq_iff_eq, if_neg hne, hpresent]
    · have hne : index.nextSeq ≠ seq := by omega
      simp only [Std.ExtTreeMap.getElem?_insert, Std.compare_eq_iff_eq, if_neg hne, true_or]

theorem submitMany_evolves (submissions : List (String × IndexRecord)) :
    Evolves index (index.submitMany submissions).2 := by
  induction submissions generalizing index with
  | nil => exact Evolves.refl index
  | cons submission rest ih =>
      exact (index.submitOne_evolves submission.1 submission.2).trans (ih _)

/-- A record after a submission was there before, or was submitted. -/
theorem submitMany_records {submissions : List (String × IndexRecord)} {key : String}
    {record : IndexRecord}
    (hrecord : (index.submitMany submissions).2.records[key]? = some record) :
    index.records[key]? = some record ∨ (key, record) ∈ submissions := by
  induction submissions generalizing index with
  | nil => exact Or.inl hrecord
  | cons submission rest ih =>
      rcases ih (index.submitOne submission.1 submission.2).2 hrecord with hnext | hrest
      · obtain ⟨existing, -, heq⟩ | ⟨hnone, heq⟩ :=
          index.submitOne_cases submission.1 submission.2
        · rw [heq] at hnext
          exact Or.inl hnext
        · rw [heq] at hnext
          simp only [Std.ExtTreeMap.getElem?_insert, Std.compare_eq_iff_eq] at hnext
          by_cases hkey : submission.1 = key
          · rw [if_pos hkey, Option.some.injEq] at hnext
            rw [← hkey, ← hnext]
            exact Or.inr List.mem_cons_self
          · rw [if_neg hkey] at hnext
            exact Or.inl hnext
      · exact Or.inr (List.mem_cons_of_mem _ hrest)

theorem submitMany_cons (submission : String × IndexRecord)
    (rest : List (String × IndexRecord)) :
    index.submitMany (submission :: rest) =
      ((index.submitOne submission.1 submission.2).1 ::
          ((index.submitOne submission.1 submission.2).2.submitMany rest).1,
        ((index.submitOne submission.1 submission.2).2.submitMany rest).2) :=
  rfl

theorem submitMany_append (first second : List (String × IndexRecord)) :
    index.submitMany (first ++ second) =
      ((index.submitMany first).1 ++ ((index.submitMany first).2.submitMany second).1,
        ((index.submitMany first).2.submitMany second).2) := by
  induction first generalizing index with
  | nil => rfl
  | cons submission rest ih =>
      rw [List.cons_append, submitMany_cons, ih, submitMany_cons, List.cons_append]

theorem submitMany_length (submissions : List (String × IndexRecord)) :
    (index.submitMany submissions).1.length = submissions.length := by
  induction submissions generalizing index with
  | nil => rfl
  | cons submission rest ih => exact congrArg (· + 1) (ih _)

/-- Submissions add records and change none. -/
theorem submitMany_keeps {submissions : List (String × IndexRecord)} {key : String}
    {record : IndexRecord} (hrecord : index.records[key]? = some record) :
    (index.submitMany submissions).2.records[key]? = some record := by
  induction submissions generalizing index with
  | nil => exact hrecord
  | cons submission rest ih =>
      rw [submitMany_cons]
      apply ih
      obtain ⟨existing, -, heq⟩ | ⟨hnone, heq⟩ := index.submitOne_cases submission.1 submission.2
      · rw [heq]
        exact hrecord
      · have hne : submission.1 ≠ key := by
          rintro rfl
          rw [hnone] at hrecord
          cases hrecord
        rw [heq]
        simp only [Std.ExtTreeMap.getElem?_insert, Std.compare_eq_iff_eq, if_neg hne, hrecord]

/-- The record of a key after submissions: the old one, or else the first one
submitted. -/
theorem submitMany_getElem? (submissions : List (String × IndexRecord)) (key : String) :
    (index.submitMany submissions).2.records[key]? = index.records[key]?.or
      ((submissions.find? fun submission => submission.1 = key).map Prod.snd) := by
  induction submissions generalizing index with
  | nil => exact Option.or_none.symm
  | cons submission rest ih =>
      rw [submitMany_cons, ih]
      by_cases hkey : submission.1 = key
      · rw [List.find?_cons_of_pos (by simpa using hkey), ← hkey]
        obtain ⟨existing, hexisting, heq⟩ | ⟨hnone, heq⟩ :=
          index.submitOne_cases submission.1 submission.2
        · rw [heq, hexisting]
          rfl
        · rw [heq, hnone]
          simp
      · rw [List.find?_cons_of_neg (by simpa using hkey)]
        obtain ⟨existing, -, heq⟩ | ⟨-, heq⟩ := index.submitOne_cases submission.1 submission.2
        · rw [heq]
        · rw [heq]
          simp only [Std.ExtTreeMap.getElem?_insert, Std.compare_eq_iff_eq, if_neg hkey]

/-- The answer a known record gives to a submission of its key. -/
def knownOutcome (prior record : IndexRecord) : SubmitOutcome :=
  if prior.contentHash = record.contentHash then .duplicateIdentical
  else .conflict prior.contentHash

theorem submitOne_known {key : String} {prior record : IndexRecord}
    (hprior : index.records[key]? = some prior) :
    index.submitOne key record = (knownOutcome prior record, index) := by
  obtain ⟨existing, hexisting, heq⟩ | ⟨hnone, -⟩ := index.submitOne_cases key record
  · obtain rfl : existing = prior := Option.some.inj (hexisting.symm.trans hprior)
    exact heq
  · rw [hnone] at hprior
    cases hprior

theorem submitOne_unknown {key : String} {record : IndexRecord}
    (hnone : index.records[key]? = none) : (index.submitOne key record).1 = .queued := by
  obtain ⟨existing, hexisting, -⟩ | ⟨-, heq⟩ := index.submitOne_cases key record
  · rw [hnone] at hexisting
    cases hexisting
  · rw [heq]

/-- Once a key is known, every submission of it is answered by its record. -/
theorem submitMany_outcome_known {submissions : List (String × IndexRecord)} {key : String}
    {prior : IndexRecord} (hprior : index.records[key]? = some prior) :
    ∀ row ∈ submissions.zip (index.submitMany submissions).1, row.1.1 = key →
      row.2 = knownOutcome prior row.1.2 := by
  induction submissions generalizing index with
  | nil => simp
  | cons submission rest ih =>
      intro row hrow hkey
      rw [submitMany_cons, List.zip_cons_cons] at hrow
      rcases List.mem_cons.mp hrow with rfl | hrest
      · dsimp only at hkey ⊢
        rw [index.submitOne_known (hkey ▸ hprior)]
      · have hnext : (index.submitOne submission.1 submission.2).2.records[key]? = some prior :=
          show (index.submitMany [submission]).2.records[key]? = some prior from
            index.submitMany_keeps hprior
        exact ih _ hnext row hrest hkey

/-- Of all submissions of an unknown key, the first one claims it and the others
are answered by its record. -/
theorem submitMany_claim {α : Type} {rows : List α} {submission : α → String × IndexRecord}
    {outcome : α → SubmitOutcome} {final : RecordIndex}
    (hrows : index.submitMany (rows.map submission) = (rows.map outcome, final)) {key : String}
    (hnone : index.records[key]? = none) (hexists : ∃ row ∈ rows, (submission row).1 = key) :
    ∃ before first after, rows = before ++ first :: after ∧ (submission first).1 = key ∧
      (∀ row ∈ before, (submission row).1 ≠ key) ∧ outcome first = .queued ∧
      final.records[key]? = some (submission first).2 ∧
      ∀ row ∈ after, (submission row).1 = key →
        outcome row = knownOutcome (submission first).2 (submission row).2 := by
  have hfind : (rows.find? fun row => (submission row).1 = key).isSome := by
    simpa only [List.find?_isSome, decide_eq_true_eq] using hexists
  obtain ⟨first, hfirst⟩ := Option.isSome_iff_exists.mp hfind
  obtain ⟨hkey, before, after, rfl, hbefore⟩ := List.find?_eq_some_iff_append.mp hfirst
  rw [decide_eq_true_eq] at hkey
  have hbefore : ∀ row ∈ before, (submission row).1 ≠ key := by
    simpa using hbefore
  let middle := (index.submitMany (before.map submission)).2
  have hmiddle : middle.records[key]? = none := by
    rw [submitMany_getElem?, hnone, Option.none_or, Option.map_eq_none_iff, List.find?_eq_none]
    intro row hrow
    obtain ⟨other, hother, rfl⟩ := List.mem_map.mp hrow
    simpa using hbefore other hother
  rw [List.map_append, List.map_append, List.map_cons, List.map_cons, submitMany_append,
    submitMany_cons, Prod.mk.injEq] at hrows
  obtain ⟨houtcomes, hfinal⟩ := hrows
  obtain ⟨-, htail⟩ := List.append_inj houtcomes (by simp [submitMany_length])
  obtain ⟨hclaim, hothers⟩ := List.cons.inj htail
  let claimed := (middle.submitOne (submission first).1 (submission first).2).2
  have hclaimed : claimed.records[key]? = some (submission first).2 := by
    have hone := middle.submitMany_getElem? [submission first] key
    rw [hmiddle, List.find?_cons_of_pos (by simpa using hkey)] at hone
    exact hone
  refine ⟨before, first, after, rfl, hkey, hbefore, ?_, ?_, ?_⟩
  · rw [← hclaim]
    exact middle.submitOne_unknown (hkey ▸ hmiddle)
  · rw [← hfinal]
    exact claimed.submitMany_keeps hclaimed
  · intro row hrow hrowKey
    have hzip : (submission row, outcome row) ∈
        (after.map submission).zip (claimed.submitMany (after.map submission)).1 := by
      rw [show (claimed.submitMany (after.map submission)).1 = after.map outcome from hothers,
        List.zip_map']
      exact List.mem_map.mpr ⟨row, hrow, rfl⟩
    exact claimed.submitMany_outcome_known hclaimed _ hzip hrowKey

theorem getElem?_finishOne_records (now : Timestamp) (status : RecordStatus)
    (item : Nat × String) (key : String) :
    (index.finishOne now status item).records[key]? =
      if item.2 = key then index.records[key]?.map (finished now status)
      else index.records[key]? := by
  cases hrecord : index.records[item.2]? with
  | none =>
      simp only [finishOne, hrecord]
      split
      next hkey => rw [← hkey, hrecord]; rfl
      next => rfl
  | some record =>
      simp only [finishOne, hrecord, Std.ExtTreeMap.getElem?_insert, Std.compare_eq_iff_eq]
      split
      next hkey => rw [← hkey, hrecord]; rfl
      next => rfl

theorem getElem?_finishOne_queue (now : Timestamp) (status : RecordStatus)
    (item : Nat × String) (seq : Nat) :
    (index.finishOne now status item).queue[seq]? =
      if item.1 = seq then none else index.queue[seq]? := by
  simp only [finishOne, Std.ExtTreeMap.getElem?_erase, Std.compare_eq_iff_eq]

theorem finishOne_evolves (now : Timestamp) (status : RecordStatus) (item : Nat × String) :
    Evolves index (index.finishOne now status item) where
  binding key record hrecord := by
    rw [getElem?_finishOne_records, hrecord]
    split
    next => exact ⟨_, rfl, rfl⟩
    next => exact ⟨record, rfl, rfl⟩
  nextSeq := le_rfl
  rows seq _ := by
    rw [getElem?_finishOne_queue]
    split
    next => exact Or.inr rfl
    next => exact Or.inl rfl

theorem finish_evolves (now : Timestamp) (items : List (Nat × String)) (status : RecordStatus) :
    Evolves index (index.finish now items status) := by
  induction items generalizing index with
  | nil => exact Evolves.refl index
  | cons item rest ih => exact (index.finishOne_evolves now status item).trans (ih _)

/-- Finishing changes no binding and adds no record. -/
theorem finish_records {now : Timestamp} {items : List (Nat × String)} {status : RecordStatus}
    {key : String} {record : IndexRecord}
    (hrecord : (index.finish now items status).records[key]? = some record) :
    ∃ earlier, index.records[key]? = some earlier ∧ earlier.binding = record.binding := by
  induction items generalizing index with
  | nil => exact ⟨record, hrecord, rfl⟩
  | cons item rest ih =>
      obtain ⟨middle, hmiddle, hbinding⟩ := ih _ hrecord
      rw [getElem?_finishOne_records] at hmiddle
      split at hmiddle
      next =>
        obtain ⟨earlier, hearlier, rfl⟩ := Option.map_eq_some_iff.mp hmiddle
        exact ⟨earlier, hearlier, hbinding⟩
      next => exact ⟨middle, hmiddle, hbinding⟩

/-- A finished record is as it was, or its row was finished with this status. -/
theorem finish_status {now : Timestamp} {items : List (Nat × String)} {status : RecordStatus}
    {key : String} {record : IndexRecord}
    (hrecord : (index.finish now items status).records[key]? = some record) :
    index.records[key]? = some record ∨
      (record.status = status ∧ ∃ item ∈ items, item.2 = key) := by
  induction items generalizing index with
  | nil => exact Or.inl hrecord
  | cons item rest ih =>
      rcases ih _ hrecord with hnext | ⟨hstatus, other, hother, hkey⟩
      · rw [getElem?_finishOne_records] at hnext
        split at hnext
        next hkey =>
          obtain ⟨earlier, -, rfl⟩ := Option.map_eq_some_iff.mp hnext
          exact Or.inr ⟨rfl, item, List.mem_cons_self, hkey⟩
        next => exact Or.inl hnext
      · exact Or.inr ⟨hstatus, other, List.mem_cons_of_mem _ hother, hkey⟩

@[simp] theorem submitMany_localRoots (submissions : List (String × IndexRecord)) :
    (index.submitMany submissions).2.localRoots = index.localRoots := by
  induction submissions generalizing index with
  | nil => rfl
  | cons submission rest ih =>
      have hone : (index.submitOne submission.1 submission.2).2.localRoots = index.localRoots := by
        obtain ⟨existing, -, heq⟩ | ⟨-, heq⟩ := index.submitOne_cases submission.1 submission.2
        · rw [heq]
        · rw [heq]
      exact (ih _).trans hone

@[simp] theorem finish_localRoots (now : Timestamp) (items : List (Nat × String))
    (status : RecordStatus) : (index.finish now items status).localRoots = index.localRoots := by
  induction items generalizing index with
  | nil => rfl
  | cons item rest ih => exact ih _

theorem requeue_cases (key : String) :
    index.requeue key = (false, index) ∨
    ∃ record, index.records[key]? = some record ∧ index.requeue key = (true, { index with
      queue := index.queue.insert index.nextSeq key
      nextSeq := index.nextSeq + 1 }) := by
  unfold requeue
  cases hrecord : index.records[key]? with
  | none => exact Or.inl rfl
  | some record => exact Or.inr ⟨record, rfl, rfl⟩

theorem requeue_evolves (key : String) : Evolves index (index.requeue key).2 := by
  obtain heq | ⟨record, -, heq⟩ := index.requeue_cases key
  · rw [heq]
    exact Evolves.refl index
  · rw [heq]
    refine ⟨fun other present hpresent => ⟨present, hpresent, rfl⟩, Nat.le_succ _, ?_⟩
    intro seq hseq
    have hne : index.nextSeq ≠ seq := by omega
    simp only [Std.ExtTreeMap.getElem?_insert, Std.compare_eq_iff_eq, if_neg hne, true_or]

theorem setLocalRoot_evolves (partitionId : Nat) (root : Hash) :
    Evolves index (index.setLocalRoot partitionId root) where
  binding _ record hrecord := ⟨record, hrecord, rfl⟩
  nextSeq := le_rfl
  rows _ _ := Or.inl rfl

/-! ## Records and queue stay in step -/

/-- Every pending record is queued; every queue row names a record and lies
below the counter; every record lies in the partition of its key. -/
structure Consistent (partitionOf : String → Nat) (index : RecordIndex) : Prop where
  queued : ∀ (key : String) (record : IndexRecord), index.records[key]? = some record →
      record.status = .pending →
    ∃ seq : Nat, index.queue[seq]? = some key
  rows : ∀ (seq : Nat) (key : String), index.queue[seq]? = some key →
    seq < index.nextSeq ∧ ∃ record, index.records[key]? = some record
  partitions : ∀ (key : String) (record : IndexRecord), index.records[key]? = some record →
    record.partitionId = partitionOf key

/-- A queue row that an earlier read of the queue saw: it is there as it was, or
it has been dropped. -/
def RowOf (item : Nat × String) : Prop :=
  item.1 < index.nextSeq ∧
    (index.queue[item.1]? = some item.2 ∨ index.queue[item.1]? = none)

section Steps

variable {index} {partitionOf : String → Nat}

theorem Consistent.empty : Consistent partitionOf RecordIndex.empty where
  queued key record hrecord := by simp [RecordIndex.empty] at hrecord
  rows seq key hrow := by simp [RecordIndex.empty] at hrow
  partitions key record hrecord := by simp [RecordIndex.empty] at hrecord

theorem RowOf.evolves {later : RecordIndex} {item : Nat × String} (hrow : index.RowOf item)
    (hevolves : Evolves index later) : later.RowOf item := by
  refine ⟨lt_of_lt_of_le hrow.1 hevolves.nextSeq, ?_⟩
  rcases hevolves.rows item.1 hrow.1 with hkept | hgone
  · rw [hkept]
    exact hrow.2
  · exact Or.inr hgone

/-- A row appended under the counter disturbs no other row. -/
theorem Consistent.getElem?_insert_queue (hindex : Consistent partitionOf index) (key : String)
    {seq : Nat} {other : String} (hrow : index.queue[seq]? = some other) :
    (index.queue.insert index.nextSeq key)[seq]? = some other := by
  have hne : index.nextSeq ≠ seq := by
    have := (hindex.rows seq other hrow).1
    omega
  simp only [Std.ExtTreeMap.getElem?_insert, Std.compare_eq_iff_eq, if_neg hne, hrow]

theorem Consistent.submitOne (hindex : Consistent partitionOf index) {key : String}
    {record : IndexRecord} (hpartition : record.partitionId = partitionOf key) :
    Consistent partitionOf (index.submitOne key record).2 := by
  obtain ⟨existing, -, heq⟩ | ⟨hnone, heq⟩ := index.submitOne_cases key record
  · rw [heq]
    exact hindex
  · rw [heq]
    refine ⟨?_, ?_, ?_⟩
    · intro other present hpresent hpending
      simp only [Std.ExtTreeMap.getElem?_insert, Std.compare_eq_iff_eq] at hpresent
      by_cases hkey : key = other
      · subst hkey
        exact ⟨index.nextSeq, by simp⟩
      · rw [if_neg hkey] at hpresent
        obtain ⟨seq, hseq⟩ := hindex.queued other present hpresent hpending
        exact ⟨seq, hindex.getElem?_insert_queue key hseq⟩
    · intro seq other hrow
      simp only [Std.ExtTreeMap.getElem?_insert, Std.compare_eq_iff_eq] at hrow ⊢
      by_cases hseq : index.nextSeq = seq
      · rw [if_pos hseq, Option.some.injEq] at hrow
        exact ⟨by omega, record, by rw [if_pos hrow]⟩
      · rw [if_neg hseq] at hrow
        obtain ⟨hlt, present, hpresent⟩ := hindex.rows seq other hrow
        refine ⟨by omega, ?_⟩
        by_cases hkey : key = other
        · exact ⟨record, by rw [if_pos hkey]⟩
        · exact ⟨present, by rw [if_neg hkey, hpresent]⟩
    · intro other present hpresent
      simp only [Std.ExtTreeMap.getElem?_insert, Std.compare_eq_iff_eq] at hpresent
      by_cases hkey : key = other
      · rw [if_pos hkey, Option.some.injEq] at hpresent
        rw [← hpresent, hpartition, hkey]
      · rw [if_neg hkey] at hpresent
        exact hindex.partitions other present hpresent

theorem Consistent.submitMany (hindex : Consistent partitionOf index)
    {submissions : List (String × IndexRecord)}
    (hpartitions : ∀ submission ∈ submissions, submission.2.partitionId =
      partitionOf submission.1) :
    Consistent partitionOf (index.submitMany submissions).2 := by
  induction submissions generalizing index with
  | nil => exact hindex
  | cons submission rest ih =>
      have hhead := hindex.submitOne (hpartitions submission List.mem_cons_self)
      exact ih hhead fun other hother => hpartitions other (List.mem_cons_of_mem _ hother)

theorem Consistent.finishOne (hindex : Consistent partitionOf index) (now : Timestamp)
    {status : RecordStatus} (hstatus : status ≠ .pending) {item : Nat × String}
    (hrow : index.RowOf item) : Consistent partitionOf (index.finishOne now status item) := by
  refine ⟨?_, ?_, ?_⟩
  · intro key record hrecord hpending
    rw [getElem?_finishOne_records] at hrecord
    split at hrecord
    next =>
      -- The finished record is no longer pending.
      obtain ⟨before, -, rfl⟩ := Option.map_eq_some_iff.mp hrecord
      exact absurd hpending hstatus
    next hkey =>
      obtain ⟨seq, hseq⟩ := hindex.queued key record hrecord hpending
      refine ⟨seq, ?_⟩
      have hne : item.1 ≠ seq := by
        rintro rfl
        rcases hrow.2 with hsame | hgone
        · exact hkey (Option.some.inj (hsame.symm.trans hseq))
        · rw [hgone] at hseq
          cases hseq
      rw [getElem?_finishOne_queue, if_neg hne, hseq]
  · intro seq key hkept
    rw [getElem?_finishOne_queue] at hkept
    split at hkept
    next => cases hkept
    next =>
      obtain ⟨hlt, record, hrecord⟩ := hindex.rows seq key hkept
      obtain ⟨later, hlater, -⟩ :=
        (index.finishOne_evolves now status item).binding key record hrecord
      exact ⟨hlt, later, hlater⟩
  · intro key record hrecord
    rw [getElem?_finishOne_records] at hrecord
    split at hrecord
    next =>
      obtain ⟨before, hbefore, rfl⟩ := Option.map_eq_some_iff.mp hrecord
      exact hindex.partitions key before hbefore
    next => exact hindex.partitions key record hrecord

theorem Consistent.finish (hindex : Consistent partitionOf index) (now : Timestamp)
    {status : RecordStatus} (hstatus : status ≠ .pending) {items : List (Nat × String)}
    (hrows : ∀ item ∈ items, index.RowOf item) :
    Consistent partitionOf (index.finish now items status) := by
  induction items generalizing index with
  | nil => exact hindex
  | cons item rest ih =>
      refine ih (hindex.finishOne now hstatus (hrows item List.mem_cons_self)) ?_
      intro other hother
      exact (hrows other (List.mem_cons_of_mem _ hother)).evolves
        (index.finishOne_evolves now status item)

theorem Consistent.requeue (hindex : Consistent partitionOf index) (key : String) :
    Consistent partitionOf (index.requeue key).2 := by
  obtain heq | ⟨record, hrecord, heq⟩ := index.requeue_cases key
  · rw [heq]
    exact hindex
  · rw [heq]
    refine ⟨?_, ?_, hindex.partitions⟩
    · intro other present hpresent hpending
      obtain ⟨seq, hseq⟩ := hindex.queued other present hpresent hpending
      exact ⟨seq, hindex.getElem?_insert_queue key hseq⟩
    · intro seq other hrow
      simp only [Std.ExtTreeMap.getElem?_insert, Std.compare_eq_iff_eq] at hrow
      by_cases hseq : index.nextSeq = seq
      · rw [if_pos hseq, Option.some.injEq] at hrow
        exact ⟨by dsimp only; omega, record, hrow ▸ hrecord⟩
      · rw [if_neg hseq] at hrow
        obtain ⟨hlt, present, hpresent⟩ := hindex.rows seq other hrow
        exact ⟨by dsimp only; omega, present, hpresent⟩

theorem mem_pendingItems {item : PendingItem} :
    item ∈ index.pendingItems ↔
      index.queue[item.1]? = some item.2.1 ∧ index.records[item.2.1]? = some item.2.2 := by
  simp only [pendingItems, List.mem_filterMap, Prod.exists, Option.map_eq_some_iff,
    Std.ExtTreeMap.mem_toList_iff_getElem?_eq_some]
  constructor
  · rintro ⟨seq, key, hrow, record, hrecord, rfl⟩
    exact ⟨hrow, hrecord⟩
  · rintro ⟨hrow, hrecord⟩
    exact ⟨item.1, item.2.1, hrow, item.2.2, hrecord, rfl⟩

end Steps

end RecordIndex

end Registry

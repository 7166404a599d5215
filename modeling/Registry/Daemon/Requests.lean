import Registry.Daemon.Api

/-! # What the write requests compute

Each phase of a request on its own, for any other tasks that run meanwhile. A
batch answers each of its records exactly once: at validation, from the
precheck, when its value cannot be stored, or from the write transaction.
-/

namespace Registry

open Effect

variable {W : Type} {S : Setting daemonSig W} {prim : Primitives} {lib : Libraries}
  {config : Config}

/-! ## Validation -/

/-- A record that passed validation, as its request would claim it. -/
def ValidRecord (prim : Primitives) (lib : Libraries) (config : Config)
    (request : SubmitRecordRequest) (value : String) (record : IndexRecord) : Prop :=
  checkRequest lib config request = .ok value ∧
    ∃ createdAt, (lib.declarationTimestamp value).getD createdAt = createdAt ∧
      record = newRecord prim lib config request.key value createdAt

theorem validateOne_valid {assertion : W → Prop}
    (hkept : Kept S (fun op => op = DaemonOp.now) assertion)
    (request : SubmitRecordRequest) {world : W} (hworld : assertion world) :
    Valid S (fun valid after => assertion after ∧
        ValidRecord prim lib config request valid.1 valid.2)
      (fun error after => assertion after ∧ checkRequest lib config request = .error error)
      (validateOne prim lib config request) world := by
  apply Valid.bind
  apply Valid.ofExcept
  · intro value hvalue
    cases htimestamp : lib.declarationTimestamp value with
    | some timestamp =>
        exact ⟨hworld, hvalue, timestamp, by rw [htimestamp]; rfl, rfl⟩
    | none =>
        intro before hbefore hinv response after hsem
        obtain ⟨hafter, hguar, hkeep⟩ := hkept.call DaemonOp.now before response after rfl hinv
          (hkept.rely world before hbefore hworld) hsem
        exact ⟨hafter, hguar, hkeep, hvalue, response, by rw [htimestamp]; rfl, rfl⟩
  · intro error herror
    exact ⟨hworld, herror⟩

/-- How the records of a batch, from position `slot` on, came out of validation. -/
inductive ValidatedFrom (prim : Primitives) (lib : Libraries) (config : Config) :
    Nat → List SubmitRecordRequest → Results → List Candidate → Prop
  | nil (slot : Nat) : ValidatedFrom prim lib config slot [] [] []
  | invalid {slot : Nat} {request : SubmitRecordRequest} {rest : List SubmitRecordRequest}
      {results : Results} {candidates : List Candidate} {error : ApiError}
      (rejected : checkRequest lib config request = .error error)
      (others : ValidatedFrom prim lib config (slot + 1) rest results candidates) :
      ValidatedFrom prim lib config slot (request :: rest)
        (some (failedResult request.key error) :: results) candidates
  | valid {slot : Nat} {request : SubmitRecordRequest} {rest : List SubmitRecordRequest}
      {results : Results} {candidates : List Candidate} {value : String} {record : IndexRecord}
      (accepted : ValidRecord prim lib config request value record)
      (others : ValidatedFrom prim lib config (slot + 1) rest results candidates) :
      ValidatedFrom prim lib config slot (request :: rest) (none :: results)
        (⟨slot, request.key, value, record⟩ :: candidates)

theorem validateAll_valid {assertion : W → Prop}
    (hkept : Kept S (fun op => op = DaemonOp.now) assertion)
    {fails : ApiError → W → Prop} (requests : List SubmitRecordRequest) {slot : Nat} {world : W}
    (hworld : assertion world) :
    Valid S (fun validated after => assertion after ∧
        ValidatedFrom prim lib config slot requests validated.1 validated.2) fails
      (validateAll prim lib config slot requests) world := by
  induction requests generalizing slot world with
  | nil => exact ⟨hworld, .nil slot⟩
  | cons request rest ih =>
      rw [validateAll]
      apply Valid.bind
      apply Valid.attempt
      refine Valid.mono ?_ ?_ (validateOne_valid hkept request hworld)
      · rintro ⟨value, record⟩ after ⟨hafter, haccepted⟩
        apply Valid.bind
        refine Valid.mono ?_ (fun _ _ h => h) (ih hafter)
        rintro ⟨results, candidates⟩ last ⟨hlast, hothers⟩
        exact ⟨hlast, .valid haccepted hothers⟩
      · rintro error after ⟨hafter, hrejected⟩
        apply Valid.bind
        refine Valid.mono ?_ (fun _ _ h => h) (ih hafter)
        rintro ⟨results, candidates⟩ last ⟨hlast, hothers⟩
        exact ⟨hlast, .invalid hrejected hothers⟩

namespace ValidatedFrom

variable {slot : Nat} {requests : List SubmitRecordRequest} {results : Results}
  {candidates : List Candidate}

theorem length_results
    (hvalidated : ValidatedFrom prim lib config slot requests results candidates) :
    results.length = requests.length := by
  induction hvalidated with
  | nil slot => rfl
  | invalid _ _ ih => exact congrArg (· + 1) ih
  | valid _ _ ih => exact congrArg (· + 1) ih

theorem slot_le (hvalidated : ValidatedFrom prim lib config slot requests results candidates) :
    ∀ candidate ∈ candidates, slot ≤ candidate.slot := by
  induction hvalidated with
  | nil slot => simp
  | invalid _ _ ih => exact fun candidate hcandidate => Nat.le_of_succ_le (ih candidate hcandidate)
  | valid _ _ ih =>
      intro candidate hcandidate
      rcases List.mem_cons.mp hcandidate with rfl | hrest
      · exact le_rfl
      · exact Nat.le_of_succ_le (ih candidate hrest)

theorem slots_nodup (hvalidated : ValidatedFrom prim lib config slot requests results candidates) :
    (candidates.map Candidate.slot).Nodup := by
  induction hvalidated with
  | nil slot => exact List.nodup_nil
  | invalid _ _ ih => exact ih
  | valid _ hothers ih =>
      rw [List.map_cons, List.nodup_cons]
      refine ⟨fun hmem => ?_, ih⟩
      obtain ⟨other, hother, hslot⟩ := List.mem_map.mp hmem
      have hle := hothers.slot_le other hother
      dsimp only at hslot
      omega

/-- Every candidate is a valid record at its position. -/
theorem candidate_valid
    (hvalidated : ValidatedFrom prim lib config slot requests results candidates) :
    ∀ candidate ∈ candidates, ∃ request, requests[candidate.slot - slot]? = some request ∧
      candidate.key = request.key ∧
      ValidRecord prim lib config request candidate.value candidate.record := by
  induction hvalidated with
  | nil slot => simp
  | @invalid slot request rest results candidates error _ hothers ih =>
      intro candidate hcandidate
      obtain ⟨found, hfound, hkey, hrecord⟩ := ih candidate hcandidate
      have hle := hothers.slot_le candidate hcandidate
      have hindex : candidate.slot - slot = candidate.slot - (slot + 1) + 1 := by omega
      exact ⟨found, by rw [hindex, List.getElem?_cons_succ, hfound], hkey, hrecord⟩
  | @valid slot request rest results candidates value record haccepted hothers ih =>
      intro candidate hcandidate
      rcases List.mem_cons.mp hcandidate with rfl | hrest
      · exact ⟨request, by simp, rfl, haccepted⟩
      · obtain ⟨found, hfound, hkey, hrecord⟩ := ih candidate hrest
        have hle := hothers.slot_le candidate hrest
        have hindex : candidate.slot - slot = candidate.slot - (slot + 1) + 1 := by omega
        exact ⟨found, by rw [hindex, List.getElem?_cons_succ, hfound], hkey, hrecord⟩

/-- Every record is answered with its validation error or is a candidate. -/
theorem answered_or_candidate
    (hvalidated : ValidatedFrom prim lib config slot requests results candidates) :
    ∀ offset request, requests[offset]? = some request →
      (∃ error, checkRequest lib config request = .error error ∧
        results[offset]? = some (some (failedResult request.key error)) ∧
        ∀ candidate ∈ candidates, candidate.slot ≠ slot + offset) ∨
      ∃ candidate ∈ candidates, candidate.slot = slot + offset := by
  induction hvalidated with
  | nil slot => simp
  | @invalid slot request rest results candidates error hrejected hothers ih =>
      intro offset found hfound
      cases offset with
      | zero =>
          obtain rfl : request = found := by simpa using hfound
          refine Or.inl ⟨error, hrejected, rfl, fun candidate hcandidate => ?_⟩
          have hle := hothers.slot_le candidate hcandidate
          omega
      | succ offset =>
          have hshift : slot + (offset + 1) = slot + 1 + offset := by omega
          rw [List.getElem?_cons_succ] at hfound ⊢
          rw [hshift]
          exact ih offset found hfound
  | @valid slot request rest results candidates value record haccepted hothers ih =>
      intro offset found hfound
      cases offset with
      | zero => exact Or.inr ⟨_, List.mem_cons_self, rfl⟩
      | succ offset =>
          have hshift : slot + (offset + 1) = slot + 1 + offset := by omega
          rw [List.getElem?_cons_succ] at hfound ⊢
          rw [hshift]
          rcases ih offset found hfound
              with ⟨error, hrejected, hresult, hnone⟩ | ⟨candidate, hmem, heq⟩
          · refine Or.inl ⟨error, hrejected, hresult, fun candidate hcandidate => ?_⟩
            rcases List.mem_cons.mp hcandidate with rfl | hrest
            · dsimp only
              omega
            · exact hnone candidate hrest
          · exact Or.inr ⟨candidate, List.mem_cons_of_mem _ hmem, heq⟩

end ValidatedFrom

/-! ## Storing values -/

/-- Every spawned write runs exactly once, in some order. -/
theorem putTasks_valid (I : List (Candidate × Except ApiError Hash) → W → Prop)
    (hrely : ∀ done world later, S.rely world later → I done world → I done later)
    (hpick : ∀ done others before response after, S.inv before → I done before →
      S.sem (DaemonOp.pick others) before response after →
        S.inv after ∧ S.guar before after ∧ I done after)
    (hput : ∀ done (task : Candidate) before response after, S.inv before → I done before →
      S.sem (DaemonOp.store (.put (utf8 task.value))) before response after →
        S.inv after ∧ S.guar before after ∧ I ((task, putOutcome response) :: done) after)
    {fails : ApiError → W → Prop} {tasks : List Candidate}
    {done : List (Candidate × Except ApiError Hash)} {world : W} (hworld : I done world) :
    Valid S (fun result after => I result after ∧
        (result.map Prod.fst).Perm (tasks ++ done.map Prod.fst)) fails
      (putTasks tasks.length tasks done) world := by
  induction htasks : tasks.length generalizing tasks done world with
  | zero =>
      rw [List.length_eq_zero_iff.mp htasks]
      exact ⟨hworld, List.Perm.refl _⟩
  | succ count ih =>
      cases tasks with
      | nil => cases htasks
      | cons first others =>
          rw [putTasks]
          intro before hbefore hinv choice after hsem
          obtain ⟨hafter, hguar, hkeep⟩ := hpick done others.length before choice after hinv
            (hrely done world before hbefore hworld) hsem
          refine ⟨hafter, hguar, ?_⟩
          intro middle hmiddle hinvMiddle response stored hstored
          obtain ⟨hinvStored, hguarStored, hnext⟩ := hput done _ middle response stored hinvMiddle
            (hrely done after middle hmiddle hkeep) hstored
          refine ⟨hinvStored, hguarStored, ?_⟩
          have hlength : ((first :: others).eraseIdx choice.val).length = count := by
            rw [List.length_eraseIdx_of_lt choice.isLt]
            simpa using htasks
          refine Valid.mono ?_ (fun _ _ h => h) (ih hnext hlength)
          rintro result last ⟨hresult, hperm⟩
          refine ⟨hresult, hperm.trans ?_⟩
          have hchoice : choice.val < (first :: others).length := choice.isLt
          have herase := List.getElem_cons_eraseIdx_perm hchoice
          rw [List.map_cons]
          exact (List.perm_middle).trans (herase.append_right _)

/-! ## Filling in answers -/

/-- Write answers into their positions. -/
def setAll (answers : List (Nat × RecordResult)) (results : Results) : Results :=
  answers.foldl (fun results answer => results.set answer.1 (some answer.2)) results

theorem setAll_append (first second : List (Nat × RecordResult)) (results : Results) :
    setAll (first ++ second) results = setAll second (setAll first results) :=
  List.foldl_append

@[simp] theorem length_setAll (answers : List (Nat × RecordResult)) (results : Results) :
    (setAll answers results).length = results.length := by
  induction answers generalizing results with
  | nil => rfl
  | cons answer rest ih =>
      rw [setAll, List.foldl_cons]
      exact (ih _).trans (List.length_set)

theorem getElem?_setAll_of_notMem {answers : List (Nat × RecordResult)} {slot : Nat}
    (hslot : slot ∉ answers.map Prod.fst) (results : Results) :
    (setAll answers results)[slot]? = results[slot]? := by
  induction answers generalizing results with
  | nil => rfl
  | cons answer rest ih =>
      rw [List.map_cons, List.mem_cons, not_or] at hslot
      rw [setAll, List.foldl_cons]
      exact (ih hslot.2 _).trans (List.getElem?_set_ne (Ne.symm hslot.1))

theorem getElem?_setAll_of_mem {answers : List (Nat × RecordResult)}
    (hnodup : (answers.map Prod.fst).Nodup) {slot : Nat} {result : RecordResult}
    (hmem : (slot, result) ∈ answers) {results : Results} (hslot : slot < results.length) :
    (setAll answers results)[slot]? = some (some result) := by
  induction answers generalizing results with
  | nil => cases hmem
  | cons answer rest ih =>
      rw [List.map_cons, List.nodup_cons] at hnodup
      rw [setAll, List.foldl_cons]
      rcases List.mem_cons.mp hmem with rfl | hrest
      · exact (getElem?_setAll_of_notMem hnodup.1 _).trans (List.getElem?_set_self hslot)
      · exact ih hnodup.2 hrest (by rw [List.length_set]; exact hslot)

/-- The answers of the precheck. -/
def knownAnswers (rows : List (Candidate × Option IndexRecord)) : List (Nat × RecordResult) :=
  rows.filterMap fun row => row.2.map fun prior =>
    (row.1.slot, outcomeResult row.1.key row.1.record (RecordIndex.knownOutcome prior row.1.record))

/-- The candidates the precheck leaves open. -/
def unknownTasks (rows : List (Candidate × Option IndexRecord)) : List Candidate :=
  (rows.filter fun row => row.2.isNone).map Prod.fst

theorem precheck_eq (rows : List (Candidate × Option IndexRecord)) (results : Results) :
    precheck rows results = (setAll (knownAnswers rows) results, unknownTasks rows) := by
  induction rows generalizing results with
  | nil => rfl
  | cons row rest ih =>
      obtain ⟨candidate, _ | prior⟩ := row
      · rw [precheck, ih]
        rfl
      · rw [precheck, ih, ih]
        by_cases hhash : prior.contentHash = candidate.record.contentHash
        · simp [hhash, knownAnswers, unknownTasks, RecordIndex.knownOutcome, outcomeResult, setAll]
        · simp [hhash, knownAnswers, unknownTasks, RecordIndex.knownOutcome, outcomeResult, setAll]

/-- The answers for values that could not be stored. -/
def failedAnswers (done : List (Candidate × Except ApiError Hash)) (tasks : List Candidate) :
    List (Nat × RecordResult) :=
  tasks.filterMap fun task =>
    match taskOutcome done task.slot with
    | .ok _ => none
    | .error error => some (task.slot, failedResult task.key error)

/-- The tasks whose value was stored. -/
def storedTasks (done : List (Candidate × Except ApiError Hash)) (tasks : List Candidate) :
    List Candidate :=
  tasks.filter fun task => (taskOutcome done task.slot).isOk

theorem collectStored_eq (done : List (Candidate × Except ApiError Hash)) (tasks : List Candidate)
    (results : Results) :
    collectStored done tasks results =
      (setAll (failedAnswers done tasks) results, storedTasks done tasks) := by
  induction tasks generalizing results with
  | nil => rfl
  | cons task rest ih =>
      rw [collectStored]
      cases houtcome : taskOutcome done task.slot with
      | ok hash =>
          dsimp only
          rw [ih]
          simp [failedAnswers, storedTasks, houtcome, Except.isOk, Except.toBool]
      | error error =>
          dsimp only
          rw [ih]
          simp [failedAnswers, storedTasks, houtcome, Except.isOk, Except.toBool, setAll]

theorem taskOutcome_of_mem {done : List (Candidate × Except ApiError Hash)}
    (hnodup : (done.map fun row => row.1.slot).Nodup) {row : Candidate × Except ApiError Hash}
    (hrow : row ∈ done) : taskOutcome done row.1.slot = row.2 := by
  have hsome : (done.find? fun other => other.1.slot = row.1.slot).isSome := by
    simp only [List.find?_isSome, decide_eq_true_eq]
    exact ⟨row, hrow, rfl⟩
  obtain ⟨found, hfound⟩ := Option.isSome_iff_exists.mp hsome
  have hslot : found.1.slot = row.1.slot := by simpa using List.find?_some hfound
  have heq : found = row :=
    List.inj_on_of_nodup_map hnodup (List.mem_of_find?_eq_some hfound) hrow hslot
  rw [taskOutcome, hfound, heq]

/-- Every task is done, with the outcome that is looked up for its slot. -/
theorem mem_done_of_mem {done : List (Candidate × Except ApiError Hash)}
    {tasks : List Candidate} (hslots : (tasks.map Candidate.slot).Nodup)
    (hdone : (done.map Prod.fst).Perm tasks) {task : Candidate} (htask : task ∈ tasks) :
    (task, taskOutcome done task.slot) ∈ done := by
  obtain ⟨row, hrow, rfl⟩ := List.mem_map.mp (hdone.mem_iff.mpr htask)
  have hnodup : (done.map fun row => row.1.slot).Nodup := by
    have hmap := (hdone.map Candidate.slot).nodup_iff.mpr hslots
    rwa [List.map_map] at hmap
  rw [taskOutcome_of_mem hnodup hrow]
  exact hrow

/-! ## The course of a batch -/

/-- The intermediate results of a batch. -/
structure BatchPlan where
  results : Results
  candidates : List Candidate
  existing : List (Option IndexRecord)
  done : List (Candidate × Except ApiError Hash)
  outcomes : List SubmitOutcome

/-- The records that a precheck has seen. -/
def seenRecords (keys : List String) (existing : List (Option IndexRecord)) :
    List (String × IndexRecord) :=
  (keys.zip existing).filterMap fun row => row.2.map fun prior => (row.1, prior)

namespace BatchPlan

variable (plan : BatchPlan)

def rows : List (Candidate × Option IndexRecord) := plan.candidates.zip plan.existing

def tasks : List Candidate := unknownTasks plan.rows

def prepared : List Candidate := storedTasks plan.done plan.tasks

def submissions : List (String × IndexRecord) :=
  plan.prepared.map fun task => (task.key, task.record)

def seen : List (String × IndexRecord) :=
  seenRecords (plan.candidates.map Candidate.key) plan.existing

/-- The answers to the whole batch, phase after phase. -/
def answers : Results :=
  fillOutcomes (plan.prepared.zip plan.outcomes)
    (setAll (failedAnswers plan.done plan.tasks) (setAll (knownAnswers plan.rows) plan.results))

/-- A plan that these requests may take, with these errors for values that could
not be stored. -/
structure Fits (prim : Primitives) (lib : Libraries) (config : Config)
    (putFailed : String → ApiError → Prop) (requests : List SubmitRecordRequest) : Prop where
  validated : ValidatedFrom prim lib config 0 requests plan.results plan.candidates
  existing : plan.existing.length = plan.candidates.length
  done : (plan.done.map Prod.fst).Perm plan.tasks
  failures : ∀ row ∈ plan.done, ∀ error, row.2 = .error error → putFailed row.1.value error
  outcomes : plan.outcomes.length = plan.prepared.length

theorem Fits.mono {plan : BatchPlan} {early late : String → ApiError → Prop}
    {requests : List SubmitRecordRequest}
    (hmono : ∀ value error, early value error → late value error)
    (hfits : plan.Fits prim lib config early requests) : plan.Fits prim lib config late requests :=
  { hfits with
    failures := fun row hrow error herror =>
      hmono _ _ (hfits.failures row hrow error herror) }

theorem tasks_sublist (hexisting : plan.existing.length = plan.candidates.length) :
    plan.tasks.Sublist plan.candidates := by
  have hrows : plan.rows.map Prod.fst = plan.candidates := List.map_fst_zip hexisting.ge
  rw [← hrows]
  exact List.Sublist.map Prod.fst List.filter_sublist

/-- The answers of the write transaction. -/
def writtenAnswers : List (Nat × RecordResult) :=
  (plan.prepared.zip plan.outcomes).map fun row =>
    (row.1.slot, outcomeResult row.1.key row.1.record row.2)

/-- All answers that are given after validation. -/
def lateAnswers : List (Nat × RecordResult) :=
  knownAnswers plan.rows ++ failedAnswers plan.done plan.tasks ++ plan.writtenAnswers

theorem answers_eq : plan.answers = setAll plan.lateAnswers plan.results := by
  have hfill : ∀ results, fillOutcomes (plan.prepared.zip plan.outcomes) results =
      setAll plan.writtenAnswers results := by
    intro results
    rw [setAll, writtenAnswers, List.foldl_map]
    rfl
  rw [answers, hfill, lateAnswers, setAll_append, setAll_append]

theorem slots_known_unknown (rows : List (Candidate × Option IndexRecord)) :
    ((knownAnswers rows).map Prod.fst ++ (unknownTasks rows).map Candidate.slot).Perm
      (rows.map fun row => row.1.slot) := by
  induction rows with
  | nil => exact List.Perm.refl _
  | cons row rest ih =>
      obtain ⟨candidate, _ | prior⟩ := row
      · exact List.perm_middle.trans (ih.cons _)
      · exact ih.cons _

theorem slots_failed_stored (done : List (Candidate × Except ApiError Hash))
    (tasks : List Candidate) :
    ((failedAnswers done tasks).map Prod.fst ++ (storedTasks done tasks).map Candidate.slot).Perm
      (tasks.map Candidate.slot) := by
  induction tasks with
  | nil => exact List.Perm.refl _
  | cons task rest ih =>
      cases houtcome : taskOutcome done task.slot with
      | ok hash =>
          simp only [failedAnswers, storedTasks, houtcome, List.filterMap_cons, List.filter_cons,
            Except.isOk, Except.toBool, if_true, List.map_cons]
          exact List.perm_middle.trans (ih.cons _)
      | error error =>
          simp only [failedAnswers, storedTasks, houtcome, List.filterMap_cons, List.filter_cons,
            Except.isOk, Except.toBool, List.map_cons]
          exact ih.cons _

/-- Every candidate is answered exactly once after validation. -/
theorem slots_lateAnswers (hexisting : plan.existing.length = plan.candidates.length)
    (houtcomes : plan.outcomes.length = plan.prepared.length) :
    (plan.lateAnswers.map Prod.fst).Perm (plan.candidates.map Candidate.slot) := by
  have hwritten : plan.writtenAnswers.map Prod.fst = plan.prepared.map Candidate.slot := by
    rw [writtenAnswers, List.map_map]
    conv_rhs => rw [← List.map_fst_zip houtcomes.ge, List.map_map]
    rfl
  have hrows : plan.rows.map (fun row => row.1.slot) = plan.candidates.map Candidate.slot := by
    conv_rhs => rw [← List.map_fst_zip hexisting.ge, List.map_map]
    rfl
  rw [lateAnswers, List.map_append, List.map_append, hwritten, List.append_assoc, ← hrows]
  exact ((slots_failed_stored plan.done plan.tasks).append_left _).trans
    (slots_known_unknown plan.rows)

section Answers

variable {plan} {putFailed : String → ApiError → Prop} {requests : List SubmitRecordRequest}
  (hfits : plan.Fits prim lib config putFailed requests)

include hfits

theorem Fits.length_answers : plan.answers.length = requests.length := by
  rw [answers_eq, length_setAll, hfits.validated.length_results]

theorem Fits.candidate_valid {candidate : Candidate} (hcandidate : candidate ∈ plan.candidates) :
    ∃ request, requests[candidate.slot]? = some request ∧ candidate.key = request.key ∧
      ValidRecord prim lib config request candidate.value candidate.record :=
  hfits.validated.candidate_valid candidate hcandidate

theorem Fits.answer_of_mem {slot : Nat} {result : RecordResult}
    (hanswer : (slot, result) ∈ plan.lateAnswers) : plan.answers[slot]? = some (some result) := by
  have hperm := plan.slots_lateAnswers hfits.existing hfits.outcomes
  have hmem : slot ∈ plan.lateAnswers.map Prod.fst := List.mem_map.mpr ⟨_, hanswer, rfl⟩
  obtain ⟨candidate, hcandidate, hslot⟩ := List.mem_map.mp (hperm.mem_iff.mp hmem)
  obtain ⟨request, hrequest, -⟩ := hfits.candidate_valid hcandidate
  rw [answers_eq]
  refine getElem?_setAll_of_mem (hperm.nodup_iff.mpr hfits.validated.slots_nodup) hanswer ?_
  rw [hfits.validated.length_results, ← hslot]
  exact (List.getElem?_eq_some_iff.mp hrequest).1

theorem Fits.answer_written {task : Candidate} {outcome : SubmitOutcome}
    (hrow : (task, outcome) ∈ plan.prepared.zip plan.outcomes) :
    plan.answers[task.slot]? = some (some (outcomeResult task.key task.record outcome)) :=
  hfits.answer_of_mem (List.mem_append_right _ (List.mem_map.mpr ⟨(task, outcome), hrow, rfl⟩))

/-- How each record of the batch is answered. -/
theorem Fits.answer {slot : Nat} {request : SubmitRecordRequest}
    (hrequest : requests[slot]? = some request) :
    (∃ error, checkRequest lib config request = .error error ∧
      plan.answers[slot]? = some (some (failedResult request.key error))) ∨
    ∃ candidate ∈ plan.candidates, candidate.slot = slot ∧ candidate.key = request.key ∧
      ValidRecord prim lib config request candidate.value candidate.record ∧
      ((∃ prior, (candidate.key, prior) ∈ plan.seen ∧ plan.answers[slot]? = some (some
          (outcomeResult candidate.key candidate.record
            (RecordIndex.knownOutcome prior candidate.record)))) ∨
        (∃ error, putFailed candidate.value error ∧
          plan.answers[slot]? = some (some (failedResult candidate.key error))) ∨
        ∃ outcome, (candidate, outcome) ∈ plan.prepared.zip plan.outcomes) := by
  rcases hfits.validated.answered_or_candidate slot request hrequest with
    ⟨error, hrejected, hresult, hnone⟩ | ⟨candidate, hcandidate, hslot⟩
  · refine Or.inl ⟨error, hrejected, ?_⟩
    rw [answers_eq, getElem?_setAll_of_notMem, hresult]
    rw [(plan.slots_lateAnswers hfits.existing hfits.outcomes).mem_iff]
    intro hmem
    obtain ⟨candidate, hcandidate, hslot⟩ := List.mem_map.mp hmem
    exact hnone candidate hcandidate (hslot.trans (Nat.zero_add slot).symm)
  · rw [Nat.zero_add] at hslot
    obtain ⟨found, hfound, hkey, hvalid⟩ := hfits.candidate_valid hcandidate
    obtain rfl : found = request := Option.some.inj (hfound.symm.trans (hslot ▸ hrequest))
    refine Or.inr ⟨candidate, hcandidate, hslot, hkey, hvalid, ?_⟩
    subst hslot
    -- What the precheck has seen of this key.
    have hrows : candidate ∈ plan.rows.map Prod.fst := by
      rw [rows, List.map_fst_zip hfits.existing.ge]
      exact hcandidate
    obtain ⟨⟨owner, existing⟩, hrow, howner⟩ := List.mem_map.mp hrows
    obtain rfl : owner = candidate := howner
    have hslots : (plan.tasks.map Candidate.slot).Nodup :=
      ((plan.tasks_sublist hfits.existing).map Candidate.slot).nodup hfits.validated.slots_nodup
    cases existing with
    | none =>
      refine Or.inr ?_
      have htask : owner ∈ plan.tasks :=
        List.mem_map.mpr ⟨_, List.mem_filter.mpr ⟨hrow, rfl⟩, rfl⟩
      cases houtcome : taskOutcome plan.done owner.slot with
      | error error =>
          refine Or.inl ⟨error, ?_, ?_⟩
          · exact hfits.failures _ (mem_done_of_mem hslots hfits.done htask) error houtcome
          · refine hfits.answer_of_mem (List.mem_append_left _ (List.mem_append_right _ ?_))
            exact List.mem_filterMap.mpr ⟨owner, htask, by rw [houtcome]⟩
      | ok hash =>
          refine Or.inr ?_
          have hprepared : owner ∈ plan.prepared :=
            List.mem_filter.mpr ⟨htask, by rw [houtcome]; rfl⟩
          rw [← List.map_fst_zip hfits.outcomes.ge] at hprepared
          obtain ⟨⟨_, outcome⟩, hzip, rfl⟩ := List.mem_map.mp hprepared
          exact ⟨outcome, hzip⟩
    | some prior =>
      refine Or.inl ⟨prior, ?_, ?_⟩
      · rw [seen, seenRecords, List.zip_map_left]
        exact List.mem_filterMap.mpr ⟨_, List.mem_map_of_mem hrow, rfl⟩
      · refine hfits.answer_of_mem (List.mem_append_left _ (List.mem_append_left _ ?_))
        exact List.mem_filterMap.mpr ⟨_, hrow, rfl⟩

end Answers

end BatchPlan

/-! ## Whole requests -/

/-- The operations of a request outside its write transaction. -/
def ReadsOrStores : DaemonOp → Prop
  | .now => True
  | .beginWrite => True
  | .endWrite => True
  | .pick _ => True
  | .store (.put _) => True
  | .index (.getMany _) => True
  | _ => False

theorem ReadsOrStores.keepsTables {op : DaemonOp} (hop : ReadsOrStores op) :
    Primitives.KeepsTables op := by
  match op with
  | .now => trivial
  | .beginWrite => trivial
  | .endWrite => trivial
  | .pick _ => trivial
  | .store _ => trivial
  | .index (.getMany _) => trivial

/-- What a write request may rely on where it runs. It knows which records it has
seen and which values it has stored; its write transaction turns that into what
it has written. -/
structure RequestRules (S : Setting daemonSig W) (prim : Primitives) (lib : Libraries)
    (config : Config) where
  knows : List (String × IndexRecord) → List String → W → Prop
  wrote : List (String × IndexRecord) → List (String × IndexRecord) → List SubmitOutcome →
    W → Prop
  putFailed : String → ApiError → W → Prop
  indexFailed : ApiError → Prop
  quiet : Kept S ReadsOrStores fun _ => True
  keep : ∀ seen stored, Kept S ReadsOrStores (knows seen stored)
  put : ∀ {seen stored value before hash after}, S.inv before → knows seen stored before →
    S.sem (.store (.put (utf8 value))) before (.ok hash) after → knows seen (value :: stored) after
  putError : ∀ {value before error after},
    S.sem (.store (.put (utf8 value))) before (.error error) after →
      ∀ failure, putOutcome (.error error) = .error failure → putFailed value failure after
  failedRely : ∀ {value failure world later}, S.rely world later →
    putFailed value failure world → putFailed value failure later
  failedCall : ∀ {value failure op before response after}, S.sem op before response after →
    putFailed value failure before → putFailed value failure after
  read : ∀ {keys before existing after}, S.inv before → knows [] [] before →
    S.sem (.index (.getMany keys)) before (.ok existing) after →
      existing.length = keys.length ∧ knows (seenRecords keys existing) [] after
  write : ∀ {seen stored submissions before response after}, S.inv before →
    knows seen stored before →
    (∀ submission ∈ submissions, ∃ value ∈ stored, ∃ createdAt,
      submission.2 = newRecord prim lib config submission.1 value createdAt) →
    S.sem (.index (.submitMany submissions)) before response after →
      S.inv after ∧ S.guar before after ∧
        ∀ outcomes, response = .ok outcomes → outcomes.length = submissions.length ∧
          wrote seen submissions outcomes after
  indexError : ∀ {op before message after}, S.sem (.index op) before (.error message) after →
    indexFailed (.internal message)
  keepWrote : ∀ seen submissions outcomes,
    Kept S (fun op => op = .endWrite) (wrote seen submissions outcomes)

namespace RequestRules

variable (rules : RequestRules S prim lib config)

/-- The errors of a single submission: the index failed, or nothing was written. -/
def Fails (request : SubmitRecordRequest) (error : ApiError) (world : W) : Prop :=
  rules.indexFailed error ∨
    (checkRequest lib config request = .error error ∨
      ∃ value, checkRequest lib config request = .ok value ∧ rules.putFailed value error world) ∧
        rules.knows [] [] world

theorem guarded_valid {α : Type} {post : α → W → Prop} {fails : ApiError → W → Prop}
    (hpost : ∀ value, Kept S (fun op => op = DaemonOp.endWrite) (post value))
    (hfails : ∀ error, Kept S (fun op => op = DaemonOp.endWrite) (fails error))
    {prog : ApiProg α} {world : W} (hworld : rules.knows [] [] world)
    (hprog : ∀ after, rules.knows [] [] after → Valid S post fails prog after) :
    Valid S post fails (withWriteGuard prog) world := by
  apply withWriteGuard_valid
  · intro before response after hbefore hinv hsem
    obtain ⟨hafter, hguar, hknows⟩ := (rules.keep [] []).call .beginWrite before response after
      trivial hinv ((rules.keep [] []).rely world before hbefore hworld) hsem
    exact ⟨hafter, hguar, hprog after hknows⟩
  · intro value middle before response after hvalue hbefore hinv hsem
    exact (hpost value).call .endWrite before response after rfl hinv
      ((hpost value).rely middle before hbefore hvalue) hsem
  · intro error middle before response after herror hbefore hinv hsem
    exact (hfails error).call .endWrite before response after rfl hinv
      ((hfails error).rely middle before hbefore herror) hsem

theorem keep_now (seen : List (String × IndexRecord)) (stored : List String) :
    Kept S (fun op => op = DaemonOp.now) (rules.knows seen stored) :=
  (rules.keep seen stored).mono fun _ hop => hop ▸ trivial

/-- What an answered single submission knows. -/
def Ingested (request : SubmitRecordRequest) (outcome : SubmitOutcome) (partition : Nat)
    (world : W) : Prop :=
  ∃ value record, ValidRecord prim lib config request value record ∧
    partition = record.partitionId ∧ rules.wrote [] [(request.key, record)] [outcome] world

theorem ingested_kept (request : SubmitRecordRequest) (outcome : SubmitOutcome)
    (partition : Nat) :
    Kept S (fun op => op = DaemonOp.endWrite) (rules.Ingested request outcome partition) where
  rely world later hlater := by
    rintro ⟨value, record, hvalid, hpartition, hwrote⟩
    exact ⟨value, record, hvalid, hpartition,
      (rules.keepWrote _ _ _).rely world later hlater hwrote⟩
  call op before response after hop hinv := by
    rintro ⟨value, record, hvalid, hpartition, hwrote⟩ hsem
    obtain ⟨hafter, hguar, hkept⟩ :=
      (rules.keepWrote _ _ _).call op before response after hop hinv hwrote hsem
    exact ⟨hafter, hguar, value, record, hvalid, hpartition, hkept⟩

include rules in
theorem endWrite_kept : Kept S (fun op => op = DaemonOp.endWrite) fun _ => True :=
  rules.quiet.mono fun _ hop => hop ▸ trivial

theorem fails_kept (request : SubmitRecordRequest) (error : ApiError) :
    Kept S (fun op => op = DaemonOp.endWrite) (rules.Fails request error) where
  rely world later hlater := by
    rintro (hindex | ⟨hrejected | ⟨value, hvalid, hfailed⟩, hknows⟩)
    · exact Or.inl hindex
    · exact Or.inr ⟨Or.inl hrejected, (rules.keep [] []).rely world later hlater hknows⟩
    · exact Or.inr ⟨Or.inr ⟨value, hvalid, rules.failedRely hlater hfailed⟩,
        (rules.keep [] []).rely world later hlater hknows⟩
  call op before response after hop hinv hbefore hsem := by
    obtain ⟨hafter, hguar, -⟩ := rules.endWrite_kept.call op before response after hop hinv trivial
      hsem
    refine ⟨hafter, hguar, ?_⟩
    rcases hbefore with hindex | ⟨hfails, hknows⟩
    · exact Or.inl hindex
    · refine Or.inr ⟨?_, ((rules.keep [] []).call op before response after (hop ▸ trivial) hinv
        hknows hsem).2.2⟩
      exact hfails.imp_right fun ⟨value, hvalid, hfailed⟩ =>
        ⟨value, hvalid, rules.failedCall hsem hfailed⟩

theorem ingestOne_valid (request : SubmitRecordRequest) {world : W}
    (hworld : rules.knows [] [] world) :
    Valid S (fun answer => rules.Ingested request answer.1 answer.2)
      (fun error => rules.Fails request error) (ingestOne prim lib config request) world := by
  refine rules.guarded_valid
    (fun answer : SubmitOutcome × Nat => rules.ingested_kept request answer.1 answer.2)
    (fun error => rules.fails_kept request error) hworld ?_
  intro after hafter
  apply Valid.bind
  apply Valid.bind
  refine Valid.mono ?_ ?_ (validateOne_valid (rules.keep_now [] []) request hafter)
  · rintro ⟨value, record⟩ middle ⟨hmiddle, hvalid⟩
    apply Valid.bind
    intro before hbefore hinv response stored hput
    obtain ⟨hstored, hguar, hknows⟩ := (rules.keep [] []).call _ before response stored trivial
      hinv ((rules.keep [] []).rely middle before hbefore hmiddle) hput
    refine ⟨hstored, hguar, ?_⟩
    cases response with
    | error error => exact Or.inr ⟨Or.inr ⟨value, hvalid.1, rules.putError hput _ rfl⟩, hknows⟩
    | ok hash =>
        have hvalue := rules.put hinv ((rules.keep [] []).rely middle before hbefore hmiddle) hput
        intro later hlater hinvLater answer last hwrite
        obtain ⟨createdAt, -, hrecord⟩ := hvalid.2
        obtain ⟨hlast, hguarLast, hwrote⟩ := rules.write hinvLater
          ((rules.keep [] [value]).rely stored later hlater hvalue)
          (fun submission hmem => ⟨value, List.mem_cons_self, createdAt, by
            rw [List.mem_singleton.mp hmem]
            exact hrecord⟩) hwrite
        refine ⟨hlast, hguarLast, ?_⟩
        cases answer with
        | error message => exact Or.inl (rules.indexError hwrite)
        | ok outcomes =>
            obtain ⟨hlength, hwrote⟩ := hwrote outcomes rfl
            obtain ⟨outcome, rfl⟩ := List.length_eq_one_iff.mp hlength
            exact ⟨value, record, hvalid, rfl, hwrote⟩
  · rintro error middle ⟨hmiddle, hrejected⟩
    exact Or.inr ⟨Or.inl hrejected, hmiddle⟩

/-- How a single submission is answered. -/
theorem submitRecord_valid (request : SubmitRecordRequest) {world : W}
    (hworld : rules.knows [] [] world) :
    Valid S (fun answer after => ∃ outcome partition,
        rules.Ingested request outcome partition after ∧
        (outcome = .queued ∧ answer = (202, .queued request.key partition false) ∨
          outcome = .duplicateIdentical ∧ answer = (200, .queued request.key partition true)))
      (fun error after => rules.Fails request error after ∨ ∃ existingHash partition,
        rules.Ingested request (.conflict existingHash) partition after ∧
          error = .conflict existingHash.toPrefixed)
      (submitRecord prim lib config request) world := by
  apply Valid.bind
  refine Valid.mono ?_ (fun _ _ herror => Or.inl herror) (rules.ingestOne_valid request hworld)
  rintro ⟨outcome, partition⟩ after hingested
  cases outcome with
  | queued => exact ⟨.queued, partition, hingested, Or.inl ⟨rfl, rfl⟩⟩
  | duplicateIdentical => exact ⟨.duplicateIdentical, partition, hingested, Or.inr ⟨rfl, rfl⟩⟩
  | conflict existingHash => exact Or.inr ⟨existingHash, partition, hingested, rfl⟩

/-- The values stored so far. -/
def storedValues (done : List (Candidate × Except ApiError Hash)) : List String :=
  (done.filter fun row => row.2.isOk).map fun row => row.1.value

theorem putTasks_knows {seen : List (String × IndexRecord)} {tasks : List Candidate}
    {fails : ApiError → W → Prop} {world : W} (hworld : rules.knows seen [] world) :
    Valid S (fun done after => (rules.knows seen (storedValues done) after ∧
          ∀ row ∈ done, ∀ error, row.2 = .error error → rules.putFailed row.1.value error after) ∧
        (done.map Prod.fst).Perm tasks) fails
      (putTasks tasks.length tasks []) world := by
  let I : List (Candidate × Except ApiError Hash) → W → Prop := fun done world =>
    rules.knows seen (storedValues done) world ∧
      ∀ row ∈ done, ∀ error, row.2 = .error error → rules.putFailed row.1.value error world
  have hinit : I [] world := ⟨hworld, by simp⟩
  refine Valid.mono (fun done after hdone => ⟨hdone.1, by simpa using hdone.2⟩)
    (fun _ _ herror => herror) (putTasks_valid I ?_ ?_ ?_ hinit)
  · intro done before later hlater hbefore
    exact ⟨(rules.keep _ _).rely before later hlater hbefore.1,
      fun row hrow error herror => rules.failedRely hlater (hbefore.2 row hrow error herror)⟩
  · intro done others before response after hinv hbefore hsem
    obtain ⟨hafter, hguar, hknows⟩ := (rules.keep _ _).call (.pick others) before response after
      trivial hinv hbefore.1 hsem
    exact ⟨hafter, hguar, hknows,
      fun row hrow error herror => rules.failedCall hsem (hbefore.2 row hrow error herror)⟩
  · intro done task before response after hinv hbefore hsem
    obtain ⟨hafter, hguar, hknows⟩ := (rules.keep _ _).call _ before response after
      trivial hinv hbefore.1 hsem
    have hold : ∀ row ∈ done, ∀ error, row.2 = .error error →
        rules.putFailed row.1.value error after :=
      fun row hrow error herror => rules.failedCall hsem (hbefore.2 row hrow error herror)
    refine ⟨hafter, hguar, ?_⟩
    cases response with
    | ok hash =>
        refine ⟨rules.put hinv hbefore.1 hsem, fun row hrow error herror => ?_⟩
        rcases List.mem_cons.mp hrow with rfl | hrest
        · cases herror
        · exact hold row hrest error herror
    | error error =>
        refine ⟨hknows, fun row hrow failure hfailure => ?_⟩
        rcases List.mem_cons.mp hrow with rfl | hrest
        · exact rules.putError hsem failure hfailure
        · exact hold row hrest failure hfailure

/-- What an answered batch knows. -/
def Answered (requests : List SubmitRecordRequest) (results : Results) (world : W) : Prop :=
  ∃ plan : BatchPlan,
    plan.Fits prim lib config (fun value error => rules.putFailed value error world) requests ∧
    results = plan.answers ∧ rules.wrote plan.seen plan.submissions plan.outcomes world

theorem answered_kept (requests : List SubmitRecordRequest) (results : Results) :
    Kept S (fun op => op = DaemonOp.endWrite) (rules.Answered requests results) where
  rely world later hlater := by
    rintro ⟨plan, hfits, hresults, hwrote⟩
    exact ⟨plan, hfits.mono fun _ _ => rules.failedRely hlater, hresults,
      (rules.keepWrote _ _ _).rely world later hlater hwrote⟩
  call op before response after hop hinv := by
    rintro ⟨plan, hfits, hresults, hwrote⟩ hsem
    obtain ⟨hafter, hguar, hkept⟩ :=
      (rules.keepWrote _ _ _).call op before response after hop hinv hwrote hsem
    exact ⟨hafter, hguar, plan, hfits.mono fun _ _ => rules.failedCall hsem, hresults, hkept⟩

/-- A batch within its limit is answered as a whole, unless the index fails. -/
theorem submitBatch_valid {requests : List SubmitRecordRequest}
    (hcount : requests.length ≤ config.batchMaxRecords) {world : W}
    (hworld : rules.knows [] [] world) :
    Valid S (fun answer after => answer.1 = 207 ∧ rules.Answered requests answer.2 after)
      (fun error _ => rules.indexFailed error) (submitBatch prim lib config requests) world := by
  rw [submitBatch, if_neg hcount.not_gt]
  refine rules.guarded_valid (fun answer : Nat × Results => ?_)
    (fun error => rules.endWrite_kept.const _) hworld ?_
  · refine ⟨fun world later hlater hworld => ⟨hworld.1, ?_⟩, ?_⟩
    · exact (rules.answered_kept requests answer.2).rely world later hlater hworld.2
    · intro op before response after hop hinv hbefore hsem
      obtain ⟨hafter, hguar, hkept⟩ := (rules.answered_kept requests answer.2).call op before
        response after hop hinv hbefore.2 hsem
      exact ⟨hafter, hguar, hbefore.1, hkept⟩
  intro after hafter
  apply Valid.bind
  refine Valid.mono ?_ (fun _ _ herror => herror)
    (validateAll_valid (rules.keep_now [] []) requests hafter)
  rintro ⟨results, candidates⟩ middle ⟨hmiddle, hvalidated⟩
  -- The precheck: one read transaction.
  intro before hbefore hinv existing read hread
  have hknows := (rules.keep [] []).rely middle before hbefore hmiddle
  obtain ⟨hinvRead, hguarRead, -⟩ := rules.quiet.call _ before existing read trivial hinv trivial
    hread
  refine ⟨hinvRead, hguarRead, ?_⟩
  cases existing with
  | error message => exact rules.indexError hread
  | ok existing =>
      obtain ⟨hlength, hseen⟩ := rules.read hinv hknows hread
      rw [List.length_map] at hlength
      -- The answer types of the later calls depend on what the phases compute.
      simp only [Prog.bind]
      generalize hprecheck : precheck (candidates.zip existing) results = checked
      rw [precheck_eq] at hprecheck
      subst hprecheck
      apply Valid.bind
      refine Valid.mono ?_ (fun _ _ herror => herror) (rules.putTasks_knows hseen)
      rintro done stored ⟨⟨hstored, hfailures⟩, hdone⟩
      generalize hcollect : collectStored done _ _ = collected
      rw [collectStored_eq] at hcollect
      subst hcollect
      -- The claim: one write transaction.
      let plan : BatchPlan := ⟨results, candidates, existing, done, []⟩
      have hslots : (plan.tasks.map Candidate.slot).Nodup :=
        ((plan.tasks_sublist hlength).map Candidate.slot).nodup hvalidated.slots_nodup
      have hsubmissions : ∀ submission ∈ plan.submissions,
          ∃ value ∈ storedValues done, ∃ createdAt,
            submission.2 = newRecord prim lib config submission.1 value createdAt := by
        intro submission hsubmission
        obtain ⟨task, htask, rfl⟩ := List.mem_map.mp hsubmission
        obtain ⟨hmem, hok⟩ := List.mem_filter.mp htask
        have hrow := mem_done_of_mem hslots hdone hmem
        have hcandidate := (plan.tasks_sublist hlength).subset (List.mem_filter.mp htask).1
        obtain ⟨request, -, hkey, -, createdAt, -, hrecord⟩ :=
          hvalidated.candidate_valid task hcandidate
        refine ⟨task.value, ?_, createdAt, hkey ▸ hrecord⟩
        exact List.mem_map.mpr ⟨_, List.mem_filter.mpr ⟨hrow, hok⟩, rfl⟩
      intro later hlater hinvLater outcomes last hwrite
      obtain ⟨hlast, hguarLast, hwrote⟩ := rules.write hinvLater
        ((rules.keep _ _).rely stored later hlater hstored) hsubmissions hwrite
      refine ⟨hlast, hguarLast, ?_⟩
      cases outcomes with
      | error message => exact rules.indexError hwrite
      | ok outcomes =>
          obtain ⟨houtcomes, hwrote⟩ := hwrote outcomes rfl
          rw [BatchPlan.submissions, List.length_map] at houtcomes
          exact ⟨rfl, { plan with outcomes := outcomes },
            ⟨hvalidated, hlength, hdone, fun row hrow error herror => rules.failedCall hwrite
              (rules.failedRely hlater (hfailures row hrow error herror)), houtcomes⟩, rfl, hwrote⟩

include rules in
/-- Every request follows the rules. -/
theorem handle_valid (request : Request) {world : W} (hworld : rules.knows [] [] world) :
    Valid S (fun _ _ => True) (fun _ _ => True) (handle prim lib config request) world := by
  cases request with
  | single record =>
      apply Valid.bind
      exact Valid.mono (fun _ _ _ => trivial) (fun _ _ _ => trivial)
        (rules.submitRecord_valid record hworld)
  | batch records =>
      apply Valid.bind
      by_cases hcount : records.length ≤ config.batchMaxRecords
      · exact Valid.mono (fun _ _ _ => trivial) (fun _ _ _ => trivial)
          (rules.submitBatch_valid hcount hworld)
      · rw [submitBatch, if_pos (not_le.mp hcount)]
        trivial

end RequestRules

end Registry

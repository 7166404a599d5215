import Registry.Daemon.Durability
import Registry.Daemon.Protect
import Registry.Effect.Emits

/-! # Only validated data enters the index

The write requests store only texts that passed validation, and claim only valid
keys. So in every run, every record of the index has a valid key, and its value
is the stored text of an accepted JSON object.
-/

namespace Registry

open Effect

/-! ## What the write requests send -/

section Requests

variable (lib : Libraries) (config : Config)

/-- A text that validation accepts. -/
def Accepted (text : String) : Prop :=
  ∃ request, checkRequest lib config request = .ok text

/-- What a write request may send: only accepted texts are stored, only valid keys are
claimed, and nothing else is changed. -/
def Vetted : DaemonOp → Prop
  | .store (.put bytes) => ∃ text, Accepted lib config text ∧ bytes = utf8 text
  | .index (.submitMany submissions) =>
      ∀ submission ∈ submissions, lib.isValidRecordKey submission.1 = true
  | op => Primitives.KeepsTables op

/-- A record that passed validation. -/
def Candidate.Vetted (candidate : Candidate) : Prop :=
  Accepted lib config candidate.value ∧ lib.isValidRecordKey candidate.key = true

variable {lib config} {prim : Primitives}

theorem isValidRecordKey_of_checkRequest {request : SubmitRecordRequest} {text : String}
    (hcheck : checkRequest lib config request = .ok text) :
    lib.isValidRecordKey request.key = true := by
  unfold checkRequest at hcheck
  split at hcheck
  next => cases hcheck
  next hvalid => simpa using hvalid

/-- An accepted text is admitted as a value, and is not too long. -/
theorem Accepted.admitted {text : String} (haccepted : Accepted lib config text) :
    Admitted lib text ∧ (utf8 text).length ≤ config.maxValueBytes := by
  obtain ⟨request, hcheck⟩ := haccepted
  unfold checkRequest at hcheck
  split at hcheck
  next => cases hcheck
  next =>
    split at hcheck
    next => cases hcheck
    next value hvalue =>
      split at hcheck
      next => cases hcheck
      next hlength =>
        obtain rfl : value = text := Except.ok.inj hcheck
        exact ⟨Or.inl ⟨request.value, hvalue⟩, not_lt.mp hlength⟩

theorem putValue_emits {text : String} (haccepted : Accepted lib config text) :
    (putValue text).Emits (Vetted lib config) fun _ => True :=
  ⟨⟨text, haccepted, rfl⟩, fun _ => trivial⟩

theorem callIndexApi_emits {op : IndexOp} (hop : Vetted lib config (.index op)) :
    (callIndexApi op).Emits (Vetted lib config) fun _ => True := by
  refine ⟨hop, fun response => ?_⟩
  cases response <;> trivial

theorem withWriteGuard_emits {ε α : Type} {result : α → Prop} {prog : Prog daemonSig ε α}
    (hprog : prog.Emits (Vetted lib config) result) :
    (withWriteGuard prog).Emits (Vetted lib config) result := by
  refine ⟨trivial, fun _ => hprog.attempt.bind fun answer hanswer => ?_⟩
  exact ⟨trivial, fun _ => Prog.Emits.ofExcept hanswer⟩

theorem validateOne_emits (request : SubmitRecordRequest) :
    (validateOne prim lib config request).Emits (Vetted lib config) fun valid =>
      checkRequest lib config request = .ok valid.1 := by
  refine (Prog.Emits.ofExcept fun value hvalue => hvalue).bind fun value hvalue => ?_
  split
  next => exact hvalue
  next => exact ⟨trivial, fun now => hvalue⟩

theorem validateAll_emits (slot : Nat) (requests : List SubmitRecordRequest) :
    (validateAll prim lib config slot requests).Emits (Vetted lib config) fun validated =>
      ∀ candidate ∈ validated.2, candidate.Vetted lib config := by
  induction requests generalizing slot with
  | nil => exact fun candidate hcandidate => absurd hcandidate List.not_mem_nil
  | cons request rest ih =>
      rw [validateAll]
      refine (validateOne_emits request).attempt.bind fun valid hvalid => ?_
      cases valid with
      | error error => exact (ih (slot + 1)).bind fun validated hvalidated => hvalidated
      | ok valid =>
          have hcheck := hvalid valid rfl
          refine (ih (slot + 1)).bind fun validated hvalidated candidate hcandidate => ?_
          rcases List.mem_cons.mp hcandidate with rfl | hrest
          · exact ⟨⟨request, hcheck⟩, isValidRecordKey_of_checkRequest hcheck⟩
          · exact hvalidated candidate hrest

theorem putTasks_emits (fuel : Nat) {tasks : List Candidate}
    (htasks : ∀ task ∈ tasks, task.Vetted lib config)
    (done : List (Candidate × Except ApiError Hash)) :
    (putTasks fuel tasks done).Emits (Vetted lib config) fun _ => True := by
  induction fuel generalizing tasks done with
  | zero => trivial
  | succ fuel ih =>
      cases tasks with
      | nil => trivial
      | cons first others =>
          refine ⟨trivial, fun choice => ?_⟩
          have hchosen := htasks _ (List.get_mem (first :: others) choice)
          refine (putValue_emits hchosen.1).bind fun outcome _ => ih (fun task htask => ?_) _
          exact htasks task (List.mem_of_mem_eraseIdx htask)

theorem ingestOne_emits (request : SubmitRecordRequest) :
    (ingestOne prim lib config request).Emits (Vetted lib config) fun _ => True := by
  apply withWriteGuard_emits
  have hprepare : (prepareOne prim lib config request).Emits (Vetted lib config) fun prepared =>
      lib.isValidRecordKey prepared.1 = true := by
    refine (validateOne_emits request).bind fun valid hvalid => ?_
    refine (putValue_emits ⟨request, hvalid⟩).bind fun stored _ => ?_
    refine Prog.Emits.bind (Prog.Emits.ofExcept fun hash _ => trivial) fun hash (_ : True) => ?_
    exact isValidRecordKey_of_checkRequest hvalid
  refine hprepare.bind fun prepared hprepared => ?_
  have hsubmit : Vetted lib config (.index (.submitMany [(prepared.1, prepared.2)])) := by
    intro submission hsubmission
    rw [List.mem_singleton.mp hsubmission]
    exact hprepared
  refine (callIndexApi_emits hsubmit).bind fun outcomes _ => ?_
  cases outcomes <;> trivial

theorem submitBatch_emits (requests : List SubmitRecordRequest) :
    (submitBatch prim lib config requests).Emits (Vetted lib config) fun _ => True := by
  unfold submitBatch
  split
  next => trivial
  next =>
    apply withWriteGuard_emits
    refine (validateAll_emits 0 requests).bind fun validated hvalidated => ?_
    have hread : Vetted lib config (.index (.getMany (validated.2.map Candidate.key))) := trivial
    refine (callIndexApi_emits hread).bind fun existing _ => ?_
    have htasks : ∀ task ∈ (precheck (validated.2.zip existing) validated.1).2,
        task.Vetted lib config := by
      intro task htask
      rw [precheck_eq] at htask
      obtain ⟨row, hrow, rfl⟩ := List.mem_map.mp htask
      exact hvalidated _ (List.of_mem_zip (List.mem_filter.mp hrow).1).1
    refine (putTasks_emits _ htasks []).bind fun done _ => ?_
    refine (callIndexApi_emits ?_).bind fun outcomes _ => trivial
    intro submission hsubmission
    obtain ⟨task, htask, rfl⟩ := List.mem_map.mp hsubmission
    rw [collectStored_eq] at htask
    exact (htasks task (List.mem_filter.mp htask).1).2

/-- Every write request stores only accepted texts and claims only valid keys. -/
theorem handle_emits (request : Request) :
    (handle prim lib config request).Emits (Vetted lib config) fun _ => True := by
  cases request with
  | single record =>
      refine Prog.Emits.bind ((ingestOne_emits record).bind fun answer _ => ?_) fun answer
        (_ : True) => trivial
      obtain ⟨outcome, partition⟩ := answer
      cases outcome <;> trivial
  | batch records => exact (submitBatch_emits records).bind fun answer _ => trivial

/-- So does every request of the running daemon, from wherever it has come to. -/
theorem requests_use {faults : Faults} {state : DaemonState}
    (hreachable : Reachable prim lib config faults state) :
    ∀ prog ∈ state.requests, prog.Uses (Vetted lib config) := by
  induction hreachable with
  | refl => exact fun prog hprog => absurd hprog List.not_mem_nil
  | tail _ hstep ih =>
      intro prog hprog
      cases hstep with
      | receive request =>
          rcases List.mem_append.mp hprog with hold | hnew
          · exact ih prog hold
          · rw [List.mem_singleton.mp hnew]
            exact (handle_emits request).uses
      | request running answered =>
          rcases List.mem_or_eq_of_mem_set hprog with hold | rfl
          · exact ih prog hold
          · exact (ih _ (List.mem_of_getElem? running)).2 _
      | abandon number activeWrites => exact ih prog (List.mem_of_mem_eraseIdx hprog)
      | commit running answered => exact ih prog hprog
      | discard number => exact ih prog hprog
      | crash => exact absurd hprog List.not_mem_nil
      | start idle task => exact ih prog hprog
      | publish running answered => exact ih prog hprog
      | finish => exact ih prog hprog
      | stray blob => exact ih prog hprog
      | requeue key => exact ih prog hprog

/-- And so do the transactions that abandoned requests have left. -/
theorem detached_vetted {faults : Faults} {state : DaemonState}
    (hreachable : Reachable prim lib config faults state) :
    ∀ op ∈ state.detached, Vetted lib config (.index op) := by
  induction hreachable with
  | refl => exact fun op hop => absurd hop List.not_mem_nil
  | tail hbefore hstep ih =>
      intro op hop
      cases hstep with
      | abandon number activeWrites =>
          rcases List.mem_append.mp hop with hold | hnew
          · exact ih op hold
          · obtain ⟨rest, hwaiting⟩ := exists_of_mem_pendingTransaction hnew
            exact (requests_use hbefore _ hwaiting).1
      | commit running answered => exact ih op (List.mem_of_mem_eraseIdx hop)
      | discard number => exact ih op (List.mem_of_mem_eraseIdx hop)
      | crash => exact absurd hop List.not_mem_nil
      | receive request => exact ih op hop
      | request running answered => exact ih op hop
      | start idle task => exact ih op hop
      | publish running answered => exact ih op hop
      | finish => exact ih op hop
      | stray blob => exact ih op hop
      | requeue key => exact ih op hop

end Requests

/-! ## What the publisher leaves alone -/

/-- Operations that claim no key. -/
def ClaimsNothing : DaemonOp → Prop
  | .index (.finish _ _ _) => True
  | op => Harmless op

theorem Harmless.claimsNothing {op : DaemonOp} (hop : Harmless op) : ClaimsNothing op := by
  unfold ClaimsNothing
  split
  next => trivial
  next => exact hop

section Publisher

variable {prim : Primitives} {config : Config}

theorem finishItems_uses (rows : List (Nat × String)) (status : RecordStatus) :
    (finishItems rows status).Uses ClaimsNothing := by
  unfold finishItems
  split
  next => trivial
  next => exact ⟨trivial, fun now => callIndex_uses trivial⟩

theorem publishPartition_uses (denylist : Finset String) (partitionId : Nat)
    (items : List PendingItem) :
    (prim.publishPartition config denylist partitionId items).Uses ClaimsNothing := by
  have hextend : ∀ entries, (prim.extendPartition config partitionId entries).Uses ClaimsNothing :=
    fun entries => (extendPartition_uses partitionId entries).mono fun _ hop => hop.claimsNothing
  unfold Primitives.publishPartition
  dsimp only
  split
  next =>
    refine (hextend _).bind fun _ => ?_
    exact (finishItems_uses _ _).bind fun _ => (finishItems_uses _ _).bind fun _ => trivial
  next => exact (finishItems_uses _ _).bind fun _ => (finishItems_uses _ _).bind fun _ => trivial

theorem publishCycle_uses (denylist : Finset String) :
    (prim.publishCycle config denylist).Uses ClaimsNothing := by
  refine ⟨trivial, fun _ => ?_⟩
  have hcycle : (do
      let batch ← callIndex (.pendingBatch config.publishMaxPending)
      (groupByPartition batch).toList.foldlM (fun total group => do
        let published ← prim.publishPartition config denylist group.1 group.2
        pure (total + published)) 0 : DaemonProg Nat).Uses ClaimsNothing := by
    refine (callIndex_uses trivial).bind fun batch => Prog.Uses.foldlM (fun total group => ?_) _ _
    exact (publishPartition_uses denylist group.1 group.2).bind fun published => trivial
  refine hcycle.attempt.bind fun answer => ⟨trivial, fun _ => ?_⟩
  cases answer <;> trivial

theorem PublisherTask.uses (task : PublisherTask) : (task.prog prim config).Uses ClaimsNothing := by
  cases task with
  | cycle denylist => exact publishCycle_uses denylist
  | heal => exact healPointerDoc_uses.mono fun _ hop => hop.claimsNothing
  | seed => exact seedLocalRoots_uses.mono fun _ hop => hop.claimsNothing

end Publisher

/-! ## The rules of admission -/

section Rules

variable (prim : Primitives) (lib : Libraries) (config : Config) (faults : Faults)

/-- The records have valid keys and are what validation makes of accepted texts, which are
stored. -/
structure Admits (world : World) : Prop where
  records : ∀ (key : String) (record : IndexRecord), world.index.records[key]? = some record →
    lib.isValidRecordKey key = true ∧ ∃ text createdAt, Accepted lib config text ∧
      utf8 text ∈ world.blobs ∧
      record.binding = (newRecord prim lib config key text createdAt).binding

variable {prim lib config faults} {before after : World}

theorem Admits.empty : Admits prim lib config .empty where
  records key record hrecord := by simp [World.empty, RecordIndex.empty] at hrecord

/-- No record but those that were admitted before. -/
theorem Admits.of_records (hbefore : Admits prim lib config before)
    (hblobs : before.blobs ⊆ after.blobs)
    (hrecords : ∀ (key : String) (record : IndexRecord), after.index.records[key]? = some record →
      ∃ earlier : IndexRecord, before.index.records[key]? = some earlier ∧
        earlier.binding = record.binding) : Admits prim lib config after where
  records key record hrecord := by
    obtain ⟨earlier, hearlier, hbinding⟩ := hrecords key record hrecord
    obtain ⟨hkey, text, createdAt, haccepted, hheld, hnew⟩ := hbefore.records key earlier hearlier
    exact ⟨hkey, text, createdAt, haccepted, hblobs hheld, hbinding.symm.trans hnew⟩

theorem Admits.claimsNothing {op : DaemonOp} {response : daemonSig.Res op} (hop : ClaimsNothing op)
    (hbefore : Admits prim lib config before)
    (hstep : prim.DaemonStep faults op before response after) : Admits prim lib config after := by
  refine hbefore.of_records hstep.blobs_subset fun key record hrecord => ?_
  unfold ClaimsNothing at hop
  split at hop
  next now items status =>
    obtain ⟨rfl, -⟩ | ⟨rfl, -⟩ := hstep.index_cases
    · exact before.index.finish_records hrecord
    · exact ⟨record, hrecord, rfl⟩
  next =>
    rw [(hstep.harmless hop).2.1] at hrecord
    exact ⟨record, hrecord, rfl⟩

variable (prim lib config faults) in
/-- Blobs are kept, and only what was validated is added to the index. -/
def admission : Discipline prim faults where
  bounds _ := True
  inv := Admits prim lib config
  byRequest before after := before.blobs ⊆ after.blobs
  byAny before after := before.blobs ⊆ after.blobs
  byRequest_refl world := List.Subset.refl world.blobs
  byRequest_trans := List.Subset.trans
  byAny_trans := List.Subset.trans
  byAny_of_byRequest hsubset := hsubset
  quiet world activeWrites _ hworld :=
    ⟨⟨hworld.records⟩, List.Subset.refl world.blobs⟩
  stray world blob _ hworld :=
    ⟨hworld.of_records (List.subset_cons_self _ _) fun _ record hrecord => ⟨record, hrecord, rfl⟩,
      List.subset_cons_self _ _⟩
  requeue world key hworld := by
    refine ⟨hworld.of_records (List.Subset.refl world.blobs) fun other record hrecord => ?_,
      List.Subset.refl world.blobs⟩
    obtain heq | ⟨-, -, heq⟩ := world.index.requeue_cases key
    · rw [heq] at hrecord
      exact ⟨record, hrecord, rfl⟩
    · rw [heq] at hrecord
      exact ⟨record, hrecord, rfl⟩

variable (prim lib config faults) in
/-- What a request sees, for calls that only send what was validated. -/
def vettedSetting : Setting daemonSig World :=
  { (admission prim lib config faults).requestSetting with
    sem := fun op before response after =>
      prim.DaemonStep faults op before response after ∧ Vetted lib config op }

theorem vetted_kept {assertion : World → Prop}
    (hstable : ∀ world later : World, world.blobs ⊆ later.blobs → assertion world →
      assertion later) :
    Kept (vettedSetting prim lib config faults) Harmless assertion where
  rely := hstable
  call _ before _ after hop hinv hassertion hsem :=
    ⟨Admits.claimsNothing hop.claimsNothing hinv hsem.1, hsem.1.blobs_subset,
      hstable before after hsem.1.blobs_subset hassertion⟩

variable (prim lib config faults) in
/-- A request knows of the texts it has stored that they were accepted. -/
def admittingRequests : RequestRules (vettedSetting prim lib config faults) prim lib config where
  knows _ stored world := ∀ text ∈ stored, Accepted lib config text ∧ utf8 text ∈ world.blobs
  wrote _ _ _ _ := True
  putFailed _ _ _ := True
  indexFailed _ := True
  quiet := (vetted_kept fun _ _ _ => id).mono fun _ hop => hop.keepsTables.harmless
  keep _ stored := (vetted_kept fun world later hlater hworld text htext =>
    ⟨(hworld text htext).1, hlater (hworld text htext).2⟩).mono fun _ hop =>
      hop.keepsTables.harmless
  put := by
    intro seen stored value before hash after _ hknows hsem text htext
    obtain ⟨⟨blobs, hput, rfl⟩, sent, haccepted, hsent⟩ := hsem
    rcases List.mem_cons.mp htext with rfl | hold
    · obtain rfl := utf8_injective hsent
      rcases hput with ⟨-, rfl⟩ | ⟨-, ⟨error, herror⟩, -⟩
      · exact ⟨haccepted, List.mem_cons_self⟩
      · cases herror
    · exact ⟨(hknows text hold).1, Primitives.StoreStep.subset hput (hknows text hold).2⟩
  putError _ _ _ := trivial
  failedRely _ := id
  failedCall _ := id
  read := by
    intro keys before existing after _ _ hsem
    obtain ⟨rfl, -⟩ := hsem.1.index_ok
    exact ⟨List.length_map _, by simp⟩
  write := by
    intro seen stored submissions before response after hinv hknows hsubmissions hsem
    have hafter : Admits prim lib config after := by
      obtain ⟨rfl, -⟩ | ⟨rfl, -⟩ := hsem.1.index_cases
      · refine ⟨fun key record hrecord => ?_⟩
        rcases before.index.submitMany_records hrecord with hold | hnew
        · exact hinv.records key record hold
        · obtain ⟨text, htext, createdAt, hmade⟩ := hsubmissions _ hnew
          obtain ⟨haccepted, hheld⟩ := hknows text htext
          exact ⟨hsem.2 _ hnew, text, createdAt, haccepted, hheld,
            congrArg IndexRecord.binding hmade⟩
      · exact hinv
    refine ⟨hafter, hsem.1.blobs_subset, fun outcomes houtcomes => ⟨?_, trivial⟩⟩
    subst houtcomes
    rw [hsem.1.index_ok.1]
    exact RecordIndex.submitMany_length _ _
  indexError _ := trivial
  keepWrote _ _ _ := (vetted_kept fun _ _ _ => id).mono fun _ hop => hop ▸ trivial

theorem handle_admits (request : Request) (world : World) :
    (admission prim lib config faults).RequestOk world (handle prim lib config request) := by
  have hvalid : Valid (vettedSetting prim lib config faults) (fun _ _ => True) (fun _ _ => True)
      (handle prim lib config request) world :=
    (admittingRequests prim lib config faults).handle_valid request
      fun text htext => absurd htext List.not_mem_nil
  have hsem : ∀ (op : DaemonOp) before response after, Vetted lib config op →
      (admission prim lib config faults).requestSetting.sem op before response after →
      (vettedSetting prim lib config faults).sem op before response after :=
    fun op before response after hop hstep => ⟨hstep.1, hop⟩
  have hrely : ∀ early late, (admission prim lib config faults).requestSetting.rely early late →
      (vettedSetting prim lib config faults).rely early late := fun _ _ hlater => hlater
  exact Valid.of_calls hrely (fun _ => Iff.rfl) (fun _ _ hguar => hguar) hsem
    (handle_emits request).uses.calls hvalid

theorem task_admits (task : PublisherTask) (world : World) :
    (admission prim lib config faults).PublisherOk world (task.prog prim config) := by
  have hkept :
      Kept (admission prim lib config faults).publisherSetting ClaimsNothing fun _ => True :=
    ⟨fun _ _ _ => id, fun op before response after hop hinv _ hsem =>
      ⟨Admits.claimsNothing hop hinv hsem.1, hsem.1.blobs_subset, trivial⟩⟩
  exact Valid.of_uses hkept task.uses trivial

/-- In every reachable state, every record has a valid key, and its hash, size, partition and
content code are those of a stored text that validation accepted: the text of a JSON object,
within the limit. -/
theorem records_vetted {state : DaemonState} (hreachable : Reachable prim lib config faults state)
    {key : String} {record : IndexRecord}
    (hrecord : state.world.index.records[key]? = some record) :
    lib.isValidRecordKey key = true ∧ ∃ text, Admitted lib text ∧
      (utf8 text).length ≤ config.maxValueBytes ∧ utf8 text ∈ state.world.blobs ∧
      record.contentHash = prim.contentHash text ∧
      record.size = UInt64.ofNat (utf8 text).length ∧
      record.partitionId = prim.partitionIdForKey key config.topLevelPartitions ∧
      record.contentCode = lib.extractFromJson text := by
  have hstate := (Discipline.secure_steps (fun request world _ => handle_admits request world)
    (fun task world _ => task_admits task world) (fun _ _ _ _ => trivial) hreachable trivial
    (Discipline.secure_initial Admits.empty)).1
  obtain ⟨hkey, text, createdAt, haccepted, hheld, hbinding⟩ :=
    hstate.inv.records key record hrecord
  simp only [IndexRecord.binding, newRecord, Prod.mk.injEq] at hbinding
  obtain ⟨hhash, hsize, hpartition, -, hcode⟩ := hbinding
  exact ⟨hkey, text, haccepted.admitted.1, haccepted.admitted.2, hheld, hhash, hsize,
    hpartition, hcode⟩

/-- The first record of the served batch. -/
theorem records_vetted_sample : Sample.lib.isValidRecordKey Sample.firstKey = true ∧
    ∃ text, Admitted Sample.lib text ∧ utf8 text ∈ Sample.served.world.blobs ∧
      (newRecord Sample.prim Sample.lib .default Sample.firstKey Sample.firstValue
        Sample.createdAt).contentHash = Sample.prim.contentHash text := by
  have hrecord : Sample.served.world.index.records[Sample.firstKey]? =
      some (newRecord Sample.prim Sample.lib .default Sample.firstKey Sample.firstValue
        Sample.createdAt) := by decide +kernel
  obtain ⟨hkey, text, hadmitted, -, hheld, hhash, -⟩ :=
    records_vetted (Sample.served_reachable Faults.all) hrecord
  exact ⟨hkey, text, hadmitted, hheld, hhash⟩

end Rules

end Registry

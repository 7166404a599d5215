import Registry.Daemon.Requests
import Registry.Daemon.System

/-! # No accepted record is lost

Whatever the daemon's tasks, faults and crashes do, every pending record stays
queued, every queue row names a record, no record is ever bound anew, and the
value of every record stays in the blob store.
-/

namespace Registry

open Effect

/-- How the world may change: no blob is removed, and the index evolves. -/
structure World.Later (before after : World) : Prop where
  blobs : before.blobs ⊆ after.blobs
  index : before.index.Evolves after.index

theorem World.Later.refl (world : World) : world.Later world :=
  ⟨List.Subset.refl _, RecordIndex.Evolves.refl _⟩

theorem World.Later.trans {first second third : World} (hfirst : first.Later second)
    (hsecond : second.Later third) : first.Later third :=
  ⟨List.Subset.trans hfirst.blobs hsecond.blobs, hfirst.index.trans hsecond.index⟩

/-- The value of a record is among the blobs. -/
def HoldsValue (prim : Primitives) (blobs : Blobs) (record : IndexRecord) : Prop :=
  ∃ blob ∈ blobs, prim.blake3 blob = record.contentHash ∧
    UInt64.ofNat blob.length = record.size

theorem HoldsValue.of_binding_eq {prim : Primitives} {blobs : Blobs} {first second : IndexRecord}
    (hbinding : first.binding = second.binding) (hfirst : HoldsValue prim blobs first) :
    HoldsValue prim blobs second := by
  obtain ⟨blob, hblob, hhash, hsize⟩ := hfirst
  refine ⟨blob, hblob, hhash.trans ?_, hsize.trans ?_⟩
  · exact congrArg Prod.fst hbinding
  · exact congrArg (fun part => part.2.1) hbinding

theorem HoldsValue.mono {prim : Primitives} {small large : Blobs} {record : IndexRecord}
    (hsubset : small ⊆ large) (hsmall : HoldsValue prim small record) :
    HoldsValue prim large record := by
  obtain ⟨blob, hblob, hvalue⟩ := hsmall
  exact ⟨blob, hsubset hblob, hvalue⟩

/-- The index is consistent and holds only records whose value is stored. -/
structure Durable (prim : Primitives) (config : Config) (world : World) : Prop where
  index : RecordIndex.Consistent
    (fun key => prim.partitionIdForKey key config.topLevelPartitions) world.index
  values : ∀ (key : String) (record : IndexRecord), world.index.records[key]? = some record →
    HoldsValue prim world.blobs record

section Steps

variable {prim : Primitives} {lib : Libraries} {config : Config} {faults : Faults}
  {before after : World}

theorem Durable.empty : Durable prim config .empty where
  index := RecordIndex.Consistent.empty
  values key record hrecord := by simp [World.empty, RecordIndex.empty] at hrecord

/-- Operations that leave records and queue alone. -/
def Harmless : DaemonOp → Prop
  | .doc (.setBytes _ _) => True
  | .index (.setLocalRoot _ _) => True
  | op => Primitives.KeepsTables op

theorem Primitives.KeepsTables.harmless {op : DaemonOp} (hop : KeepsTables op) : Harmless op := by
  unfold Harmless
  split
  next => trivial
  next => trivial
  next => exact hop

theorem Primitives.DaemonStep.harmless {op : DaemonOp} {response : daemonSig.Res op}
    (hop : Harmless op) (hstep : prim.DaemonStep faults op before response after) :
    before.blobs ⊆ after.blobs ∧ after.index.records = before.index.records ∧
      after.index.queue = before.index.queue ∧ after.index.nextSeq = before.index.nextSeq := by
  refine ⟨hstep.blobs_subset, ?_⟩
  unfold Harmless at hop
  split at hop
  next name bytes =>
    rcases hstep with ⟨-, rfl⟩ | ⟨-, -, rfl | rfl | rfl⟩ <;> exact ⟨rfl, rfl, rfl⟩
  next partitionId root =>
    obtain ⟨rfl, -⟩ | ⟨rfl, -⟩ := hstep.index_cases <;> exact ⟨rfl, rfl, rfl⟩
  next =>
    obtain ⟨hindex, -⟩ := hstep.keepsTables hop
    rw [hindex]
    exact ⟨rfl, rfl, rfl⟩

/-- The same records and queue, and no fewer blobs. -/
theorem Durable.of_same_tables (hbefore : Durable prim config before)
    (hsame : before.blobs ⊆ after.blobs ∧ after.index.records = before.index.records ∧
      after.index.queue = before.index.queue ∧ after.index.nextSeq = before.index.nextSeq) :
    Durable prim config after ∧ before.Later after := by
  obtain ⟨hblobs, hrecords, hqueue, hseq⟩ := hsame
  refine ⟨⟨⟨?_, ?_, ?_⟩, ?_⟩, hblobs, ?_, ?_, ?_⟩
  · rw [hrecords, hqueue]
    exact hbefore.index.queued
  · rw [hrecords, hqueue, hseq]
    exact hbefore.index.rows
  · rw [hrecords]
    exact hbefore.index.partitions
  · rw [hrecords]
    exact fun key record hrecord => (hbefore.values key record hrecord).mono hblobs
  · rw [hrecords]
    exact fun key record hrecord => ⟨record, hrecord, rfl⟩
  · rw [hseq]
  · rw [hqueue]
    exact fun seq _ => Or.inl rfl

/-- What may be submitted: a record of the key's partition, with its value
stored. -/
def Submittable (prim : Primitives) (config : Config) (world : World)
    (submission : String × IndexRecord) : Prop :=
  submission.2.partitionId = prim.partitionIdForKey submission.1 config.topLevelPartitions ∧
    HoldsValue prim world.blobs submission.2

theorem Durable.submitMany (hbefore : Durable prim config before)
    {submissions : List (String × IndexRecord)}
    (hsubmissions : ∀ submission ∈ submissions, Submittable prim config before submission)
    {response : Except String (List SubmitOutcome)}
    (hstep : prim.DaemonStep faults (.index (.submitMany submissions)) before response after) :
    Durable prim config after ∧ before.Later after := by
  obtain ⟨rfl, -⟩ | ⟨rfl, -⟩ := hstep.index_cases
  · refine ⟨⟨?_, ?_⟩, List.Subset.refl _, before.index.submitMany_evolves submissions⟩
    · exact hbefore.index.submitMany fun submission hmem => (hsubmissions submission hmem).1
    · intro key record hrecord
      rcases before.index.submitMany_records hrecord with hold | hnew
      · exact hbefore.values key record hold
      · exact (hsubmissions _ hnew).2
  · exact ⟨hbefore, World.Later.refl _⟩

theorem Durable.finish (hbefore : Durable prim config before) {now : Timestamp}
    {items : List (Nat × String)} {status : RecordStatus} (hstatus : status ≠ .pending)
    (hitems : ∀ item ∈ items, before.index.RowOf item) {response : Except String Unit}
    (hstep : prim.DaemonStep faults (.index (.finish now items status)) before response after) :
    Durable prim config after ∧ before.Later after := by
  obtain ⟨rfl, -⟩ | ⟨rfl, -⟩ := hstep.index_cases
  · refine ⟨⟨hbefore.index.finish now hstatus hitems, ?_⟩, List.Subset.refl _,
      before.index.finish_evolves now items status⟩
    intro key record hrecord
    obtain ⟨earlier, hearlier, hbinding⟩ := before.index.finish_records hrecord
    exact (hbefore.values key earlier hearlier).of_binding_eq hbinding
  · exact ⟨hbefore, World.Later.refl _⟩

end Steps

/-! ## The rules of durability -/

variable {prim : Primitives} {lib : Libraries} {config : Config} {faults : Faults}

variable (prim config faults) in
/-- Every task keeps the index durable and lets it evolve. -/
def durability : Discipline prim faults where
  bounds _ := True
  inv := Durable prim config
  byRequest := World.Later
  byAny := World.Later
  byRequest_refl := World.Later.refl
  byRequest_trans := World.Later.trans
  byAny_trans := World.Later.trans
  byAny_of_byRequest hlater := hlater
  quiet world activeWrites _ hworld :=
    hworld.of_same_tables ⟨List.Subset.refl _, rfl, rfl, rfl⟩
  stray world blob _ hworld :=
    hworld.of_same_tables ⟨List.subset_cons_self _ _, rfl, rfl, rfl⟩
  requeue world key hworld :=
    ⟨⟨hworld.index.requeue key, fun other record hrecord => by
        obtain heq | ⟨-, -, heq⟩ := world.index.requeue_cases key
        · rw [heq] at hrecord
          exact hworld.values other record hrecord
        · rw [heq] at hrecord
          exact hworld.values other record hrecord⟩,
      List.Subset.refl _, world.index.requeue_evolves key⟩

theorem durability_kept {assertion : World → Prop}
    (hstable : ∀ world later : World, world.Later later → assertion world → assertion later) :
    Kept (durability prim config faults).requestSetting Harmless assertion where
  rely := hstable
  call op before response after hop hinv hassertion hsem := by
    obtain ⟨hafter, hlater⟩ := Durable.of_same_tables hinv (hsem.1.harmless hop)
    exact ⟨hafter, hlater, hstable before after hlater hassertion⟩

/-! ## The publisher's tasks -/

theorem healPointerDoc_uses : healPointerDoc.Uses Harmless := by
  refine (callIndex_uses trivial).bind fun localRoots => Prog.Uses.foldlM (fun healed row => ?_) _ _
  refine ((getPartitionRoot_uses row.1).mono fun _ hop => hop.harmless).attempt.bind fun root => ?_
  match root with
  | .ok (some hash) => trivial
  | .ok none => exact (callDoc_uses trivial).bind fun _ => trivial
  | .error error => exact (callDoc_uses trivial).bind fun _ => trivial

theorem seedLocalRoots_uses : (seedLocalRoots config).Uses Harmless := by
  refine Prog.Uses.foldlM (fun seeded partitionId => ?_) _ _
  refine (callIndex_uses trivial).bind fun known => ?_
  cases known with
  | some root => trivial
  | none =>
      refine ((getPartitionRoot_uses partitionId).mono fun _ hop => hop.harmless).attempt.bind
        fun root => ?_
      match root with
      | .ok (some hash) => exact (callIndex_uses trivial).bind fun _ => trivial
      | .ok none => trivial
      | .error error => trivial

theorem extendPartition_uses (partitionId : Nat) (entries : List LeafEntry) :
    (prim.extendPartition config partitionId entries).Uses Harmless := by
  have hroot : (currentRoot partitionId).Uses Harmless := by
    refine (callIndex_uses trivial).bind fun known => ?_
    cases known with
    | some root => trivial
    | none => exact (getPartitionRoot_uses partitionId).mono fun _ hop => hop.harmless
  refine hroot.bind fun root => ?_
  refine Prog.Uses.bind ((prim.insertBatch_uses root entries _ _).embed fun _ _ => trivial)
    fun newRoot => ?_
  exact (callDoc_uses trivial).bind fun _ => callIndex_uses trivial

/-- Rows that a cycle has read stay the rows it read. -/
theorem finishItems_valid {items : List (Nat × String)} {status : RecordStatus}
    (hstatus : status ≠ .pending) {assertion : World → Prop}
    (hstable : ∀ world later : World, world.Later later → assertion world → assertion later)
    {world : World} (hworld : assertion world)
    (hitems : ∀ item ∈ items, world.index.RowOf item) :
    Valid (durability prim config faults).publisherSetting (fun _ after => assertion after)
      (fun _ _ => True) (finishItems items status) world := by
  unfold finishItems
  split
  next => exact hworld
  next =>
    intro before hbefore hinv now after hnow
    obtain rfl : after = before := hnow.1
    refine ⟨hinv, World.Later.refl _, ?_⟩
    intro middle hmiddle hinvMiddle response last hlast
    have hlater : world.Later middle := World.Later.trans hbefore hmiddle
    obtain ⟨hdurable, hstep⟩ := Durable.finish hinvMiddle hstatus
      (fun item hitem => (hitems item hitem).evolves hlater.index) hlast.1
    refine ⟨hdurable, hstep, ?_⟩
    cases response with
    | error message => trivial
    | ok answer => exact hstable world last (hlater.trans hstep) hworld

theorem publishPartition_valid (denylist : Finset String) (partitionId : Nat)
    {items : List PendingItem} {assertion : World → Prop}
    (hstable : ∀ world later : World, world.Later later → assertion world → assertion later)
    {world : World} (hworld : assertion world)
    (hitems : ∀ item ∈ items, world.index.RowOf (PendingItem.row item)) :
    Valid (durability prim config faults).publisherSetting (fun _ after => assertion after)
      (fun _ _ => True) (prim.publishPartition config denylist partitionId items) world := by
  let kept : World → Prop := fun world => assertion world ∧
    ∀ item ∈ items, world.index.RowOf (PendingItem.row item)
  have hkept : ∀ world later : World, world.Later later → kept world → kept later :=
    fun world later hlater hworld => ⟨hstable world later hlater hworld.1,
      fun item hitem => (hworld.2 item hitem).evolves hlater.index⟩
  have hrows : ∀ {world : World} (p : PendingItem → Bool), kept world →
      ∀ row ∈ (items.filter p).map PendingItem.row, world.index.RowOf row := by
    intro world p hworld row hrow
    obtain ⟨item, hitem, rfl⟩ := List.mem_map.mp hrow
    exact hworld.2 item (List.mem_filter.mp hitem).1
  have hmark : ∀ world, kept world → Valid (durability prim config faults).publisherSetting
      (fun _ after => assertion after) (fun _ _ => True) (do
        markPublished ((items.filter fun item => item.2.1 ∉ denylist).map PendingItem.row)
        markDenylisted ((items.filter fun item => item.2.1 ∈ denylist).map PendingItem.row)
        pure (items.filter fun item => item.2.1 ∉ denylist).length) world := by
    intro world hworld
    apply Valid.bind
    refine Valid.mono ?_ (fun _ _ h => h)
      (finishItems_valid (by decide) hkept hworld (hrows _ hworld))
    intro _ after hafter
    apply Valid.bind
    refine Valid.mono ?_ (fun _ _ h => h)
      (finishItems_valid (by decide) hkept hafter (hrows _ hafter))
    exact fun _ last hlast => hlast.1
  unfold Primitives.publishPartition
  dsimp only
  split
  next =>
    apply Valid.bind
    refine Valid.mono (fun _ after hafter => hmark after hafter) (fun _ _ _ => trivial)
      (Valid.of_uses (durability_kept hkept) (extendPartition_uses partitionId _)
        ⟨hworld, hitems⟩)
  next => exact hmark world ⟨hworld, hitems⟩

theorem publishCycle_valid (denylist : Finset String) (world : World) :
    Valid (durability prim config faults).publisherSetting (fun _ _ => True) (fun _ _ => True)
      (prim.publishCycle config denylist) world := by
  have hquiet : ∀ (op : DaemonOp) {before after : World} {response : daemonSig.Res op},
      Harmless op → (durability prim config faults).inv before →
      (durability prim config faults).sem op before response after →
      (durability prim config faults).inv after ∧ before.Later after :=
    fun _ _ _ _ hop hinv hsem => Durable.of_same_tables hinv (hsem.1.harmless hop)
  apply withWriteGuard_valid
  · intro before response after _ hinv hsem
    obtain ⟨hafter, hlater⟩ := hquiet .beginWrite trivial hinv hsem
    refine ⟨hafter, hlater, ?_⟩
    intro middle _ hinvMiddle batch last hlast
    obtain ⟨hinvLast, hlaterLast⟩ := hquiet (.index (.pendingBatch _)) trivial hinvMiddle hlast
    refine ⟨hinvLast, hlaterLast, ?_⟩
    cases batch with
    | error message => trivial
    | ok batch =>
        -- The rows still to publish are rows that this read of the queue saw.
        let I : List (Nat × List PendingItem) → Nat → World → Prop := fun groups _ world =>
          ∀ group ∈ groups, ∀ item ∈ group.2, world.index.RowOf (PendingItem.row item)
        have hbatch : batch = middle.index.pendingBatch config.publishMaxPending ∧
            last.index = middle.index := by
          obtain ⟨rfl, hresponse | ⟨message, hresponse⟩⟩ | ⟨rfl, message, hresponse⟩ :=
            hlast.1.index_cases
          · exact ⟨Except.ok.inj hresponse, rfl⟩
          · cases hresponse
          · cases hresponse
        have hinit : I (groupByPartition batch).toList 0 last := by
          intro group hgroup item hitem
          rw [(mem_groupByPartition.mp hgroup).1, hbatch.1] at hitem
          have hpending := List.mem_of_mem_take (List.mem_filter.mp hitem).1
          have hrow := (RecordIndex.mem_pendingItems.mp hpending).1
          rw [hbatch.2]
          exact ⟨(hinvMiddle.index.rows _ _ hrow).1, Or.inl hrow⟩
        refine Valid.mono (fun _ _ _ => trivial) (fun _ _ (_ : True) => trivial)
          (Valid.foldlM I ?_ hinit)
        intro group groups total world hworld
        apply Valid.bind
        refine publishPartition_valid denylist group.1 ?_ ?_ (hworld group List.mem_cons_self)
        · intro world later hlater hworld other hother item hitem
          exact (hworld other hother item hitem).evolves hlater.index
        · exact fun other hother => hworld other (List.mem_cons_of_mem _ hother)
  · intro value middle before response after _ _ hinv hsem
    obtain ⟨hafter, hlater⟩ := hquiet .endWrite trivial hinv hsem
    exact ⟨hafter, hlater, trivial⟩
  · intro error middle before response after _ _ hinv hsem
    obtain ⟨hafter, hlater⟩ := hquiet .endWrite trivial hinv hsem
    exact ⟨hafter, hlater, trivial⟩

/-! ## The write requests -/

theorem holdsValue_newRecord {blobs : Blobs} {value : String} (hvalue : utf8 value ∈ blobs)
    (key : String) (createdAt : Timestamp) :
    HoldsValue prim blobs (newRecord prim lib config key value createdAt) :=
  ⟨utf8 value, hvalue, rfl, rfl⟩

variable (prim lib config faults) in
/-- A request claims keys only for values it has stored. -/
def durableRequests :
    RequestRules (durability prim config faults).requestSetting prim lib config where
  knows _ stored world := ∀ value ∈ stored, utf8 value ∈ world.blobs
  wrote _ _ _ _ := True
  putFailed _ _ _ := True
  indexFailed _ := True
  quiet := (durability_kept fun _ _ _ => id).mono fun _ hop => hop.keepsTables.harmless
  keep _ stored := (durability_kept fun world later hlater hworld value hvalue =>
    hlater.blobs (hworld value hvalue)).mono fun _ hop => hop.keepsTables.harmless
  put := by
    intro seen stored value before hash after _ hknows hsem other hother
    obtain ⟨⟨blobs, hput, rfl⟩, -⟩ := hsem
    rcases List.mem_cons.mp hother with rfl | hold
    · rcases hput with ⟨-, rfl⟩ | ⟨-, ⟨error, herror⟩, -⟩
      · exact List.mem_cons_self
      · cases herror
    · exact Primitives.StoreStep.subset hput (hknows other hold)
  putError _ _ _ := trivial
  failedRely _ := id
  failedCall _ := id
  read := by
    intro keys before existing after _ _ hsem
    obtain ⟨-, hresponse | ⟨message, hresponse⟩⟩ | ⟨-, message, hresponse⟩ := hsem.1.index_cases
    · refine ⟨?_, by simp⟩
      rw [Except.ok.inj hresponse]
      exact List.length_map _
    · cases hresponse
    · cases hresponse
  write := by
    intro seen stored submissions before response after hinv hknows hsubmissions hsem
    have hsubmittable : ∀ submission ∈ submissions, Submittable prim config before submission := by
      intro submission hsubmission
      obtain ⟨value, hvalue, createdAt, hrecord⟩ := hsubmissions submission hsubmission
      rw [Submittable, hrecord]
      exact ⟨rfl, holdsValue_newRecord (hknows value hvalue) _ _⟩
    obtain ⟨hafter, hlater⟩ := Durable.submitMany hinv hsubmittable hsem.1
    refine ⟨hafter, hlater, fun outcomes houtcomes => ⟨?_, trivial⟩⟩
    obtain ⟨-, hresponse | ⟨message, hresponse⟩⟩ | ⟨-, message, hresponse⟩ := hsem.1.index_cases
    · rw [hresponse] at houtcomes
      rw [← Except.ok.inj houtcomes]
      exact RecordIndex.submitMany_length _ _
    · rw [hresponse] at houtcomes
      cases houtcomes
    · rw [hresponse] at houtcomes
      cases houtcomes
  indexError _ := trivial
  keepWrote _ _ _ := (durability_kept fun _ _ _ => id).mono fun _ hop => hop ▸ trivial

/-! ## Every run -/

theorem task_durable (task : PublisherTask) (world : World) :
    (durability prim config faults).PublisherOk world (task.prog prim config) := by
  have hkept : Kept (durability prim config faults).publisherSetting Harmless fun _ => True :=
    durability_kept fun _ _ _ => id
  cases task with
  | cycle denylist => exact publishCycle_valid denylist world
  | heal => exact Valid.of_uses hkept healPointerDoc_uses trivial
  | seed => exact Valid.of_uses hkept seedLocalRoots_uses trivial

theorem durable_steps {state later : DaemonState}
    (hreachable : Reachable prim lib config faults state)
    (hsteps : SystemSteps prim lib config faults state later) :
    Durable prim config state.world ∧ state.world.Later later.world := by
  have hhandle : ∀ request world, (durability prim config faults).inv world →
      (durability prim config faults).RequestOk world (handle prim lib config request) :=
    fun request world _ => (durableRequests prim lib config faults).handle_valid request
      (fun value hvalue => absurd hvalue List.not_mem_nil)
  have htask : ∀ (task : PublisherTask) world, (durability prim config faults).inv world →
      (durability prim config faults).PublisherOk world (task.prog prim config) :=
    fun task world _ => task_durable task world
  have hstate := (Discipline.secure_steps hhandle htask (fun _ _ _ _ => trivial) hreachable trivial
    (Discipline.secure_initial Durable.empty)).1
  exact ⟨hstate.inv,
    (Discipline.secure_steps hhandle htask (fun _ _ _ _ => trivial) hsteps trivial hstate).2⟩

/-- In every reachable state, every pending record is queued, every queue row
names a record and is numbered below the counter, every record lies in its key's
partition and keeps what it was bound to in every later state, and its value is
stored. -/
theorem no_accepted_record_lost {state : DaemonState}
    (hreachable : Reachable prim lib config faults state) :
    (∀ (key : String) (record : IndexRecord), state.world.index.records[key]? = some record →
      record.status = .pending → ∃ seq : Nat, state.world.index.queue[seq]? = some key) ∧
    (∀ (seq : Nat) (key : String), state.world.index.queue[seq]? = some key →
      seq < state.world.index.nextSeq ∧
        ∃ record : IndexRecord, state.world.index.records[key]? = some record) ∧
    (∀ (key : String) (record : IndexRecord), state.world.index.records[key]? = some record →
      record.partitionId = prim.partitionIdForKey key config.topLevelPartitions ∧
      ∀ later : DaemonState, SystemSteps prim lib config faults state later →
        ∃ kept : IndexRecord, later.world.index.records[key]? = some kept ∧
          kept.contentHash = record.contentHash ∧ kept.size = record.size ∧
          kept.partitionId = record.partitionId ∧ kept.createdAt = record.createdAt) ∧
    (∀ (key : String) (record : IndexRecord), state.world.index.records[key]? = some record →
      ∃ blob ∈ state.world.blobs, prim.blake3 blob = record.contentHash ∧
        UInt64.ofNat blob.length = record.size) := by
  obtain ⟨hdurable, -⟩ := durable_steps hreachable .refl
  refine ⟨hdurable.index.queued, hdurable.index.rows, fun key record hrecord => ⟨?_, ?_⟩,
    hdurable.values⟩
  · exact hdurable.index.partitions key record hrecord
  · intro later hsteps
    obtain ⟨kept, hkept, hbinding⟩ :=
      (durable_steps hreachable hsteps).2.index.binding key record hrecord
    simp only [IndexRecord.binding, Prod.mk.injEq] at hbinding
    exact ⟨kept, hkept, hbinding.1, hbinding.2.1, hbinding.2.2.1, hbinding.2.2.2.1⟩

/-- After a batch of two records, both are pending and queued. -/
theorem no_accepted_record_lost_sample :
    Sample.served.world.index.records.keys = [Sample.firstKey, Sample.secondKey] ∧
    Sample.served.world.index.records[Sample.firstKey]? =
      some (newRecord Sample.prim Sample.lib .default Sample.firstKey Sample.firstValue
        Sample.createdAt) ∧
    ∃ seq : Nat, Sample.served.world.index.queue[seq]? = some Sample.firstKey := by
  have hkept := no_accepted_record_lost (Sample.served_reachable Faults.all)
  have hrecord : Sample.served.world.index.records[Sample.firstKey]? =
      some (newRecord Sample.prim Sample.lib .default Sample.firstKey Sample.firstValue
        Sample.createdAt) := by decide +kernel
  exact ⟨by decide +kernel, hrecord, hkept.1 Sample.firstKey _ hrecord rfl⟩

end Registry

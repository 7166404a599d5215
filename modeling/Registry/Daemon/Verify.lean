import Mathlib.Data.List.Dedup
import Mathlib.Data.Set.Card
import Registry.Daemon.Alone
import Registry.Text.Lines

/-! # The audit of the published trees

The status flags of the index say which records should be in the trees; the audit
lists what is there. It compares the two partition by partition, and on request puts
every record that is missing from its tree back into the queue, so that the next
cycles insert it.
-/

namespace Registry

open Effect

structure VerifyReport where
  partitionsChecked : Nat
  partitionsWithGaps : Nat
  expectedTotal : Nat
  inTreeTotal : Nat
  missingTotal : Nat
  /-- Keys in a tree that are not published records of its partition. -/
  foreignTotal : Nat
  requeuedTotal : Nat
  deriving DecidableEq, Repr

def VerifyReport.zero : VerifyReport := ⟨0, 0, 0, 0, 0, 0, 0⟩

/-- The partitions of an audit. -/
def audited (config : Config) : Option Nat → List Nat
  | some partitionId => [partitionId]
  | none => List.range config.topLevelPartitions

/-- Enqueue keys again, in the order of a hash set, which is any, and count those that
have a record. -/
def requeueMissing : Nat → List String → Nat → DaemonProg Nat
  | 0, _, requeued => pure requeued
  | _ + 1, [], requeued => pure requeued
  | fuel + 1, first :: others, requeued => do
      let choice ← (DaemonOp.pick others.length).perform
      let known ← callIndex (.requeue ((first :: others).get choice))
      requeueMissing fuel ((first :: others).eraseIdx choice)
        (if known then requeued + 1 else requeued)

/-- The published keys of a partition, from its spill file or by a scan. -/
def expectedKeys (spill : Option (List String)) (partitionId : Nat) : DaemonProg (List String) :=
  match spill with
  | some files => pure (Text.lines (files[partitionId]?.getD "")).dedup
  | none => do
      let keys ← callIndex (.publishedKeysForPartition partitionId)
      pure keys.dedup

namespace Primitives

variable (prim : Primitives)

/-- The keys in the tree at the partition's root, local root first. -/
def keysInTree (partitionId : Nat) : DaemonProg (List String) := do
  match ← currentRoot partitionId with
  | none => pure []
  | some root => do
      let entries ← onStore (prim.walkEntries hashCount root)
      pure (entries.map LeafEntry.key).dedup

def verifyPartition (spill : Option (List String)) (fix : Bool) (report : VerifyReport)
    (partitionId : Nat) : DaemonProg VerifyReport := do
  let expected ← expectedKeys spill partitionId
  let inTree ← prim.keysInTree partitionId
  let missing := expected.filter fun key => key ∉ inTree
  let foreign := inTree.filter fun key => key ∉ expected
  let report := { report with
    partitionsChecked := report.partitionsChecked + 1
    expectedTotal := report.expectedTotal + expected.length
    inTreeTotal := report.inTreeTotal + inTree.length
    foreignTotal := report.foreignTotal + foreign.length }
  if missing = [] then pure report
  else
    let report := { report with
      partitionsWithGaps := report.partitionsWithGaps + 1
      missingTotal := report.missingTotal + missing.length }
    if fix then do
      let requeued ← requeueMissing missing.length missing 0
      pure { report with requeuedTotal := report.requeuedTotal + requeued }
    else pure report

def verify (config : Config) (onlyPartition : Option Nat) (fix : Bool) :
    DaemonProg VerifyReport := do
  -- One pass over the index for a full audit.
  let spill ← match onlyPartition with
    | some _ => pure none
    | none => do
        let files ← callIndex (.spillPublishedKeys config.topLevelPartitions)
        pure (some files)
  (audited config onlyPartition).foldlM (prim.verifyPartition spill fix) .zero

end Primitives

/-! ## What the index expects -/

namespace RecordIndex

variable (index : RecordIndex)

/-- A published record of a partition. -/
def Publishes (partitionId : Nat) (key : String) : Prop :=
  ∃ record : IndexRecord, index.records[key]? = some record ∧ record.status = .published ∧
    record.partitionId = partitionId

theorem mem_publishedKeysForPartition {partitionId : Nat} {key : String} :
    key ∈ index.publishedKeysForPartition partitionId ↔ index.Publishes partitionId key := by
  simp only [publishedKeysForPartition, List.mem_filterMap, Prod.exists,
    Std.ExtTreeMap.mem_toList_iff_getElem?_eq_some, Option.ite_none_right_eq_some,
    Option.some.injEq]
  constructor
  · rintro ⟨other, record, hrecord, ⟨hpartition, hstatus⟩, rfl⟩
    exact ⟨record, hrecord, hstatus, hpartition⟩
  · rintro ⟨record, hrecord, hstatus, hpartition⟩
    exact ⟨key, record, hrecord, ⟨hpartition, hstatus⟩, rfl⟩

/-- A spill file has the published keys of its partition, one a line. -/
theorem getElem?_spillPublishedKeys {partitions partitionId : Nat}
    (hpartition : partitionId < partitions) :
    (index.spillPublishedKeys partitions)[partitionId]? =
      some (Text.unlines (index.publishedKeysForPartition partitionId)) := by
  have hfold : ∀ (rows : List (String × IndexRecord)) (files : List String),
      (rows.foldl (fun files row =>
        if row.2.status = .published ∧ row.2.partitionId < partitions then
          files.modify row.2.partitionId fun text => text ++ row.1 ++ "\n"
        else files) files)[partitionId]? =
      files[partitionId]?.map fun start => (rows.filterMap fun row =>
        if row.2.partitionId = partitionId ∧ row.2.status = .published then some row.1
        else none).foldl (fun text key => text ++ key ++ "\n") start := by
    intro rows
    induction rows with
    | nil => simp
    | cons row rest ih =>
        intro files
        rw [List.foldl_cons, ih]
        by_cases hstatus : row.2.status = .published
        · by_cases hrow : row.2.partitionId = partitionId
          · simp only [hstatus, hrow, hpartition, and_self, if_true, List.getElem?_modify_eq,
              List.filterMap_cons, List.foldl_cons]
            cases files[partitionId]? <;> rfl
          · simp only [hstatus, hrow, true_and, false_and, if_false, List.filterMap_cons]
            split
            · rw [List.getElem?_modify_ne _ _ hrow]
            · rfl
        · simp only [hstatus, false_and, and_false, if_false, List.filterMap_cons]
  refine (hfold index.records.toList (List.replicate partitions "")).trans ?_
  rw [List.getElem?_replicate_of_lt hpartition]
  rfl

end RecordIndex

/-! ## Counting -/

/-- A list of distinct keys has as many as the set that it lists. -/
theorem length_eq_ncard {keys : List String} (hnodup : keys.Nodup) {listed : Set String}
    (hkeys : ∀ key, key ∈ keys ↔ key ∈ listed) : keys.length = listed.ncard := by
  have hcoe : (keys.toFinset : Set String) = listed := by
    ext key
    rw [List.coe_toFinset]
    exact hkeys key
  rw [← hcoe, Set.ncard_coe_finset, List.toFinset_card_of_nodup hnodup]

/-- The keys of some partitions. -/
def rowsOf (partitions : List Nat) (keys : Nat → Set String) : Set (Nat × String) :=
  {row | row.1 ∈ partitions ∧ row.2 ∈ keys row.1}

theorem rowsOf_sdiff (partitions : List Nat) (keys others : Nat → Set String) :
    (rowsOf partitions fun partitionId => keys partitionId \ others partitionId) =
      rowsOf partitions keys \ rowsOf partitions others := by
  ext ⟨partitionId, key⟩
  simp only [rowsOf, Set.mem_ofPred_eq, Set.mem_sdiff]
  tauto

/-- Keys are counted partition by partition. -/
theorem sum_ncard {partitions : List Nat} (hnodup : partitions.Nodup) {keys : Nat → Set String}
    (hfinite : ∀ partitionId ∈ partitions, (keys partitionId).Finite) :
    (rowsOf partitions keys).Finite ∧
      (partitions.map fun partitionId => (keys partitionId).ncard).sum =
        (rowsOf partitions keys).ncard := by
  induction partitions with
  | nil => simp [rowsOf]
  | cons partitionId rest ih =>
      obtain ⟨hfresh, hrest⟩ := List.nodup_cons.mp hnodup
      obtain ⟨hfin, hsum⟩ :=
        ih hrest fun other hother => hfinite other (List.mem_cons_of_mem _ hother)
      have hsplit : rowsOf (partitionId :: rest) keys =
          Prod.mk partitionId '' keys partitionId ∪ rowsOf rest keys := by
        ext ⟨other, key⟩
        simp only [rowsOf, List.mem_cons, Set.mem_ofPred_eq, Set.mem_union, Set.mem_image,
          Prod.mk.injEq]
        constructor
        · rintro ⟨rfl | hother, hkey⟩
          · exact Or.inl ⟨key, hkey, rfl, rfl⟩
          · exact Or.inr ⟨hother, hkey⟩
        · rintro (⟨_, hkey, rfl, rfl⟩ | ⟨hother, hkey⟩)
          · exact ⟨Or.inl rfl, hkey⟩
          · exact ⟨Or.inr hother, hkey⟩
      have hhead := (hfinite partitionId List.mem_cons_self).image (Prod.mk partitionId)
      have hdisjoint : Disjoint (Prod.mk partitionId '' keys partitionId) (rowsOf rest keys) := by
        rw [Set.disjoint_left]
        rintro _ ⟨key, -, rfl⟩ ⟨hmem, -⟩
        exact hfresh hmem
      refine ⟨hsplit ▸ hhead.union hfin, ?_⟩
      rw [hsplit, Set.ncard_union_eq hdisjoint hhead hfin, List.map_cons, List.sum_cons, hsum,
        Set.ncard_image_of_injective _ (Prod.mk_right_injective partitionId)]

/-! ## The audit of one partition -/

/-- The queue has a row for this key, below the counter. -/
def RecordIndex.Queued (index : RecordIndex) (key : String) : Prop :=
  ∃ seq < index.nextSeq, index.queue[seq]? = some key

/-- Neither the roots nor the records have changed. -/
structure Untouched (start world : World) : Prop extends Steady start world where
  records : world.index.records = start.index.records

theorem Untouched.refl (world : World) : Untouched world world :=
  ⟨⟨List.Subset.refl _, rfl, rfl⟩, rfl⟩

theorem Untouched.trans {first second third : World} (hfirst : Untouched first second)
    (hsecond : Untouched second third) : Untouched first third where
  blobs := List.Subset.trans hfirst.blobs hsecond.blobs
  localRoots := hsecond.localRoots.trans hfirst.localRoots
  doc := hsecond.doc.trans hfirst.doc
  records := hsecond.records.trans hfirst.records

theorem SameTables.untouched {before after : World} (hsame : SameTables before after) :
    Untouched before after :=
  ⟨hsame.steady, congrArg RecordIndex.records hsame.index⟩

section Audit

variable {prim : Primitives} {blobUniverse : Set Bytes} {start world : World}

/-- The audit runs alone, and no fault occurs. -/
abbrev auditSetting (prim : Primitives) (blobUniverse : Set Bytes) : Setting daemonSig World :=
  aloneSetting prim .none blobUniverse fun _ => True

/-- A spill file, or a scan of the index, gives the published keys of its partition. -/
theorem expectedKeys_valid {spill : Option (List String)} {partitionId : Nat}
    (huntouched : Untouched start world)
    (hspill : ∀ files ∈ spill, files[partitionId]? =
      some (Text.unlines (start.index.publishedKeysForPartition partitionId)) ∧
      ∀ key, start.index.Publishes partitionId key → Text.IsLine key) :
    Valid (auditSetting prim blobUniverse)
      (fun keys after => SameTables world after ∧ keys.Nodup ∧
        ∀ key, key ∈ keys ↔ start.index.Publishes partitionId key)
      (fun _ _ => False) (expectedKeys spill partitionId) world := by
  have hsame : SameTables world world := ⟨List.Subset.refl _, rfl, rfl⟩
  cases spill with
  | some files =>
      obtain ⟨hfile, hlines⟩ := hspill files rfl
      refine ⟨hsame, List.nodup_dedup _, fun key => ?_⟩
      rw [List.mem_dedup, hfile, Option.getD_some, Text.lines_unlines,
        start.index.mem_publishedKeysForPartition]
      exact fun item hitem => hlines item (start.index.mem_publishedKeysForPartition.mp hitem)
  | none =>
      apply Valid.bind
      apply callIndex_alone
      refine fun _ => ⟨trivial, hsame, List.nodup_dedup _, fun key => ?_⟩
      rw [List.mem_dedup]
      refine world.index.mem_publishedKeysForPartition.trans ?_
      rw [RecordIndex.Publishes, huntouched.records]
      rfl

/-- The walk from the current root finds the keys of the tree. -/
theorem keysInTree_valid (hfree : prim.CollisionFree blobUniverse) {partitionId : Nat}
    {localRoot docRoot : Option Hash} {trie : HamtTrie}
    (hrooted : Rooted (.readback prim) partitionId localRoot docRoot trie world) :
    Valid (auditSetting prim blobUniverse)
      (fun keys after => SameTables world after ∧ keys.Nodup ∧
        ∀ key, key ∈ keys ↔ prim.scheme.HasKey key trie)
      (fun _ _ => False) (prim.keysInTree partitionId) world := by
  let assertion : World → Prop := fun later =>
    SameTables world later ∧ ∀ blob ∈ later.blobs, blob ∈ blobUniverse
  have hkept : Kept (auditSetting prim blobUniverse) TreeOp assertion := by
    refine (aloneSetting_kept (fun _ _ _ _ => trivial) ?_).mono fun op hop => hop.keepsTables
    exact fun before after hstep hblobs hsame => ⟨hsame.1.trans hstep, hblobs⟩
  have hsem : ∀ op before response after, (auditSetting prim blobUniverse).sem op before response
      after → prim.DaemonStep .none op before response after := fun _ _ _ _ hstep => hstep.1
  have hwithin : ∀ world, (auditSetting prim blobUniverse).inv world →
      ∀ blob ∈ world.blobs, blob ∈ blobUniverse := fun _ hinv => hinv.1
  have hcall : ∃ op next, prim.keysInTree partitionId = .call op next := ⟨_, _, rfl⟩
  apply Valid.of_inv hcall
  rintro before rfl ⟨hblobs, -⟩
  apply Valid.bind
  refine Valid.mono ?_ ?_ (currentRoot_valid hfree hsem hwithin hkept
    (fun _ hsame => (hrooted.steady hsame.1.steady).known)
    (fun hnone _ hsame => (hrooted.steady hsame.1.steady).named hnone)
    ⟨.refl world, hblobs⟩)
  rotate_left
  · rintro error after ⟨-, hfault | hfault | hfault⟩ <;> exact hfault
  rintro root after ⟨hsame, rfl⟩
  have hreads : prim.Reads after.blobs trie (localRoot.or docRoot) :=
    (hrooted.steady hsame.1.steady).names
  cases hroot : localRoot.or docRoot with
  | none =>
      rw [hroot] at hreads
      obtain rfl := (Primitives.Naming.readback prim).eq_empty hreads
      exact ⟨hsame.1, List.nodup_nil, by simp [BucketTrie.Scheme.HasKey, BucketTrie.Trie.Mem]⟩
  | some root =>
      rw [hroot] at hreads
      have hafter : prim.CollisionFree {held | held ∈ after.blobs} := hfree.mono hsame.2
      have hwalk : Valid (prim.storeSetting Faults.none.store blobUniverse) _ _
          (prim.walkEntries hashCount root) after.blobs :=
        Primitives.walkEntries_valid hfree hafter (hreads.height_le hafter) hreads
      apply Valid.bind
      refine Valid.mono ?_ ?_ (onStore_valid hsem hwithin hkept
        (fun early late hlate => hlate ▸ List.Subset.refl _) hsame hwalk)
      · rintro entries last ⟨hlast, -, hentries⟩
        refine ⟨hlast.1, List.nodup_dedup _, fun key => ?_⟩
        rw [List.mem_dedup, List.mem_map]
        exact exists_congr fun entry => and_congr_left fun _ => hentries entry
      · rintro error last ⟨-, inner, -, hfault⟩
        exact hfault

/-- A key with a record is queued, and nothing that was queued is disturbed. -/
theorem requeue_alone {key : String} {queued : String → Prop} {record : IndexRecord}
    (hrecord : world.index.records[key]? = some record)
    (hqueued : ∀ other, queued other → world.index.Queued other) :
    Valid (auditSetting prim blobUniverse)
      (fun known after => known = true ∧ Untouched world after ∧
        ∀ other, queued other ∨ other = key → after.index.Queued other)
      (fun _ _ => False) (callIndex (.requeue key)) world := by
  apply callIndex_alone
  obtain heq | ⟨-, -, heq⟩ := world.index.requeue_cases key
  · rw [RecordIndex.requeue, hrecord] at heq
    cases heq
  · simp only [IndexOp.commit, heq]
    refine fun _ => ⟨trivial, trivial, ⟨⟨List.Subset.refl _, rfl, rfl⟩, rfl⟩, ?_⟩
    rintro other (hother | rfl)
    · obtain ⟨seq, hseq, hrow⟩ := hqueued other hother
      have hne : world.index.nextSeq ≠ seq := by omega
      refine ⟨seq, by dsimp only; omega, ?_⟩
      simpa only [Std.ExtTreeMap.getElem?_insert, Std.compare_eq_iff_eq, if_neg hne] using hrow
    · exact ⟨world.index.nextSeq, Nat.lt_succ_self _, by simp⟩

/-- Every key on the list is queued and counted. -/
theorem requeueMissing_valid {fuel : Nat} {missing : List String} (hfuel : missing.length ≤ fuel)
    {queued : String → Prop} (hqueued : ∀ other, queued other → world.index.Queued other)
    (hrecords : ∀ key ∈ missing, ∃ record, world.index.records[key]? = some record)
    (requeued : Nat) :
    Valid (auditSetting prim blobUniverse)
      (fun count after => count = requeued + missing.length ∧ Untouched world after ∧
        ∀ other, queued other ∨ other ∈ missing → after.index.Queued other)
      (fun _ _ => False) (requeueMissing fuel missing requeued) world := by
  induction fuel generalizing missing queued requeued world with
  | zero =>
      obtain rfl : missing = [] := List.eq_nil_of_length_eq_zero (Nat.le_zero.mp hfuel)
      exact ⟨rfl, .refl world, fun other hother => hother.elim (hqueued other) (by simp)⟩
  | succ fuel ih =>
      cases missing with
      | nil => exact ⟨rfl, .refl world, fun other hother => hother.elim (hqueued other) (by simp)⟩
      | cons first others =>
          rintro before rfl hinv choice after ⟨hstep, hblobs⟩
          obtain rfl : after = world := hstep
          refine ⟨hinv, trivial, ?_⟩
          obtain ⟨record, hrecord⟩ := hrecords _ (List.get_mem (first :: others) choice)
          change Valid _ _ _ (callIndex _ >>= _) after
          apply Valid.bind
          refine Valid.mono ?_ (fun _ _ h => h) (requeue_alone hrecord hqueued)
          rintro known middle ⟨rfl, hmiddle, hkept⟩
          have hlength : ((first :: others).eraseIdx choice).length = others.length := by
            rw [List.length_eraseIdx_of_lt choice.isLt]
            rfl
          refine Valid.mono ?_ (fun _ _ h => h) (ih (by simpa [hlength] using hfuel) hkept ?_ _)
          · rintro count last ⟨rfl, hlast, hall⟩
            refine ⟨?_, hmiddle.trans hlast, fun other hother => ?_⟩
            · rw [hlength, if_pos rfl, List.length_cons]
              omega
            · rcases hother with hother | hother
              · exact hall other (Or.inl (Or.inl hother))
              · obtain ⟨place, hplace, rfl⟩ := List.getElem_of_mem hother
                by_cases hsame : place = choice
                · subst hsame
                  exact hall _ (Or.inl (Or.inr rfl))
                · exact hall _ (Or.inr (List.mem_eraseIdx_iff_getElem.mpr
                    ⟨place, hplace, hsame, rfl⟩))
          · intro key hkey
            rw [hmiddle.records]
            exact hrecords key (List.mem_of_mem_eraseIdx hkey)

/-- What the audit has found out about the partitions it has done. -/
structure Audited (start : World) (expected inTree : Nat → Set String) (fix : Bool)
    (done : List Nat) (report : VerifyReport) (world : World) : Prop
    extends Untouched start world where
  expectedTotal : report.expectedTotal =
    (done.map fun partitionId => (expected partitionId).ncard).sum
  inTreeTotal : report.inTreeTotal =
    (done.map fun partitionId => (inTree partitionId).ncard).sum
  missingTotal : report.missingTotal =
    (done.map fun partitionId => (expected partitionId \ inTree partitionId).ncard).sum
  foreignTotal : report.foreignTotal =
    (done.map fun partitionId => (inTree partitionId \ expected partitionId).ncard).sum
  requeuedTotal : fix = true → report.requeuedTotal = report.missingTotal
  queued : fix = true → ∀ partitionId ∈ done,
    ∀ key ∈ expected partitionId \ inTree partitionId, world.index.Queued key

theorem verifyPartition_valid (hfree : prim.CollisionFree blobUniverse) {fix : Bool}
    {expected inTree : Nat → Set String} {done : List Nat} {report : VerifyReport}
    (haudited : Audited start expected inTree fix done report world)
    {spill : Option (List String)} {partitionId : Nat}
    (hexpected : ∀ key, key ∈ expected partitionId ↔ start.index.Publishes partitionId key)
    (hspill : ∀ files ∈ spill, files[partitionId]? =
      some (Text.unlines (start.index.publishedKeysForPartition partitionId)) ∧
      ∀ key, start.index.Publishes partitionId key → Text.IsLine key)
    {localRoot docRoot : Option Hash} {trie : HamtTrie}
    (hrooted : Rooted (.readback prim) partitionId localRoot docRoot trie start)
    (hinTree : ∀ key, key ∈ inTree partitionId ↔ prim.scheme.HasKey key trie) :
    Valid (auditSetting prim blobUniverse)
      (fun report after => Audited start expected inTree fix (done ++ [partitionId]) report after)
      (fun _ _ => False) (prim.verifyPartition spill fix report partitionId) world := by
  apply Valid.bind
  refine Valid.mono ?_ (fun _ _ h => h) (expectedKeys_valid haudited.toUntouched hspill)
  rintro keys early ⟨hearly, hkeysNodup, hkeys⟩
  have hsteady := haudited.toUntouched.trans hearly.untouched
  apply Valid.bind
  refine Valid.mono ?_ (fun _ _ h => h) (keysInTree_valid hfree (hrooted.steady hsteady.toSteady))
  rintro found late ⟨hlate, hfoundNodup, hfound⟩
  have huntouched := hsteady.trans hlate.untouched
  have hindex : late.index = world.index := hlate.index.trans hearly.index
  have hqueued : ∀ key, (fix = true ∧ ∃ other ∈ done, key ∈ expected other \ inTree other) →
      late.index.Queued key := by
    rintro key ⟨hfix, other, hother, hkey⟩
    exact hindex ▸ haudited.queued hfix other hother key hkey
  have hexpectedCount : keys.length = (expected partitionId).ncard :=
    length_eq_ncard hkeysNodup fun key => (hkeys key).trans (hexpected key).symm
  have hinTreeCount : found.length = (inTree partitionId).ncard :=
    length_eq_ncard hfoundNodup fun key => (hfound key).trans (hinTree key).symm
  have hmissing : ∀ key, key ∈ keys.filter (fun key => key ∉ found) ↔
      key ∈ expected partitionId \ inTree partitionId := by
    intro key
    rw [List.mem_filter, decide_eq_true_eq, hkeys, hfound, Set.mem_sdiff, hexpected, hinTree]
  have hmissingCount := length_eq_ncard (hkeysNodup.filter _) hmissing
  have hforeignCount : (found.filter fun key => key ∉ keys).length =
      (inTree partitionId \ expected partitionId).ncard := by
    refine length_eq_ncard (hfoundNodup.filter _) fun key => ?_
    rw [List.mem_filter, decide_eq_true_eq, hkeys, hfound, Set.mem_sdiff, hexpected, hinTree]
  have hsum : ∀ count : Nat → Nat, ((done ++ [partitionId]).map count).sum =
      (done.map count).sum + count partitionId := by
    intro count
    rw [List.map_append, List.sum_append, List.map_singleton, List.sum_singleton]
  have hcounts : report.expectedTotal + keys.length =
        ((done ++ [partitionId]).map fun partitionId => (expected partitionId).ncard).sum ∧
      report.inTreeTotal + found.length =
        ((done ++ [partitionId]).map fun partitionId => (inTree partitionId).ncard).sum ∧
      report.foreignTotal + (found.filter fun key => key ∉ keys).length =
        ((done ++ [partitionId]).map fun partitionId =>
          (inTree partitionId \ expected partitionId).ncard).sum := by
    rw [hsum, hsum, hsum, haudited.expectedTotal, haudited.inTreeTotal, haudited.foreignTotal,
      hexpectedCount, hinTreeCount, hforeignCount]
    exact ⟨rfl, rfl, rfl⟩
  have hmissingSum : report.missingTotal + (keys.filter fun key => key ∉ found).length =
      ((done ++ [partitionId]).map fun partitionId =>
        (expected partitionId \ inTree partitionId).ncard).sum := by
    rw [hsum, haudited.missingTotal, hmissingCount]
  change Valid _ _ _ (ite _ _ _) late
  split
  next hnone =>
    rw [hnone] at hmissing hmissingSum
    refine ⟨huntouched, hcounts.1, hcounts.2.1, hmissingSum, hcounts.2.2,
      haudited.requeuedTotal, ?_⟩
    intro hfix other hother key hkey
    rcases List.mem_append.mp hother with hold | hnew
    · exact hqueued key ⟨hfix, other, hold, hkey⟩
    · obtain rfl := List.mem_singleton.mp hnew
      exact absurd ((hmissing key).mpr hkey) List.not_mem_nil
  next =>
    cases fix with
    | false =>
        exact ⟨huntouched, hcounts.1, hcounts.2.1, hmissingSum, hcounts.2.2, nofun, nofun⟩
    | true =>
        have hrecords : ∀ key ∈ keys.filter (fun key => key ∉ found),
            ∃ record, late.index.records[key]? = some record := by
          intro key hkey
          obtain ⟨record, hrecord, -⟩ := (hkeys key).mp (List.mem_of_mem_filter hkey)
          exact ⟨record, by rw [huntouched.records, hrecord]⟩
        apply Valid.bind
        refine Valid.mono ?_ (fun _ _ h => h) (requeueMissing_valid le_rfl hqueued hrecords 0)
        rintro count last ⟨rfl, hlast, hall⟩
        refine ⟨huntouched.trans hlast, hcounts.1, hcounts.2.1, hmissingSum, hcounts.2.2, ?_, ?_⟩
        · intro _
          have hrequeued := haudited.requeuedTotal rfl
          dsimp only
          omega
        · intro _ other hother key hkey
          rcases List.mem_append.mp hother with hold | hnew
          · exact hall key (Or.inl ⟨rfl, other, hold, hkey⟩)
          · obtain rfl := List.mem_singleton.mp hnew
            exact hall key (Or.inr ((hmissing key).mpr hkey))

end Audit

/-! ## The full audit -/

/-- The tree at the partition's current root has an entry with this key. -/
def HoldsKey (prim : Primitives) (world : World) (partitionId : Nat) (key : String) : Prop :=
  ∃ localRoot docRoot trie, Rooted (.readback prim) partitionId localRoot docRoot trie world ∧
    prim.scheme.HasKey key trie

/-- Every partition's current root leads to a tree that can be read. -/
def AllReadable (prim : Primitives) (world : World) : Prop :=
  ∀ partitionId, ∃ localRoot docRoot trie,
    Rooted (.readback prim) partitionId localRoot docRoot trie world

/-- The audit of these partitions, as the tables and the trees were at its start. -/
abbrev AuditOf (prim : Primitives) (start : World) (fix : Bool) (done : List Nat)
    (report : VerifyReport) (world : World) : Prop :=
  Audited start (fun partitionId => {key | start.index.Publishes partitionId key})
    (fun partitionId => {key | HoldsKey prim start partitionId key}) fix done report world

/-- The published records of some partitions, by partition and key. -/
def publishedRows (partitions : List Nat) (world : World) : Set (Nat × String) :=
  rowsOf partitions fun partitionId => {key | world.index.Publishes partitionId key}

/-- The keys in the trees of some partitions. -/
def treeRows (prim : Primitives) (partitions : List Nat) (world : World) : Set (Nat × String) :=
  rowsOf partitions fun partitionId => {key | HoldsKey prim world partitionId key}

theorem Rooted.holdsKey_iff {prim : Primitives} {world : World}
    (hfree : prim.CollisionFree {held | held ∈ world.blobs}) {partitionId : Nat}
    {localRoot docRoot : Option Hash} {trie : HamtTrie}
    (hrooted : Rooted (.readback prim) partitionId localRoot docRoot trie world) (key : String) :
    HoldsKey prim world partitionId key ↔ prim.scheme.HasKey key trie := by
  constructor
  · rintro ⟨otherRoot, otherDoc, other, hother, hkey⟩
    exact hrooted.unique hfree hother ▸ hkey
  · exact fun hkey => ⟨localRoot, docRoot, trie, hrooted, hkey⟩

section FullAudit

variable {prim : Primitives} {config : Config} {onlyPartition : Option Nat} {world : World}

theorem verify_valid {blobUniverse : Set Bytes} (hfree : prim.CollisionFree blobUniverse)
    (hreadable : AllReadable prim world) (hblobs : ∀ blob ∈ world.blobs, blob ∈ blobUniverse)
    (hlines : onlyPartition = none → ∀ partitionId < config.topLevelPartitions, ∀ key,
      world.index.Publishes partitionId key → Text.IsLine key) (fix : Bool) :
    Valid (auditSetting prim blobUniverse)
      (fun report after => AuditOf prim world fix (audited config onlyPartition) report after)
      (fun _ _ => False) (prim.verify config onlyPartition fix) world := by
  have hloop : ∀ (spill : Option (List String)) (early : World), SameTables world early →
      (∀ files ∈ spill, ∀ partitionId ∈ audited config onlyPartition, files[partitionId]? =
        some (Text.unlines (world.index.publishedKeysForPartition partitionId)) ∧
        ∀ key, world.index.Publishes partitionId key → Text.IsLine key) →
      Valid (auditSetting prim blobUniverse)
        (fun report after => AuditOf prim world fix (audited config onlyPartition) report after)
        (fun _ _ => False)
        ((audited config onlyPartition).foldlM (prim.verifyPartition spill fix) .zero) early := by
    intro spill early hearly hspill
    let I : List Nat → VerifyReport → World → Prop := fun rest report later =>
      ∃ done, audited config onlyPartition = done ++ rest ∧ AuditOf prim world fix done report later
    have hinit : I (audited config onlyPartition) .zero early :=
      ⟨[], rfl, hearly.untouched, rfl, rfl, rfl, rfl, fun _ => rfl, by simp⟩
    refine Valid.mono ?_ (fun _ _ h => h) (Valid.foldlM I ?_ hinit)
    · rintro report last ⟨done, hdone, haudited⟩
      rwa [hdone, List.append_nil]
    · rintro partitionId rest report later ⟨done, hdone, haudited⟩
      have hmem : partitionId ∈ audited config onlyPartition := by simp [hdone]
      obtain ⟨localRoot, docRoot, trie, hrooted⟩ := hreadable partitionId
      refine Valid.mono ?_ (fun _ _ h => h) (verifyPartition_valid hfree haudited
        (fun key => Iff.rfl) (fun files hfiles => hspill files hfiles partitionId hmem) hrooted
        (hrooted.holdsKey_iff (hfree.mono hblobs)))
      rintro next last hnext
      exact ⟨done ++ [partitionId], by simp [hdone], hnext⟩
  cases onlyPartition with
  | some partitionId => exact hloop none world (.refl world) (by simp)
  | none =>
      apply Valid.bind
      apply callIndex_alone
      refine fun _ => ⟨trivial, hloop _ _ (.refl world) ?_⟩
      intro files hfiles partitionId hpartition
      obtain rfl := Option.some.inj hfiles
      have hlt : partitionId < config.topLevelPartitions := List.mem_range.mp hpartition
      exact ⟨world.index.getElem?_spillPublishedKeys hlt, hlines rfl partitionId hlt⟩

/-- How an audit ends. -/
theorem verify_outcome (hreadable : AllReadable prim world)
    (hlines : onlyPartition = none → ∀ partitionId < config.topLevelPartitions, ∀ key,
      world.index.Publishes partitionId key → Text.IsLine key) {fix : Bool} {after : World}
    {outcome : Prog.Outcome DaemonError VerifyReport}
    (hruns : Prog.Runs (prim.DaemonStep .none) (prim.verify config onlyPartition fix) world outcome
      after) (hfree : prim.CollisionFree {held | held ∈ after.blobs}) :
    ∃ report, outcome = .ok report ∧
      AuditOf prim world fix (audited config onlyPartition) report after := by
  have hmeets := aloneSetting_outcome (verify_valid hfree hreadable
    (Primitives.blobs_subset_of_visits hruns.visits) hlines fix) hruns (fun _ h => h) trivial
  cases outcome with
  | ok report => exact ⟨report, rfl, hmeets⟩
  | error error => exact hmeets.elim
  | diverged => exact hmeets.elim

/-- The numbers of an audit, by the sets that they count. -/
theorem AuditOf.counts {fix : Bool} {partitions : List Nat} {report : VerifyReport} {after : World}
    (hfree : prim.CollisionFree {held | held ∈ world.blobs}) (hreadable : AllReadable prim world)
    (hpartitions : partitions.Nodup) (haudit : AuditOf prim world fix partitions report after) :
    report.expectedTotal = (publishedRows partitions world).ncard ∧
      report.inTreeTotal = (treeRows prim partitions world).ncard ∧
      report.missingTotal =
        (publishedRows partitions world \ treeRows prim partitions world).ncard ∧
      report.foreignTotal =
        (treeRows prim partitions world \ publishedRows partitions world).ncard ∧
      report.expectedTotal - report.missingTotal = report.inTreeTotal - report.foreignTotal := by
  have hpublished : ∀ partitionId ∈ partitions,
      {key | world.index.Publishes partitionId key}.Finite := by
    intro partitionId _
    refine (List.finite_toSet (world.index.publishedKeysForPartition partitionId)).subset ?_
    exact fun key hkey => world.index.mem_publishedKeysForPartition.mpr hkey
  have htrees : ∀ partitionId ∈ partitions, {key | HoldsKey prim world partitionId key}.Finite := by
    intro partitionId _
    obtain ⟨localRoot, docRoot, trie, hrooted⟩ := hreadable partitionId
    refine (prim.scheme.finite_hasKey trie).subset ?_
    exact fun key hkey => (hrooted.holdsKey_iff hfree key).mp hkey
  obtain ⟨hexpectedFinite, hexpected⟩ := sum_ncard hpartitions hpublished
  obtain ⟨hinTreeFinite, hinTree⟩ := sum_ncard hpartitions htrees
  have hmissing := (sum_ncard hpartitions fun partitionId hmem =>
    (hpublished partitionId hmem).sdiff (t := {key | HoldsKey prim world partitionId key})).2
  have hforeign := (sum_ncard hpartitions fun partitionId hmem =>
    (htrees partitionId hmem).sdiff (t := {key | world.index.Publishes partitionId key})).2
  rw [rowsOf_sdiff] at hmissing hforeign
  have hexpectedTotal := haudit.expectedTotal.trans hexpected
  have hinTreeTotal := haudit.inTreeTotal.trans hinTree
  have hmissingTotal := haudit.missingTotal.trans hmissing
  have hforeignTotal := haudit.foreignTotal.trans hforeign
  refine ⟨hexpectedTotal, hinTreeTotal, hmissingTotal, hforeignTotal, ?_⟩
  have hboth := Set.ncard_inter_add_ncard_sdiff_eq_ncard (publishedRows partitions world)
    (treeRows prim partitions world) hexpectedFinite
  have hboth' := Set.ncard_inter_add_ncard_sdiff_eq_ncard (treeRows prim partitions world)
    (publishedRows partitions world) hinTreeFinite
  rw [Set.inter_comm] at hboth'
  rw [hexpectedTotal, hinTreeTotal, hmissingTotal, hforeignTotal]
  simp only [publishedRows, treeRows] at hboth hboth' ⊢
  omega

end FullAudit

end Registry

import Registry.Daemon.Verify

/-! # Repair through the queue

What the audit puts back into the queue, the next cycles insert: a cycle keeps
every published record in its tree or in the queue, whatever the trees look like. When
the queue has run empty, no published record is missing.
-/

namespace Registry

open Effect

/-- A published record of these partitions is in its tree, or the queue has a row for
it. -/
def Repaired (prim : Primitives) (partitions : List Nat) (world : World) : Prop :=
  ∀ partitionId ∈ partitions, ∀ key, world.index.Publishes partitionId key →
    HoldsKey prim world partitionId key ∨ ∃ seq : Nat, world.index.queue[seq]? = some key

/-- Rows of one partition that a cycle has read: each is still there or has been
dropped, and its record is one of the partition. -/
def Due (world : World) (group : Nat × List PendingItem) : Prop :=
  ∀ item ∈ group.2,
    (world.index.queue[item.1]? = some item.2.1 ∨ world.index.queue[item.1]? = none) ∧
      ∃ record : IndexRecord, world.index.records[item.2.1]? = some record ∧
        record.partitionId = group.1

section Repair

variable {prim : Primitives} {partitions : List Nat} {partitionId : Nat}
  {before after world : World}

theorem HoldsKey.steady (hsteady : Steady before after) {key : String}
    (hholds : HoldsKey prim before partitionId key) : HoldsKey prim after partitionId key := by
  obtain ⟨localRoot, docRoot, trie, hrooted, hkey⟩ := hholds
  exact ⟨localRoot, docRoot, trie, hrooted.steady hsteady, hkey⟩

theorem AllReadable.steady (hsteady : Steady before after) (hreadable : AllReadable prim before) :
    AllReadable prim after := by
  intro partitionId
  obtain ⟨localRoot, docRoot, trie, hrooted⟩ := hreadable partitionId
  exact ⟨localRoot, docRoot, trie, hrooted.steady hsteady⟩

section Moves

variable {root : Hash} {grown : HamtTrie}
  (hgrown : prim.Reads world.blobs grown (some root))
  (hkeys : ∀ key, HoldsKey prim world partitionId key → prim.scheme.HasKey key grown)

include hgrown

theorem AllReadable.setDoc (hreadable : AllReadable prim world) :
    AllReadable prim (prim.setDocBytes world (.partition partitionId) root.bytes.toList) := by
  intro other
  obtain ⟨localRoot, docRoot, trie, hrooted⟩ := hreadable other
  by_cases hother : partitionId = other
  · subst hother
    cases localRoot with
    | some known => exact ⟨_, _, _, hrooted.setDoc_known _ _⟩
    | none => exact ⟨_, _, _, Rooted.setDoc_adopted hrooted.known hgrown⟩
  · exact ⟨_, _, _, hrooted.setDoc_other hother _⟩

theorem AllReadable.setLocal (hreadable : AllReadable prim world) :
    AllReadable prim (world.setLocalRoot partitionId root) := by
  intro other
  obtain ⟨localRoot, docRoot, trie, hrooted⟩ := hreadable other
  by_cases hother : partitionId = other
  · subst hother
    exact ⟨_, none, _, Rooted.setLocal none hgrown⟩
  · exact ⟨_, _, _, hrooted.setLocal_other hother root⟩

include hkeys

/-- Moving the pointer document to a larger tree loses no key. -/
theorem HoldsKey.setDoc {other : Nat} {key : String} (hholds : HoldsKey prim world other key) :
    HoldsKey prim (prim.setDocBytes world (.partition partitionId) root.bytes.toList)
      other key := by
  obtain ⟨localRoot, docRoot, trie, hrooted, hkey⟩ := hholds
  by_cases hother : partitionId = other
  · subst hother
    cases localRoot with
    | some known => exact ⟨_, _, _, hrooted.setDoc_known _ _, hkey⟩
    | none =>
        exact ⟨_, _, _, Rooted.setDoc_adopted hrooted.known hgrown,
          hkeys key ⟨_, _, _, hrooted, hkey⟩⟩
  · exact ⟨_, _, _, hrooted.setDoc_other hother _, hkey⟩

theorem HoldsKey.setLocal {other : Nat} {key : String} (hholds : HoldsKey prim world other key) :
    HoldsKey prim (world.setLocalRoot partitionId root) other key := by
  obtain ⟨localRoot, docRoot, trie, hrooted, hkey⟩ := hholds
  by_cases hother : partitionId = other
  · subst hother
    exact ⟨_, none, _, Rooted.setLocal none hgrown, hkeys key ⟨_, _, _, hrooted, hkey⟩⟩
  · exact ⟨_, _, _, hrooted.setLocal_other hother root, hkey⟩

end Moves

theorem Due.sameTables {group : Nat × List PendingItem} (hsame : SameTables before after)
    (hdue : Due before group) : Due after group := by
  rw [Due, hsame.index]
  exact hdue

theorem Due.finish {group : Nat × List PendingItem} (hdue : Due world group) (now : Timestamp)
    (rows : List (Nat × String)) (status : RecordStatus) :
    Due (world.finish now rows status) group := by
  intro item hitem
  obtain ⟨hrow, record, hrecord, hpartition⟩ := hdue item hitem
  constructor
  · rw [RecordIndex.getElem?_finish_queue]
    split
    · exact Or.inr rfl
    · exact hrow
  · rw [RecordIndex.getElem?_finish_records, hrecord]
    split
    · exact ⟨_, rfl, hpartition⟩
    · exact ⟨_, rfl, hpartition⟩

/-- Finishing rows keeps every published record in its tree or in the queue, if the
records that are now published are in theirs. -/
theorem Repaired.finish (hrepaired : Repaired prim partitions world)
    {items : List PendingItem} (hdue : Due world (partitionId, items)) (now : Timestamp)
    {status : RecordStatus} {chosen : List PendingItem} (hchosen : chosen ⊆ items)
    (hholds : status = .published → ∀ item ∈ chosen, HoldsKey prim world partitionId item.2.1) :
    Repaired prim partitions (world.finish now (chosen.map PendingItem.row) status) := by
  have hsteady := steady_finish world now (chosen.map PendingItem.row) status
  rintro other hother key ⟨record, hrecord, hstatus, hpartition⟩
  rw [RecordIndex.getElem?_finish_records] at hrecord
  by_cases hkey : key ∈ (chosen.map PendingItem.row).map Prod.snd
  · rw [if_pos hkey] at hrecord
    obtain ⟨earlier, hearlier, rfl⟩ := Option.map_eq_some_iff.mp hrecord
    rw [List.map_map] at hkey
    obtain ⟨item, hitem, rfl⟩ := List.mem_map.mp hkey
    obtain ⟨-, present, hpresent, rfl⟩ := hdue item (hchosen hitem)
    obtain rfl : present = earlier := Option.some.inj (hpresent.symm.trans hearlier)
    refine Or.inl ?_
    rw [← hpartition]
    exact (hholds hstatus item hitem).steady hsteady
  · rw [if_neg hkey] at hrecord
    rcases hrepaired other hother key ⟨record, hrecord, hstatus, hpartition⟩
        with hheld | ⟨seq, hrow⟩
    · exact Or.inl (hheld.steady hsteady)
    · refine Or.inr ⟨seq, ?_⟩
      rw [RecordIndex.getElem?_finish_queue, if_neg, hrow]
      intro hseq
      -- A row that is dropped is one of the chosen, under its own key.
      rw [List.map_map] at hseq hkey
      obtain ⟨item, hitem, rfl⟩ := List.mem_map.mp hseq
      rcases (hdue item (hchosen hitem)).1 with hsame | hgone
      · exact hkey (List.mem_map.mpr ⟨item, hitem, Option.some.inj (hsame.symm.trans hrow)⟩)
      · exact absurd (hgone.symm.trans hrow) nofun

end Repair

/-! ## Cycles that repair -/

section Cycles

variable (prim : Primitives) (config : Config) (denylist : Finset String) (partitions : List Nat)
  (admitted : String → Prop)

/-- Every record's key is of this kind. -/
def Keyed (index : RecordIndex) : Prop :=
  ∀ (key : String) (record : IndexRecord), index.records[key]? = some record → admitted key

/-- A tree with all the keys of the partition's current one. -/
def Grows (world : World) (partitionId : Nat) (grown : HamtTrie) : Prop :=
  ∃ localRoot docRoot trie, Rooted (.readback prim) partitionId localRoot docRoot trie world ∧
    ∀ key, prim.scheme.HasKey key trie → prim.scheme.HasKey key grown

/-- What a cycle knows about the rows it has read and the tree it has built. -/
def Repairs : CycleStage → World → Prop
  | .todo groups, world => ∀ group ∈ groups, Due world group
  | .pointed root partitionId items rest, world =>
      (∀ group ∈ (partitionId, items) :: rest, Due world group) ∧
        ∃ grown, prim.Reads world.blobs grown (some root) ∧ Grows prim world partitionId grown ∧
          ∀ item ∈ publishable denylist items, prim.scheme.HasKey item.2.1 grown
  | .extended partitionId items rest, world =>
      (∀ group ∈ (partitionId, items) :: rest, Due world group) ∧
        ∀ item ∈ publishable denylist items, HoldsKey prim world partitionId item.2.1
  | .marked partitionId items rest, world => ∀ group ∈ (partitionId, items) :: rest, Due world group

theorem due_pendingBatch (world : World) (max : Nat) :
    ∀ group ∈ (groupByPartition (world.index.pendingBatch max)).toList, Due world group := by
  intro group hgroup item hitem
  obtain ⟨hitems, -⟩ := mem_groupByPartition.mp hgroup
  rw [hitems] at hitem
  obtain ⟨hbatch, hpartition⟩ := List.mem_filter.mp hitem
  obtain ⟨hrow, hrecord⟩ := RecordIndex.mem_pendingItems.mp (List.mem_of_mem_take hbatch)
  exact ⟨Or.inl hrow, item.2.2, hrecord, of_decide_eq_true hpartition⟩

/-- A tree that was built has the keys of the current tree and of the group. -/
theorem Built.hasKey {prim : Primitives} {config : Config} {denylist : Finset String}
    {partitionId : Nat} {items : List PendingItem} {root : Hash} {world : World}
    (hbuilt : Built (.readback prim) config denylist partitionId items root world) :
    ∃ grown, prim.Reads world.blobs grown (some root) ∧ Grows prim world partitionId grown ∧
      ∀ item ∈ publishable denylist items, prim.scheme.HasKey item.2.1 grown := by
  obtain ⟨localRoot, docRoot, trie, grown, hrooted, hinsert, hgrown⟩ := hbuilt
  have hkeys := prim.scheme.hasKey_insertAll hinsert
  have hsealed : ∀ key, prim.scheme.HasKey key (Primitives.sealed grown) ↔
      prim.scheme.HasKey key grown := by
    simp [BucketTrie.Scheme.HasKey]
  refine ⟨Primitives.sealed grown, hgrown, ⟨localRoot, docRoot, trie, hrooted, fun key hkey => ?_⟩,
    fun item hitem => ?_⟩
  · rw [hsealed, hkeys]
    exact Or.inl hkey
  · rw [hsealed, hkeys]
    exact Or.inr ⟨item.entry, List.mem_map.mpr ⟨item, hitem, rfl⟩, rfl⟩

theorem Grows.holdsKey {prim : Primitives} {world : World} {partitionId : Nat} {grown : HamtTrie}
    (hfree : prim.CollisionFree {held | held ∈ world.blobs})
    (hgrows : Grows prim world partitionId grown) (key : String)
    (hholds : HoldsKey prim world partitionId key) : prim.scheme.HasKey key grown := by
  obtain ⟨localRoot, docRoot, trie, hrooted, hkeys⟩ := hgrows
  exact hkeys key ((hrooted.holdsKey_iff hfree key).mp hholds)

/-- The pointer document is moved to the larger tree, and the writer follows it or stays
where it was. -/
theorem Grows.setDoc {prim : Primitives} {world : World} {partitionId : Nat} {grown : HamtTrie}
    {root : Hash} (hgrown : prim.Reads world.blobs grown (some root))
    (hgrows : Grows prim world partitionId grown) :
    Grows prim (prim.setDocBytes world (.partition partitionId) root.bytes.toList) partitionId
      grown := by
  obtain ⟨localRoot, docRoot, trie, hrooted, hkeys⟩ := hgrows
  cases localRoot with
  | some known => exact ⟨_, _, _, hrooted.setDoc_known _ _, hkeys⟩
  | none => exact ⟨_, _, _, Rooted.setDoc_adopted hrooted.known hgrown, fun _ hkey => hkey⟩

theorem Keyed.finish {admitted : String → Prop} {index : RecordIndex}
    (hkeyed : Keyed admitted index) (now : Timestamp) (rows : List (Nat × String))
    (status : RecordStatus) : Keyed admitted (index.finish now rows status) := by
  intro key record hrecord
  obtain ⟨earlier, hearlier, -⟩ := index.finish_records hrecord
  exact hkeyed key earlier hearlier

/-- A cycle keeps every published record in its tree or in the queue. -/
def repairing : AloneRules (.readback prim) config denylist where
  inv world := AllReadable prim world ∧ Repaired prim partitions world ∧ Keyed admitted world.index
  holds := Repairs prim denylist
  exhausted := True
  inv_same before after hsame hinv := by
    refine ⟨hinv.1.steady hsame.steady, fun partitionId hpartition key hpublishes => ?_,
      hsame.index ▸ hinv.2.2⟩
    rw [RecordIndex.Publishes, hsame.index] at hpublishes
    rw [hsame.index]
    exact (hinv.2.1 partitionId hpartition key hpublishes).imp_left (·.steady hsame.steady)
  holds_same stage before after hsame hheld := by
    cases stage with
    | todo groups => exact fun group hgroup => (hheld group hgroup).sameTables hsame
    | pointed root partitionId items rest =>
        obtain ⟨hdue, grown, hgrown, ⟨localRoot, docRoot, trie, hrooted, hkeys⟩, hitems⟩ := hheld
        exact ⟨fun group hgroup => (hdue group hgroup).sameTables hsame, grown,
          hgrown.mono hsame.blobs, ⟨_, _, _, hrooted.steady hsame.steady, hkeys⟩, hitems⟩
    | extended partitionId items rest =>
        exact ⟨fun group hgroup => (hheld.1 group hgroup).sameTables hsame,
          fun item hitem => (hheld.2 item hitem).steady hsame.steady⟩
    | marked partitionId items rest =>
        exact fun group hgroup => (hheld group hgroup).sameTables hsame
  read world _ := due_pendingBatch world config.publishMaxPending
  rooted world partitionId items rest hinv _ := hinv.1 partitionId
  exhausts _ _ _ _ _ _ _ _ _ _ _ _ _ := trivial
  point before partitionId items rest root hfree hinv _ htodo hbuilt := by
    obtain ⟨grown, hgrown, hgrows, hitems⟩ := hbuilt.hasKey
    refine ⟨⟨hinv.1.setDoc hgrown, fun other hother key hpublishes => ?_, hinv.2.2⟩, htodo, grown,
      hgrown.mono (List.subset_cons_self _ _), hgrows.setDoc hgrown, hitems⟩
    exact (hinv.2.1 other hother key hpublishes).imp_left (·.setDoc hgrown (hgrows.holdsKey hfree))
  adopt before partitionId items rest root hfree hinv hpointed := by
    obtain ⟨hdue, grown, hgrown, hgrows, hitems⟩ := hpointed
    refine ⟨⟨hinv.1.setLocal hgrown, fun other hother key hpublishes => ?_, hinv.2.2⟩, hdue, ?_⟩
    · exact (hinv.2.1 other hother key hpublishes).imp_left
        (·.setLocal hgrown (hgrows.holdsKey hfree))
    · exact fun item hitem => ⟨_, none, _, Rooted.setLocal none hgrown, hitems item hitem⟩
  mark now before partitionId items rest hinv hextended := by
    have hsteady := steady_finish before now ((publishable denylist items).map PendingItem.row)
      .published
    refine ⟨⟨hinv.1.steady hsteady, hinv.2.1.finish (hextended.1 _ List.mem_cons_self) now
      (List.filter_subset_self _) fun _ => hextended.2, hinv.2.2.finish now _ _⟩, ?_⟩
    exact fun group hgroup => (hextended.1 group hgroup).finish now _ _
  deny now before partitionId items rest hinv hmarked := by
    have hsteady := steady_finish before now ((denied denylist items).map PendingItem.row)
      .denylisted
    refine ⟨⟨hinv.1.steady hsteady, hinv.2.1.finish (hmarked _ List.mem_cons_self) now
      (List.filter_subset_self _) nofun, hinv.2.2.finish now _ _⟩, ?_⟩
    exact fun group hgroup => (hmarked group (List.mem_cons_of_mem _ hgroup)).finish now _ _
  skip _ _ _ _ _ htodo := htodo
  undenied _ _ _ _ _ hmarked := fun group hgroup => hmarked group (List.mem_cons_of_mem _ hgroup)

/-- One publish cycle without faults, whatever its denylist, its batch size and its
result. -/
def CycleRun (before after : World) : Prop :=
  ∃ denylist maxPending outcome, Prog.Runs (prim.DaemonStep .none)
    (prim.publishCycle { config with publishMaxPending := maxPending } denylist)
    before outcome after

variable {prim config partitions admitted}

/-- Cycles keep every published record in its tree or in the queue. -/
theorem repaired_cycles {before after : World} {blobUniverse : Set Bytes}
    (hfree : prim.CollisionFree blobUniverse)
    (hcycles : Relation.ReflTransGen (CycleRun prim config) before after)
    (hblobs : ∀ blob ∈ after.blobs, blob ∈ blobUniverse) (hreadable : AllReadable prim before)
    (hrepaired : Repaired prim partitions before) (hkeyed : Keyed admitted before.index) :
    AllReadable prim after ∧ Repaired prim partitions after ∧ Keyed admitted after.index := by
  induction hcycles with
  | refl => exact ⟨hreadable, hrepaired, hkeyed⟩
  | tail _ hcycle ih =>
      obtain ⟨denylist, maxPending, outcome, hruns⟩ := hcycle
      have hgrow := Primitives.blobs_subset_of_visits hruns.visits
      exact (repairing prim _ denylist partitions admitted).inv_of_visits hfree hruns.visits hblobs
        (ih fun blob hblob => hblobs blob (hgrow hblob))

/-- With nothing left in the queue, nothing is missing. -/
theorem Repaired.subset (hrepaired : Repaired prim partitions world)
    (hempty : world.index.pendingItems = []) :
    publishedRows partitions world ⊆ treeRows prim partitions world := by
  rintro ⟨partitionId, key⟩ ⟨hpartition, hpublishes⟩
  refine ⟨hpartition, ?_⟩
  rcases hrepaired partitionId hpartition key hpublishes with hholds | ⟨seq, hrow⟩
  · exact hholds
  · obtain ⟨record, hrecord, -⟩ := hpublishes
    have hitem : (seq, key, record) ∈ world.index.pendingItems :=
      RecordIndex.mem_pendingItems.mpr ⟨hrow, hrecord⟩
    rw [hempty] at hitem
    cases hitem

end Cycles

/-! ## The audit and the repair together -/

section Rounds

variable {prim : Primitives} {config : Config} {fix : Bool} {world after : World}
  {outcome : Prog.Outcome DaemonError VerifyReport}

/-- For every index whose keys are single lines, and whatever readable trees its
partitions have: the audit counts the published records that are missing from their
trees and the keys in the trees that are not published records of theirs. With the
fix, it puts every missing record back into the queue, and once cycles have emptied
the queue, another audit finds none missing. -/
theorem verify_counts_and_repairs (hreadable : AllReadable prim world)
    (hkeys : Keyed Text.IsLine world.index)
    (hruns : Prog.Runs (prim.DaemonStep .none) (prim.verify config none fix) world outcome after)
    (hfree : prim.CollisionFree {held | held ∈ after.blobs}) :
    ∃ report, outcome = .ok report ∧
      report.expectedTotal = (publishedRows (List.range config.topLevelPartitions) world).ncard ∧
      report.inTreeTotal = (treeRows prim (List.range config.topLevelPartitions) world).ncard ∧
      report.missingTotal = (publishedRows (List.range config.topLevelPartitions) world \
        treeRows prim (List.range config.topLevelPartitions) world).ncard ∧
      report.foreignTotal = (treeRows prim (List.range config.topLevelPartitions) world \
        publishedRows (List.range config.topLevelPartitions) world).ncard ∧
      report.expectedTotal - report.missingTotal = report.inTreeTotal - report.foreignTotal ∧
      (fix = true → report.requeuedTotal = report.missingTotal ∧
        ∀ later, Relation.ReflTransGen (CycleRun prim config) after later →
          later.index.pendingItems = [] →
          ∀ (again : Bool) (result : Prog.Outcome DaemonError VerifyReport) (final : World),
            Prog.Runs (prim.DaemonStep .none) (prim.verify config none again) later result final →
            prim.CollisionFree {held | held ∈ final.blobs} →
            ∃ second, result = .ok second ∧ second.missingTotal = 0) := by
  have hlines : ∀ world : World, Keyed Text.IsLine world.index →
      (none : Option Nat) = none → ∀ partitionId < config.topLevelPartitions, ∀ key,
        world.index.Publishes partitionId key → Text.IsLine key := by
    rintro world hkeyed - partitionId - key ⟨record, hrecord, -⟩
    exact hkeyed key record hrecord
  obtain ⟨report, rfl, haudit⟩ := verify_outcome hreadable (hlines world hkeys) hruns hfree
  have hblobs : prim.CollisionFree {held | held ∈ world.blobs} := hfree.mono haudit.blobs
  obtain ⟨hexpected, hinTree, hmissing, hforeign, hdifference⟩ :=
    haudit.counts hblobs hreadable List.nodup_range
  refine ⟨report, rfl, hexpected, hinTree, hmissing, hforeign, hdifference,
    fun hfix => ⟨haudit.requeuedTotal hfix, ?_⟩⟩
  intro later hcycles hempty again result final hagain hfinal
  -- After the audit, what is not in its tree is in the queue.
  have hrepaired : Repaired prim (List.range config.topLevelPartitions) after := by
    intro partitionId hpartition key hpublishes
    rw [RecordIndex.Publishes, haudit.records] at hpublishes
    by_cases hholds : HoldsKey prim world partitionId key
    · exact Or.inl (hholds.steady haudit.toSteady)
    · obtain ⟨seq, -, hrow⟩ := haudit.queued hfix partitionId hpartition key ⟨hpublishes, hholds⟩
      exact Or.inr ⟨seq, hrow⟩
  have hkeyed : Keyed Text.IsLine after.index := by
    rw [Keyed, haudit.records]
    exact hkeys
  have hgrown := Primitives.blobs_subset_of_visits hagain.visits
  obtain ⟨hlaterReadable, hlaterRepaired, hlaterKeyed⟩ := repaired_cycles hfinal hcycles hgrown
    (hreadable.steady haudit.toSteady) hrepaired hkeyed
  obtain ⟨second, rfl, hsecond⟩ := verify_outcome hlaterReadable (hlines later hlaterKeyed) hagain
    hfinal
  obtain ⟨-, -, hsecondMissing, -⟩ :=
    hsecond.counts (hfinal.mono hgrown) hlaterReadable List.nodup_range
  refine ⟨second, rfl, ?_⟩
  rw [hsecondMissing, Set.sdiff_eq_empty.mpr (hlaterRepaired.subset hempty), Set.ncard_empty]

end Rounds

/-! ## Audits of one record -/

namespace Sample

/-- The published record that a leaf entry comes from. -/
def recordOf (entry : LeafEntry) (partitionId : Nat) : IndexRecord where
  contentHash := entry.hash
  size := entry.size
  partitionId := partitionId
  status := .published
  createdAt := entry.addedAt
  contentCode := entry.contentCode
  publishedAt := some entry.addedAt

/-- An index with only that record. -/
def indexWith (entry : LeafEntry) (partitionId : Nat) : RecordIndex :=
  { RecordIndex.empty with
    records :=
      (∅ : Std.ExtTreeMap String IndexRecord).insert entry.key (recordOf entry partitionId) }

theorem indexWith_keyed {admitted : String → Prop} {entry : LeafEntry} (partitionId : Nat)
    (hkey : admitted entry.key) : Keyed admitted (indexWith entry partitionId) := by
  intro key record hrecord
  simp only [indexWith, Std.ExtTreeMap.getElem?_insert, Std.compare_eq_iff_eq] at hrecord
  split at hrecord
  next hsame => exact hsame ▸ hkey
  next => simp at hrecord

/-- A published record that is in no tree. -/
def gapped : World := { World.empty with blobs := [utf8 firstValue], index := indexWith first 0 }

/-- The audit of that record with the fix, the cycle after it, and another audit. -/
def audit : Prog.Outcome DaemonError VerifyReport × World :=
  (prim.verify single none true).run (prim.daemonHandler createdAt) gapped
def refilled : Prog.Outcome DaemonError Nat × World :=
  (prim.publishCycle single ∅).run (prim.daemonHandler createdAt) audit.2
def secondAudit : Prog.Outcome DaemonError VerifyReport × World :=
  (prim.verify single none false).run (prim.daemonHandler createdAt) refilled.2

theorem gapped_readable : AllReadable prim gapped := by
  intro partitionId
  refine ⟨none, none, .empty, ?_, fun _ => ⟨?_, ?_⟩, rfl⟩
  · simp [gapped, indexWith, RecordIndex.empty]
  · simp [gapped, World.empty, PointerDoc.empty, PointerDoc.entry]
  · simp

end Sample

/-- The record is missing, queued again, inserted, and then not missing. -/
theorem verify_counts_and_repairs_sample :
    ∃ report second, Sample.audit.1 = .ok report ∧ report.missingTotal = 1 ∧
      report.requeuedTotal = 1 ∧ Sample.secondAudit.1 = .ok second ∧ second.missingTotal = 0 := by
  have hruns : Prog.Runs (Sample.prim.DaemonStep .none) (Sample.prim.verify Sample.single none true)
      Sample.gapped Sample.audit.1 Sample.audit.2 :=
    Sample.prim.daemonHandler_runs .none Sample.createdAt _ Sample.gapped
  have hcycle : CycleRun Sample.prim Sample.single Sample.audit.2 Sample.refilled.2 :=
    ⟨∅, _, _, Sample.prim.daemonHandler_runs .none Sample.createdAt
      (Sample.prim.publishCycle Sample.single ∅) Sample.audit.2⟩
  have hagain : Prog.Runs (Sample.prim.DaemonStep .none)
      (Sample.prim.verify Sample.single none false)
      Sample.refilled.2 Sample.secondAudit.1 Sample.secondAudit.2 :=
    Sample.prim.daemonHandler_runs .none Sample.createdAt _ Sample.refilled.2
  have hfree : Sample.prim.CollisionFree {held | held ∈ Sample.audit.2.blobs} :=
    Primitives.collisionFree_of_blobs (by decide +kernel)
  have hfinal : Sample.prim.CollisionFree {held | held ∈ Sample.secondAudit.2.blobs} :=
    Primitives.collisionFree_of_blobs (by decide +kernel)
  have hempty : Sample.refilled.2.index.pendingItems = [] := by decide +kernel
  have haudit : Sample.audit.1 = .ok ⟨1, 1, 1, 0, 1, 0, 1⟩ := by decide +kernel
  have hkeyed : Keyed Text.IsLine Sample.gapped.index :=
    Sample.indexWith_keyed 0 (by decide +kernel)
  obtain ⟨report, hreport, -, -, -, -, -, hfix⟩ :=
    verify_counts_and_repairs Sample.gapped_readable hkeyed hruns hfree
  obtain ⟨hrequeued, hrepaired⟩ := hfix rfl
  obtain ⟨second, hsecond, hnone⟩ := hrepaired _ (.single hcycle) hempty _ _ _ hagain hfinal
  obtain rfl := Prog.Outcome.ok.inj (hreport.symm.trans haudit)
  exact ⟨_, second, haudit, rfl, rfl, hsecond, hnone⟩

namespace Sample

/-- An entry whose key ends in a carriage return. -/
def returning : LeafEntry := { first with key := "a\r" }

def returningText : String :=
  "\x7b\"key\":\"a\\r\"," ++
  "\"hash\":\"d59b6562d7c9b121bc9760873d787890ef4d429aad33a70b405baa0fa08a1f53\"," ++
  "\"size\":7,\"added_at\":\"2024-05-01T00:00:00Z\"\x7d"

def returningRoot : Hash :=
  ⟨bytes32 0xe5dad23fdd4250574d83ef5987125bf8bae9a781a790fb26a55297fdf8cfdba2⟩

def returningTables : Tables where
  texts := [(returning, returningText)]
  digests := [(returning.key,
    bytes32 0x961a57df036f6c4f44ca8a054271c45e823f469bcc439f0255c40974c3e3d131)]
  hashes := [(utf8 firstValue, first.hash), (leafBlob [returningText], returningRoot)]
  texts_valid := by decide +kernel

def returningPrim : Primitives := returningTables.primitives

/-- A published record with this key, in the tree of its partition. -/
def returned : World :=
  { World.empty with
    blobs := [leafBlob [returningText], utf8 firstValue]
    index := { indexWith returning 0 with
      localRoots := (∅ : Std.ExtTreeMap Nat Hash).insert 0 returningRoot } }

def returnedAudit : Prog.Outcome DaemonError VerifyReport × World :=
  (returningPrim.verify single none true).run (returningPrim.daemonHandler createdAt) returned

theorem returned_rooted :
    Rooted (.readback returningPrim) 0 (some returningRoot) none (.leaf [returning]) returned where
  known := by decide +kernel
  named hnone := by cases hnone
  names := by
    refine ⟨leafBlob [returningText], List.mem_cons_self, ?_, Or.inr ?_⟩
    · decide +kernel
    · decide +kernel

theorem returned_readable : AllReadable returningPrim returned := by
  intro partitionId
  by_cases hzero : 0 = partitionId
  · exact hzero ▸ ⟨_, _, _, returned_rooted⟩
  · refine ⟨none, none, .empty, ?_, fun _ => ⟨?_, ?_⟩, rfl⟩
    · simp [returned, hzero]
    · simp [returned, World.empty, PointerDoc.empty, PointerDoc.entry]
    · simp

end Sample

/-- No published record is missing, and yet the audit counts one, and puts nothing
back into the queue for it: a carriage return at the end of a key is read as part of
the line's ending. -/
theorem verify_miscounts_carriage_return :
    AllReadable Sample.returningPrim Sample.returned ∧
      Keyed (fun key => '\n' ∉ key.toList) Sample.returned.index ∧
      Prog.Runs (Sample.returningPrim.DaemonStep .none)
        (Sample.returningPrim.verify Sample.single none true) Sample.returned
        Sample.returnedAudit.1 Sample.returnedAudit.2 ∧
      Sample.returningPrim.CollisionFree {held | held ∈ Sample.returnedAudit.2.blobs} ∧
      (publishedRows [0] Sample.returned \
        treeRows Sample.returningPrim [0] Sample.returned).ncard = 0 ∧
      ∃ report, Sample.returnedAudit.1 = .ok report ∧ report.missingTotal = 1 ∧
        report.requeuedTotal = 0 := by
  have hkeyed : Keyed (fun key => '\n' ∉ key.toList) Sample.returned.index :=
    Sample.indexWith_keyed 0 (by decide +kernel)
  have haudit : Sample.returnedAudit.1 = .ok ⟨1, 1, 1, 1, 1, 1, 0⟩ := by decide +kernel
  refine ⟨Sample.returned_readable, hkeyed, Sample.returningPrim.daemonHandler_runs .none
    Sample.createdAt _ Sample.returned, Primitives.collisionFree_of_blobs (by decide +kernel), ?_,
    _, haudit, rfl, rfl⟩
  rw [Set.sdiff_eq_empty.mpr, Set.ncard_empty]
  rintro ⟨partitionId, key⟩ ⟨hpartition, record, hrecord, -⟩
  obtain rfl := List.mem_singleton.mp hpartition
  have hkey : Keyed (· = "a\r") Sample.returned.index := Sample.indexWith_keyed 0 rfl
  rw [hkey key record hrecord]
  exact ⟨List.mem_singleton_self 0, _, _, _, Sample.returned_rooted, Sample.returning,
    List.mem_singleton_self _, rfl⟩

end Registry

import Registry.Daemon.Requests
import Registry.Daemon.Roots
import Registry.Daemon.System

/-! # Published records are readable

Every published record resolves in the tree at its partition's current root, and
in the tree that the pointer document names, at every moment of every run:
between any two operations of a cycle, after a crash, while reads fail.
-/

namespace Registry

open Effect

/-! ## The trees of a partition -/

section Trees

variable (prim : Primitives)

/-- What the first tree finds, the second finds too. -/
def Extends (smaller larger : HamtTrie) : Prop :=
  ∀ key entry, prim.scheme.find key smaller 0 = some entry →
    prim.scheme.find key larger 0 = some entry

/-- A tree that finds only entries of indexed records. -/
def Faithful (index : RecordIndex) (trie : HamtTrie) : Prop :=
  ∀ key entry, prim.scheme.find key trie 0 = some entry →
    ∃ record : IndexRecord, index.records[key]? = some record ∧ entry = record.leafEntry key

/-- The trees that the two roots of a partition name. -/
structure Trees where
  localTrie : HamtTrie
  docRoot : Option Hash
  docTrie : HamtTrie

/-- The tree at the current root. -/
def Trees.current (trees : Trees) (localRoot : Option Hash) : HamtTrie :=
  match localRoot with
  | some _ => trees.localTrie
  | none => trees.docTrie

/-- Both roots of a partition name stored trees of indexed records, the pointer
document's is no older than the local one, and every published record is in the
current one. -/
structure Legible (partitionId : Nat) (trees : Trees) (world : World) : Prop where
  localRoot : prim.Represents world.blobs world.index.localRoots[partitionId]? trees.localTrie
  docRoot : NamesRoot prim world (.partition partitionId) trees.docRoot
  docTrie : prim.Represents world.blobs trees.docRoot trees.docTrie
  ahead : Extends prim trees.localTrie trees.docTrie
  faithful : Faithful prim world.index trees.docTrie
  published : ∀ (key : String) (record : IndexRecord), world.index.records[key]? = some record →
    record.partitionId = partitionId → record.status = .published →
      (prim.scheme.find key (trees.current world.index.localRoots[partitionId]?) 0).isSome

end Trees

/-- No record is bound anew. -/
def Bound (before after : RecordIndex) : Prop :=
  ∀ (key : String) (record : IndexRecord), before.records[key]? = some record →
    ∃ later : IndexRecord, after.records[key]? = some later ∧ later.binding = record.binding

/-- A step that leaves the roots of a partition alone and publishes no more of it
than the given keys. -/
structure Continues (partitionId : Nat) (keys : List String) (before after : World) : Prop where
  blobs : before.blobs ⊆ after.blobs
  localRoot : after.index.localRoots[partitionId]? = before.index.localRoots[partitionId]?
  docEntry : after.doc.entry (.partition partitionId) = before.doc.entry (.partition partitionId)
  bound : Bound before.index after.index
  published : ∀ (key : String) (record : IndexRecord), after.index.records[key]? = some record →
    record.partitionId = partitionId → record.status = .published →
      key ∈ keys ∨ ∃ earlier : IndexRecord, before.index.records[key]? = some earlier ∧
        earlier.partitionId = partitionId ∧ earlier.status = .published

section Steps

variable {prim : Primitives} {partitionId : Nat} {trees : Trees} {keys : List String}
  {before after : World}

theorem Extends.refl (trie : HamtTrie) : Extends prim trie trie := fun _ _ hfind => hfind

theorem Extends.trans {first second third : HamtTrie} (hfirst : Extends prim first second)
    (hsecond : Extends prim second third) : Extends prim first third :=
  fun key entry hfind => hsecond key entry (hfirst key entry hfind)

theorem Extends.isSome {smaller larger : HamtTrie} (hextends : Extends prim smaller larger)
    {key : String} (hsome : (prim.scheme.find key smaller 0).isSome) :
    (prim.scheme.find key larger 0).isSome := by
  obtain ⟨entry, hentry⟩ := Option.isSome_iff_exists.mp hsome
  exact Option.isSome_iff_exists.mpr ⟨entry, hextends key entry hentry⟩

theorem Faithful.bound {earlier later : RecordIndex} {trie : HamtTrie}
    (hbound : Bound earlier later) (hfaithful : Faithful prim earlier trie) :
    Faithful prim later trie := by
  intro key entry hfind
  obtain ⟨record, hrecord, rfl⟩ := hfaithful key entry hfind
  obtain ⟨kept, hkept, hbinding⟩ := hbound key record hrecord
  exact ⟨kept, hkept, (IndexRecord.leafEntry_eq_of_binding_eq hbinding key).symm⟩

theorem Continues.refl (partitionId : Nat) (world : World) :
    Continues partitionId [] world world where
  blobs := List.Subset.refl _
  localRoot := rfl
  docEntry := rfl
  bound _ record hrecord := ⟨record, hrecord, rfl⟩
  published _ record hrecord hpartition hpublished :=
    Or.inr ⟨record, hrecord, hpartition, hpublished⟩

theorem Continues.trans {first second third : World}
    (hfirst : Continues partitionId [] first second)
    (hsecond : Continues partitionId [] second third) : Continues partitionId [] first third where
  blobs := List.Subset.trans hfirst.blobs hsecond.blobs
  localRoot := hsecond.localRoot.trans hfirst.localRoot
  docEntry := hsecond.docEntry.trans hfirst.docEntry
  bound key record hrecord := by
    obtain ⟨middle, hmiddle, hbinding⟩ := hfirst.bound key record hrecord
    obtain ⟨last, hlast, hlater⟩ := hsecond.bound key middle hmiddle
    exact ⟨last, hlast, hlater.trans hbinding⟩
  published key record hrecord hpartition hpublished := by
    rcases hsecond.published key record hrecord hpartition hpublished with hnew | hold
    · exact absurd hnew List.not_mem_nil
    · obtain ⟨middle, hmiddle, hmiddlePartition, hmiddlePublished⟩ := hold
      exact hfirst.published key middle hmiddle hmiddlePartition hmiddlePublished

/-- The same tables, and no fewer blobs. -/
theorem Continues.of_same_tables (hblobs : before.blobs ⊆ after.blobs)
    (hindex : after.index = before.index) (hdoc : after.doc = before.doc) (partitionId : Nat) :
    Continues partitionId [] before after := by
  obtain ⟨blobs, index, doc, activeWrites⟩ := after
  obtain rfl : index = before.index := hindex
  obtain rfl : doc = before.doc := hdoc
  exact { Continues.refl partitionId before with blobs := hblobs }

/-- The roots stay readable as long as what is newly published is in the current
tree. -/
theorem Legible.continues (hlegible : Legible prim partitionId trees before)
    (hstep : Continues partitionId keys before after)
    (hkeys : ∀ key ∈ keys, (prim.scheme.find key
      (trees.current before.index.localRoots[partitionId]?) 0).isSome) :
    Legible prim partitionId trees after where
  localRoot := hstep.localRoot ▸ hlegible.localRoot.mono hstep.blobs
  docRoot := ⟨hstep.docEntry.trans hlegible.docRoot.entry,
    fun hash hhash => hstep.blobs (hlegible.docRoot.content hash hhash)⟩
  docTrie := hlegible.docTrie.mono hstep.blobs
  ahead := hlegible.ahead
  faithful := hlegible.faithful.bound hstep.bound
  published key record hrecord hpartition hpublished := by
    rw [hstep.localRoot]
    rcases hstep.published key record hrecord hpartition hpublished with hnew | hold
    · exact hkeys key hnew
    · obtain ⟨earlier, hearlier, hearlierPartition, hearlierPublished⟩ := hold
      exact hlegible.published key earlier hearlier hearlierPartition hearlierPublished

theorem Legible.represents_current (hlegible : Legible prim partitionId trees before) :
    prim.Represents before.blobs (before.index.localRoots[partitionId]?.or trees.docRoot)
      (trees.current before.index.localRoots[partitionId]?) := by
  have hlocal := hlegible.localRoot
  cases hroot : before.index.localRoots[partitionId]? with
  | some root =>
      rw [hroot] at hlocal
      exact hlocal
  | none => exact hlegible.docTrie

theorem Legible.current_extends_doc (hlegible : Legible prim partitionId trees before) :
    Extends prim (trees.current before.index.localRoots[partitionId]?) trees.docTrie := by
  cases before.index.localRoots[partitionId]? with
  | some root => exact hlegible.ahead
  | none => exact Extends.refl _

theorem Legible.local_extends_current (hlegible : Legible prim partitionId trees before) :
    Extends prim trees.localTrie (trees.current before.index.localRoots[partitionId]?) := by
  cases before.index.localRoots[partitionId]? with
  | some root => exact Extends.refl _
  | none => exact hlegible.ahead

/-- The pointer document may be moved to any stored tree of indexed records that
extends the current one. -/
theorem Legible.setDoc (hlegible : Legible prim partitionId trees before) {root : Hash}
    {trie : HamtTrie} (htrie : prim.Represents before.blobs (some root) trie)
    (hfaithful : Faithful prim before.index trie)
    (hextends : Extends prim (trees.current before.index.localRoots[partitionId]?) trie) :
    Legible prim partitionId { trees with docRoot := some root, docTrie := trie }
      (prim.setDocBytes before (.partition partitionId) root.bytes.toList) where
  localRoot := hlegible.localRoot.mono (List.subset_cons_self _ _)
  docRoot := by
    refine ⟨?_, fun hash hhash => ?_⟩
    · simp [Primitives.setDocBytes]
    · rw [← Option.some.inj hhash]
      exact List.mem_cons_self
  docTrie := htrie.mono (List.subset_cons_self _ _)
  ahead := hlegible.local_extends_current.trans hextends
  faithful := hfaithful
  published key record hrecord hpartition hpublished := by
    have hcurrent := hlegible.published key record hrecord hpartition hpublished
    dsimp only [Primitives.setDocBytes]
    cases hroot : before.index.localRoots[partitionId]? with
    | some root =>
        rw [hroot] at hcurrent
        exact hcurrent
    | none => exact hextends.isSome hcurrent

/-- The local root may be moved to the pointer document's. -/
theorem Legible.setLocal (hlegible : Legible prim partitionId trees before) {root : Hash}
    (hroot : trees.docRoot = some root) :
    Legible prim partitionId { trees with localTrie := trees.docTrie }
      { before with index := before.index.setLocalRoot partitionId root } where
  localRoot := by
    simp only [RecordIndex.setLocalRoot, Std.ExtTreeMap.getElem?_insert_self]
    exact hroot ▸ hlegible.docTrie
  docRoot := ⟨hlegible.docRoot.entry, hlegible.docRoot.content⟩
  docTrie := hlegible.docTrie
  ahead := Extends.refl _
  faithful := hlegible.faithful
  published key record hrecord hpartition hpublished := by
    simp only [RecordIndex.setLocalRoot, Std.ExtTreeMap.getElem?_insert_self]
    exact hlegible.current_extends_doc.isSome
      (hlegible.published key record hrecord hpartition hpublished)

/-- A step on one partition's roots leaves the other partitions alone. -/
theorem Continues.setDoc_of_ne {root : Hash} {other : Nat} (hne : partitionId ≠ other) :
    Continues other [] before
      (prim.setDocBytes before (.partition partitionId) root.bytes.toList) :=
  { Continues.refl other before with
    blobs := List.subset_cons_self _ _
    docEntry := by simp [Primitives.setDocBytes, hne] }

theorem Continues.setLocal_of_ne {root : Hash} {other : Nat} (hne : partitionId ≠ other) :
    Continues other [] before
      { before with index := before.index.setLocalRoot partitionId root } :=
  { Continues.refl other before with
    localRoot := by
      simp only [RecordIndex.setLocalRoot, Std.ExtTreeMap.getElem?_insert,
        Std.compare_eq_iff_eq, if_neg hne] }

/-- Submissions of unpublished records publish nothing. -/
theorem Continues.submitMany {submissions : List (String × IndexRecord)}
    (hpending : ∀ submission ∈ submissions, submission.2.status = .pending) (partitionId : Nat) :
    Continues partitionId [] before
      { before with index := (before.index.submitMany submissions).2 } where
  blobs := List.Subset.refl _
  localRoot := by rw [RecordIndex.submitMany_localRoots]
  docEntry := rfl
  bound := (before.index.submitMany_evolves submissions).binding
  published key record hrecord hpartition hpublished := by
    rcases before.index.submitMany_records hrecord with hold | hnew
    · exact Or.inr ⟨record, hold, hpartition, hpublished⟩
    · rw [hpending _ hnew] at hpublished
      cases hpublished

theorem Continues.requeue (key : String) (partitionId : Nat) :
    Continues partitionId [] before { before with index := (before.index.requeue key).2 } := by
  obtain heq | ⟨record, -, heq⟩ := before.index.requeue_cases key
  · rw [heq]
    exact Continues.refl partitionId before
  · rw [heq]
    exact { Continues.refl partitionId before with }

/-- Finishing rows publishes at most their keys. -/
theorem Continues.finish (now : Timestamp) (items : List (Nat × String)) (status : RecordStatus)
    (hkeys : status = .published → ∀ item ∈ items, ∀ record : IndexRecord,
      before.index.records[item.2]? = some record → record.partitionId = partitionId →
        item.2 ∈ keys) :
    Continues partitionId keys before
      { before with index := before.index.finish now items status } where
  blobs := List.Subset.refl _
  localRoot := by rw [RecordIndex.finish_localRoots]
  docEntry := rfl
  bound := (before.index.finish_evolves now items status).binding
  published key record hrecord hpartition hpublished := by
    obtain ⟨earlier, hearlier, hbinding⟩ := before.index.finish_records hrecord
    have hsame : earlier.partitionId = partitionId :=
      (IndexRecord.partitionId_eq_of_binding_eq hbinding).trans hpartition
    rcases before.index.finish_status hrecord with hold | ⟨rfl, item, hitem, rfl⟩
    · exact Or.inr ⟨record, hold, hpartition, hpublished⟩
    · exact Or.inl (hkeys hpublished item hitem earlier hearlier hsame)

end Steps

/-! ## The rules of readability -/

variable {prim : Primitives} {lib : Libraries} {config : Config} {faults : Faults}
  {blobUniverse : Set Bytes}

/-- Every partition is readable. -/
structure AllLegible (prim : Primitives) (blobUniverse : Set Bytes) (world : World) : Prop where
  within : ∀ blob ∈ world.blobs, blob ∈ blobUniverse
  partitions : ∀ partitionId, ∃ trees, Legible prim partitionId trees world

theorem AllLegible.continues {before after : World} (hbefore : AllLegible prim blobUniverse before)
    (hwithin : ∀ blob ∈ after.blobs, blob ∈ blobUniverse)
    (hstep : ∀ partitionId, Continues partitionId [] before after) :
    AllLegible prim blobUniverse after := by
  refine ⟨hwithin, fun partitionId => ?_⟩
  obtain ⟨trees, htrees⟩ := hbefore.partitions partitionId
  exact ⟨trees, htrees.continues (hstep partitionId) fun key hkey => absurd hkey List.not_mem_nil⟩

/-- A step on one partition. -/
theorem AllLegible.update {before after : World} {partitionId : Nat} {trees : Trees}
    (hbefore : AllLegible prim blobUniverse before)
    (hwithin : ∀ blob ∈ after.blobs, blob ∈ blobUniverse)
    (hstep : ∀ other, partitionId ≠ other → Continues other [] before after)
    (htrees : Legible prim partitionId trees after) : AllLegible prim blobUniverse after := by
  refine ⟨hwithin, fun other => ?_⟩
  by_cases hother : partitionId = other
  · exact ⟨trees, hother ▸ htrees⟩
  · obtain ⟨otherTrees, hlegible⟩ := hbefore.partitions other
    exact ⟨otherTrees, hlegible.continues (hstep other hother)
      fun key hkey => absurd hkey List.not_mem_nil⟩

theorem AllLegible.empty : AllLegible prim blobUniverse .empty where
  within blob hblob := absurd hblob List.not_mem_nil
  partitions partitionId :=
    ⟨⟨.empty, none, .empty⟩, by
      refine ⟨?_, ⟨?_, ?_⟩, Primitives.Represents.none, Extends.refl _, ?_, ?_⟩
      · simp [World.empty, RecordIndex.empty, Primitives.Represents.none]
      · simp [World.empty, PointerDoc.empty, PointerDoc.entry]
      · simp
      · simp [Faithful, BucketTrie.Scheme.find]
      · simp [World.empty, RecordIndex.empty]⟩

variable (prim faults blobUniverse) in
/-- Requests leave all roots alone and publish nothing. -/
def readability : Discipline prim faults where
  bounds world := ∀ blob ∈ world.blobs, blob ∈ blobUniverse
  inv := AllLegible prim blobUniverse
  byRequest before after := ∀ partitionId, Continues partitionId [] before after
  byAny _ _ := True
  byRequest_refl world partitionId := Continues.refl partitionId world
  byRequest_trans hfirst hsecond partitionId := (hfirst partitionId).trans (hsecond partitionId)
  byAny_trans _ _ := trivial
  byAny_of_byRequest _ := trivial
  quiet world activeWrites hbounds hworld := by
    have hstep : ∀ partitionId, Continues partitionId [] world
        { world with activeWrites := activeWrites } :=
      Continues.of_same_tables (List.Subset.refl _) rfl rfl
    exact ⟨hworld.continues hbounds hstep, hstep⟩
  stray world blob hbounds hworld := by
    have hstep : ∀ partitionId, Continues partitionId [] world
        { world with blobs := blob :: world.blobs } :=
      Continues.of_same_tables (List.subset_cons_self _ _) rfl rfl
    exact ⟨hworld.continues hbounds hstep, hstep⟩
  requeue world key hworld :=
    ⟨hworld.continues hworld.within (Continues.requeue key), Continues.requeue key⟩

theorem readability_sem (op : DaemonOp) (before : World) (response : daemonSig.Res op)
    (after : World)
    (hsem : (readability prim faults blobUniverse).publisherSetting.sem op before response after) :
    prim.DaemonStep faults op before response after :=
  hsem.1

theorem readability_within (world : World)
    (hinv : (readability prim faults blobUniverse).publisherSetting.inv world) :
    ∀ blob ∈ world.blobs, blob ∈ blobUniverse :=
  hinv.within

/-- Operations that leave the tables alone keep what the publisher knows. -/
theorem readability_kept {assertion : World → Prop}
    (hstable : ∀ before after : World, (∀ partitionId, Continues partitionId [] before after) →
      assertion before → assertion after) :
    Kept (readability prim faults blobUniverse).publisherSetting Primitives.KeepsTables
      assertion where
  rely := hstable
  call op before response after hop hinv hassertion hsem := by
    obtain ⟨hindex, hdoc⟩ := hsem.1.keepsTables hop
    have hstep := Continues.of_same_tables hsem.1.blobs_subset hindex hdoc
    exact ⟨hinv.continues hsem.2 hstep, trivial, hstable before after hstep hassertion⟩

theorem readability_quiet :
    Kept (readability prim faults blobUniverse).requestSetting Primitives.KeepsTables
      fun _ => True where
  rely _ _ _ := id
  call op before response after hop hinv _ hsem := by
    obtain ⟨hindex, hdoc⟩ := hsem.1.keepsTables hop
    have hstep := Continues.of_same_tables hsem.1.blobs_subset hindex hdoc
    exact ⟨hinv.continues hsem.2 hstep, hstep, trivial⟩

variable (prim lib config faults blobUniverse) in
/-- Requests submit only pending records. -/
def readableRequests :
    RequestRules (readability prim faults blobUniverse).requestSetting prim lib config where
  knows _ _ _ := True
  wrote _ _ _ _ := True
  putFailed _ _ _ := True
  indexFailed _ := True
  quiet := readability_quiet.mono fun _ hop => hop.keepsTables
  keep _ _ := readability_quiet.mono fun _ hop => hop.keepsTables
  put _ _ _ := trivial
  putError _ _ _ := trivial
  failedRely _ := id
  failedCall _ := id
  read _ _ hsem := by
    obtain ⟨rfl, -⟩ := hsem.1.index_ok
    exact ⟨List.length_map _, trivial⟩
  write := by
    intro seen stored submissions before response after hinv _ hsubmissions hsem
    have hpending : ∀ submission ∈ submissions, submission.2.status = .pending := by
      intro submission hsubmission
      obtain ⟨value, -, createdAt, hrecord⟩ := hsubmissions submission hsubmission
      rw [hrecord]
      rfl
    have hstep : ∀ partitionId, Continues partitionId [] before after := by
      obtain ⟨rfl, -⟩ | ⟨rfl, -⟩ := hsem.1.index_cases
      · exact Continues.submitMany hpending
      · exact fun partitionId => Continues.refl partitionId _
    refine ⟨hinv.continues hsem.2 hstep, hstep, fun outcomes houtcomes => ⟨?_, trivial⟩⟩
    subst houtcomes
    rw [hsem.1.index_ok.1]
    exact RecordIndex.submitMany_length _ _
  indexError _ := trivial
  keepWrote _ _ _ := readability_quiet.mono fun _ hop => hop ▸ trivial

/-! ## The publisher's tasks -/

section Publisher

variable {partitionId : Nat} {trees : Trees} {root : Hash} {trie : HamtTrie}
  {items : List PendingItem} {frame : World → Prop}

/-- The records of these rows are still bound as the cycle read them. -/
def Known (items : List PendingItem) (world : World) : Prop :=
  ∀ item ∈ items, ∃ record : IndexRecord, world.index.records[item.2.1]? = some record ∧
    record.binding = item.2.2.binding

theorem Known.bound {before after : World} (hbound : Bound before.index after.index)
    (hknown : Known items before) : Known items after := by
  intro item hitem
  obtain ⟨record, hrecord, hbinding⟩ := hknown item hitem
  obtain ⟨later, hlater, hsame⟩ := hbound _ record hrecord
  exact ⟨later, hlater, hsame.trans hbinding⟩

theorem Faithful.of_extends {index : RecordIndex} {smaller larger : HamtTrie}
    (hextends : Extends prim smaller larger) (hfaithful : Faithful prim index larger) :
    Faithful prim index smaller :=
  fun key entry hfind => hfaithful key entry (hextends key entry hfind)

/-- A tree grown by the entries of known rows extends the tree it grew from,
holds only entries of indexed records, and holds every row. -/
theorem Known.grown {world : World} (hknown : Known items world) {smaller larger : HamtTrie}
    (hgrew : prim.GrewBy smaller (items.map PendingItem.entry) larger)
    (hfaithful : Faithful prim world.index smaller) :
    Extends prim smaller (Primitives.sealed larger) ∧
      Faithful prim world.index (Primitives.sealed larger) ∧
      ∀ item ∈ items, (prim.scheme.find item.2.1 (Primitives.sealed larger) 0).isSome := by
  refine ⟨fun key entry hfind => ?_, fun key entry hfind => ?_, fun item hitem => ?_⟩
  · rw [Primitives.find_sealed, hgrew.find, hfind]
    rfl
  · rw [Primitives.find_sealed, hgrew.find] at hfind
    rcases Option.or_eq_some_iff.mp hfind with hold | ⟨-, hnew⟩
    · exact hfaithful key entry hold
    · obtain ⟨item, hitem, rfl⟩ := List.mem_map.mp (List.mem_of_find?_eq_some hnew)
      have hkey : item.entry.key = key := by simpa using List.find?_some hnew
      obtain ⟨record, hrecord, hbinding⟩ := hknown item hitem
      subst hkey
      exact ⟨record, hrecord, (IndexRecord.leafEntry_eq_of_binding_eq hbinding _).symm⟩
  · rw [Primitives.find_sealed, hgrew.find, Option.isSome_or, Bool.or_eq_true]
    refine Or.inr ?_
    simp only [List.find?_isSome, decide_eq_true_eq]
    exact ⟨item.entry, List.mem_map_of_mem hitem, rfl⟩

/-- A tree that the partition's pointer-document entry may be moved to. -/
structure Ready (prim : Primitives) (partitionId : Nat) (trees : Trees) (root : Hash)
    (trie : HamtTrie) (world : World) : Prop where
  legible : Legible prim partitionId trees world
  represents : prim.Represents world.blobs (some root) trie
  faithful : Faithful prim world.index trie
  extend : Extends prim (trees.current world.index.localRoots[partitionId]?) trie

theorem Legible.rely {before after : World} (hlegible : Legible prim partitionId trees before)
    (hstep : Continues partitionId [] before after) : Legible prim partitionId trees after :=
  hlegible.continues hstep fun _ hkey => absurd hkey List.not_mem_nil

theorem Ready.rely {before after : World} (hready : Ready prim partitionId trees root trie before)
    (hstep : Continues partitionId [] before after) :
    Ready prim partitionId trees root trie after where
  legible := hready.legible.rely hstep
  represents := hready.represents.mono hstep.blobs
  faithful := hready.faithful.bound hstep.bound
  extend := hstep.localRoot ▸ hready.extend

/-- What the publisher keeps in mind while it moves the pointer document's root
is about the index. -/
theorem setPartitionRoot_legible
    (hrely : ∀ before after : World, (∀ other, Continues other [] before after) →
      frame before → frame after)
    (hindex : ∀ before after : World, after.index = before.index → frame before → frame after)
    {world : World}
    (hworld : Ready prim partitionId trees root trie world ∧ frame world) :
    Valid (readability prim faults blobUniverse).publisherSetting
      (fun _ after => Legible prim partitionId { trees with docRoot := some root, docTrie := trie }
        after ∧ frame after)
      (fun _ _ => True) (setPartitionRoot partitionId root) world := by
  intro before hbefore hinv response after hsem
  have hready := hworld.1.rely (hbefore partitionId)
  have hkept := hrely world before hbefore hworld.2
  have hset : after = prim.setDocBytes before (.partition partitionId) root.bytes.toList →
      Legible prim partitionId { trees with docRoot := some root, docTrie := trie } after ∧
        AllLegible prim blobUniverse after := by
    rintro rfl
    have hlegible := hready.legible.setDoc hready.represents hready.faithful hready.extend
    exact ⟨hlegible, AllLegible.update hinv hsem.2 (fun other => Continues.setDoc_of_ne) hlegible⟩
  rcases hsem.1 with ⟨rfl, hafter⟩ | ⟨-, ⟨message, rfl⟩, rfl | rfl | hafter⟩
  · refine ⟨(hset hafter).2, trivial, (hset hafter).1, ?_⟩
    subst hafter
    exact hindex before _ rfl hkept
  · exact ⟨hinv, trivial, trivial⟩
  · have hblob : ∀ other, Continues other [] before
        { before with blobs := root.bytes.toList :: before.blobs } :=
      Continues.of_same_tables (List.subset_cons_self _ _) rfl rfl
    exact ⟨AllLegible.continues hinv hsem.2 hblob, trivial, trivial⟩
  · exact ⟨(hset hafter).2, trivial, trivial⟩

variable (hframe : ∀ before after : World, Bound before.index after.index →
  frame before → frame after)

include hframe

theorem setLocalRoot_legible (hroot : trees.docRoot = some root) {world : World}
    (hworld : Legible prim partitionId trees world ∧ frame world) :
    Valid (readability prim faults blobUniverse).publisherSetting
      (fun _ after => (Legible prim partitionId { trees with localTrie := trees.docTrie } after ∧
        after.index.localRoots[partitionId]? = some root) ∧ frame after)
      (fun _ _ => True) (callIndex (.setLocalRoot partitionId root)) world := by
  intro before hbefore hinv response after hsem
  have hlegible := (hworld.1.rely (hbefore partitionId)).setLocal hroot
  have hkept := hframe world before (hbefore partitionId).bound hworld.2
  obtain ⟨rfl, -⟩ | ⟨rfl, message, rfl⟩ := hsem.1.index_cases
  · refine ⟨AllLegible.update hinv hsem.2 (fun other => Continues.setLocal_of_ne) hlegible,
      trivial, ?_⟩
    cases response with
    | error message => trivial
    | ok answer =>
        refine ⟨⟨hlegible, Std.ExtTreeMap.getElem?_insert_self⟩, ?_⟩
        exact hframe before _ (fun key record hrecord => ⟨record, hrecord, rfl⟩) hkept
  · exact ⟨hinv, trivial, trivial⟩

/-- Extending a partition leaves every row of the batch in its local tree. -/
theorem extendPartition_legible (hfree : prim.CollisionFree blobUniverse) (hknown :
    ∀ world : World, frame world → Known items world) {world : World} (hworld : frame world) :
    Valid (readability prim faults blobUniverse).publisherSetting
      (fun _ after => (∃ trees, Legible prim partitionId trees after ∧
        ∀ item ∈ items, (prim.scheme.find item.2.1
          (trees.current after.index.localRoots[partitionId]?) 0).isSome) ∧ frame after)
      (fun _ _ => True)
      (prim.extendPartition config partitionId (items.map PendingItem.entry)) world := by
  have hcall : ∃ op rest, prim.extendPartition config partitionId (items.map PendingItem.entry) =
      .call op rest := ⟨_, _, rfl⟩
  apply Valid.of_inv hcall
  intro before hbefore hinv
  obtain ⟨trees, htrees⟩ := hinv.partitions partitionId
  have hkept := hframe world before (hbefore partitionId).bound hworld
  -- While the publisher reads and inserts, the roots stay where they are.
  let assertion : World → Prop := fun world =>
    (Legible prim partitionId trees world ∧
      world.index.localRoots[partitionId]? = before.index.localRoots[partitionId]?) ∧ frame world
  have hassertion : Kept (readability prim faults blobUniverse).publisherSetting TreeOp
      assertion := by
    refine (readability_kept ?_).mono fun op hop => hop.keepsTables
    intro early late hstep hearly
    exact ⟨⟨hearly.1.1.rely (hstep partitionId), (hstep partitionId).localRoot.trans hearly.1.2⟩,
      hframe early late (hstep partitionId).bound hearly.2⟩
  apply Valid.bind
  refine Valid.mono ?_ (fun _ _ _ => trivial) (currentRoot_valid hfree readability_sem
    readability_within hassertion (fun _ h => h.1.2) (fun _ _ h => h.1.1.docRoot)
    ⟨⟨htrees, rfl⟩, hkept⟩)
  rintro current middle ⟨hmiddle, rfl⟩
  have hcurrent := hmiddle.1.2 ▸ hmiddle.1.1.represents_current
  apply Valid.bind
  refine Valid.mono ?_ (fun _ _ _ => trivial) (insertBatch_onStore_valid hfree
    readability_sem readability_within (.canonical prim) config.leafMaxEntries
    (items.map PendingItem.entry) hassertion (fun _ _ h => (h partitionId).blobs) hmiddle
    ⟨hcurrent.hash, hcurrent.stored⟩)
  rintro root stored ⟨hstored, grown, hinsert, hhash, hheld⟩
  have hgrown := hcurrent.insertAll hinsert hhash hheld
  have hfaithful := Faithful.of_extends hstored.1.1.current_extends_doc hstored.1.1.faithful
  rw [hstored.1.2] at hfaithful
  obtain ⟨hextends, hnew, hfound⟩ := (hknown stored hstored.2).grown
    (Primitives.GrewBy.of_insertAll hcurrent.wellFormed hinsert) hfaithful
  apply Valid.bind
  refine Valid.mono ?_ (fun _ _ _ => trivial) (setPartitionRoot_legible
    (fun early late hstep => hframe early late (hstep 0).bound)
    (fun early late hsame =>
      hframe early late (hsame ▸ fun _ record hrecord => ⟨record, hrecord, rfl⟩))
    ⟨⟨hstored.1.1, hgrown, hnew, hstored.1.2 ▸ hextends⟩, hstored.2⟩)
  rintro _ pointed hpointed
  refine Valid.mono ?_ (fun _ _ _ => trivial) (setLocalRoot_legible hframe rfl hpointed)
  rintro _ last ⟨⟨hlast, hlocal⟩, hlastFrame⟩
  refine ⟨⟨_, hlast, ?_⟩, hlastFrame⟩
  rw [hlocal]
  exact hfound

theorem finishItems_legible {rows : List (Nat × String)} {status : RecordStatus}
    (ready : World → Prop)
    (hready : ∀ before after : World, (∀ other, Continues other [] before after) →
      ready before → ready after)
    (hfinish : ∀ (now : Timestamp) (before : World), ready before →
      AllLegible prim blobUniverse before →
        AllLegible prim blobUniverse { before with index := before.index.finish now rows status })
    {world : World} (hworld : ready world ∧ frame world) :
    Valid (readability prim faults blobUniverse).publisherSetting (fun _ after => frame after)
      (fun _ _ => True) (finishItems rows status) world := by
  unfold finishItems
  split
  next => exact hworld.2
  next =>
    intro before hbefore hinv now after hsem
    obtain rfl : after = before := hsem.1
    refine ⟨hinv, trivial, ?_⟩
    intro middle hmiddle hinvMiddle response last hlast
    have hlater : ∀ other, Continues other [] world middle :=
      fun other => (hbefore other).trans (hmiddle other)
    have hframeMiddle := hframe world middle (hlater 0).bound hworld.2
    obtain ⟨rfl, -⟩ | ⟨rfl, message, rfl⟩ := hlast.1.index_cases
    · refine ⟨hfinish now middle (hready world middle hlater hworld.1) hinvMiddle, trivial, ?_⟩
      cases response with
      | error message => trivial
      | ok answer =>
          exact hframe middle _ (middle.index.finish_evolves now rows status).binding hframeMiddle
    · exact ⟨hinvMiddle, trivial, trivial⟩

/-- Every row is in the current tree. -/
def Found (prim : Primitives) (partitionId : Nat) (items : List PendingItem) (world : World) :
    Prop :=
  ∃ trees, Legible prim partitionId trees world ∧ ∀ item ∈ items, (prim.scheme.find item.2.1
    (trees.current world.index.localRoots[partitionId]?) 0).isSome

/-- Rows may be marked published once they are in the current tree. -/
theorem markPublished_legible (hpartition : ∀ item ∈ items, item.2.2.partitionId = partitionId)
    (hknown : ∀ world : World, frame world → Known items world) {world : World}
    (hfound : Found prim partitionId items world) (hworld : frame world) :
    Valid (readability prim faults blobUniverse).publisherSetting (fun _ after => frame after)
      (fun _ _ => True) (markPublished (items.map PendingItem.row)) world := by
  let ready : World → Prop := fun world => Found prim partitionId items world ∧ Known items world
  refine finishItems_legible hframe ready ?_ ?_ ⟨⟨hfound, hknown world hworld⟩, hworld⟩
  · rintro before after hstep ⟨⟨trees, htrees, hitems⟩, hbefore⟩
    refine ⟨⟨trees, htrees.rely (hstep partitionId), ?_⟩, hbefore.bound (hstep 0).bound⟩
    rw [(hstep partitionId).localRoot]
    exact hitems
  · rintro now before ⟨⟨trees, htrees, hitems⟩, hbefore⟩ hinv
    have hkeys : ∀ key ∈ items.map fun item => item.2.1, (prim.scheme.find key
        (trees.current before.index.localRoots[partitionId]?) 0).isSome := by
      intro key hkey
      obtain ⟨item, hitem, rfl⟩ := List.mem_map.mp hkey
      exact hitems item hitem
    have hlegible := htrees.continues (Continues.finish now (items.map PendingItem.row) .published
      fun _ row hrow record _ _ => by
        obtain ⟨item, hitem, rfl⟩ := List.mem_map.mp hrow
        exact List.mem_map.mpr ⟨item, hitem, rfl⟩) hkeys
    refine hinv.update hinv.within (fun other hne => Continues.finish _ _ _ ?_) hlegible
    -- The rows belong to this partition, so nothing of another one is published.
    intro _ row hrow record hrecord hother
    obtain ⟨item, hitem, rfl⟩ := List.mem_map.mp hrow
    obtain ⟨bound, hbound, hbinding⟩ := hbefore item hitem
    obtain rfl : bound = record := Option.some.inj (hbound.symm.trans hrecord)
    have hsame := IndexRecord.partitionId_eq_of_binding_eq hbinding
    exact absurd ((hpartition item hitem).symm.trans (hsame.symm.trans hother)) hne

theorem markDenylisted_legible {rows : List (Nat × String)} {world : World}
    (hworld : frame world) :
    Valid (readability prim faults blobUniverse).publisherSetting (fun _ after => frame after)
      (fun _ _ => True) (markDenylisted rows) world := by
  refine finishItems_legible hframe (fun _ => True) (fun _ _ _ => id) ?_
    ⟨trivial, hworld⟩
  intro now before _ hinv
  refine hinv.continues hinv.within fun partitionId => Continues.finish _ _ _ ?_
  intro hstatus
  cases hstatus

theorem publishPartition_legible (hfree : prim.CollisionFree blobUniverse)
    (denylist : Finset String) (hpartition : ∀ item ∈ items, item.2.2.partitionId = partitionId)
    (hknown : ∀ world : World, frame world → Known items world) {world : World}
    (hworld : frame world) :
    Valid (readability prim faults blobUniverse).publisherSetting (fun _ after => frame after)
      (fun _ _ => True) (prim.publishPartition config denylist partitionId items) world := by
  let publishable := items.filter fun item => item.2.1 ∉ denylist
  have hsubset : ∀ item ∈ publishable, item ∈ items :=
    fun item hitem => List.mem_of_mem_filter hitem
  have hknownPart : ∀ world : World, frame world → Known publishable world :=
    fun world hframed item hitem => hknown world hframed item (hsubset item hitem)
  have hmark : ∀ world, (publishable ≠ [] → Found prim partitionId publishable world) →
      frame world → Valid (readability prim faults blobUniverse).publisherSetting
        (fun _ after => frame after) (fun _ _ => True) (do
          markPublished (publishable.map PendingItem.row)
          markDenylisted ((items.filter fun item => item.2.1 ∈ denylist).map PendingItem.row)
          pure publishable.length) world := by
    intro world hfound hframed
    have hpublished : Valid (readability prim faults blobUniverse).publisherSetting
        (fun _ after => frame after) (fun _ _ => True)
        (markPublished (publishable.map PendingItem.row)) world := by
      by_cases hnil : publishable = []
      · rw [hnil]
        exact hframed
      · exact markPublished_legible hframe (fun item hitem => hpartition item (hsubset item hitem))
          hknownPart (hfound hnil) hframed
    apply Valid.bind
    refine Valid.mono ?_ (fun _ _ h => h) hpublished
    intro _ after hafter
    apply Valid.bind
    exact Valid.mono (fun _ _ h => h) (fun _ _ h => h) (markDenylisted_legible hframe hafter)
  unfold Primitives.publishPartition
  dsimp only
  split
  next =>
    apply Valid.bind
    refine Valid.mono ?_ (fun _ _ _ => trivial)
      (extendPartition_legible hframe hfree hknownPart hworld)
    rintro _ after ⟨hfound, hafter⟩
    exact hmark after (fun _ => hfound) hafter
  next hnil => exact hmark world (fun hne => absurd hne hnil) hworld

end Publisher

theorem publishCycle_legible (hfree : prim.CollisionFree blobUniverse) (denylist : Finset String)
    (world : World) :
    Valid (readability prim faults blobUniverse).publisherSetting (fun _ _ => True)
      (fun _ _ => True) (prim.publishCycle config denylist) world := by
  have hquiet : Kept (readability prim faults blobUniverse).publisherSetting
      Primitives.KeepsTables fun _ => True := readability_kept fun _ _ _ => id
  apply withWriteGuard_valid
  · intro before response after _ hinv hsem
    obtain ⟨hafter, hguar, -⟩ := hquiet.call .beginWrite before response after trivial hinv
      trivial hsem
    refine ⟨hafter, hguar, ?_⟩
    intro middle _ hinvMiddle batch last hlast
    obtain ⟨hinvLast, hguarLast, -⟩ := hquiet.call (.index (.pendingBatch _)) middle batch last
      trivial hinvMiddle trivial hlast
    refine ⟨hinvLast, hguarLast, ?_⟩
    cases batch with
    | error message => trivial
    | ok batch =>
        let I : List (Nat × List PendingItem) → Nat → World → Prop := fun groups _ world =>
          ∀ group ∈ groups, (∀ item ∈ group.2, item.2.2.partitionId = group.1) ∧
            Known group.2 world
        have hinit : I (groupByPartition batch).toList 0 last := by
          obtain ⟨rfl, rfl⟩ := hlast.1.index_ok
          intro group hgroup
          rw [(mem_groupByPartition.mp hgroup).1]
          refine ⟨fun item hitem => of_decide_eq_true (List.mem_filter.mp hitem).2, ?_⟩
          intro item hitem
          have hpending := List.mem_of_mem_take (List.mem_filter.mp hitem).1
          exact ⟨item.2.2, (RecordIndex.mem_pendingItems.mp hpending).2, rfl⟩
        refine Valid.mono (fun _ _ _ => trivial) (fun _ _ (_ : True) => trivial)
          (Valid.foldlM I ?_ hinit)
        intro group groups total world hworld
        have hframe : ∀ before after : World, Bound before.index after.index →
            I (group :: groups) total before → I (group :: groups) total after :=
          fun before after hbound hbefore other hother =>
            ⟨(hbefore other hother).1, (hbefore other hother).2.bound hbound⟩
        apply Valid.bind
        refine Valid.mono ?_ (fun _ _ h => h) (publishPartition_legible hframe hfree denylist
          (hworld group List.mem_cons_self).1
          (fun world hframed => (hframed group List.mem_cons_self).2) hworld)
        exact fun _ after hafter other hother => hafter other (List.mem_cons_of_mem _ hother)
  · intro value middle before response after _ _ hinv hsem
    exact hquiet.call .endWrite before response after trivial hinv trivial hsem
  · intro error middle before response after _ _ hinv hsem
    exact hquiet.call .endWrite before response after trivial hinv trivial hsem

/-- Healing moves pointer-document entries back to the local roots. -/
theorem healPointerDoc_legible (world : World) :
    Valid (readability prim faults blobUniverse).publisherSetting (fun _ _ => True)
      (fun _ _ => True) healPointerDoc world := by
  intro before _ hinv localRoots after hsem
  have hquiet : Kept (readability prim faults blobUniverse).publisherSetting
      Primitives.KeepsTables fun _ => True := readability_kept fun _ _ _ => id
  obtain ⟨hafter, hguar, -⟩ := hquiet.call (.index .allLocalRoots) before localRoots after trivial
    hinv trivial hsem
  refine ⟨hafter, hguar, ?_⟩
  cases localRoots with
  | error message => trivial
  | ok localRoots =>
      let I : List (Nat × Hash) → Nat → World → Prop := fun rows _ world =>
        ∀ row ∈ rows, world.index.localRoots[row.1]? = some row.2
      have hinit : I localRoots 0 after := by
        obtain ⟨rfl, rfl⟩ := hsem.1.index_ok
        exact fun row hrow => Std.ExtTreeMap.mem_toList_iff_getElem?_eq_some.mp hrow
      refine Valid.mono (fun _ _ _ => trivial) (fun _ _ (_ : True) => trivial)
        (Valid.foldlM I ?_ hinit)
      intro row rows healed world hworld
      have hkept : ∀ before after : World, (∀ other, Continues other [] before after) →
          I (row :: rows) healed before → I (row :: rows) healed after :=
        fun before after hstep hbefore other hother =>
          (hstep other.1).localRoot.trans (hbefore other hother)
      -- Whatever the read of the entry answered, the local root is still in place.
      have hset : ∀ middle, I (row :: rows) healed middle →
          Valid (readability prim faults blobUniverse).publisherSetting
            (fun _ after => I rows (healed + 1) after) (fun _ _ => True)
            (setPartitionRoot row.1 row.2) middle := by
        intro middle hmiddle
        have hcall : ∃ op rest, setPartitionRoot row.1 row.2 = .call op rest := ⟨_, _, rfl⟩
        apply Valid.of_inv hcall
        intro early hearly hinvEarly
        obtain ⟨trees, htrees⟩ := hinvEarly.partitions row.1
        have hrows := hkept middle early hearly hmiddle
        have hroot := hrows row List.mem_cons_self
        have hready : Ready prim row.1 trees row.2 trees.localTrie early :=
          ⟨htrees, hroot ▸ htrees.localRoot, htrees.faithful.of_extends htrees.ahead,
            by rw [hroot]; exact Extends.refl _⟩
        refine Valid.mono ?_ (fun _ _ h => h) (setPartitionRoot_legible hkept ?_ ⟨hready, hrows⟩)
        · exact fun _ after hafter other hother => hafter.2 other (List.mem_cons_of_mem _ hother)
        · exact fun before after hsame hbefore other hother => hsame ▸ hbefore other hother
      apply Valid.bind
      apply Valid.attempt
      refine Valid.mono ?_ ?_ (Valid.of_uses (readability_kept hkept)
        (getPartitionRoot_uses row.1) hworld)
      · intro root middle hmiddle
        cases root with
        | some hash => exact fun other hother => hmiddle other (List.mem_cons_of_mem _ hother)
        | none =>
            apply Valid.bind
            exact hset middle hmiddle
      · intro error middle hmiddle
        apply Valid.bind
        exact hset middle hmiddle

/-- Seeding adopts only roots that the pointer document names. -/
theorem seedLocalRoots_legible (hfree : prim.CollisionFree blobUniverse) (world : World) :
    Valid (readability prim faults blobUniverse).publisherSetting (fun _ _ => True)
      (fun _ _ => True) (seedLocalRoots config) world := by
  have hquiet : Kept (readability prim faults blobUniverse).publisherSetting
      Primitives.KeepsTables fun _ => True := readability_kept fun _ _ _ => id
  refine Valid.foldlM (fun _ _ _ => True) ?_ trivial
  intro partitionId rest seeded world _ before _ hinv known after hsem
  obtain ⟨hafter, hguar, -⟩ := hquiet.call (.index (.getLocalRoot partitionId)) before known after
    trivial hinv trivial hsem
  refine ⟨hafter, hguar, ?_⟩
  match known with
  | .error message => trivial
  | .ok (some root) => trivial
  | .ok none =>
      obtain ⟨trees, htrees⟩ := hafter.partitions partitionId
      have hkept : Kept (readability prim faults blobUniverse).publisherSetting TreeOp
          (Legible prim partitionId trees) :=
        (readability_kept fun early late hstep hearly => hearly.rely (hstep partitionId)).mono
          fun op hop => hop.keepsTables
      change Valid _ _ _ (Prog.bind (getPartitionRoot partitionId).attempt _) after
      apply Valid.bind
      apply Valid.attempt
      refine Valid.mono ?_ (fun _ _ _ => trivial) (getNamedRoot_valid hfree readability_sem
        readability_within hkept (fun _ h => h.docRoot) htrees)
      rintro root middle ⟨hmiddle, hroot⟩
      cases root with
      | none => trivial
      | some root =>
          have hset : ∀ before after : World, Bound before.index after.index → True → True :=
            fun _ _ _ => id
          apply Valid.bind
          exact Valid.mono (fun _ _ _ => trivial) (fun _ _ h => h)
            (setLocalRoot_legible hset hroot.symm ⟨hmiddle, trivial⟩)

/-! ## Every run -/

theorem systemStep_blobs_subset {state next : DaemonState}
    (hstep : SystemStep prim lib config faults state next) :
    state.world.blobs ⊆ next.world.blobs := by
  cases hstep with
  | receive request => exact List.Subset.refl _
  | request running answered => exact answered.blobs_subset
  | start idle task => exact List.Subset.refl _
  | publish running answered => exact answered.blobs_subset
  | finish => exact List.Subset.refl _
  | abandon number activeWrites => exact List.Subset.refl _
  | commit running answered => exact answered.blobs_subset
  | discard number => exact List.Subset.refl _
  | stray blob => exact List.subset_cons_self _ _
  | requeue key => exact List.Subset.refl _
  | crash => exact List.Subset.refl _

theorem systemSteps_blobs_subset {state later : DaemonState}
    (hsteps : SystemSteps prim lib config faults state later) :
    state.world.blobs ⊆ later.world.blobs := by
  induction hsteps with
  | refl => exact List.Subset.refl _
  | tail _ hstep ih => exact List.Subset.trans ih (systemStep_blobs_subset hstep)

/-- Every reachable partition is readable. -/
theorem allLegible_of_reachable {state : DaemonState}
    (hreachable : Reachable prim lib config faults state)
    (hfree : prim.CollisionFree {held | held ∈ state.world.blobs}) :
    AllLegible prim {held | held ∈ state.world.blobs} state.world := by
  have hhandle : ∀ request world,
      (readability prim faults {held | held ∈ state.world.blobs}).inv world →
      (readability prim faults {held | held ∈ state.world.blobs}).RequestOk world
        (handle prim lib config request) :=
    fun request world _ => (readableRequests prim lib config faults _).handle_valid request trivial
  have htask : ∀ (task : PublisherTask) world,
      (readability prim faults {held | held ∈ state.world.blobs}).inv world →
      (readability prim faults {held | held ∈ state.world.blobs}).PublisherOk world
        (task.prog prim config) := by
    intro task world _
    cases task with
    | cycle denylist => exact publishCycle_legible hfree denylist world
    | heal => exact healPointerDoc_legible world
    | seed => exact seedLocalRoots_legible hfree world
  refine (Discipline.secure_steps hhandle htask ?_ hreachable (fun blob hblob => hblob)
    (Discipline.secure_initial AllLegible.empty)).1.inv
  exact fun early late hstep hlate blob hblob => hlate blob (systemStep_blobs_subset hstep hblob)

theorem getNamedRoot_run (clock : Timestamp) {world : World} {name : RootName}
    {root : Option Hash} (hfree : prim.CollisionFree {held | held ∈ world.blobs})
    (hnames : NamesRoot prim world name root) :
    (getNamedRoot name).run (prim.daemonHandler clock) world = (.ok root, world) := by
  cases root with
  | none =>
      simp [getNamedRoot, callDoc, Prog.run, Primitives.daemonHandler, hnames.entry]
  | some hash =>
      have hblob := prim.blobAt_blake3 hfree (hnames.content hash rfl)
      simp [getNamedRoot, callDoc, Prog.run, Primitives.daemonHandler, hnames.entry,
        Primitives.memoryStore, hblob]

theorem currentRoot_run (clock : Timestamp) {world : World} {partitionId : Nat}
    {docRoot : Option Hash} (hfree : prim.CollisionFree {held | held ∈ world.blobs})
    (hnames : NamesRoot prim world (.partition partitionId) docRoot) :
    (currentRoot partitionId).run (prim.daemonHandler clock) world =
      (.ok (world.index.localRoots[partitionId]?.or docRoot), world) := by
  cases hlocal : world.index.localRoots[partitionId]? with
  | some root =>
      simp [currentRoot, callIndex, Prog.run, Primitives.daemonHandler, IndexOp.commit,
        RecordIndex.getLocalRoot, hlocal]
  | none =>
      simp only [currentRoot, callIndex, Prog.call_bind, Prog.run_call, Primitives.daemonHandler,
        IndexOp.commit, RecordIndex.getLocalRoot, hlocal, Prog.pure_bind, Option.none_or]
      exact getNamedRoot_run clock hfree hnames

/-- In every reachable state, a published record is found with its content hash
and size at its partition's current root, and, if the pointer-document entry of
the partition is readable, under the root it names too. -/
theorem published_resolves {state : DaemonState}
    (hreachable : Reachable prim lib config faults state)
    (hfree : prim.CollisionFree {held | held ∈ state.world.blobs}) (clock : Timestamp)
    {key : String} {record : IndexRecord}
    (hrecord : state.world.index.records[key]? = some record)
    (hpublished : record.status = .published) :
    ∃ (root : Hash) (entry : LeafEntry),
      (currentRoot record.partitionId).run (prim.daemonHandler clock) state.world =
        (.ok (some root), state.world) ∧
      (prim.lookup (some root) key).run prim.memoryStore state.world.blobs =
        (.ok (some entry), state.world.blobs) ∧
      entry.hash = record.contentHash ∧ entry.size = record.size ∧
      ∀ docRoot : Hash,
        (getPartitionRoot record.partitionId).run (prim.daemonHandler clock) state.world =
          (.ok (some docRoot), state.world) →
        (prim.lookup (some docRoot) key).run prim.memoryStore state.world.blobs =
          (.ok (some entry), state.world.blobs) := by
  obtain ⟨trees, htrees⟩ := (allLegible_of_reachable hreachable hfree).partitions
    record.partitionId
  obtain ⟨entry, hentry⟩ := Option.isSome_iff_exists.mp
    (htrees.published key record hrecord rfl hpublished)
  have hcurrent := htrees.represents_current
  obtain ⟨root, hroot⟩ : ∃ root,
      state.world.index.localRoots[record.partitionId]?.or trees.docRoot = some root := by
    -- An absent root names the empty tree, which finds nothing.
    refine Option.ne_none_iff_exists'.mp fun hnone => ?_
    rw [hnone] at hcurrent
    cases htrie : trees.current state.world.index.localRoots[record.partitionId]? with
    | empty => simp [htrie, BucketTrie.Scheme.find] at hentry
    | leaf entries => rw [htrie] at hcurrent; cases hcurrent.hash
    | node children => rw [htrie] at hcurrent; cases hcurrent.hash
  obtain ⟨found, hfound, rfl⟩ := htrees.faithful key entry
    (htrees.current_extends_doc key entry hentry)
  obtain rfl : found = record := Option.some.inj (hfound.symm.trans hrecord)
  refine ⟨root, found.leafEntry key, ?_, ?_, rfl, rfl, ?_⟩
  · rw [currentRoot_run clock hfree htrees.docRoot, hroot]
  · rw [Primitives.lookup_run hfree key (hroot ▸ hcurrent), hentry]
  · intro docRoot hdocRoot
    rw [getPartitionRoot, getNamedRoot_run clock hfree htrees.docRoot] at hdocRoot
    have hsome : trees.docRoot = some docRoot :=
      Prog.Outcome.ok.inj (congrArg Prod.fst hdocRoot)
    rw [Primitives.lookup_run hfree key (hsome ▸ htrees.docTrie),
      htrees.current_extends_doc key _ hentry]

/-- The first record is published and found again. -/
theorem published_resolves_sample :
    ∃ (root : Hash) (entry : LeafEntry),
      (currentRoot 249).run (Sample.prim.daemonHandler 0) Sample.published.world =
        (.ok (some root), Sample.published.world) ∧
      (Sample.prim.lookup (some root) Sample.firstKey).run Sample.prim.memoryStore
          Sample.published.world.blobs = (.ok (some entry), Sample.published.world.blobs) ∧
      entry.hash = Sample.first.hash := by
  have hrecord : Sample.published.world.index.records[Sample.firstKey]? =
      some { newRecord Sample.prim Sample.lib .default Sample.firstKey Sample.firstValue
        Sample.createdAt with status := .published, publishedAt := some Sample.createdAt } := by
    decide +kernel
  have hfree : Sample.prim.CollisionFree {held | held ∈ Sample.published.world.blobs} :=
    Primitives.collisionFree_of_blobs (by decide +kernel)
  obtain ⟨root, entry, hcurrent, hlookup, hhash, -, -⟩ := published_resolves
    (Sample.published_reachable Faults.all) hfree 0 hrecord rfl
  exact ⟨root, entry, hcurrent, hlookup, hhash⟩

end Registry

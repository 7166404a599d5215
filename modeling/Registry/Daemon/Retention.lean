import Registry.Daemon.Cycle
import Registry.Daemon.Queue
import Registry.Daemon.Readable

/-! # Readers never see a record disappear

After an interrupted cycle the pointer document may name a newer tree than the
index, and the next cycle builds on the older one. It reads the rows that the
interrupted cycle had read, because rows only move forward in the queue, so the
tree it names in turn has every record that the readers have seen.
-/

namespace Registry

open Effect

/-- The tree named by the pointer document has this entry. -/
def Shows (prim : Primitives) (world : World) (partitionId : Nat) (key : String)
    (entry : LeafEntry) : Prop :=
  ∃ root trie, NamesRoot prim world (.partition partitionId) (some root) ∧
    prim.Represents world.blobs (some root) trie ∧ prim.scheme.find key trie 0 = some entry

section Covered

variable (prim : Primitives) (config : Config) (denylist : Finset String)

/-- The next cycle reads a row that puts this key into the partition's tree. -/
def Retried (partitionId : Nat) (index : RecordIndex) (key : String) : Prop :=
  key ∉ denylist ∧ ∃ item ∈ index.pendingBatch config.publishMaxPending,
    item.2.1 = key ∧ item.2.2.partitionId = partitionId

/-- Both roots of a partition name stored trees of indexed records, and what only the
tree of the pointer document has, the next cycle puts into the other one. -/
structure Covered (partitionId : Nat) (trees : Trees) (world : World) : Prop where
  localRoot : prim.Represents world.blobs world.index.localRoots[partitionId]? trees.localTrie
  docRoot : NamesRoot prim world (.partition partitionId) trees.docRoot
  docTrie : prim.Represents world.blobs trees.docRoot trees.docTrie
  ahead : Extends prim trees.localTrie trees.docTrie
  faithful : Faithful prim world.index trees.docTrie
  retried : ∀ key, (prim.scheme.find key trees.docTrie 0).isSome →
    (prim.scheme.find key (trees.current world.index.localRoots[partitionId]?) 0).isSome ∨
      Retried config denylist partitionId world.index key

/-- Every partition is covered. -/
structure AllCovered (blobUniverse : Set Bytes) (world : World) : Prop where
  within : ∀ blob ∈ world.blobs, blob ∈ blobUniverse
  index : RecordIndex.Consistent
    (fun key => prim.partitionIdForKey key config.topLevelPartitions) world.index
  partitions : ∀ partitionId, ∃ trees, Covered prim config denylist partitionId trees world

end Covered

/-- A step that leaves the roots of a partition alone. -/
structure Spares (partitionId : Nat) (before after : World) : Prop where
  blobs : before.blobs ⊆ after.blobs
  localRoot : after.index.localRoots[partitionId]? = before.index.localRoots[partitionId]?
  docEntry : after.doc.entry (.partition partitionId) = before.doc.entry (.partition partitionId)
  evolves : RecordIndex.Evolves before.index after.index

/-- A step that drops no queue row of a partition. -/
def KeepsRows (partitionId : Nat) (before after : World) : Prop :=
  ∀ (seq : Nat) (key : String) (record : IndexRecord), before.index.queue[seq]? = some key →
    before.index.records[key]? = some record → record.partitionId = partitionId →
      after.index.queue[seq]? = some key

/-- What a request may do: roots, blobs and rows stay, and the index goes on. -/
structure Appends (partitionOf : String → Nat) (before after : World) : Prop
    extends Steady before after where
  evolves : RecordIndex.Evolves before.index after.index
  rows : ∀ (seq : Nat) (key : String), before.index.queue[seq]? = some key →
    after.index.queue[seq]? = some key
  consistent : RecordIndex.Consistent partitionOf before.index →
    RecordIndex.Consistent partitionOf after.index

theorem Appends.of_sameTables {before after : World} (hsame : SameTables before after)
    (partitionOf : String → Nat) : Appends partitionOf before after where
  toSteady := hsame.steady
  evolves := hsame.index ▸ .refl _
  rows := hsame.index ▸ fun _ _ hrow => hrow
  consistent := hsame.index ▸ id

theorem Appends.trans {partitionOf : String → Nat} {first second third : World}
    (hfirst : Appends partitionOf first second) (hsecond : Appends partitionOf second third) :
    Appends partitionOf first third where
  blobs := List.Subset.trans hfirst.blobs hsecond.blobs
  localRoots := hsecond.localRoots.trans hfirst.localRoots
  doc := hsecond.doc.trans hfirst.doc
  evolves := hfirst.evolves.trans hsecond.evolves
  rows seq key hrow := hsecond.rows seq key (hfirst.rows seq key hrow)
  consistent hindex := hsecond.consistent (hfirst.consistent hindex)

theorem Steady.spares {before after : World} (hsteady : Steady before after)
    (hevolves : RecordIndex.Evolves before.index after.index) (partitionId : Nat) :
    Spares partitionId before after where
  blobs := hsteady.blobs
  localRoot := by rw [hsteady.localRoots]
  docEntry := by rw [hsteady.doc]
  evolves := hevolves

theorem Appends.keepsRows {partitionOf : String → Nat} {before after : World}
    (hstep : Appends partitionOf before after) (partitionId : Nat) :
    KeepsRows partitionId before after :=
  fun seq key _ hrow _ _ => hstep.rows seq key hrow

theorem Appends.spares {partitionOf : String → Nat} {before after : World}
    (hstep : Appends partitionOf before after) (partitionId : Nat) :
    Spares partitionId before after :=
  hstep.toSteady.spares hstep.evolves partitionId

section Steps

variable {prim : Primitives} {config : Config} {denylist : Finset String} {partitionId : Nat}
  {trees : Trees} {before after : World} {partitionOf : String → Nat}

theorem spares_setDoc {other : Nat} (hne : partitionId ≠ other) (root : Hash) (world : World) :
    Spares other world (prim.setDocBytes world (.partition partitionId) root.bytes.toList) where
  blobs := List.subset_cons_self _ _
  localRoot := rfl
  docEntry := by simp [Primitives.setDocBytes, hne]
  evolves := .refl _

theorem spares_setLocal {other : Nat} (hne : partitionId ≠ other) (root : Hash) (world : World) :
    Spares other world (world.setLocalRoot partitionId root) where
  blobs := List.Subset.refl _
  localRoot := by
    simp only [RecordIndex.setLocalRoot, Std.ExtTreeMap.getElem?_insert, Std.compare_eq_iff_eq,
      if_neg hne]
  docEntry := rfl
  evolves := world.index.setLocalRoot_evolves partitionId root

theorem spares_finish (now : Timestamp) (rows : List (Nat × String)) (status : RecordStatus)
    (world : World) (partitionId : Nat) :
    Spares partitionId world (world.finish now rows status) where
  blobs := List.Subset.refl _
  localRoot := by rw [RecordIndex.finish_localRoots]
  docEntry := rfl
  evolves := world.index.finish_evolves now rows status

/-- Retried rows that are still queued are retried. -/
theorem Retried.evolves {key : String}
    (hindex : RecordIndex.Consistent partitionOf before.index)
    (hevolves : RecordIndex.Evolves before.index after.index)
    (hretried : Retried config denylist partitionId before.index key)
    (hrows : ∀ (seq : Nat) (record : IndexRecord), before.index.queue[seq]? = some key →
      before.index.records[key]? = some record → record.partitionId = partitionId →
        key ∉ denylist → after.index.queue[seq]? = some key) :
    Retried config denylist partitionId after.index key := by
  obtain ⟨hallowed, item, hitem, rfl, hpartition⟩ := hretried
  obtain ⟨hrow, hrecord⟩ := RecordIndex.mem_pendingItems.mp (List.mem_of_mem_take hitem)
  obtain ⟨other, hother, -, hkey, hbinding⟩ := hindex.pendingBatch_evolves hevolves hitem
    (hrows item.1 item.2.2 hrow hrecord hpartition hallowed)
  refine ⟨hallowed, other, hother, hkey, ?_⟩
  exact (IndexRecord.partitionId_eq_of_binding_eq hbinding).trans hpartition

/-- A step that leaves the roots alone keeps a partition covered, as long as it drops no
row that the next cycle needs. -/
theorem Covered.spares (hcovered : Covered prim config denylist partitionId trees before)
    (hspares : Spares partitionId before after)
    (hretried : ∀ key, (prim.scheme.find key trees.docTrie 0).isSome →
      Retried config denylist partitionId before.index key →
      (prim.scheme.find key (trees.current before.index.localRoots[partitionId]?) 0).isSome ∨
        Retried config denylist partitionId after.index key) :
    Covered prim config denylist partitionId trees after where
  localRoot := hspares.localRoot ▸ hcovered.localRoot.mono hspares.blobs
  docRoot := ⟨hspares.docEntry.trans hcovered.docRoot.entry,
    fun hash hhash => hspares.blobs (hcovered.docRoot.content hash hhash)⟩
  docTrie := hcovered.docTrie.mono hspares.blobs
  ahead := hcovered.ahead
  faithful := hcovered.faithful.bound hspares.evolves.binding
  retried key hfound := by
    rw [hspares.localRoot]
    rcases hcovered.retried key hfound with hcurrent | hrow
    · exact Or.inl hcurrent
    · exact hretried key hfound hrow

theorem Covered.keepsRows (hcovered : Covered prim config denylist partitionId trees before)
    (hindex : RecordIndex.Consistent partitionOf before.index)
    (hspares : Spares partitionId before after) (hrows : KeepsRows partitionId before after) :
    Covered prim config denylist partitionId trees after := by
  refine hcovered.spares hspares fun key _ hretried => Or.inr ?_
  refine hretried.evolves hindex hspares.evolves ?_
  exact fun seq record hrow hrecord hpartition _ => hrows seq key record hrow hrecord hpartition

theorem Covered.represents_current
    (hcovered : Covered prim config denylist partitionId trees before) :
    prim.Represents before.blobs (before.index.localRoots[partitionId]?.or trees.docRoot)
      (trees.current before.index.localRoots[partitionId]?) := by
  have hlocal := hcovered.localRoot
  cases hroot : before.index.localRoots[partitionId]? with
  | some root =>
      rw [hroot] at hlocal
      exact hlocal
  | none => exact hcovered.docTrie

theorem Covered.rooted (hcovered : Covered prim config denylist partitionId trees before) :
    Rooted (.canonical prim) partitionId before.index.localRoots[partitionId]? trees.docRoot
      (trees.current before.index.localRoots[partitionId]?) before where
  known := rfl
  named _ := hcovered.docRoot
  names := ⟨hcovered.represents_current.hash, hcovered.represents_current.stored⟩

theorem Covered.current_extends_doc
    (hcovered : Covered prim config denylist partitionId trees before) :
    Extends prim (trees.current before.index.localRoots[partitionId]?) trees.docTrie := by
  cases before.index.localRoots[partitionId]? with
  | some root => exact hcovered.ahead
  | none => exact Extends.refl _

/-- The pointer document may be moved to a stored tree of indexed records that extends
the current one, if every further key in it is retried. -/
theorem Covered.setDoc (hcovered : Covered prim config denylist partitionId trees before)
    {root : Hash} {trie : HamtTrie} (htrie : prim.Represents before.blobs (some root) trie)
    (hfaithful : Faithful prim before.index trie)
    (hextends : Extends prim (trees.current before.index.localRoots[partitionId]?) trie)
    (hretried : ∀ key, (prim.scheme.find key trie 0).isSome →
      (prim.scheme.find key (trees.current before.index.localRoots[partitionId]?) 0).isSome ∨
        Retried config denylist partitionId before.index key) :
    Covered prim config denylist partitionId { trees with docRoot := some root, docTrie := trie }
      (prim.setDocBytes before (.partition partitionId) root.bytes.toList) where
  localRoot := hcovered.localRoot.mono (List.subset_cons_self _ _)
  docRoot := by
    refine ⟨?_, fun hash hhash => ?_⟩
    · simp [Primitives.setDocBytes]
    · rw [← Option.some.inj hhash]
      exact List.mem_cons_self
  docTrie := htrie.mono (List.subset_cons_self _ _)
  ahead := by
    intro key entry hfind
    apply hextends
    cases before.index.localRoots[partitionId]? with
    | some root => exact hfind
    | none => exact hcovered.ahead key entry hfind
  faithful := hfaithful
  retried key hfound := by
    dsimp only [Primitives.setDocBytes]
    cases hroot : before.index.localRoots[partitionId]? with
    | some known =>
        have hkey := hretried key hfound
        rw [hroot] at hkey
        exact hkey
    | none => exact Or.inl hfound

/-- The local root may be moved to the pointer document's; nothing is left to retry. -/
theorem Covered.setLocal (hcovered : Covered prim config denylist partitionId trees before)
    {root : Hash} (hroot : trees.docRoot = some root) :
    Covered prim config denylist partitionId { trees with localTrie := trees.docTrie }
      (before.setLocalRoot partitionId root) where
  localRoot := by
    simp only [RecordIndex.setLocalRoot, Std.ExtTreeMap.getElem?_insert_self]
    exact hroot ▸ hcovered.docTrie
  docRoot := ⟨hcovered.docRoot.entry, hcovered.docRoot.content⟩
  docTrie := hcovered.docTrie
  ahead := Extends.refl _
  faithful := hcovered.faithful
  retried key hfound := by
    simp only [RecordIndex.setLocalRoot, Std.ExtTreeMap.getElem?_insert_self]
    exact Or.inl hfound

end Steps

/-! ## The rows of a cycle -/

/-- Rows of one partition that a cycle has read and that nobody else has touched. -/
structure Held (partitionId : Nat) (items : List PendingItem) (world : World) : Prop where
  partition : ∀ item ∈ items, item.2.2.partitionId = partitionId
  known : Known items world
  rows : ∀ item ∈ items, world.index.RowOf item.row

theorem Held.evolves {partitionId : Nat} {items : List PendingItem} {before after : World}
    (hheld : Held partitionId items before)
    (hevolves : RecordIndex.Evolves before.index after.index) : Held partitionId items after where
  partition := hheld.partition
  known := hheld.known.bound hevolves.binding
  rows item hitem := (hheld.rows item hitem).evolves hevolves

/-- Finishing some of these rows drops no row of another partition. -/
theorem Held.keepsRows {partitionId other : Nat} {items : List PendingItem} {world : World}
    (hheld : Held partitionId items world) (hne : partitionId ≠ other) (now : Timestamp)
    (status : RecordStatus) {rows : List (Nat × String)}
    (hrows : ∀ row ∈ rows, ∃ item ∈ items, item.row = row) :
    KeepsRows other world (world.finish now rows status) := by
  intro seq key record hrow hrecord hpartition
  refine world.index.finish_keeps_row ?_ hrow ?_
  · intro row hmem
    obtain ⟨item, hitem, rfl⟩ := hrows row hmem
    exact hheld.rows item hitem
  · intro row hmem hkey
    obtain ⟨item, hitem, rfl⟩ := hrows row hmem
    obtain ⟨bound, hbound, hbinding⟩ := hheld.known item hitem
    obtain rfl : bound = record := by
      rw [show item.2.1 = key from hkey] at hbound
      exact Option.some.inj (hbound.symm.trans hrecord)
    have hsame := IndexRecord.partitionId_eq_of_binding_eq hbinding
    exact hne ((hheld.partition item hitem).symm.trans (hsame.symm.trans hpartition))

/-- Rows of one partition that a cycle has still to publish: they are the oldest of the
queue, and they make up for what only the pointer document's tree has. -/
structure Waiting (prim : Primitives) (config : Config) (denylist : Finset String)
    (partitionId : Nat) (items : List PendingItem) (world : World) : Prop
    extends Held partitionId items world where
  oldest : ∀ item ∈ items, ∃ other ∈ world.index.pendingBatch config.publishMaxPending,
    other.row = item.row
  retried : ∃ trees, Covered prim config denylist partitionId trees world ∧
    ∀ key, (prim.scheme.find key trees.docTrie 0).isSome →
      (prim.scheme.find key (trees.current world.index.localRoots[partitionId]?) 0).isSome ∨
        ∃ item ∈ publishable denylist items, item.2.1 = key

section Waiting

variable {prim : Primitives} {config : Config} {denylist : Finset String} {partitionId : Nat}
  {items : List PendingItem} {before after : World} {partitionOf : String → Nat}

/-- A row that a cycle would read next, and its record. -/
theorem Waiting.record (hwaiting : Waiting prim config denylist partitionId items before)
    {item other : PendingItem} (hitem : item ∈ items)
    (hother : other ∈ before.index.pendingBatch config.publishMaxPending)
    (hrow : other.row = item.row) : other.2.2.partitionId = partitionId := by
  have hkey : other.2.1 = item.2.1 := congrArg Prod.snd hrow
  obtain ⟨record, hrecord, hbinding⟩ := hwaiting.known item hitem
  have hpresent := (RecordIndex.mem_pendingItems.mp (List.mem_of_mem_take hother)).2
  obtain rfl : other.2.2 = record := by
    rw [hkey] at hpresent
    exact Option.some.inj (hpresent.symm.trans hrecord)
  exact (IndexRecord.partitionId_eq_of_binding_eq hbinding).trans (hwaiting.partition item hitem)

theorem Waiting.keepsRows (hwaiting : Waiting prim config denylist partitionId items before)
    (hindex : RecordIndex.Consistent partitionOf before.index)
    (hspares : Spares partitionId before after) (hrows : KeepsRows partitionId before after) :
    Waiting prim config denylist partitionId items after where
  toHeld := hwaiting.toHeld.evolves hspares.evolves
  oldest item hitem := by
    obtain ⟨other, hother, hrow⟩ := hwaiting.oldest item hitem
    obtain ⟨hqueued, hrecord⟩ := RecordIndex.mem_pendingItems.mp (List.mem_of_mem_take hother)
    obtain ⟨kept, hkept, hseq, hkey, -⟩ := hindex.pendingBatch_evolves hspares.evolves hother
      (hrows other.1 other.2.1 other.2.2 hqueued hrecord (hwaiting.record hitem hother hrow))
    exact ⟨kept, hkept, (Prod.ext hseq hkey : kept.row = other.row).trans hrow⟩
  retried := by
    obtain ⟨trees, hcovered, hkeys⟩ := hwaiting.retried
    refine ⟨trees, hcovered.keepsRows hindex hspares hrows, ?_⟩
    rw [hspares.localRoot]
    exact hkeys

end Waiting

/-! ## The rules of retention -/

variable {prim : Primitives} {lib : Libraries} {config : Config} {faults : Faults}
  {denylist : Finset String} {blobUniverse : Set Bytes}

theorem Shows.mono {before after : World} {partitionId : Nat} {key : String} {entry : LeafEntry}
    (hentry : after.doc.entry (.partition partitionId) = before.doc.entry (.partition partitionId))
    (hblobs : before.blobs ⊆ after.blobs) (hshows : Shows prim before partitionId key entry) :
    Shows prim after partitionId key entry := by
  obtain ⟨root, trie, hnames, htrie, hfind⟩ := hshows
  exact ⟨root, trie,
    ⟨hentry.trans hnames.entry, fun hash hhash => hblobs (hnames.content hash hhash)⟩,
    htrie.mono hblobs, hfind⟩

theorem AllCovered.empty : AllCovered prim config denylist blobUniverse .empty where
  within blob hblob := absurd hblob List.not_mem_nil
  index := .empty
  partitions partitionId :=
    ⟨⟨.empty, none, .empty⟩, by
      refine ⟨?_, ⟨?_, ?_⟩, Primitives.Represents.none, Extends.refl _, ?_, ?_⟩
      · simp [World.empty, RecordIndex.empty, Primitives.Represents.none]
      · simp [World.empty, PointerDoc.empty, PointerDoc.entry]
      · simp
      · simp [Faithful, BucketTrie.Scheme.find]
      · simp [BucketTrie.Scheme.find]⟩

/-- The partition that a key belongs to. -/
abbrev partitionOf (prim : Primitives) (config : Config) (key : String) : Nat :=
  prim.partitionIdForKey key config.topLevelPartitions

theorem AllCovered.appends {before after : World}
    (hbefore : AllCovered prim config denylist blobUniverse before)
    (hwithin : ∀ blob ∈ after.blobs, blob ∈ blobUniverse)
    (hstep : Appends (partitionOf prim config) before after) :
    AllCovered prim config denylist blobUniverse after where
  within := hwithin
  index := hstep.consistent hbefore.index
  partitions partitionId := by
    obtain ⟨trees, hcovered⟩ := hbefore.partitions partitionId
    exact ⟨trees, hcovered.keepsRows hbefore.index (hstep.spares partitionId)
      (hstep.keepsRows partitionId)⟩

/-- A step on one partition. -/
theorem AllCovered.update {before after : World} {partitionId : Nat} {trees : Trees}
    (hbefore : AllCovered prim config denylist blobUniverse before)
    (hwithin : ∀ blob ∈ after.blobs, blob ∈ blobUniverse)
    (hindex : RecordIndex.Consistent (partitionOf prim config) after.index)
    (hspares : ∀ other, partitionId ≠ other → Spares other before after ∧
      KeepsRows other before after)
    (hcovered : Covered prim config denylist partitionId trees after) :
    AllCovered prim config denylist blobUniverse after where
  within := hwithin
  index := hindex
  partitions other := by
    by_cases hother : partitionId = other
    · exact ⟨trees, hother ▸ hcovered⟩
    · obtain ⟨otherTrees, hotherCovered⟩ := hbefore.partitions other
      obtain ⟨hspared, hrows⟩ := hspares other hother
      exact ⟨otherTrees, hotherCovered.keepsRows hbefore.index hspared hrows⟩

theorem Appends.requeue {world : World} (key : String)
    (hindex : RecordIndex.Consistent (partitionOf prim config) world.index) :
    Appends (partitionOf prim config) world
      { world with index := (world.index.requeue key).2 } := by
  have hevolves := world.index.requeue_evolves key
  obtain heq | ⟨record, hrecord, heq⟩ := world.index.requeue_cases key
  · rw [heq]
    exact .of_sameTables ⟨List.Subset.refl _, rfl, rfl⟩ _
  · refine ⟨⟨List.Subset.refl _, ?_, rfl⟩, hevolves, ?_, fun _ => hindex.requeue key⟩
    · rw [heq]
    · rw [heq]
      exact fun seq other hrow => hindex.getElem?_insert_queue key hrow

variable (prim config faults denylist blobUniverse) in
/-- Requests leave all roots and rows alone; no task lets a reader lose an entry. -/
def retention : Discipline prim faults where
  bounds world := ∀ blob ∈ world.blobs, blob ∈ blobUniverse
  inv := AllCovered prim config denylist blobUniverse
  byRequest := Appends (partitionOf prim config)
  byAny before after := ∀ partitionId key entry, Shows prim before partitionId key entry →
    Shows prim after partitionId key entry
  byRequest_refl world := .of_sameTables ⟨List.Subset.refl _, rfl, rfl⟩ _
  byRequest_trans := Appends.trans
  byAny_trans hfirst hsecond partitionId key entry hshows :=
    hsecond partitionId key entry (hfirst partitionId key entry hshows)
  byAny_of_byRequest hstep partitionId _ _ hshows :=
    hshows.mono (hstep.spares partitionId).docEntry hstep.blobs
  quiet world activeWrites hbounds hworld := by
    have hsame : SameTables world { world with activeWrites := activeWrites } :=
      ⟨List.Subset.refl _, rfl, rfl⟩
    exact ⟨hworld.appends hbounds (.of_sameTables hsame _), .of_sameTables hsame _⟩
  stray world blob hbounds hworld := by
    have hsame : SameTables world { world with blobs := blob :: world.blobs } :=
      ⟨List.subset_cons_self _ _, rfl, rfl⟩
    exact ⟨hworld.appends hbounds (.of_sameTables hsame _), .of_sameTables hsame _⟩
  requeue world key hworld :=
    ⟨hworld.appends hworld.within (.requeue key hworld.index), .requeue key hworld.index⟩

theorem retention_quiet :
    Kept (retention prim config faults denylist blobUniverse).requestSetting
      Primitives.KeepsTables fun _ => True where
  rely _ _ _ := id
  call op before response after hop hinv _ hsem := by
    have hstep := Appends.of_sameTables (hsem.1.sameTables hop) (partitionOf prim config)
    exact ⟨AllCovered.appends hinv hsem.2 hstep, hstep, trivial⟩

/-- Submissions of records of their key's partition append rows. -/
theorem Appends.submitMany {world : World} {submissions : List (String × IndexRecord)}
    (hpartitions : ∀ submission ∈ submissions, submission.2.partitionId =
      partitionOf prim config submission.1)
    (hindex : RecordIndex.Consistent (partitionOf prim config) world.index) :
    Appends (partitionOf prim config) world
      { world with index := (world.index.submitMany submissions).2 } where
  blobs := List.Subset.refl _
  localRoots := RecordIndex.submitMany_localRoots _ _
  doc := rfl
  evolves := world.index.submitMany_evolves submissions
  rows _ _ hrow := hindex.submitMany_keeps_row hpartitions hrow
  consistent _ := hindex.submitMany hpartitions

variable (prim lib config faults denylist blobUniverse) in
/-- Requests submit records of their key's partition. -/
def retainingRequests :
    RequestRules (retention prim config faults denylist blobUniverse).requestSetting prim lib
      config where
  knows _ _ _ := True
  wrote _ _ _ _ := True
  putFailed _ _ _ := True
  indexFailed _ := True
  quiet := retention_quiet.mono fun _ hop => hop.keepsTables
  keep _ _ := retention_quiet.mono fun _ hop => hop.keepsTables
  put _ _ _ := trivial
  putError _ _ _ := trivial
  failedRely _ := id
  failedCall _ := id
  read _ _ hsem := by
    obtain ⟨rfl, -⟩ := hsem.1.index_ok
    exact ⟨List.length_map _, trivial⟩
  write := by
    intro seen stored submissions before response after hinv _ hsubmissions hsem
    have hpartitions : ∀ submission ∈ submissions, submission.2.partitionId =
        partitionOf prim config submission.1 := by
      intro submission hsubmission
      obtain ⟨value, -, createdAt, hrecord⟩ := hsubmissions submission hsubmission
      rw [hrecord]
      rfl
    have hstep : Appends (partitionOf prim config) before after := by
      obtain ⟨rfl, -⟩ | ⟨rfl, -⟩ := hsem.1.index_cases
      · exact .submitMany hpartitions hinv.index
      · exact (retention prim config faults denylist blobUniverse).byRequest_refl _
    refine ⟨AllCovered.appends hinv hsem.2 hstep, hstep, fun outcomes houtcomes => ⟨?_, trivial⟩⟩
    subst houtcomes
    rw [hsem.1.index_ok.1]
    exact RecordIndex.submitMany_length _ _
  indexError _ := trivial
  keepWrote _ _ _ := retention_quiet.mono fun _ hop => hop ▸ trivial

/-! ## The publisher's tasks -/

/-- The groups that a cycle still has to publish, each of its own partition. -/
structure Todo (prim : Primitives) (config : Config) (denylist : Finset String)
    (groups : List (Nat × List PendingItem)) (world : World) : Prop where
  index : RecordIndex.Consistent (partitionOf prim config) world.index
  distinct : (groups.map Prod.fst).Nodup
  waiting : ∀ group ∈ groups, Waiting prim config denylist group.1 group.2 world

theorem Todo.spares {groups : List (Nat × List PendingItem)} {before after : World}
    (htodo : Todo prim config denylist groups before)
    (hindex : RecordIndex.Consistent (partitionOf prim config) after.index)
    (hspares : ∀ group ∈ groups, Spares group.1 before after ∧ KeepsRows group.1 before after) :
    Todo prim config denylist groups after where
  index := hindex
  distinct := htodo.distinct
  waiting group hgroup :=
    (htodo.waiting group hgroup).keepsRows htodo.index (hspares group hgroup).1
    (hspares group hgroup).2

theorem Todo.appends {groups : List (Nat × List PendingItem)} {before after : World}
    (htodo : Todo prim config denylist groups before)
    (hstep : Appends (partitionOf prim config) before after) :
    Todo prim config denylist groups after :=
  htodo.spares (hstep.consistent htodo.index) fun group _ =>
    ⟨hstep.spares group.1, hstep.keepsRows group.1⟩

theorem Todo.tail {partitionId : Nat} {items : List PendingItem}
    {rest : List (Nat × List PendingItem)} {world : World}
    (htodo : Todo prim config denylist ((partitionId, items) :: rest) world) :
    Todo prim config denylist rest world ∧ ∀ group ∈ rest, partitionId ≠ group.1 := by
  obtain ⟨hhead, htail⟩ := List.nodup_cons.mp htodo.distinct
  refine ⟨⟨htodo.index, htail, fun group hgroup =>
    htodo.waiting group (List.mem_cons_of_mem _ hgroup)⟩, fun group hgroup heq => ?_⟩
  exact hhead (List.mem_map.mpr ⟨group, hgroup, heq.symm⟩)

/-- What a cycle knows while it works on a group: its rows, the other groups, and a
fact about the trees of the partition. -/
structure Working (prim : Primitives) (config : Config) (denylist : Finset String)
    (partitionId : Nat) (items : List PendingItem) (rest : List (Nat × List PendingItem))
    (fact : Trees → Option Hash → Prop) (world : World) : Prop where
  held : Held partitionId items world
  todo : Todo prim config denylist rest world
  others : ∀ group ∈ rest, partitionId ≠ group.1
  trees : ∃ trees, Covered prim config denylist partitionId trees world ∧
    fact trees world.index.localRoots[partitionId]?

theorem Working.appends {partitionId : Nat} {items : List PendingItem}
    {rest : List (Nat × List PendingItem)} {fact : Trees → Option Hash → Prop}
    {before after : World}
    (hworking : Working prim config denylist partitionId items rest fact before)
    (hstep : Appends (partitionOf prim config) before after) :
    Working prim config denylist partitionId items rest fact after where
  held := hworking.held.evolves hstep.evolves
  todo := hworking.todo.appends hstep
  others := hworking.others
  trees := by
    obtain ⟨trees, hcovered, hfact⟩ := hworking.trees
    refine ⟨trees, hcovered.keepsRows hworking.todo.index (hstep.spares partitionId)
      (hstep.keepsRows partitionId), ?_⟩
    rw [hstep.localRoots]
    exact hfact

variable (prim config denylist) in
/-- What a cycle knows at each stage. -/
def retained : CycleStage → World → Prop
  | .todo groups => Todo prim config denylist groups
  | .pointed root partitionId items rest =>
      Working prim config denylist partitionId items rest fun trees _ => trees.docRoot = some root
  | .extended partitionId items rest =>
      Working prim config denylist partitionId items rest fun trees localRoot =>
        Extends prim trees.docTrie (trees.current localRoot)
  | .marked partitionId items rest =>
      Working prim config denylist partitionId items rest fun _ _ => True

theorem retained_appends (stage : CycleStage) {before after : World}
    (hstep : Appends (partitionOf prim config) before after)
    (hbefore : retained prim config denylist stage before) :
    retained prim config denylist stage after := by
  cases stage with
  | todo groups => exact Todo.appends hbefore hstep
  | pointed root partitionId items rest => exact Working.appends hbefore hstep
  | extended partitionId items rest => exact Working.appends hbefore hstep
  | marked partitionId items rest => exact Working.appends hbefore hstep

/-- The groups of a batch wait to be published. -/
theorem todo_of_batch {world : World}
    (hworld : AllCovered prim config denylist blobUniverse world) :
    Todo prim config denylist
      (groupByPartition (world.index.pendingBatch config.publishMaxPending)).toList world where
  index := hworld.index
  distinct := by
    refine List.pairwise_map.mpr (Std.ExtTreeMap.distinct_keys_toList.imp fun hne heq => ?_)
    exact hne (Std.compare_eq_iff_eq.mpr heq)
  waiting group hgroup := by
    have hgroupItems := (mem_groupByPartition.mp hgroup).1
    have hitems : ∀ item ∈ group.2, item ∈ world.index.pendingBatch config.publishMaxPending ∧
        item.2.2.partitionId = group.1 := by
      intro item hitem
      rw [hgroupItems, List.mem_filter] at hitem
      exact ⟨hitem.1, of_decide_eq_true hitem.2⟩
    have hpending : ∀ item ∈ group.2, item ∈ world.index.pendingItems :=
      fun item hitem => List.mem_of_mem_take (hitems item hitem).1
    refine ⟨⟨fun item hitem => (hitems item hitem).2, fun item hitem => ?_, fun item hitem => ?_⟩,
      fun item hitem => ⟨item, (hitems item hitem).1, rfl⟩, ?_⟩
    · exact ⟨item.2.2, (RecordIndex.mem_pendingItems.mp (hpending item hitem)).2, rfl⟩
    · have hrow := (RecordIndex.mem_pendingItems.mp (hpending item hitem)).1
      exact ⟨(hworld.index.rows item.1 item.2.1 hrow).1, Or.inl hrow⟩
    · obtain ⟨trees, hcovered⟩ := hworld.partitions group.1
      refine ⟨trees, hcovered, fun key hfound => ?_⟩
      refine (hcovered.retried key hfound).imp_right ?_
      rintro ⟨hallowed, item, hitem, rfl, hpartition⟩
      refine ⟨item, List.mem_filter.mpr ⟨?_, decide_eq_true hallowed⟩, rfl⟩
      rw [hgroupItems]
      exact List.mem_filter.mpr ⟨hitem, decide_eq_true hpartition⟩

/-- The tree that a cycle has built extends the current one, holds only indexed records,
and holds all that the pointer document's tree holds. -/
theorem Waiting.built {partitionId : Nat} {items : List PendingItem} {root : Hash} {world : World}
    (hfree : prim.CollisionFree {held | held ∈ world.blobs})
    (hwaiting : Waiting prim config denylist partitionId items world)
    (hbuilt : Built (.canonical prim) config denylist partitionId items root world) :
    ∃ trees trie, Covered prim config denylist partitionId trees world ∧
      prim.Represents world.blobs (some root) trie ∧ Faithful prim world.index trie ∧
      Extends prim (trees.current world.index.localRoots[partitionId]?) trie ∧
      Extends prim trees.docTrie trie ∧
      ∀ key, (prim.scheme.find key trie 0).isSome →
        (prim.scheme.find key (trees.current world.index.localRoots[partitionId]?) 0).isSome ∨
          Retried config denylist partitionId world.index key := by
  obtain ⟨trees, hcovered, hkeys⟩ := hwaiting.retried
  obtain ⟨localRoot, docRoot, trie, grown, hrooted, hinsert, hgrown⟩ := hbuilt
  have hcurrent := hcovered.represents_current
  -- The tree that was read is the current one.
  obtain rfl : trie = trees.current world.index.localRoots[partitionId]? :=
    hrooted.unique hfree hcovered.rooted
  have hgrew := Primitives.GrewBy.of_insertAll hcurrent.wellFormed hinsert
  have hknown : Known (publishable denylist items) world :=
    fun item hitem => hwaiting.known item (List.mem_of_mem_filter hitem)
  obtain ⟨hextends, hnew, hfound⟩ := hknown.grown hgrew
    (hcovered.faithful.of_extends hcovered.current_extends_doc)
  refine ⟨trees, Primitives.sealed grown, hcovered, hcurrent.insertAll hinsert hgrown.1 hgrown.2,
    hnew, hextends, ?_, ?_⟩
  · intro key entry hfind
    obtain ⟨record, hrecord, rfl⟩ := hcovered.faithful key entry hfind
    have hsome : (prim.scheme.find key (Primitives.sealed grown) 0).isSome := by
      rcases hkeys key (by rw [hfind]; rfl) with hold | ⟨item, hitem, rfl⟩
      · exact hextends.isSome hold
      · exact hfound item hitem
    obtain ⟨entry, hentry⟩ := Option.isSome_iff_exists.mp hsome
    obtain ⟨other, hother, rfl⟩ := hnew key entry hentry
    obtain rfl : other = record := Option.some.inj (hother.symm.trans hrecord)
    exact hentry
  · intro key hsome
    rw [Primitives.find_sealed, hgrew.find, Option.isSome_or, Bool.or_eq_true] at hsome
    refine hsome.imp_right fun hentries => ?_
    simp only [List.find?_isSome, decide_eq_true_eq] at hentries
    obtain ⟨entry, hentry, rfl⟩ := hentries
    obtain ⟨item, hitem, rfl⟩ := List.mem_map.mp hentry
    obtain ⟨hmem, hallowed⟩ := List.mem_filter.mp hitem
    obtain ⟨other, hother, hrow⟩ := hwaiting.oldest item hmem
    exact ⟨of_decide_eq_true hallowed, other, hother, congrArg Prod.snd hrow,
      hwaiting.record hmem hother hrow⟩

/-- Rows that are finished while their partition has nothing left to retry, or that the
denylist keeps out of it, leave every partition covered. -/
theorem Working.finish {partitionId : Nat} {items : List PendingItem}
    {rest : List (Nat × List PendingItem)} {fact : Trees → Option Hash → Prop} {world : World}
    (hworking : Working prim config denylist partitionId items rest fact world)
    (hworld : AllCovered prim config denylist blobUniverse world) (now : Timestamp)
    (rows : List (Nat × String)) {status : RecordStatus} (hstatus : status ≠ .pending)
    (hrows : ∀ row ∈ rows, ∃ item ∈ items, item.row = row)
    (hdone : ∀ trees, fact trees world.index.localRoots[partitionId]? →
      Extends prim trees.docTrie (trees.current world.index.localRoots[partitionId]?) ∨
        ∀ row ∈ rows, row.2 ∈ denylist) :
    AllCovered prim config denylist blobUniverse (world.finish now rows status) ∧
      Working prim config denylist partitionId items rest fact (world.finish now rows status) := by
  have hevolves := world.index.finish_evolves now rows status
  have hrowOf : ∀ row ∈ rows, world.index.RowOf row := by
    intro row hrow
    obtain ⟨item, hitem, rfl⟩ := hrows row hrow
    exact hworking.held.rows item hitem
  have hindex := hworld.index.finish now hstatus hrowOf
  have hothers : ∀ other, partitionId ≠ other →
      Spares other world (world.finish now rows status) ∧
        KeepsRows other world (world.finish now rows status) :=
    fun other hne => ⟨spares_finish now rows status world other,
      hworking.held.keepsRows hne now status hrows⟩
  obtain ⟨trees, hcovered, hfact⟩ := hworking.trees
  have hafter : Covered prim config denylist partitionId trees (world.finish now rows status) := by
    refine hcovered.spares (spares_finish now rows status world partitionId)
      fun key hfound hretried => ?_
    rcases hdone trees hfact with hextends | hdenied
    · exact Or.inl (hextends.isSome hfound)
    · refine Or.inr (hretried.evolves hworld.index hevolves fun seq record hrow _ _ hallowed => ?_)
      refine world.index.finish_keeps_row hrowOf hrow fun row hmem hkey => ?_
      exact hallowed (hkey ▸ hdenied row hmem)
  refine ⟨hworld.update hworld.within hindex hothers hafter, ?_⟩
  refine ⟨hworking.held.evolves hevolves, hworking.todo.spares hindex fun group hgroup =>
    hothers group.1 (hworking.others group hgroup), hworking.others, trees, hafter, ?_⟩
  rw [RecordIndex.finish_localRoots]
  exact hfact

theorem shows_finish {now : Timestamp} {rows : List (Nat × String)} {status : RecordStatus}
    {world : World} (partitionId : Nat) (key : String) (entry : LeafEntry)
    (hshows : Shows prim world partitionId key entry) :
    Shows prim (world.finish now rows status) partitionId key entry := by
  apply hshows.mono
  · rfl
  · exact List.Subset.refl _

variable (prim config faults denylist blobUniverse) in
/-- A cycle lets no reader lose an entry. -/
def retainingCycle (hfree : prim.CollisionFree blobUniverse) :
    CycleRules (retention prim config faults denylist blobUniverse).publisherSetting
      (.canonical prim) faults config denylist blobUniverse where
  holds := retained prim config denylist
  exhausted := True
  sem _ _ _ _ hsem := hsem.1
  within _ hworld := hworld.within
  rely _ _ hstep := hstep.toSteady
  stable stage before after hstep hbefore := by
    refine retained_appends stage ?_ hbefore
    exact hstep.elim id fun hsame => .of_sameTables hsame _
  same op before response after hinv hsem hsame := by
    have hstep := Appends.of_sameTables hsame (partitionOf prim config)
    exact ⟨AllCovered.appends hinv hsem.2 hstep,
      (retention prim config faults denylist blobUniverse).byAny_of_byRequest hstep⟩
  read world hworld := todo_of_batch hworld
  rooted world partitionId items rest hworld _ := by
    obtain ⟨trees, hcovered⟩ := hworld.partitions partitionId
    exact ⟨_, _, _, hcovered.rooted⟩
  exhausts _ _ _ _ _ _ _ _ _ _ _ _ := trivial
  point before partitionId items rest root response hworld _ htodo hbuilt hsem := by
    have hblobs : prim.CollisionFree {held | held ∈ before.blobs} := hfree.mono hworld.within
    have hwaiting := htodo.waiting (partitionId, items) List.mem_cons_self
    obtain ⟨hrest, hothers⟩ := Todo.tail htodo
    have hspares : ∀ other, partitionId ≠ other → Spares other before
        (prim.setDocBytes before (.partition partitionId) root.bytes.toList) ∧
        KeepsRows other before
          (prim.setDocBytes before (.partition partitionId) root.bytes.toList) :=
      fun other hne => ⟨spares_setDoc hne root before, fun _ _ _ hrow _ _ => hrow⟩
    obtain ⟨trees, trie, hcovered, htrie, hfaithful, hcurrent, hdoc, hretried⟩ :=
      hwaiting.built hblobs hbuilt
    have hafter := hcovered.setDoc htrie hfaithful hcurrent hretried
    refine ⟨hworld.update hsem.2 hworld.index hspares hafter, ?_,
      hwaiting.toHeld.evolves (.refl _), ?_, hothers, _, hafter, rfl⟩
    · intro other key entry hshows
      by_cases hother : partitionId = other
      · subst hother
        obtain ⟨shown, shownTrie, hnames, hrepresents, hfind⟩ := hshows
        obtain hsame := hnames.unique hblobs hcovered.docRoot
        rw [hsame] at hrepresents
        rw [hrepresents.unique hblobs hcovered.docTrie] at hfind
        exact ⟨root, trie, hafter.docRoot, hafter.docTrie, hdoc key entry hfind⟩
      · exact hshows.mono (hspares other hother).1.docEntry (List.subset_cons_self _ _)
    · exact hrest.spares hworld.index fun group hgroup => hspares group.1 (hothers group hgroup)
  adopt before partitionId items rest root response hworld hpointed hsem := by
    obtain ⟨trees, hcovered, hroot⟩ := hpointed.trees
    have hafter := hcovered.setLocal hroot
    have hspares : ∀ other, partitionId ≠ other →
        Spares other before (before.setLocalRoot partitionId root) ∧
          KeepsRows other before (before.setLocalRoot partitionId root) :=
      fun other hne => ⟨spares_setLocal hne root before, fun _ _ _ hrow _ _ => hrow⟩
    have hindex : RecordIndex.Consistent (partitionOf prim config)
        (before.setLocalRoot partitionId root).index :=
      ⟨hworld.index.queued, hworld.index.rows, hworld.index.partitions⟩
    refine ⟨hworld.update hsem.2 hindex hspares hafter, ?_, ?_⟩
    · intro other key entry hshows
      apply hshows.mono
      · rfl
      · exact List.Subset.refl _
    · refine ⟨hpointed.held.evolves (before.index.setLocalRoot_evolves partitionId root),
        hpointed.todo.spares hindex fun group hgroup =>
          hspares group.1 (hpointed.others group hgroup),
        hpointed.others, _, hafter, ?_⟩
      simp only [RecordIndex.setLocalRoot, Std.ExtTreeMap.getElem?_insert_self]
      exact Extends.refl _
  mark now before partitionId items rest rows response hworld hrows hextended hsem := by
    have hitems : ∀ row ∈ rows, ∃ item ∈ items, item.row = row := by
      intro row hrow
      obtain ⟨item, hitem, rfl⟩ := List.mem_map.mp (hrows ▸ hrow)
      exact ⟨item, List.mem_of_mem_filter hitem, rfl⟩
    have hstatus : RecordStatus.published ≠ .pending := by decide
    obtain ⟨hafter, hworking⟩ :=
      hextended.finish hworld now rows hstatus hitems fun _ hfact => Or.inl hfact
    obtain ⟨trees, hcovered, -⟩ := hworking.trees
    exact ⟨hafter, shows_finish, hworking.held, hworking.todo, hworking.others, trees, hcovered,
      trivial⟩
  deny now before partitionId items rest rows response hworld hrows hmarked hsem := by
    have hitems : ∀ row ∈ rows, ∃ item ∈ items, item.row = row ∧ row.2 ∈ denylist := by
      intro row hrow
      obtain ⟨item, hitem, rfl⟩ := List.mem_map.mp (hrows ▸ hrow)
      obtain ⟨hmem, hdenied⟩ := List.mem_filter.mp hitem
      exact ⟨item, hmem, rfl, of_decide_eq_true hdenied⟩
    have hstatus : RecordStatus.denylisted ≠ .pending := by decide
    obtain ⟨hafter, hworking⟩ := hmarked.finish hworld now rows hstatus
      (fun row hrow => (hitems row hrow).imp fun _ hitem => ⟨hitem.1, hitem.2.1⟩)
      fun _ _ => Or.inr fun row hrow => (hitems row hrow).elim fun _ hitem => hitem.2.2
    exact ⟨hafter, shows_finish, hworking.todo⟩
  skip world partitionId items rest _ htodo := by
    have hwaiting := htodo.waiting (partitionId, items) List.mem_cons_self
    obtain ⟨trees, hcovered, -⟩ := hwaiting.retried
    obtain ⟨hrest, hothers⟩ := Todo.tail htodo
    exact ⟨hwaiting.toHeld, hrest, hothers, trees, hcovered, trivial⟩
  undenied _ _ _ _ _ hmarked := hmarked.todo

/-- Seeding adopts the tree that the readers see. -/
theorem seedLocalRoots_retains (hfree : prim.CollisionFree blobUniverse) (world : World) :
    Valid (retention prim config faults denylist blobUniverse).publisherSetting (fun _ _ => True)
      (fun _ _ => True) (seedLocalRoots config) world := by
  let rules := retainingCycle prim config faults denylist blobUniverse hfree
  refine Valid.foldlM (fun _ _ _ => True) ?_ trivial
  intro partitionId rest seeded world _ before _ hinv known after hsem
  have hreads : Primitives.KeepsTables (.index (.getLocalRoot partitionId)) := trivial
  obtain ⟨hafter, hguar⟩ := rules.same _ before known after hinv hsem (hsem.1.sameTables hreads)
  refine ⟨hafter, hguar, ?_⟩
  match known with
  | .error message => trivial
  | .ok (some root) => trivial
  | .ok none =>
      obtain ⟨trees, hcovered⟩ := hafter.partitions partitionId
      let assertion : World → Prop := fun world =>
        RecordIndex.Consistent (partitionOf prim config) world.index ∧
          Covered prim config denylist partitionId trees world
      have hstable : ∀ early late, Appends (partitionOf prim config) early late ∨
          SameTables early late → assertion early → assertion late := by
        rintro early late hmoves ⟨hindex, hearly⟩
        have hstep := hmoves.elim id fun hsame => .of_sameTables hsame _
        exact ⟨hstep.consistent hindex, hearly.keepsRows hindex (hstep.spares partitionId)
          (hstep.keepsRows partitionId)⟩
      have hkept : Kept (retention prim config faults denylist blobUniverse).publisherSetting
          TreeOp assertion :=
        (rules.kept hstable).mono fun op hop => hop.keepsTables
      change Valid _ _ _ (Prog.bind (getPartitionRoot partitionId).attempt _) after
      apply Valid.bind
      apply Valid.attempt
      refine Valid.mono ?_ (fun _ _ _ => trivial) (getNamedRoot_valid hfree rules.sem rules.within
        hkept (fun _ hworld => hworld.2.docRoot) ⟨hafter.index, hcovered⟩)
      rintro root middle ⟨hmiddle, hroot⟩
      cases root with
      | none => trivial
      | some root =>
          have hadopted : Valid
              (retention prim config faults denylist blobUniverse).publisherSetting
              (fun _ _ => True) (fun _ _ => rules.Fails)
              (callIndex (.setLocalRoot partitionId root)) middle := by
            refine rules.callIndex_valid hstable ?_ hmiddle
            rintro early response hearly ⟨-, hcoveredEarly⟩ hset
            have hconsistent : RecordIndex.Consistent (partitionOf prim config)
                (early.setLocalRoot partitionId root).index :=
              ⟨hearly.index.queued, hearly.index.rows, hearly.index.partitions⟩
            refine ⟨AllCovered.update hearly hset.2 hconsistent (fun other hne =>
              ⟨spares_setLocal hne root early, fun _ _ _ hrow _ _ => hrow⟩)
                (hcoveredEarly.setLocal hroot.symm), ?_, trivial⟩
            intro other key entry hshows
            apply hshows.mono
            · rfl
            · exact List.Subset.refl _
          apply Valid.bind
          exact Valid.mono (fun _ _ _ => trivial) (fun _ _ _ => trivial) hadopted

/-! ## Every run -/

/-- Cycles under one denylist, and the adoption of roots at a start. -/
def Publishing (denylist : Finset String) (task : PublisherTask) : Prop :=
  task = .cycle denylist ∨ task = .seed

/-- In every run of submissions and of cycles under one denylist, whatever fails or
crashes in it, an entry that readers find under the root named by the pointer
document is found there ever after. -/
theorem shown_entry_stays {state later : DaemonState}
    (hreached : GuidedSteps prim lib config faults (Publishing denylist) .initial state)
    (hsteps : GuidedSteps prim lib config faults (Publishing denylist) state later)
    (hfree : prim.CollisionFree {held | held ∈ later.world.blobs}) (clock : Timestamp)
    {partitionId : Nat} {key : String} {root : Hash} {entry : LeafEntry}
    (hroot : (getPartitionRoot partitionId).run (prim.daemonHandler clock) state.world =
      (.ok (some root), state.world))
    (hentry : (prim.lookup (some root) key).run prim.memoryStore state.world.blobs =
      (.ok (some entry), state.world.blobs)) :
    ∃ newRoot : Hash,
      (getPartitionRoot partitionId).run (prim.daemonHandler clock) later.world =
        (.ok (some newRoot), later.world) ∧
      (prim.lookup (some newRoot) key).run prim.memoryStore later.world.blobs =
        (.ok (some entry), later.world.blobs) := by
  let rules := retention prim config faults denylist {held | held ∈ later.world.blobs}
  have hhandle : ∀ request world, rules.inv world →
      rules.RequestOk world (handle prim lib config request) :=
    fun request world _ =>
      (retainingRequests prim lib config faults denylist _).handle_valid request trivial
  have htask : ∀ task : PublisherTask, Publishing denylist task → ∀ world, rules.inv world →
      rules.PublisherOk world (task.prog prim config) := by
    rintro task (rfl | rfl) world _
    · exact Valid.mono (fun _ _ _ => trivial) (fun _ _ _ => trivial)
        ((retainingCycle prim config faults denylist _ hfree).publishCycle_valid hfree world)
    · exact seedLocalRoots_retains hfree world
  have hbounds : ∀ early late, SystemStep prim lib config faults early late →
      rules.bounds late.world → rules.bounds early.world :=
    fun early late hstep hlate blob hblob => hlate blob (systemStep_blobs_subset hstep hblob)
  have hgrown := systemSteps_blobs_subset hsteps.systemSteps
  have hstate := (Discipline.secure_guidedSteps hhandle htask hbounds hreached hgrown
    (Discipline.secure_initial AllCovered.empty)).1
  obtain ⟨hlater, hkept⟩ := Discipline.secure_guidedSteps hhandle htask hbounds hsteps
    (fun blob hblob => hblob) hstate
  obtain ⟨trees, hcovered⟩ := hstate.inv.partitions partitionId
  have hblobs : prim.CollisionFree {held | held ∈ state.world.blobs} := hfree.mono hgrown
  have hshows : Shows prim state.world partitionId key entry := by
    rw [getPartitionRoot, getNamedRoot_run clock hblobs hcovered.docRoot] at hroot
    have hnamed : trees.docRoot = some root := Prog.Outcome.ok.inj (congrArg Prod.fst hroot)
    have htrie := hnamed ▸ hcovered.docTrie
    rw [Primitives.lookup_run hblobs key htrie] at hentry
    exact ⟨root, trees.docTrie, hnamed ▸ hcovered.docRoot, htrie,
      Prog.Outcome.ok.inj (congrArg Prod.fst hentry)⟩
  obtain ⟨newRoot, trie, hnames, htrie, hfind⟩ := hkept partitionId key entry hshows
  refine ⟨newRoot, getNamedRoot_run clock hfree hnames, ?_⟩
  rw [Primitives.lookup_run hfree key htrie, hfind]

namespace Sample

/-- The daemon serves one more record. -/
def accept (key : String) (json : Json) (state : DaemonState) : DaemonState :=
  let served := (handle Sample.prim Sample.lib single (.batch [⟨key, json⟩])).run
    (Sample.prim.daemonHandler createdAt) state.world
  { state with world := served.2, requests := state.requests ++ [served.1.prog] }

def cycled (handler : Prog.Handler daemonSig World) (state : DaemonState) : DaemonState :=
  { state with
    world := (((PublisherTask.cycle ∅).prog Sample.prim single).run handler state.world).2 }

/-- An index whose roots cannot be written. -/
def refusing : Prog.Handler daemonSig World
  | .index (.setLocalRoot _ _), world => (.error "disk I/O error", world)
  | op, world => Sample.prim.daemonHandler createdAt op world

theorem refusing_runs {α : Type} (prog : DaemonProg α) (world : World) :
    Prog.Runs (Sample.prim.DaemonStep .all) prog world (prog.run refusing world).1
      (prog.run refusing world).2 := by
  refine (Prog.run_runs refusing prog world).imp ?_
  rintro op before response after hcall
  have hstep := Sample.prim.daemonStep_daemonHandler .all createdAt op before
  rw [refusing.eq_def] at hcall
  split at hcall
  next =>
    obtain ⟨rfl, rfl⟩ := Prod.mk.inj hcall
    exact Or.inr ⟨trivial, ⟨_, rfl⟩, Or.inl rfl⟩
  next => rwa [hcall] at hstep

/-- The first record is published. The cycle of the second one names its tree in the
pointer document and ends there. -/
def cutOff : DaemonState :=
  cycled refusing (accept secondKey secondJson
    (cycled (Sample.prim.daemonHandler createdAt) (accept firstKey firstJson .initial)))

def retried : DaemonState := cycled (Sample.prim.daemonHandler createdAt) cutOff

theorem cutOff_reached :
    GuidedSteps Sample.prim Sample.lib single .all (Publishing ∅) .initial cutOff := by
  have hallowed : Publishing ∅ (.cycle ∅) := Or.inl rfl
  have hfirst : GuidedSteps Sample.prim Sample.lib single .all (Publishing ∅) .initial
      (cycled (Sample.prim.daemonHandler createdAt) (accept firstKey firstJson .initial)) :=
    (guidedSteps_serve createdAt .initial _).trans (guidedSteps_run createdAt rfl hallowed)
  exact (hfirst.trans (guidedSteps_serve createdAt _ _)).trans
    (guidedSteps_task rfl hallowed (refusing_runs _ _))

end Sample

/-- Readers find the second record while the index still has the root without it, and
after the cycle has been retried from there. -/
theorem shown_entry_stays_sample :
    Sample.cutOff.world.index.localRoots[0]? = some ⟨Sample.firstRoot⟩ ∧
    (Sample.prim.lookup (some ⟨Sample.bothRoot⟩) Sample.secondKey).run Sample.prim.memoryStore
        Sample.cutOff.world.blobs = (.ok (some Sample.second), Sample.cutOff.world.blobs) ∧
    ∃ newRoot : Hash,
      (getPartitionRoot 0).run (Sample.prim.daemonHandler 0) Sample.retried.world =
        (.ok (some newRoot), Sample.retried.world) ∧
      (Sample.prim.lookup (some newRoot) Sample.secondKey).run Sample.prim.memoryStore
        Sample.retried.world.blobs = (.ok (some Sample.second), Sample.retried.world.blobs) := by
  have hsteps : GuidedSteps Sample.prim Sample.lib Sample.single .all (Publishing ∅)
      Sample.cutOff Sample.retried := guidedSteps_run Sample.createdAt rfl (Or.inl rfl)
  have hfree : Sample.prim.CollisionFree {held | held ∈ Sample.retried.world.blobs} :=
    Primitives.collisionFree_of_blobs (by decide +kernel)
  have hlocal : Sample.cutOff.world.index.localRoots[0]? = some ⟨Sample.firstRoot⟩ := by
    decide +kernel
  have hroot : (getPartitionRoot 0).run (Sample.prim.daemonHandler 0) Sample.cutOff.world =
      (.ok (some ⟨Sample.bothRoot⟩), Sample.cutOff.world) := by decide +kernel
  have hentry : (Sample.prim.lookup (some ⟨Sample.bothRoot⟩) Sample.secondKey).run
      Sample.prim.memoryStore Sample.cutOff.world.blobs =
        (.ok (some Sample.second), Sample.cutOff.world.blobs) := by decide +kernel
  exact ⟨hlocal, hentry, shown_entry_stays Sample.cutOff_reached hsteps hfree 0 hroot hentry⟩

end Registry

import Registry.Core.Walkers
import Registry.Daemon.Admission
import Registry.Daemon.Readable
import Registry.Effect.Pool

/-! # Sweeps between other tasks

The blob store deletes what a collection did not protect. As long as no task takes
its write guard between the look at the counter and the end of the sweep, no abandoned
request has left a transaction behind, and the pointer document names no root but the
current ones, every value, every tree and every published record survives any number
of sweeps in any run.
-/

namespace Registry

open Effect BucketTrie

namespace Primitives

variable (prim : Primitives)

/-- What the sweep leaves of the store. -/
def sweep (live : Finset Hash) (blobs : Blobs) : Blobs :=
  blobs.filter fun blob => prim.blake3 blob ∈ live

/-- The pointer document names no root of a partition but the current one. -/
def RootsAgree (config : Config) (world : World) : Prop :=
  ∀ (partitionId : Nat) (root : Hash), prim.docRootAt world (.partition partitionId) = some root →
    prim.CurrentRoot config world partitionId root

variable {prim} {live : Finset Hash} {blobs : Blobs}

theorem mem_sweep {blob : Bytes} :
    blob ∈ prim.sweep live blobs ↔ blob ∈ blobs ∧ prim.blake3 blob ∈ live := by
  rw [sweep, List.mem_filter, decide_eq_true_iff]

theorem sweep_subset : prim.sweep live blobs ⊆ blobs := List.filter_subset_self _

/-- A trie stays stored if all its nodes are protected. -/
theorem Stored.sweep {trie : HamtTrie} (hstored : prim.Stored blobs trie)
    (hnodes : prim.NodesIn {hash | hash ∈ live} trie) :
    prim.Stored (prim.sweep live blobs) trie := by
  induction trie with
  | empty => trivial
  | leaf entries => exact mem_sweep.mpr ⟨hstored, hnodes.root rfl⟩
  | node children ih =>
      exact ⟨mem_sweep.mpr ⟨hstored.1, hnodes.root rfl⟩,
        fun slot => ih slot (hstored.2 slot) (hnodes.child slot)⟩

/-- A tree stays stored if everything its root leads to is protected. -/
theorem Represents.sweep (hfree : prim.CollisionFree {held | held ∈ blobs}) {root : Option Hash}
    {trie : HamtTrie} (htree : prim.Represents blobs root trie)
    (hlive : ∀ hash ∈ root, ∀ node, prim.ReachesNode blobs hash node → node ∈ live) :
    prim.Represents (prim.sweep live blobs) root trie := by
  refine ⟨htree.hash, ?_, htree.wellFormed⟩
  cases root with
  | none =>
      rw [eq_empty_of_hashOf htree.hash]
      trivial
  | some root =>
      have hnodes := htree.stored.nodesIn hfree htree.hash
      exact htree.stored.sweep fun path hash hhash => hlive root rfl hash (hnodes path hash hhash)

/-- Every value that a stored trie leads to is that of an entry. -/
theorem Stored.mem_of_reachesValue (hfree : prim.CollisionFree {held | held ∈ blobs})
    {trie : HamtTrie}
    {root value : Hash} (hstored : prim.Stored blobs trie) (hroot : prim.hashOf trie = some root)
    (hvalue : prim.ReachesValue blobs root value) :
    ∃ entry, trie.Mem entry ∧ entry.hash = value := by
  obtain ⟨hash, node, hreaches, hnode, hmem⟩ := hvalue
  obtain ⟨path, hpath⟩ := reachesNode_iff.mp hreaches
  have hhash := (hstored.reachesAt_iff hfree hroot).mp hpath
  rw [(hstored.descend path).nodeAt hfree hhash] at hnode
  obtain rfl := Option.some.inj hnode
  cases hplace : trie.descend path with
  | empty => simp [hplace, nodeOf, HamtNode.values] at hmem
  | leaf entries =>
      rw [hplace] at hmem
      obtain ⟨entry, hentry, rfl⟩ := List.mem_map.mp hmem
      have hbelow : (trie.descend path).Mem entry := hplace ▸ hentry
      exact ⟨entry, Trie.mem_of_mem_descend hbelow, rfl⟩
  | node children => simp [hplace, nodeOf, HamtNode.values] at hmem

/-- A root is read from an entry. -/
theorem exists_entry_of_docRootAt {world : World} {name : RootName} {root : Hash}
    (hroot : prim.docRootAt world name = some root) :
    ∃ content, world.doc.entry name = some content := by
  cases hentry : world.doc.entry name with
  | some content => exact ⟨content, rfl⟩
  | none => simp [docRootAt, hentry] at hroot

/-- A named root reads back. -/
theorem docRootAt_of_names {world : World} (hfree : prim.CollisionFree {held | held ∈ world.blobs})
    {name : RootName} {root : Option Hash} (hnames : NamesRoot prim world name root) :
    prim.docRootAt world name = root := by
  cases root with
  | none => simp [docRootAt, hnames.entry]
  | some hash =>
      have hblob := prim.blobAt_blake3 hfree (hnames.content hash rfl)
      have hlength : hash.bytes.toList.length = 32 := by simp
      simp [docRootAt, hnames.entry, hblob, hashOfBytes_toList]

end Primitives

/-! ## What the collection finds -/

section Found

variable {prim : Primitives} {lib : Libraries} {config : Config} {blobUniverse : Set Bytes}
  {world : World} {live : Finset Hash}

/-- The admitted texts among the blobs. -/
def storedTexts (lib : Libraries) (world : World) : Set String :=
  {text | Admitted lib text ∧ utf8 text ∈ world.blobs}

theorem Admits.indexedValues (hadmits : Admits prim lib config world) :
    Primitives.IndexedValues prim (storedTexts lib world) world.index := by
  intro key record hrecord
  obtain ⟨-, text, createdAt, haccepted, hheld, hbinding⟩ := hadmits.records key record hrecord
  exact ⟨text, ⟨haccepted.admitted.1, hheld⟩, congrArg Prod.fst hbinding⟩

theorem storedTexts_collisionFree (hfree : prim.CollisionFree {held | held ∈ world.blobs}) :
    prim.CollisionFree ({held | held ∈ world.blobs} ∪ Set.image utf8 (storedTexts lib world)) := by
  refine hfree.mono (Set.union_subset (Set.Subset.refl _) ?_)
  rintro blob ⟨text, ⟨-, hheld⟩, rfl⟩
  exact hheld

/-- A stored tree of admitted records is well formed. -/
theorem Faithful.wellFormedTree (hfree : prim.CollisionFree {held | held ∈ world.blobs})
    (hadmits : Admits prim lib config world) {root : Hash} {trie : HamtTrie}
    (htree : prim.Represents world.blobs (some root) trie)
    (hfaithful : Faithful prim world.index trie) :
    Primitives.WellFormedTree prim (storedTexts lib world) world.blobs root where
  decodes hash hreaches := by
    obtain ⟨path, hpath⟩ := Primitives.reachesNode_iff.mp hreaches
    have hhash := (htree.stored.reachesAt_iff hfree htree.hash).mp hpath
    rw [(htree.stored.descend path).nodeAt hfree hhash]
    rfl
  entries value hvalue := by
    obtain ⟨entry, hentry, rfl⟩ := htree.stored.mem_of_reachesValue hfree htree.hash hvalue
    obtain ⟨record, hrecord, hleaf⟩ := hfaithful (prim.scheme.keyOf entry) entry
      (htree.wellFormed.find_eq_some_iff.mpr ⟨hentry, rfl⟩)
    have hhash : entry.hash = record.contentHash := congrArg LeafEntry.hash hleaf
    rw [hhash]
    exact hadmits.indexedValues _ record hrecord

/-- Every current root names a stored tree of indexed records. -/
theorem AllLegible.current (hfree : prim.CollisionFree {held | held ∈ world.blobs})
    (hlegible : AllLegible prim blobUniverse world) {partitionId : Nat} {root : Hash}
    (hroot : prim.CurrentRoot config world partitionId root) :
    ∃ trie, prim.Represents world.blobs (some root) trie ∧ Faithful prim world.index trie := by
  obtain ⟨trees, htrees⟩ := hlegible.partitions partitionId
  rcases hroot with hlocal | ⟨-, -, hdoc⟩
  · exact ⟨trees.localTrie, hlocal ▸ htrees.localRoot, htrees.faithful.of_extends htrees.ahead⟩
  · rw [Primitives.docRootAt_of_names hfree htrees.docRoot] at hdoc
    exact ⟨trees.docTrie, hdoc ▸ htrees.docTrie, htrees.faithful⟩

/-- A set that covers what the tables name. -/
structure Protects (prim : Primitives) (config : Config) (world : World) (live : Finset Hash) :
    Prop where
  values : ∀ hash ∈ world.index.allContentHashes, hash ∈ live
  nodes : ∀ hash, prim.TreeNode config world hash → hash ∈ live
  contents : ∀ hash ∈ world.doc.entryContentHashes, hash ∈ live

/-- A collection that runs undisturbed, and reads what it asks for, covers all. -/
theorem protects_of_runs (hjson : ObjectTexts lib)
    (hfree : prim.CollisionFree {held | held ∈ world.blobs})
    (hlegible : AllLegible prim blobUniverse world) (hadmits : Admits prim lib config world)
    {format : IndexFormat} {seen : Faults} (hstore : ¬seen.store) {final : World}
    (hruns : Prog.Runs (prim.DaemonStep seen) (prim.collectLive format config) world (.ok live)
      final) : Protects prim config world live := by
  have htrees : ∀ partitionId root, prim.CurrentRoot config world partitionId root →
      Primitives.WellFormedTree prim (storedTexts lib world) world.blobs root := by
    intro partitionId root hroot
    obtain ⟨trie, htree, hfaithful⟩ := hlegible.current hfree hroot
    exact hfaithful.wellFormedTree hfree hadmits htree
  have hapart :=
    Primitives.nodesApart hjson (fun text htext => htext.1) hadmits.indexedValues htrees
    (storedTexts_collisionFree hfree)
  have hgc := hruns.imp fun op before response after hstep => hstep.gcStep hstore
  obtain ⟨-, hvalues, hnodes, -, hcontents⟩ := Primitives.collectLive_outcome
    (Primitives.collectLive_covers format (Primitives.treesReadable htrees) hapart) hgc
  exact ⟨hvalues, hnodes, hcontents⟩

/-! ## What the sweep leaves -/

/-- The world after a sweep. -/
def swept (prim : Primitives) (live : Finset Hash) (world : World) : World :=
  { world with blobs := prim.sweep live world.blobs }

/-- The value of an indexed record stays. -/
theorem Protects.mem_sweep (hprotects : Protects prim config world live) {key : String}
    {record : IndexRecord} (hrecord : world.index.records[key]? = some record) {blob : Bytes}
    (hblob : blob ∈ world.blobs) (hhash : prim.blake3 blob = record.contentHash) :
    blob ∈ prim.sweep live world.blobs := by
  have hrow : (key, record) ∈ world.index.records.toList :=
    Std.ExtTreeMap.mem_toList_iff_getElem?_eq_some.mpr hrecord
  have hhashes : record.contentHash ∈ world.index.allContentHashes :=
    List.mem_map.mpr ⟨_, hrow, rfl⟩
  exact Primitives.mem_sweep.mpr ⟨hblob, hhash ▸ hprotects.values _ hhashes⟩

theorem Durable.sweep (hdurable : Durable prim config world)
    (hprotects : Protects prim config world live) :
    Durable prim config (swept prim live world) where
  index := hdurable.index
  values key record hrecord := by
    obtain ⟨blob, hblob, hhash, hsize⟩ := hdurable.values key record hrecord
    exact ⟨blob, hprotects.mem_sweep hrecord hblob hhash, hhash, hsize⟩

theorem Admits.sweep (hadmits : Admits prim lib config world)
    (hprotects : Protects prim config world live) :
    Admits prim lib config (swept prim live world) where
  records key record hrecord := by
    obtain ⟨hkey, text, createdAt, haccepted, hheld, hbinding⟩ :=
      hadmits.records key record hrecord
    have hhash : prim.blake3 (utf8 text) = record.contentHash := (congrArg Prod.fst hbinding).symm
    exact ⟨hkey, text, createdAt, haccepted, hprotects.mem_sweep hrecord hheld hhash, hbinding⟩

/-- The roots of a partition stay readable. -/
theorem Legible.sweep (hfree : prim.CollisionFree {held | held ∈ world.blobs}) {partitionId : Nat}
    {trees : Trees} (htrees : Legible prim partitionId trees world)
    (hagree : prim.RootsAgree config world) (hprotects : Protects prim config world live) :
    Legible prim partitionId trees (swept prim live world) where
  localRoot := htrees.localRoot.sweep hfree fun root hroot node hnode =>
    hprotects.nodes node ⟨partitionId, root, Or.inl hroot, hnode⟩
  docRoot := by
    refine ⟨htrees.docRoot.entry, fun root hroot => ?_⟩
    have hentry := htrees.docRoot.entry
    rw [hroot] at hentry
    exact Primitives.mem_sweep.mpr ⟨htrees.docRoot.content root hroot,
      hprotects.contents _ (PointerDoc.mem_entryContentHashes hentry)⟩
  docTrie := by
    refine htrees.docTrie.sweep hfree fun root hroot node hnode => ?_
    -- The collection walked the current roots only, and the named root is one of them.
    have hcurrent := hagree partitionId root
      ((Primitives.docRootAt_of_names hfree htrees.docRoot).trans hroot)
    exact hprotects.nodes node ⟨partitionId, root, hcurrent, hnode⟩
  ahead := htrees.ahead
  faithful := htrees.faithful
  published := htrees.published

theorem AllLegible.sweep (hfree : prim.CollisionFree {held | held ∈ world.blobs})
    (hlegible : AllLegible prim blobUniverse world) (hagree : prim.RootsAgree config world)
    (hprotects : Protects prim config world live) :
    AllLegible prim blobUniverse (swept prim live world) where
  within blob hblob := hlegible.within blob (Primitives.sweep_subset hblob)
  partitions partitionId := by
    obtain ⟨trees, htrees⟩ := hlegible.partitions partitionId
    exact ⟨trees, htrees.sweep hfree hagree hprotects⟩

end Found

/-! ## The daemon with sweeps -/

section Steps

variable (prim : Primitives) (lib : Libraries) (format : IndexFormat) (config : Config)
  (faults seen : Faults)

/-- A step of the daemon, or a collection with its sweep. A collection that finds a write
guard taken is given up. While it runs no task takes one: each request has ended or has
yet to begin. The transactions of abandoned requests, which hold no guard, have ended. -/
inductive CollectingStep : DaemonState → DaemonState → Prop
  | daemon {state next : DaemonState} (step : SystemStep prim lib config faults state next) :
      CollectingStep state next
  | collect {state : DaemonState} {live : Finset Hash} {final : World}
      (unguarded : state.world.activeWrites = 0) (idle : state.publisher = none)
      (waiting : ∀ prog ∈ state.requests, prog.Ended ∨
        ∃ request, prog = handle prim lib config request)
      (settled : state.detached = [])
      (agree : prim.RootsAgree config state.world)
      (collected : Prog.Runs (prim.DaemonStep seen) (prim.collectLive format config) state.world
        (.ok live) final) :
      CollectingStep state { state with world := swept prim live state.world }

/-- Any number of steps, with these blobs. -/
abbrev CollectingSteps (blobUniverse : Set Bytes) : DaemonState → DaemonState → Prop :=
  Relation.ReflTransGen fun state next =>
    CollectingStep prim lib format config faults seen state next ∧
      ∀ blob ∈ next.world.blobs, blob ∈ blobUniverse

/-- All tasks keep the trees readable, the values stored and the records admitted. -/
structure Sound (blobUniverse : Set Bytes) (state : DaemonState) : Prop where
  readable : (readability prim faults blobUniverse).Secure state
  durable : (durability prim config faults).Secure state
  admitted : (admission prim lib config faults).Secure state

variable {prim lib format config faults seen} {blobUniverse : Set Bytes}

theorem Sound.initial : Sound prim lib config faults blobUniverse .initial where
  readable := Discipline.secure_initial AllLegible.empty
  durable := Discipline.secure_initial Durable.empty
  admitted := Discipline.secure_initial Admits.empty

theorem handle_legible (request : Request) (world : World) :
    (readability prim faults blobUniverse).RequestOk world (handle prim lib config request) :=
  (readableRequests prim lib config faults blobUniverse).handle_valid request trivial

theorem handle_durable (request : Request) (world : World) :
    (durability prim config faults).RequestOk world (handle prim lib config request) :=
  (durableRequests prim lib config faults).handle_valid request
    fun _ hvalue => absurd hvalue List.not_mem_nil

/-- A step of the daemon keeps all three. -/
theorem Sound.daemon (hfree : prim.CollisionFree blobUniverse) {state next : DaemonState}
    (hsound : Sound prim lib config faults blobUniverse state)
    (hstep : SystemStep prim lib config faults state next)
    (hnext : ∀ blob ∈ next.world.blobs, blob ∈ blobUniverse) :
    Sound prim lib config faults blobUniverse next where
  readable := by
    have htask : ∀ task : PublisherTask, True → ∀ world,
        (readability prim faults blobUniverse).inv world →
        (readability prim faults blobUniverse).PublisherOk world (task.prog prim config) := by
      intro task _ world _
      cases task with
      | cycle denylist => exact publishCycle_legible hfree denylist world
      | heal => exact healPointerDoc_legible world
      | seed => exact seedLocalRoots_legible hfree world
    have hbounds : ∀ early late, SystemStep prim lib config faults early late →
        (readability prim faults blobUniverse).bounds late.world →
        (readability prim faults blobUniverse).bounds early.world :=
      fun early late hlate hwithin blob hblob => hwithin blob (systemStep_blobs_subset hlate hblob)
    exact (Discipline.secure_step
      (fun request world _ => handle_legible request world) htask hbounds
      hstep hstep.starts hnext hsound.readable).1
  durable := (Discipline.secure_step (fun request world _ => handle_durable request world)
    (fun task _ world _ => task_durable task world) (fun _ _ _ _ => trivial) hstep hstep.starts
    trivial hsound.durable).1
  admitted := (Discipline.secure_step (fun request world _ => handle_admits request world)
    (fun task _ world _ => task_admits task world) (fun _ _ _ _ => trivial) hstep hstep.starts
    trivial hsound.admitted).1

/-- Between the tasks any change of the world is safe that keeps the invariant. -/
theorem Discipline.Secure.settle {rules : Discipline prim faults}
    (hhandle : ∀ request world, rules.RequestOk world (handle prim lib config request))
    {state : DaemonState} (hstate : rules.Secure state) (hidle : state.publisher = none)
    (hwaiting : ∀ prog ∈ state.requests, prog.Ended ∨
      ∃ request, prog = handle prim lib config request) (hsettled : state.detached = [])
    {after : World} (hafter : rules.inv after) : rules.Secure { state with world := after } where
  inv := hafter
  publisher prog hprog := by
    rw [hidle] at hprog
    cases hprog
  requests prog hprog := by
    rcases hwaiting prog hprog with hended | ⟨request, rfl⟩
    · have hbefore := hstate.requests prog hprog
      cases prog with
      | pure value => trivial
      | throw error => trivial
      | diverge => exact hbefore.elim
      | call op rest => exact hended.elim
    · exact hhandle request after
  detached op hop := by
    rw [hsettled] at hop
    cases hop

/-- So does a collection. -/
theorem Sound.collect (hjson : ObjectTexts lib) (hfree : prim.CollisionFree blobUniverse)
    (hstore : ¬seen.store) {state : DaemonState}
    (hsound : Sound prim lib config faults blobUniverse state) (hidle : state.publisher = none)
    (hwaiting : ∀ prog ∈ state.requests, prog.Ended ∨
      ∃ request, prog = handle prim lib config request)
    (hsettled : state.detached = []) (hagree : prim.RootsAgree config state.world)
    {live : Finset Hash} {final : World}
    (hruns : Prog.Runs (prim.DaemonStep seen) (prim.collectLive format config) state.world
      (.ok live) final) :
    Sound prim lib config faults blobUniverse
      { state with world := swept prim live state.world } := by
  have hheld : prim.CollisionFree {held | held ∈ state.world.blobs} :=
    hfree.mono hsound.readable.inv.within
  have hprotects :=
    protects_of_runs hjson hheld hsound.readable.inv hsound.admitted.inv hstore hruns
  exact ⟨hsound.readable.settle handle_legible hidle hwaiting hsettled
      (hsound.readable.inv.sweep hheld hagree hprotects),
    hsound.durable.settle handle_durable hidle hwaiting hsettled
      (hsound.durable.inv.sweep hprotects),
    hsound.admitted.settle handle_admits hidle hwaiting hsettled
      (hsound.admitted.inv.sweep hprotects)⟩

theorem Sound.of_steps (hjson : ObjectTexts lib) (hfree : prim.CollisionFree blobUniverse)
    (hstore : ¬seen.store) {state : DaemonState}
    (hsteps : CollectingSteps prim lib format config faults seen blobUniverse .initial state) :
    Sound prim lib config faults blobUniverse state := by
  induction hsteps with
  | refl => exact Sound.initial
  | tail _ hstep ih =>
      obtain ⟨hstep, hnext⟩ := hstep
      cases hstep with
      | daemon step => exact ih.daemon hfree step hnext
      | collect unguarded idle waiting settled agree collected =>
          exact ih.collect hjson hfree hstore idle waiting settled agree collected

/-- What the sweep may not take: the values of the records, the trees at both roots of each
partition, and with them the published records. -/
structure Intact (prim : Primitives) (world : World) : Prop where
  values : ∀ (key : String) (record : IndexRecord), world.index.records[key]? = some record →
    HoldsValue prim world.blobs record
  trees : ∀ (partitionId : Nat) (root : Hash), (world.index.localRoots[partitionId]? = some root ∨
    prim.docRootAt world (.partition partitionId) = some root) →
      ∀ hash, prim.ReachesNode world.blobs root hash → (prim.nodeAt world.blobs hash).isSome
  published : ∀ (key : String) (record : IndexRecord), world.index.records[key]? = some record →
    record.status = .published → ∃ root,
      world.index.localRoots[record.partitionId]?.or
        (prim.docRootAt world (.partition record.partitionId)) = some root ∧
      ∀ named, named = root ∨ prim.docRootAt world (.partition record.partitionId) = some named →
        (prim.lookup (some named) key).run prim.memoryStore world.blobs =
          (.ok (some (record.leafEntry key)), world.blobs)

/-- Nothing is missing where the roots are readable and the values stored. -/
theorem Intact.of_invariants {world : World}
    (hfree : prim.CollisionFree {held | held ∈ world.blobs})
    (hlegible : AllLegible prim blobUniverse world) (hdurable : Durable prim config world) :
    Intact prim world where
  values := hdurable.values
  trees partitionId root hroot hash hreaches := by
    obtain ⟨trees, htrees⟩ := hlegible.partitions partitionId
    have hdocRoot := Primitives.docRootAt_of_names hfree htrees.docRoot
    obtain ⟨trie, htree⟩ : ∃ trie, prim.Represents world.blobs (some root) trie := by
      rcases hroot with hlocal | hdoc
      · exact ⟨trees.localTrie, hlocal ▸ htrees.localRoot⟩
      · exact ⟨trees.docTrie, hdoc ▸ hdocRoot ▸ htrees.docTrie⟩
    obtain ⟨path, hpath⟩ := Primitives.reachesNode_iff.mp hreaches
    have hhash := (htree.stored.reachesAt_iff hfree htree.hash).mp hpath
    rw [(htree.stored.descend path).nodeAt hfree hhash]
    rfl
  published key record hrecord hpublished := by
    obtain ⟨trees, htrees⟩ := hlegible.partitions record.partitionId
    rw [Primitives.docRootAt_of_names hfree htrees.docRoot]
    obtain ⟨entry, hentry⟩ := Option.isSome_iff_exists.mp
      (htrees.published key record hrecord rfl hpublished)
    have hdocEntry := htrees.current_extends_doc key entry hentry
    obtain ⟨found, hfound, rfl⟩ := htrees.faithful key entry hdocEntry
    obtain rfl : found = record := Option.some.inj (hfound.symm.trans hrecord)
    have hcurrent := htrees.represents_current
    obtain ⟨root, hroot⟩ : ∃ root,
        world.index.localRoots[found.partitionId]?.or trees.docRoot = some root := by
      refine Option.ne_none_iff_exists'.mp fun hnone => ?_
      rw [hnone] at hcurrent
      rw [Primitives.eq_empty_of_hashOf hcurrent.hash] at hentry
      cases hentry
    refine ⟨root, hroot, fun named hnamed => ?_⟩
    rcases hnamed with rfl | hdoc
    · rw [Primitives.lookup_run hfree key (hroot ▸ hcurrent), hentry]
    · rw [Primitives.lookup_run hfree key (hdoc ▸ htrees.docTrie), hdocEntry]

/-- Whatever requests, cycles, crashes and sweeps did, the values and the trees that the
tables name are stored, and the published records resolve. -/
theorem sweeps_keep_live_data (hjson : ObjectTexts lib) (hfree : prim.CollisionFree blobUniverse)
    (hstore : ¬seen.store) {state : DaemonState}
    (hsteps : CollectingSteps prim lib format config faults seen blobUniverse .initial state) :
    Intact prim state.world := by
  have hsound := Sound.of_steps hjson hfree hstore hsteps
  exact Intact.of_invariants (hfree.mono hsound.readable.inv.within) hsound.readable.inv
    hsound.durable.inv

/-- Steps of the daemon alone. -/
theorem collectingSteps_of_systemSteps {state later : DaemonState}
    (hsteps : SystemSteps prim lib config faults state later)
    (hlater : ∀ blob ∈ later.world.blobs, blob ∈ blobUniverse) :
    CollectingSteps prim lib format config faults seen blobUniverse state later := by
  induction hsteps with
  | refl => exact .refl
  | tail _ hstep ih =>
      have hmiddle := systemStep_blobs_subset hstep
      exact (ih fun blob hblob => hlater blob (hmiddle hblob)).tail ⟨.daemon hstep, hlater⟩

end Steps

namespace Sample

/-- The daemon after it has served the first record. -/
def collectorServed : DaemonState :=
  let request := handle gcPrim gcLib single (.batch [⟨firstKey, firstJson⟩])
  { world := (request.run (gcPrim.daemonHandler createdAt) .empty).2
    publisher := none
    requests := [(request.run (gcPrim.daemonHandler createdAt) .empty).1.prog] }

/-- The daemon after it has also published the record. -/
def collectorPublished : DaemonState :=
  { collectorServed with
    world := (((PublisherTask.cycle ∅).prog gcPrim single).run (gcPrim.daemonHandler createdAt)
      collectorServed.world).2 }

/-- A blob is left that nothing names. -/
def littered : DaemonState :=
  { collectorPublished with
    world := { collectorPublished.world with
      blobs := utf8 secondValue :: collectorPublished.world.blobs } }

theorem littered_reachable (faults : Faults) : Reachable gcPrim gcLib single faults littered := by
  have hserved : GuidedSteps gcPrim gcLib single faults (fun _ => True) .initial collectorServed :=
    guidedSteps_serve createdAt .initial _
  have hpublished : GuidedSteps gcPrim gcLib single faults (fun _ => True) collectorServed
      collectorPublished := guidedSteps_run createdAt rfl trivial
  have hreached : Reachable gcPrim gcLib single faults collectorPublished :=
    GuidedSteps.systemSteps (hserved.trans hpublished)
  exact hreached.tail (.stray collectorPublished (utf8 secondValue))

theorem littered_roots : littered.world.doc.partitions.toList.map Prod.fst = [0] ∧
    gcPrim.docRootAt littered.world (.partition 0) = littered.world.index.localRoots[0]? := by
  decide +kernel

theorem littered_agree : gcPrim.RootsAgree single littered.world := by
  intro partitionId root hroot
  obtain ⟨hpartitions, hagree⟩ := littered_roots
  obtain ⟨content, hcontent⟩ := Primitives.exists_entry_of_docRootAt hroot
  have hrow : (partitionId, content) ∈ littered.world.doc.partitions.toList :=
    Std.ExtTreeMap.mem_toList_iff_getElem?_eq_some.mpr hcontent
  have hzero := List.mem_map_of_mem (f := Prod.fst) hrow
  rw [hpartitions, List.mem_singleton] at hzero
  obtain rfl : partitionId = 0 := hzero
  exact Or.inl (hagree.symm.trans hroot)

/-- The sweep takes the blob that nothing names, and the record stays. -/
theorem sweeps_keep_live_data_sample : ∃ live, second.hash ∉ live ∧
    Intact gcPrim (swept gcPrim live littered.world) ∧
    (littered.world.index.records[firstKey]?).isSome = true := by
  have hruns := gcPrim.daemonHandler_runs ⟨False, True, True⟩ 0
    (gcPrim.collectLive indexFormat single) littered.world
  have hfacts : leavesOut second.hash ((gcPrim.collectLive indexFormat single).run
        (gcPrim.daemonHandler 0) littered.world).1 = true ∧ littered.world.activeWrites = 0 ∧
      (∀ prog ∈ littered.requests, prog.Ended) ∧
      (littered.world.index.records[firstKey]?).isSome = true := by decide +kernel
  obtain ⟨hleaves, hunguarded, hended, hrecord⟩ := hfacts
  obtain ⟨live, hlive, hout⟩ := exists_of_leavesOut hleaves
  rw [hlive] at hruns
  have hfree : gcPrim.CollisionFree {held | held ∈ littered.world.blobs} :=
    Primitives.collisionFree_of_blobs (by decide +kernel)
  have hreached : CollectingSteps gcPrim gcLib indexFormat single Faults.all ⟨False, True, True⟩
      {held | held ∈ littered.world.blobs} .initial littered :=
    collectingSteps_of_systemSteps (littered_reachable Faults.all) fun blob hblob => hblob
  have hcollect : CollectingStep gcPrim gcLib indexFormat single Faults.all ⟨False, True, True⟩
      littered { littered with world := swept gcPrim live littered.world } :=
    .collect hunguarded rfl (fun prog hprog => Or.inl (hended prog hprog)) rfl littered_agree hruns
  have hswept : ∀ blob ∈ (swept gcPrim live littered.world).blobs, blob ∈ littered.world.blobs :=
    fun blob hblob => Primitives.sweep_subset hblob
  refine ⟨live, hout, ?_, hrecord⟩
  exact sweeps_keep_live_data gcLib_objectTexts hfree id (hreached.tail ⟨hcollect, hswept⟩)

end Sample

end Registry

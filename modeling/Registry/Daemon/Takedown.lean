import Registry.Daemon.Alone
import Registry.Daemon.Retention
import Registry.Daemon.Sweep

/-! # Takedowns

A key that no tree has, and that every later cycle finds on its denylist, is never
put into a tree that a root names, whatever is submitted, re-queued, interrupted or
healed meanwhile.
-/

namespace Registry

open Effect

/-- The tasks that may run while a key is on the denylist. -/
def Withholds (key : String) : PublisherTask → Prop
  | .cycle denylist => key ∈ denylist
  | _ => True

/-- A root that the publisher or the readers of a partition start from. -/
def Named (prim : Primitives) (world : World) (partitionId : Nat) (root : Hash) : Prop :=
  world.index.localRoots[partitionId]? = some root ∨
    prim.docRootAt world (.partition partitionId) = some root

/-- Both roots of a partition name stored trees without this key. -/
structure Withheld (prim : Primitives) (key : String) (partitionId : Nat) (trees : Trees)
    (world : World) : Prop where
  localRoot : prim.Represents world.blobs world.index.localRoots[partitionId]? trees.localTrie
  docRoot : NamesRoot prim world (.partition partitionId) trees.docRoot
  docTrie : prim.Represents world.blobs trees.docRoot trees.docTrie
  localAbsent : prim.scheme.find key trees.localTrie 0 = none
  docAbsent : prim.scheme.find key trees.docTrie 0 = none

/-- No partition has the key. -/
structure AllWithheld (prim : Primitives) (key : String) (blobUniverse : Set Bytes)
    (world : World) : Prop where
  within : ∀ blob ∈ world.blobs, blob ∈ blobUniverse
  partitions : ∀ partitionId, ∃ trees, Withheld prim key partitionId trees world

section Steps

variable {prim : Primitives} {lib : Libraries} {config : Config} {faults : Faults} {key : String}
  {blobUniverse : Set Bytes} {partitionId : Nat} {trees : Trees} {before after : World}

/-- A partition stays without the key as long as its roots stay. -/
theorem Withheld.mono (hwithheld : Withheld prim key partitionId trees before)
    (hblobs : before.blobs ⊆ after.blobs)
    (hlocal : after.index.localRoots[partitionId]? = before.index.localRoots[partitionId]?)
    (hdoc : after.doc.entry (.partition partitionId) = before.doc.entry (.partition partitionId)) :
    Withheld prim key partitionId trees after where
  localRoot := hlocal ▸ hwithheld.localRoot.mono hblobs
  docRoot := ⟨hdoc.trans hwithheld.docRoot.entry,
    fun hash hhash => hblobs (hwithheld.docRoot.content hash hhash)⟩
  docTrie := hwithheld.docTrie.mono hblobs
  localAbsent := hwithheld.localAbsent
  docAbsent := hwithheld.docAbsent

theorem Withheld.spares (hwithheld : Withheld prim key partitionId trees before)
    (hstep : Spares partitionId before after) : Withheld prim key partitionId trees after :=
  hwithheld.mono hstep.blobs hstep.localRoot hstep.docEntry

theorem Withheld.steady (hwithheld : Withheld prim key partitionId trees before)
    (hstep : Steady before after) : Withheld prim key partitionId trees after :=
  hwithheld.mono hstep.blobs (by rw [hstep.localRoots]) (by rw [hstep.doc])

theorem Withheld.current (hwithheld : Withheld prim key partitionId trees before) :
    prim.Represents before.blobs (before.index.localRoots[partitionId]?.or trees.docRoot)
        (trees.current before.index.localRoots[partitionId]?) ∧
      prim.scheme.find key (trees.current before.index.localRoots[partitionId]?) 0 = none := by
  have hlocal := hwithheld.localRoot
  cases hroot : before.index.localRoots[partitionId]? with
  | some root =>
      rw [hroot] at hlocal
      exact ⟨hlocal, hwithheld.localAbsent⟩
  | none => exact ⟨hwithheld.docTrie, hwithheld.docAbsent⟩

/-- The pointer document may be moved to another tree without the key. -/
theorem Withheld.setDoc (hwithheld : Withheld prim key partitionId trees before) {root : Hash}
    {trie : HamtTrie} (htrie : prim.Represents before.blobs (some root) trie)
    (habsent : prim.scheme.find key trie 0 = none) :
    Withheld prim key partitionId { trees with docRoot := some root, docTrie := trie }
      (prim.setDocBytes before (.partition partitionId) root.bytes.toList) where
  localRoot := hwithheld.localRoot.mono (List.subset_cons_self _ _)
  docRoot := by
    refine ⟨?_, fun hash hhash => ?_⟩
    · simp [Primitives.setDocBytes]
    · rw [← Option.some.inj hhash]
      exact List.mem_cons_self
  docTrie := htrie.mono (List.subset_cons_self _ _)
  localAbsent := hwithheld.localAbsent
  docAbsent := habsent

theorem Withheld.setLocal (hwithheld : Withheld prim key partitionId trees before) {root : Hash}
    (hroot : trees.docRoot = some root) :
    Withheld prim key partitionId { trees with localTrie := trees.docTrie }
      (before.setLocalRoot partitionId root) where
  localRoot := by
    simp only [RecordIndex.setLocalRoot, Std.ExtTreeMap.getElem?_insert_self]
    exact hroot ▸ hwithheld.docTrie
  docRoot := ⟨hwithheld.docRoot.entry, hwithheld.docRoot.content⟩
  docTrie := hwithheld.docTrie
  localAbsent := hwithheld.docAbsent
  docAbsent := hwithheld.docAbsent

theorem AllWithheld.steady (hbefore : AllWithheld prim key blobUniverse before)
    (hwithin : ∀ blob ∈ after.blobs, blob ∈ blobUniverse) (hstep : Steady before after) :
    AllWithheld prim key blobUniverse after := by
  refine ⟨hwithin, fun partitionId => ?_⟩
  obtain ⟨trees, htrees⟩ := hbefore.partitions partitionId
  exact ⟨trees, htrees.steady hstep⟩

/-- A step on one partition. -/
theorem AllWithheld.update (hbefore : AllWithheld prim key blobUniverse before)
    (hwithin : ∀ blob ∈ after.blobs, blob ∈ blobUniverse)
    (hstep : ∀ other, partitionId ≠ other → Spares other before after)
    (htrees : Withheld prim key partitionId trees after) :
    AllWithheld prim key blobUniverse after := by
  refine ⟨hwithin, fun other => ?_⟩
  by_cases hother : partitionId = other
  · exact ⟨trees, hother ▸ htrees⟩
  · obtain ⟨otherTrees, hwithheld⟩ := hbefore.partitions other
    exact ⟨otherTrees, hwithheld.spares (hstep other hother)⟩

/-- A tree grown by rows that the denylist lets pass is without the keys on it. -/
theorem find_publishable_none {denylist : Finset String} (hdenied : key ∈ denylist)
    {items : List PendingItem} {smaller larger : HamtTrie}
    (hgrew : prim.GrewBy smaller ((publishable denylist items).map PendingItem.entry) larger)
    (habsent : prim.scheme.find key smaller 0 = none) :
    prim.scheme.find key (Primitives.sealed larger) 0 = none := by
  rw [Primitives.find_sealed, hgrew.find, habsent, Option.none_or, List.find?_eq_none]
  intro entry hentry
  obtain ⟨item, hitem, rfl⟩ := List.mem_map.mp hentry
  have hpasses : item.2.1 ∉ denylist := of_decide_eq_true (List.mem_filter.mp hitem).2
  have hne : item.entry.key ≠ key := by
    rintro rfl
    exact hpasses hdenied
  simpa using hne

/-! ## The rules -/

theorem steady_requeue (world : World) (key : String) :
    Steady world { world with index := (world.index.requeue key).2 } := by
  obtain heq | ⟨record, -, heq⟩ := world.index.requeue_cases key
  · rw [heq]
    exact ⟨List.Subset.refl _, rfl, rfl⟩
  · rw [heq]
    exact ⟨List.Subset.refl _, rfl, rfl⟩

theorem Steady.trans {first second third : World} (hfirst : Steady first second)
    (hsecond : Steady second third) : Steady first third where
  blobs := List.Subset.trans hfirst.blobs hsecond.blobs
  localRoots := hsecond.localRoots.trans hfirst.localRoots
  doc := hsecond.doc.trans hfirst.doc

variable (prim faults key blobUniverse) in
/-- Requests leave all roots alone, and no task puts the key into a tree. -/
def takedown : Discipline prim faults where
  bounds world := ∀ blob ∈ world.blobs, blob ∈ blobUniverse
  inv := AllWithheld prim key blobUniverse
  byRequest := Steady
  byAny _ _ := True
  byRequest_refl world := ⟨List.Subset.refl _, rfl, rfl⟩
  byRequest_trans := Steady.trans
  byAny_trans _ _ := trivial
  byAny_of_byRequest _ := trivial
  quiet world activeWrites hbounds hworld := by
    have hstep : Steady world { world with activeWrites := activeWrites } :=
      ⟨List.Subset.refl _, rfl, rfl⟩
    exact ⟨hworld.steady hbounds hstep, hstep⟩
  stray world blob hbounds hworld := by
    have hstep : Steady world { world with blobs := blob :: world.blobs } :=
      ⟨List.subset_cons_self _ _, rfl, rfl⟩
    exact ⟨hworld.steady hbounds hstep, hstep⟩
  requeue world requeued hworld :=
    ⟨hworld.steady hworld.within (steady_requeue world requeued), steady_requeue world requeued⟩

/-- A vetted operation leaves all roots alone. -/
theorem Vetted.steady {op : DaemonOp} {response : daemonSig.Res op} (hop : Vetted lib config op)
    (hstep : prim.DaemonStep faults op before response after) : Steady before after := by
  unfold Vetted at hop
  split at hop
  next bytes =>
    have hput : Primitives.KeepsTables (.store (.put bytes)) := trivial
    exact (hstep.sameTables hput).steady
  next =>
    obtain ⟨rfl, -⟩ | ⟨rfl, -⟩ := hstep.index_cases
    · exact ⟨List.Subset.refl _, RecordIndex.submitMany_localRoots .., rfl⟩
    · exact ⟨List.Subset.refl _, rfl, rfl⟩
  next => exact (hstep.sameTables hop).steady

theorem takedown_kept : Kept (takedown prim faults key blobUniverse).requestSetting
    (Vetted lib config) fun _ => True := by
  refine ⟨fun _ _ _ => id, fun op before response after hop hinv _ hsem => ?_⟩
  have hstep := hop.steady hsem.1
  exact ⟨AllWithheld.steady hinv hsem.2 hstep, hstep, trivial⟩

theorem takedown_request {world : World} {prog : ApiProg Response}
    (hprog : prog.Uses (Vetted lib config)) :
    (takedown prim faults key blobUniverse).RequestOk world prog :=
  Valid.of_uses takedown_kept hprog trivial

theorem takedown_transaction {world : World} {op : IndexOp} (hop : Vetted lib config (.index op)) :
    (takedown prim faults key blobUniverse).TransactionOk world op := by
  have hkept : Kept (takedown prim faults key blobUniverse).requestSetting (Vetted lib config)
      fun _ => True := takedown_kept
  exact Valid.of_uses hkept ⟨hop, fun _ => trivial⟩ trivial

variable (prim key) in
/-- What a cycle knows of the tree that it has named but not adopted. -/
def withholding : CycleStage → World → Prop
  | .pointed root partitionId _ _, world =>
      ∃ trees, Withheld prim key partitionId trees world ∧ trees.docRoot = some root
  | _, _ => True

theorem withholding_steady (stage : CycleStage) (hstep : Steady before after)
    (hbefore : withholding prim key stage before) : withholding prim key stage after := by
  cases stage with
  | pointed root partitionId items rest =>
      obtain ⟨trees, htrees, hroot⟩ := hbefore
      exact ⟨trees, htrees.steady hstep, hroot⟩
  | todo groups => trivial
  | extended partitionId items rest => trivial
  | marked partitionId items rest => trivial

variable (prim config faults key blobUniverse) in
/-- A cycle that has the key on its denylist puts it into no tree. -/
def withholdingCycle (hfree : prim.CollisionFree blobUniverse) {denylist : Finset String}
    (hdenied : key ∈ denylist) :
    CycleRules (takedown prim faults key blobUniverse).publisherSetting
      (.canonical prim) faults config denylist blobUniverse where
  holds := withholding prim key
  exhausted := True
  sem _ _ _ _ hsem := hsem.1
  within _ hworld := hworld.within
  rely _ _ hstep := hstep
  stable stage before after hstep := withholding_steady stage (hstep.elim id SameTables.steady)
  same op before response after hinv hsem hsame :=
    ⟨AllWithheld.steady hinv hsem.2 hsame.steady, trivial⟩
  read _ _ := trivial
  rooted world partitionId items rest hworld _ := by
    obtain ⟨trees, htrees⟩ := hworld.partitions partitionId
    have hcurrent := htrees.current.1
    exact ⟨_, _, _, rfl, fun _ => htrees.docRoot, hcurrent.hash, hcurrent.stored⟩
  exhausts _ _ _ _ _ _ _ _ _ _ _ _ := trivial
  point before partitionId items rest root response hworld _ _ hbuilt hsem := by
    obtain ⟨trees, htrees⟩ := hworld.partitions partitionId
    obtain ⟨hcurrent, habsent⟩ := htrees.current
    have hrooted : Rooted (.canonical prim) partitionId before.index.localRoots[partitionId]?
        trees.docRoot (trees.current before.index.localRoots[partitionId]?) before :=
      ⟨rfl, fun _ => htrees.docRoot, hcurrent.hash, hcurrent.stored⟩
    obtain ⟨localRoot, docRoot, trie, grown, hbefore, hinsert, hhash, hheld⟩ := hbuilt
    obtain rfl := hbefore.unique (hfree.mono hworld.within) hrooted
    have hgrown := find_publishable_none hdenied
      (Primitives.GrewBy.of_insertAll hcurrent.wellFormed hinsert) habsent
    have hafter := htrees.setDoc (hcurrent.insertAll hinsert hhash hheld) hgrown
    exact ⟨AllWithheld.update hworld hsem.2 (fun other hne => spares_setDoc hne root before) hafter,
      trivial, _, hafter, rfl⟩
  adopt before partitionId items rest root response hworld hpointed hsem := by
    obtain ⟨trees, htrees, hroot⟩ := hpointed
    exact ⟨AllWithheld.update hworld hsem.2 (fun other hne => spares_setLocal hne root before)
      (htrees.setLocal hroot), trivial, trivial⟩
  mark now before partitionId items rest rows response hworld _ _ hsem :=
    ⟨AllWithheld.steady hworld hsem.2 (steady_finish before now rows .published), trivial, trivial⟩
  deny now before partitionId items rest rows response hworld _ _ hsem :=
    ⟨AllWithheld.steady hworld hsem.2 (steady_finish before now rows .denylisted), trivial, trivial⟩
  skip _ _ _ _ _ _ := trivial
  undenied _ _ _ _ _ _ := trivial

/-- Healing names only trees that the index names already. -/
theorem healPointerDoc_withholds (world : World) :
    Valid (takedown prim faults key blobUniverse).publisherSetting (fun _ _ => True)
      (fun _ _ => True) healPointerDoc world := by
  have hkept : ∀ assertion : World → Prop,
      (∀ early late, Steady early late → assertion early → assertion late) →
      Kept (takedown prim faults key blobUniverse).publisherSetting
        Primitives.KeepsTables assertion :=
    fun assertion hstable => ⟨hstable, fun op early response late hop hinv hearly hsem =>
      have hstep := (hsem.1.sameTables hop).steady
      ⟨AllWithheld.steady hinv hsem.2 hstep, trivial, hstable early late hstep hearly⟩⟩
  intro before _ hinv localRoots after hsem
  obtain ⟨hafter, hguar, -⟩ := (hkept (fun _ => True) fun _ _ _ => id).call (.index .allLocalRoots)
    before localRoots after trivial hinv trivial hsem
  refine ⟨hafter, hguar, ?_⟩
  cases localRoots with
  | error message => trivial
  | ok localRoots =>
      let I : List (Nat × Hash) → Nat → World → Prop := fun rows _ world =>
        ∀ row ∈ rows, world.index.localRoots[row.1]? = some row.2
      have hstable : ∀ rows (healed : Nat) early late, Steady early late → I rows healed early →
          I rows healed late :=
        fun rows healed early late hstep hearly row hrow => hstep.localRoots ▸ hearly row hrow
      have hinit : I localRoots 0 after := by
        obtain ⟨rfl, rfl⟩ := hsem.1.index_ok
        exact fun row hrow => Std.ExtTreeMap.mem_toList_iff_getElem?_eq_some.mp hrow
      refine Valid.mono (fun _ _ _ => trivial) (fun _ _ (_ : True) => trivial)
        (Valid.foldlM I ?_ hinit)
      intro row rows healed world hworld
      have hset : ∀ middle, I (row :: rows) healed middle →
          Valid (takedown prim faults key blobUniverse).publisherSetting
            (fun _ after => I rows (healed + 1) after) (fun _ _ => True)
            (setPartitionRoot row.1 row.2) middle := by
        intro middle hmiddle early hearly hinvEarly response late hlate
        have hrows := hstable _ healed middle early hearly hmiddle
        obtain ⟨trees, htrees⟩ := hinvEarly.partitions row.1
        have hlocal := htrees.localRoot
        rw [hrows row List.mem_cons_self] at hlocal
        have hpointed : late = prim.setDocBytes early (.partition row.1) row.2.bytes.toList →
            AllWithheld prim key blobUniverse late := by
          rintro rfl
          exact hinvEarly.update hlate.2 (fun other hne => spares_setDoc hne row.2 early)
            (htrees.setDoc hlocal htrees.localAbsent)
        rcases hlate.1 with ⟨rfl, hpoint⟩ | ⟨-, ⟨message, rfl⟩, rfl | rfl | hpoint⟩
        · refine ⟨hpointed hpoint, trivial, fun other hother => ?_⟩
          subst hpoint
          exact hrows other (List.mem_cons_of_mem _ hother)
        · exact ⟨hinvEarly, trivial, trivial⟩
        · have hblob : Steady early { early with blobs := row.2.bytes.toList :: early.blobs } :=
            ⟨List.subset_cons_self _ _, rfl, rfl⟩
          exact ⟨AllWithheld.steady hinvEarly hlate.2 hblob, trivial, trivial⟩
        · exact ⟨hpointed hpoint, trivial, trivial⟩
      apply Valid.bind
      apply Valid.attempt
      refine Valid.mono ?_ ?_ (Valid.of_uses (hkept _ (hstable (row :: rows) healed))
        (getPartitionRoot_uses row.1) hworld)
      · intro root middle hmiddle
        cases root with
        | some hash => exact fun other hother => hmiddle other (List.mem_cons_of_mem _ hother)
        | none =>
            apply Valid.bind
            exact hset middle hmiddle
      · intro error middle hmiddle
        apply Valid.bind
        exact hset middle hmiddle

/-- Seeding adopts only trees that the pointer document names already. -/
theorem seedLocalRoots_withholds (hfree : prim.CollisionFree blobUniverse) (world : World) :
    Valid (takedown prim faults key blobUniverse).publisherSetting (fun _ _ => True)
      (fun _ _ => True) (seedLocalRoots config) world := by
  let rules := withholdingCycle prim config faults key blobUniverse hfree
    (Finset.mem_singleton_self key)
  refine Valid.foldlM (fun _ _ _ => True) ?_ trivial
  intro partitionId rest seeded world _ before _ hinv known after hsem
  have hreads : Primitives.KeepsTables (.index (.getLocalRoot partitionId)) := trivial
  obtain ⟨hafter, hguar⟩ := rules.same _ before known after hinv hsem (hsem.1.sameTables hreads)
  refine ⟨hafter, hguar, ?_⟩
  match known with
  | .error message => trivial
  | .ok (some root) => trivial
  | .ok none =>
      obtain ⟨trees, htrees⟩ := hafter.partitions partitionId
      have hstable : ∀ early late, Steady early late ∨ SameTables early late →
          Withheld prim key partitionId trees early → Withheld prim key partitionId trees late :=
        fun early late hmoves hearly => hearly.steady (hmoves.elim id SameTables.steady)
      have hkept : Kept (takedown prim faults key blobUniverse).publisherSetting TreeOp
          (Withheld prim key partitionId trees) :=
        (rules.kept hstable).mono fun op hop => hop.keepsTables
      change Valid _ _ _ (Prog.bind (getPartitionRoot partitionId).attempt _) after
      apply Valid.bind
      apply Valid.attempt
      refine Valid.mono ?_ (fun _ _ _ => trivial) (getNamedRoot_valid hfree rules.sem rules.within
        hkept (fun _ hworld => hworld.docRoot) htrees)
      rintro root middle ⟨hmiddle, hroot⟩
      cases root with
      | none => trivial
      | some root =>
          have hadopted : Valid (takedown prim faults key blobUniverse).publisherSetting
              (fun _ _ => True) (fun _ _ => rules.Fails)
              (callIndex (.setLocalRoot partitionId root)) middle := by
            refine rules.callIndex_valid hstable ?_ hmiddle
            intro early response hearly htreesEarly hset
            exact ⟨AllWithheld.update hearly hset.2
              (fun other hne => spares_setLocal hne root early)
              (htreesEarly.setLocal hroot.symm), trivial, trivial⟩
          apply Valid.bind
          exact Valid.mono (fun _ _ _ => trivial) (fun _ _ _ => trivial) hadopted

/-! ## Every run -/

/-- Where no root leads to the key, no tree has it. -/
theorem AllWithheld.of_legible (hfree : prim.CollisionFree {held | held ∈ before.blobs})
    (hlegible : AllLegible prim {held | held ∈ before.blobs} before)
    (hwithin : ∀ blob ∈ before.blobs, blob ∈ blobUniverse)
    (habsent : ∀ partitionId root, Named prim before partitionId root →
      (prim.lookup (some root) key).run prim.memoryStore before.blobs = (.ok none, before.blobs)) :
    AllWithheld prim key blobUniverse before := by
  have hfind : ∀ partitionId root trie, prim.Represents before.blobs root trie →
      (∀ hash, root = some hash → Named prim before partitionId hash) →
      prim.scheme.find key trie 0 = none := by
    intro partitionId root trie htrie hnamed
    cases root with
    | none =>
        rw [Primitives.eq_empty_of_hashOf htrie.hash]
        rfl
    | some hash =>
        have hlookup := habsent partitionId hash (hnamed hash rfl)
        rw [Primitives.lookup_run hfree key htrie] at hlookup
        exact Prog.Outcome.ok.inj (congrArg Prod.fst hlookup)
  refine ⟨hwithin, fun partitionId => ?_⟩
  obtain ⟨trees, htrees⟩ := hlegible.partitions partitionId
  have hdocRoot := Primitives.docRootAt_of_names hfree htrees.docRoot
  exact ⟨trees, htrees.localRoot, htrees.docRoot, htrees.docTrie,
    hfind partitionId _ _ htrees.localRoot fun _ => Or.inl,
    hfind partitionId _ _ htrees.docTrie fun _ hroot => Or.inr (hdocRoot.trans hroot)⟩

/-- From any moment between cycles at which no root leads to a key, and as long as every
cycle has it on its denylist, no root ever leads to it. -/
theorem takedown_holds {state later : DaemonState}
    (hreachable : Reachable prim lib config faults state) (hidle : state.publisher = none)
    (habsent : ∀ partitionId root, Named prim state.world partitionId root →
      (prim.lookup (some root) key).run prim.memoryStore state.world.blobs =
        (.ok none, state.world.blobs))
    (hsteps : GuidedSteps prim lib config faults (Withholds key) state later)
    (hfree : prim.CollisionFree {held | held ∈ later.world.blobs}) {partitionId : Nat} {root : Hash}
    (hnamed : Named prim later.world partitionId root) :
    (prim.lookup (some root) key).run prim.memoryStore later.world.blobs =
      (.ok none, later.world.blobs) := by
  let rules := takedown prim faults key {held | held ∈ later.world.blobs}
  have hgrown := systemSteps_blobs_subset hsteps.systemSteps
  have hblobs : prim.CollisionFree {held | held ∈ state.world.blobs} := hfree.mono hgrown
  have hhandle : ∀ request world, rules.inv world →
      rules.RequestOk world (handle prim lib config request) :=
    fun request world _ => takedown_request (handle_emits request).uses
  have htask : ∀ task : PublisherTask, Withholds key task → ∀ world, rules.inv world →
      rules.PublisherOk world (task.prog prim config) := by
    intro task hallowed world _
    cases task with
    | cycle denylist =>
        exact Valid.mono (fun _ _ _ => trivial) (fun _ _ _ => trivial)
          ((withholdingCycle prim config faults key _ hfree hallowed).publishCycle_valid
            hfree world)
    | heal => exact healPointerDoc_withholds world
    | seed => exact seedLocalRoots_withholds hfree world
  have hbounds : ∀ early late, SystemStep prim lib config faults early late →
      rules.bounds late.world → rules.bounds early.world :=
    fun early late hstep hlate blob hblob => hlate blob (systemStep_blobs_subset hstep hblob)
  have hstate : rules.Secure state := by
    refine ⟨?_, ?_, fun prog hprog => takedown_request (requests_use hreachable prog hprog),
      fun op hop => takedown_transaction (detached_vetted hreachable op hop)⟩
    · exact AllWithheld.of_legible hblobs (allLegible_of_reachable hreachable hblobs) hgrown habsent
    · intro prog hprog
      rw [hidle] at hprog
      cases hprog
  have hlater := (Discipline.secure_guidedSteps hhandle htask hbounds hsteps (fun _ hblob => hblob)
    hstate).1.inv
  obtain ⟨trees, htrees⟩ := hlater.partitions partitionId
  rcases hnamed with hlocal | hdoc
  · rw [Primitives.lookup_run hfree key (hlocal ▸ htrees.localRoot), htrees.localAbsent]
  · rw [Primitives.docRootAt_of_names hfree htrees.docRoot] at hdoc
    rw [Primitives.lookup_run hfree key (hdoc ▸ htrees.docTrie), htrees.docAbsent]

end Steps

namespace Sample

/-- A cycle finds the first of the two records on its denylist. -/
def takenDown : DaemonState :=
  { accepted with
    world := (((PublisherTask.cycle {firstKey}).prog prim single).run (prim.daemonHandler createdAt)
      accepted.world).2 }

theorem accepted_unnamed (partitionId : Nat) (root : Hash) :
    ¬Named prim accepted.world partitionId root := by
  have hempty : accepted.world.index.localRoots.toList = [] ∧
      accepted.world.doc.partitions.toList = [] := by decide +kernel
  rintro (hlocal | hdoc)
  · have hrow := Std.ExtTreeMap.mem_toList_iff_getElem?_eq_some.mpr hlocal
    rw [hempty.1] at hrow
    exact absurd hrow List.not_mem_nil
  · obtain ⟨content, hcontent⟩ := Primitives.exists_entry_of_docRootAt hdoc
    have hrow : (partitionId, content) ∈ accepted.world.doc.partitions.toList :=
      Std.ExtTreeMap.mem_toList_iff_getElem?_eq_some.mpr hcontent
    rw [hempty.2] at hrow
    exact absurd hrow List.not_mem_nil

/-- The tree has the second record only. -/
theorem takedown_holds_sample :
    (prim.lookup (some ⟨secondRoot⟩) firstKey).run prim.memoryStore takenDown.world.blobs =
      (.ok none, takenDown.world.blobs) := by
  have hreachable := accepted_reachable .all
  have hallowed : Withholds firstKey (.cycle {firstKey}) := Finset.mem_singleton_self firstKey
  have hsteps : GuidedSteps prim lib single .all (Withholds firstKey) accepted takenDown :=
    guidedSteps_run createdAt rfl hallowed
  have hfree : prim.CollisionFree {held | held ∈ takenDown.world.blobs} :=
    Primitives.collisionFree_of_blobs (by decide +kernel)
  have hroot : takenDown.world.index.localRoots[0]? = some ⟨secondRoot⟩ := by decide +kernel
  exact takedown_holds hreachable rfl
    (fun partitionId root hnamed => absurd hnamed (accepted_unnamed partitionId root)) hsteps hfree
    (Or.inl hroot)

end Sample

end Registry

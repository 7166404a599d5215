import Registry.Core.Readback
import Registry.Daemon.Roots

/-! # A publish cycle, verified once

A cycle goes through its groups one by one and through the same four writes for
each of them. What a proof about the publisher has to say about the single writes
is gathered as the rules of a cycle; that a cycle which follows such rules keeps
them to its end is shown here, for any rules.
-/

namespace Registry

open Effect

/-- No root has moved and no blob is gone. -/
structure Steady (before after : World) : Prop where
  blobs : before.blobs ⊆ after.blobs
  localRoots : after.index.localRoots = before.index.localRoots
  doc : after.doc = before.doc

/-- The same tables, and no fewer blobs. -/
structure SameTables (before after : World) : Prop where
  blobs : before.blobs ⊆ after.blobs
  index : after.index = before.index
  doc : after.doc = before.doc

theorem SameTables.refl (world : World) : SameTables world world :=
  ⟨List.Subset.refl _, rfl, rfl⟩

theorem SameTables.trans {first second third : World} (hfirst : SameTables first second)
    (hsecond : SameTables second third) : SameTables first third where
  blobs := List.Subset.trans hfirst.blobs hsecond.blobs
  index := hsecond.index.trans hfirst.index
  doc := hsecond.doc.trans hfirst.doc

theorem SameTables.steady {before after : World} (hsame : SameTables before after) :
    Steady before after where
  blobs := hsame.blobs
  localRoots := congrArg RecordIndex.localRoots hsame.index
  doc := hsame.doc

theorem Primitives.DaemonStep.sameTables {prim : Primitives} {faults : Faults} {op : DaemonOp}
    {before after : World} {response : daemonSig.Res op} (hop : Primitives.KeepsTables op)
    (hstep : prim.DaemonStep faults op before response after) : SameTables before after where
  blobs := hstep.blobs_subset
  index := (hstep.keepsTables hop).1
  doc := (hstep.keepsTables hop).2

theorem NamesRoot.steady {prim : Primitives} {before after : World} {name : RootName}
    {root : Option Hash} (hsteady : Steady before after)
    (hnames : NamesRoot prim before name root) : NamesRoot prim after name root where
  entry := hsteady.doc ▸ hnames.entry
  content hash hhash := hsteady.blobs (hnames.content hash hhash)

/-- The roots of a partition, and the tree at its current root. -/
structure Rooted {prim : Primitives} (naming : Primitives.Naming prim) (partitionId : Nat)
    (localRoot docRoot : Option Hash) (trie : HamtTrie) (world : World) : Prop where
  known : world.index.localRoots[partitionId]? = localRoot
  named : localRoot = none → NamesRoot prim world (.partition partitionId) docRoot
  names : naming.names world.blobs trie (localRoot.or docRoot)

theorem Rooted.steady {prim : Primitives} {naming : Primitives.Naming prim} {partitionId : Nat}
    {localRoot docRoot : Option Hash} {trie : HamtTrie} {before after : World}
    (hsteady : Steady before after)
    (hrooted : Rooted naming partitionId localRoot docRoot trie before) :
    Rooted naming partitionId localRoot docRoot trie after where
  known := hsteady.localRoots ▸ hrooted.known
  named hnone := (hrooted.named hnone).steady hsteady
  names := naming.mono hsteady.blobs hrooted.names

/-- The current root of a partition stands for one tree. -/
theorem Rooted.unique {prim : Primitives} {naming : Primitives.Naming prim} {partitionId : Nat}
    {localRoot docRoot otherRoot otherDoc : Option Hash} {first second : HamtTrie} {world : World}
    (hfree : prim.CollisionFree {held | held ∈ world.blobs})
    (hfirst : Rooted naming partitionId localRoot docRoot first world)
    (hsecond : Rooted naming partitionId otherRoot otherDoc second world) : first = second := by
  obtain rfl : localRoot = otherRoot := hfirst.known.symm.trans hsecond.known
  have hroot : localRoot.or docRoot = localRoot.or otherDoc := by
    cases localRoot with
    | some root => rfl
    | none => exact (hfirst.named rfl).unique hfree (hsecond.named rfl)
  have hreads := naming.reads hfirst.names
  rw [hroot] at hreads
  exact hreads.unique hfree (naming.reads hsecond.names)

abbrev World.setLocalRoot (world : World) (partitionId : Nat) (root : Hash) : World :=
  { world with index := world.index.setLocalRoot partitionId root }

abbrev World.finish (world : World) (now : Timestamp) (rows : List (Nat × String))
    (status : RecordStatus) : World :=
  { world with index := world.index.finish now rows status }

/-- The rows of a group that go into the tree. -/
def publishable (denylist : Finset String) (items : List PendingItem) : List PendingItem :=
  items.filter fun item => item.2.1 ∉ denylist

/-- The rows of a group that are kept out of the tree. -/
def denied (denylist : Finset String) (items : List PendingItem) : List PendingItem :=
  items.filter fun item => item.2.1 ∈ denylist

/-- How far a cycle has come: the groups it has not begun, or how far it is with
the first of them. -/
inductive CycleStage
  | todo (groups : List (Nat × List PendingItem))
  | pointed (root : Hash) (partitionId : Nat) (items : List PendingItem)
      (rest : List (Nat × List PendingItem))
  | extended (partitionId : Nat) (items : List PendingItem)
      (rest : List (Nat × List PendingItem))
  | marked (partitionId : Nat) (items : List PendingItem)
      (rest : List (Nat × List PendingItem))

/-- A stored tree: the current one of the partition, grown by the group's rows. -/
def Built {prim : Primitives} (naming : Primitives.Naming prim) (config : Config)
    (denylist : Finset String) (partitionId : Nat) (items : List PendingItem) (root : Hash)
    (world : World) : Prop :=
  ∃ localRoot docRoot trie grown, Rooted naming partitionId localRoot docRoot trie world ∧
    prim.scheme.insertAll config.leafMaxEntries
      ((publishable denylist items).map PendingItem.entry) trie = .ok grown ∧
    naming.names world.blobs (Primitives.sealed grown) (some root)

theorem Built.steady {prim : Primitives} {naming : Primitives.Naming prim} {config : Config}
    {denylist : Finset String} {partitionId : Nat} {items : List PendingItem} {root : Hash}
    {before after : World} (hsteady : Steady before after)
    (hbuilt : Built naming config denylist partitionId items root before) :
    Built naming config denylist partitionId items root after := by
  obtain ⟨localRoot, docRoot, trie, grown, hrooted, hinsert, hgrown⟩ := hbuilt
  exact ⟨localRoot, docRoot, trie, grown, hrooted.steady hsteady, hinsert,
    naming.mono hsteady.blobs hgrown⟩

/-- What a cycle knows at each stage, and that each of its writes keeps the rules of
its setting and takes it to the next stage. -/
structure CycleRules (S : Setting daemonSig World) {prim : Primitives}
    (naming : Primitives.Naming prim) (faults : Faults) (config : Config)
    (denylist : Finset String) (blobUniverse : Set Bytes) where
  holds : CycleStage → World → Prop
  /-- Some insertion runs out of key bytes. -/
  exhausted : Prop
  sem : ∀ op before response after, S.sem op before response after →
    prim.DaemonStep faults op before response after
  within : ∀ world, S.inv world → ∀ blob ∈ world.blobs, blob ∈ blobUniverse
  rely : ∀ world later, S.rely world later → Steady world later
  stable : ∀ stage before after, S.rely before after ∨ SameTables before after →
    holds stage before → holds stage after
  same : ∀ op before response after, S.inv before → S.sem op before response after →
    SameTables before after → S.inv after ∧ S.guar before after
  read : ∀ world, S.inv world → holds
    (.todo (groupByPartition (world.index.pendingBatch config.publishMaxPending)).toList) world
  rooted : ∀ world partitionId items rest, S.inv world →
    holds (.todo ((partitionId, items) :: rest)) world →
      ∃ localRoot docRoot trie, Rooted naming partitionId localRoot docRoot trie world
  exhausts : ∀ world partitionId items rest localRoot docRoot trie error, S.inv world →
    holds (.todo ((partitionId, items) :: rest)) world →
    Rooted naming partitionId localRoot docRoot trie world →
    prim.scheme.insertAll config.leafMaxEntries
      ((publishable denylist items).map PendingItem.entry) trie = .error error → exhausted
  point : ∀ before partitionId items rest root response, S.inv before →
    publishable denylist items ≠ [] → holds (.todo ((partitionId, items) :: rest)) before →
    Built naming config denylist partitionId items root before →
    S.sem (.doc (.setBytes (.partition partitionId) root.bytes.toList)) before response
      (prim.setDocBytes before (.partition partitionId) root.bytes.toList) →
    S.inv (prim.setDocBytes before (.partition partitionId) root.bytes.toList) ∧
      S.guar before (prim.setDocBytes before (.partition partitionId) root.bytes.toList) ∧
      holds (.pointed root partitionId items rest)
        (prim.setDocBytes before (.partition partitionId) root.bytes.toList)
  adopt : ∀ before partitionId items rest root response, S.inv before →
    holds (.pointed root partitionId items rest) before →
    S.sem (.index (.setLocalRoot partitionId root)) before response
      (before.setLocalRoot partitionId root) →
    S.inv (before.setLocalRoot partitionId root) ∧
      S.guar before (before.setLocalRoot partitionId root) ∧
      holds (.extended partitionId items rest) (before.setLocalRoot partitionId root)
  mark : ∀ now before partitionId items rest rows response, S.inv before →
    rows = (publishable denylist items).map PendingItem.row →
    holds (.extended partitionId items rest) before →
    S.sem (.index (.finish now rows .published)) before response
      (before.finish now rows .published) →
    S.inv (before.finish now rows .published) ∧ S.guar before (before.finish now rows .published) ∧
      holds (.marked partitionId items rest) (before.finish now rows .published)
  deny : ∀ now before partitionId items rest rows response, S.inv before →
    rows = (denied denylist items).map PendingItem.row →
    holds (.marked partitionId items rest) before →
    S.sem (.index (.finish now rows .denylisted)) before response
      (before.finish now rows .denylisted) →
    S.inv (before.finish now rows .denylisted) ∧
    S.guar before (before.finish now rows .denylisted) ∧
      holds (.todo rest) (before.finish now rows .denylisted)
  /-- Nothing to publish, so neither the tree nor the rows are touched. -/
  skip : ∀ world partitionId items rest, publishable denylist items = [] →
    holds (.todo ((partitionId, items) :: rest)) world →
      holds (.marked partitionId items rest) world
  undenied : ∀ world partitionId items rest, denied denylist items = [] →
    holds (.marked partitionId items rest) world → holds (.todo rest) world

namespace CycleRules

variable {S : Setting daemonSig World} {prim : Primitives} {naming : Primitives.Naming prim}
  {faults : Faults} {config : Config} {denylist : Finset String} {blobUniverse : Set Bytes}
  (rules : CycleRules S naming faults config denylist blobUniverse)

/-- Why a cycle may fail. -/
def Fails : Prop := faults.store ∨ faults.index ∨ faults.doc ∨ rules.exhausted

include rules in
/-- Reading keeps what the cycle knows. -/
theorem kept {assertion : World → Prop}
    (hassertion : ∀ before after, S.rely before after ∨ SameTables before after →
      assertion before → assertion after) :
    Kept S Primitives.KeepsTables assertion where
  rely world later hlater := hassertion world later (Or.inl hlater)
  call op before response after hop hinv hbefore hsem := by
    have hsame := (rules.sem op before response after hsem).sameTables hop
    obtain ⟨hafter, hguar⟩ := rules.same op before response after hinv hsem hsame
    exact ⟨hafter, hguar, hassertion before after (Or.inr hsame) hbefore⟩

include rules in
theorem steady {before after : World} (hstep : S.rely before after ∨ SameTables before after) :
    Steady before after :=
  hstep.elim (rules.rely before after) SameTables.steady

/-- A write of the index that commits takes the cycle on, and one that does not
leaves everything as it was. -/
theorem callIndex_valid {op : IndexOp} {before next : World → Prop}
    (hstable : ∀ world later, S.rely world later ∨ SameTables world later →
      before world → before later)
    (hcommit : ∀ world response, S.inv world → before world →
      S.sem (.index op) world response { world with index := (op.commit world.index).2 } →
      S.inv { world with index := (op.commit world.index).2 } ∧
        S.guar world { world with index := (op.commit world.index).2 } ∧
        next { world with index := (op.commit world.index).2 })
    {world : World} (hworld : before world) :
    Valid S (fun _ after => next after) (fun _ _ => rules.Fails) (callIndex op) world := by
  intro early hearly hinv response after hsem
  have hbefore := hstable world early (Or.inl hearly) hworld
  rcases rules.sem _ _ _ _ hsem with ⟨rfl, rfl⟩ | ⟨hfault, ⟨message, rfl⟩, rfl | rfl⟩
  · exact hcommit early _ hinv hbefore hsem
  · have hsame : SameTables after after := ⟨List.Subset.refl _, rfl, rfl⟩
    obtain ⟨hafter, hguar⟩ := rules.same _ _ _ _ hinv hsem hsame
    exact ⟨hafter, hguar, Or.inr (Or.inl hfault)⟩
  · obtain ⟨hafter, hguar, -⟩ := hcommit early _ hinv hbefore hsem
    exact ⟨hafter, hguar, Or.inr (Or.inl hfault)⟩

/-- Rows are finished in one transaction, or there are none. -/
theorem finishItems_valid {rows : List (Nat × String)} {status : RecordStatus}
    {before next : World → Prop}
    (hstable : ∀ world later, S.rely world later ∨ SameTables world later →
      before world → before later)
    (hnone : rows = [] → ∀ world, before world → next world)
    (hcommit : ∀ now world response, S.inv world → before world →
      S.sem (.index (.finish now rows status)) world response (world.finish now rows status) →
      S.inv (world.finish now rows status) ∧ S.guar world (world.finish now rows status) ∧
        next (world.finish now rows status))
    {world : World} (hworld : before world) :
    Valid S (fun _ after => next after) (fun _ _ => rules.Fails)
      (finishItems rows status) world := by
  unfold finishItems
  split
  next hrows => exact hnone hrows world hworld
  next =>
    intro early hearly hinv now after hsem
    have hbefore := hstable world early (Or.inl hearly) hworld
    obtain ⟨hafter, hguar, hkept⟩ :=
      (rules.kept hstable).call .now early now after trivial hinv hbefore hsem
    exact ⟨hafter, hguar, rules.callIndex_valid hstable (hcommit now) hkept⟩

variable {partitionId : Nat} {items : List PendingItem} {rest : List (Nat × List PendingItem)}

/-- The pointer document is moved to the tree that was built. -/
theorem setPartitionRoot_valid {root : Hash} {world : World}
    (hsome : publishable denylist items ≠ [])
    (hworld : rules.holds (.todo ((partitionId, items) :: rest)) world)
    (hbuilt : Built naming config denylist partitionId items root world) :
    Valid S (fun _ after => rules.holds (.pointed root partitionId items rest) after)
      (fun _ _ => rules.Fails) (setPartitionRoot partitionId root) world := by
  intro before hbefore hinv response after hsem
  have hsteady := rules.rely world before hbefore
  have htodo := rules.stable _ world before (Or.inl hbefore) hworld
  have hpoint := rules.point before partitionId items rest root response hinv hsome htodo
    (hbuilt.steady hsteady)
  rcases rules.sem _ _ _ _ hsem with ⟨rfl, rfl⟩ | ⟨hfault, ⟨message, rfl⟩, rfl | rfl | rfl⟩
  · exact hpoint hsem
  · have hsame : SameTables after after := ⟨List.Subset.refl _, rfl, rfl⟩
    obtain ⟨hafter, hguar⟩ := rules.same _ _ _ _ hinv hsem hsame
    exact ⟨hafter, hguar, Or.inr (Or.inr (Or.inl hfault))⟩
  · have hsame : SameTables before
        { before with blobs := root.bytes.toList :: before.blobs } :=
      ⟨List.subset_cons_self _ _, rfl, rfl⟩
    obtain ⟨hafter, hguar⟩ := rules.same _ _ _ _ hinv hsem hsame
    exact ⟨hafter, hguar, Or.inr (Or.inr (Or.inl hfault))⟩
  · obtain ⟨hafter, hguar, -⟩ := hpoint hsem
    exact ⟨hafter, hguar, Or.inr (Or.inr (Or.inl hfault))⟩

/-- The tree of a partition is built and both roots are moved to it. -/
theorem extendPartition_valid (hfree : prim.CollisionFree blobUniverse) {world : World}
    (hsome : publishable denylist items ≠ [])
    (hworld : rules.holds (.todo ((partitionId, items) :: rest)) world) :
    Valid S (fun _ after => rules.holds (.extended partitionId items rest) after)
      (fun _ _ => rules.Fails)
      (prim.extendPartition config partitionId
        ((publishable denylist items).map PendingItem.entry)) world := by
  have hcall : ∃ op next, prim.extendPartition config partitionId
      ((publishable denylist items).map PendingItem.entry) = .call op next := ⟨_, _, rfl⟩
  apply Valid.of_inv hcall
  intro before hbefore hinv
  have htodo := rules.stable _ world before (Or.inl hbefore) hworld
  obtain ⟨localRoot, docRoot, trie, hrooted⟩ :=
    rules.rooted before partitionId items rest hinv htodo
  -- Nobody else moves the roots while the publisher reads and inserts.
  let assertion : World → Prop := fun world =>
    rules.holds (.todo ((partitionId, items) :: rest)) world ∧
      Rooted naming partitionId localRoot docRoot trie world
  have hkept : Kept S TreeOp assertion := by
    refine (rules.kept ?_).mono fun op hop => hop.keepsTables
    exact fun early late hstep hearly =>
      ⟨rules.stable _ early late hstep hearly.1, hearly.2.steady (rules.steady hstep)⟩
  apply Valid.bind
  refine Valid.mono ?_ ?_ (currentRoot_valid hfree rules.sem rules.within hkept
    (fun _ hlater => hlater.2.known) (fun hnone _ hlater => hlater.2.named hnone) ⟨htodo, hrooted⟩)
  rotate_left
  · rintro error after ⟨-, hstore | hindex | hdoc⟩
    · exact Or.inl hstore
    · exact Or.inr (Or.inl hindex)
    · exact Or.inr (Or.inr (Or.inl hdoc))
  rintro current middle ⟨hmiddle, rfl⟩
  apply Valid.bind
  refine Valid.mono ?_ ?_ (insertBatch_onStore_valid hfree rules.sem rules.within naming
    config.leafMaxEntries ((publishable denylist items).map PendingItem.entry) hkept
    (fun early late hlate => (rules.rely early late hlate).blobs) hmiddle hmiddle.2.names)
  rotate_left
  · rintro error after ⟨hafter, hstore | ⟨key, level, -, hexhausted⟩⟩
    · exact Or.inl hstore
    · exact Or.inr (Or.inr (Or.inr (rules.exhausts before partitionId items rest localRoot docRoot
        trie (key, level) hinv htodo hrooted hexhausted)))
  rintro root stored ⟨hstored, grown, hinsert, hgrown⟩
  apply Valid.bind
  refine Valid.mono ?_ (fun _ _ hfails => hfails) (rules.setPartitionRoot_valid hsome hstored.1
    ⟨localRoot, docRoot, trie, grown, hstored.2, hinsert, hgrown⟩)
  intro _ pointed hpointed
  exact rules.callIndex_valid (rules.stable _)
    (fun world response hinv hheld =>
      rules.adopt world partitionId items rest root response hinv hheld)
    hpointed

theorem publishPartition_valid (hfree : prim.CollisionFree blobUniverse) {world : World}
    (hworld : rules.holds (.todo ((partitionId, items) :: rest)) world) :
    Valid S (fun _ after => rules.holds (.todo rest) after) (fun _ _ => rules.Fails)
      (prim.publishPartition config denylist partitionId items) world := by
  have hdeny : ∀ world, rules.holds (.marked partitionId items rest) world →
      Valid S (fun _ after => rules.holds (.todo rest) after) (fun _ _ => rules.Fails) (do
        markDenylisted ((denied denylist items).map PendingItem.row)
        pure (publishable denylist items).length) world := by
    intro world hmarked
    apply Valid.bind
    refine Valid.mono (fun _ _ h => h) (fun _ _ h => h) (rules.finishItems_valid (rules.stable _)
      ?_ ?_ hmarked)
    · intro hrows world hheld
      exact rules.undenied world partitionId items rest (List.map_eq_nil_iff.mp hrows) hheld
    · exact fun now world response hinv hheld =>
        rules.deny now world partitionId items rest _ response hinv rfl hheld
  change Valid S _ _ (do
    if publishable denylist items ≠ [] then
      prim.extendPartition config partitionId ((publishable denylist items).map PendingItem.entry)
    markPublished ((publishable denylist items).map PendingItem.row)
    markDenylisted ((denied denylist items).map PendingItem.row)
    pure (publishable denylist items).length) world
  by_cases hnone : publishable denylist items = []
  · have hmark : markPublished ((publishable denylist items).map PendingItem.row) = pure () := by
      rw [hnone]
      rfl
    rw [if_neg (not_not_intro hnone), hmark]
    exact hdeny world (rules.skip world partitionId items rest hnone hworld)
  · rw [if_pos hnone]
    apply Valid.bind
    refine Valid.mono ?_ (fun _ _ h => h) (rules.extendPartition_valid hfree hnone hworld)
    intro _ after hextended
    apply Valid.bind
    refine Valid.mono (fun _ => hdeny) (fun _ _ h => h) (rules.finishItems_valid (rules.stable _)
      ?_ ?_ hextended)
    · exact fun hrows => absurd (List.map_eq_nil_iff.mp hrows) hnone
    · exact fun now world response hinv hheld =>
        rules.mark now world partitionId items rest _ response hinv rfl hheld

/-- A cycle that follows the rules gets through all its groups, unless something
fails. -/
theorem publishCycle_valid (hfree : prim.CollisionFree blobUniverse) (world : World) :
    Valid S (fun _ after => rules.holds (.todo []) after) (fun _ _ => rules.Fails)
      (prim.publishCycle config denylist) world := by
  have hguard : ∀ op before response after, Primitives.KeepsTables op → S.inv before →
      S.sem op before response after →
        S.inv after ∧ S.guar before after ∧ SameTables before after := by
    intro op before response after hop hinv hsem
    have hsame := (rules.sem op before response after hsem).sameTables hop
    obtain ⟨hafter, hguar⟩ := rules.same op before response after hinv hsem hsame
    exact ⟨hafter, hguar, hsame⟩
  apply withWriteGuard_valid
  · intro before response after _ hinv hsem
    obtain ⟨hafter, hguar, -⟩ := hguard .beginWrite before response after trivial hinv hsem
    refine ⟨hafter, hguar, ?_⟩
    intro early _ hinvEarly batch late hlate
    obtain ⟨hinvLate, hguarLate, -⟩ := hguard (.index (.pendingBatch _)) early batch late trivial
      hinvEarly hlate
    refine ⟨hinvLate, hguarLate, ?_⟩
    rcases rules.sem _ _ _ _ hlate with ⟨rfl, rfl⟩ | ⟨hfault, ⟨message, rfl⟩, -⟩
    · refine Valid.foldlM (fun groups _ world => rules.holds (.todo groups) world) ?_
        (rules.read early hinvLate)
      rintro ⟨partitionId, items⟩ rest total world hworld
      apply Valid.bind
      exact Valid.mono (fun _ _ h => h) (fun _ _ h => h) (rules.publishPartition_valid hfree hworld)
    · exact Or.inr (Or.inl hfault)
  · intro value middle before response after hpost hbefore hinv hsem
    obtain ⟨hafter, hguar, hsame⟩ := hguard .endWrite before response after trivial hinv hsem
    have hheld := rules.stable _ middle before (Or.inl hbefore) hpost
    exact ⟨hafter, hguar, rules.stable _ before after (Or.inr hsame) hheld⟩
  · intro error middle before response after hfails _ hinv hsem
    obtain ⟨hafter, hguar, -⟩ := hguard .endWrite before response after trivial hinv hsem
    exact ⟨hafter, hguar, hfails⟩

end CycleRules

end Registry

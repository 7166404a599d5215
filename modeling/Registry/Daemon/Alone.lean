import Registry.Daemon.Cycle
import Registry.Daemon.Queue

/-! # Tasks that run alone

The offline commands, and the publisher while no request is served, run without
interference. What such a task leaves behind, also when it is abandoned halfway, is
what its invariant says.
-/

namespace Registry

open Effect

/-- A task that runs alone on a store whose blobs stay among these. -/
def aloneSetting (prim : Primitives) (faults : Faults) (blobUniverse : Set Bytes)
    (inv : World → Prop) : Setting daemonSig World where
  sem op before response after :=
    prim.DaemonStep faults op before response after ∧ ∀ blob ∈ after.blobs, blob ∈ blobUniverse
  rely := Eq
  inv world := (∀ blob ∈ world.blobs, blob ∈ blobUniverse) ∧ inv world
  guar _ _ := True
  rely_refl _ := rfl
  rely_trans := Eq.trans

section Alone

variable {prim : Primitives} {faults : Faults} {blobUniverse : Set Bytes} {inv : World → Prop}
  {ε α : Type} {prog : Prog daemonSig ε α} {post : α → World → Prop} {fails : ε → World → Prop}
  {world : World}

theorem aloneSetting_visits {later : World}
    (hvalid : Valid (aloneSetting prim faults blobUniverse inv) post fails prog world)
    (hvisits : Prog.Visits (prim.DaemonStep faults) prog world later)
    (hblobs : ∀ blob ∈ later.blobs, blob ∈ blobUniverse) (hinv : inv world) : inv later := by
  have hreflect : ∀ op world response after, prim.DaemonStep faults op world response after →
      (∀ blob ∈ after.blobs, blob ∈ blobUniverse) → ∀ blob ∈ world.blobs, blob ∈ blobUniverse :=
    fun op world response after hstep hafter blob hblob => hafter blob (hstep.blobs_subset hblob)
  have hstart := hvisits.reflects _ hreflect hblobs
  exact (Valid.visits_inv (S := aloneSetting prim faults blobUniverse inv) _ hreflect
    (fun _ _ _ _ hstep hafter => ⟨hstep, hafter⟩) hvisits ⟨hstart, hinv⟩ hvalid hblobs).2

theorem aloneSetting_outcome {outcome : Prog.Outcome ε α} {final : World}
    (hvalid : Valid (aloneSetting prim faults blobUniverse inv) post fails prog world)
    (hruns : Prog.Runs (prim.DaemonStep faults) prog world outcome final)
    (hblobs : ∀ blob ∈ final.blobs, blob ∈ blobUniverse) (hinv : inv world) :
    outcome.Meets post fails final := by
  have hreflect : ∀ op world response after, prim.DaemonStep faults op world response after →
      (∀ blob ∈ after.blobs, blob ∈ blobUniverse) → ∀ blob ∈ world.blobs, blob ∈ blobUniverse :=
    fun op world response after hstep hafter blob hblob => hafter blob (hstep.blobs_subset hblob)
  have hstart := hruns.reflects _ hreflect hblobs
  exact Valid.runs_outcome (S := aloneSetting prim faults blobUniverse inv) _ hreflect
    (fun _ _ _ _ hstep hafter => ⟨hstep, hafter⟩) hruns ⟨hstart, hinv⟩ hvalid hblobs

/-- Blobs are never lost on the way. -/
theorem Primitives.blobs_subset_of_visits {later : World}
    (hvisits : Prog.Visits (prim.DaemonStep faults) prog world later) :
    world.blobs ⊆ later.blobs := by
  induction hvisits with
  | here prog world => exact List.Subset.refl _
  | call answered _ ih => exact List.Subset.trans answered.blobs_subset ih

/-- A transaction that commits. -/
theorem callIndex_alone {op : IndexOp} {post : op.Answer → World → Prop}
    {fails : DaemonError → World → Prop}
    (hcommit : inv world → inv { world with index := (op.commit world.index).2 } ∧
      post (op.commit world.index).1 { world with index := (op.commit world.index).2 }) :
    Valid (aloneSetting prim .none blobUniverse inv) post fails (callIndex op) world := by
  rintro before rfl ⟨hwithin, hinv⟩ response after ⟨hstep, hblobs⟩
  obtain ⟨rfl, rfl⟩ | ⟨hfault, -⟩ := hstep
  · obtain ⟨hafter, hpost⟩ := hcommit hinv
    exact ⟨⟨hblobs, hafter⟩, trivial, hpost⟩
  · exact hfault.elim

/-- Reading keeps whatever depends on the tables and the stored blobs. -/
theorem aloneSetting_kept (hinv : ∀ before after, SameTables before after → inv before → inv after)
    {assertion : World → Prop}
    (hassertion : ∀ before after, SameTables before after →
      (∀ blob ∈ after.blobs, blob ∈ blobUniverse) → assertion before → assertion after) :
    Kept (aloneSetting prim faults blobUniverse inv) Primitives.KeepsTables assertion where
  rely _ _ hlater hworld := hlater ▸ hworld
  call op before response after hop hbefore hworld hsem := by
    have hsame := hsem.1.sameTables hop
    exact ⟨⟨hsem.2, hinv before after hsame hbefore.2⟩, trivial,
      hassertion before after hsame hsem.2 hworld⟩

end Alone

/-! ## Roots that move -/

section Roots

variable {prim : Primitives} {naming : Primitives.Naming prim} {partitionId other : Nat}
  {localRoot docRoot : Option Hash} {trie : HamtTrie} {root : Hash} {world : World}

/-- The pointer document is moved, and the writer still follows its local root. -/
theorem Rooted.setDoc_known (hrooted : Rooted naming partitionId (some root) docRoot trie world)
    (name : RootName) (bytes : Bytes) :
    Rooted naming partitionId (some root) docRoot trie (prim.setDocBytes world name bytes) where
  known := hrooted.known
  named hnone := by cases hnone
  names := naming.mono (List.subset_cons_self _ _) hrooted.names

/-- An entry that was written names its root. -/
theorem NamesRoot.setDoc (name : RootName) (root : Hash) (world : World) :
    NamesRoot prim (prim.setDocBytes world name root.bytes.toList) name (some root) where
  entry := by simp [Primitives.setDocBytes]
  content hash hhash := by
    rw [← Option.some.inj hhash]
    exact List.mem_cons_self

/-- The pointer document is moved, and the writer follows it. -/
theorem Rooted.setDoc_adopted (hknown : world.index.localRoots[partitionId]? = none)
    (hroot : naming.names world.blobs trie (some root)) :
    Rooted naming partitionId none (some root) trie
      (prim.setDocBytes world (.partition partitionId) root.bytes.toList) where
  known := hknown
  named _ := NamesRoot.setDoc _ root world
  names := naming.mono (List.subset_cons_self _ _) hroot

theorem Rooted.setDoc_other (hne : partitionId ≠ other) (bytes : Bytes)
    (hrooted : Rooted naming other localRoot docRoot trie world) :
    Rooted naming other localRoot docRoot trie
      (prim.setDocBytes world (.partition partitionId) bytes) where
  known := hrooted.known
  named hnone := by
    obtain ⟨hentry, hcontent⟩ := hrooted.named hnone
    refine ⟨?_, fun hash hhash => List.mem_cons_of_mem _ (hcontent hash hhash)⟩
    simpa [Primitives.setDocBytes, hne] using hentry
  names := naming.mono (List.subset_cons_self _ _) hrooted.names

theorem Rooted.setLocal (docRoot : Option Hash)
    (hroot : naming.names world.blobs trie (some root)) :
    Rooted naming partitionId (some root) docRoot trie (world.setLocalRoot partitionId root) where
  known := by simp [RecordIndex.setLocalRoot]
  named hnone := by cases hnone
  names := hroot

theorem Rooted.setLocal_other (hne : partitionId ≠ other) (root : Hash)
    (hrooted : Rooted naming other localRoot docRoot trie world) :
    Rooted naming other localRoot docRoot trie (world.setLocalRoot partitionId root) where
  known := by
    simpa only [RecordIndex.setLocalRoot, Std.ExtTreeMap.getElem?_insert, Std.compare_eq_iff_eq,
      if_neg hne] using hrooted.known
  named hnone := ⟨(hrooted.named hnone).entry, (hrooted.named hnone).content⟩
  names := hrooted.names

theorem steady_finish (world : World) (now : Timestamp) (rows : List (Nat × String))
    (status : RecordStatus) : Steady world (world.finish now rows status) where
  blobs := List.Subset.refl _
  localRoots := by simp
  doc := rfl

end Roots

/-! ## A cycle that runs alone -/

/-- What a cycle that runs alone has to keep with each of its writes. -/
structure AloneRules {prim : Primitives} (naming : Primitives.Naming prim) (config : Config)
    (denylist : Finset String) where
  inv : World → Prop
  holds : CycleStage → World → Prop
  /-- Some insertion runs out of key bytes. -/
  exhausted : Prop
  inv_same : ∀ before after, SameTables before after → inv before → inv after
  holds_same : ∀ stage before after, SameTables before after → holds stage before →
    holds stage after
  read : ∀ world, inv world → holds
    (.todo (groupByPartition (world.index.pendingBatch config.publishMaxPending)).toList) world
  rooted : ∀ world partitionId items rest, inv world →
    holds (.todo ((partitionId, items) :: rest)) world →
      ∃ localRoot docRoot trie, Rooted naming partitionId localRoot docRoot trie world
  exhausts : ∀ world partitionId items rest localRoot docRoot trie error,
    prim.CollisionFree {held | held ∈ world.blobs} → inv world →
    holds (.todo ((partitionId, items) :: rest)) world →
    Rooted naming partitionId localRoot docRoot trie world →
    prim.scheme.insertAll config.leafMaxEntries
      ((publishable denylist items).map PendingItem.entry) trie = .error error → exhausted
  point : ∀ before partitionId items rest root,
    prim.CollisionFree {held | held ∈ before.blobs} → inv before →
    publishable denylist items ≠ [] → holds (.todo ((partitionId, items) :: rest)) before →
    Built naming config denylist partitionId items root before →
    inv (prim.setDocBytes before (.partition partitionId) root.bytes.toList) ∧
      holds (.pointed root partitionId items rest)
        (prim.setDocBytes before (.partition partitionId) root.bytes.toList)
  adopt : ∀ before partitionId items rest root,
    prim.CollisionFree {held | held ∈ before.blobs} → inv before →
    holds (.pointed root partitionId items rest) before →
    inv (before.setLocalRoot partitionId root) ∧
      holds (.extended partitionId items rest) (before.setLocalRoot partitionId root)
  mark : ∀ now before partitionId items rest, inv before →
    holds (.extended partitionId items rest) before →
    inv (before.finish now ((publishable denylist items).map PendingItem.row) .published) ∧
      holds (.marked partitionId items rest)
        (before.finish now ((publishable denylist items).map PendingItem.row) .published)
  deny : ∀ now before partitionId items rest, inv before →
    holds (.marked partitionId items rest) before →
    inv (before.finish now ((denied denylist items).map PendingItem.row) .denylisted) ∧
      holds (.todo rest)
        (before.finish now ((denied denylist items).map PendingItem.row) .denylisted)
  skip : ∀ world partitionId items rest, publishable denylist items = [] →
    holds (.todo ((partitionId, items) :: rest)) world →
      holds (.marked partitionId items rest) world
  undenied : ∀ world partitionId items rest, denied denylist items = [] →
    holds (.marked partitionId items rest) world → holds (.todo rest) world

namespace AloneRules

variable {prim : Primitives} {naming : Primitives.Naming prim} {config : Config}
  {denylist : Finset String} (rules : AloneRules naming config denylist)

/-- The rules, for a store whose blobs are apart. -/
def cycleRules (faults : Faults) {blobUniverse : Set Bytes}
    (hfree : prim.CollisionFree blobUniverse) :
    CycleRules (aloneSetting prim faults blobUniverse rules.inv) naming faults config denylist
      blobUniverse where
  holds := rules.holds
  exhausted := rules.exhausted
  sem _ _ _ _ hsem := hsem.1
  within _ hinv := hinv.1
  rely world later hlater := hlater ▸ ⟨List.Subset.refl _, rfl, rfl⟩
  stable stage before after hmoves hheld := by
    rcases hmoves with rfl | hsame
    · exact hheld
    · exact rules.holds_same stage before after hsame hheld
  same _ before _ after hinv hsem hsame :=
    ⟨⟨hsem.2, rules.inv_same before after hsame hinv.2⟩, trivial⟩
  read world hinv := rules.read world hinv.2
  rooted world partitionId items rest hinv := rules.rooted world partitionId items rest hinv.2
  exhausts world partitionId items rest localRoot docRoot trie error hinv :=
    rules.exhausts world partitionId items rest localRoot docRoot trie error (hfree.mono hinv.1)
      hinv.2
  point before partitionId items rest root _ hinv hsome htodo hbuilt hsem := by
    obtain ⟨hafter, hheld⟩ := rules.point before partitionId items rest root (hfree.mono hinv.1)
      hinv.2 hsome htodo hbuilt
    exact ⟨⟨hsem.2, hafter⟩, trivial, hheld⟩
  adopt before partitionId items rest root _ hinv hpointed hsem := by
    obtain ⟨hafter, hheld⟩ := rules.adopt before partitionId items rest root (hfree.mono hinv.1)
      hinv.2 hpointed
    exact ⟨⟨hsem.2, hafter⟩, trivial, hheld⟩
  mark now before partitionId items rest rows _ hinv hrows hextended hsem := by
    subst hrows
    obtain ⟨hafter, hheld⟩ := rules.mark now before partitionId items rest hinv.2 hextended
    exact ⟨⟨hsem.2, hafter⟩, trivial, hheld⟩
  deny now before partitionId items rest rows _ hinv hrows hmarked hsem := by
    subst hrows
    obtain ⟨hafter, hheld⟩ := rules.deny now before partitionId items rest hinv.2 hmarked
    exact ⟨⟨hsem.2, hafter⟩, trivial, hheld⟩
  skip := rules.skip
  undenied := rules.undenied

variable {faults : Faults} {blobUniverse : Set Bytes} {world : World}
  (hfree : prim.CollisionFree blobUniverse)

include hfree

/-- Wherever a cycle is abandoned, it has kept its rules. -/
theorem inv_of_visits {later : World}
    (hvisits : Prog.Visits (prim.DaemonStep faults) (prim.publishCycle config denylist) world later)
    (hblobs : ∀ blob ∈ later.blobs, blob ∈ blobUniverse) (hinv : rules.inv world) :
    rules.inv later :=
  aloneSetting_visits ((rules.cycleRules faults hfree).publishCycle_valid hfree world) hvisits
    hblobs hinv

/-- A cycle without faults gets through all its groups, unless an insertion fails. -/
theorem publishCycle_outcome {outcome : Prog.Outcome DaemonError Nat} {final : World}
    (hruns : Prog.Runs (prim.DaemonStep .none) (prim.publishCycle config denylist) world outcome
      final) (hblobs : ∀ blob ∈ final.blobs, blob ∈ blobUniverse) (hinv : rules.inv world) :
    outcome.Meets (fun _ after => rules.holds (.todo []) after) (fun _ _ => rules.exhausted)
      final := by
  have hvalid := (rules.cycleRules .none hfree).publishCycle_valid hfree world
  refine aloneSetting_outcome (Valid.mono (fun _ _ h => h) ?_ hvalid) hruns hblobs hinv
  rintro error after (hfault | hfault | hfault | hexhausted)
  · exact hfault.elim
  · exact hfault.elim
  · exact hfault.elim
  · exact hexhausted

end AloneRules

end Registry

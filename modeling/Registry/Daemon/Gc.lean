import Registry.Core.IsccWalk
import Registry.Daemon.BulkLoad

/-! # The protect set of garbage collection

Before a sweep of the blob store, the daemon collects the hashes that must stay:
those of all indexed values, those that the trees at the partitions' current roots
lead to, those of the similarity index, and those of the pointer document's
entries. A walk that fails contributes what it has collected until then.
-/

namespace Registry

open Effect

/-- A walk, run on the daemon's blob store. -/
def walkStore {α : Type} (prog : Prog storeSig Empty α) : DaemonProg α :=
  prog.embed .store (fun _ response => response) Empty.elim

/-- The current roots of the partitions: the local table first, the pointer document
only for partitions without a local root. -/
def partitionRoots (config : Config) : DaemonProg (Std.ExtTreeMap Nat Hash) := do
  let localRoots ← callIndex .allLocalRoots
  (List.range config.topLevelPartitions).foldlM (fun roots partitionId =>
    if roots.contains partitionId then pure roots
    else do
      match ← getPartitionRoot partitionId with
      | some root => pure (roots.insert partitionId root)
      | none => pure roots)
    (Std.ExtTreeMap.ofList localRoots)

namespace Primitives

variable (prim : Primitives)

/-- Walk the trees of the partitions, in the order of a hash map, which is any. -/
def walkPartitions : Nat → List (Nat × Hash) → Finset Hash → DaemonProg (Finset Hash)
  | 0, _, live => pure live
  | _ + 1, [], live => pure live
  | fuel + 1, first :: others, live => do
      let choice ← (DaemonOp.pick others.length).perform
      let root := ((first :: others).get choice).2
      -- A failed walk is not an error of the run.
      let (live, _) ← walkStore (prim.collectReachable (hashCount + 1) root live)
      walkPartitions fuel ((first :: others).eraseIdx choice) live

/-- The hashes that the index and the trees keep alive. -/
def collectTrees (config : Config) : DaemonProg (Finset Hash) := do
  let hashes ← callIndex .allContentHashes
  let roots ← partitionRoots config
  prim.walkPartitions roots.toList.length roots.toList hashes.toFinset

def walkIsccIndex (format : IndexFormat) (live : Finset Hash) : DaemonProg (Finset Hash) := do
  match ← getNamedRoot .isccIndex with
  | none => pure live
  | some root => do
      let (live, _) ← walkStore (format.collectReachable root live)
      pure live

def collectLive (format : IndexFormat) (config : Config) : DaemonProg (Finset Hash) := do
  let live ← prim.collectTrees config
  let live ← walkIsccIndex format live
  let contents ← callDoc .entryContentHashes
  pure (live ∪ contents.toFinset)

/-! ## What the daemon's tables name -/

/-- The root that a pointer-document entry reads as. -/
def docRootAt (world : World) (name : RootName) : Option Hash := do
  let content ← world.doc.entry name
  let bytes ← prim.blobAt world.blobs content
  if hlength : bytes.length = 32 then some (hashOfBytes bytes hlength) else none

/-- The root of a partition as the writer knows it. -/
def CurrentRoot (config : Config) (world : World) (partitionId : Nat) (root : Hash) : Prop :=
  world.index.localRoots[partitionId]? = some root ∨
    (world.index.localRoots[partitionId]? = none ∧ partitionId < config.topLevelPartitions ∧
      prim.docRootAt world (.partition partitionId) = some root)

/-- A node of the tree of some partition. -/
def TreeNode (config : Config) (world : World) (hash : Hash) : Prop :=
  ∃ partitionId root, prim.CurrentRoot config world partitionId root ∧
    prim.ReachesNode world.blobs root hash

/-- A value in a leaf of the tree of some partition. -/
def TreeValue (config : Config) (world : World) (value : Hash) : Prop :=
  ∃ partitionId root, prim.CurrentRoot config world partitionId root ∧
    prim.ReachesValue world.blobs root value

/-! ## Reading without a change -/

/-- Operations that change nothing. -/
def ReadOp : DaemonOp → Prop
  | .store op => op.IsGet
  | .index (.getMany _) => True
  | .index (.pendingBatch _) => True
  | .index (.getLocalRoot _) => True
  | .index .allLocalRoots => True
  | .index .allContentHashes => True
  | .doc (.getOne _) => True
  | .doc .entryContentHashes => True
  | .now => True
  | .pick _ => True
  | _ => False

theorem DaemonStep.world_eq {prim : Primitives} {faults : Faults} {op : DaemonOp}
    {before after : World} {response : daemonSig.Res op} (hop : ReadOp op)
    (hstep : prim.DaemonStep faults op before response after) : after = before := by
  match op with
  | .store op =>
      obtain ⟨blobs, hstore, rfl⟩ := hstep
      rw [hstore.eq_of_isGet hop]
  | .index (.getMany keys) => obtain ⟨rfl, -⟩ | ⟨rfl, -⟩ := hstep.index_cases <;> rfl
  | .index (.pendingBatch max) => obtain ⟨rfl, -⟩ | ⟨rfl, -⟩ := hstep.index_cases <;> rfl
  | .index (.getLocalRoot id) => obtain ⟨rfl, -⟩ | ⟨rfl, -⟩ := hstep.index_cases <;> rfl
  | .index .allLocalRoots => obtain ⟨rfl, -⟩ | ⟨rfl, -⟩ := hstep.index_cases <;> rfl
  | .index .allContentHashes => obtain ⟨rfl, -⟩ | ⟨rfl, -⟩ := hstep.index_cases <;> rfl
  | .doc (.getOne name) => exact hstep.1
  | .doc .entryContentHashes => exact hstep.1
  | .now => exact hstep
  | .pick others => exact hstep

/-- Reads of these hashes are answered by what the store holds. Other reads may fail
or report a miss, if faults do so. -/
def AnswersReads (readable : Set Hash) : (op : DaemonOp) → World → daemonSig.Res op → Prop
  | .store (.get hash), world, response =>
      hash ∈ readable → response = .ok (prim.blobAt world.blobs hash)
  | _, _, _ => True

/-- One operation while the collection runs. -/
def GcStep (faults : Faults) (readable : Set Hash) (op : DaemonOp) (before : World)
    (response : daemonSig.Res op) (after : World) : Prop :=
  prim.DaemonStep faults op before response after ∧ prim.AnswersReads readable op before response

/-- The collection on a world that nobody changes meanwhile. -/
def gcSetting (faults : Faults) (readable : Set Hash) (world : World) :
    Setting daemonSig World where
  sem op before response after := ReadOp op ∧ prim.GcStep faults readable op before response after
  rely before after := after = before
  inv before := before = world
  guar _ _ := True
  rely_refl _ := rfl
  rely_trans hfirst hsecond := hsecond.trans hfirst

/-- Why a collection may fail: a fault of the tables, or an entry of the pointer
document that cannot be read. -/
def Failing (faults : Faults) (readable : Set Hash) (world : World) : Prop :=
  faults.index ∨ faults.doc ∨ ∃ name content, world.doc.entry name = some content ∧
    (content ∉ readable ∨ prim.docRootAt world name = none)

section Collection

variable {prim} {faults : Faults} {readable : Set Hash} {world : World} {config : Config}

theorem callIndex_gc_valid {op : IndexOp} (hop : ReadOp (.index op)) :
    Valid (prim.gcSetting faults readable world)
      (fun answer after => after = world ∧ answer = (op.commit world.index).1)
      (fun _ _ => prim.Failing faults readable world) (callIndex op) world := by
  rintro before rfl hinv response after ⟨-, hstep, -⟩
  have hsame : after = before := hstep.world_eq hop
  refine ⟨hsame.trans hinv, trivial, ?_⟩
  rcases hstep with ⟨rfl, -⟩ | ⟨hfault, ⟨message, rfl⟩, -⟩
  · exact ⟨hsame, rfl⟩
  · exact Or.inl hfault

theorem callDoc_gc_valid :
    Valid (prim.gcSetting faults readable world)
      (fun answer after => after = world ∧ answer = world.doc.entryContentHashes)
      (fun _ _ => prim.Failing faults readable world) (callDoc .entryContentHashes) world := by
  rintro before rfl hinv response after ⟨-, ⟨rfl, hanswer⟩, -⟩
  refine ⟨hinv, trivial, ?_⟩
  rcases hanswer with rfl | ⟨hfault, message, rfl⟩
  · exact ⟨rfl, rfl⟩
  · exact Or.inr (Or.inl hfault)

theorem getNamedRoot_gc_valid (name : RootName) :
    Valid (prim.gcSetting faults readable world)
      (fun root after => after = world ∧ root = prim.docRootAt world name)
      (fun _ _ => prim.Failing faults readable world) (getNamedRoot name) world := by
  rintro before rfl hinv response after ⟨-, ⟨rfl, hanswer⟩, -⟩
  refine ⟨hinv, trivial, ?_⟩
  rcases hanswer with rfl | ⟨hfault, message, rfl⟩
  · cases hentry : after.doc.entry name with
    | none => exact ⟨rfl, by simp [docRootAt, hentry]⟩
    | some content =>
        rintro middle rfl hinvMiddle read last ⟨-, ⟨blobs, ⟨rfl, hread⟩, rfl⟩, hreads⟩
        refine ⟨hinvMiddle, trivial, ?_⟩
        have hunread : read ≠ .ok (prim.blobAt middle.blobs content) →
            prim.Failing faults readable middle := fun hother =>
          Or.inr (Or.inr ⟨name, content, hentry, Or.inl fun hcontent => hother (hreads hcontent)⟩)
        have hunnamed : prim.docRootAt middle name = none →
            prim.Failing faults readable middle := fun hnone =>
          Or.inr (Or.inr ⟨name, content, hentry, Or.inr hnone⟩)
        have hroot : prim.docRootAt middle name =
            (prim.blobAt middle.blobs content).bind fun bytes =>
            if hlength : bytes.length = 32 then some (hashOfBytes bytes hlength) else none := by
          simp only [docRootAt, hentry]
          rfl
        by_cases hheld : read = .ok (prim.blobAt middle.blobs content)
        · rw [hheld]
          cases hblob : prim.blobAt middle.blobs content with
          | none => exact hunnamed (by rw [hroot, hblob]; rfl)
          | some bytes =>
              rw [hblob, Option.bind_some] at hroot
              dsimp only
              split
              next hlength =>
                rw [dif_pos hlength] at hroot
                exact ⟨rfl, hroot.symm⟩
              next hlength =>
                rw [dif_neg hlength] at hroot
                exact hunnamed hroot
        · have hfailing := hunread hheld
          cases read with
          | error failure =>
              cases failure with
              | io message => exact hfailing
          | ok found =>
              cases found with
              | none => exact hfailing
              | some bytes =>
                  rcases hread with hanswer | ⟨-, hanswer | ⟨error, hanswer⟩⟩
                  · exact absurd hanswer hheld
                  · cases hanswer
                  · cases hanswer
  · exact Or.inr (Or.inl hfault)

/-- A walk verified on the store alone, run on the daemon's. -/
theorem walkStore_valid {α : Type} {prog : Prog storeSig Empty α} {post : α → Blobs → Prop}
    (hprog : Valid (prim.walkSetting world.blobs readable) post (fun _ _ => False) prog
      world.blobs) :
    Valid (prim.gcSetting faults readable world)
      (fun value after => after = world ∧ post value world.blobs)
      (fun _ _ => prim.Failing faults readable world) (walkStore prog) world := by
  refine Valid.mono ?_ ?_
    (Valid.embed World.blobs (fun later => later = world) ?_ ?_ ?_ ?_ rfl hprog)
  · rintro value after ⟨hvalue, rfl⟩
    exact ⟨rfl, hvalue⟩
  · rintro error after ⟨-, inner, -, hfalse⟩
    exact hfalse.elim
  · rintro before after rfl
    rfl
  · rintro before rfl
    rfl
  · rintro before after rfl hbefore
    exact hbefore
  · rintro op before response after hinv hbefore ⟨hop, hstep, hreads⟩
    have hsame : after = before := hstep.world_eq hop
    refine ⟨?_, hsame.trans hinv, trivial, hsame.trans hbefore⟩
    cases op with
    | put bytes => exact hop.elim
    | get hash => exact ⟨congrArg World.blobs hsame, hreads⟩

theorem getElem?_ofList_toList {α : Type} (table : Std.ExtTreeMap Nat α) (key : Nat) :
    (Std.ExtTreeMap.ofList table.toList)[key]? = table[key]? := by
  cases hrow : table[key]? with
  | some value =>
      exact Std.ExtTreeMap.getElem?_ofList_of_mem (Std.compare_eq_iff_eq.mpr rfl)
        Std.ExtTreeMap.distinct_keys_toList
          (Std.ExtTreeMap.mem_toList_iff_getElem?_eq_some.mpr hrow)
  | none =>
      apply Std.ExtTreeMap.getElem?_ofList_of_contains_eq_false
      rw [List.contains_eq_mem, decide_eq_false_iff_not]
      intro hmem
      obtain ⟨row, hrow', rfl⟩ := List.mem_map.mp hmem
      rw [Std.ExtTreeMap.mem_toList_iff_getElem?_eq_some.mp hrow'] at hrow
      cases hrow

/-- The roots that are walked are the current ones. -/
theorem partitionRoots_valid :
    Valid (prim.gcSetting faults readable world)
      (fun roots after => after = world ∧ ∀ (partitionId : Nat) (root : Hash),
        roots[partitionId]? = some root ↔ prim.CurrentRoot config world partitionId root)
      (fun _ _ => prim.Failing faults readable world) (partitionRoots config) world := by
  apply Valid.bind
  refine Valid.mono ?_ (fun _ _ h => h) (callIndex_gc_valid trivial)
  rintro localRoots after ⟨rfl, rfl⟩
  -- Partitions not yet looked at have no root but a local one.
  let I : List Nat → Std.ExtTreeMap Nat Hash → World → Prop := fun rest roots now =>
    now = after ∧ ∃ done, List.range config.topLevelPartitions = done ++ rest ∧
      ∀ (partitionId : Nat) (root : Hash), roots[partitionId]? = some root ↔
        after.index.localRoots[partitionId]? = some root ∨
          (after.index.localRoots[partitionId]? = none ∧ partitionId ∈ done ∧
            prim.docRootAt after (.partition partitionId) = some root)
  have hinit : I (List.range config.topLevelPartitions)
      (Std.ExtTreeMap.ofList after.index.localRoots.toList) after := by
    refine ⟨rfl, [], rfl, fun partitionId root => ?_⟩
    rw [getElem?_ofList_toList]
    simp
  refine Valid.mono ?_ (fun _ _ h => h) (Valid.foldlM I ?_ hinit)
  · rintro roots last ⟨rfl, done, hdone, hroots⟩
    rw [List.append_nil] at hdone
    refine ⟨rfl, fun partitionId root => (hroots partitionId root).trans ?_⟩
    rw [← hdone, List.mem_range, CurrentRoot]
  · rintro partitionId rest roots now ⟨rfl, done, hdone, hroots⟩
    have hsplit : List.range config.topLevelPartitions = (done ++ [partitionId]) ++ rest := by
      rw [hdone, List.append_assoc, List.singleton_append]
    have hfresh : partitionId ∉ done := by
      have hnodup := List.nodup_range (n := config.topLevelPartitions)
      rw [hdone] at hnodup
      exact fun hmem => (List.nodup_append.mp hnodup).2.2 _ hmem _ List.mem_cons_self rfl
    have hunread : ∀ root : Hash, roots[partitionId]? = some root ↔
        now.index.localRoots[partitionId]? = some root := by
      intro root
      rw [hroots, or_iff_left]
      exact fun hdoc => hfresh hdoc.2.1
    have hcontains : roots.contains partitionId =
        (now.index.localRoots[partitionId]?).isSome := by
      rw [Std.ExtTreeMap.contains_eq_isSome_getElem?, Bool.eq_iff_iff, Option.isSome_iff_exists,
        Option.isSome_iff_exists]
      exact exists_congr hunread
    split
    next hlocal =>
      rw [hcontains, Option.isSome_iff_ne_none] at hlocal
      refine ⟨rfl, done ++ [partitionId], hsplit, fun other root => (hroots other root).trans ?_⟩
      refine or_congr_right (and_congr_right fun hnone => and_congr_left fun _ => ?_)
      have hne : other ≠ partitionId := fun heq => hlocal (heq ▸ hnone)
      simp [hne]
    next hvacant =>
      rw [hcontains, Bool.not_eq_true, Option.isSome_eq_false_iff,
        Option.isNone_iff_eq_none] at hvacant
      apply Valid.bind
      refine Valid.mono ?_ (fun _ _ h => h) (getNamedRoot_gc_valid (.partition partitionId))
      rintro docRoot last ⟨rfl, rfl⟩
      -- What the pointer document answers is what the partition gains.
      have hgains : ∀ roots' : Std.ExtTreeMap Nat Hash,
          (∀ other : Nat, roots'[other]? = if other = partitionId then
            prim.docRootAt last (.partition partitionId) else roots[other]?) →
          I rest roots' last := by
        intro roots' hroots'
        refine ⟨rfl, done ++ [partitionId], hsplit, fun other root => ?_⟩
        rw [hroots']
        by_cases hother : other = partitionId
        · subst hother
          simp [hvacant]
        · rw [if_neg hother, hroots]
          simp [hother]
      cases hdoc : prim.docRootAt last (.partition partitionId) with
      | some root =>
          refine hgains _ fun other => ?_
          rw [Std.ExtTreeMap.getElem?_insert, hdoc]
          by_cases hother : other = partitionId
          · subst hother
            simp
          · have hne : partitionId ≠ other := fun heq => hother heq.symm
            simp [hother, hne]
      | none =>
          refine hgains _ fun other => ?_
          by_cases hother : other = partitionId
          · subst hother
            rw [if_pos rfl, hdoc]
            cases hroot : roots[other]? with
            | none => rfl
            | some root => rw [(hunread root).mp hroot] at hvacant; cases hvacant
          · rw [if_neg hother]

/-! ## The trees -/

/-- No walk over a partition's tree meets a node that it cannot read. -/
def TreesReadable (prim : Primitives) (config : Config) (readable : Set Hash)
    (world : World) : Prop :=
  ∀ hash, prim.TreeNode config world hash →
    hash ∈ readable ∧ (prim.nodeAt world.blobs hash).isSome

/-- No record's value and no value in a leaf has the hash of a node. -/
def NodesApart (prim : Primitives) (config : Config) (world : World) : Prop :=
  ∀ hash, prim.TreeNode config world hash →
    hash ∉ world.index.allContentHashes ∧ ¬prim.TreeValue config world hash

/-- A set of indexed values and of hashes from the trees that has with each node
all that the node names. -/
structure Gathered (prim : Primitives) (config : Config) (world : World) (live : Finset Hash) :
    Prop where
  values : ∀ hash ∈ world.index.allContentHashes, hash ∈ live
  sound : ∀ hash ∈ live, hash ∈ world.index.allContentHashes ∨ prim.TreeNode config world hash ∨
    prim.TreeValue config world hash
  closed : ∀ hash ∈ live, prim.TreeNode config world hash → prim.Expanded world.blobs live hash

theorem gathered_values (hapart : NodesApart prim config world) :
    Gathered prim config world world.index.allContentHashes.toFinset where
  values _ hhash := List.mem_toFinset.mpr hhash
  sound _ hhash := Or.inl (List.mem_toFinset.mp hhash)
  closed hash hhash hnode := absurd (List.mem_toFinset.mp hhash) (hapart hash hnode).1

/-- A walk from a current root keeps the set closed. Since values and nodes are apart,
a node in the set has been walked. -/
theorem Gathered.collects (hapart : NodesApart prim config world) {live more : Finset Hash}
    (hlive : Gathered prim config world live) {partitionId : Nat} {root : Hash}
    (hroot : prim.CurrentRoot config world partitionId root)
    (hcollects : prim.Collects world.blobs root live more) : Gathered prim config world more where
  values hash hhash := hcollects.grows (hlive.values hash hhash)
  sound hash hhash := by
    by_cases hold : hash ∈ live
    · exact hlive.sound hash hold
    · rcases hcollects.sound hash hhash hold with ⟨hnode, -⟩ | hvalue
      · exact Or.inr (Or.inl ⟨partitionId, root, hroot, hnode⟩)
      · exact Or.inr (Or.inr ⟨partitionId, root, hroot, hvalue⟩)
  closed hash hhash hnode := by
    by_cases hold : hash ∈ live
    · exact (hlive.closed hash hold hnode).mono hcollects.grows
    · rcases hcollects.sound hash hhash hold with ⟨-, hexpanded⟩ | hvalue
      · exact hexpanded
      · exact absurd ⟨partitionId, root, hroot, hvalue⟩ (hapart hash hnode).2

/-- A closed set that has the current roots has all that the trees lead to. -/
theorem Gathered.mem_iff {live : Finset Hash} (hlive : Gathered prim config world live)
    (hroots : ∀ partitionId root, prim.CurrentRoot config world partitionId root → root ∈ live)
    (hash : Hash) :
    hash ∈ live ↔ hash ∈ world.index.allContentHashes ∨ prim.TreeNode config world hash ∨
      prim.TreeValue config world hash := by
  have hnodes : ∀ partitionId root other, prim.CurrentRoot config world partitionId root →
      prim.ReachesNode world.blobs root other → other ∈ live := by
    intro partitionId root other hroot hreaches
    induction hreaches with
    | root => exact hroots partitionId _ hroot
    | child parent held named ih =>
        exact (hlive.closed _ ih ⟨partitionId, root, hroot, parent⟩ _ held).1 _ named
  constructor
  · exact hlive.sound hash
  · rintro (hvalue | ⟨partitionId, root, hroot, hreaches⟩ | ⟨partitionId, root, hroot, hreaches⟩)
    · exact hlive.values hash hvalue
    · exact hnodes partitionId root hash hroot hreaches
    · obtain ⟨leaf, node, hleaf, hnode, hvalue⟩ := hreaches
      have hmem := hnodes partitionId root leaf hroot hleaf
      exact (hlive.closed leaf hmem ⟨partitionId, root, hroot, hleaf⟩ node hnode).2 hash hvalue

/-- Walking readable trees adds all that they lead to. -/
theorem walkPartitions_valid (hreadable : TreesReadable prim config readable world)
    (hapart : NodesApart prim config world) {fuel : Nat} {rows : List (Nat × Hash)}
    (hfuel : rows.length ≤ fuel)
    (hrows : ∀ row ∈ rows, prim.CurrentRoot config world row.1 row.2) {live : Finset Hash}
    (hlive : Gathered prim config world live) :
    Valid (prim.gcSetting faults readable world)
      (fun final after => after = world ∧ Gathered prim config world final ∧ live ⊆ final ∧
        ∀ row ∈ rows, row.2 ∈ final)
      (fun _ _ => prim.Failing faults readable world)
      (prim.walkPartitions fuel rows live) world := by
  induction fuel generalizing rows live with
  | zero =>
      obtain rfl : rows = [] := List.eq_nil_of_length_eq_zero (Nat.le_zero.mp hfuel)
      exact ⟨rfl, hlive, Finset.Subset.refl _, fun row hrow => absurd hrow List.not_mem_nil⟩
  | succ fuel ih =>
      cases rows with
      | nil =>
          exact ⟨rfl, hlive, Finset.Subset.refl _, fun row hrow => absurd hrow List.not_mem_nil⟩
      | cons first others =>
          rintro before rfl hinv choice after ⟨-, hstep, -⟩
          obtain rfl : after = before := hstep
          refine ⟨hinv, trivial, ?_⟩
          have hchosen := hrows _ (List.get_mem (first :: others) choice)
          change Valid _ _ _ (walkStore _ >>= _) after
          apply Valid.bind
          refine Valid.mono ?_ (fun _ _ h => h) (walkStore_valid (collectReachable_valid
            (by omega : hashCount < hashCount + 1 + live.card)
            fun hash hreaches => hreadable hash ⟨_, _, hchosen, hreaches⟩))
          rintro ⟨more, result⟩ last ⟨rfl, -, -, hcollects⟩
          have hlength : ((first :: others).eraseIdx choice).length ≤ fuel := by
            rw [List.length_eraseIdx_of_lt choice.isLt]
            exact Nat.sub_le_of_le_add hfuel
          refine Valid.mono ?_ (fun _ _ h => h) (ih hlength
            (fun row hrow => hrows row (List.mem_of_mem_eraseIdx hrow))
            (hlive.collects hapart hchosen hcollects))
          rintro final last ⟨rfl, hfinal, hgrows, hothers⟩
          refine ⟨rfl, hfinal, hcollects.grows.trans hgrows, fun row hrow => ?_⟩
          obtain ⟨place, hplace, rfl⟩ := List.getElem_of_mem hrow
          by_cases hsame : place = choice
          · subst hsame
            exact hgrows hcollects.has_root
          · refine hothers _ (List.mem_eraseIdx_iff_getElem.mpr ⟨place, hplace, hsame, rfl⟩)

theorem collectTrees_valid (hreadable : TreesReadable prim config readable world)
    (hapart : NodesApart prim config world) :
    Valid (prim.gcSetting faults readable world)
      (fun live after => after = world ∧ ∀ hash, hash ∈ live ↔
        hash ∈ world.index.allContentHashes ∨ prim.TreeNode config world hash ∨
          prim.TreeValue config world hash)
      (fun _ _ => prim.Failing faults readable world) (prim.collectTrees config) world := by
  apply Valid.bind
  refine Valid.mono ?_ (fun _ _ h => h) (callIndex_gc_valid trivial)
  rintro hashes after ⟨rfl, rfl⟩
  apply Valid.bind
  refine Valid.mono ?_ (fun _ _ h => h) partitionRoots_valid
  rintro roots after ⟨rfl, hroots⟩
  refine Valid.mono ?_ (fun _ _ h => h) (walkPartitions_valid hreadable hapart le_rfl
    (fun row hrow => (hroots row.1 row.2).mp
      (Std.ExtTreeMap.mem_toList_iff_getElem?_eq_some.mp hrow)) (gathered_values hapart))
  rintro live after ⟨rfl, hlive, -, hwalked⟩
  refine ⟨rfl, hlive.mem_iff fun partitionId root hroot => ?_⟩
  exact hwalked (partitionId, root)
    (Std.ExtTreeMap.mem_toList_iff_getElem?_eq_some.mpr ((hroots partitionId root).mpr hroot))

/-! ## The similarity index and the pointer document -/

theorem walkIsccIndex_grows (format : IndexFormat) (live : Finset Hash) :
    Valid (prim.gcSetting faults readable world) (fun final after => after = world ∧ live ⊆ final)
      (fun _ _ => prim.Failing faults readable world) (walkIsccIndex format live) world := by
  apply Valid.bind
  refine Valid.mono ?_ (fun _ _ h => h) (getNamedRoot_gc_valid .isccIndex)
  rintro root after ⟨rfl, -⟩
  cases root with
  | none => exact ⟨rfl, Finset.Subset.refl _⟩
  | some root =>
      apply Valid.bind
      refine Valid.mono ?_ (fun _ _ h => h)
        (walkStore_valid (IndexFormat.collectReachable_grows root live))
      rintro ⟨more, result⟩ after ⟨rfl, -, hmore⟩
      exact ⟨rfl, hmore⟩

/-- Walking a readable index adds its blobs, unless its root is in the set already. -/
theorem walkIsccIndex_valid {format : IndexFormat} {root : Hash}
    (hroot : prim.docRootAt world .isccIndex = some root)
    (hindex : IndexReadable prim format world.blobs root)
    (hreadable : ∀ hash, IndexBlob prim format world.blobs root hash → hash ∈ readable)
    (live : Finset Hash) :
    Valid (prim.gcSetting faults readable world)
      (fun final after => after = world ∧ ∀ hash, hash ∈ final ↔
        hash ∈ live ∨ (root ∉ live ∧ IndexBlob prim format world.blobs root hash))
      (fun _ _ => prim.Failing faults readable world) (walkIsccIndex format live) world := by
  apply Valid.bind
  refine Valid.mono ?_ (fun _ _ h => h) (getNamedRoot_gc_valid .isccIndex)
  rintro named after ⟨rfl, rfl⟩
  rw [hroot]
  apply Valid.bind
  refine Valid.mono ?_ (fun _ _ h => h)
    (walkStore_valid (IndexFormat.collectReachable_valid hindex hreadable live))
  rintro ⟨more, result⟩ after ⟨rfl, -, -, hmore⟩
  exact ⟨rfl, hmore⟩

theorem collectLive_covers (format : IndexFormat)
    (hreadable : TreesReadable prim config readable world) (hapart : NodesApart prim config world) :
    Valid (prim.gcSetting faults readable world)
      (fun live after => after = world ∧
        (∀ hash ∈ world.index.allContentHashes, hash ∈ live) ∧
        (∀ hash, prim.TreeNode config world hash → hash ∈ live) ∧
        (∀ hash, prim.TreeValue config world hash → hash ∈ live) ∧
        ∀ hash ∈ world.doc.entryContentHashes, hash ∈ live)
      (fun _ _ => prim.Failing faults readable world) (prim.collectLive format config) world := by
  apply Valid.bind
  refine Valid.mono ?_ (fun _ _ h => h) (collectTrees_valid hreadable hapart)
  rintro trees after ⟨rfl, htrees⟩
  apply Valid.bind
  refine Valid.mono ?_ (fun _ _ h => h) (walkIsccIndex_grows format trees)
  rintro indexed after ⟨rfl, hindexed⟩
  apply Valid.bind
  refine Valid.mono ?_ (fun _ _ h => h) callDoc_gc_valid
  rintro contents after ⟨rfl, rfl⟩
  have hkept : ∀ hash ∈ trees, hash ∈ indexed ∪ after.doc.entryContentHashes.toFinset :=
    fun hash hhash => Finset.mem_union_left _ (hindexed hhash)
  refine ⟨rfl, fun hash hvalue => hkept hash ((htrees hash).mpr (Or.inl hvalue)),
    fun hash hnode => hkept hash ((htrees hash).mpr (Or.inr (Or.inl hnode))),
    fun hash hvalue => hkept hash ((htrees hash).mpr (Or.inr (Or.inr hvalue))),
    fun hash hcontent => Finset.mem_union_right _ (List.mem_toFinset.mpr hcontent)⟩

theorem collectLive_exact {format : IndexFormat} {root : Hash}
    (hreadable : TreesReadable prim config readable world) (hapart : NodesApart prim config world)
    (hroot : prim.docRootAt world .isccIndex = some root)
    (hindex : IndexReadable prim format world.blobs root)
    (hblobs : ∀ hash, IndexBlob prim format world.blobs root hash → hash ∈ readable) :
    Valid (prim.gcSetting faults readable world)
      (fun live after => after = world ∧ ∃ trees : Finset Hash,
        (∀ hash, hash ∈ trees ↔ hash ∈ world.index.allContentHashes ∨
          prim.TreeNode config world hash ∨ prim.TreeValue config world hash) ∧
        ∀ hash, hash ∈ live ↔ hash ∈ trees ∨ hash ∈ world.doc.entryContentHashes ∨
          (root ∉ trees ∧ IndexBlob prim format world.blobs root hash))
      (fun _ _ => prim.Failing faults readable world) (prim.collectLive format config) world := by
  apply Valid.bind
  refine Valid.mono ?_ (fun _ _ h => h) (collectTrees_valid hreadable hapart)
  rintro trees after ⟨rfl, htrees⟩
  apply Valid.bind
  refine Valid.mono ?_ (fun _ _ h => h) (walkIsccIndex_valid hroot hindex hblobs trees)
  rintro indexed after ⟨rfl, hindexed⟩
  apply Valid.bind
  refine Valid.mono ?_ (fun _ _ h => h) callDoc_gc_valid
  rintro contents after ⟨rfl, rfl⟩
  refine ⟨rfl, trees, htrees, fun hash => ?_⟩
  rw [Finset.mem_union, hindexed, List.mem_toFinset, or_assoc]
  exact or_congr_right or_comm

end Collection

/-! ## Which operations a collection calls -/

section Calls

theorem collectReachable_calls (fuel : Nat) (root : Hash) (out : Finset Hash) :
    (prim.collectReachable fuel root out).Calls StoreOp.IsGet := by
  induction fuel generalizing root out with
  | zero => trivial
  | succ fuel ih =>
      rw [collectReachable]
      split
      · trivial
      · refine (prim.getNode_uses root).calls.attempt.bind fun node => ?_
        cases node with
        | error error => trivial
        | ok found =>
            cases found with
            | leaf entries => trivial
            | intermediate slots =>
                apply Prog.Calls.foldlM
                rintro ⟨collected, result⟩ child
                cases result with
                | error error => trivial
                | ok done => exact ih child collected

theorem loadJson_calls {α : Type} (parse : Bytes → Except String α) (hash : Hash) :
    (loadJson parse hash).Calls StoreOp.IsGet := by
  refine ⟨trivial, fun response => ?_⟩
  match response with
  | .error error => trivial
  | .ok none => trivial
  | .ok (some bytes) =>
      dsimp only
      cases parse bytes <;> trivial

theorem isccCollectReachable_calls (format : IndexFormat) (root : Hash) (out : Finset Hash) :
    (format.collectReachable root out).Calls StoreOp.IsGet := by
  unfold IndexFormat.collectReachable
  split
  · trivial
  · refine (loadJson_calls format.directoryOf root).attempt.bind fun directory => ?_
    cases directory with
    | error error => trivial
    | ok directory =>
        apply Prog.Calls.foldlM
        rintro ⟨collected, result⟩ ⟨key, bucket⟩
        cases result with
        | error error => trivial
        | ok done =>
            cases bucket with
            | legacyList hash => trivial
            | manifest hash =>
                refine (loadJson_calls format.parseManifest hash).attempt.bind fun manifest => ?_
                cases manifest <;> trivial

theorem walkStore_calls {α : Type} {prog : Prog storeSig Empty α}
    (hprog : prog.Calls StoreOp.IsGet) : (walkStore prog).Calls ReadOp := by
  apply hprog.embed
  exact fun op hget => hget

theorem callIndex_calls (op : IndexOp) (hop : ReadOp (.index op)) : (callIndex op).Calls ReadOp :=
  (callIndex_uses hop).calls

theorem callDoc_calls (op : DocOp) (hop : ReadOp (.doc op)) : (callDoc op).Calls ReadOp :=
  (callDoc_uses hop).calls

theorem getNamedRoot_calls (name : RootName) : (getNamedRoot name).Calls ReadOp := by
  refine (callDoc_calls (.getOne name) trivial).bind fun entry => ?_
  cases entry with
  | none => trivial
  | some content =>
      refine ⟨trivial, fun response => ?_⟩
      match response with
      | .error (.io message) => trivial
      | .ok none => trivial
      | .ok (some bytes) =>
          dsimp only
          split <;> trivial

theorem walkPartitions_calls (fuel : Nat) (rows : List (Nat × Hash)) (live : Finset Hash) :
    (prim.walkPartitions fuel rows live).Calls ReadOp := by
  induction fuel generalizing rows live with
  | zero => trivial
  | succ fuel ih =>
      cases rows with
      | nil => trivial
      | cons first others =>
          refine ⟨trivial, fun choice => ?_⟩
          refine (walkStore_calls (prim.collectReachable_calls _ _ live)).bind ?_
          exact fun collected => ih _ _

/-- A collection only reads. -/
theorem collectLive_calls (format : IndexFormat) (config : Config) :
    (prim.collectLive format config).Calls ReadOp := by
  have hroots : (partitionRoots config).Calls ReadOp := by
    refine (callIndex_calls .allLocalRoots trivial).bind fun localRoots => ?_
    apply Prog.Calls.foldlM
    intro roots partitionId
    split
    · trivial
    · refine (getNamedRoot_calls (.partition partitionId)).bind fun root => ?_
      cases root <;> trivial
  have htrees : (prim.collectTrees config).Calls ReadOp := by
    refine (callIndex_calls .allContentHashes trivial).bind fun hashes =>
      hroots.bind fun roots => ?_
    exact prim.walkPartitions_calls _ _ _
  have hiscc : ∀ live, (walkIsccIndex format live).Calls ReadOp := by
    intro live
    refine (getNamedRoot_calls .isccIndex).bind fun root => ?_
    cases root with
    | none => trivial
    | some root =>
        exact (walkStore_calls (isccCollectReachable_calls format root live)).bind fun _ => trivial
  refine htrees.bind fun live => (hiscc live).bind fun indexed => ?_
  exact (callDoc_calls .entryContentHashes trivial).bind fun _ => trivial

/-- A collection that runs while nobody writes ends as specified. -/
theorem collectLive_outcome {prim : Primitives} {faults : Faults} {readable : Set Hash}
    {world final : World} {format : IndexFormat} {config : Config}
    {post : Finset Hash → World → Prop} {fails : DaemonError → World → Prop}
    {outcome : Prog.Outcome DaemonError (Finset Hash)}
    (hvalid : Valid (prim.gcSetting faults readable world) post fails
      (prim.collectLive format config) world)
    (hruns : Prog.Runs (prim.GcStep faults readable) (prim.collectLive format config) world outcome
      final) : outcome.Meets post fails final := by
  let S : Setting daemonSig World :=
    { prim.gcSetting faults readable world with sem := prim.GcStep faults readable }
  have hsem : ∀ op before response after, ReadOp op → S.sem op before response after →
      (prim.gcSetting faults readable world).sem op before response after :=
    fun op before response after hop hstep => ⟨hop, hstep⟩
  have hfull : Valid S post fails (prim.collectLive format config) world := by
    refine Valid.of_calls ?_ ?_ ?_ hsem (prim.collectLive_calls format config) hvalid
    · exact fun _ _ h => h
    · exact fun _ => Iff.rfl
    · exact fun _ _ h => h
  exact Valid.runs_outcome (fun _ => True) (fun _ _ _ _ _ _ => trivial) (fun _ _ _ _ h _ => h) hruns
    rfl hfull trivial

end Calls

end Primitives

end Registry

import Mathlib.Data.List.Induction
import Registry.Core.Hamt
import Registry.Daemon.World

/-! # The publisher

The single task that turns queue rows into published trees. A cycle takes the
oldest rows, groups them by partition, and for each partition inserts the
records into the current tree, writes the new root to the pointer document and
then to the index, and only then marks the rows done. A failure anywhere leaves
the remaining rows queued.
-/

namespace Registry

open Effect

/-- The errors a daemon task reports. -/
inductive DaemonError
  | index (message : String)
  | hamt (error : HamtError)
  | pointerDoc (message : String)
  deriving DecidableEq, Repr

def DaemonError.message : DaemonError → String
  | .index message => message
  | .hamt error => error.message
  | .pointerDoc message => message

abbrev DaemonProg := Prog daemonSig DaemonError

def callIndex (op : IndexOp) : DaemonProg op.Answer :=
  .call (.index op) fun
    | .error message => .throw (.index message)
    | .ok answer => .pure answer

def callDoc (op : DocOp) : DaemonProg op.Answer :=
  .call (.doc op) fun
    | .error message => .throw (.pointerDoc message)
    | .ok answer => .pure answer

theorem callIndex_uses {allowed : DaemonOp → Prop} {op : IndexOp} (hop : allowed (.index op)) :
    (callIndex op).Uses allowed := by
  refine ⟨hop, fun response => ?_⟩
  cases response <;> trivial

theorem callDoc_uses {allowed : DaemonOp → Prop} {op : DocOp} (hop : allowed (.doc op)) :
    (callDoc op).Uses allowed := by
  refine ⟨hop, fun response => ?_⟩
  cases response <;> trivial

/-- A HAMT program, run on the daemon's blob store. -/
def onStore {α : Type} (prog : HamtProg α) : DaemonProg α :=
  prog.embed .store (fun _ response => response) .hamt

/-- Hold the write guard around a task, whichever way it ends. -/
def withWriteGuard {ε α : Type} (prog : Prog daemonSig ε α) : Prog daemonSig ε α := do
  DaemonOp.beginWrite.perform
  let result ← prog.attempt
  DaemonOp.endWrite.perform
  .ofExcept result

/-- A guarded task ends as the task does, if its end and its failure survive the
drop of the guard. -/
theorem withWriteGuard_valid {W ε α : Type} {S : Setting daemonSig W} {post : α → W → Prop}
    {fails : ε → W → Prop} {prog : Prog daemonSig ε α} {world : W}
    (hbegin : ∀ before response after, S.rely world before → S.inv before →
      S.sem DaemonOp.beginWrite before response after →
        S.inv after ∧ S.guar before after ∧ Valid S post fails prog after)
    (hpost : ∀ value middle before response after, post value middle → S.rely middle before →
      S.inv before → S.sem DaemonOp.endWrite before response after →
        S.inv after ∧ S.guar before after ∧ post value after)
    (hfails : ∀ error middle before response after, fails error middle → S.rely middle before →
      S.inv before → S.sem DaemonOp.endWrite before response after →
        S.inv after ∧ S.guar before after ∧ fails error after) :
    Valid S post fails (withWriteGuard prog) world := by
  intro before hbefore hinv response after hsem
  obtain ⟨hafter, hguar, hprog⟩ := hbegin before response after hbefore hinv hsem
  refine ⟨hafter, hguar, ?_⟩
  change Valid S post fails (prog.attempt >>= _) after
  apply Valid.bind
  apply Valid.attempt
  refine Valid.mono ?_ ?_ hprog
  · intro value middle hvalue later hlater hinvLater answer last hend
    exact hpost value middle later answer last hvalue hlater hinvLater hend
  · intro error middle herror later hlater hinvLater answer last hend
    exact hfails error middle later answer last herror hlater hinvLater hend

/-- The guard around a task that runs alone. -/
theorem withWriteGuard_runs {prim : Primitives} {faults : Faults} {ε α : Type}
    {prog : Prog daemonSig ε α} {world after : World} {result : Except ε α}
    (hprog : Prog.Runs (prim.DaemonStep faults) prog
      { world with activeWrites := world.activeWrites + 1 } (.ofExcept result) after) :
    ∃ final, Prog.Runs (prim.DaemonStep faults) (withWriteGuard prog) world (.ofExcept result)
      final ∧ final.index = after.index := by
  have hend : prim.DaemonStep faults .endWrite after ()
      { after with activeWrites := after.activeWrites - 1 } := rfl
  have hbegin : prim.DaemonStep faults .beginWrite world ()
      { world with activeWrites := world.activeWrites + 1 } := rfl
  refine ⟨{ after with activeWrites := after.activeWrites - 1 }, ?_, rfl⟩
  refine Prog.Runs.bind_ok (.call hbegin (.pure () _)) (hprog.attempt.bind_ok ?_)
  exact Prog.Runs.bind_ok (.call hend (.pure () _)) (.ofExcept result _)

/-! ## The pointer document -/

/-- The hash stored as the 32-byte content of an entry. -/
def hashOfBytes (bytes : Bytes) (hlength : bytes.length = 32) : Hash :=
  ⟨⟨bytes.toArray, by simpa using hlength⟩⟩

/-- Read a root entry. An entry whose content cannot be read is an error, never
a missing root. -/
def getNamedRoot (name : RootName) : DaemonProg (Option Hash) := do
  match ← callDoc (.getOne name) with
  | none => pure none
  | some contentHash =>
      .call (.store (.get contentHash)) fun
        | .error (.io message) => .throw (.pointerDoc
            s!"failed to fetch pointer doc entry blob: blob I/O error: {message}")
        | .ok none => .throw (.pointerDoc
            (s!"pointer doc entry for {name.key} exists but its content blob " ++
              s!"{contentHash.toHex} is unreadable; refusing to treat as missing"))
        | .ok (some bytes) =>
            if hlength : bytes.length = 32 then .pure (some (hashOfBytes bytes hlength))
            else .throw (.pointerDoc
              (s!"corrupt root pointer entry for {name.key}: expected 32 bytes, " ++
                s!"got {bytes.length}"))

def getPartitionRoot (partitionId : Nat) : DaemonProg (Option Hash) :=
  getNamedRoot (.partition partitionId)

theorem getPartitionRoot_uses (partitionId : Nat) :
    (getPartitionRoot partitionId).Uses Primitives.KeepsTables := by
  refine (callDoc_uses trivial).bind fun entry => ?_
  cases entry with
  | none => trivial
  | some contentHash =>
      refine ⟨trivial, fun response => ?_⟩
      match response with
      | .error (.io message) => trivial
      | .ok none => trivial
      | .ok (some bytes) =>
          dsimp only
          split <;> trivial

def setPartitionRoot (partitionId : Nat) (hash : Hash) : DaemonProg Unit :=
  callDoc (.setBytes (.partition partitionId) hash.bytes.toList)

/-! ## Roots -/

/-- The partition's root as the writer knows it: the local index first, the
pointer document only for partitions without a local root. -/
def currentRoot (partitionId : Nat) : DaemonProg (Option Hash) := do
  match ← callIndex (.getLocalRoot partitionId) with
  | some root => pure (some root)
  | none => getPartitionRoot partitionId

/-- Re-assert every local root whose pointer-document entry is missing or
unreadable. -/
def healPointerDoc : DaemonProg Nat := do
  let localRoots ← callIndex .allLocalRoots
  localRoots.foldlM (fun healed row => do
    match ← (getPartitionRoot row.1).attempt with
    | .ok (some _) => pure healed
    | .ok none => do
        setPartitionRoot row.1 row.2
        pure (healed + 1)
    | .error (_ : DaemonError) => do
        setPartitionRoot row.1 row.2
        pure (healed + 1)) 0

/-- Adopt the pointer document's root for every partition without a local one. -/
def seedLocalRoots (config : Config) : DaemonProg Nat :=
  (List.range config.topLevelPartitions).foldlM (fun seeded partitionId => do
    match ← callIndex (.getLocalRoot partitionId) with
    | some _ => pure seeded
    | none =>
        match ← (getPartitionRoot partitionId).attempt with
        | .ok (some root) => do
            callIndex (.setLocalRoot partitionId root)
            pure (seeded + 1)
        | .ok none => pure seeded
        | .error (_ : DaemonError) => pure seeded) 0

/-! ## The publish cycle -/

/-- Group a batch by partition, keeping the queue order within each group. -/
def groupByPartition (batch : List PendingItem) : Std.ExtTreeMap Nat (List PendingItem) :=
  batch.foldl (fun groups item =>
    groups.insert item.2.2.partitionId (groups[item.2.2.partitionId]?.getD [] ++ [item])) ∅

/-- A partition's group is what the batch holds of it. -/
theorem getElem?_groupByPartition (batch : List PendingItem) (partitionId : Nat) :
    (groupByPartition batch)[partitionId]? =
      if (batch.filter fun item => item.2.2.partitionId = partitionId) = [] then none
      else some (batch.filter fun item => item.2.2.partitionId = partitionId) := by
  induction batch using List.reverseRecOn with
  | nil => rfl
  | append_singleton batch item ih =>
      rw [groupByPartition, List.foldl_append, ← groupByPartition, List.foldl_cons, List.foldl_nil,
        List.filter_append]
      by_cases hpartition : item.2.2.partitionId = partitionId
      · subst hpartition
        rw [Std.ExtTreeMap.getElem?_insert_self, ih]
        by_cases hnil : (batch.filter fun other =>
            other.2.2.partitionId = item.2.2.partitionId) = []
        · simp [hnil]
        · simp [hnil]
      · have hitem : ([item].filter fun other => other.2.2.partitionId = partitionId) = [] := by
          simp [hpartition]
        rw [hitem, List.append_nil, ← ih]
        simp [Std.ExtTreeMap.getElem?_insert, hpartition]

theorem mem_groupByPartition {batch : List PendingItem} {group : Nat × List PendingItem} :
    group ∈ (groupByPartition batch).toList ↔
      group.2 = (batch.filter fun item => item.2.2.partitionId = group.1) ∧ group.2 ≠ [] := by
  rw [Std.ExtTreeMap.mem_toList_iff_getElem?_eq_some, getElem?_groupByPartition,
    Option.ite_none_left_eq_some, Option.some.injEq]
  constructor
  · rintro ⟨hne, heq⟩
    exact ⟨heq.symm, heq ▸ hne⟩
  · rintro ⟨heq, hne⟩
    exact ⟨heq ▸ hne, heq.symm⟩

/-- Set the status of a batch, unless there is nothing to do. -/
def finishItems (items : List (Nat × String)) (status : RecordStatus) : DaemonProg Unit :=
  if items = [] then pure ()
  else do
    let now ← DaemonOp.now.perform
    callIndex (.finish now items status)

def markPublished (items : List (Nat × String)) : DaemonProg Unit :=
  finishItems items .published

def markDenylisted (items : List (Nat × String)) : DaemonProg Unit :=
  finishItems items .denylisted

/-- The sequence number and key of a queue row. -/
def PendingItem.row (item : PendingItem) : Nat × String := (item.1, item.2.1)

def PendingItem.entry (item : PendingItem) : LeafEntry := item.2.2.leafEntry item.2.1

namespace Primitives

variable (prim : Primitives)

/-- Insert a group into its partition's tree and write the new root, first to
the pointer document, then to the local index. -/
def extendPartition (config : Config) (partitionId : Nat) (entries : List LeafEntry) :
    DaemonProg Unit := do
  let root ← currentRoot partitionId
  let newRoot ← onStore (prim.insertBatch root entries config.leafMaxEntries ∅)
  setPartitionRoot partitionId newRoot
  callIndex (.setLocalRoot partitionId newRoot)

/-- Publish one partition's group, and answer how many records went into its
tree. -/
def publishPartition (config : Config) (denylist : Finset String) (partitionId : Nat)
    (items : List PendingItem) : DaemonProg Nat := do
  let denylisted := items.filter fun item => item.2.1 ∈ denylist
  let publishable := items.filter fun item => item.2.1 ∉ denylist
  if publishable ≠ [] then
    prim.extendPartition config partitionId (publishable.map PendingItem.entry)
  markPublished (publishable.map PendingItem.row)
  markDenylisted (denylisted.map PendingItem.row)
  pure publishable.length

/-- One cycle over at most `publishMaxPending` queue rows. -/
def publishCycle (config : Config) (denylist : Finset String) : DaemonProg Nat :=
  withWriteGuard do
    let batch ← callIndex (.pendingBatch config.publishMaxPending)
    (groupByPartition batch).toList.foldlM (fun total group => do
      let published ← prim.publishPartition config denylist group.1 group.2
      pure (total + published)) 0

end Primitives

end Registry

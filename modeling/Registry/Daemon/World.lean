import Registry.Core.BlobStore
import Registry.Daemon.Index

/-! # The daemon's stores and the operations on them

The blob store, the record index and the pointer document, as one world, and
the single operations a daemon task performs on it. An index transaction is
atomic. A fault may make any operation fail, after its effect or before it; a
pointer-document write may also fail halfway, between its blob and its entry.
-/

namespace Registry

open Effect

/-- The named entries of the pointer document. -/
inductive RootName
  | partition (partitionId : Nat)
  | isccIndex
  deriving DecidableEq, Repr

def RootName.key : RootName → String
  | .partition partitionId => partitionKey partitionId
  | .isccIndex => "iscc-index/root"

/-- The entries of the pointer document, by the hash of their content. -/
structure PointerDoc where
  partitions : Std.ExtTreeMap Nat Hash
  isccIndex : Option Hash
  deriving DecidableEq

namespace PointerDoc

def empty : PointerDoc where
  partitions := ∅
  isccIndex := none

def entry (doc : PointerDoc) : RootName → Option Hash
  | .partition partitionId => doc.partitions[partitionId]?
  | .isccIndex => doc.isccIndex

def setEntry (doc : PointerDoc) (name : RootName) (content : Hash) : PointerDoc :=
  match name with
  | .partition partitionId => { doc with partitions := doc.partitions.insert partitionId content }
  | .isccIndex => { doc with isccIndex := some content }

def entryContentHashes (doc : PointerDoc) : List Hash :=
  doc.partitions.toList.map Prod.snd ++ doc.isccIndex.toList

@[simp] theorem entry_setEntry (doc : PointerDoc) (name other : RootName) (content : Hash) :
    (doc.setEntry name content).entry other = if name = other then some content
      else doc.entry other := by
  cases name with
  | partition partitionId =>
      cases other with
      | partition otherId =>
          simp [setEntry, entry, Std.ExtTreeMap.getElem?_insert]
      | isccIndex => simp [setEntry, entry]
  | isccIndex =>
      cases other with
      | partition otherId => simp [setEntry, entry]
      | isccIndex => simp [setEntry, entry]

theorem mem_entryContentHashes {doc : PointerDoc} {name : RootName} {content : Hash}
    (hentry : doc.entry name = some content) : content ∈ doc.entryContentHashes := by
  cases name with
  | partition partitionId =>
      refine List.mem_append_left _ (List.mem_map.mpr ⟨(partitionId, content), ?_, rfl⟩)
      exact Std.ExtTreeMap.mem_toList_iff_getElem?_eq_some.mpr hentry
  | isccIndex =>
      refine List.mem_append_right _ ?_
      rw [show doc.isccIndex = some content from hentry]
      exact List.mem_singleton_self _

end PointerDoc

/-- The settings the modelled components read. -/
structure Config where
  maxValueBytes : Nat
  batchMaxRecords : Nat
  publishMaxPending : Nat
  topLevelPartitions : Nat
  leafMaxEntries : Nat

def Config.default : Config where
  maxValueBytes := 64 * 1024
  batchMaxRecords := 500
  publishMaxPending := 1000
  topLevelPartitions := 256
  leafMaxEntries := 1024

/-- A single partition. -/
def Sample.single : Config := { Config.default with topLevelPartitions := 1 }

/-- Everything a running daemon reads and writes. Only `activeWrites` is lost
when it stops. -/
structure World where
  blobs : Blobs
  index : RecordIndex
  doc : PointerDoc
  activeWrites : Nat
  deriving DecidableEq

/-- An empty data directory. -/
def World.empty : World where
  blobs := []
  index := .empty
  doc := .empty
  activeWrites := 0

/-! ## Operations -/

/-- One transaction of the record index. -/
inductive IndexOp
  | submitMany (submissions : List (String × IndexRecord))
  | getMany (keys : List String)
  | pendingBatch (max : Nat)
  | finish (now : Timestamp) (items : List (Nat × String)) (status : RecordStatus)
  | requeue (key : String)
  | bulkMarkPublished (records : List (String × IndexRecord))
  | setLocalRoot (partitionId : Nat) (root : Hash)
  | getLocalRoot (partitionId : Nat)
  | allLocalRoots
  | allContentHashes
  | publishedKeysForPartition (partitionId : Nat)
  | spillPublishedKeys (partitions : Nat)

abbrev IndexOp.Answer : IndexOp → Type
  | .submitMany _ => List SubmitOutcome
  | .getMany _ => List (Option IndexRecord)
  | .pendingBatch _ => List PendingItem
  | .finish _ _ _ => Unit
  | .requeue _ => Bool
  | .bulkMarkPublished _ => Unit
  | .setLocalRoot _ _ => Unit
  | .getLocalRoot _ => Option Hash
  | .allLocalRoots => List (Nat × Hash)
  | .allContentHashes => List Hash
  | .publishedKeysForPartition _ => List String
  | .spillPublishedKeys _ => List String

/-- What a transaction answers and leaves. -/
def IndexOp.commit : (op : IndexOp) → RecordIndex → op.Answer × RecordIndex
  | .submitMany submissions, index => index.submitMany submissions
  | .getMany keys, index => (index.getMany keys, index)
  | .pendingBatch max, index => (index.pendingBatch max, index)
  | .finish now items status, index => ((), index.finish now items status)
  | .requeue key, index => index.requeue key
  | .bulkMarkPublished records, index => ((), index.bulkMarkPublished records)
  | .setLocalRoot partitionId root, index => ((), index.setLocalRoot partitionId root)
  | .getLocalRoot partitionId, index => (index.getLocalRoot partitionId, index)
  | .allLocalRoots, index => (index.allLocalRoots, index)
  | .allContentHashes, index => (index.allContentHashes, index)
  | .publishedKeysForPartition partitionId, index =>
      (index.publishedKeysForPartition partitionId, index)
  | .spillPublishedKeys partitions, index => (index.spillPublishedKeys partitions, index)

inductive DocOp
  | getOne (name : RootName)
  | setBytes (name : RootName) (bytes : Bytes)
  | entryContentHashes

abbrev DocOp.Answer : DocOp → Type
  | .getOne _ => Option Hash
  | .setBytes _ _ => Unit
  | .entryContentHashes => List Hash

/-- One operation of a daemon task. `pick` is the scheduler's choice of the next
of several spawned tasks. -/
inductive DaemonOp
  | store (op : StoreOp)
  | index (op : IndexOp)
  | doc (op : DocOp)
  | now
  | beginWrite
  | endWrite
  | pick (others : Nat)

abbrev daemonSig : Signature where
  Op := DaemonOp
  Res
    | .store op => storeSig.Res op
    | .index op => Except String op.Answer
    | .doc op => Except String op.Answer
    | .now => Timestamp
    | .beginWrite => Unit
    | .endWrite => Unit
    | .pick others => Fin (others + 1)

/-- One operation, answering its response. -/
def DaemonOp.perform {ε : Type} (op : DaemonOp) : Prog daemonSig ε (daemonSig.Res op) :=
  .call op .pure

/-- Which components may fail. -/
structure Faults where
  store : Prop
  index : Prop
  doc : Prop

def Faults.none : Faults := ⟨False, False, False⟩
def Faults.all : Faults := ⟨True, True, True⟩

namespace Primitives

variable (prim : Primitives)

/-- A pointer-document write stores its content as a blob and names it. -/
def setDocBytes (world : World) (name : RootName) (bytes : Bytes) : World :=
  { world with
    blobs := bytes :: world.blobs
    doc := world.doc.setEntry name (prim.blake3 bytes) }

/-- The answers an operation may get, and the worlds it may leave. -/
def DaemonStep (faults : Faults) :
    (op : DaemonOp) → World → daemonSig.Res op → World → Prop
  | .store op, world, response, after => ∃ blobs,
      prim.StoreStep faults.store op world.blobs response blobs ∧
        after = { world with blobs := blobs }
  | .index op, world, response, after =>
      (response = .ok (op.commit world.index).1 ∧
        after = { world with index := (op.commit world.index).2 }) ∨
      (faults.index ∧ (∃ message, response = .error message) ∧
        (after = world ∨ after = { world with index := (op.commit world.index).2 }))
  | .doc (.getOne name), world, response, after => after = world ∧
      (response = .ok (world.doc.entry name) ∨
        (faults.doc ∧ ∃ message, response = .error message))
  | .doc (.setBytes name bytes), world, response, after =>
      (response = .ok () ∧ after = prim.setDocBytes world name bytes) ∨
      (faults.doc ∧ (∃ message, response = .error message) ∧
        (after = world ∨ after = { world with blobs := bytes :: world.blobs } ∨
          after = prim.setDocBytes world name bytes))
  | .doc .entryContentHashes, world, response, after => after = world ∧
      (response = .ok world.doc.entryContentHashes ∨
        (faults.doc ∧ ∃ message, response = .error message))
  | .now, world, _, after => after = world
  | .beginWrite, world, _, after =>
      after = { world with activeWrites := world.activeWrites + 1 }
  | .endWrite, world, _, after =>
      after = { world with activeWrites := world.activeWrites - 1 }
  | .pick _, world, _, after => after = world

/-- The world without faults, at a fixed time, with spawned tasks run in order. -/
def daemonHandler (clock : Timestamp) : Prog.Handler daemonSig World
  | .store op, world =>
      let (response, blobs) := prim.memoryStore op world.blobs
      (response, { world with blobs := blobs })
  | .index op, world =>
      let (answer, index) := op.commit world.index
      (.ok answer, { world with index := index })
  | .doc (.getOne name), world => (.ok (world.doc.entry name), world)
  | .doc (.setBytes name bytes), world => (.ok (), prim.setDocBytes world name bytes)
  | .doc .entryContentHashes, world => (.ok world.doc.entryContentHashes, world)
  | .now, world => (clock, world)
  | .beginWrite, world => ((), { world with activeWrites := world.activeWrites + 1 })
  | .endWrite, world => ((), { world with activeWrites := world.activeWrites - 1 })
  | .pick _, world => (0, world)

theorem daemonStep_daemonHandler (faults : Faults) (clock : Timestamp) (op : DaemonOp)
    (world : World) :
    prim.DaemonStep faults op world (prim.daemonHandler clock op world).1
      (prim.daemonHandler clock op world).2 := by
  match op with
  | .store op => exact ⟨_, prim.storeStep_memoryStore faults.store op world.blobs, rfl⟩
  | .index op => exact Or.inl ⟨rfl, rfl⟩
  | .doc (.getOne name) => exact ⟨rfl, Or.inl rfl⟩
  | .doc (.setBytes name bytes) => exact Or.inl ⟨rfl, rfl⟩
  | .doc .entryContentHashes => exact ⟨rfl, Or.inl rfl⟩
  | .now => rfl
  | .beginWrite => rfl
  | .endWrite => rfl
  | .pick others => rfl

theorem daemonHandler_runs {ε α : Type} (faults : Faults) (clock : Timestamp)
    (prog : Prog daemonSig ε α) (world : World) :
    Prog.Runs (prim.DaemonStep faults) prog world (prog.run (prim.daemonHandler clock) world).1
      (prog.run (prim.daemonHandler clock) world).2 := by
  refine (Prog.run_runs (prim.daemonHandler clock) prog world).imp ?_
  rintro op before response after hcall
  have hstep := prim.daemonStep_daemonHandler faults clock op before
  rwa [hcall] at hstep

/-- No operation removes a blob. -/
theorem DaemonStep.blobs_subset {prim : Primitives} {faults : Faults} {op : DaemonOp}
    {world after : World} {response : daemonSig.Res op}
    (hstep : prim.DaemonStep faults op world response after) : world.blobs ⊆ after.blobs := by
  match op with
  | .store op =>
      obtain ⟨blobs, hblobs, rfl⟩ := hstep
      exact StoreStep.subset hblobs
  | .index op =>
      rcases hstep with ⟨-, rfl⟩ | ⟨-, -, rfl | rfl⟩ <;> exact List.Subset.refl _
  | .doc (.getOne name) =>
      obtain ⟨rfl, -⟩ := hstep
      exact List.Subset.refl _
  | .doc (.setBytes name bytes) =>
      rcases hstep with ⟨-, rfl⟩ | ⟨-, -, rfl | rfl | rfl⟩
      · exact List.subset_cons_self _ _
      · exact List.Subset.refl _
      · exact List.subset_cons_self _ _
      · exact List.subset_cons_self _ _
  | .doc .entryContentHashes =>
      obtain ⟨rfl, -⟩ := hstep
      exact List.Subset.refl _
  | .now =>
      cases hstep
      exact List.Subset.refl _
  | .beginWrite =>
      cases hstep
      exact List.Subset.refl _
  | .endWrite =>
      cases hstep
      exact List.Subset.refl _
  | .pick others =>
      cases hstep
      exact List.Subset.refl _

/-- An index transaction commits as a whole or not at all, and only a fault
hides its answer. -/
theorem DaemonStep.index_cases {prim : Primitives} {faults : Faults} {op : IndexOp}
    {before after : World} {response : Except String op.Answer}
    (hstep : prim.DaemonStep faults (.index op) before response after) :
    (after = { before with index := (op.commit before.index).2 } ∧
      (response = .ok (op.commit before.index).1 ∨ ∃ message, response = .error message)) ∨
    (after = before ∧ ∃ message, response = .error message) := by
  rcases hstep with ⟨hresponse, hafter⟩ | ⟨-, hresponse, hafter | hafter⟩
  · exact Or.inl ⟨hafter, Or.inl hresponse⟩
  · exact Or.inr ⟨hafter, hresponse⟩
  · exact Or.inl ⟨hafter, Or.inr hresponse⟩

theorem DaemonStep.index_ok {prim : Primitives} {faults : Faults} {op : IndexOp}
    {before after : World} {answer : op.Answer}
    (hstep : prim.DaemonStep faults (.index op) before (.ok answer) after) :
    answer = (op.commit before.index).1 ∧
      after = { before with index := (op.commit before.index).2 } := by
  rcases hstep with ⟨hresponse, hafter⟩ | ⟨-, ⟨message, hresponse⟩, -⟩
  · exact ⟨Except.ok.inj hresponse, hafter⟩
  · cases hresponse

/-- Operations that leave the index and the pointer document alone. -/
def KeepsTables : DaemonOp → Prop
  | .store _ => True
  | .doc (.getOne _) => True
  | .doc .entryContentHashes => True
  | .now => True
  | .beginWrite => True
  | .endWrite => True
  | .pick _ => True
  | .index (.getMany _) => True
  | .index (.pendingBatch _) => True
  | .index (.getLocalRoot _) => True
  | .index .allLocalRoots => True
  | .index .allContentHashes => True
  | .index (.publishedKeysForPartition _) => True
  | .index (.spillPublishedKeys _) => True
  | _ => False

theorem DaemonStep.keepsTables {prim : Primitives} {faults : Faults} {op : DaemonOp}
    {before after : World} {response : daemonSig.Res op} (hop : KeepsTables op)
    (hstep : prim.DaemonStep faults op before response after) :
    after.index = before.index ∧ after.doc = before.doc := by
  match op with
  | .store op =>
      obtain ⟨blobs, -, rfl⟩ := hstep
      exact ⟨rfl, rfl⟩
  | .doc (.getOne name) =>
      obtain ⟨rfl, -⟩ := hstep
      exact ⟨rfl, rfl⟩
  | .doc .entryContentHashes =>
      obtain ⟨rfl, -⟩ := hstep
      exact ⟨rfl, rfl⟩
  | .now => cases hstep; exact ⟨rfl, rfl⟩
  | .beginWrite => cases hstep; exact ⟨rfl, rfl⟩
  | .endWrite => cases hstep; exact ⟨rfl, rfl⟩
  | .pick others => cases hstep; exact ⟨rfl, rfl⟩
  | .index (.getMany keys) => obtain ⟨rfl, -⟩ | ⟨rfl, -⟩ := hstep.index_cases <;> exact ⟨rfl, rfl⟩
  | .index (.pendingBatch max) =>
      obtain ⟨rfl, -⟩ | ⟨rfl, -⟩ := hstep.index_cases <;> exact ⟨rfl, rfl⟩
  | .index (.getLocalRoot partitionId) =>
      obtain ⟨rfl, -⟩ | ⟨rfl, -⟩ := hstep.index_cases <;> exact ⟨rfl, rfl⟩
  | .index .allLocalRoots =>
      obtain ⟨rfl, -⟩ | ⟨rfl, -⟩ := hstep.index_cases <;> exact ⟨rfl, rfl⟩
  | .index .allContentHashes =>
      obtain ⟨rfl, -⟩ | ⟨rfl, -⟩ := hstep.index_cases <;> exact ⟨rfl, rfl⟩
  | .index (.publishedKeysForPartition partitionId) =>
      obtain ⟨rfl, -⟩ | ⟨rfl, -⟩ := hstep.index_cases <;> exact ⟨rfl, rfl⟩
  | .index (.spillPublishedKeys partitions) =>
      obtain ⟨rfl, -⟩ | ⟨rfl, -⟩ := hstep.index_cases <;> exact ⟨rfl, rfl⟩

end Primitives

end Registry

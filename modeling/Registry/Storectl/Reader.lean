import Registry.Daemon.System
import Registry.Effect.Interpret

/-! # Readers

A reader keeps a replica of the pointer document, entry by entry as they reach it,
and a cache of the blobs it has fetched. It resolves a key under the root its replica
names, which may be long out of date, while the daemon goes on publishing.
-/

namespace Registry

open Effect

namespace Storectl

/-! ## Resolving a key -/

inductive ReadError
  | pointer (error : DaemonError)
  | timedOut (partitionId : Nat)
  | hamt (error : HamtError)
  | notIndexed (key : String) (partitionId : Nat)
  | blobStore (error : BlobStoreError)
  | unavailable (key : String)
  deriving DecidableEq, Repr

def ReadError.message : ReadError → String
  | .pointer (.index message) => message
  | .pointer (.hamt error) => error.message
  | .pointer (.pointerDoc message) => message
  | .timedOut partitionId =>
      s!"timed out waiting for the root pointer document to sync partition {partitionId}"
  | .hamt error => error.message
  | .notIndexed key partitionId =>
      s!"key '{key}' is not in partition {partitionId}'s current index. If the " ++
        "network is mid-republish, the record may simply not be re-inserted yet — retry later. " ++
        "Otherwise the key was never declared (or is redacted)."
  | .blobStore error => error.message
  | .unavailable key => s!"content blob for '{key}' could not be fetched from any known peer"

abbrev ReadProg := Prog daemonSig ReadError

/-- Poll for a partition's root. After the first poll, as many more are made as fit
before the deadline. -/
def waitForPartitionRoot (partitionId : Nat) : Nat → ReadProg Hash
  | 0 => do
      match ← (getPartitionRoot partitionId).mapError .pointer with
      | some hash => pure hash
      | none => .throw (.timedOut partitionId)
  | polls + 1 => do
      match ← (getPartitionRoot partitionId).mapError .pointer with
      | some hash => pure hash
      | none => waitForPartitionRoot partitionId polls

/-- The value of a resolved key. -/
def fetchContent (key : String) (entry : LeafEntry) : ReadProg Bytes :=
  .call (.store (.get entry.hash)) fun
    | .error error => .throw (.blobStore error)
    | .ok none => .throw (.unavailable key)
    | .ok (some bytes) => .pure bytes

/-- `storectl get`: the bytes it prints. -/
def get (prim : Primitives) (topLevelPartitions polls : Nat) (key : String) : ReadProg Bytes := do
  let partitionId := prim.partitionIdForKey key topLevelPartitions
  let root ← waitForPartitionRoot partitionId polls
  match ← (prim.lookup (some root) key).embed .store (fun _ response => response) .hamt with
  | none => .throw (.notIndexed key partitionId)
  | some entry => fetchContent key entry

/-! ## A reader's node -/

/-- What a reader's node does: read its replica, read its cache, and download a blob
from the daemon into the cache. -/
inductive NodeOp
  | getOne (name : RootName)
  | getBytes (hash : Hash)
  | download (hash : Hash)

abbrev nodeSig : Signature where
  Op := NodeOp
  Res
    | .getOne _ => Except String (Option Hash)
    | .getBytes _ => Option Bytes
    | .download _ => Bool

/-- Read a blob from the cache, as often as allowed. -/
def readCached {ε : Type} (hash : Hash) : Nat → Prog nodeSig ε (Option Bytes)
  | 0 => .pure none
  | attempts + 1 => .call (.getBytes hash) fun
      | some bytes => .pure (some bytes)
      | none => readCached hash attempts

/-- The blob store of a node, with or without providers to fetch from. -/
def getBlob {ε : Type} (canFetch : Bool) (hash : Hash) :
    Prog nodeSig ε (Except BlobStoreError (Option Bytes)) := do
  match ← readCached hash (if canFetch then 1 else 3) with
  | some bytes => pure (.ok (some bytes))
  | none =>
      if canFetch then
        .call (.download hash) fun
          | false => .pure (.ok none)
          | true => .call (.getBytes hash) fun bytes => .pure (.ok bytes)
      else pure (.ok none)

/-- How a reader's node carries out the operations of a reader. It has no index, and
readers store nothing. -/
def onNode (canFetch : Bool) : (op : DaemonOp) → Prog nodeSig ReadError (daemonSig.Res op)
  | .store (.get hash) => getBlob canFetch hash
  | .doc (.getOne name) => .call (.getOne name) .pure
  | _ => .diverge

/-- The operations a reader needs. -/
def Reads : DaemonOp → Prop
  | .store (.get _) => True
  | .doc (.getOne _) => True
  | _ => False

theorem getPartitionRoot_reads (partitionId : Nat) :
    (getPartitionRoot partitionId).Calls Reads := by
  refine ⟨trivial, fun entry => ?_⟩
  match entry with
  | .error message => trivial
  | .ok none => trivial
  | .ok (some contentHash) =>
      refine ⟨trivial, fun content => ?_⟩
      match content with
      | .error (.io message) => trivial
      | .ok none => trivial
      | .ok (some bytes) =>
          dsimp only
          split <;> trivial

theorem waitForPartitionRoot_reads (partitionId polls : Nat) :
    (waitForPartitionRoot partitionId polls).Calls Reads := by
  induction polls with
  | zero =>
      refine (getPartitionRoot_reads partitionId).mapError.bind fun root => ?_
      cases root <;> trivial
  | succ polls ih =>
      refine (getPartitionRoot_reads partitionId).mapError.bind fun root => ?_
      cases root with
      | none => exact ih
      | some hash => trivial

/-- A reader only reads. -/
theorem get_reads (prim : Primitives) (topLevelPartitions polls : Nat) (key : String) :
    (get prim topLevelPartitions polls key).Calls Reads := by
  refine (waitForPartitionRoot_reads _ polls).bind fun root => ?_
  have hget : ∀ op, StoreOp.IsGet op → Reads (.store op) := by
    intro op hop
    cases op with
    | put bytes => exact hop.elim
    | get hash => trivial
  refine (Prog.Calls.embed hget (prim.lookup_uses (some root) key).calls).bind fun found => ?_
  cases found with
  | none => trivial
  | some entry =>
      refine ⟨trivial, fun content => ?_⟩
      match content with
      | .error error => trivial
      | .ok none => trivial
      | .ok (some bytes) => trivial

/-! ## The daemon, the replica and the cache -/

/-- The daemon and a replica of its pointer document. -/
structure Mirror where
  daemon : DaemonState
  replica : PointerDoc

/-- The daemon and a reader's node. -/
structure Network extends Mirror where
  cache : Blobs

/-- A node that has never read anything. -/
def Network.initial : Network where
  daemon := .initial
  replica := .empty
  cache := []

/-- What happens around a reader: the daemon goes on, an entry of the pointer
document reaches the replica, a blob reaches the cache. -/
inductive Network.Moves (moves : DaemonState → DaemonState → Prop) : Network → Network → Prop
  | daemon (network : Network) {next : DaemonState} (moved : moves network.daemon next) :
      Moves moves network { network with daemon := next }
  | sync (network : Network) {name : RootName} {content : Hash}
      (named : network.daemon.world.doc.entry name = some content) :
      Moves moves network { network with replica := network.replica.setEntry name content }
  | fetch (network : Network) {blob : Bytes} (held : blob ∈ network.daemon.world.blobs) :
      Moves moves network { network with cache := blob :: network.cache }

/-- The answers a reader may get from its replica and from the blobs of the daemon. -/
def MirrorStep (prim : Primitives) (faults : Faults) :
    (op : DaemonOp) → Mirror → daemonSig.Res op → Mirror → Prop
  | .store (.get hash), mirror, response, after => after = mirror ∧
      prim.StoreStep faults.store (.get hash) mirror.daemon.world.blobs response
        mirror.daemon.world.blobs
  | .doc (.getOne name), mirror, response, after => after = mirror ∧
      (response = .ok (mirror.replica.entry name) ∨
        (faults.doc ∧ ∃ message, response = .error message))
  | _, _, _, _ => False

/-- The answers of a reader's node. A read of the cache that fails looks like a miss. -/
def NodeStep (prim : Primitives) (faults : Faults) :
    (op : NodeOp) → Network → nodeSig.Res op → Network → Prop
  | .getOne name, network, response, after => after = network ∧
      (response = .ok (network.replica.entry name) ∨
        (faults.doc ∧ ∃ message, response = .error message))
  | .getBytes hash, network, response, after => after = network ∧
      (response = prim.blobAt network.cache hash ∨ (faults.store ∧ response = none))
  | .download hash, network, true, after => ∃ blob,
      prim.blobAt network.daemon.world.blobs hash = some blob ∧
        after = { network with cache := blob :: network.cache }
  | .download hash, network, false, after =>
      (faults.store ∨ prim.blobAt network.daemon.world.blobs hash = none) ∧
        (after = network ∨ ∃ blob ∈ network.daemon.world.blobs,
          after = { network with cache := blob :: network.cache })

/-- A node without faults. -/
def nodeHandler (prim : Primitives) : Prog.Handler nodeSig Network
  | .getOne name, network => (.ok (network.replica.entry name), network)
  | .getBytes hash, network => (prim.blobAt network.cache hash, network)
  | .download hash, network =>
      match prim.blobAt network.daemon.world.blobs hash with
      | some blob => (true, { network with cache := blob :: network.cache })
      | none => (false, network)

theorem nodeStep_nodeHandler (prim : Primitives) (faults : Faults) (op : NodeOp)
    (network : Network) :
    NodeStep prim faults op network (nodeHandler prim op network).1
      (nodeHandler prim op network).2 := by
  cases op with
  | getOne name => exact ⟨rfl, Or.inl rfl⟩
  | getBytes hash => exact ⟨rfl, Or.inl rfl⟩
  | download hash =>
      cases hheld : prim.blobAt network.daemon.world.blobs hash with
      | none =>
          have hmissed : nodeHandler prim (.download hash) network = (false, network) := by
            simp [nodeHandler, hheld]
          rw [hmissed]
          exact ⟨Or.inr hheld, Or.inl rfl⟩
      | some blob =>
          have hfetched : nodeHandler prim (.download hash) network =
              (true, { network with cache := blob :: network.cache }) := by
            simp [nodeHandler, hheld]
          rw [hfetched]
          exact ⟨blob, hheld, rfl⟩

/-- The faults a reader sees: without providers, every miss of its cache. -/
def seenFaults (canFetch : Bool) (faults : Faults) : Faults :=
  { faults with store := faults.store ∨ canFetch = false }

end Storectl

end Registry

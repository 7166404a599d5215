import Mathlib.Data.String.Basic
import Registry.Core.Node

/-! # The HAMT engine

Lookup, path-copying insertion and bottom-up building of a partition's hash
array mapped trie, as programs over the blob store. Descent consumes one digest
byte per level, so a chain of 32 nodes is the deepest one any of them follows
and that much fuel is never exhausted.
-/

namespace Registry

open Effect

abbrev HamtProg := Prog storeSig HamtError

/-- Distribute items over 256 buckets by their digest byte at `depth`, keeping
their order. -/
def distribute {α : Type} (keyOf : α → String) (digestOf : α → Digest) (depth : Nat)
    (items : List α) : Except HamtError (Slot → List α) :=
  items.foldlM (fun buckets item =>
    match descentByte (digestOf item) depth with
    | none => .error (.depthExhausted (keyOf item) depth)
    | some byte => .ok (Function.update buckets byte.toFin (buckets byte.toFin ++ [item])))
    fun _ => []

/-- Sort a leaf's entries by key. -/
def sortByKey (entries : List LeafEntry) : List LeafEntry :=
  entries.insertionSort fun first second => first.key ≤ second.key

/-- Create the children of an intermediate in slot order, skipping empty slots. -/
def fillSlots (child : Slot → Option (HamtProg Hash)) : HamtProg (Slot → Option Hash) :=
  (List.finRange 256).foldlM (fun slots slot =>
    match child slot with
    | none => pure slots
    | some create => do
        let hash ← create
        pure (Function.update slots slot (some hash)))
    fun _ => none

namespace Primitives

variable (prim : Primitives)

def getNode (hash : Hash) : HamtProg HamtNode :=
  .call (.get hash) fun
    | .error error => .throw (.blobStore error)
    | .ok none => .throw (.missingNode hash)
    | .ok (some bytes) => .ofExcept (prim.decode bytes hash)

def putNode (node : HamtNode) : HamtProg Hash :=
  .call (.put (prim.encode node)) fun
    | .error error => .throw (.blobStore error)
    | .ok hash => .pure hash

/-- The descent loop of `lookup`. -/
def lookupFrom (key : String) : Nat → Hash → Nat → HamtProg (Option LeafEntry)
  | 0, _, _ => .diverge
  | fuel + 1, nodeHash, depth => do
      match ← prim.getNode nodeHash with
      | .leaf entries => pure (entries.find? fun entry => entry.key = key)
      | .intermediate slots =>
          match descentByte (prim.keyDigest key) depth with
          | none => .throw (.depthExhausted key depth)
          | some byte =>
              match slots byte.toFin with
              | some child => lookupFrom key fuel child (depth + 1)
              | none => pure none

theorem getNode_uses (hash : Hash) : (prim.getNode hash).Uses StoreOp.IsGet := by
  refine ⟨trivial, fun response => ?_⟩
  match response with
  | .error error => trivial
  | .ok none => trivial
  | .ok (some bytes) => exact Prog.Uses.ofExcept _

theorem lookupFrom_uses (key : String) {fuel depth : Nat} (hfuel : maxDepth < fuel + depth)
    (hdepth : depth ≤ maxDepth) (hash : Hash) :
    (prim.lookupFrom key fuel hash depth).Uses StoreOp.IsGet := by
  induction fuel generalizing hash depth with
  | zero => omega
  | succ fuel ih =>
      rw [lookupFrom]
      refine Prog.Uses.bind (prim.getNode_uses hash) fun node => ?_
      cases node with
      | leaf entries => trivial
      | intermediate slots =>
          cases hbyte : descentByte (prim.keyDigest key) depth with
          | none => trivial
          | some byte =>
              have hlevel : depth < maxDepth := by
                rw [← descentByte_isSome_iff (prim.keyDigest key), hbyte]
                rfl
              dsimp only
              cases slots byte.toFin with
              | none => trivial
              | some child => exact ih (by omega) hlevel child

/-- Resolve a single key against a partition's current root. -/
def lookup (root : Option Hash) (key : String) : HamtProg (Option LeafEntry) :=
  match root with
  | none => pure none
  | some nodeHash => prim.lookupFrom key (maxDepth + 1) nodeHash 0

/-- Lookups only read. -/
theorem lookup_uses (root : Option Hash) (key : String) :
    (prim.lookup root key).Uses StoreOp.IsGet := by
  cases root with
  | none => trivial
  | some hash => exact prim.lookupFrom_uses key (by omega) (Nat.zero_le _) hash

/-- Split an overfull leaf by the next descent byte. Only one level is
redistributed, however the entries fall. -/
def splitLeaf (depth : Nat) (entries : List LeafEntry) : HamtProg Hash := do
  let buckets ← .ofExcept (distribute LeafEntry.key (fun e => prim.keyDigest e.key) depth entries)
  let slots ← fillSlots fun slot =>
    if buckets slot = [] then none else some (prim.putNode (.leaf (buckets slot)))
  prim.putNode (.intermediate slots)

/-- The node to insert into; an absent one is an empty leaf. -/
def readNode : Option Hash → HamtProg HamtNode
  | some hash => prim.getNode hash
  | none => pure (.leaf [])

def insertAt (leafMaxEntries : Nat) (entry : LeafEntry) :
    Nat → Option Hash → Nat → HamtProg Hash
  | 0, _, _ => .diverge
  | fuel + 1, nodeHash, depth => do
      match ← prim.readNode nodeHash with
      | .leaf entries =>
          if entries.any fun present => present.key = entry.key then
            -- First write wins: the path is left untouched.
            match nodeHash with
            | some hash => pure hash
            | none => .throw (.corruptNode Hash.zero "leaf entry found without a node hash")
          else
            let entries := sortByKey (entries ++ [entry])
            if entries.length ≤ leafMaxEntries then prim.putNode (.leaf entries)
            else prim.splitLeaf depth entries
      | .intermediate slots =>
          match descentByte (prim.keyDigest entry.key) depth with
          | none => .throw (.depthExhausted entry.key depth)
          | some byte => do
              let newChild ← insertAt leafMaxEntries entry fuel (slots byte.toFin) (depth + 1)
              prim.putNode (.intermediate (Function.update slots byte.toFin (some newChild)))

/-- Insert, or idempotently re-insert, one entry. -/
def insertOne (root : Option Hash) (entry : LeafEntry) (leafMaxEntries : Nat) :
    HamtProg Hash :=
  prim.insertAt leafMaxEntries entry (maxDepth + 1) root 0

/-- Fold many entries into a root, skipping those whose key is denylisted. -/
def insertBatch (root : Option Hash) (entries : List LeafEntry) (leafMaxEntries : Nat)
    (denylist : Finset String) : HamtProg Hash := do
  let current ← entries.foldlM (fun current entry =>
    if entry.key ∈ denylist then pure current
    else do
      let hash ← prim.insertOne current entry leafMaxEntries
      pure (some hash)) root
  match current with
  | some hash => pure hash
  | none => prim.putNode (.leaf [])

/-! ## Fuel suffices, whatever the store answers -/

theorem putNode_uses (node : HamtNode) : (prim.putNode node).Uses fun _ => True := by
  refine ⟨trivial, fun response => ?_⟩
  match response with
  | .error error => trivial
  | .ok hash => trivial

theorem fillSlots_uses {child : Slot → Option (HamtProg Hash)}
    (hchild : ∀ slot create, child slot = some create → create.Uses fun _ => True) :
    (fillSlots child).Uses fun _ => True := by
  refine Prog.Uses.foldlM (fun slots slot => ?_) _ _
  cases hcreate : child slot with
  | none => trivial
  | some create => exact (hchild slot create hcreate).bind fun _ => trivial

theorem splitLeaf_uses (depth : Nat) (entries : List LeafEntry) :
    (prim.splitLeaf depth entries).Uses fun _ => True := by
  refine Prog.Uses.bind (Prog.Uses.ofExcept _) fun buckets => ?_
  refine Prog.Uses.bind (fillSlots_uses fun slot create hcreate => ?_) fun slots =>
    prim.putNode_uses _
  obtain ⟨-, hput⟩ := Option.ite_none_left_eq_some.mp hcreate
  rw [← Option.some.inj hput]
  exact prim.putNode_uses _

theorem readNode_uses (nodeHash : Option Hash) :
    (prim.readNode nodeHash).Uses fun _ => True := by
  cases nodeHash with
  | none => trivial
  | some hash =>
      refine ⟨trivial, fun response => ?_⟩
      match response with
      | .error error => trivial
      | .ok none => trivial
      | .ok (some bytes) => exact Prog.Uses.ofExcept _

theorem insertAt_uses (leafMaxEntries : Nat) (entry : LeafEntry) {fuel depth : Nat}
    (hfuel : maxDepth < fuel + depth) (hdepth : depth ≤ maxDepth) (nodeHash : Option Hash) :
    (prim.insertAt leafMaxEntries entry fuel nodeHash depth).Uses fun _ => True := by
  induction fuel generalizing nodeHash depth with
  | zero => omega
  | succ fuel ih =>
      rw [insertAt.eq_def]
      refine (prim.readNode_uses nodeHash).bind fun node => ?_
      cases node with
      | leaf entries =>
          dsimp only
          split
          next => cases nodeHash <;> trivial
          next =>
            split
            next => exact prim.putNode_uses _
            next => exact prim.splitLeaf_uses depth _
      | intermediate slots =>
          cases hbyte : descentByte (prim.keyDigest entry.key) depth with
          | none => trivial
          | some byte =>
              have hlevel : depth < maxDepth := by
                rw [← descentByte_isSome_iff (prim.keyDigest entry.key), hbyte]
                rfl
              exact Prog.Uses.bind (ih (by omega) hlevel _) fun child => prim.putNode_uses _

theorem insertBatch_uses (root : Option Hash) (entries : List LeafEntry) (leafMaxEntries : Nat)
    (denylist : Finset String) :
    (prim.insertBatch root entries leafMaxEntries denylist).Uses fun _ => True := by
  refine Prog.Uses.bind (Prog.Uses.foldlM (fun current entry => ?_) _ _) fun current => ?_
  · split
    next => trivial
    next =>
      exact (prim.insertAt_uses leafMaxEntries entry (by omega) (Nat.zero_le _) current).bind
        fun _ => trivial
  · cases current with
    | some hash => trivial
    | none => exact prim.putNode_uses _

/-- Keep the first entry of every key, next to the digest of its key. -/
def uniqueEntries (seen : List String) : List LeafEntry → List (LeafEntry × Digest)
  | [] => []
  | entry :: rest =>
      if entry.key ∈ seen then uniqueEntries seen rest
      else (entry, prim.keyDigest entry.key) :: uniqueEntries (entry.key :: seen) rest

def buildSubtree (leafMaxEntries : Nat) :
    Nat → List (LeafEntry × Digest) → Nat → HamtProg Hash
  | 0, _, _ => .diverge
  | fuel + 1, entries, depth =>
      if entries.length ≤ leafMaxEntries then
        prim.putNode (.leaf (sortByKey (entries.map Prod.fst)))
      else do
        let buckets ← .ofExcept
          (distribute (fun item => item.1.key) Prod.snd depth entries)
        let slots ← fillSlots fun slot =>
          if buckets slot = [] then none
          else some (buildSubtree leafMaxEntries fuel (buckets slot) (depth + 1))
        prim.putNode (.intermediate slots)

/-- Build a partition's whole tree bottom-up, first occurrence of a key wins. -/
def buildFromEntries (entries : List LeafEntry) (leafMaxEntries : Nat) : HamtProg Hash :=
  prim.buildSubtree leafMaxEntries (maxDepth + 1) (prim.uniqueEntries [] entries) 0

end Primitives

end Registry

import Registry.Core.Trees
import Registry.Core.Walk

/-! # Inserts copy the path of their key

Nodes are only ever added to the store, so that every older root still resolves its
keys. What an insertion adds lies on the digest path of its key, or is a leaf that the
split at the end of the path made; every other child is shared with the old tree.
-/

namespace Registry

open Effect BucketTrie

namespace Primitives

variable {prim : Primitives} {faults : Prop} {blobs : Blobs}

/-! ## The places of a stored tree -/

/-- The hash that a root leads to over a path of slots. -/
inductive ReachesAt (prim : Primitives) (blobs : Blobs) : Hash → List Slot → Hash → Prop
  | here (root : Hash) : ReachesAt prim blobs root [] root
  | child {root child hash : Hash} {slots : Slot → Option Hash} {slot : Slot} {path : List Slot}
      (held : prim.nodeAt blobs root = some (.intermediate slots)) (named : slots slot = some child)
      (rest : ReachesAt prim blobs child path hash) :
      ReachesAt prim blobs root (slot :: path) hash

theorem mem_children_intermediate {slots : Slot → Option Hash} {child : Hash} :
    child ∈ (HamtNode.intermediate slots).children ↔ ∃ slot, slots slot = some child := by
  simp [HamtNode.children, List.mem_filterMap]

theorem ReachesAt.snoc {root hash child : Hash} {path : List Slot} {slots : Slot → Option Hash}
    {slot : Slot} (hreaches : prim.ReachesAt blobs root path hash)
    (hheld : prim.nodeAt blobs hash = some (.intermediate slots))
    (hnamed : slots slot = some child) : prim.ReachesAt blobs root (path ++ [slot]) child := by
  induction hreaches with
  | here root => exact .child hheld hnamed (.here child)
  | child held named rest ih => exact .child held named (ih hheld)

theorem reachesNode_iff {root hash : Hash} :
    prim.ReachesNode blobs root hash ↔ ∃ path, prim.ReachesAt blobs root path hash := by
  constructor
  · intro hreaches
    induction hreaches with
    | root => exact ⟨[], .here root⟩
    | @child hash child node parent held named ih =>
        obtain ⟨path, hpath⟩ := ih
        cases node with
        | leaf entries => exact absurd named List.not_mem_nil
        | intermediate slots =>
            obtain ⟨slot, hslot⟩ := mem_children_intermediate.mp named
            exact ⟨path ++ [slot], hpath.snoc held hslot⟩
  · rintro ⟨path, hpath⟩
    induction hpath with
    | here root => exact .root
    | child held named rest ih =>
        exact ih.of_child held (mem_children_intermediate.mpr ⟨_, named⟩)

/-- The node of a stored trie. -/
theorem Stored.nodeAt {trie : HamtTrie} {hash : Hash}
    (hfree : prim.CollisionFree {held | held ∈ blobs}) (hstored : prim.Stored blobs trie)
    (hhash : prim.hashOf trie = some hash) :
    prim.nodeAt blobs hash = some (prim.nodeOf trie) := by
  obtain ⟨bytes, hget, hdecode⟩ := hstored.decode_root hfree hhash
  rw [Primitives.nodeAt, hget]
  simp only [Option.bind_eq_bind, Option.bind_some, hdecode]
  rfl

theorem Stored.descend {trie : HamtTrie} (hstored : prim.Stored blobs trie) (path : List Slot) :
    prim.Stored blobs (trie.descend path) := by
  induction path generalizing trie with
  | nil => rwa [Trie.descend_nil]
  | cons slot path ih =>
      cases trie with
      | empty => trivial
      | leaf entries => trivial
      | node children => exact ih (hstored.2 slot)

/-- The places of a stored trie are those that its root leads to. -/
theorem Stored.reachesAt_iff (hfree : prim.CollisionFree {held | held ∈ blobs}) {trie : HamtTrie}
    {root : Hash} (hstored : prim.Stored blobs trie) (hroot : prim.hashOf trie = some root)
    {path : List Slot} {hash : Hash} :
    prim.ReachesAt blobs root path hash ↔ prim.hashOf (trie.descend path) = some hash := by
  have hnode := hstored.nodeAt hfree hroot
  induction path generalizing trie root with
  | nil =>
      rw [Trie.descend_nil, hroot, Option.some.injEq]
      constructor
      · rintro ⟨⟩
        rfl
      · rintro rfl
        exact .here root
  | cons slot path ih =>
      constructor
      · rintro (⟨⟩ | ⟨held, named, rest⟩)
        rw [hnode, Option.some.injEq] at held
        cases trie with
        | empty => cases hroot
        | leaf entries => cases held
        | node children =>
            obtain rfl := HamtNode.intermediate.inj held
            exact (ih (hstored.2 slot) named ((hstored.2 slot).nodeAt hfree named)).mp rest
      · intro hhash
        cases trie with
        | empty => cases hroot
        | leaf entries => cases hhash
        | node children =>
            cases hchild : prim.hashOf (children slot) with
            | none =>
                have hempty := (Naming.canonical prim).eq_empty ⟨hchild, hstored.2 slot⟩
                rw [Trie.descend_node, hempty, Trie.descend_empty] at hhash
                cases hhash
            | some child =>
                exact .child hnode hchild
                  ((ih (hstored.2 slot) hchild ((hstored.2 slot).nodeAt hfree hchild)).mpr hhash)

/-! ## Stores that only gain blobs -/

/-- What was held is still read under its hash. -/
theorem blobAt_mono {before after : Blobs} (hsubset : before ⊆ after)
    (hfree : prim.CollisionFree {held | held ∈ after}) {hash : Hash} {bytes : Bytes}
    (hget : prim.blobAt before hash = some bytes) : prim.blobAt after hash = some bytes := by
  obtain ⟨hheld, rfl⟩ := prim.mem_of_blobAt hget
  exact prim.blobAt_blake3 hfree (hsubset hheld)

theorem getNode_run (hash : Hash) (blobs : Blobs) :
    (prim.getNode hash).run prim.memoryStore blobs =
      (match prim.blobAt blobs hash with
        | none => .error (.missingNode hash)
        | some bytes => .ofExcept (prim.decode bytes hash), blobs) := by
  rw [getNode, Prog.run_call, memoryStore]
  cases prim.blobAt blobs hash with
  | none => rfl
  | some bytes =>
      dsimp only
      cases prim.decode bytes hash <;> rfl

/-- A lookup that ends without an error ends in the same way after more was stored. -/
theorem lookupFrom_run_mono {before after : Blobs} (hsubset : before ⊆ after)
    (hfree : prim.CollisionFree {held | held ∈ after}) {key : String}
    {fuel depth : Nat} {hash : Hash} {result : Option LeafEntry}
    (hrun : (prim.lookupFrom key fuel hash depth).run prim.memoryStore before =
      (.ok result, before)) :
    (prim.lookupFrom key fuel hash depth).run prim.memoryStore after = (.ok result, after) := by
  induction fuel generalizing hash depth with
  | zero => cases hrun
  | succ fuel ih =>
      rw [lookupFrom, Prog.run_bind, getNode_run] at hrun ⊢
      cases hget : prim.blobAt before hash with
      | none => rw [hget] at hrun; cases hrun
      | some bytes =>
          rw [blobAt_mono hsubset hfree hget]
          rw [hget] at hrun
          cases hdecode : prim.decode bytes hash with
          | error error => simp only [hdecode] at hrun; cases hrun
          | ok node =>
              simp only [hdecode, Prog.Outcome.ofExcept] at hrun ⊢
              cases node with
              | leaf entries =>
                  cases hrun
                  rfl
              | intermediate slots =>
                  dsimp only at hrun ⊢
                  split at hrun
                  next => cases hrun
                  next byte hbyte =>
                    split at hrun
                    next child hchild => exact ih hrun
                    next =>
                      cases hrun
                      rfl

/-! ## Path copying -/

/-- A place on the digest path of a key. -/
def OnDigestPath (prim : Primitives) (key : String) (path : List Slot) : Prop :=
  ∀ (level : Nat) (hlevel : level < path.length),
    (descentByte (prim.keyDigest key) level).map UInt8.toFin = some path[level]

theorem takes_iff_onDigestPath {key : String} {path : List Slot} :
    prim.scheme.Takes key 0 path ↔ prim.OnDigestPath key path := by
  rw [Scheme.takes_iff]
  simp only [Nat.zero_add]
  rfl

/-- What the insertion of a key into a tree does to the store: no blob is removed or
changed and every root resolves as before; a node of the new tree that the old one does
not have lies on the digest path of the key, or is a leaf below the old tree's leaf at
the end of that path; and nodes on the path keep their other children. -/
structure PathCopied (prim : Primitives) (before after : Blobs) (old : Option Hash) (key : String)
    (new : Hash) : Prop where
  held : before ⊆ after
  unchanged : ∀ hash bytes, prim.blobAt before hash = some bytes →
      prim.blobAt after hash = some bytes
  resolves : ∀ root probe result,
    (prim.lookup root probe).run prim.memoryStore before = (.ok result, before) →
      (prim.lookup root probe).run prim.memoryStore after = (.ok result, after)
  fresh : ∀ path hash, prim.ReachesAt after new path hash →
    (∀ root, old = some root → ¬ prim.ReachesNode before root hash) →
      prim.OnDigestPath key path ∨
        ∃ start slot, path = start ++ [slot] ∧ prim.OnDigestPath key start ∧
          (∃ root place bucket, old = some root ∧ prim.ReachesAt before root start place ∧
            prim.nodeAt before place = some (.leaf bucket)) ∧
          ∃ bucket, prim.nodeAt after hash = some (.leaf bucket)
  siblings : ∀ root path place slots, old = some root → prim.OnDigestPath key path →
    prim.ReachesAt before root path place → prim.nodeAt before place = some (.intermediate slots) →
      ∃ copy others, prim.ReachesAt after new path copy ∧
        prim.nodeAt after copy = some (.intermediate others) ∧
        ∀ slot, (descentByte (prim.keyDigest key) path.length).map UInt8.toFin ≠ some slot →
          others slot = slots slot

theorem lookup_run_mono {before after : Blobs} (hsubset : before ⊆ after)
    (hfree : prim.CollisionFree {held | held ∈ after}) {root : Option Hash} {key : String}
    {result : Option LeafEntry}
    (hrun : (prim.lookup root key).run prim.memoryStore before = (.ok result, before)) :
    (prim.lookup root key).run prim.memoryStore after = (.ok result, after) := by
  cases root with
  | none =>
      cases hrun
      rfl
  | some hash => exact lookupFrom_run_mono hsubset hfree hrun

section Insert

variable {after : Blobs} {old : Option Hash} {new : Hash} {trie grown : HamtTrie}
  {entry : LeafEntry} {leafMaxEntries : Nat}

/-- Where a represented trie has a node. -/
theorem Represents.exists_root (hroot : prim.Represents blobs old trie)
    (hfree : prim.CollisionFree {held | held ∈ blobs}) {path : List Slot} {hash : Hash}
    (hhash : prim.hashOf (trie.descend path) = some hash) :
    ∃ root, old = some root ∧ prim.ReachesAt blobs root path hash ∧
      prim.nodeAt blobs hash = some (prim.nodeOf (trie.descend path)) := by
  cases hold : old with
  | none =>
      have hempty := (Naming.canonical prim).eq_empty ⟨hroot.hash.trans hold, hroot.stored⟩
      rw [hempty, Trie.descend_empty] at hhash
      cases hhash
  | some root =>
      refine ⟨root, rfl, ?_, (hroot.stored.descend path).nodeAt hfree hhash⟩
      exact (hroot.stored.reachesAt_iff hfree (hroot.hash.trans hold)).mpr hhash

theorem exists_hashOf {trie : HamtTrie} (hsome : trie ≠ .empty) :
    ∃ hash, prim.hashOf trie = some hash := by
  cases trie with
  | empty => exact absurd rfl hsome
  | leaf entries => exact ⟨_, rfl⟩
  | node children => exact ⟨_, rfl⟩

theorem pathCopied_of_insert (hsubset : blobs ⊆ after)
    (hfree : prim.CollisionFree {held | held ∈ after}) (hold : prim.Represents blobs old trie)
    (hnew : prim.Represents after (some new) grown)
    (hinsert : prim.scheme.insert leafMaxEntries entry trie 0 = .ok grown) :
    prim.PathCopied blobs after old entry.key new := by
  have hsmall : prim.CollisionFree {held | held ∈ blobs} :=
    hfree.mono fun blob hblob => hsubset hblob
  refine ⟨hsubset, fun _ _ => blobAt_mono hsubset hfree, fun _ _ _ => lookup_run_mono hsubset hfree,
    ?_, ?_⟩
  · intro path hash hreaches hfresh
    have hhash := (hnew.stored.reachesAt_iff hfree hnew.hash).mp hreaches
    have hsome : grown.descend path ≠ .empty := by
      intro hempty
      rw [hempty] at hhash
      cases hhash
    obtain hsame | htakes | ⟨start, slot, rfl, htakes, ⟨bucket, hleaf⟩, leaf, hafter⟩ :=
      prim.scheme.descend_insert hinsert hsome
    · rw [hsame] at hhash
      obtain ⟨root, hroot, hplace, -⟩ := hold.exists_root hsmall hhash
      exact absurd (reachesNode_iff.mpr ⟨path, hplace⟩) (hfresh root hroot)
    · exact Or.inl (takes_iff_onDigestPath.mp htakes)
    · obtain ⟨place, hplace⟩ : ∃ place, prim.hashOf (trie.descend start) = some place :=
        exists_hashOf (by rw [hleaf]; rintro ⟨⟩)
      obtain ⟨root, hroot, hat, hnode⟩ := hold.exists_root hsmall hplace
      obtain ⟨_, -, -, hfound⟩ := hnew.exists_root hfree hhash
      rw [hleaf] at hnode
      rw [hafter] at hfound
      exact Or.inr ⟨start, slot, rfl, takes_iff_onDigestPath.mp htakes,
        ⟨root, place, bucket, hroot, hat, hnode⟩, leaf, hfound⟩
  · intro root path place slots hroot hpath hreaches hplace
    have hhash := (hold.stored.reachesAt_iff hsmall (hold.hash.trans hroot)).mp hreaches
    have hnode := (hold.stored.descend path).nodeAt hsmall hhash
    rw [hplace, Option.some.injEq] at hnode
    cases hdescend : trie.descend path with
    | empty => rw [hdescend] at hhash; cases hhash
    | leaf entries => rw [hdescend] at hnode; cases hnode
    | node children =>
        rw [hdescend] at hnode
        obtain ⟨others, hafter, hothers⟩ := prim.scheme.children_insert hinsert
          (takes_iff_onDigestPath.mpr hpath) hdescend
        obtain ⟨copy, hcopy⟩ : ∃ copy, prim.hashOf (grown.descend path) = some copy :=
          exists_hashOf (by rw [hafter]; rintro ⟨⟩)
        obtain ⟨_, hsame, hat, hfound⟩ := hnew.exists_root hfree hcopy
        obtain rfl := Option.some.inj hsame
        rw [hafter] at hfound
        refine ⟨copy, _, hat, hfound, fun slot hslot => ?_⟩
        rw [HamtNode.intermediate.inj hnode, hothers slot (by rwa [Nat.zero_add])]

end Insert

/-- A successful insertion into a tree copies only the path of its key. -/
theorem insertOne_pathCopied (leafMaxEntries : Nat) (entry : LeafEntry) {old : Option Hash}
    {new : Hash} {building : Prop} {final : Blobs} (htree : prim.IsTree building blobs old)
    (hruns : Prog.Runs (prim.StoreStep faults) (prim.insertOne old entry leafMaxEntries) blobs
      (.ok new) final)
    (hfree : prim.CollisionFree {held | held ∈ final}) :
    prim.PathCopied blobs final old entry.key new := by
  have hsubset : blobs ⊆ final :=
    hruns.reflects (fun held => held ⊆ final)
      (fun _ _ _ _ hstep hafter => List.Subset.trans hstep.subset hafter) (List.Subset.refl final)
  obtain ⟨trie, hold⟩ := htree.represents (hfree.mono fun blob hblob => hsubset hblob)
  obtain ⟨-, grown, hinsert, hnew⟩ := prim.storeSetting_outcome
    (insertOne_valid hfree leafMaxEntries entry hold) hruns
  exact pathCopied_of_insert hsubset hfree hold hnew hinsert

/-- The insertion that splits the leaf of the first of two keys with the same second
digest byte. -/
def splitRun : Prog.Outcome HamtError Hash × Blobs :=
  (Sharing.prim.insertOne (some Sharing.firstLeaf) Sharing.second 1).run Sharing.prim.memoryStore
    [Sample.leafBlob [Sharing.firstText]]

theorem insertOne_pathCopied_sample :
    splitRun.1 = .ok Sharing.foldRoot ∧
      Sharing.prim.PathCopied [Sample.leafBlob [Sharing.firstText]] splitRun.2
        (some Sharing.firstLeaf) Sharing.second.key Sharing.foldRoot := by
  have hbuilt := Sharing.prim.memoryStore_runs False
    (Sharing.prim.treeCalls [.insert (.one Sharing.first) 1] none) []
  have hbuiltRun : (Sharing.prim.treeCalls [.insert (.one Sharing.first) 1] none).run
      Sharing.prim.memoryStore [] =
        (.ok (some Sharing.firstLeaf), [Sample.leafBlob [Sharing.firstText]]) := by decide +kernel
  rw [hbuiltRun] at hbuilt
  have htree : Sharing.prim.IsTree False [Sample.leafBlob [Sharing.firstText]]
      (some Sharing.firstLeaf) := ⟨_, [], _, hbuilt, List.Subset.refl _⟩
  have hrun : splitRun.1 = .ok Sharing.foldRoot ∧
      (splitRun.2.map Sharing.prim.blake3).Nodup ∧
        Hash.zero ∉ splitRun.2.map Sharing.prim.blake3 := by decide +kernel
  obtain ⟨houtcome, hnodup, hnonzero⟩ := hrun
  have hruns : Prog.Runs (Sharing.prim.StoreStep False)
      (Sharing.prim.insertOne (some Sharing.firstLeaf) Sharing.second 1)
      [Sample.leafBlob [Sharing.firstText]] splitRun.1 splitRun.2 :=
    Sharing.prim.memoryStore_runs False _ _
  rw [houtcome] at hruns
  exact ⟨houtcome, insertOne_pathCopied 1 Sharing.second htree hruns
    (collisionFree_of_nodup hnodup hnonzero)⟩

end Primitives

end Registry

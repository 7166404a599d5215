import Registry.Core.Hamt
import Registry.Trie.Basic

/-! # The trie a root hash stands for

A HAMT root names a trie through the blob store: each node's blob holds the
hashes of its children. The programs of the HAMT engine compute the operations
of that trie, whatever other blobs the store gains meanwhile, and fail only on a
fault of the store or where the trie itself cannot grow.
-/

namespace Registry

open Effect BucketTrie

abbrev HamtTrie := Trie Slot LeafEntry

namespace Primitives

variable (prim : Primitives)

/-- Keys are routed by the bytes of their SHA-256 digest after the first. -/
def scheme : Scheme String Slot LeafEntry where
  keyOf := LeafEntry.key
  route key depth := (descentByte (prim.keyDigest key) depth).map UInt8.toFin
  levels := maxDepth
  route_eq_none_iff key depth := by
    rw [Option.map_eq_none_iff, descentByte_eq_none_iff]

@[simp] theorem scheme_keyOf (entry : LeafEntry) : prim.scheme.keyOf entry = entry.key := rfl

@[simp] theorem scheme_levels : prim.scheme.levels = maxDepth := rfl

@[simp] theorem scheme_sort (entries : List LeafEntry) :
    prim.scheme.sort entries = sortByKey entries := rfl

/-- The hash under which a trie is stored; an absent child has none. -/
def hashOf : HamtTrie → Option Hash
  | .empty => none
  | .leaf entries => some (prim.blake3 (prim.encode (.leaf entries)))
  | .node children =>
      some (prim.blake3 (prim.encode (.intermediate fun slot => hashOf (children slot))))

/-- Every node blob of a trie is held. -/
def Stored (blobs : Blobs) : HamtTrie → Prop
  | .empty => True
  | .leaf entries => prim.encode (.leaf entries) ∈ blobs
  | .node children =>
      prim.encode (.intermediate fun slot => prim.hashOf (children slot)) ∈ blobs ∧
        ∀ slot, Stored blobs (children slot)

/-- The root node of a trie; an absent child reads as an empty leaf. -/
def nodeOf : HamtTrie → HamtNode
  | .empty => .leaf []
  | .leaf entries => .leaf entries
  | .node children => .intermediate fun slot => prim.hashOf (children slot)

variable {prim}

theorem Stored.mono {small large : Blobs} (hsubset : small ⊆ large) {trie : HamtTrie}
    (hstored : prim.Stored small trie) : prim.Stored large trie := by
  induction trie with
  | empty => trivial
  | leaf entries => exact hsubset hstored
  | node children ih => exact ⟨hsubset hstored.1, fun slot => ih slot (hstored.2 slot)⟩

/-- A stored trie is addressed by the hash of its root node's blob. -/
theorem Stored.root {blobs : Blobs} {trie : HamtTrie} {hash : Hash}
    (hstored : prim.Stored blobs trie) (hhash : prim.hashOf trie = some hash) :
    prim.encode (prim.nodeOf trie) ∈ blobs ∧
      prim.blake3 (prim.encode (prim.nodeOf trie)) = hash := by
  cases trie with
  | empty => cases hhash
  | leaf entries => exact ⟨hstored, Option.some.inj hhash⟩
  | node children => exact ⟨hstored.1, Option.some.inj hhash⟩

theorem Stored.hashOf_ne_zero {blobs : Blobs} {trie : HamtTrie}
    (hfree : prim.CollisionFree {held | held ∈ blobs}) (hstored : prim.Stored blobs trie) :
    prim.hashOf trie ≠ some Hash.zero := by
  intro hzero
  obtain ⟨hheld, hhash⟩ := hstored.root hzero
  exact hfree.2 _ hheld hhash

/-- Reading the root node of a stored trie gives that node. -/
theorem Stored.decode_root {blobs : Blobs} {trie : HamtTrie} {hash : Hash}
    (hfree : prim.CollisionFree {held | held ∈ blobs}) (hstored : prim.Stored blobs trie)
    (hhash : prim.hashOf trie = some hash) :
    ∃ bytes, prim.blobAt blobs hash = some bytes ∧
      prim.decode bytes hash = .ok (prim.nodeOf trie) := by
  obtain ⟨hheld, rfl⟩ := hstored.root hhash
  refine ⟨_, prim.blobAt_blake3 hfree hheld, prim.decode_encode _ _ ?_⟩
  intro slots hslots slot
  cases trie with
  | empty => cases hslots
  | leaf entries => cases hslots
  | node children =>
      cases hslots
      exact (hstored.2 slot).hashOf_ne_zero hfree

/-- Stored tries with the same root hash have the same root node. -/
theorem nodeOf_eq_of_hashOf_eq {blobs : Blobs} {first second : HamtTrie} {hash : Hash}
    (hfree : prim.CollisionFree {held | held ∈ blobs}) (hfirst : prim.Stored blobs first)
    (hsecond : prim.Stored blobs second) (hhash : prim.hashOf first = prim.hashOf second)
    (hsome : prim.hashOf first = some hash) : prim.nodeOf first = prim.nodeOf second := by
  obtain ⟨bytes, hget, hdecode⟩ := hfirst.decode_root hfree hsome
  obtain ⟨others, hgetOther, hdecodeOther⟩ := hsecond.decode_root hfree (hhash ▸ hsome)
  rw [hget] at hgetOther
  cases hgetOther
  exact Except.ok.inj (hdecode.symm.trans hdecodeOther)

/-! ## Tries and the hashes that name them -/

variable (prim) in
/-- A blob that reads as this node. -/
def ReadsAsNode (bytes : Bytes) (node : HamtNode) : Prop :=
  prim.decode bytes (prim.blake3 bytes) = .ok node ∨ bytes = prim.encode node

variable (prim) in
/-- The hash of a held blob that reads as this node. -/
def HoldsNode (blobs : Blobs) (hash : Option Hash) (node : HamtNode) : Prop :=
  ∃ bytes ∈ blobs, hash = some (prim.blake3 bytes) ∧ prim.ReadsAsNode bytes node

/-- A way in which hashes name tries. An absent child has no hash, any other trie is
named by a held blob that reads as its root node, and to store a node is to name the
trie it stands for. -/
structure Naming (prim : Primitives) where
  names : Blobs → HamtTrie → Option Hash → Prop
  mono : ∀ {small large trie hash}, small ⊆ large → names small trie hash → names large trie hash
  empty : ∀ {blobs hash}, names blobs .empty hash ↔ hash = none
  leaf : ∀ {blobs entries hash}, names blobs (.leaf entries) hash →
    prim.HoldsNode blobs hash (.leaf entries)
  node : ∀ {blobs children hash}, names blobs (.node children) hash →
    ∃ slots, prim.HoldsNode blobs hash (.intermediate slots) ∧
      ∀ slot, names blobs (children slot) (slots slot)
  putLeaf : ∀ {blobs entries}, prim.encode (.leaf entries) ∈ blobs →
    names blobs (.leaf entries) (some (prim.blake3 (prim.encode (.leaf entries))))
  putNode : ∀ {blobs children slots}, prim.encode (.intermediate slots) ∈ blobs →
    (∀ slot, names blobs (children slot) (slots slot)) →
      names blobs (.node children) (some (prim.blake3 (prim.encode (.intermediate slots))))

namespace Naming

variable {blobs : Blobs} (naming : Naming prim)

variable (prim) in
/-- Every trie by the hashes that the engine itself stores it under. -/
def canonical : Naming prim where
  names blobs trie hash := prim.hashOf trie = hash ∧ prim.Stored blobs trie
  mono hsubset hnames := ⟨hnames.1, hnames.2.mono hsubset⟩
  empty := ⟨fun hnames => hnames.1.symm, fun hnone => ⟨hnone.symm, trivial⟩⟩
  leaf hnames := ⟨_, hnames.2, hnames.1.symm, Or.inr rfl⟩
  node hnames := ⟨_, ⟨_, hnames.2.1, hnames.1.symm, Or.inr rfl⟩,
    fun slot => ⟨rfl, hnames.2.2 slot⟩⟩
  putLeaf hheld := ⟨rfl, hheld⟩
  putNode {blobs children slots} hheld hchildren := by
    have hslots : slots = fun slot => prim.hashOf (children slot) :=
      funext fun slot => (hchildren slot).1.symm
    subst hslots
    exact ⟨rfl, hheld, fun slot => (hchildren slot).2⟩

/-- What the engine has stored is named in every way. -/
theorem of_stored {trie : HamtTrie} {hash : Option Hash} (hhash : prim.hashOf trie = hash)
    (hstored : prim.Stored blobs trie) : naming.names blobs trie hash := by
  subst hhash
  induction trie with
  | empty => exact naming.empty.mpr rfl
  | leaf entries => exact naming.putLeaf hstored
  | node children ih => exact naming.putNode hstored.1 fun slot => ih slot (hstored.2 slot)

/-- A trie that is not absent is named by a held blob. -/
theorem held {trie : HamtTrie} {hash : Hash} (hnames : naming.names blobs trie (some hash)) :
    ∃ bytes ∈ blobs, hash = prim.blake3 bytes := by
  cases trie with
  | empty => cases naming.empty.mp hnames
  | leaf entries =>
      obtain ⟨bytes, hheld, hhash, -⟩ := naming.leaf hnames
      exact ⟨bytes, hheld, Option.some.inj hhash⟩
  | node children =>
      obtain ⟨slots, ⟨bytes, hheld, hhash, -⟩, -⟩ := naming.node hnames
      exact ⟨bytes, hheld, Option.some.inj hhash⟩

theorem eq_empty {trie : HamtTrie} (hnames : naming.names blobs trie none) : trie = .empty := by
  cases trie with
  | empty => rfl
  | leaf entries =>
      obtain ⟨bytes, -, hhash, -⟩ := naming.leaf hnames
      cases hhash
  | node children =>
      obtain ⟨slots, ⟨bytes, -, hhash, -⟩, -⟩ := naming.node hnames
      cases hhash

/-- The hash of a named trie is not the one that stands for an absent child. -/
theorem ne_zero (hfree : prim.CollisionFree {held | held ∈ blobs}) {trie : HamtTrie}
    {hash : Option Hash} (hnames : naming.names blobs trie hash) : hash ≠ some Hash.zero := by
  rintro rfl
  obtain ⟨bytes, hheld, hzero⟩ := naming.held hnames
  exact hfree.2 bytes hheld hzero.symm

end Naming

/-- A held node is read back, unless one of its children is named by zeros. -/
theorem HoldsNode.decode {blobs : Blobs} (hfree : prim.CollisionFree {held | held ∈ blobs})
    {hash : Hash} {node : HamtNode} (hholds : prim.HoldsNode blobs (some hash) node)
    (hslots : ∀ slots, node = .intermediate slots → ∀ slot, slots slot ≠ some Hash.zero) :
    ∃ bytes, prim.blobAt blobs hash = some bytes ∧ prim.decode bytes hash = .ok node := by
  obtain ⟨bytes, hheld, hhash, hreads⟩ := hholds
  obtain rfl := Option.some.inj hhash
  refine ⟨bytes, prim.blobAt_blake3 hfree hheld, ?_⟩
  rcases hreads with hdecode | rfl
  · exact hdecode
  · exact prim.decode_encode _ _ hslots

/-! ## One call at a time -/

section Calls

variable {faults : Prop} {blobUniverse : Set Bytes} {blobs : Blobs}

theorem getNode_valid (hfree : prim.CollisionFree blobUniverse) {trie : HamtTrie} {hash : Hash}
    (hstored : prim.Stored blobs trie) (hhash : prim.hashOf trie = some hash) :
    Valid (prim.storeSetting faults blobUniverse)
      (fun node after => blobs ⊆ after ∧ node = prim.nodeOf trie) (fun _ _ => faults)
      (prim.getNode hash) blobs := by
  intro before hgrow hinv response after hcall
  obtain ⟨⟨rfl, hresponse⟩, hbound⟩ := hcall
  refine ⟨hbound, List.Subset.refl _, ?_⟩
  rcases hresponse with hresponse | ⟨hfault, hresponse | ⟨error, hresponse⟩⟩
  · obtain ⟨bytes, hget, hdecode⟩ :=
      (hstored.mono hgrow).decode_root (hfree.mono hbound) hhash
    subst hresponse
    simp only [hget, hdecode]
    exact ⟨hgrow, rfl⟩
  · subst hresponse
    exact hfault
  · subst hresponse
    exact hfault

/-- Reading a node that is held gives it, whatever the store gains meanwhile. -/
theorem readHeld_valid (hfree : prim.CollisionFree blobUniverse) {hash : Hash} {node : HamtNode}
    (hholds : prim.HoldsNode blobs (some hash) node)
    (hslots : prim.CollisionFree {held | held ∈ blobs} →
      ∀ slots, node = .intermediate slots → ∀ slot, slots slot ≠ some Hash.zero) :
    Valid (prim.storeSetting faults blobUniverse)
      (fun result after => blobs ⊆ after ∧ result = node) (fun _ _ => faults)
      (prim.getNode hash) blobs := by
  intro before hgrow hinv response after hcall
  obtain ⟨⟨rfl, hresponse⟩, hbound⟩ := hcall
  refine ⟨hbound, List.Subset.refl _, ?_⟩
  rcases hresponse with hresponse | ⟨hfault, hresponse | ⟨error, hresponse⟩⟩
  · obtain ⟨bytes, hheld, hhash, hreads⟩ := hholds
    have hsmall : prim.CollisionFree {held | held ∈ blobs} :=
      hfree.mono fun blob hblob => hbound blob (hgrow hblob)
    have hlarge : prim.HoldsNode after (some hash) node := ⟨bytes, hgrow hheld, hhash, hreads⟩
    obtain ⟨found, hget, hdecode⟩ := hlarge.decode (hfree.mono hbound) (hslots hsmall)
    subst hresponse
    simp only [hget, hdecode]
    exact ⟨hgrow, rfl⟩
  · subst hresponse
    exact hfault
  · subst hresponse
    exact hfault

theorem putNode_valid (node : HamtNode) :
    Valid (prim.storeSetting faults blobUniverse)
      (fun hash after => blobs ⊆ after ∧ hash = prim.blake3 (prim.encode node) ∧
        prim.encode node ∈ after) (fun _ _ => faults) (prim.putNode node) blobs := by
  intro before hgrow hinv response after ⟨hcall, hbound⟩
  have hkeep : before ⊆ after := StoreStep.subset hcall
  refine ⟨hbound, hkeep, ?_⟩
  rcases hcall with ⟨hresponse, hafter⟩ | ⟨hfault, ⟨error, hresponse⟩, -⟩
  · subst hresponse
    subst hafter
    exact ⟨List.Subset.trans hgrow hkeep, rfl, List.mem_cons_self⟩
  · subst hresponse
    exact hfault

theorem leaf_valid (entries : List LeafEntry) {fails : HamtError → Blobs → Prop}
    (hfails : ∀ error after, faults → fails error after) :
    Valid (prim.storeSetting faults blobUniverse)
      (fun hash after => blobs ⊆ after ∧ prim.hashOf (.leaf entries) = some hash ∧
        prim.Stored after (.leaf entries)) fails (prim.putNode (.leaf entries)) blobs := by
  refine Valid.mono ?_ hfails (putNode_valid _)
  rintro hash after ⟨hgrow, rfl, hheld⟩
  exact ⟨hgrow, rfl, hheld⟩

/-- Filling the slots of an intermediate stores one child trie per slot, and finds of
each slot what creating its child shows. -/
theorem fillSlots_valid {fails : HamtError → Blobs → Prop} (children : Slot → HamtTrie)
    (shown : Slot → Prop) {child : Slot → Option (HamtProg Hash)}
    (hnone : ∀ slot, child slot = none → children slot = .empty ∧ shown slot)
    (hsome : ∀ slot create, child slot = some create → ∀ before, blobs ⊆ before →
      Valid (prim.storeSetting faults blobUniverse)
        (fun hash after => before ⊆ after ∧ prim.hashOf (children slot) = some hash ∧
          prim.Stored after (children slot) ∧ shown slot) fails create before) :
    Valid (prim.storeSetting faults blobUniverse)
      (fun slots after => blobs ⊆ after ∧ (slots = fun slot => prim.hashOf (children slot)) ∧
        ∀ slot, prim.Stored after (children slot) ∧ shown slot) fails (fillSlots child) blobs := by
  -- Slots still to do are empty; every other slot is already what it should be.
  let I : List Slot → (Slot → Option Hash) → Blobs → Prop := fun rest slots after =>
    rest.Nodup ∧ blobs ⊆ after ∧ (∀ slot ∈ rest, slots slot = none) ∧
      ∀ slot ∉ rest, slots slot = prim.hashOf (children slot) ∧
        prim.Stored after (children slot) ∧ shown slot
  have hinit : I (List.finRange 256) (fun _ => none) blobs :=
    ⟨List.nodup_finRange 256, List.Subset.refl _, fun _ _ => rfl,
      fun slot hslot => absurd (List.mem_finRange slot) hslot⟩
  refine Valid.mono ?_ (fun _ _ h => h) (Valid.foldlM I ?_ hinit)
  · rintro slots after ⟨-, hgrow, -, hdone⟩
    refine ⟨hgrow, funext fun slot => (hdone slot List.not_mem_nil).1, fun slot => ?_⟩
    exact (hdone slot List.not_mem_nil).2
  · rintro slot rest slots before ⟨hnodup, hgrow, htodo, hdone⟩
    obtain ⟨hfresh, hrest⟩ := List.nodup_cons.mp hnodup
    cases hchild : child slot with
    | none =>
        refine ⟨hrest, hgrow, fun other h => htodo other (List.mem_cons_of_mem _ h), ?_⟩
        intro other hother
        by_cases hsame : other = slot
        · subst hsame
          obtain ⟨hempty, hshown⟩ := hnone other hchild
          rw [htodo other List.mem_cons_self, hempty]
          exact ⟨rfl, trivial, hshown⟩
        · exact hdone other (by simp [hsame, hother])
    | some create =>
        apply Valid.bind
        refine Valid.mono ?_ (fun _ _ h => h) (hsome slot create hchild before hgrow)
        rintro hash after ⟨hkeep, hhash, hstored, hshown⟩
        refine ⟨hrest, List.Subset.trans hgrow hkeep, ?_, ?_⟩
        · intro other hother
          have hne : other ≠ slot := fun heq => hfresh (heq ▸ hother)
          rw [Function.update_of_ne hne]
          exact htodo other (List.mem_cons_of_mem _ hother)
        · intro other hother
          by_cases hsame : other = slot
          · subst hsame
            rw [Function.update_self]
            exact ⟨hhash.symm, hstored, hshown⟩
          · rw [Function.update_of_ne hsame]
            obtain ⟨hslot, hold, hknown⟩ := hdone other (by simp [hsame, hother])
            exact ⟨hslot, hold.mono hkeep, hknown⟩

end Calls

/-! ## Distributing entries -/

theorem distribute_ok {α : Type} {keyOf : α → String} {digestOf : α → Digest} {depth : Nat}
    (hdepth : depth < maxDepth) (items : List α) :
    distribute keyOf digestOf depth items = .ok fun slot =>
      items.filter fun item => (descentByte (digestOf item) depth).map UInt8.toFin = some slot := by
  suffices hfold : ∀ step : (Slot → List α) → α → Except HamtError (Slot → List α),
      (∀ buckets item byte, descentByte (digestOf item) depth = some byte →
        step buckets item =
          .ok (Function.update buckets byte.toFin (buckets byte.toFin ++ [item]))) →
      ∀ buckets : Slot → List α, items.foldlM step buckets =
        .ok fun slot => buckets slot ++ items.filter fun item =>
          (descentByte (digestOf item) depth).map UInt8.toFin = some slot by
    refine hfold _ (fun buckets item byte hbyte => ?_) fun _ => []
    simp only [hbyte]
  intro step hstep
  induction items with
  | nil => intro buckets; simp [pure, Except.pure]
  | cons item rest ih =>
      intro buckets
      obtain ⟨byte, hbyte⟩ := exists_descentByte (digestOf item) hdepth
      rw [List.foldlM_cons, hstep buckets item byte hbyte]
      refine (ih _).trans (congrArg Except.ok (funext fun slot => ?_))
      by_cases hslot : slot = byte.toFin
      · subst hslot
        simp [hbyte]
      · have hne : byte.toFin ≠ slot := fun heq => hslot heq.symm
        simp [hbyte, hslot, hne]

theorem distribute_error {α : Type} {keyOf : α → String} {digestOf : α → Digest} {depth : Nat}
    (hdepth : maxDepth ≤ depth) (item : α) (rest : List α) :
    distribute keyOf digestOf depth (item :: rest) =
      .error (.depthExhausted (keyOf item) depth) := by
  rw [distribute, List.foldlM_cons, (descentByte_eq_none_iff (digestOf item) depth).mpr hdepth]
  rfl

/-! ## The programs compute the operations of the trie -/

section Programs

variable {faults : Prop} {blobUniverse : Set Bytes} {blobs : Blobs}

theorem lookupFrom_valid (hfree : prim.CollisionFree blobUniverse) (key : String) {fuel depth : Nat}
    {trie : HamtTrie} {hash : Hash} (hfuel : maxDepth < fuel + depth) (hdepth : depth ≤ maxDepth)
    (hwf : prim.scheme.WellFormed depth trie) (hstored : prim.Stored blobs trie)
    (hhash : prim.hashOf trie = some hash) :
    Valid (prim.storeSetting faults blobUniverse)
      (fun result after => blobs ⊆ after ∧ result = prim.scheme.find key trie depth)
      (fun _ _ => faults) (prim.lookupFrom key fuel hash depth) blobs := by
  induction fuel generalizing depth trie hash blobs with
  | zero => omega
  | succ fuel ih =>
      rw [lookupFrom]
      apply Valid.bind
      refine Valid.mono ?_ (fun _ _ h => h) (getNode_valid hfree hstored hhash)
      rintro node after ⟨hgrow, rfl⟩
      cases trie with
      | empty => cases hhash
      | leaf entries => exact ⟨hgrow, rfl⟩
      | node children =>
          obtain ⟨hlevel, hchildren⟩ := hwf
          obtain ⟨byte, hbyte⟩ := exists_descentByte (prim.keyDigest key) hlevel
          have hfind : prim.scheme.find key (.node children) depth =
              prim.scheme.find key (children byte.toFin) (depth + 1) := by
            simp [Scheme.find, scheme, hbyte]
          simp only [nodeOf, hbyte, hfind]
          cases hchild : prim.hashOf (children byte.toFin) with
          | none =>
              have hempty : children byte.toFin = .empty := by
                cases hcase : children byte.toFin with
                | empty => rfl
                | leaf entries => rw [hcase] at hchild; cases hchild
                | node inner => rw [hcase] at hchild; cases hchild
              rw [hempty]
              exact ⟨hgrow, rfl⟩
          | some child =>
              refine Valid.mono ?_ (fun _ _ h => h)
                (ih (by omega) hlevel (hchildren byte.toFin).1
                  ((hstored.2 byte.toFin).mono hgrow) hchild)
              rintro result later ⟨hlater, hresult⟩
              exact ⟨List.Subset.trans hgrow hlater, hresult⟩

theorem splitLeaf_valid {entry : LeafEntry} {entries : List LeafEntry} {depth : Nat} :
    Valid (prim.storeSetting faults blobUniverse)
      (fun hash after => blobs ⊆ after ∧ depth < maxDepth ∧
        prim.hashOf (prim.scheme.split depth (entry :: entries)) = some hash ∧
        prim.Stored after (prim.scheme.split depth (entry :: entries)))
      (fun error _ => faults ∨ (maxDepth ≤ depth ∧ error = .depthExhausted entry.key depth))
      (prim.splitLeaf depth (entry :: entries)) blobs := by
  rw [splitLeaf]
  apply Valid.bind
  by_cases hdepth : depth < maxDepth
  · rw [distribute_ok hdepth]
    apply Valid.bind
    refine Valid.mono ?_ (fun _ _ h => h) (fillSlots_valid
      (fun slot => .ofBucket (prim.scheme.bucket depth slot (entry :: entries)))
      (fun _ => True) ?_ ?_)
    · rintro slots after ⟨hgrow, rfl, hstored⟩
      refine Valid.mono ?_ (fun _ _ hfault => Or.inl hfault) (putNode_valid _)
      rintro hash later ⟨hlater, rfl, hheld⟩
      exact ⟨List.Subset.trans hgrow hlater, hdepth, rfl, hheld,
        fun slot => (hstored slot).1.mono hlater⟩
    · intro slot hchild
      simp only [ite_eq_left_iff, reduceCtorEq, imp_false, not_not] at hchild
      exact ⟨if_pos hchild, trivial⟩
    · intro slot create hchild before hgrow
      simp only [Option.ite_none_left_eq_some, Option.some.injEq] at hchild
      obtain ⟨hbucket, rfl⟩ := hchild
      have htrie : (.ofBucket (prim.scheme.bucket depth slot (entry :: entries)) : HamtTrie) =
          .leaf (prim.scheme.bucket depth slot (entry :: entries)) := if_neg hbucket
      rw [htrie]
      refine Valid.mono ?_ (fun _ _ hfault => Or.inl hfault) (putNode_valid _)
      rintro hash after ⟨hkeep, rfl, hheld⟩
      exact ⟨hkeep, rfl, hheld, trivial⟩
  · rw [distribute_error (by omega)]
    exact Or.inr ⟨by omega, rfl⟩

theorem place_valid (leafMaxEntries : Nat) (entry : LeafEntry) (entries : List LeafEntry)
    (depth : Nat) :
    Valid (prim.storeSetting faults blobUniverse)
      (fun hash after => blobs ⊆ after ∧ ∃ placed,
        prim.scheme.place leafMaxEntries entry entries depth = .ok placed ∧
          prim.hashOf placed = some hash ∧ prim.Stored after placed)
      (fun error _ => faults ∨ ∃ key level, error = .depthExhausted key level ∧
        prim.scheme.place leafMaxEntries entry entries depth = .error (key, level))
      (if (sortByKey (entries ++ [entry])).length ≤ leafMaxEntries
        then prim.putNode (.leaf (sortByKey (entries ++ [entry])))
        else prim.splitLeaf depth (sortByKey (entries ++ [entry]))) blobs := by
  by_cases hlength : (sortByKey (entries ++ [entry])).length ≤ leafMaxEntries
  · have hplace : prim.scheme.place leafMaxEntries entry entries depth =
        .ok (.leaf (sortByKey (entries ++ [entry]))) := if_pos hlength
    rw [if_pos hlength, hplace]
    refine Valid.mono ?_ (fun _ _ hfault => Or.inl hfault) (putNode_valid _)
    rintro hash after ⟨hgrow, rfl, hheld⟩
    exact ⟨hgrow, .leaf _, rfl, rfl, hheld⟩
  · have hplace : prim.scheme.place leafMaxEntries entry entries depth =
        if depth < maxDepth then .ok (prim.scheme.split depth (sortByKey (entries ++ [entry])))
        else .error (((sortByKey (entries ++ [entry])).headD entry).key, depth) :=
      if_neg hlength
    rw [if_neg hlength, hplace]
    obtain ⟨first, rest, hgrown⟩ : ∃ first rest, sortByKey (entries ++ [entry]) = first :: rest :=
      List.exists_cons_of_length_pos (by
        have := prim.scheme.length_sort (entries ++ [entry])
        rw [scheme_sort, List.length_append] at this
        omega)
    rw [hgrown]
    refine Valid.mono ?_ ?_ splitLeaf_valid
    · rintro hash after ⟨hgrow, hdepth, hhash, hstored⟩
      rw [if_pos hdepth]
      exact ⟨hgrow, _, rfl, hhash, hstored⟩
    · rintro error after (hfault | ⟨hdepth, rfl⟩)
      · exact Or.inl hfault
      · rw [if_neg (by omega)]
        exact Or.inr ⟨_, _, rfl, rfl⟩

/-- A placed entry makes a trie of nodes that are stored just now. -/
theorem Naming.place_valid (naming : Naming prim) (leafMaxEntries : Nat) (entry : LeafEntry)
    (entries : List LeafEntry) (depth : Nat) :
    Valid (prim.storeSetting faults blobUniverse)
      (fun hash after => blobs ⊆ after ∧ ∃ placed,
        prim.scheme.place leafMaxEntries entry entries depth = .ok placed ∧
          naming.names after placed (some hash))
      (fun error _ => faults ∨ ∃ key level, error = .depthExhausted key level ∧
        prim.scheme.place leafMaxEntries entry entries depth = .error (key, level))
      (if (sortByKey (entries ++ [entry])).length ≤ leafMaxEntries
        then prim.putNode (.leaf (sortByKey (entries ++ [entry])))
        else prim.splitLeaf depth (sortByKey (entries ++ [entry]))) blobs := by
  refine Valid.mono ?_ (fun _ _ h => h)
    (Primitives.place_valid leafMaxEntries entry entries depth)
  rintro hash after ⟨hgrow, placed, hplace, hhash, hstored⟩
  exact ⟨hgrow, placed, hplace, naming.of_stored hhash hstored⟩

/-- Insertion into the store is insertion into the trie, however the trie is named. -/
theorem Naming.insertAt_valid (naming : Naming prim) (hfree : prim.CollisionFree blobUniverse)
    (leafMaxEntries : Nat) (entry : LeafEntry) {fuel depth : Nat} {trie : HamtTrie}
    {nodeHash : Option Hash} (hfuel : maxDepth < fuel + depth) (hdepth : depth ≤ maxDepth)
    (hnames : naming.names blobs trie nodeHash) :
    Valid (prim.storeSetting faults blobUniverse)
      (fun hash after => blobs ⊆ after ∧ ∃ grown,
        prim.scheme.insert leafMaxEntries entry trie depth = .ok grown ∧
          naming.names after grown (some hash))
      (fun error _ => faults ∨ ∃ key level, error = .depthExhausted key level ∧
        prim.scheme.insert leafMaxEntries entry trie depth = .error (key, level))
      (prim.insertAt leafMaxEntries entry fuel nodeHash depth) blobs := by
  induction fuel generalizing depth trie nodeHash blobs with
  | zero => omega
  | succ fuel ih =>
      rw [insertAt.eq_def]
      cases trie with
      | empty =>
          obtain rfl := naming.empty.mp hnames
          exact naming.place_valid leafMaxEntries entry [] depth
      | leaf entries =>
          obtain ⟨bytes, hheld, rfl, hreads⟩ := naming.leaf hnames
          apply Valid.bind
          refine Valid.mono ?_ (fun _ _ hfault => Or.inl hfault)
            (readHeld_valid hfree ⟨bytes, hheld, rfl, hreads⟩ fun _ _ hslots => by cases hslots)
          rintro node before ⟨hgrow, rfl⟩
          dsimp only
          by_cases hpresent : entries.any fun present => present.key = entry.key
          · have hnoop : prim.scheme.insert leafMaxEntries entry (.leaf entries : HamtTrie) depth =
                .ok (.leaf entries) := if_pos hpresent
            rw [if_pos hpresent, hnoop]
            exact ⟨hgrow, _, rfl, naming.mono hgrow hnames⟩
          · have hplace : prim.scheme.insert leafMaxEntries entry (.leaf entries : HamtTrie) depth =
                prim.scheme.place leafMaxEntries entry entries depth := if_neg hpresent
            rw [if_neg hpresent, hplace]
            refine Valid.mono ?_ (fun _ _ h => h)
              (naming.place_valid leafMaxEntries entry entries depth)
            rintro hash after ⟨hkeep, hplaced⟩
            exact ⟨List.Subset.trans hgrow hkeep, hplaced⟩
      | node children =>
          obtain ⟨slots, ⟨bytes, hheld, rfl, hreads⟩, hchildren⟩ := naming.node hnames
          apply Valid.bind
          refine Valid.mono ?_ (fun _ _ hfault => Or.inl hfault)
            (readHeld_valid hfree ⟨bytes, hheld, rfl, hreads⟩ fun hsmall others hothers slot => by
              cases hothers
              exact naming.ne_zero hsmall (hchildren slot))
          rintro node before ⟨hgrow, rfl⟩
          cases hbyte : descentByte (prim.keyDigest entry.key) depth with
          | none =>
              refine Or.inr ⟨entry.key, depth, rfl, ?_⟩
              simp [Scheme.insert, scheme, hbyte]
          | some byte =>
              have hlevel : depth < maxDepth := by
                rw [← descentByte_isSome_iff (prim.keyDigest entry.key), hbyte]
                rfl
              have hinsert : prim.scheme.insert leafMaxEntries entry (.node children) depth =
                  (prim.scheme.insert leafMaxEntries entry (children byte.toFin)
                    (depth + 1)).map fun child =>
                      .node (Function.update children byte.toFin child) := by
                simp [Scheme.insert, scheme, hbyte]
              simp only [hinsert]
              apply Valid.bind
              refine Valid.mono ?_ ?_ (ih (by omega) hlevel
                (naming.mono hgrow (hchildren byte.toFin)))
              · rintro child after ⟨hkeep, grown, hgrown, hchild⟩
                refine Valid.mono ?_ (fun _ _ hfault => Or.inl hfault) (putNode_valid _)
                rintro hash later ⟨hlater, rfl, hnode⟩
                have hall := List.Subset.trans hkeep hlater
                refine ⟨List.Subset.trans hgrow hall,
                  .node (Function.update children byte.toFin grown), by rw [hgrown]; rfl,
                  naming.putNode hnode fun slot => ?_⟩
                by_cases hslot : slot = byte.toFin
                · subst hslot
                  rw [Function.update_self, Function.update_self]
                  exact naming.mono hlater hchild
                · rw [Function.update_of_ne hslot, Function.update_of_ne hslot]
                  exact naming.mono (List.Subset.trans hgrow hall) (hchildren slot)
              · rintro error after (hfault | ⟨key, level, rfl, herror⟩)
                · exact Or.inl hfault
                · exact Or.inr ⟨key, level, rfl, by rw [herror]; rfl⟩

end Programs

end Primitives

end Registry

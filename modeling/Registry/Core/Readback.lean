import Registry.Core.FirstWrite
import Registry.Core.Walk

/-! # Trees as they are read

A root stands for whatever tree its blobs read as, well formed or not, and however
its leaves are spelled. Listing the entries of such a tree finds exactly those that
are in it, and ends, since no path comes to the same hash twice.
-/

namespace Registry

open Effect BucketTrie

namespace Primitives

variable (prim : Primitives)

/-- The blobs that a root leads to read as this trie. -/
def Reads (blobs : Blobs) : HamtTrie → Option Hash → Prop
  | .empty, hash => hash = none
  | .leaf entries, hash => prim.HoldsNode blobs hash (.leaf entries)
  | .node children, hash => ∃ slots, prim.HoldsNode blobs hash (.intermediate slots) ∧
      ∀ slot, Reads blobs (children slot) (slots slot)

variable {prim}

theorem HoldsNode.mono {small large : Blobs} {hash : Option Hash} {node : HamtNode}
    (hsubset : small ⊆ large) (hholds : prim.HoldsNode small hash node) :
    prim.HoldsNode large hash node := by
  obtain ⟨bytes, hheld, hnode⟩ := hholds
  exact ⟨bytes, hsubset hheld, hnode⟩

theorem Reads.mono {small large : Blobs} {trie : HamtTrie} {hash : Option Hash}
    (hsubset : small ⊆ large) (hreads : prim.Reads small trie hash) :
    prim.Reads large trie hash := by
  induction trie generalizing hash with
  | empty => exact hreads
  | leaf entries => exact HoldsNode.mono hsubset hreads
  | node children ih =>
      obtain ⟨slots, hholds, hslots⟩ := hreads
      exact ⟨slots, hholds.mono hsubset, fun slot => ih slot (hslots slot)⟩

variable (prim) in
/-- Every trie by the hashes that read as it. -/
def Naming.readback : Naming prim where
  names := prim.Reads
  mono := Reads.mono
  empty := Iff.rfl
  leaf hreads := hreads
  node hreads := hreads
  putLeaf hheld := ⟨_, hheld, rfl, Or.inr rfl⟩
  putNode hheld hchildren := ⟨_, ⟨_, hheld, rfl, Or.inr rfl⟩, hchildren⟩

/-- However a hash names a trie, it reads as that trie. -/
theorem Naming.reads (naming : Naming prim) {blobs : Blobs} {trie : HamtTrie}
    {hash : Option Hash} (hnames : naming.names blobs trie hash) : prim.Reads blobs trie hash := by
  induction trie generalizing hash with
  | empty => exact naming.empty.mp hnames
  | leaf entries => exact naming.leaf hnames
  | node children ih =>
      obtain ⟨slots, hholds, hslots⟩ := naming.node hnames
      exact ⟨slots, hholds, fun slot => ih slot (hslots slot)⟩

section Unique

variable {blobs : Blobs} (hfree : prim.CollisionFree {held | held ∈ blobs})

include hfree

theorem Reads.ne_zero {children : Slot → HamtTrie} {slots : Slot → Option Hash}
    (hslots : ∀ slot, prim.Reads blobs (children slot) (slots slot)) :
    ∀ others, HamtNode.intermediate slots = .intermediate others →
      ∀ slot, others slot ≠ some Hash.zero := by
  rintro others heq slot
  cases heq
  exact (Naming.readback prim).ne_zero hfree (hslots slot)

/-- A hash is that of at most one node. -/
theorem HoldsNode.unique {hash : Option Hash} {first second : HamtNode}
    (hfirst : prim.HoldsNode blobs hash first) (hsecond : prim.HoldsNode blobs hash second)
    (hslots : ∀ slots, first = .intermediate slots → ∀ slot, slots slot ≠ some Hash.zero)
    (hothers : ∀ slots, second = .intermediate slots → ∀ slot, slots slot ≠ some Hash.zero) :
    first = second := by
  cases hash with
  | none =>
      obtain ⟨bytes, -, hnone, -⟩ := hfirst
      cases hnone
  | some hash =>
      obtain ⟨bytes, hget, hdecode⟩ := hfirst.decode hfree hslots
      obtain ⟨others, hgetOther, hdecodeOther⟩ := hsecond.decode hfree hothers
      obtain rfl := Option.some.inj (hget.symm.trans hgetOther)
      exact Except.ok.inj (hdecode.symm.trans hdecodeOther)

/-- A root reads as at most one trie. -/
theorem Reads.unique {first second : HamtTrie} {hash : Option Hash}
    (hfirst : prim.Reads blobs first hash) (hsecond : prim.Reads blobs second hash) :
    first = second := by
  induction first generalizing second hash with
  | empty =>
      obtain rfl : hash = none := hfirst
      exact ((Naming.readback prim).eq_empty hsecond).symm
  | leaf entries =>
      cases second with
      | empty =>
          obtain rfl : hash = none := hsecond
          obtain ⟨bytes, -, hnone, -⟩ := hfirst
          cases hnone
      | leaf others =>
          have hsame := HoldsNode.unique hfree hfirst hsecond (fun _ heq => by cases heq)
            fun _ heq => by cases heq
          cases hsame
          rfl
      | node children =>
          obtain ⟨slots, hholds, hslots⟩ := hsecond
          cases HoldsNode.unique hfree hfirst hholds (fun _ heq => by cases heq)
            (Reads.ne_zero hfree hslots)
  | node children ih =>
      obtain ⟨slots, hholds, hslots⟩ := hfirst
      cases second with
      | empty =>
          obtain rfl : hash = none := hsecond
          obtain ⟨bytes, -, hnone, -⟩ := hholds
          cases hnone
      | leaf others =>
          cases HoldsNode.unique hfree hholds hsecond (Reads.ne_zero hfree hslots)
            fun _ heq => by cases heq
      | node grandchildren =>
          obtain ⟨others, hotherHolds, hotherSlots⟩ := hsecond
          have hsame := HoldsNode.unique hfree hholds hotherHolds (Reads.ne_zero hfree hslots)
            (Reads.ne_zero hfree hotherSlots)
          cases hsame
          exact congrArg Trie.node (funext fun slot => ih slot (hslots slot) (hotherSlots slot))

/-- A root represents at most one trie. -/
theorem Represents.unique {first second : HamtTrie} {root : Option Hash}
    (hfirst : prim.Represents blobs root first) (hsecond : prim.Represents blobs root second) :
    first = second :=
  Reads.unique hfree ((Naming.canonical prim).reads ⟨hfirst.hash, hfirst.stored⟩)
    ((Naming.canonical prim).reads ⟨hsecond.hash, hsecond.stored⟩)

end Unique

/-! ## The height of a tree -/

/-- The number of nodes on the longest path. -/
def height : HamtTrie → Nat
  | .empty => 0
  | .leaf _ => 1
  | .node children => (Finset.univ.sup fun slot => height (children slot)) + 1

/-- A tree of some height leads to as many different hashes. -/
theorem Reads.exists_hashes {blobs : Blobs} (hfree : prim.CollisionFree {held | held ∈ blobs})
    {trie : HamtTrie} {hash : Option Hash} (hreads : prim.Reads blobs trie hash) :
    ∃ hashes : Finset Hash, hashes.card = height trie ∧ ∀ reached ∈ hashes,
      ∃ below, prim.Reads blobs below (some reached) ∧ height below ≤ height trie := by
  induction trie generalizing hash with
  | empty => exact ⟨∅, rfl, by simp⟩
  | leaf entries =>
      obtain ⟨bytes, hheld, rfl, hnode⟩ := hreads
      refine ⟨{prim.blake3 bytes}, rfl, fun reached hreached => ?_⟩
      rw [Finset.mem_singleton.mp hreached]
      exact ⟨.leaf entries, ⟨bytes, hheld, rfl, hnode⟩, le_rfl⟩
  | node children ih =>
      obtain ⟨slots, ⟨bytes, hheld, rfl, hnode⟩, hslots⟩ := hreads
      obtain ⟨slot, -, hslot⟩ := Finset.exists_mem_eq_sup (Finset.univ : Finset Slot)
        Finset.univ_nonempty fun slot => height (children slot)
      have hheight : height (.node children) = height (children slot) + 1 :=
        congrArg (· + 1) hslot
      obtain ⟨hashes, hcard, hbelow⟩ := ih slot (hslots slot)
      have hself : prim.Reads blobs (.node children) (some (prim.blake3 bytes)) :=
        ⟨slots, ⟨bytes, hheld, rfl, hnode⟩, hslots⟩
      have hfresh : prim.blake3 bytes ∉ hashes := by
        intro hmem
        obtain ⟨below, hreads, hle⟩ := hbelow _ hmem
        obtain rfl := Reads.unique hfree hreads hself
        omega
      refine ⟨insert (prim.blake3 bytes) hashes, ?_, fun reached hreached => ?_⟩
      · rw [Finset.card_insert_of_notMem hfresh, hcard, hheight]
      · rcases Finset.mem_insert.mp hreached with rfl | hmem
        · exact ⟨_, hself, le_rfl⟩
        · obtain ⟨below, hreads, hle⟩ := hbelow reached hmem
          exact ⟨below, hreads, by omega⟩

theorem Reads.height_le {blobs : Blobs} (hfree : prim.CollisionFree {held | held ∈ blobs})
    {trie : HamtTrie} {hash : Option Hash} (hreads : prim.Reads blobs trie hash) :
    height trie ≤ hashCount := by
  obtain ⟨hashes, hcard, -⟩ := hreads.exists_hashes hfree
  rw [← hcard]
  exact card_le_hashCount hashes

/-! ## Listing entries -/

variable (prim) in
/-- Every leaf entry that a root leads to, in the order of the slots. -/
def walkEntries : Nat → Hash → HamtProg (List LeafEntry)
  | 0, _ => .diverge
  | fuel + 1, root => do
      match ← prim.getNode root with
      | .leaf entries => pure entries
      | .intermediate slots =>
          ((List.finRange 256).filterMap slots).foldlM (fun out child => do
            let entries ← walkEntries fuel child
            pure (out ++ entries)) []

/-- The walk lists what the tree holds. -/
theorem walkEntries_valid {faults : Prop} {blobUniverse : Set Bytes}
    (hfree : prim.CollisionFree blobUniverse) {blobs : Blobs}
    (hblobs : prim.CollisionFree {held | held ∈ blobs}) {fuel : Nat} {trie : HamtTrie}
    {root : Hash} (hfuel : height trie ≤ fuel) (hreads : prim.Reads blobs trie (some root)) :
    Valid (prim.storeSetting faults blobUniverse)
      (fun entries after => blobs ⊆ after ∧ ∀ entry, entry ∈ entries ↔ trie.Mem entry)
      (fun _ _ => faults) (prim.walkEntries fuel root) blobs := by
  induction fuel generalizing trie root with
  | zero =>
      cases trie with
      | empty => cases hreads
      | leaf entries => cases hfuel
      | node children => cases hfuel
  | succ fuel ih =>
      rw [walkEntries]
      apply Valid.bind
      cases trie with
      | empty => cases hreads
      | leaf entries =>
          refine Valid.mono ?_ (fun _ _ h => h)
            (readHeld_valid hfree hreads fun _ _ heq => by cases heq)
          rintro node after ⟨hgrow, rfl⟩
          exact ⟨hgrow, fun entry => Iff.rfl⟩
      | node children =>
          obtain ⟨slots, hholds, hslots⟩ := hreads
          refine Valid.mono ?_ (fun _ _ h => h)
            (readHeld_valid hfree hholds fun hsmall => Reads.ne_zero hsmall hslots)
          rintro node after ⟨hgrow, rfl⟩
          -- Every child so far has given what the tries of its hash hold.
          let I : List Hash → List LeafEntry → Blobs → Prop := fun rest out middle =>
            blobs ⊆ middle ∧ ∃ done, (List.finRange 256).filterMap slots = done ++ rest ∧
              ∀ entry, entry ∈ out ↔ ∃ child ∈ done, ∃ slot, slots slot = some child ∧
                (children slot).Mem entry
          have hinit : I ((List.finRange 256).filterMap slots) [] after :=
            ⟨hgrow, [], rfl, by simp⟩
          refine Valid.mono ?_ (fun _ _ h => h) (Valid.foldlM I ?_ hinit)
          · rintro out last ⟨hlast, done, hdone, hout⟩
            refine ⟨hlast, fun entry => ?_⟩
            rw [hout]
            constructor
            · rintro ⟨child, -, slot, -, hmem⟩
              exact ⟨slot, hmem⟩
            · rintro ⟨slot, hmem⟩
              cases hslot : slots slot with
              | none =>
                  have hempty := hslots slot
                  rw [hslot] at hempty
                  rw [(Naming.readback prim).eq_empty hempty] at hmem
                  exact hmem.elim
              | some child =>
                  refine ⟨child, ?_, slot, hslot, hmem⟩
                  rw [← List.append_nil done, ← hdone]
                  exact List.mem_filterMap.mpr ⟨slot, List.mem_finRange slot, hslot⟩
          · rintro child rest out middle ⟨hmiddle, done, hdone, hout⟩
            obtain ⟨slot, -, hslot⟩ : ∃ slot ∈ List.finRange 256, slots slot = some child := by
              rw [← List.mem_filterMap, hdone]
              exact List.mem_append_right _ List.mem_cons_self
            have hchild : prim.Reads blobs (children slot) (some child) := hslot ▸ hslots slot
            have hheight : height (children slot) ≤ fuel := by
              have hle := Finset.le_sup (f := fun slot => height (children slot))
                (Finset.mem_univ slot)
              have hsucc : height (.node children) =
                (Finset.univ.sup fun slot => height (children slot)) + 1 := rfl
              omega
            apply Valid.bind
            have hwalk := Valid.interfere
              (fun _ _ _ hrely hpost => ⟨List.Subset.trans hpost.1 hrely, hpost.2⟩)
              (fun _ _ _ _ hfault => hfault) hmiddle (ih hheight hchild)
            refine Valid.mono ?_ (fun _ _ h => h) hwalk
            rintro entries last ⟨hlast, hentries⟩
            refine ⟨hlast, done ++ [child], by simp [hdone], fun entry => ?_⟩
            rw [List.mem_append, hout, hentries]
            constructor
            · rintro (⟨other, hother, hmem⟩ | hmem)
              · exact ⟨other, List.mem_append_left _ hother, hmem⟩
              · exact ⟨child, by simp, slot, hslot, hmem⟩
            · rintro ⟨other, hother, otherSlot, hotherSlot, hmem⟩
              rcases List.mem_append.mp hother with hold | hnew
              · exact Or.inl ⟨other, hold, otherSlot, hotherSlot, hmem⟩
              · obtain rfl := List.mem_singleton.mp hnew
                have hsame : prim.Reads blobs (children otherSlot) (some other) :=
                  hotherSlot ▸ hslots otherSlot
                rw [Reads.unique hblobs hsame hchild] at hmem
                exact Or.inr hmem

end Primitives

end Registry

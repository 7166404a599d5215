import Mathlib.Data.Fintype.BigOperators
import Registry.Core.Hamt

/-! # Walks over a partition's tree

Collecting the hashes that a root leads to, through a set that is shared with
other walks: a hash that is already in it is not looked into again. Every call
that reads a node adds a hash, so the walk ends after at most as many calls as
there are hashes.
-/

namespace Registry

open Effect

/-- The number of different hashes. -/
def hashCount : Nat := 256 ^ 32

theorem card_le_hashCount (hashes : Finset Hash) : hashes.card ≤ hashCount := by
  let digits : Hash → Fin 32 → Fin 256 := fun hash place => (hash.bytes[place]).toFin
  have hinjective : Function.Injective digits := by
    rintro ⟨first⟩ ⟨second⟩ heq
    congr 1
    ext place hplace
    exact congrArg Fin.val (congrFun heq ⟨place, hplace⟩)
  have hcard : hashes.card ≤ Fintype.card (Fin 32 → Fin 256) := by
    rw [← Finset.card_image_of_injective hashes hinjective]
    exact Finset.card_le_univ _
  simpa [hashCount] using hcard

/-- The hashes that a node names as its children, in slot order. -/
def HamtNode.children : HamtNode → List Hash
  | .leaf _ => []
  | .intermediate slots => (List.finRange 256).filterMap slots

/-- The hashes of the values that a node lists. -/
def HamtNode.values : HamtNode → List Hash
  | .leaf entries => entries.map LeafEntry.hash
  | .intermediate _ => []

/-- What a walk has collected, even if it has failed since. -/
abbrev Collected (ε : Type) := Finset Hash × Except ε Unit

/-- Go on with the next item unless the walk has failed. -/
def Collected.andThen {ε : Type} (state : Collected ε)
    (next : Finset Hash → Prog storeSig Empty (Collected ε)) : Prog storeSig Empty (Collected ε) :=
  match state with
  | (out, .error error) => pure (out, .error error)
  | (out, .ok ()) => next out

namespace Primitives

variable (prim : Primitives)

def collectReachable : Nat → Hash → Finset Hash → Prog storeSig Empty (Collected HamtError)
  | 0, _, _ => .diverge
  | fuel + 1, root, out =>
      if root ∈ out then pure (out, .ok ())
      else do
        match ← (prim.getNode root).attempt with
        | .error error => pure (insert root out, .error error)
        | .ok (.leaf entries) =>
            pure (insert root out ∪ (entries.map LeafEntry.hash).toFinset, .ok ())
        | .ok (.intermediate slots) =>
            ((List.finRange 256).filterMap slots).foldlM
              (fun state child => Collected.andThen state (collectReachable fuel child))
              (insert root out, .ok ())

/-- The node that a store holds under a hash. -/
def nodeAt (blobs : Blobs) (hash : Hash) : Option HamtNode := do
  let bytes ← prim.blobAt blobs hash
  (prim.decode bytes hash).toOption

/-- The hashes of nodes that a root leads to, through nodes that the store holds. -/
inductive ReachesNode (blobs : Blobs) (root : Hash) : Hash → Prop
  | root : ReachesNode blobs root root
  | child {hash child : Hash} {node : HamtNode} (parent : ReachesNode blobs root hash)
      (held : prim.nodeAt blobs hash = some node) (named : child ∈ node.children) :
      ReachesNode blobs root child

/-- The hashes of values in the leaves among them. -/
def ReachesValue (blobs : Blobs) (root value : Hash) : Prop :=
  ∃ hash node, prim.ReachesNode blobs root hash ∧ prim.nodeAt blobs hash = some node ∧
    value ∈ node.values

/-- Everything that a node names is in the set. -/
def Expanded (blobs : Blobs) (live : Finset Hash) (hash : Hash) : Prop :=
  ∀ node, prim.nodeAt blobs hash = some node →
    (∀ child ∈ node.children, child ∈ live) ∧ ∀ value ∈ node.values, value ∈ live

/-- What a walk from a root adds to a set: hashes that the root leads to, the root
among them, and with each node all that it names. -/
structure Collects (blobs : Blobs) (root : Hash) (before after : Finset Hash) : Prop where
  grows : before ⊆ after
  has_root : root ∈ after
  sound : ∀ hash ∈ after, hash ∉ before →
    (prim.ReachesNode blobs root hash ∧ prim.Expanded blobs after hash) ∨
      prim.ReachesValue blobs root hash

/-- A store that is not written to, in which some hashes are read without a fault. -/
def walkSetting (blobs : Blobs) (readable : Set Hash) : Setting storeSig Blobs where
  sem
    | .put _, _, _, _ => False
    | .get hash, before, response, after => after = before ∧
        (hash ∈ readable → response = .ok (prim.blobAt before hash))
  rely before after := after = before
  inv before := before = blobs
  guar _ _ := True
  rely_refl _ := rfl
  rely_trans hfirst hsecond := hsecond.trans hfirst

variable {prim} {blobs : Blobs} {readable : Set Hash}

theorem Expanded.mono {live more : Finset Hash} {hash : Hash} (hsubset : live ⊆ more)
    (hexpanded : prim.Expanded blobs live hash) : prim.Expanded blobs more hash := by
  intro node hnode
  obtain ⟨hchildren, hvalues⟩ := hexpanded node hnode
  exact ⟨fun child hchild => hsubset (hchildren child hchild),
    fun value hvalue => hsubset (hvalues value hvalue)⟩

theorem ReachesNode.of_child {root child hash : Hash} {node : HamtNode}
    (hnode : prim.nodeAt blobs root = some node) (hchild : child ∈ node.children)
    (hreaches : prim.ReachesNode blobs child hash) : prim.ReachesNode blobs root hash := by
  induction hreaches with
  | root => exact .child .root hnode hchild
  | child _ held named ih => exact .child ih held named

theorem ReachesValue.of_child {root child value : Hash} {node : HamtNode}
    (hnode : prim.nodeAt blobs root = some node) (hchild : child ∈ node.children)
    (hreaches : prim.ReachesValue blobs child value) : prim.ReachesValue blobs root value := by
  obtain ⟨hash, leaf, hhash, hleaf, hvalue⟩ := hreaches
  exact ⟨hash, leaf, hhash.of_child hnode hchild, hleaf, hvalue⟩

theorem getNode_walk_valid {hash : Hash} {node : HamtNode} (hreadable : hash ∈ readable)
    (hnode : prim.nodeAt blobs hash = some node) :
    Valid (prim.walkSetting blobs readable) (fun read after => after = blobs ∧ read = node)
      (fun _ _ => False) (prim.getNode hash) blobs := by
  rintro before rfl hinv response after ⟨rfl, hanswer⟩
  refine ⟨hinv, trivial, ?_⟩
  obtain ⟨bytes, hbytes, hdecode⟩ := Option.bind_eq_some_iff.mp hnode
  rw [hanswer hreadable, hbytes]
  have hok : prim.decode bytes hash = .ok node := by
    cases hresult : prim.decode bytes hash with
    | error error => rw [hresult] at hdecode; cases hdecode
    | ok decoded =>
        rw [hresult] at hdecode
        rw [Option.some.inj hdecode]
  dsimp only
  rw [hok]
  exact ⟨rfl, rfl⟩

/-- A walk through nodes that are all read collects everything they name, except
below hashes that were in the set before. -/
theorem collectReachable_valid
    {fuel : Nat} {root : Hash} {out : Finset Hash} (hfuel : hashCount < fuel + out.card)
    (hnodes : ∀ hash, prim.ReachesNode blobs root hash →
      hash ∈ readable ∧ (prim.nodeAt blobs hash).isSome) :
    Valid (prim.walkSetting blobs readable)
      (fun result after => after = blobs ∧ result.2 = .ok () ∧
        prim.Collects blobs root out result.1)
      (fun _ _ => False) (prim.collectReachable fuel root out) blobs := by
  induction fuel generalizing root out with
  | zero =>
      have hcard := card_le_hashCount out
      omega
  | succ fuel ih =>
      rw [collectReachable]
      split
      next hmem =>
        exact ⟨rfl, rfl, Finset.Subset.refl _, hmem, fun hash hhash hnew => absurd hhash hnew⟩
      next hfresh =>
        obtain ⟨hreadable, hsome⟩ := hnodes root .root
        obtain ⟨node, hnode⟩ := Option.isSome_iff_exists.mp hsome
        apply Valid.bind
        apply Valid.attempt
        refine Valid.mono ?_ (fun _ _ h => h.elim) (getNode_walk_valid hreadable hnode)
        rintro read after ⟨rfl, rfl⟩
        cases read with
        | leaf entries =>
            refine ⟨rfl, rfl, ?_, ?_, fun hash hhash hnew => ?_⟩
            · exact (Finset.subset_insert _ _).trans Finset.subset_union_left
            · exact Finset.mem_union_left _ (Finset.mem_insert_self _ _)
            · rcases Finset.mem_union.mp hhash with hold | hvalue
              · obtain rfl := (Finset.mem_insert.mp hold).resolve_right hnew
                refine Or.inl ⟨.root, fun other hother => ?_⟩
                obtain rfl := Option.some.inj (hnode.symm.trans hother)
                refine ⟨fun child hchild => absurd hchild List.not_mem_nil, fun value hvalue => ?_⟩
                exact Finset.mem_union_right _ (List.mem_toFinset.mpr hvalue)
              · exact Or.inr ⟨root, _, .root, hnode, List.mem_toFinset.mp hvalue⟩
        | intermediate slots =>
            -- The children walked so far are in the set, and what was added below them
            -- is all that they name.
            let I : List Hash → Collected HamtError → Blobs → Prop := fun rest state now =>
              now = after ∧ state.2 = .ok () ∧ insert root out ⊆ state.1 ∧
                (∀ child ∈ (HamtNode.intermediate slots).children, child ∈ rest ∨ child ∈ state.1) ∧
                (∀ child ∈ rest, child ∈ (HamtNode.intermediate slots).children) ∧
                ∀ hash ∈ state.1, hash ∉ insert root out →
                  (prim.ReachesNode after root hash ∧ prim.Expanded after state.1 hash) ∨
                    prim.ReachesValue after root hash
            have hinit : I ((List.finRange 256).filterMap slots) (insert root out, .ok ()) after :=
              ⟨rfl, rfl, Finset.Subset.refl _, fun child hchild => Or.inl hchild,
                fun child hchild => hchild, fun hash hhash hnew => absurd hhash hnew⟩
            refine Valid.mono ?_ (fun _ _ h => h) (Valid.foldlM I ?_ hinit)
            · rintro ⟨collected, result⟩ last ⟨rfl, hok, hgrows, hchildren, -, hsound⟩
              refine ⟨rfl, hok, (Finset.subset_insert _ _).trans hgrows,
                hgrows (Finset.mem_insert_self _ _), fun hash hhash hnew => ?_⟩
              by_cases hroot : hash = root
              · subst hroot
                refine Or.inl ⟨.root, fun other hother => ?_⟩
                obtain rfl := Option.some.inj (hnode.symm.trans hother)
                refine ⟨fun child hchild => ?_, fun value hvalue => absurd hvalue List.not_mem_nil⟩
                exact (hchildren child hchild).resolve_left List.not_mem_nil
              · refine hsound hash hhash fun hmem => ?_
                exact (Finset.mem_insert.mp hmem).elim hroot hnew
            · rintro child rest ⟨collected, result⟩ now ⟨rfl, hok, hgrows, hchildren, hrest, hsound⟩
              obtain rfl : result = .ok () := hok
              have hchild := hrest child List.mem_cons_self
              have hcard : out.card < collected.card := by
                rw [Nat.lt_iff_add_one_le, ← Finset.card_insert_of_notMem hfresh]
                exact Finset.card_le_card hgrows
              have hbelow := ih (by omega : hashCount < fuel + collected.card)
                fun hash hreaches => hnodes hash (hreaches.of_child hnode hchild)
              refine Valid.mono ?_ (fun _ _ h => h) hbelow
              rintro ⟨grown, answer⟩ last ⟨rfl, hanswer, hcollects⟩
              refine ⟨rfl, hanswer, hgrows.trans hcollects.grows, fun other hother => ?_,
                fun other hother => hrest other (List.mem_cons_of_mem _ hother),
                fun hash hhash hnew => ?_⟩
              · rcases hchildren other hother with hleft | hdone
                · rcases List.mem_cons.mp hleft with rfl | hlater
                  · exact Or.inr hcollects.has_root
                  · exact Or.inl hlater
                · exact Or.inr (hcollects.grows hdone)
              · by_cases hold : hash ∈ collected
                · refine (hsound hash hold hnew).imp (fun hreached => ?_) id
                  exact ⟨hreached.1, hreached.2.mono hcollects.grows⟩
                · refine (hcollects.sound hash hhash hold).imp (fun hreached => ?_) fun hvalue => ?_
                  · exact ⟨hreached.1.of_child hnode hchild, hreached.2⟩
                  · exact hvalue.of_child hnode hchild

end Primitives

end Registry

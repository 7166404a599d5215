import Registry.Core.FirstWrite
import Registry.Daemon.Publisher

/-! # Reading and extending the trees of a partition

What the publisher learns from the roots it reads and from the batches it
inserts, in any setting where the other tasks leave those roots alone.
-/

namespace Registry

open Effect

/-- The operations that change no root and no record. -/
def TreeOp : DaemonOp → Prop
  | .store _ => True
  | .doc (.getOne _) => True
  | .index (.getLocalRoot _) => True
  | _ => False

theorem TreeOp.keepsTables {op : DaemonOp} (hop : TreeOp op) : Primitives.KeepsTables op := by
  match op with
  | .store _ => trivial
  | .doc (.getOne _) => trivial
  | .index (.getLocalRoot _) => trivial

/-- A pointer-document entry that names this root by a stored 32-byte blob. -/
structure NamesRoot (prim : Primitives) (world : World) (name : RootName) (root : Option Hash) :
    Prop where
  entry : world.doc.entry name = root.map fun hash => prim.blake3 hash.bytes.toList
  content : ∀ hash ∈ root, hash.bytes.toList ∈ world.blobs

/-- An entry names one root. -/
theorem NamesRoot.unique {prim : Primitives} {world : World}
    (hfree : prim.CollisionFree {held | held ∈ world.blobs}) {name : RootName}
    {first second : Option Hash} (hfirst : NamesRoot prim world name first)
    (hsecond : NamesRoot prim world name second) : first = second := by
  have hentry := hfirst.entry.symm.trans hsecond.entry
  cases first with
  | none =>
      cases second with
      | none => rfl
      | some hash => cases hentry
  | some hash =>
      cases second with
      | none => cases hentry
      | some other =>
          have hbytes : hash.bytes.toList = other.bytes.toList :=
            hfree.1 (hfirst.content hash rfl) (hsecond.content other rfl) (Option.some.inj hentry)
          obtain ⟨hash⟩ := hash
          obtain ⟨other⟩ := other
          obtain rfl : hash = other := Vector.toList_inj.mp hbytes
          rfl

@[simp] theorem hashOfBytes_toList (hash : Hash) (hlength : hash.bytes.toList.length = 32) :
    hashOfBytes hash.bytes.toList hlength = hash := by
  obtain ⟨⟨array, hsize⟩⟩ := hash
  simp [hashOfBytes]

section

variable {prim : Primitives} {faults : Faults} {blobUniverse : Set Bytes}
  {S : Setting daemonSig World}

variable (hfree : prim.CollisionFree blobUniverse)
  (hsem : ∀ op before response after, S.sem op before response after →
    prim.DaemonStep faults op before response after)
  (hinv : ∀ world, S.inv world → ∀ blob ∈ world.blobs, blob ∈ blobUniverse)

include hfree hsem hinv

/-- A root that reads as present is the root the entry names; an unreadable one
is an error. -/
theorem getNamedRoot_valid {name : RootName} {root : Option Hash} {assertion : World → Prop}
    (hkept : Kept S TreeOp assertion)
    (hnames : ∀ world, assertion world → NamesRoot prim world name root)
    {world : World} (hworld : assertion world) :
    Valid S (fun answer after => assertion after ∧ answer = root)
      (fun _ after => assertion after ∧ (faults.store ∨ faults.doc)) (getNamedRoot name) world := by
  intro before hbefore hinvBefore response after hstep
  obtain ⟨hafter, hguar, hassertion⟩ := hkept.call _ before response after trivial hinvBefore
    (hkept.rely world before hbefore hworld) hstep
  refine ⟨hafter, hguar, ?_⟩
  obtain ⟨rfl, rfl | ⟨hfault, message, rfl⟩⟩ := hsem _ _ _ _ hstep
  · have hroot := hnames after hassertion
    cases root with
    | none =>
        rw [hroot.entry]
        exact ⟨hassertion, rfl⟩
    | some hash =>
        rw [hroot.entry]
        intro middle hmiddle hinvMiddle read last hread
        have hassertionMiddle := hkept.rely after middle hmiddle hassertion
        obtain ⟨hlast, hguarLast, hassertionLast⟩ := hkept.call _ middle read last trivial
          hinvMiddle hassertionMiddle hread
        refine ⟨hlast, hguarLast, ?_⟩
        have hheld : prim.blobAt middle.blobs (prim.blake3 hash.bytes.toList) =
            some hash.bytes.toList :=
          prim.blobAt_blake3 (hfree.mono (hinv middle hinvMiddle))
            ((hnames middle hassertionMiddle).content hash rfl)
        -- The content is held, so only a fault of the store answers anything else.
        obtain ⟨blobs, ⟨-, rfl | ⟨hfault, rfl | ⟨⟨message⟩, rfl⟩⟩⟩, -⟩ := hsem _ _ _ _ hread
        · rw [hheld]
          have hlength : hash.bytes.toList.length = 32 := by simp
          dsimp only
          rw [dif_pos hlength, hashOfBytes_toList]
          exact ⟨hassertionLast, rfl⟩
        · exact ⟨hassertionLast, Or.inl hfault⟩
        · exact ⟨hassertionLast, Or.inl hfault⟩
  · exact ⟨hassertion, Or.inr hfault⟩

/-- The root a partition is extended from: the local one, or else the one that
the pointer document names. -/
theorem currentRoot_valid {partitionId : Nat} {localRoot docRoot : Option Hash}
    {assertion : World → Prop} (hkept : Kept S TreeOp assertion)
    (hlocal : ∀ world, assertion world → world.index.localRoots[partitionId]? = localRoot)
    (hdoc : localRoot = none → ∀ world, assertion world →
      NamesRoot prim world (.partition partitionId) docRoot)
    {world : World} (hworld : assertion world) :
    Valid S (fun answer after => assertion after ∧ answer = localRoot.or docRoot)
      (fun _ after => assertion after ∧ (faults.store ∨ faults.index ∨ faults.doc))
      (currentRoot partitionId) world := by
  intro before hbefore hinvBefore response after hstep
  obtain ⟨hafter, hguar, hassertion⟩ := hkept.call _ before response after trivial hinvBefore
    (hkept.rely world before hbefore hworld) hstep
  refine ⟨hafter, hguar, ?_⟩
  cases response with
  | error message =>
      refine ⟨hassertion, Or.inr (Or.inl ?_)⟩
      rcases hsem _ _ _ _ hstep with ⟨hanswer, -⟩ | ⟨hfault, -, -⟩
      · cases hanswer
      · exact hfault
  | ok known =>
      have hknown : known = localRoot := by
        rcases hsem _ _ _ _ hstep with ⟨hanswer, -⟩ | ⟨-, ⟨message, hanswer⟩, -⟩
        · rw [Except.ok.inj hanswer]
          exact hlocal before (hkept.rely world before hbefore hworld)
        · cases hanswer
      subst hknown
      cases known with
      | some root => exact ⟨hassertion, rfl⟩
      | none =>
          refine Valid.mono (fun _ _ h => h) ?_
            (getNamedRoot_valid hfree hsem hinv hkept (hdoc rfl) hassertion)
          exact fun _ _ ⟨hlater, hfault⟩ => ⟨hlater, hfault.imp_right Or.inr⟩

omit hfree in
/-- A program of the blob store, while nobody touches the roots. -/
theorem onStore_valid {α : Type} {prog : HamtProg α} {post : α → Blobs → Prop}
    {fails : HamtError → Blobs → Prop} {assertion : World → Prop}
    (hkept : Kept S TreeOp assertion)
    (hgrow : ∀ world later, S.rely world later → world.blobs ⊆ later.blobs)
    {world : World} (hworld : assertion world)
    (hprog : Valid (prim.storeSetting faults.store blobUniverse) post fails prog world.blobs) :
    Valid S (fun value after => assertion after ∧ post value after.blobs)
      (fun error after => assertion after ∧ ∃ inner, error = .hamt inner ∧ fails inner after.blobs)
      (onStore prog) world := by
  refine Valid.mono ?_ ?_ (Valid.embed World.blobs assertion hgrow hinv hkept.rely ?_ hworld hprog)
  · rintro value after ⟨hpost, hassertion⟩
    exact ⟨hassertion, hpost⟩
  · rintro error after ⟨hassertion, inner, rfl, hfails⟩
    exact ⟨hassertion, inner, rfl, hfails⟩
  · intro op before response after hinvBefore hassertion hstep
    obtain ⟨hafter, hguar, hkeep⟩ := hkept.call (.store op) before response after trivial
      hinvBefore hassertion hstep
    obtain ⟨blobs, hstore, rfl⟩ := hsem _ _ _ _ hstep
    exact ⟨⟨hstore, hinv _ hafter⟩, hafter, hguar, hkeep⟩

/-- A batch inserted into a tree, while nobody touches the roots. -/
theorem insertBatch_onStore_valid (naming : Primitives.Naming prim) (leafMaxEntries : Nat)
    (entries : List LeafEntry) {root : Option Hash} {trie : HamtTrie} {assertion : World → Prop}
    (hkept : Kept S TreeOp assertion)
    (hgrow : ∀ world later, S.rely world later → world.blobs ⊆ later.blobs)
    {world : World} (hworld : assertion world) (hroot : naming.names world.blobs trie root) :
    Valid S (fun hash after => assertion after ∧ ∃ grown,
        prim.scheme.insertAll leafMaxEntries entries trie = .ok grown ∧
          naming.names after.blobs (Primitives.sealed grown) (some hash))
      (fun error after => assertion after ∧ (faults.store ∨ ∃ key level,
        error = .hamt (.depthExhausted key level) ∧
          prim.scheme.insertAll leafMaxEntries entries trie = .error (key, level)))
      (onStore (prim.insertBatch root entries leafMaxEntries ∅)) world := by
  have hall : Primitives.allowed ∅ entries = entries := by simp [Primitives.allowed]
  have hbatch : Valid (prim.storeSetting faults.store blobUniverse) _ _
      (prim.insertBatch root entries leafMaxEntries ∅) world.blobs :=
    naming.insertBatch_valid hfree leafMaxEntries entries ∅ hroot
  rw [hall] at hbatch
  refine Valid.mono ?_ ?_ (onStore_valid hsem hinv hkept hgrow hworld hbatch)
  · rintro hash after ⟨hassertion, -, hgrown⟩
    exact ⟨hassertion, hgrown⟩
  · rintro error after ⟨hassertion, inner, rfl, hfault | ⟨key, level, rfl, herror⟩⟩
    · exact ⟨hassertion, Or.inl hfault⟩
    · exact ⟨hassertion, Or.inr ⟨key, level, rfl, herror⟩⟩

end

end Registry

import Registry.Core.FirstWrite
import Registry.Trie.Canonical

/-! # Bulk building against incremental inserts

The bulk builder stores the canonical trie of its entries. Folding single
inserts stores the trie that insertion grows, which splits an overfull leaf by
one level only. The two roots agree exactly when insertion has split every
overfull leaf, which depends on the order of the entries.
-/

namespace Registry

open Effect BucketTrie

namespace Primitives

variable {prim : Primitives} {faults : Prop} {blobUniverse : Set Bytes} {blobs : Blobs}

/-- Stored tries with the same root hash are the same. -/
theorem Stored.eq_of_hashOf_eq (hfree : prim.CollisionFree {held | held ∈ blobs})
    {first second : HamtTrie} (hfirst : prim.Stored blobs first)
    (hsecond : prim.Stored blobs second) (hhash : prim.hashOf first = prim.hashOf second) :
    first = second := by
  induction first generalizing second with
  | empty =>
      cases second with
      | empty => rfl
      | leaf entries => cases hhash
      | node children => cases hhash
  | leaf entries =>
      have hroots : prim.nodeOf (.leaf entries) = prim.nodeOf second :=
        nodeOf_eq_of_hashOf_eq hfree hfirst hsecond hhash rfl
      cases second with
      | empty => cases hhash
      | leaf others => cases hroots; rfl
      | node children => cases hroots
  | node children ih =>
      have hroots : prim.nodeOf (.node children) = prim.nodeOf second :=
        nodeOf_eq_of_hashOf_eq hfree hfirst hsecond hhash rfl
      cases second with
      | empty => cases hhash
      | leaf others => cases hroots
      | node others =>
          refine congrArg Trie.node (funext fun slot => ?_)
          exact ih slot (hfirst.2 slot) (hsecond.2 slot)
            (congrFun (HamtNode.intermediate.inj hroots) slot)

/-! ## The bulk builder stores the canonical trie -/

theorem uniqueEntries_eq (seen : List String) (entries : List LeafEntry) :
    prim.uniqueEntries seen entries =
      (prim.scheme.firsts seen entries).map fun entry => (entry, prim.keyDigest entry.key) := by
  induction entries generalizing seen with
  | nil => rfl
  | cons entry rest ih =>
      rw [uniqueEntries, Scheme.firsts]
      by_cases hseen : entry.key ∈ seen
      · rw [if_pos hseen, if_pos (by exact hseen), ih]
      · rw [if_neg hseen, if_neg (by exact hseen), List.map_cons, ih]
        rfl

theorem sealed_ofBucket (entries : List LeafEntry) :
    sealed (.ofBucket entries) = .leaf entries := by
  unfold Trie.ofBucket
  split
  next hnil => rw [hnil]; rfl
  next => rfl

theorem canonical_eq_empty {leafMaxEntries : Nat} {entries : List LeafEntry} {remaining : Nat}
    {path : List Slot} (hgroup : prim.scheme.group entries path = []) :
    prim.scheme.canonical leafMaxEntries entries remaining path = .empty := by
  cases remaining <;> simp [Scheme.canonical, hgroup]

theorem sealed_canonical {leafMaxEntries : Nat} {entries : List LeafEntry} {remaining : Nat}
    {path : List Slot} (hgroup : prim.scheme.group entries path ≠ []) :
    sealed (prim.scheme.canonical leafMaxEntries entries remaining path) =
      prim.scheme.canonical leafMaxEntries entries remaining path := by
  have hsort : prim.scheme.sort (prim.scheme.group entries path) ≠ [] := by
    rw [← List.length_pos_iff, prim.scheme.length_sort]
    exact List.length_pos_iff.mpr hgroup
  have hleaf : (Trie.ofBucket (prim.scheme.sort (prim.scheme.group entries path)) : HamtTrie) =
      .leaf (prim.scheme.sort (prim.scheme.group entries path)) := if_neg hsort
  cases remaining with
  | zero => rw [Scheme.canonical, hleaf]; rfl
  | succ remaining =>
      rw [Scheme.canonical]
      split
      next => rw [hleaf]; rfl
      next => rfl

/-- Building below a path stores the canonical trie there, unless more entries than a
leaf holds share a path of full length. -/
theorem buildSubtree_valid (leafMaxEntries : Nat) (entries : List LeafEntry) {remaining : Nat}
    {path : List Slot} (hlevels : remaining + path.length = maxDepth) :
    Valid (prim.storeSetting faults blobUniverse)
      (fun hash after => blobs ⊆ after ∧
        prim.hashOf (sealed (prim.scheme.canonical leafMaxEntries entries remaining path)) =
          some hash ∧
        prim.Stored after
          (sealed (prim.scheme.canonical leafMaxEntries entries remaining path)) ∧
        ∀ below : List Slot, below.length = remaining →
          (prim.scheme.group entries (below ++ path)).length ≤ leafMaxEntries)
      (fun error _ => faults ∨ ((∃ key level, error = .depthExhausted key level) ∧
        ∃ full : List Slot, full.length = maxDepth ∧
          leafMaxEntries < (prim.scheme.group entries full).length))
      (prim.buildSubtree leafMaxEntries (remaining + 1)
        ((prim.scheme.group entries path).map fun entry => (entry, prim.keyDigest entry.key))
        path.length) blobs := by
  have hentries : ∀ path : List Slot, ((prim.scheme.group entries path).map fun entry =>
      (entry, prim.keyDigest entry.key)).map Prod.fst = prim.scheme.group entries path := by
    intro path
    rw [List.map_map]
    exact List.map_id _
  -- A leaf that fits has no overfull path below it.
  have hleaf : ∀ (path : List Slot) (remaining : Nat) (blobs : Blobs),
      (prim.scheme.group entries path).length ≤ leafMaxEntries →
      Valid (prim.storeSetting faults blobUniverse)
        (fun hash after => blobs ⊆ after ∧
          prim.hashOf (.leaf (sortByKey (prim.scheme.group entries path))) = some hash ∧
          prim.Stored after (.leaf (sortByKey (prim.scheme.group entries path))) ∧
          ∀ below : List Slot, below.length = remaining →
            (prim.scheme.group entries (below ++ path)).length ≤ leafMaxEntries)
        (fun error _ => faults ∨ ((∃ key level, error = .depthExhausted key level) ∧
          ∃ full : List Slot, full.length = maxDepth ∧
            leafMaxEntries < (prim.scheme.group entries full).length))
        (prim.putNode (.leaf (sortByKey (prim.scheme.group entries path)))) blobs := by
    intro path remaining blobs hfits
    refine Valid.mono ?_ (fun _ _ h => h) (leaf_valid _ fun _ _ hfault => Or.inl hfault)
    rintro hash after ⟨hgrow, hhash, hstored⟩
    exact ⟨hgrow, hhash, hstored, fun below _ =>
      (Scheme.length_group_append_le below).trans hfits⟩
  induction remaining generalizing path blobs with
  | zero =>
      rw [buildSubtree, List.length_map, hentries]
      by_cases hfits : (prim.scheme.group entries path).length ≤ leafMaxEntries
      · rw [if_pos hfits, Scheme.canonical, sealed_ofBucket]
        exact hleaf path 0 blobs hfits
      · rw [if_neg hfits]
        obtain ⟨entry, rest, hcons⟩ := List.exists_cons_of_length_pos
          (Nat.lt_of_le_of_lt (Nat.zero_le _) (not_le.mp hfits))
        rw [hcons, List.map_cons, distribute_error (by omega)]
        exact Or.inr ⟨⟨_, _, rfl⟩, path, by omega, not_le.mp hfits⟩
  | succ remaining ih =>
      rw [buildSubtree, List.length_map, hentries]
      by_cases hfits : (prim.scheme.group entries path).length ≤ leafMaxEntries
      · rw [if_pos hfits, Scheme.canonical, if_pos hfits, sealed_ofBucket]
        exact hleaf path (remaining + 1) blobs hfits
      · rw [if_neg hfits, Scheme.canonical, if_neg hfits, distribute_ok (by omega)]
        have hbuckets : ∀ slot, (((prim.scheme.group entries path).map fun entry =>
            (entry, prim.keyDigest entry.key)).filter fun item =>
              (descentByte item.2 path.length).map UInt8.toFin = some slot) =
            (prim.scheme.group entries (slot :: path)).map fun entry =>
              (entry, prim.keyDigest entry.key) := by
          intro slot
          rw [List.filter_map]
          rfl
        simp only [hbuckets]
        apply Valid.bind
        apply Valid.bind
        refine Valid.mono ?_ (fun _ _ h => h) (fillSlots_valid
          (fun slot => prim.scheme.canonical leafMaxEntries entries remaining (slot :: path))
          (fun slot => ∀ below : List Slot, below.length = remaining →
            (prim.scheme.group entries (below ++ slot :: path)).length ≤ leafMaxEntries)
          ?_ ?_)
        · rintro slots after ⟨hgrow, rfl, hslots⟩
          refine Valid.mono ?_ (fun _ _ hfault => Or.inl hfault) (putNode_valid _)
          rintro hash later ⟨hlater, rfl, hheld⟩
          refine ⟨List.Subset.trans hgrow hlater, rfl,
            ⟨hheld, fun slot => (hslots slot).1.mono hlater⟩, fun below hbelow => ?_⟩
          rcases List.eq_nil_or_concat below with rfl | ⟨above, slot, rfl⟩
          · cases hbelow
          · rw [List.concat_append]
            exact (hslots slot).2 above (by simpa using hbelow)
        · intro slot hchild
          simp only [List.map_eq_nil_iff, ite_eq_left_iff, reduceCtorEq, imp_false,
            not_not] at hchild
          refine ⟨canonical_eq_empty hchild, fun below _ => ?_⟩
          have hbelow : (prim.scheme.group entries (below ++ slot :: path)).length ≤
              (prim.scheme.group entries (slot :: path)).length :=
            Scheme.length_group_append_le below
          rw [hchild, List.length_nil] at hbelow
          exact hbelow.trans (Nat.zero_le _)
        · intro slot create hchild before hgrow
          simp only [List.map_eq_nil_iff, Option.ite_none_left_eq_some,
            Option.some.injEq] at hchild
          obtain ⟨hbucket, rfl⟩ := hchild
          have hbelow : remaining + (slot :: path).length = maxDepth := by
            rw [List.length_cons]
            omega
          rw [← sealed_canonical hbucket]
          exact ih hbelow

/-- What the bulk builder stores for some entries. -/
def bulkTrie (prim : Primitives) (leafMaxEntries : Nat) (entries : List LeafEntry) : HamtTrie :=
  sealed (prim.scheme.canonical leafMaxEntries (prim.scheme.firsts [] entries) maxDepth [])

/-- The bulk builder stores the canonical trie of the first occurrences. -/
theorem buildFromEntries_valid (leafMaxEntries : Nat) (entries : List LeafEntry) :
    Valid (prim.storeSetting faults blobUniverse)
      (fun hash after => (prim.hashOf (prim.bulkTrie leafMaxEntries entries) = some hash ∧
          prim.Stored after (prim.bulkTrie leafMaxEntries entries)) ∧
        prim.scheme.Separates leafMaxEntries (prim.scheme.firsts [] entries))
      (fun error _ => faults ∨ ((∃ key level, error = .depthExhausted key level) ∧
        ¬ prim.scheme.Separates leafMaxEntries (prim.scheme.firsts [] entries)))
      (prim.buildFromEntries entries leafMaxEntries) blobs := by
  rw [buildFromEntries, uniqueEntries_eq]
  have hroot : maxDepth + ([] : List Slot).length = maxDepth := rfl
  refine Valid.mono ?_ ?_ (buildSubtree_valid leafMaxEntries (prim.scheme.firsts [] entries) hroot)
  · rintro hash after ⟨-, hhash, hstored, hfits⟩
    refine ⟨⟨hhash, hstored⟩, fun path hpath => ?_⟩
    have hgroup := hfits path hpath
    rwa [List.append_nil] at hgroup
  · rintro error after (hfault | ⟨hexhausted, full, hfull, hlarge⟩)
    · exact Or.inl hfault
    · exact Or.inr ⟨hexhausted,
        fun hseparates => absurd (hseparates full hfull) (not_le.mpr hlarge)⟩

/-! ## Folding single inserts stores the grown trie -/

theorem insertOnes_valid (hfree : prim.CollisionFree blobUniverse) (leafMaxEntries : Nat)
    (entries : List LeafEntry) {root : Option Hash} {trie : HamtTrie}
    (hroot : prim.Represents blobs root trie) :
    Valid (prim.storeSetting faults blobUniverse)
      (fun next after => ∃ grown, prim.scheme.insertAll leafMaxEntries entries trie = .ok grown ∧
        prim.Represents after next grown) (fun _ _ => True)
      (prim.insertCalls leafMaxEntries (entries.map .one) root) blobs := by
  induction entries generalizing root trie blobs with
  | nil => exact ⟨trie, rfl, hroot⟩
  | cons entry rest ih =>
      rw [List.map_cons, insertCalls]
      apply Valid.bind
      refine Valid.mono ?_ (fun _ _ _ => trivial) (insertOne_valid hfree leafMaxEntries entry hroot)
      rintro hash after ⟨-, grown, hinsert, hgrown⟩
      rw [Scheme.insertAll_cons, hinsert]
      exact ih hgrown

/-- A successful fold of single inserts leaves the trie insertion grows from
the first occurrences. -/
theorem represents_of_insertOnes {leafMaxEntries : Nat} {entries : List LeafEntry}
    {root : Option Hash} {final : Blobs}
    (hruns : Prog.Runs (prim.StoreStep faults)
      (prim.insertCalls leafMaxEntries (entries.map .one) none) blobs (.ok root) final)
    (hfree : prim.CollisionFree {held | held ∈ final}) :
    prim.Represents final root (prim.scheme.grown leafMaxEntries
      (prim.scheme.firsts [] entries) maxDepth []) := by
  obtain ⟨trie, hinsert, hroot⟩ := prim.storeSetting_outcome
    (insertOnes_valid hfree leafMaxEntries entries Represents.none) hruns
  have hseen : ∀ key ∈ ([] : List String), ∃ found,
      prim.scheme.find key (.empty : HamtTrie) 0 = some found := by simp
  have hempty : prim.scheme.WellFormed 0 (.empty : HamtTrie) := trivial
  rw [← prim.scheme.insertAll_firsts hempty hseen] at hinsert
  have hgrown := Scheme.insertAll_eq_grown (prim.scheme.firsts_nodup [] entries) hinsert
  exact hgrown ▸ hroot

theorem grown_nil (leafMaxEntries remaining : Nat) :
    prim.scheme.grown leafMaxEntries [] remaining [] = .empty := by
  cases remaining <;> simp [Scheme.grown, Scheme.group, Scheme.splitSize]

theorem grown_eq_canonical_root_iff {leafMaxEntries : Nat} {entries : List LeafEntry} :
    prim.scheme.grown leafMaxEntries entries maxDepth [] =
        prim.scheme.canonical leafMaxEntries entries maxDepth [] ↔
      prim.scheme.SplitsAll leafMaxEntries entries := by
  rw [Scheme.grown_eq_canonical_iff (Nat.add_zero _)]
  simp only [List.append_nil]
  rfl

/-- Folding single inserts over a list gives the root of the bulk builder
exactly when the list is not empty and every path that more of its keys share
than a leaf holds got a key after the split that created its leaf. Of two
orders of distinct keys, when one meets that condition the roots agree exactly
when the other does. -/
theorem insertOnes_eq_buildFromEntries_iff (leafMaxEntries : Nat) (entries : List LeafEntry)
    {foldStart foldFinal bulkStart bulkFinal : Blobs} {root : Option Hash} {bulkRoot : Hash}
    (hfold : Prog.Runs (prim.StoreStep faults)
      (prim.insertCalls leafMaxEntries (entries.map .one) none) foldStart (.ok root) foldFinal)
    (hbulk : Prog.Runs (prim.StoreStep faults) (prim.buildFromEntries entries leafMaxEntries)
      bulkStart (.ok bulkRoot) bulkFinal)
    (hfree : prim.CollisionFree {held | held ∈ foldFinal ++ bulkFinal}) :
    (root = some bulkRoot ↔
      entries ≠ [] ∧ prim.scheme.SplitsAll leafMaxEntries (prim.scheme.firsts [] entries)) ∧
    ∀ (others : List LeafEntry) (otherRoot : Option Hash) (otherStart otherFinal : Blobs),
      (entries.map LeafEntry.key).Nodup → others.Perm entries →
      Prog.Runs (prim.StoreStep faults) (prim.insertCalls leafMaxEntries (others.map .one) none)
        otherStart (.ok otherRoot) otherFinal →
      prim.CollisionFree {held | held ∈ foldFinal ++ otherFinal} →
      prim.scheme.SplitsAll leafMaxEntries entries →
      (root = otherRoot ↔ prim.scheme.SplitsAll leafMaxEntries others) := by
  have hroot := represents_of_insertOnes hfold
    (hfree.mono fun blob hblob => List.mem_append_left _ hblob)
  constructor
  · obtain ⟨⟨hhash, hstored⟩, -⟩ := prim.storeSetting_outcome
      (buildFromEntries_valid leafMaxEntries entries) hbulk
    rw [bulkTrie] at hhash hstored
    rw [← hroot.hash, ← hhash]
    by_cases hnil : entries = []
    · subst hnil
      rw [show prim.scheme.firsts [] [] = [] from rfl, grown_nil, canonical_eq_empty rfl]
      simp [sealed, hashOf]
    · have hgroup : prim.scheme.group (prim.scheme.firsts [] entries) ([] : List Slot) ≠ [] :=
        fun hfirsts => hnil (prim.scheme.firsts_eq_nil_iff.mp hfirsts)
      rw [sealed_canonical hgroup] at hstored ⊢
      rw [← grown_eq_canonical_root_iff]
      refine ⟨fun hequal => ⟨hnil, ?_⟩, fun hequal => by rw [hequal.2]⟩
      exact Stored.eq_of_hashOf_eq hfree (hroot.stored.mono (List.subset_append_left _ _))
        (hstored.mono (List.subset_append_right _ _)) hequal
  · intro others otherRoot otherStart otherFinal hnodup hperm hother hfreeOther hsplits
    have hnodupOther : (others.map LeafEntry.key).Nodup :=
      (hperm.map LeafEntry.key).nodup_iff.mpr hnodup
    have hotherRoot := represents_of_insertOnes hother
      (hfreeOther.mono fun blob hblob => List.mem_append_right _ hblob)
    rw [prim.scheme.firsts_of_nodup hnodup] at hroot
    rw [prim.scheme.firsts_of_nodup hnodupOther] at hotherRoot
    have hcanonical : prim.scheme.grown leafMaxEntries entries maxDepth [] =
        prim.scheme.canonical leafMaxEntries others maxDepth [] := by
      rw [grown_eq_canonical_root_iff.mpr hsplits, Scheme.canonical_perm hnodup hperm]
    rw [← grown_eq_canonical_root_iff, ← hcanonical, ← hroot.hash, ← hotherRoot.hash]
    refine ⟨fun hequal => ?_, fun hequal => by rw [hequal]⟩
    exact (Stored.eq_of_hashOf_eq hfreeOther
      (hroot.stored.mono (List.subset_append_left _ _))
      (hotherRoot.stored.mono (List.subset_append_right _ _)) hequal).symm

end Primitives

/-! ## Two keys that share digest byte 1

With one entry per leaf, the second insert splits the leaf of the first one
into a single overfull leaf, while the bulk builder splits once more. A third key
differs from both in that byte. -/

namespace Sharing

def firstKey : String := "bbqjcb23qflg36kxpdznm57syww3mtbc7ikcshca2noq723n7ld7ewov2"
def secondKey : String := "bbqjcanqluvebklrshr7y5hvbwrazpih7dtnj2lcdvqj2tgrdbctu4ws2"

def thirdKey : String := "bbqjcb23qflg36kxpdznhz7syww3mtbc7ikcshca2noq723n7ld7ewov2"

def first : LeafEntry := { Sample.first with key := firstKey }
def second : LeafEntry := { Sample.second with key := secondKey }
def third : LeafEntry := { Sample.second with key := thirdKey }

def firstText : String :=
  "\x7b\"key\":\"bbqjcb23qflg36kxpdznm57syww3mtbc7ikcshca2noq723n7ld7ewov2\"," ++
  "\"hash\":\"d59b6562d7c9b121bc9760873d787890ef4d429aad33a70b405baa0fa08a1f53\"," ++
  "\"size\":7,\"added_at\":\"2024-05-01T00:00:00Z\"\x7d"

def secondText : String :=
  "\x7b\"key\":\"bbqjcanqluvebklrshr7y5hvbwrazpih7dtnj2lcdvqj2tgrdbctu4ws2\"," ++
  "\"hash\":\"4e956258c272ca82cad635c0a39862b0366c81d5f708e7b8520604022ff03994\"," ++
  "\"size\":7,\"added_at\":\"2024-05-01T00:00:00Z\"\x7d"

def thirdText : String :=
  "\x7b\"key\":\"bbqjcb23qflg36kxpdznhz7syww3mtbc7ikcshca2noq723n7ld7ewov2\"," ++
  "\"hash\":\"4e956258c272ca82cad635c0a39862b0366c81d5f708e7b8520604022ff03994\"," ++
  "\"size\":7,\"added_at\":\"2024-05-01T00:00:00Z\"\x7d"

def firstLeaf : Hash :=
  ⟨bytes32 0xd6972171261280108495111dee56891033cb794790d7a111d32a3909c984f665⟩
def secondLeaf : Hash :=
  ⟨bytes32 0x4e6ece370e294f669489aa63b35488827be5322b6fe330d07e4f4385f21bf4bd⟩
def thirdLeaf : Hash :=
  ⟨bytes32 0x67482ff59be37ebc51cf8b8cc2d360c15c808f99e896dc9b0da731d886f83e88⟩
def overfullLeaf : Hash :=
  ⟨bytes32 0x48c41fd82616239f8c00e91d892e8938828bd355e04025083d87037905ddb3c2⟩
def foldRoot : Hash :=
  ⟨bytes32 0x97e385d0d58d08fac9e8b4b6093a9880031e38b47ca32228a4fd84ace3bada64⟩
def secondLevel : Hash :=
  ⟨bytes32 0xdc4b80f4115fc2f7ff1afefb8015c469ea915285f833206ff2fb140e4694a71c⟩
def bulkRoot : Hash :=
  ⟨bytes32 0x16b239bbd5103377c675f2cd391840cf0363ed382f921a5f8b31cfaafae60e84⟩
def spreadRoot : Hash :=
  ⟨bytes32 0x3911f83e5f861000f007c333ecc08905c29adedfd85e4cd306175ea3b16a5af1⟩

def tables : Tables where
  texts := [(first, firstText), (second, secondText), (third, thirdText)]
  digests :=
    [(firstKey, bytes32 0xc800000095e6e4a58c971168540f69d6483ebccf9f7e51172c40e092896f7de8),
      (secondKey, bytes32 0xc800013949d06033e2c2a6b7d969bac2402b855767f8179feba68cab3fa435ef),
      (thirdKey, bytes32 0x25010fc7164989038da531b8b0687cddf6d5e80da6c9e622c3958003ffec991b)]
  hashes :=
    [(Sample.leafBlob [firstText], firstLeaf), (Sample.leafBlob [secondText], secondLeaf),
      (Sample.leafBlob [thirdText], thirdLeaf),
      (Sample.leafBlob [secondText, firstText], overfullLeaf)]
  texts_valid := by decide +kernel

/-- The first two slots of an intermediate node's blob. The nodes built here
have no other children, so these slots tell them apart. -/
def slotsOf (bytes : Bytes) : Bytes := bytes.take 65

def nodePrefix (firstSlot secondSlot : Hash) : Bytes :=
  1 :: (firstSlot.bytes.toList ++ secondSlot.bytes.toList)

def prim : Primitives where
  __ := tables.primitives
  blake3 bytes :=
    if slotsOf bytes = nodePrefix overfullLeaf Hash.zero then foldRoot
    else if slotsOf bytes = nodePrefix firstLeaf secondLeaf then secondLevel
    else if slotsOf bytes = nodePrefix secondLevel Hash.zero then bulkRoot
    else if slotsOf bytes = nodePrefix firstLeaf thirdLeaf then spreadRoot
    else tables.primitives.blake3 bytes

end Sharing

namespace Primitives

/-- The second insert splits the leaf of the first, and both paths come to that tree. -/
theorem insertOnes_eq_buildFromEntries_sample :
    let fold := (Sharing.prim.insertCalls 1 ([Sharing.first, Sharing.third].map .one) none).run
      Sharing.prim.memoryStore []
    fold.1 = .ok (some Sharing.spreadRoot) ∧
      Sharing.prim.scheme.SplitsAll 1 [Sharing.first, Sharing.third] := by
  intro fold
  let bulk := (Sharing.prim.buildFromEntries [Sharing.first, Sharing.third] 1).run
    Sharing.prim.memoryStore []
  have hruns : (fold.1 = .ok (some Sharing.spreadRoot) ∧ bulk.1 = .ok Sharing.spreadRoot) ∧
      ((bulk.2.map Sharing.prim.blake3).Nodup ∧ Hash.zero ∉ bulk.2.map Sharing.prim.blake3) ∧
      ∀ blob ∈ fold.2, blob ∈ bulk.2 := by decide +kernel
  obtain ⟨⟨hfoldRoot, hbulkRoot⟩, ⟨hnodup, hnonzero⟩, hsame⟩ := hruns
  have hfold : Prog.Runs (Sharing.prim.StoreStep False)
      (Sharing.prim.insertCalls 1 ([Sharing.first, Sharing.third].map .one) none) []
      fold.1 fold.2 :=
    Sharing.prim.memoryStore_runs False _ _
  have hbulk : Prog.Runs (Sharing.prim.StoreStep False)
      (Sharing.prim.buildFromEntries [Sharing.first, Sharing.third] 1) [] bulk.1 bulk.2 :=
    Sharing.prim.memoryStore_runs False _ _
  -- From here on only these facts about the two runs count.
  clear_value fold bulk
  rw [hfoldRoot] at hfold
  rw [hbulkRoot] at hbulk
  have hfree : Sharing.prim.CollisionFree {held | held ∈ fold.2 ++ bulk.2} :=
    (collisionFree_of_repeats hnodup hnonzero hsame).mono
      fun blob hblob => List.mem_append.mpr (List.mem_append.mp hblob).symm
  have hiff := insertOnes_eq_buildFromEntries_iff 1 [Sharing.first, Sharing.third] hfold hbulk
    hfree
  exact ⟨hfoldRoot, (hiff.1.mp rfl).2⟩

/-- Neither path reports an error and no hashes collide, yet the roots differ. -/
theorem insertOnes_ne_buildFromEntries :
    let fold := (Sharing.prim.insertCalls 1 ([Sharing.first, Sharing.second].map .one) none).run
      Sharing.prim.memoryStore []
    let bulk := (Sharing.prim.buildFromEntries [Sharing.first, Sharing.second] 1).run
      Sharing.prim.memoryStore []
    fold.1 = .ok (some Sharing.foldRoot) ∧ bulk.1 = .ok Sharing.bulkRoot ∧
      Sharing.prim.CollisionFree {held | held ∈ fold.2 ++ bulk.2} ∧
      some Sharing.foldRoot ≠ some Sharing.bulkRoot := by
  intro fold bulk
  have hruns : (fold.1 = .ok (some Sharing.foldRoot) ∧ bulk.1 = .ok Sharing.bulkRoot) ∧
      ((fold.2.map Sharing.prim.blake3).Nodup ∧ (bulk.2.map Sharing.prim.blake3).Nodup) ∧
      (∀ left ∈ fold.2, ∀ right ∈ bulk.2,
        Sharing.prim.blake3 left = Sharing.prim.blake3 right → left = right) ∧
      Hash.zero ∉ (fold.2 ++ bulk.2).map Sharing.prim.blake3 := by decide +kernel
  obtain ⟨⟨hfold, hbulk⟩, ⟨hfirst, hsecond⟩, hacross, hnonzero⟩ := hruns
  exact ⟨hfold, hbulk, collisionFree_append hfirst hsecond hacross hnonzero, by decide +kernel⟩

end Primitives

end Registry

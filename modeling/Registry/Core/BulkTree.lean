import Registry.Core.Walkers

/-! # The tree that the bulk builder makes

A bulk build that ends well has stored the canonical trie of the first entries with
each key: it is read back by lookups and by the walk, every place in it is a leaf
exactly where a leaf may hold what lies there, and the order of the list does not
matter. The other ends are a fault of the store and keys that no split separates.
-/

namespace Registry

open Effect BucketTrie

namespace Primitives

variable {prim : Primitives} {faults : Prop} {blobs : Blobs} {leafMaxEntries : Nat}
  {entries : List LeafEntry}

/-! ## The shape of the trie -/

theorem find_bulkTrie (key : String) :
    prim.scheme.find key (prim.bulkTrie leafMaxEntries entries) 0 =
      entries.find? fun entry => entry.key = key := by
  have hwf : prim.scheme.WellFormed 0 (prim.bulkTrie leafMaxEntries entries) :=
    wellFormed_bulkTrie leafMaxEntries entries
  have hmem : ∀ entry, (prim.bulkTrie leafMaxEntries entries).Mem entry ↔
      entry ∈ prim.scheme.firsts [] entries := by
    intro entry
    rw [bulkTrie, mem_sealed, Scheme.mem_canonical (Nat.add_zero _)]
    rfl
  have hfirsts : (prim.scheme.firsts [] entries).find? (fun entry => entry.key = key) =
      entries.find? fun entry => entry.key = key :=
    prim.scheme.find?_firsts entries List.not_mem_nil
  rw [← hfirsts]
  apply Option.ext
  intro entry
  rw [hwf.find_eq_some_iff, hmem]
  exact (prim.scheme.find?_eq_some_iff_of_nodup (prim.scheme.firsts_nodup [] entries)).symm

/-- Every place in a bulk-built trie is a leaf exactly when a leaf may hold what lies
there. -/
theorem bulkTrie_isLeaf_iff
    (hseparates : prim.scheme.Separates leafMaxEntries (prim.scheme.firsts [] entries))
    {path : List Slot} (hsome : (prim.bulkTrie leafMaxEntries entries).descend path ≠ .empty) :
    (∃ bucket, (prim.bulkTrie leafMaxEntries entries).descend path = .leaf bucket) ↔
      ((prim.bulkTrie leafMaxEntries entries).descend path).size ≤ leafMaxEntries := by
  by_cases hgroup : prim.scheme.group (prim.scheme.firsts [] entries) ([] : List Slot) = []
  · have hempty : prim.bulkTrie leafMaxEntries entries = .leaf [] := by
      rw [bulkTrie, canonical_eq_empty hgroup, sealed]
    rw [hempty] at hsome ⊢
    cases path with
    | nil => exact iff_of_true ⟨[], rfl⟩ (Nat.zero_le _)
    | cons slot path => exact absurd rfl hsome
  · rw [bulkTrie, sealed_canonical hgroup] at hsome ⊢
    obtain ⟨rest, hrest, hdescend⟩ := Scheme.descend_canonical hsome
    rw [hdescend] at hsome ⊢
    refine Scheme.canonical_isLeaf_iff hseparates ?_ hsome
    rw [List.append_nil, List.length_reverse]
    exact hrest.symm

theorem bulkTrie_perm {others : List LeafEntry} (hnodup : (entries.map LeafEntry.key).Nodup)
    (hperm : others.Perm entries) :
    prim.bulkTrie leafMaxEntries others = prim.bulkTrie leafMaxEntries entries := by
  have hother : (others.map LeafEntry.key).Nodup := (hperm.map LeafEntry.key).nodup_iff.mpr hnodup
  rw [bulkTrie, bulkTrie, prim.scheme.firsts_of_nodup hnodup, prim.scheme.firsts_of_nodup hother,
    Scheme.canonical_perm hnodup hperm]

theorem separates_perm {others : List LeafEntry} (hnodup : (entries.map LeafEntry.key).Nodup)
    (hperm : others.Perm entries)
    (hseparates : prim.scheme.Separates leafMaxEntries (prim.scheme.firsts [] entries)) :
    prim.scheme.Separates leafMaxEntries (prim.scheme.firsts [] others) := by
  have hother : (others.map LeafEntry.key).Nodup := (hperm.map LeafEntry.key).nodup_iff.mpr hnodup
  rw [prim.scheme.firsts_of_nodup hnodup] at hseparates
  rw [prim.scheme.firsts_of_nodup hother]
  intro path hpath
  rw [(Scheme.group_perm hperm).length_eq]
  exact hseparates path hpath

/-- Keys that a path of full length does not separate share digest bytes 1 to 31. -/
theorem digestsClash_of_not_separates
    (hclash : ¬ prim.scheme.Separates leafMaxEntries (prim.scheme.firsts [] entries)) :
    prim.DigestsClash leafMaxEntries entries := by
  rw [Scheme.Separates] at hclash
  push Not at hclash
  obtain ⟨path, hpath, hlarge⟩ := hclash
  let group := prim.scheme.group (prim.scheme.firsts [] entries) path
  have hgroup : ∀ entry ∈ group, entry ∈ prim.scheme.firsts [] entries ∧
      prim.scheme.OnPath entry path := fun entry hentry => Scheme.mem_group.mp hentry
  refine ⟨group.map LeafEntry.key, by rwa [List.length_map], ?_, ?_, ?_⟩
  · exact (prim.scheme.firsts_nodup [] entries).sublist (Scheme.group_sublist.map _)
  · intro key hkey
    obtain ⟨entry, hentry, rfl⟩ := List.mem_map.mp hkey
    exact ⟨entry, prim.scheme.firsts_subset [] entries (hgroup entry hentry).1, rfl⟩
  · intro first hfirst second hsecond
    obtain ⟨left, hleft, rfl⟩ := List.mem_map.mp hfirst
    obtain ⟨right, hright, rfl⟩ := List.mem_map.mp hsecond
    apply keyDigest_eq_of_route
    funext level
    by_cases hlevel : level < maxDepth
    · exact Scheme.route_eq_of_onPath (hgroup left hleft).2 (hgroup right hright).2
        (hpath.symm ▸ hlevel)
    · have hnone : ∀ key : String, prim.scheme.route key level = none := by
        intro key
        have habsent := mt (descentByte_isSome_iff (prim.keyDigest key) level).mp hlevel
        rw [Option.not_isSome_iff_eq_none] at habsent
        simp only [scheme, habsent, Option.map_none]
      rw [hnone, hnone]

/-! ## Reading it back -/

theorem storeStep_partialStep {nodes answered : Set Hash} (op : StoreOp) (blobs : Blobs)
    (response : storeSig.Res op) (after : Blobs)
    (hstep : prim.StoreStep False op blobs response after) :
    prim.PartialStep nodes ∅ answered op blobs response after := by
  cases op with
  | put bytes => exact hstep
  | get hash =>
      obtain ⟨rfl, rfl | ⟨hfault, -⟩⟩ := hstep
      · exact ⟨rfl, fun _ _ => rfl, fun _ h => absurd h (Set.notMem_empty _), fun _ => ⟨_, rfl⟩⟩
      · exact hfault.elim

theorem walkEntries_run (hfree : prim.CollisionFree {held | held ∈ blobs}) {trie : HamtTrie}
    {root : Hash} (hroot : prim.Represents blobs (some root) trie) :
    (prim.walkEntries hashCount root).run prim.memoryStore blobs = (.ok (listed trie), blobs) := by
  have hheight : height trie ≤ hashCount :=
    ((Naming.canonical prim).reads ⟨hroot.hash, hroot.stored⟩).height_le hfree
  have hnodes := hroot.stored.nodesIn hfree hroot.hash
  have hread : prim.AllRead ∅ trie :=
    (hroot.stored.allRead_iff hfree hroot.hash).mpr fun _ _ => Set.notMem_empty _
  have hstep : ∀ op before response after, prim.StoreStep False op before response after →
      prim.PartialStep {hash | prim.ReachesNode blobs root hash} ∅ ∅ op before response after :=
    storeStep_partialStep
  have hruns := (prim.memoryStore_runs False (prim.walkEntries hashCount root) blobs).imp hstep
  have hended := partialSetting_outcome
    (walkEntries_partial_valid hfree hheight hroot.stored hroot.hash hnodes) hruns
  generalize hrun : (prim.walkEntries hashCount root).run prim.memoryStore blobs = ended at hended ⊢
  obtain ⟨outcome, final⟩ := ended
  cases outcome with
  | ok entries =>
      obtain ⟨rfl, -, rfl⟩ := hended
      rfl
  | error error => exact absurd hread hended
  | diverged => exact hended.elim

/-- What a bulk build with a capacity leaves in the store for a list of entries. -/
structure BulkBuilt (prim : Primitives) (leafMaxEntries : Nat) (entries : List LeafEntry)
    (root : Hash) (blobs : Blobs) : Prop where
  lookup : ∀ key, (prim.lookup (some root) key).run prim.memoryStore blobs =
    (.ok (entries.find? fun entry => entry.key = key), blobs)
  walk : ∃ walked, (prim.walkEntries hashCount root).run prim.memoryStore blobs =
      (.ok walked, blobs) ∧
    (walked.map LeafEntry.key).Nodup ∧
    ∀ key, key ∈ walked.map LeafEntry.key ↔ key ∈ entries.map LeafEntry.key
  shape : ∃ trie, prim.Represents blobs (some root) trie ∧
    (∀ path, trie.descend path ≠ .empty →
      ((∃ bucket, trie.descend path = .leaf bucket) ↔ (trie.descend path).size ≤ leafMaxEntries)) ∧
    ∀ path bucket, trie.descend path = .leaf bucket →
      bucket.Pairwise fun first second => first.key < second.key

theorem bulkBuilt_of_represents (hfree : prim.CollisionFree {held | held ∈ blobs}) {root : Hash}
    (hroot : prim.Represents blobs (some root) (prim.bulkTrie leafMaxEntries entries))
    (hseparates : prim.scheme.Separates leafMaxEntries (prim.scheme.firsts [] entries)) :
    prim.BulkBuilt leafMaxEntries entries root blobs where
  lookup key := by rw [lookup_run hfree key hroot, find_bulkTrie]
  walk := by
    refine ⟨_, walkEntries_run hfree hroot, nodup_listed hroot.wellFormed, ?_⟩
    intro key
    -- A key is listed exactly when it resolves.
    have hlisted : key ∈ (listed (prim.bulkTrie leafMaxEntries entries)).map LeafEntry.key ↔
        ∃ entry, prim.scheme.find key (prim.bulkTrie leafMaxEntries entries) 0 = some entry := by
      simp only [List.mem_map, mem_listed, hroot.wellFormed.find_eq_some_iff, scheme_keyOf]
    rw [hlisted, find_bulkTrie, ← Option.isSome_iff_exists, List.find?_isSome, List.mem_map]
    simp only [decide_eq_true_eq]
  shape := by
    refine ⟨_, hroot, fun path hsome => bulkTrie_isLeaf_iff hseparates hsome, ?_⟩
    intro path bucket hleaf
    have hbelow := hroot.wellFormed.descend path
    rw [hleaf] at hbelow
    exact hbelow

/-! ## How a bulk build ends -/

/-- A bulk build stores the canonical tree of its entries, whose root any permutation of
distinct keys gives, or fails on a store fault or on keys that no path separates. -/
theorem buildFromEntries_ends (leafMaxEntries : Nat) (entries : List LeafEntry)
    {outcome : Prog.Outcome HamtError Hash} {final : Blobs}
    (hruns : Prog.Runs (prim.StoreStep faults) (prim.buildFromEntries entries leafMaxEntries) blobs
      outcome final) :
    match outcome with
    | .ok root =>
        (prim.CollisionFree {held | held ∈ final} →
          prim.BulkBuilt leafMaxEntries entries root final) ∧
        ∀ (others : List LeafEntry) (start ended : Blobs) (other : Prog.Outcome HamtError Hash),
          (entries.map LeafEntry.key).Nodup → others.Perm entries →
          Prog.Runs (prim.StoreStep faults) (prim.buildFromEntries others leafMaxEntries) start
            other ended →
          other = .ok root ∨ (faults ∧ ∃ error, other = .error error)
    | .error error =>
        faults ∨ ((∃ key level, error = .depthExhausted key level) ∧
          prim.DigestsClash leafMaxEntries entries)
    | .diverged => False := by
  have hended := prim.storeSetting_outcome (buildFromEntries_valid leafMaxEntries entries) hruns
  cases outcome with
  | diverged => exact hended
  | error error =>
      exact hended.imp_right fun hfull => ⟨hfull.1, digestsClash_of_not_separates hfull.2⟩
  | ok root =>
      obtain ⟨⟨hhash, hstored⟩, hseparates⟩ := hended
      constructor
      · intro hfree
        have hroot : prim.Represents final (some root) (prim.bulkTrie leafMaxEntries entries) :=
          ⟨hhash, hstored, wellFormed_bulkTrie leafMaxEntries entries⟩
        exact bulkBuilt_of_represents hfree hroot hseparates
      · intro others start ended other hnodup hperm hother
        have hagain :=
          prim.storeSetting_outcome (buildFromEntries_valid leafMaxEntries others) hother
        cases other with
        | diverged => exact hagain.elim
        | error error =>
            rcases hagain with hfault | ⟨-, hfull⟩
            · exact Or.inr ⟨hfault, error, rfl⟩
            · exact absurd (separates_perm hnodup hperm hseparates) hfull
        | ok root' =>
            have hsame := hagain.1.1
            rw [bulkTrie_perm hnodup hperm, hhash, Option.some.injEq] at hsame
            exact Or.inl (congrArg Prog.Outcome.ok hsame.symm)

/-- The build of the sharing example. -/
def bulkRun : Prog.Outcome HamtError Hash × Blobs :=
  (Sharing.prim.buildFromEntries [Sharing.first, Sharing.second] 1).run Sharing.prim.memoryStore []

/-- Two keys with the same second digest byte, which the bulk builder separates at the
next one. -/
theorem buildFromEntries_ends_sample :
    bulkRun.1 = .ok Sharing.bulkRoot ∧
      Sharing.prim.BulkBuilt 1 [Sharing.first, Sharing.second] Sharing.bulkRoot bulkRun.2 := by
  have hrun : bulkRun.1 = .ok Sharing.bulkRoot ∧ (bulkRun.2.map Sharing.prim.blake3).Nodup ∧
      Hash.zero ∉ bulkRun.2.map Sharing.prim.blake3 := by decide +kernel
  obtain ⟨houtcome, hnodup, hnonzero⟩ := hrun
  have hruns : Prog.Runs (Sharing.prim.StoreStep False)
      (Sharing.prim.buildFromEntries [Sharing.first, Sharing.second] 1) [] bulkRun.1 bulkRun.2 :=
    Sharing.prim.memoryStore_runs False _ _
  rw [houtcome] at hruns
  have hended := buildFromEntries_ends 1 [Sharing.first, Sharing.second] hruns
  exact ⟨houtcome, hended.1 (collisionFree_of_nodup hnodup hnonzero)⟩

end Primitives

end Registry

import Registry.Core.BulkBuild

/-! # Trees that the engine builds

A tree comes from a bulk build or from inserts, one after another. Whatever built it,
its root stands for a well-formed trie. Inserts with one capacity also keep the trie
filled, and to insert a key again stores nothing new.
-/

namespace Registry

open Effect BucketTrie

namespace Primitives

/-- A call that makes a root. A bulk build does not look at the root before it. -/
inductive TreeCall
  | insert (call : InsertCall) (leafMaxEntries : Nat)
  | build (entries : List LeafEntry) (leafMaxEntries : Nat)

def treeCall (prim : Primitives) (root : Option Hash) : TreeCall → HamtProg Hash
  | .insert call leafMaxEntries => prim.insertCall leafMaxEntries root call
  | .build entries leafMaxEntries => prim.buildFromEntries entries leafMaxEntries

def treeCalls (prim : Primitives) : List TreeCall → Option Hash → HamtProg (Option Hash)
  | [], root => pure root
  | call :: rest, root => do
      let hash ← prim.treeCall root call
      treeCalls prim rest (some hash)

/-- A root that some sequence of calls made, in a store that may have gained blobs
since. -/
def IsTree (prim : Primitives) (faults : Prop) (blobs : Blobs) (root : Option Hash) : Prop :=
  ∃ (calls : List TreeCall) (start built : Blobs),
    Prog.Runs (prim.StoreStep faults) (prim.treeCalls calls none) start (.ok root) built ∧
      built ⊆ blobs

/-- What every insertion with some capacity keeps of a trie. -/
structure KeptByInserts (prim : Primitives) (leafMaxEntries : Nat) (kept : HamtTrie → Prop) :
    Prop where
  insert : ∀ {entry trie grown}, kept trie →
    prim.scheme.insert leafMaxEntries entry trie 0 = .ok grown → kept grown
  sealing : kept .empty → kept (.leaf [])

variable {prim : Primitives} {faults : Prop} {blobUniverse : Set Bytes} {blobs : Blobs}
  {leafMaxEntries : Nat} {kept : HamtTrie → Prop}

theorem KeptByInserts.insertAll (hkept : prim.KeptByInserts leafMaxEntries kept)
    {entries : List LeafEntry} {trie grown : HamtTrie} (htrie : kept trie)
    (hinsert : prim.scheme.insertAll leafMaxEntries entries trie = .ok grown) : kept grown := by
  induction entries generalizing trie with
  | nil =>
      cases hinsert
      exact htrie
  | cons entry rest ih =>
      rw [Scheme.insertAll_cons] at hinsert
      cases hnext : prim.scheme.insert leafMaxEntries entry trie 0 with
      | error error => rw [hnext] at hinsert; cases hinsert
      | ok next =>
          rw [hnext] at hinsert
          exact ih (hkept.insert htrie hnext) hinsert

theorem insertCall_keeps (hfree : prim.CollisionFree blobUniverse)
    (hkept : prim.KeptByInserts leafMaxEntries kept) (call : InsertCall) {root : Option Hash}
    {trie : HamtTrie} (hroot : prim.Represents blobs root trie) (htrie : kept trie) :
    Valid (prim.storeSetting faults blobUniverse)
      (fun hash after => ∃ grown, prim.Represents after (some hash) grown ∧ kept grown)
      (fun _ _ => True) (prim.insertCall leafMaxEntries root call) blobs := by
  cases call with
  | one entry =>
      refine Valid.mono ?_ (fun _ _ _ => trivial) (insertOne_valid hfree leafMaxEntries entry hroot)
      rintro hash after ⟨-, grown, hinsert, hgrown⟩
      exact ⟨grown, hgrown, hkept.insert htrie hinsert⟩
  | batch entries denylist =>
      refine Valid.mono ?_ (fun _ _ _ => trivial)
        (insertBatch_valid hfree leafMaxEntries entries denylist hroot)
      rintro hash after ⟨-, grown, hinsert, hgrown⟩
      have hall := hkept.insertAll htrie hinsert
      refine ⟨sealed grown, hgrown, ?_⟩
      cases grown with
      | empty => exact hkept.sealing hall
      | leaf bucket => exact hall
      | node children => exact hall

theorem insertCalls_keep (hfree : prim.CollisionFree blobUniverse)
    (hkept : prim.KeptByInserts leafMaxEntries kept) (calls : List InsertCall)
    {root : Option Hash} {trie : HamtTrie} (hroot : prim.Represents blobs root trie)
    (htrie : kept trie) :
    Valid (prim.storeSetting faults blobUniverse)
      (fun next after => ∃ grown, prim.Represents after next grown ∧ kept grown)
      (fun _ _ => True) (prim.insertCalls leafMaxEntries calls root) blobs := by
  induction calls generalizing root trie blobs with
  | nil => exact ⟨trie, hroot, htrie⟩
  | cons call rest ih =>
      rw [insertCalls]
      apply Valid.bind
      refine Valid.mono ?_ (fun _ _ h => h) (insertCall_keeps hfree hkept call hroot htrie)
      rintro hash after ⟨grown, hgrown, hnext⟩
      exact ih hgrown hnext

/-! ## The representation invariant -/

/-- What a tree of inserts with one capacity looks like, place by place. -/
structure HamtInvariant (prim : Primitives) (leafMaxEntries : Nat) (trie : HamtTrie) : Prop where
  sorted : ∀ path entries, trie.descend path = .leaf entries →
    entries.Pairwise fun first second => first.key < second.key
  path : ∀ path entry, (trie.descend path).Mem entry →
      ∀ (level : Nat) (hlevel : level < path.length),
    (descentByte (prim.keyDigest entry.key) level).map UInt8.toFin = some path[level]
  nonempty : ∀ path, path ≠ [] → trie.descend path ≠ .leaf []
  depth : ∀ path, trie.descend path ≠ .empty → path.length ≤ maxDepth
  intermediate : ∀ path children, trie.descend path = .node children →
    leafMaxEntries < (trie.descend path).size
  leaf : ∀ path entries, trie.descend path = .leaf entries →
    entries.length ≤ leafMaxEntries + path.length

theorem HamtInvariant.of_filled {trie : HamtTrie} (hwf : prim.scheme.WellFormed 0 trie)
    (hfilled : trie.Filled leafMaxEntries 0) : prim.HamtInvariant leafMaxEntries trie where
  sorted path entries hleaf := by
    have hbelow := hwf.descend path
    rw [hleaf] at hbelow
    exact hbelow
  path path entry hmem level hlevel := by
    have hroute := hwf.route_of_mem hmem hlevel
    rw [Nat.zero_add] at hroute
    exact hroute
  nonempty path hpath hleaf := by
    have hbelow := hfilled.descend path
    rw [hleaf, Nat.zero_add] at hbelow
    exact hbelow.2 (fun hzero => hpath (List.length_eq_zero_iff.mp hzero)) rfl
  depth path hsome := by
    have hlength := hwf.length_le (Nat.zero_le _) hsome
    rwa [Nat.zero_add] at hlength
  intermediate path children hnode := by
    have hbelow := hfilled.descend path
    rw [hnode] at hbelow ⊢
    exact hbelow.1
  leaf path entries hleaf := by
    have hbelow := hfilled.descend path
    rw [hleaf, Nat.zero_add] at hbelow
    exact hbelow.1

theorem filled_keptByInserts (prim : Primitives) (leafMaxEntries : Nat) :
    prim.KeptByInserts leafMaxEntries fun trie => trie.Filled leafMaxEntries 0 where
  insert hfilled hinsert := prim.scheme.filled_insert hfilled hinsert
  sealing _ := ⟨Nat.zero_le _, fun hne => absurd rfl hne⟩

/-- Whatever single and batched inserts with one capacity built a root from nothing, the
root represents a trie that keeps the invariant. -/
theorem hamtInvariant_of_insertCalls (leafMaxEntries : Nat) (calls : List InsertCall)
    {root : Option Hash} {final : Blobs}
    (hruns : Prog.Runs (prim.StoreStep faults) (prim.insertCalls leafMaxEntries calls none)
      blobs (.ok root) final)
    (hfree : prim.CollisionFree {held | held ∈ final}) :
    ∃ trie, prim.Represents final root trie ∧ prim.HamtInvariant leafMaxEntries trie := by
  obtain ⟨trie, hroot, hfilled⟩ := prim.storeSetting_outcome
    (insertCalls_keep hfree (filled_keptByInserts prim leafMaxEntries) calls Represents.none
      trivial) hruns
  exact ⟨trie, hroot, .of_filled hroot.wellFormed hfilled⟩

/-- Two inserts that split a leaf of one entry. -/
theorem hamtInvariant_of_insertCalls_sample :
    ∃ trie, Sharing.prim.Represents
        ((Sharing.prim.insertCalls 1 ([Sharing.first, Sharing.second].map .one) none).run
          Sharing.prim.memoryStore []).2 (some Sharing.foldRoot) trie ∧
      Sharing.prim.HamtInvariant 1 trie := by
  have hruns := Sharing.prim.memoryStore_runs False
    (Sharing.prim.insertCalls 1 ([Sharing.first, Sharing.second].map .one) none) []
  have hrun : let ended := (Sharing.prim.insertCalls 1
        ([Sharing.first, Sharing.second].map .one) none).run Sharing.prim.memoryStore []
      ended.1 = .ok (some Sharing.foldRoot) ∧ (ended.2.map Sharing.prim.blake3).Nodup ∧
        Hash.zero ∉ ended.2.map Sharing.prim.blake3 := by decide +kernel
  obtain ⟨houtcome, hnodup, hnonzero⟩ := hrun
  rw [houtcome] at hruns
  exact hamtInvariant_of_insertCalls 1 _ hruns (collisionFree_of_nodup hnodup hnonzero)

/-! ## Every tree is well formed -/

theorem insertCall_represents (hfree : prim.CollisionFree blobUniverse) (leafMaxEntries : Nat)
    (call : InsertCall) {root : Option Hash} {trie : HamtTrie}
    (hroot : prim.Represents blobs root trie) :
    Valid (prim.storeSetting faults blobUniverse)
      (fun hash after => ∃ grown, prim.Represents after (some hash) grown)
      (fun _ _ => True) (prim.insertCall leafMaxEntries root call) blobs := by
  have hkept : prim.KeptByInserts leafMaxEntries fun _ => True :=
    ⟨fun _ _ => trivial, fun _ => trivial⟩
  refine Valid.mono ?_ (fun _ _ h => h) (insertCall_keeps hfree hkept call hroot trivial)
  rintro hash after ⟨grown, hgrown, -⟩
  exact ⟨grown, hgrown⟩

theorem wellFormed_bulkTrie (leafMaxEntries : Nat) (entries : List LeafEntry) :
    prim.scheme.WellFormed 0 (prim.bulkTrie leafMaxEntries entries) := by
  apply wellFormed_sealed
  have hlevels : maxDepth + ([] : List Slot).length = prim.scheme.levels := Nat.add_zero _
  exact Scheme.wellFormed_canonical (prim.scheme.firsts_nodup [] entries) hlevels

theorem treeCalls_represent (hfree : prim.CollisionFree blobUniverse) (calls : List TreeCall)
    {root : Option Hash} {trie : HamtTrie} (hroot : prim.Represents blobs root trie) :
    Valid (prim.storeSetting faults blobUniverse)
      (fun next after => ∃ grown, prim.Represents after next grown)
      (fun _ _ => True) (prim.treeCalls calls root) blobs := by
  induction calls generalizing root trie blobs with
  | nil => exact ⟨trie, hroot⟩
  | cons call rest ih =>
      rw [treeCalls]
      apply Valid.bind
      cases call with
      | insert call leafMaxEntries =>
          refine Valid.mono ?_ (fun _ _ h => h)
            (insertCall_represents hfree leafMaxEntries call hroot)
          rintro hash after ⟨grown, hgrown⟩
          exact ih hgrown
      | build entries leafMaxEntries =>
          refine Valid.mono ?_ (fun _ _ _ => trivial)
            (buildFromEntries_valid leafMaxEntries entries)
          rintro hash after ⟨⟨hhash, hstored⟩, -⟩
          exact ih ⟨hhash, hstored, wellFormed_bulkTrie leafMaxEntries entries⟩

theorem IsTree.represents {root : Option Hash} (htree : prim.IsTree faults blobs root)
    (hfree : prim.CollisionFree {held | held ∈ blobs}) :
    ∃ trie, prim.Represents blobs root trie := by
  obtain ⟨calls, start, built, hruns, hsubset⟩ := htree
  obtain ⟨trie, hroot⟩ := prim.storeSetting_outcome
    (treeCalls_represent (hfree.mono fun blob hblob => hsubset hblob) calls Represents.none) hruns
  exact ⟨trie, hroot.mono hsubset⟩

/-! ## Inserting a key again -/

/-- A store that always holds the same blobs, possibly several times. -/
def replaySetting (prim : Primitives) (faults : Prop) (blobs : Blobs) : Setting storeSig Blobs where
  sem := prim.StoreStep faults
  rely before after := after = before
  inv held := ∀ blob, blob ∈ held ↔ blob ∈ blobs
  guar _ _ := True
  rely_refl _ := rfl
  rely_trans hfirst hsecond := hsecond.trans hfirst

section Replay

variable {held : Blobs}

theorem getNode_replay_valid (hfree : prim.CollisionFree {held | held ∈ blobs}) {trie : HamtTrie}
    {hash : Hash} (hstored : prim.Stored blobs trie) (hhash : prim.hashOf trie = some hash) :
    Valid (prim.replaySetting faults blobs) (fun node _ => node = prim.nodeOf trie)
      (fun _ _ => faults) (prim.getNode hash) held := by
  rintro before rfl hinv response after ⟨rfl, hresponse⟩
  refine ⟨hinv, trivial, ?_⟩
  rcases hresponse with rfl | ⟨hfault, rfl | ⟨error, rfl⟩⟩
  · have hsame : prim.CollisionFree {blob | blob ∈ after} :=
      hfree.mono fun blob hblob => (hinv blob).mp hblob
    obtain ⟨bytes, hget, hdecode⟩ :=
      (hstored.mono fun blob hblob => (hinv blob).mpr hblob).decode_root hsame hhash
    simp only [hget, hdecode]
    rfl
  · exact hfault
  · exact hfault

/-- Storing a blob that is held changes nothing. -/
theorem putNode_replay_valid {node : HamtNode} (hheld : prim.encode node ∈ blobs) :
    Valid (prim.replaySetting faults blobs) (fun hash _ => hash = prim.blake3 (prim.encode node))
      (fun _ _ => faults) (prim.putNode node) held := by
  rintro before rfl hinv response after hcall
  have hagain : ∀ blob, blob ∈ prim.encode node :: before ↔ blob ∈ blobs := by
    intro blob
    rw [List.mem_cons, hinv]
    exact or_iff_right_of_imp fun heq => heq ▸ hheld
  rcases hcall with ⟨rfl, rfl⟩ | ⟨hfault, ⟨error, rfl⟩, rfl | rfl⟩
  · exact ⟨hagain, trivial, rfl⟩
  · exact ⟨hinv, trivial, hfault⟩
  · exact ⟨hagain, trivial, hfault⟩

/-- An insertion of a key that resolves reads its path and writes every node on it as it
was. -/
theorem insertAt_present_valid (hfree : prim.CollisionFree {held | held ∈ blobs})
    (leafMaxEntries : Nat) {entry found : LeafEntry} {fuel depth : Nat}
    {trie : HamtTrie} {hash : Hash} (hfuel : maxDepth < fuel + depth) (hdepth : depth ≤ maxDepth)
    (hstored : prim.Stored blobs trie) (hhash : prim.hashOf trie = some hash)
    (hfind : prim.scheme.find entry.key trie depth = some found) :
    Valid (prim.replaySetting faults blobs) (fun result _ => result = hash) (fun _ _ => faults)
      (prim.insertAt leafMaxEntries entry fuel (some hash) depth) held := by
  induction fuel generalizing depth trie hash held with
  | zero => omega
  | succ fuel ih =>
      rw [insertAt.eq_def]
      apply Valid.bind
      refine Valid.mono ?_ (fun _ _ h => h) (getNode_replay_valid hfree hstored hhash)
      rintro node after rfl
      cases trie with
      | empty => cases hhash
      | leaf entries =>
          have hpresent : entries.any fun present => present.key = entry.key := by
            have hkey : decide (prim.scheme.keyOf found = entry.key) = true :=
              List.find?_some (p := fun present => prim.scheme.keyOf present = entry.key) hfind
            exact List.any_eq_true.mpr ⟨found, List.mem_of_find?_eq_some hfind, hkey⟩
          simp only [nodeOf, hpresent, if_true]
          rfl
      | node children =>
          cases hbyte : descentByte (prim.keyDigest entry.key) depth with
          | none => simp [Scheme.find, scheme, hbyte] at hfind
          | some byte =>
              have hlevel : depth < maxDepth := by
                rw [← descentByte_isSome_iff (prim.keyDigest entry.key), hbyte]
                rfl
              have hbelow : prim.scheme.find entry.key (children byte.toFin) (depth + 1) =
                  some found := by
                simpa [Scheme.find, scheme, hbyte] using hfind
              simp only [nodeOf]
              cases hchild : prim.hashOf (children byte.toFin) with
              | none =>
                  have hempty := (Naming.canonical prim).eq_empty ⟨hchild, hstored.2 byte.toFin⟩
                  rw [hempty] at hbelow
                  cases hbelow
              | some child =>
                  apply Valid.bind
                  refine Valid.mono ?_ (fun _ _ h => h)
                    (ih (by omega) hlevel (hstored.2 byte.toFin) hchild hbelow)
                  rintro result later rfl
                  rw [← hchild, Function.update_eq_self]
                  refine Valid.mono ?_ (fun _ _ h => h) (putNode_replay_valid hstored.1)
                  rintro hash last rfl
                  exact Option.some.inj hhash

end Replay

/-- Inserting a key that a tree resolves, whatever else the entry says and whatever the
capacity, returns the root of the tree and stores nothing new. -/
theorem insertOne_present (leafMaxEntries : Nat) (entry : LeafEntry) {found : LeafEntry}
    {root : Option Hash} {outcome : Prog.Outcome HamtError Hash} {building : Prop} {final : Blobs}
    (htree : prim.IsTree building blobs root) (hfree : prim.CollisionFree {held | held ∈ blobs})
    (hresolves : (prim.lookup root entry.key).run prim.memoryStore blobs =
      (.ok (some found), blobs))
    (hruns : Prog.Runs (prim.StoreStep faults) (prim.insertOne root entry leafMaxEntries) blobs
      outcome final) :
    (∀ blob ∈ final, blob ∈ blobs) ∧
      match outcome with
      | .ok hash => some hash = root
      | .error _ => faults
      | .diverged => False := by
  obtain ⟨trie, hroot⟩ := htree.represents hfree
  have hfind : prim.scheme.find entry.key trie 0 = some found := by
    rw [lookup_run hfree entry.key hroot] at hresolves
    simpa using hresolves
  have hvalid : Valid (prim.replaySetting faults blobs) (fun hash _ => some hash = root)
      (fun _ _ => faults) (prim.insertOne root entry leafMaxEntries) blobs := by
    cases hhash : root with
    | none =>
        have hempty := (Naming.canonical prim).eq_empty ⟨hroot.hash.trans hhash, hroot.stored⟩
        rw [hempty] at hfind
        cases hfind
    | some hash =>
        refine Valid.mono ?_ (fun _ _ h => h) (insertAt_present_valid hfree leafMaxEntries
          (by omega) (Nat.zero_le _) hroot.stored (hroot.hash.trans hhash) hfind)
        rintro result after rfl
        rfl
  have hsame : ∀ blob, blob ∈ blobs ↔ blob ∈ blobs := fun _ => Iff.rfl
  constructor
  · have hkept := Valid.visits_inv (S := prim.replaySetting faults blobs) (fun _ => True)
      (fun _ _ _ _ _ _ => trivial) (fun _ _ _ _ hstep _ => hstep) hruns.visits hsame hvalid trivial
    exact fun blob hblob => (hkept blob).mp hblob
  · have hmeets := Valid.runs_outcome (S := prim.replaySetting faults blobs) (fun _ => True)
      (fun _ _ _ _ _ _ => trivial) (fun _ _ _ _ hstep _ => hstep) hruns hsame hvalid trivial
    cases outcome with
    | ok hash => exact hmeets
    | error error => exact hmeets
    | diverged => exact hmeets

/-- The first record again, with another size, into a tree that was built at once. -/
theorem insertOne_present_sample :
    let blobs : Blobs := [Sample.leafBlob [Sample.firstText, Sample.secondText]]
    let again : LeafEntry := { Sample.first with size := 0 }
    ∃ final, Prog.Runs (Sample.prim.StoreStep False)
        (Sample.prim.insertOne (some ⟨Sample.bothRoot⟩) again 1) blobs
        (.ok ⟨Sample.bothRoot⟩) final ∧ ∀ blob ∈ final, blob ∈ blobs := by
  intro blobs again
  have hbuilt := Sample.prim.memoryStore_runs False
    (Sample.prim.treeCalls [.build [Sample.first, Sample.second] 2] none) []
  have hbuiltRun : (Sample.prim.treeCalls [.build [Sample.first, Sample.second] 2] none).run
      Sample.prim.memoryStore [] = (.ok (some ⟨Sample.bothRoot⟩), blobs) := by decide +kernel
  rw [hbuiltRun] at hbuilt
  have htree : Sample.prim.IsTree False blobs (some ⟨Sample.bothRoot⟩) :=
    ⟨_, [], blobs, hbuilt, List.Subset.refl _⟩
  have hruns := Sample.prim.memoryStore_runs False
    (Sample.prim.insertOne (some ⟨Sample.bothRoot⟩) again 1) blobs
  have hrun : ((Sample.prim.insertOne (some ⟨Sample.bothRoot⟩) again 1).run
      Sample.prim.memoryStore blobs).1 = .ok ⟨Sample.bothRoot⟩ := by decide +kernel
  rw [hrun] at hruns
  have hresolves : (Sample.prim.lookup (some ⟨Sample.bothRoot⟩) again.key).run
      Sample.prim.memoryStore blobs = (.ok (some Sample.first), blobs) := by decide +kernel
  have hnoop := insertOne_present 1 again htree (collisionFree_of_blobs (by decide +kernel))
    hresolves hruns
  exact ⟨_, hruns, hnoop.1⟩

end Primitives

end Registry

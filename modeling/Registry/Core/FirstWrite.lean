import Registry.Core.HamtTrie
import Registry.Core.Tabulated

/-! # The HAMT is a first-write-wins finite map

Whatever sequence of single and batched inserts built a root, looking a key up
finds the first entry that carried it past its batch's denylist. Inserts fail
only when the store fails or when more keys than a leaf holds share the whole
digest tail that descent uses.
-/

namespace Registry

open Effect BucketTrie

namespace Primitives

/-- A root that names a well-formed trie whose nodes are all held. -/
structure Represents (prim : Primitives) (blobs : Blobs) (root : Option Hash) (trie : HamtTrie) :
    Prop where
  hash : prim.hashOf trie = root
  stored : prim.Stored blobs trie
  wellFormed : prim.scheme.WellFormed 0 trie

variable {prim : Primitives} {faults : Prop} {blobUniverse : Set Bytes} {blobs : Blobs}

theorem Represents.mono {later : Blobs} {root : Option Hash} {trie : HamtTrie}
    (hgrow : blobs ⊆ later) (hroot : prim.Represents blobs root trie) :
    prim.Represents later root trie :=
  ⟨hroot.hash, hroot.stored.mono hgrow, hroot.wellFormed⟩

theorem Represents.none : prim.Represents blobs none .empty :=
  ⟨rfl, trivial, trivial⟩

theorem lookup_valid (hfree : prim.CollisionFree blobUniverse) (key : String)
    {root : Option Hash} {trie : HamtTrie} (hroot : prim.Represents blobs root trie) :
    Valid (prim.storeSetting faults blobUniverse)
      (fun result after => blobs ⊆ after ∧ result = prim.scheme.find key trie 0)
      (fun _ _ => faults) (prim.lookup root key) blobs := by
  obtain ⟨rfl, hstored, hwf⟩ := hroot
  unfold lookup
  split
  next hnone =>
    cases trie with
    | empty => exact ⟨List.Subset.refl _, rfl⟩
    | leaf entries => cases hnone
    | node children => cases hnone
  next hash hhash =>
    exact lookupFrom_valid hfree key (by omega) (Nat.zero_le _) hwf hstored hhash

/-- Without faults, looking a key up in a represented trie finds its entry. -/
theorem lookup_run (hfree : prim.CollisionFree {held | held ∈ blobs}) (key : String)
    {root : Option Hash} {trie : HamtTrie} (hroot : prim.Represents blobs root trie) :
    (prim.lookup root key).run prim.memoryStore blobs =
      (.ok (prim.scheme.find key trie 0), blobs) := by
  have hruns := prim.memoryStore_runs False (prim.lookup root key) blobs
  have hfinal : ((prim.lookup root key).run prim.memoryStore blobs).2 = blobs :=
    hruns.world_eq (fun _ _ _ _ hget hstep => hstep.eq_of_isGet hget) (prim.lookup_uses root key)
  rw [hfinal] at hruns
  have hmeets := prim.storeSetting_outcome (lookup_valid hfree key hroot) hruns
  refine Prod.ext ?_ hfinal
  cases houtcome : ((prim.lookup root key).run prim.memoryStore blobs).1 with
  | ok value => rw [houtcome] at hmeets; rw [hmeets.2]
  | error error => rw [houtcome] at hmeets; exact hmeets.elim
  | diverged => rw [houtcome] at hmeets; exact hmeets.elim

/-! ## Inserting -/

/-- What a batch stores when nothing was inserted into an absent root. -/
def sealed : HamtTrie → HamtTrie
  | .empty => .leaf []
  | .leaf entries => .leaf entries
  | .node children => .node children

@[simp] theorem find_sealed (key : String) (trie : HamtTrie) (depth : Nat) :
    prim.scheme.find key (sealed trie) depth = prim.scheme.find key trie depth := by
  cases trie <;> rfl

@[simp] theorem mem_sealed {entry : LeafEntry} {trie : HamtTrie} :
    (sealed trie).Mem entry ↔ trie.Mem entry := by
  cases trie <;> simp [sealed, Trie.Mem]

/-- The entries of a batch that its denylist lets through. -/
def allowed (denylist : Finset String) (entries : List LeafEntry) : List LeafEntry :=
  entries.filter fun entry => entry.key ∉ denylist

theorem Naming.sealed_of_some (naming : Naming prim) {root : Hash} {trie : HamtTrie}
    (hnames : naming.names blobs trie (some root)) : sealed trie = trie := by
  cases trie with
  | empty => cases naming.empty.mp hnames
  | leaf entries => rfl
  | node children => rfl

/-- A batch inserts its allowed entries in order, however the trie is named. -/
theorem Naming.insertBatch_valid (naming : Naming prim) (hfree : prim.CollisionFree blobUniverse)
    (leafMaxEntries : Nat) (entries : List LeafEntry) (denylist : Finset String)
    {root : Option Hash} {trie : HamtTrie} (hroot : naming.names blobs trie root) :
    Valid (prim.storeSetting faults blobUniverse)
      (fun hash after => blobs ⊆ after ∧ ∃ grown,
        prim.scheme.insertAll leafMaxEntries (allowed denylist entries) trie = .ok grown ∧
          naming.names after (sealed grown) (some hash))
      (fun error _ => faults ∨ ∃ key level, error = .depthExhausted key level ∧
        prim.scheme.insertAll leafMaxEntries (allowed denylist entries) trie =
          .error (key, level))
      (prim.insertBatch root entries leafMaxEntries denylist) blobs := by
  rw [insertBatch]
  apply Valid.bind
  -- Inserting what is left into the current trie is inserting everything into the first one.
  let I : List LeafEntry → Option Hash → Blobs → Prop := fun rest current after =>
    blobs ⊆ after ∧ ∃ grown, naming.names after grown current ∧
      prim.scheme.insertAll leafMaxEntries (allowed denylist rest) grown =
        prim.scheme.insertAll leafMaxEntries (allowed denylist entries) trie
  have hinit : I entries root blobs := ⟨List.Subset.refl _, trie, hroot, rfl⟩
  refine Valid.mono ?_ (fun _ _ h => h) (Valid.foldlM I ?_ hinit)
  · rintro current after ⟨hgrow, grown, hcurrent, hall⟩
    cases current with
    | some hash => exact ⟨hgrow, grown, hall.symm, (naming.sealed_of_some hcurrent).symm ▸ hcurrent⟩
    | none =>
        refine Valid.mono ?_ (fun _ _ hfault => Or.inl hfault) (putNode_valid (.leaf []))
        rintro hash later ⟨hlater, rfl, hheld⟩
        refine ⟨List.Subset.trans hgrow hlater, grown, hall.symm, ?_⟩
        rw [naming.eq_empty hcurrent]
        exact naming.putLeaf hheld
  · rintro entry rest current before ⟨hgrow, grown, hcurrent, hall⟩
    by_cases hdenied : entry.key ∈ denylist
    · rw [if_pos hdenied]
      have hskip : allowed denylist (entry :: rest) = allowed denylist rest := by
        simp [allowed, hdenied]
      exact ⟨hgrow, grown, hcurrent, hskip ▸ hall⟩
    · rw [if_neg hdenied]
      have hkeep : allowed denylist (entry :: rest) = entry :: allowed denylist rest := by
        simp [allowed, hdenied]
      rw [hkeep, Scheme.insertAll_cons] at hall
      apply Valid.bind
      refine Valid.mono ?_ ?_ (naming.insertAt_valid hfree leafMaxEntries entry (by omega)
        (Nat.zero_le _) hcurrent)
      · rintro hash after ⟨hlater, larger, hinsert, hnext⟩
        rw [hinsert] at hall
        exact ⟨List.Subset.trans hgrow hlater, larger, hnext, hall⟩
      · rintro error after (hfault | ⟨key, level, rfl, herror⟩)
        · exact Or.inl hfault
        · rw [herror] at hall
          exact Or.inr ⟨key, level, rfl, hall.symm⟩

theorem wellFormed_sealed {trie : HamtTrie} (hwf : prim.scheme.WellFormed 0 trie) :
    prim.scheme.WellFormed 0 (sealed trie) := by
  cases trie with
  | empty => exact List.Pairwise.nil
  | leaf entries => exact hwf
  | node children => exact hwf

/-- A represented trie that has grown is represented where its nodes are stored. -/
theorem Represents.insertAll {root : Option Hash} {trie grown : HamtTrie} {leafMaxEntries : Nat}
    {entries : List LeafEntry} {hash : Hash} {later : Blobs}
    (hroot : prim.Represents blobs root trie)
    (hinsert : prim.scheme.insertAll leafMaxEntries entries trie = .ok grown)
    (hhash : prim.hashOf (sealed grown) = some hash) (hstored : prim.Stored later (sealed grown)) :
    prim.Represents later (some hash) (sealed grown) :=
  ⟨hhash, hstored, wellFormed_sealed (prim.scheme.insertAll_ok hroot.wellFormed hinsert).1⟩

/-- A batch inserts its allowed entries into a represented trie. -/
theorem insertBatch_valid (hfree : prim.CollisionFree blobUniverse) (leafMaxEntries : Nat)
    (entries : List LeafEntry) (denylist : Finset String) {root : Option Hash} {trie : HamtTrie}
    (hroot : prim.Represents blobs root trie) :
    Valid (prim.storeSetting faults blobUniverse)
      (fun hash after => blobs ⊆ after ∧ ∃ grown,
        prim.scheme.insertAll leafMaxEntries (allowed denylist entries) trie = .ok grown ∧
          prim.Represents after (some hash) (sealed grown))
      (fun error _ => faults ∨ ∃ key level, error = .depthExhausted key level ∧
        prim.scheme.insertAll leafMaxEntries (allowed denylist entries) trie =
          .error (key, level))
      (prim.insertBatch root entries leafMaxEntries denylist) blobs := by
  refine Valid.mono ?_ (fun _ _ h => h) ((Naming.canonical prim).insertBatch_valid hfree
    leafMaxEntries entries denylist ⟨hroot.hash, hroot.stored⟩)
  rintro hash after ⟨hgrow, grown, hinsert, hhash, hstored⟩
  exact ⟨hgrow, grown, hinsert, hroot.insertAll hinsert hhash hstored⟩

/-- An insertion into a represented trie leaves the trie that insertion gives. -/
theorem insertOne_valid (hfree : prim.CollisionFree blobUniverse) (leafMaxEntries : Nat)
    (entry : LeafEntry) {root : Option Hash} {trie : HamtTrie}
    (hroot : prim.Represents blobs root trie) :
    Valid (prim.storeSetting faults blobUniverse)
      (fun hash after => blobs ⊆ after ∧ ∃ grown,
        prim.scheme.insert leafMaxEntries entry trie 0 = .ok grown ∧
          prim.Represents after (some hash) grown)
      (fun error _ => faults ∨ ∃ key level, error = .depthExhausted key level ∧
        prim.scheme.insert leafMaxEntries entry trie 0 = .error (key, level))
      (prim.insertOne root entry leafMaxEntries) blobs := by
  refine Valid.mono ?_ (fun _ _ h => h) ((Naming.canonical prim).insertAt_valid hfree
    leafMaxEntries entry (by omega) (Nat.zero_le _) ⟨hroot.hash, hroot.stored⟩)
  rintro hash after ⟨hgrow, grown, hinsert, hhash, hstored⟩
  exact ⟨hgrow, grown, hinsert, hhash, hstored, (prim.scheme.insert_ok hroot.wellFormed hinsert).1⟩

/-! ## Sequences of insert calls -/

/-- One call of the engine's insert interface. -/
inductive InsertCall
  | one (entry : LeafEntry)
  | batch (entries : List LeafEntry) (denylist : Finset String)

/-- The entries a call is meant to insert. -/
def InsertCall.accepted : InsertCall → List LeafEntry
  | .one entry => [entry]
  | .batch entries denylist => allowed denylist entries

def insertCall (prim : Primitives) (leafMaxEntries : Nat) (root : Option Hash) :
    InsertCall → HamtProg Hash
  | .one entry => prim.insertOne root entry leafMaxEntries
  | .batch entries denylist => prim.insertBatch root entries leafMaxEntries denylist

/-- The calls made one after another, each on the root the one before returned. -/
def insertCalls (prim : Primitives) (leafMaxEntries : Nat) :
    List InsertCall → Option Hash → HamtProg (Option Hash)
  | [], root => pure root
  | call :: rest, root => do
      let hash ← prim.insertCall leafMaxEntries root call
      insertCalls prim leafMaxEntries rest (some hash)

/-- More of these keys than a leaf holds share digest bytes 1 to 31. -/
def DigestsClash (prim : Primitives) (leafMaxEntries : Nat) (entries : List LeafEntry) : Prop :=
  ∃ keys : List String, leafMaxEntries + 1 ≤ keys.length ∧ keys.Nodup ∧
    (∀ key ∈ keys, ∃ entry ∈ entries, entry.key = key) ∧
    ∀ first ∈ keys, ∀ second ∈ keys, ∀ byte : Fin 32, byte ≠ 0 →
      (prim.keyDigest first)[byte] = (prim.keyDigest second)[byte]

/-- A trie grew by exactly these entries, as a first-write-wins map. -/
structure GrewBy (prim : Primitives) (before : HamtTrie) (entries : List LeafEntry)
    (after : HamtTrie) : Prop where
  mem : ∀ present, after.Mem present → before.Mem present ∨ present ∈ entries
  find : ∀ key, prim.scheme.find key after 0 =
    (prim.scheme.find key before 0).or (entries.find? fun entry => entry.key = key)

theorem GrewBy.trans {first second third : HamtTrie} {early late : List LeafEntry}
    (hearly : prim.GrewBy first early second) (hlate : prim.GrewBy second late third) :
    prim.GrewBy first (early ++ late) third where
  mem present hpresent := by
    rw [List.mem_append, ← or_assoc]
    exact (hlate.mem present hpresent).imp_left (hearly.mem present)
  find key := by
    rw [hlate.find, hearly.find, List.find?_append, Option.or_assoc]

theorem GrewBy.of_insertAll {leafMaxEntries : Nat} {entries : List LeafEntry}
    {trie grown : HamtTrie} (hwf : prim.scheme.WellFormed 0 trie)
    (hinsert : prim.scheme.insertAll leafMaxEntries entries trie = .ok grown) :
    prim.GrewBy trie entries grown := by
  obtain ⟨-, hmem, hfind⟩ := prim.scheme.insertAll_ok hwf hinsert
  exact ⟨hmem, hfind⟩

theorem keyDigest_eq_of_route {first second : String}
    (hroute : prim.scheme.route first = prim.scheme.route second) (byte : Fin 32)
    (hbyte : byte ≠ 0) : (prim.keyDigest first)[byte] = (prim.keyDigest second)[byte] := by
  have hpos : byte.val ≠ 0 := fun hzero => hbyte (Fin.ext hzero)
  have hlevel := congrFun hroute (byte.val - 1)
  have hindex : 1 + (byte.val - 1) = byte.val := by omega
  simp only [scheme, descentByte, hindex] at hlevel
  have hfirst : (prim.keyDigest first)[byte.val]? = some (prim.keyDigest first)[byte] :=
    Vector.getElem?_eq_getElem byte.isLt
  have hsecond : (prim.keyDigest second)[byte.val]? = some (prim.keyDigest second)[byte] :=
    Vector.getElem?_eq_getElem byte.isLt
  rw [hfirst, hsecond] at hlevel
  exact UInt8.toFin_inj.mp (Option.some.inj hlevel)

/-- Insertion into a trie fails only where digests clash. -/
theorem digestsClash_of_insertAll {leafMaxEntries : Nat} {entries others : List LeafEntry}
    {trie : HamtTrie} {error : String × Nat} (hwf : prim.scheme.WellFormed 0 trie)
    (hothers : ∀ present, trie.Mem present → present ∈ others)
    (hinsert : prim.scheme.insertAll leafMaxEntries entries trie = .error error) :
    prim.DigestsClash leafMaxEntries (others ++ entries) := by
  obtain ⟨group, hlength, hnodup, hmem, key, hroute⟩ := prim.scheme.insertAll_error hwf hinsert
  refine ⟨group.map LeafEntry.key, by rw [List.length_map]; exact hlength, hnodup, ?_, ?_⟩
  · intro key hkey
    obtain ⟨member, hmember, rfl⟩ := List.mem_map.mp hkey
    refine ⟨member, List.mem_append.mpr ?_, rfl⟩
    exact (hmem member hmember).imp_left (hothers member)
  · intro first hfirst second hsecond
    obtain ⟨left, hleft, rfl⟩ := List.mem_map.mp hfirst
    obtain ⟨right, hright, rfl⟩ := List.mem_map.mp hsecond
    exact keyDigest_eq_of_route ((hroute left hleft).trans (hroute right hright).symm)

/-- One insert call on a represented trie grows it by what the call accepts. -/
theorem insertCall_valid (hfree : prim.CollisionFree blobUniverse) (leafMaxEntries : Nat)
    (call : InsertCall) {root : Option Hash} {trie : HamtTrie} {others : List LeafEntry}
    (hroot : prim.Represents blobs root trie)
    (hothers : ∀ present, trie.Mem present → present ∈ others) :
    Valid (prim.storeSetting faults blobUniverse)
      (fun hash after => ∃ grown, prim.Represents after (some hash) grown ∧
        prim.GrewBy trie call.accepted grown)
      (fun error _ => faults ∨ ((∃ key level, error = .depthExhausted key level) ∧
        prim.DigestsClash leafMaxEntries (others ++ call.accepted)))
      (prim.insertCall leafMaxEntries root call) blobs := by
  cases call with
  | one entry =>
      have hsingle : prim.scheme.insertAll leafMaxEntries [entry] trie =
          prim.scheme.insert leafMaxEntries entry trie 0 := by
        rw [Scheme.insertAll_cons]
        cases prim.scheme.insert leafMaxEntries entry trie 0 <;> rfl
      refine Valid.mono ?_ ?_ (insertOne_valid hfree leafMaxEntries entry hroot)
      · rintro hash after ⟨-, grown, hinsert, hgrown⟩
        exact ⟨grown, hgrown, GrewBy.of_insertAll hroot.wellFormed (hsingle.trans hinsert)⟩
      · rintro error after (hfault | ⟨key, level, rfl, herror⟩)
        · exact Or.inl hfault
        · exact Or.inr ⟨⟨key, level, rfl⟩,
            digestsClash_of_insertAll hroot.wellFormed hothers (hsingle.trans herror)⟩
  | batch entries denylist =>
      refine Valid.mono ?_ ?_ (insertBatch_valid hfree leafMaxEntries entries denylist hroot)
      · rintro hash after ⟨-, grown, hall, hgrown⟩
        have hgrew := GrewBy.of_insertAll hroot.wellFormed hall
        refine ⟨sealed grown, hgrown, ?_, ?_⟩
        · exact fun present hpresent => hgrew.mem present (mem_sealed.mp hpresent)
        · exact fun key => (find_sealed key grown 0).trans (hgrew.find key)
      · rintro error after (hfault | ⟨key, level, rfl, hall⟩)
        · exact Or.inl hfault
        · exact Or.inr ⟨⟨key, level, rfl⟩,
            digestsClash_of_insertAll hroot.wellFormed hothers hall⟩

theorem DigestsClash.mono {leafMaxEntries : Nat} {small large : List LeafEntry}
    (hsubset : small ⊆ large) (hclash : prim.DigestsClash leafMaxEntries small) :
    prim.DigestsClash leafMaxEntries large := by
  obtain ⟨keys, hlength, hnodup, hmem, hdigests⟩ := hclash
  refine ⟨keys, hlength, hnodup, fun key hkey => ?_, hdigests⟩
  obtain ⟨entry, hentry, rfl⟩ := hmem key hkey
  exact ⟨entry, hsubset hentry, rfl⟩

theorem insertCalls_valid (hfree : prim.CollisionFree blobUniverse) (leafMaxEntries : Nat)
    (calls : List InsertCall) {root : Option Hash} {trie : HamtTrie} {others : List LeafEntry}
    (hroot : prim.Represents blobs root trie)
    (hothers : ∀ present, trie.Mem present → present ∈ others) :
    Valid (prim.storeSetting faults blobUniverse)
      (fun next after => ∃ grown, prim.Represents after next grown ∧
        prim.GrewBy trie (calls.flatMap InsertCall.accepted) grown)
      (fun error _ => faults ∨ ((∃ key level, error = .depthExhausted key level) ∧
        prim.DigestsClash leafMaxEntries (others ++ calls.flatMap InsertCall.accepted)))
      (prim.insertCalls leafMaxEntries calls root) blobs := by
  induction calls generalizing root trie others blobs with
  | nil => exact ⟨trie, hroot, fun present h => Or.inl h, fun key => by simp⟩
  | cons call rest ih =>
      rw [insertCalls]
      apply Valid.bind
      refine Valid.mono ?_ ?_ (insertCall_valid hfree leafMaxEntries call hroot hothers)
      · rintro hash after ⟨grown, hnext, hgrew⟩
        have hgrown : ∀ present, grown.Mem present → present ∈ others ++ call.accepted := by
          intro present hpresent
          rw [List.mem_append]
          exact (hgrew.mem present hpresent).imp_left (hothers present)
        refine Valid.mono ?_ ?_ (ih hnext hgrown)
        · rintro final last ⟨larger, hfinal, hlarger⟩
          exact ⟨larger, hfinal, hgrew.trans hlarger⟩
        · rintro error last (hfault | ⟨hexhausted, hclash⟩)
          · exact Or.inl hfault
          · rw [List.append_assoc] at hclash
            exact Or.inr ⟨hexhausted, hclash⟩
      · rintro error after (hfault | ⟨hexhausted, hclash⟩)
        · exact Or.inl hfault
        · refine Or.inr ⟨hexhausted, hclash.mono ?_⟩
          rw [List.flatMap_cons, ← List.append_assoc]
          exact List.subset_append_left _ _

/-- However single and batched inserts built a root from nothing, looking a key
up finds the first entry that carried it past its batch's denylist, and nothing
if there is none. Inserts fail only when the store does, or when more of the
inserted keys than a leaf holds share digest bytes 1 to 31. -/
theorem lookup_insertCalls (leafMaxEntries : Nat) (calls : List InsertCall)
    {outcome : Prog.Outcome HamtError (Option Hash)} {final : Blobs}
    (hruns : Prog.Runs (prim.StoreStep faults) (prim.insertCalls leafMaxEntries calls none)
      blobs outcome final)
    (hfree : prim.CollisionFree {held | held ∈ final}) :
    match outcome with
    | .ok root => ∀ key, (prim.lookup root key).run prim.memoryStore final =
        (.ok ((calls.flatMap InsertCall.accepted).find? fun entry => entry.key = key), final)
    | .error error => faults ∨ ((∃ key level, error = .depthExhausted key level) ∧
        prim.DigestsClash leafMaxEntries (calls.flatMap InsertCall.accepted))
    | .diverged => False := by
  have hempty : ∀ present, (.empty : HamtTrie).Mem present → present ∈ ([] : List LeafEntry) := by
    simp [Trie.Mem]
  have hmeets := prim.storeSetting_outcome
    (insertCalls_valid hfree leafMaxEntries calls Represents.none hempty) hruns
  cases outcome with
  | ok root =>
      obtain ⟨trie, hroot, hgrew⟩ := hmeets
      intro key
      have hfind : prim.scheme.find key trie 0 =
          (calls.flatMap InsertCall.accepted).find? fun entry => entry.key = key := by
        rw [hgrew.find]
        rfl
      rw [lookup_run hfree key hroot, hfind]
  | error error => exact hmeets
  | diverged => exact hmeets

/-- A batch that is denylisted whole, a single insert, and a batch that repeats
its key: the tree ends as one leaf that resolves both keys. -/
theorem lookup_insertCalls_sample :
    ∃ (calls : List InsertCall) (final : Blobs),
      Prog.Runs (Sample.prim.StoreStep False) (Sample.prim.insertCalls 2 calls none) []
        (.ok (some ⟨Sample.bothRoot⟩)) final ∧
      Sample.prim.CollisionFree {held | held ∈ final} ∧
      ∀ key, (Sample.prim.lookup (some ⟨Sample.bothRoot⟩) key).run Sample.prim.memoryStore final =
        (.ok ([Sample.first, Sample.first, Sample.second].find? fun entry => entry.key = key),
          final) := by
  let calls : List InsertCall :=
    [.batch [Sample.second] {Sample.secondKey}, .one Sample.first,
      .batch [Sample.first, Sample.second] ∅]
  let final : Blobs :=
    [Sample.leafBlob [Sample.firstText, Sample.secondText], Sample.leafBlob [Sample.firstText],
      Sample.leafBlob []]
  have hrun : (Sample.prim.insertCalls 2 calls none).run Sample.prim.memoryStore [] =
      (.ok (some ⟨Sample.bothRoot⟩), final) := by decide +kernel
  have hruns := Sample.prim.memoryStore_runs False (Sample.prim.insertCalls 2 calls none) []
  rw [hrun] at hruns
  have hfree : Sample.prim.CollisionFree {held | held ∈ final} :=
    collisionFree_of_blobs (by decide +kernel)
  have haccepted : calls.flatMap InsertCall.accepted =
      [Sample.first, Sample.first, Sample.second] := by decide +kernel
  refine ⟨calls, final, hruns, hfree, ?_⟩
  rw [← haccepted]
  exact lookup_insertCalls 2 calls hruns hfree

end Primitives

end Registry

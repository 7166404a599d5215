import Registry.Core.Walkers
import Registry.Effect.Interpret

/-! # The parallel walk in a hurry

The deadline may pass whenever the walk looks at it, any read may fail or miss, reads
complete in any order, and blobs are added to the store meanwhile. The walk still lists
only entries of the tree, each once, and it never takes a part for the whole.
-/

namespace Registry

open Effect BucketTrie

deriving instance DecidableEq for WalkOutcome

namespace Primitives

variable (prim : Primitives)

/-- The answers a walk may get. Only blobs that are held are read. -/
def HurriedStep : (op : WalkOp) → Blobs → walkSig.Res op → Blobs → Prop
  | .remaining, blobs, _, after => after = blobs
  | .prefetch _, blobs, _, after => after = blobs
  | .joinNext _, blobs, _, after => after = blobs
  | .get hash, blobs, response, after => prim.StoreStep True (.get hash) blobs response after

/-- A walk over a store that others add blobs to. -/
def hurriedSetting (blobUniverse : Set Bytes) : Setting walkSig Blobs where
  sem := prim.HurriedStep
  rely before after := before ⊆ after
  inv blobs := ∀ blob ∈ blobs, blob ∈ blobUniverse
  guar _ _ := True
  rely_refl blobs := List.Subset.refl blobs
  rely_trans := List.Subset.trans

/-- The entries that a walk has, with those it still waits for and those it has missed,
are the entries of its start. It knows when it has missed some. -/
structure Covers (state : WalkState) (tries : List HamtTrie) (total : List LeafEntry) : Prop where
  missed : ∃ missed, (state.entries ++ tries.flatMap listed ++ missed).Perm total ∧
    (state.complete = true → missed = [])

variable {prim} {blobUniverse : Set Bytes} {blobs : Blobs} {nodes : Set Hash}

theorem Waiting.mono {later : Blobs} {bound : Nat} {tries : List HamtTrie} {hashes : List Hash}
    (hgrow : blobs ⊆ later) (hwaiting : prim.Waiting nodes blobs bound tries hashes) :
    prim.Waiting nodes later bound tries hashes :=
  ⟨hwaiting.named, fun trie htrie => (hwaiting.stored trie htrie).mono hgrow, hwaiting.nodes,
    hwaiting.height⟩

namespace Covers

variable {state : WalkState} {trie : HamtTrie} {tries others : List HamtTrie}
  {total : List LeafEntry}

theorem perm (hcovers : Covers state tries total) (hperm : others.Perm tries) :
    Covers state others total := by
  obtain ⟨missed, hentries, hcomplete⟩ := hcovers.missed
  have hlisted := (hperm.flatMap_right listed).append_left state.entries
  exact ⟨missed, (hlisted.append_right missed).trans hentries, hcomplete⟩

/-- What is waited for may be given up. -/
theorem give_up (hcovers : Covers state tries total) :
    Covers { state with complete := false } [] total := by
  obtain ⟨missed, hentries, -⟩ := hcovers.missed
  refine ⟨tries.flatMap listed ++ missed, ?_, nofun⟩
  simpa using hentries

theorem join_error {error : HamtError} (hcovers : Covers state (trie :: tries) total) :
    Covers (state.join (.error error)) tries total := by
  obtain ⟨missed, hentries, -⟩ := hcovers.missed
  refine ⟨listed trie ++ missed, ?_, nofun⟩
  -- The entries of the node that was not read move to those that are missed.
  refine List.Perm.trans ?_ hentries
  simp only [WalkState.join, List.flatMap_cons, List.append_assoc]
  refine List.Perm.append_left state.entries ?_
  rw [← List.append_assoc, ← List.append_assoc]
  exact List.perm_append_comm.append_right missed

theorem join_read (hcovers : Covers state (trie :: tries) total) :
    Covers (state.join (.ok (prim.nodeOf trie))) (tries ++ prim.childTries trie) total := by
  obtain ⟨missed, hentries, hcomplete⟩ := hcovers.missed
  have hmoved : ∀ first second : List LeafEntry,
      (state.entries ++ (first ++ second) ++ missed).Perm
        (state.entries ++ (second ++ first) ++ missed) := fun first second =>
    (List.perm_append_comm.append_left state.entries).append_right missed
  cases trie with
  | empty =>
      refine ⟨missed, ?_, hcomplete⟩
      simpa [childTries, nodeOf, WalkState.join, listed] using hentries
  | leaf entries =>
      refine ⟨missed, ?_, hcomplete⟩
      simpa [childTries, nodeOf, WalkState.join, listed] using hentries
  | node children =>
      refine ⟨missed, List.Perm.trans ?_ hentries, hcomplete⟩
      have hread : prim.readEntries ∅ = listed := funext readEntries_none
      have hchildren : (prim.present children).flatMap listed =
          (List.finRange 256).flatMap fun slot => listed (children slot) := by
        have hpresent : (prim.present children).flatMap (prim.readEntries ∅) =
            (List.finRange 256).flatMap fun slot => prim.readEntries ∅ (children slot) :=
          flatMap_present ∅ children
        rwa [hread] at hpresent
      simp only [childTries, nodeOf, WalkState.join, List.flatMap_cons, List.flatMap_append,
        listed, hchildren]
      exact hmoved _ _

end Covers

section Walk

variable {bound : Nat} {total : List LeafEntry}

/-- Whatever the clock says. -/
theorem remaining_hurried {α : Type} {early late : WalkProg α} {post : α → Blobs → Prop}
    (hearly : ∀ after, blobs ⊆ after →
      Valid (prim.hurriedSetting blobUniverse) post (fun _ _ => False) early after)
    (hlate : ∀ after, blobs ⊆ after →
      Valid (prim.hurriedSetting blobUniverse) post (fun _ _ => False) late after) :
    Valid (prim.hurriedSetting blobUniverse) post (fun _ _ => False)
      (WalkOp.remaining.perform >>= fun ahead => if ahead then early else late) blobs := by
  intro before hbefore hinv response after hstep
  obtain rfl : after = before := hstep
  refine ⟨hinv, trivial, ?_⟩
  cases response with
  | false => exact hlate after hbefore
  | true => exact hearly after hbefore

theorem readNodeTask_hurried (hfree : prim.CollisionFree blobUniverse) {trie : HamtTrie}
    {hash : Hash} (hstored : prim.Stored blobs trie) (hhash : prim.hashOf trie = some hash) :
    Valid (prim.hurriedSetting blobUniverse)
      (fun joined after => blobs ⊆ after ∧
        (joined = .ok (prim.nodeOf trie) ∨ ∃ error, joined = .error error))
      (fun _ _ => False) (prim.readNodeTask hash) blobs := by
  intro before hbefore hinv response after hstep
  obtain ⟨rfl, hanswer⟩ := hstep
  refine ⟨hinv, trivial, ?_⟩
  obtain ⟨bytes, hheld, hdecode⟩ := (hstored.mono hbefore).decode_root (hfree.mono hinv) hhash
  rcases hanswer with rfl | ⟨-, rfl | ⟨error, rfl⟩⟩
  · rw [hheld]
    exact ⟨hbefore, Or.inl hdecode⟩
  · exact ⟨hbefore, Or.inr ⟨_, rfl⟩⟩
  · exact ⟨hbefore, Or.inr ⟨_, rfl⟩⟩

/-- Joining the reads of a level covers the same entries, in time or not. -/
theorem joinReads_hurried (hfree : prim.CollisionFree blobUniverse) {spawned : Nat}
    {tries next : List HamtTrie} {pending : List Hash} {state : WalkState}
    (hspawned : pending.length = spawned)
    (hpending : prim.Waiting nodes blobs (bound + 1) tries pending)
    (hnext : prim.Waiting nodes blobs bound next state.frontier)
    (hcovers : Covers state (tries ++ next) total) :
    Valid (prim.hurriedSetting blobUniverse)
      (fun result after =>
        (result.2 = true → ∃ level, prim.Waiting nodes after bound level result.1.frontier ∧
          Covers result.1 level total) ∧
        (result.2 = false → Covers result.1 [] total))
      (fun _ _ => False) (prim.joinReads spawned pending state) blobs := by
  induction spawned generalizing tries next pending state blobs with
  | zero =>
      obtain rfl := List.length_eq_zero_iff.mp hspawned
      obtain rfl := List.length_eq_zero_iff.mp hpending.length_eq
      apply remaining_hurried
      · exact fun after hafter => ⟨fun _ => ⟨next, hnext.mono hafter, hcovers⟩, nofun⟩
      · exact fun after _ => ⟨nofun, fun _ => hcovers.give_up⟩
  | succ spawned ih =>
      cases pending with
      | nil => cases hspawned
      | cons first others =>
          apply remaining_hurried
          · intro early hearly before hbefore hinv choice after hstep
            obtain rfl : after = before := hstep
            refine ⟨hinv, trivial, ?_⟩
            have hgrow := List.Subset.trans hearly hbefore
            have hplace : choice.val < tries.length := by
              rw [hpending.length_eq]
              exact choice.isLt
            have hhash : prim.hashOf tries[choice.val] = some ((first :: others).get choice) := by
              have hnamed : (tries.map prim.hashOf)[choice.val]? =
                  ((first :: others).map some)[choice.val]? := by rw [hpending.named]
              rw [List.getElem?_map, List.getElem?_map, List.getElem?_eq_getElem hplace,
                List.getElem?_eq_getElem choice.isLt] at hnamed
              exact Option.some.inj hnamed
            have hmem : tries[choice.val] ∈ tries := List.getElem_mem hplace
            have htries : (tries[choice.val] :: (tries.eraseIdx choice.val ++ next)).Perm
                (tries ++ next) :=
              (List.getElem_cons_eraseIdx_perm hplace).append_right next
            have hjoined := hcovers.perm htries
            have hstored := (hpending.stored _ hmem).mono hgrow
            have hlength : ((first :: others).eraseIdx choice.val).length = spawned := by
              rw [List.length_eraseIdx_of_lt choice.isLt, hspawned]
              rfl
            change Valid _ _ _ (prim.readNodeTask ((first :: others).get choice) >>= fun joined =>
              prim.joinReads spawned ((first :: others).eraseIdx choice) (state.join joined)) after
            apply Valid.bind
            refine Valid.mono ?_ (fun _ _ h => h) (readNodeTask_hurried hfree hstored hhash)
            rintro joined last ⟨hlast, rfl | ⟨error, rfl⟩⟩
            · have hlevel := hnext.mono (List.Subset.trans hgrow hlast)
              refine ih hlength
                ((hpending.eraseIdx choice.val).mono (List.Subset.trans hgrow hlast))
                (hlevel.join_read (hstored.mono hlast) (hpending.nodes _ hmem)
                  (hpending.height _ hmem)) ?_
              rw [← List.append_assoc]
              exact hjoined.join_read
            · exact ih hlength ((hpending.eraseIdx choice.val).mono (List.Subset.trans hgrow hlast))
                (hnext.mono (List.Subset.trans hgrow hlast)) hjoined.join_error
          · exact fun after _ => ⟨nofun, fun _ => hcovers.give_up⟩

theorem walkLevels_hurried (hfree : prim.CollisionFree blobUniverse) {fuel : Nat}
    {tries : List HamtTrie} {state : WalkState} (hfuel : bound < fuel)
    (hwaiting : prim.Waiting nodes blobs bound tries state.frontier)
    (hcovers : Covers state tries total) :
    Valid (prim.hurriedSetting blobUniverse) (fun final _ => Covers final [] total)
      (fun _ _ => False) (prim.walkLevels fuel state) blobs := by
  induction fuel generalizing bound tries state blobs with
  | zero => omega
  | succ fuel ih =>
      rw [walkLevels]
      by_cases hfrontier : state.frontier = []
      · rw [if_pos hfrontier]
        have hempty := hwaiting.length_eq
        rw [hfrontier] at hempty
        obtain rfl := List.length_eq_zero_iff.mp hempty
        exact hcovers
      · rw [if_neg hfrontier]
        cases bound with
        | zero => exact absurd hwaiting.eq_nil hfrontier
        | succ bound =>
            apply remaining_hurried
            · intro early hearly before hbefore hinv response after hstep
              obtain rfl : after = before := hstep
              refine ⟨hinv, trivial, ?_⟩
              have hgrow := List.Subset.trans hearly hbefore
              have hlevel : Covers { state with frontier := [] } (tries ++ []) total := by
                rw [List.append_nil]
                exact ⟨hcovers.missed⟩
              change Valid _ _ _ (prim.joinReads state.frontier.length state.frontier
                { state with frontier := [] } >>= fun result =>
                  if result.2 then prim.walkLevels fuel result.1 else pure result.1) after
              apply Valid.bind
              refine Valid.mono ?_ (fun _ _ h => h) (joinReads_hurried hfree rfl
                (hwaiting.mono hgrow) (Waiting.nil bound) hlevel)
              rintro ⟨next, inTime⟩ last ⟨hinTime, hlate⟩
              cases inTime with
              | false => exact hlate rfl
              | true =>
                  obtain ⟨level, hnext, hlevel⟩ := hinTime rfl
                  exact ih (by omega) hnext hlevel
            · exact fun after _ => hcovers.give_up

/-- The parallel walk lists a part of the trie, and the whole of it if it says so. -/
theorem walkEntriesParallel_hurried (hfree : prim.CollisionFree blobUniverse) {trie : HamtTrie}
    {root : Hash} (hstored : prim.Stored blobs trie) (hhash : prim.hashOf trie = some root)
    (hwithin : ∀ blob ∈ blobs, blob ∈ blobUniverse) :
    Valid (prim.hurriedSetting blobUniverse)
      (fun result _ => ∃ entries missed, (entries ++ missed).Perm (listed trie) ∧
        result.entries = sortByKey entries ∧ (result.complete = true → missed = []))
      (fun _ _ => False) (prim.walkEntriesParallel root) blobs := by
  have hheight : height trie ≤ hashCount :=
    ((Naming.canonical prim).reads ⟨hhash, hstored⟩).height_le (hfree.mono hwithin)
  have hwaiting : prim.Waiting Set.univ blobs hashCount [trie] [root] :=
    ⟨congrArg (fun hash => [hash]) hhash, List.forall_mem_singleton.mpr hstored,
      List.forall_mem_singleton.mpr fun _ _ _ => Set.mem_univ _,
      List.forall_mem_singleton.mpr hheight⟩
  have hcovers : Covers ⟨[root], [], true⟩ [trie] (listed trie) :=
    ⟨[], by simp, fun _ => rfl⟩
  rw [walkEntriesParallel]
  apply Valid.bind
  refine Valid.mono ?_ (fun _ _ h => h)
    (walkLevels_hurried hfree (Nat.lt_succ_self hashCount) hwaiting hcovers)
  intro final after hfinal
  obtain ⟨missed, hentries, hcomplete⟩ := hfinal.missed
  rw [List.flatMap_nil, List.append_nil] at hentries
  exact ⟨final.entries, missed, hentries, rfl, hcomplete⟩

end Walk

/-- No read removes a blob. -/
theorem HurriedStep.subset {op : WalkOp} {response : walkSig.Res op} {after : Blobs}
    (hstep : prim.HurriedStep op blobs response after) : blobs ⊆ after := by
  have hsame : after = blobs := by
    cases op with
    | get hash => exact hstep.1
    | _ => exact hstep
  exact hsame ▸ List.Subset.refl blobs

theorem hurriedTurns_subset {ε α : Type} {prog later : Prog walkSig ε α} {final : Blobs}
    (hturns : Prog.Turns prim.HurriedStep (fun before after => before ⊆ after) (prog, blobs)
      (later, final)) : blobs ⊆ final := by
  generalize hend : (later, final) = ending at hturns
  induction hturns generalizing later final with
  | refl =>
      cases hend
      exact List.Subset.refl blobs
  | tail _ hturn ih =>
      cases hturn with
      | call answered =>
          cases hend
          exact List.Subset.trans (ih rfl) answered.subset
      | other prog moved =>
          cases hend
          exact List.Subset.trans (ih rfl) moved

/-- What a walk has listed of a tree: single keys resolve to its entries, and to no others
if the walk has seen everything. -/
structure ListsPart (prim : Primitives) (blobs : Blobs) (root : Hash) (result : WalkOutcome) :
    Prop where
  sorted : result.entries.Pairwise fun first second => first.key < second.key
  resolves : ∀ entry ∈ result.entries,
    (prim.lookup (some root) entry.key).run prim.memoryStore blobs = (.ok (some entry), blobs)
  whole : result.complete = true → ∀ key entry,
    (prim.lookup (some root) key).run prim.memoryStore blobs = (.ok (some entry), blobs) →
      entry ∈ result.entries

/-- A part of a trie, and the trie itself if the walk is complete. -/
theorem Represents.listsPart {final : Blobs} (hfree : prim.CollisionFree {held | held ∈ final})
    {trie : HamtTrie} {root : Hash} (hroot : prim.Represents final (some root) trie)
    {entries missed : List LeafEntry} {result : WalkOutcome}
    (hperm : (entries ++ missed).Perm (listed trie)) (hsorted : result.entries = sortByKey entries)
    (hcomplete : result.complete = true → missed = []) : prim.ListsPart final root result := by
  have hmem : ∀ entry, entry ∈ result.entries ↔ entry ∈ entries := by
    intro entry
    rw [hsorted]
    exact prim.scheme.mem_sort
  have hkeys : ((entries ++ missed).map LeafEntry.key).Nodup :=
    (hperm.map LeafEntry.key).nodup_iff.mpr (nodup_listed hroot.wellFormed)
  constructor
  · rw [hsorted]
    rw [List.map_append] at hkeys
    exact prim.scheme.sort_pairwise_lt hkeys.of_append_left
  · intro entry hentry
    have hlisted := hperm.subset (List.mem_append_left missed ((hmem entry).mp hentry))
    have hfind : prim.scheme.find entry.key trie 0 = some entry :=
      hroot.wellFormed.find_eq_some_iff.mpr ⟨mem_listed.mp hlisted, rfl⟩
    rw [lookup_run hfree entry.key hroot, hfind]
  · intro hall key entry hlookup
    rw [lookup_run hfree key hroot] at hlookup
    have hfind : prim.scheme.find key trie 0 = some entry :=
      Prog.Outcome.ok.inj (congrArg Prod.fst hlookup)
    have hlisted :=
      hperm.symm.subset (mem_listed.mpr (hroot.wellFormed.find_eq_some_iff.mp hfind).1)
    rw [hcomplete hall, List.append_nil] at hlisted
    exact (hmem entry).mpr hlisted

/-- However the reads of a parallel walk go, in whatever order and however late, and
whatever is stored meanwhile: what the walk lists resolves, each key once and in order,
and a walk that says it is complete has listed every key that resolves. -/
theorem hurried_walk_lists_part {root : Hash} {building : Prop}
    (htree : prim.IsTree building blobs (some root)) {prog : WalkProg WalkOutcome} {final : Blobs}
    (hturns : Prog.Turns prim.HurriedStep (fun before after => before ⊆ after)
      (prim.walkEntriesParallel root, blobs) (prog, final))
    (hfree : prim.CollisionFree {held | held ∈ final}) :
    prog ≠ .diverge ∧ ∀ result, prog = .pure result → prim.ListsPart final root result := by
  let blobUniverse : Set Bytes := {held | held ∈ final}
  have hgrows : blobs ⊆ final := hurriedTurns_subset hturns
  obtain ⟨trie, hroot⟩ := htree.represents (hfree.mono fun blob hblob => hgrows hblob)
  obtain ⟨-, hvalid⟩ := Valid.turns (S := prim.hurriedSetting blobUniverse)
    (fun world => ∀ blob ∈ world, blob ∈ blobUniverse)
    (fun op world response after hanswer hgood blob hblob => hgood blob (hanswer.subset hblob))
    (fun world later hmoved hgood blob hblob => hgood blob (hmoved hblob))
    (fun op world response after hanswer _ => hanswer)
    (fun world later hmoved hgood _ => ⟨hgood, hmoved⟩)
    (fun _ _ _ _ hpost => hpost) (fun _ _ _ _ hfails => hfails) hturns (fun _ hblob => hblob)
    (fun blob hblob => hgrows hblob)
    (walkEntriesParallel_hurried hfree hroot.stored hroot.hash fun blob hblob => hgrows hblob)
  constructor
  · rintro rfl
    exact hvalid
  · rintro result rfl
    obtain ⟨entries, missed, hperm, hsorted, hcomplete⟩ := hvalid
    exact (hroot.mono hgrows).listsPart hfree hperm hsorted hcomplete

theorem walkedInTime_runs {ε α : Type} (prog : Prog walkSig ε α) :
    Prog.Runs prim.HurriedStep prog blobs (prog.run (prim.lossyWalk lost) blobs).1
      (prog.run (prim.lossyWalk lost) blobs).2 := by
  refine (Prog.run_runs (prim.lossyWalk lost) prog blobs).imp ?_
  intro op before response after hcall
  cases op with
  | remaining => exact (Prod.mk.inj hcall).2.symm
  | prefetch frontier => exact (Prod.mk.inj hcall).2.symm
  | joinNext others => exact (Prod.mk.inj hcall).2.symm
  | get hash =>
      obtain ⟨rfl, rfl⟩ := Prod.mk.inj hcall
      refine ⟨rfl, ?_⟩
      rw [lossyGet]
      split
      next => exact Or.inr ⟨trivial, Or.inl rfl⟩
      next => exact Or.inl rfl

/-- A walk that nothing delays misses a lost node, and reads on wherever it can. -/
theorem lossyWalk_lists (lost : Hash) {root : Hash} {building : Prop}
    (htree : prim.IsTree building blobs (some root))
    (hfree : prim.CollisionFree {held | held ∈ blobs}) :
    ∃ result,
      ((prim.walkEntriesParallel root).run (prim.lossyWalk lost) blobs).1 = .ok result ∧
      ((prim.walkEntriesParallel root).run (prim.lossyWalk lost) blobs).2 = blobs ∧
      (prim.ReachesNode blobs root lost → result.complete = false) ∧
      ∀ hash bucket entry, prim.ReachesReadable blobs {lost} root hash →
        prim.nodeAt blobs hash = some (.leaf bucket) → entry ∈ bucket →
          entry ∈ result.entries := by
  obtain ⟨trie, hroot⟩ := htree.represents hfree
  have hruns : Prog.Runs (prim.WalkStep (prim.treeNodes blobs root) {lost} Set.univ)
      (prim.walkEntriesParallel root) blobs
      ((prim.walkEntriesParallel root).run (prim.lossyWalk lost) blobs).1
      ((prim.walkEntriesParallel root).run (prim.lossyWalk lost) blobs).2 := lossyWalk_runs _ _
  obtain ⟨result, houtcome, hsame, ⟨seen, hseen, hsorted⟩, hcomplete⟩ :=
    walkEntriesParallel_outcome hfree hroot.stored hroot.hash
      (hroot.stored.nodesIn hfree hroot.hash) hruns
  refine ⟨result, houtcome, hsame, ?_, ?_⟩
  · intro hreaches
    refine Bool.eq_false_iff.mpr fun hall => ?_
    have hread := (hroot.stored.allRead_iff hfree hroot.hash).mp (hcomplete.mp hall)
    exact hread lost hreaches (Set.mem_singleton lost)
  · intro hash bucket entry hreaches hbucket hentry
    rw [hsorted, ← scheme_sort prim, prim.scheme.mem_sort, hseen.mem_iff]
    exact (hroot.stored.mem_readEntries hfree hroot.hash).mpr
      ⟨hash, bucket, hreaches, hbucket, hentry⟩

/-- A tree of two leaves. -/
def spreadRun : Prog.Outcome HamtError (Option Hash) × Blobs :=
  (Sharing.prim.treeCalls [.insert (.one Sharing.first) 1, .insert (.one Sharing.third) 1] none).run
    Sharing.prim.memoryStore []

/-- A walk that misses one of the leaves. -/
def lossyRun : Prog.Outcome Empty WalkOutcome × Blobs :=
  (Sharing.prim.walkEntriesParallel Sharing.spreadRoot).run
    (Sharing.prim.lossyWalk Sharing.thirdLeaf) spreadRun.2

/-- Both leaves are children of the root. -/
theorem spreadRoot_children :
    ∃ node, Sharing.prim.nodeAt spreadRun.2 Sharing.spreadRoot = some node ∧
      Sharing.firstLeaf ∈ node.children ∧ Sharing.thirdLeaf ∈ node.children := by
  have hslots : (Sharing.prim.nodeAt spreadRun.2 Sharing.spreadRoot).map
      (fun node => node.children.take 2) = some [Sharing.firstLeaf, Sharing.thirdLeaf] := by
    decide +kernel
  obtain ⟨node, hnode, hchildren⟩ := Option.map_eq_some_iff.mp hslots
  have hmem : ∀ child ∈ [Sharing.firstLeaf, Sharing.thirdLeaf], child ∈ node.children := by
    intro child hchild
    rw [← hchildren] at hchild
    exact List.mem_of_mem_take hchild
  exact ⟨node, hnode, hmem _ List.mem_cons_self,
    hmem _ (List.mem_cons_of_mem _ List.mem_cons_self)⟩

theorem firstLeaf_bucket :
    Sharing.prim.nodeAt spreadRun.2 Sharing.firstLeaf = some (.leaf [Sharing.first]) := by
  have hheld : Sharing.prim.blobAt spreadRun.2 Sharing.firstLeaf =
      some (Sharing.prim.encode (.leaf [Sharing.first])) := by decide +kernel
  rw [nodeAt, hheld, Option.bind_eq_bind, Option.bind_some, decode_encode_leaf]
  rfl

/-- The walk lists what it has read, says that this is not all, and what it lists resolves. -/
theorem hurried_walk_lists_part_sample :
    ∃ result, lossyRun.1 = .ok result ∧ result.complete = false ∧
      Sharing.first ∈ result.entries ∧
      Sharing.prim.ListsPart lossyRun.2 Sharing.spreadRoot result := by
  have hrun : spreadRun.1 = .ok (some Sharing.spreadRoot) ∧
      ((spreadRun.2.take 3).map Sharing.prim.blake3).Nodup ∧
      Hash.zero ∉ (spreadRun.2.take 3).map Sharing.prim.blake3 ∧
      ∀ blob ∈ spreadRun.2.drop 3, blob ∈ spreadRun.2.take 3 := by decide +kernel
  obtain ⟨hbuild, hnodup, hnonzero, hrepeated⟩ := hrun
  have hbuilt : Prog.Runs (Sharing.prim.StoreStep False)
      (Sharing.prim.treeCalls [.insert (.one Sharing.first) 1, .insert (.one Sharing.third) 1] none)
      [] spreadRun.1 spreadRun.2 := Sharing.prim.memoryStore_runs False _ _
  rw [hbuild] at hbuilt
  have htree : Sharing.prim.IsTree False spreadRun.2 (some Sharing.spreadRoot) :=
    ⟨_, [], spreadRun.2, hbuilt, List.Subset.refl _⟩
  have hfree := collisionFree_of_repeats hnodup hnonzero hrepeated
  rw [List.take_append_drop] at hfree
  obtain ⟨node, hnode, hfirst, hthird⟩ := spreadRoot_children
  obtain ⟨result, houtcome, hsame, hmissed, hread⟩ :=
    lossyWalk_lists Sharing.thirdLeaf htree hfree
  have hturned : Prog.Runs Sharing.prim.HurriedStep
      (Sharing.prim.walkEntriesParallel Sharing.spreadRoot) spreadRun.2 lossyRun.1 lossyRun.2 :=
    walkedInTime_runs _
  have hlists := hurried_walk_lists_part htree (houtcome ▸ hturned).turns (hsame.symm ▸ hfree)
  refine ⟨result, houtcome, hmissed (.child .root hnode hthird), ?_, hlists.2 result rfl⟩
  apply hread
  · exact .child (by decide +kernel) hnode hfirst (.root (by decide +kernel))
  · exact firstLeaf_bucket
  · exact List.mem_cons_self

end Primitives

end Registry

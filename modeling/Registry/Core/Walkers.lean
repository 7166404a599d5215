import Registry.Core.PathCopy
import Registry.Core.Readback

/-! # Walkers over a tree of which some nodes cannot be read

The depth-first walk gives up at the first node that cannot be read; the parallel one
goes on level by level, in whatever order its reads complete, and notes that it missed
something; warming the cache also reads the values. They all see the same tree.
-/

namespace Registry

open Effect BucketTrie

/-! ## The parallel walk -/

/-- What the parallel walk asks of the store and of the scheduler. -/
inductive WalkOp
  /-- Whether the deadline is still ahead. -/
  | remaining
  | prefetch (frontier : List Hash)
  /-- Which of the spawned reads completes next, with so many others after it. -/
  | joinNext (others : Nat)
  | get (hash : Hash)

abbrev walkSig : Signature where
  Op := WalkOp
  Res
    | .remaining => Bool
    | .prefetch _ => Unit
    | .joinNext others => Fin (others + 1)
    | .get _ => Except BlobStoreError (Option Bytes)

abbrev WalkProg := Prog walkSig Empty

def WalkOp.perform (op : WalkOp) : WalkProg (walkSig.Res op) := .call op .pure

/-- The entries of a walk, and whether it has read every node. -/
structure WalkOutcome where
  entries : List LeafEntry
  complete : Bool

/-- Where the parallel walk stands between two of its calls. -/
structure WalkState where
  frontier : List Hash
  entries : List LeafEntry
  complete : Bool

/-- Take in what a spawned read ended with. -/
def WalkState.join (state : WalkState) : Except HamtError HamtNode → WalkState
  | .ok (.leaf entries) => { state with entries := state.entries ++ entries }
  | .ok (.intermediate slots) =>
      { state with frontier := state.frontier ++ (List.finRange 256).filterMap slots }
  | .error _ => { state with complete := false }

namespace Primitives

variable (prim : Primitives)

/-- The task that is spawned for a node. -/
def readNodeTask (hash : Hash) : WalkProg (Except HamtError HamtNode) := do
  match ← (WalkOp.get hash).perform with
  | .error error => pure (.error (.blobStore error))
  | .ok none => pure (.error (.missingNode hash))
  | .ok (some bytes) => pure (prim.decode bytes hash)

/-- Join the reads of a level one by one. The flag is set unless the deadline passes. -/
def joinReads : Nat → List Hash → WalkState → WalkProg (WalkState × Bool)
  | 0, _, state => do
      if ← WalkOp.remaining.perform then pure (state, true)
      else pure ({ state with complete := false }, false)
  | _ + 1, [], state => do
      if ← WalkOp.remaining.perform then pure (state, true)
      else pure ({ state with complete := false }, false)
  | spawned + 1, first :: others, state => do
      if ← WalkOp.remaining.perform then do
        let next ← (WalkOp.joinNext others.length).perform
        let joined ← prim.readNodeTask ((first :: others).get next)
        joinReads spawned ((first :: others).eraseIdx next) (state.join joined)
      else pure ({ state with complete := false }, false)

def walkLevels : Nat → WalkState → WalkProg WalkState
  | 0, _ => .diverge
  | fuel + 1, state =>
      if state.frontier = [] then pure state
      else do
        if ← WalkOp.remaining.perform then do
          (WalkOp.prefetch state.frontier).perform
          let (state, inTime) ← prim.joinReads state.frontier.length state.frontier
            { state with frontier := [] }
          if inTime then walkLevels fuel state else pure state
        else pure { state with complete := false }

def walkEntriesParallel (root : Hash) : WalkProg WalkOutcome := do
  let state ← prim.walkLevels (hashCount + 1) ⟨[root], [], true⟩
  pure ⟨sortByKey state.entries, state.complete⟩

/-! ## Warming a cache -/

/-- Read a blob, whether it is there or not. -/
def fetch (hash : Hash) : HamtProg Unit :=
  .call (.get hash) fun
    | .error error => .throw (.blobStore error)
    | .ok _ => .pure ()

/-- Read every node and every value, and count the entries. -/
def warmCache : Nat → Hash → HamtProg Nat
  | 0, _ => .diverge
  | fuel + 1, root => do
      match ← prim.getNode root with
      | .leaf entries => do
          entries.foldlM (fun _ entry => fetch entry.hash) ()
          pure entries.length
      | .intermediate slots =>
          ((List.finRange 256).filterMap slots).foldlM (fun total child => do
            let count ← warmCache fuel child
            pure (total + count)) 0

/-! ## Nodes that cannot be read -/

/-- The answer to a read from which no node is decoded. -/
def Unread (hash : Hash) : Except BlobStoreError (Option Bytes) → Prop
  | .ok (some bytes) => ∃ error, prim.decode bytes hash = .error error
  | _ => True

/-- How reads are answered when some nodes cannot be read: the other nodes as they are
held, and the reads of some hashes without an error. -/
structure ReadAnswer (nodes unreadable answered : Set Hash) (blobs : Blobs) (hash : Hash)
    (response : Except BlobStoreError (Option Bytes)) : Prop where
  readable : hash ∈ nodes → hash ∉ unreadable → response = .ok (prim.blobAt blobs hash)
  unread : hash ∈ nodes → hash ∈ unreadable → prim.Unread hash response
  answered : hash ∈ answered → ∃ found, response = .ok found

def PartialStep (nodes unreadable answered : Set Hash) :
    (op : StoreOp) → Blobs → storeSig.Res op → Blobs → Prop
  | .put bytes, blobs, response, after => prim.StoreStep False (.put bytes) blobs response after
  | .get hash, blobs, response, after =>
      after = blobs ∧ prim.ReadAnswer nodes unreadable answered blobs hash response

/-- Reads complete in any order, and the deadline does not pass. -/
def WalkStep (nodes unreadable answered : Set Hash) :
    (op : WalkOp) → Blobs → walkSig.Res op → Blobs → Prop
  | .remaining, blobs, response, after => after = blobs ∧ response = true
  | .prefetch _, blobs, _, after => after = blobs
  | .joinNext _, blobs, _, after => after = blobs
  | .get hash, blobs, response, after =>
      after = blobs ∧ prim.ReadAnswer nodes unreadable answered blobs hash response

def partialSetting (nodes unreadable answered : Set Hash) (blobs : Blobs) :
    Setting storeSig Blobs where
  sem := prim.PartialStep nodes unreadable answered
  rely before after := after = before
  inv before := before = blobs
  guar _ _ := True
  rely_refl _ := rfl
  rely_trans hfirst hsecond := hsecond.trans hfirst

def parallelSetting (nodes unreadable answered : Set Hash) (blobs : Blobs) :
    Setting walkSig Blobs where
  sem := prim.WalkStep nodes unreadable answered
  rely before after := after = before
  inv before := before = blobs
  guar _ _ := True
  rely_refl _ := rfl
  rely_trans hfirst hsecond := hsecond.trans hfirst

/-- The nodes that a root leads to through nodes that can be read, the last one too. -/
inductive ReachesReadable (blobs : Blobs) (unreadable : Set Hash) : Hash → Hash → Prop
  | root {hash : Hash} (readable : hash ∉ unreadable) : ReachesReadable blobs unreadable hash hash
  | child {root child hash : Hash} {node : HamtNode} (readable : root ∉ unreadable)
      (held : prim.nodeAt blobs root = some node) (named : child ∈ node.children)
      (rest : ReachesReadable blobs unreadable child hash) :
      ReachesReadable blobs unreadable root hash

/-! ## What a trie lists -/

/-- The entries of a trie in the order of its slots. -/
def listed : HamtTrie → List LeafEntry
  | .empty => []
  | .leaf entries => entries
  | .node children => (List.finRange 256).flatMap fun slot => listed (children slot)

/-- The root node of a trie cannot be read. -/
def Hidden (unreadable : Set Hash) (trie : HamtTrie) : Prop :=
  ∃ hash ∈ unreadable, prim.hashOf trie = some hash

open Classical in
/-- The entries below nodes that can be read, in the order of the slots. -/
noncomputable def readEntries (unreadable : Set Hash) : HamtTrie → List LeafEntry
  | .empty => []
  | .leaf entries => if prim.Hidden unreadable (.leaf entries) then [] else entries
  | .node children =>
      if prim.Hidden unreadable (.node children) then []
      else (List.finRange 256).flatMap fun slot => readEntries unreadable (children slot)

/-- Every node of a trie can be read. -/
def AllRead (unreadable : Set Hash) : HamtTrie → Prop
  | .empty => True
  | .leaf entries => ¬ prim.Hidden unreadable (.leaf entries)
  | .node children => ¬ prim.Hidden unreadable (.node children) ∧
      ∀ slot, AllRead unreadable (children slot)

variable {prim}

theorem mem_listed {trie : HamtTrie} {entry : LeafEntry} :
    entry ∈ listed trie ↔ trie.Mem entry := by
  induction trie with
  | empty => simp [listed, Trie.Mem]
  | leaf entries => rfl
  | node children ih =>
      rw [listed, List.mem_flatMap]
      simp only [List.mem_finRange, true_and, ih, Trie.Mem]

/-- A well-formed trie lists every key once. -/
theorem nodup_listed {depth : Nat} {trie : HamtTrie} (hwf : prim.scheme.WellFormed depth trie) :
    ((listed trie).map LeafEntry.key).Nodup := by
  induction trie generalizing depth with
  | empty => exact List.nodup_nil
  | leaf entries => exact prim.scheme.nodup_keys_of_pairwise_lt hwf
  | node children ih =>
      rw [listed, List.map_flatMap, List.nodup_flatMap]
      refine ⟨fun slot _ => ih slot (hwf.2 slot).1, ?_⟩
      refine (List.nodup_finRange 256).imp fun {first second} hne key hfirst hsecond => ?_
      obtain ⟨left, hleft, rfl⟩ := List.mem_map.mp hfirst
      obtain ⟨right, hright, hkey⟩ := List.mem_map.mp hsecond
      have hroute := (hwf.2 first).2 left (mem_listed.mp hleft)
      have hother := (hwf.2 second).2 right (mem_listed.mp hright)
      rw [scheme_keyOf] at hroute hother
      rw [hkey, hroute] at hother
      exact hne (Option.some.inj hother)

theorem readEntries_sublist (unreadable : Set Hash) (trie : HamtTrie) :
    (prim.readEntries unreadable trie).Sublist (listed trie) := by
  induction trie with
  | empty => exact List.Sublist.refl _
  | leaf entries =>
      rw [readEntries]
      split
      next => exact List.nil_sublist _
      next => exact List.Sublist.refl _
  | node children ih =>
      rw [readEntries]
      split
      next => exact List.nil_sublist _
      next => exact List.Sublist.flatMap_right (List.finRange 256) fun slot _ => ih slot

theorem readEntries_eq_listed {unreadable : Set Hash} {trie : HamtTrie}
    (hall : prim.AllRead unreadable trie) : prim.readEntries unreadable trie = listed trie := by
  induction trie with
  | empty => rfl
  | leaf entries => exact if_neg hall
  | node children ih =>
      rw [readEntries, if_neg hall.1, listed]
      exact congrArg (fun f => (List.finRange 256).flatMap f)
        (funext fun slot => ih slot (hall.2 slot))

/-! ## Walks down the tree -/

section Serial

variable {nodes unreadable answered : Set Hash} {blobs : Blobs}

/-- A loop over the children of a node, slot by slot. -/
theorem foldChildren_valid {S : Setting storeSig Blobs} {β : Type} {step : β → Hash → HamtProg β}
    {fails : HamtError → Blobs → Prop} {slots : Slot → Option Hash}
    (I : List Slot → β → Blobs → Prop)
    (hskip : ∀ slot rest state world, slots slot = none → I (slot :: rest) state world →
      I rest state world)
    (hstep : ∀ slot rest state world child, slots slot = some child → I (slot :: rest) state world →
      Valid S (I rest) fails (step state child) world)
    {todo : List Slot} {state : β} {world : Blobs} (hinit : I todo state world) :
    Valid S (I []) fails ((todo.filterMap slots).foldlM step state) world := by
  induction todo generalizing state world with
  | nil => exact hinit
  | cons slot rest ih =>
      cases hslot : slots slot with
      | none =>
          rw [List.filterMap_cons_none hslot]
          exact ih (hskip slot rest state world hslot hinit)
      | some child =>
          rw [List.filterMap_cons_some hslot, List.foldlM_cons]
          apply Valid.bind
          exact Valid.mono (fun _ _ h => ih h) (fun _ _ h => h)
            (hstep slot rest state world child hslot hinit)

/-- The hashes of all nodes of a trie are among these. -/
def NodesIn (prim : Primitives) (nodes : Set Hash) (trie : HamtTrie) : Prop :=
  ∀ path hash, prim.hashOf (trie.descend path) = some hash → hash ∈ nodes

theorem NodesIn.root {trie : HamtTrie} {hash : Hash} (hnodes : prim.NodesIn nodes trie)
    (hhash : prim.hashOf trie = some hash) : hash ∈ nodes :=
  hnodes [] hash ((Trie.descend_nil trie).symm ▸ hhash)

theorem NodesIn.child {children : Slot → HamtTrie} (hnodes : prim.NodesIn nodes (.node children))
    (slot : Slot) : prim.NodesIn nodes (children slot) :=
  fun path hash hhash => hnodes (slot :: path) hash hhash

/-- The root node of a trie is read, or the trie is hidden. -/
theorem ReadAnswer.cases_node {trie : HamtTrie} {hash : Hash}
    {response : Except BlobStoreError (Option Bytes)}
    (hanswer : prim.ReadAnswer nodes unreadable answered blobs hash response)
    (hfree : prim.CollisionFree {held | held ∈ blobs}) (hstored : prim.Stored blobs trie)
    (hhash : prim.hashOf trie = some hash) (hnodes : prim.NodesIn nodes trie) :
    (¬ prim.Hidden unreadable trie ∧ ∃ bytes, response = .ok (some bytes) ∧
      prim.decode bytes hash = .ok (prim.nodeOf trie)) ∨
    (prim.Hidden unreadable trie ∧ prim.Unread hash response) := by
  by_cases hunreadable : hash ∈ unreadable
  · exact Or.inr ⟨⟨hash, hunreadable, hhash⟩, hanswer.unread (hnodes.root hhash) hunreadable⟩
  · obtain ⟨bytes, hget, hdecode⟩ := hstored.decode_root hfree hhash
    refine Or.inl ⟨?_, bytes, ?_, hdecode⟩
    · rintro ⟨other, hother, hsame⟩
      rw [hhash] at hsame
      exact hunreadable (Option.some.inj hsame ▸ hother)
    · rw [hanswer.readable (hnodes.root hhash) hunreadable, hget]

theorem getNode_partial_valid (hfree : prim.CollisionFree {held | held ∈ blobs}) {trie : HamtTrie}
    {hash : Hash} (hstored : prim.Stored blobs trie) (hhash : prim.hashOf trie = some hash)
    (hnodes : prim.NodesIn nodes trie) :
    Valid (prim.partialSetting nodes unreadable answered blobs)
      (fun node after => after = blobs ∧ ¬ prim.Hidden unreadable trie ∧ node = prim.nodeOf trie)
      (fun _ _ => prim.Hidden unreadable trie) (prim.getNode hash) blobs := by
  rintro before rfl hinv response after ⟨rfl, hanswer⟩
  refine ⟨hinv, trivial, ?_⟩
  obtain ⟨hread, bytes, rfl, hdecode⟩ | ⟨hhidden, hunread⟩ :=
    hanswer.cases_node hfree hstored hhash hnodes
  · dsimp only
    rw [hdecode]
    exact ⟨rfl, hread, rfl⟩
  · match response with
    | .error error => exact hhidden
    | .ok none => exact hhidden
    | .ok (some bytes) =>
        obtain ⟨error, hdecode⟩ := hunread
        dsimp only
        rw [hdecode]
        exact hhidden

theorem height_child_lt (children : Slot → HamtTrie) (slot : Slot) :
    height (children slot) < height (.node children) :=
  Nat.lt_succ_of_le (Finset.le_sup (f := fun slot => height (children slot)) (Finset.mem_univ slot))

theorem eq_empty_of_hashOf {trie : HamtTrie} (hnone : prim.hashOf trie = none) : trie = .empty := by
  cases trie with
  | empty => rfl
  | leaf entries => cases hnone
  | node children => cases hnone

/-- A walk over the children of a node sees all their entries, through some view of
them, if every child can be read. -/
theorem walkChildren_valid {β : Type} {step : β → Hash → HamtProg β} {children : Slot → HamtTrie}
    (view : List LeafEntry → β)
    (hstep : ∀ slot child out, prim.hashOf (children slot) = some child →
      Valid (prim.partialSetting nodes unreadable answered blobs)
        (fun next after => after = blobs ∧ prim.AllRead unreadable (children slot) ∧
          next = view (out ++ listed (children slot)))
        (fun _ _ => ¬ prim.AllRead unreadable (children slot)) (step (view out) child) blobs) :
    Valid (prim.partialSetting nodes unreadable answered blobs)
      (fun final after => after = blobs ∧ (∀ slot, prim.AllRead unreadable (children slot)) ∧
        final = view ((List.finRange 256).flatMap fun slot => listed (children slot)))
      (fun _ _ => ¬ ∀ slot, prim.AllRead unreadable (children slot))
      (((List.finRange 256).filterMap fun slot => prim.hashOf (children slot)).foldlM
        step (view []))
      blobs := by
  -- The children before the ones still to do have been read and seen.
  let I : List Slot → β → Blobs → Prop := fun rest state middle =>
    middle = blobs ∧ ∃ done, List.finRange 256 = done ++ rest ∧
      (∀ slot ∈ done, prim.AllRead unreadable (children slot)) ∧
      state = view (done.flatMap fun slot => listed (children slot))
  have hgrow : ∀ {slot done}, (∀ slot ∈ done, prim.AllRead unreadable (children slot)) →
      prim.AllRead unreadable (children slot) →
        ∀ other ∈ done ++ [slot], prim.AllRead unreadable (children other) := by
    intro slot done hall hslot other hother
    rcases List.mem_append.mp hother with hold | hnew
    · exact hall other hold
    · exact List.mem_singleton.mp hnew ▸ hslot
  have hinit : I (List.finRange 256) (view []) blobs :=
    ⟨rfl, [], (List.nil_append _).symm, fun _ h => absurd h List.not_mem_nil, rfl⟩
  refine Valid.mono ?_ (fun _ _ h => h) (foldChildren_valid I ?_ ?_ hinit)
  · rintro state last ⟨rfl, done, hdone, hall, rfl⟩
    rw [List.append_nil] at hdone
    subst hdone
    exact ⟨rfl, fun slot => hall slot (List.mem_finRange slot), rfl⟩
  · rintro slot rest state middle hslot ⟨rfl, done, hdone, hall, rfl⟩
    have hempty : children slot = .empty := eq_empty_of_hashOf hslot
    refine ⟨rfl, done ++ [slot], by simp [hdone], hgrow hall ?_, by simp [hempty, listed]⟩
    rw [hempty]
    trivial
  · rintro slot rest state middle child hslot ⟨rfl, done, hdone, hall, rfl⟩
    refine Valid.mono ?_ (fun _ _ hmissed hread => hmissed (hread slot)) (hstep slot child _ hslot)
    rintro next last ⟨rfl, hchild, rfl⟩
    exact ⟨rfl, done ++ [slot], by simp [hdone], hgrow hall hchild, by simp⟩

/-- The depth-first walk lists the trie if every node of it can be read, and fails
otherwise. -/
theorem walkEntries_partial_valid (hfree : prim.CollisionFree {held | held ∈ blobs}) {fuel : Nat}
    {trie : HamtTrie} {root : Hash} (hfuel : height trie ≤ fuel) (hstored : prim.Stored blobs trie)
    (hhash : prim.hashOf trie = some root) (hnodes : prim.NodesIn nodes trie) :
    Valid (prim.partialSetting nodes unreadable answered blobs)
      (fun entries after => after = blobs ∧ prim.AllRead unreadable trie ∧ entries = listed trie)
      (fun _ _ => ¬ prim.AllRead unreadable trie) (prim.walkEntries fuel root) blobs := by
  induction fuel generalizing trie root with
  | zero =>
      cases trie with
      | empty => cases hhash
      | leaf entries => cases hfuel
      | node children => cases hfuel
  | succ fuel ih =>
      rw [walkEntries]
      apply Valid.bind
      have hgot : Valid (prim.partialSetting nodes unreadable answered blobs) _ _ _ _ :=
        getNode_partial_valid hfree hstored hhash hnodes
      cases trie with
      | empty => cases hhash
      | leaf entries =>
          refine Valid.mono ?_ (fun _ _ hhidden hread => hread hhidden) hgot
          rintro node after ⟨rfl, hread, rfl⟩
          exact ⟨rfl, hread, rfl⟩
      | node children =>
          refine Valid.mono ?_ (fun _ _ hhidden hread => hread.1 hhidden) hgot
          rintro node after ⟨rfl, hread, rfl⟩
          refine Valid.mono ?_ (fun _ _ hmissed hall => hmissed hall.2) (walkChildren_valid id ?_)
          · rintro out last ⟨rfl, hall, rfl⟩
            exact ⟨rfl, ⟨hread, hall⟩, rfl⟩
          · intro slot child out hslot
            have hheight := height_child_lt children slot
            apply Valid.bind
            refine Valid.mono ?_ (fun _ _ h => h)
              (ih (by omega) (hstored.2 slot) hslot (hnodes.child slot))
            rintro entries last ⟨rfl, hchild, rfl⟩
            exact ⟨rfl, hchild, rfl⟩

theorem fetch_valid {hash : Hash} (hanswered : hash ∈ answered) {fails : HamtError → Blobs → Prop} :
    Valid (prim.partialSetting nodes unreadable answered blobs) (fun _ after => after = blobs) fails
      (fetch hash) blobs := by
  rintro before rfl hinv response after ⟨rfl, hanswer⟩
  refine ⟨hinv, trivial, ?_⟩
  obtain ⟨found, rfl⟩ := hanswer.answered hanswered
  rfl

/-- Warming the cache counts the entries of the trie, if every node of it can be read. -/
theorem warmCache_valid (hfree : prim.CollisionFree {held | held ∈ blobs}) {fuel : Nat}
    {trie : HamtTrie} {root : Hash} (hfuel : height trie ≤ fuel) (hstored : prim.Stored blobs trie)
    (hhash : prim.hashOf trie = some root) (hnodes : prim.NodesIn nodes trie)
    (hvalues : ∀ entry, trie.Mem entry → entry.hash ∈ answered) :
    Valid (prim.partialSetting nodes unreadable answered blobs)
      (fun count after => after = blobs ∧ prim.AllRead unreadable trie ∧
        count = (listed trie).length)
      (fun _ _ => ¬ prim.AllRead unreadable trie) (prim.warmCache fuel root) blobs := by
  induction fuel generalizing trie root with
  | zero =>
      cases trie with
      | empty => cases hhash
      | leaf entries => cases hfuel
      | node children => cases hfuel
  | succ fuel ih =>
      rw [warmCache]
      apply Valid.bind
      have hgot : Valid (prim.partialSetting nodes unreadable answered blobs) _ _ _ _ :=
        getNode_partial_valid hfree hstored hhash hnodes
      cases trie with
      | empty => cases hhash
      | leaf entries =>
          refine Valid.mono ?_ (fun _ _ hhidden hread => hread hhidden) hgot
          rintro node after ⟨rfl, hread, rfl⟩
          let I : List LeafEntry → Unit → Blobs → Prop := fun rest _ middle =>
            middle = after ∧ rest ⊆ entries
          have hinit : I entries () after := ⟨rfl, List.Subset.refl _⟩
          apply Valid.bind
          refine Valid.mono ?_ (fun _ _ h => h) (Valid.foldlM I ?_ hinit)
          · rintro done last ⟨rfl, -⟩
            exact ⟨rfl, hread, rfl⟩
          · rintro entry rest done middle ⟨rfl, hrest⟩
            refine Valid.mono ?_ (fun _ _ h => h)
              (fetch_valid (hvalues entry (hrest List.mem_cons_self)))
            rintro next last rfl
            exact ⟨rfl, fun other hother => hrest (List.mem_cons_of_mem _ hother)⟩
      | node children =>
          refine Valid.mono ?_ (fun _ _ hhidden hread => hread.1 hhidden) hgot
          rintro node after ⟨rfl, hread, rfl⟩
          refine Valid.mono ?_ (fun _ _ hmissed hall => hmissed hall.2)
            (walkChildren_valid List.length ?_)
          · rintro total last ⟨rfl, hall, rfl⟩
            exact ⟨rfl, ⟨hread, hall⟩, rfl⟩
          · intro slot child out hslot
            have hheight := height_child_lt children slot
            apply Valid.bind
            refine Valid.mono ?_ (fun _ _ h => h)
              (ih (by omega) (hstored.2 slot) hslot (hnodes.child slot)
                fun entry hentry => hvalues entry ⟨slot, hentry⟩)
            rintro count last ⟨rfl, hchild, rfl⟩
            exact ⟨rfl, hchild, List.length_append.symm⟩

end Serial

/-! ## Walks level by level -/

section Parallel

variable {nodes unreadable answered : Set Hash} {blobs : Blobs}

/-- Hashes waiting to be read, with the tries that they stand for. -/
structure Waiting (prim : Primitives) (nodes : Set Hash) (blobs : Blobs) (bound : Nat)
    (tries : List HamtTrie) (hashes : List Hash) : Prop where
  named : tries.map prim.hashOf = hashes.map some
  stored : ∀ trie ∈ tries, prim.Stored blobs trie
  nodes : ∀ trie ∈ tries, prim.NodesIn nodes trie
  height : ∀ trie ∈ tries, height trie ≤ bound

theorem Waiting.length_eq {bound : Nat} {tries : List HamtTrie} {hashes : List Hash}
    (hwaiting : prim.Waiting nodes blobs bound tries hashes) : tries.length = hashes.length := by
  simpa using congrArg List.length hwaiting.named

theorem Waiting.nil (bound : Nat) : prim.Waiting nodes blobs bound [] [] :=
  ⟨rfl, fun _ h => absurd h List.not_mem_nil, fun _ h => absurd h List.not_mem_nil,
    fun _ h => absurd h List.not_mem_nil⟩

theorem Waiting.append {bound : Nat} {tries others : List HamtTrie} {hashes more : List Hash}
    (hwaiting : prim.Waiting nodes blobs bound tries hashes)
    (hothers : prim.Waiting nodes blobs bound others more) :
    prim.Waiting nodes blobs bound (tries ++ others) (hashes ++ more) where
  named := by rw [List.map_append, List.map_append, hwaiting.named, hothers.named]
  stored trie htrie := (List.mem_append.mp htrie).elim (hwaiting.stored trie) (hothers.stored trie)
  nodes trie htrie := (List.mem_append.mp htrie).elim (hwaiting.nodes trie) (hothers.nodes trie)
  height trie htrie := (List.mem_append.mp htrie).elim (hwaiting.height trie) (hothers.height trie)

theorem Waiting.eraseIdx {bound : Nat} {tries : List HamtTrie} {hashes : List Hash}
    (hwaiting : prim.Waiting nodes blobs bound tries hashes) (place : Nat) :
    prim.Waiting nodes blobs bound (tries.eraseIdx place) (hashes.eraseIdx place) where
  named := by rw [← List.eraseIdx_map, ← List.eraseIdx_map, hwaiting.named]
  stored trie htrie := hwaiting.stored trie (List.mem_of_mem_eraseIdx htrie)
  nodes trie htrie := hwaiting.nodes trie (List.mem_of_mem_eraseIdx htrie)
  height trie htrie := hwaiting.height trie (List.mem_of_mem_eraseIdx htrie)

/-- The children that a node has. -/
def present (prim : Primitives) (children : Slot → HamtTrie) : List HamtTrie :=
  ((List.finRange 256).map children).filter fun trie => (prim.hashOf trie).isSome

theorem mem_present {children : Slot → HamtTrie} {trie : HamtTrie} :
    trie ∈ prim.present children ↔ (prim.hashOf trie).isSome ∧ ∃ slot, children slot = trie := by
  simp [present, and_comm]

theorem Waiting.present {bound : Nat} {children : Slot → HamtTrie}
    (hstored : ∀ slot, prim.Stored blobs (children slot))
    (hnodes : ∀ slot, prim.NodesIn nodes (children slot))
    (hheight : ∀ slot, Primitives.height (children slot) ≤ bound) :
    prim.Waiting nodes blobs bound (prim.present children)
      ((List.finRange 256).filterMap fun slot => prim.hashOf (children slot)) where
  named := by
    rw [Primitives.present]
    induction List.finRange 256 with
    | nil => rfl
    | cons slot rest ih =>
        cases hslot : prim.hashOf (children slot) with
        | none => simpa [hslot] using ih
        | some hash => simpa [hslot] using ih
  stored trie htrie := by
    obtain ⟨-, slot, rfl⟩ := mem_present.mp htrie
    exact hstored slot
  nodes trie htrie := by
    obtain ⟨-, slot, rfl⟩ := mem_present.mp htrie
    exact hnodes slot
  height trie htrie := by
    obtain ⟨-, slot, rfl⟩ := mem_present.mp htrie
    exact hheight slot

theorem flatMap_present (unreadable : Set Hash) (children : Slot → HamtTrie) :
    (prim.present children).flatMap (prim.readEntries unreadable) =
      (List.finRange 256).flatMap fun slot => prim.readEntries unreadable (children slot) := by
  rw [present]
  induction List.finRange 256 with
  | nil => rfl
  | cons slot rest ih =>
      rw [List.map_cons, List.flatMap_cons, ← ih]
      cases hslot : prim.hashOf (children slot) with
      | none =>
          rw [List.filter_cons_of_neg (by simp [hslot]), eq_empty_of_hashOf hslot]
          rfl
      | some hash => rw [List.filter_cons_of_pos (by simp [hslot]), List.flatMap_cons]

theorem allRead_present {unreadable : Set Hash} {children : Slot → HamtTrie} :
    (∀ trie ∈ prim.present children, prim.AllRead unreadable trie) ↔
      ∀ slot, prim.AllRead unreadable (children slot) := by
  constructor
  · intro hall slot
    cases hslot : prim.hashOf (children slot) with
    | none =>
        rw [eq_empty_of_hashOf hslot]
        trivial
    | some hash => exact hall _ (mem_present.mpr ⟨by rw [hslot]; rfl, slot, rfl⟩)
  · intro hall trie htrie
    obtain ⟨-, slot, rfl⟩ := mem_present.mp htrie
    exact hall slot

/-- The parallel walk has not lost anything: what it has and what it still waits for are,
in some order, the entries of its start, and it knows whether it has missed a node. -/
structure Accounts (prim : Primitives) (unreadable : Set Hash) (state : WalkState)
    (tries : List HamtTrie) (total : List LeafEntry) (whole : Prop) : Prop where
  entries : (state.entries ++ tries.flatMap (prim.readEntries unreadable)).Perm total
  complete : (state.complete = true ∧ ∀ trie ∈ tries, prim.AllRead unreadable trie) ↔ whole

theorem Accounts.perm {state : WalkState} {tries others : List HamtTrie} {total : List LeafEntry}
    {whole : Prop} (haccounts : prim.Accounts unreadable state tries total whole)
    (hperm : others.Perm tries) : prim.Accounts unreadable state others total whole where
  entries := ((hperm.flatMap_right _).append_left _).trans haccounts.entries
  complete := by
    rw [← haccounts.complete]
    simp only [hperm.mem_iff]

/-- The tries that a read node adds to the next level. -/
def childTries (prim : Primitives) : HamtTrie → List HamtTrie
  | .node children => prim.present children
  | _ => []

/-- A node that was read is replaced by its entries or its children. -/
theorem Accounts.join_read {state : WalkState} {trie : HamtTrie} {tries : List HamtTrie}
    {total : List LeafEntry} {whole : Prop}
    (haccounts : prim.Accounts unreadable state (trie :: tries) total whole)
    (hsome : trie ≠ .empty) (hread : ¬ prim.Hidden unreadable trie) :
    prim.Accounts unreadable (state.join (.ok (prim.nodeOf trie))) (prim.childTries trie ++ tries)
      total whole := by
  obtain ⟨hentries, hcomplete⟩ := haccounts
  rw [List.flatMap_cons] at hentries
  rw [List.forall_mem_cons] at hcomplete
  cases trie with
  | empty => exact absurd rfl hsome
  | leaf entries =>
      rw [readEntries, if_neg hread, ← List.append_assoc] at hentries
      refine ⟨hentries, ?_⟩
      rw [← hcomplete]
      exact and_congr_right fun _ => (and_iff_right hread).symm
  | node children =>
      rw [readEntries, if_neg hread, ← flatMap_present, ← List.flatMap_append] at hentries
      refine ⟨hentries, ?_⟩
      rw [← hcomplete, childTries, List.forall_mem_append, allRead_present]
      exact and_congr_right fun _ => and_congr_left fun _ => (and_iff_right hread).symm

/-- A node that could not be read is given up, with all that is below it. -/
theorem Accounts.join_error {state : WalkState} {trie : HamtTrie} {tries : List HamtTrie}
    {total : List LeafEntry} {whole : Prop} {error : HamtError}
    (haccounts : prim.Accounts unreadable state (trie :: tries) total whole)
    (hhidden : prim.Hidden unreadable trie) :
    prim.Accounts unreadable (state.join (.error error)) tries total whole := by
  obtain ⟨hentries, hcomplete⟩ := haccounts
  rw [List.flatMap_cons] at hentries
  rw [List.forall_mem_cons] at hcomplete
  have hmissed : ¬ prim.AllRead unreadable trie ∧ prim.readEntries unreadable trie = [] := by
    cases trie with
    | empty =>
        obtain ⟨hash, -, hhash⟩ := hhidden
        cases hhash
    | leaf entries => exact ⟨fun hread => hread hhidden, if_pos hhidden⟩
    | node children => exact ⟨fun hread => hread.1 hhidden, if_pos hhidden⟩
  rw [hmissed.2, List.nil_append] at hentries
  refine ⟨hentries, ?_⟩
  rw [← hcomplete]
  simp only [WalkState.join, Bool.false_eq_true, false_and, hmissed.1, and_false]

theorem Waiting.join_read {bound : Nat} {state : WalkState} {trie : HamtTrie} {next : List HamtTrie}
    (hnext : prim.Waiting nodes blobs bound next state.frontier)
    (hstored : prim.Stored blobs trie) (hnodes : prim.NodesIn nodes trie)
    (hheight : Primitives.height trie ≤ bound + 1) :
    prim.Waiting nodes blobs bound (next ++ prim.childTries trie)
      (state.join (.ok (prim.nodeOf trie))).frontier := by
  cases trie with
  | empty => exact (List.append_nil next).symm ▸ hnext
  | leaf entries => exact (List.append_nil next).symm ▸ hnext
  | node children =>
      apply hnext.append
      apply Waiting.present hstored.2 hnodes.child
      intro slot
      have hchild := height_child_lt children slot
      omega

theorem readNodeTask_valid (hfree : prim.CollisionFree {held | held ∈ blobs}) {trie : HamtTrie}
    {hash : Hash} (hstored : prim.Stored blobs trie) (hhash : prim.hashOf trie = some hash)
    (hnodes : prim.NodesIn nodes trie) :
    Valid (prim.parallelSetting nodes unreadable answered blobs)
      (fun joined after => after = blobs ∧
        ((¬ prim.Hidden unreadable trie ∧ joined = .ok (prim.nodeOf trie)) ∨
          (prim.Hidden unreadable trie ∧ ∃ error, joined = .error error)))
      (fun _ _ => False) (prim.readNodeTask hash) blobs := by
  rintro before rfl hinv response after ⟨rfl, hanswer⟩
  refine ⟨hinv, trivial, ?_⟩
  obtain ⟨hread, bytes, rfl, hdecode⟩ | ⟨hhidden, hunread⟩ :=
    hanswer.cases_node hfree hstored hhash hnodes
  · exact ⟨rfl, Or.inl ⟨hread, hdecode⟩⟩
  · match response with
    | .error error => exact ⟨rfl, Or.inr ⟨hhidden, _, rfl⟩⟩
    | .ok none => exact ⟨rfl, Or.inr ⟨hhidden, _, rfl⟩⟩
    | .ok (some bytes) =>
        obtain ⟨error, hdecode⟩ := hunread
        exact ⟨rfl, Or.inr ⟨hhidden, error, hdecode⟩⟩

/-- The deadline is ahead whenever it is looked at. -/
theorem remaining_valid {α : Type} {early late : WalkProg α} {post : α → Blobs → Prop}
    (hvalid : Valid (prim.parallelSetting nodes unreadable answered blobs) post (fun _ _ => False)
      early blobs) :
    Valid (prim.parallelSetting nodes unreadable answered blobs) post (fun _ _ => False)
      (WalkOp.remaining.perform >>= fun ahead => if ahead then early else late) blobs := by
  rintro before rfl hinv response after ⟨rfl, rfl⟩
  exact ⟨hinv, trivial, hvalid⟩

/-- Joining the reads of a level, in whatever order they complete, accounts for the same
entries. -/
theorem joinReads_valid (hfree : prim.CollisionFree {held | held ∈ blobs}) {bound spawned : Nat}
    {tries next : List HamtTrie} {pending : List Hash} {state : WalkState} {total : List LeafEntry}
    {whole : Prop} (hspawned : pending.length = spawned)
    (hpending : prim.Waiting nodes blobs (bound + 1) tries pending)
    (hnext : prim.Waiting nodes blobs bound next state.frontier)
    (haccounts : prim.Accounts unreadable state (tries ++ next) total whole) :
    Valid (prim.parallelSetting nodes unreadable answered blobs)
      (fun result after => after = blobs ∧ result.2 = true ∧ ∃ level,
        prim.Waiting nodes blobs bound level result.1.frontier ∧
          prim.Accounts unreadable result.1 level total whole)
      (fun _ _ => False) (prim.joinReads spawned pending state) blobs := by
  induction spawned generalizing tries next pending state with
  | zero =>
      obtain rfl := List.length_eq_zero_iff.mp hspawned
      obtain rfl := List.length_eq_zero_iff.mp hpending.length_eq
      exact remaining_valid ⟨rfl, rfl, next, hnext, haccounts⟩
  | succ spawned ih =>
      cases pending with
      | nil => cases hspawned
      | cons first others =>
          apply remaining_valid
          rintro before rfl hinv choice after rfl
          suffices hjoin : Valid (prim.parallelSetting nodes unreadable answered after) _ _
              (prim.readNodeTask ((first :: others).get choice) >>= fun joined =>
                prim.joinReads spawned ((first :: others).eraseIdx choice) (state.join joined))
              after
            from ⟨hinv, trivial, hjoin⟩
          have hplace : choice.val < tries.length := by
            rw [hpending.length_eq]
            exact choice.isLt
          have hhash : prim.hashOf tries[choice.val] = some ((first :: others).get choice) := by
            have hnamed : (tries.map prim.hashOf)[choice.val]? =
                ((first :: others).map some)[choice.val]? := by rw [hpending.named]
            rw [List.getElem?_map, List.getElem?_map, List.getElem?_eq_getElem hplace,
              List.getElem?_eq_getElem choice.isLt] at hnamed
            exact Option.some.inj hnamed
          have hmem : tries[choice.val] ∈ tries := List.getElem_mem hplace
          have htries : (tries[choice.val] :: (tries.eraseIdx choice.val ++ next)).Perm
              (tries ++ next) :=
            (List.getElem_cons_eraseIdx_perm hplace).append_right next
          have hjoined := haccounts.perm htries
          have hrest := hpending.eraseIdx choice.val
          have hlength : ((first :: others).eraseIdx choice.val).length = spawned := by
            rw [List.length_eraseIdx_of_lt choice.isLt, hspawned]
            rfl
          apply Valid.bind
          refine Valid.mono ?_ (fun _ _ h => h) (readNodeTask_valid hfree
            (hpending.stored _ hmem) hhash (hpending.nodes _ hmem))
          rintro joined last ⟨rfl, ⟨hread, rfl⟩ | ⟨hhidden, error, rfl⟩⟩
          · refine ih hlength hrest (hnext.join_read (hpending.stored _ hmem)
              (hpending.nodes _ hmem) (hpending.height _ hmem)) ?_
            have hsome : tries[choice.val] ≠ .empty := by
              intro hempty
              rw [hempty] at hhash
              cases hhash
            refine (hjoined.join_read hsome hread).perm ?_
            rw [← List.append_assoc]
            exact List.perm_append_comm
          · exact ih hlength hrest hnext (hjoined.join_error hhidden)

theorem Waiting.eq_nil {tries : List HamtTrie} {hashes : List Hash}
    (hwaiting : prim.Waiting nodes blobs 0 tries hashes) : hashes = [] := by
  cases hashes with
  | nil => rfl
  | cons hash rest =>
      have hnamed := hwaiting.named
      cases tries with
      | nil => cases hnamed
      | cons trie others =>
          cases trie with
          | empty => cases hnamed
          | leaf entries =>
              exact absurd (hwaiting.height _ List.mem_cons_self) (Nat.not_succ_le_zero _)
          | node children =>
              exact absurd (hwaiting.height _ List.mem_cons_self) (Nat.not_succ_le_zero _)

theorem walkLevels_valid (hfree : prim.CollisionFree {held | held ∈ blobs}) {fuel bound : Nat}
    {tries : List HamtTrie} {state : WalkState} {total : List LeafEntry} {whole : Prop}
    (hfuel : bound < fuel) (hwaiting : prim.Waiting nodes blobs bound tries state.frontier)
    (haccounts : prim.Accounts unreadable state tries total whole) :
    Valid (prim.parallelSetting nodes unreadable answered blobs)
      (fun final after => after = blobs ∧ final.entries.Perm total ∧
        (final.complete = true ↔ whole))
      (fun _ _ => False) (prim.walkLevels fuel state) blobs := by
  induction fuel generalizing bound tries state with
  | zero => omega
  | succ fuel ih =>
      rw [walkLevels]
      by_cases hfrontier : state.frontier = []
      · rw [if_pos hfrontier]
        have hempty := hwaiting.length_eq
        rw [hfrontier] at hempty
        obtain rfl := List.length_eq_zero_iff.mp hempty
        refine ⟨rfl, ?_, ?_⟩
        · exact (List.append_nil state.entries).symm ▸ haccounts.entries
        · rw [← haccounts.complete]
          exact (and_iff_left fun _ h => absurd h List.not_mem_nil).symm
      · rw [if_neg hfrontier]
        cases bound with
        | zero => exact absurd hwaiting.eq_nil hfrontier
        | succ bound =>
            apply remaining_valid
            rintro before rfl hinv response after rfl
            suffices hlevel : Valid (prim.parallelSetting nodes unreadable answered after) _ _
                (prim.joinReads state.frontier.length state.frontier
                  { state with frontier := [] } >>=
                  fun result => if result.2 then prim.walkLevels fuel result.1 else pure result.1)
                after
              from ⟨hinv, trivial, hlevel⟩
            have hlevel : prim.Accounts unreadable { state with frontier := [] } (tries ++ []) total
                whole := by
              rw [List.append_nil]
              exact ⟨haccounts.entries, haccounts.complete⟩
            apply Valid.bind
            refine Valid.mono ?_ (fun _ _ h => h)
              (joinReads_valid hfree rfl hwaiting (Waiting.nil bound) hlevel)
            rintro ⟨next, inTime⟩ last ⟨rfl, hinTime, level, hnext, hlevel⟩
            obtain rfl : inTime = true := hinTime
            exact ih (by omega) hnext hlevel

/-- The parallel walk sorts what can be read, and knows whether that is everything. -/
theorem walkEntriesParallel_valid (hfree : prim.CollisionFree {held | held ∈ blobs})
    {trie : HamtTrie} {root : Hash} (hstored : prim.Stored blobs trie)
    (hhash : prim.hashOf trie = some root) (hnodes : prim.NodesIn nodes trie) :
    Valid (prim.parallelSetting nodes unreadable answered blobs)
      (fun result after => after = blobs ∧
        (∃ entries, entries.Perm (prim.readEntries unreadable trie) ∧
          result.entries = sortByKey entries) ∧
        (result.complete = true ↔ prim.AllRead unreadable trie))
      (fun _ _ => False) (prim.walkEntriesParallel root) blobs := by
  have hheight : height trie ≤ hashCount :=
    ((Naming.canonical prim).reads ⟨hhash, hstored⟩).height_le hfree
  have hwaiting : prim.Waiting nodes blobs hashCount [trie] [root] :=
    ⟨congrArg (fun hash => [hash]) hhash, List.forall_mem_singleton.mpr hstored,
      List.forall_mem_singleton.mpr hnodes, List.forall_mem_singleton.mpr hheight⟩
  have haccounts : prim.Accounts unreadable ⟨[root], [], true⟩ [trie]
      (prim.readEntries unreadable trie) (prim.AllRead unreadable trie) := by
    refine ⟨?_, ?_⟩
    · rw [List.nil_append, List.flatMap_singleton]
    · rw [List.forall_mem_singleton]
      exact and_iff_right rfl
  rw [walkEntriesParallel]
  apply Valid.bind
  refine Valid.mono ?_ (fun _ _ h => h)
    (walkLevels_valid hfree (Nat.lt_succ_self hashCount) hwaiting haccounts)
  rintro final after ⟨rfl, hentries, hcomplete⟩
  exact ⟨rfl, ⟨_, hentries, rfl⟩, hcomplete⟩

end Parallel

/-! ## All walkers see the same tree -/

section Agree

variable {unreadable answered : Set Hash} {blobs : Blobs} {trie : HamtTrie} {root : Hash}

theorem not_hidden_iff {hash : Hash} (hhash : prim.hashOf trie = some hash) :
    ¬ prim.Hidden unreadable trie ↔ hash ∉ unreadable := by
  rw [not_iff_not]
  constructor
  · rintro ⟨other, hother, hsame⟩
    rw [hhash] at hsame
    exact Option.some.inj hsame ▸ hother
  · exact fun hmem => ⟨hash, hmem, hhash⟩

theorem allRead_iff_descend :
    prim.AllRead unreadable trie ↔ ∀ path, ¬ prim.Hidden unreadable (trie.descend path) := by
  have hempty : ¬ prim.Hidden unreadable .empty := by
    rintro ⟨hash, -, hhash⟩
    cases hhash
  induction trie with
  | empty => simpa [AllRead] using hempty
  | leaf entries =>
      refine ⟨fun hread path => ?_, fun hall => hall []⟩
      cases path with
      | nil => exact hread
      | cons slot path => exact hempty
  | node children ih =>
      constructor
      · rintro ⟨hread, hall⟩ path
        cases path with
        | nil => exact hread
        | cons slot path => exact (ih slot).mp (hall slot) path
      · intro hall
        exact ⟨hall [], fun slot => (ih slot).mpr fun path => hall (slot :: path)⟩

/-- A tree can be read when each node that its root leads to can. -/
theorem Stored.allRead_iff (hfree : prim.CollisionFree {held | held ∈ blobs})
    (hstored : prim.Stored blobs trie) (hroot : prim.hashOf trie = some root) :
    prim.AllRead unreadable trie ↔ ∀ hash, prim.ReachesNode blobs root hash →
      hash ∉ unreadable := by
  rw [allRead_iff_descend]
  constructor
  · intro hall hash hreaches
    obtain ⟨path, hpath⟩ := reachesNode_iff.mp hreaches
    exact (not_hidden_iff ((hstored.reachesAt_iff hfree hroot).mp hpath)).mp (hall path)
  · rintro hall path ⟨hash, hmem, hhash⟩
    have hreaches := (hstored.reachesAt_iff hfree hroot).mpr hhash
    exact hall hash (reachesNode_iff.mpr ⟨path, hreaches⟩) hmem

theorem Stored.nodesIn (hfree : prim.CollisionFree {held | held ∈ blobs})
    (hstored : prim.Stored blobs trie) (hroot : prim.hashOf trie = some root) :
    prim.NodesIn {hash | prim.ReachesNode blobs root hash} trie := fun path _ hhash =>
  reachesNode_iff.mpr ⟨path, (hstored.reachesAt_iff hfree hroot).mpr hhash⟩

/-- What can be read of a tree is in the leaves that lie behind readable nodes. -/
theorem Stored.mem_readEntries (hfree : prim.CollisionFree {held | held ∈ blobs})
    (hstored : prim.Stored blobs trie) (hroot : prim.hashOf trie = some root) {entry : LeafEntry} :
    entry ∈ prim.readEntries unreadable trie ↔
      ∃ hash bucket, prim.ReachesReadable blobs unreadable root hash ∧
        prim.nodeAt blobs hash = some (.leaf bucket) ∧ entry ∈ bucket := by
  have hread : ¬ prim.Hidden unreadable trie ↔ root ∉ unreadable := not_hidden_iff hroot
  have hnode := hstored.nodeAt hfree hroot
  induction trie generalizing root with
  | empty => cases hroot
  | leaf entries =>
      rw [readEntries]
      constructor
      · intro hentry
        split at hentry
        next => exact absurd hentry List.not_mem_nil
        next hshown => exact ⟨root, entries, .root (hread.mp hshown), hnode, hentry⟩
      · rintro ⟨hash, bucket, hreaches, hbucket, hentry⟩
        cases hreaches with
        | root readable =>
            rw [if_neg (hread.mpr readable)]
            rw [hnode] at hbucket
            cases hbucket
            exact hentry
        | child readable held named rest =>
            rw [hnode] at held
            cases held
            exact absurd named List.not_mem_nil
  | node children ih =>
      have hbelow : ∀ slot child, prim.hashOf (children slot) = some child → _ :=
        fun slot child hchild =>
          ih slot (hstored.2 slot) hchild (not_hidden_iff hchild)
            ((hstored.2 slot).nodeAt hfree hchild)
      rw [readEntries]
      constructor
      · intro hentry
        split at hentry
        next => exact absurd hentry List.not_mem_nil
        next hshown =>
          obtain ⟨slot, -, hslot⟩ := List.mem_flatMap.mp hentry
          cases hchild : prim.hashOf (children slot) with
          | none =>
              rw [eq_empty_of_hashOf hchild] at hslot
              exact absurd hslot List.not_mem_nil
          | some child =>
              obtain ⟨hash, bucket, hreaches, hbucket, hmem⟩ := (hbelow slot child hchild).mp hslot
              exact ⟨hash, bucket, .child (hread.mp hshown) hnode
                (mem_children_intermediate.mpr ⟨slot, hchild⟩) hreaches, hbucket, hmem⟩
      · rintro ⟨hash, bucket, hreaches, hbucket, hentry⟩
        cases hreaches with
        | root readable =>
            rw [hnode] at hbucket
            cases hbucket
        | child readable held named rest =>
            rw [hnode] at held
            cases held
            obtain ⟨slot, hslot⟩ := mem_children_intermediate.mp named
            rw [if_neg (hread.mpr readable)]
            exact List.mem_flatMap.mpr ⟨slot, List.mem_finRange slot,
              (hbelow slot _ hslot).mpr ⟨hash, bucket, rest, hbucket, hentry⟩⟩

theorem ReachesReadable.reachesNode {hash : Hash}
    (hreaches : prim.ReachesReadable blobs unreadable root hash) :
    prim.ReachesNode blobs root hash := by
  induction hreaches with
  | root readable => exact .root
  | child readable held named rest ih => exact ih.of_child held named

theorem readEntries_none (trie : HamtTrie) : prim.readEntries ∅ trie = listed trie := by
  apply readEntries_eq_listed
  apply allRead_iff_descend.mpr
  rintro path ⟨hash, hmem, -⟩
  exact hmem

/-- The value of every entry of a tree is a value that its root leads to. -/
theorem Stored.reachesValue (hfree : prim.CollisionFree {held | held ∈ blobs})
    (hstored : prim.Stored blobs trie) (hroot : prim.hashOf trie = some root) {entry : LeafEntry}
    (hentry : trie.Mem entry) : prim.ReachesValue blobs root entry.hash := by
  have hlisted : prim.readEntries ∅ trie = listed trie := readEntries_none trie
  rw [← mem_listed, ← hlisted] at hentry
  obtain ⟨hash, bucket, hreaches, hbucket, hmem⟩ :=
    (hstored.mem_readEntries hfree hroot).mp hentry
  exact ⟨hash, .leaf bucket, hreaches.reachesNode, hbucket, List.mem_map_of_mem hmem⟩

end Agree

/-- The nodes that a root leads to. -/
def treeNodes (prim : Primitives) (blobs : Blobs) (root : Hash) : Set Hash :=
  {hash | prim.ReachesNode blobs root hash}

/-- What the depth-first walk, the parallel walk, the warming of a cache and the lookup of
single keys find in one tree, of which some nodes cannot be read. -/
structure WalkersAgree (prim : Primitives) (blobs : Blobs) (root : Hash)
    (unreadable answered : Set Hash) (walked : Prog.Outcome HamtError (List LeafEntry))
    (parallel : Prog.Outcome Empty WalkOutcome) (warmed : Prog.Outcome HamtError Nat) : Prop where
  ends : walked ≠ .diverged
  read : (∃ entries, walked = .ok entries) ↔ ∀ hash ∈ prim.treeNodes blobs root, hash ∉ unreadable
  resolves : ∀ entries, walked = .ok entries → ∀ entry, entry ∈ entries ↔
    (prim.lookup (some root) entry.key).run prim.memoryStore blobs = (.ok (some entry), blobs)
  once : ∀ entries, walked = .ok entries → (entries.map LeafEntry.key).Nodup
  parallel : ∃ result, parallel = .ok result ∧
    (result.complete = true ↔ ∃ entries, walked = .ok entries) ∧
    (∀ entries, walked = .ok entries → result.entries = sortByKey entries) ∧
    (result.entries.Pairwise fun first second => first.key < second.key) ∧
    ∀ entry, entry ∈ result.entries ↔ ∃ hash bucket,
      prim.ReachesReadable blobs unreadable root hash ∧
        prim.nodeAt blobs hash = some (.leaf bucket) ∧ entry ∈ bucket
  warmed : (∀ value, prim.ReachesValue blobs root value → value ∈ answered) →
    (∀ entries, walked = .ok entries → warmed = .ok entries.length) ∧
      ∀ error, walked = .error error → ∃ error, warmed = .error error

theorem partialSetting_outcome {α : Type} {post : α → Blobs → Prop}
    {fails : HamtError → Blobs → Prop}
    {nodes unreadable answered : Set Hash} {blobs final : Blobs} {prog : HamtProg α}
    {outcome : Prog.Outcome HamtError α}
    (hvalid : Valid (prim.partialSetting nodes unreadable answered blobs) post fails prog blobs)
    (hruns : Prog.Runs (prim.PartialStep nodes unreadable answered) prog blobs outcome final) :
    outcome.Meets post fails final :=
  Valid.runs_outcome (S := prim.partialSetting nodes unreadable answered blobs) (fun _ => True)
    (fun _ _ _ _ _ _ => trivial) (fun _ _ _ _ hstep _ => hstep) hruns rfl hvalid trivial

/-- A parallel walk comes to its end with the entries of what it could read. -/
theorem walkEntriesParallel_outcome {nodes unreadable answered : Set Hash} {blobs final : Blobs}
    {trie : HamtTrie} {root : Hash} {outcome : Prog.Outcome Empty WalkOutcome}
    (hfree : prim.CollisionFree {held | held ∈ blobs}) (hstored : prim.Stored blobs trie)
    (hhash : prim.hashOf trie = some root) (hnodes : prim.NodesIn nodes trie)
    (hruns : Prog.Runs (prim.WalkStep nodes unreadable answered) (prim.walkEntriesParallel root)
      blobs outcome final) :
    ∃ result, outcome = .ok result ∧ final = blobs ∧
      (∃ entries, entries.Perm (prim.readEntries unreadable trie) ∧
        result.entries = sortByKey entries) ∧
      (result.complete = true ↔ prim.AllRead unreadable trie) := by
  have hended := Valid.runs_outcome (S := prim.parallelSetting nodes unreadable answered blobs)
    (fun _ => True) (fun _ _ _ _ _ _ => trivial) (fun _ _ _ _ hstep _ => hstep) hruns rfl
    (walkEntriesParallel_valid hfree hstored hhash hnodes) trivial
  cases outcome with
  | error error => exact hended.elim
  | diverged => exact hended.elim
  | ok result => exact ⟨result, rfl, hended⟩

/-- All walkers see the same tree, whichever of its nodes cannot be read and in whatever
order parallel reads complete. -/
theorem walkers_agree {root : Hash} {unreadable answered : Set Hash} {building : Prop}
    {walked : Prog.Outcome HamtError (List LeafEntry)} {parallel : Prog.Outcome Empty WalkOutcome}
    {warmed : Prog.Outcome HamtError Nat} {walkEnd parallelEnd warmEnd : Blobs}
    (htree : prim.IsTree building blobs (some root))
    (hfree : prim.CollisionFree {held | held ∈ blobs})
    (hwalk : Prog.Runs (prim.PartialStep (prim.treeNodes blobs root) unreadable answered)
      (prim.walkEntries hashCount root) blobs walked walkEnd)
    (hparallel : Prog.Runs (prim.WalkStep (prim.treeNodes blobs root) unreadable answered)
      (prim.walkEntriesParallel root) blobs parallel parallelEnd)
    (hwarm : Prog.Runs (prim.PartialStep (prim.treeNodes blobs root) unreadable answered)
      (prim.warmCache hashCount root) blobs warmed warmEnd) :
    prim.WalkersAgree blobs root unreadable answered walked parallel warmed := by
  obtain ⟨trie, hroot⟩ := htree.represents hfree
  have hheight : height trie ≤ hashCount :=
    ((Naming.canonical prim).reads ⟨hroot.hash, hroot.stored⟩).height_le hfree
  have hnodes := hroot.stored.nodesIn hfree hroot.hash
  have hall : prim.AllRead unreadable trie ↔
      ∀ hash ∈ prim.treeNodes blobs root, hash ∉ unreadable :=
    hroot.stored.allRead_iff hfree hroot.hash
  have hnodup := nodup_listed hroot.wellFormed
  have hwalked := partialSetting_outcome
    (walkEntries_partial_valid hfree hheight hroot.stored hroot.hash hnodes) hwalk
  have hlist : ∀ entries, walked = .ok entries →
      prim.AllRead unreadable trie ∧ entries = listed trie := by
    rintro entries rfl
    exact hwalked.2
  have hends : walked ≠ .diverged := by
    rintro rfl
    exact hwalked
  have hread : (∃ entries, walked = .ok entries) ↔ prim.AllRead unreadable trie := by
    constructor
    · rintro ⟨entries, hok⟩
      exact (hlist entries hok).1
    · intro hreadable
      cases walked with
      | ok entries => exact ⟨entries, rfl⟩
      | error error => exact absurd hreadable hwalked
      | diverged => exact absurd rfl hends
  refine ⟨hends, hread.trans hall, ?_, ?_, ?_, ?_⟩
  · intro entries hok entry
    rw [lookup_run hfree entry.key hroot, (hlist entries hok).2, mem_listed]
    constructor
    · intro hentry
      have hfind : prim.scheme.find entry.key trie 0 = some entry :=
        hroot.wellFormed.find_eq_some_iff.mpr ⟨hentry, rfl⟩
      rw [hfind]
    · intro hfound
      have hfind : prim.scheme.find entry.key trie 0 = some entry := by simpa using hfound
      exact (hroot.wellFormed.find_eq_some_iff.mp hfind).1
  · intro entries hok
    rw [(hlist entries hok).2]
    exact hnodup
  · obtain ⟨result, rfl, -, ⟨seen, hseen, hsorted⟩, hcomplete⟩ :=
      walkEntriesParallel_outcome hfree hroot.stored hroot.hash hnodes hparallel
    have hseenNodup : (seen.map LeafEntry.key).Nodup :=
      (hseen.map LeafEntry.key).nodup_iff.mpr
        (hnodup.sublist ((readEntries_sublist unreadable trie).map LeafEntry.key))
    refine ⟨result, rfl, hcomplete.trans hread.symm, ?_, ?_, ?_⟩
    · intro entries hok
      obtain ⟨hreadable, rfl⟩ := hlist entries hok
      rw [readEntries_eq_listed hreadable] at hseen
      rw [hsorted, ← scheme_sort prim, ← scheme_sort prim]
      exact prim.scheme.sort_congr hseen hnodup
    · rw [hsorted, ← scheme_sort prim]
      exact prim.scheme.sort_pairwise_lt hseenNodup
    · intro entry
      rw [hsorted, ← scheme_sort prim, prim.scheme.mem_sort, hseen.mem_iff]
      exact hroot.stored.mem_readEntries hfree hroot.hash
  · intro hvalues
    have hcounted := partialSetting_outcome
      (warmCache_valid hfree hheight hroot.stored hroot.hash hnodes fun entry hentry =>
        hvalues entry.hash (hroot.stored.reachesValue hfree hroot.hash hentry)) hwarm
    constructor
    · intro entries hok
      obtain ⟨hreadable, rfl⟩ := hlist entries hok
      cases warmed with
      | ok count => rw [hcounted.2.2]
      | error error => exact absurd hreadable hcounted
      | diverged => exact hcounted.elim
    · intro error herror
      cases warmed with
      | ok count =>
          obtain ⟨entries, hok⟩ := hread.mpr hcounted.2.1
          rw [herror] at hok
          cases hok
      | error error => exact ⟨error, rfl⟩
      | diverged => exact hcounted.elim

/-- Reads of a store that has lost one blob. -/
def lossyGet (prim : Primitives) (lost hash : Hash) (blobs : Blobs) : Option Bytes :=
  if hash = lost then none else prim.blobAt blobs hash

def lossyStore (prim : Primitives) (lost : Hash) : Prog.Handler storeSig Blobs
  | .put bytes, blobs => prim.memoryStore (.put bytes) blobs
  | .get hash, blobs => (.ok (prim.lossyGet lost hash blobs), blobs)

/-- Reads are joined in the order in which they were spawned. -/
def lossyWalk (prim : Primitives) (lost : Hash) : Prog.Handler walkSig Blobs
  | .remaining, blobs => (true, blobs)
  | .prefetch _, blobs => ((), blobs)
  | .joinNext others, blobs => (⟨0, Nat.succ_pos others⟩, blobs)
  | .get hash, blobs => (.ok (prim.lossyGet lost hash blobs), blobs)

variable {lost : Hash} {nodes : Set Hash} {blobs : Blobs}

theorem lossyGet_answer (hash : Hash) :
    prim.ReadAnswer nodes {lost} Set.univ blobs hash (.ok (prim.lossyGet lost hash blobs)) where
  readable _ hread := congrArg Except.ok (if_neg hread)
  unread _ hlost := by
    rw [lossyGet, if_pos (Set.mem_singleton_iff.mp hlost)]
    trivial
  answered _ := ⟨_, rfl⟩

theorem lossyStore_runs {ε α : Type} (prog : Prog storeSig ε α) (blobs : Blobs) :
    Prog.Runs (prim.PartialStep nodes {lost} Set.univ) prog blobs
      (prog.run (prim.lossyStore lost) blobs).1 (prog.run (prim.lossyStore lost) blobs).2 := by
  refine (Prog.run_runs (prim.lossyStore lost) prog blobs).imp ?_
  intro op before response after hcall
  cases op with
  | put bytes =>
      obtain ⟨rfl, rfl⟩ := Prod.mk.inj hcall
      exact Or.inl ⟨rfl, rfl⟩
  | get hash =>
      obtain ⟨rfl, rfl⟩ := Prod.mk.inj hcall
      exact ⟨rfl, lossyGet_answer hash⟩

theorem lossyWalk_runs {ε α : Type} (prog : Prog walkSig ε α) (blobs : Blobs) :
    Prog.Runs (prim.WalkStep nodes {lost} Set.univ) prog blobs
      (prog.run (prim.lossyWalk lost) blobs).1 (prog.run (prim.lossyWalk lost) blobs).2 := by
  refine (Prog.run_runs (prim.lossyWalk lost) prog blobs).imp ?_
  intro op before response after hcall
  cases op with
  | remaining =>
      obtain ⟨rfl, rfl⟩ := Prod.mk.inj hcall
      exact ⟨rfl, rfl⟩
  | prefetch frontier => exact (Prod.mk.inj hcall).2.symm
  | joinNext others => exact (Prod.mk.inj hcall).2.symm
  | get hash =>
      obtain ⟨rfl, rfl⟩ := Prod.mk.inj hcall
      exact ⟨rfl, lossyGet_answer hash⟩

/-- The two inserts of the sharing example. -/
def foldRun : Prog.Outcome HamtError (Option Hash) × Blobs :=
  (Sharing.prim.treeCalls
    [.insert (.one Sharing.first) 1, .insert (.one Sharing.second) 1] none).run
    Sharing.prim.memoryStore []

def lossyWalked : Prog.Outcome HamtError (List LeafEntry) × Blobs :=
  (Sharing.prim.walkEntries hashCount Sharing.foldRoot).run
    (Sharing.prim.lossyStore Sharing.overfullLeaf) foldRun.2

def lossyParallel : Prog.Outcome Empty WalkOutcome × Blobs :=
  (Sharing.prim.walkEntriesParallel Sharing.foldRoot).run
    (Sharing.prim.lossyWalk Sharing.overfullLeaf) foldRun.2

def lossyWarmed : Prog.Outcome HamtError Nat × Blobs :=
  (Sharing.prim.warmCache hashCount Sharing.foldRoot).run
    (Sharing.prim.lossyStore Sharing.overfullLeaf) foldRun.2

/-- A tree whose only leaf cannot be read. -/
theorem walkers_agree_sample :
    lossyWalked.1 = .error (.missingNode Sharing.overfullLeaf) ∧
      WalkersAgree Sharing.prim foldRun.2 Sharing.foldRoot {Sharing.overfullLeaf} Set.univ
        lossyWalked.1 lossyParallel.1 lossyWarmed.1 := by
  have hrun : foldRun.1 = .ok (some Sharing.foldRoot) ∧
      (foldRun.2.map Sharing.prim.blake3).Nodup ∧
        Hash.zero ∉ foldRun.2.map Sharing.prim.blake3 := by decide +kernel
  obtain ⟨houtcome, hnodup, hnonzero⟩ := hrun
  have hbuilt : Prog.Runs (Sharing.prim.StoreStep False)
      (Sharing.prim.treeCalls
        [.insert (.one Sharing.first) 1, .insert (.one Sharing.second) 1] none)
      [] foldRun.1 foldRun.2 := Sharing.prim.memoryStore_runs False _ _
  rw [houtcome] at hbuilt
  have htree : Sharing.prim.IsTree False foldRun.2 (some Sharing.foldRoot) :=
    ⟨_, [], foldRun.2, hbuilt, List.Subset.refl _⟩
  let nodes := Sharing.prim.treeNodes foldRun.2 Sharing.foldRoot
  have hwalked : Prog.Runs (Sharing.prim.PartialStep nodes {Sharing.overfullLeaf} Set.univ)
      (Sharing.prim.walkEntries hashCount Sharing.foldRoot) foldRun.2 lossyWalked.1 lossyWalked.2 :=
    lossyStore_runs _ _
  have hparallel : Prog.Runs (Sharing.prim.WalkStep nodes {Sharing.overfullLeaf} Set.univ)
      (Sharing.prim.walkEntriesParallel Sharing.foldRoot) foldRun.2 lossyParallel.1
      lossyParallel.2 := lossyWalk_runs _ _
  have hwarmed : Prog.Runs (Sharing.prim.PartialStep nodes {Sharing.overfullLeaf} Set.univ)
      (Sharing.prim.warmCache hashCount Sharing.foldRoot) foldRun.2 lossyWarmed.1 lossyWarmed.2 :=
    lossyStore_runs _ _
  have hfound : lossyWalked.1 = .error (.missingNode Sharing.overfullLeaf) := by decide +kernel
  exact ⟨hfound, walkers_agree htree (collisionFree_of_nodup hnodup hnonzero) hwalked hparallel
    hwarmed⟩

end Primitives

end Registry

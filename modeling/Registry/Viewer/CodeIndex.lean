import Registry.Core.Iscc
import Registry.Core.Similarity
import Registry.Core.Tabulated
import Registry.Effect.Pool

/-! # The viewer's cached similarity index

Similarity search in the viewer scans an array of content codes that is built
from the listing cache and kept until the cache changes. The cache and the index
stand behind locks of their own, so that each access is one step, and searches and
partition updates take these steps in any order.
-/

namespace Registry.Viewer

open Effect

def maxCachedPartitions : Nat := 256
def maxHits : Nat := 10000

/-- The root and the entries of a partition. -/
structure CachedListing where
  root : Hash
  entries : List LeafEntry
  deriving DecidableEq

abbrev ListingCache := Std.ExtTreeMap UInt32 CachedListing compare

/-- Content codes, each with the slot of its listing and its place in there. -/
structure CodeIndex where
  codes : List (UInt64 × UInt32 × UInt32)
  listings : List (UInt32 × List LeafEntry)
  deriving DecidableEq

/-- The entries that a cache lists, by partition. -/
def ListingCache.listings (cache : ListingCache) : List (UInt32 × List LeafEntry) :=
  cache.toList.map fun row => (row.1, row.2.entries)

/-- A full cache is dropped before a partition that is not in it is added. -/
def ListingCache.add (cache : ListingCache) (partitionId : UInt32) (listing : CachedListing) :
    ListingCache :=
  let kept := if cache.size ≥ maxCachedPartitions ∧ ¬cache.contains partitionId then ∅ else cache
  kept.insert partitionId listing

/-- What walking a tree gave until the time was up. -/
structure WalkOutcome where
  entries : List LeafEntry
  complete : Bool

structure ViewerState where
  listingCache : ListingCache
  codeIndex : Option CodeIndex

def ViewerState.empty : ViewerState := ⟨∅, none⟩

/-- The accesses to shared state, and the calls whose answers come from elsewhere. -/
inductive ViewerOp
  | readCodeIndex
  | writeCodeIndex (index : Option CodeIndex)
  | listListings
  | getListing (partitionId : UInt32)
  | insertListing (partitionId : UInt32) (listing : CachedListing)
  | getRootBounded (partitionId : UInt32)
  | walkEntriesParallel (network : Bool) (root : Hash)
  | spawnBlocking

abbrev viewerSig : Signature where
  Op := ViewerOp
  Res
    | .readCodeIndex => Option CodeIndex
    | .writeCodeIndex _ => Unit
    | .listListings => List (UInt32 × List LeafEntry)
    | .getListing _ => Option CachedListing
    | .insertListing _ _ => Unit
    | .getRootBounded _ => Except String (Option Hash)
    | .walkEntriesParallel _ _ => WalkOutcome
    | .spawnBlocking => Except String Unit

/-- One access. The cache is listed in any order; roots, walks and tasks on other
threads end in any way. -/
def ViewerStep : (op : ViewerOp) → ViewerState → viewerSig.Res op → ViewerState → Prop
  | .readCodeIndex, before, index, after => after = before ∧ index = before.codeIndex
  | .writeCodeIndex index, before, _, after => after = { before with codeIndex := index }
  | .listListings, before, listings, after =>
      after = before ∧ List.Perm listings before.listingCache.listings
  | .getListing partitionId, before, listing, after =>
      after = before ∧ listing = before.listingCache[partitionId]?
  | .insertListing partitionId listing, before, _, after =>
      after = { before with listingCache := before.listingCache.add partitionId listing }
  | .getRootBounded _, before, _, after => after = before
  | .walkEntriesParallel _ _, before, _, after => after = before
  | .spawnBlocking, before, _, after => after = before

abbrev ViewerProg (α : Type) := Prog viewerSig String α

def call (op : ViewerOp) : ViewerProg (viewerSig.Res op) := .call op .pure

/-! ## Searches -/

/-- Collect the content codes of the listings. -/
def CodeIndex.build (listings : List (UInt32 × List LeafEntry)) : CodeIndex where
  codes := listings.zipIdx.flatMap fun ((_, entries), slot) =>
    entries.zipIdx.filterMap fun (entry, entryIndex) =>
      entry.contentCode.map fun code => (code, UInt32.ofNat slot, UInt32.ofNat entryIndex)
  listings := listings

structure Hit where
  distance : Nat
  slot : UInt32
  entryIndex : UInt32
  entryCode : UInt64

/-- By distance, then by slot and place. -/
def Hit.le (left right : Hit) : Bool :=
  left.distance < right.distance ∨ (left.distance = right.distance ∧
    (left.slot < right.slot ∨ (left.slot = right.slot ∧ left.entryIndex ≤ right.entryIndex)))

/-- A match as it is answered. -/
structure Match where
  key : String
  distance : Nat
  partition : UInt32
  contentCode : UInt64
  deriving DecidableEq

namespace CodeIndex

variable (index : CodeIndex)

/-- The nearest codes, at most `limit` of the first `maxHits` within the distance. -/
def hits (code : UInt64) (maxDistance limit : Nat) : List Hit :=
  let found := index.codes.foldl (fun found (entryCode, slot, entryIndex) =>
    let distance := hamming code entryCode
    if distance ≤ maxDistance ∧ found.length < maxHits then
      found ++ [⟨distance, slot, entryIndex, entryCode⟩]
    else found) []
  (found.mergeSort Hit.le).take limit

/-- A hit with the key of its entry, unless it points outside the listings. -/
def resolve (hit : Hit) : Option Match := do
  let (partitionId, entries) ← index.listings[hit.slot.toNat]?
  let entry ← entries[hit.entryIndex.toNat]?
  pure ⟨entry.key, hit.distance, partitionId, hit.entryCode⟩

end CodeIndex

structure SimilarQuery where
  iscc : String
  maxDistance : Option Nat
  limit : Option Nat

/-- What the viewer answers or, for an update, leaves behind. -/
inductive ViewerAnswer
  | found (queryCode : UInt64) (maxDistance : Nat) (scanned : Nat) (matched : List Match)
  | badRequest (error : IsccError)
  | internalServerError (message : String)
  | listing (found : Option CachedListing)
  | synced
  | stale (message : String)

/-- Scan an index on another thread, which fails if a hit points outside the listings. -/
def scan (index : CodeIndex) (code : UInt64) (maxDistance limit : Nat) :
    ViewerProg ViewerAnswer := do
  match ← call .spawnBlocking with
  | .error message => pure (.internalServerError message)
  | .ok () =>
      match (index.hits code maxDistance limit).mapM index.resolve with
      | none => pure (.internalServerError "index out of bounds")
      | some matched => pure (.found code maxDistance index.codes.length matched)

/-- Build the index from the listings of the moment and keep it, unless it is empty. -/
def buildIndex : ViewerProg (Except String CodeIndex) := do
  let listings ← call .listListings
  match ← call .spawnBlocking with
  | .error message => pure (.error message)
  | .ok () =>
      let index := CodeIndex.build listings
      if index.codes.isEmpty then pure (.ok index)
      else
        call (.writeCodeIndex (some index))
        pure (.ok index)

def currentIndex : ViewerProg (Except String CodeIndex) := do
  match ← call .readCodeIndex with
  | some index => pure (.ok index)
  | none => buildIndex

def similar (lib : Libraries) (query : SimilarQuery) : ViewerProg ViewerAnswer :=
  match lib.decodeContentCode (String.ofList (trim query.iscc.toList)) with
  | .error error => pure (.badRequest error)
  | .ok code => do
      let maxDistance := min (query.maxDistance.getD 8) 16
      let limit := max 1 (min (query.limit.getD 50) 500)
      match ← currentIndex with
      | .error message => pure (.internalServerError message)
      | .ok index => scan index code maxDistance limit

/-! ## Updates -/

/-- Walk a tree in the local store, and over the network if nodes are missing there. -/
def walkBoth (root : Hash) : ViewerProg WalkOutcome := do
  let outcome ← call (.walkEntriesParallel false root)
  if outcome.complete then pure outcome else call (.walkEntriesParallel true root)

/-- Add a listing to the cache, then drop the index that is older than it. -/
def refresh (partitionId : UInt32) (listing : CachedListing) : ViewerProg Unit := do
  call (.insertListing partitionId listing)
  call (.writeCodeIndex none)

def partitionEntries (partitionId : UInt32) : ViewerProg ViewerAnswer := do
  match ← call (.getListing partitionId) with
  | some listing => pure (.listing (some listing))
  | none =>
      match ← call (.getRootBounded partitionId) with
      | .error message => .throw message
      | .ok none => pure (.listing none)
      | .ok (some root) =>
          let outcome ← walkBoth root
          if outcome.complete then
            refresh partitionId ⟨root, outcome.entries⟩
            pure (.listing (some ⟨root, outcome.entries⟩))
          else .throw ("no peer served partition " ++ toString partitionId ++ "'s index within 30s")

/-- The cached listing of a partition, if it is the one at the root and not bypassed. -/
def cachedAt (partitionId : UInt32) (root : Hash) (force : Bool) :
    ViewerProg (Option CachedListing) :=
  if force then pure none
  else do
    let cached ← call (.getListing partitionId)
    pure (Option.filter (fun listing => listing.root = root) cached)

/-- The entries of a partition at a root, from the cache or else from a walk. -/
def currentEntries (partitionId : UInt32) (root : Hash) (force : Bool) :
    ViewerProg (Except String (List LeafEntry)) := do
  match ← cachedAt partitionId root force with
  | some listing => pure (.ok listing.entries)
  | none =>
      let outcome ← walkBoth root
      if outcome.complete then pure (.ok outcome.entries)
      else pure (.error "index incomplete within 300s (origin busy or unreachable)")

def syncPartition (partitionId : UInt32) (root : Hash) (force : Bool) :
    ViewerProg ViewerAnswer := do
  match ← currentEntries partitionId root force with
  | .error message => pure (.stale message)
  | .ok entries =>
      refresh partitionId ⟨root, entries⟩
      pure .synced

/-- What the viewer does at the same time, any number of each. -/
inductive ViewerTask
  | similar (query : SimilarQuery)
  | syncPartition (partitionId : UInt32) (root : Hash) (force : Bool)
  | partitionEntries (partitionId : UInt32)

def ViewerTask.prog (lib : Libraries) : ViewerTask → ViewerProg ViewerAnswer
  | .similar query => Viewer.similar lib query
  | .syncPartition partitionId root force => Viewer.syncPartition partitionId root force
  | .partitionEntries partitionId => Viewer.partitionEntries partitionId

/-! ## Freshness -/

/-- The index was built from listings like those of the cache. -/
def CodeIndex.Current (index : CodeIndex) (cache : ListingCache) : Prop :=
  index.listings.Perm cache.listings

def ViewerOp.IsInsertion : ViewerOp → Prop
  | .insertListing _ _ => True
  | _ => False

def ViewerOp.IsInvalidation : ViewerOp → Prop
  | .writeCodeIndex none => True
  | _ => False

/-- An index is stored only while the cache lists what it was built from, or while
some update has a listing at hand and has still to drop the index. -/
def StoresCurrent (state : ViewerState) (pool : List (ViewerProg ViewerAnswer)) (op : ViewerOp) :
    Prop :=
  ∀ index, op = .writeCodeIndex (some index) →
    index.Current state.listingCache ∨ ∃ prog ∈ pool, prog.Must ViewerOp.IsInvalidation

/-- A program that drops the index after each listing it adds. -/
structure Invalidates {α : Type} (prog : ViewerProg α) : Prop where
  followed : prog.FollowedBy ViewerOp.IsInsertion ViewerOp.IsInvalidation

theorem Invalidates.bind {α β : Type} {prog : ViewerProg α} {next : α → ViewerProg β}
    (hprog : Invalidates prog) (hnext : ∀ value, Invalidates (next value)) :
    Invalidates (prog >>= next) :=
  ⟨hprog.followed.bind fun value => (hnext value).followed⟩

theorem pure_invalidates {α : Type} (value : α) : Invalidates (.pure value) := ⟨trivial⟩

theorem throw_invalidates {α : Type} (message : String) :
    Invalidates (.throw message : ViewerProg α) := ⟨trivial⟩

theorem call_invalidates {op : ViewerOp} (hop : ¬op.IsInsertion) : Invalidates (call op) :=
  ⟨fun _ => ⟨fun hinsertion => (hop hinsertion).elim, trivial⟩⟩

theorem refresh_invalidates (partitionId : UInt32) (listing : CachedListing) :
    Invalidates (refresh partitionId listing) :=
  ⟨fun _ => ⟨fun _ => Or.inl trivial, fun _ => ⟨fun hinsertion => hinsertion.elim, trivial⟩⟩⟩

theorem walkBoth_invalidates (root : Hash) : Invalidates (walkBoth root) := by
  apply (call_invalidates id).bind
  intro outcome
  split
  · apply pure_invalidates
  · exact call_invalidates id

theorem scan_invalidates (index : CodeIndex) (code : UInt64) (maxDistance limit : Nat) :
    Invalidates (scan index code maxDistance limit) := by
  apply (call_invalidates id).bind
  intro joined
  split
  · apply pure_invalidates
  · split <;> apply pure_invalidates

theorem currentIndex_invalidates : Invalidates currentIndex := by
  apply (call_invalidates id).bind
  intro cached
  split
  · apply pure_invalidates
  · apply (call_invalidates id).bind
    intro listings
    apply (call_invalidates id).bind
    intro joined
    split
    · apply pure_invalidates
    · dsimp only
      split
      · apply pure_invalidates
      · apply (call_invalidates id).bind
        intro written
        apply pure_invalidates

theorem similar_invalidates (lib : Libraries) (query : SimilarQuery) :
    Invalidates (similar lib query) := by
  unfold similar
  split
  · apply pure_invalidates
  · apply currentIndex_invalidates.bind
    intro index
    split
    · apply pure_invalidates
    · apply scan_invalidates

theorem partitionEntries_invalidates (partitionId : UInt32) :
    Invalidates (partitionEntries partitionId) := by
  apply (call_invalidates id).bind
  intro cached
  split
  · apply pure_invalidates
  · apply (call_invalidates id).bind
    intro root
    split
    · apply throw_invalidates
    · apply pure_invalidates
    · apply (walkBoth_invalidates _).bind
      intro outcome
      split
      · apply (refresh_invalidates _ _).bind
        intro refreshed
        apply pure_invalidates
      · apply throw_invalidates

theorem cachedAt_invalidates (partitionId : UInt32) (root : Hash) (force : Bool) :
    Invalidates (cachedAt partitionId root force) := by
  unfold cachedAt
  split
  · apply pure_invalidates
  · apply (call_invalidates id).bind
    intro cached
    apply pure_invalidates

theorem currentEntries_invalidates (partitionId : UInt32) (root : Hash) (force : Bool) :
    Invalidates (currentEntries partitionId root force) := by
  apply (cachedAt_invalidates partitionId root force).bind
  intro cached
  split
  · apply pure_invalidates
  · apply (walkBoth_invalidates _).bind
    intro outcome
    split <;> apply pure_invalidates

theorem syncPartition_invalidates (partitionId : UInt32) (root : Hash) (force : Bool) :
    Invalidates (syncPartition partitionId root force) := by
  apply (currentEntries_invalidates partitionId root force).bind
  intro entries
  split
  · apply pure_invalidates
  · apply (refresh_invalidates _ _).bind
    intro refreshed
    apply pure_invalidates

theorem ViewerTask.prog_invalidates (lib : Libraries) (task : ViewerTask) :
    Invalidates (task.prog lib) := by
  cases task with
  | similar query => exact similar_invalidates lib query
  | syncPartition partitionId root force => exact syncPartition_invalidates partitionId root force
  | partitionEntries partitionId => exact partitionEntries_invalidates partitionId

/-- Every task drops the index after each listing it adds, and the index is current
unless some task has still to drop it. -/
structure Fresh (state : ViewerState) (pool : List (ViewerProg ViewerAnswer)) : Prop where
  invalidates : ∀ prog ∈ pool, Invalidates prog
  current : ∀ index, state.codeIndex = some index →
    index.Current state.listingCache ∨ ∃ prog ∈ pool, prog.Must ViewerOp.IsInvalidation

theorem Fresh.step {state after : ViewerState} {pool : List (ViewerProg ViewerAnswer)}
    {number : Nat}
    {op : ViewerOp} {rest : viewerSig.Res op → ViewerProg ViewerAnswer}
    {response : viewerSig.Res op}
    (hfresh : Fresh state pool) (hrunning : pool[number]? = some (.call op rest))
    (hstores : StoresCurrent state pool op) (hstep : ViewerStep op state response after) :
    Fresh after (pool.set number (rest response)) := by
  have hprog := (hfresh.invalidates _ (List.mem_of_getElem? hrunning)).followed response
  have hbound : number < pool.length := (List.getElem?_eq_some_iff.mp hrunning).1
  refine ⟨fun prog hmem => ?_, ?_⟩
  · rcases List.mem_or_eq_of_mem_set hmem with hold | rfl
    · exact hfresh.invalidates prog hold
    · exact ⟨hprog.2⟩
  -- What only reads leaves the index as current as it was.
  have hreads : after = state → ¬op.IsInvalidation → ∀ index, after.codeIndex = some index →
      index.Current after.listingCache ∨
        ∃ prog ∈ pool.set number (rest response), prog.Must ViewerOp.IsInvalidation := by
    rintro rfl hop index hindex
    exact (hfresh.current index hindex).imp id
      fun hmust => Prog.Must.set_of_call hrunning hop hmust response
  cases op with
  | readCodeIndex => exact hreads hstep.1 id
  | listListings => exact hreads hstep.1 id
  | getListing partitionId => exact hreads hstep.1 id
  | getRootBounded partitionId => exact hreads hstep id
  | walkEntriesParallel network root => exact hreads hstep id
  | spawnBlocking => exact hreads hstep id
  | insertListing partitionId listing =>
      exact fun _ _ => Or.inr ⟨rest response, List.mem_set hbound _, hprog.1 trivial⟩
  | writeCodeIndex written =>
      obtain rfl : after = { state with codeIndex := written } := hstep
      rintro index (rfl : written = some index)
      exact (hstores index rfl).imp id
        fun hmust => Prog.Must.set_of_call hrunning id hmust response

/-- Once all tasks have ended, a cached index lists what the cache does, provided
that no index was stored that the cache had already moved on from. -/
theorem cached_index_current (lib : Libraries) (tasks : List ViewerTask) {state : ViewerState}
    {pool : List (ViewerProg ViewerAnswer)}
    (hreaches : Reaches ViewerStep StoresCurrent .empty
      (tasks.map (ViewerTask.prog lib)) state pool)
    (hended : ∀ prog ∈ pool, prog.Ended) :
    ∀ index, state.codeIndex = some index → index.Current state.listingCache := by
  have hfresh : Fresh state pool := by
    refine hreaches.preserves Fresh ⟨fun prog hprog => ?_, fun index hindex => ?_⟩ ?_
    · obtain ⟨task, -, rfl⟩ := List.mem_map.mp hprog
      exact task.prog_invalidates lib
    · cases hindex
    · intro world after pool number op rest response hworld hrunning hstores hstep
      exact hworld.step hrunning hstores hstep
  intro index hindex
  rcases hfresh.current index hindex with hcurrent | ⟨prog, hprog, hmust⟩
  · exact hcurrent
  · exact absurd (hended prog hprog) hmust.not_ended

/-! ## A search and two updates of one partition -/

namespace Sample

open Registry.Sample (createdAt firstKey secondKey)

def entry (key : String) : LeafEntry := ⟨key, Hash.zero, 7, createdAt, some 0⟩

def firstRoot : Hash := ⟨Registry.Sample.firstRoot⟩
def secondRoot : Hash := ⟨Registry.Sample.secondRoot⟩

/-- The unpadded base32 text of a content unit of eight zero bytes. -/
def lib : Libraries :=
  { Registry.Sample.lib with
    base32Decode := fun text =>
      if text = utf8 "EAAQAAAAAAAAAAAA" then .ok [0x20, 0x01, 0, 0, 0, 0, 0, 0, 0, 0]
      else .error "invalid symbol" }

/-- Every walk is complete and finds one entry, and every task on another thread ends. -/
def handler : Prog.Handler viewerSig ViewerState
  | .readCodeIndex, state => (state.codeIndex, state)
  | .writeCodeIndex index, state => ((), { state with codeIndex := index })
  | .listListings, state => (state.listingCache.listings, state)
  | .getListing partitionId, state => (state.listingCache[partitionId]?, state)
  | .insertListing partitionId listing, state =>
      ((), { state with listingCache := state.listingCache.add partitionId listing })
  | .getRootBounded _, state => (.ok none, state)
  | .walkEntriesParallel _ root, state =>
      (⟨[entry (if root = firstRoot then firstKey else secondKey)], true⟩, state)
  | .spawnBlocking, state => (.ok (), state)

theorem handler_steps (op : ViewerOp) (state : ViewerState) :
    ViewerStep op state (handler op state).1 (handler op state).2 := by
  cases op with
  | readCodeIndex => exact ⟨rfl, rfl⟩
  | writeCodeIndex index => rfl
  | listListings => exact ⟨rfl, .refl _⟩
  | getListing partitionId => exact ⟨rfl, rfl⟩
  | insertListing partitionId listing => rfl
  | getRootBounded partitionId => rfl
  | walkEntriesParallel network root => rfl
  | spawnBlocking => rfl

def query : SimilarQuery := ⟨"ISCC:EAAQAAAAAAAAAAAA", none, none⟩

def tasks : List ViewerTask :=
  [.syncPartition 0 firstRoot true, .similar query, .syncPartition 0 secondRoot true]

/-- One task after the other. -/
def inOrder : List Nat := [0, 0, 0, 2, 2, 2, 1, 1, 1, 1, 1]

/-- The second update comes between the search's listing of the cache and its write. -/
def overlapping : List Nat := [0, 0, 0, 1, 1, 1, 2, 2, 2, 1, 1]

def reached (schedule : List Nat) : ViewerState × List (ViewerProg ViewerAnswer) :=
  turns handler schedule .empty (tasks.map (ViewerTask.prog lib))

def indexOf (key : String) : CodeIndex := ⟨[(0, 0, 0)], [(0, [entry key])]⟩

/-- Only the one write of an index needs an argument. -/
theorem inOrder_allowed : TurnsAllowed handler StoresCurrent inOrder .empty
    (tasks.map (ViewerTask.prog lib)) := by
  have hstored : StoresCurrent (reached (inOrder.take 9)).1 (reached (inOrder.take 9)).2
      (.writeCodeIndex (some (indexOf secondKey))) := by
    rintro index heq
    obtain rfl : indexOf secondKey = index := Option.some.inj (ViewerOp.writeCodeIndex.inj heq)
    exact Or.inl (.of_eq (by decide +kernel))
  refine ⟨?_, ?_, ?_, ?_, ?_, ?_, ?_, ?_, ?_, hstored, ?_, trivial⟩ <;> exact nofun

end Sample

/-- Run one after the other, the search keeps the index of what the cache lists. -/
theorem cached_index_current_sample :
    (Sample.reached Sample.inOrder).1.codeIndex = some (Sample.indexOf Registry.Sample.secondKey) ∧
      (Sample.indexOf Registry.Sample.secondKey).Current
        (Sample.reached Sample.inOrder).1.listingCache := by
  have hindex : (Sample.reached Sample.inOrder).1.codeIndex =
      some (Sample.indexOf Registry.Sample.secondKey) := by decide +kernel
  have hreaches := Reaches.none.turns Sample.handler_steps Sample.inOrder Sample.inOrder_allowed
  exact ⟨hindex, cached_index_current Sample.lib Sample.tasks hreaches (by decide +kernel) _ hindex⟩

/-- An update that inserts and invalidates while the search builds its index is lost
on the index: all tasks have ended, and it still lists the older entries. -/
theorem cached_index_stale :
    ∃ state pool, Reaches ViewerStep (fun _ _ _ => True) .empty
        (Sample.tasks.map (ViewerTask.prog Sample.lib)) state pool ∧
      (∀ prog ∈ pool, prog.Ended) ∧
      ∃ index, state.codeIndex = some index ∧ ¬index.Current state.listingCache := by
  refine ⟨(Sample.reached Sample.overlapping).1, (Sample.reached Sample.overlapping).2, ?_,
    by decide +kernel, Sample.indexOf Registry.Sample.firstKey, by decide +kernel, ?_⟩
  · exact Reaches.none.turns Sample.handler_steps Sample.overlapping
      (.of_forall (fun _ _ _ => trivial) _ _ _)
  · have hlisted : (Sample.reached Sample.overlapping).1.listingCache.listings =
        [(0, [Sample.entry Registry.Sample.secondKey])] := by decide +kernel
    rw [CodeIndex.Current, hlisted]
    decide +kernel

end Registry.Viewer

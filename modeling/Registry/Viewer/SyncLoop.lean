import Registry.Viewer.CodeIndex
import Mathlib.Logic.Relation

/-! # The viewer's sync passes

A sync pass reads the published roots, picks the partitions to walk and walks them side
by side; each walk puts a listing into the cache and then records its root. Requests
for a listing walk a partition that is not cached at the root of the moment. Roots are
published at any time.
-/

namespace Registry.Viewer.Sync

open Effect

/-! ## The state -/

/-- The roots of a partition in the order they were published, each with a root of its
own. -/
structure Published where
  roots : List Hash
  nodup : roots.Nodup

namespace Published

def none : Published := ⟨[], List.nodup_nil⟩

def current (published : Published) : Option Hash := published.roots.getLast?

def publish (published : Published) (root : Hash) (hnew : root ∉ published.roots) : Published where
  roots := published.roots ++ [root]
  nodup := published.nodup.append (List.nodup_singleton root) (by simpa using hnew)

def IsVersion (published : Published) (version : Nat) (root : Hash) : Prop :=
  published.roots[version]? = some root

/-- The first root was published before the second. -/
def Older (published : Published) (first second : Hash) : Prop :=
  ∃ earlier later, earlier < later ∧ published.IsVersion earlier first ∧
    published.IsVersion later second

/-- The version of the first root is at least that of the second. -/
def AtLeast (published : Published) (first second : Hash) : Prop :=
  ∃ version other, published.IsVersion version first ∧ published.IsVersion other second ∧
    other ≤ version

theorem AtLeast.refl {published : Published} {version : Nat} {root : Hash}
    (hversion : published.IsVersion version root) : published.AtLeast root root :=
  ⟨version, version, hversion, hversion, le_rfl⟩

theorem AtLeast.of_not_older {published : Published} {version other : Nat} {first second : Hash}
    (hversion : published.IsVersion version first) (hother : published.IsVersion other second)
    (hnot : ¬ published.Older first second) : published.AtLeast first second :=
  ⟨version, other, hversion, hother,
    not_lt.mp fun hlt => hnot ⟨version, other, hlt, hversion, hother⟩⟩

theorem IsVersion.lt {published : Published} {version : Nat} {root : Hash}
    (hversion : published.IsVersion version root) : version < published.roots.length :=
  (List.getElem?_eq_some_iff.mp hversion).1

/-- A root has one version only. -/
theorem IsVersion.unique {published : Published} {version other : Nat} {root : Hash}
    (hversion : published.IsVersion version root) (hother : published.IsVersion other root) :
    version = other :=
  (List.getElem?_inj hversion.lt published.nodup).mp (hversion.trans hother.symm)

theorem AtLeast.not_older {published : Published} {first second : Hash}
    (hatLeast : published.AtLeast first second) : ¬ published.Older first second := by
  rintro ⟨earlier, later, hlt, hearlier, hlater⟩
  obtain ⟨version, other, hversion, hother, hle⟩ := hatLeast
  have hfirst := hearlier.unique hversion
  have hsecond := hlater.unique hother
  omega

theorem exists_isVersion_of_current {published : Published} {root : Hash}
    (hcurrent : published.current = some root) : ∃ version, published.IsVersion version root := by
  obtain ⟨version, hlt, hroot⟩ := List.getElem_of_mem (List.mem_of_getLast? hcurrent)
  exact ⟨version, List.getElem?_eq_some_iff.mpr ⟨hlt, hroot⟩⟩

theorem IsVersion.publish {published : Published} {version : Nat} {root : Hash}
    (hversion : published.IsVersion version root) (next : Hash) (hnew : next ∉ published.roots) :
    (published.publish next hnew).IsVersion version root :=
  (List.getElem?_append_left hversion.lt).trans hversion

end Published

/-- What the sync loop records of a partition. -/
structure PartitionSync where
  root : Hash
  records : Nat
  latestAddedAt : Option Timestamp
  staleError : Option String

abbrev SyncState := Std.ExtTreeMap UInt32 PartitionSync compare

/-- Only a partition that has been recorded before is annotated. -/
def SyncState.markStale (state : SyncState) (partitionId : UInt32) (error : String) : SyncState :=
  match state[partitionId]? with
  | some sync => state.insert partitionId { sync with staleError := some error }
  | none => state

structure SyncWorld where
  viewer : ViewerState
  syncState : SyncState
  published : UInt32 → Published

/-- The accesses of the sync loop besides those of the viewer's other tasks. -/
inductive SyncOp
  | viewer (op : ViewerOp)
  | stopping
  | insertSync (partitionId : UInt32) (sync : PartitionSync)
  | markStale (partitionId : UInt32) (error : String)

abbrev syncSig : Signature where
  Op := SyncOp
  Res
    | .viewer op => viewerSig.Res op
    | .stopping => Bool
    | .insertSync _ _ => Unit
    | .markStale _ _ => Unit

/-- One access. A root is read as it is at the moment, if it can be read. -/
def SyncStep : (op : SyncOp) → SyncWorld → syncSig.Res op → SyncWorld → Prop
  | .viewer (.getRootBounded partitionId), before, response, after => after = before ∧
      (response = .ok (before.published partitionId).current ∨ ∃ message, response = .error message)
  | .viewer op, before, response, after => after = { before with viewer := after.viewer } ∧
      ViewerStep op before.viewer response after.viewer
  | .stopping, before, _, after => after = before
  | .insertSync partitionId sync, before, _, after =>
      after = { before with syncState := before.syncState.insert partitionId sync }
  | .markStale partitionId error, before, _, after =>
      after = { before with syncState := before.syncState.markStale partitionId error }

abbrev SyncProg (α : Type) := Prog syncSig String α

def SyncOp.perform (op : SyncOp) : SyncProg (syncSig.Res op) := .call op .pure

/-- A task of the viewer among the others. -/
def onViewer {α : Type} (prog : ViewerProg α) : SyncProg α :=
  prog.embed SyncOp.viewer (fun _ response => response) id

/-! ## The programs -/

/-- Walk one partition and refresh its caches. -/
def syncPartition (partitionId : UInt32) (root : Hash) (force : Bool) : SyncProg Unit := do
  match ← onViewer (currentEntries partitionId root force) with
  | .error message => (SyncOp.markStale partitionId message).perform
  | .ok entries => do
      (SyncOp.viewer (.insertListing partitionId ⟨root, entries⟩)).perform
      (SyncOp.insertSync partitionId
        ⟨root, entries.length, (entries.map LeafEntry.addedAt).max?, none⟩).perform
      (SyncOp.viewer (.writeCodeIndex none)).perform

/-- The task that a pass spawns for a partition. -/
def syncTask (partitionId : UInt32) (root : Hash) (requested : Bool) : SyncProg Unit := do
  if ← SyncOp.stopping.perform then pure ()
  else syncPartition partitionId root requested

/-- How a pass is to be run: the mode, whether it is a full one, and which partitions
were asked for. -/
structure PassSettings where
  auto : Bool
  full : Bool
  requested : UInt32 → Bool

def SyncState.changed (state : SyncState) (partitionId : UInt32) (root : Hash) : Bool :=
  match state[partitionId]? with
  | some sync => sync.root ≠ root || sync.staleError.isSome
  | none => true

/-- The partitions that a pass walks. -/
def passWork (settings : PassSettings) (state : SyncState) (roots : List (UInt32 × Hash)) :
    List (UInt32 × Hash × Bool) :=
  roots.filterMap fun (partitionId, root) =>
    if settings.requested partitionId ||
        (settings.auto && (settings.full || state.changed partitionId root)) then
      some (partitionId, root, settings.requested partitionId)
    else none

/-! ## Passes and requests side by side -/

/-- Where the sync loop stands. -/
inductive Pass
  | idle
  /-- The roots read so far. -/
  | snapshot (roots : List (UInt32 × Hash))
  | working (tasks : List (SyncProg Unit))

/-- The walks of a pass. -/
def Pass.tasks : Pass → List (SyncProg Unit)
  | .working tasks => tasks
  | _ => []

structure System where
  world : SyncWorld
  pass : Pass
  requests : List (SyncProg ViewerAnswer)

/-- One step of the viewer, in which requests may put into the cache what is allowed. -/
inductive Step (allowed : System → UInt32 → CachedListing → Prop) : System → System → Prop
  | publish (system : System) (partitionId : UInt32) (root : Hash)
      (hnew : root ∉ (system.world.published partitionId).roots) :
      Step allowed system { system with world := { system.world with
        published := Function.update system.world.published partitionId
          ((system.world.published partitionId).publish root hnew) } }
  | request (system : System) (partitionId : UInt32) :
      Step allowed system { system with
        requests := system.requests ++ [onViewer (partitionEntries partitionId)] }
  | serve {system : System} {number : Nat} {op : SyncOp}
      {rest : syncSig.Res op → SyncProg ViewerAnswer} {response : syncSig.Res op}
      {after : SyncWorld} (running : system.requests[number]? = some (.call op rest))
      (permitted : ∀ partitionId listing, op = .viewer (.insertListing partitionId listing) →
        allowed system partitionId listing)
      (answered : SyncStep op system.world response after) :
      Step allowed system { system with
        world := after, requests := system.requests.set number (rest response) }
  | start {system : System} (idle : system.pass = .idle) :
      Step allowed system { system with pass := .snapshot [] }
  | read {system : System} {roots : List (UInt32 × Hash)} {partitionId : UInt32} {root : Hash}
      (reading : system.pass = .snapshot roots) (unread : partitionId ∉ roots.map Prod.fst)
      (current : (system.world.published partitionId).current = some root) :
      Step allowed system { system with pass := .snapshot (roots ++ [(partitionId, root)]) }
  | fail {system : System} {roots : List (UInt32 × Hash)}
      (reading : system.pass = .snapshot roots) :
      Step allowed system { system with pass := .idle }
  | select {system : System} {roots : List (UInt32 × Hash)}
      (reading : system.pass = .snapshot roots)
      (settings : PassSettings) :
      Step allowed system { system with
        pass := .working ((passWork settings system.world.syncState roots).map fun row =>
          syncTask row.1 row.2.1 row.2.2) }
  | work {system : System} {tasks : List (SyncProg Unit)} {number : Nat} {op : SyncOp}
      {rest : syncSig.Res op → SyncProg Unit} {response : syncSig.Res op} {after : SyncWorld}
      (walking : system.pass = .working tasks) (running : tasks[number]? = some (.call op rest))
      (answered : SyncStep op system.world response after) :
      Step allowed system { system with
        world := after, pass := .working (tasks.set number (rest response)) }
  | finish {system : System} {tasks : List (SyncProg Unit)} (walking : system.pass = .working tasks)
      (ended : ∀ task ∈ tasks, task.Ended) : Step allowed system { system with pass := .idle }

/-- No pass and no request is in progress. -/
def System.Quiet (system : System) : Prop :=
  system.pass = .idle ∧ ∀ request ∈ system.requests, request.Ended

/-- No partition that is recorded as synced is served from an older tree. -/
def SyncWorld.ServesSynced (world : SyncWorld) : Prop :=
  ∀ (partitionId : UInt32) (listing : CachedListing) (sync : PartitionSync),
    world.viewer.listingCache[partitionId]? = some listing →
    world.syncState[partitionId]? = some sync → sync.staleError = none →
    (world.published partitionId).AtLeast listing.root sync.root

/-- A walk of the pass is about to record a partition. -/
def System.Pending (system : System) (partitionId : UInt32) (sync : PartitionSync) : Prop :=
  ∃ rest, .call (.insertSync partitionId sync) rest ∈ system.pass.tasks

/-- A newer root of the partition was recorded, or has been put into the cache by a walk
that is about to record it. -/
def System.Overtaken (system : System) (partitionId : UInt32) (root : Hash) : Prop :=
  ∃ sync : PartitionSync, sync.staleError = none ∧
    (system.world.published partitionId).Older root sync.root ∧
    (system.world.syncState[partitionId]? = some sync ∨ system.Pending partitionId sync)

/-- Requests put nothing into the cache that a sync pass has overtaken. -/
def NotOvertaken (system : System) (partitionId : UInt32) (listing : CachedListing) : Prop :=
  ¬ system.Overtaken partitionId listing.root

/-! ## What the programs write -/

/-- An access that neither adds a listing nor records or annotates a partition. -/
def SyncOp.Looks : SyncOp → Prop
  | .viewer op => ¬op.IsInsertion
  | .stopping => True
  | .insertSync _ _ => False
  | .markStale _ _ => False

def SyncOp.IsInsertion : SyncOp → Prop
  | .viewer op => op.IsInsertion
  | _ => False

/-- An access adds a listing, or records a partition, or does neither. -/
theorem SyncOp.insertion_or_sync (op : SyncOp) :
    (∃ partitionId listing, op = .viewer (.insertListing partitionId listing)) ∨
      (∃ partitionId sync, op = .insertSync partitionId sync) ∨
      (¬op.IsInsertion ∧ ∀ partitionId sync, op ≠ .insertSync partitionId sync) := by
  cases op with
  | viewer op =>
      cases op with
      | insertListing partitionId listing => exact Or.inl ⟨partitionId, listing, rfl⟩
      | _ => exact Or.inr (Or.inr ⟨id, nofun⟩)
  | insertSync partitionId sync => exact Or.inr (Or.inl ⟨partitionId, sync, rfl⟩)
  | _ => exact Or.inr (Or.inr ⟨id, nofun⟩)

theorem listingCache_kept {op : ViewerOp} {before after : ViewerState}
    {response : viewerSig.Res op} (hop : ¬op.IsInsertion)
    (hstep : ViewerStep op before response after) : after.listingCache = before.listingCache := by
  cases op with
  | readCodeIndex => rw [hstep.1]
  | writeCodeIndex index =>
      obtain rfl : after = { before with codeIndex := index } := hstep
      rfl
  | listListings => rw [hstep.1]
  | getListing partitionId => rw [hstep.1]
  | insertListing partitionId listing => exact (hop trivial).elim
  | getRootBounded partitionId => exact congrArg ViewerState.listingCache hstep
  | walkEntriesParallel network root => exact congrArg ViewerState.listingCache hstep
  | spawnBlocking => exact congrArg ViewerState.listingCache hstep

theorem SyncStep.published_eq {op : SyncOp} {before after : SyncWorld} {response : syncSig.Res op}
    (hstep : SyncStep op before response after) : after.published = before.published := by
  cases op with
  | viewer op =>
      cases op with
      | getRootBounded partitionId => rw [hstep.1]
      | _ => rw [hstep.1]
  | stopping => rw [show after = before from hstep]
  | insertSync partitionId sync =>
      obtain rfl : after =
          { before with syncState := before.syncState.insert partitionId sync } := hstep
      rfl
  | markStale partitionId error =>
      obtain rfl : after =
          { before with syncState := before.syncState.markStale partitionId error } :=
        hstep
      rfl

/-- An annotated partition is not recorded without an error. -/
theorem SyncState.markStale_getElem? {state : SyncState} {partitionId other : UInt32}
    {error : String} {sync : PartitionSync}
    (hfound : (state.markStale partitionId error)[other]? = some sync)
    (hfresh : sync.staleError = none) : state[other]? = some sync := by
  unfold SyncState.markStale at hfound
  split at hfound
  · simp only [Std.ExtTreeMap.getElem?_insert, Std.compare_eq_iff_eq] at hfound
    split at hfound
    · rw [← Option.some.inj hfound] at hfresh
      cases hfresh
    · exact hfound
  · exact hfound

/-- An access that neither adds a listing nor records a partition keeps the cache, and
leaves nothing recorded without an error that was not so before. -/
theorem SyncStep.frame {op : SyncOp} {before after : SyncWorld} {response : syncSig.Res op}
    (hstep : SyncStep op before response after) (hinsertion : ¬op.IsInsertion)
    (hsync : ∀ partitionId sync, op ≠ .insertSync partitionId sync) :
    after.viewer.listingCache = before.viewer.listingCache ∧
      ∀ (partitionId : UInt32) (sync : PartitionSync), after.syncState[partitionId]? = some sync →
        sync.staleError = none → before.syncState[partitionId]? = some sync := by
  cases op with
  | viewer op =>
      have hviewer (hafter : after = { before with viewer := after.viewer })
          (hstep : ViewerStep op before.viewer response after.viewer) :
          after.viewer.listingCache = before.viewer.listingCache ∧
            ∀ (partitionId : UInt32) (sync : PartitionSync),
              after.syncState[partitionId]? = some sync → sync.staleError = none →
                before.syncState[partitionId]? = some sync := by
        refine ⟨listingCache_kept hinsertion hstep, fun partitionId sync hfound _ => ?_⟩
        rwa [hafter] at hfound
      cases op with
      | getRootBounded partitionId =>
          obtain ⟨rfl, -⟩ := hstep
          exact ⟨rfl, fun _ _ hfound _ => hfound⟩
      | _ => exact hviewer hstep.1 hstep.2
  | stopping =>
      obtain rfl : after = before := hstep
      exact ⟨rfl, fun _ _ hfound _ => hfound⟩
  | insertSync partitionId sync => exact (hsync partitionId sync rfl).elim
  | markStale partitionId error =>
      obtain rfl : after =
          { before with syncState := before.syncState.markStale partitionId error } :=
        hstep
      exact ⟨rfl, fun _ _ hfound hfresh => SyncState.markStale_getElem? hfound hfresh⟩

/-- Whatever a full cache drops, it lists the added partition as given. -/
theorem ListingCache.add_getElem? {cache : ListingCache} {partitionId other : UInt32}
    {listing found : CachedListing}
    (hfound : (cache.add partitionId listing)[other]? = some found) :
    (partitionId = other ∧ found = listing) ∨
      (partitionId ≠ other ∧ cache[other]? = some found) := by
  unfold ListingCache.add at hfound
  simp only [Std.ExtTreeMap.getElem?_insert, Std.compare_eq_iff_eq] at hfound
  split at hfound
  next hsame =>
    exact Or.inl ⟨hsame, (Option.some.inj hfound).symm⟩
  next hother =>
    split at hfound
    · simp at hfound
    · exact Or.inr ⟨hother, hfound⟩

/-- The root that an answer shows. -/
def Shows : (op : SyncOp) → syncSig.Res op → UInt32 → Hash → Prop
  | .viewer (.getRootBounded partitionId), response, other, root =>
      partitionId = other ∧ response = .ok (some root)
  | _, _, _, _ => False

/-- What a request may do when some roots are known. -/
def SyncOp.Requested (known : UInt32 → Hash → Prop) : SyncOp → Prop
  | .viewer (.insertListing partitionId listing) => known partitionId listing.root
  | .insertSync _ _ => False
  | .markStale _ _ => False
  | _ => True

/-- A program that records nothing and adds listings only at roots that are known or
that it was shown. -/
def Requesting {α : Type} (known : UInt32 → Hash → Prop) : SyncProg α → Prop
  | .call op rest => op.Requested known ∧ ∀ response,
      Requesting (fun partitionId root => known partitionId root ∨
        Shows op response partitionId root) (rest response)
  | _ => True

theorem Requesting.mono {α : Type} {prog : SyncProg α} {known more : UInt32 → Hash → Prop}
    (hmore : ∀ partitionId root, known partitionId root → more partitionId root)
    (hprog : Requesting known prog) : Requesting more prog := by
  induction prog generalizing known more with
  | pure value => trivial
  | throw error => trivial
  | diverge => trivial
  | call op rest ih =>
      refine ⟨?_, fun response => ih response (fun partitionId root => ?_) (hprog.2 response)⟩
      · cases op with
        | viewer op =>
            cases op with
            | insertListing partitionId listing => exact hmore _ _ hprog.1
            | _ => trivial
        | stopping => trivial
        | insertSync partitionId sync => exact hprog.1
        | markStale partitionId error => exact hprog.1
      · exact Or.imp_left (hmore partitionId root)

theorem SyncOp.Looks.requested {op : SyncOp} (hop : op.Looks) (known : UInt32 → Hash → Prop) :
    op.Requested known := by
  cases op with
  | viewer op =>
      cases op with
      | insertListing partitionId listing => exact (hop trivial).elim
      | _ => trivial
  | stopping => trivial
  | insertSync partitionId sync => exact hop
  | markStale partitionId error => exact hop

theorem Requesting.bind {α β : Type} {prog : SyncProg α} {next : α → SyncProg β}
    {known : UInt32 → Hash → Prop} (hprog : prog.Calls SyncOp.Looks)
    (hnext : ∀ value, Requesting known (next value)) : Requesting known (prog >>= next) := by
  induction prog generalizing known with
  | pure value => exact hnext value
  | throw error => trivial
  | diverge => trivial
  | call op rest ih =>
      exact ⟨hprog.1.requested known, fun response => ih response (hprog.2 response)
        fun value => (hnext value).mono fun _ _ => Or.inl⟩

theorem onViewer_bind {α β : Type} (prog : ViewerProg α) (next : α → ViewerProg β) :
    onViewer (prog >>= next) = onViewer prog >>= fun value => onViewer (next value) := by
  induction prog with
  | pure value => rfl
  | throw error => rfl
  | diverge => rfl
  | call op rest ih =>
      exact congrArg (Prog.call (SyncOp.viewer op)) (funext fun response => ih response)

theorem onViewer_calls {α : Type} {prog : ViewerProg α}
    (hprog : prog.Calls fun op : ViewerOp => ¬op.IsInsertion) :
    (onViewer prog).Calls SyncOp.Looks := by
  have hlooks : ∀ op : ViewerOp, ¬op.IsInsertion → (SyncOp.viewer op).Looks := fun _ hop => hop
  exact hprog.embed hlooks

theorem walkBoth_calls (root : Hash) :
    (walkBoth root).Calls fun op : ViewerOp => ¬op.IsInsertion := by
  refine ⟨id, fun outcome => ?_⟩
  change Prog.Calls _ (if outcome.complete then Prog.pure outcome else _)
  split
  · trivial
  · exact ⟨id, fun _ => trivial⟩

theorem cachedAt_calls (partitionId : UInt32) (root : Hash) (force : Bool) :
    (cachedAt partitionId root force).Calls fun op : ViewerOp => ¬op.IsInsertion := by
  unfold cachedAt
  split
  · trivial
  · exact ⟨id, fun _ => trivial⟩

theorem currentEntries_calls (partitionId : UInt32) (root : Hash) (force : Bool) :
    (currentEntries partitionId root force).Calls fun op : ViewerOp => ¬op.IsInsertion := by
  apply (cachedAt_calls partitionId root force).bind
  intro cached
  split
  · trivial
  · apply (walkBoth_calls root).bind
    intro outcome
    split <;> trivial

/-- A listing request puts into the cache only the root that it read. -/
theorem partitionEntries_requesting (partitionId : UInt32) :
    Requesting (fun _ _ => False) (onViewer (partitionEntries partitionId)) := by
  refine ⟨trivial, fun cached => ?_⟩
  cases cached with
  | some listing => trivial
  | none =>
      refine ⟨trivial, fun answer => ?_⟩
      cases answer with
      | error message => trivial
      | ok found =>
          cases found with
          | none => trivial
          | some root =>
              change Requesting _ (onViewer (walkBoth root >>= fun outcome => _))
              rw [onViewer_bind]
              apply Requesting.bind (onViewer_calls (walkBoth_calls root))
              intro outcome
              split
              · exact ⟨Or.inr ⟨rfl, rfl⟩, fun _ => ⟨trivial, fun _ => trivial⟩⟩
              · trivial

/-- What the walk of a partition at a root may do. -/
def SyncOp.Worked (partitionId : UInt32) (root : Hash) : SyncOp → Prop
  | .viewer (.insertListing other listing) => other = partitionId ∧ listing.root = root
  | .insertSync other sync => other = partitionId ∧ sync.root = root ∧ sync.staleError = none
  | _ => True

/-- The next thing the program does is to record a partition. -/
def Records : SyncProg Unit → Prop
  | .call (.insertSync _ _) _ => True
  | _ => False

/-- A program that records its partition right after it added the listing, and only
then, both at the same root. -/
def Recording (partitionId : UInt32) (root : Hash) : SyncProg Unit → Prop
  | .call op rest => op.Worked partitionId root ∧
      ∀ response, (Records (rest response) ↔ op.IsInsertion) ∧
        Recording partitionId root (rest response)
  | _ => True

theorem SyncOp.Looks.worked {op : SyncOp} (hop : op.Looks) (partitionId : UInt32) (root : Hash) :
    op.Worked partitionId root := by
  cases op with
  | viewer op =>
      cases op with
      | insertListing other listing => exact (hop trivial).elim
      | _ => trivial
  | stopping => trivial
  | insertSync other sync => exact hop.elim
  | markStale other error => trivial

theorem SyncOp.Looks.not_insertion {op : SyncOp} (hop : op.Looks) : ¬op.IsInsertion := by
  cases op with
  | viewer op => exact hop
  | _ => exact id

theorem Records.not_of_looks {op : SyncOp} (hop : op.Looks)
    (rest : syncSig.Res op → SyncProg Unit) :
    ¬Records (.call op rest) := by
  cases op with
  | insertSync partitionId sync => exact hop.elim
  | _ => exact id

theorem Recording.bind {α : Type} {partitionId : UInt32} {root : Hash} {prog : SyncProg α}
    {next : α → SyncProg Unit} (hprog : prog.Calls SyncOp.Looks)
    (hnext : ∀ value, ¬Records (next value) ∧ Recording partitionId root (next value)) :
    ¬Records (prog >>= next) ∧ Recording partitionId root (prog >>= next) := by
  induction prog with
  | pure value => exact hnext value
  | throw error => exact ⟨id, trivial⟩
  | diverge => exact ⟨id, trivial⟩
  | call op rest ih =>
      refine ⟨Records.not_of_looks hprog.1 _, hprog.1.worked partitionId root, fun response => ?_⟩
      obtain ⟨hrecords, hrecording⟩ := ih response (hprog.2 response)
      exact ⟨iff_of_false hrecords hprog.1.not_insertion, hrecording⟩

theorem syncPartition_recording (partitionId : UInt32) (root : Hash) (force : Bool) :
    ¬Records (syncPartition partitionId root force) ∧
      Recording partitionId root (syncPartition partitionId root force) := by
  apply Recording.bind (onViewer_calls (currentEntries_calls partitionId root force))
  intro entries
  cases entries with
  | error message => exact ⟨id, trivial, fun _ => ⟨Iff.rfl, trivial⟩⟩
  | ok entries =>
      refine ⟨id, ⟨rfl, rfl⟩, fun _ => ⟨Iff.rfl, ⟨rfl, rfl, rfl⟩, fun _ => ⟨Iff.rfl, ?_⟩⟩⟩
      exact ⟨trivial, fun _ => ⟨Iff.rfl, trivial⟩⟩

theorem syncTask_recording (partitionId : UInt32) (root : Hash) (requested : Bool) :
    ¬Records (syncTask partitionId root requested) ∧
      Recording partitionId root (syncTask partitionId root requested) := by
  have hperform : SyncOp.stopping.perform.Calls SyncOp.Looks := ⟨trivial, fun _ => trivial⟩
  apply Recording.bind hperform
  intro stopping
  split
  · exact ⟨id, trivial⟩
  · exact syncPartition_recording partitionId root requested

/-! ## Passes that are not overtaken -/

def SyncWorld.Known (world : SyncWorld) (partitionId : UInt32) (root : Hash) : Prop :=
  ∃ version, (world.published partitionId).IsVersion version root

theorem SyncStep.known_of_shows {op : SyncOp} {before after : SyncWorld} {response : syncSig.Res op}
    (hstep : SyncStep op before response after) {partitionId : UInt32} {root : Hash}
    (hshows : Shows op response partitionId root) : before.Known partitionId root := by
  cases op with
  | viewer op =>
      cases op with
      | getRootBounded other =>
          obtain ⟨rfl, rfl⟩ := hshows
          obtain ⟨-, hcurrent | ⟨message, hfailed⟩⟩ := hstep
          · exact Published.exists_isVersion_of_current (Except.ok.inj hcurrent).symm
          · cases hfailed
      | _ => exact hshows.elim
  | _ => exact hshows.elim

/-- The walks of a pass, each of a partition of its own at a root that was published. -/
structure Walks (world : SyncWorld) (rows : List (UInt32 × Hash)) (tasks : List (SyncProg Unit)) :
    Prop where
  nodup : (rows.map Prod.fst).Nodup
  known : ∀ row ∈ rows, world.Known row.1 row.2
  recording : ∀ (number : Nat) (task : SyncProg Unit), tasks[number]? = some task →
    ∃ row : UInt32 × Hash, rows[number]? = some row ∧ Recording row.1 row.2 task

namespace Walks

variable {world : SyncWorld} {rows : List (UInt32 × Hash)} {tasks : List (SyncProg Unit)}

theorem set (hwalks : Walks world rows tasks) {number : Nat} {op : SyncOp}
    {rest : syncSig.Res op → SyncProg Unit} (hrunning : tasks[number]? = some (.call op rest))
    (response : syncSig.Res op) : Walks world rows (tasks.set number (rest response)) where
  nodup := hwalks.nodup
  known := hwalks.known
  recording place task hplace := by
    obtain ⟨row, hrow, -, hrest⟩ := hwalks.recording number _ hrunning
    rw [List.getElem?_set] at hplace
    split at hplace
    next hsame =>
      split at hplace
      · obtain rfl : rest response = task := Option.some.inj hplace
        exact ⟨row, hsame ▸ hrow, (hrest response).2⟩
      · cases hplace
    next => exact hwalks.recording place task hplace

/-- What a walk is about to record is its partition at its root. -/
theorem row_of_sync (hwalks : Walks world rows tasks) {number : Nat} {partitionId : UInt32}
    {sync : PartitionSync} {rest : Unit → SyncProg Unit}
    (hrunning : tasks[number]? = some (.call (.insertSync partitionId sync) rest)) :
    rows[number]? = some (partitionId, sync.root) ∧ sync.staleError = none := by
  obtain ⟨row, hrow, ⟨hpartition, hroot, hfresh⟩, -⟩ := hwalks.recording number _ hrunning
  rw [hrow, hpartition, hroot]
  exact ⟨rfl, hfresh⟩

/-- Two walks of one partition are one walk. -/
theorem place_eq (hwalks : Walks world rows tasks) {place other : Nat} {partitionId : UInt32}
    {root another : Hash} (hplace : rows[place]? = some (partitionId, root))
    (hother : rows[other]? = some (partitionId, another)) : place = other := by
  have hfirst : (rows.map Prod.fst)[place]? = some partitionId := by simp [hplace]
  have hsecond : (rows.map Prod.fst)[other]? = some partitionId := by simp [hother]
  have hlt := (List.getElem?_eq_some_iff.mp hfirst).1
  exact (List.getElem?_inj hlt hwalks.nodup).mp (hfirst.trans hsecond.symm)

end Walks

/-- Each walk of the pass is of a partition of its own, at a root that was published. -/
def Pass.Tracked (world : SyncWorld) : Pass → Prop
  | .idle => True
  | .snapshot roots => (roots.map Prod.fst).Nodup ∧ ∀ row ∈ roots, world.Known row.1 row.2
  | .working tasks => ∃ rows, Walks world rows tasks

/-- Only published roots are listed and recorded, no walk is about to record what is newer
than the listing, and the others that are recorded are served as they should be. -/
structure System.Tracked (system : System) : Prop where
  listed : ∀ (partitionId : UInt32) (listing : CachedListing),
    system.world.viewer.listingCache[partitionId]? = some listing →
      system.world.Known partitionId listing.root
  recorded : ∀ (partitionId : UInt32) (sync : PartitionSync),
    system.world.syncState[partitionId]? = some sync → sync.staleError = none →
      system.world.Known partitionId sync.root
  requests : ∀ request ∈ system.requests, Requesting system.world.Known request
  pass : system.pass.Tracked system.world
  pending : ∀ (partitionId : UInt32) (listing : CachedListing) (sync : PartitionSync),
    system.Pending partitionId sync →
      system.world.viewer.listingCache[partitionId]? = some listing →
        (system.world.published partitionId).AtLeast listing.root sync.root
  served : ∀ (partitionId : UInt32) (listing : CachedListing) (sync : PartitionSync),
    system.world.viewer.listingCache[partitionId]? = some listing →
      system.world.syncState[partitionId]? = some sync → sync.staleError = none →
        (system.world.published partitionId).AtLeast listing.root sync.root ∨
          ∃ due, system.Pending partitionId due

/-- Nothing is in progress, and what is listed and recorded was published and is served
as it should be. -/
structure System.Settled (system : System) : Prop where
  quiet : system.Quiet
  listed : ∀ (partitionId : UInt32) (listing : CachedListing),
    system.world.viewer.listingCache[partitionId]? = some listing →
      system.world.Known partitionId listing.root
  recorded : ∀ (partitionId : UInt32) (sync : PartitionSync),
    system.world.syncState[partitionId]? = some sync → sync.staleError = none →
      system.world.Known partitionId sync.root
  served : system.world.ServesSynced

theorem Requesting.of_ended {α : Type} {prog : SyncProg α} (hended : prog.Ended)
    (known : UInt32 → Hash → Prop) : Requesting known prog := by
  cases prog with
  | call op rest => exact hended.elim
  | _ => trivial

theorem System.Settled.tracked {system : System} (hsettled : system.Settled) : system.Tracked where
  listed := hsettled.listed
  recorded := hsettled.recorded
  requests request hrequest := .of_ended (hsettled.quiet.2 request hrequest) _
  pass := by
    rw [hsettled.quiet.1]
    trivial
  pending partitionId listing sync hpending := by
    obtain ⟨rest, hmem⟩ := hpending
    rw [hsettled.quiet.1] at hmem
    cases hmem
  served partitionId listing sync hlisting hsync hfresh :=
    Or.inl (hsettled.served partitionId listing sync hlisting hsync hfresh)

theorem System.Tracked.servesSynced {system : System} (htracked : system.Tracked)
    (hquiet : system.Quiet) : system.world.ServesSynced := by
  intro partitionId listing sync hlisting hsync hfresh
  rcases htracked.served partitionId listing sync hlisting hsync hfresh
      with hserved | ⟨due, rest, hmem⟩
  · exact hserved
  · rw [hquiet.1] at hmem
    cases hmem

/-! ## One step -/

/-- Published roots stay published in their order. -/
def SyncWorld.Extends (before after : SyncWorld) : Prop :=
  ∀ partitionId version root, (before.published partitionId).IsVersion version root →
    (after.published partitionId).IsVersion version root

theorem SyncWorld.Extends.known {before after : SyncWorld} (hextends : before.Extends after)
    {partitionId : UInt32} {root : Hash} (hknown : before.Known partitionId root) :
    after.Known partitionId root := by
  obtain ⟨version, hversion⟩ := hknown
  exact ⟨version, hextends partitionId version root hversion⟩

theorem SyncWorld.Extends.atLeast {before after : SyncWorld} (hextends : before.Extends after)
    {partitionId : UInt32} {first second : Hash}
    (hatLeast : (before.published partitionId).AtLeast first second) :
    (after.published partitionId).AtLeast first second := by
  obtain ⟨version, other, hversion, hother, hle⟩ := hatLeast
  exact ⟨version, other, hextends _ _ _ hversion, hextends _ _ _ hother, hle⟩

theorem SyncWorld.Extends.of_eq {before after : SyncWorld}
    (hpublished : after.published = before.published) : before.Extends after := by
  intro partitionId version root hversion
  rwa [hpublished]

theorem Walks.extend {before after : SyncWorld} (hextends : before.Extends after)
    {rows : List (UInt32 × Hash)} {tasks : List (SyncProg Unit)}
    (hwalks : Walks before rows tasks) :
    Walks after rows tasks where
  nodup := hwalks.nodup
  known row hrow := hextends.known (hwalks.known row hrow)
  recording := hwalks.recording

theorem Pass.Tracked.extend {before after : SyncWorld} (hextends : before.Extends after)
    {pass : Pass} (htracked : pass.Tracked before) : pass.Tracked after := by
  cases pass with
  | idle => trivial
  | snapshot roots => exact ⟨htracked.1, fun row hrow => hextends.known (htracked.2 row hrow)⟩
  | working tasks =>
      obtain ⟨rows, hwalks⟩ := htracked
      exact ⟨rows, hwalks.extend hextends⟩

/-- A publication changes neither the cache nor what is recorded. -/
theorem System.Tracked.publish {system : System} (htracked : system.Tracked) (partitionId : UInt32)
    (root : Hash) (hnew : root ∉ (system.world.published partitionId).roots) :
    System.Tracked { system with world := { system.world with
      published := Function.update system.world.published partitionId
        ((system.world.published partitionId).publish root hnew) } } := by
  have hextends : system.world.Extends { system.world with
      published := Function.update system.world.published partitionId
        ((system.world.published partitionId).publish root hnew) } := by
    intro other version known hversion
    by_cases hsame : other = partitionId
    · subst hsame
      simpa using hversion.publish root hnew
    · simpa [Function.update_of_ne hsame] using hversion
  exact {
    listed := fun other listing hlisting => hextends.known (htracked.listed other listing hlisting)
    recorded := fun other sync hsync hfresh =>
      hextends.known (htracked.recorded other sync hsync hfresh)
    requests := fun request hrequest =>
      (htracked.requests request hrequest).mono fun _ _ => hextends.known
    pass := htracked.pass.extend hextends
    pending := fun other listing sync hpending hlisting =>
      hextends.atLeast (htracked.pending other listing sync hpending hlisting)
    served := fun other listing sync hlisting hsync hfresh =>
      (htracked.served other listing sync hlisting hsync hfresh).imp_left hextends.atLeast }

/-- While no walk is about to record anything, the pass may go on in any way that keeps
it so. -/
theorem System.Tracked.setPass {system : System} (htracked : system.Tracked) {pass : Pass}
    (hbefore : ∀ partitionId sync, ¬system.Pending partitionId sync)
    (hafter : ∀ task ∈ pass.tasks, ¬Records task) (hpass : pass.Tracked system.world) :
    System.Tracked { system with pass := pass } where
  listed := htracked.listed
  recorded := htracked.recorded
  requests := htracked.requests
  pass := hpass
  pending partitionId listing sync hpending := by
    obtain ⟨rest, hmem⟩ := hpending
    exact absurd trivial (hafter _ hmem)
  served partitionId listing sync hlisting hsync hfresh :=
    (htracked.served partitionId listing sync hlisting hsync hfresh).imp_right
      fun ⟨due, hdue⟩ => absurd hdue (hbefore partitionId due)

theorem passWork_rows (settings : PassSettings) (state : SyncState) (roots : List (UInt32 × Hash)) :
    ((passWork settings state roots).map fun row => (row.1, row.2.1)).Sublist roots := by
  induction roots with
  | nil => exact .slnil
  | cons row roots ih =>
      unfold passWork
      rw [List.filterMap_cons]
      split
      next => exact ih.cons row
      next picked hpicked =>
        obtain ⟨-, hrow⟩ := Option.ite_none_right_eq_some.mp hpicked
        rw [← Option.some.inj hrow]
        exact ih.cons_cons row

theorem passWork_tracked {world : SyncWorld} {roots : List (UInt32 × Hash)}
    (hroots : (Pass.snapshot roots).Tracked world) (settings : PassSettings) (state : SyncState) :
    (Pass.working ((passWork settings state roots).map fun row =>
      syncTask row.1 row.2.1 row.2.2)).Tracked world := by
  have hsublist := passWork_rows settings state roots
  refine ⟨(passWork settings state roots).map fun row => (row.1, row.2.1), ?_, ?_, ?_⟩
  · exact hroots.1.sublist (hsublist.map Prod.fst)
  · intro row hrow
    exact hroots.2 row (hsublist.subset hrow)
  · intro number task htask
    rw [List.getElem?_map] at htask
    obtain ⟨row, hrow, rfl⟩ := Option.map_eq_some_iff.mp htask
    exact ⟨(row.1, row.2.1), by rw [List.getElem?_map, hrow]; rfl, (syncTask_recording _ _ _).2⟩

theorem SyncStep.extends {op : SyncOp} {before after : SyncWorld} {response : syncSig.Res op}
    (hstep : SyncStep op before response after) : before.Extends after :=
  .of_eq hstep.published_eq

/-- After an access a request still only knows published roots. -/
theorem SyncStep.requesting {α : Type} {op : SyncOp} {before after : SyncWorld}
    {response : syncSig.Res op} (hstep : SyncStep op before response after)
    {rest : syncSig.Res op → SyncProg α} (hprog : Requesting before.Known (.call op rest)) :
    Requesting after.Known (rest response) := by
  apply (hprog.2 response).mono
  intro partitionId root hknown
  rcases hknown with hknown | hshown
  · exact hstep.extends.known hknown
  · exact hstep.extends.known (hstep.known_of_shows hshown)

/-- An access that neither adds a listing nor records a partition, and leaves the
walks that are about to record as they are. -/
theorem System.Tracked.frame {system : System} (htracked : system.Tracked) {op : SyncOp}
    {response : syncSig.Res op} {after : SyncWorld}
    (hstep : SyncStep op system.world response after)
    (hinsertion : ¬op.IsInsertion) (hsync : ∀ partitionId sync, op ≠ .insertSync partitionId sync)
    {pass : Pass} {requests : List (SyncProg ViewerAnswer)}
    (hpending : ∀ partitionId sync, System.Pending ⟨after, pass, requests⟩ partitionId sync ↔
      system.Pending partitionId sync)
    (hpass : pass.Tracked after)
    (hrequests : ∀ request ∈ requests, Requesting after.Known request) :
    System.Tracked ⟨after, pass, requests⟩ := by
  obtain ⟨hcache, hstate⟩ := hstep.frame hinsertion hsync
  have hextends := hstep.extends
  exact {
    listed := fun partitionId listing hlisting => by
      rw [hcache] at hlisting
      exact hextends.known (htracked.listed partitionId listing hlisting)
    recorded := fun partitionId sync hsync hfresh =>
      hextends.known (htracked.recorded partitionId sync (hstate _ _ hsync hfresh) hfresh)
    requests := hrequests
    pass := hpass
    pending := fun partitionId listing sync hdue hlisting => by
      rw [hcache] at hlisting
      exact hextends.atLeast
        (htracked.pending partitionId listing sync ((hpending _ _).mp hdue) hlisting)
    served := fun partitionId listing sync hlisting hsync hfresh => by
      rw [hcache] at hlisting
      rcases htracked.served partitionId listing sync hlisting (hstate _ _ hsync hfresh) hfresh with
        hserved | ⟨due, hdue⟩
      · exact Or.inl (hextends.atLeast hserved)
      · exact Or.inr ⟨due, (hpending _ _).mpr hdue⟩ }

/-- What a walk is about to record is recorded without an error, at a published root. -/
theorem System.Tracked.known_of_pending {system : System} (htracked : system.Tracked)
    {partitionId : UInt32} {sync : PartitionSync} (hpending : system.Pending partitionId sync) :
    system.world.Known partitionId sync.root ∧ sync.staleError = none := by
  obtain ⟨rest, hmem⟩ := hpending
  have htasks := htracked.pass
  cases hpass : system.pass with
  | working tasks =>
      rw [hpass] at hmem htasks
      obtain ⟨rows, hwalks⟩ := htasks
      obtain ⟨number, hnumber⟩ := List.getElem?_of_mem hmem
      obtain ⟨hrow, hfresh⟩ := hwalks.row_of_sync hnumber
      exact ⟨hwalks.known _ (List.mem_of_getElem? hrow), hfresh⟩
  | _ =>
      rw [hpass] at hmem
      cases hmem

/-- A request that puts a listing into the cache which no pass has overtaken. -/
theorem System.Tracked.insertListing {system : System} (htracked : system.Tracked)
    {partitionId : UInt32} {listing : CachedListing} {after : SyncWorld}
    (hstep : SyncStep (.viewer (.insertListing partitionId listing)) system.world () after)
    (hknown : system.world.Known partitionId listing.root)
    (hallowed : NotOvertaken system partitionId listing)
    {requests : List (SyncProg ViewerAnswer)}
    (hrequests : ∀ request ∈ requests, Requesting after.Known request) :
    System.Tracked ⟨after, system.pass, requests⟩ := by
  have hextends := hstep.extends
  obtain ⟨hafter, hviewer⟩ := hstep
  have hcache : after.viewer.listingCache =
      system.world.viewer.listingCache.add partitionId listing := by rw [hviewer]
  have hstate : after.syncState = system.world.syncState := by rw [hafter]
  have hatLeast {sync : PartitionSync} (hsync : system.world.Known partitionId sync.root)
      (hnewer : ¬(system.world.published partitionId).Older listing.root sync.root) :
      (after.published partitionId).AtLeast listing.root sync.root := by
    obtain ⟨version, hversion⟩ := hknown
    obtain ⟨other, hother⟩ := hsync
    exact hextends.atLeast (.of_not_older hversion hother hnewer)
  exact {
    listed := fun other found hfound => by
      rw [hcache] at hfound
      rcases ListingCache.add_getElem? hfound with ⟨rfl, rfl⟩ | ⟨-, hfound⟩
      · exact hextends.known hknown
      · exact hextends.known (htracked.listed other found hfound)
    recorded := fun other sync hsync hfresh => by
      rw [hstate] at hsync
      exact hextends.known (htracked.recorded other sync hsync hfresh)
    requests := hrequests
    pass := htracked.pass.extend hextends
    pending := fun other found sync hdue hfound => by
      rw [hcache] at hfound
      rcases ListingCache.add_getElem? hfound with ⟨rfl, rfl⟩ | ⟨-, hfound⟩
      · obtain ⟨hsync, hfresh⟩ := htracked.known_of_pending hdue
        exact hatLeast hsync fun holder => hallowed ⟨sync, hfresh, holder, Or.inr hdue⟩
      · exact hextends.atLeast (htracked.pending other found sync hdue hfound)
    served := fun other found sync hfound hsync hfresh => by
      rw [hcache] at hfound
      rw [hstate] at hsync
      rcases ListingCache.add_getElem? hfound with ⟨rfl, rfl⟩ | ⟨-, hfound⟩
      · exact Or.inl (hatLeast (htracked.recorded _ sync hsync hfresh)
          fun holder => hallowed ⟨sync, hfresh, holder, Or.inl hsync⟩)
      · exact (htracked.served other found sync hfound hsync hfresh).imp_left hextends.atLeast }

theorem System.Tracked.serve {system : System} (htracked : system.Tracked) {number : Nat}
    {op : SyncOp} {rest : syncSig.Res op → SyncProg ViewerAnswer} {response : syncSig.Res op}
    {after : SyncWorld} (hrunning : system.requests[number]? = some (.call op rest))
    (hallowed : ∀ partitionId listing, op = .viewer (.insertListing partitionId listing) →
      NotOvertaken system partitionId listing)
    (hstep : SyncStep op system.world response after) :
    System.Tracked { system with
      world := after, requests := system.requests.set number (rest response) } := by
  have hprog := htracked.requests _ (List.mem_of_getElem? hrunning)
  have hrequests : ∀ request ∈ system.requests.set number (rest response),
      Requesting after.Known request := by
    intro request hrequest
    rcases List.mem_or_eq_of_mem_set hrequest with hold | rfl
    · exact (htracked.requests request hold).mono fun _ _ => hstep.extends.known
    · exact hstep.requesting hprog
  rcases op.insertion_or_sync with ⟨partitionId, listing, rfl⟩ | ⟨partitionId, sync, rfl⟩ |
      ⟨hinsertion, hsync⟩
  · exact htracked.insertListing hstep hprog.1 (hallowed partitionId listing rfl) hrequests
  · exact hprog.1.elim
  · exact htracked.frame hstep hinsertion hsync (fun _ _ => Iff.rfl)
      (htracked.pass.extend hstep.extends) hrequests

theorem Records.exists_sync {task : SyncProg Unit} (hrecords : Records task) :
    ∃ partitionId sync rest, task = .call (.insertSync partitionId sync) rest := by
  cases task with
  | call op rest =>
      cases op with
      | insertSync partitionId sync => exact ⟨partitionId, sync, rest, rfl⟩
      | _ => exact hrecords.elim
  | _ => exact hrecords.elim

/-- Where a walk goes on, another one is what it was. -/
theorem mem_set_iff {tasks : List (SyncProg Unit)} {number : Nat} {old new task : SyncProg Unit}
    (hrunning : tasks[number]? = some old) (hold : old ≠ task) (hnew : new ≠ task) :
    task ∈ tasks.set number new ↔ task ∈ tasks := by
  simp only [List.mem_iff_getElem?, List.getElem?_set]
  constructor
  · rintro ⟨place, hplace⟩
    split at hplace
    · split at hplace
      · exact absurd (Option.some.inj hplace) hnew
      · cases hplace
    · exact ⟨place, hplace⟩
  · rintro ⟨place, hplace⟩
    refine ⟨place, ?_⟩
    rw [if_neg fun hsame => hold (Option.some.inj ?_)]
    · exact hplace
    · rw [← hrunning, hsame, hplace]

/-- A walk that puts a listing into the cache has now to record it. -/
theorem System.Tracked.workListing {system : System} (htracked : system.Tracked)
    {tasks : List (SyncProg Unit)} (hwalking : system.pass = .working tasks) {number : Nat}
    {partitionId : UInt32} {listing : CachedListing} {rest : Unit → SyncProg Unit}
    (hrunning : tasks[number]? = some (.call (.viewer (.insertListing partitionId listing)) rest))
    {after : SyncWorld}
    (hstep : SyncStep (.viewer (.insertListing partitionId listing)) system.world () after) :
    System.Tracked
      { system with world := after, pass := .working (tasks.set number (rest ())) } := by
  obtain ⟨rows, hwalks⟩ : (Pass.working tasks).Tracked system.world := hwalking ▸ htracked.pass
  obtain ⟨⟨_, _⟩, hrow, ⟨rfl, rfl⟩, hrest⟩ := hwalks.recording number _ hrunning
  obtain ⟨other, sync, next, hnext⟩ := ((hrest ()).1.mpr trivial).exists_sync
  have hextends := hstep.extends
  obtain ⟨hafter, hviewer⟩ := hstep
  have hcache : after.viewer.listingCache =
      system.world.viewer.listingCache.add partitionId listing := by rw [hviewer]
  have hstate : after.syncState = system.world.syncState := by rw [hafter]
  have hset := (hwalks.set hrunning ()).extend hextends
  have hlt : number < tasks.length := (List.getElem?_eq_some_iff.mp hrunning).1
  have hplace : (tasks.set number (rest ()))[number]? =
      some (.call (.insertSync other sync) next) := by
    rw [List.getElem?_set_self hlt, hnext]
  obtain ⟨hrow', -⟩ := hset.row_of_sync hplace
  obtain ⟨rfl, hroot⟩ := Prod.mk.inj (Option.some.inj (hrow'.symm.trans hrow))
  exact {
    listed := fun other found hfound => by
      rw [hcache] at hfound
      rcases ListingCache.add_getElem? hfound with ⟨rfl, rfl⟩ | ⟨-, hfound⟩
      · exact hextends.known (hwalks.known _ (List.mem_of_getElem? hrow))
      · exact hextends.known (htracked.listed other found hfound)
    recorded := fun other sync hsync hfresh => by
      rw [hstate] at hsync
      exact hextends.known (htracked.recorded other sync hsync hfresh)
    requests := fun request hrequest =>
      (htracked.requests request hrequest).mono fun _ _ => hextends.known
    pass := ⟨rows, hset⟩
    pending := fun other found due hdue hfound => by
      obtain ⟨following, hmem⟩ := hdue
      obtain ⟨place, hdueAt⟩ := List.getElem?_of_mem hmem
      obtain ⟨hdueRow, -⟩ := hset.row_of_sync hdueAt
      rw [hcache] at hfound
      rcases ListingCache.add_getElem? hfound with ⟨rfl, rfl⟩ | ⟨hother, hfound⟩
      · obtain rfl := hwalks.place_eq hrow hdueRow
        obtain ⟨-, hsame⟩ := Prod.mk.inj (Option.some.inj (hdueRow.symm.trans hrow))
        obtain ⟨version, hversion⟩ := hwalks.known _ (List.mem_of_getElem? hrow)
        rw [hsame]
        exact hextends.atLeast (.refl hversion)
      · refine hextends.atLeast (htracked.pending other found due ⟨following, ?_⟩ hfound)
        rw [hwalking]
        refine (mem_set_iff hrunning ?_ ?_).mp hmem
        · nofun
        · rw [hnext]
          rintro ⟨⟩
          exact hother rfl
    served := fun other found recorded hfound hsync hfresh => by
      rw [hcache] at hfound
      rw [hstate] at hsync
      rcases ListingCache.add_getElem? hfound with ⟨rfl, rfl⟩ | ⟨hother, hfound⟩
      · exact Or.inr ⟨sync, next, List.mem_of_getElem? hplace⟩
      · rcases htracked.served other found recorded hfound hsync hfresh with
          hserved | ⟨due, following, hmem⟩
        · exact Or.inl (hextends.atLeast hserved)
        · rw [hwalking] at hmem
          refine Or.inr ⟨due, following, (mem_set_iff hrunning ?_ ?_).mpr hmem⟩
          · nofun
          · rw [hnext]
            rintro ⟨⟩
            exact hother rfl }

/-- A walk that records its partition leaves it served as it should be. -/
theorem System.Tracked.workSync {system : System} (htracked : system.Tracked)
    {tasks : List (SyncProg Unit)} (hwalking : system.pass = .working tasks) {number : Nat}
    {partitionId : UInt32} {sync : PartitionSync} {rest : Unit → SyncProg Unit}
    (hrunning : tasks[number]? = some (.call (.insertSync partitionId sync) rest)) :
    System.Tracked { system with
      world := { system.world with syncState := system.world.syncState.insert partitionId sync }
      pass := .working (tasks.set number (rest ())) } := by
  obtain ⟨rows, hwalks⟩ : (Pass.working tasks).Tracked system.world := hwalking ▸ htracked.pass
  obtain ⟨hrow, hfresh⟩ := hwalks.row_of_sync hrunning
  obtain ⟨row, -, -, hrest⟩ := hwalks.recording number _ hrunning
  have hnext : ¬Records (rest ()) := fun hrecords => (hrest ()).1.mp hrecords
  have hpending : system.Pending partitionId sync :=
    ⟨rest, hwalking ▸ List.mem_of_getElem? hrunning⟩
  have hextends : system.world.Extends { system.world with
      syncState := system.world.syncState.insert partitionId sync } := .of_eq rfl
  exact {
    listed := htracked.listed
    recorded := fun other found hfound hfresh => by
      simp only [Std.ExtTreeMap.getElem?_insert, Std.compare_eq_iff_eq] at hfound
      split at hfound
      next hsame =>
        rw [← hsame, ← Option.some.inj hfound]
        exact hwalks.known _ (List.mem_of_getElem? hrow)
      next => exact htracked.recorded other found hfound hfresh
    requests := htracked.requests
    pass := ⟨rows, (hwalks.set hrunning ()).extend hextends⟩
    pending := fun other found due hdue hfound => by
      obtain ⟨following, hmem⟩ := hdue
      refine htracked.pending other found due ⟨following, ?_⟩ hfound
      rw [hwalking]
      rcases List.mem_or_eq_of_mem_set hmem with hold | heq
      · exact hold
      · rw [← heq] at hnext
        exact absurd trivial hnext
    served := fun other found recorded hfound hsync hfresh => by
      simp only [Std.ExtTreeMap.getElem?_insert, Std.compare_eq_iff_eq] at hsync
      split at hsync
      next hsame =>
        rw [← Option.some.inj hsync]
        exact Or.inl (htracked.pending other found sync (hsame ▸ hpending) hfound)
      next hother =>
        rcases htracked.served other found recorded hfound hsync hfresh with
          hserved | ⟨due, following, hmem⟩
        · exact Or.inl hserved
        · rw [hwalking] at hmem
          refine Or.inr ⟨due, following, (mem_set_iff hrunning ?_ ?_).mpr hmem⟩
          · rintro ⟨⟩
            exact hother rfl
          · intro heq
            rw [heq] at hnext
            exact absurd trivial hnext }

theorem System.Tracked.work {system : System} (htracked : system.Tracked)
    {tasks : List (SyncProg Unit)} (hwalking : system.pass = .working tasks) {number : Nat}
    {op : SyncOp} {rest : syncSig.Res op → SyncProg Unit} {response : syncSig.Res op}
    {after : SyncWorld} (hrunning : tasks[number]? = some (.call op rest))
    (hstep : SyncStep op system.world response after) :
    System.Tracked { system with
      world := after, pass := .working (tasks.set number (rest response)) } := by
  rcases op.insertion_or_sync with ⟨partitionId, listing, rfl⟩ | ⟨partitionId, sync, rfl⟩ |
      ⟨hinsertion, hsync⟩
  · exact htracked.workListing hwalking hrunning hstep
  · obtain rfl : after = { system.world with
        syncState := system.world.syncState.insert partitionId sync } := hstep
    exact htracked.workSync hwalking hrunning
  · obtain ⟨rows, hwalks⟩ : (Pass.working tasks).Tracked system.world := hwalking ▸ htracked.pass
    obtain ⟨row, -, -, hrest⟩ := hwalks.recording number _ hrunning
    have hnext : ¬Records (rest response) :=
      fun hrecords => hinsertion ((hrest response).1.mp hrecords)
    refine htracked.frame hstep hinsertion hsync (fun partitionId sync => ?_)
      ⟨rows, (hwalks.set hrunning response).extend hstep.extends⟩
      fun request hrequest => (htracked.requests request hrequest).mono fun _ _ =>
        hstep.extends.known
    unfold System.Pending
    rw [hwalking]
    refine exists_congr fun following => mem_set_iff hrunning ?_ ?_
    · intro heq
      exact hsync partitionId sync (Prog.call.inj heq).1
    · intro heq
      rw [heq] at hnext
      exact absurd trivial hnext

theorem System.not_pending {system : System} (hnone : system.pass.tasks = [])
    (partitionId : UInt32) (sync : PartitionSync) : ¬system.Pending partitionId sync := by
  rintro ⟨rest, hmem⟩
  rw [hnone] at hmem
  cases hmem

/-- One step of the viewer, in which requests put nothing into the cache that a pass
has overtaken. -/
theorem System.Tracked.step {system next : System} (htracked : system.Tracked)
    (hstep : Step NotOvertaken system next) : next.Tracked := by
  cases hstep with
  | publish partitionId root hnew => exact htracked.publish partitionId root hnew
  | request partitionId =>
      exact {
        listed := htracked.listed
        recorded := htracked.recorded
        requests := fun request hrequest => by
          rcases List.mem_append.mp hrequest with hold | hnew
          · exact htracked.requests request hold
          · rw [List.mem_singleton.mp hnew]
            exact (partitionEntries_requesting partitionId).mono fun _ _ => False.elim
        pass := htracked.pass
        pending := htracked.pending
        served := htracked.served }
  | serve running permitted answered => exact htracked.serve running permitted answered
  | start idle =>
      exact htracked.setPass (system.not_pending (congrArg Pass.tasks idle)) nofun
        ⟨List.nodup_nil, nofun⟩
  | read reading unread current =>
      have hroots := htracked.pass
      rw [reading] at hroots
      refine htracked.setPass (system.not_pending (congrArg Pass.tasks reading)) nofun ⟨?_, ?_⟩
      · rw [List.map_append]
        exact hroots.1.append (List.nodup_singleton _) (by simpa using unread)
      · intro row hrow
        rcases List.mem_append.mp hrow with hold | hnew
        · exact hroots.2 row hold
        · rw [List.mem_singleton.mp hnew]
          exact Published.exists_isVersion_of_current current
  | fail reading =>
      exact htracked.setPass (system.not_pending (congrArg Pass.tasks reading)) nofun trivial
  | select reading settings =>
      have hroots := htracked.pass
      rw [reading] at hroots
      refine htracked.setPass (system.not_pending (congrArg Pass.tasks reading)) ?_
        (passWork_tracked hroots settings _)
      intro task htask
      obtain ⟨row, -, rfl⟩ := List.mem_map.mp htask
      exact (syncTask_recording _ _ _).1
  | work walking running answered => exact htracked.work walking running answered
  | finish walking ended =>
      refine htracked.setPass (fun partitionId sync hpending => ?_) nofun trivial
      obtain ⟨rest, hmem⟩ := hpending
      rw [walking] at hmem
      exact ended _ hmem

theorem System.Tracked.run {start system : System} (hstart : start.Tracked)
    (hreaches : Relation.ReflTransGen (Step NotOvertaken) start system) : system.Tracked := by
  induction hreaches with
  | refl => exact hstart
  | tail _ hstep ih => exact ih.step hstep

/-- Wherever no request puts into the cache what a sync pass has overtaken, a partition
that is recorded as synced is served from no older tree once nothing is in progress. -/
theorem synced_served {start system : System} (hstart : start.Settled)
    (hreaches : Relation.ReflTransGen (Step NotOvertaken) start system) (hquiet : system.Quiet) :
    system.world.ServesSynced :=
  (hstart.tracked.run hreaches).servesSynced hquiet

/-! ## A request and two passes -/

namespace Sample

open Viewer.Sample (firstRoot secondRoot)

/-- Before anything was published, requested or synced. -/
def start : System := ⟨⟨.empty, ∅, fun _ => .none⟩, .idle, []⟩

theorem start_settled : start.Settled where
  quiet := ⟨rfl, nofun⟩
  listed partitionId listing hlisting := by simp [start, ViewerState.empty] at hlisting
  recorded partitionId sync hsync := by simp [start] at hsync
  served partitionId listing sync hlisting := by simp [start, ViewerState.empty] at hlisting

def syncHandler : Prog.Handler syncSig SyncWorld
  | .viewer (.getRootBounded partitionId), world =>
      (.ok (world.published partitionId).current, world)
  | .viewer op, world => ((Viewer.Sample.handler op world.viewer).1,
      { world with viewer := (Viewer.Sample.handler op world.viewer).2 })
  | .stopping, world => (false, world)
  | .insertSync partitionId sync, world =>
      ((), { world with syncState := world.syncState.insert partitionId sync })
  | .markStale partitionId error, world =>
      ((), { world with syncState := world.syncState.markStale partitionId error })

theorem syncHandler_steps (op : SyncOp) (world : SyncWorld) :
    SyncStep op world (syncHandler op world).1 (syncHandler op world).2 := by
  cases op with
  | viewer op =>
      cases op with
      | getRootBounded partitionId => exact ⟨rfl, Or.inl rfl⟩
      | _ => exact ⟨rfl, Viewer.Sample.handler_steps _ world.viewer⟩
  | _ => rfl

/-- The steps about the first partition, with one request and passes in auto mode. -/
inductive Move
  | publish (root : Hash)
  | request
  | serve
  | start
  | read
  | select
  | work
  | finish

/-- Whether a request may make an access now. -/
abbrev Permits := System → SyncOp → Bool

def auto : PassSettings := ⟨true, false, fun _ => false⟩

def move (permits : Permits) (system : System) : Move → Option System
  | .publish root =>
      if hnew : root ∉ (system.world.published 0).roots then
        some { system with world := { system.world with
          published := Function.update system.world.published 0
            ((system.world.published 0).publish root hnew) } }
      else none
  | .request => some { system with
      requests := system.requests ++ [onViewer (partitionEntries 0)] }
  | .serve =>
      match system.requests[(0 : Nat)]? with
      | some (.call op rest) =>
          if permits system op then
            some { system with
              world := (syncHandler op system.world).2
              requests := system.requests.set 0 (rest (syncHandler op system.world).1) }
          else none
      | _ => none
  | .start =>
      match system.pass with
      | .idle => some { system with pass := .snapshot [] }
      | _ => none
  | .read =>
      match system.pass, (system.world.published 0).current with
      | .snapshot [], some root => some { system with pass := .snapshot [(0, root)] }
      | _, _ => none
  | .select =>
      match system.pass with
      | .snapshot roots => some { system with
          pass := .working ((passWork auto system.world.syncState roots).map fun row =>
            syncTask row.1 row.2.1 row.2.2) }
      | _ => none
  | .work =>
      match system.pass with
      | .working tasks =>
          match tasks[(0 : Nat)]? with
          | some (.call op rest) => some { system with
              world := (syncHandler op system.world).2
              pass := .working (tasks.set 0 (rest (syncHandler op system.world).1)) }
          | _ => none
      | _ => none
  | .finish =>
      match system.pass with
      | .working tasks =>
          if ∀ task ∈ tasks, task.Ended then some { system with pass := .idle } else none
      | _ => none

variable {permits : Permits} {allowed : System → UInt32 → CachedListing → Prop}

theorem move_step (hpermits : ∀ system partitionId listing,
      permits system (.viewer (.insertListing partitionId listing)) →
        allowed system partitionId listing)
    {system next : System} {m : Move} (hmove : move permits system m = some next) :
    Step allowed system next := by
  cases m with
  | publish root =>
      dsimp only [move] at hmove
      split at hmove
      next hnew =>
        rw [← Option.some.inj hmove]
        exact .publish system 0 root hnew
      next => cases hmove
  | request =>
      rw [← Option.some.inj hmove]
      exact .request system 0
  | serve =>
      dsimp only [move] at hmove
      split at hmove
      next op rest hrunning =>
        obtain ⟨hpermitted, hnext⟩ := Option.ite_none_right_eq_some.mp hmove
        rw [← Option.some.inj hnext]
        refine .serve hrunning ?_ (syncHandler_steps op system.world)
        rintro partitionId listing rfl
        exact hpermits system partitionId listing hpermitted
      next => cases hmove
  | start =>
      dsimp only [move] at hmove
      split at hmove
      next hidle =>
        rw [← Option.some.inj hmove]
        exact .start hidle
      next => cases hmove
  | read =>
      dsimp only [move] at hmove
      split at hmove
      next root hreading hcurrent =>
        rw [← Option.some.inj hmove]
        exact .read hreading (List.not_mem_nil) hcurrent
      next => cases hmove
  | select =>
      dsimp only [move] at hmove
      split at hmove
      next roots hreading =>
        rw [← Option.some.inj hmove]
        exact .select hreading auto
      next => cases hmove
  | work =>
      dsimp only [move] at hmove
      split at hmove
      next tasks hwalking =>
        split at hmove
        next op rest hrunning =>
          rw [← Option.some.inj hmove]
          exact .work hwalking hrunning (syncHandler_steps op system.world)
        next => cases hmove
      next => cases hmove
  | finish =>
      dsimp only [move] at hmove
      split at hmove
      next tasks hwalking =>
        obtain ⟨hended, hnext⟩ := Option.ite_none_right_eq_some.mp hmove
        rw [← Option.some.inj hnext]
        exact .finish hwalking hended
      next => cases hmove

theorem moves_reach (hpermits : ∀ system partitionId listing,
      permits system (.viewer (.insertListing partitionId listing)) →
        allowed system partitionId listing)
    {system final : System} {ms : List Move}
    (hmoves : ms.foldlM (move permits) system = some final) :
    Relation.ReflTransGen (Step allowed) system final := by
  induction ms generalizing system with
  | nil =>
      rw [← Option.some.inj hmoves]
  | cons m ms ih =>
      rw [List.foldlM_cons] at hmoves
      obtain ⟨next, hmove, hrest⟩ := Option.bind_eq_some_iff.mp hmoves
      exact .head (move_step hpermits hmove) (ih hrest)

/-- A request may add a listing of a partition that no pass has recorded, between passes. -/
def cautious : Permits
  | system, .viewer (.insertListing partitionId _) =>
      system.world.syncState[partitionId]?.isNone && system.pass.tasks.isEmpty
  | _, _ => true

theorem notOvertaken_of_cautious (system : System) (partitionId : UInt32) (listing : CachedListing)
    (hcautious : cautious system (.viewer (.insertListing partitionId listing))) :
    NotOvertaken system partitionId listing := by
  obtain ⟨hunrecorded, hidle⟩ := (Bool.and_eq_true _ _).mp hcautious
  rintro ⟨sync, -, -, hsync | hpending⟩
  · rw [hsync] at hunrecorded
    cases hunrecorded
  · exact system.not_pending (List.isEmpty_iff.mp hidle) _ _ hpending

/-- The request is answered before the second root is published and synced. -/
def inTime : List Move :=
  [.publish firstRoot, .request, .serve, .serve, .serve, .serve, .serve, .publish secondRoot,
    .start, .read, .select, .work, .work, .work, .work, .work, .work, .finish]

/-- The second root is published and synced while the request walks the first one. -/
def tooLate : List Move :=
  [.publish firstRoot, .request, .serve, .serve, .serve, .publish secondRoot,
    .start, .read, .select, .work, .work, .work, .work, .work, .work, .finish, .serve, .serve]

def Pass.isIdle : Pass → Bool
  | .idle => true
  | _ => false

/-- Nothing is in progress, and the first partition is listed and recorded at these roots,
of the two that were published. -/
structure Ends (listed recorded : Hash) (system : System) : Prop where
  idle : Pass.isIdle system.pass = true
  ended : ∀ request ∈ system.requests, request.Ended
  listing : system.world.viewer.listingCache[(0 : UInt32)]?.map CachedListing.root = some listed
  sync : (system.world.syncState[(0 : UInt32)]?.map fun sync => (sync.root, sync.staleError)) =
    some (recorded, none)
  published : (system.world.published 0).roots = [firstRoot, secondRoot]

instance (listed recorded : Hash) : DecidablePred (Ends listed recorded) := fun _ =>
  decidable_of_iff (_ ∧ _ ∧ _ ∧ _ ∧ _)
    ⟨fun ⟨idle, ended, listing, sync, published⟩ => ⟨idle, ended, listing, sync, published⟩,
      fun ends => ⟨ends.idle, ends.ended, ends.listing, ends.sync, ends.published⟩⟩

theorem Ends.quiet {listed recorded : Hash} {system : System}
    (hends : Ends listed recorded system) :
    system.Quiet := by
  refine ⟨?_, hends.ended⟩
  have hidle := hends.idle
  cases hpass : system.pass with
  | idle => rfl
  | _ =>
      rw [hpass] at hidle
      cases hidle

theorem Ends.exists_rows {listed recorded : Hash} {system : System}
    (hends : Ends listed recorded system) :
    ∃ listing sync, system.world.viewer.listingCache[(0 : UInt32)]? = some listing ∧
      listing.root = listed ∧ system.world.syncState[(0 : UInt32)]? = some sync ∧
      sync.root = recorded ∧ sync.staleError = none := by
  obtain ⟨listing, hlisting, hlisted⟩ := Option.map_eq_some_iff.mp hends.listing
  obtain ⟨sync, hsync, hrecorded⟩ := Option.map_eq_some_iff.mp hends.sync
  obtain ⟨hroot, hfresh⟩ := Prod.mk.inj hrecorded
  exact ⟨listing, sync, hlisting, hlisted, hsync, hroot, hfresh⟩

theorem exists_of_any {found : Option System} {p : System → Prop} [DecidablePred p]
    (hany : found.any (fun system => p system) = true) :
    ∃ system, found = some system ∧ p system := by
  obtain ⟨system, hfound, hp⟩ := (Option.any_eq_true _ _).mp hany
  exact ⟨system, hfound, of_decide_eq_true hp⟩

end Sample

/-- Answered before the second root is published, the request leaves nothing behind that
the pass does not replace. -/
theorem synced_served_sample :
    ∃ system : System, Relation.ReflTransGen (Step NotOvertaken) Sample.start system ∧
      Sample.Ends Viewer.Sample.secondRoot Viewer.Sample.secondRoot system ∧
      system.world.ServesSynced := by
  obtain ⟨system, hmoves, hends⟩ :
      ∃ system, Sample.inTime.foldlM (Sample.move Sample.cautious) Sample.start = some system ∧
        Sample.Ends Viewer.Sample.secondRoot Viewer.Sample.secondRoot system :=
    Sample.exists_of_any (by decide +kernel)
  have hreaches := Sample.moves_reach Sample.notOvertaken_of_cautious hmoves
  exact ⟨system, hreaches, hends, synced_served Sample.start_settled hreaches hends.quiet⟩

/-- A request that walks a root while the next one is published and synced puts the older
tree into the cache: nothing is in progress, and the partition is recorded at the newer root
without an error. -/
theorem synced_not_served :
    ∃ system, Relation.ReflTransGen (Step fun _ _ _ => True) Sample.start system ∧
      system.Quiet ∧ ¬system.world.ServesSynced := by
  obtain ⟨system, hmoves, hends⟩ :
      ∃ system, Sample.tooLate.foldlM (Sample.move fun _ _ => true) Sample.start = some system ∧
        Sample.Ends Viewer.Sample.firstRoot Viewer.Sample.secondRoot system :=
    Sample.exists_of_any (by decide +kernel)
  refine ⟨system, Sample.moves_reach (fun _ _ _ _ => trivial) hmoves, hends.quiet,
    fun hserves => ?_⟩
  obtain ⟨listing, sync, hlisting, hlisted, hsync, hrecorded, hfresh⟩ := hends.exists_rows
  have hatLeast := hserves 0 listing sync hlisting hsync hfresh
  apply hatLeast.not_older
  rw [hlisted, hrecorded]
  refine ⟨0, 1, Nat.zero_lt_one, ?_, ?_⟩
  · rw [Published.IsVersion, hends.published]
    rfl
  · rw [Published.IsVersion, hends.published]
    rfl

end Registry.Viewer.Sync

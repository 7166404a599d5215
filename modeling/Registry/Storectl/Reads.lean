import Registry.Core.Readback
import Registry.Daemon.Durability
import Registry.Daemon.Retention
import Registry.Storectl.Reader

/-! # What readers print

A reader prints only values of records in the index, however old its replica is. Under
one denylist it also never loses a record again: neither one that it has printed before
nor one that was published when an entry of its partition reached the replica.
-/

namespace Registry

open Effect

namespace Storectl

/-! ## What the replica names -/

section Rules

variable (prim : Primitives)

/-- The replica's entry of a partition names a tree with this entry. -/
def ReplicaShows (mirror : Mirror) (partitionId : Nat) (key : String) (entry : LeafEntry) : Prop :=
  ∃ root trie, mirror.replica.entry (.partition partitionId) =
      some (prim.blake3 root.bytes.toList) ∧
    root.bytes.toList ∈ mirror.daemon.world.blobs ∧
    prim.Represents mirror.daemon.world.blobs (some root) trie ∧
    prim.scheme.find key trie 0 = some entry

/-- What the other parties may do between two operations of a reader: no blob is removed
and no key is bound anew. In a `monotone` network the replica forgets no entry. -/
structure Grows (monotone : Prop) (before after : Mirror) : Prop where
  blobs : before.daemon.world.blobs ⊆ after.daemon.world.blobs
  bound : Bound before.daemon.world.index after.daemon.world.index
  shows : monotone → ∀ partitionId key entry, ReplicaShows prim before partitionId key entry →
    ReplicaShows prim after partitionId key entry

variable (lib : Libraries) (config : Config) (faults : Faults) (allowed : PublisherTask → Prop)

/-- Every entry of the replica names a stored tree of indexed records. In a `monotone`
network the pointer document still has what the replica has. -/
structure Mirrors (monotone : Prop) (blobUniverse : Set Bytes) (mirror : Mirror) : Prop where
  reached : GuidedSteps prim lib config faults allowed .initial mirror.daemon
  within : ∀ blob ∈ mirror.daemon.world.blobs, blob ∈ blobUniverse
  entries : ∀ (partitionId : Nat) (content : Hash),
    mirror.replica.entry (.partition partitionId) = some content →
      ∃ root trie, content = prim.blake3 root.bytes.toList ∧
        root.bytes.toList ∈ mirror.daemon.world.blobs ∧
        prim.Represents mirror.daemon.world.blobs (some root) trie ∧
        Faithful prim mirror.daemon.world.index trie
  shown : monotone → ∀ partitionId key entry, ReplicaShows prim mirror partitionId key entry →
    Shows prim mirror.daemon.world partitionId key entry

end Rules

section Steps

variable {prim : Primitives} {lib : Libraries} {config : Config} {faults : Faults}
  {allowed : PublisherTask → Prop} {monotone : Prop} {blobUniverse : Set Bytes}

theorem Grows.refl (mirror : Mirror) : Grows prim monotone mirror mirror where
  blobs := List.Subset.refl _
  bound _ record hrecord := ⟨record, hrecord, rfl⟩
  shows _ _ _ _ hshows := hshows

theorem Grows.trans {first second third : Mirror} (hfirst : Grows prim monotone first second)
    (hsecond : Grows prim monotone second third) : Grows prim monotone first third where
  blobs := List.Subset.trans hfirst.blobs hsecond.blobs
  bound key record hrecord := by
    obtain ⟨middle, hmiddle, hbinding⟩ := hfirst.bound key record hrecord
    obtain ⟨last, hlast, hlater⟩ := hsecond.bound key middle hmiddle
    exact ⟨last, hlast, hlater.trans hbinding⟩
  shows hmonotone partitionId key entry hshows :=
    hsecond.shows hmonotone partitionId key entry
      (hfirst.shows hmonotone partitionId key entry hshows)

theorem Mirrors.initial : Mirrors prim lib config faults allowed monotone blobUniverse
    { daemon := .initial, replica := .empty } where
  reached := .refl
  within blob hblob := absurd hblob List.not_mem_nil
  entries partitionId content hentry := by simp [PointerDoc.empty, PointerDoc.entry] at hentry
  shown _ partitionId key entry hshows := by
    obtain ⟨root, trie, hentry, -⟩ := hshows
    simp [PointerDoc.empty, PointerDoc.entry] at hentry

/-- The content of an entry tells the root and its tree. -/
theorem named_unique {blobs : Blobs} (hfree : prim.CollisionFree {held | held ∈ blobs})
    {first second : Hash} {firstTrie secondTrie : HamtTrie}
    (hhash : prim.blake3 first.bytes.toList = prim.blake3 second.bytes.toList)
    (hfirst : first.bytes.toList ∈ blobs) (hsecond : second.bytes.toList ∈ blobs)
    (hfirstTrie : prim.Represents blobs (some first) firstTrie)
    (hsecondTrie : prim.Represents blobs (some second) secondTrie) :
    first = second ∧ firstTrie = secondTrie := by
  obtain ⟨firstBytes⟩ := first
  obtain ⟨secondBytes⟩ := second
  obtain rfl : firstBytes = secondBytes := Vector.toList_inj.mp (hfree.1 hfirst hsecond hhash)
  exact ⟨rfl, Primitives.Represents.unique hfree hfirstTrie hsecondTrie⟩

/-- What the pointer document shows in a run under one denylist, it shows ever after. -/
theorem shows_later {denylist : Finset String} {state later : DaemonState}
    (hreached : GuidedSteps prim lib config faults (Publishing denylist) .initial state)
    (hsteps : GuidedSteps prim lib config faults (Publishing denylist) state later)
    (hfree : prim.CollisionFree {held | held ∈ later.world.blobs}) {partitionId : Nat}
    {key : String} {entry : LeafEntry} (hshows : Shows prim state.world partitionId key entry) :
    Shows prim later.world partitionId key entry := by
  let rules := retention prim config faults denylist {held | held ∈ later.world.blobs}
  have hhandle : ∀ request world, rules.inv world →
      rules.RequestOk world (handle prim lib config request) :=
    fun request world _ =>
      (retainingRequests prim lib config faults denylist _).handle_valid request trivial
  have htask : ∀ task : PublisherTask, Publishing denylist task → ∀ world, rules.inv world →
      rules.PublisherOk world (task.prog prim config) := by
    intro task htask world _
    rcases htask with rfl | rfl
    · exact Valid.mono (fun _ _ _ => trivial) (fun _ _ _ => trivial)
        ((retainingCycle prim config faults denylist _ hfree).publishCycle_valid hfree world)
    · exact seedLocalRoots_retains hfree world
  have hbounds : ∀ early late, SystemStep prim lib config faults early late →
      rules.bounds late.world → rules.bounds early.world :=
    fun early late hstep hlate blob hblob => hlate blob (systemStep_blobs_subset hstep hblob)
  have hstate := (Discipline.secure_guidedSteps hhandle htask hbounds hreached
    (systemSteps_blobs_subset hsteps.systemSteps) (Discipline.secure_initial AllCovered.empty)).1
  obtain ⟨-, hkept⟩ := Discipline.secure_guidedSteps hhandle htask hbounds hsteps
    (fun blob hblob => hblob) hstate
  exact hkept partitionId key entry hshows

/-- A step of the daemon. -/
theorem Mirrors.daemon (hmonotone : monotone → ∃ denylist, allowed = Publishing denylist)
    (hfree : prim.CollisionFree blobUniverse) {mirror : Mirror}
    (hmirrors : Mirrors prim lib config faults allowed monotone blobUniverse mirror)
    {next : DaemonState} (hstep : SystemStep prim lib config faults mirror.daemon next)
    (hstarts : Starts prim config allowed mirror.daemon next)
    (hnext : ∀ blob ∈ next.world.blobs, blob ∈ blobUniverse) :
    Mirrors prim lib config faults allowed monotone blobUniverse { mirror with daemon := next } ∧
      Grows prim monotone mirror { mirror with daemon := next } := by
  have hblobs : mirror.daemon.world.blobs ⊆ next.world.blobs := systemStep_blobs_subset hstep
  have hbound : Bound mirror.daemon.world.index next.world.index :=
    (durable_steps hmirrors.reached.systemSteps (.single hstep)).2.index.binding
  have hnextFree : prim.CollisionFree {held | held ∈ next.world.blobs} := hfree.mono hnext
  refine ⟨⟨hmirrors.reached.tail ⟨hstep, hstarts⟩, hnext, ?_, ?_⟩, hblobs, hbound, ?_⟩
  · intro partitionId content hentry
    obtain ⟨root, trie, hroot, hcontent, htrie, hfaithful⟩ :=
      hmirrors.entries partitionId content hentry
    exact ⟨root, trie, hroot, hblobs hcontent, htrie.mono hblobs, hfaithful.bound hbound⟩
  · intro hmono partitionId key entry hshows
    obtain ⟨root, trie, hentry, hroot, htrie, hfind⟩ := hshows
    -- The replica did not move, so it has named this tree before.
    obtain ⟨earlier, earlierTrie, hhash, hearlier, hearlierTrie, -⟩ :=
      hmirrors.entries partitionId _ hentry
    obtain ⟨rfl, rfl⟩ := named_unique hnextFree hhash hroot (hblobs hearlier) htrie
      (hearlierTrie.mono hblobs)
    have hshown := hmirrors.shown hmono partitionId key entry
      ⟨root, trie, hentry, hearlier, hearlierTrie, hfind⟩
    obtain ⟨denylist, rfl⟩ := hmonotone hmono
    exact shows_later hmirrors.reached (.single ⟨hstep, hstarts⟩) hnextFree hshown
  · intro _ partitionId key entry hshows
    obtain ⟨root, trie, hentry, hcontent, htrie, hfind⟩ := hshows
    exact ⟨root, trie, hentry, hblobs hcontent, htrie.mono hblobs, hfind⟩

/-- The entry that the replica takes over shows what the pointer document shows. -/
theorem replicaShows_of_shows {mirror : Mirror} {partitionId : Nat} {content : Hash}
    (hentry : mirror.daemon.world.doc.entry (.partition partitionId) = some content)
    {key : String} {entry : LeafEntry}
    (hshows : Shows prim mirror.daemon.world partitionId key entry) :
    ReplicaShows prim
      { mirror with replica := mirror.replica.setEntry (.partition partitionId) content }
      partitionId key entry := by
  obtain ⟨root, trie, hnames, htrie, hfind⟩ := hshows
  refine ⟨root, trie, ?_, hnames.content root rfl, htrie, hfind⟩
  rw [PointerDoc.entry_setEntry, if_pos rfl, ← hentry, hnames.entry]
  rfl

/-- An entry of the pointer document reaches the replica. -/
theorem Mirrors.sync (hfree : prim.CollisionFree blobUniverse) {mirror : Mirror}
    (hmirrors : Mirrors prim lib config faults allowed monotone blobUniverse mirror)
    {name : RootName} {content : Hash}
    (hnamed : mirror.daemon.world.doc.entry name = some content) :
    Mirrors prim lib config faults allowed monotone blobUniverse
        { mirror with replica := mirror.replica.setEntry name content } ∧
      Grows prim monotone mirror
        { mirror with replica := mirror.replica.setEntry name content } := by
  have hblobs : prim.CollisionFree {held | held ∈ mirror.daemon.world.blobs} :=
    hfree.mono hmirrors.within
  have hlegible := allLegible_of_reachable hmirrors.reached.systemSteps hblobs
  have hnew : ∀ partitionId, name = .partition partitionId → ∃ root trie,
      content = prim.blake3 root.bytes.toList ∧
        root.bytes.toList ∈ mirror.daemon.world.blobs ∧
        prim.Represents mirror.daemon.world.blobs (some root) trie ∧
        Faithful prim mirror.daemon.world.index trie := by
    intro partitionId hname
    obtain ⟨trees, htrees⟩ := hlegible.partitions partitionId
    have hentry := htrees.docRoot.entry
    rw [← hname, hnamed] at hentry
    obtain ⟨root, hroot, hcontent⟩ := Option.map_eq_some_iff.mp hentry.symm
    exact ⟨root, trees.docTrie, hcontent.symm, htrees.docRoot.content root hroot,
      hroot ▸ htrees.docTrie, htrees.faithful⟩
  refine ⟨⟨hmirrors.reached, hmirrors.within, ?_, ?_⟩, List.Subset.refl _,
    fun _ record hrecord => ⟨record, hrecord, rfl⟩, ?_⟩
  · intro partitionId other hentry
    rw [PointerDoc.entry_setEntry] at hentry
    split at hentry
    next hname =>
      obtain rfl := Option.some.inj hentry
      exact hnew partitionId hname
    next => exact hmirrors.entries partitionId other hentry
  · intro hmono partitionId key entry hshows
    obtain ⟨root, trie, hentry, hroot, htrie, hfind⟩ := hshows
    rw [PointerDoc.entry_setEntry] at hentry
    split at hentry
    next hname =>
      refine ⟨root, trie, ⟨?_, fun hash hhash => ?_⟩, htrie, hfind⟩
      · rw [← hname, hnamed, hentry]
        rfl
      · rw [← Option.some.inj hhash]
        exact hroot
    next =>
      exact hmirrors.shown hmono partitionId key entry ⟨root, trie, hentry, hroot, htrie, hfind⟩
  · intro hmono partitionId key entry hshows
    by_cases hname : name = .partition partitionId
    · subst hname
      exact replicaShows_of_shows hnamed (hmirrors.shown hmono partitionId key entry hshows)
    · obtain ⟨root, trie, hentry, hshown⟩ := hshows
      refine ⟨root, trie, ?_, hshown⟩
      rw [PointerDoc.entry_setEntry, if_neg hname, hentry]

end Steps

/-! ## Reading from the mirror -/

section Reading

variable (prim : Primitives) (lib : Libraries) (config : Config) (faults : Faults)
  (allowed : PublisherTask → Prop) (monotone : Prop) (blobUniverse : Set Bytes)

/-- A reader between the moves of the other parties. The faults it may see need not be
those of the daemon. -/
def reading (seen : Faults) : Setting daemonSig Mirror where
  sem := MirrorStep prim seen
  rely := Grows prim monotone
  inv := Mirrors prim lib config faults allowed monotone blobUniverse
  guar _ _ := True
  rely_refl := Grows.refl
  rely_trans := Grows.trans

/-- Which fault of a node an error of a read comes from. None makes it say that there is
nothing to read. -/
def ReadError.FromFault (seen : Faults) : ReadError → Prop
  | .pointer _ => seen.doc ∨ seen.store
  | .hamt _ => seen.store
  | .blobStore _ => seen.store
  | .unavailable _ => seen.store
  | .timedOut _ => False
  | .notIndexed _ _ => False

/-- A root that the replica named, and its tree. A `known` entry is in it. -/
structure Resolved (partitionId : Nat) (key : String) (known : Option LeafEntry) (root : Hash)
    (trie : HamtTrie) (mirror : Mirror) : Prop where
  content : root.bytes.toList ∈ mirror.daemon.world.blobs
  represents : prim.Represents mirror.daemon.world.blobs (some root) trie
  faithful : Faithful prim mirror.daemon.world.index trie
  known : ∀ entry ∈ known, prim.scheme.find key trie 0 = some entry
  shows : monotone → ∀ entry, prim.scheme.find key trie 0 = some entry →
    ReplicaShows prim mirror partitionId key entry

/-- The bytes are the value of the record that holds the key. -/
structure Printed (partitionId : Nat) (key : String) (known : Option LeafEntry) (bytes : Bytes)
    (mirror : Mirror) : Prop where
  record : ∃ record : IndexRecord, mirror.daemon.world.index.records[key]? = some record ∧
    prim.blake3 bytes = record.contentHash ∧ UInt64.ofNat bytes.length = record.size
  held : bytes ∈ mirror.daemon.world.blobs
  known : ∀ entry ∈ known, prim.blake3 bytes = entry.hash
  shows : monotone → ∃ entry, ReplicaShows prim mirror partitionId key entry ∧
    entry.hash = prim.blake3 bytes

variable {prim lib config faults allowed monotone blobUniverse} {seen : Faults}
  {partitionId : Nat} {key : String} {known : Option LeafEntry} {root : Hash} {trie : HamtTrie}

theorem Resolved.grows {before after : Mirror} (hgrows : Grows prim monotone before after)
    (hresolved : Resolved prim monotone partitionId key known root trie before) :
    Resolved prim monotone partitionId key known root trie after where
  content := hgrows.blobs hresolved.content
  represents := hresolved.represents.mono hgrows.blobs
  faithful := hresolved.faithful.bound hgrows.bound
  known := hresolved.known
  shows hmono entry hfind :=
    hgrows.shows hmono partitionId key entry (hresolved.shows hmono entry hfind)

theorem Printed.grows {before after : Mirror} (hgrows : Grows prim monotone before after)
    {bytes : Bytes} (hprinted : Printed prim monotone partitionId key known bytes before) :
    Printed prim monotone partitionId key known bytes after where
  record := by
    obtain ⟨record, hrecord, hhash, hsize⟩ := hprinted.record
    obtain ⟨later, hlater, hbinding⟩ := hgrows.bound key record hrecord
    simp only [IndexRecord.binding, Prod.mk.injEq] at hbinding
    exact ⟨later, hlater, hhash.trans hbinding.1.symm, hsize.trans hbinding.2.1.symm⟩
  held := hgrows.blobs hprinted.held
  known := hprinted.known
  shows hmono := by
    obtain ⟨entry, hshows, hhash⟩ := hprinted.shows hmono
    exact ⟨entry, hgrows.shows hmono partitionId key entry hshows, hhash⟩

variable (hfree : prim.CollisionFree blobUniverse) (hmono : ∀ entry ∈ known, monotone)

include hfree hmono

/-- The root that the replica names at some moment of the read. -/
theorem getPartitionRoot_valid {mirror : Mirror}
    (hknown : ∀ entry ∈ known, ReplicaShows prim mirror partitionId key entry) :
    Valid (reading prim lib config faults allowed monotone blobUniverse seen)
      (fun answer after => (answer = none → known = none) ∧ ∀ root, answer = some root →
        ∃ trie, Resolved prim monotone partitionId key known root trie after)
      (fun _ _ => seen.doc ∨ seen.store) (getPartitionRoot partitionId) mirror := by
  intro before hbefore hinv response after hstep
  obtain ⟨rfl, hanswer⟩ := hstep
  refine ⟨hinv, trivial, ?_⟩
  have hshown : ∀ entry ∈ known, ReplicaShows prim after partitionId key entry :=
    fun entry hentry => hbefore.shows (hmono entry hentry) partitionId key entry
      (hknown entry hentry)
  rcases hanswer with rfl | ⟨hfault, message, rfl⟩
  · cases hentry : after.replica.entry (.partition partitionId) with
    | none =>
        refine ⟨fun _ => Option.eq_none_iff_forall_not_mem.mpr fun entry hmem => ?_, nofun⟩
        obtain ⟨root, trie, hnamed, -⟩ := hshown entry hmem
        rw [hentry] at hnamed
        cases hnamed
    | some content =>
        obtain ⟨root, trie, rfl, hcontent, htrie, hfaithful⟩ :=
          hinv.entries partitionId content hentry
        have hblobs := hfree.mono hinv.within
        have hresolved : Resolved prim monotone partitionId key known root trie after := by
          refine ⟨hcontent, htrie, hfaithful, fun entry hmem => ?_, fun _ entry hfind => ?_⟩
          · obtain ⟨other, otherTrie, hnamed, hother, hotherTrie, hfind⟩ := hshown entry hmem
            rw [hentry] at hnamed
            obtain ⟨-, rfl⟩ := named_unique hblobs (Option.some.inj hnamed) hcontent hother htrie
              hotherTrie
            exact hfind
          · exact ⟨root, trie, hentry, hcontent, htrie, hfind⟩
        intro middle hmiddle hinvMiddle read last hread
        obtain ⟨rfl, -, hread⟩ := hread
        refine ⟨hinvMiddle, trivial, ?_⟩
        have hheld : prim.blobAt last.daemon.world.blobs (prim.blake3 root.bytes.toList) =
            some root.bytes.toList :=
          prim.blobAt_blake3 (hfree.mono hinvMiddle.within) (hmiddle.blobs hcontent)
        rcases hread with rfl | ⟨hfault, rfl | ⟨⟨message⟩, rfl⟩⟩
        · rw [hheld]
          have hlength : root.bytes.toList.length = 32 := by simp
          dsimp only
          rw [dif_pos hlength, hashOfBytes_toList]
          refine ⟨nofun, fun answer hanswer => ?_⟩
          obtain rfl := Option.some.inj hanswer
          exact ⟨trie, hresolved.grows hmiddle⟩
        · exact Or.inr hfault
        · exact Or.inr hfault
  · exact Or.inl hfault

/-- Waiting ends with a root of the replica. It gives up only on a key that the replica
is not known to show. -/
theorem waitForPartitionRoot_valid (polls : Nat) {mirror : Mirror}
    (hknown : ∀ entry ∈ known, ReplicaShows prim mirror partitionId key entry) :
    Valid (reading prim lib config faults allowed monotone blobUniverse seen)
      (fun root after => ∃ trie, Resolved prim monotone partitionId key known root trie after)
      (fun error _ => error.FromFault seen ∨ known = none)
      (waitForPartitionRoot partitionId polls) mirror := by
  induction polls generalizing mirror with
  | zero =>
      rw [waitForPartitionRoot]
      apply Valid.bind
      apply Valid.mapError
      refine Valid.mono ?_ ?_ (getPartitionRoot_valid hfree hmono hknown)
      · intro answer after hanswer
        cases answer with
        | none => exact Or.inr (hanswer.1 rfl)
        | some root => exact hanswer.2 root rfl
      · exact fun _ _ hfault => Or.inl hfault
  | succ polls ih =>
      rw [waitForPartitionRoot]
      apply Valid.bind
      apply Valid.mapError
      refine Valid.mono ?_ ?_ (getPartitionRoot_valid hfree hmono hknown)
      · intro answer after hanswer
        cases answer with
        | none =>
            refine ih fun entry hmem => ?_
            rw [hanswer.1 rfl] at hmem
            cases hmem
        | some root => exact hanswer.2 root rfl
      · exact fun _ _ hfault => Or.inl hfault

omit hmono in
/-- The content of a resolved entry is the value of the record that holds its key. -/
theorem fetchContent_valid {entry : LeafEntry} {mirror : Mirror}
    (hresolved : Resolved prim monotone partitionId key known root trie mirror)
    (hfind : prim.scheme.find key trie 0 = some entry) :
    Valid (reading prim lib config faults allowed monotone blobUniverse seen)
      (fun bytes after => Printed prim monotone partitionId key known bytes after)
      (fun error _ => error.FromFault seen) (fetchContent key entry) mirror := by
  intro before hbefore hinv response after hstep
  obtain ⟨rfl, -, hanswer⟩ := hstep
  refine ⟨hinv, trivial, ?_⟩
  have hlater := hresolved.grows hbefore
  obtain ⟨record, hrecord, rfl⟩ := hlater.faithful key entry hfind
  obtain ⟨bytes, hbytes, hhash, hsize⟩ :=
    (durable_steps hinv.reached.systemSteps .refl).1.values key record hrecord
  have hheld : prim.blobAt after.daemon.world.blobs (record.leafEntry key).hash = some bytes := by
    rw [show (record.leafEntry key).hash = prim.blake3 bytes from hhash.symm]
    exact prim.blobAt_blake3 (hfree.mono hinv.within) hbytes
  rcases hanswer with rfl | ⟨hfault, rfl | ⟨⟨message⟩, rfl⟩⟩
  · rw [hheld]
    refine ⟨⟨record, hrecord, hhash, hsize⟩, hbytes, fun other hmem => ?_, fun hmono => ?_⟩
    · rw [← Option.some.inj (hfind.symm.trans (hlater.known other hmem))]
      exact hhash
    · exact ⟨_, hlater.shows hmono _ hfind, hhash.symm⟩
  · exact hfault
  · exact hfault

/-- What a reader prints is the value of the record that holds the key. A key that the
replica is known to show is missed only for a fault. -/
theorem get_valid (topLevelPartitions polls : Nat) {mirror : Mirror}
    (hpartition : prim.partitionIdForKey key topLevelPartitions = partitionId)
    (hknown : ∀ entry ∈ known, ReplicaShows prim mirror partitionId key entry) :
    Valid (reading prim lib config faults allowed monotone blobUniverse seen)
      (fun bytes after => Printed prim monotone partitionId key known bytes after)
      (fun error _ => error.FromFault seen ∨ known = none)
      (get prim topLevelPartitions polls key) mirror := by
  rw [get, hpartition]
  apply Valid.bind
  refine Valid.mono ?_ (fun _ _ hfails => hfails)
    (waitForPartitionRoot_valid hfree hmono polls hknown)
  rintro root middle ⟨trie, hresolved⟩
  apply Valid.bind
  have hlookup : Valid (prim.storeSetting seen.store blobUniverse)
      (fun found after => middle.daemon.world.blobs ⊆ after ∧
        found = prim.scheme.find key trie 0)
      (fun _ _ => seen.store) (prim.lookup (some root) key) middle.daemon.world.blobs :=
    Primitives.lookup_valid hfree key hresolved.represents
  refine Valid.mono ?_ ?_ (Valid.embed (fun mirror : Mirror => mirror.daemon.world.blobs)
    (Resolved prim monotone partitionId key known root trie)
    (fun _ _ (hgrows : Grows prim monotone _ _) => hgrows.blobs)
    (fun _ (hinv : Mirrors prim lib config faults allowed monotone blobUniverse _) => hinv.within)
    (fun _ _ hgrows hframe => hframe.grows hgrows) ?_ hresolved hlookup)
  · rintro found after ⟨⟨-, rfl⟩, hafter⟩
    cases hfind : prim.scheme.find key trie 0 with
    | none =>
        refine Or.inr (Option.eq_none_iff_forall_not_mem.mpr fun entry hmem => ?_)
        rw [hafter.known entry hmem] at hfind
        cases hfind
    | some entry =>
        exact Valid.mono (fun _ _ hprinted => hprinted) (fun _ _ hfault => Or.inl hfault)
          (fetchContent_valid hfree hafter hfind)
  · rintro error after ⟨-, cause, rfl, hfault⟩
    exact Or.inl hfault
  · intro op before response after hinv hframe hstep
    cases op with
    | put bytes => exact hstep.elim
    | get hash =>
        obtain ⟨rfl, hread⟩ := hstep
        exact ⟨⟨hread, hinv.within⟩, hinv, trivial, hframe⟩

/-! ## Reading through the node -/

variable (prim lib config faults allowed monotone blobUniverse) in
/-- The cache of a node holds only blobs of the daemon. -/
structure Cached (network : Network) : Prop where
  mirrors : Mirrors prim lib config faults allowed monotone blobUniverse network.toMirror
  cache : network.cache ⊆ network.daemon.world.blobs

variable (prim lib config faults allowed monotone blobUniverse) in
/-- A reader's node between the moves of the other parties. -/
def nodeReading (nodeFaults : Faults) : Setting nodeSig Network where
  sem := NodeStep prim nodeFaults
  rely before after := Grows prim monotone before.toMirror after.toMirror ∧
    before.cache ⊆ after.cache
  inv := Cached prim lib config faults allowed monotone blobUniverse
  guar _ _ := True
  rely_refl network := ⟨Grows.refl network.toMirror, List.Subset.refl _⟩
  rely_trans hfirst hsecond :=
    ⟨hfirst.1.trans hsecond.1, List.Subset.trans hfirst.2 hsecond.2⟩

/-- What holds after some calls of a node. -/
def Since (prim : Primitives) (lib : Libraries) (config : Config) (faults : Faults)
    (allowed : PublisherTask → Prop) (monotone : Prop) (blobUniverse : Set Bytes)
    (start network : Network) : Prop :=
  Grows prim monotone start.toMirror network.toMirror ∧
    Mirrors prim lib config faults allowed monotone blobUniverse network.toMirror

variable {nodeFaults : Faults} {canFetch : Bool} {hash : Hash}

omit hmono

/-- The cache holds nothing that the daemon does not. -/
theorem blobAt_of_cached {network : Network}
    (hmirrors : Mirrors prim lib config faults allowed monotone blobUniverse network.toMirror)
    (hcache : network.cache ⊆ network.daemon.world.blobs) {blob : Bytes}
    (hcached : prim.blobAt network.cache hash = some blob) :
    prim.blobAt network.daemon.world.blobs hash = some blob := by
  obtain ⟨hblob, rfl⟩ := prim.mem_of_blobAt hcached
  exact prim.blobAt_blake3 (hfree.mono hmirrors.within) (hcache hblob)

/-- A read of the cache answers a blob of the daemon, or misses. -/
theorem readCached_valid {fails : ReadError → Network → Prop} (attempts : Nat)
    {start network : Network} (hstart : Grows prim monotone start.toMirror network.toMirror) :
    Valid (nodeReading prim lib config faults allowed monotone blobUniverse nodeFaults)
      (fun answer after => Since prim lib config faults allowed monotone blobUniverse start after ∧
        ∀ blob, answer = some blob → prim.blobAt after.daemon.world.blobs hash = some blob)
      fails (readCached hash (attempts + 1)) network := by
  induction attempts generalizing network with
  | zero =>
      intro before hbefore hinv response after hstep
      obtain ⟨rfl, hanswer⟩ := hstep
      refine ⟨hinv, trivial, ?_⟩
      have hsince := hstart.trans hbefore.1
      cases response with
      | none => exact ⟨⟨hsince, hinv.1⟩, nofun⟩
      | some blob =>
          refine ⟨⟨hsince, hinv.1⟩, fun other hother => ?_⟩
          rcases hanswer with hcached | ⟨-, hnone⟩
          · exact hother ▸ blobAt_of_cached hfree hinv.1 hinv.2 hcached.symm
          · cases hnone
  | succ attempts ih =>
      intro before hbefore hinv response after hstep
      obtain ⟨rfl, hanswer⟩ := hstep
      refine ⟨hinv, trivial, ?_⟩
      have hsince := hstart.trans hbefore.1
      cases response with
      | none => exact ih hsince
      | some blob =>
          refine ⟨⟨hsince, hinv.1⟩, fun other hother => ?_⟩
          rcases hanswer with hcached | ⟨-, hnone⟩
          · exact hother ▸ blobAt_of_cached hfree hinv.1 hinv.2 hcached.symm
          · cases hnone

/-- A node's store answers as the daemon's store does, or misses. -/
theorem getBlob_valid {fails : ReadError → Network → Prop} (network : Network) :
    Valid (nodeReading prim lib config faults allowed monotone blobUniverse nodeFaults)
      (fun response after =>
        Since prim lib config faults allowed monotone blobUniverse network after ∧
        prim.StoreStep (seenFaults canFetch nodeFaults).store (.get hash)
          after.daemon.world.blobs response after.daemon.world.blobs)
      fails (getBlob canFetch hash) network := by
  rw [getBlob]
  apply Valid.bind
  have hattempts : ∃ attempts, (if canFetch then 1 else 3) = attempts + 1 := by
    cases canFetch
    · exact ⟨2, rfl⟩
    · exact ⟨0, rfl⟩
  obtain ⟨attempts, hattempts⟩ := hattempts
  rw [hattempts]
  refine Valid.mono ?_ (fun _ _ hfails => hfails) (readCached_valid hfree attempts (Grows.refl _))
  rintro answer after ⟨hsince, hanswer⟩
  cases answer with
  | some blob => exact ⟨hsince, rfl, Or.inl (by rw [hanswer blob rfl])⟩
  | none =>
      cases canFetch with
      | false => exact ⟨hsince, rfl, Or.inr ⟨Or.inr rfl, Or.inl rfl⟩⟩
      | true =>
          intro before hbefore hinv downloaded later hstep
          have hgrown := hsince.1.trans hbefore.1
          cases downloaded with
          | false =>
              obtain ⟨hmissed, hlater⟩ := hstep
              obtain ⟨cache, rfl, hcache⟩ : ∃ cache, later = { before with cache := cache } ∧
                  cache ⊆ before.daemon.world.blobs := by
                rcases hlater with rfl | ⟨blob, hblob, rfl⟩
                · exact ⟨later.cache, rfl, hinv.2⟩
                · exact ⟨blob :: before.cache, rfl, List.cons_subset.mpr ⟨hblob, hinv.2⟩⟩
              refine ⟨⟨hinv.1, hcache⟩, trivial, ⟨hgrown, hinv.1⟩, rfl, ?_⟩
              rcases hmissed with hfault | hnone
              · exact Or.inr ⟨Or.inl hfault, Or.inl rfl⟩
              · exact Or.inl (by rw [hnone])
          | true =>
              obtain ⟨blob, hblob, rfl⟩ := hstep
              obtain ⟨hheld, hhash⟩ := prim.mem_of_blobAt hblob
              refine ⟨⟨hinv.1, List.cons_subset.mpr ⟨hheld, hinv.2⟩⟩, trivial, ?_⟩
              intro middle hmiddle hinvMiddle read last hread
              obtain ⟨rfl, hread⟩ := hread
              refine ⟨hinvMiddle, trivial, ⟨hgrown.trans hmiddle.1, hinvMiddle.1⟩, rfl, ?_⟩
              rcases hread with rfl | ⟨hfault, rfl⟩
              · -- The downloaded blob is still cached.
                have hcached : blob ∈ last.cache := hmiddle.2 List.mem_cons_self
                obtain ⟨found, hfound⟩ : ∃ found, prim.blobAt last.cache hash = some found := by
                  refine Option.isSome_iff_exists.mp ?_
                  simp only [Primitives.blobAt, List.find?_isSome, decide_eq_true_eq]
                  exact ⟨blob, hcached, hhash⟩
                rw [hfound, blobAt_of_cached hfree hinvMiddle.1 hinvMiddle.2 hfound]
                exact Or.inl rfl
              · exact Or.inr ⟨Or.inl hfault, Or.inl rfl⟩

/-- A node carries out the operations of a reader, with more misses than the daemon's
store has. -/
theorem onNode_valid {op : DaemonOp} (hop : Reads op) (network : Network) :
    Valid (nodeReading prim lib config faults allowed monotone blobUniverse nodeFaults)
      (fun response after => ∃ before,
        (reading prim lib config faults allowed monotone blobUniverse
          (seenFaults canFetch nodeFaults)).rely network.toMirror before ∧
        (reading prim lib config faults allowed monotone blobUniverse
          (seenFaults canFetch nodeFaults)).inv before ∧
        (reading prim lib config faults allowed monotone blobUniverse
          (seenFaults canFetch nodeFaults)).sem op before response after.toMirror)
      (fun _ _ => False) (onNode canFetch op) network := by
  match op with
  | .store (.get hash) =>
      refine Valid.mono ?_ (fun _ _ hfalse => hfalse) (getBlob_valid hfree network)
      rintro response after ⟨⟨hgrown, hmirrors⟩, hstep⟩
      exact ⟨after.toMirror, hgrown, hmirrors, rfl, hstep⟩
  | .doc (.getOne name) =>
      intro before hbefore hinv response after hstep
      obtain ⟨rfl, hanswer⟩ := hstep
      exact ⟨hinv, trivial, after.toMirror, hbefore.1, hinv.1, rfl, hanswer⟩

include hmono

/-- A reader on its node. -/
theorem get_onNode_valid (topLevelPartitions polls : Nat) {network : Network}
    (hpartition : prim.partitionIdForKey key topLevelPartitions = partitionId)
    (hknown : ∀ entry ∈ known, ReplicaShows prim network.toMirror partitionId key entry) :
    Valid (nodeReading prim lib config faults allowed monotone blobUniverse nodeFaults)
      (fun bytes after => Printed prim monotone partitionId key known bytes after.toMirror)
      (fun error _ => error.FromFault (seenFaults canFetch nodeFaults) ∨ known = none)
      ((get prim topLevelPartitions polls key).interpret (onNode canFetch)) network :=
  Valid.interpret Network.toMirror (fun _ hop => onNode_valid hfree hop)
    (get_reads prim topLevelPartitions polls key)
    (get_valid hfree hmono topLevelPartitions polls hpartition hknown)

end Reading

/-! ## Every run -/

section Runs

variable {prim : Primitives} {lib : Libraries} {config : Config} {faults nodeFaults : Faults}
  {allowed : PublisherTask → Prop} {monotone : Prop} {blobUniverse : Set Bytes}
  {moves : DaemonState → DaemonState → Prop} {network later final : Network}

theorem nodeStep_daemon {op : NodeOp} {response : nodeSig.Res op}
    (hstep : NodeStep prim nodeFaults op network response later) :
    later.daemon = network.daemon := by
  match op, response with
  | .getOne name, _ => rw [hstep.1]
  | .getBytes hash, _ => rw [hstep.1]
  | .download hash, true =>
      obtain ⟨blob, -, rfl⟩ := hstep
      rfl
  | .download hash, false =>
      obtain ⟨-, rfl | ⟨blob, -, rfl⟩⟩ := hstep
      · rfl
      · rfl

section Moves

variable (hmoves : ∀ state next, moves state next →
    SystemStep prim lib config faults state next ∧ Starts prim config allowed state next)

include hmoves

theorem moves_blobs_subset (hmoved : Network.Moves moves network later) :
    network.daemon.world.blobs ⊆ later.daemon.world.blobs := by
  cases hmoved with
  | daemon moved => exact systemStep_blobs_subset (hmoves _ _ moved).1
  | sync named => exact List.Subset.refl _
  | fetch held => exact List.Subset.refl _

theorem moves_cached (hmonotone : monotone → ∃ denylist, allowed = Publishing denylist)
    (hfree : prim.CollisionFree blobUniverse) (hmoved : Network.Moves moves network later)
    (hlater : ∀ blob ∈ later.daemon.world.blobs, blob ∈ blobUniverse)
    (hcached : Cached prim lib config faults allowed monotone blobUniverse network) :
    Cached prim lib config faults allowed monotone blobUniverse later ∧
      Grows prim monotone network.toMirror later.toMirror ∧ network.cache ⊆ later.cache := by
  obtain ⟨hmirrors, hcache⟩ := hcached
  cases hmoved with
  | @daemon next moved =>
      obtain ⟨hstep, hstarts⟩ := hmoves _ _ moved
      obtain ⟨hafter, hgrows⟩ := hmirrors.daemon hmonotone hfree hstep hstarts hlater
      exact ⟨⟨hafter, List.Subset.trans hcache hgrows.blobs⟩, hgrows, List.Subset.refl _⟩
  | sync named =>
      obtain ⟨hafter, hgrows⟩ := hmirrors.sync hfree named
      exact ⟨⟨hafter, hcache⟩, hgrows, List.Subset.refl _⟩
  | fetch held =>
      exact ⟨⟨hmirrors, List.cons_subset.mpr ⟨held, hcache⟩⟩, Grows.refl _,
        List.subset_cons_self _ _⟩

/-- A node stays sound however long the other parties go on. -/
theorem moves_all_cached (hmonotone : monotone → ∃ denylist, allowed = Publishing denylist)
    (hfree : prim.CollisionFree blobUniverse)
    (hmoved : Relation.ReflTransGen (Network.Moves moves) network later)
    (hlater : ∀ blob ∈ later.daemon.world.blobs, blob ∈ blobUniverse)
    (hcached : Cached prim lib config faults allowed monotone blobUniverse network) :
    Cached prim lib config faults allowed monotone blobUniverse later ∧
      Grows prim monotone network.toMirror later.toMirror := by
  induction hmoved with
  | refl => exact ⟨hcached, Grows.refl _⟩
  | tail _ hlast ih =>
      obtain ⟨hmiddle, hgrows⟩ :=
        ih fun blob hblob => hlater blob (moves_blobs_subset hmoves hlast hblob)
      obtain ⟨hafter, hmore, -⟩ := moves_cached hmoves hmonotone hfree hlast hlater hmiddle
      exact ⟨hafter, hgrows.trans hmore⟩

/-- A read stays verified through all turns of its node and of the other parties. -/
theorem get_turns (hmonotone : monotone → ∃ denylist, allowed = Publishing denylist)
    (hfree : prim.CollisionFree blobUniverse)
    (hfinal : ∀ blob ∈ final.daemon.world.blobs, blob ∈ blobUniverse)
    {canFetch : Bool} {topLevelPartitions polls : Nat} {key : String} {known : Option LeafEntry}
    {prog : Prog nodeSig ReadError Bytes}
    (hturns : Prog.Turns (NodeStep prim nodeFaults) (Network.Moves moves)
      ((get prim topLevelPartitions polls key).interpret (onNode canFetch), network) (prog, final))
    (hcached : Cached prim lib config faults allowed monotone blobUniverse network)
    (hmono : ∀ entry ∈ known, monotone)
    (hknown : ∀ entry ∈ known, ReplicaShows prim network.toMirror
      (prim.partitionIdForKey key topLevelPartitions) key entry) :
    Cached prim lib config faults allowed monotone blobUniverse final ∧
    Valid (nodeReading prim lib config faults allowed monotone blobUniverse nodeFaults)
      (fun bytes after => Printed prim monotone (prim.partitionIdForKey key topLevelPartitions) key
        known bytes after.toMirror)
      (fun error _ => error.FromFault (seenFaults canFetch nodeFaults) ∨ known = none)
      prog final := by
  let within : Network → Prop := fun network =>
    ∀ blob ∈ network.daemon.world.blobs, blob ∈ blobUniverse
  have hreflect : ∀ op (world : Network) response after, NodeStep prim nodeFaults op world response
      after → within after → within world := by
    intro op world response after hstep hafter
    rwa [show within world ↔ within after by simp only [within, nodeStep_daemon hstep]]
  exact Valid.turns within hreflect
    (fun _ _ hmoved hlater blob hblob => hlater blob (moves_blobs_subset hmoves hmoved hblob))
    (fun _ _ _ _ hstep _ => hstep)
    (fun _ _ hmoved hlater hcached => moves_cached hmoves hmonotone hfree hmoved hlater hcached)
    (fun _ _ _ hrely hprinted => hprinted.grows hrely.1) (fun _ _ _ _ hfails => hfails) hturns
    hfinal hcached (get_onNode_valid hfree hmono topLevelPartitions polls rfl hknown)

theorem turns_blobs_subset {prog next : Prog nodeSig ReadError Bytes}
    (hturns : Prog.Turns (NodeStep prim nodeFaults) (Network.Moves moves) (prog, network)
      (next, final)) : network.daemon.world.blobs ⊆ final.daemon.world.blobs := by
  generalize hend : (next, final) = ending at hturns
  induction hturns generalizing next final with
  | refl =>
      cases hend
      exact List.Subset.refl _
  | tail _ hturn ih =>
      cases hturn with
      | call answered =>
          cases hend
          have hsame := nodeStep_daemon answered
          rw [hsame]
          exact ih rfl
      | other prog moved =>
          cases hend
          exact List.Subset.trans (ih rfl) (moves_blobs_subset hmoves moved)

end Moves

theorem Cached.initial : Cached prim lib config faults allowed monotone blobUniverse .initial :=
  ⟨Mirrors.initial, List.nil_subset _⟩

/-- A read without faults, while the other parties rest. -/
theorem nodeHandler_turns (prim : Primitives) (nodeFaults : Faults)
    (moves : DaemonState → DaemonState → Prop) (prog : Prog nodeSig ReadError Bytes)
    (network : Network) :
    Prog.Turns (NodeStep prim nodeFaults) (Network.Moves moves) (prog, network)
      ((prog.run (nodeHandler prim) network).1.prog, (prog.run (nodeHandler prim) network).2) := by
  have hruns : Prog.Runs (NodeStep prim nodeFaults) prog network
      (prog.run (nodeHandler prim) network).1 (prog.run (nodeHandler prim) network).2 := by
    refine (Prog.run_runs (nodeHandler prim) prog network).imp ?_
    intro op before response after hcall
    have hstep := nodeStep_nodeHandler prim nodeFaults op before
    rwa [hcall] at hstep
  exact hruns.turns

theorem nodeHandler_run_daemon (prim : Primitives) (prog : Prog nodeSig ReadError Bytes)
    (network : Network) : (prog.run (nodeHandler prim) network).2.daemon = network.daemon := by
  refine ((Prog.run_runs (nodeHandler prim) prog network).reflects
    (fun reached => (prog.run (nodeHandler prim) network).2.daemon = reached.daemon) ?_ rfl)
  intro op before response after hcall hafter
  have hstep := nodeStep_nodeHandler prim .none op before
  rw [hcall] at hstep
  exact hafter.trans (nodeStep_daemon hstep)

/-- Any number of steps of the daemon alone. -/
theorem moves_of_steps {state next : DaemonState}
    (hsteps : Relation.ReflTransGen moves state next) (replica : PointerDoc) (cache : Blobs) :
    Relation.ReflTransGen (Network.Moves moves)
      { daemon := state, replica := replica, cache := cache }
      { daemon := next, replica := replica, cache := cache } := by
  induction hsteps with
  | refl => exact .refl
  | tail _ hstep ih => exact ih.tail (.daemon _ hstep)

/-- Whatever a reader prints for a key is the value of the record that holds the key in
the index. The replica may be out of date by any number of cycles, in each entry by
another, the daemon may fail, crash, heal and publish meanwhile, and the reader may
look under any partition count. -/
theorem reader_prints_accepted {canFetch : Bool} {topLevelPartitions polls : Nat} {key : String}
    {bytes : Bytes}
    (hreached : Relation.ReflTransGen (Network.Moves (SystemStep prim lib config faults)) .initial
      network)
    (hread : Prog.Turns (NodeStep prim nodeFaults)
      (Network.Moves (SystemStep prim lib config faults))
      ((get prim topLevelPartitions polls key).interpret (onNode canFetch), network)
      (.pure bytes, final))
    (hfree : prim.CollisionFree {held | held ∈ final.daemon.world.blobs}) :
    ∃ record : IndexRecord, final.daemon.world.index.records[key]? = some record ∧
      prim.blake3 bytes = record.contentHash ∧ UInt64.ofNat bytes.length = record.size := by
  have hmoves : ∀ state next, SystemStep prim lib config faults state next →
      SystemStep prim lib config faults state next ∧
      Starts prim config (fun _ => True) state next :=
    fun _ _ hstep => ⟨hstep, hstep.starts⟩
  have hmonotone : False → ∃ denylist, (fun _ => True) = Publishing denylist := False.elim
  obtain ⟨hcached, -⟩ := moves_all_cached hmoves hmonotone hfree hreached
    (fun _ hblob => turns_blobs_subset hmoves hread hblob) Cached.initial
  have hmono : ∀ entry ∈ (none : Option LeafEntry), False := nofun
  obtain ⟨-, hprinted⟩ := get_turns hmoves hmonotone hfree (fun _ hblob => hblob) hread hcached
    hmono nofun
  exact hprinted.record

namespace Sample

/-- A reader that has the entry of the first record's partition. -/
def mirrored : Network where
  daemon := Registry.Sample.published
  replica := PointerDoc.empty.setEntry (.partition 249)
    (Registry.Sample.prim.blake3 Registry.Sample.firstRoot.toList)
  cache := []

/-- Its read of the first record. -/
def read : Prog nodeSig ReadError Bytes :=
  (get Registry.Sample.prim 256 0 Registry.Sample.firstKey).interpret (onNode true)

/-- The reader after that read. -/
def readOnce : Network := (read.run (nodeHandler Registry.Sample.prim) mirrored).2

theorem readOnce_daemon : readOnce.daemon = Registry.Sample.published := by
  rw [readOnce, nodeHandler_run_daemon, mirrored]

theorem published_entry : Registry.Sample.published.world.doc.entry (.partition 249) =
    some (Registry.Sample.prim.blake3 Registry.Sample.firstRoot.toList) := by
  decide +kernel

theorem mirrored_reached {moves : DaemonState → DaemonState → Prop}
    (hpublished : Relation.ReflTransGen moves .initial Registry.Sample.published) :
    Relation.ReflTransGen (Network.Moves moves) .initial mirrored :=
  (moves_of_steps hpublished .empty []).tail (.sync _ published_entry)

theorem read_turns (nodeFaults : Faults) (moves : DaemonState → DaemonState → Prop) :
    Prog.Turns (NodeStep Registry.Sample.prim nodeFaults) (Network.Moves moves) (read, mirrored)
      (.pure (utf8 Registry.Sample.firstValue), readOnce) := by
  have hrun : (read.run (nodeHandler Registry.Sample.prim) mirrored).1 =
      .ok (utf8 Registry.Sample.firstValue) := by decide +kernel
  have hturns := nodeHandler_turns Registry.Sample.prim nodeFaults moves read mirrored
  rw [hrun] at hturns
  exact hturns

theorem readOnce_collisionFree :
    Registry.Sample.prim.CollisionFree {held | held ∈ readOnce.daemon.world.blobs} := by
  rw [readOnce_daemon]
  exact Primitives.collisionFree_of_blobs (by decide +kernel)

end Sample

/-- The first record is published and printed. -/
theorem reader_prints_accepted_sample :
    ∃ record : IndexRecord,
      Registry.Sample.published.world.index.records[Registry.Sample.firstKey]? = some record ∧
      Registry.Sample.prim.blake3 (utf8 Registry.Sample.firstValue) = record.contentHash := by
  have hpublished := Registry.Sample.published_reachable .all
  obtain ⟨record, hrecord, hhash, -⟩ := reader_prints_accepted (Sample.mirrored_reached hpublished)
    (Sample.read_turns .all _) Sample.readOnce_collisionFree
  rw [Sample.readOnce_daemon] at hrecord
  exact ⟨record, hrecord, hhash⟩

section Publishing

variable {denylist : Finset String}

end Publishing

end Runs

end Storectl

end Registry

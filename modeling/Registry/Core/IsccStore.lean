import Mathlib.Data.Finset.Basic
import Registry.Core.BlobStore
import Registry.Core.Nearest

/-! # The blob-backed similarity index

A directory blob names one manifest per bucket, a manifest names the bucket's
segments, and a segment lists members. Only the last segment of a bucket is ever
rewritten. A directory of the first format names one posting list per bucket
instead, which is read as a bucket with a single segment.
-/

namespace Registry

open Effect

def segmentMaxMembers : Nat := 4096

inductive IsccStoreError
  | blobStore (error : BlobStoreError)
  | missingBlob (hash : Hash)
  | corrupt (hash : Hash) (message : String)
  deriving DecidableEq, Repr

structure DirectoryV2 where
  v : UInt32
  buckets : Std.ExtTreeMap String Hash compare
  deriving DecidableEq

/-- The segments of a bucket, oldest first, and how many members they hold. -/
structure BucketManifest where
  count : UInt64
  segments : List Hash
  deriving DecidableEq

def BucketManifest.default : BucketManifest := ⟨0, []⟩

/-- A bucket as either directory format names it. -/
inductive BucketRef
  | manifest (hash : Hash)
  | legacyList (hash : Hash)

abbrev Directory := Std.ExtTreeMap String BucketRef compare

/-- The JSON library on the blobs of the index. What it prints parses back, and an
object whose fields are all hashes is no directory of the second format, which has
a number in it. -/
structure IndexFormat where
  printDirectory : DirectoryV2 → Bytes
  parseDirectory : Bytes → Except String DirectoryV2
  parseLegacy : Bytes → Except String (Std.ExtTreeMap String Hash compare)
  printManifest : BucketManifest → Bytes
  parseManifest : Bytes → Except String BucketManifest
  printMembers : List IsccMember → Bytes
  parseMembers : Bytes → Except String (List IsccMember)
  parseDirectory_print : ∀ directory, parseDirectory (printDirectory directory) = .ok directory
  parseManifest_print : ∀ manifest, parseManifest (printManifest manifest) = .ok manifest
  parseMembers_print : ∀ members, parseMembers (printMembers members) = .ok members
  parseDirectory_legacy : ∀ bytes legacy, parseLegacy bytes = .ok legacy →
    ∃ message, parseDirectory bytes = .error message

abbrev IsccProg (α : Type) := Prog storeSig IsccStoreError α

def loadJson {α : Type} (parse : Bytes → Except String α) (hash : Hash) : IsccProg α :=
  .call (.get hash) fun
    | .error error => .throw (.blobStore error)
    | .ok none => .throw (.missingBlob hash)
    | .ok (some bytes) =>
        match parse bytes with
        | .error message => .throw (.corrupt hash message)
        | .ok value => .pure value

def storeJson {α : Type} (print : α → Bytes) (value : α) : IsccProg Hash :=
  .call (.put (print value)) fun
    | .error error => .throw (.blobStore error)
    | .ok hash => .pure hash

/-- The members with those not yet there appended, one by one. -/
def appendNew (tail newMembers : List IsccMember) : List IsccMember :=
  newMembers.foldl (fun tail member =>
    if tail.any fun other => other.key = member.key ∧ other.contentCode = member.contentCode then
      tail
    else tail ++ [member]) tail

/-- Cut a list into pieces of at most `size`. -/
def pieces {α : Type} (size : Nat) : Nat → List α → List (List α)
  | 0, _ => []
  | _ + 1, [] => []
  | fuel + 1, item :: rest =>
      (item :: rest).take size :: pieces size fuel ((item :: rest).drop size)

/-- Incoming members grouped by the buckets they fall into. -/
def byBucket (params : BandParams) (members : List IsccMember) :
    Std.ExtTreeMap String (List IsccMember) compare :=
  members.foldl (fun grouped member =>
    (params.buckets member.contentCode).foldl (fun grouped bucket =>
      grouped.insert bucket.storageKey (grouped[bucket.storageKey]?.getD [] ++ [member])) grouped) ∅

namespace IndexFormat

variable (format : IndexFormat)

/-- A directory is of the second format if it says so, else of the first. -/
def directoryOf (bytes : Bytes) : Except String Directory :=
  let legacy := (format.parseLegacy bytes).map fun buckets =>
    buckets.map fun _ hash => BucketRef.legacyList hash
  match format.parseDirectory bytes with
  | .ok directory =>
      if directory.v = 2 then .ok (directory.buckets.map fun _ hash => BucketRef.manifest hash)
      else legacy
  | .error _ => legacy

def loadDirectory : Option Hash → IsccProg Directory
  | none => .pure ∅
  | some root => loadJson format.directoryOf root

def loadSegment (hash : Hash) : IsccProg (List IsccMember) := loadJson format.parseMembers hash

def loadBucketManifest : BucketRef → IsccProg BucketManifest
  | .manifest hash => loadJson format.parseManifest hash
  | .legacyList hash => do
      let list ← loadJson format.parseMembers hash
      pure ⟨UInt64.ofNat list.length, [hash]⟩

/-- Take the last segment off a manifest to append to it, if it is not full. -/
def takeTail (manifest : BucketManifest) : IsccProg (BucketManifest × List IsccMember) :=
  match manifest.segments.getLast? with
  | none => pure (manifest, [])
  | some hash => do
      let segment ← format.loadSegment hash
      if segment.length < segmentMaxMembers then
        pure (⟨manifest.count - UInt64.ofNat segment.length, manifest.segments.dropLast⟩, segment)
      else pure (manifest, [])

def storeSegments (manifest : BucketManifest) (segments : List (List IsccMember)) :
    IsccProg BucketManifest :=
  segments.foldlM (fun manifest segment => do
    let hash ← storeJson format.printMembers segment
    pure ⟨manifest.count + UInt64.ofNat segment.length, manifest.segments ++ [hash]⟩) manifest

/-- The manifest of a bucket, empty if the directory does not name it. -/
def manifestAt (directory : Directory) (bucketKey : String) : IsccProg BucketManifest :=
  match directory[bucketKey]? with
  | some bucket => format.loadBucketManifest bucket
  | none => pure .default

/-- Rewrite one bucket with new members. -/
def rewriteBucket (directory : Directory) (bucketKey : String) (newMembers : List IsccMember) :
    IsccProg Hash := do
  let manifest ← format.manifestAt directory bucketKey
  let (manifest, tail) ← format.takeTail manifest
  let tail := appendNew tail newMembers
  let manifest ← format.storeSegments manifest (pieces segmentMaxMembers tail.length tail)
  storeJson format.printManifest manifest

/-- The manifest of a bucket that the batch does not touch. -/
def carryBucket : BucketRef → IsccProg Hash
  | .manifest hash => pure hash
  | .legacyList hash => do
      let manifest ← format.loadBucketManifest (.legacyList hash)
      storeJson format.printManifest manifest

/-- Apply a batch of members, returning the new directory root. -/
def insertBatch (root : Option Hash) (params : BandParams) (members : List IsccMember) :
    IsccProg Hash := do
  let directory ← format.loadDirectory root
  let grouped := byBucket params members
  let carried ← directory.toList.foldlM (fun buckets row => do
    if grouped.contains row.1 then pure buckets
    else
      let hash ← format.carryBucket row.2
      pure (buckets.insert row.1 hash)) (∅ : Std.ExtTreeMap String Hash compare)
  let buckets ← grouped.toList.foldlM (fun buckets row => do
    let hash ← format.rewriteBucket directory row.1 row.2
    pure (buckets.insert row.1 hash)) carried
  storeJson format.printDirectory ⟨2, buckets⟩

/-- The members of a bucket, read segment by segment. -/
def loadMembers (manifest : BucketManifest) (candidates : List IsccMember) :
    IsccProg (List IsccMember) :=
  manifest.segments.foldlM (fun candidates hash => do
    let segment ← format.loadSegment hash
    pure (candidates ++ segment)) candidates

/-- Walk the index for a code and return the verified matches. -/
def query (root : Option Hash) (params : BandParams) (queryCode : UInt64)
    (radius probeRadius : Nat) : IsccProg (List SimilarityMatch) := do
  let directory ← format.loadDirectory root
  if directory.isEmpty then pure []
  else
    let (candidates, _) ← (params.queryBuckets queryCode probeRadius).foldlM
      (fun (candidates, seenBuckets) bucket => do
        let key := bucket.storageKey
        if key ∈ seenBuckets then pure (candidates, seenBuckets)
        else
          match directory[key]? with
          | none => pure (candidates, key :: seenBuckets)
          | some bucketRef =>
              let manifest ← format.loadBucketManifest bucketRef
              let candidates ← format.loadMembers manifest candidates
              pure (candidates, key :: seenBuckets)) ([], [])
    -- Repeated postings are collapsed, the first of each is kept.
    pure (verify queryCode candidates.eraseDups radius)

end IndexFormat

/-! ## What blobs say about an index -/

/-- A blob that the store holds under its hash. -/
def Primitives.Held (prim : Primitives) (blobs : Blobs) (hash : Hash) (bytes : Bytes) : Prop :=
  bytes ∈ blobs ∧ prim.blake3 bytes = hash

section Contents

variable (prim : Primitives) (format : IndexFormat)

def SegmentHolds (blobs : Blobs) (hash : Hash) (members : List IsccMember) : Prop :=
  ∃ bytes, prim.Held blobs hash bytes ∧ format.parseMembers bytes = .ok members

def ManifestHolds (blobs : Blobs) (manifest : BucketManifest) (members : List IsccMember) : Prop :=
  ∃ rows : List (Hash × List IsccMember), manifest.segments = rows.map Prod.fst ∧
    (∀ row ∈ rows, SegmentHolds prim format blobs row.1 row.2) ∧ members = rows.flatMap Prod.snd

def BucketHolds (blobs : Blobs) : BucketRef → List IsccMember → Prop
  | .manifest hash, members => ∃ bytes manifest, prim.Held blobs hash bytes ∧
      format.parseManifest bytes = .ok manifest ∧ ManifestHolds prim format blobs manifest members
  | .legacyList hash, members => SegmentHolds prim format blobs hash members

/-- Every bucket of a directory holds its members, and only named buckets do. -/
structure DirectoryHolds (blobs : Blobs) (directory : Directory)
    (content : String → List IsccMember) : Prop where
  named : ∀ key bucket, directory[key]? = some bucket →
      BucketHolds prim format blobs bucket (content key)
  unnamed : ∀ key : String, directory[key]? = none → content key = []

/-- A root whose directory holds the members of every bucket. -/
def IndexHolds (blobs : Blobs) (root : Option Hash) (content : String → List IsccMember) : Prop :=
  ∃ directory : Directory, (match root with
    | none => directory = ∅
    | some hash => ∃ bytes, prim.Held blobs hash bytes ∧ format.directoryOf bytes = .ok directory) ∧
    DirectoryHolds prim format blobs directory content

variable {prim format}

theorem Primitives.Held.mono {blobs later : Blobs} {hash : Hash} {bytes : Bytes}
    (hgrow : blobs ⊆ later) (hheld : prim.Held blobs hash bytes) : prim.Held later hash bytes :=
  ⟨hgrow hheld.1, hheld.2⟩

theorem SegmentHolds.mono {blobs later : Blobs} (hgrow : blobs ⊆ later) {hash : Hash}
    {members : List IsccMember} (hsegment : SegmentHolds prim format blobs hash members) :
    SegmentHolds prim format later hash members := by
  obtain ⟨bytes, hheld, hparse⟩ := hsegment
  exact ⟨bytes, hheld.mono hgrow, hparse⟩

theorem ManifestHolds.mono {blobs later : Blobs} (hgrow : blobs ⊆ later) {manifest : BucketManifest}
    {members : List IsccMember} (hmanifest : ManifestHolds prim format blobs manifest members) :
    ManifestHolds prim format later manifest members := by
  obtain ⟨rows, hsegments, hrows, hmembers⟩ := hmanifest
  exact ⟨rows, hsegments, fun row hrow => (hrows row hrow).mono hgrow, hmembers⟩

theorem BucketHolds.mono {blobs later : Blobs} (hgrow : blobs ⊆ later) {bucket : BucketRef}
    {members : List IsccMember} (hbucket : BucketHolds prim format blobs bucket members) :
    BucketHolds prim format later bucket members := by
  cases bucket with
  | manifest hash =>
      obtain ⟨bytes, manifest, hheld, hparse, hmanifest⟩ := hbucket
      exact ⟨bytes, manifest, hheld.mono hgrow, hparse, hmanifest.mono hgrow⟩
  | legacyList hash => exact SegmentHolds.mono hgrow hbucket

theorem DirectoryHolds.mono {blobs later : Blobs} (hgrow : blobs ⊆ later) {directory : Directory}
    {content : String → List IsccMember}
    (hdirectory : DirectoryHolds prim format blobs directory content) :
    DirectoryHolds prim format later directory content :=
  ⟨fun key bucket hnamed => (hdirectory.named key bucket hnamed).mono hgrow, hdirectory.unnamed⟩

theorem IndexHolds.mono {blobs later : Blobs} (hgrow : blobs ⊆ later) {root : Option Hash}
    {content : String → List IsccMember} (hindex : IndexHolds prim format blobs root content) :
    IndexHolds prim format later root content := by
  obtain ⟨directory, hroot, hdirectory⟩ := hindex
  refine ⟨directory, ?_, hdirectory.mono hgrow⟩
  cases root with
  | none => exact hroot
  | some hash =>
      obtain ⟨bytes, hheld, hparse⟩ := hroot
      exact ⟨bytes, hheld.mono hgrow, hparse⟩

/-- An index without a root is empty. -/
theorem indexHolds_none (blobs : Blobs) : IndexHolds prim format blobs none fun _ => [] := by
  refine ⟨∅, rfl, ?_, fun _ _ => rfl⟩
  intro key bucket hnamed
  simp at hnamed

end Contents

/-! ## Reading and writing blobs -/

section Calls

variable {prim : Primitives} {format : IndexFormat} {faults : Prop} {blobUniverse : Set Bytes}
  {blobs : Blobs}

theorem loadJson_valid {α : Type} (hfree : prim.CollisionFree blobUniverse)
    {parse : Bytes → Except String α} {hash : Hash} {bytes : Bytes} {value : α}
    (hheld : prim.Held blobs hash bytes) (hparse : parse bytes = .ok value) :
    Valid (prim.storeSetting faults blobUniverse)
      (fun result after => blobs ⊆ after ∧ result = value) (fun _ _ => faults)
      (loadJson parse hash) blobs := by
  intro before hgrow hinv response after hsem
  obtain ⟨⟨rfl, hresponse⟩, hafter⟩ := hsem
  refine ⟨hinv, List.Subset.refl _, ?_⟩
  rcases hresponse with rfl | ⟨hfault, rfl | ⟨error, rfl⟩⟩
  · have hget : prim.blobAt after hash = some bytes := by
      rw [← hheld.2]
      exact prim.blobAt_blake3 (hfree.mono hinv) (hgrow hheld.1)
    rw [hget]
    simp only [hparse]
    exact ⟨hgrow, rfl⟩
  · exact hfault
  · exact hfault

theorem storeJson_valid {α : Type} (print : α → Bytes) (value : α) :
    Valid (prim.storeSetting faults blobUniverse)
      (fun hash after => blobs ⊆ after ∧ prim.Held after hash (print value)) (fun _ _ => faults)
      (storeJson print value) blobs := by
  intro before hgrow hinv response after hsem
  refine ⟨hsem.2, hsem.1.subset, ?_⟩
  rcases hsem.1 with ⟨rfl, rfl⟩ | ⟨hfault, ⟨error, rfl⟩, -⟩
  · exact ⟨List.Subset.trans hgrow (List.subset_cons_self _ _), List.mem_cons_self, rfl⟩
  · exact hfault

theorem loadSegment_valid (hfree : prim.CollisionFree blobUniverse) {hash : Hash}
    {members : List IsccMember} (hsegment : SegmentHolds prim format blobs hash members) :
    Valid (prim.storeSetting faults blobUniverse)
      (fun result after => blobs ⊆ after ∧ result = members) (fun _ _ => faults)
      (format.loadSegment hash) blobs := by
  obtain ⟨bytes, hheld, hparse⟩ := hsegment
  exact loadJson_valid hfree hheld hparse

theorem loadDirectory_valid (hfree : prim.CollisionFree blobUniverse) {root : Option Hash}
    {content : String → List IsccMember} (hindex : IndexHolds prim format blobs root content) :
    Valid (prim.storeSetting faults blobUniverse)
      (fun directory after => blobs ⊆ after ∧ DirectoryHolds prim format after directory content)
      (fun _ _ => faults) (format.loadDirectory root) blobs := by
  obtain ⟨directory, hroot, hdirectory⟩ := hindex
  cases root with
  | none =>
      subst hroot
      exact ⟨List.Subset.refl _, hdirectory⟩
  | some hash =>
      obtain ⟨bytes, hheld, hparse⟩ := hroot
      refine Valid.mono ?_ (fun _ _ h => h) (loadJson_valid hfree hheld hparse)
      rintro result after ⟨hgrow, rfl⟩
      exact ⟨hgrow, hdirectory.mono hgrow⟩

theorem loadBucketManifest_valid (hfree : prim.CollisionFree blobUniverse) {bucket : BucketRef}
    {members : List IsccMember} (hbucket : BucketHolds prim format blobs bucket members) :
    Valid (prim.storeSetting faults blobUniverse)
      (fun manifest after => blobs ⊆ after ∧ ManifestHolds prim format after manifest members)
      (fun _ _ => faults) (format.loadBucketManifest bucket) blobs := by
  cases bucket with
  | manifest hash =>
      obtain ⟨bytes, manifest, hheld, hparse, hmanifest⟩ := hbucket
      refine Valid.mono ?_ (fun _ _ h => h) (loadJson_valid hfree hheld hparse)
      rintro result after ⟨hgrow, rfl⟩
      exact ⟨hgrow, hmanifest.mono hgrow⟩
  | legacyList hash =>
      obtain ⟨bytes, hheld, hparse⟩ := hbucket
      apply Valid.bind
      refine Valid.mono ?_ (fun _ _ h => h) (loadJson_valid hfree hheld hparse)
      rintro result after ⟨hgrow, rfl⟩
      refine ⟨hgrow, [(hash, result)], rfl, ?_, by simp⟩
      intro row hrow
      rw [List.mem_singleton.mp hrow]
      exact ⟨bytes, hheld.mono hgrow, hparse⟩

/-! ## Inserting -/

theorem mem_appendNew_iff (tail newMembers : List IsccMember) (member : IsccMember) :
    member ∈ appendNew tail newMembers ↔ member ∈ tail ∨ member ∈ newMembers := by
  induction newMembers generalizing tail with
  | nil => simp [appendNew]
  | cons next rest ih =>
      rw [appendNew, List.foldl_cons, ← appendNew, ih, List.mem_cons]
      split
      next hknown =>
        obtain ⟨other, hother, hsame⟩ := List.any_eq_true.mp hknown
        obtain ⟨hkey, hcode⟩ := of_decide_eq_true hsame
        have hmem : next ∈ tail := by
          obtain rfl : other = next := by
            cases other
            cases next
            simp_all
          exact hother
        constructor
        · rintro (htail | hrest)
          · exact Or.inl htail
          · exact Or.inr (Or.inr hrest)
        · rintro (htail | rfl | hrest)
          · exact Or.inl htail
          · exact Or.inl hmem
          · exact Or.inr hrest
      next => simp [or_assoc]

theorem flatten_pieces {α : Type} {size : Nat} (hsize : 0 < size) {fuel : Nat} {items : List α}
    (hfuel : items.length ≤ fuel) : (pieces size fuel items).flatten = items := by
  induction fuel generalizing items with
  | zero =>
      obtain rfl : items = [] := List.length_eq_zero_iff.mp (Nat.le_zero.mp hfuel)
      rfl
  | succ fuel ih =>
      cases items with
      | nil => rfl
      | cons item rest =>
          have hshorter : ((item :: rest).drop size).length ≤ fuel := by
            rw [List.length_drop]
            omega
          rw [pieces, List.flatten_cons, ih hshorter, List.take_append_drop]

/-- The tail taken off a manifest is what the rest of it lacks. -/
theorem takeTail_valid (hfree : prim.CollisionFree blobUniverse) {manifest : BucketManifest}
    {members : List IsccMember} (hmanifest : ManifestHolds prim format blobs manifest members) :
    Valid (prim.storeSetting faults blobUniverse)
      (fun result after => blobs ⊆ after ∧ ∃ rest, members = rest ++ result.2 ∧
        ManifestHolds prim format after result.1 rest)
      (fun _ _ => faults) (format.takeTail manifest) blobs := by
  obtain ⟨rows, hsegments, hrows, rfl⟩ := hmanifest
  rw [IndexFormat.takeTail]
  cases hlast : manifest.segments.getLast? with
  | none => exact ⟨List.Subset.refl _, _, (List.append_nil _).symm, rows, hsegments, hrows, rfl⟩
  | some hash =>
      rw [hsegments, List.getLast?_map, Option.map_eq_some_iff] at hlast
      obtain ⟨⟨_, members⟩, hlastRow, rfl⟩ := hlast
      obtain ⟨front, rfl⟩ := List.getLast?_eq_some_iff.mp hlastRow
      have hsegment := hrows _ (List.mem_append_right front List.mem_cons_self)
      apply Valid.bind
      refine Valid.mono ?_ (fun _ _ h => h) (loadSegment_valid hfree hsegment)
      rintro segment after ⟨hgrow, rfl⟩
      have hgrown : ∀ row ∈ front ++ [(_, segment)], SegmentHolds prim format after row.1 row.2 :=
        fun row hrow => (hrows row hrow).mono hgrow
      split
      · refine ⟨hgrow, front.flatMap Prod.snd, by simp, front, by simp [hsegments], ?_, rfl⟩
        exact fun row hrow => hgrown row (List.mem_append_left _ hrow)
      · exact ⟨hgrow, _, (List.append_nil _).symm, _, hsegments, hgrown, rfl⟩

theorem storeSegments_valid {manifest : BucketManifest} {members : List IsccMember}
    (segments : List (List IsccMember))
    (hmanifest : ManifestHolds prim format blobs manifest members) :
    Valid (prim.storeSetting faults blobUniverse)
      (fun result after => blobs ⊆ after ∧
        ManifestHolds prim format after result (members ++ segments.flatten))
      (fun _ _ => faults) (format.storeSegments manifest segments) blobs := by
  -- What is stored so far, with what is left to store, is everything.
  let I : List (List IsccMember) → BucketManifest → Blobs → Prop := fun rest current after =>
    blobs ⊆ after ∧ ∃ stored, ManifestHolds prim format after current stored ∧
      stored ++ rest.flatten = members ++ segments.flatten
  have hinit : I segments manifest blobs := ⟨List.Subset.refl _, members, hmanifest, rfl⟩
  refine Valid.mono ?_ (fun _ _ h => h) (Valid.foldlM I ?_ hinit)
  · rintro result after ⟨hgrow, stored, hstored, hall⟩
    rw [← hall, List.flatten_nil, List.append_nil]
    exact ⟨hgrow, hstored⟩
  · rintro segment rest current after ⟨hgrow, stored, ⟨rows, hsegments, hrows, rfl⟩, hall⟩
    apply Valid.bind
    refine Valid.mono ?_ (fun _ _ h => h) (storeJson_valid format.printMembers segment)
    rintro hash later ⟨hlater, hheld⟩
    refine ⟨List.Subset.trans hgrow hlater, (rows ++ [(hash, segment)]).flatMap Prod.snd, ?_, ?_⟩
    · refine ⟨_, by simp [hsegments], fun row hrow => ?_, rfl⟩
      rcases List.mem_append.mp hrow with hold | hnew
      · exact (hrows row hold).mono hlater
      · rw [List.mem_singleton.mp hnew]
        exact ⟨_, hheld, format.parseMembers_print segment⟩
    · rw [← hall]
      simp

theorem manifestAt_valid (hfree : prim.CollisionFree blobUniverse) {directory : Directory}
    {content : String → List IsccMember}
    (hdirectory : DirectoryHolds prim format blobs directory content) (key : String) :
    Valid (prim.storeSetting faults blobUniverse)
      (fun manifest after => blobs ⊆ after ∧ ManifestHolds prim format after manifest (content key))
      (fun _ _ => faults) (format.manifestAt directory key) blobs := by
  rw [IndexFormat.manifestAt]
  cases hnamed : directory[key]? with
  | some bucket => exact loadBucketManifest_valid hfree (hdirectory.named key bucket hnamed)
  | none =>
      refine ⟨List.Subset.refl _, [], rfl, by simp, ?_⟩
      rw [hdirectory.unnamed key hnamed]
      rfl

/-- A rewritten bucket holds its old and its new members. -/
theorem rewriteBucket_valid (hfree : prim.CollisionFree blobUniverse) {directory : Directory}
    {content : String → List IsccMember}
    (hdirectory : DirectoryHolds prim format blobs directory content) (key : String)
    (newMembers : List IsccMember) :
    Valid (prim.storeSetting faults blobUniverse)
      (fun hash after => blobs ⊆ after ∧ ∃ members,
        BucketHolds prim format after (.manifest hash) members ∧
          ∀ member, member ∈ members ↔ member ∈ content key ∨ member ∈ newMembers)
      (fun _ _ => faults) (format.rewriteBucket directory key newMembers) blobs := by
  apply Valid.bind
  refine Valid.mono ?_ (fun _ _ h => h) (manifestAt_valid hfree hdirectory key)
  rintro manifest after ⟨hgrow, hmanifest⟩
  apply Valid.bind
  refine Valid.mono ?_ (fun _ _ h => h) (takeTail_valid hfree hmanifest)
  rintro ⟨front, tail⟩ later ⟨hlater, rest, hmembers, hrest⟩
  apply Valid.bind
  refine Valid.mono ?_ (fun _ _ h => h) (storeSegments_valid
    (pieces segmentMaxMembers (appendNew tail newMembers).length (appendNew tail newMembers)) hrest)
  rintro whole last ⟨hlast, hwhole⟩
  refine Valid.mono ?_ (fun _ _ h => h) (storeJson_valid format.printManifest whole)
  rintro hash final ⟨hfinal, hheld⟩
  refine ⟨List.Subset.trans hgrow (List.Subset.trans hlater (List.Subset.trans hlast hfinal)), _,
    ⟨_, whole, hheld, format.parseManifest_print whole, hwhole.mono hfinal⟩, fun member => ?_⟩
  rw [flatten_pieces (by decide) le_rfl, List.mem_append, mem_appendNew_iff, hmembers,
    List.mem_append, or_assoc]

theorem carryBucket_valid (hfree : prim.CollisionFree blobUniverse) {bucket : BucketRef}
    {members : List IsccMember} (hbucket : BucketHolds prim format blobs bucket members) :
    Valid (prim.storeSetting faults blobUniverse)
      (fun hash after => blobs ⊆ after ∧ BucketHolds prim format after (.manifest hash) members)
      (fun _ _ => faults) (format.carryBucket bucket) blobs := by
  cases bucket with
  | manifest hash => exact ⟨List.Subset.refl _, hbucket⟩
  | legacyList hash =>
      apply Valid.bind
      refine Valid.mono ?_ (fun _ _ h => h) (loadBucketManifest_valid hfree hbucket)
      rintro manifest after ⟨hgrow, hmanifest⟩
      refine Valid.mono ?_ (fun _ _ h => h) (storeJson_valid format.printManifest manifest)
      rintro stored later ⟨hlater, hheld⟩
      exact ⟨List.Subset.trans hgrow hlater, _, manifest, hheld,
        format.parseManifest_print manifest, hmanifest.mono hlater⟩

/-- The bucket of this key is one of the member's. -/
def FallsInto (params : BandParams) (key : String) (member : IsccMember) : Prop :=
  ∃ bucket ∈ params.buckets member.contentCode, bucket.storageKey = key

instance (params : BandParams) (key : String) : DecidablePred (FallsInto params key) :=
  fun member => inferInstanceAs
    (Decidable (∃ bucket ∈ params.buckets member.contentCode, bucket.storageKey = key))

theorem mem_foldl_insert_iff (member : IsccMember) (ids : List BucketId)
    (grouped : Std.ExtTreeMap String (List IsccMember) compare) (key : String)
    (other : IsccMember) :
    other ∈ (ids.foldl (fun grouped bucket => grouped.insert bucket.storageKey
        (grouped[bucket.storageKey]?.getD [] ++ [member])) grouped)[key]?.getD [] ↔
      other ∈ grouped[key]?.getD [] ∨
      (other = member ∧ ∃ bucket ∈ ids, bucket.storageKey = key) := by
  induction ids generalizing grouped with
  | nil => simp
  | cons bucket rest ih =>
      rw [List.foldl_cons, ih, List.exists_mem_cons_iff]
      by_cases hkey : bucket.storageKey = key
      · subst hkey
        rw [Std.ExtTreeMap.getElem?_insert_self, Option.getD_some, List.mem_append,
          List.mem_singleton, or_assoc]
        refine or_congr Iff.rfl ⟨?_, fun hmember => Or.inl hmember.1⟩
        rintro (rfl | ⟨rfl, hrest⟩)
        · exact ⟨rfl, Or.inl rfl⟩
        · exact ⟨rfl, Or.inr hrest⟩
      · simp only [Std.ExtTreeMap.getElem?_insert, Std.compare_eq_iff_eq, if_neg hkey]
        refine or_congr Iff.rfl (and_congr Iff.rfl ⟨Or.inr, ?_⟩)
        exact fun hbucket => hbucket.resolve_left hkey

/-- Grouping puts each member into all of its buckets and into no other. -/
theorem mem_byBucket_iff (params : BandParams) (members : List IsccMember) (key : String)
    (member : IsccMember) : member ∈ (byBucket params members)[key]?.getD [] ↔
      member ∈ members ∧ FallsInto params key member := by
  induction members using List.reverseRecOn with
  | nil => simp [byBucket]
  | append_singleton members last ih =>
      rw [byBucket, List.foldl_append, List.foldl_cons, List.foldl_nil, ← byBucket,
        mem_foldl_insert_iff, ih, List.mem_append, List.mem_singleton, or_and_right]
      refine or_congr Iff.rfl ⟨?_, ?_⟩
      · rintro ⟨rfl, hfalls⟩
        exact ⟨rfl, hfalls⟩
      · rintro ⟨rfl, hfalls⟩
        exact ⟨rfl, hfalls⟩

theorem byBucket_ne_nil (params : BandParams) (members : List IsccMember) (key : String)
    (list : List IsccMember) (hlist : (byBucket params members)[key]? = some list) : list ≠ [] := by
  have hinner : ∀ (member : IsccMember) (ids : List BucketId)
      (grouped : Std.ExtTreeMap String (List IsccMember) compare),
      (∀ (key : String) (list : List IsccMember), grouped[key]? = some list → list ≠ []) →
      ∀ (key : String) (list : List IsccMember),
      (ids.foldl (fun grouped bucket => grouped.insert bucket.storageKey
        (grouped[bucket.storageKey]?.getD [] ++ [member])) grouped)[key]? = some list →
          list ≠ [] := by
    intro member ids
    induction ids with
    | nil => exact fun grouped hgrouped => hgrouped
    | cons bucket rest ih =>
        intro grouped hgrouped
        refine ih _ fun key list hlist => ?_
        rw [Std.ExtTreeMap.getElem?_insert] at hlist
        split at hlist
        · rw [← Option.some.inj hlist]
          simp
        · exact hgrouped key list hlist
  induction members using List.reverseRecOn generalizing key list with
  | nil => simp [byBucket] at hlist
  | append_singleton members last ih =>
      rw [byBucket, List.foldl_append, List.foldl_cons, List.foldl_nil, ← byBucket] at hlist
      exact hinner last _ _ ih key list hlist

/-- What the new directory holds under this key is as wanted. -/
def EntryHolds (prim : Primitives) (format : IndexFormat) (blobs : Blobs)
    (buckets : Std.ExtTreeMap String Hash compare) (key : String)
    (wanted : List IsccMember → Prop) : Prop :=
  ∃ members : List IsccMember, wanted members ∧ (buckets[key]? = none → members = []) ∧
    ∀ hash, buckets[key]? = some hash → BucketHolds prim format blobs (.manifest hash) members

theorem EntryHolds.mono {later : Blobs} (hgrow : blobs ⊆ later)
    {buckets : Std.ExtTreeMap String Hash compare} {key : String} {wanted : List IsccMember → Prop}
    (hentry : EntryHolds prim format blobs buckets key wanted) :
    EntryHolds prim format later buckets key wanted := by
  obtain ⟨members, hwanted, hnone, hsome⟩ := hentry
  exact ⟨members, hwanted, hnone, fun hash hhash => (hsome hash hhash).mono hgrow⟩

theorem EntryHolds.of_insert {buckets : Std.ExtTreeMap String Hash compare} {key : String}
    {hash : Hash} {members : List IsccMember} {wanted : List IsccMember → Prop}
    (hbucket : BucketHolds prim format blobs (.manifest hash) members) (hwanted : wanted members) :
    EntryHolds prim format blobs (buckets.insert key hash) key wanted := by
  refine ⟨members, hwanted, ?_, ?_⟩
  · simp
  · intro other hother
    rw [Std.ExtTreeMap.getElem?_insert_self] at hother
    obtain rfl := Option.some.inj hother
    exact hbucket

theorem EntryHolds.insert_of_ne {buckets : Std.ExtTreeMap String Hash compare} {key other : String}
    {hash : Hash} {wanted : List IsccMember → Prop} (hne : key ≠ other)
    (hentry : EntryHolds prim format blobs buckets other wanted) :
    EntryHolds prim format blobs (buckets.insert key hash) other wanted := by
  have hsame : (buckets.insert key hash)[other]? = buckets[other]? := by
    simp only [Std.ExtTreeMap.getElem?_insert, Std.compare_eq_iff_eq, if_neg hne]
  rw [EntryHolds, hsame]
  exact hentry

/-- The buckets that the batch does not touch are carried over. -/
theorem carryBuckets_valid (hfree : prim.CollisionFree blobUniverse) {directory : Directory}
    {content : String → List IsccMember}
    (hdirectory : DirectoryHolds prim format blobs directory content)
    (grouped : Std.ExtTreeMap String (List IsccMember) compare) :
    Valid (prim.storeSetting faults blobUniverse)
      (fun buckets after => blobs ⊆ after ∧ ∀ key, ¬ grouped.contains key →
        EntryHolds prim format after buckets key (· = content key))
      (fun _ _ => faults)
      (directory.toList.foldlM (fun buckets row => do
        if grouped.contains row.1 then pure buckets
        else
          let hash ← format.carryBucket row.2
          pure (buckets.insert row.1 hash)) (∅ : Std.ExtTreeMap String Hash compare)) blobs := by
  let I : List (String × BucketRef) → Std.ExtTreeMap String Hash compare → Blobs → Prop :=
    fun rest buckets after => blobs ⊆ after ∧ (∀ row ∈ rest, row ∈ directory.toList) ∧
      ∀ key, ¬ grouped.contains key → key ∉ rest.map Prod.fst →
        EntryHolds prim format after buckets key (· = content key)
  have hinit : I directory.toList ∅ blobs := by
    refine ⟨List.Subset.refl _, fun _ hrow => hrow, fun key _ hkey => ?_⟩
    have hunnamed : directory[key]? = none := by
      cases hnamed : directory[key]? with
      | none => rfl
      | some bucket =>
          refine absurd (List.mem_map.mpr ⟨(key, bucket), ?_, rfl⟩) hkey
          exact Std.ExtTreeMap.mem_toList_iff_getElem?_eq_some.mpr hnamed
    refine ⟨[], (hdirectory.unnamed key hunnamed).symm, fun _ => rfl, fun hash hhash => ?_⟩
    simp at hhash
  refine Valid.mono ?_ (fun _ _ h => h) (Valid.foldlM I ?_ hinit)
  · rintro buckets after ⟨hgrow, -, hentries⟩
    exact ⟨hgrow, fun key hkey => hentries key hkey (by simp)⟩
  · rintro ⟨key, bucket⟩ rest buckets after ⟨hgrow, hrows, hentries⟩
    have hrest : ∀ row ∈ rest, row ∈ directory.toList :=
      fun row hrow => hrows row (List.mem_cons_of_mem _ hrow)
    dsimp only
    split
    next htouched =>
      refine ⟨hgrow, hrest, fun other hother hnot => hentries other hother ?_⟩
      rw [List.map_cons, List.mem_cons, not_or]
      exact ⟨fun heq => hother (heq ▸ htouched), hnot⟩
    next =>
      have hnamed : directory[key]? = some bucket :=
        Std.ExtTreeMap.mem_toList_iff_getElem?_eq_some.mp (hrows _ List.mem_cons_self)
      apply Valid.bind
      refine Valid.mono ?_ (fun _ _ h => h)
        (carryBucket_valid hfree ((hdirectory.named key bucket hnamed).mono hgrow))
      rintro hash later ⟨hlater, hbucket⟩
      refine ⟨List.Subset.trans hgrow hlater, hrest, fun other hother hnot => ?_⟩
      by_cases hkey : key = other
      · subst hkey
        exact .of_insert hbucket rfl
      · refine ((hentries other hother ?_).mono hlater).insert_of_ne hkey
        rw [List.map_cons, List.mem_cons, not_or]
        exact ⟨fun heq => hkey heq.symm, hnot⟩

/-- A bucket after a batch: its old members and the new ones, and just the old list
where there are no new ones. -/
structure Grown (before new after : List IsccMember) : Prop where
  mem_iff : ∀ member, member ∈ after ↔ member ∈ before ∨ member ∈ new
  untouched : new = [] → after = before

theorem Grown.refl (members : List IsccMember) : Grown members [] members :=
  ⟨by simp, fun _ => rfl⟩

theorem Grown.trans {first second third new newer : List IsccMember}
    (hfirst : Grown first new second)
    (hsecond : Grown second newer third) : Grown first (new ++ newer) third := by
  refine ⟨fun member => ?_, fun hempty => ?_⟩
  · rw [hsecond.mem_iff, hfirst.mem_iff, List.mem_append, or_assoc]
  · obtain ⟨hnew, hnewer⟩ := List.append_eq_nil_iff.mp hempty
    rw [hsecond.untouched hnewer, hfirst.untouched hnew]

theorem Grown.congr {before new same after : List IsccMember}
    (hsame : ∀ member, member ∈ new ↔ member ∈ same) (hgrown : Grown before new after) :
    Grown before same after := by
  refine ⟨fun member => by rw [hgrown.mem_iff, hsame], fun hempty => hgrown.untouched ?_⟩
  rw [List.eq_nil_iff_forall_not_mem]
  intro member hmember
  rw [hsame, hempty] at hmember
  cases hmember

/-- The touched buckets are rewritten, the others stay. -/
theorem rewriteBuckets_valid (hfree : prim.CollisionFree blobUniverse) {directory : Directory}
    {content : String → List IsccMember}
    (hdirectory : DirectoryHolds prim format blobs directory content)
    (grouped : Std.ExtTreeMap String (List IsccMember) compare)
    (hnonempty : ∀ (key : String) (list : List IsccMember), grouped[key]? = some list → list ≠ [])
    {carried : Std.ExtTreeMap String Hash compare}
    (hcarried : ∀ key, ¬ grouped.contains key →
      EntryHolds prim format blobs carried key (· = content key)) :
    Valid (prim.storeSetting faults blobUniverse)
      (fun buckets after => blobs ⊆ after ∧ ∀ key, EntryHolds prim format after buckets key
        (Grown (content key) (grouped[key]?.getD [])))
      (fun _ _ => faults)
      (grouped.toList.foldlM (fun buckets row => do
        let hash ← format.rewriteBucket directory row.1 row.2
        pure (buckets.insert row.1 hash)) carried) blobs := by
  let I : List (String × List IsccMember) → Std.ExtTreeMap String Hash compare → Blobs → Prop :=
    fun rest buckets after => blobs ⊆ after ∧ (∀ row ∈ rest, row ∈ grouped.toList) ∧
      ∀ key, key ∉ rest.map Prod.fst → EntryHolds prim format after buckets key
        (Grown (content key) (grouped[key]?.getD []))
  have hinit : I grouped.toList carried blobs := by
    refine ⟨List.Subset.refl _, fun _ hrow => hrow, fun key hkey => ?_⟩
    have hnone : grouped[key]? = none := by
      cases hsome : grouped[key]? with
      | none => rfl
      | some list =>
          refine absurd (List.mem_map.mpr ⟨(key, list), ?_, rfl⟩) hkey
          exact Std.ExtTreeMap.mem_toList_iff_getElem?_eq_some.mpr hsome
    have huntouched : ¬ grouped.contains key := by
      rw [Std.ExtTreeMap.contains_iff_mem, Std.ExtTreeMap.mem_iff_isSome_getElem?, hnone]
      simp
    obtain ⟨members, rfl, hbuckets⟩ := hcarried key huntouched
    refine ⟨content key, ⟨fun member => ?_, fun _ => rfl⟩, hbuckets⟩
    simp [hnone]
  refine Valid.mono ?_ (fun _ _ h => h) (Valid.foldlM I ?_ hinit)
  · rintro buckets after ⟨hgrow, -, hentries⟩
    exact ⟨hgrow, fun key => hentries key (by simp)⟩
  · rintro ⟨key, list⟩ rest buckets after ⟨hgrow, hrows, hentries⟩
    have hlist : grouped[key]? = some list :=
      Std.ExtTreeMap.mem_toList_iff_getElem?_eq_some.mp (hrows _ List.mem_cons_self)
    apply Valid.bind
    refine Valid.mono ?_ (fun _ _ h => h)
      (rewriteBucket_valid hfree (hdirectory.mono hgrow) key list)
    rintro hash later ⟨hlater, members, hbucket, hmembers⟩
    refine ⟨List.Subset.trans hgrow hlater, fun row hrow => hrows row (List.mem_cons_of_mem _ hrow),
      fun other hnot => ?_⟩
    by_cases hkey : key = other
    · subst hkey
      rw [hlist, Option.getD_some]
      exact .of_insert hbucket ⟨hmembers, fun hempty => absurd hempty (hnonempty key list hlist)⟩
    · refine ((hentries other ?_).mono hlater).insert_of_ne hkey
      rw [List.map_cons, List.mem_cons, not_or]
      exact ⟨fun heq => hkey heq.symm, hnot⟩

/-- After a batch, every bucket holds its old members and those of the batch that
fall into it. -/
theorem insertBatch_valid (hfree : prim.CollisionFree blobUniverse) {root : Option Hash}
    {content : String → List IsccMember} (hindex : IndexHolds prim format blobs root content)
    (params : BandParams) (members : List IsccMember) :
    Valid (prim.storeSetting faults blobUniverse)
      (fun hash after => blobs ⊆ after ∧ ∃ grown, IndexHolds prim format after (some hash) grown ∧
        ∀ key, Grown (content key) (members.filter (FallsInto params key)) (grown key))
      (fun _ _ => faults) (format.insertBatch root params members) blobs := by
  apply Valid.bind
  refine Valid.mono ?_ (fun _ _ h => h) (loadDirectory_valid hfree hindex)
  rintro directory first ⟨hfirst, hdirectory⟩
  apply Valid.bind
  refine Valid.mono ?_ (fun _ _ h => h)
    (carryBuckets_valid hfree hdirectory (byBucket params members))
  rintro carried second ⟨hsecond, hcarried⟩
  apply Valid.bind
  refine Valid.mono ?_ (fun _ _ h => h)
    (rewriteBuckets_valid hfree (hdirectory.mono hsecond) _
      (byBucket_ne_nil params members) hcarried)
  rintro buckets third ⟨hthird, hentries⟩
  refine Valid.mono ?_ (fun _ _ h => h) (storeJson_valid format.printDirectory ⟨2, buckets⟩)
  rintro hash last ⟨hlast, hheld⟩
  choose grown hgrown hnone hsome using hentries
  refine ⟨List.Subset.trans hfirst (List.Subset.trans hsecond (List.Subset.trans hthird hlast)),
    grown, ⟨buckets.map fun _ hash => .manifest hash, ⟨_, hheld, ?_⟩, ?_, ?_⟩, ?_⟩
  · rw [IndexFormat.directoryOf, format.parseDirectory_print]
    rfl
  · intro key bucket hnamed
    rw [Std.ExtTreeMap.getElem?_map, Option.map_eq_some_iff] at hnamed
    obtain ⟨manifest, hmanifest, rfl⟩ := hnamed
    exact (hsome key manifest hmanifest).mono hlast
  · intro key hunnamed
    rw [Std.ExtTreeMap.getElem?_map, Option.map_eq_none_iff] at hunnamed
    exact hnone key hunnamed
  · intro key
    refine (hgrown key).congr fun member => ?_
    rw [mem_byBucket_iff, List.mem_filter, decide_eq_true_eq]

end Calls

end Registry

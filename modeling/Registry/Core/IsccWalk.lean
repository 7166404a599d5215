import Registry.Core.IsccStore
import Registry.Core.Walk

/-! # Walks over the similarity index

Collecting the blobs of an index: its directory, the manifests or posting lists
that the directory names, and the segments that the manifests name, which are not
read themselves. An index whose root is already in the set is not looked into.
-/

namespace Registry

open Effect

/-- The blob that a directory names for a bucket. -/
def BucketRef.hash : BucketRef → Hash
  | .manifest hash => hash
  | .legacyList hash => hash

namespace IndexFormat

variable (format : IndexFormat)

def collectBucket (bucket : BucketRef) (out : Finset Hash) :
    Prog storeSig Empty (Collected IsccStoreError) :=
  match bucket with
  | .manifest hash => do
      match ← (loadJson format.parseManifest hash).attempt with
      | .error error => pure (insert hash out, .error error)
      | .ok manifest => pure (insert hash out ∪ manifest.segments.toFinset, .ok ())
  | .legacyList hash => pure (insert hash out, .ok ())

def collectReachable (root : Hash) (out : Finset Hash) :
    Prog storeSig Empty (Collected IsccStoreError) :=
  if root ∈ out then pure (out, .ok ())
  else do
    match ← (format.loadDirectory (some root)).attempt with
    | .error error => pure (insert root out, .error error)
    | .ok directory =>
        directory.toList.foldlM
          (fun state row => Collected.andThen state (format.collectBucket row.2))
          (insert root out, .ok ())

end IndexFormat

section Blobs

variable (prim : Primitives) (format : IndexFormat) (blobs : Blobs)

/-- What the store holds under a hash reads as a value. -/
def ReadsAs {α : Type} (parse : Bytes → Except String α) (hash : Hash) (value : α) : Prop :=
  ∃ bytes, prim.blobAt blobs hash = some bytes ∧ parse bytes = .ok value

/-- The blobs of one bucket. -/
def BucketBlob (bucket : BucketRef) (hash : Hash) : Prop :=
  hash = bucket.hash ∨ ∃ manifest, bucket = .manifest bucket.hash ∧
    ReadsAs prim blobs format.parseManifest bucket.hash manifest ∧ hash ∈ manifest.segments

/-- The blobs of an index: the directory, what it names, and the segments. -/
def IndexBlob (root hash : Hash) : Prop :=
  hash = root ∨ ∃ directory : Directory, ReadsAs prim blobs format.directoryOf root directory ∧
    ∃ (key : String) (bucket : BucketRef), directory[key]? = some bucket ∧
      BucketBlob prim format blobs bucket hash

/-- A bucket all of whose blobs can be read. -/
def BucketReadable : BucketRef → Prop
  | .manifest hash => ∃ manifest, ReadsAs prim blobs format.parseManifest hash manifest ∧
      ∀ segment ∈ manifest.segments, ∃ members,
        ReadsAs prim blobs format.parseMembers segment members
  | .legacyList hash => ∃ members, ReadsAs prim blobs format.parseMembers hash members

/-- An index of either format all of whose blobs can be read. -/
def IndexReadable (root : Hash) : Prop :=
  ∃ directory : Directory, ReadsAs prim blobs format.directoryOf root directory ∧
    ∀ (key : String) (bucket : BucketRef), directory[key]? = some bucket →
      BucketReadable prim format blobs bucket

end Blobs

section Walks

variable {prim : Primitives} {format : IndexFormat} {blobs : Blobs} {readable : Set Hash}

theorem ReadsAs.unique {α : Type} {parse : Bytes → Except String α} {hash : Hash}
    {first second : α} (hfirst : ReadsAs prim blobs parse hash first)
    (hsecond : ReadsAs prim blobs parse hash second) : first = second := by
  obtain ⟨bytes, hbytes, hparse⟩ := hfirst
  obtain ⟨other, hother, hparseOther⟩ := hsecond
  obtain rfl := Option.some.inj (hbytes.symm.trans hother)
  exact Except.ok.inj (hparse.symm.trans hparseOther)

theorem loadJson_walk_valid {α : Type} {parse : Bytes → Except String α} {hash : Hash} {value : α}
    (hreadable : hash ∈ readable) (hreads : ReadsAs prim blobs parse hash value) :
    Valid (prim.walkSetting blobs readable) (fun read after => after = blobs ∧ read = value)
      (fun _ _ => False) (loadJson parse hash) blobs := by
  rintro before rfl hinv response after ⟨rfl, hanswer⟩
  obtain ⟨bytes, hbytes, hparse⟩ := hreads
  refine ⟨hinv, trivial, ?_⟩
  rw [hanswer hreadable, hbytes]
  dsimp only
  rw [hparse]
  exact ⟨rfl, rfl⟩

/-- Walking a bucket adds its blobs. -/
theorem collectBucket_valid {bucket : BucketRef}
    (hbucket : bucket.hash ∈ readable ∧ BucketReadable prim format blobs bucket)
    (out : Finset Hash) :
    Valid (prim.walkSetting blobs readable)
      (fun result after => after = blobs ∧ result.2 = .ok () ∧
        ∀ hash, hash ∈ result.1 ↔ hash ∈ out ∨ BucketBlob prim format blobs bucket hash)
      (fun _ _ => False) (format.collectBucket bucket out) blobs := by
  obtain ⟨hreadable, hreads⟩ := hbucket
  cases bucket with
  | manifest named =>
      obtain ⟨manifest, hmanifest, -⟩ := hreads
      apply Valid.bind
      apply Valid.attempt
      refine Valid.mono ?_ (fun _ _ h => h.elim) (loadJson_walk_valid hreadable hmanifest)
      rintro read after ⟨rfl, rfl⟩
      refine ⟨rfl, rfl, fun hash => ?_⟩
      rw [Finset.mem_union, Finset.mem_insert, List.mem_toFinset, BucketBlob]
      constructor
      · rintro ((rfl | hold) | hsegment)
        · exact Or.inr (Or.inl rfl)
        · exact Or.inl hold
        · exact Or.inr (Or.inr ⟨read, rfl, hmanifest, hsegment⟩)
      · rintro (hold | rfl | ⟨other, -, hother, hsegment⟩)
        · exact Or.inl (Or.inr hold)
        · exact Or.inl (Or.inl rfl)
        · exact Or.inr (hother.unique hmanifest ▸ hsegment)
  | legacyList named =>
      refine ⟨rfl, rfl, fun hash => ?_⟩
      rw [Finset.mem_insert, BucketBlob]
      constructor
      · rintro (rfl | hold)
        · exact Or.inr (Or.inl rfl)
        · exact Or.inl hold
      · rintro (hold | rfl | ⟨manifest, hother, -, -⟩)
        · exact Or.inr hold
        · exact Or.inl rfl
        · cases hother

/-- Walking an index adds its blobs, if its root is not in the set yet. -/
theorem IndexFormat.collectReachable_valid {root : Hash}
    (hindex : IndexReadable prim format blobs root)
    (hreadable : ∀ hash, IndexBlob prim format blobs root hash → hash ∈ readable)
    (out : Finset Hash) :
    Valid (prim.walkSetting blobs readable)
      (fun result after => after = blobs ∧ result.2 = .ok () ∧ ∀ hash, hash ∈ result.1 ↔
        hash ∈ out ∨ (root ∉ out ∧ IndexBlob prim format blobs root hash))
      (fun _ _ => False) (format.collectReachable root out) blobs := by
  obtain ⟨directory, hdirectory, hbuckets⟩ := hindex
  unfold IndexFormat.collectReachable
  split
  next hmem => exact ⟨rfl, rfl, fun hash => by simp [hmem]⟩
  next hfresh =>
    have hroot : Valid (prim.walkSetting blobs readable)
        (fun read after => after = blobs ∧ read = directory) (fun _ _ => False)
        (format.loadDirectory (some root)) blobs :=
      loadJson_walk_valid (hreadable root (Or.inl rfl)) hdirectory
    apply Valid.bind
    apply Valid.attempt
    refine Valid.mono ?_ (fun _ _ h => h.elim) hroot
    rintro read after ⟨rfl, rfl⟩
    have hnamed : ∀ row ∈ read.toList, read[row.1]? = some row.2 :=
      fun row hrow => Std.ExtTreeMap.mem_toList_iff_getElem?_eq_some.mp hrow
    let I : List (String × BucketRef) → Collected IsccStoreError → Blobs → Prop :=
      fun rest state now => now = after ∧ state.2 = .ok () ∧
        ∃ done, read.toList = done ++ rest ∧ ∀ hash, hash ∈ state.1 ↔
          hash ∈ insert root out ∨ ∃ row ∈ done, BucketBlob prim format after row.2 hash
    have hinit : I read.toList (insert root out, .ok ()) after :=
      ⟨rfl, rfl, [], rfl, fun hash => by simp⟩
    refine Valid.mono ?_ (fun _ _ h => h) (Valid.foldlM I ?_ hinit)
    · rintro ⟨collected, result⟩ last ⟨rfl, hok, done, hdone, hcollected⟩
      rw [List.append_nil] at hdone
      refine ⟨rfl, hok, fun hash => (hcollected hash).trans ?_⟩
      rw [Finset.mem_insert]
      constructor
      · rintro ((rfl | hold) | ⟨row, hrow, hblob⟩)
        · exact Or.inr ⟨hfresh, Or.inl rfl⟩
        · exact Or.inl hold
        · exact Or.inr ⟨hfresh, Or.inr ⟨read, hdirectory, row.1, row.2, hnamed row (hdone ▸ hrow),
            hblob⟩⟩
      · rintro (hold | ⟨-, rfl | ⟨other, hother, key, bucket, hbucket, hblob⟩⟩)
        · exact Or.inl (Or.inr hold)
        · exact Or.inl (Or.inl rfl)
        · obtain rfl := hother.unique hdirectory
          refine Or.inr ⟨(key, bucket), hdone ▸ ?_, hblob⟩
          exact Std.ExtTreeMap.mem_toList_iff_getElem?_eq_some.mpr hbucket
    · rintro row rest ⟨collected, result⟩ now ⟨rfl, hok, done, hdone, hcollected⟩
      obtain rfl : result = .ok () := hok
      have hrow : row ∈ read.toList := hdone ▸ List.mem_append_right _ List.mem_cons_self
      have hblob : IndexBlob prim format now root row.2.hash :=
        Or.inr ⟨read, hdirectory, row.1, row.2, hnamed row hrow, Or.inl rfl⟩
      refine Valid.mono ?_ (fun _ _ h => h) (collectBucket_valid
        ⟨hreadable _ hblob, hbuckets row.1 row.2 (hnamed row hrow)⟩ collected)
      rintro ⟨grown, answer⟩ last ⟨rfl, hanswer, hgrown⟩
      refine ⟨rfl, hanswer, done ++ [row], by simp [hdone], fun hash => ?_⟩
      rw [hgrown, hcollected, or_assoc]
      simp [or_and_right, exists_or]

theorem loadJson_walk_ends {α : Type} (parse : Bytes → Except String α) (hash : Hash) :
    Valid (prim.walkSetting blobs readable) (fun _ after => after = blobs)
      (fun _ after => after = blobs) (loadJson parse hash) blobs := by
  rintro before rfl hinv response after ⟨rfl, -⟩
  refine ⟨hinv, trivial, ?_⟩
  match response with
  | .error error => rfl
  | .ok none => rfl
  | .ok (some bytes) =>
      dsimp only
      cases parse bytes <;> rfl

/-- However the reads end, a walk over an index keeps what was in the set. -/
theorem IndexFormat.collectReachable_grows (root : Hash) (out : Finset Hash) :
    Valid (prim.walkSetting blobs readable)
      (fun result after => after = blobs ∧ out ⊆ result.1) (fun _ _ => False)
      (format.collectReachable root out) blobs := by
  unfold IndexFormat.collectReachable
  split
  next => exact ⟨rfl, Finset.Subset.refl _⟩
  next =>
    apply Valid.bind
    apply Valid.attempt
    refine Valid.mono ?_ ?_ (loadJson_walk_ends format.directoryOf root)
    · rintro directory after rfl
      refine Valid.foldlM (fun _ (state : Collected IsccStoreError) now =>
        now = after ∧ out ⊆ state.1) ?_
        ⟨rfl, Finset.subset_insert _ _⟩
      rintro ⟨key, bucket⟩ rest ⟨collected, result⟩ now ⟨rfl, hgrows⟩
      cases result with
      | error error => exact ⟨rfl, hgrows⟩
      | ok done =>
          cases bucket with
          | legacyList hash => exact ⟨rfl, hgrows.trans (Finset.subset_insert _ _)⟩
          | manifest hash =>
              apply Valid.bind
              apply Valid.attempt
              refine Valid.mono ?_ ?_ (loadJson_walk_ends format.parseManifest hash)
              · rintro manifest last rfl
                exact ⟨rfl, hgrows.trans
                  ((Finset.subset_insert _ _).trans Finset.subset_union_left)⟩
              · rintro error last rfl
                exact ⟨rfl, hgrows.trans (Finset.subset_insert _ _)⟩
    · rintro error after rfl
      exact ⟨rfl, Finset.subset_insert _ _⟩

end Walks

end Registry

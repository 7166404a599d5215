import Registry.Core.TabulatedIndex

/-! # The segments of a bucket

A manifest counts the members of its segments. Only the last segment may have room, and
a batch takes nothing but that one off the manifest, so that the full segments before it
are never written again. A posting list of the first format counts as one segment, which
may be longer than a segment gets.
-/

namespace Registry

open Effect

/-- A segment and what it lists. -/
abbrev SegmentRow := Hash × List IsccMember

def memberCount (rows : List SegmentRow) : Nat := (rows.map fun row => row.2.length).sum

/-- The segments that take no more members. -/
def fullSegments (rows : List SegmentRow) : List Hash :=
  (rows.filter fun row => segmentMaxMembers ≤ row.2.length).map Prod.fst

section Reads

variable (prim : Primitives) (format : IndexFormat)

def readJson {α : Type} (parse : Bytes → Except String α) (blobs : Blobs)
    (hash : Hash) : Option α :=
  (prim.blobAt blobs hash).bind fun bytes => (parse bytes).toOption

/-- The manifest of a bucket, as it is loaded. -/
def manifestOf (blobs : Blobs) : BucketRef → Option BucketManifest
  | .manifest hash => readJson prim format.parseManifest blobs hash
  | .legacyList hash => (readJson prim format.parseMembers blobs hash).map fun list =>
      ⟨UInt64.ofNat list.length, [hash]⟩

def directoryAt (blobs : Blobs) : Option Hash → Option Directory
  | none => some ∅
  | some root => readJson prim format.directoryOf blobs root

/-- The manifest of a bucket of an index. -/
def bucketManifest (blobs : Blobs) (root : Option Hash) (key : String) : Option BucketManifest := do
  let directory ← directoryAt prim format blobs root
  let bucket ← directory[key]?
  manifestOf prim format blobs bucket

/-- A segment takes no more members. -/
def isFull (blobs : Blobs) (hash : Hash) : Bool :=
  (readJson prim format.parseMembers blobs hash).any fun list => segmentMaxMembers ≤ list.length

/-- A manifest whose count and segments are in order, given the posting list that the
bucket had in the first format. -/
structure ManifestConsistent (blobs : Blobs) (legacyList : Option Hash) (manifest : BucketManifest)
    (rows : List SegmentRow) : Prop where
  segments : manifest.segments = rows.map Prod.fst
  held : ∀ row ∈ rows, SegmentHolds prim format blobs row.1 row.2
  count : manifest.count = UInt64.ofNat (memberCount rows)
  full : ∀ row ∈ rows.dropLast, row.2.length = segmentMaxMembers ∨
    (legacyList = some row.1 ∧ segmentMaxMembers ≤ row.2.length)
  bounded : ∀ row ∈ rows, row.2.length ≤ segmentMaxMembers ∨ legacyList = some row.1

end Reads

/-! ## Cutting members into segments -/

theorem length_le_of_mem_pieces {α : Type} {size fuel : Nat} {items piece : List α}
    (hpiece : piece ∈ pieces size fuel items) : piece.length ≤ size := by
  induction fuel generalizing items with
  | zero => cases hpiece
  | succ fuel ih =>
      cases items with
      | nil => cases hpiece
      | cons item rest =>
          rcases List.mem_cons.mp hpiece with rfl | hrest
          · exact List.length_take_le size _
          · exact ih hrest

theorem pieces_nil {α : Type} (size fuel : Nat) : pieces size fuel ([] : List α) = [] := by
  cases fuel <;> rfl

/-- Only the last piece may be shorter than the others. -/
theorem length_eq_of_mem_dropLast_pieces {α : Type} {size fuel : Nat} {items piece : List α}
    (hpiece : piece ∈ (pieces size fuel items).dropLast) : piece.length = size := by
  induction fuel generalizing items with
  | zero => cases hpiece
  | succ fuel ih =>
      cases items with
      | nil => cases hpiece
      | cons item rest =>
          rw [pieces] at hpiece
          have hmore : pieces size fuel ((item :: rest).drop size) ≠ [] := by
            intro hnil
            rw [hnil] at hpiece
            cases hpiece
          rw [List.dropLast_cons_of_ne_nil hmore] at hpiece
          rcases List.mem_cons.mp hpiece with rfl | hrest
          · -- Something is left after the first piece, so that it is a whole one.
            apply List.length_take_of_le
            by_contra hshort
            apply hmore
            rw [List.drop_eq_nil_of_le (by omega), pieces_nil]
          · exact ih hrest

theorem filter_prefix_of_dropLast {α : Type} {keep : α → Bool} {items : List α}
    (hkeep : ∀ item ∈ items.dropLast, keep item = true) : items.filter keep <+: items := by
  induction items using List.reverseRecOn with
  | nil => exact List.prefix_rfl
  | append_singleton front last _ =>
      rw [List.dropLast_concat] at hkeep
      rw [List.filter_append, List.filter_eq_self.mpr hkeep, List.prefix_append_right_inj]
      cases hlast : keep last with
      | true => rw [List.filter_cons_of_pos hlast]; exact List.prefix_rfl
      | false => rw [List.filter_cons_of_neg (by simp [hlast])]; exact List.nil_prefix

/-! ## Manifests in order -/

section Consistent

variable {prim : Primitives} {format : IndexFormat} {blobs later : Blobs} {legacyList : Option Hash}
  {manifest : BucketManifest} {rows : List SegmentRow}

theorem readJson_of_held {α : Type} {parse : Bytes → Except String α} {hash : Hash} {bytes : Bytes}
    {value : α} (hfree : prim.CollisionFree {held | held ∈ blobs})
    (hheld : prim.Held blobs hash bytes) (hparse : parse bytes = .ok value) :
    readJson prim parse blobs hash = some value := by
  rw [readJson, ← hheld.2, prim.blobAt_blake3 hfree hheld.1, Option.bind_some, hparse]
  rfl

theorem memberCount_append (first second : List SegmentRow) :
    memberCount (first ++ second) = memberCount first + memberCount second := by
  rw [memberCount, List.map_append, List.sum_append, memberCount, memberCount]

theorem memberCount_singleton (row : SegmentRow) : memberCount [row] = row.2.length := by
  simp [memberCount]

theorem length_le_memberCount {row : SegmentRow} (hrow : row ∈ rows) :
    row.2.length ≤ memberCount rows :=
  List.single_le_sum (fun _ _ => Nat.zero_le _) _ (List.mem_map_of_mem hrow)

namespace ManifestConsistent

theorem mono (hgrow : blobs ⊆ later)
    (hmanifest : ManifestConsistent prim format blobs legacyList manifest rows) :
    ManifestConsistent prim format later legacyList manifest rows where
  segments := hmanifest.segments
  held row hrow := (hmanifest.held row hrow).mono hgrow
  count := hmanifest.count
  full := hmanifest.full
  bounded := hmanifest.bounded

theorem default : ManifestConsistent prim format blobs legacyList .default [] where
  segments := rfl
  held _ hrow := absurd hrow List.not_mem_nil
  count := rfl
  full _ hrow := absurd hrow List.not_mem_nil
  bounded _ hrow := absurd hrow List.not_mem_nil

theorem of_legacyList {hash : Hash} {list : List IsccMember}
    (hsegment : SegmentHolds prim format blobs hash list) :
    ManifestConsistent prim format blobs (some hash) ⟨UInt64.ofNat list.length, [hash]⟩
      [(hash, list)] where
  segments := rfl
  held row hrow := by
    rw [List.mem_singleton.mp hrow]
    exact hsegment
  count := by rw [memberCount_singleton]
  full _ hrow := absurd hrow List.not_mem_nil
  bounded row hrow := by
    rw [List.mem_singleton.mp hrow]
    exact Or.inr rfl

theorem length_of_mem_dropLast
    (hmanifest : ManifestConsistent prim format blobs legacyList manifest rows) {row : SegmentRow}
    (hrow : row ∈ rows.dropLast) : segmentMaxMembers ≤ row.2.length := by
  rcases hmanifest.full row hrow with hexact | ⟨-, hlong⟩
  · exact hexact.ge
  · exact hlong

/-- A row that takes no more members has exactly as many as a segment gets, or is the
posting list. -/
theorem full_of_length
    (hmanifest : ManifestConsistent prim format blobs legacyList manifest rows) {row : SegmentRow}
    (hrow : row ∈ rows) (hlong : segmentMaxMembers ≤ row.2.length) :
    row.2.length = segmentMaxMembers ∨
    (legacyList = some row.1 ∧ segmentMaxMembers ≤ row.2.length) :=
  (hmanifest.bounded row hrow).imp (fun hshort => le_antisymm hshort hlong) fun hlist =>
    ⟨hlist, hlong⟩

theorem fullSegments_prefix
    (hmanifest : ManifestConsistent prim format blobs legacyList manifest rows) :
    fullSegments rows <+: manifest.segments := by
  rw [hmanifest.segments, fullSegments]
  apply List.IsPrefix.map
  apply filter_prefix_of_dropLast
  intro row hrow
  exact decide_eq_true (hmanifest.length_of_mem_dropLast hrow)

/-- What is full can be read off the segments. -/
theorem filter_isFull (hfree : prim.CollisionFree {held | held ∈ blobs})
    (hmanifest : ManifestConsistent prim format blobs legacyList manifest rows) :
    manifest.segments.filter (isFull prim format blobs) = fullSegments rows := by
  rw [hmanifest.segments, List.filter_map, fullSegments]
  apply congrArg
  apply List.filter_congr
  intro row hrow
  obtain ⟨bytes, hheld, hparse⟩ := hmanifest.held row hrow
  rw [Function.comp_apply, isFull, readJson_of_held hfree hheld hparse]
  rfl

/-- A count that does not wrap is the number of members, and no segment has more. -/
theorem toNat_count (hmanifest : ManifestConsistent prim format blobs legacyList manifest rows)
    (hsmall : memberCount rows < 2 ^ 64) :
    manifest.count.toNat = memberCount rows ∧
      ∀ row ∈ rows, row.2.length ≤ manifest.count.toNat := by
  have hcount : manifest.count.toNat = memberCount rows := by
    rw [hmanifest.count, UInt64.toNat_ofNat_of_lt' hsmall]
  refine ⟨hcount, fun row hrow => ?_⟩
  rw [hcount]
  exact length_le_memberCount hrow

end ManifestConsistent

end Consistent

/-! ## Loading a bucket -/

section Calls

variable {prim : Primitives} {format : IndexFormat} {faults : Prop} {blobUniverse : Set Bytes}
  {blobs later : Blobs} {legacyList : Option Hash}

/-- A bucket loads as this manifest. -/
def BucketReads (prim : Primitives) (format : IndexFormat) (blobs : Blobs) :
    BucketRef → BucketManifest → Prop
  | .manifest hash, manifest => ∃ bytes, prim.Held blobs hash bytes ∧
      format.parseManifest bytes = .ok manifest
  | .legacyList hash, manifest => ∃ list, SegmentHolds prim format blobs hash list ∧
      manifest = ⟨UInt64.ofNat list.length, [hash]⟩

/-- A bucket is the posting list that it had in the first format, or has a manifest in
order. -/
def BucketConsistent (prim : Primitives) (format : IndexFormat) (blobs : Blobs)
    (legacyList : Option Hash) : BucketRef → Prop
  | .manifest hash => ∃ manifest rows, BucketReads prim format blobs (.manifest hash) manifest ∧
      ManifestConsistent prim format blobs legacyList manifest rows
  | .legacyList hash => legacyList = some hash

theorem BucketReads.mono (hgrow : blobs ⊆ later) {bucket : BucketRef} {manifest : BucketManifest}
    (hreads : BucketReads prim format blobs bucket manifest) :
    BucketReads prim format later bucket manifest := by
  cases bucket with
  | manifest hash =>
      obtain ⟨bytes, hheld, hparse⟩ := hreads
      exact ⟨bytes, hheld.mono hgrow, hparse⟩
  | legacyList hash =>
      obtain ⟨list, hsegment, rfl⟩ := hreads
      exact ⟨list, hsegment.mono hgrow, rfl⟩

/-- A bucket loads as one manifest only. -/
theorem BucketReads.unique (hfree : prim.CollisionFree {held | held ∈ blobs}) {bucket : BucketRef}
    {first second : BucketManifest} (hfirst : BucketReads prim format blobs bucket first)
    (hsecond : BucketReads prim format blobs bucket second) : first = second := by
  have hbytes : ∀ {hash : Hash} {left right : Bytes}, prim.Held blobs hash left →
      prim.Held blobs hash right → left = right := fun hleft hright =>
    hfree.1 hleft.1 hright.1 (hleft.2.trans hright.2.symm)
  cases bucket with
  | manifest hash =>
      obtain ⟨left, hleft, hparse⟩ := hfirst
      obtain ⟨right, hright, hother⟩ := hsecond
      rw [hbytes hleft hright, hother] at hparse
      exact (Except.ok.inj hparse).symm
  | legacyList hash =>
      obtain ⟨list, ⟨left, hleft, hparse⟩, rfl⟩ := hfirst
      obtain ⟨other, ⟨right, hright, hother⟩, rfl⟩ := hsecond
      rw [hbytes hleft hright, hother] at hparse
      rw [Except.ok.inj hparse]

theorem BucketConsistent.mono (hgrow : blobs ⊆ later) {bucket : BucketRef}
    (hbucket : BucketConsistent prim format blobs legacyList bucket) :
    BucketConsistent prim format later legacyList bucket := by
  cases bucket with
  | manifest hash =>
      obtain ⟨manifest, rows, hreads, hmanifest⟩ := hbucket
      exact ⟨manifest, rows, hreads.mono hgrow, hmanifest.mono hgrow⟩
  | legacyList hash => exact hbucket

/-- What is loaded is held, and is what was there before if something was. -/
theorem loadJson_reads {α : Type} (hfree : prim.CollisionFree blobUniverse)
    (parse : Bytes → Except String α) (hash : Hash) :
    Valid (prim.storeSetting faults blobUniverse)
      (fun value after => blobs ⊆ after ∧
        (∃ bytes, prim.Held after hash bytes ∧ parse bytes = .ok value) ∧
        ∀ bytes other, prim.Held blobs hash bytes → parse bytes = .ok other → value = other)
      (fun _ _ => True) (loadJson parse hash) blobs := by
  intro before hgrow hinv response after hsem
  obtain ⟨⟨rfl, hresponse⟩, -⟩ := hsem
  refine ⟨hinv, List.Subset.refl _, ?_⟩
  rcases hresponse with rfl | ⟨-, rfl | ⟨error, rfl⟩⟩
  · cases hget : prim.blobAt after hash with
    | none => trivial
    | some bytes =>
        dsimp only
        cases hparse : parse bytes with
        | error message => trivial
        | ok value =>
            obtain ⟨hmem, hhash⟩ := prim.mem_of_blobAt hget
            refine ⟨hgrow, ⟨bytes, ⟨hmem, hhash⟩, hparse⟩, ?_⟩
            rintro others other ⟨hold, hsame⟩ hother
            have hbytes : others = bytes :=
              hfree.1 (hinv _ (hgrow hold)) (hinv _ hmem) (hsame.trans hhash.symm)
            rw [hbytes, hparse] at hother
            exact Except.ok.inj hother
  · trivial
  · trivial

theorem loadBucketManifest_reads (hfree : prim.CollisionFree blobUniverse) {bucket : BucketRef}
    (hbucket : BucketConsistent prim format blobs legacyList bucket) :
    Valid (prim.storeSetting faults blobUniverse)
      (fun manifest after => blobs ⊆ after ∧
        (∃ rows, ManifestConsistent prim format after legacyList manifest rows) ∧
        ∀ other, BucketReads prim format blobs bucket other → manifest = other)
      (fun _ _ => True) (format.loadBucketManifest bucket) blobs := by
  cases bucket with
  | manifest hash =>
      obtain ⟨manifest, rows, ⟨bytes, hheld, hparse⟩, hmanifest⟩ := hbucket
      refine Valid.mono ?_ (fun _ _ h => h) (loadJson_reads hfree format.parseManifest hash)
      rintro result after ⟨hgrow, -, hsame⟩
      obtain rfl := hsame bytes manifest hheld hparse
      refine ⟨hgrow, ⟨rows, hmanifest.mono hgrow⟩, ?_⟩
      rintro other ⟨others, hother, hparseOther⟩
      exact hsame others other hother hparseOther
  | legacyList hash =>
      obtain rfl : legacyList = some hash := hbucket
      apply Valid.bind
      refine Valid.mono ?_ (fun _ _ h => h) (loadJson_reads hfree format.parseMembers hash)
      rintro list after ⟨hgrow, hsegment, hsame⟩
      refine ⟨hgrow, ⟨_, .of_legacyList hsegment⟩, ?_⟩
      rintro other ⟨others, ⟨bytes, hheld, hparse⟩, rfl⟩
      rw [hsame bytes others hheld hparse]

/-! ## Rewriting a bucket -/

/-- The tail that is taken off is the only segment with room. -/
theorem takeTail_consistent (hfree : prim.CollisionFree blobUniverse) {manifest : BucketManifest}
    {rows : List SegmentRow}
    (hmanifest : ManifestConsistent prim format blobs legacyList manifest rows) :
    Valid (prim.storeSetting faults blobUniverse)
      (fun result after => blobs ⊆ after ∧ ∃ front,
        ManifestConsistent prim format after legacyList result.1 front ∧
        (∀ row ∈ front, segmentMaxMembers ≤ row.2.length) ∧
        front.map Prod.fst = fullSegments rows)
      (fun _ _ => True) (format.takeTail manifest) blobs := by
  have hkept : (∀ row ∈ rows, segmentMaxMembers ≤ row.2.length) →
      rows.map Prod.fst = fullSegments rows := by
    intro hlong
    rw [fullSegments, List.filter_eq_self.mpr fun row hrow => decide_eq_true (hlong row hrow)]
  rw [IndexFormat.takeTail]
  cases rows using List.reverseRecOn with
  | nil =>
      rw [hmanifest.segments]
      exact ⟨List.Subset.refl _, [], hmanifest, fun _ hrow => absurd hrow List.not_mem_nil, rfl⟩
  | append_singleton front last _ =>
      have hlast : manifest.segments.getLast? = some last.1 := by
        rw [hmanifest.segments, List.map_append, List.map_singleton, List.getLast?_concat]
      have hlong : ∀ row ∈ front, segmentMaxMembers ≤ row.2.length := by
        intro row hrow
        apply hmanifest.length_of_mem_dropLast
        rwa [List.dropLast_concat]
      rw [hlast]
      apply Valid.bind
      refine Valid.mono ?_ (fun _ _ _ => trivial)
        (loadSegment_valid hfree (hmanifest.held last (List.mem_append_right front (by simp))))
      rintro segment after ⟨hgrow, rfl⟩
      split
      next hroom =>
        refine ⟨hgrow, front, ?_, hlong, ?_⟩
        · have hfront : ∀ row ∈ front, row ∈ front ++ [last] :=
            fun row hrow => List.mem_append_left _ hrow
          refine ⟨?_, fun row hrow => (hmanifest.held row (hfront row hrow)).mono hgrow, ?_, ?_,
            fun row hrow => hmanifest.bounded row (hfront row hrow)⟩
          · rw [hmanifest.segments, List.map_append, List.map_singleton, List.dropLast_concat]
          · rw [hmanifest.count, memberCount_append, memberCount_singleton, UInt64.ofNat_add,
              UInt64.add_sub_cancel]
          · intro row hrow
            have hmem := List.mem_of_mem_dropLast hrow
            exact hmanifest.full_of_length (hfront row hmem) (hlong row hmem)
        · rw [fullSegments, List.filter_append, List.filter_cons_of_neg (by simpa using hroom),
            List.filter_nil, List.append_nil,
            List.filter_eq_self.mpr fun row hrow => decide_eq_true (hlong row hrow)]
      next hnone =>
        have hall : ∀ row ∈ front ++ [last], segmentMaxMembers ≤ row.2.length := by
          intro row hrow
          rcases List.mem_append.mp hrow with hold | hnew
          · exact hlong row hold
          · rw [List.mem_singleton.mp hnew]
            exact not_lt.mp hnone
        exact ⟨hgrow, _, hmanifest.mono hgrow, hall, hkept hall⟩

/-- Whole segments, and a last one, are appended to a manifest without room. -/
theorem storeSegments_consistent {manifest : BucketManifest} {front : List SegmentRow}
    (hmanifest : ManifestConsistent prim format blobs legacyList manifest front)
    (hlong : ∀ row ∈ front, segmentMaxMembers ≤ row.2.length) {segments : List (List IsccMember)}
    (hwhole : ∀ segment ∈ segments.dropLast, segment.length = segmentMaxMembers)
    (hshort : ∀ segment ∈ segments, segment.length ≤ segmentMaxMembers) :
    Valid (prim.storeSetting faults blobUniverse)
      (fun result after => blobs ⊆ after ∧ ∃ rows,
        ManifestConsistent prim format after legacyList result rows ∧
        manifest.segments <+: result.segments)
      (fun _ _ => True) (format.storeSegments manifest segments) blobs := by
  let I : List (List IsccMember) → BucketManifest → Blobs → Prop := fun rest current after =>
    blobs ⊆ after ∧ ∃ stored : List SegmentRow, stored.map Prod.snd ++ rest = segments ∧
      current.segments = manifest.segments ++ stored.map Prod.fst ∧
      (∀ row ∈ stored, SegmentHolds prim format after row.1 row.2) ∧
      current.count = manifest.count + UInt64.ofNat (memberCount stored)
  have hinit : I segments manifest blobs :=
    ⟨List.Subset.refl _, [], rfl, (List.append_nil _).symm,
      fun _ hrow => absurd hrow List.not_mem_nil, (UInt64.add_zero _).symm⟩
  refine Valid.mono ?_ (fun _ _ _ => trivial)
    (Valid.foldlM I ?_ hinit : Valid _ _ (fun _ _ => True) _ _)
  · rintro result after ⟨hgrow, stored, hsegments, hnames, hheld, hcount⟩
    rw [List.append_nil] at hsegments
    have hlists : ∀ row ∈ stored, row.2.length ≤ segmentMaxMembers :=
      fun row hrow => hshort row.2 (hsegments ▸ List.mem_map_of_mem hrow)
    refine ⟨hgrow, front ++ stored, ⟨?_, ?_, ?_, ?_, ?_⟩, hnames ▸ List.prefix_append _ _⟩
    · rw [hnames, hmanifest.segments, List.map_append]
    · intro row hrow
      rcases List.mem_append.mp hrow with hold | hnew
      · exact (hmanifest.held row hold).mono hgrow
      · exact hheld row hnew
    · rw [hcount, hmanifest.count, memberCount_append, UInt64.ofNat_add]
    · intro row hrow
      by_cases hnil : stored = []
      · rw [hnil, List.append_nil] at hrow
        have hmem := List.mem_of_mem_dropLast hrow
        exact hmanifest.full_of_length hmem (hlong row hmem)
      · rw [List.dropLast_append_of_ne_nil hnil] at hrow
        rcases List.mem_append.mp hrow with hold | hnew
        · exact hmanifest.full_of_length hold (hlong row hold)
        · apply Or.inl
          apply hwhole
          rw [← hsegments, ← List.map_dropLast]
          exact List.mem_map_of_mem hnew
    · intro row hrow
      rcases List.mem_append.mp hrow with hold | hnew
      · exact hmanifest.bounded row hold
      · exact Or.inl (hlists row hnew)
  · rintro segment rest current after ⟨hgrow, stored, hsegments, hnames, hheld, hcount⟩
    apply Valid.bind
    refine Valid.mono ?_ (fun _ _ _ => trivial) (storeJson_valid format.printMembers segment)
    rintro hash later ⟨hlater, hstored⟩
    refine ⟨List.Subset.trans hgrow hlater, stored ++ [(hash, segment)], ?_, ?_, ?_, ?_⟩
    · rw [← hsegments]
      simp
    · simp [hnames]
    · intro row hrow
      rcases List.mem_append.mp hrow with hold | hnew
      · exact (hheld row hold).mono hlater
      · rw [List.mem_singleton.mp hnew]
        exact ⟨_, hstored, format.parseMembers_print segment⟩
    · rw [hcount, memberCount_append, memberCount_singleton, UInt64.ofNat_add, UInt64.add_assoc]

/-- What becomes of a bucket: its manifest is in order and starts with the full segments
that the bucket had, and it is the one before if the bucket is not touched. -/
structure BucketKept (prim : Primitives) (format : IndexFormat) (start after : Blobs)
    (legacyList : Option Hash) (before : Option BucketRef) (touched : Prop)
    (hash : Hash) : Prop where
  consistent : BucketConsistent prim format after legacyList (.manifest hash)
  kept : prim.CollisionFree {held | held ∈ after} → ∀ bucket old, before = some bucket →
    BucketReads prim format start bucket old →
    ∃ grown rows, BucketReads prim format after (.manifest hash) grown ∧
      ManifestConsistent prim format after legacyList old rows ∧
      fullSegments rows <+: grown.segments ∧ (¬ touched → grown = old)

theorem BucketKept.mono {start middle after : Blobs} {before : Option BucketRef} {touched : Prop}
    {hash : Hash} (hstart : start ⊆ middle) (hgrow : after ⊆ later)
    (hkept : BucketKept prim format middle after legacyList before touched hash) :
    BucketKept prim format start later legacyList before touched hash where
  consistent := hkept.consistent.mono hgrow
  kept hfree bucket old hbucket hold := by
    obtain ⟨grown, rows, hreads, hmanifest, hrest⟩ :=
      hkept.kept (hfree.mono fun blob hblob => hgrow hblob) bucket old hbucket (hold.mono hstart)
    exact ⟨grown, rows, hreads.mono hgrow, hmanifest.mono hgrow, hrest⟩

theorem rewriteBucket_kept (hfree : prim.CollisionFree blobUniverse) {directory : Directory}
    (key : String) (newMembers : List IsccMember) {touched : Prop} (htouched : touched)
    (hbucket : ∀ bucket, directory[key]? = some bucket →
      BucketConsistent prim format blobs legacyList bucket) :
    Valid (prim.storeSetting faults blobUniverse)
      (fun hash after => blobs ⊆ after ∧
        BucketKept prim format blobs after legacyList directory[key]? touched hash)
      (fun _ _ => True) (format.rewriteBucket directory key newMembers) blobs := by
  have hloaded : Valid (prim.storeSetting faults blobUniverse)
      (fun manifest after => blobs ⊆ after ∧
        (∃ rows, ManifestConsistent prim format after legacyList manifest rows) ∧
        ∀ bucket other, directory[key]? = some bucket → BucketReads prim format blobs bucket other →
          manifest = other)
      (fun _ _ => True) (format.manifestAt directory key) blobs := by
    rw [IndexFormat.manifestAt]
    cases hnamed : directory[key]? with
    | none =>
        refine ⟨List.Subset.refl _, ⟨[], .default⟩, ?_⟩
        intro bucket other hbucket
        cases hbucket
    | some bucket =>
        refine Valid.mono ?_ (fun _ _ h => h)
          (loadBucketManifest_reads hfree (hbucket bucket hnamed))
        rintro manifest after ⟨hgrow, hrows, hsame⟩
        refine ⟨hgrow, hrows, ?_⟩
        rintro _ other ⟨⟩ hother
        exact hsame other hother
  apply Valid.bind
  refine Valid.mono ?_ (fun _ _ h => h) hloaded
  rintro manifest first ⟨hfirst, ⟨rows, hmanifest⟩, hsame⟩
  apply Valid.bind
  refine Valid.mono ?_ (fun _ _ h => h) (takeTail_consistent hfree hmanifest)
  rintro ⟨frozen, tail⟩ second ⟨hsecond, front, hfrozen, hlong, hnames⟩
  apply Valid.bind
  refine Valid.mono ?_ (fun _ _ h => h) (storeSegments_consistent hfrozen hlong
    (fun _ hpiece => length_eq_of_mem_dropLast_pieces hpiece)
    (fun _ hpiece => length_le_of_mem_pieces hpiece))
  rintro whole third ⟨hthird, wholeRows, hwhole, hprefix⟩
  refine Valid.mono ?_ (fun _ _ _ => trivial) (storeJson_valid format.printManifest whole)
  rintro hash last ⟨hlast, hheld⟩
  have hreads : BucketReads prim format last (.manifest hash) whole :=
    ⟨_, hheld, format.parseManifest_print whole⟩
  refine ⟨List.Subset.trans hfirst (List.Subset.trans hsecond (List.Subset.trans hthird hlast)),
    ⟨whole, wholeRows, hreads, hwhole.mono hlast⟩, ?_⟩
  intro _ bucket old hnamed hold
  obtain rfl := hsame bucket old hnamed hold
  have hlater := List.Subset.trans hsecond (List.Subset.trans hthird hlast)
  refine ⟨whole, rows, hreads, hmanifest.mono hlater, ?_, fun hnot => absurd htouched hnot⟩
  rw [← hnames, ← hfrozen.segments]
  exact hprefix

theorem carryBucket_kept (hfree : prim.CollisionFree blobUniverse) {bucket : BucketRef}
    (touched : Prop) (hbucket : BucketConsistent prim format blobs legacyList bucket) :
    Valid (prim.storeSetting faults blobUniverse)
      (fun hash after => blobs ⊆ after ∧
        BucketKept prim format blobs after legacyList (some bucket) touched hash)
      (fun _ _ => True) (format.carryBucket bucket) blobs := by
  cases bucket with
  | manifest hash =>
      refine ⟨List.Subset.refl _, hbucket, ?_⟩
      rintro hfreeBlobs _ old ⟨⟩ hold
      obtain ⟨manifest, rows, hreads, hmanifest⟩ := hbucket
      obtain rfl := hreads.unique hfreeBlobs hold
      exact ⟨manifest, rows, hreads, hmanifest, hmanifest.fullSegments_prefix, fun _ => rfl⟩
  | legacyList hash =>
      apply Valid.bind
      refine Valid.mono ?_ (fun _ _ h => h) (loadBucketManifest_reads hfree hbucket)
      rintro manifest after ⟨hgrow, ⟨rows, hmanifest⟩, hsame⟩
      refine Valid.mono ?_ (fun _ _ _ => trivial) (storeJson_valid format.printManifest manifest)
      rintro stored later ⟨hlater, hheld⟩
      have hreads : BucketReads prim format later (.manifest stored) manifest :=
        ⟨_, hheld, format.parseManifest_print manifest⟩
      refine ⟨List.Subset.trans hgrow hlater, ⟨manifest, rows, hreads, hmanifest.mono hlater⟩, ?_⟩
      rintro - _ old ⟨⟩ hold
      obtain rfl := hsame old hold
      exact ⟨manifest, rows, hreads, hmanifest.mono hlater, hmanifest.fullSegments_prefix,
        fun _ => rfl⟩

/-! ## A batch -/

/-- A loop over the rows of a map that changes the place of each row only. -/
theorem foldRows_valid {β : Type} {map : Std.ExtTreeMap String β compare}
    {step : Std.ExtTreeMap String Hash compare → String × β →
      IsccProg (Std.ExtTreeMap String Hash compare)}
    {start : Std.ExtTreeMap String Hash compare} (place : String → Option Hash → Blobs → Prop)
    (hmono : ∀ {key found small large}, small ⊆ large → place key found small →
      place key found large)
    (hrest : ∀ key, map[key]? = none → place key start[key]? blobs)
    (hstep : ∀ (key : String) (item : β) (buckets : Std.ExtTreeMap String Hash compare)
      (before : Blobs), map[key]? = some item → blobs ⊆ before →
      Valid (prim.storeSetting faults blobUniverse)
        (fun next after => before ⊆ after ∧
          (∀ other : String, other ≠ key → next[other]? = buckets[other]?) ∧
          place key next[key]? after)
        (fun _ _ => True) (step buckets (key, item)) before) :
    Valid (prim.storeSetting faults blobUniverse)
      (fun final after => blobs ⊆ after ∧ ∀ key, place key final[key]? after) (fun _ _ => True)
      (map.toList.foldlM step start) blobs := by
  let I : List (String × β) → Std.ExtTreeMap String Hash compare → Blobs → Prop :=
    fun rest buckets after => blobs ⊆ after ∧ (∀ row ∈ rest, row ∈ map.toList) ∧
      ∀ key, key ∉ rest.map Prod.fst → place key buckets[key]? after
  have hinit : I map.toList start blobs := by
    refine ⟨List.Subset.refl _, fun _ hrow => hrow, fun key hkey => hrest key ?_⟩
    cases hnamed : map[key]? with
    | none => rfl
    | some item =>
        refine absurd (List.mem_map.mpr ⟨(key, item), ?_, rfl⟩) hkey
        exact Std.ExtTreeMap.mem_toList_iff_getElem?_eq_some.mpr hnamed
  refine Valid.mono ?_ (fun _ _ h => h)
    (Valid.foldlM I ?_ hinit : Valid _ _ (fun _ _ => True) _ _)
  · rintro final after ⟨hgrow, -, hplaces⟩
    exact ⟨hgrow, fun key => hplaces key (by simp)⟩
  · rintro ⟨key, item⟩ rest buckets after ⟨hgrow, hrows, hplaces⟩
    have hnamed : map[key]? = some item :=
      Std.ExtTreeMap.mem_toList_iff_getElem?_eq_some.mp (hrows _ List.mem_cons_self)
    refine Valid.mono ?_ (fun _ _ h => h) (hstep key item buckets after hnamed hgrow)
    rintro next later ⟨hlater, hothers, hplace⟩
    refine ⟨List.Subset.trans hgrow hlater, fun row hrow => hrows row (List.mem_cons_of_mem _ hrow),
      fun other hnot => ?_⟩
    by_cases hkey : other = key
    · rw [hkey]
      exact hplace
    · rw [hothers other hkey]
      apply hmono hlater
      apply hplaces
      rw [List.map_cons, List.mem_cons, not_or]
      exact ⟨hkey, hnot⟩

/-- What a root is the directory of. -/
def RootReads (prim : Primitives) (format : IndexFormat) (blobs : Blobs) :
    Option Hash → Directory → Prop
  | none, directory => directory = ∅
  | some hash, directory => ∃ bytes, prim.Held blobs hash bytes ∧
      format.directoryOf bytes = .ok directory

/-- What becomes of the place of a bucket in the directory. -/
def PlaceKept (prim : Primitives) (format : IndexFormat) (start : Blobs) (directory : Directory)
    (legacy : Std.ExtTreeMap String Hash compare) (touched : String → Prop) (key : String) :
    Option Hash → Blobs → Prop
  | none, _ => directory[key]? = none
  | some hash, after =>
      BucketKept prim format start after legacy[key]? directory[key]? (touched key) hash

theorem PlaceKept.mono {start small large : Blobs} {directory : Directory}
    {legacy : Std.ExtTreeMap String Hash compare} {touched : String → Prop} {key : String}
    {found : Option Hash} (hgrow : small ⊆ large)
    (hplace : PlaceKept prim format start directory legacy touched key found small) :
    PlaceKept prim format start directory legacy touched key found large := by
  cases found with
  | none => exact hplace
  | some hash => exact BucketKept.mono (List.Subset.refl _) hgrow hplace

/-- A key is touched by a batch if a member falls into its bucket. -/
def Touched (params : BandParams) (members : List IsccMember) (key : String) : Prop :=
  ∃ member ∈ members, FallsInto params key member

theorem touched_of_byBucket {params : BandParams} {members list : List IsccMember} {key : String}
    (hlist : (byBucket params members)[key]? = some list) : Touched params members key := by
  obtain ⟨member, hmember⟩ :=
    List.exists_mem_of_ne_nil list (byBucket_ne_nil params members key list hlist)
  refine ⟨member, (mem_byBucket_iff params members key member).mp ?_⟩
  rwa [hlist, Option.getD_some]

theorem insertBatch_kept (hfree : prim.CollisionFree blobUniverse) {root : Option Hash}
    {directory : Directory} {legacy : Std.ExtTreeMap String Hash compare}
    (hroot : RootReads prim format blobs root directory)
    (hdirectory : ∀ (key : String) (bucket : BucketRef), directory[key]? = some bucket →
      BucketConsistent prim format blobs legacy[key]? bucket)
    (params : BandParams) (members : List IsccMember) :
    Valid (prim.storeSetting faults blobUniverse)
      (fun hash after => blobs ⊆ after ∧ ∃ buckets : Std.ExtTreeMap String Hash compare,
        RootReads prim format after (some hash) (buckets.map fun _ hash => .manifest hash) ∧
        ∀ key, PlaceKept prim format blobs directory legacy (Touched params members) key
          buckets[key]? after)
      (fun _ _ => True) (format.insertBatch root params members) blobs := by
  have hloaded : Valid (prim.storeSetting faults blobUniverse)
      (fun result after => blobs ⊆ after ∧ result = directory) (fun _ _ => True)
      (format.loadDirectory root) blobs := by
    cases root with
    | none => exact ⟨List.Subset.refl _, hroot.symm⟩
    | some hash =>
        obtain ⟨bytes, hheld, hparse⟩ := hroot
        exact Valid.mono (fun _ _ h => h) (fun _ _ _ => trivial) (loadJson_valid hfree hheld hparse)
  apply Valid.bind
  refine Valid.mono ?_ (fun _ _ h => h) hloaded
  rintro result first ⟨hfirst, rfl⟩
  let touched := Touched params members
  -- The buckets that no member falls into are carried over first.
  let carries : String → Option Hash → Blobs → Prop := fun key found after =>
    (byBucket params members)[key]? = none →
      PlaceKept prim format blobs result legacy touched key found after
  apply Valid.bind
  refine Valid.mono ?_ (fun _ _ h => h) (foldRows_valid carries ?_ ?_ ?_)
  · rintro carried second ⟨hsecond, hcarried⟩
    apply Valid.bind
    refine Valid.mono ?_ (fun _ _ h => h) (foldRows_valid
      (PlaceKept prim format blobs result legacy touched) (fun hgrow h => h.mono hgrow) hcarried ?_)
    · rintro buckets third ⟨hthird, hplaces⟩
      refine Valid.mono ?_ (fun _ _ _ => trivial)
        (storeJson_valid format.printDirectory ⟨2, buckets⟩)
      rintro hash last ⟨hlast, hheld⟩
      refine ⟨List.Subset.trans hfirst (List.Subset.trans hsecond (List.Subset.trans hthird hlast)),
        buckets, ⟨_, hheld, ?_⟩, fun key => (hplaces key).mono hlast⟩
      rw [IndexFormat.directoryOf, format.parseDirectory_print]
      rfl
    · intro key list buckets before hlist hbefore
      have hstart := List.Subset.trans hfirst (List.Subset.trans hsecond hbefore)
      apply Valid.bind
      refine Valid.mono ?_ (fun _ _ h => h) (rewriteBucket_kept hfree key list
        (touched_of_byBucket hlist) fun bucket hbucket =>
          (hdirectory key bucket hbucket).mono hstart)
      rintro hash after ⟨hgrow, hkept⟩
      refine ⟨hgrow, fun other hother => ?_, ?_⟩
      · simp only [Std.ExtTreeMap.getElem?_insert, Std.compare_eq_iff_eq, if_neg (Ne.symm hother)]
      · rw [Std.ExtTreeMap.getElem?_insert_self]
        exact hkept.mono hstart (List.Subset.refl _)
  · intro key found small large hgrow hplace huntouched
    exact (hplace huntouched).mono hgrow
  · intro key hnone _
    simp only [Std.ExtTreeMap.getElem?_empty]
    exact hnone
  · intro key bucket buckets before hbucket hbefore
    have hstart := List.Subset.trans hfirst hbefore
    dsimp only
    split
    next hcontains =>
      refine ⟨List.Subset.refl _, fun _ _ => rfl, fun huntouched => ?_⟩
      rw [Std.ExtTreeMap.contains_iff_mem, Std.ExtTreeMap.mem_iff_isSome_getElem?, huntouched]
        at hcontains
      cases hcontains
    next =>
      apply Valid.bind
      refine Valid.mono ?_ (fun _ _ h => h)
        (carryBucket_kept hfree (touched key) ((hdirectory key bucket hbucket).mono hstart))
      rintro hash after ⟨hgrow, hkept⟩
      refine ⟨hgrow, fun other hother => ?_, fun _ => ?_⟩
      · simp only [Std.ExtTreeMap.getElem?_insert, Std.compare_eq_iff_eq, if_neg (Ne.symm hother)]
      · rw [Std.ExtTreeMap.getElem?_insert_self, PlaceKept, hbucket]
        exact hkept.mono hstart (List.Subset.refl _)

/-! ## Sequences of batches -/

/-- Batches one after another, each with the bands that it is given. -/
def IndexFormat.insertCalls (format : IndexFormat) (calls : List (BandParams × List IsccMember))
    (root : Option Hash) : IsccProg (Option Hash) :=
  calls.foldlM (fun root call => do
    let hash ← format.insertBatch root call.1 call.2
    pure (some hash)) root

/-- Where a sequence of batches starts: from nothing, or from a directory of the first
format. -/
def StartsAt (prim : Primitives) (format : IndexFormat) (blobs : Blobs) :
    Option Hash → Std.ExtTreeMap String Hash compare → Prop
  | none, legacy => legacy = ∅
  | some root, legacy => ∃ bytes, prim.blobAt blobs root = some bytes ∧
      format.parseLegacy bytes = .ok legacy

/-- A root whose buckets are all in order. -/
def InOrder (prim : Primitives) (format : IndexFormat) (blobs : Blobs)
    (legacy : Std.ExtTreeMap String Hash compare) (root : Option Hash) : Prop :=
  ∃ directory : Directory, RootReads prim format blobs root directory ∧
    ∀ (key : String) (bucket : BucketRef), directory[key]? = some bucket →
      BucketConsistent prim format blobs legacy[key]? bucket

theorem InOrder.of_startsAt {root : Option Hash} {legacy : Std.ExtTreeMap String Hash compare}
    (hstart : StartsAt prim format blobs root legacy) : InOrder prim format blobs legacy root := by
  cases root with
  | none =>
      refine ⟨∅, rfl, fun key bucket hbucket => ?_⟩
      simp at hbucket
  | some hash =>
      obtain ⟨bytes, hget, hparse⟩ := hstart
      obtain ⟨message, hnot⟩ := format.parseDirectory_legacy bytes legacy hparse
      refine ⟨legacy.map fun _ hash => .legacyList hash, ⟨bytes, prim.mem_of_blobAt hget, ?_⟩, ?_⟩
      · rw [IndexFormat.directoryOf, hnot, hparse]
        rfl
      · intro key bucket hbucket
        rw [Std.ExtTreeMap.getElem?_map, Option.map_eq_some_iff] at hbucket
        obtain ⟨list, hlist, rfl⟩ := hbucket
        exact hlist

theorem InOrder.of_places {root : Hash} {start : Blobs} {directory : Directory}
    {legacy : Std.ExtTreeMap String Hash compare} {touched : String → Prop}
    {buckets : Std.ExtTreeMap String Hash compare}
    (hroot : RootReads prim format blobs (some root) (buckets.map fun _ hash => .manifest hash))
    (hplaces : ∀ key,
      PlaceKept prim format start directory legacy touched key buckets[key]? blobs) :
    InOrder prim format blobs legacy (some root) := by
  refine ⟨_, hroot, fun key bucket hbucket => ?_⟩
  rw [Std.ExtTreeMap.getElem?_map, Option.map_eq_some_iff] at hbucket
  obtain ⟨hash, hhash, rfl⟩ := hbucket
  have hplace := hplaces key
  rw [hhash] at hplace
  exact hplace.consistent

/-- Every batch leaves an index in order. -/
theorem insertCalls_inOrder (hfree : prim.CollisionFree blobUniverse)
    {legacy : Std.ExtTreeMap String Hash compare} (calls : List (BandParams × List IsccMember))
    {root : Option Hash} (horder : InOrder prim format blobs legacy root) :
    Valid (prim.storeSetting faults blobUniverse)
      (fun last after => InOrder prim format after legacy last) (fun _ _ => True)
      (format.insertCalls calls root) blobs := by
  let I : List (BandParams × List IsccMember) → Option Hash → Blobs → Prop := fun _ current after =>
    InOrder prim format after legacy current
  refine Valid.mono (fun _ _ h => h) (fun _ _ h => h)
    (Valid.foldlM I ?_ horder : Valid _ _ (fun _ _ => True) _ _)
  rintro ⟨params, members⟩ rest current after ⟨directory, hroot, hdirectory⟩
  apply Valid.bind
  refine Valid.mono ?_ (fun _ _ h => h) (insertBatch_kept hfree hroot hdirectory params members)
  rintro hash later ⟨-, buckets, hgrown, hplaces⟩
  exact .of_places hgrown hplaces

theorem manifestOf_eq_some_iff (hfree : prim.CollisionFree {held | held ∈ blobs})
    {bucket : BucketRef} {manifest : BucketManifest} :
    manifestOf prim format blobs bucket = some manifest ↔
      BucketReads prim format blobs bucket manifest := by
  have hread : ∀ {α : Type} {parse : Bytes → Except String α} {hash : Hash} {value : α},
      readJson prim parse blobs hash = some value ↔
        ∃ bytes, prim.Held blobs hash bytes ∧ parse bytes = .ok value := by
    intro α parse hash value
    constructor
    · intro hsome
      obtain ⟨bytes, hget, hparse⟩ := Option.bind_eq_some_iff.mp hsome
      refine ⟨bytes, prim.mem_of_blobAt hget, ?_⟩
      cases hresult : parse bytes with
      | error message => rw [hresult] at hparse; cases hparse
      | ok other => rw [hresult] at hparse; rw [Option.some.inj hparse]
    · rintro ⟨bytes, hheld, hparse⟩
      exact readJson_of_held hfree hheld hparse
  cases bucket with
  | manifest hash => exact hread
  | legacyList hash =>
      rw [manifestOf, Option.map_eq_some_iff]
      simp only [hread]
      exact ⟨fun ⟨list, hlist, heq⟩ => ⟨list, hlist, heq.symm⟩,
        fun ⟨list, hlist, heq⟩ => ⟨list, hlist, heq.symm⟩⟩

theorem directoryAt_of_reads (hfree : prim.CollisionFree {held | held ∈ blobs}) {root : Option Hash}
    {directory : Directory} (hroot : RootReads prim format blobs root directory) :
    directoryAt prim format blobs root = some directory := by
  cases root with
  | none => exact congrArg some hroot.symm
  | some hash =>
      obtain ⟨bytes, hheld, hparse⟩ := hroot
      exact readJson_of_held hfree hheld hparse

/-- What a batch does to the buckets of an index: afterwards all of them are in order,
and each keeps its full segments, or its whole manifest if no member falls into it. -/
structure SegmentsKept (prim : Primitives) (format : IndexFormat)
    (legacy : Std.ExtTreeMap String Hash compare) (touched : String → Prop) (before after : Blobs)
    (previous : Option Hash) (next : Hash) : Prop where
  consistent : ∃ directory, directoryAt prim format after (some next) = some directory ∧
    ∀ (key : String) (bucket : BucketRef), directory[key]? = some bucket →
      ∃ manifest rows, manifestOf prim format after bucket = some manifest ∧
        ManifestConsistent prim format after legacy[key]? manifest rows ∧
        (memberCount rows < 2 ^ 64 → manifest.count.toNat = memberCount rows ∧
          ∀ row ∈ rows, row.2.length ≤ manifest.count.toNat)
  kept : ∀ key old, bucketManifest prim format before previous key = some old →
    ∃ grown, bucketManifest prim format after (some next) key = some grown ∧
      old.segments.filter (isFull prim format after) <+: grown.segments ∧
      (¬ touched key → grown = old)

/-- In every sequence of batches, from nothing or from a directory of the first format,
each batch keeps the buckets and their full segments in order. -/
theorem insertCalls_segmentsKept {legacy : Std.ExtTreeMap String Hash compare}
    {start previous : Option Hash} (hstart : StartsAt prim format blobs start legacy)
    {calls : List (BandParams × List IsccMember)} {middle final : Blobs}
    (hruns : Prog.Runs (prim.StoreStep faults) (format.insertCalls calls start) blobs
      (.ok previous) middle)
    {params : BandParams} {members : List IsccMember} {next : Hash}
    (hcall : Prog.Runs (prim.StoreStep faults) (format.insertBatch previous params members) middle
      (.ok next) final)
    (hfree : prim.CollisionFree {held | held ∈ final}) :
    SegmentsKept prim format legacy (Touched params members) middle final previous next := by
  have hsubset : middle ⊆ final :=
    hcall.reflects (fun held => held ⊆ final)
      (fun _ _ _ _ hstep hafter => List.Subset.trans hstep.subset hafter) (List.Subset.refl final)
  have hfreeMiddle : prim.CollisionFree {held | held ∈ middle} :=
    hfree.mono fun blob hblob => hsubset hblob
  obtain ⟨directory, hroot, hdirectory⟩ := prim.storeSetting_outcome
    (insertCalls_inOrder hfreeMiddle calls (.of_startsAt hstart)) hruns
  obtain ⟨-, buckets, hgrown, hplaces⟩ := prim.storeSetting_outcome
    (insertBatch_kept hfree hroot hdirectory params members) hcall
  have hnamed : directoryAt prim format final (some next) =
      some (buckets.map fun _ hash => .manifest hash) := directoryAt_of_reads hfree hgrown
  constructor
  · refine ⟨_, hnamed, fun key bucket hbucket => ?_⟩
    rw [Std.ExtTreeMap.getElem?_map, Option.map_eq_some_iff] at hbucket
    obtain ⟨hash, hhash, rfl⟩ := hbucket
    have hplace := hplaces key
    rw [hhash] at hplace
    obtain ⟨manifest, rows, hreads, hmanifest⟩ := hplace.consistent
    exact ⟨manifest, rows, (manifestOf_eq_some_iff hfree).mpr hreads, hmanifest,
      hmanifest.toNat_count⟩
  · intro key old hold
    rw [bucketManifest, directoryAt_of_reads hfreeMiddle hroot] at hold
    simp only [Option.bind_eq_bind, Option.bind_some] at hold
    obtain ⟨bucket, hbucket, hreads⟩ := Option.bind_eq_some_iff.mp hold
    have hplace := hplaces key
    cases hhash : buckets[key]? with
    | none =>
        rw [hhash] at hplace
        exact absurd (hplace.symm.trans hbucket) (by simp)
    | some hash =>
        rw [hhash] at hplace
        obtain ⟨grown, rows, hgrownReads, hmanifest, hprefix, huntouched⟩ :=
          hplace.kept hfree bucket old hbucket ((manifestOf_eq_some_iff hfreeMiddle).mp hreads)
        refine ⟨grown, ?_, ?_, huntouched⟩
        · rw [bucketManifest, hnamed]
          have hplaced : (buckets.map fun _ hash => BucketRef.manifest hash)[key]? =
              some (.manifest hash) := by
            rw [Std.ExtTreeMap.getElem?_map, hhash]
            rfl
          simp only [Option.bind_eq_bind, Option.bind_some, hplaced]
          exact (manifestOf_eq_some_iff hfree).mpr hgrownReads
        · rw [hmanifest.filter_isFull hfree]
          exact hprefix

end Calls

/-! ## A bucket with a full segment

A posting list of the first format that fills a segment. Its text is only looked at as far
as its first member, which no other text has. -/

namespace Sample

def fullMembers : List IsccMember :=
  (List.range segmentMaxMembers).map fun index => ⟨toString index, 0⟩

def fullText : Bytes :=
  utf8 "[" ++ (List.range segmentMaxMembers).flatMap (fun index =>
    utf8 ((if index = 0 then "" else ",") ++ "\x7b\"key\":" ++ quoted (toString index) ++
      ",\"content_code\":0\x7d")) ++ utf8 "]"

def fullStart : Bytes := utf8 "[\x7b\"key\":\"0\""

def fullList : NamedHash where
  hash := ⟨bytes32 0x89a2087b079932a568c138c23633ade31d572eedce722e4585b25003d2224db9⟩
  text := "89a2087b079932a568c138c23633ade31d572eedce722e4585b25003d2224db9"

def filledManifest : NamedHash where
  hash := ⟨bytes32 0xbec0554fa83fcfa938bc3a310def85d23483b3da12e24137dac0ca3dd2821810⟩
  text := "bec0554fa83fcfa938bc3a310def85d23483b3da12e24137dac0ca3dd2821810"

def reopenedManifest : NamedHash where
  hash := ⟨bytes32 0xd8e8d0394d18fb2caef191f2722153d63e88d42c1578eb49fe1da55a3f067db0⟩
  text := "d8e8d0394d18fb2caef191f2722153d63e88d42c1578eb49fe1da55a3f067db0"

def fullRoot : Hash :=
  ⟨bytes32 0xc4a6300afb041a05934ebb7b6ad0d44849dc4bc110b026d73bd2538b14260913⟩
def filledRoot : Hash :=
  ⟨bytes32 0xba9d8d33cb2ac2930639f1a768039a7f0d86ed8462278972c9a5c2fc796be181⟩
def reopenedRoot : Hash :=
  ⟨bytes32 0xe3d7540bfe19c76f8fb51ff204af5bdbe5bf6c21bb9fc49bf0806caa13eae620⟩

def fullRows : List (String × NamedHash) := [("iscc/00/0000000000000000", fullList)]

def filledRows : List (String × NamedHash) :=
  [("iscc/00/0000000000000000", filledManifest), ("iscc/01/0000000000000000", zeroManifest)]

def reopenedRows : List (String × NamedHash) :=
  [("iscc/00/0000000000000000", reopenedManifest), ("iscc/01/0000000000000000", zeroManifest),
    ("iscc/01/0000000000000003", threeManifest)]

/-- The text of a manifest whose first segment is the full one. -/
def fullManifestText (count : String) (segment : NamedHash) : String :=
  "\x7b\"count\":" ++ count ++ ",\"segments\":[" ++ quoted fullList.text ++ "," ++
    quoted segment.text ++ "]\x7d"

def fullTables : IndexTables where
  directories :=
    { rows := [(⟨2, bucketsOf filledRows⟩, directoryText filledRows),
        (⟨2, bucketsOf reopenedRows⟩, directoryText reopenedRows)]
      nodup := by decide +kernel
      unmarked := by decide +kernel }
  manifests :=
    { rows := [(⟨4097, [fullList.hash, zeroList.hash]⟩, fullManifestText "4097" zeroList),
        (⟨4098, [fullList.hash, bothList.hash]⟩, fullManifestText "4098" bothList),
        (⟨1, [zeroList.hash]⟩, manifestText "1" zeroList),
        (⟨1, [threeList.hash]⟩, manifestText "1" threeList)]
      nodup := by decide +kernel
      unmarked := by decide +kernel }
  members := indexTables.members
  legacy := [(bucketsOf fullRows, bucketsText fullRows)]
  legacy_unlisted := by decide +kernel

/-- No other list is written with the start of the full one. -/
theorem fullStart_printed (members : List IsccMember) :
    ¬ fullStart.isPrefixOf (indexTables.members.print members) = true := by
  have hlisted : ∀ row ∈ indexTables.members.rows,
      fullStart.isPrefixOf (utf8 row.2) = false := by decide +kernel
  rw [TextTable.print.eq_def]
  split
  next row hrow =>
    rw [hlisted row (List.mem_of_find?_eq_some hrow)]
    exact Bool.false_ne_true
  next =>
    intro hprefix
    obtain ⟨rest, hrest⟩ := List.isPrefixOf_iff_prefix.mp hprefix
    have hhead : (fullStart ++ rest).head? = some 0x5b := by
      rw [List.head?_append, show fullStart.head? = some 0x5b by decide +kernel]
      rfl
    rw [hrest] at hhead
    exact absurd (Option.some.inj hhead) (by decide)

/-- The list that fills a segment is written and read as a whole. -/
noncomputable def fullFormat : IndexFormat where
  __ := fullTables.format
  printMembers members :=
    if members = fullMembers then fullText else indexTables.members.print members
  parseMembers bytes :=
    if fullStart.isPrefixOf bytes then .ok fullMembers else indexTables.members.parse bytes
  parseMembers_print members := by
    have hfull : fullStart.isPrefixOf fullText = true := by decide +kernel
    by_cases hmembers : members = fullMembers
    · rw [if_pos hmembers, if_pos hfull, hmembers]
    · rw [if_neg hmembers, if_neg (fullStart_printed members), TextTable.parse_print]

def fullHashes : Tables where
  __ := isccTables
  hashes :=
    [(utf8 (membersText ["0", "3"]), bothList.hash), (utf8 (membersText ["0"]), zeroList.hash),
      (utf8 (membersText ["3"]), threeList.hash),
      (utf8 (fullManifestText "4097" zeroList), filledManifest.hash),
      (utf8 (fullManifestText "4098" bothList), reopenedManifest.hash),
      (utf8 (manifestText "1" zeroList), zeroManifest.hash),
      (utf8 (manifestText "1" threeList), threeManifest.hash),
      (utf8 (bucketsText fullRows), fullRoot), (utf8 (directoryText filledRows), filledRoot),
      (utf8 (directoryText reopenedRows), reopenedRoot)]

def fullPrim : Primitives where
  __ := fullHashes.primitives
  blake3 bytes :=
    if fullStart.isPrefixOf bytes then fullList.hash else fullHashes.primitives.blake3 bytes

/-- The blobs of the index of the first format. -/
def fullBlobs : Blobs := [utf8 (bucketsText fullRows), fullText]

/-- The index after a batch with the first member. -/
noncomputable def filledRun : Prog.Outcome IsccStoreError (Option Hash) × Blobs :=
  (fullFormat.insertCalls [(params, [zeroMember])] (some fullRoot)).run fullPrim.memoryStore
    fullBlobs

/-- And after a batch with the second one. -/
noncomputable def reopenedRun : Prog.Outcome IsccStoreError Hash × Blobs :=
  (fullFormat.insertBatch (some filledRoot) params [threeMember]).run fullPrim.memoryStore
    filledRun.2

end Sample

namespace Sample

/-- All blobs are listed, but for the full segment, which lies below the others. -/
theorem reopened_collisionFree : fullPrim.CollisionFree {held | held ∈ reopenedRun.2} := by
  have hfree : fullPrim.CollisionFree {held | held ∈ fullText :: fullHashes.hashes.map Prod.fst} :=
    Primitives.collisionFree_of_nodup (by decide +kernel) (by decide +kernel)
  have hlisted : ∀ blob ∈ reopenedRun.2.dropLast, blob ∈ fullHashes.hashes.map Prod.fst := by
    decide +kernel
  obtain ⟨added, hadded⟩ : fullBlobs <:+ reopenedRun.2 :=
    (fullPrim.memoryStore_run_suffix _ _).trans (fullPrim.memoryStore_run_suffix _ _)
  have hlast : reopenedRun.2 = (added ++ [utf8 (bucketsText fullRows)]) ++ [fullText] := by
    rw [← hadded, fullBlobs, List.append_assoc, List.singleton_append]
  rw [hlast, List.dropLast_concat] at hlisted
  refine hfree.mono fun blob hblob => ?_
  rcases List.mem_append.mp (hlast ▸ hblob) with hother | hfull
  · exact List.mem_cons_of_mem _ (hlisted blob hother)
  · exact List.mem_cons.mpr (Or.inl (List.mem_singleton.mp hfull))

end Sample

/-- The posting list of the first format stays the first segment of its bucket: one batch adds
a second segment, and the next takes that one off again, as it has room. -/
theorem insertCalls_segmentsKept_sample :
    bucketManifest Sample.fullPrim Sample.fullFormat Sample.filledRun.2 (some Sample.filledRoot)
        "iscc/00/0000000000000000" = some ⟨4097, [Sample.fullList.hash, Sample.zeroList.hash]⟩ ∧
      bucketManifest Sample.fullPrim Sample.fullFormat Sample.reopenedRun.2
        (some Sample.reopenedRoot) "iscc/00/0000000000000000" =
          some ⟨4098, [Sample.fullList.hash, Sample.bothList.hash]⟩ ∧
      SegmentsKept Sample.fullPrim Sample.fullFormat (Sample.bucketsOf Sample.fullRows)
        (Touched Sample.params [Sample.threeMember]) Sample.filledRun.2 Sample.reopenedRun.2
        (some Sample.filledRoot) Sample.reopenedRoot := by
  have hstart : StartsAt Sample.fullPrim Sample.fullFormat Sample.fullBlobs
      (some Sample.fullRoot) (Sample.bucketsOf Sample.fullRows) :=
    ⟨utf8 (Sample.bucketsText Sample.fullRows), by decide +kernel, by decide +kernel⟩
  have hfilled : Prog.Runs (Sample.fullPrim.StoreStep False)
      (Sample.fullFormat.insertCalls [(Sample.params, [Sample.zeroMember])] (some Sample.fullRoot))
      Sample.fullBlobs Sample.filledRun.1 Sample.filledRun.2 :=
    Sample.fullPrim.memoryStore_runs False _ _
  have hreopened : Prog.Runs (Sample.fullPrim.StoreStep False)
      (Sample.fullFormat.insertBatch (some Sample.filledRoot) Sample.params
        [Sample.threeMember]) Sample.filledRun.2 Sample.reopenedRun.1 Sample.reopenedRun.2 :=
    Sample.fullPrim.memoryStore_runs False _ _
  have hruns : (Sample.filledRun.1 = .ok (some Sample.filledRoot) ∧
      Sample.reopenedRun.1 = .ok Sample.reopenedRoot) ∧
      bucketManifest Sample.fullPrim Sample.fullFormat Sample.filledRun.2 (some Sample.filledRoot)
        "iscc/00/0000000000000000" = some ⟨4097, [Sample.fullList.hash, Sample.zeroList.hash]⟩ ∧
      bucketManifest Sample.fullPrim Sample.fullFormat Sample.reopenedRun.2
        (some Sample.reopenedRoot) "iscc/00/0000000000000000" =
          some ⟨4098, [Sample.fullList.hash, Sample.bothList.hash]⟩ := by decide +kernel
  obtain ⟨⟨hfilledRoot, hreopenedRoot⟩, hfilledBucket, hreopenedBucket⟩ := hruns
  rw [hfilledRoot] at hfilled
  rw [hreopenedRoot] at hreopened
  exact ⟨hfilledBucket, hreopenedBucket,
    insertCalls_segmentsKept hstart hfilled hreopened Sample.reopened_collisionFree⟩

end Registry

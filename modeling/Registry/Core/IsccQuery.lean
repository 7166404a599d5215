import Registry.Core.TabulatedIndex

/-! # Answers of the similarity index

A query to the blob-backed index verifies exactly the members of the buckets it
probes. So it answers exactly, misses no key within the distance that the bands
can tell apart, and keeps its answers when an index of the first format is
migrated.
-/

namespace Registry

open Effect

section Query

variable {prim : Primitives} {format : IndexFormat} {faults : Prop} {blobUniverse : Set Bytes}
  {blobs : Blobs}

theorem loadMembers_valid (hfree : prim.CollisionFree blobUniverse) {manifest : BucketManifest}
    {members : List IsccMember} (hmanifest : ManifestHolds prim format blobs manifest members)
    (candidates : List IsccMember) :
    Valid (prim.storeSetting faults blobUniverse)
      (fun result after => blobs ⊆ after ∧ result = candidates ++ members)
      (fun _ _ => faults) (format.loadMembers manifest candidates) blobs := by
  obtain ⟨rows, hsegments, hrows, rfl⟩ := hmanifest
  rw [IndexFormat.loadMembers, hsegments]
  -- What is read so far, with what is left to read, is everything.
  let I : List Hash → List IsccMember → Blobs → Prop := fun rest read after =>
    blobs ⊆ after ∧ ∃ left : List (Hash × List IsccMember), rest = left.map Prod.fst ∧
      (∀ row ∈ left, row ∈ rows) ∧
      read ++ left.flatMap Prod.snd = candidates ++ rows.flatMap Prod.snd
  have hinit : I (rows.map Prod.fst) candidates blobs :=
    ⟨List.Subset.refl _, rows, rfl, fun _ hrow => hrow, rfl⟩
  refine Valid.mono ?_ (fun _ _ h => h) (Valid.foldlM I ?_ hinit)
  · rintro read after ⟨hgrow, left, hleft, -, hall⟩
    obtain rfl : left = [] := by simpa using hleft.symm
    exact ⟨hgrow, by simpa using hall⟩
  · rintro hash rest read after ⟨hgrow, left, hleft, hmem, hall⟩
    cases left with
    | nil => cases hleft
    | cons row left =>
        obtain ⟨rfl, rfl⟩ := List.cons.inj hleft
        have hsegment := (hrows row (hmem row List.mem_cons_self)).mono hgrow
        apply Valid.bind
        refine Valid.mono ?_ (fun _ _ h => h) (loadSegment_valid hfree hsegment)
        rintro segment later ⟨hlater, rfl⟩
        refine ⟨List.Subset.trans hgrow hlater, left, rfl,
          fun other hother => hmem other (List.mem_cons_of_mem _ hother), ?_⟩
        rw [← hall, List.flatMap_cons, List.append_assoc]

/-- The members of the buckets met, each bucket read the first time its key is met. -/
def membersOf (content : String → List IsccMember) (seen : List String) :
    List BucketId → List IsccMember
  | [] => []
  | bucket :: rest =>
      if bucket.storageKey ∈ seen then membersOf content seen rest
      else content bucket.storageKey ++ membersOf content (bucket.storageKey :: seen) rest

theorem mem_membersOf_iff (content : String → List IsccMember) (seen : List String)
    (buckets : List BucketId) (member : IsccMember) :
    member ∈ membersOf content seen buckets ↔
      ∃ bucket ∈ buckets, bucket.storageKey ∉ seen ∧ member ∈ content bucket.storageKey := by
  induction buckets generalizing seen with
  | nil => simp [membersOf]
  | cons bucket rest ih =>
      rw [membersOf, List.exists_mem_cons_iff]
      split
      next hseen => simp [hseen, ih]
      next hnew =>
        rw [List.mem_append, ih]
        constructor
        · rintro (hown | ⟨other, hother, hnot, hmember⟩)
          · exact Or.inl ⟨hnew, hown⟩
          · exact Or.inr ⟨other, hother, fun hmem => hnot (List.mem_cons_of_mem _ hmem), hmember⟩
        · rintro (⟨-, hown⟩ | ⟨other, hother, hnot, hmember⟩)
          · exact Or.inl hown
          · by_cases hsame : other.storageKey = bucket.storageKey
            · exact Or.inl (hsame ▸ hmember)
            · refine Or.inr ⟨other, hother, ?_, hmember⟩
              rw [List.mem_cons, not_or]
              exact ⟨hsame, hnot⟩

/-- The candidates that a query verifies, a function of what the buckets hold. -/
def candidatesIn (params : BandParams) (content : String → List IsccMember) (queryCode : UInt64)
    (probeRadius : Nat) : List IsccMember :=
  (membersOf content [] (params.queryBuckets queryCode probeRadius)).eraseDups

theorem mem_candidatesIn_iff {params : BandParams} {content : String → List IsccMember}
    {queryCode : UInt64} {probeRadius : Nat} {member : IsccMember} :
    member ∈ candidatesIn params content queryCode probeRadius ↔
      ∃ bucket ∈ params.queryBuckets queryCode probeRadius, member ∈ content bucket.storageKey := by
  rw [candidatesIn, List.mem_eraseDups, mem_membersOf_iff]
  simp

/-- A query verifies the members of the buckets it probes. -/
theorem query_valid (hfree : prim.CollisionFree blobUniverse) {root : Option Hash}
    {content : String → List IsccMember} (hindex : IndexHolds prim format blobs root content)
    (params : BandParams) (queryCode : UInt64) (radius probeRadius : Nat) :
    Valid (prim.storeSetting faults blobUniverse)
      (fun rows _ => rows = verify queryCode
        (candidatesIn params content queryCode probeRadius) radius)
      (fun _ _ => faults) (format.query root params queryCode radius probeRadius) blobs := by
  apply Valid.bind
  refine Valid.mono ?_ (fun _ _ h => h) (loadDirectory_valid hfree hindex)
  rintro directory first ⟨-, hdirectory⟩
  split
  next hempty =>
    have hnone : ∀ key, content key = [] := by
      intro key
      apply hdirectory.unnamed key
      rw [Std.ExtTreeMap.isEmpty_iff.mp hempty]
      exact Std.ExtTreeMap.getElem?_empty
    have hcandidates : candidatesIn params content queryCode probeRadius = [] := by
      rw [List.eq_nil_iff_forall_not_mem]
      intro member hmember
      obtain ⟨bucket, -, hbucket⟩ := mem_candidatesIn_iff.mp hmember
      rw [hnone] at hbucket
      cases hbucket
    show [] = _
    rw [hcandidates]
    simp [verify, bestMatches, dedupByKey]
  next =>
    apply Valid.bind
    -- What is read so far, with what the buckets left will give, is everything.
    let I : List BucketId → List IsccMember × List String → Blobs → Prop := fun rest state after =>
      first ⊆ after ∧ state.1 ++ membersOf content state.2 rest =
        membersOf content [] (params.queryBuckets queryCode probeRadius)
    have hinit : I (params.queryBuckets queryCode probeRadius) ([], []) first :=
      ⟨List.Subset.refl _, rfl⟩
    refine Valid.mono ?_ (fun _ _ h => h) (Valid.foldlM I ?_ hinit)
    · rintro ⟨candidates, seen⟩ after ⟨-, hall⟩
      rw [membersOf, List.append_nil] at hall
      subst hall
      rfl
    · rintro bucket rest ⟨candidates, seen⟩ after ⟨hgrow, hall⟩
      dsimp only [membersOf] at hall ⊢
      split
      next hseen => exact ⟨hgrow, by rw [← hall, if_pos hseen]⟩
      next hnew =>
        rw [if_neg hnew] at hall
        cases hnamed : directory[bucket.storageKey]? with
        | none =>
            rw [hdirectory.unnamed _ hnamed, List.nil_append] at hall
            exact ⟨hgrow, hall⟩
        | some bucketRef =>
            apply Valid.bind
            refine Valid.mono ?_ (fun _ _ h => h) (loadBucketManifest_valid hfree
              ((hdirectory.named _ bucketRef hnamed).mono hgrow))
            rintro manifest middle ⟨hmiddle, hmanifest⟩
            apply Valid.bind
            refine Valid.mono ?_ (fun _ _ h => h) (loadMembers_valid hfree hmanifest candidates)
            rintro read later ⟨hlater, rfl⟩
            refine ⟨List.Subset.trans hgrow (List.Subset.trans hmiddle hlater), ?_⟩
            rw [← hall, List.append_assoc]

theorem loadJson_uses {α : Type} (parse : Bytes → Except String α) (hash : Hash) :
    (loadJson parse hash).Uses StoreOp.IsGet := by
  refine ⟨trivial, ?_⟩
  rintro (error | (_ | bytes))
  · trivial
  · trivial
  · dsimp only
    split <;> trivial

theorem loadBucketManifest_uses (bucket : BucketRef) :
    (format.loadBucketManifest bucket).Uses StoreOp.IsGet := by
  cases bucket with
  | manifest hash => exact loadJson_uses _ hash
  | legacyList hash => exact (loadJson_uses _ hash).bind fun _ => trivial

theorem loadMembers_uses (manifest : BucketManifest) (candidates : List IsccMember) :
    (format.loadMembers manifest candidates).Uses StoreOp.IsGet := by
  apply Prog.Uses.foldlM
  intro read hash
  exact (loadJson_uses _ hash).bind fun _ => trivial

/-- A query only reads. -/
theorem query_uses (root : Option Hash) (params : BandParams) (queryCode : UInt64)
    (radius probeRadius : Nat) :
    (format.query root params queryCode radius probeRadius).Uses StoreOp.IsGet := by
  have hdirectory : (format.loadDirectory root).Uses StoreOp.IsGet := by
    cases root with
    | none => trivial
    | some hash => exact loadJson_uses _ hash
  refine hdirectory.bind fun directory => ?_
  split
  · trivial
  · refine Prog.Uses.bind (Prog.Uses.foldlM ?_ _ _) fun _ => trivial
    rintro ⟨candidates, seen⟩ bucket
    dsimp only
    split
    · trivial
    · split
      · trivial
      · refine (loadBucketManifest_uses _).bind fun manifest => ?_
        exact (loadMembers_uses manifest candidates).bind fun _ => trivial

/-! ## Whole histories -/

/-- Batches inserted one after the other, each into the root the last one left. -/
def IndexFormat.insertBatches (format : IndexFormat) (params : BandParams) (root : Option Hash)
    (batches : List (List IsccMember)) : IsccProg (Option Hash) :=
  batches.foldlM (fun root members => do
    let hash ← format.insertBatch root params members
    pure (some hash)) root

theorem insertBatches_valid (hfree : prim.CollisionFree blobUniverse) {root : Option Hash}
    {content : String → List IsccMember} (hindex : IndexHolds prim format blobs root content)
    (params : BandParams) (batches : List (List IsccMember)) :
    Valid (prim.storeSetting faults blobUniverse)
      (fun last after => ∃ grown, IndexHolds prim format after last grown ∧
        ∀ key, Grown (content key) (batches.flatten.filter (FallsInto params key)) (grown key))
      (fun _ _ => faults) (format.insertBatches params root batches) blobs := by
  let I : List (List IsccMember) → Option Hash → Blobs → Prop := fun rest current after =>
    ∃ grown done, IndexHolds prim format after current grown ∧ batches = done ++ rest ∧
      ∀ key, Grown (content key) (done.flatten.filter (FallsInto params key)) (grown key)
  have hinit : I batches root blobs := ⟨content, [], hindex, rfl, fun key => .refl _⟩
  refine Valid.mono ?_ (fun _ _ h => h) (Valid.foldlM I ?_ hinit)
  · rintro last after ⟨grown, done, hgrown, rfl, hall⟩
    exact ⟨grown, hgrown, by simpa using hall⟩
  · rintro members rest current after ⟨grown, done, hgrown, rfl, hall⟩
    apply Valid.bind
    refine Valid.mono ?_ (fun _ _ h => h) (insertBatch_valid hfree hgrown params members)
    rintro hash later ⟨-, larger, hlarger, hmembers⟩
    refine ⟨larger, done ++ [members], hlarger, by simp, fun key => ?_⟩
    simpa using (hall key).trans (hmembers key)

theorem fallsInto_storageKey_iff {params : BandParams} {bucket : BucketId} {member : IsccMember} :
    FallsInto params bucket.storageKey member ↔ bucket ∈ params.buckets member.contentCode := by
  constructor
  · rintro ⟨other, hother, hkey⟩
    exact BucketId.storageKey_injective hkey ▸ hother
  · exact fun hbucket => ⟨bucket, hbucket, rfl⟩

/-- Batches inserted and then queried, without faults: the query verifies what the
probed buckets hold by then. -/
theorem query_run {root : Option Hash} {content : String → List IsccMember}
    (hindex : IndexHolds prim format blobs root content) (params : BandParams)
    (batches : List (List IsccMember))
    (hfree : prim.CollisionFree
      {held | held ∈ ((format.insertBatches params root batches).run prim.memoryStore blobs).2})
    (queryCode : UInt64) (radius probeRadius : Nat) :
    ∃ last grown,
      ((format.insertBatches params root batches).run prim.memoryStore blobs).1 = .ok last ∧
      (format.query last params queryCode radius probeRadius).run prim.memoryStore
          ((format.insertBatches params root batches).run prim.memoryStore blobs).2 =
        (.ok (verify queryCode (candidatesIn params grown queryCode probeRadius) radius),
          ((format.insertBatches params root batches).run prim.memoryStore blobs).2) ∧
      ∀ key, Grown (content key) (batches.flatten.filter (FallsInto params key)) (grown key) := by
  have hbuilt := prim.storeSetting_outcome (insertBatches_valid hfree hindex params batches)
    (prim.memoryStore_runs False (format.insertBatches params root batches) blobs)
  generalize (format.insertBatches params root batches).run prim.memoryStore blobs = built at *
  obtain ⟨outcome, final⟩ := built
  cases outcome with
  | error error => exact hbuilt.elim
  | diverged => exact hbuilt.elim
  | ok last =>
      obtain ⟨grown, hgrown, hall⟩ := hbuilt
      have hruns := prim.memoryStore_runs False
        (format.query last params queryCode radius probeRadius) final
      have hfinal := hruns.world_eq (fun _ _ _ _ hget hstep => hstep.eq_of_isGet hget)
        (query_uses last params queryCode radius probeRadius)
      rw [hfinal] at hruns
      have hanswer := prim.storeSetting_outcome
        (query_valid hfree hgrown params queryCode radius probeRadius) hruns
      refine ⟨last, grown, rfl, Prod.ext ?_ hfinal, hall⟩
      cases houtcome : ((format.query last params queryCode radius probeRadius).run
          prim.memoryStore final).1 with
      | error error => rw [houtcome] at hanswer; exact hanswer.elim
      | diverged => rw [houtcome] at hanswer; exact hanswer.elim
      | ok rows =>
          rw [houtcome] at hanswer
          obtain rfl := hanswer
          rfl

/-- What a query verifies in an index built from nothing: the inserted members that
share a probed bucket with it. -/
theorem mem_candidatesIn_grown_iff {params : BandParams} {inserted : List IsccMember}
    {grown : String → List IsccMember}
    (hgrown : ∀ key, Grown [] (inserted.filter (FallsInto params key)) (grown key))
    {queryCode : UInt64} {probeRadius : Nat} {member : IsccMember} :
    member ∈ candidatesIn params grown queryCode probeRadius ↔ member ∈ inserted ∧
      ∃ bucket ∈ params.queryBuckets queryCode probeRadius,
        bucket ∈ params.buckets member.contentCode := by
  rw [mem_candidatesIn_iff]
  simp only [(hgrown _).mem_iff, List.not_mem_nil, false_or, List.mem_filter, decide_eq_true_eq,
    fallsInto_storageKey_iff]
  constructor
  · rintro ⟨bucket, hprobed, hinserted, hbucket⟩
    exact ⟨hinserted, bucket, hprobed, hbucket⟩
  · rintro ⟨hinserted, bucket, hprobed, hbucket⟩
    exact ⟨bucket, hprobed, hinserted, hbucket⟩

end Query

/-! ## Exact answers and guaranteed recall -/

/-- A code inserted under a key that a query is to find: within the radius, and near
the query in some band. -/
structure Matching (params : BandParams) (inserted : List IsccMember) (queryCode : UInt64)
    (radius probeRadius : Nat) (key : String) (code : UInt64) : Prop where
  inserted : ⟨key, code⟩ ∈ inserted
  within : hamming code queryCode ≤ radius
  banded : ∃ bandIndex < params.numBands, hamming (params.bandValue code bandIndex)
    (params.bandValue queryCode bandIndex) ≤ probeRadius

section Answers

variable {prim : Primitives} {format : IndexFormat}

/-- Verifying the inserted members that share a probed bucket finds each key's
nearest matching code. -/
theorem nearest_iff_isLeast {params : BandParams} {inserted : List IsccMember}
    {grown : String → List IsccMember}
    (hgrown : ∀ key, Grown [] (inserted.filter (FallsInto params key)) (grown key))
    {queryCode : UInt64} {radius probeRadius : Nat} {key : String} {distance : Nat} :
    Nearest queryCode radius {member | member ∈ candidatesIn params grown queryCode probeRadius}
        key distance ↔
      IsLeast {distance | ∃ code, Matching params inserted queryCode radius probeRadius key code ∧
        hamming code queryCode = distance} distance := by
  have hmem : ∀ member : IsccMember,
      member ∈ candidatesIn params grown queryCode probeRadius ↔ member ∈ inserted ∧
        ∃ bandIndex < params.numBands, hamming (params.bandValue member.contentCode bandIndex)
          (params.bandValue queryCode bandIndex) ≤ probeRadius := by
    intro member
    rw [mem_candidatesIn_grown_iff hgrown, params.exists_probed_iff]
  constructor
  · rintro ⟨hwithin, ⟨member, hmember, rfl, rfl⟩, hminimal⟩
    obtain ⟨hinserted, hbanded⟩ := (hmem member).mp hmember
    rw [hamming_comm] at hwithin ⊢
    refine ⟨⟨member.contentCode, ⟨hinserted, hwithin, hbanded⟩, rfl⟩, ?_⟩
    rintro _ ⟨code, hcode, rfl⟩
    have hle := hminimal ⟨member.key, code⟩ ((hmem _).mpr ⟨hcode.inserted, hcode.banded⟩) rfl
    rwa [hamming_comm queryCode, hamming_comm queryCode] at hle
  · rintro ⟨⟨code, hcode, rfl⟩, hleast⟩
    refine ⟨hcode.within, ⟨⟨key, code⟩, (hmem _).mpr ⟨hcode.inserted, hcode.banded⟩, rfl,
      hamming_comm _ _⟩, ?_⟩
    rintro member hmember rfl
    obtain ⟨hinserted, hbanded⟩ := (hmem member).mp hmember
    rcases le_or_gt (hamming member.contentCode queryCode) radius with hnear | hfar
    · rw [hamming_comm queryCode]
      exact hleast ⟨member.contentCode, ⟨hinserted, hnear, hbanded⟩, rfl⟩
    · rw [hamming_comm queryCode]
      exact le_trans hcode.within (le_of_lt hfar)

/-- The index answers exactly: one row for each key with a matching code, at the
least distance of those codes, in strict order. -/
theorem query_exact (params : BandParams) (batches : List (List IsccMember)) (blobs : Blobs)
    (hfree : prim.CollisionFree
      {held | held ∈ ((format.insertBatches params none batches).run prim.memoryStore blobs).2})
    (queryCode : UInt64) (radius probeRadius : Nat) :
    ∃ last rows,
      ((format.insertBatches params none batches).run prim.memoryStore blobs).1 = .ok last ∧
      (format.query last params queryCode radius probeRadius).run prim.memoryStore
          ((format.insertBatches params none batches).run prim.memoryStore blobs).2 =
        (.ok rows, ((format.insertBatches params none batches).run prim.memoryStore blobs).2) ∧
      (rows.map SimilarityMatch.key).Nodup ∧
      (∀ key, key ∈ rows.map SimilarityMatch.key ↔
        ∃ code, Matching params batches.flatten queryCode radius probeRadius key code) ∧
      (∀ row ∈ rows, row.distance = hamming row.contentCode queryCode ∧
        IsLeast {distance | ∃ code, Matching params batches.flatten queryCode radius probeRadius
          row.key code ∧ hamming code queryCode = distance} row.distance) ∧
      rows.Pairwise SimilarityMatch.Before := by
  obtain ⟨last, grown, hlast, hrun, hgrown⟩ := query_run (indexHolds_none blobs) params batches
    hfree queryCode radius probeRadius
  refine ⟨last, _, hlast, hrun, verify_keys_nodup _, fun key => ?_, fun row hrow => ?_,
    verify_pairwise _⟩
  · rw [List.mem_map]
    constructor
    · rintro ⟨row, hrow, rfl⟩
      obtain ⟨⟨code, hcode, -⟩, -⟩ := (nearest_iff_isLeast hgrown).mp (verify_sound hrow).2.2
      exact ⟨code, hcode⟩
    · rintro ⟨code, hcode⟩
      have hmember : (⟨key, code⟩ : IsccMember) ∈
          {member | member ∈ candidatesIn params grown queryCode probeRadius} :=
        (mem_candidatesIn_grown_iff hgrown).mpr
          ⟨hcode.inserted, (params.exists_probed_iff code queryCode probeRadius).mpr hcode.banded⟩
      have hwithin : hamming queryCode code ≤ radius := hamming_comm code queryCode ▸ hcode.within
      obtain ⟨distance, hnearest⟩ := exists_nearest hmember hwithin
      obtain ⟨row, hrow, hkey, -⟩ := verify_complete hnearest
      exact ⟨row, hrow, hkey⟩
  · obtain ⟨-, hdistance, hnearest⟩ := verify_sound hrow
    exact ⟨by rw [hamming_comm, hdistance], (nearest_iff_isLeast hgrown).mp hnearest⟩

namespace Sample

/-- Both members inserted in one batch. -/
noncomputable def builtRun : Prog.Outcome IsccStoreError (Option Hash) × Blobs :=
  (indexFormat.insertBatches params none [[zeroMember, threeMember]]).run isccPrim.memoryStore []

def builtBlobs : Blobs :=
  [utf8 (directoryText builtRows), utf8 (manifestText "1" threeList), utf8 (membersText ["3"]),
    utf8 (manifestText "1" zeroList), utf8 (membersText ["0"]), utf8 (manifestText "2" bothList),
    utf8 (membersText ["0", "3"])]

theorem builtRun_eq : builtRun = (.ok (some builtRoot), builtBlobs) := by decide +kernel

theorem builtRun_collisionFree : isccPrim.CollisionFree {held | held ∈ builtRun.2} := by
  apply collisionFree_of_listed
  rw [builtRun_eq]
  simp [builtBlobs, isccBlobs, isccTables]

end Sample

/-- The key is found at the distance of its nearer code, through a bucket that holds
both of its codes. -/
theorem query_exact_sample :
    ∃ last rows, Sample.builtRun.1 = .ok last ∧
      (Sample.indexFormat.query last Sample.params 7 2 0).run Sample.isccPrim.memoryStore
        Sample.builtRun.2 = (.ok rows, Sample.builtRun.2) ∧
      Sample.firstKey ∈ rows.map SimilarityMatch.key := by
  obtain ⟨last, rows, hlast, hrows, -, hkeys, -, -⟩ := @query_exact Sample.isccPrim
    Sample.indexFormat Sample.params [[Sample.zeroMember, Sample.threeMember]] []
    Sample.builtRun_collisionFree 7 2 0
  refine ⟨last, rows, hlast, hrows, (hkeys Sample.firstKey).mpr ⟨3, ?_, ?_, ?_⟩⟩
  · decide
  · decide
  · exact ⟨0, by decide, by decide⟩

/-- No key inserted with a code within the radius is missed, as long as the radius
is smaller than what every band would have to exceed. -/
theorem query_recall {bands : Nat} {params : BandParams}
    (hparams : BandParams.new bands = .ok params)
    {radius probeRadius : Nat} (hradius : radius < bands * (probeRadius + 1))
    (batches : List (List IsccMember)) (blobs : Blobs)
    (hfree : prim.CollisionFree
      {held | held ∈ ((format.insertBatches params none batches).run prim.memoryStore blobs).2})
    (queryCode : UInt64) :
    ∃ last rows,
      ((format.insertBatches params none batches).run prim.memoryStore blobs).1 = .ok last ∧
      (format.query last params queryCode radius probeRadius).run prim.memoryStore
          ((format.insertBatches params none batches).run prim.memoryStore blobs).2 =
        (.ok rows, ((format.insertBatches params none batches).run prim.memoryStore blobs).2) ∧
      ∀ member ∈ batches.flatten, hamming member.contentCode queryCode ≤ radius →
        member.key ∈ rows.map SimilarityMatch.key := by
  have hbands : params.numBands = bands := by
    rw [BandParams.new] at hparams
    split at hparams
    · cases hparams
    · rw [← Except.ok.inj hparams]
  obtain ⟨last, grown, hlast, hrun, hgrown⟩ := query_run (indexHolds_none blobs) params batches
    hfree queryCode radius probeRadius
  refine ⟨last, _, hlast, hrun, fun member hinserted hnear => ?_⟩
  have hbanded := params.exists_near_band (lt_of_le_of_lt hnear (hbands.symm ▸ hradius))
  have hmember : member ∈ {member | member ∈ candidatesIn params grown queryCode probeRadius} :=
    (mem_candidatesIn_grown_iff hgrown).mpr
      ⟨hinserted, (params.exists_probed_iff _ queryCode probeRadius).mpr hbanded⟩
  obtain ⟨distance, hnearest⟩ := exists_nearest hmember (hamming_comm _ queryCode ▸ hnear)
  obtain ⟨row, hrow, hkey, -⟩ := verify_complete hnearest
  exact List.mem_map.mpr ⟨row, hrow, hkey⟩

/-- Two bands without probing find every code at distance one. -/
theorem query_recall_sample :
    ∃ last rows, Sample.builtRun.1 = .ok last ∧
      (Sample.indexFormat.query last Sample.params 7 1 0).run Sample.isccPrim.memoryStore
        Sample.builtRun.2 = (.ok rows, Sample.builtRun.2) ∧
      Sample.firstKey ∈ rows.map SimilarityMatch.key := by
  have hparams : BandParams.new 2 = .ok Sample.params := rfl
  have hradius : 1 < 2 * (0 + 1) := by decide
  obtain ⟨last, rows, hlast, hrows, hkeys⟩ := @query_recall Sample.isccPrim Sample.indexFormat 2
    Sample.params hparams 1 0 hradius [[Sample.zeroMember, Sample.threeMember]] []
    Sample.builtRun_collisionFree 7
  have hnear : hamming Sample.threeMember.contentCode 7 ≤ 1 := by decide
  exact ⟨last, rows, hlast, hrows, hkeys Sample.threeMember (by decide) hnear⟩

/-! ## The in-memory index as a reference -/

/-- The first member of a key that fell into a bucket. -/
def firstIn (params : BandParams) (inserted : List IsccMember) (bucket : BucketId) (key : String) :
    Option IsccMember :=
  (inserted.filter fun member => bucket ∈ params.buckets member.contentCode).find?
    fun member => member.key = key

/-- Of every matching code of a key, some probed bucket's first member of that key is
at least as near to the query. -/
def FirstsSuffice (params : BandParams) (inserted : List IsccMember) (queryCode : UInt64)
    (radius probeRadius : Nat) : Prop :=
  ∀ key code, Matching params inserted queryCode radius probeRadius key code →
    ∃ bucket ∈ params.queryBuckets queryCode probeRadius, ∃ first,
      firstIn params inserted bucket key = some first ∧
        hamming first.contentCode queryCode ≤ hamming code queryCode

theorem mem_candidates_insertAll_iff {params : BandParams} {inserted : List IsccMember}
    {queryCode : UInt64} {probeRadius : Nat} {member : IsccMember} :
    member ∈ ((IsccIndex.new params).insertAll inserted).candidates queryCode probeRadius ↔
      ∃ bucket ∈ params.queryBuckets queryCode probeRadius,
        firstIn params inserted bucket member.key = some member := by
  rw [IsccIndex.candidates, List.mem_flatMap, IsccIndex.insertAll_params]
  refine exists_congr fun bucket => and_congr Iff.rfl ?_
  exact IsccIndex.mem_bucket_insertAll_iff params inserted bucket member

/-- The in-memory index answers as the blob-backed one exactly where the first
member of each key and bucket is as near as any other. -/
theorem memory_index_agrees_iff (params : BandParams) (batches : List (List IsccMember))
    (blobs : Blobs)
    (hfree : prim.CollisionFree
      {held | held ∈ ((format.insertBatches params none batches).run prim.memoryStore blobs).2})
    (queryCode : UInt64) (radius probeRadius : Nat) :
    (∃ last rows,
      ((format.insertBatches params none batches).run prim.memoryStore blobs).1 = .ok last ∧
      (format.query last params queryCode radius probeRadius).run prim.memoryStore
          ((format.insertBatches params none batches).run prim.memoryStore blobs).2 =
        (.ok rows, ((format.insertBatches params none batches).run prim.memoryStore blobs).2) ∧
      keysAndDistances (((IsccIndex.new params).insertAll batches.flatten).query queryCode radius
        probeRadius) = keysAndDistances rows) ↔
      FirstsSuffice params batches.flatten queryCode radius probeRadius := by
  obtain ⟨last, grown, hlast, hrun, hgrown⟩ := query_run (indexHolds_none blobs) params batches
    hfree queryCode radius probeRadius
  have hsubset : {member | member ∈ ((IsccIndex.new params).insertAll batches.flatten).candidates
      queryCode probeRadius} ⊆
        {member | member ∈ candidatesIn params grown queryCode probeRadius} := by
    intro member hmember
    obtain ⟨bucket, hprobed, hfirst⟩ := mem_candidates_insertAll_iff.mp hmember
    obtain ⟨hinserted, hbucket⟩ := List.mem_filter.mp (List.mem_of_find?_eq_some hfirst)
    exact (mem_candidatesIn_grown_iff hgrown).mpr
      ⟨hinserted, bucket, hprobed, of_decide_eq_true hbucket⟩
  have hagree : keysAndDistances (((IsccIndex.new params).insertAll batches.flatten).query queryCode
      radius probeRadius) = keysAndDistances (verify queryCode
        (candidatesIn params grown queryCode probeRadius) radius) ↔
      FirstsSuffice params batches.flatten queryCode radius probeRadius := by
    rw [IsccIndex.query, keysAndDistances_verify_eq_iff, nearest_iff_of_subset hsubset]
    constructor
    · intro hmatched key code hcode
      have hmember : (⟨key, code⟩ : IsccMember) ∈
          {member | member ∈ candidatesIn params grown queryCode probeRadius} :=
        (mem_candidatesIn_grown_iff hgrown).mpr
          ⟨hcode.inserted, (params.exists_probed_iff code queryCode probeRadius).mpr hcode.banded⟩
      have hwithin : hamming queryCode code ≤ radius := hamming_comm code queryCode ▸ hcode.within
      obtain ⟨first, hfirst, rfl, hle⟩ := hmatched _ hmember hwithin
      obtain ⟨bucket, hprobed, hfirstIn⟩ := mem_candidates_insertAll_iff.mp hfirst
      rw [hamming_comm queryCode, hamming_comm queryCode] at hle
      exact ⟨bucket, hprobed, first, hfirstIn, hle⟩
    · intro hfirsts member hmember hwithin
      obtain ⟨hinserted, hprobed⟩ := (mem_candidatesIn_grown_iff hgrown).mp hmember
      obtain ⟨bucket, hbucket, first, hfirstIn, hle⟩ := hfirsts member.key member.contentCode
        ⟨hinserted, hamming_comm queryCode _ ▸ hwithin,
          (params.exists_probed_iff _ queryCode probeRadius).mp hprobed⟩
      have hkey : first.key = member.key := by simpa using List.find?_some hfirstIn
      rw [hamming_comm, hamming_comm member.contentCode] at hle
      exact ⟨first,
        mem_candidates_insertAll_iff.mpr ⟨bucket, hbucket, hkey.symm ▸ hfirstIn⟩, hkey, hle⟩
  rw [← hagree]
  constructor
  · rintro ⟨root, rows, hroot, hrows, hsame⟩
    obtain rfl : last = root := Prog.Outcome.ok.inj (hlast.symm.trans hroot)
    obtain rfl : _ = rows := Prog.Outcome.ok.inj (Prod.mk.inj (hrun.symm.trans hrows)).1
    exact hsame
  · exact fun hsame => ⟨last, _, hlast, hrun, hsame⟩

/-- At a query that the first code of the key is nearest to, the answers agree. -/
theorem memory_index_agrees_sample :
    ∃ last rows, Sample.builtRun.1 = .ok last ∧
      (Sample.indexFormat.query last Sample.params 4 2 0).run Sample.isccPrim.memoryStore
        Sample.builtRun.2 = (.ok rows, Sample.builtRun.2) ∧
      keysAndDistances (((IsccIndex.new Sample.params).insertAll
        [Sample.zeroMember, Sample.threeMember]).query 4 2 0) = keysAndDistances rows := by
  refine (@memory_index_agrees_iff Sample.isccPrim Sample.indexFormat Sample.params
    [[Sample.zeroMember, Sample.threeMember]] [] Sample.builtRun_collisionFree 4 2 0).mpr ?_
  intro key code hcode
  have hmember : (⟨key, code⟩ : IsccMember) = Sample.zeroMember ∨
      (⟨key, code⟩ : IsccMember) = Sample.threeMember := by simpa using hcode.inserted
  rcases hmember with hzero | hthree
  · obtain ⟨rfl, rfl⟩ := IsccMember.mk.inj hzero
    exact ⟨⟨0, 0⟩, by decide, Sample.zeroMember, by decide, by decide⟩
  · obtain ⟨rfl, rfl⟩ := IsccMember.mk.inj hthree
    exact absurd hcode.within (by decide)

/-- The bucket that both codes fall into keeps only the first code of the key in
memory, which is too far from the query; the blob-backed index finds the second. -/
theorem memory_index_differs :
    Sample.isccPrim.CollisionFree {held | held ∈ Sample.builtRun.2} ∧
      Sample.builtRun.1 = .ok (some Sample.builtRoot) ∧
      (Sample.indexFormat.query (some Sample.builtRoot) Sample.params 7 2 0).run
          Sample.isccPrim.memoryStore Sample.builtRun.2 =
        (.ok [⟨Sample.firstKey, 3, 1⟩], Sample.builtRun.2) ∧
      ((IsccIndex.new Sample.params).insertAll
        [Sample.zeroMember, Sample.threeMember]).query 7 2 0 = [] := by
  rw [Sample.builtRun_eq]
  have hfree := Sample.builtRun_collisionFree
  rw [Sample.builtRun_eq] at hfree
  refine ⟨hfree, rfl, ?_⟩
  decide +kernel

/-! ## Migration from the first format -/

/-- A root of the first format: its directory names one posting list per bucket. -/
def LegacyHolds (prim : Primitives) (format : IndexFormat) (blobs : Blobs) (root : Hash)
    (lists : String → List IsccMember) : Prop :=
  ∃ bytes legacy, prim.Held blobs root bytes ∧ format.parseLegacy bytes = .ok legacy ∧
    (∀ key hash, legacy[key]? = some hash → SegmentHolds prim format blobs hash (lists key)) ∧
    ∀ key : String, legacy[key]? = none → lists key = []

/-- A directory of the first format is recognised and read as such. -/
theorem LegacyHolds.index {blobs : Blobs} {root : Hash} {lists : String → List IsccMember}
    (hlegacy : LegacyHolds prim format blobs root lists) :
    IndexHolds prim format blobs (some root) lists := by
  obtain ⟨bytes, legacy, hheld, hparse, hlists, hnone⟩ := hlegacy
  obtain ⟨message, hnot⟩ := format.parseDirectory_legacy bytes legacy hparse
  refine ⟨legacy.map fun _ hash => .legacyList hash, ⟨bytes, hheld, ?_⟩, ?_, ?_⟩
  · rw [IndexFormat.directoryOf, hnot, hparse]
    rfl
  · intro key bucket hnamed
    rw [Std.ExtTreeMap.getElem?_map, Option.map_eq_some_iff] at hnamed
    obtain ⟨hash, hhash, rfl⟩ := hnamed
    exact hlists key hash hhash
  · intro key hunnamed
    rw [Std.ExtTreeMap.getElem?_map, Option.map_eq_none_iff] at hunnamed
    exact hnone key hunnamed

/-- Posting lists of the first format and what fell into their buckets since. -/
def unionOf (params : BandParams) (lists : String → List IsccMember) (inserted : List IsccMember)
    (queryCode : UInt64) (probeRadius : Nat) : List IsccMember :=
  (params.queryBuckets queryCode probeRadius).flatMap fun bucket =>
    lists bucket.storageKey ++
      inserted.filter fun member => bucket ∈ params.buckets member.contentCode

/-- An index of the first format, whatever is inserted into it, answers by the union
of its posting lists and the new members; with no new members, just as before. -/
theorem migration_preserves_answers {blobs : Blobs} {root : Hash}
    {lists : String → List IsccMember} (hlegacy : LegacyHolds prim format blobs root lists)
    (params : BandParams) (batches : List (List IsccMember))
    (hfree : prim.CollisionFree {held |
      held ∈ ((format.insertBatches params (some root) batches).run prim.memoryStore blobs).2})
    (queryCode : UInt64) (radius probeRadius : Nat) :
    ∃ last rows,
      ((format.insertBatches params (some root) batches).run prim.memoryStore blobs).1 = .ok last ∧
      (format.query last params queryCode radius probeRadius).run prim.memoryStore
          ((format.insertBatches params (some root) batches).run prim.memoryStore blobs).2 =
        (.ok rows,
          ((format.insertBatches params (some root) batches).run prim.memoryStore blobs).2) ∧
      keysAndDistances rows = keysAndDistances (verify queryCode
        (unionOf params lists batches.flatten queryCode probeRadius) radius) ∧
      (batches.flatten = [] →
        (format.query (some root) params queryCode radius probeRadius).run prim.memoryStore blobs =
          (.ok rows, blobs)) := by
  obtain ⟨last, grown, hlast, hrun, hgrown⟩ :=
    query_run hlegacy.index params batches hfree queryCode radius probeRadius
  refine ⟨last, _, hlast, hrun, ?_, fun hempty => ?_⟩
  · have hsame : {member | member ∈ candidatesIn params grown queryCode probeRadius} =
        {member | member ∈ unionOf params lists batches.flatten queryCode probeRadius} := by
      ext member
      simp only [Set.mem_ofPred_eq, mem_candidatesIn_iff, unionOf, List.mem_flatMap,
        List.mem_append, (hgrown _).mem_iff, List.mem_filter, decide_eq_true_eq,
        fallsInto_storageKey_iff]
    rw [keysAndDistances_verify_eq_iff, hsame]
    exact fun _ _ => Iff.rfl
  · have hunchanged : grown = lists := by
      funext key
      exact (hgrown key).untouched (by rw [hempty, List.filter_nil])
    have hearlier := prim.memoryStore_run_subset
      (format.insertBatches params (some root) batches) blobs
    have hfreeBlobs : prim.CollisionFree {held | held ∈
        ((format.insertBatches params (some root) []).run prim.memoryStore blobs).2} :=
      hfree.mono fun blob hblob => hearlier hblob
    obtain ⟨same, lists', hsame, hrunLegacy, hlists⟩ := query_run hlegacy.index params [] hfreeBlobs
      queryCode radius probeRadius
    obtain rfl : some root = same := Prog.Outcome.ok.inj hsame
    have hlists' : lists' = lists := by
      funext key
      exact (hlists key).untouched rfl
    rw [hlists', ← hunchanged] at hrunLegacy
    exact hrunLegacy

namespace Sample

def legacyLists (key : String) : List IsccMember :=
  if key = "iscc/00/0000000000000000" then [zeroMember] else []

theorem legacyBlobs_holds :
    LegacyHolds isccPrim indexFormat legacyBlobs legacyRoot legacyLists := by
  refine ⟨utf8 (bucketsText legacyRows), bucketsOf legacyRows,
    ⟨by decide +kernel, by decide +kernel⟩, by decide +kernel, fun key hash hnamed => ?_,
    fun key hunnamed => ?_⟩
  · have hkey : "iscc/00/0000000000000000" = key ∧ zeroList.hash = hash := by
      simpa [bucketsOf, legacyRows, Std.ExtTreeMap.getElem?_insert] using hnamed
    obtain ⟨rfl, rfl⟩ := hkey
    exact ⟨utf8 (membersText ["0"]), ⟨by decide +kernel, by decide +kernel⟩, by decide +kernel⟩
  · have hkey : "iscc/00/0000000000000000" ≠ key := by
      simpa [bucketsOf, legacyRows, Std.ExtTreeMap.getElem?_insert] using hunnamed
    exact if_neg hkey.symm

/-- The second member falls into the bucket of the posting list and into one of its own. -/
noncomputable def grownRun : Prog.Outcome IsccStoreError (Option Hash) × Blobs :=
  (indexFormat.insertBatches params (some legacyRoot) [[], [threeMember]]).run isccPrim.memoryStore
    legacyBlobs

def grownBlobs : Blobs :=
  [utf8 (directoryText grownRows), utf8 (manifestText "1" threeList), utf8 (membersText ["3"]),
    utf8 (manifestText "2" bothList), utf8 (membersText ["0", "3"]),
    utf8 (directoryText migratedRows), utf8 (manifestText "1" zeroList),
    utf8 (bucketsText legacyRows), utf8 (membersText ["0"])]

theorem grownRun_eq : grownRun = (.ok (some grownRoot), grownBlobs) := by decide +kernel

theorem grownRun_collisionFree : isccPrim.CollisionFree {held | held ∈ grownRun.2} := by
  apply collisionFree_of_listed
  rw [grownRun_eq]
  simp [grownBlobs, isccBlobs, isccTables]

end Sample

/-- The first batch turns the directory of the first format into one of the second, and the
next adds a member to its bucket: the key is found at the nearer of the old and the new
code. -/
theorem migration_preserves_answers_sample :
    Sample.grownRun.1 = .ok (some Sample.grownRoot) ∧
      ∃ rows, (Sample.indexFormat.query (some Sample.grownRoot) Sample.params 7 3 0).run
          Sample.isccPrim.memoryStore Sample.grownRun.2 = (.ok rows, Sample.grownRun.2) ∧
        keysAndDistances rows = [(Sample.firstKey, 1)] := by
  have hroot : Sample.grownRun.1 = .ok (some Sample.grownRoot) :=
    congrArg Prod.fst Sample.grownRun_eq
  obtain ⟨last, rows, hlast, hrows, hunion, -⟩ := @migration_preserves_answers Sample.isccPrim
    Sample.indexFormat Sample.legacyBlobs Sample.legacyRoot Sample.legacyLists
    Sample.legacyBlobs_holds Sample.params [[], [Sample.threeMember]] Sample.grownRun_collisionFree
    7 3 0
  obtain rfl : some Sample.grownRoot = last :=
    Prog.Outcome.ok.inj (hroot.symm.trans hlast)
  refine ⟨hroot, rows, hrows, hunion.trans ?_⟩
  decide +kernel

end Answers

end Registry

import Registry.Core.Similarity

/-! # Verified candidates

Verification gives one row for each key with a candidate within the radius, at
the distance of its nearest candidate. Keys and distances depend only on which
candidates there are, not on their order or repetition.
-/

namespace Registry

/-- The distance of a key's nearest member, if that lies within the radius. -/
structure Nearest (query : UInt64) (radius : Nat) (members : Set IsccMember) (key : String)
    (distance : Nat) : Prop where
  within : distance ≤ radius
  attained : ∃ member ∈ members, member.key = key ∧ hamming query member.contentCode = distance
  minimal : ∀ member ∈ members, member.key = key → distance ≤ hamming query member.contentCode

section Verify

variable {query : UInt64} {radius : Nat}

theorem Nearest.unique {members : Set IsccMember} {key : String} {first second : Nat}
    (hfirst : Nearest query radius members key first)
    (hsecond : Nearest query radius members key second) : first = second := by
  obtain ⟨member, hmember, hkey, rfl⟩ := hfirst.attained
  obtain ⟨other, hother, hotherKey, rfl⟩ := hsecond.attained
  exact le_antisymm (hfirst.minimal other hother hotherKey) (hsecond.minimal member hmember hkey)

/-- A key with a member within the radius has a nearest one. -/
theorem exists_nearest {members : Set IsccMember} {member : IsccMember} (hmember : member ∈ members)
    (hwithin : hamming query member.contentCode ≤ radius) :
    ∃ distance, Nearest query radius members member.key distance := by
  classical
  have hexists : ∃ distance, ∃ other ∈ members, other.key = member.key ∧
      hamming query other.contentCode = distance := ⟨_, member, hmember, rfl, rfl⟩
  refine ⟨Nat.find hexists, ?_, Nat.find_spec hexists, ?_⟩
  · exact le_trans (Nat.find_min' hexists ⟨member, hmember, rfl, rfl⟩) hwithin
  · exact fun other hother hkey => Nat.find_min' hexists ⟨other, hother, hkey, rfl⟩

/-- Some of the members give the same nearest distances as all of them if and only if
each member within the radius is matched by one of them that is as near. -/
theorem nearest_iff_of_subset {few all : Set IsccMember} (hsubset : few ⊆ all) :
    (∀ key distance, Nearest query radius few key distance ↔
      Nearest query radius all key distance) ↔
    ∀ member ∈ all, hamming query member.contentCode ≤ radius →
      ∃ other ∈ few, other.key = member.key ∧
        hamming query other.contentCode ≤ hamming query member.contentCode := by
  constructor
  · intro hsame member hmember hwithin
    obtain ⟨distance, hnearest⟩ := exists_nearest hmember hwithin
    obtain ⟨other, hother, hkey, hdistance⟩ := ((hsame _ _).mpr hnearest).attained
    refine ⟨other, hother, hkey, ?_⟩
    rw [hdistance]
    exact hnearest.minimal member hmember rfl
  · intro hmatched
    have hforward : ∀ key distance, Nearest query radius all key distance →
        Nearest query radius few key distance := by
      rintro key distance ⟨hwithin, ⟨member, hmember, rfl, rfl⟩, hminimal⟩
      obtain ⟨other, hother, hkey, hle⟩ := hmatched member hmember hwithin
      refine ⟨hwithin, ⟨other, hother, hkey, ?_⟩,
        fun third hthird => hminimal third (hsubset hthird)⟩
      exact le_antisymm hle (hminimal other (hsubset hother) hkey)
    refine fun key distance => ⟨fun hnearest => ?_, hforward key distance⟩
    obtain ⟨member, hmember, rfl, hdistance⟩ := hnearest.attained
    have hwithin : hamming query member.contentCode ≤ radius := by
      rw [hdistance]
      exact hnearest.within
    obtain ⟨least, hleast⟩ := exists_nearest (hsubset hmember) hwithin
    rw [hnearest.unique (hforward _ _ hleast)]
    exact hleast

/-- A member of another key or beyond the radius changes nothing. -/
theorem nearest_insert_of_ne {members : Set IsccMember} {last : IsccMember} {key : String}
    (hother : last.key ≠ key ∨ radius < hamming query last.contentCode) (distance : Nat) :
    Nearest query radius (insert last members) key distance ↔
      Nearest query radius members key distance := by
  constructor
  · rintro ⟨hwithin, ⟨member, hmember, hkey, hdistance⟩, hminimal⟩
    refine ⟨hwithin, ⟨member, ?_, hkey, hdistance⟩,
      fun other hmem => hminimal other (Set.mem_insert_of_mem last hmem)⟩
    rcases Set.mem_insert_iff.mp hmember with rfl | hmember
    · rcases hother with hne | hfar
      · exact absurd hkey hne
      · omega
    · exact hmember
  · rintro ⟨hwithin, ⟨member, hmember, hkey, hdistance⟩, hminimal⟩
    refine ⟨hwithin, ⟨member, Set.mem_insert_of_mem last hmember, hkey, hdistance⟩, ?_⟩
    intro other hmem hotherKey
    rcases Set.mem_insert_iff.mp hmem with rfl | hmem
    · rcases hother with hne | hfar
      · exact absurd hotherKey hne
      · omega
    · exact hminimal other hmem hotherKey

/-- A member within the radius competes with the nearest one before it. -/
theorem nearest_insert_self {members : Set IsccMember} {last : IsccMember} {previous : Option Nat}
    (hprevious : ∀ distance, previous = some distance ↔
      Nearest query radius members last.key distance)
    (hwithin : hamming query last.contentCode ≤ radius) :
    Nearest query radius (insert last members) last.key
      (nearer (hamming query last.contentCode) previous) := by
  have hlast : last ∈ insert last members := Set.mem_insert _ _
  cases previous with
  | none =>
      refine ⟨hwithin, ⟨last, hlast, rfl, rfl⟩, fun other hother hkey => ?_⟩
      rcases Set.mem_insert_iff.mp hother with rfl | hother
      · exact le_rfl
      · by_contra hcloser
        obtain ⟨distance, hnearest⟩ := exists_nearest hother
          (le_trans (le_of_not_ge hcloser) hwithin)
        exact absurd ((hprevious distance).mpr (hkey ▸ hnearest)) (by simp)
  | some current =>
      obtain ⟨hcurrent, ⟨member, hmember, hkey, hdistance⟩, hminimal⟩ := (hprevious current).mp rfl
      rw [nearer]
      split
      next hcloser =>
        refine ⟨hwithin, ⟨last, hlast, rfl, rfl⟩, fun other hother hkey => ?_⟩
        rcases Set.mem_insert_iff.mp hother with rfl | hother
        · exact le_rfl
        · exact le_trans (le_of_lt hcloser) (hminimal other hother hkey)
      next hfarther =>
        refine ⟨hcurrent, ⟨member, Set.mem_insert_of_mem last hmember, hkey, hdistance⟩, ?_⟩
        intro other hother hkey
        rcases Set.mem_insert_iff.mp hother with rfl | hother
        · exact not_lt.mp hfarther
        · exact hminimal other hother hkey

/-- The table of best distances holds each key's nearest distance. -/
theorem bestDistances_eq_some_iff (candidates : List IsccMember) (key : String) (distance : Nat) :
    (bestDistances query candidates radius)[key]? = some distance ↔
      Nearest query radius {member | member ∈ candidates} key distance := by
  induction candidates using List.reverseRecOn generalizing key distance with
  | nil =>
      constructor
      · intro hsome
        simp [bestDistances] at hsome
      · rintro ⟨-, ⟨member, hmember, -⟩, -⟩
        cases hmember
  | append_singleton candidates last ih =>
      have hmem : {member | member ∈ candidates ++ [last]} =
          insert last {member | member ∈ candidates} := by
        ext member
        simp [or_comm]
      rw [bestDistances, List.foldl_append, List.foldl_cons, List.foldl_nil, ← bestDistances, hmem]
      dsimp only
      split
      next hwithin =>
        by_cases hkey : last.key = key
        · subst hkey
          have hnearest := nearest_insert_self (ih last.key) hwithin
          rw [Std.ExtTreeMap.getElem?_insert_self, Option.some_inj]
          exact ⟨fun heq => heq ▸ hnearest, fun hother => hnearest.unique hother⟩
        · rw [nearest_insert_of_ne (Or.inl hkey), ← ih key distance]
          simp only [Std.ExtTreeMap.getElem?_insert, Std.compare_eq_iff_eq, if_neg hkey]
      next hfar => rw [nearest_insert_of_ne (Or.inr (not_le.mp hfar)), ih]

/-- The strict order of the answers. -/
def SimilarityMatch.Before (left right : SimilarityMatch) : Prop :=
  left.distance < right.distance ∨ (left.distance = right.distance ∧ left.key < right.key)

namespace SimilarityMatch

theorem le_iff {left right : SimilarityMatch} : left.le right = true ↔
    left.distance < right.distance ∨ (left.distance = right.distance ∧ left.key ≤ right.key) := by
  simp [le]

theorem trans_le (first second third : SimilarityMatch) (hfirst : first.le second = true)
    (hsecond : second.le third = true) : first.le third = true := by
  rw [le_iff] at *
  rcases hfirst with hfirst | ⟨hfirst, hkey⟩ <;> rcases hsecond with hsecond | ⟨hsecond, hkey'⟩
  · exact Or.inl (lt_trans hfirst hsecond)
  · exact Or.inl (hsecond ▸ hfirst)
  · exact Or.inl (hfirst ▸ hsecond)
  · exact Or.inr ⟨hfirst.trans hsecond, hkey.trans hkey'⟩

theorem total_le (left right : SimilarityMatch) : (left.le right || right.le left) = true := by
  rw [Bool.or_eq_true, le_iff, le_iff]
  rcases Nat.lt_trichotomy left.distance right.distance with hlt | heq | hgt
  · exact Or.inl (Or.inl hlt)
  · rcases le_total left.key right.key with hkey | hkey
    · exact Or.inl (Or.inr ⟨heq, hkey⟩)
    · exact Or.inr (Or.inr ⟨heq.symm, hkey⟩)
  · exact Or.inr (Or.inl hgt)

theorem before_of_le {left right : SimilarityMatch} (hle : left.le right = true)
    (hkey : right.key ≠ left.key) : left.Before right := by
  rcases le_iff.mp hle with hlt | ⟨heq, hle⟩
  · exact Or.inl hlt
  · exact Or.inr ⟨heq, lt_of_le_of_ne hle hkey.symm⟩

theorem Before.trans_le {first second third : SimilarityMatch} (hfirst : first.Before second)
    (hsecond : second.le third = true) : first.Before third := by
  rcases hfirst with hfirst | ⟨hfirst, hkey⟩ <;>
    rcases le_iff.mp hsecond with hsecond | ⟨hsecond, hkey'⟩
  · exact Or.inl (lt_trans hfirst hsecond)
  · exact Or.inl (hsecond ▸ hfirst)
  · exact Or.inl (hfirst ▸ hsecond)
  · exact Or.inr ⟨hfirst.trans hsecond, lt_of_lt_of_le hkey hkey'⟩

end SimilarityMatch

theorem dedupFrom_sublist (kept : SimilarityMatch) (rest : List SimilarityMatch) :
    (dedupFrom kept rest).Sublist (kept :: rest) := by
  induction rest generalizing kept with
  | nil => exact List.Sublist.refl _
  | cons next rest ih =>
      rw [dedupFrom]
      split
      · exact (ih kept).trans ((List.sublist_cons_self next rest).cons_cons kept)
      · exact (ih next).cons_cons kept

/-- The kept matches have all the keys there were. -/
theorem exists_mem_dedupFrom {kept : SimilarityMatch} {rest : List SimilarityMatch}
    {row : SimilarityMatch} (hrow : row ∈ kept :: rest) :
    ∃ found ∈ dedupFrom kept rest, found.key = row.key := by
  induction rest generalizing kept row with
  | nil => exact ⟨row, hrow, rfl⟩
  | cons next rest ih =>
      rw [dedupFrom]
      split
      next hsame =>
        rcases List.mem_cons.mp hrow with rfl | hrest
        · exact ih List.mem_cons_self
        · rcases List.mem_cons.mp hrest with rfl | hrest
          · obtain ⟨found, hfound, hkey⟩ : ∃ found ∈ dedupFrom kept rest, found.key = kept.key :=
              ih List.mem_cons_self
            exact ⟨found, hfound, hkey.trans hsame.symm⟩
          · exact ih (List.mem_cons_of_mem _ hrest)
      next hother =>
        rcases List.mem_cons.mp hrow with rfl | hrest
        · exact ⟨row, List.mem_cons_self, rfl⟩
        · obtain ⟨found, hfound, hkey⟩ := ih hrest
          exact ⟨found, List.mem_cons_of_mem _ hfound, hkey⟩

/-- What is kept of a sorted list is sorted strictly. -/
theorem dedupFrom_pairwise {kept : SimilarityMatch} {rest : List SimilarityMatch}
    (hsorted : (kept :: rest).Pairwise fun left right => left.le right = true) :
    (dedupFrom kept rest).Pairwise SimilarityMatch.Before := by
  induction rest generalizing kept with
  | nil => exact List.pairwise_singleton _ _
  | cons next rest ih =>
      obtain ⟨hkept, hrest⟩ := List.pairwise_cons.mp hsorted
      rw [dedupFrom]
      split
      · exact ih (hsorted.sublist ((List.sublist_cons_self next rest).cons_cons kept))
      next hkey =>
        have hfirst : kept.Before next :=
          SimilarityMatch.before_of_le (hkept next List.mem_cons_self) hkey
        refine List.pairwise_cons.mpr ⟨fun row hrow => ?_, ih hrest⟩
        rcases List.mem_cons.mp ((dedupFrom_sublist next rest).subset hrow) with rfl | hlater
        · exact hfirst
        · exact hfirst.trans_le ((List.pairwise_cons.mp hrest).1 row hlater)

theorem mem_bestMatches_iff {candidates : List IsccMember} {row : SimilarityMatch} :
    row ∈ bestMatches query candidates radius ↔ ⟨row.key, row.contentCode⟩ ∈ candidates ∧
      hamming query row.contentCode = row.distance ∧
      Nearest query radius {member | member ∈ candidates} row.key row.distance := by
  simp only [bestMatches, List.mem_filterMap, Option.bind_eq_bind, Option.bind_eq_some_iff]
  constructor
  · rintro ⟨member, hmember, distance, hbest, hrow⟩
    split at hrow
    next hdistance =>
      cases hrow
      exact ⟨hmember, hdistance, (bestDistances_eq_some_iff candidates _ _).mp hbest⟩
    next => cases hrow
  · rintro ⟨hmember, hdistance, hnearest⟩
    exact ⟨_, hmember, row.distance, (bestDistances_eq_some_iff candidates _ _).mpr hnearest,
      if_pos hdistance⟩

theorem dedupByKey_subset (rows : List SimilarityMatch) : dedupByKey rows ⊆ rows := by
  cases rows with
  | nil => exact List.Subset.refl _
  | cons first rest => exact (dedupFrom_sublist first rest).subset

/-- Every row is a candidate at its key's nearest distance. -/
theorem verify_sound {candidates : List IsccMember} {row : SimilarityMatch}
    (hrow : row ∈ verify query candidates radius) : ⟨row.key, row.contentCode⟩ ∈ candidates ∧
      hamming query row.contentCode = row.distance ∧
      Nearest query radius {member | member ∈ candidates} row.key row.distance := by
  rw [verify] at hrow
  exact mem_bestMatches_iff.mp (List.mem_mergeSort.mp (dedupByKey_subset _ hrow))

/-- Every key with a candidate within the radius has a row, at its nearest
distance. -/
theorem verify_complete {candidates : List IsccMember} {key : String} {distance : Nat}
    (hnearest : Nearest query radius {member | member ∈ candidates} key distance) :
    ∃ row ∈ verify query candidates radius, row.key = key ∧ row.distance = distance := by
  obtain ⟨member, hmember, rfl, hdistance⟩ := hnearest.attained
  have hfound : (⟨member.key, member.contentCode, distance⟩ : SimilarityMatch) ∈
      (bestMatches query candidates radius).mergeSort SimilarityMatch.le :=
    List.mem_mergeSort.mpr (mem_bestMatches_iff.mpr ⟨hmember, hdistance, hnearest⟩)
  have hkept : ∃ row ∈ verify query candidates radius, row.key = member.key := by
    rw [verify]
    generalize (bestMatches query candidates radius).mergeSort SimilarityMatch.le = rows at hfound
    cases rows with
    | nil => cases hfound
    | cons first rest => exact exists_mem_dedupFrom hfound
  obtain ⟨row, hrow, hkey⟩ := hkept
  have hrowNearest := (verify_sound hrow).2.2
  rw [hkey] at hrowNearest
  exact ⟨row, hrow, hkey, hrowNearest.unique hnearest⟩

/-- The rows come by distance, then by key. -/
theorem verify_pairwise (candidates : List IsccMember) :
    (verify query candidates radius).Pairwise SimilarityMatch.Before := by
  have hsorted : ((bestMatches query candidates radius).mergeSort SimilarityMatch.le).Pairwise
      fun left right => left.le right = true :=
    List.pairwise_mergeSort SimilarityMatch.trans_le SimilarityMatch.total_le _
  rw [verify]
  generalize (bestMatches query candidates radius).mergeSort SimilarityMatch.le = rows at hsorted
  cases rows with
  | nil => exact List.Pairwise.nil
  | cons first rest => exact dedupFrom_pairwise hsorted

/-- One row per key. -/
theorem verify_keys_nodup (candidates : List IsccMember) :
    ((verify query candidates radius).map SimilarityMatch.key).Nodup := by
  rw [List.Nodup, List.pairwise_map]
  refine (verify_pairwise candidates).imp_of_mem ?_
  intro left right hleft hright hbefore hkey
  have hleftNearest := (verify_sound hleft).2.2
  rw [hkey] at hleftNearest
  have hdistance := hleftNearest.unique (verify_sound hright).2.2
  rcases hbefore with hlt | ⟨-, hlt⟩
  · omega
  · exact absurd hkey (ne_of_lt hlt)

/-- What a caller sees of the rows: keys and distances, in order. -/
def keysAndDistances (rows : List SimilarityMatch) : List (String × Nat) :=
  rows.map fun row => (row.key, row.distance)

theorem mem_keysAndDistances_verify {candidates : List IsccMember} {key : String} {distance : Nat} :
    (key, distance) ∈ keysAndDistances (verify query candidates radius) ↔
      Nearest query radius {member | member ∈ candidates} key distance := by
  rw [keysAndDistances, List.mem_map]
  constructor
  · rintro ⟨row, hrow, heq⟩
    obtain ⟨rfl, rfl⟩ := Prod.mk.inj heq
    exact (verify_sound hrow).2.2
  · intro hnearest
    obtain ⟨row, hrow, hkey, hdistance⟩ := verify_complete hnearest
    exact ⟨row, hrow, Prod.ext hkey hdistance⟩

/-- Keys and distances depend only on which distances are the nearest. -/
theorem keysAndDistances_verify_eq_iff {first second : List IsccMember} :
    keysAndDistances (verify query first radius) = keysAndDistances (verify query second radius) ↔
      ∀ key distance, Nearest query radius {member | member ∈ first} key distance ↔
        Nearest query radius {member | member ∈ second} key distance := by
  constructor
  · intro heq key distance
    rw [← mem_keysAndDistances_verify, heq, mem_keysAndDistances_verify]
  · intro hnearest
    have hbefore : ∀ candidates : List IsccMember,
        (keysAndDistances (verify query candidates radius)).Pairwise fun left right =>
          left.2 < right.2 ∨ (left.2 = right.2 ∧ left.1 < right.1) := by
      intro candidates
      rw [keysAndDistances, List.pairwise_map]
      exact verify_pairwise candidates
    have hirreflexive : Std.Irrefl fun left right : String × Nat =>
        left.2 < right.2 ∨ (left.2 = right.2 ∧ left.1 < right.1) :=
      ⟨fun row hbefore => hbefore.elim (lt_irrefl _) fun hkey => lt_irrefl _ hkey.2⟩
    have hantisymm : Std.Antisymm fun left right : String × Nat =>
        left.2 < right.2 ∨ (left.2 = right.2 ∧ left.1 < right.1) := by
      refine ⟨fun left right hleft hright => ?_⟩
      rcases hleft with hleft | ⟨hsame, hleft⟩ <;> rcases hright with hright | ⟨hsame', hright⟩
      · omega
      · omega
      · omega
      · exact absurd hright (not_lt_of_gt hleft)
    refine (hbefore first).eq_of_mem_iff (hbefore second) ?_
    rintro ⟨key, distance⟩
    rw [mem_keysAndDistances_verify, mem_keysAndDistances_verify, hnearest]

end Verify

/-! ## The in-memory index -/

namespace IsccIndex

theorem push_of_ne (member : IsccMember) (buckets : BucketId → Option (List IsccMember))
    {bucket other : BucketId} (hne : other ≠ bucket) :
    push member buckets bucket other = buckets other :=
  Function.update_of_ne hne _ _

theorem push_self (member : IsccMember) (buckets : BucketId → Option (List IsccMember))
    (bucket : BucketId) : push member buckets bucket bucket =
      some (pushed member ((buckets bucket).getD [])) :=
  Function.update_self _ _ _

theorem foldl_push_of_notMem (member : IsccMember) (ids : List BucketId)
    (buckets : BucketId → Option (List IsccMember)) {bucket : BucketId} (hbucket : bucket ∉ ids) :
    ids.foldl (push member) buckets bucket = buckets bucket := by
  induction ids generalizing buckets with
  | nil => rfl
  | cons first rest ih =>
      rw [List.mem_cons, not_or] at hbucket
      rw [List.foldl_cons, ih _ hbucket.2, push_of_ne member buckets hbucket.1]

/-- A member is pushed once into each of its buckets. -/
theorem foldl_push_of_mem (member : IsccMember) {ids : List BucketId} (hnodup : ids.Nodup)
    (buckets : BucketId → Option (List IsccMember)) {bucket : BucketId} (hbucket : bucket ∈ ids) :
    ids.foldl (push member) buckets bucket =
      some (pushed member ((buckets bucket).getD [])) := by
  induction ids generalizing buckets with
  | nil => cases hbucket
  | cons first rest ih =>
      obtain ⟨hfirst, hrest⟩ := List.nodup_cons.mp hnodup
      rw [List.foldl_cons]
      rcases List.mem_cons.mp hbucket with rfl | hmem
      · rw [foldl_push_of_notMem member rest _ hfirst, push_self]
      · have hne : bucket ≠ first := fun heq => hfirst (heq ▸ hmem)
        rw [ih hrest _ hmem, push_of_ne member buckets hne]

/-- A list with the first member of each key stays one when a member is pushed. -/
theorem mem_pushed_iff {list all : List IsccMember} (last : IsccMember)
    (hlist : ∀ member, member ∈ list ↔
      all.find? (fun other => other.key = member.key) = some member) (member : IsccMember) :
    member ∈ pushed last list ↔
      (all ++ [last]).find? (fun other => other.key = member.key) = some member := by
  rw [List.find?_append, pushed]
  cases hprior : all.find? fun other => other.key = last.key with
  | some prior =>
      have hkey : prior.key = last.key := by simpa using List.find?_some hprior
      have hmem : prior ∈ list := (hlist prior).mpr (by rwa [hkey])
      rw [if_pos (List.any_eq_true.mpr ⟨prior, hmem, decide_eq_true hkey⟩), hlist]
      by_cases hsame : last.key = member.key
      · rw [← hsame, hprior, Option.some_or]
      · simp [hsame]
  | none =>
      have hnone : ∀ other ∈ list, other.key ≠ last.key := by
        intro other hother hkey
        rw [hlist, hkey, hprior] at hother
        cases hother
      rw [if_neg (by simpa using hnone), List.mem_append, hlist, List.mem_singleton]
      by_cases hsame : last.key = member.key
      · rw [← hsame, hprior]
        simp [eq_comm]
      · have hne : member ≠ last := fun heq => hsame (heq ▸ rfl)
        simp [hsame, hne]

/-- Members inserted one by one. -/
def insertAll (index : IsccIndex) (members : List IsccMember) : IsccIndex :=
  members.foldl (fun index member => index.insert member.key member.contentCode) index

theorem insertAll_params (index : IsccIndex) (members : List IsccMember) :
    (index.insertAll members).params = index.params := by
  induction members generalizing index with
  | nil => rfl
  | cons member rest ih => exact ih _

theorem buckets_nodup (params : BandParams) (code : UInt64) : (params.buckets code).Nodup := by
  refine List.Nodup.map ?_ List.nodup_range
  intro first second heq
  exact (BucketId.mk.inj heq).1

/-- A bucket of the in-memory index holds, of each key, the first member that fell
into it. -/
theorem mem_bucket_insertAll_iff (params : BandParams) (members : List IsccMember)
    (bucket : BucketId) (member : IsccMember) :
    member ∈ (((new params).insertAll members).buckets bucket).getD [] ↔
      (members.filter fun other => bucket ∈ params.buckets other.contentCode).find?
        (fun other => other.key = member.key) = some member := by
  induction members using List.reverseRecOn generalizing member with
  | nil => simp [insertAll, new]
  | append_singleton members last ih =>
      have hinsert : ((new params).insertAll (members ++ [last])).buckets =
          (params.buckets last.contentCode).foldl (push last)
            ((new params).insertAll members).buckets := by
        rw [insertAll, List.foldl_append, List.foldl_cons, List.foldl_nil, ← insertAll, insert,
          insertAll_params]
        rfl
      rw [hinsert, List.filter_append]
      by_cases hbucket : bucket ∈ params.buckets last.contentCode
      · rw [foldl_push_of_mem last (buckets_nodup params _) _ hbucket, Option.getD_some,
          mem_pushed_iff last ih]
        simp [hbucket]
      · rw [foldl_push_of_notMem last _ _ hbucket, ih]
        simp [hbucket]

end IsccIndex

end Registry

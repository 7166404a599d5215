import Registry.Sorting.Truncate
import Registry.Viewer.CodeIndex

/-! # The order of the viewer's matches

A search collects codes in the order of the index and sorts them afterwards. Collection
stops at a bound, so that codes behind it are lost, however near they are.
-/

namespace Registry.Viewer

theorem Hit.le_iff (left right : Hit) : left.le right ↔ left.distance < right.distance ∨
    (left.distance = right.distance ∧ (left.slot.toNat < right.slot.toNat ∨
      (left.slot.toNat = right.slot.toNat ∧ left.entryIndex.toNat ≤ right.entryIndex.toNat))) := by
  rw [Hit.le, decide_eq_true_eq, UInt32.lt_iff_toNat_lt, UInt32.le_iff_toNat_le, UInt32.toNat_inj]

theorem Hit.le_trans (first second third : Hit) (hfirst : first.le second)
    (hsecond : second.le third) : first.le third := by
  rw [Hit.le_iff] at hfirst hsecond ⊢
  omega

theorem Hit.le_total (left right : Hit) : left.le right || right.le left := by
  rw [Bool.or_eq_true, Hit.le_iff, Hit.le_iff]
  omega

namespace CodeIndex

variable (index : CodeIndex) (code : UInt64) (maxDistance limit : Nat)

/-- An indexed code as a hit, if it is within the distance. -/
def hitWithin (entry : UInt64 × UInt32 × UInt32) : Option Hit :=
  if hamming code entry.1 ≤ maxDistance then
    some ⟨hamming code entry.1, entry.2.1, entry.2.2, entry.1⟩
  else none

/-- All codes within the distance, in the order of the index. -/
def within : List Hit := index.codes.filterMap (hitWithin code maxDistance)

/-- The first codes within the distance, sorted. -/
def nearest : List Hit := ((index.within code maxDistance).mergeSort Hit.le).take limit

/-- Each code that comes too late to be collected has a full answer before it. -/
def LateCodesRankLow : Prop :=
  ∀ late ∈ (index.within code maxDistance).drop maxHits,
    limit ≤ ((index.within code maxDistance).take maxHits).countP (·.le late)

/-- One code of the loop. -/
def collect (found : List Hit) (entry : UInt64 × UInt32 × UInt32) : List Hit :=
  if hamming code entry.1 ≤ maxDistance ∧ found.length < maxHits then
    found ++ [⟨hamming code entry.1, entry.2.1, entry.2.2, entry.1⟩]
  else found

theorem foldl_collect (codes : List (UInt64 × UInt32 × UInt32)) (found : List Hit) :
    codes.foldl (collect code maxDistance) found =
      found ++ (codes.filterMap (hitWithin code maxDistance)).take (maxHits - found.length) := by
  induction codes generalizing found with
  | nil => simp
  | cons entry rest ih =>
      rw [List.foldl_cons, ih]
      by_cases hnear : hamming code entry.1 ≤ maxDistance
      · have hhit : hitWithin code maxDistance entry =
            some ⟨hamming code entry.1, entry.2.1, entry.2.2, entry.1⟩ := if_pos hnear
        rw [List.filterMap_cons_some hhit]
        by_cases hroom : found.length < maxHits
        · obtain ⟨room, hroom'⟩ : ∃ room, maxHits - found.length = room + 1 :=
            ⟨maxHits - found.length - 1, by omega⟩
          have hleft : maxHits - (found.length + 1) = room := by omega
          simp only [collect, hnear, hroom, and_self, ↓reduceIte, List.length_append,
            List.length_singleton, hleft, hroom', List.take_succ_cons, List.append_assoc,
            List.singleton_append]
        · have hfull : maxHits - found.length = 0 := by omega
          simp only [collect, hroom, and_false, ↓reduceIte, hfull, List.take_zero]
      · have hfar : hitWithin code maxDistance entry = none := if_neg hnear
        rw [List.filterMap_cons_none hfar]
        simp only [collect, hnear, false_and, ↓reduceIte]

/-- Collection keeps the first codes within the distance. -/
theorem hits_eq : index.hits code maxDistance limit =
    (((index.within code maxDistance).take maxHits).mergeSort Hit.le).take limit := by
  have hloop : index.hits code maxDistance limit =
      ((index.codes.foldl (collect code maxDistance) []).mergeSort Hit.le).take limit := rfl
  rw [hloop, foldl_collect, List.nil_append, List.length_nil, Nat.sub_zero, within]

/-- The answer is the first of the collected codes, sorted. These are the nearest of all
codes exactly when no code that comes behind the first `maxHits` belongs to them. -/
theorem hits_ranked (index : CodeIndex) (code : UInt64) (maxDistance limit : Nat) :
    index.hits code maxDistance limit =
        (((index.within code maxDistance).take maxHits).mergeSort Hit.le).take limit ∧
      (index.hits code maxDistance limit = index.nearest code maxDistance limit ↔
        index.LateCodesRankLow code maxDistance limit) := by
  refine ⟨hits_eq index code maxDistance limit, ?_⟩
  have hsplit : index.nearest code maxDistance limit =
      (((index.within code maxDistance).take maxHits ++
        (index.within code maxDistance).drop maxHits).mergeSort Hit.le).take limit := by
    rw [List.take_append_drop, nearest]
  rw [hits_eq, hsplit]
  exact Sorting.take_mergeSort_append_iff Hit.le_trans Hit.le_total

end CodeIndex

/-! ## A listing of one partition with the nearest code behind the bound -/

namespace Sample

/-- As many entries as are collected, each one bit away from the code zero. -/
def crowd : List LeafEntry :=
  (List.range maxHits).map fun place => { entry (toString place) with contentCode := some 1 }

def crowdedIndex : CodeIndex := .build [(0, crowd ++ [entry "nearest"])]

theorem hitWithin_one (slot entryIndex : UInt32) :
    CodeIndex.hitWithin 0 8 (1, slot, entryIndex) = some ⟨1, slot, entryIndex, 1⟩ := by
  have hdistance : hamming 0 1 = 1 := by decide
  simp [CodeIndex.hitWithin, hdistance]

theorem within_crowdedIndex : crowdedIndex.within 0 8 =
    crowd.zipIdx.map (fun row => Hit.mk 1 0 (UInt32.ofNat row.2) 1) ++
      [⟨0, 0, UInt32.ofNat maxHits, 0⟩] := by
  have hlength : crowd.length = maxHits := by
    rw [crowd, List.length_map, List.length_range]
  have hcrowd : crowd.zipIdx.filterMap (fun row : LeafEntry × Nat =>
      (row.1.contentCode.map fun code => (code, UInt32.ofNat 0, UInt32.ofNat row.2)).bind
        (CodeIndex.hitWithin 0 8)) =
      crowd.zipIdx.map fun row => Hit.mk 1 0 (UInt32.ofNat row.2) 1 := by
    rw [← List.filterMap_eq_map]
    apply List.filterMap_congr
    intro row hrow
    obtain ⟨place, -, hplace⟩ := List.mem_map.mp (List.fst_mem_of_mem_zipIdx hrow)
    rw [← hplace, Option.map_some, Option.bind_some, hitWithin_one]
    rfl
  have hcodes : crowdedIndex.codes = (crowd ++ [entry "nearest"]).zipIdx.filterMap
      fun row => row.1.contentCode.map fun code => (code, UInt32.ofNat 0, UInt32.ofNat row.2) := by
    simp only [crowdedIndex, CodeIndex.build, List.zipIdx_singleton, List.flatMap_singleton]
  rw [CodeIndex.within, hcodes, List.filterMap_filterMap, List.zipIdx_append, List.filterMap_append,
    hcrowd, hlength]
  rfl

end Sample

/-- The nearest code of all comes behind the ones that are collected, and another is
answered in its place. -/
theorem hits_ne_nearest : Sample.crowdedIndex.hits 0 8 1 ≠ Sample.crowdedIndex.nearest 0 8 1 := by
  have hlength : (Sample.crowd.zipIdx.map fun row =>
      Hit.mk 1 0 (UInt32.ofNat row.2) 1).length = maxHits := by
    rw [List.length_map, List.length_zipIdx, Sample.crowd, List.length_map, List.length_range]
  rw [CodeIndex.hits_eq, CodeIndex.nearest, Sample.within_crowdedIndex, ← hlength,
    List.take_left' rfl]
  intro hsame
  have hbefore := (Sorting.take_mergeSort_append_iff Hit.le_trans Hit.le_total).mp hsame _
    List.mem_cons_self
  obtain ⟨hit, hhit, hle⟩ := List.countP_pos_iff.mp hbefore
  obtain ⟨row, -, rfl⟩ := List.mem_map.mp hhit
  rw [Hit.le_iff] at hle
  simp at hle

end Registry.Viewer

import Mathlib.Data.Prod.Lex
import Mathlib.Data.String.Basic
import Mathlib.Order.Basic
import Std.Data.ExtTreeMap
import Registry.Bits.Distance
import Registry.Core.Record

/-! # Banded similarity search over content codes

A 64-bit content code is cut into bands of equal width. Each band value names a
bucket, a query looks into the buckets near its own, and the members found there
are verified by exact Hamming distance.
-/

namespace Registry

def contentCodeBits : Nat := 64

inductive SimilarityError
  | invalidBandCount (numBands : Nat)
  | radiusTooLarge (requested max : Nat)
  deriving DecidableEq, Repr

/-- The number of differing bits. -/
def hamming (left right : UInt64) : Nat := (left ^^^ right).toBitVec.cpop.toNat

/-- A band count that divides the bits of a code evenly. -/
structure BandParams where
  numBands : Nat
  pos : 0 < numBands
  dvd : numBands ∣ contentCodeBits

/-- One posting-list bucket: which band, and the band's value. -/
structure BucketId where
  bandIndex : Nat
  bandValue : UInt64
  deriving DecidableEq, Repr

/-- Digits padded with zeros to a width. -/
def zeroPadded (width : Nat) (digits : List Char) : List Char :=
  List.replicate (width - digits.length) '0' ++ digits

def BucketId.storageKey (bucket : BucketId) : String :=
  "iscc/" ++ String.ofList (zeroPadded 2 (Nat.toDigits 10 bucket.bandIndex)) ++ "/" ++
    String.ofList (zeroPadded 16 (Nat.toDigits 16 bucket.bandValue.toNat))

/-- A record's key in a bucket, with its full content code. -/
structure IsccMember where
  key : String
  contentCode : UInt64
  deriving DecidableEq, Repr

structure SimilarityMatch where
  key : String
  contentCode : UInt64
  distance : Nat
  deriving DecidableEq, Repr

/-- All masks over a `width`-bit field with at most `radius` ones. Each round adds
one bit above the highest of every mask of the round before. -/
def bitFlipMasks (width radius : Nat) : List UInt64 :=
  ((List.range (min radius width)).foldl (fun (masks, current) _ =>
    let next := current.flatMap fun mask =>
      let highest := 64 - mask.toBitVec.clz.toNat
      (List.range' highest (width - highest)).map fun bit => mask ||| 1 <<< UInt64.ofNat bit
    (masks ++ next, next)) ([0], [0])).1

namespace BandParams

def new (numBands : Nat) : Except SimilarityError BandParams :=
  if hinvalid : numBands = 0 ∨ contentCodeBits < numBands ∨ contentCodeBits % numBands ≠ 0 then
    .error (.invalidBandCount numBands)
  else
    .ok ⟨numBands, Nat.pos_of_ne_zero fun hzero => hinvalid (Or.inl hzero),
      Nat.dvd_of_mod_eq_zero (not_not.mp fun hrest => hinvalid (Or.inr (Or.inr hrest)))⟩

variable (params : BandParams)

def bandWidth : Nat := contentCodeBits / params.numBands

/-- The value of one band of a code, the most significant band first. -/
def bandValue (code : UInt64) (bandIndex : Nat) : UInt64 :=
  let width := params.bandWidth
  let shift := contentCodeBits - width * (bandIndex + 1)
  let mask : UInt64 :=
    if width = contentCodeBits then 0xffffffffffffffff else (1 <<< UInt64.ofNat width) - 1
  (code >>> UInt64.ofNat shift) &&& mask

/-- The buckets a code is indexed under, one per band. -/
def buckets (code : UInt64) : List BucketId :=
  (List.range params.numBands).map fun bandIndex => ⟨bandIndex, params.bandValue code bandIndex⟩

/-- The buckets a query looks into: per band, every value near the query's. -/
def queryBuckets (code : UInt64) (probeRadius : Nat) : List BucketId :=
  if probeRadius = 0 then params.buckets code
  else
    (List.range params.numBands).flatMap fun bandIndex =>
      (bitFlipMasks params.bandWidth probeRadius).map fun flip =>
        ⟨bandIndex, params.bandValue code bandIndex ^^^ flip⟩

end BandParams

/-- A distance, unless the one recorded before is smaller. -/
def nearer (distance : Nat) : Option Nat → Nat
  | some current => if distance < current then distance else current
  | none => distance

/-- The smallest distance of each key within the radius. -/
def bestDistances (query : UInt64) (candidates : List IsccMember) (radius : Nat) :
    Std.ExtTreeMap String Nat compare :=
  candidates.foldl (fun best member =>
    let distance := hamming query member.contentCode
    if distance ≤ radius then best.insert member.key (nearer distance best[member.key]?)
    else best) ∅

/-- The order of the answers: by distance, then by key. -/
def SimilarityMatch.le (left right : SimilarityMatch) : Bool :=
  left.distance < right.distance ∨ (left.distance = right.distance ∧ left.key ≤ right.key)

/-- Drop the matches that repeat the key of the last one kept. -/
def dedupFrom (kept : SimilarityMatch) : List SimilarityMatch → List SimilarityMatch
  | [] => [kept]
  | next :: rest =>
      if next.key = kept.key then dedupFrom kept rest else kept :: dedupFrom next rest

def dedupByKey : List SimilarityMatch → List SimilarityMatch
  | [] => []
  | first :: rest => dedupFrom first rest

/-- The candidates at their key's smallest distance. -/
def bestMatches (query : UInt64) (candidates : List IsccMember) (radius : Nat) :
    List SimilarityMatch :=
  let best := bestDistances query candidates radius
  candidates.filterMap fun member => do
    let distance ← best[member.key]?
    if hamming query member.contentCode = distance then
      some ⟨member.key, member.contentCode, distance⟩
    else none

/-- Exact verification of candidates: those within the radius, one row per key. -/
def verify (query : UInt64) (candidates : List IsccMember) (radius : Nat) : List SimilarityMatch :=
  dedupByKey ((bestMatches query candidates radius).mergeSort SimilarityMatch.le)

/-- The in-memory banded index. -/
structure IsccIndex where
  params : BandParams
  buckets : BucketId → Option (List IsccMember)

namespace IsccIndex

def new (params : BandParams) : IsccIndex := ⟨params, fun _ => none⟩

/-- A posting list with a member pushed, unless its key is there already. -/
def pushed (member : IsccMember) (list : List IsccMember) : List IsccMember :=
  if list.any fun other => other.key = member.key then list else list ++ [member]

def push (member : IsccMember) (buckets : BucketId → Option (List IsccMember))
    (bucket : BucketId) : BucketId → Option (List IsccMember) :=
  Function.update buckets bucket (some (pushed member ((buckets bucket).getD [])))

def insert (index : IsccIndex) (key : String) (contentCode : UInt64) : IsccIndex :=
  { index with
    buckets := (index.params.buckets contentCode).foldl (push ⟨key, contentCode⟩) index.buckets }

def candidates (index : IsccIndex) (query : UInt64) (probeRadius : Nat) : List IsccMember :=
  (index.params.queryBuckets query probeRadius).flatMap fun bucket =>
    (index.buckets bucket).getD []

def query (index : IsccIndex) (query : UInt64) (radius probeRadius : Nat) :
    List SimilarityMatch :=
  verify query (index.candidates query probeRadius) radius

end IsccIndex

/-! ## Bands -/

theorem hamming_eq_distance (left right : UInt64) :
    hamming left right = Bits.distance left.toBitVec right.toBitVec := rfl

theorem hamming_comm (left right : UInt64) : hamming left right = hamming right left :=
  Bits.distance_comm _ _

theorem hamming_eq_zero_iff {left right : UInt64} : hamming left right = 0 ↔ left = right := by
  rw [hamming_eq_distance, Bits.distance_eq_zero_iff, UInt64.toBitVec_inj]

namespace BandParams

variable (params : BandParams)

theorem bandWidth_mul : params.bandWidth * params.numBands = 64 :=
  Nat.div_mul_cancel params.dvd

theorem bandWidth_pos : 0 < params.bandWidth :=
  Nat.pos_of_mul_pos_right (by rw [bandWidth_mul]; decide)

theorem bandWidth_le : params.bandWidth ≤ 64 :=
  Nat.le_of_dvd (by decide) ⟨params.numBands, params.bandWidth_mul.symm⟩

/-- A band ends where the next higher one starts. -/
theorem band_le {bandIndex : Nat} (hindex : bandIndex < params.numBands) :
    params.bandWidth * (bandIndex + 1) ≤ 64 := by
  rw [← params.bandWidth_mul]
  exact Nat.mul_le_mul_left _ hindex

theorem getLsbD_mask (width position : Nat) (hwidth : width ≤ 64) :
    (if width = contentCodeBits then (0xffffffffffffffff : UInt64)
      else (1 <<< UInt64.ofNat width) - 1).toBitVec.getLsbD position =
        decide (position < width) := by
  by_cases hfull : width = contentCodeBits
  · subst hfull
    rw [if_pos rfl]
    have hones : (0xffffffffffffffff : UInt64).toBitVec = BitVec.allOnes 64 := rfl
    rw [hones, BitVec.getLsbD_allOnes]
    rfl
  · rw [if_neg hfull]
    have hlt : width < 64 := lt_of_le_of_ne hwidth hfull
    have hmask : ((1 <<< UInt64.ofNat width) - 1 : UInt64).toBitVec.toNat = 2 ^ width - 1 := by
      have hpow : 2 ^ width < 2 ^ 64 := Nat.pow_lt_pow_right (by decide) hlt
      have hone : 1 ≤ 2 ^ width := Nat.one_le_two_pow
      have hshift : (1 <<< UInt64.ofNat width : UInt64).toNat = 2 ^ width := by
        rw [UInt64.toNat_shiftLeft, UInt64.toNat_ofNat',
          Nat.mod_eq_of_lt (by omega : width < 2 ^ 64), Nat.mod_eq_of_lt hlt, UInt64.toNat_one,
          Nat.one_shiftLeft, Nat.mod_eq_of_lt hpow]
      rw [UInt64.toNat_toBitVec, UInt64.toNat_sub_of_le, hshift, UInt64.toNat_one]
      rw [UInt64.le_iff_toNat_le, hshift, UInt64.toNat_one]
      exact hone
    rw [BitVec.getLsbD, hmask, Nat.testBit_two_pow_sub_one]

theorem getLsbD_bandValue (code : UInt64) {bandIndex : Nat} (hindex : bandIndex < params.numBands)
    (position : Nat) :
    (params.bandValue code bandIndex).toBitVec.getLsbD position =
      (decide (position < params.bandWidth) &&
        code.toBitVec.getLsbD (64 - params.bandWidth * (bandIndex + 1) + position)) := by
  have hband := params.band_le hindex
  have hwidth := params.bandWidth_pos
  have hmul : params.bandWidth ≤ params.bandWidth * (bandIndex + 1) :=
    Nat.le_mul_of_pos_right _ (Nat.succ_pos _)
  have hshift : (UInt64.ofNat (contentCodeBits - params.bandWidth * (bandIndex + 1))).toBitVec.toNat
      % 64 = 64 - params.bandWidth * (bandIndex + 1) := by
    rw [UInt64.toNat_toBitVec, UInt64.toNat_ofNat', contentCodeBits]
    omega
  by_cases hposition : position < 64
  · rw [bandValue, UInt64.toBitVec_and, BitVec.getLsbD_and,
      getLsbD_mask _ _ params.bandWidth_le, UInt64.toBitVec_shiftRight,
      BitVec.ushiftRight_eq', BitVec.getLsbD_ushiftRight, BitVec.toNat_umod, Bool.and_comm]
    congr 2
    rw [← hshift]
    rfl
  · rw [BitVec.getLsbD_of_ge _ _ (not_lt.mp hposition), decide_eq_false, Bool.false_and]
    have := params.bandWidth_le
    omega

/-- The distance of two band values counts the differing bits of the band. -/
theorem hamming_bandValue (left right : UInt64) {bandIndex : Nat}
    (hindex : bandIndex < params.numBands) :
    hamming (params.bandValue left bandIndex) (params.bandValue right bandIndex) =
      ((Bits.differing left.toBitVec right.toBitVec).filter fun position =>
        (63 - position) / params.bandWidth = bandIndex).card := by
  have hband := params.band_le hindex
  have hwidth := params.bandWidth_pos
  rw [hamming_eq_distance, Bits.distance_eq_card]
  refine Finset.card_bij
    (fun position _ => 64 - params.bandWidth * (bandIndex + 1) + position) ?_ ?_ ?_
  · intro position hposition
    rw [Bits.mem_differing, params.getLsbD_bandValue left hindex,
      params.getLsbD_bandValue right hindex] at hposition
    have hlow : position < params.bandWidth := by
      by_contra hhigh
      simp [hhigh] at hposition
    rw [decide_eq_true hlow, Bool.true_and, Bool.true_and] at hposition
    rw [Finset.mem_filter, Bits.mem_differing]
    refine ⟨hposition, ?_⟩
    rw [Nat.mul_add_one] at hband ⊢
    rw [Nat.div_eq_iff hwidth]
    rw [Nat.mul_comm bandIndex]
    omega
  · intro first _ second _ heq
    exact Nat.add_left_cancel heq
  · intro position hposition
    rw [Finset.mem_filter, Bits.mem_differing] at hposition
    obtain ⟨hdiffer, hin⟩ := hposition
    have hlt : position < 64 := by
      by_contra hhigh
      have hge : 64 ≤ position := not_lt.mp hhigh
      simp [BitVec.getLsbD_of_ge _ _ hge] at hdiffer
    rw [Nat.div_eq_iff hwidth, Nat.mul_comm bandIndex] at hin
    rw [Nat.mul_add_one] at hband
    have hposition : 64 - params.bandWidth * (bandIndex + 1) +
        (position - (64 - params.bandWidth * (bandIndex + 1))) = position := by
      rw [Nat.mul_add_one]
      omega
    refine ⟨position - (64 - params.bandWidth * (bandIndex + 1)), ?_, hposition⟩
    rw [Bits.mem_differing, params.getLsbD_bandValue left hindex,
      params.getLsbD_bandValue right hindex, hposition, decide_eq_true, Bool.true_and,
      Bool.true_and]
    · exact hdiffer
    · rw [Nat.mul_add_one]
      omega

/-- Codes closer than the bands can tell apart are near in some band. -/
theorem exists_near_band {left right : UInt64} {probeRadius : Nat}
    (hnear : hamming left right < params.numBands * (probeRadius + 1)) :
    ∃ bandIndex < params.numBands,
      hamming (params.bandValue left bandIndex) (params.bandValue right bandIndex) ≤
        probeRadius := by
  have hgroup : ∀ position < 64, (63 - position) / params.bandWidth < params.numBands := by
    intro position hposition
    rw [Nat.div_lt_iff_lt_mul params.bandWidth_pos, Nat.mul_comm, params.bandWidth_mul]
    omega
  obtain ⟨bandIndex, hindex, hfew⟩ := Bits.exists_group_card_le _ hgroup hnear
  exact ⟨bandIndex, hindex, by rwa [params.hamming_bandValue left right hindex]⟩

/-- The values a band can take: the words of its width. -/
def Fits (value : UInt64) : Prop :=
  ∀ position ∈ Bits.ones value.toBitVec, position < params.bandWidth

theorem bandValue_fits (code : UInt64) {bandIndex : Nat} (hindex : bandIndex < params.numBands) :
    params.Fits (params.bandValue code bandIndex) := by
  intro position hone
  rw [Bits.mem_ones, params.getLsbD_bandValue code hindex, Bool.and_eq_true] at hone
  exact of_decide_eq_true hone.1

theorem xor_fits {left right : UInt64} (hleft : params.Fits left) (hright : params.Fits right) :
    params.Fits (left ^^^ right) := by
  intro position hone
  rw [Bits.mem_ones, UInt64.toBitVec_xor, BitVec.getLsbD_xor] at hone
  by_contra hhigh
  have hleft0 : left.toBitVec.getLsbD position = false := by
    rw [← Bool.not_eq_true, ← Bits.mem_ones]
    exact fun hmem => hhigh (hleft position hmem)
  have hright0 : right.toBitVec.getLsbD position = false := by
    rw [← Bool.not_eq_true, ← Bits.mem_ones]
    exact fun hmem => hhigh (hright position hmem)
  simp [hleft0, hright0] at hone

end BandParams

/-! ## Probing -/

/-- The rounds of the mask enumeration. -/
def maskRound (width : Nat) (current : List UInt64) : List UInt64 :=
  current.flatMap fun mask =>
    (List.range' (64 - mask.toBitVec.clz.toNat) (width - (64 - mask.toBitVec.clz.toNat))).map
      fun bit => mask ||| 1 <<< UInt64.ofNat bit

theorem toBitVec_setBit (mask : UInt64) {bit : Nat} (hbit : bit < 64) :
    (mask ||| 1 <<< UInt64.ofNat bit).toBitVec = mask.toBitVec ||| 1#64 <<< bit := by
  have hshift : (UInt64.ofNat bit).toBitVec.toNat % 64 = bit := by
    rw [UInt64.toNat_toBitVec, UInt64.toNat_ofNat']
    omega
  rw [UInt64.toBitVec_or, UInt64.toBitVec_shiftLeft, BitVec.shiftLeft_eq', BitVec.toNat_umod]
  congr 2

/-- A round raises every mask of the round before. -/
theorem map_maskRound {width : Nat} (hwidth : width ≤ 64) (current : List UInt64) :
    (maskRound width current).map UInt64.toBitVec =
      Bits.raise width (current.map UInt64.toBitVec) := by
  rw [maskRound, Bits.raise, List.map_flatMap, List.flatMap_map]
  congr 1
  funext mask
  rw [List.map_map, Bits.bitLength]
  apply List.map_congr_left
  intro bit hbit
  rw [List.mem_range'_1] at hbit
  exact toBitVec_setBit mask (by omega)

theorem mem_maskRound_iff {width count : Nat} (hwidth : width ≤ 64) {current : List UInt64}
    (hcurrent : ∀ mask, mask ∈ current ↔ Bits.Level width count mask.toBitVec) (mask : UInt64) :
    mask ∈ maskRound width current ↔ Bits.Level width (count + 1) mask.toBitVec := by
  have hmem : ∀ (masks : List UInt64) (word : BitVec 64),
      word ∈ masks.map UInt64.toBitVec ↔ UInt64.ofBitVec word ∈ masks := by
    intro masks word
    rw [List.mem_map]
    constructor
    · rintro ⟨found, hfound, rfl⟩
      exact hfound
    · exact fun hfound => ⟨_, hfound, rfl⟩
  have hwords : ∀ word : BitVec 64,
      word ∈ current.map UInt64.toBitVec ↔ Bits.Level width count word := by
    intro word
    rw [hmem, hcurrent]
  have hraise := Bits.mem_raise_iff hwidth hwords mask.toBitVec
  rw [← map_maskRound hwidth, hmem] at hraise
  exact hraise

/-- After some rounds, the masks are those with at most that many ones and the
current ones those with exactly that many. -/
theorem maskRounds_spec {width : Nat} (hwidth : width ≤ 64) (rounds : Nat) :
    let state := (List.range rounds).foldl (fun (masks, current) _ =>
      (masks ++ maskRound width current, maskRound width current)) ([0], [0])
    (∀ mask : UInt64, mask ∈ state.1 ↔
      ∃ count ≤ rounds, Bits.Level width count mask.toBitVec) ∧
    ∀ mask : UInt64, mask ∈ state.2 ↔ Bits.Level width rounds mask.toBitVec := by
  induction rounds with
  | zero =>
      have hzero : ∀ mask : UInt64, mask ∈ [0] ↔ Bits.Level width 0 mask.toBitVec := by
        intro mask
        rw [Bits.level_zero_iff, List.mem_singleton, ← UInt64.toBitVec_inj]
        rfl
      refine ⟨fun mask => ?_, hzero⟩
      refine (hzero mask).trans ⟨fun hlevel => ⟨0, le_rfl, hlevel⟩, ?_⟩
      rintro ⟨count, hcount, hlevel⟩
      obtain rfl : count = 0 := Nat.le_zero.mp hcount
      exact hlevel
  | succ rounds ih =>
      rw [List.range_succ, List.foldl_append]
      obtain ⟨hmasks, hcurrent⟩ := ih
      have hnext := mem_maskRound_iff hwidth hcurrent
      refine ⟨fun mask => ?_, hnext⟩
      rw [List.foldl_cons, List.foldl_nil, List.mem_append, hmasks, hnext]
      constructor
      · rintro (⟨count, hcount, hlevel⟩ | hlevel)
        · exact ⟨count, by omega, hlevel⟩
        · exact ⟨rounds + 1, le_rfl, hlevel⟩
      · rintro ⟨count, hcount, hlevel⟩
        rcases Nat.lt_or_ge rounds count with hlast | hearly
        · obtain rfl : count = rounds + 1 := by omega
          exact Or.inr hlevel
        · exact Or.inl ⟨count, hearly, hlevel⟩

theorem mem_bitFlipMasks_iff {width radius : Nat} (hwidth : width ≤ 64) (mask : UInt64) :
    mask ∈ bitFlipMasks width radius ↔
      (∀ position ∈ Bits.ones mask.toBitVec, position < width) ∧
        (Bits.ones mask.toBitVec).card ≤ radius := by
  refine ((maskRounds_spec hwidth (min radius width)).1 mask).trans ?_
  constructor
  · rintro ⟨count, hcount, hbelow, hcard⟩
    exact ⟨hbelow, by omega⟩
  · rintro ⟨hbelow, hcard⟩
    have hwide : (Bits.ones mask.toBitVec).card ≤ width := by
      have hsubset : Bits.ones mask.toBitVec ⊆ Finset.range width := fun position hone =>
        Finset.mem_range.mpr (hbelow position hone)
      simpa using Finset.card_le_card hsubset
    exact ⟨_, le_min hcard hwide, hbelow, rfl⟩

theorem maskRound_nodup {width : Nat} (hwidth : width ≤ 64) {current : List UInt64}
    (hcurrent : current.Nodup) : (maskRound width current).Nodup := by
  apply List.Nodup.of_map UInt64.toBitVec
  rw [map_maskRound hwidth]
  refine Bits.raise_nodup hwidth (hcurrent.map ?_)
  exact fun _ _ hsame => UInt64.toBitVec_inj.mp hsame

/-- No round comes to a mask again, its own or one of an earlier round. -/
theorem maskRounds_nodup {width : Nat} (hwidth : width ≤ 64) (rounds : Nat) :
    let state := (List.range rounds).foldl (fun (masks, current) _ =>
      (masks ++ maskRound width current, maskRound width current)) ([0], [0])
    state.1.Nodup ∧ state.2.Nodup := by
  induction rounds with
  | zero => exact ⟨List.nodup_singleton 0, List.nodup_singleton 0⟩
  | succ rounds ih =>
      obtain ⟨hmasks, hcurrent⟩ := maskRounds_spec hwidth rounds
      have hnext := maskRound_nodup hwidth ih.2
      rw [List.range_succ, List.foldl_append]
      refine ⟨ih.1.append hnext (List.disjoint_left.mpr ?_), hnext⟩
      intro mask hearlier hlater
      obtain ⟨count, hcount, -, hcard⟩ := (hmasks mask).mp hearlier
      have hones := ((mem_maskRound_iff hwidth hcurrent mask).mp hlater).2
      omega

/-- A one at a bit of a 64-bit word. The machine cannot shift by 64 or more. -/
def oneAt (bit : Nat) : Option UInt64 :=
  if bit < 64 then some (1 <<< UInt64.ofNat bit) else none

/-- One round of `bitFlipMasks` with every shift checked. -/
def maskRoundChecked (width : Nat) (current : List UInt64) : Option (List UInt64) := do
  let raised ← current.mapM fun mask =>
    let highest := 64 - mask.toBitVec.clz.toNat
    (List.range' highest (width - highest)).mapM fun bit => do
      let one ← oneAt bit
      pure (mask ||| one)
  pure raised.flatten

/-- `bitFlipMasks`, which fails at a shift that the machine cannot do. -/
def bitFlipMasksChecked (width radius : Nat) : Option (List UInt64) := do
  let state ← (List.range (min radius width)).foldlM (fun state _ => do
    let next ← maskRoundChecked width state.2
    pure (state.1 ++ next, next)) ([0], [0])
  pure state.1

theorem mapM_eq_some_map {α β : Type} {items : List α} {step : α → Option β} {value : α → β}
    (hstep : ∀ item ∈ items, step item = some (value item)) :
    items.mapM step = some (items.map value) := by
  induction items with
  | nil => rfl
  | cons item rest ih =>
      rw [List.mapM_cons, hstep item List.mem_cons_self,
        ih fun other hother => hstep other (List.mem_cons_of_mem _ hother)]
      rfl

/-- Only bits below the width are set, so that no shift fails. -/
theorem maskRoundChecked_eq {width : Nat} (hwidth : width ≤ 64) (current : List UInt64) :
    maskRoundChecked width current = some (maskRound width current) := by
  have hmask : ∀ mask ∈ current,
      (List.range' (64 - mask.toBitVec.clz.toNat) (width - (64 - mask.toBitVec.clz.toNat))).mapM
        (fun bit => do let one ← oneAt bit; pure (mask ||| one)) =
      some ((List.range' (64 - mask.toBitVec.clz.toNat)
        (width - (64 - mask.toBitVec.clz.toNat))).map fun bit =>
          mask ||| 1 <<< UInt64.ofNat bit) := by
    intro mask _
    apply mapM_eq_some_map
    intro bit hbit
    have hbound : bit < 64 := by
      rw [List.mem_range'_1] at hbit
      omega
    rw [oneAt, if_pos hbound]
    rfl
  rw [maskRoundChecked, mapM_eq_some_map hmask, maskRound, List.flatMap_def]
  rfl

theorem bitFlipMasksChecked_eq {width : Nat} (hwidth : width ≤ 64) (radius : Nat) :
    bitFlipMasksChecked width radius = some (bitFlipMasks width radius) := by
  have hrounds : ∀ (rounds : List Nat) (state : List UInt64 × List UInt64),
      rounds.foldlM (fun state _ => do
        let next ← maskRoundChecked width state.2
        pure (state.1 ++ next, next)) state =
      some (rounds.foldl (fun state _ =>
        (state.1 ++ maskRound width state.2, maskRound width state.2)) state) := by
    intro rounds
    induction rounds with
    | nil => exact fun state => rfl
    | cons round rest ih =>
        intro state
        rw [List.foldlM_cons, maskRoundChecked_eq hwidth, List.foldl_cons, ← ih]
        rfl
  rw [bitFlipMasksChecked, hrounds]
  rfl

/-- The masks of a field of at most 64 bits are the words below `2 ^ width` with at most
`radius` ones, each listed once, and no shift reaches the width of a word. -/
theorem bitFlipMasks_exact {width : Nat} (hwidth : width ≤ 64) (radius : Nat) :
    (∀ mask, mask ∈ bitFlipMasks width radius ↔
      mask.toNat < 2 ^ width ∧ mask.toBitVec.cpop.toNat ≤ radius) ∧
    (bitFlipMasks width radius).Nodup ∧
    bitFlipMasksChecked width radius = some (bitFlipMasks width radius) := by
  refine ⟨fun mask => ?_, (maskRounds_nodup hwidth (min radius width)).1,
    bitFlipMasksChecked_eq hwidth radius⟩
  rw [mem_bitFlipMasks_iff hwidth, Bits.forall_mem_ones_lt_iff, Bits.toNat_cpop,
    UInt64.toNat_toBitVec]

/-- The widest field. -/
theorem bitFlipMasks_exact_sample :
    (∀ mask, mask ∈ bitFlipMasks 64 2 ↔ mask.toNat < 2 ^ 64 ∧ mask.toBitVec.cpop.toNat ≤ 2) ∧
      (bitFlipMasks 64 2).Nodup ∧ bitFlipMasksChecked 64 2 = some (bitFlipMasks 64 2) :=
  bitFlipMasks_exact le_rfl 2

/-- A query probes exactly the buckets of each band whose value is near its own. -/
theorem BandParams.mem_queryBuckets_iff (params : BandParams) (code : UInt64) (probeRadius : Nat)
    {bucket : BucketId} (hfits : params.Fits bucket.bandValue) :
    bucket ∈ params.queryBuckets code probeRadius ↔ bucket.bandIndex < params.numBands ∧
      hamming bucket.bandValue (params.bandValue code bucket.bandIndex) ≤ probeRadius := by
  obtain ⟨bandIndex, bandValue⟩ := bucket
  rw [queryBuckets]
  split
  next hzero =>
    subst hzero
    simp only [buckets, List.mem_map, List.mem_range, BucketId.mk.injEq, Nat.le_zero,
      hamming_eq_zero_iff]
    constructor
    · rintro ⟨index, hindex, rfl, rfl⟩
      exact ⟨hindex, rfl⟩
    · rintro ⟨hindex, rfl⟩
      exact ⟨bandIndex, hindex, rfl, rfl⟩
  next =>
    simp only [List.mem_flatMap, List.mem_map, List.mem_range, BucketId.mk.injEq]
    constructor
    · rintro ⟨index, hindex, flip, hflip, rfl, rfl⟩
      refine ⟨hindex, ?_⟩
      have hmask := ((mem_bitFlipMasks_iff params.bandWidth_le flip).mp hflip).2
      rwa [hamming_comm, hamming, ← UInt64.xor_assoc, UInt64.xor_self, UInt64.zero_xor,
        Bits.toNat_cpop]
    · rintro ⟨hindex, hnear⟩
      refine ⟨bandIndex, hindex, params.bandValue code bandIndex ^^^ bandValue, ?_, rfl, ?_⟩
      · rw [mem_bitFlipMasks_iff params.bandWidth_le]
        refine ⟨params.xor_fits (params.bandValue_fits code hindex) hfits, ?_⟩
        rw [hamming_comm] at hnear
        rwa [hamming, Bits.toNat_cpop] at hnear
      · rw [← UInt64.xor_assoc, UInt64.xor_self, UInt64.zero_xor]

/-- A code shares a probed bucket with a query if and only if the two are near in
some band. -/
theorem BandParams.exists_probed_iff (params : BandParams) (code query : UInt64)
    (probeRadius : Nat) :
    (∃ bucket ∈ params.queryBuckets query probeRadius, bucket ∈ params.buckets code) ↔
      ∃ bandIndex < params.numBands, hamming (params.bandValue code bandIndex)
        (params.bandValue query bandIndex) ≤ probeRadius := by
  have hprobed : ∀ bandIndex < params.numBands,
      ((⟨bandIndex, params.bandValue code bandIndex⟩ : BucketId) ∈
        params.queryBuckets query probeRadius ↔ bandIndex < params.numBands ∧
          hamming (params.bandValue code bandIndex) (params.bandValue query bandIndex) ≤
            probeRadius) :=
    fun bandIndex hindex =>
      params.mem_queryBuckets_iff query probeRadius (params.bandValue_fits code hindex)
  constructor
  · rintro ⟨bucket, hbucket, hown⟩
    obtain ⟨bandIndex, hindex, rfl⟩ := List.mem_map.mp hown
    rw [List.mem_range] at hindex
    exact ⟨bandIndex, ((hprobed bandIndex hindex).mp hbucket)⟩
  · rintro ⟨bandIndex, hindex, hnear⟩
    refine ⟨_, (hprobed bandIndex hindex).mpr ⟨hindex, hnear⟩, ?_⟩
    exact List.mem_map.mpr ⟨bandIndex, List.mem_range.mpr hindex, rfl⟩

/-! ## Bucket keys -/

/-- The value of a hexadecimal digit. -/
def digitValue (char : Char) : Nat :=
  if char.toNat < 58 then char.toNat - 48 else char.toNat - 87

def digitsValue (base : Nat) (digits : List Char) : Nat :=
  digits.foldl (fun value char => value * base + digitValue char) 0

theorem digitValue_digitChar {digit : Nat} (hdigit : digit < 16) :
    digitValue digit.digitChar = digit := by
  have hall : ∀ digit < 16, digitValue (Nat.digitChar digit) = digit := by decide
  exact hall digit hdigit

theorem digitsValue_append_singleton (base : Nat) (digits : List Char) (char : Char) :
    digitsValue base (digits ++ [char]) = digitsValue base digits * base + digitValue char := by
  rw [digitsValue, List.foldl_append]
  rfl

theorem digitsValue_toDigits {base : Nat} (hbase : 1 < base) (hhex : base ≤ 16) (number : Nat) :
    digitsValue base (Nat.toDigits base number) = number := by
  induction number using Nat.strongRecOn with
  | ind number ih =>
      rw [Nat.toDigits_eq_if hbase]
      split
      next hlt =>
        have hvalue : digitsValue base [number.digitChar] = digitValue number.digitChar := by
          simp [digitsValue]
        rw [hvalue, digitValue_digitChar (by omega)]
      next hge =>
        rw [digitsValue_append_singleton, ih _ (Nat.div_lt_self (by omega) hbase),
          digitValue_digitChar (lt_of_lt_of_le (Nat.mod_lt _ (by omega)) hhex), Nat.mul_comm]
        exact Nat.div_add_mod number base

theorem digitsValue_zeroPadded (base width : Nat) (digits : List Char) :
    digitsValue base (zeroPadded width digits) = digitsValue base digits := by
  rw [zeroPadded, digitsValue, List.foldl_append]
  congr 1
  induction width - digits.length with
  | zero => rfl
  | succ count ih =>
      rw [List.replicate_succ', List.foldl_append, ih]
      simp [digitValue]

/-- No digit is a path separator. -/
theorem slash_notMem_toDigits {base : Nat} (hbase : 1 < base) (hhex : base ≤ 16) (number : Nat) :
    '/' ∉ Nat.toDigits base number := by
  have hdigit : ∀ digit < 16, '/' ≠ Nat.digitChar digit := by decide
  induction number using Nat.strongRecOn with
  | ind number ih =>
      rw [Nat.toDigits_eq_if hbase]
      split
      next hlt => simp
      next hge =>
        have hlast := hdigit (number % base) (lt_of_lt_of_le (Nat.mod_lt _ (by omega)) hhex)
        simpa [hlast] using ih _ (Nat.div_lt_self (by omega) hbase)

theorem slash_notMem_zeroPadded (width : Nat) {digits : List Char} (hdigits : '/' ∉ digits) :
    '/' ∉ zeroPadded width digits := by
  simp [zeroPadded, hdigits]

/-- Two texts that agree up to and after their first separator agree in both parts. -/
theorem append_slash_inj {first second left right : List Char} (hfirst : '/' ∉ first)
    (hsecond : '/' ∉ second) (heq : first ++ '/' :: left = second ++ '/' :: right) :
    first = second ∧ left = right := by
  have htake : ∀ (text rest : List Char), '/' ∉ text →
      (text ++ '/' :: rest).takeWhile (· != '/') = text := by
    intro text rest htext
    rw [List.takeWhile_append_of_pos]
    · simp
    · intro char hchar
      simpa using fun heq : char = '/' => htext (heq ▸ hchar)
  have hparts : first = second := by
    rw [← htake first left hfirst, heq, htake second right hsecond]
  subst hparts
  exact ⟨rfl, (List.cons.inj (List.append_cancel_left heq)).2⟩

theorem BucketId.storageKey_injective : Function.Injective BucketId.storageKey := by
  rintro ⟨leftIndex, leftValue⟩ ⟨rightIndex, rightValue⟩ heq
  have hlist := congrArg String.toList heq
  simp only [storageKey, String.toList_append, String.toList_ofList, List.append_assoc] at hlist
  have hslash : "/".toList = ['/'] := rfl
  rw [hslash, List.singleton_append, List.singleton_append] at hlist
  obtain ⟨hindex, hvalue⟩ := append_slash_inj
    (slash_notMem_zeroPadded 2 (slash_notMem_toDigits (by decide) (by decide) leftIndex))
    (slash_notMem_zeroPadded 2 (slash_notMem_toDigits (by decide) (by decide) rightIndex))
    (List.append_cancel_left hlist)
  have hindexValue := congrArg (digitsValue 10) hindex
  have hvalueValue := congrArg (digitsValue 16) hvalue
  rw [digitsValue_zeroPadded, digitsValue_zeroPadded, digitsValue_toDigits (by decide) (by decide),
    digitsValue_toDigits (by decide) (by decide)] at hindexValue
  rw [digitsValue_zeroPadded, digitsValue_zeroPadded, digitsValue_toDigits (by decide) (by decide),
    digitsValue_toDigits (by decide) (by decide)] at hvalueValue
  rw [hindexValue, UInt64.toNat_inj.mp hvalueValue]

end Registry

import Mathlib.Algebra.Order.BigOperators.Group.Finset
import Mathlib.Combinatorics.Pigeonhole
import Mathlib.Data.Finset.Sort
import Mathlib.Data.Finset.Max

/-! # Hamming distance of machine words

The distance of two words is the number of positions at which they differ. Words
that differ in few positions agree, up to few positions, on one of any number of
groups of positions, and the words with few ones are those reached from zero by
setting ever higher bits.
-/

namespace Bits

variable {w : Nat}

/-- The positions at which a word has a one. -/
def ones (word : BitVec w) : Finset Nat :=
  (Finset.range w).filter fun position => word.getLsbD position = true

@[simp] theorem mem_ones {word : BitVec w} {position : Nat} :
    position ∈ ones word ↔ word.getLsbD position = true := by
  rw [ones, Finset.mem_filter, Finset.mem_range]
  exact ⟨fun hmem => hmem.2, fun hone => ⟨BitVec.lt_of_getLsbD hone, hone⟩⟩

theorem ones_injective : Function.Injective (ones : BitVec w → Finset Nat) := by
  intro left right hones
  apply BitVec.eq_of_getLsbD_eq
  intro position _
  rw [Bool.eq_iff_iff, ← mem_ones, ← mem_ones, hones]

@[simp] theorem ones_zero : ones (0#w) = ∅ := by
  ext position
  simp

theorem cpopNatRec_eq_card (word : BitVec w) (bound : Nat) :
    word.cpopNatRec bound 0 =
      ((Finset.range bound).filter fun position => word.getLsbD position = true).card := by
  induction bound with
  | zero => rfl
  | succ bound ih =>
      rw [BitVec.cpopNatRec_succ, BitVec.cpopNatRec_eq, ih, Finset.range_add_one,
        Finset.filter_insert]
      cases hbit : word.getLsbD bound with
      | false => simp
      | true =>
          rw [if_pos rfl, Finset.card_insert_of_notMem (by simp)]
          simp

theorem toNat_cpop (word : BitVec w) : word.cpop.toNat = (ones word).card := by
  rw [BitVec.toNat_cpop, cpopNatRec_eq_card, ones]

/-- The positions at which two words differ. -/
def differing (left right : BitVec w) : Finset Nat := ones (left ^^^ right)

@[simp] theorem mem_differing {left right : BitVec w} {position : Nat} :
    position ∈ differing left right ↔ left.getLsbD position ≠ right.getLsbD position := by
  simp [differing]

theorem differing_eq_empty_iff {left right : BitVec w} :
    differing left right = ∅ ↔ left = right := by
  constructor
  · intro hempty
    apply BitVec.eq_of_getLsbD_eq
    intro position _
    have hposition : position ∉ differing left right := by simp [hempty]
    simpa using hposition
  · rintro rfl
    simp [differing]

/-- The number of positions at which two words differ. -/
def distance (left right : BitVec w) : Nat := (left ^^^ right).cpop.toNat

theorem distance_eq_card (left right : BitVec w) :
    distance left right = (differing left right).card :=
  toNat_cpop _

theorem distance_comm (left right : BitVec w) : distance left right = distance right left := by
  rw [distance, BitVec.xor_comm, distance]

theorem distance_eq_zero_iff {left right : BitVec w} : distance left right = 0 ↔ left = right := by
  rw [distance_eq_card, Finset.card_eq_zero, differing_eq_empty_iff]

/-- Sort the positions into fewer groups than the distance would need to exceed
`bound` in each: some group has at most `bound` differing positions. -/
theorem exists_group_card_le {left right : BitVec w} {groups bound : Nat} (group : Nat → Nat)
    (hgroup : ∀ position < w, group position < groups)
    (hdistance : distance left right < groups * (bound + 1)) :
    ∃ index < groups,
      ((differing left right).filter fun position => group position = index).card ≤ bound := by
  have hmaps : Set.MapsTo group (differing left right) (Finset.range groups) := by
    intro position hposition
    rw [Finset.mem_coe, differing, ones, Finset.mem_filter, Finset.mem_range] at hposition
    exact Finset.mem_coe.mpr (Finset.mem_range.mpr (hgroup position hposition.1))
  have hcard : (differing left right).card < (Finset.range groups).card * (bound + 1) := by
    rwa [Finset.card_range, ← distance_eq_card]
  obtain ⟨index, hindex, hfew⟩ := Finset.exists_card_fiber_lt_of_card_lt_mul hcard
  exact ⟨index, Finset.mem_range.mp hindex, Nat.lt_succ_iff.mp hfew⟩

/-! ## Words with a given number of ones -/

/-- One past the highest one of a word. -/
def bitLength (word : BitVec w) : Nat := w - word.clz.toNat

theorem lt_bitLength_of_mem {word : BitVec w} {position : Nat} (hone : position ∈ ones word) :
    position < bitLength word := by
  by_contra hhigh
  have hsmall : word.toNat < 2 ^ bitLength word := BitVec.toNat_lt_two_pow_sub_clz
  have hbound : word.toNat < 2 ^ position :=
    lt_of_lt_of_le hsmall (Nat.pow_le_pow_right (by omega) (not_lt.mp hhigh))
  rw [mem_ones, BitVec.getLsbD, Nat.testBit_lt_two_pow hbound] at hone
  cases hone

theorem bitLength_zero : bitLength (0#w) = 0 := by
  have hclz : (0#w).clz = BitVec.ofNat w w := BitVec.clz_eq_iff_eq_zero.mpr rfl
  rw [bitLength, hclz, BitVec.toNat_ofNat, Nat.mod_eq_of_lt Nat.lt_two_pow_self]
  omega

theorem bitLength_le_of_forall {word : BitVec w} {bound : Nat}
    (hbelow : ∀ position ∈ ones word, position < bound) : bitLength word ≤ bound := by
  by_cases hzero : word = 0#w
  · rw [hzero, bitLength_zero]
    exact Nat.zero_le bound
  · have hpositive : 0 < w := by
      rcases Nat.eq_zero_or_pos w with rfl | hpositive
      · exact absurd (BitVec.eq_nil word) hzero
      · exact hpositive
    have htop := hbelow _ (mem_ones.mpr (BitVec.getLsbD_true_clz_of_ne_zero hpositive hzero))
    rw [bitLength]
    omega

theorem ones_setBit (word : BitVec w) {position : Nat} (hposition : position < w) :
    ones (word ||| 1#w <<< position) = insert position (ones word) := by
  ext other
  simp only [mem_ones, BitVec.getLsbD_or, BitVec.getLsbD_shiftLeft, Finset.mem_insert,
    Bool.or_eq_true, Bool.and_eq_true, decide_eq_true_eq, Bool.not_eq_true',
    decide_eq_false_iff_not, BitVec.getLsbD_one]
  constructor
  · rintro (hone | ⟨⟨hother, hle⟩, hpositive, hzero⟩)
    · exact Or.inr hone
    · exact Or.inl (by omega)
  · rintro (rfl | hone)
    · exact Or.inr ⟨⟨hposition, by omega⟩, by omega, by omega⟩
    · exact Or.inl hone

/-- Setting one bit above all others, in every way below `width`. -/
def raise (width : Nat) (words : List (BitVec w)) : List (BitVec w) :=
  words.flatMap fun word =>
    (List.range' (bitLength word) (width - bitLength word)).map fun position =>
      word ||| 1#w <<< position

/-- A bit above all others can be told from them. -/
theorem setBit_inj {first second : BitVec w} {position other : Nat}
    (hfirst : bitLength first ≤ position) (hsecond : bitLength second ≤ other)
    (hposition : position < w) (hother : other < w)
    (hsame : first ||| 1#w <<< position = second ||| 1#w <<< other) :
    position = other ∧ first = second := by
  have hnew : position ∉ ones first := fun hone => by
    have := lt_bitLength_of_mem hone
    omega
  have hotherNew : other ∉ ones second := fun hone => by
    have := lt_bitLength_of_mem hone
    omega
  have hones : insert position (ones first) = insert other (ones second) := by
    rw [← ones_setBit first hposition, hsame, ones_setBit second hother]
  have heq : position = other := by
    have hleft : position ∈ insert other (ones second) := hones ▸ Finset.mem_insert_self _ _
    have hright : other ∈ insert position (ones first) := hones ▸ Finset.mem_insert_self _ _
    rcases Finset.mem_insert.mp hleft with heq | hbelow
    · exact heq
    · rcases Finset.mem_insert.mp hright with heq | habove
      · exact heq.symm
      · have := lt_bitLength_of_mem hbelow
        have := lt_bitLength_of_mem habove
        omega
  subst heq
  refine ⟨rfl, ones_injective ?_⟩
  rw [← Finset.erase_insert hnew, hones, Finset.erase_insert hotherNew]

/-- Raising repeats no word. -/
theorem raise_nodup {width : Nat} (hwidth : width ≤ w) {words : List (BitVec w)}
    (hnodup : words.Nodup) : (raise width words).Nodup := by
  rw [raise, List.nodup_flatMap]
  constructor
  · intro word _
    refine List.Nodup.map_on ?_ List.nodup_range'
    intro position hposition other hother hsame
    rw [List.mem_range'_1] at hposition hother
    exact (setBit_inj hposition.1 hother.1 (by omega) (by omega) hsame).1
  · refine hnodup.imp fun {first second} hne => List.disjoint_left.mpr ?_
    intro word hfirst hsecond
    obtain ⟨position, hposition, rfl⟩ := List.mem_map.mp hfirst
    obtain ⟨other, hother, hsame⟩ := List.mem_map.mp hsecond
    rw [List.mem_range'_1] at hposition hother
    exact hne (setBit_inj hposition.1 hother.1 (by omega) (by omega) hsame.symm).2

/-- The ones of a word lie below a bound exactly when its value does. -/
theorem forall_mem_ones_lt_iff {word : BitVec w} {bound : Nat} :
    (∀ position ∈ ones word, position < bound) ↔ word.toNat < 2 ^ bound := by
  simp only [mem_ones, BitVec.getLsbD]
  constructor
  · intro hbelow
    apply Nat.lt_pow_two_of_testBit
    intro position hposition
    by_contra hone
    exact absurd (hbelow position (by simpa using hone)) (not_lt.mpr hposition)
  · intro hsmall position hone
    by_contra hhigh
    have hlarge : word.toNat < 2 ^ position :=
      lt_of_lt_of_le hsmall (Nat.pow_le_pow_right (by omega) (not_lt.mp hhigh))
    rw [Nat.testBit_lt_two_pow hlarge] at hone
    cases hone

/-- The words whose ones all lie below `width`, sorted by how many they have. -/
def Level (width count : Nat) (word : BitVec w) : Prop :=
  (∀ position ∈ ones word, position < width) ∧ (ones word).card = count

theorem level_zero_iff {width : Nat} {word : BitVec w} : Level width 0 word ↔ word = 0#w := by
  constructor
  · rintro ⟨-, hcard⟩
    exact ones_injective (by rw [Finset.card_eq_zero.mp hcard, ones_zero])
  · rintro rfl
    simp [Level]

/-- Raising every word with `count` ones gives every word with one more. -/
theorem mem_raise_iff {width count : Nat} (hwidth : width ≤ w) {words : List (BitVec w)}
    (hwords : ∀ word, word ∈ words ↔ Level width count word) (word : BitVec w) :
    word ∈ raise width words ↔ Level width (count + 1) word := by
  simp only [raise, List.mem_flatMap, List.mem_map, List.mem_range'_1]
  constructor
  · rintro ⟨lower, hlower, position, ⟨hlow, hhigh⟩, rfl⟩
    obtain ⟨hbelow, hcard⟩ := (hwords lower).mp hlower
    have hnew : position ∉ ones lower := fun hone => by
      have := lt_bitLength_of_mem hone
      omega
    rw [Level, ones_setBit lower (by omega), Finset.card_insert_of_notMem hnew, hcard]
    refine ⟨fun other hother => ?_, rfl⟩
    rcases Finset.mem_insert.mp hother with rfl | hother
    · omega
    · exact hbelow other hother
  · -- The highest one is the bit that was set last.
    rintro ⟨hbelow, hcard⟩
    have hnonempty : (ones word).Nonempty := Finset.card_pos.mp (by omega)
    let top := (ones word).max' hnonempty
    have htop : top ∈ ones word := Finset.max'_mem _ _
    have htopWidth : top < width := hbelow top htop
    let lower : BitVec w := word &&& ~~~(1#w <<< top)
    have hlower : ones lower = (ones word).erase top := by
      ext other
      simp only [lower, mem_ones, BitVec.getLsbD_and, BitVec.getLsbD_not, BitVec.getLsbD_shiftLeft,
        BitVec.getLsbD_one, Finset.mem_erase, Bool.and_eq_true, Bool.not_eq_true',
        decide_eq_true_eq, Bool.and_eq_false_imp, decide_eq_false_iff_not]
      constructor
      · rintro ⟨hone, hother, hnot⟩
        refine ⟨?_, hone⟩
        rintro rfl
        exact hnot ⟨hother, by omega⟩ (by omega) (by omega)
      · rintro ⟨hne, hone⟩
        exact ⟨hone, BitVec.lt_of_getLsbD hone, fun hrange _ => by omega⟩
    have hlowerBelow : ∀ position ∈ ones lower, position < top := by
      intro position hposition
      rw [hlower] at hposition
      obtain ⟨hne, hone⟩ := Finset.mem_erase.mp hposition
      exact lt_of_le_of_ne (Finset.le_max' _ _ hone) hne
    refine ⟨lower, (hwords lower).mpr ⟨?_, ?_⟩, top, ⟨bitLength_le_of_forall hlowerBelow, ?_⟩, ?_⟩
    · exact fun position hposition => lt_trans (hlowerBelow position hposition) htopWidth
    · rw [hlower, Finset.card_erase_of_mem htop, hcard]
      rfl
    · have := bitLength_le_of_forall hlowerBelow
      omega
    · apply ones_injective
      rw [ones_setBit lower (by omega), hlower, Finset.insert_erase htop]

end Bits

import Mathlib.Data.List.GetD
import Registry.Core.Libraries
import Registry.Text.Numerals

/-! # Legacy declaration identifiers

The decoder of legacy identifiers changes the base of a numeral: each letter is a digit
of base 32, each byte one of base 256, and leading zeros are kept. So the accepted keys
are the numerals of the digests behind a fixed header, one for each digest.
-/

namespace Registry

/-! ## Letters -/

def base32Letter (digit : Nat) : Char := "abcdefghijklmnopqrstuvwxyz234567".toList.getD digit 'a'

/-- The place of a byte in the alphabet. -/
def letterIndex (byte : UInt8) : Option Nat := base32Alphabet.findIdx? (· == byte)

theorem length_base32Alphabet : base32Alphabet.length = 32 := by decide +kernel

/-- Each digit has a letter of one byte, which is found at the place of the digit. -/
theorem base32Letter_spec : ∀ digit < 32,
    String.utf8EncodeChar (base32Letter digit) = [base32Alphabet.getD digit 0] ∧
      letterIndex (base32Alphabet.getD digit 0) = some digit := by
  decide +kernel

theorem utf8_letters {digits : List Nat} (hdigits : ∀ digit ∈ digits, digit < 32) :
    utf8 (String.ofList (digits.map base32Letter)) =
      digits.map fun digit => base32Alphabet.getD digit 0 := by
  rw [utf8_ofList]
  induction digits with
  | nil => rfl
  | cons digit rest ih =>
      rw [List.map_cons, List.flatMap_cons,
        (base32Letter_spec digit (hdigits digit List.mem_cons_self)).1,
        ih fun other hother => hdigits other (List.mem_cons_of_mem _ hother)]
      rfl

theorem letterIndex_eq_some {byte : UInt8} {digit : Nat} (hindex : letterIndex byte = some digit) :
    digit < 32 ∧ base32Alphabet.getD digit 0 = byte := by
  obtain ⟨hbound, hbyte, -⟩ := List.findIdx?_eq_some_iff_getElem.mp hindex
  refine ⟨length_base32Alphabet ▸ hbound, ?_⟩
  rw [List.getD_eq_getElem _ _ hbound]
  simpa using hbyte

/-- Bytes are read as digits exactly when they are the letters of these digits. -/
theorem mapM_letterIndex_iff {bytes : Bytes} {digits : List Nat} :
    bytes.mapM letterIndex = some digits ↔ (∀ digit ∈ digits, digit < 32) ∧
      bytes = digits.map fun digit => base32Alphabet.getD digit 0 := by
  constructor
  · intro hread
    refine ⟨fun digit hdigit => ?_, ?_⟩
    · obtain ⟨byte, -, hbyte⟩ := Numeral.exists_read_of_mapM hread hdigit
      exact (letterIndex_eq_some hbyte).1
    · apply List.ext_getElem?
      intro place
      rw [List.getElem?_map, Numeral.getElem?_of_mapM hread]
      cases hbyte : bytes[place]? with
      | none => rfl
      | some byte =>
          obtain ⟨digit, -, hdigit⟩ := Numeral.exists_of_mapM hread (List.mem_of_getElem? hbyte)
          simp only [Option.bind_some, hdigit, Option.map_some, (letterIndex_eq_some hdigit).2]
  · rintro ⟨hdigits, rfl⟩
    rw [Numeral.mapM_eq_some_iff, List.map_map]
    exact List.map_congr_left fun digit hdigit => (base32Letter_spec digit (hdigits digit hdigit)).2

/-! ## The decoder -/

/-- A number as bytes, the least significant first. -/
def littleEndian (number : Nat) : Bytes := (Nat.digits 256 number).map UInt8.ofNat

/-- To shift a digit in is to multiply and add. -/
theorem shiftIn_littleEndian (carry number : Nat) :
    shiftIn carry (littleEndian number) = littleEndian (carry + number * 32) := by
  induction number using Nat.strong_induction_on generalizing carry with
  | h number ih =>
      by_cases hzero : number = 0
      · rw [hzero, littleEndian, Nat.digits_zero, List.map_nil, shiftIn, Nat.zero_mul, Nat.add_zero,
          littleEndian]
      · have hpos : 0 < number := Nat.pos_of_ne_zero hzero
        have hbyte : (UInt8.ofNat (number % 256)).toNat = number % 256 := by simp
        have hdigits : littleEndian number =
            UInt8.ofNat (number % 256) :: littleEndian (number / 256) := by
          rw [littleEndian, Nat.digits_def' (by decide) hpos, List.map_cons, littleEndian]
        have hsum : littleEndian (carry + number * 32) =
            UInt8.ofNat ((carry + number * 32) % 256) ::
              littleEndian ((carry + number * 32) / 256) := by
          rw [littleEndian, Nat.digits_def' (by decide) (by omega), List.map_cons, littleEndian]
        have hlow : (carry + number % 256 * 32) % 256 = (carry + number * 32) % 256 := by omega
        have hhigh : (carry + number % 256 * 32) / 256 + number / 256 * 32 =
            (carry + number * 32) / 256 := by omega
        rw [hdigits, shiftIn, hbyte, ih (number / 256) (Nat.div_lt_self hpos (by decide)), hsum]
        simp only [hlow, hhigh]

/-- The decoder's loop reads the value of the digits. -/
theorem shiftIn_loop (read : List Nat) (bytes : Bytes) :
    bytes.foldlM (fun shifted byte => do
      let digit ← base32Alphabet.findIdx? (· == byte)
      pure (shiftIn digit shifted)) (littleEndian (Numeral.value 32 read)) =
    (bytes.mapM letterIndex).map fun digits =>
      littleEndian (Numeral.value 32 (read ++ digits)) := by
  induction bytes generalizing read with
  | nil => simp
  | cons byte rest ih =>
      rw [List.foldlM_cons, List.mapM_cons, letterIndex]
      cases base32Alphabet.findIdx? (· == byte) with
      | none => rfl
      | some digit =>
          have hnext := ih (read ++ [digit])
          rw [Numeral.value_concat, ← shiftIn_littleEndian] at hnext
          refine hnext.trans ?_
          cases rest.mapM letterIndex with
          | none => rfl
          | some digits => simp

theorem letterIndex_eq_zero_iff {byte : UInt8} {digit : Nat}
    (hindex : letterIndex byte = some digit) :
    base32Alphabet.head? = some byte ↔ digit = 0 := by
  obtain ⟨hsmall, hbyte⟩ := letterIndex_eq_some hindex
  have hletters : ∀ digit < 32,
      base32Alphabet.head? = some (base32Alphabet.getD digit 0) ↔ digit = 0 := by decide +kernel
  rw [← hbyte]
  exact hletters digit hsmall

theorem length_takeWhile_letter {bytes : Bytes} {digits : List Nat}
    (hread : bytes.mapM letterIndex = some digits) :
    (bytes.takeWhile fun byte => base32Alphabet.head? = some byte).length =
      Numeral.leadingZeros digits := by
  induction bytes generalizing digits with
  | nil =>
      obtain rfl : [] = digits := Option.some.inj hread
      rfl
  | cons byte rest ih =>
      rw [List.mapM_cons] at hread
      obtain ⟨digit, hdigit, hrest⟩ := Option.bind_eq_some_iff.mp hread
      obtain ⟨others, hothers, heq⟩ := Option.bind_eq_some_iff.mp hrest
      obtain rfl := Option.some.inj heq
      have hzero := letterIndex_eq_zero_iff hdigit
      rw [Numeral.leadingZeros, List.takeWhile_cons, List.takeWhile_cons]
      by_cases hdigit0 : digit = 0
      · rw [if_pos (decide_eq_true (hzero.mpr hdigit0)), if_pos (decide_eq_true hdigit0),
          List.length_cons, List.length_cons, ih hothers, Numeral.leadingZeros]
      · rw [if_neg (by simpa using fun hhead => hdigit0 (hzero.mp hhead)),
          if_neg (by simpa using hdigit0), List.length_nil, List.length_nil]

/-- Decoding is a change of base. -/
theorem baseXDecodeB32_eq (input : String) :
    baseXDecodeB32 input = ((utf8 input).mapM letterIndex).map fun digits =>
      (Numeral.convert 32 256 digits).map UInt8.ofNat := by
  have hloop := shiftIn_loop [] (utf8 input)
  have hstart : littleEndian (Numeral.value 32 []) = [] := by
    rw [Numeral.value, List.reverse_nil, Nat.ofDigits_nil, littleEndian,
      Nat.digits_zero, List.map_nil]
  rw [hstart] at hloop
  rw [baseXDecodeB32, hloop]
  cases hread : (utf8 input).mapM letterIndex with
  | none => rfl
  | some digits =>
      simp only [Option.map_some, List.nil_append, Option.bind_eq_bind, Option.bind_some,
        Option.pure_def, Option.some.injEq]
      rw [length_takeWhile_letter hread, List.reverse_append, List.reverse_replicate,
        Numeral.convert, List.map_append, List.map_replicate, Numeral.ofNat, List.map_reverse]
      rfl

/-- The big-integer encoding over the base-x alphabet. -/
def baseXEncodeB32 (bytes : Bytes) : String :=
  String.ofList ((Numeral.convert 256 32 (bytes.map UInt8.toNat)).map base32Letter)

theorem utf8_baseXEncodeB32 (bytes : Bytes) :
    utf8 (baseXEncodeB32 bytes) = (Numeral.convert 256 32 (bytes.map UInt8.toNat)).map
      fun digit => base32Alphabet.getD digit 0 :=
  utf8_letters fun _ => Numeral.lt_of_mem_convert (by decide)

/-- A text is decoded to some bytes exactly when it is their encoding. -/
theorem baseXDecodeB32_eq_some_iff {input : String} {bytes : Bytes} :
    baseXDecodeB32 input = some bytes ↔ input = baseXEncodeB32 bytes := by
  have hbytes : ∀ digit ∈ bytes.map UInt8.toNat, digit < 256 := by
    intro digit hdigit
    obtain ⟨byte, -, rfl⟩ := List.mem_map.mp hdigit
    exact byte.toNat_lt
  rw [baseXDecodeB32_eq, Option.map_eq_some_iff]
  constructor
  · rintro ⟨digits, hread, rfl⟩
    obtain ⟨hsmall, htext⟩ := mapM_letterIndex_iff.mp hread
    apply utf8_injective
    have hdigits : ((Numeral.convert 32 256 digits).map UInt8.ofNat).map UInt8.toNat =
        Numeral.convert 32 256 digits := by
      rw [List.map_map]
      refine (List.map_congr_left fun digit hdigit => ?_).trans (List.map_id _)
      have hlt : digit < 256 := Numeral.lt_of_mem_convert (by decide) hdigit
      simp [Nat.mod_eq_of_lt hlt]
    rw [utf8_baseXEncodeB32, hdigits, Numeral.convert_convert (by decide) hsmall, htext]
  · rintro rfl
    refine ⟨Numeral.convert 256 32 (bytes.map UInt8.toNat), mapM_letterIndex_iff.mpr
      ⟨fun _ => Numeral.lt_of_mem_convert (by decide), utf8_baseXEncodeB32 bytes⟩, ?_⟩
    rw [Numeral.convert_convert (by decide) hbytes, List.map_map]
    refine (List.map_congr_left fun byte _ => ?_).trans (List.map_id _)
    simp

/-! ## Legacy identifiers -/

/-- What the payload of an identifier starts with. -/
def legacyHeader : Bytes := [0x01, 0x0c, 0x12, 0x20]

/-- The identifier of a digest. -/
def legacyDeclarationId (digest : Digest) : String :=
  baseXEncodeB32 (legacyHeader ++ digest.toList)

/-- A payload of 36 bytes that starts with a one has 57 letters. -/
theorem length_baseXEncodeB32 {rest : Bytes} (hrest : rest.length = 35) :
    (utf8 (baseXEncodeB32 (0x01 :: rest))).length = 57 := by
  have hsmall : ∀ digit ∈ (rest.map UInt8.toNat).reverse, digit < 256 := by
    intro digit hdigit
    obtain ⟨byte, -, rfl⟩ := List.mem_map.mp (List.mem_reverse.mp hdigit)
    exact byte.toNat_lt
  have htail := Nat.ofDigits_lt_base_pow_length (by decide : 1 < 256) hsmall
  rw [List.length_reverse, List.length_map, hrest] at htail
  have hvalue : Numeral.value 256 ((0x01 :: rest).map UInt8.toNat) =
      Nat.ofDigits 256 (rest.map UInt8.toNat).reverse + 256 ^ 35 := by
    rw [Numeral.value, List.map_cons, Nat.ofDigits_reverse_cons, List.length_map, hrest]
    rfl
  have hzeros : Numeral.leadingZeros ((0x01 :: rest).map UInt8.toNat) = 0 := by
    rw [Numeral.leadingZeros, List.map_cons, List.takeWhile_cons_of_neg (by decide),
      List.length_nil]
  rw [utf8_baseXEncodeB32, List.length_map, Numeral.convert, hzeros, List.replicate_zero,
    List.nil_append, hvalue]
  apply Numeral.length_ofNat_eq (by decide)
  · norm_num
  · refine (Nat.add_lt_add_right htail _).trans ?_
    norm_num

theorem legacyHeader_append (digest : Digest) :
    legacyHeader ++ digest.toList = 0x01 :: ([0x0c, 0x12, 0x20] ++ digest.toList) := rfl

theorem length_legacyDeclarationId (digest : Digest) :
    (utf8 (legacyDeclarationId digest)).length = 57 := by
  rw [legacyDeclarationId, legacyHeader_append]
  apply length_baseXEncodeB32
  simp

theorem legacyDeclarationId_injective : Function.Injective legacyDeclarationId := by
  intro first second hsame
  have hfirst := baseXDecodeB32_eq_some_iff.mpr (rfl : legacyDeclarationId first = _)
  have hsecond := baseXDecodeB32_eq_some_iff.mpr (rfl : legacyDeclarationId second = _)
  rw [hsame, hsecond] at hfirst
  have hlists := List.append_cancel_left (Option.some.inj hfirst)
  exact Vector.toList_inj.mp hlists.symm

/-- The accepted keys of the legacy flavor are the identifiers of the digests. -/
theorem isLegacyDeclarationId_eq_true_iff (key : String) :
    isLegacyDeclarationId key = true ↔ ∃ digest, key = legacyDeclarationId digest := by
  rw [isLegacyDeclarationId]
  constructor
  · intro haccepted
    split at haccepted
    next => cases haccepted
    next =>
      cases hdecode : baseXDecodeB32 key with
      | none => rw [hdecode] at haccepted; cases haccepted
      | some bytes =>
          rw [hdecode] at haccepted
          obtain ⟨hlength, hheader⟩ := of_decide_eq_true haccepted
          have hrest : (bytes.drop 4).toArray.size = 32 := by
            rw [List.size_toArray, List.length_drop, hlength]
          refine ⟨⟨(bytes.drop 4).toArray, hrest⟩, ?_⟩
          rw [baseXDecodeB32_eq_some_iff.mp hdecode, legacyDeclarationId]
          congr 1
          conv_lhs => rw [← List.take_append_drop 4 bytes, hheader]
          rfl
  · rintro ⟨digest, rfl⟩
    have hdecode := baseXDecodeB32_eq_some_iff.mpr (rfl : legacyDeclarationId digest = _)
    rw [if_neg (not_not_intro (length_legacyDeclarationId digest)), hdecode]
    simp [legacyHeader]

/-! ## Machine arithmetic -/

/-- The sum of two 32-bit numbers, if it fits. -/
def addU32 (first second : UInt32) : Option UInt32 :=
  if first.toNat + second.toNat < 2 ^ 32 then some (first + second) else none

/-- The bytes of what is carried out of the last byte, four at most. -/
def pushCarry : Nat → UInt32 → Bytes
  | 0, _ => []
  | fuel + 1, carry =>
      if carry = 0 then [] else (carry &&& 0xff).toUInt8 :: pushCarry fuel (carry >>> 8)

/-- `shiftIn` on a carry of 32 bits, which fails when a sum does not fit. -/
def shiftInU32 (carry : UInt32) : Bytes → Option Bytes
  | [] => some (pushCarry 4 carry)
  | byte :: rest => do
      let total ← addU32 carry (byte.toUInt32 <<< 5)
      let shifted ← shiftInU32 (total >>> 8) rest
      pure ((total &&& 0xff).toUInt8 :: shifted)

/-- The loop of the decoder. It fails at an overflow, and answers `none` at a byte that
is no letter. -/
def shiftAllU32 : Bytes → Bytes → Option (Option Bytes)
  | [], bytes => some (some bytes)
  | char :: rest, bytes =>
      match base32Alphabet.findIdx? (· == char) with
      | none => some none
      | some digit => do
          let shifted ← shiftInU32 (UInt32.ofNat digit) bytes
          shiftAllU32 rest shifted

/-- `baseXDecodeB32` in the arithmetic of the machine. -/
def baseXDecodeU32 (input : String) : Option (Option Bytes) := do
  let decoded ← shiftAllU32 (utf8 input) []
  let leadingZeros := ((utf8 input).takeWhile fun char => base32Alphabet.head? = some char).length
  pure (decoded.map fun littleEndian => (littleEndian ++ List.replicate leadingZeros 0).reverse)

theorem pushCarry_eq {carry : UInt32} (hcarry : carry.toNat < 32) :
    pushCarry 4 carry = (Nat.digits 256 carry.toNat).map UInt8.ofNat := by
  rw [pushCarry]
  split
  next hzero => rw [hzero]; rfl
  next hzero =>
    have hpos : carry.toNat ≠ 0 := fun h => hzero (UInt32.toNat_inj.mp h)
    have hshift : carry >>> 8 = 0 := by
      apply UInt32.toNat_inj.mp
      simp [Nat.shiftRight_eq_div_pow]
      omega
    have hlow : (carry &&& 0xff).toUInt8 = UInt8.ofNat carry.toNat := by
      apply UInt8.toNat_inj.mp
      simp only [UInt32.toNat_toUInt8, UInt32.toNat_and, UInt8.toNat_ofNat']
      rw [show (255 : UInt32).toNat = 2 ^ 8 - 1 from rfl,
        Nat.and_two_pow_sub_one_eq_mod, Nat.mod_mod]
    rw [hshift, hlow, Nat.digits_of_lt 256 carry.toNat hpos (by omega),
      List.map_singleton, pushCarry, if_pos rfl]

/-- A carry stays below 32, so that no sum overflows. -/
theorem shiftInU32_eq {carry : UInt32} (hcarry : carry.toNat < 32) (bytes : Bytes) :
    shiftInU32 carry bytes = some (shiftIn carry.toNat bytes) := by
  induction bytes generalizing carry with
  | nil => rw [shiftInU32, shiftIn, pushCarry_eq hcarry]
  | cons byte rest ih =>
      have hbyte := byte.toNat_lt
      have hproduct : (byte.toUInt32 <<< 5).toNat = byte.toNat * 32 := by
        simp [UInt32.toNat_shiftLeft, Nat.shiftLeft_eq]
        omega
      have hfits : carry.toNat + (byte.toUInt32 <<< 5).toNat < 2 ^ 32 := by omega
      have htotal : (carry + byte.toUInt32 <<< 5).toNat = carry.toNat + byte.toNat * 32 := by
        rw [UInt32.toNat_add, hproduct]
        omega
      have hhigh : ((carry + byte.toUInt32 <<< 5) >>> 8).toNat =
          (carry.toNat + byte.toNat * 32) / 256 := by
        simp [UInt32.toNat_shiftRight, Nat.shiftRight_eq_div_pow, htotal]
      have hlow : ((carry + byte.toUInt32 <<< 5) &&& 0xff).toUInt8 =
          UInt8.ofNat ((carry.toNat + byte.toNat * 32) % 256) := by
        apply UInt8.toNat_inj.mp
        simp only [UInt32.toNat_toUInt8, UInt32.toNat_and, UInt8.toNat_ofNat', htotal]
        rw [show (255 : UInt32).toNat = 2 ^ 8 - 1 from rfl, Nat.and_two_pow_sub_one_eq_mod]
      have hnext : ((carry + byte.toUInt32 <<< 5) >>> 8).toNat < 32 := by omega
      have hrest := ih hnext
      rw [shiftInU32, addU32, if_pos hfits, Option.bind_eq_bind, Option.bind_some, hrest, hhigh]
      simp only [Option.pure_def, shiftIn, hlow]
      rfl

theorem shiftAllU32_eq (chars bytes : Bytes) :
    shiftAllU32 chars bytes = some (chars.foldlM (fun shifted char => do
      let digit ← base32Alphabet.findIdx? (· == char)
      pure (shiftIn digit shifted)) bytes) := by
  induction chars generalizing bytes with
  | nil => rfl
  | cons char rest ih =>
      rw [shiftAllU32, List.foldlM_cons]
      cases hindex : base32Alphabet.findIdx? (· == char) with
      | none => rfl
      | some digit =>
          have hsmall := (letterIndex_eq_some hindex).1
          have hdigit : (UInt32.ofNat digit).toNat = digit := by
            rw [UInt32.toNat_ofNat', Nat.mod_eq_of_lt (by omega)]
          have hcarry : (UInt32.ofNat digit).toNat < 32 := by omega
          have hshift := shiftInU32_eq hcarry bytes
          rw [hdigit] at hshift
          simp only [hshift, Option.bind_eq_bind, Option.bind_some, Option.pure_def, ih]

/-- The decoder never overflows. -/
theorem baseXDecodeU32_eq (input : String) :
    baseXDecodeU32 input = some (baseXDecodeB32 input) := by
  rw [baseXDecodeU32, shiftAllU32_eq, baseXDecodeB32]
  cases (utf8 input).foldlM (fun shifted char => do
      let digit ← base32Alphabet.findIdx? (· == char)
      pure (shiftIn digit shifted)) ([] : Bytes) with
  | none => rfl
  | some bytes => rfl

/-- The legacy grammar is accepted exactly: an accepted key is the identifier of a digest,
every digest has one identifier, which has the required length, and no sum in the decoder
overflows. -/
theorem isLegacyDeclarationId_exact :
    (∀ key : String, isLegacyDeclarationId key = true ↔
      ∃ digest, key = legacyDeclarationId digest) ∧
    Function.Injective legacyDeclarationId ∧
    (∀ digest, (utf8 (legacyDeclarationId digest)).length = 57) ∧
    ∀ input : String, baseXDecodeU32 input = some (baseXDecodeB32 input) :=
  ⟨isLegacyDeclarationId_eq_true_iff, legacyDeclarationId_injective, length_legacyDeclarationId,
    baseXDecodeU32_eq⟩

end Registry

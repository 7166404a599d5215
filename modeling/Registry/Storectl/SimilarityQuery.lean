import Registry.Core.IsccText

/-! # The query of a similarity search

The client takes a content code as an ISCC or in hexadecimal, and looks at the text to
tell them apart. A bare unit has as many characters as a code has hexadecimal digits, and
some of the base32 symbols are such digits.
-/

namespace Registry

inductive IntErrorKind
  | empty
  | invalidDigit
  | posOverflow
  deriving DecidableEq, Repr

def IntErrorKind.message : IntErrorKind → String
  | .empty => "cannot parse integer from empty string"
  | .invalidDigit => "invalid digit found in string"
  | .posOverflow => "number too large to fit in target type"

def IsccError.message : IsccError → String
  | .empty => "empty ISCC string"
  | .base32 message => s!"invalid base32 encoding: {message}"
  | .tooShort => "ISCC too short to contain a header and body"
  | .unsupportedMainType mainType =>
      s!"unsupported ISCC MainType {mainType} (need CONTENT or a standard composite ISCC-CODE)"
  | .unexpectedBodyLength length => s!"unexpected body length {length} for the declared type"

/-- The value of a hexadecimal digit of either case. -/
def hexDigit (char : Char) : Option Nat :=
  if '0' ≤ char ∧ char ≤ '9' then some (char.toNat - 48)
  else if 'a' ≤ char ∧ char ≤ 'f' then some (char.toNat - 87)
  else if 'A' ≤ char ∧ char ≤ 'F' then some (char.toNat - 55)
  else none

def isAsciiHexdigit (char : Char) : Bool := (hexDigit char).isSome

/-- Read digits behind those that gave a value. -/
def readHex : Nat → List Char → Except IntErrorKind UInt64
  | value, [] => .ok (UInt64.ofNat value)
  | value, char :: rest =>
      match hexDigit char with
      | none => .error .invalidDigit
      | some digit =>
          if 2 ^ 64 ≤ value * 16 + digit then .error .posOverflow
          else readHex (value * 16 + digit) rest

def u64FromStrRadix16 (text : List Char) : Except IntErrorKind UInt64 :=
  if text = [] then .error .empty
  else if text = ['+'] ∨ text = ['-'] then .error .invalidDigit
  else readHex 0 (if text.head? = some '+' then text.tail else text)

def hexCode (text : String) (digits : List Char) : Except String UInt64 :=
  match u64FromStrRadix16 digits with
  | .ok code => .ok code
  | .error kind =>
      let message := kind.message
      .error s!"invalid hex content code '{text}': {message}"

/-- The content code of a query: hexadecimal behind `0x`, or as 16 digits, or an ISCC. -/
def parseSimilarityQuery (lib : Libraries) (raw : String) : Except String UInt64 :=
  let trimmed := trim raw.toList
  let text := String.ofList trimmed
  match ("0x".toList.isPrefixOf? trimmed).or ("0X".toList.isPrefixOf? trimmed) with
  | some hex => hexCode text hex
  | none =>
      if (utf8 text).length = 16 ∧ trimmed.all isAsciiHexdigit then hexCode text trimmed
      else
        match lib.decodeContentCode text with
        | .ok code => .ok code
        | .error error =>
            let message := error.message
            .error s!"could not decode '{text}' as an ISCC or hex content code: {message}"

/-! ## Hexadecimal digits -/

/-- The number that hexadecimal digits spell. -/
def hexValue (digits : List Char) : Option Nat := (digits.mapM hexDigit).map (Numeral.value 16)

theorem hexDigit_lt {char : Char} {digit : Nat} (hdigit : hexDigit char = some digit) :
    digit < 16 := by
  have hbounds : '9'.val.toNat = 57 ∧ 'f'.val.toNat = 102 ∧ 'F'.val.toNat = 70 := by decide
  simp only [hexDigit, Char.le_def, UInt32.le_iff_toNat_le, Char.toNat] at hdigit
  split at hdigit
  next hdecimal =>
    have hvalue := Option.some.inj hdigit
    omega
  next =>
    split at hdigit
    next hlower =>
      have hvalue := Option.some.inj hdigit
      omega
    next =>
      obtain ⟨hupper, hvalue⟩ := Option.ite_none_right_eq_some.mp hdigit
      have hvalue := Option.some.inj hvalue
      omega

/-- White space is no digit. -/
theorem hexDigit_of_trimmed {char : Char} (hspace : isTrimmed char) : hexDigit char = none := by
  simp only [isTrimmed, decide_eq_true_eq, Char.toNat] at hspace
  have hbounds : '0'.val.toNat = 48 ∧ '9'.val.toNat = 57 ∧ 'a'.val.toNat = 97 ∧
      'f'.val.toNat = 102 ∧ 'A'.val.toNat = 65 ∧ 'F'.val.toNat = 70 := by decide
  rw [hexDigit, if_neg, if_neg, if_neg]
  all_goals
    rintro ⟨hlow, hhigh⟩
    rw [Char.le_def, UInt32.le_iff_toNat_le] at hlow hhigh
    omega

theorem mapM_hexDigit_lt {chars : List Char} {digits : List Nat}
    (hread : chars.mapM hexDigit = some digits) : ∀ digit ∈ digits, digit < 16 := by
  intro digit hdigit
  obtain ⟨char, -, hchar⟩ := Numeral.exists_read_of_mapM hread hdigit
  exact hexDigit_lt hchar

/-- Digits whose number fits are read as that number. -/
theorem readHex_eq {chars : List Char} {digits : List Nat}
    (hread : chars.mapM hexDigit = some digits)
    (value : Nat) (hfits : value * 16 ^ digits.length + Numeral.value 16 digits < 2 ^ 64) :
    readHex value chars =
      .ok (UInt64.ofNat (value * 16 ^ digits.length + Numeral.value 16 digits)) := by
  induction chars generalizing digits value with
  | nil =>
      obtain rfl : [] = digits := Option.some.inj hread
      simp [readHex, Numeral.value]
  | cons char rest ih =>
      rw [List.mapM_cons] at hread
      obtain ⟨digit, hdigit, hrest⟩ := Option.bind_eq_some_iff.mp hread
      obtain ⟨others, hothers, heq⟩ := Option.bind_eq_some_iff.mp hrest
      obtain rfl := Option.some.inj heq
      have hsum : value * 16 ^ (digit :: others).length + Numeral.value 16 (digit :: others) =
          (value * 16 + digit) * 16 ^ others.length + Numeral.value 16 others := by
        rw [Numeral.value_cons, List.length_cons, Nat.pow_succ]
        ring
      rw [hsum] at hfits ⊢
      have hstep : value * 16 + digit < 2 ^ 64 := by
        have hpos : 1 ≤ 16 ^ others.length :=
          Nat.one_le_two_pow.trans (Nat.pow_le_pow_left (by decide) _)
        have hle := Nat.le_mul_of_pos_right (value * 16 + digit) hpos
        omega
      rw [readHex, hdigit]
      simp only [not_le.mpr hstep, ↓reduceIte]
      exact ih hothers (value * 16 + digit) hfits

theorem isAsciiHexdigit_of_mapM {chars : List Char} {digits : List Nat}
    (hread : chars.mapM hexDigit = some digits) : ∀ char ∈ chars, isAsciiHexdigit char := by
  intro char hchar
  obtain ⟨digit, -, hdigit⟩ := Numeral.exists_of_mapM hread hchar
  rw [isAsciiHexdigit, hdigit, Option.isSome_some]

theorem exists_mapM_hexDigit {chars : List Char} (hchars : ∀ char ∈ chars, isAsciiHexdigit char) :
    ∃ digits, chars.mapM hexDigit = some digits := by
  induction chars with
  | nil => exact ⟨[], rfl⟩
  | cons char rest ih =>
      obtain ⟨hchar, hrest⟩ := List.forall_mem_cons.mp hchars
      obtain ⟨digit, hdigit⟩ := Option.isSome_iff_exists.mp hchar
      obtain ⟨others, hothers⟩ := ih hrest
      refine ⟨digit :: others, ?_⟩
      rw [List.mapM_cons, hdigit, hothers]
      rfl

theorem not_trimmed_hexdigit {char : Char} (hchar : isAsciiHexdigit char) : ¬ isTrimmed char := by
  intro hspace
  rw [isAsciiHexdigit, hexDigit_of_trimmed hspace] at hchar
  cases hchar

/-- Digits of a code, if there are any, are read as the code. -/
theorem u64FromStrRadix16_eq {chars : List Char} {code : UInt64} (hsome : chars ≠ [])
    (hvalue : hexValue chars = some code.toNat) : u64FromStrRadix16 chars = .ok code := by
  obtain ⟨digits, hread, hdigits⟩ := Option.map_eq_some_iff.mp hvalue
  have hhex := isAsciiHexdigit_of_mapM hread
  have hsign : ∀ sign : Char, ¬ isAsciiHexdigit sign → chars.head? ≠ some sign := by
    intro sign hno hhead
    exact hno (hhex sign (List.mem_of_head? hhead))
  have hplus := hsign '+' (by decide)
  have hminus := hsign '-' (by decide)
  rw [u64FromStrRadix16, if_neg hsome, if_neg, if_neg hplus, readHex_eq hread 0]
  · rw [Nat.zero_mul, Nat.zero_add, hdigits, UInt64.ofNat_toNat]
  · rw [Nat.zero_mul, Nat.zero_add, hdigits]
    exact code.toNat_lt
  · rintro (rfl | rfl)
    · exact hplus rfl
    · exact hminus rfl

/-! ## Units that are read in hexadecimal -/

/-- The client reads a code however it is written. -/
structure ReadsUnit (lib : Libraries) (base32Encode : Bytes → String) (code : UInt64)
    (subtype : UInt8) : Prop where
  unit : parseSimilarityQuery lib (encodeContentCodeUnit base32Encode code subtype) = .ok code
  bare : parseSimilarityQuery lib (base32Encode (unitBytes code subtype)) = .ok code
  hex : ∀ digits : List Char, digits ≠ [] → hexValue digits = some code.toNat →
    parseSimilarityQuery lib ("0x" ++ String.ofList digits) = .ok code

section Reading

variable {lib : Libraries} {base32Encode : Bytes → String} {code : UInt64} {subtype : UInt8}

/-- Hexadecimal behind its prefix is read as the number that it spells. -/
theorem parseSimilarityQuery_hex {digits : List Char} (hsome : digits ≠ [])
    (hvalue : hexValue digits = some code.toNat) :
    parseSimilarityQuery lib ("0x" ++ String.ofList digits) = .ok code := by
  obtain ⟨values, hread, -⟩ := Option.map_eq_some_iff.mp hvalue
  have htext : ("0x" ++ String.ofList digits).toList = "0x".toList ++ digits := by
    rw [String.toList_append, String.toList_ofList (l := digits)]
  have htrim : trim ("0x" ++ String.ofList digits).toList = "0x".toList ++ digits := by
    rw [htext]
    apply trim_of_not_trimmed
    intro char hchar
    rcases List.mem_append.mp hchar with hprefix | hdigit
    · have hplain : "0x".toList.all fun char => !isTrimmed char := by decide
      simpa using List.all_eq_true.mp hplain char hprefix
    · exact not_trimmed_hexdigit (isAsciiHexdigit_of_mapM hread char hdigit)
  have hprefix : "0x".toList.isPrefixOf? ("0x".toList ++ digits) = some digits :=
    List.isPrefixOf?_eq_some_iff_append_eq.mpr rfl
  simp only [parseSimilarityQuery, htrim, hprefix, Option.some_or, hexCode,
    u64FromStrRadix16_eq hsome hvalue]

/-- Text that starts with no zero has no prefix. -/
theorem isPrefixOf?_of_head_ne_zero {text : List Char} (hzero : text.head? ≠ some '0')
    {mark : Char} : (String.ofList ['0', mark]).toList.isPrefixOf? text = none := by
  rw [String.toList_ofList, Option.eq_none_iff_forall_ne_some]
  intro others hothers
  apply hzero
  rw [← List.isPrefixOf?_eq_some_iff_append_eq.mp hothers]
  rfl

/-- A query that starts with no zero and is not all digits is decoded as an ISCC. -/
theorem parseSimilarityQuery_iscc {text : String} (htrim : trim text.toList = text.toList)
    (hzero : text.toList.head? ≠ some '0') (hother : ¬ text.toList.all isAsciiHexdigit)
    (hdecode : lib.decodeContentCode text = .ok code) :
    parseSimilarityQuery lib text = .ok code := by
  simp only [parseSimilarityQuery, htrim, isPrefixOf?_of_head_ne_zero hzero, Option.or_none,
    String.ofList_toList, hdecode, hother, and_false,
    Bool.false_eq_true, ↓reduceIte]

variable (hbase : Base32Nopad lib base32Encode)

include hbase

theorem map_uppercase_unit : (base32Encode (unitBytes code subtype)).toList.map toAsciiUppercase =
    (base32Encode (unitBytes code subtype)).toList := by
  have hsymbols : Base32.alphabet.all fun char => toAsciiUppercase char = char := by decide +kernel
  refine (List.map_congr_left fun char hchar => ?_).trans (List.map_id _)
  simpa using List.all_eq_true.mp hsymbols char (mem_alphabet_of_mem_unit hbase hchar)

theorem rest_spelled_unit : Registry.scheme ++
    (base32Encode (unitBytes code subtype)).toList.map toAsciiUppercase =
      (encodeContentCodeUnit base32Encode code subtype).toList := by
  rw [map_uppercase_unit hbase, encodeContentCodeUnit, String.toList_append]
  rfl

omit hbase in
theorem scheme_spelled_unit {scheme : List Char} (hscheme : scheme = [] ∨ scheme = "ISCC:".toList) :
    scheme = [] ∨ scheme.map toAsciiUppercase = Registry.scheme := by
  rcases hscheme with hnone | hsome
  · exact Or.inl hnone
  · rw [hsome]
    exact Or.inr (by decide)

omit hbase in
theorem nil_space : ∀ char ∈ ([] : List Char), isTrimmed char := List.forall_mem_nil _

/-- The unit as it is written. -/
def writtenUnit (scheme : List Char) (hscheme : scheme = [] ∨ scheme = "ISCC:".toList) :
    Spelling (encodeContentCodeUnit base32Encode code subtype) where
  before := []
  scheme := scheme
  rest := (base32Encode (unitBytes code subtype)).toList
  after := []
  before_space := nil_space
  scheme_spelled := scheme_spelled_unit hscheme
  rest_spelled := rest_spelled_unit hbase
  after_space := nil_space

theorem trim_unit : trim (encodeContentCodeUnit base32Encode code subtype).toList =
    (encodeContentCodeUnit base32Encode code subtype).toList := by
  have htrim := (writtenUnit hbase "ISCC:".toList (Or.inr rfl) :
    Spelling (encodeContentCodeUnit base32Encode code subtype)).trim_text hbase
  rw [Spelling.text, String.toList_ofList] at htrim
  rw [encodeContentCodeUnit, String.toList_append]
  simpa [writtenUnit] using htrim

theorem trim_bare : trim (base32Encode (unitBytes code subtype)).toList =
    (base32Encode (unitBytes code subtype)).toList :=
  trim_of_not_trimmed fun _ hchar => not_trimmed_symbol (mem_alphabet_of_mem_unit hbase hchar)

theorem decode_bare : lib.decodeContentCode (base32Encode (unitBytes code subtype)) = .ok code := by
  have hdecode := (writtenUnit hbase [] (Or.inl rfl) :
    Spelling (encodeContentCodeUnit base32Encode code subtype)).decode_of_plain hbase (Or.inl rfl)
  simpa [Spelling.text, writtenUnit] using hdecode

theorem parseSimilarityQuery_unit :
    parseSimilarityQuery lib (encodeContentCodeUnit base32Encode code subtype) = .ok code := by
  have hstart : (encodeContentCodeUnit base32Encode code subtype).toList =
      'I' :: ("SCC:".toList ++ (base32Encode (unitBytes code subtype)).toList) := by
    rw [encodeContentCodeUnit, String.toList_append]
    rfl
  have hdecode := (writtenUnit hbase "ISCC:".toList (Or.inr rfl) :
    Spelling (encodeContentCodeUnit base32Encode code subtype)).decode_of_plain hbase
      (Or.inr (Or.inl rfl))
  have htext : (writtenUnit hbase "ISCC:".toList (Or.inr rfl) :
      Spelling (encodeContentCodeUnit base32Encode code subtype)).text =
        encodeContentCodeUnit base32Encode code subtype := by
    rw [← String.toList_inj, Spelling.text, String.toList_ofList]
    conv_rhs => rw [encodeContentCodeUnit, String.toList_append]
    simp [writtenUnit]
  rw [htext] at hdecode
  refine parseSimilarityQuery_iscc (trim_unit hbase) ?_ ?_ hdecode
  · rw [hstart, List.head?_cons]
    decide
  · rw [hstart, List.all_cons, show isAsciiHexdigit 'I' = false from by decide, Bool.false_and]
    decide

theorem zero_notMem_bare : (base32Encode (unitBytes code subtype)).toList.head? ≠ some '0' := by
  intro hhead
  exact absurd (mem_alphabet_of_mem_unit hbase (List.mem_of_head? hhead)) (by decide +kernel)

theorem parseSimilarityQuery_bare
    (hother : ¬ (base32Encode (unitBytes code subtype)).toList.all isAsciiHexdigit) :
    parseSimilarityQuery lib (base32Encode (unitBytes code subtype)) = .ok code :=
  parseSimilarityQuery_iscc (trim_bare hbase) (zero_notMem_bare hbase) hother (decode_bare hbase)

omit hbase in
theorem number_unitBytes (code : UInt64) (subtype : UInt8) :
    ∃ header, Base32.number (unitBytes code subtype) =
      (header * 256 + 1) * 2 ^ 64 + code.toNat := by
  refine ⟨((mainTypeContent <<< 4) ||| (subtype &&& 0x0f)).toNat, ?_⟩
  have hcode : Numeral.value 256 ((toBigEndian code).map UInt8.toNat) = code.toNat :=
    number_toBigEndian code
  rw [Base32.number, unitBytes, List.map_cons, List.map_cons, Numeral.value_cons,
    Numeral.value_cons, hcode, List.length_cons, List.length_map, length_toBigEndian,
    show (1 : UInt8).toNat = 1 from rfl]
  ring

/-- A unit of hexadecimal digits does not spell its own code: the third symbol is always
an `A`, and a code with that digit at the third place has a sixth symbol from `I` to `L`. -/
theorem hexValue_bare_ne (hhex : ∀ char ∈ (base32Encode (unitBytes code subtype)).toList,
    isAsciiHexdigit char) :
    ∃ value < 2 ^ 64, hexValue (base32Encode (unitBytes code subtype)).toList = some value ∧
      value ≠ code.toNat := by
  obtain ⟨digits, hread⟩ := exists_mapM_hexDigit hhex
  rw [toList_unit hbase] at hread
  obtain ⟨header, hnumber⟩ := number_unitBytes code subtype
  have hcode := code.toNat_lt
  have hplace : ∀ place < 16, digits[place]? =
      hexDigit
        (Base32.symbol (Base32.number (unitBytes code subtype) / 32 ^ (15 - place) % 32)) := by
    intro place hplace
    rw [Numeral.getElem?_of_mapM hread, List.getElem?_map, Numeral.getElem?_fixed hplace]
    rfl
  have hlength : digits.length = 16 := by
    rw [Numeral.length_of_mapM hread, List.length_map, Numeral.length_fixed]
  have hsmall := mapM_hexDigit_lt hread
  have hbound : Numeral.value 16 digits < 2 ^ 64 := by
    have hlt := Numeral.value_lt (by decide) hsmall
    rw [hlength] at hlt
    exact hlt.trans_le (by decide)
  refine ⟨Numeral.value 16 digits, hbound, ?_, fun hsame => ?_⟩
  · rw [hexValue, toList_unit hbase, hread, Option.map_some]
  · have hwhole := Numeral.fixed_value (by decide) hsmall
    rw [hlength] at hwhole
    have hown : ∀ place < 16, digits[place]? = some (code.toNat / 16 ^ (15 - place) % 16) := by
      intro place hplace
      have hfixed : (Numeral.fixed 16 16 (Numeral.value 16 digits))[place]? =
          some (Numeral.value 16 digits / 16 ^ (15 - place) % 16) :=
        Numeral.getElem?_fixed hplace _
      rw [hwhole, hsame] at hfixed
      exact hfixed
    have hthird := (hplace 2 (by decide)).symm.trans (hown 2 (by decide))
    have hzero : Base32.number (unitBytes code subtype) / 32 ^ (15 - 2) % 32 = 0 := by
      rw [hnumber]
      norm_num
      omega
    rw [hzero, show hexDigit (Base32.symbol 0) = some 10 from by decide +kernel,
      Option.some.injEq] at hthird
    have hsixth := (hplace 5 (by decide)).symm.trans (hown 5 (by decide))
    have hrange : 8 ≤ Base32.number (unitBytes code subtype) / 32 ^ (15 - 5) % 32 ∧
        Base32.number (unitBytes code subtype) / 32 ^ (15 - 5) % 32 < 12 := by
      rw [hnumber]
      norm_num at hthird ⊢
      omega
    have hletters : ∀ digit < 12, 8 ≤ digit → hexDigit (Base32.symbol digit) = none := by
      decide +kernel
    rw [hletters _ hrange.2 hrange.1] at hsixth
    cases hsixth

/-- A symbol is one byte. -/
theorem length_utf8_bare :
    (utf8 (base32Encode (unitBytes code subtype))).length = 16 := by
  have hsymbol : ∀ digit < 32, (String.utf8EncodeChar (Base32.symbol digit)).length = 1 := by
    decide +kernel
  have hbytes : ∀ digits : List Nat, (∀ digit ∈ digits, digit < 32) →
      ((digits.map Base32.symbol).flatMap String.utf8EncodeChar).length = digits.length := by
    intro digits hdigits
    rw [List.length_flatMap, List.map_map]
    have hones : digits.map ((fun char => (String.utf8EncodeChar char).length) ∘ Base32.symbol) =
        digits.map fun _ => 1 :=
      List.map_congr_left fun digit hdigit => hsymbol digit (hdigits digit hdigit)
    rw [hones]
    simp
  rw [← String.ofList_toList (s := base32Encode (unitBytes code subtype)), toList_unit hbase,
    utf8_ofList, hbytes _ fun _ => Numeral.lt_of_mem_fixed (by decide), Numeral.length_fixed]

/-- A unit that is all hexadecimal digits is read as these digits. -/
theorem parseSimilarityQuery_digits
    (hhex : ∀ char ∈ (base32Encode (unitBytes code subtype)).toList, isAsciiHexdigit char)
    {found : UInt64}
    (hread : u64FromStrRadix16 (base32Encode (unitBytes code subtype)).toList = .ok found) :
    parseSimilarityQuery lib (base32Encode (unitBytes code subtype)) = .ok found := by
  have hall : (base32Encode (unitBytes code subtype)).toList.all isAsciiHexdigit :=
    List.all_eq_true.mpr hhex
  simp only [parseSimilarityQuery, trim_bare hbase,
    isPrefixOf?_of_head_ne_zero (zero_notMem_bare hbase), Option.or_none, String.ofList_toList,
    length_utf8_bare hbase, hall, and_self, ↓reduceIte, hexCode, hread]

/-- A code is read however it is written exactly when its bare unit is not made of
hexadecimal digits only. -/
theorem readsUnit_iff (code : UInt64) (subtype : UInt8) :
    ReadsUnit lib base32Encode code subtype ↔
      ∃ char ∈ (base32Encode (unitBytes code subtype)).toList, ¬ isAsciiHexdigit char := by
  constructor
  · intro hreads
    by_contra hnone
    have hhex : ∀ char ∈ (base32Encode (unitBytes code subtype)).toList, isAsciiHexdigit char := by
      intro char hchar
      by_contra hother
      exact hnone ⟨char, hchar, hother⟩
    obtain ⟨value, hbound, hvalue, hne⟩ := hexValue_bare_ne hbase hhex
    have hnat : (UInt64.ofNat value).toNat = value := by
      rw [UInt64.toNat_ofNat', Nat.mod_eq_of_lt hbound]
    have hlength : (base32Encode (unitBytes code subtype)).toList.length = 16 := by
      rw [toList_unit hbase, List.length_map, Numeral.length_fixed]
    have hsome : (base32Encode (unitBytes code subtype)).toList ≠ [] := by
      intro hnil
      rw [hnil] at hlength
      cases hlength
    rw [← hnat] at hvalue
    have hread := u64FromStrRadix16_eq hsome hvalue
    have hbare := hreads.bare
    rw [parseSimilarityQuery_digits hbase hhex hread] at hbare
    exact hne (hnat ▸ congrArg UInt64.toNat (Except.ok.inj hbare))
  · rintro ⟨char, hchar, hother⟩
    refine ⟨parseSimilarityQuery_unit hbase, parseSimilarityQuery_bare hbase ?_,
      fun digits => parseSimilarityQuery_hex⟩
    rw [List.all_eq_true]
    exact fun hall => hother (hall char hchar)

end Reading

/-- A code whose unit has another character than hexadecimal digits: `EAAQAAAAAAAAAAAA`. -/
theorem readsUnit_iff_sample : ReadsUnit Sample.base32Lib Sample.base32Encode 0 0 :=
  (readsUnit_iff Sample.base32Lib_nopad 0 0).mpr
    ⟨'Q', by decide +kernel, by decide⟩

/-- The unit of the code `0xA000000000000000` is `EAA2AAAAAAAAAAAA`. -/
theorem readsUnit_digits_only :
    Base32Nopad Sample.base32Lib Sample.base32Encode ∧
      Sample.base32Encode (unitBytes 0xA000000000000000 0) = "EAA2AAAAAAAAAAAA" ∧
      parseSimilarityQuery Sample.base32Lib "EAA2AAAAAAAAAAAA" = .ok 0xEAA2AAAAAAAAAAAA ∧
      ¬ ReadsUnit Sample.base32Lib Sample.base32Encode 0xA000000000000000 0 := by
  have hunit : Sample.base32Encode (unitBytes 0xA000000000000000 0) = "EAA2AAAAAAAAAAAA" := by
    decide +kernel
  have hread : parseSimilarityQuery Sample.base32Lib "EAA2AAAAAAAAAAAA" =
      .ok 0xEAA2AAAAAAAAAAAA := by
    decide +kernel
  refine ⟨Sample.base32Lib_nopad, hunit, hread, fun hreads => ?_⟩
  have hbare := hreads.bare
  rw [hunit, hread] at hbare
  exact absurd (Except.ok.inj hbare) (by decide)

end Registry

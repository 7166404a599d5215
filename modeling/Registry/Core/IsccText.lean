import Registry.Core.Iscc
import Registry.Core.Tabulated
import Registry.Text.Base32

/-! # Content-code units as texts

A content code is written as a unit: a header of two bytes and the code, in base32 behind
a scheme. The decoder drops white space around the text and the scheme, and raises the
letters of the rest. It knows the scheme in upper or lower case only, so that a scheme of
both cases is left in the text.
-/

namespace Registry

/-- What the base32 library does: to encode is to write five bits a symbol, to decode
inverts that, and only symbols are decoded. -/
structure Base32Nopad (lib : Libraries) (base32Encode : Bytes → String) : Prop where
  decode_encode : ∀ bytes, lib.base32Decode (utf8 (base32Encode bytes)) = .ok bytes
  encode_groups : ∀ bytes : Bytes, 5 ∣ bytes.length → (base32Encode bytes).toList =
    (Numeral.fixed 32 (bytes.length / 5 * 8) (Base32.number bytes)).map Base32.symbol
  decode_symbols : ∀ text bytes, lib.base32Decode text = .ok bytes →
    ∀ byte ∈ text, Char.ofNat byte.toNat ∈ Base32.alphabet

/-- The eight bytes of a code, the most significant first. -/
def toBigEndian (code : UInt64) : Bytes :=
  (List.range 8).map fun place => (code >>> UInt64.ofNat (56 - 8 * place)).toUInt8

/-- The header and the code of a unit. -/
def unitBytes (code : UInt64) (subtype : UInt8) : Bytes :=
  ((mainTypeContent <<< 4) ||| (subtype &&& 0x0f)) :: 0x01 :: toBigEndian code

def encodeContentCodeUnit (base32Encode : Bytes → String) (code : UInt64)
    (subtype : UInt8) : String :=
  "ISCC:" ++ base32Encode (unitBytes code subtype)

/-! ## Codes as bytes -/

theorem length_toBigEndian (code : UInt64) : (toBigEndian code).length = 8 := by
  rw [toBigEndian, List.length_map, List.length_range]

/-- The bytes of a code are its digits in base 256. -/
theorem map_toNat_toBigEndian (code : UInt64) :
    (toBigEndian code).map UInt8.toNat = Numeral.fixed 256 8 code.toNat := by
  apply List.ext_getElem?
  intro place
  by_cases hplace : place < 8
  · have hshift : 56 - 8 * place = 8 * (8 - 1 - place) := by omega
    have hsmall : 8 * (8 - 1 - place) < 64 := by omega
    have hamount : (UInt64.ofNat (8 * (8 - 1 - place))).toNat % 64 = 8 * (8 - 1 - place) := by
      rw [UInt64.toNat_ofNat']
      omega
    rw [Numeral.getElem?_fixed hplace, toBigEndian, List.map_map, List.getElem?_map,
      List.getElem?_range hplace, Option.map_some, Function.comp_apply, hshift]
    simp only [UInt64.toNat_toUInt8, UInt64.toNat_shiftRight, hamount, Nat.shiftRight_eq_div_pow,
      Nat.pow_mul]
  · rw [List.getElem?_eq_none (by rw [List.length_map, length_toBigEndian]; omega),
      List.getElem?_eq_none (by rw [Numeral.length_fixed]; omega)]

theorem number_toBigEndian (code : UInt64) : Base32.number (toBigEndian code) = code.toNat := by
  rw [Base32.number, map_toNat_toBigEndian, Numeral.value_fixed]
  exact Nat.mod_eq_of_lt code.toNat_lt

theorem toNat_fromBigEndian (bytes : Bytes) :
    (fromBigEndian bytes).toNat = Base32.number bytes % 2 ^ 64 := by
  induction bytes using List.reverseRecOn with
  | nil => rfl
  | append_singleton bytes byte ih =>
      rw [fromBigEndian, List.foldl_append, List.foldl_cons, List.foldl_nil, ← fromBigEndian,
        Base32.number, List.map_append, List.map_singleton, Numeral.value_concat, ← Base32.number,
        UInt64.toNat_add, UInt64.toNat_mul, ih, UInt8.toNat_toUInt64, Nat.mod_add_mod,
        Nat.add_comm, show (256 : UInt64).toNat = 256 from rfl, Nat.add_mod,
        Nat.mod_mul_mod, ← Nat.add_mod]

theorem fromBigEndian_toBigEndian (code : UInt64) : fromBigEndian (toBigEndian code) = code := by
  apply UInt64.toNat_inj.mp
  rw [toNat_fromBigEndian, number_toBigEndian, Nat.mod_eq_of_lt code.toNat_lt]

theorem mainType_unit (subtype : UInt8) :
    ((mainTypeContent <<< 4) ||| (subtype &&& 0x0f)) >>> 4 = mainTypeContent := by
  have hall : ∀ bits : BitVec 8,
      ((mainTypeContent <<< 4) ||| (⟨bits⟩ &&& 0x0f : UInt8)) >>> 4 = mainTypeContent := by
    decide +kernel
  exact hall subtype.toBitVec

/-- The bytes of a unit are decoded to its code. -/
theorem decodeContentCode_of_normalized {lib : Libraries} {code : UInt64} {subtype : UInt8}
    {text : String} (hsome : trim text.toList ≠ [])
    (hdecode : lib.base32Decode (utf8 (String.ofList
      ((trim (stripScheme (trim text.toList))).map toAsciiUppercase))) =
        .ok (unitBytes code subtype)) :
    lib.decodeContentCode text = .ok code := by
  have hlength : ¬(toBigEndian code).length < 8 := by
    rw [length_toBigEndian]
    exact lt_irrefl 8
  have htake : (toBigEndian code).take 8 = toBigEndian code :=
    List.take_of_length_le (length_toBigEndian code).le
  simp only [Libraries.decodeContentCode, if_neg hsome, hdecode, unitBytes,
    mainType_unit, ↓reduceIte, if_neg hlength, htake, fromBigEndian_toBigEndian]

/-! ## White space and letters -/

theorem toAsciiUppercase_of_trimmed {char : Char} (hspace : isTrimmed char) :
    toAsciiUppercase char = char := by
  rw [toAsciiUppercase, if_neg]
  rintro ⟨hlow, hhigh⟩
  rw [Char.le_def, UInt32.le_iff_toNat_le] at hlow hhigh
  simp only [isTrimmed, decide_eq_true_eq, Char.toNat] at hspace
  have ha : 'a'.val.toNat = 97 := rfl
  have hz : 'z'.val.toNat = 122 := rfl
  omega

/-- White space is no letter of either case. -/
theorem not_trimmed_of_uppercase {char : Char} (hletter : ¬ isTrimmed (toAsciiUppercase char)) :
    ¬ isTrimmed char := fun hspace =>
  hletter (by rwa [toAsciiUppercase_of_trimmed hspace])

theorem dropWhile_space_append {space core : List Char} (hspace : ∀ char ∈ space, isTrimmed char)
    (hcore : ∀ char ∈ core, ¬ isTrimmed char) (hsome : core ≠ []) (rest : List Char) :
    (space ++ (core ++ rest)).dropWhile isTrimmed = core ++ rest := by
  rw [List.dropWhile_append_of_pos hspace]
  cases core with
  | nil => exact absurd rfl hsome
  | cons char others =>
      rw [List.cons_append, List.dropWhile_cons_of_neg (hcore char List.mem_cons_self)]

/-- White space around a text without any is dropped. -/
theorem trim_spaced {before core after : List Char} (hbefore : ∀ char ∈ before, isTrimmed char)
    (hafter : ∀ char ∈ after, isTrimmed char) (hcore : ∀ char ∈ core, ¬ isTrimmed char)
    (hsome : core ≠ []) : trim (before ++ (core ++ after)) = core := by
  have hreverse : (after.reverse ++ (core.reverse ++ [])).dropWhile isTrimmed =
      core.reverse ++ [] :=
    dropWhile_space_append (fun char hchar => hafter char (List.mem_reverse.mp hchar))
    (fun char hchar => hcore char (List.mem_reverse.mp hchar))
    (fun hnil => hsome (List.reverse_eq_nil_iff.mp hnil)) []
  rw [List.append_nil] at hreverse
  rw [trim, dropWhile_space_append hbefore hcore hsome, List.reverse_append, hreverse,
    List.reverse_reverse]

theorem trim_of_not_trimmed {text : List Char} (htext : ∀ char ∈ text, ¬ isTrimmed char) :
    trim text = text := by
  by_cases hsome : text = []
  · rw [hsome]
    rfl
  · have hspaced : trim ([] ++ (text ++ [])) = text := trim_spaced (by simp) (by simp) htext hsome
    rwa [List.nil_append, List.append_nil] at hspaced

/-! ## Spellings -/

def scheme : List Char := "ISCC:".toList

/-- A text that spells a unit: the scheme may be dropped, letters may have either case,
and white space may stand around it. -/
structure Spelling (unit : String) where
  before : List Char
  scheme : List Char
  rest : List Char
  after : List Char
  before_space : ∀ char ∈ before, isTrimmed char
  scheme_spelled : scheme = [] ∨ scheme.map toAsciiUppercase = Registry.scheme
  rest_spelled : Registry.scheme ++ rest.map toAsciiUppercase = unit.toList
  after_space : ∀ char ∈ after, isTrimmed char

namespace Spelling

variable {unit : String} (spelling : Spelling unit)

def text : String :=
  String.ofList (spelling.before ++ ((spelling.scheme ++ spelling.rest) ++ spelling.after))

/-- The scheme is dropped, or all its letters have one case. -/
def PlainScheme : Prop :=
  spelling.scheme = [] ∨ spelling.scheme = "ISCC:".toList ∨ spelling.scheme = "iscc:".toList

end Spelling

theorem not_trimmed_symbol {char : Char} (hchar : char ∈ Base32.alphabet) : ¬ isTrimmed char := by
  have hall : Base32.alphabet.all fun char => !isTrimmed char := by decide +kernel
  simpa using List.all_eq_true.mp hall char hchar

theorem not_trimmed_scheme {char : Char} (hchar : char ∈ scheme) : ¬ isTrimmed char := by
  have hall : scheme.all fun char => !isTrimmed char := by decide +kernel
  simpa using List.all_eq_true.mp hall char hchar

/-! ## Which spellings are decoded -/

section Decoding

variable {lib : Libraries} {base32Encode : Bytes → String} {code : UInt64} {subtype : UInt8}

theorem length_unitBytes (code : UInt64) (subtype : UInt8) :
    (unitBytes code subtype).length = 10 := by
  rw [unitBytes, List.length_cons, List.length_cons, length_toBigEndian]

/-- The symbols of a unit. -/
theorem toList_unit (hbase : Base32Nopad lib base32Encode) (code : UInt64) (subtype : UInt8) :
    (base32Encode (unitBytes code subtype)).toList =
      (Numeral.fixed 32 16 (Base32.number (unitBytes code subtype))).map Base32.symbol := by
  have hgroups := hbase.encode_groups (unitBytes code subtype)
    (by rw [length_unitBytes]; exact ⟨2, rfl⟩)
  rwa [length_unitBytes] at hgroups

theorem mem_alphabet_of_mem_unit (hbase : Base32Nopad lib base32Encode) {char : Char}
    (hchar : char ∈ (base32Encode (unitBytes code subtype)).toList) : char ∈ Base32.alphabet := by
  rw [toList_unit hbase] at hchar
  obtain ⟨digit, hdigit, rfl⟩ := List.mem_map.mp hchar
  exact Base32.symbol_mem_alphabet digit (Numeral.lt_of_mem_fixed (by decide) hdigit)

theorem stripScheme_of_prefix {text rest : List Char} (hsame : "ISCC:".toList ++ rest = text) :
    stripScheme text = rest := by
  rw [stripScheme, List.isPrefixOf?_eq_some_iff_append_eq.mpr hsame]

/-- Text without a scheme in one case is left as it is. -/
theorem stripScheme_of_not_prefix {text : List Char}
    (hupper : ∀ rest, "ISCC:".toList ++ rest ≠ text)
    (hlower : ∀ rest, "iscc:".toList ++ rest ≠ text) : stripScheme text = text := by
  have hnone : ∀ start : List Char, (∀ rest, start ++ rest ≠ text) →
      start.isPrefixOf? text = none := by
    intro start hstart
    rw [Option.eq_none_iff_forall_ne_some]
    exact fun rest hrest => hstart rest (List.isPrefixOf?_eq_some_iff_append_eq.mp hrest)
  rw [stripScheme, hnone _ hupper, hnone _ hlower]
  rfl

theorem stripScheme_of_lower {text rest : List Char} (hsame : "iscc:".toList ++ rest = text) :
    stripScheme text = rest := by
  have hnone : "ISCC:".toList.isPrefixOf? text = none := by
    rw [Option.eq_none_iff_forall_ne_some]
    intro other hother
    have hboth := (List.isPrefixOf?_eq_some_iff_append_eq.mp hother).trans hsame.symm
    exact absurd (List.cons.inj hboth).1 (by decide)
  rw [stripScheme, hnone, List.isPrefixOf?_eq_some_iff_append_eq.mpr hsame]
  rfl

namespace Spelling

variable (hbase : Base32Nopad lib base32Encode)
  (spelling : Spelling (encodeContentCodeUnit base32Encode code subtype))

theorem map_rest : spelling.rest.map toAsciiUppercase =
    (base32Encode (unitBytes code subtype)).toList := by
  have hspelled : Registry.scheme ++ spelling.rest.map toAsciiUppercase =
      ("ISCC:" ++ base32Encode (unitBytes code subtype)).toList := spelling.rest_spelled
  rw [String.toList_append] at hspelled
  exact List.append_cancel_left hspelled

include hbase

theorem rest_symbol {char : Char} (hchar : char ∈ spelling.rest) :
    toAsciiUppercase char ∈ Base32.alphabet := by
  apply mem_alphabet_of_mem_unit hbase
  rw [← spelling.map_rest]
  exact List.mem_map_of_mem hchar

theorem rest_not_trimmed {char : Char} (hchar : char ∈ spelling.rest) : ¬ isTrimmed char :=
  not_trimmed_of_uppercase (not_trimmed_symbol (spelling.rest_symbol hbase hchar))

theorem colon_notMem_rest : ':' ∉ spelling.rest := fun hcolon =>
  absurd (spelling.rest_symbol hbase hcolon) (by decide +kernel)

theorem rest_ne_nil : spelling.rest ≠ [] := by
  intro hnil
  have hlength := congrArg List.length spelling.map_rest
  rw [hnil, toList_unit hbase, List.map_nil, List.length_nil, List.length_map,
    Numeral.length_fixed] at hlength
  cases hlength

theorem not_trimmed {char : Char} (hchar : char ∈ spelling.scheme ++ spelling.rest) :
    ¬ isTrimmed char := by
  rcases List.mem_append.mp hchar with hscheme | hrest
  · rcases spelling.scheme_spelled with hnone | hspelled
    · rw [hnone] at hscheme
      cases hscheme
    · apply not_trimmed_of_uppercase
      apply not_trimmed_scheme
      rw [← hspelled]
      exact List.mem_map_of_mem hscheme
  · exact spelling.rest_not_trimmed hbase hrest

/-- The text without the white space around it. -/
theorem trim_text : trim spelling.text.toList = spelling.scheme ++ spelling.rest := by
  rw [text, String.toList_ofList]
  refine trim_spaced spelling.before_space spelling.after_space
    (fun char => spelling.not_trimmed hbase) ?_
  exact fun hnil => spelling.rest_ne_nil hbase (List.append_eq_nil_iff.mp hnil).2

theorem stripScheme_plain (hplain : spelling.PlainScheme) :
    stripScheme (spelling.scheme ++ spelling.rest) = spelling.rest := by
  rcases hplain with hnone | hupper | hlower
  · rw [hnone, List.nil_append]
    refine stripScheme_of_not_prefix (fun rest hsame => ?_) fun rest hsame => ?_
    · exact spelling.colon_notMem_rest hbase (hsame ▸ List.mem_append_left _ (by decide))
    · exact spelling.colon_notMem_rest hbase (hsame ▸ List.mem_append_left _ (by decide))
  · rw [hupper]
    exact stripScheme_of_prefix rfl
  · rw [hlower]
    exact stripScheme_of_lower rfl

theorem decode_of_plain (hplain : spelling.PlainScheme) :
    lib.decodeContentCode spelling.text = .ok code := by
  have htrim := spelling.trim_text hbase
  have hrest : trim spelling.rest = spelling.rest := by
    exact trim_of_not_trimmed fun char => spelling.rest_not_trimmed hbase
  have hsome : trim spelling.text.toList ≠ [] := by
    rw [htrim]
    exact fun hnil => spelling.rest_ne_nil hbase (List.append_eq_nil_iff.mp hnil).2
  have hbytes : lib.base32Decode (utf8 (String.ofList
      ((trim (stripScheme (trim spelling.text.toList))).map toAsciiUppercase))) =
        .ok (unitBytes code subtype) := by
    rw [htrim, spelling.stripScheme_plain hbase hplain, hrest, spelling.map_rest,
      String.ofList_toList, hbase.decode_encode]
  exact decodeContentCode_of_normalized hsome hbytes

/-- A scheme of both cases stays in the text, and no text with a colon is decoded. -/
theorem not_decode_of_mixed (hmixed : ¬ spelling.PlainScheme) :
    lib.decodeContentCode spelling.text ≠ .ok code := by
  obtain ⟨hsome, hplain⟩ := not_or.mp hmixed
  obtain ⟨hupper, hlower⟩ := not_or.mp hplain
  have hspelled := spelling.scheme_spelled.resolve_left hsome
  have hlength : spelling.scheme.length = 5 := by
    rw [← List.length_map (f := toAsciiUppercase), hspelled]
    rfl
  have hstrip : stripScheme (spelling.scheme ++ spelling.rest) =
      spelling.scheme ++ spelling.rest := by
    refine stripScheme_of_not_prefix (fun rest hsame => ?_) fun rest hsame => ?_
    · exact hupper (List.append_inj_left hsame hlength.symm).symm
    · exact hlower (List.append_inj_left hsame hlength.symm).symm
  have htrim := spelling.trim_text hbase
  have htwice : trim (spelling.scheme ++ spelling.rest) = spelling.scheme ++ spelling.rest := by
    exact trim_of_not_trimmed fun char => spelling.not_trimmed hbase
  have hcolon : (58 : UInt8) ∈ utf8 (String.ofList
      ((trim (stripScheme (trim spelling.text.toList))).map toAsciiUppercase)) := by
    rw [htrim, hstrip, htwice, List.map_append, hspelled, utf8_ofList, List.flatMap_append]
    exact List.mem_append_left _ (by decide +kernel)
  cases hdecode : lib.base32Decode (utf8 (String.ofList
      ((trim (stripScheme (trim spelling.text.toList))).map toAsciiUppercase))) with
  | ok bytes => exact absurd (hbase.decode_symbols _ bytes hdecode 58 hcolon) (by decide +kernel)
  | error message =>
      have hne : spelling.scheme ++ spelling.rest ≠ [] := fun hnil =>
        hsome (List.append_eq_nil_iff.mp hnil).1
      rw [← htrim] at hne
      simp only [Libraries.decodeContentCode, if_neg hne, hdecode]
      exact nofun

end Spelling

/-- A spelling of a unit is decoded to its code exactly when its scheme is dropped or
written in one case. -/
theorem decodeContentCode_spelling_iff (hbase : Base32Nopad lib base32Encode) (code : UInt64)
    (subtype : UInt8) (spelling : Spelling (encodeContentCodeUnit base32Encode code subtype)) :
    lib.decodeContentCode spelling.text = .ok code ↔ spelling.PlainScheme := by
  constructor
  · intro hdecode
    by_contra hmixed
    exact spelling.not_decode_of_mixed hbase hmixed hdecode
  · exact spelling.decode_of_plain hbase

end Decoding

namespace Sample

def base32Encode (bytes : Bytes) : String := String.ofList (Base32.encode bytes)

/-- Libraries with unpadded base32. -/
def base32Lib : Libraries where
  __ := lib
  base32Decode text :=
    match Base32.decode (text.map fun byte => Char.ofNat byte.toNat) with
    | some bytes => .ok bytes
    | none => .error "invalid symbol"

theorem base32Lib_nopad : Base32Nopad base32Lib base32Encode where
  decode_encode bytes := by
    have hsymbol : ∀ digit < 32, (String.utf8EncodeChar (Base32.symbol digit)).map
        (fun byte => Char.ofNat byte.toNat) = [Base32.symbol digit] := by decide +kernel
    have hsymbols : ∀ digits : List Nat, (∀ digit ∈ digits, digit < 32) →
        ((digits.map Base32.symbol).flatMap String.utf8EncodeChar).map
          (fun byte => Char.ofNat byte.toNat) = digits.map Base32.symbol := by
      intro digits hdigits
      induction digits with
      | nil => rfl
      | cons digit rest ih =>
          rw [List.map_cons, List.flatMap_cons, List.map_append,
            hsymbol digit (hdigits digit List.mem_cons_self),
            ih fun other hother => hdigits other (List.mem_cons_of_mem _ hother)]
          rfl
    have htext : (utf8 (base32Encode bytes)).map (fun byte => Char.ofNat byte.toNat) =
        Base32.encode bytes := by
      rw [base32Encode, utf8_ofList]
      exact hsymbols _ fun digit => Numeral.lt_of_mem_fixed (by decide)
    simp only [base32Lib, htext, Base32.decode_encode]
  encode_groups bytes hlength := by
    obtain ⟨groups, hgroups⟩ := hlength
    have hwidth : Base32.width bytes.length = bytes.length / 5 * 8 := by
      rw [Base32.width]
      omega
    have hspare : Base32.spare bytes.length = 0 := by
      rw [Base32.spare, hwidth]
      omega
    rw [base32Encode, String.toList_ofList, Base32.encode, hspare, Nat.pow_zero,
      Nat.mul_one, hwidth]
  decode_symbols text bytes hdecode byte hbyte := by
    simp only [base32Lib] at hdecode
    cases hsome : Base32.decode (text.map fun byte => Char.ofNat byte.toNat) with
    | none => rw [hsome] at hdecode; cases hdecode
    | some found =>
        exact Base32.mem_alphabet_of_decode hsome _
          (List.mem_map_of_mem (f := fun byte : UInt8 => Char.ofNat byte.toNat) hbyte)

/-- The unit of the code zero with white space in front, in lower case. -/
def lowerSpelling : Spelling (encodeContentCodeUnit base32Encode 0 0) where
  before := [' ']
  scheme := "iscc:".toList
  rest := "eaaqaaaaaaaaaaaa".toList
  after := []
  before_space := List.forall_mem_singleton.mpr (by decide)
  scheme_spelled := by decide +kernel
  rest_spelled := by decide +kernel
  after_space := by simp

/-- The same unit with a capital letter at its start only. -/
def mixedSpelling : Spelling (encodeContentCodeUnit base32Encode 0 0) where
  before := []
  scheme := "Iscc:".toList
  rest := "EAAQAAAAAAAAAAAA".toList
  after := []
  before_space := by simp
  scheme_spelled := by decide +kernel
  rest_spelled := by decide +kernel
  after_space := by simp

end Sample

theorem decodeContentCode_spelling_iff_sample :
    Sample.base32Lib.decodeContentCode Sample.lowerSpelling.text = .ok 0 :=
  (decodeContentCode_spelling_iff Sample.base32Lib_nopad 0 0 Sample.lowerSpelling).mpr
    (Or.inr (Or.inr rfl))

/-- A unit that is not decoded: `Iscc:EAAQAAAAAAAAAAAA`. -/
theorem decodeContentCode_mixed_scheme :
    Base32Nopad Sample.base32Lib Sample.base32Encode ∧
      Sample.mixedSpelling.text = "Iscc:EAAQAAAAAAAAAAAA" ∧
      Sample.base32Lib.decodeContentCode Sample.mixedSpelling.text ≠ .ok 0 :=
  ⟨Sample.base32Lib_nopad, by decide +kernel, by decide +kernel⟩

end Registry

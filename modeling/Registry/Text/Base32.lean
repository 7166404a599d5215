import Mathlib.Data.List.GetD
import Registry.Text.Numerals

/-! # Unpadded base32

Bytes as text, five bits a symbol, the most significant first. The last symbol is filled
with zero bits, and a text whose length or whose spare bits no bytes give is rejected.
-/

namespace Base32

def alphabet : List Char := "ABCDEFGHIJKLMNOPQRSTUVWXYZ234567".toList

def symbol (digit : Nat) : Char := alphabet.getD digit 'A'

def digit (symbol : Char) : Option Nat := alphabet.findIdx? (· == symbol)

theorem digit_symbol : ∀ value < 32, digit (symbol value) = some value := by
  decide +kernel

theorem symbol_mem_alphabet : ∀ value < 32, symbol value ∈ alphabet := by
  decide +kernel

theorem mem_alphabet_of_digit {char : Char} {value : Nat} (hdigit : digit char = some value) :
    char ∈ alphabet := by
  obtain ⟨hbound, hchar, -⟩ := List.findIdx?_eq_some_iff_getElem.mp hdigit
  rw [← eq_of_beq hchar]
  exact List.getElem_mem hbound

/-- The number that some bytes spell. -/
def number (bytes : List UInt8) : Nat := Numeral.value 256 (bytes.map UInt8.toNat)

/-- The number of symbols for some bytes. -/
def width (length : Nat) : Nat := (8 * length + 4) / 5

/-- The bits that the last symbol has too many. -/
def spare (length : Nat) : Nat := 5 * width length - 8 * length

def encode (bytes : List UInt8) : List Char :=
  (Numeral.fixed 32 (width bytes.length) (number bytes * 2 ^ spare bytes.length)).map symbol

/-- The bytes of a text, unless it has other characters, another length or other spare
bits than an encoding. -/
def decode (text : List Char) : Option (List UInt8) := do
  let digits ← text.mapM digit
  let length := 5 * digits.length / 8
  if digits.length = width length ∧ Numeral.value 32 digits % 2 ^ spare length = 0 then
    some ((Numeral.fixed 256 length (Numeral.value 32 digits / 2 ^ spare length)).map UInt8.ofNat)
  else none

theorem mapM_digit_symbol {digits : List Nat} (hdigits : ∀ value ∈ digits, value < 32) :
    (digits.map symbol).mapM digit = some digits := by
  rw [Numeral.mapM_eq_some_iff, List.map_map]
  exact List.map_congr_left fun value hvalue => digit_symbol value (hdigits value hvalue)

theorem number_lt (bytes : List UInt8) : number bytes < 256 ^ bytes.length := by
  have hbytes : ∀ value ∈ bytes.map UInt8.toNat, value < 256 := by
    intro value hvalue
    obtain ⟨byte, -, rfl⟩ := List.mem_map.mp hvalue
    exact byte.toNat_lt
  have hlt := Numeral.value_lt (by decide) hbytes
  rwa [List.length_map] at hlt

theorem fixed_number (bytes : List UInt8) :
    (Numeral.fixed 256 bytes.length (number bytes)).map UInt8.ofNat = bytes := by
  have hbytes : ∀ value ∈ bytes.map UInt8.toNat, value < 256 := by
    intro value hvalue
    obtain ⟨byte, -, rfl⟩ := List.mem_map.mp hvalue
    exact byte.toNat_lt
  have hfixed := Numeral.fixed_value (by decide) hbytes
  rw [List.length_map] at hfixed
  rw [number, hfixed, List.map_map]
  refine (List.map_congr_left fun byte _ => ?_).trans (List.map_id bytes)
  simp

theorem decode_encode (bytes : List UInt8) : decode (encode bytes) = some bytes := by
  have hdigits : ∀ value ∈ Numeral.fixed 32 (width bytes.length)
      (number bytes * 2 ^ spare bytes.length), value < 32 :=
    fun _ => Numeral.lt_of_mem_fixed (by decide)
  have hlength : 5 * width bytes.length / 8 = bytes.length := by
    rw [width]
    omega
  have hfits : number bytes * 2 ^ spare bytes.length < 32 ^ width bytes.length := by
    have hbits : 8 * bytes.length + spare bytes.length = 5 * width bytes.length := by
      rw [spare, width]
      omega
    calc number bytes * 2 ^ spare bytes.length
        < 256 ^ bytes.length * 2 ^ spare bytes.length :=
          Nat.mul_lt_mul_of_pos_right (number_lt bytes) (Nat.two_pow_pos _)
      _ = 32 ^ width bytes.length := by
          rw [show 256 = 2 ^ 8 from rfl, show 32 = 2 ^ 5 from rfl, ← Nat.pow_mul, ← Nat.pow_add,
            hbits, Nat.pow_mul]
  have hvalue : Numeral.value 32 (Numeral.fixed 32 (width bytes.length)
      (number bytes * 2 ^ spare bytes.length)) = number bytes * 2 ^ spare bytes.length := by
    rw [Numeral.value_fixed, Nat.mod_eq_of_lt hfits]
  rw [decode, encode, mapM_digit_symbol hdigits]
  simp only [Option.bind_eq_bind, Option.bind_some, Numeral.length_fixed, hlength, hvalue,
    Nat.mul_mod_left, and_self, ↓reduceIte, Nat.mul_div_cancel _ (Nat.two_pow_pos _), fixed_number]

/-- Only symbols are decoded. -/
theorem mem_alphabet_of_decode {text : List Char} {bytes : List UInt8}
    (hdecode : decode text = some bytes) : ∀ char ∈ text, char ∈ alphabet := by
  rw [decode] at hdecode
  obtain ⟨digits, hread, -⟩ := Option.bind_eq_some_iff.mp hdecode
  intro char hchar
  obtain ⟨value, -, hvalue⟩ := Numeral.exists_of_mapM hread hchar
  exact mem_alphabet_of_digit hvalue

end Base32

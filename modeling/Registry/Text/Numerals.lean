import Mathlib.Data.List.TakeWhile
import Mathlib.Data.Nat.Digits.Lemmas

/-! # Numerals with leading zeros

A numeral is a list of digits, the most significant first. To write it in another base
is to write its value there, with a zero in front for each zero that it starts with. This
loses nothing: the numeral is got back from the other base.
-/

namespace Numeral

/-- The number of zeros in front. -/
def leadingZeros (digits : List Nat) : Nat := (digits.takeWhile (· = 0)).length

def value (base : Nat) (digits : List Nat) : Nat := Nat.ofDigits base digits.reverse

/-- The numeral of a number. It starts with no zero, and that of zero is empty. -/
def ofNat (base number : Nat) : List Nat := (Nat.digits base number).reverse

/-- The same numeral in another base. -/
def convert (source target : Nat) (digits : List Nat) : List Nat :=
  List.replicate (leadingZeros digits) 0 ++ ofNat target (value source digits)

/-- A numeral that starts with another digit than zero, if with any. -/
def Canonical (digits : List Nat) : Prop := digits.head? ≠ some 0

section

variable {base source target : Nat}

theorem lt_of_mem_ofNat (hbase : 1 < base) {number digit : Nat}
    (hdigit : digit ∈ ofNat base number) :
    digit < base :=
  Nat.digits_lt_base hbase (List.mem_reverse.mp hdigit)

theorem canonical_ofNat (base number : Nat) : Canonical (ofNat base number) := by
  intro hhead
  rw [ofNat, List.head?_reverse] at hhead
  by_cases hnumber : number = 0
  · rw [hnumber, Nat.digits_zero] at hhead
    cases hhead
  · have hlast := Nat.getLast_digit_ne_zero base hnumber
    rw [List.getLast?_eq_some_getLast (Nat.digits_ne_nil_iff_ne_zero.mpr hnumber)] at hhead
    exact hlast (Option.some.inj hhead)

@[simp] theorem value_ofNat (base number : Nat) : value base (ofNat base number) = number := by
  rw [value, ofNat, List.reverse_reverse, Nat.ofDigits_digits]

theorem value_zeros_append (base count : Nat) (digits : List Nat) :
    value base (List.replicate count 0 ++ digits) = value base digits := by
  rw [value, List.reverse_append, List.reverse_replicate, Nat.ofDigits_append_replicate_zero, value]

/-- A numeral without zeros in front is that of its value. -/
theorem ofNat_value (hbase : 1 < base) {digits : List Nat}
    (hdigits : ∀ digit ∈ digits, digit < base)
    (hcanonical : Canonical digits) : ofNat base (value base digits) = digits := by
  rw [ofNat, value, Nat.digits_ofDigits base hbase digits.reverse, List.reverse_reverse]
  · exact fun digit hdigit => hdigits digit (List.mem_reverse.mp hdigit)
  · intro hne hzero
    apply hcanonical
    rw [List.getLast_reverse] at hzero
    rw [← hzero]
    exact List.head?_eq_some_head _

theorem leadingZeros_zeros_append (count : Nat) {digits : List Nat}
    (hcanonical : Canonical digits) :
    leadingZeros (List.replicate count 0 ++ digits) = count := by
  have hnone : digits.takeWhile (· = 0) = [] := by
    cases digits with
    | nil => rfl
    | cons digit rest =>
        have hdigit : digit ≠ 0 := fun hzero => hcanonical (by rw [hzero]; rfl)
        rw [List.takeWhile_cons_of_neg (by simpa using hdigit)]
  rw [leadingZeros, List.takeWhile_append_of_pos (by simp), hnone, List.append_nil,
    List.length_replicate]

/-- A numeral is its zeros in front and a numeral without any. -/
theorem exists_eq_zeros_append (digits : List Nat) :
    ∃ rest, digits = List.replicate (leadingZeros digits) 0 ++ rest ∧ Canonical rest := by
  refine ⟨digits.dropWhile (· = 0), ?_, fun hhead => ?_⟩
  · have hzeros : digits.takeWhile (· = 0) = List.replicate (leadingZeros digits) 0 := by
      rw [List.eq_replicate_iff]
      exact ⟨rfl, fun digit hdigit => by simpa using List.mem_takeWhile_imp hdigit⟩
    conv_lhs => rw [← List.takeWhile_append_dropWhile (p := (· = 0)) (l := digits), hzeros]
  · have hdrop := List.head?_dropWhile_not (fun digit : Nat => decide (digit = 0)) digits
    rw [hhead] at hdrop
    simp at hdrop

theorem value_convert (source target : Nat) (digits : List Nat) :
    value target (convert source target digits) = value source digits := by
  rw [convert, value_zeros_append, value_ofNat]

theorem leadingZeros_convert (source target : Nat) (digits : List Nat) :
    leadingZeros (convert source target digits) = leadingZeros digits :=
  leadingZeros_zeros_append _ (canonical_ofNat _ _)

theorem lt_of_mem_convert (htarget : 1 < target) {digits : List Nat} {digit : Nat}
    (hdigit : digit ∈ convert source target digits) : digit < target := by
  rcases List.mem_append.mp hdigit with hzero | hrest
  · rw [List.eq_of_mem_replicate hzero]
    omega
  · exact lt_of_mem_ofNat htarget hrest

/-- A numeral is got back from another base. -/
theorem convert_convert (hsource : 1 < source) {digits : List Nat}
    (hdigits : ∀ digit ∈ digits, digit < source) :
    convert target source (convert source target digits) = digits := by
  obtain ⟨rest, hsplit, hrest⟩ := exists_eq_zeros_append digits
  have hsmall : ∀ digit ∈ rest, digit < source := fun digit hdigit =>
    hdigits digit (hsplit ▸ List.mem_append_right _ hdigit)
  have hvalue : value source digits = value source rest := by
    conv_lhs => rw [hsplit, value_zeros_append]
  rw [convert, leadingZeros_convert, value_convert, hvalue,
    ofNat_value hsource hsmall hrest, ← hsplit]

/-- The length of a numeral says between which powers of the base its number lies. -/
theorem length_ofNat_eq (hbase : 1 < base) {number length : Nat} (hlow : base ^ length ≤ number)
    (hhigh : number < base ^ (length + 1)) : (ofNat base number).length = length + 1 := by
  rw [ofNat, List.length_reverse]
  have hle := (Nat.digits_length_le_iff hbase number).mpr hhigh
  have hlt := (Nat.lt_digits_length_iff hbase number).mpr hlow
  omega

/-! ## Numerals of a fixed width -/

/-- The last digits of a number, filled with zeros in front. -/
def fixed (base : Nat) : Nat → Nat → List Nat
  | 0, _ => []
  | width + 1, number => fixed base width (number / base) ++ [number % base]

@[simp] theorem length_fixed (base width number : Nat) :
    (fixed base width number).length = width := by
  induction width generalizing number with
  | zero => rfl
  | succ width ih => rw [fixed, List.length_append, ih, List.length_singleton]

theorem lt_of_mem_fixed (hbase : 0 < base) {width number digit : Nat}
    (hdigit : digit ∈ fixed base width number) : digit < base := by
  induction width generalizing number with
  | zero => cases hdigit
  | succ width ih =>
      rw [fixed, List.mem_append, List.mem_singleton] at hdigit
      rcases hdigit with hfront | rfl
      · exact ih hfront
      · exact Nat.mod_lt _ hbase

theorem value_concat (base : Nat) (digits : List Nat) (digit : Nat) :
    value base (digits ++ [digit]) = digit + value base digits * base := by
  rw [value, List.reverse_append, List.reverse_singleton, List.singleton_append, Nat.ofDigits_cons,
    value, Nat.mul_comm]

theorem value_cons (base digit : Nat) (digits : List Nat) :
    value base (digit :: digits) = digit * base ^ digits.length + value base digits := by
  rw [value, Nat.ofDigits_reverse_cons, value]
  ring

theorem value_fixed (base width number : Nat) :
    value base (fixed base width number) = number % base ^ width := by
  induction width generalizing number with
  | zero => rw [fixed, value, List.reverse_nil, Nat.ofDigits_nil, Nat.pow_zero, Nat.mod_one]
  | succ width ih =>
      rw [fixed, value_concat, ih, Nat.pow_succ, Nat.mul_comm (base ^ width), Nat.mod_mul,
        Nat.mul_comm base]

theorem value_lt (hbase : 1 < base) {digits : List Nat} (hdigits : ∀ digit ∈ digits, digit < base) :
    value base digits < base ^ digits.length := by
  rw [value, ← List.length_reverse]
  exact Nat.ofDigits_lt_base_pow_length hbase fun digit hdigit =>
    hdigits digit (List.mem_reverse.mp hdigit)

/-- A numeral is that of its value in its own width. -/
theorem fixed_value (hbase : 0 < base) {digits : List Nat}
    (hdigits : ∀ digit ∈ digits, digit < base) :
    fixed base digits.length (value base digits) = digits := by
  induction digits using List.reverseRecOn with
  | nil => rfl
  | append_singleton digits digit ih =>
      have hdigit : digit < base := hdigits digit (by simp)
      rw [List.length_append, List.length_singleton, fixed, value_concat,
        Nat.add_mul_div_right _ _ hbase, Nat.div_eq_of_lt hdigit, Nat.zero_add,
        Nat.add_mul_mod_self_right, Nat.mod_eq_of_lt hdigit,
        ih fun other hother => hdigits other (List.mem_append_left _ hother)]

/-- The digit at a place. -/
theorem getElem?_fixed {width place : Nat} (hplace : place < width) (number : Nat) :
    (fixed base width number)[place]? = some (number / base ^ (width - 1 - place) % base) := by
  induction width generalizing number place with
  | zero => cases hplace
  | succ width ih =>
      rw [fixed]
      by_cases hlast : place = width
      · rw [List.getElem?_append_right (by rw [length_fixed, hlast]), length_fixed, hlast,
          Nat.sub_self]
        simp
      · have hfront : place < width := by omega
        have hexponent : width + 1 - 1 - place = width - 1 - place + 1 := by omega
        rw [List.getElem?_append_left (by rw [length_fixed]; exact hfront), ih hfront, hexponent,
          Nat.pow_succ, Nat.mul_comm, Nat.div_div_eq_div_mul]

/-! ## Reading digits -/

/-- Digits are read when each of them is. -/
theorem mapM_eq_some_iff {α β : Type} {read : α → Option β} {items : List α} {values : List β} :
    items.mapM read = some values ↔ items.map read = values.map some := by
  induction items generalizing values with
  | nil =>
      rw [List.mapM_nil, List.map_nil, eq_comm (a := []), List.map_eq_nil_iff]
      exact Option.some_inj.trans eq_comm
  | cons item rest ih =>
      rw [List.mapM_cons, List.map_cons]
      cases values with
      | nil => cases read item <;> cases rest.mapM read <;> simp
      | cons value others =>
          rw [List.map_cons, List.cons.injEq, ← ih]
          cases read item <;> cases rest.mapM read <;> simp

theorem exists_of_mapM {α β : Type} {read : α → Option β} {items : List α} {values : List β}
    (hread : items.mapM read = some values) {item : α} (hitem : item ∈ items) :
    ∃ value ∈ values, read item = some value := by
  have hmem := List.mem_map_of_mem (f := read) hitem
  rw [mapM_eq_some_iff.mp hread] at hmem
  obtain ⟨value, hvalue, hsame⟩ := List.mem_map.mp hmem
  exact ⟨value, hvalue, hsame.symm⟩

theorem exists_read_of_mapM {α β : Type} {read : α → Option β} {items : List α} {values : List β}
    (hread : items.mapM read = some values) {value : β} (hvalue : value ∈ values) :
    ∃ item ∈ items, read item = some value := by
  have hmem := List.mem_map_of_mem (f := some) hvalue
  rw [← mapM_eq_some_iff.mp hread] at hmem
  exact List.mem_map.mp hmem

theorem length_of_mapM {α β : Type} {read : α → Option β} {items : List α} {values : List β}
    (hread : items.mapM read = some values) : values.length = items.length := by
  have hlength := congrArg List.length (mapM_eq_some_iff.mp hread)
  rwa [List.length_map, List.length_map, eq_comm] at hlength

theorem getElem?_of_mapM {α β : Type} {read : α → Option β} {items : List α} {values : List β}
    (hread : items.mapM read = some values) (place : Nat) :
    values[place]? = items[place]?.bind read := by
  have hplace := congrArg (fun read : List (Option β) => read[place]?) (mapM_eq_some_iff.mp hread)
  simp only [List.getElem?_map] at hplace
  cases hvalue : values[place]? <;> cases hitem : items[place]? <;>
    rw [hvalue, hitem] at hplace <;> simp_all

end

end Numeral

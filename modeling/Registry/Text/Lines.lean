import Mathlib.Data.Finset.Max
import Mathlib.Data.List.Basic

/-! # Lines of a text

A text is cut after every newline. A line loses its newline and a carriage return
right before it; what follows the last newline is a line of its own, as it stands.
-/

namespace Text

/-- Cut a text after every newline. -/
def splitInclusive : List Char → List (List Char)
  | [] => []
  | char :: rest =>
      if char = '\n' then [char] :: splitInclusive rest
      else
        match splitInclusive rest with
        | [] => [[char]]
        | piece :: pieces => (char :: piece) :: pieces

def stripSuffix (char : Char) (line : List Char) : Option (List Char) :=
  if line.getLast? = some char then some line.dropLast else none

/-- A line without its ending. -/
def stripEnding (line : List Char) : List Char :=
  match stripSuffix '\n' line with
  | none => line
  | some line => (stripSuffix '\r' line).getD line

def lines (text : String) : List String :=
  (splitInclusive text.toList).map fun line => String.ofList (stripEnding line)

/-- A text of a single line, which neither contains a newline nor ends as an ending
does. -/
def IsLine (line : String) : Prop := '\n' ∉ line.toList ∧ line.toList.getLast? ≠ some '\r'

instance (line : String) : Decidable (IsLine line) := inferInstanceAs (Decidable (_ ∧ _))

theorem splitInclusive_line {line : List Char} (hline : '\n' ∉ line) (rest : List Char) :
    splitInclusive (line ++ '\n' :: rest) = (line ++ ['\n']) :: splitInclusive rest := by
  induction line with
  | nil => rw [List.nil_append, splitInclusive, if_pos rfl, List.nil_append]
  | cons char line ih =>
      obtain ⟨hchar, htail⟩ := List.ne_and_not_mem_of_not_mem_cons hline
      rw [List.cons_append, splitInclusive, if_neg hchar.symm, ih htail, List.cons_append]

@[simp] theorem stripSuffix_append (char : Char) (line : List Char) :
    stripSuffix char (line ++ [char]) = some line := by
  simp [stripSuffix]

theorem stripSuffix_of_ne {char : Char} {line : List Char} (hlast : line.getLast? ≠ some char) :
    stripSuffix char line = none := if_neg hlast

/-- A line that was written with a newline loses a carriage return at its end. -/
theorem stripEnding_append_newline (line : List Char) :
    stripEnding (line ++ ['\n']) = (stripSuffix '\r' line).getD line := by
  rw [stripEnding, stripSuffix_append]

theorem splitInclusive_of_notMem {line : List Char} (hline : '\n' ∉ line) :
    splitInclusive line = if line = [] then [] else [line] := by
  induction line with
  | nil => rfl
  | cons char rest ih =>
      obtain ⟨hchar, hrest⟩ := List.ne_and_not_mem_of_not_mem_cons hline
      rw [splitInclusive, if_neg hchar.symm, ih hrest, if_neg (List.cons_ne_nil _ _)]
      cases rest with
      | nil => rfl
      | cons => rfl

/-- A piece of a cut text has a newline only as its last character. -/
theorem mem_splitInclusive {text piece : List Char} (hpiece : piece ∈ splitInclusive text) :
    '\n' ∉ piece ∨ ∃ line, '\n' ∉ line ∧ piece = line ++ ['\n'] := by
  induction text generalizing piece with
  | nil => simp [splitInclusive] at hpiece
  | cons char rest ih =>
      rw [splitInclusive] at hpiece
      split at hpiece
      next hchar =>
        rcases List.mem_cons.mp hpiece with rfl | hlater
        · exact Or.inr ⟨[], List.not_mem_nil, by rw [hchar, List.nil_append]⟩
        · exact ih hlater
      next hchar =>
        split at hpiece
        next =>
          rw [List.mem_singleton.mp hpiece, List.mem_singleton]
          exact Or.inl (Ne.symm hchar)
        next first others hsplit =>
          rw [hsplit] at ih
          rcases List.mem_cons.mp hpiece with rfl | hlater
          · -- The first piece of the rest grows by one character.
            rcases ih List.mem_cons_self with hnone | ⟨line, hline, rfl⟩
            · exact Or.inl (List.not_mem_cons_of_ne_of_not_mem (Ne.symm hchar) hnone)
            · refine Or.inr ⟨char :: line, ?_, rfl⟩
              exact List.not_mem_cons_of_ne_of_not_mem (Ne.symm hchar) hline
          · exact ih (List.mem_cons_of_mem _ hlater)

theorem mem_of_mem_getD_stripSuffix {char other : Char} {line : List Char}
    (hmem : other ∈ (stripSuffix char line).getD line) : other ∈ line := by
  rw [stripSuffix] at hmem
  split at hmem
  next => exact List.dropLast_subset line hmem
  next => exact hmem

/-- No line of a text contains a newline. -/
theorem newline_notMem_of_mem_lines {text line : String} (hline : line ∈ lines text) :
    '\n' ∉ line.toList := by
  obtain ⟨piece, hpiece, rfl⟩ := List.mem_map.mp hline
  rw [String.toList_ofList]
  rcases mem_splitInclusive hpiece with hnone | ⟨start, hstart, rfl⟩
  · have hlast : piece.getLast? ≠ some '\n' := fun hlast => hnone (List.mem_of_getLast? hlast)
    rw [stripEnding, stripSuffix_of_ne hlast]
    exact hnone
  · rw [stripEnding_append_newline]
    exact fun hmem => hstart (mem_of_mem_getD_stripSuffix hmem)

/-- The lines of a text without a newline. -/
theorem lines_of_notMem {text : String} (htext : '\n' ∉ text.toList) :
    lines text = if text = "" then [] else [text] := by
  have hlast : text.toList.getLast? ≠ some '\n' := fun hlast => htext (List.mem_of_getLast? hlast)
  rw [lines, splitInclusive_of_notMem htext]
  simp only [String.toList_eq_nil_iff]
  split
  next => rfl
  next => rw [List.map_singleton, stripEnding, stripSuffix_of_ne hlast, String.ofList_toList]

/-- The first of several texts that are joined by newlines. -/
theorem lines_intercalate {first : String} (hfirst : '\n' ∉ first.toList) (second : String)
    (rest : List String) :
    lines ("\n".intercalate (first :: second :: rest)) =
      String.ofList ((stripSuffix '\r' first.toList).getD first.toList) ::
        lines ("\n".intercalate (second :: rest)) := by
  have htext : ("\n".intercalate (first :: second :: rest)).toList =
      first.toList ++ '\n' :: ("\n".intercalate (second :: rest)).toList := by
    rw [String.intercalate_cons_cons, String.toList_append, String.toList_append, List.append_assoc]
    rfl
  rw [lines, htext, splitInclusive_line hfirst, List.map_cons, stripEnding_append_newline, lines]

/-- The text of some lines, each followed by a newline. -/
def unlines (items : List String) : String := items.foldl (fun text item => text ++ item ++ "\n") ""

theorem toList_unlines (items : List String) :
    (unlines items).toList = items.flatMap fun item => item.toList ++ ['\n'] := by
  have hfold : ∀ start : String,
      (items.foldl (fun text item => text ++ item ++ "\n") start).toList =
        start.toList ++ items.flatMap fun item => item.toList ++ ['\n'] := by
    induction items with
    | nil => simp
    | cons item rest ih =>
        intro start
        rw [List.foldl_cons, ih, List.flatMap_cons]
        simp
  exact (hfold "").trans (by simp)

/-- Lines that were written one by one are read back, without carriage returns at
their ends. -/
theorem lines_unlines_of_notMem {items : List String}
    (hitems : ∀ item ∈ items, '\n' ∉ item.toList) :
    lines (unlines items) = items.map fun item =>
      String.ofList ((stripSuffix '\r' item.toList).getD item.toList) := by
  rw [lines, toList_unlines]
  induction items with
  | nil => rfl
  | cons item rest ih =>
      rw [List.flatMap_cons, List.append_assoc, List.singleton_append,
        splitInclusive_line (hitems item List.mem_cons_self), List.map_cons, List.map_cons,
        stripEnding_append_newline,
        ih fun other hother => hitems other (List.mem_cons_of_mem _ hother)]

theorem lines_unlines {items : List String} (hitems : ∀ item ∈ items, IsLine item) :
    lines (unlines items) = items := by
  rw [lines_unlines_of_notMem fun item hitem => (hitems item hitem).1]
  refine (List.map_congr_left fun item hitem => ?_).trans (List.map_id items)
  rw [stripSuffix_of_ne (hitems item hitem).2, Option.getD_none, String.ofList_toList, id]

/-- Lines can be written and read back as a set exactly when each of them is a line. -/
theorem mem_lines_unlines_iff {items : List String} :
    (∀ line, line ∈ lines (unlines items) ↔ line ∈ items) ↔ ∀ item ∈ items, IsLine item := by
  constructor
  · intro hsame
    have hnewline : ∀ item ∈ items, '\n' ∉ item.toList := fun item hitem =>
      newline_notMem_of_mem_lines ((hsame item).mpr hitem)
    refine fun item hitem => ⟨hnewline item hitem, fun hlast => ?_⟩
    -- The longest item that ends in a carriage return is read from a longer one.
    let returning := items.toFinset.filter fun item => item.toList.getLast? = some '\r'
    have hsome : returning.Nonempty :=
      ⟨item, Finset.mem_filter.mpr ⟨List.mem_toFinset.mpr hitem, hlast⟩⟩
    obtain ⟨longest, hlongest, hmax⟩ := returning.exists_max_image (·.toList.length) hsome
    obtain ⟨hmem, hend⟩ := Finset.mem_filter.mp hlongest
    have hread := (hsame longest).mpr (List.mem_toFinset.mp hmem)
    rw [lines_unlines_of_notMem hnewline] at hread
    obtain ⟨other, hother, rfl⟩ := List.mem_map.mp hread
    rw [String.toList_ofList] at hend hmax
    by_cases hreturn : other.toList.getLast? = some '\r'
    · have hle := hmax other (Finset.mem_filter.mpr ⟨List.mem_toFinset.mpr hother, hreturn⟩)
      have hne : other.toList ≠ [] := by
        intro hnil
        rw [hnil] at hreturn
        cases hreturn
      rw [stripSuffix, if_pos hreturn, Option.getD_some, List.length_dropLast] at hle
      have hpos := List.length_pos_iff.mpr hne
      omega
    · rw [stripSuffix_of_ne hreturn, Option.getD_none] at hend
      exact hreturn hend
  · intro hitems line
    rw [lines_unlines hitems]

end Text

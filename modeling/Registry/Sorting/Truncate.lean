import Mathlib.Data.List.Basic
import Mathlib.Order.MinMax

/-! # The first elements of a sorted list

Sort a list and keep the first elements. The elements behind some point of the list do
not matter for the result exactly when each of them has enough elements in front of that
point that come no later in the order.
-/

namespace Sorting

variable {α : Type} {le : α → α → Bool} (trans : ∀ a b c, le a b → le b c → le a c)

include trans

/-- In a sorted list the elements up to a bound come first. -/
theorem countP_take_of_pairwise {items : List α} (hsorted : items.Pairwise fun a b => le a b)
    (bound : α) (count : Nat) :
    (items.take count).countP (le · bound) = min count (items.countP (le · bound)) := by
  induction items generalizing count with
  | nil => simp
  | cons item rest ih =>
      obtain ⟨hitem, hrest⟩ := List.pairwise_cons.mp hsorted
      cases count with
      | zero => simp
      | succ count =>
          rw [List.take_succ_cons]
          by_cases hbound : le item bound
          · simp only [List.countP_cons, hbound, ih hrest, ↓reduceIte]
            omega
          · -- Nothing behind the first element past the bound is within it.
            have hnone : rest.countP (le · bound) = 0 := by
              rw [List.countP_eq_zero]
              exact fun other hother hle => hbound (trans _ _ _ (hitem other hother) hle)
            simp only [List.countP_cons, hbound, ih hrest, hnone]
            simp

theorem le_of_mem_take {items : List α} (hsorted : items.Pairwise fun a b => le a b) {bound : α}
    {count : Nat} (hcount : count ≤ items.countP (le · bound)) :
    ∀ item ∈ items.take count, le item bound := by
  have hlength := countP_take_of_pairwise trans hsorted bound count
  rw [min_eq_left hcount] at hlength
  apply List.countP_eq_length.mp
  rw [hlength, List.length_take]
  exact (min_eq_left (hcount.trans List.countP_le_length)).symm

omit trans in
/-- Numbered elements that come at the same place are the same. -/
theorem eq_of_zipIdxLE {items : List α} {left right : α × Nat} (hleft : left ∈ items.zipIdx)
    (hright : right ∈ items.zipIdx) (hle : List.zipIdxLE le left right)
    (hge : List.zipIdxLE le right left) : left = right := by
  have hplace : left.2 = right.2 := by
    simp only [List.zipIdxLE] at hle hge
    grind
  have hvalue := (List.mem_zipIdx_iff_getElem?.mp hleft).symm.trans
    (hplace ▸ List.mem_zipIdx_iff_getElem?.mp hright)
  exact Prod.ext (Option.some.inj hvalue) hplace

variable (total : ∀ a b, le a b || le b a)

include total

/-- The first of a sorted list stay the first if all that is added comes after them. -/
theorem mergeSort_append_of_before {front back : List α} {count : Nat}
    (hantisymm : ∀ left ∈ front ++ back, ∀ right ∈ front ++ back, le left right → le right left →
      left = right)
    (hbefore : ∀ left ∈ (front.mergeSort le).take count, ∀ right ∈ back, le left right) :
    (front ++ back).mergeSort le = (front.mergeSort le).take count ++
      ((front.mergeSort le).drop count ++ back).mergeSort le := by
  have hperm : ((front.mergeSort le).take count ++
      ((front.mergeSort le).drop count ++ back).mergeSort le).Perm (front ++ back) := by
    refine ((List.mergeSort_perm _ le).append_left _).trans ?_
    rw [← List.append_assoc, List.take_append_drop]
    exact (List.mergeSort_perm front le).append_right back
  have hsorted := List.pairwise_mergeSort trans total front
  rw [← List.take_append_drop count (front.mergeSort le), List.pairwise_append] at hsorted
  refine List.Perm.eq_of_pairwise (fun left right hleft hright => ?_)
    (List.pairwise_mergeSort trans total _) ?_ ((List.mergeSort_perm _ le).trans hperm.symm)
  · exact hantisymm left (List.mem_mergeSort.mp hleft) right (hperm.mem_iff.mp hright)
  · refine List.pairwise_append.mpr ⟨hsorted.1, List.pairwise_mergeSort trans total _, ?_⟩
    intro left hleft right hright
    rcases List.mem_append.mp (List.mem_mergeSort.mp hright) with hdrop | hback
    · exact hsorted.2.2 left hleft right hdrop
    · exact hbefore left hleft right hback

/-- Elements at the back with enough elements of the front before them sort behind these. -/
theorem take_mergeSort_append {front back : List α} {count : Nat}
    (hback : ∀ item ∈ back, count ≤ front.countP (le · item)) :
    ((front ++ back).mergeSort le).take count = (front.mergeSort le).take count := by
  by_cases hsome : back = []
  · rw [hsome, List.append_nil]
  · -- Numbered, the elements have one sorted order only.
    have hvalues : (front.zipIdx.mergeSort (List.zipIdxLE le)).map Prod.fst = front.mergeSort le :=
      List.mergeSort_zipIdx
    have hbefore : ∀ left ∈ (front.zipIdx.mergeSort (List.zipIdxLE le)).take count,
        ∀ right ∈ back.zipIdx front.length, List.zipIdxLE le left right := by
      intro left hleft right hright
      have hvalue : left.1 ∈ (front.mergeSort le).take count := by
        rw [← hvalues, ← List.map_take]
        exact List.mem_map_of_mem hleft
      have hright' := List.mem_zipIdx hright
      have hcount : count ≤ (front.mergeSort le).countP (le · right.1) := by
        rw [(List.mergeSort_perm front le).countP_eq]
        exact hback right.1 (by rw [hright'.2.2]; exact List.getElem_mem _)
      have hle : le left.1 right.1 :=
        le_of_mem_take trans (List.pairwise_mergeSort trans total front) hcount left.1 hvalue
      have hplace : left.2 < front.length := by
        have hleft' := List.mem_zipIdx (List.mem_mergeSort.mp (List.mem_of_mem_take hleft))
        omega
      simp only [List.zipIdxLE, hle, ↓reduceIte]
      grind
    have hantisymm : ∀ left ∈ front.zipIdx ++ back.zipIdx front.length,
        ∀ right ∈ front.zipIdx ++ back.zipIdx front.length, List.zipIdxLE le left right →
          List.zipIdxLE le right left → left = right := by
      rw [← Nat.zero_add front.length, ← List.zipIdx_append]
      exact fun left hleft right hright => eq_of_zipIdxLE hleft hright
    have hnumbered := mergeSort_append_of_before (List.zipIdxLE_trans trans)
      (List.zipIdxLE_total total) hantisymm hbefore
    have hcount : count ≤ front.length := by
      obtain ⟨item, hitem⟩ := List.exists_mem_of_ne_nil back hsome
      exact (hback item hitem).trans List.countP_le_length
    rw [← List.mergeSort_zipIdx, List.zipIdx_append, Nat.zero_add, hnumbered, ← hvalues,
      ← List.map_take, ← List.map_take, List.take_append_of_le_length, List.take_take, min_self]
    rw [List.length_take, List.length_mergeSort, List.length_zipIdx]
    exact le_min le_rfl hcount

/-- The elements of the back do not matter for the first of a sorted list exactly when
each has that many elements of the front before it. -/
theorem take_mergeSort_append_iff {front back : List α} {count : Nat} :
    (front.mergeSort le).take count = ((front ++ back).mergeSort le).take count ↔
      ∀ item ∈ back, count ≤ front.countP (le · item) := by
  refine ⟨fun hsame item hitem => ?_, fun hback => (take_mergeSort_append trans total hback).symm⟩
  by_contra hfew
  have hself : le item item := by simpa using total item item
  have hadded : 0 < back.countP (le · item) := List.countP_pos_iff.mpr ⟨item, hitem, hself⟩
  have hcounts := congrArg (List.countP (le · item)) hsame
  rw [countP_take_of_pairwise trans (List.pairwise_mergeSort trans total front),
    countP_take_of_pairwise trans (List.pairwise_mergeSort trans total _),
    (List.mergeSort_perm front le).countP_eq, (List.mergeSort_perm _ le).countP_eq,
    List.countP_append] at hcounts
  omega

end Sorting

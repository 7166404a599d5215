import Mathlib.Data.List.Nodup
import Registry.Daemon.Index

/-! # The order of the queue

A cycle reads the oldest rows of the queue. Rows are only ever removed or
appended, so a row that the next cycle would read stays one of these for as long
as it is queued.
-/

namespace Registry

/-- In a list with growing ranks, the first elements are those with few elements
below them. -/
theorem mem_take_iff_of_ranked {α : Type} (rank : α → Nat) {items : List α}
    (hranked : items.Pairwise fun first second => rank first < rank second) {item : α}
    (hmem : item ∈ items) (count : Nat) :
    item ∈ items.take count ↔
      (items.filter fun other => rank other < rank item).length < count := by
  obtain ⟨before, after, rfl⟩ := List.append_of_mem hmem
  obtain ⟨-, htail, hbefore⟩ := List.pairwise_append.mp hranked
  have hbelow : ∀ other ∈ before, rank other < rank item :=
    fun other hother => hbefore other hother item List.mem_cons_self
  have habove : ∀ other ∈ item :: after, ¬rank other < rank item := by
    intro other hother
    rcases List.mem_cons.mp hother with rfl | hlater
    · exact lt_irrefl _
    · exact (List.rel_of_pairwise_cons htail hlater).not_gt
  have hfilter :
      ((before ++ item :: after).filter fun other => rank other < rank item) = before := by
    rw [List.filter_append, List.filter_eq_self.mpr fun other hother =>
        decide_eq_true (hbelow other hother),
      List.filter_eq_nil_iff.mpr fun other hother => by simpa using habove other hother,
      List.append_nil]
  rw [hfilter, List.take_append, List.mem_append]
  constructor
  · rintro (hfirst | hlater)
    · exact absurd (hbelow item (List.mem_of_mem_take hfirst)) (lt_irrefl _)
    · by_contra hcount
      rw [Nat.sub_eq_zero_of_le (not_lt.mp hcount), List.take_zero] at hlater
      cases hlater
  · intro hcount
    refine Or.inr ?_
    obtain ⟨more, hmore⟩ := Nat.exists_eq_add_one_of_ne_zero (Nat.sub_ne_zero_of_lt hcount)
    rw [hmore]
    exact List.mem_cons_self

/-- A prefix of a list with growing ranks is what lies below some bound. -/
theorem exists_take_eq_filter {α : Type} (rank : α → Nat) {items : List α}
    (hranked : items.Pairwise fun first second => rank first < rank second) (count : Nat) :
    ∃ bound, items.take count = items.filter fun item => rank item < bound := by
  induction items generalizing count with
  | nil => exact ⟨0, by simp⟩
  | cons item rest ih =>
      obtain ⟨hfirst, hrest⟩ := List.pairwise_cons.mp hranked
      cases count with
      | zero =>
          refine ⟨rank item, Eq.symm ?_⟩
          rw [List.take_zero, List.filter_eq_nil_iff]
          intro other hother
          rcases List.mem_cons.mp hother with rfl | hlater
          · simp
          · simpa using (hfirst other hlater).le
      | succ count =>
          obtain ⟨bound, hbound⟩ := ih hrest count
          refine ⟨max bound (rank item + 1), ?_⟩
          rw [List.take_succ_cons, List.filter_cons_of_pos (by simp), hbound]
          refine congrArg (item :: ·) (List.filter_congr fun other hother => ?_)
          have hlt := hfirst other hother
          simp only [decide_eq_decide]
          omega

/-- The elements of low rank come first. -/
theorem eq_filter_append_filter {α : Type} (rank : α → Nat) {items : List α}
    (hranked : items.Pairwise fun first second => rank first < rank second) (low : Nat) :
    items = (items.filter fun item => rank item < low) ++
      items.filter fun item => low ≤ rank item := by
  induction items with
  | nil => rfl
  | cons item rest ih =>
      obtain ⟨hfirst, hrest⟩ := List.pairwise_cons.mp hranked
      by_cases hlow : rank item < low
      · rw [List.filter_cons_of_pos (by simpa using hlow),
          List.filter_cons_of_neg (by simpa using hlow), List.cons_append, ← ih hrest]
      · -- Nothing after the first element of high rank has low rank.
        have hhigh : ∀ other ∈ item :: rest, low ≤ rank other := by
          intro other hother
          rcases List.mem_cons.mp hother with rfl | hlater
          · exact not_lt.mp hlow
          · exact (not_lt.mp hlow).trans (hfirst other hlater).le
        rw [List.filter_eq_nil_iff.mpr fun other hother => by simpa using hhigh other hother,
          List.filter_eq_self.mpr fun other hother => by simpa using hhigh other hother,
          List.nil_append]

theorem filter_lt_eq_append {α : Type} (rank : α → Nat) {items : List α}
    (hranked : items.Pairwise fun first second => rank first < rank second) (low bound : Nat) :
    (items.filter fun item => rank item < max low bound) =
      (items.filter fun item => rank item < low) ++
        (items.filter fun item => low ≤ rank item).filter fun item => rank item < bound := by
  rw [eq_filter_append_filter rank (hranked.filter fun item => rank item < max low bound) low,
    List.filter_filter, List.filter_filter, List.filter_filter]
  refine congrArg₂ (· ++ ·) (List.filter_congr fun item _ => ?_)
    (List.filter_congr fun item _ => ?_)
  · rw [← Bool.decide_and, decide_eq_decide]
    omega
  · rw [← Bool.decide_and, ← Bool.decide_and, decide_eq_decide]
    omega

/-- Lists with growing ranks and the same elements are equal. -/
theorem eq_of_ranked {α : Type} (rank : α → Nat) {first second : List α}
    (hfirst : first.Pairwise fun early late => rank early < rank late)
    (hsecond : second.Pairwise fun early late => rank early < rank late)
    (hmem : ∀ item, item ∈ first ↔ item ∈ second) : first = second := by
  have hperm : first.Perm second :=
    (List.perm_ext_iff_of_nodup (hfirst.imp fun hlt heq => (heq ▸ hlt).false)
      (hsecond.imp fun hlt heq => (heq ▸ hlt).false)).mpr hmem
  exact hperm.eq_of_pairwise (fun _ _ _ _ hlt hgt => (lt_asymm hlt hgt).elim) hfirst hsecond

/-- What the publisher takes from a queue row. -/
structure Slip where
  seq : Nat
  partitionId : Nat
  entry : LeafEntry
  deriving DecidableEq

def PendingItem.slip (item : PendingItem) : Slip where
  seq := item.1
  partitionId := item.2.2.partitionId
  entry := item.2.2.leafEntry item.2.1

namespace RecordIndex

variable {index later : RecordIndex} {partitionOf : String → Nat}

/-- The slips of the whole queue, oldest first. -/
def slips (index : RecordIndex) : List Slip := index.pendingItems.map PendingItem.slip

theorem pendingItems_ranked (index : RecordIndex) :
    index.pendingItems.Pairwise fun first second => first.1 < second.1 := by
  rw [pendingItems, List.pairwise_filterMap]
  refine Std.ExtTreeMap.ordered_keys_toList.imp ?_
  intro first second hlt item hitem other hother
  obtain ⟨record, -, rfl⟩ := Option.map_eq_some_iff.mp hitem
  obtain ⟨otherRecord, -, rfl⟩ := Option.map_eq_some_iff.mp hother
  exact Nat.compare_eq_lt.mp hlt

theorem pendingItems_nodup (index : RecordIndex) : (index.pendingItems.map Prod.fst).Nodup :=
  List.pairwise_map.mpr (index.pendingItems_ranked.imp fun hlt => ne_of_lt hlt)

theorem mem_pendingBatch {max : Nat} {item : PendingItem} :
    item ∈ index.pendingBatch max ↔ item ∈ index.pendingItems ∧
      (index.pendingItems.filter fun other => other.1 < item.1).length < max := by
  constructor
  · intro hitem
    have hmem := List.mem_of_mem_take hitem
    exact ⟨hmem, (mem_take_iff_of_ranked Prod.fst index.pendingItems_ranked hmem max).mp hitem⟩
  · rintro ⟨hmem, hcount⟩
    exact (mem_take_iff_of_ranked Prod.fst index.pendingItems_ranked hmem max).mpr hcount

/-- A row that a cycle would read is still read by a later one, if it is still
queued. -/
theorem Consistent.pendingBatch_evolves (hindex : Consistent partitionOf index)
    (hevolves : Evolves index later) {max : Nat} {item : PendingItem}
    (hitem : item ∈ index.pendingBatch max) (hrow : later.queue[item.1]? = some item.2.1) :
    ∃ other ∈ later.pendingBatch max, other.1 = item.1 ∧ other.2.1 = item.2.1 ∧
      other.2.2.binding = item.2.2.binding := by
  obtain ⟨hmem, hcount⟩ := mem_pendingBatch.mp hitem
  obtain ⟨hqueued, hrecord⟩ := mem_pendingItems.mp hmem
  obtain ⟨record, hlater, hbinding⟩ := hevolves.binding _ _ hrecord
  refine ⟨(item.1, item.2.1, record),
    mem_pendingBatch.mpr ⟨mem_pendingItems.mpr ⟨hrow, hlater⟩, ?_⟩, rfl, rfl, hbinding⟩
  have hseq := (hindex.rows item.1 item.2.1 hqueued).1
  -- Every older row that is left was an older row before.
  have hsubset : ((later.pendingItems.filter fun other => other.1 < item.1).map Prod.fst) ⊆
      (index.pendingItems.filter fun other => other.1 < item.1).map Prod.fst := by
    intro seq hmember
    obtain ⟨other, hother, rfl⟩ := List.mem_map.mp hmember
    obtain ⟨hpending, hlt⟩ := List.mem_filter.mp hother
    have holder : other.1 < item.1 := of_decide_eq_true hlt
    have hotherRow := (mem_pendingItems.mp hpending).1
    have hold : index.queue[other.1]? = some other.2.1 := by
      rcases hevolves.rows other.1 (holder.trans hseq) with hkept | hgone
      · rw [← hkept, hotherRow]
      · rw [hgone] at hotherRow
        cases hotherRow
    obtain ⟨-, earlier, hearlier⟩ := hindex.rows other.1 other.2.1 hold
    exact List.mem_map.mpr ⟨(other.1, other.2.1, earlier),
      List.mem_filter.mpr ⟨mem_pendingItems.mpr ⟨hold, hearlier⟩, hlt⟩, rfl⟩
  have hnodup : ((later.pendingItems.filter fun other => other.1 < item.1).map Prod.fst).Nodup :=
    later.pendingItems_nodup.sublist (List.filter_sublist.map _)
  have hlength := (List.Nodup.subperm hnodup hsubset).length_le
  rw [List.length_map, List.length_map] at hlength
  exact lt_of_le_of_lt hlength hcount

/-- Submissions drop no row. -/
theorem Consistent.submitMany_keeps_row (hindex : Consistent partitionOf index)
    {submissions : List (String × IndexRecord)}
    (hpartitions : ∀ submission ∈ submissions, submission.2.partitionId =
      partitionOf submission.1)
    {seq : Nat} {key : String} (hrow : index.queue[seq]? = some key) :
    (index.submitMany submissions).2.queue[seq]? = some key := by
  induction submissions generalizing index with
  | nil => exact hrow
  | cons submission rest ih =>
      have hpartition := hpartitions submission List.mem_cons_self
      have hone : (index.submitOne submission.1 submission.2).2.queue[seq]? = some key := by
        obtain ⟨existing, -, heq⟩ | ⟨-, heq⟩ := index.submitOne_cases submission.1 submission.2
        · rw [heq]
          exact hrow
        · rw [heq]
          exact hindex.getElem?_insert_queue submission.1 hrow
      exact ih (hindex.submitOne hpartition)
        (fun other hother => hpartitions other (List.mem_cons_of_mem _ hother)) hone

/-- Finishing drops only the rows it is given. -/
theorem finish_keeps_row (index : RecordIndex) {now : Timestamp} {rows : List (Nat × String)}
    {status : RecordStatus} (hrows : ∀ row ∈ rows, index.RowOf row) {seq : Nat} {key : String}
    (hrow : index.queue[seq]? = some key) (hkey : ∀ row ∈ rows, row.2 ≠ key) :
    (index.finish now rows status).queue[seq]? = some key := by
  induction rows generalizing index with
  | nil => exact hrow
  | cons row rest ih =>
      refine ih (index.finishOne now status row) ?_ ?_ fun other hother =>
        hkey other (List.mem_cons_of_mem _ hother)
      · intro other hother
        exact (hrows other (List.mem_cons_of_mem _ hother)).evolves
          (index.finishOne_evolves now status row)
      · have hne : row.1 ≠ seq := by
          rintro rfl
          rcases (hrows row List.mem_cons_self).2 with hqueued | hgone
          · exact hkey row List.mem_cons_self (Option.some.inj (hqueued.symm.trans hrow))
          · rw [hgone] at hrow
            cases hrow
        rw [getElem?_finishOne_queue, if_neg hne, hrow]

/-! ## Finished rows -/

@[simp] theorem finished_finished (now : Timestamp) (status : RecordStatus) (record : IndexRecord) :
    finished now status (finished now status record) = finished now status record := by
  simp only [finished, IndexRecord.mk.injEq, true_and]
  split <;> rfl

theorem getElem?_finish_queue (index : RecordIndex) (now : Timestamp) (rows : List (Nat × String))
    (status : RecordStatus) (seq : Nat) :
    (index.finish now rows status).queue[seq]? =
      if seq ∈ rows.map Prod.fst then none else index.queue[seq]? := by
  induction rows generalizing index with
  | nil => simp [finish]
  | cons row rest ih =>
      rw [show index.finish now (row :: rest) status =
        (index.finishOne now status row).finish now rest status from rfl, ih,
        getElem?_finishOne_queue]
      simp only [List.map_cons, List.mem_cons]
      by_cases hrest : seq ∈ rest.map Prod.fst
      · rw [if_pos hrest, if_pos (Or.inr hrest)]
      · rw [if_neg hrest]
        by_cases hrow : row.1 = seq
        · rw [if_pos hrow, if_pos (Or.inl hrow.symm)]
        · rw [if_neg hrow, if_neg fun h => h.elim (fun h => hrow h.symm) hrest]

theorem getElem?_finish_records (index : RecordIndex) (now : Timestamp)
    (rows : List (Nat × String)) (status : RecordStatus) (key : String) :
    (index.finish now rows status).records[key]? =
      if key ∈ rows.map Prod.snd then index.records[key]?.map (finished now status)
      else index.records[key]? := by
  induction rows generalizing index with
  | nil => simp [finish]
  | cons row rest ih =>
      rw [show index.finish now (row :: rest) status =
        (index.finishOne now status row).finish now rest status from rfl, ih,
        getElem?_finishOne_records]
      simp only [List.map_cons, List.mem_cons]
      by_cases hrow : row.2 = key
      · rw [if_pos hrow, if_pos (Or.inl hrow.symm), Option.map_map]
        split
        next => exact congrArg (index.records[key]?.map ·) (funext fun record => by simp)
        next => rfl
      · rw [if_neg hrow]
        by_cases hrest : key ∈ rest.map Prod.snd
        · rw [if_pos hrest, if_pos (Or.inr hrest)]
        · rw [if_neg hrest, if_neg fun h => h.elim (fun h => hrow h.symm) hrest]

/-! ## Slips -/

theorem slips_ranked (index : RecordIndex) :
    index.slips.Pairwise fun first second => first.seq < second.seq :=
  List.pairwise_map.mpr index.pendingItems_ranked

theorem mem_slips {slip : Slip} :
    slip ∈ index.slips ↔ index.queue[slip.seq]? = some slip.entry.key ∧
      ∃ record : IndexRecord, index.records[slip.entry.key]? = some record ∧
        record.partitionId = slip.partitionId ∧ record.leafEntry slip.entry.key = slip.entry := by
  constructor
  · intro hslip
    obtain ⟨item, hitem, rfl⟩ := List.mem_map.mp hslip
    obtain ⟨hrow, hrecord⟩ := mem_pendingItems.mp hitem
    exact ⟨hrow, item.2.2, hrecord, rfl, rfl⟩
  · rintro ⟨hrow, record, hrecord, hpartition, hentry⟩
    refine List.mem_map.mpr ⟨(slip.seq, slip.entry.key, record),
      mem_pendingItems.mpr ⟨hrow, hrecord⟩, ?_⟩
    obtain ⟨seq, partitionId, entry⟩ := slip
    exact Slip.mk.injEq _ _ _ _ _ _ ▸ ⟨rfl, hpartition, hentry⟩

/-- A sequence number names one slip. -/
theorem slip_unique {first second : Slip} (hfirst : first ∈ index.slips)
    (hsecond : second ∈ index.slips) (hseq : first.seq = second.seq) : first = second := by
  have hnodup : (index.slips.map Slip.seq).Nodup :=
    List.pairwise_map.mpr (index.slips_ranked.imp fun hlt => ne_of_lt hlt)
  exact List.inj_on_of_nodup_map hnodup hfirst hsecond hseq

/-- Finishing rows takes their slips out of the queue, and changes no other. -/
theorem slips_finish (index : RecordIndex) (now : Timestamp) (rows : List (Nat × String))
    (status : RecordStatus) :
    (index.finish now rows status).slips =
      index.slips.filter fun slip => slip.seq ∉ rows.map Prod.fst := by
  refine eq_of_ranked Slip.seq (slips_ranked _) (index.slips_ranked.filter _) fun slip => ?_
  rw [List.mem_filter, decide_eq_true_eq, mem_slips, mem_slips, getElem?_finish_queue,
    getElem?_finish_records]
  constructor
  · rintro ⟨hrow, record, hrecord, hpartition, hentry⟩
    split at hrow
    next => cases hrow
    next hkept =>
      refine ⟨⟨hrow, ?_⟩, hkept⟩
      split at hrecord
      next =>
        obtain ⟨earlier, hearlier, rfl⟩ := Option.map_eq_some_iff.mp hrecord
        exact ⟨earlier, hearlier, hpartition, hentry⟩
      next => exact ⟨record, hrecord, hpartition, hentry⟩
  · rintro ⟨⟨hrow, record, hrecord, hpartition, hentry⟩, hkept⟩
    rw [if_neg hkept, hrecord]
    refine ⟨hrow, ?_⟩
    split
    next => exact ⟨_, rfl, hpartition, hentry⟩
    next => exact ⟨record, rfl, hpartition, hentry⟩

end RecordIndex

end Registry

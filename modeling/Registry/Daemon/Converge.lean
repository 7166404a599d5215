import Registry.Daemon.Alone
import Registry.Daemon.Durability
import Registry.Daemon.Readable

/-! # Replayed cycles converge

A cycle that was cut short is replayed on trees that may already hold its rows.
Whatever the schedule, each partition's tree is at any time the one at the start,
grown by the rows below some sequence number, and all later rows are still queued.
Once the queue is empty, nothing of the schedule is left to be seen.
-/

namespace Registry

open Effect

/-! ## The rows that a queue still holds -/

/-- The slips of a partition that go into its tree. -/
def RecordIndex.dueSlips (index : RecordIndex) (denylist : Finset String) (partitionId : Nat) :
    List Slip :=
  index.slips.filter fun slip => slip.partitionId = partitionId ∧ slip.entry.key ∉ denylist

/-- The entries that a partition's slips below a bound bring. -/
def RecordIndex.dueBelow (index : RecordIndex) (denylist : Finset String)
    (partitionId bound : Nat) : List LeafEntry :=
  ((index.dueSlips denylist partitionId).filter fun slip => slip.seq < bound).map Slip.entry

def RecordIndex.statusOf (index : RecordIndex) (key : String) : Option RecordStatus :=
  index.records[key]?.map IndexRecord.status

/-- The status that a cycle gives to a key. -/
def settledStatus (denylist : Finset String) (key : String) : RecordStatus :=
  if key ∈ denylist then .denylisted else .published

namespace RecordIndex

variable {index start : RecordIndex} {denylist : Finset String} {partitionId bound low : Nat}

theorem mem_dueSlips {slip : Slip} :
    slip ∈ index.dueSlips denylist partitionId ↔
      slip ∈ index.slips ∧ slip.partitionId = partitionId ∧ slip.entry.key ∉ denylist := by
  simp [dueSlips]

theorem dueSlips_ranked (index : RecordIndex) (denylist : Finset String) (partitionId : Nat) :
    (index.dueSlips denylist partitionId).Pairwise fun first second => first.seq < second.seq :=
  index.slips_ranked.filter _

/-- Raising the bound adds the slips between. -/
theorem dueBelow_max (index : RecordIndex) (denylist : Finset String)
    (partitionId low bound : Nat) :
    index.dueBelow denylist partitionId (max low bound) =
      index.dueBelow denylist partitionId low ++
        (((index.dueSlips denylist partitionId).filter fun slip => low ≤ slip.seq).filter
          fun slip => slip.seq < bound).map Slip.entry := by
  rw [dueBelow, dueBelow, ← List.map_append,
    filter_lt_eq_append Slip.seq (index.dueSlips_ranked denylist partitionId)]

/-- Rows that were taken from the queue, and are finished, are gone from it. -/
theorem slips_finish_items {chosen : List PendingItem} (hslips : index.slips ⊆ start.slips)
    (hchosen : ∀ item ∈ chosen, item.slip ∈ start.slips) (now : Timestamp)
    (status : RecordStatus) :
    (index.finish now (chosen.map PendingItem.row) status).slips =
      index.slips.filter fun slip => slip ∉ chosen.map PendingItem.slip := by
  rw [slips_finish]
  refine List.filter_congr fun slip hslip => ?_
  simp only [List.map_map, decide_not, Bool.not_eq_eq_eq_not, Bool.not_not, decide_eq_decide]
  constructor
  · intro hseq
    obtain ⟨item, hitem, hsame⟩ := List.mem_map.mp hseq
    exact List.mem_map.mpr ⟨item, hitem,
      slip_unique (hchosen item hitem) (hslips hslip) hsame⟩
  · intro hmem
    obtain ⟨item, hitem, rfl⟩ := List.mem_map.mp hmem
    exact List.mem_map.mpr ⟨item, hitem, rfl⟩

theorem statusOf_finish (index : RecordIndex) (now : Timestamp) (rows : List (Nat × String))
    (status : RecordStatus) (key : String) :
    (index.finish now rows status).statusOf key =
      if key ∈ rows.map Prod.snd then (index.statusOf key).map fun _ => status
      else index.statusOf key := by
  rw [statusOf, getElem?_finish_records]
  split
  next => simp only [Option.map_map, statusOf]; rfl
  next => rfl

theorem statusOf_isSome_of_mem_slips {slip : Slip} (hslip : slip ∈ index.slips) :
    (index.statusOf slip.entry.key).isSome := by
  obtain ⟨-, record, hrecord, -⟩ := mem_slips.mp hslip
  rw [statusOf, hrecord]
  rfl

end RecordIndex

/-! ## What a schedule of cycles keeps -/

section Underway

variable (prim : Primitives) (config : Config) (denylist : Finset String) (start : World)
  (base : Nat → HamtTrie)

/-- The first tree of a partition, grown by the slips below a bound; all later slips are
still queued. -/
structure GrownTo (partitionId bound : Nat) (grown : HamtTrie) (world : World) : Prop where
  inserted : prim.scheme.insertAll config.leafMaxEntries
    (start.index.dueBelow denylist partitionId bound) (base partitionId) = .ok grown
  left : ((world.index.dueSlips denylist partitionId).filter fun slip => bound ≤ slip.seq) =
    (start.index.dueSlips denylist partitionId).filter fun slip => bound ≤ slip.seq

/-- How a partition's roots stand to the slips below a bound: as at the start if there is
none, or both at the grown tree, or with some slip still to be replayed. -/
inductive RootsAt (partitionId bound : Nat) (world : World) : Prop
  | untouched (nothing : start.index.dueBelow denylist partitionId bound = [])
      (known : world.index.localRoots[partitionId]? = start.index.localRoots[partitionId]?)
      (named : ∀ root, NamesRoot prim start (.partition partitionId) root →
        NamesRoot prim world (.partition partitionId) root)
  | abreast (something : start.index.dueBelow denylist partitionId bound ≠ []) (root : Hash)
      (known : world.index.localRoots[partitionId]? = some root)
      (named : NamesRoot prim world (.partition partitionId) (some root))
  | behind (slip : Slip) (queued : slip ∈ world.index.dueSlips denylist partitionId)

/-- A partition's current tree, and how far it has come. -/
def Tracked (partitionId : Nat) (world : World) : Prop :=
  ∃ bound grown localRoot docRoot,
    GrownTo prim config denylist start base partitionId bound grown world ∧
    Rooted (.canonical prim) partitionId localRoot docRoot grown world ∧
    RootsAt prim denylist start partitionId bound world

/-- What holds between any two operations of the cycles. -/
structure Underway (world : World) : Prop where
  slips : world.index.slips ⊆ start.index.slips
  statuses : ∀ key : String,
    (world.index.statusOf key = start.index.statusOf key ∧
      ∀ slip ∈ start.index.slips, slip.entry.key = key → slip ∈ world.index.slips) ∨
    ((∃ slip ∈ start.index.slips, slip.entry.key = key) ∧
      world.index.statusOf key = some (settledStatus denylist key))
  tracked : ∀ partitionId, Tracked prim config denylist start base partitionId world

/-- A group as it was taken from the queue. -/
def Taken (world : World) (group : Nat × List PendingItem) : Prop :=
  ∃ bound, group.2.map PendingItem.slip =
    (world.index.slips.filter fun slip => slip.partitionId = group.1).filter
      fun slip => slip.seq < bound

/-- Groups of different partitions, among them all slips below a goal. -/
structure Groups (goal : Nat) (groups : List (Nat × List PendingItem)) (world : World) : Prop where
  nodup : (groups.map Prod.fst).Nodup
  taken : ∀ group ∈ groups, Taken world group
  urgent : ∀ slip ∈ world.index.slips, slip.seq < goal →
    ∃ group ∈ groups, slip ∈ group.2.map PendingItem.slip

/-- What is left of a group whose publishable rows are finished. -/
structure Leftover (goal partitionId : Nat) (items : List PendingItem)
    (rest : List (Nat × List PendingItem)) (world : World) : Prop where
  nodup : (partitionId :: rest.map Prod.fst).Nodup
  taken : ∀ group ∈ rest, Taken world group
  known : ∀ item ∈ denied denylist items,
    item.slip ∈ world.index.slips ∧ item.2.2.partitionId = partitionId
  urgent : ∀ slip ∈ world.index.slips, slip.seq < goal →
    slip ∈ (denied denylist items).map PendingItem.slip ∨
      ∃ group ∈ rest, slip ∈ group.2.map PendingItem.slip

/-- A bound that the publishable rows of a group lie below. -/
def Covers (bound : Nat) (items : List PendingItem) : Prop :=
  ∀ item ∈ publishable denylist items, item.1 < bound

/-- What a cycle knows at each stage. -/
def Converges (goal : Nat) : CycleStage → World → Prop
  | .todo groups, world => Groups goal groups world
  | .pointed root partitionId items rest, world =>
      Groups goal ((partitionId, items) :: rest) world ∧
        ∃ bound grown, GrownTo prim config denylist start base partitionId bound grown world ∧
          Covers denylist bound items ∧ start.index.dueBelow denylist partitionId bound ≠ [] ∧
          (Primitives.Naming.canonical prim).names world.blobs grown (some root) ∧
          NamesRoot prim world (.partition partitionId) (some root)
  | .extended partitionId items rest, world =>
      Groups goal ((partitionId, items) :: rest) world ∧
        ∃ bound grown root, GrownTo prim config denylist start base partitionId bound grown world ∧
          Covers denylist bound items ∧ start.index.dueBelow denylist partitionId bound ≠ [] ∧
          Rooted (.canonical prim) partitionId (some root) none grown world ∧
          NamesRoot prim world (.partition partitionId) (some root)
  | .marked partitionId items rest, world => Leftover denylist goal partitionId items rest world

end Underway

section Steps

variable {prim : Primitives} {config : Config} {denylist : Finset String} {start : World}
  {base : Nat → HamtTrie} {partitionId bound low : Nat} {grown : HamtTrie} {world later : World}
  {items : List PendingItem}

theorem publishable_slips (denylist : Finset String) (items : List PendingItem) :
    (publishable denylist items).map PendingItem.slip =
      (items.map PendingItem.slip).filter fun slip => slip.entry.key ∉ denylist := by
  rw [List.filter_map]
  rfl

theorem denied_slips (denylist : Finset String) (items : List PendingItem) :
    (denied denylist items).map PendingItem.slip =
      (items.map PendingItem.slip).filter fun slip => slip.entry.key ∈ denylist := by
  rw [List.filter_map]
  rfl

/-- What a group brings is what its partition's queue has below a bound. -/
theorem Taken.publishable_eq (htaken : Taken world (partitionId, items))
    (denylist : Finset String) :
    ∃ bound, (publishable denylist items).map PendingItem.slip =
      (world.index.dueSlips denylist partitionId).filter fun slip => slip.seq < bound := by
  obtain ⟨bound, hitems⟩ := htaken
  refine ⟨bound, ?_⟩
  rw [publishable_slips, hitems, RecordIndex.dueSlips, List.filter_filter, List.filter_filter,
    List.filter_filter]
  refine List.filter_congr fun slip _ => ?_
  simp only [← Bool.decide_and, decide_eq_decide]
  tauto

theorem Taken.subset (htaken : Taken world (partitionId, items)) :
    ∀ item ∈ items, item.slip ∈ world.index.slips ∧ item.2.2.partitionId = partitionId := by
  obtain ⟨bound, hitems⟩ := htaken
  intro item hitem
  have hslip : item.slip ∈ items.map PendingItem.slip := List.mem_map.mpr ⟨item, hitem, rfl⟩
  rw [hitems] at hslip
  obtain ⟨hqueued, hpartition⟩ := List.mem_filter.mp (List.mem_filter.mp hslip).1
  exact ⟨hqueued, of_decide_eq_true hpartition⟩

/-- A group's insertion into the current tree gives the tree of all slips below some
higher bound. -/
theorem GrownTo.grow (hwf : prim.scheme.WellFormed 0 (base partitionId))
    (hgrown : GrownTo prim config denylist start base partitionId low grown world)
    (hslips : world.index.slips ⊆ start.index.slips) (htaken : Taken world (partitionId, items)) :
    ∃ bound, low ≤ bound ∧ Covers denylist bound items ∧
      prim.scheme.insertAll config.leafMaxEntries
        ((publishable denylist items).map PendingItem.entry) grown =
      prim.scheme.insertAll config.leafMaxEntries
        (start.index.dueBelow denylist partitionId bound) (base partitionId) := by
  obtain ⟨bound, hitems⟩ := htaken.publishable_eq denylist
  refine ⟨max low bound, le_max_left _ _, ?_, ?_⟩
  · intro item hitem
    have hslip : item.slip ∈ (publishable denylist items).map PendingItem.slip :=
      List.mem_map.mpr ⟨item, hitem, rfl⟩
    rw [hitems] at hslip
    exact (of_decide_eq_true (List.mem_filter.mp hslip).2).trans_le (le_max_right _ _)
  · -- The slips below the old bound are replayed, and those above it are new.
    have hentries : (publishable denylist items).map PendingItem.entry =
        ((publishable denylist items).map PendingItem.slip).map Slip.entry := by
      rw [List.map_map]
      rfl
    have hfresh : (((world.index.dueSlips denylist partitionId).filter fun slip =>
          slip.seq < bound).filter fun slip => low ≤ slip.seq) =
        ((start.index.dueSlips denylist partitionId).filter fun slip => low ≤ slip.seq).filter
          fun slip => slip.seq < bound := by
      rw [← hgrown.left, List.filter_filter, List.filter_filter]
      exact List.filter_congr fun slip _ => Bool.and_comm _ _
    rw [hentries, hitems, eq_filter_append_filter Slip.seq
      ((world.index.dueSlips_ranked denylist partitionId).filter _) low, hfresh, List.map_append,
      RecordIndex.dueBelow_max]
    refine prim.scheme.insertAll_replay hwf hgrown.inserted fun entry hentry => ?_
    obtain ⟨slip, hslip, rfl⟩ := List.mem_map.mp hentry
    obtain ⟨hbelow, hlow⟩ := List.mem_filter.mp hslip
    obtain ⟨hqueued, hdue⟩ := RecordIndex.mem_dueSlips.mp (List.mem_filter.mp hbelow).1
    exact List.mem_map.mpr ⟨slip, List.mem_filter.mpr
      ⟨RecordIndex.mem_dueSlips.mpr ⟨hslips hqueued, hdue⟩, hlow⟩, rfl⟩

theorem GrownTo.raise (hgrown : GrownTo prim config denylist start base partitionId low grown world)
    (hbound : low ≤ bound) {larger : HamtTrie}
    (hinsert : prim.scheme.insertAll config.leafMaxEntries
      (start.index.dueBelow denylist partitionId bound) (base partitionId) = .ok larger) :
    GrownTo prim config denylist start base partitionId bound larger world where
  inserted := hinsert
  left := by
    have hraise : ∀ slips : List Slip, (slips.filter fun slip => bound ≤ slip.seq) =
        (slips.filter fun slip => low ≤ slip.seq).filter fun slip => bound ≤ slip.seq := by
      intro slips
      rw [List.filter_filter]
      refine List.filter_congr fun slip _ => ?_
      rw [← Bool.decide_and, decide_eq_decide]
      omega
    rw [hraise, hgrown.left, ← hraise]

/-- A partition whose roots have not moved, and whose queue has not either. -/
theorem Tracked.steady (hsteady : Steady world later)
    (hdue : later.index.dueSlips denylist partitionId = world.index.dueSlips denylist partitionId)
    (htracked : Tracked prim config denylist start base partitionId world) :
    Tracked prim config denylist start base partitionId later := by
  obtain ⟨bound, grown, localRoot, docRoot, hgrown, hrooted, hroots⟩ := htracked
  refine ⟨bound, grown, localRoot, docRoot, ⟨hgrown.inserted, hdue ▸ hgrown.left⟩,
    hrooted.steady hsteady, ?_⟩
  cases hroots with
  | untouched nothing known named =>
      exact .untouched nothing (hsteady.localRoots ▸ known)
        fun root hstart => (named root hstart).steady hsteady
  | abreast something root known named =>
      exact .abreast something root (hsteady.localRoots ▸ known) (named.steady hsteady)
  | behind slip queued => exact .behind slip (hdue ▸ queued)

theorem Underway.sameTables (hsame : SameTables world later)
    (hunderway : Underway prim config denylist start base world) :
    Underway prim config denylist start base later where
  slips := hsame.index ▸ hunderway.slips
  statuses key := hsame.index ▸ hunderway.statuses key
  tracked partitionId := (hunderway.tracked partitionId).steady hsame.steady (by rw [hsame.index])

theorem Groups.of_slips {goal : Nat} {groups : List (Nat × List PendingItem)}
    (hslips : later.index.slips = world.index.slips) (hgroups : Groups goal groups world) :
    Groups goal groups later where
  nodup := hgroups.nodup
  taken group hgroup := by
    rw [Taken, hslips]
    exact hgroups.taken group hgroup
  urgent := hslips ▸ hgroups.urgent

/-- Something was inserted, so there is a tree. -/
theorem sealed_of_insertAll {entries : List LeafEntry} {trie grown : HamtTrie} {capacity : Nat}
    (hsome : entries ≠ []) (hinsert : prim.scheme.insertAll capacity entries trie = .ok grown) :
    Primitives.sealed grown = grown := by
  obtain ⟨entry, hentry⟩ := List.exists_mem_of_ne_nil entries hsome
  have hkey := (prim.scheme.hasKey_insertAll hinsert entry.key).mpr (Or.inr ⟨entry, hentry, rfl⟩)
  cases grown with
  | empty =>
      obtain ⟨present, hpresent, -⟩ := hkey
      exact hpresent.elim
  | leaf entries => rfl
  | node children => rfl

/-- A group with something to publish holds a slip that is due. -/
theorem Taken.exists_due (htaken : Taken world (partitionId, items))
    (hsome : publishable denylist items ≠ []) (hcovers : Covers denylist bound items) :
    ∃ slip ∈ world.index.dueSlips denylist partitionId, slip.seq < bound := by
  obtain ⟨item, hitem⟩ := List.exists_mem_of_ne_nil _ hsome
  obtain ⟨hmem, hkey⟩ := List.mem_filter.mp hitem
  obtain ⟨hqueued, hpartition⟩ := htaken.subset item hmem
  exact ⟨item.slip, RecordIndex.mem_dueSlips.mpr ⟨hqueued, hpartition, of_decide_eq_true hkey⟩,
    hcovers item hitem⟩

/-- The tree that a cycle has built for its group. -/
theorem Underway.built {goal : Nat} {rest : List (Nat × List PendingItem)} {root : Hash}
    (hwf : ∀ partitionId, prim.scheme.WellFormed 0 (base partitionId))
    (hfree : prim.CollisionFree {held | held ∈ world.blobs})
    (hunderway : Underway prim config denylist start base world)
    (hgroups : Groups goal ((partitionId, items) :: rest) world)
    (hsome : publishable denylist items ≠ [])
    (hbuilt : Built (.canonical prim) config denylist partitionId items root world) :
    ∃ bound grown, GrownTo prim config denylist start base partitionId bound grown world ∧
      Covers denylist bound items ∧ start.index.dueBelow denylist partitionId bound ≠ [] ∧
      (Primitives.Naming.canonical prim).names world.blobs grown (some root) := by
  obtain ⟨localRoot, docRoot, trie, larger, hrooted, hinsert, hnames⟩ := hbuilt
  obtain ⟨low, grown, currentLocal, currentDoc, hgrown, hcurrent, -⟩ :=
    hunderway.tracked partitionId
  obtain rfl := hrooted.unique hfree hcurrent
  have htaken := hgroups.taken _ List.mem_cons_self
  obtain ⟨bound, hbound, hcovers, hsame⟩ := hgrown.grow (hwf partitionId) hunderway.slips htaken
  have hlarger := hgrown.raise hbound (hsame ▸ hinsert)
  have hdue : start.index.dueBelow denylist partitionId bound ≠ [] := by
    obtain ⟨slip, hslip, hlt⟩ := htaken.exists_due hsome hcovers
    obtain ⟨hqueued, hadmitted⟩ := RecordIndex.mem_dueSlips.mp hslip
    refine List.ne_nil_of_mem (List.mem_map.mpr ⟨slip, List.mem_filter.mpr
      ⟨RecordIndex.mem_dueSlips.mpr ⟨hunderway.slips hqueued, hadmitted⟩, ?_⟩, rfl⟩)
    exact decide_eq_true hlt
  rw [sealed_of_insertAll hdue hlarger.inserted] at hnames
  exact ⟨bound, larger, hlarger, hcovers, hdue, hnames⟩

/-- Moving another partition's entry leaves a partition where it is. -/
theorem Tracked.setDoc_other {other : Nat} (hne : partitionId ≠ other) (bytes : Bytes)
    (htracked : Tracked prim config denylist start base other world) :
    Tracked prim config denylist start base other
      (prim.setDocBytes world (.partition partitionId) bytes) := by
  obtain ⟨bound, grown, localRoot, docRoot, hgrown, hrooted, hroots⟩ := htracked
  have hnamed : ∀ root, NamesRoot prim world (.partition other) root →
      NamesRoot prim (prim.setDocBytes world (.partition partitionId) bytes)
        (.partition other) root := by
    refine fun root hroot =>
      ⟨?_, fun hash hhash => List.mem_cons_of_mem _ (hroot.content hash hhash)⟩
    simpa [Primitives.setDocBytes, hne] using hroot.entry
  refine ⟨bound, grown, localRoot, docRoot, ⟨hgrown.inserted, hgrown.left⟩,
    hrooted.setDoc_other hne bytes, ?_⟩
  cases hroots with
  | untouched nothing known named =>
      exact .untouched nothing known fun root hstart => hnamed root (named root hstart)
  | abreast something root known named => exact .abreast something root known (hnamed _ named)
  | behind slip queued => exact .behind slip queued

theorem Tracked.setLocal_other {other : Nat} (hne : partitionId ≠ other) (root : Hash)
    (htracked : Tracked prim config denylist start base other world) :
    Tracked prim config denylist start base other (world.setLocalRoot partitionId root) := by
  obtain ⟨bound, grown, localRoot, docRoot, hgrown, hrooted, hroots⟩ := htracked
  have hknown : (world.setLocalRoot partitionId root).index.localRoots[other]? =
      world.index.localRoots[other]? := by
    simp only [RecordIndex.setLocalRoot, Std.ExtTreeMap.getElem?_insert, Std.compare_eq_iff_eq,
      if_neg hne]
  refine ⟨bound, grown, localRoot, docRoot, ⟨hgrown.inserted, hgrown.left⟩,
    hrooted.setLocal_other hne root, ?_⟩
  cases hroots with
  | untouched nothing known named =>
      exact .untouched nothing (hknown.trans known)
        fun root hstart => ⟨(named root hstart).entry, (named root hstart).content⟩
  | abreast something moved known named =>
      exact .abreast something moved (hknown.trans known) ⟨named.entry, named.content⟩
  | behind slip queued => exact .behind slip queued

/-- The pointer document is moved to a larger tree while the rows are still queued. -/
theorem Underway.setDoc {root : Hash} (hunderway : Underway prim config denylist start base world)
    (hgrown : GrownTo prim config denylist start base partitionId bound grown world)
    (hnames : (Primitives.Naming.canonical prim).names world.blobs grown (some root)) {slip : Slip}
    (hqueued : slip ∈ world.index.dueSlips denylist partitionId) :
    Underway prim config denylist start base
      (prim.setDocBytes world (.partition partitionId) root.bytes.toList) where
  slips := hunderway.slips
  statuses := hunderway.statuses
  tracked other := by
    by_cases hother : partitionId = other
    · subst hother
      obtain ⟨low, earlier, localRoot, docRoot, hearlier, hrooted, -⟩ :=
        hunderway.tracked partitionId
      cases localRoot with
      | some known =>
          exact ⟨low, earlier, some known, docRoot, ⟨hearlier.inserted, hearlier.left⟩,
            hrooted.setDoc_known _ _, .behind slip hqueued⟩
      | none =>
          exact ⟨bound, grown, none, some root, ⟨hgrown.inserted, hgrown.left⟩,
            Rooted.setDoc_adopted hrooted.known hnames, .behind slip hqueued⟩
    · exact (hunderway.tracked other).setDoc_other hother _

/-- The local root follows the pointer document. -/
theorem Underway.setLocal {root : Hash} (hunderway : Underway prim config denylist start base world)
    (hgrown : GrownTo prim config denylist start base partitionId bound grown world)
    (hsome : start.index.dueBelow denylist partitionId bound ≠ [])
    (hnames : (Primitives.Naming.canonical prim).names world.blobs grown (some root))
    (hnamed : NamesRoot prim world (.partition partitionId) (some root)) :
    Underway prim config denylist start base (world.setLocalRoot partitionId root) where
  slips := hunderway.slips
  statuses := hunderway.statuses
  tracked other := by
    by_cases hother : partitionId = other
    · subst hother
      refine ⟨bound, grown, some root, none, ⟨hgrown.inserted, hgrown.left⟩,
        Rooted.setLocal none hnames, .abreast hsome root ?_ ⟨hnamed.entry, hnamed.content⟩⟩
      simp [RecordIndex.setLocalRoot]
    · exact (hunderway.tracked other).setLocal_other hother root

/-! ### Finished rows -/

section Finish

variable {chosen : List PendingItem} {status : RecordStatus} (now : Timestamp)
  (hunderway : Underway prim config denylist start base world)
  (hchosen : ∀ item ∈ chosen, item.slip ∈ start.index.slips)

include hunderway hchosen

theorem Underway.slips_finish :
    (world.finish now (chosen.map PendingItem.row) status).index.slips =
      world.index.slips.filter fun slip => slip ∉ chosen.map PendingItem.slip :=
  RecordIndex.slips_finish_items hunderway.slips hchosen now status

theorem Underway.dueSlips_finish (partitionId : Nat) :
    (world.finish now (chosen.map PendingItem.row) status).index.dueSlips denylist partitionId =
      (world.index.dueSlips denylist partitionId).filter
        fun slip => slip ∉ chosen.map PendingItem.slip := by
  rw [RecordIndex.dueSlips, hunderway.slips_finish now hchosen, RecordIndex.dueSlips,
    List.filter_filter, List.filter_filter]
  exact List.filter_congr fun slip _ => Bool.and_comm _ _

/-- A partition of which no row that is due was finished. -/
theorem Underway.dueSlips_finish_eq (partitionId : Nat)
    (hothers : ∀ item ∈ chosen, item.2.2.partitionId ≠ partitionId ∨ item.2.1 ∈ denylist) :
    (world.finish now (chosen.map PendingItem.row) status).index.dueSlips denylist partitionId =
      world.index.dueSlips denylist partitionId := by
  rw [hunderway.dueSlips_finish now hchosen, List.filter_eq_self]
  intro slip hslip
  rw [decide_eq_true_eq]
  intro hmem
  obtain ⟨item, hitem, rfl⟩ := List.mem_map.mp hmem
  obtain ⟨-, hpartition, hkey⟩ := RecordIndex.mem_dueSlips.mp hslip
  exact (hothers item hitem).elim (· hpartition) hkey

/-- The rows of a group that stay untouched keep their place in the queue. -/
theorem Underway.taken_finish {group : Nat × List PendingItem} (htaken : Taken world group)
    (hothers : ∀ item ∈ chosen, item.2.2.partitionId ≠ group.1) :
    Taken (world.finish now (chosen.map PendingItem.row) status) group := by
  obtain ⟨bound, hitems⟩ := htaken
  refine ⟨bound, hitems.trans (congrArg _ ?_)⟩
  rw [hunderway.slips_finish now hchosen, List.filter_filter]
  refine List.filter_congr fun slip _ => ?_
  rw [← Bool.decide_and, decide_eq_decide]
  constructor
  · intro hpartition
    refine ⟨hpartition, fun hmem => ?_⟩
    obtain ⟨item, hitem, rfl⟩ := List.mem_map.mp hmem
    exact hothers item hitem hpartition
  · exact And.left

/-- Rows are finished with the status that is due to their keys. -/
theorem Underway.finish (hstatus : ∀ item ∈ chosen, settledStatus denylist item.2.1 = status)
    (htracked : ∀ partitionId, Tracked prim config denylist start base partitionId
      (world.finish now (chosen.map PendingItem.row) status)) :
    Underway prim config denylist start base
      (world.finish now (chosen.map PendingItem.row) status) where
  slips slip hslip := by
    rw [hunderway.slips_finish now hchosen] at hslip
    exact hunderway.slips (List.mem_filter.mp hslip).1
  tracked := htracked
  statuses key := by
    rw [RecordIndex.statusOf_finish, hunderway.slips_finish now hchosen]
    by_cases hkey : key ∈ (chosen.map PendingItem.row).map Prod.snd
    · rw [if_pos hkey]
      rw [List.map_map] at hkey
      obtain ⟨item, hitem, rfl⟩ := List.mem_map.mp hkey
      refine Or.inr ⟨⟨item.slip, hchosen item hitem, rfl⟩, ?_⟩
      have hsome : (world.index.statusOf item.2.1).isSome := by
        rcases hunderway.statuses item.2.1 with ⟨hsame, -⟩ | ⟨-, hsettled⟩
        · rw [hsame]
          exact RecordIndex.statusOf_isSome_of_mem_slips (hchosen item hitem)
        · rw [hsettled]
          rfl
      obtain ⟨earlier, hearlier⟩ := Option.isSome_iff_exists.mp hsome
      change (world.index.statusOf item.2.1).map _ = some (settledStatus denylist item.2.1)
      rw [hearlier, hstatus item hitem, Option.map_some]
    · rw [if_neg hkey]
      refine (hunderway.statuses key).imp_left fun ⟨hsame, hqueued⟩ =>
        ⟨hsame, fun slip hslip hslipKey => ?_⟩
      refine List.mem_filter.mpr ⟨hqueued slip hslip hslipKey, decide_eq_true fun hmem => ?_⟩
      obtain ⟨item, hitem, rfl⟩ := List.mem_map.mp hmem
      rw [List.map_map] at hkey
      exact hkey (List.mem_map.mpr ⟨item, hitem, hslipKey⟩)

end Finish

/-! ### The groups of a cycle -/

/-- A cycle that has room for all slips below the goal reads them. -/
theorem groups_read {goal : Nat}
    (hroom : (world.index.slips.filter fun slip => slip.seq < goal).length ≤
      config.publishMaxPending) :
    Groups goal (groupByPartition (world.index.pendingBatch config.publishMaxPending)).toList
      world where
  nodup := by
    have hdistinct := (groupByPartition
      (world.index.pendingBatch config.publishMaxPending)).distinct_keys_toList
    exact List.pairwise_map.mpr (hdistinct.imp fun hne heq => hne (by simp [heq]))
  taken group hgroup := by
    obtain ⟨hitems, -⟩ := mem_groupByPartition.mp hgroup
    obtain ⟨bound, hbatch⟩ := exists_take_eq_filter Prod.fst world.index.pendingItems_ranked
      config.publishMaxPending
    refine ⟨bound, ?_⟩
    rw [hitems, RecordIndex.pendingBatch, hbatch, RecordIndex.slips, List.filter_map,
      List.filter_map, List.filter_filter, List.filter_filter]
    refine congrArg _ (List.filter_congr fun item _ => ?_)
    exact Bool.and_comm _ _
  urgent slip hslip hgoal := by
    obtain ⟨item, hitem, rfl⟩ := List.mem_map.mp hslip
    -- Fewer slips come before this one than below the goal, where it lies itself.
    have hcount : (world.index.pendingItems.filter fun other => other.1 < item.1).length <
        config.publishMaxPending := by
      rw [RecordIndex.slips, List.filter_map, List.length_map] at hroom
      refine lt_of_lt_of_le ?_ hroom
      have hbelow : (world.index.pendingItems.filter fun other => other.1 < item.1) =
          (world.index.pendingItems.filter fun other => other.slip.seq < goal).filter
            fun other => other.1 < item.1 := by
        rw [List.filter_filter]
        refine List.filter_congr fun other _ => ?_
        rw [← Bool.decide_and, decide_eq_decide]
        exact ⟨fun hlt => ⟨hlt, lt_trans hlt hgoal⟩, And.left⟩
      rw [hbelow]
      exact List.length_filter_lt_length_iff_exists.mpr
        ⟨item, List.mem_filter.mpr ⟨hitem, decide_eq_true hgoal⟩, by simp⟩
    have hbatch : item ∈ world.index.pendingBatch config.publishMaxPending :=
      RecordIndex.mem_pendingBatch.mpr ⟨hitem, hcount⟩
    let members := (world.index.pendingBatch config.publishMaxPending).filter
      fun other => other.2.2.partitionId = item.2.2.partitionId
    have hmember : item ∈ members := List.mem_filter.mpr ⟨hbatch, by simp⟩
    exact ⟨(item.2.2.partitionId, members),
      mem_groupByPartition.mpr ⟨rfl, List.ne_nil_of_mem hmember⟩,
      List.mem_map.mpr ⟨item, hmember, rfl⟩⟩

/-- With no publishable row in it, all of a group is left over. -/
theorem Groups.leftover {goal : Nat} {rest : List (Nat × List PendingItem)}
    (hgroups : Groups goal ((partitionId, items) :: rest) world)
    (hnone : publishable denylist items = []) :
    Leftover denylist goal partitionId items rest world where
  nodup := hgroups.nodup
  taken group hgroup := hgroups.taken group (List.mem_cons_of_mem _ hgroup)
  known item hitem :=
    (hgroups.taken _ List.mem_cons_self).subset item (List.mem_of_mem_filter hitem)
  urgent slip hslip hgoal := by
    obtain ⟨group, hgroup, hmem⟩ := hgroups.urgent slip hslip hgoal
    rcases List.mem_cons.mp hgroup with rfl | hrest
    · obtain ⟨item, hitem, rfl⟩ := List.mem_map.mp hmem
      have hdenied := List.filter_eq_nil_iff.mp hnone item hitem
      exact Or.inl
        (List.mem_map.mpr ⟨item, List.mem_filter.mpr ⟨hitem, by simpa using hdenied⟩, rfl⟩)
    · exact Or.inr ⟨group, hrest, hmem⟩

/-- The publishable rows of the first group are finished. -/
theorem Groups.finish {goal : Nat} {rest : List (Nat × List PendingItem)} (now : Timestamp)
    (hunderway : Underway prim config denylist start base world)
    (hgroups : Groups goal ((partitionId, items) :: rest) world) :
    Leftover denylist goal partitionId items rest
      (world.finish now ((publishable denylist items).map PendingItem.row) .published) := by
  have hknown := (hgroups.taken _ List.mem_cons_self).subset
  have hchosen : ∀ item ∈ publishable denylist items, item.slip ∈ start.index.slips :=
    fun item hitem => hunderway.slips (hknown item (List.mem_of_mem_filter hitem)).1
  refine ⟨hgroups.nodup, fun group hgroup => ?_, fun item hitem => ?_, fun slip hslip hgoal => ?_⟩
  · refine hunderway.taken_finish now hchosen
      (hgroups.taken group (List.mem_cons_of_mem _ hgroup)) fun item hitem => ?_
    rw [(hknown item (List.mem_of_mem_filter hitem)).2]
    rintro rfl
    exact (List.nodup_cons.mp hgroups.nodup).1 (List.mem_map.mpr ⟨group, hgroup, rfl⟩)
  · obtain ⟨hmem, hkey⟩ := List.mem_filter.mp hitem
    obtain ⟨hqueued, hpartition⟩ := hknown item hmem
    refine ⟨?_, hpartition⟩
    rw [hunderway.slips_finish now hchosen, publishable_slips]
    refine List.mem_filter.mpr ⟨hqueued, decide_eq_true fun hfinished => ?_⟩
    exact of_decide_eq_true (List.mem_filter.mp hfinished).2 (of_decide_eq_true hkey)
  · rw [hunderway.slips_finish now hchosen] at hslip
    obtain ⟨hqueued, hkept⟩ := List.mem_filter.mp hslip
    obtain ⟨group, hgroup, hmem⟩ := hgroups.urgent slip hqueued hgoal
    rcases List.mem_cons.mp hgroup with rfl | hrest
    · left
      rw [decide_eq_true_eq, publishable_slips, List.mem_filter, decide_eq_true_eq] at hkept
      rw [denied_slips, List.mem_filter, decide_eq_true_eq]
      exact ⟨hmem, by_contra fun hkey => hkept ⟨hmem, hkey⟩⟩
    · exact Or.inr ⟨group, hrest, hmem⟩

/-- The denied rows of the first group are finished too. -/
theorem Leftover.finish {goal : Nat} {rest : List (Nat × List PendingItem)} (now : Timestamp)
    (hunderway : Underway prim config denylist start base world)
    (hleftover : Leftover denylist goal partitionId items rest world) :
    Groups goal rest
      (world.finish now ((denied denylist items).map PendingItem.row) .denylisted) := by
  have hchosen : ∀ item ∈ denied denylist items, item.slip ∈ start.index.slips :=
    fun item hitem => hunderway.slips (hleftover.known item hitem).1
  refine ⟨(List.nodup_cons.mp hleftover.nodup).2, fun group hgroup => ?_,
    fun slip hslip hgoal => ?_⟩
  · refine hunderway.taken_finish now hchosen (hleftover.taken group hgroup) fun item hitem => ?_
    rw [(hleftover.known item hitem).2]
    rintro rfl
    exact (List.nodup_cons.mp hleftover.nodup).1 (List.mem_map.mpr ⟨group, hgroup, rfl⟩)
  · rw [hunderway.slips_finish now hchosen] at hslip
    obtain ⟨hqueued, hkept⟩ := List.mem_filter.mp hslip
    exact (hleftover.urgent slip hqueued hgoal).resolve_left (of_decide_eq_true hkept)

/-- With no denied row in it, nothing of the group is left. -/
theorem Leftover.groups {goal : Nat} {rest : List (Nat × List PendingItem)}
    (hleftover : Leftover denylist goal partitionId items rest world)
    (hnone : denied denylist items = []) : Groups goal rest world where
  nodup := (List.nodup_cons.mp hleftover.nodup).2
  taken := hleftover.taken
  urgent slip hslip hgoal := by
    have hleft := hleftover.urgent slip hslip hgoal
    rw [hnone] at hleft
    exact hleft.resolve_left List.not_mem_nil

/-- Finishing rows leaves no more of them. -/
theorem Underway.room_finish {goal max : Nat} {chosen : List PendingItem} {status : RecordStatus}
    (now : Timestamp) (hunderway : Underway prim config denylist start base world)
    (hchosen : ∀ item ∈ chosen, item.slip ∈ start.index.slips)
    (hroom : (world.index.slips.filter fun slip => slip.seq < goal).length ≤ max) :
    ((world.finish now (chosen.map PendingItem.row) status).index.slips.filter
      fun slip => slip.seq < goal).length ≤ max := by
  rw [hunderway.slips_finish now hchosen]
  exact ((List.filter_sublist.filter _).length_le).trans hroom

/-- Insertions that fail, fail for all slips of the partition. -/
theorem insertAll_due_error {error : String × Nat}
    (hinsert : prim.scheme.insertAll config.leafMaxEntries
      (start.index.dueBelow denylist partitionId bound) (base partitionId) = .error error) :
    prim.scheme.insertAll config.leafMaxEntries
      ((start.index.dueSlips denylist partitionId).map Slip.entry) (base partitionId) =
        .error error := by
  rw [eq_filter_append_filter Slip.seq (start.index.dueSlips_ranked denylist partitionId) bound,
    List.map_append, BucketTrie.Scheme.insertAll_append]
  rw [RecordIndex.dueBelow] at hinsert
  rw [hinsert]
  rfl

end Steps

/-! ## The rules of a replayed cycle -/

section Rules

variable {prim : Primitives} {config : Config} {denylist : Finset String} {start : World}
  {base : Nat → HamtTrie}

variable (prim config denylist start base) in
/-- Some partition's slips do not all go into its tree. -/
def Exhausted : Prop :=
  ∃ partitionId error, prim.scheme.insertAll config.leafMaxEntries
    ((start.index.dueSlips denylist partitionId).map Slip.entry) (base partitionId) = .error error

/-- Cycles keep to the trees that they replay, and get through all slips below a goal
for which they have room. -/
def converging (hwf : ∀ partitionId, prim.scheme.WellFormed 0 (base partitionId)) (goal : Nat) :
    AloneRules (.canonical prim) config denylist where
  inv world := Underway prim config denylist start base world ∧
    (world.index.slips.filter fun slip => slip.seq < goal).length ≤ config.publishMaxPending
  holds := Converges prim config denylist start base goal
  exhausted := Exhausted prim config denylist start base
  inv_same before after hsame hinv := ⟨hinv.1.sameTables hsame, hsame.index ▸ hinv.2⟩
  holds_same stage before after hsame hheld := by
    have hslips : after.index.slips = before.index.slips := by rw [hsame.index]
    cases stage with
    | todo groups => exact Groups.of_slips hslips hheld
    | pointed root partitionId items rest =>
        obtain ⟨hgroups, bound, grown, hgrown, hcovers, hsome, hnames, hnamed⟩ := hheld
        exact ⟨hgroups.of_slips hslips, bound, grown, ⟨hgrown.inserted, hsame.index ▸ hgrown.left⟩,
          hcovers, hsome, (Primitives.Naming.canonical prim).mono hsame.blobs hnames,
          hnamed.steady hsame.steady⟩
    | extended partitionId items rest =>
        obtain ⟨hgroups, bound, grown, root, hgrown, hcovers, hsome, hrooted, hnamed⟩ := hheld
        exact ⟨hgroups.of_slips hslips, bound, grown, root,
          ⟨hgrown.inserted, hsame.index ▸ hgrown.left⟩, hcovers, hsome,
          hrooted.steady hsame.steady, hnamed.steady hsame.steady⟩
    | marked partitionId items rest =>
        exact ⟨hheld.nodup, fun group hgroup => by
          rw [Taken, hslips]
          exact hheld.taken group hgroup, hslips ▸ hheld.known, hslips ▸ hheld.urgent⟩
  read world hinv := groups_read hinv.2
  rooted world partitionId items rest hinv _ := by
    obtain ⟨bound, grown, localRoot, docRoot, -, hrooted, -⟩ := hinv.1.tracked partitionId
    exact ⟨localRoot, docRoot, grown, hrooted⟩
  exhausts world partitionId items rest localRoot docRoot trie error hfree hinv hgroups hrooted
      hinsert := by
    obtain ⟨low, grown, currentLocal, currentDoc, hgrown, hcurrent, -⟩ := hinv.1.tracked partitionId
    obtain rfl := hrooted.unique hfree hcurrent
    obtain ⟨bound, -, -, hsame⟩ := hgrown.grow (hwf partitionId) hinv.1.slips
      (hgroups.taken _ List.mem_cons_self)
    exact ⟨partitionId, error, insertAll_due_error (hsame ▸ hinsert)⟩
  point before partitionId items rest root hfree hinv hsome hgroups hbuilt := by
    obtain ⟨bound, grown, hgrown, hcovers, hdue, hnames⟩ :=
      hinv.1.built hwf hfree hgroups hsome hbuilt
    obtain ⟨slip, hqueued, -⟩ :=
      (hgroups.taken _ List.mem_cons_self).exists_due hsome hcovers
    refine ⟨⟨hinv.1.setDoc hgrown hnames hqueued, hinv.2⟩,
      ⟨hgroups.nodup, hgroups.taken, hgroups.urgent⟩, bound, grown, ⟨hgrown.inserted, hgrown.left⟩,
      hcovers, hdue, (Primitives.Naming.canonical prim).mono (List.subset_cons_self _ _) hnames,
      NamesRoot.setDoc _ root before⟩
  adopt before partitionId items rest root hfree hinv hpointed := by
    obtain ⟨hgroups, bound, grown, hgrown, hcovers, hsome, hnames, hnamed⟩ := hpointed
    exact ⟨⟨hinv.1.setLocal hgrown hsome hnames hnamed, hinv.2⟩,
      ⟨hgroups.nodup, hgroups.taken, hgroups.urgent⟩, bound, grown, root,
      ⟨hgrown.inserted, hgrown.left⟩, hcovers, hsome, Rooted.setLocal none hnames,
      ⟨hnamed.entry, hnamed.content⟩⟩
  mark now before partitionId items rest hinv hextended := by
    obtain ⟨hgroups, bound, grown, root, hgrown, hcovers, hsome, hrooted, hnamed⟩ := hextended
    have htaken := hgroups.taken _ List.mem_cons_self
    have hchosen : ∀ item ∈ publishable denylist items, item.slip ∈ start.index.slips :=
      fun item hitem => hinv.1.slips (htaken.subset item (List.mem_of_mem_filter hitem)).1
    have hsteady := steady_finish before now ((publishable denylist items).map PendingItem.row)
      .published
    refine ⟨⟨hinv.1.finish now hchosen ?_ fun other => ?_, hinv.1.room_finish now hchosen hinv.2⟩,
      hgroups.finish now hinv.1⟩
    · intro item hitem
      exact if_neg (of_decide_eq_true (List.mem_filter.mp hitem).2)
    · by_cases hother : other = partitionId
      · subst hother
        refine ⟨bound, grown, some root, none, ⟨hgrown.inserted, ?_⟩, hrooted.steady hsteady,
          .abreast hsome root (hrooted.steady hsteady).known (hnamed.steady hsteady)⟩
        -- All rows that are finished lie below the bound.
        rw [hinv.1.dueSlips_finish now hchosen, ← hgrown.left, List.filter_filter]
        refine List.filter_congr fun slip _ => ?_
        rw [← Bool.decide_and, decide_eq_decide]
        refine ⟨And.left, fun hbound => ⟨hbound, fun hmem => ?_⟩⟩
        obtain ⟨item, hitem, rfl⟩ := List.mem_map.mp hmem
        exact (hcovers item hitem).not_ge hbound
      · refine (hinv.1.tracked other).steady hsteady
          (hinv.1.dueSlips_finish_eq now hchosen other ?_)
        intro item hitem
        rw [(htaken.subset item (List.mem_of_mem_filter hitem)).2]
        exact Or.inl fun heq => hother heq.symm
  deny now before partitionId items rest hinv hleftover := by
    have hchosen : ∀ item ∈ denied denylist items, item.slip ∈ start.index.slips :=
      fun item hitem => hinv.1.slips (hleftover.known item hitem).1
    have hdenied : ∀ item ∈ denied denylist items, item.2.1 ∈ denylist :=
      fun item hitem => of_decide_eq_true (List.mem_filter.mp hitem).2
    refine ⟨⟨hinv.1.finish now hchosen (fun item hitem => if_pos (hdenied item hitem))
      fun other => ?_, hinv.1.room_finish now hchosen hinv.2⟩, hleftover.finish now hinv.1⟩
    exact (hinv.1.tracked other).steady (steady_finish _ _ _ _)
      (hinv.1.dueSlips_finish_eq now hchosen other fun item hitem => Or.inr (hdenied item hitem))
  skip world partitionId items rest hnone hgroups := hgroups.leftover hnone
  undenied world partitionId items rest hnone hleftover := hleftover.groups hnone

/-- Before the first cycle. -/
theorem Underway.at_start
    (hbase : ∀ partitionId, ∃ localRoot docRoot,
      Rooted (.canonical prim) partitionId localRoot docRoot (base partitionId) start) :
    Underway prim config denylist start base start where
  slips := List.Subset.refl _
  statuses key := Or.inl ⟨rfl, fun slip hslip _ => hslip⟩
  tracked partitionId := by
    obtain ⟨localRoot, docRoot, hrooted⟩ := hbase partitionId
    have hnothing : start.index.dueBelow denylist partitionId 0 = [] := by
      simp [RecordIndex.dueBelow]
    refine ⟨0, base partitionId, localRoot, docRoot, ⟨?_, rfl⟩, hrooted,
      .untouched hnothing rfl fun _ hroot => hroot⟩
    rw [hnothing]
    rfl

/-- What is left once no slip is queued: the roots of a partition to which nothing was
due are where they were, and those of any other name the tree of all its slips. -/
theorem Underway.settled {world : World}
    (hunderway : Underway prim config denylist start base world)
    (hempty : world.index.slips = []) (partitionId : Nat) :
    (start.index.dueSlips denylist partitionId = [] ∧
      world.index.localRoots[partitionId]? = start.index.localRoots[partitionId]? ∧
      ∀ root, NamesRoot prim start (.partition partitionId) root →
        NamesRoot prim world (.partition partitionId) root) ∨
    (start.index.dueSlips denylist partitionId ≠ [] ∧ ∃ grown root,
      prim.scheme.insertAll config.leafMaxEntries
        ((start.index.dueSlips denylist partitionId).map Slip.entry) (base partitionId) =
          .ok grown ∧
      (Primitives.Naming.canonical prim).names world.blobs grown (some root) ∧
      world.index.localRoots[partitionId]? = some root ∧
      NamesRoot prim world (.partition partitionId) (some root)) := by
  obtain ⟨bound, grown, localRoot, docRoot, hgrown, hrooted, hroots⟩ :=
    hunderway.tracked partitionId
  have hnone : world.index.dueSlips denylist partitionId = [] := by
    rw [RecordIndex.dueSlips, hempty, List.filter_nil]
  -- Nothing is queued above the bound, so all slips lie below it.
  have hall : start.index.dueBelow denylist partitionId bound =
      (start.index.dueSlips denylist partitionId).map Slip.entry := by
    have hleft := hgrown.left
    rw [hnone, List.filter_nil] at hleft
    conv_rhs => rw [eq_filter_append_filter Slip.seq
      (start.index.dueSlips_ranked denylist partitionId) bound, ← hleft, List.append_nil]
    rfl
  have hinserted := hgrown.inserted
  rw [hall] at hinserted
  cases hroots with
  | untouched nothing known named =>
      rw [hall, List.map_eq_nil_iff] at nothing
      exact Or.inl ⟨nothing, known, named⟩
  | abreast something root known named =>
      rw [hall, ne_eq, List.map_eq_nil_iff] at something
      obtain rfl : localRoot = some root := hrooted.known.symm.trans known
      exact Or.inr ⟨something, grown, root, hinserted, hrooted.names, known, named⟩
  | behind slip queued =>
      rw [hnone] at queued
      cases queued

theorem Underway.settled_status {world : World}
    (hunderway : Underway prim config denylist start base world)
    (hempty : world.index.slips = []) (key : String) :
    ((∃ slip ∈ start.index.slips, slip.entry.key = key) ∧
      world.index.statusOf key = some (settledStatus denylist key)) ∨
    ((¬ ∃ slip ∈ start.index.slips, slip.entry.key = key) ∧
      world.index.statusOf key = start.index.statusOf key) := by
  rcases hunderway.statuses key with ⟨hsame, hqueued⟩ | hsettled
  · refine Or.inr ⟨fun ⟨slip, hslip, hkey⟩ => ?_, hsame⟩
    have hstill := hqueued slip hslip hkey
    rw [hempty] at hstill
    cases hstill
  · exact Or.inl hsettled

end Rules

/-! ## Runs of cycles -/

section Runs

variable {prim : Primitives} {config : Config} {denylist : Finset String}
  {start world later : World} {base : Nat → HamtTrie} {blobUniverse : Set Bytes} {faults : Faults}

/-- Wherever a cycle is left, its rows are in the trees or in the queue. -/
theorem Underway.visits (hwf : ∀ partitionId, prim.scheme.WellFormed 0 (base partitionId))
    (hfree : prim.CollisionFree blobUniverse)
    (hunderway : Underway prim config denylist start base world)
    (hvisits : Prog.Visits (prim.DaemonStep faults) (prim.publishCycle config denylist) world later)
    (hblobs : ∀ blob ∈ later.blobs, blob ∈ blobUniverse) :
    Underway prim config denylist start base later :=
  ((converging hwf 0).inv_of_visits hfree hvisits hblobs ⟨hunderway, by simp⟩).1

/-- A cycle only takes slips out of the queue. -/
theorem Underway.slips_subset (hwf : ∀ partitionId, prim.scheme.WellFormed 0 (base partitionId))
    (hfree : prim.CollisionFree blobUniverse)
    (hunderway : Underway prim config denylist start base world)
    (hvisits : Prog.Visits (prim.DaemonStep faults) (prim.publishCycle config denylist) world later)
    (hblobs : ∀ blob ∈ later.blobs, blob ∈ blobUniverse) :
    later.index.slips ⊆ world.index.slips := by
  -- The cycle starts from the trees that the partitions have now.
  choose bound grown localRoot docRoot hgrown hrooted _ using hunderway.tracked
  have hnow : Underway prim config denylist world grown world :=
    Underway.at_start fun partitionId => ⟨_, _, hrooted partitionId⟩
  exact (hnow.visits (fun partitionId => (prim.scheme.insertAll_ok (hwf partitionId)
    (hgrown partitionId).inserted).1) hfree hvisits hblobs).slips

/-- A cycle without faults that has room for all slips below a goal finishes them, unless
some tree runs out of key bytes. -/
theorem Underway.outcome {goal : Nat} {outcome : Prog.Outcome DaemonError Nat}
    (hwf : ∀ partitionId, prim.scheme.WellFormed 0 (base partitionId))
    (hfree : prim.CollisionFree blobUniverse)
    (hunderway : Underway prim config denylist start base world)
    (hroom : (world.index.slips.filter fun slip => slip.seq < goal).length ≤
      config.publishMaxPending)
    (hruns : Prog.Runs (prim.DaemonStep .none) (prim.publishCycle config denylist) world
      outcome later)
    (hblobs : ∀ blob ∈ later.blobs, blob ∈ blobUniverse) :
    outcome.Meets (fun _ after => ∀ slip ∈ after.index.slips, goal ≤ slip.seq)
      (fun _ _ => Exhausted prim config denylist start base) later := by
  have hmeets := (converging hwf goal).publishCycle_outcome hfree hruns hblobs ⟨hunderway, hroom⟩
  cases outcome with
  | ok count =>
      intro slip hslip
      by_contra hgoal
      obtain ⟨group, hgroup, -⟩ := Groups.urgent hmeets slip hslip (not_le.mp hgoal)
      cases hgroup
  | error error => exact hmeets
  | diverged => exact hmeets

/-- A cycle without faults takes at least the oldest slip. -/
theorem Underway.shortens {outcome : Prog.Outcome DaemonError Nat}
    (hwf : ∀ partitionId, prim.scheme.WellFormed 0 (base partitionId))
    (hfree : prim.CollisionFree blobUniverse) (hmax : 1 ≤ config.publishMaxPending)
    (hunderway : Underway prim config denylist start base world)
    (henough : ¬ Exhausted prim config denylist start base)
    (hruns : Prog.Runs (prim.DaemonStep .none) (prim.publishCycle config denylist) world
      outcome later)
    (hblobs : ∀ blob ∈ later.blobs, blob ∈ blobUniverse) :
    (∃ count, outcome = .ok count) ∧
      (world.index.slips ≠ [] → later.index.slips.length < world.index.slips.length) := by
  have hends : ∀ goal, (world.index.slips.filter fun slip => slip.seq < goal).length ≤
      config.publishMaxPending →
        (∃ count, outcome = .ok count) ∧ ∀ slip ∈ later.index.slips, goal ≤ slip.seq := by
    intro goal hroom
    have hmeets := hunderway.outcome hwf hfree hroom hruns hblobs
    cases outcome with
    | ok count => exact ⟨⟨count, rfl⟩, hmeets⟩
    | error error => exact absurd hmeets henough
    | diverged => exact hmeets.elim
  refine ⟨(hends 0 (by simp)).1, fun hqueued => ?_⟩
  cases hslips : world.index.slips with
  | nil => exact absurd hslips hqueued
  | cons oldest rest =>
      have hranked := hslips ▸ world.index.slips_ranked
      have hroom : (world.index.slips.filter fun slip => slip.seq < oldest.seq + 1).length ≤
          config.publishMaxPending := by
        have hnone : (rest.filter fun slip => slip.seq < oldest.seq + 1) = [] := by
          rw [List.filter_eq_nil_iff]
          intro slip hslip
          have hlt := List.rel_of_pairwise_cons hranked hslip
          simpa using hlt
        rw [hslips, List.filter_cons_of_pos (by simp), hnone]
        exact hmax
      obtain ⟨-, hrest⟩ := hends (oldest.seq + 1) hroom
      have hsubset := hunderway.slips_subset hwf hfree hruns.visits hblobs
      have hkept : later.index.slips =
          (oldest :: rest).filter fun slip => slip ∈ later.index.slips := by
        refine eq_of_ranked Slip.seq later.index.slips_ranked (hranked.filter _) fun slip => ?_
        rw [List.mem_filter, decide_eq_true_eq, ← hslips]
        exact ⟨fun hslip => ⟨hsubset hslip, hslip⟩, And.right⟩
      rw [hkept, List.length_filter_lt_length_iff_exists]
      refine ⟨oldest, List.mem_cons_self, fun hslip => ?_⟩
      have hstill := hrest oldest (of_decide_eq_true hslip)
      omega

end Runs

/-! ## Two ways to empty a queue -/

section Schedules

/-- A cycle with any faults that is abandoned anywhere, by its failure or with the process. -/
def AbortedCycle (prim : Primitives) (config : Config) (denylist : Finset String)
    (before after : World) : Prop :=
  ∃ later activeWrites,
    Prog.Visits (prim.DaemonStep .all) (prim.publishCycle config denylist) before
    later ∧ after = { later with activeWrites := activeWrites }

/-- A cycle without faults, run to its end. -/
def FaultlessCycle (prim : Primitives) (config : Config) (denylist : Finset String)
    (before after : World) : Prop :=
  ∃ outcome, Prog.Runs (prim.DaemonStep .none) (prim.publishCycle config denylist) before outcome
    after

/-- Two data directories with the same roots and the same statuses. -/
structure SameOutcome (prim : Primitives) (first second : World) : Prop where
  localRoots : ∀ partitionId : Nat,
    first.index.localRoots[partitionId]? = second.index.localRoots[partitionId]?
  docRoots : ∀ partitionId, ∃ root, NamesRoot prim first (.partition partitionId) root ∧
    NamesRoot prim second (.partition partitionId) root
  statuses : ∀ key, first.index.statusOf key = second.index.statusOf key

variable {prim : Primitives} {lib : Libraries} {config : Config} {faults : Faults}
  {denylist : Finset String} {start : World} {base : Nat → HamtTrie}

theorem Underway.sameOutcome {first second : World} {firstMax secondMax : Nat}
    (hnamed : ∀ partitionId, ∃ root, NamesRoot prim start (.partition partitionId) root)
    (hfirst : Underway prim { config with publishMaxPending := firstMax } denylist start base first)
    (hsecond : Underway prim { config with publishMaxPending := secondMax } denylist
      start base second)
    (hfirstEmpty : first.index.slips = []) (hsecondEmpty : second.index.slips = []) :
    SameOutcome prim first second := by
  have hroots : ∀ partitionId : Nat,
      first.index.localRoots[partitionId]? = second.index.localRoots[partitionId]? ∧
      ∃ root, NamesRoot prim first (.partition partitionId) root ∧
        NamesRoot prim second (.partition partitionId) root := by
    intro partitionId
    obtain ⟨hnone, hknown, hkept⟩ | ⟨hsome, grown, root, hinsert, hnames, hknown, hroot⟩ :=
      hfirst.settled hfirstEmpty partitionId
    · obtain ⟨-, hotherKnown, hotherKept⟩ | ⟨hother, -⟩ := hsecond.settled hsecondEmpty partitionId
      · obtain ⟨root, hroot⟩ := hnamed partitionId
        exact ⟨hknown.trans hotherKnown.symm, root, hkept root hroot, hotherKept root hroot⟩
      · exact absurd hnone hother
    · obtain ⟨hnone, -⟩ |
          ⟨-, other, otherRoot, hotherInsert, hotherNames, hotherKnown, hotherRoot⟩ :=
        hsecond.settled hsecondEmpty partitionId
      · exact absurd hnone hsome
      · -- The same slips give the same tree, and one tree has one hash.
        obtain rfl : grown = other := Except.ok.inj (hinsert.symm.trans hotherInsert)
        obtain rfl : root = otherRoot := Option.some.inj (hnames.1.symm.trans hotherNames.1)
        exact ⟨hknown.trans hotherKnown.symm, _, hroot, hotherRoot⟩
  refine ⟨fun partitionId => (hroots partitionId).1, fun partitionId => (hroots partitionId).2,
    fun key => ?_⟩
  obtain ⟨hqueued, hstatus⟩ | ⟨hnone, hstatus⟩ := hfirst.settled_status hfirstEmpty key
  · obtain ⟨-, hother⟩ | ⟨hother, -⟩ := hsecond.settled_status hsecondEmpty key
    · exact hstatus.trans hother.symm
    · exact absurd hqueued hother
  · obtain ⟨hother, -⟩ | ⟨-, hother⟩ := hsecond.settled_status hsecondEmpty key
    · exact absurd hother hnone
    · exact hstatus.trans hother.symm

/-- Some part of a cycle, with whatever faults, and then nothing that shows. -/
def CyclePart (prim : Primitives) (config : Config) (denylist : Finset String)
    (before after : World) : Prop :=
  ∃ faults later, Prog.Visits (prim.DaemonStep faults) (prim.publishCycle config denylist) before
    later ∧ SameTables later after

theorem AbortedCycle.part {before after : World}
    (hcycle : AbortedCycle prim config denylist before after) :
    CyclePart prim config denylist before after := by
  obtain ⟨later, activeWrites, hvisits, rfl⟩ := hcycle
  exact ⟨.all, later, hvisits, List.Subset.refl _, rfl, rfl⟩

theorem FaultlessCycle.part {before after : World}
    (hcycle : FaultlessCycle prim config denylist before after) :
    CyclePart prim config denylist before after := by
  obtain ⟨outcome, hruns⟩ := hcycle
  exact ⟨.none, after, hruns.visits, SameTables.refl after⟩

/-- However many cycles are begun, their rows are in the trees or in the queue. -/
theorem Underway.parts {world later : World} {blobUniverse : Set Bytes}
    (hwf : ∀ partitionId, prim.scheme.WellFormed 0 (base partitionId))
    (hfree : prim.CollisionFree blobUniverse)
    (hunderway : Underway prim config denylist start base world)
    (hparts : Relation.ReflTransGen (CyclePart prim config denylist) world later)
    (hblobs : ∀ blob ∈ later.blobs, blob ∈ blobUniverse) :
    Underway prim config denylist start base later := by
  induction hparts with
  | refl => exact hunderway
  | tail _ hpart ih =>
      obtain ⟨faults, middle, hvisits, hsame⟩ := hpart
      have hmiddle : ∀ blob ∈ middle.blobs, blob ∈ blobUniverse :=
        fun blob hblob => hblobs blob (hsame.blobs hblob)
      have hbefore := ih fun blob hblob =>
        hmiddle blob (Primitives.blobs_subset_of_visits hvisits hblob)
      exact (hbefore.visits hwf hfree hvisits hmiddle).sameTables hsame

/-- From every reachable state, with any denylist and batch size: however many cycles are
aborted, anywhere and by whatever faults, cycles without faults then end well and shorten
the queue, and once it is empty, every partition's roots and every record's status are
those that a single cycle with room for the whole queue leaves. -/
theorem publishing_converges {state : DaemonState}
    (hreachable : Reachable prim lib config faults state) (denylist : Finset String)
    {maxPending room count : Nat} (hmax : 1 ≤ maxPending) {aborted drained reference : World}
    (haborted : Relation.ReflTransGen
      (AbortedCycle prim { config with publishMaxPending := maxPending } denylist)
      state.world aborted)
    (hdrained : Relation.ReflTransGen
      (FaultlessCycle prim { config with publishMaxPending := maxPending } denylist)
      aborted drained)
    (hroom : state.world.index.pendingItems.length < room)
    (hreference : Prog.Runs (prim.DaemonStep .none)
      (prim.publishCycle { config with publishMaxPending := room } denylist) state.world (.ok count)
      reference)
    (hfree : prim.CollisionFree {held | held ∈ drained.blobs ∨ held ∈ reference.blobs}) :
    (drained.index.pendingItems = [] → SameOutcome prim drained reference) ∧
    (∀ outcome after, Prog.Runs (prim.DaemonStep .none)
        (prim.publishCycle { config with publishMaxPending := maxPending } denylist) drained outcome
        after → prim.CollisionFree {held | held ∈ after.blobs} →
      (∃ published, outcome = .ok published) ∧ (drained.index.pendingItems ≠ [] →
        after.index.pendingItems.length < drained.index.pendingItems.length)) := by
  have hgrown := Primitives.blobs_subset_of_visits hreference.visits
  have hstart : prim.CollisionFree {held | held ∈ state.world.blobs} :=
    hfree.mono fun blob hblob => Or.inr (hgrown hblob)
  choose trees htrees using (allLegible_of_reachable hreachable hstart).partitions
  let base : Nat → HamtTrie := fun partitionId =>
    (trees partitionId).current state.world.index.localRoots[partitionId]?
  have hcurrent := fun partitionId => (htrees partitionId).represents_current
  have hwf : ∀ partitionId, prim.scheme.WellFormed 0 (base partitionId) :=
    fun partitionId => (hcurrent partitionId).wellFormed
  have hbase : ∀ partitionId, ∃ localRoot docRoot,
      Rooted (.canonical prim) partitionId localRoot docRoot (base partitionId) state.world :=
    fun partitionId => ⟨_, _, rfl, fun _ => (htrees partitionId).docRoot,
      (hcurrent partitionId).hash, (hcurrent partitionId).stored⟩
  have hparts := (Relation.ReflTransGen.mono (fun _ _ => AbortedCycle.part) _ _ haborted).trans
    (Relation.ReflTransGen.mono (fun _ _ => FaultlessCycle.part) _ _ hdrained)
  have hdrainedUnderway : Underway prim { config with publishMaxPending := maxPending } denylist
      state.world base drained :=
    (Underway.at_start hbase).parts hwf hfree hparts fun blob hblob => Or.inl hblob
  -- The single cycle gets through all slips below the next sequence number.
  have hreferenceUnderway : Underway prim { config with publishMaxPending := room } denylist
      state.world base reference :=
    (Underway.at_start hbase).visits hwf hfree hreference.visits fun blob hblob => Or.inr hblob
  have hall :
      (state.world.index.slips.filter fun slip => slip.seq < state.world.index.nextSeq).length ≤
      room := by
    refine (List.length_filter_le _ _).trans ?_
    rw [RecordIndex.slips, List.length_map]
    exact hroom.le
  have hfinished := Underway.outcome hwf hfree (Underway.at_start hbase) hall hreference
    fun blob hblob => Or.inr hblob
  have hreferenceEmpty : reference.index.slips = [] := by
    rw [List.eq_nil_iff_forall_not_mem]
    intro slip hslip
    have hrow := (RecordIndex.mem_slips.mp (hreferenceUnderway.slips hslip)).1
    exact absurd ((durable_steps hreachable .refl).1.index.rows slip.seq _ hrow).1
      (hfinished slip hslip).not_gt
  have henough : ¬ Exhausted prim { config with publishMaxPending := maxPending }
      denylist state.world base := by
    rintro ⟨partitionId, error, hinsert⟩
    obtain ⟨hnone, -⟩ | ⟨-, grown, root, hgrown, -⟩ :=
      hreferenceUnderway.settled hreferenceEmpty partitionId
    · rw [hnone] at hinsert
      cases hinsert
    · cases hinsert.symm.trans hgrown
  have hslips : ∀ index : RecordIndex, index.slips = [] ↔ index.pendingItems = [] :=
    fun index => List.map_eq_nil_iff
  refine ⟨fun hempty => hdrainedUnderway.sameOutcome ?_ hreferenceUnderway
    ((hslips _).mpr hempty) hreferenceEmpty, fun outcome after hruns hafter => ?_⟩
  · exact fun partitionId => ⟨_, (htrees partitionId).docRoot⟩
  · obtain ⟨hended, hshorter⟩ := hdrainedUnderway.shortens hwf hafter hmax henough hruns
      fun blob hblob => hblob
    refine ⟨hended, fun hqueued => ?_⟩
    have hlength := hshorter fun hnone => hqueued ((hslips _).mp hnone)
    simpa only [RecordIndex.slips, List.length_map] using hlength

end Schedules

namespace Sample

/-- A cycle over so many of the two served records that keeps the second one out. -/
def cycle (maxPending : Nat) : DaemonProg Nat :=
  prim.publishCycle { Config.default with publishMaxPending := maxPending } {secondKey}

/-- The process stops between the writes of the two roots. -/
def cutShort : World :=
  { (cycle 1).stop (prim.daemonHandler createdAt) 6 served.world with activeWrites := 0 }

/-- Two cycles later. -/
def drained : World :=
  ((cycle 1).run (prim.daemonHandler createdAt)
    ((cycle 1).run (prim.daemonHandler createdAt) cutShort).2).2

def atOnce : Prog.Outcome DaemonError Nat × World :=
  (cycle 3).run (prim.daemonHandler createdAt) served.world

end Sample

theorem publishing_converges_sample :
    Sample.cutShort.index.localRoots = ∅ ∧ Sample.cutShort.doc ≠ .empty ∧
      SameOutcome Sample.prim Sample.drained Sample.atOnce.2 := by
  have hfacts : Sample.cutShort.index.localRoots = ∅ ∧ Sample.cutShort.doc ≠ .empty ∧
      Sample.drained.index.pendingItems = [] ∧ Sample.atOnce.1 = .ok 1 ∧
      (∀ left ∈ Sample.drained.blobs ++ Sample.atOnce.2.blobs,
        ∀ right ∈ Sample.drained.blobs ++ Sample.atOnce.2.blobs,
          Sample.prim.blake3 left = Sample.prim.blake3 right → left = right) ∧
      ∀ blob ∈ Sample.drained.blobs ++ Sample.atOnce.2.blobs,
        Sample.prim.blake3 blob ≠ Hash.zero := by decide +kernel
  obtain ⟨hlocalRoots, hdoc, hempty, hcount, hblobs⟩ := hfacts
  have haborted : AbortedCycle Sample.prim { Config.default with publishMaxPending := 1 }
      {Sample.secondKey} Sample.served.world Sample.cutShort :=
    ⟨_, 0, Prog.stop_visits (Sample.prim.daemonStep_daemonHandler .all Sample.createdAt) 6
      (Sample.cycle 1) Sample.served.world, rfl⟩
  have hcycle : ∀ world, FaultlessCycle Sample.prim { Config.default with publishMaxPending := 1 }
      {Sample.secondKey} world ((Sample.cycle 1).run (Sample.prim.daemonHandler Sample.createdAt)
        world).2 :=
    fun world => ⟨_, Sample.prim.daemonHandler_runs .none Sample.createdAt (Sample.cycle 1) world⟩
  have hdrained : Relation.ReflTransGen (FaultlessCycle Sample.prim
      { Config.default with publishMaxPending := 1 } {Sample.secondKey}) Sample.cutShort
      Sample.drained := .tail (.single (hcycle Sample.cutShort)) (hcycle _)
  have hreference : Prog.Runs (Sample.prim.DaemonStep .none) (Sample.cycle 3) Sample.served.world
      Sample.atOnce.1 Sample.atOnce.2 :=
    Sample.prim.daemonHandler_runs .none Sample.createdAt (Sample.cycle 3) Sample.served.world
  rw [hcount] at hreference
  have hfree : Sample.prim.CollisionFree
      {held | held ∈ Sample.drained.blobs ∨ held ∈ Sample.atOnce.2.blobs} :=
    (Primitives.collisionFree_of_blobs hblobs).mono fun blob hblob => List.mem_append.mpr hblob
  have hroom : Sample.served.world.index.pendingItems.length < 3 := by decide +kernel
  have hconverged := publishing_converges (Sample.served_reachable .all) {Sample.secondKey} le_rfl
    (.single haborted) hdrained hroom hreference hfree
  exact ⟨hlocalRoots, hdoc, hconverged.1 hempty⟩

end Registry

import Registry.Daemon.Admission
import Registry.Daemon.Queue
import Registry.Effect.Interpret

/-! # A queue row goes when its record is settled

A row leaves the queue only when its record has left the pending state, and no
record goes back. A cycle that succeeds has settled every row it read.
-/

namespace Registry

open Effect

namespace RecordIndex

/-- The record of a key has left the pending state. -/
def Settled (index : RecordIndex) (key : String) : Prop :=
  ∃ record : IndexRecord, index.records[key]? = some record ∧ record.status ≠ .pending

theorem Settled.of_records {before after : RecordIndex} {key : String}
    (hrecord : after.records[key]? = before.records[key]?) (hsettled : before.Settled key) :
    after.Settled key := by
  obtain ⟨record, hbefore, hstatus⟩ := hsettled
  exact ⟨record, hrecord.trans hbefore, hstatus⟩

/-- Submissions leave the old rows of the queue alone. -/
theorem getElem?_submitMany_queue (index : RecordIndex) (submissions : List (String × IndexRecord))
    {seq : Nat} (hseq : seq < index.nextSeq) :
    (index.submitMany submissions).2.queue[seq]? = index.queue[seq]? := by
  induction submissions generalizing index with
  | nil => rfl
  | cons submission rest ih =>
      rw [submitMany_cons]
      refine (ih _ (hseq.trans_le (index.submitOne_evolves _ _).nextSeq)).trans ?_
      obtain ⟨existing, -, heq⟩ | ⟨-, heq⟩ := index.submitOne_cases submission.1 submission.2
      · rw [heq]
      · have hne : index.nextSeq ≠ seq := ne_of_gt hseq
        rw [heq]
        simp only [Std.ExtTreeMap.getElem?_insert, Std.compare_eq_iff_eq, if_neg hne]

theorem finish_settled {index : RecordIndex} {now : Timestamp} {rows : List (Nat × String)}
    {status : RecordStatus} (hstatus : status ≠ .pending) {key : String}
    (hkey : index.Settled key ∨ key ∈ rows.map Prod.snd ∧
      ∃ record : IndexRecord, index.records[key]? = some record) :
    (index.finish now rows status).Settled key := by
  rw [Settled, getElem?_finish_records]
  split
  next hmem =>
    obtain ⟨record, hrecord⟩ : ∃ record : IndexRecord, index.records[key]? = some record :=
      hkey.elim (fun hsettled => hsettled.imp fun _ => And.left) And.right
    exact ⟨finished now status record, by rw [hrecord]; rfl, hstatus⟩
  next hmem => exact hkey.elim id fun hrow => absurd hrow.1 hmem

/-- The queue grows by the rows that are added, and shrinks by those that are gone. -/
theorem Consistent.size_queue_le {partitionOf : String → Nat} {before later : RecordIndex}
    (hlater : Consistent partitionOf later) (hevolves : Evolves before later) {gone : List Nat}
    (hnodup : gone.Nodup) (hqueued : ∀ seq ∈ gone, seq ∈ before.queue)
    (hgone : ∀ seq ∈ gone, later.queue[seq]? = none) :
    later.queue.size + gone.length + before.nextSeq ≤ before.queue.size + later.nextSeq := by
  have hsubset : later.queue.keys.toFinset ⊆
      (before.queue.keys.toFinset \ gone.toFinset) ∪ Finset.Ico before.nextSeq later.nextSeq := by
    intro seq hseq
    have hmem : seq ∈ later.queue := Std.ExtTreeMap.mem_keys.mp (List.mem_toFinset.mp hseq)
    obtain ⟨key, hrow⟩ :=
      Option.isSome_iff_exists.mp (Std.ExtTreeMap.mem_iff_isSome_getElem?.mp hmem)
    rw [Finset.mem_union]
    by_cases hold : seq < before.nextSeq
    · left
      rw [Finset.mem_sdiff, List.mem_toFinset, List.mem_toFinset, Std.ExtTreeMap.mem_keys,
        Std.ExtTreeMap.mem_iff_isSome_getElem?]
      rcases hevolves.rows seq hold with hkept | hdropped
      · refine ⟨by rw [← hkept, hrow]; rfl, fun hmember => ?_⟩
        rw [hgone seq hmember] at hrow
        cases hrow
      · rw [hdropped] at hrow
        cases hrow
    · exact Or.inr (Finset.mem_Ico.mpr ⟨not_lt.mp hold, (hlater.rows seq key hrow).1⟩)
  have hwithin : gone.toFinset ⊆ before.queue.keys.toFinset := fun seq hseq =>
    List.mem_toFinset.mpr (Std.ExtTreeMap.mem_keys.mpr (hqueued seq (List.mem_toFinset.mp hseq)))
  have hcard := (Finset.card_le_card hsubset).trans (Finset.card_union_le _ _)
  have hcardGone := Finset.card_le_card hwithin
  rw [Finset.card_sdiff_of_subset hwithin, Nat.card_Ico] at hcard
  rw [List.toFinset_card_of_nodup Std.ExtTreeMap.nodup_keys,
    List.toFinset_card_of_nodup Std.ExtTreeMap.nodup_keys, List.toFinset_card_of_nodup hnodup,
    Std.ExtTreeMap.length_keys, Std.ExtTreeMap.length_keys] at hcard
  rw [List.toFinset_card_of_nodup Std.ExtTreeMap.nodup_keys, List.toFinset_card_of_nodup hnodup,
    Std.ExtTreeMap.length_keys] at hcardGone
  have hseq := hevolves.nextSeq
  omega

theorem Consistent.length_pendingItems {partitionOf : String → Nat} {index : RecordIndex}
    (hindex : Consistent partitionOf index) : index.pendingItems.length = index.queue.size := by
  have hseqs : (index.pendingItems.map Prod.fst).Perm index.queue.keys := by
    refine (List.perm_ext_iff_of_nodup index.pendingItems_nodup Std.ExtTreeMap.nodup_keys).mpr
      fun seq => ?_
    rw [List.mem_map, Std.ExtTreeMap.mem_keys, Std.ExtTreeMap.mem_iff_isSome_getElem?,
      Option.isSome_iff_exists]
    constructor
    · rintro ⟨item, hitem, rfl⟩
      exact ⟨_, (mem_pendingItems.mp hitem).1⟩
    · rintro ⟨key, hrow⟩
      obtain ⟨-, record, hrecord⟩ := hindex.rows seq key hrow
      exact ⟨(seq, key, record), mem_pendingItems.mpr ⟨hrow, hrecord⟩, rfl⟩
  rw [← List.length_map, hseqs.length_eq, Std.ExtTreeMap.length_keys]

end RecordIndex

/-- What requests and operators may do to the tables: records and rows stay as they are. -/
structure World.Adds (before after : World) : Prop where
  later : before.Later after
  records : ∀ (key : String) (record : IndexRecord), before.index.records[key]? = some record →
    after.index.records[key]? = some record
  rows : ∀ (seq : Nat) (key : String), before.index.queue[seq]? = some key →
    after.index.queue[seq]? = some key

/-- What any task may do: settled records stay settled, and a row is kept until its record
is settled. -/
structure World.Settles (before after : World) : Prop where
  later : before.Later after
  settled : ∀ key, before.index.Settled key → after.index.Settled key
  rows : ∀ (seq : Nat) (key : String), before.index.queue[seq]? = some key →
    after.index.queue[seq]? = some key ∨ after.index.Settled key

theorem World.Adds.refl (world : World) : world.Adds world :=
  ⟨.refl world, fun _ _ hrecord => hrecord, fun _ _ hrow => hrow⟩

theorem World.Adds.trans {first second third : World} (hfirst : first.Adds second)
    (hsecond : second.Adds third) : first.Adds third where
  later := hfirst.later.trans hsecond.later
  records key record hrecord := hsecond.records key record (hfirst.records key record hrecord)
  rows seq key hrow := hsecond.rows seq key (hfirst.rows seq key hrow)

theorem World.Adds.settles {before after : World} (hadds : before.Adds after) :
    before.Settles after where
  later := hadds.later
  settled key := by
    rintro ⟨record, hrecord, hstatus⟩
    exact ⟨record, hadds.records key record hrecord, hstatus⟩
  rows seq key hrow := Or.inl (hadds.rows seq key hrow)

theorem World.Settles.trans {first second third : World} (hfirst : first.Settles second)
    (hsecond : second.Settles third) : first.Settles third where
  later := hfirst.later.trans hsecond.later
  settled key hsettled := hsecond.settled key (hfirst.settled key hsettled)
  rows seq key hrow := by
    rcases hfirst.rows seq key hrow with hkept | hsettled
    · exact hsecond.rows seq key hkept
    · exact Or.inr (hsecond.settled key hsettled)

/-- The same records and queue, and no fewer blobs. -/
theorem World.Adds.of_same_tables {before after : World}
    (hsame : before.blobs ⊆ after.blobs ∧ after.index.records = before.index.records ∧
      after.index.queue = before.index.queue ∧ after.index.nextSeq = before.index.nextSeq) :
    before.Adds after := by
  obtain ⟨hblobs, hrecords, hqueue, hseq⟩ := hsame
  refine ⟨⟨hblobs, ⟨?_, ?_, ?_⟩⟩, ?_, ?_⟩
  · rw [hrecords]
    exact fun key record hrecord => ⟨record, hrecord, rfl⟩
  · rw [hseq]
  · rw [hqueue]
    exact fun seq _ => Or.inl rfl
  · rw [hrecords]
    exact fun _ _ hrecord => hrecord
  · rw [hqueue]
    exact fun _ _ hrow => hrow

section Steps

variable {prim : Primitives} {lib : Libraries} {config : Config} {faults : Faults}
  {before after : World}

/-- What a write request calls only adds. -/
theorem Vetted.adds {op : DaemonOp} {response : daemonSig.Res op} (hop : Vetted lib config op)
    (hbefore : Durable prim config before)
    (hstep : prim.DaemonStep faults op before response after) : before.Adds after := by
  unfold Vetted at hop
  split at hop
  next bytes =>
    have hput : Harmless (.store (.put bytes)) := trivial
    exact .of_same_tables (hstep.harmless hput)
  next submissions =>
    obtain ⟨rfl, -⟩ | ⟨rfl, -⟩ := hstep.index_cases
    · refine ⟨⟨List.Subset.refl _, before.index.submitMany_evolves submissions⟩, ?_, ?_⟩
      · exact fun key record => before.index.submitMany_keeps
      · intro seq key hrow
        exact (before.index.getElem?_submitMany_queue submissions
          (hbefore.index.rows seq key hrow).1).trans hrow
    · exact .refl _
  next => exact .of_same_tables (hstep.harmless hop.harmless)

/-- A row that was read from the queue, of a record. -/
def Read (row : Nat × String) (world : World) : Prop :=
  world.index.RowOf row ∧ ∃ record : IndexRecord, world.index.records[row.2]? = some record

/-- A row that has been taken off the queue, its record settled. -/
def Done (row : Nat × String) (world : World) : Prop :=
  row.1 < world.index.nextSeq ∧ world.index.queue[row.1]? = none ∧ world.index.Settled row.2

theorem Read.later {row : Nat × String} (hlater : before.Later after) (hread : Read row before) :
    Read row after := by
  obtain ⟨hrow, record, hrecord⟩ := hread
  obtain ⟨later, hlaterRecord, -⟩ := hlater.index.binding row.2 record hrecord
  exact ⟨hrow.evolves hlater.index, later, hlaterRecord⟩

theorem Done.settles {row : Nat × String} (hsettles : before.Settles after)
    (hdone : Done row before) :
    Done row after := by
  obtain ⟨hseq, hgone, hsettled⟩ := hdone
  refine ⟨hseq.trans_le hsettles.later.index.nextSeq, ?_, hsettles.settled row.2 hsettled⟩
  exact (hsettles.later.index.rows row.1 hseq).elim (fun hkept => hkept.trans hgone) id

/-- Rows that were read are settled as they are finished, and no other row goes. -/
theorem settles_finish (now : Timestamp) {rows : List (Nat × String)} {status : RecordStatus}
    (hstatus : status ≠ .pending) (hrows : ∀ row ∈ rows, Read row before)
    (hafter : after = { before with index := before.index.finish now rows status }) :
    before.Settles after ∧ ∀ row ∈ rows, Done row after := by
  subst hafter
  have hevolves := before.index.finish_evolves now rows status
  refine ⟨⟨⟨List.Subset.refl _, hevolves⟩, ?_, ?_⟩, ?_⟩
  · exact fun key hsettled => RecordIndex.finish_settled hstatus (Or.inl hsettled)
  · intro seq key hqueued
    rw [RecordIndex.getElem?_finish_queue]
    split
    next hmem =>
      -- The row that goes is the one that was read under its number.
      obtain ⟨row, hrow, rfl⟩ := List.mem_map.mp hmem
      obtain ⟨⟨-, hkept | hgone⟩, record, hrecord⟩ := hrows row hrow
      · obtain rfl := Option.some.inj (hkept.symm.trans hqueued)
        exact Or.inr (RecordIndex.finish_settled hstatus
          (Or.inr ⟨List.mem_map_of_mem hrow, record, hrecord⟩))
      · rw [hgone] at hqueued
        cases hqueued
    next => exact Or.inl hqueued
  · intro row hrow
    obtain ⟨⟨hseq, -⟩, record, hrecord⟩ := hrows row hrow
    refine ⟨hseq.trans_le hevolves.nextSeq, ?_, RecordIndex.finish_settled hstatus
      (Or.inr ⟨List.mem_map_of_mem hrow, record, hrecord⟩)⟩
    rw [RecordIndex.getElem?_finish_queue, if_pos (List.mem_map_of_mem hrow)]

end Steps

/-! ## The rules of settling -/

variable {prim : Primitives} {lib : Libraries} {config : Config} {faults : Faults}

variable (prim config faults) in
/-- Requests only add, and every task settles what it takes off the queue. -/
def settling : Discipline prim faults where
  bounds _ := True
  inv := Durable prim config
  byRequest := World.Adds
  byAny := World.Settles
  byRequest_refl := World.Adds.refl
  byRequest_trans := World.Adds.trans
  byAny_trans := World.Settles.trans
  byAny_of_byRequest := World.Adds.settles
  quiet world activeWrites hbounds hworld :=
    ⟨((durability prim config faults).quiet world activeWrites hbounds hworld).1,
      .of_same_tables ⟨List.Subset.refl _, rfl, rfl, rfl⟩⟩
  stray world blob hbounds hworld :=
    ⟨((durability prim config faults).stray world blob hbounds hworld).1,
      .of_same_tables ⟨List.subset_cons_self _ _, rfl, rfl, rfl⟩⟩
  requeue world key hworld := by
    obtain ⟨hafter, hlater⟩ := (durability prim config faults).requeue world key hworld
    refine ⟨hafter, hlater, ?_, ?_⟩
    · intro other record hrecord
      obtain heq | ⟨-, -, heq⟩ := world.index.requeue_cases key
      · rw [heq]
        exact hrecord
      · rw [heq]
        exact hrecord
    · intro seq other hrow
      obtain heq | ⟨-, -, heq⟩ := world.index.requeue_cases key
      · rw [heq]
        exact hrow
      · rw [heq]
        exact hworld.index.getElem?_insert_queue key hrow

theorem settling_kept {assertion : World → Prop}
    (hstable : ∀ world later : World, world.Adds later → assertion world → assertion later) :
    Kept (settling prim config faults).publisherSetting Harmless assertion where
  rely := hstable
  call op before response after hop hinv hassertion hsem := by
    have hadds := World.Adds.of_same_tables (hsem.1.harmless hop)
    exact ⟨(Durable.of_same_tables hinv (hsem.1.harmless hop)).1, hadds.settles,
      hstable before after hadds hassertion⟩

theorem handle_settles (request : Request) {world : World} :
    (settling prim config faults).RequestOk world (handle prim lib config request) := by
  have hdurable :
      (durability prim config faults).RequestOk world (handle prim lib config request) :=
    (durableRequests prim lib config faults).handle_valid request
      fun value hvalue => absurd hvalue List.not_mem_nil
  exact Valid.promise (S := (durability prim config faults).requestSetting)
    (T := (settling prim config faults).requestSetting) (fun _ _ hsettles => hsettles.later)
    (fun _ => Iff.rfl) (fun _ _ _ _ hsem => hsem)
    (fun _ _ _ _ hop hinv hsem _ => Vetted.adds hop hinv hsem.1)
    (handle_emits request).uses hdurable

/-! ## What a cycle settles -/

/-- Rows are finished, whatever else the queue and the index gain. -/
theorem finishItems_settles {rows : List (Nat × String)} {status : RecordStatus}
    (hstatus : status ≠ .pending) {assertion : World → Prop}
    (hstable : ∀ world later : World, world.Settles later → assertion world → assertion later)
    {world : World} (hworld : assertion world) (hrows : ∀ row ∈ rows, Read row world) :
    Valid (settling prim config faults).publisherSetting
      (fun _ after => assertion after ∧ ∀ row ∈ rows, Done row after) (fun _ _ => True)
      (finishItems rows status) world := by
  unfold finishItems
  split
  next hnil => exact ⟨hworld, hnil ▸ fun _ hrow => absurd hrow List.not_mem_nil⟩
  next =>
    intro before hbefore hinv now after hnow
    obtain rfl : after = before := hnow.1
    refine ⟨hinv, (World.Adds.refl _).settles, ?_⟩
    intro middle hmiddle hinvMiddle response last hlast
    have hadds : world.Adds middle := World.Adds.trans hbefore hmiddle
    have hread : ∀ row ∈ rows, Read row middle := fun row hrow => (hrows row hrow).later hadds.later
    have hdurable :=
      (Durable.finish hinvMiddle hstatus (fun row hrow => (hread row hrow).1) hlast.1).1
    obtain ⟨hafter, hresponse⟩ | ⟨rfl, message, rfl⟩ := hlast.1.index_cases
    · obtain ⟨hsettles, hdone⟩ := settles_finish now hstatus hread hafter
      refine ⟨hdurable, hsettles, ?_⟩
      rcases hresponse with rfl | ⟨message, rfl⟩
      · exact ⟨hstable world last (hadds.settles.trans hsettles) hworld, hdone⟩
      · trivial
    · exact ⟨hdurable, (World.Adds.refl _).settles, trivial⟩

theorem publishPartition_settles (denylist : Finset String) (partitionId : Nat)
    {items : List PendingItem} {assertion : World → Prop}
    (hstable : ∀ world later : World, world.Settles later → assertion world → assertion later)
    {world : World} (hworld : assertion world) (hitems : ∀ item ∈ items, Read item.row world) :
    Valid (settling prim config faults).publisherSetting
      (fun published after => assertion after ∧ published ≤ items.length ∧
        ∀ item ∈ items, Done item.row after) (fun _ _ => True)
      (prim.publishPartition config denylist partitionId items) world := by
  let kept : World → Prop := fun world => assertion world ∧ ∀ item ∈ items, Read item.row world
  have hkept : ∀ world later : World, world.Settles later → kept world → kept later :=
    fun world later hlater hworld => ⟨hstable world later hlater hworld.1,
      fun item hitem => (hworld.2 item hitem).later hlater.later⟩
  have hrows : ∀ {world : World} (p : PendingItem → Bool), kept world →
      ∀ row ∈ (items.filter p).map PendingItem.row, Read row world := by
    intro world p hworld row hrow
    obtain ⟨item, hitem, rfl⟩ := List.mem_map.mp hrow
    exact hworld.2 item (List.mem_filter.mp hitem).1
  have hmark : ∀ world, kept world → Valid (settling prim config faults).publisherSetting
      (fun published after => assertion after ∧ published ≤ items.length ∧
        ∀ item ∈ items, Done item.row after) (fun _ _ => True) (do
        markPublished ((items.filter fun item => item.2.1 ∉ denylist).map PendingItem.row)
        markDenylisted ((items.filter fun item => item.2.1 ∈ denylist).map PendingItem.row)
        pure (items.filter fun item => item.2.1 ∉ denylist).length) world := by
    intro world hworld
    apply Valid.bind
    refine Valid.mono ?_ (fun _ _ h => h)
      (finishItems_settles (by decide) hkept hworld (hrows _ hworld))
    intro _ middle hmiddle
    -- The published rows stay done while the denied ones are finished.
    let marked : World → Prop := fun world => kept world ∧
      ∀ row ∈ (items.filter fun item => item.2.1 ∉ denylist).map PendingItem.row, Done row world
    have hmarked : ∀ world later : World, world.Settles later → marked world → marked later :=
      fun world later hlater hworld => ⟨hkept world later hlater hworld.1,
        fun row hrow => (hworld.2 row hrow).settles hlater⟩
    apply Valid.bind
    refine Valid.mono ?_ (fun _ _ h => h)
      (finishItems_settles (by decide) hmarked hmiddle (hrows _ hmiddle.1))
    rintro _ last ⟨⟨hlast, hlastPublished⟩, hdenied⟩
    refine ⟨hlast.1, List.length_filter_le _ _, fun item hitem => ?_⟩
    by_cases hmem : item.2.1 ∈ denylist
    · exact hdenied _ (List.mem_map_of_mem (List.mem_filter.mpr ⟨hitem, decide_eq_true hmem⟩))
    · exact hlastPublished _
        (List.mem_map_of_mem (List.mem_filter.mpr ⟨hitem, decide_eq_true hmem⟩))
  unfold Primitives.publishPartition
  dsimp only
  split
  next =>
    apply Valid.bind
    exact Valid.mono (fun _ after hafter => hmark after hafter) (fun _ _ _ => trivial)
      (Valid.of_uses (settling_kept fun world later hlater => hkept world later hlater.settles)
        (extendPartition_uses partitionId _) ⟨hworld, hitems⟩)
  next => exact hmark world ⟨hworld, hitems⟩

/-- A batch has at least the rows of its groups. -/
theorem groupByPartition_length {batch : List PendingItem} (hnodup : batch.Nodup) :
    ((groupByPartition batch).toList.flatMap Prod.snd).length ≤ batch.length := by
  have hgroups : ((groupByPartition batch).toList.flatMap Prod.snd).Nodup := by
    refine List.nodup_flatMap.mpr ⟨fun group hgroup => ?_, ?_⟩
    · rw [(mem_groupByPartition.mp hgroup).1]
      exact hnodup.filter _
    · refine (Std.ExtTreeMap.distinct_keys_toList (t := groupByPartition batch)).imp_of_mem ?_
      intro first second hfirst hsecond hne item hitem hother
      rw [(mem_groupByPartition.mp hfirst).1] at hitem
      rw [(mem_groupByPartition.mp hsecond).1] at hother
      have hfirstPartition : item.2.2.partitionId = first.1 :=
        of_decide_eq_true (List.mem_filter.mp hitem).2
      have hsecondPartition : item.2.2.partitionId = second.1 :=
        of_decide_eq_true (List.mem_filter.mp hother).2
      exact hne (Std.compare_eq_iff_eq.mpr (hfirstPartition.symm.trans hsecondPartition))
  refine (List.Nodup.subperm hgroups fun item hitem => ?_).length_le
  obtain ⟨group, hgroup, hmem⟩ := List.mem_flatMap.mp hitem
  rw [(mem_groupByPartition.mp hgroup).1] at hmem
  exact (List.mem_filter.mp hmem).1

variable (prim config) in
/-- What a cycle that was begun in one world has achieved in another: it has settled the
rows of one read of the queue in between, and published at most as many. -/
def CycleSettles (begun : World) (published : Nat) (world : World) : Prop :=
  ∃ read : World, begun.Adds read ∧ Durable prim config read ∧ read.Settles world ∧
    published ≤ (read.index.pendingBatch config.publishMaxPending).length ∧
    ∀ item ∈ read.index.pendingBatch config.publishMaxPending, Done item.row world

theorem CycleSettles.settles {begun before after : World} {published : Nat}
    (hsettles : before.Settles after) (hcycle : CycleSettles prim config begun published before) :
    CycleSettles prim config begun published after := by
  obtain ⟨read, hread, hdurable, hbefore, hpublished, hdone⟩ := hcycle
  exact ⟨read, hread, hdurable, hbefore.trans hsettles, hpublished,
    fun item hitem => (hdone item hitem).settles hsettles⟩

theorem publishCycle_settles (denylist : Finset String) (begun : World) :
    Valid (settling prim config faults).publisherSetting
      (fun published after => CycleSettles prim config begun published after) (fun _ _ => True)
      (prim.publishCycle config denylist) begun := by
  have hquiet : ∀ (op : DaemonOp) {before after : World} {response : daemonSig.Res op},
      Harmless op → (settling prim config faults).inv before →
      (settling prim config faults).sem op before response after →
      (settling prim config faults).inv after ∧ before.Adds after :=
    fun _ _ _ _ hop hinv hsem => ⟨(Durable.of_same_tables hinv (hsem.1.harmless hop)).1,
      .of_same_tables (hsem.1.harmless hop)⟩
  apply withWriteGuard_valid
  · intro before response after hbefore hinv hsem
    obtain ⟨hafter, hadds⟩ := hquiet .beginWrite trivial hinv hsem
    refine ⟨hafter, hadds.settles, ?_⟩
    intro middle hmiddle hinvMiddle batch last hlast
    obtain ⟨hinvLast, haddsLast⟩ := hquiet (.index (.pendingBatch _)) trivial hinvMiddle hlast
    refine ⟨hinvLast, haddsLast.settles, ?_⟩
    cases batch with
    | error message => trivial
    | ok batch =>
        obtain ⟨rfl, rfl⟩ := hlast.1.index_ok
        have hread : begun.Adds middle := (World.Adds.trans hbefore hadds).trans hmiddle
        have hpending : ∀ item ∈ middle.index.pendingBatch config.publishMaxPending,
            Read item.row middle := by
          intro item hitem
          obtain ⟨hqueued, hrecord⟩ :=
            RecordIndex.mem_pendingItems.mp (List.mem_of_mem_take hitem)
          exact ⟨⟨(hinvMiddle.index.rows _ _ hqueued).1, Or.inl hqueued⟩, item.2.2, hrecord⟩
        have hnodup : (middle.index.pendingBatch config.publishMaxPending).Nodup :=
          (List.Nodup.of_map _ middle.index.pendingItems_nodup).sublist (List.take_sublist _ _)
        -- Every row that was read is done, or waits in a group still to publish.
        let I : List (Nat × List PendingItem) → Nat → World → Prop := fun groups total world =>
          middle.Settles world ∧
          total + (groups.flatMap Prod.snd).length ≤
            (middle.index.pendingBatch config.publishMaxPending).length ∧
          (∀ group ∈ groups, ∀ item ∈ group.2, Read item.row world) ∧
          ∀ item ∈ middle.index.pendingBatch config.publishMaxPending,
            Done item.row world ∨ ∃ group ∈ groups, item ∈ group.2
        have hinit : I (groupByPartition
            (middle.index.pendingBatch config.publishMaxPending)).toList 0 middle := by
          refine ⟨(World.Adds.refl _).settles, ?_, fun group hgroup item hitem => ?_,
            fun item hitem => Or.inr ?_⟩
          · rw [Nat.zero_add]
            exact groupByPartition_length hnodup
          · rw [(mem_groupByPartition.mp hgroup).1] at hitem
            exact hpending item (List.mem_filter.mp hitem).1
          · have hmem : item ∈ (middle.index.pendingBatch config.publishMaxPending).filter
                fun other => other.2.2.partitionId = item.2.2.partitionId :=
              List.mem_filter.mpr ⟨hitem, decide_eq_true rfl⟩
            exact ⟨(item.2.2.partitionId, _),
              mem_groupByPartition.mpr ⟨rfl, List.ne_nil_of_mem hmem⟩, hmem⟩
        refine Valid.mono ?_ (fun _ _ (_ : True) => trivial) (Valid.foldlM I ?_ hinit)
        · rintro published world ⟨hsettles, hcount, -, hdone⟩
          exact ⟨middle, hread, hinvMiddle, hsettles, Nat.le_of_add_right_le hcount,
            fun item hitem => (hdone item hitem).elim id
              fun hgroup => absurd hgroup.choose_spec.1 List.not_mem_nil⟩
        · rintro ⟨partitionId, items⟩ rest total world ⟨hsettles, hcount, hwaiting, hdone⟩
          let assertion : World → Prop := fun world => middle.Settles world ∧
            (∀ group ∈ rest, ∀ item ∈ group.2, Read item.row world) ∧
            ∀ item ∈ middle.index.pendingBatch config.publishMaxPending,
              Done item.row world ∨ ∃ group ∈ (partitionId, items) :: rest, item ∈ group.2
          have hstable : ∀ world later : World, world.Settles later → assertion world →
              assertion later := fun world later hlater hworld =>
            ⟨hworld.1.trans hlater, fun group hgroup item hitem =>
              (hworld.2.1 group hgroup item hitem).later hlater.later,
              fun item hitem => (hworld.2.2 item hitem).imp_left (Done.settles hlater)⟩
          apply Valid.bind
          refine Valid.mono ?_ (fun _ _ h => h)
            (publishPartition_settles denylist partitionId hstable
            ⟨hsettles, fun group hgroup => hwaiting group (List.mem_cons_of_mem _ hgroup), hdone⟩
            (hwaiting _ List.mem_cons_self))
          rintro published after ⟨⟨hafter, hrest, hall⟩, hpublished, hitems⟩
          refine ⟨hafter, ?_, hrest, fun item hitem => ?_⟩
          · rw [List.flatMap_cons, List.length_append] at hcount
            omega
          · rcases hall item hitem with hsettled | ⟨group, hgroup, hmem⟩
            · exact Or.inl hsettled
            · rcases List.mem_cons.mp hgroup with rfl | hother
              · exact Or.inl (hitems item hmem)
              · exact Or.inr ⟨group, hother, hmem⟩
  · intro value middle before response after hpost hbefore hinv hsem
    obtain ⟨hafter, hadds⟩ := hquiet .endWrite trivial hinv hsem
    exact ⟨hafter, hadds.settles,
      (hpost.settles (World.Adds.settles hbefore)).settles hadds.settles⟩
  · intro error middle before response after _ _ hinv hsem
    obtain ⟨hafter, hadds⟩ := hquiet .endWrite trivial hinv hsem
    exact ⟨hafter, hadds.settles, trivial⟩

/-! ## What a cycle takes off the queue -/

theorem World.Later.size_queue_le {before after : World} (hlater : before.Later after)
    (hafter : Durable prim config after) :
    after.index.queue.size + before.index.nextSeq ≤ before.index.queue.size + after.index.nextSeq :=
  hafter.index.size_queue_le hlater.index List.nodup_nil
    (fun _ hseq => absurd hseq List.not_mem_nil)
    fun _ hseq => absurd hseq List.not_mem_nil

/-- A cycle takes at least as many rows off the queue as it has published records, and at
least one if there is any to take. -/
theorem CycleSettles.size_queue_le {begun after : World} {published : Nat}
    (hcycle : CycleSettles prim config begun published after) (hafter : Durable prim config after) :
    ∃ taken, published ≤ taken ∧
      (0 < config.publishMaxPending → 0 < begun.index.queue.size → 0 < taken) ∧
      taken + after.index.queue.size + begun.index.nextSeq ≤
        begun.index.queue.size + after.index.nextSeq := by
  obtain ⟨read, hread, hdurable, hsettles, hpublished, hdone⟩ := hcycle
  have hgrown := hread.later.size_queue_le hdurable
  let gone := (read.index.pendingBatch config.publishMaxPending).map Prod.fst
  have hnodup : gone.Nodup :=
    (read.index.pendingItems_nodup).sublist ((List.take_sublist _ _).map _)
  have hqueued : ∀ seq ∈ gone, seq ∈ read.index.queue := by
    intro seq hseq
    obtain ⟨item, hitem, rfl⟩ := List.mem_map.mp hseq
    have hrow := (RecordIndex.mem_pendingItems.mp (List.mem_of_mem_take hitem)).1
    rw [Std.ExtTreeMap.mem_iff_isSome_getElem?, hrow]
    rfl
  have hgone : ∀ seq ∈ gone, after.index.queue[seq]? = none := by
    intro seq hseq
    obtain ⟨item, hitem, rfl⟩ := List.mem_map.mp hseq
    exact (hdone item hitem).2.1
  have hshrunk := hafter.index.size_queue_le hsettles.later.index hnodup hqueued hgone
  rw [List.length_map] at hshrunk
  refine ⟨_, hpublished, fun hmax hsome => ?_, by omega⟩
  -- The rows that were there when the cycle began are there when it reads them.
  obtain ⟨seq, hseq⟩ := List.exists_mem_of_length_pos
    (l := begun.index.queue.keys) (by rwa [Std.ExtTreeMap.length_keys])
  obtain ⟨key, hrow⟩ := Option.isSome_iff_exists.mp
    (Std.ExtTreeMap.mem_iff_isSome_getElem?.mp (Std.ExtTreeMap.mem_keys.mp hseq))
  obtain ⟨-, record, hrecord⟩ := hdurable.index.rows seq key (hread.rows seq key hrow)
  have hitem : (seq, key, record) ∈ read.index.pendingItems :=
    RecordIndex.mem_pendingItems.mpr ⟨hread.rows seq key hrow, hrecord⟩
  rw [RecordIndex.pendingBatch, List.length_take]
  exact lt_min hmax (List.length_pos_of_mem hitem)

/-- A cycle settles all records that were there before it began, if there were not too many
rows in the queue. -/
theorem CycleSettles.settled {noticed begun after : World} {published : Nat}
    (hcycle : CycleSettles prim config begun published after) (hadds : noticed.Adds begun)
    (hnoticed : Durable prim config noticed)
    (hsize : noticed.index.queue.size ≤ config.publishMaxPending) {key : String}
    {record : IndexRecord} (hrecord : noticed.index.records[key]? = some record) :
    after.index.Settled key := by
  obtain ⟨read, hread, -, hsettles, -, hdone⟩ := hcycle
  have hkept : noticed.Adds read := hadds.trans hread
  by_cases hpending : record.status = .pending
  · obtain ⟨seq, hrow⟩ := hnoticed.index.queued key record hrecord hpending
    have hitem : (seq, key, record) ∈ noticed.index.pendingBatch config.publishMaxPending := by
      rw [RecordIndex.pendingBatch, List.take_of_length_le
        (hnoticed.index.length_pendingItems.trans_le hsize)]
      exact RecordIndex.mem_pendingItems.mpr ⟨hrow, hrecord⟩
    obtain ⟨other, hother, -, hkey, -⟩ := hnoticed.index.pendingBatch_evolves hkept.later.index
      hitem (hkept.rows seq key hrow)
    have hsettled := (hdone other hother).2.2
    rwa [show other.row.2 = key from hkey] at hsettled
  · exact hsettles.settled key (hkept.settles.settled key ⟨record, hrecord, hpending⟩)

/-! ## Every run -/

theorem task_settles (task : PublisherTask) (world : World) :
    (settling prim config faults).PublisherOk world (task.prog prim config) := by
  have hkept : Kept (settling prim config faults).publisherSetting Harmless fun _ => True :=
    settling_kept fun _ _ _ => id
  cases task with
  | cycle denylist =>
      exact Valid.mono (fun _ _ _ => trivial) (fun _ _ _ => trivial)
        (publishCycle_settles denylist world)
  | heal => exact Valid.of_uses hkept healPointerDoc_uses trivial
  | seed => exact Valid.of_uses hkept seedLocalRoots_uses trivial

theorem secure_settling {state : DaemonState}
    (hreachable : Reachable prim lib config faults state) :
    (settling prim config faults).Secure state :=
  (Discipline.secure_steps (fun request _ _ => handle_settles request)
    (fun task world _ => task_settles task world) (fun _ _ _ _ => trivial) hreachable trivial
    (Discipline.secure_initial Durable.empty)).1

theorem settles_steps {state later : DaemonState}
    (hreachable : Reachable prim lib config faults state)
    (hsteps : SystemSteps prim lib config faults state later) :
    state.world.Settles later.world :=
  (Discipline.secure_steps (fun request _ _ => handle_settles request)
    (fun task world _ => task_settles task world) (fun _ _ _ _ => trivial) hsteps trivial
    (secure_settling hreachable)).2

/-- However the daemon runs on, a settled record stays settled, a queue row goes only when
its record is settled, and the queue grows by no more than the rows that were added. -/
theorem queue_settles {state later : DaemonState}
    (hreachable : Reachable prim lib config faults state)
    (hsteps : SystemSteps prim lib config faults state later) :
    (∀ key, state.world.index.Settled key → later.world.index.Settled key) ∧
    (∀ (seq : Nat) (key : String), state.world.index.queue[seq]? = some key →
      later.world.index.queue[seq]? = some key ∨ later.world.index.Settled key) ∧
    later.world.index.queue.size + state.world.index.nextSeq ≤
      state.world.index.queue.size + later.world.index.nextSeq := by
  have hsettles := settles_steps hreachable hsteps
  have hlater := (durable_steps (hreachable.trans hsteps) .refl).1
  exact ⟨hsettles.settled, hsettles.rows, hsettles.later.size_queue_le hlater⟩

/-- A cycle publishes the two queued records: their rows are gone and they are settled. -/
theorem queue_settles_sample :
    Sample.served.world.index.queue[0]? = some Sample.firstKey ∧
      Sample.published.world.index.queue[0]? = none ∧
      Sample.published.world.index.Settled Sample.firstKey := by
  have hpublished : GuidedSteps Sample.prim Sample.lib .default .all (fun _ => True)
      Sample.served Sample.published := guidedSteps_run Sample.createdAt rfl trivial
  obtain ⟨-, hrows, -⟩ := queue_settles (Sample.served_reachable .all)
    (GuidedSteps.systemSteps hpublished)
  have hqueued : Sample.served.world.index.queue[0]? = some Sample.firstKey ∧
      Sample.published.world.index.queue[0]? = none := by decide +kernel
  refine ⟨hqueued.1, hqueued.2, (hrows 0 _ hqueued.1).resolve_left fun hkept => ?_⟩
  rw [hqueued.2] at hkept
  cases hkept

end Registry

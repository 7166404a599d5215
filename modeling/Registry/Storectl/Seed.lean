import Registry.Core.Readback
import Registry.Core.Tabulated

/-! # Seeding partitions

A seed node warms each partition: it reads the index nodes of the partition's root and
then all values. A root that was warmed to the end is recorded, and the passes that
follow skip the partition while its root stays the recorded one. Values are read by
tasks whose failures are only logged.
-/

namespace Registry

open Effect

/-- What a warm asks of the store, and which of its tasks reads next. -/
inductive SeedOp
  | store (op : StoreOp)
  | joinNext (others : Nat)

abbrev seedSig : Signature where
  Op := SeedOp
  Res
    | .store op => storeSig.Res op
    | .joinNext others => Fin (others + 1)

abbrev SeedProg := Prog seedSig HamtError

def SeedOp.perform (op : SeedOp) : SeedProg (seedSig.Res op) := .call op .pure

/-- Whether a pass warms every partition, whatever is recorded. -/
def isFullPass (pass : Nat) : Bool := pass % 120 = 0

/-- Read the values of some entries, in any order. A value that is missing or whose read
fails is left to the next pass. -/
def fetchValues : Nat → List LeafEntry → SeedProg Unit
  | 0, _ => pure ()
  | _ + 1, [] => pure ()
  | spawned + 1, first :: others => do
      let next ← (SeedOp.joinNext others.length).perform
      let _ ← (SeedOp.store (.get ((first :: others).get next).hash)).perform
      fetchValues spawned ((first :: others).eraseIdx next)

/-- The hashes whose reads gave a blob, and those whose reads did not. -/
structure WarmReads where
  obtained : List Hash
  missed : List Hash
  deriving DecidableEq

namespace Primitives

variable (prim : Primitives)

def warmPartition (root : Hash) : SeedProg Nat := do
  let entries ← (prim.walkEntries hashCount root).embed SeedOp.store (fun _ response => response) id
  fetchValues entries.length entries
  pure entries.length

/-- A read gives the blob of its hash, of those that exist anywhere, or fails, or reports
a miss. -/
def ReadStep (network : Blobs) : (op : StoreOp) → WarmReads → storeSig.Res op → WarmReads → Prop
  | .put _, before, _, after => after = before
  | .get hash, before, response, after =>
      (∃ bytes, prim.blobAt network hash = some bytes ∧ response = .ok (some bytes) ∧
        after = { before with obtained := hash :: before.obtained }) ∨
      ((response = .ok none ∨ ∃ error, response = .error error) ∧
        after = { before with missed := hash :: before.missed })

def WarmStep (network : Blobs) : (op : SeedOp) → WarmReads → seedSig.Res op → WarmReads → Prop
  | .store op, before, response, after => prim.ReadStep network op before response after
  | .joinNext _, before, _, after => after = before

/-- All index nodes and values of a root are among these hashes. -/
structure Complete (network : Blobs) (held : List Hash) (root : Hash) : Prop where
  nodes : ∀ hash, prim.ReachesNode network root hash → hash ∈ held
  values : ∀ value, prim.ReachesValue network root value → value ∈ held

end Primitives

/-! ## Passes -/

/-- Where the seeder stands between two partitions. -/
structure SeedState where
  pass : Nat
  /-- The partitions of this pass that are still to do. -/
  todo : List UInt32
  lastRoots : UInt32 → Option Hash
  /-- By root, the hashes that the warms of it have obtained. -/
  held : Hash → List Hash

def SeedState.start (ids : List UInt32) : SeedState := ⟨0, ids, fun _ => none, fun _ => []⟩

/-- The partition's root is the recorded one, and the pass is not a full one. -/
def SeedState.Unchanged (state : SeedState) (id : UInt32) (root : Hash) : Prop :=
  isFullPass state.pass = false ∧ state.lastRoots id = some root

/-- What the reads of a warm start from: a blob that an earlier warm of the root obtained
counts as obtained. -/
def SeedState.reads (state : SeedState) (root : Hash) : WarmReads := ⟨state.held root, []⟩

inductive SeedEvent
  | passed
  | unresolved (id : UInt32)
  | skipped (id : UInt32) (root : Hash)
  | seeded (id : UInt32) (root : Hash) (reads : WarmReads)
  | failed (id : UInt32) (root : Hash) (reads : WarmReads)
  | timedOut (id : UInt32) (root : Hash) (reads : WarmReads)

namespace Primitives

variable (prim : Primitives)

/-- One partition of a pass, or the step to the next pass. The pointer document may name
any root, and a warm that takes too long is abandoned at one of its reads. -/
inductive SeedStep (network : Blobs) (ids : List UInt32) :
    SeedState → SeedEvent → SeedState → Prop
  | passed {state : SeedState} (done : state.todo = []) :
      SeedStep network ids state .passed { state with pass := state.pass + 1, todo := ids }
  | unresolved {state : SeedState} {id : UInt32} {rest : List UInt32}
      (next : state.todo = id :: rest) :
      SeedStep network ids state (.unresolved id) { state with todo := rest }
  | skipped {state : SeedState} {id : UInt32} {rest : List UInt32} {root : Hash}
      (next : state.todo = id :: rest) (unchanged : state.Unchanged id root) :
      SeedStep network ids state (.skipped id root) { state with todo := rest }
  | seeded {state : SeedState} {id : UInt32} {rest : List UInt32} {root : Hash} {count : Nat}
      {reads : WarmReads} (next : state.todo = id :: rest) (changed : ¬ state.Unchanged id root)
      (runs : Prog.Runs (prim.WarmStep network) (prim.warmPartition root) (state.reads root)
        (.ok count) reads) :
      SeedStep network ids state (.seeded id root reads)
        { state with
          todo := rest
          lastRoots := Function.update state.lastRoots id (some root)
          held := Function.update state.held root reads.obtained }
  | failed {state : SeedState} {id : UInt32} {rest : List UInt32} {root : Hash} {error : HamtError}
      {reads : WarmReads} (next : state.todo = id :: rest) (changed : ¬ state.Unchanged id root)
      (runs : Prog.Runs (prim.WarmStep network) (prim.warmPartition root) (state.reads root)
        (.error error) reads) :
      SeedStep network ids state (.failed id root reads)
        { state with todo := rest, held := Function.update state.held root reads.obtained }
  | timedOut {state : SeedState} {id : UInt32} {rest : List UInt32} {root : Hash}
      {reads : WarmReads} (next : state.todo = id :: rest) (changed : ¬ state.Unchanged id root)
      (visits : Prog.Visits (prim.WarmStep network) (prim.warmPartition root) (state.reads root)
        reads) :
      SeedStep network ids state (.timedOut id root reads)
        { state with todo := rest, held := Function.update state.held root reads.obtained }

/-- Passes over the partitions from the first one on. -/
inductive SeedRun (network : Blobs) (ids : List UInt32) : List SeedEvent → SeedState → Prop
  | start : SeedRun network ids [] (.start ids)
  | step {events : List SeedEvent} {event : SeedEvent} {state after : SeedState}
      (earlier : SeedRun network ids events state)
      (taken : prim.SeedStep network ids state event after) :
      SeedRun network ids (events ++ [event]) after

end Primitives

/-! ## What a warm obtains -/

/-- Reads add to what was obtained and to what was missed. -/
structure WarmReads.Grows (before after : WarmReads) : Prop where
  obtained : before.obtained ⊆ after.obtained
  missed : before.missed ⊆ after.missed

theorem WarmReads.Grows.refl (reads : WarmReads) : reads.Grows reads :=
  ⟨List.Subset.refl _, List.Subset.refl _⟩

theorem WarmReads.Grows.trans {first second third : WarmReads} (hfirst : first.Grows second)
    (hsecond : second.Grows third) : first.Grows third :=
  ⟨List.Subset.trans hfirst.obtained hsecond.obtained,
    List.Subset.trans hfirst.missed hsecond.missed⟩

namespace Primitives

variable {prim : Primitives} {network : Blobs} {before after : WarmReads}

theorem ReadStep.grows {op : StoreOp} {response : storeSig.Res op}
    (hstep : prim.ReadStep network op before response after) : before.Grows after := by
  cases op with
  | put bytes =>
      obtain rfl : after = before := hstep
      exact WarmReads.Grows.refl _
  | get hash =>
      rcases hstep with ⟨bytes, -, -, rfl⟩ | ⟨-, rfl⟩
      · exact ⟨List.subset_cons_self _ _, List.Subset.refl _⟩
      · exact ⟨List.Subset.refl _, List.subset_cons_self _ _⟩

theorem WarmStep.grows {op : SeedOp} {response : seedSig.Res op}
    (hstep : prim.WarmStep network op before response after) : before.Grows after := by
  cases op with
  | store op => exact ReadStep.grows hstep
  | joinNext others =>
      obtain rfl : after = before := hstep
      exact WarmReads.Grows.refl _

theorem grows_of_visits {α : Type} {prog : SeedProg α}
    (hvisits : Prog.Visits (prim.WarmStep network) prog before after) : before.Grows after := by
  induction hvisits with
  | here prog world => exact WarmReads.Grows.refl _
  | call answered _ ih => exact (WarmStep.grows answered).trans ih

theorem grows_of_reads {α : Type} {prog : HamtProg α} {outcome : Prog.Outcome HamtError α}
    (hruns : Prog.Runs (prim.ReadStep network) prog before outcome after) : before.Grows after := by
  induction hruns with
  | pure value world => exact WarmReads.Grows.refl _
  | throw error world => exact WarmReads.Grows.refl _
  | diverge world => exact WarmReads.Grows.refl _
  | call answered _ ih => exact (ReadStep.grows answered).trans ih

/-- A node is read from its blob, which is obtained. -/
theorem getNode_reads {hash : Hash} {node : HamtNode}
    (hruns : Prog.Runs (prim.ReadStep network) (prim.getNode hash) before (.ok node) after) :
    prim.nodeAt network hash = some node ∧ hash ∈ after.obtained := by
  cases hruns with
  | call answered continued =>
      rcases answered with ⟨bytes, hbytes, rfl, rfl⟩ | ⟨rfl | ⟨error, rfl⟩, rfl⟩
      · dsimp only at continued
        cases hdecode : prim.decode bytes hash with
        | error error =>
            rw [hdecode] at continued
            cases continued
        | ok decoded =>
            rw [hdecode] at continued
            cases continued
            refine ⟨?_, List.mem_cons_self⟩
            simp only [nodeAt, hbytes, hdecode, Option.bind_eq_bind, Option.bind_some,
              Except.toOption]
      · cases continued
      · cases continued

/-- What a root leads to is the root itself or what one of its children leads to. -/
theorem ReachesNode.cases_root {root hash : Hash} {node : HamtNode}
    (hnode : prim.nodeAt network root = some node) (hreaches : prim.ReachesNode network root hash) :
    hash = root ∨ ∃ child ∈ node.children, prim.ReachesNode network child hash := by
  induction hreaches with
  | root => exact Or.inl rfl
  | @child parent child other _ held named ih =>
      rcases ih with rfl | ⟨first, hfirst, hparent⟩
      · obtain rfl := Option.some.inj (held.symm.trans hnode)
        exact Or.inr ⟨child, named, .root⟩
      · exact Or.inr ⟨first, hfirst, hparent.child held named⟩

/-- What a walk from a root has obtained and listed. -/
structure Walked (prim : Primitives) (network : Blobs) (root : Hash) (obtained : List Hash)
    (entries : List LeafEntry) : Prop where
  nodes : ∀ hash, prim.ReachesNode network root hash → hash ∈ obtained
  values : ∀ value, prim.ReachesValue network root value → value ∈ entries.map LeafEntry.hash

theorem Walked.leaf {root : Hash} {obtained : List Hash} {entries : List LeafEntry}
    (hnode : prim.nodeAt network root = some (.leaf entries)) (hroot : root ∈ obtained) :
    Walked prim network root obtained entries := by
  have honly : ∀ hash, prim.ReachesNode network root hash → hash = root := by
    intro hash hreaches
    rcases hreaches.cases_root hnode with rfl | ⟨child, hchild, -⟩
    · rfl
    · exact absurd hchild List.not_mem_nil
  constructor
  · intro hash hreaches
    rw [honly hash hreaches]
    exact hroot
  · rintro value ⟨hash, node, hreaches, hheld, hvalue⟩
    rw [honly hash hreaches, hnode] at hheld
    rw [← Option.some.inj hheld] at hvalue
    exact hvalue

theorem Walked.mono {root : Hash} {obtained more : List Hash} {entries others : List LeafEntry}
    (hwalked : Walked prim network root obtained entries) (hobtained : obtained ⊆ more)
    (hentries : entries ⊆ others) : Walked prim network root more others where
  nodes hash hreaches := hobtained (hwalked.nodes hash hreaches)
  values value hreaches := List.map_subset _ hentries (hwalked.values value hreaches)

theorem Walked.intermediate {root : Hash} {obtained : List Hash} {entries : List LeafEntry}
    {slots : Slot → Option Hash} (hnode : prim.nodeAt network root = some (.intermediate slots))
    (hroot : root ∈ obtained)
    (hchildren : ∀ child ∈ (HamtNode.intermediate slots).children,
      Walked prim network child obtained entries) : Walked prim network root obtained entries := by
  constructor
  · intro hash hreaches
    rcases hreaches.cases_root hnode with rfl | ⟨child, hchild, hbelow⟩
    · exact hroot
    · exact (hchildren child hchild).nodes hash hbelow
  · rintro value ⟨hash, node, hreaches, hheld, hvalue⟩
    rcases hreaches.cases_root hnode with rfl | ⟨child, hchild, hbelow⟩
    · rw [hnode] at hheld
      rw [← Option.some.inj hheld] at hvalue
      exact absurd hvalue List.not_mem_nil
    · exact (hchildren child hchild).values value ⟨hash, node, hbelow, hheld, hvalue⟩

/-- A walk that ends well has obtained every node and lists every value. -/
theorem walkEntries_reads {fuel : Nat} {root : Hash} {entries : List LeafEntry}
    (hruns : Prog.Runs (prim.ReadStep network) (prim.walkEntries fuel root) before (.ok entries)
      after) : Walked prim network root after.obtained entries := by
  induction fuel generalizing root entries before after with
  | zero => cases hruns
  | succ fuel ih =>
      rw [walkEntries] at hruns
      obtain ⟨node, middle, hget, hrest⟩ := hruns.of_bind
      obtain ⟨hnode, hroot⟩ := getNode_reads hget
      cases node with
      | leaf listed =>
          cases hrest
          exact Walked.leaf hnode hroot
      | intermediate slots =>
          -- The children walked so far are obtained and listed.
          let I : List Hash → List LeafEntry → WarmReads → Prop := fun rest out reads =>
            middle.Grows reads ∧ ∀ child ∈ (HamtNode.intermediate slots).children,
              child ∈ rest ∨ Walked prim network child reads.obtained out
          have hstep : ∀ child rest out reads next later, I (child :: rest) out reads →
              Prog.Runs (prim.ReadStep network) (do
                let found ← prim.walkEntries fuel child
                pure (out ++ found)) reads (.ok next) later → I rest next later := by
            rintro child rest out reads next later ⟨hgrows, hchildren⟩ hloop
            obtain ⟨found, ended, hwalk, hpure⟩ := hloop.of_bind
            cases hpure
            have hmore := grows_of_reads hwalk
            refine ⟨hgrows.trans hmore, fun other hother => ?_⟩
            rcases hchildren other hother with hleft | hdone
            · rcases List.mem_cons.mp hleft with rfl | hlater
              · exact Or.inr ((ih hwalk).mono (List.Subset.refl _) (List.subset_append_right _ _))
              · exact Or.inl hlater
            · exact Or.inr (hdone.mono hmore.obtained (List.subset_append_left _ _))
          obtain ⟨hgrows, hchildren⟩ := hrest.foldlM I hstep
            ⟨WarmReads.Grows.refl _, fun child hchild => Or.inl hchild⟩
          exact Walked.intermediate hnode (hgrows.obtained hroot) fun child hchild =>
            (hchildren child hchild).resolve_left List.not_mem_nil

/-- Every value is read: it is obtained or missed. -/
theorem fetchValues_reads {spawned : Nat} {entries : List LeafEntry}
    (hspawned : spawned = entries.length)
    (hruns : Prog.Runs (prim.WarmStep network) (fetchValues spawned entries) before
      (.ok ()) after) :
    ∀ value ∈ entries.map LeafEntry.hash, value ∈ after.obtained ∨ value ∈ after.missed := by
  induction spawned generalizing entries before after with
  | zero =>
      have hnil : entries = [] := List.length_eq_zero_iff.mp hspawned.symm
      simp [hnil]
  | succ spawned ih =>
      cases entries with
      | nil => simp
      | cons first others =>
          rw [fetchValues] at hruns
          obtain ⟨next, chosen, hjoin, hrest⟩ := hruns.of_bind
          obtain ⟨response, middle, hread, hloop⟩ := hrest.of_bind
          have hlength : spawned = ((first :: others).eraseIdx next).length := by
            rw [List.length_eraseIdx_of_lt next.isLt]
            simp only [List.length_cons] at hspawned ⊢
            omega
          have hgrows := grows_of_visits hloop.visits
          -- The value whose read comes next is obtained or missed.
          have hnext : ((first :: others).get next).hash ∈ middle.obtained ∨
              ((first :: others).get next).hash ∈ middle.missed := by
            cases hread with
            | call answered continued =>
                cases continued
                rcases answered with ⟨bytes, -, -, rfl⟩ | ⟨-, rfl⟩
                · exact Or.inl List.mem_cons_self
                · exact Or.inr List.mem_cons_self
          intro value hvalue
          obtain ⟨entry, hentry, rfl⟩ := List.mem_map.mp hvalue
          have hsplit := (List.getElem_cons_eraseIdx_perm next.isLt).mem_iff.mpr hentry
          rcases List.mem_cons.mp hsplit with hsame | hlater
          · rw [hsame]
            exact hnext.imp (fun h => hgrows.obtained h) fun h => hgrows.missed h
          · exact ih hlength hloop entry.hash (List.mem_map_of_mem hlater)

/-- A warm that ends well has obtained every node, and every value that it did not miss. -/
theorem warmPartition_reads {root : Hash} {count : Nat}
    (hruns : Prog.Runs (prim.WarmStep network) (prim.warmPartition root) before (.ok count) after) :
    (∀ hash, prim.ReachesNode network root hash → hash ∈ after.obtained) ∧
      ∀ value, prim.ReachesValue network root value →
        value ∈ after.obtained ∨ value ∈ after.missed := by
  obtain ⟨entries, walked, hwalk, hrest⟩ := hruns.of_bind
  obtain ⟨done, fetched, hfetch, hpure⟩ := hrest.of_bind
  cases hpure
  have hinner : Prog.Runs (prim.ReadStep network) (prim.walkEntries hashCount root) before
      (.ok entries) walked := by
    refine Prog.Runs.of_embed ?_ hwalk
    exact fun op before response after hstep => hstep
  have hwalked := walkEntries_reads hinner
  have hgrows := grows_of_visits hfetch.visits
  refine ⟨fun hash hreaches => hgrows.obtained (hwalked.nodes hash hreaches),
    fun value hreaches => ?_⟩
  exact fetchValues_reads rfl hfetch value (hwalked.values value hreaches)

/-! ## What a recorded root stands for -/

theorem Complete.mono {held more : List Hash} {root : Hash}
    (hcomplete : prim.Complete network held root) (hmore : held ⊆ more) :
    prim.Complete network more root where
  nodes hash hreaches := hmore (hcomplete.nodes hash hreaches)
  values value hreaches := hmore (hcomplete.values value hreaches)

end Primitives

/-- A value that a warm missed, although the warm ended well, was obtained by another
read of it or by an earlier warm of the root. -/
def SeedEvent.ValuesRead : SeedEvent → Prop
  | .seeded _ _ reads => ∀ value ∈ reads.missed, value ∈ reads.obtained
  | _ => True

namespace Primitives

variable {prim : Primitives} {network : Blobs} {ids : List UInt32}

/-- Each recorded root is complete. -/
def Recorded (prim : Primitives) (network : Blobs) (state : SeedState) : Prop :=
  ∀ id root, state.lastRoots id = some root → prim.Complete network (state.held root) root

/-- A warm that is not recorded only adds to what is held. -/
theorem Recorded.update {state : SeedState} {root : Hash} {reads : WarmReads} {rest : List UInt32}
    (hrecorded : Recorded prim network state) (hgrows : (state.reads root).Grows reads) :
    Recorded prim network
      { state with todo := rest, held := Function.update state.held root reads.obtained } := by
  intro id recorded hlast
  have hcomplete := hrecorded id recorded hlast
  dsimp only
  by_cases hsame : recorded = root
  · subst hsame
    rw [Function.update_self]
    exact hcomplete.mono hgrows.obtained
  · rw [Function.update_of_ne hsame]
    exact hcomplete

theorem Recorded.step {state after : SeedState} {event : SeedEvent}
    (hrecorded : Recorded prim network state) (hread : event.ValuesRead)
    (hstep : prim.SeedStep network ids state event after) : Recorded prim network after := by
  cases hstep with
  | passed done => exact hrecorded
  | unresolved next => exact hrecorded
  | skipped next unchanged => exact hrecorded
  | failed next changed runs => exact hrecorded.update (grows_of_visits runs.visits)
  | timedOut next changed visits => exact hrecorded.update (grows_of_visits visits)
  | @seeded id rest root count reads next changed runs =>
      have hupdated : Recorded prim network
          { state with todo := rest, held := Function.update state.held root reads.obtained } :=
        hrecorded.update (grows_of_visits runs.visits)
      intro other recorded hlast
      dsimp only at hlast
      by_cases hid : other = id
      · subst hid
        rw [Function.update_self, Option.some.injEq] at hlast
        subst hlast
        obtain ⟨hnodes, hvalues⟩ := warmPartition_reads runs
        simp only [Function.update_self]
        exact ⟨hnodes, fun value hreaches => (hvalues value hreaches).elim id (hread value)⟩
      · rw [Function.update_of_ne hid] at hlast
        exact hupdated other recorded hlast

theorem SeedRun.recorded {events : List SeedEvent} {state : SeedState}
    (hrun : prim.SeedRun network ids events state) (hread : ∀ event ∈ events, event.ValuesRead) :
    Recorded prim network state := by
  induction hrun with
  | start => exact fun id root hlast => nomatch hlast
  | step earlier taken ih =>
      have hearlier := ih fun event hevent => hread event (List.mem_append_left _ hevent)
      exact hearlier.step (hread _ (List.mem_append_right _ List.mem_cons_self)) taken

/-- If no warm that ended well was left without a value, what a pass skips is held whole. -/
theorem skipped_complete {events : List SeedEvent} {state after : SeedState} {id : UInt32}
    {root : Hash} (hrun : prim.SeedRun network ids events state)
    (hread : ∀ event ∈ events, event.ValuesRead)
    (hskip : prim.SeedStep network ids state (.skipped id root) after) :
    prim.Complete network (state.held root) root := by
  cases hskip with
  | skipped next unchanged => exact hrun.recorded hread id root unchanged.2

end Primitives

/-! ## A partition of one record, whose value may be lost -/

namespace Sample

def seedRoot : Hash := ⟨firstRoot⟩

def seedNetwork : Blobs := [leafBlob [firstText], utf8 firstValue]

/-- The read of a lost blob reports a miss. -/
def seedGet (lost : List Hash) (hash : Hash) (reads : WarmReads) :
    Except BlobStoreError (Option Bytes) × WarmReads :=
  match prim.blobAt seedNetwork hash with
  | none => (.ok none, { reads with missed := hash :: reads.missed })
  | some bytes =>
      if hash ∈ lost then (.ok none, { reads with missed := hash :: reads.missed })
      else (.ok (some bytes), { reads with obtained := hash :: reads.obtained })

/-- The tasks end in the order they were spawned. -/
def seedStore (lost : List Hash) : Prog.Handler seedSig WarmReads
  | .store (.put _), reads => (.error (.io "read only"), reads)
  | .store (.get hash), reads => seedGet lost hash reads
  | .joinNext _, reads => (⟨0, Nat.succ_pos _⟩, reads)

theorem seedStore_step (lost : List Hash) (op : SeedOp) (reads : WarmReads) :
    prim.WarmStep seedNetwork op reads (seedStore lost op reads).1 (seedStore lost op reads).2 := by
  cases op with
  | joinNext others => rfl
  | store op =>
      cases op with
      | put bytes => rfl
      | get hash =>
          change prim.ReadStep seedNetwork (.get hash) reads (seedGet lost hash reads).1
            (seedGet lost hash reads).2
          unfold seedGet
          split
          next hnone => exact Or.inr ⟨Or.inl rfl, rfl⟩
          next bytes hbytes =>
            split
            next hlost => exact Or.inr ⟨Or.inl rfl, rfl⟩
            next hkept => exact Or.inl ⟨bytes, hbytes, rfl, rfl⟩

/-- After the first pass, at the start of the second one. -/
def seededState (reads : WarmReads) : SeedState where
  pass := 1
  todo := [0]
  lastRoots := Function.update (fun _ => none) 0 (some seedRoot)
  held := Function.update (fun _ => []) seedRoot reads.obtained

theorem seededState_run {lost : List Hash} {reads : WarmReads}
    (hwarm : (prim.warmPartition seedRoot).run (seedStore lost) ⟨[], []⟩ = (.ok 1, reads)) :
    prim.SeedRun seedNetwork [0] [.seeded 0 seedRoot reads, .passed] (seededState reads) := by
  have hruns : Prog.Runs (prim.WarmStep seedNetwork) (prim.warmPartition seedRoot) ⟨[], []⟩
      (.ok 1) reads := by
    have hrun := Prog.run_runs (seedStore lost) (prim.warmPartition seedRoot) ⟨[], []⟩
    rw [hwarm] at hrun
    refine hrun.imp fun op before response after hcall => ?_
    have hstep := seedStore_step lost op before
    rwa [hcall] at hstep
  have hchanged : ¬ (SeedState.start [0]).Unchanged 0 seedRoot := fun hsame => nomatch hsame.2
  exact (Primitives.SeedRun.start.step (.seeded rfl hchanged hruns)).step (.passed rfl)

theorem seededState_skips (reads : WarmReads) :
    prim.SeedStep seedNetwork [0] (seededState reads) (.skipped 0 seedRoot)
      { seededState reads with todo := [] } := by
  have hfull : isFullPass 1 = false := by decide
  have hlast : Function.update (fun _ => none) 0 (some seedRoot) (0 : UInt32) = some seedRoot :=
    Function.update_self 0 _ _
  exact .skipped rfl ⟨hfull, hlast⟩

end Sample

/-- Every read of the first pass gives its blob. -/
theorem skipped_complete_sample :
    Sample.prim.Complete Sample.seedNetwork
      ((Sample.seededState ⟨[Sample.first.hash, Sample.seedRoot], []⟩).held Sample.seedRoot)
      Sample.seedRoot := by
  have hwarm : (Sample.prim.warmPartition Sample.seedRoot).run (Sample.seedStore []) ⟨[], []⟩ =
      (.ok 1, ⟨[Sample.first.hash, Sample.seedRoot], []⟩) := by
    decide +kernel
  exact Primitives.skipped_complete (Sample.seededState_run hwarm) (by simp [SeedEvent.ValuesRead])
    (Sample.seededState_skips _)

/-- The value's read reports a miss in the first pass, which ends well, and the second
pass skips the partition. -/
theorem skipped_incomplete :
    ∃ events state after, Sample.prim.SeedRun Sample.seedNetwork [0] events state ∧
      Sample.prim.SeedStep Sample.seedNetwork [0] state (.skipped 0 Sample.seedRoot) after ∧
      ¬ Sample.prim.Complete Sample.seedNetwork (state.held Sample.seedRoot) Sample.seedRoot := by
  obtain ⟨hwarm, hblob⟩ : (Sample.prim.warmPartition Sample.seedRoot).run
      (Sample.seedStore [Sample.first.hash]) ⟨[], []⟩ =
        (.ok 1, ⟨[Sample.seedRoot], [Sample.first.hash]⟩) ∧
      Sample.prim.blobAt Sample.seedNetwork Sample.seedRoot =
        some (Sample.prim.encode (.leaf [Sample.first])) := by
    decide +kernel
  refine ⟨_, _, _, Sample.seededState_run hwarm, Sample.seededState_skips _, fun hcomplete => ?_⟩
  have hnode : Sample.prim.nodeAt Sample.seedNetwork Sample.seedRoot =
      some (.leaf [Sample.first]) := by
    rw [Primitives.nodeAt, hblob, Option.bind_eq_bind, Option.bind_some,
      Primitives.decode_encode_leaf, Except.toOption]
  have hheld := hcomplete.values Sample.first.hash ⟨_, _, .root, hnode, List.mem_cons_self⟩
  simp only [Sample.seededState, Function.update_self] at hheld
  exact absurd hheld (by decide +kernel)

end Registry

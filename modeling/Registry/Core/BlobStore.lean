import Registry.Effect.Prog
import Registry.Core.Record

/-! # Content-addressed blob storage

The two operations of the blob store and their meaning. A fault may make a write
fail, with or without its blob being stored, and may make a read fail or report
a miss; nothing else about the store is assumed.
-/

namespace Registry

open Effect

/-- The errors a blob store reports. -/
inductive BlobStoreError
  | io (message : String)
  deriving DecidableEq, Repr

def BlobStoreError.message : BlobStoreError → String
  | .io message => s!"blob I/O error: {message}"

inductive StoreOp
  | put (bytes : Bytes)
  | get (hash : Hash)

def StoreOp.IsGet : StoreOp → Prop
  | .put _ => False
  | .get _ => True

abbrev storeSig : Signature where
  Op := StoreOp
  Res
    | .put _ => Except BlobStoreError Hash
    | .get _ => Except BlobStoreError (Option Bytes)

/-- The blobs a store holds, the latest first. -/
abbrev Blobs := List Bytes

namespace Primitives

variable (prim : Primitives)

/-- The blob a store holds under an address. -/
def blobAt (blobs : Blobs) (hash : Hash) : Option Bytes :=
  blobs.find? fun blob => prim.blake3 blob = hash

/-- The store without faults. -/
def memoryStore : Prog.Handler storeSig Blobs
  | .put bytes, blobs => (.ok (prim.blake3 bytes), bytes :: blobs)
  | .get hash, blobs => (.ok (prim.blobAt blobs hash), blobs)

/-- The answers a store may give. Without faults, those of `memoryStore`. -/
def StoreStep (faults : Prop) : (op : StoreOp) → Blobs → storeSig.Res op → Blobs → Prop
  | .put bytes, blobs, response, after =>
      (response = .ok (prim.blake3 bytes) ∧ after = bytes :: blobs) ∨
        (faults ∧ (∃ error, response = .error error) ∧ (after = blobs ∨ after = bytes :: blobs))
  | .get hash, blobs, response, after => after = blobs ∧
      (response = .ok (prim.blobAt blobs hash) ∨
        (faults ∧ (response = .ok none ∨ ∃ error, response = .error error)))

theorem storeStep_memoryStore (faults : Prop) (op : StoreOp) (blobs : Blobs) :
    prim.StoreStep faults op blobs (prim.memoryStore op blobs).1
      (prim.memoryStore op blobs).2 := by
  cases op with
  | put bytes => exact Or.inl ⟨rfl, rfl⟩
  | get hash => exact ⟨rfl, Or.inl rfl⟩

/-- No operation removes a blob. -/
theorem StoreStep.subset {prim : Primitives} {faults : Prop} {op : StoreOp}
    {blobs after : Blobs} {response : storeSig.Res op}
    (hstep : prim.StoreStep faults op blobs response after) : blobs ⊆ after := by
  cases op with
  | put bytes =>
      rcases hstep with ⟨-, rfl⟩ | ⟨-, -, rfl | rfl⟩
      · exact List.subset_cons_self _ _
      · exact List.Subset.refl _
      · exact List.subset_cons_self _ _
  | get hash =>
      obtain ⟨rfl, -⟩ := hstep
      exact List.Subset.refl _

theorem StoreStep.eq_of_isGet {prim : Primitives} {faults : Prop} {op : StoreOp}
    {blobs after : Blobs} {response : storeSig.Res op} (hget : op.IsGet)
    (hstep : prim.StoreStep faults op blobs response after) : after = blobs := by
  cases op with
  | put bytes => exact hget.elim
  | get hash => exact hstep.1

/-- A held blob is read back under its own hash. -/
theorem blobAt_blake3 {blobs : Blobs} {blob : Bytes}
    (hfree : prim.CollisionFree {held | held ∈ blobs}) (hheld : blob ∈ blobs) :
    prim.blobAt blobs (prim.blake3 blob) = some blob := by
  have hsome : (prim.blobAt blobs (prim.blake3 blob)).isSome := by
    simp only [blobAt, List.find?_isSome, decide_eq_true_eq]
    exact ⟨blob, hheld, rfl⟩
  obtain ⟨found, hfound⟩ := Option.isSome_iff_exists.mp hsome
  have hhash : prim.blake3 found = prim.blake3 blob := by
    simpa using List.find?_some hfound
  have hmem : found ∈ blobs := List.mem_of_find?_eq_some hfound
  rw [hfound, hfree.1 hmem hheld hhash]

theorem mem_of_blobAt {blobs : Blobs} {hash : Hash} {blob : Bytes}
    (hget : prim.blobAt blobs hash = some blob) : blob ∈ blobs ∧ prim.blake3 blob = hash :=
  ⟨List.mem_of_find?_eq_some hget, by simpa using List.find?_some hget⟩

theorem collisionFree_of_blobs {prim : Primitives} {blobs : Blobs}
    (hblobs : (∀ left ∈ blobs, ∀ right ∈ blobs, prim.blake3 left = prim.blake3 right →
      left = right) ∧ ∀ blob ∈ blobs, prim.blake3 blob ≠ Hash.zero) :
    prim.CollisionFree {held | held ∈ blobs} :=
  ⟨fun left hleft right hright => hblobs.1 left hleft right hright, hblobs.2⟩

theorem collisionFree_of_nodup {prim : Primitives} {blobs : Blobs}
    (hnodup : (blobs.map prim.blake3).Nodup) (hnonzero : Hash.zero ∉ blobs.map prim.blake3) :
    prim.CollisionFree {held | held ∈ blobs} :=
  ⟨fun _ hleft _ hright hhash => List.inj_on_of_nodup_map hnodup hleft hright hhash,
    fun _ hblob hzero => hnonzero (hzero ▸ List.mem_map_of_mem hblob)⟩

/-- Of two lists, the second repeats blobs of the first. -/
theorem collisionFree_of_repeats {prim : Primitives} {blobs repeated : Blobs}
    (hnodup : (blobs.map prim.blake3).Nodup) (hnonzero : Hash.zero ∉ blobs.map prim.blake3)
    (hrepeated : ∀ blob ∈ repeated, blob ∈ blobs) :
    prim.CollisionFree {held | held ∈ blobs ++ repeated} :=
  (collisionFree_of_nodup hnodup hnonzero).mono
    fun blob hblob => (List.mem_append.mp hblob).elim id (hrepeated blob)

theorem collisionFree_append {prim : Primitives} {first second : Blobs}
    (hfirst : (first.map prim.blake3).Nodup) (hsecond : (second.map prim.blake3).Nodup)
    (hacross : ∀ left ∈ first, ∀ right ∈ second, prim.blake3 left = prim.blake3 right →
      left = right)
    (hnonzero : Hash.zero ∉ (first ++ second).map prim.blake3) :
    prim.CollisionFree {held | held ∈ first ++ second} := by
  refine ⟨fun left hleft right hright hhash => ?_, fun blob hblob hzero => ?_⟩
  · rcases List.mem_append.mp hleft with hl | hl <;> rcases List.mem_append.mp hright with hr | hr
    · exact List.inj_on_of_nodup_map hfirst hl hr hhash
    · exact hacross left hl right hr hhash
    · exact (hacross right hr left hl hhash.symm).symm
    · exact List.inj_on_of_nodup_map hsecond hl hr hhash
  · exact hnonzero (hzero ▸ List.mem_map_of_mem hblob)

/-- Programs over a store that others may add blobs to. All blobs of the run lie
in `blobUniverse`, where BLAKE3 is meant to be collision-free. -/
def storeSetting (faults : Prop) (blobUniverse : Set Bytes) : Setting storeSig Blobs where
  sem op blobs response after :=
    prim.StoreStep faults op blobs response after ∧ ∀ blob ∈ after, blob ∈ blobUniverse
  rely before after := before ⊆ after
  inv blobs := ∀ blob ∈ blobs, blob ∈ blobUniverse
  guar before after := before ⊆ after
  rely_refl blobs := List.Subset.refl blobs
  rely_trans := List.Subset.trans

/-- A verified program that runs alone ends as specified, if BLAKE3 is
collision-free on the blobs stored at the end. -/
theorem storeSetting_outcome {ε α : Type} {faults : Prop} {blobs final : Blobs}
    {post : α → Blobs → Prop} {fails : ε → Blobs → Prop} {prog : Prog storeSig ε α}
    {outcome : Prog.Outcome ε α}
    (hvalid : Valid (prim.storeSetting faults {held | held ∈ final}) post fails prog blobs)
    (hruns : Prog.Runs (prim.StoreStep faults) prog blobs outcome final) :
    outcome.Meets post fails final := by
  have hreflect : ∀ op before response after, prim.StoreStep faults op before response after →
      after ⊆ final → before ⊆ final :=
    fun op before response after hstep hafter => List.Subset.trans hstep.subset hafter
  have hstart : blobs ⊆ final :=
    hruns.reflects (fun held => held ⊆ final) hreflect (List.Subset.refl final)
  refine Valid.runs_outcome (S := prim.storeSetting faults {held | held ∈ final})
    (fun held => held ⊆ final) hreflect ?_ hruns (fun blob hblob => hstart hblob) hvalid
    (List.Subset.refl final)
  exact fun op before response after hstep hafter => ⟨hstep, fun blob hblob => hafter hblob⟩

theorem memoryStore_runs {ε α : Type} (faults : Prop) (prog : Prog storeSig ε α) (blobs : Blobs) :
    Prog.Runs (prim.StoreStep faults) prog blobs (prog.run prim.memoryStore blobs).1
      (prog.run prim.memoryStore blobs).2 := by
  refine (Prog.run_runs prim.memoryStore prog blobs).imp ?_
  rintro op before response after hcall
  have hstep := prim.storeStep_memoryStore faults op before
  rwa [hcall] at hstep

/-- New blobs are put before the old ones. -/
theorem memoryStore_run_suffix {ε α : Type} (prog : Prog storeSig ε α) (blobs : Blobs) :
    blobs <:+ (prog.run prim.memoryStore blobs).2 := by
  refine (Prog.run_runs prim.memoryStore prog blobs).reflects
    (fun held => held <:+ (prog.run prim.memoryStore blobs).2) ?_ List.suffix_rfl
  intro op before response after hcall hafter
  cases op with
  | put bytes =>
      obtain ⟨-, rfl⟩ := Prod.mk.inj hcall
      exact (List.suffix_cons bytes before).trans hafter
  | get hash =>
      obtain ⟨-, rfl⟩ := Prod.mk.inj hcall
      exact hafter

/-- No program removes a blob. -/
theorem memoryStore_run_subset {ε α : Type} (prog : Prog storeSig ε α) (blobs : Blobs) :
    blobs ⊆ (prog.run prim.memoryStore blobs).2 :=
  (prim.memoryStore_run_suffix prog blobs).subset

end Primitives

end Registry

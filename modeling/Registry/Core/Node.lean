import Mathlib.Data.List.GetD
import Registry.Core.BlobStore

/-! # HAMT nodes and their wire format

A node blob starts with a tag byte. A leaf is newline-delimited JSON, one entry
per line; an intermediate is exactly 256 child hashes of 32 bytes, all zeros
meaning "no child".
-/

namespace Registry

open Effect

inductive HamtError
  | blobStore (error : BlobStoreError)
  | corruptNode (hash : Hash) (message : String)
  | missingNode (hash : Hash)
  | depthExhausted (key : String) (depth : Nat)
  deriving DecidableEq, Repr

def HamtError.message : HamtError → String
  | .blobStore error => error.message
  | .corruptNode hash message => s!"corrupt HAMT node at {hash.toHex}: {message}"
  | .missingNode hash => s!"node referenced by hash {hash.toHex} is missing from the blob store"
  | .depthExhausted key depth =>
      s!"HAMT descent exhausted digest bytes for key '{key}' at depth {depth} " ++
        "(fanout too shallow for a sha256 digest? this should not happen with the default " ++
        "256-way fanout)"

def intermediateFanout : Nat := 256

/-- A child position inside an intermediate node. -/
abbrev Slot := Fin 256

inductive HamtNode
  | leaf (entries : List LeafEntry)
  | intermediate (slots : Slot → Option Hash)

def tagLeaf : UInt8 := 0
def tagIntermediate : UInt8 := 1

/-- The size of an intermediate node's blob. -/
def intermediateSize : Nat := 1 + intermediateFanout * 32

/-- The byte of an intermediate's body at one offset. Slots without a child stay
zero. -/
def slotByte (slots : Slot → Option Hash) (offset : Fin (256 * 32)) : UInt8 :=
  match slots ⟨offset / 32, by omega⟩ with
  | some hash => hash.bytes.get ⟨offset % 32, by omega⟩
  | none => 0

/-- The 32 bytes of an intermediate's blob that belong to one slot. -/
def slotHash (bytes : Bytes) (slot : Slot) : Hash :=
  ⟨Vector.ofFn fun offset : Fin 32 => bytes.getD (1 + slot.val * 32 + offset.val) 0⟩

namespace Primitives

variable (prim : Primitives)

def encode : HamtNode → Bytes
  | .leaf entries => tagLeaf :: entries.flatMap fun entry => prim.leafToJson entry ++ [newline]
  | .intermediate slots => tagIntermediate :: List.ofFn (slotByte slots)

/-- Parse the lines of a leaf's body, skipping empty ones. -/
def decodeLines (nodeHash : Hash) : List Bytes → Except HamtError (List LeafEntry)
  | [] => .ok []
  | line :: rest =>
      if line = [] then decodeLines nodeHash rest
      else
        match prim.leafFromJson line with
        | .error message => .error (.corruptNode nodeHash message)
        | .ok entry => (decodeLines nodeHash rest).map (entry :: ·)

def decode (bytes : Bytes) (nodeHash : Hash) : Except HamtError HamtNode :=
  match bytes with
  | [] => .error (.corruptNode nodeHash "unrecognized node tag byte")
  | tag :: body =>
      if tag = tagLeaf then
        (prim.decodeLines nodeHash (body.splitOnP (· == newline))).map .leaf
      else if tag = tagIntermediate then
        if (tag :: body).length ≠ intermediateSize then
          .error (.corruptNode nodeHash (s!"expected {intermediateSize} bytes for an " ++
            s!"intermediate node, got {(tag :: body).length}"))
        else
          .ok (.intermediate fun slot =>
            let hash := slotHash (tag :: body) slot
            if hash = Hash.zero then none else some hash)
      else .error (.corruptNode nodeHash "unrecognized node tag byte")

theorem decodeLines_encoded (nodeHash : Hash) (entries : List LeafEntry) :
    prim.decodeLines nodeHash
      ((entries.flatMap fun entry => prim.leafToJson entry ++ [newline]).splitOnP
        (· == newline)) = .ok entries := by
  induction entries with
  | nil => rfl
  | cons entry rest ih =>
      have hline : ∀ byte ∈ prim.leafToJson entry, (byte == newline) = false := by
        intro byte hbyte
        rw [beq_eq_false_iff_ne]
        exact fun heq => prim.newline_notMem_leafToJson entry (heq ▸ hbyte)
      rw [List.flatMap_cons, List.append_assoc, List.singleton_append,
        List.splitOnP_append_cons_of_forall_mem hline newline (beq_self_eq_true newline),
        decodeLines, if_neg (prim.leafToJson_ne_nil entry), prim.leafFromJson_toJson, ih]
      rfl

theorem decode_encode_leaf (nodeHash : Hash) (entries : List LeafEntry) :
    prim.decode (prim.encode (.leaf entries)) nodeHash = .ok (.leaf entries) := by
  simp only [encode, decode, ↓reduceIte, prim.decodeLines_encoded]
  rfl

end Primitives

theorem slotByte_eq (slots : Slot → Option Hash) (slot : Slot) (offset : Nat)
    (hoffset : offset < 32) (hbound : slot.val * 32 + offset < 256 * 32) :
    slotByte slots ⟨slot.val * 32 + offset, hbound⟩ =
      ((slots slot).getD Hash.zero).bytes[offset] := by
  have hslot : (⟨(slot.val * 32 + offset) / 32, by omega⟩ : Slot) = slot :=
    Fin.ext (by dsimp only; omega)
  have hbyte : (⟨(slot.val * 32 + offset) % 32, by omega⟩ : Fin 32) = ⟨offset, hoffset⟩ :=
    Fin.ext (by dsimp only; omega)
  rw [slotByte, hslot, hbyte]
  cases slots slot with
  | none => exact (Vector.getElem_replicate hoffset).symm
  | some hash => rfl

theorem slotHash_encoded (tag : UInt8) (slots : Slot → Option Hash) (slot : Slot) :
    slotHash (tag :: List.ofFn (slotByte slots)) slot = (slots slot).getD Hash.zero := by
  have hbytes : ∀ hash : Hash, (∀ offset : Fin 32,
      (tag :: List.ofFn (slotByte slots)).getD (1 + slot.val * 32 + offset.val) 0 =
        hash.bytes[offset]) → slotHash (tag :: List.ofFn (slotByte slots)) slot = hash := by
    intro hash hoffsets
    rw [slotHash, funext hoffsets]
    exact congrArg Hash.mk (Vector.ext fun offset hoffset => Vector.getElem_ofFn hoffset)
  apply hbytes
  intro offset
  have hbound : slot.val * 32 + offset.val < 256 * 32 := by omega
  have hindex : 1 + slot.val * 32 + offset.val = slot.val * 32 + offset.val + 1 := by omega
  rw [hindex, List.getD_cons_succ,
    List.getD_eq_getElem _ _ (by rw [List.length_ofFn]; exact hbound), List.getElem_ofFn]
  exact slotByte_eq slots slot offset.val offset.isLt hbound

/-- A node without an all-zero child hash survives the wire format. -/
theorem Primitives.decode_encode (prim : Primitives) (node : HamtNode) (nodeHash : Hash)
    (hnonzero : ∀ slots, node = .intermediate slots → ∀ slot, slots slot ≠ some Hash.zero) :
    prim.decode (prim.encode node) nodeHash = .ok node := by
  cases node with
  | leaf entries => exact prim.decode_encode_leaf nodeHash entries
  | intermediate slots =>
      have htag : tagIntermediate ≠ tagLeaf := by decide
      have hlength : (tagIntermediate :: List.ofFn (slotByte slots)).length =
          intermediateSize := by
        rw [List.length_cons, List.length_ofFn]
        rfl
      have hslots : (fun slot =>
          let hash := slotHash (tagIntermediate :: List.ofFn (slotByte slots)) slot
          if hash = Hash.zero then none else some hash) = slots := by
        funext slot
        rw [slotHash_encoded]
        cases hchild : slots slot with
        | none => simp
        | some hash =>
            have hne : hash ≠ Hash.zero := by
              rintro rfl
              exact hnonzero slots rfl slot hchild
            simp [hne]
      simp only [encode, decode, htag, ↓reduceIte, hlength, ne_eq, not_true_eq_false]
      rw [hslots]

/-- The bytes of the slots that are read from a body are the body. -/
theorem slotByte_slotHash (tag : UInt8) (body : Bytes) (offset : Fin (256 * 32)) :
    slotByte (fun slot =>
      let hash := slotHash (tag :: body) slot
      if hash = Hash.zero then none else some hash) offset = body.getD offset.val 0 := by
  have hslot : offset.val / 32 < 256 := by omega
  have hrest : offset.val % 32 < 32 := Nat.mod_lt _ (by omega)
  have hsplit : offset.val / 32 * 32 + offset.val % 32 = offset.val := by omega
  have hgetD : ∀ hash : Hash, ((if hash = Hash.zero then none else some hash).getD Hash.zero) =
      hash := by
    intro hash
    split
    next hzero => rw [hzero]; rfl
    next => rfl
  have hbyte := slotByte_eq (fun slot =>
    let hash := slotHash (tag :: body) slot
    if hash = Hash.zero then none else some hash) ⟨offset.val / 32, hslot⟩ (offset.val % 32) hrest
    (by dsimp only; omega)
  simp only [hsplit] at hbyte
  have hindex : 1 + offset.val / 32 * 32 + offset.val % 32 = offset.val + 1 := by omega
  rw [hbyte, hgetD, slotHash]
  simp only [Vector.getElem_ofFn, hindex, List.getD_cons_succ]

namespace Primitives

variable (prim : Primitives)

/-- A blob that decodes as an intermediate node is the encoding of that node. -/
theorem encode_of_decode {bytes : Bytes} {nodeHash : Hash} {slots : Slot → Option Hash}
    (hdecode : prim.decode bytes nodeHash = .ok (.intermediate slots)) :
    prim.encode (.intermediate slots) = bytes := by
  cases bytes with
  | nil => cases hdecode
  | cons tag body =>
      simp only [decode] at hdecode
      split at hdecode
      next =>
        cases hlines : prim.decodeLines nodeHash (body.splitOnP (· == newline)) with
        | error error => rw [hlines] at hdecode; cases hdecode
        | ok entries => rw [hlines] at hdecode; cases hdecode
      next =>
        split at hdecode
        next htag =>
          split at hdecode
          next => cases hdecode
          next hsize =>
            have hlength : body.length = 256 * 32 := by
              have hsame := not_not.mp hsize
              rw [List.length_cons, intermediateSize, intermediateFanout] at hsame
              omega
            obtain rfl := HamtNode.intermediate.inj (Except.ok.inj hdecode)
            rw [encode, ← htag]
            refine congrArg (tag :: ·) (List.ext_getElem ?_ fun offset hoffset hbound => ?_)
            · rw [List.length_ofFn, hlength]
            · rw [List.getElem_ofFn, slotByte_slotHash, List.getD_eq_getElem body 0 hbound]
        next => cases hdecode

/-- The tag of a blob that is no node, or the tag of an intermediate node before a body
of another size. -/
def Malformed (bytes : Bytes) : Prop :=
  match bytes with
  | [] => True
  | tag :: body => (tag ≠ tagLeaf ∧ tag ≠ tagIntermediate) ∨
      (tag = tagIntermediate ∧ body.length ≠ 256 * 32)

theorem decode_malformed {bytes : Bytes} (hmalformed : Malformed bytes) (nodeHash : Hash) :
    ∃ message, prim.decode bytes nodeHash = .error (.corruptNode nodeHash message) := by
  cases bytes with
  | nil => exact ⟨_, rfl⟩
  | cons tag body =>
      rcases hmalformed with ⟨hleaf, hintermediate⟩ | ⟨rfl, hlength⟩
      · refine ⟨"unrecognized node tag byte", ?_⟩
        simp only [decode, if_neg hleaf, if_neg hintermediate]
      · have htag : tagIntermediate ≠ tagLeaf := by decide
        have hsize : (tagIntermediate :: body).length ≠ intermediateSize := by
          rw [List.length_cons, intermediateSize, intermediateFanout]
          omega
        refine ⟨s!"expected {intermediateSize} bytes for an " ++
          s!"intermediate node, got {(tagIntermediate :: body).length}", ?_⟩
        simp only [decode, if_neg htag, if_pos hsize, ↓reduceIte]

/-- The wire format: nodes without an all-zero child hash are decoded from their
encodings, an intermediate node is decoded from its encoding only, and other tags and
other sizes are rejected. -/
theorem decode_exact :
    (∀ (node : HamtNode) (nodeHash : Hash),
      (∀ slots, node = .intermediate slots → ∀ slot, slots slot ≠ some Hash.zero) →
        prim.decode (prim.encode node) nodeHash = .ok node) ∧
    (∀ (bytes : Bytes) (nodeHash : Hash) (slots : Slot → Option Hash),
      prim.decode bytes nodeHash = .ok (.intermediate slots) →
        prim.encode (.intermediate slots) = bytes) ∧
    ∀ (bytes : Bytes) (nodeHash : Hash), Malformed bytes →
      ∃ message, prim.decode bytes nodeHash = .error (.corruptNode nodeHash message) :=
  ⟨prim.decode_encode, fun _ _ _ => prim.encode_of_decode,
    fun _ nodeHash hmalformed => prim.decode_malformed hmalformed nodeHash⟩

end Primitives

end Registry

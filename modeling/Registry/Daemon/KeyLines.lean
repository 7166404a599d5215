import Mathlib.Data.List.DropRight
import Registry.Core.Iscc
import Registry.Daemon.Verify

/-! # Record keys as lines of a file

The full audit and the denylist both keep record keys in a file, one on each line. A
key is any text that passes the syntax check, and what the CID library skips at its
start can be anything, so that not every key survives such a file.
-/

namespace Registry

/-! ## Keys that the CID library reads behind a path -/

/-- The text behind the first `/ipfs/`, or the whole text. -/
def behindPath (text : List Char) : List Char := (go text).getD text
where
  go : List Char → Option (List Char)
    | [] => none
    | char :: rest => ("/ipfs/".toList.isPrefixOf? (char :: rest)).or (go rest)

/-- The CID library reads only what is behind the path. -/
def IgnoresPath (lib : Libraries) : Prop :=
  ∀ first second : String, behindPath first.toList = behindPath second.toList →
    lib.cidVersion first = lib.cidVersion second

namespace Sample

/-- A CID library for the one CID of the first sample key. -/
def pathLib : Libraries :=
  { lib with
    cidVersion := fun text =>
      if behindPath text.toList = firstKey.toList then some 1 else none }

theorem pathLib_ignoresPath : IgnoresPath pathLib := by
  intro first second hsame
  simp only [pathLib, hsame]

end Sample

/-! ## The spill files of the audit -/

namespace RecordIndex

/-- What the full audit reads back from the spill file of a partition. -/
def spilledKeys (index : RecordIndex) (partitions partitionId : Nat) : List String :=
  (Text.lines ((index.spillPublishedKeys partitions)[partitionId]?.getD "")).dedup

theorem expectedKeys_spill (index : RecordIndex) (partitions partitionId : Nat) :
    expectedKeys (some (index.spillPublishedKeys partitions)) partitionId =
      pure (index.spilledKeys partitions partitionId) :=
  rfl

/-- The full audit and the audit of one partition expect the same keys exactly when
every published key of the partition is a line. -/
theorem spilledKeys_eq_iff (index : RecordIndex) {partitions partitionId : Nat}
    (hpartition : partitionId < partitions) :
    (index.spilledKeys partitions partitionId).toFinset =
        (index.publishedKeysForPartition partitionId).toFinset ↔
      ∀ key, index.Publishes partitionId key → Text.IsLine key := by
  have hfile : index.spilledKeys partitions partitionId =
      (Text.lines (Text.unlines (index.publishedKeysForPartition partitionId))).dedup := by
    rw [spilledKeys, index.getElem?_spillPublishedKeys hpartition, Option.getD_some]
  simp only [hfile, Finset.ext_iff, List.mem_toFinset, List.mem_dedup, Text.mem_lines_unlines_iff]
  simp only [mem_publishedKeysForPartition]

end RecordIndex

namespace Sample

/-- An admitted key in two lines. -/
def brokenKey : String := "a\n/ipfs/" ++ firstKey

/-- The published record of a key, in the only partition. -/
def keyRecord : IndexRecord where
  contentHash := first.hash
  size := 1
  partitionId := 0
  status := .published
  createdAt := createdAt
  contentCode := none
  publishedAt := some createdAt

/-- An index with that record. -/
def keyIndex (key : String) : RecordIndex :=
  RecordIndex.empty.bulkMarkPublished [(key, keyRecord)]

theorem keyIndex_key {key other : String} {record : IndexRecord}
    (hrecord : (keyIndex key).records[other]? = some record) : other = key := by
  simp only [keyIndex, RecordIndex.bulkMarkPublished, List.foldl, Std.ExtTreeMap.getElem?_insert,
    Std.compare_eq_iff_eq] at hrecord
  split at hrecord
  next hsame => exact hsame.symm
  next => simp [RecordIndex.empty] at hrecord

end Sample

theorem RecordIndex.spilledKeys_eq_iff_sample :
    ((Sample.keyIndex Sample.firstKey).spilledKeys 1 0).toFinset =
      ((Sample.keyIndex Sample.firstKey).publishedKeysForPartition 0).toFinset := by
  apply ((Sample.keyIndex Sample.firstKey).spilledKeys_eq_iff Nat.zero_lt_one).mpr
  rintro key ⟨record, hrecord, -⟩
  rw [Sample.keyIndex_key hrecord]
  decide +kernel

/-- The two audits expect different keys: the full audit reads two keys where one that
was admitted is published. -/
theorem RecordIndex.spilledKeys_ne :
    IgnoresPath Sample.pathLib ∧
      (∀ (key : String) (record : IndexRecord),
        (Sample.keyIndex Sample.brokenKey).records[key]? = some record →
          Sample.pathLib.isValidRecordKey key) ∧
      ((Sample.keyIndex Sample.brokenKey).spilledKeys 1 0).toFinset ≠
        ((Sample.keyIndex Sample.brokenKey).publishedKeysForPartition 0).toFinset := by
  refine ⟨Sample.pathLib_ignoresPath, fun key record hrecord => ?_, by decide +kernel⟩
  rw [Sample.keyIndex_key hrecord]
  decide +kernel

/-! ## The denylist -/

/-- The denylist of a file: nothing without a path, or when the file cannot be read. -/
def loadDenylist : Option (Except String String) → Finset String
  | none => ∅
  | some (.error _) => ∅
  | some (.ok raw) =>
      (((Text.lines raw).map fun line => trim line.toList).filter fun line =>
        line ≠ [] ∧ line.head? ≠ some '#').map String.ofList |>.toFinset

section Trim

theorem trim_eq_rdropWhile (text : List Char) :
    trim text = (text.dropWhile isTrimmed).rdropWhile isTrimmed :=
  rfl

theorem trim_append_trimmed (text : List Char) {char : Char} (hchar : isTrimmed char) :
    trim (text ++ [char]) = trim text := by
  rw [trim_eq_rdropWhile, trim_eq_rdropWhile, List.dropWhile_append]
  split
  next hnone =>
    rw [List.isEmpty_iff] at hnone
    rw [hnone, List.dropWhile_cons_of_pos hchar, List.dropWhile_nil]
  next => exact List.rdropWhile_concat_pos _ _ _ hchar

theorem trim_getD_stripSuffix (text : List Char) {char : Char} (hchar : isTrimmed char) :
    trim ((Text.stripSuffix char text).getD text) = trim text := by
  rw [Text.stripSuffix]
  split
  next hlast =>
    conv_rhs => rw [← List.dropLast_append_getLast? char hlast]
    rw [Option.getD_some, trim_append_trimmed _ hchar]
  next => rfl

theorem trim_subset (text : List Char) : trim text ⊆ text := fun _ hchar =>
  (List.dropWhile_suffix _).subset ((List.rdropWhile_prefix _ _).subset hchar)

theorem trim_eq_nil {text : List Char} (htext : ∀ char ∈ text, isTrimmed char) :
    trim text = [] := by
  rw [trim_eq_rdropWhile, List.dropWhile_eq_nil_iff.mpr htext, List.rdropWhile_nil]

/-- Trimmed text does not start with white space. -/
theorem dropWhile_trim (text : List Char) : (trim text).dropWhile isTrimmed = trim text := by
  rw [List.dropWhile_eq_self_iff]
  intro hpos
  have hprefix : trim text <+: text.dropWhile isTrimmed := List.rdropWhile_prefix _ _
  have hstart := List.dropWhile_eq_self_iff.mp (List.dropWhile_idempotent isTrimmed text)
    (hpos.trans_le hprefix.length_le)
  exact hprefix.getElem hpos ▸ hstart

@[simp] theorem trim_trim (text : List Char) : trim (trim text) = trim text := by
  conv_lhs => rw [trim_eq_rdropWhile, dropWhile_trim]
  exact List.rdropWhile_idempotent _ _

/-- Text that starts with no white space keeps its first character. -/
theorem head?_trim_cons {char : Char} (hchar : ¬ isTrimmed char) (rest : List Char) :
    (trim (char :: rest)).head? = some char := by
  rw [trim_eq_rdropWhile, List.dropWhile_cons_of_neg hchar]
  obtain ⟨dropped, hdropped⟩ := List.rdropWhile_prefix isTrimmed (char :: rest)
  cases hkept : (char :: rest).rdropWhile isTrimmed with
  | nil => exact absurd (List.rdropWhile_eq_nil_iff.mp hkept char List.mem_cons_self) hchar
  | cons first others =>
      rw [hkept, List.cons_append, List.cons.injEq] at hdropped
      rw [hdropped.1, List.head?_cons]

end Trim

/-- A line of a denylist file. The text of a key is what the operator takes down. -/
inductive DenylistLine
  | key (value : String)
  | comment (words : String) (hline : '\n' ∉ words.toList)
  | blank (space : String) (hline : '\n' ∉ space.toList)
      (hspace : ∀ char ∈ space.toList, isTrimmed char)

namespace DenylistLine

def text : DenylistLine → String
  | .key value => value
  | .comment words _ => "#" ++ words
  | .blank space _ _ => space

def key? : DenylistLine → Option String
  | .key value => some value
  | _ => none

/-- The file with these lines. -/
def file (rows : List DenylistLine) : String := "\n".intercalate (rows.map text)

/-- The keys in the file. -/
def keys (rows : List DenylistLine) : List String := rows.filterMap key?

end DenylistLine

/-- A key that can be written into a denylist: a text of one line, without white space
around it, that does not start as a comment does. -/
structure Expressible (key : String) : Prop where
  line : '\n' ∉ key.toList
  trimmed : trim key.toList = key.toList
  nonempty : key.toList ≠ []
  plain : key.toList.head? ≠ some '#'

/-- What the denylist takes from one line. -/
def denylisted (line : List Char) : Option String :=
  let line := trim line
  if line ≠ [] ∧ line.head? ≠ some '#' then some (String.ofList line) else none

theorem mem_loadDenylist {raw key : String} :
    key ∈ loadDenylist (some (.ok raw)) ↔
      ∃ line ∈ Text.lines raw, denylisted line.toList = some key := by
  simp only [loadDenylist, List.mem_toFinset, List.mem_map, List.mem_filter, decide_eq_true_eq,
    denylisted, Option.ite_none_right_eq_some, Option.some.injEq]
  constructor
  · rintro ⟨_, ⟨⟨line, hline, rfl⟩, hkept⟩, rfl⟩
    exact ⟨line, hline, hkept, rfl⟩
  · rintro ⟨line, hline, hkept, rfl⟩
    exact ⟨_, ⟨⟨line, hline, rfl⟩, hkept⟩, rfl⟩

/-- Whatever is in a file, its denylist has only keys that can be written into one. -/
theorem expressible_of_mem {raw key : String} (hkey : key ∈ loadDenylist (some (.ok raw))) :
    Expressible key := by
  obtain ⟨line, hline, hkept⟩ := mem_loadDenylist.mp hkey
  rw [denylisted, Option.ite_none_right_eq_some, Option.some.injEq] at hkept
  obtain ⟨⟨hnonempty, hplain⟩, rfl⟩ := hkept
  refine ⟨?_, ?_, ?_, ?_⟩ <;> rw [String.toList_ofList]
  · exact fun hnewline => Text.newline_notMem_of_mem_lines hline (trim_subset _ hnewline)
  · exact trim_trim _
  · exact hnonempty
  · exact hplain

/-- A text joined to others by newlines is taken as it is by itself. -/
theorem denylisted_stripSuffix (text : List Char) :
    denylisted ((Text.stripSuffix '\r' text).getD text) = denylisted text := by
  simp only [denylisted, trim_getD_stripSuffix text (show isTrimmed '\r' by decide)]

theorem mem_loadDenylist_intercalate {texts : List String}
    (htexts : ∀ text ∈ texts, '\n' ∉ text.toList) {key : String} :
    key ∈ loadDenylist (some (.ok ("\n".intercalate texts))) ↔
      ∃ text ∈ texts, denylisted text.toList = some key := by
  rw [mem_loadDenylist]
  induction texts with
  | nil => simp [Text.lines, Text.splitInclusive]
  | cons first rest ih =>
      have hfirst := htexts first List.mem_cons_self
      cases rest with
      | nil =>
          rw [String.intercalate_singleton, Text.lines_of_notMem hfirst]
          split
          next hempty => simp [hempty, denylisted, trim]
          next => rfl
      | cons second rest =>
          rw [Text.lines_intercalate hfirst, List.exists_mem_cons_iff, List.exists_mem_cons_iff,
            String.toList_ofList, denylisted_stripSuffix,
            ih fun text htext => htexts text (List.mem_cons_of_mem _ htext)]

theorem Expressible.denylisted {key : String} (hkey : Expressible key) :
    denylisted key.toList = some key := by
  simp only [Registry.denylisted, hkey.trimmed]
  rw [if_pos ⟨hkey.nonempty, hkey.plain⟩, String.ofList_toList]

namespace DenylistLine

theorem newline_notMem_text {row : DenylistLine}
    (hkey : ∀ key, row.key? = some key → '\n' ∉ key.toList) : '\n' ∉ row.text.toList := by
  cases row with
  | key value => exact hkey value rfl
  | comment words hline =>
      have hnewline : '\n' ∉ ("#" ++ words).toList := by simpa using hline
      exact hnewline
  | blank space hline _ => exact hline

/-- A line gives the denylist its key, and nothing if it has none. -/
theorem denylisted_text {row : DenylistLine} (hkey : ∀ key, row.key? = some key → Expressible key) :
    denylisted row.text.toList = row.key? := by
  cases row with
  | key value => exact (hkey value rfl).denylisted
  | comment words hline =>
      have hhead : (trim ("#" ++ words).toList).head? = some '#' := by
        rw [String.toList_append]
        exact head?_trim_cons (by decide) _
      exact if_neg fun hplain => hplain.2 hhead
  | blank space _ hspace => exact if_neg fun hplain => hplain.1 (trim_eq_nil hspace)

end DenylistLine

/-- A denylist file of keys, comments and blank lines is read as the set of its keys
exactly when each of them can be written into such a file. -/
theorem loadDenylist_file_iff (rows : List DenylistLine) :
    loadDenylist (some (.ok (DenylistLine.file rows))) = (DenylistLine.keys rows).toFinset ↔
      ∀ key ∈ DenylistLine.keys rows, Expressible key := by
  constructor
  · intro hsame key hkey
    exact expressible_of_mem (hsame ▸ List.mem_toFinset.mpr hkey)
  · intro hkeys
    have hrows : ∀ row ∈ rows, ∀ key, row.key? = some key → Expressible key :=
      fun row hrow key hkey => hkeys key (List.mem_filterMap.mpr ⟨row, hrow, hkey⟩)
    have hlines : ∀ text ∈ rows.map DenylistLine.text, '\n' ∉ text.toList := by
      intro text htext
      obtain ⟨row, hrow, rfl⟩ := List.mem_map.mp htext
      exact DenylistLine.newline_notMem_text fun key hkey => (hrows row hrow key hkey).line
    ext key
    rw [DenylistLine.file, mem_loadDenylist_intercalate hlines, List.mem_toFinset,
      DenylistLine.keys, List.mem_filterMap]
    constructor
    · rintro ⟨_, htext, hkept⟩
      obtain ⟨row, hrow, rfl⟩ := List.mem_map.mp htext
      exact ⟨row, hrow, DenylistLine.denylisted_text (hrows row hrow) ▸ hkept⟩
    · rintro ⟨row, hrow, hkept⟩
      exact ⟨row.text, List.mem_map_of_mem hrow,
        (DenylistLine.denylisted_text (hrows row hrow)).trans hkept⟩

/-- An admitted key that looks like a comment. -/
def Sample.commentKey : String := "#/ipfs/" ++ firstKey

/-- A key that is admitted and cannot be taken down: its line is read as a comment. -/
theorem loadDenylist_drops_key :
    IgnoresPath Sample.pathLib ∧ Sample.pathLib.isValidRecordKey Sample.commentKey ∧
      loadDenylist (some (.ok (DenylistLine.file [.key Sample.commentKey]))) ≠
        (DenylistLine.keys [.key Sample.commentKey]).toFinset := by
  refine ⟨Sample.pathLib_ignoresPath, by decide +kernel, ?_⟩
  decide +kernel

end Registry

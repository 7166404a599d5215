import Mathlib.Data.List.Sort
import Mathlib.Data.Option.Basic
import Mathlib.Data.Set.Finite.Lattice
import Mathlib.Logic.Function.Basic

/-! # Bucketed tries

A trie whose leaves are buckets of entries sorted by key. A full leaf splits one
level at a time: its entries are redistributed over the branches their keys take
at the leaf's depth, and no further. Insertion is first-write-wins.
-/

namespace BucketTrie

/-- How entries are keyed and how keys are routed: `route key depth` is the
branch a key takes at a depth, defined for the first `levels` depths. -/
structure Scheme (κ ι ε : Type) where
  keyOf : ε → κ
  route : κ → Nat → Option ι
  levels : Nat
  route_eq_none_iff : ∀ key depth, route key depth = none ↔ levels ≤ depth

/-- A trie; `empty` is an absent child. -/
inductive Trie (ι ε : Type)
  | empty
  | leaf (entries : List ε)
  | node (children : ι → Trie ι ε)

namespace Trie

variable {ι ε : Type}

/-- The entries stored anywhere below a trie. -/
def Mem (entry : ε) : Trie ι ε → Prop
  | .empty => False
  | .leaf entries => entry ∈ entries
  | .node children => ∃ branch, Mem entry (children branch)

/-- A bucket as a child: no child at all when it is empty. -/
def ofBucket (entries : List ε) : Trie ι ε :=
  if entries = [] then .empty else .leaf entries

@[simp] theorem ofBucket_nil : (ofBucket [] : Trie ι ε) = .empty := if_pos rfl

theorem mem_ofBucket {entry : ε} {entries : List ε} :
    (ofBucket entries : Trie ι ε).Mem entry ↔ entry ∈ entries := by
  unfold ofBucket
  split
  next hnil => simp [hnil, Mem]
  next => rfl

end Trie

namespace Scheme

variable {κ ι ε : Type} (S : Scheme κ ι ε)

theorem exists_route (key : κ) {depth : Nat} (hdepth : depth < S.levels) :
    ∃ branch, S.route key depth = some branch := by
  refine Option.ne_none_iff_exists'.mp ?_
  rw [ne_eq, S.route_eq_none_iff]
  omega

variable [LinearOrder κ]

def sort (entries : List ε) : List ε :=
  entries.insertionSort fun first second => S.keyOf first ≤ S.keyOf second

/-- The entry a key resolves to. -/
def find (key : κ) : Trie ι ε → Nat → Option ε
  | .empty, _ => none
  | .leaf entries, _ => entries.find? fun entry => S.keyOf entry = key
  | .node children, depth =>
      match S.route key depth with
      | none => none
      | some branch => find key (children branch) (depth + 1)

/-- Leaves are strictly sorted by key, every entry lies on the path of its key,
and no node lies below the last level. -/
def WellFormed : Nat → Trie ι ε → Prop
  | _, .empty => True
  | _, .leaf entries => entries.Pairwise fun first second => S.keyOf first < S.keyOf second
  | depth, .node children => depth < S.levels ∧ ∀ branch,
      WellFormed (depth + 1) (children branch) ∧
        ∀ entry, (children branch).Mem entry → S.route (S.keyOf entry) depth = some branch

@[simp] theorem sort_nil : S.sort [] = [] := rfl

theorem sort_perm (entries : List ε) : (S.sort entries).Perm entries :=
  List.perm_insertionSort _ entries

@[simp] theorem mem_sort {entry : ε} {entries : List ε} :
    entry ∈ S.sort entries ↔ entry ∈ entries :=
  (S.sort_perm entries).mem_iff

@[simp] theorem length_sort (entries : List ε) : (S.sort entries).length = entries.length :=
  (S.sort_perm entries).length_eq

theorem sort_pairwise_lt {entries : List ε} (hnodup : (entries.map S.keyOf).Nodup) :
    (S.sort entries).Pairwise fun first second => S.keyOf first < S.keyOf second := by
  have htotal : Std.Total fun first second : ε => S.keyOf first ≤ S.keyOf second :=
    ⟨fun first second => le_total _ _⟩
  have htrans : IsTrans ε fun first second => S.keyOf first ≤ S.keyOf second :=
    ⟨fun _ _ _ => le_trans⟩
  have hle := List.pairwise_insertionSort
    (fun first second => S.keyOf first ≤ S.keyOf second) entries
  have hne : (S.sort entries).Pairwise fun first second => S.keyOf first ≠ S.keyOf second := by
    have hperm := (S.sort_perm entries).map S.keyOf
    exact List.pairwise_map.mp (hperm.nodup_iff.mpr hnodup)
  exact hle.imp₂ (fun _ _ h hn => lt_of_le_of_ne h hn) hne

theorem nodup_keys_of_pairwise_lt {entries : List ε}
    (hsorted : entries.Pairwise fun first second => S.keyOf first < S.keyOf second) :
    (entries.map S.keyOf).Nodup :=
  List.pairwise_map.mpr (hsorted.imp fun h => ne_of_lt h)

/-- Two strictly sorted lists of the same entries are equal. -/
theorem eq_of_perm_of_pairwise_lt {first second : List ε} (hperm : first.Perm second)
    (hfirst : first.Pairwise fun left right => S.keyOf left < S.keyOf right)
    (hsecond : second.Pairwise fun left right => S.keyOf left < S.keyOf right) :
    first = second :=
  List.Perm.eq_of_pairwise (fun _ _ _ _ hlt hgt => absurd hgt (lt_asymm hlt)) hfirst hsecond hperm

theorem find?_eq_some_iff_of_nodup {entries : List ε} (hnodup : (entries.map S.keyOf).Nodup)
    {key : κ} {entry : ε} :
    (entries.find? fun present => S.keyOf present = key) = some entry ↔
      entry ∈ entries ∧ S.keyOf entry = key := by
  constructor
  · intro hfind
    exact ⟨List.mem_of_find?_eq_some hfind, by simpa using List.find?_some hfind⟩
  · rintro ⟨hmem, rfl⟩
    have hsome : (entries.find? fun present => S.keyOf present = S.keyOf entry).isSome := by
      simp only [List.find?_isSome, decide_eq_true_eq]
      exact ⟨entry, hmem, rfl⟩
    obtain ⟨found, hfound⟩ := Option.isSome_iff_exists.mp hsome
    have hkey : S.keyOf found = S.keyOf entry := by simpa using List.find?_some hfound
    rw [hfound, List.inj_on_of_nodup_map hnodup (List.mem_of_find?_eq_some hfound) hmem hkey]

/-- Looking a key up in a bucket list only depends on which entries it holds. -/
theorem find?_perm {first second : List ε} (hperm : first.Perm second)
    (hnodup : (second.map S.keyOf).Nodup) (key : κ) :
    (first.find? fun present => S.keyOf present = key) =
      second.find? fun present => S.keyOf present = key := by
  have hfirst : (first.map S.keyOf).Nodup := (hperm.map S.keyOf).nodup_iff.mpr hnodup
  apply Option.ext
  intro entry
  rw [S.find?_eq_some_iff_of_nodup hfirst, S.find?_eq_some_iff_of_nodup hnodup, hperm.mem_iff]

theorem find_ofBucket (key : κ) (entries : List ε) (depth : Nat) :
    S.find key (.ofBucket entries) depth = entries.find? fun entry => S.keyOf entry = key := by
  unfold Trie.ofBucket
  split
  next hnil => rw [hnil]; rfl
  next => rfl

variable [DecidableEq ι]

/-- The entries that take a branch at a depth. -/
def bucket (depth : Nat) (branch : ι) (entries : List ε) : List ε :=
  entries.filter fun entry => S.route (S.keyOf entry) depth = some branch

/-- One level of redistribution. -/
def split (depth : Nat) (entries : List ε) : Trie ι ε :=
  .node fun branch => .ofBucket (S.bucket depth branch entries)

/-- A leaf with one more entry, split when it exceeds the capacity. A leaf below
the last level cannot be split, which is reported with its first key. -/
def place (capacity : Nat) (entry : ε) (entries : List ε) (depth : Nat) :
    Except (κ × Nat) (Trie ι ε) :=
  let grown := S.sort (entries ++ [entry])
  if grown.length ≤ capacity then .ok (.leaf grown)
  else if depth < S.levels then .ok (S.split depth grown)
  else .error (S.keyOf (grown.headD entry), depth)

def insert (capacity : Nat) (entry : ε) : Trie ι ε → Nat → Except (κ × Nat) (Trie ι ε)
  | .empty, depth => S.place capacity entry [] depth
  | .leaf entries, depth =>
      if entries.any fun present => S.keyOf present = S.keyOf entry then .ok (.leaf entries)
      else S.place capacity entry entries depth
  | .node children, depth =>
      match S.route (S.keyOf entry) depth with
      | none => .error (S.keyOf entry, depth)
      | some branch => (insert capacity entry (children branch) (depth + 1)).map fun child =>
          .node (Function.update children branch child)

theorem find_split (key : κ) (entries : List ε) {depth : Nat} (hdepth : depth < S.levels) :
    S.find key (S.split depth entries) depth =
      entries.find? fun entry => S.keyOf entry = key := by
  obtain ⟨branch, hbranch⟩ := S.exists_route key hdepth
  rw [split, find, hbranch]
  simp only [find_ofBucket, bucket, List.find?_filter]
  congr 1
  funext entry
  by_cases hkey : S.keyOf entry = key
  · simp [hkey, hbranch]
  · simp [hkey]

omit [LinearOrder κ] in
theorem mem_split {entry : ε} {entries : List ε} {depth : Nat} (hdepth : depth < S.levels) :
    (S.split depth entries).Mem entry ↔ entry ∈ entries := by
  simp only [split, Trie.Mem, Trie.mem_ofBucket, bucket, List.mem_filter, decide_eq_true_eq]
  constructor
  · rintro ⟨branch, hmem, -⟩
    exact hmem
  · intro hmem
    obtain ⟨branch, hbranch⟩ := S.exists_route (S.keyOf entry) hdepth
    exact ⟨branch, hmem, hbranch⟩

omit [DecidableEq ι] in
theorem wellFormed_ofBucket {entries : List ε} (depth : Nat)
    (hsorted : entries.Pairwise fun first second => S.keyOf first < S.keyOf second) :
    S.WellFormed depth (.ofBucket entries) := by
  unfold Trie.ofBucket
  split
  next => trivial
  next => exact hsorted

theorem wellFormed_split {entries : List ε} {depth : Nat} (hdepth : depth < S.levels)
    (hsorted : entries.Pairwise fun first second => S.keyOf first < S.keyOf second) :
    S.WellFormed depth (S.split depth entries) := by
  refine ⟨hdepth, fun branch => ⟨S.wellFormed_ofBucket _ (hsorted.filter _), ?_⟩⟩
  intro entry hmem
  simpa using (List.mem_filter.mp (Trie.mem_ofBucket.mp hmem)).2

omit [DecidableEq ι] in
theorem nodup_keys_append {entry : ε} {entries : List ε}
    (hsorted : entries.Pairwise fun first second => S.keyOf first < S.keyOf second)
    (hnew : ∀ present ∈ entries, S.keyOf present ≠ S.keyOf entry) :
    ((entries ++ [entry]).map S.keyOf).Nodup := by
  rw [List.map_append, List.map_singleton, List.nodup_append]
  refine ⟨S.nodup_keys_of_pairwise_lt hsorted, List.nodup_singleton _, ?_⟩
  intro key hkey other hother
  obtain ⟨present, hpresent, rfl⟩ := List.mem_map.mp hkey
  exact List.mem_singleton.mp hother ▸ hnew present hpresent

/-- Placing a new key in a leaf: the result is well formed, holds exactly one
entry more, and resolves every key as the two leaves together would. -/
theorem place_ok {capacity : Nat} {entry : ε} {entries : List ε} {depth : Nat}
    {placed : Trie ι ε}
    (hsorted : entries.Pairwise fun first second => S.keyOf first < S.keyOf second)
    (hnew : ∀ present ∈ entries, S.keyOf present ≠ S.keyOf entry)
    (hplace : S.place capacity entry entries depth = .ok placed) :
    S.WellFormed depth placed ∧
      (∀ present, placed.Mem present ↔ present ∈ entries ∨ present = entry) ∧
      ∀ key, S.find key placed depth =
        (entries ++ [entry]).find? fun present => S.keyOf present = key := by
  have hnodup := S.nodup_keys_append hsorted hnew
  have hgrown := S.sort_pairwise_lt hnodup
  have hfind := S.find?_perm (S.sort_perm (entries ++ [entry])) hnodup
  have hmem : ∀ present, present ∈ S.sort (entries ++ [entry]) ↔
      present ∈ entries ∨ present = entry := by
    intro present
    rw [S.mem_sort, List.mem_append, List.mem_singleton]
  simp only [place] at hplace
  split at hplace
  next =>
    cases hplace
    exact ⟨hgrown, hmem, hfind⟩
  next =>
    split at hplace
    next hdepth =>
      cases hplace
      refine ⟨S.wellFormed_split hdepth hgrown, ?_, ?_⟩
      · exact fun present => (S.mem_split hdepth).trans (hmem present)
      · exact fun key => (S.find_split key _ hdepth).trans (hfind key)
    next => cases hplace

/-- The law of a first-write-wins map, for one insertion. -/
def FirstWrite (key : κ) (entry : ε) (before after : κ → Option ε) : Prop :=
  ∀ probe, after probe = if probe = key then (before probe).or (some entry) else before probe

omit [DecidableEq ι] in
theorem find?_append_firstWrite (entry : ε) (entries : List ε) :
    FirstWrite (S.keyOf entry) entry
      (fun key => entries.find? fun present => S.keyOf present = key)
      (fun key => (entries ++ [entry]).find? fun present => S.keyOf present = key) := by
  intro probe
  simp only [List.find?_append]
  by_cases hprobe : probe = S.keyOf entry
  · subst hprobe
    simp
  · have hne : S.keyOf entry ≠ probe := fun heq => hprobe heq.symm
    simp [hprobe, hne]

/-- A successful insertion keeps the trie well formed, adds at most the inserted
entry, and is first-write-wins. -/
theorem insert_ok {capacity : Nat} {entry : ε} {trie after : Trie ι ε} {depth : Nat}
    (hwf : S.WellFormed depth trie) (hinsert : S.insert capacity entry trie depth = .ok after) :
    S.WellFormed depth after ∧
      (∀ present, after.Mem present → trie.Mem present ∨ present = entry) ∧
      FirstWrite (S.keyOf entry) entry (fun key => S.find key trie depth)
        (fun key => S.find key after depth) := by
  induction trie generalizing depth after with
  | empty =>
      obtain ⟨hafter, hmem, hfind⟩ := S.place_ok List.Pairwise.nil (by simp) hinsert
      refine ⟨hafter, fun present h => by simpa [Trie.Mem] using (hmem present).mp h, ?_⟩
      intro probe
      exact (hfind probe).trans (S.find?_append_firstWrite entry [] probe)
  | leaf entries =>
      simp only [insert] at hinsert
      split at hinsert
      next hpresent =>
        cases hinsert
        refine ⟨hwf, fun present h => Or.inl h, ?_⟩
        intro probe
        split
        next hprobe =>
          subst hprobe
          have hsome : (S.find (S.keyOf entry) (.leaf entries : Trie ι ε) depth).isSome := by
            simpa [find] using hpresent
          obtain ⟨found, hfound⟩ := Option.isSome_iff_exists.mp hsome
          simp [hfound]
        next => rfl
      next habsent =>
        have hnew : ∀ present ∈ entries, S.keyOf present ≠ S.keyOf entry := by
          simpa using habsent
        obtain ⟨hafter, hmem, hfind⟩ := S.place_ok hwf hnew hinsert
        refine ⟨hafter, fun present h => (hmem present).mp h, ?_⟩
        intro probe
        exact (hfind probe).trans (S.find?_append_firstWrite entry entries probe)
  | node children ih =>
      obtain ⟨hdepth, hchildren⟩ := hwf
      obtain ⟨branch, hbranch⟩ := S.exists_route (S.keyOf entry) hdepth
      simp only [insert, hbranch] at hinsert
      cases hchild : S.insert capacity entry (children branch) (depth + 1) with
      | error error => rw [hchild] at hinsert; cases hinsert
      | ok child =>
          rw [hchild] at hinsert
          cases hinsert
          obtain ⟨hwfChild, hmemChild, hfindChild⟩ := ih branch (hchildren branch).1 hchild
          refine ⟨⟨hdepth, ?_⟩, ?_, ?_⟩
          · intro other
            by_cases hother : other = branch
            · subst hother
              rw [Function.update_self]
              refine ⟨hwfChild, fun present hpresent => ?_⟩
              rcases hmemChild present hpresent with hold | rfl
              · exact (hchildren other).2 present hold
              · exact hbranch
            · rw [Function.update_of_ne hother]
              exact hchildren other
          · rintro present ⟨other, hpresent⟩
            by_cases hother : other = branch
            · subst hother
              rw [Function.update_self] at hpresent
              exact (hmemChild present hpresent).imp_left fun hold => ⟨other, hold⟩
            · rw [Function.update_of_ne hother] at hpresent
              exact Or.inl ⟨other, hpresent⟩
          · intro probe
            obtain ⟨other, hother⟩ := S.exists_route probe hdepth
            simp only [find, hother]
            by_cases hsame : other = branch
            · subst hsame
              rw [Function.update_self]
              exact hfindChild probe
            · rw [Function.update_of_ne hsame, if_neg]
              rintro rfl
              exact hsame (Option.some.inj (hother.symm.trans hbranch))

/-- Re-inserting a key that resolves changes nothing at all. -/
theorem insert_present {capacity : Nat} {entry found : ε} {trie : Trie ι ε} {depth : Nat}
    (hfind : S.find (S.keyOf entry) trie depth = some found) :
    S.insert capacity entry trie depth = .ok trie := by
  induction trie generalizing depth with
  | empty => cases hfind
  | leaf entries =>
      have hpresent : entries.any fun present => S.keyOf present = S.keyOf entry := by
        rw [List.any_eq_true]
        exact ⟨found, List.mem_of_find?_eq_some hfind, by simpa using List.find?_some hfind⟩
      rw [insert, if_pos hpresent]
  | node children ih =>
      simp only [find] at hfind
      cases hbranch : S.route (S.keyOf entry) depth with
      | none => rw [hbranch] at hfind; cases hfind
      | some branch =>
          rw [hbranch] at hfind
          simp only [insert, hbranch, ih branch hfind, Except.map, Function.update_eq_self]

theorem place_error {capacity : Nat} {entry : ε} {entries : List ε} {depth : Nat}
    {error : κ × Nat} (hplace : S.place (ι := ι) capacity entry entries depth = .error error) :
    capacity < (entries ++ [entry]).length ∧ S.levels ≤ depth := by
  simp only [place, length_sort] at hplace
  split at hplace
  next => cases hplace
  next hlength =>
    split at hplace
    next => cases hplace
    next hdepth => exact ⟨not_le.mp hlength, not_lt.mp hdepth⟩

/-- Insertion fails only when more keys than a leaf holds agree on every
remaining level. -/
theorem insert_error {capacity : Nat} {entry : ε} {trie : Trie ι ε} {depth : Nat}
    {error : κ × Nat} (hwf : S.WellFormed depth trie)
    (hinsert : S.insert capacity entry trie depth = .error error) :
    ∃ group : List ε, capacity < group.length ∧ (group.map S.keyOf).Nodup ∧
      (∀ member ∈ group, trie.Mem member ∨ member = entry) ∧
      ∀ member ∈ group, ∀ level, depth ≤ level →
        S.route (S.keyOf member) level = S.route (S.keyOf entry) level := by
  -- A leaf fails at or below the last level, where no key is routed any more.
  have hbelow : ∀ depth member level, S.levels ≤ depth → depth ≤ level →
      S.route (S.keyOf member) level = S.route (S.keyOf entry) level := by
    intro depth member level hdepth hlevel
    have hnone : ∀ key, S.route key level = none := fun key =>
      (S.route_eq_none_iff key level).mpr (by omega)
    rw [hnone, hnone]
  induction trie generalizing depth error with
  | empty =>
      obtain ⟨hlength, hdepth⟩ := S.place_error hinsert
      exact ⟨[entry], hlength, List.nodup_singleton _, by simp,
        fun member _ level hlevel => hbelow depth member level hdepth hlevel⟩
  | leaf entries =>
      simp only [insert] at hinsert
      split at hinsert
      next => cases hinsert
      next habsent =>
        obtain ⟨hlength, hdepth⟩ := S.place_error hinsert
        refine ⟨entries ++ [entry], hlength, S.nodup_keys_append hwf (by simpa using habsent),
          ?_, fun member _ level hlevel => hbelow depth member level hdepth hlevel⟩
        intro member hmember
        simpa [Trie.Mem] using hmember
  | node children ih =>
      obtain ⟨hdepth, hchildren⟩ := hwf
      obtain ⟨branch, hbranch⟩ := S.exists_route (S.keyOf entry) hdepth
      simp only [insert, hbranch] at hinsert
      cases hchild : S.insert capacity entry (children branch) (depth + 1) with
      | ok child => rw [hchild] at hinsert; cases hinsert
      | error childError =>
          obtain ⟨group, hlength, hnodup, hmem, hroute⟩ := ih branch (hchildren branch).1 hchild
          refine ⟨group, hlength, hnodup, ?_, ?_⟩
          · intro member hmember
            exact (hmem member hmember).imp_left fun hold => ⟨branch, hold⟩
          · intro member hmember level hlevel
            rcases Nat.eq_or_lt_of_le hlevel with rfl | hlt
            · rcases hmem member hmember with hold | rfl
              · rw [(hchildren branch).2 member hold, hbranch]
              · rfl
            · exact hroute member hmember level hlt

/-- Insert a whole list, in order. -/
def insertAll (capacity : Nat) (entries : List ε) (trie : Trie ι ε) :
    Except (κ × Nat) (Trie ι ε) :=
  entries.foldlM (fun trie entry => S.insert capacity entry trie 0) trie

theorem insertAll_cons {capacity : Nat} {entry : ε} {rest : List ε} {trie : Trie ι ε} :
    S.insertAll capacity (entry :: rest) trie =
      (S.insert capacity entry trie 0).bind fun grown => S.insertAll capacity rest grown := rfl

theorem insertAll_append {capacity : Nat} {first second : List ε} {trie : Trie ι ε} :
    S.insertAll capacity (first ++ second) trie =
      (S.insertAll capacity first trie).bind fun grown => S.insertAll capacity second grown :=
  List.foldlM_append

/-- Inserting a list resolves each key to what the trie had, or else to the
first entry of the list with that key. -/
theorem insertAll_ok {capacity : Nat} {entries : List ε} {trie after : Trie ι ε}
    (hwf : S.WellFormed 0 trie) (hinsert : S.insertAll capacity entries trie = .ok after) :
    S.WellFormed 0 after ∧
      (∀ present, after.Mem present → trie.Mem present ∨ present ∈ entries) ∧
      ∀ key, S.find key after 0 =
        (S.find key trie 0).or (entries.find? fun entry => S.keyOf entry = key) := by
  induction entries generalizing trie with
  | nil =>
      cases hinsert
      exact ⟨hwf, fun present h => Or.inl h, fun key => by simp⟩
  | cons entry rest ih =>
      rw [insertAll_cons] at hinsert
      cases hgrown : S.insert capacity entry trie 0 with
      | error error => rw [hgrown] at hinsert; cases hinsert
      | ok grown =>
          rw [hgrown] at hinsert
          obtain ⟨hwfGrown, hmemGrown, hfindGrown⟩ := S.insert_ok hwf hgrown
          obtain ⟨hwfAfter, hmemAfter, hfindAfter⟩ := ih hwfGrown hinsert
          refine ⟨hwfAfter, ?_, ?_⟩
          · intro present hpresent
            rcases hmemAfter present hpresent with hold | hnew
            · rcases hmemGrown present hold with holder | rfl
              · exact Or.inl holder
              · exact Or.inr List.mem_cons_self
            · exact Or.inr (List.mem_cons_of_mem _ hnew)
          · intro key
            have hgrownKey : S.find key grown 0 = if key = S.keyOf entry
                then (S.find key trie 0).or (some entry) else S.find key trie 0 := hfindGrown key
            rw [hfindAfter key, hgrownKey, List.find?_cons]
            by_cases hkey : key = S.keyOf entry
            · subst hkey
              cases S.find (S.keyOf entry) trie 0 <;> simp
            · have hne : S.keyOf entry ≠ key := fun heq => hkey heq.symm
              simp [hkey, hne]

/-- Inserting a list fails only when more of its keys, or of the trie's, than a
leaf holds agree on every level. -/
theorem insertAll_error {capacity : Nat} {entries : List ε} {trie : Trie ι ε}
    {error : κ × Nat} (hwf : S.WellFormed 0 trie)
    (hinsert : S.insertAll capacity entries trie = .error error) :
    ∃ group : List ε, capacity < group.length ∧ (group.map S.keyOf).Nodup ∧
      (∀ member ∈ group, trie.Mem member ∨ member ∈ entries) ∧
      ∃ key, ∀ member ∈ group, S.route (S.keyOf member) = S.route key := by
  induction entries generalizing trie with
  | nil => cases hinsert
  | cons entry rest ih =>
      rw [insertAll_cons] at hinsert
      cases hgrown : S.insert capacity entry trie 0 with
      | error first =>
          obtain ⟨group, hlength, hnodup, hmem, hroute⟩ := S.insert_error hwf hgrown
          refine ⟨group, hlength, hnodup, ?_, S.keyOf entry, ?_⟩
          · intro member hmember
            rcases hmem member hmember with hold | rfl
            · exact Or.inl hold
            · exact Or.inr List.mem_cons_self
          · intro member hmember
            exact funext fun level => hroute member hmember level (Nat.zero_le level)
      | ok grown =>
          rw [hgrown] at hinsert
          obtain ⟨hwfGrown, hmemGrown, -⟩ := S.insert_ok hwf hgrown
          obtain ⟨group, hlength, hnodup, hmem, hroute⟩ := ih hwfGrown hinsert
          refine ⟨group, hlength, hnodup, ?_, hroute⟩
          intro member hmember
          rcases hmem member hmember with hold | hnew
          · rcases hmemGrown member hold with holder | rfl
            · exact Or.inl holder
            · exact Or.inr List.mem_cons_self
          · exact Or.inr (List.mem_cons_of_mem _ hnew)

/-! ## The keys of a trie

Which keys a trie holds, anywhere in it, whether or not it is well formed.
-/

omit [LinearOrder κ] [DecidableEq ι] in
/-- Some entry of the trie has this key. -/
def HasKey (key : κ) (trie : Trie ι ε) : Prop := ∃ entry, trie.Mem entry ∧ S.keyOf entry = key

theorem mem_place {capacity : Nat} {entry : ε} {entries : List ε} {depth : Nat}
    {placed : Trie ι ε} (hplace : S.place capacity entry entries depth = .ok placed)
    (present : ε) : placed.Mem present ↔ present ∈ entries ∨ present = entry := by
  have hmem : present ∈ S.sort (entries ++ [entry]) ↔ present ∈ entries ∨ present = entry := by
    rw [S.mem_sort, List.mem_append, List.mem_singleton]
  simp only [place] at hplace
  split at hplace
  next =>
    cases hplace
    exact hmem
  next =>
    split at hplace
    next hdepth =>
      cases hplace
      exact (S.mem_split hdepth).trans hmem
    next => cases hplace

theorem hasKey_place {capacity : Nat} {entry : ε} {entries : List ε} {depth : Nat}
    {placed : Trie ι ε} (hplace : S.place capacity entry entries depth = .ok placed) (key : κ) :
    S.HasKey key placed ↔ S.HasKey key (.leaf entries : Trie ι ε) ∨ S.keyOf entry = key := by
  simp only [HasKey, S.mem_place hplace, Trie.Mem, or_and_right, exists_or, exists_eq_left]

/-- Insertion adds the key of the entry, and no other. -/
theorem hasKey_insert {capacity : Nat} {entry : ε} {trie after : Trie ι ε} {depth : Nat}
    (hinsert : S.insert capacity entry trie depth = .ok after) (key : κ) :
    S.HasKey key after ↔ S.HasKey key trie ∨ S.keyOf entry = key := by
  induction trie generalizing depth after with
  | empty =>
      rw [S.hasKey_place hinsert]
      simp [HasKey, Trie.Mem]
  | leaf entries =>
      simp only [insert] at hinsert
      split at hinsert
      next hpresent =>
        cases hinsert
        refine ⟨Or.inl, fun hkey => hkey.elim id fun hkey => ?_⟩
        obtain ⟨present, hmem, hsame⟩ := List.any_eq_true.mp hpresent
        exact ⟨present, hmem, (of_decide_eq_true hsame).trans hkey⟩
      next => exact S.hasKey_place hinsert key
  | node children ih =>
      simp only [insert] at hinsert
      split at hinsert
      next => cases hinsert
      next branch hbranch =>
        cases hchild : S.insert capacity entry (children branch) (depth + 1) with
        | error error => rw [hchild] at hinsert; cases hinsert
        | ok child =>
            rw [hchild] at hinsert
            cases hinsert
            have hbelow := ih branch hchild
            constructor
            · rintro ⟨present, ⟨other, hmem⟩, rfl⟩
              by_cases hother : other = branch
              · subst hother
                rw [Function.update_self] at hmem
                refine (hbelow.mp ⟨present, hmem, rfl⟩).imp_left ?_
                exact fun ⟨found, hfound, hkey⟩ => ⟨found, ⟨other, hfound⟩, hkey⟩
              · rw [Function.update_of_ne hother] at hmem
                exact Or.inl ⟨present, ⟨other, hmem⟩, rfl⟩
            · rintro (⟨present, ⟨other, hmem⟩, rfl⟩ | hkey)
              · by_cases hother : other = branch
                · subst hother
                  obtain ⟨found, hfound, hkey⟩ := hbelow.mpr (Or.inl ⟨present, hmem, rfl⟩)
                  exact ⟨found, ⟨other, by rwa [Function.update_self]⟩, hkey⟩
                · exact ⟨present, ⟨other, by rwa [Function.update_of_ne hother]⟩, rfl⟩
              · obtain ⟨found, hfound, hsame⟩ := hbelow.mpr (Or.inr hkey)
                exact ⟨found, ⟨branch, by rwa [Function.update_self]⟩, hsame⟩

theorem hasKey_insertAll {capacity : Nat} {entries : List ε} {trie after : Trie ι ε}
    (hinsert : S.insertAll capacity entries trie = .ok after) (key : κ) :
    S.HasKey key after ↔ S.HasKey key trie ∨ ∃ entry ∈ entries, S.keyOf entry = key := by
  induction entries generalizing trie with
  | nil =>
      cases hinsert
      simp
  | cons entry rest ih =>
      rw [insertAll_cons] at hinsert
      cases hgrown : S.insert capacity entry trie 0 with
      | error error => rw [hgrown] at hinsert; cases hinsert
      | ok grown =>
          rw [hgrown] at hinsert
          rw [ih hinsert, S.hasKey_insert hgrown, or_assoc]
          simp

omit [LinearOrder κ] [DecidableEq ι] in
theorem finite_hasKey [Finite ι] (trie : Trie ι ε) : {key | S.HasKey key trie}.Finite := by
  have hfinite : {entry | trie.Mem entry}.Finite := by
    induction trie with
    | empty => exact Set.finite_empty
    | leaf entries => exact List.finite_toSet entries
    | node children ih => simpa [Trie.Mem, Set.ofPred_exists] using Set.finite_iUnion ih
  exact hfinite.image S.keyOf

/-- Replaying entries whose keys all resolve changes nothing. -/
theorem insertAll_present {capacity : Nat} {entries : List ε} {trie : Trie ι ε}
    (hfind : ∀ entry ∈ entries, ∃ found, S.find (S.keyOf entry) trie 0 = some found) :
    S.insertAll capacity entries trie = .ok trie := by
  induction entries with
  | nil => rfl
  | cons entry rest ih =>
      obtain ⟨found, hfound⟩ := hfind entry List.mem_cons_self
      rw [insertAll_cons, S.insert_present hfound]
      exact ih fun other hother => hfind other (List.mem_cons_of_mem _ hother)

/-- Entries that were inserted once may be replayed before new ones. -/
theorem insertAll_replay {capacity : Nat} {entries replayed fresh : List ε} {trie grown : Trie ι ε}
    (hwf : S.WellFormed 0 trie) (hgrown : S.insertAll capacity entries trie = .ok grown)
    (hreplayed : replayed ⊆ entries) :
    S.insertAll capacity (replayed ++ fresh) grown =
      S.insertAll capacity (entries ++ fresh) trie := by
  have hfind : ∀ entry ∈ replayed, ∃ found, S.find (S.keyOf entry) grown 0 = some found := by
    intro entry hentry
    have hsome : (entries.find? fun other => S.keyOf other = S.keyOf entry).isSome := by
      rw [List.find?_isSome]
      exact ⟨entry, hreplayed hentry, by simp⟩
    rw [(S.insertAll_ok hwf hgrown).2.2, ← Option.isSome_iff_exists, Option.isSome_or, hsome,
      Bool.or_true]
  rw [insertAll_append, S.insertAll_present hfind, insertAll_append, hgrown]

end Scheme

end BucketTrie

import Mathlib.Data.List.Induction
import Registry.Trie.Shape

/-! # Canonical tries and the tries that insertion grows

A canonical trie has a leaf exactly where at most a leaf's capacity of entries
share a path. Insertion splits a full leaf by one level only, so the leaves of
one split may start out overfull, and such a leaf splits when it next receives
an entry. What insertion grows from nothing is therefore a function of the
entries in their order, and it is canonical exactly when every path shared by
more entries than a leaf holds was taken by one of them after the split that
created its leaf.
-/

namespace BucketTrie

namespace Scheme

variable {κ ι ε : Type} (S : Scheme κ ι ε)

section Firsts

variable [DecidableEq κ]

/-- The entries whose key occurs for the first time. -/
def firsts (seen : List κ) : List ε → List ε
  | [] => []
  | entry :: rest =>
      if S.keyOf entry ∈ seen then firsts seen rest
      else entry :: firsts (S.keyOf entry :: seen) rest

theorem notMem_of_mem_firsts {seen : List κ} {entries : List ε} {entry : ε}
    (hmem : entry ∈ S.firsts seen entries) : S.keyOf entry ∉ seen := by
  induction entries generalizing seen with
  | nil => cases hmem
  | cons head rest ih =>
      rw [firsts] at hmem
      split at hmem
      next => exact ih hmem
      next hfresh =>
        rcases List.mem_cons.mp hmem with rfl | hrest
        · exact hfresh
        · exact fun hseen => ih hrest (List.mem_cons_of_mem _ hseen)

theorem firsts_nodup (seen : List κ) (entries : List ε) :
    ((S.firsts seen entries).map S.keyOf).Nodup := by
  induction entries generalizing seen with
  | nil => exact List.nodup_nil
  | cons head rest ih =>
      rw [firsts]
      split
      next => exact ih seen
      next =>
        rw [List.map_cons, List.nodup_cons]
        refine ⟨fun hmem => ?_, ih _⟩
        obtain ⟨entry, hentry, hkey⟩ := List.mem_map.mp hmem
        exact S.notMem_of_mem_firsts hentry (hkey ▸ List.mem_cons_self)

theorem firsts_eq_nil_iff {entries : List ε} : S.firsts [] entries = [] ↔ entries = [] := by
  cases entries with
  | nil => simp [firsts]
  | cons head rest => simp [firsts]

theorem firsts_of_nodup {entries : List ε} (hnodup : (entries.map S.keyOf).Nodup) :
    S.firsts [] entries = entries := by
  suffices hseen : ∀ seen, (∀ entry ∈ entries, S.keyOf entry ∉ seen) →
      S.firsts seen entries = entries from hseen [] (by simp)
  induction entries with
  | nil => exact fun _ _ => rfl
  | cons head rest ih =>
      intro seen hseen
      rw [List.map_cons, List.nodup_cons] at hnodup
      rw [firsts, if_neg (hseen head List.mem_cons_self), ih hnodup.2]
      intro entry hentry hmem
      rcases List.mem_cons.mp hmem with hkey | hold
      · exact hnodup.1 (hkey ▸ List.mem_map_of_mem hentry)
      · exact hseen entry (List.mem_cons_of_mem _ hentry) hold

/-- A key is first found where it occurs first. -/
theorem find?_firsts {seen : List κ} (entries : List ε) {key : κ} (hkey : key ∉ seen) :
    ((S.firsts seen entries).find? fun entry => S.keyOf entry = key) =
      entries.find? fun entry => S.keyOf entry = key := by
  induction entries generalizing seen with
  | nil => rfl
  | cons head rest ih =>
      rw [firsts]
      by_cases hhead : S.keyOf head = key
      · rw [if_neg fun hseen => hkey (hhead ▸ hseen), List.find?_cons_of_pos (by simpa using hhead),
          List.find?_cons_of_pos (by simpa using hhead)]
      · rw [List.find?_cons_of_neg (by simpa using hhead)]
        split
        next => exact ih hkey
        next =>
          rw [List.find?_cons_of_neg (by simpa using hhead)]
          apply ih
          exact List.not_mem_cons_of_ne_of_not_mem (Ne.symm hhead) hkey

theorem firsts_subset (seen : List κ) (entries : List ε) : S.firsts seen entries ⊆ entries := by
  induction entries generalizing seen with
  | nil => exact List.Subset.refl _
  | cons head rest ih =>
      rw [firsts]
      split
      next => exact List.Subset.trans (ih seen) (List.subset_cons_self _ _)
      next => exact List.cons_subset_cons head (ih _)

end Firsts

variable [LinearOrder κ] [DecidableEq ι]

/-- Later occurrences of a key do nothing. -/
theorem insertAll_firsts {capacity : Nat} {seen : List κ} {entries : List ε} {trie : Trie ι ε}
    (hwf : S.WellFormed 0 trie)
    (hseen : ∀ key ∈ seen, ∃ found, S.find key trie 0 = some found) :
    S.insertAll capacity (S.firsts seen entries) trie = S.insertAll capacity entries trie := by
  induction entries generalizing seen trie with
  | nil => rfl
  | cons head rest ih =>
      rw [firsts]
      split
      next hknown =>
        obtain ⟨found, hfound⟩ := hseen _ hknown
        rw [insertAll_cons, S.insert_present hfound]
        exact ih hwf hseen
      next =>
        rw [insertAll_cons, insertAll_cons]
        cases hgrown : S.insert capacity head trie 0 with
        | error error => rfl
        | ok grown =>
            obtain ⟨hwfGrown, -, hfind⟩ := S.insert_ok hwf hgrown
            refine ih hwfGrown fun key hkey => ?_
            have hkeyFind : S.find key grown 0 = if key = S.keyOf head
                then (S.find key trie 0).or (some head) else S.find key trie 0 := hfind key
            rw [hkeyFind]
            split
            next => cases S.find key trie 0 <;> simp
            next hne =>
              exact hseen key ((List.mem_cons.mp hkey).resolve_left hne)

/-! ## Paths -/

/-- The entries that take all branches of a path, which lists the last branch
first. -/
def group (entries : List ε) : List ι → List ε
  | [] => entries
  | branch :: path => S.bucket path.length branch (group entries path)

/-- How many entries sharing a path make insertion split the path's leaf: one
more than a leaf holds, or one more than the leaf got when its parent split. -/
def splitSize (capacity : Nat) (entries : List ε) : List ι → Nat
  | [] => capacity + 1
  | branch :: path => max (capacity + 1) (1 + (S.bucket path.length branch
      ((S.group entries path).take (splitSize capacity entries path))).length)

/-- The trie insertion grows, below a path with so many levels remaining. -/
def grown (capacity : Nat) (entries : List ε) : Nat → List ι → Trie ι ε
  | 0, path => .ofBucket (S.sort (S.group entries path))
  | remaining + 1, path =>
      if (S.group entries path).length < S.splitSize capacity entries path then
        .ofBucket (S.sort (S.group entries path))
      else .node fun branch => grown capacity entries remaining (branch :: path)

/-- The canonical trie, below a path with so many levels remaining. -/
def canonical (capacity : Nat) (entries : List ε) : Nat → List ι → Trie ι ε
  | 0, path => .ofBucket (S.sort (S.group entries path))
  | remaining + 1, path =>
      if (S.group entries path).length ≤ capacity then
        .ofBucket (S.sort (S.group entries path))
      else .node fun branch => canonical capacity entries remaining (branch :: path)

/-- Every path that more entries share than a leaf holds is one whose leaf
insertion has split. -/
def SplitsAll (capacity : Nat) (entries : List ε) : Prop :=
  ∀ path : List ι, path.length < S.levels → capacity < (S.group entries path).length →
    S.splitSize capacity entries path ≤ (S.group entries path).length

/-- The key of an entry takes all branches of a path. -/
def OnPath (entry : ε) : List ι → Prop
  | [] => True
  | branch :: path => S.route (S.keyOf entry) path.length = some branch ∧ OnPath entry path

section Paths

variable {S} {capacity : Nat} {entries : List ε} {entry : ε} {path : List ι}

omit [LinearOrder κ] in
theorem group_append_of_onPath (hpath : S.OnPath entry path) :
    S.group (entries ++ [entry]) path = S.group entries path ++ [entry] := by
  induction path with
  | nil => rfl
  | cons branch path ih =>
      rw [group, ih hpath.2, bucket, List.filter_append]
      simp [hpath.1, group, bucket]

omit [LinearOrder κ] in
theorem group_append_of_not_onPath (hpath : ¬ S.OnPath entry path) :
    S.group (entries ++ [entry]) path = S.group entries path := by
  induction path with
  | nil => exact absurd trivial hpath
  | cons branch path ih =>
      by_cases hrest : S.OnPath entry path
      · have hroute : S.route (S.keyOf entry) path.length ≠ some branch := fun h => hpath ⟨h, hrest⟩
        rw [group, group_append_of_onPath hrest, bucket, List.filter_append]
        simp [hroute, group, bucket]
      · rw [group, ih hrest, group]

omit [LinearOrder κ] in
theorem group_sublist : (S.group entries path).Sublist entries := by
  induction path with
  | nil => exact List.Sublist.refl _
  | cons branch path ih => exact (List.filter_sublist).trans ih

omit [LinearOrder κ] in
theorem length_group_append_le (below : List ι) :
    (S.group entries (below ++ path)).length ≤ (S.group entries path).length := by
  induction below with
  | nil => exact le_rfl
  | cons branch below ih => exact List.filter_sublist.length_le.trans ih

omit [LinearOrder κ] in
theorem group_perm {others : List ε} (hperm : entries.Perm others) :
    (S.group entries path).Perm (S.group others path) := by
  induction path with
  | nil => exact hperm
  | cons branch path ih => exact ih.filter _

omit [LinearOrder κ] in
variable (S capacity entries path) in
theorem lt_splitSize : capacity < S.splitSize capacity entries path := by
  cases path with
  | nil => exact Nat.lt_succ_self _
  | cons branch path => exact lt_of_lt_of_le (Nat.lt_succ_self _) (le_max_left _ _)

omit [LinearOrder κ] in
variable (S capacity entries path) in
theorem splitSize_le :
    S.splitSize capacity entries path ≤ max (capacity + 1) ((S.group entries path).length + 1) := by
  cases path with
  | nil => exact le_max_left _ _
  | cons branch path =>
      have hprefix : (S.bucket path.length branch ((S.group entries path).take
          (S.splitSize capacity entries path))).length ≤
          (S.group entries (branch :: path)).length :=
        ((List.take_sublist _ _).filter _).length_le
      rw [splitSize]
      omega

omit [LinearOrder κ] in
/-- Once a leaf has split, the sizes its children split at are settled. -/
theorem splitSize_append
    (hstable : S.splitSize capacity (entries ++ [entry]) path = S.splitSize capacity entries path)
    (hsplit : S.splitSize capacity entries path ≤ (S.group entries path).length) (branch : ι) :
    S.splitSize capacity (entries ++ [entry]) (branch :: path) =
      S.splitSize capacity entries (branch :: path) := by
  have htake : (S.group (entries ++ [entry]) path).take (S.splitSize capacity entries path) =
      (S.group entries path).take (S.splitSize capacity entries path) := by
    by_cases hpath : S.OnPath entry path
    · rw [group_append_of_onPath hpath, List.take_append_of_le_length hsplit]
    · rw [group_append_of_not_onPath hpath]
  rw [splitSize, splitSize, hstable, htake]

/-- An entry elsewhere does not change what has grown below a path. -/
theorem grown_append_of_not_onPath {remaining : Nat} (hpath : ¬ S.OnPath entry path)
    (hstable : S.splitSize capacity (entries ++ [entry]) path =
      S.splitSize capacity entries path) :
    S.grown capacity (entries ++ [entry]) remaining path =
      S.grown capacity entries remaining path := by
  induction remaining generalizing path with
  | zero => rw [grown, grown, group_append_of_not_onPath hpath]
  | succ remaining ih =>
      rw [grown, grown, group_append_of_not_onPath hpath, hstable]
      split
      next => rfl
      next hsplit =>
        refine congrArg Trie.node (funext fun branch => ?_)
        exact ih (fun hbranch => hpath hbranch.2) (splitSize_append hstable (by omega) branch)

end Paths

/-! ## Insertion grows the grown trie -/

omit [DecidableEq ι] in
theorem sort_congr {first second : List ε} (hperm : first.Perm second)
    (hnodup : (second.map S.keyOf).Nodup) : S.sort first = S.sort second := by
  have hfirst : (first.map S.keyOf).Nodup := (hperm.map S.keyOf).nodup_iff.mpr hnodup
  refine S.eq_of_perm_of_pairwise_lt ?_ (S.sort_pairwise_lt hfirst) (S.sort_pairwise_lt hnodup)
  exact ((S.sort_perm first).trans hperm).trans (S.sort_perm second).symm

theorem bucket_sort (depth : Nat) (branch : ι) {entries : List ε}
    (hnodup : (entries.map S.keyOf).Nodup) :
    S.bucket depth branch (S.sort entries) = S.sort (S.bucket depth branch entries) := by
  have hsorted := S.sort_pairwise_lt hnodup
  have hbucket : ((S.bucket depth branch entries).map S.keyOf).Nodup :=
    hnodup.sublist (List.filter_sublist.map _)
  refine S.eq_of_perm_of_pairwise_lt ?_ (hsorted.filter _) (S.sort_pairwise_lt hbucket)
  exact ((S.sort_perm entries).filter _).trans (S.sort_perm _).symm

/-- Inserting a new key into a leaf is placing it there. -/
theorem insert_ofBucket {capacity : Nat} {entry : ε} {entries : List ε} {depth : Nat}
    (hnodup : ((entries ++ [entry]).map S.keyOf).Nodup) :
    S.insert (ι := ι) capacity entry (.ofBucket (S.sort entries)) depth =
      if entries.length + 1 ≤ capacity then .ok (.leaf (S.sort (entries ++ [entry])))
      else if depth < S.levels then .ok (S.split depth (S.sort (entries ++ [entry])))
      else .error (S.keyOf ((S.sort (entries ++ [entry])).headD entry), depth) := by
  have hsort : S.sort (S.sort entries ++ [entry]) = S.sort (entries ++ [entry]) :=
    S.sort_congr ((S.sort_perm entries).append_right [entry]) hnodup
  have hplace : S.insert (ι := ι) capacity entry (.ofBucket (S.sort entries)) depth =
      S.place capacity entry (S.sort entries) depth := by
    unfold Trie.ofBucket
    split
    next hnil => rw [hnil, insert]
    next =>
      have habsent : ¬ (S.sort entries).any fun present => S.keyOf present = S.keyOf entry := by
        rw [List.map_append, List.nodup_append] at hnodup
        simp only [List.any_eq_true, mem_sort, decide_eq_true_eq, not_exists, not_and]
        exact fun present hpresent =>
          hnodup.2.2 _ (List.mem_map_of_mem hpresent) _ (by simp)
      rw [insert, if_neg habsent]
  simp only [hplace, place, hsort, length_sort, List.length_append, List.length_singleton]

variable {S}

omit [DecidableEq ι] in
theorem ofBucket_sort_append (entries : List ε) (entry : ε) :
    (.ofBucket (S.sort (entries ++ [entry])) : Trie ι ε) = .leaf (S.sort (entries ++ [entry])) := by
  refine if_neg fun hnil => ?_
  have hlength := S.length_sort (entries ++ [entry])
  rw [hnil, List.length_append] at hlength
  simp at hlength

theorem insert_grown {capacity : Nat} {entries : List ε} {entry : ε} {remaining : Nat}
    {path : List ι} {after : Trie ι ε}
    (hnodup : ((entries ++ [entry]).map S.keyOf).Nodup)
    (hlevels : remaining + path.length = S.levels) (hpath : S.OnPath entry path)
    (hstable : S.splitSize capacity (entries ++ [entry]) path = S.splitSize capacity entries path)
    (hinsert : S.insert capacity entry (S.grown capacity entries remaining path) path.length =
      .ok after) :
    after = S.grown capacity (entries ++ [entry]) remaining path := by
  have hgroup : ((S.group entries path ++ [entry]).map S.keyOf).Nodup :=
    hnodup.sublist ((group_sublist.append_right [entry]).map _)
  induction remaining generalizing path after with
  | zero =>
      rw [grown, S.insert_ofBucket hgroup] at hinsert
      rw [grown, group_append_of_onPath hpath, ofBucket_sort_append]
      split at hinsert
      next => exact (Except.ok.inj hinsert).symm
      next =>
        rw [if_neg (by omega)] at hinsert
        cases hinsert
  | succ remaining ih =>
      have hlower := S.lt_splitSize capacity entries path
      have hupper := S.splitSize_le capacity entries path
      rw [grown] at hinsert
      rw [grown, group_append_of_onPath hpath, hstable, List.length_append, List.length_singleton]
      split at hinsert
      next hleaf =>
        rw [S.insert_ofBucket hgroup] at hinsert
        split at hinsert
        next hfits =>
          rw [if_pos (by omega), ofBucket_sort_append]
          exact (Except.ok.inj hinsert).symm
        next hfull =>
          rw [if_pos (by omega)] at hinsert
          rw [if_neg (by omega), ← Except.ok.inj hinsert, split]
          -- The leaf splits now, so its children are exactly its buckets.
          refine congrArg Trie.node (funext fun branch => ?_)
          have hchild : S.group (entries ++ [entry]) (branch :: path) =
              S.bucket path.length branch (S.group entries path ++ [entry]) := by
            rw [group, group_append_of_onPath hpath]
          have hsize : (S.group (entries ++ [entry]) (branch :: path)).length <
              S.splitSize capacity (entries ++ [entry]) (branch :: path) := by
            rw [splitSize, hstable, hchild, group_append_of_onPath hpath,
              List.take_of_length_le (by rw [List.length_append, List.length_singleton]; omega)]
            omega
          rw [S.bucket_sort _ _ hgroup, ← hchild]
          cases remaining with
          | zero => rfl
          | succ remaining => rw [grown, if_pos hsize]
      next hnode =>
        have hdepth : path.length < S.levels := by omega
        obtain ⟨branch, hbranch⟩ := S.exists_route (S.keyOf entry) hdepth
        simp only [insert, hbranch] at hinsert
        rw [if_neg (by omega)]
        cases hchild : S.insert capacity entry
            (S.grown capacity entries remaining (branch :: path)) (path.length + 1) with
        | error error => rw [hchild] at hinsert; cases hinsert
        | ok child =>
            rw [hchild] at hinsert
            rw [← Except.ok.inj hinsert]
            refine congrArg Trie.node (funext fun other => ?_)
            have hsettled := splitSize_append hstable (by omega : _ ≤ _)
            by_cases hother : other = branch
            · subst hother
              rw [Function.update_self]
              have hbelow : remaining + (other :: path).length = S.levels := by
                rw [List.length_cons]
                omega
              refine ih hbelow ⟨hbranch, hpath⟩ (hsettled other) hchild ?_
              exact hnodup.sublist ((group_sublist.append_right [entry]).map _)
            · rw [Function.update_of_ne hother]
              refine (grown_append_of_not_onPath (fun honPath => hother ?_) (hsettled other)).symm
              exact Option.some.inj (honPath.1.symm.trans hbranch)

/-- Inserting entries with distinct keys into nothing grows the grown trie. -/
theorem insertAll_eq_grown {capacity : Nat} {entries : List ε} {after : Trie ι ε}
    (hnodup : (entries.map S.keyOf).Nodup)
    (hinsert : S.insertAll capacity entries .empty = .ok after) :
    after = S.grown capacity entries S.levels [] := by
  induction entries using List.reverseRecOn generalizing after with
  | nil =>
      cases hinsert
      cases S.levels <;> simp [grown, group, splitSize]
  | append_singleton entries entry ih =>
      rw [insertAll_append] at hinsert
      cases hbefore : S.insertAll capacity entries .empty with
      | error error => rw [hbefore] at hinsert; cases hinsert
      | ok before =>
          have hentries : (entries.map S.keyOf).Nodup :=
            hnodup.sublist ((List.sublist_append_left _ _).map _)
          rw [hbefore, ih hentries hbefore] at hinsert
          have hstep : S.insert capacity entry (S.grown capacity entries S.levels []) 0 =
              .ok after := by
            rw [← hinsert]
            simp only [Except.bind, insertAll_cons]
            cases S.insert capacity entry (S.grown capacity entries S.levels []) 0 <;> rfl
          exact insert_grown hnodup (Nat.add_zero _) trivial rfl hstep

/-- The canonical trie does not depend on the order of the entries. -/
theorem canonical_perm {capacity : Nat} {entries others : List ε} {remaining : Nat}
    {path : List ι} (hnodup : (others.map S.keyOf).Nodup) (hperm : entries.Perm others) :
    S.canonical capacity entries remaining path = S.canonical capacity others remaining path := by
  have hgroup : ∀ path : List ι, S.sort (S.group entries path) = S.sort (S.group others path) :=
    fun path => S.sort_congr (group_perm hperm) (hnodup.sublist (group_sublist.map _))
  induction remaining generalizing path with
  | zero => rw [canonical, canonical, hgroup]
  | succ remaining ih =>
      rw [canonical, canonical, hgroup, (group_perm hperm).length_eq]
      split
      next => rfl
      next => exact congrArg Trie.node (funext fun branch => ih)

/-- What insertion grows below a path is canonical exactly when it has split
every overfull leaf there. -/
theorem grown_eq_canonical_iff {capacity : Nat} {entries : List ε} {remaining : Nat}
    {path : List ι} (hlevels : remaining + path.length = S.levels) :
    S.grown capacity entries remaining path = S.canonical capacity entries remaining path ↔
      ∀ below : List ι, (below ++ path).length < S.levels →
        capacity < (S.group entries (below ++ path)).length →
          S.splitSize capacity entries (below ++ path) ≤
            (S.group entries (below ++ path)).length := by
  induction remaining generalizing path with
  | zero =>
      refine ⟨fun _ below hbelow => ?_, fun _ => rfl⟩
      rw [List.length_append] at hbelow
      omega
  | succ remaining ih =>
      rw [grown, canonical]
      by_cases hfits : (S.group entries path).length ≤ capacity
      · have hlower := S.lt_splitSize capacity entries path
        rw [if_pos hfits, if_pos (by omega)]
        refine ⟨fun _ below _ hlarge => ?_, fun _ => rfl⟩
        exact absurd hlarge (not_lt.mpr ((length_group_append_le below).trans hfits))
      · rw [if_neg hfits]
        by_cases hleaf : (S.group entries path).length < S.splitSize capacity entries path
        · rw [if_pos hleaf]
          constructor
          · intro heq
            unfold Trie.ofBucket at heq
            split at heq <;> cases heq
          · intro hall
            exact absurd (hall [] (by simp; omega) (by simpa using hfits)) (by simpa using hleaf)
        · have hchildLevels : ∀ branch : ι, remaining + (branch :: path).length = S.levels := by
            intro branch
            rw [List.length_cons]
            omega
          rw [if_neg hleaf, Trie.node.injEq, funext_iff]
          constructor
          · intro hchildren below hbelow hlarge
            rcases List.eq_nil_or_concat below with rfl | ⟨above, branch, rfl⟩
            · exact not_lt.mp hleaf
            · have hchild := (ih (hchildLevels branch)).mp (hchildren branch) above
              simpa using hchild (by simpa using hbelow) (by simpa using hlarge)
          · intro hall branch
            refine (ih (hchildLevels branch)).mpr ?_
            intro below
            simpa using hall (below ++ [branch])

/-! ## The shape of a canonical trie -/

omit [LinearOrder κ] in
theorem mem_group {entries : List ε} {entry : ε} {path : List ι} :
    entry ∈ S.group entries path ↔ entry ∈ entries ∧ S.OnPath entry path := by
  induction path with
  | nil => simp [group, OnPath]
  | cons branch path ih =>
      rw [group, bucket, List.mem_filter, ih, decide_eq_true_eq, OnPath, and_assoc,
        and_comm (a := S.OnPath entry path)]

omit [LinearOrder κ] [DecidableEq ι] in
/-- Entries on one path take the same branch at each of its levels. -/
theorem route_eq_of_onPath {first second : ε} {path : List ι} (hfirst : S.OnPath first path)
    (hsecond : S.OnPath second path) {level : Nat} (hlevel : level < path.length) :
    S.route (S.keyOf first) level = S.route (S.keyOf second) level := by
  induction path with
  | nil => cases hlevel
  | cons branch path ih =>
      rcases Nat.lt_succ_iff_lt_or_eq.mp hlevel with hbelow | rfl
      · exact ih hfirst.2 hsecond.2 hbelow
      · rw [hfirst.1, hsecond.1]

/-- A canonical trie holds the entries that take its path. -/
theorem mem_canonical {capacity : Nat} {entries : List ε} {remaining : Nat} {path : List ι}
    (hlevels : remaining + path.length = S.levels) {entry : ε} :
    (S.canonical capacity entries remaining path).Mem entry ↔ entry ∈ S.group entries path := by
  induction remaining generalizing path with
  | zero => rw [canonical, Trie.mem_ofBucket, mem_sort]
  | succ remaining ih =>
      rw [canonical]
      split
      next => rw [Trie.mem_ofBucket, mem_sort]
      next =>
        have hbelow : ∀ branch : ι, remaining + (branch :: path).length = S.levels :=
          fun branch => by
          rw [List.length_cons]
          omega
        have hmem : (∃ branch, entry ∈ S.group entries (branch :: path)) ↔
            entry ∈ S.group entries path := by
          simp only [group, bucket, List.mem_filter, decide_eq_true_eq, exists_and_left]
          refine and_iff_left_of_imp fun _ => S.exists_route _ ?_
          omega
        simp only [Trie.Mem, ih (hbelow _), hmem]

theorem wellFormed_canonical {capacity : Nat} {entries : List ε} {remaining : Nat}
    {path : List ι} (hnodup : (entries.map S.keyOf).Nodup)
    (hlevels : remaining + path.length = S.levels) :
    S.WellFormed path.length (S.canonical capacity entries remaining path) := by
  have hleaf : ∀ path : List ι,
      S.WellFormed path.length (.ofBucket (S.sort (S.group entries path))) := fun path =>
    S.wellFormed_ofBucket _ (S.sort_pairwise_lt (hnodup.sublist (group_sublist.map _)))
  induction remaining generalizing path with
  | zero => exact hleaf path
  | succ remaining ih =>
      rw [canonical]
      split
      next => exact hleaf path
      next =>
        refine ⟨by omega, fun branch => ?_⟩
        have hbelow : remaining + (branch :: path).length = S.levels := by
          rw [List.length_cons]
          omega
        refine ⟨ih hbelow, fun entry hmem => ?_⟩
        exact (mem_group.mp ((mem_canonical hbelow).mp hmem)).2.1

/-- More entries than a leaf may hold never share the whole of a path. -/
def Separates (S : Scheme κ ι ε) (capacity : Nat) (entries : List ε) : Prop :=
  ∀ path : List ι, path.length = S.levels → (S.group entries path).length ≤ capacity

variable [Fintype ι]

theorem size_canonical {capacity : Nat} {entries : List ε} {remaining : Nat} {path : List ι}
    (hlevels : remaining + path.length = S.levels) :
    (S.canonical capacity entries remaining path).size = (S.group entries path).length := by
  induction remaining generalizing path with
  | zero => rw [canonical, Trie.size_ofBucket, length_sort]
  | succ remaining ih =>
      rw [canonical]
      split
      next => rw [Trie.size_ofBucket, length_sort]
      next =>
        have hbelow : ∀ branch : ι, remaining + (branch :: path).length = S.levels :=
          fun branch => by
          rw [List.length_cons]
          omega
        simp only [Trie.size, ih (hbelow _)]
        exact S.sum_length_bucket _ (by omega)

/-- A canonical trie is a leaf exactly when a leaf may hold its entries. -/
theorem canonical_isLeaf_iff {capacity : Nat} {entries : List ε}
    (hseparates : S.Separates capacity entries) {remaining : Nat} {path : List ι}
    (hlevels : remaining + path.length = S.levels)
    (hsome : S.canonical capacity entries remaining path ≠ .empty) :
    (∃ bucket, S.canonical capacity entries remaining path = .leaf bucket) ↔
      (S.canonical capacity entries remaining path).size ≤ capacity := by
  have hleaf : ∀ bucket : List ε, (Trie.ofBucket bucket : Trie ι ε) ≠ .empty →
      ∃ entries, (Trie.ofBucket bucket : Trie ι ε) = .leaf entries := by
    intro bucket hne
    refine ⟨bucket, if_neg ?_⟩
    rintro rfl
    exact hne Trie.ofBucket_nil
  rw [size_canonical hlevels]
  cases remaining with
  | zero =>
      exact iff_of_true (hleaf _ hsome) (hseparates path (by omega))
  | succ remaining =>
      rw [canonical] at hsome ⊢
      split
      next hfits =>
        rw [if_pos hfits] at hsome
        exact iff_of_true (hleaf _ hsome) hfits
      next hfull => simp [hfull]

omit [Fintype ι] in
/-- Every place in a canonical trie is canonical. -/
theorem descend_canonical {capacity : Nat} {entries : List ε} {remaining : Nat}
    {path more : List ι}
    (hsome : (S.canonical capacity entries remaining path).descend more ≠ .empty) :
    ∃ rest, remaining = rest + more.length ∧
      (S.canonical capacity entries remaining path).descend more =
        S.canonical capacity entries rest (more.reverse ++ path) := by
  induction more generalizing remaining path with
  | nil => exact ⟨remaining, rfl, Trie.descend_nil _⟩
  | cons branch more ih =>
      have hbucket : ∀ bucket : List ε,
          (Trie.ofBucket bucket : Trie ι ε).descend (branch :: more) = .empty := by
        intro bucket
        unfold Trie.ofBucket
        split <;> rfl
      cases remaining with
      | zero => exact absurd (hbucket _) hsome
      | succ remaining =>
          rw [canonical] at hsome ⊢
          split at hsome
          next => exact absurd (hbucket _) hsome
          next hfull =>
            obtain ⟨rest, hrest, hbelow⟩ := ih hsome
            refine ⟨rest, by rw [hrest, List.length_cons, Nat.add_assoc], ?_⟩
            rw [if_neg hfull, Trie.descend_node, hbelow, List.reverse_cons, List.append_assoc,
              List.singleton_append]

end Scheme

end BucketTrie

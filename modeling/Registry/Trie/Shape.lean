import Mathlib.Algebra.BigOperators.Group.Finset.Piecewise
import Mathlib.Algebra.Order.BigOperators.Group.Finset
import Registry.Trie.Basic

/-! # The shape of a trie

What insertion keeps of the positions in a trie: how many entries lie below a node,
which of them may end up in one leaf, and how deep the trie gets.
-/

namespace BucketTrie

variable {κ ι ε : Type}

namespace Trie

/-- What lies at the end of a path; nothing where the path leaves the trie. -/
def descend : Trie ι ε → List ι → Trie ι ε
  | trie, [] => trie
  | .node children, branch :: path => (children branch).descend path
  | .leaf _, _ :: _ => .empty
  | .empty, _ :: _ => .empty

@[simp] theorem descend_nil (trie : Trie ι ε) : trie.descend [] = trie := by
  cases trie <;> rfl

@[simp] theorem descend_node (children : ι → Trie ι ε) (branch : ι) (path : List ι) :
    (Trie.node children).descend (branch :: path) = (children branch).descend path := rfl

@[simp] theorem descend_empty (path : List ι) : (.empty : Trie ι ε).descend path = .empty := by
  cases path <;> rfl

theorem mem_of_mem_descend {trie : Trie ι ε} {path : List ι} {entry : ε}
    (hmem : (trie.descend path).Mem entry) : trie.Mem entry := by
  induction path generalizing trie with
  | nil => rwa [descend_nil] at hmem
  | cons branch path ih =>
      cases trie with
      | empty => exact hmem
      | leaf entries => exact hmem.elim
      | node children => exact ⟨branch, ih hmem⟩

/-- The number of entries in a trie. -/
def size [Fintype ι] : Trie ι ε → Nat
  | .empty => 0
  | .leaf entries => entries.length
  | .node children => Finset.univ.sum fun branch => (children branch).size

variable [Fintype ι]

@[simp] theorem size_ofBucket (entries : List ε) :
    (ofBucket entries : Trie ι ε).size = entries.length := by
  unfold ofBucket
  split
  next hnil => rw [hnil]; rfl
  next => rfl

/-- Below every node there are more entries than a leaf may hold, only the root may be
an empty leaf, and a leaf is over its capacity by at most the number of levels above. -/
def Filled (capacity : Nat) : Nat → Trie ι ε → Prop
  | _, .empty => True
  | depth, .leaf entries => entries.length ≤ capacity + depth ∧ (depth ≠ 0 → entries ≠ [])
  | depth, .node children => capacity < (Trie.node children).size ∧
      ∀ branch, (children branch).Filled capacity (depth + 1)

theorem Filled.descend {capacity depth : Nat} {trie : Trie ι ε}
    (hfilled : trie.Filled capacity depth)
    (path : List ι) : (trie.descend path).Filled capacity (depth + path.length) := by
  induction path generalizing trie depth with
  | nil => rwa [descend_nil]
  | cons branch path ih =>
      cases trie with
      | empty => trivial
      | leaf entries => trivial
      | node children =>
          rw [List.length_cons, Nat.add_comm path.length, ← Nat.add_assoc]
          exact ih (hfilled.2 branch)

theorem filled_ofBucket {capacity depth : Nat} {entries : List ε}
    (hlength : entries.length ≤ capacity + depth) :
    (ofBucket entries : Trie ι ε).Filled capacity depth := by
  unfold ofBucket
  split
  next => trivial
  next hne => exact ⟨hlength, fun _ => hne⟩

end Trie

namespace Scheme

variable (S : Scheme κ ι ε) [LinearOrder κ]

theorem WellFormed.descend {S : Scheme κ ι ε} {depth : Nat} {trie : Trie ι ε}
    (hwf : S.WellFormed depth trie) (path : List ι) :
    S.WellFormed (depth + path.length) (trie.descend path) := by
  induction path generalizing trie depth with
  | nil => rwa [Trie.descend_nil]
  | cons branch path ih =>
      cases trie with
      | empty => trivial
      | leaf entries => trivial
      | node children =>
          rw [List.length_cons, Nat.add_comm path.length, ← Nat.add_assoc]
          exact ih (hwf.2 branch).1

/-- An entry of a trie took the path to each place above it. -/
theorem WellFormed.route_of_mem {S : Scheme κ ι ε} {depth : Nat} {trie : Trie ι ε}
    (hwf : S.WellFormed depth trie) {path : List ι} {entry : ε}
    (hmem : (trie.descend path).Mem entry) {level : Nat} (hlevel : level < path.length) :
    S.route (S.keyOf entry) (depth + level) = some path[level] := by
  induction path generalizing trie depth level with
  | nil => cases hlevel
  | cons branch path ih =>
      cases trie with
      | empty => exact hmem.elim
      | leaf entries => exact hmem.elim
      | node children =>
          cases level with
          | zero =>
              exact (hwf.2 branch).2 entry (Trie.mem_of_mem_descend hmem)
          | succ level =>
              have hrest := ih (hwf.2 branch).1 hmem (Nat.lt_of_succ_lt_succ hlevel)
              rw [Nat.add_right_comm] at hrest
              exact hrest

theorem WellFormed.length_le {S : Scheme κ ι ε} {depth : Nat} {trie : Trie ι ε}
    (hwf : S.WellFormed depth trie) (hdepth : depth ≤ S.levels) {path : List ι}
    (hdescend : trie.descend path ≠ .empty) : depth + path.length ≤ S.levels := by
  induction path generalizing trie depth with
  | nil => exact hdepth
  | cons branch path ih =>
      cases trie with
      | empty => exact absurd rfl hdescend
      | leaf entries => exact absurd rfl hdescend
      | node children =>
          have hrest := ih (hwf.2 branch).1 hwf.1 hdescend
          rw [List.length_cons]
          omega

/-- A well-formed trie resolves a key to the entry in it that has the key. -/
theorem WellFormed.find_eq_some_iff {S : Scheme κ ι ε} {depth : Nat} {trie : Trie ι ε}
    (hwf : S.WellFormed depth trie) {key : κ} {entry : ε} :
    S.find key trie depth = some entry ↔ trie.Mem entry ∧ S.keyOf entry = key := by
  induction trie generalizing depth with
  | empty => simp [find, Trie.Mem]
  | leaf entries => exact S.find?_eq_some_iff_of_nodup (S.nodup_keys_of_pairwise_lt hwf)
  | node children ih =>
      obtain ⟨taken, htaken⟩ := S.exists_route key hwf.1
      simp only [find, htaken, ih taken (hwf.2 taken).1]
      constructor
      · rintro ⟨hmem, rfl⟩
        exact ⟨⟨taken, hmem⟩, rfl⟩
      · rintro ⟨⟨branch, hmem⟩, rfl⟩
        obtain rfl : taken = branch :=
          Option.some.inj (htaken.symm.trans ((hwf.2 branch).2 entry hmem))
        exact ⟨hmem, rfl⟩

variable [DecidableEq ι] [Fintype ι]

omit [LinearOrder κ] in
/-- Every entry takes exactly one branch. -/
theorem sum_length_bucket (entries : List ε) {depth : Nat} (hdepth : depth < S.levels) :
    (Finset.univ.sum fun branch => (S.bucket depth branch entries).length) = entries.length := by
  induction entries with
  | nil => simp [bucket]
  | cons entry rest ih =>
      obtain ⟨taken, htaken⟩ := S.exists_route (S.keyOf entry) hdepth
      have hcons : ∀ branch, (S.bucket depth branch (entry :: rest)).length =
          (if taken = branch then 1 else 0) + (S.bucket depth branch rest).length := by
        intro branch
        by_cases hbranch : taken = branch
        · simp [bucket, htaken, hbranch, Nat.add_comm]
        · simp [bucket, htaken, hbranch]
      simp only [hcons, Finset.sum_add_distrib, ih, Finset.sum_ite_eq, Finset.mem_univ, if_true]
      rw [List.length_cons, Nat.add_comm]

omit [LinearOrder κ] in
theorem size_split (entries : List ε) {depth : Nat} (hdepth : depth < S.levels) :
    (S.split depth entries).size = entries.length := by
  simp only [split, Trie.size, Trie.size_ofBucket, S.sum_length_bucket entries hdepth]

theorem size_place {capacity : Nat} {entry : ε} {entries : List ε} {depth : Nat}
    {placed : Trie ι ε} (hplace : S.place capacity entry entries depth = .ok placed) :
    placed.size = entries.length + 1 := by
  have hgrown : (S.sort (entries ++ [entry])).length = entries.length + 1 := by
    rw [S.length_sort, List.length_append, List.length_singleton]
  simp only [place] at hplace
  split at hplace
  next =>
    cases hplace
    exact hgrown
  next =>
    split at hplace
    next hdepth =>
      cases hplace
      rw [S.size_split _ hdepth, hgrown]
    next => cases hplace

/-- No entry is lost by an insertion. -/
theorem size_le_insert {capacity : Nat} {entry : ε} {trie after : Trie ι ε} {depth : Nat}
    (hinsert : S.insert capacity entry trie depth = .ok after) : trie.size ≤ after.size := by
  induction trie generalizing depth after with
  | empty => exact Nat.zero_le _
  | leaf entries =>
      simp only [insert] at hinsert
      split at hinsert
      next =>
        cases hinsert
        exact le_rfl
      next =>
        rw [S.size_place hinsert]
        exact Nat.le_succ _
  | node children ih =>
      simp only [insert] at hinsert
      split at hinsert
      next => cases hinsert
      next branch hbranch =>
        cases hchild : S.insert capacity entry (children branch) (depth + 1) with
        | error error => rw [hchild] at hinsert; cases hinsert
        | ok child =>
            rw [hchild] at hinsert
            cases hinsert
            refine Finset.sum_le_sum fun other _ => ?_
            by_cases hother : other = branch
            · subst hother
              rw [Function.update_self]
              exact ih other hchild
            · rw [Function.update_of_ne hother]

theorem filled_place {capacity : Nat} {entry : ε} {entries : List ε} {depth : Nat}
    {placed : Trie ι ε} (hlength : entries.length ≤ capacity + depth)
    (hplace : S.place capacity entry entries depth = .ok placed) :
    placed.Filled capacity depth := by
  have hsize := S.size_place hplace
  have hgrown : (S.sort (entries ++ [entry])).length = entries.length + 1 := by
    rw [S.length_sort, List.length_append, List.length_singleton]
  simp only [place] at hplace
  split at hplace
  next hfits =>
    cases hplace
    refine ⟨hfits.trans (Nat.le_add_right _ _), fun _ hnil => ?_⟩
    rw [hnil] at hgrown
    cases hgrown
  next hfull =>
    split at hplace
    next hdepth =>
      cases hplace
      refine ⟨by rw [← split]; omega, fun branch => Trie.filled_ofBucket ?_⟩
      -- All entries may take the same branch.
      have hbucket : (S.bucket depth branch (S.sort (entries ++ [entry]))).length ≤
          (S.sort (entries ++ [entry])).length := List.length_filter_le _ _
      omega
    next => cases hplace

theorem filled_insert {capacity : Nat} {entry : ε} {trie after : Trie ι ε} {depth : Nat}
    (hfilled : trie.Filled capacity depth)
    (hinsert : S.insert capacity entry trie depth = .ok after) :
    after.Filled capacity depth := by
  have hsize := S.size_le_insert hinsert
  induction trie generalizing depth after with
  | empty => exact S.filled_place (Nat.zero_le _) hinsert
  | leaf entries =>
      simp only [insert] at hinsert
      split at hinsert
      next =>
        cases hinsert
        exact hfilled
      next => exact S.filled_place hfilled.1 hinsert
  | node children ih =>
      simp only [insert] at hinsert
      split at hinsert
      next => cases hinsert
      next branch hbranch =>
        cases hchild : S.insert capacity entry (children branch) (depth + 1) with
        | error error => rw [hchild] at hinsert; cases hinsert
        | ok child =>
            rw [hchild] at hinsert
            cases hinsert
            refine ⟨hfilled.1.trans_le hsize, fun other => ?_⟩
            by_cases hother : other = branch
            · subst hother
              rw [Function.update_self]
              exact ih other (hfilled.2 other) hchild (S.size_le_insert hchild)
            · rw [Function.update_of_ne hother]
              exact hfilled.2 other

/-! ## What an insertion leaves in place -/

omit [LinearOrder κ] [DecidableEq ι] [Fintype ι] in
/-- A key takes all branches of a path, from a depth on. -/
def Takes (key : κ) : Nat → List ι → Prop
  | _, [] => True
  | depth, branch :: path => S.route key depth = some branch ∧ Takes key (depth + 1) path

omit [LinearOrder κ] [DecidableEq ι] [Fintype ι] in
theorem takes_iff {key : κ} {depth : Nat} {path : List ι} :
    S.Takes key depth path ↔
      ∀ (level : Nat) (hlevel : level < path.length),
        S.route key (depth + level) = some path[level] := by
  induction path generalizing depth with
  | nil => simp [Takes]
  | cons branch path ih =>
      rw [Takes, ih]
      constructor
      · rintro ⟨hbranch, hpath⟩ level hlevel
        cases level with
        | zero => exact hbranch
        | succ level =>
            have hroute := hpath level (Nat.lt_of_succ_lt_succ hlevel)
            rw [Nat.add_right_comm] at hroute
            exact hroute
      · intro hall
        refine ⟨hall 0 (Nat.zero_lt_succ _), fun level hlevel => ?_⟩
        rw [Nat.add_right_comm]
        exact hall (level + 1) (Nat.succ_lt_succ hlevel)

omit [DecidableEq ι] [Fintype ι] in
theorem descend_ofBucket_cons (entries : List ε) (branch : ι) (path : List ι) :
    (Trie.ofBucket entries : Trie ι ε).descend (branch :: path) = .empty := by
  unfold Trie.ofBucket
  split <;> rfl

omit [Fintype ι] in
/-- A leaf that gets an entry changes at its own place and, when it splits, at the
places right below. -/
theorem descend_place {capacity : Nat} {entry : ε} {entries : List ε} {depth : Nat}
    {placed : Trie ι ε} (hplace : S.place capacity entry entries depth = .ok placed)
    {path : List ι} (hsome : placed.descend path ≠ .empty) :
    path = [] ∨ ∃ branch, path = [branch] ∧
      (∃ bucket, placed.descend path = .leaf bucket) ∧
        ∃ present, (present ∈ entries ∨ present = entry) ∧
          S.route (S.keyOf present) depth = some branch := by
  simp only [place] at hplace
  cases path with
  | nil => exact Or.inl rfl
  | cons branch rest =>
      split at hplace
      next =>
        cases hplace
        exact absurd rfl hsome
      next =>
        split at hplace
        next hdepth =>
          cases hplace
          rw [split, Trie.descend_node] at hsome ⊢
          cases rest with
          | cons next rest => exact absurd (descend_ofBucket_cons _ _ _) hsome
          | nil =>
              rw [Trie.descend_nil] at hsome ⊢
              have hbucket : S.bucket depth branch (S.sort (entries ++ [entry])) ≠ [] := by
                intro hnil
                rw [hnil] at hsome
                exact hsome Trie.ofBucket_nil
              obtain ⟨present, hpresent⟩ := List.exists_mem_of_ne_nil _ hbucket
              obtain ⟨hmem, hroute⟩ := List.mem_filter.mp hpresent
              rw [S.mem_sort, List.mem_append, List.mem_singleton] at hmem
              exact Or.inr ⟨branch, rfl, ⟨_, if_neg hbucket⟩, present, hmem,
                of_decide_eq_true hroute⟩
        next => cases hplace

omit [Fintype ι] in
/-- After an insertion, a place is as it was, or lies on the path of the key, or is a leaf
right below the one at the end of that path. -/
theorem descend_insert {capacity : Nat} {entry : ε} {trie after : Trie ι ε} {depth : Nat}
    (hinsert : S.insert capacity entry trie depth = .ok after) {path : List ι}
    (hsome : after.descend path ≠ .empty) :
    after.descend path = trie.descend path ∨ S.Takes (S.keyOf entry) depth path ∨
      ∃ start branch, path = start ++ [branch] ∧ S.Takes (S.keyOf entry) depth start ∧
        (∃ bucket, trie.descend start = .leaf bucket) ∧
          ∃ bucket, after.descend path = .leaf bucket := by
  induction trie generalizing depth after path with
  | empty =>
      obtain rfl | ⟨branch, rfl, -, present, hpresent, hroute⟩ := S.descend_place hinsert hsome
      · exact Or.inr (Or.inl trivial)
      · obtain rfl := hpresent.resolve_left List.not_mem_nil
        exact Or.inr (Or.inl ⟨hroute, trivial⟩)
  | leaf entries =>
      simp only [insert] at hinsert
      split at hinsert
      next =>
        cases hinsert
        exact Or.inl rfl
      next =>
        obtain rfl | ⟨branch, rfl, hleaf, -⟩ := S.descend_place hinsert hsome
        · exact Or.inr (Or.inl trivial)
        · exact Or.inr (Or.inr ⟨[], branch, rfl, trivial, ⟨entries, rfl⟩, hleaf⟩)
  | node children ih =>
      simp only [insert] at hinsert
      split at hinsert
      next => cases hinsert
      next taken htaken =>
        cases hchild : S.insert capacity entry (children taken) (depth + 1) with
        | error error => rw [hchild] at hinsert; cases hinsert
        | ok child =>
            rw [hchild] at hinsert
            cases hinsert
            cases path with
            | nil => exact Or.inr (Or.inl trivial)
            | cons branch path =>
                rw [Trie.descend_node] at hsome ⊢
                by_cases hbranch : branch = taken
                · subst hbranch
                  rw [Function.update_self] at hsome ⊢
                  obtain hsame | htakes | ⟨start, last, rfl, htakes, hleaf, hafter⟩ :=
                    ih branch hchild hsome
                  · exact Or.inl hsame
                  · exact Or.inr (Or.inl ⟨htaken, htakes⟩)
                  · exact Or.inr
                      (Or.inr ⟨branch :: start, last, rfl, ⟨htaken, htakes⟩, hleaf, hafter⟩)
                · rw [Function.update_of_ne hbranch]
                  exact Or.inl rfl

omit [Fintype ι] in
/-- A node on the path of the key stays a node, with all other children as they were. -/
theorem children_insert {capacity : Nat} {entry : ε} {trie after : Trie ι ε} {depth : Nat}
    (hinsert : S.insert capacity entry trie depth = .ok after) {path : List ι}
    {children : ι → Trie ι ε} (htakes : S.Takes (S.keyOf entry) depth path)
    (hnode : trie.descend path = .node children) :
    ∃ others, after.descend path = .node others ∧ ∀ branch,
      S.route (S.keyOf entry) (depth + path.length) ≠ some branch →
        others branch = children branch := by
  induction path generalizing trie after depth with
  | nil =>
      rw [Trie.descend_nil] at hnode
      subst hnode
      simp only [insert] at hinsert
      split at hinsert
      next => cases hinsert
      next taken htaken =>
        cases hchild : S.insert capacity entry (children taken) (depth + 1) with
        | error error => rw [hchild] at hinsert; cases hinsert
        | ok child =>
            rw [hchild] at hinsert
            cases hinsert
            refine ⟨_, rfl, fun branch hbranch => Function.update_of_ne ?_ _ _⟩
            rintro rfl
            exact hbranch htaken
  | cons branch path ih =>
      cases trie with
      | empty => cases hnode
      | leaf entries => cases hnode
      | node siblings =>
          obtain ⟨hroute, hrest⟩ := htakes
          simp only [insert, hroute] at hinsert
          cases hchild : S.insert capacity entry (siblings branch) (depth + 1) with
          | error error => rw [hchild] at hinsert; cases hinsert
          | ok child =>
              rw [hchild] at hinsert
              cases hinsert
              rw [Trie.descend_node, Function.update_self, List.length_cons,
                Nat.add_comm path.length, ← Nat.add_assoc]
              exact ih hchild hrest hnode

end Scheme

end BucketTrie

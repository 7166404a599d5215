import Registry.Effect.Prog

/-! # Programs that take turns

A pool of programs works on one world. Each step lets one of them make its next
call. A run records which program made which call and what it was answered, and
programs that are verified one by one, each against what the others promise,
are verified as a pool.
-/

namespace Effect

variable {sig : Signature} {ε α β W : Type}

/-- One call of one program of a pool. -/
structure Event (sig : Signature) where
  number : Nat
  op : sig.Op
  response : sig.Res op

/-- The calls of a pool from its start on, in the order they were made. -/
inductive PoolRun (sem : (op : sig.Op) → W → sig.Res op → W → Prop) (start : W)
    (first : List (Prog sig ε α)) : List (Event sig) → W → List (Prog sig ε α) → Prop
  | none : PoolRun sem start first [] start first
  | call {world after : W} {pool : List (Prog sig ε α)} {trace : List (Event sig)}
      {number : Nat} {op : sig.Op} {rest : sig.Res op → Prog sig ε α} {response : sig.Res op}
      (earlier : PoolRun sem start first trace world pool)
      (running : pool[number]? = some (.call op rest))
      (answered : sem op world response after) :
      PoolRun sem start first (trace ++ [⟨number, op, response⟩]) after
        (pool.set number (rest response))

theorem PoolRun.length_eq {sem : (op : sig.Op) → W → sig.Res op → W → Prop} {start final : W}
    {first last : List (Prog sig ε α)} {trace : List (Event sig)}
    (hrun : PoolRun sem start first trace final last) : last.length = first.length := by
  induction hrun with
  | none => rfl
  | call _ _ _ ih => rw [List.length_set, ih]

/-- Every call was made by a program of the pool. -/
theorem PoolRun.number_lt {sem : (op : sig.Op) → W → sig.Res op → W → Prop} {start final : W}
    {first last : List (Prog sig ε α)} {trace : List (Event sig)}
    (hrun : PoolRun sem start first trace final last) :
    ∀ event ∈ trace, event.number < first.length := by
  induction hrun with
  | none => simp
  | call earlier running _ ih =>
      intro event hevent
      rcases List.mem_append.mp hevent with hold | hnew
      · exact ih event hold
      · rw [List.mem_singleton.mp hnew, ← earlier.length_eq]
        exact (List.getElem?_eq_some_iff.mp running).1

/-- A program of the pool that runs to its end without a break. -/
theorem PoolRun.extend {sem : (op : sig.Op) → W → sig.Res op → W → Prop} {start world after : W}
    {first pool : List (Prog sig ε α)} {trace : List (Event sig)} {number : Nat}
    {prog : Prog sig ε α} {outcome : Prog.Outcome ε α}
    (hpool : PoolRun sem start first trace world pool) (hprog : pool[number]? = some prog)
    (hruns : Prog.Runs sem prog world outcome after) :
    ∃ longer, PoolRun sem start first longer after (pool.set number outcome.prog) := by
  have hended : ∀ {pool : List (Prog sig ε α)} {ended : Prog sig ε α},
      pool[number]? = some ended → pool.set number ended = pool := by
    intro pool ended hended
    obtain ⟨hbound, rfl⟩ := List.getElem?_eq_some_iff.mp hended
    exact List.set_getElem_self hbound
  induction hruns generalizing trace pool with
  | pure value world => exact ⟨trace, by rw [Prog.Outcome.prog, hended hprog]; exact hpool⟩
  | throw error world => exact ⟨trace, by rw [Prog.Outcome.prog, hended hprog]; exact hpool⟩
  | diverge world => exact ⟨trace, by rw [Prog.Outcome.prog, hended hprog]; exact hpool⟩
  | @call op rest world middle final response outcome answered _ ih =>
      have hbound : number < pool.length := (List.getElem?_eq_some_iff.mp hprog).1
      obtain ⟨longer, hlonger⟩ := ih (hpool.call hprog answered) (List.getElem?_set_self hbound)
      rw [List.set_set] at hlonger
      exact ⟨longer, hlonger⟩

/-- What the members of a pool promise each other. A state is a world together
with the calls made so far. -/
structure Team (sig : Signature) (W : Type) where
  sem : (op : sig.Op) → W → sig.Res op → W → Prop
  inv : W → List (Event sig) → Prop
  guar : W → W → Prop
  guar_refl : ∀ world, guar world world
  guar_trans : ∀ {first second third}, guar first second → guar second third → guar first third

namespace Team

variable (team : Team sig W)

/-- What the member with this number sees: the others add only calls of their own. -/
def setting (number : Nat) : Setting sig (W × List (Event sig)) where
  sem op before response after :=
    team.sem op before.1 response after.1 ∧ after.2 = before.2 ++ [⟨number, op, response⟩]
  rely before after := team.guar before.1 after.1 ∧
    ∃ more, after.2 = before.2 ++ more ∧ ∀ event ∈ more, event.number ≠ number
  inv state := team.inv state.1 state.2
  guar before after := team.guar before.1 after.1
  rely_refl state := ⟨team.guar_refl state.1, [], (List.append_nil _).symm, by simp⟩
  rely_trans := by
    rintro first second third ⟨hguar, more, hmore, hothers⟩ ⟨hguar', more', hmore', hothers'⟩
    refine ⟨team.guar_trans hguar hguar', more ++ more', ?_, fun event hevent => ?_⟩
    · rw [hmore', hmore, List.append_assoc]
    · rcases List.mem_append.mp hevent with hfirst | hsecond
      · exact hothers event hfirst
      · exact hothers' event hsecond

variable {team}

/-- Members that keep their promises one by one keep them together, from any point
of a run on. -/
theorem run_valid {start final : W} {first last : List (Prog sig ε α)}
    {earlier trace : List (Event sig)}
    {post : Nat → α → W × List (Event sig) → Prop} {fails : Nat → ε → W × List (Event sig) → Prop}
    (hpost : ∀ number value state later, (team.setting number).rely state later →
      post number value state → post number value later)
    (hfails : ∀ number error state later, (team.setting number).rely state later →
      fails number error state → fails number error later)
    (hinv : team.inv start earlier)
    (hfirst : ∀ number prog, first[number]? = some prog →
      Valid (team.setting number) (post number) (fails number) prog (start, earlier))
    (hrun : PoolRun team.sem start first trace final last) :
    team.inv final (earlier ++ trace) ∧ team.guar start final ∧
      ∀ number prog, last[number]? = some prog →
        Valid (team.setting number) (post number) (fails number) prog
          (final, earlier ++ trace) := by
  induction hrun with
  | none =>
      rw [List.append_nil]
      exact ⟨hinv, team.guar_refl _, hfirst⟩
  | @call world after pool trace number op rest response _ running answered ih =>
      obtain ⟨hinvWorld, hguar, hpool⟩ := ih
      obtain ⟨hinvAfter, hstep, hrest⟩ := hpool number _ running (world, earlier ++ trace)
        ((team.setting number).rely_refl _) hinvWorld response
        (after, (earlier ++ trace) ++ [⟨number, op, response⟩]) ⟨answered, rfl⟩
      rw [← List.append_assoc]
      refine ⟨hinvAfter, team.guar_trans hguar hstep, fun other prog hprog => ?_⟩
      by_cases hother : number = other
      · subst hother
        rw [List.getElem?_set_self (List.getElem?_eq_some_iff.mp running).1] at hprog
        rw [← Option.some.inj hprog]
        exact hrest
      · rw [List.getElem?_set_ne hother] at hprog
        refine Valid.interfere (hpost other) (hfails other) ?_ (hpool other prog hprog)
        exact ⟨hstep, _, rfl, by simpa using hother⟩

end Team

/-! ## Runs of allowed calls -/

/-- What a pool can reach by calls that are all allowed where they are made. -/
inductive Reaches (sem : (op : sig.Op) → W → sig.Res op → W → Prop)
    (allowed : W → List (Prog sig ε α) → sig.Op → Prop) (start : W)
    (first : List (Prog sig ε α)) : W → List (Prog sig ε α) → Prop
  | none : Reaches sem allowed start first start first
  | call {world after : W} {pool : List (Prog sig ε α)} {number : Nat} {op : sig.Op}
      {rest : sig.Res op → Prog sig ε α} {response : sig.Res op}
      (earlier : Reaches sem allowed start first world pool)
      (running : pool[number]? = some (.call op rest)) (permitted : allowed world pool op)
      (answered : sem op world response after) :
      Reaches sem allowed start first after (pool.set number (rest response))

/-- A predicate that every allowed call preserves holds wherever the pool gets. -/
theorem Reaches.preserves {sem : (op : sig.Op) → W → sig.Res op → W → Prop}
    {allowed : W → List (Prog sig ε α) → sig.Op → Prop} {start final : W}
    {first last : List (Prog sig ε α)} (I : W → List (Prog sig ε α) → Prop) (hinit : I start first)
    (hstep : ∀ world after pool number op rest response, I world pool →
      pool[number]? = some (.call op rest) → allowed world pool op →
      sem op world response after → I after (pool.set number (rest response)))
    (hreaches : Reaches sem allowed start first final last) : I final last := by
  induction hreaches with
  | none => exact hinit
  | call _ running permitted answered ih => exact hstep _ _ _ _ _ _ _ ih running permitted answered

namespace Prog

/-- A program that makes such a call before it ends, whatever it is answered. -/
def Must (wanted : sig.Op → Prop) : Prog sig ε α → Prop
  | .call op rest => wanted op ∨ ∀ response, (rest response).Must wanted
  | _ => False

/-- A program in which every call of one kind is followed by one of another kind. -/
def FollowedBy (first second : sig.Op → Prop) : Prog sig ε α → Prop
  | .call op rest => ∀ response,
      (first op → (rest response).Must second) ∧ (rest response).FollowedBy first second
  | _ => True

theorem Must.bind {wanted : sig.Op → Prop} {prog : Prog sig ε α} {next : α → Prog sig ε β}
    (hprog : prog.Must wanted) : (prog >>= next).Must wanted := by
  induction prog with
  | pure value => exact hprog.elim
  | throw error => exact hprog.elim
  | diverge => exact hprog.elim
  | call op rest ih => exact hprog.imp id fun hrest response => ih response (hrest response)

theorem FollowedBy.bind {first second : sig.Op → Prop} {prog : Prog sig ε α}
    {next : α → Prog sig ε β} (hprog : prog.FollowedBy first second)
    (hnext : ∀ value, (next value).FollowedBy first second) :
    (prog >>= next).FollowedBy first second := by
  induction prog with
  | pure value => exact hnext value
  | throw error => trivial
  | diverge => trivial
  | call op rest ih =>
      intro response
      exact ⟨fun hfirst => ((hprog response).1 hfirst).bind, ih response (hprog response).2⟩

/-- A program that has no call left to make. -/
def Ended : Prog sig ε α → Prop
  | .call _ _ => False
  | _ => True

instance : DecidablePred (Ended : Prog sig ε α → Prop)
  | .pure _ => inferInstanceAs (Decidable True)
  | .throw _ => inferInstanceAs (Decidable True)
  | .diverge => inferInstanceAs (Decidable True)
  | .call _ _ => inferInstanceAs (Decidable False)

theorem Must.not_ended {wanted : sig.Op → Prop} {prog : Prog sig ε α} (hmust : prog.Must wanted) :
    ¬prog.Ended := by
  cases prog with
  | pure value => exact hmust.elim
  | throw error => exact hmust.elim
  | diverge => exact hmust.elim
  | call op rest => exact id

/-- As long as no such call is made, some program of a pool still has to make it. -/
theorem Must.set_of_call {wanted : sig.Op → Prop} {pool : List (Prog sig ε α)} {number : Nat}
    {op : sig.Op} {rest : sig.Res op → Prog sig ε α}
    (hrunning : pool[number]? = some (.call op rest)) (hop : ¬wanted op)
    (hmust : ∃ prog ∈ pool, prog.Must wanted) (response : sig.Res op) :
    ∃ prog ∈ pool.set number (rest response), prog.Must wanted := by
  obtain ⟨prog, hprog, hwanted⟩ := hmust
  obtain ⟨place, hplace, rfl⟩ := List.getElem_of_mem hprog
  by_cases hsame : number = place
  · subst hsame
    obtain ⟨_, hcall⟩ := List.getElem?_eq_some_iff.mp hrunning
    rw [hcall] at hwanted
    exact ⟨rest response, List.mem_set hplace _, hwanted.resolve_left hop response⟩
  · refine ⟨pool[place], ?_, hwanted⟩
    rw [← List.getElem_set_ne hsame (by simpa using hplace)]
    exact List.getElem_mem _

end Prog

/-! ## Scheduled runs -/

/-- Let the numbered programs make their calls in turn, answered by a handler. -/
def turns (handler : Prog.Handler sig W) : List Nat → W → List (Prog sig ε α) →
    W × List (Prog sig ε α)
  | [], world, pool => (world, pool)
  | number :: schedule, world, pool =>
      match pool[number]? with
      | some (.call op rest) =>
          turns handler schedule (handler op world).2 (pool.set number (rest (handler op world).1))
      | _ => turns handler schedule world pool

/-- Every call of a scheduled run is allowed where it is made. -/
def TurnsAllowed (handler : Prog.Handler sig W)
    (allowed : W → List (Prog sig ε α) → sig.Op → Prop) :
    List Nat → W → List (Prog sig ε α) → Prop
  | [], _, _ => True
  | number :: schedule, world, pool =>
      match pool[number]? with
      | some (.call op rest) => allowed world pool op ∧
          TurnsAllowed handler allowed schedule (handler op world).2
            (pool.set number (rest (handler op world).1))
      | _ => TurnsAllowed handler allowed schedule world pool

theorem Reaches.turns {sem : (op : sig.Op) → W → sig.Res op → W → Prop}
    {allowed : W → List (Prog sig ε α) → sig.Op → Prop} {handler : Prog.Handler sig W}
    (hhandler : ∀ op world, sem op world (handler op world).1 (handler op world).2)
    {start world : W}
    {first pool : List (Prog sig ε α)} (hreaches : Reaches sem allowed start first world pool)
    (schedule : List Nat) (hallowed : TurnsAllowed handler allowed schedule world pool) :
    Reaches sem allowed start first (turns handler schedule world pool).1
      (turns handler schedule world pool).2 := by
  induction schedule generalizing world pool with
  | nil => exact hreaches
  | cons number schedule ih =>
      unfold Effect.turns
      unfold TurnsAllowed at hallowed
      split at hallowed
      next op rest hrunning =>
        exact ih (hreaches.call hrunning hallowed.1 (hhandler op world)) hallowed.2
      next => exact ih hreaches hallowed

theorem TurnsAllowed.of_forall {handler : Prog.Handler sig W}
    {allowed : W → List (Prog sig ε α) → sig.Op → Prop}
    (hallowed : ∀ world pool op, allowed world pool op) (schedule : List Nat) (world : W)
    (pool : List (Prog sig ε α)) : TurnsAllowed handler allowed schedule world pool := by
  induction schedule generalizing world pool with
  | nil => trivial
  | cons number schedule ih =>
      unfold TurnsAllowed
      split
      · exact ⟨hallowed _ _ _, ih _ _⟩
      · exact ih _ _

end Effect

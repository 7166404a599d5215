import Registry.Effect.Prog

/-! # Operations implemented by programs

A program keeps what was verified about it when each of its operations is
replaced by a program of another signature that has the operation's effect,
whatever the other parties do between the calls of that program. Verified
programs are sound in every interleaving with the other parties.
-/

namespace Effect

variable {sig sig' : Signature} {ε α W W' : Type}

namespace Prog

/-- Replace each operation by a program that implements it. -/
def interpret (implement : (op : sig.Op) → Prog sig' ε (sig.Res op)) :
    Prog sig ε α → Prog sig' ε α
  | .pure value => .pure value
  | .throw error => .throw error
  | .diverge => .diverge
  | .call op rest => implement op >>= fun response => (rest response).interpret implement

theorem bind_assoc {β γ : Type} (prog : Prog sig ε α) (next : α → Prog sig ε β)
    (last : β → Prog sig ε γ) :
    prog >>= next >>= last = prog >>= fun value => next value >>= last := by
  induction prog with
  | pure value => rfl
  | throw error => rfl
  | diverge => rfl
  | call op rest ih => exact congrArg (Prog.call op) (funext ih)

theorem interpret_bind {β : Type} (implement : (op : sig.Op) → Prog sig' ε (sig.Res op))
    (prog : Prog sig ε α) (next : α → Prog sig ε β) :
    (prog >>= next).interpret implement =
      prog.interpret implement >>= fun value => (next value).interpret implement := by
  induction prog with
  | pure value => rfl
  | throw error => rfl
  | diverge => rfl
  | call op rest ih =>
      refine Eq.trans ?_ (bind_assoc (implement op) _ _).symm
      exact congrArg (implement op >>= ·) (funext ih)

theorem Calls.mapError {ε' : Type} {onError : ε → ε'} {allowed : sig.Op → Prop}
    {prog : Prog sig ε α} (hprog : prog.Calls allowed) : (prog.mapError onError).Calls allowed := by
  induction prog with
  | pure value => trivial
  | throw error => trivial
  | diverge => trivial
  | call op rest ih => exact ⟨hprog.1, fun response => ih response (hprog.2 response)⟩

/-- One turn of a program or of the other parties. -/
inductive Turn (sem : (op : sig.Op) → W → sig.Res op → W → Prop) (others : W → W → Prop) :
    Prog sig ε α × W → Prog sig ε α × W → Prop
  | call {op : sig.Op} {rest : sig.Res op → Prog sig ε α} {world after : W}
      {response : sig.Res op} (answered : sem op world response after) :
      Turn sem others (.call op rest, world) (rest response, after)
  | other (prog : Prog sig ε α) {world later : W} (moved : others world later) :
      Turn sem others (prog, world) (prog, later)

/-- Any number of turns. -/
abbrev Turns (sem : (op : sig.Op) → W → sig.Res op → W → Prop) (others : W → W → Prop) :
    Prog sig ε α × W → Prog sig ε α × W → Prop :=
  Relation.ReflTransGen (Turn sem others)

/-- A program that is left alone. -/
theorem Runs.turns {sem : (op : sig.Op) → W → sig.Res op → W → Prop} {others : W → W → Prop}
    {prog : Prog sig ε α} {world final : W} {outcome : Outcome ε α}
    (hruns : Runs sem prog world outcome final) :
    Turns sem others (prog, world) (outcome.prog, final) := by
  induction hruns with
  | pure value world => exact .refl
  | throw error world => exact .refl
  | diverge world => exact .refl
  | call answered _ ih => exact .head (.call answered) ih

end Prog

namespace Valid

variable {S : Setting sig W} {S' : Setting sig' W'} {post : α → W → Prop} {fails : ε → W → Prop}

/-- Verification carries over to an implementation of the operations. The
implementation of an operation may take many calls, but it must have the effect
of the operation at one moment before it answers. -/
theorem interpret {implement : (op : sig.Op) → Prog sig' ε (sig.Res op)} (view : W' → W)
    {allowed : sig.Op → Prop}
    (himplement : ∀ op, allowed op → ∀ world, Valid S'
      (fun response after => ∃ before, S.rely (view world) before ∧ S.inv before ∧
        S.sem op before response (view after)) (fun _ _ => False) (implement op) world)
    {prog : Prog sig ε α} {world : W'} (hcalls : prog.Calls allowed)
    (hvalid : Valid S post fails prog (view world)) :
    Valid S' (fun value after => post value (view after))
      (fun error after => fails error (view after)) (prog.interpret implement) world := by
  induction prog generalizing world with
  | pure value => exact hvalid
  | throw error => exact hvalid
  | diverge => exact hvalid
  | call op rest ih =>
      apply Valid.bind
      refine Valid.mono ?_ (fun _ _ hfalse => hfalse.elim) (himplement op hcalls.1 world)
      rintro response after ⟨before, hbefore, hinv, hsem⟩
      obtain ⟨-, -, hrest⟩ := hvalid before hbefore hinv response (view after) hsem
      exact ih response (hcalls.2 response) hrest

/-- Verification carries over to a world that holds the program's own, with more
parties and a stronger invariant. -/
theorem lift {T : Setting sig W'} (view : W' → W)
    (hrely : ∀ world later, T.rely world later → S.rely (view world) (view later))
    (hinv : ∀ world, T.inv world → S.inv (view world))
    (hsem : ∀ op before response after, T.sem op before response after →
      S.sem op (view before) response (view after))
    (hkeep : ∀ op before response after, T.sem op before response after → T.inv before →
      S.inv (view after) → S.guar (view before) (view after) → T.inv after ∧ T.guar before after)
    {prog : Prog sig ε α} {world : W'} (hvalid : Valid S post fails prog (view world)) :
    Valid T (fun value after => post value (view after))
      (fun error after => fails error (view after))
      prog world := by
  induction prog generalizing world with
  | pure value => exact hvalid
  | throw error => exact hvalid
  | diverge => exact hvalid
  | call op rest ih =>
      intro before hbefore hbeforeInv response after hstep
      obtain ⟨hafter, hguar, hrest⟩ := hvalid (view before) (hrely world before hbefore)
        (hinv before hbeforeInv) response (view after) (hsem op before response after hstep)
      obtain ⟨hafterInv, hpromise⟩ := hkeep op before response after hstep hbeforeInv hafter hguar
      exact ⟨hafterInv, hpromise, ih response hrest⟩

/-- As `lift`, for a program that is run inside another signature. The frame is what
the program's calls and the other parties leave alone. -/
theorem embedLift {T : Setting sig' W'} {ε' : Type} {inject : sig.Op → sig'.Op}
    {answer : ∀ op, sig'.Res (inject op) → sig.Res op} {onError : ε → ε'} (view : W' → W)
    (frame : W' → Prop)
    (hrely : ∀ world later, T.rely world later → S.rely (view world) (view later))
    (hinv : ∀ world, T.inv world → S.inv (view world))
    (hframe : ∀ world later, T.rely world later → frame world → frame later)
    (hsem : ∀ op before response after, T.sem (inject op) before response after →
      S.sem op (view before) (answer op response) (view after))
    (hkeep : ∀ op before response after, T.sem (inject op) before response after →
      T.inv before → frame before → S.inv (view after) → S.guar (view before) (view after) →
        T.inv after ∧ T.guar before after ∧ frame after)
    {prog : Prog sig ε α} {world : W'} (hworld : frame world)
    (hvalid : Valid S post fails prog (view world)) :
    Valid T (fun value after => post value (view after) ∧ frame after)
      (fun error' after => frame after ∧
        ∃ error, onError error = error' ∧ fails error (view after))
      (prog.embed inject answer onError) world := by
  induction prog generalizing world with
  | pure value => exact ⟨hvalid, hworld⟩
  | throw error => exact ⟨hworld, error, rfl, hvalid⟩
  | diverge => exact hvalid
  | call op rest ih =>
      intro before hbefore hbeforeInv response after hstep
      obtain ⟨hafter, hguar, hrest⟩ := hvalid (view before) (hrely world before hbefore)
        (hinv before hbeforeInv) (answer op response) (view after)
        (hsem op before response after hstep)
      obtain ⟨hafterInv, hpromise, hframed⟩ := hkeep op before response after hstep hbeforeInv
        (hframe world before hbefore hworld) hafter hguar
      exact ⟨hafterInv, hpromise, ih (answer op response) hframed hrest⟩

/-- The calls that a program makes may do less than was promised of them. -/
theorem promise {T : Setting sig W} {allowed : sig.Op → Prop}
    (hrely : ∀ world later, T.rely world later → S.rely world later)
    (hinv : ∀ world, T.inv world ↔ S.inv world)
    (hsem : ∀ op before response after, T.sem op before response after →
      S.sem op before response after)
    (hguar : ∀ op before response after, allowed op → T.inv before →
      T.sem op before response after → S.guar before after → T.guar before after)
    {prog : Prog sig ε α} {world : W} (huses : prog.Uses allowed)
    (hvalid : Valid S post fails prog world) : Valid T post fails prog world := by
  induction prog generalizing world with
  | pure value => exact hvalid
  | throw error => exact hvalid
  | diverge => exact hvalid
  | call op rest ih =>
      intro before hbefore hbeforeInv response after hstep
      obtain ⟨hafter, hpromise, hrest⟩ := hvalid before (hrely world before hbefore)
        ((hinv before).mp hbeforeInv) response after (hsem op before response after hstep)
      exact ⟨(hinv after).mpr hafter,
        hguar op before response after huses.1 hbeforeInv hstep hpromise,
        ih response (huses.2 response) hrest⟩

/-- A verified program stays verified through every turn, its own and those of
the other parties. Turns need only be specified while the world stays `good`, a
property that they reflect backwards. -/
theorem turns {sem : (op : sig.Op) → W → sig.Res op → W → Prop} {others : W → W → Prop}
    (good : W → Prop)
    (hreflect : ∀ op world response after, sem op world response after → good after → good world)
    (hothersReflect : ∀ world later, others world later → good later → good world)
    (hsem : ∀ op world response after, sem op world response after → good after →
      S.sem op world response after)
    (hothers : ∀ world later, others world later → good later → S.inv world →
      S.inv later ∧ S.rely world later)
    (hpost : ∀ value world later, S.rely world later → post value world → post value later)
    (hfails : ∀ error world later, S.rely world later → fails error world → fails error later)
    {prog later : Prog sig ε α} {world final : W}
    (hturns : Prog.Turns sem others (prog, world) (later, final)) (hgood : good final)
    (hinv : S.inv world) (hvalid : Valid S post fails prog world) :
    S.inv final ∧ Valid S post fails later final := by
  generalize hstart : (prog, world) = start at hturns
  generalize hend : (later, final) = ending at hturns
  induction hturns generalizing later final with
  | refl =>
      cases hstart
      cases hend
      exact ⟨hinv, hvalid⟩
  | tail _ hturn ih =>
      cases hturn with
      | call answered =>
          cases hend
          obtain ⟨hmiddle, hrest⟩ := ih (hreflect _ _ _ _ answered hgood) rfl
          obtain ⟨hafter, -, hnext⟩ := hrest _ (S.rely_refl _) hmiddle _ _
            (hsem _ _ _ _ answered hgood)
          exact ⟨hafter, hnext⟩
      | other prog moved =>
          cases hend
          obtain ⟨hmiddle, hrest⟩ := ih (hothersReflect _ _ moved hgood) rfl
          obtain ⟨hafter, hrely⟩ := hothers _ _ moved hgood hmiddle
          exact ⟨hafter, interfere hpost hfails hrely hrest⟩

end Valid

end Effect

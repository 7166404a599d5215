import Mathlib.Logic.Relation
import Mathlib.Data.List.Basic

/-! # Effectful programs as trees of operations

A program is a tree of calls to the operations of a signature. It can be run by
a deterministic handler, or one call at a time by a relation that also admits
faults. Because the calls are explicit, a crash is a program abandoned at one
of its calls, and concurrency is the interleaving of the calls of several
programs.
-/

namespace Effect

/-- Operations together with the type of the answer to each of them. -/
structure Signature where
  Op : Type
  Res : Op → Type

/-- A program that answers, throws, gives up for lack of fuel, or calls an
operation and continues with its response. -/
inductive Prog (sig : Signature) (ε α : Type) : Type
  | pure (value : α)
  | throw (error : ε)
  | diverge
  | call (op : sig.Op) (next : sig.Res op → Prog sig ε α)

namespace Prog

variable {sig : Signature} {ε ε' α β γ W : Type}

def bind : Prog sig ε α → (α → Prog sig ε β) → Prog sig ε β
  | .pure value, next => next value
  | .throw error, _ => .throw error
  | .diverge, _ => .diverge
  | .call op rest, next => .call op fun response => (rest response).bind next

instance : Monad (Prog sig ε) where
  pure := .pure
  bind := bind

@[simp] theorem pure_eq (value : α) : (Pure.pure value : Prog sig ε α) = .pure value := rfl

@[simp] theorem pure_bind (value : α) (next : α → Prog sig ε β) :
    (Prog.pure value : Prog sig ε α) >>= next = next value := rfl

@[simp] theorem throw_bind (error : ε) (next : α → Prog sig ε β) :
    (Prog.throw error : Prog sig ε α) >>= next = .throw error := rfl

@[simp] theorem diverge_bind (next : α → Prog sig ε β) :
    (Prog.diverge : Prog sig ε α) >>= next = .diverge := rfl

@[simp] theorem call_bind (op : sig.Op) (rest : sig.Res op → Prog sig ε α)
    (next : α → Prog sig ε β) :
    (Prog.call op rest) >>= next = .call op fun response => rest response >>= next := rfl

/-- Raise the error of a pure computation, or continue with its value. -/
def ofExcept : Except ε α → Prog sig ε α
  | .ok value => .pure value
  | .error error => .throw error

/-- Run a program and hand its error to the caller as a value. Lack of fuel is
not an error of the program and is not caught. -/
def attempt : Prog sig ε α → Prog sig ε' (Except ε α)
  | .pure value => .pure (.ok value)
  | .throw error => .pure (.error error)
  | .diverge => .diverge
  | .call op rest => .call op fun response => (rest response).attempt

/-- Run a program of one signature inside another one that offers the same
operations. -/
def embed {sig' : Signature} (inject : sig.Op → sig'.Op)
    (answer : ∀ op, sig'.Res (inject op) → sig.Res op) (onError : ε → ε') :
    Prog sig ε α → Prog sig' ε' α
  | .pure value => .pure value
  | .throw error => .throw (onError error)
  | .diverge => .diverge
  | .call op rest => .call (inject op) fun response =>
      (rest (answer op response)).embed inject answer onError

/-- Report the errors of a program as errors of another kind. -/
def mapError (onError : ε → ε') : Prog sig ε α → Prog sig ε' α
  | .pure value => .pure value
  | .throw error => .throw (onError error)
  | .diverge => .diverge
  | .call op rest => .call op fun response => (rest response).mapError onError

/-- How a deterministic run ends. -/
inductive Outcome (ε α : Type)
  | ok (value : α)
  | error (error : ε)
  | diverged
  deriving DecidableEq, Repr

/-- An execution ended, in a state its kind of outcome allows. -/
def Outcome.Meets (post : α → W → Prop) (fails : ε → W → Prop) (world : W) :
    Outcome ε α → Prop
  | .ok value => post value world
  | .error raised => fails raised world
  | .diverged => False

/-- How a pure computation ends. -/
def Outcome.ofExcept : Except ε α → Outcome ε α
  | .ok value => .ok value
  | .error raised => .error raised

/-- The program that has already ended this way. -/
def Outcome.prog : Outcome ε α → Prog sig ε α
  | .ok value => .pure value
  | .error raised => .throw raised
  | .diverged => .diverge

/-- A deterministic answer to every operation. -/
abbrev Handler (sig : Signature) (W : Type) := (op : sig.Op) → W → sig.Res op × W

def run (handler : Handler sig W) : Prog sig ε α → W → Outcome ε α × W
  | .pure value, world => (.ok value, world)
  | .throw error, world => (.error error, world)
  | .diverge, world => (.diverged, world)
  | .call op rest, world =>
      let (response, after) := handler op world
      (rest response).run handler after

theorem run_call (handler : Handler sig W) (op : sig.Op)
    (rest : sig.Res op → Prog sig ε α) (world : W) :
    (Prog.call op rest).run handler world =
      (rest (handler op world).1).run handler (handler op world).2 := rfl

theorem run_bind (handler : Handler sig W) (prog : Prog sig ε α)
    (next : α → Prog sig ε β) (world : W) :
    (prog >>= next).run handler world =
      match prog.run handler world with
      | (.ok value, after) => (next value).run handler after
      | (.error error, after) => (.error error, after)
      | (.diverged, after) => (.diverged, after) := by
  induction prog generalizing world with
  | pure value => rfl
  | throw error => rfl
  | diverge => rfl
  | call op rest ih => exact ih _ _

/-- A complete execution in which each call is answered as a relation allows. -/
inductive Runs (sem : (op : sig.Op) → W → sig.Res op → W → Prop) :
    Prog sig ε α → W → Outcome ε α → W → Prop
  | pure (value : α) (world : W) : Runs sem (.pure value) world (.ok value) world
  | throw (error : ε) (world : W) : Runs sem (.throw error) world (.error error) world
  | diverge (world : W) : Runs sem .diverge world .diverged world
  | call {op : sig.Op} {rest : sig.Res op → Prog sig ε α} {world after final : W}
      {response : sig.Res op} {outcome : Outcome ε α}
      (answered : sem op world response after)
      (continued : Runs sem (rest response) after outcome final) :
      Runs sem (.call op rest) world outcome final

theorem run_runs (handler : Handler sig W) (prog : Prog sig ε α) (world : W) :
    Runs (fun op before response after => handler op before = (response, after)) prog world
      (prog.run handler world).1 (prog.run handler world).2 := by
  induction prog generalizing world with
  | pure value => exact .pure value world
  | throw error => exact .throw error world
  | diverge => exact .diverge world
  | call op rest ih => exact .call rfl (ih _ _)

theorem Runs.imp {sem sem' : (op : sig.Op) → W → sig.Res op → W → Prop}
    (himp : ∀ op world response after, sem op world response after →
      sem' op world response after)
    {prog : Prog sig ε α} {world final : W} {outcome : Outcome ε α}
    (hruns : Runs sem prog world outcome final) : Runs sem' prog world outcome final := by
  induction hruns with
  | pure value world => exact .pure value world
  | throw error world => exact .throw error world
  | diverge world => exact .diverge world
  | call answered _ ih => exact .call (himp _ _ _ _ answered) ih

theorem Runs.bind_ok {sem : (op : sig.Op) → W → sig.Res op → W → Prop} {prog : Prog sig ε α}
    {next : α → Prog sig ε β} {world middle final : W} {value : α} {outcome : Outcome ε β}
    (hprog : Runs sem prog world (.ok value) middle)
    (hnext : Runs sem (next value) middle outcome final) :
    Runs sem (prog >>= next) world outcome final := by
  generalize hended : (Outcome.ok value : Outcome ε α) = ended at hprog
  induction hprog with
  | pure other world =>
      cases hended
      exact hnext
  | throw error world => cases hended
  | diverge world => cases hended
  | call answered _ ih => exact .call answered (ih hnext hended)

theorem Runs.bind_error {sem : (op : sig.Op) → W → sig.Res op → W → Prop} {prog : Prog sig ε α}
    {next : α → Prog sig ε β} {world final : W} {error : ε}
    (hprog : Runs sem prog world (.error error) final) :
    Runs sem (prog >>= next) world (.error error) final := by
  generalize hended : (Outcome.error error : Outcome ε α) = ended at hprog
  induction hprog with
  | pure other world => cases hended
  | throw other world =>
      cases hended
      exact .throw error world
  | diverge world => cases hended
  | call answered _ ih => exact .call answered (ih hended)

theorem Runs.attempt {sem : (op : sig.Op) → W → sig.Res op → W → Prop} {prog : Prog sig ε α}
    {world final : W} {result : Except ε α} (hprog : Runs sem prog world (.ofExcept result) final) :
    Runs sem (prog.attempt : Prog sig ε' (Except ε α)) world (.ok result) final := by
  generalize hended : Outcome.ofExcept result = ended at hprog
  induction hprog with
  | pure value world =>
      cases result <;> cases hended
      exact .pure _ world
  | throw error world =>
      cases result <;> cases hended
      exact .pure _ world
  | diverge world => cases result <;> cases hended
  | call answered _ ih => exact .call answered (ih hended)

theorem Runs.ofExcept {sem : (op : sig.Op) → W → sig.Res op → W → Prop} (result : Except ε α)
    (world : W) : Runs sem (.ofExcept result) world (.ofExcept result) world := by
  cases result with
  | ok value => exact .pure value world
  | error error => exact .throw error world

/-- An execution of two programs in sequence that answers is one of each. -/
theorem Runs.of_bind {sem : (op : sig.Op) → W → sig.Res op → W → Prop} {prog : Prog sig ε α}
    {next : α → Prog sig ε β} {world final : W} {value : β}
    (hruns : Runs sem (prog >>= next) world (.ok value) final) :
    ∃ first middle, Runs sem prog world (.ok first) middle ∧
      Runs sem (next first) middle (.ok value) final := by
  induction prog generalizing world with
  | pure first => exact ⟨first, world, .pure first world, hruns⟩
  | throw error => cases hruns
  | diverge => cases hruns
  | call op rest ih =>
      cases hruns with
      | call answered continued =>
          obtain ⟨first, middle, hfirst, hnext⟩ := ih _ continued
          exact ⟨first, middle, .call answered hfirst, hnext⟩

/-- An execution inside another signature is one of the program itself. -/
theorem Runs.of_embed {sig' : Signature} {inject : sig.Op → sig'.Op}
    {answer : ∀ op, sig'.Res (inject op) → sig.Res op} {onError : ε → ε'}
    {sem : (op : sig.Op) → W → sig.Res op → W → Prop}
    {sem' : (op : sig'.Op) → W → sig'.Res op → W → Prop}
    (hsem : ∀ op before response after, sem' (inject op) before response after →
      sem op before (answer op response) after)
    {prog : Prog sig ε α} {world final : W} {value : α}
    (hruns : Runs sem' (prog.embed inject answer onError) world (.ok value) final) :
    Runs sem prog world (.ok value) final := by
  induction prog generalizing world with
  | pure value =>
      cases hruns
      exact .pure value final
  | throw error => cases hruns
  | diverge => cases hruns
  | call op rest ih =>
      cases hruns with
      | call answered continued => exact .call (hsem op _ _ _ answered) (ih _ continued)

/-- A loop that answers keeps an invariant indexed by the part still to do. -/
theorem Runs.foldlM {δ : Type} {sem : (op : sig.Op) → W → sig.Res op → W → Prop}
    {step : β → δ → Prog sig ε β} (I : List δ → β → W → Prop)
    (hstep : ∀ item rest state world next after, I (item :: rest) state world →
      Runs sem (step state item) world (.ok next) after → I rest next after)
    {items : List δ} {state value : β} {world final : W}
    (hruns : Runs sem (items.foldlM step state) world (.ok value) final)
    (hinit : I items state world) : I [] value final := by
  induction items generalizing state world with
  | nil =>
      cases hruns
      exact hinit
  | cons item rest ih =>
      rw [List.foldlM_cons] at hruns
      obtain ⟨next, middle, hfirst, hrest⟩ := hruns.of_bind
      exact ih hrest (hstep item rest state world next middle hinit hfirst)

/-- A property of the world that every operation reflects backwards is reflected
by a whole execution: if it holds at the end, it held at the start. -/
theorem Runs.reflects {sem : (op : sig.Op) → W → sig.Res op → W → Prop} (good : W → Prop)
    (hstep : ∀ op world response after, sem op world response after → good after → good world)
    {prog : Prog sig ε α} {world final : W} {outcome : Outcome ε α}
    (hruns : Runs sem prog world outcome final) (hgood : good final) : good world := by
  induction hruns with
  | pure value world => exact hgood
  | throw error world => exact hgood
  | diverge world => exact hgood
  | call answered _ ih => exact hstep _ _ _ _ answered (ih hgood)

/-- An execution up to one of its calls, or to its end. -/
inductive Visits (sem : (op : sig.Op) → W → sig.Res op → W → Prop) :
    Prog sig ε α → W → W → Prop
  | here (prog : Prog sig ε α) (world : W) : Visits sem prog world world
  | call {op : sig.Op} {rest : sig.Res op → Prog sig ε α} {world after later : W}
      {response : sig.Res op} (answered : sem op world response after)
      (continued : Visits sem (rest response) after later) : Visits sem (.call op rest) world later

theorem Runs.visits {sem : (op : sig.Op) → W → sig.Res op → W → Prop} {prog : Prog sig ε α}
    {world final : W} {outcome : Outcome ε α} (hruns : Runs sem prog world outcome final) :
    Visits sem prog world final := by
  induction hruns with
  | pure value world => exact .here _ world
  | throw error world => exact .here _ world
  | diverge world => exact .here _ world
  | call answered _ ih => exact .call answered ih

/-- The state after at most so many calls. -/
def stop (handler : Handler sig W) : Nat → Prog sig ε α → W → W
  | calls + 1, .call op rest, world =>
      stop handler calls (rest (handler op world).1) (handler op world).2
  | _, _, world => world

theorem stop_visits {sem : (op : sig.Op) → W → sig.Res op → W → Prop} {handler : Handler sig W}
    (hhandler : ∀ op world, sem op world (handler op world).1 (handler op world).2) (calls : Nat)
    (prog : Prog sig ε α) (world : W) : Visits sem prog world (stop handler calls prog world) := by
  induction calls generalizing prog world with
  | zero => cases prog <;> exact .here _ world
  | succ calls ih =>
      cases prog with
      | pure value => exact .here _ world
      | throw error => exact .here _ world
      | diverge => exact .here _ world
      | call op rest => exact .call (hhandler op world) (ih _ _)

theorem Visits.reflects {sem : (op : sig.Op) → W → sig.Res op → W → Prop} (good : W → Prop)
    (hstep : ∀ op world response after, sem op world response after → good after → good world)
    {prog : Prog sig ε α} {world later : W} (hvisits : Visits sem prog world later)
    (hgood : good later) : good world := by
  induction hvisits with
  | here prog world => exact hgood
  | call answered _ ih => exact hstep _ _ _ _ answered (ih hgood)

/-- However its calls are answered, the program never runs out of fuel and only
calls these operations. -/
def Uses (allowed : sig.Op → Prop) : Prog sig ε α → Prop
  | .pure _ => True
  | .throw _ => True
  | .diverge => False
  | .call op rest => allowed op ∧ ∀ response, (rest response).Uses allowed

theorem Uses.mono {small large : sig.Op → Prop} (hsubset : ∀ op, small op → large op)
    {prog : Prog sig ε α} (hprog : prog.Uses small) : prog.Uses large := by
  induction prog with
  | pure value => trivial
  | throw error => trivial
  | diverge => exact hprog
  | call op rest ih =>
      exact ⟨hsubset op hprog.1, fun response => ih response (hprog.2 response)⟩

theorem Uses.bind {allowed : sig.Op → Prop} {prog : Prog sig ε α} {next : α → Prog sig ε β}
    (hprog : prog.Uses allowed) (hnext : ∀ value, (next value).Uses allowed) :
    (prog >>= next).Uses allowed := by
  induction prog with
  | pure value => exact hnext value
  | throw error => trivial
  | diverge => exact hprog.elim
  | call op rest ih => exact ⟨hprog.1, fun response => ih response (hprog.2 response)⟩

theorem Uses.foldlM {δ : Type} {allowed : sig.Op → Prop} {step : β → δ → Prog sig ε β}
    (hstep : ∀ state item, (step state item).Uses allowed) (items : List δ) (state : β) :
    (items.foldlM step state).Uses allowed := by
  induction items generalizing state with
  | nil => trivial
  | cons item rest ih =>
      rw [List.foldlM_cons]
      exact (hstep state item).bind fun next => ih next

theorem Uses.attempt {allowed : sig.Op → Prop} {prog : Prog sig ε α}
    (hprog : prog.Uses allowed) : (prog.attempt : Prog sig ε' (Except ε α)).Uses allowed := by
  induction prog with
  | pure value => trivial
  | throw error => trivial
  | diverge => exact hprog
  | call op rest ih => exact ⟨hprog.1, fun response => ih response (hprog.2 response)⟩

theorem Uses.embed {sig' : Signature} {allowed : sig.Op → Prop} {allowed' : sig'.Op → Prop}
    {inject : sig.Op → sig'.Op} {answer : ∀ op, sig'.Res (inject op) → sig.Res op}
    {onError : ε → ε'} (hinject : ∀ op, allowed op → allowed' (inject op))
    {prog : Prog sig ε α} (hprog : prog.Uses allowed) :
    (prog.embed inject answer onError).Uses allowed' := by
  induction prog with
  | pure value => trivial
  | throw error => trivial
  | diverge => exact hprog
  | call op rest ih =>
      exact ⟨hinject op hprog.1, fun response => ih _ (hprog.2 _)⟩

theorem Uses.ofExcept {allowed : sig.Op → Prop} (result : Except ε α) :
    (ofExcept result : Prog sig ε α).Uses allowed := by
  cases result <;> trivial

/-- However its calls are answered, the program only calls these operations. -/
def Calls (allowed : sig.Op → Prop) : Prog sig ε α → Prop
  | .call op rest => allowed op ∧ ∀ response, (rest response).Calls allowed
  | _ => True

theorem Calls.bind {allowed : sig.Op → Prop} {prog : Prog sig ε α} {next : α → Prog sig ε β}
    (hprog : prog.Calls allowed) (hnext : ∀ value, (next value).Calls allowed) :
    (prog >>= next).Calls allowed := by
  induction prog with
  | pure value => exact hnext value
  | throw error => trivial
  | diverge => trivial
  | call op rest ih => exact ⟨hprog.1, fun response => ih response (hprog.2 response)⟩

theorem Calls.foldlM {δ : Type} {allowed : sig.Op → Prop} {step : β → δ → Prog sig ε β}
    (hstep : ∀ state item, (step state item).Calls allowed) (items : List δ) (state : β) :
    (items.foldlM step state).Calls allowed := by
  induction items generalizing state with
  | nil => trivial
  | cons item rest ih =>
      rw [List.foldlM_cons]
      exact (hstep state item).bind fun next => ih next

theorem Calls.attempt {allowed : sig.Op → Prop} {prog : Prog sig ε α}
    (hprog : prog.Calls allowed) : (prog.attempt : Prog sig ε' (Except ε α)).Calls allowed := by
  induction prog with
  | pure value => trivial
  | throw error => trivial
  | diverge => trivial
  | call op rest ih => exact ⟨hprog.1, fun response => ih response (hprog.2 response)⟩

theorem Calls.embed {sig' : Signature} {allowed : sig.Op → Prop} {allowed' : sig'.Op → Prop}
    {inject : sig.Op → sig'.Op} {answer : ∀ op, sig'.Res (inject op) → sig.Res op}
    {onError : ε → ε'} (hinject : ∀ op, allowed op → allowed' (inject op))
    {prog : Prog sig ε α} (hprog : prog.Calls allowed) :
    (prog.embed inject answer onError).Calls allowed' := by
  induction prog with
  | pure value => trivial
  | throw error => trivial
  | diverge => trivial
  | call op rest ih => exact ⟨hinject op hprog.1, fun response => ih _ (hprog.2 _)⟩

theorem Uses.calls {allowed : sig.Op → Prop} {prog : Prog sig ε α} (hprog : prog.Uses allowed) :
    prog.Calls allowed := by
  induction prog with
  | pure value => trivial
  | throw error => trivial
  | diverge => trivial
  | call op rest ih => exact ⟨hprog.1, fun response => ih response (hprog.2 response)⟩

/-- A program that only calls operations which leave the world alone leaves the
world alone. -/
theorem Runs.world_eq {sem : (op : sig.Op) → W → sig.Res op → W → Prop}
    {allowed : sig.Op → Prop}
    (hkeep : ∀ op world response after, allowed op → sem op world response after → after = world)
    {prog : Prog sig ε α} {world final : W} {outcome : Outcome ε α}
    (hruns : Runs sem prog world outcome final) (huses : prog.Uses allowed) :
    final = world := by
  induction hruns with
  | pure value world => rfl
  | throw error world => rfl
  | diverge world => rfl
  | call answered _ ih => rw [ih (huses.2 _), hkeep _ _ _ _ huses.1 answered]

end Prog

/-- Where a program runs: the answers its operations may get, what the other
parties may do between two of its calls, the invariant all parties keep, and
what the program promises the others about each of its calls. -/
structure Setting (sig : Signature) (W : Type) where
  sem : (op : sig.Op) → W → sig.Res op → W → Prop
  rely : W → W → Prop
  inv : W → Prop
  guar : W → W → Prop
  rely_refl : ∀ world, rely world world
  rely_trans : ∀ {first second third}, rely first second → rely second third →
    rely first third

variable {sig : Signature} {ε ε' α β W : Type}

/-- Total correctness under interference: whatever the other parties do between
the calls and however each call is answered, every call keeps the invariant and
the promise, and the program ends in `post` or throws in `fails`. -/
def Valid (S : Setting sig W) (post : α → W → Prop) (fails : ε → W → Prop) :
    Prog sig ε α → W → Prop
  | .pure value, world => post value world
  | .throw error, world => fails error world
  | .diverge, _ => False
  | .call op rest, world => ∀ before, S.rely world before → S.inv before →
      ∀ response after, S.sem op before response after →
        S.inv after ∧ S.guar before after ∧ Valid S post fails (rest response) after

/-- An assertion that the other parties and these calls all keep, next to the
invariant and the promise. -/
structure Kept (S : Setting sig W) (allowed : sig.Op → Prop) (assertion : W → Prop) : Prop where
  rely : ∀ world later, S.rely world later → assertion world → assertion later
  call : ∀ op before response after, allowed op → S.inv before → assertion before →
    S.sem op before response after → S.inv after ∧ S.guar before after ∧ assertion after

theorem Kept.mono {S : Setting sig W} {small large : sig.Op → Prop} {assertion : W → Prop}
    (hsubset : ∀ op, small op → large op) (hlarge : Kept S large assertion) :
    Kept S small assertion where
  rely := hlarge.rely
  call op before response after hop := hlarge.call op before response after (hsubset op hop)

/-- What does not depend on the world is kept by all calls that keep the rules. -/
theorem Kept.const {S : Setting sig W} {allowed : sig.Op → Prop}
    (hkept : Kept S allowed fun _ => True) (fact : Prop) : Kept S allowed fun _ => fact where
  rely _ _ _ hfact := hfact
  call op before response after hop hinv hfact hsem := by
    obtain ⟨hafter, hguar, -⟩ := hkept.call op before response after hop hinv trivial hsem
    exact ⟨hafter, hguar, hfact⟩

namespace Valid

variable {S : Setting sig W} {post post' : α → W → Prop} {fails fails' : ε → W → Prop}

theorem mono {prog : Prog sig ε α} {world : W}
    (hpost : ∀ value world, post value world → post' value world)
    (hfails : ∀ error world, fails error world → fails' error world)
    (hvalid : Valid S post fails prog world) : Valid S post' fails' prog world := by
  induction prog generalizing world with
  | pure value => exact hpost value world hvalid
  | throw error => exact hfails error world hvalid
  | diverge => exact hvalid
  | call op rest ih =>
      intro before hrely hinv response after hsem
      obtain ⟨hafter, hguar, hrest⟩ := hvalid before hrely hinv response after hsem
      exact ⟨hafter, hguar, ih response hrest⟩

/-- Sequencing: the continuation is verified from whatever state the first
program leaves. -/
theorem bind {prog : Prog sig ε α} {next : α → Prog sig ε β} {world : W}
    {post : β → W → Prop}
    (hvalid : Valid S (fun value after => Valid S post fails (next value) after) fails
      prog world) :
    Valid S post fails (prog >>= next) world := by
  induction prog generalizing world with
  | pure value => exact hvalid
  | throw error => exact hvalid
  | diverge => exact hvalid
  | call op rest ih =>
      intro before hrely hinv response after hsem
      obtain ⟨hafter, hguar, hrest⟩ := hvalid before hrely hinv response after hsem
      exact ⟨hafter, hguar, ih response hrest⟩

theorem attempt {prog : Prog sig ε α} {world : W} {post : Except ε α → W → Prop}
    {fails : ε' → W → Prop}
    (hvalid : Valid S (fun value after => post (.ok value) after)
      (fun error after => post (.error error) after) prog world) :
    Valid S post fails (prog.attempt : Prog sig ε' (Except ε α)) world := by
  induction prog generalizing world with
  | pure value => exact hvalid
  | throw error => exact hvalid
  | diverge => exact hvalid
  | call op rest ih =>
      intro before hrely hinv response after hsem
      obtain ⟨hafter, hguar, hrest⟩ := hvalid before hrely hinv response after hsem
      exact ⟨hafter, hguar, ih response hrest⟩

theorem mapError {onError : ε → ε'} {prog : Prog sig ε α} {world : W} {fails : ε' → W → Prop}
    (hvalid : Valid S post (fun error after => fails (onError error) after) prog world) :
    Valid S post fails (prog.mapError onError) world := by
  induction prog generalizing world with
  | pure value => exact hvalid
  | throw error => exact hvalid
  | diverge => exact hvalid
  | call op rest ih =>
      intro before hrely hinv response after hsem
      obtain ⟨hafter, hguar, hrest⟩ := hvalid before hrely hinv response after hsem
      exact ⟨hafter, hguar, ih response hrest⟩

theorem ofExcept {result : Except ε α} {world : W}
    (hok : ∀ value, result = .ok value → post value world)
    (herror : ∀ error, result = .error error → fails error world) :
    Valid S post fails (Prog.ofExcept result) world := by
  cases result with
  | ok value => exact hok value rfl
  | error error => exact herror error rfl

/-- Interference before the first call is absorbed, for stable conclusions. -/
theorem interfere {prog : Prog sig ε α} {world later : W}
    (hpost : ∀ value world later, S.rely world later → post value world → post value later)
    (hfails : ∀ error world later, S.rely world later → fails error world →
      fails error later)
    (hlater : S.rely world later) (hvalid : Valid S post fails prog world) :
    Valid S post fails prog later := by
  cases prog with
  | pure value => exact hpost value world later hlater hvalid
  | throw error => exact hfails error world later hlater hvalid
  | diverge => exact hvalid
  | call op rest =>
      intro before hrely
      exact hvalid before (S.rely_trans hlater hrely)

/-- A program that starts with a call may assume the invariant at its start. -/
theorem of_inv {prog : Prog sig ε α} {world : W} (hcall : ∃ op rest, prog = .call op rest)
    (hvalid : ∀ before, S.rely world before → S.inv before → Valid S post fails prog before) :
    Valid S post fails prog world := by
  obtain ⟨op, rest, rfl⟩ := hcall
  exact fun before hrely hinv => hvalid before hrely hinv before (S.rely_refl before) hinv

/-- A loop over a list keeps an invariant indexed by the part still to do. -/
theorem foldlM {δ : Type} {step : β → δ → Prog sig ε β}
    (I : List δ → β → W → Prop)
    (hstep : ∀ item rest state world, I (item :: rest) state world →
      Valid S (fun next after => I rest next after) fails (step state item) world)
    {items : List δ} {state : β} {world : W} (hinit : I items state world) :
    Valid S (fun final after => I [] final after) fails (items.foldlM step state) world := by
  induction items generalizing state world with
  | nil => exact hinit
  | cons item rest ih =>
      rw [List.foldlM_cons]
      apply bind
      exact mono (fun _ _ h => ih h) (fun _ _ h => h) (hstep item rest state world hinit)

/-- A program that only makes calls which keep an assertion keeps it throughout. -/
theorem of_uses {allowed : sig.Op → Prop} {assertion : W → Prop}
    (hkept : Kept S allowed assertion) {prog : Prog sig ε α} {world : W}
    (huses : prog.Uses allowed) (hworld : assertion world) :
    Valid S (fun _ after => assertion after) (fun _ after => assertion after) prog world := by
  induction prog generalizing world with
  | pure value => exact hworld
  | throw error => exact hworld
  | diverge => exact huses
  | call op rest ih =>
      intro before hbefore hinv response after hsem
      obtain ⟨hafter, hguar, hlater⟩ := hkept.call op before response after huses.1 hinv
        (hkept.rely world before hbefore hworld) hsem
      exact ⟨hafter, hguar, ih response (huses.2 response) hlater⟩

/-- Calls that a program never makes need not be specified. -/
theorem of_calls {S' : Setting sig W} {allowed : sig.Op → Prop}
    (hrely : ∀ world later, S'.rely world later → S.rely world later)
    (hinv : ∀ world, S'.inv world ↔ S.inv world)
    (hguar : ∀ before after, S.guar before after → S'.guar before after)
    (hsem : ∀ op before response after, allowed op → S'.sem op before response after →
      S.sem op before response after)
    {prog : Prog sig ε α} {world : W} (hcalls : prog.Calls allowed)
    (hvalid : Valid S post fails prog world) : Valid S' post fails prog world := by
  induction prog generalizing world with
  | pure value => exact hvalid
  | throw error => exact hvalid
  | diverge => exact hvalid
  | call op rest ih =>
      intro before hbefore hinvBefore response after hstep
      obtain ⟨hafter, hpromise, hrest⟩ := hvalid before (hrely world before hbefore)
        ((hinv before).mp hinvBefore) response after (hsem op before response after hcalls.1 hstep)
      exact ⟨(hinv after).mpr hafter, hguar before after hpromise,
        ih response (hcalls.2 response) hrest⟩

/-- Verification carries over to a larger signature and a larger world. The
frame is whatever the embedded calls and the interference leave alone. -/
theorem embed {sig' : Signature} {W' : Type} {S' : Setting sig' W'}
    {inject : sig.Op → sig'.Op} {answer : ∀ op, sig'.Res (inject op) → sig.Res op}
    {onError : ε → ε'} (view : W' → W) (frame : W' → Prop)
    (hrely : ∀ world later, S'.rely world later → S.rely (view world) (view later))
    (hinv : ∀ world, S'.inv world → S.inv (view world))
    (hframe : ∀ world later, S'.rely world later → frame world → frame later)
    (hsem : ∀ op world response later, S'.inv world → frame world →
      S'.sem (inject op) world response later →
      S.sem op (view world) (answer op response) (view later) ∧
        S'.inv later ∧ S'.guar world later ∧ frame later)
    {prog : Prog sig ε α} {world : W'} (hworld : frame world)
    (hvalid : Valid S post fails prog (view world)) :
    Valid S' (fun value after => post value (view after) ∧ frame after)
      (fun error' after => frame after ∧
        ∃ error, onError error = error' ∧ fails error (view after))
      (prog.embed inject answer onError) world := by
  induction prog generalizing world with
  | pure value => exact ⟨hvalid, hworld⟩
  | throw error => exact ⟨hworld, error, rfl, hvalid⟩
  | diverge => exact hvalid
  | call op rest ih =>
      intro before hbefore hinvariant response after hcall
      have hkept := hframe world before hbefore hworld
      obtain ⟨hinner, hafter, hguar, hframed⟩ :=
        hsem op before response after hinvariant hkept hcall
      obtain ⟨-, -, hrest⟩ := hvalid (view before) (hrely world before hbefore)
        (hinv before hinvariant) (answer op response) (view after) hinner
      exact ⟨hafter, hguar, ih (answer op response) hframed hrest⟩

/-- A verified program that runs alone ends as specified. Calls need only be
specified while the world stays `good`, a property that they reflect backwards. -/
theorem runs_outcome {sem : (op : sig.Op) → W → sig.Res op → W → Prop} (good : W → Prop)
    (hreflect : ∀ op world response after, sem op world response after → good after → good world)
    (hsem : ∀ op world response after, sem op world response after → good after →
      S.sem op world response after)
    {prog : Prog sig ε α} {world final : W} {outcome : Prog.Outcome ε α}
    (hruns : Prog.Runs sem prog world outcome final) (hinv : S.inv world)
    (hvalid : Valid S post fails prog world) (hgood : good final) :
    outcome.Meets post fails final := by
  induction hruns with
  | pure value world => exact hvalid
  | throw error world => exact hvalid
  | diverge world => exact hvalid
  | @call op rest world after final response outcome answered continued ih =>
      have hafter : good after := continued.reflects good hreflect hgood
      obtain ⟨hkept, -, hrest⟩ := hvalid world (S.rely_refl world) hinv response after
        (hsem op world response after answered hafter)
      exact ih hkept hrest hgood

/-- A verified program keeps the invariant at every point where it may be abandoned. -/
theorem visits_inv {sem : (op : sig.Op) → W → sig.Res op → W → Prop} (good : W → Prop)
    (hreflect : ∀ op world response after, sem op world response after → good after → good world)
    (hsem : ∀ op world response after, sem op world response after → good after →
      S.sem op world response after)
    {prog : Prog sig ε α} {world later : W} (hvisits : Prog.Visits sem prog world later)
    (hinv : S.inv world) (hvalid : Valid S post fails prog world) (hgood : good later) :
    S.inv later := by
  induction hvisits with
  | here prog world => exact hinv
  | @call op rest world after later response answered continued ih =>
      have hafter : good after := continued.reflects good hreflect hgood
      obtain ⟨hkept, -, hrest⟩ := hvalid world (S.rely_refl world) hinv response after
        (hsem op world response after answered hafter)
      exact ih hkept hrest hgood

end Valid

end Effect

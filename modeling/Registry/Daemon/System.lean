import Registry.Core.Tabulated
import Registry.Daemon.Api

/-! # The running daemon

Any number of write requests and at most one publisher task take turns, one
operation at a time. A request may be abandoned, and the transaction it was waiting
for goes on. A detached task may still store a blob, the whole process may crash, and
an operator may re-queue a key.
-/

namespace Registry

open Effect

/-- What the publisher loop runs. -/
inductive PublisherTask
  | cycle (denylist : Finset String)
  | heal
  | seed

/-- The daemon between two operations. A finished request stays as its answer. The
detached transactions are those of abandoned requests. -/
structure DaemonState where
  world : World
  publisher : Option (DaemonProg Nat)
  requests : List (ApiProg Response)
  detached : List IndexOp := []

/-- The daemon on an empty data directory. -/
def DaemonState.initial : DaemonState where
  world := .empty
  publisher := none
  requests := []

/-- The transaction that an abandoned request was waiting for. -/
def pendingTransaction : Option (ApiProg Response) → List IndexOp
  | some (.call (.index op) _) => [op]
  | _ => []

theorem exists_of_mem_pendingTransaction {requests : List (ApiProg Response)} {number : Nat}
    {op : IndexOp} (hop : op ∈ pendingTransaction requests[number]?) :
    ∃ rest, .call (.index op) rest ∈ requests := by
  cases hprog : requests[number]? with
  | none => simp [pendingTransaction, hprog] at hop
  | some prog =>
      rw [hprog] at hop
      match prog with
      | .call (.index waiting) rest =>
          obtain rfl : op = waiting := List.mem_singleton.mp hop
          exact ⟨rest, List.mem_of_getElem? hprog⟩
      | .call (.store called) rest => exact absurd hop List.not_mem_nil
      | .call (.doc called) rest => exact absurd hop List.not_mem_nil
      | .call .now rest => exact absurd hop List.not_mem_nil
      | .call .beginWrite rest => exact absurd hop List.not_mem_nil
      | .call .endWrite rest => exact absurd hop List.not_mem_nil
      | .call (.pick others) rest => exact absurd hop List.not_mem_nil
      | .pure value => exact absurd hop List.not_mem_nil
      | .throw error => exact absurd hop List.not_mem_nil
      | .diverge => exact absurd hop List.not_mem_nil

section Steps

variable (prim : Primitives) (lib : Libraries) (config : Config) (faults : Faults)

def PublisherTask.prog : PublisherTask → DaemonProg Nat
  | .cycle denylist => prim.publishCycle config denylist
  | .heal => healPointerDoc
  | .seed => seedLocalRoots config

inductive SystemStep : DaemonState → DaemonState → Prop
  | receive (state : DaemonState) (request : Request) :
      SystemStep state
        { state with requests := state.requests ++ [handle prim lib config request] }
  | request {state : DaemonState} {number : Nat} {op : DaemonOp}
      {rest : daemonSig.Res op → ApiProg Response} {response : daemonSig.Res op} {after : World}
      (running : state.requests[number]? = some (.call op rest))
      (answered : prim.DaemonStep faults op state.world response after) :
      SystemStep state
        { state with world := after, requests := state.requests.set number (rest response) }
  | start {state : DaemonState} (idle : state.publisher = none) (task : PublisherTask) :
      SystemStep state { state with publisher := some (task.prog prim config) }
  | publish {state : DaemonState} {op : DaemonOp} {rest : daemonSig.Res op → DaemonProg Nat}
      {response : daemonSig.Res op} {after : World}
      (running : state.publisher = some (.call op rest))
      (answered : prim.DaemonStep faults op state.world response after) :
      SystemStep state { state with world := after, publisher := some (rest response) }
  | finish (state : DaemonState) : SystemStep state { state with publisher := none }
  | abandon (state : DaemonState) (number activeWrites : Nat) :
      SystemStep state { state with
        world := { state.world with activeWrites := activeWrites }
        requests := state.requests.eraseIdx number
        detached := state.detached ++ pendingTransaction state.requests[number]? }
  | commit {state : DaemonState} {number : Nat} {op : IndexOp}
      {response : daemonSig.Res (.index op)} {after : World}
      (running : state.detached[number]? = some op)
      (answered : prim.DaemonStep faults (.index op) state.world response after) :
      SystemStep state
        { state with world := after, detached := state.detached.eraseIdx number }
  | discard (state : DaemonState) (number : Nat) :
      SystemStep state { state with detached := state.detached.eraseIdx number }
  | stray (state : DaemonState) (blob : Bytes) :
      SystemStep state { state with
        world := { state.world with blobs := blob :: state.world.blobs } }
  | requeue (state : DaemonState) (key : String) :
      SystemStep state { state with
        world := { state.world with index := (state.world.index.requeue key).2 } }
  | crash (state : DaemonState) :
      SystemStep state
        { world := { state.world with activeWrites := 0 }, publisher := none, requests := [] }

/-- Any number of steps. -/
abbrev SystemSteps : DaemonState → DaemonState → Prop :=
  Relation.ReflTransGen (SystemStep prim lib config faults)

/-- The publisher starts only these tasks. -/
def Starts (allowed : PublisherTask → Prop) (state next : DaemonState) : Prop :=
  state.publisher = none → ∀ prog, next.publisher = some prog →
    ∃ task : PublisherTask, allowed task ∧ prog = task.prog prim config

/-- Any number of steps with only these tasks of the publisher. -/
abbrev GuidedSteps (allowed : PublisherTask → Prop) : DaemonState → DaemonState → Prop :=
  Relation.ReflTransGen fun state next =>
    SystemStep prim lib config faults state next ∧ Starts prim config allowed state next

/-- What can be reached from an empty data directory. -/
def Reachable (state : DaemonState) : Prop :=
  SystemSteps prim lib config faults .initial state

variable {prim lib config faults} {allowed : PublisherTask → Prop}

theorem GuidedSteps.systemSteps {state later : DaemonState}
    (hsteps : GuidedSteps prim lib config faults allowed state later) :
    SystemSteps prim lib config faults state later :=
  Relation.ReflTransGen.mono (fun _ _ hstep => hstep.1) _ _ hsteps

/-- Every step starts some task or none. -/
theorem SystemStep.starts {state next : DaemonState}
    (hstep : SystemStep prim lib config faults state next) :
    Starts prim config (fun _ => True) state next := by
  intro hidle prog hprog
  cases hstep with
  | start idle task => exact ⟨task, trivial, (Option.some.inj hprog).symm⟩
  | publish running answered => rw [hidle] at running; cases running
  | receive request => rw [hidle] at hprog; cases hprog
  | request running answered => rw [hidle] at hprog; cases hprog
  | finish => cases hprog
  | abandon number activeWrites => rw [hidle] at hprog; cases hprog
  | commit running answered => rw [hidle] at hprog; cases hprog
  | discard number => rw [hidle] at hprog; cases hprog
  | stray blob => rw [hidle] at hprog; cases hprog
  | requeue key => rw [hidle] at hprog; cases hprog
  | crash => cases hprog

/-- A step that leaves the publisher alone starts nothing. -/
theorem Starts.of_publisher_eq {state next : DaemonState}
    (hsame : next.publisher = state.publisher) : Starts prim config allowed state next := by
  intro hidle prog hprog
  rw [hsame, hidle] at hprog
  cases hprog

/-- A request that the scheduler lets run to its end. -/
theorem guidedSteps_request {state : DaemonState} {number : Nat} {prog : ApiProg Response}
    {outcome : Prog.Outcome ApiError Response} {after : World}
    (hruns : Prog.Runs (prim.DaemonStep faults) prog state.world outcome after)
    (hrunning : state.requests[number]? = some prog) :
    GuidedSteps prim lib config faults allowed state
      { state with world := after, requests := state.requests.set number outcome.prog } := by
  obtain ⟨world, publisher, requests, detached⟩ := state
  dsimp only at hruns hrunning ⊢
  have hended : ∀ {requests : List (ApiProg Response)} {ended : ApiProg Response},
      requests[number]? = some ended → requests.set number ended = requests := by
    intro requests ended hended
    obtain ⟨hbound, rfl⟩ := List.getElem?_eq_some_iff.mp hended
    exact List.set_getElem_self hbound
  induction hruns generalizing requests with
  | pure value world => rw [Prog.Outcome.prog, hended hrunning]
  | throw error world => rw [Prog.Outcome.prog, hended hrunning]
  | diverge world => rw [Prog.Outcome.prog, hended hrunning]
  | @call op rest world after final response outcome answered _ ih =>
      have hbound : number < requests.length := (List.getElem?_eq_some_iff.mp hrunning).1
      refine Relation.ReflTransGen.head ⟨.request hrunning answered, .of_publisher_eq rfl⟩ ?_
      have hrest := ih (requests.set number (rest response)) (List.getElem?_set_self hbound)
      rwa [List.set_set] at hrest

/-- A publisher task that runs to its end. -/
theorem guidedSteps_publisher {state : DaemonState} {prog : DaemonProg Nat}
    {outcome : Prog.Outcome DaemonError Nat} {after : World}
    (hruns : Prog.Runs (prim.DaemonStep faults) prog state.world outcome after)
    (hrunning : state.publisher = some prog) :
    GuidedSteps prim lib config faults allowed state
      { state with world := after, publisher := none } := by
  obtain ⟨world, publisher, requests, detached⟩ := state
  dsimp only at hruns hrunning ⊢
  induction hruns generalizing publisher with
  | pure value world => exact .single ⟨.finish _, nofun⟩
  | throw error world => exact .single ⟨.finish _, nofun⟩
  | diverge world => exact .single ⟨.finish _, nofun⟩
  | call answered _ ih =>
      subst hrunning
      exact Relation.ReflTransGen.head ⟨.publish rfl answered, nofun⟩ (ih _ rfl)

/-- The daemon receives a request and serves it, without faults or other tasks. -/
theorem guidedSteps_serve (clock : Timestamp) (state : DaemonState) (request : Request) :
    GuidedSteps prim lib config faults allowed state
      { state with
        world := ((handle prim lib config request).run (prim.daemonHandler clock) state.world).2
        requests := state.requests ++
          [((handle prim lib config request).run (prim.daemonHandler clock)
            state.world).1.prog] } := by
  refine Relation.ReflTransGen.head ⟨.receive state request, .of_publisher_eq rfl⟩ ?_
  have hruns := prim.daemonHandler_runs faults clock (handle prim lib config request) state.world
  let received : DaemonState :=
    { state with requests := state.requests ++ [handle prim lib config request] }
  have hrunning : received.requests[state.requests.length]? =
      some (handle prim lib config request) := by simp [received]
  have hserved : GuidedSteps prim lib config faults allowed received _ :=
    guidedSteps_request hruns hrunning
  simpa [received] using hserved

/-- An idle publisher runs a task to its end, whatever fails in it. -/
theorem guidedSteps_task {state : DaemonState} (hidle : state.publisher = none)
    {task : PublisherTask} (hallowed : allowed task) {outcome : Prog.Outcome DaemonError Nat}
    {after : World}
    (hruns : Prog.Runs (prim.DaemonStep faults) (task.prog prim config) state.world outcome after) :
    GuidedSteps prim lib config faults allowed state { state with world := after } := by
  have hstarts : Starts prim config allowed state
      { state with publisher := some (task.prog prim config) } :=
    fun _ prog hprog => ⟨task, hallowed, (Option.some.inj hprog).symm⟩
  refine Relation.ReflTransGen.head ⟨.start hidle task, hstarts⟩ ?_
  let started : DaemonState := { state with publisher := some (task.prog prim config) }
  have hran : GuidedSteps prim lib config faults allowed started _ :=
    guidedSteps_publisher hruns rfl
  rw [hidle]
  exact hran

/-- Without faults or other tasks. -/
theorem guidedSteps_run (clock : Timestamp) {state : DaemonState} (hidle : state.publisher = none)
    {task : PublisherTask} (hallowed : allowed task) :
    GuidedSteps prim lib config faults allowed state
      { state with
        world := ((task.prog prim config).run (prim.daemonHandler clock) state.world).2 } :=
  guidedSteps_task hidle hallowed (prim.daemonHandler_runs faults clock _ _)

end Steps

namespace Sample

/-- The daemon after it has served the two records in one batch. -/
def servedBy (config : Config) : DaemonState :=
  let request := handle prim lib config (.batch [⟨firstKey, firstJson⟩, ⟨secondKey, secondJson⟩])
  { world := (request.run (prim.daemonHandler createdAt) .empty).2
    publisher := none
    requests := [(request.run (prim.daemonHandler createdAt) .empty).1.prog] }

/-- With one partition. -/
def accepted : DaemonState := servedBy single

theorem accepted_reached (faults : Faults) (allowed : PublisherTask → Prop) :
    GuidedSteps prim lib single faults allowed .initial accepted :=
  guidedSteps_serve createdAt .initial _

theorem accepted_reachable (faults : Faults) : Reachable prim lib single faults accepted :=
  (accepted_reached faults fun _ => True).systemSteps

def served : DaemonState := servedBy .default

theorem served_reached (faults : Faults) (allowed : PublisherTask → Prop) :
    GuidedSteps prim lib .default faults allowed .initial served :=
  guidedSteps_serve createdAt .initial _

theorem served_reachable (faults : Faults) : Reachable prim lib .default faults served :=
  (served_reached faults fun _ => True).systemSteps

/-- The daemon after it has also published the two records. -/
def published : DaemonState :=
  { served with
    world := (((PublisherTask.cycle ∅).prog prim .default).run (prim.daemonHandler createdAt)
      served.world).2 }

theorem published_reached (faults : Faults) (allowed : PublisherTask → Prop)
    (hallowed : allowed (.cycle ∅)) :
    GuidedSteps prim lib .default faults allowed .initial published :=
  (served_reached faults allowed).trans (guidedSteps_run createdAt rfl hallowed)

theorem published_reachable (faults : Faults) : Reachable prim lib .default faults published :=
  (published_reached faults (fun _ => True) trivial).systemSteps

end Sample

/-! ## Verifying the daemon task by task -/

/-- Rules the tasks of a daemon follow: what requests may do to the world, what
any task may do, and an invariant, on worlds that stay within given bounds. -/
structure Discipline (prim : Primitives) (faults : Faults) where
  bounds : World → Prop
  inv : World → Prop
  byRequest : World → World → Prop
  byAny : World → World → Prop
  byRequest_refl : ∀ world, byRequest world world
  byRequest_trans : ∀ {first second third}, byRequest first second → byRequest second third →
    byRequest first third
  byAny_trans : ∀ {first second third}, byAny first second → byAny second third →
    byAny first third
  byAny_of_byRequest : ∀ {before after}, byRequest before after → byAny before after
  /-- The environment's own steps: stored blobs, re-queued keys, counter resets. -/
  quiet : ∀ world activeWrites, bounds world → inv world →
    inv { world with activeWrites := activeWrites } ∧
      byRequest world { world with activeWrites := activeWrites }
  stray : ∀ world blob, bounds { world with blobs := blob :: world.blobs } → inv world →
    inv { world with blobs := blob :: world.blobs } ∧
      byRequest world { world with blobs := blob :: world.blobs }
  requeue : ∀ world key, inv world → inv { world with index := (world.index.requeue key).2 } ∧
    byRequest world { world with index := (world.index.requeue key).2 }

namespace Discipline

variable {prim : Primitives} {lib : Libraries} {config : Config} {faults : Faults}
  {allowed : PublisherTask → Prop} (rules : Discipline prim faults)

/-- A step of an operation, within bounds. -/
def sem (op : DaemonOp) (world : World) (response : daemonSig.Res op) (after : World) : Prop :=
  prim.DaemonStep faults op world response after ∧ rules.bounds after

/-- What a request sees: any task may interfere. -/
def requestSetting : Setting daemonSig World where
  sem := rules.sem
  rely := rules.byAny
  inv := rules.inv
  guar := rules.byRequest
  rely_refl world := rules.byAny_of_byRequest (rules.byRequest_refl world)
  rely_trans := rules.byAny_trans

/-- What the publisher sees: only requests interfere, since it is alone. -/
def publisherSetting : Setting daemonSig World where
  sem := rules.sem
  rely := rules.byRequest
  inv := rules.inv
  guar := rules.byAny
  rely_refl := rules.byRequest_refl
  rely_trans := rules.byRequest_trans

/-- A request that follows the rules from here on. -/
def RequestOk (world : World) (prog : ApiProg Response) : Prop :=
  Valid rules.requestSetting (fun _ _ => True) (fun _ _ => True) prog world

def PublisherOk (world : World) (prog : DaemonProg Nat) : Prop :=
  Valid rules.publisherSetting (fun _ _ => True) (fun _ _ => True) prog world

/-- A transaction that follows the rules, whatever becomes of its answer. -/
def TransactionOk (world : World) (op : IndexOp) : Prop :=
  Valid rules.requestSetting (fun _ _ => True) (fun _ _ => True)
    (.call (.index op) fun _ => .pure () : ApiProg Unit) world

/-- Every task of the daemon follows the rules from here on. -/
structure Secure (state : DaemonState) : Prop where
  inv : rules.inv state.world
  publisher : ∀ prog, state.publisher = some prog → rules.PublisherOk state.world prog
  requests : ∀ prog ∈ state.requests, rules.RequestOk state.world prog
  detached : ∀ op ∈ state.detached, rules.TransactionOk state.world op

variable {rules}

theorem RequestOk.interfere {world later : World} {prog : ApiProg Response}
    (hlater : rules.byAny world later) (hprog : rules.RequestOk world prog) :
    rules.RequestOk later prog :=
  Valid.interfere (fun _ _ _ _ _ => trivial) (fun _ _ _ _ _ => trivial) hlater hprog

theorem PublisherOk.interfere {world later : World} {prog : DaemonProg Nat}
    (hlater : rules.byRequest world later) (hprog : rules.PublisherOk world prog) :
    rules.PublisherOk later prog :=
  Valid.interfere (fun _ _ _ _ _ => trivial) (fun _ _ _ _ _ => trivial) hlater hprog

theorem TransactionOk.interfere {world later : World} {op : IndexOp}
    (hlater : rules.byAny world later) (hop : rules.TransactionOk world op) :
    rules.TransactionOk later op :=
  Valid.interfere (fun _ _ _ _ _ => trivial) (fun _ _ _ _ _ => trivial) hlater hop

/-- The transaction of a request that follows the rules follows them without it. -/
theorem RequestOk.transaction {world : World} {op : IndexOp}
    {rest : daemonSig.Res (.index op) → ApiProg Response}
    (hprog : rules.RequestOk world (.call (.index op) rest)) : rules.TransactionOk world op := by
  intro before hbefore hinv response after hstep
  obtain ⟨hafter, hguar, -⟩ := hprog before hbefore hinv response after hstep
  exact ⟨hafter, hguar, trivial⟩

/-- A step that only does what a request may do leaves every other task alone. -/
theorem Secure.interfere {state : DaemonState} (hstate : rules.Secure state) {after : World}
    (hinv : rules.inv after) (hstep : rules.byRequest state.world after) :
    rules.Secure { state with world := after } where
  inv := hinv
  publisher prog hprog := (hstate.publisher prog hprog).interfere hstep
  requests prog hprog := (hstate.requests prog hprog).interfere (rules.byAny_of_byRequest hstep)
  detached op hop := (hstate.detached op hop).interfere (rules.byAny_of_byRequest hstep)

variable (hhandle : ∀ request world, rules.inv world →
    rules.RequestOk world (handle prim lib config request))
  (htask : ∀ task : PublisherTask, allowed task → ∀ world, rules.inv world →
    rules.PublisherOk world (task.prog prim config))
  (hbounds : ∀ state next, SystemStep prim lib config faults state next →
    rules.bounds next.world → rules.bounds state.world)

include hhandle htask hbounds in
/-- Tasks that follow the rules by themselves follow them together. -/
theorem secure_step {state next : DaemonState}
    (hstep : SystemStep prim lib config faults state next)
    (hstarts : Starts prim config allowed state next) (hnext : rules.bounds next.world)
    (hstate : rules.Secure state) :
    rules.Secure next ∧ rules.byAny state.world next.world := by
  have hworld : rules.bounds state.world := hbounds state next hstep hnext
  have hsame : rules.byAny state.world state.world :=
    rules.byAny_of_byRequest (rules.byRequest_refl _)
  cases hstep with
  | receive request =>
      refine ⟨⟨hstate.inv, hstate.publisher, fun prog hprog => ?_, hstate.detached⟩, hsame⟩
      rcases List.mem_append.mp hprog with hold | hnew
      · exact hstate.requests prog hold
      · rw [List.mem_singleton.mp hnew]
        exact hhandle request state.world hstate.inv
  | @request number op rest response after running answered =>
      have hmember := hstate.requests _ (List.mem_of_getElem? running)
      obtain ⟨hinv, hguar, hrest⟩ := hmember state.world (rules.requestSetting.rely_refl _)
        hstate.inv response after ⟨answered, hnext⟩
      have hothers := hstate.interfere hinv hguar
      refine ⟨⟨hinv, hothers.publisher, fun prog hprog => ?_, hothers.detached⟩,
        rules.byAny_of_byRequest hguar⟩
      rcases List.mem_or_eq_of_mem_set hprog with hold | rfl
      · exact hothers.requests prog hold
      · exact hrest
  | start idle task =>
      refine ⟨⟨hstate.inv, ?_, hstate.requests, hstate.detached⟩, hsame⟩
      intro prog hprog
      obtain ⟨started, hallowed, rfl⟩ := hstarts idle prog hprog
      exact htask started hallowed state.world hstate.inv
  | @publish op rest response after running answered =>
      obtain ⟨hinv, hguar, hrest⟩ := hstate.publisher _ running state.world
        (rules.publisherSetting.rely_refl _) hstate.inv response after ⟨answered, hnext⟩
      refine ⟨⟨hinv, ?_, fun prog hprog => (hstate.requests prog hprog).interfere hguar,
        fun op hop => (hstate.detached op hop).interfere hguar⟩, hguar⟩
      rintro prog ⟨⟩
      exact hrest
  | finish =>
      refine ⟨⟨hstate.inv, ?_, hstate.requests, hstate.detached⟩, hsame⟩
      rintro prog ⟨⟩
  | abandon number activeWrites =>
      obtain ⟨hinv, hquiet⟩ := rules.quiet state.world activeWrites hworld hstate.inv
      have hothers := hstate.interfere hinv hquiet
      refine ⟨⟨hinv, hothers.publisher, fun prog hprog =>
        hothers.requests prog (List.mem_of_mem_eraseIdx hprog), fun op hop => ?_⟩,
        rules.byAny_of_byRequest hquiet⟩
      rcases List.mem_append.mp hop with hold | hnew
      · exact hothers.detached op hold
      · obtain ⟨rest, hwaiting⟩ := exists_of_mem_pendingTransaction hnew
        exact (hothers.requests _ hwaiting).transaction
  | @commit number op response after running answered =>
      obtain ⟨hinv, hguar, -⟩ := hstate.detached op (List.mem_of_getElem? running) state.world
        (rules.requestSetting.rely_refl _) hstate.inv response after ⟨answered, hnext⟩
      have hothers := hstate.interfere hinv hguar
      exact ⟨⟨hinv, hothers.publisher, hothers.requests, fun other hother =>
        hothers.detached other (List.mem_of_mem_eraseIdx hother)⟩, rules.byAny_of_byRequest hguar⟩
  | discard number =>
      exact ⟨⟨hstate.inv, hstate.publisher, hstate.requests, fun op hop =>
        hstate.detached op (List.mem_of_mem_eraseIdx hop)⟩, hsame⟩
  | stray blob =>
      obtain ⟨hinv, hstray⟩ := rules.stray state.world blob hnext hstate.inv
      exact ⟨hstate.interfere hinv hstray, rules.byAny_of_byRequest hstray⟩
  | requeue key =>
      obtain ⟨hinv, hrequeue⟩ := rules.requeue state.world key hstate.inv
      exact ⟨hstate.interfere hinv hrequeue, rules.byAny_of_byRequest hrequeue⟩
  | crash =>
      obtain ⟨hinv, hquiet⟩ := rules.quiet state.world 0 hworld hstate.inv
      refine ⟨⟨hinv, ?_, fun prog hprog => absurd hprog List.not_mem_nil,
        fun op hop => absurd hop List.not_mem_nil⟩, rules.byAny_of_byRequest hquiet⟩
      rintro prog ⟨⟩

include hhandle htask hbounds in
/-- A daemon that starts by the rules keeps to them, however long it runs. -/
theorem secure_guidedSteps {state later : DaemonState}
    (hsteps : GuidedSteps prim lib config faults allowed state later)
    (hlater : rules.bounds later.world) (hstate : rules.Secure state) :
    rules.Secure later ∧ rules.byAny state.world later.world := by
  induction hsteps with
  | refl => exact ⟨hstate, rules.byAny_of_byRequest (rules.byRequest_refl _)⟩
  | tail _ hstep ih =>
      obtain ⟨hmiddle, hany⟩ := ih (hbounds _ _ hstep.1 hlater)
      obtain ⟨hlast, hanyLast⟩ := secure_step hhandle htask hbounds hstep.1 hstep.2 hlater hmiddle
      exact ⟨hlast, rules.byAny_trans hany hanyLast⟩

theorem secure_steps
    (hhandle : ∀ request world, rules.inv world →
      rules.RequestOk world (handle prim lib config request))
    (htask : ∀ (task : PublisherTask) world, rules.inv world →
      rules.PublisherOk world (task.prog prim config))
    (hbounds : ∀ state next, SystemStep prim lib config faults state next →
      rules.bounds next.world → rules.bounds state.world)
    {state later : DaemonState} (hsteps : SystemSteps prim lib config faults state later)
    (hlater : rules.bounds later.world) (hstate : rules.Secure state) :
    rules.Secure later ∧ rules.byAny state.world later.world := by
  have hguided : GuidedSteps prim lib config faults (fun _ => True) state later :=
    Relation.ReflTransGen.mono (fun _ _ hstep => ⟨hstep, hstep.starts⟩) _ _ hsteps
  exact secure_guidedSteps hhandle (fun task _ => htask task) hbounds hguided hlater hstate

theorem secure_initial (hempty : rules.inv .empty) : rules.Secure .initial where
  inv := hempty
  publisher := by
    rintro prog ⟨⟩
  requests prog hprog := absurd hprog List.not_mem_nil
  detached op hop := absurd hop List.not_mem_nil

end Discipline

end Registry

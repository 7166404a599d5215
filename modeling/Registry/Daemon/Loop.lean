import Registry.Daemon.Settle

/-! # The publisher loop

The loop that runs the publisher's tasks: it adopts and heals the roots once,
then heals by the clock, publishes by the queue and the clock, sleeps, and drains
the queue once more when it is told to stop.
-/

namespace Registry

open Effect

/-! ## The loop -/

/-- The counters that `/health` reports. -/
structure PublisherStatus where
  lastPublishUnix : Int
  cyclesCompleted : Nat
  recordsPublished : Nat
  lastError : Option String

def PublisherStatus.default : PublisherStatus where
  lastPublishUnix := 0
  cyclesCompleted := 0
  recordsPublished := 0
  lastError := none

/-- What the loop runs to its end, and whose error it only reports. -/
inductive PublisherJob
  | seed
  | heal
  | cycle

/-- What the loop does besides. -/
inductive ControlOp
  | instant
  | queueDepth
  | sleep
  | shutdown
  | utcNow
  | report (update : PublisherStatus → PublisherStatus)
  | drainFailed (error : DaemonError)

abbrev ControlOp.Answer : ControlOp → Type
  | .instant => Nat
  | .queueDepth => Nat
  | .sleep => Unit
  | .shutdown => Bool
  | .utcNow => Timestamp
  | .report _ => Unit
  | .drainFailed _ => Unit

inductive LoopOp
  | job (job : PublisherJob)
  | control (op : ControlOp)

abbrev loopSig : Signature where
  Op := LoopOp
  Res
    | .job _ => Except DaemonError Nat
    | .control op => op.Answer

abbrev LoopProg := Prog loopSig Empty

def PublisherJob.call (job : PublisherJob) : LoopProg (Except DaemonError Nat) :=
  .call (.job job) .pure

def ControlOp.call (op : ControlOp) : LoopProg op.Answer :=
  .call (.control op) .pure

/-- Ten minutes, in nanoseconds. -/
def healInterval : Nat := 600 * 1000000000

/-- When the last cycle and the last repair were. -/
structure Timers where
  lastCycle : Nat
  lastHeal : Nat

section Run

variable (config : Config) (maxInterval : Nat)

def healIfDue (timers : Timers) : LoopProg Timers := do
  let now ← ControlOp.instant.call
  if healInterval ≤ now - timers.lastHeal then do
    let lastHeal ← ControlOp.instant.call
    let _ ← PublisherJob.heal.call
    pure { timers with lastHeal := lastHeal }
  else pure timers

/-- A cycle is due when the queue is full, or has waited for long enough. -/
def due (timers : Timers) : LoopProg Bool := do
  let depth ← ControlOp.queueDepth.call
  if depth = 0 then pure false
  else if config.publishMaxPending ≤ depth then pure true
  else do
    let now ← ControlOp.instant.call
    pure (decide (maxInterval ≤ now - timers.lastCycle))

/-- The final drain. Its error is only logged. -/
def drain : LoopProg Unit := do
  let depth ← ControlOp.queueDepth.call
  if 0 < depth then do
    match ← PublisherJob.cycle.call with
    | .ok _ => pure ()
    | .error error => (ControlOp.drainFailed error).call
  else pure ()

/-- Sleep, and stop when told to. -/
def sleepOrStop (timers : Timers) : LoopProg (Option Timers) := do
  ControlOp.sleep.call
  if ← ControlOp.shutdown.call then do
    drain
    pure none
  else pure (some timers)

/-- One round of the loop. After a cycle that succeeds the next round follows at once. -/
def round (timers : Timers) : LoopProg (Option Timers) := do
  let timers ← healIfDue timers
  if ← due config maxInterval timers then do
    match ← PublisherJob.cycle.call with
    | .ok published => do
        let lastCycle ← ControlOp.instant.call
        let now ← ControlOp.utcNow.call
        (ControlOp.report fun status => {
          lastPublishUnix := now / 1000000000
          cyclesCompleted := status.cyclesCompleted + 1
          recordsPublished := status.recordsPublished + published
          lastError := none }).call
        pure (some { timers with lastCycle := lastCycle })
    | .error error => do
        (ControlOp.report fun status => { status with lastError := some error.message }).call
        let lastCycle ← ControlOp.instant.call
        sleepOrStop { timers with lastCycle := lastCycle }
  else sleepOrStop timers

/-- At most so many rounds, and whether the loop has stopped. -/
def rounds : Nat → Timers → LoopProg Bool
  | 0, _ => pure false
  | count + 1, timers => do
      match ← round config maxInterval timers with
      | none => pure true
      | some timers => rounds count timers

/-- The loop from its start, up to a number of rounds. -/
def publisherRun (count : Nat) : LoopProg Bool := do
  let _ ← PublisherJob.seed.call
  let _ ← PublisherJob.heal.call
  let lastCycle ← ControlOp.instant.call
  let lastHeal ← ControlOp.instant.call
  rounds config maxInterval count ⟨lastCycle, lastHeal⟩

end Run

/-! ## Its single operations -/

/-- What a running loop does next: an operation of the job it runs, or one of its own. A
cycle reads the denylist file anew. -/
inductive CallOp
  | daemon (op : DaemonOp)
  | loadDenylist
  | control (op : ControlOp)

abbrev callSig : Signature where
  Op := CallOp
  Res
    | .daemon op => daemonSig.Res op
    | .loadDenylist => Finset String
    | .control op => op.Answer

abbrev CallProg := Prog callSig Empty

/-- A task of the daemon, its error as a value. -/
def onDaemon (prog : DaemonProg Nat) : CallProg (Except DaemonError Nat) :=
  (prog.attempt : Prog daemonSig Empty (Except DaemonError Nat)).embed .daemon
    (fun _ response => response) id

section Calls

variable (prim : Primitives) (config : Config)

def implement : (op : LoopOp) → CallProg (loopSig.Res op)
  | .job .seed => onDaemon (seedLocalRoots config)
  | .job .heal => onDaemon healPointerDoc
  | .job .cycle => .call .loadDenylist fun denylist => onDaemon (prim.publishCycle config denylist)
  | .control op => .call (.control op) .pure

/-- The loop in single operations. -/
def publisherCalls (maxInterval count : Nat) : CallProg Bool :=
  (publisherRun config maxInterval count).interpret (implement prim config)

end Calls

/-- The daemon next to its publisher loop. What the loop saw when it was told to stop is
kept, and the error of its final drain. -/
structure LoopState where
  daemon : DaemonState
  status : PublisherStatus
  clock : Nat
  stopSeen : Option World
  drainError : Option DaemonError

/-- A loop that is about to start. -/
def DaemonState.launched (daemon : DaemonState) (clock : Nat) : LoopState where
  daemon := daemon
  status := .default
  clock := clock
  stopSeen := none
  drainError := none

section Steps

variable (prim : Primitives) (lib : Libraries) (config : Config) (faults : Faults)

/-- The loop's own operations. A queue that cannot be read counts as empty. -/
def ControlStep : (op : ControlOp) → LoopState → op.Answer → LoopState → Prop
  | .instant, before, now, after => before.clock ≤ now ∧ after = { before with clock := now }
  | .queueDepth, before, depth, after => after = before ∧
      (depth = before.daemon.world.index.queue.size ∨ faults.index ∧ depth = 0)
  | .sleep, before, _, after => after = before
  | .shutdown, before, told, after =>
      after = if told then { before with stopSeen := some before.daemon.world } else before
  | .utcNow, before, _, after => after = before
  | .report update, before, _, after => after = { before with status := update before.status }
  | .drainFailed error, before, _, after => after = { before with drainError := some error }

def CallStep : (op : CallOp) → LoopState → callSig.Res op → LoopState → Prop
  | .daemon op, before, response, after =>
      prim.DaemonStep faults op before.daemon.world response after.daemon.world ∧
        after = { before with daemon := { before.daemon with world := after.daemon.world } }
  | .loadDenylist, before, _, after => after = before
  | .control op, before, response, after => ControlStep faults op before response after

/-- A step of the daemon's other tasks. -/
def OtherStep (before after : LoopState) : Prop :=
  SystemStep prim lib config faults before.daemon after.daemon ∧ after.daemon.publisher = none ∧
    after = { before with daemon := after.daemon }

/-- A running loop, between the steps of the daemon's other tasks. -/
abbrev LoopTurns {α : Type} : CallProg α × LoopState → CallProg α × LoopState → Prop :=
  Prog.Turns (CallStep prim faults) (OtherStep prim lib config faults)

end Steps

/-! ## What holds at every moment of the loop -/

/-- What the daemon's other tasks may do next to the loop. -/
structure LoopState.Aside (before after : LoopState) : Prop where
  adds : before.daemon.world.Adds after.daemon.world
  status : after.status = before.status
  stopSeen : after.stopSeen = before.stopSeen
  drainError : after.drainError = before.drainError

/-- What a job of the loop may do. -/
structure LoopState.Keeps (before after : LoopState) : Prop where
  settles : before.daemon.world.Settles after.daemon.world
  status : after.status = before.status
  stopSeen : after.stopSeen = before.stopSeen
  drainError : after.drainError = before.drainError

theorem LoopState.Aside.refl (state : LoopState) : state.Aside state :=
  ⟨.refl _, rfl, rfl, rfl⟩

theorem LoopState.Aside.trans {first second third : LoopState} (hfirst : first.Aside second)
    (hsecond : second.Aside third) : first.Aside third :=
  ⟨hfirst.adds.trans hsecond.adds, hsecond.status.trans hfirst.status,
    hsecond.stopSeen.trans hfirst.stopSeen, hsecond.drainError.trans hfirst.drainError⟩

theorem LoopState.Aside.keeps {before after : LoopState} (haside : before.Aside after) :
    before.Keeps after :=
  ⟨haside.adds.settles, haside.status, haside.stopSeen, haside.drainError⟩

theorem LoopState.Keeps.trans {first second third : LoopState} (hfirst : first.Keeps second)
    (hsecond : second.Keeps third) : first.Keeps third :=
  ⟨hfirst.settles.trans hsecond.settles, hsecond.status.trans hfirst.status,
    hsecond.stopSeen.trans hfirst.stopSeen, hsecond.drainError.trans hfirst.drainError⟩

section Counting

variable {prim : Primitives} {lib : Libraries} {config : Config} {faults : Faults}

/-- As many rows have left the queue as records were reported to be published, and as cycles
were reported, if a cycle takes any row at all. -/
structure Counted (config : Config) (start : World) (published cycles : Nat) (world : World) :
    Prop where
  records : published + world.index.queue.size + start.index.nextSeq ≤
    start.index.queue.size + world.index.nextSeq
  cycles : 0 < config.publishMaxPending →
    cycles + world.index.queue.size + start.index.nextSeq ≤
      start.index.queue.size + world.index.nextSeq

theorem Counted.start (world : World) : Counted config world 0 0 world :=
  ⟨by omega, fun _ => by omega⟩

theorem Counted.later {start before after : World} {published cycles : Nat}
    (hcounted : Counted config start published cycles before) (hlater : before.Later after)
    (hafter : Durable prim config after) : Counted config start published cycles after := by
  have hsize := hlater.size_queue_le hafter
  obtain ⟨hrecords, hcycles⟩ := hcounted
  refine ⟨by omega, fun hmax => ?_⟩
  have hbound := hcycles hmax
  omega

/-- A cycle that found rows in the queue counts. -/
theorem Counted.cycle {start begun after : World} {published cycles count : Nat}
    (hcounted : Counted config start published cycles begun)
    (hcycle : CycleSettles prim config begun count after) (hsome : 0 < begun.index.queue.size)
    (hafter : Durable prim config after) :
    Counted config start (published + count) (cycles + 1) after := by
  obtain ⟨taken, hcount, htaken, hsize⟩ := hcycle.size_queue_le hafter
  obtain ⟨hrecords, hcycles⟩ := hcounted
  refine ⟨by omega, fun hmax => ?_⟩
  have hbound := hcycles hmax
  have hpos := htaken hmax hsome
  omega

theorem CycleSettles.begin {first begun after : World} {count : Nat} (hadds : first.Adds begun)
    (hcycle : CycleSettles prim config begun count after) :
    CycleSettles prim config first count after := by
  obtain ⟨read, hread, hrest⟩ := hcycle
  exact ⟨read, hadds.trans hread, hrest⟩

variable (prim config faults) in
/-- The tasks are verified, the loop is the publisher, and its counters are right. -/
structure LoopSecure (start : World) (state : LoopState) : Prop where
  secure : (settling prim config faults).Secure state.daemon
  idle : state.daemon.publisher = none
  counted : Counted config start state.status.recordsPublished state.status.cyclesCompleted
    state.daemon.world

theorem LoopSecure.of_same {start : World} {before after : LoopState}
    (hbefore : LoopSecure prim config faults start before) (hdaemon : after.daemon = before.daemon)
    (hstatus : after.status = before.status) : LoopSecure prim config faults start after := by
  refine ⟨?_, ?_, ?_⟩
  · rw [hdaemon]
    exact hbefore.secure
  · rw [hdaemon]
    exact hbefore.idle
  · rw [hdaemon, hstatus]
    exact hbefore.counted

variable (prim config faults) in
/-- The loop, between the steps of the other tasks. -/
def loopSetting (start : World) : Setting callSig LoopState where
  sem := CallStep prim faults
  rely := LoopState.Aside
  inv := LoopSecure prim config faults start
  guar _ _ := True
  rely_refl := LoopState.Aside.refl
  rely_trans := LoopState.Aside.trans

/-! ## The jobs -/

theorem onDaemon_valid {start : World} {post : Nat → World → Prop} {prog : DaemonProg Nat}
    {state : LoopState}
    (hprog : Valid (settling prim config faults).publisherSetting post (fun _ _ => True) prog
      state.daemon.world) :
    Valid (loopSetting prim config faults start)
      (fun answer after => (∀ count, answer = .ok count → post count after.daemon.world) ∧
        state.Keeps after) (fun _ _ => False) (onDaemon prog) state := by
  have hattempt : Valid (settling prim config faults).publisherSetting
      (fun answer after => ∀ count, answer = .ok count → post count after) (fun _ _ => False)
      (prog.attempt : Prog daemonSig Empty (Except DaemonError Nat)) state.daemon.world := by
    refine Valid.attempt (Valid.mono ?_ ?_ hprog)
    · intro count after hpost other hother
      rw [← Except.ok.inj hother]
      exact hpost
    · intro error after _ count hcount
      cases hcount
  have hlift : Valid (loopSetting prim config faults start)
      (fun answer after => (∀ count, answer = .ok count → post count after.daemon.world) ∧
        state.Keeps after)
      (fun error' after => state.Keeps after ∧ ∃ error : Empty, id error = error' ∧ False)
      (onDaemon prog) state := by
    unfold onDaemon
    refine Valid.embedLift (S := (settling prim config faults).publisherSetting)
      (T := loopSetting prim config faults start) (fun state => state.daemon.world)
      (fun after => state.Keeps after) (fun _ _ haside => haside.adds)
      (fun _ hinv => hinv.secure.inv) (fun _ _ haside hkeeps => hkeeps.trans haside.keeps)
      ?_ ?_ (LoopState.Aside.refl state).keeps hattempt
    · intro op before response after hstep
      exact ⟨hstep.1, trivial⟩
    intro op before response after hstep hbefore hframe hdurable hsettles
    obtain ⟨-, hafter⟩ := hstep
    have hstep : before.Keeps after := by
      refine ⟨hsettles, ?_, ?_, ?_⟩
      · rw [hafter]
      · rw [hafter]
      · rw [hafter]
    refine ⟨⟨?_, ?_, ?_⟩, trivial, hframe.trans hstep⟩
    · rw [hafter]
      refine ⟨hdurable, fun prog hprog => ?_, fun prog hprog => ?_, fun op hop => ?_⟩
      · have hnone : some prog = none := hprog.symm.trans hbefore.idle
        cases hnone
      · exact (hbefore.secure.requests prog hprog).interfere hsettles
      · exact (hbefore.secure.detached op hop).interfere hsettles
    · rw [hafter]
      exact hbefore.idle
    · rw [hstep.status]
      exact hbefore.counted.later hsettles.later hdurable
  exact Valid.mono (fun _ _ hpost => hpost) (fun error _ _ => error.elim) hlift

theorem job_valid {start : World} (job : PublisherJob) (state : LoopState) :
    Valid (loopSetting prim config faults start)
      (fun answer after => (∀ count, answer = .ok count → job = .cycle →
        CycleSettles prim config state.daemon.world count after.daemon.world) ∧ state.Keeps after)
      (fun _ _ => False) (job.call.interpret (implement prim config)) state := by
  have htask : ∀ (task : PublisherTask), Valid (loopSetting prim config faults start)
      (fun answer after => (∀ count, answer = .ok count → True) ∧ state.Keeps after)
      (fun _ _ => False) (onDaemon (task.prog prim config)) state :=
    fun task => onDaemon_valid (task_settles task state.daemon.world)
  cases job with
  | seed =>
      apply Valid.bind
      refine Valid.mono ?_ (fun _ _ hfalse => hfalse) (htask .seed)
      intro answer after hkeeps
      refine ⟨fun count _ hcycle => ?_, hkeeps.2⟩
      cases hcycle
  | heal =>
      apply Valid.bind
      refine Valid.mono ?_ (fun _ _ hfalse => hfalse) (htask .heal)
      intro answer after hkeeps
      refine ⟨fun count _ hcycle => ?_, hkeeps.2⟩
      cases hcycle
  | cycle =>
      intro before hbefore hinv denylist after hstep
      obtain rfl : after = before := hstep
      refine ⟨hinv, trivial, ?_⟩
      apply Valid.bind
      refine Valid.mono ?_ (fun _ _ hfalse => hfalse)
        (onDaemon_valid (publishCycle_settles denylist after.daemon.world))
      intro answer last hanswer
      exact ⟨fun count hcount _ => (hanswer.1 count hcount).begin hbefore.adds,
        hbefore.keeps.trans hanswer.2⟩

/-- An operation of the loop's own. -/
theorem control_valid {start : World} {op : ControlOp} {post : op.Answer → LoopState → Prop}
    {state : LoopState}
    (hstep : ∀ before response after, state.Aside before →
      LoopSecure prim config faults start before → ControlStep faults op before response after →
        LoopSecure prim config faults start after ∧ post response after) :
    Valid (loopSetting prim config faults start) post (fun _ _ => False)
      (op.call.interpret (implement prim config)) state := by
  intro before hbefore hinv response after hsem
  obtain ⟨hafter, hpost⟩ := hstep before response after hbefore hinv hsem
  exact ⟨hafter, trivial, hpost⟩

/-- An operation of the loop's own, and what follows it. -/
theorem control_bind {start : World} {α : Type} {op : ControlOp} {next : op.Answer → LoopProg α}
    {post : α → LoopState → Prop} {state : LoopState}
    (hstep : ∀ before response after, state.Aside before →
      LoopSecure prim config faults start before → ControlStep faults op before response after →
        LoopSecure prim config faults start after ∧
          Valid (loopSetting prim config faults start) post (fun _ _ => False)
            ((next response).interpret (implement prim config)) after) :
    Valid (loopSetting prim config faults start) post (fun _ _ => False)
      ((op.call >>= next).interpret (implement prim config)) state := by
  rw [Prog.interpret_bind]
  exact Valid.bind (control_valid hstep)

/-- A job, and what follows it. -/
theorem job_bind {start : World} {α : Type} (job : PublisherJob)
    {next : Except DaemonError Nat → LoopProg α} {post : α → LoopState → Prop} {state : LoopState}
    (hnext : ∀ answer after, (∀ count, answer = .ok count → job = .cycle →
        CycleSettles prim config state.daemon.world count after.daemon.world) ∧ state.Keeps after →
      Valid (loopSetting prim config faults start) post (fun _ _ => False)
        ((next answer).interpret (implement prim config)) after) :
    Valid (loopSetting prim config faults start) post (fun _ _ => False)
      ((job.call >>= next).interpret (implement prim config)) state := by
  rw [Prog.interpret_bind]
  apply Valid.bind
  exact Valid.mono hnext (fun _ _ hfalse => hfalse) (job_valid job state)

/-! ## The loop, part by part -/

/-- Nobody has told the loop to stop. -/
def Running (state : LoopState) : Prop := state.stopSeen = none ∧ state.drainError = none

/-- The loop was told to stop in this world, and its drain has not failed. -/
structure Stopping (prim : Primitives) (config : Config) (noticed : World) (state : LoopState) :
    Prop where
  stopSeen : state.stopSeen = some noticed
  drainError : state.drainError = none
  durable : Durable prim config noticed
  adds : noticed.Adds state.daemon.world

/-- All records from when the loop was told to stop are settled, unless the drain could not
read the index, was reported to fail, or had more rows to take than one cycle does. -/
def Drained (config : Config) (faults : Faults) (state : LoopState) : Prop :=
  ∃ noticed, state.stopSeen = some noticed ∧ (¬faults.index → state.drainError = none →
    noticed.index.queue.size ≤ config.publishMaxPending →
      ∀ (key : String) (record : IndexRecord), noticed.index.records[key]? = some record →
        state.daemon.world.index.Settled key)

/-- There were rows in the queue when the loop last looked. -/
def Full (config : Config) (start : World) (state : LoopState) : Prop :=
  ∃ begun : World, Counted config start state.status.recordsPublished
    state.status.cyclesCompleted begun ∧ 0 < begun.index.queue.size ∧
      begun.Adds state.daemon.world

theorem Running.keeps {before after : LoopState} (hkeeps : before.Keeps after)
    (hrunning : Running before) : Running after :=
  ⟨hkeeps.stopSeen.trans hrunning.1, hkeeps.drainError.trans hrunning.2⟩

theorem Stopping.aside {noticed : World} {before after : LoopState} (haside : before.Aside after)
    (hstopping : Stopping prim config noticed before) : Stopping prim config noticed after where
  stopSeen := haside.stopSeen.trans hstopping.stopSeen
  drainError := haside.drainError.trans hstopping.drainError
  durable := hstopping.durable
  adds := hstopping.adds.trans haside.adds

theorem Drained.aside {before after : LoopState} (haside : before.Aside after)
    (hdrained : Drained config faults before) : Drained config faults after := by
  obtain ⟨noticed, hseen, hsettled⟩ := hdrained
  refine ⟨noticed, haside.stopSeen.trans hseen, fun hindex herror hsize key record hrecord => ?_⟩
  exact haside.adds.settles.settled key
    (hsettled hindex (haside.drainError.symm.trans herror) hsize key record hrecord)

theorem Full.aside {start : World} {before after : LoopState} (haside : before.Aside after)
    (hfull : Full config start before) : Full config start after := by
  obtain ⟨begun, hcounted, hsome, hadds⟩ := hfull
  refine ⟨begun, ?_, hsome, hadds.trans haside.adds⟩
  rw [haside.status]
  exact hcounted

variable {start : World}

theorem healIfDue_valid (timers : Timers) {state : LoopState} (hrunning : Running state) :
    Valid (loopSetting prim config faults start) (fun _ after => Running after) (fun _ _ => False)
      ((healIfDue timers).interpret (implement prim config)) state := by
  rw [healIfDue]
  refine control_bind ?_
  rintro before now _ haside hinv ⟨-, rfl⟩
  have hbefore : Running before := hrunning.keeps haside.keeps
  refine ⟨hinv.of_same rfl rfl, ?_⟩
  by_cases hdue : healInterval ≤ now - timers.lastHeal
  · rw [if_pos hdue]
    refine control_bind ?_
    rintro middle lastHeal _ hmiddle hinvMiddle ⟨-, rfl⟩
    refine ⟨hinvMiddle.of_same rfl rfl, ?_⟩
    refine job_bind .heal ?_
    intro _ after hafter
    have hrunningMiddle : Running middle := Running.keeps hmiddle.keeps hbefore
    exact Running.keeps hafter.2 hrunningMiddle
  · rw [if_neg hdue]
    exact hbefore

theorem due_valid (maxInterval : Nat) (timers : Timers) {state : LoopState}
    (hrunning : Running state) :
    Valid (loopSetting prim config faults start)
      (fun answer after => Running after ∧ (answer = true → Full config start after))
      (fun _ _ => False) ((due config maxInterval timers).interpret (implement prim config))
      state := by
  rw [due]
  refine control_bind ?_
  rintro before depth after haside hinv ⟨rfl, hdepth⟩
  have hbefore : Running after := hrunning.keeps haside.keeps
  refine ⟨hinv, ?_⟩
  by_cases hzero : depth = 0
  · rw [if_pos hzero]
    refine ⟨hbefore, fun hfalse => ?_⟩
    cases hfalse
  · have hfull : Full config start after := by
      -- A queue that could not be read counts as empty, and nothing is due.
      rcases hdepth with hsize | ⟨-, hempty⟩
      · refine ⟨after.daemon.world, hinv.counted, ?_, .refl _⟩
        rw [← hsize]
        exact Nat.pos_of_ne_zero hzero
      · exact absurd hempty hzero
    rw [if_neg hzero]
    by_cases hmax : config.publishMaxPending ≤ depth
    · rw [if_pos hmax]
      exact ⟨hbefore, fun _ => hfull⟩
    · rw [if_neg hmax]
      refine control_bind ?_
      rintro middle now _ hmiddle hinvMiddle ⟨-, rfl⟩
      have hrunningMiddle : Running middle := Running.keeps hmiddle.keeps hbefore
      have hfullMiddle : Full config start middle := hfull.aside hmiddle
      exact ⟨hinvMiddle.of_same rfl rfl, hrunningMiddle, fun _ => hfullMiddle⟩

theorem drain_valid {noticed : World} {state : LoopState}
    (hstopping : Stopping prim config noticed state) :
    Valid (loopSetting prim config faults start) (fun _ after => Drained config faults after)
      (fun _ _ => False) (drain.interpret (implement prim config)) state := by
  rw [drain]
  refine control_bind ?_
  rintro before depth after haside hinv ⟨rfl, hdepth⟩
  have hafter : Stopping prim config noticed after := hstopping.aside haside
  refine ⟨hinv, ?_⟩
  by_cases hsome : 0 < depth
  · rw [if_pos hsome]
    refine job_bind .cycle ?_
    rintro answer last ⟨hcycle, hkeeps⟩
    have hseen : last.stopSeen = some noticed := hkeeps.stopSeen.trans hafter.stopSeen
    cases answer with
    | ok count =>
        -- The drain has read every row that was queued when the loop was told to stop.
        refine ⟨noticed, hseen, fun _ _ hsize key record hrecord => ?_⟩
        exact (hcycle count rfl rfl).settled hafter.adds hafter.durable hsize hrecord
    | error error =>
        -- A drain that fails leaves its error behind.
        refine control_valid ?_
        rintro early _ _ hearly hinvEarly rfl
        refine ⟨hinvEarly.of_same rfl rfl, noticed, hearly.stopSeen.trans hseen,
          fun _ hnone => ?_⟩
        cases hnone
  · rw [if_neg hsome]
    refine ⟨noticed, hafter.stopSeen, fun hindex _ _ key record hrecord => ?_⟩
    -- The queue was empty, so no record was pending.
    have hempty : after.daemon.world.index.queue.size = 0 := by
      rcases hdepth with hsize | ⟨hfault, -⟩
      · rw [← hsize]
        exact Nat.eq_zero_of_not_pos hsome
      · exact absurd hfault hindex
    refine ⟨record, hafter.adds.records key record hrecord, fun hpending => ?_⟩
    obtain ⟨seq, hrow⟩ := hafter.durable.index.queued key record hrecord hpending
    have hkept := hafter.adds.rows seq key hrow
    rw [Std.ExtTreeMap.eq_empty_iff_size_eq_zero.mpr hempty] at hkept
    simp at hkept

theorem sleepOrStop_valid (timers : Timers) {state : LoopState} (hrunning : Running state) :
    Valid (loopSetting prim config faults start)
      (fun next after => (next = none → Drained config faults after) ∧
        (next ≠ none → Running after))
      (fun _ _ => False) ((sleepOrStop timers).interpret (implement prim config)) state := by
  rw [sleepOrStop]
  refine control_bind ?_
  rintro before _ after haside hinv rfl
  have hbefore : Running after := hrunning.keeps haside.keeps
  refine ⟨hinv, ?_⟩
  refine control_bind ?_
  rintro middle told _ hmiddle hinvMiddle rfl
  have hrunningMiddle : Running middle := Running.keeps hmiddle.keeps hbefore
  cases told with
  | false =>
      refine ⟨hinvMiddle, fun hnone => ?_, fun _ => hrunningMiddle⟩
      cases hnone
  | true =>
      refine ⟨hinvMiddle.of_same rfl rfl, ?_⟩
      -- From here on the loop answers for the records of this moment.
      have hstopping : Stopping prim config middle.daemon.world
          { middle with stopSeen := some middle.daemon.world } :=
        ⟨rfl, hrunningMiddle.2, hinvMiddle.secure.inv, .refl _⟩
      rw [if_pos rfl, Prog.interpret_bind]
      apply Valid.bind
      refine Valid.mono ?_ (fun _ _ hfalse => hfalse) (drain_valid hstopping)
      intro _ last hdrained
      exact ⟨fun _ => hdrained, fun hnone => absurd rfl hnone⟩

theorem round_valid (maxInterval : Nat) (timers : Timers) {state : LoopState}
    (hrunning : Running state) :
    Valid (loopSetting prim config faults start)
      (fun next after => (next = none → Drained config faults after) ∧
        (next ≠ none → Running after))
      (fun _ _ => False) ((round config maxInterval timers).interpret (implement prim config))
      state := by
  rw [round, Prog.interpret_bind]
  apply Valid.bind
  refine Valid.mono ?_ (fun _ _ hfalse => hfalse) (healIfDue_valid timers hrunning)
  intro healed first hfirst
  rw [Prog.interpret_bind]
  apply Valid.bind
  refine Valid.mono ?_ (fun _ _ hfalse => hfalse) (due_valid maxInterval healed hfirst)
  rintro answer second ⟨hsecond, hfull⟩
  cases answer with
  | false => exact sleepOrStop_valid healed hsecond
  | true =>
      obtain ⟨begun, hcounted, hsome, hadds⟩ := hfull rfl
      rw [if_pos rfl]
      refine job_bind .cycle ?_
      rintro answer third ⟨hcycle, hkeeps⟩
      have hthird : Running third := hsecond.keeps hkeeps
      cases answer with
      | error error =>
          -- The error is reported, and the loop sleeps before it tries again.
          refine control_bind ?_
          rintro fourth _ _ hfourth hinvFourth rfl
          refine ⟨⟨hinvFourth.secure, hinvFourth.idle, hinvFourth.counted⟩, ?_⟩
          have hrunningFourth : Running fourth := Running.keeps hfourth.keeps hthird
          refine control_bind ?_
          rintro fifth lastCycle _ hfifth hinvFifth ⟨-, rfl⟩
          have hrunningFifth : Running fifth := Running.keeps hfifth.keeps hrunningFourth
          exact ⟨hinvFifth.of_same rfl rfl, sleepOrStop_valid _ hrunningFifth⟩
      | ok count =>
          -- The next round follows at once, so the rows must have become fewer.
          have hcycleBegun : CycleSettles prim config begun count third.daemon.world :=
            (hcycle count rfl rfl).begin hadds
          refine control_bind ?_
          rintro fourth lastCycle _ hfourth hinvFourth ⟨-, rfl⟩
          refine ⟨hinvFourth.of_same rfl rfl, ?_⟩
          refine control_bind ?_
          rintro fifth now after hfifth hinvFifth rfl
          refine ⟨hinvFifth, ?_⟩
          refine control_bind ?_
          rintro last _ _ hlast hinvLast rfl
          -- The report counts the cycle that has just ended.
          have hfourthAfter : fourth.Aside last := by
            have hsame : fourth.Aside after :=
              ⟨hfifth.adds, hfifth.status, hfifth.stopSeen, hfifth.drainError⟩
            exact hsame.trans hlast
          have haside : third.Aside last := hfourth.trans hfourthAfter
          have hreported : Counted config start (second.status.recordsPublished + count)
              (second.status.cyclesCompleted + 1) last.daemon.world :=
            hcounted.cycle (hcycleBegun.settles haside.adds.settles) hsome hinvLast.secure.inv
          have hstatus : last.status = second.status := haside.status.trans hkeeps.status
          refine ⟨⟨hinvLast.secure, hinvLast.idle, ?_⟩, fun hnone => ?_, fun _ => ?_⟩
          · rw [hstatus]
            exact hreported
          · cases hnone
          · have hrunningLast : Running last := Running.keeps haside.keeps hthird
            exact hrunningLast

theorem rounds_valid (maxInterval count : Nat) (timers : Timers) {state : LoopState}
    (hrunning : Running state) :
    Valid (loopSetting prim config faults start)
      (fun stopped after => stopped = true → Drained config faults after) (fun _ _ => False)
      ((rounds config maxInterval count timers).interpret (implement prim config)) state := by
  induction count generalizing timers state with
  | zero =>
      intro hfalse
      cases hfalse
  | succ count ih =>
      rw [rounds, Prog.interpret_bind]
      apply Valid.bind
      refine Valid.mono ?_ (fun _ _ hfalse => hfalse) (round_valid maxInterval timers hrunning)
      rintro next after ⟨hstopped, hgoes⟩
      cases next with
      | none => exact fun _ => hstopped rfl
      | some timers => exact ih timers (hgoes (Option.some_ne_none timers))

theorem publisherCalls_valid (maxInterval count : Nat) {state : LoopState}
    (hrunning : Running state) :
    Valid (loopSetting prim config faults start)
      (fun stopped after => stopped = true → Drained config faults after) (fun _ _ => False)
      (publisherCalls prim config maxInterval count) state := by
  rw [publisherCalls, publisherRun]
  refine job_bind .seed ?_
  intro _ seeded hseeded
  refine job_bind .heal ?_
  intro _ healed hhealed
  have hready : Running healed := (hrunning.keeps hseeded.2).keeps hhealed.2
  refine control_bind ?_
  rintro first lastCycle _ hfirst hinvFirst ⟨-, rfl⟩
  refine ⟨hinvFirst.of_same rfl rfl, ?_⟩
  have hrunningFirst : Running first := Running.keeps hfirst.keeps hready
  refine control_bind ?_
  rintro second lastHeal _ hsecond hinvSecond ⟨-, rfl⟩
  have hrunningSecond : Running second := Running.keeps hsecond.keeps hrunningFirst
  exact ⟨hinvSecond.of_same rfl rfl, rounds_valid maxInterval count _ hrunningSecond⟩

/-! ## Every run of the loop -/

/-- A step that leaves the publisher idle only adds. -/
theorem adds_of_idle {state next : DaemonState}
    (hstate : (settling prim config faults).Secure state) (hidle : state.publisher = none)
    (hstep : SystemStep prim lib config faults state next) (hnext : next.publisher = none) :
    state.world.Adds next.world := by
  cases hstep with
  | receive request => exact .refl _
  | request running answered =>
      have hmember := hstate.requests _ (List.mem_of_getElem? running)
      obtain ⟨-, hguar, -⟩ := hmember state.world (World.Adds.refl _).settles hstate.inv _ _
        ⟨answered, trivial⟩
      exact hguar
  | start idle task => cases hnext
  | publish running answered =>
      rw [hidle] at running
      cases running
  | finish => exact .refl _
  | abandon number activeWrites =>
      exact ((settling prim config faults).quiet state.world activeWrites trivial hstate.inv).2
  | commit running answered =>
      have hmember := hstate.detached _ (List.mem_of_getElem? running)
      obtain ⟨-, hguar, -⟩ := hmember state.world (World.Adds.refl _).settles hstate.inv _ _
        ⟨answered, trivial⟩
      exact hguar
  | discard number => exact .refl _
  | stray blob => exact ((settling prim config faults).stray state.world blob trivial hstate.inv).2
  | requeue key => exact ((settling prim config faults).requeue state.world key hstate.inv).2
  | crash => exact ((settling prim config faults).quiet state.world 0 trivial hstate.inv).2

/-- What is left of the loop is verified from wherever it has come to. -/
theorem publisherCalls_turns {daemon : DaemonState}
    (hreachable : Reachable prim lib config faults daemon) (hidle : daemon.publisher = none)
    {maxInterval count clock : Nat} {rest : CallProg Bool} {final : LoopState}
    (hturns : LoopTurns prim lib config faults
      (publisherCalls prim config maxInterval count, daemon.launched clock) (rest, final)) :
    LoopSecure prim config faults daemon.world final ∧
      Valid (loopSetting prim config faults daemon.world)
        (fun stopped after => stopped = true → Drained config faults after) (fun _ _ => False)
        rest final := by
  have hstart : LoopSecure prim config faults daemon.world (daemon.launched clock) :=
    ⟨secure_settling hreachable, hidle, .start daemon.world⟩
  have hrunning : Running (daemon.launched clock) := ⟨rfl, rfl⟩
  have hothers : ∀ before later, OtherStep prim lib config faults before later → True →
      LoopSecure prim config faults daemon.world before →
      LoopSecure prim config faults daemon.world later ∧ before.Aside later := by
    rintro before later ⟨hstep, hnext, hlater⟩ - hbefore
    have hadds := adds_of_idle hbefore.secure hbefore.idle hstep hnext
    have hsecure := (Discipline.secure_step (fun request _ _ => handle_settles request)
      (fun task _ world _ => task_settles task world) (fun _ _ _ _ => trivial) hstep hstep.starts
      trivial hbefore.secure).1
    have haside : before.Aside later := by
      refine ⟨hadds, ?_, ?_, ?_⟩
      · rw [hlater]
      · rw [hlater]
      · rw [hlater]
    refine ⟨⟨hsecure, hnext, ?_⟩, haside⟩
    rw [haside.status]
    exact hbefore.counted.later hadds.later hsecure.inv
  have hstable : ∀ (stopped : Bool) (before later : LoopState), before.Aside later →
      (stopped = true → Drained config faults before) → stopped = true →
        Drained config faults later :=
    fun _ _ _ haside hdrained hstopped => (hdrained hstopped).aside haside
  exact Valid.turns (S := loopSetting prim config faults daemon.world) (fun _ => True)
    (fun _ _ _ _ _ _ => trivial) (fun _ _ _ _ => trivial) (fun _ _ _ _ hstep _ => hstep) hothers
    hstable (fun _ _ _ _ hfalse => hfalse) hturns trivial hstart
    (publisherCalls_valid maxInterval count hrunning)

/-- The counters never overstate. Since the loop was started, at least as many rows have left
the queue as records were reported to be published, and as cycles were reported if a cycle
takes any row at all. -/
theorem status_counts {daemon : DaemonState}
    (hreachable : Reachable prim lib config faults daemon) (hidle : daemon.publisher = none)
    {maxInterval count clock : Nat} {rest : CallProg Bool} {final : LoopState}
    (hturns : LoopTurns prim lib config faults
      (publisherCalls prim config maxInterval count, daemon.launched clock) (rest, final)) :
    final.status.recordsPublished + final.daemon.world.index.queue.size +
        daemon.world.index.nextSeq ≤
      daemon.world.index.queue.size + final.daemon.world.index.nextSeq ∧
    (0 < config.publishMaxPending →
      final.status.cyclesCompleted + final.daemon.world.index.queue.size +
          daemon.world.index.nextSeq ≤
        daemon.world.index.queue.size + final.daemon.world.index.nextSeq) := by
  obtain ⟨hrecords, hcycles⟩ := (publisherCalls_turns hreachable hidle hturns).1.counted
  exact ⟨hrecords, hcycles⟩

/-- A loop that has stopped was told to, and no record from then is pending, if its drain
could read the index and was not reported to fail, and one cycle takes as many rows as were
queued. -/
theorem stopped_drained {daemon : DaemonState}
    (hreachable : Reachable prim lib config faults daemon) (hidle : daemon.publisher = none)
    {maxInterval count clock : Nat} {final : LoopState}
    (hturns : LoopTurns prim lib config faults
      (publisherCalls prim config maxInterval count, daemon.launched clock) (.pure true, final)) :
    ∃ noticed, final.stopSeen = some noticed ∧ (¬faults.index → final.drainError = none →
      noticed.index.queue.size ≤ config.publishMaxPending →
        ∀ (key : String) (record : IndexRecord), noticed.index.records[key]? = some record →
          final.daemon.world.index.Settled key) :=
  (publisherCalls_turns hreachable hidle hturns).2 rfl

end Counting

/-! ## Two runs of the loop -/

/-- The loop without faults, told to stop at its first sleep. -/
def Primitives.loopHandler (prim : Primitives) (clock : Timestamp) : Prog.Handler callSig LoopState
  | .daemon op, state =>
      let (response, world) := prim.daemonHandler clock op state.daemon.world
      (response, { state with daemon := { state.daemon with world := world } })
  | .loadDenylist, state => (∅, state)
  | .control .instant, state => (state.clock, state)
  | .control .queueDepth, state => (state.daemon.world.index.queue.size, state)
  | .control .sleep, state => ((), state)
  | .control .shutdown, state => (true, { state with stopSeen := some state.daemon.world })
  | .control .utcNow, state => (clock, state)
  | .control (.report update), state => ((), { state with status := update state.status })
  | .control (.drainFailed error), state => ((), { state with drainError := some error })

theorem callStep_loopHandler (prim : Primitives) (faults : Faults) (clock : Timestamp) (op : CallOp)
    (state : LoopState) :
    CallStep prim faults op state (prim.loopHandler clock op state).1
      (prim.loopHandler clock op state).2 := by
  cases op with
  | daemon op => exact ⟨prim.daemonStep_daemonHandler faults clock op state.daemon.world, rfl⟩
  | loadDenylist => rfl
  | control op =>
      cases op with
      | instant => exact ⟨le_rfl, rfl⟩
      | queueDepth => exact ⟨rfl, Or.inl rfl⟩
      | sleep => rfl
      | shutdown => rfl
      | utcNow => rfl
      | report update => rfl
      | drainFailed error => rfl

theorem loopHandler_turns (prim : Primitives) (lib : Libraries) (config : Config) (faults : Faults)
    (clock : Timestamp) (prog : CallProg Bool) (state : LoopState) :
    LoopTurns prim lib config faults (prog, state)
      ((prog.run (prim.loopHandler clock) state).1.prog,
        (prog.run (prim.loopHandler clock) state).2) := by
  refine Prog.Runs.turns ((Prog.run_runs (prim.loopHandler clock) prog state).imp ?_)
  rintro op before response after hcall
  have hstep := callStep_loopHandler prim faults clock op before
  rwa [hcall] at hstep

namespace Sample

/-- Two rounds of the loop, which waits so long with few rows. -/
def looped (maxInterval : Nat) : Prog.Outcome Empty Bool × LoopState :=
  (publisherCalls prim single maxInterval 2).run (prim.loopHandler createdAt) (accepted.launched 0)

end Sample

/-- Both rows are published at once, and counted. -/
theorem status_counts_sample :
    (Sample.looped 0).2.status.recordsPublished = 2 ∧
    (Sample.looped 0).2.status.cyclesCompleted = 1 ∧
      2 + (Sample.looped 0).2.daemon.world.index.queue.size + Sample.accepted.world.index.nextSeq ≤
        Sample.accepted.world.index.queue.size +
          (Sample.looped 0).2.daemon.world.index.nextSeq := by
  have hcounts : (Sample.looped 0).2.status.recordsPublished = 2 ∧
      (Sample.looped 0).2.status.cyclesCompleted = 1 := by decide +kernel
  have hturns : LoopTurns Sample.prim Sample.lib Sample.single .all
      (publisherCalls Sample.prim Sample.single 0 2, Sample.accepted.launched 0)
      ((Sample.looped 0).1.prog, (Sample.looped 0).2) :=
    loopHandler_turns Sample.prim Sample.lib Sample.single .all Sample.createdAt _ _
  obtain ⟨hrecords, -⟩ := status_counts (Sample.accepted_reachable .all) rfl hturns
  rw [hcounts.1] at hrecords
  exact ⟨hcounts.1, hcounts.2, hrecords⟩

/-- The rows were not due, so the final drain publishes them. -/
theorem stopped_drained_sample :
    (Sample.looped 1).1 = .ok true ∧ (Sample.looped 1).2.status.cyclesCompleted = 0 ∧
      (Sample.looped 1).2.daemon.world.index.Settled Sample.firstKey := by
  have hfacts : (Sample.looped 1).1 = .ok true ∧ (Sample.looped 1).2.status.cyclesCompleted = 0 ∧
      (Sample.looped 1).2.drainError = none ∧
      ((Sample.looped 1).2.stopSeen.map fun world => world.index.queue.size) = some 2 ∧
      ((Sample.looped 1).2.stopSeen.bind fun world =>
        world.index.records[Sample.firstKey]?).isSome = true := by decide +kernel
  obtain ⟨houtcome, hcycles, herror, hsize, hrecord⟩ := hfacts
  have hturns : LoopTurns Sample.prim Sample.lib Sample.single .none
      (publisherCalls Sample.prim Sample.single 1 2, Sample.accepted.launched 0)
      ((Sample.looped 1).1.prog, (Sample.looped 1).2) :=
    loopHandler_turns Sample.prim Sample.lib Sample.single .none Sample.createdAt _ _
  rw [houtcome] at hturns
  obtain ⟨noticed, hseen, hsettled⟩ :=
    stopped_drained (Sample.accepted_reachable .none) rfl hturns
  rw [hseen] at hsize hrecord
  obtain ⟨record, hnoticed⟩ := Option.isSome_iff_exists.mp hrecord
  have hfits : noticed.index.queue.size ≤ Sample.single.publishMaxPending := by
    rw [show noticed.index.queue.size = 2 from Option.some.inj hsize]
    decide
  exact ⟨houtcome, hcycles, hsettled id herror hfits Sample.firstKey record hnoticed⟩

end Registry

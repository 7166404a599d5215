import Registry.Daemon.Loop

/-! # The loop is one of the schedules

The daemon's model lets the publisher start any task whenever it is idle. The
loop starts its tasks by its own program. Each of its runs is a run of that model.
-/

namespace Registry

open Effect

section Steps

variable {prim : Primitives} {lib : Libraries} {config : Config} {faults : Faults}

variable (prim config) in
/-- What is left of the loop, and the task that the publisher is busy with. -/
inductive Tracks : CallProg Bool → Option (DaemonProg Nat) → Prop
  | idle (loop : LoopProg Bool) : Tracks (loop.interpret (implement prim config)) none
  | busy (task : DaemonProg Nat) (next : Except DaemonError Nat → LoopProg Bool) :
      Tracks (onDaemon task >>= fun answer => (next answer).interpret (implement prim config))
        (some task)

/-- The daemon next to the loop, its publisher busy with a task. -/
def LoopState.scheduled (state : LoopState) (publisher : Option (DaemonProg Nat)) : DaemonState :=
  { state.daemon with publisher := publisher }

variable (prim lib config faults) in
/-- The next operation of the loop is one that a scheduled publisher may reach. -/
def Follows (prog : CallProg Bool) (publisher : Option (DaemonProg Nat)) : Prop :=
  ∀ (op : CallOp) (rest : callSig.Res op → CallProg Bool) (before : LoopState)
    (response : callSig.Res op) (after : LoopState), prog = .call op rest →
    CallStep prim faults op before response after →
      ∃ later, Tracks prim config (rest response) later ∧
        SystemSteps prim lib config faults (before.scheduled publisher) (after.scheduled later)

theorem ControlStep.daemon {op : ControlOp} {before after : LoopState} {response : op.Answer}
    (hstep : ControlStep faults op before response after) : after.daemon = before.daemon := by
  cases op with
  | instant =>
      obtain ⟨-, rfl⟩ := hstep
      rfl
  | queueDepth =>
      obtain ⟨rfl, -⟩ := hstep
      rfl
  | sleep =>
      obtain rfl : after = before := hstep
      rfl
  | shutdown =>
      rw [show after = if response then { before with stopSeen := some before.daemon.world }
        else before from hstep]
      split <;> rfl
  | utcNow =>
      obtain rfl : after = before := hstep
      rfl
  | report update =>
      rw [show after = { before with status := update before.status } from hstep]
  | drainFailed error =>
      rw [show after = { before with drainError := some error } from hstep]

/-- A task takes its next operation, or ends and leaves the publisher idle. -/
theorem busy_follows (task : DaemonProg Nat) (next : Except DaemonError Nat → LoopProg Bool)
    (hnext : ∀ answer, Follows prim lib config faults
      ((next answer).interpret (implement prim config)) none) :
    Follows prim lib config faults
      (onDaemon task >>= fun answer => (next answer).interpret (implement prim config))
      (some task) := by
  intro op rest before response after hprog hstep
  cases task with
  | pure count =>
      obtain ⟨later, htracks, hsteps⟩ := hnext (.ok count) op rest before response after hprog hstep
      exact ⟨later, htracks, .head (.finish _) hsteps⟩
  | throw error =>
      obtain ⟨later, htracks, hsteps⟩ :=
        hnext (.error error) op rest before response after hprog hstep
      exact ⟨later, htracks, .head (.finish _) hsteps⟩
  | diverge => cases hprog
  | call daemonOp taskRest =>
      have hcall : Prog.call (CallOp.daemon daemonOp) (fun answer => onDaemon (taskRest answer) >>=
          fun answer => (next answer).interpret (implement prim config)) = .call op rest := hprog
      cases hcall
      obtain ⟨hanswered, hafter⟩ := hstep
      refine ⟨some (taskRest response), .busy (taskRest response) next, .single ?_⟩
      have hdaemon : after.daemon = { before.daemon with world := after.daemon.world } :=
        congrArg LoopState.daemon hafter
      have hscheduled : after.scheduled (some (taskRest response)) =
          { before.scheduled (some (.call daemonOp taskRest)) with
            world := after.daemon.world
            publisher := some (taskRest response) } := by
        rw [LoopState.scheduled, hdaemon]
        rfl
      rw [hscheduled]
      exact .publish rfl hanswered

/-- The loop does something of its own, or starts a task. -/
theorem idle_follows (loop : LoopProg Bool) :
    Follows prim lib config faults (loop.interpret (implement prim config)) none := by
  induction loop with
  | pure value =>
      intro op rest before response after hprog
      cases hprog
  | throw error => exact error.elim
  | diverge =>
      intro op rest before response after hprog
      cases hprog
  | call loopOp next ih =>
      cases loopOp with
      | control control =>
          intro op rest before response after hprog hstep
          have hcall : Prog.call (CallOp.control control) (fun answer =>
              (next answer).interpret (implement prim config)) = .call op rest := hprog
          cases hcall
          refine ⟨none, .idle (next response), ?_⟩
          rw [LoopState.scheduled, LoopState.scheduled, ControlStep.daemon hstep]
      | job job =>
          -- A job whose task is over at once is followed by what comes after it.
          have hstart : ∀ task : PublisherTask, Follows prim lib config faults
              (onDaemon (task.prog prim config) >>= fun answer =>
                (next answer).interpret (implement prim config)) none := by
            intro task op rest before response after hprog hstep
            obtain ⟨later, htracks, hsteps⟩ := busy_follows (task.prog prim config) next ih op rest
              before response after hprog hstep
            exact ⟨later, htracks, .head (.start rfl task) hsteps⟩
          cases job with
          | seed => exact hstart .seed
          | heal => exact hstart .heal
          | cycle =>
              intro op rest before response after hprog hstep
              have hcall : Prog.call CallOp.loadDenylist (fun denylist =>
                  onDaemon (prim.publishCycle config denylist) >>= fun answer =>
                    (next answer).interpret (implement prim config)) = .call op rest := hprog
              cases hcall
              obtain rfl : after = before := hstep
              exact ⟨some (prim.publishCycle config response), .busy _ next,
                .single (.start rfl (.cycle response))⟩

theorem Tracks.follows {prog : CallProg Bool} {publisher : Option (DaemonProg Nat)}
    (htracks : Tracks prim config prog publisher) :
    Follows prim lib config faults prog publisher := by
  cases htracks with
  | idle loop => exact idle_follows loop
  | busy task next => exact busy_follows task next fun answer => idle_follows (next answer)

/-- All detached transactions may be discarded, one after the other. -/
theorem systemSteps_discard (state : DaemonState) :
    SystemSteps prim lib config faults state { state with detached := [] } := by
  obtain ⟨world, publisher, requests, detached⟩ := state
  induction detached with
  | nil => exact .refl
  | cons op rest ih => exact .head (.discard _ 0) ih

/-- All requests may be abandoned, one after the other, and then what they leave. -/
theorem systemSteps_abandon (state : DaemonState) :
    SystemSteps prim lib config faults state
      { state with
        world := { state.world with activeWrites := 0 }
        requests := []
        detached := [] } := by
  obtain ⟨world, publisher, requests, detached⟩ := state
  induction requests generalizing world detached with
  | nil => exact .head (.abandon _ 0 0) (systemSteps_discard _)
  | cons prog rest ih => exact .head (.abandon _ 0 0) (ih { world with activeWrites := 0 } _)

/-- The other tasks do next to a busy publisher what they do next to an idle one. -/
theorem systemSteps_beside {state next : DaemonState} (hidle : state.publisher = none)
    (hstep : SystemStep prim lib config faults state next) (hnext : next.publisher = none)
    (publisher : Option (DaemonProg Nat)) :
    SystemSteps prim lib config faults { state with publisher := publisher }
      { next with publisher := publisher } := by
  cases hstep with
  | receive request => exact .single (.receive { state with publisher := publisher } request)
  | request running answered =>
      refine .single ?_
      exact .request running answered
  | start idle task => cases hnext
  | publish running answered =>
      rw [hidle] at running
      cases running
  | finish => exact .refl
  | abandon number activeWrites =>
      exact .single (.abandon { state with publisher := publisher } number activeWrites)
  | commit running answered =>
      refine .single ?_
      exact .commit running answered
  | discard number => exact .single (.discard { state with publisher := publisher } number)
  | stray blob => exact .single (.stray { state with publisher := publisher } blob)
  | requeue key => exact .single (.requeue { state with publisher := publisher } key)
  -- The loop outlives this step, so it counts as requests that were dropped.
  | crash => exact systemSteps_abandon { state with publisher := publisher }

/-- A run of what is left of the loop, with its scheduled publisher. -/
theorem tracks_turns {prog rest : CallProg Bool} {before after : LoopState}
    {publisher : Option (DaemonProg Nat)} (htracks : Tracks prim config prog publisher)
    (hidle : before.daemon.publisher = none)
    (hturns : LoopTurns prim lib config faults (prog, before) (rest, after)) :
    after.daemon.publisher = none ∧ ∃ later, Tracks prim config rest later ∧
      SystemSteps prim lib config faults (before.scheduled publisher) (after.scheduled later) := by
  generalize hstart : (prog, before) = start at hturns
  generalize hend : (rest, after) = ending at hturns
  induction hturns generalizing rest after with
  | refl =>
      cases hstart
      cases hend
      exact ⟨hidle, publisher, htracks, .refl⟩
  | tail _ hturn ih =>
      cases hturn with
      | @call op next middle last response answered =>
          cases hend
          obtain ⟨hmiddle, current, hcurrent, hsteps⟩ := ih rfl
          obtain ⟨later, hlater, hmore⟩ :=
            hcurrent.follows op next middle response after rfl answered
          refine ⟨?_, later, hlater, hsteps.trans hmore⟩
          cases op with
          | daemon op =>
              rw [answered.2]
              exact hmiddle
          | loadDenylist =>
              rw [show after = middle from answered]
              exact hmiddle
          | control op =>
              rw [ControlStep.daemon answered]
              exact hmiddle
      | @other prog middle last moved =>
          cases hend
          obtain ⟨hmiddle, current, hcurrent, hsteps⟩ := ih rfl
          obtain ⟨hstep, hnone, -⟩ := moved
          exact ⟨hnone, current, hcurrent,
            hsteps.trans (systemSteps_beside hmiddle hstep hnone current)⟩

/-- Every run of the publisher loop next to the daemon's other tasks is a run of the daemon
with a scheduled publisher. -/
theorem loop_scheduled {daemon : DaemonState} (hidle : daemon.publisher = none)
    {maxInterval count clock : Nat} {rest : CallProg Bool} {final : LoopState}
    (hturns : LoopTurns prim lib config faults
      (publisherCalls prim config maxInterval count, daemon.launched clock) (rest, final)) :
    SystemSteps prim lib config faults daemon final.daemon := by
  obtain ⟨hnone, later, -, hsteps⟩ :=
    tracks_turns (.idle (publisherRun config maxInterval count)) hidle hturns
  have hstart : (daemon.launched clock).scheduled none = daemon := by
    obtain ⟨world, publisher, requests, detached⟩ := daemon
    obtain rfl : publisher = none := hidle
    rfl
  have hend : { final.scheduled later with publisher := none } = final.daemon := by
    rw [← hnone]
    rfl
  rw [hstart] at hsteps
  rw [← hend]
  exact hsteps.tail (.finish _)

end Steps

/-- The two rounds that publish the queued records are a run of the daemon. -/
theorem loop_scheduled_sample :
    (Sample.looped 0).2.status.recordsPublished = 2 ∧
      SystemSteps Sample.prim Sample.lib Sample.single .none Sample.accepted
        (Sample.looped 0).2.daemon :=
  ⟨by decide +kernel, loop_scheduled rfl (loopHandler_turns Sample.prim Sample.lib Sample.single
    .none Sample.createdAt (publisherCalls Sample.prim Sample.single 0 2)
    (Sample.accepted.launched 0))⟩

end Registry

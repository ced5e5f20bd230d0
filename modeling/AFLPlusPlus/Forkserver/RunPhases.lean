import AFLPlusPlus.Forkserver.Child

/-!
# The phases of a run

Once the handshake is over, one request at a time is on its way: the word that
asks for a run, then its process id, then its status.  `RunPhase` lists where
they can be, with what the target knows about its child.  Every move leads from
one phase to another.
-/

namespace AFLPlusPlus

/-- The log of a session: of the runs requested the first ones were started, in
that order, only a stopped child was ever continued, and the process ids and
statuses read so far belong to the first runs, in that order too. -/
structure RunLog.Serves (session : Session) (log : RunLog)
    (requested started named reported : Nat) : Prop where
  requests : log.requests = requested
  starts : log.starts.map Start.origin = (List.range started).map .request
  resumed : ∀ start ∈ log.starts, start.resumed = true →
    session.persistent = true ∧ start.child = some .stopped
  pids : log.pids = (List.range named).map some
  statuses : log.statuses = (List.range reported).map some

/-- Every run was started by a request of its own, only a child that lived and
was stopped was continued, and each run got its process id and its status. -/
structure RunLog.InOrder (session : Session) (log : RunLog) : Prop where
  starts : log.starts.map Start.origin = (List.range log.starts.length).map .request
  resumed : ∀ start ∈ log.starts, start.resumed = true →
    session.persistent = true ∧ start.child = some .stopped
  pids : log.pids = (List.range log.pids.length).map some
  statuses : log.statuses = (List.range log.statuses.length).map some

namespace RunLog.Serves

variable {session : Session} {log : RunLog}
  {requested started named reported : Nat}

theorem request
    (serves : log.Serves session requested started named reported) :
    { log with requests := log.requests + 1 }.Serves session (requested + 1)
      started named reported :=
  { serves with requests := congrArg (· + 1) serves.requests }

theorem start {origin : Origin} {resumed : Bool} {child : Option ChildState}
    (serves : log.Serves session requested started named reported)
    (isNext : origin = .request started)
    (alive : resumed = true → session.persistent = true ∧ child = some .stopped) :
    RunLog.Serves session
      { log with starts := log.starts ++ [⟨origin, resumed, child⟩] }
      requested (started + 1) named reported := by
  refine { serves with starts := ?_, resumed := ?_ }
  · rw [List.map_append, serves.starts, List.range_succ, List.map_append]
    simp [isNext]
  · intro start isStart
    rcases List.mem_append.mp isStart with earlier | last
    · exact serves.resumed start earlier
    · rw [List.mem_singleton.mp last]
      exact alive

section

variable (serves : log.Serves session requested started named reported)
include serves

theorem pid :
    { log with pids := log.pids ++ [some named] }.Serves session requested
      started (named + 1) reported := by
  refine { serves with pids := ?_ }
  rw [serves.pids, List.range_succ, List.map_append]
  rfl

theorem status :
    { log with statuses := log.statuses ++ [some reported] }.Serves session
      requested started named (reported + 1) := by
  refine { serves with statuses := ?_ }
  rw [serves.statuses, List.range_succ, List.map_append]
  rfl

theorem starts_length : log.starts.length = started := by
  have lengths := congrArg List.length serves.starts
  simpa using lengths

theorem pids_length : log.pids.length = named := by
  simp [serves.pids]

theorem statuses_length : log.statuses.length = reported := by
  simp [serves.statuses]

theorem inOrder : log.InOrder session where
  starts := by rw [serves.starts_length, serves.starts]
  resumed := serves.resumed
  pids := by rw [serves.pids_length, serves.pids]
  statuses := by rw [serves.statuses_length, serves.statuses]

end

end RunLog.Serves

namespace RunPhase

/-- No request is on its way. -/
structure Idle (session : Session) (system : System) (runs : Nat) : Prop where
  server : system.ServerAt .idle
  target : system.target = .loop
  ctl : system.ctl = []
  st : system.st = []
  serves : system.log.Serves session runs runs runs runs
  child : system.ChildFits session system.lastRunTimedOut
  already : system.alreadyReadFirst = false

/-- The request is in the control pipe. -/
structure Asked (session : Session) (system : System) (run : Nat)
    (word : ControlWord) : Prop where
  server : system.ServerAt .waitPid
  target : system.target = .loop
  ctl : system.ctl = [word]
  st : system.st = []
  origin : word.origin = .request run
  patient : system.lastRunTimedOut = false
  serves : system.log.Serves session (run + 1) run run run
  child : system.ChildFits session (decide (word.value ≠ 0#32))
  already : system.alreadyReadFirst = false

/-- The target has the request. -/
structure Taken (session : Session) (system : System) (run : Nat) : Prop where
  server : system.ServerAt .waitPid
  target : system.HoldsRequest
  ctl : system.ctl = []
  st : system.st = []
  origin : system.wasKilled.origin = .request run
  patient : system.lastRunTimedOut = false
  serves : system.log.Serves session (run + 1) run run run
  child : system.ChildFits session (decide (system.wasKilled.value ≠ 0#32))
  already : system.alreadyReadFirst = false

/-- The run has started. -/
structure Started (session : Session) (system : System) (run : Nat) : Prop where
  server : system.ServerAt .waitPid
  target : system.target = .sendPid
  ctl : system.ctl = []
  st : system.st = []
  serves : system.log.Serves session (run + 1) (run + 1) run run
  child : system.ChildFits session system.lastRunTimedOut
  already : system.alreadyReadFirst = false

/-- The process id is in the status pipe. -/
structure PidSent (session : Session) (system : System) (run : Nat)
    (pid : Pid) : Prop where
  server : system.ServerAt .waitPid
  target : system.AwaitsChild
  ctl : system.ctl = []
  st : system.st = [.pid run pid.value]
  isPid : pid.value = system.childPid
  serves : system.log.Serves session (run + 1) (run + 1) run run
  child : system.ChildFits session system.lastRunTimedOut
  already : system.alreadyReadFirst = false

/-- The process id and the status are in the status pipe. -/
structure BothSent (session : Session) (system : System) (run : Nat)
    (pid : Pid) (status : BitVec 32) : Prop where
  server : system.ServerAt .waitPid
  target : system.target = .loop
  ctl : system.ctl = []
  st : system.st = [.pid run pid.value, .status run status]
  isPid : pid.value = system.childPid
  serves : system.log.Serves session (run + 1) (run + 1) run run
  child : system.ChildFits session system.lastRunTimedOut
  already : system.alreadyReadFirst = false

/-- The fuzzer has the process id. -/
structure Waiting (session : Session) (system : System) (run : Nat) : Prop where
  server : system.AwaitsStatus
  target : system.AwaitsChild
  ctl : system.ctl = []
  st : system.st = []
  known : system.fsrvChildPid = system.childPid
  serves : system.log.Serves session (run + 1) (run + 1) (run + 1) run
  child : system.ChildFits session system.lastRunTimedOut
  already : system.alreadyReadFirst = false

/-- The status is in the status pipe. -/
structure Answered (session : Session) (system : System) (run : Nat)
    (status : BitVec 32) : Prop where
  server : system.AwaitsStatus
  target : system.target = .loop
  ctl : system.ctl = []
  st : system.st = [.status run status]
  known : system.fsrvChildPid = system.childPid
  serves : system.log.Serves session (run + 1) (run + 1) (run + 1) run
  child : system.ChildFits session system.lastRunTimedOut
  already : system.alreadyReadFirst = false

end RunPhase

/-- Where a request and its answers can be. -/
inductive RunPhase (session : Session) (system : System) : Prop
  | idle (runs : Nat) (facts : RunPhase.Idle session system runs)
  | asked (run : Nat) (word : ControlWord)
      (facts : RunPhase.Asked session system run word)
  | taken (run : Nat) (facts : RunPhase.Taken session system run)
  | started (run : Nat) (facts : RunPhase.Started session system run)
  | pidSent (run : Nat) (pid : Pid)
      (facts : RunPhase.PidSent session system run pid)
  | bothSent (run : Nat) (pid : Pid) (status : BitVec 32)
      (facts : RunPhase.BothSent session system run pid status)
  | waiting (run : Nat) (facts : RunPhase.Waiting session system run)
  | answered (run : Nat) (status : BitVec 32)
      (facts : RunPhase.Answered session system run status)

/-- What neither side of the protocol does: the child changes its state, or the
fuzzer stops. -/
def Move.outside : Move → Bool
  | .serverGiveUp | .childExit _ | .childStop => true
  | _ => false

variable {run : Nat}

section Step

variable {session : Session} {system next : System} {move : Move}

section

variable (phase : RunPhase session system)
include phase

theorem RunPhase.giveUp : RunPhase session { system with server := .over } := by
  cases phase with
  | idle runs facts => exact .idle runs { facts with server := .inr rfl }
  | asked run word facts =>
      exact .asked run word { facts with server := .inr rfl }
  | taken run facts => exact .taken run { facts with server := .inr rfl }
  | started run facts => exact .started run { facts with server := .inr rfl }
  | pidSent run pid facts =>
      exact .pidSent run pid { facts with server := .inr rfl }
  | bothSent run pid status facts =>
      exact .bothSent run pid status { facts with server := .inr rfl }
  | waiting run facts =>
      exact .waiting run { facts with server := .inl (.inr rfl) }
  | answered run status facts =>
      exact .answered run status { facts with server := .inl (.inr rfl) }

theorem RunPhase.changeChild {after : ChildState}
    (changed : system.changeChild after = some next) : RunPhase session next := by
  obtain ⟨process, tracked, running, rfl⟩ := System.changeChild_some changed
  have notStopped : process.state ≠ .stopped := by
    rw [running]
    exact ChildState.noConfusion
  have fits : ∀ killed, system.ChildFits session killed →
      { system with child := some { process with state := after } }.ChildFits
        session killed := fun killed =>
    System.ChildFits.withState tracked (fun stopped => (notStopped stopped).elim)
      fun _ => notStopped
  cases phase with
  | idle runs facts =>
      exact .idle runs { facts with child := fits _ facts.child }
  | asked run word facts =>
      exact .asked run word { facts with child := fits _ facts.child }
  | taken run facts =>
      exact .taken run { facts with child := fits _ facts.child }
  | started run facts =>
      exact .started run { facts with child := fits _ facts.child }
  | pidSent run pid facts =>
      exact .pidSent run pid { facts with child := fits _ facts.child }
  | bothSent run pid status facts =>
      exact .bothSent run pid status
        { facts with child := fits _ facts.child }
  | waiting run facts =>
      exact .waiting run { facts with child := fits _ facts.child }
  | answered run status facts =>
      exact .answered run status { facts with child := fits _ facts.child }

theorem RunPhase.outside (outside : move.outside = true)
    (stepped : System.step session move system = some next) : RunPhase session next := by
  cases move with
  | serverGiveUp =>
      obtain rfl := Option.some.inj stepped
      exact phase.giveUp
  | childExit status => exact phase.changeChild stepped
  | childStop =>
      simp only [System.step] at stepped
      split at stepped
      · exact phase.changeChild stepped
      · cases stepped
  | _ => cases outside

end

section

variable (inside : move.outside = false)
    (stepped : System.step session move system = some next)
include inside stepped

theorem RunPhase.Idle.step {runs : Nat}
    (facts : RunPhase.Idle session system runs) : RunPhase session next := by
  obtain ⟨server, target, ctl, st, serves, child, already⟩ := facts
  cases move with
  | serverRequest =>
      rcases server with server | server
      · simp only [System.step, server, Option.some.injEq] at stepped
        subst stepped
        refine .asked runs
          ⟨if system.lastRunTimedOut then 1#32 else 0#32, .request runs⟩
          { server := .inl rfl, target, st, already, origin := rfl
            patient := rfl, ctl := ?_, serves := serves.request, child := ?_ }
        · simp [System.request, System.send, ctl, serves.requests]
        · have value : decide
              ((if system.lastRunTimedOut then 1#32 else 0#32) ≠ 0#32) =
              system.lastRunTimedOut := by
            cases system.lastRunTimedOut <;> decide
          rw [value]
          exact child
      · simp [System.step, server] at stepped
  | _ =>
      rcases server with server | server <;>
        simp [Move.outside, System.step, server, target, ctl, already]
          at inside stepped

theorem RunPhase.Asked.step {word : ControlWord}
    (facts : RunPhase.Asked session system run word) : RunPhase session next := by
  obtain ⟨server, target, ctl, st, origin, patient, serves, child, already⟩ := facts
  cases move with
  | targetRequest =>
      simp only [System.step, target, already, ctl, Bool.false_eq_true,
        if_false, Option.some.injEq] at stepped
      subst stepped
      unfold System.ChildFits at child
      rw [target] at child
      exact .taken run
        { server, target := .inl rfl, ctl := rfl, st, origin, patient, serves
          child, already := rfl }
  | _ =>
      rcases server with server | server <;>
        simp [Move.outside, System.step, server, target, st] at inside stepped

theorem RunPhase.Taken.step (facts : RunPhase.Taken session system run) :
    RunPhase session next := by
  obtain ⟨server, target, ctl, st, origin, patient, serves, child, already⟩ := facts
  cases move with
  | targetWake =>
      rcases target with target | target | target
      · simp only [System.step, target, Option.some.injEq] at stepped
        subst stepped
        unfold System.ChildFits at child
        rw [target] at child
        rcases child.wake with ⟨woken, fits⟩ | ⟨woken, fits⟩
        · rw [woken] at fits ⊢
          exact .taken run { server, ctl, st, origin, patient, serves, already
                             target := .inr (.inl rfl), child := fits }
        · rw [woken] at fits ⊢
          exact .taken run { server, ctl, st, origin, patient, serves, already
                             target := .inr (.inr rfl), child := fits }
      · simp [System.step, target] at stepped
      · simp [System.step, target] at stepped
  | targetReap =>
      rcases target with target | target | target
      · simp [System.step, target] at stepped
      · simp only [System.step, target] at stepped
        unfold System.ChildFits at child
        rw [target] at child
        obtain rfl := System.reap_some child stepped
        exact .taken run { server, ctl, st, origin, patient, serves, already
                           target := .inr (.inr rfl)
                           child := .inl ⟨child.1, rfl⟩ }
      · simp [System.step, target] at stepped
  | targetStart pid =>
      rcases target with target | target | target
      · simp [System.step, target] at stepped
      · simp [System.step, target] at stepped
      · simp only [System.step, target, Option.some.injEq] at stepped
        subst stepped
        unfold System.ChildFits at child
        rw [target] at child
        obtain ⟨process, childPid, resumed, started, working, alive⟩ :=
          child.startRun pid
        rw [started] at working ⊢
        exact .started run { server, ctl, st, already, target := rfl
                             serves := serves.start origin alive
                             child := working }
  | _ =>
      rcases server with server | server <;>
        rcases target with target | target | target <;>
        simp [Move.outside, System.step, server, target, st] at inside stepped

theorem RunPhase.Started.step (facts : RunPhase.Started session system run) :
    RunPhase session next := by
  obtain ⟨server, target, ctl, st, serves, child, already⟩ := facts
  cases move with
  | targetPid =>
      simp only [System.step, target, Option.some.injEq,
        serves.starts_length, Nat.add_sub_cancel] at stepped
      subst stepped
      unfold System.ChildFits at child
      rw [target] at child
      obtain ⟨notStopped, process, isChild, isPid⟩ := child
      refine .pidSent run process.pid
        { server, ctl, isPid, serves, already, target := .inl rfl, st := ?_
          child := ⟨notStopped, process, isChild, isPid⟩ }
      rw [st, isPid]
      rfl
  | _ =>
      rcases server with server | server <;>
        simp [Move.outside, System.step, server, target, st] at inside stepped

theorem RunPhase.PidSent.step {pid : Pid}
    (facts : RunPhase.PidSent session system run pid) : RunPhase session next := by
  obtain ⟨server, target, ctl, st, isPid, serves, child, already⟩ := facts
  cases move with
  | serverPid =>
      rcases server with server | server
      · simp only [System.step, server, st, StatusItem.word,
          Option.map_some, System.receivePid_pid, Option.some.injEq] at stepped
        subst stepped
        exact .waiting run { target, ctl, already, child
                             server := .inl (.inl rfl), st := rfl
                             known := isPid, serves := serves.pid }
      · simp [System.step, server] at stepped
  | targetWait =>
      obtain ⟨status, process, childStopped, rfl, fits⟩ := target.wait child stepped
      exact .pidSent run pid { server, ctl, st, isPid, serves, already
                               target := .inr ⟨status, rfl⟩, child := fits }
  | targetStatus =>
      obtain ⟨status, rfl, fits⟩ := target.status child stepped
      refine .bothSent run pid status
        { server, ctl, isPid, serves, already, target := rfl, st := ?_
          child := fits }
      simp [st, serves.starts_length]
  | _ =>
      rcases server with server | server <;>
        rcases target with target | ⟨status, target⟩ <;>
        simp [Move.outside, System.step, server, target] at inside stepped

theorem RunPhase.BothSent.step {pid : Pid} {status : BitVec 32}
    (facts : RunPhase.BothSent session system run pid status) :
    RunPhase session next := by
  obtain ⟨server, target, ctl, st, isPid, serves, child, already⟩ := facts
  cases move with
  | serverPid =>
      rcases server with server | server
      · simp only [System.step, server, st, StatusItem.word,
          Option.map_some, System.receivePid_pid, Option.some.injEq] at stepped
        subst stepped
        exact .answered run status
          { target, ctl, already, child, server := .inl (.inl rfl), st := rfl
            known := isPid, serves := serves.pid }
      · simp [System.step, server] at stepped
  | _ =>
      rcases server with server | server <;>
        simp [Move.outside, System.step, server, target, ctl, already]
          at inside stepped

theorem RunPhase.Waiting.step (facts : RunPhase.Waiting session system run) :
    RunPhase session next := by
  obtain ⟨server, target, ctl, st, known, serves, child, already⟩ := facts
  cases move with
  | serverTimeout effect =>
      have killed := System.step_timeout stepped
      have notStarting : system.target ≠ .starting := by
        rcases target with target | ⟨status, target⟩ <;>
          simp [target]
      have fits := child.kill notStarting killed
      obtain ⟨process, rfl, -⟩ := System.kill_some killed
      exact .waiting run
        { target, ctl, st, known, serves, already
          server := .inr (.inl rfl), child := fits }
  | targetWait =>
      obtain ⟨status, process, childStopped, rfl, fits⟩ := target.wait child stepped
      exact .waiting run { server, ctl, st, known, serves, already
                           target := .inr ⟨status, rfl⟩, child := fits }
  | targetStatus =>
      obtain ⟨status, rfl, fits⟩ := target.status child stepped
      refine .answered run status
        { server, ctl, known, serves, already, target := rfl, st := ?_
          child := fits }
      simp [st, serves.starts_length]
  | _ =>
      rcases server with (server | server) | (server | server) <;>
        rcases target with target | ⟨status, target⟩ <;>
        simp [Move.outside, System.step, server, target, st] at inside stepped

theorem RunPhase.Answered.step {status : BitVec 32}
    (facts : RunPhase.Answered session system run status) : RunPhase session next := by
  obtain ⟨server, target, ctl, st, known, serves, child, already⟩ := facts
  cases move with
  | serverTimeout effect =>
      have killed := System.step_timeout stepped
      have fits := child.kill (by simp [target]) killed
      obtain ⟨process, rfl, -⟩ := System.kill_some killed
      exact .answered run status
        { target, ctl, st, known, serves, already
          server := .inr (.inl rfl), child := fits }
  | serverStatus =>
      have received : next = { system with st := [] }.receiveStatus
          (.status run status) status := by
        rcases server with (server | server) | (server | server) <;>
          simp [System.step, server, st, StatusItem.word] at stepped
        all_goals exact stepped.symm
      subst received
      exact .idle (run + 1)
        { target, ctl, already, child, server := .inl rfl, st := rfl
          serves := serves.status }
  | _ =>
      rcases server with (server | server) | (server | server) <;>
        simp [Move.outside, System.step, server, target, ctl, already]
          at inside stepped

end

theorem RunPhase.step (phase : RunPhase session system)
    (stepped : System.step session move system = some next) : RunPhase session next := by
  cases outside : move.outside with
  | true => exact phase.outside outside stepped
  | false =>
      cases phase with
      | idle runs facts => exact facts.step outside stepped
      | asked run word facts => exact facts.step outside stepped
      | taken run facts => exact facts.step outside stepped
      | started run facts => exact facts.step outside stepped
      | pidSent run pid facts => exact facts.step outside stepped
      | bothSent run pid status facts => exact facts.step outside stepped
      | waiting run facts => exact facts.step outside stepped
      | answered run status facts => exact facts.step outside stepped

end Step

section Places

variable {session : Session} {system : System}

section

variable (phase : RunPhase session system)
include phase

/-- Where the fuzzer is, and how many answers it has. -/
theorem RunPhase.places :
    (system.ServerAt .idle ∧ system.ctl = [] ∧ system.st = [] ∧
        ∃ runs, system.log.Serves session runs runs runs runs) ∨
      (system.ServerAt .waitPid ∧
        ∃ run started, system.log.Serves session (run + 1) started run run) ∨
      (system.AwaitsStatus ∧
        ∃ run, system.log.Serves session (run + 1) (run + 1) (run + 1) run) := by
  cases phase with
  | idle runs facts =>
      exact .inl ⟨facts.server, facts.ctl, facts.st, runs, facts.serves⟩
  | asked run word facts => exact .inr (.inl ⟨facts.server, _, _, facts.serves⟩)
  | taken run facts => exact .inr (.inl ⟨facts.server, _, _, facts.serves⟩)
  | started run facts => exact .inr (.inl ⟨facts.server, _, _, facts.serves⟩)
  | pidSent run pid facts =>
      exact .inr (.inl ⟨facts.server, _, _, facts.serves⟩)
  | bothSent run pid status facts =>
      exact .inr (.inl ⟨facts.server, _, _, facts.serves⟩)
  | waiting run facts => exact .inr (.inr ⟨facts.server, _, facts.serves⟩)
  | answered run status facts =>
      exact .inr (.inr ⟨facts.server, _, facts.serves⟩)

theorem RunPhase.server_cases :
    system.server = .idle ∨ system.server = .waitPid ∨
      system.server = .waitStatus ∨ system.server = .killed ∨
      system.server = .over := by
  rcases phase.places with ⟨server, -⟩ | ⟨server, -⟩ | ⟨server, -⟩
  · rcases server with server | server <;> simp [server]
  · rcases server with server | server <;> simp [server]
  · rcases server with (server | server) | (server | server) <;> simp [server]

theorem RunPhase.inOrder : system.log.InOrder session := by
  rcases phase.places with ⟨-, -, -, _, serves⟩ | ⟨-, _, _, serves⟩ |
    ⟨-, _, serves⟩
  · exact serves.inOrder
  · exact serves.inOrder
  · exact serves.inOrder

theorem RunPhase.target_cases :
    system.target = .loop ∨ (system.ctl = [] ∧ (system.HoldsRequest ∨
      system.target = .sendPid ∨ system.AwaitsChild)) := by
  cases phase with
  | idle runs facts => exact .inl facts.target
  | asked run word facts => exact .inl facts.target
  | taken run facts => exact .inr ⟨facts.ctl, .inl facts.target⟩
  | started run facts => exact .inr ⟨facts.ctl, .inr (.inl facts.target)⟩
  | pidSent run pid facts => exact .inr ⟨facts.ctl, .inr (.inr facts.target)⟩
  | bothSent run pid status facts => exact .inl facts.target
  | waiting run facts => exact .inr ⟨facts.ctl, .inr (.inr facts.target)⟩
  | answered run status facts => exact .inl facts.target

theorem RunPhase.child_fits :
    (∃ killed, system.ChildFits session killed) ∧ system.alreadyReadFirst = false := by
  cases phase with
  | idle runs facts => exact ⟨⟨_, facts.child⟩, facts.already⟩
  | asked run word facts => exact ⟨⟨_, facts.child⟩, facts.already⟩
  | taken run facts => exact ⟨⟨_, facts.child⟩, facts.already⟩
  | started run facts => exact ⟨⟨_, facts.child⟩, facts.already⟩
  | pidSent run pid facts => exact ⟨⟨_, facts.child⟩, facts.already⟩
  | bothSent run pid status facts => exact ⟨⟨_, facts.child⟩, facts.already⟩
  | waiting run facts => exact ⟨⟨_, facts.child⟩, facts.already⟩
  | answered run status facts => exact ⟨⟨_, facts.child⟩, facts.already⟩

theorem RunPhase.fits : ∃ killed, system.ChildFits session killed := phase.child_fits.1

theorem RunPhase.already : system.alreadyReadFirst = false := phase.child_fits.2

end

end Places

/-- How many answers have arrived. -/
def System.Counts (system : System) : Prop :=
  match system.server with
  | .idle =>
      system.log.pids.length = system.log.requests ∧
        system.log.statuses.length = system.log.requests ∧
        system.log.starts.length = system.log.requests
  | .waitPid =>
      system.log.pids.length + 1 = system.log.requests ∧
        system.log.statuses.length + 1 = system.log.requests
  | .waitStatus | .killed =>
      system.log.pids.length = system.log.requests ∧
        system.log.statuses.length + 1 = system.log.requests
  | _ => True

section Answers

variable {session : Session} {system : System}

theorem RunPhase.counts (phase : RunPhase session system) : system.Counts := by
  rcases phase.places with ⟨server, -, -, _, serves⟩ | ⟨server, _, _, serves⟩ |
    ⟨server, _, serves⟩
  · rcases server with server | server <;> simp only [System.Counts, server]
    rw [serves.pids_length, serves.statuses_length, serves.starts_length,
      serves.requests]
    exact ⟨rfl, rfl, rfl⟩
  · rcases server with server | server <;> simp only [System.Counts, server]
    rw [serves.pids_length, serves.statuses_length, serves.requests]
    exact ⟨rfl, rfl⟩
  · rcases server with (server | server) | (server | server) <;>
      simp only [System.Counts, server]
    all_goals
      rw [serves.pids_length, serves.statuses_length, serves.requests]
      exact ⟨rfl, rfl⟩

theorem RunPhase.quiet (phase : RunPhase session system)
    (server : system.server = .idle) : system.ctl = [] ∧ system.st = [] := by
  rcases phase.places with ⟨-, ctl, st, -⟩ | ⟨waits, -⟩ | ⟨awaits, -⟩
  · exact ⟨ctl, st⟩
  · rcases waits with at_ | at_ <;> simp [server] at at_
  · rcases awaits with (at_ | at_) | (at_ | at_) <;> simp [server] at at_

end Answers

end AFLPlusPlus

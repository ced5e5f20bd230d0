import AFLPlusPlus.Forkserver.Protocol

/-!
# What the target knows about its child

`child_stopped` and `child_pid` are all the target has.  `ChildFits` says what
they mean at each point of its code, and the lemmas follow the child through
`waitpid`, `SIGCONT` and the signal of the fuzzer.
-/


namespace AFLPlusPlus

namespace System

def ServerAt (system : System) (pc : ServerPc) : Prop :=
  system.server = pc ∨ system.server = .over

def AwaitsStatus (system : System) : Prop :=
  system.ServerAt .waitStatus ∨ system.ServerAt .killed

/-- The target has a request and did not start the run yet. -/
def HoldsRequest (system : System) : Prop :=
  system.target = .woken ∨ system.target = .reaping ∨ system.target = .starting

/-- The target waits for its child or has just done so. -/
def AwaitsChild (system : System) : Prop :=
  system.target = .waitChild ∨ ∃ status, system.target = .sendStatus status

/-- The target has a child that it did not wait for. -/
def Working (system : System) : Prop :=
  system.childStopped = false ∧
    ∃ process, system.child = some process ∧ process.pid.value = system.childPid

/-- The target has no child, or one it knows to be stopped.  After a timeout
the signal of the fuzzer may have changed that. -/
def Parked (session : Session) (killed : Bool) (system : System) : Prop :=
  (system.childStopped = false ∧ system.child = none) ∨
    (system.childStopped = true ∧ session.persistent = true ∧
      ∃ process, system.child = some process ∧ process.pid.value = system.childPid ∧
        (killed = false → process.state = .stopped))

/-- What the target knows about its child, wherever it is. -/
def ChildFits (session : Session) (killed : Bool) (system : System) : Prop :=
  match system.target with
  | .reaping | .sendPid | .waitChild => system.Working
  | .starting => system.Parked session false
  | .exited => False
  | _ => system.Parked session killed

end System

variable {effect : ChildState} {process : Process}

section Child

variable {session : Session} {system next : System}

theorem System.changeChild_some {after : ChildState}
    (changed : system.changeChild after = some next) :
    ∃ process, system.child = some process ∧ process.state = .running ∧
      next = { system with child := some { process with state := after } } := by
  unfold System.changeChild at changed
  split at changed
  · cases changed
  · rename_i process tracked
    split at changed
    · rename_i running
      exact ⟨process, tracked, running, (Option.some.inj changed).symm⟩
    · cases changed

theorem System.Working.withState (state : ChildState)
    (tracked : system.child = some process) (working : system.Working) :
    { system with child := some { process with state } }.Working := by
  obtain ⟨notStopped, child, isChild, isPid⟩ := working
  obtain rfl := Option.some.inj (tracked.symm.trans isChild)
  exact ⟨notStopped, _, rfl, isPid⟩

theorem System.Parked.withState {killed : Bool} {state : ChildState}
    (tracked : system.child = some process)
    (allowed : process.state = .stopped → killed = true)
    (parked : system.Parked session killed) :
    { system with child := some { process with state } }.Parked session
      killed := by
  rcases parked with ⟨-, isNone⟩ | ⟨stopped, persistent, child, isChild,
    isPid, isStopped⟩
  · rw [isNone] at tracked
    cases tracked
  · obtain rfl := Option.some.inj (tracked.symm.trans isChild)
    refine .inr ⟨stopped, persistent, _, rfl, isPid, fun unharmed => ?_⟩
    rw [allowed (isStopped unharmed)] at unharmed
    cases unharmed

theorem System.Parked.mono {killed later : Bool}
    (still : killed = true → later = true)
    (parked : system.Parked session killed) :
    system.Parked session later := by
  refine parked.imp_right ?_
  rintro ⟨stopped, persistent, process, isChild, isPid, isStopped⟩
  refine ⟨stopped, persistent, process, isChild, isPid, fun unharmed => ?_⟩
  refine isStopped ?_
  cases killed with
  | false => rfl
  | true => rw [still rfl] at unharmed; cases unharmed

/-- Wherever the target is, a child that does something by itself fits. -/
theorem System.ChildFits.withState {killed : Bool} {state : ChildState}
    (tracked : system.child = some process)
    (allowed : process.state = .stopped → killed = true)
    (notStarting : system.target = .starting → process.state ≠ .stopped)
    (fits : system.ChildFits session killed) :
    { system with child := some { process with state } }.ChildFits session
      killed := by
  unfold System.ChildFits at fits ⊢
  cases atTarget : system.target with
  | reaping | sendPid | waitChild =>
      simp only [atTarget] at fits
      exact fits.withState state tracked
  | starting =>
      simp only [atTarget] at fits
      exact fits.withState tracked fun stopped =>
        (notStarting atTarget stopped).elim
  | exited => simp only [atTarget] at fits
  | _ =>
      simp only [atTarget] at fits
      exact fits.withState tracked allowed

theorem System.ChildFits.mono {killed later : Bool}
    (still : killed = true → later = true)
    (fits : system.ChildFits session killed) :
    system.ChildFits session later := by
  unfold System.ChildFits at fits ⊢
  split at fits
  all_goals first
    | exact fits
    | exact fits.mono still

theorem System.ChildFits.pid {killed : Bool} (fits : system.ChildFits session killed)
    (tracked : system.child = some process) :
    process.pid.value = system.childPid := by
  have working : system.Working → process.pid.value = system.childPid := by
    rintro ⟨-, child, isChild, isPid⟩
    obtain rfl := Option.some.inj (tracked.symm.trans isChild)
    exact isPid
  have parked : ∀ killed, system.Parked session killed →
      process.pid.value = system.childPid := by
    rintro killed (⟨-, isNone⟩ | ⟨-, -, child, isChild, isPid, -⟩)
    · rw [isNone] at tracked
      cases tracked
    · obtain rfl := Option.some.inj (tracked.symm.trans isChild)
      exact isPid
  unfold System.ChildFits at fits
  split at fits
  all_goals first
    | exact working fits
    | exact parked _ fits
    | exact fits.elim

theorem System.kill_some (killed : system.kill session effect = some next) :
    ∃ child, next = { system with
        child, lastRunTimedOut := true, server := .killed } ∧
      (child = system.child ∨ ∃ process, system.child = some process ∧
        process.pid.value = system.fsrvChildPid ∧
        signalAdmits session.server.killSignal process.state effect = true ∧
        child = some { process with state := effect }) := by
  unfold System.kill at killed
  dsimp only at killed
  split at killed
  · exact ⟨system.child, (Option.some.inj killed).symm, .inl rfl⟩
  · rename_i process tracked
    split at killed
    · rename_i reached
      split at killed
      · rename_i admitted
        exact ⟨_, (Option.some.inj killed).symm,
          .inr ⟨process, tracked, reached, admitted, rfl⟩⟩
      · cases killed
    · exact ⟨system.child, (Option.some.inj killed).symm, .inl rfl⟩

theorem System.ChildFits.kill (notStarting : system.target ≠ .starting)
    (fits : system.ChildFits session system.lastRunTimedOut)
    (killed : system.kill session effect = some next) :
    next.ChildFits session true := by
  obtain ⟨child, rfl, unchanged | ⟨process, tracked, -, -, changed⟩⟩ :=
    System.kill_some killed
  · subst unchanged
    exact fits.mono fun _ => rfl
  · subst changed
    have allowed : system.ChildFits session true := fits.mono fun _ => rfl
    exact allowed.withState tracked (fun _ => rfl) fun starting =>
      (notStarting starting).elim

theorem System.Working.waited_eq (working : system.Working) :
    ∃ process, system.child = some process ∧ process.pid.value = system.childPid ∧
      system.waited = some process.state := by
  obtain ⟨-, process, isChild, isPid⟩ := working
  refine ⟨process, isChild, isPid, ?_⟩
  rw [System.waited, isChild]
  exact if_pos isPid

theorem System.wait_some (working : system.Working)
    (waited : system.wait session = some next) :
    ∃ status child childStopped, next = { system with
        child, childStopped, target := .sendStatus status } ∧
      (child = none ∨ child = system.child) ∧
      next.Parked session false := by
  have notStopped := working.1
  obtain ⟨process, isChild, isPid, state⟩ := working.waited_eq
  unfold System.wait at waited
  rw [state] at waited
  cases isState : process.state with
  | running =>
      rw [isState] at waited
      cases waited
  | dead status =>
      rw [isState] at waited
      obtain rfl := Option.some.inj waited
      refine ⟨_, _, _, rfl, .inl rfl, .inl ⟨?_, rfl⟩⟩
      simp [status.notStopped, notStopped]
  | stopped =>
      rw [isState] at waited
      dsimp only at waited
      split at waited
      · rename_i persistent
        obtain rfl := Option.some.inj waited
        exact ⟨_, _, _, rfl, .inr rfl, .inr ⟨rfl, persistent, process,
          isChild, isPid, fun _ => isState⟩⟩
      · cases waited

theorem System.reap_some (working : system.Working)
    (reaped : system.reap = some next) :
    next = { system with child := none, target := .starting } := by
  obtain ⟨process, -, -, state⟩ := working.waited_eq
  unfold System.reap at reaped
  rw [state] at reaped
  cases isState : process.state with
  | dead status =>
      rw [isState] at reaped
      exact (Option.some.inj reaped).symm
  | running | stopped =>
      rw [isState] at reaped
      cases reaped

theorem System.Parked.wake
    (parked : system.Parked session (decide (system.wasKilled.value ≠ 0#32))) :
    (system.wake = { system with childStopped := false, target := .reaping } ∧
      system.wake.Working) ∨
    (system.wake = { system with target := .starting } ∧
      system.wake.Parked session false) := by
  unfold System.wake
  rcases parked with ⟨notStopped, isNone⟩ | ⟨stopped, persistent, process,
    isChild, isPid, isStopped⟩
  · rw [if_neg (by simp [notStopped])]
    exact .inr ⟨rfl, .inl ⟨notStopped, isNone⟩⟩
  · by_cases killed : system.wasKilled.value = 0#32
    · rw [if_neg (by simp [killed])]
      exact .inr ⟨rfl, .inr ⟨stopped, persistent, process, isChild, isPid,
        fun _ => isStopped (by simp [killed])⟩⟩
    · rw [if_pos ⟨stopped, killed⟩]
      exact .inl ⟨rfl, rfl, process, isChild, isPid⟩

theorem System.Parked.startRun (pid : Pid)
    (parked : system.Parked session false) :
    ∃ child childPid resumed, system.startRun pid = { system with
        child, childPid, childStopped := false
        log := system.logStart resumed, target := .sendPid } ∧
      (system.startRun pid).Working ∧
      (resumed = true → session.persistent = true ∧
        system.child.map Process.state = some .stopped) := by
  unfold System.startRun
  rcases parked with ⟨notStopped, isNone⟩ | ⟨stopped, persistent, process,
    isChild, isPid, isStopped⟩
  · rw [if_neg (by simp [notStopped])]
    refine ⟨some ⟨pid, .running⟩, pid.value, false, ?_,
      ⟨notStopped, _, rfl, rfl⟩, fun resumed => Bool.noConfusion resumed⟩
    rw [notStopped]
  · have continued : system.continueChild =
        some { process with state := .running } := by
      rw [System.continueChild, isChild]
      exact if_pos ⟨isPid, isStopped rfl⟩
    rw [if_pos stopped, continued]
    refine ⟨_, _, true, rfl, ⟨rfl, _, rfl, isPid⟩, fun _ =>
      ⟨persistent, ?_⟩⟩
    rw [isChild, Option.map_some, isStopped rfl]

end Child

section Answers

variable {session : Session} {system next : System} {killed : Bool}

section

variable (awaits : system.AwaitsChild) (fits : system.ChildFits session killed)
include awaits fits

theorem System.AwaitsChild.wait
    (stepped : System.step session .targetWait system = some next) :
    ∃ status child childStopped, next = { system with
        child, childStopped, target := .sendStatus status } ∧
      next.ChildFits session killed := by
  rcases awaits with target | ⟨status, target⟩
  · simp only [System.step, target] at stepped
    unfold System.ChildFits at fits
    rw [target] at fits
    obtain ⟨status, child, childStopped, rfl, -, parked⟩ :=
      System.wait_some fits stepped
    exact ⟨status, child, childStopped, rfl,
      parked.mono fun killed => Bool.noConfusion killed⟩
  · simp [System.step, target] at stepped

theorem System.AwaitsChild.status
    (stepped : System.step session .targetStatus system = some next) :
    ∃ status, next = { system with
        st := system.st ++ [.status (system.log.starts.length - 1) status]
        target := .loop } ∧
      next.ChildFits session killed := by
  rcases awaits with target | ⟨status, target⟩
  · simp [System.step, target] at stepped
  · simp only [System.step, target, Option.some.injEq] at stepped
    subst stepped
    unfold System.ChildFits at fits
    rw [target] at fits
    exact ⟨status, rfl, fits⟩

end

theorem System.step_timeout
    (stepped : System.step session (.serverTimeout effect) system =
      some next) : system.kill session effect = some next := by
  simp only [System.step] at stepped
  split at stepped
  · exact stepped
  · cases stepped

theorem System.receivePid_pid (run : Nat) (pid : Pid) :
    system.receivePid (.pid run pid.value) pid.value = { system with
      fsrvChildPid := pid.value
      log := { system.log with pids := system.log.pids ++ [some run] }
      server := .waitStatus } := by
  have positive : pid.value.sle 0#32 = false := by
    have isPositive := pid.positive
    simp only [BitVec.slt_eq_decide, BitVec.sle_eq_decide,
      decide_eq_true_eq, decide_eq_false_iff_not] at isPositive ⊢
    omega
  rw [System.receivePid, positive]
  rfl

end Answers

end AFLPlusPlus

import AFLPlusPlus.Forkserver.Liveness

/-!
# Every request is answered

A request is answered by one process id and then one status, whatever the child
does and whenever the fuzzer loses its patience, as long as a stopped child
that is written off was really ended by the signal of the fuzzer.  `SIGKILL`
always does that; a signal chosen with `AFL_KILL_SIGNAL` may stay pending.
-/

namespace AFLPlusPlus

namespace System

/-- Every request gets its process id and then its status.  An answer on its
way arrives: something can always happen, and whatever does brings it closer. -/
structure Answered (session : Session) (system : System) : Prop where
  inOrder : system.log.InOrder session
  counts : system.Counts
  quiet : system.server = .idle → system.ctl = [] ∧ system.st = []
  goesOn : system.Waits → system.Moves session
  descends : system.Waits → ∀ move next, move ≠ .serverGiveUp →
    step session move system = some next →
    next.rank < system.rank ∧ next.server ≠ .over

end System

/-- The child is dead, if there is one. -/
def System.ChildDead (system : System) : Prop :=
  ∀ process, system.child = some process → ∃ status, process.state = .dead status

/-- Wherever the target can learn of a timeout, the child is dead. -/
structure System.KillsEnd (system : System) : Prop where
  timedOut : system.lastRunTimedOut = true → system.ChildDead
  asked : ∀ word ∈ system.ctl, word.value ≠ 0#32 → system.ChildDead
  woken : system.target = .woken → system.wasKilled.value ≠ 0#32 → system.ChildDead

section Sigkill

variable {session : Session} {system next : System} {move : Move}

theorem signalAdmits_sigkill {before after : ChildState}
    (admits : signalAdmits sigkill before after = true) :
    ∃ status, after = .dead status := by
  cases before with
  | dead status => exact ⟨status, signalAdmits_dead admits⟩
  | running | stopped =>
      refine ⟨killedStatus, ?_⟩
      simpa [signalAdmits] using admits

theorem System.ChildDead.not_changes {after : ChildState}
    (dead : system.ChildDead)
    (changed : system.changeChild after = some next) : False := by
  obtain ⟨process, tracked, running, -⟩ := System.changeChild_some changed
  obtain ⟨status, isDead⟩ := dead process tracked
  rw [running] at isDead
  cases isDead

theorem RunPhase.known (phase : RunPhase session system)
    (server : system.server = .waitStatus) {process : Process}
    (tracked : system.child = some process) :
    process.pid.value = system.fsrvChildPid := by
  obtain ⟨killed, fits⟩ := phase.fits
  have isPid := fits.pid tracked
  cases phase with
  | waiting run facts => rw [facts.known, isPid]
  | answered run status facts => rw [facts.known, isPid]
  | idle runs facts =>
      rcases facts.server with at_ | at_ <;> simp [server] at at_
  | asked run word facts =>
      rcases facts.server with at_ | at_ <;> simp [server] at at_
  | taken run facts =>
      rcases facts.server with at_ | at_ <;> simp [server] at at_
  | started run facts =>
      rcases facts.server with at_ | at_ <;> simp [server] at at_
  | pidSent run pid facts =>
      rcases facts.server with at_ | at_ <;> simp [server] at at_
  | bothSent run pid status facts =>
      rcases facts.server with at_ | at_ <;> simp [server] at at_

theorem System.kill_sigkill (sigkills : session.server.killSignal = sigkill)
    (phase : RunPhase session system) {effect : ChildState}
    (server : system.server = .waitStatus)
    (killed : system.kill session effect = some next) : next.ChildDead := by
  intro process isChild
  unfold System.kill at killed
  dsimp only at killed
  split at killed
  · rename_i tracked
    obtain rfl := Option.some.inj killed
    rw [tracked] at isChild
    cases isChild
  · rename_i before tracked
    rw [if_pos (phase.known server tracked)] at killed
    split at killed
    · rename_i admits
      rw [sigkills] at admits
      obtain rfl := Option.some.inj killed
      obtain rfl := Option.some.inj isChild
      exact signalAdmits_sigkill admits
    · cases killed

theorem System.KillsEnd.of_none (child : system.child = none) : system.KillsEnd := by
  have dead : system.ChildDead := by
    intro process isChild
    rw [child] at isChild
    cases isChild
  exact ⟨fun _ => dead, fun _ _ _ => dead, fun _ _ => dead⟩

theorem System.KillsEnd.wake (ends : system.KillsEnd) : system.wake.KillsEnd := by
  unfold System.wake
  split <;> exact ⟨ends.timedOut, ends.asked, TargetPc.noConfusion⟩

theorem RunPhase.patient (phase : RunPhase session system)
    (target : system.target = .starting) :
    system.lastRunTimedOut = false ∧ system.ctl = [] := by
  cases phase with
  | taken run facts => exact ⟨facts.patient, facts.ctl⟩
  | idle runs facts => simp [facts.target] at target
  | asked run word facts => simp [facts.target] at target
  | started run facts => simp [facts.target] at target
  | pidSent run pid facts =>
      rcases facts.target with at_ | ⟨status, at_⟩ <;> simp [target] at at_
  | bothSent run pid status facts => simp [facts.target] at target
  | waiting run facts =>
      rcases facts.target with at_ | ⟨status, at_⟩ <;> simp [target] at at_
  | answered run status facts => simp [facts.target] at target

theorem System.KillsEnd.startRun (pid : Pid)
    (patient : system.lastRunTimedOut = false) (ctl : system.ctl = []) :
    (system.startRun pid).KillsEnd := by
  have noTimeout : (system.startRun pid).lastRunTimedOut = false := by
    unfold System.startRun
    split <;> exact patient
  have noWord : (system.startRun pid).ctl = [] := by
    unfold System.startRun
    split <;> exact ctl
  have target : (system.startRun pid).target = .sendPid := by
    unfold System.startRun
    split <;> rfl
  constructor
  · simp [noTimeout]
  · simp [noWord]
  · simp [target]

theorem System.KillsEnd.changeChild {after : ChildState}
    (ends : system.KillsEnd)
    (changed : system.changeChild after = some next) : next.KillsEnd := by
  have alive : ¬ system.ChildDead := fun dead => dead.not_changes changed
  obtain ⟨process, -, -, rfl⟩ := System.changeChild_some changed
  exact ⟨fun timedOut => (alive (ends.timedOut timedOut)).elim,
    fun word isWord killed => (alive (ends.asked word isWord killed)).elim,
    fun target killed => (alive (ends.woken target killed)).elim⟩

section

variable (sigkills : session.server.killSignal = sigkill)
    (phase : RunPhase session system) (ends : system.KillsEnd)
include sigkills phase ends

theorem System.KillsEnd.step (runStep : RunStep session system move next) :
    next.KillsEnd := by
  cases runStep with
  | serverRequest server =>
      refine ⟨Bool.noConfusion, fun word isWord killed => ?_, ends.woken⟩
      rcases List.mem_append.mp isWord with before | last
      · exact ends.asked word before killed
      · rw [List.mem_singleton.mp last] at killed
        refine ends.timedOut ?_
        by_contra patient
        simp [patient] at killed
  | serverTimeout server killed =>
      have dead := System.kill_sigkill sigkills phase server killed
      exact ⟨fun _ => dead, fun _ _ _ => dead, fun _ _ => dead⟩
  | serverPid | serverStatus | serverGiveUp =>
      exact ⟨ends.timedOut, ends.asked, ends.woken⟩
  | targetRequest target head =>
      refine ⟨ends.timedOut, fun word isWord => ?_, fun _ => ?_⟩
      · exact ends.asked word (head ▸ List.mem_cons_of_mem _ isWord)
      · exact ends.asked _ (head ▸ List.mem_cons_self)
  | targetWake target => exact ends.wake
  | targetReap target =>
      exact .of_none rfl
  | targetStart target =>
      obtain ⟨patient, ctl⟩ := phase.patient target
      exact .startRun _ patient ctl
  | targetPid | targetStatus =>
      exact ⟨ends.timedOut, ends.asked, TargetPc.noConfusion⟩
  | targetWait target waited =>
      rcases waited with rfl | rfl
      · exact .of_none rfl
      · exact ⟨ends.timedOut, ends.asked, TargetPc.noConfusion⟩
  | childExit changed => exact ends.changeChild changed
  | childStop persistent changed => exact ends.changeChild changed

theorem System.KillsEnd.childEnds (move : Move) : system.ChildEnds session move := by
  cases move with
  | targetWake =>
      intro target stopped killed
      obtain ⟨flag, fits⟩ := phase.fits
      unfold System.ChildFits at fits
      rw [target] at fits
      rcases fits with ⟨notStopped, -⟩ | ⟨-, -, process, isChild, isPid, -⟩
      · rw [stopped] at notStopped
        cases notStopped
      · obtain ⟨status, dead⟩ := ends.woken target killed process isChild
        refine ⟨status, ?_⟩
        rw [System.waited, isChild]
        simp [isPid, dead]
  | serverTimeout effect =>
      intro _ process _ _ admits
      rw [sigkills] at admits
      obtain ⟨status, rfl⟩ := signalAdmits_sigkill admits
      exact ChildState.noConfusion
  | _ => trivial

end

end Sigkill

section Runs

variable {session : Session} {system next : System}

theorem RunPhase.isAnswered (phase : RunPhase session system)
    (lively : system.Lively session) : system.Answered session where
  inOrder := phase.inOrder
  counts := phase.counts
  quiet := phase.quiet
  goesOn := phase.goesOn lively
  descends := fun waits _ _ continues stepped =>
    phase.descends waits continues (phase.runStep stepped)

theorem RunPhase.runStart (session : Session) : RunPhase session .runStart :=
  .idle 0
    { server := .inl rfl, target := rfl, ctl := rfl, st := rfl
      serves := ⟨rfl, rfl, fun _ isStart => (List.not_mem_nil isStart).elim, rfl, rfl⟩
      child := .inl ⟨rfl, rfl⟩, already := rfl }

theorem System.Lively.runStart (session : Session) :
    System.runStart.Lively session where
  reaping := TargetPc.noConfusion
  stopped := by
    intro _ process isChild
    cases isChild

theorem System.movesMeet_of_sigkill
    (sigkills : session.server.killSignal = sigkill) (moves : List Move) :
    MovesMeet (System.step session) (System.ChildEnds session) moves
      .runStart := by
  refine movesMeet_of_invariant (fun system =>
    RunPhase session system ∧ system.KillsEnd) ?_ ?_
    ⟨.runStart session, .of_none rfl⟩ moves
  · rintro move system next ⟨phase, ends⟩ stepped
    exact ⟨phase.step stepped, ends.step sigkills phase (phase.runStep stepped)⟩
  · rintro move system ⟨phase, ends⟩
    exact ends.childEnds sigkills phase move

/-- Whatever the child does and whenever the fuzzer loses its patience, each
request is answered. -/
theorem System.run_answered (session : Session) {moves : List Move}
    {reached : System}
    (ends : MovesMeet (System.step session) (System.ChildEnds session) moves .runStart)
    (runs : runMoves (System.step session) moves .runStart = some reached) :
    reached.Answered session := by
  have both : RunPhase session reached ∧ reached.Lively session := by
    refine runMoves_invariant_of_meets (fun system =>
      RunPhase session system ∧ system.Lively session) ?_
      ⟨.runStart session, .runStart session⟩ ends runs
    rintro move system next ⟨phase, lively⟩ meets stepped
    exact ⟨phase.step stepped, lively.step meets (phase.runStep stepped)⟩
  exact both.1.isAnswered both.2

end Runs

/-- A persistent target without options, and the signal for its children. -/
def Session.plain (killSignal : BitVec 8) : Session where
  target :=
    { mapSize := 65536#32, sharedmemFuzzing := false, dictionary := []
      dictionaryFits := by decide }
  persistent := true
  server :=
    { mapSize := 65536#32, supportShmemFuzz := true, ignoreAutodict := false
      addExtra := true, killSignal }

/-- A run during which the child stops just before the signal of the fuzzer
arrives, with the effect of that signal, and the next request. -/
def Move.lateStop (pid : Pid) (effect : ChildState) : List Move :=
  [.serverRequest, .targetRequest, .targetWake, .targetStart pid, .targetPid,
    .serverPid, .childStop, .targetWait, .serverTimeout effect, .targetStatus,
    .serverStatus, .serverRequest, .targetRequest, .targetWake]

/-- `SIGKILL` ends the stopped child, which is written off. -/
theorem System.run_answered_lateStop :
    ∃ reached, runMoves (System.step (.plain sigkill))
        (Move.lateStop ⟨7#32, by decide⟩ (.dead killedStatus) ++
          [.targetReap, .targetStart ⟨8#32, by decide⟩]) .runStart =
        some reached ∧
      reached.Answered (.plain sigkill) := by
  have runs : runMoves (System.step (.plain sigkill))
      (Move.lateStop ⟨7#32, by decide⟩ (.dead killedStatus) ++
        [.targetReap, .targetStart ⟨8#32, by decide⟩]) .runStart = some _ := rfl
  exact ⟨_, runs, System.run_answered _ (System.movesMeet_of_sigkill rfl _) runs⟩

/-- `SIGTERM` stays pending, and the target waits for the child forever. -/
theorem System.run_answered_fails_for_sigterm :
    ¬ ∀ moves reached,
      runMoves (System.step (.plain 15#8)) moves .runStart = some reached →
      reached.Answered (.plain 15#8) := by
  intro always
  have answered := always (Move.lateStop ⟨7#32, by decide⟩ .stopped) _ rfl
  obtain ⟨move, next, continues, stepped⟩ := answered.goesOn (.inl rfl)
  cases move with
  | serverGiveUp => exact continues rfl
  | _ => cases stepped

end AFLPlusPlus

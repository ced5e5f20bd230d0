import AFLPlusPlus.Forkserver.RunSteps

/-!
# The way to an answer

While the fuzzer waits something can always happen, unless the target waits for
a child that does nothing any more, and whatever happens lowers a rank.
-/

namespace AFLPlusPlus

namespace System

/-- The fuzzer waits for an answer. -/
def Waits (system : System) : Prop :=
  system.server = .waitPid ∨ system.server = .waitStatus ∨ system.server = .killed

/-- How far the fuzzer is from the end of its request. -/
def serverRank (system : System) : Nat :=
  match system.server with
  | .waitPid => 3
  | .waitStatus => 2
  | .killed => 1
  | _ => 0

/-- How far the target is from the end of a run. -/
def targetRank (system : System) : Nat :=
  match system.target with
  | .loop => if system.ctl.isEmpty then 0 else 8
  | .woken => 7
  | .reaping => 6
  | .starting => 5
  | .sendPid => 4
  | .waitChild => 3
  | .sendStatus _ => 2
  | _ => 0

/-- What a child can still do before the target has to wait for it. -/
def childRank (system : System) : Nat :=
  match system.child.map Process.state with
  | some .running => 2
  | some .stopped => 1
  | _ => 0

def rank (system : System) : Nat :=
  100 * system.serverRank + 10 * system.targetRank + system.childRank

/-- What a move must meet: a stopped child that is written off is dead, and
a signal does not stop a child that is not persistent. -/
def ChildEnds (session : Session) (system : System) : Move → Prop
  | .targetWake =>
      system.target = .woken → system.childStopped = true →
        system.wasKilled.value ≠ 0#32 →
        ∃ status, system.waited = some (.dead status)
  | .serverTimeout effect =>
      session.persistent = false → ∀ process, system.child = some process →
        process.pid.value = system.fsrvChildPid →
        signalAdmits session.server.killSignal process.state effect = true →
        effect ≠ .stopped
  | _ => True

/-- The target never waits for a child in vain. -/
structure Lively (session : Session) (system : System) : Prop where
  reaping : system.target = .reaping → ∃ status, system.waited = some (.dead status)
  stopped : session.persistent = false → ∀ process,
    system.child = some process → process.state ≠ .stopped

end System

variable {after : ChildState}

section Lively

variable {session : Session} {system next : System} {move : Move}

theorem System.waited_withState {process : Process} {state : ChildState}
    {status : ExitStatus} (tracked : system.child = some process)
    (dead : process.state = .dead status → state = .dead status)
    (waited : system.waited = some (.dead status)) :
    { system with child := some { process with state } }.waited =
      some (.dead status) := by
  unfold System.waited at waited ⊢
  rw [tracked] at waited
  dsimp only at waited ⊢
  split at waited
  · rename_i same
    rw [if_pos same, dead (Option.some.inj waited)]
  · cases waited

theorem System.Lively.changeChild (lively : system.Lively session)
    (allowed : session.persistent = false → after ≠ .stopped)
    (changed : system.changeChild after = some next) :
    next.Lively session := by
  obtain ⟨process, tracked, running, rfl⟩ := System.changeChild_some changed
  constructor
  · intro target
    obtain ⟨status, waited⟩ := lively.reaping target
    refine ⟨status, System.waited_withState tracked (fun dead => ?_) waited⟩
    rw [running] at dead
    cases dead
  · intro single changed isChanged
    obtain rfl := Option.some.inj isChanged
    exact allowed single

theorem signalAdmits_dead {signal : BitVec 8} {status : ExitStatus}
    (admits : signalAdmits signal (.dead status) after = true) :
    after = .dead status := by
  simpa [signalAdmits] using admits

theorem System.Lively.kill {effect : ChildState}
    (lively : system.Lively session)
    (ends : system.ChildEnds session (.serverTimeout effect))
    (killed : system.kill session effect = some next) :
    next.Lively session := by
  obtain ⟨child, rfl, rfl | ⟨process, tracked, reached, admits, rfl⟩⟩ :=
    System.kill_some killed
  · exact ⟨lively.reaping, lively.stopped⟩
  · constructor
    · intro target
      obtain ⟨status, waited⟩ := lively.reaping target
      refine ⟨status, System.waited_withState tracked (fun dead => ?_) waited⟩
      rw [dead] at admits
      exact signalAdmits_dead admits
    · intro single changed isChanged
      obtain rfl := Option.some.inj isChanged
      exact ends single process tracked reached admits

theorem System.Lively.of_same (lively : system.Lively session)
    (child : next.child = system.child)
    (childPid : next.childPid = system.childPid)
    (target : next.target = .reaping → system.target = .reaping) :
    next.Lively session := by
  constructor
  · intro reaping
    unfold System.waited
    rw [child, childPid]
    exact lively.reaping (target reaping)
  · rw [child]
    exact lively.stopped

theorem System.Lively.of_none (child : next.child = none)
    (target : next.target ≠ .reaping) : next.Lively session := by
  constructor
  · exact fun reaping => (target reaping).elim
  · intro _ process isChild
    rw [child] at isChild
    cases isChild

theorem System.Lively.startRun (pid : Pid) (lively : system.Lively session) :
    (system.startRun pid).Lively session := by
  unfold System.startRun System.continueChild
  constructor
  · intro target
    split at target <;> cases target
  · intro single process isChild
    split at isChild
    · split at isChild
      · cases isChild
      · rename_i before tracked
        split at isChild
        · obtain rfl := Option.some.inj isChild
          exact ChildState.noConfusion
        · obtain rfl := Option.some.inj isChild
          exact lively.stopped single before tracked
    · obtain rfl := Option.some.inj isChild
      exact ChildState.noConfusion

theorem System.Lively.wake (lively : system.Lively session)
    (target : system.target = .woken)
    (ends : system.ChildEnds session .targetWake) :
    system.wake.Lively session := by
  unfold System.wake
  split
  · rename_i writeOff
    exact ⟨fun _ => ends target writeOff.1 writeOff.2, lively.stopped⟩
  · exact lively.of_same rfl rfl fun reaping => TargetPc.noConfusion reaping

theorem System.Lively.step (lively : system.Lively session)
    (ends : system.ChildEnds session move)
    (runStep : RunStep session system move next) : next.Lively session := by
  cases runStep with
  | serverRequest | serverPid | serverStatus | serverGiveUp =>
      exact lively.of_same rfl rfl id
  | serverTimeout server killed => exact lively.kill ends killed
  | targetRequest | targetPid | targetStatus =>
      exact lively.of_same rfl rfl TargetPc.noConfusion
  | targetWake target => exact lively.wake target ends
  | targetReap => exact .of_none rfl TargetPc.noConfusion
  | targetStart => exact lively.startRun _
  | targetWait target waited =>
      rcases waited with rfl | rfl
      · exact .of_none rfl TargetPc.noConfusion
      · exact lively.of_same rfl rfl TargetPc.noConfusion
  | childExit changed =>
      exact lively.changeChild (fun _ => ChildState.noConfusion) changed
  | childStop persistent changed =>
      refine lively.changeChild (fun single => ?_) changed
      rw [persistent] at single
      cases single

end Lively

section Rank

variable {session : Session} {system next : System} {move : Move}

theorem System.childRank_le (system : System) : system.childRank ≤ 2 := by
  unfold System.childRank
  split <;> decide

theorem System.changeChild_rank (ends : after ≠ .running)
    (changed : system.changeChild after = some next) :
    next.rank < system.rank ∧ next.server = system.server := by
  obtain ⟨process, tracked, running, rfl⟩ := System.changeChild_some changed
  have before : system.childRank = 2 := by
    simp [System.childRank, tracked, running]
  have later : { system with
      child := some { process with state := after } }.childRank < 2 := by
    cases after with
    | running => exact (ends rfl).elim
    | stopped => exact Nat.one_lt_two
    | dead status => exact Nat.two_pos
  refine ⟨?_, rfl⟩
  unfold System.rank
  rw [before]
  exact Nat.add_lt_add_left later _

theorem System.rank_lt_of_server
    (server : next.serverRank < system.serverRank)
    (target : next.targetRank ≤ system.targetRank) :
    next.rank < system.rank := by
  have childLe := next.childRank_le
  unfold System.rank
  omega

theorem System.rank_lt_of_target
    (server : next.serverRank = system.serverRank)
    (target : next.targetRank < system.targetRank) :
    next.rank < system.rank := by
  have childLe := next.childRank_le
  unfold System.rank
  omega

theorem System.wake_rank (target : system.target = .woken) :
    system.wake.rank < system.rank ∧ system.wake.server = system.server := by
  have before : system.targetRank = 7 := by simp [System.targetRank, target]
  unfold System.wake
  split
  · exact ⟨System.rank_lt_of_target rfl (before ▸ Nat.lt_succ_self 6), rfl⟩
  · exact ⟨System.rank_lt_of_target rfl (before ▸ (by decide : 5 < 7)), rfl⟩

theorem System.startRun_rank (pid : Pid)
    (target : system.target = .starting) :
    (system.startRun pid).rank < system.rank ∧
      (system.startRun pid).server = system.server := by
  have before : system.targetRank = 5 := by simp [System.targetRank, target]
  unfold System.startRun
  split <;>
    exact ⟨System.rank_lt_of_target rfl (before ▸ Nat.lt_succ_self 4), rfl⟩

theorem RunPhase.descends (phase : RunPhase session system)
    (waits : system.Waits) (continues : move ≠ .serverGiveUp)
    (runStep : RunStep session system move next) :
    next.rank < system.rank ∧ next.server ≠ .over := by
  have notOver : system.server ≠ .over := by
    rcases waits with server | server | server <;> simp [server]
  cases runStep with
  | serverRequest server =>
      rcases waits with at_ | at_ | at_ <;> simp [at_] at server
  | serverGiveUp => exact (continues rfl).elim
  | serverPid server head =>
      have before : system.serverRank = 3 := by
        simp [System.serverRank, server]
      exact ⟨System.rank_lt_of_server (before ▸ Nat.lt_succ_self 2) (Nat.le_refl _),
        ServerPc.noConfusion⟩
  | serverStatus server head =>
      have before : 0 < system.serverRank := by
        rcases server with server | server <;>
          simp [System.serverRank, server]
      exact ⟨System.rank_lt_of_server before (Nat.le_refl _), ServerPc.noConfusion⟩
  | serverTimeout server killed =>
      have before : system.serverRank = 2 := by
        simp [System.serverRank, server]
      obtain ⟨child, rfl, -⟩ := System.kill_some killed
      exact ⟨System.rank_lt_of_server (before ▸ Nat.lt_succ_self 1) (Nat.le_refl _),
        ServerPc.noConfusion⟩
  | targetRequest target head =>
      have before : system.targetRank = 8 := by
        simp [System.targetRank, target, head]
      exact ⟨System.rank_lt_of_target rfl (before ▸ Nat.lt_succ_self 7), notOver⟩
  | targetWake target =>
      obtain ⟨lower, same⟩ := System.wake_rank target
      exact ⟨lower, same ▸ notOver⟩
  | targetReap target =>
      have before : system.targetRank = 6 := by
        simp [System.targetRank, target]
      exact ⟨System.rank_lt_of_target rfl (before ▸ Nat.lt_succ_self 5), notOver⟩
  | targetStart target =>
      obtain ⟨lower, same⟩ := System.startRun_rank _ target
      exact ⟨lower, same ▸ notOver⟩
  | targetPid target =>
      have before : system.targetRank = 4 := by
        simp [System.targetRank, target]
      exact ⟨System.rank_lt_of_target rfl (before ▸ Nat.lt_succ_self 3), notOver⟩
  | targetWait target waited =>
      have before : system.targetRank = 3 := by
        simp [System.targetRank, target]
      exact ⟨System.rank_lt_of_target rfl (before ▸ Nat.lt_succ_self 2), notOver⟩
  | targetStatus target =>
      have before : system.targetRank = 2 := by
        simp [System.targetRank, target]
      have noRequest : system.ctl = [] := by
        rcases phase.target_cases with loop | ⟨ctl, -⟩
        · rw [loop] at target
          cases target
        · exact ctl
      refine ⟨System.rank_lt_of_target rfl ?_, notOver⟩
      rw [before]
      simp [System.targetRank, noRequest]
  | childExit changed =>
      obtain ⟨lower, same⟩ := System.changeChild_rank ChildState.noConfusion changed
      exact ⟨lower, same ▸ notOver⟩
  | childStop persistent changed =>
      obtain ⟨lower, same⟩ := System.changeChild_rank ChildState.noConfusion changed
      exact ⟨lower, same ▸ notOver⟩

theorem System.moves_of_working (working : system.Working)
    (target : system.target = .waitChild) (lively : system.Lively session) :
    system.Moves session := by
  obtain ⟨process, isChild, isPid, state⟩ := working.waited_eq
  cases isState : process.state with
  | running =>
      refine moves_of_isSome (.childExit killedStatus)
        Move.noConfusion ?_
      simp [System.step, System.changeChild, isChild, isState]
  | dead status =>
      refine moves_of_isSome .targetWait Move.noConfusion ?_
      simp [System.step, target, System.wait, state, isState]
  | stopped =>
      have persistent : session.persistent = true := by
        by_contra single
        exact lively.stopped (Bool.not_eq_true _ ▸ single) process isChild
          isState
      refine moves_of_isSome .targetWait Move.noConfusion ?_
      simp [System.step, target, System.wait, state, isState, persistent]

theorem RunPhase.goesOn (phase : RunPhase session system)
    (lively : system.Lively session) (waits : system.Waits) :
    system.Moves session := by
  have notOver : system.server ≠ .over := by
    rcases waits with server | server | server <;> simp [server]
  cases phase with
  | idle runs facts =>
      have server := facts.server.resolve_right notOver
      rcases waits with at_ | at_ | at_ <;> simp [server] at at_
  | asked run word facts =>
      refine System.moves_of_isSome .targetRequest
        Move.noConfusion ?_
      simp [System.step, facts.target, facts.already, facts.ctl]
  | taken run facts =>
      rcases facts.target with target | target | target
      · refine System.moves_of_isSome .targetWake
          Move.noConfusion ?_
        simp [System.step, target]
      · obtain ⟨status, waited⟩ := lively.reaping target
        refine System.moves_of_isSome .targetReap
          Move.noConfusion ?_
        simp [System.step, target, System.reap, waited]
      · refine System.moves_of_isSome (.targetStart ⟨1#32, by decide⟩)
          Move.noConfusion ?_
        simp [System.step, target]
  | started run facts =>
      refine System.moves_of_isSome .targetPid Move.noConfusion ?_
      simp [System.step, facts.target]
  | pidSent run pid facts =>
      refine System.moves_of_isSome .serverPid Move.noConfusion ?_
      simp [System.step, facts.server.resolve_right notOver, facts.st, StatusItem.word]
  | bothSent run pid status facts =>
      refine System.moves_of_isSome .serverPid Move.noConfusion ?_
      simp [System.step, facts.server.resolve_right notOver, facts.st, StatusItem.word]
  | waiting run facts =>
      rcases facts.target with target | ⟨status, target⟩
      · have working := facts.child
        unfold System.ChildFits at working
        rw [target] at working
        exact System.moves_of_working working target lively
      · refine System.moves_of_isSome .targetStatus
          Move.noConfusion ?_
        simp [System.step, target]
  | answered run status facts =>
      refine System.moves_of_isSome .serverStatus
        Move.noConfusion ?_
      rcases facts.server with server | server <;>
        simp [System.step, server.resolve_right notOver, facts.st, StatusItem.word]

end Rank

end AFLPlusPlus

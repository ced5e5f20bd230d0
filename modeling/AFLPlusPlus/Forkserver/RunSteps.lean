import AFLPlusPlus.Forkserver.RunPhases

/-!
# Moves after the handshake

In a phase of a run only the moves of the two main loops are possible, and
`RunStep` says what each of them does.
-/

namespace AFLPlusPlus

section Moves

variable {session : Session} {system next : System} {move : Move}

/-- The moves of the handshake. -/
def Move.handshake : Move → Bool
  | .serverHello | .serverDictLength | .serverDictBytes _ | .targetHello
  | .targetAnswer | .targetDictLength | .targetDictBytes _ => true
  | _ => false

theorem RunPhase.notHandshake (phase : RunPhase session system)
    (stepped : System.step session move system = some next) :
    move.handshake = false := by
  cases move with
  | serverHello | serverDictLength | serverDictBytes count =>
      rcases phase.server_cases with server | server | server | server |
        server <;> simp [System.step, server] at stepped
  | targetHello | targetAnswer | targetDictLength | targetDictBytes count =>
      rcases phase.target_cases with target | ⟨-, (target | target | target) |
        target | target | ⟨status, target⟩⟩ <;>
        simp [System.step, target] at stepped
  | _ => rfl

theorem RunPhase.pid_head {item : StatusItem} {st : List StatusItem}
    (phase : RunPhase session system) (server : system.server = .waitPid)
    (head : system.st = item :: st) :
    ∃ run, ∃ pid : Pid, item = .pid run pid.value := by
  cases phase with
  | idle runs facts => simp [facts.st] at head
  | asked run word facts => simp [facts.st] at head
  | taken run facts => simp [facts.st] at head
  | started run facts => simp [facts.st] at head
  | pidSent run pid facts =>
      rw [facts.st] at head
      exact ⟨run, pid, (List.cons.inj head).1.symm⟩
  | bothSent run pid status facts =>
      rw [facts.st] at head
      exact ⟨run, pid, (List.cons.inj head).1.symm⟩
  | waiting run facts => simp [facts.st] at head
  | answered run status facts =>
      rcases facts.server with (at_ | at_) | (at_ | at_) <;>
        simp [server] at at_

/-- What a move after the handshake does. -/
inductive RunStep (session : Session) (system : System) : Move → System → Prop
  | serverRequest (server : system.server = .idle) :
      RunStep session system .serverRequest system.request
  | serverPid {run : Nat} {pid : Pid} {st : List StatusItem}
      (server : system.server = .waitPid)
      (head : system.st = .pid run pid.value :: st) :
      RunStep session system .serverPid
        { system with
          st, fsrvChildPid := pid.value
          log := { system.log with pids := system.log.pids ++ [some run] }
          server := .waitStatus }
  | serverStatus {item : StatusItem} {st : List StatusItem}
      {status : BitVec 32}
      (server : system.server = .waitStatus ∨ system.server = .killed)
      (head : system.st = item :: st) :
      RunStep session system .serverStatus
        ({ system with st }.receiveStatus item status)
  | serverTimeout {effect : ChildState} {next : System}
      (server : system.server = .waitStatus)
      (killed : system.kill session effect = some next) :
      RunStep session system (.serverTimeout effect) next
  | serverGiveUp : RunStep session system .serverGiveUp { system with server := .over }
  | targetRequest {word : ControlWord} {ctl : List ControlWord}
      (target : system.target = .loop) (head : system.ctl = word :: ctl) :
      RunStep session system .targetRequest
        { system with
          ctl, alreadyReadFirst := false, wasKilled := word, target := .woken }
  | targetWake (target : system.target = .woken) :
      RunStep session system .targetWake system.wake
  | targetReap (target : system.target = .reaping) :
      RunStep session system .targetReap
        { system with child := none, target := .starting }
  | targetStart {pid : Pid} (target : system.target = .starting) :
      RunStep session system (.targetStart pid) (system.startRun pid)
  | targetPid {item : StatusItem} (target : system.target = .sendPid) :
      RunStep session system .targetPid
        { system with st := system.st ++ [item], target := .waitChild }
  | targetWait {status : BitVec 32} {child : Option Process}
      {childStopped : Bool} (target : system.target = .waitChild)
      (waited : child = none ∨ child = system.child) :
      RunStep session system .targetWait
        { system with child, childStopped, target := .sendStatus status }
  | targetStatus {item : StatusItem} {status : BitVec 32}
      (target : system.target = .sendStatus status) :
      RunStep session system .targetStatus
        { system with st := system.st ++ [item], target := .loop }
  | childExit {status : ExitStatus} {next : System}
      (changed : system.changeChild (.dead status) = some next) :
      RunStep session system (.childExit status) next
  | childStop {next : System} (persistent : session.persistent = true)
      (changed : system.changeChild .stopped = some next) :
      RunStep session system .childStop next

theorem RunPhase.runStep (phase : RunPhase session system)
    (stepped : System.step session move system = some next) :
    RunStep session system move next := by
  have inRun := phase.notHandshake stepped
  obtain ⟨killed, fits⟩ := phase.fits
  unfold System.ChildFits at fits
  cases move with
  | serverHello | serverDictLength | serverDictBytes _ | targetHello
  | targetAnswer | targetDictLength | targetDictBytes _ => cases inRun
  | serverGiveUp =>
      obtain rfl := Option.some.inj stepped
      exact .serverGiveUp
  | childExit status => exact .childExit stepped
  | childStop =>
      simp only [System.step] at stepped
      split at stepped
      · rename_i persistent
        exact .childStop persistent stepped
      · cases stepped
  | targetRequest =>
      simp only [System.step, phase.already, Bool.false_eq_true, if_false] at stepped
      split at stepped
      · rename_i target
        split at stepped
        · rename_i head
          obtain rfl := Option.some.inj stepped
          exact .targetRequest target head
        · cases stepped
      · cases stepped
  | serverPid =>
      simp only [System.step] at stepped
      split at stepped
      · rename_i server head
        obtain ⟨run, pid, rfl⟩ := phase.pid_head server head
        simp only [StatusItem.word, Option.map_some, System.receivePid_pid,
          Option.some.injEq] at stepped
        subst stepped
        exact .serverPid server head
      · cases stepped
  | serverStatus =>
      simp only [System.step] at stepped
      split at stepped
      · rename_i server head
        obtain ⟨status, -, rfl⟩ := Option.map_eq_some_iff.mp stepped
        exact .serverStatus (.inl server) head
      · rename_i server head
        obtain ⟨status, -, rfl⟩ := Option.map_eq_some_iff.mp stepped
        exact .serverStatus (.inr server) head
      · cases stepped
  | serverTimeout effect =>
      simp only [System.step] at stepped
      split at stepped
      · rename_i server
        exact .serverTimeout server stepped
      · cases stepped
  | targetReap =>
      simp only [System.step] at stepped
      split at stepped
      · rename_i target
        rw [target] at fits
        obtain rfl := System.reap_some fits stepped
        exact .targetReap target
      · cases stepped
  | targetWait =>
      simp only [System.step] at stepped
      split at stepped
      · rename_i target
        rw [target] at fits
        obtain ⟨status, child, childStopped, rfl, waited, -⟩ :=
          System.wait_some fits stepped
        exact .targetWait target waited
      · cases stepped
  | serverRequest | targetWake | targetStart _ | targetPid | targetStatus =>
      simp only [System.step] at stepped
      split at stepped
      · rename_i place
        obtain rfl := Option.some.inj stepped
        constructor
        exact place
      · cases stepped

end Moves

end AFLPlusPlus

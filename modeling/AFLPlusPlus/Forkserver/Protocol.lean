import AFLPlusPlus.Forkserver.MapSize
import AFLPlusPlus.Support.Transitions

/-!
# The fork server protocol

The two sides of the fork server, `afl_fsrv_start` with `afl_fsrv_run_target`
and `__afl_start_forkserver`, with the two pipes between them and the child
process.  A move is one read, write or system call of one side, or something
that happens to the child.  What lies in the pipes is marked with what it was
written for; no side looks at these marks.
-/

namespace AFLPlusPlus

/-- What a word in the control pipe was written for. -/
inductive Origin where
  | handshake
  | request (number : Nat)
  deriving DecidableEq, Repr

/-- A word in the control pipe. -/
structure ControlWord where
  value : BitVec 32
  origin : Origin
  deriving DecidableEq, Repr

/-- A word or a byte in the status pipe.  Process ids and wait statuses carry
the number of the run they belong to. -/
inductive StatusItem where
  | hello (word : BitVec 32)
  | dictLength (len : BitVec 32)
  | dictByte (byte : BitVec 8)
  | pid (start : Nat) (pid : BitVec 32)
  | status (start : Nat) (status : BitVec 32)
  deriving DecidableEq, Repr

/-- What reading four bytes gives, unless it starts inside of the dictionary. -/
def StatusItem.word : StatusItem → Option (BitVec 32)
  | .hello word => some word
  | .dictLength len => some len
  | .dictByte _ => none
  | .pid _ value => some value
  | .status _ value => some value

def StatusItem.byte : StatusItem → Option (BitVec 8)
  | .dictByte byte => some byte
  | _ => none

/-- The run an item belongs to. -/
def StatusItem.start : StatusItem → Option Nat
  | .pid start _ => some start
  | .status start _ => some start
  | _ => none

/-- A process id as `fork` returns it to the parent. -/
structure Pid where
  value : BitVec 32
  positive : BitVec.slt 0#32 value = true

def wifstopped (status : BitVec 32) : Bool := decide (status &&& 0xff#32 = 0x7f#32)

/-- The wait status of a process that ended. -/
structure ExitStatus where
  word : BitVec 32
  notStopped : wifstopped word = false
  deriving DecidableEq

/-- A process is running, stopped, or dead and not waited for. -/
inductive ChildState where
  | running
  | stopped
  | dead (status : ExitStatus)
  deriving DecidableEq

structure Process where
  pid : Pid
  state : ChildState

def sigkill : BitVec 8 := 9#8

/-- The wait status of a process ended by `SIGKILL`. -/
def killedStatus : ExitStatus := ⟨9#32, by decide⟩

/-- The wait status of a process stopped by `SIGSTOP`. -/
def stoppedStatus : BitVec 32 := 0x137f#32

/-- What a signal can do to a process.  Only `SIGKILL` is certain to end it;
another signal may be handled, ignored, or stay pending. -/
def signalAdmits (signal : BitVec 8) : ChildState → ChildState → Bool
  | .dead status, after => decide (after = .dead status)
  | _, after => signal ≠ sigkill || after = .dead killedStatus

/-- The side of the fuzzer. -/
structure ServerOptions where
  mapSize : BitVec 32
  supportShmemFuzz : Bool
  /-- `AFL_NO_AUTODICT` -/
  ignoreAutodict : Bool
  /-- neither `add_extra_func` nor `afl_ptr` is NULL -/
  addExtra : Bool
  killSignal : BitVec 8

/-- A target and the tool that runs it. -/
structure Session where
  target : TargetOptions
  /-- `is_persistent` -/
  persistent : Bool
  server : ServerOptions

/-- Where the fuzzer is: in `afl_fsrv_start`, between two runs, in
`afl_fsrv_run_target`, or finished. -/
inductive ServerPc where
  | waitHello
  | waitDictLength
  | readDict (len : Nat) (dict : List (BitVec 8))
  | idle
  | waitPid
  | waitStatus
  | killed
  | over
  deriving DecidableEq, Repr

/-- Where the target is in `__afl_start_forkserver`. -/
inductive TargetPc where
  | sendHello
  | waitAnswer
  | sendDictLength
  | sendDict (rest : List (BitVec 8))
  | loop
  | woken
  | reaping
  | starting
  | sendPid
  | waitChild
  | sendStatus (status : BitVec 32)
  | exited
  deriving DecidableEq, Repr

/-- The start of a run: the word that asked for it, whether the child was
continued instead of forked, and the state of the last child. -/
structure Start where
  origin : Origin
  resumed : Bool
  child : Option ChildState
  deriving DecidableEq

/-- What happened so far: how many runs were requested, which were started, and
to which runs the process ids and statuses read belong. -/
structure RunLog where
  requests : Nat
  starts : List Start
  pids : List (Option Nat)
  statuses : List (Option Nat)
  deriving DecidableEq

structure System where
  /-- the control pipe -/
  ctl : List ControlWord
  /-- the status pipe -/
  st : List StatusItem
  server : ServerPc
  target : TargetPc
  useShmemFuzz : Bool
  lastRunTimedOut : Bool
  fsrvChildPid : BitVec 32
  /-- `__afl_fuzz_ptr` is not NULL -/
  fuzzPtr : Bool
  alreadyReadFirst : Bool
  childStopped : Bool
  wasKilled : ControlWord
  childPid : BitVec 32
  child : Option Process
  log : RunLog

/-- One move.  The arguments are what the move does not determine: how many
bytes are written or read at once, the process id, and what happens to the
child. -/
inductive Move where
  | serverHello
  | serverDictLength
  | serverDictBytes (count : Nat)
  | serverRequest
  | serverPid
  | serverStatus
  | serverTimeout (effect : ChildState)
  | serverGiveUp
  | targetHello
  | targetAnswer
  | targetDictLength
  | targetDictBytes (count : Nat)
  | targetRequest
  | targetWake
  | targetReap
  | targetStart (pid : Pid)
  | targetPid
  | targetWait
  | targetStatus
  | childExit (status : ExitStatus)
  | childStop

namespace System

/-- A word for the control pipe. -/
def send (system : System) (value : BitVec 32) (origin : Origin) : System :=
  { system with ctl := system.ctl ++ [⟨value, origin⟩] }

/-- The `FS_OPT_SHDMEM_FUZZ` branch. -/
def takeSharedmem (server : ServerOptions) (status : BitVec 32)
    (system : System) : System :=
  if hasOption status fsOptShdmemFuzz then
    let system := { system with useShmemFuzz := true }
    if status &&& fsOptAutodict = 0#32 ∨ server.ignoreAutodict = true then
      system.send (fsOptEnabled ||| fsOptShdmemFuzz) .handshake
    else system
  else system

/-- The `FS_OPT_AUTODICT` branch: the dictionary is ignored, denied, or asked
for. -/
def takeAutodict (server : ServerOptions) (status : BitVec 32)
    (system : System) : System :=
  if hasOption status fsOptAutodict ∧ server.ignoreAutodict = false then
    if server.addExtra = false then
      { system.send (if system.useShmemFuzz then fsOptEnabled ||| fsOptShdmemFuzz
          else fsOptEnabled) .handshake with
        server := .idle }
    else
      { system.send
          (if system.useShmemFuzz then
            fsOptEnabled ||| fsOptAutodict ||| fsOptShdmemFuzz
          else fsOptEnabled ||| fsOptAutodict) .handshake with
        server := .waitDictLength }
  else { system with server := .idle }

/-- What `afl_fsrv_start` does with the first word of the target. -/
def receiveHello (server : ServerOptions) (status : BitVec 32)
    (system : System) : System :=
  if hasOption status fsOptError then { system with server := .over }
  else if hasOption status fsOptEnabled then
    let status :=
      if hasOption status fsOptOldAflppWorkaround then
        status &&& 0xf0ffffff#32
      else status
    if hasOption status fsOptShdmemFuzz ∧ server.supportShmemFuzz = false then
      { system with server := .over }
    else
      let system := system.takeSharedmem server status
      if hasOption status fsOptMapsize ∧ takeMapSize status server.mapSize = none then
        { system with server := .over }
      else system.takeAutodict server status
  else { system with server := .idle }

/-- The size of the dictionary, which may be illegal. -/
def receiveDictLength (status : BitVec 32) (system : System) : System :=
  if status.slt 2#32 ∨ 0xffffff#32 < status then
    { system with server := .over }
  else { system with server := .readDict status.toNat [] }

def receiveDict (len : Nat) (dict bytes : List (BitVec 8))
    (system : System) : System :=
  { system with
    server :=
      if len - bytes.length = 0 then .idle
      else .readDict (len - bytes.length) (dict ++ bytes) }

/-- The request for the next run, with the outcome of the last one. -/
def request (system : System) : System :=
  { system.send (if system.lastRunTimedOut then 1#32 else 0#32)
      (.request system.log.requests) with
    log := { system.log with requests := system.log.requests + 1 }
    lastRunTimedOut := false
    server := .waitPid }

def receivePid (item : StatusItem) (pid : BitVec 32) (system : System) :
    System :=
  { system with
    fsrvChildPid := pid
    log := { system.log with pids := system.log.pids ++ [item.start] }
    server := if pid.sle 0#32 then .over else .waitStatus }

def receiveStatus (item : StatusItem) (status : BitVec 32)
    (system : System) : System :=
  { system with
    fsrvChildPid := if wifstopped status then system.fsrvChildPid else 0#32
    log := { system.log with statuses := system.log.statuses ++ [item.start] }
    server := .idle }

/-- `kill` after a timeout. -/
def kill (session : Session) (effect : ChildState) (system : System) : Option System :=
  let system := { system with lastRunTimedOut := true, server := .killed }
  match system.child with
  | none => some system
  | some process =>
      if process.pid.value = system.fsrvChildPid then
        if signalAdmits session.server.killSignal process.state effect then
          some { system with child := some { process with state := effect } }
        else none
      else some system

def sendHello (target : TargetOptions) (system : System) : System :=
  { system with
    st := system.st ++ [.hello target.statusForFsrv]
    target :=
      if target.sharedmemFuzzing || target.hasDictionary then .waitAnswer
      else .loop }

def receiveAnswer (target : TargetOptions) (word : ControlWord)
    (system : System) : System :=
  let fuzzPtr :=
    hasOption word.value (fsOptEnabled ||| fsOptShdmemFuzz) ||
      system.fuzzPtr
  if hasOption word.value (fsOptEnabled ||| fsOptAutodict) &&
      target.hasDictionary then
    { system with fuzzPtr, wasKilled := word, target := .sendDictLength }
  else
    { system with
      fuzzPtr
      wasKilled := word
      alreadyReadFirst := !fuzzPtr || system.alreadyReadFirst
      target := .loop }

/-- The rest of the dictionary, of which `count` bytes are written. -/
def sendDict (rest : List (BitVec 8)) (count : Nat) (system : System) :
    System :=
  { system with
    st := system.st ++ (rest.take count).map .dictByte
    target :=
      if (rest.drop count).isEmpty then .loop
      else .sendDict (rest.drop count) }

/-- Write off a child that was stopped and then killed. -/
def wake (system : System) : System :=
  if system.childStopped = true ∧ system.wasKilled.value ≠ 0#32 then
    { system with childStopped := false, target := .reaping }
  else { system with target := .starting }

/-- `kill(child_pid, SIGCONT)` -/
def continueChild (system : System) : Option Process :=
  match system.child with
  | none => none
  | some process =>
      if process.pid.value = system.childPid ∧ process.state = .stopped then
        some { process with state := .running }
      else some process

def logStart (resumed : Bool) (system : System) : RunLog :=
  { system.log with
    starts := system.log.starts ++
      [⟨system.wasKilled.origin, resumed, system.child.map Process.state⟩] }

def startRun (pid : Pid) (system : System) : System :=
  if system.childStopped then
    { system with
      child := system.continueChild
      childStopped := false
      log := system.logStart true
      target := .sendPid }
  else
    { system with
      child := some ⟨pid, .running⟩
      childPid := pid.value
      log := system.logStart false
      target := .sendPid }

/-- `waitpid` for the current child: its state, if there is such a child. -/
def waited (system : System) : Option ChildState :=
  match system.child with
  | none => none
  | some process =>
      if process.pid.value = system.childPid then some process.state else none

/-- `waitpid(child_pid, &status, 0)` for a child to write off. -/
def reap (system : System) : Option System :=
  match system.waited with
  | none => some { system with target := .exited }
  | some (.dead _) => some { system with child := none, target := .starting }
  | some _ => none

/-- `waitpid(child_pid, &status, is_persistent ? WUNTRACED : 0)` -/
def wait (session : Session) (system : System) : Option System :=
  match system.waited with
  | none => some { system with target := .exited }
  | some (.dead status) =>
      some
        { system with
          child := none
          childStopped := wifstopped status.word || system.childStopped
          target := .sendStatus status.word }
  | some .stopped =>
      if session.persistent then
        some
          { system with
            childStopped := wifstopped stoppedStatus || system.childStopped
            target := .sendStatus stoppedStatus }
      else none
  | some .running => none

def changeChild (system : System) (after : ChildState) : Option System :=
  match system.child with
  | none => none
  | some process =>
      if process.state = .running then
        some { system with child := some { process with state := after } }
      else none

def step (session : Session) (move : Move) (system : System) : Option System :=
  match move with
  | .serverHello =>
      match system.server, system.st with
      | .waitHello, item :: st => item.word.map fun status =>
          { system with st }.receiveHello session.server status
      | _, _ => none
  | .serverDictLength =>
      match system.server, system.st with
      | .waitDictLength, item :: st => item.word.map fun status =>
          { system with st }.receiveDictLength status
      | _, _ => none
  | .serverDictBytes count =>
      match system.server with
      | .readDict len dict =>
          if 0 < count ∧ count ≤ len ∧ count ≤ system.st.length then
            ((system.st.take count).mapM StatusItem.byte).map fun bytes =>
              { system with st := system.st.drop count }.receiveDict len dict
                bytes
          else none
      | _ => none
  | .serverRequest =>
      match system.server with
      | .idle => some system.request
      | _ => none
  | .serverPid =>
      match system.server, system.st with
      | .waitPid, item :: st => item.word.map fun pid =>
          { system with st }.receivePid item pid
      | _, _ => none
  | .serverStatus =>
      match system.server, system.st with
      | .waitStatus, item :: st => item.word.map fun status =>
          { system with st }.receiveStatus item status
      | .killed, item :: st => item.word.map fun status =>
          { system with st }.receiveStatus item status
      | _, _ => none
  | .serverTimeout effect =>
      match system.server with
      | .waitStatus => system.kill session effect
      | _ => none
  | .serverGiveUp => some { system with server := .over }
  | .targetHello =>
      match system.target with
      | .sendHello => some (system.sendHello session.target)
      | _ => none
  | .targetAnswer =>
      match system.target, system.ctl with
      | .waitAnswer, word :: ctl =>
          some ({ system with ctl }.receiveAnswer session.target word)
      | _, _ => none
  | .targetDictLength =>
      match system.target with
      | .sendDictLength =>
          let dictionary := session.target.dictionary
          some
            { system with
              st := system.st ++ [.dictLength (BitVec.ofNat 32 dictionary.length)]
              target := .sendDict dictionary }
      | _ => none
  | .targetDictBytes count =>
      match system.target with
      | .sendDict rest =>
          if 0 < count ∧ count ≤ rest.length then
            some (system.sendDict rest count)
          else none
      | _ => none
  | .targetRequest =>
      match system.target with
      | .loop =>
          if system.alreadyReadFirst then
            some { system with alreadyReadFirst := false, target := .woken }
          else
            match system.ctl with
            | word :: ctl =>
                some { system with ctl, wasKilled := word, target := .woken }
            | [] => none
      | _ => none
  | .targetWake =>
      match system.target with
      | .woken => some system.wake
      | _ => none
  | .targetReap =>
      match system.target with
      | .reaping => system.reap
      | _ => none
  | .targetStart pid =>
      match system.target with
      | .starting => some (system.startRun pid)
      | _ => none
  | .targetPid =>
      match system.target with
      | .sendPid =>
          some
            { system with
              st := system.st ++ [.pid (system.log.starts.length - 1) system.childPid]
              target := .waitChild }
      | _ => none
  | .targetWait =>
      match system.target with
      | .waitChild => system.wait session
      | _ => none
  | .targetStatus =>
      match system.target with
      | .sendStatus status =>
          some
            { system with
              st := system.st ++ [.status (system.log.starts.length - 1) status]
              target := .loop }
      | _ => none
  | .childExit status => system.changeChild (.dead status)
  | .childStop =>
      if session.persistent then system.changeChild .stopped else none

/-- Some move is possible, apart from giving up. -/
def Moves (session : Session) (system : System) : Prop :=
  ∃ move next, move ≠ .serverGiveUp ∧ step session move system = some next

theorem moves_of_isSome {session : Session} {system : System} (move : Move)
    (continues : move ≠ .serverGiveUp)
    (possible : (step session move system).isSome = true) :
    system.Moves session := by
  obtain ⟨next, stepped⟩ := Option.isSome_iff_exists.mp possible
  exact ⟨move, next, continues, stepped⟩

end System

/-- Both processes before the handshake. -/
def System.start : System :=
  { ctl := []
    st := []
    server := .waitHello
    target := .sendHello
    useShmemFuzz := false
    lastRunTimedOut := false
    fsrvChildPid := 0#32
    fuzzPtr := false
    alreadyReadFirst := false
    childStopped := false
    wasKilled := ⟨0#32, .handshake⟩
    childPid := 0#32
    child := none
    log := ⟨0, [], [], []⟩ }

def System.runStart : System := { System.start with server := .idle, target := .loop }

end AFLPlusPlus

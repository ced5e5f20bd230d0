import AFLPlusPlus.Forkserver.RunPhases

/-!
# The handshake

What can be in the pipes until both sides have finished `afl_fsrv_start` and
the part of `__afl_start_forkserver` before its loop.  The sides decide from
their own options how many words they exchange; `Handshake` lists the states in
which they agree, and every move leads to another one or to a phase of a run.
The only answer they do not agree on is excluded: a fuzzer that denies the
dictionary to a target without shared memory test cases.
-/

namespace AFLPlusPlus

/-- The fuzzer has no use for the dictionary it is offered and says so, and the
target does not expect shared memory test cases. -/
def Session.DeniesDictionary (session : Session) : Prop :=
  session.target.hasDictionary = true ∧ session.target.sharedmemFuzzing = false ∧
    session.server.ignoreAutodict = false ∧
    session.server.addExtra = false ∧
    fsrvMapSize session.server.supportShmemFuzz
      session.target.statusForFsrv session.server.mapSize ≠ none

def sharedmemAnswer : BitVec 32 := fsOptEnabled ||| fsOptShdmemFuzz

def TargetOptions.needsAnswer (target : TargetOptions) : Bool :=
  target.sharedmemFuzzing || target.hasDictionary

def sending (rest : List (BitVec 8)) : TargetPc :=
  if rest.isEmpty then .loop else .sendDict rest

/-- Before the first run both sides are where they are, with this in the
pipes. -/
structure System.At (system : System) (server : ServerPc)
    (target : TargetPc) (ctl : List ControlWord) (st : List StatusItem)
    (requests : Nat) (already : Bool) : Prop where
  server : system.ServerAt server
  target : system.target = target
  ctl : system.ctl = ctl
  st : system.st = st
  log : system.log = ⟨requests, [], [], []⟩
  alreadyReadFirst : system.alreadyReadFirst = already
  lastRunTimedOut : system.lastRunTimedOut = false
  childStopped : system.childStopped = false
  child : system.child = none

def firstRequest : ControlWord := ⟨0#32, .request 0⟩

/-- How far the handshake is. -/
inductive Handshake (session : Session) (system : System) : Prop
  | begun
      (at_ : system.At .waitHello .sendHello [] [] 0 false)
      (plain : system.useShmemFuzz = false)
      (unmapped : system.fuzzPtr = false)
  | greeted
      (at_ : system.At .waitHello
        (if session.target.needsAnswer then .waitAnswer else .loop) []
        [.hello session.target.statusForFsrv] 0 false)
      (plain : system.useShmemFuzz = false)
      (unmapped : system.fuzzPtr = false)
  | refused
      (at_ : system.At .over .waitAnswer [] [] 0 false)
  | shared
      (at_ : system.At .idle .waitAnswer [⟨sharedmemAnswer, .handshake⟩] [] 0 false)
  | sharedAsked
      (at_ : system.At .waitPid .waitAnswer
        [⟨sharedmemAnswer, .handshake⟩, firstRequest] [] 1 false)
  | silent
      (at_ : system.At .idle .waitAnswer [] [] 0 false)
      (unmapped : system.fuzzPtr = false)
  | silentAsked
      (at_ : system.At .waitPid .waitAnswer [firstRequest] [] 1 false)
      (unmapped : system.fuzzPtr = false)
  | silentTaken
      (at_ : system.At .waitPid .loop [] [] 1 true)
      (taken : system.wasKilled = firstRequest)
  | dictionaryAsked (word : BitVec 32)
      (asks : hasOption word (fsOptEnabled ||| fsOptAutodict) = true)
      (hasDictionary : session.target.hasDictionary = true)
      (at_ : system.At .waitDictLength .waitAnswer [⟨word, .handshake⟩] [] 0 false)
  | dictionaryDue
      (hasDictionary : session.target.hasDictionary = true)
      (at_ : system.At .waitDictLength .sendDictLength [] [] 0 false)
  | lengthSent (sent rest : List (BitVec 8))
      (hasDictionary : session.target.hasDictionary = true)
      (whole : sent ++ rest = session.target.dictionary)
      (at_ : system.At .waitDictLength (sending rest) []
        (.dictLength (BitVec.ofNat 32 session.target.dictionary.length) ::
          sent.map .dictByte) 0 false)
  | bytesSent (dict sent rest : List (BitVec 8))
      (more : sent ++ rest ≠ [])
      (whole : dict ++ sent ++ rest = session.target.dictionary)
      (at_ : system.At (.readDict (sent ++ rest).length dict) (sending rest)
        [] (sent.map .dictByte) 0 false)

variable {st : List StatusItem}

section Hello

variable {session : Session} {system next : System}

theorem and_fsOptAutodict (word : BitVec 32) :
    word &&& fsOptAutodict = 0#32 ↔ hasOption word fsOptAutodict = false := by
  have single : fsOptAutodict = BitVec.twoPow 32 28 := by decide
  have nonzero : fsOptAutodict ≠ 0#32 := by decide
  rw [hasOption, decide_eq_false_iff_not, single, BitVec.and_twoPow, ← single]
  cases word.getLsbD 28 with
  | true => simp [nonzero]
  | false => simpa using nonzero.symm

/-- The fuzzer ends with an error about the map size. -/
def Session.TooLarge (session : Session) : Prop :=
  session.target.mapSize ≤ fsOptMaxMapsize ∧
    takeMapSize session.target.statusForFsrv session.server.mapSize = none

instance (session : Session) : Decidable session.TooLarge :=
  inferInstanceAs (Decidable (_ ∧ _))

theorem System.takeSharedmem_statusForFsrv (session : Session)
    (system : System) :
    system.takeSharedmem session.server session.target.statusForFsrv =
      if session.target.sharedmemFuzzing then
        if session.target.hasDictionary = false ∨
            session.server.ignoreAutodict = true then
          { system with useShmemFuzz := true }.send sharedmemAnswer .handshake
        else { system with useShmemFuzz := true }
      else system := by
  unfold System.takeSharedmem
  simp only [and_fsOptAutodict, TargetOptions.statusForFsrv_shdmem,
    TargetOptions.statusForFsrv_autodict]
  rfl

theorem System.receiveHello_statusForFsrv (session : Session)
    (system : System) :
    system.receiveHello session.server session.target.statusForFsrv =
      if session.target.sharedmemFuzzing = true ∧
          session.server.supportShmemFuzz = false then
        { system with server := .over }
      else if session.TooLarge then
        { system.takeSharedmem session.server
            session.target.statusForFsrv with server := .over }
      else (system.takeSharedmem session.server
        session.target.statusForFsrv).takeAutodict session.server
          session.target.statusForFsrv := by
  unfold System.receiveHello
  simp only [TargetOptions.statusForFsrv_error, TargetOptions.statusForFsrv_enabled,
    TargetOptions.statusForFsrv_workaround,
    TargetOptions.statusForFsrv_shdmem, TargetOptions.statusForFsrv_mapsize,
    Bool.false_eq_true, if_false, decide_eq_true_eq]
  split
  · rfl
  · rename_i disabled
    simp only [Bool.or_eq_true, decide_eq_true_eq, not_or,
      Bool.not_eq_true] at disabled
    obtain ⟨⟨large, noDictionary⟩, notShared⟩ := disabled
    have fits : ¬ session.TooLarge := fun tooLarge => large tooLarge.1
    rw [if_neg (by simp [notShared]), if_neg fits,
      System.takeSharedmem_statusForFsrv, if_neg (by simp [notShared])]
    simp [System.takeAutodict, noDictionary]

theorem System.receiveHello_file (system : System)
    (notShared : session.target.sharedmemFuzzing = false) :
    system.receiveHello session.server session.target.statusForFsrv =
      if session.TooLarge then { system with server := .over }
      else system.takeAutodict session.server
        session.target.statusForFsrv := by
  rw [System.receiveHello_statusForFsrv, System.takeSharedmem_statusForFsrv]
  simp [notShared]

theorem Session.tooLarge_iff {session : Session}
    (notShared : session.target.sharedmemFuzzing = false)
    (dictionary : session.target.hasDictionary = true) :
    session.TooLarge ↔ fsrvMapSize session.server.supportShmemFuzz
      session.target.statusForFsrv session.server.mapSize = none := by
  unfold Session.TooLarge fsrvMapSize
  by_cases bounded : session.target.mapSize ≤ fsOptMaxMapsize
  · simp [notShared, dictionary, bounded]
  · simp [notShared, dictionary, bounded]

theorem System.At.runPhase (at_ : system.At .idle .loop [] [] 0 false) :
    RunPhase session system := by
  refine .idle 0
    { server := at_.server, target := at_.target, ctl := at_.ctl, st := at_.st
      serves := ?_, child := ?_, already := at_.alreadyReadFirst }
  · rw [at_.log]
    exact ⟨rfl, rfl, fun _ isStart => (List.not_mem_nil isStart).elim, rfl, rfl⟩
  · unfold System.ChildFits
    rw [at_.target]
    exact .inl ⟨at_.childStopped, at_.child⟩

theorem Handshake.hello_shared (shared : session.target.sharedmemFuzzing = true)
    (at_ : system.At .waitHello .waitAnswer [] st 0 false) :
    Handshake session ({ system with st := [] }.receiveHello session.server
      session.target.statusForFsrv) := by
  obtain ⟨-, target, ctl, -, log, already, timedOut, stopped, child⟩ := at_
  rw [System.receiveHello_statusForFsrv, System.takeSharedmem_statusForFsrv,
    if_pos shared]
  by_cases supported : session.server.supportShmemFuzz = false
  · rw [if_pos ⟨shared, supported⟩]
    exact .refused
      ⟨.inl rfl, target, ctl, rfl, log, already, timedOut, stopped, child⟩
  rw [if_neg (by simp [supported])]
  by_cases declined : session.target.hasDictionary = false ∨
      session.server.ignoreAutodict = true
  · have noDictionary : ¬ (session.target.hasDictionary = true ∧
        session.server.ignoreAutodict = false) := by
      rcases declined with none | ignored
      · simp [none]
      · simp [ignored]
    rw [if_pos declined]
    split
    · exact .shared
        ⟨.inr rfl, target, by simp [System.send, ctl], rfl, log, already,
          timedOut, stopped, child⟩
    · rw [System.takeAutodict, TargetOptions.statusForFsrv_autodict,
        if_neg noDictionary]
      exact .shared
        ⟨.inl rfl, target, by simp [System.send, ctl], rfl, log, already,
          timedOut, stopped, child⟩
  · rw [if_neg declined]
    rw [not_or, Bool.not_eq_false, Bool.not_eq_true] at declined
    split
    · exact .refused
        ⟨.inl rfl, target, ctl, rfl, log, already, timedOut, stopped, child⟩
    · rw [System.takeAutodict, TargetOptions.statusForFsrv_autodict, if_pos declined]
      split
      · exact .shared
          ⟨.inl rfl, target, by simp [System.send, ctl, sharedmemAnswer], rfl,
            log, already, timedOut, stopped, child⟩
      · exact .dictionaryAsked
          (fsOptEnabled ||| fsOptAutodict ||| fsOptShdmemFuzz) (by decide)
          declined.1
          ⟨.inl rfl, target, by simp [System.send, ctl], rfl, log, already,
            timedOut, stopped, child⟩

/-- The first word of a target that takes its test cases from a file. -/
theorem Handshake.hello_file (accepts : ¬ session.DeniesDictionary)
    (notShared : session.target.sharedmemFuzzing = false)
    (dictionary : session.target.hasDictionary = true)
    (at_ : system.At .waitHello .waitAnswer [] st 0 false)
    (plain : system.useShmemFuzz = false) (unmapped : system.fuzzPtr = false) :
    Handshake session ({ system with st := [] }.receiveHello session.server
      session.target.statusForFsrv) := by
  obtain ⟨-, target, ctl, -, log, already, timedOut, stopped, child⟩ := at_
  rw [System.receiveHello_file _ notShared]
  split
  · exact .refused
      ⟨.inl rfl, target, ctl, rfl, log, already, timedOut, stopped, child⟩
  rename_i fits
  rw [System.takeAutodict, TargetOptions.statusForFsrv_autodict]
  split
  · rename_i offered
    split
    · rename_i denied
      rw [Session.tooLarge_iff notShared dictionary] at fits
      exact (accepts ⟨dictionary, notShared, offered.2, denied, fits⟩).elim
    · exact .dictionaryAsked (fsOptEnabled ||| fsOptAutodict) (by decide)
        dictionary
        ⟨.inl rfl, target, by simp [System.send, ctl, plain], rfl, log,
          already, timedOut, stopped, child⟩
  · exact .silent
      ⟨.inl rfl, target, ctl, rfl, log, already, timedOut, stopped, child⟩
      unmapped

theorem System.At.hello_plain (plain : session.target.needsAnswer = false)
    (at_ : system.At .waitHello .loop [] st 0 false) :
    RunPhase session ({ system with st := [] }.receiveHello session.server
      session.target.statusForFsrv) := by
  obtain ⟨-, target, ctl, -, log, already, timedOut, stopped, child⟩ := at_
  simp only [TargetOptions.needsAnswer, Bool.or_eq_false_iff] at plain
  rw [System.receiveHello_file _ plain.1]
  split
  · exact System.At.runPhase
      ⟨.inr rfl, target, ctl, rfl, log, already, timedOut, stopped, child⟩
  · rw [System.takeAutodict, TargetOptions.statusForFsrv_autodict,
      if_neg (by simp [plain.2])]
    exact System.At.runPhase
      ⟨.inl rfl, target, ctl, rfl, log, already, timedOut, stopped, child⟩

end Hello

section Answer

variable {session : Session} {system next : System} {move : Move}

theorem System.receiveAnswer_shared (target : TargetOptions)
    (already : system.alreadyReadFirst = false) :
    system.receiveAnswer target ⟨sharedmemAnswer, .handshake⟩ =
      { system with
        fuzzPtr := true, wasKilled := ⟨sharedmemAnswer, .handshake⟩
        alreadyReadFirst := false, target := .loop } := by
  have isShared : hasOption sharedmemAnswer
      (fsOptEnabled ||| fsOptShdmemFuzz) = true := by decide
  have notDictionary : hasOption sharedmemAnswer
      (fsOptEnabled ||| fsOptAutodict) = false := by decide
  simp [System.receiveAnswer, isShared, notDictionary, already]

theorem System.receiveAnswer_request (target : TargetOptions)
    (unmapped : system.fuzzPtr = false) :
    system.receiveAnswer target firstRequest =
      { system with
        fuzzPtr := false, wasKilled := firstRequest
        alreadyReadFirst := true, target := .loop } := by
  have notShared : hasOption firstRequest.value
      (fsOptEnabled ||| fsOptShdmemFuzz) = false := by decide
  have notDictionary : hasOption firstRequest.value
      (fsOptEnabled ||| fsOptAutodict) = false := by decide
  simp [System.receiveAnswer, notShared, notDictionary, unmapped]

theorem System.receiveAnswer_dictionary {target : TargetOptions}
    {word : BitVec 32}
    (asks : hasOption word (fsOptEnabled ||| fsOptAutodict) = true)
    (dictionary : target.hasDictionary = true) :
    ∃ fuzzPtr, system.receiveAnswer target ⟨word, .handshake⟩ =
      { system with
        fuzzPtr, wasKilled := ⟨word, .handshake⟩, target := .sendDictLength
      } := by
  simp only [System.receiveAnswer, asks, dictionary, Bool.and_self, if_true]
  exact ⟨_, rfl⟩

theorem System.At.request {target : TargetPc} {ctl : List ControlWord}
    (at_ : system.At .idle target ctl st 0 false) :
    system.request.At .waitPid target (ctl ++ [firstRequest]) st 1 false := by
  obtain ⟨-, target, ctl, st, log, already, timedOut, stopped, child⟩ := at_
  refine ⟨.inl rfl, target, ?_, st, ?_, already, rfl, stopped, child⟩
  · simp [System.request, System.send, ctl, timedOut, log, firstRequest]
  · simp [System.request, System.send, log]

theorem System.At.asked
    (at_ : system.At .waitPid .loop [firstRequest] [] 1 false) :
    RunPhase session system := by
  refine .asked 0 firstRequest
    { server := at_.server, target := at_.target, ctl := at_.ctl, st := at_.st
      origin := rfl, patient := at_.lastRunTimedOut, serves := ?_, child := ?_
      already := at_.alreadyReadFirst }
  · rw [at_.log]
    exact ⟨rfl, rfl, fun _ isStart => (List.not_mem_nil isStart).elim, rfl, rfl⟩
  · unfold System.ChildFits
    rw [at_.target]
    exact .inl ⟨at_.childStopped, at_.child⟩

variable (inside : move.outside = false)
    (stepped : System.step session move system = some next)
include inside stepped

theorem Handshake.begun_step (at_ : system.At .waitHello .sendHello [] [] 0 false)
    (plain : system.useShmemFuzz = false)
    (unmapped : system.fuzzPtr = false) : Handshake session next := by
  obtain ⟨server, target, ctl, st, log, already, timedOut, stopped, child⟩ := at_
  cases move with
  | targetHello =>
      simp only [System.step, target, Option.some.injEq] at stepped
      subst stepped
      exact .greeted ⟨server, rfl, ctl, by simp [System.sendHello, st], log,
        already, timedOut, stopped, child⟩ plain unmapped
  | _ =>
      rcases server with server | server <;>
        simp [Move.outside, System.step, server, target, st] at inside stepped

theorem Handshake.greeted_step (accepts : ¬ session.DeniesDictionary)
    (at_ : system.At .waitHello
      (if session.target.needsAnswer then .waitAnswer else .loop) []
      [.hello session.target.statusForFsrv] 0 false)
    (plain : system.useShmemFuzz = false)
    (unmapped : system.fuzzPtr = false) :
    Handshake session next ∨ RunPhase session next := by
  have server := at_.server
  have target := at_.target
  cases move with
  | serverHello =>
      simp only [System.step] at stepped
      split at stepped
      · rename_i head
        obtain ⟨rfl, rfl⟩ := List.cons.inj (at_.st.symm.trans head)
        obtain rfl := Option.some.inj stepped
        cases needs : session.target.needsAnswer with
        | false =>
            rw [needs] at at_
            exact .inr (at_.hello_plain needs)
        | true =>
            rw [needs] at at_
            cases shared : session.target.sharedmemFuzzing with
            | true => exact .inl (.hello_shared shared at_)
            | false =>
                have dictionary : session.target.hasDictionary = true := by
                  simpa [TargetOptions.needsAnswer, shared] using needs
                exact .inl (.hello_file accepts shared dictionary at_ plain unmapped)
      · cases stepped
  | _ =>
      cases needs : session.target.needsAnswer <;>
        rw [needs] at target <;>
        rcases server with server | server <;>
        simp [Move.outside, System.step, server, target, at_.ctl,
          at_.alreadyReadFirst] at inside stepped

theorem Handshake.refused_step
    (at_ : system.At .over .waitAnswer [] [] 0 false) : False := by
  have server : system.server = .over := at_.server.elim id id
  cases move with
  | _ =>
      simp [Move.outside, System.step, server, at_.target, at_.ctl]
        at inside stepped

theorem Handshake.shared_step
    (at_ : system.At .idle .waitAnswer [⟨sharedmemAnswer, .handshake⟩] [] 0 false) :
    Handshake session next ∨ RunPhase session next := by
  cases move with
  | serverRequest =>
      simp only [System.step] at stepped
      split at stepped
      · obtain rfl := Option.some.inj stepped
        exact .inl (.sharedAsked at_.request)
      · cases stepped
  | targetAnswer =>
      simp only [System.step, at_.target, at_.ctl, Option.some.injEq]
        at stepped
      rw [System.receiveAnswer_shared] at stepped
      · subst stepped
        exact .inr (System.At.runPhase
          { at_ with target := rfl, ctl := rfl, alreadyReadFirst := rfl })
      · exact at_.alreadyReadFirst
  | _ =>
      rcases at_.server with server | server <;>
        simp [Move.outside, System.step, server, at_.target] at inside stepped

theorem Handshake.sharedAsked_step (at_ : system.At .waitPid .waitAnswer
      [⟨sharedmemAnswer, .handshake⟩, firstRequest] [] 1 false) :
    RunPhase session next := by
  cases move with
  | targetAnswer =>
      simp only [System.step, at_.target, at_.ctl, Option.some.injEq]
        at stepped
      rw [System.receiveAnswer_shared] at stepped
      · subst stepped
        exact System.At.asked
          { at_ with target := rfl, ctl := rfl, alreadyReadFirst := rfl }
      · exact at_.alreadyReadFirst
  | _ =>
      rcases at_.server with server | server <;>
        simp [Move.outside, System.step, server, at_.target, at_.st]
          at inside stepped

theorem Handshake.silent_step (at_ : system.At .idle .waitAnswer [] [] 0 false)
    (unmapped : system.fuzzPtr = false) : Handshake session next := by
  cases move with
  | serverRequest =>
      simp only [System.step] at stepped
      split at stepped
      · obtain rfl := Option.some.inj stepped
        exact .silentAsked at_.request unmapped
      · cases stepped
  | _ =>
      rcases at_.server with server | server <;>
        simp [Move.outside, System.step, server, at_.target, at_.ctl]
          at inside stepped

theorem Handshake.silentAsked_step
    (at_ : system.At .waitPid .waitAnswer [firstRequest] [] 1 false)
    (unmapped : system.fuzzPtr = false) : Handshake session next := by
  cases move with
  | targetAnswer =>
      simp only [System.step, at_.target, at_.ctl, Option.some.injEq]
        at stepped
      rw [System.receiveAnswer_request] at stepped
      · subst stepped
        exact .silentTaken
          { at_ with target := rfl, ctl := rfl, alreadyReadFirst := rfl } rfl
      · exact unmapped
  | _ =>
      rcases at_.server with server | server <;>
        simp [Move.outside, System.step, server, at_.target, at_.st]
          at inside stepped

theorem Handshake.silentTaken_step (at_ : system.At .waitPid .loop [] [] 1 true)
    (taken : system.wasKilled = firstRequest) : RunPhase session next := by
  cases move with
  | targetRequest =>
      simp only [System.step, at_.target, at_.alreadyReadFirst, if_true,
        Option.some.injEq] at stepped
      subst stepped
      refine .taken 0
        { server := at_.server, target := .inl rfl, ctl := at_.ctl
          st := at_.st, origin := ?_, patient := at_.lastRunTimedOut
          serves := ?_, child := .inl ⟨at_.childStopped, at_.child⟩
          already := rfl }
      · rw [taken]
        rfl
      · rw [at_.log]
        exact ⟨rfl, rfl, fun _ isStart => (List.not_mem_nil isStart).elim, rfl, rfl⟩
  | _ =>
      rcases at_.server with server | server <;>
        simp [Move.outside, System.step, server, at_.target, at_.st]
          at inside stepped

end Answer

end AFLPlusPlus

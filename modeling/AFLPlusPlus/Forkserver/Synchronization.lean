import AFLPlusPlus.Forkserver.DictionaryTransfer

/-!
# The handshake and the runs stay in step

No word of the handshake is taken for a request or left in a pipe, and no
request for a word of the handshake: this holds in every session but those in
which the fuzzer denies the dictionary to a target that reads its test cases
from a file.  There the target takes the denial for its first request, and
every run answers the request before.
-/

namespace AFLPlusPlus

namespace System

/-- The request that the target has taken and not served yet. -/
def held (system : System) : List Origin :=
  if system.alreadyReadFirst then [system.wasKilled.origin]
  else
    match system.target with
    | .woken | .reaping | .starting => [system.wasKilled.origin]
    | _ => []

/-- The fuzzer has left `afl_fsrv_start` and not given up. -/
def ServerReady (system : System) : Prop :=
  match system.server with
  | .idle | .waitPid | .waitStatus | .killed => True
  | _ => False

def TargetReady (system : System) : Prop :=
  match system.target with
  | .sendHello | .waitAnswer | .sendDictLength | .sendDict _ => False
  | _ => True

/-- The fuzzer reads four bytes next. -/
def ReadsWord (system : System) : Prop :=
  match system.server with
  | .waitHello | .waitDictLength | .waitPid | .waitStatus | .killed => True
  | _ => False

/-- The fuzzer is in `afl_fsrv_start`. -/
def ServerStarts (system : System) : Prop :=
  match system.server with
  | .waitHello | .waitDictLength | .readDict _ _ => True
  | _ => False

/-- Both sides agree on every word. -/
structure Synchronized (session : Session) (system : System) : Prop where
  /-- after the handshake none of it is left in a pipe -/
  empty : system.ServerReady → system.TargetReady →
    (∀ word ∈ system.ctl, word.origin ≠ .handshake) ∧
      ∀ item ∈ system.st, item.start ≠ none
  /-- the runs started, the request about to start one, and the requests on
  their way are all the requests, in their order -/
  ordered : system.log.starts.map Start.origin ++ system.held ++
      (system.ctl.map ControlWord.origin).filter (· ≠ .handshake) =
    (List.range system.log.requests).map .request
  inOrder : system.log.InOrder session
  counts : system.Counts
  /-- a word is never read from the middle of the dictionary -/
  readable : system.ReadsWord → ∀ item st, system.st = item :: st → item.word ≠ none
  /-- the handshake does not get stuck -/
  goesOn : system.ServerStarts → system.Moves session

end System

section Runs

variable {session : Session} {system : System}

section

variable (phase : RunPhase session system)
include phase

theorem RunPhase.ctl_requests : ∀ word ∈ system.ctl, word.origin ≠ .handshake := by
  intro word isWord
  cases phase with
  | idle runs facts => simp [facts.ctl] at isWord
  | asked run only facts =>
      rw [facts.ctl, List.mem_singleton] at isWord
      simp [isWord, facts.origin]
  | taken run facts => simp [facts.ctl] at isWord
  | started run facts => simp [facts.ctl] at isWord
  | pidSent run pid facts => simp [facts.ctl] at isWord
  | bothSent run pid status facts => simp [facts.ctl] at isWord
  | waiting run facts => simp [facts.ctl] at isWord
  | answered run status facts => simp [facts.ctl] at isWord

theorem RunPhase.st_answers :
    ∀ item ∈ system.st, item.start ≠ none ∧ item.word ≠ none := by
  intro item isItem
  have answer : (∃ run value, item = .pid run value) ∨
      ∃ run value, item = .status run value := by
    cases phase with
    | idle runs facts => simp [facts.st] at isItem
    | asked run word facts => simp [facts.st] at isItem
    | taken run facts => simp [facts.st] at isItem
    | started run facts => simp [facts.st] at isItem
    | pidSent run pid facts =>
        rw [facts.st, List.mem_singleton] at isItem
        exact .inl ⟨_, _, isItem⟩
    | bothSent run pid status facts =>
        rw [facts.st, List.mem_cons, List.mem_singleton] at isItem
        exact isItem.imp (fun isPid => ⟨_, _, isPid⟩)
          fun isStatus => ⟨_, _, isStatus⟩
    | waiting run facts => simp [facts.st] at isItem
    | answered run status facts =>
        rw [facts.st, List.mem_singleton] at isItem
        exact .inr ⟨_, _, isItem⟩
  rcases answer with ⟨run, value, rfl⟩ | ⟨run, value, rfl⟩ <;>
    simp [StatusItem.start, StatusItem.word]

theorem RunPhase.ordered :
    system.log.starts.map Start.origin ++ system.held ++
        (system.ctl.map ControlWord.origin).filter (· ≠ .handshake) =
      (List.range system.log.requests).map .request := by
  cases phase with
  | idle runs facts =>
      rw [facts.serves.starts, facts.serves.requests]
      simp [System.held, facts.target, facts.already, facts.ctl]
  | asked run word facts =>
      rw [facts.serves.starts, facts.serves.requests, List.range_succ]
      simp [System.held, facts.target, facts.already, facts.ctl, facts.origin]
  | taken run facts =>
      rw [facts.serves.starts, facts.serves.requests, List.range_succ]
      rcases facts.target with target | target | target <;>
        simp [System.held, target, facts.already, facts.ctl, facts.origin]
  | started run facts =>
      rw [facts.serves.starts, facts.serves.requests]
      simp [System.held, facts.target, facts.already, facts.ctl]
  | pidSent run pid facts =>
      rw [facts.serves.starts, facts.serves.requests]
      rcases facts.target with target | ⟨status, target⟩ <;>
        simp [System.held, target, facts.already, facts.ctl]
  | bothSent run pid status facts =>
      rw [facts.serves.starts, facts.serves.requests]
      simp [System.held, facts.target, facts.already, facts.ctl]
  | waiting run facts =>
      rw [facts.serves.starts, facts.serves.requests]
      rcases facts.target with target | ⟨status, target⟩ <;>
        simp [System.held, target, facts.already, facts.ctl]
  | answered run status facts =>
      rw [facts.serves.starts, facts.serves.requests]
      simp [System.held, facts.target, facts.already, facts.ctl]

theorem RunPhase.synchronized : system.Synchronized session where
  empty := fun _ _ => ⟨phase.ctl_requests, fun item isItem =>
    (phase.st_answers item isItem).1⟩
  ordered := phase.ordered
  inOrder := phase.inOrder
  counts := phase.counts
  readable := fun _ item st head =>
    (phase.st_answers item (head ▸ List.mem_cons_self)).2
  goesOn := by
    intro starts
    rcases phase.server_cases with server | server | server | server |
      server <;> simp [System.ServerStarts, server] at starts

end

end Runs

section Handshakes

variable {session : Session} {system : System} {server : ServerPc}
  {target : TargetPc} {ctl : List ControlWord} {st : List StatusItem}
  {requests : Nat} {already : Bool}

/-- While a fuzzer is in `afl_fsrv_start` nothing is said about the pipes. -/
theorem System.At.not_serverReady
    (at_ : system.At server target ctl st requests already)
    (starts : server = .waitHello ∨ server = .waitDictLength ∨
      (∃ len dict, server = .readDict len dict) ∨ server = .over) :
    ¬ system.ServerReady := by
  rcases at_.server with here | here
  · rcases starts with rfl | rfl | ⟨len, dict, rfl⟩ | rfl <;>
      simp [System.ServerReady, here]
  · simp [System.ServerReady, here]

theorem Handshake.empty (handshake : Handshake session system)
    (serverReady : system.ServerReady) (targetReady : system.TargetReady) :
    (∀ word ∈ system.ctl, word.origin ≠ .handshake) ∧
      ∀ item ∈ system.st, item.start ≠ none := by
  cases handshake with
  | begun at_ | greeted at_ =>
      exact (at_.not_serverReady (.inl rfl) serverReady).elim
  | refused at_ =>
      exact (at_.not_serverReady (.inr (.inr (.inr rfl))) serverReady).elim
  | shared at_ | sharedAsked at_ | silent at_ | silentAsked at_ =>
      simp [System.TargetReady, at_.target] at targetReady
  | silentTaken at_ taken => simp [at_.ctl, at_.st]
  | dictionaryAsked word asks dictionary at_ | dictionaryDue dictionary at_
  | lengthSent sent rest dictionary whole at_ =>
      exact (at_.not_serverReady (.inr (.inl rfl)) serverReady).elim
  | bytesSent read sent rest more whole at_ =>
      exact (at_.not_serverReady (.inr (.inr (.inl ⟨_, _, rfl⟩))) serverReady).elim

theorem System.At.ordered
    (at_ : system.At server target ctl st requests false)
    (notYet : ¬ system.HoldsRequest)
    (requested : (ctl.map ControlWord.origin).filter (· ≠ .handshake) =
      (List.range requests).map .request) :
    system.log.starts.map Start.origin ++ system.held ++
        (system.ctl.map ControlWord.origin).filter (· ≠ .handshake) =
      (List.range system.log.requests).map .request := by
  have nothing : system.held = [] := by
    unfold System.held
    rw [at_.alreadyReadFirst, if_neg Bool.false_ne_true]
    split
    · rename_i woken
      exact (notYet (.inl woken)).elim
    · rename_i reaping
      exact (notYet (.inr (.inl reaping))).elim
    · rename_i starting
      exact (notYet (.inr (.inr starting))).elim
    · rfl
  rw [at_.log, nothing, at_.ctl]
  exact requested

theorem System.At.sending_notYet {rest : List (BitVec 8)}
    (at_ : system.At server (sending rest) ctl st requests already) :
    ¬ system.HoldsRequest := by
  unfold System.HoldsRequest
  rw [at_.target]
  unfold sending
  split <;> simp

theorem Handshake.ordered (handshake : Handshake session system) :
    system.log.starts.map Start.origin ++ system.held ++
        (system.ctl.map ControlWord.origin).filter (· ≠ .handshake) =
      (List.range system.log.requests).map .request := by
  cases handshake with
  | begun at_ | refused at_ | shared at_ | sharedAsked at_ | silent at_
  | silentAsked at_ | dictionaryAsked word asks dictionary at_
  | dictionaryDue dictionary at_ =>
      exact at_.ordered (by simp [System.HoldsRequest, at_.target]) rfl
  | greeted at_ =>
      refine at_.ordered ?_ rfl
      unfold System.HoldsRequest
      rw [at_.target]
      split <;> simp
  | lengthSent sent rest dictionary whole at_ =>
      exact at_.ordered at_.sending_notYet rfl
  | bytesSent read sent rest more whole at_ =>
      exact at_.ordered at_.sending_notYet rfl
  | silentTaken at_ taken =>
      rw [at_.log, at_.ctl, System.held, at_.alreadyReadFirst, taken]
      rfl

theorem System.At.inOrder
    (at_ : system.At server target ctl st requests already) :
    system.log.InOrder session := by
  rw [at_.log]
  exact ⟨rfl, fun _ isStart => (List.not_mem_nil isStart).elim, rfl, rfl⟩

section

variable (handshake : Handshake session system)
include handshake

theorem Handshake.inOrder : system.log.InOrder session := by
  cases handshake with
  | begun at_ | greeted at_ | refused at_ | shared at_ | sharedAsked at_
  | silent at_ | silentAsked at_ | silentTaken at_
  | dictionaryAsked word asks dictionary at_ | dictionaryDue dictionary at_
  | lengthSent sent rest dictionary whole at_
  | bytesSent read sent rest more whole at_ => exact at_.inOrder

theorem Handshake.counts : system.Counts := by
  cases handshake with
  | begun at_ | greeted at_ | refused at_ | shared at_ | sharedAsked at_
  | silent at_ | silentAsked at_ | silentTaken at_
  | dictionaryAsked word asks dictionary at_ | dictionaryDue dictionary at_
  | lengthSent sent rest dictionary whole at_
  | bytesSent read sent rest more whole at_ =>
      rcases at_.server with server | server <;>
        simp [System.Counts, server, at_.log]

theorem Handshake.readable (reads : system.ReadsWord) {item : StatusItem}
    {rest : List StatusItem} (head : system.st = item :: rest) : item.word ≠ none := by
  cases handshake with
  | begun at_ | refused at_ | shared at_ | sharedAsked at_ | silent at_
  | silentAsked at_ | silentTaken at_
  | dictionaryAsked word asks dictionary at_ | dictionaryDue dictionary at_ =>
      simp [at_.st] at head
  | greeted at_ =>
      obtain ⟨rfl, -⟩ := List.cons.inj (at_.st.symm.trans head)
      exact Option.some_ne_none _
  | lengthSent sent unsent dictionary whole at_ =>
      obtain ⟨rfl, -⟩ := List.cons.inj (at_.st.symm.trans head)
      exact Option.some_ne_none _
  | bytesSent read sent unsent more whole at_ =>
      rcases at_.server with server | server <;>
        simp [System.ReadsWord, server] at reads

theorem Handshake.goesOn (starts : system.ServerStarts) : system.Moves session := by
  have notOver : system.server ≠ .over := by
    intro isOver
    simp [System.ServerStarts, isOver] at starts
  cases handshake with
  | begun at_ =>
      refine System.moves_of_isSome .targetHello Move.noConfusion ?_
      simp [System.step, at_.target]
  | greeted at_ =>
      have server := at_.server.resolve_right notOver
      refine System.moves_of_isSome .serverHello Move.noConfusion ?_
      simp [System.step, server, at_.st, StatusItem.word]
  | refused at_ => exact (notOver (at_.server.elim id id)).elim
  | shared at_ | sharedAsked at_ | silent at_ | silentAsked at_
  | silentTaken at_ =>
      have server := at_.server.resolve_right notOver
      simp [System.ServerStarts, server] at starts
  | dictionaryAsked word asks dictionary at_ =>
      refine System.moves_of_isSome .targetAnswer Move.noConfusion ?_
      simp [System.step, at_.target, at_.ctl]
  | dictionaryDue dictionary at_ =>
      refine System.moves_of_isSome .targetDictLength Move.noConfusion ?_
      simp [System.step, at_.target]
  | lengthSent sent rest dictionary whole at_ =>
      have server := at_.server.resolve_right notOver
      refine System.moves_of_isSome .serverDictLength Move.noConfusion ?_
      simp [System.step, server, at_.st, StatusItem.word]
  | bytesSent read sent rest more whole at_ =>
      have server := at_.server.resolve_right notOver
      cases sent with
      | cons byte sent =>
          refine System.moves_of_isSome (.serverDictBytes 1)
            Move.noConfusion ?_
          simp [System.step, server, at_.st, StatusItem.byte]
      | nil =>
          have unsent : rest ≠ [] := more
          have target : system.target = .sendDict rest := by
            rw [at_.target]
            simp [sending, unsent]
          refine System.moves_of_isSome (.targetDictBytes 1)
            Move.noConfusion ?_
          simp [System.step, target, Nat.succ_le_iff, List.length_pos_iff.mpr unsent]

theorem Handshake.synchronized : system.Synchronized session where
  empty := handshake.empty
  ordered := handshake.ordered
  inOrder := handshake.inOrder
  counts := handshake.counts
  readable := fun reads _ _ head => handshake.readable reads head
  goesOn := handshake.goesOn

end

end Handshakes

section Denied

variable {session : Session}

/-- The handshake and what the target does next on its own. -/
def Move.denial (pid : Pid) : List Move :=
  [.targetHello, .serverHello, .targetAnswer, .targetRequest, .targetWake,
    .targetStart pid]

theorem System.receiveAnswer_denied {system : System}
    (target : TargetOptions) (unmapped : system.fuzzPtr = false) :
    system.receiveAnswer target ⟨fsOptEnabled, .handshake⟩ =
      { system with
        fuzzPtr := false, wasKilled := ⟨fsOptEnabled, .handshake⟩
        alreadyReadFirst := true, target := .loop } := by
  have notShared : hasOption fsOptEnabled
      (fsOptEnabled ||| fsOptShdmemFuzz) = false := by decide
  have notDictionary : hasOption fsOptEnabled
      (fsOptEnabled ||| fsOptAutodict) = false := by decide
  simp [System.receiveAnswer, notShared, notDictionary, unmapped]

theorem Session.DeniesDictionary.hello (denies : session.DeniesDictionary)
    (system : System) (plain : system.useShmemFuzz = false) :
    system.receiveHello session.server session.target.statusForFsrv =
      { system.send fsOptEnabled .handshake with server := .idle } := by
  obtain ⟨dictionary, notShared, takes, noExtra, fits⟩ := denies
  rw [ne_eq, ← Session.tooLarge_iff notShared dictionary] at fits
  rw [System.receiveHello_file _ notShared, if_neg fits,
    System.takeAutodict, TargetOptions.statusForFsrv_autodict]
  simp [dictionary, takes, noExtra, plain]

theorem Session.DeniesDictionary.starts (denies : session.DeniesDictionary)
    (pid : Pid) :
    ∃ reached, runMoves (System.step session) (Move.denial pid) .start = some reached ∧
      reached.log = ⟨0, [⟨.handshake, false, none⟩], [], []⟩ := by
  have greets : System.step session .targetHello .start = some
      { System.start with
        st := [.hello session.target.statusForFsrv]
        target := .waitAnswer } := by
    simp [System.step, System.start, System.sendHello, denies.1]
  have answers : System.step session .serverHello
      { System.start with
        st := [.hello session.target.statusForFsrv]
        target := .waitAnswer } = some
      { System.start with
        ctl := [⟨fsOptEnabled, .handshake⟩]
        server := .idle, target := .waitAnswer } := by
    simp only [System.step, System.start, StatusItem.word, Option.map_some]
    rw [denies.hello]
    · rfl
    · rfl
  have takes : System.step session .targetAnswer
      { System.start with
        ctl := [⟨fsOptEnabled, .handshake⟩]
        server := .idle, target := .waitAnswer } = some
      { System.start with
        server := .idle, target := .loop, alreadyReadFirst := true
        wasKilled := ⟨fsOptEnabled, .handshake⟩ } := by
    simp only [System.step, System.start]
    rw [System.receiveAnswer_denied]
    rfl
  unfold Move.denial
  rw [runMoves, greets]
  dsimp only
  rw [runMoves, answers]
  dsimp only
  rw [runMoves, takes]
  exact ⟨_, rfl, rfl⟩

end Denied

theorem System.run_phase {session : Session}
    (accepts : ¬ session.DeniesDictionary) {moves : List Move}
    {reached : System}
    (runs : runMoves (System.step session) moves .start = some reached) :
    Handshake session reached ∨ RunPhase session reached := by
  refine runMoves_invariant (fun system =>
    Handshake session system ∨ RunPhase session system) ?_
    (.inl (.start session)) runs
  rintro move system next (handshake | phase) stepped
  · exact handshake.step accepts stepped
  · exact .inr (phase.step stepped)

/-- Both sides agree on every word, in every run of a session, if and only if
the fuzzer does not deny a dictionary in vain. -/
theorem System.run_synchronized (session : Session) :
    (∀ moves reached,
      runMoves (System.step session) moves .start = some reached →
        reached.Synchronized session) ↔
      ¬ session.DeniesDictionary := by
  constructor
  · intro always denies
    obtain ⟨reached, runs, log⟩ := denies.starts ⟨1#32, by decide⟩
    have starts := (always _ reached runs).inOrder.starts
    rw [log] at starts
    cases starts
  · intro accepts moves reached runs
    exact (System.run_phase accepts runs).elim Handshake.synchronized
      RunPhase.synchronized

/-- A target with a dictionary of one entry under a tool that has no use for
it. -/
def Session.deniedDictionary : Session where
  target :=
    { mapSize := 65536#32, sharedmemFuzzing := false
      dictionary := [3#8, 70#8, 79#8, 79#8], dictionaryFits := by decide }
  persistent := false
  server :=
    { mapSize := 65536#32, supportShmemFuzz := false, ignoreAutodict := false
      addExtra := false, killSignal := sigkill }

/-- The first run starts before its request. -/
theorem System.run_synchronized_fails_for_deniedDictionary :
    ¬ ∀ moves reached,
      runMoves (System.step .deniedDictionary) moves .start = some reached →
        reached.Synchronized .deniedDictionary := by
  intro always
  have synchronized := always (Move.denial ⟨7#32, by decide⟩) _ rfl
  exact absurd synchronized.inOrder.starts (by decide)

end AFLPlusPlus

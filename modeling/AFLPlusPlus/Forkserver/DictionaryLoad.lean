import AFLPlusPlus.Forkserver.StatusWord
import AFLPlusPlus.Forkserver.Synchronization
import AFLPlusPlus.Instrumentation.Autodictionary

/-!
# The dictionary arrives

`afl_fsrv_start` takes the bytes it has read apart and hands every token to
`add_extra_func`.  In every run of the protocol these are the tokens which the
LTO pass has kept.
-/

namespace AFLPlusPlus

/-- `length` bytes from `start` on, if there are so many. -/
def slice (dict : List (BitVec 8)) (start length : Nat) : Option (List (BitVec 8)) :=
  if start + length ≤ dict.length then
    some ((dict.drop start).take length)
  else none

/-- The loop of `afl_fsrv_start` over the dictionary from `offset` on: what is
passed to `add_extra_func`, and the offset at the end.  There is no result when
a byte outside of the dictionary is read or passed on. -/
def loadEntries (dict : List (BitVec 8)) (status offset : Nat) :
    Option (List (List (BitVec 8)) × Nat) :=
  if offset < status then
    match dict[offset]? with
    | none => none
    | some length =>
        if length.toNat + offset < status then
          match slice dict (offset + 1) length.toNat with
          | none => none
          | some extra =>
              (loadEntries dict status (offset + (1 + length.toNat))).map
                fun (extras, reached) => (extra :: extras, reached)
        else some ([], offset)
  else some ([], offset)
termination_by status - offset

theorem slice_append (before bytes after : List (BitVec 8)) :
    slice (before ++ (bytes ++ after)) before.length bytes.length = some bytes := by
  have inside : before.length + bytes.length ≤
      (before ++ (bytes ++ after)).length := by
    simp only [List.length_append]
    omega
  rw [slice, if_pos inside, List.drop_left, List.take_left]

/-- Tokens in a row are taken apart again, to the last byte. -/
theorem loadEntries_frames (tokens : List (List (BitVec 8)))
    (before : List (BitVec 8))
    (short : ∀ token ∈ tokens, token.length ≤ 255) :
    loadEntries (before ++ frames tokens) (before ++ frames tokens).length
        before.length =
      some (tokens, (before ++ frames tokens).length) := by
  induction tokens generalizing before with
  | nil => simp [loadEntries]
  | cons token tokens induction =>
      have length : (BitVec.ofNat 8 token.length).toNat = token.length := by
        have fits := short token List.mem_cons_self
        simp
        omega
      have whole : before ++ frames (token :: tokens) =
          (before ++ [BitVec.ofNat 8 token.length]) ++ (token ++ frames tokens) := by
        simp [frames_cons]
      have next : before ++ frames (token :: tokens) =
          (before ++ BitVec.ofNat 8 token.length :: token) ++ frames tokens := by
        simp [frames_cons]
      have first : (before ++ frames (token :: tokens))[before.length]? =
          some (BitVec.ofNat 8 token.length) := by
        simp [frames_cons]
      have extra : slice (before ++ frames (token :: tokens))
          (before.length + 1) token.length = some token := by
        rw [whole]
        simpa using slice_append
          (before ++ [BitVec.ofNat 8 token.length]) token (frames tokens)
      have reached : before.length + (1 + token.length) =
          (before ++ BitVec.ofNat 8 token.length :: token).length := by
        simp
        omega
      have total : (before ++ frames (token :: tokens)).length =
          before.length + (1 + token.length) + (frames tokens).length := by
        simp [frames_cons]
        omega
      have inside : before.length <
          (before ++ frames (token :: tokens)).length := by omega
      have fits : token.length + before.length <
          (before ++ frames (token :: tokens)).length := by omega
      rw [loadEntries, if_pos inside, first]
      dsimp only
      rw [length, if_pos fits, extra]
      dsimp only
      rw [reached, next, induction _ fun token isToken =>
        short token (List.mem_cons_of_mem _ isToken)]
      rfl

theorem loadEntries_dictionaryArray (dictionary : List Token) :
    let array := dictionaryArray dictionary
    loadEntries array.ptr array.ptr.length 0 =
      some (array.kept.map Token.bytes, array.ptr.length) := by
  intro array
  have short : ∀ token ∈ array.kept.map Token.bytes, token.length ≤ 255 := by
    intro bytes isToken
    obtain ⟨token, _, rfl⟩ := List.mem_map.mp isToken
    exact token.fitsLengthByte
  rw [(dictionaryArray_holds dictionary).ptr]
  exact loadEntries_frames _ [] short

/-- Of all that the pass collects the fuzzer gets what sorting leaves, up to
`MAX_AUTO_EXTRAS` tokens. -/
theorem loadEntries_collected (items : List ((BitVec 64 × Bool) ⊕ List (BitVec 8))) :
    loadEntries (dictionaryArray (items.filterMap Token.collect)).ptr
        (dictionaryArray (items.filterMap Token.collect)).ptr.length 0 =
      some (((sortAndUnique (items.filterMap Token.collect)).take maxAutoExtras).map
        Token.bytes, (dictionaryArray (items.filterMap Token.collect)).ptr.length) := by
  have short : ∀ token ∈ sortAndUnique (items.filterMap Token.collect),
      token.bytes.length ≤ maxAutoExtra := by
    intro token member
    have inSorted := (List.destutter_sublist _ _).subset member
    obtain ⟨item, _, made⟩ := List.mem_filterMap.mp (List.mem_mergeSort.mp inSorted)
    exact Token.length_collect made
  have kept := @DictionaryArray.kept_foldl _ short ⟨[], 0, 0, []⟩ (Nat.zero_le _)
  rw [loadEntries_dictionaryArray]
  exact congrArg (fun kept => some (kept.map Token.bytes, _)) kept

def ServerPc.AwaitsDictionary : ServerPc → Prop
  | .waitDictLength | .readDict _ _ => True
  | _ => False

variable {status : BitVec 32} {move : Move} {server : ServerOptions} {next : System}

theorem takeAutodict_asked {useShmemFuzz : Bool}
    (asked : (takeAutodict server status useShmemFuzz).2 =
      .dictionaryAsked) : server.addExtra = true := by
  unfold takeAutodict at asked
  split at asked
  · split at asked
    · cases asked
    · rename_i extra
      exact Bool.not_eq_false _ ▸ extra
  · cases asked

theorem readHello_asked {fsrv : Fsrv}
    (asked : (readHello server status fsrv).finish = .dictionaryAsked) :
    server.addExtra = true := by
  unfold readHello at asked
  split at asked
  · cases asked
  · split at asked
    · dsimp only at asked
      generalize (if hasOption status fsOptOldAflppWorkaround = true then
        status &&& 0xf0ffffff#32 else status) = plain at asked
      by_cases unsupported : hasOption plain fsOptShdmemFuzz = true ∧
          server.supportShmemFuzz = false
      · rw [if_pos unsupported] at asked
        cases asked
      · rw [if_neg unsupported] at asked
        split at asked
        · cases asked
        · exact takeAutodict_asked asked
    · cases asked

theorem HelloEnd.eq_dictionaryAsked {finish : HelloEnd}
    (awaits : finish.serverPc.AwaitsDictionary) :
    finish = .dictionaryAsked := by
  cases finish with
  | dictionaryAsked => rfl
  | _ => exact awaits.elim

/-- The moves of the target and of its child. -/
def Move.ofTarget : Move → Bool
  | .targetHello | .targetAnswer | .targetDictLength | .targetDictBytes _
  | .targetRequest | .targetWake | .targetReap | .targetStart _ | .targetPid
  | .targetWait | .targetStatus | .childExit _ | .childStop => true
  | _ => false

theorem System.changeChild_server {system : System} {after : ChildState}
    (changed : system.changeChild after = some next) :
    next.server = system.server := by
  obtain ⟨process, _, _, rfl⟩ := System.changeChild_some changed
  rfl

theorem System.reap_server {system : System} (reaped : system.reap = some next) :
    next.server = system.server := by
  unfold reap at reaped
  split at reaped
  · obtain rfl := Option.some.inj reaped
    rfl
  · obtain rfl := Option.some.inj reaped
    rfl
  · cases reaped

theorem System.wait_server {session : Session} {system : System}
    (waited : system.wait session = some next) :
    next.server = system.server := by
  unfold wait at waited
  split at waited
  · obtain rfl := Option.some.inj waited
    rfl
  · obtain rfl := Option.some.inj waited
    rfl
  · split at waited
    · obtain rfl := Option.some.inj waited
      rfl
    · cases waited
  · cases waited

theorem System.server_of_target {session : Session} {system : System}
    (ofTarget : move.ofTarget = true)
    (stepped : System.step session move system = some next) :
    next.server = system.server := by
  cases move with
  | targetHello | targetDictLength | targetPid | targetStatus =>
      simp only [step] at stepped
      split at stepped
      · obtain rfl := Option.some.inj stepped
        rfl
      · cases stepped
  | targetWake =>
      simp only [step] at stepped
      split at stepped
      · obtain rfl := Option.some.inj stepped
        unfold wake
        split <;> rfl
      · cases stepped
  | targetStart pid =>
      simp only [step] at stepped
      split at stepped
      · obtain rfl := Option.some.inj stepped
        unfold startRun
        split <;> rfl
      · cases stepped
  | targetAnswer =>
      simp only [step] at stepped
      split at stepped
      · obtain rfl := Option.some.inj stepped
        unfold receiveAnswer
        dsimp only
        split <;> rfl
      · cases stepped
  | targetDictBytes count =>
      simp only [step] at stepped
      split at stepped
      · split at stepped
        · obtain rfl := Option.some.inj stepped
          rfl
        · cases stepped
      · cases stepped
  | targetRequest =>
      simp only [step] at stepped
      split at stepped
      · split at stepped
        · obtain rfl := Option.some.inj stepped
          rfl
        · split at stepped
          · obtain rfl := Option.some.inj stepped
            rfl
          · cases stepped
      · cases stepped
  | targetReap =>
      simp only [step] at stepped
      split at stepped
      · exact reap_server stepped
      · cases stepped
  | targetWait =>
      simp only [step] at stepped
      split at stepped
      · exact wait_server stepped
      · cases stepped
  | childExit status => exact changeChild_server stepped
  | childStop =>
      simp only [step] at stepped
      split at stepped
      · exact changeChild_server stepped
      · cases stepped
  | _ => cases ofTarget

/-- A fuzzer that waits for the dictionary has a use for it. -/
theorem System.awaitsDictionary_step {session : Session} {system : System}
    (before : system.server.AwaitsDictionary → session.server.addExtra = true)
    (stepped : System.step session move system = some next)
    (awaits : next.server.AwaitsDictionary) :
    session.server.addExtra = true := by
  cases ofTarget : move.ofTarget with
  | true =>
      apply before
      rw [← server_of_target ofTarget stepped]
      exact awaits
  | false =>
      cases move with
      | serverHello =>
          simp only [step] at stepped
          split at stepped
          · obtain ⟨word, _, rfl⟩ := Option.map_eq_some_iff.mp stepped
            rw [receiveHello_eq_readHello _ _ false 0#32] at awaits
            exact readHello_asked (HelloEnd.eq_dictionaryAsked awaits)
          · cases stepped
      | serverDictLength =>
          simp only [step] at stepped
          split at stepped
          · rename_i server _
            exact before (by rw [server]; trivial)
          · cases stepped
      | serverDictBytes count =>
          simp only [step] at stepped
          split at stepped
          · rename_i server
            exact before (by rw [server]; trivial)
          · cases stepped
      | serverRequest =>
          simp only [step] at stepped
          split at stepped
          · obtain rfl := Option.some.inj stepped
            exact awaits.elim
          · cases stepped
      | serverPid =>
          simp only [step] at stepped
          split at stepped
          · obtain ⟨pid, _, rfl⟩ := Option.map_eq_some_iff.mp stepped
            unfold receivePid at awaits
            dsimp only at awaits
            split at awaits
            · exact awaits.elim
            · exact awaits.elim
          · cases stepped
      | serverStatus =>
          simp only [step] at stepped
          split at stepped
          · obtain ⟨status, _, rfl⟩ := Option.map_eq_some_iff.mp stepped
            exact awaits.elim
          · obtain ⟨status, _, rfl⟩ := Option.map_eq_some_iff.mp stepped
            exact awaits.elim
          · cases stepped
      | serverTimeout effect =>
          simp only [step] at stepped
          split at stepped
          · obtain ⟨child, rfl, _⟩ := System.kill_some stepped
            exact awaits.elim
          · cases stepped
      | serverGiveUp =>
          obtain rfl := Option.some.inj stepped
          exact awaits.elim
      | _ => cases ofTarget
section Runs

variable {session : Session} {system : System}

/-- While the fuzzer reads, the bytes it has, those in the pipe, and those not
yet sent make up the dictionary. -/
theorem Handshake.reading {len : Nat} {dict : List (BitVec 8)}
    (handshake : Handshake session system)
    (server : system.server = .readDict len dict) :
    ∃ sent rest, dict ++ sent ++ rest = session.target.dictionary ∧
      len = (sent ++ rest).length ∧
      system.st = sent.map .dictByte := by
  cases handshake with
  | bytesSent read sent rest more whole at_ =>
      have same := at_.server.resolve_right (by simp [server])
      obtain ⟨rfl, rfl⟩ := ServerPc.readDict.inj (server.symm.trans same)
      exact ⟨sent, rest, whole, rfl, at_.st⟩
  | begun at_ | greeted at_ | refused at_ | shared at_ | sharedAsked at_
  | silent at_ | silentAsked at_ | silentTaken at_
  | dictionaryAsked word asks dictionary at_ | dictionaryDue dictionary at_
  | lengthSent sent rest dictionary whole at_ =>
      rcases at_.server with is | is <;> simp [server] at is

/-- The length that arrives is the length of the dictionary. -/
theorem Handshake.length {item : StatusItem} {st : List StatusItem}
    (handshake : Handshake session system)
    (server : system.server = .waitDictLength)
    (head : system.st = item :: st) :
    session.target.hasDictionary = true ∧
      item = .dictLength (BitVec.ofNat 32 session.target.dictionary.length) := by
  cases handshake with
  | lengthSent sent rest dictionary whole at_ =>
      exact ⟨dictionary, (List.cons.inj (head.symm.trans at_.st)).1⟩
  | dictionaryAsked word asks dictionary at_ | dictionaryDue dictionary at_ =>
      simp [at_.st] at head
  | begun at_ | greeted at_ | refused at_ | shared at_ | sharedAsked at_
  | silent at_ | silentAsked at_ | silentTaken at_
  | bytesSent read sent rest more whole at_ =>
      rcases at_.server with is | is <;> simp [server] at is

theorem RunPhase.not_awaitsDictionary (phase : RunPhase session system) :
    ¬ system.server.AwaitsDictionary := by
  rcases phase.server_cases with server | server | server | server | server <;>
    rw [server] <;> exact id

theorem System.run_handshake {moves : List Move}
    (runs : runMoves (System.step session) moves .start = some system)
    (awaits : system.server.AwaitsDictionary) :
    Handshake session system := by
  have extra : session.server.addExtra = true :=
    runMoves_invariant (fun system => system.server.AwaitsDictionary →
      session.server.addExtra = true)
      (fun _ _ _ before stepped => awaitsDictionary_step before stepped)
      (fun awaits => awaits.elim) runs awaits
  have accepts : ¬ session.DeniesDictionary := by
    intro denies
    have noExtra := denies.2.2.2.1
    rw [extra] at noExtra
    cases noExtra
  exact (System.run_phase accepts runs).resolve_right fun phase =>
    phase.not_awaitsDictionary awaits

theorem System.receiveDictLength_ofNat {length : Nat} (atLeast : 2 ≤ length)
    (atMost : length ≤ 0xffffff) (system : System) :
    system.receiveDictLength (BitVec.ofNat 32 length) =
      { system with server := .readDict length [] } := by
  have value : (BitVec.ofNat 32 length).toNat = length := by
    rw [BitVec.toNat_ofNat]
    omega
  have notSmall : (BitVec.ofNat 32 length).slt 2#32 = false := by
    have two : (2#32).toInt = 2 := by decide
    rw [BitVec.slt_eq_decide, decide_eq_false_iff_not, two,
      BitVec.toInt_eq_toNat_of_lt (by rw [value]; omega), value]
    omega
  have notLarge : ¬ 0xffffff#32 < BitVec.ofNat 32 length := by
    rw [BitVec.lt_def, value]
    simp
    omega
  rw [System.receiveDictLength, if_neg (by simp [notSmall, notLarge]), value]

/-- In every run of a target that carries the array of the LTO pass the fuzzer
accepts its length, and with its last byte every token kept has been loaded
once and in order, whatever the parts in which the bytes were written and
read. -/
theorem System.run_loadsDictionary (dictionary : List Token)
    (carries : session.target.dictionary = (dictionaryArray dictionary).ptr)
    {moves : List Move}
    (runs : runMoves (System.step session) moves .start = some system) :
    (session.target.hasDictionary = true ↔ dictionary ≠ []) ∧
    (∀ next, system.server = .waitDictLength →
      System.step session .serverDictLength system = some next →
      next.server = .readDict (dictionaryArray dictionary).ptr.length []) ∧
    (∀ len dict count next, system.server = .readDict len dict →
      System.step session (.serverDictBytes count) system = some next →
      ∃ bytes, (system.st.take count).mapM StatusItem.byte = some bytes ∧
        len - bytes.length < len ∧
        if next.server = .idle then
          loadEntries (dict ++ bytes) (len + dict.length) 0 =
            some ((dictionaryArray dictionary).kept.map Token.bytes, len + dict.length)
        else next.server = .readDict (len - bytes.length) (dict ++ bytes)) ∧
    (system.server.AwaitsDictionary → system.Moves session) := by
  refine ⟨?_, ?_, ?_, ?_⟩
  · rw [ne_eq, ← dictionaryArray_ptr_eq_nil, ← carries]
    simp [TargetOptions.hasDictionary]
  · intro next server stepped
    simp only [step] at stepped
    split at stepped
    · rename_i item st _ head
      obtain ⟨announced, rfl⟩ :=
        (run_handshake runs (by rw [server]; trivial)).length server head
      have collected : dictionary ≠ [] := by
        rw [ne_eq, ← dictionaryArray_ptr_eq_nil, ← carries]
        exact TargetOptions.dictionary_ne_nil announced
      obtain ⟨atLeast, atMost⟩ := dictionaryArray_length dictionary collected
      simp only [StatusItem.word, Option.map_some, Option.some.injEq]
        at stepped
      rw [carries, receiveDictLength_ofNat atLeast atMost] at stepped
      subst stepped
      rfl
    · cases stepped
  · intro len dict count next server stepped
    obtain ⟨sent, rest, whole, length, pipe⟩ :=
      (run_handshake runs (by rw [server]; trivial)).reading server
    simp only [step, server] at stepped
    split at stepped
    · rename_i available
      obtain ⟨positive, _, inPipe⟩ := available
      have inSent : count ≤ sent.length := by
        simpa [pipe] using inPipe
      have taken : (system.st.take count).mapM StatusItem.byte =
          some (sent.take count) := by
        rw [pipe, ← List.map_take, mapM_dictByte]
      have takenLength : (sent.take count).length = count :=
        List.length_take_of_le inSent
      rw [taken, Option.map_some, Option.some.injEq] at stepped
      subst stepped
      refine ⟨sent.take count, taken, ?_, ?_⟩
      · rw [takenLength]
        omega
      · unfold receiveDict
        dsimp only
        by_cases finished : len - (sent.take count).length = 0
        · rw [if_pos finished, if_pos rfl]
          have all : sent.take count = sent ∧ rest = [] := by
            rw [length, takenLength, List.length_append] at finished
            constructor
            · exact List.take_of_length_le (by omega)
            · exact List.eq_nil_of_length_eq_zero (by omega)
          have bytes : dict ++ sent = (dictionaryArray dictionary).ptr := by
            rw [← carries, ← whole, all.2, List.append_nil]
          have total : len + dict.length =
              (dictionaryArray dictionary).ptr.length := by
            rw [← bytes, length, all.2, List.append_nil, List.length_append]
            omega
          rw [all.1, bytes, total]
          exact loadEntries_dictionaryArray dictionary
        · rw [if_neg finished, if_neg ServerPc.noConfusion]
    · cases stepped
  · intro awaits
    apply (run_handshake runs awaits).synchronized.goesOn
    revert awaits
    unfold ServerStarts
    cases system.server with
    | waitHello | waitDictLength | readDict => exact fun _ => trivial
    | _ => exact False.elim

end Runs

def Token.foo : Token where
  bytes := [70#8, 79#8, 79#8]
  notTooShort := by decide
  fitsLengthByte := by decide

theorem dictionaryArray_foo :
    dictionaryArray [.foo] = ⟨[3#8, 70#8, 79#8, 79#8], 4, 1, [.foo]⟩ := by
  simp [dictionaryArray, sortAndUnique, DictionaryArray.add, Token.foo, maxAutoExtras]

theorem length_foo_lt : [3#8, 70#8, 79#8, 79#8].length < 2 ^ 32 := by
  decide

/-- A target with this token under a fuzzer. -/
def Session.loadsFoo : Session where
  target :=
    { mapSize := 65536#32, sharedmemFuzzing := false
      dictionary := [3#8, 70#8, 79#8, 79#8]
      dictionaryFits := length_foo_lt }
  persistent := false
  server :=
    { mapSize := 65536#32, supportShmemFuzz := false, ignoreAutodict := false
      addExtra := true, killSignal := sigkill }

/-- The dictionary is written in two parts, and two of its three parts are
read. -/
def Move.fooTransfer : List Move :=
  [.targetHello, .serverHello, .targetAnswer, .targetDictLength,
    .targetDictBytes 1, .serverDictLength, .serverDictBytes 1,
    .targetDictBytes 3, .serverDictBytes 2]

/-- The fuzzer has read three of the four bytes. -/
def System.fooRead : System :=
  { System.start with
    st := [.dictByte 79#8]
    server := .readDict 1 [3#8, 70#8, 79#8]
    target := .loop
    wasKilled := ⟨fsOptEnabled ||| fsOptAutodict, .handshake⟩ }

theorem System.run_loadsDictionary_foo :
    runMoves (System.step .loadsFoo) Move.fooTransfer .start = some .fooRead ∧
      System.step .loadsFoo (.serverDictBytes 1) .fooRead =
        some { System.fooRead with st := [], server := .idle } ∧
      loadEntries [3#8, 70#8, 79#8, 79#8] 4 0 = some ([[70#8, 79#8, 79#8]], 4) := by
  have carries : Session.loadsFoo.target.dictionary =
      (dictionaryArray [.foo]).ptr := by
    rw [dictionaryArray_foo]
    rfl
  have runs : runMoves (System.step .loadsFoo) Move.fooTransfer .start =
      some .fooRead := rfl
  have reads : System.step .loadsFoo (.serverDictBytes 1) .fooRead =
      some { System.fooRead with st := [], server := .idle } := rfl
  obtain ⟨bytes, read, _, all⟩ :=
    (System.run_loadsDictionary [.foo] carries runs).2.2.1 1
      [3#8, 70#8, 79#8] 1 _ rfl reads
  obtain rfl : bytes = [79#8] := Option.some.inj read.symm
  rw [dictionaryArray_foo, if_pos rfl] at all
  exact ⟨runs, reads, all⟩

end AFLPlusPlus

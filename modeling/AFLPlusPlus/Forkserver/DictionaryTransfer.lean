import AFLPlusPlus.Forkserver.Handshake

/-!
# The dictionary goes through the pipe

The target writes the length and then the bytes, the fuzzer reads them in parts
of its own, and the last part ends the handshake.  `Handshake.step` puts the
steps of the whole handshake together.
-/

namespace AFLPlusPlus

variable {session : Session} {system next : System} {move : Move}

theorem TargetOptions.dictionary_ne_nil {target : TargetOptions}
    (dictionary : target.hasDictionary = true) : target.dictionary ≠ [] := by
  intro empty
  simp [TargetOptions.hasDictionary, empty] at dictionary

theorem mapM_dictByte (bytes : List (BitVec 8)) :
    (bytes.map StatusItem.dictByte).mapM StatusItem.byte = some bytes := by
  induction bytes with
  | nil => rfl
  | cons byte bytes induction =>
      rw [List.map_cons, List.mapM_cons, induction]
      rfl

theorem Handshake.dictionaryAsked_step {word : BitVec 32}
    (asks : hasOption word (fsOptEnabled ||| fsOptAutodict) = true)
    (dictionary : session.target.hasDictionary = true)
    (at_ : system.At .waitDictLength .waitAnswer [⟨word, .handshake⟩] [] 0 false)
    (inside : move.outside = false)
    (stepped : System.step session move system = some next) :
    Handshake session next := by
  cases move with
  | targetAnswer =>
      simp only [System.step, at_.target, at_.ctl, Option.some.injEq]
        at stepped
      obtain ⟨fuzzPtr, answered⟩ := System.receiveAnswer_dictionary asks dictionary
      rw [answered] at stepped
      subst stepped
      exact .dictionaryDue dictionary
        { at_ with target := rfl, ctl := rfl }
  | _ =>
      rcases at_.server with server | server <;>
        simp [Move.outside, System.step, server, at_.target, at_.st]
          at inside stepped

theorem Handshake.dictionaryDue_step
    (dictionary : session.target.hasDictionary = true)
    (at_ : system.At .waitDictLength .sendDictLength [] [] 0 false)
    (inside : move.outside = false)
    (stepped : System.step session move system = some next) :
    Handshake session next := by
  cases move with
  | targetDictLength =>
      simp only [System.step, at_.target, Option.some.injEq] at stepped
      subst stepped
      refine .lengthSent [] session.target.dictionary dictionary rfl
        { at_ with target := ?_, st := ?_ }
      · simp [sending, TargetOptions.dictionary_ne_nil dictionary]
      · simp [at_.st]
  | _ =>
      rcases at_.server with server | server <;>
        simp [Move.outside, System.step, server, at_.target, at_.st]
          at inside stepped

variable {rest sent : List (BitVec 8)} {st : List StatusItem} {server : ServerPc}

variable {read : List (BitVec 8)} {count : Nat}

/-- The target writes a part of what is left of the dictionary. -/
theorem System.At.sendDict (at_ : system.At server (sending rest) [] st 0 false)
    (stepped : System.step session (.targetDictBytes count) system = some next) :
    next.At server (sending (rest.drop count)) []
      (st ++ (rest.take count).map .dictByte) 0 false := by
  simp only [System.step] at stepped
  split at stepped
  · rename_i bytes target
    have same : bytes = rest := by
      have isSending := at_.target
      unfold sending at isSending
      rw [target] at isSending
      split at isSending
      · cases isSending
      · exact TargetPc.sendDict.inj isSending
    subst same
    split at stepped
    · obtain rfl := Option.some.inj stepped
      exact { at_ with target := rfl, st := by simp [System.sendDict, at_.st] }
    · cases stepped
  · cases stepped

theorem System.At.sending_target (at_ : system.At server (sending rest) [] st 0 false) :
    system.target = .loop ∨ system.target = .sendDict rest := by
  rw [at_.target]
  unfold sending
  split
  · exact .inl rfl
  · exact .inr rfl

theorem Handshake.lengthSent_step (dictionary : session.target.hasDictionary = true)
    (whole : sent ++ rest = session.target.dictionary)
    (at_ : system.At .waitDictLength (sending rest) []
      (.dictLength (BitVec.ofNat 32 session.target.dictionary.length) ::
        sent.map .dictByte) 0 false) (inside : move.outside = false)
    (stepped : System.step session move system = some next) :
    Handshake session next := by
  have target := at_.sending_target
  cases move with
  | serverDictLength =>
      simp only [System.step] at stepped
      split at stepped
      · rename_i head
        obtain ⟨rfl, rfl⟩ := List.cons.inj (at_.st.symm.trans head)
        simp only [StatusItem.word, Option.map_some, Option.some.injEq]
          at stepped
        subst stepped
        have more : sent ++ rest ≠ [] :=
          whole ▸ TargetOptions.dictionary_ne_nil dictionary
        have length : (BitVec.ofNat 32
            session.target.dictionary.length).toNat = (sent ++ rest).length := by
          rw [BitVec.toNat_ofNat,
            Nat.mod_eq_of_lt session.target.dictionaryFits, whole]
        unfold System.receiveDictLength
        rw [length]
        split
        · exact .bytesSent [] sent rest more whole
            { at_ with server := .inr rfl, st := rfl }
        · exact .bytesSent [] sent rest more whole
            { at_ with server := .inl rfl, st := rfl }
      · cases stepped
  | targetDictBytes count =>
      have sends := at_.sendDict stepped
      rw [List.cons_append, ← List.map_append] at sends
      refine .lengthSent (sent ++ rest.take count) (rest.drop count) dictionary
        ?_ sends
      rw [List.append_assoc, List.take_append_drop, whole]
  | _ =>
      rcases at_.server with server | server <;>
        rcases target with target | target <;>
        simp [Move.outside, System.step, server, target, at_.ctl,
          at_.alreadyReadFirst] at inside stepped

/-- The fuzzer reads a part of the dictionary; with the last part the handshake
is over. -/
theorem Handshake.readDict (inSent : count ≤ sent.length)
    (whole : read ++ sent ++ rest = session.target.dictionary)
    (at_ : system.At (.readDict (sent ++ rest).length read) (sending rest)
      [] (sent.map .dictByte) 0 false) :
    let next := { system with st := system.st.drop count }.receiveDict
      (sent ++ rest).length read (sent.take count)
    Handshake session next ∨ RunPhase session next := by
  have length : (sent.take count).length = count := List.length_take_of_le inSent
  have left : (sent ++ rest).length - (sent.take count).length =
      (sent.drop count ++ rest).length := by
    simp only [List.length_append, List.length_drop, length]
    omega
  have pipe : system.st.drop count = (sent.drop count).map StatusItem.dictByte := by
    rw [at_.st, List.map_drop]
  unfold System.receiveDict
  rw [left]
  split
  · rename_i finished
    obtain ⟨noneSent, noneLeft⟩ :=
      List.append_eq_nil_iff.mp (List.eq_nil_of_length_eq_zero finished)
    subst noneLeft
    rw [noneSent] at pipe
    exact .inr (System.At.runPhase
      { at_ with server := .inl rfl, st := pipe })
  · rename_i unfinished
    refine .inl (.bytesSent (read ++ sent.take count) (sent.drop count) rest ?_ ?_
      { at_ with server := .inl rfl, st := pipe })
    · exact List.ne_nil_of_length_pos (Nat.pos_of_ne_zero unfinished)
    · rw [List.append_assoc read, List.take_append_drop, whole]

theorem Handshake.bytesSent_step (more : sent ++ rest ≠ [])
    (whole : read ++ sent ++ rest = session.target.dictionary)
    (at_ : system.At (.readDict (sent ++ rest).length read) (sending rest)
      [] (sent.map .dictByte) 0 false) (inside : move.outside = false)
    (stepped : System.step session move system = some next) :
    Handshake session next ∨ RunPhase session next := by
  have target := at_.sending_target
  cases move with
  | serverDictBytes count =>
      simp only [System.step] at stepped
      split at stepped
      · rename_i server
        have same := at_.server.resolve_right (by simp [server])
        obtain ⟨rfl, rfl⟩ := ServerPc.readDict.inj (server.symm.trans same)
        split at stepped
        · rename_i available
          have inSent : count ≤ sent.length := by
            simpa [at_.st] using available.2.2
          have taken : (system.st.take count).mapM StatusItem.byte =
              some (sent.take count) := by
            rw [at_.st, ← List.map_take, mapM_dictByte]
          rw [taken, Option.map_some, Option.some.injEq] at stepped
          subst stepped
          exact Handshake.readDict inSent whole at_
        · cases stepped
      · cases stepped
  | targetDictBytes count =>
      have sends := at_.sendDict stepped
      rw [← List.map_append] at sends
      have same : sent ++ rest = sent ++ rest.take count ++ rest.drop count :=
        by rw [List.append_assoc, List.take_append_drop]
      refine .inl (.bytesSent read (sent ++ rest.take count) (rest.drop count)
        (same ▸ more) ?_ (same ▸ sends))
      rw [List.append_assoc, ← same, ← List.append_assoc, whole]
  | _ =>
      rcases at_.server with server | server <;>
        rcases target with target | target <;>
        simp [Move.outside, System.step, server, target, at_.ctl,
          at_.alreadyReadFirst] at inside stepped
theorem System.At.giveUp {target : TargetPc} {ctl : List ControlWord} {requests : Nat}
    {already : Bool} (at_ : system.At server target ctl st requests already) :
    { system with server := .over }.At server target ctl st requests
      already :=
  { at_ with server := .inr rfl }

section

variable (handshake : Handshake session system)
include handshake

theorem Handshake.giveUp : Handshake session { system with server := .over } := by
  cases handshake with
  | begun at_ plain unmapped => exact .begun at_.giveUp plain unmapped
  | greeted at_ plain unmapped => exact .greeted at_.giveUp plain unmapped
  | refused at_ => exact .refused at_.giveUp
  | shared at_ => exact .shared at_.giveUp
  | sharedAsked at_ => exact .sharedAsked at_.giveUp
  | silent at_ unmapped => exact .silent at_.giveUp unmapped
  | silentAsked at_ unmapped => exact .silentAsked at_.giveUp unmapped
  | silentTaken at_ taken => exact .silentTaken at_.giveUp taken
  | dictionaryAsked word asks dictionary at_ =>
      exact .dictionaryAsked word asks dictionary at_.giveUp
  | dictionaryDue dictionary at_ => exact .dictionaryDue dictionary at_.giveUp
  | lengthSent sent rest dictionary whole at_ =>
      exact .lengthSent sent rest dictionary whole at_.giveUp
  | bytesSent read sent rest more whole at_ =>
      exact .bytesSent read sent rest more whole at_.giveUp

theorem Handshake.child : system.child = none := by
  cases handshake with
  | begun at_ | greeted at_ | refused at_ | shared at_ | sharedAsked at_
  | silent at_ | silentAsked at_ | silentTaken at_
  | dictionaryAsked word asks dictionary at_ | dictionaryDue dictionary at_
  | lengthSent sent rest dictionary whole at_
  | bytesSent read sent rest more whole at_ => exact at_.child

theorem Handshake.outside (outside : move.outside = true)
    (stepped : System.step session move system = some next) :
    Handshake session next := by
  cases move with
  | serverGiveUp =>
      obtain rfl := Option.some.inj stepped
      exact handshake.giveUp
  | childExit status =>
      simp [System.step, System.changeChild, handshake.child] at stepped
  | childStop =>
      simp [System.step, System.changeChild, handshake.child] at stepped
  | _ => cases outside

end

theorem Handshake.step (accepts : ¬ session.DeniesDictionary)
    (handshake : Handshake session system)
    (stepped : System.step session move system = some next) :
    Handshake session next ∨ RunPhase session next := by
  cases outside : move.outside with
  | true => exact .inl (handshake.outside outside stepped)
  | false =>
      cases handshake with
      | begun at_ plain unmapped =>
          exact .inl (begun_step outside stepped at_ plain unmapped)
      | greeted at_ plain unmapped =>
          exact greeted_step outside stepped accepts at_ plain unmapped
      | refused at_ => exact (refused_step outside stepped at_).elim
      | shared at_ => exact shared_step outside stepped at_
      | sharedAsked at_ => exact .inr (sharedAsked_step outside stepped at_)
      | silent at_ unmapped =>
          exact .inl (silent_step outside stepped at_ unmapped)
      | silentAsked at_ unmapped =>
          exact .inl (silentAsked_step outside stepped at_ unmapped)
      | silentTaken at_ taken =>
          exact .inr (silentTaken_step outside stepped at_ taken)
      | dictionaryAsked word asks dictionary at_ =>
          exact .inl (dictionaryAsked_step asks dictionary at_ outside stepped)
      | dictionaryDue dictionary at_ =>
          exact .inl (dictionaryDue_step dictionary at_ outside stepped)
      | lengthSent sent rest dictionary whole at_ =>
          exact .inl (lengthSent_step dictionary whole at_ outside stepped)
      | bytesSent read sent rest more whole at_ =>
          exact bytesSent_step more whole at_ outside stepped

theorem Handshake.start (session : Session) : Handshake session System.start :=
  .begun ⟨.inl rfl, rfl, rfl, rfl, rfl, rfl, rfl, rfl, rfl⟩ rfl rfl

end AFLPlusPlus

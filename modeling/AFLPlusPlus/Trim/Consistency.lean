import AFLPlusPlus.Trim.TrimCase

/-!
# The copies of a trimmed case

The length of a queue entry, its file, its cached buffer and the size of the
cache describe one case before it is trimmed.  They do so afterwards unless
trimming is aborted behind a deletion, or an end of it fails.
-/

namespace AFLPlusPlus.Trim

open Buffer

/-- All copies are of one case, where the other cached cases have `others` bytes
in total. -/
structure TestcaseCopies.Consistent (others : BitVec 64)
    (copies : TestcaseCopies) : Prop where
  fileLen : copies.fileLen = (copies.afl.entries copies.q).len.toNat
  cached : ∀ buf, (copies.afl.entries copies.q).testcaseBuf = some buf →
    buf.loadBytes 0 (copies.afl.entries copies.q).len.toNat = copies.file
  cacheSize : copies.afl.cacheSize =
    others + if (copies.afl.entries copies.q).testcaseBuf.isSome then
      (copies.afl.entries copies.q).len.setWidth 64 else 0#64

theorem consistent_iff {others : BitVec 64} {copies : TestcaseCopies}
    {entry : CachedEntry} (isEntry : copies.afl.entries copies.q = entry) :
    copies.Consistent others ↔
      copies.fileLen = entry.len.toNat ∧
        (∀ buf, entry.testcaseBuf = some buf →
          buf.loadBytes 0 entry.len.toNat = entry.file.loadBytes 0 copies.fileLen) ∧
        copies.afl.cacheSize = others + if entry.testcaseBuf.isSome then
          entry.len.setWidth 64 else 0#64 := by
  subst isEntry
  exact ⟨fun consistent => ⟨consistent.fileLen, consistent.cached,
    consistent.cacheSize⟩, fun parts => ⟨parts.1, parts.2.1, parts.2.2⟩⟩

/-- A run after which a deletion is made permanent. -/
def TrimRun.Keeps (settings : TrimSettings) (run : TrimRun) : Prop :=
  run.aborts = false ∧
    settings.cksum (bucketed settings.mapSize run.traceBits) = settings.execCksum

/-- No run aborts behind one that makes a deletion permanent. -/
def NoLateAbort (settings : TrimSettings) (results : Nat → TrimRun)
    (runs : Nat) : Prop :=
  ∀ n < runs, (results n).aborts = true → ∀ m < n, ¬(results m).Keeps settings

/-- The case is written to the file and the cached buffer shrinks. -/
def Completes (environment : TrimEnvironment) (cached : Bool)
    (trimmed : List (BitVec 8)) : Prop :=
  cached = true → environment.cache.allocates = true ∧
    (environment.noUnlink = true →
      Repeating trimmed 0 (parts environment.writes trimmed.length))

/-- What the results of the runs made so far say about the variables. -/
structure Follows (settings : TrimSettings) (results : Nat → TrimRun)
    (inBuf : Buffer) (origLen : Nat) (trimming : Trimming) : Prop where
  goesOn : trimming.aborted = false → ∀ n < trimming.runs, (results n).aborts = false
  stops : trimming.aborted = true → ∃ last, trimming.runs = last + 1 ∧
    (results last).aborts = true ∧ ∀ n < last, (results n).aborts = false
  changed : trimming.needsWrite = true ↔
    ∃ n < trimming.runs, (results n).Keeps settings
  same : trimming.needsWrite = false → trimming.inBuf = inBuf ∧ trimming.len = origLen
  shorter : trimming.needsWrite = true → trimming.len < origLen

variable {settings : TrimSettings} {environment : TrimEnvironment}
  {results : Nat → TrimRun} {inBuf : Buffer} {origLen : Nat}
  {trimming : Trimming}

theorem Follows.start (settings : TrimSettings) (results : Nat → TrimRun)
    (inBuf : Buffer) (origLen : Nat) (cleanTrace traceBits : Buffer) :
    Follows settings results inBuf origLen
      (Trimming.start inBuf origLen cleanTrace traceBits) where
  goesOn _ n made := absurd made (Nat.not_lt_zero n)
  stops aborted := Bool.noConfusion aborted
  changed := by
    refine iff_of_false Bool.false_ne_true ?_
    rintro ⟨n, made, _⟩
    cases made
  same _ := ⟨rfl, rfl⟩
  shorter changed := Bool.noConfusion changed

theorem Follows.len_le
    (follows : Follows settings results inBuf origLen trimming) :
    trimming.len ≤ origLen := by
  cases changed : trimming.needsWrite with
  | false => exact Nat.le_of_eq (follows.same changed).2
  | true => exact Nat.le_of_lt (follows.shorter changed)

theorem Follows.noLateAbort_iff
    (follows : Follows settings results inBuf origLen trimming) :
    NoLateAbort settings results trimming.runs ↔
      ¬(trimming.aborted = true ∧ trimming.needsWrite = true) := by
  cases aborted : trimming.aborted with
  | false =>
      refine iff_of_true (fun n made aborts => ?_) nofun
      rw [follows.goesOn aborted n made] at aborts
      cases aborts
  | true =>
      obtain ⟨last, isLast, lastAborts, others⟩ := follows.stops aborted
      rw [follows.changed, isLast]
      constructor
      · rintro none ⟨_, n, made, keeps⟩
        have before : n < last := by
          refine Nat.lt_of_le_of_ne (Nat.le_of_lt_succ made) ?_
          rintro rfl
          rw [keeps.1] at lastAborts
          cases lastAborts
        exact none last (Nat.lt_succ_self last) lastAborts n before keeps
      · intro none n made aborts m before keeps
        exact none ⟨rfl, m, by omega, keeps⟩

theorem Follows.round
    (sequence : ∀ n mem, environment.run n mem = results n)
    (follows : Follows settings results inBuf origLen trimming)
    (running : trimming.aborted = false) {removeLen removePos : Nat}
    (inside : removePos < trimming.len) (positive : 0 < removeLen) :
    Follows settings results inBuf origLen
      (trimming.round settings environment removeLen removePos).2 := by
  have before := follows.goesOn running
  have shorter := follows.len_le
  unfold Trimming.round
  dsimp only
  rw [sequence]
  split
  · rename_i aborts
    refine ⟨nofun, fun _ => ⟨trimming.runs, rfl, aborts, before⟩, ?_,
      follows.same, follows.shorter⟩
    rw [Nat.exists_lt_succ_right]
    refine follows.changed.trans ⟨Or.inl, ?_⟩
    rintro (earlier | keeps)
    · exact earlier
    · rw [keeps.1] at aborts
      cases aborts
  · rename_i completes
    rw [Bool.not_eq_true] at completes
    have goesOn : ∀ n < trimming.runs + 1, (results n).aborts = false :=
      Nat.forall_lt_succ_right.mpr ⟨before, completes⟩
    split
    · rename_i accepted
      refine ⟨fun _ => goesOn, fun aborted => ?_, ?_, nofun, fun _ => ?_⟩
      · cases running.symm.trans aborted
      · exact iff_of_true rfl ⟨trimming.runs, Nat.lt_succ_self _, completes, accepted⟩
      · change trimming.len - min removeLen (trimming.len - removePos) < origLen
        omega
    · rename_i rejected
      refine ⟨fun _ => goesOn, fun aborted => ?_, ?_, follows.same, follows.shorter⟩
      · cases running.symm.trans aborted
      · refine follows.changed.trans ?_
        refine (Iff.trans ?_ Nat.exists_lt_succ_right.symm)
        refine ⟨Or.inl, ?_⟩
        rintro (earlier | keeps)
        · exact earlier
        · exact absurd keeps.2 rejected

variable {oldLen : BitVec 32} {fuel removeLen : Nat} {afl : TestcaseCache}

theorem Follows.pass (sequence : ∀ n mem, environment.run n mem = results n)
    (positive : 0 < removeLen) {removePos : Nat}
    (follows : Follows settings results inBuf origLen trimming) :
    Yields (fun _ => True) (Follows settings results inBuf origLen)
      (trimming.pass settings environment removeLen fuel removePos) := by
  induction fuel generalizing removePos trimming with
  | zero => trivial
  | succ fuel induction =>
      rw [Trimming.pass]
      split
      · rename_i continues
        exact induction
          (follows.round sequence continues.1 continues.2 positive)
      · exact follows

theorem Follows.passes
    (sequence : ∀ n mem, environment.run n mem = results n)
    {fuel removeLen : Nat}
    (follows : Follows settings results inBuf origLen trimming) :
    Yields (fun _ => True) (Follows settings results inBuf origLen)
      (trimming.passes settings environment fuel removeLen) := by
  induction fuel generalizing removeLen trimming with
  | zero => trivial
  | succ fuel induction =>
      rw [Trimming.passes]
      split
      · rename_i continues
        have positive : 0 < removeLen :=
          Nat.lt_of_lt_of_le (by decide : 0 < trimMinBytes)
            (Nat.le_trans (Nat.le_max_right _ _) continues.2)
        exact (follows.pass sequence positive).bind fun passed kept =>
          induction kept
      · exact follows

theorem Follows.returned (sequence : ∀ n mem, environment.run n mem = results n)
    (follows : Follows settings results inBuf origLen trimming) {passed : Trimming}
    (returned : trimming.passes settings environment fuel removeLen = .ok passed) :
    Follows settings results inBuf origLen passed := by
  have kept : Yields (fun _ => True) _
      (trimming.passes settings environment fuel removeLen) :=
    follows.passes sequence
  rw [returned] at kept
  exact kept

section

variable {others : BitVec 64} (size : afl.cacheSize = others + oldLen.setWidth 64)
include size

theorem resized_eq (len : BitVec 32) :
    afl.resized len oldLen = others + len.setWidth 64 := by
  rw [TestcaseCache.resized, size, BitVec.add_assoc,
    BitVec.add_comm (oldLen.setWidth 64), ← BitVec.add_assoc,
    BitVec.add_sub_cancel]

/-- The size follows a new length where `realloc` returns a buffer. -/
theorem shrunk_iff {len : BitVec 32} (cache : CacheEnvironment) (differs : len ≠ oldLen) :
    (if len ≠ oldLen ∧ cache.allocates = true then afl.resized len oldLen
        else afl.cacheSize) = others + len.setWidth 64 ↔
      cache.allocates = true := by
  by_cases allocates : cache.allocates = true
  · rw [if_pos ⟨differs, allocates⟩, resized_eq size]
    exact iff_of_true rfl allocates
  · rw [if_neg fun both => allocates both.2, size]
    refine iff_of_false (fun same => differs ?_) allocates
    have values := congrArg BitVec.toNat
      ((BitVec.add_right_inj others).mp same)
    simp only [BitVec.toNat_setWidth] at values
    apply BitVec.eq_of_toNat_eq
    omega

end

/-- What custom trimmers leave: the file has the length of the entry, and the
cache is not yet touched. -/
structure Retakeable (before after : TestcaseCopies) : Prop where
  sameEntry : after.q = before.q
  sameSize : after.afl.cacheSize = before.afl.cacheSize
  sameBuf : (after.afl.entries after.q).testcaseBuf =
    (before.afl.entries before.q).testcaseBuf
  fileLen : after.fileLen = (after.afl.entries after.q).len.toNat

theorem Retakeable.custom {before : TestcaseCopies} {state : TrimState}
    (retakeable : Retakeable before state.copies) (rounds : List CustomRound) :
    Yields (fun _ => True) (fun next => Retakeable before next.copies)
      (trimCaseCustom environment settings state rounds) := by
  unfold trimCaseCustom
  dsimp only
  split
  · rename_i outBuf cleanTraceCustom _ _
    split
    · trivial
    · rename_i file rewritten
      have short : (outBuf.take (outBuf.length % 2 ^ 32)).length < 2 ^ 32 :=
        Nat.lt_of_le_of_lt (List.length_take_le _ _)
          (Nat.mod_lt _ (by decide))
      refine ⟨retakeable.sameEntry, retakeable.sameSize, ?_, ?_⟩
      · rw [← retakeable.sameBuf]
        simp [TestcaseCopies.rewrite, TestcaseCache.modify]
      · have length := (rewriteFile_spec rewritten).1
        simp only [TestcaseCopies.rewrite, TestcaseCache.modify, Function.update_self]
        rw [length, BitVec.toNat_ofNat, Nat.mod_eq_of_lt short]
  · exact retakeable

theorem Retakeable.customs {before : TestcaseCopies} {state : TrimState}
    (retakeable : Retakeable before state.copies)
    (customs : List (List CustomRound)) :
    Yields (fun _ => True) (fun next => Retakeable before next.copies)
      (customs.foldlM (trimCaseCustom environment settings) state) := by
  induction customs generalizing state with
  | nil => exact retakeable
  | cons rounds customs induction =>
      rw [List.foldlM_cons]
      exact (retakeable.custom rounds).bind fun next kept => induction kept

/-- The entry takes its case from the file. -/
theorem Retakeable.retake {others : BitVec 64} {before : TestcaseCopies}
    {state : TrimState} (retakeable : Retakeable before state.copies)
    (consistent : before.Consistent others) :
    Yields (fun _ => True) (fun next => next.copies.Consistent others)
      (retake environment (before.afl.entries before.q).len state) := by
  obtain ⟨trimming, afl, q, fileLen⟩ := state
  obtain ⟨sameEntry, sameSize, sameBuf, sameLen⟩ := retakeable
  dsimp only at sameEntry sameSize sameBuf sameLen
  have size := consistent.cacheSize
  rw [← sameSize, ← sameBuf] at size
  unfold Trim.retake TestcaseCache.queueTestcaseRetake
  dsimp only
  cases cached : (afl.entries q).testcaseBuf with
  | none =>
      rw [cached] at size
      refine ⟨sameLen, ?_, ?_⟩
      · rw [cached]
        nofun
      · dsimp only
        rw [cached]
        exact size
  | some testcaseBuf =>
      rw [cached] at size
      split
      · trivial
      · rename_i next returned
        dsimp only at returned
        split at returned
        · obtain rfl := Except.ok.inj returned
          refine ⟨?_, ?_, ?_⟩
          · simp only [TestcaseCache.replaceBuffer, TestcaseCache.modify,
              Function.update_self]
            exact sameLen
          · intro buf isBuf
            simp only [TestcaseCache.replaceBuffer, TestcaseCache.modify,
              Function.update_self, Option.some.injEq] at isBuf
            subst isBuf
            simp only [TestcaseCopies.file, TestcaseCache.replaceBuffer,
              TestcaseCache.modify, Function.update_self]
            rw [sameLen]
          · simp only [TestcaseCache.replaceBuffer, TestcaseCache.modify,
              Function.update_self, Option.isSome_some, if_true]
            split
            · exact resized_eq size _
            · rename_i same
              rw [Decidable.not_not.mp same]
              exact size
        · cases returned

def TestcaseCopies.isCached (copies : TestcaseCopies) : Bool :=
  (copies.afl.entries copies.q).testcaseBuf.isSome

theorem edit_self (copies : TestcaseCopies) :
    copies.edit (copies.afl.entries copies.q).len.toNat copies.inBuf =
      copies := by
  have entry : { copies.afl.entries copies.q with
      len := BitVec.ofNat 32 (copies.afl.entries copies.q).len.toNat
      testcaseBuf := (copies.afl.entries copies.q).testcaseBuf.map
        fun _ => copies.inBuf : CachedEntry } =
      copies.afl.entries copies.q := by
    unfold TestcaseCopies.inBuf
    rw [BitVec.ofNat_toNat, BitVec.setWidth_eq]
    generalize copies.afl.entries copies.q = found
    obtain ⟨len, file, testcaseBuf⟩ := found
    cases testcaseBuf <;> rfl
  unfold TestcaseCopies.edit TestcaseCache.modify
  dsimp only
  rw [entry, Function.update_eq_self]

section Finish

variable {others : BitVec 64} {copies : TestcaseCopies}
  (follows : Follows settings results copies.inBuf
    (copies.afl.entries copies.q).len.toNat trimming)
include follows

theorem toNat_trimmedLen : (BitVec.ofNat 32 trimming.len).toNat = trimming.len := by
  have shorter := follows.len_le
  have isU32 := (copies.afl.entries copies.q).len.isLt
  rw [BitVec.toNat_ofNat, Nat.mod_eq_of_lt (by omega)]

section

variable (consistent : copies.Consistent others)
include consistent

theorem edit_changed (changed : trimming.needsWrite = true) :
    ¬(copies.edit trimming.len trimming.inBuf).Consistent others := by
  intro after
  have fileLen := after.fileLen
  simp only [TestcaseCopies.edit, TestcaseCache.modify,
    Function.update_self] at fileLen
  rw [toNat_trimmedLen follows, consistent.fileLen] at fileLen
  have shorter := follows.shorter changed
  omega

/-- The file is written and the cache follows. -/
theorem retakeMem_consistent_iff (changed : trimming.needsWrite = true)
    {file : List (BitVec 8)}
    (rewritten : rewriteFile environment.noUnlink environment.opens
      environment.writes trimming.data = some file) :
    (((copies.edit trimming.len trimming.inBuf).rewrite file).retakeMem
        environment.cache trimming.len
        (copies.afl.entries copies.q).len).Consistent others ↔
      Completes environment copies.isCached trimming.data := by
  obtain ⟨length, isCase⟩ := rewriteFile_spec rewritten
  have isLen := toNat_trimmedLen follows
  have dataLen : trimming.data.length = trimming.len := length_loadBytes _ _ _
  have size := consistent.cacheSize
  have loaded : (Buffer.storeBytes (fun _ => 0#8) 0 file).loadBytes 0
      file.length = file := (spells_storeBytes _ _ _).loadBytes_eq
  unfold Completes TestcaseCopies.isCached TestcaseCopies.retakeMem
    TestcaseCache.queueTestcaseRetakeMem
  cases cached : (copies.afl.entries copies.q).testcaseBuf with
  | none =>
      rw [cached] at size
      simp only [TestcaseCopies.rewrite, TestcaseCopies.edit,
        TestcaseCache.modify, Function.update_self, cached, Option.map_none]
      refine iff_of_true ((consistent_iff (Function.update_self _ _ _)).mpr
        ⟨?_, nofun, size⟩) nofun
      rw [isLen, length, dataLen]
  | some testcaseBuf =>
      rw [cached] at size
      simp only [TestcaseCopies.rewrite, TestcaseCopies.edit,
        TestcaseCache.modify, Function.update_self, cached, Option.map_some,
        TestcaseCache.replaceBuffer]
      refine (consistent_iff (Function.update_self _ _ _)).trans ?_
      have isFile : (∀ buf, some trimming.inBuf = some buf →
          buf.loadBytes 0 (BitVec.ofNat 32 trimming.len).toNat =
            (Buffer.storeBytes (fun _ => 0#8) 0 file).loadBytes 0
              file.length) ↔ file = trimming.data := by
        rw [isLen, loaded]
        constructor
        · intro same
          exact (same _ rfl).symm
        · rintro same buf isBuf
          rw [← Option.some.inj isBuf]
          exact same.symm
      have shorter := follows.shorter changed
      have differs : BitVec.ofNat 32 trimming.len ≠
          (copies.afl.entries copies.q).len := by
        intro same
        rw [← same, isLen] at shorter
        exact Nat.lt_irrefl _ shorter
      have isSize := shrunk_iff size environment.cache differs
      dsimp only
      rw [isFile, isCase, isLen, length, dataLen]
      refine ⟨fun parts _ => ⟨isSize.mp parts.2.2, parts.2.1⟩, fun completes => ?_⟩
      obtain ⟨allocates, repeating⟩ := completes rfl
      exact ⟨rfl, repeating, isSize.mpr allocates⟩

/-- What the end of `trim_case` leaves. -/
theorem finish_consistent_iff {state : TrimState}
    (returned : finish environment settings copies
      (copies.afl.entries copies.q).len trimming = .ok state) :
    state.trimming.data = trimming.data ∧ state.trimming.runs = trimming.runs ∧
      (state.copies.Consistent others ↔
        ¬(trimming.aborted = true ∧ trimming.needsWrite = true) ∧
          (trimming.needsWrite = true →
            Completes environment copies.isCached trimming.data)) := by
  unfold finish at returned
  dsimp only at returned
  cases changed : trimming.needsWrite with
  | false =>
      rw [if_neg (by simp [changed])] at returned
      obtain rfl := Except.ok.inj returned
      have same : copies.edit trimming.len trimming.inBuf = copies := by
        rw [(follows.same changed).1, (follows.same changed).2, edit_self]
      refine ⟨rfl, rfl, ?_⟩
      dsimp only
      rw [same]
      refine iff_of_true consistent ⟨?_, ?_⟩
      · rintro ⟨_, written⟩
        cases written
      · intro written
        cases written
  | true =>
      cases aborted : trimming.aborted with
      | true =>
          rw [if_neg (by simp [aborted])] at returned
          obtain rfl := Except.ok.inj returned
          exact ⟨rfl, rfl, iff_of_false (edit_changed follows consistent changed)
            fun both => both.1 ⟨rfl, rfl⟩⟩
      | false =>
          rw [if_pos ⟨aborted, changed⟩] at returned
          split at returned
          · cases returned
          · rename_i file rewritten
            obtain rfl := Except.ok.inj returned
            refine ⟨rfl, rfl, ?_⟩
            rw [retakeMem_consistent_iff follows consistent changed rewritten]
            refine ⟨fun completes => ⟨?_, fun _ => completes⟩, fun both => both.2 rfl⟩
            rintro ⟨abort, _⟩
            cases abort

end

end Finish

/-- When `trim_case` keeps its copies of the case consistent: a custom mutator
has trimmed it, or no run aborts behind a deletion, and what follows deletions
completes. -/
theorem trimCase_consistent_iff {others : BitVec 64} {copies : TestcaseCopies}
    (consistent : copies.Consistent others)
    (sequence : ∀ n mem, environment.run n mem = results n)
    {customs : List (List CustomRound)} {cleanTrace traceBits : Buffer}
    {fuel : Nat} {state : TrimState}
    (returned : trimCase environment settings customs cleanTrace traceBits
      fuel copies = .ok state) :
    state.copies.Consistent others ↔
      customs ≠ [] ∨
        (NoLateAbort settings results state.trimming.runs ∧
          ((∃ n < state.trimming.runs, (results n).Keeps settings) →
            Completes environment copies.isCached state.trimming.data)) := by
  by_cases custom : customs ≠ []
  · refine iff_of_true ?_ (.inl custom)
    rw [trimCase, if_pos custom] at returned
    have start : Retakeable copies copies := ⟨rfl, rfl, rfl, consistent.fileLen⟩
    have trimmed := @Retakeable.customs settings environment copies
      ⟨Trimming.start copies.inBuf (copies.afl.entries copies.q).len.toNat
        cleanTrace traceBits, copies⟩ start customs
    have taken := trimmed.bind fun next kept =>
      @Retakeable.retake environment others copies next kept consistent
    rw [returned] at taken
    exact taken
  · obtain rfl := Decidable.not_not.mp custom
    rw [or_iff_right custom]
    by_cases short : (copies.afl.entries copies.q).len < 5#32
    · rw [trimCase, if_neg custom, if_pos short] at returned
      obtain rfl := Except.ok.inj returned
      refine iff_of_true consistent ⟨?_, ?_⟩
      · intro n made
        cases made
      · rintro ⟨n, made, _⟩
        cases made
    · rw [BitVec.lt_def] at short
      rw [trimCase_builtin rfl (Nat.le_of_not_lt short)] at returned
      obtain ⟨trimming, passed, finished⟩ := bind_returns returned
      have start := Follows.start settings results copies.inBuf
        (copies.afl.entries copies.q).len.toNat cleanTrace traceBits
      have looped : Follows settings results copies.inBuf
          (copies.afl.entries copies.q).len.toNat trimming :=
        start.returned sequence passed
      obtain ⟨sameData, sameRuns, iff⟩ :=
        finish_consistent_iff looped consistent finished
      rw [iff, sameData, sameRuns, looped.noLateAbort_iff, looped.changed]

/-- The entry has 9 bytes and is cached. -/
def nineBytes : TestcaseCopies where
  afl :=
    { entries := fun _ => ⟨9#32, fun _ => 7#8, some fun _ => 7#8⟩
      queuedPaths := 1
      queueCur := some 0
      maxCacheSize := 1048576#64
      maxCacheEntries := 1024#32
      cacheSize := 9#64
      maxCacheCount := 1#32
      cacheCount := 1#32
      smallestFree := 1#32
      evictions := 0#32
      cache := fun tid => if tid = 0 then some 0 else none
      slots := 1024
      doOnce := false }
  q := 0
  fileLen := 9

theorem nineBytes_consistent : nineBytes.Consistent 0#64 where
  fileLen := rfl
  cached := by
    intro buf isBuf
    rw [← Option.some.inj isBuf]
    rfl
  cacheSize := rfl

def anyTrace : TrimSettings where
  mapSize := 0
  hash64 := fun _ => 0#64
  execCksum := 0#64

/-- The user stops the fuzzer during run number `last`. -/
def stoppedAt (last : Nat) : TrimEnvironment where
  run := fun n _ => ⟨.ok, decide (n = last), fun _ => 0#8⟩
  noUnlink := false
  opens := true
  writes := []
  cache := ⟨[], true, true⟩

theorem trimCase_consistent_iff_undisturbed :
    ∃ state, trimCase (stoppedAt 2) anyTrace [] (fun _ => 0#8) (fun _ => 0#8)
        10 nineBytes = .ok state ∧
      (state.copies.Consistent 0#64 ↔ ([] : List (List CustomRound)) ≠ [] ∨
        (NoLateAbort anyTrace (fun n => (stoppedAt 2).run n []) state.trimming.runs ∧
          ((∃ n < state.trimming.runs, ((stoppedAt 2).run n []).Keeps anyTrace) →
            Completes (stoppedAt 2) nineBytes.isCached
              state.trimming.data))) :=
  ⟨_, rfl, @trimCase_consistent_iff anyTrace (stoppedAt 2)
    (fun n => (stoppedAt 2).run n []) 0#64 nineBytes nineBytes_consistent
    (fun _ _ => rfl) [] (fun _ => 0#8) (fun _ => 0#8) 10 _ rfl⟩

/-- The user stops the fuzzer behind the deletion of 4 bytes. -/
theorem trimCase_stopped :
    nineBytes.Consistent 0#64 ∧
      ∃ state, trimCase (stoppedAt 1) anyTrace [] (fun _ => 0#8)
          (fun _ => 0#8) 10 nineBytes = .ok state ∧
        state.copies.fileLen = 9 ∧
        (state.copies.afl.entries state.copies.q).len = 5#32 ∧
        ¬state.copies.Consistent 0#64 :=
  ⟨nineBytes_consistent, _, rfl, rfl, rfl, fun consistent => by
    have fileLen := consistent.fileLen
    revert fileLen
    decide⟩

end AFLPlusPlus.Trim

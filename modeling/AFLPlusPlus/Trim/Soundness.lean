import AFLPlusPlus.Trim.TrimCase

/-!
# Soundness of trimming

For a deterministic target the loops of `trim_case` end, and what is left of the
case is the case without some ranges, whose trace still has the checksum of the
queue entry.
-/

namespace AFLPlusPlus.Trim

open Buffer

def RangeDeleted (before after : List (BitVec 8)) : Prop :=
  ∃ pos len, after = withoutGap before pos len

/-- What trimming keeps for a target whose trace depends on the case only. -/
structure Sound (settings : TrimSettings)
    (target : List (BitVec 8) → Buffer) (original : List (BitVec 8))
    (trimming : Trimming) : Prop where
  deleted : Relation.ReflTransGen RangeDeleted original trimming.data
  positive : trimMinBytes ≤ trimming.len
  bounded : trimming.len ≤ original.length
  caseCksum : trimming.needsWrite = true →
    settings.cksum (bucketed settings.mapSize (target trimming.data)) =
      settings.execCksum
  traceCksum : trimming.needsWrite = true →
    settings.cksum trimming.cleanTrace = settings.execCksum

theorem cksum_copyMap (settings : TrimSettings)
    (destination source : Buffer) :
    settings.cksum (settings.copyMap destination source) = settings.cksum source := by
  have copied := loadBytes_storeBytes_end destination 0
    (source.loadBytes 0 settings.mapSize)
  rw [Nat.zero_add, length_loadBytes] at copied
  exact congrArg settings.hash64 copied

variable {removePos trimAvail : Nat} {trimming : Trimming}

theorem Trimming.data_remove (settings : TrimSettings) (trimming : Trimming)
    (inside : removePos + trimAvail ≤ trimming.len) :
    (trimming.remove settings removePos trimAvail).data =
      withoutGap trimming.data removePos trimAvail := by
  have moved := loadBytes_storeBytes_end trimming.inBuf removePos
    (trimming.inBuf.loadBytes (removePos + trimAvail)
      (trimming.len - removePos - trimAvail))
  have length : removePos + (trimming.len - removePos - trimAvail) =
      trimming.len - trimAvail := by omega
  rw [length_loadBytes, length] at moved
  rw [withoutGap]
  unfold Trimming.data
  rw [take_loadBytes _ _ (by omega), drop_loadBytes, Nat.zero_add, ← Nat.sub_sub]
  exact moved

/-- A deletion that leaves the checksum may be made permanent. -/
theorem Sound.remove {settings : TrimSettings} {target : List (BitVec 8) → Buffer}
    {original : List (BitVec 8)} (sound : Sound settings target original trimming)
    (behind : trimMinBytes ≤ removePos) (inside : removePos + trimAvail ≤ trimming.len)
    (classified : trimming.traceBits = bucketed settings.mapSize
      (target (withoutGap trimming.data removePos trimAvail)))
    (accepted : settings.cksum trimming.traceBits = settings.execCksum) :
    Sound settings target original
      (trimming.remove settings removePos trimAvail) := by
  have isData := trimming.data_remove settings inside
  have isLen : (trimming.remove settings removePos trimAvail).len =
      trimming.len - trimAvail := rfl
  have bounded := sound.bounded
  refine ⟨?_, by omega, by omega, fun _ => ?_, fun _ => ?_⟩
  · exact sound.deleted.tail ⟨removePos, trimAvail, isData⟩
  · rw [isData, ← classified]
    exact accepted
  · change settings.cksum (if trimming.needsWrite then trimming.cleanTrace
      else settings.copyMap trimming.cleanTrace trimming.traceBits) = _
    split
    · rename_i earlier
      exact sound.traceCksum earlier
    · rw [cksum_copyMap]
      exact accepted

/-- In the end the trace is the clean one if there was a deletion and no
abort. -/
theorem finish_yields (environment : TrimEnvironment)
    (settings : TrimSettings) (copies : TestcaseCopies) (origLen : BitVec 32)
    (trimming : Trimming) :
    Yields (fun failure => failure = .noFile)
      (fun state => state.trimming.data = trimming.data ∧
        state.trimming.len = trimming.len ∧
        state.trimming.aborted = trimming.aborted ∧
        state.trimming.needsWrite = trimming.needsWrite ∧
        (trimming.aborted = false → trimming.needsWrite = true →
          settings.cksum state.trimming.traceBits =
            settings.cksum trimming.cleanTrace))
      (finish environment settings copies origLen trimming) := by
  unfold finish
  dsimp only
  split
  · split
    · rfl
    · exact ⟨rfl, rfl, rfl, rfl, fun _ _ => cksum_copyMap settings _ _⟩
  · rename_i unfinished
    exact ⟨rfl, rfl, rfl, rfl, fun complete changed =>
      absurd ⟨complete, changed⟩ unfinished⟩

/-- How far the inner loop is from its end. -/
def Trimming.rank (trimming : Trimming) (removePos : Nat) : Nat :=
  if trimming.aborted = true then 0 else trimming.len - removePos

section Deterministic

variable {settings : TrimSettings} {environment : TrimEnvironment}
  {target : List (BitVec 8) → Buffer} {original : List (BitVec 8)}
  (deterministic : ∀ n mem, (environment.run n mem).traceBits = target mem)
include deterministic

/-- One round keeps what was reached, and comes closer to the end of the pass.
`q->len + remove_len` bounds the offsets, which do not wrap. -/
theorem Sound.round {trimming : Trimming} {removeLen removePos : Nat}
    (sound : Sound settings target original trimming)
    (running : trimming.aborted = false) (inside : removePos < trimming.len)
    (blocks : trimMinBytes ≤ removeLen) (behind : trimMinBytes ≤ removePos)
    (fits : trimming.len + removeLen ≤ 2 ^ 32) :
    Sound settings target original
        (trimming.round settings environment removeLen removePos).2 ∧
      trimMinBytes ≤ (trimming.round settings environment removeLen removePos).1 ∧
      (trimming.round settings environment removeLen removePos).2.len ≤ trimming.len ∧
      (trimming.round settings environment removeLen removePos).2.rank
          (trimming.round settings environment removeLen removePos).1 <
        trimming.rank removePos := by
  have blockPositive : 0 < removeLen :=
    Nat.lt_of_lt_of_le (by decide : 0 < trimMinBytes) blocks
  have before : trimming.rank removePos = trimming.len - removePos := by
    rw [Trimming.rank, if_neg (by simp [running])]
  rw [before]
  unfold Trimming.round
  dsimp only
  split
  · exact ⟨{ sound with }, behind, Nat.le_refl _, Nat.sub_pos_of_lt inside⟩
  · split
    · rename_i accepted
      have kept : Sound settings target original
          (trimming.ran settings (environment.run trimming.runs
            (withoutGap trimming.data removePos
              (min removeLen (trimming.len - removePos))))) :=
        { sound with }
      have removed := kept.remove behind
        (Nat.add_le_of_le_sub' (Nat.le_of_lt inside) (Nat.min_le_right _ _))
        (congrArg (bucketed settings.mapSize) (deterministic _ _)) accepted
      refine ⟨removed, behind, Nat.sub_le _ _, ?_⟩
      change (if trimming.aborted = true then 0
        else trimming.len - min removeLen (trimming.len - removePos) -
          removePos) < trimming.len - removePos
      rw [if_neg (by simp [running])]
      omega
    · have noWrap : (removePos + removeLen) % 2 ^ 32 =
          removePos + removeLen := Nat.mod_eq_of_lt (by omega)
      refine ⟨{ sound with }, by rw [noWrap]; omega, Nat.le_refl _, ?_⟩
      change (if trimming.aborted = true then 0
        else trimming.len - (removePos + removeLen) % 2 ^ 32) <
          trimming.len - removePos
      rw [if_neg (by simp [running]), noWrap]
      omega

theorem Sound.pass {removeLen : Nat} (blocks : trimMinBytes ≤ removeLen) {fuel : Nat}
    (sound : Sound settings target original trimming) (behind : trimMinBytes ≤ removePos)
    (fits : trimming.len + removeLen ≤ 2 ^ 32) (enough : trimming.rank removePos < fuel) :
    Yields (fun _ => False)
      (fun passed => Sound settings target original passed ∧ passed.len ≤ trimming.len)
      (trimming.pass settings environment removeLen fuel removePos) := by
  induction fuel generalizing removePos trimming with
  | zero => omega
  | succ fuel induction =>
      rw [Trimming.pass]
      split
      · rename_i continues
        obtain ⟨kept, stillBehind, shorter, closer⟩ :=
          sound.round deterministic continues.1 continues.2 blocks behind fits
        refine (induction kept stillBehind (by omega) (by omega)).mono ?_
        rintro passed ⟨keptPassed, shorterPassed⟩
        exact ⟨keptPassed, Nat.le_trans shorterPassed shorter⟩
      · exact ⟨sound, Nat.le_refl _⟩

theorem Sound.passes {fuel removeLen : Nat} {trimming : Trimming}
    (sound : Sound settings target original trimming)
    (fits : trimming.len + removeLen ≤ 2 ^ 32)
    (enough : trimming.len + removeLen < fuel) :
    Yields (fun _ => False) (Sound settings target original)
      (trimming.passes settings environment fuel removeLen) := by
  induction fuel generalizing removeLen trimming with
  | zero => omega
  | succ fuel induction =>
      rw [Trimming.passes]
      split
      · rename_i continues
        have blocks : trimMinBytes ≤ removeLen :=
          Nat.le_trans (Nat.le_max_right _ _) continues.2
        have rounds : trimming.rank removeLen < fuel := by
          unfold Trimming.rank
          unfold trimMinBytes at blocks
          split <;> omega
        refine (sound.pass deterministic blocks blocks fits rounds).bind ?_
        rintro passed ⟨kept, shorter⟩
        have halved : removeLen >>> 1 < removeLen := by
          unfold trimMinBytes at blocks
          rw [Nat.shiftRight_eq_div_pow]
          omega
        exact induction kept (by omega) (by omega)
      · exact sound

/-- The whole of `trim_case`, for a queue entry of at least 5 bytes and at most
`MAX_FILE`, where no custom mutator has a trimmer: it returns unless its file
cannot be written. -/
theorem trimCase_sound {copies : TestcaseCopies} {len : Nat}
    (isLen : (copies.afl.entries copies.q).len.toNat = len)
    (trimmed : 5 ≤ len) (queued : len ≤ maxFile)
    (cleanTrace traceBits : Buffer) {fuel : Nat} (enough : 2 ^ 32 ≤ fuel) :
    Yields (fun failure => failure = .noFile)
      (fun state => state.trimming.aborted = false →
        Relation.ReflTransGen RangeDeleted (copies.inBuf.loadBytes 0 len)
            state.trimming.data ∧
          1 ≤ state.trimming.len ∧ state.trimming.len ≤ len ∧
          (state.trimming.needsWrite = true →
            settings.cksum (bucketed settings.mapSize
                (target state.trimming.data)) = settings.execCksum ∧
              settings.cksum state.trimming.traceBits = settings.execCksum))
      (trimCase environment settings [] cleanTrace traceBits fuel copies) := by
  rw [trimCase_builtin isLen trimmed]
  have start : Sound settings target (copies.inBuf.loadBytes 0 len)
      (Trimming.start copies.inBuf len cleanTrace traceBits) :=
    { deleted := .refl
      positive := Nat.le_of_succ_le trimmed
      bounded := Nat.le_of_eq (length_loadBytes _ _ _).symm
      caseCksum := nofun
      traceCksum := nofun }
  have firstBlock : max (lenP2 len / trimStartSteps) trimMinBytes ≤ 2 ^ 28 := by
    have isU32 : lenP2 len < 2 ^ 32 := Nat.mod_lt _ (by decide)
    unfold trimStartSteps trimMinBytes
    omega
  have small : len ≤ 2 ^ 20 := queued
  have looped := @Sound.passes settings environment target _ deterministic fuel
    (max (lenP2 len / trimStartSteps) trimMinBytes) _ start
    (by change len + _ ≤ _; omega) (by change len + _ < _; omega)
  obtain ⟨final, passed, sound⟩ := looped.returns
  have finished := finish_yields environment settings copies
    (copies.afl.entries copies.q).len final
  rw [passed, ok_bind]
  refine finished.mono ?_
  rintro state ⟨sameData, sameLen, sameAborted, sameWrite, sameCksum⟩ complete
  have bounded := sound.bounded
  rw [length_loadBytes] at bounded
  rw [sameData, sameLen]
  refine ⟨sound.deleted, ?_, bounded, fun changed => ?_⟩
  · exact Nat.le_trans (by decide : 1 ≤ trimMinBytes) sound.positive
  · rw [sameWrite] at changed
    rw [sameCksum (sameAborted ▸ complete) changed]
    exact ⟨sound.caseCksum changed, sound.traceCksum changed⟩

end Deterministic

/-- A queue with one entry of 5 bytes that is not cached. -/
def fiveBytes : TestcaseCopies where
  afl :=
    { entries := fun _ => ⟨5#32, fun _ => 7#8, none⟩
      queuedPaths := 1
      queueCur := some 0
      maxCacheSize := 0#64
      maxCacheEntries := 0#32
      cacheSize := 0#64
      maxCacheCount := 0#32
      cacheCount := 0#32
      smallestFree := 0#32
      evictions := 0#32
      cache := fun _ => none
      slots := 0
      doOnce := false }
  q := 0
  fileLen := 5

def alwaysSame : TrimSettings where
  mapSize := 0
  hash64 := fun _ => 0#64
  execCksum := 0#64

/-- The target leaves no trace, and files can be written. -/
def quietRuns : TrimEnvironment where
  run := fun _ _ => ⟨.ok, false, fun _ => 0#8⟩
  noUnlink := false
  opens := true
  writes := []
  cache := ⟨[], true, true⟩

theorem trimCase_sound_fiveBytes :
    Yields (fun failure => failure = .noFile)
      (fun state => state.trimming.aborted = false →
        Relation.ReflTransGen RangeDeleted (fiveBytes.inBuf.loadBytes 0 5)
            state.trimming.data ∧
          1 ≤ state.trimming.len ∧ state.trimming.len ≤ 5 ∧
          (state.trimming.needsWrite = true →
            alwaysSame.cksum (bucketed alwaysSame.mapSize fun _ => 0#8) =
                alwaysSame.execCksum ∧
              alwaysSame.cksum state.trimming.traceBits = alwaysSame.execCksum))
      (trimCase quietRuns alwaysSame [] (fun _ => 0#8) (fun _ => 0#8)
        (2 ^ 32) fiveBytes) :=
  @trimCase_sound alwaysSame quietRuns (fun _ _ => 0#8) (fun _ _ => rfl)
    fiveBytes 5 rfl (by decide) (by decide) (fun _ => 0#8) (fun _ => 0#8)
    (2 ^ 32) (by decide)

end AFLPlusPlus.Trim

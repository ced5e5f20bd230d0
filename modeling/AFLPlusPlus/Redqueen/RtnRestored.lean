import AFLPlusPlus.Redqueen.BufferRestored
import AFLPlusPlus.Redqueen.RtnFuzz

/-!
# The buffer behind a call

`rtn_extend_encoding` puts back what it has tried.  The loop over the
transformations does so for the bytes in front of the one it ends with, and for
digits from the middle on, from an array that is no longer than the bytes that
are tried.
-/

namespace AFLPlusPlus.Redqueen

open EarlyExit

namespace ItsEnvironment

/-- The buffer is as it was, but for the bytes from `offset` up to `bound`. -/
def ExceptFor (buf : Buffer) (offset bound : Nat) (its : ItsState) : Prop :=
  ∀ k, k < offset ∨ bound ≤ k → its.buf k = buf k

def Behind (afl : ItsEnvironment) (buf : Buffer) (its : ItsState) : Prop :=
  ∀ k ≥ afl.len, its.buf k = buf k

variable {afl : ItsEnvironment} {its : ItsState} {buf : Buffer}
  {offset bound : Nat}

section

variable (same : ExceptFor buf offset bound its)
include same

theorem ExceptFor.wider {wider : Nat} (wide : bound ≤ wider) :
    ExceptFor buf offset wider its := by
  intro k outside
  apply same k
  omega

theorem ExceptFor.behind (inside : bound ≤ afl.len) : afl.Behind buf its :=
  fun k behind => same k (.inr (Nat.le_trans inside behind))

theorem ExceptFor.storeBytes (bytes : List (BitVec 8)) {start : Nat}
    (starts : offset ≤ start) (inside : start + bytes.length ≤ bound) :
    ExceptFor buf offset bound
      { its with buf := its.buf.storeBytes start bytes } := by
  intro k outside
  exact (Buffer.storeBytes_outside _ (by omega)).trans (same k outside)

end

theorem ExceptFor.restored {count : Nat}
    (same : ExceptFor buf offset (offset + count) its) {bytes : List (BitVec 8)}
    (length : bytes.length = count)
    (held : ∀ k (inside : k < bytes.length), bytes[k] = buf (offset + k)) :
    its.buf.storeBytes offset bytes = buf := by
  funext k
  by_cases within : offset ≤ k ∧ k < offset + count
  · have stored := Buffer.spells_storeBytes its.buf offset bytes (k - offset) _
      (List.getElem?_eq_getElem (by omega))
    rw [Nat.add_sub_of_le within.1] at stored
    rw [stored, held, Nat.add_sub_of_le within.1]
  · rw [Buffer.storeBytes_outside _ (by omega)]
    exact same k (by omega)

theorem keeps_attempt_exceptFor (site : Site) (bytes : List (BitVec 8))
    {start : Nat} (starts : offset ≤ start)
    (inside : start + bytes.length ≤ bound) :
    Keeps (ExceptFor buf offset bound) (afl.attempt site start bytes) := by
  apply Keeps.bind
  · intro its same
    exact same.storeBytes bytes starts inside
  intro _
  apply Keeps.bind Keeps.get
  intro its
  exact keeps_itsFuzz_buf _ _ _ _ fun memory =>
    ∀ k, k < offset ∨ bound ≤ k → memory k = buf k

theorem triple_directRound (h : RtnArguments) {idx i : Nat} (length : Nat)
    (below : i < length) (inside : idx + length ≤ afl.len) :
    Triple (ExceptFor buf idx (idx + i)) (afl.directRound h idx i ())
      (AfterRoundAt (fun i _ => ExceptFor buf idx (idx + i))
        (fun i => ExceptFor buf idx (idx + i)) i) (afl.Behind buf) := by
  apply Triple.bind Triple.get
  intro its
  apply Triple.ite
  · intro _
    exact Triple.pure _ fun _ both => both.2
  intro _
  have stores : Triple (fun later => its = later ∧ ExceptFor buf idx (idx + i) later)
      (storeBuf (idx + i) [h.repl i])
      (fun _ => ExceptFor buf idx (idx + (i + 1))) (afl.Behind buf) := by
    rintro _ ⟨_, same⟩
    exact (same.wider (by omega)).storeBytes [h.repl i] (by omega)
      (Nat.le_refl (idx + i + 1))
  apply Triple.bind stores
  intro _
  apply Triple.bind Triple.get
  intro its
  have fuzzes := @keeps_itsFuzz_buf afl its.buf .direct idx (i + 1)
    fun memory => ∀ k, k < idx ∨ idx + (i + 1) ≤ k → memory k = buf k
  apply Triple.bind ((fuzzes.leaving _).starting fun _ both => both.2)
  · intro _
    have combines := keeps_combine_buf idx i
      fun memory => ∀ k, k < idx ∨ idx + (i + 1) ≤ k → memory k = buf k
    apply Triple.bind (combines.leaving _)
    · intro _
      exact Triple.pure _ fun _ same => same
    · exact fun _ same => ExceptFor.behind same (by omega)
  · exact fun _ same => ExceptFor.behind same (by omega)

/-- What is put back behind the bytes that were replaced is what was saved. -/
theorem triple_prefixRound (h : RtnArguments) (save : Buffer)
    {maxTo pre : Nat} (short : pre ≤ maxTo) (front : maxTo ≤ h.idx)
    (position : h.idx < afl.len)
    (saved : ∀ k < afl.rtnItsLen h + maxTo, save k = buf (h.idx - maxTo + k)) :
    Triple (fun its => its.buf = buf) (afl.prefixRound h save maxTo pre ())
      (fun _ its => its.buf = buf) (afl.Behind buf) := by
  have length : afl.rtnItsLen h ≤ afl.len - h.idx :=
    Nat.le_trans (Nat.min_le_left _ _) (Nat.min_le_right _ _)
  apply Triple.bind Triple.get
  intro its
  have copies : Triple (fun its => its.buf = buf) (do
      let i ← forFrom (afl.directRound h (h.idx - pre)) 0
        (afl.rtnItsLen h + pre) ()
      storeBuf (h.idx - pre) (save.loadBytes (maxTo - pre) i))
      (fun _ its => its.buf = buf) (afl.Behind buf) := by
    apply Triple.bind ((Triple.forFrom_upTo
      (fun i below _ => triple_directRound h _ below (by omega))
      (fun _ _ same => same) 0 _ (Nat.zero_add _) ()).starting _)
    · intro i its reached
      obtain ⟨within, same⟩ := reached
      apply same.restored (Buffer.length_loadBytes _ _ _)
      intro k inside
      rw [Buffer.length_loadBytes] at inside
      simp only [Buffer.loadBytes, List.getElem_map, List.getElem_range]
      rw [saved _ (by omega)]
      congr 1
      omega
    · intro its same k _
      rw [same]
  apply Triple.bind
  · apply Triple.ite
    · intro _
      exact copies.starting fun _ both => both.2
    · intro _
      exact Triple.pure _ fun _ both => both.2
  · intro _
    exact Triple.pure _ fun _ same => same

/-- The attempts of round `i` leave its byte as it is in `buf`, whichever finds
something: the bytes that digits stand for if nothing is written over them, the
digits if what is put back behind the tried bytes is right, and the others. -/
structure RoundFits (h : RtnArguments) (len : Nat) (buf save : Buffer)
    (itsLen i : Nat) (c : RtnCounts) : Prop where
  fromDigits : i < 16 → i < c.tohex → ¬c.WritesDigits i → ¬i < c.xor →
    (c.fromDigits h.repl i)[i]? = some (buf (h.idx + i))
  toDigits : c.WritesDigits i → ∀ k, itsLen ≤ k →
    k < i + (i + 1 + c.digitPrefix.length) → h.idx + k < len ∧ save k = buf (h.idx + k)
  xor : i < c.xor → h.repl i ^^^ c.xorVal.getD i 0 = buf (h.idx + i)
  arith : i < c.arith → h.repl i - c.arithVal.getD i 0 = buf (h.idx + i)
  toupper : i < c.toupper → h.repl i ||| 0x20#8 = buf (h.idx + i)
  tolower : i < c.tolower → h.repl i &&& 0x5f#8 = buf (h.idx + i)

/-- Bytes that leave the last one as it was. -/
theorem triple_attempt_fits (site : Site) (idx i : Nat)
    (bytes : List (BitVec 8)) (length : bytes.length = i + 1)
    (inside : idx + i < afl.len) (fits : bytes[i]? = some (buf (idx + i))) :
    Triple (ExceptFor buf idx (idx + i + 1)) (afl.attempt site idx bytes)
      (fun _ => ExceptFor buf idx (idx + i)) (afl.Behind buf) := by
  have stores : Triple (ExceptFor buf idx (idx + i + 1)) (storeBuf idx bytes)
      (fun _ => ExceptFor buf idx (idx + i)) (afl.Behind buf) := by
    intro its same k outside
    change its.buf.storeBytes idx bytes k = buf k
    by_cases last : k = idx + i
    · rw [last, Buffer.storeBytes, if_pos (Nat.le_add_right _ _),
        Nat.add_sub_cancel_left, fits]
      rfl
    · have kept := same.storeBytes bytes (Nat.le_refl idx)
        (Nat.le_of_eq (congrArg (idx + ·) length))
      exact kept k (by omega)
  apply Triple.bind stores
  intro _
  apply Triple.bind Triple.get
  intro its
  have fuzzes := @keeps_itsFuzz_buf afl its.buf site idx bytes.length
    fun memory => ∀ k, k < idx ∨ idx + i ≤ k → memory k = buf k
  apply (fuzzes.leaving _).starting fun _ both => both.2
  exact fun _ same => ExceptFor.behind same (Nat.le_of_lt inside)

theorem triple_tryBytes_fits (h : RtnArguments) (i : Nat)
    (byte : Nat → BitVec 8) (inside : h.idx + i < afl.len)
    (fits : byte i = buf (h.idx + i)) :
    Triple (ExceptFor buf h.idx (h.idx + i + 1)) (afl.tryBytes h i byte)
      (fun _ => ExceptFor buf h.idx (h.idx + i)) (afl.Behind buf) := by
  apply triple_attempt_fits _ _ _ _ _ inside
  · rw [List.getElem?_map, List.getElem?_range (Nat.lt_succ_self i)]
    exact congrArg some fits
  · rw [List.length_map, List.length_range]

/-- The same where the bytes are tried under a condition, with the byte as it is
before. -/
theorem triple_unlessFound_fits (h : RtnArguments) (i : Nat)
    (possible : Prop) [Decidable possible] (byte : Nat → BitVec 8)
    (inside : h.idx + i < afl.len)
    (fits : possible → byte i = buf (h.idx + i)) :
    Triple (ExceptFor buf h.idx (h.idx + i))
      (unlessFound (onlyIf possible (afl.tryBytes h i byte)))
      (fun _ => ExceptFor buf h.idx (h.idx + i)) (afl.Behind buf) := by
  apply Triple.bind Triple.get
  intro its
  apply Triple.ite
  · intro _
    apply Triple.ite
    · intro holds
      apply (triple_tryBytes_fits h i byte inside (fits holds)).starting
      exact fun _ both => both.2.wider (Nat.le_succ _)
    · intro _
      exact Triple.pure () fun _ both => both.2
  · intro _
    exact Triple.pure () fun _ both => both.2

theorem length_toDigits (c : RtnCounts) (repl : Buffer) {i : Nat}
    (odd : i % 2 = 1) :
    (c.toDigits repl i).length = i + 1 + c.digitPrefix.length := by
  have pairs : ∀ (count : Nat) (digits : Nat → BitVec 8 × BitVec 8),
      ((List.range count).flatMap fun j =>
        [(digits j).1, (digits j).2]).length = 2 * count := by
    intro count digits
    induction count with
    | zero => rfl
    | succ count induction =>
        rw [List.range_succ, List.flatMap_append, List.length_append, induction]
        rfl
  rw [RtnCounts.toDigits, List.length_append]
  have length := pairs (i / 2 + 1) fun j =>
    (hexDigit (c.toUp = 1) (repl j >>> 4), hexDigit (c.toUp = 1) (repl j % 16))
  rw [show ((List.range (i / 2 + 1)).flatMap fun j =>
      [hexDigit (c.toUp = 1) (repl j >>> 4),
        hexDigit (c.toUp = 1) (repl j % 16)]).length = _ from length]
  omega

section Round

variable {h : RtnArguments} {save : Buffer} {i : Nat} {c : RtnCounts}

/-- The digits, with what is put back. -/
theorem triple_toDigits_fits (inside : h.idx + afl.rtnItsLen h ≤ afl.len)
    (saved : ∀ k < afl.rtnItsLen h, save k = buf (h.idx + k))
    (writes : c.WritesDigits i)
    (fits : RoundFits h afl.len buf save (afl.rtnItsLen h) i c) :
    Triple (ExceptFor buf h.idx (h.idx + i + 1)) (do
        afl.attempt .toDigits h.idx (c.toDigits h.repl i)
        storeBuf (h.idx + i) (save.loadBytes i (i + 1 + c.digitPrefix.length)))
      (fun _ => ExceptFor buf h.idx (h.idx + i)) (afl.Behind buf) := by
  have length := length_toDigits c h.repl writes.1
  have room : h.idx + (i + 1 + c.digitPrefix.length) ≤ afl.len := by
    by_cases short : i + 1 + c.digitPrefix.length ≤ afl.rtnItsLen h
    · omega
    · have last := (fits.toDigits writes (i + c.digitPrefix.length) (by omega)
        (by omega)).1
      omega
  have attempts := @keeps_attempt_exceptFor afl buf h.idx
    (h.idx + (i + 1 + c.digitPrefix.length)) .toDigits (c.toDigits h.repl i)
    h.idx (Nat.le_refl _) (Nat.le_of_eq (congrArg (h.idx + ·) length))
  apply Triple.bind ((attempts.leaving _).starting _)
  · intro _ its same k outside
    change its.buf.storeBytes (h.idx + i) _ k = buf k
    rw [Buffer.storeBytes]
    split
    · rename_i behind
      by_cases stored : k - (h.idx + i) < i + 1 + c.digitPrefix.length
      · rw [List.getElem?_eq_getElem (by
          rw [Buffer.length_loadBytes]
          exact stored), Option.getD_some]
        simp only [Buffer.loadBytes, List.getElem_map, List.getElem_range]
        have here : h.idx + (i + (k - (h.idx + i))) = k := by omega
        by_cases tried : i + (k - (h.idx + i)) < afl.rtnItsLen h
        · rw [saved _ tried, here]
        · rw [(fits.toDigits writes _ (Nat.le_of_not_lt tried) (by omega)).2, here]
      · rw [List.getElem?_eq_none (by
          rw [Buffer.length_loadBytes]
          exact Nat.le_of_not_lt stored)]
        exact same k (.inr (by omega))
    · exact same k (.inl (by omega))
  · exact fun _ same => ExceptFor.behind same room
  · intro its same
    exact same.wider (by omega)

theorem triple_transformAttempts_fits (below : i < afl.rtnItsLen h)
    (inside : h.idx + afl.rtnItsLen h ≤ afl.len)
    (saved : ∀ k < afl.rtnItsLen h, save k = buf (h.idx + k))
    (fits : RoundFits h afl.len buf save (afl.rtnItsLen h) i c) :
    Triple (ExceptFor buf h.idx (h.idx + i)) (afl.transformAttempts h save i c)
      (fun _ => ExceptFor buf h.idx (h.idx + i)) (afl.Behind buf) := by
  have here : h.idx + i < afl.len := by omega
  have wider : ∀ its, ExceptFor buf h.idx (h.idx + i) its →
      ExceptFor buf h.idx (h.idx + i + 1) its :=
    fun _ same => same.wider (Nat.le_succ _)
  have length : (c.fromDigits h.repl i).length = i + 1 := by
    rw [RtnCounts.fromDigits, List.length_map, List.length_range]
  have first : Triple (ExceptFor buf h.idx (h.idx + i))
      (onlyIf (i < 16 ∧ i < c.tohex) <|
        afl.attempt (.fromDigits (decide (c.WritesDigits i ∨ i < c.xor))) h.idx
          (c.fromDigits h.repl i))
      (fun _ its => ExceptFor buf h.idx (h.idx + i + 1) its ∧
        (¬c.WritesDigits i → ¬i < c.xor →
          ExceptFor buf h.idx (h.idx + i) its)) (afl.Behind buf) := by
    apply Triple.ite
    · intro possible
      by_cases last : c.WritesDigits i ∨ i < c.xor
      · have attempts := @keeps_attempt_exceptFor afl buf h.idx (h.idx + i + 1)
          (.fromDigits (decide (c.WritesDigits i ∨ i < c.xor)))
          (c.fromDigits h.repl i) h.idx (Nat.le_refl _)
          (Nat.le_of_eq (congrArg (h.idx + ·) length))
        apply ((attempts.leaving fun _ same => same.behind here).starting wider).ending
        intro _ its same
        refine ⟨same, fun noDigits noXor => ?_⟩
        cases last with
        | inl writes => exact absurd writes noDigits
        | inr xor => exact absurd xor noXor
      · rw [not_or] at last
        apply ((triple_attempt_fits _ h.idx i _ length here (fits.fromDigits
          possible.1 possible.2 last.1 last.2)).starting wider).ending
        exact fun _ its same => ⟨wider its same, fun _ _ => same⟩
    · intro _
      exact Triple.pure () fun its same => ⟨wider its same, fun _ _ => same⟩
  have second : Triple (fun its => ExceptFor buf h.idx (h.idx + i + 1) its ∧
        (¬c.WritesDigits i → ¬i < c.xor → ExceptFor buf h.idx (h.idx + i) its))
      (onlyIf (c.WritesDigits i) do
        afl.attempt .toDigits h.idx (c.toDigits h.repl i)
        storeBuf (h.idx + i) (save.loadBytes i (i + 1 + c.digitPrefix.length)))
      (fun _ its => ExceptFor buf h.idx (h.idx + i + 1) its ∧
        (¬i < c.xor → ExceptFor buf h.idx (h.idx + i) its))
      (afl.Behind buf) := by
    apply Triple.ite
    · intro writes
      apply ((triple_toDigits_fits inside saved writes fits).starting
        fun _ both => both.1).ending
      exact fun _ its same => ⟨wider its same, fun _ => same⟩
    · intro noDigits
      exact Triple.pure () fun _ both => ⟨both.1, both.2 noDigits⟩
  have third : Triple (fun its => ExceptFor buf h.idx (h.idx + i + 1) its ∧
        (¬i < c.xor → ExceptFor buf h.idx (h.idx + i) its))
      (onlyIf (i < c.xor) <| afl.tryBytes h i fun j => h.repl j ^^^ c.xorVal.getD j 0)
      (fun _ => ExceptFor buf h.idx (h.idx + i)) (afl.Behind buf) := by
    apply Triple.ite
    · intro xor
      apply (triple_tryBytes_fits h i _ here (fits.xor xor)).starting
      exact fun _ both => both.1
    · intro noXor
      exact Triple.pure () fun _ both => both.2 noXor
  apply Triple.bind first
  intro _
  apply Triple.bind second
  intro _
  apply Triple.bind third
  intro _
  apply Triple.bind (triple_unlessFound_fits h i _ _ here fits.arith)
  intro _
  apply Triple.bind (triple_unlessFound_fits h i _ _ here fits.toupper)
  intro _
  apply Triple.bind (triple_unlessFound_fits h i _ _ here fits.tolower)
  intro _
  have combines := keeps_combine_buf h.idx (i + 1)
    fun memory => ∀ k, k < h.idx ∨ h.idx + i ≤ k → memory k = buf k
  exact combines.leaving fun _ same => ExceptFor.behind same (Nat.le_of_lt here)

theorem count_congr (c : RtnCounts) (orig : Buffer) {len : Nat}
    {memory : Buffer} (same : memory (h.idx + i) = buf (h.idx + i)) :
    c.count len orig memory h i = c.count len orig buf h i := by
  unfold RtnCounts.count
  rw [same]

end Round

/-- What has been counted before round `i`. -/
def countsAt (afl : ItsEnvironment) (buf : Buffer) (h : RtnArguments) : Nat → RtnCounts
  | 0 => RtnCounts.zero
  | i + 1 => (countsAt afl buf h i).count afl.len afl.orig buf h i

/-- No round before has broken the loop, if nothing was found. -/
def Reached (afl : ItsEnvironment) (buf : Buffer) (h : RtnArguments)
    (i : Nat) : Prop :=
  ∀ j < i, ¬(afl.countsAt buf h (j + 1)).Stuck j ∧ h.repl j = h.changedVal j

/-- What `save` holds at the transformations: the bytes that are tried, and
behind them what was saved before. -/
def saved (afl : ItsEnvironment) (h : RtnArguments) (its : ItsState) : Buffer :=
  let maxTo := if afl.lvl &&& lvl3 ≠ 0 then min 4 h.idx else 0
  ((afl.unwritten its.execs).storeBytes 0
    (its.buf.loadBytes (h.idx - maxTo) (afl.rtnItsLen h + maxTo))).storeBytes 0
      (its.buf.loadBytes h.idx (afl.rtnItsLen h))

/-- Every round of the loop over the transformations that can be reached fits. -/
def RoundsFit (afl : ItsEnvironment) (h : RtnArguments) (its : ItsState) :
    Prop :=
  its.status ≠ 1 → afl.cmplogEnableTransform = true → afl.lvl &&& lvl3 ≠ 0 →
    ∀ i < afl.rtnItsLen h, afl.Reached its.buf h i →
      RoundFits h afl.len its.buf (afl.saved h its) (afl.rtnItsLen h) i
        (afl.countsAt its.buf h (i + 1))

section Rounds

variable {h : RtnArguments} {save : Buffer}

theorem triple_transformRound_fits {i : Nat} (below : i < afl.rtnItsLen h)
    (inside : h.idx + afl.rtnItsLen h ≤ afl.len)
    (saved : ∀ k < afl.rtnItsLen h, save k = buf (h.idx + k))
    (fits : afl.Reached buf h i →
      RoundFits h afl.len buf save (afl.rtnItsLen h) i
        (afl.countsAt buf h (i + 1))) (c : RtnCounts) :
    Triple (fun its => (c = afl.countsAt buf h i ∧ afl.Reached buf h i) ∧
        ExceptFor buf h.idx (h.idx + i) its)
      (afl.transformRound h save i c)
      (AfterRoundAt (fun i c its =>
          (c = afl.countsAt buf h i ∧ afl.Reached buf h i) ∧
            ExceptFor buf h.idx (h.idx + i) its)
        (fun i => ExceptFor buf h.idx (h.idx + i)) i)
      (afl.Behind buf) := by
  apply Triple.bind Triple.get
  intro its later holds
  obtain ⟨isLater, ⟨isCounts, reached⟩, same⟩ := holds
  subst isLater
  have counts : c.count afl.len afl.orig its.buf h i = afl.countsAt buf h (i + 1) := by
    rw [isCounts]
    exact count_congr _ _ (same _ (.inr (Nat.le_refl _)))
  have attempts := triple_transformAttempts_fits below inside saved
    (fits reached)
  rw [counts]
  have rest : Triple (ExceptFor buf h.idx (h.idx + i)) (do
      afl.transformAttempts h save i (afl.countsAt buf h (i + 1))
      let its ← get
      if (afl.countsAt buf h (i + 1)).Stuck i ∨ h.repl i ≠ h.changedVal i ∨
          its.status = 1 then
        pure (.done (afl.countsAt buf h (i + 1)))
      else pure (.yield (afl.countsAt buf h (i + 1))))
      (AfterRoundAt (fun i c its =>
          (c = afl.countsAt buf h i ∧ afl.Reached buf h i) ∧
            ExceptFor buf h.idx (h.idx + i) its)
        (fun i => ExceptFor buf h.idx (h.idx + i)) i)
      (afl.Behind buf) := by
    apply Triple.bind attempts
    intro _
    apply Triple.bind Triple.get
    intro its
    apply Triple.ite
    · intro _
      exact Triple.pure _ fun _ both => both.2
    · intro goesOn
      apply Triple.pure
      rintro later ⟨_, same⟩
      refine ⟨⟨rfl, ?_⟩, same.wider (by omega)⟩
      intro j before
      by_cases last : j = i
      · rw [last]
        exact ⟨fun stuck => goesOn (.inl stuck),
          not_not.mp fun other => goesOn (.inr (.inl other))⟩
      · exact reached j (by omega)
  exact rest its same

theorem maxTo_le (afl : ItsEnvironment) (h : RtnArguments) :
    (if afl.lvl &&& lvl3 ≠ 0 then min 4 h.idx else 0) ≤ h.idx := by
  split
  · exact Nat.min_le_right _ _
  · exact Nat.zero_le _

theorem rtnItsLen_le (afl : ItsEnvironment) (h : RtnArguments) :
    afl.rtnItsLen h ≤ afl.len - h.idx :=
  Nat.le_trans (Nat.min_le_left _ _) (Nat.min_le_right _ _)

theorem held_storeBytes (scratch : Buffer) {start count k : Nat}
    (below : k < count) :
    (scratch.storeBytes 0 (buf.loadBytes start count)) k = buf (start + k) := by
  have held := Buffer.spells_storeBytes scratch 0 (buf.loadBytes start count) k
    (buf (start + k)) (by simp [Buffer.loadBytes, below])
  rwa [Nat.zero_add] at held

/-- The loop over the positions in front leaves the buffer as it was. -/
theorem triple_prefixRounds (h : RtnArguments) (save : Buffer)
    {maxTo from_ : Nat} (front : maxTo ≤ h.idx) (small : from_ ≤ 1)
    (position : h.idx < afl.len)
    (saved : ∀ k < afl.rtnItsLen h + maxTo, save k = buf (h.idx - maxTo + k)) :
    Triple (fun its => its.buf = buf)
      (forFrom (afl.prefixRound h save maxTo) from_ (maxTo + 1 - from_) ())
      (fun _ its => its.buf = buf) (afl.Behind buf) := by
  have round : ∀ pre < maxTo + 1, ∀ locals : Unit,
      Triple (fun its => its.buf = buf)
        (afl.prefixRound h save maxTo pre locals)
        (AfterRoundAt (fun _ _ its => its.buf = buf)
          (fun _ its => its.buf = buf) pre) (afl.Behind buf) := by
    intro pre below _
    apply (triple_prefixRound h save (Nat.le_of_lt_succ below) front position
      saved).ending
    intro step _ same
    cases step with
    | done => exact same
    | yield => exact same
  exact (Triple.forFrom_upTo round (fun _ _ same => same) from_
    (maxTo + 1 - from_) (by omega) ()).ending fun _ _ both => both.2

theorem ite_le_one (condition : Prop) [Decidable condition] :
    (if condition then 1 else 0) ≤ 1 := by
  split
  · exact Nat.le_refl 1
  · exact Nat.zero_le 1

theorem triple_rtnExtendEncoding_found (h : RtnArguments) :
    Triple (fun its => its.status = 1 ∧ its.buf = buf) (afl.rtnExtendEncoding h)
      (fun _ final => final.buf = buf) (afl.Behind buf) := by
  have round : ∀ save maxTo pre,
      Triple (fun its => its.status = 1 ∧ its.buf = buf)
        (afl.prefixRound h save maxTo pre ())
        (AfterRound (fun its => its.status = 1 ∧ its.buf = buf)
          fun its => its.status = 1 ∧ its.buf = buf) (afl.Behind buf) := by
    intro save maxTo pre
    apply Triple.bind Triple.get
    intro its
    have skips : ∀ tries, Triple (fun later => its = later ∧
          later.status = 1 ∧ later.buf = buf)
        (onlyIf (its.status ≠ 1 ∧
          its.buf.loadBytes (h.idx - pre) pre = h.repl.loadBytes 0 pre) tries)
        (fun _ its => its.status = 1 ∧ its.buf = buf) (afl.Behind buf) := by
      intro tries
      apply Triple.ite
      · rintro possible later ⟨rfl, found⟩
        exact absurd found.1 possible.1
      · intro _
        exact Triple.pure () fun _ both => both.2
    apply Triple.bind (skips _)
    intro _
    exact Triple.pure _ fun _ same => same
  have rounds : ∀ save maxTo from_ count,
      Triple (fun its => its.status = 1 ∧ its.buf = buf)
        (forFrom (afl.prefixRound h save maxTo) from_ count ())
        (fun _ its => its.status = 1 ∧ its.buf = buf) (afl.Behind buf) := by
    intro save maxTo from_ count
    exact Triple.forFrom (fun pre _ => round save maxTo pre)
      (fun _ same => same) from_ count ()
  apply Triple.bind Triple.get
  intro start
  apply Triple.bind ((rounds _ _ _ _).starting fun _ both => both.2)
  intro _
  apply Triple.bind Triple.get
  intro its
  apply Triple.ite
  · rintro none later ⟨rfl, found⟩
    exact absurd found.1 none
  · intro _
    exact Triple.pure () fun _ both => both.2.2

theorem triple_rtnExtendEncoding_fits (h : RtnArguments)
    (position : h.idx < afl.len) (its : ItsState) (fits : afl.RoundsFit h its) :
    Triple (its = ·) (afl.rtnExtendEncoding h)
      (fun _ final => final.buf = its.buf) (afl.Behind its.buf) := by
  by_cases found : its.status = 1
  · apply (triple_rtnExtendEncoding_found h).starting
    rintro _ rfl
    exact ⟨found, rfl⟩
  have length := afl.rtnItsLen_le h
  let maxTo := if afl.lvl &&& lvl3 ≠ 0 then min 4 h.idx else 0
  have front : maxTo ≤ h.idx := afl.maxTo_le h
  let save := (afl.unwritten its.execs).storeBytes 0
    (its.buf.loadBytes (h.idx - maxTo) (afl.rtnItsLen h + maxTo))
  have held : ∀ k < afl.rtnItsLen h + maxTo, save k = its.buf (h.idx - maxTo + k) :=
    fun k below => held_storeBytes _ below
  apply Triple.bind Triple.get
  intro start
  by_cases same : start = its
  · subst same
    apply Triple.bind ((triple_prefixRounds h save front (ite_le_one _) position
      held).starting fun _ both => congrArg _ both.2.symm)
    intro _
    apply Triple.bind Triple.get
    intro later
    apply Triple.ite
    · intro _
      apply Triple.ite
      · intro enabled
        apply Triple.bind Triple.get
        intro later
        by_cases unchanged : later.buf = start.buf
        · have rounds := Triple.forFrom_upTo (fun i below c =>
            triple_transformRound_fits below (by omega)
              (fun k => held_storeBytes save)
              (fits found enabled.1 enabled.2 i below) c)
            (fun _ _ both => both.2) 0 _ (Nat.zero_add _) RtnCounts.zero
          rw [unchanged]
          apply Triple.bind (rounds.starting _)
          · intro i its reached
            apply reached.2.restored (Buffer.length_loadBytes _ _ _)
            intro k inside
            rw [Buffer.length_loadBytes] at inside
            simp only [Buffer.loadBytes, List.getElem_map, List.getElem_range,
              Nat.zero_add]
            exact held_storeBytes save (Nat.lt_of_lt_of_le inside reached.1)
          · intro _ both
            refine ⟨⟨rfl, fun j below => absurd below (Nat.not_lt_zero j)⟩, ?_⟩
            intro k _
            rw [both.2.2]
        · exact fun its both => absurd (both.1 ▸ both.2.2) unchanged
      · intro _
        exact Triple.pure () fun _ both => both.2
    · intro _
      exact Triple.pure () fun _ both => both.2
  · exact fun later both => absurd (both.1.trans both.2.symm) same

end Rounds

/-- A call for a position of the input leaves the buffer as it was, unless it is
aborted, and it does not write anything behind the input. -/
theorem rtnExtendEncoding_restores (afl : ItsEnvironment) (h : RtnArguments)
    (its : ItsState) (position : h.idx < afl.len) (fits : afl.RoundsFit h its)
    {ended : Option Unit} {final : ItsState}
    (runs : (afl.rtnExtendEncoding h).run its = (ended, final)) :
    (ended = some () → final.buf = its.buf) ∧
      ∀ i ≥ afl.len, final.buf i = its.buf i := by
  have reached := triple_rtnExtendEncoding_fits h position its fits its rfl
  rw [runs] at reached
  cases ended with
  | none =>
      refine ⟨fun returns => ?_, reached⟩
      cases returns
  | some =>
      have same : final.buf = its.buf := reached
      exact ⟨fun _ => same, fun i _ => congrFun same i⟩

/-- The arguments of a call at the beginning of the input. -/
def callArguments (pattern repl oPattern : BitVec 8) (plen : Nat) : RtnArguments where
  pattern := fun _ => pattern
  repl := fun _ => repl
  oPattern := fun _ => oPattern
  changedVal := fun _ => repl
  plen
  idx := 0
  taintLen := plen

/-- The state before the call, with one byte all over `buf`. -/
def callState (byte : BitVec 8) : ItsState where
  buf := fun _ => byte
  cbuf := fun _ => byte
  outScratch := fun _ => 0#8
  status := 0
  execs := 0
  finds := []

/-- Five bytes, of which the first execution finds something or not. -/
def callCase (outcome : ItsOutcome) (orig : BitVec 8) : ItsEnvironment where
  len := 5
  orig := fun _ => orig
  isAscii := false
  cmplogEnableTransform := true
  cmplogEnableArith := false
  lvl := lvl3
  outcome := fun execs _ => if execs = 0 then outcome else .nothing
  float := ⟨id, id, id, id, fun value => value.setWidth 32⟩
  unwritten := fun _ _ => 7#8

/-- The exclusive or that has found something stays in its last byte, and what
is put back for digits goes beyond the bytes that were saved and beyond the
input. -/
theorem rtnExtendEncoding_left :
    (((callCase .crash 0#8).rtnExtendEncoding (callArguments 3#8 7#8 2#8 1)).run
        (callState 1#8)).1 = some () ∧
      (((callCase .crash 0#8).rtnExtendEncoding
        (callArguments 3#8 7#8 2#8 1)).run (callState 1#8)).2.buf 0 = 5#8 ∧
      (((callCase .nothing 65#8).rtnExtendEncoding
        (callArguments 3#8 7#8 2#8 5)).run (callState 1#8)).1 = some () ∧
      (((callCase .nothing 65#8).rtnExtendEncoding
        (callArguments 3#8 7#8 2#8 5)).run (callState 1#8)).2.buf 5 = 7#8 := by
  decide

end ItsEnvironment

end AFLPlusPlus.Redqueen

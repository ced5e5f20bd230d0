import AFLPlusPlus.Minimize.Tmin

/-!
# What the stages of the minimizer keep

A round of a stage leaves the input as it is or tries one lighter candidate.
`Since` collects what holds after any number of such trials, and `Minimal` what
the deletion of single bytes adds to it.
-/

namespace AFLPlusPlus

theorem inBounds_some {α β : Type} {result : Option α} {value : α}
    (found : result = some value) (rest : α → Except TminExit β) :
    (inBounds result >>= rest) = rest value := by
  rw [found]
  rfl

namespace Tmin

/-- Both buffers are large enough for the input. -/
structure Fits (tmin : Tmin) : Prop where
  inData : tmin.inLen ≤ tmin.inData.length
  tmpBuf : tmin.inLen ≤ tmin.tmpBuf.length

theorem Fits.length_data {tmin : Tmin} (fits : tmin.Fits) :
    tmin.data.length = tmin.inLen := by
  rw [data, List.length_take, Nat.min_eq_left fits.inData]

def weight (tmin : Tmin) : Nat := Reduction.weight zeroDigit tmin.data

/-- What has been reached from a start by trials, and whether some candidate
was kept. -/
structure Since (Answers : List (BitVec 8) → Bool → Prop) (start tmin : Tmin)
    (changed : Bool) : Prop where
  fits : tmin.Fits
  crashMode : tmin.crashMode = start.crashMode
  origCksum : tmin.origCksum = start.origCksum
  inLen : tmin.inLen ≤ start.inLen
  tried : ∃ tried, tmin.runs = tried ++ start.runs ∧
    tmin.data = Reduction.current start.data tried ∧
    ∀ run ∈ tried, Answers run.1 run.2
  unchanged : changed = false → tmin.data = start.data
  lighter : changed = true → tmin.weight < start.weight

/-- A candidate has been refused since the start. -/
def Refused (start tmin : Tmin) (candidate : List (BitVec 8)) : Prop :=
  ∃ tried, tmin.runs = tried ++ start.runs ∧ (candidate, false) ∈ tried

/-- Without a change, no single byte can be left out. -/
def Minimal (start tmin : Tmin) (changed : Bool) : Prop :=
  changed = false → ∀ i < tmin.data.length, Refused start tmin (tmin.data.eraseIdx i)

/-- One run of the target and what becomes of the input. -/
structure Trial (tmin next : Tmin) (candidate : List (BitVec 8))
    (res : Bool) : Prop where
  fits : next.Fits
  crashMode : next.crashMode = tmin.crashMode
  origCksum : next.origCksum = tmin.origCksum
  inLen : next.inLen ≤ tmin.inLen
  runs : next.runs = (candidate, res) :: tmin.runs
  data : next.data = if res then candidate else tmin.data

variable {Answers : List (BitVec 8) → Bool → Prop} {start tmin next : Tmin}
    {deleting : Deleting} {tmpBuf : List (BitVec 8)} {delLen : Nat}
  {changed res : Bool} {candidate : List (BitVec 8)}

theorem Since.refl (fits : start.Fits) : Since Answers start start false where
  fits := fits
  crashMode := rfl
  origCksum := rfl
  inLen := Nat.le_refl _
  tried := ⟨[], rfl, rfl, fun _ none => absurd none List.not_mem_nil⟩
  unchanged := fun _ => rfl
  lighter := fun impossible => Bool.noConfusion impossible

theorem Since.weight_le (since : Since Answers start tmin changed) :
    tmin.weight ≤ start.weight := by
  cases changed with
  | false =>
      rw [weight, since.unchanged rfl]
      exact Nat.le_refl _
  | true => exact Nat.le_of_lt (since.lighter rfl)

theorem Since.trial (since : Since Answers start tmin changed)
    (trial : Trial tmin next candidate res) (answers : Answers candidate res)
    (lighter : Reduction.weight zeroDigit candidate < tmin.weight) :
    Since Answers start next (changed || res) := by
  refine ⟨trial.fits, trial.crashMode.trans since.crashMode,
    trial.origCksum.trans since.origCksum,
    Nat.le_trans trial.inLen since.inLen, ?_, ?_, ?_⟩
  · obtain ⟨tried, runs, data, all⟩ := since.tried
    refine ⟨(candidate, res) :: tried, ?_, ?_, ?_⟩
    · rw [trial.runs, runs, List.cons_append]
    · rw [trial.data, data, Reduction.current_cons]
    · intro run member
      rcases List.mem_cons.mp member with rfl | earlier
      · exact answers
      · exact all run earlier
  · intro neither
    rw [Bool.or_eq_false_iff] at neither
    rw [trial.data, neither.2, since.unchanged neither.1]
    rfl
  · intro either
    have data := trial.data
    cases res with
    | true =>
        have kept : next.data = candidate := data
        rw [weight, kept]
        exact Nat.lt_of_lt_of_le lighter since.weight_le
    | false =>
        have same : next.data = tmin.data := data
        rw [Bool.or_false] at either
        rw [weight, same]
        exact since.lighter either

theorem Since.trans {middle : Tmin} {first second : Bool}
    (before : Since Answers start middle first)
    (after : Since Answers middle tmin second) :
    Since Answers start tmin (first || second) := by
  refine ⟨after.fits, after.crashMode.trans before.crashMode,
    after.origCksum.trans before.origCksum,
    Nat.le_trans after.inLen before.inLen, ?_, ?_, ?_⟩
  · obtain ⟨older, runs, data, olderAnswers⟩ := before.tried
    obtain ⟨newer, laterRuns, laterData, newerAnswers⟩ := after.tried
    refine ⟨newer ++ older, ?_, ?_, ?_⟩
    · rw [laterRuns, runs, List.append_assoc]
    · rw [laterData, data, Reduction.current_append]
    · intro run member
      rcases List.mem_append.mp member with new | old
      · exact newerAnswers run new
      · exact olderAnswers run old
  · intro neither
    rw [Bool.or_eq_false_iff] at neither
    rw [after.unchanged neither.2, before.unchanged neither.1]
  · intro either
    cases first with
    | true => exact Nat.lt_of_le_of_lt after.weight_le (before.lighter rfl)
    | false =>
        rw [Bool.false_or] at either
        exact Nat.lt_of_lt_of_le (after.lighter either) before.weight_le

theorem Since.setTmpBuf (since : Since Answers start tmin changed)
    (length : tmpBuf.length = tmin.tmpBuf.length) :
    Since Answers start { tmin with tmpBuf } changed :=
  { since with fits := ⟨since.fits.inData, length ▸ since.fits.tmpBuf⟩ }

theorem Refused.trial (refused : Refused start tmin candidate)
    {other : List (BitVec 8)} (trial : Trial tmin next other res) :
    Refused start next candidate := by
  obtain ⟨tried, runs, member⟩ := refused
  exact ⟨(other, res) :: tried, by rw [trial.runs, runs, List.cons_append],
    List.mem_cons_of_mem _ member⟩

theorem Since.refused (since : Since Answers start tmin changed)
    (trial : Trial tmin next candidate false) :
    Refused start next candidate := by
  obtain ⟨tried, runs, _⟩ := since.tried
  exact ⟨(candidate, false) :: tried,
    by rw [trial.runs, runs, List.cons_append], List.mem_cons_self⟩

theorem Minimal.trial (minimal : Minimal start tmin changed)
    (trial : Trial tmin next candidate res) :
    Minimal start next (changed || res) := by
  intro neither i inside
  rw [Bool.or_eq_false_iff] at neither
  have same : next.data = tmin.data := by
    rw [trial.data, neither.2]
    rfl
  rw [same] at inside ⊢
  exact (minimal neither.1 i inside).trial trial

/-- What may be assumed of the runs that are made since a start. -/
def Running (settings : TminSettings) (target : TminTarget)
    (Answers : List (BitVec 8) → Bool → Prop) (allowed : TminExit → Prop)
    (start : Tmin) : Prop :=
  ∀ tmin changed, Since Answers start tmin changed → ∀ mem,
    Yields allowed (fun out => Answers mem out.2)
      (tmin.tminRunTarget settings target mem false)

variable {settings : TminSettings} {target : TminTarget}
  {allowed : TminExit → Prop}

theorem runTmpBuf_yields (running : Running settings target Answers allowed start)
    (since : Since Answers start tmin changed) {len : Nat}
    (bounded : len ≤ tmin.tmpBuf.length) :
    Yields allowed (fun out => Ran tmin (tmin.tmpBuf.take len) out ∧
        Answers (tmin.tmpBuf.take len) out.2)
      (tmin.runTmpBuf settings target len) := by
  rw [runTmpBuf, inBounds_some (Region.read_eq (by omega))]
  exact (running tmin changed since _).and_returns fun _ => tminRunTarget_ran

variable {mem : List (BitVec 8)} {i inLen : Nat} {state : Tmin × Bool}

/-- A refused candidate leaves everything but `tmp_buf` as it was. -/
theorem Ran.refused (fits : tmin.Fits) (length : tmpBuf.length = tmin.tmpBuf.length)
    (ran : Ran { tmin with tmpBuf } mem (next, false)) :
    Trial tmin next mem false where
  fits := by
    refine ⟨?_, ?_⟩
    · rw [ran.inLen, ran.inData]
      exact fits.inData
    · rw [ran.inLen, ran.tmpBuf, length]
      exact fits.tmpBuf
  crashMode := ran.crashMode
  origCksum := ran.origCksum
  inLen := Nat.le_of_eq ran.inLen
  runs := ran.runs
  data := by
    rw [data, ran.inData, ran.inLen]
    rfl

/-- A candidate that is kept becomes the input. -/
theorem Ran.kept (fits : tmin.Fits) (length : tmpBuf.length = tmin.tmpBuf.length)
    (ran : Ran { tmin with tmpBuf } mem (next, true)) {inData : List (BitVec 8)}
    (shorter : inLen ≤ tmin.inLen) (size : inData.length = tmin.inData.length)
    (adopted : inData.take inLen = mem) :
    Trial tmin { next with inData, inLen } mem true where
  fits := by
    refine ⟨?_, ?_⟩
    · change inLen ≤ inData.length
      rw [size]
      exact Nat.le_trans shorter fits.inData
    · change inLen ≤ next.tmpBuf.length
      rw [ran.tmpBuf, length]
      exact Nat.le_trans shorter fits.tmpBuf
  crashMode := ran.crashMode
  origCksum := ran.origCksum
  inLen := shorter
  runs := ran.runs
  data := adopted

/-- A candidate that is kept is copied over the input. -/
theorem Ran.copied (fits : tmin.Fits) (length : tmpBuf.length = tmin.tmpBuf.length)
    (ran : Ran { tmin with tmpBuf } (tmpBuf.take inLen) (next, true))
    (shorter : inLen ≤ tmin.inLen) :
    ∃ inData, Region.memcpy next.inData 0 next.tmpBuf 0 inLen = some inData ∧
      inData.take inLen = tmpBuf.take inLen ∧
      Trial tmin { next with inData, inLen } (tmpBuf.take inLen) true := by
  have same : next.inData = tmin.inData := ran.inData
  have sameTmp : next.tmpBuf = tmpBuf := ran.tmpBuf
  obtain ⟨inData, adopt, size, seen⟩ :=
    @Region.memcpy_start _ next.inData next.tmpBuf inLen
      (by rw [same]; exact Nat.le_trans shorter fits.inData)
      (by rw [sameTmp, length]; exact Nat.le_trans shorter fits.tmpBuf)
  rw [sameTmp] at seen
  exact ⟨inData, adopt, seen,
    ran.kept fits length shorter (size.trans (congrArg List.length same)) seen⟩

theorem normalizeBlock_yields
    (running : Running settings target Answers allowed start)
    (since : Since Answers start tmin changed) {setLen setPos : Nat}
    (inside : setPos < tmin.inLen) :
    Yields allowed
      (fun next => (∃ changed, Since Answers start next changed) ∧
        next.inLen = tmin.inLen)
      (normalizeBlock settings target setLen setPos tmin) := by
  have fits := since.fits
  have inData := fits.inData
  have tmpBuf := fits.tmpBuf
  unfold normalizeBlock
  extract_lets useLen
  have bounded : setPos + useLen ≤ tmin.inLen := by omega
  rw [inBounds_some (Region.read_eq (by omega))]
  split
  · exact ⟨⟨changed, since⟩, rfl⟩
  · rename_i mixed
    have block : (tmin.inData.drop setPos).take useLen =
        (tmin.data.drop setPos).take useLen := by
      rw [data, List.drop_take, List.take_take, Nat.min_eq_left (by omega)]
    rw [block, List.all_eq_true] at mixed
    obtain ⟨copied, copy, copyLength, copySeen⟩ := Region.memcpy_start tmpBuf inData
    obtain ⟨blanked, blank, blankLength, blankSeen⟩ :=
      @Region.memset_some _ copied setPos useLen tmin.inLen zeroDigit bounded
        (by omega)
    rw [inBounds_some copy, inBounds_some blank]
    have length : blanked.length = tmin.tmpBuf.length := by omega
    refine (runTmpBuf_yields running (since.setTmpBuf length)
      (by change tmin.inLen ≤ blanked.length; omega)).bind ?_
    rintro ⟨next, res⟩ ⟨ran, answers⟩
    have candidate : blanked.take tmin.inLen =
        Region.splice tmin.data setPos (List.replicate useLen zeroDigit) := by
      rw [blankSeen, copySeen, data]
    have lighter : Reduction.weight zeroDigit (blanked.take tmin.inLen) <
        tmin.weight := by
      rw [candidate]
      apply Reduction.weight_splice_replicate
      · rw [fits.length_data]
        exact bounded
      · by_contra blank
        apply mixed
        intro x member
        rw [decide_eq_true_iff]
        by_contra other
        exact blank ⟨x, member, other⟩
    cases res with
    | true =>
        have same : next.inData = tmin.inData := ran.inData
        obtain ⟨adopted, adopt, adoptLength, adoptSeen⟩ :=
          @Region.memset_some _ next.inData setPos useLen tmin.inLen zeroDigit
            bounded (by rw [same]; exact inData)
        dsimp only
        rw [if_pos rfl, inBounds_some adopt]
        have inLen : next.inLen = tmin.inLen := ran.inLen
        have kept := ran.kept fits length (Nat.le_refl _)
          (adoptLength.trans (congrArg List.length same))
          (by rw [adoptSeen, candidate, same, data])
        have final := since.trial kept answers lighter
        rw [← inLen] at final
        exact ⟨⟨_, final⟩, inLen⟩
    | false =>
        have refused := ran.refused fits length
        exact ⟨⟨_, since.trial refused answers lighter⟩, ran.inLen⟩

theorem normalize_yields
    (running : Running settings target Answers allowed start)
    (fits : start.Fits) :
    Yields allowed (fun next => ∃ changed, Since Answers start next changed)
      (start.normalize settings target) := by
  unfold normalize
  extract_lets setLen
  have positive : 0 < setLen :=
    Nat.lt_of_lt_of_le (by decide : 0 < tminSetMinSize) (Nat.le_max_right _ _)
  refine (forRangeM_yields _
    (fun _ tmin => (∃ changed, Since Answers start tmin changed) ∧
      tmin.inLen = start.inLen) start ⟨⟨false, .refl fits⟩, rfl⟩ _ ?_).mono
    fun next holds => holds.1
  rintro index few tmin ⟨⟨changed, since⟩, same⟩
  have product := (Nat.le_div_iff_mul_le positive).mp few
  rw [Nat.succ_mul, Nat.mul_comm index] at product
  have inside : setLen * index < tmin.inLen := by omega
  refine (normalizeBlock_yields running since inside).mono ?_
  rintro next ⟨later, inLen⟩
  exact ⟨later, inLen.trans same⟩

/-- The invariant of the deletion loop: with blocks of one byte, and as long as
nothing has changed, every byte before the position cannot be left out. -/
structure Deleting.Holds (Answers : List (BitVec 8) → Bool → Prop)
    (start : Tmin) (delLen : Nat) (deleting : Deleting) : Prop where
  since : Since Answers start deleting.tmin deleting.changedAny
  behind : deleting.prevDel = false → delLen ≤ deleting.delPos
  refused : delLen = 1 → deleting.changedAny = false →
    ∀ i < deleting.delPos, i < deleting.tmin.data.length →
      Refused start deleting.tmin (deleting.tmin.data.eraseIdx i)

theorem tailLen_eq (inLen delPos delLen : Nat) :
    tailLen inLen delPos delLen = inLen - delPos - delLen := by
  unfold tailLen
  omega

/-- The comparison with the block before stays inside the buffer. -/
theorem sameAsPrevious_returns (holds : deleting.Holds Answers start delLen) :
    ∃ same, sameAsPrevious delLen deleting = .ok same ∧
      (same = true → delLen ≤ deleting.delPos ∧
        (deleting.tmin.data.drop (deleting.delPos - delLen)).take delLen =
          (deleting.tmin.data.drop deleting.delPos).take delLen) := by
  have inData := holds.since.fits.inData
  unfold sameAsPrevious
  extract_lets tmin
  split
  · rename_i compared
    rw [Bool.and_eq_true, Bool.not_eq_true', decide_eq_true_iff,
      tailLen_eq] at compared
    have behind := holds.behind compared.1
    have bounded : deleting.delPos + delLen < tmin.inLen := by omega
    have seen : ∀ pos, pos + delLen ≤ tmin.inLen →
        (tmin.inData.drop pos).take delLen = (tmin.data.drop pos).take delLen := by
      intro pos inside
      rw [data, List.drop_take, List.take_take, Nat.min_eq_left (by omega)]
    have size : tmin.inLen ≤ tmin.inData.length := inData
    rw [if_neg (by omega), inBounds_some (Region.read_eq (by omega)),
      inBounds_some (Region.read_eq (by omega)), seen _ (by omega),
      seen _ (by omega)]
    refine ⟨_, rfl, fun same => ⟨behind, ?_⟩⟩
    exact beq_iff_eq.mp same
  · exact ⟨false, rfl, fun impossible => Bool.noConfusion impossible⟩

/-- `tmp_buf` is filled with the input without a block. -/
theorem removeBlock_built (fits : tmin.Fits) {delPos delLen : Nat}
    (inside : delPos < tmin.inLen) :
    ∃ head tmpBuf, Region.memcpy tmin.tmpBuf 0 tmin.inData 0 delPos = some head ∧
      Region.memcpy head delPos tmin.inData (delPos + delLen)
        (tailLen tmin.inLen delPos delLen) = some tmpBuf ∧
      tmpBuf.length = tmin.tmpBuf.length ∧
      tmpBuf.take (delPos + tailLen tmin.inLen delPos delLen) =
        Reduction.removeBlock delPos delLen tmin.data := by
  have inData := fits.inData
  have size := fits.tmpBuf
  rw [tailLen_eq]
  obtain ⟨head, copyHead, headLength, headSeen⟩ :=
    @Region.memcpy_start _ tmin.tmpBuf tmin.inData delPos (by omega) (by omega)
  obtain ⟨tmpBuf, copyTail, tailLength, tailSeen⟩ :=
    @Region.memcpy_some _ head tmin.inData delPos (delPos + delLen)
      (tmin.inLen - delPos - delLen) (by omega) fun _ => by omega
  refine ⟨head, tmpBuf, copyHead, copyTail, tailLength.trans headLength, ?_⟩
  rw [tailSeen, headSeen, Reduction.removeBlock, data, List.take_take,
    Nat.min_eq_left (by omega), List.drop_take, Nat.sub_sub]

section

variable (running : Running settings target Answers allowed start) (positive : 0 < delLen)
    (holds : deleting.Holds Answers start delLen)
include running positive holds

theorem deleteBlock_yields (inside : deleting.delPos < deleting.tmin.inLen) :
    Yields allowed (Deleting.Holds Answers start delLen)
      (deleteBlock settings target delLen deleting) := by
  unfold deleteBlock
  extract_lets tmin delPos tail
  have fits : tmin.Fits := holds.since.fits
  have inData := fits.inData
  have size := fits.tmpBuf
  have inside : delPos < tmin.inLen := inside
  obtain ⟨head, tmpBuf, copyHead, copyTail, length, candidate⟩ :=
    @removeBlock_built tmin fits delPos delLen inside
  have tailEq : tail = tmin.inLen - delPos - delLen := tailLen_eq _ _ _
  have shorter : delPos + tail < tmin.inLen := by omega
  have bounded : delPos + tail ≤ tmpBuf.length := by
    rw [length]
    exact Nat.le_trans (Nat.le_of_lt shorter) size
  rw [inBounds_some copyHead, inBounds_some copyTail]
  refine (runTmpBuf_yields running (holds.since.setTmpBuf length) bounded).bind ?_
  rintro ⟨next, res⟩ ⟨ran, answers⟩
  have lighter : Reduction.weight zeroDigit (tmpBuf.take (delPos + tail)) <
      tmin.weight := by
    rw [candidate]
    apply Reduction.weight_lt_of_sublist
    · exact Reduction.removeBlock_sublist _ _ _
    · rw [Reduction.length_removeBlock, fits.length_data]
      omega
  cases res with
  | true =>
      obtain ⟨adopted, adopt, _, kept⟩ := ran.copied fits length (Nat.le_of_lt shorter)
      dsimp only
      rw [if_pos rfl, inBounds_some adopt]
      have since := holds.since.trial kept answers lighter
      rw [Bool.or_true] at since
      exact ⟨since, fun impossible => Bool.noConfusion impossible,
        fun _ impossible => Bool.noConfusion impossible⟩
  | false =>
      have trial := ran.refused fits length
      have since := holds.since.trial trial answers lighter
      rw [Bool.or_false] at since
      refine ⟨since, fun _ => Nat.le_add_left _ _, ?_⟩
      intro single unchanged i before within
      have data : next.data = tmin.data := trial.data
      change i < next.data.length at within
      change Refused start next (next.data.eraseIdx i)
      rw [data] at within ⊢
      by_cases earlier : i < delPos
      · exact (holds.refused single unchanged i earlier within).trial trial
      · have here : i = delPos := by
          change i < delPos + delLen at before
          omega
        have refused := holds.since.refused trial
        rwa [candidate, single, Reduction.removeBlock_one, ← here] at refused

theorem deleteRound_yields (inside : deleting.delPos < deleting.tmin.inLen) :
    Yields allowed (Deleting.Holds Answers start delLen)
      (deleteRound settings target delLen deleting) := by
  obtain ⟨same, compared, equal⟩ := sameAsPrevious_returns holds
  unfold deleteRound
  rw [compared]
  cases same with
  | false => exact deleteBlock_yields running positive holds inside
  | true =>
      obtain ⟨behind, blocks⟩ := equal rfl
      refine ⟨holds.since, fun _ => Nat.le_add_left _ _, ?_⟩
      intro single unchanged i before within
      by_cases earlier : i < deleting.delPos
      · exact holds.refused single unchanged i earlier within
      · -- the byte before is the same, and it cannot be left out
        have here : i = deleting.delPos := by
          change i < deleting.delPos + delLen at before
          omega
        obtain ⟨pos, rfl⟩ : ∃ pos, i = pos + 1 := ⟨i - 1, by omega⟩
        have neighbours := congrArg (fun block => block[0]?) blocks
        rw [single, ← here] at neighbours
        simp only [Nat.add_sub_cancel, List.getElem?_take, Nat.one_pos,
          if_true, List.getElem?_drop, Nat.add_zero] at neighbours
        have refused := holds.refused single unchanged pos (by omega)
          (Nat.lt_of_succ_lt within)
        rwa [Reduction.eraseIdx_of_eq_next _ _ neighbours] at refused

/-- The deletion loop ends with every byte looked at. -/
theorem deleteLoop_yields :
    Yields allowed
      (fun after => after.Holds Answers start delLen ∧ after.tmin.inLen ≤ after.delPos)
      (deleteLoop settings target positive deleting) := by
  fun_induction deleteLoop settings target positive deleting with
  | case1 deleting inside exit round =>
      have yields := deleteRound_yields running positive holds inside
      rw [round] at yields
      exact yields
  | case2 deleting inside next round _ induction =>
      have yields := deleteRound_yields running positive holds inside
      rw [round] at yields
      exact induction yields
  | case3 deleting outside => exact ⟨holds, Nat.le_of_not_lt outside⟩

end

theorem deleteBlockSizes_yields
    (running : Running settings target Answers allowed start) (delLen : Nat)
    (since : Since Answers start tmin changed) :
    Yields allowed
      (fun out => Since Answers start out.1 out.2 ∧ Minimal start out.1 out.2)
      (deleteBlockSizes settings target delLen tmin changed) := by
  have swept : ∀ (delLen : Nat) (tmin : Tmin) (changed : Bool),
      Since Answers start tmin changed →
      Yields allowed (fun after => after.Holds Answers start (max delLen 1) ∧
          after.tmin.inLen ≤ after.delPos)
        (deleteLoop settings target
          (Nat.lt_of_lt_of_le Nat.one_pos (Nat.le_max_right delLen 1))
          { tmin, delPos := 0, prevDel := true, changedAny := changed }) :=
    fun _ _ _ since => deleteLoop_yields running _
      ⟨since, fun impossible => Bool.noConfusion impossible,
        fun _ _ i none => absurd none (Nat.not_lt_zero i)⟩
  fun_induction deleteBlockSizes settings target delLen tmin changed with
  | case1 delLen tmin changed exit looped =>
      have yields := swept delLen tmin changed since
      rw [looped] at yields
      exact yields
  | case2 delLen tmin changed deleting looped further induction =>
      have yields := swept delLen tmin changed since
      rw [looped] at yields
      exact induction yields.1.since
  | case3 delLen tmin changed deleting looped last =>
      have yields := swept delLen tmin changed since
      rw [looped] at yields
      obtain ⟨holds, all⟩ := yields
      refine ⟨holds.since, ?_⟩
      intro unchanged i within
      have inside : i < deleting.tmin.data.length := within
      have length := holds.since.fits.length_data
      have single : max delLen 1 = 1 := by omega
      exact holds.refused single unchanged i (by omega) inside

theorem deleteBlocks_yields
    (running : Running settings target Answers allowed start)
    (fits : start.Fits) :
    Yields allowed
      (fun out => Since Answers start out.1 out.2 ∧ Minimal start out.1 out.2)
      (start.deleteBlocks settings target) :=
  deleteBlockSizes_yields running _ (Since.refl fits)

/-- The invariant of the loop over the symbols: those that are still to come
occur in the input when `alpha_map` says so. -/
structure AlphabetHolds (Answers : List (BitVec 8) → Bool → Prop)
    (start : Tmin) (alphaMap : BitVec 8 → Nat) (i : Nat)
    (state : Tmin × Bool) : Prop where
  since : Since Answers start state.1 state.2
  minimal : Minimal start state.1 state.2
  present : ∀ symbol : BitVec 8, i ≤ symbol.toNat → alphaMap symbol ≠ 0 →
    symbol ≠ zeroDigit → symbol ∈ state.1.data

theorem replaceSymbol_yields (running : Running settings target Answers allowed start)
    {alphaMap : BitVec 8 → Nat} (code : i < 256)
    (holds : AlphabetHolds Answers start alphaMap i state) :
    Yields allowed (AlphabetHolds Answers start alphaMap (i + 1))
      (replaceSymbol settings target alphaMap i state) := by
  obtain ⟨tmin, changed⟩ := state
  obtain ⟨since, minimal, present⟩ := holds
  have fits := since.fits
  have inData := fits.inData
  have size := fits.tmpBuf
  unfold replaceSymbol
  dsimp only at since minimal present fits inData size ⊢
  split
  · exact ⟨since, minimal, fun symbol later => present symbol (by omega)⟩
  · rename_i tried
    rw [not_or] at tried
    have toNat : (BitVec.ofNat 8 i).toNat = i := by
      rw [BitVec.toNat_ofNat]
      exact Nat.mod_eq_of_lt code
    obtain ⟨copied, copy, copyLength, copySeen⟩ := Region.memcpy_start size inData
    have bytesLength : (copied.take tmin.inLen).length = tmin.inLen := by
      rw [List.length_take]
      omega
    obtain ⟨tmpBuf, replace, length, seen⟩ :=
      @Region.write_some _ copied ((copied.take tmin.inLen).map fun byte =>
          if byte = BitVec.ofNat 8 i then zeroDigit else byte) 0 tmin.inLen
        (by rw [List.length_map]; omega) (by omega)
    rw [inBounds_some copy, inBounds_some (Region.read_eq (by omega)),
      List.drop_zero, inBounds_some replace]
    have candidate : tmpBuf.take tmin.inLen = tmin.data.map fun byte =>
        if byte = BitVec.ofNat 8 i then zeroDigit else byte := by
      rw [seen, Region.splice_whole (List.length_map _), copySeen, data]
    have sized := length.trans copyLength
    refine (runTmpBuf_yields running (since.setTmpBuf sized)
      (by change tmin.inLen ≤ tmpBuf.length; omega)).bind ?_
    rintro ⟨next, res⟩ ⟨ran, answers⟩
    have lighter : Reduction.weight zeroDigit (tmpBuf.take tmin.inLen) <
        tmin.weight := by
      rw [candidate]
      exact Reduction.weight_map_replace zeroDigit
        (present _ (Nat.le_of_eq toNat.symm) tried.2 tried.1) tried.1
    cases res with
    | true =>
        have inLen : next.inLen = tmin.inLen := ran.inLen
        obtain ⟨adopted, adopt, adoptSeen, kept⟩ :=
          ran.copied fits sized (Nat.le_refl _)
        have after := since.trial kept answers lighter
        dsimp only
        rw [inLen, if_pos rfl, inBounds_some adopt]
        rw [Bool.or_true] at after
        refine ⟨after, fun impossible => Bool.noConfusion impossible, ?_⟩
        intro symbol later counted other
        change symbol ∈ adopted.take tmin.inLen
        rw [adoptSeen, candidate, List.mem_map]
        refine ⟨symbol, present symbol (by omega) counted other, if_neg ?_⟩
        rintro rfl
        omega
    | false =>
        have refused := ran.refused fits sized
        have after := since.trial refused answers lighter
        have still := minimal.trial refused
        rw [Bool.or_false] at after still
        refine ⟨after, still, fun symbol later counted other => ?_⟩
        have same : next.data = tmin.data := refused.data
        change symbol ∈ next.data
        rw [same]
        exact present symbol (by omega) counted other

theorem minimizeAlphabet_yields
    (running : Running settings target Answers allowed start)
    (since : Since Answers start tmin changed)
    (minimal : Minimal start tmin changed) :
    Yields allowed
      (fun out => Since Answers start out.1 out.2 ∧ Minimal start out.1 out.2)
      (minimizeAlphabet settings target (tmin, changed)) := by
  have inData := since.fits.inData
  obtain ⟨counts, counted, occurs⟩ : ∃ counts, tmin.alphaMap = .ok counts ∧
      ∀ symbol, counts symbol ≠ 0 → symbol ∈ tmin.data := by
    rw [alphaMap, inBounds_some (Region.read_eq (by omega))]
    exact ⟨_, rfl, fun symbol counted =>
      List.count_pos_iff.mp (Nat.pos_of_ne_zero counted)⟩
  unfold minimizeAlphabet
  rw [counted, ok_bind]
  -- the elaborator would unroll the loop
  generalize codes : 256 = count
  exact (forRangeM_yields _ (AlphabetHolds Answers start counts) _
    ⟨since, minimal, fun symbol _ counted _ => occurs symbol counted⟩ count
    fun i code state holds =>
      replaceSymbol_yields running (codes ▸ code) holds).mono
    fun out holds => ⟨holds.since, holds.minimal⟩

/-- The invariant of the loop over the bytes: `tmp_buf` is a copy of the
input. -/
structure CharacterHolds (Answers : List (BitVec 8) → Bool → Prop)
    (start : Tmin) (bound : Nat) (state : Tmin × Bool) : Prop where
  since : Since Answers start state.1 state.2
  minimal : Minimal start state.1 state.2
  inLen : state.1.inLen = bound
  copy : state.1.tmpBuf.take bound = state.1.data

section

variable (running : Running settings target Answers allowed start)
include running

theorem replaceCharacter_yields {bound : Nat} (inside : i < bound)
    (holds : CharacterHolds Answers start bound state) :
    Yields allowed (CharacterHolds Answers start bound)
      (replaceCharacter settings target i state) := by
  obtain ⟨tmin, changed⟩ := state
  obtain ⟨since, minimal, same, copy⟩ := holds
  dsimp only at since minimal same copy
  subst same
  have fits := since.fits
  have inData := fits.inData
  have size := fits.tmpBuf
  have within : i < tmin.tmpBuf.length := by omega
  have element : tmin.tmpBuf[i]? = some tmin.tmpBuf[i] :=
    List.getElem?_eq_getElem within
  unfold replaceCharacter
  dsimp only
  rw [inBounds_some element]
  split
  · exact ⟨since, minimal, rfl, copy⟩
  · rename_i other
    obtain ⟨blanked, blank, length, seen⟩ :=
      @Region.write_some _ tmin.tmpBuf [zeroDigit] i tmin.inLen inside size
    rw [inBounds_some blank]
    refine (runTmpBuf_yields running (since.setTmpBuf length)
      (by change tmin.inLen ≤ blanked.length; omega)).bind ?_
    rintro ⟨next, res⟩ ⟨ran, answers⟩
    have bounded : i < tmin.data.length := by
      rw [fits.length_data]
      exact inside
    have candidate : blanked.take tmin.inLen =
        Region.splice tmin.data i (List.replicate 1 zeroDigit) := by
      rw [seen, copy]
      rfl
    have lighter : Reduction.weight zeroDigit (blanked.take tmin.inLen) <
        tmin.weight := by
      rw [candidate]
      refine Reduction.weight_splice_replicate zeroDigit bounded
        ⟨tmin.tmpBuf[i], ?_, other⟩
      apply List.mem_of_getElem? (i := 0)
      rw [← copy, List.getElem?_take_of_lt Nat.one_pos, List.getElem?_drop,
        Nat.add_zero, List.getElem?_take_of_lt inside, element]
    cases res with
    | true =>
        have same : next.inData = tmin.inData := ran.inData
        have sameTmp : next.tmpBuf = blanked := ran.tmpBuf
        have sameLen : next.inLen = tmin.inLen := ran.inLen
        obtain ⟨adopted, adopt, adoptLength, adoptSeen⟩ :=
          @Region.write_some _ next.inData [zeroDigit] i tmin.inLen inside
            (by rw [same]; exact inData)
        dsimp only
        rw [if_pos rfl, inBounds_some adopt]
        have now : adopted.take tmin.inLen = blanked.take tmin.inLen := by
          rw [adoptSeen, seen, copy, same, data]
        have kept := ran.kept fits length (Nat.le_refl _)
          (adoptLength.trans (congrArg List.length same)) now
        have after := since.trial kept answers lighter
        rw [Bool.or_true, ← sameLen] at after
        refine ⟨after, fun impossible => Bool.noConfusion impossible, sameLen, ?_⟩
        change next.tmpBuf.take tmin.inLen = adopted.take next.inLen
        rw [sameTmp, sameLen, now]
    | false =>
        have refused := ran.refused fits length
        have sameTmp : next.tmpBuf = blanked := ran.tmpBuf
        have sameLen : next.inLen = tmin.inLen := ran.inLen
        have sameData : next.data = tmin.data := refused.data
        obtain ⟨restored, restore, restoreLength, restoreSeen⟩ :=
          @Region.write_some _ next.tmpBuf [tmin.tmpBuf[i]] i tmin.inLen inside
            (by rw [sameTmp]; omega)
        dsimp only
        rw [if_neg Bool.false_ne_true, inBounds_some restore]
        have after := since.trial refused answers lighter
        have still := minimal.trial refused
        rw [Bool.or_false] at after still
        refine ⟨after.setTmpBuf restoreLength, still, sameLen, ?_⟩
        change restored.take tmin.inLen = next.data
        have part : i < (tmin.tmpBuf.take tmin.inLen).length := by
          rw [copy]
          exact bounded
        have old : tmin.tmpBuf[i] = (tmin.tmpBuf.take tmin.inLen)[i] :=
          List.getElem_take.symm
        rw [restoreSeen, sameTmp, seen, sameData, ← copy,
          Region.splice_singleton _ part,
          Region.splice_singleton _ (by rwa [List.length_set]), List.set_set,
          old, List.set_getElem_self]

theorem minimizeCharacters_yields (since : Since Answers start tmin changed)
    (minimal : Minimal start tmin changed) :
    Yields allowed
      (fun out => Since Answers start out.1 out.2 ∧ Minimal start out.1 out.2)
      (minimizeCharacters settings target (tmin, changed)) := by
  have inData := since.fits.inData
  have size := since.fits.tmpBuf
  obtain ⟨copied, copy, length, seen⟩ := Region.memcpy_start size inData
  unfold minimizeCharacters
  dsimp only
  rw [inBounds_some copy]
  exact (forRangeM_yields _ (fun _ => CharacterHolds Answers start tmin.inLen)
    ({ tmin with tmpBuf := copied }, changed)
    ⟨since.setTmpBuf length, minimal, rfl, seen⟩ tmin.inLen
    fun i inside state holds =>
      replaceCharacter_yields running inside holds).mono
    fun out holds => ⟨holds.since, holds.minimal⟩

theorem pass_yields (fits : start.Fits) (curPass : Nat) :
    Yields allowed
      (fun out => Since Answers start out.1 out.2 ∧ Minimal start out.1 out.2)
      (start.pass settings target curPass) := by
  unfold pass
  refine (deleteBlocks_yields running fits).bind ?_
  rintro ⟨tmin, changed⟩ ⟨since, minimal⟩
  dsimp only at since minimal ⊢
  split
  · rename_i last
    rw [Bool.and_eq_true, Bool.not_eq_true'] at last
    rw [last.2] at since minimal
    exact ⟨since, minimal⟩
  · refine (minimizeAlphabet_yields running since minimal).bind ?_
    rintro ⟨tmin, changed⟩ ⟨since, minimal⟩
    exact minimizeCharacters_yields running since minimal

end

end Tmin

end AFLPlusPlus

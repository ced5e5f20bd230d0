import AFLPlusPlus.Findings.SaveIfInteresting
import AFLPlusPlus.Support.Transitions

/-!
# Deduplication over a campaign

Each virgin map of the findings remembers the statuses, hit or not hit, of the
bytes of all traces that were compared with it.  Over every sequence of
executions a finding counts as unique exactly when a byte of its trace has a
status that no earlier one had, and no trace is bucketed twice on the way.
-/

namespace AFLPlusPlus

open CoverageMaps

/-- The trace that is simplified for a finding. -/
def Finding.judged (size : Nat) (finding : Finding) : Buffer :=
  if finding.classified then finding.held else bucketed size finding.held

/-- The findings that reached the comparison with a virgin map. -/
def compared (kind : VirginMap) (findings : List Finding) : List Finding :=
  findings.filter fun finding =>
    decide (finding.kind = kind) && finding.belowLimit

/-- How many findings of a kind were counted as unique. -/
def counted (kind : VirginMap) (findings : List Finding) : Nat :=
  findings.countP fun finding =>
    decide (finding.kind = kind) && finding.counted

theorem compared_concat (kind : VirginMap) (findings : List Finding)
    (finding : Finding) :
    compared kind (findings ++ [finding]) =
      if finding.kind = kind ∧ finding.belowLimit = true then
        compared kind findings ++ [finding]
      else compared kind findings := by
  rw [compared, List.filter_append, ← compared]
  split
  · rename_i reached
    rw [List.filter_cons_of_pos (by simp [reached]), List.filter_nil]
  · rename_i missed
    rw [List.filter_cons_of_neg (by simpa using missed), List.filter_nil,
      List.append_nil]

theorem counted_concat (kind : VirginMap) (findings : List Finding)
    (finding : Finding) :
    counted kind (findings ++ [finding]) = counted kind findings +
      if finding.kind = kind ∧ finding.counted = true then 1 else 0 := by
  rw [counted, List.countP_append, List.countP_singleton, ← counted]
  simp only [Bool.and_eq_true, decide_eq_true_eq]

variable {classified : Bool} {kind : VirginMap}

namespace FuzzState

variable {campaign : Campaign} {size : Nat} {expected : Buffer → Prop}
  {afl before after : FuzzState}

/-- The counter of a kind of finding; `virgin_bits` has none. -/
def uniqueOf (afl : FuzzState) : VirginMap → Nat
  | .tmout => afl.uniqueTmouts
  | .crash => afl.uniqueCrashes
  | .bits => 0

@[simp] theorem uniqueOf_noteFinding (afl : FuzzState) (finding : Finding)
    (kind : VirginMap) :
    (afl.noteFinding finding).uniqueOf kind = afl.uniqueOf kind := by
  cases kind <;> rfl

/-- What the virgin maps and the counters have to do with the findings so far:
the law of deduplication in terms of the traces that were simplified. -/
structure FindingsLaw (size : Nat) (afl : FuzzState) : Prop where
  mapSize : afl.maps.mapSize = size
  remembers : ∀ kind, kind ≠ .bits →
    Remembers size ((compared kind afl.findings).map (Finding.judged size))
      (afl.maps.virgin kind)
  unique : ∀ kind, kind ≠ .bits → afl.uniqueOf kind = counted kind afl.findings
  decided : ∀ seen finding later,
    afl.findings = seen ++ finding :: later →
      (finding.counted = true ↔ finding.belowLimit = true ∧
        NewStatus size
          ((compared finding.kind seen).map (Finding.judged size))
          (finding.judged size))

namespace FindingsLaw

theorem same (law : FindingsLaw size before)
    (same : SameFindings before after) : FindingsLaw size after where
  mapSize := same.mapSize.trans law.mapSize
  remembers := by
    intro kind other
    rw [same.findings]
    have virgin : after.maps.virgin kind = before.maps.virgin kind := by
      cases kind with
      | bits => exact absurd rfl other
      | tmout => exact same.virginTmout
      | crash => exact same.virginCrash
    rw [virgin]
    exact law.remembers kind other
  unique := by
    intro kind other
    rw [same.findings, ← law.unique kind other]
    cases kind with
    | bits => exact absurd rfl other
    | tmout => exact same.uniqueTmouts
    | crash => exact same.uniqueCrashes
  decided := by
    rw [same.findings]
    exact law.decided

/-- A finding that is noted together with its effects keeps the law. -/
theorem note (law : FindingsLaw size before) (finding : Finding)
    (findings : after.findings = before.findings ++ [finding])
    (mapSize : after.maps.mapSize = before.maps.mapSize)
    (virgin : ∀ kind, kind ≠ .bits → after.maps.virgin kind =
      if finding.kind = kind ∧ finding.belowLimit = true then
        clearSeen size (hitOrNot size (finding.judged size))
          (before.maps.virgin kind)
      else before.maps.virgin kind)
    (unique : ∀ kind, kind ≠ .bits → after.uniqueOf kind =
      before.uniqueOf kind +
        if finding.kind = kind ∧ finding.counted = true then 1 else 0)
    (decided : finding.counted = true ↔ finding.belowLimit = true ∧
      NewStatus size
        ((compared finding.kind before.findings).map (Finding.judged size))
        (finding.judged size)) :
    FindingsLaw size after where
  mapSize := mapSize.trans law.mapSize
  remembers := by
    intro kind other
    rw [virgin kind other, findings, compared_concat]
    split
    · rw [List.map_append]
      exact (law.remembers kind other).compare (finding.judged size)
    · exact law.remembers kind other
  unique := by
    intro kind other
    rw [unique kind other, law.unique kind other, findings, counted_concat]
  decided := by
    intro seen earlier later split
    rw [findings] at split
    rcases history_split split with ⟨rfl, rfl⟩ | ⟨rest, old⟩
    · exact decided
    · exact law.decided seen earlier rest old

theorem refuse (law : FindingsLaw size afl) (kind : VirginMap)
    (classified : Bool) : FindingsLaw size (afl.refuse kind classified) := by
  refine law.note ⟨kind, false, afl.maps.traceBits, classified, false⟩
    rfl rfl ?_ ?_ ?_
  · intro other _
    simp only [Bool.false_eq_true, and_false, if_false]
    rfl
  · intro other _
    rw [FuzzState.refuse, uniqueOf_noteFinding]
    simp only [Bool.false_eq_true, and_false, if_false, Nat.add_zero]
  · simp only [Bool.false_eq_true, false_and]

end FindingsLaw

theorem uniqueOf_countUnique (afl : FuzzState) {other : VirginMap}
    (proper : other ≠ .bits) :
    (afl.countUnique kind).uniqueOf other =
      afl.uniqueOf other + if kind = other then 1 else 0 := by
  cases other with
  | bits => exact absurd rfl proper
  | tmout => cases kind <;> rfl
  | crash => cases kind <;> rfl

@[simp] theorem maps_countUnique (afl : FuzzState) (kind : VirginMap) :
    (afl.countUnique kind).maps = afl.maps := by
  cases kind <;> rfl

@[simp] theorem findings_countUnique (afl : FuzzState) (kind : VirginMap) :
    (afl.countUnique kind).findings = afl.findings := by
  cases kind <;> rfl

/-- The trace that `judge` compares, and with which virgin map. -/
theorem compare_simplified (campaign : Campaign) (afl : FuzzState)
    (kind : VirginMap) (classified : Bool) (held : Buffer)
    (isHeld : held = if classified then afl.maps.traceBits
      else bucketed afl.maps.mapSize afl.maps.traceBits) :
    let bucketed := if classified then afl else afl.classifyTrace campaign
    let compared := (bucketed.simplify campaign).compareTrace campaign kind
    compared.1 = newBitsVerdict afl.maps.mapSize
        (hitOrNot afl.maps.mapSize held) (afl.maps.virgin kind) ∧
      compared.2.maps.mapSize = afl.maps.mapSize ∧
      (∀ other, compared.2.maps.virgin other =
        if kind = other then
          clearSeen afl.maps.mapSize (hitOrNot afl.maps.mapSize held)
            (afl.maps.virgin other)
        else afl.maps.virgin other) ∧
      compared.2.findings = afl.findings ∧
      ∀ other, compared.2.uniqueOf other = afl.uniqueOf other := by
  intro bucketed compared
  have bucketedMaps : bucketed.maps =
      { afl.maps with
        traceBits := if classified then afl.maps.traceBits
          else AFLPlusPlus.bucketed afl.maps.mapSize afl.maps.traceBits } := by
    cases classified with
    | true => rfl
    | false => exact classifyCounts_eq campaign.variant.flavour afl.maps
  have simplified : (bucketed.simplify campaign).maps =
      { afl.maps with traceBits := hitOrNot afl.maps.mapSize held } := by
    change simplifyTrace campaign.variant.flavour bucketed.maps = _
    rw [bucketedMaps, simplifyTrace_eq, isHeld]
  have maps : compared.2.maps =
      (hasNewBits campaign.variant.flavour
        { afl.maps with traceBits := hitOrNot afl.maps.mapSize held }
        kind).2 := by
    rw [← simplified]
    rfl
  refine ⟨?_, ?_, ?_, ?_, ?_⟩
  · change (hasNewBits campaign.variant.flavour
      (bucketed.simplify campaign).maps kind).1 = _
    rw [simplified, hasNewBits_ret, virgin_traceBits]
  · rw [maps, hasNewBits_mapSize]
  · intro other
    rw [maps, hasNewBits_state, virgin_bitmapChanged]
    cases kind <;> cases other <;> rfl
  · cases classified <;> rfl
  · intro other
    cases classified <;> cases other <;> rfl

namespace FindingsLaw

theorem judge (law : FindingsLaw size afl)
    (instrumented : campaign.nonInstrumentedMode = false) (proper : kind ≠ .bits)
    (classified : Bool) :
    FindingsLaw size (afl.judge campaign kind classified).2 := by
  obtain ⟨verdict, mapSize, virgin, findings, unique⟩ :=
    compare_simplified campaign afl kind classified _ rfl
  unfold FuzzState.judge
  simp only [instrumented, Bool.false_eq_true, if_false]
  generalize ((if classified = true then afl else
    afl.classifyTrace campaign).simplify campaign).compareTrace campaign kind =
      result at *
  rw [law.mapSize] at verdict virgin
  have decided := (law.remembers kind proper).newBits
    (if classified then afl.maps.traceBits
      else bucketed size afl.maps.traceBits)
  rw [← verdict] at decided
  by_cases fresh : result.1 ≠ 0
  · rw [decide_eq_true fresh, if_pos rfl]
    refine law.note ⟨kind, true, afl.maps.traceBits, classified, true⟩
      ?_ ?_ ?_ ?_ ?_
    · change (result.2.countUnique kind).findings ++ _ = _
      rw [findings_countUnique, findings]
    · change (result.2.countUnique kind).maps.mapSize = _
      rw [maps_countUnique, mapSize]
    · intro other _
      change (result.2.countUnique kind).maps.virgin other = _
      rw [maps_countUnique, virgin other]
      simp only [and_true]
      rfl
    · intro other proper
      rw [uniqueOf_noteFinding, uniqueOf_countUnique _ proper, unique other]
      simp only [and_true]
    · exact iff_of_true rfl ⟨rfl, decided.mp fresh⟩
  · rw [decide_eq_false fresh, if_neg Bool.false_ne_true]
    refine law.note ⟨kind, true, afl.maps.traceBits, classified, false⟩
      ?_ mapSize ?_ ?_ ?_
    · change result.2.findings ++ _ = _
      rw [findings]
    · intro other _
      change result.2.maps.virgin other = _
      rw [virgin other]
      simp only [and_true]
      rfl
    · intro other proper
      rw [uniqueOf_noteFinding, unique other]
      simp only [Bool.false_eq_true, and_false, if_false, Nat.add_zero]
    · exact iff_of_false Bool.false_ne_true fun both =>
        fresh (decided.mpr both.2)

end FindingsLaw

/-- A trace that is still to be bucketed is raw, and one of those that are
`expected`. -/
def Pending (campaign : Campaign) (expected : Buffer → Prop)
    (afl : FuzzState) (classified : Bool) : Prop :=
  campaign.nonInstrumentedMode = false → classified = false →
    afl.bucketings = 0 ∧ expected afl.maps.traceBits

/-- What holds between two calls of `save_if_interesting`. -/
structure Lawful (campaign : Campaign) (size : Nat)
    (expected : Buffer → Prop) (afl : FuzzState) : Prop where
  law : campaign.nonInstrumentedMode = false → FindingsLaw size afl
  raw : campaign.nonInstrumentedMode = false →
    ∀ finding ∈ afl.findings, finding.classified = false → expected finding.held
  disciplined : Disciplined afl

theorem Pending.of_classified (campaign : Campaign)
    (expected : Buffer → Prop) (afl : FuzzState) :
    Pending campaign expected afl true :=
  fun _ isFalse => absurd isFalse (by decide)

theorem Calm.updated (before : FuzzState)
    (same : SameFindings before after)
    (bucketings : after.bucketings = before.bucketings)
    (uses : after.uses = before.uses) : Calm before after :=
  ⟨same, fun holds => ⟨bucketings ▸ holds.trace, uses ▸ holds.uses⟩⟩

theorem Disciplined.countIf (holds : Disciplined afl) (unique : Bool)
    (kind : VirginMap) :
    Disciplined (if unique then afl.countUnique kind else afl) := by
  cases unique with
  | false => exact holds
  | true => cases kind <;> exact ⟨holds.trace, holds.uses⟩

theorem Disciplined.noteFinding (holds : Disciplined afl)
    (finding : Finding) : Disciplined (afl.noteFinding finding) :=
  ⟨holds.trace, holds.uses⟩

theorem findings_countIf (afl : FuzzState) (unique : Bool)
    (kind : VirginMap) :
    (if unique then afl.countUnique kind else afl).findings = afl.findings := by
  cases unique with
  | false => rfl
  | true => exact findings_countUnique afl kind

theorem Disciplined.judge (holds : Disciplined afl)
    (pending : Pending campaign expected afl classified) (kind : VirginMap) :
    Disciplined (afl.judge campaign kind classified).2 := by
  unfold FuzzState.judge
  by_cases instrumented : campaign.nonInstrumentedMode = false
  · simp only [instrumented, Bool.false_eq_true, if_false]
    have bucketed : Disciplined
        (if classified then afl else afl.classifyTrace campaign) := by
      cases classified with
      | true => exact holds
      | false =>
          exact holds.classifyTrace (pending instrumented rfl).1 campaign
    have compared := (bucketed.simplify campaign).compareTrace campaign kind
    exact (compared.countIf _ kind).noteFinding _
  · rw [Bool.not_eq_false] at instrumented
    simp only [instrumented, if_true]
    exact (holds.countIf _ kind).noteFinding _

theorem judge_findings (campaign : Campaign) (afl : FuzzState)
    (kind : VirginMap) (classified : Bool) :
    ∃ unique, (afl.judge campaign kind classified).2.findings =
      afl.findings ++ [⟨kind, true, afl.maps.traceBits, classified, unique⟩] := by
  refine ⟨(afl.judge campaign kind classified).1, ?_⟩
  unfold FuzzState.judge noteFinding
  dsimp only
  rw [findings_countIf]
  cases campaign.nonInstrumentedMode with
  | true => rfl
  | false => cases classified <;> rfl

namespace Lawful

theorem calm (holds : Lawful campaign size expected before)
    (calm : Calm before after) : Lawful campaign size expected after where
  law := fun instrumented => (holds.law instrumented).same calm.same
  raw := by
    rw [calm.same.findings]
    exact holds.raw
  disciplined := calm.disciplined holds.disciplined

section

variable (holds : Lawful campaign size expected afl)
include holds

/-- The trace of a new finding is expected too. -/
theorem raw_concat (pending : Pending campaign expected afl classified) (kind : VirginMap)
    (belowLimit unique : Bool) (instrumented : campaign.nonInstrumentedMode = false) :
    ∀ finding ∈ afl.findings ++
        [⟨kind, belowLimit, afl.maps.traceBits, classified, unique⟩],
      finding.classified = false → expected finding.held := by
  intro finding member unclassified
  rcases List.mem_append.mp member with old | new
  · exact holds.raw instrumented finding old unclassified
  · rw [List.mem_singleton.mp new] at unclassified ⊢
    exact (pending instrumented unclassified).2

theorem judge (proper : kind ≠ .bits)
    (pending : Pending campaign expected afl classified) :
    Lawful campaign size expected (afl.judge campaign kind classified).2 where
  law := fun instrumented =>
    (holds.law instrumented).judge instrumented proper classified
  raw := by
    intro instrumented
    obtain ⟨unique, findings⟩ := judge_findings campaign afl kind classified
    rw [findings]
    exact holds.raw_concat pending kind true unique instrumented
  disciplined := holds.disciplined.judge pending kind

theorem refuse (kind : VirginMap) (pending : Pending campaign expected afl classified) :
    Lawful campaign size expected (afl.refuse kind classified) where
  law := fun instrumented => (holds.law instrumented).refuse kind classified
  raw := holds.raw_concat pending kind false false
  disciplined := holds.disciplined.noteFinding _

theorem keepAsCrash (pending : Pending campaign expected afl classified) :
    Lawful campaign size expected (afl.keepAsCrash campaign classified) := by
  have total : Lawful campaign size expected
      { afl with totalCrashes := afl.totalCrashes + 1 } :=
    holds.calm (.updated afl ⟨rfl, rfl, rfl, rfl, rfl, rfl⟩ rfl rfl)
  unfold FuzzState.keepAsCrash
  dsimp only
  split
  · exact total.refuse .crash pending
  · exact total.judge (by decide) pending

theorem saveTmout (pending : Pending campaign expected afl classified) :
    Lawful campaign size expected (afl.saveTmout campaign classified) := by
  have total : Lawful campaign size expected
      { afl with totalTmouts := afl.totalTmouts + 1 } :=
    holds.calm (.updated afl ⟨rfl, rfl, rfl, rfl, rfl, rfl⟩ rfl rfl)
  unfold FuzzState.saveTmout
  dsimp only
  split
  · exact total.refuse .tmout pending
  · have judged := total.judge (by decide : VirginMap.tmout ≠ .bits) pending
    have again := judged.calm (classifyRun_calm campaign _)
    split
    · exact judged
    · split
      · split
        · -- The trace of the second run has been bucketed by now.
          apply again.keepAsCrash
          intro instrumented unclassified
          rw [instrumented, Bool.not_false, Bool.or_true] at unclassified
          exact absurd unclassified (by decide)
        · split
          · exact again
          · exact again.calm (.updated _ ⟨rfl, rfl, rfl, rfl, rfl, rfl⟩ rfl rfl)
      · exact judged.calm (.updated _ ⟨rfl, rfl, rfl, rfl, rfl, rfl⟩ rfl rfl)

theorem saveFault {fault : RunResult} (pending : fault = .tmout ∨ fault = .crash →
      Pending campaign expected afl classified)
    (saved : afl.saveFault campaign classified fault = some after) :
    Lawful campaign size expected after := by
  cases fault with
  | tmout =>
      cases saved
      exact holds.saveTmout (pending (.inl rfl))
  | crash =>
      cases saved
      exact holds.keepAsCrash (pending (.inr rfl))
  | error => cases saved
  | ok =>
      cases saved
      exact holds
  | noinst =>
      cases saved
      exact holds
  | nobits =>
      cases saved
      exact holds

end

end Lawful

theorem updateFrequency_calm (campaign : Campaign) (afl : FuzzState) :
    Calm afl (afl.updateFrequency campaign).2 ∧
      (afl.updateFrequency campaign).2.bucketings = afl.bucketings ∧
      (afl.updateFrequency campaign).2.maps = afl.maps := by
  unfold updateFrequency
  split
  · have hashed := hashTrace_calm campaign afl
    exact ⟨hashed.trans (.updated _ ⟨rfl, rfl, rfl, rfl, rfl, rfl⟩ rfl rfl), rfl, rfl⟩
  · exact ⟨.refl afl, rfl, rfl⟩

theorem compareUnclassified_calm (raw : before.bucketings = 0)
    {ret : Nat}
    (result : before.compareUnclassified campaign .bits = some (ret, after)) :
    Calm before after := by
  have skimmed : Calm before
      (before.use .compared (before.bucketings + 1)) :=
    ⟨.use before _ _, fun holds => holds.use .compared (by omega)⟩
  unfold compareUnclassified at result
  split at result
  · cases result
  · cases result
    exact skimmed
  · cases result
    refine skimmed.trans (Calm.trans ?_ (compareTrace_calm campaign _))
    exact ⟨.classifyTrace campaign _, fun holds =>
      holds.classifyTrace raw campaign⟩

theorem keepInteresting_calm {len newBits : Nat} {cksum : BitVec 64}
    (kept : before.keepInteresting campaign len newBits cksum =
      some after) : Calm before after := by
  unfold keepInteresting at kept
  extract_lets slot queued hashed calibrated at kept
  have start : Calm before queued :=
    .updated before ⟨rfl, rfl, rfl, rfl, rfl, rfl⟩ rfl rfl
  have hash : Calm queued hashed.2 := hashTrace_calm campaign queued
  have calibration : Calm hashed.2 calibrated.2.1 :=
    calibrateCase_calm campaign hashed.2 _
  have run := (start.trans hash).trans calibration
  split at kept
  · cases kept
  · rw [← Option.some.inj kept]
    exact run.trans (.updated _ ⟨rfl, rfl, rfl, rfl, rfl, rfl⟩ rfl rfl)

/-- The trace of a crash or a timeout is expected if it is still to be bucketed
in its case of the switch, because its fault is not the one that the campaign
collects. -/
def Expects (campaign : Campaign) (expected : Buffer → Prop)
    (handed : Handed) : Prop :=
  handed.run.fault = .tmout ∨ handed.run.fault = .crash →
    handed.run.fault ≠ campaign.crashMode → expected handed.run.trace

theorem Lawful.handle (holds : Lawful campaign size expected before)
    {handed : Handed} (expects : Expects campaign expected handed)
    (handled : before.handle campaign handed = some after) :
    Lawful campaign size expected after := by
  obtain ⟨⟨keeping, saved⟩, call, rfl⟩ := Option.map_eq_some_iff.mp handled
  have received := holds.calm
    ⟨.receive before handed.run.trace, fun disciplined =>
      disciplined.receive handed.run.trace⟩
  unfold saveIfInteresting at call
  split at call
  · cases call
    exact received
  · obtain ⟨calm, bucketings, maps⟩ :=
      updateFrequency_calm campaign (before.receive handed.run.trace)
    have updated := received.calm calm
    dsimp only at call
    split at call
    · split at call
      · cases call
      · rename_i quiet
        cases call
        exact (updated.calm (compareUnclassified_calm bucketings quiet)).calm
          (.updated _ ⟨rfl, rfl, rfl, rfl, rfl, rfl⟩ rfl rfl)
      · rename_i fresh
        obtain ⟨kept, keeps, call⟩ := Option.bind_eq_some_iff.mp call
        obtain ⟨final, saves, call⟩ := Option.bind_eq_some_iff.mp call
        cases call
        have compared := updated.calm
          (compareUnclassified_calm bucketings fresh)
        exact (compared.calm (keepInteresting_calm keeps)).saveFault
          (fun _ => .of_classified campaign expected kept) saves
    · rename_i different
      obtain ⟨final, saves, call⟩ := Option.bind_eq_some_iff.mp call
      cases call
      apply updated.saveFault _ saves
      intro finding instrumented _
      refine ⟨bucketings, ?_⟩
      rw [maps]
      exact expects finding different

theorem Lawful.handleAll {executions : List Handed}
    (holds : Lawful campaign size expected before)
    (expects : ∀ handed ∈ executions, Expects campaign expected handed)
    (handled : FuzzState.handleAll campaign executions before = some after) :
    Lawful campaign size expected after := by
  induction executions generalizing before with
  | nil =>
      cases handled
      exact holds
  | cons handed later induction =>
      obtain ⟨next, here, rest⟩ := Option.bind_eq_some_iff.mp handled
      have first := holds.handle (expects handed List.mem_cons_self) here
      exact induction first (fun other member =>
        expects other (List.mem_cons_of_mem handed member)) rest

/-- The state in which fuzzing starts: every bit of the two virgin maps is set,
and nothing has been found. -/
structure Started (size : Nat) (afl : FuzzState) : Prop where
  mapSize : afl.maps.mapSize = size
  virginTmout : ∀ address < size, afl.maps.virginTmout address = 0xff#8
  virginCrash : ∀ address < size, afl.maps.virginCrash address = 0xff#8
  uniqueTmouts : afl.uniqueTmouts = 0
  uniqueCrashes : afl.uniqueCrashes = 0
  bucketings : afl.bucketings = 0
  uses : afl.uses = []
  findings : afl.findings = []

theorem Started.lawful (started : Started size afl) (campaign : Campaign)
    (expected : Buffer → Prop) : Lawful campaign size expected afl where
  law := fun _ =>
    { mapSize := started.mapSize
      remembers := by
        intro kind proper
        rw [started.findings]
        cases kind with
        | bits => exact absurd rfl proper
        | tmout => exact .start size _ started.virginTmout
        | crash => exact .start size _ started.virginCrash
      unique := by
        intro kind proper
        rw [started.findings]
        cases kind with
        | bits => exact absurd rfl proper
        | tmout => exact started.uniqueTmouts
        | crash => exact started.uniqueCrashes
      decided := by
        intro seen finding later split
        rw [started.findings] at split
        exact absurd split (by simp) }
  raw := by
    intro _ finding member
    rw [started.findings] at member
    exact absurd member List.not_mem_nil
  disciplined := by
    refine ⟨by rw [started.bucketings]; exact Nat.zero_le 1, ?_⟩
    intro use member
    rw [started.uses] at member
    exact absurd member List.not_mem_nil

/-- No hit count is one of those that `count_class_lookup8` maps to 0: its
initialiser leaves out 64 to 127 and 192 to 255. -/
def KeepsHits (size : Nat) (trace : Buffer) : Prop :=
  ∀ address < size, (trace address).toNat < 64 ∨
    128 ≤ (trace address).toNat ∧ (trace address).toNat < 192

/-- Crashes and timeouts are deduplicated by the statuses, hit or not hit, of
the bytes of `trace_bits` where they are held against their KEEP limit, and no
trace has been bucketed twice when it was compared, hashed or simplified. -/
structure Deduplicated (campaign : Campaign) (size : Nat) (afl : FuzzState) :
    Prop where
  decided : campaign.nonInstrumentedMode = false →
    ∀ seen finding later, afl.findings = seen ++ finding :: later →
      (finding.counted = true ↔ finding.belowLimit = true ∧
        NewStatus size ((compared finding.kind seen).map Finding.held)
          finding.held)
  uniqueCrashes : campaign.nonInstrumentedMode = false →
    afl.uniqueCrashes = counted .crash afl.findings
  uniqueTmouts : campaign.nonInstrumentedMode = false →
    afl.uniqueTmouts = counted .tmout afl.findings
  once : ∀ use ∈ afl.uses, use.2 ≤ 1

theorem countClassLookup8_eq_zero {count : BitVec 8}
    (keeps : count.toNat < 64 ∨ 128 ≤ count.toNat ∧ count.toNat < 192) :
    countClassLookup8 count = 0#8 ↔ count = 0#8 := by
  constructor
  · intro zero
    apply BitVec.eq_of_toNat_eq
    by_contra nonzero
    change count.toNat ≠ 0 at nonzero
    unfold countClassLookup8 at zero
    dsimp only at zero
    rw [if_neg nonzero] at zero
    repeat' split at zero
    all_goals first
      | exact absurd zero (by decide)
      | omega
  · intro zero
    rw [zero]
    exact countClassLookup8_zero

theorem judged_eq_zero {finding : Finding}
    (keeps : finding.classified = false → KeepsHits size finding.held)
    {address : Nat} (inside : address < size) :
    finding.judged size address = 0#8 ↔ finding.held address = 0#8 := by
  unfold Finding.judged
  cases classified : finding.classified with
  | true => rfl
  | false =>
      rw [if_neg Bool.false_ne_true, bucketed, if_pos inside]
      exact countClassLookup8_eq_zero (keeps classified address inside)

/-- Over every sequence of executions whose traces keep their hits when they
are bucketed, crashes and timeouts are deduplicated. -/
theorem handleAll_deduplicated (campaign : Campaign) {size : Nat}
    {start after : FuzzState} (started : Started size start)
    {executions : List Handed}
    (keeps : ∀ handed ∈ executions, Expects campaign (KeepsHits size) handed)
    (handled : handleAll campaign executions start = some after) :
    Deduplicated campaign size after := by
  have lawful := (started.lawful campaign (KeepsHits size)).handleAll keeps
    handled
  refine ⟨?_, ?_, ?_, lawful.disciplined.uses⟩
  · intro instrumented seen finding later split
    have raw : ∀ earlier ∈ seen ++ finding :: later,
        earlier.classified = false → KeepsHits size earlier.held := by
      rw [← split]
      exact lawful.raw instrumented
    have sameStatus : ∀ earlier ∈ seen ++ finding :: later,
        ∀ address < size, (earlier.judged size address = 0#8 ↔
          earlier.held address = 0#8) := fun earlier member _ inside =>
      judged_eq_zero (raw earlier member) inside
    rw [(lawful.law instrumented).decided seen finding later split]
    apply and_congr_right
    intro _
    unfold NewStatus
    apply exists_congr
    intro address
    apply and_congr_right
    intro inside
    simp only [List.forall_mem_map]
    apply forall₂_congr
    intro earlier member
    have old := List.mem_of_mem_filter member
    rw [sameStatus earlier (List.mem_append_left _ old) address inside,
      ne_eq, sameStatus finding
        (List.mem_append_right _ List.mem_cons_self) address inside]
  · intro instrumented
    exact (lawful.law instrumented).unique .crash (by decide)
  · intro instrumented
    exact (lawful.law instrumented).unique .tmout (by decide)

/-- A campaign without special modes, whose target does nothing when the fuzzer
runs it again. -/
def plainCampaign : Campaign where
  variant := .words64
  crashMode := .ok
  nonInstrumentedMode := false
  schedule := .explore
  cmplogMode := false
  aflCalFast := false
  execTmout := 1000
  hangTmout := 1000
  hash64 := fun _ _ => 0#64
  target := fun _ => ⟨.ok, fun _ => 0#8, false⟩

/-- The start of a campaign with a map of 64 bytes. -/
def plainStart : FuzzState where
  maps :=
    { mapSize := 64
      aligned := Nat.dvd_refl 64
      traceBits := fun _ => 0#8
      virginBits := fun _ => 0xff#8
      virginTmout := fun _ => 0xff#8
      virginCrash := fun _ => 0xff#8
      bitmapChanged := false }
  firstTrace := fun _ => 0#8
  varBytes := fun _ => 0#8
  nFuzz := fun _ => 0#32
  queue := []
  queuedWithCov := 0
  queuedVariable := 0
  totalCrashes := 0
  totalTmouts := 0
  uniqueCrashes := 0
  uniqueTmouts := 0
  uniqueHangs := 0
  execs := 0
  bucketings := 0
  uses := []
  findings := []

theorem plainStart_started : Started 64 plainStart :=
  ⟨rfl, fun _ _ => rfl, fun _ _ => rfl, rfl, rfl, rfl, rfl, rfl⟩

/-- A crash that hits byte 0 so many times, and nothing else. -/
def crashHitting (count : BitVec 8) : Handed :=
  ⟨1, .crash, fun address => if address = 0 then count else 0#8, false⟩

theorem handle_crash (afl : FuzzState) (count : BitVec 8) :
    afl.handle plainCampaign (crashHitting count) =
      some ((afl.receive (crashHitting count).run.trace).keepAsCrash
        plainCampaign false) := rfl

theorem handleAll_deduplicated_oneCrash :
    Deduplicated plainCampaign 64
      ((plainStart.receive (crashHitting 1#8).run.trace).keepAsCrash
        plainCampaign false) := by
  have handled : handleAll plainCampaign [crashHitting 1#8] plainStart =
      some ((plainStart.receive (crashHitting 1#8).run.trace).keepAsCrash
        plainCampaign false) := rfl
  refine handleAll_deduplicated plainCampaign plainStart_started ?_ handled
  intro handed member _ _ address _
  rw [List.mem_singleton.mp member]
  refine .inl ?_
  change (if address = 0 then 1#8 else 0#8).toNat < 64
  split <;> decide

theorem keepAsCrash_findings (campaign : Campaign) (afl : FuzzState)
    (below : afl.uniqueCrashes < keepUniqueCrash) (classified : Bool) :
    ∃ unique, (afl.keepAsCrash campaign classified).findings =
      afl.findings ++ [⟨.crash, true, afl.maps.traceBits, classified, unique⟩] := by
  unfold keepAsCrash
  dsimp only
  rw [if_neg (Nat.not_le.mpr below)]
  exact judge_findings campaign _ .crash classified

/-- Byte 0 is hit for the first time by the second crash, 64 times, but counts
as not hit once it is bucketed. -/
theorem handleAll_deduplicated_fails_for_sixtyFourHits :
    ¬∀ after, handleAll plainCampaign
        [crashHitting 0#8, crashHitting 64#8] plainStart = some after →
      Deduplicated plainCampaign 64 after := by
  intro claimed
  have anyTrace : ∀ handed, Expects plainCampaign (fun _ => True) handed :=
    fun _ _ _ => trivial
  have started := plainStart_started.lawful plainCampaign fun _ => True
  obtain ⟨first, handledFirst⟩ : ∃ first,
      plainStart.handle plainCampaign (crashHitting 0#8) = some first :=
    ⟨_, handle_crash plainStart 0#8⟩
  have firstLawful : Lawful plainCampaign 64 (fun _ => True) first :=
    started.handle (anyTrace _) handledFirst
  obtain ⟨unique, firstFindings⟩ : ∃ unique, first.findings =
      [⟨.crash, true, (crashHitting 0#8).run.trace, false, unique⟩] := by
    rw [handle_crash] at handledFirst
    rw [← Option.some.inj handledFirst]
    exact keepAsCrash_findings plainCampaign _ (Nat.zero_lt_succ 9999) false
  have below : first.uniqueCrashes < keepUniqueCrash := by
    have counts : first.uniqueCrashes = counted .crash first.findings :=
      (firstLawful.law rfl).unique .crash (by decide)
    rw [counts]
    refine Nat.lt_of_le_of_lt List.countP_le_length ?_
    rw [firstFindings]
    exact (by decide : 1 < keepUniqueCrash)
  obtain ⟨again, split⟩ := keepAsCrash_findings plainCampaign
    (first.receive (crashHitting 64#8).run.trace) below false
  have handledSecond := handle_crash first 64#8
  generalize (first.receive (crashHitting 64#8).run.trace).keepAsCrash
    plainCampaign false = second at split handledSecond
  have secondLawful := firstLawful.handle (anyTrace _) handledSecond
  have handled : handleAll plainCampaign
      [crashHitting 0#8, crashHitting 64#8] plainStart = some second := by
    simp only [handleAll, handledFirst, handledSecond, Option.bind_eq_bind,
      Option.bind_some]
  have byClaim := (claimed second handled).decided rfl _ _ _ split
  have byLaw := (secondLawful.law rfl).decided _ _ _ split
  rw [show (first.receive (crashHitting 64#8).run.trace).findings = _ from
    firstFindings] at byClaim byLaw
  have newInTrace : again = true := by
    refine byClaim.mpr ⟨rfl, 0, by decide, ?_⟩
    intro earlier member
    rw [List.mem_singleton.mp member]
    exact iff_of_true rfl (by decide : ¬64#8 = 0#8)
  obtain ⟨_, address, inside, differs⟩ := byLaw.mp newInTrace
  have earlierZero : bucketed 64 (crashHitting 0#8).run.trace address = 0#8 := by
    rw [bucketed, if_pos inside]
    change countClassLookup8 (if address = 0 then 0#8 else 0#8) = 0#8
    split <;> decide
  have laterZero : bucketed 64 (crashHitting 64#8).run.trace address = 0#8 := by
    rw [bucketed, if_pos inside]
    change countClassLookup8 (if address = 0 then 64#8 else 0#8) = 0#8
    split <;> decide
  exact (differs _ (List.mem_singleton.mpr rfl)).mp earlierZero laterZero

end FuzzState

end AFLPlusPlus

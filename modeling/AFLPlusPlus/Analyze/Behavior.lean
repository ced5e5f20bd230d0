import AFLPlusPlus.Coverage.Classify
import AFLPlusPlus.Queue.DryRun
import AFLPlusPlus.Support.Stores

/-!
# The bytes of an input by their effect

`afl-analyze` changes each byte of an input in four ways and tells from the
checksums of the traces what kind of byte it is.  Checksums have 64 bits, but
those of changed inputs are handed on in 32 bits.
-/

namespace AFLPlusPlus.Analyze

open Buffer

def respNone : BitVec 8 := 0x00#8

def respMinor : BitVec 8 := 0x01#8

def respVariable : BitVec 8 := 0x02#8

def respFixed : BitVec 8 := 0x03#8

/-- What a run of the target leaves.  `last_run_timed_out` is set where the
result is a timeout. -/
structure TargetRun where
  ret : RunResult
  traceBits : Buffer

structure Settings where
  edgesOnly : Bool
  skipBinCheck : Bool
  mapSize : Nat
  hash64 : List (BitVec 8) → BitVec 64
  /-- the target, which is deterministic -/
  target : List (BitVec 8) → TargetRun

/-- The messages that end the program. -/
inductive Exit where
  | errorInForkserver
  | notInstrumented
  | failedToRun
  | timesOut
  | noInstrumentation
  deriving DecidableEq

/-- The variables of `analyze` and the global ones it uses. -/
structure Analysis where
  inData : List (BitVec 8)
  origCksum : BitVec 64
  totalExecs : BitVec 32
  execHangs : BitVec 32
  boringLen : BitVec 32
  prevXff : BitVec 32
  prevX01 : BitVec 32
  prevS10 : BitVec 32
  prevA10 : BitVec 32
  bData : List (BitVec 8)
  seqByte : BitVec 8

namespace Settings

variable (settings : Settings)

/-- `classify_counts`, with the bytes of the map. -/
def classifyCounts (traceBits : Buffer) : List (BitVec 8) :=
  (traceBits.loadBytes 0 settings.mapSize).map fun mem =>
    if settings.edgesOnly then if mem ≠ 0#8 then 1#8 else mem
    else countClassLookup8 mem

/-- The checksum of a run, before it is returned. -/
def cksum (run : TargetRun) : BitVec 64 :=
  let cksum := settings.hash64 (settings.classifyCounts run.traceBits)
  if run.ret = .crash then cksum ^^^ 0xffffffff#64 else cksum

/-- `anything_set`, on the whole words of the map. -/
def anythingSet (run : TargetRun) : Bool :=
  let traceBits := settings.classifyCounts run.traceBits
  (traceBits.take (4 * (settings.mapSize >>> 2))).any (· ≠ 0#8)

end Settings

namespace Analysis

variable (settings : Settings)

/-- `analyze_run_target` on the input of the moment. -/
def analyzeRunTarget (firstRun : Bool) (analysis : Analysis) :
    Except Exit (BitVec 32 × Analysis) :=
  let run := settings.target analysis.inData
  let counted := { analysis with totalExecs := analysis.totalExecs + 1#32 }
  match run.ret with
  | .error => .error .errorInForkserver
  | .noinst => .error .notInstrumented
  | .nobits => .error .failedToRun
  | .tmout => .ok (0#32, { counted with execHangs := analysis.execHangs + 1#32 })
  | .ok | .crash =>
      let cksum := settings.cksum run
      -- the return type has 32 bits, `orig_cksum` has 64
      .ok (cksum.setWidth 32,
        if firstRun then { counted with origCksum := cksum } else counted)

/-- An assignment to `in_data[i]`. -/
def change (i : Nat) (assign : BitVec 8 → BitVec 8) (analysis : Analysis) :
    Analysis :=
  { analysis with inData := analysis.inData.modify i assign }

def response (origCksum : BitVec 64) (xorFf xor01 sub10 add10 : BitVec 32) :
    BitVec 8 :=
  let xffOrig := decide (xorFf.setWidth 64 = origCksum)
  let x01Orig := decide (xor01.setWidth 64 = origCksum)
  let s10Orig := decide (sub10.setWidth 64 = origCksum)
  let a10Orig := decide (add10.setWidth 64 = origCksum)
  if xffOrig && x01Orig && s10Orig && a10Orig then respNone
  else if xffOrig || x01Orig || s10Orig || a10Orig then respMinor
  else if xorFf = xor01 ∧ xorFf = sub10 ∧ xorFf = add10 then respFixed
  else respVariable

/-- What `analyze` makes of the checksums of byte `i`. -/
def record (i : Nat) (xorFf xor01 sub10 add10 : BitVec 32)
    (analysis : Analysis) : Analysis :=
  let class_ := response analysis.origCksum xorFf xor01 sub10 add10
  let seqByte :=
    if analysis.prevXff ≠ xorFf ∧ analysis.prevX01 ≠ xor01 ∧
        analysis.prevS10 ≠ sub10 ∧ analysis.prevA10 ≠ add10 then
      analysis.seqByte ^^^ 0x80#8
    else analysis.seqByte
  { analysis with
    bData := analysis.bData.set i (class_ ||| seqByte)
    boringLen :=
      if class_ = respNone ∨ class_ = respMinor then analysis.boringLen + 1#32
      else analysis.boringLen
    seqByte
    prevXff := xorFf
    prevX01 := xor01
    prevS10 := sub10
    prevA10 := add10 }

/-- The loop body of `analyze`. -/
def analyzeByte (i : Nat) (analysis : Analysis) : Except Exit Analysis := do
  let (xorFf, analysis) ←
    (analysis.change i (· ^^^ 0xff#8)).analyzeRunTarget settings false
  let (xor01, analysis) ←
    (analysis.change i (· ^^^ 0xfe#8)).analyzeRunTarget settings false
  let (sub10, analysis) ←
    (analysis.change i fun byte => (byte ^^^ 0x01#8) - 0x10#8).analyzeRunTarget
      settings false
  let (add10, analysis) ←
    (analysis.change i (· + 0x20#8)).analyzeRunTarget settings false
  return (analysis.change i (· - 0x10#8)).record i xorFf xor01 sub10 add10

/-- The local variables of `analyze` get their first values. -/
def begin (analysis : Analysis) : Analysis :=
  { analysis with
    boringLen := 0#32
    prevXff := 0#32
    prevX01 := 0#32
    prevS10 := 0#32
    prevA10 := 0#32
    bData := List.replicate analysis.inData.length 0x00#8 ++ [0xff#8]
    seqByte := 0x00#8 }

/-- `analyze`, up to `dump_hex`. -/
def analyze (analysis : Analysis) : Except Exit Analysis :=
  forRangeM (analyzeByte settings) analysis.inData.length analysis.begin

/-- The global variables when the file is read. -/
def start (inData : List (BitVec 8)) : Analysis where
  inData
  origCksum := 0#64
  totalExecs := 0#32
  execHangs := 0#32
  boringLen := 0#32
  prevXff := 0#32
  prevX01 := 0#32
  prevS10 := 0#32
  prevA10 := 0#32
  bData := []
  seqByte := 0x00#8

end Analysis

/-- The dry run of `main`, and `analyze`. -/
def analyzeFile (settings : Settings) (inData : List (BitVec 8)) :
    Except Exit Analysis := do
  let (_, analysis) ←
    (Analysis.start inData).analyzeRunTarget settings true
  if (settings.target inData).ret = .tmout then .error .timesOut
  else if settings.skipBinCheck = false ∧
      settings.anythingSet (settings.target inData) = false then
    .error .noInstrumentation
  else analysis.analyze settings

section Statement

variable (settings : Settings) (data : List (BitVec 8))

/-- The four altered versions of byte `i`. -/
def alterations (i : Nat) : List (List (BitVec 8)) :=
  [data.modify i (· ^^^ 0xff#8), data.modify i (· ^^^ 0x01#8),
    data.modify i (· - 0x10#8), data.modify i (· + 0x10#8)]

/-- An input ends without timeout, with the trace and the crash status of the
original one. -/
def Keeps (mem : List (BitVec 8)) : Prop :=
  (settings.target mem).ret ≠ .tmout ∧
    ((settings.target mem).ret = .crash ↔ (settings.target data).ret = .crash) ∧
    settings.classifyCounts (settings.target mem).traceBits =
      settings.classifyCounts (settings.target data).traceBits

/-- The class of byte `i`, without the bit that marks the sequence. -/
def classOf (bData : List (BitVec 8)) (i : Nat) : BitVec 8 :=
  bData.getD i 0#8 &&& 0x0f#8

/-- Byte `i` is classified by the behaviour of the target. -/
def ClassifiedRight (bData : List (BitVec 8)) (i : Nat) : Prop :=
  (classOf bData i = respNone ↔ ∀ mem ∈ alterations data i, Keeps settings data mem) ∧
    (classOf bData i = respMinor ↔
      (∃ mem ∈ alterations data i, Keeps settings data mem) ∧
        ¬∀ mem ∈ alterations data i, Keeps settings data mem)

/-- Checksums of runs that do not time out tell traces and crashes apart. -/
def Settings.TellsApart : Prop :=
  ∀ mem other, (settings.target mem).ret ≠ .tmout →
    (settings.target other).ret ≠ .tmout →
    settings.cksum (settings.target mem) = settings.cksum (settings.target other) →
    ((settings.target mem).ret = .crash ↔ (settings.target other).ret = .crash) ∧
      settings.classifyCounts (settings.target mem).traceBits =
        settings.classifyCounts (settings.target other).traceBits

/-- The checksum of an input, with 0 for a timeout. -/
def Settings.value (mem : List (BitVec 8)) : BitVec 64 :=
  if (settings.target mem).ret = .tmout then 0#64
  else settings.cksum (settings.target mem)

/-- The low halves of the checksums are equal. -/
def Resembles (mem : List (BitVec 8)) : Prop :=
  (settings.value mem).setWidth 32 = (settings.value data).setWidth 32

/-- The condition on byte `i`.  Where the checksum of the original input fits 32
bits, the low halves do not feign behaviour that is kept; elsewhere no
alteration keeps the behaviour. -/
def Separates (i : Nat) : Prop :=
  if (settings.value data).toNat < 2 ^ 32 then
    ((∀ mem ∈ alterations data i, Resembles settings data mem) →
        ∀ mem ∈ alterations data i, Keeps settings data mem) ∧
      ((∃ mem ∈ alterations data i, Resembles settings data mem) →
        ∃ mem ∈ alterations data i, Keeps settings data mem)
  else ∀ mem ∈ alterations data i, ¬Keeps settings data mem

end Statement

variable {analysis next : Analysis} {i : Nat}

section Runs

variable {settings : Settings} {data : List (BitVec 8)}

/-- A run that returns gives the low half of the checksum. -/
theorem analyzeRunTarget_returns {firstRun : Bool} {cksum : BitVec 32}
    (returns : analysis.analyzeRunTarget settings firstRun = .ok (cksum, next)) :
    cksum = (settings.value analysis.inData).setWidth 32 ∧
      next.inData = analysis.inData ∧ next.bData = analysis.bData ∧
      next.seqByte = analysis.seqByte ∧
      next.origCksum =
        if firstRun = true ∧ (settings.target analysis.inData).ret ≠ .tmout then
          settings.value analysis.inData
        else analysis.origCksum := by
  unfold Analysis.analyzeRunTarget at returns
  unfold Settings.value
  cases ended : (settings.target analysis.inData).ret <;>
    simp only [ended] at returns
  case error | noinst | nobits => cases returns
  case tmout =>
    cases returns
    simp
  case ok | crash =>
    cases returns
    cases firstRun <;> simp

/-- The class that the low halves of the checksums give. -/
def givenClass (settings : Settings) (data : List (BitVec 8))
    (origCksum : BitVec 64) (i : Nat) : BitVec 8 :=
  let low mem := (settings.value mem).setWidth 32
  Analysis.response origCksum (low (data.modify i (· ^^^ 0xff#8)))
    (low (data.modify i (· ^^^ 0x01#8))) (low (data.modify i (· - 0x10#8)))
    (low (data.modify i (· + 0x10#8)))

private theorem undone_xorFf (byte : BitVec 8) :
    byte ^^^ 0xff#8 ^^^ 0xfe#8 = byte ^^^ 0x01#8 := by
  rw [BitVec.xor_assoc]
  rfl

private theorem undone_xor01 (byte : BitVec 8) :
    (byte ^^^ 0x01#8 ^^^ 0x01#8) - 0x10#8 = byte - 0x10#8 := by
  rw [BitVec.xor_assoc, BitVec.xor_self, BitVec.xor_zero]

private theorem undone_sub10 (byte : BitVec 8) :
    byte - 0x10#8 + 0x20#8 = byte + 0x10#8 := by
  revert byte
  decide

private theorem modify_twice (data : List (BitVec 8)) (i : Nat)
    {first second both : BitVec 8 → BitVec 8}
    (same : ∀ byte, second (first byte) = both byte) :
    (data.modify i first).modify i second = data.modify i both := by
  rw [List.modify_modify_eq]
  exact congrArg (data.modify i) (funext same)

/-- One round of the loop: the byte is as it was, and its class is recorded. -/
theorem analyzeByte_returns (returns : analysis.analyzeByte settings i = .ok next) :
    next.inData = analysis.inData ∧ next.origCksum = analysis.origCksum ∧
      (next.seqByte = analysis.seqByte ∨ next.seqByte = analysis.seqByte ^^^ 0x80#8) ∧
      next.bData = analysis.bData.set i
        (givenClass settings analysis.inData analysis.origCksum i |||
          next.seqByte) := by
  obtain ⟨⟨xorFf, first⟩, runFirst, returns⟩ := bind_returns returns
  obtain ⟨⟨xor01, second⟩, runSecond, returns⟩ := bind_returns returns
  obtain ⟨⟨sub10, third⟩, runThird, returns⟩ := bind_returns returns
  obtain ⟨⟨add10, fourth⟩, runFourth, returns⟩ := bind_returns returns
  obtain ⟨isFirst, data1, b1, seq1, orig1⟩ := analyzeRunTarget_returns runFirst
  obtain ⟨isSecond, data2, b2, seq2, orig2⟩ := analyzeRunTarget_returns runSecond
  obtain ⟨isThird, data3, b3, seq3, orig3⟩ := analyzeRunTarget_returns runThird
  obtain ⟨isFourth, data4, b4, seq4, orig4⟩ := analyzeRunTarget_returns runFourth
  simp only [Analysis.change, Bool.false_eq_true, false_and, if_false] at *
  rw [data1, modify_twice _ _ undone_xorFf] at isSecond data2
  rw [data2, modify_twice _ _ undone_xor01] at isThird data3
  rw [data3, modify_twice _ _ undone_sub10] at isFourth data4
  obtain rfl := Except.ok.inj returns
  refine ⟨?_, ?_, ?_, ?_⟩
  · simp only [Analysis.record, data4]
    rw [modify_twice _ _ fun byte => BitVec.add_sub_cancel byte 0x10#8]
    exact List.modify_id i _
  · simp only [Analysis.record, orig4, orig3, orig2, orig1]
  · simp only [Analysis.record, seq4, seq3, seq2, seq1]
    split
    · exact .inr rfl
    · exact .inl rfl
  · simp only [Analysis.record, givenClass, b4, b3, b2, b1, orig4, orig3,
      orig2, orig1, isFirst, isSecond, isThird, isFourth]

/-- What is known in front of byte `i`. -/
structure Analyzed (settings : Settings) (data : List (BitVec 8))
    (cksum : BitVec 64) (i : Nat) (analysis : Analysis) : Prop where
  inData : analysis.inData = data
  origCksum : analysis.origCksum = cksum
  seqByte : analysis.seqByte = 0x00#8 ∨ analysis.seqByte = 0x80#8
  length : analysis.bData.length = data.length + 1
  classes : ∀ j < i, classOf analysis.bData j = givenClass settings data cksum j

/-- The mark of the sequence does not touch the class. -/
private theorem response_marked (origCksum : BitVec 64)
    (xorFf xor01 sub10 add10 : BitVec 32) {seqByte : BitVec 8}
    (isMark : seqByte = 0x00#8 ∨ seqByte = 0x80#8) :
    (Analysis.response origCksum xorFf xor01 sub10 add10 ||| seqByte) &&&
        0x0f#8 = Analysis.response origCksum xorFf xor01 sub10 add10 := by
  unfold Analysis.response
  dsimp only
  rcases isMark with rfl | rfl <;> split_ifs <;> rfl

theorem Analyzed.round {cksum : BitVec 64} {i : Nat}
    {analysis next : Analysis} (inside : i < data.length)
    (analyzed : Analyzed settings data cksum i analysis)
    (returns : analysis.analyzeByte settings i = .ok next) :
    Analyzed settings data cksum (i + 1) next := by
  obtain ⟨sameData, sameCksum, seqByte, bData⟩ := analyzeByte_returns returns
  rw [analyzed.inData, analyzed.origCksum] at bData
  have isMark : next.seqByte = 0x00#8 ∨ next.seqByte = 0x80#8 := by
    rcases seqByte with same | flipped
    · rw [same]
      exact analyzed.seqByte
    · rw [flipped]
      rcases analyzed.seqByte with clear | set
      · rw [clear]
        exact .inr rfl
      · rw [set]
        exact .inl rfl
  refine ⟨sameData.trans analyzed.inData, sameCksum.trans analyzed.origCksum,
    isMark, ?_, ?_⟩
  · rw [bData, List.length_set, analyzed.length]
  · intro j before
    unfold classOf
    rw [bData, List.getD_eq_getElem?_getD]
    by_cases here : j = i
    · subst here
      rw [List.getElem?_set_self (by
        rw [analyzed.length]
        omega)]
      exact response_marked _ _ _ _ _ isMark
    · rw [List.getElem?_set_ne (Ne.symm here), ← List.getD_eq_getElem?_getD]
      exact analyzed.classes j (by omega)

theorem analyzeFile_returns {result : Analysis}
    (returns : analyzeFile settings data = .ok result) :
    (settings.target data).ret ≠ .tmout ∧
      Analyzed settings data (settings.value data) data.length result := by
  obtain ⟨⟨cksum, analysis⟩, dryRun, returns⟩ := bind_returns returns
  obtain ⟨_, inData, _, _, origCksum⟩ := analyzeRunTarget_returns dryRun
  simp only [Analysis.start, true_and] at inData origCksum
  dsimp only at returns
  split at returns
  · cases returns
  · rename_i inTime
    refine ⟨inTime, ?_⟩
    split at returns
    · cases returns
    · rw [if_pos inTime] at origCksum
      have start : Analyzed settings data (settings.value data) 0
          analysis.begin :=
        ⟨inData, origCksum, .inl rfl, by simp [Analysis.begin, inData], nofun⟩
      have analyzed : Yields (fun _ => True)
          (Analyzed settings data (settings.value data) data.length)
          (forRangeM (Analysis.analyzeByte settings) data.length analysis.begin) :=
        forRangeM_yields _ _ _ start _ fun i inside current holds => by
          cases round : current.analyzeByte settings i with
          | error exit => trivial
          | ok next => exact holds.round inside round
      rw [Analysis.analyze, inData] at returns
      rw [returns] at analyzed
      exact analyzed

/-- When a byte gets each of the first two classes. -/
theorem response_iff (origCksum : BitVec 64)
    (xorFf xor01 sub10 add10 : BitVec 32) :
    (Analysis.response origCksum xorFf xor01 sub10 add10 = respNone ↔
        ∀ cksum ∈ [xorFf, xor01, sub10, add10], cksum.setWidth 64 = origCksum) ∧
      (Analysis.response origCksum xorFf xor01 sub10 add10 = respMinor ↔
        (∃ cksum ∈ [xorFf, xor01, sub10, add10], cksum.setWidth 64 = origCksum) ∧
          ¬∀ cksum ∈ [xorFf, xor01, sub10, add10], cksum.setWidth 64 = origCksum) := by
  have all : (decide (xorFf.setWidth 64 = origCksum) &&
      decide (xor01.setWidth 64 = origCksum) &&
      decide (sub10.setWidth 64 = origCksum) &&
      decide (add10.setWidth 64 = origCksum)) = true ↔
        ∀ cksum ∈ [xorFf, xor01, sub10, add10], cksum.setWidth 64 = origCksum := by
    simp [and_assoc]
  have any : (decide (xorFf.setWidth 64 = origCksum) ||
      decide (xor01.setWidth 64 = origCksum) ||
      decide (sub10.setWidth 64 = origCksum) ||
      decide (add10.setWidth 64 = origCksum)) = true ↔
        ∃ cksum ∈ [xorFf, xor01, sub10, add10], cksum.setWidth 64 = origCksum := by
    simp [or_assoc]
  have differ : respMinor ≠ respNone ∧ respFixed ≠ respNone ∧
      respFixed ≠ respMinor ∧ respVariable ≠ respNone ∧
      respVariable ≠ respMinor := by
    decide
  unfold Analysis.response
  simp only [all, any]
  split_ifs with isAll isAny isFixed
  · exact ⟨iff_of_true rfl isAll, iff_of_false differ.1.symm fun both => both.2 isAll⟩
  · exact ⟨iff_of_false differ.1 isAll, iff_of_true rfl ⟨isAny, isAll⟩⟩
  · exact ⟨iff_of_false differ.2.1 isAll,
      iff_of_false differ.2.2.1 fun both => isAny both.1⟩
  · exact ⟨iff_of_false differ.2.2.2.1 isAll,
      iff_of_false differ.2.2.2.2 fun both => isAny both.1⟩

/-- The low half of the checksum of an input is the checksum of the original
one. -/
def Agrees (settings : Settings) (data mem : List (BitVec 8)) : Prop :=
  ((settings.value mem).setWidth 32).setWidth 64 = settings.value data

theorem givenClass_iff (settings : Settings) (data : List (BitVec 8))
    (i : Nat) :
    (givenClass settings data (settings.value data) i = respNone ↔
        ∀ mem ∈ alterations data i, Agrees settings data mem) ∧
      (givenClass settings data (settings.value data) i = respMinor ↔
        (∃ mem ∈ alterations data i, Agrees settings data mem) ∧
          ¬∀ mem ∈ alterations data i, Agrees settings data mem) := by
  have listed : ∀ cksum,
      cksum ∈ [(settings.value (data.modify i (· ^^^ 0xff#8))).setWidth 32,
        (settings.value (data.modify i (· ^^^ 0x01#8))).setWidth 32,
        (settings.value (data.modify i (· - 0x10#8))).setWidth 32,
        (settings.value (data.modify i (· + 0x10#8))).setWidth 32] ↔
      ∃ mem ∈ alterations data i, (settings.value mem).setWidth 32 = cksum := by
    intro cksum
    exact List.mem_map (f := fun mem => (settings.value mem).setWidth 32)
      (l := alterations data i)
  have both := response_iff (settings.value data)
    ((settings.value (data.modify i (· ^^^ 0xff#8))).setWidth 32)
    ((settings.value (data.modify i (· ^^^ 0x01#8))).setWidth 32)
    ((settings.value (data.modify i (· - 0x10#8))).setWidth 32)
    ((settings.value (data.modify i (· + 0x10#8))).setWidth 32)
  simp only [listed, forall_exists_index, and_imp, forall_apply_eq_imp_iff₂,
    exists_exists_and_eq_and] at both
  exact both

theorem keeps_iff (tellsApart : settings.TellsApart)
    (inTime : (settings.target data).ret ≠ .tmout) (mem : List (BitVec 8)) :
    Keeps settings data mem ↔
      (settings.target mem).ret ≠ .tmout ∧
        settings.value mem = settings.value data := by
  unfold Keeps Settings.value
  apply and_congr_right
  intro ended
  rw [if_neg ended, if_neg inTime]
  constructor
  · rintro ⟨crash, trace⟩
    simp only [Settings.cksum, trace, crash]
  · exact tellsApart mem data ended inTime

theorem agrees_iff (settings : Settings) (data mem : List (BitVec 8)) :
    Agrees settings data mem ↔
      (settings.value data).toNat < 2 ^ 32 ∧ Resembles settings data mem := by
  unfold Agrees Resembles
  rw [← BitVec.toNat_inj, ← BitVec.toNat_inj]
  simp only [BitVec.toNat_setWidth]
  have small := (settings.value data).isLt
  omega

/-- Statements on all and on some of the alterations, the second pair of which
implies the first one. -/
private theorem classes_iff {allAgree allKeep someAgree someKeep : Prop}
    (all : allKeep → allAgree) (some : someKeep → someAgree)
    (kept : allKeep → someKeep) :
    ((allAgree ↔ allKeep) ∧ (someAgree ∧ ¬allAgree ↔ someKeep ∧ ¬allKeep)) ↔
      (allAgree → allKeep) ∧ (someAgree → someKeep) := by
  tauto

/-- A byte is classified right exactly under the condition. -/
theorem classifiedRight_iff (tellsApart : settings.TellsApart)
    (inTime : (settings.target data).ret ≠ .tmout) {bData : List (BitVec 8)}
    (isClass : classOf bData i = givenClass settings data (settings.value data) i) :
    ClassifiedRight settings data bData i ↔ Separates settings data i := by
  obtain ⟨none, minor⟩ := givenClass_iff settings data i
  have kept : (∀ mem ∈ alterations data i, Keeps settings data mem) →
      ∃ mem ∈ alterations data i, Keeps settings data mem :=
    fun all => ⟨_, List.mem_cons_self, all _ List.mem_cons_self⟩
  unfold ClassifiedRight Separates
  rw [isClass, none, minor]
  simp only [agrees_iff]
  by_cases fits : (settings.value data).toNat < 2 ^ 32
  · simp only [fits, true_and, if_true]
    have resembles : ∀ mem, Keeps settings data mem → Resembles settings data mem := by
      intro mem keeps
      exact congrArg (BitVec.setWidth 32)
        ((keeps_iff tellsApart inTime mem).mp keeps).2
    have allKept : (∀ mem ∈ alterations data i, Keeps settings data mem) →
        ∀ mem ∈ alterations data i, Resembles settings data mem :=
      fun all mem member => resembles mem (all mem member)
    have someKept : (∃ mem ∈ alterations data i, Keeps settings data mem) →
        ∃ mem ∈ alterations data i, Resembles settings data mem :=
      fun ⟨mem, member, keeps⟩ => ⟨mem, member, resembles mem keeps⟩
    exact classes_iff allKept someKept kept
  · simp only [fits, false_and, and_false, exists_false, if_false]
    have notAll : ¬∀ mem ∈ alterations data i, False :=
      fun all => all _ List.mem_cons_self
    have noneKept : (∀ mem ∈ alterations data i, ¬Keeps settings data mem) ↔
        ¬∃ mem ∈ alterations data i, Keeps settings data mem := by
      simp
    rw [noneKept, iff_false_left notAll, false_iff]
    refine ⟨fun both some => both.2 ⟨some, both.1⟩, fun none => ?_⟩
    exact ⟨fun all => none (kept all), fun both => none both.1⟩

end Runs

/-- When the analysis of a file classifies every byte by the behaviour of the
target.  The input is always as it was. -/
theorem analyzeFile_right_iff {settings : Settings}
    (tellsApart : settings.TellsApart) {data : List (BitVec 8)}
    {result : Analysis}
    (returns : analyzeFile settings data = .ok result) :
    (result.inData = data ∧
        ∀ i < data.length, ClassifiedRight settings data result.bData i) ↔
      ∀ i < data.length, Separates settings data i := by
  obtain ⟨inTime, analyzed⟩ := analyzeFile_returns returns
  rw [and_iff_right analyzed.inData]
  apply forall₂_congr
  intro i inside
  exact classifiedRight_iff tellsApart inTime (analyzed.classes i inside)

/-- A target whose trace does not depend on its input, with its checksum. -/
def constantTarget (cksum : BitVec 64) : Settings where
  edgesOnly := false
  skipBinCheck := false
  mapSize := 4
  hash64 := fun _ => cksum
  target := fun _ => ⟨.ok, fun _ => 1#8⟩

theorem analyzeFile_right_iff_oneByte :
    ∃ result, analyzeFile (constantTarget 1#64) [7#8] = .ok result ∧
      ((result.inData = [7#8] ∧ ∀ i < [7#8].length,
          ClassifiedRight (constantTarget 1#64) [7#8] result.bData i) ↔
        ∀ i < [7#8].length, Separates (constantTarget 1#64) [7#8] i) :=
  ⟨_, rfl, @analyzeFile_right_iff (constantTarget 1#64)
    (fun _ _ _ _ _ => ⟨Iff.rfl, rfl⟩) [7#8] _ rfl⟩

/-- No alteration has an effect, and the byte is not classified so, as the
checksum has more than 32 bits. -/
theorem analyzeFile_wrong_wideCksum :
    (constantTarget 0x100000001#64).TellsApart ∧
      ∃ result, analyzeFile (constantTarget 0x100000001#64) [7#8] = .ok result ∧
        classOf result.bData 0 = respFixed ∧
        (∀ mem ∈ alterations [7#8] 0,
          Keeps (constantTarget 0x100000001#64) [7#8] mem) ∧
        ¬ClassifiedRight (constantTarget 0x100000001#64) [7#8]
          result.bData 0 := by
  have keeps : ∀ mem, Keeps (constantTarget 0x100000001#64) [7#8] mem :=
    fun _ => ⟨nofun, Iff.rfl, rfl⟩
  refine ⟨fun _ _ _ _ _ => ⟨Iff.rfl, rfl⟩, _, rfl, rfl, fun mem _ => keeps mem, ?_⟩
  intro right
  have isNone := right.1.mpr fun mem _ => keeps mem
  revert isNone
  decide

end AFLPlusPlus.Analyze

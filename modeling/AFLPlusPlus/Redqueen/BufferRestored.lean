import AFLPlusPlus.Redqueen.CmpFuzz
import AFLPlusPlus.Redqueen.NumberText

/-!
# The buffer behind a comparison

`cmp_extend_encoding` and `cmp_extend_encodingN` leave the bytes that they have
replaced as they were, unless an execution is aborted.  Nothing that is behind
the input is read or written.
-/

namespace AFLPlusPlus.Redqueen

open EarlyExit

variable {count idx offset : Nat}

namespace ItsEnvironment

/-- States that differ in what is behind the `len` bytes of `buf` only. -/
def SameInput (len : Nat) (its other : ItsState) : Prop :=
  other = { its with buf := other.buf } ∧ ∀ i < len, its.buf i = other.buf i

/-- All that is replaced or looked at, in `buf` and in `orig_buf`, belongs to
their `len` bytes. -/
def Confined (afl : ItsEnvironment) (function : ItsEnvironment → Its Unit) :
    Prop :=
  ∀ orig : Buffer, (∀ i < afl.len, afl.orig i = orig i) →
    afl.Accesses orig (SameInput afl.len)
      (fun offset count => offset + count ≤ afl.len)
      (function afl) (function { afl with orig })

/-- A run that is not aborted leaves the buffer as it was. -/
def Restores (program : Its Unit) : Prop :=
  ∀ its final, program.run its = (some (), final) → final.buf = its.buf

variable {afl : ItsEnvironment} {orig : Buffer}
  {visible : ItsState → ItsState → Prop} {inside : Nat → Nat → Prop}

theorem storeBytes_restored (memory : Buffer) (offset : Nat)
    (bytes : List (BitVec 8)) :
    (memory.storeBytes offset bytes).storeBytes offset
      (memory.loadBytes offset bytes.length) = memory := by
  funext here
  rw [Buffer.storeBytes]
  split
  · rename_i behind
    by_cases within : here - offset < bytes.length
    · have held := Buffer.spells_loadBytes memory offset bytes.length
        (here - offset)
      rw [Nat.add_sub_of_le behind] at held
      rw [List.getElem?_eq_getElem (by
        rw [Buffer.length_loadBytes]
        exact within)]
      exact (held _ (List.getElem?_eq_getElem _)).symm
    · have outside := Nat.le_of_not_lt within
      rw [List.getElem?_eq_none (by
        rw [Buffer.length_loadBytes]
        exact outside), Buffer.storeBytes, if_pos behind,
        List.getElem?_eq_none outside]
      rfl
  · rename_i before
    rw [Buffer.storeBytes, if_neg before]

theorem keeps_itsFuzz_buf (input : Buffer) (site : Site) (offset count : Nat)
    (holds : Buffer → Prop) :
    Keeps (fun its => holds its.buf) (afl.itsFuzz input site offset count) := by
  intro its same
  unfold itsFuzz
  rw [OptionT.run_mk]
  cases afl.outcome its.execs (input.loadBytes 0 afl.len) with
  | aborts => exact same
  | nothing => exact same
  | queued => exact same
  | crash => exact same

theorem keeps_combine_buf (offset count : Nat) (holds : Buffer → Prop) :
    Keeps (fun its => holds its.buf) (Redqueen.combine offset count) := by
  intro its same
  change holds (its.combine offset count).buf
  unfold ItsState.combine
  split
  · exact same
  · exact same

theorem keeps_replaceNumber_buf (idx oldLen : Nat) (digits : List (BitVec 8))
    (holds : Buffer → Prop) :
    Keeps (fun its => holds its.buf) (afl.replaceNumber idx oldLen digits) := by
  apply Keeps.bind Keeps.get
  intro its
  apply Keeps.bind
  · exact fun _ same => same
  · intro _
    exact keeps_itsFuzz_buf _ _ _ _ holds

/-- Bytes are put back, unless the execution with them is aborted. -/
theorem triple_replaceBytes (idx : Nat) (bytes : List (BitVec 8))
    (holds written : Buffer → Prop)
    (writes : ∀ buf, holds buf → written (buf.storeBytes idx bytes)) :
    Triple (fun its => holds its.buf) (afl.replaceBytes idx bytes)
      (fun _ its => holds its.buf) (fun its => written its.buf) := by
  apply Triple.bind Triple.get
  intro its
  let buf := its.buf.storeBytes idx bytes
  have attempts : Triple (fun later => its = later ∧ holds later.buf)
      (afl.attempt .value idx bytes)
      (fun _ later => later.buf = buf ∧ holds its.buf)
      (fun later => written later.buf) := by
    have stores : Triple (fun later => its = later ∧ holds later.buf)
        (storeBuf idx bytes) (fun _ later => later.buf = buf ∧ holds its.buf)
        (fun later => written later.buf) := by
      rintro _ ⟨rfl, before⟩
      exact ⟨rfl, before⟩
    apply Triple.bind stores
    intro _
    apply Triple.bind Triple.get
    intro later
    have fuzzes := @keeps_itsFuzz_buf afl later.buf .value idx bytes.length
      fun memory => memory = buf ∧ holds its.buf
    apply (fuzzes.leaving _).starting
    · exact fun _ both => both.2
    · rintro final ⟨same, before⟩
      rw [same]
      exact writes its.buf before
  apply Triple.bind attempts
  intro _
  have combines := @keeps_combine_buf idx bytes.length
    fun memory => memory = buf ∧ holds its.buf
  apply Triple.bind (combines.leaving fun final both => by
    rw [both.1]
    exact writes its.buf both.2)
  rintro _ later ⟨same, before⟩
  change holds (later.buf.storeBytes idx _)
  rw [same, storeBytes_restored]
  exact before

theorem Accesses.restores {program other : Its Unit}
    (accesses : afl.Accesses orig visible inside program other)
    (reflexive : ∀ its, visible its its) : Restores program := by
  have triple : ∀ {Value : Type} {program other : Its Value} (buf : Buffer),
      afl.Accesses orig visible inside program other →
        Triple (fun its => its.buf = buf) program (fun _ its => its.buf = buf)
          (fun _ => True) := by
    intro Value program other buf accesses
    induction accesses with
    | pure value => exact Triple.pure value fun _ same => same
    | bind first second restoresFirst restoresSecond =>
        exact Triple.bind restoresFirst restoresSecond
    | look same restoresRest =>
        apply Triple.bind Triple.get
        intro its
        apply (restoresRest its its (reflexive its)).starting
        exact fun _ both => both.2
    | setStatus status => exact fun _ same => same
    | number idx oldLen digits =>
        exact (keeps_replaceNumber_buf idx oldLen digits (· = buf)).leaving
          fun _ _ => trivial
    | bytes idx bytes =>
        apply triple_replaceBytes idx bytes (· = buf) fun _ => True
        exact fun _ _ => trivial
  intro its final ended
  have reached := triple its.buf accesses its rfl
  rw [ended] at reached
  exact reached

/-- The bytes behind the input stay what they are, also in an aborted run. -/
theorem Accesses.behind {Value : Type} {program other : Its Value}
    (accesses : afl.Accesses orig visible
      (fun offset count => offset + count ≤ afl.len) program other)
    (reflexive : ∀ its, visible its its) (buf : Buffer) :
    Keeps (fun its => ∀ i ≥ afl.len, its.buf i = buf i) program := by
  induction accesses with
  | pure value => exact Keeps.pure value
  | bind first second keepsFirst keepsSecond =>
      exact Keeps.bind keepsFirst keepsSecond
  | look same keepsRest =>
      apply Keeps.bind Keeps.get
      intro its
      exact keepsRest its its (reflexive its)
  | setStatus status => exact fun _ same => same
  | number idx oldLen digits =>
      exact keeps_replaceNumber_buf idx oldLen digits
        fun memory => ∀ i ≥ afl.len, memory i = buf i
  | bytes idx bytes within =>
      apply triple_replaceBytes idx bytes
        (fun memory => ∀ i ≥ afl.len, memory i = buf i)
        fun memory => ∀ i ≥ afl.len, memory i = buf i
      intro memory same i behind
      rw [Buffer.storeBytes_outside memory (.inr (Nat.le_trans within behind))]
      exact same i behind

theorem SameInput.refl (len : Nat) (its : ItsState) : SameInput len its its :=
  ⟨rfl, fun _ _ => rfl⟩

namespace SameInput

variable {len : Nat} {its other : ItsState}

theorem loadBytes_eq (same : SameInput len its other) (within : offset + count ≤ len) :
    its.buf.loadBytes offset count = other.buf.loadBytes offset count := by
  apply List.map_congr_left
  intro i below
  have inside := List.mem_range.mp below
  exact same.2 (offset + i) (by omega)

theorem storeBytes (same : SameInput len its other) (offset : Nat)
    (bytes : List (BitVec 8)) :
    SameInput len { its with buf := its.buf.storeBytes offset bytes }
      { other with buf := other.buf.storeBytes offset bytes } := by
  rw [same.1]
  exact ⟨rfl, fun i inside =>
    storeBytes_congr (same.2 i inside) offset bytes⟩

end SameInput

theorem alike_storeBuf (offset : Nat) (bytes : List (BitVec 8)) :
    Alike (SameInput afl.len) (storeBuf offset bytes) (storeBuf offset bytes) :=
  fun _ _ same => ⟨rfl, same.storeBytes offset bytes⟩

theorem alike_itsFuzz {input otherInput : Buffer} (site : Site)
    (executed : input.loadBytes 0 afl.len = otherInput.loadBytes 0 afl.len)
    (written : input.loadBytes offset count = otherInput.loadBytes offset count) :
    Alike (SameInput afl.len) (afl.itsFuzz input site offset count)
      (afl.itsFuzz otherInput site offset count) := by
  intro its other same
  rw [same.1]
  unfold itsFuzz found
  rw [OptionT.run_mk, OptionT.run_mk, executed, written]
  cases afl.outcome its.execs (otherInput.loadBytes 0 afl.len) with
  | aborts => exact ⟨rfl, rfl, same.2⟩
  | nothing => exact ⟨rfl, rfl, same.2⟩
  | queued => exact ⟨rfl, rfl, same.2⟩
  | crash => exact ⟨rfl, rfl, same.2⟩

theorem alike_combine (within : offset + count ≤ afl.len) :
    Alike (SameInput afl.len) (Redqueen.combine offset count)
      (Redqueen.combine offset count) := by
  intro its other same
  have copied := same.loadBytes_eq within
  refine ⟨rfl, ?_⟩
  change SameInput afl.len (its.combine offset count)
    (other.combine offset count)
  unfold ItsState.combine
  rw [← copied, same.1]
  split
  · exact ⟨rfl, same.2⟩
  · exact ⟨rfl, same.2⟩

theorem alike_replaceNumber {oldLen : Nat} (digits : List (BitVec 8))
    (within : idx + oldLen ≤ afl.len) :
    Alike (SameInput afl.len) (afl.replaceNumber idx oldLen digits)
      ({ afl with orig }.replaceNumber idx oldLen digits) := by
  apply Alike.look
  intro its other same
  have front : its.buf.loadBytes 0 idx = other.buf.loadBytes 0 idx :=
    same.loadBytes_eq (by omega)
  have tail : its.buf.loadBytes (idx + oldLen) (afl.len - idx - oldLen) =
      other.buf.loadBytes (idx + oldLen) (afl.len - idx - oldLen) :=
    same.loadBytes_eq (by omega)
  have scratch : its.outScratch = other.outScratch := by rw [same.1]
  dsimp only
  rw [front, tail, scratch]
  apply Alike.bind
  · intro its other same
    refine ⟨rfl, ?_⟩
    change SameInput _ { its with outScratch := _ } { other with outScratch := _ }
    rw [same.1]
    exact ⟨rfl, same.2⟩
  · intro _
    exact alike_itsFuzz .number rfl rfl

theorem alike_replaceBytes {bytes : List (BitVec 8)}
    (within : idx + bytes.length ≤ afl.len) :
    Alike (SameInput afl.len) (afl.replaceBytes idx bytes)
      ({ afl with orig }.replaceBytes idx bytes) := by
  apply Alike.look
  intro its other same
  rw [← same.loadBytes_eq within]
  apply Alike.bind
  · apply Alike.bind (alike_storeBuf idx bytes)
    intro _
    apply Alike.look
    intro its other same
    exact alike_itsFuzz .value (same.loadBytes_eq (Nat.le_of_eq (Nat.zero_add _)))
      (same.loadBytes_eq within)
  intro _
  apply Alike.bind (alike_combine within)
  intro _
  exact alike_storeBuf idx _

theorem Accesses.alike {Value : Type} {program other : Its Value}
    (accesses : afl.Accesses orig (SameInput afl.len)
      (fun offset count => offset + count ≤ afl.len) program other) :
    Alike (SameInput afl.len) program other := by
  induction accesses with
  | pure value => exact Alike.pure value
  | bind first second alikeFirst alikeSecond =>
      exact Alike.bind alikeFirst alikeSecond
  | look same alikeRest => exact Alike.look alikeRest
  | setStatus status =>
      intro its other same
      refine ⟨rfl, ?_⟩
      change SameInput _ { its with status } { other with status }
      rw [same.1]
      exact ⟨rfl, same.2⟩
  | number idx oldLen digits within => exact alike_replaceNumber digits within
  | bytes idx bytes within => exact alike_replaceBytes within

theorem sees_input (position : idx < afl.len)
    (same : ∀ i < afl.len, afl.orig i = orig i) :
    afl.Sees orig (SameInput afl.len)
      (fun offset count => offset + count ≤ afl.len) idx where
  status := by
    intro its other alike
    rw [alike.1]
  buf := fun its other alike i _ inside => alike.2 i inside
  orig := fun i _ inside => same i inside
  inside := fun count short => by omega

/-- Every call for a position of the input that is not aborted leaves the buffer
as it was, and neither function looks at anything or replaces anything that is
not of the input. -/
theorem cmpExtendEncoding_restores (afl : ItsEnvironment) (h : CmpArguments)
    (wide : WideArguments) (position : h.idx < afl.len)
    (widePosition : wide.idx < afl.len) :
    (Restores (afl.cmpExtendEncoding h) ∧
        Confined afl fun afl => afl.cmpExtendEncoding h) ∧
      Restores (afl.cmpExtendEncodingN wide) ∧
        Confined afl fun afl => afl.cmpExtendEncodingN wide := by
  have confined : Confined afl fun afl => afl.cmpExtendEncoding h := by
    intro orig same
    exact accesses_cmpExtendEncoding h (sees_input position same)
  have wideConfined : Confined afl fun afl => afl.cmpExtendEncodingN wide := by
    intro orig same
    exact accesses_cmpExtendEncodingN wide (sees_input widePosition same)
  have refl := SameInput.refl afl.len
  refine ⟨⟨?_, confined⟩, ?_, wideConfined⟩
  · exact (confined afl.orig fun _ _ => rfl).restores refl
  · exact (wideConfined afl.orig fun _ _ => rfl).restores refl

/-- A wide value at the end of the test case. -/
def wideArguments : WideArguments where
  shape := 1
  pattern := 0x3b30
  repl := 0x3030
  oPattern := 0x3b30
  idx := 1
  taintLen := 2

theorem cmpExtendEncoding_restores_number :
    (Restores (numberCase.cmpExtendEncoding (numberArguments 5)) ∧
        Confined numberCase fun afl =>
          afl.cmpExtendEncoding (numberArguments 5)) ∧
      Restores (numberCase.cmpExtendEncodingN wideArguments) ∧
        Confined numberCase fun afl => afl.cmpExtendEncodingN wideArguments :=
  cmpExtendEncoding_restores numberCase (numberArguments 5) wideArguments
    (show 0 < 3 by decide) (show 1 < 3 by decide)

/-- All of `cmp_fuzz` puts back what it replaces, does not write behind the input, also
in a run that is aborted, and does the same whatever is there. -/
theorem cmpFuzz_isolated (afl : ItsEnvironment) (h : CmpLocation) (taint : List Tainted) :
    Restores (afl.cmpFuzz h taint) ∧
      (∀ buf : Buffer, Keeps (fun its => ∀ i ≥ afl.len, its.buf i = buf i)
        (afl.cmpFuzz h taint)) ∧
      ∀ orig : Buffer, (∀ i < afl.len, afl.orig i = orig i) →
        Alike (SameInput afl.len) (afl.cmpFuzz h taint)
          ({ afl with orig }.cmpFuzz h taint) := by
  have confined : Confined afl fun afl => afl.cmpFuzz h taint := by
    intro orig same
    exact accesses_cmpFuzz h taint fun idx position => sees_input position same
  have self := confined afl.orig fun _ _ => rfl
  have refl := SameInput.refl afl.len
  refine ⟨self.restores refl, self.behind refl, ?_⟩
  intro orig same
  exact (confined orig same).alike

end ItsEnvironment

end AFLPlusPlus.Redqueen

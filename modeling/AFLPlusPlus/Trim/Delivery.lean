import AFLPlusPlus.Config
import AFLPlusPlus.Support.Regions
import AFLPlusPlus.Support.Stores
import Mathlib.Algebra.Order.Ring.Nat

/-!
# Delivery of test cases

`write_to_testcase` hands a test case to the target, through shared memory, the
standard input or a file.  `write_with_gap` does the same for a test case
without one of its ranges, with code of its own.
-/

namespace AFLPlusPlus.Trim

open Buffer

/-- `afl_custom_post_process` of a custom mutator: the buffer it returns, or
nothing if it returns `NULL`. -/
abbrev PostProcess := List (BitVec 8) → Option (List (BitVec 8))

/-- Where test cases are delivered: `shmem_fuzz` has room for `MAX_FILE` bytes,
`outFile` is what `out_fd` or `out_file` holds. -/
structure Fsrv where
  useShmemFuzz : Bool
  useStdin : Bool
  shmemFuzz : Buffer
  shmemFuzzLen : BitVec 32
  outFile : List (BitVec 8)

def Fsrv.received (fsrv : Fsrv) : List (BitVec 8) :=
  if fsrv.useShmemFuzz then
    fsrv.shmemFuzz.loadBytes 0 fsrv.shmemFuzzLen.toNat
  else fsrv.outFile

/-- A file that is being written. -/
structure OutFd where
  content : List (BitVec 8)
  position : Nat

/-- `ck_write`: the length is an `s32`, and a short write ends the program. -/
def ckWrite (bytes : List (BitVec 8)) (fd : OutFd) : Option OutFd :=
  if bytes.length < 2 ^ 31 then
    some ⟨Region.splice fd.content fd.position bytes, fd.position + bytes.length⟩
  else none

def ftruncate (content : List (BitVec 8)) (size : Nat) : List (BitVec 8) :=
  content.take size ++ List.replicate (size - content.length) 0#8

def Fsrv.openOut (fsrv : Fsrv) : OutFd :=
  ⟨if fsrv.useStdin then fsrv.outFile else [], 0⟩

/-- The standard input is cut behind what was written. -/
def Fsrv.closeOut (fsrv : Fsrv) (fd : OutFd) (size : Nat) : Fsrv :=
  { fsrv with
    outFile := if fsrv.useStdin then ftruncate fd.content size else fd.content }

/-- `memcpy` to the start of `shmem_fuzz`. -/
def Fsrv.memcpyShmem (fsrv : Fsrv) (bytes : List (BitVec 8)) : Option Fsrv :=
  if bytes.length ≤ maxFile then
    some { fsrv with shmemFuzz := fsrv.shmemFuzz.storeBytes 0 bytes }
  else none

/-- `afl_fsrv_write_to_testcase` -/
def fsrvWriteToTestcase (fsrv : Fsrv) (buf : List (BitVec 8)) : Option Fsrv :=
  if fsrv.useShmemFuzz then
    let buf := buf.take maxFile
    { fsrv with shmemFuzzLen := BitVec.ofNat 32 buf.length }.memcpyShmem buf
  else
    (ckWrite buf fsrv.openOut).map fun fd => fsrv.closeOut fd buf.length

/-- The loop over the mutators in `write_to_testcase`.  A result that is `NULL` is
fatal, or is read through. -/
def postProcess :
    List (Option PostProcess) → List (BitVec 8) → Option (List (BitVec 8))
  | [], mem => some mem
  | none :: mutators, mem => postProcess mutators mem
  | some post :: mutators, mem => (post mem).bind (postProcess mutators)

/-- The loop over the mutators in `write_with_gap`, where an empty result is
fatal. -/
def postProcessTrimmed :
    List (Option PostProcess) → List (BitVec 8) → Option (List (BitVec 8))
  | [], mem => some mem
  | none :: mutators, mem => postProcessTrimmed mutators mem
  | some post :: mutators, mem =>
      (post mem).bind fun result =>
        if result.length = 0 then none else postProcessTrimmed mutators result

def writeToTestcase (fsrv : Fsrv) (mutators : List (Option PostProcess))
    (mem : List (BitVec 8)) : Option Fsrv :=
  (postProcess mutators mem).bind (fsrvWriteToTestcase fsrv)

/-- The first part of `write_with_gap`: the new buffer, if some mutator has a
post-processing function. -/
def trimmedMem (mutators : List (Option PostProcess)) (mem : List (BitVec 8))
    (skipAt skipLen : Nat) : Option (Option (List (BitVec 8))) :=
  let memTrimmed := mem.take skipAt ++ mem.drop (skipAt + skipLen)
  if mutators.any Option.isSome then
    (postProcessTrimmed mutators memTrimmed).map some
  else some none

/-- The copies of `write_with_gap` to the shared memory: what was processed, or
both parts, each to the start of `shmem_fuzz`. -/
def gapToShmem (fsrv : Fsrv) (head tail : List (BitVec 8)) :
    Option (List (BitVec 8)) → Option Fsrv
  | some newMem => fsrv.memcpyShmem newMem
  | none => (fsrv.memcpyShmem head).bind fun fsrv => fsrv.memcpyShmem tail

/-- The writes of `write_with_gap` to a file. -/
def gapToFile (fsrv : Fsrv) (head tail : List (BitVec 8)) :
    Option (List (BitVec 8)) → Option OutFd
  | some newMem => ckWrite newMem fsrv.openOut
  | none => (ckWrite head fsrv.openOut).bind (ckWrite tail)

def writeWithGap (fsrv : Fsrv) (mutators : List (Option PostProcess))
    (mem : List (BitVec 8)) (skipAt skipLen : Nat) : Option Fsrv :=
  (trimmedMem mutators mem skipAt skipLen).bind fun processed =>
    let head := mem.take skipAt
    let tail := mem.drop (skipAt + skipLen)
    let newSize := (processed.map List.length).getD (mem.length - skipLen)
    if fsrv.useShmemFuzz then
      (gapToShmem fsrv head tail processed).map fun fsrv =>
        { fsrv with shmemFuzzLen := BitVec.ofNat 32 newSize }
    else
      (gapToFile fsrv head tail processed).map fun fd =>
        fsrv.closeOut fd newSize

/-- The test case without the gap. -/
def withoutGap (mem : List (BitVec 8)) (skipAt skipLen : Nat) : List (BitVec 8) :=
  mem.take skipAt ++ mem.drop (skipAt + skipLen)

/-- Every result of a post-processing function has bytes. -/
def NonemptyResults : List (Option PostProcess) → List (BitVec 8) → Prop
  | [], _ => True
  | none :: mutators, mem => NonemptyResults mutators mem
  | some post :: mutators, mem => ∀ result, post mem = some result →
      0 < result.length ∧ NonemptyResults mutators result

/-- The bytes are such that the tail may be copied over the head: nothing stands
before the gap or behind it, or the tail starts like the head and goes on with
the period of its length, as far as the shared memory does. -/
def Repeats (memory : Buffer) (head tail : List (BitVec 8)) : Prop :=
  (∀ i, i < head.length → i < tail.length → tail[i]? = head[i]?) ∧
    ∀ i, head.length ≤ i → i < head.length + tail.length →
      tail[i - head.length]? =
        if i < tail.length then tail[i]? else some (memory i)

variable {mem : List (BitVec 8)} {mutators : List (Option PostProcess)}

theorem postProcess_trimmed (nonempty : NonemptyResults mutators mem) :
    postProcessTrimmed mutators mem = postProcess mutators mem := by
  induction mutators generalizing mem with
  | nil => rfl
  | cons mutator mutators induction =>
      cases mutator with
      | none => exact induction nonempty
      | some post =>
          rw [postProcessTrimmed, postProcess]
          cases found : post mem with
          | none => rfl
          | some result =>
              obtain ⟨positive, rest⟩ := nonempty result found
              rw [Option.bind_some, Option.bind_some,
                if_neg (Nat.ne_of_gt positive), induction rest]

theorem postProcessTrimmed_empty (empty : ¬NonemptyResults mutators mem) :
    postProcessTrimmed mutators mem = none := by
  induction mutators generalizing mem with
  | nil => exact absurd trivial empty
  | cons mutator mutators induction =>
      cases mutator with
      | none => exact induction empty
      | some post =>
          rw [postProcessTrimmed]
          cases found : post mem with
          | none => rfl
          | some result =>
              rw [Option.bind_some]
              by_cases none : result.length = 0
              · rw [if_pos none]
              · rw [if_neg none]
                apply induction
                intro rest
                apply empty
                intro other same
                obtain rfl := Option.some.inj (found.symm.trans same)
                exact ⟨Nat.pos_of_ne_zero none, rest⟩

theorem postProcess_skipped (skipped : mutators.any Option.isSome = false)
    (mem : List (BitVec 8)) :
    postProcess mutators mem = some mem := by
  induction mutators with
  | nil => rfl
  | cons mutator mutators induction =>
      cases mutator with
      | none => exact induction skipped
      | some post => cases skipped

/-- The condition under which both deliver the same.  With post-processing,
`write_to_testcase` ends the program, too, or no result is empty and the last one
fits the shared memory; without it, the copies to the shared memory do no harm,
and the writes to a file are both possible or not. -/
def GapDelivered (fsrv : Fsrv) (mutators : List (Option PostProcess))
    (mem : List (BitVec 8)) (skipAt skipLen : Nat) : Prop :=
  if mutators.any Option.isSome then
    (∀ result, postProcess mutators (withoutGap mem skipAt skipLen) =
        some result → fsrv.useShmemFuzz = false ∧ 2 ^ 31 ≤ result.length) ∨
      (NonemptyResults mutators (withoutGap mem skipAt skipLen) ∧
        (fsrv.useShmemFuzz = true →
          ∀ result, postProcess mutators (withoutGap mem skipAt skipLen) =
            some result → result.length ≤ maxFile))
  else if fsrv.useShmemFuzz then
    mem.length - skipLen ≤ maxFile ∧
      Repeats fsrv.shmemFuzz (mem.take skipAt) (mem.drop (skipAt + skipLen))
  else
    mem.length - skipLen < 2 ^ 31 ∨ 2 ^ 31 ≤ skipAt ∨
      2 ^ 31 ≤ mem.length - (skipAt + skipLen)

section Agreement

variable {fsrv : Fsrv} {head tail : List (BitVec 8)}

theorem fsrvWriteToTestcase_shmem (shmem : fsrv.useShmemFuzz = true)
    (buf : List (BitVec 8)) :
    (fsrvWriteToTestcase fsrv buf).map Fsrv.received = some (buf.take maxFile) := by
  have short : (buf.take maxFile).length ≤ maxFile := List.length_take_le _ _
  have isLen : (BitVec.ofNat 32 (buf.take maxFile).length).toNat =
      (buf.take maxFile).length := by
    rw [BitVec.toNat_ofNat, Nat.mod_eq_of_lt (Nat.lt_of_le_of_lt short (by decide))]
  rw [fsrvWriteToTestcase, if_pos shmem]
  simp only [Fsrv.memcpyShmem, if_pos short, Option.map_some, Fsrv.received,
    shmem, if_true, isLen]
  rw [(spells_storeBytes _ _ _).loadBytes_eq]

/-- What a file holds in the end, if nothing stands behind what was written
unless it is the standard input. -/
theorem received_closeOut (file : fsrv.useShmemFuzz = false) {fd : OutFd}
    {bytes : List (BitVec 8)} (rest : List (BitVec 8))
    (content : fd.content = bytes ++ rest)
    (behind : fsrv.useStdin = false → rest = []) :
    (fsrv.closeOut fd bytes.length).received = bytes := by
  simp only [Fsrv.received, Fsrv.closeOut, file, Bool.false_eq_true, if_false]
  rw [content]
  split
  · rw [ftruncate, List.take_left, List.length_append,
      Nat.sub_eq_zero_of_le (Nat.le_add_right _ _), List.replicate_zero,
      List.append_nil]
  · rename_i created
    rw [behind (by simpa using created), List.append_nil]

theorem openOut_behind (size : Nat) :
    fsrv.useStdin = false → fsrv.openOut.content.drop size = [] := by
  intro created
  simp [Fsrv.openOut, created]

theorem fsrvWriteToTestcase_file (file : fsrv.useShmemFuzz = false)
    (buf : List (BitVec 8)) :
    (fsrvWriteToTestcase fsrv buf).map Fsrv.received =
      if buf.length < 2 ^ 31 then some buf else none := by
  rw [fsrvWriteToTestcase, if_neg (by simp [file]), ckWrite]
  split
  · rw [Option.map_some, Option.map_some,
      received_closeOut file (fsrv.openOut.content.drop buf.length)]
    · simp [Region.splice, Fsrv.openOut]
    · exact openOut_behind _
  · rfl

/-- The two writes of `write_with_gap`. -/
theorem gapToFile_parts (file : fsrv.useShmemFuzz = false)
    (head tail : List (BitVec 8)) :
    (gapToFile fsrv head tail none).map (fun fd =>
        (fsrv.closeOut fd (head ++ tail).length).received) =
      if head.length < 2 ^ 31 ∧ tail.length < 2 ^ 31 then
        some (head ++ tail)
      else none := by
  rw [gapToFile, ckWrite]
  by_cases headFits : head.length < 2 ^ 31
  · rw [if_pos headFits, Option.bind_some, ckWrite]
    by_cases tailFits : tail.length < 2 ^ 31
    · rw [if_pos tailFits, if_pos ⟨headFits, tailFits⟩, Option.map_some,
        received_closeOut file
          (fsrv.openOut.content.drop (head.length + tail.length))]
      · simp [Region.splice, Fsrv.openOut, List.drop_append]
      · exact openOut_behind _
    · rw [if_neg tailFits, if_neg fun fits => tailFits fits.2]
      rfl
  · rw [if_neg headFits, if_neg fun fits => headFits fits.1]
    rfl

theorem repeats_iff (memory : Buffer) (head tail : List (BitVec 8)) :
    ((memory.storeBytes 0 head).storeBytes 0 tail).loadBytes 0
        (head ++ tail).length = head ++ tail ↔
      Repeats memory head tail := by
  have found : ∀ i,
      some (((memory.storeBytes 0 head).storeBytes 0 tail) (0 + i)) =
        if i < tail.length then tail[i]?
        else if i < head.length then head[i]? else some (memory i) := by
    intro i
    rw [some_storeBytes, some_storeBytes, Nat.zero_add]
  rw [loadBytes_eq_iff]
  constructor
  · intro spells
    have agree : ∀ i < head.length + tail.length,
        (head ++ tail)[i]? =
          if i < tail.length then tail[i]?
          else if i < head.length then head[i]? else some (memory i) := by
      intro i inside
      rw [← found]
      have isByte := List.getElem?_eq_getElem (l := head ++ tail) (i := i)
        (by rwa [List.length_append])
      rw [isByte, spells i _ isByte]
    refine ⟨fun i inHead inTail => ?_, fun i behind inside => ?_⟩
    · have same := agree i (by omega)
      rw [List.getElem?_append_left inHead, if_pos inTail] at same
      exact same.symm
    · have same := agree i inside
      rw [List.getElem?_append_right behind, if_neg (Nat.not_lt.mpr behind)] at same
      exact same
  · intro repeats i byte isByte
    apply Option.some.inj
    rw [found, ← isByte]
    have inside := (List.getElem?_eq_some_iff.mp isByte).1
    rw [List.length_append] at inside
    by_cases inHead : i < head.length
    · rw [List.getElem?_append_left inHead, if_pos inHead]
      split
      · rename_i inTail
        exact repeats.1 i inHead inTail
      · rfl
    · rw [List.getElem?_append_right (Nat.le_of_not_lt inHead), if_neg inHead]
      exact (repeats.2 i (Nat.le_of_not_lt inHead) inside).symm

theorem gapToShmem_parts (shmem : fsrv.useShmemFuzz = true)
    (isU32 : (head ++ tail).length < 2 ^ 32) :
    ((gapToShmem fsrv head tail none).map fun fsrv =>
        { fsrv with
          shmemFuzzLen := BitVec.ofNat 32 (head ++ tail).length }).map
            Fsrv.received =
        some ((head ++ tail).take maxFile) ↔
      (head ++ tail).length ≤ maxFile ∧ Repeats fsrv.shmemFuzz head tail := by
  have isLen : (BitVec.ofNat 32 (head ++ tail).length).toNat =
      (head ++ tail).length := by
    rw [BitVec.toNat_ofNat, Nat.mod_eq_of_lt isU32]
  have split : (head ++ tail).length = head.length + tail.length := List.length_append
  rw [gapToShmem, Fsrv.memcpyShmem]
  by_cases headFits : head.length ≤ maxFile
  · rw [if_pos headFits, Option.bind_some, Fsrv.memcpyShmem]
    by_cases tailFits : tail.length ≤ maxFile
    · rw [if_pos tailFits]
      simp only [Option.map_some, Fsrv.received, shmem, if_true, isLen,
        Option.some.injEq]
      by_cases fits : (head ++ tail).length ≤ maxFile
      · rw [List.take_of_length_le fits, repeats_iff]
        exact (and_iff_right fits).symm
      · refine ⟨fun same => ?_, fun both => absurd both.1 fits⟩
        have lengths := congrArg List.length same
        rw [length_loadBytes, List.length_take] at lengths
        omega
    · rw [if_neg tailFits]
      refine ⟨nofun, fun both => ?_⟩
      have fits := both.1
      omega
  · rw [if_neg headFits]
    refine ⟨nofun, fun both => ?_⟩
    have fits := both.1
    omega

theorem gapToShmem_processed (shmem : fsrv.useShmemFuzz = true)
    (newMem : List (BitVec 8)) :
    ((gapToShmem fsrv head tail (some newMem)).map fun fsrv =>
        { fsrv with shmemFuzzLen := BitVec.ofNat 32 newMem.length }).map
          Fsrv.received =
      if newMem.length ≤ maxFile then some newMem else none := by
  rw [gapToShmem, Fsrv.memcpyShmem]
  split
  · rename_i fits
    have isLen : (BitVec.ofNat 32 newMem.length).toNat = newMem.length := by
      rw [BitVec.toNat_ofNat, Nat.mod_eq_of_lt (Nat.lt_of_le_of_lt fits (by decide))]
    simp only [Option.map_some, Fsrv.received, shmem, if_true, isLen]
    rw [(spells_storeBytes _ _ _).loadBytes_eq]
  · rfl

theorem processed_agrees_iff {newSize : Nat} :
    (((postProcessTrimmed mutators mem).map some).bind fun processed =>
        let newSize := (processed.map List.length).getD newSize
        if fsrv.useShmemFuzz then
          (gapToShmem fsrv head tail processed).map fun fsrv =>
            { fsrv with shmemFuzzLen := BitVec.ofNat 32 newSize }
        else
          (gapToFile fsrv head tail processed).map fun fd =>
            fsrv.closeOut fd newSize).map Fsrv.received =
        ((postProcess mutators mem).bind (fsrvWriteToTestcase fsrv)).map
          Fsrv.received ↔
      (∀ result, postProcess mutators mem = some result →
          fsrv.useShmemFuzz = false ∧ 2 ^ 31 ≤ result.length) ∨
        (NonemptyResults mutators mem ∧
          (fsrv.useShmemFuzz = true → ∀ result,
            postProcess mutators mem = some result → result.length ≤ maxFile)) := by
  by_cases nonempty : NonemptyResults mutators mem
  · rw [postProcess_trimmed nonempty]
    cases processed : postProcess mutators mem with
    | none => exact iff_of_true rfl (.inl nofun)
    | some result =>
        simp only [Option.map_some, Option.bind_some, Option.getD_some,
          Option.some.injEq, forall_eq']
        cases shmem : fsrv.useShmemFuzz with
        | true =>
            simp only [if_true]
            rw [gapToShmem_processed shmem, fsrvWriteToTestcase_shmem shmem]
            split
            · rename_i fits
              rw [List.take_of_length_le fits]
              exact iff_of_true rfl (.inr ⟨nonempty, fun _ => fits⟩)
            · rename_i long
              refine iff_of_false nofun ?_
              rintro (⟨file, _⟩ | ⟨_, fits⟩)
              · cases file
              · exact long (fits trivial)
        | false =>
            simp only [Bool.false_eq_true, if_false]
            refine iff_of_true ?_ (.inr ⟨nonempty, nofun⟩)
            rw [fsrvWriteToTestcase, if_neg (by simp [shmem])]
            rfl
  · rw [postProcessTrimmed_empty nonempty, Option.map_none, Option.bind_none,
      Option.map_none]
    simp only [nonempty, false_and, or_false]
    cases processed : postProcess mutators mem with
    | none => exact iff_of_true rfl nofun
    | some result =>
        simp only [Option.bind_some, Option.some.injEq, forall_eq']
        cases shmem : fsrv.useShmemFuzz with
        | true =>
            rw [fsrvWriteToTestcase_shmem shmem]
            exact iff_of_false nofun nofun
        | false =>
            rw [fsrvWriteToTestcase_file shmem]
            split
            · exact iff_of_false nofun (by omega)
            · exact iff_of_true rfl ⟨rfl, by omega⟩

/-- `write_with_gap` delivers what `write_to_testcase` delivers for the test case
without the gap, or ends the program where that does, exactly under the
condition. -/
theorem writeWithGap_agrees_iff (fsrv : Fsrv)
    (mutators : List (Option PostProcess)) {mem : List (BitVec 8)}
    {skipAt skipLen : Nat} (isU32 : mem.length < 2 ^ 32)
    (inside : skipAt + skipLen ≤ mem.length) :
    (writeWithGap fsrv mutators mem skipAt skipLen).map Fsrv.received =
        (writeToTestcase fsrv mutators
          (withoutGap mem skipAt skipLen)).map Fsrv.received ↔
      GapDelivered fsrv mutators mem skipAt skipLen := by
  have length : (withoutGap mem skipAt skipLen).length = mem.length - skipLen := by
    rw [withoutGap, List.length_append, List.length_take, List.length_drop]
    omega
  unfold writeWithGap writeToTestcase trimmedMem GapDelivered
  cases installed : mutators.any Option.isSome with
  | true =>
      simp only [if_true]
      exact processed_agrees_iff
  | false =>
      simp only [Bool.false_eq_true, if_false, Option.bind_some,
        postProcess_skipped installed, Option.map_none, Option.getD_none]
      rw [← length]
      cases shmem : fsrv.useShmemFuzz with
      | true =>
          simp only [if_true]
          rw [fsrvWriteToTestcase_shmem shmem]
          exact gapToShmem_parts shmem (by
            change (withoutGap mem skipAt skipLen).length < 2 ^ 32
            omega)
      | false =>
          simp only [Bool.false_eq_true, if_false]
          rw [fsrvWriteToTestcase_file shmem, Option.map_map]
          refine (Eq.congr_left (gapToFile_parts shmem _ _)).trans ?_
          rw [List.length_take_of_le (by omega), List.length_drop, length]
          have same : mem.take skipAt ++ mem.drop (skipAt + skipLen) =
              withoutGap mem skipAt skipLen := rfl
          rw [same]
          by_cases parts : skipAt < 2 ^ 31 ∧ mem.length - (skipAt + skipLen) < 2 ^ 31
          · rw [if_pos parts]
            split
            · exact iff_of_true rfl (by omega)
            · exact iff_of_false nofun (by omega)
          · rw [if_neg parts]
            split
            · exact iff_of_false nofun (by omega)
            · exact iff_of_true rfl (by omega)

end Agreement

/-- Delivery through the standard input, or through the shared memory. -/
def emptyFsrv (useShmemFuzz : Bool) : Fsrv where
  useShmemFuzz := useShmemFuzz
  useStdin := true
  shmemFuzz := fun _ => 0#8
  shmemFuzzLen := 0
  outFile := []

theorem writeWithGap_agrees_iff_stdin :
    (writeWithGap (emptyFsrv false) [] [1#8, 2#8, 3#8] 1 1).map
          Fsrv.received =
        (writeToTestcase (emptyFsrv false) []
          (withoutGap [1#8, 2#8, 3#8] 1 1)).map Fsrv.received ↔
      GapDelivered (emptyFsrv false) [] [1#8, 2#8, 3#8] 1 1 :=
  writeWithGap_agrees_iff (emptyFsrv false) [] (by decide) (by decide)

/-- The byte behind the gap is copied over the byte before it. -/
theorem writeWithGap_shmem :
    (writeWithGap (emptyFsrv true) [] [1#8, 2#8, 3#8] 1 1).map Fsrv.received =
        some [3#8, 0#8] ∧
      (writeToTestcase (emptyFsrv true) []
        (withoutGap [1#8, 2#8, 3#8] 1 1)).map Fsrv.received =
        some [1#8, 3#8] :=
  ⟨rfl, rfl⟩

end AFLPlusPlus.Trim

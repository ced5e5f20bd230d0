import AFLPlusPlus.Dictionary.ExtrasDuplicates

/-!
# Unicode strings among the extras

`deunicode_extras` guesses from the places of the zero bytes whether a token is
a string in UTF-16 or UTF-32, and appends the string itself.
-/

namespace AFLPlusPlus.Dictionary

/-- `z1` to `z4`: the zeros at even and odd places, and at those that leave 2
and 3 modulo 4. -/
structure Zeros where
  z1 : Nat
  z2 : Nat
  z3 : Nat
  z4 : Nat

/-- One round of the loop that counts, of which two cases fall through. -/
def Zeros.see (zeros : Zeros) (j : Nat) (byte : BitVec 8) : Zeros :=
  if byte ≠ 0#8 then zeros
  else if j % 4 = 2 then
    { zeros with z3 := zeros.z3 + 1, z1 := zeros.z1 + 1 }
  else if j % 4 = 0 then { zeros with z1 := zeros.z1 + 1 }
  else if j % 4 = 3 then
    { zeros with z4 := zeros.z4 + 1, z2 := zeros.z2 + 1 }
  else { zeros with z2 := zeros.z2 + 1 }

def countZeros : Nat → Text → Zeros → Zeros
  | _, [], zeros => zeros
  | j, byte :: rest, zeros => countZeros (j + 1) rest (zeros.see j byte)

def SkipsLen (len : Nat) : Prop := len < 6 ∨ 64 < len ∨ len % 2 ≠ 0

instance (len : Nat) : Decidable (SkipsLen len) := inferInstanceAs (Decidable (_ ∨ _))

namespace Zeros

/-- Neither half of a token is all zeros, or both are. -/
def Skips (zeros : Zeros) (len : Nat) : Prop :=
  (zeros.z1 < len / 2 ∧ zeros.z2 < len / 2) ∨ zeros.z1 + zeros.z2 = len

/-- It may also be 32 bit unicode. -/
def Wide (zeros : Zeros) (len : Nat) : Prop :=
  let quarter := len / 2 / 2
  len % 4 = 0 ∧ 12 ≤ len ∧ (zeros.z3 = quarter ∨ zeros.z4 = quarter) ∧
    zeros.z1 + zeros.z2 = quarter * 3

instance (zeros : Zeros) (len : Nat) : Decidable (zeros.Skips len) :=
  inferInstanceAs (Decidable (_ ∨ _))

instance (zeros : Zeros) (len : Nat) : Decidable (zeros.Wide len) :=
  inferInstanceAs (Decidable (_ ∧ _))

/-- The bytes that are kept of a string of 32 bit. -/
def keeps32 (zeros : Zeros) (len j : Nat) : Bool :=
  let half := len / 2
  let quarter := half / 2
  if zeros.z4 < quarter then j % 4 = 3
  else if zeros.z3 < quarter then j % 4 = 2
  else if zeros.z2 < half then j % 4 = 1
  else j % 4 = 0

def keeps16 (zeros : Zeros) (len j : Nat) : Bool :=
  if zeros.z1 < len / 2 then j % 2 = 0 else j % 2 = 1

end Zeros

/-- The loop that copies bytes to `buf[k++]`. -/
def pick (keeps : Nat → Bool) : Nat → Text → Text → Nat → Except Unit (Text × Nat)
  | _, [], buf, k => .ok (buf, k)
  | j, byte :: rest, buf, k =>
      if keeps j then
        (Region.write buf k [byte]).elim (.error ()) fun buf =>
          pick keeps (j + 1) rest buf (k + 1)
      else pick keeps (j + 1) rest buf k

namespace Extras

/-- The kept bytes of entry `i` become a token. -/
def addPicked (keeps : Nat → Bool) (i : Nat) (state : Extras) (buf : Text) :
    Except Unit (Extras × Text) := do
  let entry ← state.slot i
  let data ← state.load entry.data entry.len
  let (buf, k) ← pick keeps 0 data buf 0
  .ok (state.addExtraNocheck (buf.take k), buf)

/-- One round of the loop over the entries. -/
def deunicodeRound (i : Nat) (current : Extras × Text) :
    Except Unit (Extras × Text) := do
  let entry ← current.1.slot i
  if SkipsLen entry.len then .ok current
  else
    let data ← current.1.load entry.data entry.len
    let zeros := countZeros 0 data ⟨0, 0, 0, 0⟩
    if zeros.Skips entry.len then .ok current
    else
      let current ←
        if zeros.Wide entry.len then
          addPicked (zeros.keeps32 entry.len) i current.1 current.2
        else .ok current
      addPicked (zeros.keeps16 entry.len) i current.1 current.2

/-- `deunicode_extras`, with what stands in `buf` at first. -/
def deunicodeExtras (qsort : (ExtraData → ExtraData → Int) →
    List ExtraData → List ExtraData) (buf : Vector (BitVec 8) 64)
    (state : Extras) : Except Unit Extras :=
  if state.extrasCnt = 0 then .ok state
  else do
    let (state, _) ←
      forRangeM deunicodeRound state.extrasCnt (state, buf.toList)
    .ok (state.sort qsort)

end Extras

/-- The bytes at the places that are kept. -/
def kept (keeps : Nat → Bool) : Nat → Text → Text
  | _, [] => []
  | j, byte :: rest =>
      if keeps j then byte :: kept keeps (j + 1) rest
      else kept keeps (j + 1) rest

/-- The strings a token may stand for. -/
def decodings (data : Text) : List Text :=
  let zeros := countZeros 0 data ⟨0, 0, 0, 0⟩
  if SkipsLen data.length ∨ zeros.Skips data.length then []
  else
    (if zeros.Wide data.length then
        [kept (zeros.keeps32 data.length) 0 data]
      else []) ++ [kept (zeros.keeps16 data.length) 0 data]

variable (keeps : Nat → Bool) (j : Nat) (data : Text)

theorem length_kept_le : (kept keeps j data).length ≤ data.length := by
  induction data generalizing j with
  | nil => exact Nat.le_refl 0
  | cons byte rest induction =>
      have shorter := induction (j + 1)
      rw [kept, List.length_cons]
      split
      · exact Nat.succ_le_succ shorter
      · exact Nat.le_succ_of_le shorter

/-- What fits behind `buf[k]` is copied there. -/
theorem pick_kept (keeps : Nat → Bool) (j : Nat) (data : Text) {buf : Text}
    {k : Nat} (room : k + data.length ≤ buf.length) :
    ∃ out, pick keeps j data buf k = .ok (out, k + (kept keeps j data).length) ∧
      out.length = buf.length ∧
      out.take (k + (kept keeps j data).length) = buf.take k ++ kept keeps j data := by
  induction data generalizing j buf k with
  | nil => exact ⟨buf, rfl, rfl, (List.append_nil _).symm⟩
  | cons byte rest induction =>
      rw [List.length_cons] at room
      rw [pick, kept]
      split
      · have inside : k + [byte].length ≤ buf.length := by
          rw [List.length_singleton]
          omega
        have length := Region.length_splice inside
        have seen := @Region.take_splice_end _ buf [byte] k
          (Nat.le_of_add_right_le inside)
        obtain ⟨out, picked, outLength, outSeen⟩ :=
          @induction (j + 1) (Region.splice buf k [byte]) (k + 1) (by omega)
        rw [List.length_singleton] at seen
        rw [seen, List.append_assoc, List.singleton_append] at outSeen
        have order : k + ((kept keeps (j + 1) rest).length + 1) =
            k + 1 + (kept keeps (j + 1) rest).length := by omega
        rw [Region.write_eq inside, List.length_cons, order]
        exact ⟨out, picked, outLength.trans length, outSeen⟩
      · exact induction (j + 1) (by omega)

variable {state : Extras} {len width : Nat} {string : Text} {zeros : Zeros}

namespace Extras

section

variable {i : Nat} {token : Text} (valid : state.Valid)
    (found : state.tokens[i]? = some token)
include valid found

/-- The kept bytes of a token that fits into the buffer are appended. -/
theorem addPicked_spec {buf : Text} (short : token.length ≤ 64) (size : buf.length = 64) :
    ∃ next out, addPicked keeps i state buf = .ok (next, out) ∧
      out.length = 64 ∧ next.Valid ∧
      next.tokens = state.tokens ++ [kept keeps 0 token] := by
  obtain ⟨entry, entrySlot, entryLen, entryBytes⟩ := valid.entry_of_token found
  obtain ⟨out, picked, length, seen⟩ := @pick_kept keeps 0 token buf 0 (by omega)
  rw [Nat.zero_add, List.take_zero, List.nil_append] at seen
  have shorter := length_kept_le keeps 0 token
  have appended := tokens_count_place valid (kept keeps 0 token)
    (kept keeps 0 token).length
  rw [List.take_length] at appended
  refine ⟨state.addExtraNocheck (kept keeps 0 token), out, ?_,
    length.trans size, ?_, appended⟩
  · rw [addPicked, entrySlot, ok_bind, entryBytes, ok_bind, picked, ok_bind]
    simp only [Nat.zero_add, seen]
  · exact valid.count_place (Nat.le_refl _) (by rw [maxDictFile]; omega)

/-- What one round of the loop appends. -/
theorem deunicodeRound_spec {buf : Text} (size : buf.length = 64) :
    ∃ next out, deunicodeRound i (state, buf) = .ok (next, out) ∧
      out.length = 64 ∧ next.Valid ∧
      next.tokens = state.tokens ++ decodings token := by
  obtain ⟨entry, entrySlot, entryLen, entryBytes⟩ := valid.entry_of_token found
  rw [deunicodeRound, entrySlot, ok_bind, decodings]
  rw [entryBytes, entryLen]
  by_cases skipsLen : SkipsLen token.length
  · refine ⟨state, buf, if_pos skipsLen, size, valid, ?_⟩
    rw [if_pos (.inl skipsLen), List.append_nil]
  rw [if_neg skipsLen, ok_bind]
  by_cases skips : (countZeros 0 token ⟨0, 0, 0, 0⟩).Skips token.length
  · refine ⟨state, buf, if_pos skips, size, valid, ?_⟩
    rw [if_pos (.inr skips), List.append_nil]
  rw [if_neg skips, if_neg (not_or_intro skipsLen skips)]
  have short : token.length ≤ 64 := by
    rw [SkipsLen] at skipsLen
    omega
  by_cases wide : (countZeros 0 token ⟨0, 0, 0, 0⟩).Wide token.length
  · obtain ⟨middle, buf', added, size', valid', appended⟩ :=
      addPicked_spec ((countZeros 0 token ⟨0, 0, 0, 0⟩).keeps32 token.length)
        valid found short size
    have found' : middle.tokens[i]? = some token := by
      obtain ⟨inside, _⟩ := List.getElem?_eq_some_iff.mp found
      rw [appended, List.getElem?_append_left inside, found]
    obtain ⟨next, out, addedNext, outSize, nextValid, nextAppended⟩ :=
      addPicked_spec ((countZeros 0 token ⟨0, 0, 0, 0⟩).keeps16 token.length)
        valid' found' short size'
    rw [if_pos wide, if_pos wide, added, ok_bind]
    refine ⟨next, out, addedNext, outSize, nextValid, ?_⟩
    rw [nextAppended, appended, List.append_assoc]
  · obtain ⟨next, out, added, outSize, nextValid, appended⟩ :=
      addPicked_spec ((countZeros 0 token ⟨0, 0, 0, 0⟩).keeps16 token.length)
        valid found short size
    rw [if_neg wide, if_neg wide, ok_bind]
    exact ⟨next, out, added, outSize, nextValid, appended⟩

end

/-- What holds after `i` rounds: the strings of the entries passed stand behind
the tokens there were. -/
structure Deunicoded (state : Extras) (i : Nat) (current : Extras × Text) : Prop where
  size : current.2.length = 64
  valid : current.1.Valid
  appended : current.1.tokens = state.tokens ++ (state.tokens.take i).flatMap decodings

theorem Deunicoded.round {state : Extras} {i : Nat} {current : Extras × Text}
    (deunicoded : Deunicoded state i current)
    (inside : i < state.tokens.length) :
    Yields (fun _ => False) (Deunicoded state (i + 1))
      (deunicodeRound i current) := by
  obtain ⟨current, buf⟩ := current
  obtain ⟨size, valid, appended⟩ := deunicoded
  have found : state.tokens[i]? = some state.tokens[i] :=
    List.getElem?_eq_getElem inside
  have foundNow : current.tokens[i]? = some state.tokens[i] := by
    rw [appended, List.getElem?_append_left inside, found]
  obtain ⟨next, out, ran, outSize, nextValid, more⟩ :=
    deunicodeRound_spec valid foundNow size
  rw [ran]
  refine ⟨outSize, nextValid, more.trans ?_⟩
  rw [appended, List.append_assoc, List.take_add_one, found,
    List.flatMap_append, Option.toList_some, List.flatMap_singleton]

/-- The strings that the tokens may stand for are added. -/
theorem Valid.deunicodeExtras {qsort : (ExtraData → ExtraData → Int) →
      List ExtraData → List ExtraData} (sorts : Qsort.Sorts qsort) (valid : state.Valid)
    (buf : Vector (BitVec 8) 64) :
    ∃ next, state.deunicodeExtras qsort buf = .ok next ∧ next.Valid ∧
      next.tokens.Perm (state.tokens ++ state.tokens.flatMap decodings) ∧
      (state.extrasCnt ≠ 0 → SortedByLen next.tokens) := by
  have length := valid.length_tokens
  rw [Extras.deunicodeExtras]
  by_cases none : state.extrasCnt = 0
  · refine ⟨state, if_pos none, valid, ?_, fun some => absurd none some⟩
    rw [none, List.length_eq_zero_iff] at length
    rw [length]
    exact .refl _
  have start : Deunicoded state 0 (state, buf.toList) :=
    ⟨buf.length_toList, valid, (List.append_nil _).symm⟩
  have loop := forRangeM_yields deunicodeRound (Deunicoded state) _ start
    state.extrasCnt fun i inside current deunicoded =>
      deunicoded.round (Nat.lt_of_lt_of_eq inside length.symm)
  obtain ⟨⟨next, out⟩, ran, _, nextValid, appended⟩ := loop.returns
  obtain ⟨sortedValid, perm, order⟩ := nextValid.sort sorts
  rw [← length, List.take_length] at appended
  refine ⟨next.sort qsort, ?_, sortedValid, perm.trans (.of_eq appended),
    fun _ => order⟩
  rw [if_neg none, ran, ok_bind]

end Extras

/-- A code unit of `width` bytes, from the least or the most significant byte
on. -/
def codeUnit (width : Nat) (bigEndian : Bool) (c : BitVec 8) : Text :=
  if bigEndian then List.replicate (width - 1) 0#8 ++ [c]
  else c :: List.replicate (width - 1) 0#8

/-- A string of ASCII in UTF-16 or UTF-32. -/
def unicode (width : Nat) (bigEndian : Bool) (string : Text) : Text :=
  string.flatMap (codeUnit width bigEndian)

theorem kept_append (rest : Text) :
    kept keeps j (data ++ rest) =
      kept keeps j data ++ kept keeps (j + data.length) rest := by
  induction data generalizing j with
  | nil => rfl
  | cons byte data induction =>
      have order : j + (data.length + 1) = j + 1 + data.length := by omega
      rw [List.cons_append, kept, kept, induction, List.length_cons, order]
      split
      · rfl
      · rfl

theorem kept_congr {keeps other : Nat → Bool} {j k : Nat}
    (same : ∀ i, keeps (j + i) = other (k + i)) (data : Text) :
    kept keeps j data = kept other k data := by
  induction data generalizing j k with
  | nil => rfl
  | cons byte data induction =>
      have here := same 0
      rw [Nat.add_zero, Nat.add_zero] at here
      have next : ∀ i, keeps (j + 1 + i) = other (k + 1 + i) := by
        intro i
        rw [Nat.add_assoc, Nat.add_assoc]
        exact same (1 + i)
      rw [kept, kept, here, induction next]

/-- Places that are kept in every code unit alike are kept unit by unit. -/
theorem kept_units {keeps : Nat → Bool} (periodic : ∀ j, keeps (width + j) = keeps j)
    {units : BitVec 8 → Text} (widths : ∀ c, (units c).length = width) (string : Text) :
    kept keeps 0 (string.flatMap units) =
      string.flatMap fun c => kept keeps 0 (units c) := by
  induction string with
  | nil => rfl
  | cons c string induction =>
      have shift : kept keeps (0 + width) (string.flatMap units) =
          kept keeps 0 (string.flatMap units) :=
        kept_congr (fun i => by
          rw [Nat.zero_add, Nat.zero_add, periodic]) _
      rw [List.flatMap_cons, List.flatMap_cons, kept_append, widths, shift, induction]

theorem Zeros.see_zero (zeros : Zeros) (j : Nat) :
    zeros.see j 0#8 =
      ⟨zeros.z1 + (if j % 2 = 0 then 1 else 0),
        zeros.z2 + (if j % 2 = 1 then 1 else 0),
        zeros.z3 + (if j % 4 = 2 then 1 else 0),
        zeros.z4 + (if j % 4 = 3 then 1 else 0)⟩ := by
  have places : j % 4 = 0 ∧ j % 2 = 0 ∨ j % 4 = 1 ∧ j % 2 = 1 ∨
      j % 4 = 2 ∧ j % 2 = 0 ∨ j % 4 = 3 ∧ j % 2 = 1 := by omega
  rcases places with ⟨four, two⟩ | ⟨four, two⟩ | ⟨four, two⟩ | ⟨four, two⟩
  all_goals simp [Zeros.see, four, two]

/-- The counters are the zeros at the places they are for. -/
theorem countZeros_eq (zeros : Zeros) :
    countZeros j data zeros =
      ⟨zeros.z1 + (kept (fun j => j % 2 = 0) j data).count 0#8,
        zeros.z2 + (kept (fun j => j % 2 = 1) j data).count 0#8,
        zeros.z3 + (kept (fun j => j % 4 = 2) j data).count 0#8,
        zeros.z4 + (kept (fun j => j % 4 = 3) j data).count 0#8⟩ := by
  induction data generalizing j zeros with
  | nil => rfl
  | cons byte data induction =>
      have more : ∀ place : Nat → Prop, [DecidablePred place] →
          (kept (fun j => place j) j (byte :: data)).count 0#8 =
            (if byte = 0#8 ∧ place j then 1 else 0) +
              (kept (fun j => place j) (j + 1) data).count 0#8 := by
        intro place _
        rw [kept]
        by_cases here : place j
        · rw [if_pos (decide_eq_true here), List.count_cons, Nat.add_comm]
          simp [here]
        · simp [here]
      rw [countZeros, induction, more (· % 2 = 0), more (· % 2 = 1),
        more (· % 4 = 2), more (· % 4 = 3)]
      by_cases zero : byte = 0#8
      · rw [zero, Zeros.see_zero]
        simp only [Nat.add_assoc, true_and]
      · rw [Zeros.see, if_pos zero]
        simp only [zero, false_and, if_false, Nat.zero_add]

theorem count_units {units : BitVec 8 → Text} {number : Nat}
    (same : ∀ c ∈ string, (units c).count 0#8 = number) :
    (string.flatMap units).count 0#8 = number * string.length := by
  induction string with
  | nil => rfl
  | cons c string induction =>
      rw [List.forall_mem_cons] at same
      rw [List.flatMap_cons, List.count_append, same.1, induction same.2,
        List.length_cons, Nat.mul_succ, Nat.add_comm]

theorem length_codeUnit (positive : 0 < width) (bigEndian : Bool) (c : BitVec 8) :
    (codeUnit width bigEndian c).length = width := by
  unfold codeUnit
  split
  · rw [List.length_append, List.length_replicate, List.length_singleton]
    omega
  · rw [List.length_cons, List.length_replicate]
    omega

theorem length_unicode (positive : 0 < width) (bigEndian : Bool) (string : Text) :
    (unicode width bigEndian string).length = width * string.length := by
  induction string with
  | nil => rfl
  | cons c string induction =>
      rw [unicode] at induction
      rw [unicode, List.flatMap_cons, List.length_append,
        length_codeUnit positive, induction, List.length_cons, Nat.mul_succ,
        Nat.add_comm]

theorem kept_unicode {m : Nat} (r : Nat) (divides : m ∣ width) (positive : 0 < width)
    (bigEndian : Bool) (string : Text) :
    kept (fun j => j % m = r) 0 (unicode width bigEndian string) =
      string.flatMap fun c =>
        kept (fun j => j % m = r) 0 (codeUnit width bigEndian c) := by
  refine kept_units (fun j => ?_) (length_codeUnit positive bigEndian) string
  obtain ⟨times, rfl⟩ := divides
  rw [Nat.mul_add_mod]

/-- The zeros at some places of a string, by those of one code unit. -/
theorem count_unicode {width m : Nat} (r number : Nat) (divides : m ∣ width)
    (positive : 0 < width) {bigEndian : Bool} {string : Text}
    (nonzero : ∀ c ∈ string, c ≠ 0#8)
    (unit : ∀ c ≠ 0#8, (kept (fun j => j % m = r) 0
      (codeUnit width bigEndian c)).count 0#8 = number) :
    (kept (fun j => j % m = r) 0
      (unicode width bigEndian string)).count 0#8 = number * string.length := by
  rw [kept_unicode r divides positive]
  exact count_units fun c mem => unit c (nonzero c mem)

theorem flatMap_units (string : Text) : (string.flatMap fun c => [c]) = string := by
  induction string with
  | nil => rfl
  | cons c string induction => rw [List.flatMap_cons, induction]; rfl

/-- The four counters of a token. -/
theorem zeros_eq :
    (countZeros 0 data ⟨0, 0, 0, 0⟩).z1 =
        (kept (fun j => j % 2 = 0) 0 data).count 0#8 ∧
      (countZeros 0 data ⟨0, 0, 0, 0⟩).z2 =
        (kept (fun j => j % 2 = 1) 0 data).count 0#8 ∧
      (countZeros 0 data ⟨0, 0, 0, 0⟩).z3 =
        (kept (fun j => j % 4 = 2) 0 data).count 0#8 ∧
      (countZeros 0 data ⟨0, 0, 0, 0⟩).z4 =
        (kept (fun j => j % 4 = 3) 0 data).count 0#8 := by
  rw [countZeros_eq]
  exact ⟨Nat.zero_add _, Nat.zero_add _, Nat.zero_add _, Nat.zero_add _⟩

theorem keeps16_even (less : zeros.z1 < len / 2) :
    zeros.keeps16 len = fun j => decide (j % 2 = 0) :=
  funext fun _ => if_pos less

theorem keeps16_odd (all : ¬zeros.z1 < len / 2) :
    zeros.keeps16 len = fun j => decide (j % 2 = 1) :=
  funext fun _ => if_neg all

theorem keeps32_last (less : zeros.z4 < len / 2 / 2) :
    zeros.keeps32 len = fun j => decide (j % 4 = 3) :=
  funext fun _ => if_pos less

theorem keeps32_first (fourth : ¬zeros.z4 < len / 2 / 2) (third : ¬zeros.z3 < len / 2 / 2)
    (second : ¬zeros.z2 < len / 2) :
    zeros.keeps32 len = fun j => decide (j % 4 = 0) :=
  funext fun _ => (if_neg fourth).trans ((if_neg third).trans (if_neg second))

theorem mem_decodings_keeps16 {data : Text} {zeros : Zeros}
    (counted : countZeros 0 data ⟨0, 0, 0, 0⟩ = zeros)
    (admitted : ¬SkipsLen data.length) (half : ¬zeros.Skips data.length) :
    kept (zeros.keeps16 data.length) 0 data ∈ decodings data := by
  rw [decodings, counted, if_neg (not_or_intro admitted half)]
  exact List.mem_append_right _ (List.mem_singleton.mpr rfl)

theorem mem_decodings_keeps32 {data : Text} {zeros : Zeros}
    (counted : countZeros 0 data ⟨0, 0, 0, 0⟩ = zeros)
    (admitted : ¬SkipsLen data.length) (half : ¬zeros.Skips data.length)
    (wide : zeros.Wide data.length) :
    kept (zeros.keeps32 data.length) 0 data ∈ decodings data := by
  rw [decodings, counted, if_neg (not_or_intro admitted half), if_pos wide]
  exact List.mem_append_left _ (List.mem_singleton.mpr rfl)

theorem mem_decodings_utf16 (bigEndian : Bool) (nonzero : ∀ c ∈ string, c ≠ 0#8)
    (long : 6 ≤ 2 * string.length) (short : 2 * string.length ≤ 64) :
    string ∈ decodings (unicode 2 bigEndian string) := by
  have length := length_unicode Nat.two_pos bigEndian string
  have divides : 2 ∣ 2 := Nat.dvd_refl 2
  have read := fun r => kept_unicode r divides Nat.two_pos bigEndian string
  have count := fun r number => @count_unicode 2 2 r number divides
    Nat.two_pos bigEndian string nonzero
  obtain ⟨z1, z2, -, -⟩ := zeros_eq (unicode 2 bigEndian string)
  have admitted : ¬SkipsLen (unicode 2 bigEndian string).length := by
    rw [length, SkipsLen]
    omega
  have keeps16 := @mem_decodings_keeps16 _ _
    (Eq.refl (countZeros 0 (unicode 2 bigEndian string) ⟨0, 0, 0, 0⟩))
    admitted
  generalize countZeros 0 (unicode 2 bigEndian string) ⟨0, 0, 0, 0⟩ = zeros
    at z1 z2 keeps16
  rw [length] at keeps16
  cases bigEndian with
  | false =>
      rw [count 0 0 fun c other => by simp [kept, codeUnit, other]] at z1
      rw [count 1 1 fun c _ => by simp [kept, codeUnit]] at z2
      rw [keeps16_even (by omega), read] at keeps16
      have found := keeps16 (by rw [Zeros.Skips]; omega)
      rwa [show (string.flatMap fun c => kept (fun j => j % 2 = 0) 0
        (codeUnit 2 false c)) = string from flatMap_units string] at found
  | true =>
      rw [count 0 1 fun c _ => by simp [kept, codeUnit]] at z1
      rw [count 1 0 fun c other => by simp [kept, codeUnit, other]] at z2
      rw [keeps16_odd (by omega), read] at keeps16
      have found := keeps16 (by rw [Zeros.Skips]; omega)
      rwa [show (string.flatMap fun c => kept (fun j => j % 2 = 1) 0
        (codeUnit 2 true c)) = string from flatMap_units string] at found

theorem mem_decodings_utf32 (bigEndian : Bool) (nonzero : ∀ c ∈ string, c ≠ 0#8)
    (long : 12 ≤ 4 * string.length) (short : 4 * string.length ≤ 64) :
    string ∈ decodings (unicode 4 bigEndian string) := by
  have four : 0 < 4 := by decide
  have length := length_unicode four bigEndian string
  have divides2 : 2 ∣ 4 := by decide
  have divides4 : 4 ∣ 4 := Nat.dvd_refl 4
  have read := fun r => kept_unicode r divides4 four bigEndian string
  have count2 := fun r number => @count_unicode 4 2 r number divides2
    four bigEndian string nonzero
  have count4 := fun r number => @count_unicode 4 4 r number divides4
    four bigEndian string nonzero
  obtain ⟨z1, z2, z3, z4⟩ := zeros_eq (unicode 4 bigEndian string)
  have admitted : ¬SkipsLen (unicode 4 bigEndian string).length := by
    rw [length, SkipsLen]
    omega
  have keeps32 := @mem_decodings_keeps32 _ _
    (Eq.refl (countZeros 0 (unicode 4 bigEndian string) ⟨0, 0, 0, 0⟩))
    admitted
  generalize countZeros 0 (unicode 4 bigEndian string) ⟨0, 0, 0, 0⟩ = zeros
    at z1 z2 z3 z4 keeps32
  rw [length] at keeps32
  cases bigEndian with
  | false =>
      rw [count2 0 1 fun c other => by simp [kept, codeUnit, other]] at z1
      rw [count2 1 2 fun c _ => by simp [kept, codeUnit]] at z2
      rw [count4 2 1 fun c _ => by simp [kept, codeUnit]] at z3
      rw [count4 3 1 fun c _ => by simp [kept, codeUnit]] at z4
      rw [keeps32_first (by omega) (by omega) (by omega), read] at keeps32
      have found := keeps32 (by rw [Zeros.Skips]; omega)
        (by rw [Zeros.Wide]; omega)
      rwa [show (string.flatMap fun c => kept (fun j => j % 4 = 0) 0
        (codeUnit 4 false c)) = string from flatMap_units string] at found
  | true =>
      rw [count2 0 2 fun c _ => by simp [kept, codeUnit]] at z1
      rw [count2 1 1 fun c other => by simp [kept, codeUnit, other]] at z2
      rw [count4 2 1 fun c _ => by simp [kept, codeUnit]] at z3
      rw [count4 3 0 fun c other => by simp [kept, codeUnit, other]] at z4
      rw [keeps32_last (by omega), read] at keeps32
      have found := keeps32 (by rw [Zeros.Skips]; omega)
        (by rw [Zeros.Wide]; omega)
      rwa [show (string.flatMap fun c => kept (fun j => j % 4 = 3) 0
        (codeUnit 4 true c)) = string from flatMap_units string] at found

/-- No token is lost, and every string that stands in UTF-16 or UTF-32 among
the tokens is added, within the lengths that are looked at. -/
theorem deunicodeExtras_lossless {qsort : (ExtraData → ExtraData → Int) →
      List ExtraData → List ExtraData}
    (sorts : Qsort.Sorts qsort) {state : Extras} (valid : state.Valid)
    (buf : Vector (BitVec 8) 64) :
    ∃ next added, state.deunicodeExtras qsort buf = .ok next ∧ next.Valid ∧
      next.tokens.Perm (state.tokens ++ added) ∧
      ∀ (string : Text) (bigEndian : Bool), (∀ c ∈ string, c ≠ 0#8 ∧ c < 128#8) →
        (unicode 2 bigEndian string ∈ state.tokens ∧
            6 ≤ 2 * string.length ∧ 2 * string.length ≤ 64 ∨
          unicode 4 bigEndian string ∈ state.tokens ∧
            12 ≤ 4 * string.length ∧ 4 * string.length ≤ 64) →
        string ∈ added := by
  obtain ⟨next, ran, nextValid, perm, _⟩ := valid.deunicodeExtras sorts buf
  refine ⟨next, _, ran, nextValid, perm, ?_⟩
  intro string bigEndian ascii encoded
  have nonzero : ∀ c ∈ string, c ≠ 0#8 := fun c mem => (ascii c mem).1
  rcases encoded with ⟨mem, long, short⟩ | ⟨mem, long, short⟩
  · exact List.mem_flatMap.mpr
      ⟨_, mem, mem_decodings_utf16 bigEndian nonzero long short⟩
  · exact List.mem_flatMap.mpr
      ⟨_, mem, mem_decodings_utf32 bigEndian nonzero long short⟩

/-- The string `abc` in UTF-16. -/
theorem deunicodeExtras_lossless_case :
    ∃ next, (Extras.start.addExtraNocheck
        [97#8, 0#8, 98#8, 0#8, 99#8, 0#8]).deunicodeExtras
          Qsort.insertionSort (Vector.replicate 64 0#8) = .ok next ∧
      [97#8, 98#8, 99#8] ∈ next.tokens := by
  have valid : (Extras.start.addExtraNocheck
      [97#8, 0#8, 98#8, 0#8, 99#8, 0#8]).Valid :=
    Extras.valid_start.count_place (Nat.le_refl 6) (by decide)
  obtain ⟨next, added, ran, _, perm, decoded⟩ := deunicodeExtras_lossless
    Qsort.insertionSort_sorts valid (Vector.replicate 64 0#8)
  have found := decoded [97#8, 98#8, 99#8] false (by decide)
    (.inl ⟨List.mem_singleton.mpr rfl, by decide, by decide⟩)
  exact ⟨next, ran, perm.symm.subset (List.mem_append_right _ found)⟩

end AFLPlusPlus.Dictionary

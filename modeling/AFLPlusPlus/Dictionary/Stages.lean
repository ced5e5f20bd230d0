import AFLPlusPlus.Deterministic.Stages
import AFLPlusPlus.Support.EarlyExit
import AFLPlusPlus.Support.Stores

/-!
# The stages of the dictionary

`fuzz_one` writes the tokens of the user over every position of the test case,
inserts them at every position, and then overwrites with the tokens that were
found automatically.  A token is written over the one before it; what is
restored is as long as the last one.
-/

namespace AFLPlusPlus.Dictionary

open EarlyExit

def useAutoExtras : Nat := 128

/-- The bytes of an extra; `len` is their number. -/
abbrev Token := List (BitVec 8)

/-- `user extras (over)`, `user extras (insert)` and `auto extras (over)` -/
inductive ExtrasStage where
  | userOver
  | userInsert
  | autoOver
  deriving DecidableEq

/-- A call of `common_fuzz_stuff`, with what it executes. -/
structure Execution where
  stage : ExtrasStage
  position : Nat
  token : Token
  buffer : List (BitVec 8)

/-- The buffers of the stages, the random numbers drawn and the executions. -/
structure StageState where
  outBuf : Buffer
  exTmp : Buffer
  randoms : Nat
  executed : List Execution

/-- A stage, which leaves early with `goto abandon_entry`. -/
abbrev Stages (Value : Type) := EarlyExit StageState Value

/-- The test case and the dictionaries, the random numbers in their order, and
the executions after which the entry is abandoned. -/
structure StageSetting where
  len : Nat
  inBuf : Buffer
  effMap : Buffer
  extras : List Token
  aExtras : List Token
  maxDetExtras : Nat
  randBelow : Nat → Nat → Nat
  abandons : Nat → Bool

def effSpanAlen (position len : Nat) : Nat :=
  effApos (position + len - 1) - effApos position + 1

variable {rest : List Token} {skips : Stages Bool}

namespace StageSetting

variable (afl : StageSetting)

/-- `memchr` finds a byte of the effector map that is set. -/
def Effective (position len : Nat) : Prop :=
  ∃ block < effSpanAlen position len, afl.effMap (effApos position + block) = 1#8

instance (position len : Nat) : Decidable (afl.Effective position len) :=
  inferInstanceAs (Decidable (∃ block < _, _))

/-- There is no room for a token, it stands there already, or it has no effect. -/
def Redundant (position : Nat) (token : Token) (outBuf : Buffer) : Prop :=
  afl.len - position < token.length ∨ outBuf.loadBytes position token.length = token ∨
    ¬afl.Effective position token.length

instance (position : Nat) (token : Token) (outBuf : Buffer) :
    Decidable (afl.Redundant position token outBuf) :=
  inferInstanceAs (Decidable (_ ∨ _ ∨ _))

/-- A token of the user is skipped at random if there are many. -/
def skipsAtRandom : Stages Bool := OptionT.mk fun state =>
  if afl.maxDetExtras < afl.extras.length then
    (some (afl.maxDetExtras ≤ afl.randBelow state.randoms afl.extras.length),
      { state with randoms := state.randoms + 1 })
  else (some false, state)

def commonFuzzStuff (e : Execution) : Stages Unit := OptionT.mk fun state =>
  (if afl.abandons state.executed.length then none else some (),
    { state with executed := state.executed ++ [e] })

/-- One token at one position, with the length of the one before it. -/
def overwriteToken (stage : ExtrasStage) (skips : Stages Bool)
    (position lastLen : Nat) (token : Token) : Stages Nat := do
  let skipped ← skips
  let state ← get
  if skipped = true ∨ afl.Redundant position token state.outBuf then
    pure lastLen
  else
    let outBuf := state.outBuf.storeBytes position token
    modify fun state => { state with outBuf }
    afl.commonFuzzStuff
      ⟨stage, position, token, outBuf.loadBytes 0 afl.len⟩
    pure token.length

/-- All tokens at one position. -/
def overwriteAt (stage : ExtrasStage) (skips : Stages Bool)
    (tokens : List Token) (position : Nat) : Stages Unit := do
  let lastLen ← tokens.foldlM (afl.overwriteToken stage skips position) 0
  modify fun state =>
    { state with
      outBuf := state.outBuf.storeBytes position
        (afl.inBuf.loadBytes position lastLen) }

def overwrite (stage : ExtrasStage) (skips : Stages Bool)
    (tokens : List Token) : Stages Unit := do
  let _ ← forFrom (fun position (_ : Unit) => do
    afl.overwriteAt stage skips tokens position
    pure (.yield ())) 0 afl.len ()

def userExtrasOver : Stages Unit :=
  afl.overwrite .userOver afl.skipsAtRandom afl.extras

def autoExtrasOver : Stages Unit :=
  afl.overwrite .autoOver (pure false) (afl.aExtras.take useAutoExtras)

/-- One token in front of what stands at a position. -/
def insertToken (position : Nat) (token : Token) : Stages Unit := do
  if maxFile < afl.len + token.length then pure ()
  else
    let state ← get
    let exTmp := (state.exTmp.storeBytes position token).storeBytes
      (position + token.length)
      (state.outBuf.loadBytes position (afl.len - position))
    modify fun state => { state with exTmp }
    afl.commonFuzzStuff ⟨.userInsert, position, token,
      exTmp.loadBytes 0 (afl.len + token.length)⟩

/-- All tokens at one position, before the head of `ex_tmp` grows. -/
def insertAt (position : Nat) : Stages Unit := do
  afl.extras.foldlM (fun _ => afl.insertToken position) ()
  modify fun state =>
    { state with
      exTmp := state.exTmp.storeBytes position [state.outBuf position] }

def userExtrasInsert : Stages Unit := do
  let _ ← forFrom (fun position (_ : Unit) => do
    afl.insertAt position
    pure (.yield ())) 0 (afl.len + 1) ()

/-- The dictionary stuff of `fuzz_one`. -/
def dictionaryStages : Stages Unit := do
  onlyIf (afl.extras ≠ []) do
    afl.userExtrasOver
    afl.userExtrasInsert
  onlyIf (afl.aExtras ≠ []) afl.autoExtrasOver

def input : List (BitVec 8) := afl.inBuf.loadBytes 0 afl.len

/-- The test case with a token written over it. -/
def overwritten (position : Nat) (token : Token) : List (BitVec 8) :=
  afl.input.take position ++ token ++ afl.input.drop (position + token.length)

/-- The test case with a token inserted. -/
def inserted (position : Nat) (token : Token) : List (BitVec 8) :=
  afl.input.take position ++ token ++ afl.input.drop position

def tokens : ExtrasStage → List Token
  | .userOver | .userInsert => afl.extras
  | .autoOver => afl.aExtras.take useAutoExtras

/-- One whole token of the stage in its place, and nothing else. -/
def Intended (e : Execution) : Prop :=
  e.token ∈ afl.tokens e.stage ∧
    match e.stage with
    | .userInsert =>
        e.position ≤ afl.len ∧ afl.len + e.token.length ≤ maxFile ∧
          e.buffer = afl.inserted e.position e.token
    | _ =>
        e.position + e.token.length ≤ afl.len ∧
          e.buffer = afl.overwritten e.position e.token

/-- `out_buf` is `in_buf`. -/
def Restored (state : StageState) : Prop :=
  ∀ address < afl.len, state.outBuf address = afl.inBuf address

def Sound (state : StageState) : Prop := ∀ e ∈ state.executed, afl.Intended e

/-- A stage has executed a buffer. -/
def Executed (stage : ExtrasStage) (buffer : List (BitVec 8))
    (state : StageState) : Prop :=
  ∃ e ∈ state.executed, e.stage = stage ∧ e.buffer = buffer

/-- A token that is to be tried at a position. -/
def Due (position : Nat) (token : Token) : Prop :=
  position + token.length ≤ afl.len ∧ afl.Effective position token.length

/-- What is due was executed, unless it is the test case itself. -/
def Covers (stage : ExtrasStage) (buffer : List (BitVec 8))
    (state : StageState) : Prop :=
  buffer = afl.input ∨ Executed stage buffer state

variable {afl} {memory : Buffer} {position : Nat} {token : Token}

theorem take_input (inside : position ≤ afl.len) :
    afl.input.take position = afl.inBuf.loadBytes 0 position :=
  Buffer.take_loadBytes afl.inBuf 0 inside

theorem drop_input (skipped : Nat) :
    afl.input.drop skipped = afl.inBuf.loadBytes skipped (afl.len - skipped) := by
  rw [input, Buffer.drop_loadBytes, Nat.zero_add]

theorem eq_overwritten (fits : position + token.length ≤ afl.len)
    (outside : ∀ address < afl.len,
      address < position ∨ position + token.length ≤ address →
        memory address = afl.inBuf address)
    (here : memory.loadBytes position token.length = token) :
    memory.loadBytes 0 afl.len = afl.overwritten position token := by
  obtain ⟨rest, total⟩ := Nat.exists_eq_add_of_le fits
  have before : memory.loadBytes 0 position = afl.input.take position := by
    rw [take_input (by omega)]
    apply Buffer.loadBytes_congr
    intro i inside
    rw [Nat.zero_add]
    exact outside i (by omega) (.inl inside)
  have after : memory.loadBytes (position + token.length) rest =
      afl.input.drop (position + token.length) := by
    rw [drop_input, show afl.len - (position + token.length) = rest by omega]
    apply Buffer.loadBytes_congr
    intro i inside
    exact outside _ (by omega) (.inr (Nat.le_add_right _ i))
  rw [total, Buffer.loadBytes_append, Buffer.loadBytes_append, Nat.zero_add,
    Nat.zero_add, before, here, after]
  rfl

theorem eq_inserted (inside : position ≤ afl.len)
    (head : ∀ address < position, memory address = afl.inBuf address)
    (here : memory.loadBytes position token.length = token)
    (tail : memory.loadBytes (position + token.length) (afl.len - position) =
      afl.inBuf.loadBytes position (afl.len - position)) :
    memory.loadBytes 0 (afl.len + token.length) = afl.inserted position token := by
  have before : memory.loadBytes 0 position = afl.input.take position := by
    rw [take_input inside]
    apply Buffer.loadBytes_congr
    intro i less
    rw [Nat.zero_add]
    exact head i less
  have total : afl.len + token.length =
      position + token.length + (afl.len - position) := by omega
  rw [total, Buffer.loadBytes_append, Buffer.loadBytes_append, Nat.zero_add,
    Nat.zero_add, before, here, tail, ← drop_input]
  rfl

theorem Restored.contents {state : StageState} (restored : afl.Restored state) :
    state.outBuf.loadBytes 0 afl.len = afl.input := by
  apply Buffer.loadBytes_congr
  intro i inside
  rw [Nat.zero_add]
  exact restored i inside

theorem Covers.more {stage : ExtrasStage} {buffer : List (BitVec 8)}
    {state next : StageState} (covers : afl.Covers stage buffer state)
    (more : state.executed ⊆ next.executed) :
    afl.Covers stage buffer next := by
  rcases covers with same | ⟨e, member, facts⟩
  · exact .inl same
  · exact .inr ⟨e, more member, facts⟩

/-- A draw changes nothing else, and skips no token if none is to be skipped at
random. -/
def Draws (skips : Stages Bool) (sure : Prop) : Prop :=
  ∀ state, ∃ skipped randoms,
    skips.run state = (some skipped, { state with randoms }) ∧ (sure → skipped = false)

/-- What was due at a position was executed. -/
def Covered (stage : ExtrasStage) (position : Nat) (tokens : List Token)
    (state : StageState) : Prop :=
  ∀ token ∈ tokens, afl.Due position token →
    afl.Covers stage (afl.overwritten position token) state

theorem Covered.more {stage : ExtrasStage} {tokens : List Token}
    {state next : StageState} (covered : afl.Covered stage position tokens state)
    (more : state.executed ⊆ next.executed) :
    afl.Covered stage position tokens next :=
  fun token member due => (covered token member due).more more

/-- The tokens in `done` have been tried at a position. -/
structure Overwriting (stage : ExtrasStage) (sure : Prop) (position : Nat)
    (done : List Token) (lastLen : Nat) (state : StageState) : Prop where
  sound : afl.Sound state
  last : lastLen = 0 ∨ ∃ token ∈ done, token.length = lastLen
  fits : position + lastLen ≤ afl.len
  outside : ∀ address < afl.len,
    address < position ∨ position + lastLen ≤ address →
      state.outBuf address = afl.inBuf address
  shown : afl.Covers stage (state.outBuf.loadBytes 0 afl.len) state
  earlier : sure → ∀ before < position,
    afl.Covered stage before (afl.tokens stage) state
  covered : sure → afl.Covered stage position done state

theorem Draws.triple {sure : Prop} (draws : Draws skips sure)
    {invariant left : StageState → Prop} (ignores : ∀ state randoms, invariant state →
      invariant { state with randoms }) :
    Triple invariant skips
      (fun skipped state => invariant state ∧ (sure → skipped = false))
      left := by
  intro state holds
  obtain ⟨skipped, randoms, ran, never⟩ := draws state
  rw [ran]
  exact ⟨ignores state randoms holds, never⟩

theorem triple_commonFuzzStuff {before after left : StageState → Prop}
    {e : Execution}
    (reaches : ∀ state, before state →
      after { state with executed := state.executed ++ [e] } ∧
        left { state with executed := state.executed ++ [e] }) :
    Triple before (afl.commonFuzzStuff e) (fun _ => after) left := by
  intro state holds
  obtain ⟨goes, leaves⟩ := reaches state holds
  by_cases abandons : afl.abandons state.executed.length = true
  · have ran : (afl.commonFuzzStuff e).run state =
        (none, { state with executed := state.executed ++ [e] }) :=
      Prod.ext (if_pos abandons) rfl
    rw [ran]
    exact leaves
  · have ran : (afl.commonFuzzStuff e).run state =
        (some (), { state with executed := state.executed ++ [e] }) :=
      Prod.ext (if_neg abandons) rfl
    rw [ran]
    exact goes

theorem Sound.record {state : StageState} (sound : afl.Sound state)
    {e : Execution} (intended : afl.Intended e) :
    afl.Sound { state with executed := state.executed ++ [e] } := by
  intro other member
  rcases List.mem_append.mp member with before | last
  · exact sound other before
  · rw [List.mem_singleton.mp last]
    exact intended

section Round

variable {stage : ExtrasStage} {sure : Prop} {done : List Token}
  {lastLen : Nat} {state : StageState}

/-- A token that is skipped. -/
theorem Overwriting.skip
    (overwriting : afl.Overwriting stage sure position done lastLen state)
    (longer : lastLen ≤ token.length)
    (redundant : sure → afl.Redundant position token state.outBuf) :
    afl.Overwriting stage sure position (done ++ [token]) lastLen state where
  sound := overwriting.sound
  last := overwriting.last.imp_right fun ⟨other, member, length⟩ =>
    ⟨other, List.mem_append_left _ member, length⟩
  fits := overwriting.fits
  outside := overwriting.outside
  shown := overwriting.shown
  earlier := overwriting.earlier
  covered := by
    intro always other member due
    rcases List.mem_append.mp member with before | last
    · exact overwriting.covered always other before due
    · cases List.mem_singleton.mp last
      rcases redundant always with long | same | effectless
      · have fits := due.1
        omega
      · rw [← eq_overwritten due.1 (fun address inside behind =>
          overwriting.outside address inside (by omega)) same]
        exact overwriting.shown
      · exact absurd due.2 effectless

/-- A token that is written and executed. -/
theorem Overwriting.write (notInsert : stage ≠ .userInsert)
    (overwriting : afl.Overwriting stage sure position done lastLen state)
    (longer : lastLen ≤ token.length) (listed : token ∈ afl.tokens stage)
    (useful : ¬afl.Redundant position token state.outBuf) :
    afl.Overwriting stage sure position (done ++ [token]) token.length
      { state with
        outBuf := state.outBuf.storeBytes position token
        executed := state.executed ++ [⟨stage, position, token,
          (state.outBuf.storeBytes position token).loadBytes 0 afl.len⟩] } := by
  have room : position + token.length ≤ afl.len := by
    have fits := overwriting.fits
    by_contra long
    exact useful (.inl (by omega))
  have outside : ∀ address < afl.len,
      address < position ∨ position + token.length ≤ address →
        state.outBuf.storeBytes position token address = afl.inBuf address := by
    intro address inside apart
    rw [Buffer.storeBytes_outside _ apart]
    exact overwriting.outside address inside (by omega)
  have contents := eq_overwritten room outside
    (Buffer.spells_storeBytes state.outBuf position token).loadBytes_eq
  have intended : afl.Intended ⟨stage, position, token,
      (state.outBuf.storeBytes position token).loadBytes 0 afl.len⟩ := by
    refine ⟨listed, ?_⟩
    cases stage with
    | userOver => exact ⟨room, contents⟩
    | userInsert => exact absurd rfl notInsert
    | autoOver => exact ⟨room, contents⟩
  have more : state.executed ⊆ state.executed ++ [⟨stage, position, token,
      (state.outBuf.storeBytes position token).loadBytes 0 afl.len⟩] :=
    List.subset_append_left _ _
  have shown : afl.Covers stage
      ((state.outBuf.storeBytes position token).loadBytes 0 afl.len)
      { state with
        outBuf := state.outBuf.storeBytes position token
        executed := state.executed ++ [⟨stage, position, token,
          (state.outBuf.storeBytes position token).loadBytes 0 afl.len⟩] } :=
    .inr ⟨_, List.mem_append_right _ (List.mem_singleton.mpr rfl), rfl, rfl⟩
  constructor
  · exact overwriting.sound.record intended
  · exact .inr ⟨token, List.mem_append_right _ (List.mem_singleton.mpr rfl), rfl⟩
  · exact room
  · exact outside
  · exact shown
  · intro always before less
    exact (overwriting.earlier always before less).more more
  · intro always other member due
    rcases List.mem_append.mp member with before | last
    · exact (overwriting.covered always other before due).more more
    · cases List.mem_singleton.mp last
      rw [← contents]
      exact shown

def SortedByLen (tokens : List Token) : Prop :=
  tokens.Pairwise fun token later => token.length ≤ later.length

theorem Overwriting.longer
    (overwriting : afl.Overwriting stage sure position done lastLen state)
    (sorted : SortedByLen (done ++ token :: rest)) :
    lastLen ≤ token.length := by
  rcases overwriting.last with none | ⟨other, member, length⟩
  · rw [none]
    exact Nat.zero_le _
  · rw [← length]
    exact (List.pairwise_append.mp sorted).2.2 other member token
      List.mem_cons_self

theorem triple_overwriteToken (notInsert : stage ≠ .userInsert) (draws : Draws skips sure)
    (sorted : SortedByLen (afl.tokens stage))
    (listed : afl.tokens stage = done ++ token :: rest) (lastLen : Nat) :
    Triple (afl.Overwriting stage sure position done lastLen)
      (afl.overwriteToken stage skips position lastLen token)
      (afl.Overwriting stage sure position (done ++ [token])) afl.Sound := by
  have drawn : Triple (afl.Overwriting stage sure position done lastLen) skips
      (fun skipped state =>
        afl.Overwriting stage sure position done lastLen state ∧
          (sure → skipped = false)) afl.Sound :=
    draws.triple fun _ _ holds => { holds with }
  rw [listed] at sorted
  have member : token ∈ afl.tokens stage := by
    rw [listed]
    exact List.mem_append_right _ List.mem_cons_self
  apply drawn.bind
  intro skipped
  apply Triple.get.bind
  intro looked
  apply Triple.ite
  · intro skips
    apply Triple.pure
    rintro state ⟨same, overwriting, never⟩
    subst same
    apply overwriting.skip (overwriting.longer sorted)
    intro always
    exact skips.resolve_left fun skipped => by
      rw [never always] at skipped
      cases skipped
  · intro useful
    have useful := (not_or.mp useful).2
    have stored : Triple
        (fun state => looked = state ∧
          afl.Overwriting stage sure position done lastLen state ∧
            (sure → skipped = false))
        (modify fun state =>
          { state with outBuf := looked.outBuf.storeBytes position token })
        (fun _ state =>
          afl.Overwriting stage sure position done lastLen looked ∧
            state = { looked with
              outBuf := looked.outBuf.storeBytes position token })
        afl.Sound := by
      apply Triple.modify
      rintro state ⟨same, overwriting, _⟩
      subst same
      exact ⟨overwriting, rfl⟩
    apply stored.bind
    intro _
    have executed : Triple
        (fun state =>
          afl.Overwriting stage sure position done lastLen looked ∧
            state = { looked with
              outBuf := looked.outBuf.storeBytes position token })
        (afl.commonFuzzStuff ⟨stage, position, token,
          (looked.outBuf.storeBytes position token).loadBytes 0 afl.len⟩)
        (fun _ => afl.Overwriting stage sure position (done ++ [token])
          token.length) afl.Sound := by
      apply triple_commonFuzzStuff
      rintro state ⟨overwriting, same⟩
      subst same
      have written := overwriting.write notInsert (overwriting.longer sorted)
        member useful
      exact ⟨written, written.sound⟩
    apply executed.bind
    intro _
    exact Triple.pure token.length fun _ holds => holds

structure Overwrote (stage : ExtrasStage) (sure : Prop) (position : Nat)
    (state : StageState) : Prop where
  sound : afl.Sound state
  restored : afl.Restored state
  earlier : sure → ∀ before < position,
    afl.Covered stage before (afl.tokens stage) state

theorem Overwrote.start (overwrote : afl.Overwrote stage sure position state)
    (inside : position < afl.len) :
    afl.Overwriting stage sure position [] 0 state where
  sound := overwrote.sound
  last := .inl rfl
  fits := Nat.le_of_lt inside
  outside := fun address inside _ => overwrote.restored address inside
  shown := .inl overwrote.restored.contents
  earlier := overwrote.earlier
  covered := fun _ _ member => by cases member

theorem Overwriting.restore
    (overwriting : afl.Overwriting stage sure position (afl.tokens stage)
      lastLen state) :
    afl.Overwrote stage sure (position + 1)
      { state with
        outBuf := state.outBuf.storeBytes position
          (afl.inBuf.loadBytes position lastLen) } where
  sound := overwriting.sound
  restored := by
    intro address inside
    have length := Buffer.length_loadBytes afl.inBuf position lastLen
    by_cases within : position ≤ address ∧ address < position + lastLen
    · obtain ⟨offset, rfl⟩ := Nat.exists_eq_add_of_le within.1
      have spells := Buffer.spells_storeBytes state.outBuf position
        (afl.inBuf.loadBytes position lastLen)
      apply spells offset
      rw [Buffer.loadBytes, List.getElem?_map, List.getElem?_range (by omega)]
      rfl
    · dsimp only
      rw [Buffer.storeBytes_outside _ (by omega)]
      exact overwriting.outside address inside (by omega)
  earlier := by
    intro always before less
    rcases Nat.lt_succ_iff_lt_or_eq.mp less with lower | here
    · exact overwriting.earlier always before lower
    · subst here
      exact overwriting.covered always

theorem triple_overwriteAt (notInsert : stage ≠ .userInsert) (draws : Draws skips sure)
    (sorted : SortedByLen (afl.tokens stage)) (inside : position < afl.len) :
    Triple (afl.Overwrote stage sure position)
      (afl.overwriteAt stage skips (afl.tokens stage) position)
      (fun _ => afl.Overwrote stage sure (position + 1)) afl.Sound := by
  have tried : Triple (afl.Overwriting stage sure position [] 0)
      ((afl.tokens stage).foldlM (afl.overwriteToken stage skips position) 0)
      (afl.Overwriting stage sure position (afl.tokens stage)) afl.Sound := by
    apply Triple.foldlM
    intro done token rest listed lastLen
    exact triple_overwriteToken notInsert draws sorted listed lastLen
  apply (tried.starting fun _ overwrote => overwrote.start inside).bind
  intro lastLen
  exact Triple.modify fun _ overwriting => overwriting.restore

structure Ready (afl : StageSetting) (state : StageState) : Prop where
  sound : afl.Sound state
  restored : afl.Restored state

theorem triple_overwrite (notInsert : stage ≠ .userInsert) (draws : Draws skips sure)
    (sorted : SortedByLen (afl.tokens stage)) :
    Triple afl.Ready (afl.overwrite stage skips (afl.tokens stage))
      (fun _ => afl.Overwrote stage sure afl.len) afl.Sound := by
  have rounds := @Triple.forFrom_upTo StageState Unit afl.Sound
    (fun position _ => afl.Overwrote stage sure position)
    (fun _ => afl.Overwrote stage sure afl.len)
    (fun position _ => do
      afl.overwriteAt stage skips (afl.tokens stage) position
      pure (.yield ())) afl.len
    (by
      intro position inside _
      apply (triple_overwriteAt notInsert draws sorted inside).bind
      intro _
      exact Triple.pure _ fun _ holds => holds)
    (fun _ _ holds => holds) 0 afl.len (Nat.zero_add _) ()
  have started : ∀ state, afl.Ready state →
      afl.Overwrote stage sure 0 state := fun _ ready =>
    ⟨ready.sound, ready.restored, fun _ _ less => absurd less (Nat.not_lt_zero _)⟩
  apply (rounds.starting started).bind
  intro last
  exact Triple.pure () fun _ holds => holds.2

end Round

theorem Executed.more {stage : ExtrasStage} {buffer : List (BitVec 8)}
    {state next : StageState} (executed : Executed stage buffer state)
    (more : state.executed ⊆ next.executed) : Executed stage buffer next := by
  obtain ⟨e, member, facts⟩ := executed
  exact ⟨e, more member, facts⟩

/-- All tokens that fit have been inserted at a position. -/
def Tried (position : Nat) (tokens : List Token) (state : StageState) : Prop :=
  ∀ token ∈ tokens, afl.len + token.length ≤ maxFile →
    Executed .userInsert (afl.inserted position token) state

theorem Tried.more {tokens : List Token} {state next : StageState}
    (tried : afl.Tried position tokens state)
    (more : state.executed ⊆ next.executed) :
    afl.Tried position tokens next :=
  fun token member room => (tried token member room).more more

/-- The tokens in `done` have been inserted at a position, and the head of
`ex_tmp` is made. -/
structure Inserting (afl : StageSetting) (position : Nat) (done : List Token)
    (state : StageState) : Prop where
  sound : afl.Sound state
  restored : afl.Restored state
  head : ∀ address < position, address < afl.len →
    state.exTmp address = afl.inBuf address
  earlier : ∀ before < position, afl.Tried before afl.extras state
  tried : afl.Tried position done state

variable {done : List Token} {state : StageState}

theorem Inserting.skip (inserting : afl.Inserting position done state)
    (long : maxFile < afl.len + token.length) :
    afl.Inserting position (done ++ [token]) state where
  sound := inserting.sound
  restored := inserting.restored
  head := inserting.head
  earlier := inserting.earlier
  tried := by
    intro other member room
    rcases List.mem_append.mp member with before | last
    · exact inserting.tried other before room
    · cases List.mem_singleton.mp last
      exact absurd room (Nat.not_le.mpr long)

/-- `ex_tmp` with a token and the tail behind it. -/
def withToken (afl : StageSetting) (position : Nat) (token : Token)
    (state : StageState) : Buffer :=
  (state.exTmp.storeBytes position token).storeBytes (position + token.length)
    (state.outBuf.loadBytes position (afl.len - position))

theorem withToken_head {address : Nat} (less : address < position) :
    afl.withToken position token state address = state.exTmp address :=
  (Buffer.storeBytes_outside _ (.inl (Nat.lt_add_right _ less))).trans
    (Buffer.storeBytes_outside _ (.inl less))

theorem Inserting.contents (inserting : afl.Inserting position done state)
    (inside : position ≤ afl.len) :
    (afl.withToken position token state).loadBytes 0
        (afl.len + token.length) = afl.inserted position token := by
  have tail := Buffer.spells_storeBytes
    (state.exTmp.storeBytes position token) (position + token.length)
    (state.outBuf.loadBytes position (afl.len - position))
  have here : (afl.withToken position token state).Spells position token :=
    (Buffer.spells_storeBytes state.exTmp position token).storeBytes
      (.inl (Nat.le_refl _))
  have loaded := tail.loadBytes_eq
  rw [Buffer.length_loadBytes] at loaded
  apply eq_inserted inside _ here.loadBytes_eq
  · refine loaded.trans (Buffer.loadBytes_congr fun i less => ?_)
    exact inserting.restored _ (by omega)
  · intro address less
    exact (withToken_head less).trans
      (inserting.head address less (by omega))

theorem Inserting.insert (inserting : afl.Inserting position done state)
    (inside : position ≤ afl.len) (listed : token ∈ afl.extras)
    (room : afl.len + token.length ≤ maxFile) :
    afl.Inserting position (done ++ [token])
      { state with
        exTmp := afl.withToken position token state
        executed := state.executed ++ [⟨.userInsert, position, token,
          (afl.withToken position token state).loadBytes 0
            (afl.len + token.length)⟩] } := by
  have contents := @inserting.contents _ _ token _ _ inside
  have more : state.executed ⊆ state.executed ++ [⟨.userInsert, position,
      token, (afl.withToken position token state).loadBytes 0
        (afl.len + token.length)⟩] :=
    List.subset_append_left _ _
  constructor
  · exact inserting.sound.record ⟨listed, inside, room, contents⟩
  · exact inserting.restored
  · intro address less low
    exact (withToken_head less).trans (inserting.head address less low)
  · intro before less
    exact (inserting.earlier before less).more more
  · intro other member fits
    rcases List.mem_append.mp member with before | last
    · exact (inserting.tried other before fits).more more
    · cases List.mem_singleton.mp last
      exact ⟨_, List.mem_append_right _ (List.mem_singleton.mpr rfl), rfl, contents⟩

theorem triple_insertToken (inside : position ≤ afl.len)
    (listed : afl.extras = done ++ token :: rest) :
    Triple (afl.Inserting position done) (afl.insertToken position token)
      (fun _ => afl.Inserting position (done ++ [token])) afl.Sound := by
  have member : token ∈ afl.extras := by
    rw [listed]
    exact List.mem_append_right _ List.mem_cons_self
  apply Triple.ite
  · intro long
    exact Triple.pure () fun _ inserting => inserting.skip long
  · intro room
    have room := Nat.le_of_not_lt room
    apply Triple.get.bind
    intro looked
    have stored : Triple
        (fun state => looked = state ∧ afl.Inserting position done state)
        (modify fun state =>
          { state with exTmp := afl.withToken position token looked })
        (fun _ state => afl.Inserting position done looked ∧
          state = { looked with
            exTmp := afl.withToken position token looked })
        afl.Sound := by
      apply Triple.modify
      rintro state ⟨same, inserting⟩
      subst same
      exact ⟨inserting, rfl⟩
    apply stored.bind
    intro _
    apply triple_commonFuzzStuff
    rintro state ⟨inserting, same⟩
    subst same
    have written := inserting.insert inside member room
    exact ⟨written, written.sound⟩

theorem Inserting.next (inserting : afl.Inserting position afl.extras state) :
    afl.Inserting (position + 1) []
      { state with
        exTmp := state.exTmp.storeBytes position [state.outBuf position] }
    where
  sound := inserting.sound
  restored := inserting.restored
  head := by
    intro address less low
    rcases Nat.lt_succ_iff_lt_or_eq.mp less with lower | here
    · dsimp only
      rw [Buffer.storeBytes_outside _ (.inl lower)]
      exact inserting.head address lower low
    · subst here
      have spells := Buffer.spells_storeBytes state.exTmp address
        [state.outBuf address]
      exact (spells 0 _ rfl).trans (inserting.restored address low)
  earlier := by
    intro before less
    rcases Nat.lt_succ_iff_lt_or_eq.mp less with lower | here
    · exact inserting.earlier before lower
    · subst here
      exact inserting.tried
  tried := fun _ member => by cases member

theorem triple_insertAt (inside : position ≤ afl.len) :
    Triple (afl.Inserting position []) (afl.insertAt position)
      (fun _ => afl.Inserting (position + 1) []) afl.Sound := by
  have tried : Triple (afl.Inserting position [])
      (afl.extras.foldlM (fun _ => afl.insertToken position) ())
      (fun _ => afl.Inserting position afl.extras) afl.Sound := by
    apply @Triple.foldlM _ _ _ _ (fun done _ => afl.Inserting position done)
    intro done token rest listed _
    exact triple_insertToken inside listed
  apply tried.bind
  intro _
  exact Triple.modify fun _ inserting => inserting.next

theorem triple_userExtrasInsert :
    Triple afl.Ready afl.userExtrasInsert
      (fun _ => afl.Inserting (afl.len + 1) []) afl.Sound := by
  have rounds := @Triple.forFrom_upTo StageState Unit afl.Sound
    (fun position _ => afl.Inserting position [])
    (fun _ => afl.Inserting (afl.len + 1) [])
    (fun position _ => do
      afl.insertAt position
      pure (.yield ())) (afl.len + 1)
    (by
      intro position inside _
      apply (triple_insertAt (Nat.le_of_lt_succ inside)).bind
      intro _
      exact Triple.pure _ fun _ holds => holds)
    (fun _ _ holds => holds) 0 (afl.len + 1) (Nat.zero_add _) ()
  have started : ∀ state, afl.Ready state → afl.Inserting 0 [] state :=
    fun _ ready => ⟨ready.sound, ready.restored,
      fun _ less => absurd less (Nat.not_lt_zero _),
      fun _ less => absurd less (Nat.not_lt_zero _),
      fun _ member => by cases member⟩
  apply (rounds.starting started).bind
  intro last
  exact Triple.pure () fun _ holds => holds.2

theorem draws_skipsAtRandom :
    Draws afl.skipsAtRandom (afl.extras.length ≤ afl.maxDetExtras) := by
  intro state
  by_cases many : afl.maxDetExtras < afl.extras.length
  · refine ⟨_, state.randoms + 1, if_pos many, ?_⟩
    intro few
    exact absurd few (Nat.not_le.mpr many)
  · exact ⟨false, state.randoms, if_neg many, fun _ => rfl⟩

theorem Overwrote.ready {stage : ExtrasStage} {sure : Prop}
    (overwrote : afl.Overwrote stage sure position state) : afl.Ready state :=
  ⟨overwrote.sound, overwrote.restored⟩

theorem triple_userExtrasOver (sorted : SortedByLen afl.extras) :
    Triple afl.Ready afl.userExtrasOver
      (fun _ => afl.Overwrote .userOver
        (afl.extras.length ≤ afl.maxDetExtras) afl.len) afl.Sound :=
  triple_overwrite (fun same => by cases same) draws_skipsAtRandom sorted

theorem triple_autoExtrasOver
    (sorted : SortedByLen (afl.aExtras.take useAutoExtras)) :
    Triple afl.Ready afl.autoExtrasOver
      (fun _ => afl.Overwrote .autoOver True afl.len) afl.Sound :=
  triple_overwrite (fun same => by cases same)
    (fun state => ⟨false, state.randoms, rfl, fun _ => rfl⟩) sorted

theorem ready_onlyIf {condition : Prop} [Decidable condition]
    {program : Stages Unit}
    (ready : Triple afl.Ready program (fun _ => afl.Ready) afl.Sound) :
    Triple afl.Ready (onlyIf condition program) (fun _ => afl.Ready)
      afl.Sound := by
  apply Triple.ite
  · intro _
    exact ready
  · intro _
    exact Triple.pure () fun _ holds => holds

/-- From wherever a stage of the dictionary starts with the test case, all that
it executes is intended, also if the entry is abandoned.  In its end the test
case is restored, and whatever was due has been executed. -/
theorem dictionaryStages_intended (afl : StageSetting)
    (sorted : SortedByLen afl.extras)
    (autoSorted : SortedByLen (afl.aExtras.take useAutoExtras)) :
    Triple afl.Ready afl.userExtrasOver
        (fun _ state => afl.Ready state ∧
          (afl.extras.length ≤ afl.maxDetExtras → ∀ position < afl.len,
            afl.Covered .userOver position afl.extras state)) afl.Sound ∧
      Triple afl.Ready afl.userExtrasInsert
        (fun _ state => afl.Ready state ∧ ∀ position ≤ afl.len,
          afl.Tried position afl.extras state) afl.Sound ∧
      Triple afl.Ready afl.autoExtrasOver
        (fun _ state => afl.Ready state ∧ ∀ position < afl.len,
          afl.Covered .autoOver position (afl.aExtras.take useAutoExtras)
            state) afl.Sound ∧
      Triple afl.Ready afl.dictionaryStages (fun _ => afl.Ready)
        afl.Sound := by
  have written := triple_userExtrasOver sorted
  have insert := @triple_userExtrasInsert afl
  have auto := triple_autoExtrasOver autoSorted
  have inserted : Triple afl.Ready afl.userExtrasInsert
      (fun _ => afl.Ready) afl.Sound :=
    insert.ending fun _ _ inserting => ⟨inserting.sound, inserting.restored⟩
  refine ⟨?_, ?_, ?_, ?_⟩
  · exact written.ending fun _ _ overwrote =>
      ⟨overwrote.ready, overwrote.earlier⟩
  · exact insert.ending fun _ _ inserting =>
      ⟨⟨inserting.sound, inserting.restored⟩,
        fun position inside => inserting.earlier position
          (Nat.lt_succ_of_le inside)⟩
  · exact auto.ending fun _ _ overwrote =>
      ⟨overwrote.ready, overwrote.earlier trivial⟩
  · have user : Triple afl.Ready
        (do
          afl.userExtrasOver
          afl.userExtrasInsert) (fun _ => afl.Ready) afl.Sound := by
      apply (written.ending fun _ _ overwrote => overwrote.ready).bind
      intro _
      exact inserted
    apply (ready_onlyIf user).bind
    intro _
    exact ready_onlyIf (auto.ending fun _ _ overwrote => overwrote.ready)

/-- Two tokens for a test case of two bytes. -/
def twoBytes : StageSetting where
  len := 2
  inBuf := fun _ => 65#8
  effMap := fun _ => 1#8
  extras := [[66#8], [66#8, 67#8]]
  aExtras := [[68#8]]
  maxDetExtras := 200
  randBelow := fun _ _ => 0
  abandons := fun _ => false

theorem dictionaryStages_intended_twoBytes :
    twoBytes.Sound (twoBytes.dictionaryStages.run
      ⟨twoBytes.inBuf, twoBytes.inBuf, 0, []⟩).2 := by
  have intended := dictionaryStages_intended twoBytes
    (by unfold SortedByLen; decide) (by unfold SortedByLen; decide)
  have ready : twoBytes.Ready ⟨twoBytes.inBuf, twoBytes.inBuf, 0, []⟩ := by
    constructor
    · intro _ member
      cases member
    · intro _ _
      rfl
  exact (intended.2.2.2.ending fun _ _ ready => ready.sound).final ready

end StageSetting

end AFLPlusPlus.Dictionary

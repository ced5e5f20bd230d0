import AFLPlusPlus.Cache.Testcases
import AFLPlusPlus.Support.CStrings
import AFLPlusPlus.Sync.ForeignImport

/-!
# Suggestions for mistyped variables

For a variable `AFL_…` that it does not know, `print_suggested_envs` prints the
known ones that are near by, or near without one of their parts, or near to the
name without one of its parts.  Parts end at underscores.
-/

namespace AFLPlusPlus.SuggestedEnvs

open CMemory

/-- `afl_environment_variables` up to its `NULL`, with or without the names for
output in colour. -/
def aflEnvironmentVariables (useColor : Bool) : List CString :=
  (["AFL_ALIGNED_ALLOC", "AFL_ALLOW_TMP", "AFL_ANALYZE_HEX", "AFL_AS",
    "AFL_AUTORESUME", "AFL_AS_FORCE_INSTRUMENT", "AFL_BENCH_JUST_ONE",
    "AFL_BENCH_UNTIL_CRASH", "AFL_CAL_FAST", "AFL_CC", "AFL_CC_COMPILER",
    "AFL_CMIN_ALLOW_ANY", "AFL_CMIN_CRASHES_ONLY", "AFL_CMPLOG_ONLY_NEW",
    "AFL_CODE_END", "AFL_CODE_START", "AFL_COMPCOV_BINNAME",
    "AFL_COMPCOV_LEVEL", "AFL_CRASH_EXITCODE", "AFL_CUSTOM_MUTATOR_LIBRARY",
    "AFL_CUSTOM_MUTATOR_ONLY", "AFL_CXX", "AFL_CYCLE_SCHEDULES", "AFL_DEBUG",
    "AFL_DEBUG_CHILD", "AFL_DEBUG_GDB", "AFL_DISABLE_TRIM",
    "AFL_DISABLE_LLVM_INSTRUMENTATION", "AFL_DONT_OPTIMIZE",
    "AFL_DRIVER_STDERR_DUPLICATE_FILENAME", "AFL_DUMB_FORKSRV",
    "AFL_ENTRYPOINT", "AFL_EXIT_WHEN_DONE", "AFL_EXIT_ON_TIME",
    "AFL_EXIT_ON_SEED_ISSUES", "AFL_FAST_CAL", "AFL_FORCE_UI",
    "AFL_FRIDA_DEBUG_MAPS", "AFL_FRIDA_EXCLUDE_RANGES",
    "AFL_FRIDA_INST_DEBUG_FILE", "AFL_FRIDA_INST_JIT",
    "AFL_FRIDA_INST_NO_OPTIMIZE", "AFL_FRIDA_INST_NO_PREFETCH",
    "AFL_FRIDA_INST_RANGES", "AFL_FRIDA_INST_SEED", "AFL_FRIDA_INST_TRACE",
    "AFL_FRIDA_INST_TRACE_UNIQUE", "AFL_FRIDA_JS_SCRIPT",
    "AFL_FRIDA_OUTPUT_STDOUT", "AFL_FRIDA_OUTPUT_STDERR",
    "AFL_FRIDA_PERSISTENT_ADDR", "AFL_FRIDA_PERSISTENT_CNT",
    "AFL_FRIDA_PERSISTENT_DEBUG", "AFL_FRIDA_PERSISTENT_HOOK",
    "AFL_FRIDA_PERSISTENT_RET", "AFL_FRIDA_STATS_FILE",
    "AFL_FRIDA_STATS_INTERVAL", "AFL_FRIDA_STATS_TRANSITIONS",
    "AFL_FUZZER_ARGS", "AFL_GDB", "AFL_GCC_ALLOWLIST", "AFL_GCC_DENYLIST",
    "AFL_GCC_BLOCKLIST", "AFL_GCC_INSTRUMENT_FILE", "AFL_GCC_OUT_OF_LINE",
    "AFL_GCC_SKIP_NEVERZERO", "AFL_GCJ", "AFL_HANG_TMOUT",
    "AFL_FORKSRV_INIT_TMOUT", "AFL_HARDEN",
    "AFL_I_DONT_CARE_ABOUT_MISSING_CRASHES", "AFL_IGNORE_UNKNOWN_ENVS",
    "AFL_IMPORT_FIRST", "AFL_INST_LIBS", "AFL_INST_RATIO", "AFL_KILL_SIGNAL",
    "AFL_KEEP_TRACES", "AFL_KEEP_ASSEMBLY", "AFL_LD_HARD_FAIL",
    "AFL_LD_LIMIT_MB", "AFL_LD_NO_CALLOC_OVER", "AFL_LD_PASSTHROUGH",
    "AFL_REAL_LD", "AFL_LD_PRELOAD", "AFL_LD_VERBOSE", "AFL_LLVM_ALLOWLIST",
    "AFL_LLVM_DENYLIST", "AFL_LLVM_BLOCKLIST", "AFL_LLVM_CMPLOG",
    "AFL_LLVM_INSTRIM", "AFL_LLVM_CALLER", "AFL_LLVM_CTX", "AFL_LLVM_CTX_K",
    "AFL_LLVM_DICT2FILE", "AFL_LLVM_DOCUMENT_IDS", "AFL_LLVM_INSTRIM_LOOPHEAD",
    "AFL_LLVM_INSTRUMENT", "AFL_LLVM_LTO_AUTODICTIONARY",
    "AFL_LLVM_AUTODICTIONARY", "AFL_LLVM_SKIPSINGLEBLOCK",
    "AFL_LLVM_INSTRIM_SKIPSINGLEBLOCK", "AFL_LLVM_LAF_SPLIT_COMPARES",
    "AFL_LLVM_LAF_SPLIT_COMPARES_BITW", "AFL_LLVM_LAF_SPLIT_FLOATS",
    "AFL_LLVM_LAF_SPLIT_SWITCHES", "AFL_LLVM_LAF_ALL",
    "AFL_LLVM_LAF_TRANSFORM_COMPARES", "AFL_LLVM_MAP_ADDR",
    "AFL_LLVM_MAP_DYNAMIC", "AFL_LLVM_NGRAM_SIZE", "AFL_NGRAM_SIZE",
    "AFL_LLVM_NOT_ZERO", "AFL_LLVM_INSTRUMENT_FILE", "AFL_LLVM_THREADSAFE_INST",
    "AFL_LLVM_SKIP_NEVERZERO", "AFL_NO_AFFINITY", "AFL_TRY_AFFINITY",
    "AFL_LLVM_LTO_STARTID", "AFL_LLVM_LTO_DONTWRITEID", "AFL_NO_ARITH",
    "AFL_NO_AUTODICT", "AFL_NO_BUILTIN"] ++
  (if useColor then ["AFL_NO_COLOR", "AFL_NO_COLOUR"] else []) ++
  ["AFL_NO_CPU_RED", "AFL_NO_FORKSRV", "AFL_NO_UI", "AFL_NO_PYTHON",
    "AFL_UNTRACER_FILE", "AFL_LLVM_USE_TRACE_PC", "AFL_MAP_SIZE", "AFL_MAPSIZE",
    "AFL_MAX_DET_EXTRAS", "AFL_NO_X86", "AFL_NOOPT", "AFL_PASSTHROUGH",
    "AFL_PATH", "AFL_PERFORMANCE_FILE", "AFL_PERSISTENT_RECORD", "AFL_PRELOAD",
    "AFL_TARGET_ENV", "AFL_PYTHON_MODULE", "AFL_QEMU_CUSTOM_BIN",
    "AFL_QEMU_COMPCOV", "AFL_QEMU_COMPCOV_DEBUG", "AFL_QEMU_DEBUG_MAPS",
    "AFL_QEMU_DISABLE_CACHE", "AFL_QEMU_DRIVER_NO_HOOK", "AFL_QEMU_FORCE_DFL",
    "AFL_QEMU_PERSISTENT_ADDR", "AFL_QEMU_PERSISTENT_CNT",
    "AFL_QEMU_PERSISTENT_GPR", "AFL_QEMU_PERSISTENT_HOOK",
    "AFL_QEMU_PERSISTENT_MEM", "AFL_QEMU_PERSISTENT_RET",
    "AFL_QEMU_PERSISTENT_RETADDR_OFFSET", "AFL_QEMU_PERSISTENT_EXITS",
    "AFL_QEMU_INST_RANGES", "AFL_QEMU_EXCLUDE_RANGES", "AFL_QEMU_SNAPSHOT",
    "AFL_QUIET", "AFL_RANDOM_ALLOC_CANARY", "AFL_REAL_PATH",
    "AFL_SHUFFLE_QUEUE", "AFL_SKIP_BIN_CHECK", "AFL_SKIP_CPUFREQ",
    "AFL_SKIP_CRASHES", "AFL_STATSD", "AFL_STATSD_HOST", "AFL_STATSD_PORT",
    "AFL_STATSD_TAGS_FLAVOR", "AFL_TESTCACHE_SIZE", "AFL_TESTCACHE_ENTRIES",
    "AFL_TMIN_EXACT", "AFL_TMPDIR", "AFL_TOKEN_FILE", "AFL_TRACE_PC",
    "AFL_USE_ASAN", "AFL_USE_MSAN", "AFL_USE_TRACE_PC", "AFL_USE_UBSAN",
    "AFL_USE_CFISAN", "AFL_USE_LSAN", "AFL_WINE_PATH", "AFL_NO_SNAPSHOT",
    "AFL_EXPAND_HAVOC_NOW", "AFL_USE_FASAN", "AFL_USE_QASAN",
    "AFL_PRINT_FILENAMES"]).map String.toList

def envSimilarityTreshold : Int := 3

/-- `ck_alloc`: the size becomes a `u32`.  For 0 it returns `NULL`, a block that
cannot be accessed. -/
def ckAlloc {α : Type} (zero : α) (size : Nat) : Except MemoryFault (List α) :=
  if maxAlloc < size % 2 ^ 32 then .error .aborted
  else .ok (List.replicate (size % 2 ^ 32) zero)

/-- `for (i = …; i <= last; i++)` with `unsigned int`. -/
def forUpTo {State : Type}
    (body : BitVec 32 → State → Except MemoryFault State) (last : BitVec 32) :
    Nat → BitVec 32 → State → Except MemoryFault State
  | 0, _, _ => .error .endless
  | fuel + 1, i, state =>
      if i ≤ last then body i state >>= forUpTo body last fuel (i + 1)
      else .ok state

def helperMin3 (a b c : BitVec 32) : BitVec 32 :=
  if a < b then (if a < c then a else c) else (if b < c then b else c)

/-- The body of the inner loop, with `column` and `lastdiag`. -/
def distanceCell (s1 s2 : CString) (x y : BitVec 32)
    (row : List (BitVec 32) × BitVec 32) :
    Except MemoryFault (List (BitVec 32) × BitVec 32) := do
  let olddiag ← load row.1 y.toNat
  let above ← load row.1 (y - 1#32).toNat
  let c1 ← load s1 (y - 1#32).toNat
  let c2 ← load s2 (x - 1#32).toNat
  let column ← store row.1 y.toNat
    (helperMin3 (olddiag + 1#32) (above + 1#32)
      (row.2 + if c1 = c2 then 0#32 else 1#32))
  .ok (column, olddiag)

/-- The body of the outer loop. -/
def distanceRow (s1 s2 : CString) (x : BitVec 32)
    (column : List (BitVec 32)) : Except MemoryFault (List (BitVec 32)) := do
  let s1len := BitVec.ofNat 32 s1.length
  let column ← store column 0 x
  let row ← forUpTo (distanceCell s1 s2 x) s1len (s1len.toNat + 1) 1#32
    (column, x - 1#32)
  .ok row.1

def stringDistanceLevenshtein (s1 s2 : CString) : Except MemoryFault Int := do
  let s1len := BitVec.ofNat 32 s1.length
  let s2len := BitVec.ofNat 32 s2.length
  let column ← store (List.replicate (s1len + 1#32).toNat 0#32) s1len.toNat 1#32
  let column ← forUpTo (fun y column => store column y.toNat y) s1len
    (s1len.toNat + 1) 1#32 column
  let column ← forUpTo (distanceRow s1 s2) s2len (s2len.toNat + 1) 1#32 column
  let distance ← load column s1len.toNat
  .ok distance.toInt

/-- The variables of `print_suggested_envs`, with the names it has printed. -/
structure Suggesting where
  seen : List Bool
  found : Bool
  said : List CString

/-- Print a name that is near enough and was not printed before. -/
def suggest (j : Nat) (name : CString) (distance : Int)
    (suggesting : Suggesting) : Except MemoryFault Suggesting :=
  if distance < envSimilarityTreshold then do
    let seen ← load suggesting.seen j
    if seen then .ok suggesting
    else do
      let seen ← store suggesting.seen j true
      .ok { seen, found := true, said := suggesting.said ++ [name] }
  else .ok suggesting

/-- The name of a known variable behind its prefix. -/
def aflEnv (name : CString) : Except MemoryFault CString :=
  if 4 ≤ name.length then .ok (name.drop 4) else .error .outOfBounds

/-- `strcspn` for the underscore: the end of the part that starts at a
position, with its underscore. -/
def partEnd (source : List Char) (start : Nat) : Except MemoryFault Nat := do
  let rest ← stringAt source start
  .ok (start + (rest.takeWhile (· ≠ '_')).length + 1)

/-- The copies of a string without one part, up to the NUL behind it. -/
def copyReduced (reduced source : List Char) (len start stop : Nat) :
    Except MemoryFault (List Char) := do
  let reduced ← memcpy reduced 0 source 0 start
  if stop < len then memcpy reduced start source stop (len - stop)
  else .ok reduced

/-- The index of the NUL, a `size_t`. -/
def reducedEnd (len start stop : Nat) : Nat := (2 ^ 64 + len + start - stop) % 2 ^ 64

/-- The NUL behind the copies of a known name, with the check of its index. -/
def endReduced (reduced : List Char) (len start stop : Nat) :
    Except MemoryFault (List Char) :=
  if stop ≤ len + start then store reduced (reducedEnd len start stop) nul
  else .ok reduced

/-- A loop over the names `afl_environment_variables[j]`. -/
def forNames (body : Nat → CString → Suggesting → Except MemoryFault Suggesting) :
    Nat → List CString → Suggesting → Except MemoryFault Suggesting
  | _, [], suggesting => .ok suggesting
  | j, name :: names, suggesting =>
      body j name suggesting >>= forNames body (j + 1) names

/-- The body of the first loop. -/
def suggestNear (envName : List Char) (j : Nat) (name : CString)
    (suggesting : Suggesting) : Except MemoryFault Suggesting := do
  let env ← aflEnv name
  let given ← stringAt envName 0
  let distance ← stringDistanceLevenshtein env given
  suggest j name distance suggesting

/-- The inner loop of the second one, over the parts of a known name. -/
def suggestReduced (envName source : List Char) (len j : Nat) (name : CString) :
    Nat → Nat → List Char → Suggesting → Except MemoryFault Suggesting
  | 0, _, _, _ => .error .endless
  | fuel + 1, start, reduced, suggesting =>
      if start < len then do
        let stop ← partEnd source start
        let reduced ← copyReduced reduced source len start stop
        let reduced ← endReduced reduced len start stop
        let text ← stringAt reduced 0
        let given ← stringAt envName 0
        let distance ← stringDistanceLevenshtein text given
        let suggesting ← suggest j name distance suggesting
        suggestReduced envName source len j name fuel stop reduced suggesting
      else .ok suggesting

/-- The body of the second loop. -/
def suggestWithoutPart (envName : List Char) (j : Nat) (name : CString)
    (suggesting : Suggesting) : Except MemoryFault Suggesting := do
  let env ← aflEnv name
  let reduced ← ckAlloc nul (env.length + 1)
  suggestReduced envName (env ++ [nul]) env.length j name (env.length + 1) 0
    reduced suggesting

/-- The third loop, over the parts of the given name. -/
def suggestForParts (names : List CString) (envName : List Char) (len : Nat) :
    Nat → Nat → List Char → Suggesting → Except MemoryFault Suggesting
  | 0, _, _, _ => .error .endless
  | fuel + 1, start, reduced, suggesting =>
      if start < len then do
        let stop ← partEnd envName start
        let reduced ← copyReduced reduced envName len start stop
        let reduced ← store reduced (reducedEnd len start stop) nul
        let suggesting ← forNames (fun j name suggesting => do
          let env ← aflEnv name
          let given ← stringAt reduced 0
          let distance ← stringDistanceLevenshtein env given
          suggest j name distance suggesting) 0 names suggesting
        suggestForParts names envName len fuel stop reduced suggesting
      else .ok suggesting

/-- The loops of `print_suggested_envs`, each of which is left out when one before
it has printed a name. -/
def suggestLoops (names : List CString) (envName : List Char) (len : Nat)
    (seen : List Bool) : Except MemoryFault (List CString) := do
  let suggesting ← forNames (suggestNear envName) 0 names
    { seen, found := false, said := [] }
  if suggesting.found then .ok suggesting.said
  else do
    let suggesting ← forNames (suggestWithoutPart envName) 0 names suggesting
    if suggesting.found then .ok suggesting.said
    else do
      let reduced ← ckAlloc nul (len + 1)
      let suggesting ← suggestForParts names envName len (len + 1) 0 reduced
        suggesting
      .ok suggesting.said

/-- `print_suggested_envs`, with the names it prints. -/
def printSuggestedEnvs (names : List CString) (mispelledEnv : CString) :
    Except MemoryFault (List CString) := do
  -- the length without `AFL_`
  let len := (mispelledEnv.takeWhile (· ≠ '=')).length - 4
  let envName ← ckAlloc nul (len + 1)
  let envName ← memcpy envName 0 (mispelledEnv ++ [nul]) 4 len
  let seen ← ckAlloc false (names.length + 1)
  suggestLoops names envName len seen

/-- A loop with `unsigned int` ends unless its bound is the largest one. -/
theorem forUpTo_yields {State : Type} {allowed : MemoryFault → Prop}
    {body : BitVec 32 → State → Except MemoryFault State} {last : BitVec 32}
    (bounded : last.toNat < 2 ^ 32 - 1) (invariant : Nat → State → Prop)
    (round : ∀ i : BitVec 32, 0 < i.toNat → i.toNat ≤ last.toNat →
      ∀ state, invariant i.toNat state →
        Yields allowed (invariant (i.toNat + 1)) (body i state)) :
    ∀ (fuel : Nat) (i : BitVec 32) (state : State), 0 < i.toNat →
      i.toNat ≤ last.toNat + 1 → last.toNat + 1 < fuel + i.toNat →
      invariant i.toNat state →
      Yields allowed (invariant (last.toNat + 1))
        (forUpTo body last fuel i state) := by
  intro fuel
  induction fuel with
  | zero =>
      intro i state positive within enough holds
      omega
  | succ fuel induction =>
      intro i state positive within enough holds
      rw [forUpTo]
      by_cases more : i ≤ last
      · rw [if_pos more]
        have below : i.toNat ≤ last.toNat := more
        have next : (i + 1#32).toNat = i.toNat + 1 := by
          rw [BitVec.toNat_add]
          exact Nat.mod_eq_of_lt (by simp; omega)
        apply (round i positive below state holds).bind
        intro later after
        have rest := induction (i + 1#32) later
        rw [next] at rest
        exact rest (by omega) (by omega) (by omega) after
      · rw [if_neg more]
        have above : ¬i.toNat ≤ last.toNat := more
        have same : i.toNat = last.toNat + 1 := by omega
        rw [same] at holds
        exact holds

/-- What stands in the column at index `y` when `x` characters were compared: at
least `x - y`, and at most one more than `x + y`, as `column[s1len]` starts as 1. -/
def InBand (x y : Nat) (value : BitVec 32) : Prop :=
  x ≤ value.toNat + y ∧ value.toNat ≤ x + y + 1

/-- The column has finished the first `y` entries for `x` characters, and has the
others for one character less. -/
structure RowFilled (n x y : Nat) (column : List (BitVec 32)) : Prop where
  length : column.length = n + 1
  done : ∀ k < y, ∀ value, column[k]? = some value → InBand x k value
  todo : ∀ k, y ≤ k → ∀ value, column[k]? = some value → InBand (x - 1) k value

theorem helperMin3_cases {property : BitVec 32 → Prop} {a b c : BitVec 32}
    (first : property a) (second : property b) (third : property c) :
    property (helperMin3 a b c) := by
  unfold helperMin3
  split_ifs
  · exact first
  · exact third
  · exact second
  · exact third

variable {value : BitVec 32} {column : List (BitVec 32)} {x : Nat}

theorem toNat_add_small {added : BitVec 32} (small : value.toNat + added.toNat < 2 ^ 32) :
    (value + added).toNat = value.toNat + added.toNat := by
  rw [BitVec.toNat_add]
  exact Nat.mod_eq_of_lt small

section Distance

variable {s1 s2 : CString}

/-- The least of the three numbers for an entry is in the band. -/
theorem inBand_min {y : Nat} (startX : 0 < x) (startY : 0 < y) (short : x + y < 2 ^ 31)
    {old new diag : BitVec 32} (oldIn : InBand (x - 1) y old)
    (newIn : InBand x (y - 1) new) (diagIn : InBand (x - 1) (y - 1) diag) (same : Prop)
    [Decidable same] :
    InBand x y (helperMin3 (old + 1#32) (new + 1#32)
      (diag + if same then 0#32 else 1#32)) := by
  unfold InBand at oldIn newIn diagIn
  have one : (1#32).toNat = 1 := rfl
  apply helperMin3_cases
  · unfold InBand
    rw [toNat_add_small (by omega)]
    omega
  · unfold InBand
    rw [toNat_add_small (by omega)]
    omega
  · unfold InBand
    split
    · rw [BitVec.add_zero]
      omega
    · rw [toNat_add_small (by omega)]
      omega

theorem RowFilled.set {n y : Nat} (filled : RowFilled n x y column)
    (inBand : InBand x y value) :
    RowFilled n x (y + 1) (column.set y value) where
  length := by rw [List.length_set, filled.length]
  done := by
    intro k before other found
    by_cases same : y = k
    · subst same
      rw [List.getElem?_set_self'] at found
      obtain ⟨_, _, rfl⟩ := Option.map_eq_some_iff.mp found
      exact inBand
    · rw [List.getElem?_set_ne same] at found
      exact filled.done k (by omega) other found
  todo := by
    intro k behind other found
    rw [List.getElem?_set_ne (by omega)] at found
    exact filled.todo k (by omega) other found

theorem inBand_set {pos k : Nat} {stored : BitVec 32}
    (inBand : ∀ k value, column[k]? = some value → InBand x k value)
    (fits : InBand x pos stored) (found : (column.set pos stored)[k]? =
      some value) : InBand x k value := by
  by_cases same : pos = k
  · subst same
    rw [List.getElem?_set_self'] at found
    obtain ⟨_, _, rfl⟩ := Option.map_eq_some_iff.mp found
    exact fits
  · rw [List.getElem?_set_ne same] at found
    exact inBand k value found

section

variable {x : BitVec 32} (short1 : s1.length < 2 ^ 30) (short2 : s2.length < 2 ^ 30)
    (startX : 0 < x.toNat) (endX : x.toNat ≤ s2.length)
include short1 short2 startX endX

theorem distanceCell_yields {y : BitVec 32} (startY : 0 < y.toNat)
    (endY : y.toNat ≤ s1.length) {row : List (BitVec 32) × BitVec 32}
    (filled : RowFilled s1.length x.toNat y.toNat row.1)
    (lastdiag : InBand (x.toNat - 1) (y.toNat - 1) row.2) :
    Yields (fun _ => False)
      (fun next => RowFilled s1.length x.toNat (y.toNat + 1) next.1 ∧
        InBand (x.toNat - 1) y.toNat next.2)
      (distanceCell s1 s2 x y row) := by
  have beforeY : (y - 1#32).toNat = y.toNat - 1 := by
    rw [BitVec.toNat_sub_of_le (by rw [BitVec.le_def]; exact startY)]
    rfl
  have beforeX : (x - 1#32).toNat = x.toNat - 1 := by
    rw [BitVec.toNat_sub_of_le (by rw [BitVec.le_def]; exact startX)]
    rfl
  have length := filled.length
  have here : y.toNat < row.1.length := by omega
  have left : y.toNat - 1 < row.1.length := by omega
  have old := filled.todo y.toNat (Nat.le_refl _) _
    (List.getElem?_eq_getElem here)
  have new := filled.done (y.toNat - 1) (by omega) _
    (List.getElem?_eq_getElem left)
  simp only [distanceCell, beforeY, beforeX]
  rw [load_inside here, ok_bind, load_inside left, ok_bind,
    @load_inside _ s1 _ (by omega), ok_bind,
    @load_inside _ s2 _ (by omega), ok_bind, store_inside here, ok_bind]
  exact ⟨filled.set (inBand_min startX startY (by omega) old new lastdiag _), old⟩

theorem distanceRow_yields (filled : RowFilled s1.length x.toNat 0 column) :
    Yields (fun _ => False) (RowFilled s1.length (x.toNat + 1) 0)
      (distanceRow s1 s2 x column) := by
  have length := filled.length
  have isLen : (BitVec.ofNat 32 s1.length).toNat = s1.length := by
    rw [BitVec.toNat_ofNat, Nat.mod_eq_of_lt (by omega)]
  have beforeX : (x - 1#32).toNat = x.toNat - 1 := by
    rw [BitVec.toNat_sub_of_le (by rw [BitVec.le_def]; exact startX)]
    rfl
  have first : InBand x.toNat 0 x := ⟨Nat.le_refl _, Nat.le_succ _⟩
  have diag : InBand (x.toNat - 1) 0 (x - 1#32) := by
    unfold InBand
    omega
  simp only [distanceRow]
  rw [store_inside (by omega), ok_bind]
  have loop := @forUpTo_yields _ (fun _ => False) (distanceCell s1 s2 x)
    (BitVec.ofNat 32 s1.length) (by omega)
    (fun y row => RowFilled s1.length x.toNat y row.1 ∧
      InBand (x.toNat - 1) (y - 1) row.2)
    (by
      intro y startY endY row holds
      rw [isLen] at endY
      exact distanceCell_yields short1 short2 startX endX startY endY holds.1
        holds.2)
    ((BitVec.ofNat 32 s1.length).toNat + 1) 1#32 (column.set 0 x, x - 1#32)
    (by decide) (by simp) (by simp) ⟨filled.set first, diag⟩
  apply loop.bind
  intro row holds
  obtain ⟨finished, -⟩ := holds
  rw [isLen] at finished
  refine ⟨finished.length, nofun, fun k _ value found => ?_⟩
  have inside := (List.getElem?_eq_some_iff.mp found).1
  rw [finished.length] at inside
  exact finished.done k inside value found

end

/-- The distance is found without an access outside of the strings or of the
column, and it is at least the difference of the lengths. -/
theorem stringDistanceLevenshtein_yields (short1 : s1.length < 2 ^ 30)
    (short2 : s2.length < 2 ^ 30) :
    Yields (fun _ => False)
      (fun distance => (s2.length : Int) - s1.length ≤ distance)
      (stringDistanceLevenshtein s1 s2) := by
  have isLen1 : (BitVec.ofNat 32 s1.length).toNat = s1.length := by
    rw [BitVec.toNat_ofNat, Nat.mod_eq_of_lt (by omega)]
  have isLen2 : (BitVec.ofNat 32 s2.length).toNat = s2.length := by
    rw [BitVec.toNat_ofNat, Nat.mod_eq_of_lt (by omega)]
  have size : (BitVec.ofNat 32 s1.length + 1#32).toNat = s1.length + 1 := by
    rw [toNat_add_small (by rw [isLen1]; simp; omega), isLen1]
    rfl
  simp only [stringDistanceLevenshtein, size, isLen1]
  rw [store_inside (by simp), ok_bind]
  -- the first loop fills the column for no characters
  have filled := @forUpTo_yields _ (fun _ => False)
    (fun (y : BitVec 32) (column : List (BitVec 32)) =>
      store column y.toNat y)
    (BitVec.ofNat 32 s1.length) (by omega)
    (fun y column => column.length = s1.length + 1 ∧
      ∀ k value, column[k]? = some value → InBand 0 k value)
    (by
      intro y startY endY column holds
      rw [isLen1] at endY
      rw [store_inside (by omega)]
      refine ⟨by rw [List.length_set, holds.1], fun k value found => ?_⟩
      refine inBand_set holds.2 ?_ found
      exact ⟨Nat.zero_le _, by omega⟩)
    (s1.length + 1) 1#32
    ((List.replicate (s1.length + 1) 0#32).set s1.length 1#32) (by decide)
    (by simp) (by rw [isLen1]; simp) (by
      refine ⟨by simp, fun k value found => ?_⟩
      refine inBand_set ?_ ?_ found
      · intro other zero isZero
        rw [List.eq_of_mem_replicate (List.mem_of_getElem? isZero)]
        exact ⟨Nat.zero_le _, Nat.zero_le _⟩
      · exact ⟨Nat.zero_le _, by simp⟩)
  apply filled.bind
  rintro column ⟨length, numbers⟩
  have ready : RowFilled s1.length 1 0 column := by
    refine ⟨length, nofun, fun k _ value found => ?_⟩
    exact numbers k value found
  have rows := @forUpTo_yields _ (fun _ => False) (distanceRow s1 s2)
    (BitVec.ofNat 32 s2.length) (by omega)
    (fun x column => RowFilled s1.length x 0 column)
    (by
      intro x startX endX row holds
      rw [isLen2] at endX
      exact distanceRow_yields short1 short2 startX endX holds)
    ((BitVec.ofNat 32 s2.length).toNat + 1) 1#32 column (by decide) (by simp)
    (by simp) ready
  apply rows.bind
  intro last finished
  have length := finished.length
  have inside : s1.length < last.length := by omega
  rw [load_inside inside, ok_bind]
  have inBand := finished.todo s1.length (Nat.zero_le _) _
    (List.getElem?_eq_getElem inside)
  rw [isLen2, Nat.add_sub_cancel] at inBand
  have isInt : last[s1.length].toInt = (last[s1.length].toNat : Int) := by
    apply BitVec.toInt_eq_toNat_of_lt
    have upper := inBand.2
    omega
  have lower := inBand.1
  change (s2.length : Int) - s1.length ≤ last[s1.length].toInt
  rw [isInt]
  omega

end Distance

end AFLPlusPlus.SuggestedEnvs

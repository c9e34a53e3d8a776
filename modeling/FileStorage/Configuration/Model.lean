import FileStorage.Lib.Lines
import FileStorage.Lib.Text
import FileStorage.Wire.Model

/-!
# The configuration file

`configuration` reads its file in chunks of at most 255 bytes, each up to a
newline. The first word of a chunk is compared with the five keys, the second is
the value; words are separated by spaces only, so a newline belongs to the word
before it. After the last chunk, whatever is still 0 or NULL gets its default.

`config_t` is a function on its three numeric keys and one on its two names. A
chunk without the word that the code looks at has no defined result: `strncmp`
and `strtol` get NULL.
-/

namespace FileStorage.Configuration

open FileStorage.Lib
open FileStorage.Wire (Stop toInt32)

def BUF_SIZE : Nat := 256

/-- `" "`, the delimiter. -/
def space : UInt8 := 32

/-- `"#"`. -/
def hash : UInt8 := 35

/-- The keys of the `int` fields. -/
inductive NumKey where
  | nThread
  | nFile
  | memSize
  deriving DecidableEq

/-- The keys of the `char *` fields. -/
inductive NameKey where
  | sockname
  | logfile
  deriving DecidableEq

inductive Key where
  | number (k : NumKey)
  | name (k : NameKey)
  deriving DecidableEq

/-- `"N_THREAD"`, `"N_FILE"`, `"MEM_SIZE"`, `"SOCKNAME"`, `"LOGFILE"`. -/
def Key.text : Key → Bytes
  | .number .nThread => [78, 95, 84, 72, 82, 69, 65, 68]
  | .number .nFile => [78, 95, 70, 73, 76, 69]
  | .number .memSize => [77, 69, 77, 95, 83, 73, 90, 69]
  | .name .sockname => [83, 79, 67, 75, 78, 65, 77, 69]
  | .name .logfile => [76, 79, 71, 70, 73, 76, 69]

def NumKey.default : NumKey → Int
  | .nThread => 1
  | .nFile => 50
  | .memSize => 128000

/-- `"./cs_sock"` and `"logfile.txt"`. -/
def NameKey.default : NameKey → Bytes
  | .sockname => [46, 47, 99, 115, 95, 115, 111, 99, 107]
  | .logfile => [108, 111, 103, 102, 105, 108, 101, 46, 116, 120, 116]

/-- `config_t`. -/
structure Config where
  number : NumKey → Int
  name : NameKey → Option Bytes

/-- The values before the first line. -/
def Config.initial : Config := ⟨fun _ => 0, fun _ => none⟩

def Config.setNumber (cfg : Config) (k : NumKey) (n : Int) : Config :=
  { cfg with number := fun j => if j = k then n else cfg.number j }

def Config.setName (cfg : Config) (k : NameKey) (s : Bytes) : Config :=
  { cfg with name := fun j => if j = k then some s else cfg.name j }

/-- The `else if` chain: the first key that the word begins with. -/
def keyOf (token : Bytes) : Option Key :=
  [Key.number .nThread, .number .nFile, .number .memSize, .name .sockname, .name .logfile].find?
    fun k => strncmpEq token k.text k.text.length

/-- What a numeric key gets from its value. -/
def numberOf (k : NumKey) (token : Bytes) : Int :=
  if strtolRest token = [] then
    if strtol token < 1 then k.default else toInt32 (strtol token)
  else k.default

/-- What a name gets from its value. -/
def nameOf (k : NameKey) (token : Option Bytes) : Bytes :=
  match token with
  | none => k.default
  | some token => if strncmpEq token [hash] 1 then k.default else token

/-- The body of the loop. -/
def configLine (cfg : Config) (buffer : Bytes) : Except Stop Config :=
  match strtok space (cstr buffer) with
  | (none, _) => .error .undefined
  | (some token, tmp) =>
    match keyOf token with
    | none => .ok cfg
    | some (.number k) =>
      match (strtok space tmp).1 with
      | none => .error .undefined
      | some token => .ok (cfg.setNumber k (numberOf k token))
    | some (.name k) => .ok (cfg.setName k (nameOf k (strtok space tmp).1))

/-- The pass over what is still missing. -/
def Config.defaults (cfg : Config) : Config where
  number k := if cfg.number k = 0 then k.default else cfg.number k
  name k := some ((cfg.name k).getD k.default)

/-- `configuration`, from the open file on. -/
def configuration (config : Bytes) : Except Stop Config := do
  let cfg ← (pieces (BUF_SIZE - 1) config).foldlM configLine .initial
  return cfg.defaults

/-! ## Keys -/

/-- No key begins another. -/
theorem text_injective_start : ∀ {j k : Key}, j.text <+: k.text → j = k := by
  intro j k h
  rcases j with (_ | _ | _) | (_ | _) <;> rcases k with (_ | _ | _) | (_ | _) <;>
    first | rfl | exact absurd h (by decide)

/-- A word names the key that it begins with. -/
theorem keyOf_eq_some {token : Bytes} {k : Key} : keyOf token = some k ↔ k.text <+: token := by
  unfold keyOf
  constructor
  · intro h
    have := List.find?_some h
    exact (strncmpEq_length _ _).mp this
  · intro h
    cases hf : ([Key.number .nThread, .number .nFile, .number .memSize, .name .sockname,
        .name .logfile].find? fun k => strncmpEq token k.text k.text.length) with
    | none =>
      have hnone := List.find?_eq_none.mp hf k (by rcases k with (_ | _ | _) | (_ | _) <;> simp)
      exact absurd ((strncmpEq_length _ _).mpr h) hnone
    | some j =>
      have heq : strncmpEq token j.text j.text.length = true := by
        simpa using List.find?_some hf
      have hj := (strncmpEq_length _ _).mp heq
      rcases Nat.le_total j.text.length k.text.length with hle | hle
      · rw [text_injective_start (List.prefix_of_prefix_length_le hj h hle)]
      · rw [text_injective_start (List.prefix_of_prefix_length_le h hj hle)]

/-! ## Chunks -/

/-- The key that a chunk names. -/
def chunkKey (buffer : Bytes) : Option Key := (strtok space (cstr buffer)).1.bind keyOf

/-- The word behind the first one of a chunk. -/
def chunkValue (buffer : Bytes) : Option Bytes := (strtok space (strtok space (cstr buffer)).2).1

/-- A chunk with the words that the code looks at. -/
structure HasWords (buffer : Bytes) : Prop where
  first : (strtok space (cstr buffer)).1 ≠ none
  value : ∀ k, chunkKey buffer = some (.number k) → chunkValue buffer ≠ none

/-- The last chunk that names a key. -/
def lastChunk (k : Key) (chunks : List Bytes) : Option Bytes :=
  (chunks.filter fun p => chunkKey p = some k).getLast?

/-- What a chunk does to the fields. -/
def chunkEffect (cfg : Config) (buffer : Bytes) : Config :=
  match chunkKey buffer with
  | none => cfg
  | some (.number k) => cfg.setNumber k (numberOf k ((chunkValue buffer).getD []))
  | some (.name k) => cfg.setName k (nameOf k (chunkValue buffer))

/-- A chunk with its words is read, and another one has no defined result. -/
theorem configLine_iff {cfg cfg' : Config} {buffer : Bytes} :
    configLine cfg buffer = .ok cfg' ↔ HasWords buffer ∧ cfg' = chunkEffect cfg buffer := by
  unfold configLine chunkEffect
  cases htok : strtok space (cstr buffer) with
  | mk first tmp =>
    cases first with
    | none =>
      refine ⟨(fun h => by cases h), fun h => absurd ?_ h.1.first⟩
      rw [htok]
    | some token =>
      have hkey : chunkKey buffer = keyOf token := by
        unfold chunkKey
        rw [htok]
        rfl
      have hvalue : chunkValue buffer = (strtok space tmp).1 := by
        unfold chunkValue
        rw [htok]
      have hwords (hval : ∀ k, keyOf token = some (.number k) → (strtok space tmp).1 ≠ none) :
          HasWords buffer := by
        refine ⟨?_, ?_⟩
        · rw [htok]
          exact Option.some_ne_none token
        · rw [hkey, hvalue]
          exact hval
      rw [hkey, hvalue]
      dsimp only
      cases hk : keyOf token with
      | none =>
        refine ⟨fun h => ⟨hwords ?_, (Except.ok.inj h).symm⟩, fun h => congrArg _ h.2.symm⟩
        intro k hn
        rw [hk] at hn
        cases hn
      | some key =>
        cases key with
        | name k =>
          refine ⟨fun h => ⟨hwords ?_, (Except.ok.inj h).symm⟩, fun h => congrArg _ h.2.symm⟩
          intro j hn
          rw [hk] at hn
          cases hn
        | number k =>
          cases hv : (strtok space tmp).1 with
          | none =>
            refine ⟨(fun h => by cases h), fun h => absurd ?_ (h.1.value k ?_)⟩
            · rw [hvalue, hv]
            · rw [hkey, hk]
          | some value =>
            refine ⟨fun h => ⟨hwords ?_, (Except.ok.inj h).symm⟩, fun h => congrArg _ h.2.symm⟩
            intro j _
            rw [hv]
            exact Option.some_ne_none value

variable {chunks : List Bytes} {cfg cfg' : Config}

/-- A run of the loop reads every chunk, or has no defined result. -/
theorem configLines_iff :
    chunks.foldlM configLine cfg = .ok cfg' ↔
      (∀ p ∈ chunks, HasWords p) ∧ cfg' = chunks.foldl chunkEffect cfg := by
  induction chunks generalizing cfg with
  | nil => exact ⟨fun h => ⟨(fun p hp => by cases hp), (Except.ok.inj h).symm⟩,
      fun h => congrArg _ h.2.symm⟩
  | cons p ps ih =>
    rw [List.foldlM_cons, List.foldl_cons, List.forall_mem_cons]
    cases hp : configLine cfg p with
    | error e =>
      refine ⟨(fun h => by cases h), fun h => ?_⟩
      have hok : configLine cfg p = .ok (chunkEffect cfg p) := configLine_iff.mpr ⟨h.1.1, rfl⟩
      rw [hp] at hok
      cases hok
    | ok next =>
      obtain ⟨hw, rfl⟩ := configLine_iff.mp hp
      show List.foldlM configLine (chunkEffect cfg p) ps = _ ↔ _
      rw [ih]
      exact ⟨fun h => ⟨⟨hw, h.1⟩, h.2⟩, fun h => ⟨h.1.2, h.2⟩⟩

theorem lastChunk_cons (k : Key) (p : Bytes) (ps : List Bytes) :
    lastChunk k (p :: ps) =
      if chunkKey p = some k then some ((lastChunk k ps).getD p) else lastChunk k ps := by
  unfold lastChunk
  rw [List.filter_cons]
  by_cases h : chunkKey p = some k
  · simp [h, List.getLast?_cons]
  · simp [h]

theorem chunkEffect_number (cfg : Config) (p : Bytes) (k : NumKey) :
    (chunkEffect cfg p).number k =
      if chunkKey p = some (.number k) then numberOf k ((chunkValue p).getD [])
      else cfg.number k := by
  unfold chunkEffect
  rcases chunkKey p with _ | (j | j)
  · simp
  · simp only [Config.setNumber, Option.some.injEq, Key.number.injEq]
    by_cases h : k = j
    · rw [if_pos h, if_pos h.symm, h]
    · rw [if_neg h, if_neg fun he => h he.symm]
  · simp [Config.setName]

theorem chunkEffect_name (cfg : Config) (p : Bytes) (k : NameKey) :
    (chunkEffect cfg p).name k =
      if chunkKey p = some (.name k) then some (nameOf k (chunkValue p)) else cfg.name k := by
  unfold chunkEffect
  rcases chunkKey p with _ | (j | j)
  · simp
  · simp [Config.setNumber]
  · simp only [Config.setName, Option.some.injEq, Key.name.injEq]
    by_cases h : k = j
    · rw [if_pos h, if_pos h.symm, h]
    · rw [if_neg h, if_neg fun he => h he.symm]

/-- The last chunk that names a numeric key decides it. -/
theorem chunksEffect_number (k : NumKey) :
    (chunks.foldl chunkEffect cfg).number k =
      (lastChunk (.number k) chunks).elim (cfg.number k)
        fun p => numberOf k ((chunkValue p).getD []) := by
  induction chunks generalizing cfg with
  | nil => rfl
  | cons p ps ih =>
    rw [List.foldl_cons, ih, chunkEffect_number, lastChunk_cons]
    by_cases h : chunkKey p = some (.number k)
    · rw [if_pos h, if_pos h]
      cases lastChunk (.number k) ps <;> rfl
    · rw [if_neg h, if_neg h]

/-- The last chunk that names a name decides it. -/
theorem chunksEffect_name (k : NameKey) :
    (chunks.foldl chunkEffect cfg).name k =
      (lastChunk (.name k) chunks).elim (cfg.name k) fun p => some (nameOf k (chunkValue p)) := by
  induction chunks generalizing cfg with
  | nil => rfl
  | cons p ps ih =>
    rw [List.foldl_cons, ih, chunkEffect_name, lastChunk_cons]
    by_cases h : chunkKey p = some (.name k)
    · rw [if_pos h, if_pos h]
      cases lastChunk (.name k) ps <;> rfl
    · rw [if_neg h, if_neg h]

/-! ## The result -/

/-- The chunks of the file. -/
def chunksOf (config : Bytes) : List Bytes := pieces (BUF_SIZE - 1) config

/-- A numeric field, from the last chunk that names it. -/
def numberField (k : NumKey) (chunk : Option Bytes) : Int :=
  let n := chunk.elim 0 fun p => numberOf k ((chunkValue p).getD [])
  if n = 0 then k.default else n

/-- A name, from the last chunk that names it. -/
def nameField (k : NameKey) (chunk : Option Bytes) : Bytes :=
  chunk.elim k.default fun p => nameOf k (chunkValue p)

/-- `configuration` returns if every chunk has its words. -/
theorem configuration_returns {config : Bytes} :
    (∃ cfg, configuration config = .ok cfg) ↔ ∀ p ∈ chunksOf config, HasWords p := by
  unfold configuration chunksOf
  constructor
  · rintro ⟨cfg, h⟩
    cases hrun : (pieces (BUF_SIZE - 1) config).foldlM configLine .initial with
    | error e =>
      rw [hrun] at h
      cases h
    | ok cfg' => exact (configLines_iff.mp hrun).1
  · intro h
    rw [configLines_iff.mpr ⟨h, rfl⟩]
    exact ⟨_, rfl⟩

/-- What `configuration` returns. -/
theorem configuration_fields {config : Bytes} (h : configuration config = .ok cfg) :
    (∀ k, cfg.number k = numberField k (lastChunk (.number k) (chunksOf config))) ∧
      ∀ k, cfg.name k = some (nameField k (lastChunk (.name k) (chunksOf config))) := by
  unfold configuration at h
  cases hrun : (pieces (BUF_SIZE - 1) config).foldlM configLine .initial with
  | error e =>
    rw [hrun] at h
    cases h
  | ok cfg' =>
    rw [hrun] at h
    cases h
    obtain ⟨-, rfl⟩ := configLines_iff.mp hrun
    refine ⟨fun k => ?_, fun k => ?_⟩
    · simp only [Config.defaults, chunksEffect_number]
      rfl
    · simp only [Config.defaults, chunksEffect_name]
      show some _ = some (nameField k (lastChunk (.name k) (pieces (BUF_SIZE - 1) config)))
      cases lastChunk (.name k) (pieces (BUF_SIZE - 1) config) <;> rfl

end FileStorage.Configuration

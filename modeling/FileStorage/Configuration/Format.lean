import FileStorage.Configuration.Limits

/-!
# What a configuration file means, and what is read from it

A file is made of lines that are empty or have the form `KEY value` or
`KEY value # comment`. What it means is said of the lines: the last line of a key
gives its value (`lastValue`), and a number counts if it is a decimal between 1
and `INT_MAX` (`demandedNumber`).

The code reads chunks. The chunk at the start of a line carries its value only if
a space or the chunk's end comes behind it, because the newline belongs to the
word (`Entry.Marked`); a later chunk is a piece of a long line, and is read like
a line of its own. What a word gives a key is said of the word, too
(`GivesNumber`, `GivesName`), and `fieldOf_eq_iff` and `nameOf_eq_iff` connect it
with the conversions of the code. `configuration_reads_iff` says when the code
still reads what the file means.
-/

namespace FileStorage.Configuration

open FileStorage.Lib
open FileStorage.Wire (toInt32)

/-! ## Files -/

/-- A value: one word, which is no comment. -/
structure ValueWord (w : Bytes) : Prop where
  ne_nil : w ≠ []
  no_space : ∀ c ∈ w, isSpace c = false
  no_nul : 0 ∉ w
  no_comment : w.head? ≠ some hash

/-- `KEY value` or `KEY value # comment`. -/
structure Entry where
  key : Key
  value : Bytes
  comment : Option Bytes
  value_word : ValueWord value
  comment_text : ∀ c ∈ comment, newline ∉ c ∧ 0 ∉ c

inductive Line where
  | empty
  | entry (e : Entry)

/-- What follows the value in the line. -/
def Entry.tail (e : Entry) : Bytes :=
  match e.comment with
  | none => [newline]
  | some c => space :: hash :: (c ++ [newline])

def Entry.text (e : Entry) : Bytes := e.key.text ++ space :: (e.value ++ e.tail)

def Line.text : Line → Bytes
  | .empty => [newline]
  | .entry e => e.text

/-- The bytes of a file. -/
def fileText (lines : List Line) : Bytes := lines.flatMap Line.text

/-! ## What a file means -/

/-- The value that a line gives a key. -/
def Line.valueOf (k : Key) : Line → Option Bytes
  | .empty => none
  | .entry e => if e.key = k then some e.value else none

/-- The value of a key's last line. -/
def lastValue (k : Key) (lines : List Line) : Option Bytes :=
  (lines.filterMap (Line.valueOf k)).getLast?

/-- A run of digits as a number. -/
def natural (d : Bytes) : Option Nat :=
  if d ≠ [] ∧ d.all isDigit = true then some (numeric d) else none

/-- A word as a decimal number. -/
def decimalValue (w : Bytes) : Option Int :=
  match w with
  | 45 :: d => (natural d).map fun n : Nat => -(n : Int)
  | 43 :: d => (natural d).map fun n : Nat => (n : Int)
  | d => (natural d).map fun n : Nat => (n : Int)

/-- What a numeric key must get from its last value: the default without a
positive number, and nothing in particular above `INT_MAX`. -/
def demandedNumber (k : NumKey) (value : Option Bytes) : Option Int :=
  match value.bind decimalValue with
  | none => some k.default
  | some n => if n < 1 then some k.default else if n ≤ INT_MAX then some n else none

/-- The fields hold what the lines say. -/
structure Holds (lines : List Line) (cfg : Config) : Prop where
  number : ∀ k n, demandedNumber k (lastValue (.number k) lines) = some n → cfg.number k = n
  name : ∀ k, cfg.name k = some ((lastValue (.name k) lines).getD k.default)

/-! ## What is read from it -/

/-- The reads of a file: the start of a line with a key, and the others. -/
inductive Chunk where
  | start (e : Entry)
  | other (p : Bytes)

def Chunk.text : Chunk → Bytes
  | .start e => e.text.take (BUF_SIZE - 1)
  | .other p => p

def Line.chunks : Line → List Chunk
  | .empty => [.other [newline]]
  | .entry e => .start e :: (pieces (BUF_SIZE - 1) (e.text.drop (BUF_SIZE - 1))).map .other

/-- The last read of a file that names a key. -/
def decisive (k : Key) (lines : List Line) : Option Chunk :=
  ((lines.flatMap Line.chunks).filter fun c => chunkKey c.text = some k).getLast?

/-- The number that a word stands for, behind the tabs and newlines that it may
begin with. -/
def wordNumber (w : Bytes) : Option Int := decimalValue (w.dropWhile isSpace)

/-- A second word gives a numeric key `n`: it stands for a number that is `n` in 32
bits, or it stands for none that is positive there, and `n` is the default. -/
def GivesNumber (k : NumKey) (n : Int) (value : Option Bytes) : Prop :=
  (∃ m, value.bind wordNumber = some m ∧ 1 ≤ m ∧ m ≤ LONG_MAX ∧ m % 2 ^ 32 = n) ∨
    (n = k.default ∧
      ∀ m, value.bind wordNumber = some m → m < 1 ∨ (m ≤ LONG_MAX ∧ m % 2 ^ 32 = 0))

/-- A second word gives a name `v`: it is `v`, or there is none but a comment, and
`v` is the default. -/
def GivesName (k : NameKey) (v : Bytes) (value : Option Bytes) : Prop :=
  value = some v ∨ (v = k.default ∧ ∀ w, value = some w → w.head? = some hash)

/-- The room for the value in the first chunk of its line. -/
def Entry.room (e : Entry) : Nat := BUF_SIZE - 2 - e.key.text.length

/-- In the first chunk, the value ends at a space or at the chunk's end. -/
def Entry.Marked (e : Entry) : Prop :=
  e.value.length = e.room ∨ (e.value.length < e.room ∧ e.comment ≠ none)

instance (e : Entry) : Decidable e.Marked := inferInstanceAs (Decidable (_ ∨ _))

/-- A line that is not marked gives a numeric key `n`: a value with the newline is
no number, and a cut one counts as far as it goes. -/
def Entry.GivesUnmarked (e : Entry) (k : NumKey) (n : Int) : Prop :=
  if e.value.length < e.room then n = k.default
  else GivesNumber k n (some (e.value.take e.room))

/-- The last chunk that names the key gives what is demanded: the start of a
marked line does, and another one only by coincidence. -/
def Serves (lines : List Line) : Key → Chunk → Prop
  | .number k, .start e =>
    e.Marked ∨ ∀ n, demandedNumber k (some e.value) = some n → e.GivesUnmarked k n
  | .name _, .start e => e.Marked
  | .number k, .other p =>
    ∀ n, demandedNumber k (lastValue (.number k) lines) = some n → GivesNumber k n (chunkValue p)
  | .name k, .other p =>
    GivesName k ((lastValue (.name k) lines).getD k.default) (chunkValue p)

/-! ## Numbers -/

/-- `strtol` reaches the end of a word behind digits only. -/
theorem strtolRest_eq_nil {s : Bytes} (hs : s ≠ []) (h : strtolRest s = []) :
    ∃ d, d ≠ [] ∧ d <:+ s ∧ ∀ c ∈ d, isDigit c = true := by
  have hbehind : ∀ t : Bytes, t <:+ s.dropWhile isSpace →
      (if t.takeWhile isDigit = [] then s else t.dropWhile isDigit) = [] →
      ∃ d, d ≠ [] ∧ d <:+ s ∧ ∀ c ∈ d, isDigit c = true := by
    intro t ht hnil
    split at hnil
    · exact absurd hnil hs
    · next hne =>
      refine ⟨t, fun he => hne (by rw [he]; rfl), ht.trans (List.dropWhile_suffix _), ?_⟩
      exact List.dropWhile_eq_nil_iff.mp hnil
  unfold strtolRest at h
  split at h
  · next t ht => exact hbehind t ⟨[45], ht.symm⟩ h
  · next t ht => exact hbehind t ⟨[43], ht.symm⟩ h
  · exact hbehind _ List.suffix_rfl h

section

variable {w : Bytes}

theorem wordNumber_word (hspace : ∀ c ∈ w, isSpace c = false) :
    wordNumber w = decimalValue w := by
  unfold wordNumber
  congr 1
  rw [List.dropWhile_eq_self_iff]
  intro hlen
  simpa using hspace _ (List.getElem_mem hlen)

theorem wordNumber_ne_nil {m : Int} (h : wordNumber w = some m) : w ≠ [] := by
  rintro rfl
  cases h

/-- The end pointer is at the end exactly behind a number. -/
theorem behind_nil {s t : Bytes} (hs : s ≠ []) :
    (if t.takeWhile isDigit = [] then s else t.dropWhile isDigit) = [] ↔ natural t ≠ none := by
  unfold natural
  by_cases ht : t.takeWhile isDigit = []
  · rw [if_pos ht, if_neg]
    · exact ⟨fun h => absurd h hs, fun h => absurd rfl h⟩
    · rintro ⟨hne, hall⟩
      exact hne (by rw [← List.takeWhile_eq_self_iff.mpr (List.all_eq_true.mp hall), ht])
  · have hne : t ≠ [] := fun he => ht (by rw [he]; rfl)
    rw [if_neg ht, List.dropWhile_eq_nil_iff]
    by_cases hall : ∀ c ∈ t, isDigit c = true
    · rw [if_pos ⟨hne, List.all_eq_true.mpr hall⟩]
      exact ⟨fun _ => Option.some_ne_none _, fun _ => hall⟩
    · rw [if_neg fun h => hall (List.all_eq_true.mp h.2)]
      exact ⟨fun h => absurd h hall, fun h => absurd rfl h⟩

theorem numeric_natural {t : Bytes} {n : Nat} (h : natural t = some n) :
    numeric (t.takeWhile isDigit) = n := by
  unfold natural at h
  split at h
  · next hd =>
    rw [List.takeWhile_eq_self_iff.mpr (List.all_eq_true.mp hd.2)]
    exact Option.some.inj h
  · cases h

/-- A word is accepted as a number exactly if it stands for one. -/
theorem strtolRest_word (hne : w ≠ []) : strtolRest w = [] ↔ wordNumber w ≠ none := by
  unfold strtolRest wordNumber decimalValue
  generalize w.dropWhile isSpace = t
  split
  · next d =>
    show _ ↔ ¬ (natural d).map (fun n : Nat => -(n : Int)) = none
    rw [Option.map_eq_none_iff]
    exact behind_nil hne
  · next d =>
    show _ ↔ ¬ (natural d).map (fun n : Nat => (n : Int)) = none
    rw [Option.map_eq_none_iff]
    exact behind_nil hne
  · next hminus hplus =>
    split
    · next d => exact absurd rfl (hminus d)
    · next d => exact absurd rfl (hplus d)
    · rw [Ne, Option.map_eq_none_iff]
      exact behind_nil hne

/-- And its value is read, as far as it fits a `long`. -/
theorem strtol_word {n : Int} (h : wordNumber w = some n) :
    strtol w = max (min n LONG_MAX) LONG_MIN := by
  have hpos : ∀ m : Nat, (min (m : Int) LONG_MAX) = max (min (m : Int) LONG_MAX) LONG_MIN := by
    intro m
    unfold LONG_MAX LONG_MIN
    omega
  unfold wordNumber decimalValue at h
  unfold strtol
  generalize w.dropWhile isSpace = t at h ⊢
  split at h
  · next d =>
    obtain ⟨m, hm, rfl⟩ := Option.map_eq_some_iff.mp h
    show max (-(numeric (d.takeWhile isDigit) : Int)) LONG_MIN = _
    rw [numeric_natural hm]
    unfold LONG_MAX LONG_MIN
    omega
  · next d =>
    obtain ⟨m, hm, rfl⟩ := Option.map_eq_some_iff.mp h
    show min (numeric (d.takeWhile isDigit) : Int) LONG_MAX = _
    rw [numeric_natural hm]
    exact hpos m
  · next hminus hplus =>
    obtain ⟨m, hm, rfl⟩ := Option.map_eq_some_iff.mp h
    split
    · next d => exact absurd rfl (hminus d)
    · next d => exact absurd rfl (hplus d)
    · rw [numeric_natural hm]
      exact hpos m

end

/-- A numeric field that is read from a word. -/
def fieldOf (k : NumKey) (word : Bytes) : Int :=
  if numberOf k word = 0 then k.default else numberOf k word

theorem default_ne_zero (k : NumKey) : k.default ≠ 0 := by
  cases k <;> decide

theorem fieldOf_default {k : NumKey} {word : Bytes} (h : numberOf k word = k.default) :
    fieldOf k word = k.default := by
  unfold fieldOf
  rw [h, if_neg (default_ne_zero k)]

/-- Without a number in it, a word gives the default. -/
theorem fieldOf_none {k : NumKey} {value : Option Bytes} (h : value.bind wordNumber = none) :
    fieldOf k (value.getD []) = k.default := by
  refine fieldOf_default ?_
  cases value with
  | none => rfl
  | some w =>
    by_cases hne : w = []
    · rw [hne]
      rfl
    · exact if_neg fun hnil => (strtolRest_word hne).mp hnil h

/-- A number in it is checked as a `long` and kept as an `int`. -/
theorem numberOf_some {k : NumKey} {w : Bytes} {m : Int} (h : wordNumber w = some m) :
    numberOf k w = if m < 1 then k.default else toInt32 (min m LONG_MAX) := by
  have hval := strtol_word h
  have hnil : strtolRest w = [] := by
    refine (strtolRest_word (wordNumber_ne_nil h)).mpr fun hnone => ?_
    rw [hnone] at h
    cases h
  unfold numberOf
  rw [if_pos hnil]
  by_cases hlow : m < 1
  · have hlt : strtol w < 1 := by
      rw [hval]
      unfold LONG_MAX LONG_MIN
      omega
    rw [if_pos hlow, if_pos hlt]
  · have heq : strtol w = min m LONG_MAX := by
      rw [hval]
      unfold LONG_MAX LONG_MIN
      omega
    have hge : ¬ strtol w < 1 := by
      rw [heq]
      unfold LONG_MAX
      omega
    rw [if_neg hlow, if_neg hge, heq]

/-- The conversion of the code gives a positive number exactly where the word
does. -/
theorem fieldOf_eq_iff {k : NumKey} {n : Int} (value : Option Bytes) (hlow : 1 ≤ n)
    (hhigh : n ≤ INT_MAX) : fieldOf k (value.getD []) = n ↔ GivesNumber k n value := by
  unfold GivesNumber
  cases hv : value.bind wordNumber with
  | none =>
    rw [fieldOf_none hv]
    refine ⟨fun h => .inr ⟨h.symm, fun m hm => by cases hm⟩, fun h => ?_⟩
    obtain ⟨m, hm, -⟩ | ⟨hn, -⟩ := h
    · cases hm
    · exact hn.symm
  | some m =>
    obtain ⟨w, rfl, hw⟩ := Option.bind_eq_some_iff.mp hv
    have hdef := default_ne_zero k
    have hnum := numberOf_some (k := k) hw
    -- the value as an `int`: above `LONG_MAX` it is -1
    have hint := toInt32_cases (min m LONG_MAX)
    unfold fieldOf
    rw [Option.getD_some, hnum]
    simp only [Option.some.injEq, exists_eq_left', forall_eq']
    unfold INT_MAX at hhigh
    unfold LONG_MAX at hint ⊢
    by_cases hm : m < 1
    · rw [if_pos hm, if_neg hdef]
      omega
    · rw [if_neg hm]
      split <;> omega

/-- What is demanded of a number fits an `int`. -/
theorem demandedNumber_range {k : NumKey} {value : Option Bytes} {n : Int}
    (h : demandedNumber k value = some n) : 1 ≤ n ∧ n ≤ INT_MAX := by
  unfold demandedNumber at h
  split at h
  · cases h
    exact default_positive k
  · split at h
    · cases h
      exact default_positive k
    · split at h
      · cases h
        omega
      · cases h

/-- A value as it stands gives what is demanded. -/
theorem givesNumber_word {k : NumKey} {w : Bytes} (hw : ValueWord w) {n : Int}
    (h : demandedNumber k (some w) = some n) : GivesNumber k n (some w) := by
  unfold demandedNumber at h
  unfold GivesNumber
  rw [Option.bind_some] at h ⊢
  rw [wordNumber_word hw.no_space]
  cases hv : decimalValue w with
  | none =>
    rw [hv] at h
    cases h
    exact .inr ⟨rfl, fun m hm => by cases hm⟩
  | some m =>
    rw [hv] at h
    dsimp only at h
    split at h
    · next hlow =>
      cases h
      exact .inr ⟨rfl, fun j hj => .inl (Option.some.inj hj ▸ hlow)⟩
    · next hpos =>
      split at h
      · next hmax =>
        cases h
        unfold INT_MAX at hmax
        refine .inl ⟨n, rfl, ?_, ?_, ?_⟩
        · omega
        · unfold LONG_MAX
          omega
        · omega
      · cases h

/-- A newline in the word makes it no number. -/
theorem fieldOf_newline (k : NumKey) (w : Bytes) : fieldOf k (w ++ [newline]) = k.default := by
  refine fieldOf_default ?_
  unfold numberOf
  rw [if_neg]
  intro hnil
  obtain ⟨d, hd, hsuffix, hall⟩ := strtolRest_eq_nil (by simp) hnil
  have hlast : d.getLast hd = newline := by
    rw [hsuffix.getLast hd]
    simp
  have hdigit := hall _ (List.getLast_mem hd)
  rw [hlast] at hdigit
  cases hdigit

/-! ## Names -/

theorem head_hash {w : Bytes} : strncmpEq w [hash] 1 = true ↔ w.head? = some hash := by
  refine (strncmpEq_length w [hash]).trans ?_
  cases w with
  | nil => simp
  | cons c w => simp [eq_comm]

/-- The conversion of the code gives a word that is no comment exactly where the
word is there. -/
theorem nameOf_eq_iff {k : NameKey} {v : Bytes} {value : Option Bytes}
    (hv : v.head? ≠ some hash) : nameOf k value = v ↔ GivesName k v value := by
  unfold GivesName nameOf
  cases value with
  | none =>
    refine ⟨fun h => .inr ⟨h.symm, fun w hw => by cases hw⟩, fun h => ?_⟩
    obtain h | ⟨h, -⟩ := h
    · cases h
    · exact h.symm
  | some w =>
    simp only [Option.some.injEq, forall_eq']
    by_cases hw : w.head? = some hash
    · have hne : w ≠ v := fun he => hv (he ▸ hw)
      rw [if_pos (head_hash.mpr hw)]
      exact ⟨fun h => .inr ⟨h.symm, hw⟩, fun h => (h.resolve_left hne).1.symm⟩
    · rw [if_neg fun h => hw (head_hash.mp h)]
      exact ⟨.inl, fun h => h.resolve_right fun hd => hw hd.2⟩

end FileStorage.Configuration

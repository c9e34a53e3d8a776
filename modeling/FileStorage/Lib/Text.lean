import Mathlib.Data.List.Basic
import Mathlib.Data.List.TakeWhile
import Mathlib.Tactic.IntervalCases

/-!
# C strings, their tokens and numbers

A C string is the list of its bytes before the terminating NUL; a buffer is the
list of all its bytes. `cstr` reads the string that starts a buffer.

The parts of `<string.h>` and `<stdlib.h>` that text protocols are built from
follow, on NUL-free byte lists: the bounded comparison, the tokens of `strtok_r`
for one delimiter, the numbers of `strtol` in base ten, the decimal text that
`printf` writes, and the bytes of an unsigned integer in memory.

The comparison `strncmp(a, b, n) == 0` looks at no more than `n` bytes of each
string and stops at the end of either, so on NUL-free strings it compares the
two prefixes: `strncmpEq`. With `n = strlen(b)` it is a *prefix* test
(`strncmpEq_length`), not an equality test.

`strtok` returns the token and what the save pointer leads to; both ends of a
destructive tokeniser are needed, because callers keep the save pointer.
`tokens` is the loop that calls it until it returns NULL.

The round trips are `strtol_decimal`, `readLE_leBytes`, `strtok_append` (a
word comes back and the rest of the text is untouched) and `tokens_joined` (a
list of words comes back, whatever its length).
-/

namespace FileStorage.Lib

/-! ## Strings -/

/-- Bytes, also the characters of a C string. -/
abbrev Bytes := List UInt8

/-- The C string that starts the buffer: everything before the first NUL. -/
def cstr (buf : Bytes) : Bytes := buf.takeWhile (· != 0)

/-- `strncmp(a, b, n) == 0` on C strings. -/
def strncmpEq (a b : Bytes) (n : Nat) : Bool := a.take n == b.take n

/-- Bounding the comparison by the length of the second string asks only
whether that string is a prefix of the first. -/
theorem strncmpEq_length (a b : Bytes) : strncmpEq a b b.length = true ↔ b <+: a := by
  unfold strncmpEq
  rw [beq_iff_eq, List.take_length, List.prefix_iff_eq_take]
  exact eq_comm

/-! ## Tokens -/

/-- `strtok_r` with the delimiter `d`: the token (`none` is `NULL`), and the
string at the save pointer afterwards. -/
def strtok (d : UInt8) (s : Bytes) : Option Bytes × Bytes :=
  let s := s.dropWhile (· == d)
  if s = [] then (none, [])
  else (some (s.takeWhile (· != d)), (s.dropWhile (· != d)).drop 1)

/-- The C string that `strtok_r` leaves where its argument began: it overwrites
the delimiter behind the token. -/
def strtokLeft (d : UInt8) (s : Bytes) : Bytes :=
  s.takeWhile (· == d) ++ ((strtok d s).1.getD [])

/-- A word that a text with the delimiter `d` can carry. -/
structure Word (d : UInt8) (w : Bytes) : Prop where
  ne_nil : w ≠ []
  no_delim : d ∉ w
  no_nul : (0 : UInt8) ∉ w

section

variable {d : UInt8}

theorem dropWhile_delim {w : Bytes} (hne : w ≠ []) (hc : d ∉ w) (s : Bytes) :
    (w ++ s).dropWhile (· == d) = w ++ s := by
  cases w with
  | nil => exact absurd rfl hne
  | cons c w =>
    have : c ≠ d := fun h => hc (h ▸ List.mem_cons_self)
    simp [this]

theorem ne_delim {w : Bytes} (hc : d ∉ w) : ∀ c ∈ w, (c != d) = true := by
  intro c h
  have : c ≠ d := fun he => hc (he ▸ h)
  simpa using this

theorem takeWhile_word {w : Bytes} (hc : d ∉ w) (s : Bytes) :
    (w ++ d :: s).takeWhile (· != d) = w := by
  rw [List.takeWhile_append_of_pos (ne_delim hc)]
  simp

theorem dropWhile_word {w : Bytes} (hc : d ∉ w) (s : Bytes) :
    (w ++ d :: s).dropWhile (· != d) = d :: s := by
  rw [List.dropWhile_append_of_pos (ne_delim hc)]
  simp

/-- A word in front of a delimiter is the token, and the rest stays as it is. -/
theorem strtok_append {w : Bytes} (hne : w ≠ []) (hc : d ∉ w) (s : Bytes) :
    strtok d (w ++ d :: s) = (some w, s) := by
  have : w ++ d :: s ≠ [] := by simp
  simp only [strtok, dropWhile_delim hne hc, if_neg this, takeWhile_word hc, dropWhile_word hc,
    List.drop_succ_cons, List.drop_zero]

/-- A word that ends the text is the last token. -/
theorem strtok_word {w : Bytes} (hne : w ≠ []) (hc : d ∉ w) : strtok d w = (some w, []) := by
  have hdrop : w.dropWhile (· == d) = w := by
    simpa using dropWhile_delim hne hc []
  have htake : w.takeWhile (· != d) = w := List.takeWhile_eq_self_iff.mpr (ne_delim hc)
  have hend : w.dropWhile (· != d) = [] := List.dropWhile_eq_nil_iff.mpr (ne_delim hc)
  simp only [strtok, hdrop, if_neg hne, htake, hend, List.drop_nil]

/-- What is left in place of a tokenised text is its first token. -/
theorem strtokLeft_append {w : Bytes} (hne : w ≠ []) (hc : d ∉ w) (s : Bytes) :
    strtokLeft d (w ++ d :: s) = w := by
  unfold strtokLeft
  rw [strtok_append hne hc]
  cases w with
  | nil => exact absurd rfl hne
  | cons c w =>
    have : c ≠ d := fun h => hc (h ▸ List.mem_cons_self)
    simp [this]

/-- A token is a word of the text: not empty, and without a delimiter. -/
theorem strtok_no_delim {s t : Bytes} (h : (strtok d s).1 = some t) : t ≠ [] ∧ d ∉ t := by
  simp only [strtok] at h
  split at h
  · cases h
  · next hne =>
    cases h
    refine ⟨fun he => ?_, fun hm => ?_⟩
    · -- the first byte that is left is not a delimiter
      cases hd : s.dropWhile (· == d) with
      | nil => exact hne hd
      | cons c r =>
        have hc : ¬ (c == d) = true := by
          have := List.head_dropWhile_not (p := (· == d)) (l := s) hne
          simpa [hd] using this
        rw [hd, List.takeWhile_cons_of_pos (by simpa using hc)] at he
        cases he
    · simpa using List.mem_takeWhile_imp hm

/-- `strtok_r` makes the text shorter until it returns `NULL`. -/
theorem length_strtok_lt {s t : Bytes} (h : (strtok d s).1 = some t) :
    (strtok d s).2.length < s.length := by
  simp only [strtok] at h ⊢
  split at h
  · cases h
  · next hne =>
    rw [if_neg hne]
    have hs : (s.dropWhile (· == d)).length ≤ s.length :=
      (List.dropWhile_sublist _).length_le
    have hd : ((s.dropWhile (· == d)).dropWhile (· != d)).length ≤
        (s.dropWhile (· == d)).length := (List.dropWhile_sublist _).length_le
    have hpos : 0 < (s.dropWhile (· == d)).length := List.length_pos_iff.mpr hne
    rw [List.length_drop]
    omega

/-- The loop that takes tokens until `NULL`. -/
def tokens (d : UInt8) (s : Bytes) : List Bytes :=
  match _h : (strtok d s).1 with
  | none => []
  | some t => t :: tokens d (strtok d s).2
termination_by s.length
decreasing_by exact length_strtok_lt _h

/-- Each word behind a delimiter: how a list is appended to a text. -/
def joined (d : UInt8) (ws : List Bytes) : Bytes := ws.flatMap (d :: ·)

theorem tokens_eq {s : Bytes} {t r : Bytes} (h : strtok d s = (some t, r)) :
    tokens d s = t :: tokens d r := by
  rw [tokens]
  split
  · next h' =>
    rw [h] at h'
    cases h'
  · next h' =>
    rw [h] at h' ⊢
    cases h'
    rfl

@[simp] theorem tokens_nil : tokens d [] = [] := by
  rw [tokens]
  split
  · rfl
  · next h => cases h

/-- Without a token there is nothing left behind it. -/
theorem strtok_none {s : Bytes} (h : (strtok d s).1 = none) : strtok d s = (none, []) := by
  simp only [strtok] at h ⊢
  split at h
  · next hnil => rw [if_pos hnil]
  · cases h

theorem tokens_eq_nil {s : Bytes} : tokens d s = [] ↔ (strtok d s).1 = none := by
  cases h : strtok d s with
  | mk o r =>
    cases o with
    | none =>
      rw [tokens]
      split
      · exact ⟨fun _ => rfl, fun _ => rfl⟩
      · next h' =>
        rw [h] at h'
        cases h'
    | some t =>
      rw [tokens_eq h]
      exact ⟨(fun he => by cases he), (fun he => by cases he)⟩

/-- The string that is left in place of a text has its first token. -/
theorem strtok_strtokLeft (s : Bytes) : (strtok d (strtokLeft d s)).1 = (strtok d s).1 := by
  have hskip : ∀ c ∈ s.takeWhile (· == d), (c == d) = true :=
    fun c hc => List.mem_takeWhile_imp (p := (· == d)) hc
  cases h : (strtok d s).1 with
  | none =>
    have hdrop : (s.takeWhile (· == d)).dropWhile (· == d) = [] :=
      List.dropWhile_eq_nil_iff.mpr hskip
    unfold strtokLeft
    rw [h]
    simp only [strtok, Option.getD_none, List.append_nil, hdrop, if_true]
  | some t =>
    obtain ⟨hne, hnd⟩ := strtok_no_delim h
    have hdrop : (s.takeWhile (· == d) ++ t).dropWhile (· == d) = t := by
      rw [List.dropWhile_append_of_pos hskip]
      simpa using dropWhile_delim hne hnd []
    have htake : t.takeWhile (· != d) = t := List.takeWhile_eq_self_iff.mpr (ne_delim hnd)
    unfold strtokLeft
    rw [h]
    simp only [strtok, Option.getD_some, hdrop, if_neg hne, htake]

/-- The words of a list come back in order. -/
theorem tokens_joined {ws : List Bytes} (h : ∀ w ∈ ws, Word d w) :
    tokens d ((joined d ws).drop 1) = ws := by
  induction ws with
  | nil => exact tokens_nil
  | cons w ws ih =>
    have hw := h w List.mem_cons_self
    have ih := ih fun v hv => h v (List.mem_cons_of_mem w hv)
    show tokens d (w ++ joined d ws) = w :: ws
    cases ws with
    | nil =>
      show tokens d (w ++ []) = [w]
      rw [List.append_nil, tokens_eq (strtok_word hw.ne_nil hw.no_delim), tokens_nil]
    | cons v ws =>
      have hcons : joined d (v :: ws) = d :: (v ++ joined d ws) := rfl
      rw [hcons] at ih ⊢
      rw [tokens_eq (strtok_append hw.ne_nil hw.no_delim _)]
      exact congrArg _ ih

end

/-! ## Numbers -/

def isDigit (c : UInt8) : Bool := 48 ≤ c && c ≤ 57

/-- The bytes `strtol` skips. -/
def isSpace (c : UInt8) : Bool := c == 32 || (9 ≤ c && c ≤ 13)

/-- The value of a run of digits. -/
def numeric (s : Bytes) : Nat := s.foldl (fun v c => 10 * v + (c.toNat - 48)) 0

def LONG_MAX : Int := 2 ^ 63 - 1

def LONG_MIN : Int := -2 ^ 63

/-- `strtol` in base ten. -/
def strtol (s : Bytes) : Int :=
  match s.dropWhile isSpace with
  | 45 :: s => max (-(numeric (s.takeWhile isDigit) : Int)) LONG_MIN
  | 43 :: s => min (numeric (s.takeWhile isDigit) : Int) LONG_MAX
  | s => min (numeric (s.takeWhile isDigit) : Int) LONG_MAX

/-- The string at the end pointer of `strtol`: what follows the number, and the
whole string where there is none. -/
def strtolRest (s : Bytes) : Bytes :=
  let behind (t : Bytes) : Bytes := if t.takeWhile isDigit = [] then s else t.dropWhile isDigit
  match s.dropWhile isSpace with
  | 45 :: t => behind t
  | 43 :: t => behind t
  | t => behind t

/-- The decimal text of a number that is not negative. -/
def decimal (n : Nat) : Bytes := (Nat.toDigits 10 n).map fun c => UInt8.ofNat c.toNat

theorem digitChar_byte : ∀ {d : Nat}, d < 10 →
    UInt8.ofNat d.digitChar.toNat = UInt8.ofNat (48 + d) := by
  intro d hd
  interval_cases d <;> rfl

theorem isDigit_byte : ∀ {d : Nat}, d < 10 →
    isDigit (UInt8.ofNat (48 + d)) = true ∧ (UInt8.ofNat (48 + d)).toNat - 48 = d := by
  intro d hd
  interval_cases d <;> decide

/-- The last digit of a decimal text, and the text before it. -/
theorem decimal_eq (n : Nat) :
    decimal n = (if n < 10 then [] else decimal (n / 10)) ++ [UInt8.ofNat (48 + n % 10)] := by
  unfold decimal
  split
  · next h =>
    rw [Nat.toDigits_of_lt_base h, Nat.mod_eq_of_lt h]
    simp only [List.map_cons, List.map_nil, List.nil_append, digitChar_byte h]
  · next h =>
    rw [Nat.toDigits_of_base_le (by omega) (by omega), List.map_append]
    simp only [List.map_cons, List.map_nil, digitChar_byte (Nat.mod_lt n (by omega : 0 < 10))]

theorem decimal_digits (n : Nat) : ∀ c ∈ decimal n, isDigit c = true := by
  induction n using Nat.strongRecOn with
  | ind n ih =>
    rw [decimal_eq]
    intro c hc
    rcases List.mem_append.mp hc with hc | hc
    · split at hc
      · cases hc
      · next h => exact ih (n / 10) (by omega) c hc
    · rw [List.mem_singleton.mp hc]
      exact (isDigit_byte (Nat.mod_lt n (by omega))).1

theorem decimal_ne_nil (n : Nat) : decimal n ≠ [] := by
  rw [decimal_eq]
  simp

theorem numeric_decimal (n : Nat) : numeric (decimal n) = n := by
  induction n using Nat.strongRecOn with
  | ind n ih =>
    have hlast := (isDigit_byte (Nat.mod_lt n (by omega : 0 < 10))).2
    rw [decimal_eq]
    split
    · next h =>
      simp only [numeric, List.nil_append, List.foldl_cons, List.foldl_nil, hlast]
      omega
    · next h =>
      have hn := ih (n / 10) (by omega)
      unfold numeric at hn ⊢
      rw [List.foldl_append, hn]
      simp only [List.foldl_cons, List.foldl_nil, hlast]
      omega

/-- Digits are neither signs, blanks nor NUL. -/
theorem isDigit_ne {c : UInt8} (h : isDigit c = true) :
    c ≠ 0 ∧ c ≠ 45 ∧ c ≠ 43 ∧ isSpace c = false := by
  simp only [isDigit, Bool.and_eq_true, decide_eq_true_eq, UInt8.le_iff_toNat_le] at h
  have hne : ∀ k : UInt8, k.toNat < 48 → c ≠ k := by
    intro k hk heq
    subst heq
    exact absurd h.1 (Nat.not_le.mpr hk)
  refine ⟨hne 0 (by decide), hne 45 (by decide), hne 43 (by decide), ?_⟩
  have h32 : (c == 32) = false := by simpa using hne 32 (by decide)
  have h13 : ¬ c ≤ 13 := by
    rw [UInt8.le_iff_toNat_le]
    exact Nat.not_le.mpr (Nat.lt_of_lt_of_le (by decide) h.1)
  simp [isSpace, h32, h13]

/-- What `printf` writes, `strtol` reads, if it fits a `long`. -/
theorem strtol_decimal {n : Nat} (h : (n : Int) ≤ LONG_MAX) : strtol (decimal n) = n := by
  have hdig := decimal_digits n
  have htake : (decimal n).takeWhile isDigit = decimal n := List.takeWhile_eq_self_iff.mpr hdig
  cases hd : decimal n with
  | nil => exact absurd hd (decimal_ne_nil n)
  | cons c s =>
    obtain ⟨-, hminus, hplus, hspace⟩ := isDigit_ne (hdig c (by rw [hd]; simp))
    have hskip : (c :: s).dropWhile isSpace = c :: s := by
      rw [List.dropWhile_cons, hspace]
      rfl
    unfold strtol
    rw [hskip]
    split
    · next he => cases he; exact absurd rfl hminus
    · next he => cases he; exact absurd rfl hplus
    · rw [← hd, htake, numeric_decimal]
      exact min_eq_left h

/-- A decimal text is a word for every delimiter that is not a digit. -/
theorem decimal_word {d : UInt8} (hd : isDigit d = false) (n : Nat) : Word d (decimal n) where
  ne_nil := decimal_ne_nil n
  no_delim h := by
    have := decimal_digits n d h
    rw [hd] at this
    cases this
  no_nul h := (isDigit_ne (decimal_digits n _ h)).1 rfl

/-! ## Integers in memory -/

/-- The bytes of an unsigned integer, lowest first. -/
def leBytes : Nat → Nat → Bytes
  | 0, _ => []
  | k + 1, n => UInt8.ofNat n :: leBytes k (n / 256)

def readLE : Bytes → Nat
  | [] => 0
  | b :: bs => b.toNat + 256 * readLE bs

@[simp] theorem length_leBytes (k n : Nat) : (leBytes k n).length = k := by
  induction k generalizing n with
  | zero => rfl
  | succ k ih =>
    show (leBytes k (n / 256)).length + 1 = k + 1
    rw [ih]

theorem readLE_leBytes {k n : Nat} (h : n < 256 ^ k) : readLE (leBytes k n) = n := by
  induction k generalizing n with
  | zero =>
    have : n = 0 := by simpa using h
    rw [this]
    rfl
  | succ k ih =>
    have hn : n / 256 < 256 ^ k := by
      rw [Nat.div_lt_iff_lt_mul (by omega)]
      rwa [Nat.pow_succ] at h
    show (UInt8.ofNat n).toNat + 256 * readLE (leBytes k (n / 256)) = n
    rw [ih hn, UInt8.toNat_ofNat']
    omega

/-! ## C strings in a zeroed buffer -/

/-- A NUL behind a buffer does not change the C string that starts it. -/
theorem cstr_append_zero (s : Bytes) : cstr (s ++ [0]) = cstr s := by
  unfold cstr
  induction s with
  | nil => rfl
  | cons c s ih =>
    rw [List.cons_append, List.takeWhile_cons, List.takeWhile_cons, ih]

/-- A NUL-free text with a NUL behind it is the C string of its buffer. -/
theorem cstr_append_nul {s : Bytes} (h : (0 : UInt8) ∉ s) (t : Bytes) :
    cstr (s ++ 0 :: t) = s := by
  have hall : ∀ c ∈ s, (c != 0) = true := by
    intro c hc
    have : c ≠ 0 := fun he => h (he ▸ hc)
    simpa using this
  unfold cstr
  rw [List.takeWhile_append_of_pos hall]
  simp

end FileStorage.Lib

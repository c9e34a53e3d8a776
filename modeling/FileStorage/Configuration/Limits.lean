import FileStorage.Configuration.Model

/-!
# The limits the server starts with

A number that `strtol` accepts is checked as a `long` and kept as an `int`. The
last pass repairs the 0 that the conversion can leave, but not the negative
values: a limit is positive exactly if the last number given for it is not in
the upper half of the 32-bit range (`limits_iff`).
-/

namespace FileStorage.Configuration

open FileStorage.Lib
open FileStorage.Wire (toInt32)

def INT_MAX : Int := 2 ^ 31 - 1

/-- All three limits can be used as sizes. -/
def PositiveLimits (cfg : Config) : Prop := ∀ k, 1 ≤ cfg.number k ∧ cfg.number k ≤ INT_MAX

/-- A word that is accepted as a number keeps its sign in an `int`. -/
def keepsSign (token : Bytes) : Prop :=
  strtolRest token = [] → 1 ≤ strtol token → strtol token % 2 ^ 32 < 2 ^ 31

/-- The last value given for each limit keeps its sign. -/
def LimitsKeepSign (config : Bytes) : Prop :=
  ∀ k chunk value, lastChunk (.number k) (chunksOf config) = some chunk →
    chunkValue chunk = some value → keepsSign value

theorem default_positive (k : NumKey) : 1 ≤ k.default ∧ k.default ≤ INT_MAX := by
  cases k <;> decide

/-- A `long` as an `int`: the upper half of the range becomes negative. -/
theorem toInt32_cases (n : Int) :
    n % 2 ^ 32 < 2 ^ 31 ∧ toInt32 n = n % 2 ^ 32 ∨
      2 ^ 31 ≤ n % 2 ^ 32 ∧ toInt32 n = n % 2 ^ 32 - 2 ^ 32 := by
  unfold toInt32
  rw [Int.bmod_def]
  split <;> omega

/-- After the conversion and the last pass, a number is positive if it kept its
sign. -/
theorem toInt32_repaired (k : NumKey) (n : Int) :
    (1 ≤ (if toInt32 n = 0 then k.default else toInt32 n) ∧
      (if toInt32 n = 0 then k.default else toInt32 n) ≤ INT_MAX) ↔ n % 2 ^ 32 < 2 ^ 31 := by
  have hcases := toInt32_cases n
  by_cases hz : toInt32 n = 0
  · rw [if_pos hz]
    exact ⟨fun _ => by omega, fun _ => default_positive k⟩
  · rw [if_neg hz]
    unfold INT_MAX
    omega

/-- The field that comes from a word is positive if the word keeps its sign. -/
theorem numberOf_positive (k : NumKey) (token : Bytes) :
    (1 ≤ (if numberOf k token = 0 then k.default else numberOf k token) ∧
      (if numberOf k token = 0 then k.default else numberOf k token) ≤ INT_MAX) ↔
      keepsSign token := by
  have hdef : k.default ≠ 0 := by cases k <;> decide
  unfold numberOf keepsSign
  by_cases hrest : strtolRest token = []
  · by_cases hpos : strtol token < 1
    · simp only [if_pos hrest, if_pos hpos, if_neg hdef]
      exact ⟨fun _ _ h => absurd h (by omega), fun _ => default_positive k⟩
    · simp only [if_pos hrest, if_neg hpos]
      rw [toInt32_repaired]
      exact ⟨fun h _ _ => h, fun h => h hrest (by omega)⟩
  · simp only [if_neg hrest, if_neg hdef]
    exact ⟨fun _ h => absurd h hrest, fun _ => default_positive k⟩

/-- The limits are positive exactly if the last value given for each keeps its
sign in an `int`. -/
theorem limits_iff {config : Bytes} {cfg : Config} (h : configuration config = .ok cfg) :
    PositiveLimits cfg ↔ LimitsKeepSign config := by
  have hwords := configuration_returns.mp ⟨cfg, h⟩
  have hfield := (configuration_fields h).1
  refine forall_congr' fun k => ?_
  rw [hfield k]
  cases hlast : lastChunk (.number k) (chunksOf config) with
  | none =>
    refine ⟨fun _ chunk value hn => (by cases hn), fun _ => ?_⟩
    exact default_positive k
  | some chunk =>
    have hmem := List.mem_of_getLast? hlast
    have hkey : chunkKey chunk = some (.number k) := by
      simpa using (List.mem_filter.mp hmem).2
    obtain ⟨value, hvalue⟩ :=
      Option.ne_none_iff_exists'.mp ((hwords chunk (List.mem_filter.mp hmem).1).value k hkey)
    have hone := numberOf_positive k value
    unfold numberField
    rw [Option.elim_some, hvalue, Option.getD_some]
    refine hone.trans ⟨fun hs c v hc hv => ?_, fun hs => hs chunk value rfl hvalue⟩
    cases hc
    rw [hvalue] at hv
    cases hv
    exact hs

/-- The line `N_THREAD 4 #` gives a positive limit. -/
theorem limits_four :
    ∃ cfg, configuration [78, 95, 84, 72, 82, 69, 65, 68, 32, 52, 32, 35, 10] = .ok cfg ∧
      PositiveLimits cfg := by
  have hkeeps : LimitsKeepSign [78, 95, 84, 72, 82, 69, 65, 68, 32, 52, 32, 35, 10] := by
    intro k chunk value hlast hvalue
    cases k with
    | nThread =>
      cases hlast
      cases hvalue
      exact fun _ _ => by decide
    | nFile => cases hlast
    | memSize => cases hlast
  exact ⟨_, rfl, (limits_iff rfl).mpr hkeeps⟩

/-- `N_THREAD 2147483648 #` starts the server with -2147483648 threads. -/
theorem limits_negative :
    ¬ ∀ config cfg, configuration config = .ok cfg → PositiveLimits cfg := by
  intro h
  have hbad := (h [78, 95, 84, 72, 82, 69, 65, 68, 32, 50, 49, 52, 55, 52, 56, 51, 54, 52, 56, 32,
    35, 10] _ rfl .nThread).1
  exact absurd hbad (by decide)

end FileStorage.Configuration

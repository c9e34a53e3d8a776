import FileStorage.Lib.Run

/-!
# Connecting to the server

`openConnection` tries `connect` every `msec` milliseconds until `abstime` is
up. The outcomes of the attempts are given from outside, one for each attempt;
what the model follows is `errno`, the attempts made and the countdown
`abs_time.tv_nsec`, from which the code subtracts milliseconds.

The macro around `connect` ends the process at the first attempt that fails, so
the branch that waits is never taken, and the guard in front of the loop compares
milliseconds with nanoseconds. `openConnection_iff` says for which outcomes the
result is still right.
-/

namespace FileStorage.Client.Connect

open FileStorage.Lib

def ENOENT : Nat := 2

def ECONNREFUSED : Nat := 111

/-- What `connect` does: it succeeds, or fails with an `errno`. -/
inductive Outcome where
  | success
  | failure (errno : Nat)
  deriving DecidableEq

/-- `struct timespec`. -/
structure Timespec where
  tvSec : Int
  tvNsec : Int

/-- In nanoseconds. -/
def Timespec.duration (t : Timespec) : Int := t.tvSec * 1000000000 + t.tvNsec

inductive State where
  /-- At the loop's condition. -/
  | trying (tvNsec : Int) (attempts : Nat)
  | returned (ret : Int) (errno : Nat) (attempts : Nat)
  | exited (errno : Nat) (attempts : Nat)
  deriving DecidableEq

/-- The value and the `errno` of `connect`, after `errno = 0`. -/
def connect : Outcome → Int × Nat
  | .success => (0, 0)
  | .failure errno => (-1, errno)

/-- `openConnection`, behind `socket`: the guard of the loop. -/
def openConnection (msec : Nat) (abstime : Timespec) : State :=
  if msec < abstime.tvNsec then .trying abstime.tvNsec 0 else .returned (-1) ECONNREFUSED 0

/-- A turn of the loop, and its end. -/
def step (msec : Nat) (outcomes : Nat → Outcome) : State → Option State
  | .trying tvNsec attempts =>
    if 0 < tvNsec then
      let (ret, errno) := connect (outcomes attempts)
      -- CHECK_EQ_EXIT
      if ret = -1 then some (.exited errno (attempts + 1))
      else if errno = ENOENT then some (.trying (tvNsec - msec) (attempts + 1))
      else some (.returned 0 errno (attempts + 1))
    else some (.returned (-1) ECONNREFUSED attempts)
  | _ => none

/-- The pause between two attempts in nanoseconds. -/
def pause (msec : Nat) : Int := msec * 1000000

/-- An attempt within the time succeeds, behind attempts that found no socket. -/
def SucceedsInTime (msec : Nat) (abstime : Timespec) (outcomes : Nat → Outcome) : Prop :=
  ∃ i : Nat, i * pause msec < abstime.duration ∧ outcomes i = .success ∧
    ∀ j < i, outcomes j = .failure ENOENT

/-- The result that is promised. -/
def Right (msec : Nat) (abstime : Timespec) (outcomes : Nat → Outcome) : State → Prop
  | .returned ret errno attempts =>
    (SucceedsInTime msec abstime outcomes ∧ ret = 0) ∨
      (¬ SucceedsInTime msec abstime outcomes ∧ ret = -1 ∧ errno ≠ 0 ∧
        attempts * pause msec ≤ abstime.duration)
  | _ => False

/-- `openConnection` comes to an end that is right. -/
def RetriesInTime (msec : Nat) (abstime : Timespec) (outcomes : Nat → Outcome) : Prop :=
  ∃ s, Leads (step msec outcomes) (openConnection msec abstime) s ∧ step msec outcomes s = none ∧
    Right msec abstime outcomes s

variable {msec : Nat} {abstime : Timespec} {outcomes : Nat → Outcome}

/-- Where the run ends. -/
theorem openConnection_leads :
    Leads (step msec outcomes) (openConnection msec abstime)
      (if msec < abstime.tvNsec then
        match outcomes 0 with
        | .success => .returned 0 0 1
        | .failure errno => .exited errno 1
      else .returned (-1) ECONNREFUSED 0) := by
  unfold openConnection
  by_cases h : msec < abstime.tvNsec
  · rw [if_pos h, if_pos h]
    have hpos : 0 < abstime.tvNsec := by omega
    refine .next ?_ (.refl _ _)
    unfold step
    dsimp only
    rw [if_pos hpos]
    cases outcomes 0 <;> rfl
  · rw [if_neg h, if_neg h]
    exact .refl _ _

/-- `openConnection` is right exactly if the first attempt succeeds, where the
guard lets the loop begin, and if no attempt would succeed in time, where it does
not. -/
theorem openConnection_iff (hmsec : 0 < msec)
    (hbelow : pause msec < abstime.duration) :
    RetriesInTime msec abstime outcomes ↔
      (msec < abstime.tvNsec → outcomes 0 = .success) ∧
        (abstime.tvNsec ≤ msec → ¬ SucceedsInTime msec abstime outcomes) := by
  have hpos : 0 < abstime.duration := by
    unfold pause at hbelow
    omega
  have hleads := @openConnection_leads msec abstime outcomes
  by_cases h : msec < abstime.tvNsec
  · rw [if_pos h] at hleads
    cases hout : outcomes 0 with
    | success =>
      rw [hout] at hleads
      have hin : SucceedsInTime msec abstime outcomes :=
        ⟨0, by simpa using hpos, hout, fun j hj => absurd hj (Nat.not_lt_zero j)⟩
      refine ⟨fun _ => ⟨fun _ => rfl, fun hle => absurd h (by omega)⟩, fun _ => ?_⟩
      exact ⟨_, hleads, rfl, .inl ⟨hin, rfl⟩⟩
    | failure errno =>
      rw [hout] at hleads
      refine ⟨fun ⟨s, hs, hend, hright⟩ => ?_, fun hc => by cases hc.1 h⟩
      rw [hs.unique hleads hend rfl] at hright
      exact hright.elim
  · rw [if_neg h] at hleads
    refine ⟨fun ⟨s, hs, hend, hright⟩ => ⟨fun hlt => absurd hlt h, fun _ => ?_⟩, fun hc => ?_⟩
    · rw [hs.unique hleads hend rfl] at hright
      rcases hright with ⟨-, hret⟩ | ⟨hno, -⟩
      · cases hret
      · exact hno
    · have hno := hc.2 (by omega)
      refine ⟨_, hleads, rfl, .inr ⟨hno, rfl, by decide, ?_⟩⟩
      simpa using Int.le_of_lt hpos

/-- With the client's own times: the server is there at once. -/
theorem openConnection_at_once :
    RetriesInTime 10 ⟨0, 500000000⟩ (fun _ => .success) :=
  (openConnection_iff (by decide) (by decide)).mpr
    ⟨fun _ => rfl, fun hle => absurd hle (by decide)⟩

/-- The socket appears after the first attempt: the process has ended. -/
theorem openConnection_exits :
    ¬ ∀ (msec : Nat) (abstime : Timespec) (outcomes : Nat → Outcome), 0 < msec →
      pause msec < abstime.duration → RetriesInTime msec abstime outcomes := by
  intro h
  obtain ⟨s, hs, hend, hright⟩ := h 10 ⟨0, 500000000⟩
    (fun i => if i = 0 then .failure ENOENT else .success) (by decide) (by decide)
  have hleads : Leads (step 10 fun i => if i = 0 then .failure ENOENT else .success)
      (openConnection 10 ⟨0, 500000000⟩) (.exited ENOENT 1) := .next rfl (.refl _ _)
  rw [hs.unique hleads hend rfl] at hright
  exact hright

end FileStorage.Client.Connect

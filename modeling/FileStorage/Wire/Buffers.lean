import FileStorage.Lib.Text

/-!
# The sizes of the receive buffers

A receiver takes a size from the peer, asks `calloc` for a buffer and `readn`
for bytes into it. The three receive sites compute the two numbers in
fixed-width integers: `size_t` is `UInt64`, `long` is `Int64`, `int` is `Int32`,
and every operation is modulo 2 ^ 64, with the conversions where the source
has them.

Two sites allocate one byte more than they read. Where that byte wraps the size
to 0 the buffer is smaller than the read, if `calloc` gives anything for 0 bytes;
nowhere else (`receiveBuffers_iff`). `grants` are the sizes that `calloc` has a
buffer for.
-/

namespace FileStorage.Wire.Buffers

open FileStorage.Lib

/-- What a receive site asks `calloc` and `readn` for. -/
structure Receive where
  allocated : UInt64
  requested : UInt64
  deriving DecidableEq

/-- `recievedMsg`: `calloc(1, sms_read->len+1)` and `readn(.., sms_read->len)`. -/
def recievedMsg (len : UInt64) : Receive where
  allocated := 1 * (len + 1)
  requested := len

/-- The append branch of `main`: `calloc(sz+1, 1)` and `readn(.., sz)`. -/
def appendContent (sz : Int64) : Receive where
  allocated := (sz + 1).toUInt64 * 1
  requested := sz.toUInt64

/-- `receivedMsg_File_Content`: the size goes through an `int`. -/
def fileContent (size : Int64) : Receive :=
  let sizeByte : Int32 := size.toInt32
  { allocated := sizeByte.toInt64.toUInt64 * 1
    requested := sizeByte.toInt64.toUInt64 }

/-- `strtol` as a `long`. -/
def strtolLong (s : Bytes) : Int64 := Int64.ofInt (strtol s)

/-- If there is a buffer, the read fits in. -/
def Receive.Fits (r : Receive) (grants : UInt64 → Bool) : Prop :=
  grants r.allocated = true → r.requested ≤ r.allocated

/-- The three sites, for a length prefix and the text of a size. -/
structure ReceiveBuffers (grants : UInt64 → Bool) (len : UInt64) (size : Bytes) : Prop where
  message : (recievedMsg len).Fits grants
  append : (appendContent (strtolLong size)).Fits grants
  content : (fileContent (strtolLong size)).Fits grants

section

variable {grants : UInt64 → Bool}

theorem le_succ_iff (u : UInt64) : u ≤ u + 1 ↔ u ≠ -1 := by
  constructor
  · intro h hu
    subst hu
    exact absurd h (by decide)
  · intro h
    have hlt := u.toNat_lt
    have hne : u.toNat ≠ 2 ^ 64 - 1 := fun he => h (UInt64.toNat_inj.mp he)
    have hone : (1 : UInt64).toNat = 1 := rfl
    rw [UInt64.le_iff_toNat_le, UInt64.toNat_add]
    omega

/-- A byte more is enough unless it wraps to a size that is granted. -/
theorem fits_succ_iff (u : UInt64) :
    Receive.Fits ⟨u + 1, u⟩ grants ↔ (grants 0 = true → u ≠ -1) := by
  unfold Receive.Fits
  simp only
  rw [le_succ_iff]
  constructor
  · intro h hzero hu
    subst hu
    exact h hzero rfl
  · intro h hgrant hu
    subst hu
    exact h hgrant rfl

theorem toUInt64_eq_neg_one (s : Int64) : s.toUInt64 = -1 ↔ s = -1 := by
  constructor
  · intro h
    cases s with
    | ofUInt64 u =>
      obtain rfl : u = -1 := h
      rfl
  · intro h
    subst h
    rfl

theorem strtol_range (s : Bytes) : LONG_MIN ≤ strtol s ∧ strtol s ≤ LONG_MAX := by
  unfold strtol LONG_MIN LONG_MAX
  split <;> omega

/-- A text that reads as a `long` is `-1` where its value is. -/
theorem strtolLong_eq_neg_one (s : Bytes) : strtolLong s = -1 ↔ strtol s = -1 := by
  obtain ⟨hmin, hmax⟩ := strtol_range s
  unfold LONG_MIN at hmin
  unfold LONG_MAX at hmax
  unfold strtolLong
  constructor
  · intro h
    have hval := congrArg Int64.toInt h
    rw [Int64.toInt_ofInt_of_le (by omega) (by omega)] at hval
    exact hval.trans rfl
  · intro h
    rw [h]
    rfl

theorem recievedMsg_fits (len : UInt64) :
    (recievedMsg len).Fits grants ↔ (grants 0 = true → len ≠ -1) := by
  unfold recievedMsg
  rw [UInt64.one_mul]
  exact fits_succ_iff len

theorem appendContent_fits (sz : Int64) :
    (appendContent sz).Fits grants ↔ (grants 0 = true → sz ≠ -1) := by
  have hsucc : (sz + 1).toUInt64 = sz.toUInt64 + 1 := rfl
  unfold appendContent
  rw [UInt64.mul_one, hsucc, fits_succ_iff, ne_eq, toUInt64_eq_neg_one]

/-- Without the extra byte the two numbers are the same. -/
theorem fileContent_fits (size : Int64) : (fileContent size).Fits grants := by
  intro _
  show size.toInt32.toInt64.toUInt64 ≤ size.toInt32.toInt64.toUInt64 * 1
  rw [UInt64.mul_one]
  exact UInt64.le_refl _

end

/-- **No buffer is smaller than the read if and only if** neither the length
prefix nor the size of an append wraps to a buffer of 0 bytes. -/
theorem receiveBuffers_iff (grants : UInt64 → Bool) (len : UInt64) (size : Bytes) :
    ReceiveBuffers grants len size ↔
      (grants 0 = true → len.toNat ≠ 2 ^ 64 - 1 ∧ strtol size ≠ -1) := by
  have hmax : len.toNat ≠ 2 ^ 64 - 1 ↔ len ≠ -1 := not_congr (@UInt64.toNat_inj len (-1))
  rw [hmax]
  constructor
  · intro h hzero
    refine ⟨(recievedMsg_fits len).mp h.message hzero, fun hneg => ?_⟩
    exact (appendContent_fits _).mp h.append hzero ((strtolLong_eq_neg_one size).mpr hneg)
  · intro h
    refine ⟨(recievedMsg_fits len).mpr fun hzero => (h hzero).1, ?_, fileContent_fits _⟩
    refine (appendContent_fits _).mpr fun hzero hneg => ?_
    exact (h hzero).2 ((strtolLong_eq_neg_one size).mp hneg)

/-- The length prefix 2 ^ 64 - 1 gets a buffer of 0 bytes and a read of 2 ^ 64 - 1. -/
theorem recievedMsg_wraps :
    ¬ ReceiveBuffers (fun size => size ≤ 4096) 0xFFFFFFFFFFFFFFFF [53] := by
  intro h
  exact absurd (h.message (by decide)) (by decide)

/-- The size `-1` of an append gets a buffer of 0 bytes as well. -/
example : appendContent (strtolLong [45, 49]) = ⟨0, 0xFFFFFFFFFFFFFFFF⟩ := by decide

end FileStorage.Wire.Buffers

import FileStorage.Wire.Model

/-!
# What the readers get

However the kernel splits the reads, `readn` returns the bytes asked for and
leaves the rest, once the schedule has enough reads that deliver something
(`readLoop_eq`); and it never returns anything else (`readLoop_ok`).

The value `readn` returns is `(int) size`, and every caller takes `-1` for an
error. A size is `readable` if the conversion does not hit it. `recievedMsg`
then gives back the text of a message, with the stream standing at the byte
behind it (`recievedMsg_eq`), and a message whose text has an unreadable size
is never received (`recievedMsg_ok`).
-/

namespace FileStorage.Wire

open FileStorage.Lib

/-! ## Splitting the reads -/

/-- How many reads of the schedule deliver data. -/
def dataReads : List Read → Nat
  | [] => 0
  | .eintr :: sched => dataReads sched
  | .upTo _ :: sched => dataReads sched + 1

/-- With enough reads the bytes arrive, in any split. -/
theorem readLoop_eq {sched : List Read} {stream : Bytes} {n : Nat} (hlen : n ≤ stream.length)
    (h : n ≤ dataReads sched) : ∃ sched', readLoop sched stream n =
      some (stream.take n, false, ⟨sched', stream.drop n⟩) ∧
      dataReads sched ≤ dataReads sched' + n := by
  induction sched generalizing stream n with
  | nil =>
    obtain rfl : n = 0 := Nat.le_zero.mp h
    exact ⟨[], rfl, Nat.le_refl _⟩
  | cons act sched ih =>
    cases n with
    | zero => exact ⟨act :: sched, rfl, Nat.le_refl _⟩
    | succ n =>
      cases act with
      | eintr => exact ih hlen h
      | upTo k =>
        have h : n + 1 ≤ dataReads sched + 1 := h
        obtain ⟨r, hr⟩ : ∃ r, r = min (min (k + 1) (n + 1)) stream.length := ⟨_, rfl⟩
        have hpos : r ≠ 0 := by omega
        have hrest : n + 1 - r ≤ (stream.drop r).length := by
          rw [List.length_drop]
          omega
        obtain ⟨sched', heq, hle⟩ := ih hrest (by omega)
        refine ⟨sched', ?_, ?_⟩
        · simp only [readLoop, ← hr, if_neg hpos, heq]
          have hsum : r + (n + 1 - r) = n + 1 := by omega
          rw [← List.take_add, hsum, List.drop_drop, hsum]
        · show dataReads sched + 1 ≤ dataReads sched' + (n + 1)
          omega

/-- Whatever arrives is what the stream starts with. -/
theorem readLoop_ok {sched : List Read} {stream : Bytes} {n : Nat} {buf : Bytes} {eof : Bool}
    {c : Conn} (h : readLoop sched stream n = some (buf, eof, c)) (hlen : n ≤ stream.length) :
    buf = stream.take n ∧ eof = false ∧ c.stream = stream.drop n := by
  induction sched generalizing stream n buf with
  | nil =>
    cases n with
    | zero =>
      cases h
      exact ⟨rfl, rfl, rfl⟩
    | succ n => cases h
  | cons act sched ih =>
    cases n with
    | zero =>
      cases h
      exact ⟨rfl, rfl, rfl⟩
    | succ n =>
      cases act with
      | eintr => exact ih h hlen
      | upTo k =>
        obtain ⟨r, hr⟩ : ∃ r, r = min (min (k + 1) (n + 1)) stream.length := ⟨_, rfl⟩
        have hpos : r ≠ 0 := by omega
        simp only [readLoop, ← hr, if_neg hpos] at h
        split at h
        · cases h
        · next heq =>
          cases h
          have hrest : n + 1 - r ≤ (stream.drop r).length := by
            rw [List.length_drop]
            omega
          obtain ⟨rfl, rfl, hc⟩ := ih heq hrest
          have hsum : r + (n + 1 - r) = n + 1 := by omega
          refine ⟨?_, rfl, ?_⟩
          · rw [← List.take_add, hsum]
          · rw [hc, List.drop_drop, hsum]

/-! ## The returned value -/

/-- The size is not taken for an error when it is returned as an `int`. -/
def readable (n : Nat) : Prop := n % 2 ^ 32 ≠ 2 ^ 32 - 1

instance (n : Nat) : Decidable (readable n) := inferInstanceAs (Decidable (_ ≠ _))

/-- A length is returned as -1 exactly if it is not readable. -/
theorem toInt32_eq_neg_one (n : Nat) : toInt32 n = -1 ↔ ¬ readable n := by
  unfold toInt32 readable
  rw [Int.bmod_def]
  split <;> omega

/-- What fits an `int` is kept by the conversion. -/
theorem toInt32_of_lt {n : Nat} (h : n < 2 ^ 31) : toInt32 n = n := by
  unfold toInt32
  rw [Int.bmod_def]
  split <;> omega

theorem readable_of_lt {n : Nat} (h : n < 2 ^ 31) : readable n := by
  unfold readable
  omega

section

variable {sched : List Read} {x rest : Bytes} {n : Nat}

/-- With enough reads, what is there is read. -/
theorem readnExit_eq (hn : x.length = n) (hr : readable n) (hs : n ≤ dataReads sched) :
    ∃ sched', readnExit ⟨sched, x ++ rest⟩ n = .ok (x, ⟨sched', rest⟩) ∧
      dataReads sched ≤ dataReads sched' + n := by
  subst hn
  have hlen : x.length ≤ (x ++ rest).length := by simp
  obtain ⟨sched', heq, hle⟩ := readLoop_eq hlen hs
  rw [List.take_left, List.drop_left] at heq
  have hret : toInt32 x.length ≠ -1 := fun h => (toInt32_eq_neg_one _).mp h hr
  refine ⟨sched', ?_, hle⟩
  simp [readnExit, readn, heq, hret]

/-- What was read is what was there. -/
theorem readnExit_ok {buf : Bytes} {c : Conn} (hn : x.length = n)
    (h : readnExit ⟨sched, x ++ rest⟩ n = .ok (buf, c)) :
    readable n ∧ buf = x ∧ c.stream = rest := by
  subst hn
  have hlen : x.length ≤ (x ++ rest).length := by simp
  unfold readnExit readn at h
  simp only at h
  cases hloop : readLoop sched (x ++ rest) x.length with
  | none =>
    rw [hloop] at h
    cases h
  | some r =>
    obtain ⟨b, eof, c'⟩ := r
    obtain ⟨rfl, rfl, hc⟩ := readLoop_ok hloop hlen
    rw [hloop] at h
    simp only [List.take_left, Nat.sub_self, List.replicate_zero, List.append_nil,
      Bool.false_eq_true, if_false] at h
    split at h
    · cases h
    · next hret =>
      cases h
      rw [List.drop_left] at hc
      exact ⟨not_not.mp fun hn => hret ((toInt32_eq_neg_one _).mpr hn), rfl, hc⟩

end

/-! ## A message -/

@[simp] theorem ok_bind {α β : Type} (a : α) (f : α → Except Stop β) :
    (Except.ok a >>= f) = f a := rfl

/-- A computation with a result has a first part with a result. -/
theorem bind_eq_ok {α β : Type} {x : Except Stop α} {f : α → Except Stop β} {b : β}
    (h : (x >>= f) = .ok b) : ∃ a, x = .ok a ∧ f a = .ok b := by
  cases x with
  | error e => cases h
  | ok a => exact ⟨a, rfl, h⟩

theorem first_ok {α β : Type} {x : Except Stop α} {f : α → Except Stop β} {b : β}
    (h : (x >>= f) = .ok b) : ∃ a, x = .ok a := by
  obtain ⟨a, ha, -⟩ := bind_eq_ok h
  exact ⟨a, ha⟩

/-- A text with its length in front. -/
def message (text : Bytes) : Bytes := leBytes 8 text.length ++ text

@[simp] theorem length_message (text : Bytes) : (message text).length = 8 + text.length := by
  simp [message]

/-- `recievedMsg` reads twice, the second time as much as the first read said. -/
theorem recievedMsg_bind (c : Conn) (lim : Limits) :
    recievedMsg c lim = readnExit c 8 >>= fun len =>
      receive len.2 (readLE len.1) lim >>= fun str => .ok (str.1 ++ [0], str.2) := rfl

section

variable {sched : List Read} {text rest : Bytes}

/-- A message that arrives is read, with its NUL. -/
theorem recievedMsg_eq (hlen : text.length < 2 ^ 64) (hr : readable text.length)
    (hs : (message text).length ≤ dataReads sched) :
    ∃ sched', recievedMsg ⟨sched, message text ++ rest⟩ = .ok (text ++ [0], ⟨sched', rest⟩) ∧
      dataReads sched ≤ dataReads sched' + (message text).length := by
  rw [length_message] at hs ⊢
  obtain ⟨s₁, h₁, hle₁⟩ := @readnExit_eq sched _ (text ++ rest) _
    (length_leBytes 8 text.length) (by decide) (by omega)
  obtain ⟨s₂, h₂, hle₂⟩ := @readnExit_eq s₁ text rest _ rfl hr (by omega)
  refine ⟨s₂, ?_, by omega⟩
  have hle : readLE (leBytes 8 text.length) = text.length := readLE_leBytes (by omega)
  rw [recievedMsg_bind, message, List.append_assoc, h₁, ok_bind, hle, receive_ample, h₂, ok_bind]

/-- What is read of a message is its text. -/
theorem recievedMsg_ok {buf : Bytes} {c : Conn} (hlen : text.length < 2 ^ 64)
    (h : recievedMsg ⟨sched, message text ++ rest⟩ = .ok (buf, c)) :
    readable text.length ∧ buf = text ++ [0] ∧ c.stream = rest := by
  have hle : readLE (leBytes 8 text.length) = text.length := readLE_leBytes (by omega)
  rw [recievedMsg_bind, message, List.append_assoc] at h
  obtain ⟨⟨b₁, s₁, st₁⟩, h₁, h'⟩ := bind_eq_ok h
  obtain ⟨-, rfl, hc₁⟩ := readnExit_ok (length_leBytes 8 text.length) h₁
  obtain rfl : st₁ = text ++ rest := hc₁
  obtain ⟨⟨b₂, c₂⟩, h₂, h''⟩ := bind_eq_ok h'
  simp only [hle, receive_ample] at h₂
  obtain ⟨hr, rfl, hc₂⟩ := readnExit_ok rfl h₂
  cases h''
  exact ⟨hr, rfl, hc₂⟩

end

/-! ## What the writers write -/

/-- `sendMsg` with one argument. -/
theorem sendMsg_one (apiId a : Bytes) (h : apiId.length = 2) :
    sendMsg apiId (some a) none = message (apiId ++ a) := by
  have h3 : apiId.take 3 = apiId := List.take_of_length_le (by omega)
  have hlen : apiId.length + a.length = (apiId ++ a).length := List.length_append.symm
  simp only [sendMsg, message, h3, Option.isSome_none, Bool.false_eq_true, if_false,
    Option.getD_none, List.append_nil, Nat.add_zero, hlen]
  rw [List.take_left]

/-- `sendMsg` with two arguments puts a comma between them. -/
theorem sendMsg_two (apiId a b : Bytes) (h : apiId.length = 2) :
    sendMsg apiId (some a) (some b) = message (apiId ++ a ++ comma :: b) := by
  have h3 : apiId.take 3 = apiId := List.take_of_length_le (by omega)
  have hlen : apiId.length + (a.length + 1) + b.length =
      (apiId ++ a ++ comma :: b).length := by
    simp
    omega
  have happ : apiId ++ (a ++ [comma]) ++ b = apiId ++ a ++ comma :: b := by simp
  simp only [sendMsg, message, h3, Option.isSome_some, if_true, Option.getD_some, hlen, happ]
  rw [List.take_left]

/-- A text with the size of a content in decimal, and the content. -/
theorem sendMsgFileContent_eq (apiId a content : Bytes) (h : apiId.length = 2)
    (hlen : content.length < 2 ^ 63) :
    sendMsgFileContent apiId a (decimal content.length) content =
      message (apiId ++ a ++ comma :: decimal content.length) ++ content := by
  have hsz : strtol (decimal content.length) = content.length :=
    strtol_decimal (by unfold LONG_MAX; omega)
  unfold sendMsgFileContent
  rw [sendMsg_two _ _ _ h, hsz, Int.toNat_natCast, List.take_length]

end FileStorage.Wire

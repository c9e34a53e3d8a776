import FileStorage.Wire.Conn

/-!
# A stream that ends inside a message

A message is read in up to three parts: the length, the text and, behind an
append, the content. `readn` returns `0` when the stream ends, and every caller
compares its value with `-1` only. So a part that is cut off is taken for the
part that was asked for, and what has not arrived is zero, as the buffer was.

* A stream that ends in the length, or between two messages, gives an empty
  text: `strtok_r` finds no token and `strtol` is called with `NULL`.
* A stream that ends in the text gives the front part of it, which is parsed.
* A stream that ends in the content gives a request with the whole size.

`announced` is what a stream has to hold for the message at its start. Whatever
is missing of it, the cut message is acted on unless the server ends before that
(`truncated_notActedOn_iff`): because `calloc` or `read` refuses a size that was
announced, or because a text has arrived in full whose length `readn` returns as
`-1`.
-/

namespace FileStorage.Wire

open FileStorage.Lib FileStorage.Worker

/-- The length that the stream announces. -/
def textLen (s : Bytes) : Nat := readLE (s.take 8)

/-- The size of the content that follows a text. -/
def contentSize (sms : Bytes) : Nat :=
  match strtok comma (cstr sms) with
  | (none, _) => 0
  | (some token, tmp) =>
    if strtol token = 5 then (strtol (strtok comma tmp).2).toNat else 0

/-- How many bytes the message at the start of the stream has, as far as the
bytes that are there tell. -/
def announced (s : Bytes) : Nat :=
  if s.length < 8 then 8
  else if s.length < 8 + textLen s then 8 + textLen s
  else 8 + textLen s + contentSize ((s.drop 8).take (textLen s))

/-- The stream ends before the message at its start does; so does an empty
stream, which ends between two messages. -/
def Truncated (s : Bytes) : Prop := s.length < announced s

instance (s : Bytes) : Decidable (Truncated s) := inferInstanceAs (Decidable (_ < _))

/-- A text that is cut off is not parsed, and no request reaches `push`. -/
structure NotActedOn (lim : Limits) (c : Conn) : Prop where
  notParsed : c.stream.length < 8 + textLen c.stream → ∀ r, recievedMsg c lim ≠ .ok r
  notPushed : ∀ r, parseRequest c lim ≠ .ok r

/-- The server does not get through the sizes of the stream: there is nothing to hold the
text, or the text is there and its length is returned as an error, or there is nothing to
hold the content. -/
def Refused (lim : Limits) (s : Bytes) : Prop :=
  lim.allow (textLen s) = false ∨
    8 + textLen s ≤ s.length ∧
      (¬ readable (textLen s) ∨ lim.allow (contentSize ((s.drop 8).take (textLen s))) = false)

/-! ## The end of the stream -/

/-- The end of the stream comes after all its bytes. -/
theorem readLoop_eof {sched : List Read} {stream : Bytes} {n : Nat} (hlen : stream.length < n)
    (h : stream.length < dataReads sched) : ∃ sched',
      readLoop sched stream n = some (stream, true, ⟨sched', []⟩) ∧
        dataReads sched ≤ dataReads sched' + stream.length + 1 := by
  induction sched generalizing stream n with
  | nil => cases h
  | cons act sched ih =>
    obtain ⟨n, rfl⟩ : ∃ k, n = k + 1 := ⟨n - 1, by omega⟩
    cases act with
    | eintr => exact ih hlen h
    | upTo k =>
      have h : stream.length < dataReads sched + 1 := h
      obtain ⟨r, hr⟩ : ∃ r, r = min (min (k + 1) (n + 1)) stream.length := ⟨_, rfl⟩
      by_cases hzero : r = 0
      · obtain rfl : stream = [] := List.length_eq_zero_iff.mp (by omega)
        exact ⟨sched, by simp [readLoop], Nat.le_refl _⟩
      · have hdrop : (stream.drop r).length = stream.length - r := List.length_drop
        obtain ⟨sched', heq, hle⟩ := @ih (stream.drop r) (n + 1 - r) (by omega) (by omega)
        refine ⟨sched', ?_, ?_⟩
        · simp only [readLoop, ← hr, if_neg hzero, heq]
          rw [List.take_append_drop]
        · show dataReads sched + 1 ≤ _
          omega

section

variable {sched : List Read} {s : Bytes} {n : Nat}

/-- A part that is cut off is filled up with zeros. -/
theorem readnExit_eof (hlen : s.length < n) (h : s.length < dataReads sched) : ∃ sched',
    readnExit ⟨sched, s⟩ n = .ok (s ++ List.replicate (n - s.length) 0, ⟨sched', []⟩) ∧
      dataReads sched ≤ dataReads sched' + s.length + 1 := by
  obtain ⟨sched', heq, hle⟩ := readLoop_eof hlen h
  refine ⟨sched', ?_, hle⟩
  simp [readnExit, readn, heq]

/-- A part that has arrived is read, or ends the server. -/
theorem readnExit_full (hlen : n ≤ s.length) (h : n ≤ dataReads sched) : ∃ sched',
    (readnExit ⟨sched, s⟩ n =
      if readable n then .ok (s.take n, ⟨sched', s.drop n⟩) else .error .exited) ∧
      dataReads sched ≤ dataReads sched' + n := by
  obtain ⟨sched', heq, hle⟩ := readLoop_eq hlen h
  refine ⟨sched', ?_, hle⟩
  by_cases hr : readable n
  · have hret : toInt32 n ≠ -1 := fun he => (toInt32_eq_neg_one n).mp he hr
    simp [readnExit, readn, heq, hret, hr, hlen]
  · have hret : toInt32 n = -1 := (toInt32_eq_neg_one n).mpr hr
    simp [readnExit, readn, heq, hret, hr]

/-- Behind the end of the stream every part is zero. -/
theorem readnExit_ended (h : 0 < dataReads sched) : ∃ sched',
    readnExit ⟨sched, []⟩ n = .ok (List.replicate n 0, ⟨sched', []⟩) := by
  cases n with
  | zero =>
    obtain ⟨sched', heq, -⟩ := @readnExit_full sched [] 0 (Nat.le_refl 0) (Nat.zero_le _)
    exact ⟨sched', heq⟩
  | succ n =>
    obtain ⟨sched', heq, -⟩ := @readnExit_eof sched [] (n + 1) (Nat.succ_pos n) h
    exact ⟨sched', heq⟩

/-- A size that is refused ends the server. -/
theorem receive_refused {lim : Limits} (h : lim.allow n = false) (c : Conn) :
    receive c n lim = .error .exited :=
  if_neg (by rw [h]; exact Bool.false_ne_true)

theorem receive_allowed {lim : Limits} (h : lim.allow n = true) (c : Conn) :
    receive c n lim = readnExit c n := if_pos h

/-! ## The parts of a message -/

/-- Bytes that have not come count as zeros in a length. -/
theorem readLE_padded (k : Nat) (s : Bytes) : readLE (s ++ List.replicate k 0) = readLE s := by
  induction s with
  | nil =>
    induction k with
    | zero => rfl
    | succ k ih =>
      rw [List.replicate_succ]
      show (0 : UInt8).toNat + 256 * readLE ([] ++ List.replicate k 0) = 0
      rw [ih]
      rfl
  | cons b s ih =>
    show b.toNat + 256 * readLE (s ++ List.replicate k 0) = b.toNat + 256 * readLE s
    rw [ih]

/-- The length that a stream announces is read off it, whether it ends in the length or
not. -/
theorem readLen (h : s.length + 3 ≤ dataReads sched) : ∃ len sched',
    readnExit ⟨sched, s⟩ 8 = .ok (len, ⟨sched', s.drop 8⟩) ∧ readLE len = textLen s ∧
      (s.length < 8 → 0 < dataReads sched') ∧
      (8 ≤ s.length → dataReads sched ≤ dataReads sched' + 8) := by
  by_cases hlen : s.length < 8
  · obtain ⟨s₁, h₁, hle⟩ := @readnExit_eof sched s 8 hlen (by omega)
    have hdrop : s.drop 8 = [] := List.drop_eq_nil_of_le (by omega)
    have htake : s.take 8 = s := List.take_of_length_le (by omega)
    refine ⟨_, s₁, by rw [h₁, hdrop], ?_, fun _ => by omega, fun hge => by omega⟩
    rw [readLE_padded, textLen, htake]
  · obtain ⟨s₁, h₁, hle⟩ := @readnExit_full sched s 8 (by omega) (by omega)
    rw [if_pos (by decide)] at h₁
    exact ⟨_, s₁, h₁, rfl, fun hlt => absurd hlt hlen, fun _ => hle⟩

/-- A text of a size that is refused ends the server, wherever the stream ends. -/
theorem recievedMsg_refused {lim : Limits} (h : s.length + 3 ≤ dataReads sched)
    (hno : lim.allow (textLen s) = false) : recievedMsg ⟨sched, s⟩ lim = .error .exited := by
  obtain ⟨len, s₁, h₁, hval, -, -⟩ := readLen h
  rw [recievedMsg_bind, h₁, ok_bind]
  show (receive ⟨s₁, s.drop 8⟩ (readLE len) lim >>= _) = _
  rw [hval, receive_refused hno]
  rfl

/-- A stream that ends in the length gives a text of zeros. -/
theorem recievedMsg_cut_len {lim : Limits} (hlen : s.length < 8) (h : s.length + 3 ≤ dataReads sched)
    (hok : lim.allow (textLen s) = true) :
    ∃ k sched', recievedMsg ⟨sched, s⟩ lim = .ok (List.replicate k 0 ++ [0], ⟨sched', []⟩) := by
  obtain ⟨len, s₁, h₁, hval, hleft, -⟩ := readLen h
  have hdrop : s.drop 8 = [] := List.drop_eq_nil_of_le (by omega)
  obtain ⟨s₂, h₂⟩ := @readnExit_ended s₁ (textLen s) (hleft hlen)
  refine ⟨textLen s, s₂, ?_⟩
  rw [recievedMsg_bind, h₁, ok_bind]
  show (receive ⟨s₁, s.drop 8⟩ (readLE len) lim >>= _) = _
  rw [hval, receive_allowed hok, hdrop, h₂, ok_bind]

/-- A stream that ends in the text gives the front part of it. -/
theorem recievedMsg_cut_text {lim : Limits} (hlen : 8 ≤ s.length) (hcut : s.length < 8 + textLen s)
    (h : s.length + 3 ≤ dataReads sched) (hok : lim.allow (textLen s) = true) :
    ∃ pad sched', recievedMsg ⟨sched, s⟩ lim = .ok (s.drop 8 ++ pad ++ [0], ⟨sched', []⟩) := by
  obtain ⟨len, s₁, h₁, hval, -, hleft⟩ := readLen h
  have hle := hleft hlen
  have hrest : (s.drop 8).length = s.length - 8 := List.length_drop
  obtain ⟨s₂, h₂, -⟩ := @readnExit_eof s₁ (s.drop 8) (textLen s) (by omega) (by omega)
  refine ⟨List.replicate (textLen s - (s.drop 8).length) 0, s₂, ?_⟩
  rw [recievedMsg_bind, h₁, ok_bind]
  show (receive ⟨s₁, s.drop 8⟩ (readLE len) lim >>= _) = _
  rw [hval, receive_allowed hok, h₂, ok_bind]

/-- A text that has arrived is received, or its length ends the server. -/
theorem recievedMsg_full {lim : Limits} (hlen : 8 + textLen s ≤ s.length)
    (h : s.length + 3 ≤ dataReads sched) (hok : lim.allow (textLen s) = true) :
    ∃ sched', (recievedMsg ⟨sched, s⟩ lim =
      if readable (textLen s) then
        .ok ((s.drop 8).take (textLen s) ++ [0], ⟨sched', (s.drop 8).drop (textLen s)⟩)
      else .error .exited) ∧ dataReads sched ≤ dataReads sched' + (8 + textLen s) := by
  obtain ⟨len, s₁, h₁, hval, -, hleft⟩ := readLen h
  have hle₁ := hleft (by omega)
  have hrest : (s.drop 8).length = s.length - 8 := List.length_drop
  obtain ⟨s₂, h₂, hle₂⟩ := @readnExit_full s₁ (s.drop 8) (textLen s) (by omega) (by omega)
  refine ⟨s₂, ?_, by omega⟩
  rw [recievedMsg_bind, h₁, ok_bind]
  show (receive ⟨s₁, s.drop 8⟩ (readLE len) lim >>= _) = _
  rw [hval, receive_allowed hok, h₂]
  split <;> rfl

/-- An append whose content is cut off becomes a request of the whole size, if there is
anything to hold that. -/
theorem parseSms_cut_content {lim : Limits} {text : Bytes} (hlen : s.length < contentSize text)
    (h : s.length < dataReads sched) :
    (lim.allow (contentSize text) = true ∧
      ∃ rq c, parseSms (text ++ [0]) ⟨sched, s⟩ lim = .ok (rq, c)) ∨
    (lim.allow (contentSize text) = false ∧
      parseSms (text ++ [0]) ⟨sched, s⟩ lim = .error .exited) := by
  cases htok : strtok comma (cstr text) with
  | mk o tmp =>
    cases o with
    | none =>
      have hsize : contentSize text = 0 := by
        unfold contentSize
        rw [htok]
      omega
    | some token =>
      by_cases hapi : strtol token = 5
      · have hsize : contentSize text = (strtol (strtok comma tmp).2).toNat := by
          unfold contentSize
          rw [htok]
          exact if_pos hapi
        rw [hsize] at hlen ⊢
        -- something is missing of the content, so its size is positive
        have hpos : 0 < strtol (strtok comma tmp).2 := by omega
        have hparse : parseSms (text ++ [0]) ⟨sched, s⟩ lim =
            (receive ⟨sched, s⟩ (strtol (strtok comma tmp).2).toNat lim >>= fun r =>
              .ok (⟨strtol token, strtol (strtok comma tmp).2, strtokLeft comma tmp,
                some (r.1 ++ [0])⟩, r.2)) := by
          unfold parseSms
          rw [cstr_append_zero, htok]
          simp only [if_pos hapi]
          rw [if_neg (by omega), if_neg (by omega)]
          rfl
        rw [hparse]
        cases hallow : lim.allow (strtol (strtok comma tmp).2).toNat with
        | true =>
          obtain ⟨sched', hread, -⟩ := readnExit_eof hlen h
          rw [receive_allowed hallow, hread]
          exact .inl ⟨rfl, _, _, rfl⟩
        | false =>
          rw [receive_refused hallow]
          exact .inr ⟨rfl, rfl⟩
      · have hsize : contentSize text = 0 := by
          unfold contentSize
          rw [htok]
          exact if_neg hapi
        omega

end

/-- A stream that ends in the length, or between two messages, makes the server
use a token that is not there. -/
theorem parseRequest_cut_len {lim : Limits} {sched : List Read} {s : Bytes} (hlen : s.length < 8)
    (h : s.length + 3 ≤ dataReads sched) (hok : lim.allow (textLen s) = true) :
    parseRequest ⟨sched, s⟩ lim = .error .undefined := by
  obtain ⟨k, sched', heq⟩ := recievedMsg_cut_len hlen h hok
  have hempty : cstr (List.replicate k 0 ++ [0]) = [] := by
    cases k <;> rfl
  unfold parseRequest
  rw [heq, ok_bind]
  unfold parseSms
  simp only [hempty]
  rfl

/-- What the server never receives it does not act on. -/
theorem notActedOn_of_exited {lim : Limits} {c : Conn} (h : recievedMsg c lim = .error .exited) :
    NotActedOn lim c := by
  refine ⟨fun _ r hok => ?_, fun r hok => ?_⟩
  · rw [h] at hok
    cases hok
  · unfold parseRequest at hok
    rw [h] at hok
    cases hok

/-- **A truncated message is not acted on if and only if** a size that it announces is
refused, or its text has arrived in full and the length of the text is returned by `readn`
as `-1`. -/
theorem truncated_notActedOn_iff (lim : Limits) (c : Conn) (ht : Truncated c.stream)
    (hs : c.stream.length + 3 ≤ dataReads c.sched) :
    NotActedOn lim c ↔ Refused lim c.stream := by
  obtain ⟨sched, s⟩ := c
  change Truncated s at ht
  change s.length + 3 ≤ dataReads sched at hs
  show NotActedOn lim ⟨sched, s⟩ ↔ Refused lim s
  cases hallow : lim.allow (textLen s) with
  | false =>
    exact ⟨fun _ => .inl hallow, fun _ => notActedOn_of_exited (recievedMsg_refused hs hallow)⟩
  | true =>
  by_cases hcut : s.length < 8 + textLen s
  · -- the text is not there in full, and is parsed all the same
    have hreceived : ∃ r, recievedMsg ⟨sched, s⟩ lim = .ok r := by
      by_cases hlen : s.length < 8
      · obtain ⟨k, sched', heq⟩ := recievedMsg_cut_len hlen hs hallow
        exact ⟨_, heq⟩
      · obtain ⟨pad, sched', heq⟩ := recievedMsg_cut_text (Nat.not_lt.mp hlen) hcut hs hallow
        exact ⟨_, heq⟩
    obtain ⟨r, hr⟩ := hreceived
    constructor
    · intro hnot
      exact absurd hr (hnot.notParsed hcut r)
    · rintro (hno | ⟨hle, -⟩)
      · rw [hallow] at hno
        cases hno
      · omega
  · obtain ⟨sched', heq, hle⟩ := recievedMsg_full (Nat.not_lt.mp hcut) hs hallow
    by_cases hr : readable (textLen s)
    · -- the text is parsed, and the content is missing
      rw [if_pos hr] at heq
      have hrest : ((s.drop 8).drop (textLen s)).length = s.length - (8 + textLen s) := by
        rw [List.drop_drop, List.length_drop]
      have hsize : s.length < 8 + textLen s + contentSize ((s.drop 8).take (textLen s)) := by
        unfold Truncated announced at ht
        rwa [if_neg (by omega), if_neg hcut] at ht
      have hparse : parseRequest ⟨sched, s⟩ lim = parseSms ((s.drop 8).take (textLen s) ++ [0])
          ⟨sched', (s.drop 8).drop (textLen s)⟩ lim := by
        unfold parseRequest
        rw [heq, ok_bind]
      rcases @parseSms_cut_content sched' ((s.drop 8).drop (textLen s)) lim
        ((s.drop 8).take (textLen s)) (by omega) (by omega) with ⟨hcontent, rq, c', hok⟩ |
          ⟨hcontent, hexit⟩
      · constructor
        · intro hnot
          exact absurd (hparse.trans hok) (hnot.notPushed _)
        · rintro (hno | ⟨-, hno | hno⟩)
          · rw [hallow] at hno
            cases hno
          · exact absurd hr hno
          · rw [hcontent] at hno
            cases hno
      · refine ⟨fun _ => .inr ⟨Nat.not_lt.mp hcut, .inr hcontent⟩, fun _ => ?_⟩
        refine ⟨fun hlt => absurd hlt hcut, fun r hok => ?_⟩
        rw [hparse, hexit] at hok
        cases hok
    · -- the length of the text is returned as an error, and the server ends
      rw [if_neg hr] at heq
      exact ⟨fun _ => .inr ⟨Nat.not_lt.mp hcut, .inl hr⟩, fun _ => notActedOn_of_exited heq⟩

/-- A machine with room for a megabyte. -/
def megabyte : Limits where
  grants size := decide (size ≤ 2 ^ 20)
  reads size := decide (size < 2 ^ 47)

/-- A client writes the first two bytes of a length and disconnects. Another one announces
a text of 2 ^ 64 - 1 bytes and disconnects, and ends the server. -/
theorem truncated_notActedOn_len :
    ¬ NotActedOn megabyte ⟨List.replicate 5 (.upTo 7), [6, 0]⟩ ∧
    NotActedOn megabyte ⟨List.replicate 11 (.upTo 7), List.replicate 8 255⟩ := by
  constructor
  · intro hnot
    have hrefused := (truncated_notActedOn_iff megabyte ⟨List.replicate 5 (.upTo 7), [6, 0]⟩
      (by decide) (by decide)).mp hnot
    rcases hrefused with hno | ⟨hle, -⟩
    · exact absurd hno (by decide)
    · exact absurd hle (by decide)
  · refine (truncated_notActedOn_iff megabyte ⟨List.replicate 11 (.upTo 7), List.replicate 8 255⟩
      (by decide) (by decide)).mpr (.inl ?_)
    decide

/-- A client announces three bytes for `/a`, writes one and disconnects: two
bytes that nobody sent are appended. -/
theorem truncated_append_padded :
    (∃ c, serve ⟨List.replicate 9 (.upTo 7), leBytes 8 6 ++ [53, 44, 47, 97, 44, 51] ++ [120]⟩
        megabyte = .ok (some (.appendToFile [47, 97] [120, 0, 0]), c)) ∧
    ¬ NotActedOn megabyte
      ⟨List.replicate 9 (.upTo 7), leBytes 8 6 ++ [53, 44, 47, 97, 44, 51] ++ [120]⟩ :=
  ⟨⟨_, rfl⟩, fun hnot => hnot.notPushed _ rfl⟩

end FileStorage.Wire

import FileStorage.Wire.Conn

/-!
# Requests over the wire

A request is a digit, a comma and the arguments, and for APPEND the content
behind the text. The server cuts the text at its commas, once in `main` and
once more in `threadF`, and takes the first token for the pathname. `Survives`
is what that needs: no comma in a pathname that is taken as a token (CLOSE FILE
takes the whole rest of the text), and sizes that `readn` does not return as
`-1`.

`serve_eq` is the positive half: such a request is parsed back exactly and the
stream then stands at the next one. `serve_survives` is the negative half: no
token contains a comma (`threadFOp_tokenised`), and a message of an unreadable
size ends the process. `requests_survive` puts both together for streams of
requests.
-/

namespace FileStorage.Wire

open FileStorage.Lib FileStorage.Worker

/-! ## The shape of a request -/

def OpenFlag.text : OpenFlag → Bytes
  | .create => [49]
  | .open => [48]

/-- The digit of the `api_id`. -/
def Call.digit : Call → UInt8
  | .closeConnection _ => 49
  | .openFile _ _ => 50
  | .readFile _ => 51
  | .readNFiles _ => 52
  | .appendToFile _ _ => 53
  | .closeFile _ => 54

/-- The text behind the first comma. -/
def Call.args : Call → Bytes
  | .closeConnection sockname => sockname
  | .openFile pathname flags => pathname ++ comma :: flags.text
  | .readFile pathname => pathname
  | .readNFiles n => decimal n
  | .appendToFile pathname buf => pathname ++ comma :: decimal buf.length
  | .closeFile pathname => pathname

def Call.text (c : Call) : Bytes := [c.digit] ++ comma :: c.args

/-- The content behind the text. -/
def Call.payload : Call → Bytes
  | .appendToFile _ buf => buf
  | _ => []

/-- The string the caller names: a pathname or the name of the socket. -/
def Call.name : Call → Option Bytes
  | .closeConnection name | .openFile name _ | .readFile name | .appendToFile name _
  | .closeFile name => some name
  | .readNFiles _ => none

/-- The name as far as the server takes it for a token. -/
def Call.tokenised : Call → Option Bytes
  | .closeConnection name | .openFile name _ | .readFile name | .appendToFile name _ => some name
  | .readNFiles _ | .closeFile _ => none

/-- The operation that the caller means. -/
def Call.op : Call → Op
  | .closeConnection sockname => .closeConnection sockname
  | .openFile pathname flags => .openFile pathname flags.text
  | .readFile pathname => .readFile pathname
  | .readNFiles n => .readNFiles n
  | .appendToFile pathname buf => .appendToFile pathname buf
  | .closeFile pathname => .closeFile pathname

/-- A call that a C program can make: names are C strings that are not empty,
texts and contents fit into memory, and `N` is an `int`. -/
structure Call.Valid (c : Call) : Prop where
  name : ∀ p, c.name = some p → p ≠ [] ∧ (0 : UInt8) ∉ p
  text : c.text.length < 2 ^ 63
  payload : c.payload.length < 2 ^ 63
  int : ∀ n, c = .readNFiles n → n < 2 ^ 31

/-- What the server's parsing needs of a call. -/
structure Call.Survives (c : Call) : Prop where
  no_comma : ∀ p, c.tokenised = some p → comma ∉ p
  text : readable c.text.length
  payload : readable c.payload.length

theorem Call.bytes_eq {c : Call} (h : c.Valid) : c.bytes = message c.text ++ c.payload := by
  cases c with
  | closeConnection s => exact (sendMsg_one [49, comma] s rfl).trans (List.append_nil _).symm
  | openFile p flags =>
    cases flags <;> exact (sendMsg_two [50, comma] p _ rfl).trans (List.append_nil _).symm
  | readFile p => exact (sendMsg_one [51, comma] p rfl).trans (List.append_nil _).symm
  | readNFiles n =>
    exact (sendMsg_one [52, comma] (decimal n) rfl).trans (List.append_nil _).symm
  | appendToFile p buf => exact sendMsgFileContent_eq [53, comma] p buf rfl h.payload
  | closeFile p => exact (sendMsg_one [54, comma] p rfl).trans (List.append_nil _).symm

theorem Call.text_no_nul {c : Call} (h : c.Valid) : (0 : UInt8) ∉ c.text := by
  have hdec := fun n => (decimal_word isDigit_comma n).no_nul
  cases c with
  | openFile p flags =>
    have := (h.name p rfl).2
    cases flags <;> simp [Call.text, Call.digit, Call.args, OpenFlag.text, comma, this]
  | readNFiles n => simp [Call.text, Call.digit, Call.args, comma, hdec n]
  | appendToFile p buf =>
    have := (h.name p rfl).2
    simp [Call.text, Call.digit, Call.args, comma, this, hdec buf.length]
  | closeConnection p | readFile p | closeFile p =>
    have := (h.name p rfl).2
    simp [Call.text, Call.digit, Call.args, comma, this]

/-- The first cut of `main`. -/
theorem Call.strtok_text {c : Call} (h : c.Valid) :
    strtok comma (cstr (c.text ++ [0])) = (some [c.digit], c.args) := by
  have hdigit : comma ∉ [c.digit] := by cases c <;> simp [Call.digit, comma]
  rw [cstr_append_nul (Call.text_no_nul h)]
  exact strtok_append (List.cons_ne_nil _ _) hdigit c.args

/-! ## A request that survives -/

section

variable {c : Call} {sched : List Read} {rest : Bytes}

/-- `main` and `threadF` read the operation off the text and the content. -/
theorem parse_eq (h : c.Valid) (hs : c.Survives) (hn : c.payload.length ≤ dataReads sched) :
    ∃ rq sched', parseSms (c.text ++ [0]) ⟨sched, c.payload ++ rest⟩ =
        .ok (rq, ⟨sched', rest⟩) ∧ threadFOp rq = .ok (some c.op) ∧
      dataReads sched ≤ dataReads sched' + c.payload.length := by
  -- the first token is the digit of the call, whatever follows
  have hcut := Call.strtok_text h
  cases c with
  | appendToFile p buf =>
    have hp := (h.name p rfl).1
    have hc := hs.no_comma p rfl
    have hcut' : strtok comma (p ++ comma :: decimal buf.length) = (some p, decimal buf.length) :=
      strtok_append hp hc _
    have hlen : buf.length < 2 ^ 63 := h.payload
    have hsz : strtol (decimal buf.length) = buf.length :=
      strtol_decimal (by unfold LONG_MAX; omega)
    obtain ⟨sched', hread, hle⟩ := @readnExit_eq sched buf rest buf.length rfl hs.payload hn
    have h5 : strtol [53] = 5 := by decide
    refine ⟨⟨5, buf.length, p, some (buf ++ [0])⟩, sched', ?_, ?_, hle⟩
    · simp only [parseSms, hcut, Call.digit, Call.args, h5, if_true, hcut', hsz,
        strtokLeft_append hp hc, Int.toNat_natCast, Call.payload, receive_ample, hread,
        ok_bind]
      rw [if_neg (by omega), if_neg (by omega)]
      rfl
    · simp [threadFOp, strtok_word hp hc, Call.op]
  | openFile p flags =>
    have hp := (h.name p rfl).1
    have hc := hs.no_comma p rfl
    have hcut' : strtok comma (p ++ comma :: flags.text) = (some p, flags.text) :=
      strtok_append hp hc _
    have hflag : strtok comma flags.text = (some flags.text, []) := by cases flags <;> decide
    have h2 : strtol [50] = 2 := by decide
    refine ⟨⟨2, 0, p ++ comma :: flags.text, none⟩, sched, ?_, ?_, Nat.le_add_right _ _⟩
    · simp [parseSms, hcut, Call.digit, Call.args, h2, Call.payload]
    · simp [threadFOp, hcut', hflag, Call.op]
  | readFile p =>
    have hp := (h.name p rfl).1
    have hc := hs.no_comma p rfl
    have h3 : strtol [51] = 3 := by decide
    refine ⟨⟨3, 0, p, none⟩, sched, ?_, ?_, Nat.le_add_right _ _⟩
    · simp [parseSms, hcut, Call.digit, Call.args, h3, Call.payload]
    · simp [threadFOp, strtok_word hp hc, Call.op]
  | readNFiles n =>
    have hn := h.int n rfl
    have hsz : strtol (decimal n) = n := strtol_decimal (by unfold LONG_MAX; omega)
    have h4 : strtol [52] = 4 := by decide
    refine ⟨⟨4, 0, decimal n, none⟩, sched, ?_, ?_, Nat.le_add_right _ _⟩
    · simp [parseSms, hcut, Call.digit, Call.args, h4, Call.payload]
    · simp [threadFOp, hsz, Call.op]
  | closeFile p =>
    have h6 : strtol [54] = 6 := by decide
    refine ⟨⟨6, 0, p, none⟩, sched, ?_, ?_, Nat.le_add_right _ _⟩
    · simp [parseSms, hcut, Call.digit, Call.args, h6, Call.payload]
    · simp [threadFOp, Call.op]
  | closeConnection p =>
    have hp := (h.name p rfl).1
    have hc := hs.no_comma p rfl
    have h1 : strtol [49] = 1 := by decide
    refine ⟨⟨1, 0, p, none⟩, sched, ?_, ?_, Nat.le_add_right _ _⟩
    · simp [parseSms, hcut, Call.digit, Call.args, h1, Call.payload]
    · simp [threadFOp, strtok_word hp hc, Call.op]

/-- A request that survives is parsed back, and nothing else is consumed. -/
theorem serve_eq (h : c.Valid) (hs : c.Survives) (hn : c.bytes.length ≤ dataReads sched) :
    ∃ sched', serve ⟨sched, c.bytes ++ rest⟩ = .ok (some c.op, ⟨sched', rest⟩) ∧
      dataReads sched ≤ dataReads sched' + c.bytes.length := by
  have hlen : c.text.length < 2 ^ 64 := Nat.lt_trans h.text (by decide)
  rw [Call.bytes_eq h, List.length_append] at hn ⊢
  obtain ⟨s₁, h₁, hle₁⟩ := @recievedMsg_eq sched c.text (c.payload ++ rest) hlen hs.text (by omega)
  obtain ⟨rq, s₂, h₂, hop, hle₂⟩ := @parse_eq c s₁ rest h hs (by omega)
  refine ⟨s₂, ?_, by omega⟩
  rw [List.append_assoc]
  simp only [serve, parseRequest, h₁, ok_bind, h₂, hop]
  rfl

end

/-! ## A request that does not -/

/-- The name that `threadF` took for a token. -/
def tokenised : Op → Option Bytes
  | .closeConnection name | .openFile name _ | .readFile name | .appendToFile name _ => some name
  | .readNFiles _ | .closeFile _ => none

theorem Call.tokenised_op (c : Call) : Wire.tokenised c.op = c.tokenised := by
  cases c <;> rfl

/-- A name that came out of `strtok_r` has no comma, whatever was sent. -/
theorem threadFOp_tokenised {rq : SmsRequest} {op : Op} (h : threadFOp rq = .ok (some op)) :
    ∀ p, tokenised op = some p → comma ∉ p := by
  intro p hp
  have token : ∀ {s t r : Bytes}, strtok comma s = (some t, r) → comma ∉ t := by
    intro s t r hs
    exact (strtok_no_delim (s := s) (by rw [hs])).2
  unfold threadFOp at h
  split at h
  · -- CLOSE CONNECTION
    split at h
    · cases h
    · next hs => cases h; cases hp; exact token hs
  split at h
  · -- OPEN FILE
    split at h
    · cases h
    · next hs =>
      split at h
      · cases h
      · cases h; cases hp; exact token hs
  split at h
  · -- READ FILE
    split at h
    · cases h
    · next hs => cases h; cases hp; exact token hs
  split at h
  · -- READ N FILES
    cases h
    cases hp
  split at h
  · -- APPEND TO FILE
    split at h
    · cases h
    · next hs => cases h; cases hp; exact token hs
  split at h
  · -- CLOSE FILE
    cases h
    cases hp
  · cases h

/-- Only a call that survives comes back as what it was. -/
theorem serve_survives {c : Call} {sched : List Read} {rest : Bytes} {t : Conn} (h : c.Valid)
    (hserve : serve ⟨sched, c.bytes ++ rest⟩ = .ok (some c.op, t)) : c.Survives := by
  have hlen : c.text.length < 2 ^ 64 := Nat.lt_trans h.text (by decide)
  rw [Call.bytes_eq h, List.append_assoc] at hserve
  obtain ⟨⟨rq, t₁⟩, hparse, hserve⟩ := bind_eq_ok hserve
  obtain ⟨op, hop, hserve⟩ := bind_eq_ok hserve
  cases hserve
  obtain ⟨⟨sms, t₂⟩, hmsg, hsms⟩ := bind_eq_ok hparse
  obtain ⟨htext, rfl, ht₂⟩ := recievedMsg_ok hlen hmsg
  obtain ⟨s₂, st₂⟩ := t₂
  obtain rfl : st₂ = c.payload ++ rest := ht₂
  -- the operation came out of `strtok_r`, so its name has no comma
  have hc := threadFOp_tokenised hop
  rw [Call.tokenised_op] at hc
  refine ⟨hc, htext, ?_⟩
  cases c with
  | appendToFile p buf =>
    have hp := (h.name p rfl).1
    have hcut := Call.strtok_text h
    have hcut' : strtok comma (p ++ comma :: decimal buf.length) = (some p, decimal buf.length) :=
      strtok_append hp (hc p rfl) _
    have hlen : buf.length < 2 ^ 63 := h.payload
    have hsz : strtol (decimal buf.length) = buf.length :=
      strtol_decimal (by unfold LONG_MAX; omega)
    have h5 : strtol [53] = 5 := by decide
    simp only [parseSms, hcut, Call.digit, Call.args, h5, if_true, hcut', hsz,
      Int.toNat_natCast] at hsms
    rw [if_neg (by omega), if_neg (by omega)] at hsms
    obtain ⟨⟨content, t₃⟩, hread, -⟩ := bind_eq_ok hsms
    rw [receive_ample] at hread
    exact (readnExit_ok rfl hread).1
  | _ => exact readable_of_lt (Nat.two_pow_pos 31)

/-! ## Streams of requests -/

/-- For every stream of requests and every split of the reads, the server
parses exactly the requests that were made, and stands behind the last one, if
and only if each of them survives. -/
theorem requests_survive (calls : List Call) (sched : List Read) (rest : Bytes)
    (hv : ∀ c ∈ calls, c.Valid) (hn : (calls.flatMap Call.bytes).length ≤ dataReads sched) :
    (∃ sched', serveAll calls.length ⟨sched, calls.flatMap Call.bytes ++ rest⟩ =
      .ok (calls.map fun c => some c.op, ⟨sched', rest⟩)) ↔ ∀ c ∈ calls, c.Survives := by
  induction calls generalizing sched with
  | nil => exact ⟨fun _ c hc => (List.not_mem_nil hc).elim, fun _ => ⟨sched, rfl⟩⟩
  | cons c calls ih =>
    have hc := hv c List.mem_cons_self
    have hv' : ∀ c ∈ calls, c.Valid := fun c h => hv c (List.mem_cons_of_mem _ h)
    rw [List.flatMap_cons, List.length_append] at hn
    rw [List.flatMap_cons, List.append_assoc, List.forall_mem_cons]
    constructor
    · intro hx
      obtain ⟨sched', h⟩ := hx
      obtain ⟨⟨op, t⟩, hop, h⟩ := bind_eq_ok h
      obtain ⟨⟨ops, u⟩, hops, h⟩ := bind_eq_ok h
      cases h
      -- the first request came back, so it survives, and the rest is read from behind it
      have hs := serve_survives hc hop
      obtain ⟨s₁, h₁, hle₁⟩ :=
        @serve_eq c sched (calls.flatMap Call.bytes ++ rest) hc hs (by omega)
      rw [h₁] at hop
      cases hop
      exact ⟨hs, (ih s₁ hv' (by omega)).mp ⟨sched', hops⟩⟩
    · intro hx
      obtain ⟨hs, hrest⟩ := hx
      obtain ⟨s₁, h₁, hle₁⟩ :=
        @serve_eq c sched (calls.flatMap Call.bytes ++ rest) hc hs (by omega)
      obtain ⟨s₂, h₂⟩ := (ih s₁ hv' (by omega)).mpr hrest
      refine ⟨s₂, ?_⟩
      show (serve _ >>= fun r => serveAll calls.length r.2 >>= fun q => .ok (r.1 :: q.1, q.2)) = _
      rw [h₁, ok_bind, h₂, ok_bind]
      rfl

/-- Interrupted reads and reads of at most three bytes in turn. -/
def choppy (n : Nat) : List Read := (List.replicate n [.eintr, .upTo 2]).flatten

/-- `/a` is created and filled with `,` NUL `1`; then `/a,b` is closed and
everything is read. -/
def session : List Call :=
  [.openFile [47, 97] .create, .appendToFile [47, 97] [44, 0, 49], .closeFile [47, 97, 44, 98],
    .readNFiles 0]

theorem requests_survive_session : ∃ sched',
    serveAll 4 ⟨choppy 80, session.flatMap Call.bytes ++ [7]⟩ =
      .ok ([some (.openFile [47, 97] [49]), some (.appendToFile [47, 97] [44, 0, 49]),
        some (.closeFile [47, 97, 44, 98]), some (.readNFiles 0)], ⟨sched', [7]⟩) := by
  refine (requests_survive session (choppy 80) [7] ?_ (by decide +kernel)).mpr ?_
  · intro c hc
    simp only [session, List.mem_cons, List.not_mem_nil, or_false] at hc
    rcases hc with rfl | rfl | rfl | rfl
    · exact ⟨fun p hp => by cases hp; decide, by decide, by decide, fun n hn => by cases hn⟩
    · exact ⟨fun p hp => by cases hp; decide, by decide, by decide, fun n hn => by cases hn⟩
    · exact ⟨fun p hp => by cases hp; decide, by decide, by decide, fun n hn => by cases hn⟩
    · exact ⟨(fun p hp => by cases hp), by decide, by decide, fun n hn => by cases hn; decide⟩
  · intro c hc
    simp only [session, List.mem_cons, List.not_mem_nil, or_false] at hc
    rcases hc with rfl | rfl | rfl | rfl
    · exact ⟨fun p hp => by cases hp; decide, by decide, by decide⟩
    · exact ⟨fun p hp => by cases hp; decide, by decide, by decide⟩
    · exact ⟨(fun p hp => by cases hp), by decide, by decide⟩
    · exact ⟨(fun p hp => by cases hp), by decide, by decide⟩

/-- APPEND of `hi` to `/a,b`: the server takes `/a` for the pathname and `b,2`
for the size, and leaves the content in the stream for the next request. -/
theorem comma_in_a_pathname :
    let c : Call := .appendToFile [47, 97, 44, 98] [104, 105]
    c.Valid ∧ c.bytes.length ≤ dataReads (choppy 30) ∧
      (serve ⟨choppy 30, c.bytes⟩).map (fun r => (r.1, r.2.stream)) =
        .ok (some (.appendToFile [47, 97] []), [104, 105]) ∧
      ¬ ∃ sched', serve ⟨choppy 30, c.bytes⟩ = .ok (some c.op, ⟨sched', []⟩) := by
  have hrun : (serve ⟨choppy 30, (Call.appendToFile [47, 97, 44, 98] [104, 105]).bytes⟩).map
      (fun r => (r.1, r.2.stream)) = .ok (some (.appendToFile [47, 97] []), [104, 105]) := by
    decide +kernel
  have hvalid : (Call.appendToFile [47, 97, 44, 98] [104, 105]).Valid :=
    ⟨fun p hp => by cases hp; decide, by decide, by decide, fun n hn => by cases hn⟩
  refine ⟨hvalid, by decide +kernel, hrun, ?_⟩
  intro hx
  obtain ⟨sched', h⟩ := hx
  rw [h] at hrun
  cases hrun

end FileStorage.Wire

import FileStorage.Storage.Store
import FileStorage.Wire.Conn

/-!
# Answers over the wire

A `Reply` is what `threadF` sends for one request, by the kind of the request:
`-1`, `0`, `0` with the pathnames of the removed files behind commas, one file,
or any number of files and then `0` or `-1`. `Reply.receive` is the client's
side, and `Reply.meaning` what it should find out.

A text answer says everything in one message (`text_answer`), the list of
removed files comes back through the tokeniser (`openFile_text`,
`appendToFile_text`), and a file comes back as its pathname, its size and its
bytes (`frame_eq`), so that READ N is an induction on the files. Only one thing
can go wrong, the same as with requests: a text whose length `readn` returns as
`-1` ends the client. `answers_survive` says that nothing else does.
-/

namespace FileStorage.Wire

open FileStorage.Lib FileStorage.Storage FileStorage.Worker

/-! ## What is sent -/

/-- The end of an OPEN or an APPEND: refused, done, or done with files removed
in this order. -/
inductive Outcome where
  | ko
  | ok
  | removed (names : List Bytes)

/-- `removeFile` writes a comma and the pathname behind what is there. -/
def Outcome.answer : Outcome → Answer
  | .ko => .ko
  | .ok => .ok
  | .removed names => .okRemoved (joined comma names)

/-- The removed pathnames, oldest eviction first. -/
def Outcome.names : Outcome → List Bytes
  | .removed names => names
  | _ => []

/-- The value the client returns. -/
def Outcome.value : Outcome → Int
  | .ko => -1
  | _ => 0

/-- One more eviction, as `removeFile` records it. -/
theorem removeFile_joined {n : NodeId} {ws : List Bytes} {st : InfoStorage} {k : Int} {r : Removal}
    (h : removeFile n (joined comma ws) st k = some (some r)) :
    ∃ f, st.store.files n = some f ∧ r.rmPath = joined comma (ws ++ [f.pathname]) := by
  obtain ⟨f, hf, -, -, hrm, -⟩ := store_removeFile h
  have happ : joined comma (ws ++ [f.pathname]) = joined comma ws ++ [44] ++ f.pathname := by
    simp [joined, comma]
  exact ⟨f, hf, hrm.trans happ.symm⟩

inductive Reply where
  | openFile (o : Outcome)
  | appendToFile (o : Outcome)
  | closeFile (ok : Bool)
  | closeConnection (ok : Bool)
  | readFile (f : Option Frame)
  | readNFiles (fs : List Frame) (ok : Bool)

def lastAnswer (ok : Bool) : Answer := if ok then .ok else .ko

/-- The bytes that `threadF` writes. -/
def Reply.bytes : Reply → Bytes
  | .openFile o | .appendToFile o => answerMsg o.answer
  | .closeFile ok | .closeConnection ok => answerMsg (lastAnswer ok)
  | .readFile none => answerMsg .ko
  | .readFile (some f) => f.bytes
  | .readNFiles fs ok => fs.flatMap Frame.bytes ++ answerMsg (lastAnswer ok)

/-- What a client function gives to its caller, or prints. -/
inductive Received where
  | value (ret : Int)
  | evicted (ret : Int) (names : List Bytes)
  | content (ret : Int) (size : Nat) (buf : Option Bytes)
  | files (ret : Int) (fs : List (Option Bytes × Nat × Option Bytes))
  deriving DecidableEq

/-- The client function that waits for the reply. -/
def Reply.receive (fuel : Nat) (c : Conn) : Reply → Except Stop (Received × Conn)
  | .openFile _ => openFileAnswer c >>= fun r => .ok (.evicted r.1.1 r.1.2, r.2)
  | .appendToFile _ => appendToFileAnswer c >>= fun r => .ok (.evicted r.1.1 r.1.2, r.2)
  | .closeFile _ => closeFileAnswer c >>= fun r => .ok (.value r.1, r.2)
  | .closeConnection _ => closeConnectionAnswer c >>= fun r => .ok (.value r.1, r.2)
  | .readFile _ => readFileAnswer c >>= fun r => .ok (.content r.1.1 r.1.2.1 r.1.2.2, r.2)
  | .readNFiles _ _ => readNFilesAnswer fuel c >>= fun r => .ok (.files r.1.1 r.1.2, r.2)

/-- The file as `readNFiles` gets it. -/
def Frame.received (f : Frame) : Option Bytes × Nat × Option Bytes :=
  (some f.pathname, f.content.length, some f.content)

/-- What the client should find out. -/
def Reply.meaning : Reply → Received
  | .openFile o | .appendToFile o => .evicted o.value o.names
  | .closeFile ok | .closeConnection ok => .value (if ok then 0 else -1)
  | .readFile none => .content (-1) 0 none
  | .readFile (some f) => .content 0 f.content.length (some f.content)
  | .readNFiles fs ok => .files (if ok then 0 else -1) (fs.map Frame.received)

/-! ## Its texts -/

def answerText : Answer → Bytes
  | .ko => [45, 49]
  | .ok => [48]
  | .okRemoved rmPath => [48] ++ rmPath ++ [0, 0]

def Frame.text (f : Frame) : Bytes :=
  [49] ++ comma :: (f.pathname ++ comma :: decimal f.content.length)

/-- The texts of the reply, in order. -/
def Reply.texts : Reply → List Bytes
  | .openFile o | .appendToFile o => [answerText o.answer]
  | .closeFile ok | .closeConnection ok => [answerText (lastAnswer ok)]
  | .readFile none => [answerText .ko]
  | .readFile (some f) => [f.text]
  | .readNFiles fs ok => fs.map Frame.text ++ [answerText (lastAnswer ok)]

/-- The files of the reply. -/
def Reply.frames : Reply → List Frame
  | .readFile (some f) => [f]
  | .readNFiles fs _ => fs
  | _ => []

/-- The removed files of the reply. -/
def Reply.removed : Reply → List Bytes
  | .openFile o | .appendToFile o => o.names
  | _ => []

/-- A reply of a server whose pathnames are tokens and whose files fit an
`int`; its texts fit into memory. -/
structure Reply.Valid (r : Reply) : Prop where
  removed : ∀ w ∈ r.removed, Word comma w
  pathname : ∀ f ∈ r.frames, Word comma f.pathname
  content : ∀ f ∈ r.frames, f.content.length < 2 ^ 31
  text : ∀ t ∈ r.texts, t.length < 2 ^ 63

theorem answerMsg_eq (a : Answer) : answerMsg a = message (answerText a) := by
  cases a with
  | ko => rfl
  | ok => rfl
  | okRemoved rm =>
    have hpad : 1 + 1 + (rm.length + 1) - (1 + rm.length) = 2 := by omega
    have hlen : (answerText (.okRemoved rm)).length = 1 + 1 + (rm.length + 1) := by
      simp [answerText]
      omega
    simp only [answerMsg, message, hpad, hlen]
    rfl

theorem Frame.bytes_eq {f : Frame} (h : f.content.length < 2 ^ 31) :
    f.bytes = message f.text ++ f.content :=
  sendMsgFileContent_eq [49, comma] f.pathname f.content rfl (Nat.lt_trans h (by decide))

/-! ## Text answers -/

section

variable {sched : List Read} {rest : Bytes}

/-- A client function that decides on one text. -/
theorem text_answer {β : Type} {g : Conn → Except Stop (β × Conn)} {b : β} {a : Answer}
    (hlen : (answerText a).length < 2 ^ 63) (hn : (answerMsg a).length ≤ dataReads sched)
    (hread : ∀ c r, g c = .ok r → ∃ m, recievedMsg c = .ok m)
    (hg : ∀ c c', recievedMsg c = .ok (answerText a ++ [0], c') → g c = .ok (b, c')) :
    (∃ sched', g ⟨sched, answerMsg a ++ rest⟩ = .ok (b, ⟨sched', rest⟩)) ↔
      readable (answerText a).length := by
  have hlen' : (answerText a).length < 2 ^ 64 := Nat.lt_trans hlen (by decide)
  rw [answerMsg_eq] at hn ⊢
  constructor
  · intro hx
    obtain ⟨sched', h⟩ := hx
    obtain ⟨⟨buf, c⟩, hm⟩ := hread _ _ h
    exact (recievedMsg_ok hlen' hm).1
  · intro hr
    obtain ⟨sched', hm, -⟩ := @recievedMsg_eq sched (answerText a) rest hlen' hr hn
    exact ⟨sched', hg _ _ hm⟩

/-- The same when the result is only handed on. -/
theorem text_reply {β : Type} {g : Conn → Except Stop (β × Conn)} {k : β → Received} {b : β}
    {a : Answer} (hlen : (answerText a).length < 2 ^ 63)
    (hn : (answerMsg a).length ≤ dataReads sched)
    (hread : ∀ c r, g c = .ok r → ∃ m, recievedMsg c = .ok m)
    (hg : ∀ c c', recievedMsg c = .ok (answerText a ++ [0], c') → g c = .ok (b, c')) :
    (∃ sched', (g ⟨sched, answerMsg a ++ rest⟩ >>= fun r => Except.ok (k r.1, r.2)) =
      .ok (k b, ⟨sched', rest⟩)) ↔ readable (answerText a).length := by
  refine text_answer (g := fun c => g c >>= fun r => Except.ok (k r.1, r.2)) hlen hn
    (fun c r h => ?_) (fun c c' hm => ?_)
  · obtain ⟨m, hm⟩ := first_ok h
    exact hread c m hm
  · show (g c >>= fun r => Except.ok (k r.1, r.2)) = .ok (k b, c')
    rw [hg c c' hm, ok_bind]

/-- The string of an answer with removed files. -/
theorem cstr_removed {names : List Bytes} (h : ∀ w ∈ names, Word comma w) :
    cstr (answerText (.okRemoved (joined comma names)) ++ [0]) = [48] ++ joined comma names := by
  have hnul : (0 : UInt8) ∉ [48] ++ joined comma names := by
    simp only [joined, List.mem_append, List.mem_flatMap, not_or, not_exists,
      not_and, List.mem_cons]
    exact ⟨by decide, fun w hw => ⟨by decide, (h w hw).no_nul⟩⟩
  have : answerText (.okRemoved (joined comma names)) ++ [0] =
      ([48] ++ joined comma names) ++ 0 :: [0, 0] := by
    simp [answerText]
  rw [this, cstr_append_nul hnul]

theorem strtok_removed (names : List Bytes) :
    strtok comma ([48] ++ joined comma names) = (some [48], (joined comma names).drop 1) := by
  cases names with
  | nil => decide
  | cons w ws => exact strtok_append (List.cons_ne_nil _ _) (by decide) _

theorem strtol_removed (names : List Bytes) : strtol ([48] ++ joined comma names) = 0 := by
  cases names with
  | nil => decide
  | cons w ws => simp [joined, strtol, isSpace, isDigit, comma, numeric, LONG_MAX]

/-- What `openFile` and `appendToFile` make of the three answers. -/
theorem openFile_text {o : Outcome} (h : ∀ w ∈ o.names, Word comma w) {c c' : Conn}
    (hm : recievedMsg c = .ok (answerText o.answer ++ [0], c')) :
    openFileAnswer c = .ok ((o.value, o.names), c') := by
  unfold openFileAnswer
  rw [hm, ok_bind]
  cases o with
  | ko =>
    show Except.ok ((toInt32 (strtol [45, 49]), tokens comma []), c') = _
    rw [tokens_nil]
    rfl
  | ok =>
    show Except.ok ((toInt32 (strtol [48]), tokens comma []), c') = _
    rw [tokens_nil]
    rfl
  | removed names =>
    have h : ∀ w ∈ names, Word comma w := h
    simp only [Outcome.answer, cstr_removed h, strtok_removed, strtol_removed, tokens_joined h]
    rfl

theorem appendToFile_text {o : Outcome} (h : ∀ w ∈ o.names, Word comma w) {c c' : Conn}
    (hm : recievedMsg c = .ok (answerText o.answer ++ [0], c')) :
    appendToFileAnswer c = .ok ((o.value, o.names), c') := by
  unfold appendToFileAnswer
  rw [hm, ok_bind]
  cases o with
  | ko => rfl
  | ok =>
    show Except.ok ((0, tokens comma []), c') = _
    rw [tokens_nil]
    rfl
  | removed names =>
    have h : ∀ w ∈ names, Word comma w := h
    have h0 : strtol [48] = 0 := by decide
    simp only [Outcome.answer, cstr_removed h, strtok_removed, h0, if_true, tokens_joined h]
    rfl

theorem closeFile_text (ok : Bool) {c c' : Conn}
    (hm : recievedMsg c = .ok (answerText (lastAnswer ok) ++ [0], c')) :
    closeFileAnswer c = .ok (if ok then 0 else -1, c') := by
  unfold closeFileAnswer
  rw [hm, ok_bind]
  cases ok <;> rfl

theorem closeConnection_text (ok : Bool) {c c' : Conn}
    (hm : recievedMsg c = .ok (answerText (lastAnswer ok) ++ [0], c')) :
    closeConnectionAnswer c = .ok (if ok then 0 else -1, c') := by
  unfold closeConnectionAnswer
  rw [hm, ok_bind]
  cases ok <;> rfl

/-! ## Files -/

/-- A file that is announced in a text of a readable length arrives. -/
theorem frame_eq {f : Frame} (hw : Word comma f.pathname) (hc : f.content.length < 2 ^ 31)
    (hlen : f.text.length < 2 ^ 63) (hr : readable f.text.length)
    (hn : f.bytes.length ≤ dataReads sched) :
    ∃ sched', receivedMsgFileContent ⟨sched, f.bytes ++ rest⟩ =
        .ok (⟨1, some f.pathname, f.content.length, some f.content⟩, ⟨sched', rest⟩) ∧
      dataReads sched ≤ dataReads sched' + f.bytes.length := by
  have hlen' : f.text.length < 2 ^ 64 := Nat.lt_trans hlen (by decide)
  rw [Frame.bytes_eq hc, List.length_append] at hn ⊢
  obtain ⟨s₁, h₁, hle₁⟩ := @recievedMsg_eq sched f.text (f.content ++ rest) hlen' hr (by omega)
  obtain ⟨s₂, h₂, hle₂⟩ :=
    @readnExit_eq s₁ f.content rest _ rfl (readable_of_lt hc) (by omega)
  have hdec := decimal_word isDigit_comma f.content.length
  have hnul : (0 : UInt8) ∉ f.text := by
    simp [Frame.text, comma, hw.no_nul, hdec.no_nul]
  have hcut₁ : strtok comma f.text = (some [49], f.pathname ++ comma :: decimal f.content.length) :=
    strtok_append (List.cons_ne_nil _ _) (by decide) _
  have hcut₂ := strtok_append hw.ne_nil hw.no_delim (decimal f.content.length)
  have hcut₃ := strtok_word hdec.ne_nil hdec.no_delim
  have hsz : toInt32 (strtol (decimal f.content.length)) = f.content.length := by
    rw [strtol_decimal (by unfold LONG_MAX; omega), toInt32_of_lt hc]
  have h1 : strncmpEq [49] [49] 1 = true := by decide
  refine ⟨s₂, ?_, by omega⟩
  rw [List.append_assoc]
  simp only [receivedMsgFileContent, h₁, ok_bind, cstr_append_nul hnul, hcut₁, h1, if_true, hcut₂,
    hcut₃, hsz, Int.toNat_natCast, h₂]
  rw [if_neg (by omega)]
  rfl

/-- A file whose text has an unreadable length does not. -/
theorem frame_readable {f : Frame} (hc : f.content.length < 2 ^ 31) (hlen : f.text.length < 2 ^ 63)
    {r : FileContent × Conn} (h : receivedMsgFileContent ⟨sched, f.bytes ++ rest⟩ = .ok r) :
    readable f.text.length := by
  have hlen' : f.text.length < 2 ^ 64 := Nat.lt_trans hlen (by decide)
  rw [Frame.bytes_eq hc, List.append_assoc] at h
  obtain ⟨⟨buf, c⟩, hm, -⟩ := bind_eq_ok h
  exact (recievedMsg_ok hlen' hm).1

/-- The text that ends the files of READ N, or refuses a READ. -/
theorem last_text (ok : Bool) {c c' : Conn}
    (hm : recievedMsg c = .ok (answerText (lastAnswer ok) ++ [0], c')) :
    receivedMsgFileContent c = .ok (⟨if ok then 0 else -1, none, 0, none⟩, c') := by
  unfold receivedMsgFileContent
  rw [hm, ok_bind]
  cases ok <;> rfl

theorem readFile_refused {c c' : Conn}
    (hm : recievedMsg c = .ok (answerText .ko ++ [0], c')) :
    readFileAnswer c = .ok ((-1, 0, none), c') := by
  unfold readFileAnswer
  rw [last_text false hm, ok_bind]
  rfl

/-- One file more in front of what the loop of `readNFiles` still receives. -/
theorem readNFilesAnswer_cons {fuel : Nat} {c c' : Conn} {p : Option Bytes} {n : Nat}
    {b : Option Bytes} (h : receivedMsgFileContent c = .ok (⟨1, p, n, b⟩, c')) :
    readNFilesAnswer (fuel + 1) c =
      readNFilesAnswer fuel c' >>= fun r => .ok ((r.1.1, (p, n, b) :: r.1.2), r.2) := by
  rw [readNFilesAnswer, h, ok_bind]
  rfl

theorem readNFiles_last {fuel : Nat} {c c' : Conn} (ok : Bool)
    (h : receivedMsgFileContent c = .ok (⟨if ok then 0 else -1, none, 0, none⟩, c')) :
    readNFilesAnswer (fuel + 1) c = .ok ((if ok then 0 else -1, []), c') := by
  rw [readNFilesAnswer, h, ok_bind]
  cases ok <;> rfl

/-- READ N, by induction on the files. -/
theorem readNFiles_iff (ok : Bool) : ∀ {fs : List Frame} {fuel : Nat} {sched : List Read},
    (Reply.readNFiles fs ok).Valid → fs.length < fuel →
    (fs.flatMap Frame.bytes ++ answerMsg (lastAnswer ok)).length ≤ dataReads sched →
    ((∃ sched', readNFilesAnswer fuel
        ⟨sched, fs.flatMap Frame.bytes ++ answerMsg (lastAnswer ok) ++ rest⟩ =
      .ok ((if ok then 0 else -1, fs.map Frame.received), ⟨sched', rest⟩)) ↔
    ∀ t ∈ fs.map Frame.text ++ [answerText (lastAnswer ok)], readable t.length)
  | _, 0, _, _, hf, _ => absurd hf (Nat.not_lt_zero _)
  | [], fuel + 1, sched, hv, _, hn => by
    have hlen := hv.text (answerText (lastAnswer ok)) (List.mem_singleton.mpr rfl)
    simp only [List.flatMap_nil, List.nil_append, List.map_nil, List.forall_mem_singleton] at hn ⊢
    refine text_answer hlen hn (fun c r h => ?_) (fun c c' hm => ?_)
    · obtain ⟨m, hm⟩ := first_ok h
      exact first_ok hm
    · exact readNFiles_last ok (last_text ok hm)
  | f :: fs, fuel + 1, sched, hv, hf, hn => by
    have hw := hv.pathname f List.mem_cons_self
    have hc := hv.content f List.mem_cons_self
    have hlen := hv.text f.text List.mem_cons_self
    have hv' : (Reply.readNFiles fs ok).Valid :=
      ⟨hv.removed, fun g hg => hv.pathname g (List.mem_cons_of_mem _ hg),
        fun g hg => hv.content g (List.mem_cons_of_mem _ hg),
        fun t ht => hv.text t (List.mem_cons_of_mem _ ht)⟩
    have hf' : fs.length < fuel := Nat.lt_of_succ_lt_succ hf
    rw [List.flatMap_cons, List.append_assoc, List.length_append] at hn
    rw [List.flatMap_cons, List.append_assoc, List.append_assoc, ← List.append_assoc (fs.flatMap _),
      List.map_cons, List.map_cons, List.cons_append, List.forall_mem_cons]
    constructor
    · intro hx
      obtain ⟨sched', h⟩ := hx
      -- the first frame was read, so its text has a readable length
      obtain ⟨r, hr, -⟩ := bind_eq_ok h
      have htext := frame_readable hc hlen hr
      obtain ⟨s₁, h₁, hle₁⟩ := @frame_eq sched
        (fs.flatMap Frame.bytes ++ answerMsg (lastAnswer ok) ++ rest) f hw hc hlen htext (by omega)
      rw [readNFilesAnswer_cons h₁] at h
      obtain ⟨⟨⟨ret, files⟩, c⟩, hfiles, h⟩ := bind_eq_ok h
      cases h
      exact ⟨htext, (readNFiles_iff ok hv' hf' (by omega)).mp ⟨sched', hfiles⟩⟩
    · intro hx
      obtain ⟨htext, hrest⟩ := hx
      obtain ⟨s₁, h₁, hle₁⟩ := @frame_eq sched
        (fs.flatMap Frame.bytes ++ answerMsg (lastAnswer ok) ++ rest) f hw hc hlen htext (by omega)
      -- the frames behind it by the induction, from what the first has left
      obtain ⟨s₂, h₂⟩ := (@readNFiles_iff ok fs fuel s₁ hv' hf' (by omega)).mpr hrest
      refine ⟨s₂, ?_⟩
      rw [readNFilesAnswer_cons h₁, h₂, ok_bind]
      rfl

end

/-! ## Every reply -/

/-- For every reply and every split of the reads, the client finds out exactly
what was sent, and stands behind its last byte, if and only if all the texts
have readable lengths. -/
theorem answers_survive (r : Reply) (fuel : Nat) (sched : List Read) (rest : Bytes)
    (hv : r.Valid) (hf : r.frames.length < fuel) (hn : r.bytes.length ≤ dataReads sched) :
    (∃ sched', r.receive fuel ⟨sched, r.bytes ++ rest⟩ = .ok (r.meaning, ⟨sched', rest⟩)) ↔
      ∀ t ∈ r.texts, readable t.length := by
  -- every reply but that of READ N is one text
  have one : ∀ {t : Bytes}, (∀ s ∈ [t], readable s.length) ↔ readable t.length :=
    List.forall_mem_singleton
  cases r with
  | openFile o =>
    have hlen := hv.text _ (List.mem_singleton.mpr rfl)
    refine Iff.trans ?_ one.symm
    exact text_reply (k := fun r => .evicted r.1 r.2) hlen hn (fun c r h => first_ok h)
      (fun c c' hm => openFile_text hv.removed hm)
  | appendToFile o =>
    have hlen := hv.text _ (List.mem_singleton.mpr rfl)
    refine Iff.trans ?_ one.symm
    exact text_reply (k := fun r => .evicted r.1 r.2) hlen hn (fun c r h => first_ok h)
      (fun c c' hm => appendToFile_text hv.removed hm)
  | closeFile ok =>
    have hlen := hv.text _ (List.mem_singleton.mpr rfl)
    refine Iff.trans ?_ one.symm
    exact text_reply (k := .value) hlen hn (fun c r h => first_ok h)
      (fun c c' hm => closeFile_text ok hm)
  | closeConnection ok =>
    have hlen := hv.text _ (List.mem_singleton.mpr rfl)
    refine Iff.trans ?_ one.symm
    exact text_reply (k := .value) hlen hn (fun c r h => first_ok h)
      (fun c c' hm => closeConnection_text ok hm)
  | readFile f =>
    cases f with
    | none =>
      have hlen := hv.text _ (List.mem_singleton.mpr rfl)
      refine Iff.trans ?_ one.symm
      exact text_reply (k := fun r => .content r.1 r.2.1 r.2.2) (a := .ko) hlen hn
        (fun c r h => (first_ok h).elim fun m hm => first_ok hm)
        (fun c c' hm => readFile_refused hm)
    | some f =>
      have hw := hv.pathname f (List.mem_singleton.mpr rfl)
      have hc := hv.content f (List.mem_singleton.mpr rfl)
      have hlen := hv.text f.text (List.mem_singleton.mpr rfl)
      refine Iff.trans ⟨?_, ?_⟩ one.symm
      · intro hx
        obtain ⟨sched', h⟩ := hx
        obtain ⟨a, ha⟩ := first_ok h
        obtain ⟨m, hm⟩ := first_ok ha
        exact frame_readable hc hlen hm
      · intro hr
        obtain ⟨sched', hm, -⟩ := @frame_eq sched rest f hw hc hlen hr hn
        refine ⟨sched', ?_⟩
        show (readFileAnswer ⟨sched, f.bytes ++ rest⟩ >>= fun r =>
          Except.ok (Received.content r.1.1 r.1.2.1 r.1.2.2, r.2)) = _
        rw [readFileAnswer, hm]
        rfl
  | readNFiles fs ok =>
    refine Iff.trans ⟨?_, ?_⟩ (@readNFiles_iff rest ok fs fuel sched hv hf hn)
    · intro hx
      obtain ⟨sched', h⟩ := hx
      obtain ⟨⟨⟨ret, files⟩, c⟩, hfiles, h⟩ := bind_eq_ok h
      cases h
      exact ⟨sched', hfiles⟩
    · intro hx
      obtain ⟨sched', h⟩ := hx
      refine ⟨sched', ?_⟩
      show (readNFilesAnswer fuel _ >>= fun r => Except.ok (Received.files r.1.1 r.1.2, r.2)) = _
      rw [Reply.bytes, h]
      rfl

/-- READ N of `/a`, with a comma and a NUL in it, and of the empty `/b`. -/
def twoFiles : Reply := .readNFiles [⟨[47, 97], [49, 44, 0]⟩, ⟨[47, 98], []⟩] true

theorem answers_survive_two_files : ∃ sched',
    twoFiles.receive 3 ⟨List.replicate 60 (.upTo 0), twoFiles.bytes ++ [5]⟩ =
      .ok (.files 0 [(some [47, 97], 3, some [49, 44, 0]), (some [47, 98], 0, some [])],
        ⟨sched', [5]⟩) := by
  have word : ∀ c : UInt8, c ≠ 0 → c ≠ comma → Word comma [47, c] := by
    intro c h0 hc
    have hslash : comma ≠ 47 := by decide
    exact ⟨List.cons_ne_nil _ _, by simp [hslash, Ne.symm hc], by simp [Ne.symm h0]⟩
  refine (answers_survive twoFiles 3 (List.replicate 60 (.upTo 0)) [5] ⟨?_, ?_, ?_, ?_⟩
    (by decide) (by decide +kernel)).mpr ?_
  · intro w hw
    cases hw
  · intro f hf
    simp only [twoFiles, Reply.frames, List.mem_cons, List.not_mem_nil, or_false] at hf
    rcases hf with rfl | rfl
    · exact word 97 (by decide) (by decide)
    · exact word 98 (by decide) (by decide)
  · decide
  · decide +kernel
  · decide +kernel

/-- A pathname of `n + 1` bytes. -/
def longName (c : UInt8) (n : Nat) : Bytes := 47 :: List.replicate n c

theorem word_longName {c : UInt8} (h0 : c ≠ 0) (hc : c ≠ comma) (n : Nat) :
    Word comma (longName c n) := by
  have hslash : comma ≠ 47 := by decide
  refine ⟨List.cons_ne_nil _ _, ?_, ?_⟩
  · simp only [longName, List.mem_cons, List.mem_replicate, not_or]
    exact ⟨hslash, fun h => hc h.2.symm⟩
  · simp only [longName, List.mem_cons, List.mem_replicate, not_or]
    exact ⟨by decide, fun h => h0 h.2.symm⟩

/-- The text that names two removed files. -/
theorem length_two_removed (c c' : UInt8) (n : Nat) :
    (answerText (.okRemoved (joined comma [longName c n, longName c' n]))).length = 2 * n + 7 := by
  simp only [answerText, joined, longName, List.flatMap_cons, List.flatMap_nil, List.length_append,
    List.length_cons, List.length_replicate, List.length_nil]
  omega

theorem dataReads_replicate (k n : Nat) : dataReads (List.replicate n (.upTo k)) = n := by
  induction n with
  | zero => rfl
  | succ n ih =>
    show dataReads (List.replicate n (.upTo k)) + 1 = n + 1
    rw [ih]

/-- An answer whose text has an unreadable length ends the client. -/
theorem openFile_unreadable {o : Outcome} (hlen : (answerText o.answer).length < 2 ^ 64)
    (h : ¬ readable (answerText o.answer).length) (fuel : Nat) (sched : List Read) (rest : Bytes)
    (r : Received × Conn) :
    (Reply.openFile o).receive fuel ⟨sched, (Reply.openFile o).bytes ++ rest⟩ ≠ .ok r := by
  intro hr
  obtain ⟨a, ha, -⟩ := bind_eq_ok hr
  obtain ⟨⟨buf, c⟩, hm, -⟩ := bind_eq_ok ha
  rw [Reply.bytes, answerMsg_eq] at hm
  exact h (recievedMsg_ok hlen hm).1

/-- Two removed pathnames of `2 ^ 31 - 3` bytes: the text has `2 ^ 32 - 1`. -/
theorem two_long_names :
    let r : Reply := .openFile (.removed [longName 97 (2 ^ 31 - 4), longName 98 (2 ^ 31 - 4)])
    r.Valid ∧ ∃ sched, r.bytes.length ≤ dataReads sched ∧
      ¬ ∃ sched', r.receive 1 ⟨sched, r.bytes⟩ = .ok (r.meaning, ⟨sched', []⟩) := by
  intro r
  have htext : (answerText (.okRemoved
      (joined comma [longName 97 (2 ^ 31 - 4), longName 98 (2 ^ 31 - 4)]))).length = 2 ^ 32 - 1 := by
    rw [length_two_removed]
    decide
  refine ⟨⟨fun w hw => ?_, fun f hf => ?_, fun f hf => ?_, fun t ht => ?_⟩,
    List.replicate r.bytes.length (.upTo 0), ?_, ?_⟩
  · have hw : w ∈ [longName 97 (2 ^ 31 - 4), longName 98 (2 ^ 31 - 4)] := hw
    rcases List.mem_pair.mp hw with rfl | rfl
    · exact word_longName (by decide) (by decide) _
    · exact word_longName (by decide) (by decide) _
  · cases hf
  · cases hf
  · rw [List.mem_singleton.mp ht]
    exact Nat.lt_of_le_of_lt (Nat.le_of_eq htext) (by decide)
  · rw [dataReads_replicate]
  · intro hx
    obtain ⟨sched', h⟩ := hx
    rw [← List.append_nil r.bytes] at h
    have hlen := Nat.lt_of_le_of_lt (Nat.le_of_eq htext) (by decide : 2 ^ 32 - 1 < 2 ^ 64)
    have hun : ¬ readable (answerText (.okRemoved
        (joined comma [longName 97 (2 ^ 31 - 4), longName 98 (2 ^ 31 - 4)]))).length := by
      rw [htext]
      decide
    exact openFile_unreadable (o := .removed _) hlen hun 1 _ [] _ h

end FileStorage.Wire

import FileStorage.Service.Calls

/-!
# What a call returns

The service sends for each call one of the replies that `threadF` has for it
(`replies_serve`), and the reader of the call makes of the bytes what the reply
means (`receive_reply`). Both ends agree as long as the pathnames are tokens of
a bounded length and the cache is small enough for its sizes and lists to fit
an `int` (`Fits`).
-/

namespace FileStorage.Service

open FileStorage.Lib FileStorage.Storage FileStorage.Worker FileStorage.Wire

/-- A pathname that comes through the tokenisers, of at most `L` bytes. -/
structure Carried (L : Nat) (p : Bytes) : Prop where
  word : Word comma p
  length : p.length ≤ L

/-- Every text that a server with these limits sends fits an `int`. -/
structure Fits (lim : Limits) (L : Nat) : Prop where
  ram : lim.ram < 2 ^ 31
  text : lim.slots * (L + 1) + L + 32 < 2 ^ 31

/-- The reply to a call. -/
inductive Replies : Call → List Output → Reply → Prop
  | openFile (p : Bytes) (flags : OpenFlag) (o : Outcome) :
      Replies (.openFile p flags) [.answer o.answer] (.openFile o)
  | appendToFile (p buf : Bytes) (o : Outcome) :
      Replies (.appendToFile p buf) [.answer o.answer] (.appendToFile o)
  | refused (p : Bytes) : Replies (.readFile p) [.answer .ko] (.readFile none)
  | readFile (p : Bytes) (e : Entry) :
      Replies (.readFile p) [e.output] (.readFile (some ⟨e.pathname, e.content⟩))
  | readNFiles (n : Nat) (es : List Entry) (ok : Bool) :
      Replies (.readNFiles n) (es.map Entry.output ++ [.answer (lastAnswer ok)])
        (.readNFiles (es.map fun e => ⟨e.pathname, e.content⟩) ok)
  | closeFile (p : Bytes) (ok : Bool) :
      Replies (.closeFile p) [.answer (lastAnswer ok)] (.closeFile ok)
  | closeConnection (sockname : Bytes) (ok : Bool) :
      Replies (.closeConnection sockname) [.bye (lastAnswer ok)] (.closeConnection ok)

/-- What the reply names comes from a cache within its limits. -/
structure Kept (lim : Limits) (L : Nat) (r : Reply) : Prop where
  removed : ∀ w ∈ r.removed, Carried L w
  length : (r.removed.length : Int) ≤ lim.slots
  pathname : ∀ f ∈ r.frames, Carried L f.pathname
  content : ∀ f ∈ r.frames, (f.content.length : Int) ≤ lim.ram

section

variable {lim : Limits} {L fd : Nat} {c : Call} {outs : List Output} {r : Reply} {l : List Entry}

/-! ## The service replies -/

/-- One file is not larger than all. -/
theorem size_le_bytes {e : Entry} (h : e ∈ l) : e.size ≤ bytesOf l :=
  List.single_le_sum (fun x hx => by
    obtain ⟨e, -, rfl⟩ := List.mem_map.mp hx
    exact e.size_nonneg) _ (List.mem_map.mpr ⟨e, h, rfl⟩)

/-- A reply that names no removed files and sends none. -/
theorem Kept.plain (hs : 0 ≤ lim.slots) (hr : r.removed = []) (hf : r.frames = []) :
    Kept lim L r where
  removed := by
    rw [hr]
    exact fun w hw => (List.not_mem_nil hw).elim
  length := by
    rw [hr]
    exact hs
  pathname := by
    rw [hf]
    exact fun f hf => (List.not_mem_nil hf).elim
  content := by
    rw [hf]
    exact fun f hf => (List.not_mem_nil hf).elim

theorem Bounded.slots_nonneg (h : Bounded lim l) : 0 ≤ lim.slots :=
  Int.le_trans (Int.natCast_nonneg _) h.length

/-- The outcome of an OPEN or an APPEND. -/
structure Outcome.Kept (lim : Limits) (L : Nat) (a : Answer) (o : Outcome) : Prop where
  answer : a = o.answer
  removed : ∀ w ∈ o.names, Carried L w
  length : (o.names.length : Int) ≤ lim.slots

theorem kept_ko (h : Bounded lim l) : Outcome.Kept lim L .ko .ko :=
  ⟨rfl, fun _ hw => (List.not_mem_nil hw).elim, h.slots_nonneg⟩

theorem kept_ok (h : Bounded lim l) : Outcome.Kept lim L .ok .ok :=
  ⟨rfl, fun _ hw => (List.not_mem_nil hw).elim, h.slots_nonneg⟩

/-- Files of the cache that went. -/
theorem kept_removed (h : Bounded lim l) (hc : ∀ e ∈ l, Carried L e.pathname) (gone : List Entry)
    (hmem : ∀ e ∈ gone, e ∈ l) (hlen : gone.length ≤ l.length) :
    Outcome.Kept lim L (.okRemoved (joined 44 (namesOf gone))) (.removed (namesOf gone)) where
  answer := rfl
  removed := by
    intro w hw
    obtain ⟨e, he, rfl⟩ := List.mem_map.mp hw
    exact hc e (hmem e he)
  length := by
    show ((gone.map _).length : Int) ≤ _
    rw [List.length_map]
    have hfits := h.length
    omega

/-- What OPEN returns fits the message. -/
theorem kept_openFile (h : Bounded lim l) (hc : ∀ e ∈ l, Carried L e.pathname) (p flag : Bytes) :
    ∃ o, Outcome.Kept lim L (openFile lim fd p flag l).2 o := by
  unfold openFile
  cases lookup Entry.pathname p l with
  | some e =>
    dsimp only
    split
    · exact ⟨_, kept_ok h⟩
    · exact ⟨_, kept_ko h⟩
  | none =>
    dsimp only
    split
    · exact ⟨_, kept_ko h⟩
    · unfold createFile
      split
      · exact ⟨_, kept_removed h hc [] (fun e he => (List.not_mem_nil he).elim)
          (Nat.zero_le _)⟩
      · cases hv : (removables l).head? with
        | none => exact ⟨_, kept_ko h⟩
        | some v =>
          have hmem := mem_of_removables (List.mem_of_head? hv)
          refine ⟨_, kept_removed h hc [v] (fun e he => ?_) ?_⟩
          · rwa [List.mem_singleton.mp he]
          · exact List.length_pos_of_mem hmem

/-- What APPEND returns fits, names included. -/
theorem kept_appendToFile (h : Bounded lim l) (hc : ∀ e ∈ l, Carried L e.pathname)
    (p content : Bytes) : ∃ o, Outcome.Kept lim L (appendToFile lim fd p content l).2 o := by
  unfold appendToFile
  cases lookup Entry.pathname p l with
  | none => exact ⟨_, kept_ko h⟩
  | some e =>
    dsimp only
    split
    · unfold extendFile
      split
      · exact ⟨_, kept_ko h⟩
      · dsimp only
        split
        · have hfront : evicted lim content l <+: removables l := fewest_prefix ..
          refine ⟨_, kept_removed h hc (evicted lim content l) (fun e he => ?_) ?_⟩
          · exact mem_of_removables (hfront.subset he)
          · refine Nat.le_trans hfront.length_le ?_
            refine Nat.le_trans (List.length_filter_le _ _) (Nat.le_of_eq ?_)
            exact List.length_reverse
        · exact ⟨_, kept_ko h⟩
    · exact ⟨_, kept_ko h⟩

/-- **For each call the service sends one of its replies.** -/
theorem replies_serve (h : Bounded lim l) (hc : ∀ e ∈ l, Carried L e.pathname) (c : Call) :
    ∃ r, Replies c (serve lim fd c.op l).2 r ∧ Kept lim L r := by
  have hs := h.slots_nonneg
  cases c with
  | openFile p flags =>
    obtain ⟨o, ho⟩ := @kept_openFile lim L fd l h hc p flags.text
    refine ⟨.openFile o, ?_, ho.removed, ho.length, fun f hf => (List.not_mem_nil hf).elim,
      fun f hf => (List.not_mem_nil hf).elim⟩
    show Replies _ [.answer (openFile lim fd p flags.text l).2] _
    rw [ho.answer]
    exact .openFile p flags o
  | appendToFile p buf =>
    obtain ⟨o, ho⟩ := @kept_appendToFile lim L fd l h hc p buf
    refine ⟨.appendToFile o, ?_, ho.removed, ho.length, fun f hf => (List.not_mem_nil hf).elim,
      fun f hf => (List.not_mem_nil hf).elim⟩
    show Replies _ [.answer (appendToFile lim fd p buf l).2] _
    rw [ho.answer]
    exact .appendToFile p buf o
  | readFile p =>
    show ∃ r, Replies _ [readFile fd p l] r ∧ _
    unfold readFile
    cases hfind : lookup Entry.pathname p l with
    | none => exact ⟨_, .refused p, .plain hs rfl rfl⟩
    | some e =>
      dsimp only
      split
      · have hmem : e ∈ l := List.mem_of_find?_eq_some hfind
        refine ⟨_, .readFile p e, fun w hw => (List.not_mem_nil hw).elim, hs, fun f hf => ?_,
          fun f hf => ?_⟩
        · rw [List.mem_singleton.mp hf]
          exact hc e hmem
        · rw [List.mem_singleton.mp hf]
          exact Int.le_trans (size_le_bytes hmem) h.bytes
      · exact ⟨_, .refused p, .plain hs rfl rfl⟩
  | readNFiles n =>
    have hmem : ∀ e ∈ wantedFiles n l, e ∈ l := fun e he =>
      (List.mem_filter.mp (List.mem_of_mem_take he)).1
    -- the last answer says whether there was a file to send
    have hlast : (if wantedFiles n l = [] then Answer.ko else .ok) =
        lastAnswer (!decide (wantedFiles n l = [])) := by
      by_cases he : wantedFiles n l = [] <;> simp [he, lastAnswer]
    refine ⟨.readNFiles ((wantedFiles n l).map fun e => ⟨e.pathname, e.content⟩)
      (!decide (wantedFiles n l = [])), ?_, fun w hw => (List.not_mem_nil hw).elim, hs,
      fun f hf => ?_, fun f hf => ?_⟩
    · show Replies _ ((wantedFiles n l).map Entry.output ++ [.answer _]) _
      rw [hlast]
      exact .readNFiles n _ _
    · obtain ⟨e, he, rfl⟩ := List.mem_map.mp hf
      exact hc e (hmem e he)
    · obtain ⟨e, he, rfl⟩ := List.mem_map.mp hf
      exact Int.le_trans (size_le_bytes (hmem e he)) h.bytes
  | closeFile p =>
    show ∃ r, Replies _ [.answer (closeFile fd p l).2] r ∧ _
    unfold closeFile
    cases lookup Entry.pathname p l with
    | none => exact ⟨_, .closeFile p false, .plain hs rfl rfl⟩
    | some e =>
      dsimp only
      split
      · exact ⟨_, .closeFile p true, .plain hs rfl rfl⟩
      · exact ⟨_, .closeFile p false, .plain hs rfl rfl⟩
  | closeConnection sockname =>
    show ∃ r, Replies _ [.bye (if lim.sockname.isPrefixOf sockname then .ok else .ko)] r ∧ _
    split
    · exact ⟨_, .closeConnection sockname true, .plain hs rfl rfl⟩
    · exact ⟨_, .closeConnection sockname false, .plain hs rfl rfl⟩

/-- The names that a request leaves are those it found, and the one it created. -/
theorem carried_serve {op : Op} (hc : ∀ e ∈ l, Carried L e.pathname)
    (hop : ∀ p flag, op = .openFile p flag → Carried L p) :
    ∀ e ∈ (serve lim fd op l).1, Carried L e.pathname := by
  -- a rewriting keeps the names, and a removal gives no new one
  have hedit : ∀ (ks : List Bytes) (g : Entry → Entry), (∀ e, (g e).pathname = e.pathname) →
      ∀ l : List Entry, (∀ e ∈ l, Carried L e.pathname) →
        ∀ e ∈ edit Entry.pathname ks g l, Carried L e.pathname := by
    intro ks g hg l hc e he
    obtain ⟨a, ha, rfl⟩ := List.mem_map.mp he
    split
    · rw [hg]
      exact hc a ha
    · exact hc a ha
  have hwithout : ∀ ks, ∀ e ∈ without Entry.pathname ks l, Carried L e.pathname :=
    fun ks e he => hc e ((without_sublist ks l).subset he)
  cases op with
  | openFile p flag =>
    have hp := hop p flag rfl
    have hcons : ∀ l' : List Entry, (∀ e ∈ l', Carried L e.pathname) →
        ∀ e ∈ Entry.create p fd :: l', Carried L e.pathname := by
      intro l' hl' e he
      rcases List.mem_cons.mp he with rfl | he
      · exact hp
      · exact hl' e he
    show ∀ e ∈ (openFile lim fd p flag l).1, _
    unfold openFile
    cases lookup Entry.pathname p l with
    | some e =>
      dsimp only
      split
      · exact hedit [p] (Entry.openBy fd) (fun _ => rfl) l hc
      · exact hc
    | none =>
      dsimp only
      split
      · exact hc
      · unfold createFile
        split
        · exact hcons l hc
        · cases (removables l).head? with
          | none => exact hc
          | some v => exact hcons _ (hwithout [v.pathname])
  | readFile p => exact hc
  | readNFiles n => exact hedit _ Entry.close (fun _ => rfl) l hc
  | appendToFile p content =>
    show ∀ e ∈ (appendToFile lim fd p content l).1, _
    unfold appendToFile
    cases lookup Entry.pathname p l with
    | none => exact hc
    | some e =>
      dsimp only
      split
      · unfold extendFile
        dsimp only
        split
        · exact hwithout [e.pathname]
        · split
          · exact hedit [e.pathname] (Entry.extend content) (fun _ => rfl) _ (hwithout _)
          · exact hc
      · exact hc
  | closeFile p =>
    show ∀ e ∈ (closeFile fd p l).1, _
    unfold closeFile
    cases lookup Entry.pathname p l with
    | none => exact hc
    | some e =>
      dsimp only
      split
      · exact hedit [p] Entry.close (fun _ => rfl) l hc
      · exact hc
  | closeConnection sockname => exact hc

/-! ## The bytes of a reply -/

/-- The outputs are the bytes of the reply. -/
theorem Replies.bytes (h : Replies c outs r) : outs.flatMap Output.bytes = r.bytes := by
  cases h with
  | readNFiles n es ok =>
    show _ = (es.map _).flatMap Frame.bytes ++ answerMsg (lastAnswer ok)
    rw [List.flatMap_append, List.flatMap_map, List.flatMap_map]
    exact congrArg _ (List.append_nil _)
  | readFile p e => exact List.append_nil _
  | _ => exact List.append_nil _

/-- The receiving call of the client is that of the reply. -/
theorem Replies.receive (h : Replies c outs r) (fuel : Nat) (conn : Conn) :
    callReceive fuel conn c = r.receive fuel conn := by
  cases h <;> rfl

/-- It gets what the outputs mean. -/
theorem Replies.received (h : Replies c outs r) (hk : Kept lim L r) :
    received c outs = r.meaning := by
  have hout : ∀ o : Outcome, (∀ w ∈ o.names, Word comma w) →
      Received.evicted (answerValue o.answer) (answerNames o.answer) = .evicted o.value o.names := by
    intro o ho
    cases o with
    | ko => rfl
    | ok => rfl
    | removed names =>
      have ho : ∀ w ∈ names, Word comma w := ho
      show Received.evicted 0 (tokens comma ((joined comma names).drop 1)) = .evicted 0 names
      rw [tokens_joined ho]
  cases h with
  | openFile p flags o => exact hout o fun w hw => (hk.removed w hw).word
  | appendToFile p buf o => exact hout o fun w hw => (hk.removed w hw).word
  | refused p => rfl
  | readFile p e => rfl
  | readNFiles n es ok =>
    have hfiles : (es.map Entry.output ++ [Output.answer (lastAnswer ok)]).filterMap Output.received =
        es.map fun e => (some e.pathname, e.content.length, some e.content) := by
      rw [List.filterMap_append, List.filterMap_map]
      show es.filterMap (fun e => some (some e.pathname, e.content.length, some e.content)) ++ [] = _
      rw [List.append_nil]
      exact congrFun (List.filterMap_eq_map' (f := fun e : Entry =>
        (some e.pathname, e.content.length, some e.content))) es
    show Received.files (if _ then -1 else 0) _ = .files _ _
    rw [hfiles, List.getLast?_concat, List.map_map]
    cases ok <;> rfl
  | closeFile p ok => cases ok <;> rfl
  | closeConnection sockname ok => cases ok <;> rfl

/-! ## The reader of a call -/

/-- A number below `10 ^ k` has at most `k` digits. -/
theorem length_decimal {k n : Nat} (hk : 0 < k) (h : n < 10 ^ k) : (decimal n).length ≤ k := by
  induction k generalizing n with
  | zero => exact absurd hk (Nat.lt_irrefl 0)
  | succ k ih =>
    rw [decimal_eq, List.length_append]
    split
    · exact Nat.le_add_left 1 k
    · next hn =>
      have hpos : 0 < k := by
        by_contra hzero
        obtain rfl : k = 0 := by omega
        omega
      rw [Nat.pow_succ] at h
      exact Nat.succ_le_succ (ih hpos (by omega))

/-- Names behind delimiters take their lengths and one byte each. -/
theorem length_joined {ws : List Bytes} (h : ∀ w ∈ ws, w.length ≤ L) :
    (joined comma ws).length ≤ ws.length * (L + 1) := by
  induction ws with
  | nil => exact Nat.zero_le _
  | cons w ws ih =>
    have hw := h w List.mem_cons_self
    have hrest := ih fun v hv => h v (List.mem_cons_of_mem w hv)
    show ((comma :: w) ++ joined comma ws).length ≤ (ws.length + 1) * (L + 1)
    rw [List.length_append, List.length_cons, Nat.succ_mul]
    omega

/-- The texts of a reply are short. -/
theorem Kept.texts (h : Kept lim L r) (hfit : Fits lim L) : ∀ t ∈ r.texts, t.length < 2 ^ 31 := by
  have hlast : ∀ ok, (answerText (lastAnswer ok)).length < 2 ^ 31 := by
    intro ok
    cases ok <;> decide
  -- the longest answer names as many files as there are slots
  have hout : ∀ o : Outcome, (∀ w ∈ o.names, Carried L w) → (o.names.length : Int) ≤ lim.slots →
      (answerText o.answer).length < 2 ^ 31 := by
    intro o hnames hlen
    cases o with
    | ko => decide
    | ok => decide
    | removed names =>
      have hjoined : (joined comma names).length ≤ names.length * (L + 1) :=
        length_joined fun w hw => (hnames w hw).length
      have hslots : (names.length : Int) * (L + 1) ≤ lim.slots * (L + 1) :=
        Int.mul_le_mul_of_nonneg_right hlen (by omega)
      have hfits := hfit.text
      have hcast : ((names.length * (L + 1) : Nat) : Int) = (names.length : Int) * (L + 1) := by
        push_cast
        rfl
      show ([48] ++ joined comma names ++ [0, 0]).length < 2 ^ 31
      simp only [List.length_append, List.length_cons, List.length_nil]
      omega
  -- a frame has a name and the digits of a size
  have hframe : ∀ f ∈ r.frames, f.text.length < 2 ^ 31 := by
    intro f hf
    have hp := (h.pathname f hf).length
    have hsmall : f.content.length < 2 ^ 31 := by
      have hc := h.content f hf
      have hram := hfit.ram
      omega
    have hd := @length_decimal 10 f.content.length (by decide)
      (Nat.lt_trans hsmall (by decide))
    have hslots := Int.mul_nonneg (Int.le_trans (Int.natCast_nonneg _) h.length)
      (Int.natCast_nonneg (L + 1))
    have hfits := hfit.text
    push_cast at hslots
    simp only [Frame.text, List.length_append, List.length_cons, List.length_nil]
    omega
  intro t ht
  cases r with
  | openFile o | appendToFile o =>
    rw [List.mem_singleton.mp ht]
    exact hout o h.removed h.length
  | closeFile ok | closeConnection ok =>
    rw [List.mem_singleton.mp ht]
    exact hlast ok
  | readFile f =>
    cases f with
    | none =>
      rw [List.mem_singleton.mp ht]
      exact hlast false
    | some f =>
      rw [List.mem_singleton.mp ht]
      exact hframe f (List.mem_singleton.mpr rfl)
  | readNFiles fs ok =>
    rcases List.mem_append.mp ht with ht | ht
    · obtain ⟨f, hf, rfl⟩ := List.mem_map.mp ht
      exact hframe f hf
    · rw [List.mem_singleton.mp ht]
      exact hlast ok

/-- A reply within the limits can be read. -/
theorem Kept.valid (h : Kept lim L r) (hfit : Fits lim L) : r.Valid where
  removed := fun w hw => (h.removed w hw).word
  pathname := fun f hf => (h.pathname f hf).word
  content := by
    intro f hf
    have hc := h.content f hf
    have hram := hfit.ram
    omega
  text := fun t ht => Nat.lt_trans (h.texts hfit t ht) (by decide)

/-- Each frame takes a byte at least. -/
theorem frames_lt_bytes (r : Reply) : r.frames.length ≤ r.bytes.length := by
  -- a frame has its length in front
  have hone : ∀ f : Frame, 1 ≤ f.bytes.length := by
    intro f
    unfold Frame.bytes sendMsgFileContent sendMsg
    simp only [List.length_append, length_leBytes]
    omega
  cases r with
  | readFile f =>
    cases f with
    | none => exact Nat.zero_le _
    | some f => exact hone f
  | readNFiles fs ok =>
    show fs.length ≤ (fs.flatMap Frame.bytes ++ _).length
    rw [List.length_append]
    refine Nat.le_trans ?_ (Nat.le_add_right _ _)
    induction fs with
    | nil => exact Nat.le_refl _
    | cons f fs ih =>
      have hf := hone f
      rw [List.flatMap_cons, List.length_append, List.length_cons]
      omega
  | _ => exact Nat.zero_le _

/-- **The reader of a call makes of the bytes what the reply means**, and reads
nothing else. -/
theorem receive_reply {fuel : Nat} {sched : List Read} (hk : Kept lim L r) (hfit : Fits lim L)
    (hf : r.frames.length < fuel) (hn : r.bytes.length ≤ dataReads sched) :
    ∃ sched', r.receive fuel ⟨sched, r.bytes⟩ = .ok (r.meaning, ⟨sched', []⟩) := by
  have hv := hk.valid hfit
  have hshort := hk.texts hfit
  have hread : ∀ t ∈ r.texts, readable t.length := fun t ht => readable_of_lt (hshort t ht)
  rw [← List.append_nil r.bytes]
  cases r with
  | openFile o =>
    have ht := List.mem_singleton.mpr (rfl : answerText o.answer = _)
    exact (text_reply (k := fun r => .evicted r.1 r.2) (hv.text _ ht) hn (fun c r h => first_ok h)
      (fun c c' hm => openFile_text hv.removed hm)).mpr (hread _ ht)
  | appendToFile o =>
    have ht := List.mem_singleton.mpr (rfl : answerText o.answer = _)
    exact (text_reply (k := fun r => .evicted r.1 r.2) (hv.text _ ht) hn (fun c r h => first_ok h)
      (fun c c' hm => appendToFile_text hv.removed hm)).mpr (hread _ ht)
  | closeFile ok =>
    have ht := List.mem_singleton.mpr (rfl : answerText (lastAnswer ok) = _)
    exact (text_reply (k := .value) (hv.text _ ht) hn (fun c r h => first_ok h)
      (fun c c' hm => closeFile_text ok hm)).mpr (hread _ ht)
  | closeConnection ok =>
    have ht := List.mem_singleton.mpr (rfl : answerText (lastAnswer ok) = _)
    exact (text_reply (k := .value) (hv.text _ ht) hn (fun c r h => first_ok h)
      (fun c c' hm => closeConnection_text ok hm)).mpr (hread _ ht)
  | readFile f =>
    cases f with
    | none =>
      have ht := List.mem_singleton.mpr (rfl : answerText .ko = _)
      exact (text_reply (k := fun r => .content r.1 r.2.1 r.2.2) (a := .ko) (hv.text _ ht) hn
        (fun c r h => (first_ok h).elim fun m hm => first_ok hm)
        (fun c c' hm => readFile_refused hm)).mpr (hread _ ht)
    | some f =>
      have hmem : f ∈ [f] := List.mem_singleton.mpr rfl
      have ht : f.text ∈ [f.text] := List.mem_singleton.mpr rfl
      obtain ⟨sched', hm, -⟩ := @frame_eq sched [] f (hv.pathname f hmem) (hv.content f hmem)
        (hv.text _ ht) (hread _ ht) hn
      refine ⟨sched', ?_⟩
      show (readFileAnswer ⟨sched, f.bytes ++ []⟩ >>= fun r =>
        Except.ok (Received.content r.1.1 r.1.2.1 r.1.2.2, r.2)) = _
      rw [readFileAnswer, hm]
      rfl
  | readNFiles fs ok =>
    obtain ⟨sched', h⟩ := (@readNFiles_iff [] ok fs fuel sched hv hf hn).mpr hread
    refine ⟨sched', ?_⟩
    show (readNFilesAnswer fuel _ >>= fun r => Except.ok (Received.files r.1.1 r.1.2, r.2)) = _
    rw [Reply.bytes, h]
    rfl

end

end FileStorage.Service

import FileStorage.Configuration.Format

/-!
# Reading the lines of a configuration file

The reads of a file are the reads of its lines, one after the other
(`chunksOf_fileText`). The first read of a line with a key has the key and one
word more, `Entry.word`: the value where it is marked, the value with the newline
or a cut value otherwise (`start_words`). From these, `decisive_start` and
`decisive_none` connect the last read that names a key with its last line.
-/

namespace FileStorage.Configuration

open FileStorage.Lib

/-! ## The text of a line -/

theorem text_word (k : Key) : Word space k.text := by
  rcases k with (_ | _ | _) | (_ | _) <;> exact ⟨by decide, by decide, by decide⟩

theorem length_text (k : Key) : k.text.length ≤ 8 ∧ newline ∉ k.text := by
  rcases k with (_ | _ | _) | (_ | _) <;> exact ⟨by decide, by decide⟩

/-- A blank is not in a value. -/
theorem ValueWord.not_mem {w : Bytes} (h : ValueWord w) {c : UInt8} (hc : isSpace c = true) :
    c ∉ w := by
  intro hmem
  rw [h.no_space c hmem] at hc
  cases hc

theorem Entry.isLine (e : Entry) : IsLine e.text := by
  have hkey := (length_text e.key).2
  have hvalue : newline ∉ e.value := e.value_word.not_mem rfl
  have hspace : newline ≠ space := by decide
  have hhash : newline ≠ hash := by decide
  unfold Entry.text Entry.tail
  cases hc : e.comment with
  | none =>
    refine ⟨e.key.text ++ space :: e.value, ?_, by simp⟩
    simp [hkey, hvalue, hspace]
  | some c =>
    have hcomment := (e.comment_text c hc).1
    refine ⟨e.key.text ++ space :: (e.value ++ space :: hash :: c), ?_, by simp⟩
    simp [hkey, hvalue, hspace, hhash, hcomment]

theorem Entry.no_nul (e : Entry) : 0 ∉ e.text := by
  have hkey := (text_word e.key).no_nul
  have hvalue := e.value_word.no_nul
  have hspace : (0 : UInt8) ≠ space := by decide
  have hhash : (0 : UInt8) ≠ hash := by decide
  have hnewline : (0 : UInt8) ≠ newline := by decide
  unfold Entry.text Entry.tail
  cases hc : e.comment with
  | none => simp [hkey, hvalue, hspace, hnewline]
  | some c =>
    have hcomment := (e.comment_text c hc).2
    simp [hkey, hvalue, hspace, hhash, hnewline, hcomment]

theorem Line.isLine (l : Line) : IsLine l.text := by
  cases l with
  | empty => exact ⟨[], by simp, rfl⟩
  | entry e => exact e.isLine

theorem Line.pieces_text (l : Line) :
    pieces (BUF_SIZE - 1) l.text = l.chunks.map Chunk.text := by
  cases l with
  | empty => rfl
  | entry e =>
    show pieces (BUF_SIZE - 1) e.text = _
    rw [pieces_line (by decide) e.isLine]
    simp [Line.chunks, Chunk.text, Function.comp_def]

/-- The reads of a file are those of its lines. -/
theorem chunksOf_fileText (lines : List Line) :
    chunksOf (fileText lines) = (lines.flatMap Line.chunks).map Chunk.text := by
  unfold chunksOf fileText
  have hlines : ∀ t ∈ lines.map Line.text, IsLine t := by
    intro t ht
    obtain ⟨l, -, rfl⟩ := List.mem_map.mp ht
    exact l.isLine
  rw [List.flatMap_def, pieces_lines (by decide) hlines, List.flatMap_map, List.map_flatMap]
  exact List.flatMap_congr fun l _ => l.pieces_text

/-! ## The first chunk of a line -/

/-- The word behind the key in the first chunk of a line. -/
def Entry.word (e : Entry) : Bytes :=
  if e.Marked then e.value
  else if e.value.length < e.room then e.value ++ [newline]
  else e.value.take e.room

/-- The word is the value, has the newline, or is cut. -/
theorem Entry.word_cases (e : Entry) :
    (e.Marked ∧ e.word = e.value) ∨
      (¬ e.Marked ∧ e.value.length < e.room ∧ e.word = e.value ++ [newline]) ∨
      (¬ e.Marked ∧ e.room < e.value.length ∧ e.word = e.value.take e.room) := by
  unfold Entry.word
  by_cases hm : e.Marked
  · exact .inl ⟨hm, if_pos hm⟩
  · by_cases hlt : e.value.length < e.room
    · exact .inr (.inl ⟨hm, hlt, by rw [if_neg hm, if_pos hlt]⟩)
    · have hne : e.value.length ≠ e.room := fun heq => hm (.inl heq)
      exact .inr (.inr ⟨hm, by omega, by rw [if_neg hm, if_neg hlt]⟩)

/-- The first chunk has the key, and what room there is for the rest. -/
theorem start_text (e : Entry) :
    (Chunk.start e).text = e.key.text ++ space :: (e.value ++ e.tail).take e.room := by
  have hlen := (length_text e.key).1
  have hroom : BUF_SIZE - 1 - e.key.text.length = e.room + 1 := by
    unfold Entry.room BUF_SIZE
    omega
  show (e.key.text ++ space :: (e.value ++ e.tail)).take (BUF_SIZE - 1) = _
  rw [List.take_append, hroom, List.take_succ_cons, List.take_of_length_le]
  exact Nat.le_trans hlen (by decide)

theorem strtok_start (e : Entry) :
    strtok space (cstr (Chunk.start e).text) =
      (some e.key.text, (e.value ++ e.tail).take e.room) := by
  have hnul : ∀ c ∈ (Chunk.start e).text, (c != 0) = true := by
    intro c hc
    have hne : c ≠ 0 := fun he => e.no_nul (he ▸ List.mem_of_mem_take hc)
    simpa using hne
  have hcstr : cstr (Chunk.start e).text = (Chunk.start e).text :=
    List.takeWhile_eq_self_iff.mpr hnul
  rw [hcstr, start_text]
  exact strtok_append (text_word e.key).ne_nil (text_word e.key).no_delim _

theorem room_pos (e : Entry) : 0 < e.room := by
  have := (length_text e.key).1
  unfold Entry.room BUF_SIZE
  omega

/-- The second word of the first chunk. -/
theorem strtok_value (e : Entry) :
    (strtok space ((e.value ++ e.tail).take e.room)).1 = some e.word := by
  have hspace : space ∉ e.value := e.value_word.not_mem rfl
  have hpos := room_pos e
  have hne := e.value_word.ne_nil
  rcases e.word_cases with ⟨hm, hword⟩ | ⟨hm, hlt, hword⟩ | ⟨hm, hlt, hword⟩
  · rcases hm with heq | ⟨hlt, hc⟩
    · rw [List.take_append_of_le_length (Nat.le_of_eq heq.symm),
        List.take_of_length_le (Nat.le_of_eq heq), strtok_word hne hspace, hword]
    · -- the space in front of the comment ends the word
      obtain ⟨c, hc⟩ := Option.ne_none_iff_exists'.mp hc
      have htail : e.tail = space :: hash :: (c ++ [newline]) := by
        unfold Entry.tail
        rw [hc]
      obtain ⟨m, hroom⟩ : ∃ m, e.room - e.value.length = m + 1 :=
        ⟨e.room - e.value.length - 1, by omega⟩
      rw [List.take_append, List.take_of_length_le (Nat.le_of_lt hlt), htail, hroom,
        List.take_succ_cons, strtok_append hne hspace, hword]
  · have hcomment : e.comment = none := by
      by_contra hc
      exact hm (.inr ⟨hlt, hc⟩)
    have htail : e.tail = [newline] := by
      unfold Entry.tail
      rw [hcomment]
    have hwordspace : space ∉ e.value ++ [newline] := by
      simp [hspace, show space ≠ newline by decide]
    rw [htail, List.take_of_length_le (by simp; omega), strtok_word (by simp) hwordspace, hword]
  · have hcut : e.value.take e.room ≠ [] := by
      intro hnil
      have hlen := congrArg List.length hnil
      rw [List.length_take, List.length_nil] at hlen
      omega
    have hcutspace : space ∉ e.value.take e.room := fun h => hspace (List.mem_of_mem_take h)
    rw [List.take_append_of_le_length (Nat.le_of_lt hlt), strtok_word hcut hcutspace, hword]

/-- The first chunk of a line with a key names it, and has the one word more. -/
theorem start_words (e : Entry) :
    chunkKey (Chunk.start e).text = some e.key ∧
      chunkValue (Chunk.start e).text = some e.word := by
  unfold chunkKey chunkValue
  rw [strtok_start, strtok_value]
  exact ⟨keyOf_eq_some.mpr (List.prefix_refl _), rfl⟩

theorem start_hasWords (e : Entry) : HasWords (Chunk.start e).text := by
  refine ⟨?_, fun k _ => ?_⟩
  · rw [strtok_start]
    exact Option.some_ne_none _
  · rw [(start_words e).2]
    exact Option.some_ne_none _

/-- A name is read as it stands in a marked line only. -/
theorem nameOf_word (e : Entry) (k : NameKey) : nameOf k (some e.word) = e.value ↔ e.Marked := by
  have hne := e.value_word.ne_nil
  -- the word begins like the value, so it is no comment
  have hname : nameOf k (some e.word) = e.word := by
    obtain ⟨c, w, hcw⟩ := List.exists_cons_of_ne_nil hne
    have hc : c ≠ hash := by
      intro he
      exact e.value_word.no_comment (by rw [hcw, he]; rfl)
    obtain ⟨m, hm⟩ : ∃ m, e.room = m + 1 := ⟨e.room - 1, by have := room_pos e; omega⟩
    have hhead : ∃ v, e.word = c :: v := by
      rcases e.word_cases with ⟨-, hword⟩ | ⟨-, -, hword⟩ | ⟨-, -, hword⟩
      · exact ⟨w, by rw [hword, hcw]⟩
      · exact ⟨w ++ [newline], by rw [hword, hcw]; rfl⟩
      · exact ⟨w.take m, by rw [hword, hcw, hm, List.take_succ_cons]⟩
    obtain ⟨v, hv⟩ := hhead
    unfold nameOf
    rw [hv]
    dsimp only
    rw [if_neg]
    simpa [strncmpEq] using hc
  rw [hname]
  rcases e.word_cases with ⟨hm, hword⟩ | ⟨hm, -, hword⟩ | ⟨hm, hlt, hword⟩
  · exact ⟨fun _ => hm, fun _ => hword⟩
  · rw [hword]
    exact ⟨fun h => absurd h (by simp), fun h => absurd h hm⟩
  · rw [hword]
    refine ⟨fun h => absurd (congrArg List.length h) ?_, fun h => absurd h hm⟩
    rw [List.length_take]
    omega

/-- What a numeric key gets from a line. -/
theorem fieldOf_entry {e : Entry} {k : NumKey} {n : Int}
    (h : demandedNumber k (some e.value) = some n) :
    fieldOf k e.word = n ↔ (e.Marked ∨ e.GivesUnmarked k n) := by
  obtain ⟨hlow, hhigh⟩ := demandedNumber_range h
  have hread : ∀ w : Bytes, fieldOf k w = n ↔ GivesNumber k n (some w) :=
    fun w => fieldOf_eq_iff (some w) hlow hhigh
  unfold Entry.GivesUnmarked
  rcases e.word_cases with ⟨hm, hword⟩ | ⟨hm, hlt, hword⟩ | ⟨hm, hlt, hword⟩
  · rw [hword, hread]
    exact ⟨fun _ => .inl hm, fun _ => givesNumber_word e.value_word h⟩
  · rw [hword, fieldOf_newline, if_pos hlt]
    exact ⟨fun he => .inr he.symm, fun he => (he.resolve_left hm).symm⟩
  · rw [hword, hread, if_neg (Nat.not_lt.mpr (Nat.le_of_lt hlt))]
    exact ⟨.inr, fun he => he.resolve_left hm⟩

/-! ## The last line of a key -/

variable {k : Key} {lines : List Line}

/-- The last read of a line that names a key. -/
def Line.decisive (k : Key) (l : Line) : Option Chunk :=
  (l.chunks.filter fun c => chunkKey c.text = some k).getLast?

theorem decisive_cons (l : Line) :
    decisive k (l :: lines) = (decisive k lines).or (l.decisive k) := by
  unfold decisive Line.decisive
  rw [List.flatMap_cons, List.filter_append, List.getLast?_append]

theorem lastValue_cons (l : Line) :
    lastValue k (l :: lines) = (lastValue k lines).or (l.valueOf k) := by
  unfold lastValue
  cases h : l.valueOf k with
  | none => rw [List.filterMap_cons_none h, Option.or_none]
  | some v => rw [List.filterMap_cons_some h, List.getLast?_cons]; cases (List.filterMap _ lines).getLast? <;> rfl

/-- What a key's last line gives it is one word, and no comment. -/
theorem lastValue_word {v : Bytes} (h : lastValue k lines = some v) : ValueWord v := by
  obtain ⟨l, -, hl⟩ := List.mem_filterMap.mp (List.mem_of_getLast? h)
  cases l with
  | empty => cases hl
  | entry e =>
    obtain ⟨-, hv⟩ := Option.ite_none_right_eq_some.mp hl
    cases hv
    exact e.value_word

/-- A line that gives a key a value has a read that names the key. -/
theorem Line.decisive_none {l : Line} (h : l.decisive k = none) : l.valueOf k = none := by
  cases l with
  | empty => rfl
  | entry e =>
    refine if_neg fun hk => ?_
    have hnil := List.getLast?_eq_none_iff.mp h
    have hmem : Chunk.start e ∈ (Line.entry e).chunks := List.mem_cons_self
    have hstart := List.filter_eq_nil_iff.mp hnil _ hmem
    exact hstart (by simp [(start_words e).1, hk])

theorem Line.decisive_start {l : Line} {e : Entry} (h : l.decisive k = some (.start e)) :
    l.valueOf k = some e.value := by
  have hmem := List.mem_filter.mp (List.mem_of_getLast? h)
  have hkey : e.key = k := by
    have hnames : chunkKey (Chunk.start e).text = some k := by simpa using hmem.2
    rw [(start_words e).1] at hnames
    exact Option.some.inj hnames
  cases l with
  | empty => simp [Line.chunks] at hmem
  | entry f =>
    have hef : e = f := by simpa [Line.chunks] using hmem.1
    subst hef
    exact if_pos hkey

theorem decisive_none (h : decisive k lines = none) : lastValue k lines = none := by
  induction lines with
  | nil => rfl
  | cons l lines ih =>
    rw [decisive_cons] at h
    obtain ⟨hlines, hl⟩ := Option.or_eq_none_iff.mp h
    rw [lastValue_cons, ih hlines, Line.decisive_none hl]
    rfl

/-- Where the last read that names a key starts a line, this is the key's last
line. -/
theorem decisive_start {e : Entry} (h : decisive k lines = some (.start e)) :
    lastValue k lines = some e.value := by
  induction lines with
  | nil => cases h
  | cons l lines ih =>
    rw [decisive_cons] at h
    rw [lastValue_cons]
    cases hlines : decisive k lines with
    | none =>
      rw [hlines] at h
      rw [decisive_none hlines, Line.decisive_start h]
      rfl
    | some c =>
      rw [hlines] at h
      cases h
      rw [ih hlines]
      rfl

/-- The last chunk of the text that names a key is the text of the last read. -/
theorem lastChunk_fileText : lastChunk k (chunksOf (fileText lines)) =
    (decisive k lines).map Chunk.text := by
  unfold lastChunk decisive
  rw [chunksOf_fileText, List.filter_map, List.getLast?_map]
  rfl

/-! ## What is read from a file -/

/-- `configuration` returns if the later chunks of long lines have their words. -/
theorem returns_fileText :
    (∃ cfg, configuration (fileText lines) = .ok cfg) ↔
      ∀ p, Chunk.other p ∈ lines.flatMap Line.chunks → HasWords p := by
  rw [configuration_returns, chunksOf_fileText, List.forall_mem_map]
  constructor
  · exact fun h p hp => h _ hp
  · intro h c hc
    cases c with
    | start e => exact start_hasWords e
    | other p => exact h p hc

/-- A numeric field is right if the last read that names it serves it. -/
theorem number_right (k : NumKey) :
    (∀ n, demandedNumber k (lastValue (.number k) lines) = some n →
        numberField k (lastChunk (.number k) (chunksOf (fileText lines))) = n) ↔
      ∀ c, decisive (.number k) lines = some c → Serves lines (.number k) c := by
  rw [lastChunk_fileText]
  cases hd : decisive (.number k) lines with
  | none =>
    rw [decisive_none hd]
    refine ⟨fun _ c hc => (by cases hc), fun _ n hn => ?_⟩
    exact Option.some.inj hn
  | some c =>
    simp only [Option.some.injEq, forall_eq']
    cases c with
    | other p =>
      refine forall_congr' fun n => imp_congr_right fun hn => ?_
      obtain ⟨hlow, hhigh⟩ := demandedNumber_range hn
      exact fieldOf_eq_iff (chunkValue p) hlow hhigh
    | start e =>
      have hserves : Serves lines (.number k) (.start e) ↔
          ∀ n, demandedNumber k (some e.value) = some n → e.Marked ∨ e.GivesUnmarked k n := by
        unfold Serves
        by_cases hm : e.Marked
        · simp [hm]
        · simp [hm]
      rw [decisive_start hd, hserves]
      refine forall_congr' fun n => imp_congr_right fun hn => ?_
      refine Iff.trans ?_ (fieldOf_entry hn)
      show fieldOf k ((chunkValue (Chunk.start e).text).getD []) = n ↔ _
      rw [(start_words e).2]
      rfl

/-- A name is right if the last read that names it serves it. -/
theorem name_right (k : NameKey) :
    nameField k (lastChunk (.name k) (chunksOf (fileText lines))) =
        (lastValue (.name k) lines).getD k.default ↔
      ∀ c, decisive (.name k) lines = some c → Serves lines (.name k) c := by
  rw [lastChunk_fileText]
  cases hd : decisive (.name k) lines with
  | none =>
    rw [decisive_none hd]
    exact ⟨fun _ c hc => (by cases hc), fun _ => rfl⟩
  | some c =>
    simp only [Option.some.injEq, forall_eq']
    cases c with
    | other p =>
      have hhead : ((lastValue (.name k) lines).getD k.default).head? ≠ some hash := by
        cases hv : lastValue (.name k) lines with
        | none => cases k <;> decide
        | some v => exact (lastValue_word hv).no_comment
      exact nameOf_eq_iff hhead
    | start e =>
      rw [decisive_start hd]
      refine Iff.trans ?_ (nameOf_word e k)
      show nameOf k (chunkValue (Chunk.start e).text) = e.value ↔ _
      rw [(start_words e).2]

/-- A file is read as it is meant exactly if the later chunks of its long lines
have their words and the last chunk that names a key serves it. -/
theorem configuration_reads_iff (lines : List Line) :
    (∃ cfg, configuration (fileText lines) = .ok cfg ∧ Holds lines cfg) ↔
      (∀ p, Chunk.other p ∈ lines.flatMap Line.chunks → HasWords p) ∧
        ∀ k c, decisive k lines = some c → Serves lines k c := by
  constructor
  · rintro ⟨cfg, hcfg, hholds⟩
    obtain ⟨hnumber, hname⟩ := configuration_fields hcfg
    refine ⟨returns_fileText.mp ⟨cfg, hcfg⟩, fun k => ?_⟩
    cases k with
    | number k =>
      refine (number_right k).mp fun n hn => ?_
      rw [← hnumber k]
      exact hholds.number k n hn
    | name k =>
      refine (name_right k).mp (Option.some.inj ?_)
      rw [← hname k]
      exact hholds.name k
  · rintro ⟨hwords, hserves⟩
    obtain ⟨cfg, hcfg⟩ := returns_fileText.mpr hwords
    obtain ⟨hnumber, hname⟩ := configuration_fields hcfg
    refine ⟨cfg, hcfg, fun k n hn => ?_, fun k => ?_⟩
    · rw [hnumber k]
      exact (number_right k).mpr (hserves (.number k)) n hn
    · rw [hname k]
      exact congrArg some ((name_right k).mpr (hserves (.name k)))

/-- The line `N_THREAD 4`, without a comment. -/
def fourThreads : Line :=
  .entry ⟨.number .nThread, [52], none,
    ⟨by decide, List.forall_mem_singleton.mpr rfl, by decide, by decide⟩, by simp⟩

/-- It starts one thread: its newline is part of the number. -/
theorem configuration_unmarked :
    ¬ ∀ lines : List Line, ∃ cfg, configuration (fileText lines) = .ok cfg ∧ Holds lines cfg := by
  intro h
  obtain ⟨cfg, hcfg, hholds⟩ := h [fourThreads]
  have hread := (configuration_fields hcfg).1 .nThread
  have hdefault : numberField .nThread
      (lastChunk (.number .nThread) (chunksOf (fileText [fourThreads]))) = 1 := by
    decide +kernel
  have hfour := hholds.number .nThread 4 rfl
  rw [hread, hdefault] at hfour
  cases hfour

end FileStorage.Configuration

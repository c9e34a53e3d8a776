import FileStorage.Lib.Text

/-!
# Reading a text line by line into a bounded buffer

`fgets` reads up to a newline, and no more than its buffer takes, so a long line
comes in several pieces. `pieces` is what the loop around it sees of a text.

A line is a text with a newline at its end and nowhere else (`IsLine`). The
pieces of a text made of lines are the pieces of the lines (`pieces_lines`), and
the first piece of a line is its front (`pieces_line`).
-/

namespace FileStorage.Lib

/-- `"\n"`. -/
def newline : UInt8 := 10

/-- What `fgets` reads into a buffer of `k + 1` bytes. -/
def fgets (k : Nat) (s : Bytes) : Bytes :=
  (s.takeWhile (· != newline) ++ (s.dropWhile (· != newline)).take 1).take k

/-- The reads of a text, of which there are no more than it has bytes. -/
def piecesUpTo (k : Nat) : Nat → Bytes → List Bytes
  | 0, _ => []
  | fuel + 1, s =>
    if s = [] then []
    else fgets k s :: piecesUpTo k fuel (s.drop (fgets k s).length)

/-- `while (fgets(buffer, k + 1, f) != NULL)`. -/
def pieces (k : Nat) (s : Bytes) : List Bytes := piecesUpTo k s.length s

/-- A newline at the end and nowhere else. -/
def IsLine (s : Bytes) : Prop := ∃ w, newline ∉ w ∧ s = w ++ [newline]

variable {k : Nat} {s t : Bytes}

/-- A text that is left over is read. -/
theorem length_fgets_pos (hk : 0 < k) (hs : s ≠ []) : 0 < (fgets k s).length := by
  unfold fgets
  rw [List.length_take, Nat.lt_min]
  refine ⟨hk, ?_⟩
  cases s with
  | nil => exact absurd rfl hs
  | cons c s =>
    by_cases hc : (c != newline) = true
    · simp [hc]
    · simp [hc]

/-- More fuel than there are bytes reads nothing more. -/
theorem piecesUpTo_eq (hk : 0 < k) {fuel : Nat} (h : s.length ≤ fuel) :
    piecesUpTo k fuel s = pieces k s := by
  unfold pieces
  induction fuel using Nat.strongRecOn generalizing s with
  | ind fuel ih =>
    cases s with
    | nil => cases fuel <;> rfl
    | cons c s =>
      obtain ⟨f, rfl⟩ : ∃ f, fuel = f + 1 := ⟨fuel - 1, by simp at h; omega⟩
      have hpos := length_fgets_pos hk (List.cons_ne_nil c s)
      have hdrop : ((c :: s).drop (fgets k (c :: s)).length).length ≤ s.length := by
        rw [List.length_drop, List.length_cons]
        omega
      have hf : s.length ≤ f := by simpa using h
      have hleft := ih f (Nat.lt_succ_self f) (Nat.le_trans hdrop hf)
      show piecesUpTo k (f + 1) (c :: s) = piecesUpTo k (s.length + 1) (c :: s)
      simp only [piecesUpTo, if_neg (List.cons_ne_nil c s)]
      rw [hleft]
      rcases Nat.eq_or_lt_of_le hf with heq | hlt
      · rw [heq, hleft]
      · rw [ih s.length (by omega) hdrop]

/-- One read, and the rest of the text. -/
theorem pieces_cons (hk : 0 < k) (hs : s ≠ []) :
    pieces k s = fgets k s :: pieces k (s.drop (fgets k s).length) := by
  have hpos := length_fgets_pos hk hs
  have hlen : 0 < s.length := List.length_pos_iff.mpr hs
  obtain ⟨n, hn⟩ : ∃ n, s.length = n + 1 := ⟨s.length - 1, by omega⟩
  have hdrop : (s.drop (fgets k s).length).length ≤ n := by
    rw [List.length_drop]
    omega
  show piecesUpTo k s.length s = _
  rw [hn]
  unfold piecesUpTo
  rw [if_neg hs, piecesUpTo_eq hk hdrop]

theorem IsLine.ne_nil (h : IsLine s) : s ≠ [] := by
  obtain ⟨w, -, rfl⟩ := h
  simp

/-- What is left of a line is a line. -/
theorem IsLine.drop (h : IsLine s) {n : Nat} (hn : n < s.length) : IsLine (s.drop n) := by
  obtain ⟨w, hw, rfl⟩ := h
  have hle : n ≤ w.length := by simpa [Nat.lt_succ_iff] using hn
  refine ⟨w.drop n, fun hin => hw (List.mem_of_mem_drop hin), ?_⟩
  rw [List.drop_append_of_le_length hle]

/-- In front of a text, `fgets` reads from the line only. -/
theorem fgets_line (h : IsLine s) : fgets k (s ++ t) = s.take k := by
  obtain ⟨w, hw, rfl⟩ := h
  have hall : ∀ c ∈ w, (c != newline) = true := by
    intro c hc
    have hne : c ≠ newline := fun he => hw (he ▸ hc)
    simpa using hne
  unfold fgets
  rw [List.append_assoc, List.takeWhile_append_of_pos hall, List.dropWhile_append_of_pos hall]
  simp

/-- The first read of a line is its front. -/
theorem pieces_line (hk : 0 < k) (h : IsLine s) :
    pieces k s = s.take k :: pieces k (s.drop k) := by
  have hfront : fgets k s = s.take k := by
    have happ := @fgets_line k s [] h
    rwa [List.append_nil] at happ
  rw [pieces_cons hk h.ne_nil, hfront, List.length_take]
  rcases Nat.le_total k s.length with hle | hle
  · rw [Nat.min_eq_left hle]
  · rw [Nat.min_eq_right hle, List.drop_of_length_le hle, List.drop_length]

theorem pieces_nil : pieces k [] = [] := rfl

/-- A line in front of a text is read before it. -/
theorem pieces_append (hk : 0 < k) (h : IsLine s) : pieces k (s ++ t) = pieces k s ++ pieces k t := by
  obtain ⟨n, hn⟩ : ∃ n, s.length ≤ n := ⟨_, Nat.le_refl _⟩
  induction n generalizing s with
  | zero => exact absurd (List.length_eq_zero_iff.mp (Nat.le_zero.mp hn)) h.ne_nil
  | succ n ih =>
    have hne : s ++ t ≠ [] := by
      have := h.ne_nil
      simp [this]
    rw [pieces_cons hk hne, fgets_line h, pieces_line hk h, List.cons_append]
    refine congrArg (s.take k :: ·) ?_
    rw [List.length_take]
    rcases Nat.lt_or_ge k s.length with hlt | hge
    · rw [Nat.min_eq_left (Nat.le_of_lt hlt), List.drop_append_of_le_length (Nat.le_of_lt hlt)]
      refine ih (h.drop hlt) ?_
      rw [List.length_drop]
      omega
    · rw [Nat.min_eq_right hge, List.drop_left, List.drop_of_length_le hge, pieces_nil,
        List.nil_append]

/-- A text made of lines is read line by line. -/
theorem pieces_lines (hk : 0 < k) {ls : List Bytes} (h : ∀ l ∈ ls, IsLine l) :
    pieces k ls.flatten = ls.flatMap (pieces k) := by
  induction ls with
  | nil => rfl
  | cons l ls ih =>
    rw [List.flatten_cons, pieces_append hk (h l List.mem_cons_self),
      ih fun m hm => h m (List.mem_cons_of_mem l hm), List.flatMap_cons]

end FileStorage.Lib

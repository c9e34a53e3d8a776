import Mathlib.Data.List.Nodup
import Mathlib.Data.List.Basic
import Mathlib.Order.Basic

/-!
# Two-way linked chains

A collection of cells is linked through two partial maps, `son` (towards the
last cell) and `father` (towards the head), and reached from two end pointers.
`Linked son father head last l` says that the cells are exactly the list `l`,
read from `head` to `last`, with both directions agreeing. The cells are of any
type and the maps are arbitrary functions, so a heap of records, an array of
indices or a pure map can all be read as a chain.

The rules are stated against *changed* maps `son'`/`father'` that are only
described on the cells of the list. A program that writes one pointer supplies
those descriptions by computation:

* `Linked.push` puts a fresh cell in front of the head;
* `Linked.dropLast` and `Linked.dropHead` take a cell off an end;
* `Linked.son_eq`/`father_eq` read the neighbours of a cell off the list;
* `Linked.follow_eq`: the walk along `son` from `head` visits exactly `l`;
* `follow_next`: two cells that any walk visits in turn are linked.

There is deliberately no rule for taking out an inner cell.
-/

namespace FileStorage.Lib

variable {ι : Type} {son father son' father' : ι → Option ι}
variable {head last : Option ι} {l l₁ l₂ : List ι} {a b : ι}

/-- The cells of `l` are linked in order, with `p` in front of the first and
`q` behind the last. -/
def Chain (son father : ι → Option ι) : Option ι → List ι → Option ι → Prop
  | _, [], _ => True
  | p, a :: l, q => father a = p ∧ son a = l.head?.or q ∧ Chain son father (some a) l q

/-- A chain splits at any point; each half sees the other's end cell. -/
theorem chain_append {l₁ l₂ : List ι} {p q : Option ι} :
    Chain son father p (l₁ ++ l₂) q ↔
      Chain son father p l₁ (l₂.head?.or q) ∧ Chain son father (l₁.getLast?.or p) l₂ q := by
  induction l₁ generalizing p with
  | nil => simp [Chain]
  | cons a l₁ ih =>
    have hlast : (a :: l₁).getLast?.or p = l₁.getLast?.or (some a) := by
      cases h : l₁.getLast? with
      | none => rw [List.getLast?_eq_none_iff.mp h]; rfl
      | some b => rw [List.getLast?_cons, h]; rfl
    have hhead : (l₁ ++ l₂).head?.or q = l₁.head?.or (l₂.head?.or q) := by
      cases l₁ <;> rfl
    rw [List.cons_append, Chain, Chain, ih, hlast, hhead]
    tauto

/-- A chain only looks at its own cells. -/
theorem Chain.congr {l : List ι} {p q : Option ι} (hs : ∀ b ∈ l, son' b = son b)
    (hf : ∀ b ∈ l, father' b = father b) (h : Chain son father p l q) :
    Chain son' father' p l q := by
  induction l generalizing p with
  | nil => trivial
  | cons a l ih =>
    obtain ⟨h1, h2, h3⟩ := h
    refine ⟨?_, ?_, ih (fun b hb => hs b (List.mem_cons_of_mem _ hb))
      (fun b hb => hf b (List.mem_cons_of_mem _ hb)) h3⟩
    · rw [hf a (List.mem_cons_self ..)]; exact h1
    · rw [hs a (List.mem_cons_self ..)]; exact h2

/-- The cells reached from `head` and `last` are exactly `l`, in order. -/
structure Linked (son father : ι → Option ι) (head last : Option ι) (l : List ι) : Prop where
  nodup : l.Nodup
  head_eq : head = l.head?
  last_eq : last = l.getLast?
  chain : Chain son father none l none

theorem linked_nil : Linked son father none none [] :=
  ⟨List.nodup_nil, rfl, rfl, trivial⟩

/-! ## Reading the neighbours of a cell -/

theorem Linked.father_eq (h : Linked son father head last (l₁ ++ a :: l₂)) :
    father a = l₁.getLast? := by
  have hc := (chain_append.mp h.chain).2
  rw [Option.or_none] at hc
  exact hc.1

theorem Linked.son_eq (h : Linked son father head last (l₁ ++ a :: l₂)) :
    son a = l₂.head? := by
  have hc := (chain_append.mp h.chain).2
  rw [hc.2.1, Option.or_none]

/-- No cell is visited again. -/
theorem Linked.not_mem (h : Linked son father head last (l₁ ++ a :: l₂)) : a ∉ l₁ ++ l₂ :=
  (List.nodup_cons.mp (List.nodup_middle.mp h.nodup)).1

/-- A neighbour of a cell is a cell. -/
theorem Linked.father_mem (h : Linked son father head last l) (ha : a ∈ l)
    (hb : father a = some b) : b ∈ l := by
  obtain ⟨l₁, l₂, rfl⟩ := List.append_of_mem ha
  rw [h.father_eq] at hb
  exact List.mem_append_left _ (List.mem_of_getLast? hb)

theorem Linked.son_mem (h : Linked son father head last l) (ha : a ∈ l)
    (hb : son a = some b) : b ∈ l := by
  obtain ⟨l₁, l₂, rfl⟩ := List.append_of_mem ha
  rw [h.son_eq] at hb
  exact List.mem_append_right _ (List.mem_cons_of_mem _ (List.mem_of_mem_head? hb))

theorem Linked.head_mem (h : Linked son father head last l) (ha : head = some a) : a ∈ l :=
  List.mem_of_mem_head? (h.head_eq ▸ ha)

theorem Linked.last_mem (h : Linked son father head last l) (ha : last = some a) : a ∈ l :=
  List.mem_of_getLast? (h.last_eq ▸ ha)

/-- The two directions are inverse to each other on the cells. -/
theorem Linked.inverse (h : Linked son father head last l) (ha : a ∈ l) (hb : b ∈ l) :
    son a = some b ↔ father b = some a := by
  constructor
  · intro hs
    obtain ⟨l₁, l₂, rfl⟩ := List.append_of_mem ha
    rw [h.son_eq] at hs
    obtain ⟨l₃, rfl⟩ : ∃ l₃, l₂ = b :: l₃ := by
      cases l₂ with
      | nil => exact absurd hs (by simp)
      | cons c l₃ => simp only [List.head?_cons, Option.some.injEq] at hs; exact ⟨l₃, hs ▸ rfl⟩
    have h' : Linked son father head last ((l₁ ++ [a]) ++ b :: l₃) := by simpa using h
    rw [h'.father_eq]
    simp
  · intro hf
    obtain ⟨l₁, l₂, rfl⟩ := List.append_of_mem hb
    rw [h.father_eq] at hf
    obtain ⟨l₀, rfl⟩ := List.getLast?_eq_some_iff.mp hf
    have h' : Linked son father head last (l₀ ++ a :: (b :: l₂)) := by simpa using h
    rw [h'.son_eq]
    simp

/-- Both neighbours missing means that the cell is the only one. -/
theorem Linked.only (h : Linked son father head last l) (ha : a ∈ l)
    (hs : son a = none) (hf : father a = none) : l = [a] := by
  obtain ⟨l₁, l₂, rfl⟩ := List.append_of_mem ha
  rw [h.son_eq] at hs
  rw [h.father_eq] at hf
  rw [List.getLast?_eq_none_iff.mp hf, List.head?_eq_none_iff.mp hs]
  rfl

/-! ## Reading backwards -/

theorem Chain.reverse {l : List ι} {p q : Option ι} (h : Chain son father p l q) :
    Chain father son q l.reverse p := by
  induction l generalizing p with
  | nil => trivial
  | cons a l ih =>
    obtain ⟨h1, h2, h3⟩ := h
    rw [List.reverse_cons, chain_append]
    refine ⟨?_, ?_, ?_, trivial⟩
    · exact ih h3
    · rw [h2, List.getLast?_reverse]
    · exact h1

/-- Swapping the directions reverses the list. -/
theorem Linked.reverse (h : Linked son father head last l) :
    Linked father son last head l.reverse :=
  ⟨List.nodup_reverse.mpr h.nodup, by rw [List.head?_reverse]; exact h.last_eq,
    by rw [List.getLast?_reverse]; exact h.head_eq, h.chain.reverse⟩

/-! ## Changing a chain -/

/-- Maps that agree on the cells link them the same way. -/
theorem Linked.congr (h : Linked son father head last l)
    (hs : ∀ b ∈ l, son' b = son b) (hf : ∀ b ∈ l, father' b = father b) :
    Linked son' father' head last l :=
  ⟨h.nodup, h.head_eq, h.last_eq, h.chain.congr hs hf⟩

/-- A fresh cell is put in front of the head. -/
theorem Linked.push [DecidableEq ι] (h : Linked son father head last l) (ha : a ∉ l)
    (hsa : son' a = head) (hfa : father' a = none)
    (hs : ∀ b ∈ l, son' b = son b)
    (hf : ∀ b ∈ l, father' b = if head = some b then some a else father b) :
    Linked son' father' (some a) (some (last.getD a)) (a :: l) := by
  refine ⟨List.nodup_cons.mpr ⟨ha, h.nodup⟩, rfl, ?_, hfa, ?_, ?_⟩
  · rw [h.last_eq, List.getLast?_cons]
  · rw [hsa, h.head_eq, Option.or_none]
  · cases l with
    | nil => trivial
    | cons b l =>
      have hhead : head = some b := h.head_eq
      obtain ⟨-, h2, h3⟩ := h.chain
      have hb : b ∉ l := (List.nodup_cons.mp h.nodup).1
      refine ⟨?_, ?_, h3.congr (fun c hc => hs c (List.mem_cons_of_mem _ hc)) fun c hc => ?_⟩
      · rw [hf b (List.mem_cons_self ..), if_pos hhead]
      · rw [hs b (List.mem_cons_self ..)]; exact h2
      · have hne : head ≠ some c := by
          rw [hhead]
          intro e
          exact hb (Option.some.inj e ▸ hc)
        rw [hf c (List.mem_cons_of_mem _ hc), if_neg hne]

/-- The last cell is taken off. -/
theorem Linked.dropLast [DecidableEq ι] (h : Linked son father head last (l ++ [a]))
    (hs : ∀ b ∈ l, son' b = if father a = some b then none else son b)
    (hf : ∀ b ∈ l, father' b = father b) :
    Linked son' father' l.head? (father a) l := by
  have hfa : father a = l.getLast? := h.father_eq
  refine ⟨(List.nodup_append.mp h.nodup).1, rfl, hfa, ?_⟩
  rcases List.eq_nil_or_concat' l with rfl | ⟨l₀, b, rfl⟩
  · trivial
  · have hlast : father a = some b := by rw [hfa]; simp
    have hc := (chain_append.mp h.chain).1
    rw [chain_append] at hc ⊢
    have hnd := (List.nodup_append.mp h.nodup).1
    refine ⟨hc.1.congr (fun c hc' => ?_) (fun c hc' => hf c (List.mem_append_left _ hc')),
      ?_, ?_, trivial⟩
    · have hne : father a ≠ some c := by
        rw [hlast]
        intro e
        have hcb : b = c := Option.some.inj e
        exact (List.nodup_append.mp hnd).2.2 c hc' b (by simp) hcb.symm
      rw [hs c (List.mem_append_left _ hc'), if_neg hne]
    · rw [hf b (by simp)]; exact hc.2.1
    · rw [hs b (by simp), if_pos hlast]; rfl

/-- The head cell is taken off. -/
theorem Linked.dropHead [DecidableEq ι] (h : Linked son father head last (a :: l))
    (hs : ∀ b ∈ l, son' b = son b)
    (hf : ∀ b ∈ l, father' b = if son a = some b then none else father b) :
    Linked son' father' (son a) l.getLast? l := by
  have hsa : son a = l.head? := (show Linked son father head last ([] ++ a :: l) from h).son_eq
  refine ⟨(List.nodup_cons.mp h.nodup).2, hsa, rfl, ?_⟩
  cases l with
  | nil => trivial
  | cons b l =>
    have hhead : son a = some b := hsa
    obtain ⟨-, -, -, h2, h3⟩ := h.chain
    have hb : b ∉ l := (List.nodup_cons.mp (List.nodup_cons.mp h.nodup).2).1
    refine ⟨?_, ?_, h3.congr (fun c hc => hs c (List.mem_cons_of_mem _ hc)) fun c hc => ?_⟩
    · rw [hf b (List.mem_cons_self ..), if_pos hhead]
    · rw [hs b (List.mem_cons_self ..)]; exact h2
    · have hne : son a ≠ some c := by
        rw [hhead]
        intro e
        exact hb (Option.some.inj e ▸ hc)
      rw [hf c (List.mem_cons_of_mem _ hc), if_neg hne]

/-! ## Walking a chain -/

/-- The cells met by at most `k` steps of `next` from `h`. -/
def follow (next : ι → Option ι) : Nat → Option ι → List ι
  | 0, _ => []
  | _ + 1, none => []
  | k + 1, some a => a :: follow next k (next a)

theorem length_follow_le {next : ι → Option ι} : ∀ {k : Nat} {p : Option ι},
    (follow next k p).length ≤ k
  | 0, _ => Nat.le_refl 0
  | _ + 1, none => Nat.zero_le _
  | _ + 1, some _ => Nat.succ_le_succ length_follow_le

/-- A walk that only goes down stays below where it starts. -/
theorem follow_below [Preorder ι] {next : ι → Option ι} (hdesc : ∀ a b, next a = some b → b < a)
    {k : Nat} {p : Option ι} (hp : ∀ b, p = some b → b < a) : ∀ b ∈ follow next k p, b < a := by
  induction k generalizing a p with
  | zero => intro b hb; cases hb
  | succ k ih =>
    intro b hb
    cases p with
    | none => cases hb
    | some c =>
      rcases List.mem_cons.mp hb with rfl | hb
      · exact hp b rfl
      · exact ih (fun d hd => lt_trans (hdesc c d hd) (hp c rfl)) b hb

/-- A walk that only goes down does not meet a cell twice. -/
theorem follow_nodup [Preorder ι] {next : ι → Option ι} (hdesc : ∀ a b, next a = some b → b < a)
    {k : Nat} {p : Option ι} : (follow next k p).Nodup := by
  induction k generalizing p with
  | zero => exact List.nodup_nil
  | succ k ih =>
    cases p with
    | none => exact List.nodup_nil
    | some a =>
      refine List.nodup_cons.mpr ⟨fun ha => ?_, ih⟩
      exact lt_irrefl a (follow_below hdesc (fun b hb => hdesc a b hb) a ha)

/-- A walk only depends on the links of the cells it meets. -/
theorem follow_congr {next next' : ι → Option ι} {k : Nat} {p : Option ι}
    (h : ∀ a ∈ follow next k p, next' a = next a) : follow next' k p = follow next k p := by
  induction k generalizing p with
  | zero => rfl
  | succ k ih =>
    cases p with
    | none => rfl
    | some a =>
      have ha : next' a = next a := h a List.mem_cons_self
      show a :: follow next' k (next' a) = a :: follow next k (next a)
      rw [ha, ih fun b hb => h b (List.mem_cons_of_mem a hb)]

/-- A walk goes from each cell to the next one. -/
theorem follow_next {next : ι → Option ι} {k : Nat} {p : Option ι}
    (h : follow next k p = l₁ ++ a :: b :: l₂) : next a = some b := by
  induction l₁ generalizing k p with
  | nil =>
    cases k with
    | zero => cases h
    | succ k =>
      cases p with
      | none => cases h
      | some c =>
        obtain ⟨rfl, htail⟩ := List.cons.inj h
        cases k with
        | zero => cases htail
        | succ k =>
          cases hc : next c with
          | none => rw [hc] at htail; cases htail
          | some d =>
            rw [hc] at htail
            rw [(List.cons.inj htail).1]
  | cons c l₁ ih =>
    cases k with
    | zero => cases h
    | succ k =>
      cases p with
      | none => cases h
      | some d => exact ih (List.cons.inj h).2

theorem Chain.follow_eq {l : List ι} {p : Option ι} {k : Nat} (hk : l.length ≤ k)
    (h : Chain son father p l none) : follow son k l.head? = l := by
  induction l generalizing p k with
  | nil => cases k <;> rfl
  | cons a l ih =>
    obtain ⟨k, rfl⟩ : ∃ j, k = j + 1 := ⟨k - 1, by simp at hk; omega⟩
    show a :: follow son k (son a) = a :: l
    rw [h.2.1, Option.or_none, ih (Nat.le_of_succ_le_succ hk) h.2.2]

/-- The walk from the head visits the cells in order, each once. -/
theorem Linked.follow_eq (h : Linked son father head last l) {k : Nat} (hk : l.length ≤ k) :
    follow son k head = l := by
  rw [h.head_eq]
  exact h.chain.follow_eq hk

end FileStorage.Lib

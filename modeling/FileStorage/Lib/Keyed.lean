import Mathlib.Algebra.BigOperators.Ring.List
import Mathlib.Algebra.Ring.Int.Defs
import Mathlib.Data.List.Infix
import Mathlib.Data.List.Nodup
import Mathlib.Logic.Function.Basic

/-!
# Lists of items with keys and weights

A list whose items have different keys is read and written by key: `lookup`
finds an item, `edit` rewrites the items under some keys and `without` takes
them out. `edit` and `without` keep the keys different.

When the items are kept behind identities, `l = ids.map f`, a write by key is a
write by identity (`edit_map`, `without_map`).

From a list of weighted items, taken in order, as few as will weigh `need` are
`fewest`: a front part (`fewest_prefix`), and the one that weighs enough and has
no shorter one that does (`fewest_unique`).

`writes` puts the values of a list under their keys in a map, one after the other.
A key that nothing is written under keeps its value (`writes_of_forall_ne`), and
under the others stands a value that was written there (`writes_of_mem`). Nothing
is lost exactly if what has one key has one value (`writes_all_iff`).
-/

namespace FileStorage.Lib

section

variable {α κ ι : Type} [BEq κ] [LawfulBEq κ] {key : α → κ} {k : κ} {ks : List κ} {g : α → α}
variable {l : List α} {a : α}

/-- The first item under a key. -/
def lookup (key : α → κ) (k : κ) (l : List α) : Option α := l.find? fun a => key a == k

/-- Rewrite the items under some keys. -/
def edit (key : α → κ) (ks : List κ) (g : α → α) (l : List α) : List α :=
  l.map fun a => if ks.contains (key a) then g a else a

/-- Take out the items under some keys. -/
def without (key : α → κ) (ks : List κ) (l : List α) : List α := l.filter fun a => !ks.contains (key a)

/-- Where the keys are different, an item is found under its own. -/
theorem lookup_of_mem (h : (l.map key).Nodup) (ha : a ∈ l) : lookup key (key a) l = some a := by
  unfold lookup
  cases hfind : l.find? fun b => key b == key a with
  | none =>
    have hnot := List.find?_eq_none.mp hfind a ha
    exact absurd (beq_self_eq_true _) hnot
  | some b =>
    have hb := List.find?_some hfind
    have hmem := List.mem_of_find?_eq_some hfind
    exact congrArg some (List.inj_on_of_nodup_map h hmem ha (beq_iff_eq.mp hb))

/-- Nothing is found exactly if no item has the key. -/
theorem lookup_eq_none : lookup key k l = none ↔ ∀ a ∈ l, key a ≠ k := by
  unfold lookup
  rw [List.find?_eq_none]
  exact forall₂_congr fun a _ => not_congr beq_iff_eq

/-! ## The keys stay different -/

omit [LawfulBEq κ] in
/-- A rewriting that keeps the key of each item keeps them all, in their order. -/
theorem map_key_edit (ks : List κ) (hg : ∀ a, key (g a) = key a) (l : List α) :
    (edit key ks g l).map key = l.map key := by
  unfold edit
  rw [List.map_map]
  refine List.map_congr_left fun a _ => ?_
  show key (if ks.contains (key a) then g a else a) = key a
  split
  · exact hg a
  · rfl

omit [LawfulBEq κ] in
/-- What is left stands in the same order. -/
theorem without_sublist (ks : List κ) (l : List α) : (without key ks l).Sublist l :=
  List.filter_sublist

omit [LawfulBEq κ] in
theorem without_nil (l : List α) : without key [] l = l := List.filter_eq_self.mpr fun _ _ => rfl

/-! ## Items behind identities -/

section

variable {ids V : List ι} {f : ι → α}

omit [BEq κ] [LawfulBEq κ] in
/-- Among the identities the key of one decides whether it is in `V`. -/
theorem key_mem_iff (h : ((ids.map f).map key).Nodup) (hV : ∀ i ∈ V, i ∈ ids) {i : ι} (hi : i ∈ ids) :
    key (f i) ∈ V.map (fun i => key (f i)) ↔ i ∈ V := by
  rw [List.map_map] at h
  constructor
  · intro hmem
    obtain ⟨j, hj, heq⟩ := List.mem_map.mp hmem
    rwa [← List.inj_on_of_nodup_map h (hV j hj) hi heq]
  · intro hmem
    exact List.mem_map.mpr ⟨i, hmem, rfl⟩

/-- Without the items behind some identities, those behind the others are left. -/
theorem without_map [DecidableEq ι] (h : ((ids.map f).map key).Nodup) (hV : ∀ i ∈ V, i ∈ ids) :
    without key (V.map fun i => key (f i)) (ids.map f) = (ids.filter (· ∉ V)).map f := by
  unfold without
  rw [List.filter_map]
  refine congrArg (List.map f) (List.filter_congr fun i hi => ?_)
  show (!(V.map fun i => key (f i)).contains (key (f i))) = decide (i ∉ V)
  rw [List.contains_eq_mem, decide_not, decide_eq_decide.mpr (key_mem_iff h hV hi)]

/-- Rewriting by key is rewriting behind the identities. -/
theorem edit_map [DecidableEq ι] (h : ((ids.map f).map key).Nodup) (hV : ∀ i ∈ V, i ∈ ids) :
    edit key (V.map fun i => key (f i)) g (ids.map f) =
      ids.map fun i => if i ∈ V then g (f i) else f i := by
  unfold edit
  rw [List.map_map]
  refine List.map_congr_left fun i hi => ?_
  show (if (V.map fun i => key (f i)).contains (key (f i)) then g (f i) else f i) = _
  have hiff := key_mem_iff h hV hi
  by_cases hmem : i ∈ V
  · rw [if_pos hmem, if_pos (List.contains_iff_mem.mpr (hiff.mpr hmem))]
  · rw [if_neg hmem, if_neg fun hk => hmem (hiff.mp (List.contains_iff_mem.mp hk))]

end

end

/-! ## As few as will do -/

section

variable {α β : Type} {w : α → Int} {need : Int} {l V : List α}

/-- The shortest front part that weighs `need`, or else the whole list. -/
def fewest (w : α → Int) : Int → List α → List α
  | _, [] => []
  | need, a :: l => if need ≤ 0 then [] else a :: fewest w (need - w a) l

/-- What is taken is a front part of the list. -/
theorem fewest_prefix (w : α → Int) (need : Int) (l : List α) : fewest w need l <+: l := by
  induction l generalizing need with
  | nil => exact List.nil_prefix
  | cons a l ih =>
    unfold fewest
    split
    · exact List.nil_prefix
    · exact List.cons_prefix_cons.mpr ⟨rfl, ih _⟩

/-- A front part that weighs enough, when no shorter one does, is `fewest`. -/
theorem fewest_unique (hfront : V <+: l) (henough : need ≤ (V.map w).sum)
    (hneeded : ∀ W, W <+: V → W ≠ V → (W.map w).sum < need) : fewest w need l = V := by
  induction l generalizing need V with
  | nil => exact (List.prefix_nil.mp hfront).symm
  | cons a l ih =>
    unfold fewest
    cases V with
    | nil =>
      exact if_pos henough
    | cons b V =>
      obtain ⟨rfl, hrest⟩ := List.cons_prefix_cons.mp hfront
      have hlack : (0 : Int) < need := hneeded [] List.nil_prefix (List.cons_ne_nil _ _).symm
      rw [if_neg (Int.not_le.mpr hlack)]
      rw [List.map_cons, List.sum_cons] at henough
      refine congrArg (b :: ·) (ih hrest (by omega) fun W hW hne => ?_)
      have hmore := hneeded (b :: W) (List.cons_prefix_cons.mpr ⟨rfl, hW⟩) (by simpa using hne)
      rw [List.map_cons, List.sum_cons] at hmore
      omega

/-- Only the weights of the items in the list count. -/
theorem fewest_congr {w' : α → Int} (h : ∀ a ∈ l, w a = w' a) :
    fewest w need l = fewest w' need l := by
  induction l generalizing need with
  | nil => rfl
  | cons a l ih =>
    simp only [fewest]
    rw [h a List.mem_cons_self, ih fun b hb => h b (List.mem_cons_of_mem _ hb)]

/-- Items behind others may be weighed there. -/
theorem fewest_map (f : β → α) (l : List β) :
    fewest w need (l.map f) = (fewest (fun b => w (f b)) need l).map f := by
  induction l generalizing need with
  | nil => rfl
  | cons b l ih =>
    rw [List.map_cons]
    simp only [fewest]
    split
    · rfl
    · rw [ih, List.map_cons]

end

/-! ## Writes under keys -/

section

variable {α κ β : Type} [DecidableEq κ] {key : α → κ} {val : α → β} {l : List α} {f : κ → β}
variable {k : κ}

/-- What is found behind a single write was written or was there. -/
theorem update_cases {x y : β} {k' : κ} (h : Function.update f k x k' = y) :
    (k' = k ∧ x = y) ∨ (k' ≠ k ∧ f k' = y) := by
  by_cases hk : k' = k
  · rw [hk, Function.update_self] at h
    exact .inl ⟨hk, h⟩
  · rw [Function.update_of_ne hk] at h
    exact .inr ⟨hk, h⟩

/-- The values of the items, written under their keys one after the other. -/
def writes (key : α → κ) (val : α → β) (l : List α) (f : κ → β) : κ → β :=
  l.foldl (fun f a => Function.update f (key a) (val a)) f

/-- A key that nothing is written under keeps its value. -/
theorem writes_of_forall_ne (h : ∀ a ∈ l, key a ≠ k) : writes key val l f k = f k := by
  induction l generalizing f with
  | nil => rfl
  | cons a l ih =>
    have hrest : writes key val l (Function.update f (key a) (val a)) k = _ :=
      ih fun b hb => h b (List.mem_cons_of_mem _ hb)
    exact hrest.trans (Function.update_of_ne (h a List.mem_cons_self).symm _ _)

/-- The last write under the key stays. -/
theorem writes_of_mem (h : ∃ a ∈ l, key a = k) :
    ∃ b ∈ l, key b = k ∧ writes key val l f k = val b := by
  induction l generalizing f with
  | nil =>
    obtain ⟨a, ha, -⟩ := h
    exact (List.not_mem_nil ha).elim
  | cons c l ih =>
    -- a later write under the key, if there is one, or this one
    by_cases hlater : ∃ a ∈ l, key a = k
    · obtain ⟨b, hb, hkey, hval⟩ := @ih (Function.update f (key c) (val c)) hlater
      exact ⟨b, List.mem_cons_of_mem _ hb, hkey, hval⟩
    · obtain ⟨a, ha, rfl⟩ := h
      have hnone : ∀ b ∈ l, key b ≠ key a := fun b hb hkey => hlater ⟨b, hb, hkey⟩
      rcases List.mem_cons.mp ha with rfl | ha
      · refine ⟨a, List.mem_cons_self, rfl, ?_⟩
        show writes key val l (Function.update f (key a) (val a)) (key a) = val a
        rw [writes_of_forall_ne hnone, Function.update_self]
      · exact absurd rfl (hnone a ha)

/-- Every value stays exactly if items with one key have one value. -/
theorem writes_all_iff : (∀ a ∈ l, writes key val l f (key a) = val a) ↔
    ∀ a ∈ l, ∀ b ∈ l, key a = key b → val a = val b := by
  constructor
  · intro h a ha b hb hkey
    rw [← h a ha, ← h b hb, hkey]
  · intro h a ha
    obtain ⟨b, hb, hkey, hval⟩ := @writes_of_mem _ _ _ _ key val l f (key a) ⟨a, ha, rfl⟩
    rw [hval]
    exact h b hb a ha hkey

end

end FileStorage.Lib

import FileStorage.Storage.Rep

/-!
# The storage is printed and freed

`printStorage` and `freerStorage`, which `main` calls after it has joined the
workers. Both walk along `son` from `head` until `NULL`; `freerStorage` frees
each node once it has read its `son`. The walk of `freerStorage` is the one of
`printStorage`, though the storage changes under it, because links lead to older
nodes only (`Descending`) and no node is met again.

A node that `removeFile` took out of the middle is still the `son` of another
one. Each walk is therefore defined exactly when it meets no such node
(`printStorage_iff`, `freerStorage_iff`), and then it frees the nodes it met and
no others.

Conventions: the rules and headings around the lines of `printStorage` are left
out, and so is the counter of `freerStorage`, which nothing reads.
-/

namespace FileStorage.Storage

open FileStorage.Lib

/-- What `printStorage` prints of a file. -/
def File.line (f : File) : Bytes × Int := (f.pathname, f.fileSz)

/-- The loop of `printStorage`: what it prints, and the pointer it stops at. -/
def printLoop (st : InfoStorage) : Nat → Ptr → List (Bytes × Int) × Ptr
  | 0, current => ([], current)
  | _ + 1, none => ([], none)
  | k + 1, some current =>
    match st.heap current with
    | none => ([], some current)
    | some node =>
      let rest := printLoop st k node.son
      (node.toFile.line :: rest.1, rest.2)

/-- `printStorage`: a walk that stops at a freed node is undefined. -/
def printStorage (st : InfoStorage) : Option (List (Bytes × Int)) :=
  match printLoop st st.brk st.head with
  | (lines, none) => some lines
  | (_, some _) => none

/-- The loop of `freerStorage`: the pointer it stops at, and what is left. -/
def freerLoop : Nat → Ptr → InfoStorage → Ptr × InfoStorage
  | 0, current, st => (current, st)
  | _ + 1, none, st => (none, st)
  | k + 1, some tmp, st =>
    match st.heap tmp with
    | none => (some tmp, st)
    | some node => freerLoop k node.son (st.free tmp)

/-- `freerStorage`. -/
def freerStorage (st : InfoStorage) : Option InfoStorage :=
  match freerLoop st.brk st.head st with
  | (none, st') => some st'
  | (some _, _) => none

/-- The nodes of `l` are freed. -/
def InfoStorage.freeAll (st : InfoStorage) (l : List NodeId) : InfoStorage :=
  { st with heap := fun n => if n ∈ l then none else st.heap n }

/-- The lines for some nodes. -/
def InfoStorage.lines (st : InfoStorage) (l : List NodeId) : List (Bytes × Int) :=
  l.filterMap fun n => (st.file n).map File.line

section

variable {st st' : InfoStorage} {k : Nat} {p : Ptr} {n : NodeId} {l : List NodeId}

/-- The freed nodes are those of the list. -/
theorem stored_freeAll : (st.freeAll l).Stored n ↔ st.Stored n ∧ n ∉ l := by
  show (if n ∈ l then none else st.heap n).isSome = true ↔ (st.heap n).isSome = true ∧ n ∉ l
  by_cases h : n ∈ l
  · simp [h]
  · simp [h]

theorem free_freeAll : (st.free n).freeAll l = st.freeAll (n :: l) := by
  unfold InfoStorage.freeAll InfoStorage.free
  congr 1
  funext m
  show (if m ∈ l then none else Function.update st.heap n none m) =
    if m ∈ n :: l then none else st.heap m
  by_cases hm : m = n
  · rw [hm, Function.update_self, if_pos List.mem_cons_self, ite_self]
  · rw [Function.update_of_ne hm]
    refine if_congr ?_ rfl rfl
    exact ⟨List.mem_cons_of_mem n, fun h => (List.mem_cons.mp h).resolve_left hm⟩

/-- The rest of a walk is below the node it left. -/
theorem Descending.follow_lt (hd : Descending st) :
    ∀ m ∈ follow st.son k (st.son n), m < n :=
  follow_below hd.son fun m hm => hd.son n m hm

/-- A freed node has no link that could go up. -/
theorem Descending.free (hd : Descending st) : Descending (st.free n) where
  son := by
    intro a b hab
    rw [son_free] at hab
    by_cases ha : a = n
    · rw [ha, Function.update_self] at hab
      cases hab
    · rw [Function.update_of_ne ha] at hab
      exact hd.son a b hab
  head := hd.head

/-- Freeing a node does not disturb the rest of the walk. -/
theorem Descending.follow_free (hd : Descending st) :
    follow (st.free n).son k (st.son n) = follow st.son k (st.son n) := by
  refine follow_congr fun m hm => ?_
  rw [son_free]
  exact Function.update_of_ne (Nat.ne_of_lt (hd.follow_lt m hm)) _ _

theorem heap_free_of_ne {m : NodeId} (h : m ≠ n) : (st.free n).heap m = st.heap m :=
  Function.update_of_ne h _ _

theorem Descending.bound (hd : Descending st) (hp : n < k + 1) :
    ∀ m, st.son n = some m → m < k := by
  intro m hm
  exact Nat.lt_of_lt_of_le (hd.son n m hm) (Nat.le_of_lt_succ hp)

theorem stored_of_heap {node : Node} (h : st.heap n = some node) : st.Stored n := by
  unfold InfoStorage.Stored
  rw [h]
  rfl

/-! ## The walk of `printStorage` -/

/-- The loop has no defined step at a freed node. -/
theorem printLoop_freed (h : st.heap n = none) : printLoop st (k + 1) (some n) = ([], some n) := by
  simp only [printLoop, h]

theorem printLoop_next {node : Node} (h : st.heap n = some node) :
    printLoop st (k + 1) (some n) =
      (node.toFile.line :: (printLoop st k (st.son n)).1, (printLoop st k (st.son n)).2) := by
  simp only [printLoop, h, son_of_heap h]

/-- Where the walk stays on stored nodes, all of them are printed. -/
theorem printLoop_stored (hd : Descending st) (hp : ∀ n, p = some n → n < k)
    (h : ∀ n ∈ follow st.son k p, st.Stored n) :
    printLoop st k p = (st.lines (follow st.son k p), none) := by
  induction k generalizing p with
  | zero =>
    cases p with
    | none => rfl
    | some n => exact absurd (hp n rfl) (Nat.not_lt_zero n)
  | succ k ih =>
    cases p with
    | none => rfl
    | some n =>
      obtain ⟨node, hnode⟩ := heap_of_stored (h n List.mem_cons_self)
      have hfile : st.file n = some node.toFile := file_of_heap hnode
      have hrest := ih (hd.bound (hp n rfl)) fun m hm => h m (List.mem_cons_of_mem n hm)
      rw [printLoop_next hnode, hrest]
      show (_ :: _, none) = ((n :: follow st.son k (st.son n)).filterMap _, none)
      rw [List.filterMap_cons, hfile]
      rfl

/-- A walk that comes to `NULL` has met stored nodes only. -/
theorem stored_of_printLoop (h : (printLoop st k p).2 = none) :
    ∀ n ∈ follow st.son k p, st.Stored n := by
  induction k generalizing p with
  | zero => exact fun n hn => (List.not_mem_nil hn).elim
  | succ k ih =>
    cases p with
    | none => exact fun n hn => (List.not_mem_nil hn).elim
    | some m =>
      intro n hn
      cases hnode : st.heap m with
      | none =>
        rw [printLoop_freed hnode] at h
        cases h
      | some node =>
        rw [printLoop_next hnode] at h
        rcases List.mem_cons.mp hn with rfl | hn
        · exact stored_of_heap hnode
        · exact ih h n hn

/-- `printStorage` is defined exactly if no freed node is linked, and then it
prints the files from the newest to the oldest. -/
theorem printStorage_iff (hd : Descending st) {lines : List (Bytes × Int)} :
    printStorage st = some lines ↔
      (∀ n ∈ st.nodes, st.Stored n) ∧ lines = st.lines st.nodes := by
  unfold printStorage
  constructor
  · intro h
    split at h
    · next out heq =>
      have hall : ∀ n ∈ st.nodes, st.Stored n := stored_of_printLoop (by rw [heq])
      rw [printLoop_stored hd hd.head hall] at heq
      obtain ⟨rfl, -⟩ := Prod.mk.inj heq
      exact ⟨hall, (Option.some.inj h).symm⟩
    · cases h
  · intro h
    obtain ⟨hall, rfl⟩ := h
    rw [printLoop_stored hd hd.head hall]
    rfl

/-! ## The walk of `freerStorage` -/

/-- A freed node is not read again. -/
theorem freerLoop_freed (h : st.heap n = none) : freerLoop (k + 1) (some n) st = (some n, st) := by
  simp only [freerLoop, h]

theorem freerLoop_next {node : Node} (h : st.heap n = some node) :
    freerLoop (k + 1) (some n) st = freerLoop k (st.son n) (st.free n) := by
  simp only [freerLoop, h, son_of_heap h]

/-- Where the walk stays on stored nodes, all of them are freed. -/
theorem freerLoop_stored (hd : Descending st) (hp : ∀ n, p = some n → n < k)
    (h : ∀ n ∈ follow st.son k p, st.Stored n) :
    freerLoop k p st = (none, st.freeAll (follow st.son k p)) := by
  induction k generalizing p st with
  | zero =>
    cases p with
    | none => rfl
    | some n => exact absurd (hp n rfl) (Nat.not_lt_zero n)
  | succ k ih =>
    cases p with
    | none => rfl
    | some n =>
      obtain ⟨node, hnode⟩ := heap_of_stored (h n List.mem_cons_self)
      have hbelow : ∀ m ∈ follow st.son k (st.son n), m ≠ n := fun m hm =>
        Nat.ne_of_lt (hd.follow_lt m hm)
      have hrest := @ih (st.free n) (st.son n) hd.free (hd.bound (hp n rfl)) (by
        rw [hd.follow_free]
        intro m hm
        unfold InfoStorage.Stored
        rw [heap_free_of_ne (hbelow m hm)]
        exact h m (List.mem_cons_of_mem n hm))
      rw [freerLoop_next hnode, hrest, hd.follow_free, free_freeAll]
      rfl

/-- If the loop ends, its walk was on stored nodes. -/
theorem stored_of_freerLoop (hd : Descending st) (h : (freerLoop k p st).1 = none) :
    ∀ n ∈ follow st.son k p, st.Stored n := by
  induction k generalizing p st with
  | zero => exact fun n hn => (List.not_mem_nil hn).elim
  | succ k ih =>
    cases p with
    | none => exact fun n hn => (List.not_mem_nil hn).elim
    | some m =>
      intro n hn
      cases hnode : st.heap m with
      | none =>
        rw [freerLoop_freed hnode] at h
        cases h
      | some node =>
        rw [freerLoop_next hnode] at h
        rcases List.mem_cons.mp hn with rfl | hn
        · exact stored_of_heap hnode
        · have hrest := @ih (st.free m) _ hd.free h n (by rwa [hd.follow_free])
          unfold InfoStorage.Stored at hrest
          rwa [heap_free_of_ne (Nat.ne_of_lt (hd.follow_lt n hn))] at hrest

/-- `freerStorage` is defined exactly if no freed node is linked, and then it
frees the nodes of the list, each once. -/
theorem freerStorage_iff (hd : Descending st) :
    freerStorage st = some st' ↔
      (∀ n ∈ st.nodes, st.Stored n) ∧ st' = st.freeAll st.nodes := by
  unfold freerStorage
  constructor
  · intro h
    split at h
    · next left heq =>
      have hall : ∀ n ∈ st.nodes, st.Stored n := stored_of_freerLoop hd (by rw [heq])
      rw [freerLoop_stored hd hd.head hall] at heq
      obtain ⟨-, rfl⟩ := Prod.mk.inj heq
      exact ⟨hall, (Option.some.inj h).symm⟩
    · cases h
  · intro h
    obtain ⟨hall, rfl⟩ := h
    rw [freerLoop_stored hd hd.head hall]
    rfl

/-- Nothing is left exactly if the list holds the stored nodes, all of them and
no others. -/
theorem released_iff (hd : Descending st) :
    (∃ st', freerStorage st = some st' ∧ ∀ n, ¬ st'.Stored n) ↔
      ∀ n, n ∈ st.nodes ↔ st.Stored n := by
  constructor
  · intro h n
    obtain ⟨st', hfree, hnone⟩ := h
    obtain ⟨hall, rfl⟩ := (freerStorage_iff hd).mp hfree
    refine ⟨hall n, fun hs => ?_⟩
    by_contra hn
    exact hnone n (stored_freeAll.mpr ⟨hs, hn⟩)
  · intro h
    refine ⟨_, (freerStorage_iff hd).mpr ⟨fun n hn => (h n).mp hn, rfl⟩, fun n hs => ?_⟩
    obtain ⟨hs, hn⟩ := stored_freeAll.mp hs
    exact hn ((h n).mpr hs)

end

end FileStorage.Storage

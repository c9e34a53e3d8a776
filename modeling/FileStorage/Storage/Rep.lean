import FileStorage.Storage.Links

/-!
# The storage as a list

`Rep st l` says that the links of the storage spell the list `l`: read along
`son` from `head` to `last` the nodes are exactly `l`, `father` goes the other
way, and `l` holds the stored nodes and no others. It is the meaning of the
linked structure, and it lets each section be read as an operation on a list:

* an insertion puts the new node in front (`Rep.linkedIn`);
* a removal takes a node out (`Rep.relinked`), when the node is at an end;
* a search finds the first match (`Rep.search`), so it is always defined.

`removeFile` does not relink around a node that has neighbours on both sides,
so there is no rule for an `inner` node.

`StorageOk` says the same without the list, in terms of the walk that the code
itself makes, together with what the two counters must be.
-/

namespace FileStorage.Storage

open FileStorage.Lib

/-- The links spell the list of the stored nodes. -/
structure Rep (st : InfoStorage) (l : List NodeId) : Prop where
  linked : Linked st.son st.father st.head st.last l
  mem : ∀ n, n ∈ l ↔ st.Stored n

/-- The node has neighbours on both sides. -/
def InfoStorage.inner (st : InfoStorage) (n : NodeId) : Bool :=
  (st.son n).isSome && (st.father n).isSome

/-- The nodes that the walk along `son` visits. -/
def InfoStorage.nodes (st : InfoStorage) : List NodeId := follow st.son st.brk st.head

/-- The invariant of the representation. -/
structure StorageOk (st : InfoStorage) : Prop where
  ends : (st.head = none ∧ st.last = none) ∨
    ∃ a b, st.head = some a ∧ st.last = some b ∧ st.Stored a ∧ st.Stored b
  once : st.nodes.Nodup
  visits : ∀ n, n ∈ st.nodes ↔ st.Stored n
  endsAtLast : st.nodes.getLast? = st.last ∧ ∀ b, st.last = some b → st.son b = none
  stays : ∀ a b, st.son a = some b → st.Stored b
  inverse : ∀ a b, st.son a = some b ↔ st.father b = some a
  count : (st.nodes.length : Int) = st.nfileTot - st.nfileDispo
  bytes : (st.nodes.map st.fileSz).sum = st.ramTot - st.ramDispo

variable {st st' : InfoStorage} {l l₁ l₂ : List NodeId} {n m : NodeId} {f : File}
variable {cur : Ptr} {p : Bytes}

/-- Only a stored node has links. -/
theorem stored_of_son (h : st.son n = some m) : st.Stored n := by
  unfold InfoStorage.Stored
  cases hn : st.heap n with
  | none => unfold InfoStorage.son at h; rw [hn] at h; cases h
  | some _ => rfl

theorem stored_of_father (h : st.father n = some m) : st.Stored n := by
  unfold InfoStorage.Stored
  cases hn : st.heap n with
  | none => unfold InfoStorage.father at h; rw [hn] at h; cases h
  | some _ => rfl

theorem stored_iff_files : st.Stored n ↔ ∃ f, st.store.files n = some f := by
  rw [stored_iff_file, Option.isSome_iff_exists]

/-- The new storage is the empty list. -/
theorem rep_createStorage (ram nfile : Int) : Rep (createStorage ram nfile) [] :=
  ⟨linked_nil, fun n => ⟨(fun h => by cases h), (fun h => by cases h)⟩⟩

/-! ## The sections as list operations -/

/-- A section that writes no link keeps the list. -/
theorem Rep.sameLinks (h : Rep st l) (hs : SameLinks st st') : Rep st' l := by
  refine ⟨?_, fun n => (h.mem n).trans (hs.stored n).symm⟩
  rw [hs.son, hs.father, hs.head, hs.last]
  exact h.linked

/-- An insertion puts the new node in front. -/
theorem Rep.linkedIn (h : Rep st l) (hfresh : st.store.Fresh) (hi : LinkedIn st st')
    (hst : st'.store = st.store.insert f) : Rep st' (st.brk :: l) := by
  have hnew : st.brk ∉ l := by
    intro hmem
    obtain ⟨g, hg⟩ := stored_iff_files.mp ((h.mem _).mp hmem)
    exact Nat.lt_irrefl _ (hfresh _ g hg)
  refine ⟨?_, fun m => ?_⟩
  · have old : ∀ {b : NodeId}, b ∈ l → b ≠ st.brk := by
      intro b hb heq
      subst heq
      exact hnew hb
    cases hi with
    | first hh hl hhead hlast hson hfather =>
      have hpush : Linked st'.son st'.father (some st.brk) (some (st.last.getD st.brk))
          (st.brk :: l) := by
        refine h.linked.push hnew ?_ ?_ (fun b hb => ?_) (fun b hb => ?_)
        · rw [hson, Function.update_self, hh]
        · rw [hfather, Function.update_self]
        · rw [hson, Function.update_of_ne (old hb)]
        · rw [hfather, Function.update_of_ne (old hb), hh]
          rfl
      rw [hhead, hlast]
      rwa [hl] at hpush
    | @front t hh ht hhead hlast hson hfather =>
      have hpush : Linked st'.son st'.father (some st.brk) (some (st.last.getD st.brk))
          (st.brk :: l) := by
        refine h.linked.push hnew ?_ ?_ (fun b hb => ?_) (fun b hb => ?_)
        · rw [hson, Function.update_self, hh]
        · rw [hfather, Function.update_self]
        · rw [hson, Function.update_of_ne (old hb)]
        · rw [hfather, Function.update_of_ne (old hb), hh]
          by_cases hb' : b = t
          · rw [hb', Function.update_self, if_pos rfl]
          · rw [Function.update_of_ne hb', if_neg (fun e => hb' (Option.some.inj e).symm)]
      -- the list is not empty, so the last node stays the last one
      have hsome : ∃ b, st.last = some b := by
        rw [h.linked.last_eq]
        have hne : l ≠ [] := by
          intro heq
          subst heq
          have := h.linked.head_eq
          rw [hh] at this
          cases this
        exact ⟨l.getLast hne, List.getLast?_eq_some_getLast hne⟩
      obtain ⟨b, hb⟩ := hsome
      rw [hhead, hlast, hb]
      rwa [hb] at hpush
  · rw [List.mem_cons, h.mem, stored_iff_files, stored_iff_files, hst]
    constructor
    · intro hx
      rcases hx with rfl | ⟨g, hg⟩
      · exact ⟨f, Store.files_insert_self⟩
      · exact ⟨g, by rw [Store.files_insert_ne (Nat.ne_of_lt (hfresh _ g hg))]; exact hg⟩
    · intro hx
      obtain ⟨g, hg⟩ := hx
      rcases Store.of_files_insert hg with ⟨rfl, -⟩ | ⟨-, hold⟩
      · exact .inl rfl
      · exact .inr ⟨g, hold⟩

/-- The list without the removed node lists what is left. -/
theorem Rep.mem_remove (h : Rep st (l₁ ++ n :: l₂)) (hst : st'.store = st.store.remove n f)
    (m : NodeId) : m ∈ l₁ ++ l₂ ↔ st'.Stored m := by
  rw [stored_iff_files, hst]
  constructor
  · intro hm
    have hne : m ≠ n := by
      intro heq
      subst heq
      exact h.linked.not_mem hm
    have hold : m ∈ l₁ ++ n :: l₂ := by
      rcases List.mem_append.mp hm with hm | hm
      · exact List.mem_append_left _ hm
      · exact List.mem_append_right _ (List.mem_cons_of_mem _ hm)
    obtain ⟨g, hg⟩ := stored_iff_files.mp ((h.mem m).mp hold)
    exact ⟨g, by rw [Store.files_remove_ne hne]; exact hg⟩
  · intro hx
    obtain ⟨g, hg⟩ := hx
    obtain ⟨hne, hold⟩ := Store.of_files_remove hg
    have := (h.mem m).mpr (stored_iff_files.mpr ⟨g, hold⟩)
    rcases List.mem_append.mp this with hm | hm
    · exact List.mem_append_left _ hm
    · rcases List.mem_cons.mp hm with hm | hm
      · exact absurd hm hne
      · exact List.mem_append_right _ hm

/-- Taking out a node at an end leaves the others linked, and the cursor on the
neighbour in front of it. -/
theorem Rep.relinked (h : Rep st (l₁ ++ n :: l₂)) (hr : Relinked st n st' cur)
    (hst : st'.store = st.store.remove n f) (hinner : st.inner n = false) :
    Rep st' (l₁ ++ l₂) ∧ cur = l₁.getLast? := by
  -- which branch was taken says which side of the node is empty
  have hson : st.son n = l₂.head? := h.linked.son_eq
  have hfather : st.father n = l₁.getLast? := h.linked.father_eq
  have hn₁ : n ∉ l₁ := fun hmem => h.linked.not_mem (List.mem_append_left _ hmem)
  have hn₂ : n ∉ l₂ := fun hmem => h.linked.not_mem (List.mem_append_right _ hmem)
  have hmem := h.mem_remove hst
  cases hr with
  | only hs hf hhead hlast _ _ hcur =>
    have h₁ : l₁ = [] := List.getLast?_eq_none_iff.mp (hfather.symm.trans hf)
    have h₂ : l₂ = [] := List.head?_eq_none_iff.mp (hson.symm.trans hs)
    subst h₁ h₂
    refine ⟨⟨?_, hmem⟩, hcur⟩
    rw [hhead, hlast]
    exact linked_nil
  | @last a hs hf hhead hlast hson' hfather' hcur =>
    have h₂ : l₂ = [] := List.head?_eq_none_iff.mp (hson.symm.trans hs)
    subst h₂
    rw [List.append_nil] at hmem ⊢
    refine ⟨⟨?_, hmem⟩, by rw [hcur, ← hf, hfather]⟩
    -- only the father's link to the node is cut
    have hdrop : Linked st'.son st'.father l₁.head? (st.father n) l₁ := by
      refine h.linked.dropLast (fun b hb => ?_) (fun b hb => ?_)
      · have hbn : b ≠ n := fun e => hn₁ (e ▸ hb)
        rw [hson', Function.update_of_ne hbn, hf]
        by_cases hba : b = a
        · rw [hba, Function.update_self, if_pos rfl]
        · rw [Function.update_of_ne hba, if_neg (fun e => hba (Option.some.inj e).symm)]
      · have hbn : b ≠ n := fun e => hn₁ (e ▸ hb)
        rw [hfather', Function.update_of_ne hbn]
    have hne : l₁ ≠ [] := by
      intro heq
      subst heq
      rw [hfather] at hf
      cases hf
    rw [hhead, hlast, ← hf, h.linked.head_eq, List.head?_append_of_ne_nil _ hne]
    exact hdrop
  | @head a hs hf hhead hlast hson' hfather' hcur =>
    have h₁ : l₁ = [] := List.getLast?_eq_none_iff.mp (hfather.symm.trans hf)
    subst h₁
    rw [List.nil_append] at hmem ⊢
    refine ⟨⟨?_, hmem⟩, hcur⟩
    -- only the son's link to the node is cut
    have hdrop : Linked st'.son st'.father (st.son n) l₂.getLast? l₂ := by
      refine Linked.dropHead (a := n) h.linked (fun b hb => ?_) (fun b hb => ?_)
      · have hbn : b ≠ n := fun e => hn₂ (e ▸ hb)
        rw [hson', Function.update_of_ne hbn]
      · have hbn : b ≠ n := fun e => hn₂ (e ▸ hb)
        rw [hfather', Function.update_of_ne hbn, hs]
        by_cases hba : b = a
        · rw [hba, Function.update_self, if_pos rfl]
        · rw [Function.update_of_ne hba, if_neg (fun e => hba (Option.some.inj e).symm)]
    have hlast' : st.last = l₂.getLast? := by
      rw [h.linked.last_eq, List.nil_append]
      have hne : l₂ ≠ [] := by
        intro heq
        subst heq
        rw [hson] at hs
        cases hs
      rw [List.getLast?_cons_of_ne_nil hne]
    rw [hhead, hlast, ← hs, hlast']
    exact hdrop
  | middle hs hf =>
    unfold InfoStorage.inner at hinner
    rw [hs, hf] at hinner
    cases hinner

/-- Removing an inner node writes no other node. -/
theorem Relinked.inner (h : Relinked st n st' cur) (hinner : st.inner n = true) :
    st'.head = st.head ∧ ∀ m, m ≠ n → st'.son m = st.son m := by
  unfold InfoStorage.inner at hinner
  cases h with
  | only hs hf => rw [hs, hf] at hinner; cases hinner
  | last hs hf => rw [hs, hf] at hinner; cases hinner
  | head hs hf => rw [hs, hf] at hinner; cases hinner
  | middle _ _ hhead _ hson =>
    exact ⟨hhead, fun m hm => by rw [hson, Function.update_of_ne hm]⟩

/-- The cursor that a removal leaves is on another stored node. -/
theorem Rep.evicted {c : NodeId} {rm : Bytes} {k : Int} {r : Removal} (h : Rep st l)
    (hc : st.Stored c) (hr : removeFile c rm st k = some (some r)) (hinner : st.inner c = false)
    (hm : r.currentFile = some m) : st.Stored m ∧ m ≠ c := by
  obtain ⟨l₁, l₂, rfl⟩ := List.append_of_mem ((h.mem c).mpr hc)
  obtain ⟨f, -, -, hst, -⟩ := store_removeFile hr
  obtain ⟨-, hcur⟩ := h.relinked (relinked_removeFile hr) hst hinner
  have hmem : m ∈ l₁ := List.mem_of_getLast? (hcur ▸ hm)
  refine ⟨(h.mem m).mp (List.mem_append_left _ hmem), ?_⟩
  intro heq
  subst heq
  exact h.linked.not_mem (List.mem_append_left _ hmem)

/-! ## The sections are defined -/

theorem heap_of_stored (hn : st.Stored n) : ∃ node, st.heap n = some node :=
  Option.isSome_iff_exists.mp hn

theorem evictableAt_of_heap {node : Node} (hn : st.heap n = some node) :
    st.evictableAt n = evictable node.toFile := by
  unfold InfoStorage.evictableAt
  rw [show st.file n = some node.toFile from file_of_heap hn]
  rfl

/-- The neighbours of a stored node are stored. -/
theorem Rep.neighbours (h : Rep st l) {node : Node} (hn : st.heap n = some node) :
    (∀ s, node.son = some s → st.Stored s) ∧ (∀ a, node.father = some a → st.Stored a) := by
  have hmem : n ∈ l := (h.mem n).mpr (by unfold InfoStorage.Stored; rw [hn]; rfl)
  exact ⟨fun s hs => (h.mem s).mp (h.linked.son_mem hmem ((son_of_heap hn).trans hs)),
    fun a ha => (h.mem a).mp (h.linked.father_mem hmem ((father_of_heap hn).trans ha))⟩

/-- Unlinking follows no dangling pointer. -/
theorem Rep.unlink_defined (h : Rep st l) {node : Node} (hn : st.heap n = some node) :
    ∃ q, unlink st n node = some q := by
  obtain ⟨hson, hfather⟩ := h.neighbours hn
  unfold unlink
  cases hs : node.son with
  | none =>
    cases hf : node.father with
    | none => exact ⟨_, rfl⟩
    | some a =>
      obtain ⟨x, hx⟩ := heap_of_stored (hfather a hf)
      simp [hx]
  | some s =>
    cases hf : node.father with
    | none =>
      obtain ⟨x, hx⟩ := heap_of_stored (hson s hs)
      simp [hx]
    | some a => exact ⟨_, rfl⟩

/-- A refused file may not be evicted. -/
theorem refused_removeFile {rmPath : Bytes} {k : Int} (h : removeFile n rmPath st k = some none) :
    st.evictableAt n = false := by
  unfold removeFile at h
  cases hn : st.heap n with
  | none => simp [hn] at h
  | some node =>
    rw [evictableAt_of_heap hn]
    cases he : evictable node.toFile with
    | false => rfl
    | true =>
      simp only [hn, Option.bind_eq_bind, Option.bind_some, he, if_true] at h
      cases hu : unlink st n node with
      | none => simp [hu] at h
      | some p => simp [hu] at h

/-- `removeFile` removes the file exactly when it is closed and written. -/
theorem Rep.removeFile_defined (h : Rep st l) (hn : st.Stored n) (rmPath : Bytes) (k : Int) :
    (st.evictableAt n = false ∧ removeFile n rmPath st k = some none) ∨
      (st.evictableAt n = true ∧ ∃ r, removeFile n rmPath st k = some (some r)) := by
  obtain ⟨node, hnode⟩ := heap_of_stored hn
  unfold removeFile
  rw [hnode, evictableAt_of_heap hnode]
  cases he : evictable node.toFile with
  | false => exact .inl ⟨rfl, by simp [he]⟩
  | true =>
    obtain ⟨q, hq⟩ := h.unlink_defined hnode
    refine .inr ⟨rfl, ?_⟩
    simp only [Option.bind_eq_bind, Option.bind_some, he, if_true, hq]
    exact ⟨_, rfl⟩

/-- A file that is too large can be taken out. -/
theorem Rep.oversizeSection_defined (h : Rep st l) (hn : st.Stored n) (rmPath : Bytes) (k : Int) :
    ∃ r, oversizeSection st n rmPath k = some r := by
  obtain ⟨node, hnode⟩ := heap_of_stored hn
  have hsame : SameLinks st (st.modify n fun x => { x with fdClientId := -1, modified := 1 }) :=
    sameLinks_modify (fun _ => rfl) (fun _ => rfl)
  have hnode' : (st.modify n fun x => { x with fdClientId := -1, modified := 1 }).heap n
      = some { node with fdClientId := -1, modified := 1 } := by
    show Function.update st.heap n _ n = _
    rw [Function.update_self, hnode]
    rfl
  unfold oversizeSection
  rw [hnode]
  rcases (h.sameLinks hsame).removeFile_defined ((hsame.stored n).mpr hn) rmPath k with
    ⟨he, -⟩ | ⟨-, r, hr⟩
  · rw [evictableAt_of_heap hnode'] at he
    cases he
  · exact ⟨r, by simp [hr]⟩

theorem insertSection_of_head (hh : st.head = some m) (hm : st.Stored m) (x : Node) :
    ∃ st', insertSection st x = some st' := by
  obtain ⟨y, hy⟩ := heap_of_stored hm
  unfold insertSection
  simp [hh, hy]

/-- An insertion finds its head. -/
theorem Rep.insertSection_defined (h : Rep st l) (x : Node) :
    ∃ st', insertSection st x = some st' := by
  cases hh : st.head with
  | none =>
    have hl : st.last = none := by
      have hnil : l = [] := List.head?_eq_none_iff.mp (h.linked.head_eq.symm.trans hh)
      rw [h.linked.last_eq, hnil]
      rfl
    unfold insertSection
    simp [hh, hl]
  | some t => exact insertSection_of_head hh ((h.mem t).mp (h.linked.head_mem hh)) x

/-! ## Searching the list -/

/-- The test that the search makes at a node. -/
def InfoStorage.matches (st : InfoStorage) (pathname : Bytes) (n : NodeId) : Bool :=
  (st.heap n).any fun node => strncmpEq node.pathname pathname pathname.length

/-- The search finds the first node of the chain that matches. -/
theorem searchLoop_chain {l : List NodeId} {q : Ptr} (hc : Chain st.son st.father q l none)
    (hst : ∀ n ∈ l, st.Stored n) :
    searchLoop st p l.length l.head? = some (l.find? (st.matches p)) := by
  induction l generalizing q with
  | nil => rfl
  | cons a l ih =>
    obtain ⟨node, hn⟩ := Option.isSome_iff_exists.mp (hst a (List.mem_cons_self ..))
    have ih := ih hc.2.2 fun n hn => hst n (List.mem_cons_of_mem _ hn)
    have hnext : node.son = l.head? := by
      rw [← son_of_heap hn, hc.2.1, Option.or_none]
    show (st.heap a).bind _ = _
    rw [hn, Option.bind_some, List.find?_cons]
    have htest : st.matches p a = strncmpEq node.pathname p p.length := by
      unfold InfoStorage.matches
      rw [hn]
      rfl
    rw [htest]
    cases strncmpEq node.pathname p p.length with
    | true => rfl
    | false =>
      show searchLoop st p l.length node.son = _
      rw [hnext]
      exact ih

/-- The list has as many nodes as slots are taken. -/
theorem Rep.length_eq (h : Rep st l) (hfresh : st.store.Fresh) (hb : st.store.Balanced) :
    (l.length : Int) = st.nfileTot - st.nfileDispo := by
  have hset : l.toFinset = st.store.stored := by
    ext n
    rw [List.mem_toFinset, h.mem, stored_iff_files, Store.mem_stored hfresh]
  have hcount : st.store.total (fun _ => 1) = st.nfileTot - st.nfileDispo := hb.nfile
  rw [← hcount, Store.total_one, ← hset, List.toFinset_card_of_nodup h.linked.nodup]

/-- The search looks at every node until the first match, and at nothing else. -/
theorem Rep.search (h : Rep st l) (hfresh : st.store.Fresh) (hb : st.store.Balanced)
    (pathname : Bytes) :
    searchFileNode pathname st = some (l.find? (st.matches pathname)) := by
  unfold searchFileNode
  rw [← h.length_eq hfresh hb, Int.toNat_natCast, h.linked.head_eq]
  exact searchLoop_chain h.linked.chain fun n hn => (h.mem n).mp hn

/-! ## The invariant in the terms of the code -/

/-- Walking the list visits its nodes. -/
theorem Rep.nodes_eq (h : Rep st l) (hfresh : st.store.Fresh) : st.nodes = l := by
  refine h.linked.follow_eq ?_
  have hsub : l.toFinset ⊆ Finset.range st.brk := by
    intro n hn
    obtain ⟨f, hf⟩ := stored_iff_files.mp ((h.mem n).mp (List.mem_toFinset.mp hn))
    exact Finset.mem_range.mpr (hfresh n f hf)
  have hcard := Finset.card_le_card hsub
  rwa [List.toFinset_card_of_nodup h.linked.nodup, Finset.card_range] at hcard

/-- The walk along `father` from `last` is the list backwards. -/
theorem Rep.nodes_reverse (h : Rep st l) (hfresh : st.store.Fresh) :
    follow st.father st.brk st.last = l.reverse := by
  refine h.linked.reverse.follow_eq ?_
  rw [List.length_reverse, ← h.nodes_eq hfresh]
  exact length_follow_le

/-- Their sizes make up the bytes that are taken. -/
theorem Rep.bytes_eq (h : Rep st l) (hfresh : st.store.Fresh) (hb : st.store.Balanced) :
    (l.map st.fileSz).sum = st.ramTot - st.ramDispo := by
  have hram : st.store.total (·.fileSz) = st.ramTot - st.ramDispo := hb.ram
  rw [← hram, ← List.sum_toFinset _ h.linked.nodup]
  refine Finset.sum_subset (fun n hn => ?_) (fun n _ hn => ?_)
  · obtain ⟨f, hf⟩ := stored_iff_files.mp ((h.mem n).mp (List.mem_toFinset.mp hn))
    exact Finset.mem_range.mpr (hfresh n f hf)
  · rw [List.mem_toFinset, h.mem, stored_iff_files] at hn
    cases hf : st.file n with
    | none => unfold InfoStorage.fileSz; rw [hf]; rfl
    | some f => exact absurd ⟨f, hf⟩ hn

/-- Such a storage is in order. -/
theorem Rep.ok (h : Rep st l) (hfresh : st.store.Fresh) (hb : st.store.Balanced) :
    StorageOk st := by
  have hnodes := h.nodes_eq hfresh
  have hl := h.linked
  refine ⟨?_, hnodes ▸ hl.nodup, hnodes ▸ h.mem, ⟨?_, fun b hb' => ?_⟩, fun a b hab => ?_,
    fun a b => ⟨fun hab => ?_, fun hab => ?_⟩, hnodes ▸ h.length_eq hfresh hb,
    hnodes ▸ h.bytes_eq hfresh hb⟩
  · cases l with
    | nil => exact .inl ⟨hl.head_eq, hl.last_eq⟩
    | cons a l =>
      have hlast : st.last = some ((a :: l).getLast (by simp)) := by
        rw [hl.last_eq, List.getLast?_eq_some_getLast]
      exact .inr ⟨a, _, hl.head_eq, hlast, (h.mem a).mp (List.mem_cons_self ..),
        (h.mem _).mp (hl.last_mem hlast)⟩
  · rw [hnodes, hl.last_eq]
  · rw [hl.last_eq] at hb'
    obtain ⟨l₁, rfl⟩ := List.getLast?_eq_some_iff.mp hb'
    exact hl.son_eq
  · exact (h.mem b).mp (hl.son_mem ((h.mem a).mpr (stored_of_son hab)) hab)
  · have ha := (h.mem a).mpr (stored_of_son hab)
    exact (hl.inverse ha (hl.son_mem ha hab)).mp hab
  · have hb' := (h.mem b).mpr (stored_of_father hab)
    exact (hl.inverse (hl.father_mem hb' hab) hb').mpr hab

end FileStorage.Storage

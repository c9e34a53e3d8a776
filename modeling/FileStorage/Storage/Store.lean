import FileStorage.Storage.Model

/-!
# The storage as a map from identities to files

What the clients can observe of the storage is which files it holds, who owns
them and what they contain; the links only decide the order of a walk. `Store`
forgets the links: a partial map from identities to files next to the counters.
Its operations are what the storage is *for*: put a file in, take one out,
change an owner, append to a content.

Each critical section of the linked storage refines one of these operations
(`store_insertSection`, `store_removeFile`, `store_updateSection`, …). A
statement that does not mention links is proved once about `Store` and holds of
the linked storage whatever its links look like, also after a relinking has
gone wrong.
-/

namespace FileStorage.Storage

open FileStorage.Lib

/-- The files and the counters, without links. -/
structure Store where
  files : NodeId → Option File
  ramTot : Int
  ramDispo : Int
  nfileTot : Int
  nfileDispo : Int
  brk : NodeId

/-- The abstraction function. -/
def InfoStorage.store (st : InfoStorage) : Store where
  files := st.file
  ramTot := st.ramTot
  ramDispo := st.ramDispo
  nfileTot := st.nfileTot
  nfileDispo := st.nfileDispo
  brk := st.brk

namespace Store

/-- A new file takes a slot. -/
def insert (s : Store) (f : File) : Store :=
  { s with
    files := Function.update s.files s.brk (some f)
    brk := s.brk + 1
    nfileDispo := s.nfileDispo - 1 }

/-- A file leaves and gives its slot and its bytes back. -/
def remove (s : Store) (n : NodeId) (f : File) : Store :=
  { s with
    files := Function.update s.files n none
    ramDispo := s.ramDispo + f.fileSz
    nfileDispo := s.nfileDispo + 1 }

/-- The owner of a file changes. -/
def setFd (s : Store) (n : NodeId) (fd : Int) : Store :=
  { s with files := Function.update s.files n ((s.files n).map ({ · with fdClientId := fd })) }

/-- A file grows. -/
def append (s : Store) (n : NodeId) (content : Bytes) : Store :=
  { s with
    files := Function.update s.files n ((s.files n).map fun f =>
      { f with
        contentFile := f.contentFile.take f.fileSz.toNat ++ content
        fileSz := f.fileSz + content.length
        modified := 1 })
    ramDispo := s.ramDispo - content.length }

/-- The file is stored and its owner is `fd`. -/
def Owned (s : Store) (n : NodeId) (fd : Int) : Prop :=
  ∃ f, s.files n = some f ∧ f.fdClientId = fd

/-- Identities are handed out in order, so the next one is fresh. -/
def Fresh (s : Store) : Prop := ∀ n f, s.files n = some f → n < s.brk

/-! ## One lemma for each kind of write -/

variable {s : Store} {n m : NodeId} {f g : File} {fd fd' : Int} {content : Bytes}

/-- An insertion changes no other node. -/
theorem files_insert_ne (h : n ≠ s.brk) : (s.insert f).files n = s.files n :=
  Function.update_of_ne h _ _

@[simp] theorem files_insert_self : (s.insert f).files s.brk = some f :=
  Function.update_self ..

/-- A removal changes no other node. -/
theorem files_remove_ne (h : n ≠ m) : (s.remove m f).files n = s.files n :=
  Function.update_of_ne h _ _

@[simp] theorem files_remove_self : (s.remove n f).files n = none :=
  Function.update_self ..

/-- A new owner is written in one node. -/
theorem files_setFd_ne (h : n ≠ m) : (s.setFd m fd).files n = s.files n :=
  Function.update_of_ne h _ _

theorem files_setFd_self (h : s.files n = some f) :
    (s.setFd n fd).files n = some { f with fdClientId := fd } := by
  show Function.update _ _ _ n = _
  rw [Function.update_self, h]
  rfl

/-- An append changes no other node. -/
theorem files_append_ne (h : n ≠ m) : (s.append m content).files n = s.files n :=
  Function.update_of_ne h _ _

theorem files_append_self (h : s.files n = some f) :
    (s.append n content).files n = some
      { f with
        contentFile := f.contentFile.take f.fileSz.toNat ++ content
        fileSz := f.fileSz + content.length
        modified := 1 } := by
  show Function.update _ _ _ n = _
  rw [Function.update_self, h]
  rfl

/-! Read backwards: where a file of the new store comes from. -/

/-- What is stored behind an insertion is new or was stored. -/
theorem of_files_insert (h : (s.insert g).files m = some f) :
    (m = s.brk ∧ f = g) ∨ (m ≠ s.brk ∧ s.files m = some f) := by
  by_cases hm : m = s.brk
  · subst hm
    rw [files_insert_self] at h
    exact .inl ⟨rfl, (Option.some.inj h).symm⟩
  · rw [files_insert_ne hm] at h
    exact .inr ⟨hm, h⟩

/-- What is stored behind a removal was stored. -/
theorem of_files_remove (h : (s.remove n g).files m = some f) : m ≠ n ∧ s.files m = some f := by
  by_cases hm : m = n
  · subst hm
    rw [files_remove_self] at h
    cases h
  · rw [files_remove_ne hm] at h
    exact ⟨hm, h⟩

/-- What is stored behind a write of the owner differs by the owner at most. -/
theorem of_files_setFd (h : (s.setFd n fd).files m = some f) :
    ∃ g, s.files m = some g ∧ (f = { g with fdClientId := fd } ∧ m = n ∨ f = g ∧ m ≠ n) := by
  by_cases hm : m = n
  · subst hm
    change Function.update _ _ _ m = _ at h
    rw [Function.update_self] at h
    obtain ⟨g, hg, rfl⟩ := Option.map_eq_some_iff.mp h
    exact ⟨g, hg, .inl ⟨rfl, rfl⟩⟩
  · rw [files_setFd_ne hm] at h
    exact ⟨f, h, .inr ⟨rfl, hm⟩⟩

/-- Behind an append, one file is longer. -/
theorem of_files_append (h : (s.append n content).files m = some f) :
    ∃ g, s.files m = some g ∧
      (f = { g with
          contentFile := g.contentFile.take g.fileSz.toNat ++ content
          fileSz := g.fileSz + content.length
          modified := 1 } ∧ m = n ∨ f = g ∧ m ≠ n) := by
  by_cases hm : m = n
  · subst hm
    change Function.update _ _ _ m = _ at h
    rw [Function.update_self] at h
    obtain ⟨g, hg, rfl⟩ := Option.map_eq_some_iff.mp h
    exact ⟨g, hg, .inl ⟨rfl, rfl⟩⟩
  · rw [files_append_ne hm] at h
    exact ⟨f, h, .inr ⟨rfl, hm⟩⟩

/-! ## Fresh identities -/

/-- The next node is not in use. -/
theorem Fresh.insert (h : s.Fresh) : (s.insert g).Fresh := by
  intro m f hm
  show m < s.brk + 1
  rcases of_files_insert hm with ⟨rfl, -⟩ | ⟨-, hm⟩
  · exact Nat.lt_succ_self _
  · exact Nat.lt_succ_of_lt (h m f hm)

theorem Fresh.remove (h : s.Fresh) : (s.remove n g).Fresh :=
  fun m f hm => h m f (of_files_remove hm).2

theorem Fresh.setFd (h : s.Fresh) : (s.setFd n fd).Fresh := by
  intro m f hm
  obtain ⟨g, hg, -⟩ := of_files_setFd hm
  exact h m g hg

theorem Fresh.append (h : s.Fresh) : (s.append n content).Fresh := by
  intro m f hm
  obtain ⟨g, hg, -⟩ := of_files_append hm
  exact h m g hg

/-! ## Owners -/

/-- A file has one owner. -/
theorem Owned.unique (h₁ : s.Owned n fd) (h₂ : s.Owned n fd') : fd = fd' := by
  obtain ⟨f, hf, rfl⟩ := h₁
  obtain ⟨g, hg, rfl⟩ := h₂
  rw [hf] at hg
  exact congrArg File.fdClientId (Option.some.inj hg)

/-- Owners keep their files in an insertion. -/
theorem Owned.insert (hs : s.Fresh) (h : s.Owned n fd) : (s.insert g).Owned n fd := by
  obtain ⟨f, hf, ho⟩ := h
  exact ⟨f, by rw [files_insert_ne (Nat.ne_of_lt (hs n f hf))]; exact hf, ho⟩

/-- And in the removal of another file. -/
theorem Owned.remove (h : s.Owned n fd) (hne : n ≠ m) : (s.remove m g).Owned n fd := by
  obtain ⟨f, hf, ho⟩ := h
  exact ⟨f, by rw [files_remove_ne hne]; exact hf, ho⟩

/-- And in a write to another file. -/
theorem Owned.setFd (h : s.Owned n fd) (hne : n ≠ m) : (s.setFd m fd').Owned n fd := by
  obtain ⟨f, hf, ho⟩ := h
  exact ⟨f, by rw [files_setFd_ne hne]; exact hf, ho⟩

theorem owned_setFd_self (h : s.files n = some f) : (s.setFd n fd).Owned n fd :=
  ⟨_, files_setFd_self h, rfl⟩

/-- Appending changes no owner. -/
theorem Owned.append (h : s.Owned n fd) : (s.append m content).Owned n fd := by
  obtain ⟨f, hf, ho⟩ := h
  by_cases hne : n = m
  · subst hne
    exact ⟨_, files_append_self hf, ho⟩
  · exact ⟨f, by rw [files_append_ne hne]; exact hf, ho⟩

/-- A closed file is nobody's. -/
theorem owned_of_evictable (h : s.files n = some f) (he : evictable f = true) :
    s.Owned n (-1) := by
  unfold evictable at he
  simp only [Bool.and_eq_true, beq_iff_eq] at he
  exact ⟨f, h, he.1⟩

end Store

/-- `removeFile` would take the file. -/
def InfoStorage.evictableAt (st : InfoStorage) (n : NodeId) : Bool := (st.file n).any evictable

variable {st st' : InfoStorage} {n m : NodeId} {node : Node} {f : File} {r : Removal}
variable {rmPath : Bytes} {k : Int} {fd : Int} {content : Bytes}

/-- A node is stored if there is a file behind it. -/
theorem stored_iff_file : st.Stored n ↔ (st.store.files n).isSome = true := by
  unfold InfoStorage.Stored InfoStorage.store InfoStorage.file
  rw [Option.isSome_map]

/-- The file of a node is its part without the links. -/
theorem file_of_heap (h : st.heap n = some node) : st.store.files n = some node.toFile := by
  show (st.heap n).map _ = _
  rw [h]; rfl

theorem heap_of_file (h : st.store.files n = some f) :
    ∃ node, st.heap n = some node ∧ node.toFile = f := by
  change (st.heap n).map (·.toFile) = some f at h
  exact Option.map_eq_some_iff.mp h

theorem evictableAt_of_file (hf : st.store.files n = some f) (he : evictable f = true) :
    st.evictableAt n = true := by
  unfold InfoStorage.evictableAt
  rw [show st.file n = some f from hf]
  exact he

/-! ## Writes to one node -/

/-- A heap write seen in the map. -/
theorem file_update (heap : NodeId → Option Node) (n : NodeId) (x : Option Node) :
    (fun m => (Function.update heap n x m).map Node.toFile)
      = Function.update (fun m => (heap m).map Node.toFile) n (x.map Node.toFile) :=
  Function.comp_update (Option.map Node.toFile) heap n x

/-- A write to the fields of a node changes the map at that node only. -/
theorem file_modify (g : Node → Node) (g' : File → File)
    (hg : ∀ x, (g x).toFile = g' x.toFile) :
    (st.modify n g).file = Function.update st.file n ((st.file n).map g') := by
  have hval : ((st.heap n).map g).map Node.toFile = (st.file n).map g' := by
    show _ = ((st.heap n).map Node.toFile).map g'
    rw [Option.map_map, Option.map_map]
    exact congrArg (fun k => (st.heap n).map k) (funext hg)
  rw [← hval]
  exact file_update st.heap n _

/-- A write to a link is invisible in the map. -/
theorem file_modify_link {g : Node → Node} (hg : ∀ x, (g x).toFile = x.toFile) :
    (st.modify n g).file = st.file := by
  rw [file_modify g id hg, Option.map_id, id_eq, Function.update_eq_self]

theorem file_free : (st.free n).file = Function.update st.file n none :=
  file_update st.heap n none

/-! ## The sections refine the operations -/

/-- Relinking frees nothing, writes no file field and no counter. -/
theorem unlink_frame {p : InfoStorage × Ptr} (h : unlink st n node = some p)
    (hn : st.heap n = some node) : p.1.store = st.store := by
  unfold unlink at h
  split at h
  · cases h; rfl
  · next f hs hf =>
    cases hx : st.heap f with
    | none => simp [hx] at h
    | some x =>
      simp only [hx, Option.bind_eq_bind, Option.bind_some, Option.some.injEq] at h
      subst h
      simp only [InfoStorage.store]
      rw [show ({ st.modify f (fun x => { x with son := none }) with last := some f } :
        InfoStorage).file = st.file from file_modify_link (fun _ => rfl)]
      rfl
  · next s hs hf =>
    cases hx : st.heap s with
    | none => simp [hx] at h
    | some x =>
      simp only [hx, Option.bind_eq_bind, Option.bind_some, Option.some.injEq] at h
      subst h
      simp only [InfoStorage.store]
      rw [show ({ st.modify s (fun x => { x with father := none }) with head := some s } :
        InfoStorage).file = st.file from file_modify_link (fun _ => rfl)]
      rfl
  · simp only [Option.some.injEq] at h
    subst h
    -- the node keeps its own file, only its links are rewritten
    have hfile : (st.modify n fun _ => { node with father := node.son }).file = st.file := by
      rw [file_modify (fun _ => { node with father := node.son }) (fun _ => node.toFile)
        (fun _ => rfl)]
      have hsame : (st.file n).map (fun _ => node.toFile) = st.file n := by
        rw [show st.file n = some node.toFile from file_of_heap hn]
        rfl
      rw [hsame, Function.update_eq_self]
    exact congrArg (fun g => Store.mk g _ _ _ _ _) hfile

/-- `removeFile` removed the file, and only because it was closed and
written. -/
theorem store_removeFile (h : removeFile n rmPath st k = some (some r)) :
    ∃ f, st.store.files n = some f ∧ evictable f = true ∧ r.storage.store = st.store.remove n f ∧
      r.rmPath = rmPath ++ [44] ++ f.pathname ∧ r.nfileRemoved = k + 1 := by
  unfold removeFile at h
  cases hn : st.heap n with
  | none => simp [hn] at h
  | some node =>
    simp only [hn, Option.bind_eq_bind, Option.bind_some] at h
    by_cases he : evictable node.toFile = true
    · rw [if_pos he] at h
      cases hu : unlink st n node with
      | none => simp [hu] at h
      | some p =>
        simp only [hu, Option.bind_some, Option.some.injEq] at h
        subst h
        have hframe := unlink_frame hu hn
        refine ⟨node.toFile, file_of_heap hn, he, ?_, rfl, rfl⟩
        have h1 : p.1.file = st.file := congrArg Store.files hframe
        have h2 : p.1.ramDispo = st.ramDispo := congrArg Store.ramDispo hframe
        have h3 : p.1.nfileDispo = st.nfileDispo := congrArg Store.nfileDispo hframe
        have h4 : p.1.ramTot = st.ramTot := congrArg Store.ramTot hframe
        have h5 : p.1.nfileTot = st.nfileTot := congrArg Store.nfileTot hframe
        have h6 : p.1.brk = st.brk := congrArg Store.brk hframe
        show Store.mk (p.1.free n).file _ _ _ _ _ = Store.mk _ _ _ _ _ _
        rw [file_free, h1]
        show Store.mk _ p.1.ramTot (p.1.ramDispo + _) p.1.nfileTot (p.1.nfileDispo + 1) p.1.brk = _
        rw [h2, h3, h4, h5, h6]
        rfl
    · rw [if_neg he] at h
      simp at h

/-- The oversize section removes the target. -/
theorem store_oversizeSection (h : oversizeSection st n rmPath k = some r) :
    ∃ f, st.store.files n = some f ∧ r.storage.store = st.store.remove n f ∧
      r.rmPath = rmPath ++ [44] ++ f.pathname ∧ r.nfileRemoved = k + 1 := by
  unfold oversizeSection at h
  cases hn : st.heap n with
  | none => simp [hn] at h
  | some node =>
    simp only [hn, Option.bind_eq_bind, Option.bind_some] at h
    cases hr : removeFile n rmPath
        (st.modify n (fun x => { x with fdClientId := -1, modified := 1 })) k with
    | none => simp [hr] at h
    | some o =>
      simp only [hr, Option.bind_some] at h
      subst h
      obtain ⟨f, hf, -, hs, hp, hk⟩ := store_removeFile hr
      have hfile : (st.modify n fun x => { x with fdClientId := -1, modified := 1 }).file
          = Function.update st.file n
            ((st.file n).map fun x => { x with fdClientId := -1, modified := 1 }) :=
        file_modify _ _ (fun _ => rfl)
      have hst : st.file n = some node.toFile := file_of_heap hn
      have hf' : some { node.toFile with fdClientId := -1, modified := 1 } = some f := by
        rw [← hf]
        show _ = (st.modify n _).file n
        rw [hfile, Function.update_self, hst]
        rfl
      have hfe := Option.some.inj hf'
      refine ⟨node.toFile, hst, ?_, by rw [hp, ← hfe], hk⟩
      rw [hs, ← hfe]
      show Store.mk (Function.update (st.modify n _).file n none) _ _ _ _ _
        = Store.mk (Function.update st.file n none) _ _ _ _ _
      rw [hfile, Function.update_idem]
      rfl

/-- The committing section of `insertCreateFile` puts the file in. -/
theorem store_insertSection (h : insertSection st node = some st') :
    st'.store = st.store.insert node.toFile := by
  unfold insertSection at h
  by_cases hc : st.head = none ∧ st.last = none
  · rw [if_pos hc] at h
    simp only [Option.some.injEq] at h
    subst h
    exact congrArg (fun g => Store.mk g _ _ _ _ _) (file_update st.heap st.brk (some node))
  · rw [if_neg hc] at h
    cases hh : st.head with
    | none => simp [hh] at h
    | some t =>
      cases ht : st.heap t with
      | none => simp [hh, ht] at h
      | some x =>
        simp only [hh, ht, Option.bind_eq_bind, Option.bind_some, Option.some.injEq] at h
        subst h
        have hlink : (st.modify t (fun x => { x with father := some st.brk })).file = st.file :=
          file_modify_link (fun _ => rfl)
        have hfile := file_update
          (st.modify t (fun x => { x with father := some st.brk })).heap st.brk
          (some { node with son := some t })
        rw [show (fun m => ((st.modify t (fun x => { x with father := some st.brk })).heap m).map
          Node.toFile) = st.file from hlink] at hfile
        exact congrArg (fun g => Store.mk g _ _ _ _ _) hfile

/-- The committing section of `UpdateFile` appends for the owner. -/
theorem store_updateSection (h : updateSection st n fd content = some (some st')) :
    ∃ f, st.store.files n = some f ∧ f.fdClientId = fd ∧ st'.store = st.store.append n content := by
  unfold updateSection at h
  cases hn : st.heap n with
  | none => simp [hn] at h
  | some node =>
    simp only [hn, Option.bind_eq_bind, Option.bind_some] at h
    by_cases ho : fd ≠ node.fdClientId
    · rw [if_pos ho] at h
      simp at h
    · rw [if_neg ho] at h
      simp only [Option.some.injEq] at h
      subst h
      refine ⟨node.toFile, file_of_heap hn, by simpa using (not_not.mp ho).symm, ?_⟩
      show Store.mk (st.modify n _).file _ _ _ _ _ = _
      rw [file_modify _ (fun f =>
        { f with
          contentFile := f.contentFile.take f.fileSz.toNat ++ content
          fileSz := f.fileSz + content.length
          modified := 1 }) (fun _ => rfl)]
      rfl

/-- Writing the owner of a node refines `setFd`. -/
theorem store_setFd : (st.modify n (fun x => { x with fdClientId := fd })).store
    = st.store.setFd n fd := by
  show Store.mk (st.modify n _).file _ _ _ _ _ = _
  rw [file_modify _ (fun f => { f with fdClientId := fd }) (fun _ => rfl)]
  rfl

/-- OPEN FILE takes a closed file only. -/
theorem store_openSection (h : openSection st n fd = some (some st')) :
    ∃ f, st.store.files n = some f ∧ f.fdClientId = -1 ∧ st'.store = st.store.setFd n fd := by
  unfold openSection at h
  cases hn : st.heap n with
  | none => simp [hn] at h
  | some node =>
    simp only [hn, Option.bind_eq_bind, Option.bind_some] at h
    by_cases ho : node.fdClientId = -1
    · rw [if_pos ho] at h
      simp only [Option.some.injEq] at h
      subst h
      exact ⟨node.toFile, file_of_heap hn, ho, store_setFd⟩
    · rw [if_neg ho] at h
      simp at h

/-- CLOSE FILE closes for the owner only. -/
theorem store_closeSection (h : closeSection st n fd = some (some st')) :
    ∃ f, st.store.files n = some f ∧ f.fdClientId = fd ∧ st'.store = st.store.setFd n (-1) := by
  unfold closeSection at h
  cases hn : st.heap n with
  | none => simp [hn] at h
  | some node =>
    simp only [hn, Option.bind_eq_bind, Option.bind_some] at h
    by_cases ho : node.fdClientId = fd
    · rw [if_pos ho] at h
      simp only [Option.some.injEq] at h
      subst h
      exact ⟨node.toFile, file_of_heap hn, ho, store_setFd⟩
    · rw [if_neg ho] at h
      simp at h

/-- The READ N section passes a never written file over, and closes any other
file it sends, whoever owns it. -/
theorem store_readNSection (h : readNSection st n = some (node, st')) :
    st.heap n = some node ∧
      st'.store = if node.modified = -1 then st.store else st.store.setFd n (-1) := by
  unfold readNSection at h
  cases hn : st.heap n with
  | none => simp [hn] at h
  | some x =>
    simp only [hn, Option.bind_eq_bind, Option.bind_some] at h
    by_cases hm : x.modified = -1
    · rw [if_pos hm] at h
      simp only [Option.some.injEq, Prod.mk.injEq] at h
      obtain ⟨rfl, rfl⟩ := h
      exact ⟨rfl, by rw [if_pos hm]⟩
    · rw [if_neg hm] at h
      simp only [Option.some.injEq, Prod.mk.injEq] at h
      obtain ⟨rfl, rfl⟩ := h
      exact ⟨rfl, by rw [if_neg hm]; exact store_setFd⟩

/-- What `searchFileNode` finds is stored and its name starts with the
requested one. -/
theorem searchLoop_found {pathname : Bytes} {nb : Nat} {p : Ptr}
    (h : searchLoop st pathname nb p = some (some n)) :
    ∃ f, st.store.files n = some f ∧ pathname <+: f.pathname := by
  induction nb generalizing p with
  | zero => simp [searchLoop] at h
  | succ nb ih =>
    cases p with
    | none => simp [searchLoop] at h
    | some c =>
      unfold searchLoop at h
      cases hc : st.heap c with
      | none => simp [hc] at h
      | some node =>
        simp only [hc, Option.bind_eq_bind, Option.bind_some] at h
        split at h
        · next hm =>
          simp only [Option.some.injEq] at h
          subst h
          exact ⟨node.toFile, file_of_heap hc, (strncmpEq_length _ _).mp hm⟩
        · exact ih h

end FileStorage.Storage
